import MoteBroker.Lib.Progress

/-!
A socket server and its end: the thread that accepts clients, and `__exit__`, which disconnects
them, wakes the thread and joins it. Which clients are left, and when the thread does not end.
-/

namespace MoteBroker.Servers

/-! ### The system -/

/-- Where the thread is in `loop`. -/
inductive Loop
  | notStarted
  /-- About to set `alive`. -/
  | mark
  /-- About to bind the socket and to listen. -/
  | bind
  /-- About to test `alive`. -/
  | test
  | accept
  /-- About to test `alive` again, with a client. -/
  | accepted (client : ℕ)
  /-- In `handle_client`, before and after `new_connection`. -/
  | handling (client : ℕ)
  | connected (client : ℕ)
  | ended
  deriving DecidableEq

/-- Where `__exit__` is. -/
inductive Exit
  | idle
  /-- In the loop that disconnects the clients. -/
  | clearing
  /-- About to call `stop_socket`. -/
  | waking
  /-- About to shut the socket down. -/
  | shutting
  /-- About to close it. -/
  | closing
  | joining
  | done
  deriving DecidableEq

inductive Socket
  | opened
  | listening
  | shut
  | closed
  deriving DecidableEq

structure System where
  loop : Loop
  exit : Exit
  alive : Bool
  server : Socket
  /-- The connections that the socket has for `accept`. -/
  backlog : List ℕ
  clients : List ℕ
  /-- The clients that have a handler, and those that have been disconnected. -/
  started : List ℕ
  disconnected : List ℕ
  deriving DecidableEq

def initial : System := ⟨.notStarted, .idle, false, .opened, [], [], [], []⟩

inductive Event
  /-- `__enter__`. -/
  | enter
  /-- Somebody connects. -/
  | connect (client : ℕ)
  /-- A step of the thread; `fails` where a call raises that can also succeed. -/
  | loop (fails : Bool)
  /-- A step of `__exit__`; a connection by `stop_socket` has this number. -/
  | exit (waker : ℕ)

/-- A new connection is taken on where the socket listens. -/
def System.connect (s : System) (client : ℕ) : System :=
  if s.server = .listening then { s with backlog := s.backlog ++ [client] } else s

/-- A step of `loop`; `none` where the thread cannot go on, as it has ended or waits in `accept`. -/
def System.loopStep (s : System) (fails : Bool) : Option System :=
  match s.loop with
  | .notStarted | .ended => none
  | .mark => some { s with alive := true, loop := .bind }
  | .bind =>
    if s.server = .closed ∨ fails then some { s with loop := .ended }
    else some { s with server := .listening, loop := .test }
  | .test => some { s with loop := if s.alive then .accept else .ended }
  | .accept =>
    if s.server ≠ .listening ∨ fails then
      some { s with loop := if s.alive then .test else .ended }
    else
      match s.backlog with
      | [] => none
      | client :: backlog => some { s with backlog := backlog, loop := .accepted client }
  | .accepted client => some { s with loop := if s.alive then .handling client else .ended }
  | .handling client =>
    if fails then some { s with loop := .test }
    else some { s with started := s.started ++ [client], loop := .connected client }
  | .connected client => some { s with clients := s.clients ++ [client], loop := .test }

/-- A step of `stop` and of `thread.join()`. -/
def System.exitStep (s : System) (waker : ℕ) : Option System :=
  match s.exit with
  | .idle =>
    if s.loop = .notStarted then none else some { s with alive := false, exit := .clearing }
  | .clearing =>
    match s.clients.getLast? with
    | some client => some { s with
        clients := s.clients.dropLast, disconnected := s.disconnected ++ [client] }
    | none => some { s with exit := .waking }
  | .waking => some { s.connect waker with exit := .shutting }
  | .shutting => some { s with
      server := if s.server = .listening then .shut else s.server, exit := .closing }
  | .closing => some { s with server := .closed, exit := .joining }
  | .joining => if s.loop = .ended then some { s with exit := .done } else none
  | .done => none

def step (s : System) : Event → Option System
  | .enter => if s.loop = .notStarted then some { s with loop := .mark } else none
  | .connect client => some (s.connect client)
  | .loop fails => s.loopStep fails
  | .exit waker => s.exitStep waker

/-! ### The clients that are left -/

/-- The client that has a handler but is not in the list yet. -/
def Loop.held : Loop → List ℕ
  | .connected client => [client]
  | _ => []

/-- How many clients the thread can still put in the list without another test of `alive`. -/
def Loop.room : Loop → ℕ
  | .handling _ | .connected _ => 1
  | _ => 0

lemma Loop.room_le (loop : Loop) : loop.room ≤ 1 := by
  cases loop <;> simp [room]

lemma Loop.length_held (loop : Loop) : loop.held.length ≤ loop.room := by
  cases loop <;> simp [held, room]

/-- The clients that have a handler and have not been disconnected. -/
def System.left (s : System) : List ℕ := s.clients ++ s.loop.held

/-- `stop` has found no client any more. -/
def Exit.Cleared (exit : Exit) : Prop := exit ≠ .idle ∧ exit ≠ .clearing

structure Invariant (s : System) : Prop where
  entered : s.loop = .notStarted → s.exit = .idle
  clients : s.started.Perm (s.disconnected ++ s.left)
  cleared : s.exit.Cleared → s.alive = false → s.clients.length + s.loop.room ≤ 1
  closed : s.exit = .joining ∨ s.exit = .done → s.server = .closed

lemma invariant_initial : Invariant initial where
  entered _ := rfl
  clients := .refl _
  cleared h := absurd rfl h.1
  closed h := by rcases h with h | h <;> cases h

section
variable {s s' : System}

lemma connect_eq (s : System) (client : ℕ) :
    s.connect client = { s with backlog := (s.connect client).backlog } := by
  unfold System.connect
  split_ifs <;> rfl

lemma Invariant.connect (h : Invariant s) (client : ℕ) : Invariant (s.connect client) := by
  rw [connect_eq]
  exact { h with }

/-- The thread goes on, and nothing else changes. -/
lemma Invariant.move (h : Invariant s) {loop : Loop} (hstart : loop ≠ .notStarted)
    (hheld : loop.held = s.loop.held) (hroom : loop.room ≤ s.loop.room) :
    Invariant { s with loop := loop } where
  entered hloop := absurd hloop hstart
  clients := by
    unfold System.left
    rw [hheld]
    exact h.clients
  cleared hcleared halive := (Nat.add_le_add_left hroom _).trans (h.cleared hcleared halive)
  closed := h.closed

lemma Invariant.loopStep {fails : Bool} (h : Invariant s) (hs : s.loopStep fails = some s') :
    Invariant s' := by
  have hmove := fun loop h₁ h₂ h₃ => @Invariant.move s h loop h₁ h₂ h₃
  obtain ⟨hentered, hclients, hcleared, hclosed⟩ := h
  unfold System.loopStep at hs
  cases hloop : s.loop with
  | notStarted | ended =>
    rw [hloop] at hs
    cases hs
  | mark =>
    simp only [hloop] at hs
    cases hs
    unfold System.left at hclients
    rw [hloop] at hclients
    exact ⟨nofun, hclients, fun _ halive => absurd halive nofun, hclosed⟩
  | bind =>
    simp only [hloop] at hs
    split_ifs at hs with hfails <;> cases hs
    · exact hmove .ended nofun (by rw [hloop]; rfl) (Nat.zero_le _)
    · unfold System.left at hclients
      rw [hloop] at hclients hcleared
      exact ⟨nofun, hclients, hcleared, fun hexit => absurd (.inl (hclosed hexit)) hfails⟩
  | test =>
    simp only [hloop] at hs
    cases hs
    split_ifs
    · exact hmove .accept nofun (by rw [hloop]; rfl) (Nat.zero_le _)
    · exact hmove .ended nofun (by rw [hloop]; rfl) (Nat.zero_le _)
  | accept =>
    simp only [hloop] at hs
    split_ifs at hs
    · cases hs
      exact hmove .test nofun (by rw [hloop]; rfl) (Nat.zero_le _)
    · cases hs
      exact hmove .ended nofun (by rw [hloop]; rfl) (Nat.zero_le _)
    · split at hs <;> cases hs
      unfold System.left at hclients
      rw [hloop] at hclients hcleared
      exact ⟨nofun, hclients, hcleared, hclosed⟩
  | accepted client =>
    simp only [hloop] at hs
    cases hs
    split_ifs with halive
    · unfold System.left at hclients
      rw [hloop] at hclients
      exact ⟨nofun, hclients, fun _ hfalse => absurd (halive.symm.trans hfalse) nofun, hclosed⟩
    · exact hmove .ended nofun (by rw [hloop]; rfl) (Nat.zero_le _)
  | handling client =>
    simp only [hloop] at hs
    split_ifs at hs <;> cases hs
    · exact hmove .test nofun (by rw [hloop]; rfl) (Nat.zero_le _)
    · unfold System.left at hclients
      rw [hloop] at hclients hcleared
      refine ⟨nofun, ?_, hcleared, hclosed⟩
      have hadd := hclients.append_right [client]
      simpa [System.left, Loop.held] using hadd
  | connected client =>
    simp only [hloop] at hs
    cases hs
    unfold System.left at hclients
    rw [hloop] at hclients hcleared
    refine ⟨nofun, ?_, fun hexit halive => ?_, hclosed⟩
    · simpa [System.left, Loop.held] using hclients
    · have hlength := hcleared hexit halive
      simpa [Loop.room] using hlength

/-- `__exit__` goes on. -/
lemma Invariant.exitTo (h : Invariant s) (hloop : s.loop ≠ .notStarted) {exit : Exit}
    {server : Socket} (hcleared : exit.Cleared → s.alive = false →
      s.clients.length + s.loop.room ≤ 1)
    (hclosed : exit = .joining ∨ exit = .done → server = .closed) :
    Invariant { s with exit := exit, server := server } :=
  ⟨fun hnot => absurd hnot hloop, h.clients, hcleared, hclosed⟩

lemma Invariant.exitStep {waker : ℕ} (h : Invariant s) (hs : s.exitStep waker = some s') :
    Invariant s' := by
  have hstarted : s.exit ≠ .idle → s.loop ≠ .notStarted := fun hexit hloop =>
    hexit (h.entered hloop)
  unfold System.exitStep at hs
  cases hexit : s.exit with
  | idle =>
    simp only [hexit] at hs
    split_ifs at hs with hloop
    cases hs
    exact ⟨fun h => absurd h hloop, h.clients, fun hcleared => absurd rfl hcleared.2, by simp⟩
  | clearing =>
    have hloop := hstarted (by rw [hexit]; nofun)
    simp only [hexit] at hs
    split at hs
    case h_1 client hlast =>
      cases hs
      refine ⟨fun h => absurd h hloop, ?_, fun hcleared => absurd rfl hcleared.2, by simp⟩
      obtain ⟨clients, hclients⟩ := List.getLast?_eq_some_iff.mp hlast
      have hperm := h.clients
      unfold System.left at hperm ⊢
      rw [hclients] at hperm
      rw [hclients, List.dropLast_concat]
      refine hperm.trans ?_
      simp only [List.append_assoc]
      refine List.Perm.append_left _ ?_
      rw [← List.append_assoc, ← List.append_assoc]
      exact List.perm_append_comm.append_right _
    case h_2 hnone =>
      cases hs
      have hnil : s.clients = [] := List.getLast?_eq_none_iff.mp hnone
      refine h.exitTo hloop (fun _ _ => ?_) (by simp)
      rw [hnil, List.length_nil, Nat.zero_add]
      exact s.loop.room_le
  | waking =>
    have hcleared : s.exit.Cleared := by rw [hexit]; exact ⟨nofun, nofun⟩
    have hloop := hstarted hcleared.1
    simp only [hexit] at hs
    cases hs
    have hconnect := h.connect waker
    rw [connect_eq] at hconnect ⊢
    exact hconnect.exitTo hloop (fun _ => h.cleared hcleared) (by simp)
  | shutting =>
    have hcleared : s.exit.Cleared := by rw [hexit]; exact ⟨nofun, nofun⟩
    simp only [hexit] at hs
    cases hs
    exact h.exitTo (hstarted hcleared.1) (fun _ => h.cleared hcleared) (by simp)
  | closing =>
    have hcleared : s.exit.Cleared := by rw [hexit]; exact ⟨nofun, nofun⟩
    simp only [hexit] at hs
    cases hs
    exact h.exitTo (hstarted hcleared.1) (fun _ => h.cleared hcleared) fun _ => rfl
  | joining =>
    have hcleared : s.exit.Cleared := by rw [hexit]; exact ⟨nofun, nofun⟩
    simp only [hexit] at hs
    split_ifs at hs
    cases hs
    exact h.exitTo (hstarted hcleared.1) (fun _ => h.cleared hcleared) fun _ =>
      h.closed (.inl hexit)
  | done =>
    simp only [hexit] at hs
    cases hs

theorem Invariant.step {e : Event} (h : Invariant s) (hs : Servers.step s e = some s') :
    Invariant s' := by
  cases e with
  | enter =>
    simp only [Servers.step] at hs
    split_ifs at hs with hloop
    cases hs
    exact h.move nofun (by rw [hloop]; rfl) (Nat.zero_le _)
  | connect client =>
    cases hs
    exact h.connect client
  | loop fails => exact h.loopStep hs
  | exit waker => exact h.exitStep hs

/-- **`stop` leaves at most one client**: in every run each client that has got a handler is either
disconnected, once, or left; and once `stop` has gone through its clients, no more than one is
left, unless the thread has set `alive` only after `stop` had cleared it. -/
theorem at_most_one_left {es : List Event} (hrun : Runs.run Servers.step initial es = some s) :
    s.started.Perm (s.disconnected ++ s.left) ∧
      (s.exit.Cleared → s.alive = false → s.left.length ≤ 1) := by
  have h : Invariant s :=
    Runs.run_invariant_of_step (fun _ _ _ h hs => h.step hs) invariant_initial hrun
  refine ⟨h.clients, fun hcleared halive => ?_⟩
  have hlength := h.cleared hcleared halive
  have hheld := s.loop.length_held
  rw [System.left, List.length_append]
  omega

end

/-- A client is accepted just before the server is stopped. -/
def lastClient : List Event :=
  [.enter, .loop false, .loop false, .loop false, .connect 7, .loop false, .loop false, .exit 0,
    .exit 0, .loop false, .loop false]

theorem at_most_one_left_lastClient :
    ∃ s, Runs.run step initial lastClient = some s ∧ s.left = [7] ∧
      s.started.Perm (s.disconnected ++ s.left) ∧
      (s.exit.Cleared → s.alive = false → s.left.length ≤ 1) :=
  ⟨_, rfl, rfl, @at_most_one_left _ lastClient rfl⟩

/-! ### The end of the thread -/

/-- The thread goes round and round: it has set `alive` after `stop` had cleared it, and `accept`
fails on the socket that has been closed. -/
def Spins (s : System) : Prop :=
  s.alive = true ∧ s.loop ≠ .notStarted ∧ s.loop ≠ .mark ∧ s.loop ≠ .bind ∧ s.loop ≠ .ended

/-- The steps that are left when nobody connects. -/
def Own : Event → Prop
  | .loop _ | .exit _ => True
  | .enter | .connect _ => False

/-- `stop` has returned. -/
structure Stopped (s : System) : Prop where
  invariant : Invariant s
  exit : s.exit = .joining ∨ s.exit = .done

section
variable {s s' : System} {e : Event}

lemma Stopped.started (h : Stopped s) : s.loop ≠ .notStarted := fun hloop => by
  have hidle := h.invariant.entered hloop
  rcases h.exit with hexit | hexit
  all_goals
    rw [hexit] at hidle
    cases hidle

lemma Stopped.closed (h : Stopped s) : s.server = .closed := h.invariant.closed h.exit

/-- How many steps the thread has to go when `alive` is not set. -/
def Loop.rank : Loop → ℕ
  | .notStarted | .ended => 0
  | .bind | .test | .accept | .accepted _ => 1
  | .mark | .connected _ => 2
  | .handling _ => 3

/-- What the thread does once the socket has been closed. -/
lemma Stopped.loopStep (h : Stopped s) {fails : Bool} (hs : s.loopStep fails = some s') :
    s'.exit = s.exit ∧ (Spins s' ↔ Spins s) ∧ (¬Spins s → s'.loop.rank < s.loop.rank) := by
  have hclosed := h.closed
  unfold System.loopStep at hs
  cases hloop : s.loop with
  | notStarted | ended =>
    rw [hloop] at hs
    cases hs
  | mark =>
    simp only [hloop] at hs
    cases hs
    simp [Spins, hloop, Loop.rank]
  | bind =>
    simp only [hloop, hclosed, true_or, if_true] at hs
    cases hs
    simp [Spins, hloop, Loop.rank]
  | handling client =>
    simp only [hloop] at hs
    split_ifs at hs <;> cases hs <;> simp [Spins, hloop, Loop.rank]
  | connected client =>
    simp only [hloop] at hs
    cases hs
    simp [Spins, hloop, Loop.rank]
  | accept =>
    have hfails : s.server ≠ .listening ∨ fails = true := .inl (by rw [hclosed]; nofun)
    simp only [hloop, if_pos hfails] at hs
    cases hs
    cases halive : s.alive <;> simp [Spins, hloop, halive, Loop.rank]
  | test | accepted client =>
    simp only [hloop] at hs
    cases hs
    cases halive : s.alive <;> simp [Spins, hloop, halive, Loop.rank]

lemma Stopped.exists_loopStep (h : Stopped s) (hloop : s.loop ≠ .ended) :
    ∃ s', s.loopStep true = some s' := by
  have hfails : s.server ≠ .listening ∨ true = true := .inr rfl
  unfold System.loopStep
  cases hl : s.loop with
  | notStarted => exact absurd hl h.started
  | ended => exact absurd hl hloop
  | mark | test | accepted client | connected client => exact ⟨_, rfl⟩
  | bind | accept | handling client => simp

/-- What is left to do when `alive` is not set. -/
def work (s : System) : ℕ := s.loop.rank + if s.exit = .joining then 1 else 0

lemma Stopped.step (h : Stopped s) (hs : Servers.step s e = some s') :
    Stopped s' ∧ (Spins s' ↔ Spins s) ∧ (Own e → ¬Spins s → work s' < work s) := by
  have hinvariant := h.invariant.step hs
  cases e with
  | enter =>
    simp only [Servers.step, if_neg h.started] at hs
    cases hs
  | connect client =>
    cases hs
    have hconnect : s.connect client = s := by
      unfold System.connect
      rw [if_neg (by rw [h.closed]; nofun)]
    rw [hconnect]
    exact ⟨h, .rfl, fun hown => hown.elim⟩
  | loop fails =>
    obtain ⟨hexit, hspins, hrank⟩ := h.loopStep hs
    refine ⟨⟨hinvariant, by rw [hexit]; exact h.exit⟩, hspins, fun _ hnot => ?_⟩
    unfold work
    rw [hexit]
    exact Nat.add_lt_add_right (hrank hnot) _
  | exit waker =>
    simp only [Servers.step, System.exitStep] at hs
    rcases h.exit with hexit | hexit
    · simp only [hexit] at hs
      split_ifs at hs with hloop
      cases hs
      refine ⟨⟨hinvariant, .inr rfl⟩, .rfl, fun _ _ => ?_⟩
      simp [work, hexit]
    · simp only [hexit] at hs
      cases hs

/-- A thread that spins takes as many steps as it is given. -/
lemma exists_spins (h : Stopped s) (hspins : Spins s) (n : ℕ) :
    ∃ es s', (∀ e ∈ es, Own e) ∧ Runs.run Servers.step s es = some s' ∧ es.length = n := by
  induction n generalizing s with
  | zero => exact ⟨[], s, fun _ he => (nomatch he), rfl, rfl⟩
  | succ n ih =>
    obtain ⟨t, ht⟩ := h.exists_loopStep hspins.2.2.2.2
    have ht : Servers.step s (.loop true) = some t := ht
    obtain ⟨hstopped, hiff, -⟩ := h.step ht
    obtain ⟨es, s', hes, hrun, hlength⟩ := ih hstopped (hiff.mpr hspins)
    refine ⟨.loop true :: es, s', fun e he => ?_, ?_, by rw [List.length_cons, hlength]⟩
    · rcases List.mem_cons.mp he with rfl | he
      · trivial
      · exact hes e he
    · rw [Runs.run_cons, ht]
      exact hrun

lemma Stopped.done_of_quiet (h : Stopped s) (hquiet : Runs.Quiet Servers.step Own s) :
    s.exit = .done := by
  have hloop : s.loop = .ended := by
    by_contra hloop
    obtain ⟨t, ht⟩ := h.exists_loopStep hloop
    have hnone : s.loopStep true = none := hquiet (.loop true) trivial
    rw [hnone] at ht
    cases ht
  refine h.exit.resolve_left fun hexit => ?_
  have hnone : s.exitStep 0 = none := hquiet (.exit 0) trivial
  simp [System.exitStep, hexit, hloop] at hnone

/-- **When `__exit__` returns**: where `stop` has returned and nobody connects any more, the thread
ends after so many steps and is joined, if and only if it does not spin, which it does when it has
set `alive` after `stop` had cleared it and was about to accept before the socket was closed. -/
theorem exit_returns_iff {es : List Event} (hrun : Runs.run Servers.step initial es = some s)
    (hjoining : s.exit = .joining) :
    (∃ n, ∀ fs s', (∀ e ∈ fs, Own e) → Runs.run Servers.step s fs = some s' →
      fs.length ≤ n ∧ (Runs.Quiet Servers.step Own s' → s'.exit = .done)) ↔ ¬Spins s := by
  have h : Stopped s :=
    ⟨Runs.run_invariant_of_step (fun _ _ _ h hs => h.step hs) invariant_initial hrun, .inl hjoining⟩
  constructor
  · rintro ⟨n, hn⟩ hspins
    obtain ⟨fs, s', hfs, hrun, hlength⟩ := exists_spins h hspins (n + 1)
    have hle := (hn fs s' hfs hrun).1
    omega
  · intro hspins
    have hstep : ∀ s e s', Stopped s ∧ ¬Spins s → Servers.step s e = some s' →
        Stopped s' ∧ ¬Spins s' := fun s e s' ⟨h, hnot⟩ hs => by
      obtain ⟨hstopped, hiff, -⟩ := h.step hs
      exact ⟨hstopped, fun hspins => hnot (hiff.mp hspins)⟩
    have hwork : ∀ s e s', Stopped s ∧ ¬Spins s → Own e → Servers.step s e = some s' →
        work s' < work s := fun s e s' ⟨h, hnot⟩ hown hs => (h.step hs).2.2 hown hnot
    refine ⟨work s, fun fs s' hfs hrun => ⟨?_, ?_⟩⟩
    · have hle := Runs.length_le_of_measure hstep hwork ⟨h, hspins⟩ hfs hrun
      omega
    · exact (Runs.run_invariant_of_step hstep ⟨h, hspins⟩ hrun).1.done_of_quiet

end

/-- A server that is stopped as soon as it has been entered: the thread sets `alive` last. -/
def hurried : List Event :=
  [.enter, .exit 0, .loop false, .loop false, .loop false, .exit 0, .exit 0, .exit 0, .exit 0]

theorem exit_returns_iff_hurried :
    ∃ s, Runs.run step initial hurried = some s ∧
      ¬∃ n, ∀ fs s', (∀ e ∈ fs, Own e) → Runs.run step s fs = some s' →
        fs.length ≤ n ∧ (Runs.Quiet step Own s' → s'.exit = .done) := by
  obtain ⟨s, hrun, hjoining, hspins⟩ : ∃ s, Runs.run step initial hurried = some s ∧
      s.exit = .joining ∧ Spins s := ⟨_, rfl, rfl, rfl, nofun, nofun, nofun, nofun⟩
  exact ⟨s, hrun, fun h => (exit_returns_iff hrun hjoining).mp h hspins⟩

end MoteBroker.Servers
