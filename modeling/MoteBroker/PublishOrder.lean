import MoteBroker.Broker
import MoteBroker.Lib.Runs

/-!
The QoS 0 publishes of one connection: a thread of its own handles every packet that is read, and
the scheduler decides in which order the threads reach the tree and the queue.
-/

namespace MoteBroker.PublishOrder

open NestedDict MoteBroker.Topics MoteBroker.RecursiveDefaultDict MoteBroker.TreeItems
open MoteBroker.Rows MoteBroker.Messages MoteBroker.Retain

/-! ### The system -/

/-- Where the thread of a packet is. -/
inductive Thread
  | started (p : PublishPacket)
  /-- The rows to be retained have been made. -/
  | computed (rows : List Row)
  /-- The rows have been added as tasks, and this many have been put in the tree. -/
  | storing (rows : List Row) (stored : ℕ)
  /-- The row is not to be retained. -/
  | single (row : Row)
  | ended
  deriving DecidableEq

/-- Rows on the broadcast queue, and the number of the packet if it is one of the connection. -/
structure Batch where
  source : Option ℕ
  rows : List Row
  deriving DecidableEq

structure System where
  treeManager : TreeManager
  tableTasks : List Row
  /-- In the order in which the packets were read. -/
  threads : List Thread
  /-- The numbers of the packets whose rows were put in the tree, one for every row. -/
  applied : List ℕ
  /-- What the main loop has taken from the queue. -/
  taken : List Batch
  broadcastQueue : List Batch

/-- The last three are what the rest of the broker does. -/
inductive Event
  | read (p : PublishPacket)
  | run (i : ℕ)
  | others (tm : TreeManager) (tableTasks : List Row)
  | othersPut (rows : List Row)
  | mainLoop

def System.goto (s : System) (i : ℕ) (t : Thread) : System :=
  { s with threads := s.threads.set i t }

def System.put (s : System) (i : ℕ) (rows : List Row) : System :=
  { s with broadcastQueue := s.broadcastQueue ++ [⟨some i, rows⟩] }

/-- The start of `publish`, to where the rows have been made. -/
def System.start (s : System) (i : ℕ) (p : PublishPacket) : System :=
  match fromPacket p with
  | .error _ => s.goto i .ended
  | .ok message =>
    match message.table with
    | .error _ => s.goto i .ended
    | .ok true =>
      { s.goto i .ended with tableTasks := s.tableTasks ++
          [⟨message.topic.nodeList, message.data, message.qos⟩] }
    | .ok false =>
      if message.retain then
        match messageRows message s.treeManager.tree with
        | .error _ => s.goto i .ended
        | .ok rows => s.goto i (.computed rows)
      else
        match message.asSingleRow with
        | .error _ => s.goto i .ended
        | .ok row => s.goto i (.single row)

/-- One turn of the loop of `retain_rows`, or the put after it. -/
def System.store (s : System) (i : ℕ) (rows : List Row) (stored : ℕ) : System :=
  match rows[stored]? with
  | none => (s.put i rows).goto i .ended
  | some row =>
    match setLeaf row.data s.treeManager.tree row.topic with
    | (tree, none) =>
      { s.goto i (.storing rows (stored + 1)) with
        treeManager := { s.treeManager with tree := tree }
        applied := s.applied ++ [i] }
    | (tree, some _) =>
      { s.goto i .ended with
        treeManager := { s.treeManager with tree := tree }
        applied := s.applied ++ [i] }

def System.runThread (s : System) (i : ℕ) : Thread → Option System
  | .started p => some (s.start i p)
  | .computed rows =>
    some { s.goto i (.storing rows 0) with treeManager := s.treeManager.addTasks rows }
  | .storing rows stored => some (s.store i rows stored)
  | .single row => some ((s.put i [row]).goto i .ended)
  | .ended => none

def step (s : System) : Event → Option System
  | .read p => if p.qos = 0 then some { s with threads := s.threads ++ [.started p] } else none
  | .run i => s.threads[i]?.bind (s.runThread i)
  | .others tm tableTasks => some { s with treeManager := tm, tableTasks := tableTasks }
  | .othersPut rows => some { s with broadcastQueue := s.broadcastQueue ++ [⟨none, rows⟩] }
  | .mainLoop =>
    match s.broadcastQueue with
    | [] => none
    | batch :: queue => some { s with broadcastQueue := queue, taken := s.taken ++ [batch] }

/-! ### A thread alone -/

/-- The broker of which the system has these parts. -/
def System.toBroker (s : System) (b : Broker.State) : Broker.State :=
  { b with treeManager := s.treeManager, tableTasks := s.tableTasks,
           broadcastQueue := s.broadcastQueue.map Batch.rows }

/-- `Handler.publish`. -/
def publish (b : Broker.State) (p : PublishPacket) : Broker.State :=
  match fromPacket p with
  | .ok message => (b.publish message).1
  | .error _ => b

/-- From here the thread, if no other one does anything, ends in `s'`. -/
def Alone (s : System) (i : ℕ) (s' : System) : Prop :=
  s'.threads[i]? = some .ended ∧ ∃ n, Runs.run step s (List.replicate n (.run i)) = some s'

lemma goto_self {s : System} {i : ℕ} (h : i < s.threads.length) (t : Thread) :
    (s.goto i t).threads[i]? = some t := List.getElem?_set_self h

lemma Alone.ended {s : System} {i : ℕ} (h : s.threads[i]? = some .ended) : Alone s i s :=
  ⟨h, 0, rfl⟩

lemma Alone.step {s s' s'' : System} {i : ℕ} {t : Thread} (ht : s.threads[i]? = some t)
    (hs : s.runThread i t = some s') (h : Alone s' i s'') : Alone s i s'' := by
  obtain ⟨hended, n, hn⟩ := h
  have hstep : PublishOrder.step s (.run i) = some s' :=
    Option.bind_eq_some_iff.mpr ⟨t, ht, hs⟩
  refine ⟨hended, n + 1, ?_⟩
  rw [List.replicate_succ, Runs.run_cons, hstep]
  exact hn

/-- The rest of the rows are put in the tree, and if that succeeds all of them on the queue. -/
lemma storing_alone {s : System} {i : ℕ} {rows : List Row} {stored : ℕ} (b : Broker.State)
    (hi : s.threads[i]? = some (.storing rows stored)) (hle : stored ≤ rows.length) :
    ∃ s', Alone s i s' ∧ s'.toBroker b =
      match setLeaves s.treeManager.tree (rows.drop stored) with
      | (tree, none) =>
        Broker.State.broadcast
          { s.toBroker b with treeManager := { s.treeManager with tree := tree } } rows
      | (tree, some _) =>
        { s.toBroker b with treeManager := { s.treeManager with tree := tree } } := by
  have hlen := (List.getElem?_eq_some_iff.mp hi).1
  induction hn : rows.length - stored generalizing s stored with
  | zero =>
    have hnone : rows[stored]? = none := List.getElem?_eq_none (by omega)
    refine ⟨(s.put i rows).goto i .ended, .step hi ?_ (.ended (goto_self hlen _)), ?_⟩
    · rw [System.runThread, System.store, hnone]
    · rw [List.drop_eq_nil_of_le (by omega)]
      simp [setLeaves, System.toBroker, System.put, System.goto, Broker.State.broadcast]
  | succ n ih =>
    have hlt : stored < rows.length := by omega
    have hsome : rows[stored]? = some rows[stored] := List.getElem?_eq_getElem hlt
    have hdrop : rows.drop stored = rows[stored] :: rows.drop (stored + 1) :=
      List.drop_eq_getElem_cons hlt
    rw [hdrop, setLeaves]
    cases hset : setLeaf rows[stored].data s.treeManager.tree rows[stored].topic with
    | mk tree e =>
      cases e with
      | none =>
        let s₁ : System := { s.goto i (.storing rows (stored + 1)) with
          treeManager := { s.treeManager with tree := tree }, applied := s.applied ++ [i] }
        have hs₁ : s₁.threads[i]? = some (.storing rows (stored + 1)) := goto_self hlen _
        obtain ⟨s', halone, hs'⟩ := ih hs₁ hlt (List.getElem?_eq_some_iff.mp hs₁).1 (by omega)
        refine ⟨s', .step hi ?_ halone, hs'⟩
        rw [System.runThread, System.store, hsome]
        dsimp only
        rw [hset]
      | some e =>
        refine ⟨{ s.goto i .ended with treeManager := { s.treeManager with tree := tree }
                                       applied := s.applied ++ [i] },
          .step hi ?_ (.ended (goto_self hlen _)), rfl⟩
        rw [System.runThread, System.store, hsome]
        dsimp only
        rw [hset]

/-- **A thread alone publishes**: if no other thread does anything meanwhile, the broker ends up
as a call of `publish` leaves it. -/
theorem publish_alone {s : System} {i : ℕ} {p : PublishPacket} (b : Broker.State)
    (hi : s.threads[i]? = some (.started p)) :
    ∃ s', Alone s i s' ∧ s'.toBroker b = publish (s.toBroker b) p := by
  have hlen := (List.getElem?_eq_some_iff.mp hi).1
  unfold publish
  cases hmessage : fromPacket p with
  | error e =>
    refine ⟨s.goto i .ended, .step hi ?_ (.ended (goto_self hlen _)), rfl⟩
    rw [System.runThread, System.start, hmessage]
  | ok message =>
    unfold Broker.State.publish
    dsimp only
    cases htable : message.table with
    | error e =>
      refine ⟨s.goto i .ended, .step hi ?_ (.ended (goto_self hlen _)), rfl⟩
      simp only [System.runThread, System.start, hmessage, htable]
    | ok table =>
      cases table with
      | true =>
        refine ⟨{ s.goto i .ended with tableTasks := s.tableTasks ++
            [⟨message.topic.nodeList, message.data, message.qos⟩] },
          .step hi ?_ (.ended (goto_self hlen _)), rfl⟩
        simp only [System.runThread, System.start, hmessage, htable]
      | false =>
        unfold Broker.State.publishRows
        by_cases hretain : message.retain = true
        · cases hrows : messageRows message s.treeManager.tree with
          | error e =>
            refine ⟨s.goto i .ended, .step hi ?_ (.ended (goto_self hlen _)), ?_⟩
            · simp only [System.runThread, System.start, hmessage, htable, if_pos hretain, hrows]
            · simp [TreeManager.processMessage, System.toBroker, System.goto, hretain, hrows]
          | ok rows =>
            let s₁ : System := s.goto i (.computed rows)
            let s₂ : System :=
              { s₁.goto i (.storing rows 0) with treeManager := s₁.treeManager.addTasks rows }
            have hs₁ : s₁.threads[i]? = some (.computed rows) := goto_self hlen _
            have hs₂ : s₂.threads[i]? = some (.storing rows 0) :=
              goto_self (List.getElem?_eq_some_iff.mp hs₁).1 _
            obtain ⟨s', halone, hs'⟩ := storing_alone b hs₂ (Nat.zero_le _)
            have halone₁ : Alone s₁ i s' := .step hs₁ rfl halone
            refine ⟨s', .step hi ?_ halone₁, ?_⟩
            · simp only [System.runThread, System.start, hmessage, htable, if_pos hretain, hrows]
              rfl
            · have htree : s₂.treeManager.tree = s.treeManager.tree := rfl
              rw [hs', List.drop_zero, htree]
              simp only [if_pos hretain, TreeManager.processMessage, System.toBroker, hrows,
                TreeManager.retainRows]
              cases setLeaves s.treeManager.tree rows with
              | mk tree e => cases e <;> rfl
        · cases hrow : message.asSingleRow with
          | error e =>
            refine ⟨s.goto i .ended, .step hi ?_ (.ended (goto_self hlen _)), ?_⟩
            · simp only [System.runThread, System.start, hmessage, htable, if_neg hretain, hrow]
            · simp [System.toBroker, System.goto, hretain, Except.map]
          | ok row =>
            have hs₁ : (s.goto i (.single row)).threads[i]? = some (.single row) := goto_self hlen _
            have halone : Alone (s.goto i (.single row)) i _ :=
              .step hs₁ rfl (.ended (goto_self (List.getElem?_eq_some_iff.mp hs₁).1 _))
            refine ⟨_, .step hi ?_ halone, ?_⟩
            · simp only [System.runThread, System.start, hmessage, htable, if_neg hretain, hrow]
            · simp [System.toBroker, System.goto, System.put, hretain, Except.map,
                Broker.State.broadcast]

/-! ### The order of the packets -/

/-- The packets whose rows have been put on the queue, in the order of the queue. -/
def System.sources (s : System) : List ℕ := (s.taken ++ s.broadcastQueue).filterMap Batch.source

structure InReadOrder (s : System) : Prop where
  put : s.sources.Pairwise (· < ·)
  applied : s.applied.Pairwise (· ≤ ·)

/-- The rows that a packet says are to be put on the queue. -/
def Accepted (p : PublishPacket) : Prop :=
  ∃ message, fromPacket p = .ok message ∧ message.table = .ok false ∧
    (message.retain = false → ∃ row, message.asSingleRow = .ok row)

/-- The thread has its put ahead of it. -/
def Thread.ToPut : Thread → Prop
  | .started p => Accepted p
  | .computed _ | .storing _ _ | .single _ => True
  | .ended => False

/-- The thread has rows to put in the tree. -/
def Thread.ToStore : Thread → Prop
  | .started p => Accepted p ∧ p.retain = true
  | .computed rows => rows ≠ []
  | .storing rows stored => stored < rows.length
  | .single _ | .ended => False

def Thread.PutsNext : Thread → Prop
  | .storing rows stored => rows.length ≤ stored
  | .single _ => True
  | _ => False

def Thread.StoresNext : Thread → Prop
  | .storing rows stored => stored < rows.length
  | _ => False

/-- The steps by which no thread overtakes that of an earlier packet: when it puts its rows on the
queue, no such thread has its put ahead of it, and when it puts a row in the tree, no such thread
has rows to put there. -/
def InTurn (s : System) : Event → Prop
  | .run i => ∀ ti, s.threads[i]? = some ti → ∀ j < i, ∀ tj, s.threads[j]? = some tj →
      (ti.PutsNext → ¬tj.ToPut) ∧ (ti.StoresNext → ¬tj.ToStore)
  | _ => True

/-- No packet has been read yet. -/
structure Start (s : System) : Prop where
  threads : s.threads = []
  applied : s.applied = []
  sources : s.sources = []

/-! ### Taking turns -/

/-- A log whose entries come before each other and before those that wait. -/
structure Turns (R : ℕ → ℕ → Prop) (log : List ℕ) (waiting : ℕ → Prop) : Prop where
  sorted : log.Pairwise R
  ahead : ∀ k ∈ log, ∀ i, waiting i → R k i

section
variable {R : ℕ → ℕ → Prop} {log : List ℕ} {waiting waiting' : ℕ → Prop}

lemma Turns.nil : Turns R [] waiting := ⟨.nil, fun _ hk => nomatch hk⟩

lemma Turns.mono (h : Turns R log waiting) (hw : ∀ i, waiting' i → waiting i) :
    Turns R log waiting' := ⟨h.sorted, fun k hk i hi => h.ahead k hk i (hw i hi)⟩

/-- One that waits is served when those that still wait come after it. -/
lemma Turns.serve (h : Turns R log waiting) {j : ℕ} (hj : waiting j)
    (hw : ∀ i, waiting' i → waiting i) (hlate : ∀ i, waiting' i → R j i) :
    Turns R (log ++ [j]) waiting' := by
  refine ⟨List.pairwise_append.mpr ⟨h.sorted, List.pairwise_singleton R j, ?_⟩, ?_⟩
  · intro k hk j' hj'
    cases List.mem_singleton.mp hj'
    exact h.ahead k hk j hj
  · intro k hk i hi
    rcases List.mem_append.mp hk with hk | hk
    · exact h.ahead k hk i (hw i hi)
    · cases List.mem_singleton.mp hk
      exact hlate i hi

end

/-! ### What a step does -/

/-- Packet number `i` has not been read yet, or its thread satisfies `P`. -/
def System.Awaits (P : Thread → Prop) (s : System) (i : ℕ) : Prop :=
  ∀ t, s.threads[i]? = some t → P t

/-- What a thread does in one step. -/
structure Ran (s : System) (i : ℕ) (t t' : Thread) (s' : System) : Prop where
  threads : s'.threads = s.threads.set i t'
  toPut : t'.ToPut → t.ToPut
  toStore : t'.ToStore → t.ToStore
  sources : s'.sources = s.sources ∨ t.PutsNext ∧ ¬t'.ToPut ∧ s'.sources = s.sources ++ [i]
  applied : s'.applied = s.applied ∨ t.StoresNext ∧ s'.applied = s.applied ++ [i]

lemma Thread.PutsNext.toPut {t : Thread} (h : t.PutsNext) : t.ToPut := by
  cases t <;> simp_all [Thread.PutsNext, Thread.ToPut]

lemma Thread.StoresNext.toStore {t : Thread} (h : t.StoresNext) : t.ToStore := by
  cases t <;> simp_all [Thread.StoresNext, Thread.ToStore]

lemma sources_put (s : System) (i : ℕ) (rows : List Row) (t : Thread) :
    ((s.put i rows).goto i t).sources = s.sources ++ [i] := by
  simp [System.sources, System.put, System.goto]

lemma ran_ended {s s' : System} {i : ℕ} {t : Thread}
    (hthreads : s'.threads = s.threads.set i .ended)
    (hsources : s'.sources = s.sources) (happlied : s'.applied = s.applied) :
    Ran s i t .ended s' :=
  ⟨hthreads, fun h => h.elim, fun h => h.elim, .inl hsources, .inl happlied⟩

lemma start_ran (s : System) (i : ℕ) (p : PublishPacket) :
    ∃ t', Ran s i (.started p) t' (s.start i p) := by
  unfold System.start
  cases hmessage : fromPacket p with
  | error e => exact ⟨.ended, ran_ended rfl rfl rfl⟩
  | ok message =>
    dsimp only
    cases htable : message.table with
    | error e => exact ⟨.ended, ran_ended rfl rfl rfl⟩
    | ok table =>
      cases table with
      | true => exact ⟨.ended, ran_ended rfl rfl rfl⟩
      | false =>
        have hretain : message.retain = p.retain := (fromRawData_nodes hmessage).1
        dsimp only
        split_ifs with h
        · have haccepted : Accepted p :=
            ⟨message, hmessage, htable, fun hf => absurd (hf.symm.trans h) Bool.false_ne_true⟩
          cases messageRows message s.treeManager.tree with
          | error e => exact ⟨.ended, ran_ended rfl rfl rfl⟩
          | ok rows =>
            exact ⟨.computed rows, rfl, fun _ => haccepted,
              fun _ => ⟨haccepted, hretain.symm.trans h⟩, .inl rfl, .inl rfl⟩
        · cases hrow : message.asSingleRow with
          | error e => exact ⟨.ended, ran_ended rfl rfl rfl⟩
          | ok row =>
            exact ⟨.single row, rfl, fun _ => ⟨message, hmessage, htable, fun _ => ⟨row, hrow⟩⟩,
              fun hs => hs.elim, .inl rfl, .inl rfl⟩

lemma store_ran (s : System) (i : ℕ) (rows : List Row) (stored : ℕ) :
    ∃ t', Ran s i (.storing rows stored) t' (s.store i rows stored) := by
  unfold System.store
  cases hrow : rows[stored]? with
  | none =>
    have hle : rows.length ≤ stored := List.getElem?_eq_none_iff.mp hrow
    exact ⟨.ended, rfl, fun h => h.elim, fun h => h.elim,
      .inr ⟨hle, fun h => h, sources_put s i rows .ended⟩, .inl rfl⟩
  | some row =>
    have hlt : stored < rows.length := (List.getElem?_eq_some_iff.mp hrow).1
    dsimp only
    cases setLeaf row.data s.treeManager.tree row.topic with
    | mk tree e =>
      cases e with
      | none =>
        exact ⟨.storing rows (stored + 1), rfl, fun _ => trivial, fun _ => hlt, .inl rfl,
          .inr ⟨hlt, rfl⟩⟩
      | some e =>
        exact ⟨.ended, rfl, fun h => h.elim, fun h => h.elim, .inl rfl, .inr ⟨hlt, rfl⟩⟩

lemma runThread_ran {s s' : System} {i : ℕ} {t : Thread} (hs : s.runThread i t = some s') :
    ∃ t', Ran s i t t' s' := by
  cases t with
  | started p => cases hs; exact start_ran s i p
  | computed rows =>
    cases hs
    exact ⟨.storing rows 0, rfl, fun _ => trivial, List.ne_nil_of_length_pos, .inl rfl, .inl rfl⟩
  | storing rows stored => cases hs; exact store_ran s i rows stored
  | single row =>
    cases hs
    exact ⟨.ended, rfl, fun h => h.elim, fun h => h.elim,
      .inr ⟨trivial, fun h => h, sources_put s i [row] .ended⟩, .inl rfl⟩
  | ended => cases hs

/-! ### The invariant -/

structure Invariant (s : System) : Prop where
  put : Turns (· < ·) s.sources (s.Awaits Thread.ToPut)
  applied : Turns (· ≤ ·) s.applied (s.Awaits Thread.ToStore)

lemma Start.invariant {s : System} (h : Start s) : Invariant s :=
  ⟨by rw [h.sources]; exact .nil, by rw [h.applied]; exact .nil⟩

lemma awaits_of_append {P : Thread → Prop} {s : System} {t : Thread} {i : ℕ}
    (h : System.Awaits P { s with threads := s.threads ++ [t] } i) : s.Awaits P i := by
  intro t' ht'
  refine h t' ?_
  have hlt := (List.getElem?_eq_some_iff.mp ht').1
  rw [List.getElem?_append_left hlt, ht']

section
variable {s s' : System} {i : ℕ} {t t' : Thread}

lemma awaits_of_set {P : Thread → Prop} (hi : s.threads[i]? = some t)
    (hthreads : s'.threads = s.threads.set i t') (hP : P t' → P t) {j : ℕ} (h : s'.Awaits P j) :
    s.Awaits P j ∧ (j = i → P t') := by
  have hlt := (List.getElem?_eq_some_iff.mp hi).1
  unfold System.Awaits at h
  rw [hthreads] at h
  by_cases hj : j = i
  · subst hj
    have ht' : P t' := h t' (List.getElem?_set_self hlt)
    refine ⟨fun u hu => ?_, fun _ => ht'⟩
    rw [hi] at hu
    cases hu
    exact hP ht'
  · refine ⟨fun u hu => h u ?_, fun he => absurd he hj⟩
    rw [List.getElem?_set_ne (Ne.symm hj), hu]

/-- What waits after a step of a thread in its turn comes after it. -/
lemma late_of_turn {P : Thread → Prop} (hi : s.threads[i]? = some t)
    (hturn : ∀ j < i, ∀ tj, s.threads[j]? = some tj → ¬P tj) {j : ℕ} (h : s.Awaits P j) :
    i ≤ j := by
  by_contra hlt
  have hj : j < i := by omega
  have hlen : j < s.threads.length := Nat.lt_trans hj (List.getElem?_eq_some_iff.mp hi).1
  have hget := List.getElem?_eq_getElem hlen
  exact hturn j hj _ hget (h _ hget)

lemma Invariant.ran (h : Invariant s) (hi : s.threads[i]? = some t) (hturn : InTurn s (.run i))
    (hran : Ran s i t t' s') : Invariant s' := by
  have hput : ∀ j, s'.Awaits Thread.ToPut j → s.Awaits Thread.ToPut j ∧ (j = i → t'.ToPut) :=
    fun j => awaits_of_set hi hran.threads hran.toPut
  have hstore : ∀ j, s'.Awaits Thread.ToStore j → s.Awaits Thread.ToStore j ∧ _ :=
    fun j => awaits_of_set hi hran.threads hran.toStore
  have hself : ∀ {P : Thread → Prop}, P t → s.Awaits P i := fun hP u hu => by
    rw [hi] at hu
    cases hu
    exact hP
  refine ⟨?_, ?_⟩
  · rcases hran.sources with heq | ⟨hnext, hdone, heq⟩
    · rw [heq]
      exact h.put.mono fun j hj => (hput j hj).1
    · rw [heq]
      refine h.put.serve (hself hnext.toPut) (fun j hj => (hput j hj).1) fun j hj => ?_
      obtain ⟨hj, hne⟩ := hput j hj
      have hle := late_of_turn hi (fun k hk tk htk => (hturn t hi k hk tk htk).1 hnext) hj
      exact lt_of_le_of_ne hle fun he => hdone (hne he.symm)
  · rcases hran.applied with heq | ⟨hnext, heq⟩
    · rw [heq]
      exact h.applied.mono fun j hj => (hstore j hj).1
    · rw [heq]
      exact h.applied.serve (hself hnext.toStore) (fun j hj => (hstore j hj).1) fun j hj =>
        late_of_turn hi (fun k hk tk htk => (hturn t hi k hk tk htk).2 hnext) (hstore j hj).1

end

lemma Invariant.step {s s' : System} {e : Event} (h : Invariant s) (hturn : InTurn s e)
    (hs : step s e = some s') : Invariant s' := by
  cases e with
  | read p =>
    simp only [PublishOrder.step] at hs
    split_ifs at hs
    cases hs
    exact ⟨h.put.mono fun _ => awaits_of_append, h.applied.mono fun _ => awaits_of_append⟩
  | run i =>
    obtain ⟨t, hi, hs⟩ := Option.bind_eq_some_iff.mp hs
    obtain ⟨t', hran⟩ := runThread_ran hs
    exact h.ran hi hturn hran
  | others tm tableTasks => cases hs; exact ⟨h.put, h.applied⟩
  | othersPut rows =>
    cases hs
    have hsources : System.sources { s with broadcastQueue := s.broadcastQueue ++ [⟨none, rows⟩] } =
        s.sources := by simp [System.sources]
    exact ⟨by rw [hsources]; exact h.put, h.applied⟩
  | mainLoop =>
    unfold PublishOrder.step at hs
    cases hqueue : s.broadcastQueue with
    | nil => rw [hqueue] at hs; cases hs
    | cons batch queue =>
      rw [hqueue] at hs
      cases hs
      have hsources :
          System.sources { s with broadcastQueue := queue, taken := s.taken ++ [batch] } =
            s.sources := by simp [System.sources, hqueue]
      exact ⟨by rw [hsources]; exact h.put, h.applied⟩

/-! ### Publishing in order -/

/-- **Publishes are put in the order in which they were read** as long as no thread overtakes that
of an earlier packet. -/
theorem in_read_order {s s' : System} {es : List Event} (h : Start s)
    (hok : Runs.Meets step InTurn s es) (hrun : Runs.run step s es = some s') :
    InReadOrder s' := by
  have hinv : Invariant s' :=
    Runs.run_invariant (fun _ _ _ hi hturn hs => hi.step hturn hs) h.invariant hok hrun
  exact ⟨hinv.put.sorted, hinv.applied.sorted⟩

/-- A thread is in turn when all earlier ones have ended. -/
lemma inTurn_of_ended {s : System} {i : ℕ} (h : ∀ j < i, s.threads[j]? = some .ended) :
    InTurn s (.run i) := by
  intro ti _ j hj tj htj
  rw [h j hj] at htj
  cases htj
  exact ⟨fun _ hput => hput, fun _ hstore => hstore⟩

/-- The state before anything is published. -/
def quiet : System := ⟨⟨.nil, []⟩, [], [], [], [], []⟩

/-- A retained publish about a light. -/
def light (data : Bytes) : PublishPacket := ⟨"light".toList, some data, 0, true, 0⟩

def lightTurns : List Event :=
  [.read (light [49]), .read (light [48]), .run 0, .run 0, .run 0, .run 0, .run 1, .run 1, .run 1,
    .run 1]

theorem in_read_order_light :
    ∃ s, Runs.run step quiet lightTurns = some s ∧ s.sources = [0, 1] ∧ InReadOrder s := by
  have hfirst : ∀ s : System, InTurn s (.run 0) := fun s =>
    inTurn_of_ended fun j hj => absurd hj (Nat.not_lt_zero j)
  have hok : Runs.Meets step InTurn quiet lightTurns :=
    .cons trivial rfl <| .cons trivial rfl <| .cons (hfirst _) rfl <| .cons (hfirst _) rfl <|
    .cons (hfirst _) rfl <| .cons (hfirst _) rfl <| .cons (inTurn_of_ended (by decide)) rfl <|
    .cons (inTurn_of_ended (by decide)) rfl <| .cons (inTurn_of_ended (by decide)) rfl <|
    .cons (inTurn_of_ended (by decide)) rfl .nil
  obtain ⟨s, hs⟩ : ∃ s, Runs.run step quiet lightTurns = some s := ⟨_, rfl⟩
  refine ⟨s, hs, ?_, in_read_order ⟨rfl, rfl, rfl⟩ hok hs⟩
  have hsources : (Runs.run step quiet lightTurns).map System.sources = some [0, 1] := by decide
  rw [hs] at hsources
  exact Option.some.inj hsources

/-- The thread of the second packet overtakes that of the first: what is retained and what is
broadcast last is what the client sent first. -/
theorem overtaken_light :
    Start quiet ∧ ∃ s, Runs.run step quiet [.read (light [49]), .read (light [48]), .run 1, .run 1,
        .run 1, .run 1, .run 0, .run 0, .run 0, .run 0] = some s ∧
      s.sources = [1, 0] ∧ payloadAt s.treeManager.tree ["light".toList] = some [49] ∧
      ¬InReadOrder s := by
  refine ⟨⟨rfl, rfl, rfl⟩, _, rfl, by decide, by decide, fun h => ?_⟩
  exact absurd h.put (by decide)

end MoteBroker.PublishOrder
