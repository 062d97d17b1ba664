import MoteBroker.Backend
import MoteBroker.Lib.Runs

/-!
Queries to a process: the worker runs its query with the arguments of the calls, and each call
returns what was produced for it, as long as query and response take turns on the item they share.
-/

namespace MoteBroker.QueryProtocol

open MoteBroker.Backend

variable {τ : Type}

/-- The response is posted and the caller waits, and nobody is about to notify it. -/
def Stuck (s : State τ) : Prop :=
  ∃ args response, s.caller = .waiting args ∧ s.slot = .response response ∧
    ∀ consumed, s.worker ≠ .responding consumed

/-- The worker's query runs with the arguments of the calls, once for each call and in their
order, and the calls return what was produced for them. -/
structure Paired (s : State τ) : Prop where
  invoked : s.invoked.map Prod.fst <+: s.calls
  returned : s.returned <+: s.invoked
  not_stuck : ¬Stuck s

/-- The steps that keep query and response apart: there are arguments, and there is a response;
the caller is waiting when the worker notifies it, and the worker does not read the status while
the response is in it. -/
def Turns (s : State τ) : Event τ → Prop
  | .post args => args ≠ []
  | .answer response => response ≠ .none
  | .respond => ∀ args, s.caller ≠ .posted args
  | .readStatus => ∀ response, s.slot ≠ .response response
  | _ => True

/-! ### The invariant -/

/-- The worker is not at a query; what it has read of the status is what is there. -/
def Quiet (slot : Slot) : Worker τ → Prop
  | .statusRead _ query => query = slot.value ∧ ∀ response, slot ≠ .response response
  | .serving _ _ | .responding _ => False
  | _ => True

/-- The caller has posted the query and not been notified. -/
def Before (args : List Value) : Caller → Prop
  | .posted args' | .waiting args' => args' = args
  | _ => False

/-- The caller has been notified of the response. -/
def After (args : List Value) (response : Value) : Caller → Prop
  | .notified args' | .woken args' => args' = args
  | .answered args' response' => args' = args ∧ response' = response
  | _ => False

/-- Where query and response are, with the calls that were made, run and returned. -/
inductive Phase : Slot → Caller → Worker τ → List (List Value) → List (List Value × Value) →
    List (List Value × Value) → Prop
  | idle {w invoked} (hw : Quiet .empty w) :
    Phase .empty .idle w (invoked.map Prod.fst) invoked invoked
  | queued {args caller w invoked} (hargs : args ≠ []) (hcaller : Before args caller)
    (hw : Quiet (.query args) w) :
    Phase (.query args) caller w (invoked.map Prod.fst ++ [args]) invoked invoked
  | serving {args caller consumed invoked} (hcaller : Before args caller) :
    Phase .empty caller (.serving (.tuple args) consumed) (invoked.map Prod.fst ++ [args])
      invoked invoked
  | responding {args response caller consumed returned} (hresponse : response ≠ .none)
    (hcaller : Before args caller) :
    Phase (.response response) caller (.responding consumed)
      ((returned ++ [(args, response)]).map Prod.fst) (returned ++ [(args, response)]) returned
  | responded {args response caller w returned} (hresponse : response ≠ .none)
    (hcaller : After args response caller) (hw : Quiet (.response response) w) :
    Phase (.response response) caller w
      ((returned ++ [(args, response)]).map Prod.fst) (returned ++ [(args, response)]) returned

def Invariant (s : State τ) : Prop :=
  Phase s.slot s.caller s.worker s.calls s.invoked s.returned

lemma invariant_initial : Invariant (initial : State τ) :=
  @Phase.idle τ .notStarted [] trivial

lemma Invariant.paired {s : State τ} (h : Invariant s) : Paired s := by
  obtain ⟨life, running, slot, tasks, worker, caller, added, batches, calls, invoked,
    returned⟩ := s
  have h : Phase slot caller worker calls invoked returned := h
  cases h with
  | idle hw =>
    refine ⟨List.prefix_rfl, List.prefix_rfl, ?_⟩
    rintro ⟨args, response, hcaller, hslot, hworker⟩
    cases hslot
  | queued hargs hcaller hw =>
    refine ⟨List.prefix_append _ _, List.prefix_rfl, ?_⟩
    rintro ⟨args, response, hwaiting, hslot, hworker⟩
    cases hslot
  | serving hcaller =>
    refine ⟨List.prefix_append _ _, List.prefix_rfl, ?_⟩
    rintro ⟨args, response, hwaiting, hslot, hworker⟩
    cases hslot
  | responding hresponse hcaller =>
    refine ⟨List.prefix_rfl, List.prefix_append _ _, ?_⟩
    rintro ⟨args, response, hwaiting, hslot, hworker⟩
    exact hworker _ rfl
  | responded hresponse hcaller hw =>
    refine ⟨List.prefix_rfl, List.prefix_append _ _, ?_⟩
    rintro ⟨args, response, hwaiting, hslot, hworker⟩
    have hwaiting : caller = .waiting args := hwaiting
    rw [hwaiting] at hcaller
    exact hcaller

/-! ### Steps -/

section
variable {slot : Slot} {caller : Caller} {w w' : Worker τ} {calls : List (List Value)}
  {invoked returned : List (List Value × Value)}

/-- A step of the worker away from queries. -/
lemma Phase.move (h : Phase slot caller w calls invoked returned)
    (hserving : ∀ query consumed, w ≠ .serving query consumed)
    (hresponding : ∀ consumed, w ≠ .responding consumed) (hw : Quiet slot w → Quiet slot w') :
    Phase slot caller w' calls invoked returned := by
  cases h with
  | idle hquiet => exact .idle (hw hquiet)
  | queued hargs hcaller hquiet => exact .queued hargs hcaller (hw hquiet)
  | serving hcaller => exact absurd rfl (hserving _ _)
  | responding hresponse hcaller => exact absurd rfl (hresponding _)
  | responded hresponse hcaller hquiet => exact .responded hresponse hcaller (hw hquiet)

lemma Quiet.notify (h : Quiet slot w) : Quiet slot w.notify := by
  cases w with
  | waiting => trivial
  | _ => exact h

lemma Phase.notify (h : Phase slot caller w calls invoked returned) :
    Phase slot caller w.notify calls invoked returned := by
  cases h with
  | idle hw => exact .idle hw.notify
  | queued hargs hcaller hw => exact .queued hargs hcaller hw.notify
  | serving hcaller => exact .serving hcaller
  | responding hresponse hcaller => exact .responding hresponse hcaller
  | responded hresponse hcaller hw => exact .responded hresponse hcaller hw.notify

/-- While the worker does not hold the task condition, it has read nothing of the status. -/
lemma Quiet.of_unlocked {slot' : Slot} (h : Quiet slot w) (hlock : w.holdsLock = false) :
    Quiet slot' w := by
  cases w with
  | statusRead running query => cases hlock
  | serving query consumed => exact h.elim
  | responding consumed => exact h.elim
  | _ => trivial

lemma Phase.post {args : List Value} (h : Phase slot .idle w calls invoked returned)
    (hlock : w.holdsLock = false) (hargs : args ≠ []) :
    Phase (.query args) (.posted args) w.notify (calls ++ [args]) invoked returned := by
  cases h with
  | idle hw => exact .queued hargs rfl (hw.of_unlocked hlock).notify
  | queued _ hcaller | serving hcaller | responding _ hcaller | responded _ hcaller =>
    exact hcaller.elim

lemma Phase.callerWait {args : List Value}
    (h : Phase slot (.posted args) w calls invoked returned) :
    Phase slot (.waiting args) w calls invoked returned := by
  cases h with
  | queued hargs hcaller hw => exact .queued hargs hcaller hw
  | serving hcaller => exact .serving hcaller
  | responding hresponse hcaller => exact .responding hresponse hcaller
  | responded _ hcaller => exact hcaller.elim

lemma Phase.callerWake {args : List Value}
    (h : Phase slot (.notified args) w calls invoked returned) :
    Phase slot (.woken args) w calls invoked returned := by
  cases h with
  | queued _ hcaller | serving hcaller | responding _ hcaller => exact hcaller.elim
  | responded hresponse hcaller hw => exact .responded hresponse hcaller hw

/-- A caller that has been woken finds the response. -/
lemma Phase.callerRead {args : List Value}
    (h : Phase slot (.woken args) w calls invoked returned) :
    slot.value ≠ .none ∧ Phase slot (.answered args slot.value) w calls invoked returned := by
  cases h with
  | queued _ hcaller | serving hcaller | responding _ hcaller => exact hcaller.elim
  | responded hresponse hcaller hw =>
    exact ⟨hresponse, .responded hresponse ⟨hcaller, rfl⟩ hw⟩

lemma Phase.callerClear {args : List Value} {response : Value}
    (h : Phase slot (.answered args response) w calls invoked returned) :
    Phase .empty .idle w calls invoked (returned ++ [(args, response)]) := by
  cases h with
  | queued _ hcaller | serving hcaller | responding _ hcaller => exact hcaller.elim
  | responded hresponse hcaller hw =>
    obtain ⟨rfl, rfl⟩ := hcaller
    refine .idle ?_
    cases w with
    | statusRead running query => exact absurd rfl (hw.2 _)
    | serving query consumed => exact hw
    | responding consumed => exact hw
    | _ => trivial

/-- The worker reads the status while no response is in it. -/
lemma Phase.readStatus {running : Bool}
    (h : Phase slot caller (.woken : Worker τ) calls invoked returned)
    (hok : ∀ response, slot ≠ .response response) :
    Phase slot caller (.statusRead running slot.value : Worker τ) calls invoked returned :=
  h.move (fun _ _ => by simp) (fun _ => by simp) fun _ => ⟨rfl, hok⟩

lemma Phase.respond {consumed : List τ} {caller' : Caller}
    (h : Phase slot caller (.responding consumed) calls invoked returned)
    (hok : ∀ args, caller ≠ .posted args) (hnotify : caller.notify = some caller') :
    Phase slot caller' (.running consumed) calls invoked returned := by
  cases h with
  | idle hw | queued _ _ hw | responded _ _ hw => exact hw.elim
  | responding hresponse hcaller =>
    cases caller with
    | posted args => exact absurd rfl (hok args)
    | waiting args => cases hnotify; exact .responded hresponse hcaller trivial
    | _ => exact hcaller.elim

end

lemma Invariant.takeTasks {s : State τ} (h : Invariant s) {running : Bool} {query : Value}
    (hw : s.worker = .statusRead running query) : Invariant (s.takeTasks running query) := by
  obtain ⟨life, running', slot, tasks, worker, caller, added, batches, calls, invoked,
    returned⟩ := s
  have h : Phase slot caller worker calls invoked returned := h
  subst hw
  cases h with
  | idle hquiet =>
    obtain ⟨rfl, -⟩ := hquiet
    refine Phase.idle ?_
    simp only [State.takeTasks, Slot.value, Value.truthy]
    by_cases hdo : tasks ≠ [] ∨ running = false
    · rw [if_neg (by simp), if_pos hdo]
      trivial
    · rw [if_neg (by simp), if_neg hdo]
      trivial
  | @queued args _ _ _ hargs hcaller hquiet =>
    obtain ⟨rfl, -⟩ := hquiet
    have htruthy : (Slot.query args).value.truthy = true := by
      simpa [Slot.value, Value.truthy] using hargs
    change Phase _ _ (if _ then _ else _) _ _ _
    rw [if_pos htruthy]
    exact .serving hcaller
  | responded hresponse hcaller hquiet => exact absurd rfl (hquiet.2 _)

lemma Invariant.answer {s : State τ} (h : Invariant s) {query response : Value}
    {consumed : List τ} (hw : s.worker = .serving query consumed) (hok : response ≠ .none) :
    Invariant (s.answer query consumed response) := by
  obtain ⟨life, running, slot, tasks, worker, caller, added, batches, calls, invoked,
    returned⟩ := s
  have h : Phase slot caller worker calls invoked returned := h
  subst hw
  cases h with
  | idle hquiet | queued _ _ hquiet | responded _ _ hquiet => exact hquiet.elim
  | @serving args _ _ _ hcaller =>
    change Phase (.response response) caller (.responding consumed) (invoked.map Prod.fst ++ [args])
      (invoked ++ [(args, response)]) invoked
    have hcalls : invoked.map Prod.fst ++ [args] =
        (invoked ++ [(args, response)]).map Prod.fst := by simp
    rw [hcalls]
    exact .responding hok hcaller

/-- A step of the worker between its reads and its answers. -/
lemma Invariant.work {s : State τ} (h : Invariant s) {w w' : Worker τ} (hw : s.worker = w)
    (hserving : ∀ query consumed, w ≠ .serving query consumed)
    (hresponding : ∀ consumed, w ≠ .responding consumed)
    (hquiet : Quiet s.slot w → Quiet s.slot w') : Invariant { s with worker := w' } := by
  have hphase : Phase s.slot s.caller s.worker s.calls s.invoked s.returned := h
  rw [hw] at hphase
  exact hphase.move hserving hresponding hquiet

/-- **Every step in turn keeps the invariant.** -/
theorem Invariant.step {s s' : State τ} {e : Event τ} (h : Invariant s) (hok : Turns s e)
    (hs : Backend.step s e = some s') : Invariant s' := by
  have hphase : Phase s.slot s.caller s.worker s.calls s.invoked s.returned := h
  cases trans_of_step hs with
  | enterRunning | exitRunning => exact h
  | exitNotify | addTasks => exact hphase.notify
  | post hcaller hlock =>
    rw [hcaller] at hphase
    exact hphase.post hlock hok
  | callerWait hcaller =>
    rw [hcaller] at hphase
    exact hphase.callerWait
  | callerWake hcaller =>
    rw [hcaller] at hphase
    exact hphase.callerWake
  | callerMiss hcaller hnone =>
    rw [hcaller] at hphase
    exact absurd hnone hphase.callerRead.1
  | callerRead hcaller =>
    rw [hcaller] at hphase
    exact hphase.callerRead.2
  | callerClear hcaller =>
    rw [hcaller] at hphase
    exact hphase.callerClear
  | enterStart _ hw | acquire hw | wait hw | wake hw | runTasks hw =>
    exact h.work hw (fun _ _ => by simp) (fun _ => by simp) id
  | check hw =>
    refine h.work hw (fun _ _ => by simp) (fun _ => by simp) fun _ => ?_
    split <;> trivial
  | readStatus hw =>
    rw [hw] at hphase
    exact hphase.readStatus hok
  | takeTasks hw => exact h.takeTasks hw
  | answer hw => exact h.answer hw hok
  | respond hw hnotify =>
    rw [hw] at hphase
    exact hphase.respond hok hnotify

/-- **Query and response never cross** in any run whose queries and responses take turns. -/
theorem query_and_response_paired {s : State τ} {es : List (Event τ)}
    (hok : Runs.Meets Backend.step Turns initial es)
    (hrun : Runs.run Backend.step initial es = some s) : Paired s := by
  have h : Invariant s :=
    Runs.run_invariant (fun _ _ _ hi hok hs => hi.step hok hs) invariant_initial hok hrun
  exact h.paired

/-- A process that starts, and two queries, the second with a task beside it, that come back. -/
def exchange : List (Event ℕ) :=
  [.enterRunning, .enterStart, .check, .acquire, .wait, .post [.str ['a']], .wake, .readStatus,
    .takeTasks, .callerWait, .answer (.bytes [49, 50]), .respond, .runTasks, .callerWake,
    .callerRead, .callerClear, .addTasks [1], .post [.str ['b']], .callerWait, .check, .acquire,
    .wait, .addTasks [2], .wake, .readStatus, .takeTasks, .answer (.bytes [51]), .respond,
    .runTasks, .callerWake, .callerRead, .callerClear]

theorem query_and_response_paired_exchange :
    ∃ s, Runs.run Backend.step initial exchange = some s ∧ Paired s ∧
      s.returned = [([.str ['a']], .bytes [49, 50]), ([.str ['b']], .bytes [51])] ∧
      s.batches = [[1, 2]] := by
  obtain ⟨s, hrun, hreturned⟩ : ∃ s, Runs.run Backend.step initial exchange = some s ∧
      s.returned = [([.str ['a']], .bytes [49, 50]), ([.str ['b']], .bytes [51])] ∧
      s.batches = [[1, 2]] := ⟨_, rfl, rfl, rfl⟩
  have hok : Runs.Meets Backend.step Turns initial exchange :=
    .cons trivial rfl <| .cons trivial rfl <| .cons trivial rfl <| .cons trivial rfl <|
    .cons trivial rfl <| .cons (fun h => nomatch h) rfl <| .cons trivial rfl <|
    .cons (fun _ h => nomatch h) rfl <| .cons trivial rfl <| .cons trivial rfl <|
    .cons (fun h => nomatch h) rfl <| .cons (fun _ h => nomatch h) rfl <| .cons trivial rfl <|
    .cons trivial rfl <| .cons trivial rfl <| .cons trivial rfl <|
    .cons trivial rfl <| .cons (fun h => nomatch h) rfl <| .cons trivial rfl <|
    .cons trivial rfl <| .cons trivial rfl <| .cons trivial rfl <| .cons trivial rfl <|
    .cons trivial rfl <| .cons (fun _ h => nomatch h) rfl <| .cons trivial rfl <|
    .cons (fun h => nomatch h) rfl <| .cons (fun _ h => nomatch h) rfl <| .cons trivial rfl <|
    .cons trivial rfl <| .cons trivial rfl <| .cons trivial rfl .nil
  exact ⟨s, hrun, query_and_response_paired hok hrun, hreturned⟩

/-- The events up to the response to a query, with the caller waiting for it or not. -/
def responded (waits : Bool) : List (Event ℕ) :=
  [.enterRunning, .enterStart, .check, .acquire, .wait, .post [.str ['a']], .wake, .readStatus,
    .takeTasks] ++ (if waits then [.callerWait] else []) ++
    [.answer (.bytes [49, 50]), .respond, .runTasks]

/-- A worker that is given a task before the caller has read the response takes the response for
a query; and a response that is notified before the caller waits is never received. -/
theorem response_is_taken_for_query_or_missed :
    (∃ es s, Runs.run Backend.step (initial : State ℕ) es = some s ∧
      s.calls = [[.str ['a']]] ∧
      s.invoked.map Prod.fst = [[.str ['a']], [.int 49, .int 50]] ∧ ¬Paired s) ∧
    ∃ es s, Runs.run Backend.step (initial : State ℕ) es = some s ∧ Stuck s := by
  refine ⟨?_, ?_⟩
  · obtain ⟨s, hrun, hcalls, hinvoked⟩ : ∃ s, Runs.run Backend.step (initial : State ℕ)
        (responded true ++ [.check, .acquire, .wait, .addTasks [1], .wake, .readStatus,
          .takeTasks, .answer (.bool true)]) = some s ∧
        s.calls = [[.str ['a']]] ∧
        s.invoked.map Prod.fst = [[.str ['a']], [.int 49, .int 50]] := ⟨_, rfl, rfl, rfl⟩
    refine ⟨_, s, hrun, hcalls, hinvoked, fun h => ?_⟩
    have hlength := h.invoked.length_le
    rw [hcalls, hinvoked] at hlength
    simp at hlength
  · exact ⟨responded false ++ [.callerWait], _, rfl, _, _, rfl, rfl, by simp⟩

/-! ### A process that is not started -/

/-- The worker has not started, and no call has got beyond waiting for it. -/
structure Unanswered (s : State τ) : Prop where
  worker : s.worker = .notStarted
  caller : s.caller = .idle ∨ ∃ args, s.caller = .posted args ∨ s.caller = .waiting args
  returned : s.returned = []

lemma Unanswered.step {s s' : State τ} {e : Event τ} (h : Unanswered s) (he : e ≠ .enterStart)
    (hs : Backend.step s e = some s') : Unanswered s' := by
  obtain ⟨hworker, hcaller, hreturned⟩ := h
  have hnotify : s.worker.notify = .notStarted := by rw [hworker]; rfl
  cases trans_of_step hs with
  | enterStart => exact absurd rfl he
  | enterRunning | exitRunning => exact ⟨hworker, hcaller, hreturned⟩
  | exitNotify | addTasks => exact ⟨hnotify, hcaller, hreturned⟩
  | post => exact ⟨hnotify, .inr ⟨_, .inl rfl⟩, hreturned⟩
  | callerWait => exact ⟨hworker, .inr ⟨_, .inr rfl⟩, hreturned⟩
  | callerWake hat | callerMiss hat | callerRead hat | callerClear hat =>
    rw [hat] at hcaller
    obtain h | ⟨args, h | h⟩ := hcaller <;> cases h
  | check hw | acquire hw | wait hw | wake hw | readStatus hw | takeTasks hw | answer hw
  | respond hw | runTasks hw =>
    rw [hworker] at hw
    cases hw

/-- **Without its worker a manager answers nobody**: no query returns in a run in which the process
is not started, as that of the table manager never is. -/
theorem unanswered_of_not_started {s : State τ} {es : List (Event τ)} (hes : .enterStart ∉ es)
    (hrun : Runs.run Backend.step initial es = some s) : Unanswered s := by
  have hok : Runs.Meets Backend.step (fun _ e => e ≠ .enterStart) initial es :=
    Runs.meets_of_forall initial fun e he _ heq => hes (heq ▸ he)
  exact Runs.run_invariant (fun _ _ _ h he hs => h.step he hs) ⟨rfl, .inl rfl, rfl⟩ hok hrun

end MoteBroker.QueryProtocol
