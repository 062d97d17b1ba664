import MoteBroker.Backend
import MoteBroker.Lib.Runs

/-!
The tasks of a process: none is stranded in the list while the worker sleeps, and none is lost
when it leaves its loop, as long as the notifications find the worker waiting.
-/

namespace MoteBroker.TaskLoop

open MoteBroker.Backend

variable {τ : Type}

/-- The worker sleeps although there are tasks or it has been told to stop, and nobody is about
to wake it: a notification is still to come while `__exit__` is between the flag and its own. -/
def Stranded (s : State τ) : Prop :=
  s.worker = .waiting ∧ (s.tasks ≠ [] ∨ s.running = false ∧ s.life ≠ .exiting)

/-- The calls in question: no query, and no tasks once `__exit__` has been called. -/
def Called (s : State τ) : Event τ → Prop
  | .addTasks _ => s.life ≠ .exiting ∧ s.life ≠ .exited
  | .post _ => False
  | _ => True

/-- The steps whose notification reaches the worker: tasks are added while it is in `wait()`,
and `__exit__` does not notify it between its test of `RUNNING` and `wait()`. -/
def InTime (s : State τ) : Event τ → Prop
  | .addTasks tasks => tasks = [] ∨ s.worker.inWait = true
  | .exitNotify => s.worker ≠ .acquire
  | _ => True

/-! ### The invariant -/

/-- The tasks that the worker has taken and not yet run. -/
def consumed : Worker τ → List τ
  | .serving _ tasks | .responding tasks | .running tasks => tasks
  | _ => []

/-- The worker will look at the task list before it sleeps again. -/
def Expects : Worker τ → Prop
  | .notified | .woken | .statusRead _ _ => True
  | _ => False

/-- Where the worker can be, by where the manager is. -/
def Place (life : Life) : Worker τ → Prop
  | .notStarted => life = .created ∨ life = .entered
  | .check | .running _ | .notified | .woken => life ≠ .created ∧ life ≠ .entered
  | .acquire | .locked | .waiting => life = .started ∨ life = .exiting
  | .statusRead running query => query = .none ∧ life ≠ .created ∧ life ≠ .entered ∧
    (life = .exited → running = false)
  | .left => life = .exiting ∨ life = .exited
  | .serving _ _ | .responding _ | .crashed => False

structure Invariant (s : State τ) : Prop where
  kept : s.batches.flatten ++ consumed s.worker ++ s.tasks = s.added
  tasks : s.tasks ≠ [] → Expects s.worker
  place : Place s.life s.worker
  running : s.running = true ↔ s.life = .entered ∨ s.life = .started
  slot : s.slot = .empty
  caller : s.caller = .idle

lemma invariant_initial : Invariant (initial : State τ) where
  kept := rfl
  tasks := fun h => absurd rfl h
  place := .inl rfl
  running := by simp [initial]
  slot := rfl
  caller := rfl

/-- Nobody is stranded where the invariant holds. -/
lemma Invariant.not_stranded {s : State τ} (h : Invariant s) : ¬Stranded s := by
  rintro ⟨hw, htasks | ⟨hrunning, hlife⟩⟩
  · have := h.tasks htasks
    rw [hw] at this
    exact this
  · have hplace := h.place
    rw [hw] at hplace
    rcases hplace with hstarted | hexiting
    · have := h.running.mpr (.inr hstarted)
      rw [hrunning] at this
      cases this
    · exact hlife hexiting

/-- Nothing is lost when the worker has left its loop. -/
lemma Invariant.all_run {s : State τ} (h : Invariant s) (hw : s.worker = .left) :
    s.batches.flatten = s.added := by
  have htasks : s.tasks = [] := by
    by_contra hne
    have := h.tasks hne
    rw [hw] at this
    exact this
  have hkept := h.kept
  rw [hw, htasks] at hkept
  simpa [consumed] using hkept

/-! ### Steps -/

lemma consumed_notify (w : Worker τ) : consumed w.notify = consumed w := by
  cases w <;> rfl

lemma expects_notify {w : Worker τ} (h : Expects w) : Expects w.notify := by
  cases w <;> trivial

lemma expects_of_inWait {w : Worker τ} (h : w.inWait = true) : Expects w.notify := by
  cases w with
  | waiting | notified => trivial
  | _ => cases h

lemma Place.notify {life : Life} {w : Worker τ} (h : Place life w) : Place life w.notify := by
  cases w with
  | waiting => rcases h with rfl | rfl <;> exact ⟨by simp, by simp⟩
  | _ => exact h

lemma Invariant.addTasks {s : State τ} (h : Invariant s) {tasks : List τ}
    (hok : tasks = [] ∨ s.worker.inWait = true) :
    Invariant { s with
      tasks := s.tasks ++ tasks, worker := s.worker.notify, added := s.added ++ tasks } := by
  refine ⟨?_, fun hne => ?_, h.place.notify, h.running, h.slot, h.caller⟩
  · rw [consumed_notify, ← List.append_assoc, h.kept]
  · rcases hok with rfl | hwait
    · rw [List.append_nil] at hne
      exact expects_notify (h.tasks hne)
    · exact expects_of_inWait hwait

lemma Invariant.exitNotify {s : State τ} (h : Invariant s) (hlife : s.life = .exiting)
    (hlock : s.worker.holdsLock = false) (hok : s.worker ≠ .acquire) :
    Invariant { s with life := .exited, worker := s.worker.notify } := by
  have hplace := h.place
  refine ⟨by rw [consumed_notify]; exact h.kept, fun hne => expects_notify (h.tasks hne), ?_,
    ?_, h.slot, h.caller⟩
  · cases hw : s.worker with
    | acquire => exact absurd hw hok
    | locked | woken => rw [hw] at hlock; cases hlock
    | statusRead running query => rw [hw] at hlock; cases hlock
    | notStarted => rw [hw, hlife] at hplace; rcases hplace with he | he <;> cases he
    | serving | responding | crashed => rw [hw] at hplace; exact hplace.elim
    | left => exact .inr rfl
    | check | waiting | notified | running => exact ⟨by simp, by simp⟩
  · have := h.running
    rw [hlife] at this
    simpa using this

lemma Invariant.takeTasks {s : State τ} (h : Invariant s) {running : Bool} {query : Value}
    (hw : s.worker = .statusRead running query) : Invariant (s.takeTasks running query) := by
  have hplace := h.place
  have hkept := h.kept
  rw [hw] at hplace hkept
  obtain ⟨rfl, hcreated, hentered, hexited⟩ := hplace
  have hkept : s.batches.flatten ++ s.tasks = s.added := by simpa [consumed] using hkept
  by_cases hdo : s.tasks ≠ [] ∨ running = false
  · have htake : s.takeTasks running .none =
        { s with tasks := [], slot := .empty, worker := .running s.tasks } := by
      unfold State.takeTasks
      rw [if_neg (by simp [Value.truthy]), if_pos hdo]
    rw [htake]
    exact ⟨by simpa [consumed] using hkept, fun hne => absurd rfl hne, ⟨hcreated, hentered⟩,
      h.running, rfl, h.caller⟩
  · have htake : s.takeTasks running .none =
        { s with tasks := [], slot := .empty, worker := .waiting } := by
      unfold State.takeTasks
      rw [if_neg (by simp [Value.truthy]), if_neg hdo]
    have htasks : s.tasks = [] := by
      by_contra hne
      exact hdo (.inl hne)
    have hlife : s.life = .started ∨ s.life = .exiting := by
      cases hl : s.life with
      | created => exact absurd hl hcreated
      | entered => exact absurd hl hentered
      | started => exact .inl rfl
      | exiting => exact .inr rfl
      | exited => exact absurd (.inr (hexited hl)) hdo
    rw [htake]
    refine ⟨?_, fun hne => absurd rfl hne, hlife, h.running, rfl, h.caller⟩
    simpa [consumed, htasks] using hkept

lemma Invariant.runTasks {s : State τ} (h : Invariant s) {tasks : List τ}
    (hw : s.worker = .running tasks) :
    Invariant { s with
      worker := .check
      batches := if tasks = [] then s.batches else s.batches ++ [tasks] } := by
  have hplace := h.place
  have hkept := h.kept
  have htasks := h.tasks
  rw [hw] at hplace hkept htasks
  refine ⟨?_, fun hne => htasks hne, hplace, h.running, h.slot, h.caller⟩
  by_cases hnil : tasks = []
  · simpa [hnil, consumed] using hkept
  · simpa [hnil, consumed] using hkept

/-- A step of the worker that takes nothing and runs nothing. -/
lemma Invariant.move {s : State τ} (h : Invariant s) {w w' : Worker τ} (hw : s.worker = w)
    (hconsumed : consumed w' = consumed w) (hexpects : Expects w → Expects w')
    (hplace : Place s.life w → Place s.life w') : Invariant { s with worker := w' } := by
  subst hw
  exact ⟨by rw [hconsumed]; exact h.kept, fun hne => hexpects (h.tasks hne), hplace h.place,
    h.running, h.slot, h.caller⟩

lemma Invariant.check {s : State τ} (h : Invariant s) (hw : s.worker = .check) :
    Invariant { s with worker := if s.running then .acquire else .left } := by
  by_cases hrunning : s.running = true
  · rw [if_pos hrunning]
    exact h.move hw rfl (fun he => he.elim) fun hplace =>
      .inl ((h.running.mp hrunning).resolve_left hplace.2)
  · rw [if_neg hrunning]
    have hnot : ¬(s.life = .entered ∨ s.life = .started) := fun hl =>
      hrunning (h.running.mpr hl)
    refine h.move hw rfl (fun he => he.elim) fun hplace => ?_
    cases hl : s.life with
    | created => exact absurd hl hplace.1
    | entered => exact absurd (.inl hl) hnot
    | started => exact absurd (.inr hl) hnot
    | exiting => exact .inl rfl
    | exited => exact .inr rfl

lemma Invariant.readStatus {s : State τ} (h : Invariant s) (hw : s.worker = .woken) :
    Invariant { s with worker := .statusRead s.running s.slot.value } := by
  refine h.move hw rfl (fun _ => trivial) fun hplace =>
    ⟨by rw [h.slot]; rfl, hplace.1, hplace.2, fun hexited => ?_⟩
  by_contra hrunning
  have hlife := h.running.mp (by simpa using hrunning)
  rw [hexited] at hlife
  rcases hlife with he | he <;> cases he

/-- Before the process has been started there is no worker. -/
lemma Place.notStarted {life : Life} {w : Worker τ} (h : Place life w)
    (hlife : life = .created ∨ life = .entered) : w = .notStarted := by
  cases w with
  | notStarted => rfl
  | check | running | notified | woken => exact (hlife.elim h.1 h.2).elim
  | acquire | locked | waiting => rcases hlife with rfl | rfl <;> rcases h with h | h <;> cases h
  | statusRead running query => exact (hlife.elim h.2.1 h.2.2.1).elim
  | left => rcases hlife with rfl | rfl <;> rcases h with h | h <;> cases h
  | serving | responding | crashed => exact h.elim

/-- The worker when `__exit__` has set the flag. -/
lemma Place.exiting {w : Worker τ} (h : Place .started w) : Place .exiting w := by
  cases w with
  | notStarted => rcases h with h | h <;> cases h
  | check | running | notified | woken => exact ⟨by simp, by simp⟩
  | acquire | locked | waiting => exact .inr rfl
  | statusRead running query => exact ⟨h.1, by simp, by simp, by simp⟩
  | left => exact .inl rfl
  | serving | responding | crashed => exact h.elim

lemma Invariant.enter {s : State τ} (h : Invariant s) {life : Life} {w : Worker τ}
    (hlife : s.life = .created ∨ s.life = .entered) (hplace : Place life w)
    (hw : consumed w = []) {running : Bool}
    (hrunning : running = true ↔ life = .entered ∨ life = .started) :
    Invariant { s with life := life, running := running, worker := w } := by
  have hnot := h.place.notStarted hlife
  have htasks : s.tasks = [] := by
    by_contra hne
    have := h.tasks hne
    rw [hnot] at this
    exact this
  have hkept := h.kept
  rw [hnot] at hkept
  refine ⟨?_, fun hne => absurd htasks hne, hplace, hrunning, h.slot, h.caller⟩
  rw [hw]
  exact hkept

/-- **Every step in time keeps the invariant.** -/
theorem Invariant.step {s s' : State τ} {e : Event τ} (h : Invariant s) (hcall : Called s e)
    (hok : InTime s e) (hs : Backend.step s e = some s') : Invariant s' := by
  have hplace := h.place
  have hcaller := h.caller
  cases trans_of_step hs with
  | enterRunning hlife =>
    have hnot := hplace.notStarted (.inl hlife)
    refine h.enter (.inl hlife) ?_ ?_ (by simp)
    · rw [hnot]
      exact .inr rfl
    · rw [hnot]
      rfl
  | enterStart hlife =>
    have hplace : Place .started (.check : Worker τ) := ⟨by simp, by simp⟩
    refine h.enter (.inr hlife) hplace rfl ?_
    simpa [hlife] using h.running
  | exitRunning hlife =>
    rw [hlife] at hplace
    exact ⟨h.kept, h.tasks, hplace.exiting, by simp, h.slot, h.caller⟩
  | exitNotify hlife hlock => exact h.exitNotify hlife hlock hok
  | addTasks => exact h.addTasks hok
  | post => exact hcall.elim
  | callerWait hc | callerWake hc | callerMiss hc _ | callerRead hc | callerClear hc =>
    -- nobody queries this process
    rw [hcaller] at hc
    cases hc
  | check hw => exact h.check hw
  | acquire hw | wait hw => exact h.move hw rfl (fun he => he.elim) id
  | wake hw => exact h.move hw rfl (fun _ => trivial) id
  | readStatus hw => exact h.readStatus hw
  | takeTasks hw => exact h.takeTasks hw
  | answer hw | respond hw _ =>
    rw [hw] at hplace
    exact hplace.elim
  | runTasks hw => exact h.runTasks hw

/-- **No task is stranded or lost** in any run whose notifications all find the worker waiting:
the worker never sleeps over tasks or over the end, and when it has left its loop, the batches
it has run are all the tasks that were added, each once and in order. -/
theorem no_task_stranded_or_lost {s : State τ} {es : List (Event τ)}
    (hok : Runs.Meets Backend.step (fun s e => Called s e ∧ InTime s e) initial es)
    (hrun : Runs.run Backend.step initial es = some s) :
    ¬Stranded s ∧ (s.worker = .left → s.batches.flatten = s.added) := by
  have h : Invariant s := Runs.run_invariant
    (fun _ _ _ hi hok hs => hi.step hok.1 hok.2 hs) invariant_initial hok hrun
  exact ⟨h.not_stranded, h.all_run⟩

/-- A process that starts, waits, is given two tasks and runs them, and is stopped. -/
def workday : List (Event ℕ) :=
  [.enterRunning, .enterStart, .check, .acquire, .wait, .addTasks [1, 2], .wake, .readStatus,
    .takeTasks, .runTasks, .check, .acquire, .wait, .exitRunning, .exitNotify, .wake,
    .readStatus, .takeTasks, .runTasks, .check]

theorem no_task_stranded_or_lost_workday :
    ∃ s, Runs.run Backend.step initial workday = some s ∧ s.worker = .left ∧
      ¬Stranded s ∧ s.batches.flatten = s.added := by
  obtain ⟨s, hrun, hleft⟩ : ∃ s, Runs.run Backend.step initial workday = some s ∧
      s.worker = .left := ⟨_, rfl, rfl⟩
  have hok : Runs.Meets Backend.step (fun s e => Called s e ∧ InTime s e) initial
      workday :=
    .cons ⟨trivial, trivial⟩ rfl <| .cons ⟨trivial, trivial⟩ rfl <|
    .cons ⟨trivial, trivial⟩ rfl <| .cons ⟨trivial, trivial⟩ rfl <|
    .cons ⟨trivial, trivial⟩ rfl <| .cons ⟨⟨by simp, by simp⟩, .inr rfl⟩ rfl <|
    .cons ⟨trivial, trivial⟩ rfl <| .cons ⟨trivial, trivial⟩ rfl <|
    .cons ⟨trivial, trivial⟩ rfl <| .cons ⟨trivial, trivial⟩ rfl <|
    .cons ⟨trivial, trivial⟩ rfl <| .cons ⟨trivial, trivial⟩ rfl <|
    .cons ⟨trivial, trivial⟩ rfl <| .cons ⟨trivial, trivial⟩ rfl <|
    .cons ⟨trivial, fun h => nomatch h⟩ rfl <| .cons ⟨trivial, trivial⟩ rfl <|
    .cons ⟨trivial, trivial⟩ rfl <| .cons ⟨trivial, trivial⟩ rfl <|
    .cons ⟨trivial, trivial⟩ rfl <| .cons ⟨trivial, trivial⟩ rfl .nil
  have h := no_task_stranded_or_lost hok hrun
  exact ⟨s, hrun, hleft, h.1, h.2 hleft⟩

/-- A task that is added before the worker waits leaves it asleep; if the process is stopped
before the worker tests `RUNNING`, the task is lost. -/
theorem early_task_is_stranded_or_lost :
    (∃ es s, Runs.Meets Backend.step Called initial es ∧
      Runs.run Backend.step (initial : State ℕ) es = some s ∧ Stranded s) ∧
    ∃ es s, Runs.Meets Backend.step Called initial es ∧
      Runs.run Backend.step (initial : State ℕ) es = some s ∧ s.worker = .left ∧
      s.added = [1] ∧ s.batches = [] := by
  refine ⟨?_, ?_⟩
  · refine ⟨[.enterRunning, .enterStart, .addTasks [1], .check, .acquire, .wait], _, ?_, rfl, rfl,
      .inl (by simp)⟩
    exact .cons trivial rfl <| .cons trivial rfl <| .cons ⟨by simp, by simp⟩ rfl <|
      .cons trivial rfl <| .cons trivial rfl <| .cons trivial rfl .nil
  · refine ⟨[.enterRunning, .enterStart, .addTasks [1], .exitRunning, .check, .exitNotify], _, ?_,
      rfl, rfl, rfl, rfl⟩
    exact .cons trivial rfl <| .cons trivial rfl <| .cons ⟨by simp, by simp⟩ rfl <|
      .cons trivial rfl <| .cons trivial rfl <| .cons trivial rfl .nil

end MoteBroker.TaskLoop
