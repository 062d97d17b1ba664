import MoteBroker.Topics

/-!
`ProcessManager` and `ProcessWorker`: the status list, the task list and the two conditions that
they share, and the steps of the worker's loop and of the manager's calls.
-/

namespace MoteBroker.Backend

open MoteBroker.Topics

/-! ### Values -/

/-- The values that are passed to a query or come back from it. -/
inductive Value
  | none
  | bool (b : Bool)
  | int (n : ℕ)
  | str (s : Str)
  | bytes (bs : Bytes)
  | tuple (vs : List Value)

def Value.truthy : Value → Bool
  | .none => false
  | .bool b => b
  | .int n => n ≠ 0
  | .str s => !s.isEmpty
  | .bytes bs => !bs.isEmpty
  | .tuple vs => !vs.isEmpty

/-- The arguments that `*value` stands for, if the value can be iterated. -/
def Value.unpack : Value → Option (List Value)
  | .tuple vs => some vs
  | .bytes bs => some (bs.map fun b => .int b.toNat)
  | .str s => some (s.map fun c => .str [c])
  | .none | .bool _ | .int _ => Option.none

/-! ### The shared state -/

/-- `status[QUERY]` and `status[RESPONSE]` are one item of the status list, `QUERY` and
`RESPONSE` being the same index. What it holds is its value; who has written it is recorded
for the proofs only. -/
inductive Slot
  | empty
  | query (args : List Value)
  | response (v : Value)

def Slot.value : Slot → Value
  | .empty => .none
  | .query args => .tuple args
  | .response v => v

/-- Where the manager's `__enter__` and `__exit__` are. -/
inductive Life
  | created
  | entered
  | started
  | exiting
  | exited
  deriving DecidableEq

variable {τ : Type}

/-- Where the worker is in its loop. -/
inductive Worker (τ : Type)
  | notStarted
  /-- About to test `status[RUNNING]`. -/
  | check
  /-- About to acquire the task condition. -/
  | acquire
  /-- About to wait, with the condition acquired. -/
  | locked
  | waiting
  /-- Waiting, with a notification pending. -/
  | notified
  /-- Awake, with the condition acquired again. -/
  | woken
  | statusRead (running : Bool) (query : Value)
  /-- About to run the query. -/
  | serving (query : Value) (consumed : List τ)
  /-- About to notify that the response is there. -/
  | responding (consumed : List τ)
  | running (consumed : List τ)
  | left
  | crashed

/-- Where the call of `query` is that holds the query lock. -/
inductive Caller
  | idle
  /-- The query is posted, and the response condition about to be acquired. -/
  | posted (args : List Value)
  | waiting (args : List Value)
  | notified (args : List Value)
  | woken (args : List Value)
  | answered (args : List Value) (response : Value)

structure State (τ : Type) where
  life : Life
  /-- `status[RUNNING]`. -/
  running : Bool
  slot : Slot
  tasks : List τ
  worker : Worker τ
  caller : Caller
  /-- All tasks that have been added, and the batches given to `run_tasks`. -/
  added : List τ
  batches : List (List τ)
  /-- The arguments of all calls of the manager's `query`. -/
  calls : List (List Value)
  /-- The arguments of all calls of the worker's `query`, with what it has produced. -/
  invoked : List (List Value × Value)
  /-- The arguments of the manager's calls that have returned, with what they have returned. -/
  returned : List (List Value × Value)

/-- After `setup`. -/
def initial : State τ := ⟨.created, false, .empty, [], .notStarted, .idle, [], [], [], [], []⟩

/-- The worker holds the task condition. -/
def Worker.holdsLock : Worker τ → Bool
  | .locked | .woken | .statusRead _ _ => true
  | _ => false

/-- The worker is in `wait()`. -/
def Worker.inWait : Worker τ → Bool
  | .waiting | .notified => true
  | _ => false

/-- `task_condition.notify()`, which has no effect where nobody waits. -/
def Worker.notify : Worker τ → Worker τ
  | .waiting => .notified
  | w => w

/-- `response_condition.notify()`, under the condition, if it can be acquired. -/
def Caller.notify : Caller → Option Caller
  | .waiting args => some (.notified args)
  | .woken _ | .answered _ _ => none
  | c => some c

/-! ### Steps -/

inductive Event (τ : Type)
  | enterRunning | enterStart | exitRunning | exitNotify
  | addTasks (tasks : List τ)
  | post (args : List Value)
  | callerWait | callerWake | callerRead | callerClear
  | check | acquire | wait | wake | readStatus | takeTasks
  | answer (response : Value)
  | respond | runTasks

/-- After the status has been read: all tasks are taken, the slot is cleared, and the worker
leaves the inner loop if there is something to do. -/
def State.takeTasks (s : State τ) (running : Bool) (query : Value) : State τ :=
  { s with
    tasks := []
    slot := .empty
    worker :=
      if query.truthy then .serving query s.tasks
      else if s.tasks ≠ [] ∨ running = false then .running s.tasks
      else .waiting }

/-- `self.status[RESPONSE] = self.query(*query)`, where `self.query` produces `response`. -/
def State.answer (s : State τ) (query : Value) (consumed : List τ) (response : Value) : State τ :=
  match query.unpack with
  | some args =>
    { s with slot := .response response, worker := .responding consumed,
             invoked := s.invoked ++ [(args, response)] }
  | none => { s with worker := .crashed }

/-- One step of the manager, of a caller or of the worker, if it can be taken. A section under
the task condition is one step, but for the worker's, which waits in it. -/
def step (s : State τ) : Event τ → Option (State τ)
  | .enterRunning =>
    match s.life with
    | .created => some { s with life := .entered, running := true }
    | _ => none
  | .enterStart =>
    match s.life, s.worker with
    | .entered, .notStarted => some { s with life := .started, worker := .check }
    | _, _ => none
  | .exitRunning =>
    match s.life with
    | .started => some { s with life := .exiting, running := false }
    | _ => none
  | .exitNotify =>
    match s.life, s.worker.holdsLock with
    | .exiting, false => some { s with life := .exited, worker := s.worker.notify }
    | _, _ => none
  | .addTasks tasks =>
    match s.worker.holdsLock with
    | false =>
      some { s with tasks := s.tasks ++ tasks, worker := s.worker.notify,
                    added := s.added ++ tasks }
    | true => none
  | .post args =>
    match s.caller, s.worker.holdsLock with
    | .idle, false =>
      some { s with slot := .query args, worker := s.worker.notify, caller := .posted args,
                    calls := s.calls ++ [args] }
    | _, _ => none
  | .callerWait =>
    match s.caller with
    | .posted args => some { s with caller := .waiting args }
    | _ => none
  | .callerWake =>
    match s.caller with
    | .notified args => some { s with caller := .woken args }
    | _ => none
  | .callerRead =>
    match s.caller, s.slot.value with
    | .woken args, .none => some { s with caller := .waiting args }
    | .woken args, v => some { s with caller := .answered args v }
    | _, _ => none
  | .callerClear =>
    match s.caller with
    | .answered args v =>
      some { s with slot := .empty, caller := .idle, returned := s.returned ++ [(args, v)] }
    | _ => none
  | .check =>
    match s.worker with
    | .check => some { s with worker := if s.running then .acquire else .left }
    | _ => none
  | .acquire =>
    match s.worker with
    | .acquire => some { s with worker := .locked }
    | _ => none
  | .wait =>
    match s.worker with
    | .locked => some { s with worker := .waiting }
    | _ => none
  | .wake =>
    match s.worker with
    | .notified => some { s with worker := .woken }
    | _ => none
  | .readStatus =>
    match s.worker with
    | .woken => some { s with worker := .statusRead s.running s.slot.value }
    | _ => none
  | .takeTasks =>
    match s.worker with
    | .statusRead running query => some (s.takeTasks running query)
    | _ => none
  | .answer response =>
    match s.worker with
    | .serving query consumed => some (s.answer query consumed response)
    | _ => none
  | .respond =>
    match s.worker, s.caller.notify with
    | .responding consumed, some caller =>
      some { s with caller := caller, worker := .running consumed }
    | _, _ => none
  | .runTasks =>
    match s.worker with
    | .running consumed =>
      some { s with worker := .check,
                    batches := if consumed = [] then s.batches else s.batches ++ [consumed] }
    | _ => none

/-- What each step does, and where it can be taken. -/
inductive Trans (s : State τ) : Event τ → State τ → Prop
  | enterRunning (hlife : s.life = .created) :
    Trans s .enterRunning { s with life := .entered, running := true }
  | enterStart (hlife : s.life = .entered) (hw : s.worker = .notStarted) :
    Trans s .enterStart { s with life := .started, worker := .check }
  | exitRunning (hlife : s.life = .started) :
    Trans s .exitRunning { s with life := .exiting, running := false }
  | exitNotify (hlife : s.life = .exiting) (hlock : s.worker.holdsLock = false) :
    Trans s .exitNotify { s with life := .exited, worker := s.worker.notify }
  | addTasks {tasks : List τ} (hlock : s.worker.holdsLock = false) :
    Trans s (.addTasks tasks)
      { s with tasks := s.tasks ++ tasks, worker := s.worker.notify, added := s.added ++ tasks }
  | post {args : List Value} (hcaller : s.caller = .idle) (hlock : s.worker.holdsLock = false) :
    Trans s (.post args)
      { s with slot := .query args, worker := s.worker.notify, caller := .posted args,
               calls := s.calls ++ [args] }
  | callerWait {args : List Value} (hcaller : s.caller = .posted args) :
    Trans s .callerWait { s with caller := .waiting args }
  | callerWake {args : List Value} (hcaller : s.caller = .notified args) :
    Trans s .callerWake { s with caller := .woken args }
  | callerMiss {args : List Value} (hcaller : s.caller = .woken args)
      (hnone : s.slot.value = .none) : Trans s .callerRead { s with caller := .waiting args }
  | callerRead {args : List Value} (hcaller : s.caller = .woken args) :
    Trans s .callerRead { s with caller := .answered args s.slot.value }
  | callerClear {args : List Value} {response : Value}
      (hcaller : s.caller = .answered args response) :
    Trans s .callerClear
      { s with slot := .empty, caller := .idle, returned := s.returned ++ [(args, response)] }
  | check (hw : s.worker = .check) :
    Trans s .check { s with worker := if s.running then .acquire else .left }
  | acquire (hw : s.worker = .acquire) : Trans s .acquire { s with worker := .locked }
  | wait (hw : s.worker = .locked) : Trans s .wait { s with worker := .waiting }
  | wake (hw : s.worker = .notified) : Trans s .wake { s with worker := .woken }
  | readStatus (hw : s.worker = .woken) :
    Trans s .readStatus { s with worker := .statusRead s.running s.slot.value }
  | takeTasks {running : Bool} {query : Value} (hw : s.worker = .statusRead running query) :
    Trans s .takeTasks (s.takeTasks running query)
  | answer {query response : Value} {consumed : List τ} (hw : s.worker = .serving query consumed) :
    Trans s (.answer response) (s.answer query consumed response)
  | respond {consumed : List τ} {caller : Caller} (hw : s.worker = .responding consumed)
      (hnotify : s.caller.notify = some caller) :
    Trans s .respond { s with caller := caller, worker := .running consumed }
  | runTasks {consumed : List τ} (hw : s.worker = .running consumed) :
    Trans s .runTasks
      { s with worker := .check,
               batches := if consumed = [] then s.batches else s.batches ++ [consumed] }

lemma trans_of_step {s s' : State τ} {e : Event τ} (hs : step s e = some s') : Trans s e s' := by
  cases e <;> simp only [step] at hs <;> split at hs <;> cases hs
  · exact .enterRunning ‹_›
  · exact .enterStart ‹_› ‹_›
  · exact .exitRunning ‹_›
  · exact .exitNotify ‹_› ‹_›
  · exact .addTasks ‹_›
  · exact .post ‹_› ‹_›
  · exact .callerWait ‹_›
  · exact .callerWake ‹_›
  · exact .callerMiss ‹_› ‹_›
  · exact .callerRead ‹_›
  · exact .callerClear ‹_›
  · exact .check ‹_›
  · exact .acquire ‹_›
  · exact .wait ‹_›
  · exact .wake ‹_›
  · exact .readStatus ‹_›
  · exact .takeTasks ‹_›
  · exact .answer ‹_›
  · exact .respond ‹_› ‹_›
  · exact .runTasks ‹_›

end MoteBroker.Backend
