import Mathlib.Data.List.Perm.Basic
import MoteBroker.Broker
import MoteBroker.Lib.Mirror
import MoteBroker.Lib.Runs

/-!
The replicas of the retained messages: the tree in memory, the database and what has been
broadcast last, while any number of threads publish, the worker applies the tasks in order and
the main loop takes the batches in order.
-/

namespace MoteBroker.Replicas

open NestedDict Mirror MoteBroker.Topics MoteBroker.RecursiveDefaultDict MoteBroker.TreeItems
open MoteBroker.Rows MoteBroker.Messages MoteBroker.Retain

/-! ### The system -/

/-- A thread that publishes: it has computed its rows, or it has added them as tasks, of which
the first has number `first`, and has put `stored` of them in the tree. -/
inductive Thread
  | computed (rows : List Row)
  | storing (first : ℕ) (rows : List Row) (stored : ℕ)

structure System where
  treeManager : TreeManager
  threads : List Thread
  broadcastQueue : List (List Row)
  /-- The number of the first task of every batch in the queue. -/
  queued : List ℕ
  database : Database
  /-- The rows that the main loop has taken. -/
  sent : List Row
  /-- All tasks that have been added. -/
  added : List Row

inductive Event
  | compute (p : Publish)
  | addTasks (i : ℕ)
  | store (i : ℕ)
  | put (i : ℕ)
  | work
  | mainLoop

def step (s : System) : Event → Option System
  | .compute p =>
    match IncomingMessage.fromRawData p.raw_topic p.data p.qos true with
    | .error _ => none
    | .ok message =>
      if message.table = .ok false then
        match messageRows message s.treeManager.tree with
        | .ok rows => some { s with threads := s.threads ++ [.computed rows] }
        | .error _ => some s
      else none
  | .addTasks i =>
    match s.threads[i]? with
    | some (.computed rows) =>
      some { s with treeManager := s.treeManager.addTasks rows,
                    threads := s.threads.set i (.storing s.added.length rows 0),
                    added := s.added ++ rows }
    | _ => none
  | .store i =>
    match s.threads[i]? with
    | some (.storing first rows stored) =>
      match rows[stored]? with
      | some row =>
        match setLeaf row.data s.treeManager.tree row.topic with
        | (tree, none) =>
          some { s with treeManager := { s.treeManager with tree := tree },
                        threads := s.threads.set i (.storing first rows (stored + 1)) }
        | (tree, some _) =>
          some { s with treeManager := { s.treeManager with tree := tree },
                        threads := s.threads.eraseIdx i }
      | none => none
    | _ => none
  | .put i =>
    match s.threads[i]? with
    | some (.storing first rows stored) =>
      if stored = rows.length then
        some { s with threads := s.threads.eraseIdx i,
                      broadcastQueue := s.broadcastQueue ++ [rows],
                      queued := s.queued ++ [first] }
      else none
    | _ => none
  | .work =>
    match s.treeManager.tasks with
    | task :: tasks =>
      some { s with treeManager := { s.treeManager with tasks := tasks },
                    database := runTasks s.database [task] }
    | [] => none
  | .mainLoop =>
    match s.broadcastQueue with
    | rows :: queue =>
      some { s with broadcastQueue := queue, queued := s.queued.tail, sent := s.sent ++ rows }
    | [] => none

/-- The payload of the last row among these for the topic, if there is one. -/
def lastPayload (rows : List Row) (topic : Str) : Option Payload :=
  LastWrite.last (rows.map fun row => (join row.topic, row.data)) topic

/-! ### When the replicas agree -/

/-- Task number `n` is to be put in the tree. -/
def System.ToStore (s : System) (n : ℕ) : Prop :=
  ∃ first rows stored, .storing first rows stored ∈ s.threads ∧
    first + stored ≤ n ∧ n < first + rows.length

/-- The row of task number `n` is on its way to the main loop. -/
def System.ToSend (s : System) (n : ℕ) : Prop :=
  (∃ first rows stored, .storing first rows stored ∈ s.threads ∧
    first ≤ n ∧ n < first + rows.length) ∨
  ∃ first rows, (first, rows) ∈ s.queued.zip s.broadcastQueue ∧
    first ≤ n ∧ n < first + rows.length

/-- Task number `n` is for the topic. -/
def System.Adds (s : System) (n : ℕ) (topic : List Str) : Prop :=
  ∃ row, s.added[n]? = some row ∧ row.topic = topic

/-- A later task for the topic is still to come, in the sense of `pending`. -/
def System.Covered (s : System) (pending : ℕ → Prop) (n : ℕ) (topic : List Str) : Prop :=
  ∃ m, n < m ∧ pending m ∧ s.Adds m topic

/-- The steps that follow the order in which tasks are added. No key of a payload tree holds the
separator. When a row is put in the tree, every later task for its topic is still to be put
there, or a still later one is; and so when rows are broadcast. -/
def InOrder (s : System) : Event → Prop
  | .compute p => ∀ message,
      IncomingMessage.fromRawData p.raw_topic p.data p.qos true = .ok message →
      Fit SingleLevel (fun _ => True) message
  | .store i => ∀ first rows stored row, s.threads[i]? = some (.storing first rows stored) →
      rows[stored]? = some row →
      ∀ m, first + stored < m → s.Adds m row.topic →
        s.ToStore m ∨ s.Covered s.ToStore m row.topic
  | .mainLoop => ∀ first queued rows queue, s.queued = first :: queued →
      s.broadcastQueue = rows :: queue →
      ∀ row ∈ rows, ∀ m, first + rows.length ≤ m → s.Adds m row.topic →
        s.ToSend m ∨ s.Covered s.ToSend m row.topic
  | _ => True

/-- Nothing is under way, and memory and database agree. -/
structure Start (s : System) : Prop where
  shape : Shape s.treeManager.tree
  distinct : s.treeManager.tree.Distinct
  keys : KeysOf SingleLevel s.treeManager.tree
  agree : ∀ topic, dbPayload s.database topic = payloadAt s.treeManager.tree (split topic)
  tasks : s.treeManager.tasks = []
  threads : s.threads = []
  broadcastQueue : s.broadcastQueue = []
  queued : s.queued = []
  sent : s.sent = []
  added : s.added = []

/-! ### Tasks as writes -/

/-- What a row writes, by topic. -/
def write (row : Row) : Batch Str Payload := single (join row.topic) row.data

lemma applyAll_write (rows : List Row) (m : Str → Payload) :
    applyAll (rows.map write) m =
      LastWrite.overwrite m (rows.map fun row => (join row.topic, row.data)) := by
  induction rows generalizing m with
  | nil => rfl
  | cons row rows ih =>
    rw [List.map_cons, List.map_cons, LastWrite.overwrite_cons, ← ih]
    unfold applyAll
    rw [List.foldl_cons, write, single_apply]

/-- The payloads of the database once the tasks have been applied. -/
def System.final (s : System) : Str → Payload :=
  dbPayload (applyTasks s.database s.treeManager.tasks)

def System.memory (s : System) (topic : Str) : Payload :=
  payloadAt s.treeManager.tree (split topic)

/-- What has been broadcast last for every topic, and before that what there was. -/
def System.broadcast (base : Str → Payload) (s : System) : Str → Payload :=
  applyAll (s.sent.map write) base

def System.writes (s : System) : List (Batch Str Payload) := s.added.map write

/-! ### The invariant -/

/-- A row of single-level nodes. -/
abbrev Kept (row : Row) : Prop := Keeps SingleLevel (fun _ => True) row

/-- The rows are the tasks from number `first` on. -/
def Placed (added : List Row) (first : ℕ) (rows : List Row) : Prop :=
  ∀ j row, rows[j]? = some row → added[first + j]? = some row

structure Invariant (base : Str → Payload) (s : System) : Prop where
  shape : Shape s.treeManager.tree
  distinct : s.treeManager.tree.Distinct
  keys : KeysOf SingleLevel s.treeManager.tree
  computed : ∀ rows, .computed rows ∈ s.threads → ∀ row ∈ rows, Kept row
  storing : ∀ first rows stored, .storing first rows stored ∈ s.threads →
    Placed s.added first rows
  queued : List.Forall₂ (Placed s.added) s.queued s.broadcastQueue
  added : ∀ row ∈ s.added, Kept row
  current : Current s.writes s.final
  stored : Behind s.writes s.final s.memory s.ToStore
  sent : Behind s.writes s.final (s.broadcast base) s.ToSend

lemma Start.invariant {s : System} (h : Start s) : Invariant (dbPayload s.database) s := by
  have hfinal : s.final = dbPayload s.database := by
    rw [System.final, h.tasks]; rfl
  have hmemory : s.memory = dbPayload s.database := funext fun topic => (h.agree topic).symm
  have hbroadcast : s.broadcast (dbPayload s.database) = dbPayload s.database := by
    rw [System.broadcast, h.sent]; rfl
  have hwrites : s.writes = [] := by rw [System.writes, h.added]; rfl
  refine ⟨h.shape, h.distinct, h.keys, ?_, ?_, ?_, ?_, ?_, ?_, ?_⟩
  · simp [h.threads]
  · simp [h.threads]
  · rw [h.queued, h.broadcastQueue]; exact .nil
  · simp [h.added]
  · rw [hwrites]; exact current_nil _
  · rw [hmemory, hfinal]; exact behind_refl _ _ _
  · rw [hbroadcast, hfinal]; exact behind_refl _ _ _

lemma Placed.append {added rows : List Row} {first : ℕ} (h : Placed added first rows)
    (more : List Row) : Placed (added ++ more) first rows := fun j row hj => by
  have hold := h j row hj
  rw [List.getElem?_append_left (List.getElem?_eq_some_iff.mp hold).1, hold]

lemma Placed.mem {added rows : List Row} {first : ℕ} (h : Placed added first rows) {row : Row}
    (hr : row ∈ rows) : row ∈ added := by
  obtain ⟨j, hj⟩ := List.mem_iff_getElem?.mp hr
  exact List.mem_of_getElem? (h j row hj)

lemma Placed.write {s : System} {rows : List Row} {first : ℕ} (h : Placed s.added first rows)
    {j : ℕ} {row : Row} (hj : rows[j]? = some row) :
    s.writes[first + j]? = some (write row) := by
  rw [System.writes, List.getElem?_map, h j row hj]; rfl

lemma Kept.join_eq_iff {row row' : Row} (h : Kept row) (h' : Kept row') :
    join row.topic = join row'.topic ↔ row.topic = row'.topic :=
  ⟨join_injective h.nodes h.nonempty h'.nodes h'.nonempty, congrArg join⟩

section
variable {base : Str → Payload} {s : System}

/-- A task that writes what a row writes is for the topic of the row. -/
lemma Invariant.adds_of_write (h : Invariant base s) {n : ℕ} {b : Batch Str Payload}
    (hb : s.writes[n]? = some b) {row : Row} (hrow : Kept row) (hk : b (join row.topic) ≠ none) :
    s.Adds n row.topic := by
  rw [System.writes, List.getElem?_map, Option.map_eq_some_iff] at hb
  obtain ⟨row', hrow', rfl⟩ := hb
  have hkept := h.added row' (List.mem_of_getElem? hrow')
  exact ⟨row', hrow', ((hrow.join_eq_iff hkept).mp (single_ne_none.mp hk)).symm⟩

lemma System.Covered.writes {pending : ℕ → Prop} {n : ℕ} {row : Row}
    (h : s.Covered pending n row.topic) :
    Mirror.Covered s.writes pending n (join row.topic) := by
  obtain ⟨m, hm, hp, row', hrow', ht⟩ := h
  refine ⟨m, write row', hm, hp, ?_, single_ne_none.mpr (by rw [ht])⟩
  rw [System.writes, List.getElem?_map, hrow']; rfl

end

/-! ### Threads come and go -/

lemma mem_eraseIdx_of_ne {α : Type} {l : List α} {i : ℕ} {a x : α} (hi : l[i]? = some a)
    (hx : x ∈ l) (hne : x ≠ a) : x ∈ l.eraseIdx i := by
  obtain ⟨hlt, hget⟩ := List.getElem?_eq_some_iff.mp hi
  have hperm := List.getElem_cons_eraseIdx_perm hlt
  rw [hget] at hperm
  exact (List.mem_cons.mp (hperm.mem_iff.mpr hx)).resolve_left hne

lemma mem_set_iff {α : Type} {l : List α} {i : ℕ} {a y : α} (hi : l[i]? = some a) (x : α) :
    x ∈ l.set i y ↔ x = y ∨ x ∈ l.eraseIdx i := by
  obtain ⟨hlt, -⟩ := List.getElem?_eq_some_iff.mp hi
  rw [(List.set_perm_cons_eraseIdx hlt y).mem_iff, List.mem_cons]

section
variable {base : Str → Payload} {s : System}

lemma Invariant.compute (h : Invariant base s) {rows : List Row} (hrows : ∀ row ∈ rows, Kept row) :
    Invariant base { s with threads := s.threads ++ [.computed rows] } := by
  have hold : ∀ {first : ℕ} {rows' : List Row} {stored : ℕ},
      .storing first rows' stored ∈ s.threads ++ [.computed rows] ↔
        .storing first rows' stored ∈ s.threads := by simp
  refine ⟨h.shape, h.distinct, h.keys, fun rows' hm => ?_, fun first rows' stored hm =>
    h.storing first rows' stored (hold.mp hm), h.queued, h.added, h.current,
    h.stored.mono fun n hn => ?_, h.sent.mono fun n hn => ?_⟩
  · rcases List.mem_append.mp hm with hm | hm
    · exact h.computed rows' hm
    · cases List.mem_singleton.mp hm
      exact hrows
  · obtain ⟨first, rows', stored, hm, hn⟩ := hn
    exact ⟨first, rows', stored, hold.mpr hm, hn⟩
  · refine hn.imp_left ?_
    rintro ⟨first, rows', stored, hm, hn⟩
    exact ⟨first, rows', stored, hold.mpr hm, hn⟩

lemma applyTasks_append (db : Database) (xs ys : List Row) :
    applyTasks db (xs ++ ys) = applyTasks (applyTasks db xs) ys := List.foldl_append

lemma Invariant.addTasks (h : Invariant base s) {i : ℕ} {rows : List Row}
    (hi : s.threads[i]? = some (.computed rows)) :
    Invariant base { s with
      treeManager := s.treeManager.addTasks rows
      threads := s.threads.set i (.storing s.added.length rows 0)
      added := s.added ++ rows } := by
  have hrows := h.computed rows (List.mem_of_getElem? hi)
  have hwrites : (s.added ++ rows).map write = s.writes ++ rows.map write := List.map_append
  have hfinal : dbPayload (applyTasks s.database (s.treeManager.tasks ++ rows)) =
      applyAll (rows.map write) s.final := by
    rw [applyTasks_append, dbPayload_applyTasks, applyAll_write]; rfl
  have hlength : s.writes.length = s.added.length := List.length_map _
  have hkeep : ∀ {t : Thread}, (∀ rows, t ≠ .computed rows) → t ∈ s.threads →
      t ∈ s.threads.set i (.storing s.added.length rows 0) := fun hne hm =>
    (mem_set_iff hi _).mpr (.inr (mem_eraseIdx_of_ne hi hm (hne _)))
  refine ⟨h.shape, h.distinct, h.keys, fun rows' hm => ?_, fun first rows' stored hm => ?_,
    h.queued.imp fun _ _ hp => hp.append rows, fun row hr => ?_, ?_, ?_, ?_⟩
  · rcases (mem_set_iff hi _).mp hm with he | hm
    · cases he
    · exact h.computed rows' (List.mem_of_mem_eraseIdx hm)
  · rcases (mem_set_iff hi _).mp hm with he | hm
    · cases he
      intro j row hj
      rw [List.getElem?_append_right (by omega), Nat.add_sub_cancel_left, hj]
    · exact (h.storing first rows' stored (List.mem_of_mem_eraseIdx hm)).append rows
  · exact (List.mem_append.mp hr).elim (h.added row) (hrows row)
  · unfold System.writes System.final TreeManager.addTasks
    rw [hwrites, hfinal]
    exact h.current.appendAll _
  · unfold System.writes System.final TreeManager.addTasks
    rw [hwrites, hfinal]
    refine h.stored.appendAll _ (fun j hj => ?_) fun n hn => ?_
    · rw [List.length_map] at hj
      rw [hlength]
      exact ⟨s.added.length, rows, 0, (mem_set_iff hi _).mpr (.inl rfl), by omega, by omega⟩
    · obtain ⟨first, rows', stored, hm, hn⟩ := hn
      exact ⟨first, rows', stored, hkeep (by simp) hm, hn⟩
  · unfold System.writes System.final TreeManager.addTasks
    rw [hwrites, hfinal]
    refine h.sent.appendAll _ (fun j hj => .inl ?_) fun n hn => hn.imp_left ?_
    · rw [List.length_map] at hj
      rw [hlength]
      exact ⟨s.added.length, rows, 0, (mem_set_iff hi _).mpr (.inl rfl), by omega, by omega⟩
    · rintro ⟨first, rows', stored, hm, hn⟩
      exact ⟨first, rows', stored, hkeep (by simp) hm, hn⟩

/-- A row put in the tree is a write to what the memory holds. -/
lemma memory_write {t t' : Rdd Payload} {row : Row} (hrow : Kept row)
    (hv : valueAt t' = Function.update (valueAt t) row.topic (some row.data)) :
    (fun topic => payloadAt t' (split topic)) =
      (write row).apply fun topic => payloadAt t (split topic) := by
  funext topic
  rw [write, single_apply, Function.update_apply, payloadAt, hv, Function.update_apply]
  by_cases ht : topic = join row.topic
  · have hsplit : split topic = row.topic := by
      rw [ht, split_join hrow.nodes hrow.nonempty]
    rw [if_pos ht, if_pos hsplit]
    rfl
  · have hsplit : split topic ≠ row.topic := fun e => ht (by rw [← e, join_split])
    rw [if_neg ht, if_neg hsplit]
    rfl

lemma Invariant.store (h : Invariant base s) {i first stored : ℕ} {rows : List Row} {row : Row}
    (hok : InOrder s (.store i)) (hi : s.threads[i]? = some (.storing first rows stored))
    (hrow : rows[stored]? = some row) :
    ∃ tree, setLeaf row.data s.treeManager.tree row.topic = (tree, none) ∧
      Invariant base { s with
        treeManager := { s.treeManager with tree := tree }
        threads := s.threads.set i (.storing first rows (stored + 1)) } := by
  have hplaced := h.storing first rows stored (List.mem_of_getElem? hi)
  have hkept := h.added row (hplaced.mem (List.mem_of_getElem? hrow))
  obtain ⟨tree, htree, hs, hd, hk, hv⟩ := setLeaf_spec row.data h.shape
    ⟨hkept.nonempty, fun hm => (hkept.nodes _ hm).ne_leafKey rfl⟩
  have hmemory : (fun topic => payloadAt tree (split topic)) = (write row).apply s.memory :=
    memory_write hkept hv
  -- the other threads are where they were, and this one has one row less to store
  have hthreads : ∀ {first' rows' stored'}, .storing first' rows' stored' ∈ s.threads →
      (first' = first ∧ rows' = rows ∧ stored' = stored) ∨
        .storing first' rows' stored' ∈ s.threads.set i (.storing first rows (stored + 1)) := by
    intro first' rows' stored' hm
    by_cases he : Thread.storing first' rows' stored' = .storing first rows stored
    · cases he
      exact .inl ⟨rfl, rfl, rfl⟩
    · exact .inr ((mem_set_iff hi _).mpr (.inr (mem_eraseIdx_of_ne hi hm he)))
  have hnew : .storing first rows (stored + 1) ∈
      s.threads.set i (.storing first rows (stored + 1)) := (mem_set_iff hi _).mpr (.inl rfl)
  refine ⟨tree, htree, hs, hd h.distinct, hk _ h.keys hkept.nodes, fun rows' hm => ?_,
    fun first' rows' stored' hm => ?_, h.queued, h.added, h.current, ?_, h.sent.mono fun n hn => ?_⟩
  · rcases (mem_set_iff hi _).mp hm with he | hm
    · cases he
    · exact h.computed rows' (List.mem_of_mem_eraseIdx hm)
  · rcases (mem_set_iff hi _).mp hm with he | hm
    · cases he
      exact hplaced
    · exact h.storing first' rows' stored' (List.mem_of_mem_eraseIdx hm)
  · unfold System.memory
    rw [hmemory]
    refine (h.stored.deliver h.current (hplaced.write hrow) fun k m b hk hm hb hbk => ?_).mono
      fun n hn => ?_
    · cases single_ne_none.mp hk
      exact (hok first rows stored row hi hrow m hm (h.adds_of_write hb hkept hbk)).imp_right
        fun hcov => hcov.writes
    · obtain ⟨⟨first', rows', stored', hm, hle, hlt⟩, hne⟩ := hn
      rcases hthreads hm with ⟨rfl, rfl, rfl⟩ | hm
      · exact ⟨first', rows', stored' + 1, hnew, by omega, hlt⟩
      · exact ⟨first', rows', stored', hm, hle, hlt⟩
  · refine hn.imp_left ?_
    rintro ⟨first', rows', stored', hm, hn⟩
    rcases hthreads hm with ⟨rfl, rfl, rfl⟩ | hm
    · exact ⟨first', rows', stored' + 1, hnew, hn⟩
    · exact ⟨first', rows', stored', hm, hn⟩

lemma Invariant.put (h : Invariant base s) {i first : ℕ} {rows : List Row}
    (hi : s.threads[i]? = some (.storing first rows rows.length)) :
    Invariant base { s with
      threads := s.threads.eraseIdx i
      broadcastQueue := s.broadcastQueue ++ [rows]
      queued := s.queued ++ [first] } := by
  have hplaced := h.storing first rows _ (List.mem_of_getElem? hi)
  have hzip : (s.queued ++ [first]).zip (s.broadcastQueue ++ [rows]) =
      s.queued.zip s.broadcastQueue ++ [(first, rows)] := List.zip_append h.queued.length_eq
  have hthreads : ∀ {first' rows' stored'}, .storing first' rows' stored' ∈ s.threads →
      (first' = first ∧ rows' = rows ∧ stored' = rows.length) ∨
        .storing first' rows' stored' ∈ s.threads.eraseIdx i := by
    intro first' rows' stored' hm
    by_cases he : Thread.storing first' rows' stored' = .storing first rows rows.length
    · cases he
      exact .inl ⟨rfl, rfl, rfl⟩
    · exact .inr (mem_eraseIdx_of_ne hi hm he)
  refine ⟨h.shape, h.distinct, h.keys, fun rows' hm =>
    h.computed rows' (List.mem_of_mem_eraseIdx hm), fun first' rows' stored' hm =>
    h.storing first' rows' stored' (List.mem_of_mem_eraseIdx hm),
    List.rel_append h.queued (.cons hplaced .nil), h.added, h.current,
    h.stored.mono fun n hn => ?_, h.sent.mono fun n hn => ?_⟩
  · obtain ⟨first', rows', stored', hm, hle, hlt⟩ := hn
    rcases hthreads hm with ⟨rfl, rfl, rfl⟩ | hm
    · omega
    · exact ⟨first', rows', stored', hm, hle, hlt⟩
  · rcases hn with ⟨first', rows', stored', hm, hn⟩ | ⟨first', rows', hm, hn⟩
    · rcases hthreads hm with ⟨rfl, rfl, rfl⟩ | hm
      · exact .inr ⟨first', rows', by rw [hzip]; simp, hn⟩
      · exact .inl ⟨first', rows', stored', hm, hn⟩
    · exact .inr ⟨first', rows', by rw [hzip]; exact List.mem_append_left _ hm, hn⟩

lemma Invariant.work (h : Invariant base s) {task : Row} {tasks : List Row}
    (ht : s.treeManager.tasks = task :: tasks) :
    Invariant base { s with
      treeManager := { s.treeManager with tasks := tasks }
      database := runTasks s.database [task] } := by
  have hfinal : dbPayload (applyTasks (runTasks s.database [task]) tasks) = s.final := by
    rw [System.final, ht]; rfl
  refine ⟨h.shape, h.distinct, h.keys, h.computed, h.storing, h.queued, h.added, ?_, ?_, ?_⟩
  · unfold System.final
    rw [hfinal]
    exact h.current
  · unfold System.final
    rw [hfinal]
    exact h.stored
  · unfold System.final
    rw [hfinal]
    exact h.sent

lemma Invariant.mainLoop (h : Invariant base s) (hok : InOrder s .mainLoop) {rows : List Row}
    {queue : List (List Row)} (hq : s.broadcastQueue = rows :: queue) :
    Invariant base { s with
      broadcastQueue := queue, queued := s.queued.tail, sent := s.sent ++ rows } := by
  have hall := h.queued
  rw [hq] at hall
  obtain ⟨first, queued, hplaced, hrest, hnum⟩ := List.forall₂_cons_right_iff.mp hall
  have hbroadcast : applyAll ((s.sent ++ rows).map write) base =
      applyAll (rows.map write) (s.broadcast base) := by
    rw [List.map_append]
    exact List.foldl_append
  refine ⟨h.shape, h.distinct, h.keys, h.computed, h.storing, by rw [hnum]; exact hrest, h.added,
    h.current, h.stored, ?_⟩
  have hdeliver := @Behind.deliverAll _ _ _ _ _ _ h.sent h.current (rows.map write) first
    (fun j b hj => by
      obtain ⟨row, hrow, rfl⟩ := Option.map_eq_some_iff.mp (List.getElem?_map ▸ hj)
      exact hplaced.write hrow)
    (fun j hj => .inr ⟨first, rows, by rw [hnum, hq]; simp, by omega, by simpa using hj⟩)
    (fun b hb k m c hk hm hc hck => by
      obtain ⟨row, hrow, rfl⟩ := List.mem_map.mp hb
      cases single_ne_none.mp hk
      have hkept := h.added row (hplaced.mem hrow)
      rw [List.length_map] at hm
      exact (hok first queued rows queue hnum hq row hrow m hm
        (h.adds_of_write hc hkept hck)).imp_right fun hcov => hcov.writes)
  unfold System.broadcast
  rw [hbroadcast]
  refine hdeliver.mono fun n hn => ?_
  rw [List.length_map] at hn
  obtain ⟨hn | ⟨first', rows', hm, hle⟩, hnot⟩ := hn
  · exact .inl hn
  · rw [hnum, hq, List.zip_cons_cons] at hm
    rcases List.mem_cons.mp hm with he | hm
    · cases he
      exact absurd hle hnot
    · exact .inr ⟨first', rows', by rw [hnum]; exact hm, hle⟩

/-! ### Runs -/

lemma Invariant.step {s' : System} {e : Event} (h : Invariant base s) (hok : InOrder s e)
    (hs : Replicas.step s e = some s') : Invariant base s' := by
  cases e with
  | compute p =>
    simp only [Replicas.step] at hs
    cases hmessage : IncomingMessage.fromRawData p.raw_topic p.data p.qos true with
    | error e => rw [hmessage] at hs; cases hs
    | ok message =>
      obtain ⟨-, t, hnodes⟩ := fromRawData_nodes hmessage
      simp only [hmessage] at hs
      split_ifs at hs
      cases hrows : messageRows message s.treeManager.tree with
      | error e =>
        rw [hrows] at hs
        cases hs
        exact h
      | ok rows =>
        rw [hrows] at hs
        cases hs
        exact h.compute (messageRows_ok (fun _ h => h) ⟨trivial, fun _ => trivial⟩ hnodes h.shape
          h.distinct h.keys (hok message hmessage) hrows)
  | addTasks i =>
    simp only [Replicas.step] at hs
    split at hs
    case h_1 rows hi => cases hs; exact h.addTasks hi
    case h_2 => cases hs
  | store i =>
    simp only [Replicas.step] at hs
    split at hs
    case h_2 => cases hs
    case h_1 first rows stored hi =>
      split at hs
      case h_2 => cases hs
      case h_1 row hrow =>
        obtain ⟨tree, htree, hinv⟩ := h.store hok hi hrow
        rw [htree] at hs
        cases hs
        exact hinv
  | put i =>
    simp only [Replicas.step] at hs
    split at hs
    case h_2 => cases hs
    case h_1 first rows stored hi =>
      split_ifs at hs with hstored
      cases hs
      rw [hstored] at hi
      exact h.put hi
  | work =>
    simp only [Replicas.step] at hs
    split at hs
    case h_1 task tasks ht => cases hs; exact h.work ht
    case h_2 => cases hs
  | mainLoop =>
    simp only [Replicas.step] at hs
    split at hs
    case h_1 rows queue hq => cases hs; exact h.mainLoop hok hq
    case h_2 => cases hs

end

/-- **The replicas agree** at the end of every run whose steps follow the order in which tasks
are added: once all has drained, memory and database hold the same payload for every topic, and
it is the one that has been broadcast last, if one has. -/
theorem replicas_agree {s₀ s : System} (h0 : Start s₀) {es : List Event}
    (hok : Runs.Meets step InOrder s₀ es) (hrun : Runs.run step s₀ es = some s)
    (hthreads : s.threads = []) (htasks : s.treeManager.tasks = [])
    (hqueue : s.broadcastQueue = []) (topic : Str) :
    payloadAt s.treeManager.tree (split topic) = dbPayload s.database topic ∧
      ∀ data, lastPayload s.sent topic = some data → data = dbPayload s.database topic := by
  have h : Invariant (dbPayload s₀.database) s := Runs.run_invariant
    (fun _ _ _ hi hok hs => hi.step hok hs) h0.invariant hok hrun
  have hfinal : s.final = dbPayload s.database := by
    rw [System.final, htasks]; rfl
  have hstore : ∀ n, ¬s.ToStore n := by
    rintro n ⟨first, rows, stored, hm, -⟩
    simp [hthreads] at hm
  have hsend : ∀ n, ¬s.ToSend n := by
    rintro n (⟨first, rows, stored, hm, -⟩ | ⟨first, rows, hm, -⟩)
    · simp [hthreads] at hm
    · simp [hqueue] at hm
  refine ⟨?_, fun data hdata => ?_⟩
  · rw [← hfinal]
    exact congrFun (h.stored.eq hstore) topic
  · have hlast : s.broadcast (dbPayload s₀.database) topic = data := by
      rw [System.broadcast, applyAll_write, LastWrite.overwrite, ← lastPayload, hdata]
      rfl
    rw [← hlast, ← hfinal]
    exact congrFun (h.sent.eq hsend) topic

/-- A broker that starts, and publishes that turn a light on and off. -/
def empty : System := ⟨⟨.nil, []⟩, [], [], [], fun _ => none, [], []⟩

def lightOn : Publish := ⟨"light".toList, some [49], 0⟩

def lightOff : Publish := ⟨"light".toList, some [48], 0⟩

lemma start_empty : Start empty where
  shape := shape_nil
  distinct := trivial
  keys := trivial
  agree := fun topic => by simp [empty, dbPayload, payloadAt]
  tasks := rfl
  threads := rfl
  broadcastQueue := rfl
  queued := rfl
  sent := rfl
  added := rfl

lemma inOrder_store {s : System} {i first stored : ℕ} {rows : List Row}
    (hi : s.threads[i]? = some (.storing first rows stored))
    (h : ∀ m, first + stored < m → m < s.added.length → s.ToStore m) : InOrder s (.store i) := by
  rintro first' rows' stored' row hi' - m hm ⟨row', hadded, -⟩
  obtain ⟨rfl, rfl, rfl⟩ := Thread.storing.inj (Option.some.inj (hi.symm.trans hi'))
  exact .inl (h m hm (List.getElem?_eq_some_iff.mp hadded).1)

lemma inOrder_mainLoop {s : System} {first : ℕ} {queued : List ℕ} {rows : List Row}
    {queue : List (List Row)} (hnum : s.queued = first :: queued)
    (hq : s.broadcastQueue = rows :: queue)
    (h : ∀ m, first + rows.length ≤ m → m < s.added.length → s.ToSend m) :
    InOrder s .mainLoop := by
  rintro first' queued' rows' queue' hnum' hq' row - m hm ⟨row', hadded, -⟩
  obtain ⟨rfl, -⟩ := List.cons.inj (hnum.symm.trans hnum')
  obtain ⟨rfl, -⟩ := List.cons.inj (hq.symm.trans hq')
  exact .inl (h m hm (List.getElem?_eq_some_iff.mp hadded).1)

def onRow : Row := ⟨["light".toList], some [49], 0⟩

def offRow : Row := ⟨["light".toList], some [48], 0⟩

/-- Two threads turn the light on and off at the same time, in the order of their tasks. -/
def inOrderEvents : List Event :=
  [.compute lightOn, .compute lightOff, .addTasks 0, .addTasks 1, .store 0, .work, .store 1, .work,
    .put 0, .put 0, .mainLoop, .mainLoop]

theorem replicas_agree_light :
    ∃ s, Runs.run step empty inOrderEvents = some s ∧
      lastPayload s.sent "light".toList = some (some [48]) ∧
      payloadAt s.treeManager.tree (split "light".toList) = dbPayload s.database "light".toList ∧
      ∀ data, lastPayload s.sent "light".toList = some data →
        data = dbPayload s.database "light".toList := by
  obtain ⟨s, hrun, hthreads, htasks, hqueue, hsent⟩ : ∃ s, Runs.run step empty inOrderEvents =
      some s ∧ s.threads = [] ∧ s.treeManager.tasks = [] ∧ s.broadcastQueue = [] ∧
      lastPayload s.sent "light".toList = some (some [48]) := ⟨_, rfl, rfl, rfl, rfl, rfl⟩
  have hok : Runs.Meets step InOrder empty inOrderEvents := by
    refine .cons (fun message h => ?_) rfl <| .cons (fun message h => ?_) rfl <|
      .cons trivial rfl <| .cons trivial rfl ?_
    · cases h
      trivial
    · cases h
      trivial
    -- the row of the second task is put in the tree after that of the first
    change Runs.Meets step InOrder ⟨⟨.nil, [onRow, offRow]⟩,
      [.storing 0 [onRow] 0, .storing 1 [offRow] 0], [], [], fun _ => none, [], [onRow, offRow]⟩ _
    refine .cons (inOrder_store (i := 0) rfl fun m hm hlt => ?_) rfl <| .cons trivial rfl <|
      .cons (inOrder_store (i := 1) rfl fun m hm hlt => ?_) rfl <| .cons trivial rfl <|
      .cons trivial rfl <| .cons trivial rfl ?_
    · have hm' : 0 < m := hm
      have hlt' : m < 2 := hlt
      obtain rfl : m = 1 := by omega
      exact ⟨1, _, 0, List.mem_of_getElem? (i := 1) rfl, le_rfl, Nat.lt_succ_self 1⟩
    · have hm' : 1 < m := hm
      have hlt' : m < 2 := hlt
      omega
    -- and broadcast after it
    change Runs.Meets step InOrder ⟨⟨_, []⟩, [], [[onRow], [offRow]], [0, 1], _, [],
      [onRow, offRow]⟩ _
    refine .cons (inOrder_mainLoop rfl rfl fun m hm hlt => ?_) rfl <|
      .cons (inOrder_mainLoop rfl rfl fun m hm hlt => ?_) rfl .nil
    · have hm' : 1 ≤ m := hm
      have hlt' : m < 2 := hlt
      obtain rfl : m = 1 := by omega
      exact .inr ⟨1, _, List.mem_of_getElem? (i := 1) rfl, le_rfl, Nat.lt_succ_self 1⟩
    · have hm' : 2 ≤ m := hm
      have hlt' : m < 2 := hlt
      omega
  exact ⟨s, hrun, hsent, replicas_agree start_empty hok hrun hthreads htasks hqueue _⟩

/-- Two threads that put their rows in the tree in the other order than they add their tasks. -/
theorem crossed_threads_disagree :
    Start empty ∧ ∃ s, Runs.run step empty
        [.compute lightOn, .compute lightOff, .addTasks 0, .addTasks 1, .store 1, .store 0,
          .work, .work, .put 0, .put 0, .mainLoop, .mainLoop] = some s ∧
      s.threads = [] ∧ s.treeManager.tasks = [] ∧ s.broadcastQueue = [] ∧
      payloadAt s.treeManager.tree (split "light".toList) = some [49] ∧
      dbPayload s.database "light".toList = some [48] ∧
      lastPayload s.sent "light".toList = some (some [48]) :=
  ⟨start_empty, _, rfl, rfl, rfl, rfl, rfl, rfl, rfl⟩

end MoteBroker.Replicas
