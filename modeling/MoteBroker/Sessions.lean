import MoteBroker.Batches
import MoteBroker.Restart
import MoteBroker.TaskLoop

/-!
The broker over many sessions: retained publishes go into the tree and, as tasks, to the worker
process, which writes them to the database batch by batch; a restart begins with a new process and
with what it finds in the database.
-/

namespace MoteBroker.Sessions

open MoteBroker.Topics MoteBroker.RecursiveDefaultDict MoteBroker.TreeItems MoteBroker.Rows
open MoteBroker.Messages MoteBroker.Retain MoteBroker.Batches MoteBroker.TaskLoop
open MoteBroker.Restart hiding Retained

/-! ### The system -/

structure System where
  backend : Backend.State Row
  tree : Rdd Payload
  database : Database
  /-- The processes of the sessions before this one. -/
  earlier : List (Backend.State Row)

def initial : System := ⟨Backend.initial, .nil, fun _ => none, []⟩

inductive Event
  /-- `process_message`: a retained publish, whose tasks are added once the lock is free. -/
  | publish (p : Publish)
  /-- A step of the process or of its manager, other than `add_tasks`. -/
  | work (e : Backend.Event Row)
  /-- A new session, in which `preload` is given these rows of the database. -/
  | restart (rows : List (Str × Bytes))

/-- The rows of a retained publish that is not for a table, unless it raises. -/
def publishedRows (p : Publish) (tree : Rdd Payload) : Option (List Row) :=
  match IncomingMessage.fromRawData p.raw_topic p.data p.qos true with
  | .error _ => none
  | .ok message =>
    if message.table = .ok false then (messageRows message tree).toOption else none

/-- What a step of the worker does to the database: `run_tasks`, where there is a batch. -/
def worked (db : Database) (w : Backend.Worker Row) : Backend.Event Row → Database
  | .runTasks => if consumed w = [] then db else runTasks db (consumed w)
  | _ => db

def step (s : System) : Event → Option System
  | .publish p =>
    match publishedRows p s.tree with
    | none => some s
    | some rows => (Backend.step s.backend (.addTasks rows)).map fun backend =>
        { s with backend := backend, tree := (setLeaves s.tree rows).1 }
  | .work e => (Backend.step s.backend e).map fun backend =>
      { s with backend := backend, database := worked s.database s.backend.worker e }
  | .restart rows => (preload .nil rows).toOption.map fun tree =>
      { s with backend := Backend.initial, tree := tree, earlier := s.earlier ++ [s.backend] }

/-- No key of a payload tree holds the separator; nobody queries the process; no batch stores a
topic that it deletes last; the database lists each of its rows once, none of them for a topic
with an empty node. -/
def Admissible (s : System) : Event → Prop
  | .publish p => ∀ message,
      IncomingMessage.fromRawData p.raw_topic p.data p.qos true = .ok message →
      Fit SingleLevel (fun _ => True) message
  | .work (.addTasks _) | .work (.post _) => False
  | .work .runTasks => DeletedOnly (consumed s.backend.worker)
  | .work _ => True
  | .restart rows => Lists s.database rows ∧ ∀ e ∈ rows, [] ∉ split e.1

/-- The tasks that the processes of the earlier sessions have run. -/
def System.kept (s : System) : List Row := s.earlier.flatMap fun b => b.batches.flatten

/-- What rows say about a topic. -/
def payloadOf (rows : List Row) (topic : List Str) : Payload :=
  (LastWrite.last (rows.map fun row => (row.topic, row.data)) topic).join

/-! ### The process -/

/-- Every task that has been added has been run, is about to be run, or is in the list. -/
structure Kept (b : Backend.State Row) : Prop where
  added : b.batches.flatten ++ consumed b.worker ++ b.tasks = b.added
  slot : b.slot = .empty
  caller : b.caller = .idle
  quiet : match b.worker with
    | .statusRead _ query => query = .none
    | .serving _ _ | .responding _ | .crashed => False
    | _ => True

lemma kept_initial : Kept Backend.initial := ⟨rfl, rfl, rfl, trivial⟩

section
variable {b b' : Backend.State Row} {e : Backend.Event Row}

lemma Kept.addTasks (h : Kept b) {rows : List Row}
    (hs : Backend.step b (.addTasks rows) = some b') :
    Kept b' ∧ b'.batches = b.batches ∧ b'.added = b.added ++ rows := by
  obtain ⟨hadded, hslot, hcaller, hquiet⟩ := h
  cases Backend.trans_of_step hs with
  | addTasks hlock =>
    refine ⟨⟨?_, hslot, hcaller, ?_⟩, rfl, rfl⟩
    · rw [consumed_notify, ← List.append_assoc, hadded]
    · cases hw : b.worker <;> rw [hw] at hquiet <;> exact hquiet

lemma Kept.runTasks (h : Kept b) (hs : Backend.step b .runTasks = some b') :
    Kept b' ∧ b'.added = b.added ∧ b'.batches.flatten = b.batches.flatten ++ consumed b.worker := by
  obtain ⟨hadded, hslot, hcaller, -⟩ := h
  cases Backend.trans_of_step hs with
  | @runTasks tasks hw =>
    have hbatches : (if tasks = [] then b.batches else b.batches ++ [tasks]).flatten =
        b.batches.flatten ++ tasks := by
      by_cases htasks : tasks = [] <;> simp [htasks]
    rw [hw] at hadded
    refine ⟨⟨?_, hslot, hcaller, trivial⟩, rfl, ?_⟩
    · rw [hbatches]
      simpa [consumed] using hadded
    · rw [hbatches, hw]
      rfl

/-- The other steps run nothing and add nothing. -/
lemma Kept.step (h : Kept b) (hs : Backend.step b e = some b') (hpost : ∀ args, e ≠ .post args)
    (hadd : ∀ rows, e ≠ .addTasks rows) (hrun : e ≠ .runTasks) :
    Kept b' ∧ b'.added = b.added ∧ b'.batches = b.batches := by
  obtain ⟨hadded, hslot, hcaller, hquiet⟩ := h
  cases Backend.trans_of_step hs with
  | enterRunning | exitRunning => exact ⟨⟨hadded, hslot, hcaller, hquiet⟩, rfl, rfl⟩
  | enterStart _ hw | acquire hw | wait hw | wake hw =>
    rw [hw] at hadded
    exact ⟨⟨hadded, hslot, hcaller, trivial⟩, rfl, rfl⟩
  | exitNotify =>
    refine ⟨⟨by rw [consumed_notify]; exact hadded, hslot, hcaller, ?_⟩, rfl, rfl⟩
    cases hw : b.worker <;> rw [hw] at hquiet <;> exact hquiet
  | check hw =>
    rw [hw] at hadded
    refine ⟨⟨?_, hslot, hcaller, ?_⟩, rfl, rfl⟩
    · cases b.running <;> exact hadded
    · cases b.running <;> trivial
  | readStatus hw =>
    rw [hw] at hadded
    exact ⟨⟨hadded, hslot, hcaller, by rw [hslot]; rfl⟩, rfl, rfl⟩
  | @takeTasks running query hw =>
    rw [hw] at hadded hquiet
    obtain rfl : query = .none := hquiet
    have hadded : b.batches.flatten ++ b.tasks = b.added := by simpa [consumed] using hadded
    have htake : b.takeTasks running .none = { b with
        tasks := [], slot := .empty
        worker := if b.tasks ≠ [] ∨ running = false then .running b.tasks else .waiting } := by
      simp [Backend.State.takeTasks, Backend.Value.truthy]
    rw [htake]
    by_cases hdo : b.tasks ≠ [] ∨ running = false
    · rw [if_pos hdo]
      exact ⟨⟨by simpa [consumed] using hadded, rfl, hcaller, trivial⟩, rfl, rfl⟩
    · rw [if_neg hdo]
      have htasks : b.tasks = [] := not_not.mp fun hne => hdo (.inl hne)
      rw [htasks] at hadded
      exact ⟨⟨by simpa [consumed] using hadded, rfl, hcaller, trivial⟩, rfl, rfl⟩
  | callerWait hc | callerWake hc | callerMiss hc _ | callerRead hc | callerClear hc =>
    rw [hcaller] at hc
    cases hc
  | answer hw | respond hw _ =>
    rw [hw] at hquiet
    exact hquiet.elim
  | post => exact absurd rfl (hpost _)
  | addTasks => exact absurd rfl (hadd _)
  | runTasks => exact absurd rfl hrun

end

/-! ### What rows leave behind -/

lemma payloadOf_append (rows rows' : List Row) (topic : List Str) :
    payloadOf (rows ++ rows') topic =
    match LastWrite.last (rows'.map fun row => (row.topic, row.data)) topic with
    | some data => data
    | none => payloadOf rows topic := by
  unfold payloadOf
  rw [List.map_append, LastWrite.last_append]
  cases LastWrite.last (rows'.map fun row => (row.topic, row.data)) topic <;> rfl

/-- The tree after rows have been put in it. -/
lemma payloadAt_of_leafWrites {t t' : Rdd Payload} {rows : List Row}
    (hv : ∀ F, valueAt t' F = LastWrite.overwrite (valueAt t) (leafWrites rows) F) {F : List Str}
    {before : List Row} (h : payloadAt t F = payloadOf before F) :
    payloadAt t' F = payloadOf (before ++ rows) F := by
  rw [payloadOf_append, payloadAt, hv, LastWrite.overwrite, last_leafWrites]
  cases LastWrite.last (rows.map fun row => (row.topic, row.data)) F with
  | none => exact h
  | some data => rfl

/-- A row for a topic, not the empty list, whose nodes do not hold the separator. -/
def Named (row : Row) : Prop := row.topic ≠ [] ∧ ∀ n ∈ row.topic, SingleLevel n

lemma dbPayload_applyMessages (db : Database) (rows : List Row) :
    dbPayload (applyMessages db rows) =
      LastWrite.overwrite (dbPayload db) (rows.map fun row => (join row.topic, row.data)) := by
  induction rows generalizing db with
  | nil => rfl
  | cons row rows ih =>
    have hrow : dbPayload (applyMessage db row) =
        Function.update (dbPayload db) (join row.topic) row.data := by
      funext topic
      unfold dbPayload applyMessage
      rw [Function.update_apply, Function.update_apply]
      by_cases ht : topic = join row.topic
      · rw [if_pos ht, if_pos ht]
        cases row.data <;> rfl
      · rw [if_neg ht, if_neg ht]
    rw [List.map_cons, LastWrite.overwrite_cons, ← hrow]
    exact ih _

/-- The database after a batch. -/
lemma dbPayload_runTasks {db : Database} {rows before : List Row} (hbatch : DeletedOnly rows)
    (hrows : ∀ row ∈ rows, Named row)
    (h : ∀ F, F ≠ [] → (∀ n ∈ F, SingleLevel n) → dbPayload db (join F) = payloadOf before F)
    {F : List Str} (h0 : F ≠ []) (hF : ∀ n ∈ F, SingleLevel n) :
    dbPayload (runTasks db rows) (join F) = payloadOf (before ++ rows) F := by
  have hkeys : ∀ row ∈ rows, join row.topic = join F ↔ row.topic = F := fun row hr =>
    ⟨fun he => join_injective (hrows row hr).2 (hrows row hr).1 hF h0 he, congrArg join⟩
  rw [runTasks_eq_iff.mpr hbatch, dbPayload_applyMessages, LastWrite.overwrite,
    LastWrite.last_map_congr rows hkeys, payloadOf_append]
  cases LastWrite.last (rows.map fun row => (row.topic, row.data)) F with
  | none => exact h F h0 hF
  | some data => rfl

/-! ### Loading -/

/-- A row of the database as one that is put in the tree. -/
def loadedRow (e : Str × Bytes) : Row := ⟨split e.1, some e.2, 0⟩

lemma preloadRow_eq {t : Rdd Payload} (hs : Shape t) {e : Str × Bytes} (he : [] ∉ split e.1) :
    preloadRow t e.1 e.2 = .ok (setLeaf (some e.2) t (split e.1)).1 := by
  obtain ⟨t', h', -⟩ := lshift_spec none (fun _ => some e.2) hs (path_split e.1)
  rw [setLeaf_of_lshift h']
  have hnodes : (split e.1).filter (· ≠ []) = split e.1 := preloadNodes_eq he
  unfold preloadRow
  rw [hnodes]
  split
  case h_1 hnil => exact absurd hnil (split_ne_nil _)
  case h_2 =>
    rw [h']
    rfl

/-- Without empty nodes, loading rows is putting them in a tree. -/
lemma preload_eq {t : Rdd Payload} (hs : Shape t) {l : List (Str × Bytes)}
    (hl : ∀ e ∈ l, [] ∉ split e.1) : preload t l = .ok (setLeaves t (l.map loadedRow)).1 := by
  induction l generalizing t with
  | nil => rfl
  | cons e l ih =>
    obtain ⟨t', h', hs', -⟩ := setLeaf_spec (some e.2) hs (path_split e.1)
    have hrow := preloadRow_eq hs (hl e List.mem_cons_self)
    rw [h'] at hrow
    have hrest := ih hs' fun x hx => hl x (List.mem_cons_of_mem _ hx)
    rw [preload, hrow, ok_bind, hrest, List.map_cons, setLeaves]
    simp only [loadedRow, h']

lemma named_loadedRow (e : Str × Bytes) : Named (loadedRow e) :=
  ⟨split_ne_nil e.1, fun _ hn => singleLevel_of_mem_split hn⟩

lemma payloadOf_of_not_named {rows : List Row} (hrows : ∀ row ∈ rows, Named row) {F : List Str}
    (hF : ¬(F ≠ [] ∧ ∀ n ∈ F, SingleLevel n)) : payloadOf rows F = none := by
  unfold payloadOf
  rw [LastWrite.last_eq_none.mpr fun w hw hk => ?_]
  · rfl
  · obtain ⟨row, hrow, rfl⟩ := List.mem_map.mp hw
    have hkey : row.topic = F := hk
    exact hF (hkey ▸ hrows row hrow)

/-- What has been loaded is what the database holds. -/
lemma payloadOf_loaded {db : Database} {l : List (Str × Bytes)} (hl : Lists db l) {F : List Str}
    (h0 : F ≠ []) (hF : ∀ n ∈ F, SingleLevel n) :
    payloadOf (l.map loadedRow) F = dbPayload db (join F) := by
  have hkeys : ∀ e ∈ l, split e.1 = F ↔ e.1 = join F := fun e _ =>
    ⟨fun h => by rw [← h, join_split], fun h => by rw [h, split_join hF h0]⟩
  have hlast : LastWrite.last ((l.map loadedRow).map fun row => (row.topic, row.data)) F =
      LastWrite.last (l.map fun e => (e.1, some e.2)) (join F) := by
    rw [List.map_map]
    exact LastWrite.last_map_congr l hkeys
  rw [payloadOf, hlast, LastWrite.last_map_snd some]
  cases hdb : db (join F) with
  | none =>
    rw [LastWrite.last_eq_none.mpr fun e he hk => ?_, dbPayload, hdb]
    · rfl
    · obtain ⟨qos, hrow⟩ := (hl.mem e.1 e.2).mp he
      rw [hk, hdb] at hrow
      cases hrow
  | some row =>
    obtain ⟨data, qos⟩ := row
    have hmem : (join F, data) ∈ l := (hl.mem _ _).mpr ⟨qos, hdb⟩
    rw [(LastWrite.last_eq_some_of_nodup hl.nodup).mpr hmem, dbPayload, hdb]
    rfl

/-! ### The invariant -/

structure Invariant (s : System) : Prop where
  backend : Kept s.backend
  shape : Shape s.tree
  distinct : s.tree.Distinct
  keys : KeysOf SingleLevel s.tree
  named : ∀ row ∈ s.kept ++ s.backend.added, Named row
  memory : ∀ F, payloadAt s.tree F = payloadOf (s.kept ++ s.backend.added) F
  database : ∀ F, F ≠ [] → (∀ n ∈ F, SingleLevel n) →
    dbPayload s.database (join F) = payloadOf (s.kept ++ s.backend.batches.flatten) F
  earlier : ∀ b ∈ s.earlier, b.batches.flatten <+: b.added

lemma invariant_initial : Invariant initial where
  backend := kept_initial
  shape := shape_nil
  distinct := trivial
  keys := trivial
  named _ h := nomatch h
  memory F := by
    rw [payloadAt, initial, valueAt_nil]
    rfl
  database _ _ _ := rfl
  earlier _ h := nomatch h

section
variable {s s' : System} {e : Event}

lemma publishedRows_named {p : Publish} {rows : List Row} (h : Invariant s)
    (hok : Admissible s (.publish p)) (hrows : publishedRows p s.tree = some rows) :
    ∀ row ∈ rows, Named row := by
  unfold publishedRows at hrows
  split at hrows
  case h_1 => cases hrows
  case h_2 message hraw =>
    split_ifs at hrows
    cases hmessage : messageRows message s.tree with
    | error e =>
      rw [hmessage] at hrows
      cases hrows
    | ok rows' =>
      rw [hmessage] at hrows
      cases hrows
      obtain ⟨-, t, hnodes⟩ := fromRawData_nodes hraw
      have hkeep := messageRows_ok (fun _ h => h) ⟨trivial, fun _ => trivial⟩ hnodes h.shape
        h.distinct h.keys (hok message hraw) hmessage
      exact fun row hr => ⟨(hkeep row hr).nonempty, (hkeep row hr).nodes⟩

lemma Invariant.publish {p : Publish} (h : Invariant s) (hok : Admissible s (.publish p))
    (hs : step s (.publish p) = some s') : Invariant s' := by
  unfold step at hs
  dsimp only at hs
  split at hs
  case h_1 =>
    cases hs
    exact h
  case h_2 rows hrows =>
    obtain ⟨backend, hadd, rfl⟩ := Option.map_eq_some_iff.mp hs
    obtain ⟨hkept, hbatches, hadded⟩ := h.backend.addTasks hadd
    have hnamed := publishedRows_named h hok hrows
    obtain ⟨tree, htree, hshape, hdistinct, hkeys, hvalues⟩ := setLeaves_spec h.shape
      fun row hr => path_of_singleLevel (hnamed row hr).1 (hnamed row hr).2
    have hall : s.kept ++ backend.added = s.kept ++ s.backend.added ++ rows := by
      rw [hadded, List.append_assoc]
    refine ⟨hkept, ?_, ?_, ?_, fun row hr => ?_, fun F => ?_, ?_, h.earlier⟩
    · rw [htree]
      exact hshape
    · rw [htree]
      exact hdistinct h.distinct
    · rw [htree]
      exact hkeys _ h.keys fun row hr => (hnamed row hr).2
    · change row ∈ s.kept ++ backend.added at hr
      rw [hall] at hr
      exact (List.mem_append.mp hr).elim (h.named row) (hnamed row)
    · change payloadAt (setLeaves s.tree rows).1 F = payloadOf (s.kept ++ backend.added) F
      rw [hall, htree]
      exact payloadAt_of_leafWrites hvalues (h.memory F)
    · change ∀ F, F ≠ [] → (∀ n ∈ F, SingleLevel n) →
        dbPayload s.database (join F) = payloadOf (s.kept ++ backend.batches.flatten) F
      rw [hbatches]
      exact h.database

/-- The worker runs its batch. -/
lemma Invariant.runTasks (h : Invariant s) (hok : DeletedOnly (consumed s.backend.worker))
    {backend : Backend.State Row} (hrun : Backend.step s.backend .runTasks = some backend) :
    Invariant { s with
      backend := backend, database := worked s.database s.backend.worker .runTasks } := by
  obtain ⟨hkept, hadded, hbatches⟩ := h.backend.runTasks hrun
  have hall : s.kept ++ backend.batches.flatten =
      s.kept ++ s.backend.batches.flatten ++ consumed s.backend.worker := by
    rw [hbatches, List.append_assoc]
  have hnamed : ∀ row ∈ consumed s.backend.worker, Named row := fun row hr => by
    refine h.named row (List.mem_append_right _ ?_)
    rw [← h.backend.added]
    exact List.mem_append_left _ (List.mem_append_right _ hr)
  refine ⟨hkept, h.shape, h.distinct, h.keys, ?_, ?_, fun F h0 hF => ?_, h.earlier⟩
  · change ∀ row ∈ s.kept ++ backend.added, Named row
    rw [hadded]
    exact h.named
  · change ∀ F, payloadAt s.tree F = payloadOf (s.kept ++ backend.added) F
    rw [hadded]
    exact h.memory
  · change dbPayload (worked s.database s.backend.worker .runTasks) (join F) =
      payloadOf (s.kept ++ backend.batches.flatten) F
    rw [hall]
    unfold worked
    dsimp only
    split_ifs with hnone
    · rw [hnone, List.append_nil]
      exact h.database F h0 hF
    · exact dbPayload_runTasks hok hnamed h.database h0 hF

lemma Invariant.work {e : Backend.Event Row} (h : Invariant s) (hok : Admissible s (.work e))
    (hs : step s (.work e) = some s') : Invariant s' := by
  obtain ⟨backend, hwork, rfl⟩ := Option.map_eq_some_iff.mp hs
  have hquiet : Kept backend → backend.added = s.backend.added →
      backend.batches = s.backend.batches → Invariant { s with backend := backend } :=
    fun hkept hadded hbatches => by
      refine { h with backend := hkept, named := ?_, memory := ?_, database := ?_ }
      · change ∀ row ∈ s.kept ++ backend.added, Named row
        rw [hadded]
        exact h.named
      · change ∀ F, payloadAt s.tree F = payloadOf (s.kept ++ backend.added) F
        rw [hadded]
        exact h.memory
      · change ∀ F, F ≠ [] → (∀ n ∈ F, SingleLevel n) →
          dbPayload s.database (join F) = payloadOf (s.kept ++ backend.batches.flatten) F
        rw [hbatches]
        exact h.database
  cases e with
  | addTasks | post => exact hok.elim
  | runTasks => exact h.runTasks hok hwork
  | _ =>
    obtain ⟨hkept, hadded, hbatches⟩ :=
      h.backend.step hwork (fun _ he => nomatch he) (fun _ he => nomatch he) (fun he => nomatch he)
    exact hquiet hkept hadded hbatches

lemma Invariant.restart {rows : List (Str × Bytes)} (h : Invariant s)
    (hok : Admissible s (.restart rows)) (hs : step s (.restart rows) = some s') :
    Invariant s' := by
  obtain ⟨hlists, hnodes⟩ := hok
  obtain ⟨tree, htree, rfl⟩ := Option.map_eq_some_iff.mp hs
  have hnamed : ∀ row ∈ rows.map loadedRow, Named row := fun row hr => by
    obtain ⟨e, -, rfl⟩ := List.mem_map.mp hr
    exact named_loadedRow e
  obtain ⟨tree', hset, hshape, hdistinct, hkeys, hvalues⟩ := setLeaves_spec shape_nil
    fun row hr => path_of_singleLevel (hnamed row hr).1 (hnamed row hr).2
  rw [preload_eq shape_nil hnodes, hset] at htree
  obtain rfl : tree' = tree := Option.some.inj htree
  -- the process that ends has run a beginning of its tasks
  have hbeginning : s.backend.batches.flatten <+: s.backend.added :=
    ⟨_, by rw [← List.append_assoc]; exact h.backend.added⟩
  have hkept : (s.earlier ++ [s.backend]).flatMap (fun b => b.batches.flatten) =
      s.kept ++ s.backend.batches.flatten := by
    rw [List.flatMap_append, List.flatMap_singleton]
    rfl
  have hrows : ∀ row ∈ s.kept ++ s.backend.batches.flatten, Named row := fun row hr => by
    refine h.named row ?_
    rcases List.mem_append.mp hr with hr | hr
    · exact List.mem_append_left _ hr
    · exact List.mem_append_right _ (hbeginning.subset hr)
  refine ⟨kept_initial, hshape, hdistinct trivial, ?_, ?_, fun F => ?_, ?_, fun b hb => ?_⟩
  · exact hkeys _ trivial fun row hr => (hnamed row hr).2
  · change ∀ row ∈ (s.earlier ++ [s.backend]).flatMap (fun b => b.batches.flatten) ++ [], Named row
    rw [hkept, List.append_nil]
    exact hrows
  · change payloadAt tree' F =
      payloadOf ((s.earlier ++ [s.backend]).flatMap (fun b => b.batches.flatten) ++ []) F
    have hempty : payloadAt (.nil : Rdd Payload) F = payloadOf [] F := by
      rw [payloadAt, valueAt_nil]
      rfl
    rw [hkept, List.append_nil, payloadAt_of_leafWrites hvalues hempty, List.nil_append]
    by_cases hF : F ≠ [] ∧ ∀ n ∈ F, SingleLevel n
    · rw [payloadOf_loaded hlists hF.1 hF.2, h.database F hF.1 hF.2]
    · rw [payloadOf_of_not_named hnamed hF, payloadOf_of_not_named hrows hF]
  · change ∀ F, F ≠ [] → (∀ n ∈ F, SingleLevel n) → dbPayload s.database (join F) =
      payloadOf ((s.earlier ++ [s.backend]).flatMap (fun b => b.batches.flatten) ++ []) F
    rw [hkept, List.append_nil]
    exact h.database
  · rcases List.mem_append.mp hb with hb | hb
    · exact h.earlier b hb
    · rw [List.mem_singleton.mp hb]
      exact hbeginning

theorem Invariant.step (h : Invariant s) (hok : Admissible s e) (hs : Sessions.step s e = some s') :
    Invariant s' := by
  cases e with
  | publish p => exact h.publish hok hs
  | work e => exact h.work hok hs
  | restart rows => exact h.restart hok hs

/-- **A restart keeps a beginning of each session**: after any sessions, the tree holds what the
last of these rows says: for each earlier session, those that its process has written, which are a
beginning of those that have been retained in it, and all those of this session. -/
theorem restarts_keep_beginnings {es : List Event}
    (hok : Runs.Meets Sessions.step Admissible initial es)
    (hrun : Runs.run Sessions.step initial es = some s) :
    (∀ b ∈ s.earlier, b.batches.flatten <+: b.added) ∧
      ∀ F, payloadAt s.tree F =
        payloadOf ((s.earlier.flatMap fun b => b.batches.flatten) ++ s.backend.added) F := by
  have h : Invariant s :=
    Runs.run_invariant (fun _ _ _ h hok hs => h.step hok hs) invariant_initial hok hrun
  exact ⟨h.earlier, h.memory⟩

end

/-- A light is reported before the process waits for tasks, and the broker is stopped. -/
def hasty : List Event :=
  [.work .enterRunning, .work .enterStart, .publish ⟨"light/bedroom".toList, some [49], 0⟩,
    .work .exitRunning, .work .check, .work .exitNotify, .restart []]

theorem restarts_keep_beginnings_hasty :
    ∃ s, Runs.run step initial hasty = some s ∧ (∀ b ∈ s.earlier, b.batches.flatten <+: b.added) ∧
      payloadAt s.tree ["light".toList, "bedroom".toList] = none := by
  have hlists : Lists (fun _ => none) [] := ⟨List.nodup_nil, by simp⟩
  have hok : Runs.Meets step Admissible initial hasty :=
    .cons trivial rfl <| .cons trivial rfl <|
    .cons (fun message hraw => by cases hraw; trivial) rfl <| .cons trivial rfl <|
    .cons trivial rfl <| .cons trivial rfl <| .cons ⟨hlists, by simp⟩ rfl .nil
  obtain ⟨s, hrun, hrows⟩ : ∃ s, Runs.run step initial hasty = some s ∧
      (s.earlier.flatMap fun b => b.batches.flatten) ++ s.backend.added = [] := ⟨_, rfl, rfl⟩
  obtain ⟨hearlier, hmemory⟩ := restarts_keep_beginnings hok hrun
  refine ⟨s, hrun, hearlier, ?_⟩
  rw [hmemory, hrows]
  rfl

/-! ### Sessions that lose nothing -/

/-- Tasks are added while the worker is in `wait()`, `__exit__` does not notify it between its test
of `RUNNING` and `wait()`, and a session begins when the process before it has left its loop. -/
def Orderly (s : System) : Event → Prop
  | .publish p => ∀ rows, publishedRows p s.tree = some rows →
      Called s.backend (.addTasks rows) ∧ InTime s.backend (.addTasks rows)
  | .work e => InTime s.backend e
  | .restart _ => s.backend.worker = .left

/-- Nothing has been lost, and nothing will be. -/
structure Complete (s : System) : Prop where
  backend : TaskLoop.Invariant s.backend
  earlier : ∀ b ∈ s.earlier, b.batches.flatten = b.added

section
variable {s s' : System} {e : Event}

lemma Complete.step (h : Complete s) (hadmissible : Admissible s e) (hok : Orderly s e)
    (hs : Sessions.step s e = some s') : Complete s' := by
  cases e with
  | publish p =>
    unfold Sessions.step at hs
    dsimp only at hs
    split at hs
    case h_1 =>
      cases hs
      exact h
    case h_2 rows hrows =>
      obtain ⟨backend, hadd, rfl⟩ := Option.map_eq_some_iff.mp hs
      obtain ⟨hcalled, hintime⟩ := hok rows hrows
      exact ⟨h.backend.step hcalled hintime hadd, h.earlier⟩
  | work e =>
    obtain ⟨backend, hwork, rfl⟩ := Option.map_eq_some_iff.mp hs
    have hcalled : Called s.backend e := by
      cases e with
      | addTasks | post => exact hadmissible.elim
      | _ => trivial
    exact ⟨h.backend.step hcalled hok hwork, h.earlier⟩
  | restart rows =>
    obtain ⟨tree, -, rfl⟩ := Option.map_eq_some_iff.mp hs
    refine ⟨TaskLoop.invariant_initial, fun b hb => ?_⟩
    rcases List.mem_append.mp hb with hb | hb
    · exact h.earlier b hb
    · rw [List.mem_singleton.mp hb]
      exact h.backend.all_run hok

end

end MoteBroker.Sessions
