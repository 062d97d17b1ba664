import MoteBroker.Retain

/-!
Batches of tasks: what the worker writes when it takes several messages at a time, and for which
messages it makes no difference how they fall into batches.
-/

namespace MoteBroker.Batches

open MoteBroker.Topics MoteBroker.TreeItems MoteBroker.Retain

/-! ### The property -/

/-- One message alone: its topic is deleted, or gets its data and qos. -/
def applyMessage (db : Database) (row : Row) : Database :=
  Function.update db (join row.topic) (row.data.map fun data => (data, row.qos))

/-- The messages, one at a time. -/
def applyMessages (db : Database) (messages : List Row) : Database := messages.foldl applyMessage db

/-- The worker takes one batch after the other. -/
def runBatches (db : Database) (batches : List (List Row)) : Database := batches.foldl runTasks db

/-- The messages have the same outcome in one batch as one at a time, and in any batches. -/
structure BatchedAlike (db : Database) (messages : List Row) : Prop where
  batch : runTasks db messages = applyMessages db messages
  split : ∀ batches batches' : List (List Row), batches.flatten = messages →
    batches'.flatten = messages → runBatches db batches = runBatches db batches'

/-- What the messages write, in their order. -/
def writes (messages : List Row) : List (Str × Option (Bytes × ℕ)) :=
  messages.map fun row => (join row.topic, row.data.map fun data => (data, row.qos))

/-- A topic that the last of its messages deletes is stored by none of them. -/
def DeletedOnly (messages : List Row) : Prop :=
  ∀ topic, LastWrite.last (writes messages) topic = some none →
    ∀ row ∈ messages, join row.topic = topic → row.data = none

/-! ### One batch -/

/-- The rows of the bulk upsert. -/
def upserts (messages : List Row) : List (Str × (Bytes × ℕ)) :=
  messages.filterMap fun row => row.data.map fun data => (join row.topic, (data, row.qos))

lemma applyMessages_eq (db : Database) (messages : List Row) :
    applyMessages db messages = LastWrite.overwrite db (writes messages) := by
  induction messages generalizing db with
  | nil => rfl
  | cons row messages ih =>
    have hw : writes (row :: messages) =
        (join row.topic, row.data.map fun data => (data, row.qos)) :: writes messages := rfl
    rw [hw, LastWrite.overwrite_cons]
    exact ih (applyMessage db row)

lemma last_writes_eq_none {messages : List Row} {topic : Str} :
    LastWrite.last (writes messages) topic = none ↔ ∀ row ∈ messages, join row.topic ≠ topic := by
  rw [LastWrite.last_eq_none]
  simp [writes]

lemma last_upserts_eq_none {messages : List Row} {topic : Str} :
    LastWrite.last (upserts messages) topic = none ↔
      ∀ row ∈ messages, join row.topic = topic → row.data = none := by
  rw [LastWrite.last_eq_none]
  refine ⟨?_, ?_⟩
  · intro h row hrow htopic
    cases hdata : row.data with
    | none => rfl
    | some data =>
      refine absurd htopic (h (join row.topic, (data, row.qos)) ?_)
      exact List.mem_filterMap.mpr ⟨row, hrow, by rw [hdata]; rfl⟩
  · intro h w hw htopic
    obtain ⟨row, hrow, heq⟩ := List.mem_filterMap.mp hw
    obtain ⟨data, hdata, rfl⟩ := Option.map_eq_some_iff.mp heq
    rw [h row hrow htopic] at hdata
    cases hdata

/-- Where the last message for a topic stores it, so does the last upsert. -/
lemma last_upserts {messages : List Row} {topic : Str} {v : Bytes × ℕ}
    (h : LastWrite.last (writes messages) topic = some (some v)) :
    LastWrite.last (upserts messages) topic = some v := by
  induction messages with
  | nil => cases h
  | cons row messages ih =>
    have hw : writes (row :: messages) =
        (join row.topic, row.data.map fun data => (data, row.qos)) :: writes messages := rfl
    have hu : LastWrite.last (upserts (row :: messages)) topic =
        (LastWrite.last (upserts messages) topic).or (if join row.topic = topic then
          row.data.map fun data => (data, row.qos) else none) := by
      unfold upserts
      cases hdata : row.data with
      | none => simp [hdata]
      | some data => simp [hdata, LastWrite.last_cons]
    rw [hw, LastWrite.last_cons] at h
    rw [hu]
    cases hlast : LastWrite.last (writes messages) topic with
    | some o =>
      rw [hlast, Option.some_or] at h
      rw [ih (hlast.trans h), Option.some_or]
    | none =>
      rw [hlast, Option.none_or] at h
      have hnone := last_writes_eq_none.mp hlast
      rw [last_upserts_eq_none.mpr fun row hrow htopic => absurd htopic (hnone row hrow),
        Option.none_or]
      split_ifs at h ⊢
      exact Option.some.inj h

variable {db : Database} {messages : List Row} {topic : Str}

lemma runTasks_of_stored {v : Bytes × ℕ}
    (h : LastWrite.last (writes messages) topic = some (some v)) :
    runTasks db messages topic = some v := by
  have hu : LastWrite.last (upserts messages) topic = some v := last_upserts h
  unfold upserts at hu
  simp only [runTasks, hu, Option.some_or]

/-- Where no message stores the topic, a batch does to it what its messages do one at a time. -/
lemma runTasks_of_not_stored (h : ∀ row ∈ messages, join row.topic = topic → row.data = none) :
    runTasks db messages topic = applyMessages db messages topic := by
  have hu : LastWrite.last (upserts messages) topic = none := last_upserts_eq_none.mpr h
  unfold upserts at hu
  simp only [runTasks, hu, Option.none_or]
  rw [applyMessages_eq, LastWrite.overwrite]
  cases hlast : LastWrite.last (writes messages) topic with
  | none =>
    have hno := last_writes_eq_none.mp hlast
    rw [if_neg]
    · rfl
    · rintro ⟨row, hrow, -, htopic⟩
      exact hno row hrow htopic
  | some o =>
    obtain ⟨row, hrow, heq⟩ := List.mem_map.mp (LastWrite.mem_of_last hlast)
    obtain ⟨htopic, hdata⟩ := Prod.mk.inj heq
    have hnone := h row hrow htopic
    rw [if_pos ⟨row, hrow, hnone, htopic⟩, ← hdata, hnone]
    rfl

/-- **One batch is its messages one at a time** exactly when no topic that it deletes last is stored
in it. -/
theorem runTasks_eq_iff :
    runTasks db messages = applyMessages db messages ↔ DeletedOnly messages := by
  refine ⟨?_, ?_⟩
  · intro h topic hlast
    have hvalue := congrFun h topic
    rw [applyMessages_eq, LastWrite.overwrite, hlast] at hvalue
    refine last_upserts_eq_none.mp ?_
    cases hu : LastWrite.last (upserts messages) topic with
    | none => rfl
    | some v =>
      unfold upserts at hu
      simp [runTasks, hu] at hvalue
  · intro h
    funext topic
    cases hlast : LastWrite.last (writes messages) topic with
    | none =>
      have hno := last_writes_eq_none.mp hlast
      exact runTasks_of_not_stored fun row hrow htopic => absurd htopic (hno row hrow)
    | some o => cases o with
      | none => exact runTasks_of_not_stored (h topic hlast)
      | some v =>
        rw [runTasks_of_stored hlast, applyMessages_eq, LastWrite.overwrite, hlast]
        rfl

/-! ### Many batches -/

lemma applyMessages_append (db : Database) (xs ys : List Row) :
    applyMessages db (xs ++ ys) = applyMessages (applyMessages db xs) ys := List.foldl_append

lemma applyMessages_congr {db db' : Database} (h : db topic = db' topic) (messages : List Row) :
    applyMessages db messages topic = applyMessages db' messages topic := by
  rw [applyMessages_eq, applyMessages_eq, LastWrite.overwrite, LastWrite.overwrite, h]

lemma runBatches_of_not_stored {batches : List (List Row)}
    (h : ∀ row ∈ batches.flatten, join row.topic = topic → row.data = none) :
    runBatches db batches topic = applyMessages db batches.flatten topic := by
  induction batches generalizing db with
  | nil => rfl
  | cons batch batches ih =>
    rw [List.flatten_cons] at h ⊢
    have hbatch : runTasks db batch topic = applyMessages db batch topic :=
      runTasks_of_not_stored fun row hrow => h row (List.mem_append_left _ hrow)
    calc runBatches db (batch :: batches) topic
        = applyMessages (runTasks db batch) batches.flatten topic :=
          ih fun row hrow => h row (List.mem_append_right _ hrow)
      _ = applyMessages (applyMessages db batch) batches.flatten topic :=
          applyMessages_congr hbatch _
      _ = applyMessages db (batch ++ batches.flatten) topic := by rw [applyMessages_append]

/-- What the last message for a topic stores is there in the end, whatever the batches. -/
lemma runBatches_of_stored {batches : List (List Row)} {v : Bytes × ℕ}
    (h : LastWrite.last (writes batches.flatten) topic = some (some v)) :
    runBatches db batches topic = some v := by
  induction batches generalizing db with
  | nil => cases h
  | cons batch batches ih =>
    have hw : writes (batch :: batches).flatten = writes batch ++ writes batches.flatten := by
      rw [List.flatten_cons]
      exact List.map_append
    rw [hw, LastWrite.last_append] at h
    cases hlast : LastWrite.last (writes batches.flatten) topic with
    | some o =>
      rw [hlast, Option.some_or] at h
      exact ih (hlast.trans h)
    | none =>
      rw [hlast, Option.none_or] at h
      have hno := last_writes_eq_none.mp hlast
      calc runBatches db (batch :: batches) topic
          = applyMessages (runTasks db batch) batches.flatten topic :=
            runBatches_of_not_stored fun row hrow htopic => absurd htopic (hno row hrow)
        _ = runTasks db batch topic := by
            rw [applyMessages_eq, LastWrite.overwrite, hlast]
            rfl
        _ = some v := runTasks_of_stored h

/-- Without a topic that is stored and deleted last, all batches do what the messages do one at a
time. -/
theorem runBatches_eq {batches : List (List Row)} (h : DeletedOnly batches.flatten) :
    runBatches db batches = applyMessages db batches.flatten := by
  funext topic
  cases hlast : LastWrite.last (writes batches.flatten) topic with
  | none =>
    have hno := last_writes_eq_none.mp hlast
    exact runBatches_of_not_stored fun row hrow htopic => absurd htopic (hno row hrow)
  | some o => cases o with
    | none => exact runBatches_of_not_stored (h topic hlast)
    | some v =>
      rw [runBatches_of_stored hlast, applyMessages_eq, LastWrite.overwrite, hlast]
      rfl

/-- **Batching does not change the outcome** exactly where no topic is stored and then, by the last
of its messages, deleted. -/
theorem batchedAlike_iff (db : Database) (messages : List Row) :
    BatchedAlike db messages ↔ DeletedOnly messages := by
  refine ⟨fun h => runTasks_eq_iff.mp h.batch, fun h => ⟨runTasks_eq_iff.mpr h, ?_⟩⟩
  rintro batches batches' rfl heq
  rw [runBatches_eq h, runBatches_eq (heq ▸ h), heq]

/-- A light that is switched on and forgotten, in one batch. -/
def forgottenLight : List Row := [⟨["light".toList], some [49], 0⟩, ⟨["light".toList], none, 0⟩]

theorem forgottenLight_not_batchedAlike : ¬BatchedAlike (fun _ => none) forgottenLight := by
  intro h
  have hdata := (batchedAlike_iff _ _).mp h "light".toList rfl _ List.mem_cons_self rfl
  cases hdata

end MoteBroker.Batches
