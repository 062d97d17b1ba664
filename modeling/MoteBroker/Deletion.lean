import MoteBroker.AllOrNothing
import MoteBroker.Applicable

/-!
Deletion: what is left in the tree of a topic that was retained and deleted again, and who reads it.
-/

namespace MoteBroker.Deletion

open NestedDict MoteBroker.Topics MoteBroker.RecursiveDefaultDict MoteBroker.TreeItems
open MoteBroker.FilterTree MoteBroker.Rows MoteBroker.Messages MoteBroker.Retain
open MoteBroker.AllOrNothing MoteBroker.Applicable

/-! ### The property -/

/-- A plain publish with the retain flag. -/
def retain (tm : TreeManager) (topic_str : Str) (data : Payload) (qos : ℕ) : TreeManager :=
  (tm.processMessage ⟨Topic.fromStr topic_str, qos, true, false, data⟩).1

/-- Publishes have the same rows over the two trees, and filters have the same snapshots. -/
structure ReadsAlike (tree tree' : Rdd Payload) : Prop where
  rows : ∀ topic_str data qos,
    getApplicableRows data qos (split topic_str) [] (.node tree') false =
      getApplicableRows data qos (split topic_str) [] (.node tree) false
  snapshot : ∀ topic_str, filterTreeWithTopic (split topic_str) (.node tree') =
    filterTreeWithTopic (split topic_str) (.node tree)

/-! ### Retaining and deleting -/

/-- A publish to a topic without wildcards overwrites the topic, and nothing else. -/
lemma retain_spec {tm : TreeManager} (hw : WellFormed tm.tree) {topic_str : Str}
    (hstatic : Static (split topic_str)) (data : Payload) (qos : ℕ) :
    WellFormed (retain tm topic_str data qos).tree ∧
      valueAt (retain tm topic_str data qos).tree =
        Function.update (valueAt tm.tree) (split topic_str) (some data) := by
  have hpath := path_split topic_str
  obtain ⟨t', hset, hshape, hdistinct, -, hvalue⟩ := setLeaf_spec data hw.shape hpath
  have hrows : messageRows ⟨Topic.fromStr topic_str, qos, true, false, data⟩ tm.tree =
      .ok [⟨split topic_str, data, qos⟩] := getApplicableRows_static hpath hstatic hw.shape []
  have htree : (retain tm topic_str data qos).tree = t' := by
    simp only [retain, TreeManager.processMessage, hrows, TreeManager.retainRows, setLeaves, hset]
  rw [htree]
  exact ⟨⟨hshape, hdistinct hw.distinct⟩, hvalue⟩

/-- A publish to `#` has a row for each topic with a leaf, deleted or not. -/
lemma everything_rows {t : Rdd Payload} (hw : WellFormed t) {rows : List Row} {data : Payload}
    {qos : ℕ} (h : getApplicableRows data qos (split "#".toList) [] (.node t) false = .ok rows)
    {topic : List Str} (hne : topic ≠ []) :
    ⟨topic, data, qos⟩ ∈ rows ↔ valueAt t topic ≠ none := by
  have hok : getApplicableRows data qos (split "#".toList) [] (.node t) false =
      .ok (rowsFor data qos [] ((paths t).filter (· ≠ []))) :=
    getEverythingAsRows_eq hw.shape [] true
  obtain rfl := Except.ok.inj (hok.symm.trans h)
  rw [← mem_paths hw.shape hw.distinct]
  simp [rowsFor, hne]

/-- **Deletion always leaves a trace**: whatever the tree, a topic without wildcards and without a
leaf has one after it was retained and deleted, and a publish to `#` has a row for it. -/
theorem deletion_leaves_trace {tm : TreeManager} (hw : WellFormed tm.tree) {topic_str : Str}
    (hstatic : Static (split topic_str)) (hnone : valueAt tm.tree (split topic_str) = none)
    (data : Bytes) (qos qos' : ℕ) :
    ¬ReadsAlike tm.tree
      (retain (retain tm topic_str (some data) qos) topic_str none qos').tree := by
  intro h
  obtain ⟨hw₁, -⟩ := retain_spec hw hstatic (some data) qos
  obtain ⟨hw₂, hvalue⟩ := retain_spec hw₁ hstatic none qos'
  have hne := split_ne_nil topic_str
  have hok : getApplicableRows none 0 (split "#".toList) [] (.node tm.tree) false =
      .ok (rowsFor none 0 [] ((paths tm.tree).filter (· ≠ []))) :=
    getEverythingAsRows_eq hw.shape [] true
  have hafter := (everything_rows hw₂ ((h.rows _ none 0).trans hok) hne).mpr (by simp [hvalue])
  exact (everything_rows hw hok hne).mp hafter hnone

/-- What is left has no payload. -/
theorem deletion_payloads {tm : TreeManager} (hw : WellFormed tm.tree) {topic_str : Str}
    (hstatic : Static (split topic_str)) (hnone : valueAt tm.tree (split topic_str) = none)
    (data : Bytes) (qos qos' : ℕ) :
    payloadAt (retain (retain tm topic_str (some data) qos) topic_str none qos').tree =
      payloadAt tm.tree := by
  obtain ⟨hw₁, hvalue₁⟩ := retain_spec hw hstatic (some data) qos
  obtain ⟨-, hvalue⟩ := retain_spec hw₁ hstatic none qos'
  funext nodes
  rw [payloadAt, payloadAt, hvalue, hvalue₁, Function.update_idem, Function.update_apply]
  split_ifs with h
  · rw [h, hnone]
    rfl
  · rfl

theorem deletion_leaves_trace_attic :
    ¬ReadsAlike house
      (retain (retain ⟨house, []⟩ "attic/door".toList (some [49]) 1)
        "attic/door".toList none 0).tree :=
  @deletion_leaves_trace ⟨house, []⟩ ⟨by decide, by decide⟩ _
    (show ∀ n ∈ split "attic/door".toList, isNodeStatic n = true by decide) rfl [49] 1 0

/-- A publish to `#` reaches the door that was there before. -/
theorem door_leaves_trace :
    ¬ReadsAlike .nil
      (retain (retain ⟨.nil, []⟩ "door".toList (some [49]) 1) "door".toList none 0).tree := by
  intro h
  have hbefore : getApplicableRows none 0 (split "#".toList) [] (.node .nil) false = .ok [] := rfl
  have hafter : getApplicableRows none 0 (split "#".toList) [] (.node
      (retain (retain ⟨.nil, []⟩ "door".toList (some [49]) 1) "door".toList none 0).tree) false =
        .ok [⟨["door".toList], none, 0⟩] := rfl
  cases (hafter.symm.trans (h.rows _ none 0)).trans hbefore

end MoteBroker.Deletion
