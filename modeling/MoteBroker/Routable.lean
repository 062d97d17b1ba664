import MoteBroker.AllOrNothing
import MoteBroker.Applicable
import MoteBroker.Broker

/-!
Plain topics: which publishes to a topic without wildcards reach the broadcast queue and the
retained tree.
-/

namespace MoteBroker.Routable

open NestedDict MoteBroker.Topics MoteBroker.RecursiveDefaultDict MoteBroker.TreeItems
open MoteBroker.Rows MoteBroker.Messages MoteBroker.Retain MoteBroker.Broker
open MoteBroker.AllOrNothing MoteBroker.Applicable

/-! ### The property -/

/-- The message is published without an exception and broadcast as one row for its topic. It is
written to the topic's leaf if it is to be retained, and no other leaf changes. -/
def Routed (s : State) (topic_str : Str) (data : Payload) (qos : ℕ) (retain : Bool) : Prop :=
  ∃ message s', IncomingMessage.fromRawData topic_str data qos retain = .ok message ∧
    s.publish message = (s', none) ∧
    s'.broadcastQueue = s.broadcastQueue ++ [[⟨split topic_str, data, qos⟩]] ∧
    if retain then
      valueAt s'.treeManager.tree =
        Function.update (valueAt s.treeManager.tree) (split topic_str) (some data)
    else s'.treeManager.tree = s.treeManager.tree

/-! ### The message -/

/-- Without the flag of a graft the whole text is the topic. -/
lemma fromRawData_plain {topic_str : Str} (hne : topic_str ≠ []) {retain : Bool}
    (hgraft : retain = true → topic_str.getLast? ≠ some topicSep) (data : Payload) (qos : ℕ) :
    IncomingMessage.fromRawData topic_str data qos retain =
      .ok ⟨Topic.fromStr topic_str, qos, retain, false, data⟩ := by
  unfold IncomingMessage.fromRawData
  cases retain with
  | false => rfl
  | true =>
    have hlast := hgraft rfl
    rw [List.getLast?_eq_some_getLast hne] at hlast ⊢
    have hsep : topic_str.getLast hne ≠ topicSep := fun h => hlast (by rw [h])
    simp [hsep]

lemma static_split {topic_str : Str} (hmany : '+' ∉ topic_str) (hevery : '#' ∉ topic_str) :
    Static (split topic_str) := by
  intro n hn
  refine isNodeStatic_of_ne ?_ ?_
  · rintro rfl
    exact hevery (mem_of_mem_split hn (by decide))
  · rintro rfl
    exact hmany (mem_of_mem_split hn (by decide))

/-! ### Publishing -/

/-- A message for a topic that is not a table's is its own row. -/
lemma publishRows_plain {s : State} (hs : Shape s.treeManager.tree) {topic_str : Str}
    (hstatic : Static (split topic_str)) (data : Payload) (qos : ℕ) (retain : Bool) :
    ∃ tm, s.publishRows ⟨Topic.fromStr topic_str, qos, retain, false, data⟩ =
        ({ s with treeManager := tm }, .ok [⟨split topic_str, data, qos⟩]) ∧
      if retain then
        valueAt tm.tree =
          Function.update (valueAt s.treeManager.tree) (split topic_str) (some data)
      else tm.tree = s.treeManager.tree := by
  have hpath := path_split topic_str
  cases retain with
  | false =>
    refine ⟨s.treeManager, ?_, rfl⟩
    have hall : (split topic_str).all isNodeStatic = true := List.all_eq_true.mpr hstatic
    simp [State.publishRows, IncomingMessage.asSingleRow, Topic.fromStr, hall, Except.map]
  | true =>
    obtain ⟨t', hset, -, -, -, hvalue⟩ := setLeaf_spec data hs hpath
    have hrows : messageRows ⟨Topic.fromStr topic_str, qos, true, false, data⟩
        s.treeManager.tree = .ok [⟨split topic_str, data, qos⟩] :=
      getApplicableRows_static hpath hstatic hs []
    refine ⟨⟨t', s.treeManager.tasks ++ [⟨split topic_str, data, qos⟩]⟩, ?_, hvalue⟩
    simp only [State.publishRows, if_true, TreeManager.processMessage, hrows,
      TreeManager.retainRows, TreeManager.addTasks, setLeaves, hset]

/-- **Which plain topics are routable**: of all topics without wildcards that are neither a table's
nor a graft's, those that do not begin with the separator. -/
theorem routed_iff {s : State} (hs : Shape s.treeManager.tree) {topic_str : Str}
    (hne : topic_str ≠ []) (hmany : '+' ∉ topic_str) (hevery : '#' ∉ topic_str)
    (htable : topic_str.head? ≠ some tableFlag) {retain : Bool}
    (hgraft : retain = true → topic_str.getLast? ≠ some topicSep) (data : Payload) (qos : ℕ) :
    Routed s topic_str data qos retain ↔ topic_str.head? ≠ some topicSep := by
  have hraw := fromRawData_plain hne hgraft data qos
  obtain ⟨c, rest, rfl⟩ := List.exists_cons_of_ne_nil hne
  simp only [List.head?_cons, ne_eq, Option.some.injEq] at htable ⊢
  refine ⟨?_, ?_⟩
  · rintro ⟨message, s', hmessage, hpublish, -⟩ rfl
    obtain rfl := Except.ok.inj (hraw.symm.trans hmessage)
    simp only [State.publish, IncomingMessage.table, forTable_sep] at hpublish
    cases (Prod.mk.inj hpublish).2
  · intro hc
    obtain ⟨tm, hrows, htree⟩ :=
      publishRows_plain hs (static_split hmany hevery) data qos retain
    refine ⟨_, ({ s with treeManager := tm } : State).broadcast _, hraw, ?_, rfl, htree⟩
    simp only [State.publish, IncomingMessage.table, forTable_cons hc, htable, decide_false, hrows]

theorem routed_door : Routed initial "hall/door".toList (some [49]) 1 true :=
  (routed_iff shape_nil (by decide) (by decide) (by decide) (by decide) (by decide) _ _).mpr
    (by decide)

/-- A topic that begins with the separator has no first character in its first node. -/
theorem leading_sep_not_routed : ¬Routed initial "/door".toList (some [49]) 0 false := by
  rintro ⟨message, s', hmessage, hpublish, -⟩
  obtain rfl := Except.ok.inj hmessage
  cases hpublish

end MoteBroker.Routable
