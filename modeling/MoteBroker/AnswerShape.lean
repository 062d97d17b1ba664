import MoteBroker.Messages
import MoteBroker.Snapshot

/-!
The shape of an answer: when `filter_tree_with_topic` returns a dictionary, and when a leaf value.
-/

namespace MoteBroker.AnswerShape

open NestedDict MoteBroker.Topics MoteBroker.RecursiveDefaultDict MoteBroker.TreeItems
open MoteBroker.FilterTree MoteBroker.Messages MoteBroker.Snapshot

/-! ### The property -/

/-- An object for a filter with a wildcard, bytes, `""` or `None` for one without. -/
def ShapedByFilter (F : List Str) (x : TreeItem) : Prop :=
  if F.all isNodeStatic then x = .emptyStr ∨ ∃ a, x = .item (.leaf a)
  else ∃ d, x = .item (.node d)

/-- What is sent for a filter with a wildcard is a JSON object. -/
def SentAsObject (F : List Str) (x : TreeItem) : Prop :=
  ¬F.all isNodeStatic → ∀ topic qos message,
    OutgoingMessage.fromTreeItem topic qos x = .ok message →
      ∃ b json, message.data = .payload (some b) ∧ readJson b = some (.node json)

/-- The nodes before the first wildcard. -/
def staticPrefix (F : List Str) : List Str := F.takeWhile isNodeStatic

/-! ### The empty answer -/

lemma staticPrefix_cons {node : Str} (h : isNodeStatic node = true) (next : List Str) :
    staticPrefix (node :: next) = node :: staticPrefix next :=
  List.takeWhile_cons_of_pos h

lemma missingBranch_eq_emptyStr {next : List Str} (hnil : next ≠ []) :
    missingBranch next = .emptyStr ↔ next.getLast?.any isNodeStatic := by
  rw [missingBranch, List.getLast?_eq_some_getLast hnil]
  cases hlast : isNodeStatic (next.getLast hnil) <;> simp [hlast]

/-- A filter with a wildcard is answered with `""` when the nodes before the wildcard leave the tree
and the last node is static. -/
lemma filterTreeWithTopic_eq_emptyStr {F : List Str} (hF : Path F) (hwild : ¬F.all isNodeStatic)
    {t : Rdd Payload} (hs : Shape t) :
    filterTreeWithTopic F (.node t) = .ok .emptyStr ↔
      branch t (staticPrefix F) = none ∧ F.getLast?.any isNodeStatic := by
  have hmap : ∀ x : Except Exc (Rdd Payload), (x.map fun r => .item (.node r)) ≠
      (.ok .emptyStr : Except Exc TreeItem) := fun x h => by
    cases x <;> cases h
  induction F generalizing t with
  | nil => exact absurd rfl hF.1
  | cons node next ih =>
    unfold filterTreeWithTopic
    by_cases hnode : isNodeStatic node = true
    · have hE : node ≠ everythingCard := by
        rintro rfl
        exact absurd hnode (by decide)
      have hM : node ≠ manyCard := by
        rintro rfl
        exact absurd hnode (by decide)
      have hwild' : ¬next.all isNodeStatic := by simpa [hnode] using hwild
      have hnil : next ≠ [] := by
        rintro rfl
        exact hwild' rfl
      obtain ⟨y, ys, hnext⟩ := List.exists_cons_of_ne_nil hnil
      have hlast : (node :: next).getLast? = next.getLast? := by
        rw [hnext, List.getLast?_cons_cons]
      simp only [if_neg hE, if_neg hM, staticPrefix_cons hnode, hlast]
      cases hv : t.get node with
      | none => simp [missingBranch_eq_emptyStr hnil, branch, hv]
      | some v =>
        obtain ⟨b, rfl, hb⟩ := hs.get_node hF.head_ne hv
        rw [branch_of_get hv]
        simp only [if_neg hnil]
        exact ih (hF.tail_of_ne hnil) hwild' hb
    · have hbranch : branch t (staticPrefix (node :: next)) ≠ none := by
        rw [staticPrefix, List.takeWhile_cons_of_neg hnode]
        exact Option.some_ne_none t
      simp only [hbranch, false_and, iff_false]
      by_cases hE : node = everythingCard
      · rw [if_pos hE]
        split_ifs <;> exact fun h => by cases h
      · have hM : node = manyCard := by
          by_contra hM
          exact hnode (isNodeStatic_of_ne hE hM)
        simp only [if_neg hE, if_pos hM]
        split_ifs
        · exact hmap _
        · exact hmap _

/-! ### The shape -/

/-- A dictionary that can be written is written as a JSON object. -/
lemma sentAsObject_node {F : List Str} {d : Rdd Payload} (hd : d.Distinct) :
    SentAsObject F (.item (.node d)) := by
  intro _ topic qos message h
  simp only [OutgoingMessage.fromTreeItem] at h
  cases hstring : stringify d with
  | error e =>
    rw [hstring] at h
    cases h
  | ok b =>
    rw [hstring] at h
    cases h
    obtain ⟨b', hb', hread⟩ := readJson_stringify hd ((stringify_ok_iff hd).mp ⟨b, hstring⟩)
    obtain rfl := Except.ok.inj (hstring.symm.trans hb')
    exact ⟨b, _, rfl, hread⟩

/-- **When the shape of an answer depends on the filter alone**: of all filters with `#` at most at
their end, for those without wildcards and those that end in one whatever the tree; for the others
if the tree has the nodes before the first wildcard. -/
theorem shapedByFilter_iff {F : List Str} (hF : Path F) (hE : everythingCard ∉ F.dropLast)
    {t : Rdd Payload} (hs : Shape t) (hd : t.Distinct) :
    (∃ x, filterTreeWithTopic F (.node t) = .ok x ∧ ShapedByFilter F x ∧ SentAsObject F x) ↔
      (¬F.all isNodeStatic → F.getLast?.any isNodeStatic →
        branch t (staticPrefix F) ≠ none) := by
  obtain ⟨x, hx, hyields⟩ := filterTreeWithTopic_yields hF hE hs hd
  have hexists : ∀ P : TreeItem → Prop,
      (∃ y, filterTreeWithTopic F (.node t) = .ok y ∧ P y) ↔ P x := fun P => by
    simp [hx]
  rw [hexists]
  by_cases hwild : F.all isNodeStatic
  · refine ⟨fun _ hno => absurd hwild hno, fun _ => ⟨?_, fun hno => absurd hwild hno⟩⟩
    have hmany : manyCard ∉ F := fun h => absurd (List.all_eq_true.mp hwild _ h) (by decide)
    have hevery : everythingCard ∉ F := fun h =>
      absurd (List.all_eq_true.mp hwild _ h) (by decide)
    obtain ⟨y, hy, hanswer⟩ := filterTreeWithTopic_spec hF hevery hs hd
    obtain rfl := Except.ok.inj (hx.symm.trans hy)
    rw [ShapedByFilter, if_pos hwild]
    simpa [hmany] using hanswer.shape
  · have hempty := filterTreeWithTopic_eq_emptyStr hF hwild hs
    rw [hx, Except.ok.injEq] at hempty
    have hiff : (¬F.all isNodeStatic → F.getLast?.any isNodeStatic →
        branch t (staticPrefix F) ≠ none) ↔ x ≠ .emptyStr := by
      have hne : x ≠ .emptyStr ↔ _ := not_congr hempty
      rw [hne, not_and']
      exact imp_iff_right hwild
    rw [hiff]
    match x, hyields with
    | .emptyStr, _ => simp [ShapedByFilter, hwild]
    | .item (.leaf a), hyields => exact absurd rfl (hyields.noLeaf (by simpa using hwild) a)
    | .item (.node d), hyields =>
      refine ⟨fun _ => by simp, fun _ => ⟨?_, sentAsObject_node (hyields.distinct _ rfl)⟩⟩
      rw [ShapedByFilter, if_neg hwild]
      exact ⟨d, rfl⟩

theorem shapedByFilter_lights :
    ∃ x, filterTreeWithTopic (split "hall/+".toList) (.node lights) = .ok x ∧
      ShapedByFilter (split "hall/+".toList) x ∧ SentAsObject (split "hall/+".toList) x :=
  (shapedByFilter_iff (path_split _) (by decide) (by decide) (by decide)).mpr fun _ h =>
    absurd h (by decide)

/-- The cellar is not in the tree, and the answer is the empty string. -/
theorem cellar_not_shapedByFilter :
    ¬∃ x, filterTreeWithTopic (split "cellar/+/is_on".toList) (.node lights) = .ok x ∧
      ShapedByFilter (split "cellar/+/is_on".toList) x ∧
      SentAsObject (split "cellar/+/is_on".toList) x := by
  rintro ⟨x, hx, hshaped, -⟩
  have hempty : filterTreeWithTopic (split "cellar/+/is_on".toList) (.node lights) =
      .ok .emptyStr := rfl
  obtain rfl := Except.ok.inj (hempty.symm.trans hx)
  rw [ShapedByFilter, if_neg (by decide)] at hshaped
  obtain ⟨d, hd⟩ := hshaped
  cases hd

end MoteBroker.AnswerShape
