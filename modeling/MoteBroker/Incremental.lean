import MoteBroker.Broker

/-!
An incremental update equals a recomputation: filtering the tree after rows have been retained
gives the view before them, overridden by the message that dispatch makes of the same rows.
-/

namespace MoteBroker.Incremental

open NestedDict Wildcard MoteBroker.Topics MoteBroker.RecursiveDefaultDict
open MoteBroker.TreeItems MoteBroker.FilterTree MoteBroker.CreateMessages MoteBroker.Retain

/-- What the matching rows write for the captured nodes. -/
def written (F : List Str) (rows : List Row) (c : List Str) : Option Payload :=
  LastWrite.last (writes F (matching rows 0 F)) c

lemma written_nil {F : List Str} {rows : List Row} (h : matching rows 0 F = []) (c : List Str) :
    written F rows c = none := by
  rw [written, h]; rfl

lemma written_length {F : List Str} (hE : everythingCard ∉ F) (rows : List Row) {c : List Str}
    (hc : c.length ≠ F.count manyCard) : written F rows c = none := by
  refine LastWrite.last_eq_none.mpr fun w hw he => hc ?_
  obtain ⟨row, hr, rfl⟩ := List.mem_map.mp hw
  rw [← he, length_captured (length_of_mem_matching hr), cards_eq hE]

/-- **The views before and after**: the view of the filter after rows have been retained is the
view before, overridden by what the matching rows write. -/
theorem view_after {F : List Str} (hE : everythingCard ∉ F) {t t' : Rdd Payload} {rows : List Row}
    {x x' : TreeItem} (hx : Answer F t x) (hx' : Answer F t' x')
    (hval : ∀ p, valueAt t' p = LastWrite.overwrite (valueAt t) (leafWrites rows) p)
    (c : List Str) : x'.view c = (written F rows c).elim (x.view c) present := by
  rw [hx'.view, hx.view]
  by_cases hc : c.length = F.count manyCard
  · rw [if_pos hc, if_pos hc, hval, LastWrite.overwrite, last_leafWrites, written,
      last_writes hE rows hc]
    cases LastWrite.last (rows.map fun row => (row.topic, row.data)) (fill manyCard F c) <;> rfl
  · rw [if_neg hc, if_neg hc, written_length hE rows hc]
    rfl

/-- A message that answers the filter overrides a view by what the matching rows write. -/
lemma override_reply {F : List Str} (hE : everythingCard ∉ F) {rows : List Row} {data : Payload}
    (h : Reply F (matching rows 0 F) data) (hdec : ∀ row ∈ rows, Decodes row.data) (v : View)
    (c : List Str) : override F data v c = (written F rows c).elim (v c) present := by
  rw [override, h.named_eq hE hdec, ← written]
  cases written F rows c <;> rfl

/-- **Incremental update equals recomputation.** For every retained tree, every batch of rows
whose topics are paths and whose payloads are text, and every filter without `#` that is
registered: the filter's view of the tree after the rows is its view before them, overridden by
the one message that dispatch makes for the filter of the same rows, or as it was if dispatch
makes none. -/
theorem incremental_eq {tm : TreeManager} (hs : Shape tm.tree) (hd : tm.tree.Distinct)
    {rows : List Row} (hp : ∀ row ∈ rows, Path row.topic) (hdec : ∀ row ∈ rows, Decodes row.data)
    {F : List Str} (hF : Path F) (hE : everythingCard ∉ F) {S : Rdd ClientSet} (hS : Shape S)
    (hSd : S.Distinct) (hreg : valueAt S F ≠ none) :
    ∃ x x' ms, ∃ message : Option Message,
      filterTreeWithTopic F (.node tm.tree) = .ok x ∧ (tm.retainRows rows).2 = none ∧
      filterTreeWithTopic F (.node (tm.retainRows rows).1.tree) = .ok x' ∧
      createMessagesForSubscriptions S rows = .ok ms ∧
      ms.filter (fun m => m.base = F) = message.toList ∧
      x'.view = message.elim x.view fun m => override F m.data x.view := by
  obtain ⟨t', ht', hs', hd', -, hval⟩ := setLeaves_spec hs hp
  obtain ⟨x, hx, hans⟩ := filterTreeWithTopic_spec hF hE hs hd
  obtain ⟨x', hx', hans'⟩ := filterTreeWithTopic_spec hF hE hs' (hd' hd)
  obtain ⟨ms, hms, hall⟩ := createMessages_exact hS (fun row hr => (hp row hr).2) hdec
  obtain ⟨cs, hcs⟩ := Option.ne_none_iff_exists'.mp hreg
  have hretain : tm.retainRows rows = (⟨t', tm.tasks ++ rows⟩, none) := by
    simp [TreeManager.retainRows, TreeManager.addTasks, ht']
  have hview := view_after hE hans hans' hval
  rcases message_for hS hSd hall hcs with ⟨hnil, hno⟩ | ⟨m, hone, hm⟩
  · refine ⟨x, x', ms, none, hx, by rw [hretain], by rw [hretain]; exact hx', hms, hno,
      funext fun c => ?_⟩
    rw [hview, written_nil hnil]
    rfl
  · refine ⟨x, x', ms, some m, hx, by rw [hretain], by rw [hretain]; exact hx', hms, hone,
      funext fun c => ?_⟩
    rw [hview]
    exact (override_reply hE hm.data hdec x.view c).symm

/-- A light that is off, a client that watches every light, and the light turned on. -/
def lightTree : TreeManager :=
  ⟨.node "light".toList (.node "bedroom".toList (.leaf leafKey (some [48]) .nil) .nil) .nil, []⟩

def lightFilter : List Str := ["light".toList, manyCard]

def lightStore : Rdd ClientSet :=
  .node "light".toList
    (.node manyCard (.leaf leafKey ((∅ : ClientSet).insert "app".toList 1) .nil) .nil) .nil

def lightOn : List Row := [⟨["light".toList, "bedroom".toList], some [49], 0⟩]

theorem incremental_eq_light :
    ∃ x x' ms, ∃ message : Option Message,
      filterTreeWithTopic lightFilter (.node lightTree.tree) = .ok x ∧
      (lightTree.retainRows lightOn).2 = none ∧
      filterTreeWithTopic lightFilter (.node (lightTree.retainRows lightOn).1.tree) = .ok x' ∧
      createMessagesForSubscriptions lightStore lightOn = .ok ms ∧
      ms.filter (fun m => m.base = lightFilter) = message.toList ∧
      x'.view = message.elim x.view fun m => override lightFilter m.data x.view := by
  have hrow : ∀ row ∈ lightOn, Path row.topic ∧ Decodes row.data := by
    intro row hr
    cases List.mem_singleton.mp hr
    exact ⟨by decide, fun b hb => by cases hb; decide⟩
  exact @incremental_eq lightTree (by decide) (by decide) lightOn (fun row hr => (hrow row hr).1)
    (fun row hr => (hrow row hr).2) lightFilter (by decide) (by decide) lightStore (by decide)
    (by decide) (by decide)

end MoteBroker.Incremental
