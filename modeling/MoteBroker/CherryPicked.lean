import MoteBroker.AllOrNothing
import MoteBroker.Rejection

/-!
Publishes with wildcards and the retained topics: when `get_applicable_rows` names no topic that
has no leaf.
-/

namespace MoteBroker.CherryPicked

open NestedDict Wildcard MoteBroker.Topics MoteBroker.RecursiveDefaultDict
open MoteBroker.TreeItems MoteBroker.Rows MoteBroker.Messages MoteBroker.Retain
open MoteBroker.AllOrNothing MoteBroker.Snapshot MoteBroker.Applicable MoteBroker.Rejection

/-! ### The property -/

/-- The rows of the message name topics with a leaf, and no other has one after they are
retained. -/
structure TouchesRetained (tm : TreeManager) (message : IncomingMessage) : Prop where
  rows : ∀ rows, message.getApplicableRows tm.tree = .ok rows →
    ∀ row ∈ rows, valueAt tm.tree row.topic ≠ none
  retained : ∀ topic, valueAt (tm.processMessage message).1.tree topic ≠ none →
    valueAt tm.tree topic ≠ none

/-- The nodes that are looked up in the tree: a static node at the end of the topic is not. -/
def lookedUp (T topic : List Str) : List Str :=
  if T.getLast?.any isNodeStatic then topic.dropLast else topic

/-- The topic matches, and its nodes are in the tree as far as they are looked up. -/
structure Found (T : List Str) (tree : Rdd Payload) (topic : List Str) : Prop where
  isMatch : Matches manyCard T topic
  hasBranch : branch tree (lookedUp T topic) ≠ none

/-- Wherever the nodes of a matching topic are found, the topic has a leaf. -/
def LeavesThroughout (T : List Str) (tree : Rdd Payload) : Prop :=
  everythingCard ∉ T → ∀ topic, Found T tree topic → valueAt tree topic ≠ none

/-! ### The topics of the rows -/

section
variable {data : Payload} {qos : ℕ}

lemma lookedUp_cons {node : Str} {next : List Str} (hnil : next ≠ []) (n : Str) {q : List Str}
    (hq : Matches manyCard next q) : lookedUp (node :: next) (n :: q) = n :: lookedUp next q := by
  obtain ⟨x, xs, rfl⟩ := List.exists_cons_of_ne_nil hnil
  cases q with
  | nil => exact hq.elim
  | cons y ys =>
    rw [lookedUp, lookedUp, List.getLast?_cons_cons]
    split_ifs <;> rfl

lemma found_cons {node : Str} {next : List Str} (hnil : next ≠ []) {t : Rdd Payload}
    {topic : List Str} : Found (node :: next) t topic ↔
      ∃ k b q, topic = k :: q ∧ (node = manyCard ∨ node = k) ∧ t.get k = some (.node b) ∧
        Found next b q := by
  refine ⟨?_, ?_⟩
  · rintro ⟨hmatch, hbranch⟩
    cases topic with
    | nil => exact hmatch.elim
    | cons k q =>
      rw [lookedUp_cons hnil k hmatch.2] at hbranch
      obtain ⟨b, hget, hbranch⟩ := branch_cons_ne_none.mp hbranch
      exact ⟨k, b, q, rfl, hmatch.1, hget, hmatch.2, hbranch⟩
  · rintro ⟨k, b, q, rfl, hk, hget, hmatch, hbranch⟩
    refine ⟨⟨hk, hmatch⟩, ?_⟩
    rw [lookedUp_cons hnil k hmatch]
    exact branch_cons_ne_none.mpr ⟨b, hget, hbranch⟩

/-- Below a node that is no wildcard only one branch is looked up. -/
lemma found_cons_static {node : Str} {next : List Str} (hM : node ≠ manyCard) (hnil : next ≠ [])
    {t : Rdd Payload} {topic : List Str} : Found (node :: next) t topic ↔
      ∃ b q, topic = node :: q ∧ t.get node = some (.node b) ∧ Found next b q := by
  rw [found_cons hnil]
  refine ⟨?_, ?_⟩
  · rintro ⟨k, b, q, rfl, hk, hget, hq⟩
    obtain rfl := hk.resolve_left hM
    exact ⟨b, q, rfl, hget, hq⟩
  · rintro ⟨b, q, rfl, hget, hq⟩
    exact ⟨node, b, q, rfl, .inr rfl, hget, hq⟩

lemma matches_singleton {node : Str} {topic : List Str} :
    Matches manyCard [node] topic ↔ ∃ k, topic = [k] ∧ (node = manyCard ∨ node = k) := by
  refine ⟨fun h => ?_, ?_⟩
  · cases topic with
    | nil => exact h.elim
    | cons k q =>
      cases q with
      | nil => exact ⟨k, rfl, h.1⟩
      | cons _ _ => exact h.2.elim
  · rintro ⟨k, rfl, hk⟩
    exact ⟨hk, trivial⟩

/-- A node under a final `+` is looked up. -/
lemma found_many {t : Rdd Payload} {topic : List Str} :
    Found [manyCard] t topic ↔ ∃ k b, topic = [k] ∧ t.get k = some (.node b) := by
  refine ⟨?_, ?_⟩
  · rintro ⟨hmatch, hbranch⟩
    obtain ⟨k, rfl, -⟩ := matches_singleton.mp hmatch
    obtain ⟨b, hget, -⟩ := branch_cons_ne_none.mp hbranch
    exact ⟨k, b, rfl, hget⟩
  · rintro ⟨k, b, rfl, hget⟩
    exact ⟨matches_singleton.mpr ⟨k, rfl, .inl rfl⟩,
      branch_cons_ne_none.mpr ⟨b, hget, Option.some_ne_none b⟩⟩

/-- A static node at the end is not. -/
lemma found_static {node : Str} (hnode : isNodeStatic node) {t : Rdd Payload}
    {topic : List Str} : Found [node] t topic ↔ topic = [node] := by
  have hM : node ≠ manyCard := by
    rintro rfl
    exact absurd hnode (by decide)
  refine ⟨?_, ?_⟩
  · rintro ⟨hmatch, -⟩
    obtain ⟨k, rfl, hk⟩ := matches_singleton.mp hmatch
    rw [hk.resolve_left hM]
  · rintro rfl
    refine ⟨matches_singleton.mpr ⟨node, rfl, .inr rfl⟩, ?_⟩
    simp [lookedUp, hnode, branch]

/-- Below a final `#` are the topics with a leaf. -/
lemma rows_of_everything {T : List Str} (hT : Path T) (hE : everythingCard ∈ T) {t : Rdd Payload}
    (hs : Shape t) (hd : t.Distinct) {base : List Str} {found_wildcard : Bool} {rows : List Row}
    (h : getApplicableRows data qos T base (.node t) found_wildcard = .ok rows) :
    ∀ row ∈ rows, ∃ p, row.topic = base ++ p ∧ valueAt t p ≠ none := by
  induction T generalizing t base found_wildcard rows with
  | nil => cases hE
  | cons node next ih =>
    unfold getApplicableRows at h
    by_cases hnE : node = everythingCard
    · rw [if_pos hnE] at h
      by_cases hnil : next = []
      · rw [if_neg (not_not.mpr hnil)] at h
        simp only [getEverythingAsRows_eq hs, if_true] at h
        cases h
        intro row hrow
        obtain ⟨p, hp, rfl⟩ := List.mem_map.mp hrow
        exact ⟨p, rfl, (mem_paths hs hd).mp (List.mem_filter.mp hp).1⟩
      · rw [if_pos hnil] at h
        cases h
    rw [if_neg hnE] at h
    have hE : everythingCard ∈ next := List.mem_of_ne_of_mem (Ne.symm hnE) hE
    have hnil : next ≠ [] := List.ne_nil_of_mem hE
    have hnext := hT.tail_of_ne hnil
    by_cases hM : node = manyCard
    · simp only [if_pos hM, if_neg hnil] at h
      refine forBranches_ok h fun k v rs hm hk hrs row hrow => ?_
      have hget := (Dict.mem_items_iff hd.keys_nodup k v).mp hm
      obtain ⟨b, rfl, hb⟩ := hs.get_node hk hget
      obtain ⟨p, hp, hvalue⟩ := ih hnext hE hb (hd.get hget) hrs row hrow
      exact ⟨k :: p, by simp [hp], by rwa [valueAt_of_get hget]⟩
    · simp only [if_neg hM, if_neg hnil] at h
      cases hv : t.get node with
      | none =>
        have hall : ¬next.all isNodeStatic = true := fun hall =>
          absurd (List.all_eq_true.mp hall _ hE) (by decide)
        simp only [hv, hall] at h
        cases h
        exact fun row hrow => by simp at hrow
      | some v =>
        obtain ⟨b, rfl, hb⟩ := hs.get_node hT.head_ne hv
        simp only [hv] at h
        intro row hrow
        obtain ⟨p, hp, hvalue⟩ := ih hnext hE hb (hd.get hv) h row hrow
        exact ⟨node :: p, by simp [hp], by rwa [valueAt_of_get hv]⟩

/-- The rows of a loop over the branches, by the branch they come from. -/
lemma exists_row_iff {t : Rdd Payload} (hs : Shape t) (hd : t.Distinct)
    {f : Str → Item Str Payload → Except Exc (List Row)} {rows : List Row}
    (h : forBranches f t.items = .ok rows) {Q : Row → Prop} :
    (∃ row ∈ rows, Q row) ↔
      ∃ k b rs, t.get k = some (.node b) ∧ f k (.node b) = .ok rs ∧ ∃ row ∈ rs, Q row := by
  simp only [mem_forBranches h, Dict.mem_items_iff hd.keys_nodup]
  refine ⟨?_, ?_⟩
  · rintro ⟨row, ⟨k, v, rs, hget, hk, hrs, hrow⟩, hQ⟩
    obtain ⟨b, rfl, -⟩ := hs.get_node hk hget
    exact ⟨k, b, rs, hget, hrs, row, hrow, hQ⟩
  · rintro ⟨k, b, rs, hget, hrs, row, hrow, hQ⟩
    exact ⟨row, ⟨k, .node b, rs, hget, (Dict.All.get hs hget).1, hrs, hrow⟩, hQ⟩

/-- Without `#` they are the topics that are found. -/
lemma mem_rows_iff {T : List Str} (hT : Path T) (hE : everythingCard ∉ T) {t : Rdd Payload}
    (hs : Shape t) (hd : t.Distinct) {base : List Str} {found_wildcard : Bool}
    (hwild : found_wildcard = true ∨ ¬T.all isNodeStatic) {rows : List Row}
    (h : getApplicableRows data qos T base (.node t) found_wildcard = .ok rows)
    (topic : List Str) :
    (∃ row ∈ rows, row.topic = topic) ↔ ∃ p, topic = base ++ p ∧ Found T t p := by
  induction T generalizing t base found_wildcard rows with
  | nil => exact absurd rfl hT.1
  | cons node next ih =>
    obtain ⟨hnE, hnextE⟩ : everythingCard ≠ node ∧ everythingCard ∉ next := by simpa using hE
    unfold getApplicableRows at h
    rw [if_neg hnE.symm] at h
    by_cases hM : node = manyCard
    · subst hM
      simp only [if_true] at h
      by_cases hnil : next = []
      · subst hnil
        simp only [if_true] at h
        simp only [found_many, exists_row_iff hs hd h]
        refine ⟨?_, ?_⟩
        · rintro ⟨k, b, _, hget, hrs, row, hrow, htopic⟩
          cases hrs
          cases List.mem_singleton.mp hrow
          exact ⟨[k], htopic.symm, k, b, rfl, hget⟩
        · rintro ⟨p, htopic, k, b, rfl, hget⟩
          exact ⟨k, b, _, hget, rfl, _, List.mem_singleton_self _, htopic.symm⟩
      · rw [if_neg hnil] at h
        simp only [found_cons hnil, exists_row_iff hs hd h]
        have hnext := hT.tail_of_ne hnil
        refine ⟨?_, ?_⟩
        · rintro ⟨k, b, rs, hget, hrs, hrow⟩
          obtain ⟨p, rfl, hp⟩ := (ih hnext hnextE (Dict.All.get hs hget).2 (hd.get hget) (.inl rfl)
            hrs).mp hrow
          exact ⟨k :: p, by simp, k, b, p, rfl, .inl trivial, hget, hp⟩
        · rintro ⟨p, rfl, k, b, q, rfl, -, hget, hq⟩
          obtain ⟨rs, hrs⟩ := exists_of_forBranches h
            ((Dict.mem_items_iff hd.keys_nodup _ _).mpr hget) (Dict.All.get hs hget).1
          exact ⟨k, b, rs, hget, hrs, (ih hnext hnextE (Dict.All.get hs hget).2 (hd.get hget)
            (.inl rfl) hrs).mpr ⟨q, by simp, hq⟩⟩
    · have hnode : isNodeStatic node := isNodeStatic_of_ne hnE.symm hM
      have hhead : found_wildcard = true ∨ ¬next.all isNodeStatic := by simpa [hnode] using hwild
      simp only [if_neg hM] at h
      by_cases hnil : next = []
      · subst hnil
        rw [if_pos rfl] at h
        cases h
        simp [found_static hnode, eq_comm]
      · rw [if_neg hnil] at h
        simp only [found_cons_static hM hnil]
        cases hv : t.get node with
        | none =>
          rw [hv] at h
          simp only [if_pos hhead] at h
          cases h
          simp
        | some v =>
          obtain ⟨b, rfl, hb⟩ := hs.get_node hT.head_ne hv
          rw [hv] at h
          rw [ih (hT.tail_of_ne hnil) hnextE hb (hd.get hv) hhead h]
          refine ⟨?_, ?_⟩
          · rintro ⟨q, rfl, hq⟩
            exact ⟨node :: q, by simp, b, q, rfl, rfl, hq⟩
          · rintro ⟨p, rfl, b', q, rfl, hget, hq⟩
            cases hget
            exact ⟨q, by simp, hq⟩

end

/-! ### Retaining them -/

/-- The topics of the rows of a publish are paths. -/
lemma paths_of_rows {T : List Str} (hT : Path T) {t : Rdd Payload} (ht : WellFormed t)
    {data : Payload} {qos : ℕ} {rows : List Row}
    (h : getApplicableRows data qos T [] (.node t) false = .ok rows) :
    ∀ row ∈ rows, Path row.topic := by
  have hkeys : KeysOf (· ≠ leafKey) t := Dict.all_of_forall (fun _ _ => id) t
  have hstatic : ∀ n ∈ T, isNodeStatic n → n ≠ leafKey := by
    rintro n hn - rfl
    exact hT.2 hn
  rcases @getApplicableRows_spec _ data qos T [] false hT.1 hstatic (by simp) hT.2 t ht.shape
    ht.distinct hkeys with ⟨rows', hok, hrows⟩ | herror
  · rw [h] at hok
    cases hok
    intro row hrow
    obtain ⟨hnil, hnodes, -⟩ := hrows row hrow
    exact ⟨hnil, fun hmem => hnodes _ hmem rfl⟩
  · rw [h] at herror
    cases herror

/-- **When a publish with a wildcard touches retained topics only**: when wherever the nodes of a
matching topic are found, the topic has a leaf. -/
theorem touchesRetained_iff {tm : TreeManager} (htree : WellFormed tm.tree)
    {message : IncomingMessage} (hgraft : message.graft = false)
    (hT : Path message.topic.nodeList) (hwild : ¬message.topic.nodeList.all isNodeStatic) :
    TouchesRetained tm message ↔ LeavesThroughout message.topic.nodeList tm.tree := by
  have hmem : everythingCard ∉ message.topic.nodeList → ∀ rows,
      message.getApplicableRows tm.tree = .ok rows → ∀ topic,
      (∃ row ∈ rows, row.topic = topic) ↔ Found message.topic.nodeList tm.tree topic := by
    intro hE rows hrows topic
    rw [mem_rows_iff hT hE htree.shape htree.distinct (.inr hwild) hrows]
    simp
  refine ⟨fun h hE topic hfound => ?_, fun h => ?_⟩
  · have hmisplaced : ¬Misplaced message.topic.nodeList := fun hm =>
      hE (List.dropLast_subset _ hm)
    obtain ⟨rows, hrows⟩ := (getApplicableRows_refuses hT htree.shape htree.distinct message.data
      message.qos [] false).returns fun hover => hmisplaced hover.1
    obtain ⟨row, hrow, rfl⟩ := (hmem hE rows hrows topic).mpr hfound
    exact h.rows rows hrows row hrow
  · have htouched : ∀ rows, message.getApplicableRows tm.tree = .ok rows →
        ∀ row ∈ rows, valueAt tm.tree row.topic ≠ none := by
      intro rows hrows row hrow
      by_cases hE : everythingCard ∈ message.topic.nodeList
      · obtain ⟨p, hp, hvalue⟩ := rows_of_everything hT hE htree.shape htree.distinct hrows row hrow
        rwa [hp]
      · exact h hE _ ((hmem hE rows hrows _).mp ⟨row, hrow, rfl⟩)
    refine ⟨htouched, fun topic => ?_⟩
    rcases processMessage_cases tm message with ⟨e, -, heq⟩ | ⟨rows, hrows, heq, -⟩
    · rw [heq]
      exact id
    rw [messageRows, hgraft, if_neg Bool.false_ne_true] at hrows
    rw [heq]
    contrapose!
    intro hnone
    rw [← hnone]
    refine valueAt_setLeaves_of_ne htree.shape (paths_of_rows hT htree hrows) ?_
    rintro row hrow rfl
    exact htouched rows hrows row hrow hnone

/-- A light that is on, and nothing else. -/
def bedroom : Rdd Payload :=
  .node "light".toList (.node "bedroom".toList (.node "is_on".toList
    (.leaf leafKey (some [49]) .nil) .nil) .nil) .nil

/-- A retained publish to `topic`. -/
def publishTo (topic : String) : IncomingMessage :=
  ⟨.fromStr topic.toList, 0, true, false, some [48]⟩

theorem touchesRetained_bedroom : TouchesRetained ⟨bedroom, []⟩ (publishTo "light/+/is_on") := by
  refine (touchesRetained_iff ⟨by decide, by decide⟩ rfl (path_split _) (by decide)).mpr ?_
  have hnodes : (publishTo "light/+/is_on").topic.nodeList =
      ["light".toList, manyCard, "is_on".toList] := by decide
  rw [hnodes]
  rintro - topic hfound
  obtain ⟨light, b, p, rfl, hlight, hget, hp⟩ := (found_cons (by decide)).mp hfound
  obtain rfl := hlight.resolve_left (by decide)
  cases hget
  obtain ⟨room, b, q, rfl, -, hget, hq⟩ := (found_cons (by decide)).mp hp
  obtain rfl := (found_static (by decide)).mp hq
  by_cases hroom : "bedroom".toList = room
  · subst hroom
    decide
  · rw [Dict.get, if_neg hroom] at hget
    cases hget

/-- Where a light is on, its brightness is retained as well. -/
theorem not_touchesRetained :
    ¬TouchesRetained ⟨bedroom, []⟩ (publishTo "light/+/brightness") := by
  intro h
  exact h.rows _ rfl ⟨["light".toList, "bedroom".toList, "brightness".toList], some [48], 0⟩
    (List.mem_singleton_self _) (by decide)

end MoteBroker.CherryPicked
