import MoteBroker.Snapshot
import MoteBroker.Spread

/-!
Blocks of messages: a payload tree that is spread over the topics of a pattern and retained is what
the same pattern collects afterwards.
-/

namespace MoteBroker.Blocks

open NestedDict Wildcard JsonText MoteBroker.Topics MoteBroker.RecursiveDefaultDict
open MoteBroker.TreeItems MoteBroker.FilterTree MoteBroker.Rows MoteBroker.Retain
open MoteBroker.AllOrNothing MoteBroker.Snapshot MoteBroker.Spread

/-! ### The property -/

/-- A payload tree of nonempty texts at the depth of the pattern, without empty objects and without
the key `/`. -/
structure Block (T : List Str) (data : Value) : Prop where
  distinct : data.Distinct
  uniform : data.Uniform (T.count manyCard)
  keys : DataKeys (· ≠ leafKey) data
  nonempty : data ≠ .node .nil
  pruned : data.Pruned
  texts : ∀ leaf ∈ data.leaves, ∃ s, s ≠ [] ∧ leaf.2 = .str s

/-- Reading the pattern gives the values of the block at its paths, and at every other path what it
gave before; where there was nothing before, the block itself. -/
structure ReadsBack (T : List Str) (data : Value) (tree tree' : Rdd Payload) : Prop where
  values : ∃ x x', filterTreeWithTopic T (.node tree) = .ok x ∧
    filterTreeWithTopic T (.node tree') = .ok x' ∧
    ∀ c, valueFor T x' c = ((data.leafAt c).map scalarPayload).or (valueFor T x c)
  whole : tree = .nil → ∃ v, filterTreeWithTopic T (.node tree') = .ok (.item v) ∧
    v.Equal (data.map scalarPayload)

/-! ### The nodes that retaining creates -/

section
variable {t : Rdd Payload}

/-- The walk to a leaf goes through the branch of its first node, which may be new. -/
lemma setLeaf_cons (data : Payload) (ht : Shape t) {node : Str} (hn : node ≠ leafKey)
    (next : List Str) : ∃ b, Shape b ∧ (t.get node = some (.node b) ∨
        t.get node = none ∧ b = .nil) ∧
      (setLeaf data t (node :: next)).1 = t.set node (.node
        (if next = [] then b.set leafKey (.leaf data) else (setLeaf data b next).1)) := by
  obtain ⟨b, t', hget, hb, hset, hcase⟩ : ∃ b t', getItem none t node = (.node b, t') ∧ Shape b ∧
      (∀ v, t'.set node v = t.set node v) ∧
      (t.get node = some (.node b) ∨ t.get node = none ∧ b = .nil) := by
    cases hv : t.get node with
    | some v =>
      obtain ⟨b, rfl, hb⟩ := ht.get_node hn hv
      exact ⟨b, t, by simp [getItem, hv], hb, fun _ => rfl, .inl rfl⟩
    | none =>
      exact ⟨.nil, t.set node (.node .nil), by simp [getItem, hv, missing, hn], shape_nil,
        fun v => Dict.set_set _ _ _ _, .inr ⟨rfl, rfl⟩⟩
  refine ⟨b, hb, hcase, ?_⟩
  cases next with
  | nil => simp [setLeaf, hget, hset]
  | cons x next => simp [setLeaf, hget, hset]

lemma branch_set_node (t b : Rdd Payload) (node n : Str) (ns : List Str) :
    branch (t.set node (.node b)) (n :: ns) =
      if node = n then branch b ns else branch t (n :: ns) := by
  rw [branch, branch, Dict.get_set]
  split_ifs <;> rfl

lemma branch_set_leaf {b : Rdd Payload} (hb : Shape b) (data : Payload) (ns : List Str) :
    branch (b.set leafKey (.leaf data)) ns ≠ none ↔ branch b ns ≠ none := by
  cases ns with
  | nil => simp [branch]
  | cons n ns =>
    rw [branch, branch, Dict.get_set]
    by_cases hn : leafKey = n
    · subst hn
      rw [if_pos rfl]
      cases hv : b.get leafKey with
      | none => simp
      | some v =>
        obtain ⟨a, rfl⟩ := hb.get_leaf hv
        simp
    · rw [if_neg hn]

/-- Retaining a row creates the nodes of its topic and no others. -/
lemma branch_setLeaf (data : Payload) (ht : Shape t) {path : List Str} (hp : Path path)
    (q : List Str) :
    branch (setLeaf data t path).1 q ≠ none ↔ branch t q ≠ none ∨ q <+: path := by
  induction path generalizing t q with
  | nil => exact absurd rfl hp.1
  | cons node next ih =>
    obtain ⟨b, hb, hget, hset⟩ := setLeaf_cons data ht hp.head_ne next
    rw [hset]
    cases q with
    | nil => simp [branch]
    | cons n q =>
      rw [branch_set_node, List.cons_prefix_cons]
      by_cases hn : node = n
      · subst hn
        have hbelow : branch (if next = [] then b.set leafKey (.leaf data)
            else (setLeaf data b next).1) q ≠ none ↔ branch b q ≠ none ∨ q <+: next := by
          by_cases hnil : next = []
          · subst hnil
            rw [if_pos rfl, branch_set_leaf hb, List.prefix_nil]
            refine ⟨.inl, ?_⟩
            rintro (h | rfl)
            · exact h
            · exact Option.some_ne_none b
          · rw [if_neg hnil]
            exact ih hb (hp.tail_of_ne hnil) q
        rw [if_pos rfl, hbelow]
        rcases hget with hget | ⟨hget, rfl⟩
        · simp [branch_of_get hget]
        · cases q <;> simp [branch, hget]
      · simp [hn, Ne.symm hn]

/-- Retaining rows creates the nodes of their topics and no others. -/
lemma branch_setLeaves (ht : Shape t) {rows : List Row} (hp : ∀ row ∈ rows, Path row.topic)
    (q : List Str) : branch (setLeaves t rows).1 q ≠ none ↔
      branch t q ≠ none ∨ ∃ row ∈ rows, q <+: row.topic := by
  induction rows generalizing t with
  | nil => simp [setLeaves]
  | cons row rows ih =>
    obtain ⟨hrow, hrows⟩ := List.forall_mem_cons.mp hp
    obtain ⟨t', hset, ht', -⟩ := setLeaf_spec row.data ht hrow
    have hbranch := branch_setLeaf row.data ht hrow q
    rw [hset] at hbranch
    rw [setLeaves, hset, ih ht' hrows, hbranch, or_assoc]
    simp

end

/-! ### What the filter collects -/

lemma substitute_eq {F : List Str} (hE : everythingCard ∉ F) (c : List Str) :
    substitute F c =
      if c.length = F.count manyCard then some (fill manyCard F c) else none := by
  induction F generalizing c with
  | nil => cases c <;> simp [substitute]
  | cons f F ih =>
    obtain ⟨hfE, hFE⟩ : everythingCard ≠ f ∧ everythingCard ∉ F := by simpa using hE
    by_cases hM : f = manyCard
    · subst hM
      cases c with
      | nil => simp
      | cons n c =>
        rw [substitute_many_cons, ih hFE]
        simp only [List.length_cons, List.count_cons_self, Nat.add_right_cancel_iff]
        split_ifs <;> simp
    · rw [substitute_static hfE.symm hM, ih hFE, List.count_cons_of_ne hM, fill_cons_ne hM]
      split_ifs <;> rfl

/-- A collected dictionary has no empty dictionary in it if none is picked. -/
lemma collect_pruned {pick : Item Str Payload → Except Exc (Option (Item Str Payload))}
    {acc r : Rdd Payload} {l : List (Str × Item Str Payload)} (h : collect pick acc l = .ok r)
    (hacc : acc.Pruned) (hpick : ∀ k v w, (k, v) ∈ l → k ≠ leafKey → pick v = .ok (some w) →
      w ≠ .node .nil ∧ w.Pruned) : r.Pruned := by
  induction l generalizing acc with
  | nil =>
    cases h
    exact hacc
  | cons e l ih =>
    obtain ⟨key, val⟩ := e
    have hrest := fun k v w hm => hpick k v w (List.mem_cons_of_mem _ hm)
    unfold collect at h
    by_cases hk : key = leafKey
    · rw [if_pos hk] at h
      exact ih h hacc hrest
    · rw [if_neg hk] at h
      obtain ⟨picked, hpicked, h⟩ := ok_of_bind h
      cases picked with
      | none => exact ih h hacc hrest
      | some w =>
        obtain ⟨hne, hw⟩ := hpick key val w List.mem_cons_self hk hpicked
        exact ih h (Dict.All.set hacc hne hw) hrest

lemma pickLeaf_pruned {b : Rdd Payload} (hb : Shape b) {w : Item Str Payload}
    (h : pickLeaf (.node b) = .ok (some w)) : w ≠ .node .nil ∧ w.Pruned := by
  obtain ⟨hleaf, -⟩ := Option.filter_eq_some_iff.mp (Except.ok.inj h)
  obtain ⟨a, rfl⟩ := hb.get_leaf hleaf
  exact ⟨by simp, trivial⟩

/-- The answer to a filter without `#` has no empty dictionary in it. -/
lemma filterTreeWithTopic_pruned {F : List Str} (hF : Path F) (hE : everythingCard ∉ F)
    {t : Rdd Payload} (hs : Shape t) (hd : t.Distinct) {v : Item Str Payload}
    (h : filterTreeWithTopic F (.node t) = .ok (.item v)) : v.Pruned := by
  induction F generalizing t v with
  | nil => exact absurd rfl hF.1
  | cons node next ih =>
    obtain ⟨hnE, hnextE⟩ : everythingCard ≠ node ∧ everythingCard ∉ next := by simpa using hE
    have hbelow : ∀ {b : Rdd Payload} {w : Item Str Payload}, next ≠ [] → Shape b →
        b.Distinct → filterTreeWithTopic next (.node b) = .ok (.item w) → w.Pruned :=
      fun hnil hb hbd hw => ih (hF.tail_of_ne hnil) hnextE hb hbd hw
    have hitem : ∀ {k : Str} {val : Item Str Payload}, (k, val) ∈ t.items → k ≠ leafKey →
        ∃ b, val = .node b ∧ Shape b ∧ b.Distinct := by
      intro k val hm hk
      have hget := (Dict.mem_items_iff hd.keys_nodup k val).mp hm
      obtain ⟨b, rfl, hb⟩ := hs.get_node hk hget
      exact ⟨b, rfl, hb, hd.get hget⟩
    unfold filterTreeWithTopic at h
    simp only [if_neg hnE.symm] at h
    by_cases hM : node = manyCard
    · simp only [if_pos hM] at h
      by_cases hnil : next = []
      · rw [if_pos hnil] at h
        obtain ⟨r, hr, hv⟩ := ok_of_map h
        cases hv
        refine collect_pruned hr trivial fun k val w hm hk hw => ?_
        obtain ⟨b, rfl, hb, -⟩ := hitem hm hk
        exact pickLeaf_pruned hb hw
      · rw [if_neg hnil] at h
        obtain ⟨r, hr, hv⟩ := ok_of_map h
        cases hv
        refine collect_pruned hr trivial fun k val w hm hk hw => ?_
        obtain ⟨b, rfl, hb, hbd⟩ := hitem hm hk
        obtain ⟨y, hy, hpick⟩ := ok_of_map hw
        obtain rfl := pickBranch_some hpick
        refine ⟨?_, hbelow hnil hb hbd hy⟩
        rintro rfl
        cases hpick
    · simp only [if_neg hM] at h
      cases hv : t.get node with
      | none =>
        rw [hv] at h
        have hmissing : missingBranch next = .item v := Except.ok.inj h
        unfold missingBranch at hmissing
        split at hmissing
        · split_ifs at hmissing
          cases hmissing
          trivial
        · cases hmissing
      | some w =>
        obtain ⟨b, rfl, hb⟩ := hs.get_node hF.head_ne hv
        rw [hv] at h
        by_cases hnil : next = []
        · simp only [if_pos hnil] at h
          obtain ⟨a, ha, -⟩ := leaf_of_branch hb
          rw [ha] at h
          cases h
          trivial
        · simp only [if_neg hnil] at h
          exact hbelow hnil hb (hd.get hv) h

lemma leafFor_of_value {F : List Str} (hE : F.getLast? ≠ some everythingCard) {t : Rdd Payload}
    (hs : Shape t) {topic : List Str} {b : Bytes} (hb : b ≠ [])
    (hv : valueAt t topic = some (some b)) : leafFor F t topic = some (some b) := by
  rw [leafFor, if_neg hE]
  split_ifs
  · simp [hv, truthy, Option.filter, hb]
  · have hne : valueAt t topic ≠ none := by
      rw [hv]
      exact Option.some_ne_none _
    obtain ⟨d, hd⟩ := Option.ne_none_iff_exists'.mp (branch_ne_none hs hne)
    rw [hd, Option.map_some, ← valueAt_of_branch hd, hv, Option.join_some]

lemma leafFor_congr {F : List Str} (hE : F.getLast? ≠ some everythingCard) {t t' : Rdd Payload}
    {topic : List Str} (hv : valueAt t' topic = valueAt t topic)
    (hb : branch t' topic ≠ none ↔ branch t topic ≠ none) :
    leafFor F t' topic = leafFor F t topic := by
  rw [leafFor, leafFor, if_neg hE, if_neg hE, hv]
  split_ifs
  · rfl
  cases hd : branch t topic with
  | none => rw [not_not.mp (mt hb.mp (not_not.mpr hd))]
  | some d =>
    obtain ⟨d', hd'⟩ := Option.ne_none_iff_exists'.mp (hb.mpr (by simp [hd]))
    rw [hd', Option.map_some, Option.map_some, ← valueAt_of_branch hd, ← valueAt_of_branch hd',
      hv]

/-! ### Reading it back -/

section
variable {T : List Str} {data : Value} {qos : ℕ} {t : Rdd Payload} {rows : List Row}

lemma Block.strings (h : Block T data) : Strings data := fun leaf hleaf => by
  obtain ⟨s, -, hs⟩ := h.texts leaf hleaf
  exact ⟨s, hs⟩

lemma Block.exists_leaf (h : Block T data) : ∃ c a, data.leafAt c = some a := by
  cases data with
  | leaf a => exact ⟨[], a, rfl⟩
  | node d => exact Dict.exists_leaf h.pruned fun he => h.nonempty (by rw [he])

/-- An empty tree has nothing for a pattern. -/
lemma bind_leafFor_nil (hT : T ≠ []) (c : List Str) :
    (if c.length = T.count manyCard then some (fill manyCard T c) else none).bind
      (leafFor T .nil) = none := by
  split_ifs
  · obtain ⟨n, ns, hfill⟩ : ∃ n ns, fill manyCard T c = n :: ns :=
      List.exists_cons_of_length_pos (by simpa [List.length_pos_iff] using hT)
    rw [hfill, Option.bind_some, leafFor_of_get_none rfl]
  · rfl

/-- What the pattern has for a topic at the depth of the block. -/
lemma leafFor_retained (hE : T.getLast? ≠ some everythingCard) (hblock : Block T data)
    (ht : WellFormed t) (h : Spreads qos none T data [] (.node t) rows)
    (hp : ∀ row ∈ rows, Path row.topic) {c : List Str} (hc : c.length = T.count manyCard) :
    leafFor T (setLeaves t rows).1 (fill manyCard T c) =
      ((data.leafAt c).map scalarPayload).or (leafFor T t (fill manyCard T c)) := by
  have hmem := mem_spread_iff h
  have hs' := (setLeaves_wellFormed ht rows).shape
  cases hleaf : data.leafAt c with
  | some a =>
    have hmem_leaf := (Item.mem_leaves_iff hblock.distinct c a).mpr hleaf
    obtain ⟨s, hne, rfl⟩ := hblock.texts _ hmem_leaf
    have hrow : ∃ row ∈ rows, row.topic = fill manyCard T c :=
      ⟨_, (hmem _).mpr (.inl ⟨_, hmem_leaf, rfl⟩), rfl⟩
    have hvalue := valueAt_setLeaves ht.shape hp fun row hrow htopic =>
      data_of_leaf hblock.uniform hblock.distinct h hleaf hrow htopic
    rw [if_pos hrow] at hvalue
    exact leafFor_of_value hE hs' (mt Utf8.encode_eq_nil.mp hne) hvalue
  | none =>
    -- no leaf has a row for the topic, nor for one that goes on after it
    have hno : ∀ row ∈ rows, row.topic ≠ fill manyCard T c := by
      intro row hrow htopic
      rcases (hmem row).mp hrow with ⟨⟨q, b⟩, hq, rfl⟩ | ⟨hflag, -⟩
      · have hlength := length_of_mem_leaves hblock.uniform hblock.distinct hq
        obtain rfl := fill_injective hlength hc htopic
        rw [(Item.mem_leaves_iff hblock.distinct q b).mp hq] at hleaf
        cases hleaf
      · cases hflag
    refine leafFor_congr hE (valueAt_setLeaves_of_ne ht.shape hp hno) ?_
    rw [branch_setLeaves ht.shape hp, or_iff_left_iff_imp]
    rintro ⟨row, hrow, hpre⟩
    refine absurd (hpre.eq_of_length ?_) (hno row hrow).symm
    rcases (hmem row).mp hrow with ⟨leaf, -, rfl⟩ | ⟨hflag, -⟩
    · simp [leafRow]
    · cases hflag

lemma topics_nodup (hblock : Block T data) :
    ((data.leaves.map (leafRow qos T [])).map Row.topic).Nodup := by
  have hpaths : (data.leaves.map Prod.fst).Nodup := by
    cases data with
    | leaf a => exact List.nodup_singleton _
    | node d => exact Dict.leaves_nodup hblock.distinct
  have htopics : (data.leaves.map (leafRow qos T [])).map Row.topic =
      (data.leaves.map Prod.fst).map (fill manyCard T) := by
    rw [List.map_map, List.map_map]
    rfl
  have hlength : ∀ c ∈ data.leaves.map Prod.fst, c.length = T.count manyCard := by
    intro c hc
    obtain ⟨leaf, hleaf, rfl⟩ := List.mem_map.mp hc
    exact length_of_mem_leaves hblock.uniform hblock.distinct hleaf
  rw [htopics]
  exact hpaths.map_on fun c hc c' hc' h => fill_injective (hlength c hc) (hlength c' hc') h

/-- What has the values of a block at each position is the block. -/
lemma equal_of_valueFor (hT : Path T) (hE : everythingCard ∉ T) (hblock : Block T data)
    {t : Rdd Payload} (ht : WellFormed t) {x : TreeItem}
    (hx : filterTreeWithTopic T (.node t) = .ok x)
    (hvalue : ∀ c, valueFor T x c = (data.leafAt c).map scalarPayload) :
    ∃ v, x = .item v ∧ v.Equal (data.map scalarPayload) := by
  cases x with
  | emptyStr =>
    obtain ⟨c, a, ha⟩ := hblock.exists_leaf
    have hnone := hvalue c
    rw [ha] at hnone
    cases hnone
  | item v =>
    refine ⟨v, rfl, Item.equal_of_leafAt (filterTreeWithTopic_pruned hT hE ht.shape ht.distinct hx)
      (Item.pruned_map _ hblock.pruned) fun c => ?_⟩
    have hleaf := hvalue c
    rw [valueFor, if_neg hE] at hleaf
    rw [hleaf, Item.leafAt_map]

/-- **What is published as a block is read back**: its rows are those of its leaves, each once, and
after they are retained the pattern reads the block over what it read before. -/
theorem block_readsBack (hT : Path T) (hE : everythingCard ∉ T) (hblock : Block T data)
    {tm : TreeManager} (htree : WellFormed tm.tree) (qos : ℕ) :
    ∃ rows tm', flattenMessageIntoRows qos none T data [] (.node tm.tree) = .ok rows ∧
      rows = data.leaves.map (leafRow qos T []) ∧ (rows.map Row.topic).Nodup ∧
      tm.retainRows rows = (tm', none) ∧ ReadsBack T data tm.tree tm'.tree := by
  have hlast : T.getLast? ≠ some everythingCard := fun h => hE (List.mem_of_getLast? h)
  have hdrop : everythingCard ∉ T.dropLast := fun h => hE (List.dropLast_subset _ h)
  obtain ⟨rows, hrows, hspread⟩ := @flattenMessageIntoRows_spreads qos none T hT.1 hE _
    hblock.uniform hblock.distinct hblock.strings (.node tm.tree) (wellFormedItem_node htree)
    (follows_of_keys hT.2 hblock.keys htree.shape) []
  have hpaths := paths_of_flatten hT hblock.keys hrows
  have heq := hspread.eq_leafRows fun hflag => by cases hflag
  have htree' := setLeaves_wellFormed htree rows
  obtain ⟨x, hx, hyields⟩ := filterTreeWithTopic_yields hT hdrop htree.shape htree.distinct
  obtain ⟨x', hx', hyields'⟩ := filterTreeWithTopic_yields hT hdrop htree'.shape htree'.distinct
  have hvalue : ∀ c, valueFor T x' c =
      ((data.leafAt c).map scalarPayload).or (valueFor T x c) := by
    intro c
    rw [hyields.value, hyields'.value, substitute_eq hE]
    split_ifs with hc
    · exact leafFor_retained hlast hblock htree hspread hpaths hc
    · rw [hblock.uniform.leafAt_eq_none hc]
      rfl
  obtain ⟨t', hset, -⟩ := setLeaves_spec htree.shape hpaths
  refine ⟨rows, ⟨(setLeaves tm.tree rows).1, tm.tasks ++ rows⟩, hrows, heq,
    heq ▸ topics_nodup hblock, ?_, ⟨x, x', hx, hx', hvalue⟩, fun hempty => ?_⟩
  · simp only [TreeManager.retainRows, TreeManager.addTasks, hset]
  · have hnothing : ∀ c, valueFor T x c = none := fun c => by
      rw [hyields.value, substitute_eq hE, hempty]
      exact bind_leafFor_nil hT.1 c
    obtain ⟨v, rfl, hequal⟩ := equal_of_valueFor hT hE hblock htree' hx' fun c => by
      rw [hvalue, hnothing, Option.or_none]
    exact ⟨v, hx', hequal⟩

/-- `{"hall": "1"}`. -/
def hallBlock : Value := .node (.leaf "hall".toList (.str "1".toList) .nil)

lemma hallBlock_block : Block (split "light/+/is_on".toList) hallBlock where
  distinct := ⟨by decide, trivial⟩
  uniform := (Item.uniform_nil 0).cons_leaf _ _
  keys := by
    refine ⟨?_, trivial⟩
    decide
  nonempty := by decide
  pruned := ⟨by decide, trivial⟩
  texts := by
    intro leaf hleaf
    cases List.mem_singleton.mp hleaf
    exact ⟨_, by decide, rfl⟩

theorem block_readsBack_hall :
    ∃ rows tm', flattenMessageIntoRows 0 none (split "light/+/is_on".toList) hallBlock []
        (.node .nil) = .ok rows ∧
      rows = hallBlock.leaves.map (leafRow 0 (split "light/+/is_on".toList) []) ∧
      (rows.map Row.topic).Nodup ∧ (⟨.nil, []⟩ : TreeManager).retainRows rows = (tm', none) ∧
      ReadsBack (split "light/+/is_on".toList) hallBlock .nil tm'.tree :=
  @block_readsBack _ _ (path_split _) (by decide) hallBlock_block ⟨.nil, []⟩
    ⟨shape_nil, trivial⟩ 0

end

end MoteBroker.Blocks
