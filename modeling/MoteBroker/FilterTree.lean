import MoteBroker.Lib.Wildcard
import MoteBroker.TreeItems

/-!
`filter_tree_with_topic`: cherry-picking the retained tree with a topic, and what the result
holds for the captured nodes.
-/

namespace MoteBroker.FilterTree

open NestedDict Wildcard MoteBroker.Topics MoteBroker.RecursiveDefaultDict
open MoteBroker.TreeItems

/-- The loop of the `+` branches: `pick` gives the value that an item contributes. -/
def collect (pick : Item Str Payload → Except Exc (Option (Item Str Payload))) :
    Rdd Payload → List (Str × Item Str Payload) → Except Exc (Rdd Payload)
  | result, [] => .ok result
  | result, (key, val) :: rest =>
    if key = leafKey then collect pick result rest
    else do
      match ← pick val with
      | some v => collect pick (result.set key v) rest
      | none => collect pick result rest

def truthy : Item Str Payload → Bool
  | .leaf none => false
  | .leaf (some b) => b ≠ []
  | .node .nil => false
  | .node _ => true

/-- `leaf = val.get(LEAF_KEY)`, kept if it is truthy. -/
def pickLeaf : Item Str Payload → Except Exc (Option (Item Str Payload))
  | .leaf _ => .error .attributeError
  | .node d => .ok ((d.get leafKey).filter truthy)

/-- `branch not in ["", {}]`. -/
def pickBranch : TreeItem → Option (Item Str Payload)
  | .emptyStr => none
  | .item (.node .nil) => none
  | .item v => some v

/-- The answer where the topic leaves the tree: `found_wildcard` is set anew from the last
node of the rest, whatever was passed for it. -/
def missingBranch (next_topic : List Str) : TreeItem :=
  match next_topic.getLast? with
  | some last => if isNodeStatic last then .emptyStr else .item (.node .nil)
  | none => .emptyStr

def filterTreeWithTopic : List Str → Item Str Payload → Except Exc TreeItem
  | [], _ => .error .indexError
  | node :: next_topic, tree =>
    if node = everythingCard then
      if next_topic = [] then .ok (.item tree) else .error .invalidEverythingCard
    else
      match tree with
      | .leaf _ => .error .attributeError
      | .node d =>
        if node = manyCard then
          if next_topic = [] then
            (collect pickLeaf .nil d.items).map fun r => .item (.node r)
          else
            (collect (fun val => (filterTreeWithTopic next_topic val).map pickBranch) .nil
              d.items).map fun r => .item (.node r)
        else
          match d.get node with
          | none | some (.leaf none) => .ok (missingBranch next_topic)
          | some branch =>
            if next_topic = [] then
              match branch with
              | .leaf _ => .error .attributeError
              | .node b => .ok (.item ((b.get leafKey).getD (.leaf none)))
            else filterTreeWithTopic next_topic branch

/-! ### What the loops collect -/

/-- The loop keeps, under each key but the leaf key, what is picked from the item there. -/
lemma collect_spec {pick : Item Str Payload → Except Exc (Option (Item Str Payload))}
    {g : Item Str Payload → Option (Item Str Payload)} {l : List (Str × Item Str Payload)}
    (hl : (l.map Prod.fst).Nodup)
    (h : ∀ k v, (k, v) ∈ l → k ≠ leafKey → pick v = .ok (g v)) (acc : Rdd Payload) :
    ∃ r, collect pick acc l = .ok r ∧
      (acc.Distinct → (∀ k v w, (k, v) ∈ l → k ≠ leafKey → g v = some w → w.Distinct) →
        r.Distinct) ∧
      ∀ k, r.get k = if k = leafKey then acc.get k
        else ((l.lookup k).bind g).or (acc.get k) := by
  induction l generalizing acc with
  | nil => exact ⟨acc, rfl, fun ha _ => ha, fun k => by simp⟩
  | cons kv l ih =>
    obtain ⟨key, v⟩ := kv
    simp only [List.map_cons, List.nodup_cons] at hl
    have hrest : ∀ k v, (k, v) ∈ l → k ≠ leafKey → pick v = .ok (g v) :=
      fun k v hm => h k v (List.mem_cons_of_mem _ hm)
    have hnone : l.lookup key = none := by
      rw [List.lookup_eq_none_iff]
      intro p hp
      have : p.1 ≠ key := fun e => hl.1 (e ▸ List.mem_map_of_mem hp)
      simpa using this.symm
    by_cases hk : key = leafKey
    · subst hk
      obtain ⟨r, hr, hrd, hrg⟩ := ih hl.2 hrest acc
      refine ⟨r, by simpa [collect] using hr,
        fun ha hg => hrd ha fun k v w hm => hg k v w (List.mem_cons_of_mem _ hm), fun k => ?_⟩
      rw [hrg, Dict.lookup_cons_ite]
      by_cases hkk : k = leafKey <;> simp [hkk]
    · have hpick := h key v List.mem_cons_self hk
      obtain ⟨r, hr, hrd, hrg⟩ := ih hl.2 hrest ((g v).elim acc (acc.set key))
      refine ⟨r, ?_, fun ha hg => hrd ?_ fun k v w hm => hg k v w (List.mem_cons_of_mem _ hm),
        fun k => ?_⟩
      · cases hg : g v with
        | none => simpa [collect, hk, hpick, hg] using hr
        | some w => simpa [collect, hk, hpick, hg] using hr
      · cases hgv : g v with
        | none => exact ha
        | some w => exact Dict.Distinct.set ha key (hg key v w List.mem_cons_self hk hgv)
      · rw [hrg, Dict.lookup_cons_ite]
        by_cases hkk : k = key
        · subst hkk
          cases hg : g v <;> simp [hk, hnone, hg]
        · have hset : ((g v).elim acc (acc.set key)).get k = acc.get k := by
            cases g v with
            | none => rfl
            | some w => exact Dict.get_set_ne _ _ (Ne.symm hkk)
          simp [hset, hkk]

/-- The same, for a loop over a tree of the right shape: `g` tells what is picked from the
dictionary under a key. -/
lemma collect_items {pick : Item Str Payload → Except Exc (Option (Item Str Payload))}
    {g : Item Str Payload → Option (Item Str Payload)} {t : Rdd Payload} (hs : Shape t)
    (hd : t.Distinct)
    (h : ∀ k b, t.get k = some (.node b) → Shape b → b.Distinct →
      pick (.node b) = .ok (g (.node b)))
    (hg : ∀ k b w, t.get k = some (.node b) → Shape b → b.Distinct → g (.node b) = some w →
      w.Distinct) :
    ∃ r, collect pick .nil t.items = .ok r ∧ r.Distinct ∧
      ∀ k, r.get k = if k = leafKey then none else (t.get k).bind g := by
  have hnd : (t.items.map Prod.fst).Nodup := by
    rw [← Dict.keys_eq_items]; exact hd.keys_nodup
  have hget : ∀ k v, (k, v) ∈ t.items → t.get k = some v := fun k v hm =>
    (Dict.mem_items_iff hd.keys_nodup k v).mp hm
  have hnode : ∀ k v, (k, v) ∈ t.items → k ≠ leafKey →
      ∃ b, v = .node b ∧ Shape b ∧ b.Distinct := fun k v hm hk => by
    obtain ⟨b, rfl, hb⟩ := hs.get_node hk (hget k v hm)
    exact ⟨b, rfl, hb, hd.get (hget k _ hm)⟩
  obtain ⟨r, hr, hrd, hrg⟩ := @collect_spec pick g _ hnd (fun k v hm hk => by
    obtain ⟨b, rfl, hb, hbd⟩ := hnode k v hm hk
    exact h k b (hget k _ hm) hb hbd) .nil
  refine ⟨r, hr, hrd trivial fun k v w hm hk hw => ?_, fun k => ?_⟩
  · obtain ⟨b, rfl, hb, hbd⟩ := hnode k v hm hk
    exact hg k b w (hget k _ hm) hb hbd hw
  · rw [hrg, Dict.lookup_items]
    simp

/-! ### What the result holds -/

/-- What the filter's result is: keys are distinct, payloads come from the tree, and the view
of it has, for the nodes that the wildcards capture, what the tree holds for the topic that
they fill in. -/
structure Answer (F : List Str) (t : Rdd Payload) (x : TreeItem) : Prop where
  distinct : ∀ v, x = .item v → v.Distinct
  source : ∀ v, x = .item v → ∀ c a, v.leafAt c = some a → a = none ∨ ∃ p, valueAt t p = some a
  shape : x = .emptyStr ∨
    if manyCard ∈ F then ∃ r, x = .item (.node r) else ∃ a, x = .item (.leaf a)
  view : ∀ c, x.view c =
    if c.length = F.count manyCard then present (valueAt t (fill manyCard F c)).join else none

lemma view_nil_node (c : List Str) : (TreeItem.item (.node .nil)).view c = none := by
  simp [TreeItem.view]

lemma view_node_cons (r : Rdd Payload) (k : Str) (c : List Str) :
    (TreeItem.item (.node r)).view (k :: c) =
      (r.get k).bind fun v => (TreeItem.item v).view c := by
  simp [TreeItem.view, Option.bind_assoc]

lemma view_pickBranch (x : TreeItem) (c : List Str) :
    ((pickBranch x).bind fun v => (TreeItem.item v).view c) = x.view c := by
  match x with
  | .emptyStr => rfl
  | .item (.leaf a) => rfl
  | .item (.node .nil) => exact (view_nil_node c).symm
  | .item (.node (.leaf k a r)) => rfl
  | .item (.node (.node k s r)) => rfl

lemma pickBranch_some {x : TreeItem} {v : Item Str Payload} (h : pickBranch x = some v) :
    x = .item v := by
  unfold pickBranch at h
  split at h <;> simp_all

/-- `+` at the end of a topic collects the leaves of the branches. -/
lemma collect_leaves {t : Rdd Payload} (hs : Shape t) (hd : t.Distinct) :
    ∃ r, collect pickLeaf .nil t.items = .ok r ∧ r.Distinct ∧
      ∀ k, r.get k = if k = leafKey then none
        else (t.get k).bind fun v => (pickLeaf v).toOption.join :=
  collect_items hs hd (fun _ _ _ _ _ => rfl) fun _ _ _ _ _ hbd hw =>
    hbd.get (Option.filter_eq_some_iff.mp hw).1

/-- Elsewhere it collects the answers below the branches, without the empty ones. -/
lemma collect_branches {next : List Str} {t : Rdd Payload} (hs : Shape t) (hd : t.Distinct)
    (hlow : ∀ k b, t.get k = some (.node b) →
      ∃ y, filterTreeWithTopic next (.node b) = .ok y ∧ ∀ v, y = .item v → v.Distinct) :
    ∃ r, collect (fun val => (filterTreeWithTopic next val).map pickBranch) .nil t.items = .ok r ∧
      r.Distinct ∧
      ∀ k, r.get k = if k = leafKey then none
        else (t.get k).bind fun v => (filterTreeWithTopic next v).toOption.bind pickBranch := by
  refine collect_items hs hd (fun k b hb _ _ => ?_) fun k b w hb _ _ hw => ?_
  · obtain ⟨y, hy, -⟩ := hlow k b hb
    simp [hy, Except.map, Except.toOption]
  · obtain ⟨y, hy, hyd⟩ := hlow k b hb
    exact hyd w (pickBranch_some (by simpa [hy, Except.toOption] using hw))

lemma truthy_present {a : Payload} : truthy (.leaf a) = (present a).isSome := by
  cases a with
  | none => rfl
  | some b => by_cases h : b = [] <;> simp [truthy, present, Option.filter, h]

/-- A topic that leaves the tree has an empty answer. -/
lemma answer_missing {F : List Str} {t : Rdd Payload} {n : Str} {ns : List Str}
    (hF : F = n :: ns) (hE : everythingCard ∉ F) (hn : n ≠ manyCard) (ht : t.get n = none) :
    Answer F t (missingBranch ns) := by
  have hval : ∀ c, valueAt t (fill manyCard F c) = none := fun c => by
    rw [hF, fill_cons_ne hn, valueAt_cons, ht]; rfl
  have hcases : missingBranch ns = .emptyStr ∨
      manyCard ∈ F ∧ missingBranch ns = .item (.node .nil) := by
    unfold missingBranch
    cases hl : ns.getLast? with
    | none => exact .inl rfl
    | some last =>
      by_cases hs : isNodeStatic last
      · simp [hs]
      · have hmem : last ∈ ns := List.mem_of_getLast? hl
        have hlast : last = manyCard := by
          have hor : last = manyCard ∨ last = everythingCard := by
            simpa [isNodeStatic, or_iff_not_imp_left] using hs
          exact hor.resolve_right fun e =>
            hE (by rw [hF, ← e]; exact List.mem_cons_of_mem _ hmem)
        refine .inr ⟨by rw [hF, ← hlast]; exact List.mem_cons_of_mem _ hmem, by simp [hs]⟩
  rcases hcases with h | ⟨hm, h⟩
  · rw [h]
    refine ⟨fun v hv => ?_, fun v hv => ?_, .inl rfl, fun c => by simp [TreeItem.view, hval]⟩
    all_goals cases hv
  · rw [h]
    refine ⟨fun v hv => ?_, fun v hv c a ha => ?_, .inr (by rw [if_pos hm]; exact ⟨_, rfl⟩),
      fun c => by rw [view_nil_node, hval]; simp⟩
    · cases hv; trivial
    · cases hv; simp at ha

/-- One dictionary with the answers of what lies below answers for the wildcard. -/
lemma answer_collect {F : List Str} {t r : Rdd Payload} (hs : Shape t) (hr : r.Distinct)
    {g : Item Str Payload → Option (Item Str Payload)}
    (hget : ∀ k, r.get k = if k = leafKey then none else (t.get k).bind g)
    (hsrc : ∀ b v, Shape b → b.Distinct → g (.node b) = some v → ∀ c a, v.leafAt c = some a →
      a = none ∨ ∃ p, valueAt b p = some a)
    (hview : ∀ b, Shape b → b.Distinct → ∀ c,
      ((g (.node b)).bind fun v => (TreeItem.item v).view c) =
        if c.length = F.count manyCard then
          present (valueAt b (fill manyCard F c)).join else none)
    (hd : t.Distinct) : Answer (manyCard :: F) t (.item (.node r)) := by
  refine ⟨fun v hv => ?_, fun v hv c a ha => ?_, .inr (by simp), fun c => ?_⟩
  · cases hv; exact hr
  · cases hv
    rcases c with _ | ⟨k, c⟩
    · simp at ha
    · rw [Item.leafAt_node, Dict.leafAt_cons, hget] at ha
      by_cases hk : k = leafKey
      · simp [hk] at ha
      · rw [if_neg hk] at ha
        obtain ⟨v, hv, hva⟩ := Option.bind_eq_some_iff.mp ha
        obtain ⟨w, hw, hgw⟩ := Option.bind_eq_some_iff.mp hv
        obtain ⟨b, rfl, hb⟩ := hs.get_node hk hw
        rcases hsrc b v hb (hd.get hw) hgw c a hva with h | ⟨p, hp⟩
        · exact .inl h
        · exact .inr ⟨k :: p, by rw [valueAt_of_get hw, hp]⟩
  · rcases c with _ | ⟨k, c⟩
    · simp [TreeItem.view]
    · rw [view_node_cons, hget, fill_cons_self]
      by_cases hk : k = leafKey
      · subst hk
        rw [if_pos rfl, hs.valueAt_leafKey]
        simp
      · rw [if_neg hk]
        cases hw : t.get k with
        | none => simp [valueAt_cons, hw]
        | some w =>
          obtain ⟨b, rfl, hb⟩ := hs.get_node hk hw
          rw [Option.bind_some, hview b hb (hd.get hw), valueAt_of_get hw]
          simp

/-- The answer below a node of the tree that the topic names. -/
lemma Answer.below {F : List Str} {t b : Rdd Payload} {x : TreeItem} (h : Answer F b x)
    {n : Str} (hn : n ≠ manyCard) (hb : t.get n = some (.node b)) : Answer (n :: F) t x := by
  refine ⟨h.distinct, fun v hv c a ha => ?_, ?_, fun c => ?_⟩
  · rcases h.source v hv c a ha with h0 | ⟨p, hp⟩
    · exact .inl h0
    · exact .inr ⟨n :: p, by rw [valueAt_of_get hb, hp]⟩
  · simpa [Ne.symm hn] using h.shape
  · rw [h.view, fill_cons_ne hn, valueAt_of_get hb]
    simp [hn]

/-- The answer at the end of a topic: the payload of the node reached. -/
lemma answer_leaf {b : Rdd Payload} (hs : Shape b) {n : Str} (hn : n ≠ manyCard)
    {t : Rdd Payload} (hb : t.get n = some (.node b)) :
    Answer [n] t (.item ((b.get leafKey).getD (.leaf none))) := by
  obtain ⟨a, ha, hval⟩ : ∃ a, (b.get leafKey).getD (.leaf none) = .leaf a ∧
      (valueAt b []).join = a ∧ (a ≠ none → valueAt b [] = some a) := by
    cases hv : b.get leafKey with
    | none => exact ⟨none, rfl, by simp [valueAt, hv], fun h => absurd rfl h⟩
    | some v =>
      obtain ⟨a, rfl⟩ := hs.get_leaf hv
      exact ⟨a, rfl, by simp [valueAt, hv], fun _ => by simp [valueAt, hv]⟩
  rw [ha]
  refine ⟨fun v hv => ?_, fun v hv c e he => ?_, .inr (by simp [Ne.symm hn]), fun c => ?_⟩
  · cases hv; trivial
  · cases hv
    rcases c with _ | ⟨k, c⟩
    · obtain rfl : a = e := by simpa using he
      by_cases hae : a = none
      · exact .inl hae
      · exact .inr ⟨[n], by rw [valueAt_of_get hb, hval.2 hae]⟩
    · simp at he
  · rw [fill_cons_ne hn, fill_nil, valueAt_of_get hb, hval.1]
    rcases c with _ | ⟨k, c⟩ <;> simp [TreeItem.view, hn]

/-- The answer to `+` at the end of a topic: the payloads of the branches. -/
lemma answer_many {t : Rdd Payload} (hs : Shape t) (hd : t.Distinct) :
    ∃ r, collect pickLeaf .nil t.items = .ok r ∧ Answer [manyCard] t (.item (.node r)) := by
  obtain ⟨r, hr, hrd, hrg⟩ := collect_leaves hs hd
  refine ⟨r, hr, answer_collect hs hrd hrg (fun b v hb _ hv c a ha => ?_) (fun b hb _ c => ?_) hd⟩
  · have hv := (Option.filter_eq_some_iff.mp hv).1
    obtain ⟨e, rfl⟩ := hb.get_leaf hv
    rcases c with _ | ⟨k, c⟩
    · exact .inr ⟨[], by simpa [valueAt, hv] using ha⟩
    · simp at ha
  · have hpick : (pickLeaf (.node b)).toOption.join = (b.get leafKey).filter truthy := rfl
    rw [hpick]
    cases hv : b.get leafKey with
    | none => simp [hv, valueAt]
    | some v =>
      obtain ⟨e, rfl⟩ := hb.get_leaf hv
      rcases c with _ | ⟨k, c⟩
      · cases hp : present e <;>
          simp [valueAt, hv, Option.filter, truthy_present, hp, TreeItem.view]
      · cases hp : present e <;>
          simp [Option.filter, truthy_present, hp, TreeItem.view]

/-- The answer to another `+`: the answers below the branches, without the empty ones. -/
lemma answer_many_next {next : List Str} {t : Rdd Payload} (hs : Shape t) (hd : t.Distinct)
    (hlow : ∀ b, Shape b → b.Distinct →
      ∃ y, filterTreeWithTopic next (.node b) = .ok y ∧ Answer next b y) :
    ∃ r, collect (fun val => (filterTreeWithTopic next val).map pickBranch) .nil t.items = .ok r ∧
      Answer (manyCard :: next) t (.item (.node r)) := by
  have hdistinct : ∀ k b, t.get k = some (.node b) →
      ∃ y, filterTreeWithTopic next (.node b) = .ok y ∧ ∀ v, y = .item v → v.Distinct :=
    fun k b hb => by
      obtain ⟨y, hy, ha⟩ := hlow b (Dict.All.get hs hb).2 (hd.get hb)
      exact ⟨y, hy, ha.distinct⟩
  obtain ⟨r, hr, hrd, hrg⟩ := collect_branches hs hd hdistinct
  refine ⟨r, hr, answer_collect hs hrd hrg (fun b v hb hbd hv => ?_) (fun b hb hbd c => ?_) hd⟩
  · obtain ⟨y, hy, ha⟩ := hlow b hb hbd
    exact ha.source v (pickBranch_some (by simpa [hy, Except.toOption] using hv))
  · obtain ⟨y, hy, ha⟩ := hlow b hb hbd
    simp only [hy, Except.toOption, Option.bind_some, view_pickBranch]
    exact ha.view c

/-- **What the filter answers**, for every topic without `#` and every tree of the right
shape: it does not fail, and its view is the tree's payloads at the topics that match. -/
theorem filterTreeWithTopic_spec {F : List Str} (hF : Path F) (hE : everythingCard ∉ F)
    {t : Rdd Payload} (hs : Shape t) (hd : t.Distinct) :
    ∃ x, filterTreeWithTopic F (.node t) = .ok x ∧ Answer F t x := by
  induction F generalizing t with
  | nil => exact absurd rfl hF.1
  | cons node next ih =>
    have hnE : node ≠ everythingCard := fun e => hE (by simp [e])
    have hn := hF.head_ne
    have hE' : everythingCard ∉ next := fun h => hE (List.mem_cons_of_mem _ h)
    unfold filterTreeWithTopic
    simp only [if_neg hnE]
    by_cases hm : node = manyCard
    · subst hm
      rw [if_pos rfl]
      rcases next with _ | ⟨x, next⟩
      · -- the leaves below the tree's own branches
        obtain ⟨r, hr, ha⟩ := answer_many hs hd
        exact ⟨_, by simp [hr, Except.map], ha⟩
      · -- the answers below them, without the empty ones
        obtain ⟨r, hr, ha⟩ := answer_many_next hs hd fun b hb hbd => ih hF.tail hE' hb hbd
        exact ⟨_, by simp only [reduceCtorEq, if_false, hr]; rfl, ha⟩
    · rw [if_neg hm]
      cases hv : t.get node with
      | none => exact ⟨_, rfl, answer_missing rfl hE hm hv⟩
      | some v =>
        obtain ⟨b, rfl, hb⟩ := hs.get_node hn hv
        rcases next with _ | ⟨x, next⟩
        · exact ⟨_, rfl, answer_leaf hb hm hv⟩
        · obtain ⟨y, hy, ha⟩ := ih hF.tail hE' hb (hd.get hv)
          exact ⟨y, hy, ha.below hm hv⟩

/-! ### What can be raised -/

lemma collect_error {pick : Item Str Payload → Except Exc (Option (Item Str Payload))} {e : Exc}
    {acc : Rdd Payload} {l : List (Str × Item Str Payload)} (h : collect pick acc l = .error e) :
    ∃ v, pick v = .error e := by
  induction l generalizing acc with
  | nil => cases h
  | cons kv l ih =>
    obtain ⟨k, v⟩ := kv
    unfold collect at h
    split_ifs at h with hk
    · exact ih h
    · cases hp : pick v with
      | error e' => rw [hp] at h; cases h; exact ⟨v, hp⟩
      | ok o =>
        rw [hp] at h
        cases o with
        | none => exact ih h
        | some w => exact ih h

/-- The filter never raises `KeyError`, whatever the tree. -/
lemma filterTreeWithTopic_ne_keyError (F : List Str) (tree : Item Str Payload) :
    filterTreeWithTopic F tree ≠ .error .keyError := by
  have hmap : ∀ {f : Rdd Payload → TreeItem} {x : Except Exc (Rdd Payload)},
      x.map f = .error .keyError → x = .error .keyError := fun {f x} h => by
    cases x with
    | ok r => cases h
    | error e => cases h; rfl
  induction F generalizing tree with
  | nil => intro h; cases h
  | cons node next ih =>
    intro h
    unfold filterTreeWithTopic at h
    by_cases hE : node = everythingCard
    · rw [if_pos hE] at h
      split_ifs at h
      cases h
    rw [if_neg hE] at h
    cases tree with
    | leaf a => split_ifs at h <;> cases h
    | node d =>
      by_cases hM : node = manyCard
      · simp only [if_pos hM] at h
        by_cases hnil : next = []
        · simp only [if_pos hnil] at h
          obtain ⟨v, hv⟩ := collect_error (hmap h)
          cases v <;> cases hv
        · simp only [if_neg hnil] at h
          obtain ⟨v, hv⟩ := collect_error (hmap h)
          cases hf : filterTreeWithTopic next v with
          | ok x => rw [hf] at hv; cases hv
          | error e => rw [hf] at hv; cases hv; exact ih v hf
      · simp only [if_neg hM] at h
        split at h
        · cases h
        · cases h
        · by_cases hnil : next = []
          · rw [if_pos hnil] at h
            split at h <;> cases h
          · rw [if_neg hnil] at h
            exact ih _ h

end MoteBroker.FilterTree
