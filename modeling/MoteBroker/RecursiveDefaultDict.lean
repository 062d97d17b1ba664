import MoteBroker.Lib.NestedPath
import MoteBroker.Topics

/-!
`RecursiveDefaultDict`: a dictionary that holds a leaf under the leaf key and dictionaries of
its own kind under every other key, and that creates what is looked up in it.

Exceptions keep the nodes that a walk has created, as in the source; a walk that cannot fail
on a tree of the right shape is given that shape's theorem.
-/

namespace MoteBroker.RecursiveDefaultDict

open NestedDict MoteBroker.Topics

/-- `RecursiveDefaultDict`, with leaves of type `α`. -/
abbrev Rdd (α : Type) := Dict Str α

variable {α : Type}

/-- `__missing__`: what a key gets that is looked up and not there. -/
def missing (default_type : α) (key : Str) : Item Str α :=
  if key = leafKey then .leaf default_type else .node .nil

/-- `self[key]`, and the dictionary after the lookup. -/
def getItem (default_type : α) (d : Rdd α) (key : Str) : Item Str α × Rdd α :=
  match d.get key with
  | some v => (v, d)
  | none => (missing default_type key, d.set key (missing default_type key))

/-- `self << path`, followed by the change `f` that the caller makes to the object found:
the object after the change, and the tree. -/
def lshift (default_type : α) (f : α → α) : Rdd α → List Str → Except Exc (α × Rdd α)
  | _, [] => .error .indexError
  | d, [node] =>
    match getItem default_type d node with
    | (.node b, d) =>
      match getItem default_type b leafKey with
      | (.leaf a, b) => .ok (f a, d.set node (.node (b.set leafKey (.leaf (f a)))))
      | (.node _, _) => .error .attributeError
    | (.leaf _, _) => .error .keyError
  | d, node :: x :: next =>
    match getItem default_type d node with
    | (.node b, d) =>
      match lshift default_type f b (x :: next) with
      | .ok (a, b) => .ok (a, d.set node (.node b))
      | .error e => .error e
    | (.leaf _, _) => .error .typeError

/-- `if not self[node]: self.pop(node)`, where `b` is what `self[node]` has become. -/
def popIfEmpty (d : Rdd α) (node : Str) (b : Rdd α) : Rdd α :=
  match b with
  | .nil => (d.set node (.node b)).pop node
  | b => d.set node (.node b)

def cascadeDelete (default_type : α) : Rdd α → List Str → Except Exc (Rdd α)
  | _, [] => .error .indexError
  | d, [node] =>
    match getItem default_type d node with
    | (.node b, d) =>
      match b.get leafKey with
      | some _ => .ok (popIfEmpty d node (b.pop leafKey))
      | none => .error .keyError
    | (.leaf _, _) => .error .keyError
  | d, node :: x :: next =>
    match getItem default_type d node with
    | (.node b, d) =>
      match cascadeDelete default_type b (x :: next) with
      | .ok b => .ok (popIfEmpty d node b)
      | .error e => .error e
    | (.leaf _, _) => .error .attributeError

/-! ### The shape -/

/-- Leaves stand under the leaf key, dictionaries under every other key. -/
def Shape (d : Rdd α) : Prop :=
  d.All fun k v => match v with
    | .leaf _ => k = leafKey
    | .node _ => k ≠ leafKey

instance (d : Rdd α) : Decidable (Shape d) :=
  @Dict.decAll _ _ _ (fun k v => match v with
    | .leaf _ => inferInstanceAs (Decidable (k = leafKey))
    | .node _ => inferInstanceAs (Decidable (k ≠ leafKey))) d

/-- The value kept for a list of nodes. -/
def valueAt (d : Rdd α) (nodes : List Str) : Option α := d.leafAt (nodes ++ [leafKey])

/-- A nonempty list of nodes none of which is the leaf key. -/
def Path (nodes : List Str) : Prop := nodes ≠ [] ∧ leafKey ∉ nodes

instance (nodes : List Str) : Decidable (Path nodes) :=
  inferInstanceAs (Decidable (nodes ≠ [] ∧ leafKey ∉ nodes))

lemma Path.head_ne {n : Str} {ns : List Str} (h : Path (n :: ns)) : n ≠ leafKey :=
  fun e => h.2 (by simp [e])

lemma Path.tail {n x : Str} {ns : List Str} (h : Path (n :: x :: ns)) : Path (x :: ns) :=
  ⟨by simp, fun hm => h.2 (List.mem_cons_of_mem _ hm)⟩

lemma Path.tail_of_ne {n : Str} {ns : List Str} (h : Path (n :: ns)) (hns : ns ≠ []) : Path ns :=
  ⟨hns, fun hm => h.2 (List.mem_cons_of_mem _ hm)⟩

lemma path_split (s : Str) : Path (split s) :=
  ⟨split_ne_nil s, fun h => (singleLevel_of_mem_split h).ne_leafKey rfl⟩

@[simp] lemma valueAt_nil (nodes : List Str) : valueAt (.nil : Rdd α) nodes = none := by
  simp [valueAt]

lemma valueAt_cons (d : Rdd α) (n : Str) (ns : List Str) :
    valueAt d (n :: ns) = (d.get n).bind fun v => v.leafAt (ns ++ [leafKey]) := rfl

lemma valueAt_of_get {d b : Rdd α} {n : Str} (h : d.get n = some (.node b)) (ns : List Str) :
    valueAt d (n :: ns) = valueAt b ns := by
  rw [valueAt_cons, h]; rfl

lemma shape_nil : Shape (.nil : Rdd α) := trivial

lemma Shape.get_node {d : Rdd α} (h : Shape d) {n : Str} (hn : n ≠ leafKey) {v : Item Str α}
    (hv : d.get n = some v) : ∃ b, v = .node b ∧ Shape b := by
  have := h.get hv
  cases v with
  | leaf a => exact absurd this.1 hn
  | node b => exact ⟨b, rfl, this.2⟩

lemma Shape.get_leaf {d : Rdd α} (h : Shape d) {v : Item Str α} (hv : d.get leafKey = some v) :
    ∃ a, v = .leaf a := by
  cases v with
  | leaf a => exact ⟨a, rfl⟩
  | node b => exact absurd rfl (h.get hv).1

lemma Shape.set_node {d b : Rdd α} (h : Shape d) {n : Str} (hn : n ≠ leafKey) (hb : Shape b) :
    Shape (d.set n (.node b)) := Dict.All.set h hn hb

lemma Shape.set_leaf {d : Rdd α} (h : Shape d) (a : α) : Shape (d.set leafKey (.leaf a)) :=
  Dict.All.set h rfl trivial

/-- Nothing lies beyond the leaf key. -/
lemma Shape.valueAt_leafKey {d : Rdd α} (h : Shape d) (ns : List Str) :
    valueAt d (leafKey :: ns) = none := by
  obtain ⟨x, p, hp⟩ : ∃ x p, ns ++ [leafKey] = x :: p := List.exists_cons_of_ne_nil (by simp)
  rw [valueAt_cons, hp]
  cases hv : d.get leafKey with
  | none => rfl
  | some v => obtain ⟨a, rfl⟩ := h.get_leaf hv; rfl

/-- `getItem` on a key that is not the leaf key: the dictionary there, perhaps a new one. -/
lemma Shape.getItem_node {d : Rdd α} (h : Shape d) (dt : α) {n : Str} (hn : n ≠ leafKey) :
    ∃ b d', getItem dt d n = (.node b, d') ∧ Shape b ∧ Shape d' ∧
      (d.Distinct → b.Distinct ∧ d'.Distinct) ∧ (d.Pruned → b.Pruned) ∧
      (∀ ns, valueAt b ns = valueAt d (n :: ns)) ∧
      (∀ v, d'.set n v = d.set n v) := by
  cases hv : d.get n with
  | some v =>
    obtain ⟨b, rfl, hb⟩ := h.get_node hn hv
    exact ⟨b, d, by simp [getItem, hv], hb, h, fun hd => ⟨hd.get hv, hd⟩,
      fun hd => (Dict.All.get hd hv).2, fun ns => (valueAt_of_get hv ns).symm, fun _ => rfl⟩
  | none =>
    refine ⟨.nil, d.set n (.node .nil), by simp [getItem, hv, missing, hn], shape_nil,
      h.set_node hn shape_nil, fun hd => ⟨trivial, hd.set n trivial⟩, fun _ => trivial,
      fun ns => by rw [valueAt_nil, valueAt_cons, hv]; rfl, fun v => Dict.set_set _ _ _ _⟩

/-- A leaf lies at the end of a list of nodes, behind the leaf key. -/
lemma Shape.path_of_leafAt {d : Rdd α} (h : Shape d) {p : List Str} {a : α}
    (hp : d.leafAt p = some a) : ∃ ns, p = ns ++ [leafKey] ∧ leafKey ∉ ns := by
  induction p generalizing d with
  | nil => simp at hp
  | cons k p ih =>
    obtain ⟨v, hv, hva⟩ := Option.bind_eq_some_iff.mp hp
    cases v with
    | leaf b =>
      obtain rfl : k = leafKey := (h.get hv).1
      rcases p with _ | ⟨x, p⟩
      · exact ⟨[], rfl, by simp⟩
      · simp at hva
    | node b =>
      obtain ⟨ns, rfl, hns⟩ := ih (h.get hv).2 hva
      exact ⟨k :: ns, rfl, by simpa using ⟨Ne.symm (h.get hv).1, hns⟩⟩

/-! ### The topics with a value -/

/-- The lists of nodes that have a value, in the order of the items. -/
def paths (d : Rdd α) : List (List Str) := d.leaves.map fun leaf => leaf.1.dropLast

lemma paths_leaf (a : α) (r : Rdd α) : paths (.leaf leafKey a r) = [] :: paths r := rfl

lemma paths_node (k : Str) (s r : Rdd α) :
    paths (.node k s r) = (paths s).map (k :: ·) ++ paths r := by
  simp only [paths, Dict.leaves, List.map_append, List.map_map]
  congr 1
  refine List.map_congr_left fun leaf hleaf => ?_
  obtain ⟨x, q, hq, -⟩ := Dict.head_mem_keys (p := leaf.1) (a := leaf.2) hleaf
  simp [hq]

lemma Shape.path_of_mem_leaves {d : Rdd α} (h : Shape d) (hd : d.Distinct) {p : List Str} {a : α}
    (hp : (p, a) ∈ d.leaves) : ∃ ns, p = ns ++ [leafKey] ∧ valueAt d ns = some a := by
  have hleaf := (Dict.mem_leaves_iff hd p a).mp hp
  obtain ⟨ns, rfl, -⟩ := h.path_of_leafAt hleaf
  exact ⟨ns, rfl, hleaf⟩

lemma mem_paths {d : Rdd α} (h : Shape d) (hd : d.Distinct) {ns : List Str} :
    ns ∈ paths d ↔ valueAt d ns ≠ none := by
  refine ⟨?_, ?_⟩
  · intro hm
    obtain ⟨⟨p, a⟩, hp, rfl⟩ := List.mem_map.mp hm
    obtain ⟨ms, rfl, hvalue⟩ := h.path_of_mem_leaves hd hp
    rw [List.dropLast_concat, hvalue]
    exact Option.some_ne_none a
  · intro hvalue
    obtain ⟨a, ha⟩ := Option.ne_none_iff_exists'.mp hvalue
    exact List.mem_map.mpr ⟨_, (Dict.mem_leaves_iff hd _ a).mpr ha, List.dropLast_concat⟩

lemma paths_nodup {d : Rdd α} (h : Shape d) (hd : d.Distinct) : (paths d).Nodup := by
  have heq : paths d = (d.leaves.map Prod.fst).map List.dropLast := by simp [paths]
  rw [heq]
  refine List.Nodup.map_on (fun p hp q hq hpq => ?_) (Dict.leaves_nodup hd)
  obtain ⟨⟨p, a⟩, hm, rfl⟩ := List.mem_map.mp hp
  obtain ⟨⟨q, b⟩, hm', rfl⟩ := List.mem_map.mp hq
  obtain ⟨ns, rfl, -⟩ := h.path_of_mem_leaves hd hm
  obtain ⟨ms, rfl, -⟩ := h.path_of_mem_leaves hd hm'
  rw [List.dropLast_concat, List.dropLast_concat] at hpq
  rw [hpq]

/-! ### Writing below a path -/

@[simp] lemma valueAt_set_node_nil (d b : Rdd α) {n : Str} (hn : n ≠ leafKey) :
    valueAt (d.set n (.node b)) [] = valueAt d [] := by
  simp [valueAt, Dict.get_set, hn]

/-- Replacing one dictionary changes the values below it and no others. -/
lemma valueAt_set_node (d b : Rdd α) (n x : Str) (q : List Str) :
    valueAt (d.set n (.node b)) (x :: q) = if n = x then valueAt b q else valueAt d (x :: q) :=
  Dict.leafAt_set d n x (.node b) (q ++ [leafKey])

lemma valueAt_set_leaf {d : Rdd α} (h : Shape d) (a : α) (ns : List Str) :
    valueAt (d.set leafKey (.leaf a)) ns = if ns = [] then some a else valueAt d ns := by
  cases ns with
  | nil => simp [valueAt]
  | cons x q =>
    rw [if_neg (by simp)]
    by_cases hx : leafKey = x
    · subst hx
      rw [h.valueAt_leafKey, (h.set_leaf a).valueAt_leafKey]
    · rw [valueAt_cons, valueAt_cons, Dict.get_set_ne _ _ hx]

lemma valueAt_pop_leaf {d : Rdd α} (h : Shape d) (ns : List Str) :
    valueAt (d.pop leafKey) ns = if ns = [] then none else valueAt d ns := by
  cases ns with
  | nil => simp [valueAt, Dict.get_pop]
  | cons x q =>
    rw [if_neg (by simp), valueAt_cons, Dict.get_pop]
    by_cases hx : leafKey = x
    · subst hx; simp [h.valueAt_leafKey]
    · rw [if_neg hx]; rfl

lemma set_ne_nil (d : Rdd α) (n : Str) (v : Item Str α) : d.set n v ≠ .nil := by
  intro h
  have := Dict.get_set_self d n v
  rw [h] at this; simp at this

/-- What `<<` and the change after it do to a tree of the right shape: they do not fail, the
value at the path becomes `f` of what was there, and nothing else changes. -/
theorem lshift_spec (dt : α) (f : α → α) {d : Rdd α} (h : Shape d) {path : List Str}
    (hp : Path path) :
    ∃ d', lshift dt f d path = .ok (f ((valueAt d path).getD dt), d') ∧ Shape d' ∧ d' ≠ .nil ∧
      (d.Distinct → d'.Distinct) ∧ (d.Pruned → d'.Pruned) ∧
      ∀ ns, valueAt d' ns =
        if ns = path then some (f ((valueAt d path).getD dt)) else valueAt d ns := by
  induction path generalizing d with
  | nil => exact absurd rfl hp.1
  | cons node next ih =>
    have hn := hp.head_ne
    obtain ⟨b, d₁, hget, hb, -, hdist, hprune, hval, hset⟩ := h.getItem_node dt hn
    cases next with
    | nil =>
      obtain ⟨a, b₁, hleaf, ha, hb₁⟩ : ∃ a b₁, getItem dt b leafKey = (.leaf a, b₁) ∧
          a = (valueAt d [node]).getD dt ∧
          ∀ v, b₁.set leafKey v = b.set leafKey v := by
        rw [← hval []]
        cases hv : b.get leafKey with
        | some v =>
          obtain ⟨a, rfl⟩ := hb.get_leaf hv
          exact ⟨a, b, by simp [getItem, hv], by simp [valueAt, hv], fun _ => rfl⟩
        | none =>
          exact ⟨dt, b.set leafKey (.leaf dt), by simp [getItem, hv, missing],
            by simp [valueAt, hv], fun v => Dict.set_set _ _ _ _⟩
      refine ⟨d.set node (.node (b.set leafKey (.leaf (f a)))), ?_,
        h.set_node hn (hb.set_leaf _), set_ne_nil _ _ _, fun hd => ?_, fun hd => ?_, fun ns => ?_⟩
      · simp [lshift, hget, hleaf, hset, hb₁, ← ha]
      · exact hd.set node ((hdist hd).1.set leafKey trivial)
      · exact Dict.All.set hd (by simpa using set_ne_nil _ _ _)
          (Dict.All.set (hprune hd) (by simp) trivial)
      · rw [← ha]
        rcases ns with _ | ⟨x, q⟩
        · simp [hn]
        · by_cases hx : node = x
          · subst hx
            simp [valueAt_set_node, valueAt_set_leaf hb, hval]
          · simp [valueAt_set_node, hx, Ne.symm hx]
    | cons x next =>
      obtain ⟨b', hrec, hshape, hne, hd', hp', hv'⟩ := ih hb hp.tail
      rw [hval] at hrec hv'
      refine ⟨d.set node (.node b'), ?_, h.set_node hn hshape, set_ne_nil _ _ _,
        fun hd => hd.set node (hd' (hdist hd).1),
        fun hd => Dict.All.set hd (by simpa using hne) (hp' (hprune hd)), fun ns => ?_⟩
      · simp [lshift, hget, hrec, hset]
      · rcases ns with _ | ⟨y, q⟩
        · simp [hn]
        · by_cases hy : node = y
          · subst hy
            simp [valueAt_set_node, hv', hval]
          · simp [valueAt_set_node, hy, Ne.symm hy]

lemma getItem_keys {Q : Str → Prop} {dt : α} {d d' : Rdd α} {k : Str} {v : Item Str α}
    (h : getItem dt d k = (v, d')) (hd : d.All fun k _ => Q k) (hk : Q k) :
    v.All (fun k _ => Q k) ∧ d'.All fun k _ => Q k := by
  unfold getItem at h
  split at h <;> cases h
  case h_1 hv => exact ⟨(hd.get hv).2, hd⟩
  case h_2 =>
    have hm : (missing dt k).All fun k _ => Q k := by
      unfold missing
      split_ifs <;> trivial
    exact ⟨hm, Dict.All.set hd hk hm⟩

/-- The keys that a walk creates are nodes of its path, and the leaf key. -/
lemma lshift_keys {Q : Str → Prop} (hQ : Q leafKey) {dt : α} {f : α → α} {d d' : Rdd α}
    {path : List Str} {a : α} (h : lshift dt f d path = .ok (a, d'))
    (hd : d.All fun k _ => Q k) (hp : ∀ n ∈ path, Q n) : d'.All fun k _ => Q k := by
  induction path generalizing d a d' with
  | nil => cases h
  | cons node next ih =>
    simp only [List.mem_cons, forall_eq_or_imp] at hp
    cases next with
    | nil =>
      unfold lshift at h
      split at h
      case h_1 b d₁ hget =>
        obtain ⟨hb, hd₁⟩ := getItem_keys hget hd hp.1
        split at h
        case h_1 a b' hleaf =>
          cases h
          obtain ⟨-, hb'⟩ := getItem_keys hleaf hb hQ
          exact Dict.All.set hd₁ hp.1 (Dict.All.set hb' hQ trivial)
        case h_2 => cases h
      case h_2 => cases h
    | cons x next =>
      unfold lshift at h
      split at h
      case h_1 b d₁ hget =>
        obtain ⟨hb, hd₁⟩ := getItem_keys hget hd hp.1
        split at h
        case h_1 a b' hrec =>
          cases h
          exact Dict.All.set hd₁ hp.1 (ih hrec hb hp.2)
        case h_2 => cases h
      case h_2 => cases h

/-! ### Deleting along a path -/

lemma popIfEmpty_nil (d : Rdd α) (n : Str) : popIfEmpty d n .nil = d.pop n :=
  Dict.pop_set d n (.node .nil)

lemma valueAt_popIfEmpty (d b : Rdd α) {n : Str} (hn : n ≠ leafKey) (ns : List Str) :
    valueAt (popIfEmpty d n b) ns = valueAt (d.set n (.node b)) ns := by
  cases b with
  | nil =>
    rw [popIfEmpty_nil]
    cases ns with
    | nil => simp [valueAt, Dict.get_pop, Dict.get_set, hn]
    | cons x q =>
      rw [valueAt_set_node, valueAt_nil, valueAt_cons, Dict.get_pop]
      by_cases hx : n = x
      · simp [hx]
      · simp [hx, valueAt_cons]
  | leaf k a r => rfl
  | node k s r => rfl

lemma popIfEmpty_all {P : Str → Item Str α → Prop} {d b : Rdd α} (h : d.All P) {n : Str}
    (hn : b ≠ .nil → P n (.node b)) (hb : b.All P) : (popIfEmpty d n b).All P := by
  cases b with
  | nil => rw [popIfEmpty_nil]; exact Dict.All.pop h n
  | leaf k a r => exact Dict.All.set h (hn (by simp)) hb
  | node k s r => exact Dict.All.set h (hn (by simp)) hb

lemma popIfEmpty_distinct {d b : Rdd α} (h : d.Distinct) (n : Str) (hb : b.Distinct) :
    (popIfEmpty d n b).Distinct := by
  cases b with
  | nil => rw [popIfEmpty_nil]; exact h.pop n
  | leaf k a r => exact h.set n hb
  | node k s r => exact h.set n hb

/-- What `cascade_delete` does where there is a value to delete: it does not fail, removes
that value alone, and leaves no empty dictionary behind. -/
theorem cascadeDelete_spec (dt : α) {d : Rdd α} (h : Shape d) {path : List Str}
    (hp : Path path) (hval : valueAt d path ≠ none) :
    ∃ d', cascadeDelete dt d path = .ok d' ∧ Shape d' ∧
      (d.Distinct → d'.Distinct) ∧ (d.Pruned → d'.Pruned) ∧
      ∀ ns, valueAt d' ns = if ns = path then none else valueAt d ns := by
  induction path generalizing d with
  | nil => exact absurd rfl hp.1
  | cons node next ih =>
    have hn := hp.head_ne
    obtain ⟨b, d₁, hget, hb, hd₁, hdist, hprune, hvb, hset⟩ := h.getItem_node dt hn
    -- the dictionary was there, so the lookup has created nothing
    obtain rfl : d₁ = d := by
      cases hv : d.get node with
      | some v => simpa [getItem, hv, eq_comm] using (Prod.ext_iff.mp hget).2
      | none => rw [valueAt_cons, hv] at hval; simp at hval
    rw [← hvb] at hval
    cases next with
    | nil =>
      obtain ⟨a, ha⟩ : ∃ a, b.get leafKey = some (.leaf a) := by
        cases hv : b.get leafKey with
        | some v => obtain ⟨a, rfl⟩ := hb.get_leaf hv; exact ⟨a, rfl⟩
        | none => simp [valueAt, hv] at hval
      have hb' : Shape (b.pop leafKey) := Dict.All.pop hb leafKey
      refine ⟨popIfEmpty d₁ node (b.pop leafKey), by simp [cascadeDelete, hget, ha],
        popIfEmpty_all h (fun _ => hn) hb',
        fun hd => popIfEmpty_distinct hd node ((hdist hd).1.pop leafKey),
        fun hd => popIfEmpty_all hd (fun hne => by simpa using hne)
          (Dict.All.pop (hprune hd) leafKey), fun ns => ?_⟩
      rw [valueAt_popIfEmpty _ _ hn]
      rcases ns with _ | ⟨x, q⟩
      · simp [hn]
      · by_cases hx : node = x
        · subst hx
          simp [valueAt_set_node, valueAt_pop_leaf hb, hvb]
        · simp [valueAt_set_node, hx, Ne.symm hx]
    | cons x next =>
      obtain ⟨b', hrec, hshape, hd', hp', hv'⟩ := ih hb hp.tail hval
      refine ⟨popIfEmpty d₁ node b', by simp [cascadeDelete, hget, hrec],
        popIfEmpty_all h (fun _ => hn) hshape,
        fun hd => popIfEmpty_distinct hd node (hd' (hdist hd).1),
        fun hd => popIfEmpty_all hd (fun hne => by simpa using hne) (hp' (hprune hd)),
        fun ns => ?_⟩
      rw [valueAt_popIfEmpty _ _ hn]
      rcases ns with _ | ⟨y, q⟩
      · simp [hn]
      · by_cases hy : node = y
        · subst hy
          simp [valueAt_set_node, hv', hvb]
        · simp [valueAt_set_node, hy, Ne.symm hy]

end MoteBroker.RecursiveDefaultDict
