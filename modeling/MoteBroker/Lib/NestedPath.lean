import MoteBroker.Lib.NestedDict

/-!
Paths through nested dictionaries: the leaf a path ends in, the list of all leaves with
their paths, and the assignment that creates the dictionaries missing on its way.
-/

namespace NestedDict

variable {κ α : Type}

section
variable [DecidableEq κ]

/-- The leaf at the end of a path. -/
def Item.leafAt : Item κ α → List κ → Option α
  | .leaf a, [] => some a
  | .node d, k :: p => (d.get k).bind fun v => v.leafAt p
  | _, _ => none

def Dict.leafAt (d : Dict κ α) (p : List κ) : Option α := (Item.node d).leafAt p

@[simp] lemma Item.leafAt_leaf_nil (a : α) : (Item.leaf a : Item κ α).leafAt [] = some a := rfl

@[simp] lemma Item.leafAt_leaf_cons (a : α) (k : κ) (p : List κ) :
    (Item.leaf a : Item κ α).leafAt (k :: p) = none := rfl

@[simp] lemma Item.leafAt_node (d : Dict κ α) (p : List κ) :
    (Item.node d).leafAt p = d.leafAt p := rfl

@[simp] lemma Dict.leafAt_nil (d : Dict κ α) : d.leafAt [] = none := rfl

@[simp] lemma Dict.leafAt_cons (d : Dict κ α) (k : κ) (p : List κ) :
    d.leafAt (k :: p) = (d.get k).bind fun v => v.leafAt p := rfl

@[simp] lemma Dict.nil_leafAt (p : List κ) : (Dict.nil : Dict κ α).leafAt p = none := by
  cases p <;> simp

lemma Dict.leafAt_set (d : Dict κ α) (x k : κ) (v : Item κ α) (p : List κ) :
    (d.set x v).leafAt (k :: p) = if x = k then v.leafAt p else d.leafAt (k :: p) := by
  rw [leafAt_cons, leafAt_cons, get_set]
  by_cases h : x = k <;> simp [h]

/-- The dictionary at the end of a path. -/
def Item.dictAt : Item κ α → List κ → Option (Dict κ α)
  | .node d, [] => some d
  | .node d, k :: p => (d.get k).bind fun v => v.dictAt p
  | .leaf _, _ => none

@[simp] lemma Item.dictAt_leaf (a : α) (p : List κ) :
    (Item.leaf a : Item κ α).dictAt p = none := by
  cases p <;> rfl

@[simp] lemma Item.dictAt_node_nil (d : Dict κ α) : (Item.node d).dictAt [] = some d := rfl

@[simp] lemma Item.dictAt_node_cons (d : Dict κ α) (k : κ) (p : List κ) :
    (Item.node d).dictAt (k :: p) = (d.get k).bind fun v => v.dictAt p := rfl

lemma Item.leafAt_concat (v : Item κ α) (p : List κ) (k : κ) :
    v.leafAt (p ++ [k]) = (v.dictAt p).bind fun d => (d.get k).bind fun w => w.leafAt [] := by
  induction p generalizing v with
  | nil => cases v <;> simp
  | cons x p ih => cases v <;> simp [ih, Option.bind_assoc]

end

/-! ### All leaves -/

/-- The leaves with their paths, in the order of the items. -/
def Dict.leaves : Dict κ α → List (List κ × α)
  | .nil => []
  | .leaf k a r => ([k], a) :: r.leaves
  | .node k s r => s.leaves.map (fun pa => (k :: pa.1, pa.2)) ++ r.leaves

/-- The leaves of an item with their paths. -/
def Item.leaves : Item κ α → List (List κ × α)
  | .leaf a => [([], a)]
  | .node d => d.leaves

/-- A leaf of a dictionary is a leaf of one of its items. -/
lemma Dict.mem_leaves_iff_items {d : Dict κ α} {p : List κ} {a : α} :
    (p, a) ∈ d.leaves ↔ ∃ k v q, (k, v) ∈ d.items ∧ (q, a) ∈ v.leaves ∧ p = k :: q := by
  induction d with
  | nil => simp [leaves, items]
  | leaf k b r ih =>
    simp only [leaves, items, List.mem_cons, ih]
    refine ⟨?_, ?_⟩
    · rintro (h | ⟨x, v, q, hm, hq, rfl⟩)
      · cases h
        exact ⟨k, .leaf a, [], .inl rfl, by simp [Item.leaves], rfl⟩
      · exact ⟨x, v, q, .inr hm, hq, rfl⟩
    · rintro ⟨x, v, q, h | hm, hq, rfl⟩
      · cases h
        simp only [Item.leaves, List.mem_singleton, Prod.mk.injEq] at hq
        obtain ⟨rfl, rfl⟩ := hq
        exact .inl rfl
      · exact .inr ⟨x, v, q, hm, hq, rfl⟩
  | node k s r _ ih =>
    simp only [leaves, items, List.mem_append, List.mem_map, List.mem_cons, ih]
    refine ⟨?_, ?_⟩
    · rintro (⟨⟨q, b⟩, hq, h⟩ | ⟨x, v, q, hm, hq, rfl⟩)
      · cases h
        exact ⟨k, .node s, q, .inl rfl, hq, rfl⟩
      · exact ⟨x, v, q, .inr hm, hq, rfl⟩
    · rintro ⟨x, v, q, h | hm, hq, rfl⟩
      · cases h
        exact .inl ⟨(q, a), hq, rfl⟩
      · exact .inr ⟨x, v, q, hm, hq, rfl⟩

lemma Dict.leaves_eq_flatMap (d : Dict κ α) :
    d.leaves = d.items.flatMap fun e => e.2.leaves.map fun pa => (e.1 :: pa.1, pa.2) := by
  induction d with
  | nil => rfl
  | leaf k a r ih | node k s r _ ih => simp [leaves, items, Item.leaves, ih]

lemma Dict.head_mem_keys {d : Dict κ α} {p : List κ} {a : α} (h : (p, a) ∈ d.leaves) :
    ∃ k q, p = k :: q ∧ k ∈ d.keys := by
  induction d with
  | nil => simp [leaves] at h
  | leaf k b r ih =>
    rcases List.mem_cons.mp h with h | h
    · cases h; exact ⟨k, [], rfl, by simp [keys]⟩
    · obtain ⟨x, q, hp, hx⟩ := ih h
      exact ⟨x, q, hp, by simp [keys, hx]⟩
  | node k s r _ ih =>
    rcases List.mem_append.mp h with h | h
    · obtain ⟨pa, -, he⟩ := List.mem_map.mp h
      cases he; exact ⟨k, pa.1, rfl, by simp [keys]⟩
    · obtain ⟨x, q, hp, hx⟩ := ih h
      exact ⟨x, q, hp, by simp [keys, hx]⟩

lemma Dict.not_mem_leaves {d : Dict κ α} {k : κ} (h : k ∉ d.keys) (q : List κ) (a : α) :
    (k :: q, a) ∉ d.leaves := by
  intro hm
  obtain ⟨x, p, hp, hx⟩ := head_mem_keys hm
  cases hp; exact h hx

/-- The enumeration lists exactly the leaves that paths reach. -/
theorem Dict.mem_leaves_iff [DecidableEq κ] {d : Dict κ α} (h : d.Distinct) (p : List κ)
    (a : α) : (p, a) ∈ d.leaves ↔ d.leafAt p = some a := by
  induction d generalizing p with
  | nil => simp [leaves]
  | leaf k b r ih =>
    rcases p with _ | ⟨x, q⟩
    · have := ih h.2 []
      simp only [leafAt_nil, reduceCtorEq, iff_false] at this
      simp [leaves, this]
    · by_cases hx : k = x
      · subst hx
        have hno := not_mem_leaves h.1 q a
        rcases q with _ | ⟨y, q⟩ <;> simp [leaves, get, hno, eq_comm]
      · have := ih h.2 (x :: q)
        simpa [leaves, get, hx, Ne.symm hx] using this
  | node k s r ihs ih =>
    rcases p with _ | ⟨x, q⟩
    · have := ih h.2.2 []
      simp only [leafAt_nil, reduceCtorEq, iff_false] at this
      simp [leaves, this]
    · by_cases hx : k = x
      · subst hx
        have hno := not_mem_leaves h.1 q a
        have := ihs h.2.1 q
        simp [leaves, get, hno, this]
      · have := ih h.2.2 (x :: q)
        simpa [leaves, get, hx, Ne.symm hx] using this

lemma Dict.leaves_nodup {d : Dict κ α} (h : d.Distinct) : (d.leaves.map Prod.fst).Nodup := by
  induction d with
  | nil => simp [leaves]
  | leaf k a r ih =>
    simp only [leaves, List.map_cons, List.nodup_cons]
    refine ⟨fun hm => ?_, ih h.2⟩
    obtain ⟨⟨p, b⟩, hp, rfl⟩ := List.mem_map.mp hm
    exact not_mem_leaves h.1 [] b hp
  | node k s r ihs ih =>
    simp only [leaves, List.map_append, List.map_map]
    refine List.Nodup.append ?_ (ih h.2.2) ?_
    · have : (Prod.fst ∘ fun pa : List κ × α => (k :: pa.1, pa.2)) =
          (List.cons k) ∘ Prod.fst := rfl
      rw [this, ← List.map_map]
      exact (ihs h.2.1).map (List.cons_injective)
    · intro p hp hr
      obtain ⟨⟨q, b⟩, -, rfl⟩ := List.mem_map.mp hp
      obtain ⟨⟨q', b'⟩, hq', he⟩ := List.mem_map.mp hr
      simp only [Function.comp] at he
      exact not_mem_leaves h.1 q b' (by rw [← he]; exact hq')

lemma Item.mem_leaves_iff [DecidableEq κ] {v : Item κ α} (h : v.Distinct) (p : List κ) (a : α) :
    (p, a) ∈ v.leaves ↔ v.leafAt p = some a := by
  cases v with
  | leaf b => cases p <;> simp [leaves, eq_comm]
  | node d => exact Dict.mem_leaves_iff h p a

/-- Removing a key removes the leaves below it. -/
lemma Dict.leaves_pop [DecidableEq κ] (d : Dict κ α) (x : κ) :
    (d.pop x).leaves = d.leaves.filter fun pa => pa.1.head? ≠ some x := by
  induction d with
  | nil => rfl
  | leaf k a r ih => by_cases hk : k = x <;> simp [pop, leaves, hk, ih]
  | node k s r _ ih =>
    by_cases hk : k = x <;> simp [pop, leaves, hk, ih, List.filter_map, Function.comp_def]

/-- What holds of the leaves that paths reach holds of all leaves. -/
lemma Dict.all_of_leafAt [DecidableEq κ] {d : Dict κ α} (hd : d.Distinct) {Q : α → Prop}
    (h : ∀ p a, d.leafAt p = some a → Q a) : d.All fun _ v => ∀ a, v = .leaf a → Q a := by
  simp only [← mem_leaves_iff hd] at h
  clear hd
  induction d with
  | nil => trivial
  | leaf k a r ih =>
    refine ⟨fun b hb => ?_, ih fun p b hb => h p b (List.mem_cons_of_mem _ hb)⟩
    cases hb; exact h [k] a List.mem_cons_self
  | node k s r ihs ih =>
    refine ⟨fun b hb => (nomatch hb), ihs fun p b hb => ?_, ih fun p b hb => ?_⟩
    · exact h (k :: p) b (List.mem_append_left _ (List.mem_map.mpr ⟨(p, b), hb, rfl⟩))
    · exact h p b (List.mem_append_right _ hb)

/-- No dictionary below the root is empty. -/
def Dict.Pruned (d : Dict κ α) : Prop := d.All fun _ v => v ≠ .node .nil

def Item.Pruned (v : Item κ α) : Prop := v.All fun _ w => w ≠ .node .nil

/-- A pruned dictionary is empty only when it holds no leaf. -/
theorem Dict.exists_leaf [DecidableEq κ] {d : Dict κ α} (hp : d.Pruned) (hd : d ≠ .nil) :
    ∃ p a, d.leafAt p = some a := by
  induction d with
  | nil => exact absurd rfl hd
  | leaf k a r => exact ⟨[k], a, by simp [get]⟩
  | node k s r ihs =>
    obtain ⟨p, a, h⟩ := ihs hp.2.1 (fun e => hp.1 (by rw [e]))
    exact ⟨k :: p, a, by simpa [get] using h⟩

/-! ### Equality -/

/-- Induction on the items under the keys. -/
theorem Item.induction_get [DecidableEq κ] {P : Item κ α → Prop} (leaf : ∀ a, P (.leaf a))
    (node : ∀ d, (∀ k v, d.get k = some v → P v) → P (.node d)) (v : Item κ α) : P v := by
  have hall : ∀ d : Dict κ α, d.All fun _ v => P v := by
    intro d
    induction d with
    | nil => trivial
    | leaf k a r ih => exact ⟨leaf a, ih⟩
    | node k s r ihs ih => exact ⟨node s fun x v hv => (ihs.get hv).1, ihs, ih⟩
  cases v with
  | leaf a => exact leaf a
  | node d => exact node d fun k v hv => ((hall d).get hv).1

/-- Equality of items, whatever the order of the keys. -/
inductive Item.Equal [DecidableEq κ] : Item κ α → Item κ α → Prop
  | leaf (a : α) : Equal (.leaf a) (.leaf a)
  | node {d e : Dict κ α} (keys : ∀ k, k ∈ d.keys ↔ k ∈ e.keys)
    (vals : ∀ k v w, d.get k = some v → e.get k = some w → Equal v w) : Equal (.node d) (.node e)

lemma Item.Pruned.exists_leaf [DecidableEq κ] {d : Dict κ α} (h : d.Pruned) {k : κ}
    {v : Item κ α} (hv : d.get k = some v) : v.Pruned ∧ ∃ p a, v.leafAt p = some a := by
  obtain ⟨hne, hpruned⟩ := Dict.All.get h hv
  refine ⟨hpruned, ?_⟩
  cases v with
  | leaf a => exact ⟨[], a, rfl⟩
  | node s => exact Dict.exists_leaf hpruned fun he => hne (by rw [he])

/-- Without empty dictionaries, the leaves determine an item. -/
theorem Item.equal_of_leafAt [DecidableEq κ] {v w : Item κ α} (hv : v.Pruned) (hw : w.Pruned)
    (h : ∀ p, v.leafAt p = w.leafAt p) : v.Equal w := by
  induction v using Item.induction_get generalizing w with
  | leaf a =>
    have hroot := h []
    cases w with
    | leaf b =>
      cases hroot
      exact .leaf a
    | node e => cases hroot
  | node d ih =>
    cases w with
    | leaf b => cases h []
    | node e =>
      -- a key with a leaf below it in one dictionary is a key of the other
      have hkey : ∀ {d e : Dict κ α}, d.Pruned → (∀ p, d.leafAt p = e.leafAt p) →
          ∀ k, k ∈ d.keys → k ∈ e.keys := by
        intro d e hd hde k hk
        obtain ⟨v, hv⟩ := Option.ne_none_iff_exists'.mp ((Dict.mem_keys_iff d k).mp hk)
        obtain ⟨-, p, a, ha⟩ := Item.Pruned.exists_leaf hd hv
        have hleaf := hde (k :: p)
        rw [Dict.leafAt_cons, Dict.leafAt_cons, hv, Option.bind_some, ha] at hleaf
        rw [Dict.mem_keys_iff]
        intro hnone
        rw [hnone] at hleaf
        cases hleaf
      refine .node (fun k => ⟨hkey hv h k, hkey hw (fun p => (h p).symm) k⟩) ?_
      intro k x y hx hy
      refine ih k x hx (Item.Pruned.exists_leaf hv hx).1 (Item.Pruned.exists_leaf hw hy).1 ?_
      intro p
      have hleaf := h (k :: p)
      simpa [hx, hy] using hleaf

/-! ### Changing every leaf -/

def Dict.map {β : Type} (f : α → β) : Dict κ α → Dict κ β
  | .nil => .nil
  | .leaf k a r => .leaf k (f a) (r.map f)
  | .node k s r => .node k (s.map f) (r.map f)

@[simp] lemma Dict.keys_map {β : Type} (f : α → β) (d : Dict κ α) :
    (d.map f).keys = d.keys := by
  induction d with
  | nil => rfl
  | leaf k a r ih => simp [map, keys, ih]
  | node k s r _ ih => simp [map, keys, ih]

@[simp] lemma Dict.distinct_map {β : Type} (f : α → β) (d : Dict κ α) :
    (d.map f).Distinct ↔ d.Distinct := by
  induction d with
  | nil => rfl
  | leaf k a r ih => simp [map, Distinct, ih]
  | node k s r ihs ih => simp [map, Distinct, ihs, ih]

lemma Dict.leafAt_map [DecidableEq κ] {β : Type} (f : α → β) (d : Dict κ α) (p : List κ) :
    (d.map f).leafAt p = (d.leafAt p).map f := by
  induction d generalizing p with
  | nil => simp [map]
  | leaf k a r ih =>
    rcases p with _ | ⟨x, q⟩
    · rfl
    · by_cases hx : k = x
      · rcases q with _ | ⟨y, q⟩ <;> simp [map, get, hx]
      · simpa [map, get, hx] using ih (x :: q)
  | node k s r ihs ih =>
    rcases p with _ | ⟨x, q⟩
    · rfl
    · by_cases hx : k = x
      · simpa [map, get, hx] using ihs q
      · simpa [map, get, hx] using ih (x :: q)

lemma Dict.pruned_map {β : Type} (f : α → β) {d : Dict κ α} (h : d.Pruned) :
    (d.map f).Pruned := by
  induction d with
  | nil => trivial
  | leaf k a r ih => exact ⟨by simp, ih h.2⟩
  | node k s r ihs ih =>
    refine ⟨fun he => h.1 ?_, ihs h.2.1, ih h.2.2⟩
    cases s with
    | nil => rfl
    | leaf | node => cases he

def Item.map {β : Type} (f : α → β) : Item κ α → Item κ β
  | .leaf a => .leaf (f a)
  | .node d => .node (d.map f)

lemma Item.leafAt_map [DecidableEq κ] {β : Type} (f : α → β) (v : Item κ α) (p : List κ) :
    (v.map f).leafAt p = (v.leafAt p).map f := by
  cases v with
  | leaf a => cases p <;> rfl
  | node d => exact d.leafAt_map f p

lemma Item.pruned_map {β : Type} (f : α → β) {v : Item κ α} (h : v.Pruned) :
    (v.map f).Pruned := by
  cases v with
  | leaf a => trivial
  | node d => exact Dict.pruned_map f h

lemma Dict.get_map [DecidableEq κ] {β : Type} (f : α → β) (d : Dict κ α) (x : κ) :
    (d.map f).get x = (d.get x).map (Item.map f) := by
  induction d with
  | nil => rfl
  | leaf k a r ih | node k s r _ ih =>
    by_cases hk : k = x <;> simp [map, get, hk, ih, Item.map]

/-! ### Assignment along a path -/

section
variable [DecidableEq κ]

/-- Assignment at the end of a path. Dictionaries missing on the way are created; a leaf on
the way, or the empty path, is an error. -/
def Dict.setPath (a : α) : Dict κ α → List κ → Option (Dict κ α)
  | _, [] => none
  | d, [k] => some (d.set k (.leaf a))
  | d, k :: x :: p =>
    match d.get k with
    | none => (Dict.setPath a .nil (x :: p)).map fun s => d.set k (.node s)
    | some (.node s) => (Dict.setPath a s (x :: p)).map fun s' => d.set k (.node s')
    | some (.leaf _) => none

/-- Every leaf lies at depth `n`, and nothing else does. -/
def Item.Uniform : ℕ → Item κ α → Prop
  | 0, .leaf _ => True
  | n + 1, .node d => ∀ k v, d.get k = some v → Item.Uniform n v
  | _, _ => False

lemma Item.uniform_nil (n : ℕ) : (Item.node .nil : Item κ α).Uniform (n + 1) := by
  simp [Item.Uniform]

lemma Item.Uniform.cons_leaf {r : Dict κ α} (h : (Item.node r).Uniform 1) (k : κ) (a : α) :
    (Item.node (.leaf k a r)).Uniform 1 := by
  intro x v hv
  rw [Dict.get] at hv
  split_ifs at hv
  · cases hv
    trivial
  · exact h x v hv

lemma Item.Uniform.set {n : ℕ} {d : Dict κ α} (h : (Item.node d).Uniform (n + 1)) (k : κ)
    {v : Item κ α} (hv : v.Uniform n) : (Item.node (d.set k v)).Uniform (n + 1) := by
  intro x w hw
  rw [Dict.get_set] at hw
  by_cases hx : k = x
  · rw [if_pos hx, Option.some.injEq] at hw
    rwa [← hw]
  · rw [if_neg hx] at hw
    exact h x w hw

lemma Item.Uniform.map {β : Type} (f : α → β) {n : ℕ} {v : Item κ α} (h : v.Uniform n) :
    (v.map f).Uniform n := by
  induction n generalizing v with
  | zero => cases v with
    | leaf a => trivial
    | node d => exact h
  | succ n ih => cases v with
    | leaf a => exact h
    | node d =>
      intro k w hw
      rw [Dict.get_map] at hw
      obtain ⟨v, hv, rfl⟩ := Option.map_eq_some_iff.mp hw
      exact ih (h k v hv)

lemma Item.Uniform.leafAt_eq_none {n : ℕ} {v : Item κ α} (h : v.Uniform n) {p : List κ}
    (hp : p.length ≠ n) : v.leafAt p = none := by
  induction p generalizing n v with
  | nil =>
    cases v with
    | leaf a => cases n with
      | zero => simp at hp
      | succ n => exact h.elim
    | node d => rfl
  | cons k p ih =>
    cases v with
    | leaf a => rfl
    | node d => cases n with
      | zero => exact h.elim
      | succ n =>
        rw [leafAt_node, Dict.leafAt_cons]
        cases hk : d.get k with
        | none => rfl
        | some w => exact ih (h k w hk) (by simpa using hp)

/-- Without empty dictionaries, the leaves determine the depth. -/
lemma Item.uniform_of_leafAt {n : ℕ} {v : Item κ α} (hv : v.Pruned) (hroot : v = .node .nil → n ≠ 0)
    (h : ∀ p a, v.leafAt p = some a → p.length = n) : v.Uniform n := by
  induction v using Item.induction_get generalizing n with
  | leaf a =>
    obtain rfl : 0 = n := h [] a rfl
    trivial
  | node d ih =>
    cases n with
    | zero =>
      obtain ⟨p, a, ha⟩ := Dict.exists_leaf hv fun he => hroot (by rw [he]) rfl
      obtain rfl := List.eq_nil_of_length_eq_zero (h p a ha)
      cases ha
    | succ n =>
      intro k w hw
      obtain ⟨hpruned, p, a, ha⟩ := Item.Pruned.exists_leaf hv hw
      refine ih k w hw hpruned ?_ fun q b hb => ?_
      · rintro rfl
        rw [leafAt_node, Dict.nil_leafAt] at ha
        cases ha
      · have hlength := h (k :: q) b (by rw [leafAt_node, Dict.leafAt_cons, hw]; exact hb)
        exact Nat.succ.inj hlength

/-- Without empty dictionaries, every key is on the way to a leaf. -/
lemma Dict.all_of_paths {d : Dict κ α} (hd : d.Distinct) (hp : d.Pruned) {P : κ → Prop}
    (h : ∀ p a, d.leafAt p = some a → ∀ k ∈ p, P k) : d.All fun k _ => P k := by
  simp only [← mem_leaves_iff hd] at h
  induction d with
  | nil => trivial
  | leaf k a r ih =>
    exact ⟨h [k] a List.mem_cons_self k List.mem_cons_self,
      ih hd.2 hp.2 fun p b hb => h p b (List.mem_cons_of_mem _ hb)⟩
  | node k s r ihs ih =>
    have hbelow : ∀ p b, (p, b) ∈ s.leaves → ∀ x ∈ k :: p, P x := fun p b hb =>
      h (k :: p) b (List.mem_append_left _ (List.mem_map.mpr ⟨(p, b), hb, rfl⟩))
    obtain ⟨p, a, ha⟩ := Dict.exists_leaf hp.2.1 fun he => hp.1 (by rw [he])
    refine ⟨hbelow p a ((mem_leaves_iff hd.2.1 p a).mpr ha) k List.mem_cons_self,
      ihs hd.2.1 hp.2.1 fun q b hb x hx => hbelow q b hb x (List.mem_cons_of_mem _ hx),
      ih hd.2.2 hp.2.2 fun q b hb => h q b (List.mem_append_right _ hb)⟩

/-- A dictionary in an item of uniform depth has the depth that is left. -/
lemma Item.Uniform.dictAt {n m : ℕ} {v : Item κ α} (h : v.Uniform n) {p : List κ} {d : Dict κ α}
    (hd : v.dictAt p = some d) (hn : p.length + m = n) : (Item.node d).Uniform m := by
  induction p generalizing v n with
  | nil =>
    cases v with
    | leaf a => cases hd
    | node e =>
      cases hd
      obtain rfl : m = n := by simpa using hn
      exact h
  | cons k p ih =>
    cases v with
    | leaf a => cases hd
    | node e =>
      obtain ⟨w, hw, hd⟩ := Option.bind_eq_some_iff.mp hd
      cases n with
      | zero => exact h.elim
      | succ n => exact ih (h k w hw) hd (by simp only [List.length_cons] at hn; omega)

/-- What an assignment does: in a dictionary of uniform depth it succeeds, changes the one
leaf, and keeps the depth, the distinct keys and the absence of empty dictionaries. -/
theorem Dict.setPath_spec (a : α) {n : ℕ} {d : Dict κ α} (h : (Item.node d).Uniform (n + 1))
    {p : List κ} (hp : p.length = n + 1) :
    ∃ d', d.setPath a p = some d' ∧ (Item.node d').Uniform (n + 1) ∧ d' ≠ .nil ∧
      (d.Distinct → d'.Distinct) ∧ (d.Pruned → d'.Pruned) ∧
      ∀ q, d'.leafAt q = if q = p then some a else d.leafAt q := by
  have hne : ∀ (e : Dict κ α) k v, e.set k v ≠ .nil := fun e k v he => by
    have := get_set_self e k v
    rw [he] at this; simp at this
  induction n generalizing d p with
  | zero =>
    obtain ⟨k, rfl⟩ := List.length_eq_one_iff.mp hp
    refine ⟨_, rfl, h.set k trivial, hne _ _ _, fun hd => hd.set k trivial,
      fun hd => All.set hd (by simp) trivial, fun q => ?_⟩
    rcases q with _ | ⟨x, q⟩
    · simp
    · rw [leafAt_set]
      by_cases hx : k = x
      · subst hx
        rw [if_pos rfl]
        rcases q with _ | ⟨y, q⟩
        · simp
        · have h0 : (d.leafAt (k :: y :: q)) = none := by
            rw [← Item.leafAt_node]
            exact h.leafAt_eq_none (by simp)
          simp only [Item.leafAt_leaf_cons, h0]; simp
      · simp [hx, Ne.symm hx]
  | succ n ih =>
    obtain ⟨k, x, p, rfl⟩ : ∃ k x q, p = k :: x :: q := by
      rcases p with _ | ⟨k, _ | ⟨x, q⟩⟩ <;> simp_all
    -- the dictionary under `k`, or the empty one that is created for it
    obtain ⟨s, hs, hsu, hsd, hsp, hsl⟩ : ∃ s : Dict κ α,
        d.setPath a (k :: x :: p) = (s.setPath a (x :: p)).map (fun s' => d.set k (.node s')) ∧
        (Item.node s).Uniform (n + 1) ∧ (d.Distinct → s.Distinct) ∧ (d.Pruned → s.Pruned) ∧
        ∀ q, s.leafAt q = d.leafAt (k :: q) := by
      cases hk : d.get k with
      | none =>
        exact ⟨.nil, by simp [setPath, hk], Item.uniform_nil n, fun _ => trivial,
          fun _ => trivial, fun q => by simp [hk]⟩
      | some v =>
        have hv := h k v hk
        cases v with
        | leaf b => exact hv.elim
        | node s =>
          exact ⟨s, by simp [setPath, hk], hv, fun hd => hd.get hk, fun hd => (All.get hd hk).2,
            fun q => by simp [hk]⟩
    obtain ⟨s', hset, hu', hnil', hd', hp', hl'⟩ := ih hsu (p := x :: p) (by simpa using hp)
    refine ⟨d.set k (.node s'), by rw [hs, hset]; rfl, h.set k hu', hne _ _ _,
      fun hd => hd.set k (hd' (hsd hd)),
      fun hd => All.set hd (by simpa using hnil') (hp' (hsp hd)), fun q => ?_⟩
    rcases q with _ | ⟨y, q⟩
    · simp
    · rw [leafAt_set]
      by_cases hy : k = y
      · subst hy
        rw [if_pos rfl, Item.leafAt_node, hl', hsl]
        simp
      · simp [hy, Ne.symm hy]

end

end NestedDict
