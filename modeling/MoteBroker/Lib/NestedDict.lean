import Mathlib.Data.List.Nodup
import Mathlib.Tactic.Common

/-!
Dictionaries nested to any depth, as ordered lists of their items: a value is a leaf or
again such a dictionary. Reading and writing along a path, and what a write leaves alone.
-/

namespace NestedDict

/-- The items of a dictionary in insertion order. -/
inductive Dict (κ α : Type)
  | nil
  | leaf (key : κ) (val : α) (rest : Dict κ α)
  | node (key : κ) (sub : Dict κ α) (rest : Dict κ α)
  deriving DecidableEq, Repr

/-- The value of an item. -/
inductive Item (κ α : Type)
  | leaf (val : α)
  | node (sub : Dict κ α)
  deriving DecidableEq, Repr

variable {κ α : Type}

namespace Dict

def cons (x : κ) : Item κ α → Dict κ α → Dict κ α
  | .leaf a, r => .leaf x a r
  | .node s, r => .node x s r

def keys : Dict κ α → List κ
  | .nil => []
  | .leaf k _ r => k :: r.keys
  | .node k _ r => k :: r.keys

def items : Dict κ α → List (κ × Item κ α)
  | .nil => []
  | .leaf k a r => (k, .leaf a) :: r.items
  | .node k s r => (k, .node s) :: r.items

variable [DecidableEq κ]

def get : Dict κ α → κ → Option (Item κ α)
  | .nil, _ => none
  | .leaf k a r, x => if k = x then some (.leaf a) else r.get x
  | .node k s r, x => if k = x then some (.node s) else r.get x

/-- Assignment keeps the place of a key that is there and appends one that is not. -/
def set : Dict κ α → κ → Item κ α → Dict κ α
  | .nil, x, v => cons x v .nil
  | .leaf k a r, x, v => if k = x then cons x v r else .leaf k a (r.set x v)
  | .node k s r, x, v => if k = x then cons x v r else .node k s (r.set x v)

def pop : Dict κ α → κ → Dict κ α
  | .nil, _ => .nil
  | .leaf k a r, x => if k = x then r.pop x else .leaf k a (r.pop x)
  | .node k s r, x => if k = x then r.pop x else .node k s (r.pop x)

/-! ### One level -/

omit [DecidableEq κ] in
@[simp] lemma keys_cons (x : κ) (v : Item κ α) (r : Dict κ α) :
    (cons x v r).keys = x :: r.keys := by cases v <;> rfl

omit [DecidableEq κ] in
@[simp] lemma items_cons (x : κ) (v : Item κ α) (r : Dict κ α) :
    (cons x v r).items = (x, v) :: r.items := by cases v <;> rfl

omit [DecidableEq κ] in
lemma keys_eq_items (d : Dict κ α) : d.keys = d.items.map Prod.fst := by
  induction d with
  | nil => rfl
  | leaf k a r ih => simp [keys, items, ih]
  | node k s r _ ih => simp [keys, items, ih]

@[simp] lemma get_nil (x : κ) : (nil : Dict κ α).get x = none := rfl

@[simp] lemma get_cons (x y : κ) (v : Item κ α) (r : Dict κ α) :
    (cons x v r).get y = if x = y then some v else r.get y := by cases v <;> rfl

lemma get_set (d : Dict κ α) (x y : κ) (v : Item κ α) :
    (d.set x v).get y = if x = y then some v else d.get y := by
  induction d with
  | nil => simp [set]
  | leaf k a r ih | node k s r _ ih =>
    by_cases hk : k = x
    · subst hk; by_cases hy : k = y <;> simp [set, get, hy]
    · by_cases hy : k = y
      · subst hy; simp [set, get, hk, Ne.symm hk]
      · simp [set, get, hk, hy, ih]

@[simp] lemma get_set_self (d : Dict κ α) (x : κ) (v : Item κ α) :
    (d.set x v).get x = some v := by simp [get_set]

lemma get_set_ne (d : Dict κ α) {x y : κ} (v : Item κ α) (h : x ≠ y) :
    (d.set x v).get y = d.get y := by simp [get_set, h]

lemma set_set (d : Dict κ α) (x : κ) (v w : Item κ α) : (d.set x v).set x w = d.set x w := by
  induction d with
  | nil => cases v <;> simp [set, cons]
  | leaf k a r ih | node k s r _ ih =>
    by_cases hk : k = x
    · subst hk; cases v <;> simp [set, cons]
    · simp [set, hk, ih]

lemma get_pop (d : Dict κ α) (x y : κ) :
    (d.pop x).get y = if x = y then none else d.get y := by
  induction d with
  | nil => simp [pop]
  | leaf k a r ih | node k s r _ ih =>
    by_cases hk : k = x
    · subst hk
      rw [pop, if_pos rfl, ih]
      by_cases hy : k = y <;> simp [get, hy]
    · by_cases hy : k = y
      · subst hy; simp [pop, get, hk, Ne.symm hk]
      · simp [pop, get, hk, hy, ih]

lemma pop_set (d : Dict κ α) (x : κ) (v : Item κ α) : (d.set x v).pop x = d.pop x := by
  induction d with
  | nil => cases v <;> simp [set, cons, pop]
  | leaf k a r ih | node k s r _ ih =>
    by_cases hk : k = x
    · subst hk; cases v <;> simp [set, cons, pop]
    · simp [set, pop, hk, ih]

lemma pop_of_notMem {d : Dict κ α} {x : κ} (h : x ∉ d.keys) : d.pop x = d := by
  induction d with
  | nil => rfl
  | leaf k a r ih | node k s r _ ih =>
    have hk : k ≠ x := (List.ne_of_not_mem_cons h).symm
    rw [pop, if_neg hk, ih (List.not_mem_of_not_mem_cons h)]

lemma get_eq_none (d : Dict κ α) (x : κ) : d.get x = none ↔ x ∉ d.keys := by
  induction d with
  | nil => simp [keys]
  | leaf k a r ih | node k s r _ ih =>
    by_cases hk : k = x
    · simp [get, keys, hk]
    · simp [get, keys, hk, ih, Ne.symm hk]

lemma mem_keys_iff (d : Dict κ α) (x : κ) : x ∈ d.keys ↔ d.get x ≠ none := by
  rw [Ne, get_eq_none, not_not]

lemma mem_keys_set (d : Dict κ α) (x y : κ) (v : Item κ α) :
    y ∈ (d.set x v).keys ↔ y = x ∨ y ∈ d.keys := by
  rw [mem_keys_iff, mem_keys_iff, get_set]
  by_cases h : x = y <;> simp [h, eq_comm]

lemma mem_keys_pop (d : Dict κ α) (x y : κ) :
    y ∈ (d.pop x).keys ↔ y ≠ x ∧ y ∈ d.keys := by
  rw [mem_keys_iff, mem_keys_iff, get_pop]
  by_cases h : x = y <;> simp [h, eq_comm]

/-- A key that is new goes to the end. -/
lemma items_set_of_not_mem (d : Dict κ α) {x : κ} (v : Item κ α) (h : x ∉ d.keys) :
    (d.set x v).items = d.items ++ [(x, v)] := by
  induction d with
  | nil => cases v <;> rfl
  | leaf k a r ih | node k s r _ ih =>
    simp only [keys, List.mem_cons, not_or] at h
    simp [set, items, Ne.symm h.1, ih h.2]

omit [DecidableEq κ] in
lemma items_injective {d e : Dict κ α} (h : d.items = e.items) : d = e := by
  induction d generalizing e with
  | nil => cases e <;> simp_all [items]
  | leaf k a r ih =>
    cases e with
    | leaf k' a' r' =>
      simp only [items, List.cons.injEq, Prod.mk.injEq, Item.leaf.injEq] at h
      rw [h.1.1, h.1.2, ih h.2]
    | nil | node => simp [items] at h
  | node k s r _ ih =>
    cases e with
    | node k' s' r' =>
      simp only [items, List.cons.injEq, Prod.mk.injEq, Item.node.injEq] at h
      rw [h.1.1, h.1.2, ih h.2]
    | nil | leaf => simp [items] at h

/-! ### All levels -/

omit [DecidableEq κ] in
/-- Keys are distinct, in every dictionary of the nest. -/
def Distinct : Dict κ α → Prop
  | .nil => True
  | .leaf k _ r => k ∉ r.keys ∧ r.Distinct
  | .node k s r => k ∉ r.keys ∧ s.Distinct ∧ r.Distinct

/-- Every item, in every dictionary of the nest, satisfies `P`. -/
def All (P : κ → Item κ α → Prop) : Dict κ α → Prop
  | .nil => True
  | .leaf k a r => P k (.leaf a) ∧ r.All P
  | .node k s r => P k (.node s) ∧ s.All P ∧ r.All P

instance decDistinct : (d : Dict κ α) → Decidable d.Distinct
  | .nil => .isTrue trivial
  | .leaf k _ r =>
    haveI := decDistinct r
    inferInstanceAs (Decidable (k ∉ r.keys ∧ r.Distinct))
  | .node k s r =>
    haveI := decDistinct s
    haveI := decDistinct r
    inferInstanceAs (Decidable (k ∉ r.keys ∧ s.Distinct ∧ r.Distinct))

instance decAll {P : κ → Item κ α → Prop} [∀ k v, Decidable (P k v)] :
    (d : Dict κ α) → Decidable (d.All P)
  | .nil => .isTrue trivial
  | .leaf k a r =>
    haveI := decAll (P := P) r
    inferInstanceAs (Decidable (P k (.leaf a) ∧ r.All P))
  | .node k s r =>
    haveI := decAll (P := P) s
    haveI := decAll (P := P) r
    inferInstanceAs (Decidable (P k (.node s) ∧ s.All P ∧ r.All P))

end Dict

/-- Keys are distinct in the dictionary of the item, if it is one. -/
def Item.Distinct : Item κ α → Prop
  | .leaf _ => True
  | .node s => s.Distinct

def Item.All (P : κ → Item κ α → Prop) : Item κ α → Prop
  | .leaf _ => True
  | .node s => s.All P

namespace Dict

variable {P : κ → Item κ α → Prop}

@[simp] lemma distinct_cons (x : κ) (v : Item κ α) (r : Dict κ α) :
    (cons x v r).Distinct ↔ x ∉ r.keys ∧ v.Distinct ∧ r.Distinct := by
  cases v <;> simp [cons, Distinct, Item.Distinct]

@[simp] lemma all_cons (x : κ) (v : Item κ α) (r : Dict κ α) :
    (cons x v r).All P ↔ P x v ∧ v.All P ∧ r.All P := by
  cases v <;> simp [cons, All, Item.All]

lemma all_of_forall (h : ∀ k v, P k v) (d : Dict κ α) : d.All P := by
  induction d with
  | nil => trivial
  | leaf k a r ih => exact ⟨h k _, ih⟩
  | node k s r ihs ih => exact ⟨h k _, ihs, ih⟩

lemma All.of_mem_items {d : Dict κ α} (h : d.All P) {x : κ} {v : Item κ α}
    (hm : (x, v) ∈ d.items) : P x v ∧ v.All P := by
  induction d with
  | nil => cases hm
  | leaf k a r ih =>
    rcases List.mem_cons.mp hm with he | hm
    · cases he
      exact ⟨h.1, trivial⟩
    · exact ih h.2 hm
  | node k s r _ ih =>
    rcases List.mem_cons.mp hm with he | hm
    · cases he
      exact ⟨h.1, h.2.1⟩
    · exact ih h.2.2 hm

variable [DecidableEq κ]

lemma Distinct.get {d : Dict κ α} {x : κ} {v : Item κ α} (h : d.Distinct)
    (hx : d.get x = some v) : v.Distinct := by
  induction d with
  | nil => simp at hx
  | leaf k a r ih =>
    by_cases hk : k = x
    · simp only [Dict.get, hk, if_true, Option.some.injEq] at hx
      subst hx; trivial
    · exact ih h.2 (by simpa [Dict.get, hk] using hx)
  | node k s r _ ih =>
    by_cases hk : k = x
    · simp only [Dict.get, hk, if_true, Option.some.injEq] at hx
      subst hx; exact h.2.1
    · exact ih h.2.2 (by simpa [Dict.get, hk] using hx)

lemma Distinct.set {d : Dict κ α} (h : d.Distinct) (x : κ) {v : Item κ α} (hv : v.Distinct) :
    (d.set x v).Distinct := by
  induction d with
  | nil => simp [Dict.set, hv, keys, Distinct]
  | leaf k a r ih =>
    by_cases hk : k = x
    · subst hk; simp [Dict.set, hv, h.1, h.2]
    · simp [Dict.set, hk, Distinct, mem_keys_set, h.1, ih h.2]
  | node k s r _ ih =>
    by_cases hk : k = x
    · subst hk; simp [Dict.set, hv, h.1, h.2.2]
    · simp [Dict.set, hk, Distinct, mem_keys_set, h.1, h.2.1, ih h.2.2]

lemma Distinct.pop {d : Dict κ α} (h : d.Distinct) (x : κ) : (d.pop x).Distinct := by
  induction d with
  | nil => trivial
  | leaf k a r ih =>
    by_cases hk : k = x
    · simpa [Dict.pop, hk] using ih h.2
    · simp [Dict.pop, hk, Distinct, mem_keys_pop, h.1, ih h.2]
  | node k s r _ ih =>
    by_cases hk : k = x
    · simpa [Dict.pop, hk] using ih h.2.2
    · simp [Dict.pop, hk, Distinct, mem_keys_pop, h.1, h.2.1, ih h.2.2]

omit [DecidableEq κ] in
lemma Distinct.keys_nodup {d : Dict κ α} (h : d.Distinct) : d.keys.Nodup := by
  induction d with
  | nil => simp [keys]
  | leaf k a r ih => exact List.nodup_cons.mpr ⟨h.1, ih h.2⟩
  | node k s r _ ih => exact List.nodup_cons.mpr ⟨h.1, ih h.2.2⟩

lemma All.get {d : Dict κ α} {x : κ} {v : Item κ α} (h : d.All P) (hx : d.get x = some v) :
    P x v ∧ v.All P := by
  induction d with
  | nil => simp at hx
  | leaf k a r ih =>
    by_cases hk : k = x
    · simp only [Dict.get, hk, if_true, Option.some.injEq] at hx
      subst hx hk; exact ⟨h.1, trivial⟩
    · exact ih h.2 (by simpa [Dict.get, hk] using hx)
  | node k s r _ ih =>
    by_cases hk : k = x
    · simp only [Dict.get, hk, if_true, Option.some.injEq] at hx
      subst hx hk; exact ⟨h.1, h.2.1⟩
    · exact ih h.2.2 (by simpa [Dict.get, hk] using hx)

lemma All.set {d : Dict κ α} (h : d.All P) {x : κ} {v : Item κ α} (hp : P x v)
    (hv : v.All P) : (d.set x v).All P := by
  induction d with
  | nil => simp [Dict.set, hp, hv, All]
  | leaf k a r ih =>
    by_cases hk : k = x
    · simp [Dict.set, hk, hp, hv, h.2]
    · simp [Dict.set, hk, All, h.1, ih h.2]
  | node k s r _ ih =>
    by_cases hk : k = x
    · simp [Dict.set, hk, hp, hv, h.2.2]
    · simp [Dict.set, hk, All, h.1, h.2.1, ih h.2.2]

lemma All.pop {d : Dict κ α} (h : d.All P) (x : κ) : (d.pop x).All P := by
  induction d with
  | nil => trivial
  | leaf k a r ih =>
    by_cases hk : k = x
    · simpa [Dict.pop, hk] using ih h.2
    · simp [Dict.pop, hk, All, h.1, ih h.2]
  | node k s r _ ih =>
    by_cases hk : k = x
    · simpa [Dict.pop, hk] using ih h.2.2
    · simp [Dict.pop, hk, All, h.1, h.2.1, ih h.2.2]

lemma mem_items_iff {d : Dict κ α} (h : d.keys.Nodup) (x : κ) (v : Item κ α) :
    (x, v) ∈ d.items ↔ d.get x = some v := by
  induction d with
  | nil => simp [items]
  | leaf k a r ih | node k s r _ ih =>
    simp only [keys, List.nodup_cons] at h
    by_cases hk : k = x
    · subst hk
      have hno : (k, v) ∉ r.items := fun hm =>
        h.1 (by rw [keys_eq_items]; exact List.mem_map_of_mem hm)
      simp [items, Dict.get, hno, eq_comm]
    · have : ¬x = k := fun e => hk e.symm
      simp [items, Dict.get, hk, this, ih h.2]

lemma lookup_cons_ite [BEq κ] [LawfulBEq κ] {ν : Type} (k x : κ) (v : ν) (l : List (κ × ν)) :
    ((k, v) :: l).lookup x = if x = k then some v else l.lookup x := by
  rw [List.lookup_cons]
  by_cases h : x = k
  · simp [h]
  · have hx : (x == k) = false := by simpa using h
    simp [hx, h]

lemma lookup_items [BEq κ] [LawfulBEq κ] (d : Dict κ α) (x : κ) : d.items.lookup x = d.get x := by
  induction d with
  | nil => rfl
  | leaf k a r ih | node k s r _ ih =>
    rw [items, lookup_cons_ite, get, ih]
    by_cases hk : k = x
    · simp [hk]
    · simp [hk, Ne.symm hk]

/-- `acc.update(d)`: the items of `d` are assigned one after the other. -/
def update : Dict κ α → Dict κ α → Dict κ α
  | acc, .nil => acc
  | acc, .leaf k a r => update (acc.set k (.leaf a)) r
  | acc, .node k s r => update (acc.set k (.node s)) r

lemma items_update {acc d : Dict κ α} (hd : d.keys.Nodup) (h : ∀ k ∈ d.keys, k ∉ acc.keys) :
    (acc.update d).items = acc.items ++ d.items := by
  induction d generalizing acc with
  | nil => simp [update, items]
  | leaf k a r ih | node k s r _ ih =>
    simp only [keys, List.nodup_cons] at hd
    rw [update, ih hd.2]
    · rw [items_set_of_not_mem _ _ (h k (by simp [keys]))]
      simp [items]
    · intro x hx hm
      rcases (mem_keys_set _ _ _ _).mp hm with rfl | hm
      · exact hd.1 hx
      · exact h x (by simp [keys, hx]) hm

lemma nil_update {d : Dict κ α} (hd : d.Distinct) : (nil : Dict κ α).update d = d :=
  items_injective (by rw [items_update hd.keys_nodup (by simp [keys])]; rfl)

end Dict

end NestedDict
