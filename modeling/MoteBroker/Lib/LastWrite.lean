import Mathlib.Logic.Function.Basic
import Mathlib.Tactic.Common

/-!
Maps changed by lists of writes, the last write to a key winning.
-/

namespace LastWrite

variable {κ ν : Type*} [DecidableEq κ]

/-- The last value the writes give to a key. -/
def last : List (κ × ν) → κ → Option ν
  | [], _ => none
  | w :: ws, k => (last ws k).or (if w.1 = k then some w.2 else none)

/-- The map after the writes. -/
def overwrite (m : κ → ν) (ws : List (κ × ν)) (k : κ) : ν := (last ws k).getD (m k)

@[simp] lemma last_nil (k : κ) : last ([] : List (κ × ν)) k = none := rfl

lemma last_cons (w : κ × ν) (ws : List (κ × ν)) (k : κ) :
    last (w :: ws) k = (last ws k).or (if w.1 = k then some w.2 else none) := rfl

lemma last_append (xs ys : List (κ × ν)) (k : κ) :
    last (xs ++ ys) k = (last ys k).or (last xs k) := by
  induction xs with
  | nil => simp
  | cons x xs ih => rw [List.cons_append, last_cons, ih, last_cons, Option.or_assoc]

lemma last_eq_none {ws : List (κ × ν)} {k : κ} :
    last ws k = none ↔ ∀ w ∈ ws, w.1 ≠ k := by
  induction ws with
  | nil => simp
  | cons w ws ih =>
    rw [last_cons, Option.or_eq_none_iff, ih]
    by_cases h : w.1 = k <;> simp [h]

lemma mem_of_last {ws : List (κ × ν)} {k : κ} {v : ν} (h : last ws k = some v) :
    (k, v) ∈ ws := by
  induction ws with
  | nil => simp at h
  | cons w ws ih =>
    rw [last_cons, Option.or_eq_some_iff] at h
    rcases h with h | ⟨-, h⟩
    · exact List.mem_cons_of_mem _ (ih h)
    · obtain ⟨hk, hv⟩ : w.1 = k ∧ w.2 = v := by simpa using h
      rw [← hk, ← hv]; exact List.mem_cons_self

/-- Writes to one key: the last of them counts. -/
lemma last_map_const {α : Type*} (k : κ) (f : α → ν) (l : List α) :
    last (l.map fun x => (k, f x)) k = l.getLast?.map f := by
  induction l with
  | nil => rfl
  | cons x l ih =>
    rw [List.map_cons, last_cons, ih]
    cases l with
    | nil => simp
    | cons y l => simp [List.getLast?_cons]

/-- Writes whose keys are read off the keys of others, where only those with property `P` can
reach the key in question. -/
lemma last_map_filter {α κ' : Type*} [DecidableEq κ'] {p : α → κ} {q : α → κ'} {f : α → ν}
    {P : α → Prop} [DecidablePred P] {k : κ} {k' : κ'} (l : List α)
    (h : ∀ x ∈ l, p x = k ↔ P x ∧ q x = k') :
    last (l.map fun x => (p x, f x)) k =
      last ((l.filter fun x => P x).map fun x => (q x, f x)) k' := by
  induction l with
  | nil => rfl
  | cons x l ih =>
    have ih := ih fun y hy => h y (List.mem_cons_of_mem _ hy)
    have hx := h x List.mem_cons_self
    rw [List.map_cons, last_cons, ih]
    by_cases hP : P x
    · simp only [hP, true_and] at hx
      simp [hP, last_cons, hx]
    · simp only [hP, false_and, iff_false] at hx
      simp [hP, hx]

/-- Keys renamed by a map that tells the key in question from the others. -/
lemma last_map_congr {α κ' : Type*} [DecidableEq κ'] {p : α → κ} {q : α → κ'} {f : α → ν} {k : κ}
    {k' : κ'} (l : List α) (h : ∀ x ∈ l, p x = k ↔ q x = k') :
    last (l.map fun x => (p x, f x)) k = last (l.map fun x => (q x, f x)) k' := by
  have hall : l.filter (fun _ => decide True) = l := List.filter_eq_self.mpr (by simp)
  have := last_map_filter (f := f) (P := fun _ => True) l fun x hx => by simpa using h x hx
  rwa [hall] at this

/-- Where every key is written once, the last write is the write. -/
lemma last_eq_some_of_unique {ws : List (κ × ν)} {k : κ} {v : ν} (hm : (k, v) ∈ ws)
    (h : ∀ w ∈ ws, w.1 = k → w.2 = v) : last ws k = some v := by
  cases hlast : last ws k with
  | none => exact absurd rfl (last_eq_none.mp hlast _ hm)
  | some v' => rw [← h _ (mem_of_last hlast) rfl]

lemma last_eq_some_of_nodup {ws : List (κ × ν)} (h : (ws.map Prod.fst).Nodup) {k : κ} {v : ν} :
    last ws k = some v ↔ (k, v) ∈ ws := by
  refine ⟨mem_of_last, fun hm => ?_⟩
  induction ws with
  | nil => cases hm
  | cons w ws ih =>
    simp only [List.map_cons, List.nodup_cons] at h
    rw [last_cons]
    rcases List.mem_cons.mp hm with rfl | hm
    · have hnone : last ws k = none := last_eq_none.mpr fun x hx he =>
        h.1 (List.mem_map.mpr ⟨x, hx, he⟩)
      simp [hnone]
    · rw [ih h.2 hm]; rfl

lemma last_map_snd {ν' : Type*} (f : ν → ν') (ws : List (κ × ν)) (k : κ) :
    last (ws.map fun w => (w.1, f w.2)) k = (last ws k).map f := by
  induction ws with
  | nil => rfl
  | cons w ws ih =>
    rw [List.map_cons, last_cons, last_cons, ih]
    cases last ws k with
    | some v => simp
    | none => by_cases h : w.1 = k <;> simp [h]

@[simp] lemma overwrite_nil (m : κ → ν) : overwrite m [] = m := rfl

lemma overwrite_append (m : κ → ν) (xs ys : List (κ × ν)) :
    overwrite m (xs ++ ys) = overwrite (overwrite m xs) ys := by
  funext k
  simp only [overwrite, last_append]
  cases last ys k <;> simp

lemma overwrite_cons (m : κ → ν) (w : κ × ν) (ws : List (κ × ν)) :
    overwrite m (w :: ws) = overwrite (Function.update m w.1 w.2) ws := by
  funext k
  simp only [overwrite, last_cons]
  cases last ws k with
  | some v => simp
  | none =>
    by_cases h : w.1 = k
    · simp [h]
    · simp [h, Function.update_of_ne (Ne.symm h)]

/-- One write after the other, in the order of the list. -/
theorem overwrite_eq_foldl (m : κ → ν) (ws : List (κ × ν)) :
    overwrite m ws = ws.foldl (fun m w => Function.update m w.1 w.2) m := by
  induction ws generalizing m with
  | nil => rfl
  | cons w ws ih => rw [overwrite_cons, List.foldl_cons, ih]

lemma overwrite_of_notMem {m : κ → ν} {ws : List (κ × ν)} {k : κ} (h : ∀ w ∈ ws, w.1 ≠ k) :
    overwrite m ws k = m k := by
  rw [overwrite, last_eq_none.mpr h, Option.getD_none]

/-! ### Writes a map has already taken -/

/-- The map holds what the writes leave behind. -/
def Settled (m : κ → ν) (ws : List (κ × ν)) : Prop := ∀ k v, last ws k = some v → m k = v

lemma Settled.write {m : κ → ν} {xs : List (κ × ν)} (h : Settled m xs) (ys : List (κ × ν)) :
    Settled (overwrite m ys) (xs ++ ys) := by
  intro k v hk
  rw [last_append] at hk
  cases hy : last ys k with
  | some w => simpa [overwrite, hy] using hk
  | none =>
    rw [hy, Option.none_or] at hk
    simpa [overwrite, hy] using h k v hk

lemma Settled.drop {m : κ → ν} {xs ys : List (κ × ν)} (h : Settled m (xs ++ ys)) :
    Settled m ys := fun k v hk => h k v (by simp [last_append, hk])

end LastWrite
