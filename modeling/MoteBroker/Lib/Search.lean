import Mathlib.Data.List.Infix

/-!
The first place of a list in another one, and that what comes after it does not matter.
-/

namespace Search

variable {α : Type*} [DecidableEq α]

def find (pat : List α) : List α → Option ℕ
  | [] => if pat = [] then some 0 else none
  | a :: l => if pat <+: a :: l then some 0 else (find pat l).map (· + 1)

lemma find_spec {pat l : List α} {n : ℕ} (h : find pat l = some n) :
    pat <+: l.drop n ∧ ∀ m < n, ¬pat <+: l.drop m := by
  induction l generalizing n with
  | nil =>
    unfold find at h
    by_cases hnil : pat = []
    · rw [if_pos hnil] at h
      cases h
      exact ⟨by simp [hnil], fun m hm => absurd hm (Nat.not_lt_zero m)⟩
    · rw [if_neg hnil] at h
      cases h
  | cons a l ih =>
    unfold find at h
    by_cases hhere : pat <+: a :: l
    · rw [if_pos hhere] at h
      cases h
      exact ⟨hhere, fun m hm => absurd hm (Nat.not_lt_zero m)⟩
    · rw [if_neg hhere] at h
      obtain ⟨k, hk, rfl⟩ := Option.map_eq_some_iff.mp h
      obtain ⟨hthere, hbefore⟩ := ih hk
      refine ⟨hthere, fun m hm => ?_⟩
      cases m with
      | zero => exact hhere
      | succ m => exact hbefore m (Nat.lt_of_succ_lt_succ hm)

lemma exists_find {pat l : List α} {n : ℕ} (h : pat <+: l.drop n) :
    ∃ m ≤ n, find pat l = some m := by
  induction l generalizing n with
  | nil =>
    have hnil : pat = [] := by simpa using h
    exact ⟨0, Nat.zero_le n, if_pos hnil⟩
  | cons a l ih =>
    by_cases hhere : pat <+: a :: l
    · exact ⟨0, Nat.zero_le n, if_pos hhere⟩
    · cases n with
      | zero => exact absurd h hhere
      | succ n =>
        obtain ⟨m, hm, hfind⟩ := ih h
        refine ⟨m + 1, Nat.succ_le_succ hm, ?_⟩
        rw [find, if_neg hhere, hfind]
        rfl

/-- **The first place**, and no other one, is found. -/
theorem find_eq_some {pat l : List α} {n : ℕ} :
    find pat l = some n ↔ pat <+: l.drop n ∧ ∀ m < n, ¬pat <+: l.drop m := by
  refine ⟨find_spec, ?_⟩
  rintro ⟨hthere, hbefore⟩
  obtain ⟨m, hle, hfind⟩ := exists_find hthere
  rcases Nat.eq_or_lt_of_le hle with rfl | hlt
  · exact hfind
  · exact absurd (find_spec hfind).1 (hbefore m hlt)

theorem find_eq_none {pat l : List α} : find pat l = none ↔ ¬pat <:+: l := by
  constructor
  · rintro hnone ⟨pre, post, rfl⟩
    have hthere : pat <+: (pre ++ pat ++ post).drop pre.length := by
      rw [List.append_assoc, List.drop_left]
      exact List.prefix_append _ _
    obtain ⟨m, -, hfind⟩ := exists_find hthere
    rw [hnone] at hfind
    cases hfind
  · intro hno
    cases hfind : find pat l with
    | none => rfl
    | some n => exact absurd ((find_spec hfind).1.isInfix.trans (List.drop_suffix n l).isInfix) hno

lemma find_le {pat l : List α} {n : ℕ} (h : find pat l = some n) : n + pat.length ≤ l.length := by
  obtain ⟨hthere, hbefore⟩ := find_spec h
  have hle := hthere.length_le
  rw [List.length_drop] at hle
  by_contra hgt
  have hpat : pat = [] := List.eq_nil_of_length_eq_zero (by omega)
  subst hpat
  rw [List.length_nil] at hgt
  exact hbefore 0 (by omega) (List.nil_prefix)

lemma find_append {pat pre post : List α}
    (hfirst : ∀ m < pre.length, ¬pat <+: (pre ++ pat ++ post).drop m) :
    find pat (pre ++ pat ++ post) = some pre.length := by
  refine find_eq_some.mpr ⟨?_, hfirst⟩
  rw [List.append_assoc, List.drop_left]
  exact List.prefix_append _ _

/-- The list before and behind the first place. -/
lemma append_of_find {pat l : List α} {n : ℕ} (h : find pat l = some n) :
    ∃ pre post, l = pre ++ pat ++ post ∧ pre.length = n := by
  obtain ⟨post, hpost⟩ := (find_spec h).1
  refine ⟨l.take n, post, ?_, List.length_take_of_le (by have := find_le h; omega)⟩
  rw [List.append_assoc, hpost, List.take_append_drop]

/-- What is found in the beginning of a list is found in the list. -/
lemma find_mono {pat l l' : List α} {n : ℕ} (hl : l <+: l') (h : find pat l = some n) :
    find pat l' = some n := by
  obtain ⟨rest, rfl⟩ := hl
  have hle := find_le h
  obtain ⟨hthere, hbefore⟩ := find_spec h
  refine find_eq_some.mpr ⟨?_, fun m hm hearlier => ?_⟩
  · rw [List.drop_append_of_le_length (by omega)]
    exact List.prefix_append_of_prefix hthere
  · rw [List.drop_append_of_le_length (by omega)] at hearlier
    refine hbefore m hm (List.prefix_of_prefix_length_le hearlier (List.prefix_append _ _) ?_)
    rw [List.length_drop]
    omega

/-- What follows the first place is not needed to find it. -/
lemma find_take {pat l : List α} {n : ℕ} (h : find pat l = some n) :
    find pat (l.take (n + pat.length)) = some n := by
  have hthere : pat <+: (l.take (n + pat.length)).drop n := by
    rw [List.drop_take, Nat.add_sub_cancel_left]
    rw [List.prefix_take_iff]
    exact ⟨(find_spec h).1, le_rfl⟩
  obtain ⟨m, -, hfind⟩ := exists_find hthere
  have hm := find_mono (List.take_prefix _ l) hfind
  rw [h] at hm
  rw [hfind, hm]

end Search
