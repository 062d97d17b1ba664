import MoteBroker.Lib.Search

/-!
Lists taken apart at each place of a pattern, from the left.
-/

namespace Search

variable {α : Type*} [DecidableEq α]

def splitLoop (pat : List α) : ℕ → List α → List (List α)
  | 0, l => [l]
  | turns + 1, l =>
    match find pat l with
    | none => [l]
    | some n => l.take n :: splitLoop pat turns (l.drop (n + pat.length))

/-- The pieces between the places of a pattern that is not empty. -/
def split (pat l : List α) : List (List α) := splitLoop pat l.length l

variable {pat : List α}

lemma find_nil (hpat : pat ≠ []) : find pat [] = none := if_neg hpat

/-- As many turns as there are letters are enough. -/
lemma splitLoop_eq (hpat : pat ≠ []) {turns turns' : ℕ} {l : List α} (h : l.length ≤ turns)
    (h' : l.length ≤ turns') : splitLoop pat turns l = splitLoop pat turns' l := by
  have hlength := List.length_pos_iff.mpr hpat
  induction turns generalizing l turns' with
  | zero =>
    obtain rfl := List.eq_nil_of_length_eq_zero (Nat.le_zero.mp h)
    cases turns' with
    | zero => rfl
    | succ turns' => simp only [splitLoop, find_nil hpat]
  | succ turns ih =>
    cases turns' with
    | zero =>
      obtain rfl := List.eq_nil_of_length_eq_zero (Nat.le_zero.mp h')
      simp only [splitLoop, find_nil hpat]
    | succ turns' =>
      unfold splitLoop
      cases hfind : find pat l with
      | none => rfl
      | some n =>
        have hle := find_le hfind
        dsimp only
        exact congrArg (List.cons _)
          (ih (by rw [List.length_drop]; omega) (by rw [List.length_drop]; omega))

lemma split_ne_nil (pat l : List α) : split pat l ≠ [] := by
  unfold split
  cases l.length with
  | zero => exact List.cons_ne_nil _ _
  | succ turns =>
    unfold splitLoop
    split <;> exact List.cons_ne_nil _ _

lemma split_of_not_infix {l : List α} (h : ¬pat <:+: l) : split pat l = [l] := by
  unfold split
  cases l.length with
  | zero => rfl
  | succ turns => simp only [splitLoop, find_eq_none.mpr h]

lemma split_of_find (hpat : pat ≠ []) {l : List α} {n : ℕ} (h : find pat l = some n) :
    split pat l = l.take n :: split pat (l.drop (n + pat.length)) := by
  have hlength := List.length_pos_iff.mpr hpat
  have hle := find_le h
  unfold split
  obtain ⟨turns, hturns⟩ : ∃ turns, l.length = turns + 1 := ⟨l.length - 1, by omega⟩
  rw [hturns, splitLoop, h]
  exact congrArg (List.cons _) (splitLoop_eq hpat (by rw [List.length_drop]; omega) le_rfl)

/-- The pattern does not come earlier if it does not come in what is before its last letter. -/
lemma find_of_free {x : List α} (rest : List α) (h : ¬pat <:+: x ++ pat.dropLast) :
    find pat (x ++ pat ++ rest) = some x.length := by
  refine find_append fun m hm hthere => h ?_
  have hpat : pat ≠ [] := by
    rintro rfl
    exact h List.nil_infix
  have hlength := List.length_pos_iff.mpr hpat
  -- the place ends before the last letter
  have htake : (x ++ pat ++ rest).take (x.length + pat.dropLast.length) = x ++ pat.dropLast := by
    rw [← List.length_append, List.take_append_of_le_length (by
      simp only [List.length_append, List.length_dropLast]; omega)]
    rw [List.take_append, List.length_append, List.take_of_length_le (by omega),
      Nat.add_sub_cancel_left, List.length_dropLast, ← List.dropLast_eq_take]
  rw [← htake]
  have hwithin : pat <+: ((x ++ pat ++ rest).take (x.length + pat.dropLast.length)).drop m := by
    rw [List.drop_take, List.prefix_take_iff]
    refine ⟨hthere, ?_⟩
    rw [List.length_dropLast]
    omega
  exact hwithin.isInfix.trans (List.drop_suffix m _).isInfix

/-- The converse: before the first place there is no other one, not even one that needs all letters
of the pattern but the last. -/
lemma free_of_find (hpat : pat ≠ []) {l : List α} {n : ℕ} (h : find pat l = some n) :
    ¬pat <:+: l.take n ++ pat.dropLast := by
  have hlength := List.length_pos_iff.mpr hpat
  refine find_eq_none.mp ?_
  cases hfind : find pat (l.take n ++ pat.dropLast) with
  | none => rfl
  | some m =>
    have hbeginning : l.take n ++ pat.dropLast <+: l := by
      obtain ⟨post, hpost⟩ := (find_spec h).1
      have hshort : l.take n ++ pat.dropLast <+: l.take n ++ (pat ++ post) :=
        (List.prefix_append_right_inj _).mpr
          ((List.dropLast_prefix pat).trans (List.prefix_append _ _))
      rwa [hpost, List.take_append_drop] at hshort
    have hm := find_mono hbeginning hfind
    rw [h] at hm
    obtain rfl := Option.some.inj hm
    have hle := find_le hfind
    rw [List.length_append, List.length_take, List.length_dropLast] at hle
    omega

/-- **Pieces of two lists** with the pattern between them, where no place of it is begun by the end
of a list and completed by the pattern. -/
theorem split_append (hpat : pat ≠ [])
    (hfree : ∀ y : List α, pat <:+: y ++ pat.dropLast → pat <:+: y) (x rest : List α) :
    split pat (x ++ pat ++ rest) = split pat x ++ split pat rest := by
  have hlength := List.length_pos_iff.mpr hpat
  induction hn : x.length using Nat.strong_induction_on generalizing x with
  | _ n ih =>
    cases hfind : find pat x with
    | none =>
      have hnot := find_eq_none.mp hfind
      have hplace := find_of_free rest fun h => hnot (hfree x h)
      rw [split_of_find hpat hplace, split_of_not_infix hnot, List.append_assoc, List.take_left,
        ← List.append_assoc, ← List.length_append, List.drop_left]
      rfl
    | some m =>
      have hle := find_le hfind
      have hplace : find pat (x ++ pat ++ rest) = some m :=
        find_mono (by rw [List.append_assoc]; exact List.prefix_append _ _) hfind
      rw [split_of_find hpat hplace, split_of_find hpat hfind, List.append_assoc,
        List.take_append_of_le_length (by omega), List.drop_append_of_le_length (by omega),
        ← List.append_assoc, ih _ (by rw [List.length_drop]; omega) _ rfl]
      rfl

end Search
