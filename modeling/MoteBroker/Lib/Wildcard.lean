import Mathlib.Data.List.Count
import Mathlib.Tactic.Common

/-!
Words matched against patterns in which one letter, the wildcard, stands for any letter:
which words match, what the wildcards capture, and how the captures rebuild the word.
-/

namespace Wildcard

variable {κ : Type*} [DecidableEq κ] (w : κ)

/-- The word matches the pattern. -/
def Matches : List κ → List κ → Prop
  | [], [] => True
  | f :: F, n :: t => (f = w ∨ f = n) ∧ Matches F t
  | _, _ => False

instance decMatches : (F t : List κ) → Decidable (Matches w F t)
  | [], [] => .isTrue trivial
  | f :: F, n :: t =>
    haveI := decMatches F t
    inferInstanceAs (Decidable ((f = w ∨ f = n) ∧ Matches w F t))
  | [], _ :: _ => .isFalse id
  | _ :: _, [] => .isFalse id

/-- The letters of the word that stand at the wildcards of the pattern. -/
def captures : List κ → List κ → List κ
  | f :: F, n :: t => if f = w then n :: captures F t else captures F t
  | _, _ => []

/-- The pattern with its wildcards replaced in order. -/
def fill : List κ → List κ → List κ
  | [], _ => []
  | f :: F, c =>
    if f = w then
      match c with
      | [] => f :: fill F []
      | n :: c => n :: fill F c
    else f :: fill F c

variable {w}

omit [DecidableEq κ] in
lemma Matches.length_eq {F t : List κ} (h : Matches w F t) : t.length = F.length := by
  induction F generalizing t with
  | nil => cases t with
    | nil => rfl
    | cons n t => exact h.elim
  | cons f F ih => cases t with
    | nil => exact h.elim
    | cons n t => simp [ih h.2]

omit [DecidableEq κ] in
/-- Without wildcards a pattern matches itself. -/
lemma matches_iff_eq {F t : List κ} (h : w ∉ F) : Matches w F t ↔ F = t := by
  induction F generalizing t with
  | nil => cases t <;> simp [Matches]
  | cons f F ih => cases t with
    | nil => simp [Matches]
    | cons n t =>
      have hf : f ≠ w := fun hf => h (hf ▸ List.mem_cons_self)
      simp [Matches, hf, ih fun hF => h (List.mem_cons_of_mem _ hF)]

@[simp] lemma fill_nil (c : List κ) : fill w [] c = [] := rfl

@[simp] lemma fill_cons_self (F : List κ) (n : κ) (c : List κ) :
    fill w (w :: F) (n :: c) = n :: fill w F c := by simp [fill]

lemma fill_cons_ne {f : κ} (h : f ≠ w) (F c : List κ) :
    fill w (f :: F) c = f :: fill w F c := by simp [fill, h]

@[simp] lemma length_fill (F c : List κ) : (fill w F c).length = F.length := by
  induction F generalizing c with
  | nil => rfl
  | cons f F ih =>
    unfold fill
    split_ifs
    · cases c <;> simp [ih]
    · simp [ih]

lemma Matches.fill_captures {F t : List κ} (h : Matches w F t) :
    fill w F (captures w F t) = t := by
  induction F generalizing t with
  | nil => cases t with
    | nil => rfl
    | cons n t => exact h.elim
  | cons f F ih => cases t with
    | nil => exact h.elim
    | cons n t =>
      by_cases hf : f = w
      · simp [captures, fill, hf, ih h.2]
      · obtain rfl : f = n := h.1.resolve_left hf
        simp [captures, fill, hf, ih h.2]

lemma Matches.length_captures [BEq κ] [LawfulBEq κ] {F t : List κ} (h : Matches w F t) :
    (captures w F t).length = F.count w := by
  induction F generalizing t with
  | nil => rfl
  | cons f F ih => cases t with
    | nil => exact h.elim
    | cons n t =>
      by_cases hf : f = w
      · simp [captures, hf, ih h.2]
      · simp [captures, hf, ih h.2]

lemma matches_fill [BEq κ] [LawfulBEq κ] {F c : List κ} (h : c.length = F.count w) :
    Matches w F (fill w F c) := by
  induction F generalizing c with
  | nil => trivial
  | cons f F ih =>
    by_cases hf : f = w
    · obtain ⟨n, c, rfl⟩ := List.exists_cons_of_length_eq_add_one
        (show c.length = F.count w + 1 by simpa [hf] using h)
      simpa [fill, hf, Matches] using ih (by simpa [hf] using h)
    · simpa [fill, hf, Matches] using ih (by simpa [hf] using h)

lemma captures_fill [BEq κ] [LawfulBEq κ] {F c : List κ} (h : c.length = F.count w) :
    captures w F (fill w F c) = c := by
  induction F generalizing c with
  | nil => simpa [captures, eq_comm] using h
  | cons f F ih =>
    by_cases hf : f = w
    · obtain ⟨n, c, rfl⟩ := List.exists_cons_of_length_eq_add_one
        (show c.length = F.count w + 1 by simpa [hf] using h)
      simpa [fill, hf, captures] using ih (by simpa [hf] using h)
    · simpa [fill, hf, captures] using ih (by simpa [hf] using h)

lemma mem_fill [BEq κ] [LawfulBEq κ] {F c : List κ} (h : c.length = F.count w) {n : κ}
    (hn : n ∈ c) : n ∈ fill w F c := by
  induction F generalizing c with
  | nil =>
    obtain rfl := List.eq_nil_of_length_eq_zero h
    cases hn
  | cons f F ih =>
    by_cases hf : f = w
    · subst hf
      rw [List.count_cons_self] at h
      obtain ⟨m, c, rfl⟩ := List.exists_cons_of_length_eq_add_one h
      rw [fill_cons_self]
      rcases List.mem_cons.mp hn with rfl | hn
      · exact List.mem_cons_self
      · exact List.mem_cons_of_mem _ (ih (Nat.succ.inj h) hn)
    · rw [List.count_cons_of_ne hf] at h
      rw [fill_cons_ne hf]
      exact List.mem_cons_of_mem _ (ih h hn)

/-- A word is the pattern filled with `c` exactly when it matches and captures `c`. -/
theorem fill_eq_iff [BEq κ] [LawfulBEq κ] {F c t : List κ} (h : c.length = F.count w) :
    fill w F c = t ↔ Matches w F t ∧ captures w F t = c := by
  refine ⟨?_, ?_⟩
  · rintro rfl; exact ⟨matches_fill h, captures_fill h⟩
  · rintro ⟨hm, rfl⟩; exact hm.fill_captures

/-! ### A letter for the rest of the word -/

/-- The word matches the pattern, in which `e` stands for one or more letters at the end. -/
def MatchesDeep (w e : κ) : List κ → List κ → Prop
  | [], [] => True
  | f :: F, n :: t => if f = e then F = [] else (f = w ∨ f = n) ∧ MatchesDeep w e F t
  | _, _ => False

lemma matchesDeep_self {e : κ} {F : List κ} (h : e ∉ F) : MatchesDeep w e F F := by
  induction F with
  | nil => trivial
  | cons f F ih =>
    simp only [List.mem_cons, not_or] at h
    rw [MatchesDeep, if_neg (Ne.symm h.1)]
    exact ⟨.inr rfl, ih h.2⟩

lemma matchesDeep_singleton {e f : κ} (he : f ≠ e) (hw : f ≠ w) {t : List κ} :
    MatchesDeep w e [f] t ↔ t = [f] := by
  cases t with
  | nil => simp [MatchesDeep]
  | cons n t =>
    rw [MatchesDeep, if_neg he]
    cases t with
    | nil => simp [MatchesDeep, hw, eq_comm]
    | cons m t => simp [MatchesDeep]

end Wildcard
