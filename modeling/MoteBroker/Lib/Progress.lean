import MoteBroker.Lib.Runs
import Mathlib.Algebra.BigOperators.Group.List.Basic
import Mathlib.Tactic.Ring

/-!
Runs that come to an end: steps that use up a measure, and the states in which none of them can
be taken any more.
-/

namespace Runs

variable {σ ε : Type*} {step : σ → ε → Option σ}

/-- None of the steps in `own` can be taken. -/
def Quiet (step : σ → ε → Option σ) (own : ε → Prop) (s : σ) : Prop :=
  ∀ e, own e → step s e = none

variable {own : ε → Prop} {Inv : σ → Prop} {μ : σ → ℕ}

/-- **The measure rule**: a run of steps that use up the measure has no more steps than that. -/
theorem length_le_of_measure
    (hinv : ∀ s e s', Inv s → step s e = some s' → Inv s')
    (hlt : ∀ s e s', Inv s → own e → step s e = some s' → μ s' < μ s)
    {s s' : σ} {es : List ε} (h : Inv s) (hown : ∀ e ∈ es, own e)
    (hrun : run step s es = some s') : es.length + μ s' ≤ μ s := by
  induction es generalizing s with
  | nil =>
    cases hrun
    exact (Nat.zero_add _).le
  | cons e es ih =>
    obtain ⟨t, ht, hrun⟩ := Option.bind_eq_some_iff.mp hrun
    have hfirst := hlt s e t h (hown e List.mem_cons_self) ht
    have hrest := ih (hinv s e t h ht) (fun e he => hown e (List.mem_cons_of_mem _ he)) hrun
    rw [List.length_cons]
    omega

/-- **Steps that use up a measure lead to a quiet state.** -/
theorem exists_run_quiet
    (hinv : ∀ s e s', Inv s → step s e = some s' → Inv s')
    (hlt : ∀ s e s', Inv s → own e → step s e = some s' → μ s' < μ s) {s : σ} (h : Inv s) :
    ∃ es s', (∀ e ∈ es, own e) ∧ run step s es = some s' ∧ Quiet step own s' := by
  induction hμ : μ s using Nat.strong_induction_on generalizing s with
  | _ n ih =>
    subst hμ
    by_cases hquiet : Quiet step own s
    · exact ⟨[], s, fun _ he => (nomatch he), rfl, hquiet⟩
    · simp only [Quiet, not_forall] at hquiet
      obtain ⟨e, he, hstep⟩ := hquiet
      obtain ⟨t, ht⟩ := Option.ne_none_iff_exists'.mp hstep
      obtain ⟨es, s', hes, hrun, hs'⟩ := ih _ (hlt s e t h he ht) (hinv s e t h ht) rfl
      refine ⟨e :: es, s', fun f hf => ?_, ?_, hs'⟩
      · rcases List.mem_cons.mp hf with rfl | hf
        · exact he
        · exact hes f hf
      · rw [run_cons, ht]
        exact hrun

/-- One entry of a sum is replaced. -/
lemma sum_map_set {α : Type*} {l : List α} {k : ℕ} {a : α} (hk : l[k]? = some a) (b : α)
    (f : α → ℕ) : ((l.set k b).map f).sum + f a = (l.map f).sum + f b := by
  induction l generalizing k with
  | nil => cases hk
  | cons c l ih =>
    cases k with
    | zero =>
      cases hk
      simp only [List.set_cons_zero, List.map_cons, List.sum_cons]
      ring
    | succ k =>
      have hrest := ih hk
      simp only [List.set_cons_succ, List.map_cons, List.sum_cons]
      omega

end Runs
