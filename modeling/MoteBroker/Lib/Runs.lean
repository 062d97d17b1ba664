import Mathlib.Data.Option.Basic

/-!
Runs of a system that takes one labelled step after another, and the rule that carries an
invariant along them.
-/

namespace Runs

variable {σ ε : Type*}

/-- The state after the steps `es`, if each of them can be taken. -/
def run (step : σ → ε → Option σ) : σ → List ε → Option σ
  | s, [] => some s
  | s, e :: es => (step s e).bind fun s' => run step s' es

/-- Every step of the run meets `ok` in the state before it. -/
def Meets (step : σ → ε → Option σ) (ok : σ → ε → Prop) : σ → List ε → Prop
  | _, [] => True
  | s, e :: es => ok s e ∧ ∀ s', step s e = some s' → Meets step ok s' es

variable {step : σ → ε → Option σ}

@[simp] lemma run_nil (s : σ) : run step s [] = some s := rfl

lemma run_cons (s : σ) (e : ε) (es : List ε) :
    run step s (e :: es) = (step s e).bind fun s' => run step s' es := rfl

/-- Runs are put one after the other. -/
lemma run_append {s t : σ} {es fs : List ε} (hes : run step s es = some t) :
    run step s (es ++ fs) = run step t fs := by
  induction es generalizing s with
  | nil => cases hes; rfl
  | cons e es ih =>
    obtain ⟨u, hu, hrun⟩ := Option.bind_eq_some_iff.mp hes
    rw [List.cons_append, run_cons, hu, Option.bind_some, ih hrun]

lemma Meets.nil {ok : σ → ε → Prop} {s : σ} : Meets step ok s [] := trivial

/-- A run is checked step by step. -/
lemma Meets.cons {ok : σ → ε → Prop} {s s' : σ} {e : ε} {es : List ε} (hok : ok s e)
    (hs : step s e = some s') (h : Meets step ok s' es) : Meets step ok s (e :: es) :=
  ⟨hok, fun t ht => by rw [hs] at ht; cases ht; exact h⟩

/-- **The invariant rule**: what every admissible step keeps holds at the end of every
admissible run. -/
theorem run_invariant {Inv : σ → Prop} {ok : σ → ε → Prop}
    (hstep : ∀ s e s', Inv s → ok s e → step s e = some s' → Inv s')
    {s s' : σ} {es : List ε} (h : Inv s) (hok : Meets step ok s es)
    (hrun : run step s es = some s') : Inv s' := by
  induction es generalizing s with
  | nil => cases hrun; exact h
  | cons e es ih =>
    obtain ⟨t, ht, hrun⟩ := Option.bind_eq_some_iff.mp hrun
    exact ih (hstep s e t h hok.1 ht) (hok.2 t ht) hrun

lemma meets_of_forall {ok : σ → ε → Prop} (s : σ) {es : List ε} (h : ∀ e ∈ es, ∀ s, ok s e) :
    Meets step ok s es := by
  induction es generalizing s with
  | nil => trivial
  | cons e es ih =>
    exact ⟨h e List.mem_cons_self s, fun s' _ => ih s' fun e he => h e (List.mem_cons_of_mem _ he)⟩

lemma meets_true (s : σ) (es : List ε) : Meets step (fun _ _ => True) s es :=
  meets_of_forall s fun _ _ _ => trivial

/-- The invariant rule when every step is admissible. -/
theorem run_invariant_of_step {Inv : σ → Prop}
    (hstep : ∀ s e s', Inv s → step s e = some s' → Inv s')
    {s s' : σ} {es : List ε} (h : Inv s) (hrun : run step s es = some s') : Inv s' :=
  run_invariant (fun s e s' hi _ => hstep s e s' hi) h (meets_true s es) hrun

/-- A run that is not admissible has a first step that is not. -/
lemma exists_of_not_meets {ok : σ → ε → Prop} {s s' : σ} {es : List ε}
    (hrun : run step s es = some s') (h : ¬Meets step ok s es) :
    ∃ before e after t t', es = before ++ e :: after ∧ Meets step ok s before ∧
      run step s before = some t ∧ ¬ok t e ∧ step t e = some t' ∧ run step t' after = some s' := by
  induction es generalizing s with
  | nil => exact absurd Meets.nil h
  | cons e es ih =>
    obtain ⟨t, ht, hrun⟩ := Option.bind_eq_some_iff.mp hrun
    by_cases hok : ok s e
    · obtain ⟨before, e', after, u, u', rfl, hbefore, hu, hrest⟩ :=
        ih hrun fun hmeets => h (.cons hok ht hmeets)
      refine ⟨e :: before, e', after, u, u', rfl, .cons hok ht hbefore, ?_, hrest⟩
      rw [run_cons, ht]
      exact hu
    · exact ⟨[], e, es, s, t, rfl, .nil, rfl, hok, ht, hrun⟩

end Runs
