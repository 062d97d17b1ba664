import MoteBroker.Lib.Runs

/-!
Forward simulation: a system whose every step does at most one step of another system, in which it
is then seen to take whole runs.
-/

namespace Runs

variable {σ τ ε δ : Type*}

/-- What a run does in the terms of another system. -/
def doings (step : σ → ε → Option σ) (does : σ → ε → Option δ) : σ → List ε → List δ
  | _, [] => []
  | s, e :: es => (does s e).toList ++ match step s e with
    | some s' => doings step does s' es
    | none => []

variable {step : σ → ε → Option σ} {abstractStep : τ → δ → Option τ} {does : σ → ε → Option δ}
  {Refines : τ → σ → Prop} {ok : σ → ε → Prop}

/-- **The simulation rule**: if every admissible step is simulated, every admissible run is. -/
theorem simulation
    (hstep : ∀ a s e s', Refines a s → ok s e → step s e = some s' →
      ∃ a', run abstractStep a (does s e).toList = some a' ∧ Refines a' s')
    {a : τ} {s s' : σ} {es : List ε} (h : Refines a s) (hok : Meets step ok s es)
    (hrun : run step s es = some s') :
    ∃ a', run abstractStep a (doings step does s es) = some a' ∧ Refines a' s' := by
  induction es generalizing a s with
  | nil =>
    cases hrun
    exact ⟨a, rfl, h⟩
  | cons e es ih =>
    obtain ⟨t, ht, hrun⟩ := Option.bind_eq_some_iff.mp hrun
    obtain ⟨b, hb, hbt⟩ := hstep a s e t h hok.1 ht
    obtain ⟨a', ha', hrefines⟩ := ih hbt (hok.2 t ht) hrun
    refine ⟨a', ?_, hrefines⟩
    rw [doings, ht, run_append hb]
    exact ha'

/-- What an event of a run does, it does in the state before it. -/
lemma mem_doings {s : σ} {es : List ε} {d : δ} (h : d ∈ doings step does s es) :
    ∃ t, ∃ e ∈ es, does t e = some d := by
  induction es generalizing s with
  | nil => cases h
  | cons e es ih =>
    rcases List.mem_append.mp h with h | h
    · exact ⟨s, e, List.mem_cons_self, Option.mem_toList.mp h⟩
    · split at h
      case h_1 t _ =>
        obtain ⟨u, f, hf, hd⟩ := ih h
        exact ⟨u, f, List.mem_cons_of_mem _ hf, hd⟩
      case h_2 => cases h

end Runs
