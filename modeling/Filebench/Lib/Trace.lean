import Mathlib.Tactic

/-! # Traces

The runs of a system that takes one step for each event. A run keeps on record the states that it
went through, so that conditions on its steps can be stated. -/
namespace Filebench.Trace

variable {σ ε : Type} {next : σ → ε → Option σ} {Start : σ → Prop}

/-- The last event comes first, each with the state before it. -/
inductive Run (next : σ → ε → Option σ) (Start : σ → Prop) : List (σ × ε) → σ → Prop where
  | start {s : σ} : Start s → Run next Start [] s
  | step {trace : List (σ × ε)} {s s' : σ} {e : ε} :
      Run next Start trace s → next s e = some s' → Run next Start ((s, e) :: trace) s'

variable {trace later earlier : List (σ × ε)} {s t : σ}

/-- What every step keeps that meets a condition holds after a run of such steps. -/
theorem Run.invariant {I : List (σ × ε) → σ → Prop} {P : σ → ε → Prop}
    (h : Run next Start trace t) (hmeets : ∀ x ∈ trace, P x.1 x.2)
    (hstart : ∀ s, Start s → I [] s)
    (hstep : ∀ trace s e s', I trace s → P s e → next s e = some s' →
      I ((s, e) :: trace) s') : I trace t := by
  induction h with
  | start hs => exact hstart _ hs
  | step _ hnext ih =>
    exact hstep _ _ _ _ (ih fun x hx => hmeets x (.tail _ hx)) (hmeets _ (.head _)) hnext

/-- The run up to an event of it. -/
theorem Run.upTo (h : Run next Start (later ++ earlier) t) : ∃ s, Run next Start earlier s := by
  induction later generalizing t with
  | nil => exact ⟨t, h⟩
  | cons x later ih =>
    cases h with
    | step h _ => exact ih h

/-- The state that is on record with an event is the one that the run had come to. -/
theorem Run.before {e : ε} (h : Run next Start (later ++ (s, e) :: earlier) t) :
    Run next Start earlier s := by
  induction later generalizing t with
  | nil =>
    cases h with
    | step h _ => exact h
  | cons x later ih =>
    cases h with
    | step h _ => exact ih h

/-- A run from the state that another one has come to. -/
theorem Run.append (h : Run next Start earlier s) (hlater : Run next (· = s) later t) :
    Run next Start (later ++ earlier) t := by
  induction hlater with
  | start heq =>
    subst heq
    exact h
  | step _ hnext ih => exact ih.step hnext

/-- A run goes on with the given events. -/
theorem Run.events {P : σ × ε → Prop} {es : List ε} (h : Run next Start trace s)
    (hP : ∀ x ∈ trace, P x) (hrun : es.foldlM next s = some t) (hes : ∀ e ∈ es, ∀ s, P (s, e)) :
    ∃ trace', Run next Start trace' t ∧ ∀ x ∈ trace', P x := by
  induction es generalizing trace s with
  | nil =>
    obtain rfl := Option.some.inj hrun
    exact ⟨trace, h, hP⟩
  | cons e es ih =>
    rw [List.foldlM_cons] at hrun
    obtain ⟨s', hnext, hrest⟩ := Option.bind_eq_some_iff.mp hrun
    refine ih (h.step hnext) ?_ hrest fun e' he' => hes e' (.tail _ he')
    intro x hx
    rcases List.mem_cons.mp hx with rfl | hx
    · exact hes e (.head _) s
    · exact hP x hx

/-- Only steps that meet the condition. -/
def guarded (meets : σ → ε → Bool) (next : σ → ε → Option σ) (s : σ) (e : ε) : Option σ :=
  if meets s e then next s e else none

/-- A run goes on with events that all meet a condition. -/
theorem Run.guarded {meets : σ → ε → Bool} {es : List ε} (h : Run next Start trace s)
    (hmeets : ∀ x ∈ trace, meets x.1 x.2) (hrun : es.foldlM (guarded meets next) s = some t) :
    ∃ trace', Run next Start trace' t ∧ trace'.length = trace.length + es.length ∧
      ∀ x ∈ trace', meets x.1 x.2 := by
  induction es generalizing trace s with
  | nil =>
    obtain rfl := Option.some.inj hrun
    exact ⟨trace, h, rfl, hmeets⟩
  | cons e es ih =>
    rw [List.foldlM_cons] at hrun
    obtain ⟨s', hguard, hrest⟩ := Option.bind_eq_some_iff.mp hrun
    rw [Trace.guarded, Option.ite_none_right_eq_some] at hguard
    obtain ⟨trace', hrun', hlength, hmeets'⟩ := ih (h.step hguard.2) (by
      intro x hx
      rcases List.mem_cons.mp hx with rfl | hx
      · exact hguard.1
      · exact hmeets x hx) hrest
    refine ⟨trace', hrun', ?_, hmeets'⟩
    rw [hlength, List.length_cons, List.length_cons]
    omega

end Filebench.Trace
