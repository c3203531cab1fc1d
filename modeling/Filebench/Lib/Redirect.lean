import Mathlib.Logic.Relation
import Mathlib.Order.WellFounded

/-! # Redirecting a node of a graph

`r a b` says that `a` is a successor of `b`. A graph whose paths all end keeps that when one
node gets new successors none of which leads back to it. -/
namespace Filebench.Redirect

variable {α : Type*} {r r' : α → α → Prop}

/-- Away from `p` the successors are old ones, and the new successors of `p` do not lead to it. -/
structure Redirects (r r' : α → α → Prop) (p : α) : Prop where
  old : ∀ a b, r' a b → b ≠ p → r a b
  new : ∀ a, r' a p → r a p ∨ ¬ Relation.ReflTransGen r p a

/-- Where all paths end, no successor leads back. -/
theorem not_leads_back (hwf : WellFounded r) {a p : α} (h : r a p) :
    ¬ Relation.ReflTransGen r p a := by
  intro hpa
  exact hwf.transGen.irrefl.irrefl p (Relation.TransGen.tail' hpa h)

/-- What does not lead to the node is not touched. -/
theorem Redirects.acc_of_not_leads {p : α} (h : Redirects r r' p) (hwf : WellFounded r) (a : α)
    (ha : ¬ Relation.ReflTransGen r p a) : Acc r' a := by
  induction a using hwf.induction with
  | _ a ih =>
    constructor
    intro b hb
    have hne : a ≠ p := by
      rintro rfl
      exact ha .refl
    have hba := h.old b a hb hne
    apply ih b hba
    intro hpb
    exact ha (hpb.tail hba)

theorem Redirects.wellFounded {p : α} (h : Redirects r r' p) (hwf : WellFounded r) :
    WellFounded r' := by
  have hp : Acc r' p := by
    constructor
    intro a ha
    apply h.acc_of_not_leads hwf
    rcases h.new a ha with hold | hnew
    · exact not_leads_back hwf hold
    · exact hnew
  constructor
  intro a
  induction a using hwf.induction with
  | _ a ih =>
    by_cases hne : a = p
    · rwa [hne]
    · constructor
      intro b hb
      exact ih b (h.old b a hb hne)

/-- Fewer successors. -/
theorem wellFounded_of_imp (h : ∀ a b, r' a b → r a b) (hwf : WellFounded r) :
    WellFounded r' := Subrelation.wf (fun {a b} => h a b) hwf

end Filebench.Redirect
