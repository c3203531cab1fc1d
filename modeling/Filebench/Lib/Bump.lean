import Mathlib.Tactic

/-! # Bump allocation

Areas that are laid one after the other from a base on, each where the last one ended. -/
namespace Filebench.Bump

variable {ι : Type*} (size : ι → ℕ)

/-- The size of all areas. -/
def total (order : List ι) : ℕ := (order.map size).sum

@[simp] theorem total_nil : total size [] = 0 := rfl

@[simp] theorem total_cons (i : ι) (order : List ι) :
    total size (i :: order) = size i + total size order := List.sum_cons

/-- Where the areas are. The last one comes first. -/
def Laid (base : ℕ) (start : ι → Option ℕ) : List ι → Prop
  | [] => True
  | i :: order => start i = some (base + total size order) ∧ Laid base start order

variable {size} {base a b : ℕ} {start start' : ι → Option ℕ} {order : List ι} {i j : ι}

theorem Laid.congr (h : Laid size base start order) (heq : ∀ i ∈ order, start' i = start i) :
    Laid size base start' order := by
  induction order with
  | nil => trivial
  | cons i order ih =>
    exact ⟨(heq i (.head _)).trans h.1, ih h.2 fun j hj => heq j (.tail _ hj)⟩

/-- Every area ends where the next one begins, or at the end of all. -/
theorem Laid.inside (h : Laid size base start order) (hi : i ∈ order) (ha : start i = some a) :
    base ≤ a ∧ a + size i ≤ base + total size order := by
  induction order with
  | nil => cases hi
  | cons k order ih =>
    rw [total_cons]
    rcases List.mem_cons.mp hi with rfl | hi
    · obtain rfl := Option.some.inj (ha.symm.trans h.1)
      omega
    · have hlast := ih h.2 hi
      omega

/-- No two areas overlap. -/
theorem Laid.disjoint (h : Laid size base start order) (hi : i ∈ order) (hj : j ∈ order)
    (hne : i ≠ j) (ha : start i = some a) (hb : start j = some b) :
    a + size i ≤ b ∨ b + size j ≤ a := by
  induction order with
  | nil => cases hi
  | cons k order ih =>
    rcases List.mem_cons.mp hi with rfl | hi' <;> rcases List.mem_cons.mp hj with rfl | hj'
    · exact absurd rfl hne
    · obtain rfl := Option.some.inj (ha.symm.trans h.1)
      exact .inr (h.2.inside hj' hb).2
    · obtain rfl := Option.some.inj (hb.symm.trans h.1)
      exact .inl (h.2.inside hi' ha).2
    · exact ih h.2 hi' hj'

end Filebench.Bump
