import Mathlib.Tactic

/-! # Exclusive owners

A flag on every resource, and for every party the list of resources whose flag it has set. The
flag is set exactly while one party owns the resource. -/
namespace Filebench.Lock

variable {α τ : Type*} {flag flag' : α → Prop} {own own' : τ → List α} {a : α} {t : τ}

structure Owners (flag : α → Prop) (own : τ → List α) : Prop where
  flag_iff : ∀ a, flag a ↔ ∃ t, a ∈ own t
  nodup : ∀ t, (own t).Nodup
  unique : ∀ a t t', a ∈ own t → a ∈ own t' → t = t'

/-- The lists, with the one of `t` replaced. -/
theorem mem_update_iff [DecidableEq τ] {L : List α} {u : τ} :
    a ∈ Function.update own t L u ↔ u = t ∧ a ∈ L ∨ u ≠ t ∧ a ∈ own u := by
  rw [Function.update_apply]
  split
  next h => simp [h]
  next h => simp [h]

namespace Owners

theorem congr (h : Owners flag own) (hflag : ∀ a, flag' a ↔ flag a) (hown : ∀ t, own' t = own t) :
    Owners flag' own' := by
  obtain rfl : own' = own := funext hown
  exact ⟨fun a => (hflag a).trans (h.flag_iff a), h.nodup, h.unique⟩

variable [DecidableEq τ]

/-- A free resource goes to `t`. -/
theorem acquire (h : Owners flag own) (ha : ¬ flag a) :
    Owners (fun x => x = a ∨ flag x) (Function.update own t (a :: own t)) := by
  have hnone : ∀ t', a ∉ own t' := fun t' ht => ha ((h.flag_iff a).mpr ⟨t', ht⟩)
  have hmem : ∀ x t', x ∈ Function.update own t (a :: own t) t' ↔ (t' = t ∧ x = a) ∨ x ∈ own t' := by
    intro x t'
    rw [mem_update_iff]
    by_cases ht : t' = t
    · simp [ht]
    · simp [ht]
  refine ⟨fun x => ?_, fun t' => ?_, fun x t₁ t₂ h₁ h₂ => ?_⟩
  · simp only [hmem, h.flag_iff]
    constructor
    · rintro (rfl | ⟨t', hx⟩)
      · exact ⟨t, .inl ⟨rfl, rfl⟩⟩
      · exact ⟨t', .inr hx⟩
    · rintro ⟨t', ⟨-, rfl⟩ | hx⟩
      · exact .inl rfl
      · exact .inr ⟨t', hx⟩
  · by_cases ht : t' = t
    · subst ht
      simpa using ⟨hnone t', h.nodup t'⟩
    · simpa [ht] using h.nodup t'
  · rcases (hmem x t₁).mp h₁ with ⟨ht₁, hx₁⟩ | hx₁ <;>
      rcases (hmem x t₂).mp h₂ with ⟨ht₂, hx₂⟩ | hx₂
    · exact ht₁.trans ht₂.symm
    · exact absurd (hx₁ ▸ hx₂) (hnone t₂)
    · exact absurd (hx₂ ▸ hx₁) (hnone t₁)
    · exact h.unique x t₁ t₂ hx₁ hx₂

/-- The owner gives a resource back. -/
theorem release [DecidableEq α] (h : Owners flag own) (ha : a ∈ own t) :
    Owners (fun x => x ≠ a ∧ flag x) (Function.update own t ((own t).erase a)) := by
  have hmem : ∀ x t', x ∈ Function.update own t ((own t).erase a) t' ↔ x ≠ a ∧ x ∈ own t' := by
    intro x t'
    by_cases ht : t' = t
    · subst ht
      simp [(h.nodup t').mem_erase_iff]
    · rw [Function.update_of_ne ht]
      refine ⟨fun hx => ⟨?_, hx⟩, And.right⟩
      rintro rfl
      exact ht (h.unique x t' t hx ha)
  refine ⟨fun x => ?_, fun t' => ?_, fun x t₁ t₂ h₁ h₂ => ?_⟩
  · simp only [hmem, h.flag_iff]
    constructor
    · rintro ⟨hx, t', ht⟩
      exact ⟨t', hx, ht⟩
    · rintro ⟨t', hx, ht⟩
      exact ⟨hx, t', ht⟩
  · by_cases ht : t' = t
    · subst ht
      simpa using (h.nodup t').erase a
    · simpa [ht] using h.nodup t'
  · exact h.unique x t₁ t₂ ((hmem x t₁).mp h₁).2 ((hmem x t₂).mp h₂).2

end Owners

end Filebench.Lock
