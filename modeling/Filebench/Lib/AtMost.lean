import Mathlib.Tactic
import Mathlib.Data.Finset.Card

/-! # At most so many

A bound on how many things have a property, kept while single ones gain or lose it. -/
namespace Filebench.Tally

variable {α : Type*} {P Q : α → Prop} {n m : ℤ} {a b : α}

def AtMost (P : α → Prop) (n : ℤ) : Prop :=
  ∃ S : Finset α, (∀ a, P a → a ∈ S) ∧ (S.card : ℤ) ≤ n

theorem AtMost.mono (h : AtMost P n) (hQ : ∀ a, Q a → P a) (hn : n ≤ m) : AtMost Q m := by
  obtain ⟨S, hS, hcard⟩ := h
  exact ⟨S, fun a ha => hS a (hQ a ha), hcard.trans hn⟩

theorem atMost_zero (h : ∀ a, ¬ P a) : AtMost P 0 :=
  ⟨∅, fun a ha => absurd ha (h a), le_rfl⟩

theorem AtMost.gain [DecidableEq α] (h : AtMost P n) (hQ : ∀ a, Q a → a = b ∨ P a) :
    AtMost Q (n + 1) := by
  obtain ⟨S, hS, hcard⟩ := h
  refine ⟨insert b S, fun a ha => ?_, ?_⟩
  · rcases hQ a ha with rfl | ha
    · exact Finset.mem_insert_self a S
    · exact Finset.mem_insert_of_mem (hS a ha)
  · have := Finset.card_insert_le b S
    omega

theorem AtMost.lose [DecidableEq α] (h : AtMost P n) (hb : P b) (hQ : ∀ a, Q a → a ≠ b ∧ P a) :
    AtMost Q (n - 1) := by
  obtain ⟨S, hS, hcard⟩ := h
  refine ⟨S.erase b, fun a ha => Finset.mem_erase.mpr ⟨(hQ a ha).1, hS a (hQ a ha).2⟩, ?_⟩
  have := Finset.card_erase_add_one (hS b hb)
  omega

theorem AtMost.none (h : AtMost P n) (hn : n ≤ 0) (a : α) : ¬ P a := by
  obtain ⟨S, hS, hcard⟩ := h
  intro ha
  have := Finset.card_pos.mpr ⟨a, hS a ha⟩
  omega

theorem AtMost.unique (h : AtMost P n) (hn : n ≤ 1) (ha : P a) (hb : P b) : a = b := by
  obtain ⟨S, hS, hcard⟩ := h
  exact Finset.card_le_one.mp (by omega) a (hS a ha) b (hS b hb)

end Filebench.Tally
