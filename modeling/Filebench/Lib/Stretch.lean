import Mathlib.Algebra.Order.Field.Basic
import Mathlib.Tactic.Linarith
import Mathlib.Tactic.Ring
import Mathlib.Tactic.FieldSimp

/-! # Stretching a line about a point

A segment that is stretched about a point stays within itself only if it is that point. -/
namespace Filebench.Stretch

variable {K : Type} [Field K] [LinearOrder K] [IsStrictOrderedRing K] {a b c s : K}

/-- The line is stretched about `c` by `s`. -/
def stretch (c s x : K) : K := c + s * (x - c)

/-- The place `t` of the segment from `a` to `b`. -/
def place (a b t : K) : K := a + (b - a) * t

omit [LinearOrder K] [IsStrictOrderedRing K] in
@[simp] theorem stretch_one (c x : K) : stretch c 1 x = x := by
  unfold stretch
  ring

omit [LinearOrder K] [IsStrictOrderedRing K] in
@[simp] theorem stretch_self (c s : K) : stretch c s c = c := by
  unfold stretch
  ring

omit [LinearOrder K] [IsStrictOrderedRing K] in
@[simp] theorem place_self (a t : K) : place a a t = a := by
  unfold place
  ring

omit [LinearOrder K] [IsStrictOrderedRing K] in
theorem stretch_sub (c s x y : K) : stretch c s x - stretch c s y = s * (x - y) := by
  unfold stretch
  ring

theorem place_mem (h : a ≤ b) {t : K} (ht : t ∈ Set.Ico 0 1) :
    place a b t ∈ Set.Icc a b := by
  have hlen : 0 ≤ b - a := sub_nonneg.mpr h
  have hlow : 0 ≤ (b - a) * t := mul_nonneg hlen ht.1
  have hhigh : (b - a) * t ≤ b - a := mul_le_of_le_one_right hlen ht.2.le
  unfold place
  constructor
  · linarith only [hlow]
  · linarith only [hhigh]

/-- The places of the segment are stretched to places within it. -/
def Within (a b c s : K) : Prop := ∀ t ∈ Set.Ico (0 : K) 1, stretch c s (place a b t) ∈ Set.Icc a b

theorem Within.start (h : Within a b c s) : stretch c s a ∈ Set.Icc a b := by
  have hstart := h 0 ⟨le_rfl, one_pos⟩
  rwa [place, mul_zero, add_zero] at hstart

/-- A segment with more than one place gets too long. -/
theorem Within.eq (hs : 1 < s) (hab : a ≤ b) (h : Within a b c s) : a = b := by
  by_contra hne
  have hlen : 0 < b - a := sub_pos.mpr (lt_of_le_of_ne hab hne)
  have hspos : 0 < s := one_pos.trans hs
  -- Halfway between the place that goes to the end and the end itself.
  have htlow : 0 ≤ (1 + s⁻¹) / 2 := by positivity
  have hinv : s⁻¹ < 1 := inv_lt_one_of_one_lt₀ hs
  have hlast := h ((1 + s⁻¹) / 2) ⟨htlow, by linarith only [hinv]⟩
  have hdiff := stretch_sub c s (place a b ((1 + s⁻¹) / 2)) a
  have hgrow : s * (place a b ((1 + s⁻¹) / 2) - a) = (b - a) * ((s + 1) / 2) := by
    unfold place
    field_simp
    ring
  have hmore : (b - a) * 1 < (b - a) * ((s + 1) / 2) :=
    mul_lt_mul_of_pos_left (by linarith only [hs]) hlen
  have hfirst := h.start
  linarith only [hdiff, hgrow, hmore, hfirst.1, hlast.2]

theorem within_iff (hs : 1 < s) (hab : a ≤ b) : Within a b c s ↔ a = c ∧ b = c := by
  constructor
  · intro h
    have heq := h.eq hs hab
    subst heq
    have hstart := h.start
    have hfix : (s - 1) * (a - c) = 0 := by
      unfold stretch at hstart
      linarith only [hstart.1, hstart.2]
    have hc := (mul_eq_zero.mp hfix).resolve_left (sub_ne_zero.mpr hs.ne')
    exact ⟨sub_eq_zero.mp hc, sub_eq_zero.mp hc⟩
  · rintro ⟨rfl, rfl⟩ t -
    rw [place_self, stretch_self]
    exact ⟨le_rfl, le_rfl⟩

theorem within_one (hab : a ≤ b) : Within a b c 1 := by
  intro t ht
  rw [stretch_one]
  exact place_mem hab ht

end Filebench.Stretch
