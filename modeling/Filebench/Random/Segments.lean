import Filebench.Random.Scaled

/-! # Samples and segments

A variable that is defined by a table alone has its numbers stretched about the mean of the table.
They leave the segments they were drawn from unless the least value is zero. -/
namespace Filebench.FbRandom

/-- Each number lies within the segment that owns the slot it was drawn from. -/
def Owned (l : List ProbTabEnt) (rnd : Randdist ℚ) : Prop :=
  ∀ u ∈ Set.Ico (0 : ℚ) 1, ∃ ptep dsclres, (tableSlots l)[(tableIndex u).toNat]? = some ptep ∧
    rnd.dsclres u = some dsclres ∧
    dsclres ∈ Set.Icc (ptep.pteSegmin.toNat : ℚ) ptep.pteSegmax.toNat

/-- No segment that is drawn from goes down, and the table begins at zero, or it has one number only
while an entry without a slot has a lesser one. -/
structure KeepsSegments (l : List ProbTabEnt) : Prop where
  ordered : ∀ ptep ∈ tableSlots l, ptep.pteSegmin.toNat ≤ ptep.pteSegmax.toNat
  fixed : tableMin l = 0 ∨ ∃ c, tableMin l ≠ c ∧
    ∀ ptep ∈ tableSlots l, ptep.pteSegmin.toNat = c ∧ ptep.pteSegmax.toNat = c

/-! ## The mean of the slots -/

section mean

variable {K : Type} [Field K] [LinearOrder K] [IsStrictOrderedRing K] {l : List ProbTabEnt}

theorem tableMean_const (hlength : (tableSlots l).length = pfTabSize) {c : ℕ}
    (h : ∀ ptep ∈ tableSlots l, ptep.pteSegmin.toNat = c ∧ ptep.pteSegmax.toNat = c) :
    (tableMean l : K) = c := by
  have htotal : tableTotal l = pfTabSize * (c + c) := by
    unfold tableTotal
    rw [List.map_congr_left (g := fun _ => c + c) fun ptep hptep => by
        rw [(h ptep hptep).1, (h ptep hptep).2],
      List.map_const', List.sum_replicate, hlength, smul_eq_mul]
  rw [tableMean_eq, htotal]
  norm_num [pfTabSize]
  ring

theorem tableMin_le_mean (hlength : (tableSlots l).length = pfTabSize)
    (h : ∀ ptep ∈ tableSlots l, ptep.pteSegmin.toNat ≤ ptep.pteSegmax.toNat) :
    (tableMin l : K) ≤ tableMean l := by
  have hle := List.card_nsmul_le_sum
    ((tableSlots l).map fun ptep => ptep.pteSegmin.toNat + ptep.pteSegmax.toNat)
    (tableMin l + tableMin l) (by
      intro x hx
      obtain ⟨ptep, hptep, rfl⟩ := List.mem_map.mp hx
      have hmin := tableMin_le hptep
      have hmax := h ptep hptep
      omega)
  rw [List.length_map, hlength, smul_eq_mul] at hle
  have hcast : ((pfTabSize * (tableMin l + tableMin l) : ℕ) : K) ≤ tableTotal l :=
    Nat.cast_le.mpr hle
  rw [tableMean_eq, div_div, le_div_iff₀ (by norm_num [pfTabSize])]
  push_cast at hcast
  linarith only [hcast]

theorem segmin_of_mean_zero (h : (tableMean l : K) = 0) {ptep : ProbTabEnt}
    (hptep : ptep ∈ tableSlots l) : ptep.pteSegmin.toNat = 0 := by
  have htotal : (tableTotal l : K) = 0 := by
    rw [tableMean_eq, div_div, div_eq_zero_iff] at h
    exact h.resolve_right (by norm_num [pfTabSize])
  have hle := List.le_sum_of_mem (List.mem_map_of_mem
    (f := fun ptep : ProbTabEnt => ptep.pteSegmin.toNat + ptep.pteSegmax.toNat) hptep)
  rw [← tableTotal, Nat.cast_eq_zero.mp htotal] at hle
  omega

/-- Times the mean of the table, the scaled places of each segment are within it. -/
def PlacesKept (K : Type) [Field K] [LinearOrder K] (l : List ProbTabEnt) : Prop :=
  ∀ ptep ∈ tableSlots l, ∀ t ∈ Set.Ico (0 : K) 1, ptep.scaledAt l t * tableMean l ∈
    Set.Icc (ptep.pteSegmin.toNat : K) ptep.pteSegmax.toNat

omit [IsStrictOrderedRing K] in
/-- They are stretched about the mean. -/
theorem scaledAt_within (ptep : ProbTabEnt) (h : spread (K := K) l ≠ 0) :
    (∀ t ∈ Set.Ico (0 : K) 1, ptep.scaledAt l t * tableMean l ∈
        Set.Icc (ptep.pteSegmin.toNat : K) ptep.pteSegmax.toNat) ↔
      Stretch.Within (ptep.pteSegmin.toNat : K) ptep.pteSegmax.toNat (tableMean l)
        (tableMean l / spread l) := by
  refine forall₂_congr fun t _ => ?_
  have heq : ptep.scaledAt l t * tableMean l =
      Stretch.stretch (tableMean l) (tableMean l / spread l)
        (Stretch.place (ptep.pteSegmin.toNat : K) ptep.pteSegmax.toNat t) := by
    rw [ProbTabEnt.scaledAt, if_neg h, Stretch.stretch]
    field_simp
    rw [spread]
    ring
  rw [heq]

theorem exists_mem_tableSlots (hlength : (tableSlots l).length = pfTabSize) :
    ∃ ptep, ptep ∈ tableSlots l :=
  List.exists_mem_of_length_pos (by rw [hlength]; decide)

/-- A table that becomes zero. -/
theorem placesKept_zero (hlength : (tableSlots l).length = pfTabSize)
    (hspread : spread (K := K) l = 0) : PlacesKept K l ↔ KeepsSegments l := by
  obtain ⟨first, hfirst⟩ := exists_mem_tableSlots hlength
  have hmean : (tableMean l : K) = tableMin l := sub_eq_zero.mp hspread
  have hzero : ∀ (ptep : ProbTabEnt) (t : K), ptep.scaledAt l t * tableMean l = 0 :=
    fun ptep t => by rw [ProbTabEnt.scaledAt, if_pos hspread, zero_mul]
  simp only [PlacesKept, hzero]
  constructor
  · intro h
    have hmin_zero : ∀ ptep ∈ tableSlots l, ptep.pteSegmin.toNat = 0 :=
      fun ptep hptep => by
        have := (h ptep hptep 0 ⟨le_rfl, one_pos⟩).1
        exact_mod_cast le_antisymm this (Nat.cast_nonneg _)
    constructor
    · intro ptep hptep
      rw [hmin_zero ptep hptep]
      exact Nat.zero_le _
    · exact .inl (Nat.le_zero.mp ((tableMin_le hfirst).trans_eq (hmin_zero first hfirst)))
  · rintro ⟨-, hzero | ⟨c, hne, hconst⟩⟩ ptep hptep t -
    · rw [hzero, Nat.cast_zero] at hmean
      rw [segmin_of_mean_zero hmean hptep, Nat.cast_zero]
      exact ⟨le_rfl, Nat.cast_nonneg _⟩
    · rw [tableMean_const hlength hconst, Nat.cast_inj] at hmean
      exact absurd hmean.symm hne

/-- A table that is stretched. -/
theorem placesKept_stretched (hlength : (tableSlots l).length = pfTabSize)
    (hspread : spread (K := K) l ≠ 0) : PlacesKept K l ↔ KeepsSegments l := by
  obtain ⟨first, hfirst⟩ := exists_mem_tableSlots hlength
  simp only [PlacesKept, scaledAt_within _ hspread]
  constructor
  · intro h
    have hordered : ∀ ptep ∈ tableSlots l,
        ptep.pteSegmin.toNat ≤ ptep.pteSegmax.toNat := fun ptep hptep => by
      have hstart := (h ptep hptep).start
      exact_mod_cast hstart.1.trans hstart.2
    refine ⟨hordered, ?_⟩
    by_cases hmin_zero : tableMin l = 0
    · exact .inl hmin_zero
    · have hle := tableMin_le_mean (K := K) hlength hordered
      have hpos : 0 < spread (K := K) l :=
        lt_of_le_of_ne (sub_nonneg.mpr hle) (Ne.symm hspread)
      have hstretch : 1 < (tableMean l : K) / spread l := by
        rw [one_lt_div hpos, spread, sub_lt_self_iff, Nat.cast_pos]
        exact Nat.pos_of_ne_zero hmin_zero
      have hconst : ∀ ptep ∈ tableSlots l,
          (ptep.pteSegmin.toNat : K) = tableMean l ∧
            (ptep.pteSegmax.toNat : K) = tableMean l := fun ptep hptep =>
        (Stretch.within_iff hstretch (Nat.cast_le.mpr (hordered ptep hptep))).mp (h ptep hptep)
      refine .inr ⟨first.pteSegmin.toNat, fun heq => hspread ?_, fun ptep hptep => ?_⟩
      · rw [spread, heq, (hconst first hfirst).1, sub_self]
      · have hfix := (hconst first hfirst).1
        rw [← Nat.cast_inj (R := K), ← Nat.cast_inj (R := K), hfix]
        exact hconst ptep hptep
  · rintro ⟨hordered, hzero | ⟨c, -, hconst⟩⟩ ptep hptep
    · have hone : (tableMean l : K) / spread l = 1 := by
        rw [spread, hzero, Nat.cast_zero, sub_zero] at hspread ⊢
        exact div_self hspread
      rw [hone]
      exact Stretch.within_one (Nat.cast_le.mpr (hordered ptep hptep))
    · intro t _
      rw [(hconst ptep hptep).1, (hconst ptep hptep).2, tableMean_const hlength hconst,
        Stretch.place_self, Stretch.stretch_self]
      exact ⟨le_rfl, le_rfl⟩

end mean

/-! ## Variables without a mean and a least value -/

section owned

variable {attrs : RandvarAttrs}

theorem parserRandvarDefine_full (htotal : percentTotal attrs.table = 100) :
    FullTable (parserRandvarDefine (K := ℚ) attrs) where
  entries := by
    intro hnil
    have hzero : percentTotal attrs.table = 0 := congrArg percentTotal hnil
    omega
  typed := by
    rcases attrs with ⟨_ | _ | _, min, round, table⟩
    · exact show distribution (randSrcGenerator ||| 3) ≠ none by decide
    · exact show distribution (randSrcGenerator ||| 3) ≠ none by decide
    · exact show distribution (0 ||| 3) ≠ none by decide
  total := htotal

theorem parserRandvarDefine_meanOf :
    (parserRandvarDefine (K := ℚ) attrs).meanOf = tableMean attrs.table :=
  if_pos (show ((0 : FbInt).toNat / 1000 : ℚ) = 0 by simp)

/-- The numbers are the scaled places of the segments times the mean of the table. -/
theorem owned_iff (hmin : attrs.min = none) (htotal : percentTotal attrs.table = 100)
    (bits : ℚ → BitVec 64) (behind : ℕ → ℚ) :
    Owned attrs.table (randdistInitOne bits (parserRandvarDefine attrs) behind).rnd ↔
      PlacesKept ℚ attrs.table := by
  have hfull := parserRandvarDefine_full htotal
  have hscaled := hfull.scaled bits behind
  have hzero : ((parserRandvarDefine (K := ℚ) attrs).rndMin.toNat : ℚ) = 0 := by
    simp [parserRandvarDefine, hmin]
  have hget {i : ℕ} (hi : i < pfTabSize) {ptep : ProbTabEnt}
      (hptep : (tableSlots attrs.table)[i]? = some ptep) {t : ℚ} (ht : t ∈ Set.Ico 0 1) :
      (randdistInitOne bits (parserRandvarDefine attrs) behind).rnd.dsclres
        ((i + t) / pfTabSize) = some (ptep.scaledAt attrs.table t * tableMean attrs.table) := by
    rw [hscaled.dsclres hi hptep ht, parserRandvarDefine_meanOf, hzero, sub_zero, add_zero]
    rfl
  constructor
  · intro howned ptep hptep t ht
    obtain ⟨i, hi⟩ := List.mem_iff_getElem?.mp hptep
    have hlt : i < pfTabSize := by
      rw [← hfull.length]
      exact (List.getElem?_eq_some_iff.mp hi).1
    have hunit : ((i + t) / pfTabSize : ℚ) ∈ Set.Ico 0 1 := by
      have hi' : (i : ℚ) + 1 ≤ pfTabSize := by exact_mod_cast hlt
      have hpos : (0 : ℚ) < pfTabSize := by norm_num [pfTabSize]
      refine ⟨div_nonneg (add_nonneg (Nat.cast_nonneg i) ht.1) hpos.le, ?_⟩
      rw [div_lt_one hpos]
      linarith only [hi', ht.2]
    obtain ⟨ptep', dsclres, hslot, hsome, hmem⟩ := howned _ hunit
    rw [tableIndex_place i ht, Int.toNat_natCast, hi, Option.some_inj] at hslot
    subst hslot
    rw [hget hlt hi ht, Option.some_inj] at hsome
    subst hsome
    exact hmem
  · intro hplaces u hu
    obtain ⟨i, hi, t, ht, rfl⟩ := exists_place hu
    have hlt : i < (tableSlots attrs.table).length := by
      rw [show (tableSlots attrs.table).length = pfTabSize from hfull.length]
      exact hi
    have hslot := List.getElem?_eq_getElem hlt
    refine ⟨(tableSlots attrs.table)[i], _, ?_, hget hi hslot ht,
      hplaces _ (List.getElem_mem hlt) t ht⟩
    rw [tableIndex_place i ht, Int.toNat_natCast, hslot]

/-- The numbers keep to their segments if and only if the segments drawn from go up and the table
begins at zero, or holds one number that is not its least value. -/
theorem randTableGet_owned (attrs : RandvarAttrs) (hmin : attrs.min = none)
    (htotal : percentTotal attrs.table = 100) (bits : ℚ → BitVec 64) (behind : ℕ → ℚ) :
    Owned attrs.table (randdistInitOne bits (parserRandvarDefine attrs) behind).rnd ↔
      KeepsSegments attrs.table := by
  have hlength : (tableSlots attrs.table).length = pfTabSize :=
    (parserRandvarDefine_full htotal).length
  rw [owned_iff hmin htotal]
  by_cases hspread : spread (K := ℚ) attrs.table = 0
  · exact placesKept_zero hlength hspread
  · exact placesKept_stretched hlength hspread

end owned

/-- Half of the numbers from 0 to 10 and half from 10 to 20. -/
theorem randTableGet_owned_halves :
    Owned [⟨50, 0, 10⟩, ⟨50, 10, 20⟩] (randdistInitOne (fun _ => 0)
      (parserRandvarDefine ⟨none, none, none, [⟨50, 0, 10⟩, ⟨50, 10, 20⟩]⟩) fun _ => 0).rnd :=
  (randTableGet_owned ⟨none, none, none, [⟨50, 0, 10⟩, ⟨50, 10, 20⟩]⟩ rfl (by decide) _ _).mpr
    ⟨by decide, .inl (by decide)⟩

/-- Always five, and zero is what it gives. -/
theorem randTableGet_constant :
    (randdistInitOne (fun _ => 0) (tableOnly [⟨100, 5, 5⟩]) fun _ => 0).rnd.dsclres 0 = some 0 ∧
      ¬ Owned [⟨100, 5, 5⟩]
        (randdistInitOne (fun _ => 0) (tableOnly [⟨100, 5, 5⟩]) fun _ => 0).rnd := by
  have hzero : (randdistInitOne (fun _ => 0) (tableOnly [⟨100, 5, 5⟩])
      fun _ => 0).rnd.dsclres 0 = some 0 := by
    decide +kernel
  refine ⟨hzero, fun howned => ?_⟩
  obtain ⟨ptep, dsclres, hslot, hsome, hmem⟩ := howned 0 ⟨le_rfl, one_pos⟩
  have hfive : ptep = ⟨100, 5, 5⟩ := by
    have hmem := List.mem_of_getElem? hslot
    rw [tableSlots_cons, List.mem_append] at hmem
    exact List.eq_of_mem_replicate (hmem.resolve_right List.not_mem_nil)
  rw [hzero, Option.some_inj] at hsome
  subst hfive hsome
  exact absurd hmem.1 (by decide +kernel)

end Filebench.FbRandom
