import Filebench.Lib.Stretch
import Filebench.Random.Table

/-! # What a table is scaled to

The slots of a table whose percentages total a hundred lose the least value of the table and are
divided by its mean. The lookup takes them times the mean of the variable and adds its own least
value. -/
namespace Filebench.FbRandom

/-! ## The least value and the mean of a table -/

/-- Entries before the first one with a slot do not count. -/
def tableMin (l : List ProbTabEnt) : ℕ :=
  ((l.dropWhile fun ptep => ptep.entcnt ≤ 0).map (·.pteSegmin.toNat)).min?.getD 0

/-- Both ends of the segment of each slot. -/
def tableTotal (l : List ProbTabEnt) : ℕ :=
  ((tableSlots l).map fun ptep => ptep.pteSegmin.toNat + ptep.pteSegmax.toNat).sum

/-- The mean of the middles of the segments. -/
def tableMean {K : Type} [Field K] (l : List ProbTabEnt) : K :=
  tableTotal l / (2 * pfTabSize : ℕ)

theorem tableMean_eq {K : Type} [Field K] (l : List ProbTabEnt) :
    (tableMean l : K) = tableTotal l / 2 / pfTabSize := by
  rw [tableMean, Nat.cast_mul, Nat.cast_ofNat, div_div]

theorem tableMin_cons (ptep : ProbTabEnt) (l : List ProbTabEnt) : tableMin (ptep :: l) =
    if ptep.entcnt ≤ 0 then tableMin l
    else (l.map (·.pteSegmin.toNat)).foldl min ptep.pteSegmin.toNat := by
  unfold tableMin
  rw [List.dropWhile_cons]
  by_cases h : ptep.entcnt ≤ 0
  · rw [if_pos (decide_eq_true h), if_pos h]
  · rw [if_neg (by simpa using h), if_neg h, List.map_cons, List.min?_cons']
    rfl

theorem tableTotal_cons (ptep : ProbTabEnt) (l : List ProbTabEnt) : tableTotal (ptep :: l) =
    ptep.entcnt.toNat * (ptep.pteSegmin.toNat + ptep.pteSegmax.toNat) + tableTotal l := by
  unfold tableTotal
  rw [tableSlots_cons, List.map_append, List.sum_append, List.map_replicate, List.sum_replicate,
    smul_eq_mul]

theorem foldl_min_le (l : List ℕ) (m : ℕ) : l.foldl min m ≤ m ∧ ∀ x ∈ l, l.foldl min m ≤ x := by
  induction l generalizing m with
  | nil => exact ⟨le_rfl, fun x hx => absurd hx List.not_mem_nil⟩
  | cons y l ih =>
    have hrest := ih (min m y)
    refine ⟨hrest.1.trans (min_le_left m y), fun x hx => ?_⟩
    rcases List.mem_cons.mp hx with rfl | hx
    · exact hrest.1.trans (min_le_right m x)
    · exact hrest.2 x hx

theorem tableMin_le {l : List ProbTabEnt} {ptep : ProbTabEnt} (h : ptep ∈ tableSlots l) :
    tableMin l ≤ ptep.pteSegmin.toNat := by
  induction l with
  | nil => exact absurd h List.not_mem_nil
  | cons e l ih =>
    rw [tableSlots_cons, List.mem_append, List.mem_replicate] at h
    rw [tableMin_cons]
    by_cases he : e.entcnt ≤ 0
    · rw [if_pos he]
      refine ih (h.resolve_left fun hrep => hrep.1 ?_)
      omega
    · rw [if_neg he]
      have hfold := foldl_min_le (l.map (·.pteSegmin.toNat)) e.pteSegmin.toNat
      rcases h with ⟨-, rfl⟩ | h
      · exact hfold.1
      · obtain ⟨e', he', hrep⟩ := List.mem_flatMap.mp h
        rw [List.eq_of_mem_replicate hrep]
        exact hfold.2 _ (List.mem_map_of_mem he')

/-! ## Tables of a hundred percent -/

theorem ProbTabEnt.entcnt_of_lt {ptep : ProbTabEnt} (h : ptep.ptePercent.toNat < 2 ^ 31) :
    ptep.entcnt = ptep.ptePercent.toNat := by
  have hcut : (ptep.ptePercent.truncate 32).toNat = ptep.ptePercent.toNat := by
    rw [BitVec.truncate_eq_setWidth, BitVec.toNat_setWidth]
    exact Nat.mod_eq_of_lt (by omega)
  rw [ProbTabEnt.entcnt, BitVec.toInt_eq_toNat_of_lt (by rw [hcut]; omega), hcut]

theorem percent_le_total {l : List ProbTabEnt} {ptep : ProbTabEnt} (h : ptep ∈ l) :
    ptep.ptePercent.toNat ≤ percentTotal l :=
  List.le_sum_of_mem (List.mem_map_of_mem h)

/-- No percentage is cut. -/
theorem entcnt_of_total {l : List ProbTabEnt} (htotal : percentTotal l = 100) :
    ∀ ptep ∈ l, ptep.entcnt = ptep.ptePercent.toNat := fun _ hptep =>
  ProbTabEnt.entcnt_of_lt (by have := percent_le_total hptep; omega)

theorem tableSlots_length {l : List ProbTabEnt}
    (h : ∀ ptep ∈ l, ptep.entcnt = ptep.ptePercent.toNat) :
    (tableSlots l).length = percentTotal l := by
  induction l with
  | nil => rfl
  | cons ptep l ih =>
    have hhead := h ptep List.mem_cons_self
    rw [tableSlots_cons, List.length_append, List.length_replicate, hhead, Int.toNat_natCast,
      ih fun e he => h e (List.mem_cons_of_mem _ he)]
    rfl

/-- A table of a hundred percent, in a variable whose type was set. -/
structure FullTable {K : Type} (rndp : Randdist K) : Prop extends TableVar rndp where
  total : percentTotal rndp.rndProbtabs = 100

theorem FullTable.length {K : Type} {rndp : Randdist K} (h : FullTable rndp) :
    (tableSlots rndp.rndProbtabs).length = pfTabSize :=
  (tableSlots_length (entcnt_of_total h.total)).trans h.total

section scaled

variable {K : Type} [Field K]

theorem entries_tableTotal [CharZero K] {l : List ProbTabEnt}
    (h : ∀ ptep ∈ l, ptep.entcnt = ptep.ptePercent.toNat) :
    (l.map fun ptep => ((ptep.pteSegmin.toNat : K) + ptep.pteSegmax.toNat) / 2 * ptep.entcnt).sum =
      tableTotal l / 2 := by
  induction l with
  | nil => simp [tableTotal, tableSlots]
  | cons ptep l ih =>
    have hhead := h ptep List.mem_cons_self
    rw [List.map_cons, List.sum_cons, ih fun e he => h e (List.mem_cons_of_mem _ he),
      tableTotal_cons, hhead, Int.toNat_natCast]
    push_cast
    ring

theorem prepare_dblMean (rndp : Randdist K) :
    rndp.prepare.rndDblMean = rndp.convert.rndDblMean := by
  unfold Randdist.prepare Randdist.setSource
  split <;> rfl

theorem prepare_vintMin (rndp : Randdist K) : rndp.prepare.rndVintMin = rndp.rndMin := by
  unfold Randdist.prepare Randdist.setSource
  split <;> rfl

/-- How far the mean of the table is above its least value. -/
def spread (l : List ProbTabEnt) : K := tableMean l - tableMin l

variable [LinearOrder K] {bits : K → BitVec 64}

/-- The mean of the table, where no other one is given. -/
def Randdist.meanOf (rndp : Randdist K) : K :=
  if rndp.convert.rndDblMean = 0 then tableMean rndp.rndProbtabs else rndp.convert.rndDblMean

theorem fillEntry_tablemin (ptep : ProbTabEnt) (s : Fill K) :
    (fillEntry bits s ptep).tablemin =
      if s.pteidx = 0 then (ptep.pteSegmin.toNat : K) else min s.tablemin ptep.pteSegmin.toNat := by
  rw [fillEntry, (fillSlots_spec bits _ _ _).tablemin]
  dsimp only
  by_cases hidx : s.pteidx = 0
  · rw [if_pos hidx, if_neg (lt_irrefl _), if_pos hidx]
  · rw [if_neg hidx, if_neg hidx, min_def]
    split_ifs with hlt hle hle
    · exact absurd hlt hle.not_gt
    · rfl
    · rfl
    · exact absurd (not_lt.mp hlt) hle

variable [IsStrictOrderedRing K]

/-- Once a slot was written all entries count. -/
theorem fillEntries_tablemin {l : List ProbTabEnt} {s : Fill K} {m : ℕ} (hidx : 0 < s.pteidx)
    (hm : s.tablemin = m) : (l.foldl (fillEntry bits) s).tablemin =
      ((l.map (·.pteSegmin.toNat)).foldl min m : ℕ) := by
  induction l generalizing s m with
  | nil => exact hm
  | cons ptep l ih =>
    rw [List.foldl_cons, List.map_cons, List.foldl_cons]
    refine ih ?_ ?_
    · rw [(fillEntry_spec bits ptep s).pteidx]
      dsimp only
      omega
    · rw [fillEntry_tablemin, if_neg hidx.ne', hm, Nat.cast_min]

theorem fillEntries_tablemin_zero {l : List ProbTabEnt} {s : Fill K} (hidx : s.pteidx = 0)
    (hslots : tableSlots l ≠ []) : (l.foldl (fillEntry bits) s).tablemin = tableMin l := by
  induction l generalizing s with
  | nil => exact absurd rfl hslots
  | cons ptep l ih =>
    have hone := (fillEntry_spec bits ptep s).pteidx
    dsimp only at hone
    rw [List.foldl_cons, tableMin_cons]
    by_cases hcnt : ptep.entcnt ≤ 0
    · rw [if_pos hcnt]
      have hnone : ptep.entcnt.toNat = 0 := by omega
      refine ih (by rw [hone]; omega) ?_
      rwa [tableSlots_cons, hnone] at hslots
    · rw [if_neg hcnt]
      refine fillEntries_tablemin (by rw [hone]; omega) ?_
      rw [fillEntry_tablemin, if_pos hidx]

/-- What the lookup finds in the object. -/
structure Scaled (rndp rnd : Randdist K) : Prop where
  mean : rnd.rndDblMean = rndp.meanOf
  min : rnd.rndVintMin = rndp.rndMin
  slots : ∀ (i : Fin pfTabSize) (ptep : ProbTabEnt),
    (tableSlots rndp.rndProbtabs)[i.val]? = some ptep → rnd.rndRft i =
      if spread (K := K) rndp.rndProbtabs = 0 then ⟨0, 0⟩
      else normalize (tableMin rndp.rndProbtabs : K) (spread rndp.rndProbtabs) ptep.slot

theorem FullTable.scaled {rndp : Randdist K} (h : FullTable rndp) (bits : K → BitVec 64)
    (behind : ℕ → K) : Scaled rndp (randdistInitOne bits rndp behind).rnd := by
  have hfill := fillTable_spec bits rndp behind
  have hlength := h.length
  have hle : 0 + (tableSlots rndp.rndProbtabs).length ≤ pfTabSize := by omega
  have hsame := (hfill.same hle).rnd
  have hmin : (fillTable bits rndp.prepare behind).tablemin = tableMin rndp.rndProbtabs := by
    rw [fillTable, prepare_probtabs]
    refine fillEntries_tablemin_zero rfl fun hnil => ?_
    rw [hnil] at hlength
    exact absurd hlength (by decide)
  have hmean : (fillTable bits rndp.prepare behind).tablemean / pfTabSize =
      tableMean rndp.rndProbtabs := by
    rw [hfill.tablemean, entries_tableTotal (entcnt_of_total h.total), zero_add, tableMean_eq]
  have hspread : (fillTable bits rndp.prepare behind).tablemean / 100 -
      (fillTable bits rndp.prepare behind).tablemin = spread rndp.rndProbtabs := by
    rw [hmin, spread, ← hmean]
    norm_num [pfTabSize]
  have hdbl : (fillTable bits rndp.prepare behind).rnd.rndDblMean = rndp.convert.rndDblMean :=
    (congrArg Randdist.rndDblMean hsame).trans (prepare_dblMean rndp)
  rw [randdistInitOne_eq h.toTableVar]
  constructor
  · rw [Fill.finish, Randdist.meanOf, ← hdbl, ← hmean]
  · exact (congrArg Randdist.rndVintMin hsame).trans (prepare_vintMin rndp)
  · intro i ptep hptep
    rw [Fill.finish]
    dsimp only
    rw [hspread, hmin, hfill.slots i hle, if_pos (Nat.zero_le _), Nat.sub_zero, hptep]
    rfl

/-! ## The lookup -/

/-- What the place `t` of the segment is in the scaled table. -/
def ProbTabEnt.scaledAt (l : List ProbTabEnt) (ptep : ProbTabEnt) (t : K) : K :=
  if spread (K := K) l = 0 then 0
  else (Stretch.place (ptep.pteSegmin.toNat : K) ptep.pteSegmax.toNat t - tableMin l) / spread l

variable [FloorRing K]

theorem tableIndex_place (i : ℕ) {t : K} (ht : t ∈ Set.Ico 0 1) :
    tableIndex ((i + t) / pfTabSize) = i := by
  have hsize : (0 : K) < pfTabSize := by norm_num [pfTabSize]
  have hpos : (0 : K) ≤ i + t := add_nonneg (Nat.cast_nonneg i) ht.1
  rw [tableIndex, div_mul_cancel₀ _ hsize.ne', truncate, if_pos hpos, Int.floor_natCast_add,
    Int.floor_eq_zero_iff.mpr ht, add_zero]

theorem exists_place {u : K} (hu : u ∈ Set.Ico 0 1) :
    ∃ i < pfTabSize, ∃ t ∈ Set.Ico (0 : K) 1, u = (i + t) / pfTabSize := by
  have hsize : (0 : K) < pfTabSize := by norm_num [pfTabSize]
  have hscaled : 0 ≤ u * pfTabSize := mul_nonneg hu.1 hsize.le
  refine ⟨⌊u * pfTabSize⌋₊, ?_, Int.fract (u * pfTabSize),
    ⟨Int.fract_nonneg _, Int.fract_lt_one _⟩, ?_⟩
  · rw [Nat.floor_lt hscaled]
    exact mul_lt_of_lt_one_left hsize hu.2
  · rw [eq_div_iff hsize.ne', natCast_floor_eq_intCast_floor hscaled, Int.floor_add_fract]

/-- What the place `t` of a slot gives. -/
theorem Scaled.dsclres {rndp rnd : Randdist K} (h : Scaled rndp rnd) {i : ℕ}
    (hi : i < pfTabSize) {ptep : ProbTabEnt}
    (hptep : (tableSlots rndp.rndProbtabs)[i]? = some ptep) {t : K} (ht : t ∈ Set.Ico 0 1) :
    rnd.dsclres ((i + t) / pfTabSize) = some (ptep.scaledAt rndp.rndProbtabs t *
      (rndp.meanOf - rndp.rndMin.toNat) + rndp.rndMin.toNat) := by
  have hsize : (pfTabSize : K) ≠ 0 := by norm_num [pfTabSize]
  have hindex := tableIndex_place i ht
  have hslot := h.slots ⟨i, hi⟩ ptep hptep
  have hbound : 0 ≤ tableIndex ((i + t) / pfTabSize) ∧
      (tableIndex ((i + t) / pfTabSize)).toNat < pfTabSize := by
    rw [hindex]
    exact ⟨Int.natCast_nonneg i, hi⟩
  rw [Randdist.dsclres]
  dsimp only
  rw [dif_pos hbound, h.mean, h.min]
  simp only [hindex, Int.toNat_natCast, Int.cast_natCast]
  rw [hslot, div_mul_cancel₀ _ hsize, add_sub_cancel_left, ProbTabEnt.scaledAt]
  congr 3
  split_ifs
  · rw [zero_mul, add_zero]
  · rw [normalize, ProbTabEnt.slot, Stretch.place]
    ring

end scaled

end Filebench.FbRandom
