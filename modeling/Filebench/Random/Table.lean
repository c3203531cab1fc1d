import Filebench.Lib.CString
import Filebench.Lib.Double
import Filebench.Random.Randomno

/-! # Probability tables

A table of percentages and segments becomes a table of a hundred slots, which is scaled to a least
value of zero and a mean of one. A random number picks a slot and a place in it. Floating point is
replaced by exact arithmetic over a field `K`. -/
namespace Filebench.FbRandom

/-- What `avd_get_int` gives for the members of an entry. -/
structure ProbTabEnt where
  ptePercent : FbInt
  pteSegmin : FbInt
  pteSegmax : FbInt

structure RandFunc (K : Type) where
  rfBase : K
  rfRange : K

/-- `PF_TAB_SIZE` -/
def pfTabSize : ℕ := 100

inductive RandGet where
  | uniform
  | gamma
  | table
  deriving DecidableEq

inductive RandSrc where
  | rand48
  | urandom
  deriving DecidableEq

/-- The attributes are what `avd_get_int` gives for them, zero for one that is missing. -/
structure Randdist (K : Type) where
  rndGet : Option RandGet
  rndSrc : Option RandSrc
  rndSeed : FbInt
  rndMean : Option FbInt
  rndGamma : FbInt
  rndMin : FbInt
  rndRound : FbInt
  rndDblMean : K
  rndDblGamma : K
  rndVintMin : FbInt
  rndVintRound : FbInt
  rndProbtabs : List ProbTabEnt
  rndRft : Fin pfTabSize → RandFunc K
  rndXi : Fin 3 → BitVec 16
  rndType : BitVec 16

def randTypeMask : BitVec 16 := 0x0fff
def randSrcGenerator : BitVec 16 := 0x1000

section init

variable {K : Type} [Field K] [LinearOrder K]

/-! ## Parameters -/

/-- Converts the parameters to doubles. -/
def Randdist.convert (rndp : Randdist K) : Randdist K :=
  let dblGamma : K := rndp.rndGamma.toNat / 1000
  { rndp with
    rndDblGamma := dblGamma
    rndDblMean := rndp.rndMean.elim dblGamma fun mean => mean.toNat
    rndVintMin := rndp.rndMin
    rndVintRound := rndp.rndRound }

def distribution (rndType : BitVec 16) : Option RandGet :=
  if rndType &&& randTypeMask = 1 then some .uniform
  else if rndType &&& randTypeMask = 2 then some .gamma
  else if rndType &&& randTypeMask = 3 then some .table
  else none

/-- Not the variant for big endian machines. -/
def randSeedSet (rndp : Randdist K) : Randdist K :=
  { rndp with rndXi := fun idx => rndp.rndSeed.extractLsb' (16 * idx) 16 }

def Randdist.setSource (rndp : Randdist K) : Randdist K :=
  if rndp.rndType &&& randSrcGenerator ≠ 0 then
    randSeedSet { rndp with rndSrc := some .rand48 }
  else { rndp with rndSrc := some .urandom }

/-- The distribution to apply and the source of random numbers. -/
def Randdist.prepare (rndp : Randdist K) : Randdist K :=
  { rndp.convert with rndGet := distribution rndp.rndType }.setSource

/-! ## The table -/

/-- While the table is converted. `behind` are the doubles behind the object, and `writes` tells
which slots were written. -/
structure Fill (K : Type) where
  rnd : Randdist K
  behind : ℕ → K
  pteidx : ℕ
  tablemean : K
  tablemin : K
  writes : List ℕ

/-- `bits` are the bits of a double. A slot takes two doubles, and the one behind the table covers
`rnd_xi` and `rnd_type`, with which the object ends. -/
def Fill.setRft (bits : K → BitVec 64) (i : ℕ) (f : RandFunc K) (s : Fill K) : Fill K :=
  let s := { s with writes := s.writes ++ [i] }
  if h : i < pfTabSize then
    { s with rnd := { s.rnd with rndRft := Function.update s.rnd.rndRft ⟨i, h⟩ f } }
  else if i = pfTabSize then
    { s with
      rnd := { s.rnd with
        rndXi := fun j => (bits f.rfBase).extractLsb' (16 * j) 16
        rndType := (bits f.rfBase).extractLsb' 48 16 }
      behind := Function.update s.behind 0 f.rfRange }
  else
    { s with
      behind := Function.update (Function.update s.behind (2 * (i - pfTabSize) - 1) f.rfBase)
        (2 * (i - pfTabSize)) f.rfRange }

/-- `(int)` -/
def ProbTabEnt.entcnt (ptep : ProbTabEnt) : ℤ := (ptep.ptePercent.truncate 32).toInt

/-- The inner loop. -/
def fillSlots (bits : K → BitVec 64) (f : RandFunc K) : ℕ → Fill K → Fill K
  | 0, s => s
  | entcnt + 1, s =>
    fillSlots bits f entcnt { s.setRft bits s.pteidx f with pteidx := s.pteidx + 1 }

/-- One pass of the loop over the entries. -/
def fillEntry (bits : K → BitVec 64) (s : Fill K) (ptep : ProbTabEnt) : Fill K :=
  let dmax : K := ptep.pteSegmax.toNat
  let dmin : K := ptep.pteSegmin.toNat
  let tablemin := if s.pteidx = 0 then dmin else s.tablemin
  fillSlots bits ⟨dmin, dmax - dmin⟩ ptep.entcnt.toNat
    { s with
      tablemin := if dmin < tablemin then dmin else tablemin
      tablemean := s.tablemean + (dmin + dmax) / 2 * ptep.entcnt }

def probTotalError (pteidx : ℕ) : CString :=
  "Prob table only totals ".toList ++ Nat.toDigits 10 pteidx ++ "%".toList

def typeError : CString := "Random Type not Specified".toList

structure InitRet (K : Type) where
  rnd : Randdist K
  behind : ℕ → K
  log : List CString
  shutdown : Bool
  writes : List ℕ

def normalize (tablemin tablemean : K) (f : RandFunc K) : RandFunc K :=
  ⟨(f.rfBase - tablemin) / tablemean, f.rfRange / tablemean⟩

/-- The least value is not set before the first entry. -/
def fillTable (bits : K → BitVec 64) (rndp : Randdist K) (behind : ℕ → K) : Fill K :=
  rndp.rndProbtabs.foldl (fillEntry bits) ⟨rndp, behind, 0, 0, 0, []⟩

/-- What follows the loop over the entries. -/
def Fill.finish (s : Fill K) : InitRet K :=
  let tablemean := s.tablemean / 100 - s.tablemin
  { rnd := { s.rnd with
      rndDblMean := if s.rnd.rndDblMean = 0 then s.tablemean / pfTabSize else s.rnd.rndDblMean
      rndRft := fun i =>
        if tablemean = 0 then ⟨0, 0⟩ else normalize s.tablemin tablemean (s.rnd.rndRft i) }
    behind := s.behind
    log := if s.pteidx ≠ pfTabSize then [probTotalError s.pteidx] else []
    shutdown := false
    writes := s.writes ++ List.range pfTabSize }

def randdistInitOne (bits : K → BitVec 64) (rndp : Randdist K) (behind : ℕ → K) : InitRet K :=
  if distribution rndp.rndType = none then ⟨rndp.convert, behind, [typeError], true, []⟩
  else if rndp.prepare.rndProbtabs = [] then ⟨rndp.prepare, behind, [], false, []⟩
  else (fillTable bits rndp.prepare behind).finish

end init

/-! ## Random numbers -/

section get

variable {K : Type} [Field K] [LinearOrder K] [FloorRing K]

/-- `(int)` of a double -/
def truncate (x : K) : ℤ := if 0 ≤ x then ⌊x⌋ else ⌈x⌉

/-- The `round` of the library: halves away from zero. -/
def roundAway (x : K) : K := if 0 ≤ x then ⌊x + 1 / 2⌋ else ⌈x - 1 / 2⌉

def randSrcUrandom (randnum : BitVec 64) : K := randnum.toNat / filebenchRandmax64.toNat

/-- `idx` in `rand_table_get` -/
def tableIndex (dprob : K) : ℤ := truncate (dprob * pfTabSize)

/-- The result before it is rounded, if the slot is one of the table. -/
def Randdist.dsclres (rndp : Randdist K) (dprob : K) : Option K :=
  let dmin : K := rndp.rndVintMin.toNat
  let dprcnt := dprob * pfTabSize
  let idx := tableIndex dprob
  if h : 0 ≤ idx ∧ idx.toNat < pfTabSize then
    let slot := rndp.rndRft ⟨idx.toNat, h.2⟩
    let dtabres := slot.rfBase + slot.rfRange * (dprcnt - idx)
    some (dtabres * (rndp.rndDblMean - dmin) + dmin)
  else none

def randTableGet (rndp : Randdist K) (dprob : K) : Option K := do
  let dsclres ← rndp.dsclres dprob
  let dround : K := rndp.rndVintRound.toNat
  some (if dround = 0 then dsclres else roundAway (dsclres / dround) * dround)

end get

/-! ## Definitions in the script -/

/-- The attributes of `define randvar` that a table goes with. -/
structure RandvarAttrs where
  randsrc : Option RandSrc
  min : Option FbInt
  round : Option FbInt
  table : List ProbTabEnt

/-- A random variable with a table. The rest of the object is zeroed, also its mean. -/
def parserRandvarDefine {K : Type} [Zero K] (attrs : RandvarAttrs) : Randdist K where
  rndGet := none
  rndSrc := none
  rndSeed := 0
  rndMean := none
  rndGamma := 0
  rndMin := attrs.min.getD 0
  rndRound := attrs.round.getD 0
  rndDblMean := 0
  rndDblGamma := 0
  rndVintMin := 0
  rndVintRound := 0
  rndProbtabs := attrs.table
  rndRft _ := ⟨0, 0⟩
  rndXi _ := 0
  rndType := (match attrs.randsrc with
    | some .urandom => 0
    | some .rand48 => randSrcGenerator
    | none => randSrcGenerator) ||| 3

/-! ## The slots of a table -/

/-- The entry that each slot belongs to. -/
def tableSlots (l : List ProbTabEnt) : List ProbTabEnt :=
  l.flatMap fun ptep => List.replicate ptep.entcnt.toNat ptep

def ProbTabEnt.slot {K : Type} [Field K] (ptep : ProbTabEnt) : RandFunc K :=
  ⟨ptep.pteSegmin.toNat, ptep.pteSegmax.toNat - ptep.pteSegmin.toNat⟩

/-- The total of the percentages as they were supplied. -/
def percentTotal (l : List ProbTabEnt) : ℕ := (l.map fun ptep => ptep.ptePercent.toNat).sum

theorem tableSlots_cons (ptep : ProbTabEnt) (l : List ProbTabEnt) :
    tableSlots (ptep :: l) = List.replicate ptep.entcnt.toNat ptep ++ tableSlots l := rfl

section fill

variable {K : Type} [Field K] [LinearOrder K] (bits : K → BitVec 64) {s : Fill K}

/-- Everything but the slots is as before. -/
structure Fill.Same (s s' : Fill K) : Prop where
  rnd : { s'.rnd with rndRft := s.rnd.rndRft } = s.rnd
  behind : s'.behind = s.behind

omit [Field K] [LinearOrder K] in
theorem Fill.Same.refl (s : Fill K) : s.Same s := ⟨rfl, rfl⟩

omit [Field K] [LinearOrder K] in
theorem Fill.Same.trans {s s₁ s₂ : Fill K} (h : s.Same s₁) (h' : s₁.Same s₂) : s.Same s₂ := by
  refine ⟨?_, h'.behind.trans h.behind⟩
  rw [← h.rnd, ← h'.rnd]

/-- The inner loop. -/
structure Slotted (s s' : Fill K) (f : RandFunc K) (count : ℕ) : Prop where
  pteidx : s'.pteidx = s.pteidx + count
  writes : s'.writes = s.writes ++ List.range' s.pteidx count
  tablemean : s'.tablemean = s.tablemean
  tablemin : s'.tablemin = s.tablemin
  same : s.pteidx + count ≤ pfTabSize → s.Same s'
  slots : ∀ i : Fin pfTabSize, s.pteidx + count ≤ pfTabSize → s'.rnd.rndRft i =
    if s.pteidx ≤ i ∧ i < s.pteidx + count then f else s.rnd.rndRft i

omit [Field K] [LinearOrder K] in
theorem setRft_slotted (i : ℕ) (f : RandFunc K) (hi : i = s.pteidx) :
    Slotted s { s.setRft bits i f with pteidx := s.pteidx + 1 } f 1 := by
  subst hi
  by_cases h : s.pteidx < pfTabSize
  · have hset : s.setRft bits s.pteidx f =
        { s with
          writes := s.writes ++ [s.pteidx]
          rnd := { s.rnd with rndRft := Function.update s.rnd.rndRft ⟨s.pteidx, h⟩ f } } :=
      dif_pos h
    rw [hset]
    refine ⟨rfl, rfl, rfl, rfl, fun _ => ⟨rfl, rfl⟩, fun i _ => ?_⟩
    change Function.update s.rnd.rndRft ⟨s.pteidx, h⟩ f i = _
    rw [Function.update_apply]
    refine if_congr ?_ rfl rfl
    rw [Fin.ext_iff]
    dsimp only
    omega
  · have hwrites : (s.setRft bits s.pteidx f).writes = s.writes ++ [s.pteidx] ∧
        (s.setRft bits s.pteidx f).tablemean = s.tablemean ∧
        (s.setRft bits s.pteidx f).tablemin = s.tablemin := by
      unfold Fill.setRft
      rw [dif_neg h]
      dsimp only
      split <;> exact ⟨rfl, rfl, rfl⟩
    refine ⟨rfl, hwrites.1, hwrites.2.1, hwrites.2.2, fun hle => ?_, fun _ hle => ?_⟩
    · exact absurd hle (by omega)
    · exact absurd hle (by omega)

omit [Field K] [LinearOrder K] in
theorem fillSlots_spec (f : RandFunc K) (count : ℕ) (s : Fill K) :
    Slotted s (fillSlots bits f count s) f count := by
  induction count generalizing s with
  | zero =>
    refine ⟨rfl, (List.append_nil _).symm, rfl, rfl, fun _ => .refl s, fun i _ => ?_⟩
    rw [if_neg (by omega)]
    rfl
  | succ count ih =>
    have hone := setRft_slotted bits (s := s) s.pteidx f rfl
    have hrest := ih { s.setRft bits s.pteidx f with pteidx := s.pteidx + 1 }
    constructor
    · rw [fillSlots, hrest.pteidx]
      dsimp only
      omega
    · rw [fillSlots, hrest.writes, hone.writes, List.append_assoc]
      rfl
    · rw [fillSlots, hrest.tablemean, hone.tablemean]
    · rw [fillSlots, hrest.tablemin, hone.tablemin]
    · intro hle
      exact (hone.same (by omega)).trans (hrest.same (by dsimp only; omega))
    · intro i hle
      rw [fillSlots, hrest.slots i (by dsimp only; omega), hone.slots i (by omega)]
      dsimp only
      split_ifs with h₁ h₂ h₃ h₄ h₅
      · rfl
      · omega
      · rfl
      · omega
      · omega
      · rfl

/-- The loop over the entries. -/
structure Filled (s s' : Fill K) (l : List ProbTabEnt) : Prop where
  pteidx : s'.pteidx = s.pteidx + (tableSlots l).length
  writes : s'.writes = s.writes ++ List.range' s.pteidx (tableSlots l).length
  tablemean : s'.tablemean = s.tablemean +
    (l.map fun ptep => ((ptep.pteSegmin.toNat : K) + ptep.pteSegmax.toNat) / 2 * ptep.entcnt).sum
  same : s.pteidx + (tableSlots l).length ≤ pfTabSize → s.Same s'
  slots : ∀ i : Fin pfTabSize, s.pteidx + (tableSlots l).length ≤ pfTabSize → s'.rnd.rndRft i =
    if s.pteidx ≤ i then ((tableSlots l)[i - s.pteidx]?.elim (s.rnd.rndRft i) (·.slot))
    else s.rnd.rndRft i

theorem fillEntry_spec (ptep : ProbTabEnt) (s : Fill K) :
    Slotted { s with
        tablemean := s.tablemean +
          ((ptep.pteSegmin.toNat : K) + ptep.pteSegmax.toNat) / 2 * ptep.entcnt
        tablemin := (fillEntry bits s ptep).tablemin }
      (fillEntry bits s ptep) ptep.slot ptep.entcnt.toNat := by
  have h := fillSlots_spec bits (ptep.slot (K := K)) ptep.entcnt.toNat
    { s with
      tablemin :=
        if (ptep.pteSegmin.toNat : K) <
          (if s.pteidx = 0 then (ptep.pteSegmin.toNat : K) else s.tablemin)
        then ptep.pteSegmin.toNat
        else (if s.pteidx = 0 then (ptep.pteSegmin.toNat : K) else s.tablemin)
      tablemean := s.tablemean +
        ((ptep.pteSegmin.toNat : K) + ptep.pteSegmax.toNat) / 2 * ptep.entcnt }
  exact ⟨h.pteidx, h.writes, h.tablemean, rfl, fun hle => ⟨(h.same hle).rnd, (h.same hle).behind⟩,
    h.slots⟩

theorem fillEntries_spec (l : List ProbTabEnt) (s : Fill K) :
    Filled s (l.foldl (fillEntry bits) s) l := by
  induction l generalizing s with
  | nil =>
    refine ⟨rfl, (List.append_nil _).symm, (add_zero _).symm, fun _ => .refl s, fun i _ => ?_⟩
    split <;> rfl
  | cons ptep l ih =>
    have hone := fillEntry_spec bits ptep s
    have hrest := ih (fillEntry bits s ptep)
    have hlen : (tableSlots (ptep :: l)).length =
        ptep.entcnt.toNat + (tableSlots l).length := by
      rw [tableSlots_cons, List.length_append, List.length_replicate]
    have hpteidx : (fillEntry bits s ptep).pteidx = s.pteidx + ptep.entcnt.toNat := hone.pteidx
    constructor
    · rw [List.foldl_cons, hrest.pteidx, hpteidx, hlen, Nat.add_assoc]
    · rw [List.foldl_cons, hrest.writes, hone.writes, hpteidx, List.append_assoc,
        List.range'_append_1, hlen]
    · rw [List.foldl_cons, hrest.tablemean, hone.tablemean, List.map_cons, List.sum_cons,
        add_assoc]
    · intro hle
      rw [hlen] at hle
      have hsame := hone.same (by dsimp only; omega)
      have hsame' : s.Same (fillEntry bits s ptep) := ⟨hsame.rnd, hsame.behind⟩
      exact hsame'.trans (hrest.same (by omega))
    · intro i hle
      rw [hlen] at hle
      rw [List.foldl_cons, hrest.slots i (by omega), hone.slots i (by dsimp only; omega), hpteidx,
        tableSlots_cons]
      dsimp only
      by_cases hlow : s.pteidx ≤ i
      · rw [if_pos hlow]
        by_cases hin : (i : ℕ) < s.pteidx + ptep.entcnt.toNat
        · rw [if_neg (by omega), if_pos ⟨hlow, hin⟩, List.getElem?_append_left (by simp; omega),
            List.getElem?_replicate, if_pos (by omega)]
          rfl
        · rw [if_pos (by omega), if_neg (by omega), List.getElem?_append_right (by simp; omega),
            List.length_replicate, Nat.sub_sub]
      · rw [if_neg hlow, if_neg (by omega), if_neg (by omega)]

end fill

/-! ## Tables that go over the end -/

/-- A table that the grammar makes, in a variable whose type was set. -/
structure TableVar {K : Type} (rndp : Randdist K) : Prop where
  entries : rndp.rndProbtabs ≠ []
  typed : distribution rndp.rndType ≠ none

section safe

variable {K : Type} [Field K] [LinearOrder K]

/-- Only slots of the table are written, and a table of another total is reported, with the members
but the table and the mean as they are to be. -/
structure TableSafe (rndp : Randdist K) (ret : InitRet K) : Prop where
  bounded : ∀ i ∈ ret.writes, i < pfTabSize
  diagnosed : percentTotal rndp.rndProbtabs ≠ 100 →
    probTotalError (tableSlots rndp.rndProbtabs).length ∈ ret.log ∧
      { ret.rnd with
        rndRft := rndp.prepare.rndRft, rndDblMean := rndp.prepare.rndDblMean } = rndp.prepare

theorem prepare_probtabs (rndp : Randdist K) : rndp.prepare.rndProbtabs = rndp.rndProbtabs := by
  unfold Randdist.prepare Randdist.setSource
  split <;> rfl

theorem randdistInitOne_eq {rndp : Randdist K} (h : TableVar rndp) (bits : K → BitVec 64)
    (behind : ℕ → K) : randdistInitOne bits rndp behind =
      (fillTable bits rndp.prepare behind).finish := by
  rw [randdistInitOne, if_neg h.typed, prepare_probtabs, if_neg h.entries]

/-- What the loop over the entries leaves. -/
theorem fillTable_spec (bits : K → BitVec 64) (rndp : Randdist K) (behind : ℕ → K) :
    Filled ⟨rndp.prepare, behind, 0, 0, 0, []⟩ (fillTable bits rndp.prepare behind)
      rndp.rndProbtabs := by
  have h := fillEntries_spec bits rndp.rndProbtabs
    (⟨rndp.prepare, behind, 0, 0, 0, []⟩ : Fill K)
  rw [fillTable, prepare_probtabs]
  exact h

/-- The slots of the table are kept to, and other totals reported, if and only if the percentages,
each cut to an `int` and counted if positive, total no more than a hundred, and not a hundred when
they do not as supplied. -/
theorem randdistInitOne_safe {rndp : Randdist K} (h : TableVar rndp) (bits : K → BitVec 64)
    (behind : ℕ → K) : TableSafe rndp (randdistInitOne bits rndp behind) ↔
      (tableSlots rndp.rndProbtabs).length ≤ pfTabSize ∧
        (percentTotal rndp.rndProbtabs ≠ 100 →
          (tableSlots rndp.rndProbtabs).length ≠ pfTabSize) := by
  have hfill := fillTable_spec bits rndp behind
  have hpteidx : (fillTable bits rndp.prepare behind).pteidx =
      (tableSlots rndp.rndProbtabs).length := hfill.pteidx.trans (Nat.zero_add _)
  have hwrites : (fillTable bits rndp.prepare behind).writes =
      List.range (tableSlots rndp.rndProbtabs).length := by
    rw [hfill.writes, List.nil_append, List.range_eq_range']
  rw [randdistInitOne_eq h]
  constructor
  · rintro ⟨hbounded, hdiagnosed⟩
    constructor
    · by_contra hgt
      refine absurd (hbounded pfTabSize ?_) (Nat.lt_irrefl _)
      refine List.mem_append_left _ ?_
      rw [hwrites]
      exact List.mem_range.mpr (Nat.not_le.mp hgt)
    · intro hpercent heq
      have hlog := (hdiagnosed hpercent).1
      rw [Fill.finish, hpteidx, if_neg (not_not.mpr heq)] at hlog
      exact absurd hlog List.not_mem_nil
  · rintro ⟨hle, htotal⟩
    constructor
    · intro i hi
      rcases List.mem_append.mp hi with hi | hi
      · rw [hwrites] at hi
        exact (List.mem_range.mp hi).trans_le hle
      · exact List.mem_range.mp hi
    · intro hpercent
      have hsame := hfill.same (by rw [Nat.zero_add]; exact hle)
      constructor
      · rw [Fill.finish, hpteidx, if_pos (htotal hpercent)]
        exact .head _
      · exact congrArg (fun r => { r with rndDblMean := rndp.prepare.rndDblMean }) hsame.rnd

end safe

/-- A variable with nothing but a table. -/
def tableOnly (l : List ProbTabEnt) : Randdist ℚ := parserRandvarDefine ⟨none, none, none, l⟩

theorem tableOnly_typed {l : List ProbTabEnt} (h : l ≠ []) : TableVar (tableOnly l) :=
  ⟨h, show distribution (randSrcGenerator ||| 3) ≠ none by decide⟩

/-- 60% and 30%. -/
theorem randdistInitOne_safe_ninety :
    TableSafe (tableOnly [⟨60, 0, 8⟩, ⟨30, 8, 9⟩])
      (randdistInitOne (fun _ => 0) (tableOnly [⟨60, 0, 8⟩, ⟨30, 8, 9⟩]) fun _ => 0) :=
  (randdistInitOne_safe (tableOnly_typed (List.cons_ne_nil _ _)) _ _).mpr (by decide)

/-- 101% of the number one, all of whose doubles have the bits of 1.0. -/
def overfull : InitRet ℚ :=
  randdistInitOne (fun _ => 0x3ff0000000000000) (tableOnly [⟨101, 1, 1⟩]) fun _ => 0

/-- The last of them is written over the type of the variable. -/
theorem randdistInitOne_corrupts :
    100 ∈ overfull.writes ∧ overfull.rnd.rndType = 0x3ff0 ∧
      ¬ TableSafe (tableOnly [⟨101, 1, 1⟩]) overfull := by
  have hwrites : 100 ∈ overfull.writes := by decide +kernel
  refine ⟨hwrites, by decide +kernel, fun hsafe => ?_⟩
  exact absurd (hsafe.bounded 100 hwrites) (by decide)

/-! ## The index of a slot -/

/-- What the two sources deliver: a word of the device, or a number below one. -/
inductive SourceValue where
  | urandom (randnum : BitVec 64)
  | rand48 (dprob : Set.Ico (0 : ℚ) 1)

def SourceValue.dprob : SourceValue → ℚ
  | .urandom randnum => randSrcUrandom randnum
  | .rand48 dprob => dprob

section index

variable {K : Type} [Field K] [LinearOrder K] [IsStrictOrderedRing K] [FloorRing K]

/-- A number of the unit interval picks a slot of the table exactly if it is not one. -/
theorem tableIndex_mem_iff {dprob : K} (hpos : 0 ≤ dprob) :
    (0 ≤ tableIndex dprob ∧ tableIndex dprob < pfTabSize) ↔ dprob < 1 := by
  have hsize : (0 : K) < pfTabSize := by norm_num [pfTabSize]
  have hscaled : 0 ≤ dprob * pfTabSize := by positivity
  rw [tableIndex, truncate, if_pos hscaled, Int.floor_lt]
  rw [and_iff_right (Int.floor_nonneg.mpr hscaled), Int.cast_natCast]
  exact mul_lt_iff_lt_one_left hsize

end index

/-- All words but the greatest pick a slot of the table. -/
theorem randTableGet_index (v : SourceValue) :
    (0 ≤ tableIndex v.dprob ∧ tableIndex v.dprob < pfTabSize) ↔
      v ≠ .urandom (BitVec.allOnes 64) := by
  cases v with
  | rand48 dprob =>
    refine iff_of_true ((tableIndex_mem_iff dprob.2.1).mpr dprob.2.2) nofun
  | urandom randnum =>
    have hmax : (0 : ℚ) < filebenchRandmax64.toNat := Nat.cast_pos.mpr (by decide)
    have hpos : (0 : ℚ) ≤ randSrcUrandom randnum := by
      unfold randSrcUrandom
      positivity
    rw [SourceValue.dprob, tableIndex_mem_iff hpos, randSrcUrandom, div_lt_one hmax, Nat.cast_lt,
      ne_eq, SourceValue.urandom.injEq, ← BitVec.toNat_inj]
    have hlt := randnum.isLt
    have hones : (BitVec.allOnes 64).toNat = filebenchRandmax64.toNat := by decide
    have hval : filebenchRandmax64.toNat = 2 ^ 64 - 1 := by decide
    omega

/-- `rand_src_urandom` with both words rounded to doubles first. -/
def randSrcUrandomDouble (randnum : BitVec 64) : ℚ :=
  Double.roundDouble randnum.toNat / Double.roundDouble filebenchRandmax64.toNat

theorem roundDouble_randmax : Double.roundDouble filebenchRandmax64.toNat = 2 ^ 64 := by
  have hpos : (0 : ℚ) < filebenchRandmax64.toNat := Nat.cast_pos.mpr (by decide)
  have hval : (filebenchRandmax64.toNat : ℚ) = 2 ^ 64 - 1 := by
    rw [show filebenchRandmax64.toNat = 2 ^ 64 - 1 by decide]
    norm_num
  have hlog : Int.log 2 (filebenchRandmax64.toNat : ℚ) = 63 := by
    rw [Int.log_natCast]
    decide +kernel
  have hulp : Double.ulp (filebenchRandmax64.toNat : ℚ) = 2 ^ 11 := by
    rw [Double.ulp, abs_of_pos hpos, hlog]
    norm_num
  have hle := Double.roundDouble_le hpos
  have hlt := (Double.roundDouble_lt_iff hpos).not.mpr (by
    rw [hlog, hulp, hval]
    norm_num)
  rw [hlog] at hle hlt
  exact le_antisymm (hle.trans_eq (by norm_num)) (le_trans (by norm_num) (not_lt.mp hlt))

theorem roundDouble_word {n : ℕ} (hpos : 0 < n) (hn : n < 2 ^ 64) :
    Double.roundDouble (n : ℚ) < 2 ^ 64 ↔ n < 2 ^ 64 - 2 ^ 10 := by
  have hpos' : (0 : ℚ) < n := Nat.cast_pos.mpr hpos
  have hlog : Int.log 2 (n : ℚ) = (Nat.log 2 n : ℤ) := Int.log_natCast 2 n
  have hlog_lt : Nat.log 2 n < 64 := Nat.log_lt_of_lt_pow hpos.ne' hn
  rcases Nat.lt_or_ge (Nat.log 2 n) 63 with hsmall | hlarge
  · have hle := Double.roundDouble_le hpos'
    have hpow : (2 : ℚ) ^ (Int.log 2 (n : ℚ) + 1) ≤ 2 ^ 63 := by
      rw [hlog, ← zpow_natCast 2 63]
      exact zpow_le_zpow_right₀ (by norm_num) (by push_cast; omega)
    have hn' : n < 2 ^ 63 := by
      rw [← Nat.log_lt_iff_lt_pow (by norm_num) hpos.ne']
      exact hsmall
    exact iff_of_true (hle.trans_lt (hpow.trans_lt (by norm_num))) (by omega)
  · have hlog63 : Int.log 2 (n : ℚ) = 63 := by
      rw [hlog]
      omega
    have hulp : Double.ulp (n : ℚ) = 2 ^ 11 := by
      rw [Double.ulp, abs_of_pos hpos', hlog63]
      norm_num
    have hiff := Double.roundDouble_lt_iff hpos'
    rw [hlog63, hulp] at hiff
    have hcast : (n : ℚ) < 2 ^ 64 - 2 ^ 10 ↔ n < 2 ^ 64 - 2 ^ 10 := by
      rw [show (2 : ℚ) ^ 64 - 2 ^ 10 = ((2 ^ 64 - 2 ^ 10 : ℕ) : ℚ) by norm_num, Nat.cast_lt]
    rw [← hcast]
    convert hiff using 2 <;> norm_num

theorem roundDouble_nonneg (n : ℕ) : 0 ≤ Double.roundDouble (n : ℚ) := by
  rcases n.eq_zero_or_pos with rfl | hpos
  · simp [Double.roundDouble]
  · have hle := Double.zpow_log_le_roundDouble (x := n) (Nat.cast_pos.mpr hpos)
    exact le_trans (by positivity) hle

/-- As doubles the last 1024 words pick the slot behind the table. -/
theorem tableIndex_double (randnum : BitVec 64) :
    tableIndex (randSrcUrandomDouble randnum) < pfTabSize ↔ randnum.toNat < 2 ^ 64 - 2 ^ 10 := by
  have hmax : (0 : ℚ) < 2 ^ 64 := by norm_num
  have hpos : 0 ≤ randSrcUrandomDouble randnum := by
    rw [randSrcUrandomDouble, roundDouble_randmax]
    exact div_nonneg (roundDouble_nonneg _) hmax.le
  have hindex := tableIndex_mem_iff hpos
  have hnonneg : 0 ≤ tableIndex (randSrcUrandomDouble randnum) := by
    rw [tableIndex, truncate, if_pos (by positivity)]
    exact Int.floor_nonneg.mpr (by positivity)
  rw [and_iff_right hnonneg] at hindex
  rw [hindex, randSrcUrandomDouble, roundDouble_randmax, div_lt_one hmax]
  rcases randnum.toNat.eq_zero_or_pos with hzero | hrand
  · rw [hzero]
    refine iff_of_true ?_ (by norm_num)
    simp [Double.roundDouble]
  · exact roundDouble_word hrand randnum.isLt

/-- The greatest word picks the slot behind the table. -/
theorem randTableGet_behind :
    tableIndex (SourceValue.dprob (.urandom (BitVec.allOnes 64))) = 100 ∧
      ¬ tableIndex (SourceValue.dprob (.urandom (BitVec.allOnes 64))) < pfTabSize := by
  decide +kernel

end Filebench.FbRandom
