import Filebench.Fileset.Run
import Filebench.Flowop.Library
import Filebench.Vars.Operation

/-! # Picking by an index

A flowop may say which entry it wants. The index is brought into the range of the entries before the
fileset is asked, and so before anyone sees whether it has any. -/
namespace Filebench

open Avl Fuel

/-- What becomes of a pick. Two of the outcomes are no return. -/
inductive PickOutcome where
  | divideByZero
  | wait
  | ret (r : FlowopRet) (entry : Option Entry)

def pickOutcome : PickResult → PickOutcome
  | .wait => .wait
  | .null => .ret .norsc none
  | .nullLocked => .ret .norsc none
  | .entry e => .ret .ok (some e)

section pick

variable {D : Type} [DoubleOps D] (toInt : D → BitVec 32) (fuel : ℕ)

/-- The index among `count` entries that the attribute asks for, where `toInt` is the conversion of
a double to `int`. -/
def fileindex (attr : D) (count : ℕ) : Option ℤ :=
  let index := toInt (attr * DoubleOps.ofFbInt (.ofNat 64 (count / 2)))
  if count = 0 then none
  else some (BitVec.ofNat 32 ((index.signExtend 64).toNat % count)).toInt

/-- A pick of either type, with the flags that the flowop adds. -/
def pickByIndex (foFileset : Option Fileset) (flags : PickFlags) (count : Fileset → ℕ)
    (attr : Option D) (tid random : ℕ) : Option (PickOutcome × Option Fileset) :=
  match foFileset, attr with
  | none, _ => some (.ret .error none, none)
  | some fs, none => (filesetPick fuel fs flags tid 0 random).map (Prod.map pickOutcome some)
  | some fs, some attr =>
    match fileindex toInt attr (count fs) with
    | none => some (.divideByZero, fs)
    | some index =>
      (filesetPick fuel fs { flags with byindex := true } tid index random).map
        (Prod.map pickOutcome some)

def flowoplibPickfile (foFileset : Option Fileset) (attr : Option D) (unique noexist : Bool)
    (tid random : ℕ) : Option (PickOutcome × Option Fileset) :=
  pickByIndex toInt fuel foFileset ⟨.file, unique, noexist, false⟩ (·.fsConstentries) attr tid
    random

def flowoplibPickleafdir (foFileset : Option Fileset) (attr : Option D) (unique noexist : Bool)
    (random : ℕ) : Option (PickOutcome × Option Fileset) :=
  pickByIndex toInt fuel foFileset ⟨.leafdir, unique, noexist, false⟩ (·.fsConstleafdirs) attr 0
    random

end pick

/-- No entry of the type, or none that exists or does not as it should while some are idle. -/
def NoEntry (fs : Fileset) (flags : PickFlags) : Prop :=
  fs.fsList flags.type = [] ∨
    fs.fsIdle flags.type ≠ 0 ∧ avlIsEmpty (fs.fsTree (pickTree flags)) = true

/-- The pick does not divide by zero, and says so when there is no entry. -/
structure PicksWell (fs : Fileset) (flags : PickFlags)
    (pick : ℕ → Option (PickOutcome × Option Fileset)) : Prop where
  divides : ∀ fuel r, pick fuel = some r → r.1 ≠ .divideByZero
  norsc : NoEntry fs flags → Returns pick (.ret .norsc none, some fs)

theorem filesetPick_noEntry {fs : Fileset} {flags : PickFlags} (h : NoEntry fs flags) (fuel tid : ℕ)
    (index : ℤ) (random : ℕ) : filesetPick fuel fs flags tid index random = some (.null, fs) := by
  by_cases hlist : fs.fsList flags.type = []
  · exact if_pos hlist
  · rcases h with hempty | ⟨hidle, htree⟩
    · exact absurd hempty hlist
    · rw [filesetPick, if_neg hlist, if_neg hidle]
      exact if_pos htree

section outcome

variable {D : Type} [DoubleOps D] {toInt : D → BitVec 32} {fs : Fileset} {flags : PickFlags}

/-- With the index known it is up to the fileset. -/
theorem picksWell_of_pick {flags' : PickFlags} {tid random : ℕ} {index : ℤ}
    (hflags : NoEntry fs flags → NoEntry fs flags') : PicksWell fs flags fun fuel =>
      (filesetPick fuel fs flags' tid index random).map (Prod.map pickOutcome some) where
  divides fuel r h := by
    obtain ⟨p, -, rfl⟩ := Option.map_eq_some_iff.mp h
    intro hdiv
    cases hres : p.1 with
    | _ =>
      rw [Prod.map_fst, hres] at hdiv
      cases hdiv
  norsc h := by
    refine returns_of_const fun fuel => ?_
    rw [filesetPick_noEntry (hflags h)]
    rfl

theorem pickByIndex_well_iff (count : Fileset → ℕ) (attr : Option D) (tid random : ℕ) :
    (PicksWell fs flags fun fuel => pickByIndex toInt fuel (some fs) flags count attr tid random) ↔
      attr = none ∨ count fs ≠ 0 := by
  cases attr with
  | none => exact iff_of_true (picksWell_of_pick id) (.inl rfl)
  | some attr =>
    by_cases hcount : count fs = 0
    · refine iff_of_false (fun h => ?_) (by simp [hcount])
      exact h.divides 0 (.divideByZero, some fs) (by simp [pickByIndex, fileindex, hcount]) rfl
    · refine iff_of_true ?_ (.inr hcount)
      simp only [pickByIndex, fileindex, if_neg hcount]
      exact picksWell_of_pick id

end outcome

/-- The pick of a populated fileset divides by zero exactly when the flowop has an index and the
fileset was asked for none of the entries. -/
theorem flowoplibPick_well_iff {smp : Samples} {fuel n E L : ℕ} {s : Shm} {fs : Fileset}
    (hpop : filesetPopulate smp fuel (newShm n) E L = some (.ok, s)) (hrun : FsRun s.fs fs)
    {D : Type} [DoubleOps D] (toInt : D → BitVec 32) (attr : Option D) (unique noexist : Bool)
    (tid random : ℕ) :
    ((PicksWell fs ⟨.file, unique, noexist, false⟩ fun fuel =>
        flowoplibPickfile toInt fuel (some fs) attr unique noexist tid random) ↔
      attr = none ∨ E ≠ 0) ∧
    ((PicksWell fs ⟨.leafdir, unique, noexist, false⟩ fun fuel =>
        flowoplibPickleafdir toInt fuel (some fs) attr unique noexist random) ↔
      attr = none ∨ L ≠ 0) := by
  have hP := filesetPopulate_populated hpop
  have hsame := (hrun.inv hP.inv.fsInv).2
  have hE : fs.fsConstentries = E := (hsame.maxEntries .file).trans hP.constentries
  have hL : fs.fsConstleafdirs = L := (hsame.maxEntries .leafdir).trans hP.constleafdirs
  constructor
  · rw [← hE]
    exact pickByIndex_well_iff _ attr tid random
  · rw [← hL]
    exact pickByIndex_well_iff _ attr 0 random

theorem flowoplibPick_well_three : ∃ fs : Fileset,
    ((PicksWell fs ⟨.file, false, false, false⟩ fun fuel =>
        @flowoplibPickfile ℚ rationals (fun _ => 0) fuel (some fs) (some 1) false false 1 0) ↔
      some (1 : ℚ) = none ∨ 3 ≠ 0) ∧
    ((PicksWell fs ⟨.leafdir, false, false, false⟩ fun fuel =>
        @flowoplibPickleafdir ℚ rationals (fun _ => 0) fuel (some fs) (some 1) false false 0) ↔
      some (1 : ℚ) = none ∨ 0 ≠ 0) := by
  obtain ⟨fuel, s, hpop⟩ := filesetPopulate_const 3 0
  exact ⟨s.fs, @flowoplibPick_well_iff _ _ _ _ _ _ _ hpop .refl ℚ rationals (fun _ => 0) (some 1)
    false false 1 0⟩

/-- Three files, and a flowop that wants a leaf directory by its index. -/
theorem flowoplibPickleafdir_divides : ∃ fuel s,
    filesetPopulate (.const 2 2 100) fuel (newShm 0) 3 0 = some (.ok, s) ∧
    s.fs.fsList .leafdir = [] ∧
    ∀ fuel, @flowoplibPickleafdir ℚ rationals (fun _ => 0) fuel (some s.fs) (some 1) false false 0 =
      some (.divideByZero, some s.fs) := by
  obtain ⟨fuel, s, hpop⟩ := filesetPopulate_const 3 0
  have hP := filesetPopulate_populated hpop
  refine ⟨fuel, s, hpop, List.eq_nil_of_length_eq_zero hP.leafdirs, fun fuel => ?_⟩
  simp [flowoplibPickleafdir, pickByIndex, fileindex, hP.constleafdirs]

end Filebench
