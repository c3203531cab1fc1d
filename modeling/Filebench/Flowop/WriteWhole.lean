import Filebench.Flowop.Slots
import Filebench.Lib.Returns

/-! # Writing a whole file

The file is written in pieces of one I/O size. The size of the next write is computed before the
position moves on, and is an `int`. -/
namespace Filebench

open Fuel

/-- The attributes that the flowop reads besides those of `flowoplib_filesetup`, the sizes of the
entries, and whether a buffer can be set up. -/
structure WritewholeArgs where
  foIosize : FbInt
  foSrcfdnumber : ℕ
  fseSize : Entry → FbInt
  iobufsetup : FbInt → Bool

/-- What `FB_WRITE` returns, by the number of writes before and the size. -/
abbrev FbWrite := ℕ → FbInt → BitVec 32

/-- `endop` is the size that `flowop_endop` is called with, `writes` the sizes of the writes. -/
structure WriteResult where
  ret : FlowopRet
  endop : Option FbInt
  writes : List FbInt

/-- The macro `MIN`. -/
def fbMin (x y : FbInt) : FbInt := if x < y then x else y

/-- The loop, where `wsize` is the size of the next write. -/
def writewholeLoop (fbWrite : FbWrite) (wss iosize : FbInt) :
    ℕ → FbInt → BitVec 32 → FbInt → List FbInt → Option WriteResult
  | 0, _, _, _, _ => none
  | fuel + 1, seek, wsize, bytes, writes =>
    if seek < wss then
      let size := wsize.signExtend 64
      let ret := fbWrite writes.length size
      if ret ≠ wsize then some ⟨.error, some 0, writes ++ [size]⟩
      else
        let wsize := (fbMin (wss - seek) iosize).setWidth 32
        let bytes := bytes + ret.signExtend 64
        writewholeLoop fbWrite wss iosize fuel (seek + wsize.signExtend 64) wsize bytes
          (writes ++ [size])
    else some ⟨.ok, some bytes, writes⟩

/-- An I/O size of zero stands for the working set size. -/
def WritewholeArgs.iosize (args : WritewholeArgs) (wss : FbInt) : FbInt :=
  if args.foIosize = 0 then wss else args.foIosize

/-- The size of the source file, when there is one, comes before the working set size. -/
def WritewholeArgs.wss (args : WritewholeArgs) (tf : Threadflow) (wss : FbInt) : FbInt :=
  match tf.tfFse args.foSrcfdnumber with
  | some file => args.fseSize file
  | none => wss

/-- `setup` is the result of `flowoplib_filesetup`, and `tf` the thread after it. -/
def flowoplibWritewholefile (args : WritewholeArgs) (fbWrite : FbWrite) (fuel : ℕ)
    (setup : Except FlowopRet (ℕ × ℕ)) (tf : Threadflow) : Option WriteResult :=
  match setup with
  | .error ret => some ⟨ret, none, []⟩
  | .ok (_, wss) =>
    let wss := BitVec.ofNat 64 wss
    let iosize := args.iosize wss
    if iosize ≠ 0 ∧ args.iobufsetup iosize = false then some ⟨.error, none, []⟩
    else if args.foSrcfdnumber ≠ 0 ∧ tf.tfFse args.foSrcfdnumber = none then
      some ⟨.error, none, []⟩
    else
      let wss := args.wss tf wss
      writewholeLoop fbWrite wss iosize fuel 0 ((fbMin wss iosize).setWidth 32) 0 []

/-- Every write returns the size that it was asked for. -/
def FbWrite.Full (fbWrite : FbWrite) : Prop := ∀ i size, fbWrite i size = size.setWidth 32

/-- All writes but the last one are of the I/O size, and together they are the whole file. -/
structure WholeFile (wss iosize : FbInt) (writes : List FbInt) : Prop where
  total : (writes.map BitVec.toNat).sum = wss.toNat
  sizes : ∀ size ∈ writes.dropLast, size = iosize

/-- The size after it went through an `int`. -/
def narrow (size : FbInt) : FbInt := (size.setWidth 32).signExtend 64

/-- The size comes back from an `int`. -/
def FitsInt (size : FbInt) : Prop := size.toNat < 2 ^ 31 ∨ 2 ^ 64 - 2 ^ 31 ≤ size.toNat

theorem setWidth_signExtend (x : BitVec 32) : (x.signExtend 64).setWidth 32 = x := by
  refine BitVec.eq_of_getLsbD_eq fun i hi => ?_
  have hlt : i < 64 := by omega
  rw [BitVec.getLsbD_setWidth, BitVec.getLsbD_signExtend]
  simp [hi, hlt]

theorem toNat_narrow (x : FbInt) : (narrow x).toNat =
    x.toNat % 2 ^ 32 + if 2 ^ 31 ≤ x.toNat % 2 ^ 32 then 2 ^ 64 - 2 ^ 32 else 0 := by
  rw [narrow, BitVec.toNat_signExtend, BitVec.toNat_setWidth, BitVec.toNat_setWidth,
    BitVec.msb_eq_decide, BitVec.toNat_setWidth]
  have hlt : x.toNat % 2 ^ 32 < 2 ^ 64 := by omega
  rw [Nat.mod_eq_of_lt hlt]
  simp

theorem narrow_eq_iff {x y : FbInt} :
    narrow x = y ↔ FitsInt y ∧ x.toNat ≡ y.toNat [MOD 2 ^ 32] := by
  rw [BitVec.toNat_inj.symm, toNat_narrow, FitsInt, Nat.ModEq]
  have hx := x.isLt
  have hy := y.isLt
  split <;> omega

section loop

variable {fbWrite : FbWrite} {wss iosize : FbInt}

/-- One turn of the loop with a full write. -/
theorem writewholeLoop_succ (hfull : fbWrite.Full) (fuel : ℕ) (seek : FbInt) (wsize : BitVec 32)
    (bytes : FbInt) (writes : List FbInt) :
    writewholeLoop fbWrite wss iosize (fuel + 1) seek wsize bytes writes =
      if seek < wss then
        writewholeLoop fbWrite wss iosize fuel (seek + narrow (fbMin (wss - seek) iosize))
          ((fbMin (wss - seek) iosize).setWidth 32) (bytes + wsize.signExtend 64)
          (writes ++ [wsize.signExtend 64])
      else some ⟨.ok, some bytes, writes⟩ := by
  rw [writewholeLoop]
  simp only [hfull _ _, setWidth_signExtend, ne_eq, not_true_eq_false, if_false]
  rfl

/-- The writes of one turn come before those of the following ones. -/
theorem writewholeLoop_beginning (hfull : fbWrite.Full) (fuel : ℕ) {seek : FbInt}
    {wsize : BitVec 32} {bytes : FbInt} {writes : List FbInt} {r : WriteResult}
    (h : writewholeLoop fbWrite wss iosize fuel seek wsize bytes writes = some r) :
    writes <+: r.writes := by
  induction fuel generalizing seek wsize bytes writes with
  | zero => cases h
  | succ fuel ih =>
    rw [writewholeLoop_succ hfull] at h
    split at h
    · exact (List.prefix_append ..).trans (ih h)
    · obtain rfl := Option.some.inj h
      exact List.prefix_rfl

theorem total_le_of_prefix {l l' : List FbInt} (h : l <+: l') :
    (l.map BitVec.toNat).sum ≤ (l'.map BitVec.toNat).sum := by
  obtain ⟨t, rfl⟩ := h
  simp

/-- The position after a turn that does not reach the end of the file. -/
theorem toNat_seek {seek : FbInt} (hle : iosize.toNat ≤ wss.toNat - seek.toNat)
    (hlt : seek.toNat < wss.toNat) (hnarrow : narrow iosize = iosize) :
    fbMin (wss - seek) iosize = iosize ∧
      (seek + narrow iosize).toNat = seek.toNat + iosize.toNat := by
  have hwss := wss.isLt
  have hsub : (wss - seek).toNat = wss.toNat - seek.toNat :=
    BitVec.toNat_sub_of_le (BitVec.le_def.mpr hlt.le)
  constructor
  · unfold fbMin
    split
    · rename_i h
      rw [BitVec.lt_def, hsub] at h
      omega
    · rfl
  · rw [hnarrow, BitVec.toNat_add]
    omega

/-- Writes of the I/O size fill a file that it divides. -/
theorem writewholeLoop_dvd (hfull : fbWrite.Full) {m : ℕ} {seek : FbInt} {wsize : BitVec 32}
    (hwsize : wsize.signExtend 64 = iosize) (hnarrow : narrow iosize = iosize)
    (hpos : 0 < iosize.toNat) (hm : wss.toNat = seek.toNat + m * iosize.toNat) (bytes : FbInt)
    (writes : List FbInt) :
    ∃ bytes', Returns (fun fuel => writewholeLoop fbWrite wss iosize fuel seek wsize bytes writes)
      ⟨.ok, some bytes', writes ++ List.replicate m iosize⟩ := by
  induction m generalizing seek wsize bytes writes with
  | zero =>
    have hend : ¬ seek < wss := by
      rw [BitVec.lt_def]
      omega
    refine ⟨bytes, .of_succ (returns_of_const fun fuel => ?_)⟩
    rw [writewholeLoop_succ hfull, if_neg hend, List.replicate_zero, List.append_nil]
  | succ m ih =>
    rw [Nat.succ_mul] at hm
    have hlt : seek.toNat < wss.toNat := by omega
    obtain ⟨hmin, hseek⟩ := toNat_seek (by omega) hlt hnarrow
    obtain ⟨bytes', hret⟩ := @ih (seek + narrow iosize) (iosize.setWidth 32) hnarrow
      (by omega) (bytes + iosize) (writes ++ [iosize])
    refine ⟨bytes', .of_succ ?_⟩
    simp only [writewholeLoop_succ hfull, if_pos (BitVec.lt_def.mpr hlt), hmin, hwsize]
    have hlist : writes ++ List.replicate (m + 1) iosize =
        writes ++ [iosize] ++ List.replicate m iosize := by simp [List.replicate_succ]
    rw [hlist]
    exact hret

/-- Where the I/O size leaves a remainder, too much is written. -/
theorem writewholeLoop_remainder (hfull : fbWrite.Full) (fuel : ℕ) {seek : FbInt}
    {wsize : BitVec 32} (hwsize : wsize.signExtend 64 = iosize) (hnarrow : narrow iosize = iosize)
    (hlt : seek.toNat < wss.toNat) (hdvd : ¬ iosize.toNat ∣ wss.toNat - seek.toNat)
    {bytes : FbInt} {writes : List FbInt} {r : WriteResult}
    (h : writewholeLoop fbWrite wss iosize fuel seek wsize bytes writes = some r) :
    (writes.map BitVec.toNat).sum + (wss.toNat - seek.toNat) < (r.writes.map BitVec.toNat).sum := by
  induction fuel generalizing seek wsize bytes writes with
  | zero => cases h
  | succ fuel ih =>
    rw [writewholeLoop_succ hfull, if_pos (BitVec.lt_def.mpr hlt), hwsize] at h
    have hsum : ((writes ++ [iosize]).map BitVec.toNat).sum =
        (writes.map BitVec.toNat).sum + iosize.toNat := by simp
    by_cases hle : iosize.toNat ≤ wss.toNat - seek.toNat
    · obtain ⟨hmin, hseek⟩ := toNat_seek hle hlt hnarrow
      rw [hmin] at h
      have hne : wss.toNat - seek.toNat ≠ iosize.toNat := fun heq => hdvd (heq ▸ dvd_rfl)
      have hrest : wss.toNat - (seek + narrow iosize).toNat + iosize.toNat =
          wss.toNat - seek.toNat := by omega
      have hmore := ih hnarrow (by omega) (fun hd => hdvd (hrest ▸ hd.add dvd_rfl)) h
      omega
    · have hprefix := total_le_of_prefix (writewholeLoop_beginning hfull fuel h)
      omega

end loop

/-- When the first write is as long as the whole file. -/
def OneWrite (wss iosize : FbInt) : Prop :=
  FitsInt wss ∧ (wss ≤ iosize ∨ iosize.toNat ≡ wss.toNat [MOD 2 ^ 32])

/-- When the loop writes the file as it should. -/
def WritesWhole (wss iosize : FbInt) : Prop :=
  OneWrite wss iosize ∨ FitsInt iosize ∧ iosize.toNat ∣ wss.toNat

theorem fbMin_of_le {x y : FbInt} (h : y ≤ x) : fbMin x y = y := if_neg (BitVec.not_lt.mpr h)

theorem fbMin_of_lt {x y : FbInt} (h : x < y) : fbMin x y = x := if_pos h

theorem oneWrite_iff {wss iosize : FbInt} :
    OneWrite wss iosize ↔ narrow (fbMin wss iosize) = wss := by
  rw [narrow_eq_iff, OneWrite]
  by_cases h : wss < iosize
  · rw [fbMin_of_lt h]
    have hle : wss ≤ iosize := BitVec.le_of_lt h
    exact and_congr_right fun _ => ⟨fun _ => rfl, fun _ => .inl hle⟩
  · rw [fbMin_of_le (BitVec.not_lt.mp h)]
    refine and_congr_right fun _ => ⟨?_, .inr⟩
    rintro (hle | hmod)
    · rw [BitVec.le_antisymm hle (BitVec.not_lt.mp h)]
    · exact hmod

section whole

variable {fbWrite : FbWrite} {wss iosize : FbInt}

theorem writewholeLoop_end (hfull : fbWrite.Full) {seek : FbInt} (hend : ¬ seek < wss)
    (wsize : BitVec 32) (bytes : FbInt) (writes : List FbInt) :
    Returns (fun fuel => writewholeLoop fbWrite wss iosize fuel seek wsize bytes writes)
      ⟨.ok, some bytes, writes⟩ := by
  refine .of_succ (returns_of_const fun fuel => ?_)
  rw [writewholeLoop_succ hfull, if_neg hend]

theorem wholeFile_replicate {m : ℕ} (hm : wss.toNat = m * iosize.toNat) :
    WholeFile wss iosize (List.replicate m iosize) where
  total := by simp [hm]
  sizes size hsize := List.eq_of_mem_replicate (List.mem_of_mem_dropLast hsize)

theorem wholeFile_one (wss iosize : FbInt) : WholeFile wss iosize [wss] where
  total := by simp
  sizes size hsize := by simp at hsize

/-- The first turn, when there is one. -/
theorem writewholeLoop_first (hfull : fbWrite.Full) (hpos : 0 < wss) (fuel : ℕ) :
    writewholeLoop fbWrite wss iosize (fuel + 1) 0 ((fbMin wss iosize).setWidth 32) 0 [] =
      writewholeLoop fbWrite wss iosize fuel (narrow (fbMin wss iosize))
        ((fbMin wss iosize).setWidth 32) (narrow (fbMin wss iosize))
        [narrow (fbMin wss iosize)] := by
  rw [writewholeLoop_succ hfull, if_pos hpos]
  simp [narrow]

/-- One write, when it reaches the end of the file. -/
theorem writewholeLoop_one (hfull : fbWrite.Full) (hpos : 0 < wss)
    (hend : ¬ narrow (fbMin wss iosize) < wss) :
    Returns (fun fuel =>
        writewholeLoop fbWrite wss iosize fuel 0 ((fbMin wss iosize).setWidth 32) 0 [])
      ⟨.ok, some (narrow (fbMin wss iosize)), [narrow (fbMin wss iosize)]⟩ := by
  refine .of_succ ?_
  simp only [writewholeLoop_first hfull hpos]
  exact writewholeLoop_end hfull hend _ _ _

/-- With more than one write the I/O size goes through an `int`, and divides the file. -/
theorem WholeFile.dvd (hfull : fbWrite.Full) {fuel : ℕ} {r : WriteResult} (hpos : 0 < wss)
    (hlt : narrow (fbMin wss iosize) < wss)
    (hrun : writewholeLoop fbWrite wss iosize fuel 0 ((fbMin wss iosize).setWidth 32) 0 [] = some r)
    (hwhole : WholeFile wss iosize r.writes) : FitsInt iosize ∧ iosize.toNat ∣ wss.toNat := by
  have hsize : narrow (fbMin wss iosize) = iosize := by
    cases fuel with
    | zero => cases hrun
    | succ fuel =>
      rw [writewholeLoop_first hfull hpos] at hrun
      cases fuel with
      | zero => cases hrun
      | succ fuel =>
        rw [writewholeLoop_succ hfull, if_pos hlt] at hrun
        obtain ⟨t, ht⟩ := writewholeLoop_beginning hfull fuel hrun
        refine hwhole.sizes _ ?_
        simp [← ht, narrow]
  have hmin : fbMin wss iosize = iosize := fbMin_of_le (BitVec.le_of_lt (hsize ▸ hlt))
  rw [hmin] at hrun hsize
  refine ⟨(narrow_eq_iff.mp hsize).1, ?_⟩
  by_contra hdvd
  have hmore := writewholeLoop_remainder hfull fuel hsize hsize (BitVec.lt_def.mp hpos) hdvd hrun
  rw [hwhole.total] at hmore
  simp at hmore

theorem writewholeLoop_whole_iff (hfull : fbWrite.Full) (wss iosize : FbInt) :
    (∃ r, Returns (fun fuel => writewholeLoop fbWrite wss iosize fuel 0
      ((fbMin wss iosize).setWidth 32) 0 []) r ∧ r.ret = .ok ∧ WholeFile wss iosize r.writes) ↔
        WritesWhole wss iosize := by
  by_cases hpos : 0 < wss
  swap
  · have hzero : wss = 0 := by simpa using hpos
    subst hzero
    refine iff_of_true ⟨_, writewholeLoop_end hfull hpos _ _ _, rfl, rfl, by simp⟩ (.inl ?_)
    exact ⟨.inl (by decide), .inl (Nat.zero_le _)⟩
  constructor
  · rintro ⟨r, hret, -, hwhole⟩
    obtain ⟨fuel, hrun⟩ := hret.run
    by_cases hlt : narrow (fbMin wss iosize) < wss
    · exact .inr (hwhole.dvd hfull hpos hlt hrun)
    · left
      rw [oneWrite_iff]
      have htotal := hwhole.total
      rw [hret.unique (writewholeLoop_one hfull hpos hlt)] at htotal
      exact BitVec.eq_of_toNat_eq (by simpa using htotal)
  · rintro (hone | ⟨hfits, hdvd⟩)
    · rw [oneWrite_iff] at hone
      have hend : ¬ narrow (fbMin wss iosize) < wss := by
        rw [hone]
        exact BitVec.lt_irrefl wss
      have hret := writewholeLoop_one hfull hpos hend
      rw [hone] at hret
      exact ⟨_, hret, rfl, wholeFile_one wss iosize⟩
    · rw [fbMin_of_le (Nat.le_of_dvd hpos hdvd)]
      have hnarrow := narrow_eq_iff.mpr ⟨hfits, rfl⟩
      obtain ⟨m, hm⟩ := hdvd
      rw [mul_comm] at hm
      have hio : 0 < iosize.toNat := Nat.pos_of_mul_pos_left (hm ▸ BitVec.lt_def.mp hpos)
      obtain ⟨bytes, hret⟩ := @writewholeLoop_dvd fbWrite wss iosize hfull m 0
        (iosize.setWidth 32) hnarrow hnarrow hio (by simpa using hm) 0 []
      exact ⟨_, hret, rfl, wholeFile_replicate hm⟩

end whole

/-- With full writes the flowop writes the whole file in pieces of the I/O size exactly when one
write does it, or the I/O size divides the file. -/
theorem flowoplibWritewholefile_whole_iff {fbWrite : FbWrite} (hfull : fbWrite.Full)
    (args : WritewholeArgs) (tf : Threadflow) (fd wss : ℕ)
    (hbuf : args.iosize (.ofNat 64 wss) ≠ 0 → args.iobufsetup (args.iosize (.ofNat 64 wss)) = true)
    (hsrc : args.foSrcfdnumber ≠ 0 → tf.tfFse args.foSrcfdnumber ≠ none) :
    (∃ r, Returns (fun fuel => flowoplibWritewholefile args fbWrite fuel (.ok (fd, wss)) tf) r ∧
      r.ret = .ok ∧
        WholeFile (args.wss tf (.ofNat 64 wss)) (args.iosize (.ofNat 64 wss)) r.writes) ↔
      WritesWhole (args.wss tf (.ofNat 64 wss)) (args.iosize (.ofNat 64 wss)) := by
  have hbuf' : ¬ (args.iosize (.ofNat 64 wss) ≠ 0 ∧
      args.iobufsetup (args.iosize (.ofNat 64 wss)) = false) := by
    rintro ⟨hne, hfalse⟩
    rw [hbuf hne] at hfalse
    cases hfalse
  have hsrc' : ¬ (args.foSrcfdnumber ≠ 0 ∧ tf.tfFse args.foSrcfdnumber = none) := fun h =>
    hsrc h.1 h.2
  simp only [flowoplibWritewholefile, if_neg hbuf', if_neg hsrc']
  exact writewholeLoop_whole_iff hfull _ _

/-- An I/O size of four, no source file, and a buffer. -/
def writeFours : WritewholeArgs := ⟨4, 0, fun _ => 0, fun _ => true⟩

def fullWrite : FbWrite := fun _ size => size.setWidth 32

theorem flowoplibWritewholefile_whole_twelve :
    (∃ r, Returns (fun fuel => flowoplibWritewholefile writeFours fullWrite fuel (.ok (1, 12))
      ⟨1, fun _ => 0, fun _ => none, 0⟩) r ∧ r.ret = .ok ∧ WholeFile 12 4 r.writes) ↔
      WritesWhole 12 4 :=
  flowoplibWritewholefile_whole_iff (fun _ _ => rfl) writeFours ⟨1, fun _ => 0, fun _ => none, 0⟩
    1 12 (fun _ => rfl) fun h => absurd rfl h

/-- A file of ten bytes gets twelve. -/
theorem flowoplibWritewholefile_ten :
    Returns (fun fuel => flowoplibWritewholefile writeFours fullWrite fuel (.ok (1, 10))
      ⟨1, fun _ => 0, fun _ => none, 0⟩) ⟨.ok, some 12, [4, 4, 4]⟩ ∧
      FbWrite.Full fullWrite ∧ ¬ WholeFile 10 4 [4, 4, 4] := by
  refine ⟨.of_succ (.of_succ (.of_succ (.of_succ (returns_of_const fun fuel => ?_)))),
    fun _ _ => rfl, fun h => absurd h.total (by decide)⟩
  rfl

end Filebench
