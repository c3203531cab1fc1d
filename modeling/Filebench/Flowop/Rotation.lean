import Filebench.Fileset.PickOrder
import Filebench.Flowop.Idle
import Filebench.Flowop.Solo

/-! # Picks in rotation

The rotor of a thread id is the index after that of the last file picked with it. Picks of idle
files, each released again, go through the existing files in circular order. -/
namespace Filebench

open Avl Fuel Circular

/-- A pick of an existing file in rotation, and its release without an update of the existence. -/
def rotorVisit (fuel : ℕ) (tid : ℕ) (fs : Fileset) (openCntIncr : ℤ) :
    Option (PickResult × Fileset) := do
  let (res, fs) ← filesetPick fuel fs ⟨.file, false, false, false⟩ tid 0 0
  match res with
  | .entry e => do
    let (fs, _) ← filesetUnbusy fuel fs e none openCntIncr
    some (res, fs)
  | _ => some (res, fs)

/-- Between two visits: the existing files are `l`, all of them are idle, and `c` is the order in
which they come next. -/
structure Rotating (tid : ℕ) (l c : List Entry) (fs : Fileset) : Prop where
  inv : FsInv fs
  counted : IdleCounted fs .file
  holds : fs.TreeHolds .existFiles l
  idle : ∀ e ∈ l, (fs.flags e).busy = false
  width : ∀ e ∈ l, fs.key e < 2 ^ 32
  order : circular fs.key (fs.fsFileExrotor tid) l = c

section visit

variable {tid : ℕ} {fs fs' : Fileset} {l c : List Entry} {e : Entry}

theorem Rotating.mem (h : Rotating tid l c fs) (he : e ∈ l) :
    e ∈ fs.fsList .file ∧ homeTree (fs.flags e) = .existFiles := by
  obtain ⟨l', hl', hmem⟩ := h.inv.held .existFiles
  rw [h.holds.unique hl'] at he
  obtain ⟨hent, hhome⟩ := (hmem e).mp he
  have htype : (fs.flags e).type = .file := by
    rw [← homeTree_type, hhome]
    rfl
  exact ⟨htype ▸ h.inv.mem_list hent, hhome⟩

theorem Rotating.next_mem {rest : List Entry} (h : Rotating tid l (e :: rest) fs) : e ∈ l := by
  have hmem : e ∈ circular fs.key (fs.fsFileExrotor tid) l := by
    rw [h.order]
    exact .head _
  exact mem_circular.mp hmem

/-- The rotor is a C integer, and starts from zero after the greatest one. -/
theorem Rotating.order_next {rest : List Entry} (h : Rotating tid l (e :: rest) fs) :
    circular fs.key (toUint ((fs.key e : ℤ) + 1)) l = rest ++ [e] := by
  have he := h.next_mem
  have hwidth := h.width e he
  by_cases hmax : fs.key e + 1 = 2 ^ 32
  · have hnext : circular fs.key (2 ^ 32) l = rest ++ [e] :=
      circular_next h.holds.sorted h.order fun x hx => by
        have := h.width x hx
        omega
    have hall : circular fs.key (2 ^ 32) l = l := by
      simpa using circular_append (v := []) h.width (by simp)
    have hstart : circular fs.key 0 ([] ++ l) = l ++ [] := circular_append (by simp) (by simp)
    have hzero : toUint ((fs.key e : ℤ) + 1) = 0 := by
      unfold toUint
      omega
    rw [hzero, ← hnext, hall]
    simpa using hstart
  · have hsucc : toUint ((fs.key e : ℤ) + 1) = fs.key e + 1 := by
      unfold toUint
      omega
    rw [hsucc]
    exact circular_next h.holds.sorted h.order fun x _ => Nat.lt_succ_iff

/-- A pick in rotation without the search: the next file becomes busy, and the rotor moves on. -/
def rotated (fs : Fileset) (tid : ℕ) (e : Entry) : Fileset :=
  ((setPickRotor fs ⟨.file, false, false, false⟩ tid (toUint ((fs.key e : ℤ) + 1))).addIdle .file
    (-1)).setFlags e fun f => { f with busy := true }

theorem Rotating.pick {rest : List Entry} (h : Rotating tid l (e :: rest) fs)
    (htid : tid < fseMaxtid) :
    Returns (fun fuel => filesetPick fuel fs ⟨.file, false, false, false⟩ tid 0 0)
      (.entry e, rotated fs tid e) := by
  have he := h.next_mem
  obtain ⟨hlist, -⟩ := h.mem he
  have hidle : fs.fsIdle .file ≠ 0 := by
    have hpos : 0 < (fs.fsList .file).countP fun x => !(fs.flags x).busy :=
      List.countP_pos_iff.mpr ⟨e, hlist, by simp [h.idle e he]⟩
    have hcount := h.counted
    unfold IdleCounted at hcount
    omega
  have hview : pickView fs l ⟨.file, false, false, false⟩ tid 0 0 =
      some (.entry e, rotated fs tid e) := by
    unfold pickView
    rw [if_neg (List.ne_nil_of_mem hlist), if_neg hidle, if_neg (List.ne_nil_of_mem he),
      if_neg nofun, if_neg nofun]
    have hrotor : pickRotor fs ⟨.file, false, false, false⟩ tid = some (fs.fsFileExrotor tid) :=
      if_pos htid
    rw [hrotor, Option.bind_some, h.order, List.head?_cons, Option.map_some]
    have horder : circular (setPickRotor fs ⟨.file, false, false, false⟩ tid
        (toUint ((fs.key e : ℤ) + 1))).key (fs.fsFileExrotor tid) l = e :: rest := h.order
    have hfree : ((setPickRotor fs ⟨.file, false, false, false⟩ tid
        (toUint ((fs.key e : ℤ) + 1))).flags e).busy = false := h.idle e he
    rw [pickFinish, horder, List.find?_cons_of_pos (by simp [hfree])]
    rfl
  exact ⟨l.length + 1, fun fuel hfuel => (filesetPick_holds h.holds tid 0 0 hfuel).trans hview⟩

theorem Rotating.visit {rest : List Entry} (h : Rotating tid l (e :: rest) fs)
    (htid : tid < fseMaxtid) (openCntIncr : ℤ) :
    ∃ fs', Returns (fun fuel => rotorVisit fuel tid fs openCntIncr) (.entry e, fs') ∧
      Rotating tid l (rest ++ [e]) fs' := by
  have he := h.next_mem
  obtain ⟨hlist, -⟩ := h.mem he
  have hpick := h.pick htid
  have hstep : FsStep fs (rotated fs tid e) := .pick _ _ _ _ _ hpick
  obtain ⟨hI₁, hsame₁⟩ := hstep.inv h.inv
  have he₁ : e ∈ (rotated fs tid e).entries :=
    hsame₁.entries ▸ Fileset.mem_entries.mpr ⟨.file, hlist⟩
  have hbusy : ((rotated fs tid e).flags e).busy = true := by
    simp [rotated]
  have hunbusy : Returns (fun fuel => filesetUnbusy fuel (rotated fs tid e) e none openCntIncr)
      (unbusyView (rotated fs tid e) e none openCntIncr) := returns_of_const fun _ => rfl
  have hstep' : FsStep (rotated fs tid e) (unbusyView (rotated fs tid e) e none openCntIncr).1 :=
    .unbusy e he₁ none openCntIncr _ hunbusy
  obtain ⟨hI₂, hsame₂⟩ := hstep'.inv hI₁
  have hview : (unbusyView (rotated fs tid e) e none openCntIncr).1 =
      idled ((rotated fs tid e).setFse e fun n =>
        { n with fseOpenCnt := n.fseOpenCnt + openCntIncr }) e := by
    unfold unbusyView
    rw [clearBusy_of_busy]
    simpa [Fileset.flags] using hbusy
  have hkey := hsame₂.key.trans hsame₁.key
  refine ⟨(unbusyView (rotated fs tid e) e none openCntIncr).1, ?_, hI₂, ?_, ?_, ?_, ?_, ?_⟩
  · exact hpick.bind (hunbusy.bind (returns_of_const fun _ => rfl))
  · exact hstep'.idleCounted hI₁ (hstep.idleCounted h.inv h.counted)
  · have hlink : (unbusyView (rotated fs tid e) e none openCntIncr).1.fseLink = fs.fseLink := by
      rw [hview, idled, rotated]
      simp [setPickRotor]
    have htree : (unbusyView (rotated fs tid e) e none openCntIncr).1.fsTree = fs.fsTree := by
      rw [hview, idled, rotated]
      simp [setPickRotor]
    rw [Fileset.TreeHolds, hlink, htree, hkey]
    exact h.holds
  · intro x hx
    by_cases hxe : x = e
    · rw [hxe, unbusyView_busy]
    · rw [unbusyView_flags_of_ne _ _ _ hxe, rotated, setFlags_flags_of_ne _ _ _ hxe]
      exact h.idle x hx
  · rw [hkey]
    exact h.width
  · have hrotor : (unbusyView (rotated fs tid e) e none openCntIncr).1.fsFileExrotor tid =
        toUint ((fs.key e : ℤ) + 1) := by
      rw [hview]
      exact Function.update_self ..
    rw [hkey, hrotor]
    exact h.order_next

end visit

end Filebench
