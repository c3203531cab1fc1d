import Filebench.Flowop.Release

/-! # The idle counts

An idle count is the number of entries of its type that are not busy. Picks and releases keep
it so, and a close keeps it when it closes the last open of its file. -/
namespace Filebench

open Fuel Prog

/-- `fs_idle_files` and its siblings count the entries without `FSE_BUSY`. -/
def IdleCounted (fs : Fileset) (ty : FseType) : Prop :=
  fs.fsIdle ty = ((fs.fsList ty).countP fun e => !(fs.flags e).busy : ℕ)

/-- A close that marks its file busy finds it open once. -/
def ClosesLast {ι : Type} (s : Sys) (t : ℕ) (_ : Label ι) : Prop :=
  ∀ e k, (s.thread t).prog = .request (.grab .close e) k → (s.fs.flags e).busy = false →
    (s.fs.fse e).fseOpenCnt = 1

/-- What an entry takes from the idle count. -/
def busyBit (fs : Fileset) (e : Entry) : ℤ := if (fs.flags e).busy then 1 else 0

section change

variable {fs fs' : Fileset} {ty : FseType} {e : Entry}

theorem IdleCounted.congr (h : IdleCounted fs ty) (hlist : fs'.fsList = fs.fsList)
    (hbusy : ∀ x ∈ fs.fsList ty, (fs'.flags x).busy = (fs.flags x).busy)
    (hidle : fs'.fsIdle ty = fs.fsIdle ty) : IdleCounted fs' ty := by
  unfold IdleCounted at h ⊢
  rw [hidle, h, hlist]
  congr 1
  refine List.countP_congr fun x hx => ?_
  rw [hbusy x hx]

theorem countP_cons_bit (fs : Fileset) (e : Entry) (l : List Entry) :
    (((e :: l).countP fun x => !(fs.flags x).busy : ℕ) : ℤ) =
      (l.countP fun x => !(fs.flags x).busy : ℕ) + (1 - busyBit fs e) := by
  unfold busyBit
  rw [List.countP_cons]
  cases (fs.flags e).busy <;> simp

/-- Only the busy bit of one entry changes, and the count with it. -/
theorem IdleCounted.change (h : IdleCounted fs ty) (hn : (fs.fsList ty).Nodup)
    (he : e ∈ fs.fsList ty) (hlist : fs'.fsList = fs.fsList)
    (hbusy : ∀ x, x ≠ e → (fs'.flags x).busy = (fs.flags x).busy)
    (hidle : fs'.fsIdle ty = fs.fsIdle ty + busyBit fs e - busyBit fs' e) :
    IdleCounted fs' ty := by
  unfold IdleCounted at h ⊢
  have hperm : (fs.fsList ty).Perm (e :: (fs.fsList ty).erase e) := List.perm_cons_erase he
  have hrest : (((fs.fsList ty).erase e).countP fun x => !(fs'.flags x).busy) =
      ((fs.fsList ty).erase e).countP fun x => !(fs.flags x).busy := by
    refine List.countP_congr fun x hx => ?_
    rw [hbusy x (hn.mem_erase_iff.mp hx).1]
  rw [hperm.countP_eq, countP_cons_bit] at h
  rw [hlist, hperm.countP_eq, countP_cons_bit, hrest]
  omega

end change

theorem PickEffect.idleCounted {fs fs' : Fileset} {flags : PickFlags} {res : PickResult}
    (hI : FsInv fs) (h : PickEffect fs flags res fs') {ty : FseType} (hC : IdleCounted fs ty) :
    IdleCounted fs' ty := by
  have hmem : ∀ e, res = .entry e → e ∈ fs.fsList flags.type := by
    rintro e rfl
    exact h.mem_list hI
  cases h with
  | wait => exact hC
  | null r => exact hC
  | nullLocked => exact hC
  | entry r e hidle he hhome hb =>
    have hother : ∀ x, x ≠ e → ((((fs.withRotors r).addIdle flags.type (-1)).setFlags e
        fun f => { f with busy := true }).flags x).busy = (fs.flags x).busy := by
      intro x hx
      rw [setFlags_flags_of_ne _ _ _ hx]
      rfl
    have hcount : (((fs.withRotors r).addIdle flags.type (-1)).setFlags e
        fun f => { f with busy := true }).fsIdle ty =
          if ty = flags.type then fs.fsIdle flags.type + -1 else fs.fsIdle ty :=
      addIdle_fsIdle (fs.withRotors r) flags.type (-1) ty
    by_cases hty : ty = flags.type
    · subst hty
      refine hC.change (hI.nodup _) (hmem e rfl) rfl hother ?_
      rw [hcount, if_pos rfl, busyBit, busyBit, hb, setFlags_flags_self]
      simp [sub_eq_add_neg]
    · refine hC.congr rfl (fun x hx => hother x ?_) (by rw [hcount, if_neg hty])
      rintro rfl
      exact hty ((hI.typed ty x hx).symm.trans (hI.typed _ x (hmem x rfl)))

theorem unbusyView_idle_of_not_busy {fs : Fileset} {e : Entry} (hb : ¬ (fs.flags e).busy = true)
    (newExist : Option Bool) (n : ℤ) : (unbusyView fs e newExist n).1.fsIdle = fs.fsIdle := by
  have hrest : ∀ fs' : Fileset, fs'.fsIdle = fs.fsIdle → ¬ (fs'.flags e).busy = true →
      (clearBusy (fs'.setFse e fun m => { m with fseOpenCnt := m.fseOpenCnt + n }) e).1.fsIdle =
        fs.fsIdle := by
    intro fs' hidle hbusy
    have hflags : (fs'.setFse e fun m => { m with fseOpenCnt := m.fseOpenCnt + n }).flags e =
        fs'.flags e := by
      simp [Fileset.flags]
    rw [clearBusy_of_not_busy (by rwa [hflags]), setFse_fsIdle, hidle]
  cases newExist with
  | none => exact hrest fs rfl hb
  | some v => exact hrest _ rfl (by simpa using hb)

/-- A release keeps the count, of a busy entry or of one that is not. -/
theorem IdleCounted.unbusy {fs : Fileset} (hI : FsInv fs) {e : Entry} (he : e ∈ fs.entries)
    (newExist : Option Bool) (n : ℤ) {ty : FseType} (hC : IdleCounted fs ty) :
    IdleCounted (unbusyView fs e newExist n).1 ty := by
  have hlist := (unbusyView_same fs e newExist n).list
  have hother : ∀ x, x ≠ e → ((unbusyView fs e newExist n).1.flags x).busy = (fs.flags x).busy :=
    fun x hx => by rw [unbusyView_flags_of_ne _ _ _ hx]
  by_cases hb : (fs.flags e).busy = true
  · have hidle := (unbusyView_idle hb newExist n).1
    by_cases hty : ty = (fs.flags e).type
    · subst hty
      refine hC.change (hI.nodup _) (hI.mem_list he) hlist hother ?_
      rw [hidle, Function.update_self, busyBit, busyBit, hb, unbusyView_busy]
      simp
    · refine hC.congr hlist (fun x hx => hother x ?_) (by rw [hidle, Function.update_of_ne hty])
      rintro rfl
      exact hty (hI.typed ty x hx).symm
  · refine hC.congr hlist (fun x _ => ?_) (by rw [unbusyView_idle_of_not_busy hb])
    by_cases hx : x = e
    · rw [hx, unbusyView_busy, Bool.eq_false_iff.mpr hb]
    · exact hother x hx

theorem IdleCounted.grab {fs : Fileset} (hI : FsInv fs) {kind : Grab} {e : Entry}
    (he : e ∈ fs.fsList .file) (hb : (fs.flags e).busy = false)
    (hkind : kind = .close → (fs.fse e).fseOpenCnt = 1) {ty : FseType} (hC : IdleCounted fs ty) :
    IdleCounted (grabEntry kind fs e) ty := by
  have hlist := (grabEntry_same kind fs e).list
  have hother : ∀ x, x ≠ e → ((grabEntry kind fs e).flags x).busy = (fs.flags x).busy :=
    fun x hx => by rw [grabEntry_flags_of_ne _ _ hx]
  have hone : grabIdle kind fs e = -1 := by
    cases kind with
    | delete => rfl
    | close => exact if_pos (hkind rfl)
  have hidle : (grabEntry kind fs e).fsIdle ty =
      if ty = .file then fs.fsIdle .file + -1 else fs.fsIdle ty := by
    rw [grabEntry_eq, hone]
    exact addIdle_fsIdle _ _ _ _
  by_cases hty : ty = .file
  · subst hty
    refine hC.change (hI.nodup _) he hlist hother ?_
    rw [hidle, if_pos rfl, busyBit, busyBit, hb, grabEntry_busy]
    simp [sub_eq_add_neg]
  · refine hC.congr hlist (fun x hx => hother x ?_) (by rw [hidle, if_neg hty])
    rintro rfl
    exact hty ((hI.typed ty x hx).symm.trans (hI.typed _ x he))

/-! ## Runs -/

theorem IdleCounted.step {ι : Type} {code : ι → Flow FlowopRet} {fs₀ : Fileset} {s s' : Sys} {t : ℕ}
    {l : Label ι} (hI : Owned fs₀ s) (hok : ClosesLast s t l) {ty : FseType}
    (hC : IdleCounted s.fs ty) (h : SysStep code s t l s') : IdleCounted s'.fs ty := by
  have hob := (hI.thread t).obeys
  cases h with
  | pick args k random res fs' hp hw hret hres =>
    exact (filesetPick_effect hI.inv hret).idleCounted hI.inv hC
  | pickWait args k random fs' hp hw hret =>
    exact (filesetPick_effect hI.inv hret).idleCounted hI.inv hC
  | grab kind e k hp hw hb =>
    rw [hp] at hob
    refine hC.grab hI.inv (hI.same.list ▸ hob.1) hb ?_
    rintro rfl
    exact hok e k hp hb
  | grabWait kind e k hp hw hb =>
    refine hC.congr rfl (fun x _ => ?_) rfl
    rw [waitForEntry, setFlags_flags]
    split_ifs with hx
    · rw [hx]
    · rfl
  | unbusy e newExist n k fs' sig thread' hp hret hsig =>
    rw [hp] at hob
    have he := ((hI.owners.flag_iff e).mpr ⟨t, List.mem_append_left _ hob.1⟩).1
    obtain ⟨-, -, link, ts, rfl⟩ := filesetUnbusy_inv hI.inv he hret
    exact hC.unbusy hI.inv he newExist n
  | start => exact hC
  | openCnt => exact hC
  | call => exact hC
  | get => exact hC
  | set => exact hC

theorem FsStep.idleCounted {fs fs' : Fileset} (hstep : FsStep fs fs') (hI : FsInv fs)
    {ty : FseType} (hC : IdleCounted fs ty) : IdleCounted fs' ty := by
  cases hstep with
  | pick flags tid index random res h => exact (filesetPick_effect hI h).idleCounted hI hC
  | unbusy e he newExist n sig h =>
    obtain ⟨-, -, link, ts, rfl⟩ := filesetUnbusy_inv hI he h
    exact hC.unbusy hI he newExist n

theorem Created.idleCounted {fs : Fileset} (h : Created fs) (ty : FseType) :
    IdleCounted fs ty := by
  obtain ⟨smp, fuel, n, E, L, s, hpop, hrun⟩ := h.run
  have hP := (filesetPopulate_populated hpop).inv
  clear h
  induction hrun with
  | refl =>
    have hidle : ∀ e ∈ s.fs.fsList ty, (!(s.fs.flags e).busy) = true := by
      intro e he
      rw [hP.flags ty e he]
      cases ty <;> rfl
    unfold IdleCounted
    rw [hP.idle, List.countP_eq_length.mpr hidle]
  | tail hrun hstep ih => exact hstep.idleCounted (FsRun.inv hrun hP.fsInv).1 ih

end Filebench
