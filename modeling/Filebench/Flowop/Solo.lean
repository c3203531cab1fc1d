import Filebench.Flowop.Wakeup

/-! # One thread at a time

The steps of a thread while the others rest, for runs that are followed step by step. -/
namespace Filebench

open Fuel Prog

/-- One more step of a run. -/
theorem SysRun.next {ι : Type} {code : ι → Flow FlowopRet} {ok : Sys → ℕ → Label ι → Prop}
    {s₀ s s' : Sys} {t : ℕ} {l : Label ι} (h : SysRun code ok s₀ s) (hstep : SysStep code s t l s')
    (hok : ok s t l) : SysRun code ok s₀ s' :=
  h.tail ⟨t, l, hok, hstep⟩

section solo

variable {ι : Type} {code : ι → Flow FlowopRet} {fs fs' : Fileset} {f : ℕ → Thread} {t : ℕ}
  {th : Thread}

/-- The state in which the thread `t` is `th` and the others are as in `f`. -/
def solo (fs : Fileset) (f : ℕ → Thread) (t : ℕ) (th : Thread) : Sys :=
  ⟨fs, Function.update f t th⟩

abbrev FreeRun (code : ι → Flow FlowopRet) : Sys → Sys → Prop := SysRun code fun _ _ _ => True

@[simp] theorem solo_thread : (solo fs f t th).thread t = th := Function.update_self ..

theorem solo_prog {p : Flow FlowopRet} (hp : th.prog = p) :
    ((solo fs f t th).thread t).prog = p := by
  rw [solo_thread]
  exact hp

theorem solo_thread_of_ne {t' : ℕ} (ht : t' ≠ t) : (solo fs f t th).thread t' = f t' :=
  Function.update_of_ne ht ..

theorem solo_self (s : Sys) (t : ℕ) : solo s.fs s.thread t (s.thread t) = s :=
  congrArg (Sys.mk s.fs) (Function.update_eq_self ..)

theorem quiet_update (hf : ∀ t, (f t).wait ≠ .blocked) (hth : th.wait ≠ .blocked) (t' : ℕ) :
    (Function.update f t th t').wait ≠ .blocked := by
  by_cases ht : t' = t
  · subst ht
    rwa [Function.update_self]
  · rw [Function.update_of_ne ht]
    exact hf t'

theorem solo_update (th' : Thread) :
    (⟨fs', Function.update (solo fs f t th).thread t th'⟩ : Sys) = solo fs' f t th' :=
  congrArg (Sys.mk fs') (Function.update_idem ..)

theorem solo_start (i : ι) {r : FlowopRet} (hp : th.prog = .pure r) :
    SysStep code (solo fs f t th) t (.start i) (solo fs f t { th with
      prog := code i
      wait := .ready
      held := []
      leaked := th.held ++ th.leaked
      log := [] }) := by
  have h : SysStep code (solo fs f t th) t _ _ := .start i r (by simpa using hp)
  rwa [solo_thread, solo_update] at h

theorem solo_get {k : Threadflow → Flow FlowopRet} (hp : th.prog = .request .get k) :
    SysStep code (solo fs f t th) t .step
      (solo fs f t { th with prog := k th.tf, wait := .ready }) := by
  have h : SysStep code (solo fs f t th) t _ _ := .get k (by simpa using hp)
  rwa [solo_thread, solo_update] at h

theorem solo_set {tf : Threadflow} {k : Unit → Flow FlowopRet}
    (hp : th.prog = .request (.set tf) k) : SysStep code (solo fs f t th) t .step
      (solo fs f t { th with prog := k (), wait := .ready, tf := tf }) := by
  have h : SysStep code (solo fs f t th) t _ _ := .set tf k (by simpa using hp)
  rwa [solo_thread, solo_update] at h

theorem solo_openCnt {e : Entry} {k : ℤ → Flow FlowopRet}
    (hp : th.prog = .request (.openCnt e) k) : SysStep code (solo fs f t th) t .step
      (solo fs f t { th with prog := k (fs.fse e).fseOpenCnt, wait := .ready }) := by
  have h : SysStep code (solo fs f t th) t _ _ := .openCnt e k (by simpa using hp)
  rwa [solo_thread, solo_update] at h

theorem unlinked_of_ne {c : SysCall} (hc : ∀ e, c ≠ .fbUnlink e) (r : ℤ) :
    unlinked c r f = f := by
  cases c with
  | fbUnlink e => exact absurd rfl (hc e)
  | _ => rfl

theorem solo_call {c : SysCall} (hc : ∀ e, c ≠ .fbUnlink e) (r : ℤ) {k : ℤ → Flow FlowopRet}
    (hp : th.prog = .request (.call c) k) : SysStep code (solo fs f t th) t (.call c r)
      (solo fs f t { th.called c r with prog := k r, wait := .ready }) := by
  have h : SysStep code (solo fs f t th) t _ _ := .call c r k (by simpa using hp)
  rwa [unlinked_of_ne hc, solo_thread, solo_update] at h

/-- An unlink that succeeds, of a file that no other thread has open. -/
theorem solo_unlink {e : Entry} {k : ℤ → Flow FlowopRet} (hf : ∀ t fd, (f t).openFd fd ≠ some e)
    (hp : th.prog = .request (.call (.fbUnlink e)) k) :
    SysStep code (solo fs f t th) t (.call (.fbUnlink e) 0) (solo fs f t { th with
      prog := k 0
      wait := .ready
      log := th.log ++ [(.fbUnlink e, 0)]
      openFd := fun fd => if th.openFd fd = some e then none else th.openFd fd }) := by
  have hun : unlinked (.fbUnlink e) 0 (solo fs f t th).thread = (solo fs f t
      { th with openFd := fun fd => if th.openFd fd = some e then none else th.openFd fd }).thread := by
    funext t'
    by_cases ht : t' = t
    · subst ht
      simp [unlinked, solo]
    · simp [unlinked, solo, ht, hf]
  have h : SysStep code (solo fs f t th) t _ _ := .call (.fbUnlink e) 0 k (by simpa using hp)
  rwa [hun, solo_thread, solo_update] at h

theorem solo_pick {args : PickArgs} {random : ℕ} {e : Entry} {k : Option Entry → Flow FlowopRet}
    (hp : th.prog = .request (.pick args) k) (hw : th.wait ≠ .blocked)
    (h : Returns (fun fuel => filesetPick fuel fs args.flags args.tid args.index random)
      (.entry e, fs')) : SysStep code (solo fs f t th) t .step
      (solo fs' f t { th with prog := k (some e), wait := .ready, held := e :: th.held }) := by
  have h : SysStep code (solo fs f t th) t _ _ :=
    .pick args k random _ fs' (by simpa using hp) (by simpa using hw) h (by simp)
  rwa [solo_thread, solo_update] at h

theorem solo_grab {kind : Grab} {e : Entry} {k : Unit → Flow FlowopRet}
    (hp : th.prog = .request (.grab kind e) k) (hw : th.wait ≠ .blocked)
    (hb : (fs.flags e).busy = false) : SysStep code (solo fs f t th) t .step
      (solo (grabEntry kind fs e) f t
        { th with prog := k (), wait := .ready, held := e :: th.held }) := by
  have h : SysStep code (solo fs f t th) t _ _ :=
    .grab kind e k (by simpa using hp) (by simpa using hw) hb
  rwa [solo_thread, solo_update] at h

/-- Where no thread is blocked nobody is signalled. -/
theorem Signalled.quiet (sig : Signals) {thread : ℕ → Thread}
    (h : ∀ t, (thread t).wait ≠ .blocked) : Signalled sig thread thread := by
  have hbroadcast : broadcast thread = thread := by
    funext t
    have ht := h t
    unfold broadcast
    split
    · next hw => exact absurd hw ht
    · rfl
  unfold Signalled
  rw [hbroadcast, ite_self]
  cases sig.idleCv with
  | none => rfl
  | some ty => exact .nobody fun t ht => h t ht.1

/-- The release of the one entry that the program holds. -/
theorem solo_unbusy {e : Entry} {newExist : Option Bool} {n : ℤ} {sig : Signals}
    {k : Unit → Flow FlowopRet} (hp : th.prog = .request (.unbusy e newExist n) k)
    (hheld : th.held = [e]) (hquiet : ∀ t, (f t).wait ≠ .blocked)
    (h : Returns (fun fuel => filesetUnbusy fuel fs e newExist n) (fs', sig)) :
    SysStep code (solo fs f t th) t .step
      (solo fs' f t { th with prog := k (), wait := .ready, held := [] }) := by
  have h : SysStep code (solo fs f t th) t _ _ :=
    .unbusy e newExist n k fs' sig _ (by simpa using hp) h (.quiet sig fun t' => by
      by_cases ht : t' = t
      · subst ht
        simp
      · simpa [solo, ht] using hquiet t')
  rwa [solo_thread, solo_update, hheld, List.erase_cons_head] at h

end solo

/-! ## One file -/

/-- The fileset has one file. -/
structure OneFile (fs : Fileset) (e : Entry) (exist busy : Bool) (cnt idle : ℤ) : Prop where
  inv : FsInv fs
  list : fs.fsList .file = [e]
  flags : fs.flags e = ⟨.file, false, exist, busy, false, false⟩
  openCnt : (fs.fse e).fseOpenCnt = cnt
  idle : fs.fsIdle .file = idle
  constentries : fs.fsConstentries ≠ 0

section oneFile

variable {fs : Fileset} {e : Entry} {exist busy : Bool} {cnt idle : ℤ}

theorem OneFile.mem_entries (h : OneFile fs e exist busy cnt idle) : e ∈ fs.entries :=
  Fileset.mem_entries.mpr ⟨.file, h.list ▸ List.mem_singleton_self e⟩

theorem OneFile.pick (h : OneFile fs e exist false cnt idle) (hidle : idle ≠ 0) :
    ∃ fs', OneFile fs' e exist true cnt (idle - 1) ∧
      Returns (fun fuel => filesetPick fuel fs ⟨.file, false, !exist, false⟩ 0 0 0)
        (.entry e, fs') := by
  have hhome : homeTree (fs.flags e) = pickTree ⟨.file, false, !exist, false⟩ := by
    rw [h.flags]
    cases exist <;> rfl
  have hidle' : HasIdle fs ⟨.file, false, !exist, false⟩ :=
    ⟨e, h.mem_entries, hhome, by rw [h.flags]⟩
  obtain ⟨r, e', -, -, hret⟩ := filesetPick_entry h.inv 0 0
    (show fs.fsIdle .file ≠ 0 by rwa [h.idle]) hidle'
    (show fs.fsList .file ≠ [] by rw [h.list]; exact List.cons_ne_nil e []) h.constentries
  have heffect := filesetPick_effect h.inv hret
  have hmem := heffect.mem_list h.inv
  rw [show fs.fsList (PickFlags.type ⟨.file, false, !exist, false⟩) = [e] from h.list,
    List.mem_singleton] at hmem
  subst hmem
  refine ⟨_, ⟨heffect.inv h.inv, h.list, ?_, ?_, ?_, h.constentries⟩, hret⟩
  · rw [setFlags_flags_self]
    change { fs.flags e' with busy := true } = _
    rw [h.flags]
  · rw [Fileset.setFlags, setFse_fse_self]
    exact h.openCnt
  · rw [setFlags_fsIdle, addIdle_fsIdle]
    exact congrArg (· + (-1 : ℤ)) h.idle

/-- The fileset just before the busy bit is cleared. -/
theorem OneFile.unbusyView (h : OneFile fs e exist true cnt idle) (newExist : Option Bool)
    (n : ℤ) : ∃ fs₁ : Fileset, unbusyView fs e newExist n = clearBusy fs₁ e ∧
      fs₁.flags e = ⟨.file, false, newExist.getD exist, true, false, false⟩ ∧
      (fs₁.fse e).fseOpenCnt = cnt + n ∧ fs₁.fsList = fs.fsList ∧ fs₁.fsIdle = fs.fsIdle ∧
      fs₁.fsConstentries = fs.fsConstentries := by
  have hflags := h.flags
  have hcnt := h.openCnt
  cases newExist with
  | none =>
    refine ⟨_, rfl, ?_, ?_, rfl, rfl, rfl⟩
    · simpa [Fileset.flags] using hflags
    · simpa using hcnt
  | some v =>
    refine ⟨_, rfl, ?_, ?_, rfl, rfl, rfl⟩
    · rw [hflags]
      cases exist <;> cases v <;> simp [Fileset.flags, Fileset.setFlags, existUpdate]
    · simpa [Fileset.setFlags] using hcnt

theorem OneFile.unbusy (h : OneFile fs e exist true cnt idle) (newExist : Option Bool) (n : ℤ) :
    ∃ fs' sig, OneFile fs' e (newExist.getD exist) false (cnt + n) (idle + 1) ∧
      Returns (fun fuel => filesetUnbusy fuel fs e newExist n) (fs', sig) := by
  obtain ⟨link, ts, hret, hinv⟩ := filesetUnbusy_returns h.inv h.mem_entries newExist n
  obtain ⟨fs₁, hview, hflags, hcnt, hlist, hidle, hconst⟩ := h.unbusyView newExist n
  rw [hview, clearBusy_of_busy (by rw [hflags])] at hret hinv
  refine ⟨_, _, ⟨hinv, ?_, ?_, ?_, ?_, ?_⟩, hret⟩
  · exact (congrFun hlist .file).trans h.list
  · rw [withTrees_flags, idled, addIdle_flags, setFlags_flags_self, hflags]
  · rw [withTrees_fse, idled, addIdle_fse, Fileset.setFlags, setFse_fse_self]
    exact hcnt
  · rw [withTrees_fsIdle, idled, hflags, addIdle_fsIdle, if_pos rfl, setFlags_fsIdle, hidle,
      h.idle]
  · exact hconst.trans_ne h.constentries

theorem OneFile.grab (h : OneFile fs e exist false cnt idle) (kind : Grab) :
    OneFile (grabEntry kind fs e) e exist true cnt (idle + grabIdle kind fs e) where
  inv := h.inv.grabEntry kind
  list := (congrFun (grabEntry_same kind fs e).list .file).trans h.list
  flags := by
    rw [grabEntry_eq, addIdle_flags, setFlags_flags_self, h.flags]
  openCnt := by
    rw [grabEntry_eq, addIdle_fse, Fileset.setFlags, setFse_fse_self]
    exact h.openCnt
  idle := by
    rw [grabEntry_eq, addIdle_fsIdle, if_pos rfl, setFlags_fsIdle, h.idle]
  constentries := by
    rw [grabEntry_eq]
    exact h.constentries

end oneFile

/-- A file that is free comes into existence. -/
theorem FsInv.bringForth {fs : Fileset} (hI : FsInv fs) {e : Entry} (he : e ∈ fs.entries)
    (hfree : fs.flags e = ⟨.file, true, false, false, false, false⟩) :
    ∃ fs', FsStep fs fs' ∧ FsInv fs' ∧ fs'.fsList = fs.fsList ∧ fs'.fsIdle = fs.fsIdle ∧
      fs'.fsConstentries = fs.fsConstentries ∧ ∀ x, fs'.fse x = if x = e then
        { fs.fse e with fseFlags := ⟨.file, false, true, false, false, false⟩ } else fs.fse x := by
  obtain ⟨link, ts, hret, hinv⟩ := filesetUnbusy_returns hI he (some true) 0
  have hflags : ((fs.setFlags e fun _ => ⟨.file, false, true, false, false, false⟩).setFse e
      fun m => { m with fseOpenCnt := m.fseOpenCnt + 0 }).flags e =
        ⟨.file, false, true, false, false, false⟩ := by
    simp [Fileset.flags, Fileset.setFlags]
  have hview : (unbusyView fs e (some true) 0).1 =
      (fs.setFlags e fun _ => ⟨.file, false, true, false, false, false⟩).setFse e
        fun m => { m with fseOpenCnt := m.fseOpenCnt + 0 } := by
    simp only [unbusyView, hfree, existUpdate, if_true]
    rw [clearBusy_of_not_busy (by rw [hflags]; exact Bool.false_ne_true)]
  rw [hview] at hret hinv
  refine ⟨_, .unbusy e he (some true) 0 _ hret, hinv, rfl, rfl, rfl, fun x => ?_⟩
  rw [withTrees_fse]
  by_cases hx : x = e
  · subst hx
    simp [Fileset.setFlags]
  · simp [Fileset.setFlags, setFse_fse, hx]

theorem exists_oneFile : ∃ (s : Sys) (e : Entry), Initial s ∧ OneFile s.fs e true false 0 1 := by
  obtain ⟨fuel, s, hpop⟩ := filesetPopulate_const 1 0
  have hP := filesetPopulate_populated hpop
  have hI := hP.inv.fsInv
  obtain ⟨e, hlist⟩ := List.length_eq_one_iff.mp hP.files
  have hmem : e ∈ s.fs.fsList .file := hlist ▸ List.mem_singleton_self e
  have he : e ∈ s.fs.entries := Fileset.mem_entries.mpr ⟨.file, hmem⟩
  obtain ⟨fs, hstep, hinv, hlist', hidle, hconst, hfse⟩ := hI.bringForth he (hP.inv.flags _ e hmem)
  refine ⟨⟨fs, fun t => newThread (t + 1)⟩, e,
    ⟨⟨⟨_, _, _, _, _, _, hpop, .single hstep⟩, fun x hx => ?_, fun x hx => ?_⟩, fun _ => rfl⟩,
    ⟨hinv, ?_, ?_, ?_, ?_, ?_⟩⟩
  · have hx' : x ∈ s.fs.entries := by rwa [Fileset.entries, hlist'] at hx
    rw [Fileset.flags, hfse]
    split_ifs
    · rfl
    · change (s.fs.flags x).busy = false
      rw [hP.inv.flags _ x (hI.mem_list hx')]
      cases (s.fs.flags x).type <;> rfl
  · have hx' : x ∈ s.fs.entries := by rwa [Fileset.entries, hlist'] at hx
    rw [hfse]
    split_ifs
    · exact hP.inv.openCnt e he
    · exact hP.inv.openCnt x hx'
  · rw [hlist', hlist]
  · rw [Fileset.flags, hfse, if_pos rfl]
  · rw [hfse, if_pos rfl]
    exact hP.inv.openCnt e he
  · rw [hidle, hP.inv.idle, hlist]
    rfl
  · rw [hconst, hP.constentries]
    exact one_ne_zero

/-! ## Flowops on it -/

/-- A flowop on descriptor 1. -/
def fdOne : Flowop := ⟨1, false, true, none, true, false, 1⟩

/-- The thread `t` after its first flowop, an open that succeeded. -/
def opened (t : ℕ) (e : Entry) : Thread where
  prog := .pure .ok
  wait := .ready
  tf := ⟨t + 1, Function.update (fun _ => 0) 1 3, Function.update (fun _ => none) 1 (some e), 0⟩
  held := []
  leaked := []
  log := [(.fbOpen 1 e, 3)]
  openFd := Function.update (fun _ => none) 1 (some e)

theorem solo_openfile {s : Sys} {e : Entry} {cnt idle : ℤ}
    (h : OneFile s.fs e true false cnt idle) (hidle : idle ≠ 0)
    (hquiet : ∀ t, (s.thread t).wait ≠ .blocked) {t : ℕ}
    (hnew : s.thread t = newThread (t + 1)) :
    ∃ fs, OneFile fs e true false (cnt + 1) idle ∧
      FreeRun flowopCode s (solo fs s.thread t (opened t e)) := by
  obtain ⟨fs₁, hF₁, hpick⟩ := h.pick hidle
  obtain ⟨fs₂, sig, hF₂, hunbusy⟩ := hF₁.unbusy none 1
  rw [sub_add_cancel] at hF₂
  refine ⟨fs₂, hF₂, ?_⟩
  have h₀ : FreeRun flowopCode s (solo s.fs s.thread t (newThread (t + 1))) := by
    rw [← hnew, solo_self]
    exact .refl
  have h₁ := (h₀.next (solo_start (.openfile, fdOne) rfl) trivial).next (solo_get rfl) trivial
  have h₂ := (h₁.next (solo_set rfl) trivial).next (solo_get rfl) trivial
  have h₃ := h₂.next (solo_pick rfl Wait.noConfusion hpick) trivial
  have h₄ := (h₃.next (solo_get rfl) trivial).next (solo_set rfl) trivial
  have h₅ := h₄.next (solo_call (by simp) 3 rfl) trivial
  have h₆ := (h₅.next (solo_get rfl) trivial).next (solo_set rfl) trivial
  have h₇ := h₆.next (solo_unbusy rfl rfl hquiet hunbusy) trivial
  exact h₇

end Filebench
