import Filebench.Flowop.Machine
import Filebench.Lib.Owners

/-! # The owner of a busy entry

Programs that release only what they marked busy keep the busy bits exclusive: a bit is set
exactly while one thread owns it. -/
namespace Filebench

open Avl Fuel Prog Lock

/-- The rule for the entries that a program holds: it grabs files and releases what it holds, and
its table has only files. -/
def discipline (L : FseType → List Entry) : Protocol Request Reply (List Entry) where
  allow held o :=
    match o with
    | .grab _ e => e ∈ L .file
    | .unbusy e _ _ => e ∈ held
    | .set tf => ∀ fd e, tf.tfFse fd = some e → e ∈ L .file
    | _ => True
  next held o r held' :=
    match o, r with
    | .pick args, some e => e ∈ L args.flags.type ∧ held' = e :: held
    | .grab _ e, _ => held' = e :: held
    | .unbusy e _ _, _ => held' = held.erase e
    | .get, tf => (∀ fd e, Threadflow.tfFse tf fd = some e → e ∈ L .file) ∧ held' = held
    | _, _ => held' = held

abbrev Disciplined (L : FseType → List Entry) (held : List Entry) (p : Flow FlowopRet) : Prop :=
  Obeys (discipline L) (fun _ _ => True) held p

def Thread.owned (th : Thread) : List Entry := th.held ++ th.leaked

structure ThreadOk (L : FseType → List Entry) (th : Thread) : Prop where
  obeys : Disciplined L th.held th.prog
  tables : ∀ fd e, th.tf.tfFse fd = some e → e ∈ L .file

def Busy (fs : Fileset) (e : Entry) : Prop := e ∈ fs.entries ∧ (fs.flags e).busy = true

/-- The invariant of runs that start with the fileset `fs₀`. -/
structure Owned (fs₀ : Fileset) (s : Sys) : Prop where
  inv : FsInv s.fs
  same : SameEntries fs₀ s.fs
  thread : ∀ t, ThreadOk fs₀.fsList (s.thread t)
  owners : Owners (Busy s.fs) fun t => (s.thread t).owned

theorem Signalled.same {sig : Signals} {thread thread' : ℕ → Thread}
    (h : Signalled sig thread thread') (t : ℕ) : ∃ w, thread' t = { thread t with wait := w } := by
  have hbroadcast : ∀ t, ∃ w, broadcast thread t = { thread t with wait := w } := by
    intro t
    unfold broadcast
    split
    · exact ⟨.signalled, rfl⟩
    · exact ⟨(thread t).wait, rfl⟩
  have hfirst : ∀ t, ∃ w, (if sig.thrdWaitCv then broadcast thread else thread) t =
      { thread t with wait := w } := by
    intro t
    split_ifs
    · exact hbroadcast t
    · exact ⟨(thread t).wait, rfl⟩
  unfold Signalled at h
  dsimp only at h
  split at h
  · rw [h]
    exact hfirst t
  · cases h with
    | nobody => exact hfirst t
    | wake t' =>
      obtain ⟨w, hw⟩ := hfirst t
      by_cases ht : t = t'
      · subst ht
        rw [Function.update_self, hw]
        exact ⟨.signalled, rfl⟩
      · rw [Function.update_of_ne ht]
        exact ⟨w, hw⟩

section frame

variable {fs : Fileset} {e : Entry}

/-- What a grab adds to the idle count of files. -/
def grabIdle (kind : Grab) (fs : Fileset) (e : Entry) : ℤ :=
  match kind with
  | .delete => -1
  | .close => if (fs.fse e).fseOpenCnt = 1 then -1 else 0

theorem addIdle_zero (fs : Fileset) (ty : FseType) : fs.addIdle ty 0 = fs := by
  simp [Fileset.addIdle]

theorem grabEntry_eq (kind : Grab) (fs : Fileset) (e : Entry) : grabEntry kind fs e =
    (fs.setFlags e fun f => { f with busy := true }).addIdle .file (grabIdle kind fs e) := by
  cases kind with
  | delete => rfl
  | close =>
    have hcnt : ((fs.setFlags e fun f => { f with busy := true }).fse e).fseOpenCnt =
        (fs.fse e).fseOpenCnt := by
      simp [Fileset.setFlags]
    simp only [grabEntry, grabIdle, hcnt]
    split_ifs
    · rfl
    · rw [addIdle_zero]

theorem grabEntry_same (kind : Grab) (fs : Fileset) (e : Entry) :
    SameEntries fs (grabEntry kind fs e) := by
  rw [grabEntry_eq]
  exact (SameEntries.setFlags e _).trans (.addIdle _ _ _)

theorem grabEntry_busy (kind : Grab) (fs : Fileset) (e : Entry) :
    ((grabEntry kind fs e).flags e).busy = true := by
  simp [grabEntry_eq]

theorem grabEntry_flags_of_ne (kind : Grab) (fs : Fileset) {e x : Entry} (hx : x ≠ e) :
    (grabEntry kind fs e).flags x = fs.flags x := by
  rw [grabEntry_eq, addIdle_flags, setFlags_flags_of_ne _ _ _ hx]

theorem FsInv.setHome (hI : FsInv fs) {f : FseFlags → FseFlags}
    (hf : ∀ g, homeTree (f g) = homeTree g) : FsInv (fs.setFlags e f) := by
  refine hI.of_same rfl rfl rfl (setFlags_key ..) fun x => ?_
  rw [setFlags_flags]
  split_ifs with hx
  · rw [hf, hx]
  · rfl

theorem FsInv.addIdle (hI : FsInv fs) (ty : FseType) (n : ℤ) : FsInv (fs.addIdle ty n) :=
  hI.of_same rfl rfl rfl rfl fun _ => rfl

theorem FsInv.grabEntry (hI : FsInv fs) (kind : Grab) : FsInv (grabEntry kind fs e) := by
  have hset : FsInv (fs.setFlags e fun f => { f with busy := true }) := hI.setHome fun _ => rfl
  rw [grabEntry_eq]
  exact hset.addIdle _ _

theorem FsInv.waitForEntry (hI : FsInv fs) : FsInv (waitForEntry fs e) := hI.setHome fun _ => rfl

end frame

/-! ## One step -/

section step

variable {fs₀ : Fileset} {s : Sys} {t : ℕ}

/-- The thread `t` takes a step that gives it `th` and the fileset `fs'`. -/
theorem Owned.update (hI : Owned fs₀ s) {fs' : Fileset} {th : Thread} (hinv : FsInv fs')
    (hsame : SameEntries s.fs fs') (hth : ThreadOk fs₀.fsList th)
    (howners : Owners (Busy fs')
      (Function.update (fun t => (s.thread t).owned) t th.owned)) :
    Owned fs₀ ⟨fs', Function.update s.thread t th⟩ := by
  refine ⟨hinv, hI.same.trans hsame, fun t' => ?_, howners.congr (fun _ => Iff.rfl) fun t' => ?_⟩
  · by_cases ht : t' = t
    · subst ht
      simpa using hth
    · simpa [ht] using hI.thread t'
  · by_cases ht : t' = t
    · subst ht
      simp
    · simp [ht]

/-- A step that changes neither the busy bits nor what the thread owns. -/
theorem Owned.keep (hI : Owned fs₀ s) {fs' : Fileset} {th : Thread} (hinv : FsInv fs')
    (hsame : SameEntries s.fs fs') (hbusy : ∀ e, (fs'.flags e).busy = (s.fs.flags e).busy)
    (hth : ThreadOk fs₀.fsList th) (howned : th.owned = (s.thread t).owned) :
    Owned fs₀ ⟨fs', Function.update s.thread t th⟩ := by
  refine hI.update hinv hsame hth ?_
  rw [howned, Function.update_eq_self]
  refine hI.owners.congr (fun e => ?_) fun _ => rfl
  rw [Busy, Busy, hbusy, hsame.entries]

theorem Owned.acquire (hI : Owned fs₀ s) {fs' : Fileset} {th : Thread} {e : Entry}
    (hinv : FsInv fs') (hsame : SameEntries s.fs fs') (he : e ∈ s.fs.entries)
    (hfree : (s.fs.flags e).busy = false) (hset : (fs'.flags e).busy = true)
    (hbusy : ∀ x, x ≠ e → (fs'.flags x).busy = (s.fs.flags x).busy) (hth : ThreadOk fs₀.fsList th)
    (howned : th.owned = e :: (s.thread t).owned) :
    Owned fs₀ ⟨fs', Function.update s.thread t th⟩ := by
  refine hI.update hinv hsame hth ?_
  rw [howned]
  refine (hI.owners.acquire (t := t) (a := e) fun h => ?_).congr (fun x => ?_) fun _ => rfl
  · rw [h.2] at hfree
    cases hfree
  · rw [Busy, Busy, hsame.entries]
    by_cases hx : x = e
    · subst hx
      simp only [hset, and_true, true_or, iff_true]
      exact he
    · rw [hbusy x hx]
      simp [hx]

theorem Owned.release (hI : Owned fs₀ s) {fs' : Fileset} {th : Thread} {e : Entry}
    (hinv : FsInv fs') (hsame : SameEntries s.fs fs') (he : e ∈ (s.thread t).owned)
    (hset : (fs'.flags e).busy = false)
    (hbusy : ∀ x, x ≠ e → (fs'.flags x).busy = (s.fs.flags x).busy) (hth : ThreadOk fs₀.fsList th)
    (howned : th.owned = (s.thread t).owned.erase e) :
    Owned fs₀ ⟨fs', Function.update s.thread t th⟩ := by
  refine hI.update hinv hsame hth ?_
  rw [howned]
  refine (hI.owners.release he).congr (fun x => ?_) fun _ => rfl
  rw [Busy, Busy, hsame.entries]
  by_cases hx : x = e
  · subst hx
    simp [hset]
  · rw [hbusy x hx]
    simp [hx]

theorem Owned.signalled (hI : Owned fs₀ s) {sig : Signals} {thread' : ℕ → Thread}
    (h : Signalled sig s.thread thread') : Owned fs₀ ⟨s.fs, thread'⟩ := by
  refine ⟨hI.inv, hI.same, fun t => ?_, hI.owners.congr (fun _ => Iff.rfl) fun t => ?_⟩
  · obtain ⟨w, hw⟩ := h.same t
    change ThreadOk fs₀.fsList (thread' t)
    rw [hw]
    exact ⟨(hI.thread t).obeys, (hI.thread t).tables⟩
  · obtain ⟨w, hw⟩ := h.same t
    change (thread' t).owned = _
    rw [hw]
    rfl

theorem unlinked_same (c : SysCall) (r : ℤ) (thread : ℕ → Thread) (t : ℕ) :
    ∃ f, unlinked c r thread t = { thread t with openFd := f } := by
  unfold unlinked
  split
  · split_ifs
    · exact ⟨_, rfl⟩
    · exact ⟨(thread t).openFd, rfl⟩
  · exact ⟨(thread t).openFd, rfl⟩

theorem Owned.unlinked (hI : Owned fs₀ s) (c : SysCall) (r : ℤ) :
    Owned fs₀ ⟨s.fs, unlinked c r s.thread⟩ := by
  refine ⟨hI.inv, hI.same, fun t => ?_, hI.owners.congr (fun _ => Iff.rfl) fun t => ?_⟩
  · obtain ⟨f, hf⟩ := unlinked_same c r s.thread t
    change ThreadOk fs₀.fsList (Filebench.unlinked c r s.thread t)
    rw [hf]
    exact ⟨(hI.thread t).obeys, (hI.thread t).tables⟩
  · obtain ⟨f, hf⟩ := unlinked_same c r s.thread t
    change (Filebench.unlinked c r s.thread t).owned = _
    rw [hf]
    rfl

theorem pickTree_type (flags : PickFlags) : (pickTree flags).type = flags.type := by
  unfold pickTree
  split_ifs <;> cases flags.type <;> rfl

theorem PickEffect.mem_list {fs fs' : Fileset} {flags : PickFlags} {e : Entry} (hI : FsInv fs)
    (h : PickEffect fs flags (.entry e) fs') : e ∈ fs.fsList flags.type := by
  cases h with
  | entry r e hidle he hhome hb =>
    have htype : (fs.flags e).type = flags.type := by
      rw [← homeTree_type, hhome, pickTree_type]
    rw [← htype]
    exact hI.mem_list he

/-- Every step keeps the busy bits exclusive. -/
theorem Owned.step {ι : Type} {code : ι → Flow FlowopRet}
    (hcode : ∀ i, Disciplined fs₀.fsList [] (code i)) {l : Label ι} {s' : Sys} (hI : Owned fs₀ s)
    (h : SysStep code s t l s') : Owned fs₀ s' := by
  have hob := (hI.thread t).obeys
  have htab := (hI.thread t).tables
  cases h with
  | start i r hp => exact hI.keep hI.inv (.refl _) (fun _ => rfl) ⟨hcode i, htab⟩ (by simp [Thread.owned])
  | pick args k random res fs' hp hw hret hres =>
    rw [hp] at hob
    have heffect := filesetPick_effect hI.inv hret
    have hinv := heffect.inv hI.inv
    have hsame := heffect.same
    have hlist : ∀ e, res = .entry e → e ∈ fs₀.fsList args.flags.type := by
      rintro e rfl
      rw [← hI.same.list]
      exact heffect.mem_list hI.inv
    cases heffect with
    | wait => exact absurd rfl hres
    | null r =>
      exact hI.keep hinv hsame (fun _ => rfl) ⟨hob.2 none _ rfl, htab⟩ rfl
    | nullLocked => exact hI.keep hinv hsame (fun _ => rfl) ⟨hob.2 none _ rfl, htab⟩ rfl
    | entry r e hidle he hhome hb =>
      refine hI.acquire hinv hsame he hb (by simp) (fun x hx => ?_)
        ⟨hob.2 (some e) _ ⟨hlist e rfl, rfl⟩, htab⟩ rfl
      rw [setFlags_flags_of_ne _ _ _ hx]
      rfl
  | pickWait args k random fs' hp hw hret =>
    have heffect := filesetPick_effect hI.inv hret
    cases heffect with
    | wait => exact hI.keep hI.inv (.refl _) (fun _ => rfl) ⟨hob, htab⟩ rfl
  | grab kind e k hp hw hb =>
    rw [hp] at hob
    have he : e ∈ s.fs.entries := Fileset.mem_entries.mpr ⟨.file, hI.same.list ▸ hob.1⟩
    exact hI.acquire (hI.inv.grabEntry kind) (grabEntry_same kind s.fs e) he hb
      (grabEntry_busy ..) (fun x hx => by rw [grabEntry_flags_of_ne _ _ hx])
      ⟨hob.2 () _ rfl, htab⟩ rfl
  | grabWait kind e k hp hw hb =>
    refine hI.keep hI.inv.waitForEntry (.setFlags e _) (fun x => ?_) ⟨hob, htab⟩ rfl
    rw [waitForEntry, setFlags_flags]
    split_ifs with hx
    · rw [hx]
    · rfl
  | unbusy e newExist n k fs' sig thread' hp hret hsig =>
    rw [hp] at hob
    have hheld : e ∈ (s.thread t).owned := List.mem_append_left _ hob.1
    have he : e ∈ s.fs.entries := ((hI.owners.flag_iff e).mpr ⟨t, hheld⟩).1
    obtain ⟨hinv, -, link, ts, rfl⟩ := filesetUnbusy_inv hI.inv he hret
    have hI' : Owned fs₀ ⟨_, Function.update s.thread t { s.thread t with
        prog := k ()
        wait := .ready
        held := (s.thread t).held.erase e }⟩ :=
      hI.release hinv ((unbusyView_same s.fs e newExist n).trans (.withTrees _ link ts)) hheld
        (by rw [withTrees_flags, unbusyView_busy])
        (fun x hx => by rw [withTrees_flags, unbusyView_flags_of_ne _ _ _ hx])
        ⟨hob.2 () _ rfl, htab⟩ (List.erase_append_left _ hob.1).symm
    exact hI'.signalled hsig
  | openCnt e k hp =>
    rw [hp] at hob
    exact hI.keep hI.inv (.refl _) (fun _ => rfl) ⟨hob.2 _ _ rfl, htab⟩ rfl
  | call c r k hp =>
    rw [hp] at hob
    have hI' := hI.unlinked c r
    obtain ⟨f, hf⟩ := unlinked_same c r s.thread t
    refine hI'.keep hI.inv (.refl _) (fun _ => rfl) ⟨?_, ?_⟩ rfl
    · change Disciplined fs₀.fsList (Filebench.unlinked c r s.thread t).held (k r)
      rw [hf]
      exact hob.2 r _ rfl
    · change ∀ fd e, (Filebench.unlinked c r s.thread t).tf.tfFse fd = some e → e ∈ fs₀.fsList .file
      rw [hf]
      exact htab
  | get k hp =>
    rw [hp] at hob
    exact hI.keep hI.inv (.refl _) (fun _ => rfl) ⟨hob.2 _ _ ⟨htab, rfl⟩, htab⟩ rfl
  | set tf k hp =>
    rw [hp] at hob
    exact hI.keep hI.inv (.refl _) (fun _ => rfl) ⟨hob.2 () _ rfl, hob.1⟩ rfl

end step

theorem Owned.run {ι : Type} {code : ι → Flow FlowopRet} {fs₀ : Fileset}
    (hcode : ∀ i, Disciplined fs₀.fsList [] (code i)) {ok : Sys → ℕ → Label ι → Prop} {s s' : Sys}
    (hI : Owned fs₀ s) (h : SysRun code ok s s') : Owned fs₀ s' := by
  induction h with
  | refl => exact hI
  | tail _ hstep ih =>
    obtain ⟨t, l, -, hstep⟩ := hstep
    exact ih.step hcode hstep

theorem Created.inv {fs : Fileset} (h : Created fs) : FsInv fs := by
  obtain ⟨smp, fuel, n, E, L, s, hpop, hrun⟩ := h.run
  exact (hrun.inv (filesetPopulate_populated hpop).inv.fsInv).1

theorem Initial.owned {s : Sys} (h : Initial s) : Owned s.fs s where
  inv := h.created.inv
  same := .refl _
  thread t := by
    rw [h.threads]
    exact ⟨trivial, by simp [newThread]⟩
  owners := by
    refine ⟨fun e => ⟨fun hb => ?_, ?_⟩, fun t => ?_, fun e t t' ht => ?_⟩
    · have := h.created.idle e hb.1
      rw [hb.2] at this
      cases this
    · rintro ⟨t, ht⟩
      simp [h.threads, newThread, Thread.owned] at ht
    · simp [h.threads, newThread, Thread.owned]
    · simp [h.threads, newThread, Thread.owned] at ht

/-- A fileset that was just populated, and threads before their first programs. -/
theorem exists_initial (E L : ℕ) : ∃ (s : Sys) (n : ℕ), Initial s ∧ Populated ⟨s.fs, n⟩ E L := by
  obtain ⟨fuel, s, hpop⟩ := filesetPopulate_const E L
  have hP := filesetPopulate_populated hpop
  refine ⟨⟨s.fs, fun t => newThread (t + 1)⟩, s.requests, ⟨⟨⟨_, _, _, _, _, _, hpop, .refl⟩,
    fun e he => ?_, hP.inv.openCnt⟩, fun _ => rfl⟩, hP⟩
  rw [hP.inv.flags _ e (hP.inv.fsInv.mem_list he)]
  cases (s.fs.flags e).type <;> rfl

end Filebench
