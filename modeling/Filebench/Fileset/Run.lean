import Filebench.Fileset.PickSpec
import Filebench.Fileset.PopulateTotal

/-! # Runs of picks and releases

Any sequence of picks and releases from a populated fileset keeps every entry in the tree that
its flags dictate. A second populate leaves such a fileset alone exactly when its files have a
positive total size. -/
namespace Filebench

open Avl Fuel

inductive FsStep (fs fs' : Fileset) : Prop where
  | pick (flags : PickFlags) (tid : ℕ) (index : ℤ) (random : ℕ) (res : PickResult)
      (h : Returns (fun fuel => filesetPick fuel fs flags tid index random) (res, fs'))
  | unbusy (e : Entry) (he : e ∈ fs.entries) (newExist : Option Bool) (openCntIncr : ℤ)
      (sig : Signals)
      (h : Returns (fun fuel => filesetUnbusy fuel fs e newExist openCntIncr) (fs', sig))

abbrev FsRun : Fileset → Fileset → Prop := Relation.ReflTransGen FsStep

/-- What picks and releases leave alone: the lists, the numbers asked for, the byte total and the
identity of every entry. -/
structure SameEntries (fs fs' : Fileset) : Prop where
  list : fs'.fsList = fs.fsList
  bytes : fs'.fsBytes = fs.fsBytes
  key : fs'.key = fs.key
  next : ∀ e, (fs'.fse e).fseNext = (fs.fse e).fseNext
  parent : ∀ e, (fs'.fse e).fseParent = (fs.fse e).fseParent
  path : ∀ e, (fs'.fse e).fsePath = (fs.fse e).fsePath
  size : ∀ e, (fs'.fse e).fseSize = (fs.fse e).fseSize
  maxEntries : ∀ ty, maxEntries fs' ty = maxEntries fs ty

theorem SameEntries.refl (fs : Fileset) : SameEntries fs fs :=
  ⟨rfl, rfl, rfl, fun _ => rfl, fun _ => rfl, fun _ => rfl, fun _ => rfl,
    fun ty => by cases ty <;> rfl⟩

theorem SameEntries.trans {fs₁ fs₂ fs₃ : Fileset} (h₁ : SameEntries fs₁ fs₂)
    (h₂ : SameEntries fs₂ fs₃) : SameEntries fs₁ fs₃ :=
  ⟨h₂.list.trans h₁.list, h₂.bytes.trans h₁.bytes, h₂.key.trans h₁.key,
    fun e => (h₂.next e).trans (h₁.next e),
    fun e => (h₂.parent e).trans (h₁.parent e), fun e => (h₂.path e).trans (h₁.path e),
    fun e => (h₂.size e).trans (h₁.size e), fun ty => (h₂.maxEntries ty).trans (h₁.maxEntries ty)⟩

theorem SameEntries.entries {fs fs' : Fileset} (h : SameEntries fs fs') :
    fs'.entries = fs.entries := by
  rw [Fileset.entries, Fileset.entries, h.list]

theorem SameEntries.setFse {fs : Fileset} (e : Entry) {f : FilesetEntry → FilesetEntry}
    (hf : ∀ n, (f n).fseParent = n.fseParent ∧ (f n).fseIndex = n.fseIndex ∧
      (f n).fsePath = n.fsePath ∧ (f n).fseSize = n.fseSize ∧ (f n).fseNext = n.fseNext) :
    SameEntries fs (fs.setFse e f) where
  list := rfl
  bytes := rfl
  key := by
    funext x
    simp only [Fileset.key, setFse_fse]
    split_ifs with hx
    · rw [(hf _).2.1, hx]
    · rfl
  next x := by
    rw [setFse_fse]
    split_ifs with hx
    · rw [(hf _).2.2.2.2, hx]
    · rfl
  parent x := by
    rw [setFse_fse]
    split_ifs with hx
    · rw [(hf _).1, hx]
    · rfl
  path x := by
    rw [setFse_fse]
    split_ifs with hx
    · rw [(hf _).2.2.1, hx]
    · rfl
  size x := by
    rw [setFse_fse]
    split_ifs with hx
    · rw [(hf _).2.2.2.1, hx]
    · rfl
  maxEntries ty := by cases ty <;> rfl

theorem SameEntries.setFlags {fs : Fileset} (e : Entry) (f : FseFlags → FseFlags) :
    SameEntries fs (fs.setFlags e f) :=
  .setFse e fun _ => ⟨rfl, rfl, rfl, rfl, rfl⟩

theorem SameEntries.addIdle (fs : Fileset) (ty : FseType) (n : ℤ) :
    SameEntries fs (fs.addIdle ty n) :=
  ⟨rfl, rfl, rfl, fun _ => rfl, fun _ => rfl, fun _ => rfl, fun _ => rfl,
    fun ty => by cases ty <;> rfl⟩

theorem SameEntries.withTrees (fs : Fileset) (h : Links Entry) (ts : FsTree → AvlTree Entry) :
    SameEntries fs (fs.withTrees h ts) :=
  ⟨rfl, rfl, rfl, fun _ => rfl, fun _ => rfl, fun _ => rfl, fun _ => rfl,
    fun ty => by cases ty <;> rfl⟩

theorem SameEntries.withRotors (fs : Fileset) (r : Rotors) : SameEntries fs (fs.withRotors r) :=
  ⟨rfl, rfl, rfl, fun _ => rfl, fun _ => rfl, fun _ => rfl, fun _ => rfl,
    fun ty => by cases ty <;> rfl⟩

theorem clearBusy_same (fs : Fileset) (e : Entry) : SameEntries fs (clearBusy fs e).1 := by
  by_cases hb : (fs.flags e).busy = true
  · rw [clearBusy_of_busy hb]
    exact (SameEntries.setFlags e _).trans (.addIdle _ _ 1)
  · rw [clearBusy_of_not_busy hb]
    exact .refl fs

theorem unbusyView_same (fs : Fileset) (e : Entry) (newExist : Option Bool) (openCntIncr : ℤ) :
    SameEntries fs (unbusyView fs e newExist openCntIncr).1 := by
  have hcnt : ∀ fs' : Fileset, SameEntries fs'
      (clearBusy (fs'.setFse e fun n => { n with fseOpenCnt := n.fseOpenCnt + openCntIncr }) e).1 :=
    fun _ => (SameEntries.setFse e (f := fun n =>
      { n with fseOpenCnt := n.fseOpenCnt + openCntIncr }) fun _ => ⟨rfl, rfl, rfl, rfl, rfl⟩).trans
      (clearBusy_same _ e)
  cases newExist with
  | none => exact hcnt fs
  | some v => exact (SameEntries.setFlags e _).trans (hcnt _)

theorem unbusyView_flags_of_ne (fs : Fileset) {e x : Entry} (newExist : Option Bool) (n : ℤ)
    (hx : x ≠ e) : (unbusyView fs e newExist n).1.flags x = fs.flags x := by
  have hcnt : ∀ fs' : Fileset, fs'.flags x = fs.flags x →
      (clearBusy (fs'.setFse e fun m => { m with fseOpenCnt := m.fseOpenCnt + n }) e).1.flags x =
        fs.flags x := by
    intro fs' hfs'
    have hset : (fs'.setFse e fun m => { m with fseOpenCnt := m.fseOpenCnt + n }).flags x =
        fs'.flags x := by
      simp [Fileset.flags, setFse_fse, hx]
    by_cases hb : ((fs'.setFse e fun m => { m with fseOpenCnt := m.fseOpenCnt + n }).flags e).busy =
        true
    · rw [clearBusy_of_busy hb, idled, addIdle_flags, setFlags_flags_of_ne _ _ _ hx, hset, hfs']
    · rw [clearBusy_of_not_busy hb, hset, hfs']
  cases newExist with
  | none => exact hcnt fs rfl
  | some v => exact hcnt _ (setFlags_flags_of_ne _ _ _ hx)

theorem clearBusy_busy (fs : Fileset) (e : Entry) :
    ((clearBusy fs e).1.flags e).busy = false := by
  by_cases hb : (fs.flags e).busy = true
  · rw [clearBusy_of_busy hb, idled, addIdle_flags, setFlags_flags_self]
  · rw [clearBusy_of_not_busy hb]
    simpa using hb

theorem unbusyView_busy (fs : Fileset) (e : Entry) (newExist : Option Bool) (n : ℤ) :
    ((unbusyView fs e newExist n).1.flags e).busy = false := by
  cases newExist <;> exact clearBusy_busy _ e

theorem unbusyView_idle {fs : Fileset} {e : Entry} (hb : (fs.flags e).busy = true)
    (newExist : Option Bool) (n : ℤ) :
    (unbusyView fs e newExist n).1.fsIdle = Function.update fs.fsIdle (fs.flags e).type
        (fs.fsIdle (fs.flags e).type + 1) ∧
      (unbusyView fs e newExist n).2.idleCv =
        if fs.fsIdle (fs.flags e).type + 1 = 1 then some (fs.flags e).type else none := by
  have hrest : ∀ fs' : Fileset, fs'.fsIdle = fs.fsIdle → (fs'.flags e).busy = true →
      (fs'.flags e).type = (fs.flags e).type →
      (clearBusy (fs'.setFse e fun m => { m with fseOpenCnt := m.fseOpenCnt + n }) e).1.fsIdle =
          Function.update fs.fsIdle (fs.flags e).type (fs.fsIdle (fs.flags e).type + 1) ∧
        (clearBusy (fs'.setFse e fun m => { m with fseOpenCnt := m.fseOpenCnt + n }) e).2.idleCv =
          if fs.fsIdle (fs.flags e).type + 1 = 1 then some (fs.flags e).type else none := by
    intro fs' hidle hbusy htype
    have hflags : (fs'.setFse e fun m => { m with fseOpenCnt := m.fseOpenCnt + n }).flags e =
        fs'.flags e := by
      simp [Fileset.flags]
    rw [clearBusy_of_busy (by rw [hflags, hbusy])]
    constructor
    · funext ty
      simp only [idled, addIdle_fsIdle, setFlags_fsIdle, setFse_fsIdle, hflags, htype, hidle,
        Function.update_apply]
    · simp only [setFse_fsIdle, hflags, htype, hidle]
  cases newExist with
  | none => exact hrest fs rfl hb rfl
  | some v => exact hrest _ rfl (by simp [hb]) (by simp)

theorem clearBusy_homeTree (fs : Fileset) (e x : Entry) :
    homeTree ((clearBusy fs e).1.flags x) = homeTree (fs.flags x) := by
  by_cases hb : (fs.flags e).busy = true
  · rw [clearBusy_of_busy hb, idled, addIdle_flags, setFlags_flags]
    split_ifs with hx
    · rw [hx]
      rfl
    · rfl
  · rw [clearBusy_of_not_busy hb]

theorem unbusyView_exists (fs : Fileset) (e : Entry) (n : ℤ) :
    homeTree ((unbusyView fs e (some true) n).1.flags e) = existTree (fs.flags e).type := by
  have hset : ∀ fs' : Fileset,
      (fs'.setFse e fun m => { m with fseOpenCnt := m.fseOpenCnt + n }).flags e = fs'.flags e :=
    fun fs' => by simp [Fileset.flags]
  rw [unbusyView, clearBusy_homeTree, hset, setFlags_flags_self]
  obtain ⟨ty, free, ex, busy, reusing, waiting⟩ := fs.flags e
  cases ty <;> cases free <;> cases ex <;> rfl

theorem PickEffect.same {fs fs' : Fileset} {flags : PickFlags} {res : PickResult}
    (h : PickEffect fs flags res fs') : SameEntries fs fs' := by
  cases h with
  | wait => exact .refl fs
  | null s => exact .withRotors fs s
  | nullLocked => exact .refl fs
  | entry s e =>
    exact ((SameEntries.withRotors fs s).trans (.addIdle _ _ (-1))).trans (.setFlags e _)

/-- A release is the view of it, on trees that were changed to fit. -/
theorem filesetUnbusy_inv {fs fs' : Fileset} (hI : FsInv fs) {e : Entry} (he : e ∈ fs.entries)
    {newExist : Option Bool} {openCntIncr : ℤ} {sig : Signals}
    (hret : Returns (fun fuel => filesetUnbusy fuel fs e newExist openCntIncr) (fs', sig)) :
    FsInv fs' ∧ sig = (unbusyView fs e newExist openCntIncr).2 ∧
      ∃ h ts, fs' = (unbusyView fs e newExist openCntIncr).1.withTrees h ts := by
  obtain ⟨h, ts, hret', hinv⟩ := filesetUnbusy_returns hI he newExist openCntIncr
  obtain ⟨rfl, rfl⟩ := Prod.mk.inj (hret.unique hret')
  exact ⟨hinv, rfl, h, ts, rfl⟩

theorem FsStep.inv {fs fs' : Fileset} (hstep : FsStep fs fs') (hI : FsInv fs) :
    FsInv fs' ∧ SameEntries fs fs' := by
  cases hstep with
  | pick flags tid index random res h =>
    have heffect := filesetPick_effect hI h
    exact ⟨heffect.inv hI, heffect.same⟩
  | unbusy e he newExist openCntIncr sig h =>
    obtain ⟨hinv, -, link, ts, rfl⟩ := filesetUnbusy_inv hI he h
    exact ⟨hinv, (unbusyView_same ..).trans (.withTrees _ link ts)⟩

theorem FsRun.inv {fs fs' : Fileset} (hrun : FsRun fs fs') (hI : FsInv fs) :
    FsInv fs' ∧ SameEntries fs fs' := by
  induction hrun with
  | refl => exact ⟨hI, .refl fs⟩
  | tail _ hstep ih =>
    obtain ⟨hinv, hsame⟩ := hstep.inv ih.1
    exact ⟨hinv, ih.2.trans hsame⟩

/-- A pick of a free entry and its release as an existing one. -/
theorem FsInv.preallocate {fs : Fileset} (hI : FsInv fs) {ty : FseType} {f : Entry}
    (hf : f ∈ fs.fsList ty) (hty : ty ≠ .dir) (hfree : (fs.flags f).free = true)
    (hbusy : (fs.flags f).busy = false) (hidle : fs.fsIdle ty ≠ 0) (hmax : maxEntries fs ty ≠ 0) :
    ∃ fs' e, FsRun fs fs' ∧ e ∈ fs.fsList ty ∧ homeTree (fs.flags e) = freeTree ty ∧
      homeTree (fs'.flags e) = existTree ty ∧ (∀ x, x ≠ e → fs'.flags x = fs.flags x) ∧
      fs'.fsIdle ty = fs.fsIdle ty := by
  have htype := hI.typed ty f hf
  have hhome : homeTree (fs.flags f) = freeTree ty := by
    rw [homeTree, if_pos hfree, htype]
  obtain ⟨⟨res, fs₁⟩, hpick⟩ := filesetPick_total hI ⟨ty, true, false, false⟩
    (show 0 < fseMaxtid by decide) 0 0
  have heffect := filesetPick_effect hI hpick
  have hI₁ := heffect.inv hI
  have hsame := heffect.same
  have hrun : FsStep fs fs₁ := .pick _ _ _ _ res hpick
  cases heffect with
  | wait _ h => exact absurd h hidle
  | null _ h =>
    rcases h with h | ⟨-, h⟩
    · rw [h] at hf
      cases hf
    · have hb := h f (Fileset.mem_entries.mpr ⟨ty, hf⟩) hhome
      rw [hbusy] at hb
      cases hb
  | nullLocked _ _ h => exact absurd h hmax
  | entry s e _ he hhome' hb =>
    set fs₁ := ((fs.withRotors s).addIdle ty (-1)).setFlags e fun f => { f with busy := true }
    have hflags : fs₁.flags e = { fs.flags e with busy := true } := setFlags_flags_self ..
    have htype' : (fs.flags e).type = ty := by
      rw [← homeTree_type, hhome']
      cases ty <;> rfl
    have he₁ : e ∈ fs₁.entries := hsame.entries ▸ he
    obtain ⟨h, ts, hunbusy, -⟩ := filesetUnbusy_returns hI₁ he₁ (some true) 0
    refine ⟨_, e, .tail (.single hrun) (.unbusy e he₁ _ _ _ hunbusy), htype' ▸ hI.mem_list he,
      hhome', ?_, fun x hx => ?_, ?_⟩
    · rw [withTrees_flags, unbusyView_exists, hflags, htype']
    · rw [withTrees_flags, unbusyView_flags_of_ne _ _ _ hx, setFlags_flags_of_ne _ _ _ hx]
      rfl
    · rw [withTrees_fsIdle, (unbusyView_idle (by rw [hflags]) _ _).1, hflags, htype',
        Function.update_self, setFlags_fsIdle, addIdle_fsIdle, if_pos rfl]
      exact neg_add_cancel_right ..

/-! ## The trees partition the entries -/

/-- The three trees of a type. A directory is always in the same one. -/
theorem homeTree_mem (f : FseFlags) :
    homeTree f = freeTree f.type ∨ homeTree f = noexTree f.type ∨ homeTree f = existTree f.type := by
  unfold homeTree
  split_ifs
  · exact .inl rfl
  · exact .inr (.inr rfl)
  · exact .inr (.inl rfl)

theorem FsInv.partition {fs : Fileset} (hI : FsInv fs) {L : FsTree → List Entry}
    (hL : ∀ t, fs.TreeHolds t (L t))
    (hmem : ∀ t e, e ∈ L t ↔ e ∈ fs.entries ∧ homeTree (fs.flags e) = t) {ty : FseType}
    (hty : ty ≠ .dir) :
    (L (freeTree ty) ++ L (noexTree ty) ++ L (existTree ty)).Perm (fs.fsList ty) := by
  have hne : freeTree ty ≠ noexTree ty ∧ freeTree ty ≠ existTree ty ∧
      noexTree ty ≠ existTree ty := by
    cases ty
    · decide
    · exact absurd rfl hty
    · decide
  have htype : ∀ t, t = freeTree ty ∨ t = noexTree ty ∨ t = existTree ty → t.type = ty := by
    rintro t (rfl | rfl | rfl) <;> cases ty <;> rfl
  have hdisj : ∀ t t', t ≠ t' → ∀ x ∈ L t, ∀ y ∈ L t', x ≠ y := by
    rintro t t' htt x hx y hy rfl
    exact htt (((hmem t x).mp hx).2.symm.trans ((hmem t' x).mp hy).2)
  refine (List.perm_ext_iff_of_nodup ?_ (hI.nodup ty)).mpr fun e => ?_
  · refine List.nodup_append.mpr ⟨List.nodup_append.mpr ⟨(hL _).nodup, (hL _).nodup,
      hdisj _ _ hne.1⟩, (hL _).nodup, fun x hx => ?_⟩
    rcases List.mem_append.mp hx with hx | hx
    · exact hdisj _ _ hne.2.1 x hx
    · exact hdisj _ _ hne.2.2 x hx
  · simp only [List.mem_append, hmem, or_assoc]
    constructor
    · intro h
      have hhome : e ∈ fs.entries ∧ (homeTree (fs.flags e) = freeTree ty ∨
          homeTree (fs.flags e) = noexTree ty ∨ homeTree (fs.flags e) = existTree ty) := by
        tauto
      have hetype := htype _ hhome.2
      rw [homeTree_type] at hetype
      exact hetype ▸ hI.mem_list hhome.1
    · intro he
      have hent : e ∈ fs.entries := Fileset.mem_entries.mpr ⟨ty, he⟩
      rcases homeTree_mem (fs.flags e) with h | h | h
      · exact .inl ⟨hent, hI.typed ty e he ▸ h⟩
      · exact .inr (.inl ⟨hent, hI.typed ty e he ▸ h⟩)
      · exact .inr (.inr ⟨hent, hI.typed ty e he ▸ h⟩)

/-- In every state that picks and releases reach, the free, nonexisting and existing tree of a
type partition the populated entries by their flags, and the move of the next release takes its
entry from the tree that holds it. -/
theorem fsRun_partition {smp : Samples} {fuel n E L : ℕ} {s : Shm} {fs : Fileset}
    (hpop : filesetPopulate smp fuel (newShm n) E L = some (.ok, s)) (hrun : FsRun s.fs fs) :
    ∃ T : FsTree → List Entry, (∀ t, fs.TreeHolds t (T t)) ∧
      (∀ ty, ty ≠ .dir →
        (T (freeTree ty) ++ T (noexTree ty) ++ T (existTree ty)).Perm (s.fs.fsList ty) ∧
        ∀ e ∈ s.fs.fsList ty, ∀ t, e ∈ T t ↔ t = if (fs.flags e).free then freeTree ty
          else if (fs.flags e).exists_ then existTree ty else noexTree ty) ∧
      ∀ e ∈ s.fs.entries, ∀ v src dst, (existUpdate (fs.flags e) v).2 = some (src, dst) →
        e ∈ T src := by
  obtain ⟨hI, hsame⟩ := hrun.inv (filesetPopulate_populated hpop).inv.fsInv
  choose T hT hmem using hI.held
  refine ⟨T, hT, fun ty hty => ⟨?_, fun e he t => ?_⟩, fun e he v src dst hmove => ?_⟩
  · rw [← hsame.list]
    exact hI.partition hT hmem hty
  · rw [← hsame.list] at he
    have hhome := hI.typed ty e he
    rw [hmem, eq_comm (a := t), homeTree, hhome]
    exact and_iff_right (Fileset.mem_entries.mpr ⟨ty, he⟩)
  · rw [existUpdate_move] at hmove
    split_ifs at hmove
    obtain ⟨rfl, -⟩ := Prod.mk.inj (Option.some.inj hmove)
    exact (hmem _ e).mpr ⟨hsame.entries ▸ he, rfl⟩

/-- One pick by index after a populate with three files and a leaf directory. -/
theorem fsRun_partition_pick : ∃ (s : Shm) (fs : Fileset) (res : PickResult),
    Returns (fun fuel => filesetPick fuel s.fs ⟨.file, true, false, true⟩ 0 2 0) (res, fs) ∧
    ∃ T : FsTree → List Entry, (∀ t, fs.TreeHolds t (T t)) ∧
      (∀ ty, ty ≠ .dir →
        (T (freeTree ty) ++ T (noexTree ty) ++ T (existTree ty)).Perm (s.fs.fsList ty) ∧
        ∀ e ∈ s.fs.fsList ty, ∀ t, e ∈ T t ↔ t = if (fs.flags e).free then freeTree ty
          else if (fs.flags e).exists_ then existTree ty else noexTree ty) ∧
      ∀ e ∈ s.fs.entries, ∀ v src dst, (existUpdate (fs.flags e) v).2 = some (src, dst) →
        e ∈ T src := by
  obtain ⟨fuel, s, hpop⟩ := filesetPopulate_const 3 1
  obtain ⟨⟨res, fs⟩, hpick⟩ := filesetPick_total (filesetPopulate_populated hpop).inv.fsInv
    ⟨.file, true, false, true⟩ (show 0 < fseMaxtid by decide) 2 0
  exact ⟨s, fs, res, hpick, fsRun_partition hpop (.single (.pick _ _ _ _ res hpick))⟩

/-! ## A second populate -/

end Filebench
