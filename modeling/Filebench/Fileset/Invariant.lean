import Filebench.Fileset.Pick
import Filebench.Lib.Returns

/-! # The tree invariant of a fileset

Every entry is in the tree that its flags dictate and in no other. A pick leaves the trees alone
and a release moves the entry together with its flags. -/
namespace Filebench

open Avl Fuel

/-- The tree that the flags of an entry dictate. -/
def homeTree (f : FseFlags) : FsTree :=
  if f.free then freeTree f.type else if f.exists_ then existTree f.type else noexTree f.type

/-- All entries that were populated. -/
def Fileset.entries (fs : Fileset) : List Entry :=
  fs.fsList .file ++ fs.fsList .dir ++ fs.fsList .leafdir

theorem Fileset.mem_entries {fs : Fileset} {e : Entry} :
    e ∈ fs.entries ↔ ∃ ty, e ∈ fs.fsList ty := by
  simp only [entries, List.mem_append]
  constructor
  · rintro ((h | h) | h)
    · exact ⟨_, h⟩
    · exact ⟨_, h⟩
    · exact ⟨_, h⟩
  · rintro ⟨ty, h⟩
    cases ty
    · exact .inl (.inl h)
    · exact .inl (.inr h)
    · exact .inr h

/-- The tree `t` holds the entries `l`. -/
abbrev Fileset.TreeHolds (fs : Fileset) (t : FsTree) (l : List Entry) : Prop :=
  Holds fs.fseLink (fs.fsTree t) fs.key l

structure FsInv (fs : Fileset) : Prop where
  held : ∀ t, ∃ l, fs.TreeHolds t l ∧ ∀ e, e ∈ l ↔ e ∈ fs.entries ∧ homeTree (fs.flags e) = t
  typed : ∀ ty, ∀ e ∈ fs.fsList ty, (fs.flags e).type = ty
  indexed : ∀ ty, ∀ e ∈ fs.fsList ty, ∀ e' ∈ fs.fsList ty, fs.key e = fs.key e' → e = e'
  nodup : ∀ ty, (fs.fsList ty).Nodup
  stack : fs.fseLink stackEntry = none

/-- Two filesets that differ in their trees and links only. -/
def Fileset.withTrees (fs : Fileset) (h : Links Entry) (ts : FsTree → AvlTree Entry) : Fileset :=
  { fs with fseLink := h, fsTree := ts }

section simps

variable (fs : Fileset) (e : Entry) (h : Links Entry) (ts : FsTree → AvlTree Entry)

@[simp] theorem setFse_fseLink (f) : (fs.setFse e f).fseLink = fs.fseLink := rfl
@[simp] theorem setFse_fsTree (f) : (fs.setFse e f).fsTree = fs.fsTree := rfl
@[simp] theorem setFse_fsList (f) : (fs.setFse e f).fsList = fs.fsList := rfl
@[simp] theorem setFse_fsIdle (f) : (fs.setFse e f).fsIdle = fs.fsIdle := rfl
@[simp] theorem setFse_fse_self (f) : (fs.setFse e f).fse e = f (fs.fse e) :=
  Function.update_self ..
theorem setFse_fse (f) (x : Entry) :
    (fs.setFse e f).fse x = if x = e then f (fs.fse e) else fs.fse x := Function.update_apply ..
@[simp] theorem setFlags_fseLink (f) : (fs.setFlags e f).fseLink = fs.fseLink := rfl
@[simp] theorem setFlags_fsTree (f) : (fs.setFlags e f).fsTree = fs.fsTree := rfl
@[simp] theorem setFlags_fsList (f) : (fs.setFlags e f).fsList = fs.fsList := rfl
@[simp] theorem setFlags_fsIdle (f) : (fs.setFlags e f).fsIdle = fs.fsIdle := rfl
@[simp] theorem addIdle_fse (ty n) : (fs.addIdle ty n).fse = fs.fse := rfl
@[simp] theorem addIdle_fseLink (ty n) : (fs.addIdle ty n).fseLink = fs.fseLink := rfl
@[simp] theorem addIdle_fsTree (ty n) : (fs.addIdle ty n).fsTree = fs.fsTree := rfl
@[simp] theorem addIdle_fsList (ty n) : (fs.addIdle ty n).fsList = fs.fsList := rfl
theorem addIdle_fsIdle (ty n) (ty') :
    (fs.addIdle ty n).fsIdle ty' = if ty' = ty then fs.fsIdle ty + n else fs.fsIdle ty' :=
  Function.update_apply ..
@[simp] theorem addIdle_flags (ty n) : (fs.addIdle ty n).flags = fs.flags := rfl
@[simp] theorem withTrees_fse : (fs.withTrees h ts).fse = fs.fse := rfl
@[simp] theorem withTrees_flags : (fs.withTrees h ts).flags = fs.flags := rfl
@[simp] theorem withTrees_key : (fs.withTrees h ts).key = fs.key := rfl
@[simp] theorem withTrees_fsList : (fs.withTrees h ts).fsList = fs.fsList := rfl
@[simp] theorem withTrees_fsIdle : (fs.withTrees h ts).fsIdle = fs.fsIdle := rfl
@[simp] theorem withTrees_entries : (fs.withTrees h ts).entries = fs.entries := rfl

theorem setFlags_flags (f) (x : Entry) :
    (fs.setFlags e f).flags x = if x = e then f (fs.flags e) else fs.flags x := by
  unfold Fileset.setFlags Fileset.flags
  rw [setFse_fse]
  split <;> rfl

@[simp] theorem setFlags_flags_self (f) : (fs.setFlags e f).flags e = f (fs.flags e) := by
  simp [setFlags_flags]

theorem setFlags_flags_of_ne (f) {x : Entry} (hx : x ≠ e) :
    (fs.setFlags e f).flags x = fs.flags x := by simp [setFlags_flags, hx]

@[simp] theorem setFlags_key (f) : (fs.setFlags e f).key = fs.key := by
  funext x
  simp only [Fileset.key, Fileset.setFlags, setFse_fse]
  split
  · next h => rw [h]
  · rfl

end simps

/-! ## Moving an entry -/

/-- Moving `e` changes the holdings of the two trees by `e` and leaves the others alone. -/
theorem filesetMoveEntry_returns {fs : Fileset} {L : FsTree → List Entry} {src dst : FsTree}
    {e : Entry} (hL : ∀ t, fs.TreeHolds t (L t)) (he : e ∈ L src) (hne : src ≠ dst)
    (hdisj : ∀ t t', t ≠ t' → ∀ x ∈ L t, x ∉ L t') (hfresh : ∀ x ∈ L dst, fs.key x ≠ fs.key e)
    (hstack : fs.fseLink stackEntry = none) :
    ∃ h ts, Returns (fun fuel => filesetMoveEntry fuel fs src dst e) (fs.withTrees h ts) ∧
      h stackEntry = none ∧ ∀ t, ∃ l, (fs.withTrees h ts).TreeHolds t l ∧
        ∀ x, x ∈ l ↔ if t = src then x ∈ L src ∧ x ≠ e else if t = dst then x = e ∨ x ∈ L dst
          else x ∈ L t := by
  have hnd := (hL src).nodup
  obtain ⟨n, hn⟩ := (hL src).live e he
  have hstackL : ∀ t, stackEntry ∉ L t := fun t ht => by
    obtain ⟨n, hn⟩ := (hL t).live _ ht
    simp [hstack] at hn
  have hdst : ∀ x ∈ L dst, x ∉ (L src).erase e := fun x hx hm =>
    hdisj src dst hne x (List.mem_of_mem_erase hm) hx
  obtain ⟨h₁, tree₁, hrem, hh₁, hf₁⟩ := (hL src).remove he hstack
  have hdst₁ : Holds h₁ (fs.fsTree dst) fs.key (L dst) :=
    (hL dst).frame fun x hx => hf₁ x (hdst x hx)
  have he₁ : h₁ e = some n :=
    (hf₁ e fun hm => (hnd.mem_erase_iff.mp hm).1 rfl).trans hn
  obtain ⟨h₂, tree₂, l₂, hadd, hh₂, hperm, hf₂⟩ := hdst₁.add hfresh (by simp [he₁])
  refine ⟨h₂, Function.update (Function.update fs.fsTree src tree₁) dst tree₂, ?_, ?_, ?_⟩
  · unfold filesetMoveEntry
    refine hrem.bind (hadd.congr (N := 0) (fun _ _ => ?_) |>.bind (g := fun _ r => _)
      (returns_of_const fun _ => rfl))
    change avlAdd _ h₁ (Function.update fs.fsTree src tree₁ dst) fs.key e = _
    rw [Function.update_of_ne (Ne.symm hne)]
  · rw [hf₂ _ (by simpa using ⟨fun h => hstackL src (h ▸ he), hstackL dst⟩),
      hf₁ _ fun hm => hstackL src (List.mem_of_mem_erase hm), hstack]
  · intro t
    simp only [Fileset.TreeHolds, withTrees_key]
    have hkeep : ∀ l : List Entry, (∀ x ∈ l, x ∉ L dst ∧ x ≠ e) → ∀ x ∈ l, h₂ x = h₁ x := fun l hl x hx =>
      hf₂ x (by simp [(hl x hx).1, (hl x hx).2])
    by_cases hdt : t = dst
    · subst hdt
      refine ⟨l₂, ?_, fun x => ?_⟩
      · simpa [Fileset.withTrees] using hh₂
      · simp [hperm.mem_iff, Ne.symm hne]
    by_cases hst : t = src
    · subst hst
      refine ⟨(L t).erase e, ?_, fun x => ?_⟩
      · simp only [Fileset.withTrees, Function.update_of_ne hne, Function.update_self]
        exact hh₁.frame (hkeep _ fun x hx =>
          ⟨hdisj t dst hne x (List.mem_of_mem_erase hx), (hnd.mem_erase_iff.mp hx).1⟩)
      · rw [if_pos rfl, hnd.mem_erase_iff, and_comm]
    · refine ⟨L t, ?_, fun x => by rw [if_neg hst, if_neg hdt]⟩
      simp only [Fileset.withTrees, Function.update_of_ne hdt, Function.update_of_ne hst]
      refine (hL t).frame fun x hx => ?_
      rw [hkeep (L t) (fun x hx => ⟨hdisj t dst hdt x hx, ?_⟩) x hx]
      · exact hf₁ x fun hm => hdisj t src hst x hx (List.mem_of_mem_erase hm)
      · rintro rfl
        exact hdisj t src hst x hx he

/-! ## Release -/

def FsTree.type : FsTree → FseType
  | .freeFiles | .existFiles | .noexFiles => .file
  | .dirs => .dir
  | .freeLeafDirs | .existLeafDirs | .noexLeafDirs => .leafdir

theorem homeTree_type (f : FseFlags) : (homeTree f).type = f.type := by
  unfold homeTree
  split_ifs <;> cases f.type <;> rfl

@[simp] theorem existUpdate_type (f : FseFlags) (v : Bool) : (existUpdate f v).1.type = f.type := by
  unfold existUpdate
  split_ifs <;> rfl

@[simp] theorem existUpdate_busy (f : FseFlags) (v : Bool) : (existUpdate f v).1.busy = f.busy := by
  unfold existUpdate
  split_ifs <;> rfl

@[simp] theorem existUpdate_thrdWaitng (f : FseFlags) (v : Bool) :
    (existUpdate f v).1.thrdWaitng = f.thrdWaitng := by
  unfold existUpdate
  split_ifs <;> rfl

/-- The move that goes with an update is the one between the two home trees. -/
theorem existUpdate_move (f : FseFlags) (v : Bool) :
    (existUpdate f v).2 = if homeTree f = homeTree (existUpdate f v).1 then none
      else some (homeTree f, homeTree (existUpdate f v).1) := by
  obtain ⟨ty, free, ex, busy, reusing, waiting⟩ := f
  cases ty <;> cases free <;> cases ex <;> cases v <;> rfl

theorem FsInv.of_same {fs fs' : Fileset} (hI : FsInv fs) (hlist : fs'.fsList = fs.fsList)
    (hlink : fs'.fseLink = fs.fseLink) (htree : fs'.fsTree = fs.fsTree) (hkey : fs'.key = fs.key)
    (hhome : ∀ e, homeTree (fs'.flags e) = homeTree (fs.flags e)) : FsInv fs' where
  held t := by
    obtain ⟨l, hl, hmem⟩ := hI.held t
    refine ⟨l, by rwa [Fileset.TreeHolds, hlink, htree, hkey], fun e => ?_⟩
    rw [hmem, hhome, Fileset.entries, Fileset.entries, hlist]
  typed ty e he := by
    rw [← homeTree_type, hhome, homeTree_type]
    exact hI.typed ty e (hlist ▸ he)
  indexed ty e he e' he' := by
    rw [hkey]
    exact hI.indexed ty e (hlist ▸ he) e' (hlist ▸ he')
  nodup ty := by rw [hlist]; exact hI.nodup ty
  stack := by rw [hlink]; exact hI.stack

theorem FsInv.mem_list {fs : Fileset} (hI : FsInv fs) {e : Entry} (he : e ∈ fs.entries) :
    e ∈ fs.fsList (fs.flags e).type := by
  obtain ⟨ty, hty⟩ := Fileset.mem_entries.mp he
  rwa [hI.typed ty e hty]

/-- New flags for an entry together with the move to the tree that they dictate. -/
theorem FsInv.move {fs : Fileset} (hI : FsInv fs) {e : Entry} (he : e ∈ fs.entries)
    {f : FseFlags} (htype : f.type = (fs.flags e).type) (hne : homeTree (fs.flags e) ≠ homeTree f) :
    ∃ h ts, Returns (fun fuel => filesetMoveEntry fuel (fs.setFlags e fun _ => f)
        (homeTree (fs.flags e)) (homeTree f) e) ((fs.setFlags e fun _ => f).withTrees h ts) ∧
      FsInv ((fs.setFlags e fun _ => f).withTrees h ts) := by
  choose L hL hmem using hI.held
  have hdisj : ∀ t t', t ≠ t' → ∀ x ∈ L t, x ∉ L t' := fun t t' htt x hx hx' =>
    htt (((hmem t x).mp hx).2.symm.trans ((hmem t' x).mp hx').2)
  have hfresh : ∀ x ∈ L (homeTree f), fs.key x ≠ fs.key e := by
    intro x hx hkey
    obtain ⟨hxe, hxf⟩ := (hmem _ x).mp hx
    have hty : (fs.flags x).type = (fs.flags e).type := by
      rw [← homeTree_type, hxf, homeTree_type, htype]
    obtain rfl := hI.indexed _ x (hty ▸ hI.mem_list hxe) e (hI.mem_list he) hkey
    exact hne hxf
  obtain ⟨h, ts, hrun, hstack, hheld⟩ := filesetMoveEntry_returns
    (show ∀ t, (fs.setFlags e fun _ => f).TreeHolds t (L t) from fun t => by
      simpa [Fileset.TreeHolds] using hL t)
    ((hmem _ e).mpr ⟨he, rfl⟩) hne hdisj (by simpa using hfresh) hI.stack
  refine ⟨h, ts, hrun, ⟨fun t => ?_, fun ty x hx => ?_, ?_, hI.nodup, hstack⟩⟩
  · obtain ⟨l, hl, hlmem⟩ := hheld t
    refine ⟨l, hl, fun x => ?_⟩
    rw [hlmem, withTrees_flags, withTrees_entries, setFlags_flags]
    have hent : (fs.setFlags e fun _ => f).entries = fs.entries := rfl
    rw [hent]
    by_cases hx : x = e
    · subst hx
      by_cases hsrc : t = homeTree (fs.flags x)
      · simp [hsrc, Ne.symm hne]
      · by_cases hdst : t = homeTree f
        · simp [hdst, Ne.symm hne, he]
        · have : x ∉ L t := fun hm => hsrc ((hmem t x).mp hm).2.symm
          simp [hsrc, hdst, this, Ne.symm hdst]
    · rw [if_neg hx, ← hmem t x]
      by_cases hsrc : t = homeTree (fs.flags e)
      · simp [hsrc, hx]
      · by_cases hdst : t = homeTree f
        · simp [hdst, Ne.symm hne, hx]
        · simp [hsrc, hdst]
  · rw [withTrees_flags, setFlags_flags]
    split_ifs with hxe
    · subst hxe
      exact htype.trans (hI.typed ty x hx)
    · exact hI.typed ty x hx
  · simpa using hI.indexed

/-- The effect of a release on everything but the trees and their links. -/
def unbusyView (fs : Fileset) (entry : Entry) (newExist : Option Bool) (openCntIncr : ℤ) :
    Fileset × Signals :=
  let fs := match newExist with
    | none => fs
    | some v => fs.setFlags entry fun _ => (existUpdate (fs.flags entry) v).1
  clearBusy (fs.setFse entry fun n => { n with fseOpenCnt := n.fseOpenCnt + openCntIncr }) entry

/-- The fileset after the busy bit of a busy entry was cleared. -/
def idled (fs : Fileset) (e : Entry) : Fileset :=
  (fs.setFlags e fun f => { f with busy := false, thrdWaitng := false }).addIdle (fs.flags e).type 1

theorem clearBusy_of_busy {fs : Fileset} {e : Entry} (hb : (fs.flags e).busy = true) :
    clearBusy fs e = (idled fs e, ⟨(fs.flags e).thrdWaitng,
      if fs.fsIdle (fs.flags e).type + 1 = 1 then some (fs.flags e).type else none⟩) := by
  simp only [clearBusy, hb, if_true, addIdle_fsIdle, setFlags_fsIdle]
  rfl

theorem clearBusy_of_not_busy {fs : Fileset} {e : Entry} (hb : ¬ (fs.flags e).busy = true) :
    clearBusy fs e = (fs, ⟨false, none⟩) := if_neg hb

theorem clearBusy_withTrees (fs : Fileset) (e : Entry) (h : Links Entry)
    (ts : FsTree → AvlTree Entry) : clearBusy (fs.withTrees h ts) e =
      ((clearBusy fs e).1.withTrees h ts, (clearBusy fs e).2) := by
  by_cases hb : (fs.flags e).busy = true
  · rw [clearBusy_of_busy hb, clearBusy_of_busy (show ((fs.withTrees h ts).flags e).busy = true from hb)]
    rfl
  · rw [clearBusy_of_not_busy hb,
      clearBusy_of_not_busy (show ¬ ((fs.withTrees h ts).flags e).busy = true from hb)]

theorem FsInv.clearBusy {fs : Fileset} (hI : FsInv fs) (e : Entry) :
    FsInv (clearBusy fs e).1 := by
  by_cases hb : (fs.flags e).busy = true
  · rw [clearBusy_of_busy hb]
    have hkey : (idled fs e).key = fs.key :=
      setFlags_key fs e fun f => { f with busy := false, thrdWaitng := false }
    refine hI.of_same rfl rfl rfl hkey fun x => ?_
    rw [idled, addIdle_flags, setFlags_flags]
    split_ifs with hx
    · rw [hx]; rfl
    · rfl
  · rwa [clearBusy_of_not_busy hb]

theorem FsInv.setOpenCnt {fs : Fileset} (hI : FsInv fs) (e : Entry) (f : FilesetEntry → ℤ) :
    FsInv (fs.setFse e fun n => { n with fseOpenCnt := f n }) := by
  refine hI.of_same rfl rfl rfl ?_ fun x => ?_
  · funext x
    simp only [Fileset.key, setFse_fse]
    split_ifs with hx
    · rw [hx]
    · rfl
  · simp only [Fileset.flags, setFse_fse]
    split_ifs with hx
    · rw [hx]
    · rfl

/-- A release returns and leaves the entry in the tree that its new flags dictate. -/
theorem filesetUnbusy_returns {fs : Fileset} (hI : FsInv fs) {e : Entry} (he : e ∈ fs.entries)
    (newExist : Option Bool) (openCntIncr : ℤ) :
    ∃ h ts, Returns (fun fuel => filesetUnbusy fuel fs e newExist openCntIncr)
        ((unbusyView fs e newExist openCntIncr).1.withTrees h ts,
          (unbusyView fs e newExist openCntIncr).2) ∧
      FsInv ((unbusyView fs e newExist openCntIncr).1.withTrees h ts) := by
  -- what remains after the update of the existence
  have rest : ∀ (fs₁ : Fileset) {h ts}, FsInv (fs₁.withTrees h ts) →
      some (clearBusy ((fs₁.withTrees h ts).setFse e
          fun n => { n with fseOpenCnt := n.fseOpenCnt + openCntIncr }) e) =
        some ((clearBusy (fs₁.setFse e
          fun n => { n with fseOpenCnt := n.fseOpenCnt + openCntIncr }) e).1.withTrees h ts,
          (clearBusy (fs₁.setFse e
            fun n => { n with fseOpenCnt := n.fseOpenCnt + openCntIncr }) e).2) ∧
      FsInv ((clearBusy (fs₁.setFse e
          fun n => { n with fseOpenCnt := n.fseOpenCnt + openCntIncr }) e).1.withTrees h ts) := by
    intro fs₁ h ts hI₁
    have hcomm := clearBusy_withTrees (fs₁.setFse e
      fun n => { n with fseOpenCnt := n.fseOpenCnt + openCntIncr }) e h ts
    refine ⟨congrArg some hcomm, ?_⟩
    exact Eq.mp (congrArg (fun r => FsInv r.1) hcomm)
      ((hI₁.setOpenCnt e fun n => n.fseOpenCnt + openCntIncr).clearBusy e)
  cases newExist with
  | none =>
    obtain ⟨hrun, hinv⟩ := @rest fs fs.fseLink fs.fsTree hI
    exact ⟨_, _, returns_of_const fun _ => hrun, hinv⟩
  | some v =>
    have hmove := existUpdate_move (fs.flags e) v
    by_cases hsame : homeTree (fs.flags e) = homeTree (existUpdate (fs.flags e) v).1
    · rw [if_pos hsame] at hmove
      have hI₁ : FsInv (fs.setFlags e fun _ => (existUpdate (fs.flags e) v).1) := by
        refine hI.of_same rfl rfl rfl (setFlags_key ..) fun x => ?_
        rw [setFlags_flags]
        split_ifs with hx
        · rw [hx, hsame]
        · rfl
      obtain ⟨hrun, hinv⟩ := @rest
        (fs.setFlags e fun _ => (existUpdate (fs.flags e) v).1) fs.fseLink fs.fsTree hI₁
      refine ⟨_, _, returns_of_const fun fuel => ?_, hinv⟩
      simp only [filesetUnbusy, hmove]
      exact hrun
    · rw [if_neg hsame] at hmove
      obtain ⟨h, ts, hret, hI₁⟩ := hI.move he (existUpdate_type ..) hsame
      obtain ⟨hrun, hinv⟩ := rest _ hI₁
      refine ⟨h, ts, ?_, hinv⟩
      unfold filesetUnbusy
      simp only [hmove]
      exact hret.bind (returns_of_const fun _ => hrun)

end Filebench
