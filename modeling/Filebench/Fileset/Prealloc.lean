import Filebench.Fileset.PopulateTotal
import Filebench.Fileset.Run

/-! # The entries of a preallocation

The two loops of `fileset_create` pick the free entries of one type, pass over some of them at
random and have the others allocated, each in the loop itself or by a thread of its own, which
finishes at any time. -/
namespace Filebench

open Fuel

/-- Where the loop is. It leaves with an error without releasing the entry it has picked. -/
inductive PreallocPhase where
  | next
  | picked (e : Entry)
  | left (e : Option Entry)
  | finished
  deriving DecidableEq

/-- The entry that the loop itself holds. -/
def PreallocPhase.current : PreallocPhase → List Entry
  | .picked e | .left (some e) => [e]
  | _ => []

/-- `flying` are the entries that are being allocated, and `settled` those that were released, each
with the success of its allocation if it was not passed over. -/
structure Prealloc where
  fs : Fileset
  phase : PreallocPhase
  flying : List Entry
  settled : List (Entry × Option Bool)
  preallocated : ℕ

/-- `FILESET_PICKFREE` is the flag of a unique pick. -/
def pickFree (ty : FseType) : PickFlags := ⟨ty, true, false, false⟩

def filesetCreateEntry (fs : Fileset) (reusing : Bool) (e : Entry) : Fileset :=
  fs.setFlags e fun f => { f with reusing := reusing }

variable {ty : FseType} {reusing : Bool}

/-- A step of the loop, or the end of one allocation. -/
inductive PreallocStep (ty : FseType) (reusing : Bool) (s : Prealloc) : Prealloc → Prop where
  | pick (e : Entry) (random : ℕ) (fs : Fileset) (hphase : s.phase = .next)
      (hpick : Returns (fun fuel => filesetPick fuel s.fs (pickFree ty) 0 0 random)
        (.entry e, fs)) :
      PreallocStep ty reusing s { s with fs := fs, phase := .picked e }
  | skip (e : Entry) (fs : Fileset) (sig : Signals) (hphase : s.phase = .picked e)
      (hunbusy : Returns (fun fuel => filesetUnbusy fuel s.fs e (some false) 0) (fs, sig)) :
      PreallocStep ty reusing s
        { s with fs := fs, phase := .next, settled := (e, none) :: s.settled }
  | launch (e : Entry) (hphase : s.phase = .picked e) :
      PreallocStep ty reusing s { s with
        fs := filesetCreateEntry s.fs reusing e
        phase := .next
        flying := e :: s.flying
        preallocated := s.preallocated + 1 }
  | finish (e : Entry) (ok : Bool) (fs : Fileset) (sig : Signals) (hflying : e ∈ s.flying)
      (hunbusy : Returns (fun fuel => filesetUnbusy fuel s.fs e (some ok) 0) (fs, sig)) :
      PreallocStep ty reusing s
        { s with fs := fs, flying := s.flying.erase e, settled := (e, some ok) :: s.settled }
  /-- Some allocation has failed before this one. -/
  | quit (e : Entry) (hphase : s.phase = .picked e) :
      PreallocStep ty reusing s { s with
        fs := filesetCreateEntry s.fs reusing e
        phase := .left (some e)
        preallocated := s.preallocated + 1 }
  /-- The allocation that the loop has made itself has failed. -/
  | fail (hphase : s.phase = .next) (hfailed : ∃ e, (e, some false) ∈ s.settled) :
      PreallocStep ty reusing s { s with phase := .left none }
  | stop (random : ℕ) (res : PickResult) (fs : Fileset) (hphase : s.phase = .next)
      (hres : res = .null ∨ res = .nullLocked)
      (hpick : Returns (fun fuel => filesetPick fuel s.fs (pickFree ty) 0 0 random) (res, fs)) :
      PreallocStep ty reusing s { s with fs := fs, phase := .finished }

def preallocInit (fs : Fileset) : Prealloc := ⟨fs, .next, [], [], 0⟩

abbrev PreallocRun (ty : FseType) (reusing : Bool) (fs₀ : Fileset) : Prealloc → Prop :=
  Relation.ReflTransGen (PreallocStep ty reusing) (preallocInit fs₀)

/-- No entry of the type is in use when the loop starts. -/
structure PreallocStart (ty : FseType) (fs : Fileset) : Prop where
  inv : FsInv fs
  busy : ∀ e ∈ fs.fsList ty, (fs.flags e).busy = false
  idle : fs.fsIdle ty = (fs.fsList ty).length
  max : fs.fsList ty ≠ [] → maxEntries fs ty ≠ 0

/-- A fileset that was just populated is a start, for its files and for its leaf directories. -/
theorem Populated.preallocStart {s : Shm} {E L : ℕ} (h : Populated s E L) (hty : ty ≠ .dir) :
    PreallocStart ty s.fs where
  inv := h.inv.fsInv
  busy e he := by
    rw [h.inv.flags ty e he]
    cases ty <;> rfl
  idle := h.inv.idle ty
  max hne := by
    have hlen := List.length_pos_iff.mpr hne
    cases ty with
    | file =>
      rw [h.files] at hlen
      exact (h.constentries.trans_ne hlen.ne')
    | dir => exact absurd rfl hty
    | leafdir =>
      rw [h.leafdirs] at hlen
      exact (h.constleafdirs.trans_ne hlen.ne')

/-! ## A pick and a release -/

/-- What the pick of a free entry does. -/
structure PickedFree (ty : FseType) (fs : Fileset) (e : Entry) (fs' : Fileset) : Prop where
  inv : FsInv fs'
  same : SameEntries fs fs'
  list : e ∈ fs.fsList ty
  home : homeTree (fs.flags e) = freeTree ty
  busy : (fs.flags e).busy = false
  flags : fs'.flags e = { fs.flags e with busy := true }
  others : ∀ x, x ≠ e → fs'.flags x = fs.flags x
  idle : fs'.fsIdle ty = fs.fsIdle ty - 1

theorem pickedFree_of_pick {fs fs' : Fileset} {e : Entry} {random : ℕ} (hI : FsInv fs)
    (hpick : Returns (fun fuel => filesetPick fuel fs (pickFree ty) 0 0 random) (.entry e, fs')) :
    PickedFree ty fs e fs' := by
  have heffect := filesetPick_effect hI hpick
  have hinv := heffect.inv hI
  have hsame := heffect.same
  cases heffect with
  | entry r e hidle he hhome hbusy =>
    have htype : (fs.flags e).type = ty := by
      rw [← homeTree_type, hhome]
      cases ty <;> rfl
    refine ⟨hinv, hsame, htype ▸ hI.mem_list he, hhome, hbusy, setFlags_flags_self .., ?_, ?_⟩
    · intro x hx
      rw [setFlags_flags_of_ne _ _ _ hx]
      rfl
    · rw [setFlags_fsIdle, addIdle_fsIdle]
      exact if_pos rfl

/-- The tree of a released entry. -/
def settledTree (ty : FseType) (fate : Option Bool) : FsTree :=
  if fate = some true then existTree ty else noexTree ty

/-- What the release of a picked entry does. -/
structure ReleasedAs (ty : FseType) (v : Option Bool) (fs : Fileset) (e : Entry)
    (fs' : Fileset) : Prop where
  inv : FsInv fs'
  same : SameEntries fs fs'
  busy : (fs'.flags e).busy = false
  home : homeTree (fs'.flags e) = settledTree ty v
  others : ∀ x, x ≠ e → fs'.flags x = fs.flags x
  idle : fs'.fsIdle ty = fs.fsIdle ty + 1

theorem unbusyView_home (fs : Fileset) (e : Entry) (v : Option Bool) (n : ℤ) :
    homeTree ((unbusyView fs e (some (v = some true)) n).1.flags e) =
      settledTree (fs.flags e).type v := by
  have hset : ∀ fs' : Fileset,
      (fs'.setFse e fun m => { m with fseOpenCnt := m.fseOpenCnt + n }).flags e = fs'.flags e :=
    fun fs' => by simp [Fileset.flags]
  rw [unbusyView, clearBusy_homeTree, hset, setFlags_flags_self]
  obtain ⟨ty, free, ex, busy, reusing, waiting⟩ := fs.flags e
  obtain _ | _ | _ := v <;> cases ty <;> cases free <;> cases ex <;> rfl

theorem releasedAs_of_unbusy {fs fs' : Fileset} {e : Entry} {v : Option Bool}
    {sig : Signals} (hI : FsInv fs) (he : e ∈ fs.fsList ty) (hbusy : (fs.flags e).busy = true)
    (hunbusy : Returns (fun fuel => filesetUnbusy fuel fs e (some (v = some true)) 0) (fs', sig)) :
    ReleasedAs ty v fs e fs' := by
  have htype := hI.typed ty e he
  obtain ⟨hinv, -, link, ts, rfl⟩ := filesetUnbusy_inv hI (Fileset.mem_entries.mpr ⟨ty, he⟩) hunbusy
  refine ⟨hinv, (unbusyView_same ..).trans (.withTrees _ link ts), unbusyView_busy .., ?_, ?_, ?_⟩
  · rw [withTrees_flags, unbusyView_home, htype]
  · exact fun x hx => unbusyView_flags_of_ne fs _ 0 hx
  · rw [withTrees_fsIdle, (unbusyView_idle hbusy _ _).1, htype, Function.update_self]

/-! ## The invariant -/

/-- The entries that were picked and not released yet. -/
def Prealloc.held (s : Prealloc) : List Entry := s.phase.current ++ s.flying

/-- All entries that were picked. -/
def Prealloc.known (s : Prealloc) : List Entry := s.held ++ s.settled.map Prod.fst

structure PreallocInv (ty : FseType) (fs₀ : Fileset) (s : Prealloc) : Prop where
  inv : FsInv s.fs
  same : SameEntries fs₀ s.fs
  nodup : s.known.Nodup
  free : ∀ e ∈ s.known, e ∈ fs₀.fsList ty ∧ homeTree (fs₀.flags e) = freeTree ty
  held : ∀ e ∈ s.held, (s.fs.flags e).busy = true ∧ homeTree (s.fs.flags e) = freeTree ty
  settled : ∀ e v, (e, v) ∈ s.settled → (s.fs.flags e).busy = false ∧
    homeTree (s.fs.flags e) = settledTree ty v
  others : ∀ e, e ∉ s.known → (s.fs.flags e).busy = (fs₀.flags e).busy ∧
    homeTree (s.fs.flags e) = homeTree (fs₀.flags e)
  idle : s.fs.fsIdle ty + s.held.length = (fs₀.fsList ty).length
  finished : s.phase = .finished → ∀ e ∈ fs₀.fsList ty, homeTree (fs₀.flags e) = freeTree ty →
    e ∈ s.known

namespace PreallocInv

variable {fs₀ fs' : Fileset} {s s' : Prealloc} {e : Entry} {v : Option Bool}

theorem init (h : PreallocStart ty fs₀) : PreallocInv ty fs₀ (preallocInit fs₀) where
  inv := h.inv
  same := .refl fs₀
  nodup := List.nodup_nil
  free _ he := absurd he List.not_mem_nil
  held _ he := absurd he List.not_mem_nil
  settled _ _ he := absurd he List.not_mem_nil
  others _ _ := ⟨rfl, rfl⟩
  idle := by
    rw [← h.idle]
    exact add_zero _
  finished hphase := by cases hphase

theorem mem_entries (h : PreallocInv ty fs₀ s) (he : e ∈ s.known) : e ∈ s.fs.entries :=
  h.same.entries ▸ Fileset.mem_entries.mpr ⟨ty, (h.free e he).1⟩

theorem held_known (he : e ∈ s.held) : e ∈ s.known := List.mem_append_left _ he

theorem type (h : PreallocInv ty fs₀ s) (he : e ∈ s.known) : (s.fs.flags e).type = ty := by
  refine h.inv.typed ty e ?_
  rw [h.same.list]
  exact (h.free e he).1

/-- An entry of the free tree that is not busy is one that was not picked yet. -/
theorem fresh (h : PreallocInv ty fs₀ s) (hty : ty ≠ .dir)
    (hhome : homeTree (s.fs.flags e) = freeTree ty) (hbusy : (s.fs.flags e).busy = false) :
    e ∉ s.known := by
  intro he
  rcases List.mem_append.mp he with he | he
  · rw [(h.held e he).1] at hbusy
    cases hbusy
  · obtain ⟨⟨x, v⟩, hx, rfl⟩ := List.mem_map.mp he
    have hset := (h.settled x v hx).2
    rw [hhome] at hset
    cases ty with
    | dir => exact absurd rfl hty
    | _ => obtain _ | _ | _ := v <;> cases hset

/-- A step that writes to the flags of one entry. -/
theorem update (h : PreallocInv ty fs₀ s) (he : e ∈ s'.known) (hinv : FsInv s'.fs)
    (hsame : SameEntries s.fs s'.fs) (hflags : ∀ x, x ≠ e → s'.fs.flags x = s.fs.flags x)
    (hnodup : s'.known.Nodup) (hknown : s.known ⊆ s'.known)
    (hfree : ∀ x ∈ s'.known, x ∈ s.known ∨
      x ∈ fs₀.fsList ty ∧ homeTree (fs₀.flags x) = freeTree ty)
    (hheld : ∀ x ∈ s'.held, x ∈ s.held ∧ x ≠ e ∨
      x = e ∧ (s'.fs.flags e).busy = true ∧ homeTree (s'.fs.flags e) = freeTree ty)
    (hsettled : ∀ x v, (x, v) ∈ s'.settled → (x, v) ∈ s.settled ∧ x ≠ e ∨
      x = e ∧ (s'.fs.flags e).busy = false ∧ homeTree (s'.fs.flags e) = settledTree ty v)
    (hidle : s'.fs.fsIdle ty + s'.held.length = s.fs.fsIdle ty + s.held.length)
    (hphase : s'.phase ≠ .finished ∨ s.phase = .finished) : PreallocInv ty fs₀ s' where
  inv := hinv
  same := h.same.trans hsame
  nodup := hnodup
  free x hx := (hfree x hx).elim (h.free x) id
  held x hx := by
    rcases hheld x hx with ⟨hx, hne⟩ | ⟨rfl, hx⟩
    · rw [hflags x hne]
      exact h.held x hx
    · exact hx
  settled x v hx := by
    rcases hsettled x v hx with ⟨hx, hne⟩ | ⟨rfl, hx⟩
    · rw [hflags x hne]
      exact h.settled x v hx
    · exact hx
  others x hx := by
    rw [hflags x fun hxe => hx (hxe ▸ he)]
    exact h.others x fun hm => hx (hknown hm)
  idle := hidle.trans h.idle
  finished hfin x hx hhome :=
    hknown (h.finished (hphase.resolve_left fun hne => hne hfin) x hx hhome)

theorem pick (h : PreallocInv ty fs₀ s) (hty : ty ≠ .dir) (hp : PickedFree ty s.fs e fs')
    (hphase : s.phase = .next) : PreallocInv ty fs₀ { s with fs := fs', phase := .picked e } := by
  have hheld : s.held = s.flying := by rw [Prealloc.held, hphase]; rfl
  have hknown : Prealloc.known { s with fs := fs', phase := .picked e } = e :: s.known := by
    rw [Prealloc.known, Prealloc.known, hheld]
    rfl
  have hfresh := h.fresh hty hp.home hp.busy
  refine h.update (e := e) ?_ hp.inv hp.same hp.others ?_ ?_ ?_ ?_ ?_ ?_
    (.inl fun hf => by cases hf)
  · rw [hknown]
    exact .head _
  · rw [hknown]
    exact List.nodup_cons.mpr ⟨hfresh, h.nodup⟩
  · rw [hknown]
    exact List.subset_cons_self _ _
  · rw [hknown]
    intro x hx
    rcases List.mem_cons.mp hx with rfl | hx
    · exact .inr ⟨h.same.list ▸ hp.list, (h.others x hfresh).2 ▸ hp.home⟩
    · exact .inl hx
  · intro x hx
    rcases List.mem_cons.mp hx with rfl | hx
    · refine .inr ⟨rfl, ?_⟩
      change (fs'.flags x).busy = true ∧ homeTree (fs'.flags x) = freeTree ty
      rw [hp.flags]
      exact ⟨rfl, hp.home⟩
    · rw [← hheld] at hx
      exact .inl ⟨hx, fun hxe => hfresh (hxe ▸ held_known hx)⟩
  · intro x v hx
    exact .inl ⟨hx, fun hxe => hfresh
      (hxe ▸ List.mem_append_right _ (List.mem_map_of_mem (f := Prod.fst) hx))⟩
  · change fs'.fsIdle ty + ((e :: s.flying).length : ℕ) = _
    rw [hp.idle, hheld, List.length_cons]
    push_cast
    ring

/-- The entry is launched, or left behind. -/
theorem create (h : PreallocInv ty fs₀ s) (he : e ∈ s.held)
    (hfs : s'.fs = filesetCreateEntry s.fs reusing e) (hheld : s'.held = s.held)
    (hsettled : s'.settled = s.settled) (hphase : s'.phase ≠ .finished) :
    PreallocInv ty fs₀ s' := by
  have hflags : s'.fs.flags e = { s.fs.flags e with reusing := reusing } := by
    rw [hfs]
    exact setFlags_flags_self ..
  have hhome : homeTree (s'.fs.flags e) = homeTree (s.fs.flags e) := by
    rw [hflags]
    rfl
  have hknown : s'.known = s.known := by rw [Prealloc.known, Prealloc.known, hheld, hsettled]
  have hother : ∀ x, x ≠ e → s'.fs.flags x = s.fs.flags x := by
    intro x hx
    rw [hfs]
    exact setFlags_flags_of_ne _ _ _ hx
  refine h.update (e := e) (hknown ▸ List.mem_append_left _ he) ?_ ?_ hother (hknown ▸ h.nodup)
    (hknown ▸ List.Subset.refl _) (fun x hx => .inl (hknown ▸ hx)) ?_ ?_ ?_ (.inl hphase)
  · rw [hfs]
    refine h.inv.of_same rfl rfl rfl (setFlags_key ..) fun x => ?_
    by_cases hx : x = e
    · subst hx
      rw [← hfs]
      exact hhome
    · rw [← hfs, hother x hx]
  · rw [hfs]
    exact .setFlags e _
  · intro x hx
    by_cases hxe : x = e
    · subst hxe
      rw [hhome, hflags]
      exact .inr ⟨rfl, h.held x he⟩
    · exact .inl ⟨hheld ▸ hx, hxe⟩
  · intro x v hx
    refine .inl ⟨hsettled ▸ hx, ?_⟩
    rintro rfl
    have hbusy := (h.settled x v (hsettled ▸ hx)).1
    rw [(h.held x he).1] at hbusy
    cases hbusy
  · rw [hheld, hfs]
    rfl

/-- The entry is released, by the loop or at the end of its allocation. -/
theorem release (h : PreallocInv ty fs₀ s) (he : e ∈ s.held) (hr : ReleasedAs ty v s.fs e s'.fs)
    (hheld : s.held.Perm (e :: s'.held)) (hsettled : s'.settled = (e, v) :: s.settled)
    (hphase : s'.phase ≠ .finished ∨ s.phase = .finished) : PreallocInv ty fs₀ s' := by
  have hknown : s'.known.Perm s.known := by
    rw [Prealloc.known, Prealloc.known, hsettled, List.map_cons]
    exact List.perm_middle.trans (hheld.symm.append_right _)
  have hnodup : (e :: s'.held).Nodup :=
    hheld.nodup_iff.mp (List.nodup_append.mp h.nodup).1
  refine h.update (e := e) (hknown.mem_iff.mpr (held_known he)) hr.inv hr.same hr.others
    (hknown.nodup_iff.mpr h.nodup) (fun x hx => hknown.mem_iff.mpr hx)
    (fun x hx => .inl (hknown.mem_iff.mp hx)) ?_ ?_ ?_ hphase
  · intro x hx
    refine .inl ⟨hheld.mem_iff.mpr (.tail _ hx), ?_⟩
    rintro rfl
    exact (List.nodup_cons.mp hnodup).1 hx
  · intro x w hx
    rw [hsettled] at hx
    rcases List.mem_cons.mp hx with hnew | hold
    · obtain ⟨rfl, rfl⟩ := Prod.mk.inj hnew
      exact .inr ⟨rfl, hr.busy, hr.home⟩
    · refine .inl ⟨hold, ?_⟩
      rintro rfl
      have hbusy := (h.settled x w hold).1
      rw [(h.held x he).1] at hbusy
      cases hbusy
  · rw [hr.idle, hheld.length_eq, List.length_cons]
    push_cast
    ring

/-- The loop has come to an end: no entry is left to pick. -/
theorem stop (h : PreallocInv ty fs₀ s) (hstart : PreallocStart ty fs₀) {res : PickResult}
    {random : ℕ} (hphase : s.phase = .next) (hres : res = .null ∨ res = .nullLocked)
    (hpick : Returns (fun fuel => filesetPick fuel s.fs (pickFree ty) 0 0 random) (res, fs')) :
    PreallocInv ty fs₀ { s with fs := fs', phase := .finished } := by
  have hheld : Prealloc.held { s with fs := fs', phase := .finished } = s.held := by
    rw [Prealloc.held, Prealloc.held, hphase]
    rfl
  have hknown : Prealloc.known { s with fs := fs', phase := .finished } = s.known := by
    rw [Prealloc.known, Prealloc.known, hheld]
  have heffect := filesetPick_effect h.inv hpick
  have hinv := heffect.inv h.inv
  have hsame := heffect.same
  cases heffect with
  | wait _ _ => rcases hres with hres | hres <;> cases hres
  | entry _ _ _ _ _ _ => rcases hres with hres | hres <;> cases hres
  | nullLocked hidle _ hmax =>
    rw [show maxEntries s.fs (pickFree ty).type = maxEntries fs₀ ty from h.same.maxEntries ty]
      at hmax
    have hnil : fs₀.fsList ty = [] := by
      by_contra hne
      exact hstart.max hne hmax
    exact ⟨h.inv, h.same, hknown ▸ h.nodup, hknown ▸ h.free, hheld ▸ h.held, h.settled,
      hknown ▸ h.others, hheld ▸ h.idle, fun _ x hx => absurd (hnil ▸ hx) List.not_mem_nil⟩
  | null r hnull =>
    refine ⟨hinv, h.same.trans hsame, hknown ▸ h.nodup, hknown ▸ h.free, hheld ▸ h.held, h.settled,
      hknown ▸ h.others, hheld ▸ h.idle, fun _ x hx hhome => ?_⟩
    rw [hknown]
    rcases hnull with hnil | ⟨-, hbusy⟩
    · rw [show s.fs.fsList (pickFree ty).type = fs₀.fsList ty from congrFun h.same.list ty] at hnil
      exact absurd (hnil ▸ hx) List.not_mem_nil
    · by_contra hnot
      obtain ⟨hbusy₀, hhome₀⟩ := h.others x hnot
      have hx' := hbusy x (h.same.entries ▸ Fileset.mem_entries.mpr ⟨ty, hx⟩) (hhome₀.trans hhome)
      rw [hbusy₀, hstart.busy x hx] at hx'
      cases hx'

theorem step (h : PreallocInv ty fs₀ s) (hty : ty ≠ .dir) (hstart : PreallocStart ty fs₀)
    (hstep : PreallocStep ty reusing s s') : PreallocInv ty fs₀ s' := by
  have hrelease : ∀ {e v fs sig}, e ∈ s.held →
      Returns (fun fuel => filesetUnbusy fuel s.fs e (some (v = some true)) 0) (fs, sig) →
      ReleasedAs ty v s.fs e fs := by
    intro e v fs sig he hunbusy
    refine releasedAs_of_unbusy h.inv ?_ (h.held e he).1 hunbusy
    rw [h.same.list]
    exact (h.free e (held_known he)).1
  cases hstep with
  | pick e random fs hphase hpick =>
    exact h.pick hty (pickedFree_of_pick h.inv hpick) hphase
  | skip e fs sig hphase hunbusy =>
    have hheld : s.held = e :: s.flying := by rw [Prealloc.held, hphase]; rfl
    exact h.release (v := none) (hheld ▸ .head _) (hrelease (hheld ▸ .head _) hunbusy)
      (hheld ▸ .refl _) rfl (.inl fun hf => by cases hf)
  | launch e hphase =>
    have hheld : s.held = e :: s.flying := by rw [Prealloc.held, hphase]; rfl
    exact h.create (hheld ▸ .head _) rfl hheld.symm rfl fun hf => by cases hf
  | quit e hphase =>
    have hheld : s.held = e :: s.flying := by rw [Prealloc.held, hphase]; rfl
    exact h.create (hheld ▸ .head _) rfl hheld.symm rfl fun hf => by cases hf
  | finish e ok fs sig hflying hunbusy =>
    have he : e ∈ s.held := List.mem_append_right _ hflying
    refine h.release (v := some ok) he (hrelease he (by simpa using hunbusy)) ?_ rfl ?_
    · exact ((List.perm_cons_erase hflying).append_left _).trans List.perm_middle
    · exact Classical.or_iff_not_imp_left.mpr fun hf => not_not.mp hf
  | fail hphase hfailed =>
    have hheld : Prealloc.held { s with phase := .left none } = s.held := by
      rw [Prealloc.held, Prealloc.held, hphase]
      rfl
    have hknown : Prealloc.known { s with phase := .left none } = s.known := by
      rw [Prealloc.known, Prealloc.known, hheld]
    exact ⟨h.inv, h.same, hknown ▸ h.nodup, hknown ▸ h.free, hheld ▸ h.held, h.settled,
      hknown ▸ h.others, hheld ▸ h.idle, fun hf => by cases hf⟩
  | stop random res fs hphase hres hpick => exact h.stop hstart hphase hres hpick

theorem run (hty : ty ≠ .dir) (hstart : PreallocStart ty fs₀)
    (hrun : PreallocRun ty reusing fs₀ s) : PreallocInv ty fs₀ s := by
  induction hrun with
  | refl => exact init hstart
  | tail _ hstep ih => exact ih.step hty hstart hstep

end PreallocInv

/-! ## The number of preallocated entries -/

/-- The entry that the loop has counted and left behind. -/
def PreallocPhase.behind : PreallocPhase → ℕ
  | .left (some _) => 1
  | _ => 0

def Prealloc.Counted (s : Prealloc) : Prop :=
  s.preallocated = s.settled.countP (fun x => x.2.isSome) + s.flying.length + s.phase.behind

theorem Prealloc.Counted.step {s s' : Prealloc} (h : s.Counted)
    (hstep : PreallocStep ty reusing s s') : s'.Counted := by
  unfold Prealloc.Counted at h ⊢
  cases hstep with
  | pick e random fs hphase hpick =>
    rw [hphase] at h
    exact h
  | skip e fs sig hphase hunbusy =>
    rw [hphase] at h
    rw [List.countP_cons_of_neg (by simp)]
    exact h
  | launch e hphase =>
    rw [hphase] at h
    simp only [PreallocPhase.behind, List.length_cons] at h ⊢
    omega
  | finish e ok fs sig hflying hunbusy =>
    have hlen := List.length_erase_add_one hflying
    simp only [List.countP_cons, Option.isSome_some, if_true]
    omega
  | quit e hphase =>
    rw [hphase] at h
    simp only [PreallocPhase.behind] at h ⊢
    omega
  | fail hphase hfailed =>
    rw [hphase] at h
    exact h
  | stop random res fs hphase hres hpick =>
    rw [hphase] at h
    exact h

theorem preallocRun_counted {fs₀ : Fileset} {s : Prealloc} (hrun : PreallocRun ty reusing fs₀ s) :
    s.Counted := by
  induction hrun with
  | refl => rfl
  | tail _ hstep ih => exact ih.step hstep

/-! ## What a preallocation does -/

section results

variable {fs₀ : Fileset} {s : Prealloc}

theorem homeTree_free {f : FseFlags} (hdir : f.type ≠ .dir) :
    f.free = true ↔ homeTree f = freeTree f.type := by
  obtain ⟨ty, free, ex, busy, reusing, waiting⟩ := f
  cases ty with
  | dir => exact absurd rfl hdir
  | _ => cases free <;> cases ex <;> simp [homeTree, freeTree, existTree, noexTree]

theorem settledTree_ne_free (hty : ty ≠ .dir) (fate : Option Bool) :
    settledTree ty fate ≠ freeTree ty := by
  cases ty with
  | dir => exact absurd rfl hty
  | _ => obtain _ | _ | _ := fate <;> decide

/-- In whatever order the allocations of the threads end, no entry is picked twice, and only entries
that were free are. When the loop has found no more of them and all allocations have ended, every
free entry has been passed over or allocated, is idle and is in the tree that this dictates, the
others are where they were, and the loop has counted the ones that were not passed over. -/
theorem preallocRun_visits (hty : ty ≠ .dir) (hstart : PreallocStart ty fs₀)
    (hrun : PreallocRun ty reusing fs₀ s) :
    s.known.Nodup ∧ (∀ e ∈ s.known, e ∈ fs₀.fsList ty ∧ (fs₀.flags e).free = true) ∧
      (s.phase = .finished → s.flying = [] →
        s.fs.TreeHolds (freeTree ty) [] ∧ s.fs.fsIdle ty = (fs₀.fsList ty).length ∧
          s.preallocated = s.settled.countP (fun x => x.2.isSome) ∧
          ∀ e ∈ fs₀.fsList ty, (s.fs.flags e).busy = false ∧
            if (fs₀.flags e).free then
              ∃ fate, (e, fate) ∈ s.settled ∧ homeTree (s.fs.flags e) = settledTree ty fate
            else homeTree (s.fs.flags e) = homeTree (fs₀.flags e)) := by
  have h := PreallocInv.run hty hstart hrun
  have hfree : ∀ e ∈ fs₀.fsList ty,
      ((fs₀.flags e).free = true ↔ homeTree (fs₀.flags e) = freeTree ty) := by
    intro e he
    have htype := hstart.inv.typed ty e he
    rw [homeTree_free (htype ▸ hty), htype]
  refine ⟨h.nodup, fun e he => ⟨(h.free e he).1, (hfree e (h.free e he).1).mpr (h.free e he).2⟩,
    fun hphase hflying => ?_⟩
  have hheld : s.held = [] := by rw [Prealloc.held, hphase, hflying]; rfl
  have hknown : s.known = s.settled.map Prod.fst := by rw [Prealloc.known, hheld]; rfl
  have hfate : ∀ e ∈ fs₀.fsList ty, (s.fs.flags e).busy = false ∧
      if (fs₀.flags e).free then
        ∃ fate, (e, fate) ∈ s.settled ∧ homeTree (s.fs.flags e) = settledTree ty fate
      else homeTree (s.fs.flags e) = homeTree (fs₀.flags e) := by
    intro e he
    split
    next hf =>
      have hmem := h.finished hphase e he ((hfree e he).mp hf)
      rw [hknown] at hmem
      obtain ⟨⟨e, fate⟩, hset, rfl⟩ := List.mem_map.mp hmem
      obtain ⟨hbusy, hhome⟩ := h.settled e fate hset
      exact ⟨hbusy, fate, hset, hhome⟩
    next hf =>
      obtain ⟨hbusy, hhome⟩ := h.others e fun hmem => hf ((hfree e he).mpr (h.free e hmem).2)
      exact ⟨hbusy.trans (hstart.busy e he), hhome⟩
  refine ⟨?_, ?_, ?_, hfate⟩
  · obtain ⟨l, hl, hmem⟩ := h.inv.held (freeTree ty)
    have hnil : l = [] := by
      refine List.eq_nil_iff_forall_not_mem.mpr fun e he => ?_
      obtain ⟨hent, hhome⟩ := (hmem e).mp he
      have htype : (s.fs.flags e).type = ty := by
        rw [← homeTree_type, hhome]
        cases ty <;> rfl
      have hlist : e ∈ fs₀.fsList ty := by
        rw [← h.same.list, ← htype]
        exact h.inv.mem_list hent
      have he' := (hfate e hlist).2
      split at he'
      next =>
        obtain ⟨fate, -, hset⟩ := he'
        exact settledTree_ne_free hty fate (hset.symm.trans hhome)
      next hf => exact hf ((hfree e hlist).mpr (he'.symm.trans hhome))
    exact hnil ▸ hl
  · have hidle := h.idle
    rw [hheld] at hidle
    simpa using hidle
  · have hcount := preallocRun_counted hrun
    rw [Prealloc.Counted, hflying, hphase] at hcount
    exact hcount

/-- While no allocation of its own threads is going on, the loop never waits: its next pick gives
it an entry that it has not had yet, or ends it. -/
theorem preallocRun_next (hty : ty ≠ .dir) (hstart : PreallocStart ty fs₀)
    (hrun : PreallocRun ty reusing fs₀ s) (hphase : s.phase = .next) (hflying : s.flying = [])
    (random : ℕ) : ∃ res fs', Returns
      (fun fuel => filesetPick fuel s.fs (pickFree ty) 0 0 random) (res, fs') ∧
        (res = .null ∨ ∃ e, res = .entry e ∧ e ∈ fs₀.fsList ty ∧ e ∉ s.known) := by
  have h := PreallocInv.run hty hstart hrun
  obtain ⟨⟨res, fs'⟩, hpick⟩ := filesetPick_total h.inv (pickFree ty) (show 0 < fseMaxtid by decide)
    0 random
  have hheld : s.held = [] := by rw [Prealloc.held, hphase, hflying]; rfl
  have hidle : s.fs.fsIdle ty = (fs₀.fsList ty).length := by
    have hsum := h.idle
    rw [hheld] at hsum
    simpa using hsum
  -- an empty list ends the loop before the idle count and the size are looked at
  have hzero : fs₀.fsList ty = [] → s.fs.fsIdle ty = 0 := by
    intro hnil
    rw [hidle, hnil]
    rfl
  refine ⟨res, fs', hpick, ?_⟩
  have heffect := filesetPick_effect h.inv hpick
  cases heffect with
  | null _ _ => exact .inl rfl
  | entry _ e _ _ _ _ =>
    have hp := pickedFree_of_pick h.inv hpick
    exact .inr ⟨e, rfl, h.same.list ▸ hp.list, h.fresh hty hp.home hp.busy⟩
  | wait hlist hnone =>
    rw [show s.fs.fsIdle (pickFree ty).type = s.fs.fsIdle ty from rfl, hidle] at hnone
    rw [show s.fs.fsList (pickFree ty).type = fs₀.fsList ty from congrFun h.same.list ty] at hlist
    exact absurd (List.length_eq_zero_iff.mp (by exact_mod_cast hnone)) hlist
  | nullLocked hsome _ hmax =>
    rw [show maxEntries s.fs (pickFree ty).type = maxEntries fs₀ ty from h.same.maxEntries ty]
      at hmax
    by_cases hnil : fs₀.fsList ty = []
    · exact absurd (hzero hnil) hsome
    · exact absurd hmax (hstart.max hnil)

/-- An entry that was picked is passed over, or allocated before the next pick. -/
theorem preallocRun_entry (hty : ty ≠ .dir) (hstart : PreallocStart ty fs₀) (skip : Bool)
    (hrun : PreallocRun ty reusing fs₀ s) (hphase : s.phase = .next) (hflying : s.flying = [])
    {e : Entry} {random : ℕ} {fs' : Fileset}
    (hpick : Returns (fun fuel => filesetPick fuel s.fs (pickFree ty) 0 0 random) (.entry e, fs')) :
    ∃ s', Relation.ReflTransGen (PreallocStep ty reusing) s s' ∧ s'.phase = .next ∧
      s'.flying = [] ∧ s'.settled = (e, if skip then none else some true) :: s.settled := by
  have hpicked : PreallocStep ty reusing s { s with fs := fs', phase := .picked e } :=
    .pick e random fs' hphase hpick
  have h₁ := PreallocInv.run hty hstart (hrun.tail hpicked)
  cases skip with
  | true =>
    obtain ⟨link, ts, hunbusy, -⟩ :=
      filesetUnbusy_returns h₁.inv (h₁.mem_entries (.head _)) (some false) 0
    exact ⟨_, .tail (.single hpicked) (.skip e _ _ rfl hunbusy), rfl, hflying, rfl⟩
  | false =>
    have hlaunch : PreallocStep ty reusing { s with fs := fs', phase := .picked e } _ :=
      .launch e rfl
    have h₂ := PreallocInv.run hty hstart ((hrun.tail hpicked).tail hlaunch)
    obtain ⟨link, ts, hunbusy, -⟩ :=
      filesetUnbusy_returns h₂.inv (h₂.mem_entries (.head _)) (some true) 0
    refine ⟨_, .tail (.tail (.single hpicked) hlaunch)
      (.finish e true _ _ (.head _) hunbusy), rfl, ?_, rfl⟩
    exact (List.erase_cons_head ..).trans hflying

/-- The loop comes to its end with any choice of the entries that it passes over, when no
allocation fails. -/
theorem preallocRun_ends (hty : ty ≠ .dir) (hstart : PreallocStart ty fs₀) (skip : Entry → Bool)
    (hrun : PreallocRun ty reusing fs₀ s) (hphase : s.phase = .next) (hflying : s.flying = []) :
    ∃ s', Relation.ReflTransGen (PreallocStep ty reusing) s s' ∧ s'.phase = .finished ∧
      s'.flying = [] ∧ ∀ e fate, (e, fate) ∈ s'.settled → (e, fate) ∈ s.settled ∨
        fate = if skip e then none else some true := by
  have hlength : ∀ {s}, PreallocRun ty reusing fs₀ s → s.known.length ≤ (fs₀.fsList ty).length := by
    intro s hrun
    have h := PreallocInv.run hty hstart hrun
    exact (List.subperm_of_subset h.nodup fun e he => (h.free e he).1).length_le
  -- every pick leaves one entry less that was not picked yet
  induction hn : (fs₀.fsList ty).length - s.known.length using Nat.strong_induction_on
    generalizing s with
  | _ n ih =>
    obtain ⟨res, fs', hpick, hres⟩ := preallocRun_next hty hstart hrun hphase hflying 0
    rcases hres with rfl | ⟨e, rfl, -, -⟩
    · exact ⟨_, .single (.stop 0 .null fs' hphase (.inl rfl) hpick), rfl, hflying,
        fun e fate hmem => .inl hmem⟩
    · obtain ⟨s₁, hrun₁, hphase₁, hflying₁, hsettled₁⟩ :=
        preallocRun_entry hty hstart (skip e) hrun hphase hflying hpick
      have hknown : s₁.known.length = s.known.length + 1 := by
        simp [Prealloc.known, Prealloc.held, hphase, hflying, hphase₁, hflying₁, hsettled₁,
          PreallocPhase.current]
      have hle := hlength (hrun.trans hrun₁)
      obtain ⟨s', hrun', hfinished, hflying', hfates⟩ :=
        ih _ (by omega) (hrun.trans hrun₁) hphase₁ hflying₁ rfl
      refine ⟨s', hrun₁.trans hrun', hfinished, hflying', fun x fate hmem => ?_⟩
      rcases hfates x fate hmem with hold | hnew
      · rw [hsettled₁] at hold
        rcases List.mem_cons.mp hold with heq | hold
        · obtain ⟨rfl, rfl⟩ := Prod.mk.inj heq
          exact .inr rfl
        · exact .inl hold
      · exact .inr hnew

end results

/-- Three files, of which none is passed over. -/
theorem preallocRun_visits_three : ∃ fs₀ s, PreallocRun .file false fs₀ s ∧
    s.phase = .finished ∧ s.fs.TreeHolds .freeFiles [] ∧ s.fs.fsIdle .file = 3 := by
  obtain ⟨fuel, s₀, hpop⟩ := filesetPopulate_const 3 1
  have hpopulated := filesetPopulate_populated hpop
  have hty : FseType.file ≠ .dir := by decide
  have hstart := hpopulated.preallocStart hty
  obtain ⟨s, hrun, hphase, hflying, -⟩ :=
    preallocRun_ends hty hstart (fun _ => false)
      (show PreallocRun .file false s₀.fs (preallocInit s₀.fs) from .refl) rfl rfl
  obtain ⟨hfree, hidle, -, -⟩ := (preallocRun_visits hty hstart hrun).2.2 hphase hflying
  exact ⟨s₀.fs, s, hrun, hphase, hfree, hidle.trans (by rw [hpopulated.files]; rfl)⟩

end Filebench
