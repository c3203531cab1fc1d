import Filebench.Fileset.Invariant
import Filebench.Lib.Circular

/-! # What a pick selects

On a fileset whose trees hold sorted lists, a pick selects the first entry that is not busy, in
circular order from the index it asks for. Nothing but rotors, an idle count and a busy bit
changes. -/
namespace Filebench

open Avl Fuel Circular

/-- The end of a pick that looks for an idle entry from index `k` on. -/
def pickFinish (fs : Fileset) (l : List Entry) (ty : FseType) (k : ℕ) : PickResult × Fileset :=
  match (circular fs.key k l).find? fun e => !(fs.flags e).busy with
  | none => (.null, fs)
  | some e => (.entry e, (fs.addIdle ty (-1)).setFlags e fun f => { f with busy := true })

/-- The pick on the sorted list `l` that its tree holds. -/
def pickView (fs : Fileset) (l : List Entry) (flags : PickFlags) (tid : ℕ) (index : ℤ)
    (random : ℕ) : Option (PickResult × Fileset) :=
  if fs.fsList flags.type = [] then some (.null, fs)
  else if fs.fsIdle flags.type = 0 then some (.wait, fs)
  else if l = [] then some (.null, fs)
  else if flags.unique then
    if index ≠ 0 then some (pickFinish fs l flags.type (toUint index))
    else
      match filebenchRandomno64 random (maxEntries fs flags.type) 1 with
      | none => some (.nullLocked, fs)
      | some index64 => some (pickFinish fs l flags.type (toUint index64))
  else if flags.byindex then some (pickFinish fs l flags.type (toUint index))
  else
    (pickRotor fs flags tid).bind fun r =>
      (circular fs.key r l).head?.map fun e =>
        pickFinish (setPickRotor fs flags tid (toUint (fs.key e + 1))) l flags.type r

/-- The five rotors of a fileset. -/
structure Rotors where
  fileExrotor : ℕ → ℕ
  fileNerotor : ℕ
  dirrotor : ℕ
  leafdirExrotor : ℕ
  leafdirNerotor : ℕ

/-- Two filesets that differ in their rotors only. -/
def Fileset.withRotors (fs : Fileset) (r : Rotors) : Fileset :=
  { fs with
    fsFileExrotor := r.fileExrotor
    fsFileNerotor := r.fileNerotor
    fsDirrotor := r.dirrotor
    fsLeafdirExrotor := r.leafdirExrotor
    fsLeafdirNerotor := r.leafdirNerotor }

theorem setPickRotor_eq (fs : Fileset) (flags : PickFlags) (tid r : ℕ) :
    ∃ s, setPickRotor fs flags tid r = fs.withRotors s := by
  unfold setPickRotor
  split
  · split_ifs
    · exact ⟨⟨_, _, _, _, _⟩, rfl⟩
    · exact ⟨⟨_, _, _, _, _⟩, rfl⟩
  · exact ⟨⟨_, _, _, _, _⟩, rfl⟩
  · split_ifs
    · exact ⟨⟨_, _, _, _, _⟩, rfl⟩
    · exact ⟨⟨_, _, _, _, _⟩, rfl⟩

section search

variable {fs : Fileset} {t : FsTree} {l : List Entry}

theorem filesetFindEntry_holds (hl : fs.TreeHolds t l) (k : ℕ) {fuel : ℕ}
    (hfuel : l.length < fuel) :
    filesetFindEntry fuel fs t k = some (circular fs.key k l).head? := by
  obtain ⟨r, hrun, hr⟩ := hl.find k hfuel
  rw [head?_circular]
  simp only [filesetFindEntry, hrun, Option.bind_eq_bind, Option.bind_some]
  cases r with
  | found a =>
    obtain ⟨ha, rfl⟩ := hr
    obtain ⟨l₁, l₂, rfl⟩ := List.append_of_mem ha
    have hlt : ∀ x ∈ l₁, fs.key x < fs.key a := fun x hx =>
      (List.pairwise_append.mp hl.sorted).2.2 x hx a (by simp)
    rw [List.find?_append, List.find?_eq_none.mpr fun x hx => by simpa using hlt x hx]
    simp
  | missing p d =>
    obtain ⟨hne, hnear⟩ := hr
    have hfind : (l.find? fun x => decide (k ≤ fs.key x)) =
        l.find? fun x => decide (k < fs.key x) :=
      List.find?_congr fun x hx => by simp [le_iff_lt_or_eq, Ne.symm (hne x hx)]
    rw [hfind]
    simp only [hnear, Option.bind_some]
    cases l.find? fun x => decide (k < fs.key x) with
    | none => simpa using hl.first hfuel
    | some e => rfl

/-- One step of the search goes to the next entry in circular order. -/
theorem pickNext_holds (hl : fs.TreeHolds t l) {a b : List Entry} (hab : a ++ b = l) {walk : ℕ}
    (hwalk : l.length < walk) {pre post : List Entry} {y : Entry}
    (hsplit : b ++ a = pre ++ y :: post) :
    filesetPickNext walk fs t y = some (post ++ pre ++ [y]).head? := by
  obtain ⟨l₁, l₂, hl₂, hnext⟩ := rotate_next hsplit
  rw [hab] at hl₂ hnext
  rw [filesetPickNext, hl.next hl₂ hwalk, ← hnext]
  cases l₂ with
  | nil => simpa using hl.first hwalk
  | cons x l₂ => rfl

/-- The search for an idle entry. The induction is on what is left of the circular order. -/
theorem filesetPickLoop_holds (hl : fs.TreeHolds t l) {a b : List Entry} (hab : a ++ b = l)
    {walk : ℕ} (hwalk : l.length < walk) {start : Entry} (hstart : (b ++ a).head? = some start)
    (pre : List Entry) {post : List Entry} {y : Entry} (hsplit : b ++ a = pre ++ y :: post) {fuel : ℕ}
    (hfuel : post.length < fuel) :
    filesetPickLoop walk fs t start fuel y =
      some ((y :: post).find? fun e => !(fs.flags e).busy) := by
  induction post generalizing pre y fuel with
  | nil =>
    obtain ⟨fuel, rfl⟩ := Nat.exists_eq_succ_of_ne_zero (by omega : fuel ≠ 0)
    have hnext := pickNext_holds hl hab hwalk hsplit
    have hhead : ([] ++ pre ++ [y]).head? = some start := by simpa [← hsplit] using hstart
    rw [hhead] at hnext
    simp only [filesetPickLoop]
    split_ifs with hbusy
    · simp only [hnext, Option.bind_eq_bind, Option.bind_some, if_true]
      simp [hbusy]
    · simp [hbusy]
  | cons z post ih =>
    obtain ⟨fuel, rfl⟩ := Nat.exists_eq_succ_of_ne_zero (by omega : fuel ≠ 0)
    have hnext := pickNext_holds hl hab hwalk hsplit
    have hz : z ≠ start := by
      rintro rfl
      have hn : (b ++ a).Nodup := (List.perm_append_comm.nodup_iff.mp (hab ▸ hl.nodup))
      rw [hsplit] at hn hstart
      cases pre with
      | nil =>
        obtain rfl : y = z := by simpa using hstart
        simp at hn
      | cons x pre =>
        obtain rfl : x = z := by simpa using hstart
        simp at hn
    simp only [filesetPickLoop]
    split_ifs with hbusy
    · simp only [hnext, Option.bind_eq_bind, Option.bind_some, List.cons_append, List.head?_cons,
        if_neg hz]
      rw [ih (pre ++ [y]) (by simpa using hsplit) (by simpa using hfuel)]
      simp [hbusy]
    · simp [hbusy]

theorem filesetPickFrom_holds (hl : fs.TreeHolds t l) (ty : FseType) (k : ℕ) {fuel : ℕ}
    (hfuel : l.length < fuel) :
    filesetPickFrom fuel fs ty t (circular fs.key k l).head? = some (pickFinish fs l ty k) := by
  have hlen := (circular_perm fs.key k l).length_eq
  cases hc : circular fs.key k l with
  | nil => simp [filesetPickFrom, pickFinish, hc]
  | cons start post =>
    have hloop := filesetPickLoop_holds hl List.takeWhile_append_dropWhile hfuel
      (congrArg List.head? hc) [] hc (show post.length < fuel by
        rw [hc, List.length_cons] at hlen
        omega)
    simp only [filesetPickFrom, List.head?_cons, hloop, Option.bind_eq_bind, Option.bind_some,
      pickFinish, hc]
    cases (start :: post).find? fun e => !(fs.flags e).busy <;> rfl

/-- The pick of the code refines the pick on sorted lists. -/
theorem filesetPick_holds {flags : PickFlags} (hl : fs.TreeHolds (pickTree flags) l) (tid : ℕ)
    (index : ℤ) (random : ℕ) {fuel : ℕ} (hfuel : l.length < fuel) :
    filesetPick fuel fs flags tid index random = pickView fs l flags tid index random := by
  have hempty : avlIsEmpty (fs.fsTree (pickTree flags)) = true ↔ l = [] := by
    rw [hl.isEmpty, List.isEmpty_iff]
  simp only [filesetPick, pickView, hempty, filesetFindEntry_holds hl _ hfuel, Option.bind_eq_bind,
    Option.bind_some, filesetPickFrom_holds hl _ _ hfuel]
  split_ifs with h₁ h₂ h₃ h₄ h₅ h₆
  · rfl
  · rfl
  · rfl
  · rfl
  · rfl
  · rfl
  · cases hr : pickRotor fs flags tid with
    | none => rfl
    | some r =>
      simp only [Option.bind_some]
      cases hc : (circular fs.key r l).head? with
      | none => rfl
      | some e =>
        obtain ⟨s, hs⟩ := setPickRotor_eq fs flags tid (toUint (fs.key e + 1))
        have hfrom := filesetPickFrom_holds (show (setPickRotor fs flags tid
          (toUint (fs.key e + 1))).TreeHolds (pickTree flags) l by rw [hs]; exact hl) flags.type r hfuel
        rw [show (setPickRotor fs flags tid (toUint (fs.key e + 1))).key = fs.key by rw [hs]; rfl,
          hc] at hfrom
        simpa using hfrom

end search

/-! ## What a pick can do -/

/-- Every outcome of a pick, with what it says of the fileset and what it changes. -/
inductive PickEffect (fs : Fileset) (flags : PickFlags) : PickResult → Fileset → Prop where
  | wait (hlist : fs.fsList flags.type ≠ []) (hidle : fs.fsIdle flags.type = 0) :
      PickEffect fs flags .wait fs
  | null (s : Rotors) (hnull : fs.fsList flags.type = [] ∨ fs.fsIdle flags.type ≠ 0 ∧
      ∀ e ∈ fs.entries, homeTree (fs.flags e) = pickTree flags → (fs.flags e).busy = true) :
      PickEffect fs flags .null (fs.withRotors s)
  | nullLocked (hidle : fs.fsIdle flags.type ≠ 0) (hunique : flags.unique = true)
      (hmax : maxEntries fs flags.type = 0) : PickEffect fs flags .nullLocked fs
  | entry (s : Rotors) (e : Entry) (hidle : fs.fsIdle flags.type ≠ 0) (he : e ∈ fs.entries)
      (hhome : homeTree (fs.flags e) = pickTree flags) (hbusy : (fs.flags e).busy = false) :
      PickEffect fs flags (.entry e) (((fs.withRotors s).addIdle flags.type (-1)).setFlags e
        fun f => { f with busy := true })

theorem randomno64_error {random max : ℕ} (h : filebenchRandomno64 random max 1 = none) :
    max = 0 := by
  simp only [filebenchRandomno64] at h
  split_ifs at h
  omega

/-- The rotors of a fileset. -/
def Fileset.rotors (fs : Fileset) : Rotors :=
  ⟨fs.fsFileExrotor, fs.fsFileNerotor, fs.fsDirrotor, fs.fsLeafdirExrotor, fs.fsLeafdirNerotor⟩

theorem pickFinish_effect {fs : Fileset} {flags : PickFlags} {l : List Entry} {k : ℕ} {s : Rotors}
    {res : PickResult} {fs' : Fileset}
    (hmem : ∀ e, e ∈ l ↔ e ∈ fs.entries ∧ homeTree (fs.flags e) = pickTree flags)
    (hidle : fs.fsIdle flags.type ≠ 0)
    (h : pickFinish (fs.withRotors s) l flags.type k = (res, fs')) : PickEffect fs flags res fs' := by
  have hflags : (fs.withRotors s).flags = fs.flags := rfl
  simp only [pickFinish, hflags] at h
  cases hf : (circular (fs.withRotors s).key k l).find? fun e => !(fs.flags e).busy with
  | none =>
    rw [hf] at h
    obtain ⟨rfl, rfl⟩ := Prod.mk.inj h
    refine .null s (.inr ⟨hidle, fun e he hhome => ?_⟩)
    simpa using List.find?_eq_none.mp hf e (mem_circular.mpr ((hmem e).mpr ⟨he, hhome⟩))
  | some e =>
    rw [hf] at h
    obtain ⟨rfl, rfl⟩ := Prod.mk.inj h
    obtain ⟨he, hhome⟩ := (hmem e).mp (mem_circular.mp (List.mem_of_find?_eq_some hf))
    exact .entry s e hidle he hhome (by simpa using List.find?_some hf)

/-- The inversion of a pick. -/
theorem filesetPick_effect {fs fs' : Fileset} (hI : FsInv fs) {flags : PickFlags} {tid : ℕ}
    {index : ℤ} {random : ℕ} {res : PickResult}
    (hret : Returns (fun fuel => filesetPick fuel fs flags tid index random) (res, fs')) :
    PickEffect fs flags res fs' := by
  obtain ⟨l, hl, hmem⟩ := hI.held (pickTree flags)
  obtain ⟨N, hN⟩ := hret
  have h := (filesetPick_holds hl tid index random (le_max_right N (l.length + 1))).symm.trans
    (hN _ (le_max_left ..))
  have hself : fs = fs.withRotors fs.rotors := rfl
  unfold pickView at h
  split_ifs at h with h₁ h₂ h₃ h₄ h₅ h₆
  · obtain ⟨rfl, rfl⟩ := Prod.mk.inj (Option.some.inj h)
    exact .null fs.rotors (.inl h₁)
  · obtain ⟨rfl, rfl⟩ := Prod.mk.inj (Option.some.inj h)
    exact .wait h₁ h₂
  · obtain ⟨rfl, rfl⟩ := Prod.mk.inj (Option.some.inj h)
    refine .null fs.rotors (.inr ⟨h₂, fun e he hhome => ?_⟩)
    have := (hmem e).mpr ⟨he, hhome⟩
    simp [h₃] at this
  · exact pickFinish_effect (s := fs.rotors) hmem h₂ (Option.some.inj h)
  · cases hr : filebenchRandomno64 random (maxEntries fs flags.type) 1 with
    | none =>
      rw [hr] at h
      obtain ⟨rfl, rfl⟩ := Prod.mk.inj (Option.some.inj h)
      exact .nullLocked h₂ h₄ (randomno64_error hr)
    | some index64 =>
      rw [hr] at h
      exact pickFinish_effect (s := fs.rotors) hmem h₂ (Option.some.inj h)
  · exact pickFinish_effect (s := fs.rotors) hmem h₂ (Option.some.inj h)
  · obtain ⟨r, -, h⟩ := Option.bind_eq_some_iff.mp h
    obtain ⟨e, -, h⟩ := Option.map_eq_some_iff.mp h
    obtain ⟨s, hs⟩ := setPickRotor_eq fs flags tid (toUint (fs.key e + 1))
    rw [hs] at h
    exact pickFinish_effect hmem h₂ h

/-- A pick with a valid thread id always returns. -/
theorem filesetPick_total {fs : Fileset} (hI : FsInv fs) (flags : PickFlags) {tid : ℕ}
    (htid : tid < fseMaxtid) (index : ℤ) (random : ℕ) :
    ∃ r, Returns (fun fuel => filesetPick fuel fs flags tid index random) r := by
  obtain ⟨l, hl, -⟩ := hI.held (pickTree flags)
  suffices h : ∃ r, pickView fs l flags tid index random = some r by
    obtain ⟨r, hr⟩ := h
    exact ⟨r, l.length + 1, fun fuel hfuel => (filesetPick_holds hl tid index random hfuel).trans hr⟩
  unfold pickView
  split_ifs with h₁ h₂ h₃ h₄ h₅ h₆
  · exact ⟨_, rfl⟩
  · exact ⟨_, rfl⟩
  · exact ⟨_, rfl⟩
  · exact ⟨_, rfl⟩
  · cases filebenchRandomno64 random (maxEntries fs flags.type) 1 <;> exact ⟨_, rfl⟩
  · exact ⟨_, rfl⟩
  · obtain ⟨r, hr⟩ : ∃ r, pickRotor fs flags tid = some r := by
      unfold pickRotor
      split
      · split_ifs <;> exact ⟨_, rfl⟩
      · exact ⟨_, rfl⟩
      · exact ⟨_, rfl⟩
    rw [hr, Option.bind_some]
    cases hc : circular fs.key r l with
    | nil => exact absurd (circular_eq_nil.mp hc) h₃
    | cons e _ => exact ⟨_, rfl⟩

theorem PickEffect.inv {fs fs' : Fileset} {flags : PickFlags} {res : PickResult}
    (h : PickEffect fs flags res fs') (hI : FsInv fs) : FsInv fs' := by
  cases h with
  | wait => exact hI
  | null s => exact hI.of_same rfl rfl rfl rfl fun _ => rfl
  | nullLocked => exact hI
  | entry s e =>
    have hkey : (((fs.withRotors s).addIdle flags.type (-1)).setFlags e
        fun f => { f with busy := true }).key = fs.key := setFlags_key _ e _
    refine hI.of_same rfl rfl rfl hkey fun x => ?_
    rw [setFlags_flags]
    split_ifs with hx
    · rw [hx]; rfl
    · rfl

end Filebench
