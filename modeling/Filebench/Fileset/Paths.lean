import Filebench.Fileset.PopulateTotal

/-! # Paths of entries

The path of an entry is that of its parent with its own serial number appended. Siblings get
distinct numbers from one of the two loops of a directory, but both loops count from one: the
paths are distinct exactly when files or leaf directories are absent. -/
namespace Filebench

open Fuel

/-- The loop over the parents. -/
def filesetResolvepathLoop (maxpathlen : ℕ) (fs : Fileset) :
    ℕ → Entry → CString → Option CString
  | 0, _, _ => none
  | fuel + 1, fsep, path =>
    match (fs.fse fsep).fseParent with
    | none => some path
    | some parent => do
      let pathtmp := fbStrlcat ['/'] (← (fs.fse fsep).fsePath) maxpathlen
      let pathtmp := fbStrlcat pathtmp path maxpathlen
      filesetResolvepathLoop maxpathlen fs fuel parent (fbStrlcpy pathtmp maxpathlen)

def filesetResolvepath (maxpathlen fuel : ℕ) (fs : Fileset) (entry : Entry) : Option CString := do
  let path ← filesetResolvepathLoop maxpathlen fs fuel entry []
  some (fbStrlcpy path maxpathlen)

/-- The path of an entry below the fileset, of any length. -/
inductive FullPath (fs : Fileset) : Entry → CString → Prop where
  | root {e : Entry} (hp : (fs.fse e).fseParent = none) : FullPath fs e []
  | child {e p : Entry} {q name : CString} (hp : (fs.fse e).fseParent = some p)
      (hname : (fs.fse e).fsePath = some name) (hq : FullPath fs p q) :
      FullPath fs e (q ++ '/' :: name)

theorem filesetResolvepathLoop_returns {maxpathlen : ℕ} {fs : Fileset} {e : Entry} {q : CString}
    (h : FullPath fs e q) (path : CString) (hlen : (q ++ path).length < maxpathlen) :
    Returns (fun fuel => filesetResolvepathLoop maxpathlen fs fuel e path) (q ++ path) := by
  induction h generalizing path with
  | root hp => exact .of_succ (returns_of_const fun fuel => by simp [filesetResolvepathLoop, hp])
  | @child e p q name hp hname hq ih =>
    refine .of_succ ?_
    simp only [List.length_append, List.length_cons] at hlen
    have h₁ : fbStrlcat ['/'] name maxpathlen = '/' :: name :=
      List.take_of_length_le (by simp; omega)
    have h₂ : fbStrlcat ('/' :: name) path maxpathlen = '/' :: (name ++ path) :=
      List.take_of_length_le (by simp; omega)
    have h₃ : fbStrlcpy ('/' :: (name ++ path)) maxpathlen = '/' :: (name ++ path) :=
      List.take_of_length_le (by simp; omega)
    simp only [filesetResolvepathLoop, hp, hname, Option.bind_eq_bind, Option.bind_some, h₁, h₂, h₃]
    simpa using ih ('/' :: (name ++ path)) (by simp; omega)

theorem filesetResolvepath_returns {maxpathlen : ℕ} {fs : Fileset} {e : Entry} {q : CString}
    (h : FullPath fs e q) (hlen : q.length < maxpathlen) :
    Returns (fun fuel => filesetResolvepath maxpathlen fuel fs e) q := by
  have hloop := filesetResolvepathLoop_returns h [] (by simpa using hlen)
  rw [List.append_nil] at hloop
  refine hloop.bind (g := fun _ path => some (fbStrlcpy path maxpathlen))
    (returns_of_const fun _ => ?_)
  rw [fbStrlcpy, List.take_of_length_le (by omega)]

/-! ## Names -/

theorem fmt08d_injective : Function.Injective fmt08d := by
  intro m n h
  have hval : ∀ n, Nat.ofDigitChars 10 (fmt08d n) 0 = n := fun n => by
    rw [fmt08d, Nat.ofDigitChars_append, Nat.ofDigitChars_replicate_zero, Nat.mul_zero,
      Nat.ofDigitChars_ten_toDigits]
  rw [← hval m, h, hval]

theorem slash_notMem_fmt08d (n : ℕ) : '/' ∉ fmt08d n := by
  intro h
  rcases List.mem_append.mp h with h | h
  · exact absurd (List.eq_of_mem_replicate h) (by decide)
  · exact absurd (Nat.isDigit_of_mem_toDigits (by decide) (by decide) h) (by decide)

/-- A path determines its last name. -/
theorem append_slash_inj {q q' : CString} {m n : ℕ}
    (h : q ++ '/' :: fmt08d m = q' ++ '/' :: fmt08d n) : q = q' ∧ m = n := by
  -- a longer prefix would put a slash into a name
  have hprefix : ∀ {c : CString} {i j : ℕ}, '/' :: fmt08d i = c ++ '/' :: fmt08d j → c = [] := by
    intro c i j hc
    cases c with
    | nil => rfl
    | cons x c =>
      have hmem : '/' ∈ fmt08d i := by simp [(List.cons.inj hc).2]
      exact absurd hmem (slash_notMem_fmt08d i)
  rcases List.append_eq_append_iff.mp h with ⟨c, rfl, hc⟩ | ⟨c, rfl, hc⟩
  · obtain rfl := hprefix hc
    exact ⟨by simp, fmt08d_injective (List.cons.inj hc).2⟩
  · obtain rfl := hprefix hc
    exact ⟨by simp, fmt08d_injective (List.cons.inj hc).2.symm⟩

/-! ## Distinct paths -/

/-- No two entries of one directory have the same name. -/
def Distinct (fs : Fileset) : Prop :=
  ∀ e ∈ fs.entries, ∀ e' ∈ fs.entries, (fs.fse e).fseParent = (fs.fse e').fseParent →
    (fs.fse e).fsePath = (fs.fse e').fsePath → e = e'

/-- Every entry has a serial number for a name, and all but the root are in a directory. -/
structure Named (s : Shm) : Prop where
  serial : ∀ e ∈ s.fs.entries, ∃ n, (s.fs.fse e).fsePath = some (fmt08d n)
  parent : ∀ e ∈ s.fs.entries, ∀ p, (s.fs.fse e).fseParent = some p → p ∈ s.fs.entries ∧ p < e

theorem Adds.serial {s s' : Shm} (h : Adds s s') (hI : PopInv s)
    (hs : ∀ e ∈ s.fs.entries, ∃ n, (s.fs.fse e).fsePath = some (fmt08d n)) :
    ∀ e ∈ s'.fs.entries, ∃ n, (s'.fs.fse e).fsePath = some (fmt08d n) := by
  induction h with
  | refl => exact hs
  | tail hrun hstep ih =>
    obtain ⟨ty, parent, serial, hadd, -⟩ := hstep
    obtain ⟨size, hnew, -⟩ := hadd.new
    intro e he
    rcases hadd.mem_entries.mp he with rfl | he
    · exact ⟨serial, by rw [hnew]⟩
    · rw [hadd.old e ((hI.adds hrun).entries_ne he)]
      exact ih e he

theorem Named.fullPath {s : Shm} (hN : Named s) (e : Entry) (he : e ∈ s.fs.entries) :
    ∃ q, FullPath s.fs e q := by
  induction e using Nat.strong_induction_on with
  | _ e ih =>
    cases hp : (s.fs.fse e).fseParent with
    | none => exact ⟨[], .root hp⟩
    | some p =>
      obtain ⟨hpe, hlt⟩ := hN.parent e he p hp
      obtain ⟨q, hq⟩ := ih p hlt hpe
      obtain ⟨n, hn⟩ := hN.serial e he
      exact ⟨_, .child hp hn hq⟩

theorem FullPath.inj {s : Shm} (hN : Named s) (hD : Distinct s.fs)
    (hroot : ∀ e ∈ s.fs.entries, ∀ e' ∈ s.fs.entries, (s.fs.fse e).fseParent = none →
      (s.fs.fse e').fseParent = none → e = e') {e e' : Entry} {q : CString}
    (h : FullPath s.fs e q) (h' : FullPath s.fs e' q) (he : e ∈ s.fs.entries)
    (he' : e' ∈ s.fs.entries) : e = e' := by
  induction h generalizing e' with
  | root hp =>
    generalize hq : ([] : CString) = q' at h'
    cases h' with
    | root hp' => exact hroot _ he _ he' hp hp'
    | child => simp at hq
  | @child e p q name hp hname hq ih =>
    generalize hq' : q ++ '/' :: name = q' at h'
    cases h' with
    | root hp' => simp at hq'
    | @child _ p' q' name' hp' hname' h' =>
      obtain ⟨n, hn⟩ := hN.serial e he
      obtain ⟨n', hn'⟩ := hN.serial e' he'
      obtain rfl := Option.some.inj (hname.symm.trans hn)
      obtain rfl := Option.some.inj (hname'.symm.trans hn')
      obtain ⟨rfl, rfl⟩ := append_slash_inj hq'
      obtain rfl := ih h' (hN.parent e he p hp).1 (hN.parent e' he' p' hp').1
      exact hD e he e' he' (hp.trans hp'.symm) (hn.trans hn'.symm)

/-! ## One kind of members -/

section siblings

variable {s s' : Shm} {parent : Option Entry} {serial : ℕ}

theorem Added.distinct (hI : PopInv s) {ty : FseType} (hadd : Added s s' ty parent serial)
    (hD : Distinct s.fs)
    (hfresh : ∀ x ∈ s.fs.entries, (s.fs.fse x).fseParent = parent →
      (s.fs.fse x).fsePath ≠ some (fmt08d serial)) : Distinct s'.fs := by
  obtain ⟨size, hnew, -⟩ := hadd.new
  have hold : ∀ x ∈ s.fs.entries, s'.fs.fse x = s.fs.fse x := fun x hx =>
    hadd.old x (hI.entries_ne hx)
  intro e he e' he' hpar hpath
  rcases hadd.mem_entries.mp he with rfl | he <;> rcases hadd.mem_entries.mp he' with rfl | he'
  · rfl
  · rw [hnew, hold e' he'] at hpar hpath
    exact absurd hpath.symm (hfresh e' he' hpar.symm)
  · rw [hnew, hold e he] at hpar hpath
    exact absurd hpath (hfresh e he hpar)
  · rw [hold e he, hold e' he'] at hpar hpath
    exact hD e he e' he' hpar hpath

/-- The entries that a call adds: one with the given name in the given directory, and the rest
in directories that are new themselves. -/
def AddsBelow (s s' : Shm) (parent : Option Entry) (serial : ℕ) : Prop :=
  ∀ x ∈ s'.fs.entries, x ∈ s.fs.entries ∨
    ((s'.fs.fse x).fseParent = parent ∧ (s'.fs.fse x).fsePath = some (fmt08d serial) ∧
      s.requests < x) ∨
    ∃ p, (s'.fs.fse x).fseParent = some p ∧ s.requests < p

theorem Added.addsBelow {ty : FseType} (hadd : Added s s' ty parent serial) :
    AddsBelow s s' parent serial := by
  obtain ⟨size, hnew, -⟩ := hadd.new
  intro x hx
  rcases hadd.mem_entries.mp hx with rfl | hx
  · exact .inr (.inl ⟨by rw [hnew], by rw [hnew], Nat.lt_succ_self _⟩)
  · exact .inl hx

/-- The invariant of a loop over the members of `entry` that started in `s`: so far only numbers
below `i` were given. -/
structure Numbered (s : Shm) (entry : Entry) (i : ℕ) (u : Shm) : Prop where
  run : Adds s u
  distinct : Distinct u.fs
  below : ∀ x ∈ u.fs.entries, x ∈ s.fs.entries ∨
    ∃ p, (u.fs.fse x).fseParent = some p ∧ entry ≤ p
  numbers : ∀ x ∈ u.fs.entries, (u.fs.fse x).fseParent = some entry →
    ∃ j, j < i ∧ (u.fs.fse x).fsePath = some (fmt08d j)

theorem Numbered.fresh {entry : Entry} {i : ℕ} {u : Shm} (h : Numbered s entry i u) :
    ∀ x ∈ u.fs.entries, (u.fs.fse x).fseParent = some entry →
      (u.fs.fse x).fsePath ≠ some (fmt08d i) := by
  intro x hx hp hpath
  obtain ⟨j, hj, hpath'⟩ := h.numbers x hx hp
  have := fmt08d_injective (Option.some.inj (hpath'.symm.trans hpath))
  omega

theorem Numbered.step {entry : Entry} {i : ℕ} {u u' : Shm} (hI : PopInv s)
    (hentry : entry ∈ s.fs.fsList .dir) (h : Numbered s entry i u) (hrun : Adds u u')
    (hD : Distinct u'.fs) (hbelow : AddsBelow u u' (some entry) i) :
    Numbered s entry (i + 1) u' := by
  have hIu := hI.adds h.run
  have hle : entry ≤ u.requests :=
    (hI.le_requests (Fileset.mem_entries.mpr ⟨_, hentry⟩)).trans (Adds.requests_le h.run)
  refine ⟨h.run.trans hrun, hD, fun x hx => ?_, fun x hx hp => ?_⟩
  · rcases hbelow x hx with hx | ⟨hp, -⟩ | ⟨p, hp, hlt⟩
    · rw [Adds.old hrun (hIu.le_requests hx)]
      exact h.below x hx
    · exact .inr ⟨entry, hp, le_rfl⟩
    · exact .inr ⟨p, hp, hle.trans hlt.le⟩
  · rcases hbelow x hx with hx | ⟨-, hpath, -⟩ | ⟨p, hp', hlt⟩
    · rw [Adds.old hrun (hIu.le_requests hx)] at hp ⊢
      obtain ⟨j, hj, hpath⟩ := h.numbers x hx hp
      exact ⟨j, hj.trans (Nat.lt_succ_self i), hpath⟩
    · exact ⟨i, Nat.lt_succ_self i, hpath⟩
    · obtain rfl := Option.some.inj (hp.symm.trans hp')
      exact absurd hle (Nat.not_le_of_lt hlt)

/-- A fileset with files only, or with leaf directories only. -/
def OneKind (s : Shm) : Prop := s.fs.fsConstentries = 0 ∨ s.fs.fsConstleafdirs = 0

theorem Adds.oneKind (h : Adds s s') (hk : OneKind s) : OneKind s' := by
  rw [OneKind, h.consts.1, h.consts.2]
  exact hk

/-- What a call for a subdirectory does for the names. -/
def SubdirDistinct (smp : Samples) (fuel : ℕ) : Prop :=
  ∀ {s s' : Shm} {parent : Option Entry} {serial depth : ℕ},
    filesetPopulateSubdir smp fuel s parent serial depth = some (.ok, s') → PopInv s →
    (∀ p, parent = some p → p ∈ s.fs.fsList .dir) → OneKind s → Distinct s.fs →
    (∀ x ∈ s.fs.entries, (s.fs.fse x).fseParent = parent →
      (s.fs.fse x).fsePath ≠ some (fmt08d serial)) →
    Distinct s'.fs ∧ AddsBelow s s' parent serial

/-- The two loops of a directory, one of which ends at once. -/
theorem loops_distinct {smp : Samples} {fuel k depth : ℕ} {entry : Entry} {s₂ : Shm}
    (hsub : SubdirDistinct smp fuel) (hI : PopInv s) (hentry : entry ∈ s.fs.fsList .dir)
    (hk : OneKind s) (hD : Distinct s.fs)
    (hnone : ∀ x ∈ s.fs.entries, (s.fs.fse x).fseParent ≠ some entry)
    (hfiles : fileLoop smp fuel parent k depth entry s = some (.ok, s₂))
    (hleaf : leafdirLoop smp fuel parent k depth entry s₂ = some (.ok, s')) :
    ∃ i, Numbered s entry i s' := by
  have hstart : Numbered s entry 1 s :=
    ⟨.refl, hD, fun x hx => .inl hx, fun x hx hp => absurd hp (hnone x hx)⟩
  have hmem : ∀ {u : Shm}, Adds s u → ∀ p, some entry = some p → p ∈ u.fs.fsList .dir := by
    rintro u hu p ⟨⟩
    exact hu.list_mono hentry
  have hsubdir : ∀ {i : ℕ} {u u' : Shm}, Numbered s entry i u →
      filesetPopulateSubdir smp fuel u (some entry) i depth = some (.ok, u') →
      Numbered s entry (i + 1) u' := by
    intro i u u' hu hb
    obtain ⟨hD', hbelow⟩ := hsub hb (hI.adds hu.run) (hmem hu.run) (hu.run.oneKind hk) hu.distinct
      hu.fresh
    exact hu.step hI hentry (Adds.subdir (filesetPopulateSubdir_adds smp fuel) .refl
      (hu.run.list_mono hentry) hb) hD' hbelow
  have hadded : ∀ {i : ℕ} {u u' : Shm} {ty : FseType}, Numbered s entry i u →
      Added u u' ty (some entry) i → (ty = .file → u.fs.fsRealfiles < u.fs.fsConstentries) →
      (ty = .leafdir → u.fs.fsRealleafdirs < u.fs.fsConstleafdirs) →
      Numbered s entry (i + 1) u' := by
    intro i u u' ty hu hadd hf hl
    exact hu.step hI hentry (.single ⟨_, _, _, hadd, hmem hu.run, hf, hl⟩)
      (hadd.distinct (hI.adds hu.run) hu.distinct hu.fresh) hadd.addsBelow
  rcases hk with hk | hk
  · -- no files: the first loop ends at once
    obtain rfl : s₂ = s := by
      cases fuel with
      | zero => cases hfiles
      | succ fuel =>
        rw [fileLoop, forLoop, hk, decide_eq_false (Nat.not_lt_zero _), Bool.and_false,
          if_neg (by decide)] at hfiles
        exact (Prod.mk.inj (Option.some.inj hfiles)).2.symm
    obtain ⟨i, -, hnum, -⟩ := forLoop_ok (P := Numbered s₂ entry) (fun i u u' hu hc hb => by
      simp only [Bool.and_eq_true, decide_eq_true_eq] at hc
      split_ifs at hb with hl
      · exact hadded hu (filesetPopulateLeafdir_ok hb) (by simp) fun _ => hc.2
      · exact hsubdir hu hb) hleaf hstart
    exact ⟨i, hnum⟩
  · obtain ⟨i, -, hnum, -⟩ := forLoop_ok (P := Numbered s entry) (fun i u u' hu hc hb => by
      simp only [Bool.and_eq_true, decide_eq_true_eq] at hc
      split_ifs at hb with hl
      · exact hadded hu (filesetPopulateFile_ok hb) (fun _ => hc.2) (by simp)
      · exact hsubdir hu hb) hfiles hstart
    -- no leaf directories: the second loop ends at once
    obtain rfl : s' = s₂ := by
      cases fuel with
      | zero => cases hleaf
      | succ fuel =>
        rw [leafdirLoop, forLoop, hnum.run.consts.2, hk, decide_eq_false (Nat.not_lt_zero _),
          Bool.and_false, if_neg (by decide)] at hleaf
        exact (Prod.mk.inj (Option.some.inj hleaf)).2.symm
    exact ⟨i, hnum⟩

theorem filesetPopulateSubdir_distinct (smp : Samples) (fuel : ℕ) : SubdirDistinct smp fuel := by
  induction fuel with
  | zero => intro _ _ _ _ _ h; cases h
  | succ fuel ih =>
    intro s s' parent serial depth h hI hparent hk hD hfresh
    obtain ⟨n, s₁, s₂, hn, hadd, hfiles, hleaf⟩ := filesetPopulateSubdir_ok h
    obtain rfl : fuel = n := by omega
    have hadds : Adds s s₁ := .single ⟨_, _, _, hadd, hparent, by simp, by simp⟩
    have hI₁ := hI.adds hadds
    have hnone : ∀ x ∈ s₁.fs.entries, (s₁.fs.fse x).fseParent ≠ some (s.requests + 1) := by
      intro x hx hp
      have hlt := (hI₁.parent x hx _ hp).2
      rcases hadd.mem_entries.mp hx with rfl | hx
      · exact lt_irrefl _ hlt
      · exact absurd (hI.le_requests hx) (Nat.not_le_of_lt ((Nat.lt_succ_self _).trans hlt))
    obtain ⟨i, hnum⟩ := loops_distinct ih hI₁ hadd.entry_mem (hadds.oneKind hk)
      (hadd.distinct hI hD hfresh) hnone hfiles hleaf
    refine ⟨hnum.distinct, fun x hx => ?_⟩
    rcases hnum.below x hx with hx | ⟨p, hp, hle⟩
    · rw [Adds.old hnum.run (hI₁.le_requests hx)]
      exact hadd.addsBelow x hx
    · exact .inr (.inr ⟨p, hp, hle⟩)

end siblings

/-! ## Files and leaf directories -/

/-- Two entries of one directory with the same name. -/
def Clash (fs : Fileset) : Prop :=
  ∃ e ∈ fs.entries, ∃ e' ∈ fs.entries, e ≠ e' ∧ (fs.fse e).fseParent = (fs.fse e').fseParent ∧
    (fs.fse e).fsePath = (fs.fse e').fsePath

theorem Clash.mono {s s' : Shm} (hI : PopInv s) (h : Clash s.fs) (hrun : Adds s s') :
    Clash s'.fs := by
  obtain ⟨e, he, e', he', hne, hp, hq⟩ := h
  refine ⟨e, hrun.entries_mono he, e', hrun.entries_mono he', hne, ?_⟩
  rw [Adds.old hrun (hI.le_requests he), Adds.old hrun (hI.le_requests he')]
  exact ⟨hp, hq⟩

/-- No file and no leaf directory yet, or already a clash. -/
def EmptyOrClash (s : Shm) : Prop :=
  (s.fs.fsRealfiles = 0 ∧ s.fs.fsRealleafdirs = 0) ∨ Clash s.fs

section clash

variable {smp : Samples} {fuel k depth : ℕ} {s s' : Shm} {parent : Option Entry} {entry : Entry}

/-- The two loops of a directory that takes files: each starts with the name of number one. -/
theorem leafLoops_clash {s₂ : Shm} (hI : PopInv s) (hentry : entry ∈ s.fs.fsList .dir)
    (hE : 0 < s.fs.fsConstentries) (hL : 0 < s.fs.fsConstleafdirs)
    (hl : smp.isleaf parent k depth = true) (hadm : smp.admits parent k 1 = true)
    (hreal : s.fs.fsRealfiles = 0) (hrealleaf : s.fs.fsRealleafdirs = 0)
    (hfiles : fileLoop smp fuel parent k depth entry s = some (.ok, s₂))
    (hleaf : leafdirLoop smp fuel parent k depth entry s₂ = some (.ok, s')) : Clash s'.fs := by
  have hmem : ∀ {u : Shm}, Adds s u → ∀ p, some entry = some p → p ∈ u.fs.fsList .dir := by
    rintro u hu p ⟨⟩
    exact hu.list_mono hentry
  obtain ⟨i, -, ⟨hrun, hzero, hfirst⟩, hend⟩ := forLoop_ok (P := fun i u => Adds s u ∧
      u.fs.fsRealleafdirs = 0 ∧ (i = 1 ∧ u = s ∨ ∃ x ∈ u.fs.entries,
        (u.fs.fse x).fseParent = some entry ∧ (u.fs.fse x).fsePath = some (fmt08d 1)))
    (fun i u u' hu hc hb => by
      obtain ⟨hrun, hzero, hu⟩ := hu
      simp only [Bool.and_eq_true, decide_eq_true_eq] at hc
      rw [if_pos hl] at hb
      have hadd := filesetPopulateFile_ok hb
      have hstep : Adds u u' := .single ⟨_, _, _, hadd, hmem hrun, fun _ => hc.2, by simp⟩
      refine ⟨hrun.trans hstep, by simp [hadd.realleafdirs, hzero], .inr ?_⟩
      rcases hu with ⟨rfl, -⟩ | ⟨x, hx, hp, hq⟩
      · obtain ⟨size, hnew, -⟩ := hadd.new
        exact ⟨_, hadd.mem_entries.mpr (.inl rfl), by rw [hnew], by rw [hnew]⟩
      · refine ⟨x, hadd.mem_entries.mpr (.inr hx), ?_⟩
        rw [hadd.old x ((hI.adds hrun).entries_ne hx)]
        exact ⟨hp, hq⟩) hfiles ⟨.refl, hrealleaf, .inl ⟨rfl, rfl⟩⟩
  have hfile : ∃ x ∈ s₂.fs.entries, (s₂.fs.fse x).fseParent = some entry ∧
      (s₂.fs.fse x).fsePath = some (fmt08d 1) := by
    rcases hfirst with ⟨rfl, rfl⟩ | hx
    · simp [hadm, hreal] at hend
      omega
    · exact hx
  have hI₂ := hI.adds hrun
  obtain ⟨i, -, hfirst, hend₂⟩ := forLoop_ok (P := fun i u => i = 1 ∧ u = s₂ ∨ PopInv u ∧
      Adds s u ∧ Clash u.fs)
    (fun i u u' hu hc hb => by
      simp only [Bool.and_eq_true, decide_eq_true_eq] at hc
      rw [if_pos hl] at hb
      have hadd := filesetPopulateLeafdir_ok hb
      rcases hu with ⟨rfl, rfl⟩ | ⟨hIu, hrun, hclash⟩
      · have hstep : Adds u u' := .single ⟨_, _, _, hadd, hmem hrun, by simp, fun _ => hc.2⟩
        refine .inr ⟨hI₂.adds hstep, hrun.trans hstep, ?_⟩
        obtain ⟨x, hx, hp, hq⟩ := hfile
        obtain ⟨size, hnew, -⟩ := hadd.new
        refine ⟨x, hadd.mem_entries.mpr (.inr hx), _, hadd.mem_entries.mpr (.inl rfl),
          hI₂.entries_ne hx, ?_⟩
        rw [hadd.old x (hI₂.entries_ne hx), hnew]
        exact ⟨hp, hq⟩
      · have hstep : Adds u u' := .single ⟨_, _, _, hadd, hmem hrun, by simp, fun _ => hc.2⟩
        exact .inr ⟨hIu.adds hstep, hrun.trans hstep, hclash.mono hIu hstep⟩) hleaf (.inl ⟨rfl, rfl⟩)
  rcases hfirst with ⟨rfl, rfl⟩ | ⟨-, -, hclash⟩
  · simp [hadm, hzero, hrun.consts.2] at hend₂
    omega
  · exact hclash

/-- What a call for a subdirectory keeps when both kinds are asked for. -/
def SubdirClash (smp : Samples) (fuel : ℕ) : Prop :=
  ∀ {s s' : Shm} {parent : Option Entry} {serial depth : ℕ},
    filesetPopulateSubdir smp fuel s parent serial depth = some (.ok, s') → PopInv s →
    (∀ p, parent = some p → p ∈ s.fs.fsList .dir) → 0 < s.fs.fsConstentries →
    0 < s.fs.fsConstleafdirs → EmptyOrClash s → EmptyOrClash s'

theorem loops_emptyOrClash {s₂ : Shm} (hsub : SubdirClash smp fuel) (hI : PopInv s)
    (hentry : entry ∈ s.fs.fsList .dir) (hE : 0 < s.fs.fsConstentries)
    (hL : 0 < s.fs.fsConstleafdirs) (h : EmptyOrClash s)
    (hfiles : fileLoop smp fuel parent k depth entry s = some (.ok, s₂))
    (hleaf : leafdirLoop smp fuel parent k depth entry s₂ = some (.ok, s')) : EmptyOrClash s' := by
  have hadds := fileLoop_adds (filesetPopulateSubdir_adds smp fuel) hentry hfiles
  have hadds₂ := leafdirLoop_adds (filesetPopulateSubdir_adds smp fuel) (hadds.list_mono hentry) hleaf
  rcases h with ⟨hreal, hrealleaf⟩ | hclash
  swap
  · exact .inr (hclash.mono hI (hadds.trans hadds₂))
  cases hl : smp.isleaf parent k depth with
  | false =>
    -- only subdirectories
    have hsubdir : ∀ {i : ℕ} {u u' : Shm}, Adds s u ∧ EmptyOrClash u →
        filesetPopulateSubdir smp fuel u (some entry) i depth = some (.ok, u') →
        Adds s u' ∧ EmptyOrClash u' := by
      rintro i u u' ⟨hrun, hu⟩ hb
      have hmem : ∀ p, some entry = some p → p ∈ u.fs.fsList .dir := by
        rintro p ⟨⟩
        exact hrun.list_mono hentry
      refine ⟨hrun.trans (Adds.subdir (filesetPopulateSubdir_adds smp fuel) .refl
        (hrun.list_mono hentry) hb), hsub hb (hI.adds hrun) hmem ?_ ?_ hu⟩
      · rwa [hrun.consts.1]
      · rwa [hrun.consts.2]
    obtain ⟨-, -, hu₂, -⟩ := forLoop_ok (P := fun _ u => Adds s u ∧ EmptyOrClash u)
      (fun i u u' hu _ hb => by
        rw [hl] at hb
        exact hsubdir hu hb) hfiles ⟨.refl, .inl ⟨hreal, hrealleaf⟩⟩
    obtain ⟨-, -, hu', -⟩ := forLoop_ok (P := fun _ u => Adds s u ∧ EmptyOrClash u)
      (fun i u u' hu _ hb => by
        rw [hl] at hb
        exact hsubdir hu hb) hleaf hu₂
    exact hu'.2
  | true =>
    cases hadm : smp.admits parent k 1 with
    | true => exact .inr (leafLoops_clash hI hentry hE hL hl hadm hreal hrealleaf hfiles hleaf)
    | false =>
      cases fuel with
      | zero => cases hfiles
      | succ fuel =>
        rw [fileLoop, forLoop, hadm, Bool.false_and, if_neg (by decide)] at hfiles
        rw [leafdirLoop, forLoop, hadm, Bool.false_and, if_neg (by decide)] at hleaf
        obtain ⟨-, rfl⟩ := Prod.mk.inj (Option.some.inj hfiles)
        obtain ⟨-, rfl⟩ := Prod.mk.inj (Option.some.inj hleaf)
        exact .inl ⟨hreal, hrealleaf⟩

theorem filesetPopulateSubdir_clash (smp : Samples) (fuel : ℕ) : SubdirClash smp fuel := by
  induction fuel with
  | zero => intro _ _ _ _ _ h; cases h
  | succ fuel ih =>
    intro s s' parent serial depth h hI hparent hE hL hs
    obtain ⟨n, s₁, s₂, hn, hadd, hfiles, hleaf⟩ := filesetPopulateSubdir_ok h
    obtain rfl : fuel = n := by omega
    have hadds : Adds s s₁ := .single ⟨_, _, _, hadd, hparent, by simp, by simp⟩
    refine loops_emptyOrClash ih (hI.adds hadds) hadd.entry_mem (hadd.entries ▸ hE)
      (hadd.leafdirs ▸ hL) ?_ hfiles hleaf
    rcases hs with ⟨hreal, hrealleaf⟩ | hclash
    · exact .inl ⟨by simp [hadd.realfiles, hreal], by simp [hadd.realleafdirs, hrealleaf]⟩
    · exact .inr (hclash.mono hI hadds)

end clash

/-! ## All paths of a populated fileset -/

section resolve

variable {smp : Samples} {fuel n E L : ℕ} {s : Shm}

theorem filesetPopulate_named (hpop : filesetPopulate smp fuel (newShm n) E L = some (.ok, s)) :
    Named s where
  serial := (filesetPopulate_adds hpop).serial (emptyShm_popInv n E L) fun e he => by
    simp [Fileset.entries, emptyShm, resetFileset, Fileset.zero] at he
  parent e he p hp := by
    obtain ⟨hdir, hlt⟩ := (filesetPopulate_populated hpop).inv.parent e he p hp
    exact ⟨Fileset.mem_entries.mpr ⟨_, hdir⟩, hlt⟩

theorem emptyShm_entries (n E L : ℕ) (e : Entry) : e ∉ (emptyShm n E L).fs.entries := by
  simp [Fileset.entries, emptyShm, resetFileset, Fileset.zero]

theorem filesetPopulate_distinct (hpop : filesetPopulate smp fuel (newShm n) E L = some (.ok, s))
    (hk : E = 0 ∨ L = 0) : Distinct s.fs ∧
      ∀ e ∈ s.fs.entries, ∀ e' ∈ s.fs.entries, (s.fs.fse e).fseParent = none →
        (s.fs.fse e').fseParent = none → e = e' := by
  rw [filesetPopulate_new] at hpop
  obtain ⟨hD, hbelow⟩ := filesetPopulateSubdir_distinct smp fuel hpop (emptyShm_popInv n E L)
    (by simp) hk (fun e he => absurd he (emptyShm_entries n E L e))
    fun e he => absurd he (emptyShm_entries n E L e)
  refine ⟨hD, fun e he e' he' hp hp' => hD e he e' he' (hp.trans hp'.symm) ?_⟩
  have hroot : ∀ x ∈ s.fs.entries, (s.fs.fse x).fseParent = none →
      (s.fs.fse x).fsePath = some (fmt08d 1) := by
    intro x hx hpx
    rcases hbelow x hx with hx | ⟨-, hq, -⟩ | ⟨p, hp, -⟩
    · exact absurd hx (emptyShm_entries n E L x)
    · exact hq
    · rw [hpx] at hp
      cases hp
  rw [hroot e he hp, hroot e' he' hp']

theorem filesetPopulate_clash (hpop : filesetPopulate smp fuel (newShm n) E L = some (.ok, s))
    (hE : 0 < E) (hL : 0 < L) : Clash s.fs := by
  have hP := filesetPopulate_populated hpop
  rw [filesetPopulate_new] at hpop
  rcases filesetPopulateSubdir_clash smp fuel hpop (emptyShm_popInv n E L) (by simp) hE hL
    (.inl ⟨rfl, rfl⟩) with ⟨hreal, -⟩ | hclash
  · rw [hP.inv.realfiles, hP.files] at hreal
    omega
  · exact hclash

theorem Clash.fullPath {s : Shm} (hN : Named s) (h : Clash s.fs) : ∃ e ∈ s.fs.entries,
    ∃ e' ∈ s.fs.entries, e ≠ e' ∧ ∃ q, FullPath s.fs e q ∧ FullPath s.fs e' q := by
  obtain ⟨e, he, e', he', hne, hp, hq⟩ := h
  refine ⟨e, he, e', he', hne, ?_⟩
  cases hpe : (s.fs.fse e).fseParent with
  | none => exact ⟨[], .root hpe, .root (hp.symm.trans hpe)⟩
  | some p =>
    obtain ⟨q, hqp⟩ := hN.fullPath p (hN.parent e he p hpe).1
    obtain ⟨m, hm⟩ := hN.serial e he
    exact ⟨_, .child hpe hm hqp, .child (hp.symm.trans hpe) (hq.symm.trans hm) hqp⟩

/-- The resolved paths of a populated fileset are distinct exactly when it was asked for files
only or for leaf directories only. -/
theorem filesetResolvepath_injective
    (hpop : filesetPopulate smp fuel (newShm n) E L = some (.ok, s)) (maxpathlen : ℕ)
    (hshort : ∀ e ∈ s.fs.entries, ∀ q, FullPath s.fs e q → q.length < maxpathlen) :
    ∃ path : Entry → CString,
      (∀ e ∈ s.fs.entries,
        Returns (fun fuel => filesetResolvepath maxpathlen fuel s.fs e) (path e)) ∧
      ((∀ e ∈ s.fs.entries, ∀ e' ∈ s.fs.entries, path e = path e' → e = e') ↔ E = 0 ∨ L = 0) := by
  have hN := filesetPopulate_named hpop
  choose! path hpath using hN.fullPath
  have hret : ∀ e ∈ s.fs.entries,
      Returns (fun fuel => filesetResolvepath maxpathlen fuel s.fs e) (path e) := fun e he =>
    filesetResolvepath_returns (hpath e he) (hshort e he _ (hpath e he))
  refine ⟨path, hret, fun hinj => ?_, fun hk e he e' he' heq => ?_⟩
  · by_contra hk
    obtain ⟨hE, hL⟩ := not_or.mp hk
    obtain ⟨e, he, e', he', hne, q, hq, hq'⟩ := (filesetPopulate_clash hpop
      (Nat.pos_of_ne_zero hE) (Nat.pos_of_ne_zero hL)).fullPath hN
    refine hne (hinj e he e' he' ?_)
    rw [(hret e he).unique (filesetResolvepath_returns hq (hshort e he q hq)),
      (hret e' he').unique (filesetResolvepath_returns hq' (hshort e' he' q hq'))]
  · obtain ⟨hD, hroot⟩ := filesetPopulate_distinct hpop hk
    exact (heq ▸ hpath e he).inj hN hD hroot (hpath e' he') he he'

end resolve

theorem FullPath.unique {fs : Fileset} {e : Entry} {q q' : CString} (h : FullPath fs e q)
    (h' : FullPath fs e q') : q = q' := by
  induction h generalizing q' with
  | root hp =>
    cases h' with
    | root => rfl
    | child hp' => rw [hp] at hp'; cases hp'
  | child hp hname _ ih =>
    cases h' with
    | root hp' => rw [hp] at hp'; cases hp'
    | child hp' hname' h' =>
      obtain rfl := Option.some.inj (hp.symm.trans hp')
      obtain rfl := Option.some.inj (hname.symm.trans hname')
      rw [ih h']

/-- The paths of finitely many entries are bounded. -/
theorem exists_maxpathlen (fs : Fileset) :
    ∃ m, ∀ e ∈ fs.entries, ∀ q, FullPath fs e q → q.length < m := by
  suffices h : ∀ l : List Entry, ∃ m, ∀ e ∈ l, ∀ q, FullPath fs e q → q.length < m from h _
  intro l
  induction l with
  | nil => exact ⟨0, by simp⟩
  | cons e l ih =>
    obtain ⟨m, hm⟩ := ih
    by_cases hq : ∃ q, FullPath fs e q
    · obtain ⟨q, hq⟩ := hq
      refine ⟨max m (q.length + 1), fun x hx q' hq' => ?_⟩
      rcases List.mem_cons.mp hx with rfl | hx
      · rw [hq'.unique hq]
        omega
      · have := hm x hx q' hq'
        omega
    · refine ⟨m, fun x hx q' hq' => ?_⟩
      rcases List.mem_cons.mp hx with rfl | hx
      · exact absurd ⟨q', hq'⟩ hq
      · exact hm x hx q' hq'

theorem filesetResolvepath_injective_three : ∃ (s : Shm) (maxpathlen : ℕ) (path : Entry → CString),
    (∀ e ∈ s.fs.entries,
      Returns (fun fuel => filesetResolvepath maxpathlen fuel s.fs e) (path e)) ∧
    ((∀ e ∈ s.fs.entries, ∀ e' ∈ s.fs.entries, path e = path e' → e = e') ↔ 3 = 0 ∨ 0 = 0) := by
  obtain ⟨fuel, s, hpop⟩ := filesetPopulate_const 3 0
  obtain ⟨m, hm⟩ := exists_maxpathlen s.fs
  exact ⟨s, m, filesetResolvepath_injective hpop m hm⟩

/-- One file and one leaf directory of the same name. -/
theorem filesetResolvepath_clash : ∃ fuel s maxpathlen,
    filesetPopulate (.const 2 2 100) fuel (newShm 0) 1 1 = some (.ok, s) ∧
    (∀ e ∈ s.fs.entries, ∀ q, FullPath s.fs e q → q.length < maxpathlen) ∧
    ∃ e ∈ s.fs.entries, ∃ e' ∈ s.fs.entries, e ≠ e' ∧ ∃ q,
      Returns (fun fuel => filesetResolvepath maxpathlen fuel s.fs e) q ∧
      Returns (fun fuel => filesetResolvepath maxpathlen fuel s.fs e') q := by
  obtain ⟨fuel, s, hpop⟩ := filesetPopulate_const 1 1
  obtain ⟨m, hm⟩ := exists_maxpathlen s.fs
  obtain ⟨e, he, e', he', hne, q, hq, hq'⟩ := (filesetPopulate_clash hpop Nat.one_pos
    Nat.one_pos).fullPath (filesetPopulate_named hpop)
  exact ⟨fuel, s, m, hpop, hm, e, he, e', he', hne, q,
    filesetResolvepath_returns hq (hm e he q hq), filesetResolvepath_returns hq' (hm e' he' q hq')⟩

end Filebench
