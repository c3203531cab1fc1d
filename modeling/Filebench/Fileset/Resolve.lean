import Filebench.Fileset.Paths
import Filebench.Lib.Chars

/-! # Long paths

A path is put together from its last name on, in arrays of a fixed size, and every step may cut off
its end. What is left is the beginning of the whole path. -/
namespace Filebench.Chars

open Fuel

/-- The names from below the root down to the entry. -/
inductive Ancestors (fs : Fileset) : Entry → List CString → Prop where
  | root {e : Entry} (hp : (fs.fse e).fseParent = none) : Ancestors fs e []
  | child {e p : Entry} {names : List CString} {name : CString}
      (hp : (fs.fse e).fseParent = some p) (hname : (fs.fse e).fsePath = some name)
      (hnames : Ancestors fs p names) : Ancestors fs e (names ++ [name])

/-- Every name with a slash in front. -/
def joinNames (names : List CString) : CString := names.flatMap fun name => '/' :: cut name

/-- The loop over the parents, with the arrays `path` and `pathtmp`. -/
def filesetResolvepathLoop (maxpathlen : ℕ) (fs : Fileset) :
    ℕ → Entry → CharArray → CharArray → Option CharArray
  | 0, _, _, _ => none
  | fuel + 1, fsep, path, pathtmp =>
    match (fs.fse fsep).fseParent with
    | none => some path
    | some parent => do
      let name ← (fs.fse fsep).fsePath
      let pathtmp := put (put pathtmp 0 '/') 1 nul
      let pathtmp := fbStrlcat pathtmp (ofString name) maxpathlen
      let pathtmp := fbStrlcat pathtmp path maxpathlen
      filesetResolvepathLoop maxpathlen fs fuel parent (fbStrlcpy path pathtmp maxpathlen) pathtmp

/-- `fileset_resolvepath` in memory: the arrays hold anything before, and `s` is what `malloc`
returns. -/
def filesetResolvepath (maxpathlen fuel : ℕ) (fs : Fileset) (entry : Entry)
    (path pathtmp s : CharArray) : Option CharArray := do
  let path ← filesetResolvepathLoop maxpathlen fs fuel entry (put path 0 nul) pathtmp
  some (fbStrlcpy s path maxpathlen)

theorem joinNames_append (names : List CString) (name : CString) :
    joinNames (names ++ [name]) = joinNames names ++ '/' :: cut name := by
  simp [joinNames]

/-- Cutting the parts of a path first does not change what is left of it. -/
theorem strlcat_take (s t : CString) (n : ℕ) :
    Filebench.fbStrlcat (Filebench.fbStrlcat ['/'] s n) (t.take (n - 1)) n =
      ('/' :: s ++ t).take (n - 1) := by
  simp only [Filebench.fbStrlcat, List.singleton_append]
  rw [List.take_append, List.take_append, List.take_take, List.take_take, min_self]
  congr 2
  rw [List.length_take]
  omega

theorem holds_slash (b : CharArray) : Holds (put (put b 0 '/') 1 nul) ['/'] := by
  have hbegins := (begins_nil b).put_char (c := '/') (by decide)
  exact hbegins.put_nul

/-- What is in `path` stays the cut off path of what has been walked. -/
theorem filesetResolvepathLoop_holds {maxpathlen : ℕ} {fs : Fileset} {e : Entry}
    {names : List CString} (h : Ancestors fs e names) {path : CharArray} (pathtmp : CharArray)
    {q : CString} (hpath : Holds path (q.take (maxpathlen - 1))) :
    ∃ b, Returns (fun fuel => filesetResolvepathLoop maxpathlen fs fuel e path pathtmp) b ∧
      Holds b ((joinNames names ++ q).take (maxpathlen - 1)) := by
  induction h generalizing path pathtmp q with
  | root hp =>
    refine ⟨path, .of_succ (returns_of_const fun fuel => ?_), hpath⟩
    simp [filesetResolvepathLoop, hp]
  | @child e p names name hp hname hnames ih =>
    have hslash := (holds_slash pathtmp).strlcat (holds_ofString name) maxpathlen
    have hjoin := hslash.strlcat hpath maxpathlen
    rw [strlcat_take] at hjoin
    have hcopy := hjoin.strlcpy path maxpathlen
    rw [Filebench.fbStrlcpy, List.take_take, min_self] at hcopy
    obtain ⟨b, hret, hb⟩ := ih _ hcopy
    refine ⟨b, .of_succ ?_, ?_⟩
    · simp only [filesetResolvepathLoop, hp, hname]
      exact hret
    · rw [joinNames_append, List.append_assoc]
      exact hb

theorem ancestors_of_named {s : Shm} (hN : Named s) (e : Entry) (he : e ∈ s.fs.entries) :
    ∃ names, Ancestors s.fs e names := by
  obtain ⟨q, hq⟩ := hN.fullPath e he
  induction hq with
  | root hp => exact ⟨[], .root hp⟩
  | child hp hname _ ih =>
    obtain ⟨names, hnames⟩ := ih (hN.parent _ he _ hp).1
    exact ⟨_, .child hp hname hnames⟩

/-- The path of an entry is the beginning of the whole path that there is room for. -/
theorem filesetResolvepath_truncates {fs : Fileset} {e : Entry} {names : List CString}
    (h : Ancestors fs e names) (maxpathlen : ℕ) (path pathtmp s : CharArray) :
    ∃ b, Returns (fun fuel => filesetResolvepath maxpathlen fuel fs e path pathtmp s) b ∧
      Holds b ((joinNames names).take (maxpathlen - 1)) := by
  have hpath : Holds (put path 0 nul) (([] : CString).take (maxpathlen - 1)) := by
    rw [List.take_nil]
    exact (begins_nil path).put_nul
  obtain ⟨b, hret, hb⟩ := filesetResolvepathLoop_holds h pathtmp hpath
  refine ⟨fbStrlcpy s b maxpathlen, ?_, ?_⟩
  · exact hret.bind (g := fun _ path => some (fbStrlcpy s path maxpathlen))
      (returns_of_const fun _ => rfl)
  · have hcopy := hb.strlcpy s maxpathlen
    rw [Filebench.fbStrlcpy, List.take_take, min_self, List.append_nil] at hcopy
    exact hcopy

/-- The entry `a/bc` below the root, with room for three characters. -/
theorem filesetResolvepath_truncates_four : ∃ b,
    Returns (fun fuel => filesetResolvepath 4 fuel
      { Fileset.zero with fse := fun e =>
        { FilesetEntry.zero with
          fseParent := if e = 1 then none else some (e - 1)
          fsePath := some (if e = 2 then ['a'] else ['b', 'c']) } } 3
      (fun _ => 'x') (fun _ => 'y') (fun _ => 'z')) b ∧
    Holds b ((joinNames [['a'], ['b', 'c']]).take 3) :=
  filesetResolvepath_truncates
    (.child (p := 2) rfl rfl (@Ancestors.child _ 2 1 [] _ rfl rfl (.root rfl))) 4 _ _ _

/-- The loop in memory and the one over strings run side by side. -/
theorem filesetResolvepathLoop_rel {fs : Fileset}
    (hname : ∀ e name, (fs.fse e).fsePath = some name → nul ∉ name) (maxpathlen fuel : ℕ)
    (e : Entry) {path : CharArray} (pathtmp : CharArray) {q : CString} (hpath : Holds path q) :
    Option.Rel Holds (filesetResolvepathLoop maxpathlen fs fuel e path pathtmp)
      (Filebench.filesetResolvepathLoop maxpathlen fs fuel e q) := by
  induction fuel generalizing e path pathtmp q with
  | zero => exact .none
  | succ fuel ih =>
    simp only [filesetResolvepathLoop, Filebench.filesetResolvepathLoop]
    cases hp : (fs.fse e).fseParent with
    | none => exact .some hpath
    | some p =>
      cases hq : (fs.fse e).fsePath with
      | none => exact .none
      | some name =>
        have hstr := holds_ofString name
        rw [cut_eq (hname e name hq)] at hstr
        have hjoin := ((holds_slash pathtmp).strlcat hstr maxpathlen).strlcat hpath maxpathlen
        exact ih p _ (hjoin.strlcpy path maxpathlen)

/-- `Filebench.filesetResolvepath` computes the string that is in memory. -/
theorem filesetResolvepath_rel {fs : Fileset}
    (hname : ∀ e name, (fs.fse e).fsePath = some name → nul ∉ name) (maxpathlen fuel : ℕ)
    (e : Entry) (path pathtmp s : CharArray) :
    Option.Rel Holds (filesetResolvepath maxpathlen fuel fs e path pathtmp s)
      (Filebench.filesetResolvepath maxpathlen fuel fs e) := by
  have hrel := filesetResolvepathLoop_rel hname maxpathlen fuel e pathtmp (begins_nil path).put_nul
  unfold filesetResolvepath Filebench.filesetResolvepath
  revert hrel
  generalize filesetResolvepathLoop maxpathlen fs fuel e _ pathtmp = r
  generalize Filebench.filesetResolvepathLoop maxpathlen fs fuel e [] = r'
  intro hrel
  cases hrel with
  | none => exact .none
  | some h => exact .some (h.strlcpy s maxpathlen)

end Filebench.Chars
