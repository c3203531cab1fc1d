import Filebench.Ipc.Strings
import Mathlib.Data.List.GetD

/-! # Strings read back

A string is copied without its null. It has one behind it as long as the memory there was never
written, which is no longer so for paths when all of them were freed. -/
namespace Filebench.IpcStrings

/-- The string lies at the offset and a null behind it. -/
structure StrMemory.Reads (m : StrMemory) (p : ℕ) (string : CString) : Prop where
  chars : ∀ i (h : i < string.length), m.mem (p + i) = string[i]
  ends : m.mem (p + string.length) = nul

/-- The calls since `ipc_init` with all of the memory zeroed. -/
abbrev ZeroRun (memsize : ℕ) : List (StringShm × StrEvent) → StringShm → Prop :=
  Trace.Run (strNext memsize) fun shm => shm = noStrings

/-- Strings are never freed, and paths all at once. -/
def LiveAfter (kind : StrKind) (later : List (StringShm × StrEvent)) : Prop :=
  kind = .filesetpaths → ∀ x ∈ later, x.2 ≠ .freepaths

/-- What was returned and not freed reads back, and no two of these lie in each other. -/
structure ReadsBack (memsize : ℕ) (trace : List (StringShm × StrEvent)) (shm : StringShm) :
    Prop where
  reads : ∀ later before kind string earlier p,
    trace = later ++ (before, .alloc kind string) :: earlier → LiveAfter kind later →
    (ipcAlloc memsize kind before string).1 = some p → (shm kind).Reads p string
  apart : ∀ later before kind string middle before' string' earlier p p',
    trace = later ++ (before, .alloc kind string) ::
      (middle ++ (before', .alloc kind string') :: earlier) →
    LiveAfter kind (later ++ (before, .alloc kind string) :: middle) →
    (ipcAlloc memsize kind before string).1 = some p →
    (ipcAlloc memsize kind before' string').1 = some p' → p' + (string'.length + 1) ≤ p

/-- A string was copied over the cell at some time. The last event comes first. -/
def written (memsize : ℕ) (kind : StrKind) : List StrEvent → ℕ → Prop
  | [], _ => False
  | .alloc kind' string :: events, i =>
    (kind' = kind ∧ used kind events + (string.length + 1) ≤ kind.size memsize ∧
      used kind events ≤ i ∧ i < used kind events + string.length) ∨ written memsize kind events i
  | .freepaths :: events, i => written memsize kind events i

/-- No path that fits and was not freed ends where an earlier one had a character. -/
def EndsClean (memsize : ℕ) (events : List StrEvent) : Prop :=
  ∀ later string earlier, events = later ++ .alloc .filesetpaths string :: earlier →
    (∀ e ∈ later, e ≠ .freepaths) →
    used .filesetpaths earlier + (string.length + 1) ≤ StrKind.size memsize .filesetpaths →
    ¬ written memsize .filesetpaths earlier (used .filesetpaths earlier + string.length)

/-- No C string has a null in it. -/
def NulFree (events : List StrEvent) : Prop :=
  ∀ kind string, .alloc kind string ∈ events → nul ∉ string

section cells

variable {memsize : ℕ} {shm shm' before after : StringShm} {kind : StrKind} {string : CString}
  {trace later earlier : List (StringShm × StrEvent)} {event : StrEvent} {events : List StrEvent}
  {p i : ℕ}

theorem NulFree.upTo {x : StringShm × StrEvent}
    (h : NulFree ((later ++ x :: earlier).map Prod.snd)) : NulFree (earlier.map Prod.snd) := by
  intro kind string hmem
  refine h kind string ?_
  rw [List.map_append, List.map_cons]
  exact List.mem_append_right _ (.tail _ hmem)

theorem ZeroRun.run (h : ZeroRun memsize trace shm) : StrRun memsize trace shm := by
  induction h with
  | start hstart =>
    subst hstart
    exact .start fun _ => rfl
  | step _ hnext ih => exact ih.step hnext

/-- A string that fits is copied to the first free cell. -/
theorem ipcAlloc_some_iff : (ipcAlloc memsize kind shm string).1 = some p ↔
    (shm kind).ptr = p ∧ (shm kind).ptr + (string.length + 1) ≤ kind.size memsize := by
  rw [ipcAlloc_eq]
  change ((shm kind).alloc (kind.size memsize) string).1 = some p ↔ _
  rcases Nat.lt_or_ge (kind.size memsize) ((shm kind).ptr + (string.length + 1)) with h | h
  · rw [StrMemory.alloc_full _ h]
    exact iff_of_false nofun fun hfits => absurd hfits.2 (Nat.not_le.mpr h)
  · rw [StrMemory.alloc_fits _ h, Option.some.injEq]
    exact (and_iff_left h).symm

theorem ipcAlloc_mem : ((ipcAlloc memsize kind shm string).2 kind).mem =
    if (shm kind).ptr + (string.length + 1) ≤ kind.size memsize then
      strncpy (shm kind).mem (shm kind).ptr string
    else (shm kind).mem := by
  rw [ipcAlloc_self]
  split
  next h => rw [StrMemory.alloc_fits _ h]
  next h => rw [StrMemory.alloc_full _ (Nat.not_le.mp h)]

theorem strncpy_nul_iff {mem : ℕ → Char} {dst : ℕ} (h : nul ∉ string) :
    strncpy mem dst string i = nul ↔ ¬ (dst ≤ i ∧ i < dst + string.length) ∧ mem i = nul := by
  by_cases hin : dst ≤ i ∧ i < dst + string.length
  · obtain ⟨j, rfl⟩ := Nat.exists_eq_add_of_le hin.1
    have hj : j < string.length := by omega
    rw [strncpy_self mem dst hj]
    refine iff_of_false (fun heq => h ?_) fun hnot => hnot.1 hin
    rw [← heq]
    exact List.getElem_mem hj
  · have hmem : strncpy mem dst string i = mem i := by
      rw [strncpy]
      split
      next hle =>
        have hlen : string.length ≤ i - dst := by omega
        rw [List.getD_eq_default _ _ hlen]
      next => rfl
    rw [hmem]
    exact (and_iff_right hin).symm

/-- Nothing ever writes a null. -/
theorem cell_nul_iff (h : ZeroRun memsize trace shm) (hfree : NulFree (trace.map Prod.snd)) :
    (shm kind).mem i = nul ↔ ¬ written memsize kind (trace.map Prod.snd) i := by
  induction h with
  | start hstart =>
    subst hstart
    exact iff_of_true rfl id
  | @step trace shm shm' event hrun hnext ih =>
    have hcell := ih fun kind string hmem => hfree kind string (.tail _ hmem)
    have hptr := strRun_ptr (ZeroRun.run hrun) kind
    cases event with
    | alloc kind' string =>
      obtain rfl := Option.some.inj hnext
      rw [List.map_cons, written]
      by_cases hkind : kind' = kind
      · obtain rfl := hkind
        have hnul : nul ∉ string := hfree kind' string (.head _)
        rw [ipcAlloc_mem, ← hptr]
        split
        next hfits =>
          rw [strncpy_nul_iff hnul, hcell, not_or]
          simp only [hfits, true_and]
        next hfull =>
          rw [hcell, not_or]
          exact (and_iff_right fun hin => hfull hin.2.1).symm
      · rw [ipcAlloc_of_ne hkind, hcell, not_or]
        exact (and_iff_right fun hin => hkind hin.1).symm
    | freepaths =>
      obtain rfl := Option.some.inj hnext
      have hmem : ((ipcFreepaths shm) kind).mem = (shm kind).mem := by
        rw [ipcFreepaths]
        by_cases hkind : kind = .filesetpaths
        · obtain rfl := hkind
          rw [Function.update_self]
        · rw [Function.update_of_ne hkind]
      rw [hmem, hcell]
      rfl

/-- Strings are written below the pointer only. -/
theorem written_strings (h : written memsize .strings events i) : i < used .strings events := by
  induction events with
  | nil => exact h.elim
  | cons event events ih =>
    cases event with
    | alloc kind string =>
      rw [used]
      rcases h with ⟨rfl, -, -, hlt⟩ | h
      · rw [if_pos rfl]
        omega
      · have hlt := ih h
        split <;> omega
    | freepaths =>
      rw [used, if_neg (by decide)]
      exact ih h

theorem strNext_below (hnext : strNext memsize shm event = some shm')
    (hlive : kind = .filesetpaths → event ≠ .freepaths) (hi : i < (shm kind).ptr) :
    (shm' kind).mem i = (shm kind).mem i ∧ i < (shm' kind).ptr := by
  cases event with
  | alloc kind' string =>
    obtain rfl := Option.some.inj hnext
    by_cases hkind : kind' = kind
    · obtain rfl := hkind
      rw [ipcAlloc_mem, ipcAlloc_ptr]
      refine ⟨?_, by omega⟩
      split
      next => exact strncpy_below _ hi
      next => rfl
    · rw [ipcAlloc_of_ne hkind]
      exact ⟨rfl, hi⟩
  | freepaths =>
    obtain rfl := Option.some.inj hnext
    have hkind : kind ≠ .filesetpaths := fun hkind => hlive hkind rfl
    rw [ipcFreepaths, Function.update_of_ne hkind]
    exact ⟨rfl, hi⟩

/-- What is not free any more is not written again. -/
theorem strRun_below (h : ZeroRun memsize (later ++ (before, event) :: earlier) shm)
    (hafter : strNext memsize before event = some after) (hlive : LiveAfter kind later)
    (hi : i < (after kind).ptr) :
    (shm kind).mem i = (after kind).mem i ∧ i < (shm kind).ptr := by
  induction later generalizing shm with
  | nil =>
    cases h with
    | step _ hnext =>
      obtain rfl := Option.some.inj (hafter.symm.trans hnext)
      exact ⟨rfl, hi⟩
  | cons x later ih =>
    cases h with
    | step h hnext =>
      obtain ⟨hmem, hlt⟩ := ih h fun hkind y hy => hlive hkind y (.tail _ hy)
      obtain ⟨hmem', hlt'⟩ := strNext_below hnext (fun hkind => hlive hkind _ (.head _)) hlt
      exact ⟨hmem'.trans hmem, hlt'⟩

/-- A string has its null exactly if nothing was ever written there before. -/
theorem ends_iff (h : ZeroRun memsize (later ++ (before, .alloc kind string) :: earlier) shm)
    (hfree : NulFree (earlier.map Prod.snd)) (hlive : LiveAfter kind later)
    (hsome : (ipcAlloc memsize kind before string).1 = some p) :
    (shm kind).mem (p + string.length) = nul ↔
      ¬ written memsize kind (earlier.map Prod.snd) (p + string.length) := by
  obtain ⟨rfl, hfits⟩ := ipcAlloc_some_iff.mp hsome
  have hbelow := strRun_below h rfl hlive (i := (before kind).ptr + string.length) (by
    rw [ipcAlloc_ptr]
    omega)
  have hcell : ((ipcAlloc memsize kind before string).2 kind).mem
      ((before kind).ptr + string.length) =
        (before kind).mem ((before kind).ptr + string.length) := by
    rw [ipcAlloc_mem, if_pos hfits, strncpy, if_pos (Nat.le_add_right ..),
      Nat.add_sub_cancel_left, List.getD_eq_default _ _ le_rfl]
  rw [hbelow.1, hcell]
  exact cell_nul_iff h.before hfree

/-- From zeroed memory every string reads back. The paths do exactly if none of them ends where a
path that was freed had a character. -/
theorem strRun_reads_iff (h : ZeroRun memsize trace shm) (hfree : NulFree (trace.map Prod.snd)) :
    ReadsBack memsize trace shm ↔ EndsClean memsize (trace.map Prod.snd) := by
  constructor
  · intro hreads later string earlier hevents hlive hfits
    obtain ⟨l, rest, rfl, rfl, hrest⟩ := List.map_eq_append_iff.mp hevents
    obtain ⟨x, e, rfl, hx, rfl⟩ := List.map_eq_cons_iff.mp hrest
    obtain ⟨before, event⟩ := x
    obtain rfl : event = .alloc .filesetpaths string := hx
    have hptr := strRun_ptr h.run.before .filesetpaths
    have hlive' : LiveAfter .filesetpaths l :=
      fun _ x hx => hlive x.2 (List.mem_map_of_mem hx)
    have hsome : (ipcAlloc memsize .filesetpaths before string).1 =
        some (before .filesetpaths).ptr :=
      ipcAlloc_some_iff.mpr ⟨rfl, by rw [hptr]; exact hfits⟩
    rw [← hptr]
    exact (ends_iff h hfree.upTo hlive' hsome).mp
      (hreads.reads l before .filesetpaths string e _ rfl hlive' hsome).ends
  · intro hclean
    constructor
    · intro later before kind string earlier p htrace hlive hsome
      subst htrace
      refine ⟨(strRun_keeps h.run hsome hlive).chars, (ends_iff h hfree.upTo hlive hsome).mpr ?_⟩
      obtain ⟨rfl, hfits⟩ := ipcAlloc_some_iff.mp hsome
      have hptr := strRun_ptr h.run.before kind
      rw [hptr] at hfits ⊢
      cases kind with
      | strings =>
        intro hwritten
        have hlt := written_strings hwritten
        omega
      | filesetpaths =>
        refine hclean (later.map Prod.snd) string (earlier.map Prod.snd) ?_ ?_ hfits
        · rw [List.map_append, List.map_cons]
        · intro e he
          obtain ⟨x, hx, rfl⟩ := List.mem_map.mp he
          exact hlive rfl x hx
    · intro later before kind string middle before' string' earlier p p' htrace hlive hsome hsome'
      subst htrace
      obtain ⟨rfl, -⟩ := ipcAlloc_some_iff.mp hsome
      have hbefore : ZeroRun memsize _ before := h.before
      refine (strRun_keeps hbefore.run hsome' fun hkind x hx => ?_).taken
      exact hlive hkind x (List.mem_append_right _ (.tail _ hx))

end cells

/-- A path, and another one after all were freed. -/
def recycled (first second : CString) : List (StringShm × StrEvent) :=
  [(ipcFreepaths (ipcPathalloc 1 noStrings first).2, .alloc .filesetpaths second),
    ((ipcPathalloc 1 noStrings first).2, .freepaths), (noStrings, .alloc .filesetpaths first)]

def recycledShm (first second : CString) : StringShm :=
  (ipcPathalloc 1 (ipcFreepaths (ipcPathalloc 1 noStrings first).2) second).2

theorem recycledRun (first second : CString) :
    ZeroRun 1 (recycled first second) (recycledShm first second) :=
  .step (.step (.step (.start rfl) rfl) rfl) rfl

/-- The second path is the longer one. -/
theorem strRun_reads_longer :
    ReadsBack 1 (recycled ['a'] ['b', 'c']) (recycledShm ['a'] ['b', 'c']) := by
  refine (strRun_reads_iff (recycledRun ['a'] ['b', 'c']) ?_).mpr ?_
  · intro kind string hmem
    simp only [recycled, List.map_cons, List.map_nil, List.mem_cons, StrEvent.alloc.injEq,
      reduceCtorEq, List.not_mem_nil, or_false, false_or] at hmem
    rcases hmem with ⟨-, rfl⟩ | ⟨-, rfl⟩
    · decide
    · decide
  · intro later string earlier hsplit hlive _
    cases later with
    | nil =>
      obtain ⟨hfirst, rfl⟩ := List.cons.inj hsplit
      obtain ⟨-, rfl⟩ := StrEvent.alloc.inj hfirst
      rintro (⟨-, -, -, hlt⟩ | hnone)
      · exact absurd hlt (by decide)
      · exact hnone
    | cons e later =>
      obtain ⟨-, hrest⟩ := List.cons.inj hsplit
      cases later with
      | nil => exact absurd (List.cons.inj hrest).1 StrEvent.noConfusion
      | cons e' later =>
        obtain ⟨rfl, -⟩ := List.cons.inj hrest
        exact absurd rfl (hlive _ (.tail _ (.head _)))

/-- The path "a" on the memory of "bc" reads back as "ac". -/
theorem strRun_reads_stale : ZeroRun 1 (recycled ['b', 'c'] ['a']) (recycledShm ['b', 'c'] ['a']) ∧
    (recycledShm ['b', 'c'] ['a'] .filesetpaths).mem 0 = 'a' ∧
    (recycledShm ['b', 'c'] ['a'] .filesetpaths).mem 1 = 'c' ∧
    ¬ ReadsBack 1 (recycled ['b', 'c'] ['a']) (recycledShm ['b', 'c'] ['a']) := by
  refine ⟨recycledRun _ _, rfl, rfl, fun hreads => ?_⟩
  have hends := (hreads.reads [] _ .filesetpaths ['a'] _ 0 rfl
    (fun _ x hx => absurd hx List.not_mem_nil) rfl).ends
  exact absurd hends (by decide)

end Filebench.IpcStrings
