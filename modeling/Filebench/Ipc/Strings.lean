import Filebench.Lib.CString
import Filebench.Lib.Trace

/-! # String memory

Strings lie one behind the other in a memory of their own. The pointer is moved before it is
compared with the end of the memory, and stays behind the end once a string did not fit. -/
namespace Filebench.IpcStrings

/-- A memory and the offset of what is free in it. -/
structure StrMemory where
  mem : ℕ → Char
  ptr : ℕ

/-- Copies all of the string, and no null behind it. -/
def strncpy (mem : ℕ → Char) (dst : ℕ) (src : CString) : ℕ → Char :=
  fun i => if dst ≤ i then src.getD (i - dst) (mem i) else mem i

/-- The body that the two allocators have in common. -/
def StrMemory.alloc (m : StrMemory) (size : ℕ) (string : CString) : Option ℕ × StrMemory :=
  let allocstr := m.ptr
  let m := { m with ptr := m.ptr + (string.length + 1) }
  if m.ptr > size then (none, m)
  else (some allocstr, { m with mem := strncpy m.mem allocstr string })

inductive StrKind where
  | strings | filesetpaths
  deriving DecidableEq

def filebenchStringmemory (memsize : ℕ) : ℕ := memsize * 128

def filebenchFilesetpathmemory : ℕ := 1024 * 1024 * 16

def StrKind.size (memsize : ℕ) : StrKind → ℕ
  | .strings => filebenchStringmemory memsize
  | .filesetpaths => filebenchFilesetpathmemory

abbrev StringShm := StrKind → StrMemory

def allocIn (memsize : ℕ) (kind : StrKind) (shm : StringShm) (string : CString) :
    Option ℕ × StringShm :=
  let (p, m) := (shm kind).alloc (kind.size memsize) string
  (p, Function.update shm kind m)

def ipcStralloc (memsize : ℕ) : StringShm → CString → Option ℕ × StringShm :=
  allocIn memsize .strings

def ipcPathalloc (memsize : ℕ) : StringShm → CString → Option ℕ × StringShm :=
  allocIn memsize .filesetpaths

def ipcFreepaths (shm : StringShm) : StringShm :=
  Function.update shm .filesetpaths { shm .filesetpaths with ptr := 0 }

/-! ## Histories -/

def ipcAlloc (memsize : ℕ) : StrKind → StringShm → CString → Option ℕ × StringShm
  | .strings => ipcStralloc memsize
  | .filesetpaths => ipcPathalloc memsize

inductive StrEvent where
  | alloc (kind : StrKind) (string : CString)
  | freepaths

def strNext (memsize : ℕ) (shm : StringShm) : StrEvent → Option StringShm
  | .alloc kind string => some (ipcAlloc memsize kind shm string).2
  | .freepaths => some (ipcFreepaths shm)

/-- The calls since `ipc_init`. -/
abbrev StrRun (memsize : ℕ) : List (StringShm × StrEvent) → StringShm → Prop :=
  Trace.Run (strNext memsize) fun shm => ∀ kind, (shm kind).ptr = 0

def StringShm.Within (memsize : ℕ) (shm : StringShm) : Prop :=
  ∀ kind, (shm kind).ptr ≤ kind.size memsize

/-- A call that returns null leaves its allocator as it was. -/
structure Harmless (memsize : ℕ) (shm : StringShm) (kind : StrKind) (string : CString) : Prop where
  unchanged : (ipcAlloc memsize kind shm string).2 kind = shm kind
  stillFits : ∀ later, (ipcAlloc memsize kind shm later).1 ≠ none →
    (ipcAlloc memsize kind (ipcAlloc memsize kind shm string).2 later).1 ≠ none

structure Robust (memsize : ℕ) (trace : List (StringShm × StrEvent)) (shm : StringShm) : Prop where
  harmless : ∀ before kind string, (before, .alloc kind string) ∈ trace →
    (ipcAlloc memsize kind before string).1 = none → Harmless memsize before kind string
  within : shm.Within memsize
  withinBefore : ∀ x ∈ trace, x.1.Within memsize

/-- What the strings in a memory take with their nulls, the paths since they were freed. The last
event comes first. -/
def used (kind : StrKind) : List StrEvent → ℕ
  | [] => 0
  | .alloc kind' string :: events =>
    if kind' = kind then used kind events + (string.length + 1) else used kind events
  | .freepaths :: events => if kind = .filesetpaths then 0 else used kind events

section calls

variable {memsize : ℕ} {shm : StringShm} {kind other : StrKind} {string : CString}

theorem ipcAlloc_eq : ipcAlloc memsize kind = allocIn memsize kind := by
  cases kind <;> rfl

theorem StrMemory.alloc_fits (m : StrMemory) {size : ℕ} (h : m.ptr + (string.length + 1) ≤ size) :
    m.alloc size string =
      (some m.ptr, ⟨strncpy m.mem m.ptr string, m.ptr + (string.length + 1)⟩) :=
  if_neg (Nat.not_lt.mpr h)

theorem StrMemory.alloc_full (m : StrMemory) {size : ℕ} (h : size < m.ptr + (string.length + 1)) :
    m.alloc size string = (none, { m with ptr := m.ptr + (string.length + 1) }) :=
  if_pos h

theorem StrMemory.alloc_ptr (m : StrMemory) (size : ℕ) :
    (m.alloc size string).2.ptr = m.ptr + (string.length + 1) := by
  rcases Nat.lt_or_ge size (m.ptr + (string.length + 1)) with h | h
  · rw [m.alloc_full h]
  · rw [m.alloc_fits h]

theorem StrMemory.alloc_none_iff (m : StrMemory) (size : ℕ) :
    (m.alloc size string).1 = none ↔ size < m.ptr + (string.length + 1) := by
  rcases Nat.lt_or_ge size (m.ptr + (string.length + 1)) with h | h
  · exact iff_of_true (by rw [m.alloc_full h]) h
  · exact iff_of_false (by simp [m.alloc_fits h]) (Nat.not_lt.mpr h)

theorem ipcAlloc_none_iff : (ipcAlloc memsize kind shm string).1 = none ↔
    kind.size memsize < (shm kind).ptr + (string.length + 1) := by
  rw [ipcAlloc_eq]
  exact (shm kind).alloc_none_iff _

theorem ipcAlloc_self :
    (ipcAlloc memsize kind shm string).2 kind =
      ((shm kind).alloc (kind.size memsize) string).2 := by
  rw [ipcAlloc_eq]
  exact Function.update_self ..

theorem ipcAlloc_ptr : ((ipcAlloc memsize kind shm string).2 kind).ptr =
    (shm kind).ptr + (string.length + 1) := by
  rw [ipcAlloc_self, StrMemory.alloc_ptr]

theorem ipcAlloc_of_ne (h : kind ≠ other) :
    (ipcAlloc memsize kind shm string).2 other = shm other := by
  rw [ipcAlloc_eq]
  exact Function.update_of_ne h.symm ..

end calls

section runs

variable {memsize : ℕ} {trace : List (StringShm × StrEvent)} {shm shm' : StringShm}
  {event : StrEvent} {events : List StrEvent} {kind : StrKind}

/-- The pointer counts every string, also one that did not fit. -/
theorem strNext_ptr (h : strNext memsize shm event = some shm')
    (hptr : (shm kind).ptr = used kind events) :
    (shm' kind).ptr = used kind (event :: events) := by
  cases event with
  | alloc kind' string =>
    obtain rfl := Option.some.inj h
    rw [used]
    by_cases hkind : kind' = kind
    · obtain rfl := hkind
      rw [if_pos rfl, ipcAlloc_ptr, hptr]
    · rw [if_neg hkind, ipcAlloc_of_ne hkind, hptr]
  | freepaths =>
    obtain rfl := Option.some.inj h
    rw [used]
    by_cases hkind : kind = .filesetpaths
    · obtain rfl := hkind
      rw [if_pos rfl, ipcFreepaths, Function.update_self]
    · rw [if_neg hkind, ipcFreepaths, Function.update_of_ne hkind, hptr]

theorem strRun_ptr (h : StrRun memsize trace shm) (kind : StrKind) :
    (shm kind).ptr = used kind (trace.map Prod.snd) := by
  induction h with
  | start hstart => exact hstart kind
  | step _ hnext ih => exact strNext_ptr hnext ih

/-- Every history of calls is a run. -/
theorem strRun_exists (memsize : ℕ) (events : List StrEvent) :
    ∃ trace shm, StrRun memsize trace shm ∧ trace.map Prod.snd = events := by
  induction events with
  | nil => exact ⟨[], fun _ => ⟨fun _ => nul, 0⟩, .start fun _ => rfl, rfl⟩
  | cons event events ih =>
    obtain ⟨trace, shm, hrun, rfl⟩ := ih
    obtain ⟨shm', hnext⟩ : ∃ shm', strNext memsize shm event = some shm' := by
      cases event <;> exact ⟨_, rfl⟩
    exact ⟨_, shm', hrun.step hnext, rfl⟩

theorem robust_cons_iff (h : strNext memsize shm event = some shm') :
    Robust memsize ((shm, event) :: trace) shm' ↔
      Robust memsize trace shm ∧ shm'.Within memsize := by
  constructor
  · intro hrobust
    have hbefore := hrobust.withinBefore
    refine ⟨⟨?_, hbefore _ (.head _), fun x hx => hbefore x (.tail _ hx)⟩, hrobust.within⟩
    intro before kind string hmem
    exact hrobust.harmless before kind string (.tail _ hmem)
  · rintro ⟨hrobust, hwithin⟩
    refine ⟨?_, hwithin, ?_⟩
    · intro before kind string hmem hnone
      rcases List.mem_cons.mp hmem with heq | hmem
      · obtain ⟨rfl, rfl⟩ := Prod.mk.inj heq
        -- a string that does not fit takes the pointer behind the end
        obtain rfl := Option.some.inj h
        have hptr := hwithin kind
        rw [ipcAlloc_ptr] at hptr
        exact absurd (ipcAlloc_none_iff.mp hnone) (Nat.not_lt.mpr hptr)
      · exact hrobust.harmless before kind string hmem hnone
    · intro x hx
      rcases List.mem_cons.mp hx with rfl | hx
      · exact hrobust.within
      · exact hrobust.withinBefore x hx

/-- Failed calls leave the allocators as they were exactly when there are none: when the strings,
and the paths since they were freed, never take more than there is. -/
theorem strRun_robust_iff (h : StrRun memsize trace shm) :
    Robust memsize trace shm ↔
      ∀ events, events <:+ trace.map Prod.snd → ∀ kind, used kind events ≤ kind.size memsize := by
  induction h with
  | start hstart =>
    refine iff_of_true ⟨?_, fun kind => ?_, ?_⟩ ?_
    · intro _ _ _ hmem
      cases hmem
    · rw [hstart kind]
      exact Nat.zero_le _
    · intro x hx
      cases hx
    · intro events hevents kind
      obtain rfl := List.suffix_nil.mp hevents
      exact Nat.zero_le _
  | @step trace shm shm' event hrun hnext ih =>
    rw [robust_cons_iff hnext, ih]
    have hptr := strRun_ptr (hrun.step hnext)
    constructor
    · rintro ⟨hearlier, hwithin⟩ events hevents kind
      rcases List.suffix_cons_iff.mp hevents with rfl | hevents
      · rw [← List.map_cons (f := Prod.snd) (a := (shm, event)), ← hptr kind]
        exact hwithin kind
      · exact hearlier events hevents kind
    · intro hall
      refine ⟨fun events hevents => hall events (hevents.trans (List.suffix_cons ..)), ?_⟩
      intro kind
      rw [hptr kind]
      exact hall _ (List.suffix_refl _) kind

end runs

def noStrings : StringShm := fun _ => ⟨fun _ => nul, 0⟩

theorem strRun_robust_one :
    Robust 1 [(noStrings, .alloc .strings ['a'])] (ipcStralloc 1 noStrings ['a']).2 ↔
      ∀ events, events <:+ [StrEvent.alloc .strings ['a']] →
        ∀ kind, used kind events ≤ kind.size 1 :=
  strRun_robust_iff (.step (.start fun _ => rfl) rfl)

theorem ipcStralloc_none_iff (memsize : ℕ) (shm : StringShm) (string : CString) :
    (ipcStralloc memsize shm string).1 = none ↔
      memsize * 128 < (shm .strings).ptr + (string.length + 1) := by
  change (ipcAlloc memsize .strings shm string).1 = none ↔ _
  exact ipcAlloc_none_iff

theorem ipcStralloc_ptr (memsize : ℕ) (shm : StringShm) (string : CString) :
    ((ipcStralloc memsize shm string).2 .strings).ptr =
      (shm .strings).ptr + (string.length + 1) := by
  change ((ipcAlloc memsize .strings shm string).2 .strings).ptr = _
  exact ipcAlloc_ptr

theorem used_replicate (kind : StrKind) (string : CString) (n : ℕ) :
    used kind (List.replicate n (.alloc kind string)) = n * (string.length + 1) := by
  induction n with
  | zero => exact (Nat.zero_mul _).symm
  | succ n ih => rw [List.replicate_succ, used, if_pos rfl, ih, Nat.succ_mul]

/-- After 4095 strings of 127 characters there is room for 128 more. A string of 200 does not fit,
and after it one of a single character, which did before, does not either. -/
theorem strRun_lost : ∃ trace shm, StrRun 4096 trace shm ∧
    trace.map Prod.snd = List.replicate 4095 (.alloc .strings (List.replicate 127 'a')) ∧
    (ipcStralloc 4096 shm (List.replicate 200 'a')).1 = none ∧
    (ipcStralloc 4096 shm ['a']).1 ≠ none ∧
    (ipcStralloc 4096 (ipcStralloc 4096 shm (List.replicate 200 'a')).2 ['a']).1 = none ∧
    ¬ (ipcStralloc 4096 shm (List.replicate 200 'a')).2.Within 4096 := by
  obtain ⟨trace, shm, hrun, hevents⟩ :=
    strRun_exists 4096 (List.replicate 4095 (.alloc .strings (List.replicate 127 'a')))
  have hptr : (shm .strings).ptr = 4095 * 128 := by
    rw [strRun_ptr hrun, hevents, used_replicate, List.length_replicate]
  have hlost : ((ipcStralloc 4096 shm (List.replicate 200 'a')).2 .strings).ptr =
      4095 * 128 + 201 := by
    rw [ipcStralloc_ptr, hptr, List.length_replicate]
  refine ⟨trace, shm, hrun, hevents, ?_, ?_, ?_, ?_⟩
  · rw [ipcStralloc_none_iff, hptr, List.length_replicate]
    decide
  · rw [ne_eq, ipcStralloc_none_iff, hptr]
    decide
  · rw [ipcStralloc_none_iff, hlost]
    decide
  · intro hwithin
    have hle := hwithin .strings
    rw [hlost] at hle
    exact absurd hle (by decide)

/-! ## A string stays where it was put -/

/-- The string lies at the offset, in what is not free any more. -/
structure StrMemory.Keeps (m : StrMemory) (p : ℕ) (string : CString) : Prop where
  chars : ∀ i (h : i < string.length), m.mem (p + i) = string[i]
  taken : p + (string.length + 1) ≤ m.ptr

section keeps

variable {m : StrMemory} {size p : ℕ} {string kept : CString}

theorem strncpy_self (mem : ℕ → Char) (dst : ℕ) {i : ℕ} (h : i < string.length) :
    strncpy mem dst string (dst + i) = string[i] := by
  rw [strncpy, if_pos (Nat.le_add_right dst i), Nat.add_sub_cancel_left]
  simp [h]

theorem strncpy_below (mem : ℕ → Char) {dst i : ℕ} (h : i < dst) :
    strncpy mem dst string i = mem i :=
  if_neg (Nat.not_le.mpr h)

theorem StrMemory.alloc_keeps (h : (m.alloc size string).1 = some p) :
    (m.alloc size string).2.Keeps p string := by
  rcases Nat.lt_or_ge size (m.ptr + (string.length + 1)) with hsize | hsize
  · rw [m.alloc_full hsize] at h
    cases h
  · rw [m.alloc_fits hsize] at h ⊢
    obtain rfl := Option.some.inj h
    exact ⟨fun i hi => strncpy_self m.mem m.ptr hi, le_rfl⟩

theorem StrMemory.Keeps.alloc (h : m.Keeps p kept) : (m.alloc size string).2.Keeps p kept := by
  rcases Nat.lt_or_ge size (m.ptr + (string.length + 1)) with hsize | hsize
  · rw [m.alloc_full hsize]
    exact ⟨h.chars, h.taken.trans (Nat.le_add_right ..)⟩
  · rw [m.alloc_fits hsize]
    refine ⟨fun i hi => ?_, h.taken.trans (Nat.le_add_right ..)⟩
    have hbelow : p + i < m.ptr := by
      have htaken := h.taken
      omega
    exact (strncpy_below m.mem hbelow).trans (h.chars i hi)

variable {memsize : ℕ} {shm shm' : StringShm} {event : StrEvent} {kind : StrKind}

theorem strNext_keeps (h : (shm kind).Keeps p kept) (hnext : strNext memsize shm event = some shm')
    (hfree : kind = .filesetpaths → event ≠ .freepaths) : (shm' kind).Keeps p kept := by
  cases event with
  | alloc kind' string =>
    obtain rfl := Option.some.inj hnext
    by_cases hkind : kind' = kind
    · obtain rfl := hkind
      rw [ipcAlloc_self]
      exact h.alloc
    · rw [ipcAlloc_of_ne hkind]
      exact h
  | freepaths =>
    obtain rfl := Option.some.inj hnext
    have hkind : kind ≠ .filesetpaths := fun hkind => hfree hkind rfl
    rw [ipcFreepaths, Function.update_of_ne hkind]
    exact h

/-- No later call overwrites a string, if the paths are not freed. -/
theorem strRun_keeps {later earlier : List (StringShm × StrEvent)} {before : StringShm}
    (h : StrRun memsize (later ++ (before, .alloc kind string) :: earlier) shm)
    (hsome : (ipcAlloc memsize kind before string).1 = some p)
    (hfree : kind = .filesetpaths → ∀ x ∈ later, x.2 ≠ .freepaths) :
    (shm kind).Keeps p string := by
  induction later generalizing shm with
  | nil =>
    cases h with
    | step _ hnext =>
      obtain rfl := Option.some.inj hnext
      rw [ipcAlloc_self]
      rw [ipcAlloc_eq] at hsome
      exact StrMemory.alloc_keeps hsome
  | cons x later ih =>
    cases h with
    | step h hnext =>
      have hkeeps := ih h fun hkind y hy => hfree hkind y (.tail _ hy)
      exact strNext_keeps hkeeps hnext fun hkind => hfree hkind _ (.head _)

end keeps

end Filebench.IpcStrings
