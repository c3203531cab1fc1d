import Filebench.Fileset.Populate

/-! # Parallel preallocation

`fileset_createset` with the loops of `fileset_create`, and the allocation threads that it
launches. What the picks, the random numbers and the allocations deliver is left open. The one
counter `shm_fsparalloc_count` is the number of threads, their limit and the error flag. -/
namespace Filebench

/-- `MAX_PARALLOC_THREADS` -/
def maxParallocThreads : ℤ := 32

/-- What the call reads of a fileset. -/
structure CreateAttrs where
  raw : Bool
  fsPrealloc : Bool
  fsParalloc : Bool
  deriving DecidableEq, Repr

/-- Where the creating thread stands. -/
inductive CreatePc where
  | nextFileset
  | populate
  | create
  | files
  | allocFile
  | gate
  | launch
  | leafdirs
  | wait
  | test
  | returned (ret : FilebenchRet)
  | exited
  deriving DecidableEq, Repr

/-- The last three numbers are for the statements only: threads that were launched, that reported
success and that reported an error. A thread is launched once the counter has it. -/
structure Createset where
  count : ℤ
  pc : CreatePc
  todo : List CreateAttrs
  one : Bool
  active : ℕ
  launched : ℕ
  succeeded : ℕ
  failed : ℕ

/-- The start of the call, for one fileset or for all on the list. -/
def filesetCreateset (fileset : Option CreateAttrs) (list : List CreateAttrs) : Createset :=
  match fileset with
  | some f =>
    if f.fsPrealloc then ⟨0, .nextFileset, [f], true, 0, 0, 0, 0⟩
    else ⟨0, .nextFileset, list, false, 0, 0, 0, 0⟩
  | none => ⟨0, .nextFileset, list, false, 0, 0, 0, 0⟩

inductive CreateEvent where
  | checkraw
  | populate (ret : FilebenchRet)
  | tree (ret : FilebenchRet)
  | skipFile
  | takeFile
  | noFile
  | allocFile (ret : FilebenchRet)
  | pass
  | pthreadCreate (started : Bool)
  | skipLeafdir
  | takeLeafdir (ret : FilebenchRet)
  | noLeafdir
  | drained
  | test
  | report (ret : FilebenchRet)
  deriving DecidableEq, Repr

/-- Goes on after a part that can fail. -/
def CreatePc.unless (pc : CreatePc) : FilebenchRet → CreatePc
  | .ok => pc
  | .error => .returned .error

/-- The thread that the creating thread is about to start. -/
def CreatePc.launching : CreatePc → ℕ
  | .launch | .exited => 1
  | _ => 0

namespace Createset

def Enabled (s : Createset) : CreateEvent → Prop
  | .checkraw => s.pc = .nextFileset
  | .populate _ => s.pc = .populate
  | .tree _ => s.pc = .create
  | .skipFile | .takeFile | .noFile => s.pc = .files
  | .allocFile _ => s.pc = .allocFile
  | .pass => s.pc = .gate ∧ s.count < maxParallocThreads
  | .pthreadCreate _ => s.pc = .launch
  | .skipLeafdir | .takeLeafdir _ | .noLeafdir => s.pc = .leafdirs
  | .drained => s.pc = .wait ∧ ¬ 0 < s.count
  | .test => s.pc = .test
  | .report _ => 0 < s.active ∧ s.pc ≠ .exited

/-- A failed `pthread_create` shuts the program down. -/
def next (s : Createset) : CreateEvent → Createset
  | .checkraw =>
    match s.todo with
    | [] => { s with pc := .wait }
    | f :: rest =>
      if f.raw then if s.one then { s with pc := .returned .ok } else { s with todo := rest }
      else { s with pc := .populate }
  | .populate ret => { s with pc := CreatePc.create.unless ret }
  | .tree ret => { s with pc := CreatePc.files.unless ret }
  | .skipFile => s
  | .takeFile => { s with pc := if s.todo.head?.any (·.fsParalloc) then .gate else .allocFile }
  | .noFile => { s with pc := .leafdirs }
  | .allocFile ret => { s with pc := CreatePc.files.unless ret }
  | .pass =>
    if s.count < 0 then { s with pc := .returned .error }
    else { s with pc := .launch, count := s.count + 1, launched := s.launched + 1 }
  | .pthreadCreate started =>
    if started then { s with pc := .files, active := s.active + 1 } else { s with pc := .exited }
  | .skipLeafdir => s
  | .takeLeafdir ret => { s with pc := CreatePc.leafdirs.unless ret }
  | .noLeafdir => { s with pc := .nextFileset, todo := s.todo.tail }
  | .drained => { s with pc := .test }
  | .test => { s with pc := .returned (if s.count < 0 then .error else .ok) }
  | .report .ok =>
    { s with count := s.count - 1, active := s.active - 1, succeeded := s.succeeded + 1 }
  | .report .error => { s with count := -1, active := s.active - 1, failed := s.failed + 1 }

inductive Execution : Createset → Createset → Prop where
  | refl (s) : Execution s s
  | tail {s u} (e) : Execution s u → Enabled u e → Execution s (next u e)

structure Invariant (s : Createset) : Prop where
  total : s.launched = s.succeeded + s.failed + s.active + s.pc.launching
  limit : (s.active : ℤ) + s.pc.launching ≤ maxParallocThreads
  running : s.failed = 0 → s.count = s.launched - s.succeeded
  error : 0 < s.failed → s.count < 0 ∧
    s.active + s.pc.launching - maxParallocThreads - 1 ≤ s.count
  test : s.pc = .test → s.count ≤ 0
  ok : s.pc = .returned .ok → s.failed = 0 ∧ s.launched = s.succeeded
  one : s.one = true → s.todo.length ≤ 1 ∧
    (s.pc = .nextFileset → s.todo ≠ [] → s.launched = 0 ∧ s.failed = 0)

theorem initial_invariant (fileset : Option CreateAttrs) (list : List CreateAttrs) :
    Invariant (filesetCreateset fileset list) := by
  cases fileset with
  | none => constructor <;> simp [filesetCreateset, CreatePc.launching, maxParallocThreads]
  | some f =>
    simp only [filesetCreateset]
    split_ifs <;> constructor <;> simp [CreatePc.launching, maxParallocThreads]

/-- The creating thread goes on without touching the counter. -/
theorem Invariant.goto {s : Createset} (h : Invariant s) {pc : CreatePc}
    {todo : List CreateAttrs} {n : ℕ} (hold : s.pc.launching = n) (hnew : pc.launching = n)
    (htest : pc = .test → s.count ≤ 0)
    (hok : pc = .returned .ok → s.failed = 0 ∧ s.launched = s.succeeded)
    (hone : s.one = true → todo.length ≤ 1 ∧
      (pc = .nextFileset → todo ≠ [] → s.launched = 0 ∧ s.failed = 0)) :
    Invariant { s with pc := pc, todo := todo } := by
  have hpc : pc.launching = s.pc.launching := hnew.trans hold.symm
  refine ⟨?_, ?_, h.running, ?_, htest, hok, hone⟩
  · rw [hpc]
    exact h.total
  · rw [hpc]
    exact h.limit
  · rw [hpc]
    exact h.error

/-- It goes on inside a fileset, or returns an error. -/
theorem Invariant.setPc {s : Createset} (h : Invariant s) {pc : CreatePc} {n : ℕ}
    (hold : s.pc.launching = n) (hnew : pc.launching = n)
    (hne : pc ≠ .test ∧ pc ≠ .returned .ok ∧ pc ≠ .nextFileset) :
    Invariant { s with pc := pc } :=
  h.goto hold hnew (fun he => absurd he hne.1) (fun he => absurd he hne.2.1)
    fun hone => ⟨(h.one hone).1, fun he => absurd he hne.2.2⟩

theorem Invariant.unless {s : Createset} (h : Invariant s) {pc : CreatePc}
    (hold : s.pc.launching = 0) (hnew : pc.launching = 0)
    (hne : pc ≠ .test ∧ pc ≠ .returned .ok ∧ pc ≠ .nextFileset) (ret : FilebenchRet) :
    Invariant { s with pc := pc.unless ret } := by
  cases ret with
  | ok => exact h.setPc hold hnew hne
  | error => exact h.setPc hold rfl (by simp [CreatePc.unless])

/-- A report of a thread. -/
theorem Invariant.report {s : Createset} (h : Invariant s) (ret : FilebenchRet)
    (hactive : 0 < s.active) : Invariant (next s (.report ret)) := by
  have htotal := h.total
  have hlimit := h.limit
  have hrunning := h.running
  have herror := h.error
  unfold maxParallocThreads at hlimit herror
  cases ret with
  | ok =>
    constructor <;> simp only [next, maxParallocThreads]
    · omega
    · omega
    · intro hf
      have := hrunning hf
      omega
    · intro hf
      have := herror hf
      omega
    · intro ht
      have := h.test ht
      omega
    · intro hpc
      have := h.ok hpc
      omega
    · intro hone
      refine ⟨(h.one hone).1, fun hpc ht => ?_⟩
      have := (h.one hone).2 hpc ht
      omega
  | error =>
    constructor <;> simp only [next, maxParallocThreads]
    · omega
    · omega
    · intro hf
      omega
    · intro hf
      omega
    · intro ht
      omega
    · intro hpc
      have := h.ok hpc
      omega
    · intro hone
      refine ⟨(h.one hone).1, fun hpc ht => ?_⟩
      have := (h.one hone).2 hpc ht
      omega

/-- The gate admits one more thread, or stops at the error flag. -/
theorem Invariant.pass {s : Createset} (h : Invariant s) (hpc : s.pc = .gate)
    (hlt : s.count < maxParallocThreads) : Invariant (next s .pass) := by
  have hl : s.pc.launching = 0 := by
    rw [hpc]
    rfl
  simp only [next]
  split_ifs with hneg
  · exact h.setPc hl rfl (by simp)
  · have hf : s.failed = 0 := by
      by_contra hf
      exact hneg (h.error (Nat.pos_of_ne_zero hf)).1
    have hcount := h.running hf
    have htotal := h.total
    unfold maxParallocThreads at hlt
    constructor <;> simp only [CreatePc.launching, maxParallocThreads]
    · omega
    · omega
    · intro _
      omega
    · intro hpos
      omega
    · nofun
    · nofun
    · intro hone
      exact ⟨(h.one hone).1, nofun⟩

theorem Invariant.pthreadCreate {s : Createset} (h : Invariant s) (hpc : s.pc = .launch)
    (started : Bool) : Invariant (next s (.pthreadCreate started)) := by
  have htotal := h.total
  have hlimit := h.limit
  have herror := h.error
  rw [hpc] at htotal hlimit herror
  simp only [next]
  split_ifs
  · constructor <;> simp only [CreatePc.launching] at *
    · omega
    · omega
    · exact h.running
    · intro hf
      have := herror hf
      omega
    · nofun
    · nofun
    · intro hone
      exact ⟨(h.one hone).1, nofun⟩
  · exact h.setPc (congrArg CreatePc.launching hpc) rfl (by simp)

theorem Invariant.checkraw {s : Createset} (h : Invariant s) (hpc : s.pc = .nextFileset) :
    Invariant (next s .checkraw) := by
  have hl : s.pc.launching = 0 := by
    rw [hpc]
    rfl
  simp only [next]
  split
  · exact h.setPc hl rfl (by simp)
  · next f rest htodo =>
    split_ifs with hraw hone
    · have hzero := (h.one hone).2 hpc (by rw [htodo]; simp)
      have htotal := h.total
      apply h.goto hl rfl
      · nofun
      · intro _
        omega
      · intro hone
        exact ⟨(h.one hone).1, nofun⟩
    · apply h.goto rfl rfl h.test h.ok
      intro hone'
      exact absurd hone' hone
    · exact h.setPc hl rfl (by simp)

theorem step_preserves_invariant {s : Createset} (h : Invariant s) {e : CreateEvent}
    (he : Enabled s e) : Invariant (next s e) := by
  cases e with
  | checkraw => exact h.checkraw he
  | populate ret => exact h.unless (congrArg CreatePc.launching he) rfl (by simp) ret
  | tree ret => exact h.unless (congrArg CreatePc.launching he) rfl (by simp) ret
  | skipFile => exact h
  | takeFile =>
    have htake : ∀ b : Bool, Invariant { s with pc := if b then .gate else .allocFile } := by
      intro b
      apply h.setPc (congrArg CreatePc.launching he)
      · cases b <;> rfl
      · cases b <;> simp
    exact htake _
  | noFile => exact h.setPc (congrArg CreatePc.launching he) rfl (by simp)
  | allocFile ret => exact h.unless (congrArg CreatePc.launching he) rfl (by simp) ret
  | pass => exact h.pass he.1 he.2
  | pthreadCreate started => exact h.pthreadCreate he started
  | skipLeafdir => exact h
  | takeLeafdir ret => exact h.unless (congrArg CreatePc.launching he) rfl (by simp) ret
  | noLeafdir =>
    refine h.goto (congrArg CreatePc.launching he) rfl ?_ ?_ ?_
    · nofun
    · nofun
    · intro hone
      have hlen := (h.one hone).1
      have htail : s.todo.tail = [] := List.eq_nil_of_length_eq_zero (by
        rw [List.length_tail]
        omega)
      rw [htail]
      exact ⟨Nat.zero_le 1, fun _ hne => absurd rfl hne⟩
  | drained =>
    refine h.goto (congrArg CreatePc.launching he.1) rfl ?_ ?_ ?_
    · exact fun _ => not_lt.mp he.2
    · nofun
    · exact fun hone => ⟨(h.one hone).1, nofun⟩
  | test =>
    have hle := h.test he
    refine h.goto (congrArg CreatePc.launching he) rfl ?_ ?_ ?_
    · nofun
    · intro hok
      simp only [CreatePc.returned.injEq, ite_eq_right_iff, reduceCtorEq, imp_false] at hok
      have hf : s.failed = 0 := by
        by_contra hf
        exact hok (h.error (Nat.pos_of_ne_zero hf)).1
      have hcount := h.running hf
      have htotal := h.total
      exact ⟨hf, by omega⟩
    · exact fun hone => ⟨(h.one hone).1, nofun⟩
  | report ret => exact h.report ret he.1

theorem execution_invariant {s u : Createset} (h : Invariant s) (hrun : Execution s u) :
    Invariant u := by
  induction hrun with
  | refl => exact h
  | tail e _ he ih => exact step_preserves_invariant ih he

end Createset

open Createset in
/-- In every run of a call that starts with no thread running the counter stays within the limit,
counts the threads until one fails, is negative from then on, and the call returns success only
when every thread that it launched has reported success. -/
theorem filesetCreateset_protocol (fileset : Option CreateAttrs) (list : List CreateAttrs)
    {s : Createset} (hrun : Execution (filesetCreateset fileset list) s) :
    s.count ≤ maxParallocThreads ∧
    (s.failed = 0 → s.count = s.launched - s.succeeded) ∧
    (0 < s.failed → s.count < 0 ∧ -maxParallocThreads - 1 ≤ s.count) ∧
    (s.pc = .returned .ok → s.failed = 0 ∧ s.launched = s.succeeded) := by
  have h := execution_invariant (initial_invariant fileset list) hrun
  have htotal := h.total
  have hlimit := h.limit
  refine ⟨?_, h.running, fun hf => ⟨(h.error hf).1, ?_⟩, h.ok⟩
  · by_cases hf : s.failed = 0
    · have := h.running hf
      omega
    · have := (h.error (Nat.pos_of_ne_zero hf)).1
      unfold maxParallocThreads
      omega
  · have := (h.error hf).2
    omega

open Createset in
/-- A run in which the only thread fails. -/
theorem filesetCreateset_protocol_error : ∃ s : Createset, s.failed = 1 ∧
    s.count ≤ maxParallocThreads ∧
    (s.failed = 0 → s.count = s.launched - s.succeeded) ∧
    (0 < s.failed → s.count < 0 ∧ -maxParallocThreads - 1 ≤ s.count) ∧
    (s.pc = .returned .ok → s.failed = 0 ∧ s.launched = s.succeeded) := by
  have hfiles := ((Execution.refl (filesetCreateset none [⟨false, true, true⟩])).tail .checkraw
    rfl).tail (.populate .ok) rfl |>.tail (.tree .ok) rfl
  have hgate := hfiles.tail .takeFile rfl
  have hlaunched := (hgate.tail .pass ⟨rfl, by decide⟩).tail (.pthreadCreate true) rfl
  have hfailed := hlaunched.tail (.report .error) ⟨by decide, by decide⟩
  exact ⟨_, rfl, filesetCreateset_protocol _ _ hfailed⟩

end Filebench
