import Filebench.Lib.Bump
import Filebench.Lib.Trace
import Filebench.Vars.Types
import Mathlib.Data.BitVec

/-! # The memory of threads in interprocess shared memory

The threads that use ISM get their buffers from one pool. It is to hold what the threads ask for
that exist when it is made, and they wait for it on a lock that `ipc_init` takes and
`ipc_ismcreate` gives back. -/
namespace Filebench

open Bump

/-- What `shmget` and `shmat` do. -/
inductive ShmResult where
  | failed
  | unattached (id : ℕ)
  | attached (id addr : ℕ)
  deriving DecidableEq

/-- `shmSize` is the size that the pool was made with, and `defined` are the threads that were ever
created. -/
structure IsmShm (τ : Type) where
  shmId : Option ℕ
  shmAddr : ℕ
  shmPtr : ℕ
  shmSize : ℕ
  shmAllocated : ℕ
  shmRequired : FbInt
  ismLocked : Bool
  defined : Finset τ
  live : Finset τ
  tfConstmemsize : τ → FbInt
  tfMem : τ → Option ℕ

inductive IsmEvent (τ : Type) where
  | createthread (i : τ) (memsize : FbInt)
  | ismmalloc (i : τ)
  | delete (i : τ)
  | procCreate (res : ShmResult)
  | procShutdown
  deriving DecidableEq

variable {τ : Type} [DecidableEq τ]

def threadMemsize (s : IsmShm τ) (i : τ) : ℕ := (s.tfConstmemsize i).toNat

def ipcIsmcreate (s : IsmShm τ) (size : FbInt) (res : ShmResult) : IsmShm τ :=
  if s.shmId ≠ none then s
  else match res with
    | .failed => s
    | .unattached id => { s with shmId := some id, shmAddr := 2 ^ 64 - 1 }
    | .attached id addr =>
      { s with
        shmId := some id
        shmAddr := addr
        shmPtr := addr
        shmSize := size.toNat
        ismLocked := false }

def ipcIsmmalloc (s : IsmShm τ) (i : τ) : IsmShm τ :=
  { s with
    tfMem := Function.update s.tfMem i (some s.shmPtr)
    shmPtr := s.shmPtr + threadMemsize s i
    shmAllocated := s.shmAllocated + threadMemsize s i }

def ipcIsmdelete (s : IsmShm τ) : Option (IsmShm τ) :=
  if s.shmId = none then some s
  else if s.ismLocked then none
  else some { s with shmPtr := s.shmAddr, shmId := none, shmAllocated := 0 }

/-- `ipc_ismmalloc` waits for the lock. Only a thread that exists calls it, once. -/
def ismNext (s : IsmShm τ) : IsmEvent τ → Option (IsmShm τ)
  | .createthread i memsize =>
    if i ∈ s.defined then none
    else some { s with
      defined := insert i s.defined
      live := insert i s.live
      tfConstmemsize := Function.update s.tfConstmemsize i memsize
      shmRequired := s.shmRequired + memsize }
  | .ismmalloc i =>
    if i ∈ s.live ∧ s.tfMem i = none ∧ s.ismLocked = false then some (ipcIsmmalloc s i) else none
  | .delete i =>
    if i ∈ s.live then
      some { s with live := s.live.erase i, shmRequired := s.shmRequired - s.tfConstmemsize i }
    else none
  | .procCreate res => if s.shmRequired ≠ 0 then some (ipcIsmcreate s s.shmRequired res) else some s
  | .procShutdown => if s.shmRequired ≠ 0 then ipcIsmdelete s else some s

/-- After `ipc_init`. -/
structure IsmStart (s : IsmShm τ) : Prop where
  shmId : s.shmId = none
  shmRequired : s.shmRequired = 0
  ismLocked : s.ismLocked = true
  defined : s.defined = ∅
  live : s.live = ∅
  tfMem : ∀ i, s.tfMem i = none

abbrev IsmRun : List (IsmShm τ × IsmEvent τ) → IsmShm τ → Prop := Trace.Run ismNext IsmStart

/-- A step of the first run of a session: all threads are created before the pool is, what they ask
for fits an address, and the run is not shut down yet. If it is a `lossless` one, threads are
deleted only after they have got their memory. -/
def FirstRun (lossless : Prop) (s : IsmShm τ) : IsmEvent τ → Prop
  | .createthread _ _ => s.ismLocked = true
  | .procCreate _ => ∑ i ∈ s.live, threadMemsize s i < 2 ^ 64
  | .procShutdown => False
  | .delete i => lossless → s.tfMem i ≠ none
  | .ismmalloc _ => True

/-! ## What the threads ask for -/

variable {s s' : IsmShm τ} {i : τ} {e : IsmEvent τ}

/-- `shm_required` is the sum over the threads that exist, as a machine word. -/
structure Accounted (s : IsmShm τ) : Prop where
  required : s.shmRequired = ∑ i ∈ s.live, s.tfConstmemsize i
  live : s.live ⊆ s.defined

theorem sum_insert_memsize {memsize : FbInt} (hnew : i ∉ s.live) :
    ∑ j ∈ insert i s.live, Function.update s.tfConstmemsize i memsize j =
      ∑ j ∈ s.live, s.tfConstmemsize j + memsize := by
  rw [Finset.sum_insert hnew, Function.update_self, add_comm]
  congr 1
  refine Finset.sum_congr rfl fun j hj => Function.update_of_ne ?_ _ _
  rintro rfl
  exact hnew hj

theorem sum_erase_memsize (hi : i ∈ s.live) :
    ∑ j ∈ s.live.erase i, s.tfConstmemsize j =
      ∑ j ∈ s.live, s.tfConstmemsize j - s.tfConstmemsize i := by
  rw [← Finset.add_sum_erase s.live _ hi]
  ring

/-- Neither the pool nor its lock is of concern. -/
theorem Accounted.congr (h : Accounted s) (hrequired : s'.shmRequired = s.shmRequired)
    (hlive : s'.live = s.live) (hdefined : s'.defined = s.defined)
    (hsize : s'.tfConstmemsize = s.tfConstmemsize) : Accounted s' := by
  constructor
  · rw [hrequired, hlive, hsize]
    exact h.required
  · rw [hlive, hdefined]
    exact h.live

theorem ipcIsmcreate_accounted (h : Accounted s) (size : FbInt) (res : ShmResult) :
    Accounted (ipcIsmcreate s size res) := by
  unfold ipcIsmcreate
  split
  next => exact h
  next => cases res <;> exact h.congr rfl rfl rfl rfl

theorem ipcIsmdelete_accounted (h : Accounted s) (hdelete : ipcIsmdelete s = some s') :
    Accounted s' := by
  unfold ipcIsmdelete at hdelete
  split at hdelete
  next => exact Option.some.inj hdelete ▸ h
  next =>
    obtain ⟨-, hdelete⟩ := Option.ite_none_left_eq_some.mp hdelete
    exact Option.some.inj hdelete ▸ h.congr rfl rfl rfl rfl

theorem Accounted.step (h : Accounted s) (hnext : ismNext s e = some s') : Accounted s' := by
  cases e with
  | createthread i memsize =>
    simp only [ismNext, Option.ite_none_left_eq_some, Option.some.injEq] at hnext
    obtain ⟨hnew, rfl⟩ := hnext
    constructor
    · refine (congrArg (· + memsize) h.required).trans ?_
      exact (sum_insert_memsize fun hi => hnew (h.live hi)).symm
    · exact Finset.insert_subset_insert i h.live
  | ismmalloc i =>
    simp only [ismNext, Option.ite_none_right_eq_some, Option.some.injEq] at hnext
    exact hnext.2 ▸ h.congr rfl rfl rfl rfl
  | delete i =>
    simp only [ismNext, Option.ite_none_right_eq_some, Option.some.injEq] at hnext
    obtain ⟨hlive, rfl⟩ := hnext
    constructor
    · exact (congrArg (· - s.tfConstmemsize i) h.required).trans (sum_erase_memsize hlive).symm
    · exact (Finset.erase_subset _ _).trans h.live
  | procCreate res =>
    simp only [ismNext] at hnext
    split at hnext
    next => exact Option.some.inj hnext ▸ ipcIsmcreate_accounted h _ res
    next => exact Option.some.inj hnext ▸ h
  | procShutdown =>
    simp only [ismNext] at hnext
    split at hnext
    next => exact ipcIsmdelete_accounted h hnext
    next => exact Option.some.inj hnext ▸ h

theorem ismRun_accounted {trace : List (IsmShm τ × IsmEvent τ)} (h : IsmRun trace s) :
    Accounted s := by
  induction h with
  | start hs =>
    constructor
    · rw [hs.shmRequired, hs.live, Finset.sum_empty]
    · rw [hs.live]
      exact Finset.empty_subset _
  | step _ hnext ih => exact ih.step hnext

instance (lossless : Prop) [Decidable lossless] (s : IsmShm τ) (e : IsmEvent τ) :
    Decidable (FirstRun lossless s e) :=
  match e with
  | .createthread _ _ => inferInstanceAs (Decidable (s.ismLocked = true))
  | .procCreate _ => inferInstanceAs (Decidable (∑ i ∈ s.live, threadMemsize s i < 2 ^ 64))
  | .procShutdown => .isFalse id
  | .delete i => inferInstanceAs (Decidable (lossless → s.tfMem i ≠ none))
  | .ismmalloc _ => .isTrue trivial

/-! ## The first run -/

/-- The threads that have not got their memory yet. -/
def IsmShm.waiting (s : IsmShm τ) : Finset τ := s.live.filter fun i => s.tfMem i = none

/-- The pool holds what the threads have got, and what the others ask for. -/
structure PoolHolds (lossless : Prop) (s : IsmShm τ) (order : List τ) : Prop where
  attached : s.shmId ≠ none
  given : ∀ i, s.tfMem i ≠ none ↔ i ∈ order
  laid : Laid (threadMemsize s) s.shmAddr s.tfMem order
  ptr : s.shmPtr = s.shmAddr + total (threadMemsize s) order
  room : total (threadMemsize s) order + ∑ i ∈ s.waiting, threadMemsize s i ≤ s.shmSize
  full : lossless →
    s.shmSize ≤ total (threadMemsize s) order + ∑ i ∈ s.waiting, threadMemsize s i

structure IsmInv (lossless : Prop) (s : IsmShm τ) : Prop where
  accounted : Accounted s
  defined : ∀ i, s.tfMem i ≠ none → i ∈ s.defined
  locked : s.ismLocked = true → ∀ i, s.tfMem i = none
  unlocked : s.ismLocked = false → ∃ order, PoolHolds lossless s order

variable {lossless : Prop} {order : List τ}

theorem IsmStart.inv (h : IsmStart s) : IsmInv lossless s := by
  refine ⟨ismRun_accounted (.start h), fun i hi => absurd (h.tfMem i) hi, fun _ => h.tfMem,
    fun hlock => ?_⟩
  rw [h.ismLocked] at hlock
  cases hlock

/-- As long as the sum does not wrap around. -/
theorem toNat_sum_memsize (s : IsmShm τ) (live : Finset τ)
    (h : ∑ i ∈ live, threadMemsize s i < 2 ^ 64) :
    (∑ i ∈ live, s.tfConstmemsize i).toNat = ∑ i ∈ live, threadMemsize s i := by
  induction live using Finset.cons_induction with
  | empty => rfl
  | cons i live hi ih =>
    rw [Finset.sum_cons] at h ⊢
    rw [Finset.sum_cons, BitVec.toNat_add, ih (by omega)]
    exact Nat.mod_eq_of_lt h

namespace IsmInv

theorem ismmalloc (h : IsmInv lossless s) (hlive : i ∈ s.live) (hnone : s.tfMem i = none)
    (hlock : s.ismLocked = false) (haccounted : Accounted (ipcIsmmalloc s i)) :
    IsmInv lossless (ipcIsmmalloc s i) := by
  obtain ⟨order, hp⟩ := h.unlocked hlock
  have hnew : i ∉ order := fun hi => (hp.given i).mpr hi hnone
  have hwaiting : (ipcIsmmalloc s i).waiting = s.waiting.erase i := by
    ext j
    simp only [IsmShm.waiting, ipcIsmmalloc, Finset.mem_filter, Finset.mem_erase,
      Function.update_apply]
    by_cases hj : j = i <;> simp [hj]
  have hmem : i ∈ s.waiting := Finset.mem_filter.mpr ⟨hlive, hnone⟩
  have hsum := Finset.add_sum_erase s.waiting (threadMemsize s) hmem
  refine ⟨haccounted, fun j hj => ?_, fun hl => ?_, fun _ => ⟨i :: order, ?_⟩⟩
  · by_cases hji : j = i
    · exact hji.symm ▸ h.accounted.live hlive
    · exact h.defined j fun hn => hj ((Function.update_of_ne hji _ _).trans hn)
  · exact absurd (hlock.symm.trans hl) Bool.noConfusion
  · refine ⟨hp.attached, fun j => ?_, ⟨?_, ?_⟩, ?_, ?_, fun hl => ?_⟩
    · rw [List.mem_cons, ← hp.given j]
      simp only [ipcIsmmalloc, Function.update_apply]
      by_cases hj : j = i <;> simp [hj]
    · exact (Function.update_self _ _ _).trans (congrArg some hp.ptr)
    · refine hp.laid.congr fun j hj => Function.update_of_ne ?_ _ _
      rintro rfl
      exact hnew hj
    · change s.shmPtr + threadMemsize s i = s.shmAddr + total (threadMemsize s) (i :: order)
      rw [total_cons, hp.ptr]
      omega
    · rw [hwaiting]
      change total (threadMemsize s) (i :: order) + ∑ j ∈ s.waiting.erase i, threadMemsize s j ≤
        s.shmSize
      have hroom := hp.room
      rw [total_cons]
      omega
    · rw [hwaiting]
      change s.shmSize ≤ total (threadMemsize s) (i :: order) +
        ∑ j ∈ s.waiting.erase i, threadMemsize s j
      have hfull := hp.full hl
      rw [total_cons]
      omega

theorem delete (h : IsmInv lossless s) (hlossless : lossless → s.tfMem i ≠ none)
    (hs' : s' = { s with
      live := s.live.erase i, shmRequired := s.shmRequired - s.tfConstmemsize i })
    (haccounted : Accounted s') : IsmInv lossless s' := by
  subst hs'
  refine ⟨haccounted, h.defined, h.locked, fun hl => ?_⟩
  obtain ⟨order, hp⟩ := h.unlocked hl
  have hsubset : (s.live.erase i).filter (fun j => s.tfMem j = none) ⊆ s.waiting :=
    Finset.filter_subset_filter _ (Finset.erase_subset _ _)
  refine ⟨order, hp.attached, hp.given, hp.laid, hp.ptr, ?_, fun hl => ?_⟩
  · exact (Nat.add_le_add_left (Finset.sum_le_sum_of_subset hsubset) _).trans hp.room
  · have heq : (s.live.erase i).filter (fun j => s.tfMem j = none) = s.waiting := by
      rw [Finset.filter_erase, Finset.erase_eq_of_notMem]
      · rfl
      · exact fun hi => hlossless hl (Finset.mem_filter.mp hi).2
    rw [IsmShm.waiting, heq]
    exact hp.full hl

theorem ismcreate (h : IsmInv lossless s) (hfits : ∑ i ∈ s.live, threadMemsize s i < 2 ^ 64)
    (res : ShmResult) : IsmInv lossless (ipcIsmcreate s s.shmRequired res) := by
  have haccounted := h.accounted
  unfold ipcIsmcreate
  split
  next => exact h
  next hid =>
    have hlock : s.ismLocked = true := by
      cases hl : s.ismLocked with
      | true => rfl
      | false =>
        obtain ⟨order, hp⟩ := h.unlocked hl
        exact absurd hp.attached hid
    have hmem := h.locked hlock
    cases res with
    | failed => exact h
    | unattached id =>
      refine ⟨haccounted.congr rfl rfl rfl rfl, h.defined, h.locked, fun hl => ?_⟩
      exact absurd (hlock.symm.trans hl) Bool.noConfusion
    | attached id addr =>
      refine ⟨haccounted.congr rfl rfl rfl rfl, h.defined, fun hl => absurd hl Bool.false_ne_true,
        fun _ => ⟨[], ?_⟩⟩
      have hwaiting : s.waiting = s.live := Finset.filter_true_of_mem fun i _ => hmem i
      have hsize : s.shmRequired.toNat = ∑ i ∈ s.waiting, threadMemsize s i := by
        rw [haccounted.required, toNat_sum_memsize s s.live hfits, hwaiting]
      refine ⟨Option.some_ne_none id, fun i => ?_, trivial, rfl, ?_, fun _ => ?_⟩
      · simp [hmem i]
      · change total (threadMemsize s) [] + ∑ i ∈ s.waiting, threadMemsize s i ≤ s.shmRequired.toNat
        rw [hsize, total_nil, zero_add]
      · change s.shmRequired.toNat ≤ total (threadMemsize s) [] + ∑ i ∈ s.waiting, threadMemsize s i
        rw [hsize, total_nil, zero_add]

theorem step (h : IsmInv lossless s) (hfirst : FirstRun lossless s e)
    (hnext : ismNext s e = some s') : IsmInv lossless s' := by
  have haccounted := h.accounted.step hnext
  cases e with
  | createthread i memsize =>
    simp only [ismNext, Option.ite_none_left_eq_some, Option.some.injEq] at hnext
    obtain ⟨-, rfl⟩ := hnext
    have hlock : s.ismLocked = true := hfirst
    refine ⟨haccounted, fun j hj => Finset.mem_insert_of_mem (h.defined j hj), h.locked,
      fun hl => ?_⟩
    exact absurd (hlock.symm.trans hl) Bool.noConfusion
  | ismmalloc i =>
    simp only [ismNext, Option.ite_none_right_eq_some, Option.some.injEq] at hnext
    obtain ⟨⟨hlive, hnone, hlock⟩, rfl⟩ := hnext
    exact h.ismmalloc hlive hnone hlock haccounted
  | delete i =>
    simp only [ismNext, Option.ite_none_right_eq_some, Option.some.injEq] at hnext
    exact h.delete hfirst hnext.2.symm haccounted
  | procCreate res =>
    simp only [ismNext] at hnext
    split at hnext
    next => exact Option.some.inj hnext ▸ h.ismcreate hfirst res
    next => exact Option.some.inj hnext ▸ h
  | procShutdown => exact absurd hfirst id

end IsmInv

theorem IsmRun.inv {trace : List (IsmShm τ × IsmEvent τ)} (h : IsmRun trace s)
    (hfirst : ∀ x ∈ trace, FirstRun lossless x.1 x.2) : IsmInv lossless s :=
  h.invariant (I := fun _ s => IsmInv lossless s) hfirst (fun _ hs => hs.inv)
    fun _ _ _ _ hinv hmeets hnext => hinv.step hmeets hnext

/-- In the first run of a session the memory of every thread lies in the pool and apart from that of
any other thread, in whatever order they get it. -/
theorem ismRun_inside {trace : List (IsmShm τ × IsmEvent τ)} (h : IsmRun trace s)
    (hfirst : ∀ x ∈ trace, FirstRun False x.1 x.2) {a : ℕ} (ha : s.tfMem i = some a) :
    s.shmAddr ≤ a ∧ a + threadMemsize s i ≤ s.shmAddr + s.shmSize ∧
      ∀ j b, j ≠ i → s.tfMem j = some b →
        a + threadMemsize s i ≤ b ∨ b + threadMemsize s j ≤ a := by
  have hinv := IsmRun.inv h hfirst
  have hlock : s.ismLocked = false := by
    cases hl : s.ismLocked with
    | false => rfl
    | true => exact absurd (ha.symm.trans (hinv.locked hl i)) (Option.some_ne_none a)
  obtain ⟨order, hp⟩ := hinv.unlocked hlock
  have horder : ∀ j b, s.tfMem j = some b → j ∈ order := fun j b hb =>
    (hp.given j).mp fun hn => Option.some_ne_none b (hb.symm.trans hn)
  obtain ⟨hlow, hhigh⟩ := hp.laid.inside (horder i a ha) ha
  refine ⟨hlow, hhigh.trans (Nat.add_le_add_left ?_ _), fun j b hj hb => ?_⟩
  · exact (Nat.le_add_right _ _).trans hp.room
  · exact hp.laid.disjoint (horder i a ha) (horder j b hb) hj.symm ha hb

/-! ## Later runs -/

/-- A run is shut down when all its threads were deleted. -/
def Graceful (s : IsmShm τ) : IsmEvent τ → Prop
  | .procShutdown => s.live = ∅
  | _ => True

instance (s : IsmShm τ) (e : IsmEvent τ) : Decidable (Graceful s e) :=
  match e with
  | .procShutdown => inferInstanceAs (Decidable (s.live = ∅))
  | .createthread _ _ | .ismmalloc _ | .delete _ | .procCreate _ => .isTrue trivial

/-- The pool stays, and what it gives out comes after what it has given out. -/
structure PoolStays (u s : IsmShm τ) : Prop where
  accounted : Accounted s
  shmId : s.shmId = u.shmId
  ptr : u.shmPtr ≤ s.shmPtr
  later : ∀ i a, u.tfMem i = none → s.tfMem i = some a → u.shmPtr ≤ a

theorem PoolStays.step {u : IsmShm τ} (h : PoolStays u s) (hattached : u.shmId ≠ none)
    (hgraceful : Graceful s e) (hnext : ismNext s e = some s') : PoolStays u s' := by
  have haccounted := h.accounted.step hnext
  cases e with
  | createthread i memsize =>
    simp only [ismNext, Option.ite_none_left_eq_some, Option.some.injEq] at hnext
    obtain ⟨-, rfl⟩ := hnext
    exact ⟨haccounted, h.shmId, h.ptr, h.later⟩
  | ismmalloc i =>
    simp only [ismNext, Option.ite_none_right_eq_some, Option.some.injEq] at hnext
    obtain ⟨-, rfl⟩ := hnext
    refine ⟨haccounted, h.shmId, h.ptr.trans (Nat.le_add_right _ _), fun j a hnone ha => ?_⟩
    simp only [ipcIsmmalloc, Function.update_apply] at ha
    split at ha
    next => exact Option.some.inj ha ▸ h.ptr
    next => exact h.later j a hnone ha
  | delete i =>
    simp only [ismNext, Option.ite_none_right_eq_some, Option.some.injEq] at hnext
    obtain ⟨-, rfl⟩ := hnext
    exact ⟨haccounted, h.shmId, h.ptr, h.later⟩
  | procCreate res =>
    have hcreate : ipcIsmcreate s s.shmRequired res = s := if_pos (h.shmId ▸ hattached)
    simp only [ismNext, hcreate, ite_self, Option.some.injEq] at hnext
    exact hnext ▸ h
  | procShutdown =>
    have hzero : s.shmRequired = 0 := by
      rw [h.accounted.required, show s.live = ∅ from hgraceful, Finset.sum_empty]
    have hsame : s' = s := by
      simp only [ismNext, hzero, ne_eq, not_true_eq_false, if_false, Option.some.injEq] at hnext
      exact hnext.symm
    exact hsame ▸ h

/-- The pool that the first run of a session has used up outlives it. When no thread is left at a
shutdown, nothing is required any more and the pool is not deleted, so that all memory that a thread
of a later run gets lies behind the end of the pool. -/
theorem ismRun_later {first later : List (IsmShm τ × IsmEvent τ)} {u t : IsmShm τ}
    (h : IsmRun first u) (hfirst : ∀ x ∈ first, FirstRun True x.1 x.2)
    (hmade : u.ismLocked = false) (hall : ∀ i ∈ u.live, u.tfMem i ≠ none)
    (hlater : Trace.Run ismNext (· = u) later t) (hgraceful : ∀ x ∈ later, Graceful x.1 x.2) :
    t.shmId = u.shmId ∧ ∀ i a, u.tfMem i = none → t.tfMem i = some a →
      u.shmAddr + u.shmSize ≤ a := by
  obtain ⟨order, hp⟩ := (IsmRun.inv h hfirst).unlocked hmade
  have hwaiting : u.waiting = ∅ := Finset.filter_eq_empty_iff.mpr fun i hi hn => hall i hi hn
  have hfull := hp.full trivial
  rw [hwaiting, Finset.sum_empty, add_zero] at hfull
  have hstays : PoolStays u t := by
    refine hlater.invariant (I := fun _ s => PoolStays u s) hgraceful ?_ ?_
    · rintro s rfl
      refine ⟨ismRun_accounted h, rfl, le_rfl, fun i a hn ha => ?_⟩
      exact absurd (ha.symm.trans hn) (Option.some_ne_none a)
    · exact fun _ _ _ _ hs hmeets hnext => hs.step hp.attached hmeets hnext
  refine ⟨hstays.shmId, fun i a hn ha => (Nat.add_le_add_left hfull _).trans ?_⟩
  rw [← hp.ptr]
  exact hstays.later i a hn ha

/-! ## Two threads, and one in the next run -/

def afterInit : IsmShm ℕ where
  shmId := none
  shmAddr := 0
  shmPtr := 0
  shmSize := 0
  shmAllocated := 0
  shmRequired := 0
  ismLocked := true
  defined := ∅
  live := ∅
  tfConstmemsize _ := 0
  tfMem _ := none

theorem afterInit_start : IsmStart afterInit := ⟨rfl, rfl, rfl, rfl, rfl, fun _ => rfl⟩

def twoBuffers : List (IsmEvent ℕ) :=
  [.createthread 0 16, .createthread 1 32, .procCreate (.attached 7 4096), .ismmalloc 1,
    .ismmalloc 0]

/-- The two threads have got their memory. -/
theorem twoBuffers_run (lossless : Prop) [Decidable lossless] {t : IsmShm ℕ}
    (ht : twoBuffers.foldlM (Trace.guarded (fun s e => decide (FirstRun lossless s e)) ismNext)
      afterInit = some t) :
    ∃ trace, IsmRun trace t ∧ ∀ x ∈ trace, FirstRun lossless x.1 x.2 := by
  obtain ⟨trace, hrun, -, hmeets⟩ := (Trace.Run.start afterInit_start).guarded
    (fun x hx => absurd hx List.not_mem_nil) ht
  exact ⟨trace, hrun, fun x hx => of_decide_eq_true (hmeets x hx)⟩

theorem ismRun_inside_two : ∃ t : IsmShm ℕ, t.tfMem 0 = some 4128 ∧
    t.shmAddr ≤ 4128 ∧ 4128 + threadMemsize t 0 ≤ t.shmAddr + t.shmSize := by
  have hrun : (twoBuffers.foldlM (Trace.guarded (fun s e => decide (FirstRun False s e)) ismNext)
      afterInit).map (fun s => s.tfMem 0) = some (some 4128) := by
    decide +kernel
  obtain ⟨t, ht, hmem⟩ := Option.map_eq_some_iff.mp hrun
  obtain ⟨trace, htrace, hfirst⟩ := twoBuffers_run False ht
  obtain ⟨hlow, hhigh, -⟩ := ismRun_inside htrace hfirst hmem
  exact ⟨t, hmem, hlow, hhigh⟩

def nextRun : List (IsmEvent ℕ) :=
  [.delete 0, .delete 1, .procShutdown, .createthread 2 8, .procCreate .failed, .ismmalloc 2]

/-- The third thread gets what lies right behind the pool. -/
theorem ismRun_later_third : ∃ u t : IsmShm ℕ, t.tfMem 2 = some 4144 ∧
    u.shmAddr + u.shmSize ≤ 4144 := by
  have hrun : ((twoBuffers.foldlM (Trace.guarded (fun s e => decide (FirstRun True s e)) ismNext)
      afterInit).bind fun u => (nextRun.foldlM (Trace.guarded (fun s e => decide (Graceful s e))
        ismNext) u).map fun t => (u.ismLocked, decide (∀ i ∈ u.live, u.tfMem i ≠ none),
          u.tfMem 2, t.tfMem 2)) = some (false, true, none, some 4144) := by
    decide +kernel
  obtain ⟨u, hu, hrest⟩ := Option.bind_eq_some_iff.mp hrun
  obtain ⟨t, ht, hview⟩ := Option.map_eq_some_iff.mp hrest
  obtain ⟨hmade, hview⟩ := Prod.mk.inj hview
  obtain ⟨hall, hview⟩ := Prod.mk.inj hview
  obtain ⟨hnone, hmem⟩ := Prod.mk.inj hview
  obtain ⟨first, hfirst, hmeets⟩ := twoBuffers_run True hu
  have hstart : Trace.Run ismNext (· = u) [] u := .start rfl
  obtain ⟨later, hlater, -, hgraceful⟩ := hstart.guarded
    (fun x hx => absurd hx List.not_mem_nil) ht
  have hbehind := (ismRun_later hfirst hmeets hmade (of_decide_eq_true hall) hlater
    fun x hx => of_decide_eq_true (hgraceful x hx)).2 2 4144 hnone hmem
  exact ⟨u, t, hmem, hbehind⟩

end Filebench
