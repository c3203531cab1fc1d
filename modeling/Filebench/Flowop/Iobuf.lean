import Filebench.Flowop.Library
import Filebench.Lib.Trace
import Filebench.Random.Randomno

/-! # Buffers

A flowop takes its buffer from the memory of its thread, at a random offset, or has one of its own.
It keeps on record the size that it last asked for, which may be less than what was allocated. -/
namespace Filebench

/-- The sizes of the blocks that are allocated, by their addresses. -/
abbrev Heap := ℕ → Option FbInt

/-- `free`, of an allocated block only. -/
def heapFree (heap : Heap) (a : ℕ) : Option Heap :=
  if heap a = none then none else some (Function.update heap a none)

/-- The heap, and the buffer of a flowop. -/
structure BufState where
  foBuf : Option ℕ
  foBufSize : FbInt
  heap : Heap

/-- A call, with the memory of the thread, the random number and what `malloc` returns. -/
structure IobufCall where
  tfMem : ℕ
  tfConstmemsize : FbInt
  iosize : FbInt
  random : BitVec 64
  malloc : Option ℕ

/-- Releases a buffer that is too small. -/
def BufState.freeSmall (s : BufState) (iosize : FbInt) : Option BufState :=
  match s.foBuf with
  | some buf =>
    if s.foBufSize < iosize then
      (heapFree s.heap buf).map fun heap => { s with foBuf := none, heap := heap }
    else some s
  | none => some s

/-- Allocates a buffer when there is none. -/
def BufState.ensure (s : BufState) (call : IobufCall) : Except FlowopRet ℕ × BufState :=
  match s.foBuf, call.malloc with
  | some buf, _ => (.ok buf, { s with foBufSize := call.iosize })
  | none, some buf =>
    (.ok buf, ⟨some buf, call.iosize, Function.update s.heap buf (some call.iosize)⟩)
  | none, none => (.error .error, s)

/-- `flowoplib_iobufsetup`, with the address of the buffer as its result. A division by zero or an
invalid `free` has none. -/
def flowoplibIobufsetup (call : IobufCall) (s : BufState) :
    Option (Except FlowopRet ℕ × BufState) :=
  if call.iosize = 0 then some (.error .error, s)
  else if call.tfConstmemsize ≠ 0 then do
    let r ← FbRandom.filebenchRandomno64 call.tfConstmemsize call.iosize (.urandom call.random)
    if r.ret = -1 then some (.error .error, s)
    else some (.ok (call.tfMem + r.randp.toNat), s)
  else (s.freeSmall call.iosize).map (·.ensure call)

/-- `flowop_destruct_generic`, with regard to the buffer. -/
def flowopDestructGeneric (s : BufState) : Option BufState :=
  match s.foBuf with
  | some buf => (heapFree s.heap buf).map fun heap => { s with foBuf := none, heap := heap }
  | none => some s

/-- What happens to a flowop and the heap. Others keep away from the block of the flowop. -/
inductive BufEvent where
  | iobufsetup (call : IobufCall)
  | destruct
  | other (heap : Heap)

def BufState.next (s : BufState) : BufEvent → Option BufState
  | .iobufsetup call => (flowoplibIobufsetup call s).map Prod.snd
  | .destruct => flowopDestructGeneric s
  | .other heap =>
    if ∀ buf ∈ s.foBuf, heap buf = s.heap buf then some { s with heap := heap } else none

/-- A flowop begins without a buffer. -/
abbrev BufRun : List (BufState × BufEvent) → BufState → Prop :=
  Trace.Run BufState.next fun s => s.foBuf = none

/-- The window that a call returns lies in the memory of the thread or in the block of the
flowop. -/
def InMemory (call : IobufCall) (s : BufState) (iobuf : ℕ) : Prop :=
  (call.tfMem ≤ iobuf ∧
    iobuf + call.iosize.toNat ≤ call.tfMem + call.tfConstmemsize.toNat) ∨
  ∃ buf size, s.foBuf = some buf ∧ s.heap buf = some size ∧ buf ≤ iobuf ∧
    iobuf + call.iosize.toNat ≤ buf + size.toNat

/-- The buffer is allocated, and at least as large as the record of its size. -/
def BufInv (s : BufState) : Prop :=
  ∀ buf ∈ s.foBuf, ∃ size, s.heap buf = some size ∧ s.foBufSize ≤ size

section calls

variable {s : BufState} {call : IobufCall}

theorem heapFree_some {heap : Heap} {a : ℕ} {size : FbInt} (h : heap a = some size) :
    heapFree heap a = some (Function.update heap a none) := by
  rw [heapFree, h, if_neg (Option.some_ne_none size)]

/-- What is left after the release is large enough. -/
theorem BufInv.freeSmall (h : BufInv s) (iosize : FbInt) : ∃ s', s.freeSmall iosize = some s' ∧
    ∀ buf ∈ s'.foBuf, ∃ size, s'.heap buf = some size ∧ iosize ≤ size := by
  unfold BufState.freeSmall
  cases hbuf : s.foBuf with
  | none =>
    refine ⟨s, rfl, fun buf hmem => ?_⟩
    rw [hbuf] at hmem
    cases hmem
  | some buf =>
    obtain ⟨size, hsize, hle⟩ := h buf hbuf
    by_cases hsmall : s.foBufSize < iosize
    · simp only [if_pos hsmall, heapFree_some hsize, Option.map_some]
      exact ⟨_, rfl, fun x hx => by cases hx⟩
    · simp only [if_neg hsmall]
      refine ⟨s, rfl, fun x hx => ?_⟩
      obtain rfl := Option.some.inj (hbuf.symm.trans hx)
      exact ⟨size, hsize, BitVec.le_trans (BitVec.not_lt.mp hsmall) hle⟩

/-- The block is large enough for the window, whether it is an old or a new one. -/
theorem ensure_inMemory
    (h : ∀ buf ∈ s.foBuf, ∃ size, s.heap buf = some size ∧ call.iosize ≤ size) :
    BufInv (s.ensure call).2 ∧
      ∀ iobuf, (s.ensure call).1 = .ok iobuf → InMemory call (s.ensure call).2 iobuf := by
  unfold BufState.ensure
  cases hbuf : s.foBuf with
  | some buf =>
    obtain ⟨size, hsize, hle⟩ := h buf hbuf
    constructor
    · intro x hx
      obtain rfl := Option.some.inj hx
      exact ⟨size, hsize, hle⟩
    · rintro iobuf hret
      obtain rfl := Except.ok.inj hret
      exact .inr ⟨_, size, rfl, hsize, le_rfl, Nat.add_le_add_left hle _⟩
  | none =>
    cases call.malloc with
    | some buf =>
      constructor
      · intro x hx
        obtain rfl := Option.some.inj hx
        exact ⟨call.iosize, Function.update_self .., BitVec.le_refl _⟩
      · rintro iobuf hret
        obtain rfl := Except.ok.inj hret
        exact .inr ⟨_, call.iosize, rfl, Function.update_self .., le_rfl, le_rfl⟩
    | none =>
      constructor
      · intro x hx
        rw [hbuf] at hx
        cases hx
      · intro iobuf hret
        cases hret

theorem BufInv.iobufsetup (h : BufInv s) (call : IobufCall) :
    ∃ ret s', flowoplibIobufsetup call s = some (ret, s') ∧ BufInv s' ∧
      ∀ iobuf, ret = .ok iobuf → InMemory call s' iobuf := by
  unfold flowoplibIobufsetup
  split
  · exact ⟨_, s, rfl, h, fun iobuf hret => by cases hret⟩
  · split
    · obtain ⟨r, hr, hzero, hfits⟩ := FbRandom.randomno_fits
        (FbRandom.le_randmax64 call.tfConstmemsize) call.iosize (.urandom call.random)
      rw [FbRandom.filebenchRandomno64, hr, Option.bind_eq_bind, Option.bind_some]
      rcases hzero with hzero | herr
      · rw [hzero, if_neg (by decide)]
        refine ⟨_, s, rfl, h, fun iobuf hret => .inl ?_⟩
        obtain rfl := Except.ok.inj hret
        have hroom := hfits hzero
        constructor <;> omega
      · rw [if_pos herr]
        exact ⟨_, s, rfl, h, fun iobuf hret => by cases hret⟩
    · obtain ⟨s', hfree, hs'⟩ := h.freeSmall call.iosize
      obtain ⟨hinv, hin⟩ := ensure_inMemory hs'
      rw [hfree]
      exact ⟨_, _, rfl, hinv, hin⟩

theorem BufInv.destruct (h : BufInv s) : ∃ s', flowopDestructGeneric s = some s' ∧ BufInv s' := by
  unfold flowopDestructGeneric
  cases hbuf : s.foBuf with
  | none => exact ⟨s, rfl, h⟩
  | some buf =>
    obtain ⟨size, hsize, -⟩ := h buf hbuf
    simp only [heapFree_some hsize, Option.map_some]
    exact ⟨_, rfl, fun x hx => by cases hx⟩

end calls

theorem BufInv.next {s s' : BufState} (h : BufInv s) {e : BufEvent} (hnext : s.next e = some s') :
    BufInv s' := by
  cases e with
  | iobufsetup call =>
    obtain ⟨ret, s₁, hcall, hinv, -⟩ := h.iobufsetup call
    rw [BufState.next, hcall] at hnext
    obtain rfl := Option.some.inj hnext
    exact hinv
  | destruct =>
    obtain ⟨s₁, hcall, hinv⟩ := h.destruct
    rw [BufState.next, hcall] at hnext
    obtain rfl := Option.some.inj hnext
    exact hinv
  | other heap =>
    rw [BufState.next, Option.ite_none_right_eq_some] at hnext
    obtain ⟨hkeep, hnext⟩ := hnext
    obtain rfl := Option.some.inj hnext
    intro buf hbuf
    obtain ⟨size, hsize, hle⟩ := h buf hbuf
    exact ⟨size, (hkeep buf hbuf).trans hsize, hle⟩

theorem BufRun.inv {trace : List (BufState × BufEvent)} {s : BufState} (h : BufRun trace s) :
    BufInv s := by
  refine Trace.Run.invariant (I := fun _ s => BufInv s) (P := fun _ _ => True) h
    (fun _ _ => trivial) ?_ fun trace s e s' hinv _ hnext => hinv.next hnext
  intro s hs buf hbuf
  rw [hs] at hbuf
  cases hbuf

/-- After any calls the next one is defined, and what it returns lies in allocated memory. -/
theorem bufRun_inMemory {trace : List (BufState × BufEvent)} {s : BufState} (h : BufRun trace s)
    (call : IobufCall) : ∃ ret s', flowoplibIobufsetup call s = some (ret, s') ∧
      ∀ iobuf, ret = .ok iobuf → InMemory call s' iobuf := by
  obtain ⟨ret, s', hcall, -, hin⟩ := h.inv.iobufsetup call
  exact ⟨ret, s', hcall, hin⟩

/-- A call with a private buffer of the given size. -/
def privateCall (iosize : FbInt) (malloc : Option ℕ) : IobufCall := ⟨0, 0, iosize, 0, malloc⟩

/-- The size shrinks and then grows again. -/
theorem bufRun_inMemory_three : ∃ trace s ret s', BufRun trace s ∧
    trace.map Prod.snd =
      [.iobufsetup (privateCall 50 none), .iobufsetup (privateCall 100 (some 4096))] ∧
    flowoplibIobufsetup (privateCall 80 (some 8192)) s = some (ret, s') ∧
      ∀ iobuf, ret = .ok iobuf → InMemory (privateCall 80 (some 8192)) s' iobuf := by
  have hgrow : BufState.next ⟨none, 0, fun _ => none⟩
      (.iobufsetup (privateCall 100 (some 4096))) =
        some ⟨some 4096, 100, Function.update (fun _ => none) 4096 (some 100)⟩ := rfl
  have hshrink : BufState.next ⟨some 4096, 100, Function.update (fun _ => none) 4096 (some 100)⟩
      (.iobufsetup (privateCall 50 none)) =
        some ⟨some 4096, 50, Function.update (fun _ => none) 4096 (some 100)⟩ := rfl
  have hrun : BufRun _ _ := .step (.step (.start rfl) hgrow) hshrink
  obtain ⟨ret, s', hret⟩ := bufRun_inMemory hrun (privateCall 80 (some 8192))
  exact ⟨_, _, ret, s', hrun, rfl, hret⟩

end Filebench
