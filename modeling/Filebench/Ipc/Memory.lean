import Filebench.Ipc.Pool
import Filebench.Lib.Trace

/-! # The allocator of shared memory

Every process allocates from the same pools. A call of `ipc_malloc` reads where the last allocation
of its type was before it takes the lock, so that the search can start at an older place. A call of
`ipc_free` gets an address and works out the object from it. -/
namespace Filebench

inductive ObjType where
  | procflow
  | threadflow
  | flowop
  | avd
  | variable
  | fileset
  | filesetentry
  | randdist
  deriving DecidableEq, Repr

/-- By `FILEBENCH_MEMSIZE`, which is 4096 where processes are used and 2048 where threads are. -/
def filebenchSizes (memsize : ℕ) : ObjType → ℕ
  | .procflow => memsize
  | .threadflow => 64 * memsize
  | .flowop => 64 * memsize
  | .avd => memsize * 2
  | .variable => memsize
  | .fileset => memsize
  | .filesetentry => 1024 * 1024
  | .randdist => memsize / 4

/-- The types of the objects that are freed somewhere. -/
def ObjType.freed : ObjType → Bool
  | .procflow | .threadflow | .flowop | .fileset | .filesetentry => true
  | .avd | .variable | .randdist => false

def filebenchMaxbitmap : ℕ := 1024 * 1024

/-- Where the objects of a type begin, how long one is, and how long an `avd_t` is: the address of
an attribute value descriptor, which itself has a type and a value. -/
structure ObjLayout where
  base : ObjType → ℕ
  sizeof : ObjType → ℕ
  avdT : ℕ
  base_pos : ∀ type, 0 < base type
  pos : ∀ type, 0 < sizeof type
  avdT_pos : 0 < avdT
  avdT_le : 2 * avdT ≤ sizeof .avd

def ObjLayout.addr (layout : ObjLayout) (type : ObjType) (i : ℕ) : ℕ :=
  layout.base type + i * layout.sizeof type

/-- The `size` of `ipc_free` -/
def ObjLayout.freeSize (layout : ObjLayout) : ObjType → ℕ
  | .avd => layout.avdT
  | type => layout.sizeof type

def ObjLayout.item (layout : ObjLayout) (type : ObjType) (addr : ℕ) : ℕ :=
  (addr - layout.base type) / layout.freeSize type

/-- The part of `ipc_malloc` under the lock. -/
def Pool.ipcMallocFrom {n : ℕ} (pool : Pool n) (startIdx : Fin n) : Option (Fin n) × Pool n :=
  let i := scanBitmap pool.bitmap startIdx n startIdx
  if i = startIdx then (none, pool) else (some i, ⟨Function.update pool.bitmap i true, i⟩)

/-- A call of `ipc_malloc` that waits for the lock. -/
structure MallocCall (memsize : ℕ) where
  type : ObjType
  startIdx : Fin (filebenchSizes memsize type)

/-- The pools, the calls of the processes and the objects that were handed out and not freed. -/
structure IpcShm (memsize : ℕ) where
  pool : (type : ObjType) → Pool (filebenchSizes memsize type)
  call : ℕ → Option (MallocCall memsize)
  live : Finset (ObjType × ℕ)

inductive IpcEvent where
  | malloc (proc : ℕ) (type : ObjType)
  | locked (proc : ℕ)
  | free (proc : ℕ) (type : ObjType) (addr : ℕ)

section

variable {memsize : ℕ}

def IpcShm.setPool (s : IpcShm memsize) (type : ObjType)
    (pool : Pool (filebenchSizes memsize type)) : IpcShm memsize :=
  { s with pool := Function.update s.pool type pool }

/-- What a call returns once it has the lock. -/
def IpcShm.ipcMalloc (layout : ObjLayout) (s : IpcShm memsize) (c : MallocCall memsize) :
    Option ℕ × IpcShm memsize :=
  match (s.pool c.type).ipcMallocFrom c.startIdx with
  | (none, pool) => (none, s.setPool c.type pool)
  | (some i, pool) => (some (layout.addr c.type i), s.setPool c.type pool)

/-- The bits past the objects of a type are never set. -/
def IpcShm.ipcFree (layout : ObjLayout) (s : IpcShm memsize) (type : ObjType) (addr : ℕ) :
    Option (IpcShm memsize) :=
  if addr = 0 then some s
  else if h : layout.item type addr < filebenchSizes memsize type then
    some (s.setPool type ((s.pool type).ipcFree ⟨layout.item type addr, h⟩))
  else if layout.item type addr < filebenchMaxbitmap then some s
  else none

/-- The part of `ipc_malloc` before the lock. -/
def IpcShm.enter (s : IpcShm memsize) (proc : ℕ) (type : ObjType) : IpcShm memsize :=
  { s with call := Function.update s.call proc (some ⟨type, (s.pool type).lastbitmapindex⟩) }

/-- A process frees live objects of the types that are freed, and no other. -/
def IpcShm.next (layout : ObjLayout) (s : IpcShm memsize) : IpcEvent → Option (IpcShm memsize)
  | .malloc proc type =>
    match s.call proc with
    | none => some (s.enter proc type)
    | some _ => none
  | .locked proc =>
    match s.call proc with
    | none => none
    | some c =>
      let (addr, s) := s.ipcMalloc layout c
      let s := { s with call := Function.update s.call proc none }
      match addr with
      | none => some s
      | some addr => some { s with live := insert (c.type, addr) s.live }
  | .free proc type addr =>
    if s.call proc = none ∧ type.freed ∧ (type, addr) ∈ s.live then do
      let s ← s.ipcFree layout type addr
      some { s with live := s.live.erase (type, addr) }
    else none

/-- Shared memory as it was initialized. -/
structure IpcStart (s : IpcShm memsize) : Prop where
  bitmap : ∀ type i, (s.pool type).bitmap i = false
  lastbitmapindex : ∀ type, (s.pool type).lastbitmapindex.val = 0
  call : ∀ proc, s.call proc = none
  live : s.live = ∅

/-- The objects handed out are the ones with a bit. -/
def BitmapLive (layout : ObjLayout) (s : IpcShm memsize) : Prop :=
  ∀ type addr, (type, addr) ∈ s.live ↔
    ∃ i, (s.pool type).bitmap i = true ∧ addr = layout.addr type i

abbrev IpcRun (layout : ObjLayout) : List (IpcShm memsize × IpcEvent) → IpcShm memsize → Prop :=
  Trace.Run (IpcShm.next layout) IpcStart

/-! ## Addresses -/

theorem ObjLayout.addr_ne_zero (layout : ObjLayout) (type : ObjType) (i : ℕ) :
    layout.addr type i ≠ 0 := by
  have hbase := layout.base_pos type
  rw [ObjLayout.addr]
  omega

theorem ObjLayout.freeSize_eq (layout : ObjLayout) {type : ObjType} (h : type ≠ .avd) :
    layout.freeSize type = layout.sizeof type := by
  cases type
  case avd => exact absurd rfl h
  all_goals rfl

theorem ObjLayout.item_addr (layout : ObjLayout) {type : ObjType} (h : type ≠ .avd) (i : ℕ) :
    layout.item type (layout.addr type i) = i := by
  rw [ObjLayout.item, ObjLayout.addr, Nat.add_sub_cancel_left, layout.freeSize_eq h,
    Nat.mul_div_cancel _ (layout.pos type)]

/-- The object that `ipc_free` works out from the address of a descriptor is twice as far. -/
theorem ObjLayout.two_mul_le_item (layout : ObjLayout) (i : ℕ) :
    2 * i ≤ layout.item .avd (layout.addr .avd i) := by
  rw [ObjLayout.item, ObjLayout.addr, Nat.add_sub_cancel_left]
  refine (Nat.le_div_iff_mul_le layout.avdT_pos).mpr ?_
  calc 2 * i * layout.avdT = i * (2 * layout.avdT) := by ring
    _ ≤ i * layout.sizeof .avd := Nat.mul_le_mul_left i layout.avdT_le

theorem ObjLayout.addr_injective (layout : ObjLayout) (type : ObjType) :
    Function.Injective (layout.addr type) := by
  intro i j h
  exact Nat.eq_of_mul_eq_mul_right (layout.pos type) (Nat.add_left_cancel h)

/-! ## The search -/

variable {n : ℕ}

theorem Pool.ipcMalloc_eq (pool : Pool n) :
    pool.ipcMalloc = pool.ipcMallocFrom pool.lastbitmapindex := rfl

/-- Wherever the search starts, it gets to an object that is free. -/
theorem Pool.ipcMallocFrom_some {pool pool' : Pool n} {startIdx i : Fin n}
    (h : pool.ipcMallocFrom startIdx = (some i, pool')) :
    pool.bitmap i = false ∧ pool' = ⟨Function.update pool.bitmap i true, i⟩ := by
  have hscan := scanBitmap_from pool.bitmap startIdx (k := n) (j := 0) (Nat.zero_add n)
  simp only [Pool.ipcMallocFrom] at h
  split at h
  next => cases (Prod.mk.inj h).1
  next hne =>
    obtain ⟨hi, rfl⟩ := Prod.mk.inj h
    obtain rfl := Option.some.inj hi
    exact ⟨hscan.1 hne, rfl⟩

/-- The object at which the search starts is not looked at. -/
theorem Pool.ipcMallocFrom_none_iff (pool : Pool n) (startIdx : Fin n) :
    (pool.ipcMallocFrom startIdx).1 = none ↔ ∀ i, i ≠ startIdx → pool.bitmap i = true := by
  have hscan := scanBitmap_from pool.bitmap startIdx (k := n) (j := 0) (Nat.zero_add n)
  simp only [Pool.ipcMallocFrom]
  constructor
  · intro h i hi
    split at h
    next heq =>
      obtain ⟨j, hpos, hj, rfl⟩ := exists_iterate_nextIndex hi
      exact hscan.2 heq j hpos hj
    next => cases h
  · intro h
    split
    next => rfl
    next hne =>
      have hfree : pool.bitmap (scanBitmap pool.bitmap startIdx n startIdx) = false :=
        hscan.1 hne
      rw [h _ hne] at hfree
      cases hfree

/-! ## The steps -/

section steps

variable {layout : ObjLayout} {s s' : IpcShm memsize}

@[simp] theorem IpcShm.setPool_self (type : ObjType) (pool : Pool (filebenchSizes memsize type)) :
    (s.setPool type pool).pool type = pool := Function.update_self ..

@[simp] theorem IpcShm.enter_call (proc : ℕ) (type : ObjType) :
    (s.enter proc type).call proc = some ⟨type, (s.pool type).lastbitmapindex⟩ :=
  Function.update_self ..

/-- An allocation that fails leaves the pools. -/
theorem IpcShm.ipcMalloc_none {c : MallocCall memsize} (h : s.ipcMalloc layout c = (none, s')) :
    s' = s := by
  unfold IpcShm.ipcMalloc at h
  split at h
  next pool hmalloc =>
    obtain rfl := (Prod.mk.inj h).2
    rw [Pool.ipcMallocFrom] at hmalloc
    split at hmalloc
    next =>
      obtain rfl := (Prod.mk.inj hmalloc).2
      rw [IpcShm.setPool, Function.update_eq_self]
    next => cases (Prod.mk.inj hmalloc).1
  next => cases (Prod.mk.inj h).1

theorem IpcShm.ipcMalloc_some {c : MallocCall memsize} {addr : ℕ}
    (h : s.ipcMalloc layout c = (some addr, s')) :
    ∃ i : Fin (filebenchSizes memsize c.type), addr = layout.addr c.type i ∧
      (s.pool c.type).bitmap i = false ∧
      s' = s.setPool c.type ⟨Function.update (s.pool c.type).bitmap i true, i⟩ := by
  unfold IpcShm.ipcMalloc at h
  split at h
  next => cases (Prod.mk.inj h).1
  next i pool hmalloc =>
    obtain ⟨haddr, rfl⟩ := Prod.mk.inj h
    obtain ⟨hfree, rfl⟩ := Pool.ipcMallocFrom_some hmalloc
    exact ⟨i, (Option.some.inj haddr).symm, hfree, rfl⟩

theorem ObjType.ne_avd {type : ObjType} (h : type.freed = true) : type ≠ .avd := by
  rintro rfl
  cases h

theorem IpcShm.ipcFree_eq {type : ObjType} (i : Fin (filebenchSizes memsize type))
    (h : layout.item type (layout.addr type i) = i) :
    s.ipcFree layout type (layout.addr type i) =
      some (s.setPool type ((s.pool type).ipcFree i)) := by
  have hlt : layout.item type (layout.addr type i) < filebenchSizes memsize type := by
    rw [h]
    exact i.isLt
  rw [IpcShm.ipcFree, if_neg (layout.addr_ne_zero type i), dif_pos hlt]
  simp only [h]

theorem BitmapLive.notMem {layout : ObjLayout} {s : IpcShm memsize} (h : BitmapLive layout s)
    {type : ObjType} {i : Fin (filebenchSizes memsize type)}
    (hi : (s.pool type).bitmap i = false) : (type, layout.addr type i) ∉ s.live := by
  intro hmem
  obtain ⟨j, hj, heq⟩ := (h type _).mp hmem
  obtain rfl := Fin.ext (layout.addr_injective type heq)
  rw [hi] at hj
  cases hj

theorem BitmapLive.malloc (h : BitmapLive layout s) {type : ObjType}
    {i : Fin (filebenchSizes memsize type)} {call} :
    BitmapLive layout { s.setPool type ⟨Function.update (s.pool type).bitmap i true, i⟩ with
      call := call, live := insert (type, layout.addr type i) s.live } := by
  intro type' addr
  rw [Finset.mem_insert, Prod.mk.injEq, h type' addr]
  by_cases htype : type' = type
  · subst htype
    simp only [IpcShm.setPool, Function.update_self, true_and]
    constructor
    · rintro (rfl | ⟨j, hj, rfl⟩)
      · exact ⟨i, Function.update_self .., rfl⟩
      · refine ⟨j, ?_, rfl⟩
        by_cases hji : j = i
        · rw [hji, Function.update_self]
        · rw [Function.update_of_ne hji, hj]
    · rintro ⟨j, hj, rfl⟩
      by_cases hji : j = i
      · exact .inl (by rw [hji])
      · rw [Function.update_of_ne hji] at hj
        exact .inr ⟨j, hj, rfl⟩
  · simp [IpcShm.setPool, htype]

theorem BitmapLive.free (h : BitmapLive layout s) {type : ObjType}
    {i : Fin (filebenchSizes memsize type)} :
    BitmapLive layout { s.setPool type ((s.pool type).ipcFree i) with
      live := s.live.erase (type, layout.addr type i) } := by
  intro type' addr
  rw [Finset.mem_erase, h type' addr, ne_eq, Prod.mk.injEq]
  by_cases htype : type' = type
  · subst htype
    simp only [IpcShm.setPool, Function.update_self, Pool.ipcFree, true_and]
    constructor
    · rintro ⟨hne, j, hj, rfl⟩
      have hji : j ≠ i := fun hji => hne (by rw [hji])
      exact ⟨j, by rwa [Function.update_of_ne hji], rfl⟩
    · rintro ⟨j, hj, rfl⟩
      by_cases hji : j = i
      · rw [hji, Function.update_self] at hj
        cases hj
      · rw [Function.update_of_ne hji] at hj
        exact ⟨fun heq => hji (Fin.ext (layout.addr_injective _ heq)), j, hj, rfl⟩
  · simp [IpcShm.setPool, htype]

/-- Every call keeps the bitmap of its type to the objects handed out. -/
theorem BitmapLive.next {e : IpcEvent} (h : BitmapLive layout s)
    (hnext : s.next layout e = some s') : BitmapLive layout s' := by
  cases e with
  | malloc proc type =>
    simp only [IpcShm.next] at hnext
    split at hnext
    next =>
      obtain rfl := Option.some.inj hnext
      exact h
    next => cases hnext
  | locked proc =>
    simp only [IpcShm.next] at hnext
    split at hnext
    next => cases hnext
    next c hcall =>
      obtain ⟨⟨addr, s₁⟩, hm⟩ : ∃ r, s.ipcMalloc layout c = r := ⟨_, rfl⟩
      rw [hm] at hnext
      cases addr with
      | none =>
        obtain rfl := Option.some.inj hnext
        obtain rfl := IpcShm.ipcMalloc_none hm
        exact h
      | some addr =>
        obtain rfl := Option.some.inj hnext
        obtain ⟨i, rfl, -, rfl⟩ := IpcShm.ipcMalloc_some hm
        exact h.malloc
  | free proc type addr =>
    simp only [IpcShm.next, Option.ite_none_right_eq_some] at hnext
    obtain ⟨⟨-, hfreed, hlive⟩, hnext⟩ := hnext
    obtain ⟨s₁, hfree, hnext⟩ := Option.bind_eq_some_iff.mp hnext
    obtain rfl := Option.some.inj hnext
    obtain ⟨i, -, rfl⟩ := (h type addr).mp hlive
    rw [IpcShm.ipcFree_eq i (layout.item_addr (ObjType.ne_avd hfreed) i)] at hfree
    obtain rfl := Option.some.inj hfree
    exact h.free

end steps

theorem IpcStart.bitmapLive {s : IpcShm memsize} (h : IpcStart s) (layout : ObjLayout) :
    BitmapLive layout s := by
  intro type addr
  simp [h.live, h.bitmap]

theorem IpcRun.bitmapLive {layout : ObjLayout} {trace : List (IpcShm memsize × IpcEvent)}
    {s : IpcShm memsize} (h : IpcRun layout trace s) : BitmapLive layout s :=
  h.invariant (I := fun _ s => BitmapLive layout s) (P := fun _ _ => True) (fun _ _ => trivial)
    (fun _ hs => hs.bitmapLive layout) fun _ _ _ _ hI _ hnext => hI.next hnext

/-- In every interleaving the slots with a bit are those of the live objects, and an allocation
returns the address of none of them. -/
theorem ipcRun_live {layout : ObjLayout} {trace : List (IpcShm memsize × IpcEvent)}
    {s : IpcShm memsize} (h : IpcRun layout trace s) :
    (∀ type i, (s.pool type).bitmap i = true ↔ (type, layout.addr type i) ∈ s.live) ∧
    (∀ type addr, (type, addr) ∈ s.live → ∃ i : Fin (filebenchSizes memsize type),
      addr = layout.addr type i) ∧
    ∀ proc c addr s', s.call proc = some c → s.ipcMalloc layout c = (some addr, s') →
      (c.type, addr) ∉ s.live := by
  have hlive := h.bitmapLive
  refine ⟨fun type i => ⟨fun hi => ?_, fun hmem => ?_⟩, fun type addr hmem => ?_, ?_⟩
  · exact (hlive type _).mpr ⟨i, hi, rfl⟩
  · by_contra hi
    exact hlive.notMem (Bool.not_eq_true _ ▸ hi) hmem
  · obtain ⟨i, -, haddr⟩ := (hlive type addr).mp hmem
    exact ⟨i, haddr⟩
  · intro proc c addr s' _ hmalloc
    obtain ⟨i, rfl, hfree, -⟩ := IpcShm.ipcMalloc_some hmalloc
    exact hlive.notMem hfree

end

/-- Shared memory as `ipc_init` leaves it. -/
def clearedShm : IpcShm 4096 where
  pool type := ⟨fun _ => false, ⟨0, by cases type <;> decide⟩⟩
  call _ := none
  live := ∅

def packedLayout : ObjLayout where
  base _ := 1
  sizeof _ := 2
  avdT := 1
  base_pos _ := Nat.one_pos
  pos _ := Nat.two_pos
  avdT_pos := Nat.one_pos
  avdT_le := le_rfl

theorem clearedShm_start : IpcRun packedLayout [] clearedShm :=
  .start ⟨fun _ _ => rfl, fun _ => rfl, fun _ => rfl, rfl⟩

/-- Two processes that start their search at the same place. -/
def bothSearch : List IpcEvent := [.malloc 0 .procflow, .malloc 1 .procflow, .locked 0, .locked 1]

theorem ipcRun_live_both : ∃ s : IpcShm 4096,
    (.procflow, packedLayout.addr .procflow 1) ∈ s.live ∧
      (.procflow, packedLayout.addr .procflow 2) ∈ s.live := by
  have hrun : (bothSearch.foldlM (IpcShm.next packedLayout) clearedShm).map
      (fun s => ((s.pool .procflow).bitmap ⟨1, by decide⟩,
        (s.pool .procflow).bitmap ⟨2, by decide⟩)) = some (true, true) := by
    decide +kernel
  obtain ⟨s, hs, hbits⟩ := Option.map_eq_some_iff.mp hrun
  obtain ⟨trace, htrace, -⟩ := clearedShm_start.events (P := fun _ => True)
    (fun _ hx => absurd hx List.not_mem_nil) hs fun _ _ _ => trivial
  obtain ⟨hfirst, hsecond⟩ := Prod.mk.inj hbits
  have hlive := (ipcRun_live htrace).1 .procflow
  exact ⟨s, (hlive _).mp hfirst, (hlive _).mp hsecond⟩

end Filebench
