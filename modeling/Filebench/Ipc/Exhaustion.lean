import Filebench.Ipc.Memory

/-! # When the allocator gives up

A search that starts at the only free object does not find it. -/
namespace Filebench

variable {memsize n : ℕ}

def Pool.Full (pool : Pool n) : Prop := ∀ i, pool.bitmap i = true

theorem Pool.free_eq_singleton {pool : Pool n} {i : Fin n} :
    pool.free = {i} ↔ pool.bitmap i = false ∧ ∀ j, j ≠ i → pool.bitmap j = true := by
  rw [Finset.eq_singleton_iff_unique_mem, Pool.mem_free]
  refine and_congr_right fun _ => forall_congr' fun j => ?_
  rw [Pool.mem_free, ← Bool.not_eq_true]
  exact not_imp_comm

/-- Null is right if and only if the search does not start at the only free object. -/
theorem Pool.ipcMallocFrom_reports (pool : Pool n) (startIdx : Fin n) :
    ((pool.ipcMallocFrom startIdx).1 = none ↔ pool.Full) ↔ pool.free ≠ {startIdx} := by
  rw [Pool.ipcMallocFrom_none_iff, ne_eq, Pool.free_eq_singleton]
  constructor
  · rintro h ⟨hfree, hothers⟩
    rw [h.mp hothers startIdx] at hfree
    cases hfree
  · intro h
    constructor
    · intro hothers i
      by_cases hi : i = startIdx
      · by_contra hfree
        rw [hi, Bool.not_eq_true] at hfree
        exact h ⟨hfree, hothers⟩
      · exact hothers i hi
    · intro hfull i _
      exact hfull i

theorem IpcShm.ipcMalloc_fst (layout : ObjLayout) (s : IpcShm memsize) (c : MallocCall memsize) :
    (s.ipcMalloc layout c).1 = none ↔ ((s.pool c.type).ipcMallocFrom c.startIdx).1 = none := by
  unfold IpcShm.ipcMalloc
  split
  next h => simp [h]
  next h => simp [h]

/-- In every history a call reports exactly the exhaustion of its type, unless the only free object
is the one at which its search starts: the one allocated last when it was called. -/
theorem ipcRun_exhausted {layout : ObjLayout} {trace : List (IpcShm memsize × IpcEvent)}
    {s : IpcShm memsize} (_ : IpcRun layout trace s) {proc : ℕ} {c : MallocCall memsize}
    (_ : s.call proc = some c) :
    ((s.ipcMalloc layout c).1 = none ↔ ∀ i, (s.pool c.type).bitmap i = true) ↔
      (s.pool c.type).free ≠ {c.startIdx} := by
  rw [IpcShm.ipcMalloc_fst]
  exact (s.pool c.type).ipcMallocFrom_reports c.startIdx

/-! ## A history with one object left -/

/-- After `k` allocations from the start. -/
def filledTo (n k : ℕ) (hk : k < n) : Pool n where
  bitmap i := decide (1 ≤ i.val ∧ i.val ≤ k)
  lastbitmapindex := ⟨k, hk⟩

theorem scanBitmap_next {bitmap : Fin n → Bool} (start : Fin n) {i : Fin n} {k : ℕ} (hpos : 0 < k)
    (h : bitmap (nextIndex i) = false) : scanBitmap bitmap start k i = nextIndex i := by
  obtain ⟨k, rfl⟩ := Nat.exists_eq_add_of_lt hpos
  rw [Nat.zero_add, scanBitmap, if_pos (.inl h)]

theorem filledTo_malloc {k : ℕ} (hk : k + 1 < n) :
    (filledTo n k (Nat.lt_of_succ_lt hk)).ipcMallocFrom ⟨k, Nat.lt_of_succ_lt hk⟩ =
      (some ⟨k + 1, hk⟩, filledTo n (k + 1) hk) := by
  have hnext : nextIndex ⟨k, Nat.lt_of_succ_lt hk⟩ = ⟨k + 1, hk⟩ := dif_pos hk
  have hfree : (filledTo n k (Nat.lt_of_succ_lt hk)).bitmap
      (nextIndex ⟨k, Nat.lt_of_succ_lt hk⟩) = false := by
    rw [hnext]
    simp [filledTo]
  have hscan := scanBitmap_next ⟨k, Nat.lt_of_succ_lt hk⟩ (Nat.zero_lt_of_lt hk) hfree
  rw [hnext] at hscan
  have hbitmap : Function.update (filledTo n k (Nat.lt_of_succ_lt hk)).bitmap ⟨k + 1, hk⟩ true =
      (filledTo n (k + 1) hk).bitmap := by
    funext i
    by_cases hi : i = ⟨k + 1, hk⟩
    · rw [hi, Function.update_self]
      simp [filledTo]
    · rw [Function.update_of_ne hi]
      have hne : i.val ≠ k + 1 := fun h => hi (Fin.ext h)
      simp only [filledTo, decide_eq_decide]
      omega
  simp only [Pool.ipcMallocFrom, hscan, hbitmap]
  rw [if_neg (by simp)]
  rfl

/-- The last allocation takes the first object. -/
theorem filledTo_malloc_last (h : 1 < n) :
    (filledTo n (n - 1) (by omega)).ipcMallocFrom ⟨n - 1, by omega⟩ =
      (some ⟨0, by omega⟩, ⟨fun _ => true, ⟨0, by omega⟩⟩) := by
  have hnext : nextIndex (⟨n - 1, by omega⟩ : Fin n) = ⟨0, by omega⟩ :=
    dif_neg (by simp only; omega)
  have hfree : (filledTo n (n - 1) (by omega)).bitmap
      (nextIndex (⟨n - 1, by omega⟩ : Fin n)) = false := by
    rw [hnext]
    simp [filledTo]
  have hscan := scanBitmap_next ⟨n - 1, by omega⟩ (Nat.zero_lt_of_lt h) hfree
  rw [hnext] at hscan
  have hbitmap : Function.update (filledTo n (n - 1) (by omega)).bitmap ⟨0, by omega⟩ true =
      fun _ => true := by
    funext i
    by_cases hi : i = ⟨0, by omega⟩
    · rw [hi, Function.update_self]
    · rw [Function.update_of_ne hi]
      have hne : i.val ≠ 0 := fun h' => hi (Fin.ext h')
      simp only [filledTo, decide_eq_true_eq]
      omega
  simp only [Pool.ipcMallocFrom, hscan, hbitmap]
  rw [if_neg (by simp only [Fin.mk.injEq]; omega)]

/-! ### As a run -/

/-- A history in which the pool of procflows came to be as given. -/
structure Filling (layout : ObjLayout) (pool : Pool memsize) (s : IpcShm memsize) : Prop where
  run : ∃ trace, IpcRun layout trace s
  pool : s.pool .procflow = pool
  call : s.call 0 = none

variable {layout : ObjLayout} {pool pool' : Pool memsize} {s : IpcShm memsize}

theorem IpcShm.next_locked {proc : ℕ} {c : MallocCall memsize}
    {i : Fin (filebenchSizes memsize c.type)} {pool : Pool (filebenchSizes memsize c.type)}
    (hcall : s.call proc = some c)
    (hmalloc : (s.pool c.type).ipcMallocFrom c.startIdx = (some i, pool)) :
    s.next layout (.locked proc) = some { s.setPool c.type pool with
      call := Function.update s.call proc none
      live := insert (c.type, layout.addr c.type i) s.live } := by
  simp only [IpcShm.next, hcall, IpcShm.ipcMalloc, hmalloc]
  rfl

theorem Filling.malloc {i : Fin memsize} (h : Filling layout pool s)
    (hmalloc : pool.ipcMallocFrom pool.lastbitmapindex = (some i, pool')) :
    ∃ s', Filling layout pool' s' ∧ (.procflow, layout.addr .procflow i) ∈ s'.live := by
  obtain ⟨trace, hrun⟩ := h.run
  obtain rfl := h.pool
  have hcall := hrun.step (e := .malloc 0 .procflow) (by rw [IpcShm.next, h.call])
  have hlocked := hcall.step (IpcShm.next_locked (s.enter_call 0 .procflow) hmalloc)
  refine ⟨_, ⟨⟨_, hlocked⟩, ?_, ?_⟩, ?_⟩
  · change Function.update s.pool .procflow _ .procflow = _
    rw [Function.update_self]
    rfl
  · change Function.update (s.enter 0 .procflow).call 0 none 0 = none
    rw [Function.update_self]
  · exact Finset.mem_insert_self ..

theorem Filling.filledTo {k : ℕ} (hk : k < memsize)
    (h : Filling layout (filledTo memsize 0 (Nat.zero_lt_of_lt hk)) s) :
    ∃ s', Filling layout (Filebench.filledTo memsize k hk) s' := by
  induction k with
  | zero => exact ⟨s, h⟩
  | succ k ih =>
    obtain ⟨s', hs'⟩ := ih (Nat.lt_of_succ_lt hk) h
    obtain ⟨s'', hs'', -⟩ := hs'.malloc (filledTo_malloc hk)
    exact ⟨s'', hs''⟩

/-- All objects are allocated, the first one last. -/
theorem Filling.full (hk : 1 < memsize)
    (h : Filling layout (Filebench.filledTo memsize 0 (Nat.zero_lt_of_lt hk)) s) :
    ∃ s', Filling layout ⟨fun _ => true, ⟨0, Nat.zero_lt_of_lt hk⟩⟩ s' ∧
      (.procflow, layout.addr .procflow 0) ∈ s'.live := by
  obtain ⟨s', hs'⟩ := h.filledTo (k := memsize - 1) (by omega)
  exact hs'.malloc (filledTo_malloc_last hk)

/-- The first object is freed again. -/
theorem Filling.free (hk : 0 < memsize) (h : Filling layout pool s)
    (hlive : (.procflow, layout.addr .procflow 0) ∈ s.live) :
    ∃ s', Filling layout (pool.ipcFree ⟨0, hk⟩) s' := by
  obtain ⟨trace, hrun⟩ := h.run
  obtain rfl := h.pool
  have hitem : layout.item .procflow (layout.addr .procflow 0) = 0 :=
    layout.item_addr (ObjType.ne_avd rfl) _
  have hfreed : s.ipcFree layout .procflow (layout.addr .procflow 0) =
      some (s.setPool .procflow ((s.pool .procflow).ipcFree ⟨0, hk⟩)) :=
    IpcShm.ipcFree_eq (⟨0, hk⟩ : Fin (filebenchSizes memsize .procflow)) hitem
  have hfree := hrun.step (e := .free 0 .procflow (layout.addr .procflow 0)) (by
    rw [IpcShm.next, if_pos ⟨h.call, rfl, hlive⟩, hfreed]
    rfl)
  exact ⟨_, ⟨_, hfree⟩, Function.update_self ObjType.procflow _ s.pool, h.call⟩

theorem clearedShm_filling : Filling packedLayout (filledTo 4096 0 (by decide)) clearedShm := by
  refine ⟨⟨_, clearedShm_start⟩, ?_, rfl⟩
  change (⟨fun _ => false, ⟨0, _⟩⟩ : Pool 4096) = _
  rw [filledTo]
  congr 1
  funext i
  simp
  omega

/-- With the first object free, all others allocated and the search starting at it, a call finds
nothing. -/
theorem ipcMalloc_misses : ¬ ∀ (layout : ObjLayout) trace (s : IpcShm 4096) proc c,
    IpcRun layout trace s → s.call proc = some c →
      ((s.ipcMalloc layout c).1 = none ↔ ∀ i, (s.pool c.type).bitmap i = true) := by
  intro h
  obtain ⟨s₁, hs₁, hlive⟩ := clearedShm_filling.full (by decide)
  obtain ⟨s, hs⟩ := hs₁.free (by decide) hlive
  obtain ⟨trace, hrun⟩ := hs.run
  have hcalled := hrun.step (e := .malloc 0 .procflow) (by rw [IpcShm.next, hs.call])
  have hreports := h packedLayout _ _ 0 _ hcalled (s.enter_call 0 .procflow)
  rw [IpcShm.ipcMalloc_fst] at hreports
  refine (Pool.ipcMallocFrom_reports _ _).mp hreports ?_
  change (s.pool .procflow).free = {(s.pool .procflow).lastbitmapindex}
  rw [hs.pool]
  refine Pool.free_eq_singleton.mpr ⟨by simp [Pool.ipcFree], fun j hj => ?_⟩
  exact Function.update_of_ne hj ..

/-- The first allocation finds an object. -/
theorem ipcRun_exhausted_first :
    ((clearedShm.ipcMalloc packedLayout ⟨.procflow, ⟨0, by decide⟩⟩).1 = none ↔
      ∀ i, (clearedShm.pool .procflow).bitmap i = true) := by
  have hcalled := clearedShm_start.step (e := .malloc 0 .procflow) rfl
  refine (@ipcRun_exhausted _ _ _ _ hcalled 0 _ rfl).mpr fun h => ?_
  have hone : (1 : Fin 4096) ∈ ({0} : Finset (Fin 4096)) := h ▸ Pool.mem_free.mpr rfl
  exact absurd (Finset.mem_singleton.mp hone) (by decide)

end Filebench
