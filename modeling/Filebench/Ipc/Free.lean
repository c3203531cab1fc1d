import Filebench.Ipc.Memory

/-! # Freeing what was allocated

`ipc_free` takes the number of an object from its address. For a descriptor it divides by the
length of an `avd_t`, which is a pointer, and gets past the object. -/
namespace Filebench

variable {memsize : ℕ} {layout : ObjLayout} {s s' : IpcShm memsize} {type : ObjType}

/-- The bit of one object is cleared, and no other bit of any type has changed. -/
def IpcShm.Cleared (s s' : IpcShm memsize) (type : ObjType) (i : ℕ) : Prop :=
  ∀ ty (j : Fin (filebenchSizes memsize ty)), (s'.pool ty).bitmap j =
    if ty = type ∧ j.val = i then false else (s.pool ty).bitmap j

theorem Pool.ipcFree_bitmap {n : ℕ} (pool : Pool n) (i : Fin n) :
    (pool.ipcFree i).bitmap = Function.update pool.bitmap i false := rfl

theorem IpcShm.setPool_of_ne {ty : ObjType} (h : ty ≠ type)
    (pool : Pool (filebenchSizes memsize type)) : (s.setPool type pool).pool ty = s.pool ty :=
  Function.update_of_ne h ..

theorem IpcShm.cleared_ipcFree (i : Fin (filebenchSizes memsize type)) :
    s.Cleared (s.setPool type ((s.pool type).ipcFree i)) type i := by
  intro ty j
  by_cases hty : ty = type
  · subst hty
    rw [IpcShm.setPool_self, Pool.ipcFree_bitmap]
    by_cases hj : j = i
    · rw [hj, Function.update_self, if_pos ⟨rfl, rfl⟩]
    · rw [Function.update_of_ne hj, if_neg fun h => hj (Fin.ext h.2)]
  · rw [if_neg fun h => hty h.1, IpcShm.setPool_of_ne hty]

/-- A descriptor other than the first keeps its bit. -/
theorem IpcShm.ipcFree_avd {i : Fin (filebenchSizes memsize .avd)}
    (hbit : (s.pool .avd).bitmap i = true) (hi : i.val ≠ 0)
    (hfree : s.ipcFree layout .avd (layout.addr .avd i) = some s') :
    (s'.pool .avd).bitmap i = true := by
  have hitem := layout.two_mul_le_item i
  rw [IpcShm.ipcFree, if_neg (layout.addr_ne_zero .avd i)] at hfree
  split_ifs at hfree with hlt hrow
  · obtain rfl := Option.some.inj hfree
    rw [IpcShm.setPool_self, Pool.ipcFree_bitmap, Function.update_of_ne, hbit]
    intro h
    have hval := congrArg Fin.val h
    change i.val = layout.item .avd _ at hval
    omega
  · obtain rfl := Option.some.inj hfree
    exact hbit

theorem IpcShm.cleared_iff {i : Fin (filebenchSizes memsize type)}
    (hbit : (s.pool type).bitmap i = true) :
    (∃ s', s.ipcFree layout type (layout.addr type i) = some s' ∧ s.Cleared s' type i) ↔
      (type = .avd → i.val = 0) := by
  constructor
  · rintro ⟨s', hfree, hcleared⟩ rfl
    by_contra hi
    have hkept := IpcShm.ipcFree_avd hbit hi hfree
    rw [hcleared, if_pos ⟨rfl, rfl⟩] at hkept
    cases hkept
  · intro hi
    have hitem : layout.item type (layout.addr type i) = i := by
      by_cases htype : type = .avd
      · rw [hi htype, ObjLayout.item, ObjLayout.addr, Nat.zero_mul, Nat.add_zero, Nat.sub_self,
          Nat.zero_div]
      · exact layout.item_addr htype i
    exact ⟨_, IpcShm.ipcFree_eq i hitem, IpcShm.cleared_ipcFree i⟩

/-- What an allocation returned and nobody has freed, `ipc_free` frees: every object but a
descriptor that is not the first one. -/
theorem ipcRun_ipcFree {trace : List (IpcShm memsize × IpcEvent)} (h : IpcRun layout trace s)
    {i : Fin (filebenchSizes memsize type)} (hlive : (type, layout.addr type i) ∈ s.live) :
    (∃ s', s.ipcFree layout type (layout.addr type i) = some s' ∧ s.Cleared s' type i) ↔
      (type = .avd → i.val = 0) := by
  obtain ⟨j, hj, haddr⟩ := (h.bitmapLive type _).mp hlive
  obtain rfl := Fin.ext (layout.addr_injective type haddr)
  exact IpcShm.cleared_iff hj

/-- An allocation of a descriptor and one of a flowop. -/
def bothAllocate : List IpcEvent := [.malloc 0 .avd, .locked 0, .malloc 0 .flowop, .locked 0]

theorem exists_bothAllocated : ∃ trace, ∃ s : IpcShm 4096, IpcRun packedLayout trace s ∧
    (.avd, packedLayout.addr .avd 1) ∈ s.live ∧
    (.flowop, packedLayout.addr .flowop 1) ∈ s.live := by
  have hrun : (bothAllocate.foldlM (IpcShm.next packedLayout) clearedShm).map
      (fun s => ((s.pool .avd).bitmap ⟨1, by decide⟩, (s.pool .flowop).bitmap ⟨1, by decide⟩)) =
        some (true, true) := by
    decide +kernel
  obtain ⟨s, hs, hbits⟩ := Option.map_eq_some_iff.mp hrun
  obtain ⟨trace, htrace, -⟩ := clearedShm_start.events (P := fun _ => True)
    (fun _ hx => absurd hx List.not_mem_nil) hs fun _ _ _ => trivial
  obtain ⟨havd, hflowop⟩ := Prod.mk.inj hbits
  have hlive := IpcRun.bitmapLive htrace
  exact ⟨trace, s, htrace, (hlive _ _).mpr ⟨_, havd, rfl⟩, (hlive _ _).mpr ⟨_, hflowop, rfl⟩⟩

/-- The descriptor 1 is not freed, and the bit of the descriptor 2 is cleared instead. -/
theorem ipcFree_misses : ¬ ∀ (layout : ObjLayout) trace (s : IpcShm 4096) type
    (i : Fin (filebenchSizes 4096 type)), IpcRun layout trace s →
      (type, layout.addr type i) ∈ s.live →
        ∃ s', s.ipcFree layout type (layout.addr type i) = some s' ∧ s.Cleared s' type i := by
  intro h
  obtain ⟨trace, s, hrun, hlive, -⟩ := exists_bothAllocated
  obtain ⟨j, hj, haddr⟩ := (hrun.bitmapLive _ _).mp hlive
  have hone : j.val = 1 := (packedLayout.addr_injective _ haddr).symm
  have hfreed := h packedLayout trace s .avd j hrun (by rwa [← haddr])
  have hzero := (IpcShm.cleared_iff hj).mp hfreed rfl
  omega

/-- The flowop 1 is freed. -/
theorem ipcRun_ipcFree_flowop : ∃ (s : IpcShm 4096) (i : Fin (filebenchSizes 4096 .flowop)),
    i.val = 1 ∧ ((∃ s', s.ipcFree packedLayout .flowop (packedLayout.addr .flowop i) = some s' ∧
      s.Cleared s' .flowop i) ↔ (ObjType.flowop = .avd → i.val = 0)) := by
  obtain ⟨trace, s, hrun, -, hlive⟩ := exists_bothAllocated
  exact ⟨s, ⟨1, by decide⟩, rfl, ipcRun_ipcFree hrun hlive⟩

end Filebench
