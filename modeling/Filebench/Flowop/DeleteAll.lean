import Filebench.Flowop.Destruct

/-! # The deletion of a list of flowops

The flowops of the script are on the list together with the others and stay on it. A flowop is
taken off two lists, of which the one is being walked. -/
namespace Filebench

open Linked

variable {A : Type} {n : ℕ} {s s' s₁ : FlowopShm A n} {hdp : FlowopList n} {p : Fin n}
  {L gl : List (Fin n)}

/-! ## What is freed -/

/-- `flowop_delete` with a record of the flowops that were freed. -/
def flowopDeleteLog (flowoplist : FlowopList n) (flowop : Fin n) :
    FlowopShm A n × List (Fin n) → Option (FlowopShm A n × List (Fin n))
  | (s, freed) => do
    let s ← s.unlinkExec flowoplist flowop
    let (found, s) ← s.unlinkGlobal flowop
    some (if found then ({ s with pool := s.pool.ipcFree flowop }, freed ++ [flowop])
      else (s, freed))

def deleteLoopLog (flowoplist : FlowopList n) : ℕ → Option (Fin n) →
    FlowopShm A n × List (Fin n) → Option (FlowopShm A n × List (Fin n))
  | _, none, x => some x
  | 0, some _, _ => none
  | fuel + 1, some flowop, x =>
    if (x.1.flowop flowop).foInstance = flowMaster then
      deleteLoopLog flowoplist fuel (x.1.execNext flowop) x
    else do
      let nextFlowop := x.1.execNext flowop
      let x ← flowopDeleteLog flowoplist flowop x
      deleteLoopLog flowoplist fuel nextFlowop x

def flowopDeleteAllLog (flowoplist : FlowopList n) (s : FlowopShm A n) :
    Option (FlowopShm A n × List (Fin n)) :=
  deleteLoopLog flowoplist n (s.hd flowoplist) (s, [])

/-- The record changes nothing. -/
theorem flowopDeleteLog_fst (x : FlowopShm A n × List (Fin n)) :
    (flowopDeleteLog hdp p x).map Prod.fst = flowopDelete hdp p x.1 := by
  obtain ⟨s, freed⟩ := x
  rw [flowopDeleteLog, flowopDelete]
  cases hexec : s.unlinkExec hdp p with
  | none => rfl
  | some s₁ =>
    change ((s₁.unlinkGlobal p).bind _).map Prod.fst = (s₁.unlinkGlobal p).bind _
    cases hglobal : s₁.unlinkGlobal p with
    | none => rfl
    | some y =>
      obtain ⟨found, s₂⟩ := y
      cases found <;> rfl

theorem deleteLoopLog_fst (fuel : ℕ) (o : Option (Fin n)) (x : FlowopShm A n × List (Fin n)) :
    (deleteLoopLog hdp fuel o x).map Prod.fst = deleteLoop hdp fuel o x.1 := by
  induction fuel generalizing o x with
  | zero => cases o <;> rfl
  | succ fuel ih =>
    cases o with
    | none => rfl
    | some p =>
      rw [deleteLoopLog, deleteLoop]
      split
      next => exact ih _ x
      next =>
        have hdelete : (flowopDeleteLog hdp p x).map Prod.fst = flowopDelete hdp p x.1 :=
          flowopDeleteLog_fst x
        change ((flowopDeleteLog hdp p x).bind _).map Prod.fst = (flowopDelete hdp p x.1).bind _
        cases hlog : flowopDeleteLog hdp p x with
        | none =>
          rw [hlog] at hdelete
          rw [← hdelete]
          rfl
        | some y =>
          rw [hlog] at hdelete
          rw [← hdelete]
          exact ih _ y

theorem flowopDeleteAllLog_fst (s : FlowopShm A n) :
    (flowopDeleteAllLog hdp s).map Prod.fst = flowopDeleteAll hdp s :=
  deleteLoopLog_fst n _ _

/-! ## One flowop -/

/-- Only the list itself was changed. -/
structure LocalOnly (s s' : FlowopShm A n) : Prop where
  pool : s'.pool = s.pool
  next : s'.next = s.next
  shmFlowoplist : s'.shmFlowoplist = s.shmFlowoplist
  inst : ∀ r, (s'.flowop r).foInstance = (s.flowop r).foInstance

/-- The list without a flowop that is on it. -/
theorem unlinkExec_spec (hL : IsList s.execNext (s.hd hdp) L) (hp : p ∈ L) :
    ∃ s', s.unlinkExec hdp p = some s' ∧ IsList s'.execNext (s'.hd hdp) (L.erase p) ∧
      LocalOnly s s' := by
  rcases hL.first_or_after hp with ⟨hfirst, hrest⟩ | ⟨a, l₁, e, l₂, ha, hap, heq, herase⟩
  · refine ⟨s.setHd hdp (s.execNext p), if_pos hfirst, ?_, ?_⟩
    · rw [FlowopShm.setHd_execNext, FlowopShm.setHd_hd]
      exact hrest
    · exact ⟨s.setHd_pool hdp _, s.setHd_next hdp _, s.setHd_shmFlowoplist hdp _,
        s.setHd_keeps hdp _ (·.foInstance) fun _ => rfl⟩
  · have hne : s.hd hdp ≠ some p := by
      rw [ha]
      exact fun h => hap (Option.some.inj h)
    have hprev : prevOf s.execNext p n a = some (some e) := by
      have hlen := length_le_of_isList hL
      rw [heq] at hlen
      refine prevOf_eq (heq ▸ ha ▸ hL) ?_
      simp at hlen
      omega
    refine ⟨s.setExecNext e (s.execNext p), ?_, ?_, ?_⟩
    · rw [FlowopShm.unlinkExec, if_neg hne, ha]
      change (prevOf s.execNext p n a).bind _ = _
      rw [hprev]
      rfl
    · rw [FlowopShm.setExecNext_execNext, FlowopShm.setExecNext_hd, herase]
      rw [heq] at hL
      exact hL.unlink
    · exact ⟨rfl, s.setExecNext_next e _, rfl,
        s.setExecNext_keeps e _ (·.foInstance) fun _ => rfl⟩

/-- A flowop of the list is taken off both lists and freed. -/
structure DeletedOne (s s' : FlowopShm A n) (hdp : FlowopList n) (p : Fin n)
    (L gl : List (Fin n)) : Prop where
  execList : IsList s'.execNext (s'.hd hdp) (L.erase p)
  global : IsList s'.next s'.shmFlowoplist (gl.erase p)
  bitmap : s'.pool.bitmap = Function.update s.pool.bitmap p false
  inst : ∀ r, (s'.flowop r).foInstance = (s.flowop r).foInstance

theorem flowopDeleteLog_spec (hL : IsList s.execNext (s.hd hdp) L)
    (hgl : IsList s.next s.shmFlowoplist gl) (hp : p ∈ L) (hpgl : p ∈ gl) (freed : List (Fin n)) :
    ∃ s', flowopDeleteLog hdp p (s, freed) = some (s', freed ++ [p]) ∧
      DeletedOne s s' hdp p L gl := by
  obtain ⟨s₁, hexec, hlist, hlocal⟩ := unlinkExec_spec hL hp
  obtain ⟨s₂, hglobal, hglist, honly⟩ := unlinkGlobal_spec (s := s₁)
    (by rwa [hlocal.next, hlocal.shmFlowoplist]) hpgl
  refine ⟨{ s₂ with pool := s₂.pool.ipcFree p }, ?_, ?_, hglist, ?_, ?_⟩
  · change (s.unlinkExec hdp p).bind _ = _
    rw [hexec]
    change (s₁.unlinkGlobal p).bind _ = _
    rw [hglobal]
    rfl
  · have hhd : s₂.hd hdp = s₁.hd hdp := by
      cases hdp with
      | thread t => exact congrFun honly.heads t
      | inner q => exact congrFun honly.compFops q
    change IsList s₂.execNext (s₂.hd hdp) _
    rw [honly.execNext, hhd]
    exact hlist
  · change Function.update s₂.pool.bitmap p false = _
    rw [honly.pool, hlocal.pool]
  · intro r
    exact (honly.inst r).trans (hlocal.inst r)

/-! ## The whole list -/

/-- The flowops of the script on a list, and the others. -/
def FlowopShm.masters (s : FlowopShm A n) (L : List (Fin n)) : List (Fin n) :=
  L.filter fun p => (s.flowop p).foInstance = flowMaster

def FlowopShm.clones (s : FlowopShm A n) (L : List (Fin n)) : List (Fin n) :=
  L.filter fun p => (s.flowop p).foInstance ≠ flowMaster

/-- The flowops of the script alone are left on the list. The others are off the global list and
were freed, each of them once. -/
structure DeletedAll (s s' : FlowopShm A n) (hdp : FlowopList n) (L gl freed : List (Fin n)) :
    Prop where
  execList : IsList s'.execNext (s'.hd hdp) (s.masters L)
  global : IsList s'.next s'.shmFlowoplist (gl.filter (· ∉ s.clones L))
  frees : freed = s.clones L
  once : freed.Nodup
  bitmap : ∀ r, s'.pool.bitmap r = if r ∈ freed then false else s.pool.bitmap r

/-- The walk over `rest`, with the flowops of the script before it kept. -/
theorem deleteLoopLog_spec {kept rest : List (Fin n)} (fuel : ℕ)
    (hL : IsList s.execNext (s.hd hdp) (kept ++ rest))
    (hgl : IsList s.next s.shmFlowoplist gl) (hsub : ∀ p ∈ rest, p ∈ gl)
    (hfuel : rest.length ≤ fuel) (freed : List (Fin n)) :
    ∃ s', deleteLoopLog hdp fuel rest.head? (s, freed) = some (s', freed ++ s.clones rest) ∧
      IsList s'.execNext (s'.hd hdp) (kept ++ s.masters rest) ∧
      IsList s'.next s'.shmFlowoplist (gl.filter (· ∉ s.clones rest)) ∧
      ∀ r, s'.pool.bitmap r = if r ∈ s.clones rest then false else s.pool.bitmap r := by
  induction rest generalizing s kept gl fuel freed with
  | nil =>
    refine ⟨s, ?_, hL, ?_, fun _ => rfl⟩
    · rw [FlowopShm.clones, List.filter_nil, List.append_nil]
      cases fuel <;> rfl
    · rw [FlowopShm.clones, List.filter_nil]
      simpa using hgl
  | cons p rest ih =>
    obtain ⟨fuel, rfl, hle⟩ := exists_fuel hfuel
    have hnext : s.execNext p = rest.head? := hL.tail.head
    by_cases hmaster : (s.flowop p).foInstance = flowMaster
    · rw [List.append_cons] at hL
      obtain ⟨s', hrun, hlist, hglobal, hbitmap⟩ :=
        ih fuel hL hgl (fun q hq => hsub q (.tail _ hq)) hle freed
      have hclones : s.clones (p :: rest) = s.clones rest := by
        rw [FlowopShm.clones, List.filter_cons_of_neg (by simpa using hmaster)]
        rfl
      have hmasters : s.masters (p :: rest) = p :: s.masters rest := by
        rw [FlowopShm.masters, List.filter_cons_of_pos (by simpa using hmaster)]
        rfl
      rw [hclones, hmasters, List.append_cons]
      refine ⟨s', ?_, hlist, hglobal, hbitmap⟩
      rw [List.head?_cons, deleteLoopLog, if_pos hmaster, hnext]
      exact hrun
    · have hnodup := hL.nodup
      have hpkept : p ∉ kept := fun h => (List.nodup_append.mp hnodup).2.2 p h p (.head _) rfl
      have hprest : p ∉ rest :=
        (List.nodup_cons.mp (List.nodup_append.mp hnodup).2.1).1
      obtain ⟨s₁, hdelete, hone⟩ := flowopDeleteLog_spec hL hgl
        (List.mem_append_right _ (.head _)) (hsub p (.head _)) freed
      have herase : (kept ++ p :: rest).erase p = kept ++ rest := by
        rw [List.erase_append_right _ hpkept, List.erase_cons_head]
      have hlist₁ := hone.execList
      rw [herase] at hlist₁
      have hsub₁ : ∀ q ∈ rest, q ∈ gl.erase p := fun q hq =>
        (List.mem_erase_of_ne (ne_of_mem_of_not_mem hq hprest)).mpr (hsub q (.tail _ hq))
      obtain ⟨s', hrun, hlist, hglobal, hbitmap⟩ :=
        ih fuel hlist₁ hone.global hsub₁ hle (freed ++ [p])
      have hclones₁ : s₁.clones rest = s.clones rest := by
        simp only [FlowopShm.clones, hone.inst]
      have hmasters₁ : s₁.masters rest = s.masters rest := by
        simp only [FlowopShm.masters, hone.inst]
      have hclones : s.clones (p :: rest) = p :: s.clones rest := by
        rw [FlowopShm.clones, List.filter_cons_of_pos (by simpa using hmaster)]
        rfl
      have hmasters : s.masters (p :: rest) = s.masters rest := by
        rw [FlowopShm.masters, List.filter_cons_of_neg (by simpa using hmaster)]
        rfl
      rw [hclones₁, List.append_assoc, List.singleton_append] at hrun
      rw [hclones₁] at hglobal hbitmap
      rw [hmasters₁] at hlist
      rw [hclones, hmasters]
      refine ⟨s', ?_, hlist, ?_, fun r => ?_⟩
      · rw [List.head?_cons, deleteLoopLog, if_neg hmaster]
        change (flowopDeleteLog hdp p (s, freed)).bind _ = _
        rw [hdelete]
        change deleteLoopLog hdp fuel (s.execNext p) _ = _
        rw [hnext]
        exact hrun
      · rw [hgl.nodup.erase_eq_filter, List.filter_filter] at hglobal
        have hfilter : gl.filter (fun r => decide (r ∉ s.clones rest) && r != p) =
            gl.filter (· ∉ p :: s.clones rest) := by
          refine List.filter_congr fun r _ => ?_
          by_cases hr : r = p <;> simp [hr]
        rw [← hfilter]
        exact hglobal
      · rw [hbitmap, hone.bitmap, Function.update_apply]
        by_cases hr : r = p
        · simp [hr]
        · simp [hr]

/-- Exactly the flowops that are not of the script are deleted from the two lists, and each of them
is freed once. -/
theorem flowopDeleteAll_spec (hL : IsList s.execNext (s.hd hdp) L)
    (hgl : IsList s.next s.shmFlowoplist gl) (hsub : ∀ p ∈ L, p ∈ gl) :
    ∃ s' freed, flowopDeleteAllLog hdp s = some (s', freed) ∧ flowopDeleteAll hdp s = some s' ∧
      DeletedAll s s' hdp L gl freed := by
  obtain ⟨s', hrun, hlist, hglobal, hbitmap⟩ :=
    deleteLoopLog_spec n (show IsList s.execNext (s.hd hdp) ([] ++ L) from hL) hgl hsub
      (length_le_of_isList hL) []
  rw [← hL.head, List.nil_append] at hrun
  refine ⟨s', s.clones L, hrun, ?_, hlist, hglobal, rfl, hL.nodup.filter _, hbitmap⟩
  rw [← flowopDeleteAllLog_fst, flowopDeleteAllLog, hrun]
  rfl

/-- A flowop of the script between two others. -/
def mixedFlowops : FlowopShm Unit 3 where
  flowop p :=
    { foName := []
      foInstance := if p = 1 then flowMaster else 1
      foMethods := .library
      foAttrs := ()
      foThread := none
      foFileset := none
      foConstvalue := 0
      foConstwss := 0
      foNext := if p = 0 then none else some (p - 1)
      foExecNext := if p = 2 then none else some (p + 1)
      foCompFops := none }
  pool := ⟨fun _ => true, 0⟩
  shmFlowoplist := some 2
  tfThrdFops _ := some 0
  tfRunning _ := false

theorem flowopDeleteAll_mixed :
    ∃ s' freed, flowopDeleteAllLog (.thread 0) mixedFlowops = some (s', freed) ∧
      flowopDeleteAll (.thread 0) mixedFlowops = some s' ∧
      DeletedAll mixedFlowops s' (.thread 0) [0, 1, 2] [2, 1, 0] freed :=
  flowopDeleteAll_spec ⟨rfl, rfl, rfl, rfl⟩ ⟨rfl, rfl, rfl, rfl⟩ (by decide)

end Filebench
