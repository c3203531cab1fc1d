import Filebench.Lib.Owners
import Filebench.Procflow.Threads

/-! # What the workers of a run have

The procflows, threads and flowops of a run come on top of those of the script and are apart from
each other. Every step of a worker keeps this, and with the last procflow all of it is gone when
the threads were deleted before. -/
namespace Filebench

open Linked

variable {α β A : Type} {n m k : ℕ} {s₀ s s' : WorkShm α β A n m k}
  {M N : List (Fin n)} {TM Th : Fin n → List (Fin m)} {gl₀ gl : List (Fin k)}
  {hold : ThreadPtr → Holding k}

/-- The processes `M` of the script, their threads `TM` and the flowops of these. -/
structure Scripted (s : WorkShm α β A n m k) (M : List (Fin n)) (TM : Fin n → List (Fin m))
    (gl : List (Fin k)) : Prop where
  procs : ProcList s.procs M
  masters : ∀ p ∈ M, s.procs.Master p
  threads : ∀ p ∈ M, IsList s.tfNext (s.pfThreads p) (TM p)
  threadMasters : ∀ p ∈ M, ∀ t ∈ TM p, s.threadPool.bitmap t = true ∧ s.threadMaster t
  flowops : ∀ p ∈ M, ∀ t ∈ TM p, ∃ F : FlowForest k,
    Represents s.flowops (s.flowops.tfThrdFops t) F ∧ F.nodes.Nodup ∧
      ∀ r ∈ F.nodes, s.flowops.Allocated r
  global : IsList s.flowops.next s.flowops.shmFlowoplist gl
  globalAllocated : ∀ r ∈ gl, s.flowops.Allocated r

/-- No composite flowop inside of another one has inner flowops. -/
def Shallow (s : WorkShm α β A n m k) (M : List (Fin n)) (TM : Fin n → List (Fin m)) : Prop :=
  ∀ p ∈ M, ∀ t ∈ TM p, ∀ F : FlowForest k,
    Represents s.flowops (s.flowops.tfThrdFops t) F → F.depth ≤ 2

/-- The instances `N` with their threads `Th`, and what all threads hold. -/
structure Work (s₀ : WorkShm α β A n m k) (M : List (Fin n)) (TM : Fin n → List (Fin m))
    (gl₀ : List (Fin k)) (s : WorkShm α β A n m k) (N : List (Fin n)) (Th : Fin n → List (Fin m))
    (hold : ThreadPtr → Holding k) (gl : List (Fin k)) : Prop where
  procs : ProcList s.procs (N ++ M)
  procPool : ∀ p, s.procs.pool.bitmap p = true ↔ s₀.procs.pool.bitmap p = true ∨ p ∈ N
  procFresh : ∀ p ∈ N, s₀.procs.pool.bitmap p = false
  masters : ∀ p ∈ M, s.procs.Master p
  instances : ∀ p ∈ N, ¬ s.procs.Master p
  threads : ∀ p ∈ N, ∃ q ∈ M, IsList s.tfNext (s.pfThreads p) (Th p ++ TM q)
  masterThreads : ∀ q ∈ M, IsList s.tfNext (s.pfThreads q) (TM q)
  threadPool : ∀ t, s.threadPool.bitmap t = true ↔
    s₀.threadPool.bitmap t = true ∨ ∃ p ∈ N, t ∈ Th p
  threadFresh : ∀ p ∈ N, ∀ t ∈ Th p, s₀.threadPool.bitmap t = false ∧ ¬ s.threadMaster t
  threadApart : ∀ p ∈ N, ∀ q ∈ N, ∀ t, t ∈ Th p → t ∈ Th q → p = q
  threadMasters : ∀ q ∈ M, ∀ t ∈ TM q,
    s₀.threadPool.bitmap t = true ∧ s.threadMaster t ∧ hold t = .prototypes
  held : ∀ t, hold t ≠ .nothing →
    (∃ p ∈ N, ∃ u ∈ Th p, u.val = t) ∨ ∃ q ∈ M, ∃ u ∈ TM q, u.val = t
  holdings : Holdings s₀.flowops gl₀ s.flowops hold gl

/-- The threads `L` of a process are new and have the prototypes of the script. -/
structure NewThreads (s s' : WorkShm α β A n m k) (hold hold' : ThreadPtr → Holding k)
    (p : Fin n) (L : List (Fin m)) : Prop where
  fresh : ∀ t ∈ L, s.threadPool.bitmap t = false
  pool : ∀ t, s'.threadPool.bitmap t = true ↔ s.threadPool.bitmap t = true ∨ t ∈ L
  old : ∀ t, s.threadPool.bitmap t = true → s'.threadflow t = s.threadflow t
  prototypes : ∀ t ∈ L, hold' t = .prototypes
  others : ∀ w, (∀ t ∈ L, t.val ≠ w) → hold' w = hold w
  procs : ∃ o, s'.procs = (s.setThreads p o).procs
  heads : ∀ w, (∀ t ∈ L, t.val ≠ w) → s'.flowops.tfThrdFops w = s.flowops.tfThrdFops w

theorem NewThreads.refl (s : WorkShm α β A n m k) (hold : ThreadPtr → Holding k) (p : Fin n) :
    NewThreads s s hold hold p [] := by
  refine ⟨nofun, fun _ => (or_iff_left List.not_mem_nil).symm, fun _ _ => rfl, nofun,
    fun _ _ => rfl, ⟨s.pfThreads p, ?_⟩, fun _ _ => rfl⟩
  simp only [WorkShm.setThreads, ProcShm.modify, WorkShm.pfThreads, Function.update_eq_self]

theorem NewThreads.one {p : Fin n} {t : Fin m} {o : Option (Fin m)}
    (hfree : s.threadPool.bitmap t = false) (hprocs : s'.procs = (s.setThreads p o).procs)
    (hold' : ∀ r ≠ t, s'.threadflow r = s.threadflow r)
    (hpool : s'.threadPool.bitmap = Function.update s.threadPool.bitmap t true)
    (hheads : ∀ w, w ≠ t.val → s'.flowops.tfThrdFops w = s.flowops.tfThrdFops w) :
    NewThreads s s' hold (Function.update hold t .prototypes) p [t] := by
  refine ⟨?_, ?_, ?_, ?_, ?_, ⟨o, hprocs⟩, ?_⟩
  · intro w hw
    rw [List.mem_singleton.mp hw]
    exact hfree
  · intro w
    rw [hpool, Function.update_apply, List.mem_singleton]
    split
    next hw => exact iff_of_true rfl (.inr hw)
    next hw => exact (or_iff_left hw).symm
  · rintro w hw
    refine hold' w ?_
    rintro rfl
    rw [hw] at hfree
    cases hfree
  · intro w hw
    rw [List.mem_singleton.mp hw, Function.update_self]
  · exact fun w hw => Function.update_of_ne (hw t (.head _)).symm ..
  · exact fun w hw => hheads w (hw t (.head _)).symm

theorem NewThreads.trans {s₁ : WorkShm α β A n m k} {hold₁ hold' : ThreadPtr → Holding k}
    {p : Fin n} {L L' : List (Fin m)} (h : NewThreads s s₁ hold hold₁ p L)
    (h' : NewThreads s₁ s' hold₁ hold' p L') : NewThreads s s' hold hold' p (L' ++ L) := by
  constructor
  · intro t ht
    rcases List.mem_append.mp ht with ht | ht
    · have hfree := h'.fresh t ht
      rw [← Bool.not_eq_true, h.pool, not_or, Bool.not_eq_true] at hfree
      exact hfree.1
    · exact h.fresh t ht
  · intro t
    rw [h'.pool, h.pool, List.mem_append, or_assoc, or_comm (a := t ∈ L)]
  · intro t ht
    rw [h'.old t ((h.pool t).mpr (.inl ht)), h.old t ht]
  · intro t ht
    by_cases ht' : t ∈ L'
    · exact h'.prototypes t ht'
    · rw [h'.others t fun u hu heq => ht' (Fin.ext heq ▸ hu)]
      exact h.prototypes t ((List.mem_append.mp ht).resolve_left ht')
  · intro w hw
    rw [h'.others w fun t ht => hw t (List.mem_append_left _ ht),
      h.others w fun t ht => hw t (List.mem_append_right _ ht)]
  · obtain ⟨o, ho⟩ := h.procs
    obtain ⟨o', ho'⟩ := h'.procs
    refine ⟨o', ?_⟩
    simp only [ho', WorkShm.setThreads, ho, ProcShm.modify, Function.update_self,
      Function.update_idem]
  · intro w hw
    rw [h'.heads w fun t ht => hw t (List.mem_append_left _ ht),
      h.heads w fun t ht => hw t (List.mem_append_right _ ht)]

namespace Work

theorem instances_eq (h : Work s₀ M TM gl₀ s N Th hold gl) : s.instances = N := by
  rw [WorkShm.instances, walk_eq h.procs.list (length_le_of_isList h.procs.list),
    List.filter_append]
  have hN : N.filter (¬ s.procs.Master ·) = N :=
    List.filter_eq_self.mpr fun p hp => decide_eq_true (h.instances p hp)
  have hM : M.filter (¬ s.procs.Master ·) = [] := by
    refine List.filter_eq_nil_iff.mpr fun p hp => ?_
    exact fun hd => of_decide_eq_true hd (h.masters p hp)
  rw [hN, hM, List.append_nil]

theorem ownThreads_eq {p : Fin n} (h : Work s₀ M TM gl₀ s N Th hold gl) (hp : p ∈ N) :
    s.ownThreads p = Th p := by
  obtain ⟨q, hq, hlist⟩ := h.threads p hp
  rw [WorkShm.ownThreads, walk_eq hlist (length_le_of_isList hlist), List.filter_append]
  have hTh : (Th p).filter (¬ s.threadMaster ·) = Th p :=
    List.filter_eq_self.mpr fun t ht => decide_eq_true (h.threadFresh p hp t ht).2
  have hTM : (TM q).filter (¬ s.threadMaster ·) = [] := by
    refine List.filter_eq_nil_iff.mpr fun t ht => ?_
    exact fun hd => of_decide_eq_true hd (h.threadMasters q hq t ht).2.1
  rw [hTh, hTM, List.append_nil]

/-- A change of the procflows that no list depends on. -/
theorem setProcs {procs : ProcShm α (Fin m) n} (h : Work s₀ M TM gl₀ s N Th hold gl)
    (hnext : procs.next = s.procs.next) (hhead : procs.shmProclist = s.procs.shmProclist)
    (hpool : procs.pool = s.procs.pool)
    (hstill : ∀ p, (procs.procflow p).still = (s.procs.procflow p).still) :
    Work s₀ M TM gl₀ { s with procs := procs } N Th hold gl := by
  have hmaster : ∀ p, procs.Master p ↔ s.procs.Master p := fun p => by
    rw [ProcShm.Master, ProcShm.Master, Procflow.still_pfInstance (hstill p)]
  have hthreads : ∀ p, (procs.procflow p).pfThreads = (s.procs.procflow p).pfThreads := by
    intro p
    change (procs.procflow p).still.pfThreads = _
    rw [hstill p]
    rfl
  exact
    { h with
      procs := by
        refine ⟨?_, ?_⟩
        · rw [hnext, hhead]
          exact h.procs.list
        · rw [hpool]
          exact h.procs.allocated
      procPool := by
        rw [hpool]
        exact h.procPool
      masters := fun p hp => (hmaster p).mpr (h.masters p hp)
      instances := fun p hp => fun hm => h.instances p hp ((hmaster p).mp hm)
      threads := by
        intro p hp
        obtain ⟨q, hq, hlist⟩ := h.threads p hp
        refine ⟨q, hq, ?_⟩
        change IsList s.tfNext (procs.procflow p).pfThreads _
        rw [hthreads p]
        exact hlist
      masterThreads := by
        intro q hq
        change IsList s.tfNext (procs.procflow q).pfThreads _
        rw [hthreads q]
        exact h.masterThreads q hq }

/-- What a live thread holds changes. -/
theorem setFlowops {flowops : FlowopShm A k} {p : Fin n} {t : Fin m} {h' : Holding k}
    {gl' : List (Fin k)} (h : Work s₀ M TM gl₀ s N Th hold gl) (hp : p ∈ N) (ht : t ∈ Th p)
    (hhold : Holdings s₀.flowops gl₀ flowops (Function.update hold t h') gl') :
    Work s₀ M TM gl₀ { s with flowops := flowops } N Th (Function.update hold t h') gl' := by
  have hfresh := (h.threadFresh p hp t ht).1
  exact
    { h with
      threadMasters := by
        intro q hq u hu
        obtain ⟨hold₀, hmaster, hproto⟩ := h.threadMasters q hq u hu
        have hut : u.val ≠ t.val := by
          intro heq
          rw [Fin.ext heq, hfresh] at hold₀
          cases hold₀
        exact ⟨hold₀, hmaster, by rwa [Function.update_of_ne hut]⟩
      held := by
        intro u hu
        by_cases hut : u = t.val
        · exact .inl ⟨p, hp, t, ht, hut.symm⟩
        · rw [Function.update_of_ne hut] at hu
          exact h.held u hu
      holdings := hhold }

/-- The instances of a run come in front of the list. -/
theorem procflowInit_spec {env : ProcEnv α n} {procs : ProcShm α (Fin m) n}
    (hs : ProcList s.procs M)
    (hrun : procflowInit env { s.procs with shmFAbort := .ok } = some (true, procs)) :
    ∃ N, Pushed { s.procs with shmFAbort := .ok } procs N M ∧
      (∀ q ∈ N, ∃ p ∈ M, ∃ j : ℕ,
        (procs.procflow q).still = (s.procs.procflow p).copy (j + 1)) ∧
      ∀ q ∈ N, (procs.procflow q).pfRunning = false := by
  have hs' : ProcList { s.procs with shmFAbort := .ok } M := ⟨hs.list, hs.allocated⟩
  unfold procflowInit at hrun
  split at hrun
  next => cases hrun
  next =>
    split at hrun
    next =>
      obtain ⟨N, hpush, hmap, hstopped⟩ := createAllProcs_spec hs' hs'.list (fun _ hp => hp) hrun
      exact ⟨N, hpush, instancesOf_copy hmap, hstopped⟩
    next =>
      obtain rfl := (Prod.mk.inj (Option.some.inj hrun)).2
      exact ⟨[], .refl hs', nofun, nofun⟩

def OfScript (M : List (Fin n)) (TM : Fin n → List (Fin m)) (t : ThreadPtr) : Prop :=
  ∃ q ∈ M, ∃ u ∈ TM q, u.val = t

open Classical in
/-- At first only the threads of the script have flowops. -/
noncomputable def scripted (M : List (Fin n)) (TM : Fin n → List (Fin m)) (t : ThreadPtr) :
    Holding k :=
  if OfScript M TM t then .prototypes else .nothing

theorem scripted_nodes (t : ThreadPtr) : (scripted (k := k) M TM t).nodes = [] := by
  unfold scripted
  split <;> rfl

/-- Before the run. -/
theorem initial (hs : Scripted s M TM gl) (hdepth : Shallow s M TM) :
    Work s M TM gl s [] (fun _ => []) (scripted M TM) gl := by
  constructor
  · exact hs.procs
  · exact fun _ => (or_iff_left List.not_mem_nil).symm
  · nofun
  · exact hs.masters
  · nofun
  · nofun
  · exact hs.threads
  · intro t
    refine (or_iff_left ?_).symm
    rintro ⟨p, hp, -⟩
    cases hp
  · nofun
  · nofun
  · intro q hq t ht
    obtain ⟨halloc, hmaster⟩ := hs.threadMasters q hq t ht
    exact ⟨halloc, hmaster, if_pos ⟨q, hq, t, ht, rfl⟩⟩
  · intro t ht
    refine .inr ?_
    by_contra hne
    exact ht (if_neg hne)
  · refine ⟨hs.global, ?_, fun r => ?_, hs.globalAllocated, fun t r hr => ?_,
      fun t t' r hr => ?_, fun t => ?_⟩
    · exact List.filter_eq_self.mpr hs.globalAllocated
    · refine (or_iff_left ?_).symm
      rintro ⟨t, ht⟩
      rw [scripted_nodes] at ht
      cases ht
    · rw [scripted_nodes] at hr
      cases hr
    · rw [scripted_nodes] at hr
      cases hr
    · unfold scripted
      split
      next h =>
        obtain ⟨q, hq, u, hu, rfl⟩ := h
        obtain ⟨F, hF, hnodup, halloc⟩ := hs.flowops q hq u hu
        exact ⟨F, hF, hnodup, hdepth q hq u hu F hF, halloc⟩
      next => trivial

/-- The run creates its instances. -/
theorem create {env : ProcEnv α n} {procs : ProcShm α (Fin m) n}
    (h : Work s₀ M TM gl₀ s [] Th hold gl)
    (hrun : procflowInit env { s.procs with shmFAbort := .ok } = some (true, procs)) :
    ∃ N, Work s₀ M TM gl₀ { s with procs := procs } N (fun _ => []) hold gl ∧
      (∀ p ∈ N, (procs.procflow p).pfRunning = false) ∧ procs.shmFAbort = .ok := by
  obtain ⟨N, hpush, hcopy, hstopped⟩ := procflowInit_spec h.procs hrun
  have hold : ∀ p ∈ M, (procs.procflow p) = s.procs.procflow p := hpush.old
  refine ⟨N, ?_, hstopped, hpush.fAbort⟩
  exact
    { h with
      procs := hpush.procs
      procPool := by
        intro p
        rw [hpush.pool]
        exact or_congr_left ((h.procPool p).trans (or_iff_left List.not_mem_nil))
      procFresh := by
        intro p hp
        have hfree := hpush.fresh p hp
        rw [← Bool.not_eq_true, ← not_iff_not.mpr (h.procPool p |>.trans
          (or_iff_left List.not_mem_nil))]
        exact Bool.not_eq_true _ ▸ hfree
      masters := by
        intro p hp
        rw [ProcShm.Master, hold p hp]
        exact h.masters p hp
      instances := by
        intro q hq
        obtain ⟨p, -, j, hj⟩ := hcopy q hq
        exact not_master_of_copy hj
      threads := by
        intro q hq
        obtain ⟨p, hp, j, hj⟩ := hcopy q hq
        have hthreads : (procs.procflow q).pfThreads = (s.procs.procflow p).pfThreads := by
          change (procs.procflow q).still.pfThreads = _
          rw [hj]
          rfl
        refine ⟨p, hp, ?_⟩
        change IsList s.tfNext (procs.procflow q).pfThreads _
        rw [hthreads]
        exact h.masterThreads p hp
      masterThreads := by
        intro q hq
        change IsList s.tfNext (procs.procflow q).pfThreads _
        rw [hold q hq]
        exact h.masterThreads q hq
      threadPool := by
        intro t
        rw [h.threadPool]
        refine or_congr_right (iff_of_false ?_ ?_)
        · rintro ⟨p, hp, -⟩
          cases hp
        · rintro ⟨p, -, ht⟩
          cases ht
      threadFresh := nofun
      threadApart := nofun
      held := by
        intro t ht
        refine .inr ((h.held t ht).resolve_left ?_)
        rintro ⟨p, hp, -⟩
        cases hp }

/-- A thread that nobody has yet holds nothing. -/
theorem nothing_of_free {t : Fin m} (h : Work s₀ M TM gl₀ s N Th hold gl)
    (ht : s.threadPool.bitmap t = false) : hold t = .nothing := by
  by_contra hne
  rw [← Bool.not_eq_true, h.threadPool, not_or] at ht
  rcases h.held t hne with ⟨p, hp, u, hu, heq⟩ | ⟨q, hq, u, hu, heq⟩
  · obtain rfl := Fin.ext heq
    exact ht.2 ⟨p, hp, hu⟩
  · obtain rfl := Fin.ext heq
    exact ht.1 (h.threadMasters q hq u hu).1

theorem setThreads_pfThreads (s : WorkShm α β A n m k) (p r : Fin n) (o : Option (Fin m)) :
    (s.setThreads p o).pfThreads r = if r = p then o else s.pfThreads r := by
  rw [WorkShm.pfThreads, WorkShm.setThreads, ProcShm.modify_procflow]
  split <;> rfl

/-- The list of threads of a procflow is not in the lists of procflows. -/
theorem setThreads_keeps {X : Type} (s : WorkShm α β A n m k) (p : Fin n) (o : Option (Fin m))
    (g : Procflow α (Fin m) n → X) (hg : ∀ f, g { f with pfThreads := o } = g f) (r : Fin n) :
    g ((s.setThreads p o).procs.procflow r) = g (s.procs.procflow r) := by
  rw [WorkShm.setThreads, ProcShm.modify_procflow]
  split
  next => exact hg _
  next => rfl

/-- The threads of a process are replaced by `L`. -/
theorem replace {p : Fin n} {L : List (Fin m)} (h : Work s₀ M TM gl₀ s N Th hold gl) (hp : p ∈ N)
    {o : Option (Fin m)} (hprocs : s'.procs = (s.setThreads p o).procs)
    (hlist : ∀ q ∈ M, IsList s.tfNext (s.pfThreads p) (Th p ++ TM q) →
      IsList s'.tfNext o (L ++ TM q))
    (hkeeps : ∀ w, s.threadPool.bitmap w = true → s'.threadflow w = s.threadflow w)
    (hpool : ∀ w, s'.threadPool.bitmap w = true ↔
      s.threadPool.bitmap w = true ∧ w ∉ Th p ∨ w ∈ L)
    (hL : ∀ w ∈ L, w ∈ Th p ∨ s.threadPool.bitmap w = false)
    (hinst : ∀ w ∈ L, ¬ s'.threadMaster w) {hold' : ThreadPtr → Holding k} {gl' : List (Fin k)}
    (hsame : ∀ w : Fin m, s.threadPool.bitmap w = true → w ∉ Th p → hold' w = hold w)
    (hheld : ∀ w, hold' w ≠ .nothing → hold w ≠ .nothing ∧ (∀ u ∈ Th p, u.val ≠ w) ∨
      ∃ u ∈ L, u.val = w)
    (hholdings : Holdings s₀.flowops gl₀ s'.flowops hold' gl') :
    Work s₀ M TM gl₀ s' N (Function.update Th p L) hold' gl' := by
  have hlive : ∀ r ∈ N, ∀ w ∈ Th r, s.threadPool.bitmap w = true :=
    fun r hr w hw => (h.threadPool w).mpr (.inr ⟨r, hr, hw⟩)
  have hother : ∀ r ∈ N, r ≠ p → ∀ w ∈ Th r, w ∉ Th p ∧ w ∉ L := by
    intro r hr hrp w hw
    have hwp : w ∉ Th p := fun hw' => hrp (h.threadApart r hr p hp w hw hw')
    refine ⟨hwp, fun hwL => ?_⟩
    rcases hL w hwL with hw' | hfree
    · exact hwp hw'
    · rw [hlive r hr w hw] at hfree
      cases hfree
  have hmaster : ∀ q ∈ M, ∀ w ∈ TM q, s.threadPool.bitmap w = true ∧ w ∉ Th p := by
    intro q hq w hw
    have halloc := (h.threadMasters q hq w hw).1
    refine ⟨(h.threadPool w).mpr (.inl halloc), fun hw' => ?_⟩
    rw [(h.threadFresh p hp w hw').1] at halloc
    cases halloc
  have hmasters : ∀ r, s'.procs.Master r ↔ s.procs.Master r := by
    intro r
    rw [ProcShm.Master, ProcShm.Master, hprocs]
    exact Eq.congr_left (setThreads_keeps s p o (·.pfInstance) (fun _ => rfl) r)
  have hhead : ∀ r, s'.pfThreads r = if r = p then o else s.pfThreads r := by
    intro r
    rw [WorkShm.pfThreads, hprocs]
    exact setThreads_pfThreads s p r o
  constructor
  case procs =>
    rw [hprocs]
    have hnext : (s.setThreads p o).procs.next = s.procs.next :=
      funext (setThreads_keeps s p o (·.pfNext) fun _ => rfl)
    refine ⟨?_, h.procs.allocated⟩
    rw [hnext]
    exact h.procs.list
  case procPool =>
    rw [hprocs]
    exact h.procPool
  case procFresh => exact h.procFresh
  case masters => exact fun r hr => (hmasters r).mpr (h.masters r hr)
  case instances => exact fun r hr hm => h.instances r hr ((hmasters r).mp hm)
  case threads =>
    intro r hr
    obtain ⟨q, hq, hlist'⟩ := h.threads r hr
    refine ⟨q, hq, ?_⟩
    rw [hhead]
    by_cases hrp : r = p
    · subst hrp
      rw [if_pos rfl, Function.update_self]
      exact hlist q hq hlist'
    · rw [if_neg hrp, Function.update_of_ne hrp]
      refine hlist'.congr fun w hw => congrArg ShmThreadflow.tfNext (hkeeps w ?_)
      rcases List.mem_append.mp hw with hw | hw
      · exact hlive r hr w hw
      · exact (hmaster q hq w hw).1
  case masterThreads =>
    intro q hq
    have hqp : q ≠ p := by
      rintro rfl
      exact h.instances q hp (h.masters q hq)
    rw [hhead, if_neg hqp]
    exact (h.masterThreads q hq).congr fun w hw =>
      congrArg ShmThreadflow.tfNext (hkeeps w (hmaster q hq w hw).1)
  case threadPool =>
    intro w
    rw [hpool, h.threadPool]
    constructor
    · rintro (⟨halloc | ⟨r, hr, hw⟩, hwp⟩ | hw)
      · exact .inl halloc
      · have hrp : r ≠ p := by
          rintro rfl
          exact hwp hw
        exact .inr ⟨r, hr, Lock.mem_update_iff.mpr (.inr ⟨hrp, hw⟩)⟩
      · exact .inr ⟨p, hp, Lock.mem_update_iff.mpr (.inl ⟨rfl, hw⟩)⟩
    · rintro (halloc | ⟨r, hr, hw⟩)
      · refine .inl ⟨.inl halloc, fun hw => ?_⟩
        rw [(h.threadFresh p hp w hw).1] at halloc
        cases halloc
      · rcases Lock.mem_update_iff.mp hw with ⟨-, hmem⟩ | ⟨hrp, hmem⟩
        · exact .inr hmem
        · exact .inl ⟨.inr ⟨r, hr, hmem⟩, (hother r hr hrp w hmem).1⟩
  case threadFresh =>
    intro r hr w hw
    rcases Lock.mem_update_iff.mp hw with ⟨rfl, hmem⟩ | ⟨-, hmem⟩
    · refine ⟨?_, hinst w hmem⟩
      rcases hL w hmem with hw' | hfree
      · exact (h.threadFresh r hr w hw').1
      · rw [← Bool.not_eq_true, h.threadPool, not_or, Bool.not_eq_true] at hfree
        exact hfree.1
    · refine ⟨(h.threadFresh r hr w hmem).1, ?_⟩
      rw [WorkShm.threadMaster, hkeeps w (hlive r hr w hmem)]
      exact (h.threadFresh r hr w hmem).2
  case threadApart =>
    intro r hr r' hr' w hw hw'
    rcases Lock.mem_update_iff.mp hw with ⟨rfl, hmem⟩ | ⟨hrp, hmem⟩
    · rcases Lock.mem_update_iff.mp hw' with ⟨rfl, -⟩ | ⟨hrp', hmem'⟩
      · rfl
      · exact absurd hmem (hother r' hr' hrp' w hmem').2
    · rcases Lock.mem_update_iff.mp hw' with ⟨rfl, hmem'⟩ | ⟨-, hmem'⟩
      · exact absurd hmem' (hother r hr hrp w hmem).2
      · exact h.threadApart r hr r' hr' w hmem hmem'
  case threadMasters =>
    intro q hq w hw
    obtain ⟨halloc, hm, hproto⟩ := h.threadMasters q hq w hw
    refine ⟨halloc, ?_, ?_⟩
    · rw [WorkShm.threadMaster, hkeeps w (hmaster q hq w hw).1]
      exact hm
    · rw [hsame w (hmaster q hq w hw).1 (hmaster q hq w hw).2]
      exact hproto
  case held =>
    intro w hw
    rcases hheld w hw with ⟨hw₀, hwp⟩ | ⟨u, hu, huw⟩
    · refine (h.held w hw₀).imp_left ?_
      rintro ⟨r, hr, u, hu, rfl⟩
      have hrp : r ≠ p := by
        rintro rfl
        exact hwp u hu rfl
      exact ⟨r, hr, u, Lock.mem_update_iff.mpr (.inr ⟨hrp, hu⟩), rfl⟩
    · exact .inl ⟨p, hp, u, Lock.mem_update_iff.mpr (.inl ⟨rfl, hu⟩), huw⟩
  case holdings => exact hholdings

/-- A process gets a new thread. -/
theorem defineThread {p q : Fin n} {name : CString} {t u : Fin m} {inst : ℤ}
    (h : Work s₀ M TM gl₀ s N Th hold gl) (hp : p ∈ N) (hq : q ∈ M) (hu : u ∈ TM q)
    (hinst : inst ≠ flowMaster)
    (hrun : threadflowDefineCommon p name u inst s = some (some t, s')) :
    Work s₀ M TM gl₀ s' N (Function.update Th p (t :: Th p))
        (Function.update hold t .prototypes) gl ∧
      NewThreads s s' hold (Function.update hold t .prototypes) p [t] := by
  unfold threadflowDefineCommon at hrun
  cases hm : s.threadPool.ipcMalloc with
  | mk o pool =>
    rw [hm] at hrun
    cases o with
    | none => cases hrun
    | some v =>
      obtain ⟨-, hfree, rfl⟩ := Pool.ipcMalloc_some hm
      simp only at hrun
      split at hrun
      next =>
        obtain ⟨hv, rfl⟩ := Prod.mk.inj (Option.some.inj hrun)
        obtain rfl := Option.some.inj hv
        have hne : ∀ w, s.threadPool.bitmap w = true → w ≠ v := by
          rintro w hw rfl
          rw [hw] at hfree
          cases hfree
        have hThp : ∀ w ∈ Th p, s.threadPool.bitmap w = true :=
          fun w hw => (h.threadPool w).mpr (.inr ⟨p, hp, hw⟩)
        set f : ShmThreadflow β m :=
          { s.threadflow u with
            tfInstance := inst, tfName := name, tfNext := s.pfThreads p } with hf
        have hself : Function.update s.threadflow v f v = f := Function.update_self ..
        have hsame : ∀ r, r ≠ v → Function.update s.threadflow v f r = s.threadflow r :=
          fun r hr => Function.update_of_ne hr ..
        refine ⟨?_, .one hfree rfl hsame rfl fun w hw => Function.update_of_ne hw ..⟩
        refine h.replace hp (o := some v) ?_ ?_ ?_ ?_ ?_ ?_ ?_ ?_
          (h.holdings.inherit (h.nothing_of_free hfree) (h.threadMasters q hq u hu).2.2 _)
        · rfl
        · intro q' hq' hlist
          refine ⟨rfl, ?_⟩
          have htail : IsList (fun w => (Function.update s.threadflow v f w).tfNext)
              (s.pfThreads p) (Th p ++ TM q') := by
            refine hlist.congr fun w hw => congrArg ShmThreadflow.tfNext (hsame w (hne w ?_))
            rcases List.mem_append.mp hw with hw | hw
            · exact hThp w hw
            · exact (h.threadPool w).mpr (.inl (h.threadMasters q' hq' w hw).1)
          change IsList _ (Function.update s.threadflow v f v).tfNext _
          rw [hself]
          exact htail
        · exact fun w hw => hsame w (hne w hw)
        · intro w
          change Function.update s.threadPool.bitmap v true w = true ↔ _
          rw [Function.update_apply, List.mem_cons]
          by_cases hw : w = v
          · rw [if_pos hw]
            exact iff_of_true rfl (.inr (.inl hw))
          · rw [if_neg hw]
            constructor
            · intro halloc
              by_cases hwp : w ∈ Th p
              · exact .inr (.inr hwp)
              · exact .inl ⟨halloc, hwp⟩
            · rintro (⟨halloc, -⟩ | hw' | hwp)
              · exact halloc
              · exact absurd hw' hw
              · exact hThp w hwp
        · intro w hw
          rcases List.mem_cons.mp hw with rfl | hw
          · exact .inr hfree
          · exact .inl hw
        · intro w hw
          rcases List.mem_cons.mp hw with rfl | hw
          · change ¬ (Function.update s.threadflow w f w).tfInstance = flowMaster
            rw [hself]
            exact hinst
          · change ¬ (Function.update s.threadflow v f w).tfInstance = flowMaster
            rw [hsame w (hne w (hThp w hw))]
            exact (h.threadFresh p hp w hw).2
        · intro w hw _
          exact Function.update_of_ne (fun heq => hne w hw (Fin.ext heq)) ..
        · intro w hw
          by_cases hwv : ∃ x ∈ v :: Th p, x.val = w
          · exact .inr hwv
          · have hne' : w ≠ v.val := fun heq => hwv ⟨v, .head _, heq.symm⟩
            rw [Function.update_of_ne hne'] at hw
            exact .inl ⟨hw, fun x hx hxw => hwv ⟨x, .tail _ hx, hxw⟩⟩
      next => cases hrun

theorem threadflowDefineCommon_none {p : Fin n} {name : CString} {u : Fin m} {inst : ℤ}
    (hrun : threadflowDefineCommon p name u inst s = some (none, s')) : s' = s := by
  unfold threadflowDefineCommon at hrun
  cases hm : s.threadPool.ipcMalloc with
  | mk o pool =>
    rw [hm] at hrun
    cases o with
    | none =>
      obtain rfl := (Prod.mk.inj (Option.some.inj hrun)).2
      rw [(Pool.ipcMalloc_none hm).1]
    | some t =>
      simp only at hrun
      split at hrun
      next => cases hrun
      next => cases hrun

/-- All threads that there are free ones for are created. -/
theorem createThreads {p q : Fin n} {u : Fin m} {numbers : List ℤ}
    (h : Work s₀ M TM gl₀ s N Th hold gl) (hp : p ∈ N) (hq : q ∈ M) (hu : u ∈ TM q)
    (hnumbers : ∀ i ∈ numbers, i ≠ flowMaster)
    {created : Bool} (hrun : Filebench.createThreads p u numbers s = some (created, s')) :
    ∃ L hold', Work s₀ M TM gl₀ s' N (Function.update Th p (L ++ Th p)) hold' gl ∧
      NewThreads s s' hold hold' p L := by
  induction numbers generalizing s Th hold with
  | nil =>
    obtain rfl := (Prod.mk.inj (Option.some.inj hrun)).2
    refine ⟨[], hold, ?_, .refl s hold p⟩
    rw [List.nil_append, Function.update_eq_self]
    exact h
  | cons i numbers ih =>
    rw [Filebench.createThreads] at hrun
    cases hdef : threadflowDefineCommon p (s.threadflow u).tfName u i s with
    | none =>
      rw [hdef] at hrun
      cases hrun
    | some r =>
      obtain ⟨o, s₁⟩ := r
      rw [hdef] at hrun
      cases o with
      | none =>
        obtain rfl := threadflowDefineCommon_none hdef
        obtain rfl := (Prod.mk.inj (Option.some.inj hrun)).2
        refine ⟨[], hold, ?_, .refl _ hold p⟩
        rw [List.nil_append, Function.update_eq_self]
        exact h
      | some t =>
        obtain ⟨h₁, hone⟩ := h.defineThread hp hq hu (hnumbers i (.head _)) hdef
        obtain ⟨L, hold', h', hnew⟩ := ih h₁ (fun j hj => hnumbers j (.tail _ hj)) hrun
        refine ⟨L ++ [t], hold', ?_, hone.trans hnew⟩
        rw [Function.update_self, Function.update_idem] at h'
        rwa [List.append_assoc]

theorem createAllThreads {env : Fin m → β → FbInt} {p q : Fin n} {fuel : ℕ}
    {cur : Option (Fin m)} {C : List (Fin m)} (h : Work s₀ M TM gl₀ s N Th hold gl) (hp : p ∈ N)
    (hq : q ∈ M) (hC : IsList s.tfNext cur C) (hsub : ∀ u ∈ C, u ∈ TM q)
    {created : Bool} (hrun : Filebench.createAllThreads env p fuel cur s = some (created, s')) :
    ∃ L hold', Work s₀ M TM gl₀ s' N (Function.update Th p (L ++ Th p)) hold' gl ∧
      NewThreads s s' hold hold' p L := by
  induction C generalizing s fuel cur Th hold with
  | nil =>
    obtain rfl : cur = none := hC
    have hend : Filebench.createAllThreads env p fuel none s = some (true, s) := by
      cases fuel <;> rfl
    obtain rfl := (Prod.mk.inj (Option.some.inj (hend.symm.trans hrun))).2
    refine ⟨[], hold, ?_, .refl s hold p⟩
    rw [List.nil_append, Function.update_eq_self]
    exact h
  | cons u C ih =>
    obtain ⟨rfl, hrest⟩ := hC
    cases fuel with
    | zero => cases hrun
    | succ fuel =>
      rw [Filebench.createAllThreads] at hrun
      set numbers := threadNumbers (intCount (env u (s.threadflow u).tfInstances)) with hnum
      cases hthreads : Filebench.createThreads p u numbers s with
      | none => simp [hthreads] at hrun
      | some r =>
        obtain ⟨b, s₁⟩ := r
        simp only [hthreads, Option.bind_eq_bind, Option.bind_some] at hrun
        have hnumbers : ∀ i ∈ numbers, i ≠ flowMaster := by
          intro i hi
          rw [hnum, threadNumbers, List.mem_append, List.mem_map, List.mem_singleton] at hi
          rcases hi with ⟨j, -, rfl⟩ | rfl
          · change (j : ℤ) ≠ -2
            omega
          · decide
        obtain ⟨L, hold₁, h₁, hnew⟩ := h.createThreads hp hq (hsub u (.head _)) hnumbers hthreads
        cases b with
        | false =>
          obtain rfl := (Prod.mk.inj (Option.some.inj hrun)).2
          exact ⟨L, hold₁, h₁, hnew⟩
        | true =>
          have hallocated : ∀ v ∈ u :: C, s.threadPool.bitmap v = true :=
            fun v hv => (h.threadPool v).mpr (.inl (h.threadMasters q hq v (hsub v hv)).1)
          have hnext : IsList s₁.tfNext (s₁.tfNext u) C := by
            have hu₁ : s₁.tfNext u = s.tfNext u :=
              congrArg ShmThreadflow.tfNext (hnew.old u (hallocated u (.head _)))
            rw [hu₁]
            exact hrest.congr fun v hv =>
              congrArg ShmThreadflow.tfNext (hnew.old v (hallocated v (.tail _ hv)))
          obtain ⟨L', hold', h', hnew'⟩ := ih h₁ hnext (fun v hv => hsub v (.tail _ hv)) hrun
          refine ⟨L' ++ L, hold', ?_, hnew.trans hnew'⟩
          rw [Function.update_self, Function.update_idem] at h'
          rwa [List.append_assoc]

/-- A process that has no threads yet creates them. -/
theorem threadflowInit {env : Fin m → β → FbInt} {p : Fin n}
    (h : Work s₀ M TM gl₀ s N Th hold gl) (hp : p ∈ N) (hempty : Th p = [])
    {created : Bool} (hrun : Filebench.threadflowInit env p s = some (created, s')) :
    ∃ L hold', Work s₀ M TM gl₀ s' N (Function.update Th p L) hold' gl ∧
      NewThreads s s' hold hold' p L := by
  obtain ⟨q, hq, hlist⟩ := h.threads p hp
  rw [hempty, List.nil_append] at hlist
  obtain ⟨L, hold', h', hnew⟩ := h.createAllThreads hp hq hlist (fun _ hu => hu) hrun
  rw [hempty, List.append_nil] at h'
  exact ⟨L, hold', h', hnew⟩

/-- A thread that only has its list left is deleted as the first one of its process. -/
theorem threadflowDelete {p : Fin n} {t : Fin m} {rest : List (Fin m)} {L : List (Fin k)}
    (h : Work s₀ M TM gl₀ s N Th hold gl) (hp : p ∈ N) (hTh : Th p = t :: rest)
    (ht : hold t = .list L) (hrun : Filebench.threadflowDelete p t s = some s') :
    ∃ gl', Work s₀ M TM gl₀ s' N (Function.update Th p rest) (Function.update hold t .nothing) gl' ∧
      s'.threadflow = s.threadflow ∧ s'.procs = (s.setThreads p (s.tfNext t)).procs ∧
        ∀ w, w ≠ t.val → s'.flowops.tfThrdFops w = s.flowops.tfThrdFops w := by
  obtain ⟨q₀, hq₀, hlist₀⟩ := h.threads p hp
  rw [hTh] at hlist₀
  have hhead : s.pfThreads p = some t := hlist₀.1
  have hunlink : s.unlinkThread p t = some (true, s.setThreads p (s.tfNext t)) := if_pos hhead
  rw [Filebench.threadflowDelete, hunlink] at hrun
  change (flowopDeleteAll (.thread t.val) s.flowops).bind _ = some s' at hrun
  obtain ⟨flowops, hdelete, hs'⟩ := Option.bind_eq_some_iff.mp hrun
  obtain rfl := Option.some.inj hs'
  obtain ⟨gl', hhold, hheads⟩ := h.holdings.delete ht hdelete
  have hnodup : t ∉ rest := by
    have hnd := (List.nodup_cons.mp hlist₀.nodup).1
    exact fun hmem => hnd (List.mem_append_left _ hmem)
  refine ⟨gl', ?_, rfl, rfl, hheads⟩
  · refine h.replace hp (o := s.tfNext t) ?_ ?_ ?_ ?_ ?_ ?_ ?_ ?_ hhold
    · rfl
    · intro q hq hlist
      rw [hTh] at hlist
      exact hlist.2
    · exact fun _ _ => rfl
    · intro w
      change Function.update s.threadPool.bitmap t false w = true ↔ _
      rw [Function.update_apply, hTh, List.mem_cons, not_or]
      by_cases hw : w = t
      · rw [if_pos hw]
        refine iff_of_false nofun ?_
        rintro (⟨-, hne, -⟩ | hrest)
        · exact hne hw
        · exact hnodup (hw ▸ hrest)
      · rw [if_neg hw]
        constructor
        · intro halloc
          by_cases hrest : w ∈ rest
          · exact .inr hrest
          · exact .inl ⟨halloc, hw, hrest⟩
        · rintro (⟨halloc, -⟩ | hrest)
          · exact halloc
          · exact (h.threadPool w).mpr (.inr ⟨p, hp, by rw [hTh]; exact .tail _ hrest⟩)
    · intro w hw
      refine .inl ?_
      rw [hTh]
      exact .tail _ hw
    · intro w hw
      exact (h.threadFresh p hp w (by rw [hTh]; exact .tail _ hw)).2
    · intro w _ hw
      refine Function.update_of_ne (fun heq => hw ?_) ..
      rw [hTh, Fin.ext heq]
      exact .head _
    · intro w hw
      by_cases hwt : w = t.val
      · rw [hwt, Function.update_self] at hw
        exact absurd rfl hw
      · rw [Function.update_of_ne hwt] at hw
        by_cases hrest : ∃ u ∈ rest, u.val = w
        · exact .inr hrest
        · refine .inl ⟨hw, fun u hu huw => ?_⟩
          rw [hTh] at hu
          rcases List.mem_cons.mp hu with rfl | hu
          · exact hwt huw.symm
          · exact hrest ⟨u, hu, huw⟩

/-- A process without threads is removed. -/
theorem cleanup {p : Fin n} {N' : List (Fin n)} {procs : ProcShm α (Fin m) n}
    (h : Work s₀ M TM gl₀ s (p :: N') Th hold gl) (hempty : Th p = [])
    (hrun : procflowCleanup p s.procs = some procs) :
    Work s₀ M TM gl₀ { s with procs := procs } N' Th hold gl := by
  obtain ⟨procs', hrun', hrem, hpool⟩ :=
    procflowCleanup_spec h.procs (List.mem_append_left _ (.head _))
  obtain rfl := Option.some.inj (hrun'.symm.trans hrun)
  have hnodup : p ∉ N' :=
    fun hp => (List.nodup_cons.mp h.procs.list.nodup).1 (List.mem_append_left _ hp)
  have hthreads : ∀ r, (procs'.procflow r).pfThreads = s.pfThreads r := by
    intro r
    change (procs'.procflow r).still.pfThreads = _
    rw [hrem.still r]
    rfl
  exact
    { h with
      procs := by
        have hprocs := hrem.procs
        rw [List.cons_append, List.erase_cons_head] at hprocs
        exact hprocs
      procPool := by
        intro r
        rw [hpool]
        change Function.update s.procs.pool.bitmap p false r = true ↔ _
        rw [Function.update_apply]
        by_cases hr : r = p
        · rw [if_pos hr, hr, h.procFresh p (.head _)]
          exact iff_of_false nofun fun hp => hp.elim nofun hnodup
        · rw [if_neg hr, h.procPool, List.mem_cons]
          simp only [hr, false_or]
      procFresh := fun r hr => h.procFresh r (.tail _ hr)
      masters := fun r hr => (hrem.master r).mpr (h.masters r hr)
      instances := fun r hr hm => h.instances r (.tail _ hr) ((hrem.master r).mp hm)
      threads := by
        intro r hr
        obtain ⟨q, hq, hlist⟩ := h.threads r (.tail _ hr)
        refine ⟨q, hq, ?_⟩
        change IsList s.tfNext (procs'.procflow r).pfThreads _
        rw [hthreads r]
        exact hlist
      masterThreads := by
        intro q hq
        change IsList s.tfNext (procs'.procflow q).pfThreads _
        rw [hthreads q]
        exact h.masterThreads q hq
      threadPool := by
        intro t
        rw [h.threadPool]
        refine or_congr_right ⟨?_, ?_⟩
        · rintro ⟨r, hr, ht⟩
          rcases List.mem_cons.mp hr with rfl | hr
          · rw [hempty] at ht
            cases ht
          · exact ⟨r, hr, ht⟩
        · rintro ⟨r, hr, ht⟩
          exact ⟨r, .tail _ hr, ht⟩
      threadFresh := fun r hr => h.threadFresh r (.tail _ hr)
      threadApart := fun r hr r' hr' => h.threadApart r (.tail _ hr) r' (.tail _ hr')
      held := by
        intro t ht
        refine (h.held t ht).imp_left ?_
        rintro ⟨r, hr, u, hu, heq⟩
        rcases List.mem_cons.mp hr with rfl | hr
        · rw [hempty] at hu
          cases hu
        · exact ⟨r, hr, u, hu, heq⟩ }

end Work

end Filebench
