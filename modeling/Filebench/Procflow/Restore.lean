import Filebench.Lib.Owners
import Filebench.Procflow.Teardown

/-! # What a run leaves behind

A run leaves nothing behind when every worker that still has threads is running as the shutdown
comes to it, and has let its threads finish before it deletes them. -/
namespace Filebench

open Linked

variable {α β A : Type} {n m k : ℕ} {s₀ : WorkShm α β A n m k} {w w' : WorkSession α β A n m k}
  {M N : List (Fin n)} {TM Th : Fin n → List (Fin m)} {gl₀ gl : List (Fin k)}
  {hold : ThreadPtr → Holding k}

/-- Before a run on what the script has defined. -/
structure WorkSession.Begins (w : WorkSession α β A n m k) (s₀ : WorkShm α β A n m k) : Prop where
  shm : w.shm = s₀
  main : w.main = .idle
  exec : ∀ p, w.exec p = false
  thread : ∀ t, w.thread t = .absent

/-- All instances of processes and all flowops can be created, and no process but the main one
shuts down. The shutdown finds processes counted as running, no worker with threads has ended on
its own when it comes to it, and a worker that is told to stop has threads that are finished. -/
def WorkSession.meets (w : WorkSession α β A n m k) : WorkEvent α β A n m k → Bool
  | .create env =>
    (procflowInit env { w.shm.procs with shmFAbort := .ok }).all fun (created, _) => created
  | .createFlowops t env =>
    (flowopCreateRuntimeFlowops env k (some t) (.thread t) w.shm.flowops).all
      fun (ret, _) => ret = .ok
  | .filebenchShutdown => w.shm.procs.shmFAbort = .fini
  | .shutdown => 0 < w.shm.procs.shmProcsRunning ∨ w.shm.instances = []
  | .visit =>
    match w.main with
    | .visiting (some p) => w.shm.procs.Master p ∨ (w.shm.procs.procflow p).pfRunning = true ∨
        w.shm.ownThreads p = []
    | _ => true
  | .deleteThread =>
    match w.main with
    | .signalled _ (some t) => w.shm.threadMaster t ∨ w.thread t = .finished
    | _ => true
  | .reap =>
    match w.main with
    | .signalled _ (some _) => false
    | _ => true
  | _ => true

/-- What a thread holds at each point. -/
def ThreadPc.Agrees (c : Option (Fin k)) : ThreadPc k → Holding k → Prop
  | .absent, _ => False
  | .started, h => h = .prototypes
  | .failed, _ => False
  | .running, h => ∃ F, h = .forest F
  | .stopping c', h => (∃ F, h = .forest F) ∧ c' = c
  | .finished, h => ∃ L, h = .list L

/-- Where the main process is on its way, with the instances `N` left. -/
def WorkSession.Cursor (w : WorkSession α β A n m k) (M : List (Fin n)) (TM : Fin n → List (Fin m))
    (N : List (Fin n)) (Th : Fin n → List (Fin m)) : TeardownPc n m → Prop
  | .idle | .ended => N = []
  | .running => w.shm.procs.shmFAbort ≠ .fini
  | .visiting cur => cur = w.shm.procs.shmProclist ∨
      N = [] ∧ ∃ C, IsList w.shm.procs.next cur C ∧ ∀ p ∈ C, p ∈ M
  | .signalled p cur => w.exec p = true ∧ (∃ N', N = p :: N') ∧
      (cur = w.shm.pfThreads p ∨
        Th p = [] ∧ ∃ q ∈ M, ∃ C, IsList w.shm.tfNext cur C ∧ ∀ t ∈ C, t ∈ TM q)

structure Workers (s₀ : WorkShm α β A n m k) (M : List (Fin n)) (TM : Fin n → List (Fin m))
    (gl₀ : List (Fin k)) (w : WorkSession α β A n m k) (N : List (Fin n))
    (Th : Fin n → List (Fin m)) (hold : ThreadPtr → Holding k) (gl : List (Fin k)) : Prop where
  work : Work s₀ M TM gl₀ w.shm N Th hold gl
  agrees : ∀ p ∈ N, ∀ t ∈ Th p, (w.thread t).Agrees (w.shm.flowops.tfThrdFops t) (hold t)
  live : ∀ t, w.thread t = .absent ∨ w.thread t = .finished ∨ ∃ p ∈ N, t ∈ Th p
  unbegun : ∀ p ∈ N, w.exec p = false → Th p = [] ∧ (w.shm.procs.procflow p).pfRunning = false
  cursor : w.Cursor M TM N Th w.main

namespace Workers

/-- Before the run there are no workers. -/
theorem initial (hs : Scripted s₀ M TM gl₀) (hdepth : Shallow s₀ M TM) (hw : w.Begins s₀) :
    Workers s₀ M TM gl₀ w [] (fun _ => []) (Work.scripted M TM) gl₀ := by
  constructor
  · rw [hw.shm]
    exact Work.initial hs hdepth
  · nofun
  · exact fun t => .inl (hw.thread t)
  · nofun
  · rw [hw.main]
    rfl

/-- A change of the procflows that no list depends on. -/
theorem setProcs {procs : ProcShm α (Fin m) n} {main : TeardownPc n m}
    (h : Workers s₀ M TM gl₀ w N Th hold gl)
    (hnext : procs.next = w.shm.procs.next) (hhead : procs.shmProclist = w.shm.procs.shmProclist)
    (hpool : procs.pool = w.shm.procs.pool)
    (hstill : ∀ p, (procs.procflow p).still = (w.shm.procs.procflow p).still)
    (hrunning : ∀ p ∈ N, w.exec p = false → (procs.procflow p).pfRunning = false)
    (hcursor : { w with shm := { w.shm with procs := procs }, main := main }.Cursor M TM N Th
      main) :
    Workers s₀ M TM gl₀ { w with shm := { w.shm with procs := procs }, main := main } N Th hold
      gl where
  work := h.work.setProcs hnext hhead hpool hstill
  agrees := h.agrees
  live := h.live
  unbegun := fun p hp hexec => ⟨(h.unbegun p hp hexec).1, hrunning p hp hexec⟩
  cursor := hcursor

/-- One thread goes on. -/
theorem setThread {p : Fin n} {t : Fin m} {pc : ThreadPc k} {h' : Holding k} {gl' : List (Fin k)}
    {flowops : FlowopShm A k} (h : Workers s₀ M TM gl₀ w N Th hold gl) (hp : p ∈ N)
    (ht : t ∈ Th p)
    (hhold : Holdings s₀.flowops gl₀ flowops (Function.update hold t h') gl')
    (hheads : ∀ u, u ≠ t.val → flowops.tfThrdFops u = w.shm.flowops.tfThrdFops u)
    (hagree : pc.Agrees (flowops.tfThrdFops t) h') :
    Workers s₀ M TM gl₀
      { w with
        shm := { w.shm with flowops := flowops }
        thread := Function.update w.thread t pc }
      N Th (Function.update hold t h') gl' where
  work := h.work.setFlowops hp ht hhold
  agrees := by
    intro q hq u hu
    by_cases hut : u = t
    · subst hut
      simp only [Function.update_self]
      exact hagree
    · have hval : u.val ≠ t.val := fun heq => hut (Fin.ext heq)
      simp only [Function.update_of_ne hut, Function.update_of_ne hval, hheads u hval]
      exact h.agrees q hq u hu
  live := by
    intro u
    by_cases hut : u = t
    · exact .inr (.inr ⟨p, hp, hut ▸ ht⟩)
    · simp only [Function.update_of_ne hut]
      exact h.live u
  unbegun := h.unbegun
  cursor := h.cursor

/-- A thread that is neither absent nor finished is one of a process. -/
theorem owner {t : Fin m} (h : Workers s₀ M TM gl₀ w N Th hold gl)
    (habsent : w.thread t ≠ .absent) (hfinished : w.thread t ≠ .finished) :
    ∃ p ∈ N, t ∈ Th p ∧ (w.thread t).Agrees (w.shm.flowops.tfThrdFops t) (hold t) := by
  rcases h.live t with ha | hf | ⟨p, hp, ht⟩
  · exact absurd ha habsent
  · exact absurd hf hfinished
  · exact ⟨p, hp, ht, h.agrees p hp t ht⟩

/-! ## The workers -/

theorem createFlowops {t : Fin m} {env : FlowopEnv A k} (h : Workers s₀ M TM gl₀ w N Th hold gl)
    (hmeets : w.meets (.createFlowops t env))
    (hnext : w.next (.createFlowops t env) = some w') :
    ∃ hold' gl', Workers s₀ M TM gl₀ w' N Th hold' gl' := by
  rw [WorkSession.next] at hnext
  split at hnext
  next ht =>
    split at hnext
    next flowops hrun =>
      obtain rfl := Option.some.inj hnext
      obtain ⟨p, hp, htp, hagree⟩ := h.owner (by rw [ht]; nofun) (by rw [ht]; nofun)
      rw [ht] at hagree
      obtain ⟨F, gl', hhold, hheads⟩ := h.work.holdings.create hagree hrun
      exact ⟨_, gl', h.setThread hp htp (hhold.setRunning _) hheads ⟨F, rfl⟩⟩
    next ret flowops hret hrun =>
      rw [WorkSession.meets, hrun] at hmeets
      exact absurd (of_decide_eq_true hmeets) hret
    next => cases hnext
  next => cases hnext

theorem stop {t : Fin m} (h : Workers s₀ M TM gl₀ w N Th hold gl)
    (hnext : w.next (.stop t) = some w') : ∃ hold' gl', Workers s₀ M TM gl₀ w' N Th hold' gl' := by
  rw [WorkSession.next] at hnext
  split at hnext
  next ht =>
    obtain rfl := Option.some.inj hnext
    obtain ⟨p, hp, htp, hagree⟩ := h.owner (by rw [ht]; nofun) (by rw [ht]; nofun)
    rw [ht] at hagree
    have hhold := h.work.holdings.setRunning (Function.update w.shm.flowops.tfRunning t false)
    rw [← Function.update_eq_self t.val hold] at hhold
    exact ⟨_, gl, h.setThread hp htp hhold (fun _ _ => rfl) ⟨hagree, rfl⟩⟩
  next => cases hnext

theorem destruct {t : Fin m} (h : Workers s₀ M TM gl₀ w N Th hold gl)
    (hnext : w.next (.destruct t) = some w') :
    ∃ hold' gl', Workers s₀ M TM gl₀ w' N Th hold' gl' := by
  rw [WorkSession.next] at hnext
  split at hnext
  next c ht =>
    obtain ⟨flowops, hrun, hw'⟩ := Option.bind_eq_some_iff.mp hnext
    obtain rfl := Option.some.inj hw'
    obtain ⟨p, hp, htp, hagree⟩ := h.owner (by rw [ht]; nofun) (by rw [ht]; nofun)
    rw [ht] at hagree
    obtain ⟨⟨F, hF⟩, hc⟩ := hagree
    obtain ⟨gl', hhold, hheads⟩ := h.work.holdings.destruct hF hc hrun
    exact ⟨_, gl', h.setThread hp htp hhold (fun u _ => congrFun hheads u) ⟨F.tops, rfl⟩⟩
  next => cases hnext

/-- The main process stays where it is while another process creates its threads. -/
theorem cursor_createThreads {p : Fin n} {s' : WorkShm α β A n m k} {Th' : Fin n → List (Fin m)}
    {thread : Fin m → ThreadPc k} (h : Workers s₀ M TM gl₀ w N Th hold gl) (hp : p ∈ N)
    (hexec : w.exec p = false) (habort : s'.procs.shmFAbort = w.shm.procs.shmFAbort)
    (hhead : s'.procs.shmProclist = w.shm.procs.shmProclist)
    (hpfThreads : ∀ q, q ≠ p → s'.pfThreads q = w.shm.pfThreads q)
    (hold : ∀ t, w.shm.threadPool.bitmap t = true → s'.threadflow t = w.shm.threadflow t)
    (hTh : ∀ q, q ≠ p → Th' q = Th q) :
    { w with shm := s', exec := Function.update w.exec p true, thread := thread }.Cursor M TM N
      Th' w.main := by
  have hcursor := h.cursor
  cases hmain : w.main with
  | idle | ended =>
    rw [hmain] at hcursor
    rw [show N = [] from hcursor] at hp
    cases hp
  | running =>
    rw [hmain] at hcursor
    change s'.procs.shmFAbort ≠ .fini
    rw [habort]
    exact hcursor
  | visiting cur =>
    rw [hmain] at hcursor
    refine hcursor.imp (fun hcur => hcur.trans hhead.symm) ?_
    rintro ⟨hN, -⟩
    rw [hN] at hp
    cases hp
  | signalled r cur =>
    rw [hmain] at hcursor
    obtain ⟨hr, hN, hcur⟩ := hcursor
    have hrp : r ≠ p := by
      rintro rfl
      rw [hr] at hexec
      cases hexec
    refine ⟨(Function.update_of_ne hrp ..).trans hr, hN, hcur.imp ?_ ?_⟩
    · exact fun hcur => hcur.trans (hpfThreads r hrp).symm
    · rintro ⟨hempty, q, hq, C, hC, hsub⟩
      refine ⟨(hTh r hrp).trans hempty, q, hq, C, hC.congr fun t ht => ?_, hsub⟩
      have halloc := (h.work.threadMasters q hq t (hsub t ht)).1
      exact congrArg ShmThreadflow.tfNext (hold t ((h.work.threadPool t).mpr (.inl halloc)))

/-- A process that has no threads yet creates them. -/
theorem createThreads {p : Fin n} {env : Fin m → β → FbInt} {created : Bool}
    {s' : WorkShm α β A n m k} (h : Workers s₀ M TM gl₀ w N Th hold gl) (hp : p ∈ N)
    (hexec : w.exec p = false)
    (hrun : threadflowInit env p { w.shm with procs := w.shm.procs.setRunning p true } =
      some (created, s')) :
    ∃ Th' hold' gl', Workers s₀ M TM gl₀
      { w with
        shm := s'
        exec := Function.update w.exec p true
        thread := startThreads w.shm.threadPool s'.threadPool w.thread }
      N Th' hold' gl' := by
  obtain ⟨hempty, -⟩ := h.unbegun p hp hexec
  have hstill := ProcShm.setRunning_still w.shm.procs p true
  have hbegun := h.work.setProcs (ProcShm.setRunning_next w.shm.procs p true) rfl rfl hstill
  obtain ⟨L, hold', hwork, hnew⟩ := hbegun.threadflowInit hp hempty hrun
  obtain ⟨o, hprocs⟩ := hnew.procs
  have hfree : ∀ t ∈ L, w.shm.threadPool.bitmap t = false := hnew.fresh
  have hother : ∀ t, w.shm.threadPool.bitmap t = true → ∀ u ∈ L, u.val ≠ t.val := by
    intro t ht u hu heq
    rw [← Fin.ext heq, hfree u hu] at ht
    cases ht
  have hpfThreads : ∀ q, q ≠ p → s'.pfThreads q = w.shm.pfThreads q := by
    intro q hq
    rw [WorkShm.pfThreads, hprocs]
    refine (Work.setThreads_pfThreads _ p q o).trans ?_
    rw [if_neg hq]
    exact congrArg Procflow.pfThreads (Function.update_of_ne hq ..)
  have hrunning : ∀ q, q ≠ p →
      (s'.procs.procflow q).pfRunning = (w.shm.procs.procflow q).pfRunning := by
    intro q hq
    rw [hprocs]
    refine (Work.setThreads_keeps _ p o (·.pfRunning) (fun _ => rfl) q).trans ?_
    exact congrArg Procflow.pfRunning (Function.update_of_ne hq ..)
  refine ⟨_, hold', gl, hwork, ?_, ?_, ?_, ?_⟩
  · intro q hq t ht
    dsimp only
    rcases Lock.mem_update_iff.mp ht with ⟨rfl, hmem⟩ | ⟨-, hmem⟩
    · have hstarted : startThreads w.shm.threadPool s'.threadPool w.thread t = .started :=
        if_pos ⟨hfree t hmem, (hnew.pool t).mpr (.inr hmem)⟩
      rw [hstarted]
      exact hnew.prototypes t hmem
    · have halloc : w.shm.threadPool.bitmap t = true :=
        (h.work.threadPool t).mpr (.inr ⟨q, hq, hmem⟩)
      have hsame : startThreads w.shm.threadPool s'.threadPool w.thread t = w.thread t :=
        if_neg fun hc => Bool.false_ne_true (hc.1.symm.trans halloc)
      rw [hsame, hnew.others t (hother t halloc), hnew.heads t (hother t halloc)]
      exact h.agrees q hq t hmem
  · intro t
    by_cases ht : w.shm.threadPool.bitmap t = false ∧ s'.threadPool.bitmap t = true
    · refine .inr (.inr ⟨p, hp, Lock.mem_update_iff.mpr (.inl ⟨rfl, ?_⟩)⟩)
      refine ((hnew.pool t).mp ht.2).resolve_left fun halloc => ?_
      exact Bool.false_ne_true (ht.1.symm.trans halloc)
    · have hsame : startThreads w.shm.threadPool s'.threadPool w.thread t = w.thread t := if_neg ht
      dsimp only
      rw [hsame]
      refine (h.live t).imp_right (Or.imp_right ?_)
      rintro ⟨q, hq, htq⟩
      have hqp : q ≠ p := by
        rintro rfl
        rw [hempty] at htq
        cases htq
      exact ⟨q, hq, Lock.mem_update_iff.mpr (.inr ⟨hqp, htq⟩)⟩
  · intro q hq hexec'
    dsimp only at hexec' ⊢
    have hqp : q ≠ p := by
      rintro rfl
      rw [Function.update_self] at hexec'
      cases hexec'
    rw [Function.update_of_ne hqp] at hexec' ⊢
    rw [hrunning q hqp]
    exact h.unbegun q hq hexec'
  · refine h.cursor_createThreads hp hexec ?_ ?_ hpfThreads (fun t ht => hnew.old t ht)
      fun q hq => Function.update_of_ne hq ..
    · rw [hprocs]
      rfl
    · rw [hprocs]
      rfl

/-- A process that has begun ends, and leaves its threads behind. -/
theorem ends {p : Fin n} (h : Workers s₀ M TM gl₀ w N Th hold gl) (hexec : w.exec p = true) :
    Workers s₀ M TM gl₀ { w with shm := { w.shm with procs := w.shm.procs.procEnds p } } N Th hold
      gl := by
  have hstill := ProcShm.setRunning_still w.shm.procs p false
  have hsame := ProcShm.setRunning_next w.shm.procs p false
  have hthreads : ∀ r, ((w.shm.procs.setRunning p false).procflow r).pfThreads =
      w.shm.pfThreads r := by
    intro r
    change ((w.shm.procs.setRunning p false).procflow r).still.pfThreads = _
    rw [hstill r]
    rfl
  refine h.setProcs hsame rfl rfl hstill ?_ ?_
  · intro r hr hexec'
    have hrp : r ≠ p := by
      rintro rfl
      rw [hexec] at hexec'
      cases hexec'
    change (Function.update w.shm.procs.procflow p _ r).pfRunning = false
    rw [Function.update_of_ne hrp]
    exact (h.unbegun r hr hexec').2
  · have hcursor := h.cursor
    cases hmain : w.main with
    | idle | ended | running =>
      rw [hmain] at hcursor
      exact hcursor
    | visiting cur =>
      rw [hmain] at hcursor
      refine hcursor.imp_right ?_
      rintro ⟨hN, C, hC, hsub⟩
      refine ⟨hN, C, ?_, hsub⟩
      change IsList (w.shm.procs.setRunning p false).next cur C
      rw [hsame]
      exact hC
    | signalled r cur =>
      rw [hmain] at hcursor
      refine ⟨hcursor.1, hcursor.2.1, hcursor.2.2.imp_left fun hcur => ?_⟩
      exact hcur.trans (hthreads r).symm

theorem procExec {p : Fin n} {env : Fin m → β → FbInt} (h : Workers s₀ M TM gl₀ w N Th hold gl)
    (hnext : w.next (.procExec p env) = some w') :
    ∃ Th' hold' gl', Workers s₀ M TM gl₀ w' N Th' hold' gl' := by
  rw [WorkSession.next, h.work.instances_eq] at hnext
  split at hnext
  next hcond =>
    obtain ⟨⟨created, s'⟩, hrun, rfl⟩ := Option.map_eq_some_iff.mp hnext
    obtain ⟨Th', hold', gl', h'⟩ := h.createThreads hcond.1 hcond.2 hrun
    refine ⟨Th', hold', gl', ?_⟩
    cases created with
    | true => exact h'
    | false => exact h'.ends (Function.update_self ..)
  next => cases hnext

theorem procEnd {p : Fin n} (h : Workers s₀ M TM gl₀ w N Th hold gl)
    (hnext : w.next (.procEnd p) = some w') : Workers s₀ M TM gl₀ w' N Th hold gl := by
  rw [WorkSession.next] at hnext
  split at hnext
  next hcond =>
    obtain rfl := Option.some.inj hnext
    exact h.ends hcond.1
  next => cases hnext

/-! ## The main process -/

theorem create {env : ProcEnv α n} (h : Workers s₀ M TM gl₀ w N Th hold gl)
    (hmeets : w.meets (.create env)) (hnext : w.next (.create env) = some w') :
    ∃ N' Th', Workers s₀ M TM gl₀ w' N' Th' hold gl := by
  rw [WorkSession.next] at hnext
  split at hnext
  next hmain =>
    have hcursor := h.cursor
    rw [hmain] at hcursor
    obtain rfl : N = [] := hcursor
    obtain ⟨⟨created, procs⟩, hrun, rfl⟩ := Option.map_eq_some_iff.mp hnext
    rw [WorkSession.meets, hrun] at hmeets
    obtain rfl : created = true := hmeets
    obtain ⟨N', hwork, hstopped, hfAbort⟩ := h.work.create hrun
    refine ⟨N', _, hwork, nofun, fun t => ?_, fun p hp _ => ⟨rfl, hstopped p hp⟩, ?_⟩
    · rcases h.live t with ha | hf | ⟨p, hp, -⟩
      · exact .inl ha
      · exact .inr (.inl hf)
      · cases hp
    · change procs.shmFAbort ≠ .fini
      rw [hfAbort]
      nofun
  next => cases hnext

/-- Another process that shuts down does nothing once the main one has. -/
theorem filebenchShutdown (h : Workers s₀ M TM gl₀ w N Th hold gl)
    (hmeets : w.meets .filebenchShutdown) (hnext : w.next .filebenchShutdown = some w') :
    Workers s₀ M TM gl₀ w' N Th hold gl := by
  have hfini : w.shm.procs.shmFAbort = .fini := of_decide_eq_true hmeets
  rw [WorkSession.next, ProcShm.filebenchShutdown, if_pos hfini] at hnext
  obtain rfl := Option.some.inj hnext
  exact h

theorem allstarted (h : Workers s₀ M TM gl₀ w N Th hold gl)
    (hnext : w.next .allstarted = some w') : Workers s₀ M TM gl₀ w' N Th hold gl := by
  rw [WorkSession.next] at hnext
  split at hnext
  next hmain =>
    obtain rfl := Option.some.inj hnext
    have hcursor := h.cursor
    rw [hmain] at hcursor
    refine h.setProcs rfl rfl rfl (fun _ => rfl) (fun p hp hexec => (h.unbegun p hp hexec).2) ?_
    rw [hmain]
    exact hcursor
  next => cases hnext

theorem abort {fAbort : FAbort} (h : Workers s₀ M TM gl₀ w N Th hold gl)
    (hnext : w.next (.abort fAbort) = some w') : Workers s₀ M TM gl₀ w' N Th hold gl := by
  rw [WorkSession.next] at hnext
  split at hnext
  next => cases hnext
  next hcond =>
    obtain rfl := Option.some.inj hnext
    refine h.setProcs rfl rfl rfl (fun _ => rfl) (fun p hp hexec => (h.unbegun p hp hexec).2) ?_
    have hcursor := h.cursor
    cases hmain : w.main with
    | running => exact fun hfini => hcond (.inr hfini)
    | idle | ended | visiting cur | signalled p cur =>
      rw [hmain] at hcursor
      exact hcursor

theorem shutdown (h : Workers s₀ M TM gl₀ w N Th hold gl) (hmeets : w.meets .shutdown)
    (hnext : w.next .shutdown = some w') : Workers s₀ M TM gl₀ w' N Th hold gl := by
  rw [WorkSession.next] at hnext
  split at hnext
  next hmain =>
    have hcursor := h.cursor
    rw [hmain] at hcursor
    split at hnext
    next hcond =>
      obtain rfl := Option.some.inj hnext
      have hN : N = [] := by
        rw [WorkSession.meets, h.work.instances_eq] at hmeets
        rcases of_decide_eq_true hmeets with hpos | hN
        · rcases hcond with hle | hfini
          · exact absurd hpos hle.not_gt
          · exact absurd hfini hcursor
        · exact hN
      exact ⟨h.work, h.agrees, h.live, h.unbegun, hN⟩
    next =>
      obtain rfl := Option.some.inj hnext
      exact h.setProcs rfl rfl rfl (fun _ => rfl)
        (fun p hp hexec => (h.unbegun p hp hexec).2) (.inl rfl)
  next => cases hnext

/-- The first instance is removed once it has no threads. -/
theorem cleanup {p : Fin n} {N' : List (Fin n)} {procs : ProcShm α (Fin m) n}
    (h : Workers s₀ M TM gl₀ w (p :: N') Th hold gl) (hempty : Th p = [])
    (hrun : procflowCleanup p w.shm.procs = some procs) :
    Workers s₀ M TM gl₀
      { w with
        shm := { w.shm with procs := procs }
        main := .visiting (w.shm.procs.next p) }
      N' Th hold gl := by
  have hwork := h.work.cleanup hempty hrun
  obtain ⟨procs', hrun', hrem, -⟩ :=
    procflowCleanup_spec h.work.procs (List.mem_append_left _ (.head _))
  obtain rfl := Option.some.inj (hrun'.symm.trans hrun)
  refine ⟨hwork, fun q hq => h.agrees q (.tail _ hq), fun t => ?_, fun q hq hexec => ?_, .inl ?_⟩
  · refine (h.live t).imp_right (Or.imp_right ?_)
    rintro ⟨q, hq, ht⟩
    rcases List.mem_cons.mp hq with rfl | hq
    · rw [hempty] at ht
      cases ht
    · exact ⟨q, hq, ht⟩
  · obtain ⟨hTh, hrunning⟩ := h.unbegun q (.tail _ hq) hexec
    exact ⟨hTh, procflowCleanup_pfRunning hrun hrunning⟩
  · exact h.work.procs.list.2.head.trans hwork.procs.list.head.symm

theorem visit (h : Workers s₀ M TM gl₀ w N Th hold gl) (hmeets : w.meets .visit)
    (hnext : w.next .visit = some w') : ∃ N', Workers s₀ M TM gl₀ w' N' Th hold gl := by
  have hcursor := h.cursor
  rw [WorkSession.next] at hnext
  split at hnext
  next hmain =>
    obtain rfl := Option.some.inj hnext
    rw [hmain] at hcursor
    refine ⟨N, h.setProcs rfl rfl rfl (fun _ => rfl)
      (fun p hp hexec => (h.unbegun p hp hexec).2) ?_⟩
    rcases hcursor with hcur | ⟨hN, -⟩
    · have hlist := h.work.procs.list
      rw [← hcur] at hlist
      exact (List.append_eq_nil_iff.mp (List.head?_eq_none_iff.mp hlist.head.symm)).1
    · exact hN
  next p hmain =>
    rw [hmain] at hcursor
    split at hnext
    next hmaster =>
      obtain rfl := Option.some.inj hnext
      refine ⟨N, h.work, h.agrees, h.live, h.unbegun, .inr ?_⟩
      rcases hcursor with hcur | ⟨hN, C, hC, hsub⟩
      · have hlist := h.work.procs.list
        rw [← hcur] at hlist
        obtain ⟨hN, C, rfl, hC⟩ := hlist.past fun hp => h.work.instances p hp hmaster
        exact ⟨hN, C, hC, fun q hq => .tail _ hq⟩
      · obtain ⟨-, rest, rfl, hrest⟩ := @IsList.past _ _ [] _ _ hC List.not_mem_nil
        exact ⟨hN, rest, hrest, fun q hq => hsub q (.tail _ hq)⟩
    next hinstance =>
      have hfirst : ∃ N', N = p :: N' := by
        rcases hcursor with hcur | ⟨-, C, hC, hsub⟩
        · have hlist := h.work.procs.list
          rw [← hcur] at hlist
          exact hlist.first fun hp => hinstance (h.work.masters p hp)
        · exact absurd (h.work.masters p (hsub p (List.mem_of_mem_head? hC.head.symm))) hinstance
      obtain ⟨N', rfl⟩ := hfirst
      split at hnext
      next hrunning =>
        obtain rfl := Option.some.inj hnext
        refine ⟨p :: N', h.work, h.agrees, h.live, h.unbegun, ?_, ⟨N', rfl⟩, .inl rfl⟩
        by_contra hexec
        have hstopped := (h.unbegun p (.head _) (Bool.not_eq_true _ ▸ hexec)).2
        rw [hrunning] at hstopped
        cases hstopped
      next hrunning =>
        obtain ⟨procs, hrun, hw'⟩ := Option.bind_eq_some_iff.mp hnext
        obtain rfl := Option.some.inj hw'
        refine ⟨N', h.cleanup ?_ hrun⟩
        rw [WorkSession.meets, hmain] at hmeets
        rcases of_decide_eq_true hmeets with hm | hr | hown
        · exact absurd hm hinstance
        · exact absurd hr hrunning
        · rwa [h.work.ownThreads_eq (.head _)] at hown
  next => cases hnext

/-- The cursor at a thread of the script goes on to the next one. -/
theorem past {p : Fin n} {t : Fin m} (h : Workers s₀ M TM gl₀ w (p :: N) Th hold gl)
    (ht : w.shm.threadMaster t)
    (hcur : some t = w.shm.pfThreads p ∨
      Th p = [] ∧ ∃ q ∈ M, ∃ C, IsList w.shm.tfNext (some t) C ∧ ∀ u ∈ C, u ∈ TM q) :
    Th p = [] ∧ ∃ q ∈ M, ∃ C, IsList w.shm.tfNext (w.shm.tfNext t) C ∧ ∀ u ∈ C, u ∈ TM q := by
  rcases hcur with hcur | ⟨hempty, q, hq, C, hC, hsub⟩
  · obtain ⟨q, hq, hlist⟩ := h.work.threads p (.head _)
    rw [← hcur] at hlist
    obtain ⟨hempty, C, hTM, hC⟩ :=
      hlist.past fun hmem => (h.work.threadFresh p (.head _) t hmem).2 ht
    refine ⟨hempty, q, hq, C, hC, fun u hu => ?_⟩
    rw [hTM]
    exact .tail _ hu
  · obtain ⟨-, rest, rfl, hrest⟩ := @IsList.past _ _ [] _ _ hC List.not_mem_nil
    exact ⟨hempty, q, hq, rest, hrest, fun u hu => hsub u (.tail _ hu)⟩

/-- The cursor at a thread of the worker is at its first one. -/
theorem first {p : Fin n} {t : Fin m} (h : Workers s₀ M TM gl₀ w (p :: N) Th hold gl)
    (ht : ¬ w.shm.threadMaster t)
    (hcur : some t = w.shm.pfThreads p ∨
      Th p = [] ∧ ∃ q ∈ M, ∃ C, IsList w.shm.tfNext (some t) C ∧ ∀ u ∈ C, u ∈ TM q) :
    ∃ rest, Th p = t :: rest := by
  rcases hcur with hcur | ⟨-, q, hq, C, hC, hsub⟩
  · obtain ⟨q, hq, hlist⟩ := h.work.threads p (.head _)
    rw [← hcur] at hlist
    exact hlist.first fun hmem => ht (h.work.threadMasters q hq t hmem).2.1
  · have hmem : t ∈ TM q := hsub t (List.mem_of_mem_head? hC.head.symm)
    exact absurd (h.work.threadMasters q hq t hmem).2.1 ht

/-- A worker is told to stop, and its first thread is deleted. -/
theorem delete {p : Fin n} {t : Fin m} {rest : List (Fin m)} {s' : WorkShm α β A n m k}
    (h : Workers s₀ M TM gl₀ w (p :: N) Th hold gl) (hexec : w.exec p = true)
    (hTh : Th p = t :: rest) (hfinished : w.thread t = .finished)
    (hrun : threadflowDelete p t w.shm = some s') :
    ∃ hold' gl', Workers s₀ M TM gl₀
      { w with shm := s', main := .signalled p (s'.tfNext t) }
      (p :: N) (Function.update Th p rest) hold' gl' := by
  have ht : t ∈ Th p := hTh ▸ .head _
  have hagree := h.agrees p (.head _) t ht
  rw [hfinished] at hagree
  obtain ⟨L, hL⟩ := hagree
  obtain ⟨gl', hwork, hsame, hprocs, hheads⟩ := h.work.threadflowDelete (.head _) hTh hL hrun
  obtain ⟨q, -, hlist⟩ := h.work.threads p (.head _)
  have hnodup : t ∉ rest := by
    rw [hTh] at hlist
    exact fun hmem => (List.nodup_cons.mp hlist.nodup).1 (List.mem_append_left _ hmem)
  refine ⟨_, gl', hwork, ?_, ?_, ?_, hexec, ⟨N, rfl⟩, .inl ?_⟩
  · intro r hr u hu
    have hkeep : u ∈ Th r ∧ u ≠ t := by
      rcases Lock.mem_update_iff.mp hu with ⟨rfl, hmem⟩ | ⟨hrp, hmem⟩
      · exact ⟨hTh ▸ .tail _ hmem, ne_of_mem_of_not_mem hmem hnodup⟩
      · refine ⟨hmem, ?_⟩
        rintro rfl
        exact hrp (h.work.threadApart r hr p (.head _) u hmem ht)
    have hval : u.val ≠ t.val := fun heq => hkeep.2 (Fin.ext heq)
    rw [Function.update_of_ne hval, hheads u hval]
    exact h.agrees r hr u hkeep.1
  · intro u
    by_cases hut : u = t
    · exact .inr (.inl (hut ▸ hfinished))
    · refine (h.live u).imp_right (Or.imp_right ?_)
      rintro ⟨r, hr, hu⟩
      refine ⟨r, hr, Lock.mem_update_iff.mpr ?_⟩
      by_cases hrp : r = p
      · subst hrp
        rw [hTh] at hu
        exact .inl ⟨rfl, (List.mem_cons.mp hu).resolve_left hut⟩
      · exact .inr ⟨hrp, hu⟩
  · intro r hr hexec'
    have hrp : r ≠ p := by
      rintro rfl
      exact Bool.false_ne_true (hexec'.symm.trans hexec)
    rw [Function.update_of_ne hrp, hprocs]
    refine ⟨(h.unbegun r hr hexec').1, ?_⟩
    rw [Work.setThreads_keeps _ p _ (·.pfRunning) fun _ => rfl]
    exact (h.unbegun r hr hexec').2
  · change s'.tfNext t = s'.pfThreads p
    rw [WorkShm.tfNext, hsame, WorkShm.pfThreads, hprocs]
    exact ((Work.setThreads_pfThreads _ p p _).trans (if_pos rfl)).symm

theorem deleteThread (h : Workers s₀ M TM gl₀ w N Th hold gl) (hmeets : w.meets .deleteThread)
    (hnext : w.next .deleteThread = some w') :
    ∃ Th' hold' gl', Workers s₀ M TM gl₀ w' N Th' hold' gl' := by
  have hcursor := h.cursor
  rw [WorkSession.next] at hnext
  split at hnext
  next p t hmain =>
    rw [hmain] at hcursor
    obtain ⟨hexec, ⟨N', rfl⟩, hcur⟩ := hcursor
    split at hnext
    next hmaster =>
      obtain rfl := Option.some.inj hnext
      exact ⟨Th, hold, gl, h.work, h.agrees, h.live, h.unbegun, hexec, ⟨N', rfl⟩,
        .inr (h.past hmaster hcur)⟩
    next hown =>
      split at hnext
      next => cases hnext
      next =>
        obtain ⟨rest, hTh⟩ := h.first hown hcur
        rw [WorkSession.meets, hmain] at hmeets
        have hfinished := (of_decide_eq_true hmeets).resolve_left hown
        obtain ⟨s', hrun, hw'⟩ := Option.bind_eq_some_iff.mp hnext
        obtain rfl := Option.some.inj hw'
        exact ⟨_, h.delete hexec hTh hfinished hrun⟩
  next => cases hnext

theorem reap (h : Workers s₀ M TM gl₀ w N Th hold gl) (hmeets : w.meets .reap)
    (hnext : w.next .reap = some w') : ∃ N', Workers s₀ M TM gl₀ w' N' Th hold gl := by
  have hcursor := h.cursor
  rw [WorkSession.next] at hnext
  split at hnext
  next p cur hmain =>
    rw [hmain] at hcursor
    obtain ⟨-, ⟨N', rfl⟩, hcur⟩ := hcursor
    obtain ⟨procs, hrun, hw'⟩ := Option.bind_eq_some_iff.mp hnext
    obtain rfl := Option.some.inj hw'
    refine ⟨N', h.cleanup ?_ hrun⟩
    rcases hcur with hcur | ⟨hempty, -⟩
    · obtain ⟨q, -, hlist⟩ := h.work.threads p (.head _)
      rw [WorkSession.meets, hmain] at hmeets
      cases cur with
      | some t => cases hmeets
      | none =>
        rw [← hcur] at hlist
        exact (List.append_eq_nil_iff.mp (List.head?_eq_none_iff.mp hlist.head.symm)).1
    · exact hempty
  next => cases hnext

theorem step {e : WorkEvent α β A n m k} (h : Workers s₀ M TM gl₀ w N Th hold gl)
    (hmeets : w.meets e) (hnext : w.next e = some w') :
    ∃ N' Th' hold' gl', Workers s₀ M TM gl₀ w' N' Th' hold' gl' := by
  cases e with
  | create env =>
    obtain ⟨N', Th', h'⟩ := h.create hmeets hnext
    exact ⟨N', Th', hold, gl, h'⟩
  | procExec p env => exact ⟨N, h.procExec hnext⟩
  | createFlowops t env => exact ⟨N, Th, h.createFlowops hmeets hnext⟩
  | stop t => exact ⟨N, Th, h.stop hnext⟩
  | destruct t => exact ⟨N, Th, h.destruct hnext⟩
  | procEnd p => exact ⟨N, Th, hold, gl, h.procEnd hnext⟩
  | allstarted => exact ⟨N, Th, hold, gl, h.allstarted hnext⟩
  | abort fAbort => exact ⟨N, Th, hold, gl, h.abort hnext⟩
  | filebenchShutdown => exact ⟨N, Th, hold, gl, h.filebenchShutdown hmeets hnext⟩
  | shutdown => exact ⟨N, Th, hold, gl, h.shutdown hmeets hnext⟩
  | visit =>
    obtain ⟨N', h'⟩ := h.visit hmeets hnext
    exact ⟨N', Th, hold, gl, h'⟩
  | deleteThread => exact ⟨N, h.deleteThread hmeets hnext⟩
  | reap =>
    obtain ⟨N', h'⟩ := h.reap hmeets hnext
    exact ⟨N', Th, hold, gl, h'⟩

end Workers

def nthreadflows : ℕ := 64 * 4096

theorem nprocflows_pos : 0 < nprocflows := by decide
theorem nthreadflows_pos : 0 < nthreadflows := by decide

def scriptProc : Fin nprocflows := ⟨0, nprocflows_pos⟩
def scriptThread : Fin nthreadflows := ⟨0, nthreadflows_pos⟩

/-- One process with one thread, which has a composite flowop with an inner one. -/
def workerScript : WorkShm Unit Unit Unit nprocflows nthreadflows nflowops where
  procs :=
    { procflow := fun _ => ⟨['p'], flowMaster, (), false, none, some scriptThread⟩
      pool := ⟨(· = scriptProc), scriptProc⟩
      shmProclist := some scriptProc
      shmProcsRunning := 0
      shmFAbort := .ok }
  threadflow := fun _ => ⟨['t'], flowMaster, (), none⟩
  threadPool := ⟨(· = scriptThread), scriptThread⟩
  flowops :=
    { compositeThread ∅ with pool := ⟨fun p => p = outerOp ∨ p = innerOp, innerOp⟩ }

end Filebench
