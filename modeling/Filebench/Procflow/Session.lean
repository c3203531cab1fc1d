import Filebench.Lib.Trace
import Filebench.Procflow.Instances

/-! # The processes of a session

A session defines processes and makes runs, each of which creates instances, waits until they have
started, lets them work and shuts them down. In the meantime they start and end on their own, and
any of them can abort the run. -/
namespace Filebench

open Linked

variable {α T : Type} {n : ℕ}

/-- What the main process does next: a command, a visit of the wait for the start of all processes
or the shutdown of the run. -/
inductive MainPc (n : ℕ) where
  | idle
  | allstarted (procflow : Option (Fin n)) (runningProcs : ℤ)
  | running
  deriving DecidableEq

structure ProcSession (α T : Type) (n : ℕ) where
  shm : ProcShm α T n
  pc : MainPc n

/-- The first five are events of the main process, the others of a worker process or of the thread
that waits for these. -/
inductive ProcEvent (α T : Type) (n : ℕ) where
  | define (name : CString) (instances : α)
  | create (env : ProcEnv α n)
  | allstarted
  | notStarted
  | shutdown
  | setRunning (p : Fin n) (b : Bool)
  | setThreads (p : Fin n) (threads : Option T)
  | exit
  | abort (fAbort : FAbort)
  | filebenchShutdown

/-- `filebench_shutdown` after an error. -/
def ProcShm.filebenchShutdown (s : ProcShm α T n) : Option (ProcShm α T n) :=
  if s.shmFAbort = .fini then some s else procflowShutdown { s with shmFAbort := .error }

/-- One visit. A procflow of the script is passed over, and any other one counted. -/
def procflowAllstarted (s : ProcShm α T n) : Option (Fin n) → ℤ → ProcShm α T n × MainPc n
  | none, runningProcs => ({ s with shmProcsRunning := runningProcs }, .running)
  | some p, runningProcs =>
    (s, .allstarted (s.next p) (if s.Master p then runningProcs else runningProcs + 1))

/-- The session ends where the program does. -/
def ProcSession.next (s : ProcSession α T n) : ProcEvent α T n → Option (ProcSession α T n)
  | .define name instances =>
    if s.pc = .idle then
      (procflowDefine name instances s.shm).map fun shm => { s with shm := shm }
    else none
  | .create env =>
    if s.pc = .idle then
      match procflowInit env { s.shm with shmFAbort := .ok } with
      | some (true, shm) => some ⟨shm, .allstarted shm.shmProclist 0⟩
      | _ => none
    else none
  | .allstarted =>
    match s.pc with
    | .allstarted procflow runningProcs =>
      let (shm, pc) := procflowAllstarted s.shm procflow runningProcs
      some ⟨shm, pc⟩
    | _ => none
  | .notStarted =>
    match s.pc with
    | .allstarted (some p) _ =>
      if (s.shm.procflow p).pfRunning = false ∧ s.shm.shmFAbort = .error then
        some { s with pc := .running }
      else none
    | _ => none
  | .shutdown =>
    if s.pc = .running then (procflowShutdown s.shm).map fun shm => ⟨shm, .idle⟩ else none
  | .setRunning p b => some { s with shm := s.shm.setRunning p b }
  | .setThreads p threads =>
    some { s with shm := s.shm.modify p fun f => { f with pfThreads := threads } }
  | .exit => some { s with shm := { s.shm with shmProcsRunning := s.shm.shmProcsRunning - 1 } }
  | .abort fAbort =>
    if fAbort = .ok ∨ fAbort = .fini then none
    else some { s with shm := { s.shm with shmFAbort := fAbort } }
  | .filebenchShutdown => s.shm.filebenchShutdown.map fun shm => { s with shm := shm }

def ProcSession.Fresh (s : ProcSession α T n) : Prop := s.pc = .idle ∧ s.shm.shmProclist = none

/-- The runs of a session. -/
abbrev ProcRun : List (ProcSession α T n × ProcEvent α T n) → ProcSession α T n → Prop :=
  Trace.Run ProcSession.next ProcSession.Fresh

/-- The processes that the script defined. -/
def definitions (trace : List (ProcSession α T n × ProcEvent α T n)) : List (CString × α) :=
  trace.filterMap fun x =>
    match x.2 with
    | .define name instances => some (name, instances)
    | _ => none

/-- The procflow is on the list. -/
def ProcShm.Listed (s : ProcShm α T n) (p : Fin n) : Prop :=
  ∃ L, IsList s.next s.shmProclist L ∧ p ∈ L

/-- A shutdown finds a process that is counted as running, unless there is no instance to be
removed, and the numbers of instances fit into an `int`. -/
def ProcSession.Meets (s : ProcSession α T n) : ProcEvent α T n → Prop
  | .create env => env.createnwait = true ∧
      ∀ p, s.shm.Listed p → (env.instances p (s.shm.procflow p).pfInstances).toNat < 2 ^ 31
  | .shutdown => 0 < s.shm.shmProcsRunning ∨ ∀ p, s.shm.Listed p → s.shm.Master p
  | _ => True

/-- The run makes its instances `N` of the procflows `M` of the script, and no others. -/
structure RunCreates (env : ProcEnv α n) (s s' : ProcShm α T n) (M N : List (Fin n)) : Prop where
  before : IsList s.next s.shmProclist M
  masters : ∀ p ∈ M, s.Master p
  after : IsList s'.next s'.shmProclist (N ++ M)
  kept : ∀ p ∈ M, s'.procflow p = s.procflow p
  instances : N.reverse.map (fun q => (s'.procflow q).still) = M.flatMap fun p =>
    (List.range (env.instances p (s.procflow p).pfInstances).toNat).map
      fun j : ℕ => (s.procflow p).copy (j + 1)

/-! ## The invariant -/

section invariant

variable {s s' : ProcSession α T n} {L : List (Fin n)} {D : List (CString × α)}

/-- A procflow as it was defined. -/
def Procflow.definition (f : Procflow α T n) : CString × α := (f.pfName, f.pfInstances)

theorem Procflow.still_definition {f g : Procflow α T n} (h : f.still = g.still) :
    f.definition = g.definition :=
  Prod.ext (Procflow.still_pfName h) (Procflow.still_pfInstances h)

structure ProcShm.Invariant (s : ProcShm α T n) (L : List (Fin n)) (D : List (CString × α)) :
    Prop where
  procs : ProcList s L
  defined : (L.filter (s.Master ·)).map (fun p => (s.procflow p).definition) = D
  fini : s.shmFAbort = .fini → ∀ p ∈ L, s.Master p

theorem ProcShm.Invariant.removed {s s' : ProcShm α T n} (h : s.Invariant L D)
    (hrem : Removed s s' (L.filter (s.Master ·))) :
    s'.Invariant (L.filter (s.Master ·)) D ∧ ∀ p ∈ L.filter (s.Master ·), s'.Master p := by
  have hmaster : ∀ p ∈ L.filter (s.Master ·), s'.Master p := by
    intro p hp
    exact (hrem.master p).mpr (of_decide_eq_true (List.mem_filter.mp hp).2)
  refine ⟨⟨hrem.procs, ?_, fun _ => hmaster⟩, hmaster⟩
  rw [List.filter_eq_self.mpr fun p hp => decide_eq_true (hmaster p hp), ← h.defined]
  exact List.map_congr_left fun p _ => Procflow.still_definition (hrem.still p)

/-- A change of other fields. -/
theorem ProcShm.Invariant.congr {s s' : ProcShm α T n} (h : s.Invariant L D)
    (hnext : s'.next = s.next) (hhead : s'.shmProclist = s.shmProclist)
    (hbitmap : s'.pool.bitmap = s.pool.bitmap)
    (hinst : ∀ p, (s'.procflow p).pfInstance = (s.procflow p).pfInstance)
    (hdef : ∀ p, (s'.procflow p).definition = (s.procflow p).definition)
    (hfini : s'.shmFAbort = .fini → s.shmFAbort = .fini) : s'.Invariant L D := by
  have hmaster : ∀ p, s'.Master p ↔ s.Master p := fun p => by
    rw [ProcShm.Master, ProcShm.Master, hinst p]
  refine ⟨⟨?_, ?_⟩, ?_, fun hf p hp => (hmaster p).mpr (h.fini (hfini hf) p hp)⟩
  · rw [hnext, hhead]
    exact h.procs.list
  · rw [hbitmap]
    exact h.procs.allocated
  · rw [← h.defined, List.filter_congr fun p _ => decide_eq_decide.mpr (hmaster p)]
    exact List.map_congr_left fun p _ => hdef p

/-- Either nothing is done or all instances are removed. -/
theorem ProcShm.Invariant.shutdown {s s' : ProcShm α T n} (h : s.Invariant L D)
    (hrun : procflowShutdown s = some s') :
    (s' = s ∧ (s.shmProcsRunning ≤ 0 ∨ s.shmFAbort = .fini)) ∨
      s'.Invariant (L.filter (s.Master ·)) D ∧ ∀ p ∈ L.filter (s.Master ·), s'.Master p := by
  by_cases hrunning : s.shmProcsRunning ≤ 0
  · rw [procflowShutdown, if_pos hrunning] at hrun
    exact .inl ⟨(Option.some.inj hrun).symm, .inl hrunning⟩
  · by_cases hfini : s.shmFAbort = .fini
    · rw [procflowShutdown, if_neg hrunning, if_pos hfini] at hrun
      exact .inl ⟨(Option.some.inj hrun).symm, .inr hfini⟩
    · obtain ⟨s₁, hrun₁, hrem⟩ := procflowShutdown_spec h.procs (not_le.mp hrunning) hfini
      obtain rfl := Option.some.inj (hrun₁.symm.trans hrun)
      exact .inr (h.removed hrem)

/-- Between two commands only procflows of the script are on the list. -/
structure ProcSession.Invariant (s : ProcSession α T n) (L : List (Fin n))
    (D : List (CString × α)) : Prop where
  shm : s.shm.Invariant L D
  idle : s.pc = .idle → ∀ p ∈ L, s.shm.Master p

theorem ProcShm.listed_iff {s : ProcShm α T n} (hs : ProcList s L) {p : Fin n} :
    s.Listed p ↔ p ∈ L := by
  constructor
  · rintro ⟨L', hL', hp⟩
    rwa [hs.list.unique hL']
  · exact fun hp => ⟨L, hs.list, hp⟩

theorem ProcShm.Invariant.define {s s' : ProcShm α T n} {name : CString} {instances : α}
    (h : s.Invariant L D) (hmasters : ∀ p ∈ L, s.Master p)
    (hrun : procflowDefine name instances s = some s') :
    ∃ p, s'.Invariant (p :: L) ((name, instances) :: D) ∧ ∀ q ∈ p :: L, s'.Master q := by
  unfold procflowDefine at hrun
  cases hdef : procflowDefineCommon name (clearedProcflow instances) flowMaster s with
  | none => rw [hdef] at hrun; cases hrun
  | some r =>
    obtain ⟨o, s₁⟩ := r
    rw [hdef] at hrun
    cases o with
    | none => cases hrun
    | some p =>
      obtain rfl : s₁ = s' := Option.some.inj hrun
      obtain ⟨hpush, hp⟩ := procflowDefineCommon_some h.procs hdef
      have hmaster : ∀ q ∈ p :: L, s₁.Master q := by
        intro q hq
        rcases List.mem_cons.mp hq with rfl | hq
        · rw [ProcShm.Master, hp]
        · rw [ProcShm.Master, hpush.old q hq]
          exact hmasters q hq
      have hL : L.filter (s.Master ·) = L :=
        List.filter_eq_self.mpr fun q hq => decide_eq_true (hmasters q hq)
      refine ⟨p, ⟨hpush.procs, ?_, fun _ => hmaster⟩, hmaster⟩
      rw [List.filter_eq_self.mpr fun q hq => decide_eq_true (hmaster q hq), List.map_cons,
        ← h.defined, hL, hp]
      refine congrArg (_ :: ·) (List.map_congr_left fun q hq => ?_)
      rw [hpush.old q hq]

theorem ProcShm.Invariant.create {s s' : ProcShm α T n} {env : ProcEnv α n} (h : s.Invariant L D)
    (hmasters : ∀ p ∈ L, s.Master p) (hwait : env.createnwait = true)
    (hrun : procflowInit env { s with shmFAbort := .ok } = some (true, s')) :
    ∃ N, s'.Invariant (N ++ L) D ∧
      Pushed { s with shmFAbort := .ok } s' N L ∧
      N.reverse.map (fun q => (s'.procflow q).still) = instancesOf env s L := by
  rw [procflowInit, hwait, if_pos rfl] at hrun
  split at hrun
  next => cases hrun
  next =>
    have hs₀ : ProcList { s with shmFAbort := .ok } L := ⟨h.procs.list, h.procs.allocated⟩
    obtain ⟨N, hpush, hmap, -⟩ := createAllProcs_spec hs₀ h.procs.list (fun _ hp => hp) hrun
    have hnew : ∀ q ∈ N, ¬ s'.Master q := by
      intro q hq
      obtain ⟨p, -, j, hcopy⟩ := instancesOf_copy hmap q hq
      exact not_master_of_copy hcopy
    have hold : ∀ p ∈ L, s'.Master p := by
      intro p hp
      rw [ProcShm.Master, hpush.old p hp]
      exact hmasters p hp
    refine ⟨N, ⟨hpush.procs, ?_, fun hf => ?_⟩, hpush, hmap⟩
    · rw [List.filter_append, List.filter_eq_nil_iff.mpr fun q hq => by simpa using hnew q hq,
        List.nil_append, List.filter_eq_self.mpr fun q hq => decide_eq_true (hold q hq),
        ← h.defined, List.filter_eq_self.mpr fun q hq => decide_eq_true (hmasters q hq)]
      refine List.map_congr_left fun q hq => ?_
      rw [hpush.old q hq]
    · rw [hpush.fAbort] at hf
      cases hf

/-- What one event of a session preserves. -/
theorem ProcSession.Invariant.step {trace : List (ProcSession α T n × ProcEvent α T n)}
    {e : ProcEvent α T n} (h : s.Invariant L (definitions trace)) (hnext : s.next e = some s')
    (hmeets : s.Meets e) : ∃ L', s'.Invariant L' (definitions ((s, e) :: trace)) := by
  cases e with
  | define name instances =>
    simp only [ProcSession.next] at hnext
    split at hnext
    next hpc =>
      obtain ⟨shm, hrun, rfl⟩ := Option.map_eq_some_iff.mp hnext
      obtain ⟨p, hshm, hmasters⟩ := h.shm.define (h.idle hpc) hrun
      exact ⟨p :: L, hshm, fun _ => hmasters⟩
    next => cases hnext
  | create env =>
    simp only [ProcSession.next] at hnext
    split at hnext
    next hpc =>
      split at hnext
      next shm hrun =>
        obtain rfl := Option.some.inj hnext
        obtain ⟨N, hshm, -, -⟩ := h.shm.create (h.idle hpc) hmeets.1 hrun
        exact ⟨N ++ L, hshm, nofun⟩
      next => cases hnext
    next => cases hnext
  | allstarted =>
    simp only [ProcSession.next] at hnext
    split at hnext
    next procflow runningProcs _ =>
      obtain rfl := Option.some.inj hnext
      cases procflow with
      | none => exact ⟨L, h.shm.congr rfl rfl rfl (fun _ => rfl) (fun _ => rfl) id, nofun⟩
      | some p => exact ⟨L, h.shm, nofun⟩
    next => cases hnext
  | notStarted =>
    simp only [ProcSession.next] at hnext
    split at hnext
    next =>
      split at hnext
      next =>
        obtain rfl := Option.some.inj hnext
        exact ⟨L, h.shm, nofun⟩
      next => cases hnext
    next => cases hnext
  | shutdown =>
    simp only [ProcSession.next] at hnext
    split at hnext
    next =>
      obtain ⟨shm, hrun, rfl⟩ := Option.map_eq_some_iff.mp hnext
      rcases h.shm.shutdown hrun with ⟨rfl, hearly⟩ | ⟨hshm, hmasters⟩
      · refine ⟨L, h.shm, fun _ => ?_⟩
        rcases hmeets with hrunning | hlisted
        · exact h.shm.fini (hearly.resolve_left (not_le.mpr hrunning))
        · exact fun p hp => hlisted p ((ProcShm.listed_iff h.shm.procs).mpr hp)
      · exact ⟨_, hshm, fun _ => hmasters⟩
    next => cases hnext
  | setRunning p b =>
    obtain rfl := Option.some.inj hnext
    have hstill := s.shm.setRunning_still p b
    refine ⟨L, h.shm.congr (s.shm.setRunning_next p b) rfl rfl ?_ ?_ id, ?_⟩
    · exact fun r => Procflow.still_pfInstance (hstill r)
    · exact fun r => Procflow.still_definition (hstill r)
    · intro hpc r hr
      rw [ProcShm.Master, Procflow.still_pfInstance (hstill r)]
      exact h.idle hpc r hr
  | setThreads p threads =>
    obtain rfl := Option.some.inj hnext
    have hkeeps : ∀ {X : Type} (g : Procflow α T n → X),
        (∀ f, g { f with pfThreads := threads } = g f) → ∀ r,
          g ((s.shm.modify p fun f => { f with pfThreads := threads }).procflow r) =
            g (s.shm.procflow r) := by
      intro X g hg r
      rw [ProcShm.modify_procflow]
      split
      next => exact hg _
      next => rfl
    refine ⟨L, h.shm.congr (funext (hkeeps (·.pfNext) fun _ => rfl)) rfl rfl
      (hkeeps (·.pfInstance) fun _ => rfl) (hkeeps (·.definition) fun _ => rfl) id, ?_⟩
    intro hpc r hr
    rw [ProcShm.Master, hkeeps (·.pfInstance) (fun _ => rfl) r]
    exact h.idle hpc r hr
  | exit =>
    obtain rfl := Option.some.inj hnext
    exact ⟨L, h.shm.congr rfl rfl rfl (fun _ => rfl) (fun _ => rfl) id, h.idle⟩
  | abort fAbort =>
    simp only [ProcSession.next] at hnext
    split at hnext
    next => cases hnext
    next hne =>
      obtain rfl := Option.some.inj hnext
      refine ⟨L, h.shm.congr rfl rfl rfl (fun _ => rfl) (fun _ => rfl) ?_, h.idle⟩
      exact fun hf => absurd (Or.inr hf) hne
  | filebenchShutdown =>
    obtain ⟨shm, hrun, rfl⟩ := Option.map_eq_some_iff.mp hnext
    unfold ProcShm.filebenchShutdown at hrun
    split at hrun
    next =>
      obtain rfl := Option.some.inj hrun
      exact ⟨L, h.shm, h.idle⟩
    next hne =>
      have hinv : ({ s.shm with shmFAbort := .error } : ProcShm α T n).Invariant L
          (definitions trace) :=
        h.shm.congr rfl rfl rfl (fun _ => rfl) (fun _ => rfl) fun hf => by cases hf
      rcases hinv.shutdown hrun with ⟨rfl, -⟩ | ⟨hshm, hmasters⟩
      · exact ⟨L, hinv, h.idle⟩
      · exact ⟨_, hshm, fun _ => hmasters⟩

end invariant

/-! ## Runs -/

section run

variable {trace later earlier : List (ProcSession α T n × ProcEvent α T n)}
  {s t : ProcSession α T n}

theorem ProcSession.Fresh.invariant (h : s.Fresh) : s.Invariant [] (definitions ([] : List
    (ProcSession α T n × ProcEvent α T n))) :=
  ⟨⟨⟨h.2, nofun⟩, rfl, nofun⟩, nofun⟩

theorem ProcRun.invariant (h : ProcRun trace t) (hmeets : ∀ x ∈ trace, x.1.Meets x.2) :
    ∃ L, t.Invariant L (definitions trace) :=
  Trace.Run.invariant (I := fun trace t => ∃ L, t.Invariant L (definitions trace)) h hmeets
    (fun _ hfresh => ⟨[], hfresh.invariant⟩)
    fun _ _ _ _ ⟨_, hinv⟩ hmeets hnext => hinv.step hnext hmeets

/-- A run creates the instances of the procflows that the script has defined by then, if what is
asked of the events so far is met. -/
theorem procflowInit_instances {env : ProcEnv α n}
    (h : ProcRun (later ++ (s, .create env) :: earlier) t)
    (hmeets : ∀ x ∈ (s, .create env) :: earlier, x.1.Meets x.2) :
    ∃ s' M N, s.next (.create env) = some s' ∧ RunCreates env s.shm s'.shm M N ∧
      M.map (fun p => (s.shm.procflow p).definition) = definitions earlier := by
  obtain ⟨s', hrun⟩ := h.upTo
  cases hrun with
  | step hrun hnext =>
    obtain ⟨L, hinv⟩ := ProcRun.invariant hrun fun x hx => hmeets x (.tail _ hx)
    obtain ⟨hwait, hlt⟩ := hmeets _ (.head _)
    have hnext₀ := hnext
    simp only [ProcSession.next] at hnext
    split at hnext
    next hpc =>
      have hmasters := hinv.idle hpc
      split at hnext
      next shm hinit =>
        obtain rfl := Option.some.inj hnext
        obtain ⟨N, hshm, hpush, hmap⟩ := hinv.shm.create hmasters hwait hinit
        refine ⟨_, L, N, hnext₀, ⟨hinv.shm.procs.list, hmasters, hpush.procs.list, hpush.old, ?_⟩,
          ?_⟩
        · rw [hmap, instancesOf]
          refine List.flatMap_congr fun p hp => ?_
          rw [intCount_of_lt (hlt p ((ProcShm.listed_iff hinv.shm.procs).mpr hp))]
        · rw [← hinv.shm.defined,
            List.filter_eq_self.mpr fun q hq => decide_eq_true (hmasters q hq)]
      next => cases hnext
    next => cases hnext

end run

/-- The instance numbers on the list. -/
def ProcSession.instances (s : ProcSession α T n) : List ℤ :=
  (walk s.shm.next n s.shm.shmProclist).map fun p => (s.shm.procflow p).pfInstance

def nprocflows : ℕ := 4096

/-- At the start of the program. -/
def freshSession : ProcSession Unit Unit nprocflows where
  shm :=
    { procflow := fun _ => clearedProcflow ()
      pool := ⟨fun _ => false, ⟨0, by decide⟩⟩
      shmProclist := none
      shmProcsRunning := 0
      shmFAbort := .ok }
  pc := .idle

theorem freshSession_fresh : freshSession.Fresh := ⟨rfl, rfl⟩

/-- One instance of every process, and no failures. -/
def oneInstance : ProcEnv Unit nprocflows := ⟨fun _ _ => 1, fun _ => true, true⟩

/-- A process is defined and its instance is started. -/
def oneStarted : List (ProcEvent Unit Unit nprocflows) :=
  [.define ['p'] (), .create oneInstance, .allstarted, .allstarted, .allstarted]

theorem oneInstance_meets (s : ProcSession Unit Unit nprocflows) :
    s.Meets (.create oneInstance) := by
  refine ⟨rfl, fun p _ => ?_⟩
  change (1 : FbInt).toNat < 2 ^ 31
  decide

theorem oneStarted_meets : ∀ e ∈ oneStarted, ∀ s, ProcSession.Meets s e := by
  intro e he s
  simp only [oneStarted, List.mem_cons, List.not_mem_nil, or_false] at he
  rcases he with rfl | rfl | rfl | rfl | rfl
  · trivial
  · exact oneInstance_meets s
  · trivial
  · trivial
  · trivial

/-- A second run after a shutdown that removed the instance. -/
theorem procflowInit_instances_again :
    ∃ s s' : ProcSession Unit Unit nprocflows, ∃ M N, s.instances = [flowMaster] ∧
      RunCreates oneInstance s.shm s'.shm M N := by
  have hstarted : (oneStarted.foldlM ProcSession.next freshSession).map
      (·.shm.shmProcsRunning) = some 1 := by decide +kernel
  have hshut : ((oneStarted ++ [ProcEvent.shutdown]).foldlM ProcSession.next freshSession).map
      ProcSession.instances = some [flowMaster] := by decide +kernel
  have hagain : ((oneStarted ++ [ProcEvent.shutdown] ++ [ProcEvent.create oneInstance]).foldlM
      ProcSession.next freshSession).isSome := by decide +kernel
  obtain ⟨s₁, hs₁, hrunning⟩ := Option.map_eq_some_iff.mp hstarted
  obtain ⟨s₂, hs₂, hinst⟩ := Option.map_eq_some_iff.mp hshut
  obtain ⟨s₃, hs₃⟩ := Option.isSome_iff_exists.mp hagain
  rw [List.foldlM_append, hs₂] at hs₃
  rw [List.foldlM_append, hs₁] at hs₂
  have hnext₂ : s₁.next .shutdown = some s₂ := by simpa using hs₂
  have hnext₃ : s₂.next (.create oneInstance) = some s₃ := by simpa using hs₃
  obtain ⟨trace, hrun, hmeets⟩ := (Trace.Run.start freshSession_fresh).events
    (P := fun x => x.1.Meets x.2) (fun _ hx => absurd hx List.not_mem_nil) hs₁ oneStarted_meets
  have hrunning' : s₁.Meets .shutdown := by
    refine .inl ?_
    rw [hrunning]
    exact Int.one_pos
  have hrun₃ : ProcRun ([] ++ (s₂, .create oneInstance) :: (s₁, .shutdown) :: trace) s₃ :=
    (hrun.step hnext₂).step hnext₃
  obtain ⟨s', M, N, -, hcreates, -⟩ := procflowInit_instances hrun₃ (by
      intro x hx
      rcases List.mem_cons.mp hx with rfl | hx
      · exact oneInstance_meets s₂
      · rcases List.mem_cons.mp hx with rfl | hx
        · exact hrunning'
        · exact hmeets x hx)
  exact ⟨s₂, s', M, N, hinst, hcreates⟩

/-- The only instance ends on its own before the shutdown, which then does nothing. The next run
takes it for a process of the script and makes two instances. -/
theorem procflowInit_doubles :
    ∃ trace, ∃ s s' : ProcSession Unit Unit nprocflows,
      ProcRun ((s, .create oneInstance) :: trace) s' ∧
        s.instances = [1, flowMaster] ∧ s'.instances = [1, 1, 1, flowMaster] ∧
        ¬ ∃ M N, RunCreates oneInstance s.shm s'.shm M N := by
  have hshut : ((oneStarted ++ [ProcEvent.exit, ProcEvent.shutdown]).foldlM ProcSession.next
      freshSession).map ProcSession.instances = some [1, flowMaster] := by decide +kernel
  have hagain : ((oneStarted ++ [ProcEvent.exit, ProcEvent.shutdown] ++
      [ProcEvent.create oneInstance]).foldlM ProcSession.next freshSession).map
      ProcSession.instances = some [1, 1, 1, flowMaster] := by decide +kernel
  obtain ⟨s, hs, hinst⟩ := Option.map_eq_some_iff.mp hshut
  obtain ⟨s', hs', hinst'⟩ := Option.map_eq_some_iff.mp hagain
  rw [List.foldlM_append, hs] at hs'
  have hnext : s.next (.create oneInstance) = some s' := by simpa using hs'
  obtain ⟨trace, hrun, -⟩ := (Trace.Run.start freshSession_fresh).events
    (P := fun _ => True) (fun _ hx => absurd hx List.not_mem_nil) hs fun _ _ _ => trivial
  refine ⟨trace, s, s', hrun.step hnext, hinst, hinst', ?_⟩
  rintro ⟨M, N, hcreates⟩
  have hall : ∀ i ∈ s.instances, i = flowMaster := by
    intro i hi
    rw [ProcSession.instances, walk_eq hcreates.before (length_le_of_isList hcreates.before)] at hi
    obtain ⟨p, hp, rfl⟩ := List.mem_map.mp hi
    exact hcreates.masters p hp
  rw [hinst] at hall
  exact absurd (hall 1 (.head _)) (by decide)

end Filebench
