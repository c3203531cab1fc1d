import Filebench.Flowop.Build
import Filebench.Lib.Returns

/-! # Runtime flowops

The creation of the runtime flowops copies the forest of the prototypes as far as the pool
reaches. A failed allocation ends the list that it is for and is only logged one level up, so that
the thread is told when one of its own flowops is missing, but not about those inside of them. -/
namespace Filebench

open Fuel Linked

variable {A : Type} {n : ℕ} {s s' s₁ s₂ : FlowopShm A n}

/-! ## The loop -/

/-- The list of the prototypes is left when the first copy is made. -/
def FlowopShm.start (s : FlowopShm A n) (hdp : FlowopList n) : Option (Fin n) → FlowopShm A n
  | none => s
  | some p => if s.hd hdp = some p then s.setHd hdp none else s

theorem FlowopShm.start_cases (s : FlowopShm A n) (hdp : FlowopList n) (c : Option (Fin n)) :
    s.start hdp c = s ∨ s.start hdp c = s.setHd hdp none := by
  unfold FlowopShm.start
  split
  · exact .inl rfl
  · split
    · exact .inr rfl
    · exact .inl rfl

theorem Unchanged.start (s : FlowopShm A n) (hdp : FlowopList n) (c : Option (Fin n)) :
    Unchanged s (s.start hdp c) [] hdp := by
  rcases s.start_cases hdp c with h | h
  · rw [h]
    exact .refl s [] hdp
  · rw [h]
    exact .setHd s hdp none

@[simp] theorem FlowopShm.start_pool (s : FlowopShm A n) (hdp : FlowopList n)
    (c : Option (Fin n)) : (s.start hdp c).pool = s.pool := by
  rcases s.start_cases hdp c with h | h <;> simp [h]

theorem FlowopShm.start_global (s : FlowopShm A n) (hdp : FlowopList n) (c : Option (Fin n)) :
    (s.start hdp c).next = s.next ∧ (s.start hdp c).shmFlowoplist = s.shmFlowoplist := by
  rcases s.start_cases hdp c with h | h <;> simp [h]

/-- The prototypes `F` from `c` on are still to be copied to the end of `B`. -/
structure Ready (s : FlowopShm A n) (hdp : FlowopList n) (B F : FlowForest n)
    (c : Option (Fin n)) : Prop where
  prototypes : Represents s c F
  allocated : ∀ p ∈ F.nodes, s.Allocated p
  built : Represents (s.start hdp c) ((s.start hdp c).hd hdp) B
  builtAllocated : ∀ p ∈ B.nodes, s.Allocated p
  nodup : B.nodes.Nodup
  disjoint : ∀ p ∈ B.nodes, p ∉ F.nodes
  owner : ∀ q, hdp = .inner q → s.Allocated q ∧ q ∉ B.nodes ∧ q ∉ F.nodes

/-- A prototype that is still to be copied is not written while its copy is made. -/
theorem Ready.flowop_eq {hdp : FlowopList n} {B F : FlowForest n} {c : Option (Fin n)}
    {written : List (Fin n)} (hr : Ready s hdp B F c) (h : Unchanged s s' written hdp)
    (hwritten : ∀ q ∈ written, q ∈ B.nodes) {q : Fin n} (hq : q ∈ F.nodes) :
    s'.flowop q = s.flowop q := by
  refine h.flowop_eq (hr.allocated q hq) (fun hB => hr.disjoint q (hwritten q hB) hq) ?_
  rintro rfl
  exact (hr.owner q rfl).2.2 hq

def Missing (env : FlowopEnv A n) (f : ShmFlowop A n) : Prop :=
  ∃ name, env.filename f.foAttrs = some name ∧ env.filesetFind name = none

/-- How the loop ends: at the first file that is missing, or with what the pool allowed. -/
inductive Ended (env : FlowopEnv A n) (s : FlowopShm A n) (hdp : FlowopList n)
    (threadflow : Option ThreadPtr) (B F : FlowForest n) : CreateRet → FlowopShm A n → Prop where
  | shutdown {s' : FlowopShm A n} {p : Fin n} (hp : p ∈ (F.take s.pool.avail).nodes)
      (hmissing : Missing env (s.flowop p)) : Ended env s hdp threadflow B F .shutdown s'
  | built {s' : FlowopShm A n} {F' : FlowForest n}
      (hfiles : ∀ p ∈ (F.take s.pool.avail).nodes, ¬ Missing env (s.flowop p))
      (h : Built s s' hdp threadflow B F F') :
      Ended env s hdp threadflow B F (if s.pool.avail < F.upToLast then .error else .ok) s'

theorem Built.nil {hdp : FlowopList n} {B : FlowForest n} (h : Represents s (s.hd hdp) B)
    (threadflow : Option ThreadPtr) : Built s s hdp threadflow B .nil .nil := by
  constructor
  · exact .refl s _ hdp
  · nofun
  · nofun
  · exact fun _ => .inl
  · exact .nil
  · rwa [FlowForest.append_nil]
  · rw [FlowForest.take_nil]
    trivial
  · rfl
  · exact fun gl _ h => h

/-- Without a free flowop nothing is built. -/
theorem Built.of_avail_zero {hdp : FlowopList n} {B F : FlowForest n}
    (h : Represents s (s.hd hdp) B) (threadflow : Option ThreadPtr) (havail : s.pool.avail = 0) :
    Built s s hdp threadflow B F .nil := by
  have hnil := Built.nil h threadflow
  refine ⟨hnil.unchanged, hnil.fresh, hnil.allocated, hnil.only, hnil.nodup, hnil.represents, ?_, ?_,
    hnil.global⟩
  · rw [havail, FlowForest.take]
    trivial
  · rw [havail, Nat.zero_sub]

/-- What happens in the list `hdp` before the loop is part of what the loop does. -/
theorem Built.start {hdp : FlowopList n} {threadflow : Option ThreadPtr} {B F F' : FlowForest n}
    {c : Option (Fin n)} (h : Built (s.start hdp c) s' hdp threadflow B F F')
    (halloc : ∀ p ∈ F.nodes, s.Allocated p) : Built s s' hdp threadflow B F F' := by
  have hstart := Unchanged.start s hdp c
  have hsame : ∀ p, (s.start hdp c).Allocated p ↔ s.Allocated p := by
    intro p
    rw [FlowopShm.Allocated, FlowopShm.start_pool]
    exact Iff.rfl
  constructor
  · exact (hstart.mono (List.nil_subset _)).trans h.unchanged (fun _ hr _ => hr) (.inl rfl)
  · exact fun p hp hps => h.fresh p hp ((hsame p).mpr hps)
  · exact h.allocated
  · exact fun r hr => (h.only r hr).imp_left (hsame r).mp
  · exact h.nodup
  · exact h.represents
  · have hcopies := h.copies
    rw [FlowopShm.start_pool] at hcopies
    exact hcopies.congr (fun p hp => (hstart.fields p (halloc p (nodes_take_subset hp))).symm)
      fun _ _ => rfl
  · rw [h.avail, FlowopShm.start_pool]
  · intro gl hgl hlist
    obtain ⟨hnext, hflowoplist⟩ := s.start_global hdp c
    refine h.global gl (fun p hp => (hsame p).mpr (hgl p hp)) ?_
    rwa [hnext, hflowoplist]

theorem attachFileset_cases (env : FlowopEnv A n) (f : ShmFlowop A n) (p : Fin n)
    (s : FlowopShm A n) :
    (attachFileset env f.foAttrs p s = none ∧ Missing env f) ∨
      ¬ Missing env f ∧ ∃ s', attachFileset env f.foAttrs p s = some s' ∧ Touched s s' p := by
  unfold attachFileset
  cases hname : env.filename f.foAttrs with
  | none =>
    refine .inr ⟨?_, s, rfl, .refl s p⟩
    rintro ⟨name, h, -⟩
    rw [hname] at h
    cases h
  | some name =>
    cases hfind : env.filesetFind name with
    | none => exact .inl ⟨by simp [hfind], name, hname, hfind⟩
    | some fileset =>
      refine .inr ⟨?_, _, congrArg (Option.map _) hfind, touched_modify s p fun x => ?_⟩
      · rintro ⟨name', h, h'⟩
        rw [hname] at h
        obtain rfl := Option.some.inj h
        rw [hfind] at h'
        cases h'
      · exact ⟨some fileset, _, _, rfl⟩

theorem FlowopShm.start_hd (s : FlowopShm A n) (hdp : FlowopList n) :
    (s.start hdp (s.hd hdp)).hd hdp = none := by
  cases h : s.hd hdp with
  | none => exact h
  | some p =>
    rw [FlowopShm.start, if_pos h, FlowopShm.setHd_hd]

/-- A list that holds the prototypes themselves. -/
theorem Ready.of_list {hdp : FlowopList n} {F : FlowForest n} (hF : Represents s (s.hd hdp) F)
    (halloc : ∀ p ∈ F.nodes, s.Allocated p)
    (howner : ∀ q, hdp = .inner q → s.Allocated q ∧ q ∉ F.nodes) :
    Ready s hdp .nil F (s.hd hdp) := by
  refine ⟨hF, halloc, ?_, nofun, .nil, nofun, fun q hq => ?_⟩
  · rw [FlowopShm.start_hd]
    exact .nil
  · exact ⟨(howner q hq).1, nofun, (howner q hq).2⟩

section loop

variable {env : FlowopEnv A n}

/-- What the loop does with any fuel from `N` on. -/
def Runs (env : FlowopEnv A n) (N : ℕ) (threadflow : Option ThreadPtr) (hdp : FlowopList n)
    (c : Option (Fin n)) (s : FlowopShm A n) (r : CreateRet × FlowopShm A n) : Prop :=
  ∀ fuel, N ≤ fuel → createLoop env fuel threadflow hdp c s = some r

/-- The inner flowops of a new flowop `p`, given what the loop does with them. -/
theorem flowopInitflow_spec {p : Fin n} {inner : FlowForest n}
    (ih : ∀ {s : FlowopShm A n} {hdp threadflow B c}, Ready s hdp B inner c →
      ∃ ret s', Runs env inner.size threadflow hdp c s (ret, s') ∧
        Ended env s hdp threadflow B inner ret s')
    (hinner : Represents s (s.compFops p) inner) (halloc : ∀ q ∈ inner.nodes, s.Allocated q)
    (hp : s.Allocated p) (hpinner : p ∉ inner.nodes)
    (hlib : (s.flowop p).foMethods = .library → inner = .nil) :
    ∃ s₁ ret s₂, (∀ fuel, inner.size ≤ fuel → flowopInitflow env
        (fun threadflow hdp s => createLoop env fuel threadflow hdp (s.hd hdp) s) p s =
          some (ret, s₂)) ∧
      Touched s s₁ p ∧
      ((ret = .shutdown ∧ ∃ q ∈ (inner.take s₁.pool.avail).nodes, Missing env (s₁.flowop q)) ∨
        ret ≠ .shutdown ∧ (∀ q ∈ (inner.take s₁.pool.avail).nodes, ¬ Missing env (s₁.flowop q)) ∧
          ∃ inner', Built s₁ s₂ (.inner p) (s.flowop p).foThread .nil inner inner') := by
  set s₁ := s.modify p fun f =>
    { f with
      foConstvalue := (env.constvalue p f.foAttrs).getD f.foConstvalue
      foConstwss := env.constwss p f.foAttrs } with hs₁
  have htouch : Touched s s₁ p := touched_modify s p fun x => ⟨_, _, _, rfl⟩
  have hmethods : (s₁.flowop p).foMethods = (s.flowop p).foMethods :=
    htouch.field (·.foMethods) (fun _ _ _ _ => rfl) p
  have hthread : (s₁.flowop p).foThread = (s.flowop p).foThread :=
    htouch.field (·.foThread) (fun _ _ _ _ => rfl) p
  have hinner₁ : Represents s₁ (s₁.hd (.inner p)) inner := by
    change Represents s₁ (s₁.compFops p) inner
    rw [htouch.compFops]
    refine hinner.congr fun q hq => htouch.others q ?_
    exact ne_of_mem_of_not_mem hq hpinner
  have halloc₁ : ∀ q, s.Allocated q → s₁.Allocated q := by
    intro q hq
    rw [FlowopShm.Allocated, htouch.pool]
    exact hq
  refine ⟨s₁, ?_⟩
  simp only [flowopInitflow, ← hs₁]
  cases hm : (s₁.flowop p).foMethods with
  | library =>
    obtain rfl := hlib (hmethods.symm.trans hm)
    refine ⟨_, s₁, fun _ _ => rfl, htouch, .inr ⟨?_, ?_, .nil, .nil ?_ _⟩⟩
    · split <;> decide
    · intro q hq
      rw [FlowForest.take_nil] at hq
      exact absurd hq List.not_mem_nil
    · exact hinner₁
  | composite =>
    have hready : Ready s₁ (.inner p) .nil inner (s₁.hd (.inner p)) := by
      refine .of_list hinner₁ (fun q hq => halloc₁ q (halloc q hq)) ?_
      rintro q ⟨⟩
      exact ⟨halloc₁ p hp, hpinner⟩
    obtain ⟨ret, s₂, hrun, hend⟩ : ∃ ret s₂,
        Runs env inner.size (s.flowop p).foThread (.inner p) (s₁.hd (.inner p)) s₁ (ret, s₂) ∧
          Ended env s₁ (.inner p) (s.flowop p).foThread .nil inner ret s₂ := ih hready
    refine ⟨ret, s₂, ?_, htouch, ?_⟩
    · intro fuel hfuel
      rw [flowopCompositeInit, hthread]
      exact hrun fuel hfuel
    · cases hend with
      | shutdown hq hmissing => exact .inl ⟨rfl, _, hq, hmissing⟩
      | built hfiles h =>
        refine .inr ⟨?_, hfiles, _, h⟩
        split <;> decide

omit env in
/-- The rest of the prototypes after some were copied. -/
theorem Ready.next {hdp : FlowopList n} {threadflow : Option ThreadPtr}
    {B F G G' rest : FlowForest n} {c c' : Option (Fin n)} (hr : Ready s hdp B F c)
    (hrest : Represents s c' rest) (hsub : ∀ q ∈ rest.nodes, q ∈ F.nodes)
    (h : Built s s' hdp threadflow B G G') : Ready s' hdp (B.append G') rest c' := by
  constructor
  · exact hrest.congr fun q hq =>
      hr.flowop_eq h.unchanged (fun _ => FlowForest.tops_subset) (hsub q hq)
  · exact fun q hq => h.unchanged.allocated q (hr.allocated q (hsub q hq))
  · have hstart : s'.start hdp c' = s' := by
      cases c' with
      | none => rfl
      | some r =>
        refine if_neg fun hhd => ?_
        have hr' : r ∈ rest.nodes := by
          cases rest with
          | nil => exact absurd hrest.tops nofun
          | cons p _ _ =>
            obtain rfl := Option.some.inj hrest.tops.1
            exact .head _
        have htops := h.represents.tops.head
        rw [hhd, FlowForest.tops_append] at htops
        rcases List.mem_append.mp (List.mem_of_mem_head? htops.symm) with hB | hG
        · exact hr.disjoint r (FlowForest.tops_subset hB) (hsub r hr')
        · exact h.fresh r (FlowForest.tops_subset hG) (hr.allocated r (hsub r hr'))
    rw [hstart]
    exact h.represents
  · intro q hq
    rw [FlowForest.nodes_append, List.mem_append] at hq
    exact hq.elim (fun hq => h.unchanged.allocated q (hr.builtAllocated q hq)) (h.allocated q)
  · rw [FlowForest.nodes_append]
    refine List.nodup_append.mpr ⟨hr.nodup, h.nodup, ?_⟩
    rintro q hq _ hq' rfl
    exact h.fresh q hq' (hr.builtAllocated q hq)
  · intro q hq hq'
    rw [FlowForest.nodes_append, List.mem_append] at hq
    rcases hq with hq | hq
    · exact hr.disjoint q hq (hsub q hq')
    · exact h.fresh q hq (hr.allocated q (hsub q hq'))
  · intro q hq
    obtain ⟨hqs, hqB, hqF⟩ := hr.owner q hq
    refine ⟨h.unchanged.allocated q hqs, fun hmem => ?_, fun hmem => hqF (hsub q hmem)⟩
    rw [FlowForest.nodes_append, List.mem_append] at hmem
    exact hmem.elim hqB fun hG => h.fresh q hG hqs

theorem missing_of_unlinked {f g : ShmFlowop A n} (h : f.unlinked = g.unlinked) :
    Missing env f ↔ Missing env g := by
  rw [Missing, Missing, foAttrs_of_unlinked h]

/-- The end of the loop over the rest of the prototypes is the end of the loop. -/
theorem Ended.cons {hdp : FlowopList n} {threadflow : Option ThreadPtr}
    {B inner rest G' : FlowForest n} {p : Fin n} {k : ℕ} {ret : CreateRet}
    (hk : s.pool.avail = k + 1)
    (hone : Built s s₁ hdp threadflow B (.cons p inner .nil) G')
    (hp : ¬ Missing env (s.flowop p))
    (hinner : ∀ q ∈ (inner.take k).nodes, ¬ Missing env (s.flowop q))
    (halloc : ∀ q ∈ rest.nodes, s.Allocated q)
    (hend : Ended env s₁ hdp threadflow (B.append G') rest ret s₂) :
    Ended env s hdp threadflow B (.cons p inner rest) ret s₂ := by
  have havail : s₁.pool.avail = k - inner.size := by
    rw [hone.avail, hk, FlowForest.size, FlowForest.size]
    omega
  have htake : ((FlowForest.cons p inner rest).take s.pool.avail).nodes =
      p :: ((inner.take k).nodes ++ (rest.take s₁.pool.avail).nodes) := by
    rw [hk, FlowForest.take, FlowForest.nodes, havail]
  have hmissing : ∀ q ∈ (rest.take s₁.pool.avail).nodes,
      (Missing env (s₁.flowop q) ↔ Missing env (s.flowop q)) :=
    fun q hq => missing_of_unlinked (hone.unchanged.fields q (halloc q (nodes_take_subset hq)))
  cases hend with
  | shutdown hq hmiss =>
    refine .shutdown ?_ ((hmissing _ hq).mp hmiss)
    rw [htake]
    exact .tail _ (List.mem_append_right _ hq)
  | built hfiles h =>
    have hret : (if s₁.pool.avail < rest.upToLast then CreateRet.error else .ok) =
        if s.pool.avail < (FlowForest.cons p inner rest).upToLast then .error else .ok := by
      by_cases hrest : rest = .nil
      · rw [hrest, FlowForest.upToLast, FlowForest.upToLast, if_neg (by omega), if_neg (by omega)]
      · have hpos := FlowForest.upToLast_pos hrest
        rw [FlowForest.upToLast_cons hrest, havail, hk]
        congr 1
        rw [eq_iff_iff]
        omega
    rw [hret]
    refine .built ?_ (hone.append h halloc)
    intro q hq
    rw [htake, List.mem_cons, List.mem_append] at hq
    rcases hq with rfl | hq | hq
    · exact hp
    · exact hinner q hq
    · exact fun hmiss => hfiles q hq ((hmissing q hq).mpr hmiss)

/-- Without a free flowop the loop ends. -/
theorem createLoop_none (env : FlowopEnv A n) (fuel : ℕ) (threadflow : Option ThreadPtr)
    {hdp : FlowopList n} {p : Fin n} (havail : s.pool.avail = 0) :
    createLoop env (fuel + 1) threadflow hdp (some p) s =
      some (.error, s.start hdp (some p)) := by
  set s₀ := s.start hdp (some p) with hs₀
  have hdef : flowopDefineCommon threadflow (s₀.flowop p).foName p hdp 1 s₀ = some (none, s₀) := by
    rw [flowopDefineCommon, Pool.ipcMalloc_of_avail_zero (by rwa [hs₀, FlowopShm.start_pool])]
  rw [createLoop]
  change (flowopDefineCommon threadflow (s₀.flowop p).foName p hdp 1 s₀).bind _ = _
  rw [hdef]
  rfl

/-- A round with the new flowop `p'`, whose file is missing. -/
theorem createLoop_missing {hdp : FlowopList n} {threadflow : Option ThreadPtr} {p p' : Fin n}
    (hdef : flowopDefineCommon threadflow ((s.start hdp (some p)).flowop p).foName p hdp 1
      (s.start hdp (some p)) = some (some p', s₁))
    (hfile : attachFileset env (s₁.flowop p).foAttrs p' s₁ = none) (fuel : ℕ) :
    createLoop env (fuel + 1) threadflow hdp (some p) s = some (.shutdown, s₁) := by
  rw [createLoop]
  change (flowopDefineCommon threadflow ((s.start hdp (some p)).flowop p).foName p hdp 1
    (s.start hdp (some p))).bind _ = _
  rw [hdef, Option.bind_some]
  simp only [hfile]

/-- A round with the new flowop `p'`, up to its inner flowops. -/
theorem createLoop_init {hdp : FlowopList n} {threadflow : Option ThreadPtr} {p p' : Fin n}
    {fuel : ℕ} {ret : CreateRet} {s₃ : FlowopShm A n}
    (hdef : flowopDefineCommon threadflow ((s.start hdp (some p)).flowop p).foName p hdp 1
      (s.start hdp (some p)) = some (some p', s₁))
    (hfile : attachFileset env (s₁.flowop p).foAttrs p' s₁ = some s₂)
    (hinit : flowopInitflow env
      (fun threadflow hdp s => createLoop env fuel threadflow hdp (s.hd hdp) s) p' s₂ =
        some (ret, s₃)) :
    createLoop env (fuel + 1) threadflow hdp (some p) s =
      if ret = .shutdown then some (.shutdown, s₃)
      else createLoop env fuel threadflow hdp (s₃.flowop p).foExecNext s₃ := by
  rw [createLoop]
  change (flowopDefineCommon threadflow ((s.start hdp (some p)).flowop p).foName p hdp 1
    (s.start hdp (some p))).bind _ = _
  rw [hdef, Option.bind_some]
  simp only [hfile]
  change (flowopInitflow env _ p' s₂).bind _ = _
  rw [hinit, Option.bind_some]
  cases ret <;> rfl

/-- One round of the loop, given what it does with the inner flowops. -/
theorem createLoop_flowop {B inner rest : FlowForest n} {hdp : FlowopList n}
    {threadflow : Option ThreadPtr} {p : Fin n} {k : ℕ}
    (ih : ∀ {s : FlowopShm A n} {hdp threadflow B c}, Ready s hdp B inner c →
      ∃ ret s', Runs env inner.size threadflow hdp c s (ret, s') ∧
        Ended env s hdp threadflow B inner ret s')
    (hr : Ready s hdp B (.cons p inner rest) (some p)) (hk : s.pool.avail = k + 1) :
    (∃ s', Runs env (inner.size + 1) threadflow hdp (some p) s (.shutdown, s') ∧
      ∃ q ∈ p :: (inner.take k).nodes, Missing env (s.flowop q)) ∨
    ∃ s₁ G', (∀ fuel, inner.size ≤ fuel → createLoop env (fuel + 1) threadflow hdp (some p) s =
        createLoop env fuel threadflow hdp (s.execNext p) s₁) ∧
      Built s s₁ hdp threadflow B (.cons p inner .nil) G' ∧
      ∀ q ∈ p :: (inner.take k).nodes, ¬ Missing env (s.flowop q) := by
  obtain ⟨-, hinner, -⟩ := hr.prototypes.cons
  have hunch := Unchanged.start s hdp (some p)
  have hinnerF : ∀ q ∈ inner.nodes, q ∈ (FlowForest.cons p inner rest).nodes :=
    fun q hq => .tail _ (List.mem_append_left _ hq)
  set s₀ := s.start hdp (some p) with hs₀
  have hk₀ : s₀.pool.avail = k + 1 := by rw [hs₀, FlowopShm.start_pool, hk]
  obtain ⟨p', s₁, hrun₁, hdef⟩ := flowopDefineCommon_spec (s := s₀) threadflow
    (s₀.flowop p).foName p 1 hr.built.tops
    (fun q hq => hunch.allocated q (hr.builtAllocated q (FlowForest.tops_subset hq)))
    (fun q hq => hunch.allocated q (hr.owner q hq).1) (by omega)
  -- nothing that is done for the new flowop changes a prototype
  have hunch₁ : Unchanged s s₁ B.tops hdp :=
    (hunch.mono (List.nil_subset _)).trans hdef.unchanged (fun _ hr _ => hr) (.inl rfl)
  have hsame₁ : ∀ q ∈ (FlowForest.cons p inner rest).nodes, s₁.flowop q = s.flowop q :=
    fun q hq => hr.flowop_eq hunch₁ (fun _ => FlowForest.tops_subset) hq
  have hsame₀ : s₀.flowop p = s.flowop p :=
    hr.flowop_eq hunch (fun q hq => absurd hq List.not_mem_nil) (.head _)
  have hlib : (s₀.flowop p).foMethods = .library → inner = .nil := by
    rw [hsame₀]
    exact hr.prototypes.nested.2.1
  have hp'F : p' ∉ (FlowForest.cons p inner rest).nodes :=
    fun h => hdef.fresh (hunch.allocated p' (hr.allocated p' h))
  rcases attachFileset_cases env (s₁.flowop p) p' s₁ with
    ⟨hnone, hmissing⟩ | ⟨hfound, s₂, hfile, htouch⟩
  · refine .inl ⟨s₁, fun fuel hfuel => ?_, p, .head _, ?_⟩
    · obtain ⟨fuel, rfl⟩ : ∃ m, fuel = m + 1 := ⟨fuel - 1, by omega⟩
      exact createLoop_missing hrun₁ hnone fuel
    · rwa [hsame₁ p (.head _)] at hmissing
  · have hsame₂ : ∀ q ∈ (FlowForest.cons p inner rest).nodes, s₂.flowop q = s.flowop q := by
      intro q hq
      rw [htouch.others q (ne_of_mem_of_not_mem hq hp'F), hsame₁ q hq]
    have halloc₂ : ∀ q, s.Allocated q → s₂.Allocated q := by
      intro q hq
      rw [FlowopShm.Allocated, htouch.pool]
      exact hunch₁.allocated q hq
    have hcopy : RuntimeCopy (s₀.flowop p) (s₂.flowop p') threadflow :=
      hdef.runtimeCopy.touched htouch
    have hcomp : s₂.compFops p' = s.compFops p := by
      rw [htouch.compFops, FlowopShm.compFops, hdef.flowop]
      change (s₀.flowop p).foCompFops = _
      rw [hsame₀]
      rfl
    obtain ⟨s₃, ret, s₄, hinit, htouch₃, hcases⟩ := flowopInitflow_spec (s := s₂) (p := p') ih
      (hcomp ▸ hinner.congr fun q hq => hsame₂ q (hinnerF q hq))
      (fun q hq => halloc₂ q (hr.allocated q (hinnerF q hq)))
      (by rw [FlowopShm.Allocated, htouch.pool]; exact hdef.allocated)
      (fun h => hp'F (hinnerF p' h))
      (fun h => hlib (hcopy.methods.symm.trans h))
    have hk₃ : s₃.pool.avail = k := by
      have := hdef.avail
      rw [htouch₃.pool, htouch.pool]
      omega
    have hsame₃ : ∀ q ∈ inner.nodes, s₃.flowop q = s.flowop q := by
      intro q hq
      rw [htouch₃.others q (ne_of_mem_of_not_mem (hinnerF q hq) hp'F), hsame₂ q (hinnerF q hq)]
    rcases hcases with ⟨rfl, q, hq, hmiss⟩ | ⟨hret, hfiles, inner', hbuilt⟩
    · refine .inl ⟨s₄, fun fuel hfuel => ?_, q, ?_, ?_⟩
      · obtain ⟨fuel, rfl⟩ : ∃ m, fuel = m + 1 := ⟨fuel - 1, by omega⟩
        exact (createLoop_init hrun₁ hfile (hinit fuel (by omega))).trans (if_pos rfl)
      · rw [← hk₃]
        exact .tail _ hq
      · rwa [hsame₃ q (nodes_take_subset hq)] at hmiss
    · rw [hcopy.thread] at hbuilt
      have hone : Built s s₄ hdp threadflow B (.cons p inner .nil) (.cons p' inner' .nil) := by
        refine Built.start (c := some p) (.single hr.built
          (fun q hq => hunch.allocated q (hr.builtAllocated q hq)) hr.nodup
          (fun q hq => ⟨hunch.allocated q (hr.owner q hq).1, (hr.owner q hq).2.1⟩)
          (fun q hq => hunch.allocated q (hr.allocated q (hinnerF q hq))) hlib hdef
          (htouch.trans htouch₃) hbuilt) ?_
        intro q hq
        rw [FlowForest.nodes_single, List.mem_cons] at hq
        rcases hq with rfl | hq
        · exact hr.allocated q (.head _)
        · exact hr.allocated q (hinnerF q hq)
      have hsame₄ : s₄.flowop p = s.flowop p :=
        hr.flowop_eq hone.unchanged (fun _ => FlowForest.tops_subset) (.head _)
      refine .inr ⟨s₄, _, fun fuel hfuel => ?_, hone, ?_⟩
      · rw [createLoop_init hrun₁ hfile (hinit fuel hfuel), if_neg hret, hsame₄]
        rfl
      · intro q hq
        rcases List.mem_cons.mp hq with rfl | hq
        · rwa [hsame₁ q (.head _)] at hfound
        · rw [← hk₃] at hq
          rw [← hsame₃ q (nodes_take_subset hq)]
          exact hfiles q hq

/-- The loop copies the forest in the order of its flowops, as far as the pool allows and no file
is missing. -/
theorem createLoop_spec {F B : FlowForest n} {hdp : FlowopList n} {threadflow : Option ThreadPtr}
    {c : Option (Fin n)} (hr : Ready s hdp B F c) :
    ∃ ret s', Runs env F.size threadflow hdp c s (ret, s') ∧
      Ended env s hdp threadflow B F ret s' := by
  induction F generalizing s B hdp threadflow c with
  | nil =>
    obtain rfl : c = none := hr.prototypes.tops
    refine ⟨.ok, s, fun fuel _ => by cases fuel <;> rfl, ?_⟩
    change Ended env s hdp threadflow B .nil (if s.pool.avail < 0 then .error else .ok) s
    refine .built (fun q hq => ?_) (.nil hr.built threadflow)
    rw [FlowForest.take_nil] at hq
    exact absurd hq List.not_mem_nil
  | cons p inner rest ihi ihr =>
    obtain ⟨rfl, -, hrest⟩ := hr.prototypes.cons
    have hrestF : ∀ q ∈ rest.nodes, q ∈ (FlowForest.cons p inner rest).nodes :=
      fun q hq => .tail _ (List.mem_append_right _ hq)
    have hsucc : ∀ {fuel}, (FlowForest.cons p inner rest).size ≤ fuel →
        ∃ m, fuel = m + 1 ∧ inner.size ≤ m ∧ rest.size ≤ m := by
      intro fuel hfuel
      rw [FlowForest.size] at hfuel
      exact ⟨fuel - 1, by omega, by omega, by omega⟩
    by_cases havail : s.pool.avail = 0
    · have hret : (if s.pool.avail < (FlowForest.cons p inner rest).upToLast then .error
          else .ok) = CreateRet.error := by
        rw [havail, if_pos (FlowForest.upToLast_pos (FlowForest.cons_ne_nil p inner rest))]
      have hzero : Built s (s.start hdp (some p)) hdp threadflow B (.cons p inner rest) .nil :=
        Built.start (.of_avail_zero hr.built threadflow (by rwa [FlowopShm.start_pool]))
          hr.allocated
      refine ⟨.error, s.start hdp (some p), fun fuel hfuel => ?_, ?_⟩
      · obtain ⟨m, rfl, -, -⟩ := hsucc hfuel
        exact createLoop_none env m threadflow havail
      · rw [← hret]
        refine .built (fun q hq => ?_) hzero
        rw [havail] at hq
        exact absurd hq List.not_mem_nil
    · obtain ⟨k, hk⟩ := Nat.exists_eq_succ_of_ne_zero havail
      rcases createLoop_flowop ihi hr hk with
        ⟨s', hrun, q, hq, hmissing⟩ | ⟨s₁, G', hrun, hone, hfiles⟩
      · refine ⟨.shutdown, s', fun fuel hfuel => ?_, .shutdown ?_ hmissing⟩
        · obtain ⟨m, rfl, hm, -⟩ := hsucc hfuel
          exact hrun (m + 1) (by omega)
        · rw [hk, FlowForest.take, FlowForest.nodes, ← List.cons_append]
          exact List.mem_append_left _ hq
      · obtain ⟨ret, s', hrun', hend⟩ := ihr (hr.next hrest hrestF hone)
        refine ⟨ret, s', fun fuel hfuel => ?_, ?_⟩
        · obtain ⟨m, rfl, hm, hm'⟩ := hsucc hfuel
          exact (hrun m hm).trans (hrun' m hm')
        · exact .cons hk hone (hfiles p (.head _)) (fun q hq => hfiles q (.tail _ hq))
            (fun q hq => hr.allocated q (hrestF q hq)) hend

end loop

/-! ## The flowops of a thread -/

/-- The flowops of the thread `t` are the forest `F` of prototypes, and `gl` is the global list. -/
structure Prototypes (s : FlowopShm A n) (t : ThreadPtr) (F : FlowForest n)
    (gl : List (Fin n)) : Prop where
  flowops : Represents s (s.tfThrdFops t) F
  allocated : ∀ p ∈ F.nodes, s.Allocated p
  global : IsList s.next s.shmFlowoplist gl
  globalAllocated : ∀ p ∈ gl, s.Allocated p

/-- The flowops of the thread `t` are copies `F'` of the forest `F` of prototypes, which are
still there. -/
structure RuntimeFlowops (s s' : FlowopShm A n) (t : ThreadPtr) (F F' : FlowForest n)
    (gl : List (Fin n)) : Prop where
  flowops : Represents s' (s'.tfThrdFops t) F'
  copies : Copies s s' (some t) F F'
  distinct : F'.nodes.Nodup
  allocated : ∀ p ∈ F'.nodes, ¬ s.Allocated p ∧ s'.Allocated p
  global : IsList s'.next s'.shmFlowoplist (F'.nodes.reverse ++ gl)
  prototypes : Represents s' (s.tfThrdFops t) F
  unchanged : ∀ p, s.Allocated p → s'.flowop p = s.flowop p
  threads : ∀ t', t' ≠ t → s'.tfThrdFops t' = s.tfThrdFops t'

theorem Prototypes.created {t : ThreadPtr} {F : FlowForest n} {gl : List (Fin n)}
    (h : Prototypes s t F gl) (env : FlowopEnv A n) :
    ∃ ret s', Returns (fun fuel => flowopCreateRuntimeFlowops env fuel (some t) (.thread t) s)
        (ret, s') ∧ Ended env s (.thread t) (some t) .nil F ret s' := by
  have hready : Ready s (.thread t) .nil F (s.hd (.thread t)) :=
    .of_list h.flowops h.allocated nofun
  obtain ⟨ret, s', hrun, hend⟩ : ∃ ret s',
      Runs env F.size (some t) (.thread t) (s.hd (.thread t)) s (ret, s') ∧
        Ended env s (.thread t) (some t) .nil F ret s' := createLoop_spec hready
  exact ⟨ret, s', ⟨F.size, hrun⟩, hend⟩

/-- With enough free flowops, the flowops of a thread become copies of the prototypes, unless a
file is missing and the program is shut down. -/
theorem flowopCreateRuntimeFlowops_copies (env : FlowopEnv A n) {t : ThreadPtr}
    {F : FlowForest n} {gl : List (Fin n)} (h : Prototypes s t F gl)
    (havail : F.size ≤ s.pool.avail) :
    ∃ ret s', Returns (fun fuel => flowopCreateRuntimeFlowops env fuel (some t) (.thread t) s)
        (ret, s') ∧
      ((ret = .shutdown ∧ ∃ p ∈ F.nodes, Missing env (s.flowop p)) ∨
        ret = .ok ∧ ∃ F', RuntimeFlowops s s' t F F' gl) := by
  obtain ⟨ret, s', hrun, hend⟩ := h.created env
  refine ⟨ret, s', hrun, ?_⟩
  cases hend with
  | shutdown hp hmissing => exact .inl ⟨rfl, _, nodes_take_subset hp, hmissing⟩
  | built _ hbuilt =>
    have hsame : ∀ p, s.Allocated p → s'.flowop p = s.flowop p :=
      fun p hp => hbuilt.unchanged.flowop_eq hp nofun nofun
    refine .inr ⟨if_neg (not_lt.mpr (F.upToLast_le_size.trans havail)), _, ⟨hbuilt.represents, ?_,
      hbuilt.nodup, fun p hp => ⟨hbuilt.fresh p hp, hbuilt.allocated p hp⟩,
      hbuilt.global gl h.globalAllocated h.global, ?_, hsame, fun t' ht' => ?_⟩⟩
    · rw [← FlowForest.take_of_size_le havail]
      exact hbuilt.copies
    · exact h.flowops.congr fun p hp => hsame p (h.allocated p hp)
    · exact hbuilt.unchanged.heads t' fun heq => ht' (FlowopList.thread.inj heq).symm

/-- The caller is told of a failed allocation if and only if not even the last flowop of the thread
itself gets its copy, or a file is missing before that. -/
theorem flowopCreateRuntimeFlowops_exhausted (env : FlowopEnv A n) {t : ThreadPtr}
    {F : FlowForest n} {gl : List (Fin n)} (h : Prototypes s t F gl) :
    ∃ ret s', Returns (fun fuel => flowopCreateRuntimeFlowops env fuel (some t) (.thread t) s)
        (ret, s') ∧
      (ret ≠ .ok ↔ s.pool.avail < F.upToLast ∨
        ∃ p ∈ (F.take s.pool.avail).nodes, Missing env (s.flowop p)) := by
  obtain ⟨ret, s', hrun, hend⟩ := h.created env
  refine ⟨ret, s', hrun, ?_⟩
  cases hend with
  | shutdown hp hmissing => exact iff_of_true nofun (.inr ⟨_, hp, hmissing⟩)
  | built hfiles _ =>
    have hnone : ¬ ∃ p ∈ (F.take s.pool.avail).nodes, Missing env (s.flowop p) := by
      rintro ⟨p, hp, hmissing⟩
      exact hfiles p hp hmissing
    rw [or_iff_left hnone]
    split
    next hlt => exact iff_of_true nofun hlt
    next hge => exact iff_of_false (not_not.mpr rfl) hge

/-- `FILEBENCH_NFLOWOPS` -/
def nflowops : ℕ := 64 * 4096

def outerOp : Fin nflowops := ⟨0, by decide⟩
def innerOp : Fin nflowops := ⟨1, by decide⟩

/-- A composite flowop with one inner flowop is all that a thread has to do. -/
def compositeThread (free : Finset (Fin nflowops)) : FlowopShm Unit nflowops where
  flowop p :=
    { foName := if p = outerOp then ['o'] else ['i']
      foInstance := flowMaster
      foMethods := if p = outerOp then .composite else .library
      foAttrs := ()
      foThread := none
      foFileset := none
      foConstvalue := 0
      foConstwss := 0
      foNext := if p = innerOp then some outerOp else none
      foExecNext := none
      foCompFops := if p = outerOp then some innerOp else none }
  pool := ⟨fun p => decide (p ∉ free), innerOp⟩
  shmFlowoplist := some innerOp
  tfThrdFops := fun _ => some outerOp
  tfRunning := fun _ => false

def noFiles : FlowopEnv Unit nflowops where
  filename _ := none
  filesetFind _ := none
  constvalue _ _ := none
  constwss _ _ := 0
  init _ := true

def compositeForest : FlowForest nflowops := .cons outerOp (.cons innerOp .nil .nil) .nil

theorem compositeThread_prototypes {free : Finset (Fin nflowops)}
    (hfree : outerOp ∉ free ∧ innerOp ∉ free) :
    Prototypes (compositeThread free) 0 compositeForest [innerOp, outerOp] := by
  have hboth : ∀ p ∈ [innerOp, outerOp], (compositeThread free).Allocated p := by
    intro p hp
    rcases List.mem_pair.mp hp with rfl | rfl
    · exact decide_eq_true hfree.2
    · exact decide_eq_true hfree.1
  constructor
  · constructor
    · exact ⟨rfl, rfl⟩
    · refine ⟨⟨rfl, rfl⟩, ?_, ⟨rfl, fun _ => rfl, trivial, trivial⟩, trivial⟩
      nofun
  · intro p hp
    refine hboth p ?_
    rw [compositeForest, FlowForest.nodes_single, FlowForest.nodes_single] at hp
    exact (List.Perm.swap innerOp outerOp []).mem_iff.mp hp
  · exact ⟨rfl, rfl, rfl⟩
  · exact hboth

theorem compositeThread_avail {free : Finset (Fin nflowops)} (hfree : ¬ free ⊆ {innerOp}) :
    (compositeThread free).pool.avail = free.card := by
  have heq : (compositeThread free).pool.free = free := by
    ext p
    simp [Pool.mem_free, compositeThread]
  rw [Pool.avail, heq]
  exact if_neg hfree

def freeFlowop : Fin nflowops := ⟨2, by decide⟩
def freeFlowop' : Fin nflowops := ⟨3, by decide⟩

theorem flowopCreateRuntimeFlowops_copies_both :
    ∃ ret s', Returns (fun fuel => flowopCreateRuntimeFlowops noFiles fuel (some 0) (.thread 0)
        (compositeThread {freeFlowop, freeFlowop'})) (ret, s') ∧
      ((ret = .shutdown ∧ ∃ p ∈ compositeForest.nodes,
          Missing noFiles ((compositeThread {freeFlowop, freeFlowop'}).flowop p)) ∨
        ret = .ok ∧ ∃ F', RuntimeFlowops (compositeThread {freeFlowop, freeFlowop'}) s' 0
          compositeForest F' [innerOp, outerOp]) := by
  refine flowopCreateRuntimeFlowops_copies noFiles (compositeThread_prototypes (by decide)) ?_
  rw [compositeThread_avail (by decide)]
  decide

theorem flowopCreateRuntimeFlowops_exhausted_none :
    ∃ ret s', Returns (fun fuel => flowopCreateRuntimeFlowops noFiles fuel (some 0) (.thread 0)
        (compositeThread ∅)) (ret, s') ∧
      (ret ≠ .ok ↔ (compositeThread ∅).pool.avail < compositeForest.upToLast ∨
        ∃ p ∈ (compositeForest.take (compositeThread ∅).pool.avail).nodes,
          Missing noFiles ((compositeThread ∅).flowop p)) :=
  flowopCreateRuntimeFlowops_exhausted noFiles (compositeThread_prototypes (by decide))

/-- One flowop is left for the two that the thread needs. The composite one gets it, and nobody
is told that the inner one is missing. -/
theorem flowopCreateRuntimeFlowops_truncated :
    (compositeThread {freeFlowop}).pool.avail < compositeForest.size ∧
    ∃ s', Returns (fun fuel => flowopCreateRuntimeFlowops noFiles fuel (some 0) (.thread 0)
      (compositeThread {freeFlowop})) (.ok, s') := by
  have havail : (compositeThread {freeFlowop}).pool.avail = 1 := by
    rw [compositeThread_avail (by decide)]
    rfl
  refine ⟨by rw [havail]; decide, ?_⟩
  obtain ⟨ret, s', hrun, hend⟩ :=
    Prototypes.created (s := compositeThread {freeFlowop})
      (compositeThread_prototypes (by decide)) noFiles
  cases hend with
  | shutdown _ hmissing =>
    obtain ⟨name, hname, -⟩ := hmissing
    cases hname
  | built =>
    rw [havail, if_neg (by decide)] at hrun
    exact ⟨s', hrun⟩

end Filebench
