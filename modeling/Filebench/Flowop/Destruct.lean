import Filebench.Flowop.Create

/-! # The end of runtime flowops

A thread that stops calls the destructors of its flowops, and its list is deleted later. The
destructor of a composite flowop deletes its inner flowops without calling theirs, so that the
flowops of a composite inside of a composite stay. -/
namespace Filebench

open Linked

variable {A : Type} {n : ℕ} {s s' s₁ s₂ : FlowopShm A n}

section delete

variable (s : FlowopShm A n)

def FlowopShm.setNext (p : Fin n) (o : Option (Fin n)) : FlowopShm A n :=
  s.modify p fun f => { f with foNext := o }

/-- Takes a flowop off a list. On the empty list this reads through the null pointer. -/
def FlowopShm.unlinkExec (hdp : FlowopList n) (p : Fin n) : Option (FlowopShm A n) :=
  if s.hd hdp = some p then some (s.setHd hdp (s.execNext p))
  else do
    let entry ← s.hd hdp
    match ← prevOf s.execNext p n entry with
    | none => some s
    | some entry => some (s.setExecNext entry (s.execNext p))

/-- Takes a flowop off the global list and tells whether it was there. -/
def FlowopShm.unlinkGlobal (p : Fin n) : Option (Bool × FlowopShm A n) :=
  if s.shmFlowoplist = some p then some (true, { s with shmFlowoplist := s.next p })
  else do
    let entry ← s.shmFlowoplist
    match ← prevOf s.next p n entry with
    | none => some (false, s)
    | some entry => some (true, s.setNext entry (s.next p))

def flowopDelete (flowoplist : FlowopList n) (flowop : Fin n) (s : FlowopShm A n) :
    Option (FlowopShm A n) := do
  let s ← s.unlinkExec flowoplist flowop
  let (found, s) ← s.unlinkGlobal flowop
  some (if found then { s with pool := s.pool.ipcFree flowop } else s)

/-- The next flowop is read before the deletion. -/
def deleteLoop (flowoplist : FlowopList n) : ℕ → Option (Fin n) → FlowopShm A n →
    Option (FlowopShm A n)
  | _, none, s => some s
  | 0, some _, _ => none
  | fuel + 1, some flowop, s =>
    if (s.flowop flowop).foInstance = flowMaster then
      deleteLoop flowoplist fuel (s.execNext flowop) s
    else do
      let nextFlowop := s.execNext flowop
      let s ← flowopDelete flowoplist flowop s
      deleteLoop flowoplist fuel nextFlowop s

/-- The list has no more flowops than there are. -/
def flowopDeleteAll (flowoplist : FlowopList n) (s : FlowopShm A n) : Option (FlowopShm A n) :=
  deleteLoop flowoplist n (s.hd flowoplist) s

/-- The next flowop is read after the deletion. -/
def compositeDestructLoop (flowop : Fin n) : ℕ → Option (Fin n) → FlowopShm A n →
    Option (FlowopShm A n)
  | _, none, s => some s
  | 0, some _, _ => none
  | fuel + 1, some innerFlowop, s =>
    if (s.flowop innerFlowop).foInstance = flowMaster then
      compositeDestructLoop flowop fuel (s.execNext innerFlowop) s
    else do
      let s ← flowopDelete (.inner flowop) innerFlowop s
      compositeDestructLoop flowop fuel (s.execNext innerFlowop) s

def flowopCompositeDestruct (flowop : Fin n) (s : FlowopShm A n) : Option (FlowopShm A n) :=
  compositeDestructLoop flowop n (s.compFops flowop) s

/-- The destructors of the library free buffers only. -/
def flowopDestructflow (flowop : Fin n) (s : FlowopShm A n) : Option (FlowopShm A n) :=
  match (s.flowop flowop).foMethods with
  | .library => some s
  | .composite => flowopCompositeDestruct flowop s

def destructLoop : ℕ → Option (Fin n) → FlowopShm A n → Option (FlowopShm A n)
  | _, none, s => some s
  | 0, some _, _ => none
  | fuel + 1, some flowop, s => do
    let s ← flowopDestructflow flowop s
    destructLoop fuel (s.execNext flowop) s

def flowopDestructAllFlows (threadflow : ThreadPtr) (s : FlowopShm A n) :
    Option (FlowopShm A n) :=
  if s.tfRunning threadflow = false then some s
  else
    destructLoop n (s.tfThrdFops threadflow)
      { s with tfRunning := Function.update s.tfRunning threadflow false }

/-- The end of the thread and the deletion of its list. -/
def flowopsEnd (threadflow : ThreadPtr) (s : FlowopShm A n) : Option (FlowopShm A n) := do
  let s ← flowopDestructAllFlows threadflow s
  flowopDeleteAll (.thread threadflow) s

end delete

/-! ## Deletions -/

/-- The flowops of `L`, those of the list `hdp`, are deleted from the global list `gl`. -/
structure Deleted (s s' : FlowopShm A n) (hdp : FlowopList n) (L gl : List (Fin n)) : Prop where
  global : IsList s'.next s'.shmFlowoplist (gl.filter (· ∉ L))
  bitmap : ∀ r, s'.pool.bitmap r = if r ∈ L then false else s.pool.bitmap r
  execNext : s'.execNext = s.execNext
  comp : ∀ r, hdp ≠ .inner r → s'.compFops r = s.compFops r
  heads : ∀ t, hdp ≠ .thread t → s'.tfThrdFops t = s.tfThrdFops t
  methods : ∀ r, (s'.flowop r).foMethods = (s.flowop r).foMethods
  inst : ∀ r, (s'.flowop r).foInstance = (s.flowop r).foInstance

theorem Deleted.nil {hdp : FlowopList n} {gl : List (Fin n)}
    (h : IsList s.next s.shmFlowoplist gl) : Deleted s s hdp [] gl := by
  refine ⟨?_, fun r => ?_, rfl, fun _ _ => rfl, fun _ _ => rfl, fun _ => rfl, fun _ => rfl⟩
  · simpa using h
  · simp

theorem filter_notMem_append (gl L₁ L₂ : List (Fin n)) :
    (gl.filter (· ∉ L₁)).filter (· ∉ L₂) = gl.filter (· ∉ L₁ ++ L₂) := by
  rw [List.filter_filter]
  refine List.filter_congr fun r _ => ?_
  simp [Bool.and_comm]

/-- One deletion after another. -/
theorem Deleted.trans {hdp : FlowopList n} {L₁ L₂ gl : List (Fin n)}
    (h : Deleted s s₁ hdp L₁ gl) (h' : Deleted s₁ s₂ hdp L₂ (gl.filter (· ∉ L₁))) :
    Deleted s s₂ hdp (L₁ ++ L₂) gl := by
  constructor
  · rw [← filter_notMem_append]
    exact h'.global
  · intro r
    rw [h'.bitmap, h.bitmap]
    by_cases h₂ : r ∈ L₂
    · simp [h₂]
    · simp [h₂]
  · rw [h'.execNext, h.execNext]
  · exact fun r hr => (h'.comp r hr).trans (h.comp r hr)
  · exact fun t ht => (h'.heads t ht).trans (h.heads t ht)
  · exact fun r => (h'.methods r).trans (h.methods r)
  · exact fun r => (h'.inst r).trans (h.inst r)

/-- Only the global list was changed. -/
structure GlobalOnly (s s' : FlowopShm A n) : Prop where
  pool : s'.pool = s.pool
  heads : s'.tfThrdFops = s.tfThrdFops
  execNext : s'.execNext = s.execNext
  compFops : s'.compFops = s.compFops
  methods : ∀ r, (s'.flowop r).foMethods = (s.flowop r).foMethods
  inst : ∀ r, (s'.flowop r).foInstance = (s.flowop r).foInstance

theorem globalOnly_setNext (s : FlowopShm A n) (e : Fin n) (o : Option (Fin n)) :
    GlobalOnly s (s.setNext e o) := by
  have hkeeps : ∀ {X : Type} (g : ShmFlowop A n → X), (∀ x, g { x with foNext := o } = g x) →
      ∀ r, g ((s.setNext e o).flowop r) = g (s.flowop r) :=
    fun g hg r => s.modify_keeps e _ g hg r
  exact ⟨rfl, rfl, funext (hkeeps (·.foExecNext) fun _ => rfl),
    funext (hkeeps (·.foCompFops) fun _ => rfl), hkeeps (·.foMethods) fun _ => rfl,
    hkeeps (·.foInstance) fun _ => rfl⟩

theorem FlowopShm.setNext_next (s : FlowopShm A n) (e : Fin n) (o : Option (Fin n)) :
    (s.setNext e o).next = Function.update s.next e o := by
  funext r
  rw [FlowopShm.next, FlowopShm.setNext, FlowopShm.modify_flowop, Function.update_apply]
  split <;> rfl

/-- The global list without a flowop that is on it. -/
theorem unlinkGlobal_spec {p : Fin n} {gl : List (Fin n)}
    (hgl : IsList s.next s.shmFlowoplist gl) (hp : p ∈ gl) :
    ∃ s', s.unlinkGlobal p = some (true, s') ∧ IsList s'.next s'.shmFlowoplist (gl.erase p) ∧
      GlobalOnly s s' := by
  rcases hgl.first_or_after hp with ⟨hfirst, hrest⟩ | ⟨a, l₁, e, l₂, ha, hap, heq, herase⟩
  · exact ⟨{ s with shmFlowoplist := s.next p }, by rw [FlowopShm.unlinkGlobal, if_pos hfirst],
      hrest, rfl, rfl, rfl, rfl, fun _ => rfl, fun _ => rfl⟩
  · have hne : s.shmFlowoplist ≠ some p := by
      rw [ha]
      exact fun h => hap (Option.some.inj h)
    have hprev : prevOf s.next p n a = some (some e) := by
      have hlen := length_le_of_isList hgl
      rw [heq] at hlen
      refine prevOf_eq (heq ▸ ha ▸ hgl) ?_
      simp at hlen
      omega
    refine ⟨s.setNext e (s.next p), ?_, ?_, globalOnly_setNext s e _⟩
    · rw [FlowopShm.unlinkGlobal, if_neg hne, ha]
      change (prevOf s.next p n a).bind _ = _
      rw [hprev]
      rfl
    · rw [FlowopShm.setNext_next, herase]
      rw [heq] at hgl
      exact hgl.unlink

/-- The deletion of the first flowop of a list. -/
theorem flowopDelete_spec {hdp : FlowopList n} {p : Fin n} {gl : List (Fin n)}
    (hhd : s.hd hdp = some p) (hgl : IsList s.next s.shmFlowoplist gl) (hp : p ∈ gl) :
    ∃ s', flowopDelete hdp p s = some s' ∧ s'.hd hdp = s.execNext p ∧
      Deleted s s' hdp [p] gl := by
  have hexec : s.unlinkExec hdp p = some (s.setHd hdp (s.execNext p)) := if_pos hhd
  obtain ⟨s₁, hrun, hlist, honly⟩ := unlinkGlobal_spec (s := s.setHd hdp (s.execNext p))
    (by rwa [FlowopShm.setHd_next, FlowopShm.setHd_shmFlowoplist]) hp
  refine ⟨{ s₁ with pool := s₁.pool.ipcFree p }, ?_, ?_, ?_⟩
  · rw [flowopDelete, hexec]
    change ((s.setHd hdp (s.execNext p)).unlinkGlobal p).bind _ = _
    rw [hrun]
    rfl
  · have hhd₁ : s₁.hd hdp = (s.setHd hdp (s.execNext p)).hd hdp := by
      cases hdp with
      | thread t => exact congrFun honly.heads t
      | inner q => exact congrFun honly.compFops q
    exact hhd₁.trans (s.setHd_hd hdp _)
  · constructor
    · have herase : gl.filter (· ∉ [p]) = gl.erase p := by
        rw [hgl.nodup.erase_eq_filter]
        refine List.filter_congr fun r _ => ?_
        by_cases hr : r = p <;> simp [hr]
      rw [herase]
      exact hlist
    · intro r
      change Function.update s₁.pool.bitmap p false r = _
      rw [Function.update_apply, honly.pool, FlowopShm.setHd_pool]
      simp
    · exact honly.execNext.trans (s.setHd_execNext hdp _)
    · exact fun r hr => (congrFun honly.compFops r).trans (s.setHd_compFops hr _)
    · exact fun t ht => (congrFun honly.heads t).trans (s.setHd_tfThrdFops ht _)
    · exact fun r => (honly.methods r).trans (s.setHd_keeps hdp _ (·.foMethods) (fun _ => rfl) r)
    · exact fun r => (honly.inst r).trans (s.setHd_keeps hdp _ (·.foInstance) (fun _ => rfl) r)

/-- A walk that deletes every flowop of a list as its first one. -/
structure Deletes (hdp : FlowopList n)
    (walk : ℕ → Option (Fin n) → FlowopShm A n → Option (FlowopShm A n)) : Prop where
  ends : ∀ fuel s, walk fuel none s = some s
  first : ∀ {fuel p s s'}, (s.flowop p).foInstance ≠ flowMaster →
    flowopDelete hdp p s = some s' → s'.execNext = s.execNext →
    walk (fuel + 1) (some p) s = walk fuel (s.execNext p) s'

theorem Deletes.all {hdp : FlowopList n}
    {walk : ℕ → Option (Fin n) → FlowopShm A n → Option (FlowopShm A n)}
    (h : Deletes hdp walk) {L gl : List (Fin n)} (fuel : ℕ)
    (hL : IsList s.execNext (s.hd hdp) L) (hinst : ∀ p ∈ L, (s.flowop p).foInstance ≠ flowMaster)
    (hgl : IsList s.next s.shmFlowoplist gl) (hsub : ∀ p ∈ L, p ∈ gl) (hfuel : L.length ≤ fuel) :
    ∃ s', walk fuel (s.hd hdp) s = some s' ∧ Deleted s s' hdp L gl := by
  induction L generalizing s gl fuel with
  | nil =>
    have hnone : s.hd hdp = none := hL
    exact ⟨s, by rw [hnone, h.ends], .nil hgl⟩
  | cons p L ih =>
    obtain ⟨fuel, rfl, hle⟩ := exists_fuel hfuel
    obtain ⟨hhd, hrest⟩ := hL
    obtain ⟨s₁, hrun, hhd₁, hdel⟩ := flowopDelete_spec hhd hgl (hsub p (.head _))
    have hpL : p ∉ L := (List.nodup_cons.mp (IsList.nodup (h := s.hd hdp) ⟨hhd, hrest⟩)).1
    have hsub₁ : ∀ q ∈ L, q ∈ gl.filter (· ∉ [p]) := by
      intro q hq
      refine List.mem_filter.mpr ⟨hsub q (.tail _ hq), ?_⟩
      simpa using ne_of_mem_of_not_mem hq hpL
    obtain ⟨s₂, hrun₂, hdel₂⟩ := ih (s := s₁) fuel
      (by rw [hhd₁, hdel.execNext]; exact hrest)
      (fun q hq => by rw [hdel.inst]; exact hinst q (.tail _ hq)) hdel.global hsub₁ hle
    refine ⟨s₂, ?_, hdel.trans hdel₂⟩
    rw [hhd, h.first (hinst p (.head _)) hrun hdel.execNext, ← hhd₁]
    exact hrun₂

theorem deletes_deleteLoop (hdp : FlowopList n) :
    Deletes hdp (deleteLoop (A := A) hdp) := by
  refine ⟨fun fuel s => by cases fuel <;> rfl, fun hinst hrun _ => ?_⟩
  rw [deleteLoop, if_neg hinst, hrun]
  rfl

/-- The deletion of a flowop keeps its link, so that it does not matter when it is read. -/
theorem deletes_compositeDestructLoop (q : Fin n) :
    Deletes (.inner q) (compositeDestructLoop (A := A) q) := by
  refine ⟨fun fuel s => by cases fuel <;> rfl, fun hinst hrun hexec => ?_⟩
  rw [compositeDestructLoop, if_neg hinst, hrun, ← hexec]
  rfl

/-! ## The flowops that are deleted -/

namespace FlowForest

/-- The flowops inside of those of the list itself, one level down. -/
def seconds : FlowForest n → List (Fin n)
  | nil => []
  | cons _ inner rest => inner.tops ++ rest.seconds

/-- The flowops further down. -/
def deeper : FlowForest n → List (Fin n)
  | nil => []
  | cons _ inner rest => inner.deep ++ rest.deeper

theorem deep_perm (F : FlowForest n) : F.deep.Perm (F.seconds ++ F.deeper) := by
  induction F with
  | nil => rfl
  | cons p inner rest _ ih =>
    have hmid : (inner.deep ++ (rest.seconds ++ rest.deeper)).Perm
        (rest.seconds ++ (inner.deep ++ rest.deeper)) := by
      rw [← List.append_assoc, ← List.append_assoc]
      exact List.perm_append_comm.append_right _
    refine (inner.nodes_perm.append ih).trans ?_
    rw [List.append_assoc]
    refine (hmid.append_left _).trans ?_
    rw [← List.append_assoc]
    rfl

theorem nodes_eq_nil {F : FlowForest n} : F.nodes = [] ↔ F.depth = 0 := by
  cases F with
  | nil => exact iff_of_true rfl rfl
  | cons p inner rest =>
    refine iff_of_false nofun ?_
    rw [depth]
    omega

theorem deep_eq_nil {F : FlowForest n} : F.deep = [] ↔ F.depth ≤ 1 := by
  induction F with
  | nil => exact iff_of_true rfl (Nat.zero_le _)
  | cons p inner rest _ ih =>
    rw [deep, List.append_eq_nil_iff, nodes_eq_nil, ih, depth]
    omega

theorem deeper_eq_nil {F : FlowForest n} : F.deeper = [] ↔ F.depth ≤ 2 := by
  induction F with
  | nil => exact iff_of_true rfl (Nat.zero_le _)
  | cons p inner rest _ ih =>
    rw [deeper, List.append_eq_nil_iff, deep_eq_nil, ih, depth]
    omega

end FlowForest

/-- The flowops of `D`, inner ones of those of `T`, were deleted, none of which was on the list
of a thread. -/
structure Destructed (s s' : FlowopShm A n) (T D gl : List (Fin n)) : Prop where
  global : IsList s'.next s'.shmFlowoplist (gl.filter (· ∉ D))
  bitmap : ∀ r, s'.pool.bitmap r = if r ∈ D then false else s.pool.bitmap r
  execNext : s'.execNext = s.execNext
  comp : ∀ r, r ∉ T → s'.compFops r = s.compFops r
  heads : s'.tfThrdFops = s.tfThrdFops
  methods : ∀ r, (s'.flowop r).foMethods = (s.flowop r).foMethods
  inst : ∀ r, (s'.flowop r).foInstance = (s.flowop r).foInstance

theorem flowopDestructflow_spec {p : Fin n} {inner : FlowForest n} {gl : List (Fin n)}
    (hinner : Represents s (s.compFops p) inner)
    (hlib : (s.flowop p).foMethods = .library → inner = .nil)
    (hinst : ∀ q ∈ inner.nodes, (s.flowop q).foInstance ≠ flowMaster)
    (hgl : IsList s.next s.shmFlowoplist gl) (hsub : ∀ q ∈ inner.nodes, q ∈ gl) :
    ∃ s', flowopDestructflow p s = some s' ∧ Deleted s s' (.inner p) inner.tops gl := by
  cases hm : (s.flowop p).foMethods with
  | library =>
    rw [hlib hm]
    exact ⟨s, by rw [flowopDestructflow, hm], .nil hgl⟩
  | composite =>
    obtain ⟨s', hrun, hdel⟩ := (deletes_compositeDestructLoop p).all n hinner.tops
      (fun q hq => hinst q (FlowForest.tops_subset hq)) hgl
      (fun q hq => hsub q (FlowForest.tops_subset hq)) (length_le_of_isList hinner.tops)
    refine ⟨s', ?_, hdel⟩
    rw [flowopDestructflow, hm]
    exact hrun

theorem Deleted.represents {p : Fin n} {L gl : List (Fin n)} {c : Option (Fin n)}
    {F : FlowForest n} (h : Deleted s s' (.inner p) L gl) (hF : Represents s c F)
    (hp : p ∉ F.nodes) : Represents s' c F := by
  refine ⟨by rw [h.execNext]; exact hF.tops, hF.nested.congr ?_ ?_ ?_⟩
  · intro q hq
    refine h.comp q ?_
    rintro ⟨⟩
    exact hp hq
  · exact fun q _ => h.methods q
  · exact fun q _ => congrFun h.execNext q

/-- The destructors of the flowops of a list. -/
theorem destructLoop_spec {F : FlowForest n} {c : Option (Fin n)} {gl : List (Fin n)} (fuel : ℕ)
    (hF : Represents s c F) (hnodup : F.nodes.Nodup)
    (hinst : ∀ p ∈ F.nodes, (s.flowop p).foInstance ≠ flowMaster)
    (hgl : IsList s.next s.shmFlowoplist gl) (hsub : ∀ p ∈ F.nodes, p ∈ gl)
    (hfuel : F.tops.length ≤ fuel) :
    ∃ s', destructLoop fuel c s = some s' ∧ Destructed s s' F.tops F.seconds gl := by
  induction F generalizing s c gl fuel with
  | nil =>
    obtain rfl : c = none := hF.tops
    refine ⟨s, by cases fuel <;> rfl,
      ⟨?_, fun r => ?_, rfl, fun _ _ => rfl, rfl, fun _ => rfl, fun _ => rfl⟩⟩
    · simpa [FlowForest.seconds] using hgl
    · simp [FlowForest.seconds]
  | cons p inner rest _ ih =>
    obtain ⟨fuel, rfl, hle⟩ := exists_fuel hfuel
    obtain ⟨rfl, hinner, hrest⟩ := hF.cons
    obtain ⟨hp, hnodup'⟩ := List.nodup_cons.mp hnodup
    obtain ⟨-, hrestnodup, hdisj⟩ := List.nodup_append.mp hnodup'
    obtain ⟨s₁, hrun, hdel⟩ := flowopDestructflow_spec hinner hF.nested.2.1
      (fun q hq => hinst q (.tail _ (List.mem_append_left _ hq))) hgl
      (fun q hq => hsub q (.tail _ (List.mem_append_left _ hq)))
    have hsub₁ : ∀ q ∈ rest.nodes, q ∈ gl.filter (· ∉ inner.tops) := by
      intro q hq
      refine List.mem_filter.mpr ⟨hsub q (.tail _ (List.mem_append_right _ hq)), ?_⟩
      exact decide_eq_true fun h => hdisj q (FlowForest.tops_subset h) q hq rfl
    obtain ⟨s₂, hrun₂, hdes⟩ := ih (s := s₁) fuel
      (hdel.represents hrest fun h => hp (List.mem_append_right _ h)) hrestnodup
      (fun q hq => by rw [hdel.inst]; exact hinst q (.tail _ (List.mem_append_right _ hq)))
      hdel.global hsub₁ hle
    refine ⟨s₂, ?_, ?_⟩
    · rw [destructLoop, hrun]
      change destructLoop fuel (s₁.execNext p) s₁ = _
      rw [hdel.execNext]
      exact hrun₂
    · constructor
      · rw [FlowForest.seconds, ← filter_notMem_append]
        exact hdes.global
      · intro r
        rw [hdes.bitmap, hdel.bitmap, FlowForest.seconds]
        by_cases hr : r ∈ rest.seconds <;> simp [hr]
      · rw [hdes.execNext, hdel.execNext]
      · intro r hr
        rw [FlowForest.tops, List.mem_cons, not_or] at hr
        refine (hdes.comp r hr.2).trans (hdel.comp r ?_)
        rintro ⟨⟩
        exact hr.1 rfl
      · rw [hdes.heads]
        exact funext fun t => hdel.heads t (FlowopList.inner_ne_thread p t)
      · exact fun r => (hdes.methods r).trans (hdel.methods r)
      · exact fun r => (hdes.inst r).trans (hdel.inst r)

/-! ## The flowops of a thread -/

/-- The thread `t` has runtime flowops of its own, which are on the global list `gl`. -/
structure OwnFlowops (s : FlowopShm A n) (t : ThreadPtr) (F : FlowForest n)
    (gl : List (Fin n)) : Prop where
  flowops : Represents s (s.tfThrdFops t) F
  distinct : F.nodes.Nodup
  inst : ∀ p ∈ F.nodes, (s.flowop p).foInstance ≠ flowMaster
  allocated : ∀ p ∈ F.nodes, s.Allocated p
  global : IsList s.next s.shmFlowoplist gl
  onList : ∀ p ∈ F.nodes, p ∈ gl

theorem Copies.inst {threadflow : Option ThreadPtr} {F F' : FlowForest n}
    (h : Copies s s' threadflow F F') : ∀ p ∈ F'.nodes, (s'.flowop p).foInstance = 1 := by
  induction F generalizing F' with
  | nil => cases F' with
    | nil => nofun
    | cons => exact h.elim
  | cons p inner rest ihi ihr => cases F' with
    | nil => exact h.elim
    | cons p' inner' rest' =>
      intro q hq
      rcases List.mem_cons.mp hq with rfl | hq
      · exact h.1.inst
      · rcases List.mem_append.mp hq with hq | hq
        · exact ihi h.2.1 q hq
        · exact ihr h.2.2 q hq

/-- What the creation leaves to a thread. -/
theorem RuntimeFlowops.own {t : ThreadPtr} {F F' : FlowForest n} {gl : List (Fin n)}
    (h : RuntimeFlowops s s' t F F' gl) : OwnFlowops s' t F' (F'.nodes.reverse ++ gl) := by
  refine ⟨h.flowops, h.distinct, fun p hp => ?_, fun p hp => (h.allocated p hp).2, h.global,
    fun p hp => ?_⟩
  · rw [h.copies.inst p hp]
    decide
  · exact List.mem_append_left _ (List.mem_reverse.mpr hp)

/-- What the end of a thread deletes: its list, and, when its destructors are called, the inner
flowops of those of its list. -/
def FlowForest.ended (running : Bool) (F : FlowForest n) : List (Fin n) :=
  (if running then F.seconds else []) ++ F.tops

theorem flowopDestructAllFlows_spec {t : ThreadPtr} {F : FlowForest n} {gl : List (Fin n)}
    (h : OwnFlowops s t F gl) :
    ∃ s', flowopDestructAllFlows t s = some s' ∧
      Destructed s s' F.tops (if s.tfRunning t then F.seconds else []) gl := by
  cases hrun : s.tfRunning t with
  | false =>
    refine ⟨s, by rw [flowopDestructAllFlows, if_pos hrun],
      ⟨?_, fun r => ?_, rfl, fun _ _ => rfl, rfl, fun _ => rfl, fun _ => rfl⟩⟩
    · simpa using h.global
    · simp
  | true =>
    let s₁ : FlowopShm A n := { s with tfRunning := Function.update s.tfRunning t false }
    have hflowops : Represents s₁ (s.tfThrdFops t) F := ⟨h.flowops.tops, h.flowops.nested.congr
      (fun _ _ => rfl) (fun _ _ => rfl) fun _ _ => rfl⟩
    obtain ⟨s', hloop, hdes⟩ := destructLoop_spec n hflowops h.distinct h.inst h.global
      h.onList (length_le_of_isList h.flowops.tops)
    refine ⟨s', ?_, ⟨hdes.global, hdes.bitmap, hdes.execNext, hdes.comp, hdes.heads,
      hdes.methods, hdes.inst⟩⟩
    rw [flowopDestructAllFlows, if_neg (by simp [hrun])]
    exact hloop

theorem flowopsEnd_spec {t : ThreadPtr} {F : FlowForest n} {gl : List (Fin n)}
    (h : OwnFlowops s t F gl) :
    ∃ s', flowopsEnd t s = some s' ∧
      IsList s'.next s'.shmFlowoplist (gl.filter (· ∉ F.ended (s.tfRunning t))) ∧
      ∀ r, s'.pool.bitmap r =
        if r ∈ F.ended (s.tfRunning t) then false else s.pool.bitmap r := by
  obtain ⟨s₁, hrun, hdes⟩ := flowopDestructAllFlows_spec h
  have hhd : s₁.hd (.thread t) = s.tfThrdFops t := congrFun hdes.heads t
  have htops : IsList s₁.execNext (s₁.hd (.thread t)) F.tops := by
    rw [hhd, hdes.execNext]
    exact h.flowops.tops
  have hsub : ∀ p ∈ F.tops, p ∈ gl.filter (· ∉ if s.tfRunning t then F.seconds else []) := by
    intro p hp
    refine List.mem_filter.mpr ⟨h.onList p (FlowForest.tops_subset hp), decide_eq_true ?_⟩
    split
    · exact fun hs => FlowForest.tops_disjoint_deep h.distinct hp
        (F.deep_perm.mem_iff.mpr (List.mem_append_left _ hs))
    · exact List.not_mem_nil
  obtain ⟨s₂, hrun₂, hdel⟩ := (deletes_deleteLoop (.thread t)).all n htops
    (fun p hp => by rw [hdes.inst]; exact h.inst p (FlowForest.tops_subset hp)) hdes.global hsub
    (length_le_of_isList htops)
  refine ⟨s₂, ?_, ?_, fun r => ?_⟩
  · rw [flowopsEnd, hrun]
    exact hrun₂
  · rw [FlowForest.ended, ← filter_notMem_append]
    exact hdel.global
  · rw [hdel.bitmap, hdes.bitmap, FlowForest.ended]
    by_cases hr : r ∈ F.tops <;> simp [hr]

theorem forall_mem_left_iff {l a b : List (Fin n)} (h : l.Perm (a ++ b)) (hl : l.Nodup) :
    (∀ p ∈ l, p ∈ a) ↔ b = [] := by
  have hdisj := (List.nodup_append.mp (h.nodup_iff.mp hl)).2.2
  constructor
  · intro hall
    refine List.eq_nil_iff_forall_not_mem.mpr fun p hp => ?_
    exact hdisj p (hall p (h.mem_iff.mpr (List.mem_append_right _ hp))) p hp rfl
  · rintro rfl p hp
    simpa using h.mem_iff.mp hp

/-- Everything is deleted if and only if the forest is no deeper than what is deleted. -/
theorem FlowForest.ended_all {F : FlowForest n} (hF : F.nodes.Nodup) (running : Bool) :
    (∀ p ∈ F.nodes, p ∈ F.ended running) ↔ F.depth ≤ if running then 2 else 1 := by
  cases running with
  | false =>
    have hperm : F.nodes.Perm (F.ended false ++ F.deep) := F.nodes_perm
    rw [forall_mem_left_iff hperm hF, deep_eq_nil]
    rfl
  | true =>
    have hperm : F.nodes.Perm (F.ended true ++ F.deeper) := by
      refine F.nodes_perm.trans ((F.deep_perm.append_left _).trans ?_)
      rw [← List.append_assoc]
      exact List.perm_append_comm.append_right _
    rw [forall_mem_left_iff hperm hF, deeper_eq_nil]
    rfl

theorem FlowForest.ended_subset {F : FlowForest n} {running : Bool} {p : Fin n}
    (h : p ∈ F.ended running) : p ∈ F.nodes := by
  rw [ended, List.mem_append] at h
  rcases h with h | h
  · cases running with
    | false => cases h
    | true => exact deep_subset (F.deep_perm.mem_iff.mpr (List.mem_append_left _ h))
  · exact tops_subset h

/-- At the end of a thread its flowops are all deleted if and only if its destructors are called
and no composite flowop inside of another one has inner flowops, or no composite flowop has any.
The others stay in their order. -/
theorem flowopsEnd_deletes {t : ThreadPtr} {F : FlowForest n} {gl : List (Fin n)}
    (h : OwnFlowops s t F gl) :
    ∃ s' gl', flowopsEnd t s = some s' ∧ IsList s'.next s'.shmFlowoplist gl' ∧
      gl'.filter (· ∉ F.nodes) = gl.filter (· ∉ F.nodes) ∧
      ((∀ p ∈ F.nodes, p ∉ gl' ∧ ¬ s'.Allocated p) ↔
        F.depth ≤ if s.tfRunning t then 2 else 1) := by
  obtain ⟨s', hrun, hglobal, hbitmap⟩ := flowopsEnd_spec h
  refine ⟨s', _, hrun, hglobal, ?_, ?_⟩
  · rw [List.filter_filter]
    refine List.filter_congr fun r _ => ?_
    by_cases hr : r ∈ F.nodes
    · simp [hr]
    · simp [hr, mt FlowForest.ended_subset hr]
  · rw [← FlowForest.ended_all h.distinct]
    refine forall₂_congr fun p hp => ?_
    rw [FlowopShm.Allocated, hbitmap, List.mem_filter]
    have halloc : s.pool.bitmap p = true := h.allocated p hp
    by_cases hended : p ∈ F.ended (s.tfRunning t)
    · simp [hended]
    · simp [hended, halloc]

/-- A running thread with a composite flowop that has a composite flowop with one flowop inside. -/
def nestedThread : FlowopShm Unit nflowops where
  flowop p :=
    { foName := ['f']
      foInstance := 1
      foMethods := if p = freeFlowop then .library else .composite
      foAttrs := ()
      foThread := some 0
      foFileset := none
      foConstvalue := 0
      foConstwss := 0
      foNext := if p = freeFlowop then some innerOp else if p = innerOp then some outerOp else none
      foExecNext := none
      foCompFops :=
        if p = outerOp then some innerOp else if p = innerOp then some freeFlowop else none }
  pool := ⟨fun _ => true, freeFlowop⟩
  shmFlowoplist := some freeFlowop
  tfThrdFops := fun _ => some outerOp
  tfRunning := fun _ => true

def nestedForest : FlowForest nflowops :=
  .cons outerOp (.cons innerOp (.cons freeFlowop .nil .nil) .nil) .nil

theorem nestedThread_own :
    OwnFlowops nestedThread 0 nestedForest [freeFlowop, innerOp, outerOp] := by
  have hnodes : nestedForest.nodes = [outerOp, innerOp, freeFlowop] := rfl
  constructor
  · refine ⟨⟨rfl, rfl⟩, ⟨rfl, rfl⟩, nofun, ⟨⟨rfl, rfl⟩, nofun, ?_, trivial⟩, trivial⟩
    exact ⟨rfl, fun _ => rfl, trivial, trivial⟩
  · rw [hnodes]
    decide
  · exact fun _ _ => show (1 : ℤ) ≠ flowMaster by decide
  · exact fun _ _ => rfl
  · exact ⟨rfl, rfl, rfl, rfl⟩
  · intro p hp
    rw [hnodes] at hp
    exact List.mem_reverse.mp hp

theorem flowopsEnd_deletes_nested :
    ∃ s' gl', flowopsEnd 0 nestedThread = some s' ∧ IsList s'.next s'.shmFlowoplist gl' ∧
      gl'.filter (· ∉ nestedForest.nodes) =
        [freeFlowop, innerOp, outerOp].filter (· ∉ nestedForest.nodes) ∧
      ((∀ p ∈ nestedForest.nodes, p ∉ gl' ∧ ¬ s'.Allocated p) ↔
        nestedForest.depth ≤ if nestedThread.tfRunning 0 then 2 else 1) :=
  flowopsEnd_deletes nestedThread_own

/-- The innermost flowop stays on the global list, and allocated. -/
theorem flowopsEnd_leaks : OwnFlowops nestedThread 0 nestedForest [freeFlowop, innerOp, outerOp] ∧
    ∃ s' gl', flowopsEnd 0 nestedThread = some s' ∧ IsList s'.next s'.shmFlowoplist gl' ∧
      freeFlowop ∈ gl' ∧ s'.Allocated freeFlowop := by
  obtain ⟨s', hrun, hglobal, hbitmap⟩ := flowopsEnd_spec nestedThread_own
  have hkept : freeFlowop ∉ nestedForest.ended (nestedThread.tfRunning 0) := by
    change freeFlowop ∉ [innerOp, outerOp]
    decide
  refine ⟨nestedThread_own, s', _, hrun, hglobal, ?_, ?_⟩
  · exact List.mem_filter.mpr ⟨.head _, decide_eq_true hkept⟩
  · rw [FlowopShm.Allocated, hbitmap, if_neg hkept]
    rfl

end Filebench
