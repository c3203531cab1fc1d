import Filebench.Lib.Linked
import Filebench.Lib.Trace

/-! # Targets of a wakeup or a post

On its first call a flowop that wakes or posts searches all flowops for those of its target name.
The search strings them together through fields that all searches share, and the list of targets is
copied from there without a lock. The search waits until every thread that has begun to start has
created its flowops. -/
namespace Filebench

open Linked

inductive StartPhase where
  | idle
  /-- It holds `shm_flowop_find_lock` as a reader. -/
  | registered
  | created
  deriving DecidableEq

/-- Where a wakeup or a sempost flowop is. -/
inductive TargetPhase (α : Type) where
  | idle
  | barrier
  | passed
  | scan (rest : List α) (result : Option α)
  | copy (result : Option α)
  | store (result : α) (value : Option α)
  | advance (result : α)
  | walk (target : Option α) (posted : List α)
  | shutdown
  deriving DecidableEq

/-- The flowops of the script, and those that each thread creates from them. -/
structure TargetEnv (α τ ν : Type) where
  foName : α → ν
  foTargetname : α → ν
  isMaster : α → Bool
  masters : List α
  thrdFops : τ → List α
  masters_nodup : masters.Nodup
  fops_nodup : ∀ i, (thrdFops i).Nodup
  fops_masters : ∀ i, ∀ f ∈ thrdFops i, f ∉ masters
  fops_disjoint : ∀ i j, i ≠ j → ∀ f ∈ thrdFops i, f ∉ thrdFops j

/-- The fields of flowops that are not created yet are what the memory holds. -/
structure TargetState (α τ : Type) where
  shmFlowoplist : List α
  foResultnext : α → Option α
  foTargetnext : α → Option α
  foTargets : α → Option α
  thread : τ → StartPhase
  phase : α → TargetPhase α
  /-- The threads that hold `shm_flowop_find_lock`. -/
  findReaders : Finset τ
  /-- The flowop that holds `shm_flowop_lock` in its search. -/
  flowopLock : Option α
  /-- Some search has passed the barrier. -/
  searched : Bool

inductive TargetEvent (α τ : Type) where
  | register (i : τ)
  | create (i : τ)
  | call (w : α)
  | barrier (w : α)
  | lock (w : α)
  | look (w : α)
  | copy (w : α)
  | post (w : α)

variable {α τ ν : Type} [DecidableEq α] [DecidableEq τ] [DecidableEq ν]

namespace TargetState

def setPhase (s : TargetState α τ) (w : α) (p : TargetPhase α) : TargetState α τ :=
  { s with phase := Function.update s.phase w p }

/-- One step of the loop in `flowop_find`, or the end of it. -/
def look (env : TargetEnv α τ ν) (s : TargetState α τ) (w : α) (result : Option α) :
    List α → TargetState α τ
  | f :: rest =>
    if env.foName f = env.foTargetname w then
      { s.setPhase w (.scan rest (some f)) with
        foResultnext := Function.update s.foResultnext f result }
    else s.setPhase w (.scan rest result)
  | [] =>
    { s.setPhase w (if result = none then .shutdown else .copy result) with
      flowopLock := none
      foTargets := Function.update s.foTargets w result }

end TargetState

def targetNext (env : TargetEnv α τ ν) (s : TargetState α τ) :
    TargetEvent α τ → Option (TargetState α τ)
  | .register i =>
    if s.thread i = .idle then
      some { s with
        thread := Function.update s.thread i .registered
        findReaders := insert i s.findReaders }
    else none
  | .create i =>
    if s.thread i = .registered ∧ s.flowopLock = none then
      some { s with
        shmFlowoplist := (env.thrdFops i).reverse ++ s.shmFlowoplist
        thread := Function.update s.thread i .created
        findReaders := s.findReaders.erase i }
    else none
  | .call w =>
    match s.phase w with
    | .idle =>
      some (s.setPhase w (if s.foTargets w = none then .barrier else .walk (s.foTargets w) []))
    | _ => none
  | .barrier w =>
    match s.phase w with
    | .barrier =>
      if s.findReaders = ∅ then some { s.setPhase w .passed with searched := true } else none
    | _ => none
  | .lock w =>
    match s.phase w with
    | .passed =>
      if s.flowopLock = none then
        some { s.setPhase w (.scan s.shmFlowoplist none) with flowopLock := some w }
      else none
    | _ => none
  | .look w =>
    match s.phase w with
    | .scan rest result => some (s.look env w result rest)
    | _ => none
  | .copy w =>
    match s.phase w with
    | .copy (some f) => some (s.setPhase w (.store f (s.foResultnext f)))
    | .store f value =>
      some { s.setPhase w (.advance f) with
        foTargetnext := Function.update s.foTargetnext f value }
    | .advance f => some (s.setPhase w (.copy (s.foResultnext f)))
    | .copy none => some (s.setPhase w (.walk (s.foTargets w) []))
    | _ => none
  | .post w =>
    match s.phase w with
    | .walk (some f) posted =>
      some (s.setPhase w (.walk (s.foTargetnext f)
        (if env.isMaster f then posted else posted ++ [f])))
    | .walk none _ => some (s.setPhase w .idle)
    | _ => none

structure TargetStart (env : TargetEnv α τ ν) (s : TargetState α τ) : Prop where
  list : s.shmFlowoplist = env.masters
  targets : ∀ w, s.foTargets w = none
  thread : ∀ i, s.thread i = .idle
  phase : ∀ w, s.phase w = .idle
  findReaders : s.findReaders = ∅
  flowopLock : s.flowopLock = none
  searched : s.searched = false

abbrev TargetRun (env : TargetEnv α τ ν) :
    List (TargetState α τ × TargetEvent α τ) → TargetState α τ → Prop :=
  Trace.Run (targetNext env) (TargetStart env)

/-- Every thread that starts has begun to before the first search passes the barrier. -/
def InTime (trace : List (TargetState α τ × TargetEvent α τ)) : Prop :=
  ∀ x ∈ trace, ∀ i, x.2 = .register i → x.1.searched = false

/-! ## The invariant -/

section invariant

variable (env : TargetEnv α τ ν) (s : TargetState α τ) (w : α)

/-- The flowops of the target name, the oldest first. -/
def named : List α :=
  (s.shmFlowoplist.filter fun f => env.foName f = env.foTargetname w).reverse

/-- The search is over: the results are strung together, from the oldest on. -/
structure Found : Prop where
  targets : s.foTargets w = (named env s w).head?
  results : IsList s.foResultnext (named env s w).head? (named env s w)

/-- The list of targets is copied. -/
structure Listed : Prop extends Found env s w where
  copied : ∀ x ∈ named env s w, s.foTargetnext x = s.foResultnext x

def PhaseOk : TargetPhase α → Prop
  | .idle => s.foTargets w = none ∨ Listed env s w
  | .barrier | .passed => s.foTargets w = none
  | .scan rest result => ∃ visited, s.shmFlowoplist = visited ++ rest ∧
      IsList s.foResultnext result
        (visited.filter fun f => env.foName f = env.foTargetname w).reverse
  | .copy result => Found env s w ∧ ∃ u v, named env s w = u ++ v ∧ result = v.head? ∧
      ∀ x ∈ u, s.foTargetnext x = s.foResultnext x
  | .store f value => Found env s w ∧ value = s.foResultnext f ∧
      ∃ u v, named env s w = u ++ f :: v ∧ ∀ x ∈ u, s.foTargetnext x = s.foResultnext x
  | .advance f => Found env s w ∧
      ∃ u v, named env s w = u ++ f :: v ∧ ∀ x ∈ u ++ [f], s.foTargetnext x = s.foResultnext x
  | .walk target posted => Listed env s w ∧ ∃ u v, named env s w = u ++ v ∧ target = v.head? ∧
      posted = u.filter fun f => !env.isMaster f
  | .shutdown => True

/-- Before the first search nothing but the list itself is looked at; after it the list stays. -/
structure TargetInv : Prop where
  nodup : s.shmFlowoplist.Nodup
  origin : ∀ f ∈ s.shmFlowoplist,
    f ∈ env.masters ∨ ∃ i, s.thread i = .created ∧ f ∈ env.thrdFops i
  created : ∀ i, s.thread i = .created → ∀ f ∈ env.thrdFops i, f ∈ s.shmFlowoplist
  readers : ∀ i, i ∈ s.findReaders ↔ s.thread i = .registered
  early : s.searched = false → ∀ w, (s.phase w = .idle ∨ s.phase w = .barrier) ∧
    s.foTargets w = none
  late : s.searched = true → ∀ i, s.thread i ≠ .registered
  lock : ∀ w rest result, s.phase w = .scan rest result → s.flowopLock = some w
  ok : ∀ w, PhaseOk env s w (s.phase w)

end invariant

variable {env : TargetEnv α τ ν} {s s' : TargetState α τ} {w w' f : α} {i : τ}
  {e : TargetEvent α τ} {p : TargetPhase α} {result : Option α} {rest : List α}
  {trace : List (TargetState α τ × TargetEvent α τ)}

theorem TargetStart.inv (h : TargetStart env s) : TargetInv env s := by
  constructor
  · rw [h.list]
    exact env.masters_nodup
  · intro f hf
    exact .inl (h.list ▸ hf)
  · intro i hi
    rw [h.thread] at hi
    cases hi
  · intro i
    rw [h.findReaders, h.thread]
    simp
  · intro _ w
    exact ⟨.inl (h.phase w), h.targets w⟩
  · intro hsearched
    rw [h.searched] at hsearched
    cases hsearched
  · intro w rest result hphase
    rw [h.phase] at hphase
    cases hphase
  · intro w
    rw [h.phase]
    exact .inl (h.targets w)

theorem mem_named : f ∈ named env s w ↔
    f ∈ s.shmFlowoplist ∧ env.foName f = env.foTargetname w := by
  simp [named]

theorem named_congr (h : s'.shmFlowoplist = s.shmFlowoplist) (w : α) :
    named env s' w = named env s w := by
  rw [named, named, h]

/-- What one flowop does to the shared fields does not disturb the others. -/
structure Agrees (env : TargetEnv α τ ν) (s s' : TargetState α τ) (w : α) (p : TargetPhase α) :
    Prop where
  list : s'.shmFlowoplist = s.shmFlowoplist
  targets : s'.foTargets w = s.foTargets w
  results : (Found env s w ∨ ∃ rest result, p = .scan rest result) → ∀ x ∈ named env s w,
    s'.foResultnext x = s.foResultnext x
  copies : Found env s w → ∀ x ∈ named env s w, s.foTargetnext x = s.foResultnext x →
    s'.foTargetnext x = s.foResultnext x

theorem Found.agrees (h : Found env s w) (ha : Agrees env s s' w p) : Found env s' w := by
  obtain ⟨htargets, hresults⟩ := id h
  rw [← named_congr ha.list] at htargets hresults
  refine ⟨ha.targets.trans htargets, hresults.congr fun x hx => ?_⟩
  rw [named_congr ha.list] at hx
  exact ha.results (.inl h) x hx

/-- The copies that were made stay. -/
theorem Found.copies (h : Found env s w) (ha : Agrees env s s' w p) {u : List α}
    (hu : ∀ x ∈ u, x ∈ named env s w) (hcopied : ∀ x ∈ u, s.foTargetnext x = s.foResultnext x) :
    ∀ x ∈ u, s'.foTargetnext x = s'.foResultnext x := by
  intro x hx
  rw [ha.copies h x (hu x hx) (hcopied x hx), ha.results (.inl h) x (hu x hx)]

theorem Listed.agrees (h : Listed env s w) (ha : Agrees env s s' w p) : Listed env s' w := by
  refine ⟨h.toFound.agrees ha, ?_⟩
  rw [named_congr ha.list]
  exact h.toFound.copies ha (fun _ hx => hx) h.copied

theorem PhaseOk.agrees (h : PhaseOk env s w p) (ha : Agrees env s s' w p) :
    PhaseOk env s' w p := by
  have hnamed : named env s' w = named env s w := named_congr ha.list w
  cases p with
  | idle =>
    rcases h with h | h
    · exact .inl (ha.targets.trans h)
    · exact .inr (h.agrees ha)
  | barrier => exact ha.targets.trans h
  | passed => exact ha.targets.trans h
  | scan rest result =>
    obtain ⟨visited, hlist, hresults⟩ := h
    refine ⟨visited, ha.list.trans hlist, hresults.congr fun x hx => ?_⟩
    apply ha.results (.inr ⟨rest, result, rfl⟩)
    have hx' := List.mem_filter.mp (List.mem_reverse.mp hx)
    rw [mem_named, hlist]
    exact ⟨List.mem_append_left _ hx'.1, of_decide_eq_true hx'.2⟩
  | copy result =>
    obtain ⟨hfound, u, v, hsplit, hresult, hcopied⟩ := h
    refine ⟨hfound.agrees ha, u, v, hnamed.trans hsplit, hresult, ?_⟩
    refine hfound.copies ha (fun x hx => ?_) hcopied
    rw [hsplit]
    exact List.mem_append_left _ hx
  | store f value =>
    obtain ⟨hfound, hvalue, u, v, hsplit, hcopied⟩ := h
    have hf : f ∈ named env s w := by
      rw [hsplit]
      simp
    refine ⟨hfound.agrees ha, hvalue.trans (ha.results (.inl hfound) f hf).symm, u, v,
      hnamed.trans hsplit, ?_⟩
    refine hfound.copies ha (fun x hx => ?_) hcopied
    rw [hsplit]
    exact List.mem_append_left _ hx
  | advance f =>
    obtain ⟨hfound, u, v, hsplit, hcopied⟩ := h
    refine ⟨hfound.agrees ha, u, v, hnamed.trans hsplit, ?_⟩
    refine hfound.copies ha (fun x hx => ?_) hcopied
    rw [hsplit]
    rcases List.mem_append.mp hx with hx | hx
    · exact List.mem_append_left _ hx
    · rw [List.mem_singleton.mp hx]
      simp
  | walk target posted =>
    obtain ⟨hlisted, u, v, hsplit, htarget, hposted⟩ := h
    exact ⟨hlisted.agrees ha, u, v, hnamed.trans hsplit, htarget, hposted⟩
  | shutdown => trivial

/-- A step of `w` that leaves the lists alone. -/
theorem agrees_of_same {s' : TargetState α τ} (hlist : s'.shmFlowoplist = s.shmFlowoplist)
    (htargets : s'.foTargets w = s.foTargets w) (hresults : s'.foResultnext = s.foResultnext)
    (hcopies : s'.foTargetnext = s.foTargetnext) : Agrees env s s' w p := by
  refine ⟨hlist, htargets, fun _ x _ => congrFun hresults x, fun _ x _ hx => ?_⟩
  rw [hcopies]
  exact hx

namespace TargetInv

/-- One flowop goes on. -/
theorem move (h : TargetInv env s) {p : TargetPhase α} {b : Option α} {searched : Bool}
    {res tgt targets : α → Option α}
    (hs' : s' = { s.setPhase w p with
      foResultnext := res, foTargetnext := tgt, foTargets := targets, flowopLock := b
      searched := searched })
    (hearly : searched = false →
      (p = .idle ∨ p = .barrier) ∧ targets = s.foTargets ∧ s.searched = false)
    (hlate : searched = true → s.searched = true ∨ s.findReaders = ∅)
    (hlock : b = s.flowopLock ∨ s.flowopLock = some w ∨ s.flowopLock = none)
    (hscan : ∀ rest result, p = .scan rest result → b = some w)
    (hok : PhaseOk env s' w p)
    (hagrees : ∀ w', w' ≠ w → Agrees env s s' w' (s.phase w')) : TargetInv env s' := by
  subst hs'
  constructor
  · exact h.nodup
  · exact h.origin
  · exact h.created
  · exact h.readers
  · intro hsearched w'
    obtain ⟨hp, htargets, hbefore⟩ := hearly hsearched
    have hw' := h.early hbefore w'
    simp only [TargetState.setPhase, Function.update_apply, htargets]
    split
    · exact ⟨hp, hw'.2⟩
    · exact hw'
  · intro hsearched i hi
    rcases hlate hsearched with hbefore | hempty
    · exact h.late hbefore i hi
    · have hmem := (h.readers i).mpr hi
      rw [hempty] at hmem
      exact absurd hmem (Finset.notMem_empty i)
  · intro w' rest result hphase
    simp only [TargetState.setPhase, Function.update_apply] at hphase
    split at hphase
    next heq => exact heq ▸ hscan rest result hphase
    next hne =>
      have hw' := h.lock w' rest result hphase
      rcases hlock with rfl | hw | hnone
      · exact hw'
      · exact absurd (Option.some.inj (hw'.symm.trans hw)) hne
      · exact absurd (hw'.symm.trans hnone) (Option.some_ne_none w')
  · intro w'
    by_cases hne : w' = w
    · subst hne
      simpa [TargetState.setPhase] using hok
    · have hw' := (h.ok w').agrees (hagrees w' hne)
      simpa [TargetState.setPhase, Function.update_of_ne hne] using hw'

/-- Before the first search there is nothing to disturb. -/
theorem early_ok (h : TargetInv env s) (hsearched : s.searched = false)
    (htargets : s'.foTargets = s.foTargets) (w : α) : PhaseOk env s' w (s.phase w) := by
  obtain ⟨hphase, hnone⟩ := h.early hsearched w
  rw [← htargets] at hnone
  rcases hphase with hphase | hphase
  · rw [hphase]
    exact .inl hnone
  · rw [hphase]
    exact hnone

theorem register (h : TargetInv env s) (hsearched : s.searched = false)
    (hidle : s.thread i = .idle) :
    TargetInv env { s with
      thread := Function.update s.thread i .registered
      findReaders := insert i s.findReaders } := by
  have hthread : ∀ j, Function.update s.thread i .registered j = .created ↔
      s.thread j = .created := by
    intro j
    rw [Function.update_apply]
    split
    next hj => simp [hj, hidle]
    next => rfl
  constructor
  · exact h.nodup
  · intro f hf
    exact (h.origin f hf).imp_right fun ⟨j, hj, hfj⟩ => ⟨j, (hthread j).mpr hj, hfj⟩
  · exact fun j hj => h.created j ((hthread j).mp hj)
  · intro j
    simp only [Finset.mem_insert, h.readers, Function.update_apply]
    by_cases hj : j = i <;> simp [hj]
  · exact h.early
  · intro hs
    exact absurd (hsearched.symm.trans hs) Bool.false_ne_true
  · exact h.lock
  · intro w
    apply h.early_ok hsearched
    rfl

theorem create (h : TargetInv env s) (hregistered : s.thread i = .registered) :
    TargetInv env { s with
      shmFlowoplist := (env.thrdFops i).reverse ++ s.shmFlowoplist
      thread := Function.update s.thread i .created
      findReaders := s.findReaders.erase i } := by
  have hsearched : s.searched = false := by
    cases hs : s.searched with
    | false => rfl
    | true => exact absurd hregistered (h.late hs i)
  have hcreated : ∀ j, s.thread j = .created → j ≠ i := by
    rintro j hj rfl
    rw [hregistered] at hj
    cases hj
  constructor
  · refine List.nodup_append.mpr ⟨List.nodup_reverse.mpr (env.fops_nodup i), h.nodup, ?_⟩
    rintro f hf g hg rfl
    have hf' := List.mem_reverse.mp hf
    rcases h.origin f hg with hmaster | ⟨j, hj, hfj⟩
    · exact env.fops_masters i f hf' hmaster
    · exact env.fops_disjoint j i (hcreated j hj) f hfj hf'
  · intro f hf
    rcases List.mem_append.mp hf with hf | hf
    · exact .inr ⟨i, Function.update_self _ _ _, List.mem_reverse.mp hf⟩
    · refine (h.origin f hf).imp_right fun ⟨j, hj, hfj⟩ => ⟨j, ?_, hfj⟩
      simp only [Function.update_of_ne (hcreated j hj)]
      exact hj
  · intro j hj f hf
    by_cases hji : j = i
    · subst hji
      exact List.mem_append_left _ (List.mem_reverse.mpr hf)
    · simp only [Function.update_of_ne hji] at hj
      exact List.mem_append_right _ (h.created j hj f hf)
  · intro j
    simp only [Finset.mem_erase, h.readers, Function.update_apply]
    by_cases hj : j = i <;> simp [hj]
  · exact h.early
  · intro hs
    exact absurd (hsearched.symm.trans hs) Bool.false_ne_true
  · exact h.lock
  · intro w
    apply h.early_ok hsearched
    rfl

theorem searched_of (h : TargetInv env s) (hphase : s.phase w = p)
    (hne : p ≠ .idle ∧ p ≠ .barrier) : s.searched = true := by
  cases hs : s.searched with
  | true => rfl
  | false =>
    rcases (h.early hs w).1 with hw | hw
    · exact absurd (hphase.symm.trans hw) hne.1
    · exact absurd (hphase.symm.trans hw) hne.2

/-- A step after the first search that leaves all lists alone. -/
theorem moveOn (h : TargetInv env s) (hsearched : s.searched = true)
    (hscan : ∀ rest result, p ≠ .scan rest result)
    (hok : PhaseOk env s w p) : TargetInv env (s.setPhase w p) := by
  have hsame : Agrees env s (s.setPhase w p) w p := agrees_of_same rfl rfl rfl rfl
  apply h.move rfl
  · intro hs
    exact absurd (hs.symm.trans hsearched) Bool.false_ne_true
  · exact fun _ => .inl hsearched
  · exact .inl rfl
  · exact fun rest result heq => absurd heq (hscan rest result)
  · exact hok.agrees hsame
  · exact fun w' _ => agrees_of_same rfl rfl rfl rfl

/-- The list of results that the search has so far is part of what any other search found. -/
theorem look_value (h : TargetInv env s) (hphase : s.phase w = .scan (f :: rest) result)
    (hname : env.foName f = env.foTargetname w) (hfound : Found env s w')
    (hf : f ∈ named env s w') : s.foResultnext f = result := by
  have hok := h.ok w
  rw [hphase] at hok
  obtain ⟨visited, hlist, hresults⟩ := hok
  have htarget : env.foTargetname w' = env.foTargetname w :=
    (mem_named.mp hf).2.symm.trans hname
  have hnamed : named env s w' =
      (rest.filter fun f => env.foName f = env.foTargetname w).reverse ++ f ::
        (visited.filter fun f => env.foName f = env.foTargetname w).reverse := by
    rw [named, hlist, htarget]
    simp [List.filter_cons, hname]
  have hlinked := hfound.results
  rw [hnamed] at hlinked
  exact hlinked.tail.head.trans hresults.head.symm

/-- The search looks at one flowop. -/
theorem look_cons (h : TargetInv env s) (hphase : s.phase w = .scan (f :: rest) result) :
    TargetInv env (s.look env w result (f :: rest)) := by
  have hsearched := h.searched_of hphase ⟨by simp, by simp⟩
  have hlock := h.lock w _ _ hphase
  have hok := h.ok w
  rw [hphase] at hok
  obtain ⟨visited, hlist, hresults⟩ := hok
  have hnodup := h.nodup
  rw [hlist] at hnodup
  have hf : f ∉ visited := fun hm => (List.nodup_append.mp hnodup).2.2 f hm f (.head _) rfl
  rw [TargetState.look]
  split
  next hname =>
    apply h.move rfl
    · intro hs
      exact absurd (hs.symm.trans hsearched) Bool.false_ne_true
    · exact fun _ => .inl hsearched
    · exact .inl rfl
    · exact fun _ _ _ => hlock
    · refine ⟨visited ++ [f], hlist.trans (by simp), ?_⟩
      have hfilter : ((visited ++ [f]).filter
          fun f => env.foName f = env.foTargetname w).reverse =
          f :: (visited.filter fun f => env.foName f = env.foTargetname w).reverse := by
        simp [List.filter_cons, hname]
      rw [hfilter]
      refine ⟨rfl, ?_⟩
      simp only [Function.update_self]
      exact hresults.update fun hm => hf (List.mem_filter.mp (List.mem_reverse.mp hm)).1
    · intro w' hne
      refine ⟨rfl, rfl, fun hw' x hx => ?_, fun _ x _ hx => hx⟩
      simp only [Function.update_apply]
      split
      next hxf =>
        subst hxf
        rcases hw' with hfound | ⟨rest', result', hscan⟩
        · exact (h.look_value hphase hname hfound hx).symm
        · exact absurd (Option.some.inj ((h.lock w' _ _ hscan).symm.trans hlock)) hne
      next => rfl
  next hname =>
    apply h.move rfl
    · intro hs
      exact absurd (hs.symm.trans hsearched) Bool.false_ne_true
    · exact fun _ => .inl hsearched
    · exact .inl rfl
    · exact fun _ _ _ => hlock
    · refine ⟨visited ++ [f], hlist.trans (by simp), ?_⟩
      have hfilter : (visited ++ [f]).filter
          (fun f => env.foName f = env.foTargetname w) =
          visited.filter fun f => env.foName f = env.foTargetname w := by
        simp [List.filter_cons, hname]
      rw [hfilter]
      exact hresults
    · exact fun w' _ => agrees_of_same rfl rfl rfl rfl

/-- The search is over. -/
theorem look_nil (h : TargetInv env s) (hphase : s.phase w = .scan [] result) :
    TargetInv env (s.look env w result []) := by
  have hsearched := h.searched_of hphase ⟨by simp, by simp⟩
  have hlock := h.lock w _ _ hphase
  have hok := h.ok w
  rw [hphase] at hok
  obtain ⟨visited, hlist, hresults⟩ := hok
  rw [List.append_nil] at hlist
  rw [TargetState.look]
  apply h.move rfl
  · intro hs
    exact absurd (hs.symm.trans hsearched) Bool.false_ne_true
  · exact fun _ => .inl hsearched
  · exact .inr (.inl hlock)
  · intro rest' result' heq
    split at heq <;> cases heq
  · split
    next => trivial
    next =>
      have hnamed : named env s w =
          (visited.filter fun f => env.foName f = env.foTargetname w).reverse := by
        rw [named, hlist]
      have hhead : result = (named env s w).head? := hnamed ▸ hresults.head
      refine ⟨⟨?_, ?_⟩, [], named env s w, rfl, hhead, fun x hx => absurd hx List.not_mem_nil⟩
      · exact (Function.update_self _ _ _).trans hhead
      · change IsList s.foResultnext (named env s w).head? (named env s w)
        rw [← hhead, hnamed]
        exact hresults
  · intro w' hne
    exact agrees_of_same rfl (Function.update_of_ne hne _ _) rfl rfl

/-- One target is copied. -/
theorem store (h : TargetInv env s) {value : Option α} (hphase : s.phase w = .store f value) :
    TargetInv env { s.setPhase w (.advance f) with
      foTargetnext := Function.update s.foTargetnext f value } := by
  have hsearched := h.searched_of hphase ⟨by simp, by simp⟩
  have hok := h.ok w
  rw [hphase] at hok
  obtain ⟨hfound, hvalue, u, v, hsplit, hcopied⟩ := hok
  have hcopies : ∀ x, s.foTargetnext x = s.foResultnext x →
      Function.update s.foTargetnext f value x = s.foResultnext x := by
    intro x hx
    rw [Function.update_apply]
    split
    next hxf => rw [hxf, hvalue]
    next => exact hx
  apply h.move rfl
  · intro hs
    exact absurd (hs.symm.trans hsearched) Bool.false_ne_true
  · exact fun _ => .inl hsearched
  · exact .inl rfl
  · intro rest' result' heq
    cases heq
  · refine ⟨hfound.agrees (p := .advance f) ⟨rfl, rfl, fun _ _ _ => rfl, fun _ x _ => hcopies x⟩,
      u, v, hsplit, fun x hx => ?_⟩
    rcases List.mem_append.mp hx with hx | hx
    · exact hcopies x (hcopied x hx)
    · rw [List.mem_singleton.mp hx]
      exact (Function.update_self _ _ _).trans hvalue
  · exact fun w' _ => ⟨rfl, rfl, fun _ _ _ => rfl, fun _ x _ => hcopies x⟩

theorem copy (h : TargetInv env s) (hnext : targetNext env s (.copy w) = some s') :
    TargetInv env s' := by
  have hok := h.ok w
  simp only [targetNext] at hnext
  split at hnext
  next f hphase =>
    obtain rfl := Option.some.inj hnext
    rw [hphase] at hok
    obtain ⟨hfound, u, v, hsplit, hhead, hcopied⟩ := hok
    obtain ⟨v, rfl⟩ := List.head?_eq_some_iff.mp hhead.symm
    apply h.moveOn (h.searched_of hphase ⟨by simp, by simp⟩)
    · intro _ _ heq
      cases heq
    · exact ⟨hfound, rfl, u, v, hsplit, hcopied⟩
  next f value hphase =>
    obtain rfl := Option.some.inj hnext
    exact h.store hphase
  next f hphase =>
    obtain rfl := Option.some.inj hnext
    rw [hphase] at hok
    obtain ⟨hfound, u, v, hsplit, hcopied⟩ := hok
    apply h.moveOn (h.searched_of hphase ⟨by simp, by simp⟩)
    · intro _ _ heq
      cases heq
    · have hlinked := hfound.results
      rw [hsplit] at hlinked
      exact ⟨hfound, u ++ [f], v, by rw [hsplit, List.append_assoc]; rfl, hlinked.tail.head,
        hcopied⟩
  next hphase =>
    obtain rfl := Option.some.inj hnext
    rw [hphase] at hok
    obtain ⟨hfound, u, v, hsplit, hhead, hcopied⟩ := hok
    have hv : v = [] := List.head?_eq_none_iff.mp hhead.symm
    rw [hv, List.append_nil] at hsplit
    apply h.moveOn (h.searched_of hphase ⟨by simp, by simp⟩)
    · intro _ _ heq
      cases heq
    · refine ⟨⟨hfound, hsplit ▸ hcopied⟩, [], named env s w, rfl, hfound.targets, rfl⟩
  next => cases hnext

theorem post (h : TargetInv env s) (hnext : targetNext env s (.post w) = some s') :
    TargetInv env s' := by
  have hok := h.ok w
  simp only [targetNext] at hnext
  split at hnext
  next f posted hphase =>
    obtain rfl := Option.some.inj hnext
    rw [hphase] at hok
    obtain ⟨hlisted, u, v, hsplit, hhead, hposted⟩ := hok
    obtain ⟨v, rfl⟩ := List.head?_eq_some_iff.mp hhead.symm
    apply h.moveOn (h.searched_of hphase ⟨by simp, by simp⟩)
    · intro _ _ heq
      cases heq
    · have hlinked := hlisted.results
      rw [hsplit] at hlinked
      have hf : f ∈ named env s w := by
        rw [hsplit]
        simp
      refine ⟨hlisted, u ++ [f], v, by rw [hsplit, List.append_assoc]; rfl, ?_, ?_⟩
      · rw [hlisted.copied f hf]
        exact hlinked.tail.head
      · rw [List.filter_append, ← hposted]
        cases hmaster : env.isMaster f <;> simp [hmaster]
  next posted hphase =>
    obtain rfl := Option.some.inj hnext
    rw [hphase] at hok
    apply h.moveOn (h.searched_of hphase ⟨by simp, by simp⟩)
    · intro _ _ heq
      cases heq
    · exact .inr hok.1
  next => cases hnext

theorem call (h : TargetInv env s) (hnext : targetNext env s (.call w) = some s') :
    TargetInv env s' := by
  have hok := h.ok w
  simp only [targetNext] at hnext
  split at hnext
  next hphase =>
    obtain rfl := Option.some.inj hnext
    rw [hphase] at hok
    split
    next hnone =>
      apply h.move rfl
      · exact fun hs => ⟨.inr rfl, rfl, hs⟩
      · exact .inl
      · exact .inl rfl
      · intro _ _ heq
        cases heq
      · exact hnone
      · exact fun w' _ => agrees_of_same rfl rfl rfl rfl
    next hsome =>
      have hlisted := hok.resolve_left hsome
      have hsearched : s.searched = true := by
        cases hs : s.searched with
        | true => rfl
        | false => exact absurd (h.early hs w).2 hsome
      apply h.moveOn hsearched
      · intro _ _ heq
        cases heq
      · exact ⟨hlisted, [], named env s w, rfl, hlisted.targets, rfl⟩
  next => cases hnext

theorem barrier (h : TargetInv env s) (hnext : targetNext env s (.barrier w) = some s') :
    TargetInv env s' := by
  have hok := h.ok w
  simp only [targetNext] at hnext
  split at hnext
  next hphase =>
    obtain ⟨hempty, hnext⟩ := Option.ite_none_right_eq_some.mp hnext
    obtain rfl := Option.some.inj hnext
    rw [hphase] at hok
    apply h.move rfl
    · intro hs
      cases hs
    · exact fun _ => .inr hempty
    · exact .inl rfl
    · intro _ _ heq
      cases heq
    · exact hok
    · exact fun w' _ => agrees_of_same rfl rfl rfl rfl
  next => cases hnext

theorem lockList (h : TargetInv env s) (hnext : targetNext env s (.lock w) = some s') :
    TargetInv env s' := by
  simp only [targetNext] at hnext
  split at hnext
  next hphase =>
    obtain ⟨hnone, hnext⟩ := Option.ite_none_right_eq_some.mp hnext
    obtain rfl := Option.some.inj hnext
    have hsearched := h.searched_of hphase ⟨by simp, by simp⟩
    apply h.move rfl
    · intro hs
      exact absurd (hs.symm.trans hsearched) Bool.false_ne_true
    · exact fun _ => .inl hsearched
    · exact .inr (.inr hnone)
    · exact fun _ _ _ => rfl
    · exact ⟨[], rfl, rfl⟩
    · exact fun w' _ => agrees_of_same rfl rfl rfl rfl
  next => cases hnext

theorem step (h : TargetInv env s) (hnext : targetNext env s e = some s')
    (htime : ∀ i, e = .register i → s.searched = false) : TargetInv env s' := by
  cases e with
  | register i =>
    simp only [targetNext, Option.ite_none_right_eq_some, Option.some.injEq] at hnext
    obtain ⟨hidle, rfl⟩ := hnext
    exact h.register (htime i rfl) hidle
  | create i =>
    simp only [targetNext, Option.ite_none_right_eq_some, Option.some.injEq] at hnext
    obtain ⟨⟨hregistered, -⟩, rfl⟩ := hnext
    exact h.create hregistered
  | call w => exact h.call hnext
  | barrier w => exact h.barrier hnext
  | lock w => exact h.lockList hnext
  | look w =>
    simp only [targetNext] at hnext
    split at hnext
    next rest result hphase =>
      obtain rfl := Option.some.inj hnext
      cases rest with
      | nil => exact h.look_nil hphase
      | cons f rest => exact h.look_cons hphase
    next => cases hnext
  | copy w => exact h.copy hnext
  | post w => exact h.post hnext

end TargetInv

theorem TargetRun.inv (h : TargetRun env trace s) (htime : InTime trace) : TargetInv env s := by
  induction h with
  | start hstart => exact hstart.inv
  | step _ hnext ih =>
    obtain ⟨hhead, htail⟩ := List.forall_mem_cons.mp htime
    exact (ih htail).step hnext hhead

/-- A wakeup or a post goes to every flowop of its target name that any thread has created, once
each, the oldest first, whatever searches and copies go on at the same time. -/
theorem targetRun_complete (h : TargetRun env trace s) (htime : InTime trace) {posted : List α}
    (hphase : s.phase w = .walk none posted) :
    posted = (s.shmFlowoplist.reverse.filter fun f =>
        env.foName f = env.foTargetname w && !env.isMaster f) ∧ posted.Nodup ∧
      ∀ i, s.thread i ≠ .idle → ∀ f ∈ env.thrdFops i, env.foName f = env.foTargetname w →
        env.isMaster f = false → f ∈ posted := by
  have hinv := TargetRun.inv h htime
  have hok := hinv.ok w
  rw [hphase] at hok
  obtain ⟨-, u, v, hsplit, hhead, hposted⟩ := hok
  have hv : v = [] := List.head?_eq_none_iff.mp hhead.symm
  rw [hv, List.append_nil] at hsplit
  have heq : posted = s.shmFlowoplist.reverse.filter fun f =>
      env.foName f = env.foTargetname w && !env.isMaster f := by
    rw [hposted, ← hsplit, named, ← List.filter_reverse, List.filter_filter]
    congr 1
    funext f
    exact Bool.and_comm _ _
  refine ⟨heq, ?_, fun i hi f hf hname hmaster => ?_⟩
  · rw [heq]
    exact (List.nodup_reverse.mpr hinv.nodup).filter _
  · have hsearched := hinv.searched_of hphase ⟨by simp, by simp⟩
    have hcreated : s.thread i = .created := by
      cases hthread : s.thread i with
      | idle => exact absurd hthread hi
      | registered => exact absurd hthread (hinv.late hsearched i)
      | created => rfl
    rw [heq, List.mem_filter, List.mem_reverse]
    exact ⟨hinv.created i hcreated f hf, by simp [hname, hmaster]⟩

/-- A thread with a wakeup, a thread with the block it wakes, and their masters. -/
def oneWakeup : TargetEnv ℕ Bool ℕ where
  foName f := if f = 0 ∨ f = 3 then 0 else 1
  foTargetname f := if f = 0 ∨ f = 3 then 1 else 9
  isMaster f := 2 ≤ f
  masters := [3, 2]
  thrdFops i := if i then [1] else [0]
  masters_nodup := by decide
  fops_nodup := by decide
  fops_masters := by decide
  fops_disjoint := by decide

def unstarted : TargetState ℕ Bool where
  shmFlowoplist := [3, 2]
  foResultnext _ := some 0
  foTargetnext _ := some 0
  foTargets _ := none
  thread _ := .idle
  phase _ := .idle
  findReaders := ∅
  flowopLock := none
  searched := false

def firstWakeup : List (TargetEvent ℕ Bool) :=
  [.register false, .register true, .create true, .call 0, .create false] ++
    [.barrier 0, .lock 0] ++ List.replicate 5 (.look 0) ++ List.replicate 7 (.copy 0) ++
    List.replicate 2 (.post 0)

def inTime (s : TargetState ℕ Bool) : TargetEvent ℕ Bool → Bool
  | .register _ => !s.searched
  | _ => true

theorem targetRun_complete_block : ∃ (trace : _) (t : TargetState ℕ Bool),
    TargetRun oneWakeup trace t ∧ t.phase 0 = .walk none [1] ∧
      [1] = t.shmFlowoplist.reverse.filter fun f =>
        oneWakeup.foName f = oneWakeup.foTargetname 0 && !oneWakeup.isMaster f := by
  have hrun : (firstWakeup.foldlM (Trace.guarded inTime (targetNext oneWakeup)) unstarted).map
      (fun s => s.phase 0) = some (.walk none [1]) := by
    decide +kernel
  obtain ⟨t, ht, hphase⟩ := Option.map_eq_some_iff.mp hrun
  have hstart : TargetStart oneWakeup unstarted :=
    ⟨rfl, fun _ => rfl, fun _ => rfl, fun _ => rfl, rfl, rfl, rfl⟩
  obtain ⟨trace, htrace, -, hmeets⟩ := (Trace.Run.start hstart).guarded
    (fun x hx => absurd hx List.not_mem_nil) ht
  have htime : InTime trace := by
    intro x hx i he
    have hx' := hmeets x hx
    rw [he] at hx'
    simpa [inTime] using hx'
  exact ⟨trace, t, htrace, hphase, (targetRun_complete htrace htime hphase).1⟩

end Filebench
