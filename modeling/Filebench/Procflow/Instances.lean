import Filebench.Procflow.Types

/-! # The list of procflows

What a run creates comes in front of the list, in the order of the list, and the shutdown leaves
the procflows of the script. -/
namespace Filebench

open Linked

variable {α T : Type} {n : ℕ} {s s' s₁ s₂ : ProcShm α T n} {L : List (Fin n)}

/-- The procflows of `L` are allocated and linked. -/
structure ProcList (s : ProcShm α T n) (L : List (Fin n)) : Prop where
  list : IsList s.next s.shmProclist L
  allocated : ∀ p ∈ L, s.pool.bitmap p = true

/-- A procflow without its link and its state. -/
def Procflow.still (f : Procflow α T n) : Procflow α T n :=
  { f with pfRunning := false, pfNext := none }

/-- The `i`-th instance of a procflow. -/
def Procflow.copy (f : Procflow α T n) (i : ℤ) : Procflow α T n := { f.still with pfInstance := i }

theorem Procflow.still_pfInstance {f g : Procflow α T n} (h : f.still = g.still) :
    f.pfInstance = g.pfInstance := by
  change f.still.pfInstance = g.still.pfInstance
  rw [h]

theorem Procflow.still_pfName {f g : Procflow α T n} (h : f.still = g.still) :
    f.pfName = g.pfName := by
  change f.still.pfName = g.still.pfName
  rw [h]

theorem Procflow.still_pfInstances {f g : Procflow α T n} (h : f.still = g.still) :
    f.pfInstances = g.pfInstances := by
  change f.still.pfInstances = g.still.pfInstances
  rw [h]

/-! ## Creation -/

/-- `N` were put in front of the list `L`, whose procflows are as before. -/
structure Pushed (s s' : ProcShm α T n) (N L : List (Fin n)) : Prop where
  procs : ProcList s' (N ++ L)
  old : ∀ r ∈ L, s'.procflow r = s.procflow r
  pool : ∀ r, s'.pool.bitmap r = true ↔ s.pool.bitmap r = true ∨ r ∈ N
  fresh : ∀ r ∈ N, s.pool.bitmap r = false
  running : s'.shmProcsRunning = s.shmProcsRunning
  fAbort : s'.shmFAbort = s.shmFAbort

theorem Pushed.refl (h : ProcList s L) : Pushed s s [] L :=
  ⟨h, fun _ _ => rfl, fun _ => (or_iff_left List.not_mem_nil).symm, nofun, rfl, rfl⟩

theorem Pushed.trans {N N' : List (Fin n)} (h : Pushed s s₁ N L)
    (h' : Pushed s₁ s₂ N' (N ++ L)) : Pushed s s₂ (N' ++ N) L := by
  constructor
  · rw [List.append_assoc]
    exact h'.procs
  · intro r hr
    rw [h'.old r (List.mem_append_right _ hr), h.old r hr]
  · intro r
    rw [h'.pool, h.pool, List.mem_append, or_assoc, or_comm (a := r ∈ N)]
  · intro r hr
    rcases List.mem_append.mp hr with hr | hr
    · have hfree := h'.fresh r hr
      rw [← Bool.not_eq_true, h.pool, not_or, Bool.not_eq_true] at hfree
      exact hfree.1
    · exact h.fresh r hr
  · exact h'.running.trans h.running
  · exact h'.fAbort.trans h.fAbort

theorem procflowDefineCommon_some {name : CString} {f : Procflow α T n} {inst : ℤ} {p : Fin n}
    (hs : ProcList s L) (h : procflowDefineCommon name f inst s = some (some p, s')) :
    Pushed s s' [p] L ∧
      s'.procflow p = { f with pfInstance := inst, pfName := name, pfNext := s.shmProclist } := by
  unfold procflowDefineCommon at h
  cases hm : s.pool.ipcMalloc with
  | mk o pool =>
    rw [hm] at h
    cases o with
    | none => cases h
    | some q =>
      obtain ⟨-, hfree, rfl⟩ := Pool.ipcMalloc_some hm
      simp only at h
      split at h
      next =>
        obtain ⟨hq, rfl⟩ := Prod.mk.inj (Option.some.inj h)
        obtain rfl := Option.some.inj hq
        have hqL : q ∉ L := by
          intro hmem
          rw [hs.allocated q hmem] at hfree
          exact absurd hfree nofun
        have hold : ∀ r ∈ L, r ≠ q := fun r hr => ne_of_mem_of_not_mem hr hqL
        refine ⟨⟨⟨?_, ?_⟩, ?_, ?_, ?_, rfl, rfl⟩, Function.update_self ..⟩
        · refine ⟨rfl, ?_⟩
          have hnext : (Function.update s.procflow q _ q).pfNext = s.shmProclist :=
            congrArg Procflow.pfNext (Function.update_self q
              { f with pfInstance := inst, pfName := name, pfNext := s.shmProclist } s.procflow)
          change IsList _ (Function.update s.procflow q _ q).pfNext L
          rw [hnext]
          refine hs.list.congr fun r hr => ?_
          exact congrArg Procflow.pfNext (Function.update_of_ne (hold r hr) ..)
        · intro r hr
          change Function.update s.pool.bitmap q true r = true
          rw [Function.update_apply]
          split
          next => rfl
          next hne => exact hs.allocated r ((List.mem_cons.mp hr).resolve_left hne)
        · exact fun r hr => Function.update_of_ne (hold r hr) ..
        · intro r
          change Function.update s.pool.bitmap q true r = true ↔ _
          rw [Function.update_apply, List.mem_singleton]
          split
          next hrq => exact iff_of_true rfl (.inr hrq)
          next hrq => exact (or_iff_left hrq).symm
        · intro r hr
          rw [List.mem_singleton.mp hr]
          exact hfree
      next => cases h

theorem ProcShm.modify_procflow (s : ProcShm α T n) (p r : Fin n)
    (f : Procflow α T n → Procflow α T n) :
    (s.modify p f).procflow r = if r = p then f (s.procflow r) else s.procflow r := by
  change Function.update s.procflow p (f (s.procflow p)) r = _
  rw [Function.update_apply]
  split
  next h => rw [h]
  next => rfl

theorem ProcShm.setRunning_still (s : ProcShm α T n) (p : Fin n) (b : Bool) (r : Fin n) :
    ((s.setRunning p b).procflow r).still = (s.procflow r).still := by
  rw [ProcShm.setRunning, ProcShm.modify_procflow]
  split <;> rfl

theorem ProcShm.setRunning_next (s : ProcShm α T n) (p : Fin n) (b : Bool) :
    (s.setRunning p b).next = s.next := by
  funext r
  rw [ProcShm.next, ProcShm.setRunning, ProcShm.modify_procflow]
  split <;> rfl

theorem ProcShm.setNext_still (s : ProcShm α T n) (p : Fin n) (o : Option (Fin n)) (r : Fin n) :
    ((s.setNext p o).procflow r).still = (s.procflow r).still := by
  rw [ProcShm.setNext, ProcShm.modify_procflow]
  split <;> rfl

theorem ProcShm.setNext_next (s : ProcShm α T n) (p : Fin n) (o : Option (Fin n)) :
    (s.setNext p o).next = Function.update s.next p o := by
  funext r
  rw [ProcShm.next, ProcShm.setNext, ProcShm.modify_procflow, Function.update_apply]
  split <;> rfl

theorem ProcList.setRunning (hs : ProcList s L) (p : Fin n) (b : Bool) :
    ProcList (s.setRunning p b) L := by
  refine ⟨?_, hs.allocated⟩
  rw [ProcShm.setRunning_next]
  exact hs.list

variable {env : ProcEnv α n}

/-- One instance is created. -/
theorem createInstance_spec {name : CString} {f : Procflow α T n} {inst : ℤ} {q : Fin n}
    (hs : ProcList s L) (h : procflowDefineCommon name f inst s = some (some q, s')) :
    Pushed s (s'.setRunning q false) [q] L ∧
      ((s'.setRunning q false).procflow q).still = { f.copy inst with pfName := name } := by
  obtain ⟨hpush, hq⟩ := procflowDefineCommon_some hs h
  have hqL : q ∉ L := (List.nodup_cons.mp hpush.procs.list.nodup).1
  refine ⟨⟨hpush.procs.setRunning q false, fun r hr => ?_, hpush.pool, hpush.fresh, hpush.running,
    hpush.fAbort⟩, ?_⟩
  · rw [ProcShm.setRunning, ProcShm.modify_procflow, if_neg (ne_of_mem_of_not_mem hr hqL)]
    exact hpush.old r hr
  · rw [ProcShm.setRunning_still, hq]
    rfl

theorem createInstances_spec {p : Fin n} {k i : ℕ} (hs : ProcList s L) (hp : p ∈ L)
    (h : createInstances env p k i s = some (true, s')) :
    ∃ N, Pushed s s' N L ∧ N.reverse.map (fun q => (s'.procflow q).still) =
        (List.range' i k).map (fun j : ℕ => (s.procflow p).copy (j + 1)) ∧
      ∀ q ∈ N, (s'.procflow q).pfRunning = false := by
  induction k generalizing s i L with
  | zero =>
    obtain rfl : s = s' := (Prod.mk.inj (Option.some.inj h)).2
    exact ⟨[], .refl hs, rfl, nofun⟩
  | succ k ih =>
    rw [createInstances] at h
    cases hdef : procflowDefineCommon (s.procflow p).pfName (s.procflow p) (i + 1) s with
    | none => rw [hdef] at h; cases h
    | some r =>
      obtain ⟨o, s₁⟩ := r
      rw [hdef] at h
      cases o with
      | none => cases h
      | some q =>
        cases hfork : env.fork q with
        | false =>
          simp only [Option.bind_eq_bind, Option.bind_some, procflowCreateproc, hfork] at h
          cases h
        | true =>
          simp only [Option.bind_eq_bind, Option.bind_some, procflowCreateproc, hfork] at h
          obtain ⟨hpush, hq⟩ := createInstance_spec hs hdef
          obtain ⟨N, hN, hmap, hstopped⟩ := ih hpush.procs (.tail _ hp) h
          refine ⟨N ++ [q], hpush.trans hN, ?_, fun r hr => ?_⟩
          · rw [List.reverse_append, List.reverse_singleton, List.singleton_append, List.map_cons,
              List.range'_succ, List.map_cons, hmap, hN.old q (.head _), hq, hpush.old p hp]
            rfl
          · rcases List.mem_append.mp hr with hr | hr
            · exact hstopped r hr
            · rw [List.mem_singleton.mp hr, hN.old q (.head _), ProcShm.setRunning,
                ProcShm.modify_procflow, if_pos rfl]

/-- What a run creates for the procflows of `C`. -/
def instancesOf (env : ProcEnv α n) (s : ProcShm α T n) (C : List (Fin n)) :
    List (Procflow α T n) :=
  C.flatMap fun p => (List.range (intCount (env.instances p (s.procflow p).pfInstances))).map
    fun j : ℕ => (s.procflow p).copy (j + 1)

theorem instancesOf_congr {C : List (Fin n)} (h : ∀ p ∈ C, s'.procflow p = s.procflow p) :
    instancesOf env s' C = instancesOf env s C := by
  refine List.flatMap_congr fun p hp => ?_
  rw [h p hp]

/-- Each one created is a numbered copy of a procflow that was on the list. -/
theorem instancesOf_copy {C N : List (Fin n)}
    (hmap : N.reverse.map (fun q => (s'.procflow q).still) = instancesOf env s C) :
    ∀ q ∈ N, ∃ p ∈ C, ∃ j : ℕ, (s'.procflow q).still = (s.procflow p).copy (j + 1) := by
  intro q hq
  have hmem : (s'.procflow q).still ∈ instancesOf env s C := by
    rw [← hmap]
    exact List.mem_map_of_mem (List.mem_reverse.mpr hq)
  obtain ⟨p, hp, hcopy⟩ := List.mem_flatMap.mp hmem
  obtain ⟨j, -, hj⟩ := List.mem_map.mp hcopy
  exact ⟨p, hp, j, hj.symm⟩

theorem not_master_of_copy {p q : Fin n} {j : ℕ}
    (h : (s'.procflow q).still = (s.procflow p).copy (j + 1)) : ¬ s'.Master q := by
  intro hm
  have hinst : ((s.procflow p).copy (j + 1)).pfInstance = flowMaster :=
    (congrArg Procflow.pfInstance h.symm).trans hm
  change ((j : ℤ) + 1) = -2 at hinst
  omega

theorem createAllProcs_spec {fuel : ℕ} {cur : Option (Fin n)} {C : List (Fin n)}
    (hs : ProcList s L) (hC : IsList s.next cur C) (hsub : C ⊆ L)
    (h : createAllProcs env fuel cur s = some (true, s')) :
    ∃ N, Pushed s s' N L ∧
      N.reverse.map (fun q => (s'.procflow q).still) = instancesOf env s C ∧
      ∀ q ∈ N, (s'.procflow q).pfRunning = false := by
  induction C generalizing s fuel cur L with
  | nil =>
    obtain rfl : cur = none := hC
    have hrun : createAllProcs env fuel none s = some (true, s) := by cases fuel <;> rfl
    obtain rfl : s = s' := (Prod.mk.inj (Option.some.inj (hrun.symm.trans h))).2
    exact ⟨[], .refl hs, rfl, nofun⟩
  | cons p C ih =>
    obtain ⟨rfl, hrest⟩ := hC
    obtain ⟨hp, hsub⟩ := List.cons_subset.mp hsub
    cases fuel with
    | zero => cases h
    | succ fuel =>
      rw [createAllProcs] at h
      cases hinst : createInstances env p
          (intCount (env.instances p (s.procflow p).pfInstances)) 0 s with
      | none => simp [hinst] at h
      | some r =>
        obtain ⟨b, s₁⟩ := r
        simp only [hinst, Option.bind_eq_bind, Option.bind_some] at h
        cases b with
        | false => cases h
        | true =>
          obtain ⟨N, hN, hmap, hstopped⟩ := createInstances_spec hs hp hinst
          have hold : ∀ r ∈ C, s₁.procflow r = s.procflow r := fun r hr => hN.old r (hsub hr)
          have hnext : IsList s₁.next (s₁.next p) C := by
            have hp₁ : s₁.next p = s.next p := congrArg Procflow.pfNext (hN.old p hp)
            rw [hp₁]
            exact hrest.congr fun r hr => congrArg Procflow.pfNext (hold r hr)
          obtain ⟨N', hN', hmap', hstopped'⟩ :=
            ih hN.procs hnext (fun r hr => List.mem_append_right _ (hsub hr)) h
          refine ⟨N' ++ N, hN.trans hN', ?_, fun r hr => ?_⟩
          · have hfirst : N.reverse.map (fun q => (s'.procflow q).still) =
                N.reverse.map fun q => (s₁.procflow q).still := by
              refine List.map_congr_left fun q hq => ?_
              rw [hN'.old q (List.mem_append_left _ (List.mem_reverse.mp hq))]
            rw [List.reverse_append, List.map_append, hfirst, hmap, hmap', instancesOf_congr hold,
              instancesOf, instancesOf, List.flatMap_cons, List.range_eq_range']
          · rcases List.mem_append.mp hr with hr | hr
            · exact hstopped' r hr
            · rw [hN'.old r (List.mem_append_left _ hr)]
              exact hstopped r hr

/-! ## Shutdown -/

/-- `L'` is what is left of the list. -/
structure Removed (s s' : ProcShm α T n) (L' : List (Fin n)) : Prop where
  procs : ProcList s' L'
  still : ∀ r, (s'.procflow r).still = (s.procflow r).still

theorem Removed.trans {L' L'' : List (Fin n)} (h : Removed s s₁ L') (h' : Removed s₁ s₂ L'') :
    Removed s s₂ L'' := ⟨h'.procs, fun r => (h'.still r).trans (h.still r)⟩

theorem ProcList.free {p : Fin n} {L' : List (Fin n)} (hs : ProcList s L) (hp : p ∉ L')
    (hsub : L' ⊆ L) (r : Fin n) (hr : r ∈ L') : (s.pool.ipcFree p).bitmap r = true := by
  change Function.update s.pool.bitmap p false r = true
  rw [Function.update_of_ne (ne_of_mem_of_not_mem hr hp)]
  exact hs.allocated r (hsub hr)

theorem procflowCleanup_spec {p : Fin n} (hs : ProcList s L) (hp : p ∈ L) :
    ∃ s', procflowCleanup p s = some s' ∧ Removed s s' (L.erase p) ∧
      s'.pool = s.pool.ipcFree p := by
  have hs₀ : ProcList (s.setRunning p false) L := hs.setRunning p false
  have hpL : p ∉ L.erase p := fun h => (List.Nodup.mem_erase_iff hs.list.nodup).mp h |>.1 rfl
  have hfree := hs₀.free hpL List.erase_subset
  have hstill := s.setRunning_still p false
  rcases hs₀.list.first_or_after hp with ⟨hfirst, hrest⟩ | ⟨a, l₁, e, l₂, ha, hap, heq, herase⟩
  · refine ⟨{ s.setRunning p false with
      shmProclist := (s.setRunning p false).next p, pool := s.pool.ipcFree p }, ?_,
      ⟨⟨hrest, hfree⟩, hstill⟩, rfl⟩
    change procflowUnlink p (s.setRunning p false) = _
    rw [procflowUnlink, hfirst]
    exact if_pos rfl
  · have hprev : prevOf (s.setRunning p false).next p n a = some (some e) := by
      have hlen := length_le_of_isList hs₀.list
      rw [heq] at hlen
      refine prevOf_eq (heq ▸ ha ▸ hs₀.list) ?_
      simp at hlen
      omega
    refine ⟨{ (s.setRunning p false).setNext e ((s.setRunning p false).next p) with
      pool := s.pool.ipcFree p }, ?_, ⟨⟨?_, hfree⟩, fun r => ?_⟩, rfl⟩
    · change procflowUnlink p (s.setRunning p false) = _
      rw [procflowUnlink, ha]
      simp only [if_neg hap, hprev]
      rfl
    · have hnext := (s.setRunning p false).setNext_next e ((s.setRunning p false).next p)
      have hlist := (heq ▸ hs₀.list).unlink
      rw [← hnext, ← herase] at hlist
      exact hlist
    · exact ((s.setRunning p false).setNext_still e _ r).trans (hstill r)

theorem procflowUnlink_pfRunning {p : Fin n} (h : procflowUnlink p s = some s') (r : Fin n) :
    (s'.procflow r).pfRunning = (s.procflow r).pfRunning := by
  unfold procflowUnlink at h
  split at h
  next =>
    obtain rfl := Option.some.inj h
    rfl
  next entry _ =>
    split at h
    next =>
      obtain rfl := Option.some.inj h
      rfl
    next =>
      obtain ⟨o, -, hs'⟩ := Option.bind_eq_some_iff.mp h
      cases o with
      | none =>
        obtain rfl := Option.some.inj hs'
        rfl
      | some e =>
        obtain rfl := Option.some.inj hs'
        change ((s.setNext e (s.next p)).procflow r).pfRunning = _
        rw [ProcShm.setNext, ProcShm.modify_procflow]
        split <;> rfl

/-- A procflow that does not run does not begin to. -/
theorem procflowCleanup_pfRunning {p r : Fin n} (h : procflowCleanup p s = some s')
    (hr : (s.procflow r).pfRunning = false) : (s'.procflow r).pfRunning = false := by
  rw [procflowUnlink_pfRunning h, ProcShm.setRunning, ProcShm.modify_procflow]
  split
  next => rfl
  next => exact hr

theorem Removed.master {L' : List (Fin n)} (h : Removed s s' L') (p : Fin n) :
    s'.Master p ↔ s.Master p := by
  rw [ProcShm.Master, ProcShm.Master, Procflow.still_pfInstance (h.still p)]

theorem shutdownLoop_spec {fuel : ℕ} {cur : Option (Fin n)} {M C : List (Fin n)}
    (hs : ProcList s (M ++ C)) (hcur : cur = C.head?) (hfuel : C.length ≤ fuel) :
    ∃ s', shutdownLoop fuel cur s = some s' ∧
      Removed s s' (M ++ C.filter (s.Master ·)) := by
  induction C generalizing s fuel cur M with
  | nil =>
    have hrun : shutdownLoop fuel cur s = some s := by
      rw [hcur]
      cases fuel <;> rfl
    exact ⟨s, hrun, hs, fun _ => rfl⟩
  | cons p C ih =>
    obtain ⟨fuel, rfl, hC⟩ := exists_fuel hfuel
    have hnext : s.next p = C.head? := hs.list.suffix.2.head
    rw [hcur, List.head?_cons, shutdownLoop]
    by_cases hm : s.Master p
    · have happend : M ++ p :: C = M ++ [p] ++ C := List.append_cons ..
      obtain ⟨s', hrun, hrem⟩ := ih (happend ▸ hs) rfl hC
      refine ⟨s', ?_, ?_⟩
      · rw [if_pos hm, hnext]
        exact hrun
      · rw [List.filter_cons_of_pos (by simpa using hm), List.append_cons]
        exact hrem
    · obtain ⟨s₁, hclean, hrem₁, -⟩ := procflowCleanup_spec (p := p) hs (by simp)
      have hpM : p ∉ M := fun h => (List.nodup_append.mp hs.list.nodup).2.2 p h p (.head _) rfl
      have herase : (M ++ p :: C).erase p = M ++ C := by
        rw [List.erase_append_right _ hpM, List.erase_cons_head]
      obtain ⟨s', hrun, hrem⟩ := ih (herase ▸ hrem₁.procs) rfl hC
      have hfilter : C.filter (s₁.Master ·) = C.filter (s.Master ·) :=
        List.filter_congr fun r _ => decide_eq_decide.mpr (hrem₁.master r)
      refine ⟨s', ?_, ?_⟩
      · rw [if_neg hm, hclean, hnext]
        exact hrun
      · rw [List.filter_cons_of_neg (by simpa using hm), ← hfilter]
        exact hrem₁.trans hrem

/-- A shutdown that finds a running process leaves the procflows of the script. -/
theorem procflowShutdown_spec (hs : ProcList s L) (hrunning : 0 < s.shmProcsRunning)
    (hfini : s.shmFAbort ≠ .fini) :
    ∃ s', procflowShutdown s = some s' ∧ Removed s s' (L.filter (s.Master ·)) := by
  have hs₀ : ProcList { s with shmFAbort := if s.shmFAbort = .ok then .done else s.shmFAbort }
      ([] ++ L) := ⟨hs.list, hs.allocated⟩
  obtain ⟨s', hrun, hrem⟩ := shutdownLoop_spec hs₀ hs.list.head (length_le_of_isList hs.list)
  refine ⟨{ s' with shmFAbort := .fini, shmProcsRunning := 0 }, ?_, ⟨hrem.procs.1, hrem.procs.2⟩,
    hrem.still⟩
  rw [procflowShutdown, if_neg (not_le.mpr hrunning), if_neg hfini]
  change (shutdownLoop n s.shmProclist _).bind _ = _
  rw [hrun]
  rfl

end Filebench
