import Filebench.Stats.Types
import Filebench.Lib.Trace

/-! # Snapshots

A snapshot adds to what the last one left. It reports the sums of the workers if and only if
nothing was left. -/
namespace Filebench

section sums

variable {V : Counter → Type} [∀ c, AddMonoid (V c)] {ι : Type}

def sumCounter (st : ι → Flowstat V) (c : Counter) (l : List ι) : V c :=
  (l.map fun f => (st f).counter c).sum

/-- The workers along a list. -/
def StatsShm.workers (s : StatsShm V ι) (l : List ι) : List ι :=
  l.filter fun f => (s.flowop f).Worker

/-- The sum of a counter over the workers that meet a condition. -/
def StatsShm.sum (s : StatsShm V ι) (P : ι → Bool) (c : Counter) : V c :=
  sumCounter s.foStats c ((s.workers s.shmFlowoplist).filter P)

/-- The workers whose counters belong to an element of `globalstats`. -/
def StatsShm.ofType (s : StatsShm V ι) (t : FlowType) (f : ι) : Bool :=
  t = .global ∨ (s.flowop f).foType = t

def StatsShm.named (s : StatsShm V ι) (name : CString) (f : ι) : Bool := (s.flowop f).foName = name

/-! ## What the loop adds -/

variable [DecidableEq ι] [DecidableEq (V .count)]

/-- The workers whose statistics go to a flowop of the script. -/
def StatsShm.mastered (s : StatsShm V ι) (m : ι) (f : ι) : Bool :=
  s.flowopFindOne (s.flowop f).foName flowMaster = some m

/-- The counters of the workers along `l` were added. -/
structure StatsAdded (s s' : StatsShm V ι) (l : List ι) : Prop where
  flowop : s'.flowop = s.flowop
  list : s'.shmFlowoplist = s.shmFlowoplist
  globalstats : ∀ gs, s.globalstats = some gs → ∃ gs', s'.globalstats = some gs' ∧
    ∀ t c, (gs' t).counter c =
      (gs t).counter c + sumCounter s.foStats c ((s.workers l).filter (s.ofType t))
  workers : ∀ f, (s.flowop f).Worker → s'.foStats f = s.foStats f
  masters : ∀ m, ¬ (s.flowop m).Worker → ∀ c, (s'.foStats m).counter c =
    (s.foStats m).counter c + sumCounter s.foStats c ((s.workers l).filter (s.mastered m))

variable {s s' s'' : StatsShm V ι} {f m : ι} {l : List ι}

theorem flowopFindOne_some {name : CString} {inst : ℤ} (h : s.flowopFindOne name inst = some m) :
    m ∈ s.shmFlowoplist ∧ (s.flowop m).foName = name ∧ (s.flowop m).foInstance = inst :=
  ⟨List.mem_of_find?_eq_some h, by simpa using List.find?_some h⟩

theorem StatsAdded.nil (s : StatsShm V ι) : StatsAdded s s [] where
  flowop := rfl
  list := rfl
  globalstats gs hgs := ⟨gs, hgs, fun _ _ => (add_zero _).symm⟩
  workers _ _ := rfl
  masters _ _ _ := (add_zero _).symm

theorem sumCounter_congr {st st' : ι → Flowstat V} {c : Counter} (h : ∀ f ∈ l, st' f = st f) :
    sumCounter st' c l = sumCounter st c l := by
  rw [sumCounter, sumCounter, List.map_congr_left fun f hf => by rw [h f hf]]

theorem sumCounter_append (st : ι → Flowstat V) (c : Counter) (l l' : List ι) :
    sumCounter st c (l ++ l') = sumCounter st c l + sumCounter st c l' := by
  rw [sumCounter, List.map_append, List.sum_append]
  rfl

theorem workers_append (s : StatsShm V ι) (P : ι → Bool) (l l' : List ι) :
    (s.workers (l ++ l')).filter P = (s.workers l).filter P ++ (s.workers l').filter P := by
  rw [StatsShm.workers, List.filter_append, List.filter_append]
  rfl

theorem mem_workers : f ∈ s.workers l ↔ f ∈ l ∧ (s.flowop f).Worker := by
  simp [StatsShm.workers]

theorem StatsAdded.trans {l' : List ι} (h : StatsAdded s s' l) (h' : StatsAdded s' s'' l') :
    StatsAdded s s'' (l ++ l') := by
  have hworkers : s'.workers l' = s.workers l' := by rw [StatsShm.workers, h.flowop]; rfl
  have hsum : ∀ (P : ι → Bool) c, sumCounter s'.foStats c ((s.workers l').filter P) =
      sumCounter s.foStats c ((s.workers l').filter P) := by
    intro P c
    refine sumCounter_congr fun f hf => ?_
    exact h.workers f (mem_workers.mp (List.mem_of_mem_filter hf)).2
  have htype : s'.ofType = s.ofType := by
    funext t f
    rw [StatsShm.ofType, h.flowop]
    rfl
  have hmastered : s'.mastered = s.mastered := by
    funext m f
    rw [StatsShm.mastered, StatsShm.flowopFindOne, h.flowop, h.list]
    rfl
  constructor
  · rw [h'.flowop, h.flowop]
  · rw [h'.list, h.list]
  · intro gs hgs
    obtain ⟨gs', hgs', hadd⟩ := h.globalstats gs hgs
    obtain ⟨gs'', hgs'', hadd'⟩ := h'.globalstats gs' hgs'
    refine ⟨gs'', hgs'', fun t c => ?_⟩
    rw [hadd', hadd, workers_append, sumCounter_append, add_assoc, hworkers, htype, hsum]
  · intro f hf
    rw [h'.workers f (h.flowop ▸ hf), h.workers f hf]
  · intro m hm c
    rw [h'.masters m (h.flowop ▸ hm), h.masters m hm, workers_append, sumCounter_append, add_assoc,
      hworkers, hmastered, hsum]

theorem addGlobal_some {gs : FlowType → Flowstat V} (hgs : s.globalstats = some gs) (t : FlowType)
    (b : Flowstat V) : (s.addGlobal t b).globalstats =
      some (Function.update gs t (statsAdd (gs t) b)) := by
  rw [StatsShm.addGlobal, hgs]
  rfl

/-- The two additions for one worker. -/
theorem addGlobal_twice {gs : FlowType → Flowstat V} (hgs : s.globalstats = some gs) :
    ∃ gs', ((s.addGlobal (s.flowop f).foType (s.foStats f)).addGlobal .global
        (s.foStats f)).globalstats = some gs' ∧
      ∀ t c, (gs' t).counter c =
        (gs t).counter c + if s.ofType t f then (s.foStats f).counter c else 0 := by
  refine ⟨_, addGlobal_some (addGlobal_some hgs _ _) _ _, fun t c => ?_⟩
  have htyped := (s.flowop f).typed
  by_cases hglobal : t = .global
  · subst hglobal
    rw [Function.update_self, Function.update_of_ne htyped.symm]
    simp [statsAdd, StatsShm.ofType]
  · rw [Function.update_of_ne hglobal]
    by_cases htype : t = (s.flowop f).foType
    · subst htype
      rw [Function.update_self]
      simp [statsAdd, StatsShm.ofType]
    · rw [Function.update_of_ne htype]
      simp [StatsShm.ofType, hglobal, Ne.symm htype]

theorem sumCounter_filter_singleton (st : ι → Flowstat V) (P : ι → Bool) (c : Counter) :
    sumCounter st c ([f].filter P) = if P f then (st f).counter c else 0 := by
  by_cases h : P f
  · simp [sumCounter, h]
  · simp [sumCounter, h]

theorem StatsAdded.snapFlowop (s : StatsShm V ι) (f : ι) : StatsAdded s (snapFlowop s f) [f] := by
  unfold Filebench.snapFlowop
  split
  next hinst =>
    have hworker : ¬ (s.flowop f).Worker := not_lt.mpr hinst
    have hnil : s.workers [f] = [] := by simp [StatsShm.workers, hworker]
    constructor
    · rfl
    · rfl
    · intro gs hgs
      refine ⟨gs, hgs, fun t c => ?_⟩
      rw [hnil]
      exact (add_zero _).symm
    · exact fun _ _ => rfl
    · intro m _ c
      rw [hnil]
      exact (add_zero _).symm
  next hinst =>
    have hworker : (s.flowop f).Worker := not_le.mp hinst
    have hone : s.workers [f] = [f] := by simp [StatsShm.workers, hworker]
    cases hfind : s.flowopFindOne (s.flowop f).foName flowMaster with
    | none =>
      constructor
      · rfl
      · rfl
      · intro gs hgs
        obtain ⟨gs', hgs', hadd⟩ := addGlobal_twice hgs (f := f)
        refine ⟨gs', hgs', fun t c => ?_⟩
        rw [hadd, hone, sumCounter_filter_singleton]
      · exact fun _ _ => rfl
      · intro m _ c
        rw [hone, sumCounter_filter_singleton, StatsShm.mastered, hfind]
        exact (add_zero _).symm
    | some m₀ =>
      have hm₀ : (s.flowop m₀).Master := (flowopFindOne_some hfind).2.2
      constructor
      · rfl
      · rfl
      · intro gs hgs
        obtain ⟨gs', hgs', hadd⟩ := addGlobal_twice hgs (f := f)
        refine ⟨gs', hgs', fun t c => ?_⟩
        rw [hadd, hone, sumCounter_filter_singleton]
      · intro g hg
        refine Function.update_of_ne ?_ ..
        rintro rfl
        exact hm₀.not_worker hg
      · intro m _ c
        rw [hone, sumCounter_filter_singleton, StatsShm.mastered, hfind]
        by_cases hm : m = m₀
        · subst hm
          simp [StatsShm.setFoStats, StatsShm.addGlobal, rollMaster, statsAdd]
        · simp [StatsShm.setFoStats, StatsShm.addGlobal, Function.update_of_ne hm, Ne.symm hm]

theorem StatsAdded.foldl (s : StatsShm V ι) (l : List ι) :
    StatsAdded s (l.foldl Filebench.snapFlowop s) l := by
  induction l generalizing s with
  | nil => exact .nil s
  | cons f l ih => exact (StatsAdded.snapFlowop s f).trans (ih (Filebench.snapFlowop s f))

/-- A snapshot adds the counters of all workers. -/
theorem statsSnap_added (h : ¬ s.Refused) : StatsAdded s (statsSnap s) s.shmFlowoplist := by
  rw [statsSnap, if_neg h]
  exact .foldl s _

/-! ## Which flowop of the script gets the sums -/

/-- The first of its name gets those of all workers of the name. -/
theorem mastered_eq_named (hm : s.flowopFindOne (s.flowop m).foName flowMaster = some m) :
    s.mastered m = s.named (s.flowop m).foName := by
  funext f
  rw [StatsShm.mastered, StatsShm.named, decide_eq_decide]
  constructor
  · intro hf
    exact (flowopFindOne_some hf).2.1.symm
  · intro hf
    rw [hf, hm]

/-- The others get nothing. -/
theorem mastered_eq_false (hm : s.flowopFindOne (s.flowop m).foName flowMaster ≠ some m) (f : ι) :
    s.mastered m f = false := by
  refine decide_eq_false fun hf => hm ?_
  rw [(flowopFindOne_some hf).2.1, hf]

end sums

/-! ## Reports -/

section report

variable {ι : Type} [DecidableEq ι]

/-- The report is right: the global statistics and those of the flowops of the script are the sums
of the workers. -/
structure Rolled (s : StatsShm Word ι) : Prop where
  types : ∀ gs, s.globalstats = some gs → ∀ t c, (gs t).counter c = s.sum (s.ofType t) c
  masters : ∀ m ∈ s.shmFlowoplist, (s.flowop m).Master → ∀ c,
    (s.foStats m).counter c = s.sum (s.named (s.flowop m).foName) c

/-- Nothing is left of an earlier snapshot. A flowop of the script that is not the first of its
name has its sums already. -/
structure Unrolled (s : StatsShm Word ι) : Prop where
  types : ∀ gs, s.globalstats = some gs → ∀ t c, (gs t).counter c = 0
  masters : ∀ m ∈ s.shmFlowoplist, (s.flowop m).Master → ∀ c, (s.foStats m).counter c =
    if s.flowopFindOne (s.flowop m).foName flowMaster = some m then 0
    else s.sum (s.named (s.flowop m).foName) c

variable {s s' : StatsShm Word ι}

/-- The sums of the workers are the same after a snapshot. -/
theorem StatsAdded.sum_eq {l : List ι} (h : StatsAdded s s' l) (P : ι → Bool) (c : Counter) :
    s'.sum P c = s.sum P c := by
  have hworkers : s'.workers s'.shmFlowoplist = s.workers s.shmFlowoplist := by
    rw [StatsShm.workers, h.flowop, h.list]
    rfl
  rw [StatsShm.sum, StatsShm.sum, hworkers]
  refine sumCounter_congr fun f hf => ?_
  exact h.workers f (mem_workers.mp (List.mem_of_mem_filter hf)).2

theorem StatsAdded.ofType_eq {l : List ι} (h : StatsAdded s s' l) (t : FlowType) :
    s'.ofType t = s.ofType t := by
  funext f
  rw [StatsShm.ofType, h.flowop]
  rfl

theorem StatsAdded.named_eq {l : List ι} (h : StatsAdded s s' l) (name : CString) :
    s'.named name = s.named name := by
  funext f
  rw [StatsShm.named, h.flowop]
  rfl

theorem StatsAdded.master_counter (h : StatsAdded s s' s.shmFlowoplist) {m : ι}
    (hm : (s.flowop m).Master) (c : Counter) : (s'.foStats m).counter c = (s.foStats m).counter c +
      if s.flowopFindOne (s.flowop m).foName flowMaster = some m then
        s.sum (s.named (s.flowop m).foName) c
      else 0 := by
  rw [h.masters m hm.not_worker]
  split
  next hfirst => rw [mastered_eq_named hfirst, StatsShm.sum]
  next hother =>
    rw [List.filter_eq_nil_iff.mpr fun f _ => by simp [mastered_eq_false hother]]
    rfl

/-- The report is right if and only if nothing was left of an earlier snapshot. -/
theorem statsSnap_rolled (h : ¬ s.Refused) : Rolled (statsSnap s) ↔ Unrolled s := by
  have hadded := statsSnap_added h
  constructor
  · intro hrolled
    constructor
    · intro gs hgs t c
      obtain ⟨gs', hgs', hadd⟩ := hadded.globalstats gs hgs
      have hsum := hrolled.types gs' hgs' t c
      rw [hadd, hadded.sum_eq, hadded.ofType_eq, ← StatsShm.sum] at hsum
      exact add_eq_right.mp hsum
    · intro m hm hmaster c
      have hsum := hrolled.masters m (hadded.list ▸ hm) (hadded.flowop ▸ hmaster) c
      rw [hadded.master_counter hmaster, hadded.sum_eq, hadded.named_eq, hadded.flowop] at hsum
      split_ifs at hsum ⊢
      · exact add_eq_right.mp hsum
      · rwa [add_zero] at hsum
  · intro hunrolled
    constructor
    · intro gs' hgs' t c
      cases hgs : s.globalstats with
      | none => exact absurd (.inl hgs) h
      | some gs =>
        obtain ⟨gs'', hgs'', hadd⟩ := hadded.globalstats gs hgs
        obtain rfl := Option.some.inj (hgs''.symm.trans hgs')
        rw [hadd, hunrolled.types gs hgs, zero_add, hadded.sum_eq, hadded.ofType_eq, StatsShm.sum]
    · intro m hm hmaster c
      rw [hadded.list] at hm
      rw [hadded.flowop] at hmaster
      rw [hadded.master_counter hmaster, hunrolled.masters m hm hmaster, hadded.sum_eq,
        hadded.named_eq, hadded.flowop]
      split_ifs
      · exact zero_add _
      · exact add_zero _

end report

/-! ## Runs -/

section runs

variable {ι τ π : Type} [DecidableEq ι] [DecidableEq τ] [DecidableEq π]

abbrev StatsRun : List (StatsState ι τ π × StatsEvent ι τ π) → StatsState ι τ π → Prop :=
  Trace.Run StatsState.next StatsStart

/-- The statistics were cleared and no snapshot was taken since. -/
def clearedLast : List (StatsState ι τ π × StatsEvent ι τ π) → Bool
  | [] => false
  | (_, .clear) :: _ => true
  | (_, .snap) :: _ => false
  | (_, .endop _) :: earlier => clearedLast earlier

/-- The flowops of the script have different names. -/
def DistinctMasters (s : StatsShm Word ι) : Prop :=
  ∀ m ∈ s.shmFlowoplist, ∀ m' ∈ s.shmFlowoplist, (s.flowop m).Master → (s.flowop m').Master →
    (s.flowop m).foName = (s.flowop m').foName → m = m'

/-- Nothing is left where no worker counts. -/
structure Cleared (s : StatsShm Word ι) : Prop where
  types : ∀ gs, s.globalstats = some gs → ∀ t c, (gs t).counter c = 0
  masters : ∀ m ∈ s.shmFlowoplist, (s.flowop m).Master → ∀ c, (s.foStats m).counter c = 0

theorem Cleared.next {s s' : StatsState ι τ π} {call : EndopCall ι τ π} (h : Cleared s.shm)
    (hnext : s.next (.endop call) = some s') : Cleared s'.shm := by
  obtain ⟨hworker, hs'⟩ := Option.ite_none_right_eq_some.mp hnext
  obtain rfl := Option.some.inj hs'
  constructor
  · exact h.types
  · intro m hm hmaster c
    have hne : m ≠ call.flowop := by
      rintro rfl
      exact hmaster.not_worker hworker
    change ((Function.update s.shm.foStats call.flowop _ m).counter c) = 0
    rw [Function.update_of_ne hne]
    exact h.masters m hm hmaster c

theorem statsClear_cleared (s : StatsShm Word ι) : Cleared (statsClear s) := by
  constructor
  · intro gs hgs t c
    obtain rfl := Option.some.inj hgs
    rfl
  · intro m hm _ c
    have hlist : m ∈ s.shmFlowoplist := hm
    change ((if m ∈ s.shmFlowoplist then Flowstat.zero else _).counter c) = 0
    rw [if_pos hlist]
    rfl

theorem StatsRun.cleared {trace : List (StatsState ι τ π × StatsEvent ι τ π)}
    {s : StatsState ι τ π} (h : StatsRun trace s) : clearedLast trace → Cleared s.shm := by
  refine h.invariant (I := fun trace s => clearedLast trace → Cleared s.shm)
    (P := fun _ _ => True) (fun _ _ => trivial) ?_ ?_
  · exact fun _ _ hnil => absurd hnil Bool.false_ne_true
  · intro trace s e s' hI _ hnext hlast
    cases e with
    | endop call => exact (hI hlast).next hnext
    | clear =>
      obtain rfl := Option.some.inj hnext
      exact statsClear_cleared s.shm
    | snap => cases hlast

theorem Cleared.unrolled {s : StatsShm Word ι} (h : Cleared s) (hdistinct : DistinctMasters s) :
    Unrolled s := by
  constructor
  · exact h.types
  · intro m hm hmaster c
    have hfirst : s.flowopFindOne (s.flowop m).foName flowMaster = some m := by
      cases hfind : s.flowopFindOne (s.flowop m).foName flowMaster with
      | none =>
        have hnot := List.find?_eq_none.mp hfind m hm
        simp only [decide_eq_true_eq, true_and] at hnot
        exact absurd hmaster hnot
      | some m' =>
        obtain ⟨hm', hname, hmaster'⟩ := flowopFindOne_some hfind
        rw [hdistinct m hm m' hm' hmaster hmaster' hname.symm]
    rw [if_pos hfirst]
    exact h.masters m hm hmaster c

/-- In every run a snapshot that is taken reports the sums if and only if nothing was left of an
earlier one. With a clearing between any two snapshots and different names in the script that is
so. -/
theorem statsRun_rolled {trace : List (StatsState ι τ π × StatsEvent ι τ π)}
    {s : StatsState ι τ π} (h : StatsRun trace s) (htaken : ¬ s.shm.Refused) :
    (Rolled (statsSnap s.shm) ↔ Unrolled s.shm) ∧
      (clearedLast trace → DistinctMasters s.shm → Rolled (statsSnap s.shm)) := by
  refine ⟨statsSnap_rolled htaken, fun hlast hdistinct => ?_⟩
  exact (statsSnap_rolled htaken).mpr ((h.cleared hlast).unrolled hdistinct)

end runs

/-! ## A script with one flowop -/

/-- A flowop of the script that reads, and its worker. -/
def readFlowop (inst : ℤ) : StatFlowop := ⟨"r".toList, inst, .io, flowAttrRead, nofun⟩

def readScript : StatsState Bool Unit Unit where
  shm :=
    { flowop := fun worker => readFlowop (if worker then 1 else flowMaster)
      foStats := fun _ => .zero
      shmFlowoplist := [true, false]
      shmFAbort := .ok
      globalstats := none }
  tfStats _ := .zero
  controlstats _ := .zero

theorem readScript_start : StatsRun [] readScript :=
  .start ⟨fun _ => rfl, fun _ => rfl, fun _ => rfl, rfl⟩

def readCall (bytes : BitVec 64) : EndopCall Bool Unit Unit := ⟨(), (), true, bytes, ⟨1, none⟩⟩

theorem StatsRun.of_foldlM {es : List (StatsEvent Bool Unit Unit)} {s : StatsState Bool Unit Unit}
    (h : es.foldlM StatsState.next readScript = some s) :
    ∃ trace, StatsRun trace s := by
  obtain ⟨trace, htrace, -⟩ := readScript_start.events (P := fun _ => True)
    (fun _ hx => absurd hx List.not_mem_nil) h fun _ _ _ => trivial
  exact ⟨trace, htrace⟩

/-- One operation and two snapshots: the second one reports two. -/
theorem statsSnap_twice : ¬ ∀ trace (s : StatsState Bool Unit Unit), StatsRun trace s →
    ¬ s.shm.Refused → Rolled (statsSnap s.shm) := by
  intro h
  have hrun : ([.clear, .endop (readCall 0), .snap].foldlM StatsState.next readScript).map
      (fun s => (decide s.shm.Refused,
        (statsSnap s.shm).globalstats.map fun gs => (gs .io).counter .count,
        (statsSnap s.shm).sum ((statsSnap s.shm).ofType .io) .count)) =
      some (false, some 2, 1) := by
    decide +kernel
  obtain ⟨s, hs, hvalues⟩ := Option.map_eq_some_iff.mp hrun
  obtain ⟨hrefused, hvalues⟩ := Prod.mk.inj hvalues
  obtain ⟨hglobal, hsum⟩ := Prod.mk.inj hvalues
  obtain ⟨gs, hgs, hcount⟩ := Option.map_eq_some_iff.mp hglobal
  obtain ⟨trace, htrace⟩ := StatsRun.of_foldlM hs
  have hrolled := h trace s htrace (of_decide_eq_false hrefused)
  rw [hrolled.types gs hgs, hsum] at hcount
  exact absurd hcount (by decide)

/-- After a clearing and one operation the report is right. -/
theorem statsRun_rolled_once : ∃ s : StatsState Bool Unit Unit,
    (s.shm.foStats true).counter .count = 1 ∧ Rolled (statsSnap s.shm) := by
  have hstep : readScript.next .clear = some { readScript with shm := statsClear readScript.shm } :=
    rfl
  have hcleared := readScript_start.step hstep
  have hop := hcleared.step (e := .endop (readCall 0)) rfl
  refine ⟨_, by decide +kernel, (statsRun_rolled hop (by decide +kernel)).2 rfl ?_⟩
  intro m _ m' _ hm hm' _
  revert m m'
  decide +kernel

end Filebench
