import Filebench.Stats.Snap

/-! # The overhead

The workers go on while a snapshot is taken, which reads each counter twice: once for the type of
the flowop and once for the global statistics. The second read is never the smaller one, so what
`io_stats_ohead` subtracts is covered. -/
namespace Filebench

section

variable {V : Counter → Type} {ι : Type} [∀ c, AddMonoid (V c)]

/-- The members in the order in which `stats_add` adds them. -/
def Counter.all : List Counter :=
  [.count, .rcount, .wcount, .bytes, .rbytes, .wbytes,
    .mstate .lat, .mstate .cpu, .mstate .wait, .mstate .ohead]

/-- What `stats_snap` does between two points at which workers may count. -/
inductive SnapInstr (ι : Type) where
  | type (f : ι) (c : Counter)
  | global (f : ι) (c : Counter)
  | active (m f : ι)
  | children (m : ι)
  | master (m f : ι) (c : Counter)
  deriving DecidableEq

def StatsShm.addGlobalCounter (s : StatsShm V ι) (t : FlowType) (c : Counter) (v : V c) :
    StatsShm V ι :=
  { s with globalstats := s.globalstats.map fun gs => Function.update gs t ((gs t).add c v) }

variable [DecidableEq ι]

def SnapInstr.exec [DecidableEq (V .count)] (s : StatsShm V ι) : SnapInstr ι → StatsShm V ι
  | .type f c => s.addGlobalCounter (s.flowop f).foType c ((s.foStats f).counter c)
  | .global f c => s.addGlobalCounter .global c ((s.foStats f).counter c)
  | .active m f => s.setFoStats m
      { s.foStats m with fsActive := (s.foStats m).fsActive + (s.foStats f).active }
  | .children m => s.setFoStats m { s.foStats m with fsChildren := (s.foStats m).fsChildren + 1 }
  | .master m f c => s.setFoStats m ((s.foStats m).add c ((s.foStats f).counter c))

/-- One pass of the loop. -/
def snapProgram (s : StatsShm V ι) (f : ι) : List (SnapInstr ι) :=
  if (s.flowop f).foInstance ≤ flowDefinition then []
  else
    Counter.all.map (.type f) ++ (Counter.all.map (.global f) ++
      match s.flowopFindOne (s.flowop f).foName flowMaster with
      | some m => .active m f :: .children m :: Counter.all.map (.master m f)
      | none => [])

end

/-! ## The commands with the workers between -/

/-- Counters that do not run over. -/
abbrev Total (_ : Counter) := ℕ

/-- Where the process that runs the script is. -/
inductive StatsPc (ι : Type) where
  | idle
  | snap (todo : List (SnapInstr ι))
  | clear (todo : List ι)
  deriving DecidableEq

structure OheadState (ι : Type) where
  shm : StatsShm Total ι
  pc : StatsPc ι

inductive OheadEvent (ι : Type) where
  | work (f : ι) (c : Counter) (v : ℕ)
  | abort (a : FAbort)
  | statsSnap
  | statsClear
  | instr

variable {ι : Type} [DecidableEq ι]

def OheadState.next (s : OheadState ι) : OheadEvent ι → Option (OheadState ι)
  | .work f c v => some { s with shm := s.shm.setFoStats f ((s.shm.foStats f).add c v) }
  | .abort a => some { s with shm := { s.shm with shmFAbort := a } }
  | .statsSnap =>
    match s.pc with
    | .idle =>
      if s.shm.Refused then some s
      else some { s with pc := .snap (s.shm.shmFlowoplist.flatMap (snapProgram s.shm)) }
    | _ => none
  | .statsClear =>
    match s.pc with
    | .idle =>
      some ⟨{ s.shm with globalstats := some fun _ => .zero }, .clear s.shm.shmFlowoplist⟩
    | _ => none
  | .instr =>
    match s.pc with
    | .idle => none
    | .snap (i :: todo) => some ⟨i.exec s.shm, .snap todo⟩
    | .snap [] => some { s with pc := .idle }
    | .clear (f :: todo) => some ⟨s.shm.setFoStats f .zero, .clear todo⟩
    | .clear [] =>
      some ⟨{ s.shm with
        globalstats := s.shm.globalstats.map fun gs => Function.update gs .global .zero }, .idle⟩

structure OheadStart (s : OheadState ι) : Prop where
  globalstats : s.shm.globalstats = none
  pc : s.pc = .idle

/-- A subtraction of `unsigned` counters that does not run below zero. -/
def usub (a b : ℕ) : Option ℕ := if b ≤ a then some (a - b) else none

def Flowstat.total (st : Flowstat Total) (c : Counter) : ℕ := st.counter c

def ioStatsOhead (gs : FlowType → Flowstat Total) : Option ℕ := do
  let left ← usub ((gs .global).total (.mstate .ohead) + (gs .global).total (.mstate .cpu))
    ((gs .io).total (.mstate .cpu))
  usub left ((gs .aio).total (.mstate .cpu))

/-! ## The commands that nobody interrupts -/

section refinement

variable {V : Counter → Type} [∀ c, AddMonoid (V c)]

omit [DecidableEq ι] in
theorem foldl_add (st b : Flowstat V) {l : List Counter} (h : l.Nodup) :
    l.foldl (fun st c => st.add c (b.counter c)) st =
      { st with
        counter := fun c => if c ∈ l then st.counter c + b.counter c else st.counter c } := by
  induction l generalizing st with
  | nil => rfl
  | cons c l ih =>
    obtain ⟨hc, hl⟩ := List.nodup_cons.mp h
    rw [List.foldl_cons, ih _ hl]
    refine congrArg (Flowstat.mk st.fsChildren st.fsActive) (funext fun c' => ?_)
    by_cases hc' : c' = c
    · subst hc'
      simp [Flowstat.add, hc]
    · simp [Flowstat.add, hc']

theorem statsAdd_eq_foldl (st b : Flowstat V) :
    Counter.all.foldl (fun st c => st.add c (b.counter c)) st = statsAdd st b := by
  rw [foldl_add st b (by decide)]
  refine congrArg (Flowstat.mk st.fsChildren st.fsActive) (funext fun c => ?_)
  have hmem : c ∈ Counter.all := by
    cases c with
    | mstate i => cases i <;> decide
    | _ => decide
  rw [if_pos hmem]

variable [DecidableEq (V .count)] (s : StatsShm V ι)

/-- The counters of one flowop added to one element of `globalstats`. -/
theorem foldl_addGlobalCounter (t : FlowType) (b : Flowstat V) (l : List Counter) :
    l.foldl (fun s c => s.addGlobalCounter t c (b.counter c)) s =
      { s with globalstats := s.globalstats.map fun gs =>
          Function.update gs t (l.foldl (fun st c => st.add c (b.counter c)) (gs t)) } := by
  induction l generalizing s with
  | nil =>
    obtain ⟨_, _, _, _, globalstats⟩ := s
    cases globalstats <;> simp
  | cons c l ih =>
    rw [List.foldl_cons, ih]
    obtain ⟨_, _, _, _, globalstats⟩ := s
    cases globalstats <;> simp [StatsShm.addGlobalCounter]

theorem foldl_addGlobal (t : FlowType) (b : Flowstat V) :
    Counter.all.foldl (fun s c => s.addGlobalCounter t c (b.counter c)) s = s.addGlobal t b := by
  rw [foldl_addGlobalCounter]
  simp only [statsAdd_eq_foldl]
  rfl

theorem foldl_type (f : ι) :
    (Counter.all.map (.type f)).foldl SnapInstr.exec s =
      s.addGlobal (s.flowop f).foType (s.foStats f) := by
  rw [← foldl_addGlobal]
  induction Counter.all generalizing s with
  | nil => rfl
  | cons c l ih => exact ih (s.addGlobalCounter (s.flowop f).foType c ((s.foStats f).counter c))

theorem foldl_global (f : ι) :
    (Counter.all.map (.global f)).foldl SnapInstr.exec s = s.addGlobal .global (s.foStats f) := by
  rw [← foldl_addGlobal]
  induction Counter.all generalizing s with
  | nil => rfl
  | cons c l ih => exact ih (s.addGlobalCounter .global c ((s.foStats f).counter c))

theorem setFoStats_twice (m : ι) (st st' : Flowstat V) :
    (s.setFoStats m st).setFoStats m st' = s.setFoStats m st' := by
  simp [StatsShm.setFoStats]

theorem setFoStats_self (m : ι) (st : Flowstat V) : (s.setFoStats m st).foStats m = st :=
  Function.update_self ..

theorem setFoStats_of_ne {f m : ι} (h : f ≠ m) (st : Flowstat V) :
    (s.setFoStats m st).foStats f = s.foStats f :=
  Function.update_of_ne h ..

/-- The counters of a flowop added to those of another one. -/
theorem foldl_master {f m : ι} (h : f ≠ m) (st : Flowstat V) :
    (Counter.all.map (.master m f)).foldl SnapInstr.exec (s.setFoStats m st) =
      s.setFoStats m (statsAdd st (s.foStats f)) := by
  rw [← statsAdd_eq_foldl]
  induction Counter.all generalizing st with
  | nil => rfl
  | cons c l ih =>
    rw [List.map_cons, List.foldl_cons, List.foldl_cons, SnapInstr.exec, setFoStats_twice,
      setFoStats_self, setFoStats_of_ne s h]
    exact ih _

/-- The instructions of one pass do what the pass does. -/
theorem snapProgram_exec (f : ι) :
    (snapProgram s f).foldl SnapInstr.exec s = snapFlowop s f := by
  unfold snapProgram snapFlowop
  split
  next => rfl
  next hinst =>
    rw [List.foldl_append, List.foldl_append, foldl_type, foldl_global]
    cases hfind : s.flowopFindOne (s.flowop f).foName flowMaster with
    | none => rfl
    | some m =>
      have hmaster : (s.flowop m).Master := (flowopFindOne_some hfind).2.2
      have hne : f ≠ m := by
        rintro rfl
        exact hmaster.not_worker (not_le.mp hinst)
      dsimp only
      rw [List.foldl_cons, List.foldl_cons, SnapInstr.exec, SnapInstr.exec, setFoStats_twice,
        setFoStats_self, foldl_master _ hne]
      rfl

theorem snapProgram_congr {s s' : StatsShm V ι} (hflowop : s'.flowop = s.flowop)
    (hlist : s'.shmFlowoplist = s.shmFlowoplist) (f : ι) : snapProgram s' f = snapProgram s f := by
  rw [snapProgram, snapProgram, StatsShm.flowopFindOne, StatsShm.flowopFindOne, hflowop, hlist]

theorem snapPrograms_exec (l : List ι) :
    (l.flatMap (snapProgram s)).foldl SnapInstr.exec s = l.foldl snapFlowop s := by
  induction l generalizing s with
  | nil => rfl
  | cons f l ih =>
    have hadded := StatsAdded.snapFlowop s f
    have hprogram : snapProgram s = snapProgram (snapFlowop s f) :=
      funext fun f => (snapProgram_congr hadded.flowop hadded.list f).symm
    rw [List.flatMap_cons, List.foldl_append, snapProgram_exec, List.foldl_cons, hprogram]
    exact ih (snapFlowop s f)

end refinement

theorem foldlM_snap (s : StatsShm Total ι) (todo : List (SnapInstr ι)) :
    (List.replicate (todo.length + 1) OheadEvent.instr).foldlM OheadState.next ⟨s, .snap todo⟩ =
      some ⟨todo.foldl SnapInstr.exec s, .idle⟩ := by
  induction todo generalizing s with
  | nil => rfl
  | cons i todo ih => exact ih (i.exec s)

/-- With no work between its instructions the machine takes the snapshot of `stats_snap`. -/
theorem OheadState.statsSnap_alone (s : StatsShm Total ι) : ∃ n,
    (OheadEvent.statsSnap :: List.replicate n .instr).foldlM OheadState.next ⟨s, .idle⟩ =
      some ⟨Filebench.statsSnap s, .idle⟩ := by
  rw [Filebench.statsSnap]
  split
  next hrefused =>
    refine ⟨0, ?_⟩
    simp [OheadState.next, hrefused]
  next hrefused =>
    refine ⟨(s.shmFlowoplist.flatMap (snapProgram s)).length + 1, ?_⟩
    have hstart : OheadState.next ⟨s, .idle⟩ .statsSnap =
        some ⟨s, .snap (s.shmFlowoplist.flatMap (snapProgram s))⟩ := if_neg hrefused
    rw [List.foldlM_cons, hstart, ← snapPrograms_exec]
    exact foldlM_snap s _

theorem foldlM_clear (s : StatsShm Total ι) (hgs : s.globalstats = some fun _ => .zero)
    (todo : List ι) :
    (List.replicate (todo.length + 1) OheadEvent.instr).foldlM OheadState.next ⟨s, .clear todo⟩ =
      some ⟨{ s with foStats := fun f => if f ∈ todo then .zero else s.foStats f }, .idle⟩ := by
  induction todo generalizing s with
  | nil =>
    obtain ⟨_, _, _, _, globalstats⟩ := s
    obtain rfl := hgs
    simp [OheadState.next, Function.update_eq_self (f := fun _ => (Flowstat.zero : Flowstat Total))]
  | cons f todo ih =>
    refine (ih (s.setFoStats f .zero) hgs).trans ?_
    have hfo : (fun g => if g ∈ todo then Flowstat.zero else (s.setFoStats f .zero).foStats g) =
        fun g => if g ∈ f :: todo then Flowstat.zero else s.foStats g := by
      funext g
      by_cases hg : g = f
      · subst hg
        simp [StatsShm.setFoStats]
      · simp [StatsShm.setFoStats, hg]
    rw [hfo]
    rfl

/-- With no work between its instructions the machine does what `stats_clear` does. -/
theorem OheadState.statsClear_alone (s : StatsShm Total ι) : ∃ n,
    (OheadEvent.statsClear :: List.replicate n .instr).foldlM OheadState.next ⟨s, .idle⟩ =
      some ⟨Filebench.statsClear s, .idle⟩ :=
  ⟨s.shmFlowoplist.length + 1,
    foldlM_clear { s with globalstats := some fun _ => .zero } rfl s.shmFlowoplist⟩

/-! ## What is left to read -/

/-- The flowops whose counter `c` is still to be added to that of their type. -/
def typeReads (c : Counter) (todo : List (SnapInstr ι)) : List ι :=
  todo.filterMap fun
    | .type f c' => if c' = c then some f else none
    | _ => none

def globalReads (c : Counter) (todo : List (SnapInstr ι)) : List ι :=
  todo.filterMap fun
    | .global f c' => if c' = c then some f else none
    | _ => none

/-- What is still to be read for a type is still to be read for the global statistics. -/
def Paired (todo : List (SnapInstr ι)) : Prop :=
  ∀ l, l <:+ todo → ∀ c, (typeReads c l).Sublist (globalReads c l)

def otherSum (gs : FlowType → Flowstat Total) (c : Counter) : ℕ :=
  ∑ t ∈ Finset.univ.erase FlowType.global, (gs t).total c

def readSum (st : ι → Flowstat Total) (c : Counter) (l : List ι) : ℕ :=
  (l.map fun f => (st f).total c).sum

/-- The global statistics cover those of the types when all is added that is still to be read. -/
def Covers (s : StatsShm Total ι) (todo : List (SnapInstr ι)) : Prop :=
  ∀ gs, s.globalstats = some gs → ∀ c,
    otherSum gs c + readSum s.foStats c (typeReads c todo) ≤
      (gs .global).total c + readSum s.foStats c (globalReads c todo)

def OheadState.Inv (s : OheadState ι) : Prop :=
  match s.pc with
  | .idle => Covers s.shm []
  | .snap todo => Paired todo ∧ Covers s.shm todo
  | .clear _ => ∀ gs, s.shm.globalstats = some gs → ∀ t c, (gs t).total c = 0

theorem Flowstat.total_add (st : Flowstat Total) (c c' : Counter) (v : ℕ) :
    (st.add c v).total c' = st.total c' + if c = c' then v else 0 := by
  by_cases h : c = c'
  · subst h
    simp [Flowstat.add, Flowstat.total]
  · simp [Flowstat.add, Flowstat.total, Function.update_of_ne (Ne.symm h), h]

omit [DecidableEq ι] in
theorem readSum_cons (st : ι → Flowstat Total) (c : Counter) (f : ι) (l : List ι) :
    readSum st c (f :: l) = (st f).total c + readSum st c l :=
  List.sum_cons

omit [DecidableEq ι] in
/-- Reads that are still to be made twice make up for what the counters grow by. -/
theorem readSum_grow {st st' : ι → Flowstat Total} {c : Counter} {l l' : List ι}
    (hsub : l.Sublist l') (h : ∀ f, (st f).total c ≤ (st' f).total c) :
    readSum st' c l + readSum st c l' ≤ readSum st' c l' + readSum st c l := by
  induction hsub with
  | slnil => exact le_rfl
  | cons f _ ih =>
    have hf := h f
    rw [readSum_cons, readSum_cons]
    omega
  | cons_cons f _ ih =>
    simp only [readSum_cons]
    omega

/-- The workers only count up. -/
theorem Covers.grow {s s' : StatsShm Total ι} {todo : List (SnapInstr ι)} (h : Covers s todo)
    (hpaired : Paired todo) (hgs : s'.globalstats = s.globalstats)
    (hgrow : ∀ f c, (s.foStats f).total c ≤ (s'.foStats f).total c) : Covers s' todo := by
  intro gs hgs' c
  have hcovers := h gs (hgs ▸ hgs') c
  have hsum := readSum_grow (hpaired todo List.suffix_rfl c) fun f => hgrow f c
  omega

theorem setFoStats_grow (s : StatsShm Total ι) {m : ι} (st : Flowstat Total)
    (h : ∀ c, (s.foStats m).total c ≤ st.total c) (f : ι) (c : Counter) :
    (s.foStats f).total c ≤ ((s.setFoStats m st).foStats f).total c := by
  by_cases hf : f = m
  · subst hf
    rw [setFoStats_self]
    exact h c
  · rw [setFoStats_of_ne s hf]

theorem Paired.tail {i : SnapInstr ι} {todo : List (SnapInstr ι)} (h : Paired (i :: todo)) :
    Paired todo :=
  fun _ hl => h _ (hl.trans (List.suffix_cons i todo))

theorem otherSum_update (gs : FlowType → Flowstat Total) {t : FlowType} (ht : t ≠ .global)
    (c c' : Counter) (v : ℕ) :
    otherSum (Function.update gs t ((gs t).add c v)) c' =
      otherSum gs c' + if c = c' then v else 0 := by
  have hmem : t ∈ Finset.univ.erase FlowType.global :=
    Finset.mem_erase.mpr ⟨ht, Finset.mem_univ t⟩
  have hrest : ∑ u ∈ (Finset.univ.erase FlowType.global).erase t,
      (Function.update gs t ((gs t).add c v) u).total c' =
      ∑ u ∈ (Finset.univ.erase FlowType.global).erase t, (gs u).total c' :=
    Finset.sum_congr rfl fun u hu => by rw [Function.update_of_ne (Finset.ne_of_mem_erase hu)]
  rw [otherSum, otherSum, ← Finset.add_sum_erase _ _ hmem, ← Finset.add_sum_erase _ _ hmem, hrest,
    Function.update_self, Flowstat.total_add]
  omega

theorem otherSum_update_global (gs : FlowType → Flowstat Total) (st : Flowstat Total)
    (c : Counter) : otherSum (Function.update gs .global st) c = otherSum gs c :=
  Finset.sum_congr rfl fun u hu => by rw [Function.update_of_ne (Finset.ne_of_mem_erase hu)]

theorem readSum_typeReads (st : ι → Flowstat Total) (f : ι) (c c' : Counter)
    (todo : List (SnapInstr ι)) :
    readSum st c' (typeReads c' (.type f c :: todo)) =
      (if c = c' then (st f).total c else 0) + readSum st c' (typeReads c' todo) := by
  by_cases hc : c = c'
  · subst hc
    simp [typeReads, readSum]
  · simp [typeReads, hc]

theorem readSum_globalReads (st : ι → Flowstat Total) (f : ι) (c c' : Counter)
    (todo : List (SnapInstr ι)) :
    readSum st c' (globalReads c' (.global f c :: todo)) =
      (if c = c' then (st f).total c else 0) + readSum st c' (globalReads c' todo) := by
  by_cases hc : c = c'
  · subst hc
    simp [globalReads, readSum]
  · simp [globalReads, hc]

/-- One instruction of a snapshot. -/
theorem Covers.exec {s : StatsShm Total ι} {i : SnapInstr ι} {todo : List (SnapInstr ι)}
    (h : Covers s (i :: todo)) (hpaired : Paired todo) : Covers (i.exec s) todo := by
  cases i with
  | type f c =>
    intro gs' hgs' c'
    obtain ⟨gs, hgs, rfl⟩ := Option.map_eq_some_iff.mp hgs'
    have htyped := (s.flowop f).typed
    have hcovers := h gs hgs c'
    have hglobal : globalReads c' (.type f c :: todo) = globalReads c' todo := rfl
    have hfo : (SnapInstr.exec s (.type f c)).foStats = s.foStats := rfl
    rw [readSum_typeReads, hglobal] at hcovers
    rw [otherSum_update gs htyped, Function.update_of_ne htyped.symm, hfo]
    change otherSum gs c' + (if c = c' then (s.foStats f).total c else 0) + _ ≤ _
    omega
  | global f c =>
    intro gs' hgs' c'
    obtain ⟨gs, hgs, rfl⟩ := Option.map_eq_some_iff.mp hgs'
    have hcovers := h gs hgs c'
    have htype : typeReads c' (.global f c :: todo) = typeReads c' todo := rfl
    have hfo : (SnapInstr.exec s (.global f c)).foStats = s.foStats := rfl
    rw [readSum_globalReads, htype] at hcovers
    rw [otherSum_update_global, Function.update_self, Flowstat.total_add, hfo]
    change _ ≤ _ + (if c = c' then (s.foStats f).total c else 0) + _
    omega
  | active m f =>
    exact Covers.grow (s := s) h hpaired rfl (setFoStats_grow s _ fun _ => le_rfl)
  | children m =>
    exact Covers.grow (s := s) h hpaired rfl (setFoStats_grow s _ fun _ => le_rfl)
  | master m f c =>
    refine Covers.grow (s := s) h hpaired rfl (setFoStats_grow s _ fun c' => ?_)
    rw [Flowstat.total_add]
    exact Nat.le_add_right ..

/-! ## What a snapshot reads -/

theorem typeReads_append (c : Counter) (l l' : List (SnapInstr ι)) :
    typeReads c (l ++ l') = typeReads c l ++ typeReads c l' :=
  List.filterMap_append

theorem globalReads_append (c : Counter) (l l' : List (SnapInstr ι)) :
    globalReads c (l ++ l') = globalReads c l ++ globalReads c l' :=
  List.filterMap_append

theorem Paired.append {l l' : List (SnapInstr ι)} (h : Paired l) (h' : Paired l') :
    Paired (l ++ l') := by
  induction l with
  | nil => exact h'
  | cons i l ih =>
    intro m hm c
    rcases List.suffix_cons_iff.mp hm with rfl | hm
    · change (typeReads c ((i :: l) ++ l')).Sublist (globalReads c ((i :: l) ++ l'))
      rw [typeReads_append, globalReads_append]
      exact (h _ List.suffix_rfl c).append (h' _ List.suffix_rfl c)
    · exact ih h.tail m hm c

theorem paired_of_no_type {l : List (SnapInstr ι)} (h : ∀ f c, .type f c ∉ l) : Paired l := by
  intro m hm c
  have hnil : typeReads c m = [] := by
    refine List.filterMap_eq_nil_iff.mpr fun i hi => ?_
    cases i with
    | type f c' => exact absurd (hm.subset hi) (h f c')
    | _ => rfl
  rw [hnil]
  exact List.nil_sublist _

theorem typeReads_type (c : Counter) (f : ι) (l : List Counter) :
    typeReads c (l.map (.type f)) = (l.filter (· = c)).map fun _ => f := by
  induction l with
  | nil => rfl
  | cons c' l ih =>
    by_cases hc : c' = c
    · simpa [typeReads, hc] using ih
    · simpa [typeReads, hc] using ih

theorem globalReads_global (c : Counter) (f : ι) (l : List Counter) :
    globalReads c (l.map (.global f)) = (l.filter (· = c)).map fun _ => f := by
  induction l with
  | nil => rfl
  | cons c' l ih =>
    by_cases hc : c' = c
    · simpa [globalReads, hc] using ih
    · simpa [globalReads, hc] using ih

/-- The counters added to the type are added to the global statistics after that. -/
theorem paired_twice (f : ι) {l l' : List Counter} (h : l.Sublist l') :
    Paired (l.map (SnapInstr.type f) ++ l'.map (.global f)) := by
  have hglobals : Paired (l'.map (SnapInstr.global f)) := paired_of_no_type (by simp)
  induction l with
  | nil => exact hglobals
  | cons c l ih =>
    intro m hm c'
    rcases List.suffix_cons_iff.mp hm with rfl | hm
    · have htype : typeReads c' (l'.map (SnapInstr.global f)) = [] := by
        simp [typeReads, List.filterMap_map, Function.comp_def]
      have hglobal : globalReads c' ((c :: l).map (SnapInstr.type f)) = [] := by
        simp [globalReads, List.filterMap_map, Function.comp_def]
      have hreads : (typeReads c' ((c :: l).map (.type f))).Sublist
          (globalReads c' (l'.map (.global f))) := by
        rw [typeReads_type, globalReads_global]
        exact (h.filter _).map _
      change (typeReads c' ((c :: l).map (.type f) ++ l'.map (.global f))).Sublist
        (globalReads c' ((c :: l).map (.type f) ++ l'.map (.global f)))
      rw [typeReads_append, globalReads_append, htype, hglobal, List.append_nil, List.nil_append]
      exact hreads
    · exact ih ((List.sublist_cons_self c l).trans h) m hm c'

theorem snapProgram_paired (s : StatsShm Total ι) (f : ι) : Paired (snapProgram s f) := by
  unfold snapProgram
  split
  next => exact paired_of_no_type fun _ _ => List.not_mem_nil
  next =>
    rw [← List.append_assoc]
    refine (paired_twice f (List.Sublist.refl _)).append (paired_of_no_type ?_)
    cases s.flowopFindOne (s.flowop f).foName flowMaster with
    | none => exact fun _ _ => List.not_mem_nil
    | some m => simp

theorem snapPrograms_paired (s : StatsShm Total ι) (l : List ι) :
    Paired (l.flatMap (snapProgram s)) := by
  induction l with
  | nil => exact paired_of_no_type fun _ _ => List.not_mem_nil
  | cons f l ih => exact (snapProgram_paired s f).append ih

/-! ## Runs -/

theorem Covers.start {s : StatsShm Total ι} (h : Covers s []) {todo : List (SnapInstr ι)}
    (hpaired : Paired todo) : Covers s todo := by
  intro gs hgs c
  have hsub := (hpaired todo List.suffix_rfl c).map fun f => (s.foStats f).total c
  exact Nat.add_le_add (h gs hgs c) (hsub.sum_le_sum fun _ _ => Nat.zero_le _)

theorem Covers.of_zero {s : StatsShm Total ι}
    (h : ∀ gs, s.globalstats = some gs → ∀ t c, (gs t).total c = 0) : Covers s [] := by
  intro gs hgs c
  have hzero : otherSum gs c = 0 := Finset.sum_eq_zero fun t _ => h gs hgs t c
  rw [hzero]
  exact Nat.add_le_add (Nat.zero_le _) le_rfl

theorem Paired.nil : Paired ([] : List (SnapInstr ι)) :=
  paired_of_no_type fun _ _ => List.not_mem_nil

theorem OheadState.Inv.work {s : OheadState ι} (h : s.Inv) (f : ι) (c : Counter) (v : ℕ) :
    OheadState.Inv { s with shm := s.shm.setFoStats f ((s.shm.foStats f).add c v) } := by
  have hgrow := setFoStats_grow s.shm ((s.shm.foStats f).add c v) fun c' => by
    rw [Flowstat.total_add]
    exact Nat.le_add_right ..
  obtain ⟨shm, pc⟩ := s
  cases pc with
  | idle => exact Covers.grow (s := shm) h .nil rfl hgrow
  | snap todo => exact ⟨h.1, Covers.grow (s := shm) h.2 h.1 rfl hgrow⟩
  | clear todo => exact h

theorem OheadState.Inv.next {s s' : OheadState ι} {e : OheadEvent ι} (h : s.Inv)
    (hnext : s.next e = some s') : s'.Inv := by
  obtain ⟨shm, pc⟩ := s
  cases e with
  | work f c v =>
    obtain rfl := Option.some.inj hnext
    exact h.work f c v
  | abort a =>
    obtain rfl := Option.some.inj hnext
    exact h
  | statsSnap =>
    cases pc with
    | idle =>
      simp only [OheadState.next] at hnext
      split at hnext
      next =>
        obtain rfl := Option.some.inj hnext
        exact h
      next =>
        obtain rfl := Option.some.inj hnext
        have hpaired := snapPrograms_paired shm shm.shmFlowoplist
        exact ⟨hpaired, Covers.start h hpaired⟩
    | snap todo => cases hnext
    | clear todo => cases hnext
  | statsClear =>
    cases pc with
    | idle =>
      obtain rfl := Option.some.inj hnext
      intro gs hgs t c
      obtain rfl := Option.some.inj hgs
      rfl
    | snap todo => cases hnext
    | clear todo => cases hnext
  | instr =>
    cases pc with
    | idle => cases hnext
    | snap todo =>
      cases todo with
      | nil =>
        obtain rfl := Option.some.inj hnext
        exact h.2
      | cons i todo =>
        obtain rfl := Option.some.inj hnext
        exact ⟨h.1.tail, h.2.exec h.1.tail⟩
    | clear todo =>
      cases todo with
      | nil =>
        obtain rfl := Option.some.inj hnext
        refine Covers.of_zero fun gs' hgs' t c => ?_
        obtain ⟨gs, hgs, rfl⟩ := Option.map_eq_some_iff.mp hgs'
        by_cases ht : t = .global
        · subst ht
          rw [Function.update_self]
          rfl
        · rw [Function.update_of_ne ht]
          exact h gs hgs t c
      | cons f todo =>
        obtain rfl := Option.some.inj hnext
        exact h

abbrev OheadRun : List (OheadState ι × OheadEvent ι) → OheadState ι → Prop :=
  Trace.Run OheadState.next OheadStart

theorem OheadStart.inv {s : OheadState ι} (h : OheadStart s) : s.Inv := by
  obtain ⟨shm, pc⟩ := s
  obtain rfl : pc = .idle := h.pc
  intro gs hgs
  exact absurd (h.globalstats.symm.trans hgs) nofun

theorem OheadRun.inv {trace : List (OheadState ι × OheadEvent ι)} {s : OheadState ι}
    (h : OheadRun trace s) : s.Inv :=
  h.invariant (I := fun _ s => s.Inv) (P := fun _ _ => True) (fun _ _ => trivial)
    (fun _ hs => hs.inv) fun _ _ _ _ hI _ hnext => hI.next hnext

/-- No read of a snapshot is left to be made. -/
def OheadState.Settled (s : OheadState ι) : Prop := ∀ i todo, s.pc ≠ .snap (i :: todo)

theorem OheadState.Inv.covers {s : OheadState ι} (h : s.Inv) (hsettled : s.Settled) :
    Covers s.shm [] := by
  obtain ⟨shm, pc⟩ := s
  cases pc with
  | idle => exact h
  | snap todo =>
    cases todo with
    | nil => exact h.2
    | cons i todo => exact absurd rfl (hsettled i todo)
  | clear todo => exact Covers.of_zero h

theorem ioStatsOhead_isSome {gs : FlowType → Flowstat Total}
    (h : ∀ c, otherSum gs c ≤ (gs .global).total c) : (ioStatsOhead gs).isSome := by
  have hcpu := h (.mstate .cpu)
  have hsum : (gs .io).total (.mstate .cpu) + (gs .aio).total (.mstate .cpu) ≤
      otherSum gs (.mstate .cpu) := by
    have hpair : ({.io, .aio} : Finset FlowType) ⊆ Finset.univ.erase .global := by decide
    have hle := Finset.sum_le_sum_of_subset (f := fun t => (gs t).total (.mstate .cpu)) hpair
    rwa [Finset.sum_pair (by decide)] at hle
  have hio : (gs .io).total (.mstate .cpu) ≤
      (gs .global).total (.mstate .ohead) + (gs .global).total (.mstate .cpu) := by omega
  have haio : (gs .aio).total (.mstate .cpu) ≤ (gs .global).total (.mstate .ohead) +
      (gs .global).total (.mstate .cpu) - (gs .io).total (.mstate .cpu) := by omega
  simp [ioStatsOhead, usub, hio, haio]

/-- In every run, whatever the workers do, the global statistics cover those of the types once a
snapshot has made its reads, and the overhead does not run below zero. -/
theorem oheadRun_covered {trace : List (OheadState ι × OheadEvent ι)} {s : OheadState ι}
    (h : OheadRun trace s) (hsettled : s.Settled) {gs : FlowType → Flowstat Total}
    (hgs : s.shm.globalstats = some gs) :
    (∀ c, otherSum gs c ≤ (gs .global).total c) ∧ (ioStatsOhead gs).isSome := by
  have hcovers : ∀ c, otherSum gs c ≤ (gs .global).total c :=
    fun c => (h.inv.covers hsettled) gs hgs c
  exact ⟨hcovers, ioStatsOhead_isSome hcovers⟩

def readOhead : OheadState Bool where
  shm :=
    { flowop := fun worker => readFlowop (if worker then 1 else flowMaster)
      foStats := fun _ => .zero
      shmFlowoplist := [true, false]
      shmFAbort := .ok
      globalstats := none }
  pc := .idle

/-- The worker counts once before and once between the two reads of its time on the processor. -/
def readOheadEvents : List (OheadEvent Bool) :=
  .statsClear :: List.replicate 3 .instr ++ .work true (.mstate .cpu) 5 :: .statsSnap ::
    List.replicate 10 .instr ++ .work true (.mstate .cpu) 3 :: List.replicate 23 .instr

theorem oheadRun_covered_between : ∃ (s : OheadState Bool) (gs : FlowType → Flowstat Total),
    s.shm.globalstats = some gs ∧ (gs .io).total (.mstate .cpu) = 5 ∧
      (gs .global).total (.mstate .cpu) = 8 ∧ (ioStatsOhead gs).isSome := by
  have hrun : (readOheadEvents.foldlM OheadState.next readOhead).map
      (fun s => (decide (s.pc = .idle), s.shm.globalstats.map fun gs =>
        ((gs .io).total (.mstate .cpu), (gs .global).total (.mstate .cpu)))) =
      some (true, some (5, 8)) := by
    decide +kernel
  obtain ⟨s, hs, hvalues⟩ := Option.map_eq_some_iff.mp hrun
  obtain ⟨hidle, hvalues⟩ := Prod.mk.inj hvalues
  obtain ⟨gs, hgs, hvalues⟩ := Option.map_eq_some_iff.mp hvalues
  obtain ⟨hio, hglobal⟩ := Prod.mk.inj hvalues
  have hstart : OheadRun [] readOhead := .start ⟨rfl, rfl⟩
  obtain ⟨trace, htrace, -⟩ := hstart.events (P := fun _ => True)
    (fun _ hx => absurd hx List.not_mem_nil) hs fun _ _ _ => trivial
  have hsettled : s.Settled := by
    intro i todo hpc
    rw [of_decide_eq_true hidle] at hpc
    cases hpc
  exact ⟨s, gs, hgs, hio, hglobal, (oheadRun_covered htrace hsettled hgs).2⟩

end Filebench
