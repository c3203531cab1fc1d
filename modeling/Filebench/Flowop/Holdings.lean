import Filebench.Flowop.Destruct

/-! # The flowops of all threads

Threads create, destruct and delete their flowops in any order. What each of them holds makes up,
with the flowops from before, all that is allocated and on the global list. -/
namespace Filebench

open Linked

variable {A : Type} {n : ℕ} {s₀ s s' : FlowopShm A n} {gl₀ gl : List (Fin n)}

/-- What a thread holds: nothing, the prototypes of its master, a forest of its own, or the list of
that without inner flowops. -/
inductive Holding (n : ℕ) where
  | nothing
  | prototypes
  | forest (F : FlowForest n)
  | list (L : List (Fin n))

/-- The flowops that were allocated for it. -/
def Holding.nodes : Holding n → List (Fin n)
  | .nothing | .prototypes => []
  | .forest F => F.nodes
  | .list L => L

/-- The holding from `c` on. Prototypes are allocated in `s₀`. -/
def Holding.Holds (s₀ s : FlowopShm A n) (c : Option (Fin n)) : Holding n → Prop
  | .nothing => True
  | .prototypes => ∃ F : FlowForest n, Represents s c F ∧ F.nodes.Nodup ∧ F.depth ≤ 2 ∧
      ∀ p ∈ F.nodes, s₀.Allocated p
  | .forest F => Represents s c F ∧ F.nodes.Nodup ∧ F.depth ≤ 2 ∧
      ∀ p ∈ F.nodes, (s.flowop p).foInstance ≠ flowMaster
  | .list L => IsList s.execNext c L ∧ ∀ p ∈ L, (s.flowop p).foInstance ≠ flowMaster

/-- The holdings of all threads over what there was in `s₀` with the global list `gl₀`. -/
structure Holdings (s₀ : FlowopShm A n) (gl₀ : List (Fin n)) (s : FlowopShm A n)
    (hold : ThreadPtr → Holding n) (gl : List (Fin n)) : Prop where
  global : IsList s.next s.shmFlowoplist gl
  base : gl.filter (s₀.pool.bitmap ·) = gl₀
  allocated : ∀ r, s.Allocated r ↔ s₀.Allocated r ∨ ∃ t, r ∈ (hold t).nodes
  globalAllocated : ∀ r ∈ gl, s.Allocated r
  fresh : ∀ t, ∀ r ∈ (hold t).nodes, ¬ s₀.Allocated r ∧ r ∈ gl
  disjoint : ∀ t t' r, r ∈ (hold t).nodes → r ∈ (hold t').nodes → t = t'
  holds : ∀ t, (hold t).Holds s₀ s (s.tfThrdFops t)

theorem Holding.Holds.congr {c : Option (Fin n)} {h : Holding n} (hh : h.Holds s₀ s c)
    (hexec : ∀ r, s₀.Allocated r ∨ r ∈ h.nodes → s'.execNext r = s.execNext r)
    (hcomp : ∀ r, s₀.Allocated r ∨ r ∈ h.nodes → s'.compFops r = s.compFops r)
    (hmethods : ∀ r, s₀.Allocated r ∨ r ∈ h.nodes →
      (s'.flowop r).foMethods = (s.flowop r).foMethods)
    (hinst : ∀ r, s₀.Allocated r ∨ r ∈ h.nodes →
      (s'.flowop r).foInstance = (s.flowop r).foInstance) : h.Holds s₀ s' c := by
  have hrep : ∀ {F : FlowForest n}, Represents s c F →
      (∀ p ∈ F.nodes, s₀.Allocated p ∨ p ∈ h.nodes) → Represents s' c F := by
    intro F hF hsub
    refine ⟨hF.tops.congr fun p hp => hexec p (hsub p (FlowForest.tops_subset hp)),
      hF.nested.congr (fun p hp => hcomp p (hsub p hp)) (fun p hp => hmethods p (hsub p hp))
        fun p hp => hexec p (hsub p (FlowForest.deep_subset hp))⟩
  cases h with
  | nothing => trivial
  | prototypes =>
    obtain ⟨F, hF, hnodup, hdepth, halloc⟩ := hh
    exact ⟨F, hrep hF fun p hp => .inl (halloc p hp), hnodup, hdepth, halloc⟩
  | forest F =>
    obtain ⟨hF, hnodup, hdepth, hi⟩ := hh
    refine ⟨hrep hF fun p hp => .inr hp, hnodup, hdepth, fun p hp => ?_⟩
    rw [hinst p (.inr hp)]
    exact hi p hp
  | list L =>
    obtain ⟨hL, hi⟩ := hh
    refine ⟨hL.congr fun p hp => hexec p (.inr hp), fun p hp => ?_⟩
    rw [hinst p (.inr hp)]
    exact hi p hp

theorem Copies.depth {threadflow : Option ThreadPtr} {F F' : FlowForest n}
    (h : Copies s s' threadflow F F') : F'.depth = F.depth := by
  induction F generalizing F' with
  | nil => rw [h.eq_nil]
  | cons p inner rest ihi ihr => cases F' with
    | nil => exact h.elim
    | cons p' inner' rest' =>
      rw [FlowForest.depth, FlowForest.depth, ihi h.2.1, ihr h.2.2]

theorem FlowForest.take_depth_le (F : FlowForest n) (k : ℕ) : (F.take k).depth ≤ F.depth := by
  induction F generalizing k with
  | nil => rw [take_nil]
  | cons p inner rest ihi ihr => cases k with
    | zero => exact Nat.zero_le _
    | succ k =>
      rw [take, depth, depth]
      exact max_le_max (Nat.add_le_add_left (ihi k) 1) (ihr (k - inner.size))

namespace Holdings

variable {hold : ThreadPtr → Holding n} {t : ThreadPtr}

/-- With the holding of one thread replaced. -/
theorem nodes_update {h : Holding n} {t' : ThreadPtr} {r : Fin n}
    (hr : r ∈ (Function.update hold t h t').nodes) :
    t' = t ∧ r ∈ h.nodes ∨ t' ≠ t ∧ r ∈ (hold t').nodes := by
  by_cases ht : t' = t
  · subst ht
    rw [Function.update_self] at hr
    exact .inl ⟨rfl, hr⟩
  · rw [Function.update_of_ne ht] at hr
    exact .inr ⟨ht, hr⟩

/-- A thread that holds nothing gets the prototypes of another one. -/
theorem inherit {t' : ThreadPtr} (h : Holdings s₀ gl₀ s hold gl) (ht : hold t = .nothing)
    (ht' : hold t' = .prototypes) (running : ThreadPtr → Bool) :
    Holdings s₀ gl₀
      { s with
        tfThrdFops := Function.update s.tfThrdFops t (s.tfThrdFops t')
        tfRunning := running }
      (Function.update hold t .prototypes) gl := by
  have hnodes : ∀ u, (Function.update hold t .prototypes u).nodes = (hold u).nodes := by
    intro u
    by_cases hu : u = t
    · rw [hu, Function.update_self, ht]
      rfl
    · rw [Function.update_of_ne hu]
  refine ⟨h.global, h.base, fun r => ?_, h.globalAllocated, fun u r hr => ?_,
    fun u u' r hr hr' => ?_, fun u => ?_⟩
  · simp only [hnodes]
    exact h.allocated r
  · rw [hnodes] at hr
    exact h.fresh u r hr
  · rw [hnodes] at hr hr'
    exact h.disjoint u u' r hr hr'
  · by_cases hu : u = t
    · have hproto := h.holds t'
      rw [ht'] at hproto
      rw [hu, Function.update_self]
      simp only [Function.update_self]
      exact hproto.congr (fun _ _ => rfl) (fun _ _ => rfl) (fun _ _ => rfl) fun _ _ => rfl
    · rw [Function.update_of_ne hu]
      simp only [Function.update_of_ne hu]
      exact (h.holds u).congr (fun _ _ => rfl) (fun _ _ => rfl) (fun _ _ => rfl) fun _ _ => rfl

/-- Whether a thread runs does not matter. -/
theorem setRunning (h : Holdings s₀ gl₀ s hold gl) (running : ThreadPtr → Bool) :
    Holdings s₀ gl₀ { s with tfRunning := running } hold gl :=
  ⟨h.global, h.base, h.allocated, h.globalAllocated, h.fresh, h.disjoint, fun u =>
    (h.holds u).congr (fun _ _ => rfl) (fun _ _ => rfl) (fun _ _ => rfl) fun _ _ => rfl⟩

/-- The holding of one thread is replaced, and nothing of the others is touched. -/
theorem replace {h' : Holding n} {gl' : List (Fin n)} (h : Holdings s₀ gl₀ s hold gl)
    (hglobal : IsList s'.next s'.shmFlowoplist gl')
    (hbase : gl'.filter (s₀.pool.bitmap ·) = gl.filter (s₀.pool.bitmap ·))
    (hglobalAllocated : ∀ r ∈ gl', s'.Allocated r)
    (hallocated : ∀ r, s'.Allocated r ↔
      s.Allocated r ∧ r ∉ (hold t).nodes ∨ r ∈ h'.nodes)
    (hnodes : ∀ r ∈ h'.nodes, (¬ s.Allocated r ∨ r ∈ (hold t).nodes) ∧ r ∈ gl')
    (hothers : ∀ r ∈ gl, r ∉ (hold t).nodes → r ∈ gl')
    (hholds : h'.Holds s₀ s' (s'.tfThrdFops t))
    (hheads : ∀ u, u ≠ t → s'.tfThrdFops u = s.tfThrdFops u)
    (hkeeps : ∀ r, s.Allocated r → r ∉ (hold t).nodes → s'.execNext r = s.execNext r ∧
      s'.compFops r = s.compFops r ∧ (s'.flowop r).foMethods = (s.flowop r).foMethods ∧
        (s'.flowop r).foInstance = (s.flowop r).foInstance) :
    Holdings s₀ gl₀ s' (Function.update hold t h') gl' := by
  have hold₀ : ∀ r, s₀.Allocated r → s.Allocated r ∧ r ∉ (hold t).nodes :=
    fun r hr => ⟨(h.allocated r).mpr (.inl hr), fun hr' => (h.fresh t r hr').1 hr⟩
  have hother : ∀ u r, u ≠ t → r ∈ (hold u).nodes → s.Allocated r ∧ r ∉ (hold t).nodes :=
    fun u r hu hr => ⟨(h.allocated r).mpr (.inr ⟨u, hr⟩), fun hr' => hu (h.disjoint u t r hr hr')⟩
  have hnew : ∀ r ∈ h'.nodes, ¬ s₀.Allocated r := by
    intro r hr hr₀
    rcases (hnodes r hr).1 with hfree | hmem
    · exact hfree (hold₀ r hr₀).1
    · exact (hold₀ r hr₀).2 hmem
  have hapart : ∀ u r, u ≠ t → r ∈ (hold u).nodes → r ∉ h'.nodes := by
    intro u r hu hr hr'
    rcases (hnodes r hr').1 with hfree | hmem
    · exact hfree (hother u r hu hr).1
    · exact (hother u r hu hr).2 hmem
  constructor
  case global => exact hglobal
  case base => rw [hbase, h.base]
  case allocated =>
    intro r
    rw [hallocated]
    constructor
    · rintro (⟨hr, hrt⟩ | hr)
      · rcases (h.allocated r).mp hr with hr₀ | ⟨u, hu⟩
        · exact .inl hr₀
        · have hut : u ≠ t := by
            rintro rfl
            exact hrt hu
          exact .inr ⟨u, by rwa [Function.update_of_ne hut]⟩
      · exact .inr ⟨t, by rwa [Function.update_self]⟩
    · rintro (hr | ⟨u, hu⟩)
      · exact .inl (hold₀ r hr)
      · rcases nodes_update hu with ⟨-, hr⟩ | ⟨hut, hr⟩
        · exact .inr hr
        · exact .inl (hother u r hut hr)
  case globalAllocated => exact hglobalAllocated
  case fresh =>
    intro u r hr
    rcases nodes_update hr with ⟨-, hr⟩ | ⟨hut, hr⟩
    · exact ⟨hnew r hr, (hnodes r hr).2⟩
    · exact ⟨(h.fresh u r hr).1, hothers r (h.fresh u r hr).2 (hother u r hut hr).2⟩
  case disjoint =>
    intro u u' r hr hr'
    rcases nodes_update hr with ⟨hut, hmem⟩ | ⟨hut, hmem⟩
    · rcases nodes_update hr' with ⟨hut', -⟩ | ⟨hut', hmem'⟩
      · exact hut.trans hut'.symm
      · exact absurd hmem (hapart u' r hut' hmem')
    · rcases nodes_update hr' with ⟨-, hmem'⟩ | ⟨hut', hmem'⟩
      · exact absurd hmem' (hapart u r hut hmem)
      · exact h.disjoint u u' r hmem hmem'
  case holds =>
    intro u
    by_cases hu : u = t
    · subst hu
      rw [Function.update_self]
      exact hholds
    · rw [Function.update_of_ne hu, hheads u hu]
      have hmem : ∀ r, s₀.Allocated r ∨ r ∈ (hold u).nodes →
          s.Allocated r ∧ r ∉ (hold t).nodes := by
        rintro r (hr | hr)
        · exact hold₀ r hr
        · exact hother u r hu hr
      exact (h.holds u).congr (fun r hr => (hkeeps r (hmem r hr).1 (hmem r hr).2).1)
        (fun r hr => (hkeeps r (hmem r hr).1 (hmem r hr).2).2.1)
        (fun r hr => (hkeeps r (hmem r hr).1 (hmem r hr).2).2.2.1)
        fun r hr => (hkeeps r (hmem r hr).1 (hmem r hr).2).2.2.2

/-- A thread makes copies of its prototypes. -/
theorem create {env : FlowopEnv A n} (h : Holdings s₀ gl₀ s hold gl) (ht : hold t = .prototypes)
    (hrun : flowopCreateRuntimeFlowops env n (some t) (.thread t) s = some (.ok, s')) :
    ∃ F gl', Holdings s₀ gl₀ s' (Function.update hold t (.forest F)) gl' ∧
      ∀ u, u ≠ t → s'.tfThrdFops u = s.tfThrdFops u := by
  have hproto := h.holds t
  rw [ht] at hproto
  obtain ⟨F, hF, hnodup, hdepth, halloc⟩ := hproto
  have hallocs : ∀ p ∈ F.nodes, s.Allocated p := fun p hp => (h.allocated p).mpr (.inl (halloc p hp))
  have hready : Ready s (.thread t) .nil F (s.hd (.thread t)) := .of_list hF hallocs nofun
  have hsize : F.size ≤ n := by
    rw [← F.length_nodes]
    have hcard := hnodup.length_le_card
    rwa [Fintype.card_fin] at hcard
  have hempty : (hold t).nodes = [] := by
    rw [ht]
    rfl
  obtain ⟨ret, s₁, hloop, hend⟩ : ∃ ret s₁,
      Runs env F.size (some t) (.thread t) (s.hd (.thread t)) s (ret, s₁) ∧
        Ended env s (.thread t) (some t) .nil F ret s₁ := createLoop_spec hready
  obtain ⟨hret, rfl⟩ := Prod.mk.inj (Option.some.inj ((hloop n hsize).symm.trans hrun))
  cases hend with
  | shutdown => cases hret
  | @built _ F' _ hbuilt =>
    have hheads : ∀ u, u ≠ t → s₁.tfThrdFops u = s.tfThrdFops u :=
      fun u hu => hbuilt.unchanged.heads u fun heq => hu (FlowopList.thread.inj heq).symm
    refine ⟨F', F'.nodes.reverse ++ gl, ?_, hheads⟩
    refine h.replace (hbuilt.global gl h.globalAllocated h.global) ?_ ?_ ?_ ?_ ?_ ?_ hheads ?_
    · rw [List.filter_append, List.filter_eq_nil_iff.mpr, List.nil_append]
      intro r hr hr₀
      exact hbuilt.fresh r (List.mem_reverse.mp hr) ((h.allocated r).mpr (.inl hr₀))
    · intro r hr
      rcases List.mem_append.mp hr with hr | hr
      · exact hbuilt.allocated r (List.mem_reverse.mp hr)
      · exact hbuilt.unchanged.allocated r (h.globalAllocated r hr)
    · intro r
      rw [hempty]
      constructor
      · exact fun hr => (hbuilt.only r hr).imp_left fun hr => ⟨hr, List.not_mem_nil⟩
      · rintro (⟨hr, -⟩ | hr)
        · exact hbuilt.unchanged.allocated r hr
        · exact hbuilt.allocated r hr
    · intro r hr
      exact ⟨.inl (hbuilt.fresh r hr), List.mem_append_left _ (List.mem_reverse.mpr hr)⟩
    · exact fun r hr _ => List.mem_append_right _ hr
    · refine ⟨hbuilt.represents, hbuilt.nodup, ?_, fun p hp => ?_⟩
      · rw [hbuilt.copies.depth]
        exact (F.take_depth_le _).trans hdepth
      · rw [hbuilt.copies.inst p hp]
        decide
    · intro r hr _
      have hsame := hbuilt.unchanged.flowop_eq hr nofun nofun
      rw [FlowopShm.execNext, FlowopShm.compFops, hsame]
      exact ⟨rfl, rfl, rfl, rfl⟩

/-- Flowops that were not there at the start leave the list as it was at the start. -/
theorem base_filter (gl : List (Fin n)) {freed : List (Fin n)}
    (hfresh : ∀ r ∈ freed, ¬ s₀.Allocated r) :
    (gl.filter (· ∉ freed)).filter (s₀.pool.bitmap ·) = gl.filter (s₀.pool.bitmap ·) := by
  rw [List.filter_filter]
  refine List.filter_congr fun r _ => ?_
  by_cases hr : r ∈ freed
  · have hfree := hfresh r hr
    rw [FlowopShm.Allocated, Bool.not_eq_true] at hfree
    simp [hr, hfree]
  · simp [hr]

theorem allocated_freed {freed : List (Fin n)}
    (hbitmap : ∀ r, s'.pool.bitmap r = if r ∈ freed then false else s.pool.bitmap r) (r : Fin n) :
    s'.Allocated r ↔ s.Allocated r ∧ r ∉ freed := by
  rw [FlowopShm.Allocated, hbitmap]
  by_cases hr : r ∈ freed
  · simp [hr]
  · simp [hr, FlowopShm.Allocated]

/-- What is left of the list is allocated. -/
theorem globalAllocated_filter (h : Holdings s₀ gl₀ s hold gl) {freed : List (Fin n)}
    (halloc : ∀ r, s'.Allocated r ↔ s.Allocated r ∧ r ∉ freed) :
    ∀ r ∈ gl.filter (· ∉ freed), s'.Allocated r := by
  intro r hr
  obtain ⟨hr, hrs⟩ := List.mem_filter.mp hr
  exact (halloc r).mpr ⟨h.globalAllocated r hr, of_decide_eq_true hrs⟩

/-- The destructors delete all inner flowops. -/
theorem destruct {F : FlowForest n} {c : Option (Fin n)} (h : Holdings s₀ gl₀ s hold gl)
    (ht : hold t = .forest F) (hc : c = s.tfThrdFops t)
    (hrun : destructLoop n c s = some s') :
    ∃ gl', Holdings s₀ gl₀ s' (Function.update hold t (.list F.tops)) gl' ∧
      s'.tfThrdFops = s.tfThrdFops := by
  have hforest := h.holds t
  rw [ht] at hforest
  obtain ⟨hF, hnodup, hdepth, hinst⟩ := hforest
  have hnodes : (hold t).nodes = F.nodes := by rw [ht]; rfl
  have hmem : ∀ r ∈ F.nodes, r ∈ gl ∧ s.Allocated r := by
    intro r hr
    rw [← hnodes] at hr
    exact ⟨(h.fresh t r hr).2, (h.allocated r).mpr (.inr ⟨t, hr⟩)⟩
  have hfresh : ∀ r ∈ F.nodes, ¬ s₀.Allocated r := fun r hr => (h.fresh t r (hnodes ▸ hr)).1
  obtain ⟨s₁, hloop, hdes⟩ := destructLoop_spec n (hc ▸ hF) hnodup hinst h.global
    (fun r hr => (hmem r hr).1) (length_le_of_isList hF.tops)
  obtain rfl := Option.some.inj (hloop.symm.trans hrun)
  have hseconds : ∀ r, r ∈ F.nodes ↔ r ∈ F.tops ∨ r ∈ F.seconds := by
    intro r
    rw [FlowForest.mem_nodes, F.deep_perm.mem_iff, FlowForest.deeper_eq_nil.mpr hdepth,
      List.append_nil]
  have hapart : ∀ r ∈ F.tops, r ∉ F.seconds := by
    intro r hr hs
    exact FlowForest.tops_disjoint_deep hnodup hr
      (F.deep_perm.mem_iff.mpr (List.mem_append_left _ hs))
  have halloc : ∀ r, s₁.Allocated r ↔ s.Allocated r ∧ r ∉ F.seconds :=
    allocated_freed hdes.bitmap
  refine ⟨gl.filter (· ∉ F.seconds), ?_, hdes.heads⟩
  refine h.replace hdes.global ?_ (h.globalAllocated_filter halloc) ?_ ?_ ?_ ?_
    (fun u _ => congrFun hdes.heads u) ?_
  · apply base_filter
    intro r hr
    exact hfresh r ((hseconds r).mpr (.inr hr))
  · intro r
    rw [halloc, hnodes, hseconds]
    constructor
    · rintro ⟨hr, hrs⟩
      by_cases hrt : r ∈ F.tops
      · exact .inr hrt
      · exact .inl ⟨hr, fun h => h.elim hrt hrs⟩
    · rintro (⟨hr, hrn⟩ | hr)
      · exact ⟨hr, fun hrs => hrn (.inr hrs)⟩
      · exact ⟨(hmem r (FlowForest.tops_subset hr)).2, hapart r hr⟩
  · intro r hr
    refine ⟨.inr (hnodes ▸ FlowForest.tops_subset hr), List.mem_filter.mpr ⟨?_, ?_⟩⟩
    · exact (hmem r (FlowForest.tops_subset hr)).1
    · exact decide_eq_true (hapart r hr)
  · intro r hr hrn
    rw [hnodes, hseconds] at hrn
    exact List.mem_filter.mpr ⟨hr, decide_eq_true fun hrs => hrn (.inr hrs)⟩
  · refine ⟨?_, fun p hp => ?_⟩
    · rw [hdes.execNext, hdes.heads]
      exact hF.tops
    · rw [hdes.inst]
      exact hinst p (FlowForest.tops_subset hp)
  · intro r _ hrn
    rw [hnodes] at hrn
    exact ⟨congrFun hdes.execNext r, hdes.comp r fun hr => hrn (FlowForest.tops_subset hr),
      hdes.methods r, hdes.inst r⟩

/-- The list of a thread is deleted. -/
theorem delete {L : List (Fin n)} (h : Holdings s₀ gl₀ s hold gl) (ht : hold t = .list L)
    (hrun : flowopDeleteAll (.thread t) s = some s') :
    ∃ gl', Holdings s₀ gl₀ s' (Function.update hold t .nothing) gl' ∧
      ∀ u, u ≠ t → s'.tfThrdFops u = s.tfThrdFops u := by
  have hlist := h.holds t
  rw [ht] at hlist
  obtain ⟨hL, hinst⟩ := hlist
  have hnodes : (hold t).nodes = L := by rw [ht]; rfl
  have hmem : ∀ r ∈ L, r ∈ gl := fun r hr => (h.fresh t r (hnodes ▸ hr)).2
  have hfresh : ∀ r ∈ L, ¬ s₀.Allocated r := fun r hr => (h.fresh t r (hnodes ▸ hr)).1
  obtain ⟨s₁, hloop, hdel⟩ := (deletes_deleteLoop (.thread t)).all n (s := s) (L := L) hL hinst
    h.global hmem (length_le_of_isList hL)
  obtain rfl := Option.some.inj (hloop.symm.trans hrun)
  have halloc : ∀ r, s₁.Allocated r ↔ s.Allocated r ∧ r ∉ L := allocated_freed hdel.bitmap
  have hheads : ∀ u, u ≠ t → s₁.tfThrdFops u = s.tfThrdFops u :=
    fun u hu => hdel.heads u fun heq => hu (FlowopList.thread.inj heq).symm
  refine ⟨gl.filter (· ∉ L), ?_, hheads⟩
  refine h.replace hdel.global (base_filter gl hfresh) (h.globalAllocated_filter halloc) ?_
    (fun _ hr => absurd hr List.not_mem_nil) ?_ trivial hheads ?_
  · intro r
    rw [halloc, hnodes, Holding.nodes]
    exact (or_iff_left List.not_mem_nil).symm
  · intro r hr hrn
    rw [hnodes] at hrn
    exact List.mem_filter.mpr ⟨hr, decide_eq_true hrn⟩
  · intro r _ _
    exact ⟨congrFun hdel.execNext r, hdel.comp r (FlowopList.inner_ne_thread r t).symm,
      hdel.methods r, hdel.inst r⟩

end Holdings

end Filebench
