import Filebench.Flowop.Forest

/-! # One runtime flowop

A new flowop comes to the end of a list and to the head of the global one, and gets its inner
flowops. Nothing of this changes a flowop that was there, but for the link at the end of the
list. -/
namespace Filebench

open Linked

variable {A : Type} {n : ℕ} {s s' s₁ s₂ : FlowopShm A n}

def FlowopShm.Allocated (s : FlowopShm A n) (p : Fin n) : Prop := s.pool.bitmap p = true

/-- The allocated flowops are as before, up to the links of those in `E` and to the list itself. -/
structure Unchanged (s s' : FlowopShm A n) (E : List (Fin n)) (hdp : FlowopList n) : Prop where
  allocated : ∀ r, s.Allocated r → s'.Allocated r
  exec : ∀ r, s.Allocated r → r ∉ E → s'.execNext r = s.execNext r
  comp : ∀ r, s.Allocated r → hdp ≠ .inner r → s'.compFops r = s.compFops r
  fields : ∀ r, s.Allocated r → (s'.flowop r).unlinked = (s.flowop r).unlinked
  heads : ∀ t, hdp ≠ .thread t → s'.tfThrdFops t = s.tfThrdFops t

theorem Unchanged.refl (s : FlowopShm A n) (E : List (Fin n)) (hdp : FlowopList n) :
    Unchanged s s E hdp :=
  ⟨fun _ h => h, fun _ _ _ => rfl, fun _ _ _ => rfl, fun _ _ => rfl, fun _ _ => rfl⟩

theorem Unchanged.mono {E E' : List (Fin n)} {hdp : FlowopList n} (h : Unchanged s s' E hdp)
    (hE : E ⊆ E') : Unchanged s s' E' hdp :=
  ⟨h.allocated, fun r hr hrE => h.exec r hr fun hr' => hrE (hE hr'), h.comp, h.fields, h.heads⟩

/-- One change after another, the second in the list of a flowop that is new since the first
or in the same one. -/
theorem Unchanged.trans {E E' : List (Fin n)} {hdp hdp' : FlowopList n}
    (h : Unchanged s s₁ E hdp) (h' : Unchanged s₁ s₂ E' hdp')
    (hE : ∀ r ∈ E', s.Allocated r → r ∈ E)
    (hhd : hdp' = hdp ∨ ∃ p, hdp' = .inner p ∧ ¬ s.Allocated p) : Unchanged s s₂ E hdp := by
  constructor
  · exact fun r hr => h'.allocated r (h.allocated r hr)
  · intro r hr hrE
    rw [h'.exec r (h.allocated r hr) fun hr' => hrE (hE r hr' hr), h.exec r hr hrE]
  · intro r hr hne
    rw [h'.comp r (h.allocated r hr), h.comp r hr hne]
    rcases hhd with rfl | ⟨p, rfl, hp⟩
    · exact hne
    · rintro hpr
      cases hpr
      exact hp hr
  · intro r hr
    rw [h'.fields r (h.allocated r hr), h.fields r hr]
  · intro t ht
    rw [h'.heads t, h.heads t ht]
    rcases hhd with rfl | ⟨p, rfl, hp⟩
    · exact ht
    · nofun

/-- Some values of the flowop `p` were set that no list depends on. -/
structure Touched (s s' : FlowopShm A n) (p : Fin n) : Prop where
  pool : s'.pool = s.pool
  flowoplist : s'.shmFlowoplist = s.shmFlowoplist
  heads : s'.tfThrdFops = s.tfThrdFops
  others : ∀ r, r ≠ p → s'.flowop r = s.flowop r
  self : ∃ fileset constvalue constwss, s'.flowop p =
    { s.flowop p with
      foFileset := fileset, foConstvalue := constvalue, foConstwss := constwss }

theorem Touched.refl (s : FlowopShm A n) (p : Fin n) : Touched s s p :=
  ⟨rfl, rfl, rfl, fun _ _ => rfl, _, _, _, rfl⟩

theorem Touched.trans {p : Fin n} (h : Touched s s₁ p) (h' : Touched s₁ s₂ p) :
    Touched s s₂ p := by
  obtain ⟨fs, cv, cw, hself⟩ := h.self
  obtain ⟨fs', cv', cw', hself'⟩ := h'.self
  refine ⟨h'.pool.trans h.pool, h'.flowoplist.trans h.flowoplist, h'.heads.trans h.heads,
    fun r hr => (h'.others r hr).trans (h.others r hr), fs', cv', cw', ?_⟩
  rw [hself', hself]

theorem touched_modify (s : FlowopShm A n) (p : Fin n) {f : ShmFlowop A n → ShmFlowop A n}
    (hf : ∀ x, ∃ fileset constvalue constwss, f x =
      { x with foFileset := fileset, foConstvalue := constvalue, foConstwss := constwss }) :
    Touched s (s.modify p f) p := by
  obtain ⟨fs, cv, cw, h⟩ := hf (s.flowop p)
  refine ⟨rfl, rfl, rfl, fun r hr => ?_, fs, cv, cw, ?_⟩
  · rw [FlowopShm.modify_flowop, if_neg hr]
  · rw [FlowopShm.modify_flowop, if_pos rfl, h]

theorem Touched.field {X : Type} {p : Fin n} (h : Touched s s' p) (g : ShmFlowop A n → X)
    (hg : ∀ x fs cv cw,
      g { x with foFileset := fs, foConstvalue := cv, foConstwss := cw } = g x) (r : Fin n) :
    g (s'.flowop r) = g (s.flowop r) := by
  by_cases hr : r = p
  · obtain ⟨fs, cv, cw, hself⟩ := h.self
    rw [hr, hself, hg]
  · rw [h.others r hr]

theorem Touched.next {p : Fin n} (h : Touched s s' p) : s'.next = s.next :=
  funext (h.field (·.foNext) fun _ _ _ _ => rfl)

theorem Touched.execNext {p : Fin n} (h : Touched s s' p) : s'.execNext = s.execNext :=
  funext (h.field (·.foExecNext) fun _ _ _ _ => rfl)

theorem Touched.compFops {p : Fin n} (h : Touched s s' p) : s'.compFops = s.compFops :=
  funext (h.field (·.foCompFops) fun _ _ _ _ => rfl)

theorem Touched.hd {p : Fin n} (h : Touched s s' p) (hdp : FlowopList n) :
    s'.hd hdp = s.hd hdp := by
  cases hdp with
  | thread t => exact congrFun h.heads t
  | inner q => exact congrFun h.compFops q

/-- Values of a flowop that is not allocated yet in `s`. -/
theorem Unchanged.touched {E : List (Fin n)} {hdp : FlowopList n} (h : Unchanged s s₁ E hdp)
    {p : Fin n} (ht : Touched s₁ s₂ p) (hp : ¬ s.Allocated p) : Unchanged s s₂ E hdp := by
  constructor
  · intro r hr
    rw [FlowopShm.Allocated, ht.pool]
    exact h.allocated r hr
  · intro r hr hrE
    rw [ht.execNext, h.exec r hr hrE]
  · intro r hr hne
    rw [ht.compFops, h.comp r hr hne]
  · intro r hr
    have hrp : r ≠ p := by
      rintro rfl
      exact hp hr
    rw [ht.others r hrp, h.fields r hr]
  · intro t ht'
    rw [ht.heads, h.heads t ht']

theorem Unchanged.setHd (s : FlowopShm A n) (hdp : FlowopList n) (o : Option (Fin n)) :
    Unchanged s (s.setHd hdp o) [] hdp := by
  constructor
  · intro r hr
    rwa [FlowopShm.Allocated, FlowopShm.setHd_pool]
  · intro r _ _
    rw [FlowopShm.setHd_execNext]
  · exact fun r _ hne => s.setHd_compFops hne o
  · exact fun r _ => s.setHd_keeps hdp o (·.unlinked) (fun _ => rfl) r
  · exact fun t hne => s.setHd_tfThrdFops hne o

/-- The list is continued after its end `e`. -/
theorem Unchanged.setExecNext (s : FlowopShm A n) {e : Fin n} {E : List (Fin n)} (he : e ∈ E)
    (hdp : FlowopList n) (o : Option (Fin n)) : Unchanged s (s.setExecNext e o) E hdp := by
  constructor
  · exact fun r hr => hr
  · intro r _ hrE
    rw [FlowopShm.setExecNext_execNext, Function.update_of_ne (ne_of_mem_of_not_mem he hrE).symm]
  · intro r _ _
    exact s.setExecNext_keeps e o (·.foCompFops) (fun _ => rfl) r
  · intro r _
    exact s.setExecNext_keeps e o (·.unlinked) (fun _ => rfl) r
  · exact fun t _ => rfl

/-! ## One flowop -/

theorem append_spec {hdp : FlowopList n} {B : List (Fin n)} {p : Fin n}
    (hB : IsList s.execNext (s.hd hdp) B) (hp : p ∉ B) (hnil : s.execNext p = none)
    (howner : hdp ≠ .inner p) :
    ∃ s', s.append hdp p = some s' ∧ IsList s'.execNext (s'.hd hdp) (B ++ [p]) ∧
      s'.flowop p = s.flowop p ∧ s'.pool = s.pool ∧ s'.shmFlowoplist = s.shmFlowoplist ∧
      s'.next = s.next ∧ Unchanged s s' B hdp := by
  rcases List.eq_nil_or_concat' B with rfl | ⟨l, e, rfl⟩
  · have hhd : s.hd hdp = none := hB
    refine ⟨s.setHd hdp (some p), by rw [FlowopShm.append, hhd], ?_, ?_, by simp, by simp, by simp,
      .setHd s hdp _⟩
    · rw [FlowopShm.setHd_hd, FlowopShm.setHd_execNext]
      exact ⟨rfl, hnil⟩
    · cases hdp with
      | thread t => rfl
      | inner q =>
        have hpq : p ≠ q := by
          rintro rfl
          exact howner rfl
        rw [FlowopShm.setHd, FlowopShm.modify_flowop, if_neg hpq]
  · obtain ⟨a, ha⟩ : ∃ a, s.hd hdp = some a := ⟨_, hB.head.trans (List.head?_eq_some_head (by simp))⟩
    have hend : endOf s.execNext n a = some e := by
      refine endOf_eq (ha ▸ hB) ?_
      have hlen := length_le_of_isList hB
      simp at hlen
      exact hlen
    refine ⟨s.setExecNext e (some p), by simp [FlowopShm.append, ha, hend], ?_, ?_, rfl, rfl,
      by simp, .setExecNext s (by simp) hdp _⟩
    · rw [FlowopShm.setExecNext_hd, FlowopShm.setExecNext_execNext]
      exact hB.concat hp hnil
    · have hpe : p ≠ e := by
        rintro rfl
        exact hp (by simp)
      rw [FlowopShm.setExecNext, FlowopShm.modify_flowop, if_neg hpe]

/-- A new flowop `p` at the end of the list `hdp`, which was `B`. -/
structure Defined (s s' : FlowopShm A n) (hdp : FlowopList n) (B : List (Fin n)) (p : Fin n)
    (f : ShmFlowop A n) : Prop where
  fresh : ¬ s.Allocated p
  allocated : s'.Allocated p
  only : ∀ r, s'.Allocated r → s.Allocated r ∨ r = p
  avail : s'.pool.avail + 1 = s.pool.avail
  flowop : (s'.flowop p) = { f with foNext := s.shmFlowoplist, foExecNext := none }
  flowoplist : s'.shmFlowoplist = some p
  next : s'.next = Function.update s.next p s.shmFlowoplist
  tops : IsList s'.execNext (s'.hd hdp) (B ++ [p])
  unchanged : Unchanged s s' B hdp

/-- What a flowop inherits, and what it is given. -/
def ShmFlowop.inherited (f : ShmFlowop A n) (threadflow : Option ThreadPtr) (name : CString)
    (inst : ℤ) : ShmFlowop A n :=
  { f with foThread := threadflow, foName := name, foInstance := inst }

theorem Unchanged.push {pool' : Pool n} {p : Fin n} (hp : ¬ s.Allocated p)
    (hpool : pool'.bitmap = Function.update s.pool.bitmap p true) (f : ShmFlowop A n)
    (hdp : FlowopList n) : Unchanged s ({ s with pool := pool' }.push p f) [] hdp := by
  have hsame : ∀ r, s.Allocated r →
      ({ s with pool := pool' }.push p f).flowop r = s.flowop r := by
    intro r hr
    have hrp : r ≠ p := by
      rintro rfl
      exact hp hr
    exact Function.update_of_ne hrp ..
  constructor
  · intro r hr
    change pool'.bitmap r = true
    rw [hpool, Function.update_apply]
    split
    · rfl
    · exact hr
  · intro r hr _
    rw [FlowopShm.execNext, hsame r hr]
    rfl
  · intro r hr _
    rw [FlowopShm.compFops, hsame r hr]
    rfl
  · intro r hr
    rw [hsame r hr]
  · exact fun t _ => rfl

theorem flowopDefineCommon_spec {hdp : FlowopList n} {B : List (Fin n)}
    (threadflow : Option ThreadPtr) (name : CString) (inherit : Fin n) (inst : ℤ)
    (hB : IsList s.execNext (s.hd hdp) B) (halloc : ∀ q ∈ B, s.Allocated q)
    (howner : ∀ q, hdp = .inner q → s.Allocated q) (havail : 0 < s.pool.avail) :
    ∃ p s', flowopDefineCommon threadflow name inherit hdp inst s = some (some p, s') ∧
      Defined s s' hdp B p ((s.flowop inherit).inherited threadflow name inst) := by
  obtain ⟨p, pool', hmalloc, hleft⟩ := Pool.ipcMalloc_of_avail havail
  obtain ⟨-, hfree, hpool'⟩ := Pool.ipcMalloc_some hmalloc
  have hfresh : ¬ s.Allocated p := by simp [FlowopShm.Allocated, hfree]
  have hbitmap : pool'.bitmap = Function.update s.pool.bitmap p true := by rw [hpool']
  set f : ShmFlowop A n := { s.flowop inherit with
    foExecNext := none, foThread := threadflow, foName := name, foInstance := inst } with hf
  set s₁ := { s with pool := pool' }.push p f with hs₁
  have hpushed : Unchanged s s₁ [] hdp := .push hfresh hbitmap f hdp
  have hp₁ : s₁.flowop p = { f with foNext := s.shmFlowoplist } := Function.update_self ..
  have hpB : p ∉ B := fun h => hfresh (halloc p h)
  have hhd : s₁.hd hdp = s.hd hdp := by
    cases hdp with
    | thread t => rfl
    | inner q =>
      have hqp : q ≠ p := by
        rintro rfl
        exact hfresh (howner q rfl)
      exact congrArg ShmFlowop.foCompFops (Function.update_of_ne hqp ..)
  have hB₁ : IsList s₁.execNext (s₁.hd hdp) B := by
    rw [hhd]
    exact hB.congr fun q hq => hpushed.exec q (halloc q hq) nofun
  obtain ⟨s', happend, htops, hp', hpool, hlist, hnext, hunch⟩ := append_spec hB₁ hpB
    (by rw [FlowopShm.execNext, hp₁]) (fun h => hfresh (howner p h))
  refine ⟨p, s', ?_, ?_⟩
  · simp only [flowopDefineCommon, hmalloc]
    rw [← hf, ← hs₁, happend]
    rfl
  · constructor
    · exact hfresh
    · rw [FlowopShm.Allocated, hpool]
      change pool'.bitmap p = true
      rw [hbitmap, Function.update_self]
    · intro r hr
      rw [FlowopShm.Allocated, hpool] at hr
      change pool'.bitmap r = true at hr
      rw [hbitmap, Function.update_apply] at hr
      split at hr
      next h => exact .inr h
      next => exact .inl hr
    · rw [hpool]
      exact hleft
    · rw [hp', hp₁]
      rfl
    · exact hlist
    · rw [hnext]
      funext r
      change (Function.update s.flowop p _ r).foNext = _
      rw [Function.update_apply, Function.update_apply]
      split <;> rfl
    · exact htops
    · exact (hpushed.mono (List.nil_subset B)).trans hunch (fun _ hr _ => hr) (.inl rfl)

/-! ## Forests -/

/-- A runtime flowop of a prototype. -/
structure RuntimeCopy (f f' : ShmFlowop A n) (threadflow : Option ThreadPtr) : Prop where
  name : f'.foName = f.foName
  methods : f'.foMethods = f.foMethods
  attrs : f'.foAttrs = f.foAttrs
  inst : f'.foInstance = 1
  thread : f'.foThread = threadflow

/-- The second forest, of runtime flowops, has the shape of the first one. -/
def Copies (s s' : FlowopShm A n) (threadflow : Option ThreadPtr) :
    FlowForest n → FlowForest n → Prop
  | .nil, .nil => True
  | .cons p inner rest, .cons p' inner' rest' =>
    RuntimeCopy (s.flowop p) (s'.flowop p') threadflow ∧ Copies s s' threadflow inner inner' ∧
      Copies s s' threadflow rest rest'
  | _, _ => False

/-- Copies of as much of `F` as the pool allows have come to the end of the list `B`. -/
structure Built (s s' : FlowopShm A n) (hdp : FlowopList n) (threadflow : Option ThreadPtr)
    (B F F' : FlowForest n) : Prop where
  unchanged : Unchanged s s' B.tops hdp
  fresh : ∀ p ∈ F'.nodes, ¬ s.Allocated p
  allocated : ∀ p ∈ F'.nodes, s'.Allocated p
  only : ∀ r, s'.Allocated r → s.Allocated r ∨ r ∈ F'.nodes
  nodup : F'.nodes.Nodup
  represents : Represents s' (s'.hd hdp) (B.append F')
  copies : Copies s s' threadflow (F.take s.pool.avail) F'
  avail : s'.pool.avail = s.pool.avail - F.size
  global : ∀ gl, (∀ p ∈ gl, s.Allocated p) → IsList s.next s.shmFlowoplist gl →
    IsList s'.next s'.shmFlowoplist (F'.nodes.reverse ++ gl)

theorem Unchanged.flowop_eq {E : List (Fin n)} {hdp : FlowopList n} (h : Unchanged s s' E hdp)
    {r : Fin n} (hr : s.Allocated r) (hE : r ∉ E) (hhd : hdp ≠ .inner r) :
    s'.flowop r = s.flowop r := by
  have hfields := h.fields r hr
  have hexec := h.exec r hr hE
  have hcomp := h.comp r hr hhd
  unfold ShmFlowop.unlinked at hfields
  unfold FlowopShm.execNext at hexec
  unfold FlowopShm.compFops at hcomp
  cases hf : s'.flowop r
  cases hf' : s.flowop r
  simp_all

theorem foAttrs_of_unlinked {f g : ShmFlowop A n} (h : f.unlinked = g.unlinked) :
    f.foAttrs = g.foAttrs := by
  have ha : f.unlinked.foAttrs = g.unlinked.foAttrs := by rw [h]
  exact ha

theorem foMethods_of_unlinked {f g : ShmFlowop A n} (h : f.unlinked = g.unlinked) :
    f.foMethods = g.foMethods := by
  have hm : f.unlinked.foMethods = g.unlinked.foMethods := by rw [h]
  exact hm

theorem RuntimeCopy.of_unlinked {f g f' g' : ShmFlowop A n} {threadflow : Option ThreadPtr}
    (h : RuntimeCopy f f' threadflow) (hf : g.unlinked = f.unlinked) (hf' : g'.unlinked = f'.unlinked) :
    RuntimeCopy g g' threadflow := by
  have hg : ∀ {x y : ShmFlowop A n}, x.unlinked = y.unlinked →
      x.foName = y.foName ∧ x.foMethods = y.foMethods ∧ x.foAttrs = y.foAttrs ∧
        x.foInstance = y.foInstance ∧ x.foThread = y.foThread := by
    intro x y hxy
    injection hxy with h₁ h₂ h₃ h₄ h₅
    exact ⟨h₁, h₃, h₄, h₂, h₅⟩
  obtain ⟨hn, hm, ha, -, -⟩ := hg hf
  obtain ⟨hn', hm', ha', hi', ht'⟩ := hg hf'
  exact ⟨hn'.trans (h.name.trans hn.symm), hm'.trans (h.methods.trans hm.symm),
    ha'.trans (h.attrs.trans ha.symm), hi'.trans h.inst, ht'.trans h.thread⟩

theorem RuntimeCopy.touched {f : ShmFlowop A n} {threadflow : Option ThreadPtr} {p r : Fin n}
    (h : RuntimeCopy f (s.flowop r) threadflow) (ht : Touched s s' p) :
    RuntimeCopy f (s'.flowop r) threadflow :=
  ⟨(ht.field (·.foName) (fun _ _ _ _ => rfl) r).trans h.name,
    (ht.field (·.foMethods) (fun _ _ _ _ => rfl) r).trans h.methods,
    (ht.field (·.foAttrs) (fun _ _ _ _ => rfl) r).trans h.attrs,
    (ht.field (·.foInstance) (fun _ _ _ _ => rfl) r).trans h.inst,
    (ht.field (·.foThread) (fun _ _ _ _ => rfl) r).trans h.thread⟩

theorem Defined.runtimeCopy {hdp : FlowopList n} {B : List (Fin n)} {p : Fin n}
    {f : ShmFlowop A n} {threadflow : Option ThreadPtr}
    (h : Defined s s' hdp B p (f.inherited threadflow f.foName 1)) :
    RuntimeCopy f (s'.flowop p) threadflow := by
  rw [h.flowop]
  exact ⟨rfl, rfl, rfl, rfl, rfl⟩

theorem Copies.congr {threadflow : Option ThreadPtr} {t t' : FlowopShm A n} {F F' : FlowForest n}
    (h : Copies s s' threadflow F F')
    (hF : ∀ p ∈ F.nodes, (t.flowop p).unlinked = (s.flowop p).unlinked)
    (hF' : ∀ p ∈ F'.nodes, (t'.flowop p).unlinked = (s'.flowop p).unlinked) :
    Copies t t' threadflow F F' := by
  induction F generalizing F' with
  | nil => cases F' with
    | nil => trivial
    | cons => exact h.elim
  | cons p inner rest ihi ihr => cases F' with
    | nil => exact h.elim
    | cons p' inner' rest' =>
      refine ⟨RuntimeCopy.of_unlinked h.1 (hF p (.head _)) (hF' p' (.head _)),
        ihi h.2.1 ?_ ?_, ihr h.2.2 ?_ ?_⟩
      · exact fun q hq => hF q (.tail _ (List.mem_append_left _ hq))
      · exact fun q hq => hF' q (.tail _ (List.mem_append_left _ hq))
      · exact fun q hq => hF q (.tail _ (List.mem_append_right _ hq))
      · exact fun q hq => hF' q (.tail _ (List.mem_append_right _ hq))

theorem Copies.append {threadflow : Option ThreadPtr} {F F' G G' : FlowForest n}
    (hF : Copies s s' threadflow F F') (hG : Copies s s' threadflow G G') :
    Copies s s' threadflow (F.append G) (F'.append G') := by
  induction F generalizing F' with
  | nil => cases F' with
    | nil => exact hG
    | cons => exact hF.elim
  | cons p inner rest _ ih => cases F' with
    | nil => exact hF.elim
    | cons p' inner' rest' => exact ⟨hF.1, hF.2.1, ih hF.2.2⟩

theorem Copies.eq_nil {threadflow : Option ThreadPtr} {F' : FlowForest n}
    (h : Copies s s' threadflow .nil F') : F' = .nil := by
  cases F' with
  | nil => rfl
  | cons => exact h.elim

theorem nodes_take_subset {F : FlowForest n} {k : ℕ} {p : Fin n} (h : p ∈ (F.take k).nodes) :
    p ∈ F.nodes := by
  induction F generalizing k with
  | nil => rwa [FlowForest.take_nil] at h
  | cons q inner rest ihi ihr => cases k with
    | zero => cases h
    | succ k =>
      rw [FlowForest.take, FlowForest.nodes, List.mem_cons, List.mem_append] at h
      rw [FlowForest.nodes, List.mem_cons, List.mem_append]
      exact h.imp_right (Or.imp ihi ihr)

/-- One forest after another. -/
theorem Built.append {hdp : FlowopList n} {threadflow : Option ThreadPtr}
    {B G G' H H' : FlowForest n} (hG : Built s s₁ hdp threadflow B G G')
    (hH : Built s₁ s₂ hdp threadflow (B.append G') H H')
    (halloc : ∀ p ∈ H.nodes, s.Allocated p) :
    Built s s₂ hdp threadflow B (G.append H) (G'.append H') := by
  have hold : ∀ r ∈ (B.append G').tops, s.Allocated r → r ∈ B.tops := by
    intro r hr hrs
    rw [FlowForest.tops_append, List.mem_append] at hr
    exact hr.resolve_right fun h => hG.fresh r (FlowForest.tops_subset h) hrs
  constructor
  · exact hG.unchanged.trans hH.unchanged hold (.inl rfl)
  · intro p hp hps
    rw [FlowForest.nodes_append, List.mem_append] at hp
    rcases hp with hp | hp
    · exact hG.fresh p hp hps
    · exact hH.fresh p hp (hG.unchanged.allocated p hps)
  · intro p hp
    rw [FlowForest.nodes_append, List.mem_append] at hp
    rcases hp with hp | hp
    · exact hH.unchanged.allocated p (hG.allocated p hp)
    · exact hH.allocated p hp
  · intro r hr
    rw [FlowForest.nodes_append, List.mem_append, ← or_assoc]
    exact (hH.only r hr).imp_left (hG.only r)
  · rw [FlowForest.nodes_append]
    refine List.nodup_append.mpr ⟨hG.nodup, hH.nodup, ?_⟩
    rintro p hp q hq rfl
    exact hH.fresh p hq (hG.allocated p hp)
  · rw [← FlowForest.append_assoc]
    exact hH.represents
  · rw [FlowForest.take_append, ← hG.avail]
    refine .append (hG.copies.congr (fun _ _ => rfl) fun p hp => ?_)
      (hH.copies.congr (fun p hp => ?_) fun _ _ => rfl)
    · exact hH.unchanged.fields p (hG.allocated p hp)
    · exact (hG.unchanged.fields p (halloc p (nodes_take_subset hp))).symm
  · rw [hH.avail, hG.avail, FlowForest.size_append]
    omega
  · intro gl hgl hlist
    rw [FlowForest.nodes_append, List.reverse_append, List.append_assoc]
    refine hH.global _ (fun p hp => ?_) (hG.global gl hgl hlist)
    rcases List.mem_append.mp hp with hp | hp
    · exact hG.allocated p (List.mem_reverse.mp hp)
    · exact hG.unchanged.allocated p (hgl p hp)

/-- One flowop with its inner ones. -/
theorem Built.single {hdp : FlowopList n} {threadflow : Option ThreadPtr} {s₃ s₄ : FlowopShm A n}
    {B inner inner' : FlowForest n} {p p' : Fin n} (hB : Represents s (s.hd hdp) B)
    (hBalloc : ∀ q ∈ B.nodes, s.Allocated q) (hBnodup : B.nodes.Nodup)
    (howner : ∀ q, hdp = .inner q → s.Allocated q ∧ q ∉ B.nodes)
    (hinner : ∀ q ∈ inner.nodes, s.Allocated q)
    (hlib : (s.flowop p).foMethods = .library → inner = .nil)
    (hdef : Defined s s₁ hdp B.tops p'
      ((s.flowop p).inherited threadflow (s.flowop p).foName 1))
    (htouch : Touched s₁ s₃ p') (hin : Built s₃ s₄ (.inner p') threadflow .nil inner inner') :
    Built s s₄ hdp threadflow B (.cons p inner .nil) (.cons p' inner' .nil) := by
  have hunch₃ : Unchanged s s₃ B.tops hdp := hdef.unchanged.touched htouch hdef.fresh
  have hunch : Unchanged s s₄ B.tops hdp :=
    hunch₃.trans hin.unchanged (fun _ hr _ => nomatch hr) (.inr ⟨p', rfl, hdef.fresh⟩)
  have hp'₃ : s₃.Allocated p' := by
    rw [FlowopShm.Allocated, htouch.pool]
    exact hdef.allocated
  have hfresh : ∀ q ∈ inner'.nodes, ¬ s.Allocated q :=
    fun q hq hqs => hin.fresh q hq (hunch₃.allocated q hqs)
  have hcopy : RuntimeCopy (s.flowop p) (s₄.flowop p') threadflow :=
    .of_unlinked (hdef.runtimeCopy.touched htouch) rfl (hin.unchanged.fields p' hp'₃)
  have hhd : s₄.hd hdp = s₁.hd hdp := by
    rw [← htouch.hd]
    cases hdp with
    | thread t => exact hin.unchanged.heads t nofun
    | inner q =>
      have hq := (howner q rfl).1
      refine hin.unchanged.comp q (hunch₃.allocated q hq) ?_
      rintro ⟨⟩
      exact hdef.fresh hq
  constructor
  case unchanged => exact hunch
  case fresh =>
    intro q hq
    rw [FlowForest.nodes_single, List.mem_cons] at hq
    rcases hq with rfl | hq
    · exact hdef.fresh
    · exact hfresh q hq
  case allocated =>
    intro q hq
    rw [FlowForest.nodes_single, List.mem_cons] at hq
    rcases hq with rfl | hq
    · exact hin.unchanged.allocated q hp'₃
    · exact hin.allocated q hq
  case only =>
    intro r hr
    rw [FlowForest.nodes_single, List.mem_cons, ← or_assoc]
    refine (hin.only r hr).imp_left fun hr₃ => hdef.only r ?_
    rwa [FlowopShm.Allocated, htouch.pool] at hr₃
  case nodup =>
    rw [FlowForest.nodes_single]
    exact List.nodup_cons.mpr ⟨fun h => hin.fresh p' h hp'₃, hin.nodup⟩
  case represents =>
    constructor
    · rw [hhd, FlowForest.tops_append]
      refine hdef.tops.congr fun q hq => ?_
      have hq₃ : s₃.Allocated q := by
        rcases List.mem_append.mp hq with hq | hq
        · exact hunch₃.allocated q (hBalloc q (FlowForest.tops_subset hq))
        · exact List.mem_singleton.mp hq ▸ hp'₃
      rw [hin.unchanged.exec q hq₃ nofun, htouch.execNext]
    · refine nested_append.mpr ⟨hB.nested.congr ?_ ?_ ?_, hin.represents.tops, ?_, ?_, trivial⟩
      · intro q hq
        refine hunch.comp q (hBalloc q hq) ?_
        rintro rfl
        exact (howner q rfl).2 hq
      · intro q hq
        exact foMethods_of_unlinked (hunch.fields q (hBalloc q hq))
      · intro q hq
        exact hunch.exec q (hBalloc q (FlowForest.deep_subset hq))
          fun h => FlowForest.tops_disjoint_deep hBnodup h hq
      · intro hmethods
        have hcopies := hin.copies
        rw [hlib (hcopy.methods.symm.trans hmethods), FlowForest.take_nil] at hcopies
        exact hcopies.eq_nil
      · exact hin.represents.nested
  case copies =>
    obtain ⟨k, hk⟩ : ∃ k, s.pool.avail = k + 1 := ⟨s₁.pool.avail, hdef.avail.symm⟩
    have hk₃ : s₃.pool.avail = k := by
      have := hdef.avail
      rw [htouch.pool]
      omega
    rw [hk, FlowForest.take, FlowForest.take_nil, ← hk₃]
    refine ⟨hcopy, hin.copies.congr (fun q hq => ?_) fun _ _ => rfl, trivial⟩
    exact (hunch₃.fields q (hinner q (nodes_take_subset hq))).symm
  case avail =>
    have := hdef.avail
    rw [hin.avail, htouch.pool, FlowForest.size, FlowForest.size]
    omega
  case global =>
    intro gl hgl hlist
    have hp'gl : p' ∉ gl := fun h => hdef.fresh (hgl p' h)
    have hlist₃ : IsList s₃.next s₃.shmFlowoplist (p' :: gl) := by
      rw [htouch.next, htouch.flowoplist]
      refine ⟨hdef.flowoplist, ?_⟩
      rw [hdef.next, Function.update_self]
      exact hlist.update hp'gl
    rw [FlowForest.nodes_single, List.reverse_cons, List.append_assoc]
    refine hin.global (p' :: gl) (fun q hq => ?_) hlist₃
    rcases List.mem_cons.mp hq with rfl | hq
    · exact hp'₃
    · exact hunch₃.allocated q (hgl q hq)

end Filebench
