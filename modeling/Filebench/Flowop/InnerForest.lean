import Filebench.Flowop.InnerDefine

/-! # The inner flowops of a use

What the definition of a composite flowop unfolds to. The definition may use the same inner flowops
in several places, the flowops that are made of it are all different. -/
namespace Filebench

open Fuel Linked

variable {D : Type} {n : ℕ} {s s' s₁ s₂ s₃ s₄ t t' : ScriptShm D n} {env : DefineEnv}
  {thread : Option ThreadPtr} {m p p' : Fin n}

/-- A flowop `p'` inside of `m` that was made of the inner flowop `p` of a definition. -/
structure MasterOf (s s' : ScriptShm D n) (thread : Option ThreadPtr) (m p p' : Fin n) :
    Prop where
  name : (s'.flowops.flowop p').foName =
    (s'.flowops.flowop m).foName ++ '.' :: (s.flowops.flowop p).foName
  short : (s'.flowops.flowop p').foName.length < foNameSize
  methods : (s'.flowops.flowop p').foMethods = (s.flowops.flowop p).foMethods
  inst : (s'.flowops.flowop p').foInstance = flowMaster
  thread : (s'.flowops.flowop p').foThread = thread
  avd : ∀ a, (s'.attrs p').avd a = ((s.attrs p).avd a).map
    (boundAvd s'.vars (s'.attrs m).foLvarList)^[(updates (s.flowops.flowop p).foMethods).count a]
  within : ∀ q ∈ (s'.attrs p').foLvarList, q < s'.vars.requests
  lvars : (s.flowops.flowop p).foMethods = .composite →
    ∃ news, (s'.attrs p').foLvarList = news.reverse ∧ (∀ q ∈ news, s.vars.requests ≤ q) ∧
      List.Forall₂ (TakenOver s'.vars (s.attrs p).foLvarList (s'.attrs m).foLvarList)
        (s.attrs p).foLvarList news

/-- The second forest, inside of `m`, was made of the first one. -/
def Masters (s s' : ScriptShm D n) (thread : Option ThreadPtr) :
    Fin n → FlowForest n → FlowForest n → Prop
  | _, .nil, .nil => True
  | m, .cons p inner rest, .cons p' inner' rest' =>
    MasterOf s s' thread m p p' ∧ Masters s s' thread p' inner inner' ∧
      Masters s s' thread m rest rest'
  | _, _, _ => False

theorem unlinked_fields {A : Type} {f g : ShmFlowop A n} (h : f.unlinked = g.unlinked) :
    f.foName = g.foName ∧ f.foMethods = g.foMethods ∧ f.foAttrs = g.foAttrs ∧
      f.foInstance = g.foInstance ∧ f.foThread = g.foThread := by
  injection h with h₁ h₂ h₃ h₄ h₅
  exact ⟨h₁, h₃, h₄, h₂, h₅⟩

/-- What later happens to other flowops and to new variables does not matter. -/
theorem MasterOf.congr (h : MasterOf s s' thread m p p')
    (hp : (t.flowops.flowop p).unlinked = (s.flowops.flowop p).unlinked)
    (hreq : t.vars.requests ≤ s.vars.requests)
    (hp' : (t'.flowops.flowop p').unlinked = (s'.flowops.flowop p').unlinked)
    (hm : (t'.flowops.flowop m).unlinked = (s'.flowops.flowop m).unlinked)
    (he : Extends s'.vars t'.vars) (hr : Rooted s'.vars)
    (hwithin : (s.attrs p).Within s'.vars.requests)
    (hlvars : ∀ q ∈ (s'.attrs m).foLvarList, q < s'.vars.requests) :
    MasterOf t t' thread m p p' := by
  obtain ⟨hname, hmethods, hattrs, -, -⟩ := unlinked_fields hp
  obtain ⟨hname', hmethods', hattrs', hinst', hthread'⟩ := unlinked_fields hp'
  obtain ⟨hnamem, -, hattrsm, -, -⟩ := unlinked_fields hm
  have has : t.attrs p = s.attrs p := hattrs
  have has' : t'.attrs p' = s'.attrs p' := hattrs'
  have hasm : t'.attrs m = s'.attrs m := hattrsm
  constructor
  · rw [hname', hnamem, hname]
    exact h.name
  · rw [hname']
    exact h.short
  · rw [hmethods', hmethods]
    exact h.methods
  · rw [hinst']
    exact h.inst
  · rw [hthread']
    exact h.thread
  · intro a
    rw [has', has, hasm, hmethods, h.avd a]
    cases ha : (s.attrs p).avd a with
    | none => rfl
    | some avd =>
      rw [Option.map_some, Option.map_some,
        (boundAvd_iterate_extends hr he hlvars (hwithin.avd a avd ha) _).1]
  · rw [has']
    exact fun q hq => (h.within q hq).trans_le he.requests
  · rw [has', has, hasm, hmethods]
    intro hcomp
    obtain ⟨news, hnews, hfresh, hall⟩ := h.lvars hcomp
    refine ⟨news, hnews, fun q hq => hreq.trans (hfresh q hq), ?_⟩
    have hmem : ∀ l ∈ (s.attrs p).foLvarList, l < s'.vars.requests := hwithin.lvars
    refine ((List.forall₂_and_left _ _).mpr ⟨hmem, hall⟩).imp fun l q hlq => ?_
    exact hlq.2.extends hr hmem hlvars hlq.1 he

theorem Masters.congr {F F' : FlowForest n} (h : Masters s s' thread m F F')
    (hF : ∀ p ∈ F.nodes, (t.flowops.flowop p).unlinked = (s.flowops.flowop p).unlinked)
    (hreq : t.vars.requests ≤ s.vars.requests)
    (hF' : ∀ p ∈ F'.nodes, (t'.flowops.flowop p).unlinked = (s'.flowops.flowop p).unlinked)
    (hm : (t'.flowops.flowop m).unlinked = (s'.flowops.flowop m).unlinked)
    (he : Extends s'.vars t'.vars) (hr : Rooted s'.vars)
    (hwithin : ∀ p ∈ F.nodes, (s.attrs p).Within s'.vars.requests)
    (hlvars : ∀ q ∈ (s'.attrs m).foLvarList, q < s'.vars.requests) :
    Masters t t' thread m F F' := by
  induction F generalizing F' m with
  | nil => cases F' with
    | nil => trivial
    | cons => exact h.elim
  | cons p inner rest ihi ihr => cases F' with
    | nil => exact h.elim
    | cons p' inner' rest' =>
      obtain ⟨hone, hinner, hrest⟩ := h
      have hp' := hF' p' (.head _)
      refine ⟨hone.congr (hF p (.head _)) hreq hp' hm he hr (hwithin p (.head _)) hlvars,
        ihi hinner ?_ ?_ hp' ?_ hone.within, ihr hrest ?_ ?_ hm ?_ hlvars⟩
      · exact fun q hq => hF q (.tail _ (List.mem_append_left _ hq))
      · exact fun q hq => hF' q (.tail _ (List.mem_append_left _ hq))
      · exact fun q hq => hwithin q (.tail _ (List.mem_append_left _ hq))
      · exact fun q hq => hF q (.tail _ (List.mem_append_right _ hq))
      · exact fun q hq => hF' q (.tail _ (List.mem_append_right _ hq))
      · exact fun q hq => hwithin q (.tail _ (List.mem_append_right _ hq))

theorem Masters.append {F F' G G' : FlowForest n} (hF : Masters s s' thread m F F')
    (hG : Masters s s' thread m G G') : Masters s s' thread m (F.append G) (F'.append G') := by
  induction F generalizing F' with
  | nil => cases F' with
    | nil => exact hG
    | cons => exact hF.elim
  | cons p inner rest _ ih => cases F' with
    | nil => exact hF.elim
    | cons p' inner' rest' => exact ⟨hF.1, hF.2.1, ih hF.2.2⟩

theorem Masters.eq_nil {F' : FlowForest n} (h : Masters s s' thread m .nil F') : F' = .nil := by
  cases F' with
  | nil => rfl
  | cons => exact h.elim

/-! ## The loop -/

/-- The flowops that were made of `F` have come to the end of the inner flowops `B` of `m`. -/
structure Compiled (s s' : ScriptShm D n) (thread : Option ThreadPtr) (m : Fin n)
    (B F F' : FlowForest n) : Prop where
  unchanged : Unchanged s.flowops s'.flowops B.tops (.inner m)
  fresh : ∀ p ∈ F'.nodes, ¬ s.flowops.Allocated p
  allocated : ∀ p ∈ F'.nodes, s'.flowops.Allocated p
  only : ∀ r, s'.flowops.Allocated r → s.flowops.Allocated r ∨ r ∈ F'.nodes
  nodup : F'.nodes.Nodup
  represents : Represents s'.flowops (s'.flowops.compFops m) (B.append F')
  masters : Masters s s' thread m F F'
  avail : s'.flowops.pool.avail + F.size = s.flowops.pool.avail
  global : ∀ gl, (∀ p ∈ gl, s.flowops.Allocated p) →
    IsList s.flowops.next s.flowops.shmFlowoplist gl →
      IsList s'.flowops.next s'.flowops.shmFlowoplist (F'.nodes.reverse ++ gl)
  vars : Extends s.vars s'.vars
  rooted : Rooted s'.vars

/-- The inner flowops `F` of a definition from `c` on are still to be made, at the end of the inner
flowops `B` of `m`. -/
structure DefineReady (s : ScriptShm D n) (m : Fin n) (B F : FlowForest n)
    (c : Option (Fin n)) : Prop where
  definition : Represents s.flowops c F
  allocated : ∀ p ∈ F.nodes, s.flowops.Allocated p
  built : Represents s.flowops (s.flowops.compFops m) B
  builtAllocated : ∀ p ∈ B.nodes, s.flowops.Allocated p
  nodup : B.nodes.Nodup
  disjoint : ∀ p ∈ B.nodes, p ∉ F.nodes
  owner : s.flowops.Allocated m
  ownerB : m ∉ B.nodes
  ownerF : m ∉ F.nodes
  within : ∀ p ∈ F.nodes, (s.attrs p).Within s.vars.requests
  lvars : ∀ q ∈ (s.attrs m).foLvarList, q < s.vars.requests
  rooted : Rooted s.vars
  ample : Ample s.vars

theorem DefineReady.compiled_nil {B : FlowForest n} {c : Option (Fin n)}
    (h : DefineReady s m B .nil c) (thread : Option ThreadPtr) :
    Compiled s s thread m B .nil .nil := by
  constructor
  · exact .refl s.flowops _ _
  · nofun
  · nofun
  · exact fun _ => .inl
  · exact .nil
  · rw [FlowForest.append_nil]
    exact h.built
  · trivial
  · rfl
  · exact fun gl _ h => h
  · exact .refl _
  · exact h.rooted

theorem attrs_of_unlinked {q : Fin n}
    (h : (s'.flowops.flowop q).unlinked = (s.flowops.flowop q).unlinked) :
    s'.attrs q = s.attrs q := foAttrs_of_unlinked h

theorem FlowopAttrs.Within.mono {as : FlowopAttrs D} {a b : ℕ} (h : as.Within a) (hab : a ≤ b) :
    as.Within b :=
  ⟨fun x avd hx => (h.avd x avd hx).mono hab, fun q hq => (h.lvars q hq).trans_le hab⟩

/-- One flowop of a definition is not written while another one is made. -/
theorem DefineReady.flowop_eq {B F : FlowForest n} {c : Option (Fin n)} {written : List (Fin n)}
    (hr : DefineReady s m B F c) (h : Unchanged s.flowops s'.flowops written (.inner m))
    (hwritten : ∀ q ∈ written, q ∈ B.nodes) {q : Fin n} (hq : q ∈ F.nodes) :
    s'.flowops.flowop q = s.flowops.flowop q := by
  refine h.flowop_eq (hr.allocated q hq) (fun hB => hr.disjoint q (hwritten q hB) hq) ?_
  rintro ⟨⟩
  exact hr.ownerF hq

/-- The rest of a definition after some of its flowops were made. -/
theorem DefineReady.next {B F G G' rest : FlowForest n} {c c' : Option (Fin n)}
    (hr : DefineReady s m B F c) (hrest : Represents s.flowops c' rest)
    (hsub : ∀ q ∈ rest.nodes, q ∈ F.nodes) (h : Compiled s s' thread m B G G') :
    DefineReady s' m (B.append G') rest c' := by
  have hsame : ∀ q ∈ rest.nodes, s'.flowops.flowop q = s.flowops.flowop q :=
    fun q hq => hr.flowop_eq h.unchanged (fun _ => FlowForest.tops_subset) (hsub q hq)
  constructor
  · exact hrest.congr hsame
  · exact fun q hq => h.unchanged.allocated q (hr.allocated q (hsub q hq))
  · exact h.represents
  · intro q hq
    rw [FlowForest.nodes_append, List.mem_append] at hq
    exact hq.elim (fun hq => h.unchanged.allocated q (hr.builtAllocated q hq)) (h.allocated q)
  · rw [FlowForest.nodes_append]
    refine List.nodup_append.mpr ⟨hr.nodup, h.nodup, ?_⟩
    rintro q hq _ hq' rfl
    exact h.fresh q hq' (hr.builtAllocated q hq)
  · intro q hq hq'
    rw [FlowForest.nodes_append, List.mem_append] at hq
    rcases hq with hq | hq
    · exact hr.disjoint q hq (hsub q hq')
    · exact h.fresh q hq (hr.allocated q (hsub q hq'))
  · exact h.unchanged.allocated m hr.owner
  · intro hmem
    rw [FlowForest.nodes_append, List.mem_append] at hmem
    exact hmem.elim hr.ownerB fun hG => h.fresh m hG hr.owner
  · exact fun hmem => hr.ownerF (hsub m hmem)
  · intro q hq
    have has : s'.attrs q = s.attrs q := congrArg ShmFlowop.foAttrs (hsame q hq)
    rw [has]
    exact (hr.within q (hsub q hq)).mono h.vars.requests
  · rw [attrs_of_unlinked (h.unchanged.fields m hr.owner)]
    exact fun q hq => (hr.lvars q hq).trans_le h.vars.requests
  · exact h.rooted
  · exact hr.ample.extends h.vars

/-- Some flowops of a definition, and then more of it. -/
theorem Compiled.append {B G G' H H' : FlowForest n} {c : Option (Fin n)}
    (hr : DefineReady s m B (G.append H) c) (hG : Compiled s s₁ thread m B G G')
    (hH : Compiled s₁ s₂ thread m (B.append G') H H') :
    Compiled s s₂ thread m B (G.append H) (G'.append H') := by
  have hold : ∀ r ∈ (B.append G').tops, s.flowops.Allocated r → r ∈ B.tops := by
    intro r hr hrs
    rw [FlowForest.tops_append, List.mem_append] at hr
    exact hr.resolve_right fun h => hG.fresh r (FlowForest.tops_subset h) hrs
  have hnodes : ∀ q, q ∈ (G.append H).nodes ↔ q ∈ G.nodes ∨ q ∈ H.nodes := by
    intro q
    rw [FlowForest.nodes_append, List.mem_append]
  have hmasters : Masters s s₂ thread m G G' := by
    refine hG.masters.congr (fun _ _ => rfl) le_rfl
      (fun q hq => hH.unchanged.fields q (hG.allocated q hq))
      (hH.unchanged.fields m (hG.unchanged.allocated m hr.owner)) hH.vars hG.rooted ?_ ?_
    · intro q hq
      exact (hr.within q ((hnodes q).mpr (.inl hq))).mono hG.vars.requests
    · rw [attrs_of_unlinked (hG.unchanged.fields m hr.owner)]
      exact fun q hq => (hr.lvars q hq).trans_le hG.vars.requests
  have hmasters' : Masters s s₂ thread m H H' := by
    have hext : Extends s₂.vars s₂.vars := .refl _
    refine hH.masters.congr (fun q hq => ?_) hG.vars.requests (fun _ _ => rfl) rfl hext
      hH.rooted (fun q hq => ?_) ?_
    · exact (hG.unchanged.fields q (hr.allocated q ((hnodes q).mpr (.inr hq)))).symm
    · rw [attrs_of_unlinked
        (hG.unchanged.fields q (hr.allocated q ((hnodes q).mpr (.inr hq))))]
      exact (hr.within q ((hnodes q).mpr (.inr hq))).mono
        (hG.vars.requests.trans hH.vars.requests)
    · rw [attrs_of_unlinked ((hH.unchanged.fields m (hG.unchanged.allocated m hr.owner)).trans
        (hG.unchanged.fields m hr.owner))]
      exact fun q hq => (hr.lvars q hq).trans_le (hG.vars.requests.trans hH.vars.requests)
  constructor
  · exact hG.unchanged.trans hH.unchanged hold (.inl rfl)
  · intro p hp hps
    rw [FlowForest.nodes_append, List.mem_append] at hp
    rcases hp with hp | hp
    · exact hG.fresh p hp hps
    · exact hH.fresh p hp (hG.unchanged.allocated p hps)
  · intro p hp
    rw [FlowForest.nodes_append, List.mem_append] at hp
    rcases hp with hp | hp
    · exact hH.unchanged.allocated p (hG.allocated p hp)
    · exact hH.allocated p hp
  · intro r hr
    rw [FlowForest.nodes_append, List.mem_append, ← or_assoc]
    exact (hH.only r hr).imp_left (hG.only r)
  · rw [FlowForest.nodes_append]
    refine List.nodup_append.mpr ⟨hG.nodup, hH.nodup, ?_⟩
    rintro p hp q hq rfl
    exact hH.fresh p hq (hG.allocated p hp)
  · rw [← FlowForest.append_assoc]
    exact hH.represents
  · exact hmasters.append hmasters'
  · have hG' := hG.avail
    have hH' := hH.avail
    rw [FlowForest.size_append]
    omega
  · intro gl hgl hlist
    rw [FlowForest.nodes_append, List.reverse_append, List.append_assoc]
    refine hH.global _ (fun p hp => ?_) (hG.global gl hgl hlist)
    rcases List.mem_append.mp hp with hp | hp
    · exact hG.allocated p (List.mem_reverse.mp hp)
    · exact hG.unchanged.allocated p (hgl p hp)
  · exact hG.vars.trans hH.vars
  · exact hH.rooted

/-! ## One flowop -/

theorem fullname_eq {compName name : CString}
    (h : (fullname env compName name).length < foNameSize) :
    fullname env compName name = compName ++ '.' :: name := by
  have hlong := env.long
  unfold fullname at h ⊢
  refine List.take_of_length_le ?_
  rw [List.length_take] at h
  omega

theorem fullname_short {compName name : CString}
    (h : compName.length + 1 + name.length < foNameSize) :
    (fullname env compName name).length < foNameSize := by
  unfold fullname
  rw [List.length_take, List.length_append, List.length_cons]
  omega

/-- What is written into a flowop that is not allocated yet in `s`. -/
theorem Unchanged.filledIn {E : List (Fin n)} {hdp : FlowopList n}
    (h : Unchanged s.flowops s₁.flowops E hdp) (hf : FilledIn s₁ s₂ p)
    (hp : ¬ s.flowops.Allocated p) : Unchanged s.flowops s₂.flowops E hdp := by
  have hne : ∀ r, s.flowops.Allocated r → r ≠ p := by
    rintro r hr rfl
    exact hp hr
  constructor
  · intro r hr
    rw [FlowopShm.Allocated, hf.pool]
    exact h.allocated r hr
  · intro r hr hrE
    rw [hf.execNext, h.exec r hr hrE]
  · intro r hr hhd
    rw [FlowopShm.compFops, hf.others r (hne r hr)]
    exact h.comp r hr hhd
  · intro r hr
    rw [hf.others r (hne r hr), h.fields r hr]
  · intro t ht
    rw [hf.heads, h.heads t ht]

/-- The new flowop `p'` for the inner flowop `p` of a definition, before its own inner flowops are
made in the state `s₃`. -/
structure NewInner (env : DefineEnv) (s s₁ s₂ s₃ : ScriptShm D n) (thread : Option ThreadPtr)
    (m : Fin n) (B : FlowForest n) (p p' : Fin n) : Prop where
  defined : Defined s.flowops s₁.flowops (.inner m) B.tops p'
    ((s.flowops.flowop p).inherited thread
      (fullname env (s.flowops.flowop m).foName (s.flowops.flowop p).foName) flowMaster)
  vars : s₁.vars = s.vars
  short : (fullname env (s.flowops.flowop m).foName (s.flowops.flowop p).foName).length <
    foNameSize
  filled : InnerFilled s₁ s₂ p' (s.flowops.flowop p).foMethods (s.attrs m).foLvarList
  started : FilledIn s₂ s₃ p'
  attrs : s₃.attrs p' = s₂.attrs p'
  varsStarted : s₃.vars = s₂.vars

theorem NewInner.filledIn {B : FlowForest n} (h : NewInner env s s₁ s₂ s₃ thread m B p p') :
    FilledIn s₁ s₃ p' := h.filled.filled.trans h.started

theorem NewInner.extends {B : FlowForest n} (h : NewInner env s s₁ s₂ s₃ thread m B p p') :
    Extends s.vars s₃.vars := by
  rw [← h.vars]
  exact h.filledIn.vars

theorem NewInner.unchanged {B : FlowForest n} (h : NewInner env s s₁ s₂ s₃ thread m B p p') :
    Unchanged s.flowops s₃.flowops B.tops (.inner m) :=
  h.defined.unchanged.filledIn h.filledIn h.defined.fresh

/-- The attributes that the new flowop has inherited. -/
theorem NewInner.inherited {B : FlowForest n} (h : NewInner env s s₁ s₂ s₃ thread m B p p') :
    s₁.attrs p' = s.attrs p := by
  rw [ScriptShm.attrs, h.defined.flowop]
  rfl

theorem NewInner.name {B : FlowForest n} (h : NewInner env s s₁ s₂ s₃ thread m B p p') :
    (s₃.flowops.flowop p').foName =
      (s.flowops.flowop m).foName ++ '.' :: (s.flowops.flowop p).foName := by
  rw [h.filledIn.field (·.foName) (fun _ _ _ _ => rfl), h.defined.flowop]
  exact fullname_eq h.short

/-- The local variables of the new flowop, for its own inner flowops. -/
theorem NewInner.lvars {B F : FlowForest n} {c : Option (Fin n)}
    (h : NewInner env s s₁ s₂ s₃ thread m B p p') (hr : DefineReady s m B F c) (hp : p ∈ F.nodes) :
    ∀ q ∈ (s₃.attrs p').foLvarList, q < s₃.vars.requests := by
  rw [h.attrs, h.varsStarted]
  cases hm : (s.flowops.flowop p).foMethods with
  | library =>
    rw [h.filled.plain hm, h.inherited]
    intro q hq
    have hlt := (hr.within p hp).lvars q hq
    rw [← h.vars] at hlt
    exact hlt.trans_le h.filled.filled.vars.requests
  | composite =>
    obtain ⟨news, hnews, -, hall⟩ := h.filled.taken hm
    rw [hnews]
    intro q hq
    obtain ⟨l, -, hlq⟩ : ∃ l ∈ (s₁.attrs p').foLvarList, TakenOver s₂.vars
        (s₁.attrs p').foLvarList (s.attrs m).foLvarList l q := by
      obtain ⟨i, hi, rfl⟩ := List.getElem_of_mem (List.mem_reverse.mp hq)
      have hlen := hall.length_eq
      exact ⟨_, List.getElem_mem (hlen ▸ hi), hall.get (hlen ▸ hi) hi⟩
    exact hlq.allocated

theorem NewInner.masterOf {B F inner inner' : FlowForest n} {c : Option (Fin n)}
    (h : NewInner env s s₁ s₂ s₃ thread m B p p') (hr : DefineReady s m B F c) (hp : p ∈ F.nodes)
    (hin : Compiled s₃ s₄ thread p' .nil inner inner') : MasterOf s s₄ thread m p p' := by
  have hp'₃ : s₃.flowops.Allocated p' := by
    rw [FlowopShm.Allocated, h.filledIn.pool]
    exact h.defined.allocated
  have hunlinked := hin.unchanged.fields p' hp'₃
  obtain ⟨hname, hmethods, -, hinst, hthread⟩ := unlinked_fields hunlinked
  have has : s₄.attrs p' = s₂.attrs p' := (attrs_of_unlinked hunlinked).trans h.attrs
  have hm₄ : (s₄.flowops.flowop m).unlinked = (s.flowops.flowop m).unlinked :=
    (hin.unchanged.fields m (h.unchanged.allocated m hr.owner)).trans
      (h.unchanged.fields m hr.owner)
  have hasm : s₄.attrs m = s.attrs m := attrs_of_unlinked hm₄
  have hext : Extends s₂.vars s₄.vars := h.varsStarted ▸ hin.vars
  have hle : s.vars.requests ≤ s₂.vars.requests := by
    rw [← h.vars]
    exact h.filled.filled.vars.requests
  have hname₄ : (s₄.flowops.flowop p').foName =
      (s.flowops.flowop m).foName ++ '.' :: (s.flowops.flowop p).foName :=
    hname.trans h.name
  have hwithin := (hr.within p hp).mono hle
  have hlvars : ∀ q ∈ (s.attrs m).foLvarList, q < s₂.vars.requests :=
    fun q hq => (hr.lvars q hq).trans_le hle
  constructor
  · rw [hname₄, (unlinked_fields hm₄).1]
  · rw [hname₄, ← fullname_eq h.short]
    exact h.short
  · rw [hmethods, h.filledIn.field (·.foMethods) (fun _ _ _ _ => rfl), h.defined.flowop]
    rfl
  · rw [hinst, h.filledIn.field (·.foInstance) (fun _ _ _ _ => rfl), h.defined.flowop]
    rfl
  · rw [hthread, h.filledIn.field (·.foThread) (fun _ _ _ _ => rfl), h.defined.flowop]
    rfl
  · intro a
    rw [has, hasm, h.filled.avd a, h.inherited]
    cases ha : (s.attrs p).avd a with
    | none => rfl
    | some avd =>
      rw [Option.map_some, Option.map_some,
        (boundAvd_iterate_extends h.filled.rooted hext hlvars (hwithin.avd a avd ha) _).1]
  · rw [attrs_of_unlinked hunlinked]
    exact fun q hq => (h.lvars hr hp q hq).trans_le hin.vars.requests
  · intro hm
    obtain ⟨news, hnews, hfresh, hall⟩ := h.filled.taken hm
    rw [h.inherited] at hall
    refine ⟨news, has ▸ hnews, fun q hq => h.vars ▸ hfresh q hq, ?_⟩
    rw [hasm]
    refine ((List.forall₂_and_left _ _).mpr ⟨hwithin.lvars, hall⟩).imp fun l q hlq => ?_
    exact hlq.2.extends h.filled.rooted hwithin.lvars hlvars hlq.1 hext

/-- One flowop with its inner ones. -/
theorem Compiled.single {B inner inner' rest : FlowForest n}
    (hr : DefineReady s m B (.cons p inner rest) (some p))
    (h : NewInner env s s₁ s₂ s₃ thread m B p p')
    (hin : Compiled s₃ s₄ thread p' .nil inner inner') :
    Compiled s s₄ thread m B (.cons p inner .nil) (.cons p' inner' .nil) := by
  have hunch₃ := h.unchanged
  have hfresh' := h.defined.fresh
  have hunch : Unchanged s.flowops s₄.flowops B.tops (.inner m) :=
    hunch₃.trans hin.unchanged (fun _ hr _ => nomatch hr) (.inr ⟨p', rfl, hfresh'⟩)
  have hp'₃ : s₃.flowops.Allocated p' := by
    rw [FlowopShm.Allocated, h.filledIn.pool]
    exact h.defined.allocated
  have hfresh : ∀ q ∈ inner'.nodes, ¬ s.flowops.Allocated q :=
    fun q hq hqs => hin.fresh q hq (hunch₃.allocated q hqs)
  have hmaster := h.masterOf hr (.head _) hin
  have hinnerF : ∀ q ∈ inner.nodes, q ∈ (FlowForest.cons p inner rest).nodes :=
    fun q hq => .tail _ (List.mem_append_left _ hq)
  have hcomp : s₄.flowops.compFops m = s₁.flowops.compFops m := by
    have hmp' : m ≠ p' := by
      rintro rfl
      exact hfresh' hr.owner
    rw [hin.unchanged.comp m (hunch₃.allocated m hr.owner) fun heq => hmp' (by cases heq; rfl),
      FlowopShm.compFops, h.filledIn.others m hmp']
    rfl
  constructor
  case unchanged => exact hunch
  case fresh =>
    intro q hq
    rw [FlowForest.nodes_single, List.mem_cons] at hq
    rcases hq with rfl | hq
    · exact hfresh'
    · exact hfresh q hq
  case allocated =>
    intro q hq
    rw [FlowForest.nodes_single, List.mem_cons] at hq
    rcases hq with rfl | hq
    · exact hin.unchanged.allocated q hp'₃
    · exact hin.allocated q hq
  case only =>
    intro r hr
    rw [FlowForest.nodes_single, List.mem_cons, ← or_assoc]
    refine (hin.only r hr).imp_left fun hr₃ => h.defined.only r ?_
    rwa [FlowopShm.Allocated, h.filledIn.pool] at hr₃
  case nodup =>
    rw [FlowForest.nodes_single]
    exact List.nodup_cons.mpr ⟨fun hmem => hin.fresh p' hmem hp'₃, hin.nodup⟩
  case represents =>
    constructor
    · rw [hcomp, FlowForest.tops_append]
      refine h.defined.tops.congr fun q hq => ?_
      have hq₃ : s₃.flowops.Allocated q := by
        rcases List.mem_append.mp hq with hq | hq
        · exact hunch₃.allocated q (hr.builtAllocated q (FlowForest.tops_subset hq))
        · exact List.mem_singleton.mp hq ▸ hp'₃
      rw [hin.unchanged.exec q hq₃ nofun, h.filledIn.execNext]
    · refine nested_append.mpr ⟨hr.built.nested.congr ?_ ?_ ?_, hin.represents.tops, ?_, ?_,
        trivial⟩
      · intro q hq
        refine hunch.comp q (hr.builtAllocated q hq) ?_
        rintro ⟨⟩
        exact hr.ownerB hq
      · intro q hq
        exact foMethods_of_unlinked (hunch.fields q (hr.builtAllocated q hq))
      · intro q hq
        exact hunch.exec q (hr.builtAllocated q (FlowForest.deep_subset hq))
          fun h => FlowForest.tops_disjoint_deep hr.nodup h hq
      · intro hmethods
        have hmasters := hin.masters
        rw [hr.definition.nested.2.1 (hmaster.methods.symm.trans hmethods)] at hmasters
        exact hmasters.eq_nil
      · exact hin.represents.nested
  case masters =>
    refine ⟨hmaster, ?_, trivial⟩
    have hinner : ∀ q ∈ inner.nodes,
        (s₃.flowops.flowop q).unlinked = (s.flowops.flowop q).unlinked :=
      fun q hq => hunch₃.fields q (hr.allocated q (hinnerF q hq))
    have hext₄ : Extends s₄.vars s₄.vars := .refl _
    refine hin.masters.congr (fun q hq => (hinner q hq).symm) h.extends.requests
      (fun _ _ => rfl) rfl hext₄ hin.rooted (fun q hq => ?_) hmaster.within
    rw [attrs_of_unlinked (hinner q hq)]
    exact (hr.within q (hinnerF q hq)).mono (h.extends.requests.trans hin.vars.requests)
  case avail =>
    have hdef := h.defined.avail
    have hinner := hin.avail
    have hpool := h.filledIn.pool
    rw [FlowForest.size, FlowForest.size]
    rw [hpool] at hinner
    omega
  case global =>
    intro gl hgl hlist
    have hp'gl : p' ∉ gl := fun hmem => hfresh' (hgl p' hmem)
    have hlist₃ : IsList s₃.flowops.next s₃.flowops.shmFlowoplist (p' :: gl) := by
      rw [h.filledIn.next, h.filledIn.flowoplist]
      refine ⟨h.defined.flowoplist, ?_⟩
      rw [h.defined.next, Function.update_self]
      exact hlist.update hp'gl
    rw [FlowForest.nodes_single, List.reverse_cons, List.append_assoc]
    refine hin.global (p' :: gl) (fun q hq => ?_) hlist₃
    rcases List.mem_cons.mp hq with rfl | hq
    · exact hp'₃
    · exact hunch₃.allocated q (hgl q hq)
  case vars => exact h.extends.trans hin.vars
  case rooted => exact hin.rooted

theorem NewInner.ready {B inner rest : FlowForest n}
    (h : NewInner env s s₁ s₂ s₃ thread m B p p')
    (hr : DefineReady s m B (.cons p inner rest) (some p))
    (hnone : s₃.flowops.compFops p' = none) :
    DefineReady s₃ p' .nil inner (s.flowops.compFops p) := by
  have hinnerF : ∀ q ∈ inner.nodes, q ∈ (FlowForest.cons p inner rest).nodes :=
    fun q hq => .tail _ (List.mem_append_left _ hq)
  have hsame : ∀ q ∈ inner.nodes, s₃.flowops.flowop q = s.flowops.flowop q :=
    fun q hq => hr.flowop_eq h.unchanged (fun _ => FlowForest.tops_subset) (hinnerF q hq)
  constructor
  · exact hr.definition.cons.2.1.congr hsame
  · exact fun q hq => h.unchanged.allocated q (hr.allocated q (hinnerF q hq))
  · rw [hnone]
    exact .nil
  · exact fun q hq => (List.not_mem_nil hq).elim
  · exact .nil
  · exact fun q hq => (List.not_mem_nil hq).elim
  · rw [FlowopShm.Allocated, h.filledIn.pool]
    exact h.defined.allocated
  · exact List.not_mem_nil
  · exact fun hmem => h.defined.fresh (hr.allocated p' (hinnerF p' hmem))
  · intro q hq
    have has : s₃.attrs q = s.attrs q := congrArg ShmFlowop.foAttrs (hsame q hq)
    rw [has]
    exact (hr.within q (hinnerF q hq)).mono h.extends.requests
  · exact h.lvars hr (.head _)
  · rw [h.varsStarted]
    exact h.filled.rooted
  · exact hr.ample.extends h.extends

/-! ## Definitions that go through -/

/-- The names of the flowops made of `F` fit, inside of a flowop with a name of length `k`. -/
def FullnamesFit (s : ScriptShm D n) : ℕ → FlowForest n → Prop
  | _, .nil => True
  | k, .cons p inner rest =>
    k + 1 + (s.flowops.flowop p).foName.length < foNameSize ∧
      FullnamesFit s (k + 1 + (s.flowops.flowop p).foName.length) inner ∧ FullnamesFit s k rest

theorem FullnamesFit.congr {F : FlowForest n} {k : ℕ} (h : FullnamesFit s k F)
    (hsame : ∀ q ∈ F.nodes, t.flowops.flowop q = s.flowops.flowop q) : FullnamesFit t k F := by
  induction F generalizing k with
  | nil => trivial
  | cons p inner rest ihi ihr =>
    obtain ⟨hone, hinner, hrest⟩ := h
    have hp := hsame p (.head _)
    refine ⟨hp ▸ hone, hp ▸ ihi hinner fun q hq => ?_, ihr hrest fun q hq => ?_⟩
    · exact hsame q (.tail _ (List.mem_append_left _ hq))
    · exact hsame q (.tail _ (List.mem_append_right _ hq))

/-- Nothing of the definition `F` is missing for the flowop `m`. -/
structure Determined (env : DefineEnv) (s : ScriptShm D n) (m : Fin n) (F : FlowForest n) :
    Prop where
  given : ∀ p ∈ F.nodes, InnerGiven env s p
  names : FullnamesFit s (s.flowops.flowop m).foName.length F

theorem Determined.rest {B G' inner rest : FlowForest n} {c : Option (Fin n)}
    (h : Determined env s m (.cons p inner rest))
    (hr : DefineReady s m B (.cons p inner rest) c)
    (hone : Compiled s s' thread m B (.cons p inner .nil) G') : Determined env s' m rest := by
  have hrestF : ∀ q ∈ rest.nodes, q ∈ (FlowForest.cons p inner rest).nodes :=
    fun q hq => .tail _ (List.mem_append_right _ hq)
  have hsame : ∀ q ∈ rest.nodes, s'.flowops.flowop q = s.flowops.flowop q :=
    fun q hq => hr.flowop_eq hone.unchanged (fun _ => FlowForest.tops_subset) (hrestF q hq)
  constructor
  · exact fun q hq =>
      (h.given q (hrestF q hq)).congr (hsame q hq) hone.vars (hr.within q (hrestF q hq))
  · rw [(unlinked_fields (hone.unchanged.fields m hr.owner)).1]
    exact h.names.2.2.congr hsame

theorem NewInner.determined {B inner rest : FlowForest n} {c : Option (Fin n)}
    (hnew : NewInner env s s₁ s₂ s₃ thread m B p p')
    (hr : DefineReady s m B (.cons p inner rest) c)
    (h : Determined env s m (.cons p inner rest)) : Determined env s₃ p' inner := by
  have hinnerF : ∀ q ∈ inner.nodes, q ∈ (FlowForest.cons p inner rest).nodes :=
    fun q hq => .tail _ (List.mem_append_left _ hq)
  have hsame : ∀ q ∈ inner.nodes, s₃.flowops.flowop q = s.flowops.flowop q :=
    fun q hq => hr.flowop_eq hnew.unchanged (fun _ => FlowForest.tops_subset) (hinnerF q hq)
  have hname : (s₃.flowops.flowop p').foName.length =
      (s.flowops.flowop m).foName.length + 1 + (s.flowops.flowop p).foName.length := by
    rw [hnew.name, List.length_append, List.length_cons]
    omega
  constructor
  · exact fun q hq =>
      (h.given q (hinnerF q hq)).congr (hsame q hq) hnew.extends (hr.within q (hinnerF q hq))
  · rw [hname]
    exact h.names.2.1.congr hsame

/-! ## The whole definition -/

/-- How the loop ends. -/
inductive InnerEnded (env : DefineEnv) (s : ScriptShm D n) (thread : Option ThreadPtr)
    (m : Fin n) (B F : FlowForest n) : Except DefineStop (ScriptShm D n) → Prop where
  | stopped {stop : DefineStop} (h : stop = .shutdown →
      s.flowops.pool.avail < F.size ∨ ∃ name, env.filesetFind name = none)
      (hdet : Determined env s m F → s.flowops.pool.avail < F.size) :
      InnerEnded env s thread m B F (.error stop)
  | compiled {s' : ScriptShm D n} {F' : FlowForest n} (h : Compiled s s' thread m B F F') :
      InnerEnded env s thread m B F (.ok s')

/-- A new flowop for the inner flowop `p`, if one is free. -/
theorem defineInner_spec (env : DefineEnv) (thread : Option ThreadPtr) {B F : FlowForest n}
    (hr : DefineReady s m B F (some p)) (havail : 0 < s.flowops.pool.avail) :
    (defineInner env thread p m s = some (.error .undefined) ∧
      ¬ (fullname env (s.flowops.flowop m).foName (s.flowops.flowop p).foName).length <
        foNameSize) ∨
      ∃ p' s₁, defineInner env thread p m s = some (.ok (p', s₁)) ∧ s₁.vars = s.vars ∧
        (fullname env (s.flowops.flowop m).foName (s.flowops.flowop p).foName).length <
          foNameSize ∧
        Defined s.flowops s₁.flowops (.inner m) B.tops p'
          ((s.flowops.flowop p).inherited thread
            (fullname env (s.flowops.flowop m).foName (s.flowops.flowop p).foName)
            flowMaster) := by
  obtain ⟨p', fl, hrun, hdef⟩ := flowopDefineCommon_spec thread
    (fullname env (s.flowops.flowop m).foName (s.flowops.flowop p).foName) p flowMaster
    (show IsList s.flowops.execNext (s.flowops.hd (.inner m)) B.tops from hr.built.tops)
    (fun q hq => hr.builtAllocated q (FlowForest.tops_subset hq))
    (fun q hq => by cases hq; exact hr.owner) havail
  by_cases hshort : (fullname env (s.flowops.flowop m).foName
      (s.flowops.flowop p).foName).length < foNameSize
  · refine .inr ⟨p', { s with flowops := fl }, ?_, rfl, hshort, hdef⟩
    simp only [defineInner, hrun, if_pos hshort, Option.bind_eq_bind, Option.bind_some]
  · refine .inl ⟨?_, hshort⟩
    simp only [defineInner, hrun, if_neg hshort, Option.bind_eq_bind, Option.bind_some]

/-- The new flowop gets what the definition says, or the program ends. -/
theorem fillInner_defined {B inner rest : FlowForest n}
    (hr : DefineReady s m B (.cons p inner rest) (some p))
    (hdef : Defined s.flowops s₁.flowops (.inner m) B.tops p'
      ((s.flowops.flowop p).inherited thread
        (fullname env (s.flowops.flowop m).foName (s.flowops.flowop p).foName) flowMaster))
    (hvars : s₁.vars = s.vars) :
    (∃ stop, fillInner env p m p' s₁ = .error stop ∧
      (stop = .shutdown → ∃ name, env.filesetFind name = none) ∧
      ¬ Determined env s m (.cons p inner rest)) ∨
    ∃ s₂, fillInner env p m p' s₁ = .ok s₂ ∧ s₂.flowops.flowop p = s.flowops.flowop p ∧
      InnerFilled s₁ s₂ p' (s.flowops.flowop p).foMethods (s.attrs m).foLvarList := by
  have hpp' : p ≠ p' := by
    rintro rfl
    exact hdef.fresh (hr.allocated p (.head _))
  have hsame₁ : s₁.flowops.flowop p = s.flowops.flowop p :=
    hr.flowop_eq hdef.unchanged (fun _ => FlowForest.tops_subset) (.head _)
  have hattrs₁ : s₁.attrs p = s.attrs p := congrArg ShmFlowop.foAttrs hsame₁
  have hattrsm : s₁.attrs m = s.attrs m :=
    attrs_of_unlinked (hdef.unchanged.fields m hr.owner)
  have hinherit : s₁.attrs p' = s.attrs p := by
    rw [ScriptShm.attrs, hdef.flowop]
    rfl
  have hrooted : Rooted s₁.vars := hvars ▸ hr.rooted
  have hample : Ample s₁.vars := hvars ▸ hr.ample
  have hwithin : (s₁.attrs p').Within s₁.vars.requests := by
    rw [hinherit, hvars]
    exact hr.within p (.head _)
  have hlvars : ∀ q ∈ (s₁.attrs m).foLvarList, q < s₁.vars.requests := by
    rw [hattrsm, hvars]
    exact hr.lvars
  cases hfill : fillInner env p m p' s₁ with
  | error stop =>
    refine .inl ⟨stop, rfl, ?_, fun hdet => ?_⟩
    · rintro rfl
      exact fillInner_shutdown hfill
    · have hgiven : InnerGiven env s₁ p :=
        (hdet.given p (.head _)).congr hsame₁ (hvars ▸ .refl s.vars) (hr.within p (.head _))
      obtain ⟨s₂, hok⟩ := fillInner_given hrooted hample hwithin hlvars hpp'
        (hinherit.trans hattrs₁.symm) hgiven
      rw [hok] at hfill
      cases hfill
  | ok s₂ =>
    have hfilled := fillInner_filled hrooted hample hwithin hlvars hpp'
      (by rw [hinherit, hattrs₁]) hfill
    rw [hattrsm, hsame₁] at hfilled
    exact .inr ⟨s₂, rfl, (hfilled.filled.others p hpp').trans hsame₁, hfilled⟩

theorem innerDefineLoop_filled {fuel : ℕ}
    (hdef : defineInner env thread p m s = some (.ok (p', s₁)))
    (hfill : fillInner env p m p' s₁ = .ok s₂) :
    innerDefineLoop env (fuel + 1) thread m (some p) s =
      match (s₂.flowops.flowop p).foMethods with
      | .library => innerDefineLoop env fuel thread m (s₂.flowops.execNext p) s₂
      | .composite => (innerDefineLoop env fuel thread p' (s₂.flowops.compFops p)
          (s₂.startInner p')).bind fun
        | .error stop => some (.error stop)
        | .ok s => innerDefineLoop env fuel thread m (s.flowops.execNext p) s := by
  rw [innerDefineLoop, hdef]
  cases hmethods : (s₂.flowops.flowop p).foMethods <;>
    simp only [Option.bind_eq_bind, Option.bind_some, hfill, hmethods] <;> rfl

/-- A round of the loop, given what it does with the inner flowops. -/
theorem innerDefineLoop_flowop {B inner rest : FlowForest n}
    (ih : ∀ {s : ScriptShm D n} {m : Fin n} {B c}, DefineReady s m B inner c →
      ∃ r, (∀ fuel, inner.size ≤ fuel → innerDefineLoop env fuel thread m c s = some r) ∧
        InnerEnded env s thread m B inner r)
    (hr : DefineReady s m B (.cons p inner rest) (some p)) (havail : 0 < s.flowops.pool.avail) :
    (∃ stop, (∀ fuel, inner.size ≤ fuel →
        innerDefineLoop env (fuel + 1) thread m (some p) s = some (.error stop)) ∧
      (stop = .shutdown →
        s.flowops.pool.avail < 1 + inner.size ∨ ∃ name, env.filesetFind name = none) ∧
      (Determined env s m (.cons p inner rest) → s.flowops.pool.avail < 1 + inner.size)) ∨
    ∃ s₄ F', (∀ fuel, inner.size ≤ fuel → innerDefineLoop env (fuel + 1) thread m (some p) s =
        innerDefineLoop env fuel thread m (s.flowops.execNext p) s₄) ∧
      Compiled s s₄ thread m B (.cons p inner .nil) F' := by
  rcases defineInner_spec env thread hr havail with
    ⟨hstop, hlong⟩ | ⟨p', s₁, hrun, hvars, hshort, hdef⟩
  · refine .inl ⟨.undefined, fun fuel _ => ?_, nofun, fun hdet => ?_⟩
    · rw [innerDefineLoop, hstop]
      rfl
    · exact absurd (fullname_short hdet.names.1) hlong
  rcases fillInner_defined hr hdef hvars with
    ⟨stop, hfill, hshut, hdet⟩ | ⟨s₂, hfill, hsame₂, hfilled⟩
  · refine .inl ⟨stop, fun fuel _ => ?_, fun h => .inr (hshut h), fun h => absurd h hdet⟩
    rw [innerDefineLoop, hrun]
    simp only [Option.bind_eq_bind, Option.bind_some, hfill]
  have hcomp₂ : s₂.flowops.compFops p = s.flowops.compFops p := congrArg _ hsame₂
  have hlast : ∀ {s₄ : ScriptShm D n} {G' : FlowForest n},
      Compiled s s₄ thread m B (.cons p inner .nil) G' →
        s₄.flowops.execNext p = s.flowops.execNext p := fun h =>
    congrArg ShmFlowop.foExecNext
      (hr.flowop_eq h.unchanged (fun _ => FlowForest.tops_subset) (.head _))
  cases hm : (s.flowops.flowop p).foMethods with
  | library =>
    have hnew : NewInner env s s₁ s₂ s₂ thread m B p p' :=
      ⟨hdef, hvars, hshort, hfilled, .refl s₂ p', rfl, rfl⟩
    obtain rfl : inner = .nil := hr.definition.nested.2.1 hm
    have hnone : s₂.flowops.compFops p' = none := by
      rw [hfilled.comp, FlowopShm.compFops, hdef.flowop]
      exact hr.definition.cons.2.1.tops
    have hone := Compiled.single hr hnew ((hnew.ready hr hnone).compiled_nil thread)
    refine .inr ⟨s₂, _, fun fuel _ => ?_, hone⟩
    rw [innerDefineLoop_filled hrun hfill, hsame₂, hm, hlast hone]
  | composite =>
    have hstart : FilledIn s₂ (s₂.startInner p') p' :=
      filledIn_modify s₂ p' (fun _ => ⟨_, _, _, rfl⟩) (.refl _)
    have hattrs : (s₂.startInner p').attrs p' = s₂.attrs p' :=
      s₂.flowops.setHd_keeps (.inner p') none (·.foAttrs) (fun _ => rfl) p'
    have hnew : NewInner env s s₁ s₂ (s₂.startInner p') thread m B p p' :=
      ⟨hdef, hvars, hshort, hfilled, hstart, hattrs, rfl⟩
    have hnone : (s₂.startInner p').flowops.compFops p' = none :=
      s₂.flowops.setHd_hd (.inner p') none
    obtain ⟨r, hinner, hend⟩ := ih (hnew.ready hr hnone)
    have hround : ∀ fuel, inner.size ≤ fuel →
        innerDefineLoop env (fuel + 1) thread m (some p) s =
          (some r).bind fun
          | .error stop => some (.error stop)
          | .ok s => innerDefineLoop env fuel thread m (s.flowops.execNext p) s := by
      intro fuel hfuel
      rw [innerDefineLoop_filled hrun hfill, hsame₂, hm, hcomp₂, hinner fuel hfuel]
    cases hend with
    | @stopped stop hstop hdet =>
      have hmore : (s₂.startInner p').flowops.pool.avail < inner.size →
          s.flowops.pool.avail < 1 + inner.size := by
        intro hlt
        have hpool := hnew.filledIn.pool
        have havail' := hdef.avail
        rw [hpool] at hlt
        omega
      exact .inl ⟨stop, hround, fun hshut => (hstop hshut).imp_left hmore,
        fun hdet' => hmore (hdet (hnew.determined hr hdet'))⟩
    | @compiled s₄ inner' hin =>
      have hone := Compiled.single hr hnew hin
      refine .inr ⟨s₄, _, fun fuel hfuel => ?_, hone⟩
      rw [hround fuel hfuel, ← hlast hone]
      rfl

/-- The loop makes a flowop of every flowop of the definition, or ends the program. -/
theorem innerDefineLoop_spec (env : DefineEnv) (thread : Option ThreadPtr) {F B : FlowForest n}
    {c : Option (Fin n)} (hr : DefineReady s m B F c) :
    ∃ r, (∀ fuel, F.size ≤ fuel → innerDefineLoop env fuel thread m c s = some r) ∧
      InnerEnded env s thread m B F r := by
  induction F generalizing s B m c with
  | nil =>
    obtain rfl : c = none := hr.definition.tops
    exact ⟨.ok s, fun fuel _ => by cases fuel <;> rfl, .compiled (hr.compiled_nil thread)⟩
  | cons p inner rest ihi ihr =>
    obtain ⟨rfl, -, hrest⟩ := hr.definition.cons
    have hrestF : ∀ q ∈ rest.nodes, q ∈ (FlowForest.cons p inner rest).nodes :=
      fun q hq => .tail _ (List.mem_append_right _ hq)
    have hsucc : ∀ {fuel}, (FlowForest.cons p inner rest).size ≤ fuel →
        ∃ k, fuel = k + 1 ∧ inner.size ≤ k ∧ rest.size ≤ k := by
      intro fuel hfuel
      rw [FlowForest.size] at hfuel
      exact ⟨fuel - 1, by omega, by omega, by omega⟩
    have hsize : (FlowForest.cons p inner rest).size = 1 + inner.size + rest.size := rfl
    rcases Nat.eq_zero_or_pos s.flowops.pool.avail with hzero | havail
    · have hlt : s.flowops.pool.avail < (FlowForest.cons p inner rest).size := by omega
      refine ⟨.error .shutdown, fun fuel hfuel => ?_, .stopped (fun _ => .inl hlt) fun _ => hlt⟩
      obtain ⟨k, rfl, -, -⟩ := hsucc hfuel
      have hnone : defineInner env thread p m s = some (.error .shutdown) := by
        simp only [defineInner, flowopDefineCommon, Pool.ipcMalloc_of_avail_zero hzero,
          Option.bind_eq_bind, Option.bind_some]
      rw [innerDefineLoop, hnone]
      rfl
    · rcases innerDefineLoop_flowop ihi hr havail with
        ⟨stop, hrun, hstop, hdet⟩ | ⟨s₁, G', hrun, hone⟩
      · refine ⟨.error stop, fun fuel hfuel => ?_, .stopped (fun h => ?_) fun h => ?_⟩
        · obtain ⟨k, rfl, hk, -⟩ := hsucc hfuel
          exact hrun k hk
        · exact (hstop h).imp_left fun hlt => by omega
        · have hlt := hdet h
          omega
      · obtain ⟨r, hrun', hend⟩ := ihr (hr.next hrest hrestF hone)
        refine ⟨r, fun fuel hfuel => ?_, ?_⟩
        · obtain ⟨k, rfl, hk, hk'⟩ := hsucc hfuel
          exact (hrun k hk).trans (hrun' k hk')
        · cases hend with
          | stopped hstop hdet =>
            have hmore : s₁.flowops.pool.avail < rest.size →
                s.flowops.pool.avail < (FlowForest.cons p inner rest).size := by
              intro hlt
              have havail' := hone.avail
              have hsize' : (FlowForest.cons p inner .nil).size = 1 + inner.size := rfl
              omega
            exact .stopped (fun h => (hstop h).imp_left hmore) fun h => hmore (hdet (h.rest hr hone))
          | compiled h => exact .compiled (hone.append hr h)

/-- The flowop `mstr` uses the composite flowop `comp0`, whose definition unfolds to `F`. The global
list is `gl`. -/
structure CompositeUse (s : ScriptShm D n) (comp0 mstr : Fin n) (F : FlowForest n)
    (gl : List (Fin n)) : Prop where
  definition : Represents s.flowops (s.flowops.compFops comp0) F
  allocated : ∀ p ∈ F.nodes, s.flowops.Allocated p
  owner : s.flowops.Allocated mstr
  ownerF : mstr ∉ F.nodes
  within : ∀ p ∈ F.nodes, (s.attrs p).Within s.vars.requests
  lvars : ∀ q ∈ (s.attrs mstr).foLvarList, q < s.vars.requests
  rooted : Rooted s.vars
  ample : Ample s.vars
  global : IsList s.flowops.next s.flowops.shmFlowoplist gl
  globalAllocated : ∀ p ∈ gl, s.flowops.Allocated p

/-- The inner flowops of `mstr` are `F'`, all of them new and made of the definition `F`. -/
structure InnerFlowops (s s' : ScriptShm D n) (thread : Option ThreadPtr) (comp0 mstr : Fin n)
    (F F' : FlowForest n) (gl : List (Fin n)) : Prop where
  flowops : Represents s'.flowops (s'.flowops.compFops mstr) F'
  masters : Masters s s' thread mstr F F'
  distinct : F'.nodes.Nodup
  allocated : ∀ p ∈ F'.nodes, ¬ s.flowops.Allocated p ∧ s'.flowops.Allocated p
  global : IsList s'.flowops.next s'.flowops.shmFlowoplist (F'.nodes.reverse ++ gl)
  definition : Represents s'.flowops (s.flowops.compFops comp0) F
  unchanged : ∀ p, s.flowops.Allocated p → p ≠ mstr →
    s'.flowops.flowop p = s.flowops.flowop p
  threads : s'.flowops.tfThrdFops = s.flowops.tfThrdFops
  vars : Extends s.vars s'.vars

theorem CompositeUse.flowop_startInner {comp0 mstr : Fin n} {F : FlowForest n} {gl : List (Fin n)}
    (h : CompositeUse s comp0 mstr F gl) {q : Fin n} (hq : q ∈ F.nodes) :
    (s.startInner mstr).flowops.flowop q = s.flowops.flowop q := by
  refine (Unchanged.setHd s.flowops (.inner mstr) none).flowop_eq (h.allocated q hq)
    List.not_mem_nil ?_
  rintro ⟨⟩
  exact h.ownerF hq

theorem CompositeUse.ready {comp0 mstr : Fin n} {F : FlowForest n} {gl : List (Fin n)}
    (h : CompositeUse s comp0 mstr F gl) :
    DefineReady (s.startInner mstr) mstr .nil F (s.flowops.compFops comp0) := by
  have hattrs : (s.startInner mstr).attrs = s.attrs :=
    funext (s.flowops.setHd_keeps (.inner mstr) none (·.foAttrs) fun _ => rfl)
  constructor
  · exact h.definition.congr fun q hq => h.flowop_startInner hq
  · exact h.allocated
  · rw [show (s.startInner mstr).flowops.compFops mstr = none from
      s.flowops.setHd_hd (.inner mstr) none]
    exact .nil
  · exact fun q hq => (List.not_mem_nil hq).elim
  · exact .nil
  · exact fun q hq => (List.not_mem_nil hq).elim
  · exact h.owner
  · exact List.not_mem_nil
  · exact h.ownerF
  · rw [hattrs]
    exact h.within
  · rw [hattrs]
    exact h.lvars
  · exact h.rooted
  · exact h.ample

theorem Masters.startInner {mstr : Fin n} {F F' : FlowForest n}
    (h : Masters (s.startInner mstr) s' thread m F F') : Masters s s' thread m F F' := by
  have hfields : ∀ q, (s.flowops.flowop q).unlinked =
      ((s.startInner mstr).flowops.flowop q).unlinked := fun q =>
    (s.flowops.setHd_keeps (.inner mstr) none (·.unlinked) (fun _ => rfl) q).symm
  induction F generalizing F' m with
  | nil =>
    obtain rfl := h.eq_nil
    trivial
  | cons p inner rest ihi ihr => cases F' with
    | nil => exact h.elim
    | cons p' inner' rest' =>
      obtain ⟨hone, hinner, hrest⟩ := h
      obtain ⟨hname, hmethods, -, -, -⟩ := unlinked_fields (hfields p)
      have hattrs : s.attrs p = (s.startInner mstr).attrs p := attrs_of_unlinked (hfields p)
      refine ⟨?_, ihi hinner, ihr hrest⟩
      constructor
      · rw [hname]
        exact hone.name
      · exact hone.short
      · rw [hmethods]
        exact hone.methods
      · exact hone.inst
      · exact hone.thread
      · rw [hattrs, hmethods]
        exact hone.avd
      · exact hone.within
      · rw [hattrs, hmethods]
        exact hone.lvars

theorem Compiled.innerFlowops {comp0 mstr : Fin n} {F F' : FlowForest n} {gl : List (Fin n)}
    (hc : Compiled (s.startInner mstr) s' thread mstr .nil F F')
    (h : CompositeUse s comp0 mstr F gl) : InnerFlowops s s' thread comp0 mstr F F' gl := by
  have hstart := Unchanged.setHd s.flowops (.inner mstr) none
  have hunch : Unchanged s.flowops s'.flowops [] (.inner mstr) :=
    hstart.trans hc.unchanged (fun _ hr _ => nomatch hr) (.inl rfl)
  have hsame : ∀ p, s.flowops.Allocated p → p ≠ mstr →
      s'.flowops.flowop p = s.flowops.flowop p := by
    intro p hp hne
    refine hunch.flowop_eq hp nofun ?_
    rintro ⟨⟩
    exact hne rfl
  refine ⟨hc.represents, hc.masters.startInner, hc.nodup,
    fun p hp => ⟨hc.fresh p hp, hc.allocated p hp⟩, ?_, ?_, hsame, ?_, hc.vars⟩
  · refine hc.global gl h.globalAllocated ?_
    rw [show (s.startInner mstr).flowops.next = s.flowops.next from
      s.flowops.setHd_next (.inner mstr) none]
    exact h.global
  · refine h.definition.congr fun q hq => hsame q (h.allocated q hq) ?_
    rintro rfl
    exact h.ownerF hq
  · exact funext fun t => hunch.heads t nofun

theorem Determined.startInner {comp0 mstr : Fin n} {F : FlowForest n} {gl : List (Fin n)}
    (hdet : Determined env s mstr F) (h : CompositeUse s comp0 mstr F gl) :
    Determined env (s.startInner mstr) mstr F := by
  have hsame : ∀ q ∈ F.nodes, (s.startInner mstr).flowops.flowop q = s.flowops.flowop q :=
    fun q hq => h.flowop_startInner hq
  constructor
  · exact fun q hq => (hdet.given q hq).congr (hsame q hq) (.refl s.vars) (h.within q hq)
  · rw [show ((s.startInner mstr).flowops.flowop mstr).foName = (s.flowops.flowop mstr).foName from
      s.flowops.setHd_keeps (.inner mstr) none (·.foName) (fun _ => rfl) mstr]
    exact hdet.names.congr hsame

/-- The composite flowop `o` has an inner flowop `i`, a composite one with an inner flowop `r`, and
the flowop `u` uses it. -/
def nestedScript : ScriptShm ℚ 8 where
  flowops :=
    { flowop := fun p =>
        { foName := [(['o', 'i', 'r', 'u'] : List Char).getD p 'x']
          foInstance := 0
          foMethods := if p = 2 then .library else .composite
          foAttrs := ⟨fun a => if a = .filename then none else some (.valInt 1), []⟩
          foThread := none
          foFileset := none
          foConstvalue := 0
          foConstwss := 0
          foNext := none
          foExecNext := none
          foCompFops := if p = 0 then some 1 else if p = 1 then some 2 else none }
      pool := ⟨fun p => decide (p < 4), 3⟩
      shmFlowoplist := none
      tfThrdFops := fun _ => none
      tfRunning := fun _ => false }
  vars := noVars

def nestedDefinition : FlowForest 8 := .cons 1 (.cons 2 .nil .nil) .nil

def noFilesets : DefineEnv where
  maxpathlen := 1024
  filesetFind _ := none
  long := by decide

theorem nestedScript_use : CompositeUse nestedScript 0 3 nestedDefinition [] := by
  have hlow : ∀ p : Fin 8, p < 4 → nestedScript.flowops.Allocated p :=
    fun p hp => decide_eq_true hp
  constructor
  · exact ⟨⟨rfl, rfl⟩, ⟨⟨rfl, rfl⟩, nofun, ⟨rfl, fun _ => rfl, trivial, trivial⟩, trivial⟩⟩
  · exact fun p hp => hlow p (by revert p; decide)
  · exact hlow 3 (by decide)
  · decide
  · intro p _
    refine ⟨fun a avd ha => ?_, nofun⟩
    change (if a = .filename then none else some (Avd.valInt 1)) = some avd at ha
    split at ha
    · cases ha
    · cases ha
      trivial
  · nofun
  · exact ⟨⟨nofun, nofun⟩, nofun⟩
  · exact fun _ _ => rfl
  · exact rfl
  · nofun

theorem nestedScript_determined : Determined noFilesets nestedScript 3 nestedDefinition := by
  have hattr : ∀ p a, a ≠ FlowopAttr.filename →
      ((nestedScript.attrs p).avd a).isSome := by
    intro p a ha
    change (if a = .filename then none else some (Avd.valInt 1)).isSome
    rw [if_neg ha]
    rfl
  refine ⟨fun p _ => ⟨nofun, hattr p _ nofun, fun _ a ha => hattr p a ?_, fun _ => nofun⟩, ?_⟩
  · rintro rfl
    revert ha
    decide
  · exact ⟨by decide, ⟨by decide, trivial, trivial⟩, trivial⟩

/-- A definition with nothing missing is made whole if there are flowops enough. -/
theorem parserInnerFlowopDefine_compiles (env : DefineEnv) (thread : Option ThreadPtr)
    {comp0 mstr : Fin n} {F : FlowForest n} {gl : List (Fin n)}
    (h : CompositeUse s comp0 mstr F gl) (hdet : Determined env s mstr F)
    (havail : F.size ≤ s.flowops.pool.avail) :
    ∃ s' F', (∀ fuel, F.size ≤ fuel →
        parserInnerFlowopDefine env fuel thread comp0 mstr s = some (.ok s')) ∧
      s'.flowops.pool.avail + F.size = s.flowops.pool.avail ∧
      InnerFlowops s s' thread comp0 mstr F F' gl := by
  obtain ⟨r, hrun, hend⟩ := innerDefineLoop_spec env thread h.ready
  cases hend with
  | stopped _ hfull =>
    have hlt : s.flowops.pool.avail < F.size := hfull (hdet.startInner h)
    omega
  | @compiled s' F' hc => exact ⟨s', F', hrun, hc.avail, hc.innerFlowops h⟩

theorem parserInnerFlowopDefine_compiles_nested : ∃ (s' : ScriptShm ℚ 8) (F' : FlowForest 8),
    (∀ fuel, 2 ≤ fuel →
      parserInnerFlowopDefine noFilesets fuel (some 0) 0 3 nestedScript = some (.ok s')) ∧
      s'.flowops.pool.avail = 2 ∧
      InnerFlowops nestedScript s' (some 0) 0 3 nestedDefinition F' [] := by
  obtain ⟨s', F', hrun, havail, hF'⟩ := parserInnerFlowopDefine_compiles noFilesets (some 0)
    nestedScript_use nestedScript_determined (by decide)
  have hpool : nestedScript.flowops.pool.avail = 2 + nestedDefinition.size := by decide
  exact ⟨s', F', hrun, Nat.add_right_cancel (havail.trans hpool), hF'⟩

end Filebench
