import Filebench.Vars.Composite

/-! # What a composite flowop passes on

A use of a composite flowop makes a new variable for each local variable of the definition. It gets
the value of the definition, or stands for a variable of the flowop around it. An attribute that was
a variable in the definition is looked up again by its name. -/
namespace Filebench

variable {D : Type} {shm shm' shm₁ : VarShm D}

/-- No request for memory fails. -/
def Ample (shm : VarShm D) : Prop := ∀ k, shm.requests ≤ k → shm.alloc k = true

/-- Every variable that can be reached was allocated. -/
structure Rooted (shm : VarShm D) : Prop where
  wellFormed : WellFormed shm
  pointers : ∀ p q, (shm.var p).varVarptr1 = some q → q < shm.requests

/-- The variables are as before, and new ones are on private lists only. -/
structure Extends (shm shm' : VarShm D) : Prop where
  requests : shm.requests ≤ shm'.requests
  var : ∀ p < shm.requests, shm'.var p = shm.var p
  list : shm'.shmVarList = shm.shmVarList
  locList : shm'.shmVarLocList = shm.shmVarLocList
  alloc : shm'.alloc = shm.alloc

theorem Extends.refl (shm : VarShm D) : Extends shm shm :=
  ⟨le_rfl, fun _ _ => rfl, rfl, rfl, rfl⟩

theorem Extends.trans (h : Extends shm shm₁) (h' : Extends shm₁ shm') : Extends shm shm' :=
  ⟨h.requests.trans h'.requests,
    fun p hp => (h'.var p (hp.trans_le h.requests)).trans (h.var p hp),
    h'.list.trans h.list, h'.locList.trans h.locList, h'.alloc.trans h.alloc⟩

theorem Extends.request (shm : VarShm D) : Extends shm shm.request.2 :=
  ⟨Nat.le_succ _, fun _ _ => rfl, rfl, rfl, rfl⟩

theorem Ample.extends (h : Ample shm) (he : Extends shm shm') : Ample shm' := by
  intro k hk
  rw [he.alloc]
  exact h k (he.requests.trans hk)

theorem Ample.request_eq (h : Ample shm) :
    shm.request = (true, { shm with requests := shm.requests + 1 }) :=
  Prod.ext (h _ le_rfl) rfl

theorem Extends.wellFormed (h : Extends shm shm') (hwf : WellFormed shm) : WellFormed shm' := by
  constructor
  · rw [h.list]
    exact fun p hp => (hwf.list p hp).trans_le h.requests
  · rw [h.locList]
    exact fun p hp => (hwf.locList p hp).trans_le h.requests

/-! ## Attributes -/

def boundVar (shm : VarShm D) (lvars : List VarPtr) (old : VarPtr) : VarPtr :=
  (varFindListOrAll shm (shm.var old).varName lvars).getD old

/-- The descriptor of an attribute for a flowop with the local variables `lvars`. -/
def boundAvd (shm : VarShm D) (lvars : List VarPtr) : Avd D → Avd D
  | .indVar (some old) =>
    avdVarPtr (boundVar shm lvars old) (shm.var (boundVar shm lvars old))
  | avd => avd

/-- The variable of a descriptor is below `bound`. -/
def Avd.Within (bound : ℕ) : Avd D → Prop
  | .indVar (some p) => p < bound
  | _ => True

theorem Avd.Within.mono {avd : Avd D} {a b : ℕ} (h : avd.Within a) (hab : a ≤ b) :
    avd.Within b := by
  unfold Avd.Within at h ⊢
  split
  next => exact lt_of_lt_of_le h hab
  next => trivial

theorem avdUpdate_ample (h : Ample shm) (lvars : List VarPtr) (avd : Avd D) :
    ∃ shm', avdUpdate shm avd lvars = (some (boundAvd shm lvars avd), shm') ∧
      Extends shm shm' ∧ shm'.var = shm.var := by
  have halloc : ∀ p, avdAllocVarPtr shm p = (some (avdVarPtr p (shm.var p)), shm.request.2) := by
    intro p
    simp only [avdAllocVarPtr, h.request_eq]
  unfold avdUpdate
  split
  next old =>
    refine ⟨shm.request.2, ?_, .request shm, rfl⟩
    rw [boundAvd, boundVar]
    cases varFindListOrAll shm (shm.var old).varName lvars with
    | none => exact halloc old
    | some new => exact halloc new
  next hother =>
    refine ⟨shm, ?_, .refl shm, rfl⟩
    rw [boundAvd]
    exact hother

theorem varFindList_extends (h : Extends shm shm') {list : List VarPtr}
    (hlist : ∀ p ∈ list, p < shm.requests) (name : CString) :
    varFindList shm' list name = varFindList shm list name := by
  induction list with
  | nil => rfl
  | cons p l ih =>
    rw [varFindList, varFindList, List.find?_cons, List.find?_cons, h.var p (hlist p (.head _))]
    split
    · rfl
    · exact ih fun q hq => hlist q (.tail _ hq)

theorem varFindListOrAll_extends (hr : Rooted shm) (h : Extends shm shm') {lvars : List VarPtr}
    (hlvars : ∀ p ∈ lvars, p < shm.requests) (name : CString) :
    varFindListOrAll shm' name lvars = varFindListOrAll shm name lvars := by
  rw [varFindListOrAll, varFindListOrAll, varFindListOnly, varFindListOnly, varFind, varFind,
    h.list, h.locList, varFindList_extends h hlvars, varFindList_extends h hr.wellFormed.list,
    varFindList_extends h hr.wellFormed.locList]

theorem varFindListOrAll_lt (hr : Rooted shm) {lvars : List VarPtr}
    (hlvars : ∀ p ∈ lvars, p < shm.requests) {name : CString} {p : VarPtr}
    (h : varFindListOrAll shm name lvars = some p) : p < shm.requests := by
  rcases Option.or_eq_some_iff.mp h with h | ⟨-, h⟩
  · exact hlvars p (List.mem_of_find?_eq_some h)
  · exact hr.wellFormed.varFind_lt h

theorem boundVar_lt (hr : Rooted shm) {lvars : List VarPtr}
    (hlvars : ∀ p ∈ lvars, p < shm.requests) {old : VarPtr} (hold : old < shm.requests) :
    boundVar shm lvars old < shm.requests := by
  rw [boundVar]
  cases h : varFindListOrAll shm (shm.var old).varName lvars with
  | none => exact hold
  | some p => exact varFindListOrAll_lt hr hlvars h

/-- What an attribute is bound to does not change later. -/
theorem boundAvd_extends (hr : Rooted shm) (h : Extends shm shm') {lvars : List VarPtr}
    (hlvars : ∀ p ∈ lvars, p < shm.requests) {avd : Avd D} (havd : avd.Within shm.requests) :
    boundAvd shm' lvars avd = boundAvd shm lvars avd := by
  unfold boundAvd
  split
  next old =>
    have hvar : boundVar shm' lvars old = boundVar shm lvars old := by
      rw [boundVar, boundVar, h.var old havd, varFindListOrAll_extends hr h hlvars]
    rw [hvar, h.var _ (boundVar_lt hr hlvars havd)]
  next => rfl

theorem boundAvd_within (hr : Rooted shm) {lvars : List VarPtr}
    (hlvars : ∀ p ∈ lvars, p < shm.requests) {avd : Avd D} (havd : avd.Within shm.requests) :
    (boundAvd shm lvars avd).Within shm.requests := by
  unfold boundAvd
  split
  next old =>
    have hlt := boundVar_lt hr hlvars havd
    generalize boundVar shm lvars old = p at hlt
    unfold avdVarPtr
    repeat' split
    all_goals try exact trivial
    · cases hq : (shm.var p).varVarptr1 with
      | none => trivial
      | some q => exact hr.pointers p q hq
    · exact hlt
    · exact hlt
  next => exact havd

/-! ## Local variables -/

/-- `p` is a new variable on no shared list. -/
structure Private (shm shm' : VarShm D) (p : VarPtr) (v : Var D) : Prop
    extends Extends shm shm' where
  fresh : shm.requests ≤ p
  allocated : p < shm'.requests
  others : ∀ q, q ≠ p → shm'.var q = shm.var q
  self : shm'.var p = v

theorem Private.setVar {p : VarPtr} {v : Var D} (h : Private shm shm' p v) (v' : Var D) :
    Private shm (shm'.setVar p v') p v' := by
  refine ⟨⟨h.requests, fun q hq => ?_, h.list, h.locList, h.alloc⟩, h.fresh, h.allocated,
    fun q hq => ?_, setVar_var_self ..⟩
  · rw [setVar_var_of_ne _ _ (hq.trans_le h.fresh).ne]
    exact h.var q hq
  · rw [setVar_var_of_ne _ _ hq]
    exact h.others q hq

theorem Private.request {p : VarPtr} {v : Var D} (h : Private shm shm' p v) :
    Private shm shm'.request.2 p v :=
  ⟨h.toExtends.trans (.request shm'), h.fresh, Nat.lt_succ_of_lt h.allocated, h.others, h.self⟩

/-- A new local variable goes from the shared list to a private one. -/
theorem varLvarAllocLocal_private (hwf : WellFormed shm) (h : Ample shm) (name : CString)
    (list : List VarPtr) :
    ∃ p shm₁ shm', varLvarAllocLocal shm name = (some p, shm₁) ∧
      addLvarToList shm₁ p list = (p :: list, shm') ∧ Private shm shm' p (.new name .local) := by
  have hfirst : shm.alloc shm.requests = true := h _ le_rfl
  have hsecond : shm.alloc (shm.requests + 1) = true := h _ (Nat.le_succ _)
  have hnew : varLvarAllocLocal shm name = (some shm.requests,
      { shm with
        var := Function.update shm.var shm.requests (.new name .local)
        shmVarLocList := shm.requests :: shm.shmVarLocList
        requests := shm.requests + 2 }) := by
    simp only [varLvarAllocLocal, varAllocCmn, VarShm.request, hfirst, hsecond]
    rfl
  have hfilter : (shm.requests :: shm.shmVarLocList).filter (· ≠ shm.requests) =
      shm.shmVarLocList := by
    rw [List.filter_cons_of_neg (by simp)]
    refine List.filter_eq_self.mpr fun q hq => decide_eq_true ?_
    exact (hwf.locList q hq).ne
  refine ⟨shm.requests, _, _, hnew, rfl, ⟨?_, ?_, rfl, hfilter, rfl⟩, le_rfl, ?_, ?_, ?_⟩
  · exact Nat.le_add_right _ 2
  · exact fun q hq => Function.update_of_ne hq.ne ..
  · exact Nat.lt_add_of_pos_right Nat.two_pos
  · exact fun q hq => Function.update_of_ne hq ..
  · exact Function.update_self ..

/-- With enough memory a copy is made of what can be copied. -/
theorem varCopy_ample (h : Ample shm) (dst src : VarPtr) :
    ∃ shm₁ v', (shm₁ = shm ∨ shm₁ = shm.request.2) ∧
      Copied (shm.var src) (shm.var dst) v' ∧ varCopy shm dst src = (0, shm₁.setVar dst v') := by
  have hvalue : ∀ (kind : BitVec 32) (hkind : kind ∈ valueKinds), kind ≠ varTypeRandSet →
      varHas (shm.var src) kind → varCopy shm dst src = (0, varCopyValue shm dst src kind hkind) →
      ∃ shm₁ v', (shm₁ = shm ∨ shm₁ = shm.request.2) ∧
        Copied (shm.var src) (shm.var dst) v' ∧ varCopy shm dst src = (0, shm₁.setVar dst v') := by
    intro kind hkind hrand hhas heq
    obtain ⟨v', hcopied, hset⟩ := varCopyValue_copied dst shm rfl hkind hrand hhas
    exact ⟨shm, v', .inl rfl, hcopied, heq.trans (congrArg _ hset)⟩
  by_cases hb : varHasBoolean (shm.var src)
  · exact hvalue _ _ (by decide) hb (varCopy_boolean dst hb)
  by_cases hi : varHasInteger (shm.var src)
  · exact hvalue _ _ (by decide) hi (varCopy_integer dst hi)
  by_cases hd : varHasDouble (shm.var src)
  · exact hvalue _ _ (by decide) hd (varCopy_double dst hd)
  by_cases hs : varHasString (shm.var src)
  · have hcopy : ∃ v', Copied (shm.var src) (shm.var dst) v' ∧
        varCopyValue shm.request.2 dst src varTypeStrSet strSet_mem =
          shm.request.2.setVar dst v' :=
      varCopyValue_copied dst shm.request.2 rfl strSet_mem (by decide) hs
    obtain ⟨v', hcopied, hset⟩ := hcopy
    refine ⟨shm.request.2, v', .inr rfl, hcopied, ?_⟩
    rw [varCopy_string dst hs, if_pos (show shm.request.1 = true from h _ le_rfl), hset]
  · rw [varCopy_other dst hb hi hd hs]
    by_cases hind : varHasIndvar (shm.var src)
    · exact ⟨shm, _, .inl rfl, .indvar hind, by rw [varCopyIndvar, if_pos hind]⟩
    · refine ⟨shm, shm.var dst, .inl rfl, .nothing ?_, ?_⟩
      · rintro (h | h | h | h | h)
        exacts [hb h, hi h, hd h, hs h, hind h]
      · rw [varCopyIndvar, if_neg hind, VarShm.setVar, Function.update_eq_self]

/-- Where the indirection of a definition leads to in a flowop with the local variables
`mstrLvars`. -/
def upVar (shm : VarShm D) (mstrLvars : List VarPtr) (u : VarPtr) : Option VarPtr :=
  if mstrLvars = [] then some u else varFindListOnly shm (shm.var u).varName mstrLvars

/-- What becomes of the local variable `proto` of a definition in a flowop with the local
variables `mstrLvars`. -/
inductive LvarPassed (shm : VarShm D) (mstrLvars : List VarPtr) (proto : Var D) (name : CString) :
    Var D → Prop where
  | value {v : Var D} (h : ¬ varHasIndvar proto) (hcopied : Copied proto (.new name .local) v) :
      LvarPassed shm mstrLvars proto name v
  | indirect {u w : VarPtr} {v : Var D} (h : varHasIndvar proto) (hname : v.varName = name)
      (hptr : proto.varVarptr1 = some u) (hup : upVar shm mstrLvars u = some w)
      (hv : varHasIndvar v)
      (htarget : v.varVarptr1 =
        if varHasIndvar (shm.var w) then (shm.var w).varVarptr1 else some w) :
      LvarPassed shm mstrLvars proto name v

theorem upVar_lt {mstrLvars : List VarPtr} (hlvars : ∀ q ∈ mstrLvars, q < shm.requests)
    {u w : VarPtr} (hu : u < shm.requests) (h : upVar shm mstrLvars u = some w) :
    w < shm.requests := by
  unfold upVar at h
  split at h
  next =>
    obtain rfl := Option.some.inj h
    exact hu
  next => exact hlvars w (List.mem_of_find?_eq_some h)

theorem Copied.new_varptr {src v : Var D} {name : CString} {cls : VarClass}
    (h : Copied src (.new name cls) v) (hsrc : ¬ varHasIndvar src) : v.varVarptr1 = none := by
  cases h with
  | value => rfl
  | indvar hind => exact absurd hind hsrc
  | nothing => rfl

/-- A variable that was passed on leads to one that was there before. -/
theorem LvarPassed.pointer_lt (hr : Rooted shm) {mstrLvars : List VarPtr}
    (hlvars : ∀ q ∈ mstrLvars, q < shm.requests) {p q : VarPtr} {name : CString} {v : Var D}
    (h : LvarPassed shm mstrLvars (shm.var p) name v) (hq : v.varVarptr1 = some q) :
    q < shm.requests := by
  cases h with
  | value hnot hcopied =>
    rw [hcopied.new_varptr hnot] at hq
    cases hq
  | @indirect u w _ _ _ hptr hup _ htarget =>
    rw [htarget] at hq
    split at hq
    next => exact hr.pointers w q hq
    next =>
      obtain rfl := Option.some.inj hq
      exact upVar_lt hlvars (hr.pointers p u hptr) hup

theorem Rooted.of_private (hr : Rooted shm) {p : VarPtr} {v : Var D} (h : Private shm shm' p v)
    (hv : ∀ q, v.varVarptr1 = some q → q < shm.requests) : Rooted shm' := by
  refine ⟨h.toExtends.wellFormed hr.wellFormed, fun q r hqr => ?_⟩
  by_cases hq : q = p
  · rw [hq, h.self] at hqr
    exact (hv r hqr).trans_le h.requests
  · rw [h.others q hq] at hqr
    exact (hr.pointers q r hqr).trans_le h.requests

theorem Rooted.of_var (hr : Rooted shm) (h : Extends shm shm') (hvar : shm'.var = shm.var) :
    Rooted shm' := by
  refine ⟨h.wellFormed hr.wellFormed, fun q r hqr => ?_⟩
  rw [hvar] at hqr
  exact (hr.pointers q r hqr).trans_le h.requests

/-- Nothing that is passed on changes later. -/
theorem LvarPassed.extends (hr : Rooted shm) {mstrLvars : List VarPtr}
    (hlvars : ∀ q ∈ mstrLvars, q < shm.requests) {p : VarPtr} {name : CString} {v : Var D}
    (h : LvarPassed shm mstrLvars (shm.var p) name v) (he : Extends shm shm') :
    LvarPassed shm' mstrLvars (shm.var p) name v := by
  cases h with
  | value hnot hcopied => exact .value hnot hcopied
  | @indirect u w _ hind hname hptr hup hv htarget =>
    have hu : u < shm.requests := hr.pointers p u hptr
    have hup' : upVar shm' mstrLvars u = some w := by
      rw [upVar, he.var u hu, varFindListOnly, varFindList_extends he hlvars]
      exact hup
    refine .indirect hind hname hptr hup' hv ?_
    rw [he.var w (upVar_lt hlvars hu hup)]
    exact htarget

theorem varSetIndvar_hasIndvar {v : Var D} (h : v.indbinop = varIndAssign) (o : Option VarPtr) :
    varHasIndvar (varSetIndvar v o) :=
  ⟨(varSetIndvar_has _).mpr rfl, varSetIndvar_indbinop.trans h⟩

theorem Copied.eq_indvar {src v v' : Var D} (h : Copied src v v') (hind : varHasIndvar src) :
    v' = varSetIndvar v src.varVarptr1 := by
  cases h with
  | value hmem _ hhas =>
    obtain rfl := varHas_unique hhas hind.1
    exact absurd hmem (by decide)
  | indvar => rfl
  | nothing hnot => exact absurd (.inr (.inr (.inr (.inr hind)))) hnot

/-- A copy of the indirection of the definition is collapsed into one that leads to the flowop
around. -/
theorem collapseIndirection_private {p proto u : VarPtr} {name : CString}
    {mstrLvars : List VarPtr} (h : Private shm shm' p
      (varSetIndvar (.new name .local) (shm.var proto).varVarptr1))
    (hproto : proto < shm.requests) (hind : varHasIndvar (shm.var proto))
    (hptr : (shm.var proto).varVarptr1 = some u) (hu : u < shm.requests)
    (hlvars : ∀ q ∈ mstrLvars, q < shm.requests)
    (hrun : collapseIndirection shm' p proto mstrLvars = some shm₁) :
    ∃ v, Private shm shm₁ p v ∧ LvarPassed shm mstrLvars (shm.var proto) name v := by
  have hassign : ∀ o o' : Option VarPtr,
      varHasIndvar (varSetIndvar (varSetIndvar (.new name .local : Var D) o) o') := by
    intro o o'
    refine varSetIndvar_hasIndvar ?_ o'
    rw [varSetIndvar_indbinop, Var.new_indbinop]
    rfl
  have hfound : varFindListOnly shm' (shm'.var u).varName mstrLvars =
      varFindListOnly shm (shm.var u).varName mstrLvars := by
    rw [h.var u hu, varFindListOnly, varFindListOnly, varFindList_extends h.toExtends hlvars]
  -- the last part, for the variable `w` that the search gives
  have hlast : ∀ {shm₂ : VarShm D} {w : VarPtr} {v : Var D}, Private shm shm₂ p v →
      v.varName = name → varHasIndvar v → v.varVarptr1 = some w → w < shm.requests →
      upVar shm mstrLvars u = some w →
      (if varHasIndvar (shm₂.var w) then
        some (shm₂.setVar p (varSetIndvar (shm₂.var p) (shm₂.var w).varVarptr1))
        else some shm₂) = some shm₁ →
      ∃ v, Private shm shm₁ p v ∧ LvarPassed shm mstrLvars (shm.var proto) name v := by
    intro shm₂ w v h₂ hname hv hw hwlt hup hend
    rw [h₂.var w hwlt, h₂.self] at hend
    split at hend
    next hwind =>
      obtain rfl := Option.some.inj hend
      refine ⟨_, h₂.setVar _, .indirect hind hname hptr hup ?_ ?_⟩
      · exact varSetIndvar_hasIndvar hv.2 _
      · rw [if_pos hwind]
        rfl
    next hwind =>
      obtain rfl := Option.some.inj hend
      exact ⟨v, h₂, .indirect hind hname hptr hup hv (by rw [if_neg hwind, hw])⟩
  unfold collapseIndirection at hrun
  rw [h.var proto hproto, hptr] at hrun
  unfold upLvar at hrun
  by_cases hnil : mstrLvars = []
  · rw [if_pos hnil] at hrun
    rw [hptr] at h
    refine hlast h rfl ?_ rfl hu (if_pos hnil) hrun
    refine varSetIndvar_hasIndvar ?_ _
    rw [Var.new_indbinop]
    rfl
  · rw [if_neg hnil] at hrun
    simp only [Option.map_some, hfound] at hrun
    cases hw : varFindListOnly shm (shm.var u).varName mstrLvars with
    | none =>
      rw [hw] at hrun
      cases hrun
    | some w =>
      rw [hw] at hrun
      have hwlt : w < shm.requests := hlvars w (List.mem_of_find?_eq_some hw)
      refine hlast (h.setVar _) ?_ ?_ ?_ hwlt ((if_neg hnil).trans hw) hrun
      · rw [h.self]
        rfl
      · rw [h.self]
        exact hassign _ _
      · rfl

/-- A new variable begins as a copy of the variable of that name in the definition. -/
theorem varUpdateCompLvars_copied (hample : Ample shm) {p proto : VarPtr} {name : CString}
    {protoLvars : List VarPtr} (mstrLvars : List VarPtr)
    (h : Private shm shm' p (.new name .local)) (hproto : ∀ q ∈ protoLvars, q < shm.requests)
    (hfind : varFindListOnly shm name protoLvars = some proto) :
    ∃ shm₂ v, Private shm shm₂ p v ∧ Copied (shm.var proto) (.new name .local) v ∧
      varUpdateCompLvars shm' p protoLvars mstrLvars =
        if varHasIndvar (shm.var proto) then collapseIndirection shm₂ p proto mstrLvars
        else some shm₂ := by
  have hlt : proto < shm.requests := hproto proto (List.mem_of_find?_eq_some hfind)
  have hfind' : varFindListOnly shm' (shm'.var p).varName protoLvars = some proto := by
    rw [h.self, varFindListOnly, varFindList_extends h.toExtends hproto]
    exact hfind
  have hunset : (shm'.var p).Unset := by
    rw [h.self]
    change VarClass.local.bits &&& varTypeSetMask = 0
    decide
  obtain ⟨shm₂, v, hshm₂, hcopied, hcopy⟩ := varCopy_ample (hample.extends h.toExtends) p proto
  rw [h.var proto hlt, h.self] at hcopied
  have hprivate : Private shm (shm₂.setVar p v) p v := by
    rcases hshm₂ with rfl | rfl
    · exact h.setVar v
    · exact h.request.setVar v
  refine ⟨_, v, hprivate, hcopied, ?_⟩
  unfold varUpdateCompLvars
  simp only [hfind', varCopyUnset, if_pos hunset, hcopy]
  rw [hprivate.var proto hlt]

/-- What a definition passes to a new variable of that name. -/
theorem varUpdateCompLvars_private (hr : Rooted shm) (hample : Ample shm) {p proto : VarPtr}
    {name : CString} {protoLvars mstrLvars : List VarPtr}
    (h : Private shm shm' p (.new name .local))
    (hproto : ∀ q ∈ protoLvars, q < shm.requests) (hlvars : ∀ q ∈ mstrLvars, q < shm.requests)
    (hfind : varFindListOnly shm name protoLvars = some proto)
    (hrun : varUpdateCompLvars shm' p protoLvars mstrLvars = some shm₁) :
    ∃ v, Private shm shm₁ p v ∧ LvarPassed shm mstrLvars (shm.var proto) name v := by
  have hlt : proto < shm.requests := hproto proto (List.mem_of_find?_eq_some hfind)
  obtain ⟨shm₂, v, hprivate, hcopied, heq⟩ :=
    varUpdateCompLvars_copied hample mstrLvars h hproto hfind
  rw [heq] at hrun
  split at hrun
  next hind =>
    obtain ⟨u, hu⟩ : ∃ u, (shm.var proto).varVarptr1 = some u := by
      cases hptr : (shm.var proto).varVarptr1 with
      | some u => exact ⟨u, rfl⟩
      | none =>
        exfalso
        unfold collapseIndirection upLvar at hrun
        rw [hprivate.var proto hlt, hptr] at hrun
        split at hrun
        next heq =>
          split at heq
          · cases heq
          · cases heq
        next => cases hrun
    obtain rfl := hcopied.eq_indvar hind
    exact collapseIndirection_private hprivate hlt hind hu (hr.pointers proto u hu) hlvars hrun
  next hind =>
    obtain rfl := Option.some.inj hrun
    exact ⟨v, hprivate, .value hind hcopied⟩

/-- Only an indirection of the definition can lead nowhere. -/
theorem varUpdateCompLvars_none (hample : Ample shm) {p proto : VarPtr} {name : CString}
    {protoLvars mstrLvars : List VarPtr} (h : Private shm shm' p (.new name .local))
    (hproto : ∀ q ∈ protoLvars, q < shm.requests)
    (hfind : varFindListOnly shm name protoLvars = some proto)
    (hrun : varUpdateCompLvars shm' p protoLvars mstrLvars = none) :
    varHasIndvar (shm.var proto) := by
  obtain ⟨shm₂, v, -, -, heq⟩ := varUpdateCompLvars_copied hample mstrLvars h hproto hfind
  rw [heq] at hrun
  by_contra hind
  rw [if_neg hind] at hrun
  cases hrun

end Filebench
