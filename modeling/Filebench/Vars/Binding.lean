import Filebench.Vars.Acyclic

/-! # Delayed binding

An attribute that refers to a variable gets a descriptor that points into the variable or at it,
by what the variable holds at that time. What the descriptor gives later agrees with the variable
as long as no assignment turns the variable into something the descriptor cannot follow. -/
namespace Filebench

open Fuel

variable {D σ : Type}

/-- Attribute value descriptors. The pointers into a variable are the address of the variable. -/
inductive Avd (D : Type) where
  | valBool (b : Bool)
  | varvalBool (p : VarPtr)
  | valInt (n : FbInt)
  | varvalInt (p : VarPtr)
  | valStr (s : CString)
  | varvalStr (p : VarPtr)
  | valDbl (d : D)
  | varvalDbl (p : VarPtr)
  | indVar (p : Option VarPtr)
  | indRandvar (r : Option RandPtr)

/-- No other variable has the kind of a random one, so that there is a pointer to read. -/
def VarVal.randdist : VarVal D → Option RandPtr
  | .randptr r => some r
  | _ => none

/-- What `avd_alloc_var_ptr` puts in the descriptor. -/
def avdVarPtr (p : VarPtr) (vp : Var D) : Avd D :=
  if varHasBoolean vp then .varvalBool p
  else if varHasInteger vp then .varvalInt p
  else if varHasString vp then .varvalStr p
  else if varHasDouble vp then .varvalDbl p
  else if varHasRanddist vp then .indRandvar vp.varVal.randdist
  else if varHas vp varTypeIndvarSet then
    if vp.indvar = varIndAssign then .indVar vp.varVarptr1 else .indVar (some p)
  else .indVar (some p)

def avdAllocVarPtr (shm : VarShm D) (p : VarPtr) : Option (Avd D) × VarShm D :=
  match shm.request with
  | (false, shm) => (none, shm)
  | (true, shm) => (some (avdVarPtr p (shm.var p)), shm)

/-- The variable of a reference, which is made when there is none. -/
def varRef (fill : Var D → Option (Var D)) (shm : VarShm D) (name : CString) :
    Option VarPtr × VarShm D :=
  match varFind shm name with
  | some p => (some p, shm)
  | none =>
    match varFindDynamic fill shm name with
    | (some p, shm) => (some p, shm)
    | (none, shm) => varAlloc shm name

/-- Without a variable the program is shut down. -/
def varRefAttr (fill : Var D → Option (Var D)) (shm : VarShm D) (name : CString) :
    Option (Avd D) × VarShm D :=
  match varRef fill shm name with
  | (some p, shm) => avdAllocVarPtr shm p
  | (none, shm) => (none, shm)

def avdGetInt [DoubleOps D] (env : RandEnv D σ) (shm : VarShm D) (fuel : ℕ) :
    Avd D → Eval σ FbInt
  | .valInt n => pure n
  | .varvalInt p => orFault (shm.var p).varVal.getInteger
  | .indVar p => getOrZero (intArith D) (varGetInt env shm fuel) p
  | .indRandvar none => pure 0
  | .indRandvar (some r) => do
    pure (DoubleOps.toFbInt (← fun s => some (env.rndGet r s)))
  | _ => pure 0

/-! ## References and assignments -/

/-- An attribute that was set to `$name`. -/
structure VarAttr (D : Type) where
  name : CString
  avd : Avd D

/-- The variables and the attributes that refer to some. -/
structure Workload (D : Type) where
  shm : VarShm D
  attrs : List (VarAttr D)

inductive BindEvent where
  | set (op : SetOp)
  | ref (name : CString)

/-- An attribute without a descriptor does not refer to anything. -/
def Workload.next (fill : Var D → Option (Var D)) (w : Workload D) : BindEvent → Workload D
  | .set op => { w with shm := (op.apply w.shm).2 }
  | .ref name =>
    match varRefAttr fill w.shm name with
    | (some avd, shm) => ⟨shm, ⟨name, avd⟩ :: w.attrs⟩
    | (none, shm) => ⟨shm, w.attrs⟩

inductive BindRun (fill : Var D → Option (Var D)) (ok : Workload D → BindEvent → Prop) :
    Workload D → Workload D → Prop where
  | refl (w) : BindRun fill ok w w
  | tail {w₀ w} (e) : BindRun fill ok w₀ w → ok w e → BindRun fill ok w₀ (w.next fill e)

/-- The descriptor can follow the command on its variable: to an integer it points into the
variable or at it, and to an operation it points at it. -/
def SetOp.Suits (shm : VarShm D) (p : VarPtr) (avd : Avd D) (op : SetOp) : Prop :=
  match op with
  | .boolean _ _ | .string _ _ => True
  | .integer _ _ => avd = .varvalInt p ∨ avd = .indVar (some p)
  | .var _ src => ∀ q, varFind shm src = some q → varHasInteger (shm.var q) →
      avd = .varvalInt p ∨ avd = .indVar (some p)
  | .varOpInt .. | .intOpVar .. | .varOpVar .. =>
      (∀ src ∈ op.operands, varFind shm src ≠ none) → avd = .indVar (some p)

/-- The commands suit the attributes on their variables, and no attribute refers to a variable of
the system or of the environment. -/
def BindOk (fill : Var D → Option (Var D)) (w : Workload D) : BindEvent → Prop
  | .set op => ∀ p, varFind w.shm op.name = some p → ¬ (w.shm.var p).isRandom →
      ∀ a ∈ w.attrs, a.name = op.name → op.Suits w.shm p a.avd
  | .ref name => varFind w.shm name ≠ none ∨ (varFindDynamic fill w.shm name).1 = none

/-- The descriptor gives what a variable with an integer or an operation is worth. -/
structure Sees (vp : Var D) (p : VarPtr) (avd : Avd D) : Prop where
  integer : varHasInteger vp → avd = .varvalInt p ∨ avd = .indVar (some p)
  binop : varHasBinop vp → avd = .indVar (some p)

/-- A variable that stands for something stands for an operation. -/
def Operates (vp : Var D) : Prop :=
  varHas vp varTypeIndvarSet → vp.indbinop ≠ varIndAssign ∧ vp.indvar ≠ varIndAssign

structure Bound (w : Workload D) : Prop where
  wellFormed : WellFormed w.shm
  operates : ∀ p, Operates (w.shm.var p)
  attrs : ∀ a ∈ w.attrs, ∃ p, varFind w.shm a.name = some p ∧ Sees (w.shm.var p) p a.avd

structure BindStart (w : Workload D) : Prop where
  values : ValuesOnly w.shm
  attrs : w.attrs = []

/-! ## Operations -/

theorem Operates.not_indvar {vp : Var D} (h : Operates vp) : ¬ varHasIndvar vp := by
  rintro ⟨hset, hind⟩
  exact (h hset).1 hind

theorem operates_of_not {vp : Var D} (h : ¬ varHas vp varTypeIndvarSet) : Operates vp :=
  fun hset => absurd hset h

theorem FskOp.indvar_ne (op : FskOp) :
    op.varInt &&& varIndvarMask ≠ varIndAssign ∧ op.intVar &&& varIndvarMask ≠ varIndAssign ∧
      op.varVar &&& varIndvarMask ≠ varIndAssign := by
  cases op <;> decide

theorem varSetBinopIndvar_operates {v : Var D} {p : Option VarPtr} {st : BitVec 32}
    {src2 : VarVal D} (hst : IsOptype st) (hind : st &&& varIndvarMask ≠ varIndAssign) :
    Operates (varSetBinopIndvar v p st src2) := by
  intro _
  constructor
  · exact (isOptype_binop hst).2
  · rwa [varSetBinopIndvar_indvar]

theorem Assigned.operates {shm : VarShm D} {op : SetOp} {v v' : Var D}
    (h : Assigned shm op v v') (hshm : ∀ q, Operates (shm.var q)) (hv : Operates v) :
    Operates v' := by
  cases h with
  | boolean | integer | string => exact operates_of_not (varSet_not_indvarSet (by decide))
  | var _ hcopied =>
    cases hcopied with
    | value hmem => exact operates_of_not (varSet_not_indvarSet hmem)
    | indvar hind => exact absurd hind (hshm _).not_indvar
    | nothing => exact hv
  | varOpInt op => exact varSetBinopIndvar_operates op.isOptype.1 op.indvar_ne.1
  | intOpVar op => exact varSetBinopIndvar_operates op.isOptype.2.1 op.indvar_ne.2.1
  | varOpVar op => exact varSetBinopIndvar_operates op.isOptype.2.2 op.indvar_ne.2.2

theorem Grows.operates {shm shm' : VarShm D} (h : Grows shm shm')
    (hshm : ∀ p, Operates (shm.var p)) (p : VarPtr) : Operates (shm'.var p) := by
  rcases h.var p with hp | ⟨-, name, cls, hp⟩
  · rw [hp]
    exact hshm p
  · rw [hp]
    exact operates_of_not (Var.new_not_indvarSet name cls)

theorem SetOp.apply_operates {shm shm' : VarShm D} (hwf : WellFormed shm)
    (hshm : ∀ p, Operates (shm.var p)) {op : SetOp} {r : ℤ} (h : op.apply shm = (r, shm'))
    (q : VarPtr) : Operates (shm'.var q) := by
  rcases SetOp.apply_effect hwf h with ⟨-, hgrow⟩ | ⟨-, shm₁, p, v', heffect, rfl⟩
  · exact hgrow.operates hshm q
  · by_cases hq : q = p
    · rw [hq, setVar_var_self]
      exact heffect.assigned.operates hshm (heffect.grows.operates hshm p)
    · rw [setVar_var_of_ne _ _ hq]
      exact heffect.grows.operates hshm q

/-! ## Descriptors -/

/-- A new descriptor is right for what the variable holds. -/
theorem avdVarPtr_sees {vp : Var D} (h : Operates vp) (p : VarPtr) : Sees vp p (avdVarPtr p vp) := by
  constructor
  · intro hint
    have hb : ¬ varHasBoolean vp := fun h' => absurd (varHas_unique h' hint) (by decide)
    rw [avdVarPtr, if_neg hb, if_pos hint]
    exact .inl rfl
  · intro hbinop
    have hnot : ∀ k ∈ valueKinds, ¬ varHas vp k := by
      intro k hk h'
      obtain rfl := varHas_unique h' hbinop.1
      exact absurd hk (by decide)
    rw [avdVarPtr, if_neg (hnot _ (by decide)), if_neg (hnot _ (by decide)),
      if_neg (hnot _ (by decide)), if_neg (hnot _ (by decide)), if_neg (hnot _ (by decide)),
      if_pos hbinop.1, if_neg (h hbinop.1).2]

/-- A descriptor follows the commands that suit it. -/
theorem Assigned.sees {shm : VarShm D} {op : SetOp} {v v' : Var D} {p : VarPtr} {avd : Avd D}
    (h : Assigned shm op v v') (hshm : ∀ q, Operates (shm.var q)) (hsuits : op.Suits shm p avd)
    (hv : Sees v p avd) : Sees v' p avd := by
  have hvalue : ∀ {val kind hkind hval}, kind ∈ valueKinds →
      (kind = varTypeIntSet → avd = .varvalInt p ∨ avd = .indVar (some p)) →
      Sees (varSet v val kind hkind hval) p avd := by
    intro val kind hkind hval hmem hint
    constructor
    · intro h
      exact hint ((varSet_has _).mp h)
    · intro h
      exact absurd h.1 (varSet_not_indvarSet hmem)
  have hbinop : ∀ {q st src2}, IsOptype st → avd = .indVar (some p) →
      Sees (varSetBinopIndvar v q st src2) p avd := by
    intro q st src2 hst havd
    constructor
    · intro _
      exact .inr havd
    · intro _
      exact havd
  cases h with
  | boolean | string => exact hvalue (by decide) (fun h => absurd h (by decide))
  | integer => exact hvalue (by decide) fun _ => hsuits
  | var hsrc hcopied =>
    cases hcopied with
    | value hmem _ hhas =>
      apply hvalue hmem
      rintro rfl
      exact hsuits _ hsrc hhas
    | indvar hind => exact absurd hind (hshm _).not_indvar
    | nothing => exact hv
  | varOpInt op n _ hsrc1 =>
    apply hbinop op.isOptype.1
    apply hsuits
    intro src hsrc
    rw [List.mem_singleton.mp hsrc, hsrc1]
    nofun
  | intOpVar op n _ hsrc1 =>
    apply hbinop op.isOptype.2.1
    apply hsuits
    intro src hsrc
    rw [List.mem_singleton.mp hsrc, hsrc1]
    nofun
  | varOpVar op _ hsrc1 hsrc2 =>
    apply hbinop op.isOptype.2.2
    apply hsuits
    intro src hsrc
    rcases List.mem_pair.mp hsrc with rfl | rfl
    · rw [hsrc1]
      nofun
    · rw [hsrc2]
      nofun

/-- What the descriptor gives is what the variable is worth. -/
theorem Sees.avdGetInt [DoubleOps D] {env : RandEnv D σ} {shm : VarShm D} {p : VarPtr}
    {avd : Avd D} (h : Sees (shm.var p) p avd)
    (hholds : varHasInteger (shm.var p) ∨ varHasBinop (shm.var p)) (fuel : ℕ) :
    avdGetInt env shm (fuel + 1) avd = varGetInt env shm (fuel + 1) p := by
  rcases hholds with hint | hbinop
  · rcases h.integer hint with rfl | rfl
    · rw [varGetInt, varGetNum_integer (intArith D) hint]
      exact (bind_pure _).symm
    · rfl
  · rw [h.binop hbinop]
    rfl

/-! ## The steps -/

/-- A dynamic variable is on neither of the other lists. -/
theorem varAllocDynamic_grows {shm shm' : VarShm D} {name : CString} {o : Option VarPtr}
    (h : varAllocDynamic shm name = (o, shm')) :
    Grows shm shm' ∧ shm'.shmVarList = shm.shmVarList := by
  simp only [varAllocDynamic, varAllocCmn] at h
  split at h
  next hreq =>
    obtain rfl := (Prod.mk.inj h).2
    exact ⟨grows_request hreq, (congrArg (·.2.shmVarList) hreq).symm⟩
  next shm₁ hreq =>
    split at h
    next hreq' =>
      obtain rfl := (Prod.mk.inj h).2
      refine ⟨(grows_request hreq).trans (grows_request hreq'), ?_⟩
      obtain rfl := congrArg Prod.snd hreq
      obtain rfl := congrArg Prod.snd hreq'
      rfl
    next shm₂ hreq' =>
      obtain rfl := (Prod.mk.inj h).2
      obtain rfl := congrArg Prod.snd hreq
      obtain rfl := congrArg Prod.snd hreq'
      refine ⟨⟨Nat.le_add_right _ 2, ?_, ⟨[], by simp [VarShm.request, VarShm.setVar]⟩, rfl⟩, rfl⟩
      intro q
      by_cases hq : q = shm.requests
      · subst hq
        exact .inr ⟨le_rfl, name, .dynamic, Function.update_self ..⟩
      · exact .inl (Function.update_of_ne hq ..)

theorem varFindDynamic_none {fill : Var D → Option (Var D)} {shm shm' : VarShm D}
    {name : CString} (h : varFindDynamic fill shm name = (none, shm')) :
    Grows shm shm' ∧ shm'.shmVarList = shm.shmVarList := by
  have hlookup : ∀ {o shm₁}, (match varFindList shm shm.shmVarDynList name with
      | some p => (some p, shm)
      | none => varAllocDynamic shm name) = (o, shm₁) →
      Grows shm shm₁ ∧ shm₁.shmVarList = shm.shmVarList := by
    intro o shm₁ h
    split at h
    · obtain rfl := (Prod.mk.inj h).2
      exact ⟨.refl shm, rfl⟩
    · exact varAllocDynamic_grows h
  unfold varFindDynamic at h
  split at h
  next o shm₁ heq =>
    have hgrow := hlookup heq
    split at h
    · obtain rfl := (Prod.mk.inj h).2
      exact hgrow
    · split at h
      · split at h
        · obtain rfl := (Prod.mk.inj h).2
          exact hgrow
        · cases (Prod.mk.inj h).1
      · split at h
        · obtain rfl := (Prod.mk.inj h).2
          exact hgrow
        · cases (Prod.mk.inj h).1
      · obtain rfl := (Prod.mk.inj h).2
        exact hgrow

theorem varFind_of_list_eq {shm shm' : VarShm D} (hwf : WellFormed shm) (h : Grows shm shm')
    (hlist : shm'.shmVarList = shm.shmVarList) (name : CString) :
    varFind shm' name = varFind shm name := by
  simp only [varFind, hlist, h.locList]
  congr 1
  · exact varFindList_congr fun q hq => by rw [h.var_lt (hwf.locList q hq)]
  · exact varFindList_congr fun q hq => by rw [h.var_lt (hwf.list q hq)]

/-- A reference leads to the variable that its name stands for from then on. -/
theorem varRef_grows {fill : Var D → Option (Var D)} {shm shm' : VarShm D} {name : CString}
    {o : Option VarPtr} (hwf : WellFormed shm)
    (hok : varFind shm name ≠ none ∨ (varFindDynamic fill shm name).1 = none)
    (h : varRef fill shm name = (o, shm')) :
    Grows shm shm' ∧ ∀ p, o = some p → varFind shm' name = some p := by
  unfold varRef at h
  split at h
  next p hfind =>
    obtain ⟨rfl, rfl⟩ := Prod.mk.inj h
    exact ⟨.refl shm, fun q hq => hfind.trans hq⟩
  next hnone =>
    split at h
    next p shm₁ hdyn =>
      rw [hnone, hdyn] at hok
      rcases hok with hok | hok
      · exact absurd rfl hok
      · cases hok
    next shm₁ hdyn =>
      obtain ⟨hgrow, hlist⟩ := varFindDynamic_none hdyn
      have hnone₁ : varFind shm₁ name = none := by
        rw [varFind_of_list_eq hwf hgrow hlist, hnone]
      cases o with
      | none => exact ⟨hgrow.trans (varAlloc_none h), nofun⟩
      | some p =>
        have hfa : varFindAlloc shm₁ name = (some p, shm') := by
          rw [varFindAlloc, hnone₁]
          exact h
        obtain ⟨hgrow', hfind, -⟩ := varFindAlloc_some (hgrow.wellFormed hwf) hfa
        refine ⟨hgrow.trans hgrow', fun q hq => ?_⟩
        rw [hfind, hq]

theorem avdAllocVarPtr_grows {shm shm' : VarShm D} {p : VarPtr} {o : Option (Avd D)}
    (h : avdAllocVarPtr shm p = (o, shm')) :
    Grows shm shm' ∧ ∀ avd, o = some avd → avd = avdVarPtr p (shm'.var p) := by
  unfold avdAllocVarPtr at h
  split at h
  next hreq =>
    obtain ⟨rfl, rfl⟩ := Prod.mk.inj h
    exact ⟨grows_request hreq, nofun⟩
  next shm₁ hreq =>
    obtain ⟨rfl, rfl⟩ := Prod.mk.inj h
    exact ⟨grows_request hreq, fun avd havd => (Option.some.inj havd).symm⟩

theorem varRefAttr_grows {fill : Var D → Option (Var D)} {shm shm' : VarShm D} {name : CString}
    {o : Option (Avd D)} (hwf : WellFormed shm)
    (hok : varFind shm name ≠ none ∨ (varFindDynamic fill shm name).1 = none)
    (h : varRefAttr fill shm name = (o, shm')) :
    Grows shm shm' ∧ ∀ avd, o = some avd →
      ∃ p, varFind shm' name = some p ∧ avd = avdVarPtr p (shm'.var p) := by
  unfold varRefAttr at h
  split at h
  next p shm₁ href =>
    obtain ⟨hgrow, hfind⟩ := varRef_grows hwf hok href
    obtain ⟨hgrow', havd⟩ := avdAllocVarPtr_grows h
    refine ⟨hgrow.trans hgrow', fun avd ho => ⟨p, ?_, havd avd ho⟩⟩
    exact hgrow'.find (hgrow.wellFormed hwf) (hfind p rfl)
  next shm₁ href =>
    obtain ⟨rfl, rfl⟩ := Prod.mk.inj h
    exact ⟨(varRef_grows hwf hok href).1, nofun⟩

theorem Bound.grows {w : Workload D} {shm' : VarShm D} (hb : Bound w) (h : Grows w.shm shm') :
    Bound { w with shm := shm' } := by
  constructor
  · exact h.wellFormed hb.wellFormed
  · exact h.operates hb.operates
  · intro a ha
    obtain ⟨p, hfind, hsees⟩ := hb.attrs a ha
    refine ⟨p, h.find hb.wellFormed hfind, ?_⟩
    rwa [h.var_lt (hb.wellFormed.varFind_lt hfind)]

theorem Bound.ref {w : Workload D} {fill : Var D → Option (Var D)} {name : CString}
    (hb : Bound w) (hok : BindOk fill w (.ref name)) : Bound (w.next fill (.ref name)) := by
  simp only [Workload.next]
  split
  next avd shm' h =>
    obtain ⟨hgrow, havd⟩ := varRefAttr_grows hb.wellFormed hok h
    have hb' := hb.grows hgrow
    constructor
    · exact hb'.wellFormed
    · exact hb'.operates
    · intro a ha
      rcases List.mem_cons.mp ha with rfl | ha
      · obtain ⟨p, hfind, rfl⟩ := havd avd rfl
        exact ⟨p, hfind, avdVarPtr_sees (hb'.operates p) p⟩
      · exact hb'.attrs a ha
  next shm' h => exact hb.grows (varRefAttr_grows hb.wellFormed hok h).1

theorem Bound.set {w : Workload D} {fill : Var D → Option (Var D)} {op : SetOp}
    (hb : Bound w) (hok : BindOk fill w (.set op)) : Bound (w.next fill (.set op)) := by
  have hwf := hb.wellFormed
  have happly : op.apply w.shm = ((op.apply w.shm).1, (op.apply w.shm).2) := rfl
  constructor
  · exact SetOp.apply_wellFormed hwf happly
  · exact SetOp.apply_operates hwf hb.operates happly
  · intro a ha
    obtain ⟨q, hfind, hsees⟩ := hb.attrs a ha
    have hlt := hwf.varFind_lt hfind
    refine ⟨q, SetOp.apply_varFind hwf happly hfind, ?_⟩
    change Sees ((op.apply w.shm).2.var q) q a.avd
    by_cases hname : a.name = op.name
    · rcases SetOp.apply_effect hwf happly with ⟨-, hgrow⟩ | ⟨-, shm₁, p, v', heffect, hshm'⟩
      · rwa [hgrow.var_lt hlt]
      · have hp : p = q := by
          have hold := heffect.grows.find hwf hfind
          rw [hname, heffect.target] at hold
          exact Option.some.inj hold
        subst hp
        have hold := heffect.grows.var_lt hlt
        rw [hshm', setVar_var_self]
        apply heffect.assigned.sees hb.operates
        · apply hok p (hname ▸ hfind) _ a ha hname
          rw [← hold]
          exact heffect.notRandom
        · rwa [hold]
    · have hne : varFind w.shm op.name ≠ some q := by
        intro hop
        exact hname ((varFind_varName hfind).symm.trans (varFind_varName hop))
      rwa [(SetOp.apply_var_of_ne hwf happly hlt hne).2]

theorem BindStart.bound {w : Workload D} (h : BindStart w) : Bound w := by
  constructor
  · exact h.values.wellFormed
  · intro p
    exact operates_of_not (h.values.value p)
  · intro a ha
    rw [h.attrs] at ha
    cases ha

theorem BindRun.bound {fill : Var D → Option (Var D)} {w w' : Workload D}
    (h : BindRun fill (BindOk fill) w w') (hb : Bound w) : Bound w' := by
  induction h with
  | refl => exact hb
  | tail e _ hok ih =>
    cases e with
    | set op => exact ih.set hok
    | ref name => exact ih.ref hok

/-- In every state of a history whose commands suit the attributes, a descriptor on a variable
with an integer or an operation gives what the variable is worth. -/
theorem bindRun_avdGetInt [DoubleOps D] (env : RandEnv D σ) (fill : Var D → Option (Var D))
    {w₀ w : Workload D} (hstart : BindStart w₀) (hrun : BindRun fill (BindOk fill) w₀ w)
    {a : VarAttr D} (ha : a ∈ w.attrs) {p : VarPtr} (hfind : varFind w.shm a.name = some p)
    (hholds : varHasInteger (w.shm.var p) ∨ varHasBinop (w.shm.var p)) (fuel : ℕ) :
    avdGetInt env w.shm (fuel + 1) a.avd =
      varToInteger env w.shm fill (fuel + 1) a.name := by
  obtain ⟨q, hq, hsees⟩ := (hrun.bound hstart.bound).attrs a ha
  obtain rfl := Option.some.inj (hfind.symm.trans hq)
  rw [varToInteger_of_find hfind]
  exact hsees.avdGetInt hholds fuel

def noWork : Workload ℚ := ⟨noVars, []⟩

theorem noWork_start : BindStart noWork := ⟨noVars_values, rfl⟩

theorem BindRun.event {fill : Var D → Option (Var D)} {ok : Workload D → BindEvent → Prop}
    {w₀ w : Workload D} (h : BindRun fill ok w₀ w) (e : BindEvent) (hok : ok w e) :
    BindRun fill ok w₀ (w.next fill e) := h.tail e hok

/-- `set $a = 5`, a reference to `$v`, `set $v = $a + 3` -/
theorem bindRun_avdGetInt_later : ∃ (w : Workload ℚ) (a : VarAttr ℚ), a ∈ w.attrs ∧ a.name = ['v'] ∧
    @avdGetInt ℚ Unit rationals noRandom w.shm 2 a.avd =
      @varToInteger ℚ Unit rationals noRandom w.shm noFill 2 a.name := by
  have hrun : BindRun noFill (BindOk noFill) noWork _ :=
    (((BindRun.refl noWork).event (.set (.integer ['a'] 5)) (fun _ hp => nomatch hp)).event
      (.ref ['v']) (.inr rfl)).event (.set (.varOpInt ['v'] .plus ['a'] 3)) ?_
  · exact ⟨_, ⟨['v'], .indVar (some 4)⟩, .head _, rfl,
      @bindRun_avdGetInt ℚ Unit rationals noRandom noFill _ _ noWork_start hrun
        ⟨['v'], .indVar (some 4)⟩ (.head _) 4 rfl (.inr ⟨rfl, by decide⟩) 1⟩
  · intro p hp _ a ha _ _
    obtain rfl := Option.some.inj hp
    rw [List.mem_singleton.mp ha]
    rfl

/-- `set $v = 5`, a reference to `$v`, `set $x = 1`, `set $v = $x + 3`, which first makes `$v`
one: the descriptor gives the second operand. -/
theorem avdGetInt_stale : ∃ w, BindRun noFill (fun _ _ => True) noWork w ∧
    ∃ a ∈ w.attrs, a.name = ['v'] ∧
      (∃ p, varFind w.shm ['v'] = some p ∧ varHasBinop (w.shm.var p)) ∧
      Gives (fun fuel => @avdGetInt ℚ Unit rationals noRandom w.shm fuel a.avd) ()
        (.ok (3, ())) ∧
      Gives (fun fuel => @varToInteger ℚ Unit rationals noRandom w.shm noFill fuel ['v']) ()
        (.ok (4, ())) := by
  have hrun : BindRun noFill (fun _ _ => True) noWork _ :=
    (((((BindRun.refl noWork).event (.set (.integer ['v'] 5)) trivial).event
      (.ref ['v']) trivial).event (.set (.integer ['x'] 1)) trivial).event
      (.set (.var ['v'] ['x'])) trivial).event (.set (.varOpInt ['v'] .plus ['x'] 3)) trivial
  refine ⟨_, hrun, ⟨['v'], .varvalInt 0⟩, .head _, rfl, ⟨0, rfl, rfl, by decide⟩, ?_, ?_⟩
  · exact gives_const rfl
  · refine ⟨2, fun fuel hfuel => ?_⟩
    obtain ⟨n, rfl⟩ := Nat.exists_eq_add_of_le' hfuel
    rfl

end Filebench
