import Filebench.Vars.Binding

/-! # Local variables

A local variable that is assigned from another local variable stands for it. A descriptor on a
variable looks through one such indirection when it is made, and the evaluators of integers and
strings look through none, where the printing of a variable follows them all. -/
namespace Filebench

open Fuel

variable {D σ : Type}

def varLvarAllocLocal (shm : VarShm D) (name : CString) : Option VarPtr × VarShm D :=
  varAllocCmn shm name .local

/-- The common part of the assignments: a new variable in any case. -/
def varLvarAssign (shm : VarShm D) (name : CString)
    (set : VarPtr → VarShm D → Option VarPtr × VarShm D) : Option VarPtr × VarShm D :=
  match varLvarAllocLocal shm name with
  | (none, shm) => (none, shm)
  | (some p, shm) => set p shm

def varLvarAssignBoolean (shm : VarShm D) (name : CString) (b : Bool) :
    Option VarPtr × VarShm D :=
  varLvarAssign shm name fun p shm => (some p, shm.setVar p (varSetBool (shm.var p) b))

def varLvarAssignInteger (shm : VarShm D) (name : CString) (n : FbInt) :
    Option VarPtr × VarShm D :=
  varLvarAssign shm name fun p shm => (some p, shm.setVar p (varSetInt (shm.var p) n))

def varLvarAssignString (shm : VarShm D) (name s : CString) : Option VarPtr × VarShm D :=
  varLvarAssign shm name fun p shm =>
    match ipcStralloc shm s with
    | (none, shm) => (none, shm)
    | (some strptr, shm) => (some p, shm.setVar p (varSetStr (shm.var p) strptr))

theorem boolSet_mem : varTypeBoolSet ∈ valueKinds := by decide
theorem intSet_mem : varTypeIntSet ∈ valueKinds := by decide
theorem strSet_mem : varTypeStrSet ∈ valueKinds := by decide
theorem randSet_mem : varTypeRandSet ∈ valueKinds := by decide

/-- A source that is not local is copied. A double becomes an integer. -/
def varLvarAssignVar [DoubleOps D] (shm : VarShm D) (name srcName : CString) :
    Option VarPtr × VarShm D :=
  match varFind shm srcName with
  | none => (none, shm)
  | some srcVar => varLvarAssign shm name fun p shm =>
    let src := shm.var srcVar
    if src.isLocal then (some p, shm.setVar p (varSetIndvar (shm.var p) (some srcVar)))
    else if varHasBoolean src then (some p, varCopyValue shm p srcVar varTypeBoolSet boolSet_mem)
    else if varHasInteger src then (some p, varCopyValue shm p srcVar varTypeIntSet intSet_mem)
    else if varHasString src then
      match shm.request with
      | (false, shm) => (none, shm)
      | (true, shm) => (some p, varCopyValue shm p srcVar varTypeStrSet strSet_mem)
    else if varHasDouble src then
      match src.varVal with
      | .dblFlt d => (some p, shm.setVar p (varSetInt (shm.var p) (DoubleOps.toFbInt d)))
      | _ => (some p, shm)
    else if varHasRanddist src then (some p, varCopyValue shm p srcVar varTypeRandSet randSet_mem)
    else (some p, shm)

/-- The log message on a variable that is not there reads its name. -/
def avdGetStr (shm : VarShm D) : Avd D → Except Fault (Option CString)
  | .valStr s => .ok (some s)
  | .varvalStr p => do pure (some (← (shm.var p).varVal.getString))
  | .indVar none => .error .uninitialized
  | .indVar (some p) =>
    if varHasString (shm.var p) then do pure (some (← (shm.var p).varVal.getString))
    else .ok none
  | _ => .ok none

/-! ## Chains -/

/-- A variable that was assigned from another local one. -/
structure Indirects (shm : VarShm D) (p q : VarPtr) : Prop where
  indvar : varHasIndvar (shm.var p)
  operator : (shm.var p).indvar = varIndAssign
  varptr : (shm.var p).varVarptr1 = some q

/-- The variables were assigned one from the next, the last one from none of them. Meanwhile they
kept what they hold, the last one excepted. -/
inductive LvarChain [DoubleOps D] : VarShm D → List VarPtr → Prop where
  | last {shm p} (hp : p < shm.requests) (hlocal : (shm.var p).isLocal) : LvarChain shm [p]
  | assign {shm shm' : VarShm D} {name srcName p q l} (h : LvarChain shm (q :: l))
      (hfind : varFind shm srcName = some q)
      (hassign : varLvarAssignVar shm name srcName = (some p, shm')) : LvarChain shm' (p :: q :: l)
  | keep {shm shm' : VarShm D} {l} (h : LvarChain shm l) (hreq : shm.requests ≤ shm'.requests)
      (hkept : ∀ p ∈ l.dropLast, shm'.var p = shm.var p)
      (hlocal : ∀ p ∈ l, (shm'.var p).isLocal) : LvarChain shm' l

/-- What the assignments leave of the variables of a chain. -/
structure Chained (shm : VarShm D) (l : List VarPtr) : Prop where
  allocated : ∀ p ∈ l, p < shm.requests
  isLocal : ∀ p ∈ l, (shm.var p).isLocal
  links : l.IsChain (Indirects shm)

/-- A new local variable, which no variable of the lists was before. -/
structure NewLocal (shm shm' : VarShm D) (p : VarPtr) (v : Var D) : Prop where
  address : p = shm.requests
  requests : shm.requests < shm'.requests
  var : shm'.var = Function.update shm.var p v
  locList : shm'.shmVarLocList = p :: shm.shmVarLocList

theorem varLvarAllocLocal_some {shm shm' : VarShm D} {name : CString} {p : VarPtr}
    (h : varLvarAllocLocal shm name = (some p, shm')) :
    NewLocal shm shm' p (.new name .local) := by
  simp only [varLvarAllocLocal, varAllocCmn] at h
  split at h
  next => cases (Prod.mk.inj h).1
  next shm₁ hreq =>
    split at h
    next => cases (Prod.mk.inj h).1
    next shm₂ hreq' =>
      obtain ⟨hp, rfl⟩ := Prod.mk.inj h
      obtain rfl := Option.some.inj hp
      obtain rfl := congrArg Prod.snd hreq
      obtain rfl := congrArg Prod.snd hreq'
      exact ⟨rfl, Nat.lt_add_of_pos_right Nat.two_pos, rfl, rfl⟩

theorem NewLocal.var_of_lt {shm shm' : VarShm D} {p q : VarPtr} {v : Var D}
    (h : NewLocal shm shm' p v) (hq : q < shm.requests) : shm'.var q = shm.var q := by
  rw [h.var, h.address]
  exact Function.update_of_ne hq.ne ..

theorem NewLocal.set {shm shm' : VarShm D} {p : VarPtr} {v : Var D} (h : NewLocal shm shm' p v)
    (v' : Var D) : NewLocal shm (shm'.setVar p v') p v' := by
  refine ⟨h.address, h.requests, ?_, h.locList⟩
  rw [VarShm.setVar, h.var, Function.update_idem]

/-- Assigned from a local variable, a new one stands for it. -/
theorem varLvarAssignVar_local [DoubleOps D] {shm shm' : VarShm D} {name srcName : CString}
    {p q : VarPtr} (hq : q < shm.requests) (hlocal : (shm.var q).isLocal)
    (hfind : varFind shm srcName = some q)
    (h : varLvarAssignVar shm name srcName = (some p, shm')) :
    NewLocal shm shm' p (varSetIndvar (.new name .local) (some q)) := by
  simp only [varLvarAssignVar, hfind, varLvarAssign] at h
  split at h
  next => cases (Prod.mk.inj h).1
  next p' shm₁ halloc =>
    have hnew := varLvarAllocLocal_some halloc
    have hv : shm₁.var p' = .new name .local := by rw [hnew.var, Function.update_self]
    rw [hnew.var_of_lt hq, if_pos hlocal, hv] at h
    obtain ⟨hp, rfl⟩ := Prod.mk.inj h
    obtain rfl := Option.some.inj hp
    exact hnew.set _

theorem varSetIndvar_new {name : CString} {cls : VarClass} {q : VarPtr} {shm : VarShm D}
    {p : VarPtr} (h : shm.var p = varSetIndvar (.new name cls) (some q)) : Indirects shm p q := by
  constructor
  · rw [h]
    exact ⟨(varSetIndvar_has _).mpr rfl, varSetIndvar_indbinop.trans (Var.new_indbinop ..)⟩
  · rw [h]
    exact varSetIndvar_indvar
  · rw [h]
    rfl

theorem Indirects.congr {shm shm' : VarShm D} {p q : VarPtr} (h : Indirects shm p q)
    (hp : shm'.var p = shm.var p) : Indirects shm' p q :=
  ⟨hp.symm ▸ h.indvar, hp.symm ▸ h.operator, hp.symm ▸ h.varptr⟩

/-- Only the variables before the last one stand for another. -/
theorem isChain_indirects_congr {shm shm' : VarShm D} {l : List VarPtr}
    (h : l.IsChain (Indirects shm)) (hvar : ∀ p ∈ l.dropLast, shm'.var p = shm.var p) :
    l.IsChain (Indirects shm') := by
  induction h with
  | nil => exact .nil
  | singleton => exact .singleton _
  | cons_cons hpq _ ih =>
    refine .cons_cons (hpq.congr (hvar _ (.head _))) (ih fun r hr => hvar r ?_)
    exact .tail _ hr

theorem Chained.assign [DoubleOps D] {shm shm' : VarShm D} {name srcName : CString} {p q : VarPtr}
    {l : List VarPtr} (h : Chained shm (q :: l)) (hfind : varFind shm srcName = some q)
    (hassign : varLvarAssignVar shm name srcName = (some p, shm')) :
    Chained shm' (p :: q :: l) := by
  have hnew := varLvarAssignVar_local (h.allocated q (.head _)) (h.isLocal q (.head _)) hfind
    hassign
  have hself : shm'.var p = varSetIndvar (.new name .local) (some q) := by
    rw [hnew.var, Function.update_self]
  have hold : ∀ r ∈ q :: l, shm'.var r = shm.var r :=
    fun r hr => hnew.var_of_lt (h.allocated r hr)
  constructor
  · intro r hr
    rcases List.mem_cons.mp hr with rfl | hr
    · exact hnew.address ▸ hnew.requests
    · exact (h.allocated r hr).trans hnew.requests
  · intro r hr
    rcases List.mem_cons.mp hr with rfl | hr
    · rw [hself]
      exact varSetIndvar_class.trans (show VarClass.local.bits &&& varTypeMask = _ by decide)
    · rw [hold r hr]
      exact h.isLocal r hr
  · refine .cons_cons (varSetIndvar_new hself) ?_
    exact isChain_indirects_congr h.links fun r hr => hold r (List.mem_of_mem_dropLast hr)

theorem LvarChain.chained [DoubleOps D] {shm : VarShm D} {l : List VarPtr}
    (h : LvarChain shm l) : Chained shm l := by
  induction h with
  | last hp hlocal =>
    exact ⟨fun r hr => List.mem_singleton.mp hr ▸ hp, fun r hr => List.mem_singleton.mp hr ▸ hlocal,
      .singleton _⟩
  | assign _ hfind hassign ih => exact ih.assign hfind hassign
  | keep _ hreq hkept hlocal ih =>
    exact ⟨fun r hr => (ih.allocated r hr).trans_le hreq, hlocal,
      isChain_indirects_congr ih.links hkept⟩

/-! ## Descriptors on a chain -/

theorem Indirects.not_has {shm : VarShm D} {p q : VarPtr} (h : Indirects shm p q)
    {kind : BitVec 32} (hkind : kind ∈ valueKinds) : ¬ varHas (shm.var p) kind := by
  intro h'
  obtain rfl := varHas_unique h' h.indvar.1
  exact absurd hkind (by decide)

/-- The descriptor looks through one indirection. -/
theorem avdVarPtr_of_indirects {shm : VarShm D} {p q : VarPtr} (h : Indirects shm p q) :
    avdVarPtr p (shm.var p) = .indVar (some q) := by
  rw [avdVarPtr, if_neg (h.not_has (by decide)), if_neg (h.not_has (by decide)),
    if_neg (h.not_has (by decide)), if_neg (h.not_has (by decide)),
    if_neg (h.not_has (by decide)), if_pos h.indvar.1, if_pos h.operator, h.varptr]

theorem avdVarPtr_integer {vp : Var D} (h : varHasInteger vp) (p : VarPtr) :
    avdVarPtr p vp = .varvalInt p := by
  have hb : ¬ varHasBoolean vp := fun h' => absurd (varHas_unique h' h) (by decide)
  rw [avdVarPtr, if_neg hb, if_pos h]

theorem avdVarPtr_string {vp : Var D} (h : varHasString vp) (p : VarPtr) :
    avdVarPtr p vp = .varvalStr p := by
  have hb : ¬ varHasBoolean vp := fun h' => absurd (varHas_unique h' h) (by decide)
  have hi : ¬ varHasInteger vp := fun h' => absurd (varHas_unique h' h) (by decide)
  rw [avdVarPtr, if_neg hb, if_neg hi, if_pos h]

theorem avdAllocVarPtr_some {shm shm' : VarShm D} {p : VarPtr} {avd : Avd D}
    (h : avdAllocVarPtr shm p = (some avd, shm')) : avd = avdVarPtr p (shm.var p) := by
  unfold avdAllocVarPtr at h
  split at h
  next => cases (Prod.mk.inj h).1
  next hreq =>
    obtain rfl := congrArg Prod.snd hreq
    exact (Option.some.inj (Prod.mk.inj h).1).symm

/-- The evaluation of an integer gives zero for a variable that stands for another. -/
theorem varGetInt_of_indirects [DoubleOps D] {shm : VarShm D} {p q : VarPtr}
    (h : Indirects shm p q) (env : RandEnv D σ) (fuel : ℕ) :
    varGetInt env shm (fuel + 1) p = pure 0 := by
  rw [varGetInt, varGetNum]
  rw [if_neg (h.not_has (by decide)), if_neg fun h' => h.not_has (by decide) h'.2,
    if_neg (h.not_has (by decide)), if_neg fun h' => h'.2 h.indvar.2]
  rfl

/-- The text of a variable that stands for another is not there. -/
theorem avdGetStr_of_indirects {shm : VarShm D} {p q : VarPtr} (h : Indirects shm p q) :
    avdGetStr shm (.indVar (some p)) = .ok none := by
  rw [avdGetStr, if_neg (h.not_has (by decide))]

theorem Indirects.of_append [DoubleOps D] {shm : VarShm D} {pre rest : List VarPtr} {p q : VarPtr}
    (h : LvarChain shm (pre ++ p :: q :: rest)) : Indirects shm p q :=
  (List.isChain_cons_cons.mp (List.isChain_append.mp h.chained.links).2.1).1

section chain

variable [DoubleOps D] (env : RandEnv D σ)

theorem avdGetInt_of_holds {shm shm' : VarShm D} {q : VarPtr} {avd : Avd D} {n : FbInt}
    (hq : varHasInteger (shm.var q)) (hn : (shm.var q).varVal = .integer n)
    (hlater : shm'.var q = shm.var q) (havd : avd = .varvalInt q ∨ avd = .indVar (some q))
    (fuel : ℕ) : avdGetInt env shm' (fuel + 1) avd = pure n := by
  rcases havd with rfl | rfl
  · rw [avdGetInt, hlater, hn]
    rfl
  · rw [avdGetInt, getOrZero, varGetInt, varGetNum_integer _ (hlater.symm ▸ hq), hlater, hn]
    rfl

omit [DoubleOps D] in
theorem avdGetStr_of_holds {shm shm' : VarShm D} {q : VarPtr} {avd : Avd D} {s : CString}
    (hq : varHasString (shm.var q)) (hs : (shm.var q).varVal = .string s)
    (hlater : shm'.var q = shm.var q) (havd : avd = .varvalStr q ∨ avd = .indVar (some q)) :
    avdGetStr shm' avd = .ok (some s) := by
  rcases havd with rfl | rfl
  · rw [avdGetStr, hlater, hs]
    rfl
  · rw [avdGetStr, if_pos (hlater.symm ▸ hq), hlater, hs]
    rfl

theorem gives_succ_pure {f : ℕ → Eval σ FbInt} {m n : FbInt} {st : σ}
    (h : ∀ fuel, f (fuel + 1) = pure m) : Gives f st (.ok (n, st)) ↔ m = n := by
  have hm : Gives f st (.ok (m, st)) := by
    refine Gives.of_succ ?_
    simp only [h]
    exact gives_pure m st
  constructor
  · intro hn
    exact (Prod.mk.inj (Except.ok.inj (hm.unique hn))).1
  · rintro rfl
    exact hm

/-- What the descriptor on a variable of a chain gives: the value of the last variable as long as
at most one assignment lies between them. -/
theorem lvarChain_avdGet {shm shm₁ shm' : VarShm D} {pre rest : List VarPtr} {p q : VarPtr}
    {avd : Avd D} (hchain : LvarChain shm (pre ++ p :: rest))
    (hlast : (p :: rest).getLast? = some q) (havd : avdAllocVarPtr shm p = (some avd, shm₁))
    (hlater : ∀ r ∈ p :: rest, shm'.var r = shm.var r) :
    (∀ n st, varHasInteger (shm.var q) → (shm.var q).varVal = .integer n →
      (Gives (fun fuel => avdGetInt env shm' fuel avd) st (.ok (n, st)) ↔
        rest.length ≤ 1 ∨ n = 0)) ∧
    ∀ s, varHasString (shm.var q) → (shm.var q).varVal = .string s →
      (avdGetStr shm' avd = .ok (some s) ↔ rest.length ≤ 1) := by
  have havd := avdAllocVarPtr_some havd
  rcases rest with - | ⟨r, - | ⟨r', rest⟩⟩
  · obtain rfl : p = q := Option.some.inj hlast
    have hp := hlater p (.head _)
    constructor
    · intro n st hq hn
      rw [avdVarPtr_integer hq] at havd
      rw [gives_succ_pure (avdGetInt_of_holds env hq hn hp (.inl havd))]
      simp
    · intro s hq hs
      rw [avdVarPtr_string hq] at havd
      simp [avdGetStr_of_holds hq hs hp (.inl havd)]
  · obtain rfl : r = q := Option.some.inj hlast
    rw [avdVarPtr_of_indirects (.of_append hchain)] at havd
    have hr := hlater r (.tail _ (.head _))
    constructor
    · intro n st hq hn
      rw [gives_succ_pure (avdGetInt_of_holds env hq hn hr (.inr havd))]
      simp
    · intro s hq hs
      simp [avdGetStr_of_holds hq hs hr (.inr havd)]
  · rw [avdVarPtr_of_indirects (.of_append hchain)] at havd
    subst havd
    rw [List.append_cons] at hchain
    have hr : Indirects shm' r r' :=
      (Indirects.of_append hchain).congr (hlater r (.tail _ (.head _)))
    constructor
    · intro n st _ _
      have hlen : ¬ (r :: r' :: rest).length ≤ 1 := by simp
      rw [gives_succ_pure (varGetInt_of_indirects hr env), or_iff_right hlen, eq_comm]
    · intro s _ _
      simp [avdGetStr_of_indirects hr]

end chain

/-- `$a = 5, $b = $a` -/
def assigned : VarShm ℚ := (@varLvarAssignVar ℚ rationals (varLvarAssignInteger noVars ['a'] 5).2
  ['b'] ['a']).2

/-- `$a = 5, $b = $a, $c = $b` -/
def assignedTwice : VarShm ℚ := (@varLvarAssignVar ℚ rationals assigned ['c'] ['b']).2

theorem assigned_chain : @LvarChain ℚ rationals assigned [2, 0] := by
  have hlast : @LvarChain ℚ rationals (varLvarAssignInteger noVars ['a'] 5).2 [0] :=
    @LvarChain.last ℚ rationals _ 0 (by decide) (by decide)
  exact @LvarChain.assign ℚ rationals _ _ ['b'] ['a'] _ _ _ hlast rfl rfl

theorem assignedTwice_chain : @LvarChain ℚ rationals assignedTwice [4, 2, 0] :=
  @LvarChain.assign ℚ rationals _ _ ['c'] ['b'] _ _ _ assigned_chain rfl rfl

theorem lvarChain_avdGet_once : Gives (fun fuel => @avdGetInt ℚ Unit rationals noRandom assigned
    fuel (.indVar (some 0))) () (.ok (5, ())) :=
  ((@lvarChain_avdGet ℚ Unit rationals noRandom _ _ assigned [] [0] 2 0 _ assigned_chain rfl rfl
    fun _ _ => rfl).1 5 () (by decide) rfl).mpr (.inl le_rfl)

/-- The descriptor on the third variable gives zero. -/
theorem lvarChain_avdGet_twice : @LvarChain ℚ rationals assignedTwice [4, 2, 0] ∧
    (assignedTwice.var 0).varVal = .integer 5 ∧
    Gives (fun fuel => @avdGetInt ℚ Unit rationals noRandom assignedTwice fuel
      (avdVarPtr 4 (assignedTwice.var 4))) () (.ok (0, ())) := by
  refine ⟨assignedTwice_chain, rfl, ⟨1, fun fuel hfuel => ?_⟩⟩
  obtain ⟨n, rfl⟩ := Nat.exists_eq_add_of_le' hfuel
  rfl

end Filebench
