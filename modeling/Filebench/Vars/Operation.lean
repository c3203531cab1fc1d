import Filebench.Vars.Effect
import Filebench.Vars.Eval

/-! # Variables set to an operation

After a set command with an operator the variable stands for the operation on whatever its
operands hold later. The macro behind the command adds the new kind of operation to the old
one, so that an integer operand is taken for a variable where the variable stood for an
operation on two variables before. -/
namespace Filebench

open Fuel

/-- An operand of a set command. -/
inductive Operand where
  | var (name : CString)
  | int (n : FbInt)

/-- The operation that a command sets its target to. -/
def SetOp.operation : SetOp → Option (FskOp × Operand × Operand)
  | .varOpInt _ op src1 n => some (op, .var src1, .int n)
  | .intOpVar _ op n src1 => some (op, .int n, .var src1)
  | .varOpVar _ op src1 src2 => some (op, .var src1, .var src2)
  | _ => none

/-- The operation modulo `2 ^ 64`. -/
def FskOp.eval : FskOp → FbInt → FbInt → FbInt
  | .plus, a, b => a + b
  | .minus, a, b => a - b
  | .multiply, a, b => a * b
  | .divide, a, b => a / b

variable {D σ : Type}

def operandValue [DoubleOps D] (env : RandEnv D σ) (fill : Var D → Option (Var D)) (shm : VarShm D) :
    Operand → ℕ → Eval σ FbInt
  | .var name, fuel => varToInteger env shm fill fuel name
  | .int n, _ => pure n

/-- The kinds of operation that variables have. -/
def operationKinds : List (BitVec 32) := [varIndAssign, varIndBinopInt, varIndBinopVar]

/-- Where a history begins: any variables with any values. -/
structure VarsStart (shm : VarShm D) : Prop where
  wellFormed : WellFormed shm
  kinds : ∀ p, (shm.var p).indbinop ∈ operationKinds

/-- The variable does not stand for an operation on two variables, nor did it ever, when it is
set to one with an integer. The integer zero does no harm: it is read as a null pointer. -/
def SetOp.Fits (v : Var D) : SetOp → Prop
  | .varOpInt _ _ _ n | .intOpVar _ _ n _ => n = 0 ∨ v.indbinop ≠ varIndBinopVar
  | _ => True

def NotStale (shm : VarShm D) (op : SetOp) : Prop :=
  ∀ p, varFind shm op.name = some p → op.Fits (shm.var p)

/-! ## The kinds of operation over a history -/

theorem Copied.indbinop {src v v' : Var D} (h : Copied src v v') :
    v'.indbinop = v.indbinop := by
  cases h with
  | value hmem => exact varSet_indbinop hmem
  | indvar => exact varSetIndvar_indbinop
  | nothing => rfl

theorem or_mem_operationKinds {a b : BitVec 32} (ha : a ∈ operationKinds)
    (hb : b ∈ operationKinds) : a ||| b ∈ operationKinds := by
  fin_cases ha <;> fin_cases hb <;> decide

theorem FskOp.kinds (op : FskOp) :
    op.varInt &&& varIndbinopMask = varIndBinopInt ∧
    op.intVar &&& varIndbinopMask = varIndBinopInt ∧
    op.varVar &&& varIndbinopMask = varIndBinopVar := by
  cases op <;> decide

theorem FskOp.isOptype (op : FskOp) :
    IsOptype op.varInt ∧ IsOptype op.intVar ∧ IsOptype op.varVar := by
  cases op <;> refine ⟨⟨?_, ?_⟩, ⟨?_, ?_⟩, ?_, ?_⟩ <;> decide

theorem Assigned.kinds {shm : VarShm D} {op : SetOp} {v v' : Var D} (h : Assigned shm op v v')
    (hv : v.indbinop ∈ operationKinds) : v'.indbinop ∈ operationKinds := by
  cases h with
  | boolean name b => rwa [varSetBool_indbinop]
  | integer name n => rwa [varSetInt_indbinop]
  | string name s => rwa [varSetStr_indbinop]
  | var _ h => rwa [h.indbinop]
  | varOpInt op n _ _ =>
    rw [varSetBinopIndvar_indbinop, op.kinds.1]
    exact or_mem_operationKinds hv (by decide)
  | intOpVar op n _ _ =>
    rw [varSetBinopIndvar_indbinop, op.kinds.2.1]
    exact or_mem_operationKinds hv (by decide)
  | varOpVar op _ _ _ =>
    rw [varSetBinopIndvar_indbinop, op.kinds.2.2]
    exact or_mem_operationKinds hv (by decide)

theorem Grows.kinds {shm shm' : VarShm D} (h : Grows shm shm')
    (hk : ∀ p, (shm.var p).indbinop ∈ operationKinds) (p : VarPtr) :
    (shm'.var p).indbinop ∈ operationKinds := by
  rcases h.var p with h | ⟨-, name, cls, h⟩
  · rw [h]
    exact hk p
  · rw [h, Var.new_indbinop]
    decide

theorem VarsStart.apply {shm shm' : VarShm D} (h : VarsStart shm) {op : SetOp} {r : ℤ}
    (happly : op.apply shm = (r, shm')) : VarsStart shm' := by
  refine ⟨SetOp.apply_wellFormed h.wellFormed happly, ?_⟩
  rcases SetOp.apply_effect h.wellFormed happly with ⟨-, hgrow⟩ | ⟨-, shm₁, p, v', heffect, rfl⟩
  · exact hgrow.kinds h.kinds
  · intro q
    by_cases hq : q = p
    · subst hq
      rw [setVar_var_self]
      exact heffect.assigned.kinds (heffect.grows.kinds h.kinds q)
    · rw [setVar_var_of_ne _ _ hq]
      exact heffect.grows.kinds h.kinds q

theorem SetRun.start {ok : VarShm D → SetOp → Prop} {shm shm' : VarShm D}
    (hrun : SetRun ok shm shm') (h : VarsStart shm) : VarsStart shm' := by
  induction hrun with
  | refl => exact h
  | tail _ _ happly ih => exact ih.apply happly

/-! ## The value of an operation -/

section value

variable {V : Type} {ar : Arith D V} {env : RandEnv D σ} {shm : VarShm D} {p q : VarPtr}
  {s s₁ s₂ : σ} {a b c : V}

theorem gives_binop {vp : Var D} (hvp : shm.var p = vp) (hbinop : varHasBinop vp)
    (hsrc2 : Gives (fun n => varSrc2 ar (varGetNum ar env shm n) vp) s (.ok (b, s₁)))
    (hsrc1 : Gives (fun n => getOrZero ar (varGetNum ar env shm n) vp.varVarptr1) s₁
      (.ok (a, s₂)))
    (hop : ar.binop vp.indvar a b = .ok c) :
    Gives (fun n => varGetNum ar env shm n p) s (.ok (c, s₂)) := by
  subst hvp
  refine Gives.of_succ ?_
  simp only [varGetNum_binop ar hbinop]
  refine hsrc2.bind (hsrc1.bind (gives_const ?_))
  rw [hop]
  rfl

/-- An integer operand, read as such. -/
theorem varSrc2_int (get : VarPtr → Eval σ V) {vp : Var D} {n : FbInt}
    (hkind : vp.indbinop = varIndBinopInt) (hval : vp.varVal = .integer n) :
    varSrc2 ar get vp = pure (ar.ofInteger n) := by
  rw [varSrc2, if_pos hkind, hval]
  rfl

theorem varSrc2_varptr2 (get : VarPtr → Eval σ V) {vp : Var D} {p : Option VarPtr}
    (hkind : vp.indbinop = varIndBinopVar) (hval : vp.varVal.getVarptr2 = .ok p) :
    varSrc2 ar get vp = getOrZero ar get p := by
  rw [varSrc2, if_neg (by rw [hkind]; decide), if_neg (by rw [hkind]; decide), if_pos hkind, hval]
  rfl

end value

/-- The variable that a command has set, at any time before it is set again. -/
theorem assigned_of_run {shm₁ shm₂ shm₃ : VarShm D} {cmd : SetOp} (hstart : VarsStart shm₁)
    (hfits : NotStale shm₁ cmd) (happly : cmd.apply shm₁ = (0, shm₂))
    (hrun : SetRun (Spares cmd.name) shm₂ shm₃) :
    ∃ p v, varFind shm₃ cmd.name = some p ∧ v.indbinop ∈ operationKinds ∧ cmd.Fits v ∧
      Assigned shm₁ cmd v (shm₃.var p) := by
  have hwf := hstart.wellFormed
  rcases SetOp.apply_effect hwf happly with ⟨h, -⟩ | ⟨-, shm, p, v', heffect, rfl⟩
  · cases h
  · have hwf' := heffect.wellFormed hwf
    have hfind : varFind (shm.setVar p v') cmd.name = some p := by
      rw [varFind_setVar heffect.assigned.varName]
      exact heffect.target
    refine ⟨p, shm.var p, hrun.find hwf' hfind, heffect.grows.kinds hstart.kinds p, ?_, ?_⟩
    · rcases heffect.old with hold | ⟨-, hnew⟩
      · rw [heffect.grows.var_lt (hwf.varFind_lt hold)]
        exact hfits p hold
      · rw [hnew]
        cases cmd with
        | varOpInt | intOpVar => exact .inr (by rw [Var.new_indbinop]; decide)
        | _ => trivial
    · rw [hrun.var_of_spares hwf' hfind, setVar_var_self]
      exact heffect.assigned

theorem operand_of_run {shm₁ shm₂ shm₃ : VarShm D} {cmd : SetOp} (hwf : WellFormed shm₁)
    (happly : cmd.apply shm₁ = (0, shm₂)) (hrun : SetRun (Spares cmd.name) shm₂ shm₃)
    {name : CString} {q : VarPtr} (hq : varFind shm₁ name = some q) :
    varFind shm₃ name = some q :=
  hrun.find (SetOp.apply_wellFormed hwf happly) (SetOp.apply_varFind hwf happly hq)

theorem isOptype_binop {v : Var D} {p : Option VarPtr} {st : BitVec 32} {src2 : VarVal D}
    (hst : IsOptype st) : varHasBinop (varSetBinopIndvar v p st src2) := by
  refine ⟨(varSetBinopIndvar_has hst _).mpr rfl, ?_⟩
  rw [varSetBinopIndvar_indbinop]
  intro h
  exact hst.2 (BitVec.or_eq_zero_iff.mp h).2

section command

variable [DoubleOps D] {env : RandEnv D σ} {fill : Var D → Option (Var D)} {shm : VarShm D}
  {s s₁ s₂ : σ} {a b : FbInt}

theorem binop_varInt {op : FskOp} (hdiv : op = .divide → b ≠ 0) :
    (intArith D).binop (op.varInt &&& varIndvarMask) a b = .ok (op.eval a b) := by
  cases op with
  | divide => exact if_neg (hdiv rfl)
  | _ => rfl

/-- The integer is the second operand of the machine, but the first of the command. -/
theorem binop_intVar {op : FskOp} (hdiv : op = .divide → a ≠ 0) :
    (intArith D).binop (op.intVar &&& varIndvarMask) a b = .ok (op.eval b a) := by
  cases op with
  | divide => exact if_neg (hdiv rfl)
  | plus => exact congrArg Except.ok (BitVec.add_comm a b)
  | minus => rfl
  | multiply => exact congrArg Except.ok (BitVec.mul_comm a b)

theorem binop_varVar {op : FskOp} (hdiv : op = .divide → b ≠ 0) :
    (intArith D).binop (op.varVar &&& varIndvarMask) a b = .ok (op.eval a b) := by
  cases op with
  | divide => exact if_neg (hdiv rfl)
  | _ => rfl

theorem varToInteger_of_find {name : CString} {p : VarPtr} (h : varFind shm name = some p)
    (fuel : ℕ) : varToInteger env shm fill fuel name = varGetInt env shm fuel p := by
  simp only [varToInteger, varLookup, h]

/-- What the second operand is read as. -/
theorem gives_src2_of_notStale {get : ℕ → VarPtr → Eval σ FbInt} {v vp : Var D} {n : FbInt}
    (hkinds : v.indbinop ∈ operationKinds)
    (hvp : vp.indbinop = v.indbinop ||| varIndBinopInt) (hval : vp.varVal = .integer n)
    (hstale : n = 0 ∨ v.indbinop ≠ varIndBinopVar) :
    Gives (fun k => varSrc2 (intArith D) (get k) vp) s (.ok (n, s)) := by
  by_cases hvar : v.indbinop = varIndBinopVar
  · obtain rfl := hstale.resolve_right (not_not.mpr hvar)
    have hkind : vp.indbinop = varIndBinopVar := by rw [hvp, hvar]; decide
    simp only [varSrc2_varptr2 _ hkind (show vp.varVal.getVarptr2 = .ok none by rw [hval]; rfl)]
    exact gives_pure 0 s
  · have hkind : vp.indbinop = varIndBinopInt := by
      rw [hvp]
      generalize v.indbinop = k at hkinds hvar
      fin_cases hkinds
      · decide
      · decide
      · exact absurd rfl hvar
    simp only [varSrc2_int _ hkind hval]
    exact gives_pure n s

theorem gives_src2_var {get : ℕ → VarPtr → Eval σ FbInt} {v vp : Var D} {q : VarPtr}
    (hkinds : v.indbinop ∈ operationKinds)
    (hvp : vp.indbinop = v.indbinop ||| varIndBinopVar) (hval : vp.varVal = .varptr2 (some q))
    (hq : Gives (fun k => get k q) s (.ok (b, s₁))) :
    Gives (fun k => varSrc2 (intArith D) (get k) vp) s (.ok (b, s₁)) := by
  have hkind : vp.indbinop = varIndBinopVar := by
    rw [hvp]
    generalize v.indbinop = k at hkinds
    fin_cases hkinds <;> decide
  have hread : vp.varVal.getVarptr2 = .ok (some q) := by
    rw [hval]
    rfl
  simp only [varSrc2_varptr2 _ hkind hread]
  exact hq

/-- After a command with an operator, and before its target is set again, the target is worth
the operation on the values that the operands have at that time. -/
theorem varToInteger_operation {shm₀ shm₁ shm₂ shm₃ : VarShm D} {cmd : SetOp} {op : FskOp}
    {x y : Operand} (hstart : VarsStart shm₀) (hhistory : SetRun (fun _ _ => True) shm₀ shm₁)
    (hcmd : cmd.operation = some (op, x, y)) (hfits : NotStale shm₁ cmd)
    (happly : cmd.apply shm₁ = (0, shm₂)) (hlater : SetRun (Spares cmd.name) shm₂ shm₃)
    (hy : Gives (operandValue env fill shm₃ y) s (.ok (b, s₁)))
    (hx : Gives (operandValue env fill shm₃ x) s₁ (.ok (a, s₂)))
    (hdiv : op = .divide → b ≠ 0) :
    Gives (fun fuel => varToInteger env shm₃ fill fuel cmd.name) s (.ok (op.eval a b, s₂)) := by
  have hstart₁ := hhistory.start hstart
  have hwf := hstart₁.wellFormed
  obtain ⟨p, v, hfind, hkinds, hfit, hassigned⟩ := assigned_of_run hstart₁ hfits happly hlater
  simp only [varToInteger_of_find hfind]
  generalize hvp : shm₃.var p = vp at hassigned
  cases hassigned with
  | varOpInt op' n _ hsrc1 =>
    cases hcmd
    have hq := operand_of_run hwf happly hlater hsrc1
    change Gives (fun fuel => varToInteger env shm₃ fill fuel _) _ _ at hx
    simp only [varToInteger_of_find hq] at hx
    obtain ⟨rfl, rfl⟩ : n = b ∧ s = s₁ := by simpa using (gives_pure n s).unique hy
    refine gives_binop hvp (isOptype_binop op.isOptype.1)
      (gives_src2_of_notStale hkinds ?_ rfl hfit) hx ?_
    · rw [varSetBinopIndvar_indbinop, op.kinds.1]
    · rw [varSetBinopIndvar_indvar]
      exact binop_varInt hdiv
  | intOpVar op' n _ hsrc1 =>
    cases hcmd
    have hq := operand_of_run hwf happly hlater hsrc1
    change Gives (fun fuel => varToInteger env shm₃ fill fuel _) _ _ at hy
    simp only [varToInteger_of_find hq] at hy
    obtain ⟨rfl, rfl⟩ : n = a ∧ s₁ = s₂ := by simpa using (gives_pure n s₁).unique hx
    refine gives_binop hvp (isOptype_binop op.isOptype.2.1)
      (gives_src2_of_notStale hkinds ?_ rfl hfit) hy ?_
    · rw [varSetBinopIndvar_indbinop, op.kinds.2.1]
    · rw [varSetBinopIndvar_indvar]
      exact binop_intVar hdiv
  | varOpVar op' _ hsrc1 hsrc2 =>
    cases hcmd
    have hq := operand_of_run hwf happly hlater hsrc1
    have hq₂ := operand_of_run hwf happly hlater hsrc2
    change Gives (fun fuel => varToInteger env shm₃ fill fuel _) _ _ at hx
    simp only [varToInteger_of_find hq] at hx
    change Gives (fun fuel => varToInteger env shm₃ fill fuel _) _ _ at hy
    simp only [varToInteger_of_find hq₂] at hy
    refine gives_binop hvp (isOptype_binop op.isOptype.2.2)
      (gives_src2_var hkinds ?_ rfl hy) hx ?_
    · rw [varSetBinopIndvar_indbinop, op.kinds.2.2]
    · rw [varSetBinopIndvar_indvar]
      exact binop_varVar hdiv
  | _ => cases hcmd

end command

/-! ## Examples -/

/-- Rational numbers for doubles. -/
@[reducible] def rationals : DoubleOps ℚ where
  ofFbInt n := n.toNat
  toFbInt q := BitVec.ofInt 64 (q.num.tdiv q.den)

/-- Shared memory without variables, and with room for all of them. -/
def noVars : VarShm ℚ := ⟨fun _ => .new [] .global, [], [], [], fun _ => true, 0⟩

theorem noVars_start : VarsStart noVars := by
  refine ⟨⟨nofun, nofun⟩, fun p => ?_⟩
  change (Var.new [] .global : Var ℚ).indbinop ∈ operationKinds
  rw [Var.new_indbinop]
  decide

/-- No random variables. -/
def noRandom : RandEnv ℚ Unit := ⟨fun _ => .uninitialized, fun _ _ => .error .random⟩

def noFill : Var ℚ → Option (Var ℚ) := fun _ => none

/-- `set $a = 5`, `set $b = $a + 3`, `set $a = 7` -/
theorem varToInteger_operation_later : ∃ shm : VarShm ℚ,
    Gives (fun fuel => @varToInteger ℚ Unit rationals noRandom shm noFill fuel ['b']) ()
      (.ok (10, ())) := by
  have hhistory : SetRun (fun _ _ => True) noVars _ :=
    (SetRun.refl noVars).apply (.integer ['a'] 5) trivial
  have hlater : SetRun (Spares ['b']) _ _ :=
    (SetRun.refl (SetOp.apply (SetOp.apply noVars (.integer ['a'] 5)).2
      (.varOpInt ['b'] .plus ['a'] 3)).2).apply (.integer ['a'] 7)
      (show ['a'] ≠ ['b'] by decide)
  refine ⟨_, @varToInteger_operation ℚ Unit rationals noRandom noFill () () () 7 3 _ _ _ _
    (.varOpInt ['b'] .plus ['a'] 3) .plus (.var ['a']) (.int 3) noVars_start hhistory rfl ?_ rfl
    hlater (gives_pure 3 ()) ?_ nofun⟩
  · intro p hp
    cases hp
  · refine ⟨1, fun fuel hfuel => ?_⟩
    obtain ⟨n, rfl⟩ := Nat.exists_eq_add_of_le' hfuel
    rfl

/-- `set $a = 5`, `set $b = $a + $a`, `set $b = $a + 1` -/
theorem varToInteger_stale_operation : ∃ shm₁ shm₂ : VarShm ℚ,
    SetRun (fun _ _ => True) noVars shm₁ ∧
    SetOp.apply shm₁ (.varOpInt ['b'] .plus ['a'] 1) = (0, shm₂) ∧
    Gives (fun fuel => @varToInteger ℚ Unit rationals noRandom shm₂ noFill fuel ['a']) ()
      (.ok (5, ())) ∧
    ¬ Gives (fun fuel => @varToInteger ℚ Unit rationals noRandom shm₂ noFill fuel ['b']) ()
      (.ok (6, ())) := by
  refine ⟨_, _, ((SetRun.refl noVars).apply (.integer ['a'] 5) trivial).apply
    (.varOpVar ['b'] .plus ['a'] ['a']) trivial, rfl, ?_, Gives.not_ok (e := .member) ?_ _⟩
  · refine ⟨1, fun fuel hfuel => ?_⟩
    obtain ⟨n, rfl⟩ := Nat.exists_eq_add_of_le' hfuel
    rfl
  · refine ⟨1, fun fuel hfuel => ?_⟩
    obtain ⟨n, rfl⟩ := Nat.exists_eq_add_of_le' hfuel
    rfl

end Filebench
