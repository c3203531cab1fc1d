import Filebench.Lib.Fueled
import Filebench.Vars.Types

/-! # Values of variables

`var_get_int` and `var_get_dbl` are one recursion over two kinds of numbers. They follow the
operands of binary operations, which later assignments can redirect, so that the recursion
takes fuel. Random numbers come from a state that every evaluation passes on. -/
namespace Filebench

open Fuel

/-- What stops an evaluation: a division by zero, a member of the union that was not the last
one written, an operand that was never set, or a random variable without its generator. -/
inductive Fault where
  | division
  | member
  | uninitialized
  | random
  deriving DecidableEq, Repr

inductive RandType where
  | uniform
  | gamma
  | table
  | uninitialized
  deriving DecidableEq, Repr

/-- The random distributions: their types and the next numbers they give. -/
structure RandEnv (D σ : Type) where
  rndType : RandPtr → RandType
  rndGet : RandPtr → σ → Except Fault (D × σ)

section

variable {D σ : Type}

abbrev Eval (σ α : Type) := Comp Fault σ α

def VarVal.getBoolean : VarVal D → Except Fault Bool
  | .boolean b => .ok b
  | _ => .error .member

def VarVal.getInteger : VarVal D → Except Fault FbInt
  | .integer n => .ok n
  | _ => .error .member

def VarVal.getDblFlt : VarVal D → Except Fault D
  | .dblFlt d => .ok d
  | _ => .error .member

def VarVal.getString : VarVal D → Except Fault CString
  | .string s => .ok s
  | _ => .error .member

def VarVal.getRandptr : VarVal D → Except Fault RandPtr
  | .randptr r => .ok r
  | _ => .error .member

/-- The integer zero is the null pointer. -/
def VarVal.getVarptr2 : VarVal D → Except Fault (Option VarPtr)
  | .varptr2 p => .ok p
  | .integer n => if n = 0 then .ok none else .error .member
  | _ => .error .member

/-- The arithmetic that an evaluation is in, and whether it reads doubles. -/
structure Arith (D V : Type) where
  zero : V
  add : V → V → V
  sub : V → V → V
  mul : V → V → V
  div : V → V → Except Fault V
  ofInteger : FbInt → V
  ofDouble : D → V
  double : Bool

def intArith (D : Type) [DoubleOps D] : Arith D FbInt where
  zero := 0
  add := (· + ·)
  sub := (· - ·)
  mul := (· * ·)
  div a b := if b = 0 then .error .division else .ok (a / b)
  ofInteger n := n
  ofDouble := DoubleOps.toFbInt
  double := false

def dblArith (D : Type) [DoubleOps D] : Arith D D where
  zero := 0
  add := (· + ·)
  sub := (· - ·)
  mul := (· * ·)
  div a b := .ok (a / b)
  ofInteger := DoubleOps.ofFbInt
  ofDouble d := d
  double := true

variable {V : Type}

/-- The operators on `src1`, the value of the first variable, and `src2`. -/
def Arith.binop (ar : Arith D V) (op : BitVec 32) (src1 src2 : V) : Except Fault V :=
  if op = varIndVarSumVc then .ok (ar.add src1 src2)
  else if op = varIndVarDifVc then .ok (ar.sub src1 src2)
  else if op = varIndCDifVar then .ok (ar.sub src2 src1)
  else if op = varIndVarMulVc then .ok (ar.mul src1 src2)
  else if op = varIndVarDivVc then ar.div src1 src2
  else if op = varIndCDivVar then ar.div src2 src1
  else .ok ar.zero

/-- A null pointer counts as zero. -/
def getOrZero (ar : Arith D V) (get : VarPtr → Eval σ V) : Option VarPtr → Eval σ V
  | some p => get p
  | none => pure ar.zero

def varSrc2 (ar : Arith D V) (get : VarPtr → Eval σ V) (vp : Var D) : Eval σ V :=
  if vp.indbinop = varIndBinopInt then do
    pure (ar.ofInteger (← orFault vp.varVal.getInteger))
  else if vp.indbinop = varIndBinopDbl then do
    pure (ar.ofDouble (← orFault vp.varVal.getDblFlt))
  else if vp.indbinop = varIndBinopVar then do
    getOrZero ar get (← orFault vp.varVal.getVarptr2)
  else fault .uninitialized

def varBinaryOp (ar : Arith D V) (get : VarPtr → Eval σ V) (vp : Var D) : Eval σ V := do
  let src2 ← varSrc2 ar get vp
  let src1 ← getOrZero ar get vp.varVarptr1
  orFault (ar.binop vp.indvar src1 src2)

def rndGet (env : RandEnv D σ) (vp : Var D) : Eval σ D := do
  let rndp ← orFault vp.varVal.getRandptr
  fun s => some (env.rndGet rndp s)

def varGetNum (ar : Arith D V) (env : RandEnv D σ) (shm : VarShm D) :
    ℕ → VarPtr → Eval σ V
  | 0, _ => outOfFuel
  | fuel + 1, p =>
    let vp := shm.var p
    if varHasInteger vp then do
      pure (ar.ofInteger (← orFault vp.varVal.getInteger))
    else if ar.double ∧ varHasDouble vp then do
      pure (ar.ofDouble (← orFault vp.varVal.getDblFlt))
    else if varHasRanddist vp then do
      pure (ar.ofDouble (← rndGet env vp))
    else if varHasBinop vp then varBinaryOp ar (varGetNum ar env shm fuel) vp
    else pure ar.zero

section kinds

variable {env : RandEnv D σ} {shm : VarShm D} {p : VarPtr} {fuel : ℕ} (ar : Arith D V)

theorem varGetNum_integer (h : varHasInteger (shm.var p)) :
    varGetNum ar env shm (fuel + 1) p =
      (do pure (ar.ofInteger (← orFault (shm.var p).varVal.getInteger))) := by
  rw [varGetNum]
  exact if_pos h

theorem varGetNum_randdist (h : varHasRanddist (shm.var p)) :
    varGetNum ar env shm (fuel + 1) p =
      (do pure (ar.ofDouble (← rndGet env (shm.var p)))) := by
  have hi : ¬ varHasInteger (shm.var p) := fun h' => absurd (varHas_unique h' h) (by decide)
  have hd : ¬ varHasDouble (shm.var p) := fun h' => absurd (varHas_unique h' h) (by decide)
  rw [varGetNum]
  rw [if_neg hi, if_neg fun h' => hd h'.2, if_pos h]

theorem varGetNum_binop (h : varHasBinop (shm.var p)) :
    varGetNum ar env shm (fuel + 1) p =
      varBinaryOp ar (varGetNum ar env shm fuel) (shm.var p) := by
  have hi : ¬ varHasInteger (shm.var p) := fun h' => absurd (varHas_unique h' h.1) (by decide)
  have hd : ¬ varHasDouble (shm.var p) := fun h' => absurd (varHas_unique h' h.1) (by decide)
  have hr : ¬ varHasRanddist (shm.var p) := fun h' => absurd (varHas_unique h' h.1) (by decide)
  rw [varGetNum]
  rw [if_neg hi, if_neg fun h' => hd h'.2, if_neg hr, if_pos h]

end kinds

variable [DoubleOps D] (env : RandEnv D σ) (shm : VarShm D)

def varGetInt (fuel : ℕ) (p : VarPtr) : Eval σ FbInt := varGetNum (intArith D) env shm fuel p

def varGetDbl (fuel : ℕ) (p : VarPtr) : Eval σ D := varGetNum (dblArith D) env shm fuel p

def varBinaryIntegerOp (fuel : ℕ) (vp : Var D) : Eval σ FbInt :=
  varBinaryOp (intArith D) (varGetInt env shm fuel) vp

def varGetBool (vp : Var D) : Except Fault Bool :=
  if varHasBoolean vp then vp.varVal.getBoolean
  else if varHasInteger vp then do pure ((← vp.varVal.getInteger) ≠ 0)
  else .ok false

def RandType.text : RandType → CString
  | .uniform => "uniform random var".toList
  | .gamma => "gamma random var".toList
  | .table => "tabular random var".toList
  | .uninitialized => "unitialized random var".toList

def boolText (b : Bool) : CString := if b then "true".toList else "false".toList

/-- Only strings follow an indirection. -/
def varGetString : ℕ → VarPtr → Eval σ CString
  | 0, _ => outOfFuel
  | fuel + 1, p =>
    let vp := shm.var p
    if vp.isRandom then do
      pure (env.rndType (← orFault vp.varVal.getRandptr)).text
    else if varHasString vp then orFault vp.varVal.getString
    else if varHasBoolean vp then do
      pure (boolText (← orFault vp.varVal.getBoolean))
    else if varHasInteger vp then do
      pure (fmtLlu (← orFault vp.varVal.getInteger))
    else if varHasIndvar vp then
      match vp.varVarptr1 with
      | some ivp => varGetString fuel ivp
      | none => pure "No default".toList
    else if varHasBinop vp then do
      pure (fmtLlu (← varBinaryIntegerOp env shm fuel vp))
    else pure "No default".toList

/-- The variable that a lookup by name finds, dynamic variables included. -/
def varLookup (fill : Var D → Option (Var D)) (name : CString) : Option VarPtr × VarShm D :=
  match varFind shm name with
  | some p => (some p, shm)
  | none => varFindDynamic fill shm name

/-- A variable that is not found counts as zero. -/
def varToInteger (fill : Var D → Option (Var D)) (fuel : ℕ) (name : CString) : Eval σ FbInt :=
  match varLookup shm fill name with
  | (some p, shm) => varGetInt env shm fuel p
  | (none, _) => pure 0

end

/-! ## More fuel -/

section below

variable {D σ V : Type} {env : RandEnv D σ} {shm : VarShm D}

theorem getOrZero_below (ar : Arith D V) {get get' : VarPtr → Eval σ V}
    (h : ∀ p, Below (get p) (get' p)) (o : Option VarPtr) :
    Below (getOrZero ar get o) (getOrZero ar get' o) := by
  cases o with
  | none => exact .refl _
  | some p => exact h p

theorem varBinaryOp_below (ar : Arith D V) {get get' : VarPtr → Eval σ V}
    (h : ∀ p, Below (get p) (get' p)) (vp : Var D) :
    Below (varBinaryOp ar get vp) (varBinaryOp ar get' vp) := by
  have hsrc2 : Below (varSrc2 ar get vp) (varSrc2 ar get' vp) := by
    unfold varSrc2
    split_ifs
    · exact .refl _
    · exact .refl _
    · exact (Below.refl _).bind fun o => getOrZero_below ar h o
    · exact .refl _
  exact hsrc2.bind fun src2 => (getOrZero_below ar h _).bind fun src1 => .refl _

theorem varGetNum_below (ar : Arith D V) (n : ℕ) (p : VarPtr) :
    Below (varGetNum ar env shm n p) (varGetNum ar env shm (n + 1) p) := by
  induction n generalizing p with
  | zero => exact outOfFuel_below _
  | succ n ih =>
    rw [varGetNum, varGetNum]
    split_ifs
    · exact .refl _
    · exact .refl _
    · exact .refl _
    · exact varBinaryOp_below ar ih _
    · exact .refl _

theorem varGetString_below [DoubleOps D] (n : ℕ) (p : VarPtr) :
    Below (varGetString env shm n p) (varGetString env shm (n + 1) p) := by
  induction n generalizing p with
  | zero => exact outOfFuel_below _
  | succ n ih =>
    rw [varGetString, varGetString]
    split_ifs
    · exact .refl _
    · exact .refl _
    · exact .refl _
    · exact .refl _
    · cases (shm.var p).varVarptr1 with
      | none => exact .refl _
      | some ivp => exact ih ivp
    · refine Below.bind ?_ fun n => .refl _
      exact varBinaryOp_below _ (fun q => varGetNum_below _ n q) _
    · exact .refl _

end below

end Filebench
