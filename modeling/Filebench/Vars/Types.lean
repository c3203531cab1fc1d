import Filebench.Lib.CString
import Filebench.Lib.Masks

/-! # Variables

A variable packs what it holds, the kind of its binary operation and the operator into the word
`var_type`, and keeps its value in a union that the second operand of an operation shares.
Doubles and the sources of random numbers are left open. -/
namespace Filebench

open Masks

/-- `fbint_t` -/
abbrev FbInt := BitVec 64

/-- The arithmetic of doubles and the casts from and to `fbint_t`. -/
class DoubleOps (D : Type) extends Zero D, Add D, Sub D, Mul D, Div D where
  ofFbInt : FbInt → D
  toFbInt : D → FbInt

abbrev VarPtr := ℕ
abbrev RandPtr := ℕ

/-! ## The word -/

/-- The basic types. -/
inductive VarClass where
  | global
  | dynamic
  | random
  | local
  deriving DecidableEq, Repr

def VarClass.bits : VarClass → BitVec 32
  | .global => 0x0000
  | .dynamic => 0x1000
  | .random => 0x2000
  | .local => 0x3000

def varTypeMask : BitVec 32 := 0xf000

def varTypeBoolSet : BitVec 32 := 0x0100
def varTypeIntSet : BitVec 32 := 0x0200
def varTypeStrSet : BitVec 32 := 0x0300
def varTypeDblSet : BitVec 32 := 0x0400
def varTypeRandSet : BitVec 32 := 0x0500
def varTypeIndvarSet : BitVec 32 := 0x0700
def varTypeSetMask : BitVec 32 := 0x0f00

def varIndAssign : BitVec 32 := 0x0000
def varIndBinopInt : BitVec 32 := 0x0010
def varIndBinopDbl : BitVec 32 := 0x0020
def varIndBinopVar : BitVec 32 := 0x0030
def varIndbinopMask : BitVec 32 := 0x00f0

def varIndVarSumVc : BitVec 32 := 0x0001
def varIndVarDifVc : BitVec 32 := 0x0002
def varIndCDifVar : BitVec 32 := 0x0003
def varIndVarMulVc : BitVec 32 := 0x0005
def varIndVarDivVc : BitVec 32 := 0x0006
def varIndCDivVar : BitVec 32 := 0x0007
def varIndvarMask : BitVec 32 := 0x000f

/-- The operators of a variable and an integer. -/
def varIndIntSumIv : BitVec 32 := varIndBinopInt ||| varIndVarSumVc
def varIndIvDifInt : BitVec 32 := varIndBinopInt ||| varIndVarDifVc
def varIndIntDifIv : BitVec 32 := varIndBinopInt ||| varIndCDifVar
def varIndIntMulIv : BitVec 32 := varIndBinopInt ||| varIndVarMulVc
def varIndIvDivInt : BitVec 32 := varIndBinopInt ||| varIndVarDivVc
def varIndIntDivIv : BitVec 32 := varIndBinopInt ||| varIndCDivVar

/-- The operators of two variables. -/
def varIndIvSumIv : BitVec 32 := varIndBinopVar ||| varIndVarSumVc
def varIndIvDifIv : BitVec 32 := varIndBinopVar ||| varIndVarDifVc
def varIndIvMulIv : BitVec 32 := varIndBinopVar ||| varIndVarMulVc
def varIndIvDivIv : BitVec 32 := varIndBinopVar ||| varIndVarDivVc

/-- The union `var_val`, by the member that was written last. -/
inductive VarVal (D : Type) where
  | boolean (b : Bool)
  | integer (n : FbInt)
  | dblFlt (d : D)
  | string (s : CString)
  | randptr (r : RandPtr)
  | varptr2 (p : Option VarPtr)

/-- The kind of the variables that hold such a value. An operand holds none. -/
def VarVal.kind {D : Type} : VarVal D → Option (BitVec 32)
  | .boolean _ => some varTypeBoolSet
  | .integer _ => some varTypeIntSet
  | .dblFlt _ => some varTypeDblSet
  | .string _ => some varTypeStrSet
  | .randptr _ => some varTypeRandSet
  | .varptr2 _ => none

def valueKinds : List (BitVec 32) :=
  [varTypeBoolSet, varTypeIntSet, varTypeDblSet, varTypeStrSet, varTypeRandSet]

/-- A variable that says it holds a value holds one of that kind. -/
structure Var (D : Type) where
  varName : CString
  varType : BitVec 32
  varVal : VarVal D
  varVarptr1 : Option VarPtr
  typed : varType &&& varTypeSetMask ∈ valueKinds →
    varVal.kind = some (varType &&& varTypeSetMask)

section macros

variable {D : Type} (vp : Var D)

def varHas (kind : BitVec 32) : Prop := vp.varType &&& varTypeSetMask = kind

instance (kind : BitVec 32) : Decidable (varHas vp kind) :=
  inferInstanceAs (Decidable (_ = _))

abbrev varHasBoolean : Prop := varHas vp varTypeBoolSet
abbrev varHasInteger : Prop := varHas vp varTypeIntSet
abbrev varHasDouble : Prop := varHas vp varTypeDblSet
abbrev varHasString : Prop := varHas vp varTypeStrSet
abbrev varHasRanddist : Prop := varHas vp varTypeRandSet

/-- The kind of the binary operation and the operator. -/
def Var.indbinop : BitVec 32 := vp.varType &&& varIndbinopMask
def Var.indvar : BitVec 32 := vp.varType &&& varIndvarMask

abbrev varHasIndvar : Prop := varHas vp varTypeIndvarSet ∧ vp.indbinop = varIndAssign
abbrev varHasBinop : Prop := varHas vp varTypeIndvarSet ∧ vp.indbinop ≠ varIndAssign

/-- `VAR_TYPE_RANDOM` and `VAR_TYPE_LOCAL` -/
abbrev Var.isRandom : Prop := vp.varType &&& varTypeMask = VarClass.random.bits
abbrev Var.isLocal : Prop := vp.varType &&& varTypeMask = VarClass.local.bits

theorem put_set_kind (t : BitVec 32) {kind : BitVec 32} (h : kind &&& varTypeSetMask = kind) :
    put t varTypeSetMask kind &&& varTypeSetMask = kind := by
  rw [put_and_of_cleared t (by decide), h]

/-- The bits of an indirection are no kind of value, whatever is set besides. -/
theorem indvar_notMem_valueKinds (t c st : BitVec 32) :
    put t c (varTypeIndvarSet ||| st) &&& varTypeSetMask ∉ valueKinds := by
  intro h
  have hand : put t c (varTypeIndvarSet ||| st) &&& varTypeSetMask &&& varTypeIndvarSet =
      varTypeIndvarSet := by
    rw [BitVec.and_assoc, show varTypeSetMask &&& varTypeIndvarSet = varTypeIndvarSet by decide,
      put_or_and_self]
  generalize put t c (varTypeIndvarSet ||| st) &&& varTypeSetMask = k at h hand
  fin_cases h <;> exact absurd hand (by decide)

/-- The macros that set a value keep the bits of an operation. -/
def varSet (val : VarVal D) (kind : BitVec 32) (hkind : kind &&& varTypeSetMask = kind)
    (hval : val.kind = some kind) : Var D :=
  { vp with
    varVal := val
    varType := put vp.varType varTypeSetMask kind
    typed := fun _ => by rw [put_set_kind _ hkind, hval] }

def varSetBool (b : Bool) : Var D := varSet vp (.boolean b) varTypeBoolSet rfl rfl
def varSetInt (n : FbInt) : Var D := varSet vp (.integer n) varTypeIntSet rfl rfl
def varSetDbl (d : D) : Var D := varSet vp (.dblFlt d) varTypeDblSet rfl rfl
def varSetStr (s : CString) : Var D := varSet vp (.string s) varTypeStrSet rfl rfl
def varSetRand (r : RandPtr) : Var D := varSet vp (.randptr r) varTypeRandSet rfl rfl

/-- The operation comes with a second operand, which is written right after the macro. -/
def varSetBinopIndvar (p : Option VarPtr) (st : BitVec 32) (src2 : VarVal D) : Var D :=
  { vp with
    varVal := src2
    varVarptr1 := p
    varType := put vp.varType (varTypeSetMask ||| varIndvarMask) (varTypeIndvarSet ||| st)
    typed := fun h => absurd h (indvar_notMem_valueKinds _ _ _) }

def varSetIndvar (p : Option VarPtr) : Var D :=
  { vp with
    varVarptr1 := p
    varType := put vp.varType (varTypeSetMask ||| varIndvarMask) varTypeIndvarSet
    typed := fun h => absurd h (by
      simpa using indvar_notMem_valueKinds vp.varType (varTypeSetMask ||| varIndvarMask) 0) }

/-! ### What the macros leave -/

variable {vp}

theorem varHas_unique {k k' : BitVec 32} (h : varHas vp k) (h' : varHas vp k') :
    k = k' := h.symm.trans h'

@[simp] theorem varSet_varName {val : VarVal D} {kind : BitVec 32} {hkind hval} :
    (varSet vp val kind hkind hval).varName = vp.varName := rfl

@[simp] theorem varSetBinopIndvar_varName (p : Option VarPtr) (st : BitVec 32) (src2 : VarVal D) :
    (varSetBinopIndvar vp p st src2).varName = vp.varName := rfl

@[simp] theorem varSetIndvar_varName (p : Option VarPtr) :
    (varSetIndvar vp p).varName = vp.varName := rfl

theorem varSet_has {val : VarVal D} {kind : BitVec 32} {hkind hval} (k : BitVec 32) :
    varHas (varSet vp val kind hkind hval) k ↔ kind = k := by
  rw [varHas, varSet, put_set_kind _ hkind]

theorem varSet_indbinop {val : VarVal D} {kind : BitVec 32} {hkind hval}
    (h : kind ∈ valueKinds) : (varSet vp val kind hkind hval).indbinop = vp.indbinop :=
  put_and_of_kept _ (by decide) (by fin_cases h <;> decide)

theorem varSet_class {val : VarVal D} {kind : BitVec 32} {hkind hval} (h : kind ∈ valueKinds) :
    (varSet vp val kind hkind hval).varType &&& varTypeMask = vp.varType &&& varTypeMask :=
  put_and_of_kept _ (by decide) (by fin_cases h <;> decide)

theorem varSetBool_indbinop (b : Bool) : (varSetBool vp b).indbinop = vp.indbinop :=
  varSet_indbinop (by decide)

theorem varSetInt_indbinop (n : FbInt) : (varSetInt vp n).indbinop = vp.indbinop :=
  varSet_indbinop (by decide)

theorem varSetStr_indbinop (s : CString) : (varSetStr vp s).indbinop = vp.indbinop :=
  varSet_indbinop (by decide)

/-- A word of the operators: the kind of the operation and the operator. -/
def IsOptype (st : BitVec 32) : Prop :=
  st &&& (varIndbinopMask ||| varIndvarMask) = st ∧ st &&& varIndbinopMask ≠ 0

theorem IsOptype.and_disjoint {st m : BitVec 32} (h : IsOptype st)
    (hm : (varIndbinopMask ||| varIndvarMask) &&& m = 0#32) : st &&& m = 0#32 := by
  rw [← h.1, BitVec.and_assoc, hm, BitVec.and_zero]

section binop

variable {p : Option VarPtr} {st : BitVec 32} {src2 : VarVal D}

theorem varSetBinopIndvar_has (h : IsOptype st) (k : BitVec 32) :
    varHas (varSetBinopIndvar vp p st src2) k ↔ varTypeIndvarSet = k := by
  rw [varHas, varSetBinopIndvar, put_and_of_cleared _ (by decide), BitVec.and_or_distrib_right,
    h.and_disjoint (by decide), BitVec.or_zero]
  exact Iff.rfl

/-- The old kind of operation is not cleared. -/
theorem varSetBinopIndvar_indbinop :
    (varSetBinopIndvar vp p st src2).indbinop = vp.indbinop ||| st &&& varIndbinopMask := by
  rw [Var.indbinop, varSetBinopIndvar, put_and_of_added _ (by decide),
    BitVec.and_or_distrib_right, show varTypeIndvarSet &&& varIndbinopMask = 0#32 by decide,
    BitVec.zero_or]
  rfl

theorem varSetBinopIndvar_indvar :
    (varSetBinopIndvar vp p st src2).indvar = st &&& varIndvarMask := by
  rw [Var.indvar, varSetBinopIndvar, put_and_of_cleared _ (by decide),
    BitVec.and_or_distrib_right, show varTypeIndvarSet &&& varIndvarMask = 0#32 by decide,
    BitVec.zero_or]

theorem varSetBinopIndvar_class (h : IsOptype st) :
    (varSetBinopIndvar vp p st src2).varType &&& varTypeMask = vp.varType &&& varTypeMask := by
  refine put_and_of_kept _ (by decide) ?_
  rw [BitVec.and_or_distrib_right, h.and_disjoint (by decide), BitVec.or_zero]
  decide

theorem varSetIndvar_has (k : BitVec 32) :
    varHas (varSetIndvar vp p) k ↔ varTypeIndvarSet = k := by
  rw [varHas, varSetIndvar, put_and_of_cleared _ (by decide)]
  exact Iff.rfl

theorem varSetIndvar_indbinop : (varSetIndvar vp p).indbinop = vp.indbinop :=
  put_and_of_kept _ (by decide) (by decide)

theorem varSetIndvar_indvar : (varSetIndvar vp p).indvar = 0 :=
  put_and_of_cleared _ (by decide)

theorem varSetIndvar_class :
    (varSetIndvar vp p).varType &&& varTypeMask = vp.varType &&& varTypeMask :=
  put_and_of_kept _ (by decide) (by decide)

end binop

end macros

/-! ## Shared memory -/

/-- The variables in shared memory with their three lists. `alloc` tells which requests for
memory succeed, and the address of a variable is the number of its request. -/
structure VarShm (D : Type) where
  var : VarPtr → Var D
  shmVarList : List VarPtr
  shmVarDynList : List VarPtr
  shmVarLocList : List VarPtr
  alloc : ℕ → Bool
  requests : ℕ

section shm

variable {D : Type}

def VarShm.setVar (shm : VarShm D) (p : VarPtr) (v : Var D) : VarShm D :=
  { shm with var := Function.update shm.var p v }

/-- One request for shared memory. -/
def VarShm.request (shm : VarShm D) : Bool × VarShm D :=
  (shm.alloc shm.requests, { shm with requests := shm.requests + 1 })

def Var.new (name : CString) (varType : VarClass) : Var D where
  varName := name
  varType := varType.bits
  varVal := .integer 0
  varVarptr1 := none
  typed h := absurd h (by cases varType <;> decide)

theorem Var.new_indbinop (name : CString) (cls : VarClass) :
    (Var.new name cls : Var D).indbinop = 0 := by
  change cls.bits &&& varIndbinopMask = 0
  cases cls <;> decide

def varAllocCmn (shm : VarShm D) (name : CString) (varType : VarClass) :
    Option VarPtr × VarShm D :=
  let p := shm.requests
  match shm.request with
  | (false, shm) => (none, shm)
  | (true, shm) =>
    match shm.request with
    | (false, shm) => (none, shm)
    | (true, shm) =>
      let shm := shm.setVar p (.new name varType)
      (some p, match varType with
        | .global | .random => { shm with shmVarList := shm.shmVarList ++ [p] }
        | .dynamic => { shm with shmVarDynList := shm.shmVarDynList ++ [p] }
        | .local => { shm with shmVarLocList := p :: shm.shmVarLocList })

def varAlloc (shm : VarShm D) (name : CString) : Option VarPtr × VarShm D :=
  varAllocCmn shm name .global

def varAllocDynamic (shm : VarShm D) (name : CString) : Option VarPtr × VarShm D :=
  varAllocCmn shm name .dynamic

def varFindList (shm : VarShm D) (list : List VarPtr) (name : CString) : Option VarPtr :=
  list.find? fun p => (shm.var p).varName = name

/-- Local variables come before global ones. -/
def varFind (shm : VarShm D) (name : CString) : Option VarPtr :=
  (varFindList shm shm.shmVarLocList name).or (varFindList shm shm.shmVarList name)

/-- Names are taken without their `$`. -/
def varFindAlloc (shm : VarShm D) (name : CString) : Option VarPtr × VarShm D :=
  match varFind shm name with
  | some p => (some p, shm)
  | none => varAlloc shm name

/-- `ipc_stralloc` for the value of a variable. -/
def ipcStralloc (shm : VarShm D) (s : CString) : Option CString × VarShm D :=
  match shm.request with
  | (false, shm) => (none, shm)
  | (true, shm) => (some s, shm)

/-- The lookup of a name among the dynamic variables gives each name a variable, but finds those
of the system and of the environment only. `fill` is what puts their value in. -/
def varFindDynamic (fill : Var D → Option (Var D)) (shm : VarShm D) (name : CString) :
    Option VarPtr × VarShm D :=
  let (p, shm) :=
    match varFindList shm shm.shmVarDynList name with
    | some p => (some p, shm)
    | none => varAllocDynamic shm name
  match p with
  | none => (none, shm)
  | some p =>
    match name.head? with
    | some '{' | some '(' =>
      match fill (shm.var p) with
      | none => (none, shm)
      | some v => (some p, shm.setVar p v)
    | _ => (none, shm)

end shm

end Filebench
