import Filebench.Vars.Types

/-! # Assignments

What the set commands do to a variable. An assignment finds its target by name and makes it when
it is missing; from then on the name stands for that variable, and an assignment changes no
other. -/
namespace Filebench

open Masks

section

variable {D : Type}

/-- The common part of the assignments: the target by its name, which must not be random. -/
def varAssign (shm : VarShm D) (name : CString) (set : VarPtr → VarShm D → ℤ × VarShm D) :
    ℤ × VarShm D :=
  match varFindAlloc shm name with
  | (none, shm) => (-1, shm)
  | (some p, shm) => if (shm.var p).isRandom then (-1, shm) else set p shm

def varAssignBoolean (shm : VarShm D) (name : CString) (b : Bool) : ℤ × VarShm D :=
  varAssign shm name fun p shm => (0, shm.setVar p (varSetBool (shm.var p) b))

def varAssignInteger (shm : VarShm D) (name : CString) (n : FbInt) : ℤ × VarShm D :=
  varAssign shm name fun p shm => (0, shm.setVar p (varSetInt (shm.var p) n))

def varAssignString (shm : VarShm D) (name : CString) (s : CString) : ℤ × VarShm D :=
  varAssign shm name fun p shm =>
    match ipcStralloc shm s with
    | (none, shm) => (-1, shm)
    | (some strptr, shm) => (0, shm.setVar p (varSetStr (shm.var p) strptr))

def varAssignOpVarInt (shm : VarShm D) (name : CString) (optype : BitVec 32) (src1 : CString)
    (src2 : FbInt) : ℤ × VarShm D :=
  match varFind shm src1 with
  | none => (-1, shm)
  | some varSrc1 => varAssign shm name fun p shm =>
    (0, shm.setVar p (varSetBinopIndvar (shm.var p) (some varSrc1) optype (.integer src2)))

def varAssignOpVarVar (shm : VarShm D) (name : CString) (optype : BitVec 32)
    (src1 src2 : CString) : ℤ × VarShm D :=
  match varFind shm src1 with
  | none => (-1, shm)
  | some varSrc1 =>
    match varFind shm src2 with
    | none => (-1, shm)
    | some varSrc2 => varAssign shm name fun p shm =>
      (0, shm.setVar p (varSetBinopIndvar (shm.var p) (some varSrc1) optype
        (.varptr2 (some varSrc2))))

theorem valueKinds_and {kind : BitVec 32} (h : kind ∈ valueKinds) :
    kind &&& varTypeSetMask = kind := by
  fin_cases h <;> rfl

/-- One test of `var_copy` for a value. -/
def varCopyValue (shm : VarShm D) (dst src : VarPtr) (kind : BitVec 32)
    (hkind : kind ∈ valueKinds) : VarShm D :=
  if h : varHas (shm.var src) kind then
    shm.setVar dst (varSet (shm.var dst) (shm.var src).varVal kind (valueKinds_and hkind)
      (((shm.var src).typed (h.symm ▸ hkind)).trans (congrArg some h)))
  else shm

def varCopyIndvar (shm : VarShm D) (dst src : VarPtr) : VarShm D :=
  if varHasIndvar (shm.var src) then
    shm.setVar dst (varSetIndvar (shm.var dst) (shm.var src).varVarptr1)
  else shm

/-- A string is copied to new memory. -/
def varCopy (shm : VarShm D) (dst src : VarPtr) : ℤ × VarShm D :=
  let shm := varCopyValue shm dst src varTypeBoolSet (by decide)
  let shm := varCopyValue shm dst src varTypeIntSet (by decide)
  let shm := varCopyValue shm dst src varTypeDblSet (by decide)
  if varHasString (shm.var src) then
    match shm.request with
    | (false, shm) => (-1, shm)
    | (true, shm) =>
      let shm := varCopyValue shm dst src varTypeStrSet (by decide)
      (0, varCopyIndvar shm dst src)
  else (0, varCopyIndvar shm dst src)

def varAssignVar (shm : VarShm D) (name srcName : CString) : ℤ × VarShm D :=
  match varFind shm srcName with
  | none => (-1, shm)
  | some srcVar => varAssign shm name fun dstVar shm => varCopy shm dstVar srcVar

/-! ## The set commands -/

/-- The operators of the grammar. -/
inductive FskOp where
  | plus
  | minus
  | multiply
  | divide
  deriving DecidableEq, Repr

/-- `parser_set_var_op_int` -/
def FskOp.varInt : FskOp → BitVec 32
  | .plus => varIndIntSumIv
  | .minus => varIndIvDifInt
  | .multiply => varIndIntMulIv
  | .divide => varIndIvDivInt

/-- `parser_set_int_op_var` -/
def FskOp.intVar : FskOp → BitVec 32
  | .plus => varIndIntSumIv
  | .minus => varIndIntDifIv
  | .multiply => varIndIntMulIv
  | .divide => varIndIntDivIv

/-- `parser_set_var_op_var` -/
def FskOp.varVar : FskOp → BitVec 32
  | .plus => varIndIvSumIv
  | .minus => varIndIvDifIv
  | .multiply => varIndIvMulIv
  | .divide => varIndIvDivIv

/-- The assignments that set commands come down to. -/
inductive SetOp where
  | boolean (name : CString) (b : Bool)
  | integer (name : CString) (n : FbInt)
  | string (name s : CString)
  | var (name src : CString)
  | varOpInt (name : CString) (op : FskOp) (src1 : CString) (src2 : FbInt)
  | intOpVar (name : CString) (op : FskOp) (src2 : FbInt) (src1 : CString)
  | varOpVar (name : CString) (op : FskOp) (src1 src2 : CString)

def SetOp.name : SetOp → CString
  | .boolean name _ | .integer name _ | .string name _ | .var name _ | .varOpInt name _ _ _
  | .intOpVar name _ _ _ | .varOpVar name _ _ _ => name

def SetOp.apply (shm : VarShm D) : SetOp → ℤ × VarShm D
  | .boolean name b => varAssignBoolean shm name b
  | .integer name n => varAssignInteger shm name n
  | .string name s => varAssignString shm name s
  | .var name src => varAssignVar shm name src
  | .varOpInt name op src1 src2 => varAssignOpVarInt shm name op.varInt src1 src2
  | .intOpVar name op src2 src1 => varAssignOpVarInt shm name op.intVar src1 src2
  | .varOpVar name op src1 src2 => varAssignOpVarVar shm name op.varVar src1 src2

/-! ## What an assignment does -/

/-- The variables on the lists are allocated ones. -/
structure WellFormed (shm : VarShm D) : Prop where
  list : ∀ p ∈ shm.shmVarList, p < shm.requests
  locList : ∀ p ∈ shm.shmVarLocList, p < shm.requests

/-- New variables may have come to the end of the global list; nothing else happened. -/
structure Grows (shm shm' : VarShm D) : Prop where
  requests : shm.requests ≤ shm'.requests
  var : ∀ q, shm'.var q = shm.var q ∨
    shm.requests ≤ q ∧ ∃ name cls, shm'.var q = .new name cls
  list : ∃ l, shm'.shmVarList = shm.shmVarList ++ l ∧
    ∀ p ∈ l, p < shm'.requests
  locList : shm'.shmVarLocList = shm.shmVarLocList

theorem Grows.var_lt {shm shm' : VarShm D} (h : Grows shm shm') {q : VarPtr}
    (hq : q < shm.requests) : shm'.var q = shm.var q := by
  rcases h.var q with h | ⟨hle, -⟩
  · exact h
  · exact absurd hq (not_lt.mpr hle)

theorem Grows.refl (shm : VarShm D) : Grows shm shm :=
  ⟨le_rfl, fun _ => .inl rfl, ⟨[], by simp⟩, rfl⟩

theorem Grows.trans {shm₁ shm₂ shm₃ : VarShm D} (h₁ : Grows shm₁ shm₂) (h₂ : Grows shm₂ shm₃) :
    Grows shm₁ shm₃ := by
  obtain ⟨l₁, hl₁, hlt₁⟩ := h₁.list
  obtain ⟨l₂, hl₂, hlt₂⟩ := h₂.list
  refine ⟨h₁.requests.trans h₂.requests, ?_, ⟨l₁ ++ l₂, ?_⟩, h₂.locList.trans h₁.locList⟩
  · intro q
    rcases h₂.var q with h | ⟨hle, hnew⟩
    · rw [h]
      exact h₁.var q
    · exact .inr ⟨h₁.requests.trans hle, hnew⟩
  · constructor
    · rw [hl₂, hl₁, List.append_assoc]
    · intro p hp
      rcases List.mem_append.mp hp with h | h
      · exact (hlt₁ p h).trans_le h₂.requests
      · exact hlt₂ p h

theorem Grows.wellFormed {shm shm' : VarShm D} (h : Grows shm shm') (hwf : WellFormed shm) :
    WellFormed shm' := by
  obtain ⟨l, hl, hlt⟩ := h.list
  constructor
  · intro p hp
    rw [hl] at hp
    rcases List.mem_append.mp hp with hp | hp
    · exact (hwf.list p hp).trans_le h.requests
    · exact hlt p hp
  · intro p hp
    rw [h.locList] at hp
    exact (hwf.locList p hp).trans_le h.requests

theorem varFindList_mem {shm : VarShm D} {l : List VarPtr} {name : CString} {p : VarPtr}
    (h : varFindList shm l name = some p) : p ∈ l := List.mem_of_find?_eq_some h

theorem varFind_mem {shm : VarShm D} {name : CString} {p : VarPtr}
    (h : varFind shm name = some p) : p ∈ shm.shmVarLocList ∨ p ∈ shm.shmVarList := by
  rcases Option.or_eq_some_iff.mp h with h | ⟨-, h⟩
  · exact .inl (varFindList_mem h)
  · exact .inr (varFindList_mem h)

theorem WellFormed.varFind_lt {shm : VarShm D} (hwf : WellFormed shm) {name : CString}
    {p : VarPtr} (h : varFind shm name = some p) : p < shm.requests := by
  rcases varFind_mem h with h | h
  · exact hwf.locList p h
  · exact hwf.list p h

/-- A lookup depends on the names along the list. -/
theorem varFindList_congr {shm shm' : VarShm D} {l : List VarPtr} {name : CString}
    (h : ∀ q ∈ l, (shm'.var q).varName = (shm.var q).varName) :
    varFindList shm' l name = varFindList shm l name := by
  refine List.find?_congr fun q hq => ?_
  rw [h q hq]

theorem varFind_setVar {shm : VarShm D} {p : VarPtr} {v : Var D}
    (hv : v.varName = (shm.var p).varName) (name : CString) :
    varFind (shm.setVar p v) name = varFind shm name := by
  have hname : ∀ q, ((shm.setVar p v).var q).varName = (shm.var q).varName := by
    intro q
    simp only [VarShm.setVar, Function.update_apply]
    split_ifs with hq
    · rw [hv, hq]
    · rfl
  simp only [varFind]
  rw [varFindList_congr fun q _ => hname q]
  exact congrArg _ (varFindList_congr fun q _ => hname q)

theorem Grows.find {shm shm' : VarShm D} (h : Grows shm shm') (hwf : WellFormed shm)
    {name : CString} {p : VarPtr} (hp : varFind shm name = some p) :
    varFind shm' name = some p := by
  obtain ⟨l, hl, -⟩ := h.list
  have hloc : varFindList shm' shm'.shmVarLocList name = varFindList shm shm.shmVarLocList name := by
    rw [h.locList]
    exact varFindList_congr fun q hq => by rw [h.var_lt (hwf.locList q hq)]
  have hlist : varFindList shm' shm.shmVarList name = varFindList shm shm.shmVarList name :=
    varFindList_congr fun q hq => by rw [h.var_lt (hwf.list q hq)]
  simp only [varFind, hloc] at hp ⊢
  rw [hl]
  rcases Option.or_eq_some_iff.mp hp with hp | ⟨hnone, hp⟩
  · rw [hp]
    rfl
  · rw [hnone, Option.none_or]
    exact List.find?_append.trans (by rw [show List.find? _ _ = some p from hlist.trans hp]; rfl)

theorem grows_request {shm shm' : VarShm D} {b : Bool} (h : shm.request = (b, shm')) :
    Grows shm shm' := by
  obtain ⟨-, rfl⟩ := Prod.mk.inj h
  exact ⟨Nat.le_succ _, fun _ => .inl rfl, ⟨[], by simp⟩, rfl⟩

theorem varAlloc_none {shm shm' : VarShm D} {name : CString}
    (h : varAlloc shm name = (none, shm')) : Grows shm shm' := by
  simp only [varAlloc, varAllocCmn] at h
  split at h
  next hreq =>
    obtain rfl := (Prod.mk.inj h).2
    exact grows_request hreq
  next shm₁ hreq =>
    split at h
    next hreq' =>
      obtain rfl := (Prod.mk.inj h).2
      exact (grows_request hreq).trans (grows_request hreq')
    next => cases (Prod.mk.inj h).1

/-- A new variable comes to the end of the global list. -/
theorem varAlloc_some {shm shm' : VarShm D} {name : CString} {p : VarPtr}
    (h : varAlloc shm name = (some p, shm')) :
    p = shm.requests ∧ Grows shm shm' ∧ shm'.var p = .new name .global ∧
      shm'.shmVarList = shm.shmVarList ++ [p] := by
  simp only [varAlloc, varAllocCmn] at h
  split at h
  next => cases (Prod.mk.inj h).1
  next shm₁ hreq =>
    split at h
    next => cases (Prod.mk.inj h).1
    next shm₂ hreq' =>
      obtain ⟨hp, rfl⟩ := Prod.mk.inj h
      obtain rfl := Option.some.inj hp
      obtain rfl := congrArg Prod.snd hreq
      obtain rfl := congrArg Prod.snd hreq'
      refine ⟨rfl, ⟨?_, ?_, ⟨[shm.requests], rfl, ?_⟩, rfl⟩, ?_, rfl⟩
      · exact Nat.le_add_right _ 2
      · intro q
        by_cases hq : q = shm.requests
        · subst hq
          exact .inr ⟨le_rfl, name, .global, Function.update_self ..⟩
        · exact .inl (Function.update_of_ne hq ..)
      · intro q hq
        rw [List.mem_singleton.mp hq]
        exact Nat.lt_add_of_pos_right Nat.two_pos
      · exact Function.update_self ..

theorem varFindAlloc_none {shm shm' : VarShm D} {name : CString}
    (h : varFindAlloc shm name = (none, shm')) : Grows shm shm' := by
  unfold varFindAlloc at h
  split at h
  · cases (Prod.mk.inj h).1
  · exact varAlloc_none h

/-- The target of an assignment: a variable that was there, or a new one. -/
theorem varFindAlloc_some {shm shm' : VarShm D} (hwf : WellFormed shm) {name : CString}
    {p : VarPtr} (h : varFindAlloc shm name = (some p, shm')) :
    Grows shm shm' ∧ varFind shm' name = some p ∧
      (varFind shm name = some p ∨ shm.requests ≤ p ∧ shm'.var p = .new name .global) := by
  unfold varFindAlloc at h
  split at h
  next q hq =>
    obtain ⟨hp, rfl⟩ := Prod.mk.inj h
    obtain rfl := Option.some.inj hp
    exact ⟨.refl shm, hq, .inl hq⟩
  next hnone =>
    obtain ⟨rfl, hgrow, hnew, hlist⟩ := varAlloc_some h
    refine ⟨hgrow, ?_, .inr ⟨le_rfl, hnew⟩⟩
    obtain ⟨hloc, hglob⟩ := Option.or_eq_none_iff.mp hnone
    have hloc' : varFindList shm' shm.shmVarLocList name = none :=
      (varFindList_congr fun q hq => by rw [hgrow.var_lt (hwf.locList q hq)]).trans hloc
    have hglob' : varFindList shm' shm.shmVarList name = none :=
      (varFindList_congr fun q hq => by rw [hgrow.var_lt (hwf.list q hq)]).trans hglob
    rw [varFind, hgrow.locList, hlist, hloc', Option.none_or, varFindList, List.find?_append,
      show List.find? _ shm.shmVarList = none from hglob', Option.none_or]
    simp [hnew, Var.new]

end

end Filebench
