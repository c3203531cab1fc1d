import Filebench.Vars.Local

/-! # Local variables of composite flowops

A composite flowop has a list of local variables of its own. When it is used, new variables take
their values from the variables of its definition, and an indirection is resolved by name on the
list of the flowop around it. -/
namespace Filebench

variable {D : Type}

/-- `var_find_list_only` -/
def varFindListOnly (shm : VarShm D) (name : CString) (list : List VarPtr) : Option VarPtr :=
  varFindList shm list name

/-- `var_find_list`, which looks into the shared lists as well. -/
def varFindListOrAll (shm : VarShm D) (name : CString) (list : List VarPtr) : Option VarPtr :=
  (varFindListOnly shm name list).or (varFind shm name)

/-- Takes a new local variable from the shared list to the head of a private one. -/
def addLvarToList (shm : VarShm D) (newlvar : VarPtr) (list : List VarPtr) :
    List VarPtr × VarShm D :=
  (newlvar :: list, { shm with shmVarLocList := shm.shmVarLocList.filter (· ≠ newlvar) })

/-- Without memory the descriptor becomes the null pointer. -/
def avdUpdate (shm : VarShm D) (avd : Avd D) (lvarList : List VarPtr) :
    Option (Avd D) × VarShm D :=
  match avd with
  | .indVar (some oldLvar) =>
    match varFindListOrAll shm (shm.var oldLvar).varName lvarList with
    | some newLvar => avdAllocVarPtr shm newLvar
    | none => avdAllocVarPtr shm oldLvar
  | _ => (some avd, shm)

/-- A variable that was not assigned. -/
abbrev Var.Unset (v : Var D) : Prop := v.varType &&& varTypeSetMask = 0

/-- A string for which there is no memory is not copied, and what follows is not told. -/
def varCopyUnset (shm : VarShm D) (newlvar protoLvar : VarPtr) : VarShm D :=
  if (shm.var newlvar).Unset then (varCopy shm newlvar protoLvar).2 else shm

/-- `uplvp`, which becomes the variable by its name on the list `mstrLvars` if there is one. -/
def upLvar (shm : VarShm D) (newlvar : VarPtr) (uplvp : Option VarPtr) (mstrLvars : List VarPtr) :
    Option (Option VarPtr × VarShm D) :=
  if mstrLvars = [] then some (uplvp, shm)
  else
    uplvp.map fun u =>
      let uplvp := varFindListOnly shm (shm.var u).varName mstrLvars
      (uplvp, shm.setVar newlvar (varSetIndvar (shm.var newlvar) uplvp))

/-- The part for an indirection. To dereference the null pointer gives nothing. -/
def collapseIndirection (shm : VarShm D) (newlvar protoLvar : VarPtr) (mstrLvars : List VarPtr) :
    Option (VarShm D) :=
  match upLvar shm newlvar (shm.var protoLvar).varVarptr1 mstrLvars with
  | some (some uplvp, shm) =>
    if varHasIndvar (shm.var uplvp) then
      some (shm.setVar newlvar (varSetIndvar (shm.var newlvar) (shm.var uplvp).varVarptr1))
    else some shm
  | _ => none

def varUpdateCompLvars (shm : VarShm D) (newlvar : VarPtr) (protoCompVars mstrLvars : List VarPtr) :
    Option (VarShm D) :=
  match varFindListOnly shm (shm.var newlvar).varName protoCompVars with
  | none => some shm
  | some protoLvar =>
    let shm := varCopyUnset shm newlvar protoLvar
    if varHasIndvar (shm.var protoLvar) then collapseIndirection shm newlvar protoLvar mstrLvars
    else some shm

/-! ## Indirections have a target -/

def Var.Targeted (v : Var D) : Prop := varHasIndvar v → v.varVarptr1 ≠ none

def VarShm.Targeted (shm : VarShm D) : Prop := ∀ p, (shm.var p).Targeted

theorem Var.targeted_of_not {v : Var D} (h : ¬ varHasIndvar v) : v.Targeted := fun h' => absurd h' h

theorem varSet_targeted {v : Var D} {val : VarVal D} {kind : BitVec 32} {hkind hval}
    (h : kind ∈ valueKinds) : (varSet v val kind hkind hval).Targeted :=
  Var.targeted_of_not fun h' => varSet_not_indvarSet h h'.1

theorem varSetIndvar_targeted (v : Var D) {o : Option VarPtr} (h : o ≠ none) :
    (varSetIndvar v o).Targeted := fun _ => h

section targeted

variable {shm shm' : VarShm D}

theorem VarShm.Targeted.setVar (h : shm.Targeted) {p : VarPtr} {v : Var D} (hv : v.Targeted) :
    (shm.setVar p v).Targeted := by
  intro q
  by_cases hq : q = p
  · rw [hq, setVar_var_self]
    exact hv
  · rw [setVar_var_of_ne _ _ hq]
    exact h q

theorem VarShm.Targeted.congr (h : shm.Targeted) (hvar : shm'.var = shm.var) : shm'.Targeted := by
  intro p
  rw [hvar]
  exact h p

theorem VarShm.Targeted.varCopyValue (h : shm.Targeted) (dst src : VarPtr) (kind : BitVec 32)
    (hkind : kind ∈ valueKinds) : (varCopyValue shm dst src kind hkind).Targeted := by
  unfold Filebench.varCopyValue
  split
  next => exact h.setVar (varSet_targeted hkind)
  next => exact h

theorem VarShm.Targeted.varCopyIndvar (h : shm.Targeted) (dst src : VarPtr) :
    (varCopyIndvar shm dst src).Targeted := by
  unfold Filebench.varCopyIndvar
  split
  next hind => exact h.setVar (varSetIndvar_targeted _ (h src hind))
  next => exact h

theorem VarShm.Targeted.varCopy (h : shm.Targeted) (dst src : VarPtr) :
    (varCopy shm dst src).2.Targeted := by
  have hvalue := ((h.varCopyValue dst src varTypeBoolSet (by decide)).varCopyValue dst src
    varTypeIntSet (by decide)).varCopyValue dst src varTypeDblSet (by decide)
  unfold Filebench.varCopy
  dsimp only
  split
  next =>
    split
    next hreq =>
      obtain rfl := congrArg Prod.snd hreq
      exact hvalue.congr rfl
    next hreq =>
      obtain rfl := congrArg Prod.snd hreq
      refine VarShm.Targeted.varCopyIndvar (VarShm.Targeted.varCopyValue ?_ dst src _ _) dst src
      exact hvalue.congr rfl
  next => exact hvalue.varCopyIndvar dst src

theorem VarShm.Targeted.varCopyUnset (h : shm.Targeted) (newlvar protoLvar : VarPtr) :
    (varCopyUnset shm newlvar protoLvar).Targeted := by
  unfold Filebench.varCopyUnset
  split
  next => exact h.varCopy newlvar protoLvar
  next => exact h

theorem VarShm.Targeted.upLvar (h : shm.Targeted) {newlvar u : VarPtr} {uplvp : Option VarPtr}
    {mstrLvars : List VarPtr} (hrun : upLvar shm newlvar uplvp mstrLvars = some (some u, shm')) :
    shm'.Targeted := by
  unfold Filebench.upLvar at hrun
  split at hrun
  next =>
    obtain ⟨-, rfl⟩ := Prod.mk.inj (Option.some.inj hrun)
    exact h
  next =>
    obtain ⟨u₀, -, hfound⟩ := Option.map_eq_some_iff.mp hrun
    obtain ⟨hu, rfl⟩ := Prod.mk.inj hfound
    refine h.setVar (varSetIndvar_targeted _ ?_)
    rw [hu]
    nofun

theorem VarShm.Targeted.collapseIndirection (h : shm.Targeted) {newlvar protoLvar : VarPtr}
    {mstrLvars : List VarPtr}
    (hrun : collapseIndirection shm newlvar protoLvar mstrLvars = some shm') : shm'.Targeted := by
  unfold Filebench.collapseIndirection at hrun
  split at hrun
  next u shm₁ hup =>
    have h₁ := h.upLvar hup
    split at hrun
    next hind =>
      obtain rfl := Option.some.inj hrun
      exact h₁.setVar (varSetIndvar_targeted _ (h₁ u hind))
    next =>
      obtain rfl := Option.some.inj hrun
      exact h₁
  next => cases hrun

theorem VarShm.Targeted.varUpdateCompLvars (h : shm.Targeted) {newlvar : VarPtr}
    {protoCompVars mstrLvars : List VarPtr}
    (hrun : varUpdateCompLvars shm newlvar protoCompVars mstrLvars = some shm') :
    shm'.Targeted := by
  unfold Filebench.varUpdateCompLvars at hrun
  split at hrun
  next =>
    obtain rfl := Option.some.inj hrun
    exact h
  next protoLvar _ =>
    have hcopy := h.varCopyUnset newlvar protoLvar
    dsimp only at hrun
    split at hrun
    next => exact hcopy.collapseIndirection hrun
    next =>
      obtain rfl := Option.some.inj hrun
      exact hcopy

end targeted

end Filebench
