import Filebench.Parser.Foreach

/-! # Set commands with several operators

The grammar takes one operand after another, and each reduction changes the command that the ones
before it left. An operator between two constants sets the variable at once. -/
namespace Filebench

open Fuel

/-- The value of a chain of operations from left to right, modulo `2 ^ 64`. -/
def evalChain (first : FbInt) (chain : List (FskOp × FbInt)) : FbInt :=
  chain.foldl (fun n x => x.1.eval n x.2) first

/-- `set $tgt1 = first op₁ c₁ op₂ c₂ ...` -/
def setChain (S : Type) (tgt1 : CString) (first : FbInt) (chain : List (FskOp × FbInt)) :
    Command S :=
  .setInteger tgt1 (.int first) (chain.map fun x => (x.1, .int x.2))

/-- An ordinary variable of the name is worth `n`, whatever the random numbers are. -/
def SetTo {D : Type} [DoubleOps D] (shm : VarShm D) (name : CString) (n : FbInt) : Prop :=
  ∃ p, varFind shm name = some p ∧ ¬ (shm.var p).isRandom ∧
    ∀ (σ : Type) (env : RandEnv D σ) fill s,
      Gives (fun fuel => varToInteger env shm fill fuel name) s (.ok (n, s))

/-- A variable of the name exists or can be allocated, and is not random. -/
def Assignable {D : Type} (shm : VarShm D) (name : CString) : Prop :=
  ∃ p shm', varFindAlloc shm name = (some p, shm') ∧ ¬ (shm'.var p).isRandom

section assign

variable {D : Type} {shm shm' : VarShm D} {name : CString}

/-- Without memory for it a variable is not found afterwards either. -/
theorem varFind_of_alloc_none (h : varFindAlloc shm name = (none, shm')) :
    varFind shm' name = none := by
  have hnone : varFind shm name = none := by
    by_contra hne
    obtain ⟨p, hp⟩ := Option.ne_none_iff_exists'.mp hne
    simp [varFindAlloc, hp] at h
  rw [varFindAlloc, hnone] at h
  simp only [varAlloc, varAllocCmn, VarShm.request] at h
  -- a request that fails is only counted
  cases hfirst : shm.alloc shm.requests with
  | false =>
    rw [hfirst] at h
    obtain rfl := (Prod.mk.inj h).2
    exact hnone
  | true =>
    cases hsecond : shm.alloc (shm.requests + 1) with
    | false =>
      simp only [hfirst, hsecond] at h
      obtain rfl := (Prod.mk.inj h).2
      exact hnone
    | true =>
      simp only [hfirst, hsecond] at h
      cases (Prod.mk.inj h).1

variable [DoubleOps D]

theorem setTo_setInt {p : VarPtr} (hp : varFind shm name = some p) (hne : ¬ (shm.var p).isRandom)
    (n : FbInt) : SetTo (shm.setVar p (varSetInt (shm.var p) n)) name n := by
  have hvar := setVar_var_self shm p (varSetInt (shm.var p) n)
  have hfind : varFind (shm.setVar p (varSetInt (shm.var p) n)) name = some p := by
    rw [varFind_setVar (show (varSetInt (shm.var p) n).varName = _ from rfl)]
    exact hp
  refine ⟨p, hfind, ?_, fun σ env fill s => Gives.of_succ ?_⟩
  · have hclass : (varSetInt (shm.var p) n).varType &&& varTypeMask =
        (shm.var p).varType &&& varTypeMask := varSet_class (by decide)
    rw [Var.isRandom, hvar, hclass]
    exact hne
  · have hint : varHasInteger ((shm.setVar p (varSetInt (shm.var p) n)).var p) := by
      rw [hvar]
      exact (varSet_has _).mpr rfl
    simp only [varToInteger_of_find hfind, varGetInt, varGetNum_integer _ hint]
    rw [hvar]
    exact gives_pure n s

theorem setTo_varAssignInteger_iff (hwf : WellFormed shm) (n : FbInt) :
    SetTo (varAssignInteger shm name n).2 name n ↔ Assignable shm name := by
  rw [varAssignInteger, varAssign]
  rcases halloc : varFindAlloc shm name with ⟨_ | p, shm₁⟩
  · refine iff_of_false ?_ ?_
    · rintro ⟨p, hp, -⟩
      rw [varFind_of_alloc_none halloc] at hp
      cases hp
    · rintro ⟨p, shm₂, hp, -⟩
      rw [halloc] at hp
      cases (Prod.mk.inj hp).1
  · have hfind := (varFindAlloc_some hwf halloc).2.1
    by_cases hrandom : (shm₁.var p).isRandom
    · simp only [if_pos hrandom]
      refine iff_of_false ?_ ?_
      · rintro ⟨q, hq, hne, -⟩
        obtain rfl := Option.some.inj (hfind.symm.trans hq)
        exact hne hrandom
      · rintro ⟨q, shm₂, hq, hne⟩
        obtain ⟨heq, rfl⟩ := Prod.mk.inj (halloc.symm.trans hq)
        obtain rfl := Option.some.inj heq
        exact hne hrandom
    · simp only [if_neg hrandom]
      exact iff_of_true (setTo_setInt hfind hrandom n) ⟨p, shm₁, halloc, hrandom⟩

end assign

section chain

variable {S : Type} (ops : ShellOps S)

/-- Once the function is not that of a constant, every further operator asks for a variable. -/
theorem setRest_cons {c : SetCmd} (hcmd : c.cmd ≠ .parserSetInteger) (s : S) (x : FskOp × FbInt)
    (chain : List (FskOp × FbInt)) : ∃ n op,
      setRest ops ((x :: chain).map fun x => (x.1, .int x.2)) c s =
        .ok ({ c with cmdQty := n, cmdSubtype := some op, cmd := .parserSetVarOpInt }, s) := by
  induction chain generalizing c x with
  | nil =>
    refine ⟨x.2, x.1, ?_⟩
    rw [List.map_singleton, setRest, setBinaryOp, if_neg hcmd]
    rfl
  | cons y chain ih =>
    let c' : SetCmd := { c with cmdQty := x.2, cmdSubtype := some x.1, cmd := .parserSetVarOpInt }
    have hcmd' : c'.cmd ≠ .parserSetInteger := fun h => by cases h
    obtain ⟨n, op, hrest⟩ := ih hcmd' y
    refine ⟨n, op, ?_⟩
    rw [List.map_cons, setRest, setBinaryOp, if_neg hcmd]
    exact hrest

/-- One operator sets the variable when it is read. -/
theorem commands_setChain_one (tgt1 : CString) (first : FbInt) {x : FskOp × FbInt}
    (hdiv : x.1 = .divide → x.2 ≠ 0) (s : S) :
    commands ops [setChain S tgt1 first [x]] s =
      .ok (ops.assign (.integer tgt1 (x.1.eval first x.2)) s) := by
  have hdiv' : ¬ (x.1 = .divide ∧ x.2 = 0) := fun h => hdiv h.1 h.2
  rw [commands_single, Staged.Phrase.run, setChain, Command.read]
  simp only [setFirst, List.map_cons, setRest, setBinaryOp, setIntOpInt, if_true, if_neg hdiv']
  rfl

/-- With more operators the function is called without a variable to read. -/
theorem commands_setChain_more (tgt1 : CString) (first : FbInt) {x : FskOp × FbInt}
    (hdiv : x.1 = .divide → x.2 ≠ 0) (y : FskOp × FbInt) (chain : List (FskOp × FbInt)) (s : S) :
    commands ops [setChain S tgt1 first (x :: y :: chain)] s =
      .error (.crash (ops.assign (.integer tgt1 (x.1.eval first x.2)) s)) := by
  have hdiv' : ¬ (x.1 = .divide ∧ x.2 = 0) := fun h => hdiv h.1 h.2
  have hfirst : setBinaryOp ops ⟨.parserSetInteger, tgt1, none, none, first, none⟩ s
      (x.1, .int x.2) = .ok (⟨.null, tgt1, none, none, first, none⟩,
        ops.assign (.integer tgt1 (x.1.eval first x.2)) s) := by
    simp only [setBinaryOp, setIntOpInt, if_true, if_neg hdiv']
    rfl
  obtain ⟨n, op, hrest⟩ := setRest_cons ops (c := ⟨.null, tgt1, none, none, first, none⟩)
    (fun h => by cases h) (ops.assign (.integer tgt1 (x.1.eval first x.2)) s) y chain
  have hall : setRest ops ((x :: y :: chain).map fun x => (x.1, .int x.2))
      ⟨.parserSetInteger, tgt1, none, none, first, none⟩ s =
        .ok (⟨.parserSetVarOpInt, tgt1, none, none, n, some op⟩,
          ops.assign (.integer tgt1 (x.1.eval first x.2)) s) := by
    rw [List.map_cons, setRest, hfirst]
    exact hrest
  rw [commands_single, Staged.Phrase.run, setChain, Command.read]
  simp only [setFirst, hall]
  rfl

end chain

/-- A chain of operations on constants has its value exactly when it is a single one, on a variable
that can be set. -/
theorem setChain_setTo_iff {D : Type} [DoubleOps D] {shm₀ : VarShm D} {s : Shell D}
    (hstart : VarsStart shm₀) (hhistory : SetRun (fun _ _ => True) shm₀ s.shm) (tgt1 : CString)
    (first : FbInt) {chain : List (FskOp × FbInt)} (hne : chain ≠ [])
    (hdiv : ∀ x ∈ chain, x.1 = .divide → x.2 ≠ 0) :
    (∃ s', commands (shellOps D) [setChain _ tgt1 first chain] s = .ok s' ∧
      SetTo s'.shm tgt1 (evalChain first chain)) ↔ chain.length = 1 ∧ Assignable s.shm tgt1 := by
  have hwf := hhistory.wellFormed hstart.wellFormed
  rcases chain with _ | ⟨x, _ | ⟨y, chain⟩⟩
  · exact absurd rfl hne
  · rw [commands_setChain_one _ tgt1 first (hdiv x (.head _))]
    have hiff : SetTo (varAssignInteger s.shm tgt1 (x.1.eval first x.2)).2 tgt1
        (x.1.eval first x.2) ↔ Assignable s.shm tgt1 := setTo_varAssignInteger_iff hwf _
    constructor
    · rintro ⟨s', hs', hset⟩
      obtain rfl := Except.ok.inj hs'
      exact ⟨rfl, hiff.mp hset⟩
    · rintro ⟨-, hassign⟩
      exact ⟨_, rfl, hiff.mpr hassign⟩
  · rw [commands_setChain_more _ tgt1 first (hdiv x (.head _))]
    refine iff_of_false ?_ ?_
    · rintro ⟨s', hs', -⟩
      cases hs'
    · rintro ⟨hlen, -⟩
      simp at hlen

/-- `set $v = 7 - 4` -/
theorem setChain_setTo_three :
    (∃ s', commands (shellOps ℚ) [setChain _ ['v'] 7 [(.minus, 4)]] noShell = .ok s' ∧
      @SetTo ℚ rationals s'.shm ['v'] (evalChain 7 [(.minus, 4)])) ↔
    [(FskOp.minus, (4 : FbInt))].length = 1 ∧ Assignable noShell.shm ['v'] :=
  @setChain_setTo_iff ℚ rationals noVars noShell noVars_start (.refl _) ['v'] 7 [(.minus, 4)]
    (by simp) (by simp)

/-- `set $v = 1 + 2 + 3` -/
theorem setChain_crash : ∃ s,
    commands (shellOps ℚ) [setChain _ ['v'] 1 [(.plus, 2), (.plus, 3)]] noShell =
      .error (.crash s) ∧ evalChain 1 [(.plus, 2), (.plus, 3)] = 6 :=
  ⟨_, rfl, rfl⟩

end Filebench
