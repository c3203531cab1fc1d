import Filebench.Lib.Redirect
import Filebench.Vars.Operation

/-! # Evaluations that end

`var_get_int` and `var_get_dbl` follow the operands of operations. A history in which no
variable is set to an operation that leads back to it leaves no circle to follow. -/
namespace Filebench

open Fuel Redirect Relation

variable {D σ V : Type}

/-- The second operand, when it is a variable. -/
def VarVal.operand : VarVal D → Option VarPtr
  | .varptr2 p => p
  | _ => none

/-- The variables that an evaluation goes on to. -/
def Var.refs (vp : Var D) : List VarPtr :=
  if varHasBinop vp then vp.varVarptr1.toList ++ vp.varVal.operand.toList else []

/-- The evaluation of `p` goes on to `q`. -/
def Refers (shm : VarShm D) (q p : VarPtr) : Prop := q ∈ (shm.var p).refs

/-! ## The evaluation along the references -/

section evaluation

variable {ar : Arith D V} {env : RandEnv D σ} {shm : VarShm D}

theorem getVarptr2_operand {val : VarVal D} {p : VarPtr} (h : val.getVarptr2 = .ok (some p)) :
    val.operand = some p := by
  cases val with
  | varptr2 q => exact Except.ok.inj h
  | integer n =>
    simp only [VarVal.getVarptr2] at h
    split at h <;> cases h
  | _ => cases h

theorem halts_getOrZero {get : ℕ → VarPtr → Eval σ V} {o : Option VarPtr}
    (h : ∀ p, o = some p → Halts fun n => get n p) :
    Halts fun n => getOrZero ar (get n) o := by
  cases o with
  | none => exact halts_pure ar.zero
  | some p => exact h p rfl

theorem halts_varSrc2 {get : ℕ → VarPtr → Eval σ V} {vp : Var D}
    (h : ∀ p, vp.varVal.operand = some p → Halts fun n => get n p) :
    Halts fun n => varSrc2 ar (get n) vp := by
  unfold varSrc2
  split_ifs
  · exact (halts_orFault _).bind fun _ => halts_pure _
  · exact (halts_orFault _).bind fun _ => halts_pure _
  · cases hval : vp.varVal.getVarptr2 with
    | error e =>
      intro s
      exact ⟨.error e, (gives_const rfl).bind_error⟩
    | ok o =>
      have hget : Halts fun n => getOrZero ar (get n) o := by
        apply halts_getOrZero
        rintro p rfl
        exact h p (getVarptr2_operand hval)
      exact hget
  · exact halts_fault _

theorem halts_varBinaryOp {get : ℕ → VarPtr → Eval σ V} {vp : Var D} (hbinop : varHasBinop vp)
    (h : ∀ p ∈ vp.refs, Halts fun n => get n p) :
    Halts fun n => varBinaryOp ar (get n) vp := by
  rw [Var.refs, if_pos hbinop] at h
  have hsrc2 : Halts fun n => varSrc2 ar (get n) vp := by
    apply halts_varSrc2
    intro p hp
    apply h
    simp [hp]
  have hsrc1 : Halts fun n => getOrZero ar (get n) vp.varVarptr1 := by
    apply halts_getOrZero
    intro p hp
    apply h
    simp [hp]
  exact hsrc2.bind fun _ => hsrc1.bind fun _ => halts_orFault _

theorem halts_rndGet (vp : Var D) : Halts fun _ => rndGet env vp :=
  (halts_orFault _).bind fun rndp => halts_const fun s => ⟨env.rndGet rndp s, rfl⟩

/-- An evaluation ends where the references do. -/
theorem halts_varGetNum {p : VarPtr} (h : Acc (Refers shm) p) :
    Halts fun n => varGetNum ar env shm n p := by
  induction h with
  | intro p _ ih =>
    apply Halts.of_succ
    simp only [varGetNum]
    split_ifs with _ _ _ hbinop
    · exact (halts_orFault _).bind fun _ => halts_pure _
    · exact (halts_orFault _).bind fun _ => halts_pure _
    · exact (halts_rndGet _).bind fun _ => halts_pure _
    · exact halts_varBinaryOp hbinop ih
    · exact halts_pure _

end evaluation

/-! ## The references over a history -/

/-- The variables whose values an operation is on. -/
def SetOp.operands : SetOp → List CString
  | .varOpInt _ _ src1 _ | .intOpVar _ _ _ src1 => [src1]
  | .varOpVar _ _ src1 src2 => [src1, src2]
  | _ => []

/-- No operand of the command leads back to its target. Random variables are never set. -/
def NoCircle (shm : VarShm D) (op : SetOp) : Prop :=
  ∀ p, varFind shm op.name = some p → ¬ (shm.var p).isRandom →
    ∀ src ∈ op.operands, ∀ q, varFind shm src = some q → ¬ ReflTransGen (Refers shm) p q

/-- Where a history begins: variables with values only. -/
structure ValuesOnly (shm : VarShm D) : Prop where
  wellFormed : WellFormed shm
  value : ∀ p, ¬ varHas (shm.var p) varTypeIndvarSet

/-- All references end, and they lead to variables that exist. -/
structure Grounded (shm : VarShm D) : Prop where
  wellFormed : WellFormed shm
  wellFounded : WellFounded (Refers shm)
  lt : ∀ q p, Refers shm q p → q < shm.requests
  noIndvar : ∀ p, ¬ varHasIndvar (shm.var p)

theorem Var.refs_of_not_indvarSet {vp : Var D} (h : ¬ varHas vp varTypeIndvarSet) :
    vp.refs = [] := by
  apply if_neg
  intro hbinop
  exact h hbinop.1

theorem Var.new_not_indvarSet (name : CString) (cls : VarClass) :
    ¬ varHas (Var.new name cls : Var D) varTypeIndvarSet := by
  change cls.bits &&& varTypeSetMask ≠ varTypeIndvarSet
  cases cls <;> decide

theorem varSet_not_indvarSet {vp : Var D} {val : VarVal D} {kind : BitVec 32} {hkind hval}
    (h : kind ∈ valueKinds) : ¬ varHas (varSet vp val kind hkind hval) varTypeIndvarSet := by
  rw [varSet_has]
  rintro rfl
  exact absurd h (by decide)

theorem ValuesOnly.grounded {shm : VarShm D} (h : ValuesOnly shm) : Grounded shm := by
  have hrefs : ∀ q p, ¬ Refers shm q p := by
    intro q p hqp
    rw [Refers, Var.refs_of_not_indvarSet (h.value p)] at hqp
    cases hqp
  constructor
  · exact h.wellFormed
  · constructor
    intro p
    exact ⟨p, fun q hq => absurd hq (hrefs q p)⟩
  · intro q p hqp
    exact absurd hqp (hrefs q p)
  · intro p hind
    exact h.value p hind.1

theorem Grows.refers {shm shm' : VarShm D} (h : Grows shm shm') {q p : VarPtr}
    (hqp : Refers shm' q p) : Refers shm q p := by
  rcases h.var p with hp | ⟨-, name, cls, hp⟩
  · rwa [Refers, hp] at hqp
  · rw [Refers, hp, Var.refs_of_not_indvarSet (Var.new_not_indvarSet name cls)] at hqp
    cases hqp

theorem Grows.grounded {shm shm' : VarShm D} (h : Grows shm shm') (hg : Grounded shm) :
    Grounded shm' := by
  constructor
  · exact h.wellFormed hg.wellFormed
  · exact wellFounded_of_imp (fun _ _ => h.refers) hg.wellFounded
  · intro q p hqp
    exact (hg.lt q p (h.refers hqp)).trans_le h.requests
  · intro p
    rcases h.var p with hp | ⟨-, name, cls, hp⟩
    · rw [hp]
      exact hg.noIndvar p
    · rw [hp]
      intro hind
      exact Var.new_not_indvarSet name cls hind.1

theorem varSetBinopIndvar_refs {v : Var D} {p : VarPtr} {st : BitVec 32} {src2 : VarVal D}
    {q : VarPtr} (h : q ∈ (varSetBinopIndvar v (some p) st src2).refs) :
    q = p ∨ src2.operand = some q := by
  unfold Var.refs at h
  split_ifs at h
  · rcases List.mem_append.mp h with h | h
    · exact .inl (by simpa [varSetBinopIndvar, eq_comm] using h)
    · exact .inr (by simpa [varSetBinopIndvar] using h)
  · cases h

theorem varSetBinopIndvar_not_indvar {v : Var D} {p : Option VarPtr} {st : BitVec 32}
    {src2 : VarVal D} (hst : IsOptype st) : ¬ varHasIndvar (varSetBinopIndvar v p st src2) := by
  rintro ⟨-, hind⟩
  rw [varSetBinopIndvar_indbinop] at hind
  exact hst.2 (BitVec.or_eq_zero_iff.mp hind).2

/-- What an assignment makes its target refer to. -/
theorem Assigned.refs {shm : VarShm D} {op : SetOp} {v v' : Var D} (h : Assigned shm op v v')
    (hno : ∀ q, ¬ varHasIndvar (shm.var q)) (hv : ¬ varHasIndvar v) :
    (∀ q ∈ v'.refs, q ∈ v.refs ∨ ∃ src ∈ op.operands, varFind shm src = some q) ∧
      ¬ varHasIndvar v' := by
  have hvalue : ∀ {val kind hkind hval}, kind ∈ valueKinds → v' = varSet v val kind hkind hval →
      (∀ q ∈ v'.refs, q ∈ v.refs ∨ ∃ src ∈ op.operands, varFind shm src = some q) ∧
        ¬ varHasIndvar v' := by
    rintro val kind hkind hval hmem rfl
    have hnot : ¬ varHas (varSet v val kind hkind hval) varTypeIndvarSet :=
      varSet_not_indvarSet hmem
    rw [Var.refs_of_not_indvarSet hnot]
    exact ⟨nofun, fun hind => hnot hind.1⟩
  cases h with
  | boolean | integer | string => exact hvalue (by decide) rfl
  | var _ hcopied =>
    cases hcopied with
    | value hmem => exact hvalue hmem rfl
    | indvar hind => exact absurd hind (hno _)
    | nothing => exact ⟨fun q hq => .inl hq, hv⟩
  | varOpInt op n _ hsrc1 =>
    refine ⟨fun q hq => .inr ?_, varSetBinopIndvar_not_indvar op.isOptype.1⟩
    rcases varSetBinopIndvar_refs hq with rfl | hq
    · exact ⟨_, .head _, hsrc1⟩
    · cases hq
  | intOpVar op n _ hsrc1 =>
    refine ⟨fun q hq => .inr ?_, varSetBinopIndvar_not_indvar op.isOptype.2.1⟩
    rcases varSetBinopIndvar_refs hq with rfl | hq
    · exact ⟨_, .head _, hsrc1⟩
    · cases hq
  | varOpVar op _ hsrc1 hsrc2 =>
    refine ⟨fun q hq => .inr ?_, varSetBinopIndvar_not_indvar op.isOptype.2.2⟩
    rcases varSetBinopIndvar_refs hq with rfl | hq
    · exact ⟨_, .head _, hsrc1⟩
    · cases hq
      exact ⟨_, .tail _ (.head _), hsrc2⟩

/-- Nothing leads to a variable that is not there yet. -/
theorem Grounded.lt_of_leads {shm : VarShm D} (hg : Grounded shm) {p q : VarPtr}
    (h : ReflTransGen (Refers shm) p q) (hq : q < shm.requests) : p < shm.requests := by
  rcases h.cases_head with rfl | ⟨c, hpc, -⟩
  · exact hq
  · exact hg.lt p c hpc

theorem Effect.refs {shm shm₁ : VarShm D} {op : SetOp} {p : VarPtr} {v' : Var D}
    (h : Effect shm op shm₁ p v') (hg : Grounded shm) :
    (∀ q ∈ v'.refs, Refers shm q p ∨ ∃ src ∈ op.operands, varFind shm src = some q) ∧
      ¬ varHasIndvar v' := by
  have hg₁ := h.grows.grounded hg
  obtain ⟨hrefs, hind⟩ := h.assigned.refs hg.noIndvar (hg₁.noIndvar p)
  constructor
  · intro q hq
    rcases hrefs q hq with hold | hnew
    · exact .inl (h.grows.refers hold)
    · exact .inr hnew
  · exact hind

/-- The references are redirected at the target, and not back to it. -/
theorem Effect.redirects {shm shm₁ : VarShm D} {op : SetOp} {p : VarPtr} {v' : Var D}
    (h : Effect shm op shm₁ p v') (hg : Grounded shm) (hop : NoCircle shm op) :
    Redirects (Refers shm) (Refers (shm₁.setVar p v')) p := by
  constructor
  · intro q b hqb hne
    rw [Refers, setVar_var_of_ne _ _ hne] at hqb
    exact h.grows.refers hqb
  · intro q hqp
    rw [Refers, setVar_var_self] at hqp
    rcases (h.refs hg).1 q hqp with hold | ⟨src, hsrc, hq⟩
    · exact .inl hold
    · apply Or.inr
      have hlt := hg.wellFormed.varFind_lt hq
      rcases h.old with hold | ⟨hle, -⟩
      · apply hop p hold _ src hsrc q hq
        rw [← h.grows.var_lt (hg.wellFormed.varFind_lt hold)]
        exact h.notRandom
      · intro hpq
        exact absurd (hg.lt_of_leads hpq hlt) (not_lt.mpr hle)

theorem Grounded.apply {shm shm' : VarShm D} (hg : Grounded shm) {op : SetOp} {r : ℤ}
    (hop : NoCircle shm op) (happly : op.apply shm = (r, shm')) : Grounded shm' := by
  rcases SetOp.apply_effect hg.wellFormed happly with ⟨-, hgrow⟩ | ⟨-, shm₁, p, v', heffect, rfl⟩
  · exact hgrow.grounded hg
  · have hg₁ := heffect.grows.grounded hg
    constructor
    · exact heffect.wellFormed hg.wellFormed
    · exact (heffect.redirects hg hop).wellFounded hg.wellFounded
    · intro q b hqb
      by_cases hb : b = p
      · subst hb
        rw [Refers, setVar_var_self] at hqb
        rcases (heffect.refs hg).1 q hqb with hold | ⟨src, -, hq⟩
        · exact (hg.lt q b hold).trans_le heffect.grows.requests
        · exact (hg.wellFormed.varFind_lt hq).trans_le heffect.grows.requests
      · rw [Refers, setVar_var_of_ne _ _ hb] at hqb
        exact hg₁.lt q b hqb
    · intro b
      by_cases hb : b = p
      · subst hb
        rw [setVar_var_self]
        exact (heffect.refs hg).2
      · rw [setVar_var_of_ne _ _ hb]
        exact hg₁.noIndvar b

theorem SetRun.grounded {shm shm' : VarShm D} (h : SetRun NoCircle shm shm')
    (hg : Grounded shm) : Grounded shm' := by
  induction h with
  | refl => exact hg
  | tail _ hok happly ih => exact ih.apply hok happly

/-- After a history in which no command closes a circle, every evaluation ends. -/
theorem setRun_halts [DoubleOps D] (env : RandEnv D σ) {shm₀ shm : VarShm D}
    (hstart : ValuesOnly shm₀) (hrun : SetRun NoCircle shm₀ shm) :
    WellFounded (Refers shm) ∧ ∀ p, (Halts fun fuel => varGetInt env shm fuel p) ∧
      (Halts fun fuel => varGetDbl env shm fuel p) := by
  have hwf := (hrun.grounded hstart.grounded).wellFounded
  refine ⟨hwf, fun p => ?_⟩
  constructor
  · exact halts_varGetNum (hwf.apply p)
  · exact halts_varGetNum (hwf.apply p)

theorem noVars_values : ValuesOnly noVars := by
  constructor
  · exact noVars_start.wellFormed
  · intro p
    exact Var.new_not_indvarSet [] .global

/-- `set $a = 1`, `set $b = $a + 1` -/
theorem setRun_halts_sum : ∃ shm p, varFind shm ['b'] = some p ∧
    Halts (fun fuel => @varGetInt ℚ Unit rationals noRandom shm fuel p) := by
  have hrun : SetRun NoCircle noVars _ := ((SetRun.refl noVars).apply (.integer ['a'] 1)
    (fun _ _ _ _ h => nomatch h)).apply (.varOpInt ['b'] .plus ['a'] 1) (fun p hp => nomatch hp)
  exact ⟨_, 2, rfl, ((@setRun_halts ℚ Unit rationals noRandom _ _ noVars_values hrun).2 2).1⟩

/-- A variable that stands for an operation on itself has no value. -/
theorem varGetNum_self {ar : Arith D V} {env : RandEnv D σ} {shm : VarShm D} {p : VarPtr}
    {n : FbInt} (hbinop : varHasBinop (shm.var p)) (hkind : (shm.var p).indbinop = varIndBinopInt)
    (hval : (shm.var p).varVal = .integer n) (hself : (shm.var p).varVarptr1 = some p) (s : σ) :
    ∀ fuel, varGetNum ar env shm fuel p s = none := by
  intro fuel
  induction fuel with
  | zero => rfl
  | succ fuel ih =>
    have hsrc2 : varSrc2 ar (varGetNum ar env shm fuel) (shm.var p) = pure (ar.ofInteger n) :=
      varSrc2_int _ hkind hval
    rw [varGetNum_binop ar hbinop, varBinaryOp, hsrc2, hself, pure_bind]
    exact bind_none ih

/-- `set $a = 1`, `set $a = $a + 1`, which first assigns `$a` to itself -/
theorem varGetNum_circle : ∃ shm p, SetRun (fun _ _ => True) noVars shm ∧
    varFind shm ['a'] = some p ∧
    (∀ fuel, @varGetInt ℚ Unit rationals noRandom shm fuel p () = none) ∧
    ∀ fuel, @varGetDbl ℚ Unit rationals noRandom shm fuel p () = none := by
  refine ⟨_, 0, (((SetRun.refl noVars).apply (.integer ['a'] 1) trivial).apply
    (.var ['a'] ['a']) trivial).apply (.varOpInt ['a'] .plus ['a'] 1) trivial, rfl, ?_, ?_⟩
  · apply varGetNum_self _ rfl rfl rfl
    exact ⟨rfl, by decide⟩
  · apply varGetNum_self _ rfl rfl rfl
    exact ⟨rfl, by decide⟩

end Filebench
