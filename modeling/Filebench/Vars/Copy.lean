import Filebench.Vars.Operation

/-! # Copies of variables

What `var_assign_var` leaves in its destination. The chain of tests in `var_copy` knows values and
indirections; a source of another kind leaves the destination as it was, and an indirection keeps
the kind of an operation that the destination once stood for. -/
namespace Filebench

open Fuel

variable {D σ V : Type}

/-! ## What a variable is worth -/

/-- What a variable is worth in a state, whether or not it is there. -/
def Var.num (ar : Arith D V) (env : RandEnv D σ) (shm : VarShm D) (fuel : ℕ) (vp : Var D) :
    Eval σ V :=
  if varHasInteger vp then do
    pure (ar.ofInteger (← orFault vp.varVal.getInteger))
  else if ar.double ∧ varHasDouble vp then do
    pure (ar.ofDouble (← orFault vp.varVal.getDblFlt))
  else if varHasRanddist vp then do
    pure (ar.ofDouble (← rndGet env vp))
  else if varHasBinop vp then varBinaryOp ar (varGetNum ar env shm fuel) vp
  else pure ar.zero

def Var.text [DoubleOps D] (env : RandEnv D σ) (shm : VarShm D) (fuel : ℕ) (vp : Var D) :
    Eval σ CString :=
  if vp.isRandom then do
    pure (env.rndType (← orFault vp.varVal.getRandptr)).text
  else if varHasString vp then orFault vp.varVal.getString
  else if varHasBoolean vp then do
    pure (boolText (← orFault vp.varVal.getBoolean))
  else if varHasInteger vp then do
    pure (fmtLlu (← orFault vp.varVal.getInteger))
  else if varHasIndvar vp then
    match vp.varVarptr1 with
    | some ivp => varGetString env shm fuel ivp
    | none => pure "No default".toList
  else if varHasBinop vp then do
    pure (fmtLlu (← varBinaryIntegerOp env shm fuel vp))
  else pure "No default".toList

/-- Two computations with the same outcomes. -/
def Agree {α : Type} (f g : ℕ → Eval σ α) : Prop := ∀ s r, Gives f s r ↔ Gives g s r

theorem Agree.of_eq {α : Type} {f g : ℕ → Eval σ α} (h : ∀ n, f n = g n) : Agree f g := by
  rw [funext h]
  exact fun _ _ => Iff.rfl

section evaluates

variable [DoubleOps D] (env : RandEnv D σ)

/-- `v` in the state `shm` is worth what `w` is worth in `shm'`, as a number of either kind, as
a boolean and as a string. -/
structure Evaluates (shm : VarShm D) (v : Var D) (shm' : VarShm D) (w : Var D) : Prop where
  integer : Agree (fun n => v.num (intArith D) env shm n) (fun n => w.num (intArith D) env shm' n)
  double : Agree (fun n => v.num (dblArith D) env shm n) (fun n => w.num (dblArith D) env shm' n)
  boolean : varGetBool v = varGetBool w
  string : Agree (fun n => v.text env shm n) (fun n => w.text env shm' n)

/-- The kinds that hold a value of their own. -/
def IsValue (v : Var D) : Prop :=
  varHasBoolean v ∨ varHasInteger v ∨ varHasDouble v ∨ varHasString v

/-- A copy `v` of `w` is worth what `w` was worth in the state `shm₁` of the assignment, or, where
`w` is no value, what the definition of `w` is worth in the state `shm`. -/
structure Follows (shm₁ : VarShm D) (w : Var D) (shm : VarShm D) (v : Var D) : Prop where
  value : IsValue w → Evaluates env shm v shm₁ w
  definition : ¬ IsValue w → Evaluates env shm v shm w

end evaluates

/-- The variable that an assignment finds or makes. -/
def dstBefore (shm : VarShm D) (name : CString) : Var D :=
  match varFind shm name with
  | some p => shm.var p
  | none => .new name .global

/-- The source is a value, or it is an indirection and the destination was no operation. -/
def CopyFits (v src : Var D) : Prop :=
  IsValue src ∨ varHasIndvar src ∧ v.indbinop = varIndAssign

/-- What a source that does not fit leaves in the destination. -/
def leftOver (v src : Var D) : Var D :=
  if varHasIndvar src then varSetIndvar v src.varVarptr1 else v

/-- Random variables have no value, and are no indirection. -/
structure CopyStart (shm : VarShm D) : Prop where
  wellFormed : WellFormed shm
  random : ∀ p, (shm.var p).isRandom → ¬ Copyable (shm.var p)

/-! ## Random variables over a history -/

theorem Assigned.class_eq {shm : VarShm D} {op : SetOp} {v v' : Var D}
    (h : Assigned shm op v v') : v'.varType &&& varTypeMask = v.varType &&& varTypeMask := by
  cases h with
  | boolean | integer | string => exact varSet_class (by decide)
  | var _ hcopied =>
    cases hcopied with
    | value hmem => exact varSet_class hmem
    | indvar => exact varSetIndvar_class
    | nothing => rfl
  | varOpInt op => exact varSetBinopIndvar_class op.isOptype.1
  | intOpVar op => exact varSetBinopIndvar_class op.isOptype.2.1
  | varOpVar op => exact varSetBinopIndvar_class op.isOptype.2.2

theorem Var.new_not_copyable (name : CString) (cls : VarClass) :
    ¬ Copyable (Var.new name cls : Var D) := by
  have hkind : ∀ k ∈ varTypeIndvarSet :: valueKinds, ¬ varHas (Var.new name cls : Var D) k := by
    intro k hk h
    change cls.bits &&& varTypeSetMask = k at h
    subst h
    revert hk
    cases cls <;> decide
  rintro (h | h | h | h | h)
  · exact hkind _ (by decide) h
  · exact hkind _ (by decide) h
  · exact hkind _ (by decide) h
  · exact hkind _ (by decide) h
  · exact hkind _ (by decide) h.1

theorem Grows.random {shm shm' : VarShm D} (h : Grows shm shm')
    (hshm : ∀ p, (shm.var p).isRandom → ¬ Copyable (shm.var p)) (p : VarPtr)
    (hp : (shm'.var p).isRandom) : ¬ Copyable (shm'.var p) := by
  rcases h.var p with heq | ⟨-, name, cls, heq⟩
  · rw [heq] at hp ⊢
    exact hshm p hp
  · rw [heq]
    exact Var.new_not_copyable name cls

theorem CopyStart.apply {shm shm' : VarShm D} (h : CopyStart shm) {op : SetOp} {r : ℤ}
    (happly : op.apply shm = (r, shm')) : CopyStart shm' := by
  constructor
  · exact SetOp.apply_wellFormed h.wellFormed happly
  · intro q hq
    rcases SetOp.apply_effect h.wellFormed happly with ⟨-, hgrow⟩ | ⟨-, shm₁, p, v', heffect, rfl⟩
    · exact hgrow.random h.random q hq
    · by_cases hqp : q = p
      · subst hqp
        rw [setVar_var_self, Var.isRandom, heffect.assigned.class_eq] at hq
        exact absurd hq heffect.notRandom
      · rw [setVar_var_of_ne _ _ hqp] at hq ⊢
        exact heffect.grows.random h.random q hq

theorem SetRun.copyStart {ok : VarShm D → SetOp → Prop} {shm shm' : VarShm D}
    (hrun : SetRun ok shm shm') (h : CopyStart shm) : CopyStart shm' := by
  induction hrun with
  | refl => exact h
  | tail _ _ happly ih => exact ih.apply happly

/-! ## Copies that follow their source -/

theorem IsValue.not_indvarSet {w : Var D} (h : IsValue w) : ¬ varHas w varTypeIndvarSet := by
  rintro hset
  rcases h with h | h | h | h <;> exact absurd (varHas_unique h hset) (by decide)

theorem IsValue.not_randdist {w : Var D} (h : IsValue w) : ¬ varHasRanddist w := by
  rintro hset
  rcases h with h | h | h | h <;> exact absurd (varHas_unique h hset) (by decide)

theorem IsValue.copyable {w : Var D} (h : IsValue w) : Copyable w := by
  rcases h with h | h | h | h
  · exact .inl h
  · exact .inr (.inl h)
  · exact .inr (.inr (.inl h))
  · exact .inr (.inr (.inr (.inl h)))

section copies

variable [DoubleOps D] {env : RandEnv D σ} {shm shm₁ : VarShm D} {v w : Var D}

/-- Two variables with the same value are worth the same in all states. -/
theorem IsValue.evaluates (h : IsValue w) (hkind : ∀ k, varHas v k ↔ varHas w k)
    (hval : v.varVal = w.varVal) (hv : ¬ v.isRandom) (hw : ¬ w.isRandom) :
    Evaluates env shm v shm₁ w := by
  have hset := h.not_indvarSet
  have hrand := h.not_randdist
  have hset' : ¬ varHas v varTypeIndvarSet := fun h => hset ((hkind _).mp h)
  have hrand' : ¬ varHasRanddist v := fun h => hrand ((hkind _).mp h)
  have hnum : ∀ {V : Type} (ar : Arith D V) n, v.num ar env shm n = w.num ar env shm₁ n := by
    intro V ar n
    rw [Var.num, Var.num, hval, if_neg (fun h => hset' h.1 : ¬ varHasBinop v),
      if_neg (fun h => hset h.1 : ¬ varHasBinop w), if_neg hrand, if_neg hrand']
    simp only [varHasInteger, varHasDouble, hkind]
  constructor
  · exact Agree.of_eq (hnum _)
  · exact Agree.of_eq (hnum _)
  · simp only [varGetBool, hkind, hval]
  · apply Agree.of_eq
    intro n
    rw [Var.text, Var.text, hval, if_neg hv, if_neg hw,
      if_neg (fun h => hset' h.1 : ¬ varHasIndvar v), if_neg (fun h => hset h.1 : ¬ varHasIndvar w),
      if_neg (fun h => hset' h.1 : ¬ varHasBinop v), if_neg (fun h => hset h.1 : ¬ varHasBinop w)]
    simp only [varHasInteger, varHasBoolean, varHasString, hkind]

/-- Two indirections to one variable are worth the same. -/
theorem indvar_evaluates (hv : varHasIndvar v) (hw : varHasIndvar w)
    (hptr : v.varVarptr1 = w.varVarptr1) (hv' : ¬ v.isRandom) (hw' : ¬ w.isRandom) :
    Evaluates env shm v shm w := by
  have hkind : ∀ {u : Var D}, varHasIndvar u → ∀ k ∈ valueKinds, ¬ varHas u k := by
    rintro u ⟨hset, -⟩ k hk h
    obtain rfl := varHas_unique h hset
    exact absurd hk (by decide)
  have hnum : ∀ {V : Type} {u : Var D} (ar : Arith D V) n, varHasIndvar u →
      u.num ar env shm n = pure ar.zero := by
    intro V u ar n hu
    have hk := hkind hu
    rw [Var.num, if_neg (hk _ (by decide)), if_neg fun h => hk _ (by decide) h.2,
      if_neg (hk _ (by decide)), if_neg fun h => h.2 hu.2]
  have hbool : ∀ {u : Var D}, varHasIndvar u → varGetBool u = .ok false := by
    intro u hu
    have hk := hkind hu
    rw [varGetBool, if_neg (hk _ (by decide)), if_neg (hk _ (by decide))]
  have htext : ∀ {u : Var D} n, varHasIndvar u → ¬ u.isRandom → u.text env shm n =
      match u.varVarptr1 with
      | some ivp => varGetString env shm n ivp
      | none => pure "No default".toList := by
    intro u n hu hr
    have hk := hkind hu
    rw [Var.text, if_neg hr, if_neg (hk _ (by decide)), if_neg (hk _ (by decide)),
      if_neg (hk _ (by decide)), if_pos hu]
  constructor
  · apply Agree.of_eq
    intro n
    rw [hnum _ n hv, hnum _ n hw]
  · apply Agree.of_eq
    intro n
    rw [hnum _ n hv, hnum _ n hw]
  · rw [hbool hv, hbool hw]
  · apply Agree.of_eq
    intro n
    rw [htext n hv hv', htext n hw hw', hptr]

/-- The copy of a source that fits follows it. -/
theorem Copied.follows {v' : Var D} (h : Copied w v v') (hfits : CopyFits v w)
    (hv : ¬ v'.isRandom) (hw : ¬ w.isRandom) : Follows env shm₁ w shm v' := by
  cases h with
  | @value kind hkind hval hmem hrand hhas =>
    have hw' : IsValue w := by
      fin_cases hmem
      · exact .inl hhas
      · exact .inr (.inl hhas)
      · exact .inr (.inr (.inl hhas))
      · exact .inr (.inr (.inr hhas))
      · exact absurd rfl hrand
    constructor
    · intro _
      apply hw'.evaluates (v := varSet v w.varVal kind hkind hval) _ rfl hv hw
      intro k
      rw [varSet_has]
      constructor
      · rintro rfl
        exact hhas
      · exact varHas_unique hhas
    · intro hnot
      exact absurd hw' hnot
  | indvar hind =>
    have hnot : ¬ IsValue w := fun h => h.not_indvarSet hind.1
    rcases hfits with hw' | ⟨-, hbinop⟩
    · exact absurd hw' hnot
    · constructor
      · intro hw'
        exact absurd hw' hnot
      · intro _
        apply indvar_evaluates (v := varSetIndvar v w.varVarptr1) _ hind rfl hv hw
        constructor
        · exact (varSetIndvar_has _).mpr rfl
        · rw [varSetIndvar_indbinop, hbinop]
  | nothing hnot =>
    rcases hfits with hw' | ⟨hind, -⟩
    · exact absurd hw'.copyable hnot
    · exact absurd (.inr (.inr (.inr (.inr hind)))) hnot

end copies

theorem Copied.leftOver {v v' w : Var D} (h : Copied w v v') (hfits : ¬ CopyFits v w) :
    v' = leftOver v w := by
  cases h with
  | value hmem hrand hhas =>
    apply absurd _ hfits
    fin_cases hmem
    · exact .inl (.inl hhas)
    · exact .inl (.inr (.inl hhas))
    · exact .inl (.inr (.inr (.inl hhas)))
    · exact .inl (.inr (.inr (.inr hhas)))
    · exact absurd rfl hrand
  | indvar hind => exact (if_pos hind).symm
  | nothing hnot => exact (if_neg fun hind => hnot (.inr (.inr (.inr (.inr hind))))).symm

theorem Effect.dstBefore {shm shm₁ : VarShm D} {op : SetOp} {p : VarPtr} {v' : Var D}
    (hwf : WellFormed shm) (h : Effect shm op shm₁ p v') :
    shm₁.var p = dstBefore shm op.name := by
  unfold Filebench.dstBefore
  split
  next q hq =>
    obtain rfl := Option.some.inj (h.target.symm.trans (h.grows.find hwf hq))
    exact h.grows.var_lt (hwf.varFind_lt hq)
  next hnone =>
    rcases h.old with hold | ⟨-, hnew⟩
    · rw [hnone] at hold
      cases hold
    · exact hnew

/-- An assignment that returns 0 makes a destination that follows its source when the source
fits. Otherwise the destination has what is left over, and follows the source only if that does. -/
theorem varAssignVar_follows [DoubleOps D] (env : RandEnv D σ) {shm₀ shm₁ shm₂ : VarShm D}
    {name src : CString} (hstart : CopyStart shm₀)
    (hhistory : SetRun (fun _ _ => True) shm₀ shm₁)
    (happly : varAssignVar shm₁ name src = (0, shm₂)) :
    ∃ q dst, varFind shm₁ src = some q ∧ varFind shm₂ name = some dst ∧
      (CopyFits (dstBefore shm₁ name) (shm₁.var q) →
        ∀ shm₃, SetRun (Spares name) shm₂ shm₃ →
          Follows env shm₁ (shm₁.var q) shm₃ (shm₃.var dst)) ∧
      (¬ CopyFits (dstBefore shm₁ name) (shm₁.var q) →
        ((∀ shm₃, SetRun (Spares name) shm₂ shm₃ →
          Follows env shm₁ (shm₁.var q) shm₃ (shm₃.var dst)) ↔
        ∀ shm₃, SetRun (Spares name) shm₂ shm₃ →
          Follows env shm₁ (shm₁.var q) shm₃ (leftOver (dstBefore shm₁ name) (shm₁.var q)))) := by
  have hstart₁ := hhistory.copyStart hstart
  have hwf := hstart₁.wellFormed
  have happly' : (SetOp.var name src).apply shm₁ = (0, shm₂) := happly
  rcases SetOp.apply_effect hwf happly' with ⟨h, -⟩ | ⟨-, shm, p, v', heffect, rfl⟩
  · cases h
  · have hwf₂ := heffect.wellFormed hwf
    have hassigned := heffect.assigned
    have hv' : ¬ v'.isRandom := by
      rw [Var.isRandom, hassigned.class_eq]
      exact heffect.notRandom
    have hfind : varFind (shm.setVar p v') name = some p := by
      rw [varFind_setVar hassigned.varName]
      exact heffect.target
    have hlater : ∀ shm₃, SetRun (Spares name) (shm.setVar p v') shm₃ → shm₃.var p = v' := by
      intro shm₃ hrun
      rw [hrun.var_of_spares hwf₂ hfind, setVar_var_self]
    rw [heffect.dstBefore hwf] at hassigned
    cases hassigned with
    | @var _ _ q _ _ hsrc hcopied =>
      refine ⟨q, p, hsrc, hfind, ?_, ?_⟩
      · intro hfits shm₃ hrun
        rw [hlater shm₃ hrun]
        apply hcopied.follows hfits hv'
        intro hrandom
        rcases hfits with hvalue | ⟨hind, -⟩
        · exact hstart₁.random q hrandom hvalue.copyable
        · exact hstart₁.random q hrandom (.inr (.inr (.inr (.inr hind))))
      · intro hfits
        obtain rfl := hcopied.leftOver hfits
        constructor
        · intro h shm₃ hrun
          have hfollows := h shm₃ hrun
          rw [hlater shm₃ hrun] at hfollows
          exact hfollows
        · intro h shm₃ hrun
          rw [hlater shm₃ hrun]
          exact h shm₃ hrun

theorem noVars_copyStart : CopyStart noVars := by
  constructor
  · exact noVars_start.wellFormed
  · intro p _
    exact Var.new_not_copyable [] .global

/-- `set $a = 5`, `set $b = $a` -/
theorem varAssignVar_follows_integer : ∃ shm₁ shm₂ : VarShm ℚ, ∃ dst,
    varAssignVar shm₁ ['b'] ['a'] = (0, shm₂) ∧
      @Follows ℚ Unit rationals noRandom shm₁ (shm₁.var 0) shm₂ (shm₂.var dst) := by
  have hhistory : SetRun (fun _ _ => True) noVars _ :=
    (SetRun.refl noVars).apply (.integer ['a'] 5) trivial
  obtain ⟨q, dst, hq, -, h, -⟩ := @varAssignVar_follows ℚ Unit rationals noRandom _ _ _ ['b'] ['a']
    noVars_copyStart hhistory rfl
  obtain rfl := Option.some.inj hq
  exact ⟨_, _, dst, rfl, h (.inl (.inr (.inl rfl))) _ (.refl _)⟩

/-- `set $x = 1`, `set $a = $x + 1`, `set $b = $a` -/
theorem varCopy_operation : ∃ shm₁ shm₂ : VarShm ℚ, ∃ q dst,
    SetRun (fun _ _ => True) noVars shm₁ ∧ varAssignVar shm₁ ['b'] ['a'] = (0, shm₂) ∧
    varFind shm₁ ['a'] = some q ∧ varFind shm₂ ['b'] = some dst ∧
      Gives (fun fuel => @varGetInt ℚ Unit rationals noRandom shm₁ fuel q) () (.ok (2, ())) ∧
      Gives (fun fuel => @varGetInt ℚ Unit rationals noRandom shm₂ fuel q) () (.ok (2, ())) ∧
      Gives (fun fuel => @varGetInt ℚ Unit rationals noRandom shm₂ fuel dst) () (.ok (0, ())) := by
  refine ⟨_, _, 2, 4, ((SetRun.refl noVars).apply (.integer ['x'] 1) trivial).apply
    (.varOpInt ['a'] .plus ['x'] 1) trivial, rfl, rfl, rfl, ?_, ?_, ?_⟩
  · refine ⟨2, fun fuel hfuel => ?_⟩
    obtain ⟨n, rfl⟩ := Nat.exists_eq_add_of_le' hfuel
    rfl
  · refine ⟨2, fun fuel hfuel => ?_⟩
    obtain ⟨n, rfl⟩ := Nat.exists_eq_add_of_le' hfuel
    rfl
  · refine ⟨1, fun fuel hfuel => ?_⟩
    obtain ⟨n, rfl⟩ := Nat.exists_eq_add_of_le' hfuel
    rfl

end Filebench
