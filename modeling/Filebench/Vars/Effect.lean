import Filebench.Vars.Assign

/-! # The effect of an assignment

Every set command that succeeds does one of a few things to one variable, its target, and one
that fails changes no variable. -/
namespace Filebench

variable {D : Type}

theorem setVar_self (shm : VarShm D) (p : VarPtr) : shm.setVar p (shm.var p) = shm := by
  rw [VarShm.setVar, Function.update_eq_self]

theorem setVar_var_self (shm : VarShm D) (p : VarPtr) (v : Var D) : (shm.setVar p v).var p = v :=
  Function.update_self ..

theorem setVar_var_of_ne (shm : VarShm D) {p q : VarPtr} (v : Var D) (h : q ≠ p) :
    (shm.setVar p v).var q = shm.var q := Function.update_of_ne h ..

/-! ## Copying a variable -/

theorem varCopyValue_of_not {shm : VarShm D} {dst src : VarPtr} {kind : BitVec 32} {hkind}
    (h : ¬ varHas (shm.var src) kind) : varCopyValue shm dst src kind hkind = shm := dif_neg h

/-- The source keeps its kind, even as its own destination. -/
theorem varCopyValue_has {shm : VarShm D} {dst src : VarPtr} {kind : BitVec 32} {hkind}
    (k : BitVec 32) :
    varHas ((varCopyValue shm dst src kind hkind).var src) k ↔ varHas (shm.var src) k := by
  unfold varCopyValue
  split_ifs with h
  · by_cases hsrc : src = dst
    · subst hsrc
      rw [setVar_var_self, varSet_has]
      exact ⟨fun hk => hk ▸ h, varHas_unique h⟩
    · rw [setVar_var_of_ne _ _ hsrc]
  · exact Iff.rfl

/-- The kinds of sources that `var_copy` has a test for. -/
def Copyable (src : Var D) : Prop :=
  varHasBoolean src ∨ varHasInteger src ∨ varHasDouble src ∨ varHasString src ∨ varHasIndvar src

/-- What a copy makes of its destination `v`. -/
inductive Copied (src v : Var D) : Var D → Prop where
  | value {kind : BitVec 32} {hkind hval} (hmem : kind ∈ valueKinds)
      (hrand : kind ≠ varTypeRandSet) (h : varHas src kind) :
      Copied src v (varSet v src.varVal kind hkind hval)
  | indvar (h : varHasIndvar src) : Copied src v (varSetIndvar v src.varVarptr1)
  | nothing (h : ¬ Copyable src) : Copied src v v

section copy

variable {shm : VarShm D} (dst : VarPtr) {src : VarPtr} {kind : BitVec 32}

/-- After the copy of a value the other tests fail. -/
theorem varCopyValue_others (hkind : kind ∈ valueKinds) (h : varHas (shm.var src) kind) :
    (∀ k hk, k ≠ kind → varCopyValue (varCopyValue shm dst src kind hkind) dst src k hk =
      varCopyValue shm dst src kind hkind) ∧
    (∀ k, k ≠ kind → ¬ varHas ((varCopyValue shm dst src kind hkind).var src) k) ∧
    varCopyIndvar (varCopyValue shm dst src kind hkind) dst src =
      varCopyValue shm dst src kind hkind := by
  have hother : ∀ k, k ≠ kind → ¬ varHas ((varCopyValue shm dst src kind hkind).var src) k :=
    fun k hne h' => hne (varHas_unique ((varCopyValue_has k).mp h') h)
  refine ⟨fun k hk hne => varCopyValue_of_not (hother k hne), hother, if_neg fun h' => ?_⟩
  refine hother varTypeIndvarSet ?_ h'.1
  rintro rfl
  exact absurd hkind (by decide)

theorem varCopy_boolean (h : varHasBoolean (shm.var src)) :
    varCopy shm dst src = (0, varCopyValue shm dst src varTypeBoolSet (by decide)) := by
  obtain ⟨hval, hhas, hind⟩ := varCopyValue_others dst (by decide) h
  simp only [varCopy]
  rw [hval _ _ (by decide), hval _ _ (by decide), if_neg (hhas _ (by decide)), hind]

theorem varCopy_integer (h : varHasInteger (shm.var src)) :
    varCopy shm dst src = (0, varCopyValue shm dst src varTypeIntSet (by decide)) := by
  obtain ⟨hval, hhas, hind⟩ := varCopyValue_others dst (by decide) h
  have hb : ¬ varHasBoolean (shm.var src) := fun h' => absurd (varHas_unique h' h) (by decide)
  simp only [varCopy]
  rw [varCopyValue_of_not hb, hval _ _ (by decide), if_neg (hhas _ (by decide)), hind]

theorem varCopy_double (h : varHasDouble (shm.var src)) :
    varCopy shm dst src = (0, varCopyValue shm dst src varTypeDblSet (by decide)) := by
  obtain ⟨-, hhas, hind⟩ := varCopyValue_others dst (by decide) h
  have hb : ¬ varHasBoolean (shm.var src) := fun h' => absurd (varHas_unique h' h) (by decide)
  have hi : ¬ varHasInteger (shm.var src) := fun h' => absurd (varHas_unique h' h) (by decide)
  simp only [varCopy]
  rw [varCopyValue_of_not hb, varCopyValue_of_not hi, if_neg (hhas _ (by decide)), hind]

/-- Sources without a boolean, an integer or a double. -/
theorem varCopy_other (hb : ¬ varHasBoolean (shm.var src)) (hi : ¬ varHasInteger (shm.var src))
    (hd : ¬ varHasDouble (shm.var src)) (hs : ¬ varHasString (shm.var src)) :
    varCopy shm dst src = (0, varCopyIndvar shm dst src) := by
  simp only [varCopy]
  rw [varCopyValue_of_not hb, varCopyValue_of_not hi, varCopyValue_of_not hd, if_neg hs]

theorem varCopy_string (h : varHasString (shm.var src)) :
    varCopy shm dst src =
      if shm.request.1 then
        (0, varCopyValue shm.request.2 dst src varTypeStrSet (by decide))
      else (-1, shm.request.2) := by
  have hb : ¬ varHasBoolean (shm.var src) := fun h' => absurd (varHas_unique h' h) (by decide)
  have hi : ¬ varHasInteger (shm.var src) := fun h' => absurd (varHas_unique h' h) (by decide)
  have hd : ¬ varHasDouble (shm.var src) := fun h' => absurd (varHas_unique h' h) (by decide)
  obtain ⟨-, -, hind⟩ := @varCopyValue_others D shm.request.2 dst src varTypeStrSet (by decide) h
  simp only [varCopy]
  rw [varCopyValue_of_not hb, varCopyValue_of_not hi, varCopyValue_of_not hd, if_pos h]
  split <;> rename_i hreq <;> simp [hreq]
  simpa [hreq] using hind

theorem varCopyValue_copied (shm₁ : VarShm D) (hvar : shm₁.var = shm.var)
    (hkind : kind ∈ valueKinds) (hrand : kind ≠ varTypeRandSet)
    (h : varHas (shm.var src) kind) : ∃ v', Copied (shm.var src) (shm.var dst) v' ∧
      varCopyValue shm₁ dst src kind hkind = shm₁.setVar dst v' := by
  rw [← hvar] at h ⊢
  exact ⟨_, .value hkind hrand h, dif_pos h⟩

theorem varCopy_effect {r : ℤ} {shm' : VarShm D} (h : varCopy shm dst src = (r, shm')) :
    (r = -1 ∧ Grows shm shm') ∨
      (r = 0 ∧ ∃ shm₁ v', Grows shm shm₁ ∧ shm₁.var = shm.var ∧
        Copied (shm.var src) (shm.var dst) v' ∧ shm' = shm₁.setVar dst v') := by
  have hvalue : ∀ (kind : BitVec 32) (hkind : kind ∈ valueKinds), kind ≠ varTypeRandSet →
      varHas (shm.var src) kind → (0, varCopyValue shm dst src kind hkind) = (r, shm') →
      r = 0 ∧ ∃ shm₁ v', Grows shm shm₁ ∧ shm₁.var = shm.var ∧
        Copied (shm.var src) (shm.var dst) v' ∧ shm' = shm₁.setVar dst v' := by
    intro kind hkind hrand hhas heq
    obtain ⟨v', hcopied, hset⟩ := varCopyValue_copied dst shm rfl hkind hrand hhas
    obtain ⟨rfl, rfl⟩ := Prod.mk.inj heq
    exact ⟨rfl, shm, v', .refl shm, rfl, hcopied, hset⟩
  by_cases hb : varHasBoolean (shm.var src)
  · exact .inr (hvalue _ _ (by decide) hb ((varCopy_boolean dst hb).symm.trans h))
  by_cases hi : varHasInteger (shm.var src)
  · exact .inr (hvalue _ _ (by decide) hi ((varCopy_integer dst hi).symm.trans h))
  by_cases hd : varHasDouble (shm.var src)
  · exact .inr (hvalue _ _ (by decide) hd ((varCopy_double dst hd).symm.trans h))
  by_cases hs : varHasString (shm.var src)
  · rw [varCopy_string dst hs] at h
    have hgrow : Grows shm shm.request.2 := grows_request rfl
    split_ifs at h
    · obtain ⟨v', hcopied, hset⟩ :=
        varCopyValue_copied dst shm.request.2 rfl (by decide) (by decide) hs
      obtain ⟨rfl, rfl⟩ := Prod.mk.inj h
      exact .inr ⟨rfl, _, v', hgrow, rfl, hcopied, hset⟩
    · obtain ⟨rfl, rfl⟩ := Prod.mk.inj h
      exact .inl ⟨rfl, hgrow⟩
  · rw [varCopy_other dst hb hi hd hs] at h
    obtain ⟨rfl, rfl⟩ := Prod.mk.inj h
    refine .inr ⟨rfl, shm, ?_⟩
    by_cases hind : varHasIndvar (shm.var src)
    · exact ⟨_, .refl shm, rfl, .indvar hind, if_pos hind⟩
    · refine ⟨_, .refl shm, rfl, .nothing ?_, (if_neg hind).trans (setVar_self shm dst).symm⟩
      rintro (h | h | h | h | h)
      · exact hb h
      · exact hi h
      · exact hd h
      · exact hs h
      · exact hind h

end copy

/-! ## Set commands -/

/-- What a set command makes of its target `v`. -/
inductive Assigned (shm : VarShm D) : SetOp → Var D → Var D → Prop where
  | boolean (name : CString) (b : Bool) (v : Var D) :
      Assigned shm (.boolean name b) v (varSetBool v b)
  | integer (name : CString) (n : FbInt) (v : Var D) :
      Assigned shm (.integer name n) v (varSetInt v n)
  | string (name s : CString) (v : Var D) : Assigned shm (.string name s) v (varSetStr v s)
  | var {name src : CString} {q : VarPtr} {v v' : Var D} (hsrc : varFind shm src = some q)
      (h : Copied (shm.var q) v v') : Assigned shm (.var name src) v v'
  | varOpInt {name src1 : CString} {q : VarPtr} (op : FskOp) (n : FbInt) (v : Var D)
      (hsrc1 : varFind shm src1 = some q) : Assigned shm (.varOpInt name op src1 n) v
        (varSetBinopIndvar v (some q) op.varInt (.integer n))
  | intOpVar {name src1 : CString} {q : VarPtr} (op : FskOp) (n : FbInt) (v : Var D)
      (hsrc1 : varFind shm src1 = some q) : Assigned shm (.intOpVar name op n src1) v
        (varSetBinopIndvar v (some q) op.intVar (.integer n))
  | varOpVar {name src1 src2 : CString} {q q₂ : VarPtr} (op : FskOp) (v : Var D)
      (hsrc1 : varFind shm src1 = some q) (hsrc2 : varFind shm src2 = some q₂) :
      Assigned shm (.varOpVar name op src1 src2) v
        (varSetBinopIndvar v (some q) op.varVar (.varptr2 (some q₂)))

/-- A set command succeeded: shared memory may have grown, and then the target was changed. -/
structure Effect (shm : VarShm D) (op : SetOp) (shm₁ : VarShm D) (p : VarPtr) (v' : Var D) :
    Prop where
  grows : Grows shm shm₁
  target : varFind shm₁ op.name = some p
  old : varFind shm op.name = some p ∨ shm.requests ≤ p ∧ shm₁.var p = .new op.name .global
  notRandom : ¬ (shm₁.var p).isRandom
  assigned : Assigned shm op (shm₁.var p) v'

section effect

variable {shm shm' : VarShm D} {r : ℤ}

/-- The rule for the common part of the assignments. -/
theorem varAssign_effect {op : SetOp} {set : VarPtr → VarShm D → ℤ × VarShm D}
    (hwf : WellFormed shm)
    (hset : ∀ p shm₁, Grows shm shm₁ → set p shm₁ = (r, shm') →
      (r = -1 ∧ Grows shm₁ shm') ∨ (r = 0 ∧ ∃ shm₂ v', Grows shm₁ shm₂ ∧
        shm₂.var = shm₁.var ∧ Assigned shm op (shm₁.var p) v' ∧ shm' = shm₂.setVar p v'))
    (h : varAssign shm op.name set = (r, shm')) :
    (r = -1 ∧ Grows shm shm') ∨
      (r = 0 ∧ ∃ shm₁ p v', Effect shm op shm₁ p v' ∧ shm' = shm₁.setVar p v') := by
  unfold varAssign at h
  split at h
  next shm₁ hnone =>
    obtain ⟨rfl, rfl⟩ := Prod.mk.inj h
    exact .inl ⟨rfl, varFindAlloc_none hnone⟩
  next p shm₁ hsome =>
    obtain ⟨hgrow, htarget, hold⟩ := varFindAlloc_some hwf hsome
    split_ifs at h with hrandom
    · obtain ⟨rfl, rfl⟩ := Prod.mk.inj h
      exact .inl ⟨rfl, hgrow⟩
    · rcases hset p shm₁ hgrow h with ⟨rfl, hgrow'⟩ | ⟨rfl, shm₂, v', hgrow', hvar, hassigned, rfl⟩
      · exact .inl ⟨rfl, hgrow.trans hgrow'⟩
      · refine .inr ⟨rfl, shm₂, p, v', ?_, rfl⟩
        have htarget' := hgrow'.find (hgrow.wellFormed hwf) htarget
        constructor
        · exact hgrow.trans hgrow'
        · exact htarget'
        · rwa [hvar]
        · rwa [hvar]
        · rwa [hvar]

/-- An assignment that only sets its target. -/
theorem varAssign_set_effect {op : SetOp} {f : Var D → Var D} (hwf : WellFormed shm)
    (hf : ∀ v, Assigned shm op v (f v))
    (h : varAssign shm op.name (fun p shm => (0, shm.setVar p (f (shm.var p)))) = (r, shm')) :
    (r = -1 ∧ Grows shm shm') ∨
      (r = 0 ∧ ∃ shm₁ p v', Effect shm op shm₁ p v' ∧ shm' = shm₁.setVar p v') := by
  refine varAssign_effect hwf (fun p shm₁ _ heq => ?_) h
  obtain ⟨rfl, rfl⟩ := Prod.mk.inj heq
  exact .inr ⟨rfl, shm₁, _, .refl shm₁, rfl, hf _, rfl⟩

theorem ipcStralloc_effect {s : CString} {o : Option CString}
    (h : ipcStralloc shm s = (o, shm')) :
    Grows shm shm' ∧ shm'.var = shm.var ∧ ∀ t, o = some t → s = t := by
  unfold ipcStralloc at h
  split at h
  next hreq =>
    obtain ⟨rfl, rfl⟩ := Prod.mk.inj h
    have hgrow := grows_request hreq
    obtain ⟨-, rfl⟩ := Prod.mk.inj hreq
    exact ⟨hgrow, rfl, nofun⟩
  next hreq =>
    obtain ⟨rfl, rfl⟩ := Prod.mk.inj h
    have hgrow := grows_request hreq
    obtain ⟨-, rfl⟩ := Prod.mk.inj hreq
    exact ⟨hgrow, rfl, fun t ht => Option.some.inj ht⟩

theorem SetOp.apply_effect (hwf : WellFormed shm) {op : SetOp} (h : op.apply shm = (r, shm')) :
    (r = -1 ∧ Grows shm shm') ∨
      (r = 0 ∧ ∃ shm₁ p v', Effect shm op shm₁ p v' ∧ shm' = shm₁.setVar p v') := by
  have hfail : (-1, shm) = (r, shm') → r = -1 ∧ Grows shm shm' := by
    intro heq
    obtain ⟨rfl, rfl⟩ := Prod.mk.inj heq
    exact ⟨rfl, .refl shm⟩
  cases op with
  | boolean name b => exact varAssign_set_effect hwf (.boolean name b) h
  | integer name n => exact varAssign_set_effect hwf (.integer name n) h
  | string name s =>
    refine varAssign_effect hwf (fun p shm₁ _ heq => ?_) h
    split at heq
    next shm₂ halloc =>
      obtain ⟨rfl, rfl⟩ := Prod.mk.inj heq
      exact .inl ⟨rfl, (ipcStralloc_effect halloc).1⟩
    next strptr shm₂ halloc =>
      obtain ⟨rfl, rfl⟩ := Prod.mk.inj heq
      obtain ⟨hgrow, hvar, hs⟩ := ipcStralloc_effect halloc
      obtain rfl := hs _ rfl
      exact .inr ⟨rfl, shm₂, _, hgrow, hvar, .string name s _, by rw [hvar]⟩
  | var name src =>
    simp only [SetOp.apply, varAssignVar] at h
    split at h
    · exact .inl (hfail h)
    · next q hq =>
      refine varAssign_effect hwf (fun p shm₁ hgrow heq => ?_) h
      rcases varCopy_effect p heq with ⟨rfl, hgrow'⟩ | ⟨rfl, shm₂, v', hgrow', hvar, hcopied, rfl⟩
      · exact .inl ⟨rfl, hgrow'⟩
      · rw [hgrow.var_lt (hwf.varFind_lt hq)] at hcopied
        exact .inr ⟨rfl, shm₂, v', hgrow', hvar, .var hq hcopied, rfl⟩
  | varOpInt name op src1 n =>
    simp only [SetOp.apply, varAssignOpVarInt] at h
    split at h
    · exact .inl (hfail h)
    · next q hq => exact varAssign_set_effect hwf (fun v => .varOpInt op n v hq) h
  | intOpVar name op n src1 =>
    simp only [SetOp.apply, varAssignOpVarInt] at h
    split at h
    · exact .inl (hfail h)
    · next q hq => exact varAssign_set_effect hwf (fun v => .intOpVar op n v hq) h
  | varOpVar name op src1 src2 =>
    simp only [SetOp.apply, varAssignOpVarVar] at h
    split at h
    · exact .inl (hfail h)
    · next q hq =>
      split at h
      · exact .inl (hfail h)
      · next q₂ hq₂ => exact varAssign_set_effect hwf (fun v => .varOpVar op v hq hq₂) h

theorem Copied.varName {src v v' : Var D} (h : Copied src v v') : v'.varName = v.varName := by
  cases h <;> rfl

theorem Assigned.varName {op : SetOp} {v v' : Var D} (h : Assigned shm op v v') :
    v'.varName = v.varName := by
  cases h with
  | var _ h => exact h.varName
  | _ => rfl

theorem Effect.wellFormed {op : SetOp} {shm₁ : VarShm D} {p : VarPtr} {v' : Var D}
    (h : Effect shm op shm₁ p v') (hwf : WellFormed shm) : WellFormed (shm₁.setVar p v') :=
  ⟨(h.grows.wellFormed hwf).list, (h.grows.wellFormed hwf).locList⟩

theorem Effect.find {op : SetOp} {shm₁ : VarShm D} {p : VarPtr} {v' : Var D}
    (h : Effect shm op shm₁ p v') (hwf : WellFormed shm) {name : CString} {q : VarPtr}
    (hq : varFind shm name = some q) :
    varFind (shm₁.setVar p v') name = some q := by
  rw [varFind_setVar h.assigned.varName]
  exact h.grows.find hwf hq

/-- An assignment changes no variable but its target. -/
theorem Effect.var_of_ne {op : SetOp} {shm₁ : VarShm D} {p : VarPtr} {v' : Var D}
    (h : Effect shm op shm₁ p v') {q : VarPtr} (hq : q < shm.requests)
    (hne : varFind shm op.name ≠ some q) : (shm₁.setVar p v').var q = shm.var q := by
  have hqp : q ≠ p := by
    rintro rfl
    rcases h.old with hold | ⟨hle, -⟩
    · exact hne hold
    · exact absurd hq (not_lt.mpr hle)
  rw [setVar_var_of_ne _ _ hqp, h.grows.var_lt hq]

theorem SetOp.apply_wellFormed (hwf : WellFormed shm) {op : SetOp}
    (h : op.apply shm = (r, shm')) : WellFormed shm' := by
  rcases SetOp.apply_effect hwf h with ⟨-, hgrow⟩ | ⟨-, shm₁, p, v', heffect, rfl⟩
  · exact hgrow.wellFormed hwf
  · exact heffect.wellFormed hwf

/-- A name stands for the same variable from its first use on. -/
theorem SetOp.apply_varFind (hwf : WellFormed shm) {op : SetOp} (h : op.apply shm = (r, shm'))
    {name : CString} {q : VarPtr} (hq : varFind shm name = some q) :
    varFind shm' name = some q := by
  rcases SetOp.apply_effect hwf h with ⟨-, hgrow⟩ | ⟨-, shm₁, p, v', heffect, rfl⟩
  · exact hgrow.find hwf hq
  · exact heffect.find hwf hq

theorem SetOp.apply_var_of_ne (hwf : WellFormed shm) {op : SetOp} (h : op.apply shm = (r, shm'))
    {q : VarPtr} (hq : q < shm.requests) (hne : varFind shm op.name ≠ some q) :
    q < shm'.requests ∧ shm'.var q = shm.var q := by
  rcases SetOp.apply_effect hwf h with ⟨-, hgrow⟩ | ⟨-, shm₁, p, v', heffect, rfl⟩
  · exact ⟨hq.trans_le hgrow.requests, hgrow.var_lt hq⟩
  · exact ⟨hq.trans_le heffect.grows.requests, heffect.var_of_ne hq hne⟩

end effect

/-! ## Histories -/

/-- A history of set commands, each of which meets `ok` in the state before it. -/
inductive SetRun (ok : VarShm D → SetOp → Prop) : VarShm D → VarShm D → Prop where
  | refl (shm) : SetRun ok shm shm
  | tail {shm₀ shm shm' r op} : SetRun ok shm₀ shm → ok shm op → op.apply shm = (r, shm') →
      SetRun ok shm₀ shm'

theorem SetRun.apply {ok : VarShm D → SetOp → Prop} {shm₀ shm : VarShm D}
    (h : SetRun ok shm₀ shm) (op : SetOp) (hok : ok shm op) :
    SetRun ok shm₀ (op.apply shm).2 := h.tail hok rfl

theorem SetRun.wellFormed {ok : VarShm D → SetOp → Prop} {shm shm' : VarShm D}
    (h : SetRun ok shm shm') (hwf : WellFormed shm) : WellFormed shm' := by
  induction h with
  | refl => exact hwf
  | tail _ _ happly ih => exact SetOp.apply_wellFormed ih happly

theorem SetRun.find {ok : VarShm D → SetOp → Prop} {shm shm' : VarShm D}
    (h : SetRun ok shm shm') (hwf : WellFormed shm) {name : CString} {q : VarPtr}
    (hq : varFind shm name = some q) : varFind shm' name = some q := by
  induction h with
  | refl => exact hq
  | tail hrun _ happly ih => exact SetOp.apply_varFind (hrun.wellFormed hwf) happly ih

/-- The commands that do not set the variable `name`. -/
def Spares (name : CString) (_ : VarShm D) (op : SetOp) : Prop := op.name ≠ name

/-- Two names never stand for one variable, and a variable keeps its name. -/
theorem varFind_varName {shm : VarShm D} {name : CString} {q : VarPtr}
    (h : varFind shm name = some q) : (shm.var q).varName = name := by
  rcases Option.or_eq_some_iff.mp h with h | ⟨-, h⟩ <;> simpa using List.find?_some h

theorem SetRun.var_of_spares {shm shm' : VarShm D} {name : CString} {q : VarPtr}
    (h : SetRun (Spares name) shm shm') (hwf : WellFormed shm)
    (hq : varFind shm name = some q) : shm'.var q = shm.var q := by
  induction h with
  | refl => rfl
  | tail hrun hok happly ih =>
    have hwf' := hrun.wellFormed hwf
    have hfind := hrun.find hwf hq
    refine (SetOp.apply_var_of_ne hwf' happly (hwf'.varFind_lt hfind) ?_).2.trans ih
    intro hop
    exact hok ((varFind_varName hop).symm.trans (varFind_varName hfind))

end Filebench
