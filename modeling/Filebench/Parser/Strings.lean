import Filebench.Vars.Binding
import Filebench.Vars.Operation

/-! # Strings of lists

`parser_list2string` puts the elements of a list together in one buffer. Each element, literal
or not, is first looked up as a variable, without its first character. -/
namespace Filebench

open Fuel

/-- What the system says of the names in braces, the statistics, the rate, the date and the
script among them, and the environment of the names in parentheses. The name of the host is
never found: its routine returns null. -/
structure SystemVars where
  internal : CString → Option (CString ⊕ FbInt)
  getenv : CString → Option CString

/-- The names that are looked up in the system or the environment. -/
def Special (name : CString) : Prop := name.head? = some '{' ∨ name.head? = some '('

instance (name : CString) : Decidable (Special name) := inferInstanceAs (Decidable (_ ∨ _))

section

variable {D σ : Type}

def varFindInternal (sys : SystemVars) (var : Var D) : Option (Var D) :=
  let name := var.varName.tail
  if name.getLast? = some '}' then
    match sys.internal name.dropLast with
    | some (.inl strptr) => some (varSetStr var strptr)
    | some (.inr rate) => some (varSetInt var rate)
    | none => none
  else none

def varFindEnvironment (sys : SystemVars) (var : Var D) : Option (Var D) :=
  let name := var.varName.tail
  if name.getLast? = some ')' then
    match sys.getenv name.dropLast with
    | some strptr => some (varSetStr var strptr)
    | none => none
  else none

/-- What `var_find_dynamic` fills a variable with. -/
def SystemVars.fill (sys : SystemVars) (var : Var D) : Option (Var D) :=
  if var.varName.head? = some '{' then varFindInternal sys var else varFindEnvironment sys var

/-! ## What a lookup leaves -/

/-- A literal without its first character is no name, and not special. -/
structure Plain (shm : VarShm D) (lit : CString) : Prop where
  nonempty : lit ≠ []
  not_special : ¬ Special lit.tail
  not_found : varFind shm lit.tail = none

/-- Every variable keeps its value, save the special ones with such a name; no variable of the
other lists is new. -/
structure Unaltered (filled : CString → Prop) (shm shm' : VarShm D) : Prop where
  requests : shm.requests ≤ shm'.requests
  list : shm'.shmVarList = shm.shmVarList
  locList : shm'.shmVarLocList = shm.shmVarLocList
  dynList : ∀ p ∈ shm'.shmVarDynList, p ∈ shm.shmVarDynList ∨ shm.requests ≤ p
  name : ∀ p < shm.requests, (shm'.var p).varName = (shm.var p).varName
  var : ∀ p < shm.requests, ¬ (p ∈ shm.shmVarDynList ∧ filled (shm.var p).varName) →
    shm'.var p = shm.var p

section unaltered

variable {filled : CString → Prop} {shm shm₁ shm' : VarShm D}

theorem Unaltered.refl (filled : CString → Prop) (shm : VarShm D) : Unaltered filled shm shm where
  requests := le_rfl
  list := rfl
  locList := rfl
  dynList _ hp := .inl hp
  name _ _ := rfl
  var _ _ _ := rfl

theorem Unaltered.trans (h : Unaltered filled shm shm₁) (h' : Unaltered filled shm₁ shm') :
    Unaltered filled shm shm' where
  requests := h.requests.trans h'.requests
  list := h'.list.trans h.list
  locList := h'.locList.trans h.locList
  dynList p hp := by
    rcases h'.dynList p hp with hp | hp
    · exact h.dynList p hp
    · exact .inr (h.requests.trans hp)
  name p hp := (h'.name p (hp.trans_le h.requests)).trans (h.name p hp)
  var p hp hfilled := by
    refine (h'.var p (hp.trans_le h.requests) ?_).trans (h.var p hp hfilled)
    rintro ⟨hmem, hname⟩
    rw [h.name p hp] at hname
    rcases h.dynList p hmem with hmem | hle
    · exact hfilled ⟨hmem, hname⟩
    · exact absurd hp (not_lt.mpr hle)

theorem Unaltered.wellFormed (h : Unaltered filled shm shm') (hwf : WellFormed shm) :
    WellFormed shm' := by
  constructor
  · intro p hp
    exact (hwf.list p (h.list ▸ hp)).trans_le h.requests
  · intro p hp
    exact (hwf.locList p (h.locList ▸ hp)).trans_le h.requests

theorem Unaltered.varFind (h : Unaltered filled shm shm') (hwf : WellFormed shm) (name : CString) :
    varFind shm' name = varFind shm name := by
  simp only [Filebench.varFind, h.list, h.locList]
  congr 1
  · exact varFindList_congr fun q hq => h.name q (hwf.locList q hq)
  · exact varFindList_congr fun q hq => h.name q (hwf.list q hq)

theorem Unaltered.plain (h : Unaltered filled shm shm') (hwf : WellFormed shm) {lit : CString}
    (hlit : Plain shm lit) : Plain shm' lit where
  nonempty := hlit.nonempty
  not_special := hlit.not_special
  not_found := (h.varFind hwf _).trans hlit.not_found

/-- The elements of the list that are no references are plain. -/
def PlainLiterals (shm : VarShm D) (list : List CString) : Prop :=
  ∀ l ∈ list, l.head? ≠ some '$' → Plain shm l

theorem PlainLiterals.tail {l : CString} {list : List CString} (hwf : WellFormed shm)
    (h : PlainLiterals shm (l :: list)) (hun : Unaltered filled shm shm₁) :
    PlainLiterals shm₁ list :=
  fun l' hl' hlit => hun.plain hwf (h l' (List.mem_cons_of_mem _ hl') hlit)

theorem varFindList_varName {l : List VarPtr} {name : CString} {p : VarPtr}
    (h : varFindList shm l name = some p) : (shm.var p).varName = name := by
  simpa using List.find?_some h

theorem SystemVars.fill_varName {sys : SystemVars} {v v' : Var D} (h : sys.fill v = some v') :
    v'.varName = v.varName := by
  simp only [SystemVars.fill, varFindInternal, varFindEnvironment] at h
  split_ifs at h
  · split at h
    · obtain rfl := Option.some.inj h
      rfl
    · obtain rfl := Option.some.inj h
      rfl
    · cases h
  · split at h
    · obtain rfl := Option.some.inj h
      rfl
    · cases h

/-- What an allocation leaves, and the variable that it found room for. -/
theorem varAllocDynamic_unaltered {name : CString} {o : Option VarPtr}
    (h : varAllocDynamic shm name = (o, shm')) : Unaltered filled shm shm' ∧
      ∀ p, o = some p → p ∈ shm'.shmVarDynList ∧ (shm'.var p).varName = name := by
  simp only [varAllocDynamic, varAllocCmn, VarShm.request] at h
  split at h
  next heq =>
    obtain ⟨-, rfl⟩ := Prod.mk.inj heq
    obtain ⟨rfl, rfl⟩ := Prod.mk.inj h
    exact ⟨⟨Nat.le_succ _, rfl, rfl, fun _ hp => .inl hp, fun _ _ => rfl, fun _ _ _ => rfl⟩,
      fun _ hp => by cases hp⟩
  next heq =>
    obtain ⟨-, rfl⟩ := Prod.mk.inj heq
    split at h
    next heq =>
      obtain ⟨-, rfl⟩ := Prod.mk.inj heq
      obtain ⟨rfl, rfl⟩ := Prod.mk.inj h
      exact ⟨⟨Nat.le_add_right _ 2, rfl, rfl, fun _ hp => .inl hp, fun _ _ => rfl,
        fun _ _ _ => rfl⟩, fun _ hp => by cases hp⟩
    next heq =>
      obtain ⟨-, rfl⟩ := Prod.mk.inj heq
      obtain ⟨rfl, rfl⟩ := Prod.mk.inj h
      have hvar : ∀ q < shm.requests,
          (shm.setVar shm.requests (.new name .dynamic)).var q = shm.var q :=
        fun q hq => setVar_var_of_ne _ _ hq.ne
      constructor
      · constructor
        · exact Nat.le_add_right _ 2
        · rfl
        · rfl
        · intro p hp
          rcases List.mem_append.mp hp with hp | hp
          · exact .inl hp
          · exact .inr (List.mem_singleton.mp hp).ge
        · exact fun q hq => congrArg Var.varName (hvar q hq)
        · exact fun q hq _ => hvar q hq
      · intro p hp
        obtain rfl := Option.some.inj hp
        exact ⟨List.mem_append_right _ (List.mem_singleton_self _),
          congrArg Var.varName (setVar_var_self shm _ _)⟩

theorem Unaltered.setVar {p : VarPtr} {v : Var D} (hmem : p ∈ shm.shmVarDynList)
    (hname : v.varName = (shm.var p).varName) (hfilled : filled (shm.var p).varName) :
    Unaltered filled shm (shm.setVar p v) where
  requests := le_rfl
  list := rfl
  locList := rfl
  dynList _ hq := .inl hq
  name q _ := by
    by_cases hq : q = p
    · subst hq
      rw [setVar_var_self, hname]
    · rw [setVar_var_of_ne _ _ hq]
  var q _ hq := by
    refine setVar_var_of_ne _ _ ?_
    rintro rfl
    exact hq ⟨hmem, hfilled⟩

theorem varFindDynamic_unaltered {sys : SystemVars} {name : CString} {o : Option VarPtr}
    (hfilled : Special name → filled name) (h : varFindDynamic sys.fill shm name = (o, shm')) :
    Unaltered filled shm shm' := by
  unfold varFindDynamic at h
  split at h
  next o₁ shm₁ heq =>
    have hlookup : Unaltered filled shm shm₁ ∧
        ∀ p, o₁ = some p → p ∈ shm₁.shmVarDynList ∧ (shm₁.var p).varName = name := by
      split at heq
      next p hfind =>
        obtain ⟨rfl, rfl⟩ := Prod.mk.inj heq
        refine ⟨.refl _ _, fun q hq => ?_⟩
        obtain rfl := Option.some.inj hq
        exact ⟨varFindList_mem hfind, varFindList_varName hfind⟩
      next => exact varAllocDynamic_unaltered heq
    obtain ⟨hun, hsome⟩ := hlookup
    split at h
    · obtain rfl := (Prod.mk.inj h).2
      exact hun
    next p =>
      obtain ⟨hmem, hname⟩ := hsome p rfl
      cases hv : sys.fill (shm₁.var p) with
      | none =>
        simp only [hv] at h
        obtain rfl : shm₁ = shm' := by
          split at h
          all_goals exact (Prod.mk.inj h).2
        exact hun
      | some v =>
        have hset (hspecial : Special name) : Unaltered filled shm (shm₁.setVar p v) :=
          hun.trans (.setVar hmem (SystemVars.fill_varName hv) (hname ▸ hfilled hspecial))
        simp only [hv] at h
        split at h
        next hhead => exact (Prod.mk.inj h).2 ▸ hset (.inl hhead)
        next hhead => exact (Prod.mk.inj h).2 ▸ hset (.inr hhead)
        · exact (Prod.mk.inj h).2 ▸ hun

theorem varFindDynamic_of_not_special {fill : Var D → Option (Var D)} {name : CString}
    (h : ¬ Special name) : (varFindDynamic fill shm name).1 = none := by
  unfold varFindDynamic
  split
  split
  · rfl
  · split
    next hhead => exact absurd (.inl hhead) h
    next hhead => exact absurd (.inr hhead) h
    · rfl

theorem varLookup_of_varFind {fill : Var D → Option (Var D)} {name : CString} {p : VarPtr}
    (h : varFind shm name = some p) : varLookup shm fill name = (some p, shm) := by
  rw [varLookup, h]

theorem varLookup_of_none {fill : Var D → Option (Var D)} {name : CString}
    (h : varFind shm name = none) : varLookup shm fill name = varFindDynamic fill shm name := by
  rw [varLookup, h]

end unaltered

/-! ## The routine -/

variable [DoubleOps D] (env : RandEnv D σ) (sys : SystemVars) (maxpathlen : ℕ)

/-- The name comes with its `$`, or with whatever its first character is. A null pointer from the
allocation is only followed for a special name. -/
def varToString (fuel : ℕ) (shm : VarShm D) : CString → Eval σ (Option CString × VarShm D)
  | [] => outOfFuel
  | _ :: name =>
    match varLookup shm sys.fill name with
    | (some p, shm) => do pure (some (← varGetString env shm fuel p), shm)
    | (none, shm) =>
      if Special name ∧ varFindList shm shm.shmVarDynList name = none then outOfFuel
      else pure (none, shm)

/-- The buffer has `maxpathlen` characters and no test of its length. -/
def strcat (string tmp : CString) : Eval σ CString :=
  if (string ++ tmp).length < maxpathlen then pure (string ++ tmp) else outOfFuel

def list2stringLoop (fuel : ℕ) : List CString → CString → VarShm D → Eval σ (CString × VarShm D)
  | [], string, shm => pure (string, shm)
  | lstr :: l, string, shm => do
    let (tmp, shm) ← varToString env sys fuel shm lstr
    let string ← strcat maxpathlen string (tmp.getD lstr)
    list2stringLoop fuel l string shm

/-- No element of the list asks for a parameter of a random variable. -/
def parserList2string (fuel : ℕ) (list : List CString) (shm : VarShm D) :
    Eval σ (CString × VarShm D) := list2stringLoop env sys maxpathlen fuel list [] shm

/-! ## The concatenation -/

/-- What an element stands for when its turn comes, and the state that it leaves: a literal and
the name of no variable for themselves, a reference for the string value of its variable. -/
inductive Yields (shm : VarShm D) (s : σ) : CString → CString → VarShm D → σ → Prop where
  | literal {lit : CString} (hlit : lit.head? ≠ some '$') :
      Yields shm s lit lit (varLookup shm sys.fill lit.tail).2 s
  | ordinary {name text : CString} {p : VarPtr} {s' : σ} (hfind : varFind shm name = some p)
      (htext : Gives (fun fuel => varGetString env shm fuel p) s (.ok (text, s'))) :
      Yields shm s ('$' :: name) text shm s'
  | special {name text : CString} {p : VarPtr} {shm' : VarShm D} {s' : σ}
      (hnone : varFind shm name = none)
      (hdyn : varFindDynamic sys.fill shm name = (some p, shm'))
      (htext : Gives (fun fuel => varGetString env shm' fuel p) s (.ok (text, s'))) :
      Yields shm s ('$' :: name) text shm' s'
  | unknown {name : CString} {shm' : VarShm D} (hnone : varFind shm name = none)
      (hdyn : varFindDynamic sys.fill shm name = (none, shm'))
      (hmemory : Special name → varFindList shm' shm'.shmVarDynList name ≠ none) :
      Yields shm s ('$' :: name) ('$' :: name) shm' s

/-- What the elements stand for, one after the other. -/
inductive Concatenates : VarShm D → σ → List CString → CString → VarShm D → σ → Prop where
  | nil (shm : VarShm D) (s : σ) : Concatenates shm s [] [] shm s
  | cons {shm shm₁ shm' : VarShm D} {s s₁ s' : σ} {l text texts : CString} {list : List CString}
      (h : Yields env sys shm s l text shm₁ s₁) (hrest : Concatenates shm₁ s₁ list texts shm' s') :
      Concatenates shm s (l :: list) (text ++ texts) shm' s'

variable {env sys maxpathlen} {filled : CString → Prop} {shm shm₁ shm' : VarShm D}

theorem varToString_plain {lit : CString} (h : Plain shm lit) (fuel : ℕ) :
    (varToString env sys fuel shm lit : Eval σ _) =
      pure (none, (varLookup shm sys.fill lit.tail).2) := by
  cases lit with
  | nil => exact absurd rfl h.nonempty
  | cons c name =>
    have hnone : (varLookup shm sys.fill name).1 = none := by
      rw [varLookup_of_none (show varFind shm name = none from h.not_found)]
      exact varFindDynamic_of_not_special h.not_special
    rw [varToString, List.tail_cons]
    split
    next p _ heq =>
      rw [heq] at hnone
      cases hnone
    next shm₁ heq =>
      rw [if_neg fun hs => h.not_special hs.1, heq]

/-- An element that stands for a text is one whose lookup gives this text or none. -/
theorem yields_iff {l text : CString} {s s' : σ} (hl : l.head? ≠ some '$' → Plain shm l) :
    Yields env sys shm s l text shm' s' ↔ ∃ tmp,
      Gives (fun fuel => varToString env sys fuel shm l) s (.ok ((tmp, shm'), s')) ∧
        tmp.getD l = text := by
  constructor
  · intro h
    cases h with
    | literal hlit =>
      refine ⟨none, ?_, rfl⟩
      simp only [varToString_plain (hl hlit)]
      exact gives_pure _ s
    | @ordinary name _ p _ hfind htext =>
      refine ⟨some text, ?_, rfl⟩
      simp only [varToString, varLookup_of_varFind hfind]
      exact htext.bind (gives_pure _ s')
    | @special name _ p _ _ hnone hdyn htext =>
      refine ⟨some text, ?_, rfl⟩
      simp only [varToString, varLookup_of_none hnone, hdyn]
      exact htext.bind (gives_pure _ s')
    | @unknown name _ hnone hdyn hmemory =>
      refine ⟨none, ?_, rfl⟩
      simp only [varToString, varLookup_of_none hnone, hdyn]
      rw [if_neg fun hs => hmemory hs.1 hs.2]
      exact gives_pure _ s
  · rintro ⟨tmp, hgives, rfl⟩
    by_cases hlit : l.head? ≠ some '$'
    · simp only [varToString_plain (hl hlit)] at hgives
      cases (gives_pure _ s).unique hgives
      exact .literal hlit
    · obtain ⟨name, rfl⟩ : ∃ name, l = '$' :: name :=
        ⟨l.tail, (List.cons_head?_tail (not_not.mp hlit)).symm⟩
      simp only [varToString] at hgives
      split at hgives
      next p shm₁ heq =>
        obtain ⟨text, s₁, htext, hpure⟩ := Gives.bind_inv (fun n => varGetString_below n p) hgives
        cases (gives_pure _ s₁).unique hpure
        cases hfind : varFind shm name with
        | some q =>
          rw [varLookup_of_varFind hfind] at heq
          cases heq
          exact .ordinary hfind htext
        | none =>
          rw [varLookup_of_none hfind] at heq
          exact .special hfind heq htext
      next shm₁ heq =>
        split_ifs at hgives with hnull
        · exact absurd hgives.run nofun
        · cases (gives_pure _ s).unique hgives
          cases hfind : varFind shm name with
          | some q =>
            rw [varLookup_of_varFind hfind] at heq
            cases heq
          | none =>
            rw [varLookup_of_none hfind] at heq
            exact .unknown hfind heq fun hs hmem => hnull ⟨hs, hmem⟩

theorem Yields.unaltered {l text : CString} {s s' : σ} (hl : l.head? ≠ some '$' → Plain shm l)
    (hfilled : ∀ name, l = '$' :: name → Special name → filled name)
    (h : Yields env sys shm s l text shm' s') : Unaltered filled shm shm' := by
  cases h with
  | literal hlit =>
    rw [varLookup_of_none (hl hlit).not_found]
    exact varFindDynamic_unaltered (fun hs => absurd hs (hl hlit).not_special) rfl
  | ordinary => exact .refl filled shm
  | special hnone hdyn => exact varFindDynamic_unaltered (hfilled _ rfl) hdyn
  | unknown hnone hdyn => exact varFindDynamic_unaltered (hfilled _ rfl) hdyn

theorem Concatenates.unaltered {list : List CString} {text : CString} {s s' : σ}
    (hwf : WellFormed shm) (hlit : PlainLiterals shm list)
    (h : Concatenates env sys shm s list text shm' s')
    (hfilled : ∀ name, '$' :: name ∈ list → Special name → filled name) :
    Unaltered filled shm shm' := by
  induction h with
  | nil => exact .refl filled _
  | cons h hrest ih =>
    have hun := h.unaltered (hlit _ List.mem_cons_self)
      fun name hname => hfilled name (hname ▸ List.mem_cons_self)
    exact hun.trans (ih (hun.wellFormed hwf) (hlit.tail hwf hun)
      fun name hname => hfilled name (List.mem_cons_of_mem _ hname))

theorem varToString_below (n : ℕ) (shm : VarShm D) (l : CString) :
    Below (varToString env sys n shm l) (varToString env sys (n + 1) shm l) := by
  cases l with
  | nil => exact outOfFuel_below _
  | cons c name =>
    rw [varToString, varToString]
    split
    next p shm₁ heq => exact (varGetString_below n p).bind fun _ => .refl _
    next => exact .refl _

theorem strcat_of_lt {string tmp : CString} (h : (string ++ tmp).length < maxpathlen) :
    (strcat maxpathlen string tmp : Eval σ _) = pure (string ++ tmp) := if_pos h

/-- The loop goes on with a longer string, and only while there is room for it. -/
theorem list2stringLoop_iff {list : List CString} {string text : CString} {s s' : σ}
    (hwf : WellFormed shm) (hlit : PlainLiterals shm list) (hroom : string.length < maxpathlen) :
    Gives (fun fuel => list2stringLoop env sys maxpathlen fuel list string shm) s
        (.ok ((text, shm'), s')) ↔
      ∃ texts, string ++ texts = text ∧ Concatenates env sys shm s list texts shm' s' ∧
        text.length < maxpathlen := by
  induction list generalizing string shm s with
  | nil =>
    constructor
    · intro h
      cases (gives_pure _ s).unique h
      exact ⟨[], List.append_nil _, .nil _ _, hroom⟩
    · rintro ⟨texts, rfl, hconcat, -⟩
      cases hconcat
      rw [List.append_nil]
      exact gives_pure _ _
  | cons l list ih =>
    have hl := hlit l List.mem_cons_self
    have hnext : ∀ {t shm₁ s₁}, Yields env sys shm s l t shm₁ s₁ →
        WellFormed shm₁ ∧ PlainLiterals shm₁ list := by
      intro t shm₁ s₁ h
      have hun : Unaltered (fun _ => True) shm shm₁ := h.unaltered hl fun _ _ _ => trivial
      exact ⟨hun.wellFormed hwf, hlit.tail hwf hun⟩
    constructor
    · intro h
      obtain ⟨⟨tmp, shm₁⟩, s₁, htmp, hrest⟩ :=
        Gives.bind_inv (fun n => varToString_below n shm l) h
      have hyields := (yields_iff hl).mpr ⟨tmp, htmp, rfl⟩
      obtain ⟨hwf₁, hlit₁⟩ := hnext hyields
      by_cases hlen : (string ++ tmp.getD l).length < maxpathlen
      · simp only [strcat_of_lt hlen, pure_bind] at hrest
        obtain ⟨texts, rfl, hconcat, hlt⟩ := (ih hwf₁ hlit₁ hlen).mp hrest
        exact ⟨tmp.getD l ++ texts, (List.append_assoc ..).symm, .cons hyields hconcat, hlt⟩
      · simp only [strcat, if_neg hlen] at hrest
        exact absurd hrest.run nofun
    · rintro ⟨texts, rfl, hconcat, hlt⟩
      cases hconcat with
      | @cons _ shm₁ _ _ s₁ _ _ t texts _ hyields hconcat =>
        obtain ⟨tmp, htmp, rfl⟩ := (yields_iff hl).mp hyields
        obtain ⟨hwf₁, hlit₁⟩ := hnext hyields
        have hlen : (string ++ tmp.getD l).length < maxpathlen :=
          by
          simp only [List.length_append] at hlt ⊢
          omega
        refine htmp.bind ?_
        simp only [strcat_of_lt hlen, pure_bind]
        exact (ih hwf₁ hlit₁ hlen).mpr ⟨texts, List.append_assoc .., hconcat, hlt⟩

theorem parserList2string_concatenates {list : List CString} {text : CString} {s s' : σ}
    (hwf : WellFormed shm) (hlit : PlainLiterals shm list) (hmax : 0 < maxpathlen) :
    (Gives (fun fuel => parserList2string env sys maxpathlen fuel list shm) s
        (.ok ((text, shm'), s')) ↔
      Concatenates env sys shm s list text shm' s' ∧ text.length < maxpathlen) ∧
    (Concatenates env sys shm s list text shm' s' →
      Unaltered (fun name => Special name ∧ '$' :: name ∈ list) shm shm') := by
  constructor
  · rw [show (fun fuel => parserList2string env sys maxpathlen fuel list shm) =
      fun fuel => list2stringLoop env sys maxpathlen fuel list [] shm from rfl,
      list2stringLoop_iff hwf hlit hmax]
    constructor
    · rintro ⟨texts, rfl, hconcat, hlt⟩
      exact ⟨hconcat, hlt⟩
    · rintro ⟨hconcat, hlt⟩
      exact ⟨text, rfl, hconcat, hlt⟩
  · intro h
    exact h.unaltered hwf hlit fun name hmem hspecial => ⟨hspecial, hmem⟩

end

/-! ## Examples -/

/-- A day on which the date is `new`. -/
def today : SystemVars :=
  ⟨fun name => if name = "date".toList then some (.inl "new".toList) else none, fun _ => none⟩

/-- `set $foo = "bar"` -/
def fooIsBar : VarShm ℚ := (SetOp.apply noVars (.string "foo".toList "bar".toList)).2

theorem fooIsBar_wellFormed : WellFormed fooIsBar :=
  SetOp.apply_wellFormed noVars_start.wellFormed
    (show SetOp.apply noVars (.string "foo".toList "bar".toList) = (0, fooIsBar) from rfl)

/-- `echo "hello $foo"` -/
theorem parserList2string_hello : ∃ shm' : VarShm ℚ,
    Gives (fun fuel => @parserList2string ℚ Unit rationals noRandom today 4096 fuel
      ["hello ".toList, "$foo".toList] fooIsBar) () (.ok (("hello bar".toList, shm'), ())) ∧
    Unaltered (fun name => Special name ∧ '$' :: name ∈ ["hello ".toList, "$foo".toList])
      fooIsBar shm' := by
  have hlit : PlainLiterals fooIsBar ["hello ".toList, "$foo".toList] := by
    intro l hl hhead
    rcases List.mem_pair.mp hl with rfl | rfl
    · exact ⟨by decide, by decide, rfl⟩
    · exact absurd rfl hhead
  let := rationals
  have hconcat : Concatenates noRandom today fooIsBar ()
      ["hello ".toList, "$foo".toList] ("hello ".toList ++ ("bar".toList ++ [])) _ () :=
    .cons (.literal (by decide)) (.cons (.ordinary rfl ⟨1, fun fuel hfuel => by
      obtain ⟨n, rfl⟩ := Nat.exists_eq_add_of_le' hfuel
      rfl⟩) (.nil _ _))
  exact ⟨_, (parserList2string_concatenates fooIsBar_wellFormed hlit
    (show 0 < 4096 by decide)).1.mpr ⟨hconcat, by decide⟩,
    (parserList2string_concatenates fooIsBar_wellFormed hlit
      (show 0 < 4096 by decide)).2 hconcat⟩

/-- An earlier use of `${date}` found the date `old`. -/
def dated : VarShm ℚ :=
  (varAllocDynamic noVars "{date}".toList).2.setVar 0
    (varSetStr (.new "{date}".toList .dynamic) "old".toList)

theorem parserList2string_refills : ∃ shm' : VarShm ℚ,
    Gives (fun fuel => @parserList2string ℚ Unit rationals noRandom today 4096 fuel
      ["${date}".toList] dated) () (.ok (("new".toList, shm'), ())) ∧
    0 ∈ dated.shmVarDynList ∧ (dated.var 0).varVal = .string "old".toList ∧
    (shm'.var 0).varVal = .string "new".toList := by
  refine ⟨dated.setVar 0 (varSetStr (dated.var 0) "new".toList), ⟨1, fun fuel hfuel => ?_⟩,
    List.mem_singleton_self _, rfl, rfl⟩
  obtain ⟨n, rfl⟩ := Nat.exists_eq_add_of_le' hfuel
  rfl

end Filebench
