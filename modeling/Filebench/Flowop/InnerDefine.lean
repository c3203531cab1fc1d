import Filebench.Flowop.Create
import Filebench.Procflow.Locks
import Filebench.Vars.Passing

/-! # Uses of composite flowops

A flowop of a script whose type is a composite one gets inner flowops of its own, made from those of
the definition at any depth. Their names begin with the names of the flowops around them, and what
they read of local variables is looked up on the list of the flowop that they are in. -/
namespace Filebench

open Fuel Linked

/-- The attributes that `avd_update` is called for. -/
inductive FlowopAttr where
  | filename
  | iters
  | iosize
  | wss
  | value
  | random
  | dsync
  | rotatefd
  | blocking
  | directio
  | highwater
  deriving DecidableEq, Repr

structure FlowopAttrs (D : Type) where
  avd : FlowopAttr → Option (Avd D)
  foLvarList : List VarPtr

structure ScriptShm (D : Type) (n : ℕ) where
  flowops : FlowopShm (FlowopAttrs D) n
  vars : VarShm D

/-- The program ends, or does what the language leaves undefined. -/
inductive DefineStop where
  | shutdown
  | undefined
  deriving DecidableEq, Repr

structure DefineEnv where
  maxpathlen : ℕ
  filesetFind : CString → Option FilesetPtr
  long : foNameSize < maxpathlen

variable {D : Type} {n : ℕ}

def FlowopAttrs.set (as : FlowopAttrs D) (a : FlowopAttr) (avd : Option (Avd D)) :
    FlowopAttrs D :=
  { as with avd := Function.update as.avd a avd }

def ScriptShm.attrs (s : ScriptShm D n) (p : Fin n) : FlowopAttrs D :=
  (s.flowops.flowop p).foAttrs

def ScriptShm.setAttrs (s : ScriptShm D n) (p : Fin n) (as : FlowopAttrs D) : ScriptShm D n :=
  { s with flowops := s.flowops.modify p fun f => { f with foAttrs := as } }

def ScriptShm.setFileset (s : ScriptShm D n) (p : Fin n) (fileset : FilesetPtr) : ScriptShm D n :=
  { s with flowops := s.flowops.modify p fun f => { f with foFileset := some fileset } }

/-- The list of inner flowops is left. -/
def ScriptShm.startInner (s : ScriptShm D n) (p : Fin n) : ScriptShm D n :=
  { s with flowops := s.flowops.setHd (.inner p) none }

/-- `avd_update` looks into the descriptor, also when it is the null pointer. -/
def updateAttr (p : Fin n) (lvars : List VarPtr) (a : FlowopAttr) (s : ScriptShm D n) :
    Except DefineStop (ScriptShm D n) :=
  match (s.attrs p).avd a with
  | none => .error .undefined
  | some avd =>
    let (avd, vars) := avdUpdate s.vars avd lvars
    .ok ({ s with vars := vars }.setAttrs p ((s.attrs p).set a avd))

/-- `avd_get_str`, which gives nothing for the null pointer. -/
def filenameStr (s : ScriptShm D n) (p : Fin n) : Except DefineStop (Option CString) :=
  match (s.attrs p).avd .filename with
  | none => .ok none
  | some avd =>
    match avdGetStr s.vars avd with
    | .ok name => .ok name
    | .error _ => .error .undefined

def updateFilename (env : DefineEnv) (p : Fin n) (lvars : List VarPtr) (s : ScriptShm D n) :
    Except DefineStop (ScriptShm D n) :=
  match (s.attrs p).avd .filename with
  | none => .ok s
  | some _ => do
    let s ← updateAttr p lvars .filename s
    match ← filenameStr s p with
    | none => pure s
    | some name =>
      match env.filesetFind name with
      | none => .error .shutdown
      | some fileset => pure (s.setFileset p fileset)

/-- The attributes of an inner flowop that is no composite one, in the order of their updates. -/
def innerAttrs : List FlowopAttr :=
  [.iosize, .wss, .iters, .value, .random, .dsync, .rotatefd, .blocking, .directio, .highwater]

/-- New local variables for those of the definition. One for which there is no memory is left
out. -/
def newLvars (p : Fin n) (protoLvars mstrLvars : List VarPtr) :
    List VarPtr → ScriptShm D n → Except DefineStop (ScriptShm D n)
  | [], s => .ok s
  | lvar :: rest, s =>
    match varLvarAllocLocal s.vars (s.vars.var lvar).varName with
    | (none, vars) => newLvars p protoLvars mstrLvars rest { s with vars := vars }
    | (some newlvar, vars) =>
      let (list, vars) := addLvarToList vars newlvar (s.attrs p).foLvarList
      match varUpdateCompLvars vars newlvar protoLvars mstrLvars with
      | none => .error .undefined
      | some vars =>
        newLvars p protoLvars mstrLvars rest
          ({ s with vars := vars }.setAttrs p { s.attrs p with foLvarList := list })

/-- What is done for the new flowop `p` but for its own inner flowops. -/
def fillInner (env : DefineEnv) (innerFlowtype compMstrFlow p : Fin n) (s : ScriptShm D n) :
    Except DefineStop (ScriptShm D n) := do
  let lvars := (s.attrs compMstrFlow).foLvarList
  let s ← updateFilename env p lvars s
  let s ← updateAttr p lvars .iters s
  match (s.flowops.flowop innerFlowtype).foMethods with
  | .composite =>
    let protoLvars := (s.attrs p).foLvarList
    newLvars p protoLvars lvars (s.attrs innerFlowtype).foLvarList
      (s.setAttrs p { s.attrs p with foLvarList := [] })
  | .library => innerAttrs.foldlM (fun s a => updateAttr p lvars a s) s

def fullname (env : DefineEnv) (compName name : CString) : CString :=
  (compName ++ '.' :: name).take (env.maxpathlen - 1)

/-- `strcpy` does not know the size of `fo_name`. -/
def defineInner (env : DefineEnv) (thread : Option ThreadPtr)
    (innerFlowtype compMstrFlow : Fin n) (s : ScriptShm D n) :
    Option (Except DefineStop (Fin n × ScriptShm D n)) := do
  let name := fullname env (s.flowops.flowop compMstrFlow).foName
    (s.flowops.flowop innerFlowtype).foName
  match ← flowopDefineCommon thread name innerFlowtype (.inner compMstrFlow) flowMaster
      s.flowops with
  | (none, _) => some (.error .shutdown)
  | (some p, flowops) =>
    if name.length < foNameSize then some (.ok (p, { s with flowops := flowops }))
    else some (.error .undefined)

/-- The loop over the inner flowops of the definition. -/
def innerDefineLoop (env : DefineEnv) : ℕ → Option ThreadPtr → Fin n → Option (Fin n) →
    ScriptShm D n → Option (Except DefineStop (ScriptShm D n))
  | _, _, _, none, s => some (.ok s)
  | 0, _, _, some _, _ => none
  | fuel + 1, thread, compMstrFlow, some innerFlowtype, s => do
    match ← defineInner env thread innerFlowtype compMstrFlow s with
    | .error stop => some (.error stop)
    | .ok (p, s) =>
      match fillInner env innerFlowtype compMstrFlow p s with
      | .error stop => some (.error stop)
      | .ok s =>
        match (s.flowops.flowop innerFlowtype).foMethods with
        | .library =>
          innerDefineLoop env fuel thread compMstrFlow (s.flowops.execNext innerFlowtype) s
        | .composite =>
          match ← innerDefineLoop env fuel thread p (s.flowops.compFops innerFlowtype)
              (s.startInner p) with
          | .error stop => some (.error stop)
          | .ok s =>
            innerDefineLoop env fuel thread compMstrFlow (s.flowops.execNext innerFlowtype) s

def parserInnerFlowopDefine (env : DefineEnv) (fuel : ℕ) (thread : Option ThreadPtr)
    (comp0Flow compMstrFlow : Fin n) (s : ScriptShm D n) :
    Option (Except DefineStop (ScriptShm D n)) :=
  innerDefineLoop env fuel thread compMstrFlow (s.flowops.compFops comp0Flow)
    (s.startInner compMstrFlow)

/-! ## What is written into a new flowop -/

section fill

variable {s s' s₁ s₂ : ScriptShm D n} {p : Fin n} {lvars : List VarPtr}

/-- Only the flowop `p` has changed, and nothing of it that the global list or the list that it is
on depends on. -/
structure FilledIn (s s' : ScriptShm D n) (p : Fin n) : Prop where
  pool : s'.flowops.pool = s.flowops.pool
  flowoplist : s'.flowops.shmFlowoplist = s.flowops.shmFlowoplist
  heads : s'.flowops.tfThrdFops = s.flowops.tfThrdFops
  others : ∀ r, r ≠ p → s'.flowops.flowop r = s.flowops.flowop r
  self : ∃ attrs fileset comp, s'.flowops.flowop p =
    { s.flowops.flowop p with foAttrs := attrs, foFileset := fileset, foCompFops := comp }
  vars : Extends s.vars s'.vars

theorem FilledIn.refl (s : ScriptShm D n) (p : Fin n) : FilledIn s s p :=
  ⟨rfl, rfl, rfl, fun _ _ => rfl, ⟨_, _, _, rfl⟩, .refl _⟩

theorem FilledIn.trans (h : FilledIn s s₁ p) (h' : FilledIn s₁ s₂ p) : FilledIn s s₂ p := by
  obtain ⟨as, fs, comp, hself⟩ := h.self
  obtain ⟨as', fs', comp', hself'⟩ := h'.self
  refine ⟨h'.pool.trans h.pool, h'.flowoplist.trans h.flowoplist, h'.heads.trans h.heads,
    fun r hr => (h'.others r hr).trans (h.others r hr), ⟨as', fs', comp', ?_⟩,
    h.vars.trans h'.vars⟩
  rw [hself', hself]

theorem filledIn_modify (s : ScriptShm D n) (p : Fin n)
    {f : ShmFlowop (FlowopAttrs D) n → ShmFlowop (FlowopAttrs D) n}
    (hf : ∀ x, ∃ attrs fileset comp,
      f x = { x with foAttrs := attrs, foFileset := fileset, foCompFops := comp })
    {vars : VarShm D} (hvars : Extends s.vars vars) :
    FilledIn s ⟨s.flowops.modify p f, vars⟩ p := by
  obtain ⟨as, fs, comp, h⟩ := hf (s.flowops.flowop p)
  refine ⟨rfl, rfl, rfl, fun r hr => ?_, ⟨as, fs, comp, ?_⟩, hvars⟩
  · exact (FlowopShm.modify_flowop ..).trans (if_neg hr)
  · exact (FlowopShm.modify_flowop ..).trans ((if_pos rfl).trans h)

/-- A field that is not written. -/
theorem FilledIn.field {X : Type} (h : FilledIn s s' p) (g : ShmFlowop (FlowopAttrs D) n → X)
    (hg : ∀ x as fs comp,
      g { x with foAttrs := as, foFileset := fs, foCompFops := comp } = g x) (r : Fin n) :
    g (s'.flowops.flowop r) = g (s.flowops.flowop r) := by
  by_cases hr : r = p
  · obtain ⟨as, fs, comp, hself⟩ := h.self
    rw [hr, hself, hg]
  · rw [h.others r hr]

theorem FilledIn.next (h : FilledIn s s' p) : s'.flowops.next = s.flowops.next :=
  funext (h.field (·.foNext) fun _ _ _ _ => rfl)

theorem FilledIn.execNext (h : FilledIn s s' p) : s'.flowops.execNext = s.flowops.execNext :=
  funext (h.field (·.foExecNext) fun _ _ _ _ => rfl)

theorem ScriptShm.setAttrs_attrs (s : ScriptShm D n) (p : Fin n) (as : FlowopAttrs D) :
    (s.setAttrs p as).attrs p = as := by
  rw [ScriptShm.attrs, ScriptShm.setAttrs, FlowopShm.modify_flowop, if_pos rfl]

theorem ScriptShm.setAttrs_compFops (s : ScriptShm D n) (p : Fin n) (as : FlowopAttrs D) :
    (s.setAttrs p as).flowops.compFops = s.flowops.compFops := by
  funext r
  rw [FlowopShm.compFops, ScriptShm.setAttrs, FlowopShm.modify_flowop]
  split <;> rfl

theorem ScriptShm.setFileset_attrs (s : ScriptShm D n) (p : Fin n) (fileset : FilesetPtr) :
    (s.setFileset p fileset).attrs = s.attrs := by
  funext r
  rw [ScriptShm.attrs, ScriptShm.setFileset, FlowopShm.modify_flowop]
  split <;> rfl

theorem ScriptShm.setFileset_compFops (s : ScriptShm D n) (p : Fin n) (fileset : FilesetPtr) :
    (s.setFileset p fileset).flowops.compFops = s.flowops.compFops := by
  funext r
  rw [FlowopShm.compFops, ScriptShm.setFileset, FlowopShm.modify_flowop]
  split <;> rfl

/-! ### Attributes -/

theorem boundAvd_iterate_extends {shm shm' : VarShm D} (hr : Rooted shm) (h : Extends shm shm')
    (hlvars : ∀ q ∈ lvars, q < shm.requests) {avd : Avd D} (havd : avd.Within shm.requests)
    (k : ℕ) : (boundAvd shm' lvars)^[k] avd = (boundAvd shm lvars)^[k] avd ∧
      ((boundAvd shm lvars)^[k] avd).Within shm.requests := by
  induction k with
  | zero => exact ⟨rfl, havd⟩
  | succ k ih =>
    rw [Function.iterate_succ_apply', Function.iterate_succ_apply', ih.1]
    exact ⟨boundAvd_extends hr h hlvars ih.2, boundAvd_within hr hlvars ih.2⟩

/-- What a flowop refers to was allocated. -/
structure FlowopAttrs.Within (as : FlowopAttrs D) (bound : ℕ) : Prop where
  avd : ∀ a avd, as.avd a = some avd → avd.Within bound
  lvars : ∀ q ∈ as.foLvarList, q < bound

/-- The attributes in `done` were updated, some of them more than once. -/
structure Updated (s₀ s : ScriptShm D n) (p : Fin n) (lvars : List VarPtr)
    (done : List FlowopAttr) : Prop where
  filled : FilledIn s₀ s p
  rooted : Rooted s.vars
  comp : s.flowops.compFops p = s₀.flowops.compFops p
  lvarList : (s.attrs p).foLvarList = (s₀.attrs p).foLvarList
  avd : ∀ a, (s.attrs p).avd a =
    ((s₀.attrs p).avd a).map (boundAvd s.vars lvars)^[done.count a]

theorem Updated.nil (hr : Rooted s.vars) (p : Fin n) (lvars : List VarPtr) :
    Updated s s p lvars [] := by
  refine ⟨.refl s p, hr, rfl, rfl, fun a => ?_⟩
  rw [List.count_nil, Function.iterate_zero, Option.map_id]
  rfl

/-- Without an attribute there is nothing to update. -/
theorem Updated.skip {s₀ : ScriptShm D n} {done : List FlowopAttr} {a : FlowopAttr}
    (h : Updated s₀ s p lvars done) (ha : (s.attrs p).avd a = none) :
    Updated s₀ s p lvars (done ++ [a]) := by
  refine ⟨h.filled, h.rooted, h.comp, h.lvarList, fun b => ?_⟩
  by_cases hb : b = a
  · have hnone := h.avd b
    rw [hb, ha] at hnone ⊢
    rw [Option.map_eq_none_iff.mp hnone.symm]
    rfl
  · rw [List.count_append, List.count_singleton, if_neg (by simpa using Ne.symm hb), Nat.add_zero]
    exact h.avd b

section updates

variable {s₀ : ScriptShm D n} {done : List FlowopAttr} {a : FlowopAttr}

theorem updateAttr_updated (h : Updated s₀ s p lvars done) (hample : Ample s.vars)
    (hwithin : (s₀.attrs p).Within s₀.vars.requests)
    (hlvars : ∀ q ∈ lvars, q < s₀.vars.requests) (hrun : updateAttr p lvars a s = .ok s') :
    Updated s₀ s' p lvars (done ++ [a]) := by
  unfold updateAttr at hrun
  split at hrun
  next => cases hrun
  next avd havd =>
    obtain ⟨vars, hupdate, hext, hvar⟩ := avdUpdate_ample hample lvars avd
    rw [hupdate] at hrun
    obtain rfl := Except.ok.inj hrun
    have hfilled : FilledIn s (({ s with vars := vars } : ScriptShm D n).setAttrs p
        ((s.attrs p).set a (some (boundAvd s.vars lvars avd)))) p :=
      filledIn_modify s p (fun _ => ⟨_, _, _, rfl⟩) hext
    have hlvars' : ∀ q ∈ lvars, q < s.vars.requests :=
      fun q hq => (hlvars q hq).trans_le h.filled.vars.requests
    refine ⟨h.filled.trans hfilled, h.rooted.of_var hext hvar, ?_, ?_, fun b => ?_⟩
    · rw [ScriptShm.setAttrs_compFops]
      exact h.comp
    · rw [ScriptShm.setAttrs_attrs]
      exact h.lvarList
    · rw [ScriptShm.setAttrs_attrs]
      change Function.update (s.attrs p).avd a _ b = _
      have hstable : ∀ k, ((s₀.attrs p).avd b).map (boundAvd vars lvars)^[k] =
          ((s₀.attrs p).avd b).map (boundAvd s.vars lvars)^[k] := by
        intro k
        cases hb : (s₀.attrs p).avd b with
        | none => rfl
        | some avd₀ =>
          have hin : avd₀.Within s.vars.requests :=
            (hwithin.avd b avd₀ hb).mono h.filled.vars.requests
          rw [Option.map_some, Option.map_some,
            (boundAvd_iterate_extends h.rooted hext hlvars' hin k).1]
      change _ = ((s₀.attrs p).avd b).map (boundAvd vars lvars)^[_]
      rw [hstable]
      by_cases hb : b = a
      · rw [hb, Function.update_self, List.count_append, List.count_singleton_self,
          Nat.add_comm, Function.iterate_add, Function.iterate_one, ← Option.map_map, ← h.avd a,
          havd]
        rfl
      · rw [Function.update_of_ne hb, List.count_append, List.count_singleton,
          if_neg (by simpa using Ne.symm hb), Nat.add_zero]
        exact h.avd b

theorem updateAttrs_updated {l : List FlowopAttr} (h : Updated s₀ s p lvars done)
    (hample : Ample s₀.vars) (hwithin : (s₀.attrs p).Within s₀.vars.requests)
    (hlvars : ∀ q ∈ lvars, q < s₀.vars.requests)
    (hrun : l.foldlM (fun s a => updateAttr p lvars a s) s = .ok s') :
    Updated s₀ s' p lvars (done ++ l) := by
  induction l generalizing s done with
  | nil =>
    obtain rfl := Except.ok.inj hrun
    rwa [List.append_nil]
  | cons a l ih =>
    rw [List.foldlM_cons] at hrun
    cases hone : updateAttr p lvars a s with
    | error e =>
      rw [hone] at hrun
      cases hrun
    | ok s₁ =>
      rw [hone] at hrun
      have h₁ := updateAttr_updated h (hample.extends h.filled.vars) hwithin hlvars hone
      have h₂ := ih h₁ hrun
      rwa [List.append_assoc] at h₂

theorem updateFilename_updated {env : DefineEnv} (hr : Rooted s.vars) (hample : Ample s.vars)
    (hwithin : (s.attrs p).Within s.vars.requests) (hlvars : ∀ q ∈ lvars, q < s.vars.requests)
    (hrun : updateFilename env p lvars s = .ok s') : Updated s s' p lvars [.filename] := by
  unfold updateFilename at hrun
  split at hrun
  next hnone =>
    obtain rfl := Except.ok.inj hrun
    exact (Updated.nil hr p lvars).skip hnone
  next =>
    cases hone : updateAttr p lvars .filename s with
    | error e =>
      rw [hone] at hrun
      cases hrun
    | ok s₁ =>
      rw [hone] at hrun
      have h₁ := updateAttr_updated (.nil hr p lvars) hample hwithin hlvars hone
      change (filenameStr s₁ p >>= _) = _ at hrun
      cases hname : filenameStr s₁ p with
      | error e =>
        rw [hname] at hrun
        cases hrun
      | ok o =>
        rw [hname] at hrun
        cases o with
        | none =>
          obtain rfl := Except.ok.inj hrun
          exact h₁
        | some name =>
          change (match env.filesetFind name with
            | none => _
            | some fileset => _) = _ at hrun
          split at hrun
          next => cases hrun
          next fileset _ =>
            obtain rfl := Except.ok.inj hrun
            refine ⟨h₁.filled.trans (filledIn_modify s₁ p (fun _ => ⟨_, _, _, rfl⟩) (.refl _)),
              h₁.rooted, ?_, ?_, fun b => ?_⟩
            · rw [ScriptShm.setFileset_compFops]
              exact h₁.comp
            · rw [ScriptShm.setFileset_attrs]
              exact h₁.lvarList
            · rw [ScriptShm.setFileset_attrs]
              exact h₁.avd b

end updates

/-! ### Local variables -/

/-- The new variable `q` has taken over the local variable `l` of the definition. -/
structure TakenOver (shm : VarShm D) (protoLvars mstrLvars : List VarPtr) (l q : VarPtr) :
    Prop where
  allocated : q < shm.requests
  passed : ∃ proto, varFindListOnly shm (shm.var l).varName protoLvars = some proto ∧
    LvarPassed shm mstrLvars (shm.var proto) (shm.var l).varName (shm.var q)

theorem TakenOver.extends {shm shm' : VarShm D} {protoLvars mstrLvars : List VarPtr}
    {l q : VarPtr} (h : TakenOver shm protoLvars mstrLvars l q) (hr : Rooted shm)
    (hproto : ∀ r ∈ protoLvars, r < shm.requests) (hlvars : ∀ r ∈ mstrLvars, r < shm.requests)
    (hl : l < shm.requests) (he : Extends shm shm') : TakenOver shm' protoLvars mstrLvars l q := by
  obtain ⟨proto, hfind, hpassed⟩ := h.passed
  have hlt : proto < shm.requests := hproto proto (List.mem_of_find?_eq_some hfind)
  refine ⟨h.allocated.trans_le he.requests, proto, ?_, ?_⟩
  · rw [he.var l hl, varFindListOnly, varFindList_extends he hproto]
    exact hfind
  · rw [he.var l hl, he.var q h.allocated, he.var proto hlt]
    exact hpassed.extends hr hlvars he

/-- A new variable for the first one, unless that is an indirection that leads nowhere. -/
theorem newLvars_round {protoLvars mstrLvars L : List VarPtr} {l : VarPtr} (hr : Rooted s.vars)
    (hample : Ample s.vars) (hproto : ∀ q ∈ protoLvars, q < s.vars.requests)
    (hlvars : ∀ q ∈ mstrLvars, q < s.vars.requests) (hl : l ∈ protoLvars) :
    (newLvars p protoLvars mstrLvars (l :: L) s = .error .undefined ∧
      ∃ q ∈ protoLvars, varHasIndvar (s.vars.var q)) ∨
    ∃ newlvar s₁, newLvars p protoLvars mstrLvars (l :: L) s =
        newLvars p protoLvars mstrLvars L s₁ ∧
      FilledIn s s₁ p ∧ Rooted s₁.vars ∧ s₁.flowops.compFops = s.flowops.compFops ∧
      s₁.attrs p = { s.attrs p with foLvarList := newlvar :: (s.attrs p).foLvarList } ∧
      s.vars.requests ≤ newlvar ∧ TakenOver s₁.vars protoLvars mstrLvars l newlvar := by
  have hlt : l < s.vars.requests := hproto l hl
  obtain ⟨newlvar, shm₁, shm₂, halloc, hadd, hnew⟩ := varLvarAllocLocal_private hr.wellFormed
    hample (s.vars.var l).varName (s.attrs p).foLvarList
  obtain ⟨proto, hfind⟩ : ∃ proto,
      varFindListOnly s.vars (s.vars.var l).varName protoLvars = some proto := by
    have hsome : (protoLvars.find? fun q =>
        (s.vars.var q).varName = (s.vars.var l).varName).isSome := by
      rw [List.find?_isSome]
      exact ⟨l, hl, by simp⟩
    exact Option.isSome_iff_exists.mp hsome
  have hmem : proto ∈ protoLvars := List.mem_of_find?_eq_some hfind
  cases hupdate : varUpdateCompLvars shm₂ newlvar protoLvars mstrLvars with
  | none =>
    refine .inl ⟨?_, proto, hmem, varUpdateCompLvars_none hample hnew hproto hfind hupdate⟩
    simp only [newLvars, halloc, hadd, hupdate]
  | some shm₃ =>
    obtain ⟨v, hprivate, hpassed⟩ :=
      varUpdateCompLvars_private hr hample hnew hproto hlvars hfind hupdate
    have hext := hprivate.toExtends
    refine .inr ⟨newlvar, ({ s with vars := shm₃ } : ScriptShm D n).setAttrs p
      { s.attrs p with foLvarList := newlvar :: (s.attrs p).foLvarList }, ?_,
      filledIn_modify s p (fun _ => ⟨_, _, _, rfl⟩) hext,
      hr.of_private hprivate fun q hq => hpassed.pointer_lt hr hlvars hq,
      ScriptShm.setAttrs_compFops .., ScriptShm.setAttrs_attrs .., hprivate.fresh,
      hprivate.allocated, proto, ?_, ?_⟩
    · simp only [newLvars, halloc, hadd, hupdate]
    · change varFindListOnly shm₃ (shm₃.var l).varName protoLvars = some proto
      rw [hext.var l hlt, varFindListOnly, varFindList_extends hext hproto]
      exact hfind
    · change LvarPassed shm₃ mstrLvars (shm₃.var proto) (shm₃.var l).varName (shm₃.var newlvar)
      rw [hext.var l hlt, hext.var proto (hproto proto hmem), hprivate.self]
      exact hpassed.extends hr hlvars hext

/-- One new variable for each of the definition, on a list in the opposite order. -/
theorem newLvars_takenOver {protoLvars mstrLvars L : List VarPtr} (hr : Rooted s.vars)
    (hample : Ample s.vars) (hproto : ∀ q ∈ protoLvars, q < s.vars.requests)
    (hlvars : ∀ q ∈ mstrLvars, q < s.vars.requests) (hL : L ⊆ protoLvars)
    (hrun : newLvars p protoLvars mstrLvars L s = .ok s') :
    FilledIn s s' p ∧ Rooted s'.vars ∧ s'.flowops.compFops = s.flowops.compFops ∧
      ∃ news, s'.attrs p =
          { s.attrs p with foLvarList := news.reverse ++ (s.attrs p).foLvarList } ∧
        (∀ q ∈ news, s.vars.requests ≤ q) ∧
        List.Forall₂ (TakenOver s'.vars protoLvars mstrLvars) L news := by
  induction L generalizing s with
  | nil =>
    obtain rfl := Except.ok.inj hrun
    exact ⟨.refl s p, hr, rfl, [], rfl, nofun, .nil⟩
  | cons l L ih =>
    have hl : l ∈ protoLvars := hL (.head _)
    rcases newLvars_round hr hample hproto hlvars hl with
      ⟨hstop, -⟩ | ⟨newlvar, s₃, hround, hfilled, hr₃, hcomp₃, hattrs₃, hnew, htaken⟩
    · rw [hstop] at hrun
      cases hrun
    · rw [hround] at hrun
      have hext := hfilled.vars
      obtain ⟨hfilled', hr', hcomp, news, hattrs, hfresh, hall⟩ := ih hr₃
        (hample.extends hext) (fun q hq => (hproto q hq).trans_le hext.requests)
        (fun q hq => (hlvars q hq).trans_le hext.requests)
        (fun q hq => hL (.tail _ hq)) hrun
      refine ⟨hfilled.trans hfilled', hr', hcomp.trans hcomp₃, newlvar :: news, ?_, ?_,
        .cons ?_ hall⟩
      · rw [hattrs, hattrs₃, List.reverse_cons, List.append_assoc]
        rfl
      · intro q hq
        rcases List.mem_cons.mp hq with rfl | hq
        · exact hnew
        · exact hext.requests.trans (hfresh q hq)
      · exact htaken.extends hr₃ (fun q hq => (hproto q hq).trans_le hext.requests)
          (fun q hq => (hlvars q hq).trans_le hext.requests)
          ((hproto l hl).trans_le hext.requests) hfilled'.vars

/-! ### The whole flowop -/

/-- The updates of a flowop, those of the iterations twice when it is no composite one. -/
def updates : FlowopMethods → List FlowopAttr
  | .composite => [.filename, .iters]
  | .library => .filename :: .iters :: innerAttrs

/-- What `fillInner` makes of a flowop `p` that inherits from `f`. -/
structure InnerFilled (s s' : ScriptShm D n) (p : Fin n) (methods : FlowopMethods)
    (lvars : List VarPtr) : Prop where
  filled : FilledIn s s' p
  rooted : Rooted s'.vars
  comp : s'.flowops.compFops p = s.flowops.compFops p
  avd : ∀ a, (s'.attrs p).avd a =
    ((s.attrs p).avd a).map (boundAvd s'.vars lvars)^[(updates methods).count a]
  plain : methods = .library → (s'.attrs p).foLvarList = (s.attrs p).foLvarList
  taken : methods = .composite → ∃ news, (s'.attrs p).foLvarList = news.reverse ∧
    (∀ q ∈ news, s.vars.requests ≤ q) ∧
    List.Forall₂ (TakenOver s'.vars (s.attrs p).foLvarList lvars) (s.attrs p).foLvarList news

theorem fillInner_filled {env : DefineEnv} {f m : Fin n} (hr : Rooted s.vars)
    (hample : Ample s.vars) (hwithin : (s.attrs p).Within s.vars.requests)
    (hlvars : ∀ q ∈ (s.attrs m).foLvarList, q < s.vars.requests) (hf : f ≠ p)
    (hinherit : (s.attrs p).foLvarList = (s.attrs f).foLvarList)
    (hrun : fillInner env f m p s = .ok s') :
    InnerFilled s s' p (s.flowops.flowop f).foMethods (s.attrs m).foLvarList := by
  unfold fillInner at hrun
  cases hfile : updateFilename env p (s.attrs m).foLvarList s with
  | error e =>
    simp only [hfile] at hrun
    cases hrun
  | ok s₁ =>
    have h₁ := updateFilename_updated hr hample hwithin hlvars hfile
    simp only [hfile] at hrun
    change (updateAttr p _ .iters s₁ >>= _) = _ at hrun
    cases hiters : updateAttr p (s.attrs m).foLvarList .iters s₁ with
    | error e =>
      rw [hiters] at hrun
      cases hrun
    | ok s₂ =>
      have h₂ := updateAttr_updated h₁ (hample.extends h₁.filled.vars) hwithin hlvars hiters
      have hf₂ : s₂.flowops.flowop f = s.flowops.flowop f := h₂.filled.others f hf
      rw [hiters] at hrun
      change (match (s₂.flowops.flowop f).foMethods with
        | .composite => _
        | .library => _) = _ at hrun
      have hattrs₂ : s₂.attrs f = s.attrs f := by
        rw [ScriptShm.attrs, ScriptShm.attrs, hf₂]
      rw [hf₂] at hrun
      cases hm : (s.flowops.flowop f).foMethods with
      | library =>
        rw [hm] at hrun
        have h₃ := updateAttrs_updated h₂ hample hwithin hlvars hrun
        exact ⟨h₃.filled, h₃.rooted, h₃.comp, h₃.avd, fun _ => h₃.lvarList, nofun⟩
      | composite =>
        rw [hm] at hrun
        change newLvars p (s₂.attrs p).foLvarList _ (s₂.attrs f).foLvarList _ = _ at hrun
        rw [h₂.lvarList, hattrs₂, ← hinherit] at hrun
        have hle := h₂.filled.vars.requests
        set s₃ := s₂.setAttrs p { s₂.attrs p with foLvarList := [] } with hs₃
        have hfilled₃ : FilledIn s₂ s₃ p :=
          filledIn_modify s₂ p (fun _ => ⟨_, _, _, rfl⟩) (.refl _)
        obtain ⟨hfilled, hr', hcomp, news, hattrs, hfresh, hall⟩ :=
          newLvars_takenOver (show Rooted s₃.vars from h₂.rooted) (hample.extends h₂.filled.vars)
            (fun q hq => (hwithin.lvars q hq).trans_le hle)
            (fun q hq => (hlvars q hq).trans_le hle) (List.Subset.refl _) hrun
        refine ⟨(h₂.filled.trans hfilled₃).trans hfilled, hr', ?_, fun a => ?_, nofun,
          fun _ => ⟨news, ?_, fun q hq => hle.trans (hfresh q hq), hall⟩⟩
        · rw [hcomp, hs₃, ScriptShm.setAttrs_compFops]
          exact h₂.comp
        · rw [hattrs, hs₃, ScriptShm.setAttrs_attrs]
          refine (h₂.avd a).trans ?_
          cases ha : (s.attrs p).avd a with
          | none => rfl
          | some avd =>
            have hin : avd.Within s₂.vars.requests := (hwithin.avd a avd ha).mono hle
            rw [Option.map_some, Option.map_some, (boundAvd_iterate_extends h₂.rooted hfilled.vars
              (fun q hq => (hlvars q hq).trans_le hle) hin _).1]
            rfl
        · rw [hattrs, hs₃, ScriptShm.setAttrs_attrs, List.append_nil]

/-! ### Why it can end the program -/

theorem updateAttr_error {a : FlowopAttr} {stop : DefineStop}
    (hrun : updateAttr p lvars a s = .error stop) : stop = .undefined := by
  unfold updateAttr at hrun
  split at hrun
  next => exact (Except.error.inj hrun).symm
  next => cases hrun

theorem updateAttrs_error {l : List FlowopAttr} {stop : DefineStop}
    (hrun : l.foldlM (fun s a => updateAttr p lvars a s) s = .error stop) : stop = .undefined := by
  induction l generalizing s with
  | nil => cases hrun
  | cons a l ih =>
    rw [List.foldlM_cons] at hrun
    cases hone : updateAttr p lvars a s with
    | error e =>
      rw [hone] at hrun
      obtain rfl := Except.error.inj hrun
      exact updateAttr_error hone
    | ok s₁ =>
      rw [hone] at hrun
      exact ih hrun

theorem newLvars_error {protoLvars mstrLvars L : List VarPtr} {stop : DefineStop}
    (hrun : newLvars p protoLvars mstrLvars L s = .error stop) : stop = .undefined := by
  induction L generalizing s with
  | nil => cases hrun
  | cons l L ih =>
    rw [newLvars] at hrun
    split at hrun
    next => exact ih hrun
    next =>
      dsimp only at hrun
      split at hrun
      next => exact (Except.error.inj hrun).symm
      next => exact ih hrun

theorem updateFilename_shutdown {env : DefineEnv}
    (hrun : updateFilename env p lvars s = .error .shutdown) :
    ∃ name, env.filesetFind name = none := by
  unfold updateFilename at hrun
  split at hrun
  next => cases hrun
  next =>
    cases hone : updateAttr p lvars .filename s with
    | error e =>
      rw [hone] at hrun
      obtain rfl := Except.error.inj hrun
      cases updateAttr_error hone
    | ok s₁ =>
      rw [hone] at hrun
      change (filenameStr s₁ p >>= _) = _ at hrun
      cases hname : filenameStr s₁ p with
      | error e =>
        rw [hname] at hrun
        obtain rfl := Except.error.inj hrun
        unfold filenameStr at hname
        split at hname
        next => cases hname
        next =>
          split at hname
          next => cases hname
          next => cases Except.error.inj hname
      | ok o =>
        rw [hname] at hrun
        cases o with
        | none => cases hrun
        | some name =>
          change (match env.filesetFind name with
            | none => _
            | some fileset => _) = _ at hrun
          split at hrun
          next hnone => exact ⟨name, hnone⟩
          next => cases hrun

/-- Nothing but a missing file ends the program. -/
theorem fillInner_shutdown {env : DefineEnv} {f m : Fin n}
    (hrun : fillInner env f m p s = .error .shutdown) : ∃ name, env.filesetFind name = none := by
  unfold fillInner at hrun
  cases hfile : updateFilename env p (s.attrs m).foLvarList s with
  | error e =>
    simp only [hfile] at hrun
    obtain rfl := Except.error.inj hrun
    exact updateFilename_shutdown hfile
  | ok s₁ =>
    simp only [hfile] at hrun
    change (updateAttr p _ .iters s₁ >>= _) = _ at hrun
    cases hiters : updateAttr p (s.attrs m).foLvarList .iters s₁ with
    | error e =>
      rw [hiters] at hrun
      obtain rfl := Except.error.inj hrun
      cases updateAttr_error hiters
    | ok s₂ =>
      rw [hiters] at hrun
      change (match (s₂.flowops.flowop f).foMethods with
        | .composite => _
        | .library => _) = _ at hrun
      split at hrun
      next => cases newLvars_error hrun
      next => cases updateAttrs_error hrun

/-! ### When it goes through -/

/-- Whatever is looked into for the inner flowop `p` of a definition is there. Its file is one of
the filesets, and no local variable of it is an indirection. -/
structure InnerGiven (env : DefineEnv) (s : ScriptShm D n) (p : Fin n) : Prop where
  file : ∀ avd, (s.attrs p).avd .filename = some avd →
    ∃ name fileset, avd = .valStr name ∧ env.filesetFind name = some fileset
  iters : ((s.attrs p).avd .iters).isSome
  attrs : (s.flowops.flowop p).foMethods = .library →
    ∀ a ∈ innerAttrs, ((s.attrs p).avd a).isSome
  lvars : (s.flowops.flowop p).foMethods = .composite →
    ∀ q ∈ (s.attrs p).foLvarList, ¬ varHasIndvar (s.vars.var q)

theorem InnerGiven.congr {env : DefineEnv} (h : InnerGiven env s p)
    (hsame : s'.flowops.flowop p = s.flowops.flowop p) (he : Extends s.vars s'.vars)
    (hwithin : (s.attrs p).Within s.vars.requests) : InnerGiven env s' p := by
  have hattrs : s'.attrs p = s.attrs p := congrArg ShmFlowop.foAttrs hsame
  constructor
  · rw [hattrs]
    exact h.file
  · rw [hattrs]
    exact h.iters
  · rw [hattrs, hsame]
    exact h.attrs
  · rw [hattrs, hsame]
    intro hm q hq
    rw [he.var q (hwithin.lvars q hq)]
    exact h.lvars hm q hq

section given

variable {s₀ : ScriptShm D n} {done : List FlowopAttr} {a : FlowopAttr}

theorem updateAttr_given (h : Updated s₀ s p lvars done) (ha : ((s₀.attrs p).avd a).isSome) :
    ∃ s', updateAttr p lvars a s = .ok s' := by
  obtain ⟨avd₀, ha⟩ := Option.isSome_iff_exists.mp ha
  have havd := h.avd a
  rw [ha, Option.map_some] at havd
  unfold updateAttr
  rw [havd]
  exact ⟨_, rfl⟩

theorem updateAttrs_given {l : List FlowopAttr} (h : Updated s₀ s p lvars done)
    (hample : Ample s₀.vars) (hwithin : (s₀.attrs p).Within s₀.vars.requests)
    (hlvars : ∀ q ∈ lvars, q < s₀.vars.requests) (hl : ∀ a ∈ l, ((s₀.attrs p).avd a).isSome) :
    ∃ s', l.foldlM (fun s a => updateAttr p lvars a s) s = .ok s' := by
  induction l generalizing s done with
  | nil => exact ⟨s, rfl⟩
  | cons a l ih =>
    obtain ⟨s₁, hone⟩ := updateAttr_given h (hl a (.head _))
    have h₁ := updateAttr_updated h (hample.extends h.filled.vars) hwithin hlvars hone
    obtain ⟨s', hrest⟩ := ih h₁ fun b hb => hl b (.tail _ hb)
    refine ⟨s', ?_⟩
    rw [List.foldlM_cons, hone]
    exact hrest

theorem updateFilename_given {env : DefineEnv} (hr : Rooted s.vars) (hample : Ample s.vars)
    (hwithin : (s.attrs p).Within s.vars.requests) (hlvars : ∀ q ∈ lvars, q < s.vars.requests)
    (hfile : ∀ avd, (s.attrs p).avd .filename = some avd →
      ∃ name fileset, avd = .valStr name ∧ env.filesetFind name = some fileset) :
    ∃ s', updateFilename env p lvars s = .ok s' := by
  cases havd : (s.attrs p).avd .filename with
  | none =>
    refine ⟨s, ?_⟩
    rw [updateFilename, havd]
  | some avd =>
    obtain ⟨name, fileset, rfl, hfind⟩ := hfile avd havd
    obtain ⟨s₁, hone⟩ := updateAttr_given (.nil hr p lvars) (a := .filename)
      (Option.isSome_iff_exists.mpr ⟨_, havd⟩)
    have h₁ := updateAttr_updated (.nil hr p lvars) hample hwithin hlvars hone
    -- a string stands for itself, whatever the local variables are
    have hname : filenameStr s₁ p = .ok (some name) := by
      have hstr : (s₁.attrs p).avd .filename = some (.valStr name) := by
        rw [h₁.avd .filename, havd]
        rfl
      rw [filenameStr, hstr]
      rfl
    refine ⟨s₁.setFileset p fileset, ?_⟩
    rw [updateFilename, havd]
    change (updateAttr p lvars .filename s >>= _) = _
    rw [hone]
    change (filenameStr s₁ p >>= _) = _
    rw [hname]
    change (match env.filesetFind name with
      | none => _
      | some fileset => _) = _
    rw [hfind]
    rfl

theorem newLvars_given {protoLvars mstrLvars L : List VarPtr} (hr : Rooted s.vars)
    (hample : Ample s.vars) (hproto : ∀ q ∈ protoLvars, q < s.vars.requests)
    (hlvars : ∀ q ∈ mstrLvars, q < s.vars.requests) (hL : L ⊆ protoLvars)
    (hplain : ∀ q ∈ protoLvars, ¬ varHasIndvar (s.vars.var q)) :
    ∃ s', newLvars p protoLvars mstrLvars L s = .ok s' := by
  induction L generalizing s with
  | nil => exact ⟨s, rfl⟩
  | cons l L ih =>
    rcases newLvars_round (p := p) (L := L) hr hample hproto hlvars (hL (.head _)) with
      ⟨-, q, hq, hind⟩ | ⟨newlvar, s₁, hround, hfilled, hr₁, -, -, -, -⟩
    · exact absurd hind (hplain q hq)
    · have hext := hfilled.vars
      rw [hround]
      refine ih hr₁ (hample.extends hext) (fun q hq => (hproto q hq).trans_le hext.requests)
        (fun q hq => (hlvars q hq).trans_le hext.requests) (fun q hq => hL (.tail _ hq)) ?_
      intro q hq
      rw [hext.var q (hproto q hq)]
      exact hplain q hq

theorem fillInner_given {env : DefineEnv} {f m : Fin n} (hr : Rooted s.vars)
    (hample : Ample s.vars) (hwithin : (s.attrs p).Within s.vars.requests)
    (hlvars : ∀ q ∈ (s.attrs m).foLvarList, q < s.vars.requests) (hf : f ≠ p)
    (hinherit : s.attrs p = s.attrs f) (h : InnerGiven env s f) :
    ∃ s', fillInner env f m p s = .ok s' := by
  obtain ⟨s₁, hfile⟩ : ∃ s₁, updateFilename env p (s.attrs m).foLvarList s = .ok s₁ :=
    updateFilename_given hr hample hwithin hlvars (hinherit ▸ h.file)
  have h₁ := updateFilename_updated hr hample hwithin hlvars hfile
  obtain ⟨s₂, hiters⟩ := updateAttr_given h₁ (a := .iters) (hinherit ▸ h.iters)
  have h₂ := updateAttr_updated h₁ (hample.extends h₁.filled.vars) hwithin hlvars hiters
  have hf₂ : s₂.flowops.flowop f = s.flowops.flowop f := h₂.filled.others f hf
  unfold fillInner
  simp only [hfile]
  change ∃ s', (updateAttr p _ .iters s₁ >>= _) = Except.ok s'
  rw [hiters]
  change ∃ s', (match (s₂.flowops.flowop f).foMethods with
    | .composite => _
    | .library => _) = Except.ok s'
  rw [hf₂]
  cases hm : (s.flowops.flowop f).foMethods with
  | library => exact updateAttrs_given h₂ hample hwithin hlvars (hinherit ▸ h.attrs hm)
  | composite =>
    have hle := h₂.filled.vars.requests
    have hattrs₂ : s₂.attrs f = s.attrs f := by
      rw [ScriptShm.attrs, ScriptShm.attrs, hf₂]
    change ∃ s', newLvars p (s₂.attrs p).foLvarList _ (s₂.attrs f).foLvarList _ = Except.ok s'
    rw [h₂.lvarList, hattrs₂, ← hinherit]
    have hplain : ∀ q ∈ (s.attrs p).foLvarList, ¬ varHasIndvar (s₂.vars.var q) := by
      intro q hq
      rw [h₂.filled.vars.var q (hwithin.lvars q hq)]
      exact h.lvars hm q (hinherit ▸ hq)
    exact newLvars_given h₂.rooted (hample.extends h₂.filled.vars)
      (fun q hq => (hwithin.lvars q hq).trans_le hle)
      (fun q hq => (hlvars q hq).trans_le hle) (List.Subset.refl _) hplain

end given

end fill

end Filebench
