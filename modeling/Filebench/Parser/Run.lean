import Filebench.Flowop.Abort
import Filebench.Vars.Binding

/-! # The run command

`run` takes the session through the creation of the filesets and the processes, a pause, a
snapshot and a shutdown. Its form with a variable has a body of its own. What the other parts of
the program do is left open; the session keeps a record of the calls to them. -/
namespace Filebench

open Fuel

/-- The calls of the session to the rest of the program. -/
inductive SessionCall where
  | randdistInit
  | filesetCreateset
  | procflowInit
  | unlockRunLock
  | procflowAllstarted
  | ipcIsmcreate
  | setStarttime
  | eventgenReset
  | statsClear
  | pause (timeslept : ℕ)
  | pauseForever
  | parserStatssnap
  | procflowShutdown
  | ipcIsmdelete
  | filebenchShutdown
  deriving DecidableEq, Repr

/-- What comes from the other parts of the program, by the calls so far: whether the last call
succeeded, what the threads wrote to the abort flag, and for how many seconds of a pause they
leave the flag alone. -/
structure Outside where
  succeeds : List SessionCall → Bool
  abort : List SessionCall → Option FAbort
  abortIn : List SessionCall → Option ℕ

/-- `required` tells whether `shm_required` is set. -/
structure Session (D σ : Type) where
  shm : VarShm D
  rand : σ
  filecreateDone : Bool
  fAbort : FAbort
  firstErr : Bool
  rmode : RMode
  required : Bool
  calls : List SessionCall

section

variable {D σ α β : Type}

/-- A command of the session. It fails where the program ends. -/
abbrev SessionM (D σ α : Type) := Comp (Session D σ) (Session D σ) α

def call (out : Outside) (e : SessionCall) : SessionM D σ Bool := fun s =>
  let calls := s.calls ++ [e]
  some (.ok (out.succeeds calls,
    { s with calls := calls, fAbort := (out.abort calls).getD s.fAbort }))

def stop (e : SessionCall) : SessionM D σ α := fun s =>
  some (.error { s with calls := s.calls ++ [e] })

/-- `filebench_shutdown(1)`, which comes back when the processes were shut down already. -/
def filebenchShutdown : SessionM D σ Unit := do
  if (← get).fAbort = .fini then pure ()
  else
    modify fun s => { s with fAbort := .error }
    stop .filebenchShutdown

/-- The program is shut down unless a call succeeded. -/
def orShutdown (succeeded : Bool) : SessionM D σ Unit :=
  if succeeded then pure () else filebenchShutdown

def parserFilesetCreate (out : Outside) : SessionM D σ Unit := do
  if (← get).filecreateDone then pure ()
  else
    modify fun s => { s with filecreateDone := true }
    let _ ← call out .randdistInit
    orShutdown (← call out .filesetCreateset)

/-- The memory for the flowops, when they need some. -/
def ismcreate (out : Outside) : SessionM D σ Bool := do
  if (← get).required then call out .ipcIsmcreate else pure true

def parserProcCreate (out : Outside) : SessionM D σ Unit := do
  modify fun s => { s with firstErr := false, fAbort := .ok }
  orShutdown (← call out .procflowInit)
  let _ ← call out .unlockRunLock
  if ← call out .procflowAllstarted then
    if ← ismcreate out then
      let _ ← call out .setStarttime
      let _ ← call out .eventgenReset
      pure ()
    else pure ()
  else pure ()

def parserProcShutdown (out : Outside) : SessionM D σ Unit := do
  modify fun s => { s with filecreateDone := false }
  let _ ← call out .procflowShutdown
  if (← get).required then
    let _ ← call out .ipcIsmdelete
  let _ ← call out .eventgenReset

/-- The loop of a pause with a time, after `timeslept` seconds. -/
def pauseTimed (abortIn : Option ℕ) : ℕ → ℕ → ℕ
  | 0, timeslept => timeslept
  | left + 1, timeslept =>
    if abortIn.any (· ≤ timeslept + 1) then timeslept + 1
    else pauseTimed abortIn left (timeslept + 1)

/-- Without a time a pause lasts until the abort flag is raised. -/
def parserPause (out : Outside) (ptime : ℤ) : SessionM D σ ℕ := do
  let s ← get
  let abortIn := out.abortIn s.calls
  if s.rmode = .timeout ∧ 0 < ptime then
    let timeslept := pauseTimed abortIn ptime.toNat 0
    let _ ← call out (.pause timeslept)
    pure timeslept
  else
    match abortIn with
    | some secs =>
      let _ ← call out (.pause (max 1 secs))
      pure (max 1 secs)
    | none => stop .pauseForever

/-- The part that the two bodies share. -/
def runPause (out : Outside) (runtime : ℤ) : SessionM D σ Unit := do
  if (← get).fAbort ≠ .ok then pure ()
  else
    let _ ← call out .statsClear
    let _ ← parserPause out runtime
    let _ ← call out .parserStatssnap
    parserProcShutdown out

/-- The conversion of `fbint_t` to `int`. -/
def intOfFbInt (n : FbInt) : ℤ := (n.setWidth 32).toInt

def parserRun (out : Outside) (qty : FbInt) : SessionM D σ Unit := do
  parserFilesetCreate out
  parserProcCreate out
  runPause out (intOfFbInt qty)

/-- An evaluation in the session. -/
def evaluate (x : Eval σ α) : SessionM D σ α := fun s =>
  match (x s.rand : Option (Except Fault (α × σ))) with
  | none => none
  | some (.error _) => some (.error s)
  | some (.ok (a, rand)) => some (.ok (a, { s with rand := rand }))

/-- `var_ref_attr` in the session. -/
def refAttr (fill : Var D → Option (Var D)) (name : CString) : SessionM D σ (Option (Avd D)) :=
  fun s =>
    match varRef fill s.shm name with
    | (some p, shm) =>
      let (avd, shm) := avdAllocVarPtr shm p
      some (.ok (avd, { s with shm := shm }))
    | (none, shm) => (do filebenchShutdown; pure none : SessionM D σ _) { s with shm := shm }

def parserRunVariable [DoubleOps D] (out : Outside) (env : RandEnv D σ)
    (fill : Var D → Option (Var D)) (fuel : ℕ) (tgt1 : CString) : SessionM D σ Unit := do
  match ← refAttr fill tgt1 with
  | none => pure ()
  | some integer =>
    let runtime ← fun s => evaluate (avdGetInt env s.shm fuel integer) s
    runPause out (intOfFbInt runtime)

/-! ## The record of a command -/

/-- Where a command ends, whether or not the program does. -/
def endState : Outcome (Session D σ) (Session D σ) α → Session D σ
  | .ok (_, s) => s
  | .error s => s

/-- The command ends, and the calls it makes meet `okP` when the program goes on after it and
`errP` when the program ends. -/
def Emits (f : ℕ → SessionM D σ α) (okP errP : List SessionCall → Prop) : Prop :=
  ∀ s, ∃ r l, Gives f s r ∧ (endState r).calls = s.calls ++ l ∧
    match r with
    | .ok _ => okP l
    | .error _ => errP l

variable {f : ℕ → SessionM D σ α} {g : ℕ → α → SessionM D σ β}
  {okP errP okP' errP' : List SessionCall → Prop}

theorem Emits.bind {okQ errQ : List SessionCall → Prop} (hf : Emits f okP errP)
    (hg : ∀ a, Emits (fun n => g n a) okP' errP') (herr : ∀ l, errP l → errQ l)
    (hok : ∀ l l', okP l → okP' l' → okQ (l ++ l'))
    (herr' : ∀ l l', okP l → errP' l' → errQ (l ++ l')) :
    Emits (fun n => f n >>= g n) okQ errQ := by
  intro s
  obtain ⟨r, l, hr, hcalls, hl⟩ := hf s
  cases r with
  | error s' => exact ⟨.error s', l, hr.bind_error, hcalls, herr l hl⟩
  | ok p =>
    obtain ⟨a, s'⟩ := p
    obtain ⟨r', l', hr', hcalls', hl'⟩ := hg a s'
    have hcalls : s'.calls = s.calls ++ l := hcalls
    refine ⟨r', l ++ l', hr.bind hr', ?_, ?_⟩
    · rw [hcalls', hcalls, List.append_assoc]
    · cases r' with
      | error s'' => exact herr' l l' hl hl'
      | ok p' => exact hok l l' hl hl'

theorem Emits.mono {okQ errQ : List SessionCall → Prop} (hf : Emits f okP errP)
    (hok : ∀ l, okP l → okQ l) (herr : ∀ l, errP l → errQ l) : Emits f okQ errQ := by
  intro s
  obtain ⟨r, l, hr, hcalls, hl⟩ := hf s
  refine ⟨r, l, hr, hcalls, ?_⟩
  cases r with
  | error s' => exact herr l hl
  | ok p => exact hok l hl

theorem emits_call {P : List SessionCall → Prop} (out : Outside) {e : SessionCall} (h : P [e]) :
    Emits (fun _ => (call out e : SessionM D σ Bool)) P errP :=
  fun _ => ⟨_, [e], gives_const rfl, rfl, h⟩

theorem emits_stop {P : List SessionCall → Prop} {e : SessionCall} (h : P [e]) :
    Emits (fun _ => (stop e : SessionM D σ α)) okP P :=
  fun _ => ⟨_, [e], gives_const rfl, rfl, h⟩

theorem emits_pure {P : List SessionCall → Prop} (h : P []) (a : α) :
    Emits (fun _ => (pure a : SessionM D σ α)) P errP :=
  fun _ => ⟨_, [], gives_const rfl, (List.append_nil _).symm, h⟩

theorem emits_get {P : List SessionCall → Prop} (h : P []) :
    Emits (fun _ => (get : SessionM D σ (Session D σ))) P errP :=
  fun _ => ⟨_, [], gives_const rfl, (List.append_nil _).symm, h⟩

theorem emits_modify {P : List SessionCall → Prop} (h : P []) {u : Session D σ → Session D σ}
    (hu : ∀ s, (u s).calls = s.calls) :
    Emits (fun _ => (modify u : SessionM D σ Unit)) P errP :=
  fun s => ⟨_, [], gives_const rfl, (hu s).trans (List.append_nil _).symm, h⟩

/-! ### Conditions that hold of a record when they hold of its parts -/

structure Closed (P : List SessionCall → Prop) : Prop where
  nil : P []
  append : ∀ l l', P l → P l' → P (l ++ l')

abbrev Keeps (P : List SessionCall → Prop) (x : SessionM D σ α) : Prop :=
  Emits (fun _ => x) P P

variable {P : List SessionCall → Prop} {x : SessionM D σ α} {y : α → SessionM D σ β}

theorem Keeps.bind (hP : Closed P) (hx : Keeps P x) (hy : ∀ a, Keeps P (y a)) :
    Keeps P (x >>= y) :=
  Emits.bind hx hy (fun _ h => h) hP.append hP.append

theorem keeps_pure (hP : Closed P) (a : α) : Keeps P (pure a : SessionM D σ α) :=
  emits_pure hP.nil a

theorem keeps_call_bind (hP : Closed P) {out : Outside} {e : SessionCall} (h : P [e])
    {y : Bool → SessionM D σ β} (hy : ∀ b, Keeps P (y b)) : Keeps P (call out e >>= y) :=
  Keeps.bind hP (emits_call out h) hy

theorem keeps_get_bind (hP : Closed P) {y : Session D σ → SessionM D σ β}
    (hy : ∀ s, Keeps P (y s)) : Keeps P (get >>= y) :=
  Keeps.bind hP (emits_get hP.nil) hy

theorem keeps_modify_bind (hP : Closed P) {u : Session D σ → Session D σ}
    (hu : ∀ s, (u s).calls = s.calls) {y : Unit → SessionM D σ β} (hy : ∀ a, Keeps P (y a)) :
    Keeps P (modify u >>= y) :=
  Keeps.bind hP (emits_modify hP.nil hu) hy

end

/-! ## The two forms of the command -/

/-- The calls of a creation, or of one that ends the program. -/
def SessionCall.Creates : SessionCall → Prop
  | .procflowInit | .filebenchShutdown => True
  | _ => False

def Creating (l : List SessionCall) : Prop := ∃ e ∈ l, e.Creates

def NotCreating (l : List SessionCall) : Prop := ∀ e ∈ l, ¬ e.Creates

def AnyCalls (_ : List SessionCall) : Prop := True

theorem anyCalls_closed : Closed AnyCalls := ⟨trivial, fun _ _ _ _ => trivial⟩

theorem notCreating_closed : Closed NotCreating := by
  constructor
  · nofun
  · intro l l' h h' e he
    rcases List.mem_append.mp he with he | he
    · exact h e he
    · exact h' e he

theorem notCreating_single {e : SessionCall} (h : ¬ e.Creates) : NotCreating [e] := by
  intro e' he
  rwa [List.mem_singleton.mp he]

section

variable {D σ : Type} (out : Outside) {P : List SessionCall → Prop}

/-- Conditions that the calls of the common part meet. -/
structure Allows (P : List SessionCall → Prop) : Prop extends Closed P where
  single : ∀ e : SessionCall, ¬ e.Creates → P [e]

theorem anyCalls_allows : Allows AnyCalls := ⟨anyCalls_closed, fun _ _ => trivial⟩

theorem notCreating_allows : Allows NotCreating :=
  ⟨notCreating_closed, fun _ => notCreating_single⟩

theorem keeps_parserProcShutdown (hP : Allows P) :
    Keeps P (parserProcShutdown out : SessionM D σ Unit) := by
  unfold parserProcShutdown
  apply keeps_modify_bind hP.toClosed
  · intro s
    rfl
  intro _
  apply keeps_call_bind hP.toClosed (hP.single _ id)
  intro _
  apply keeps_get_bind hP.toClosed
  intro s
  split_ifs
  · apply keeps_call_bind hP.toClosed (hP.single _ id)
    intro _
    apply keeps_call_bind hP.toClosed (hP.single _ id)
    intro _
    exact keeps_pure hP.toClosed ()
  · apply keeps_call_bind hP.toClosed (hP.single _ id)
    intro _
    exact keeps_pure hP.toClosed ()

theorem keeps_parserPause (hP : Allows P) (ptime : ℤ) :
    Keeps P (parserPause out ptime : SessionM D σ ℕ) := by
  apply keeps_get_bind hP.toClosed
  intro s
  dsimp only
  split_ifs
  · apply keeps_call_bind hP.toClosed (hP.single _ id)
    intro _
    exact keeps_pure hP.toClosed _
  · split
    · apply keeps_call_bind hP.toClosed (hP.single _ id)
      intro _
      exact keeps_pure hP.toClosed _
    · exact emits_stop (hP.single _ id)

theorem keeps_runPause (hP : Allows P) (runtime : ℤ) :
    Keeps P (runPause out runtime : SessionM D σ Unit) := by
  apply keeps_get_bind hP.toClosed
  intro s
  split_ifs
  · exact keeps_pure hP.toClosed ()
  · apply keeps_call_bind hP.toClosed (hP.single _ id)
    intro _
    apply Keeps.bind hP.toClosed (keeps_parserPause out hP runtime)
    intro _
    apply keeps_call_bind hP.toClosed (hP.single _ id)
    intro _
    exact keeps_parserProcShutdown out hP

theorem Creating.after (l : List SessionCall) {l' : List SessionCall} (h : Creating l') :
    Creating (l ++ l') := by
  obtain ⟨e, he, hc⟩ := h
  exact ⟨e, List.mem_append_right l he, hc⟩

theorem Creating.before {l : List SessionCall} (h : Creating l) (l' : List SessionCall) :
    Creating (l ++ l') := by
  obtain ⟨e, he, hc⟩ := h
  exact ⟨e, List.mem_append_left l' he, hc⟩

theorem creating_single {e : SessionCall} (h : e.Creates) : Creating [e] :=
  ⟨e, List.mem_singleton_self e, h⟩

section bind

variable {α β : Type} {f : ℕ → SessionM D σ α} {g : ℕ → α → SessionM D σ β}

/-- What follows something that does not end the program, or only in a creation. -/
theorem Emits.after {okP : List SessionCall → Prop} (hok : ∀ l l', okP l' → okP (l ++ l'))
    (hf : Emits f AnyCalls Creating) (hg : ∀ a, Emits (fun n => g n a) okP Creating) :
    Emits (fun n => f n >>= g n) okP Creating := by
  apply hf.bind hg
  · intro l h
    exact h
  · intro l l' _ h
    exact hok l l' h
  · intro l l' _ h
    exact h.after l

/-- What comes after a creation does not matter. -/
theorem Emits.before (hf : Emits f Creating Creating)
    (hg : ∀ a, Emits (fun n => g n a) AnyCalls AnyCalls) :
    Emits (fun n => f n >>= g n) Creating Creating := by
  apply hf.bind hg
  · intro l h
    exact h
  · intro l l' h _
    exact h.before l'
  · intro l l' h _
    exact h.before l'

end bind

theorem emits_filebenchShutdown :
    Emits (fun _ => (filebenchShutdown : SessionM D σ Unit)) AnyCalls Creating := by
  unfold filebenchShutdown
  apply Emits.after (fun _ _ _ => trivial) (emits_get trivial)
  intro s
  split_ifs
  · exact emits_pure trivial ()
  · apply Emits.after (fun _ _ _ => trivial)
    · exact emits_modify trivial fun _ => rfl
    · intro _
      exact emits_stop (creating_single trivial)

theorem emits_orShutdown (succeeded : Bool) :
    Emits (fun _ => (orShutdown succeeded : SessionM D σ Unit)) AnyCalls Creating := by
  unfold orShutdown
  split_ifs
  · exact emits_pure trivial ()
  · exact emits_filebenchShutdown

theorem emits_parserFilesetCreate :
    Emits (fun _ => (parserFilesetCreate out : SessionM D σ Unit)) AnyCalls Creating := by
  unfold parserFilesetCreate
  apply Emits.after (fun _ _ _ => trivial) (emits_get trivial)
  intro s
  split_ifs
  · exact emits_pure trivial ()
  · apply Emits.after (fun _ _ _ => trivial)
    · exact emits_modify trivial fun _ => rfl
    intro _
    apply Emits.after (fun _ _ _ => trivial) (emits_call out trivial)
    intro _
    apply Emits.after (fun _ _ _ => trivial) (emits_call out trivial)
    intro created
    exact emits_orShutdown created

theorem keeps_ismcreate : Keeps AnyCalls (ismcreate out : SessionM D σ Bool) := by
  apply keeps_get_bind anyCalls_closed
  intro s
  split_ifs
  · exact emits_call out trivial
  · exact keeps_pure anyCalls_closed true

theorem emits_parserProcCreate :
    Emits (fun _ => (parserProcCreate out : SessionM D σ Unit)) Creating Creating := by
  have hany := anyCalls_closed
  unfold parserProcCreate
  apply Emits.after (fun _ _ h => h.after _)
  · exact emits_modify trivial fun _ => rfl
  intro _
  apply Emits.before (emits_call out (creating_single (e := .procflowInit) trivial))
  intro inited
  apply Keeps.bind hany ((emits_orShutdown inited).mono (fun _ h => h) fun _ _ => trivial)
  intro _
  apply keeps_call_bind hany trivial
  intro _
  apply keeps_call_bind hany trivial
  intro started
  split_ifs
  · apply Keeps.bind hany (keeps_ismcreate out)
    intro created
    split_ifs
    · apply keeps_call_bind hany trivial
      intro _
      apply keeps_call_bind hany trivial
      intro _
      exact keeps_pure hany ()
    · exact keeps_pure hany ()
  · exact keeps_pure hany ()

/-- A run with a number creates the processes, or the program ends. -/
theorem emits_parserRun (qty : FbInt) :
    Emits (fun _ => (parserRun out qty : SessionM D σ Unit)) Creating Creating := by
  apply Emits.after (fun _ _ h => h.after _) (emits_parserFilesetCreate out)
  intro _
  apply Emits.before (emits_parserProcCreate out)
  intro _
  exact keeps_runPause out anyCalls_allows _

end

/-! ### With a variable -/

section

variable {D σ : Type}

theorem varGetNum_congr {V : Type} {ar : Arith D V} {env : RandEnv D σ} {shm shm' : VarShm D}
    (h : shm'.var = shm.var) (fuel : ℕ) (p : VarPtr) :
    varGetNum ar env shm' fuel p = varGetNum ar env shm fuel p := by
  induction fuel generalizing p with
  | zero => rfl
  | succ fuel ih =>
    rw [varGetNum, varGetNum, h, funext ih]

theorem gives_evaluate {α : Type} {x : Session D σ → ℕ → Eval σ α} {s : Session D σ} {a : α}
    {rand : σ} (h : Gives (x s) s.rand (.ok (a, rand))) :
    Gives (fun n => (fun s => evaluate (x s n) s : SessionM D σ α)) s
      (.ok (a, { s with rand := rand })) := by
  obtain ⟨N, hN⟩ := h
  refine ⟨N, fun n hn => ?_⟩
  have hx : (x s n s.rand : Option (Except Fault (α × σ))) = some (.ok (a, rand)) := hN n hn
  simp only [evaluate, hx]

theorem gives_refAttr (fill : Var D → Option (Var D)) {s : Session D σ} {name : CString}
    {p : VarPtr} (hfind : varFind s.shm name = some p) :
    Gives (fun _ => refAttr fill name) s (.ok ((avdAllocVarPtr s.shm p).1,
      { s with shm := (avdAllocVarPtr s.shm p).2 })) := by
  apply gives_const
  simp only [refAttr, varRef, hfind]

variable [DoubleOps D] (out : Outside) (env : RandEnv D σ) (fill : Var D → Option (Var D))

/-- A run with a variable creates nothing. -/
theorem parserRunVariable_calls {s : Session D σ} {name : CString} {p : VarPtr} {n : FbInt}
    {rand : σ} (hfind : varFind s.shm name = some p)
    (hholds : varHasInteger (s.shm.var p) ∨ varHasBinop (s.shm.var p))
    (hop : Operates (s.shm.var p))
    (hval : Gives (fun fuel => varGetInt env s.shm fuel p) s.rand (.ok (n, rand))) :
    ∃ r l, Gives (fun fuel => parserRunVariable out env fill fuel name) s r ∧
      (endState r).calls = s.calls ++ l ∧ NotCreating l := by
  have href := gives_refAttr fill hfind
  unfold avdAllocVarPtr at href
  split at href
  next shm hreq =>
    have hend : Gives (fun _ => (pure () : SessionM D σ Unit)) { s with shm := shm } _ :=
      gives_pure () _
    exact ⟨_, [], href.bind hend, (List.append_nil _).symm, notCreating_closed.nil⟩
  next shm hreq =>
    have hvar : shm.var = s.shm.var := by
      obtain ⟨-, rfl⟩ := Prod.mk.inj hreq
      rfl
    rw [← hvar] at hholds hop
    have heq : ∀ fuel, avdGetInt env shm (fuel + 1) (avdVarPtr p (shm.var p)) =
        varGetInt env s.shm (fuel + 1) p := by
      intro fuel
      rw [(avdVarPtr_sees hop p).avdGetInt hholds fuel]
      exact varGetNum_congr hvar _ p
    have hget : Gives (fun fuel => avdGetInt env shm fuel (avdVarPtr p (shm.var p)))
        s.rand (.ok (n, rand)) := by
      apply Gives.of_succ
      simp only [heq]
      exact hval.succ
    obtain ⟨r, l, hr, hcalls, hl⟩ := keeps_runPause out notCreating_allows (intOfFbInt n)
      { s with shm := shm, rand := rand }
    refine ⟨r, l, href.bind ?_, hcalls, ?_⟩
    · exact (gives_evaluate (s := { s with shm := shm }) hget).bind hr
    · cases r with
      | ok p => exact hl
      | error s' => exact hl

/-- Whatever the session, the two forms never make the same calls. -/
theorem parserRun_variable_differs {s : Session D σ} {name : CString} {p : VarPtr} {n : FbInt}
    {rand : σ} (hfind : varFind s.shm name = some p)
    (hholds : varHasInteger (s.shm.var p) ∨ varHasBinop (s.shm.var p))
    (hop : Operates (s.shm.var p))
    (hval : Gives (fun fuel => varGetInt env s.shm fuel p) s.rand (.ok (n, rand))) :
    ∃ r r', Gives (fun fuel => parserRunVariable out env fill fuel name) s r ∧
      Gives (fun _ => parserRun out n) s r' ∧ (endState r).calls ≠ (endState r').calls := by
  obtain ⟨r, l, hr, hcalls, hl⟩ := parserRunVariable_calls out env fill hfind hholds hop hval
  obtain ⟨r', l', hr', hcalls', hl'⟩ := emits_parserRun out n s
  refine ⟨r, r', hr, hr', ?_⟩
  rw [hcalls, hcalls']
  intro heq
  have hcreating : Creating l' := by
    cases r' with
    | ok p => exact hl'
    | error s' => exact hl'
  obtain ⟨e, he, hcreates⟩ := hcreating
  rw [← List.append_cancel_left heq] at he
  exact hl e he hcreates

end

/-- A session with `$v = 5`, in which everything goes well and no thread stops the run. -/
def fiveSession : Session ℚ Unit :=
  ⟨(SetOp.apply noVars (.integer ['v'] 5)).2, (), false, .ok, false, .timeout, false, []⟩

def calm : Outside := ⟨fun _ => true, fun _ => none, fun _ => none⟩

theorem parserRun_variable_differs_five : ∃ r r',
    Gives (fun fuel => @parserRunVariable ℚ Unit rationals calm noRandom noFill fuel ['v'])
      fiveSession r ∧
    Gives (fun _ => parserRun calm 5) fiveSession r' ∧
    (endState r).calls ≠ (endState r').calls := by
  have hnot : Operates (fiveSession.shm.var 0) := operates_of_not (by decide)
  exact @parserRun_variable_differs ℚ Unit rationals calm noRandom noFill fiveSession ['v'] 0 5 ()
    rfl (.inl rfl) hnot ⟨1, fun fuel hfuel => by
      obtain ⟨k, rfl⟩ := Nat.exists_eq_add_of_le' hfuel
      rfl⟩

/-- `run $v` and `run 5` in that session. -/
theorem parserRun_five : ∃ r r',
    Gives (fun fuel => @parserRunVariable ℚ Unit rationals calm noRandom noFill fuel ['v'])
      fiveSession r ∧
    Gives (fun _ => parserRun calm 5) fiveSession r' ∧
    (endState r).calls =
      [.statsClear, .pause 5, .parserStatssnap, .procflowShutdown, .eventgenReset] ∧
    (endState r').calls =
      [.randdistInit, .filesetCreateset, .procflowInit, .unlockRunLock, .procflowAllstarted,
        .setStarttime, .eventgenReset, .statsClear, .pause 5, .parserStatssnap,
        .procflowShutdown, .eventgenReset] := by
  have hrun : ∃ r, ∀ k, @parserRunVariable ℚ Unit rationals calm noRandom noFill (k + 1) ['v']
      fiveSession = some r ∧ (endState r).calls =
        [.statsClear, .pause 5, .parserStatssnap, .procflowShutdown, .eventgenReset] :=
    ⟨_, fun k => ⟨rfl, rfl⟩⟩
  obtain ⟨r, hr⟩ := hrun
  refine ⟨r, _, ⟨1, fun fuel hfuel => ?_⟩, gives_const rfl, (hr 0).2, rfl⟩
  obtain ⟨k, rfl⟩ := Nat.exists_eq_add_of_le' hfuel
  exact (hr k).1

end Filebench
