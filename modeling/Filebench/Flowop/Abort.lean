import Mathlib.Tactic

/-! # The abort flag of a run

Worker threads run their lists of flowops, basic ones and nested composite ones, and one thread
watches the processes. All of them test `shm_f_abort` and write it, each at its own time. What
a basic flowop returns is left open. -/
namespace Filebench

/-- `shm_f_abort` -/
inductive FAbort where
  | ok
  | error
  | done
  | rsrc
  | fini
  deriving DecidableEq, Repr

/-- `shm_rmode` -/
inductive RMode where
  | timeout
  | q1stdone
  | qalldone
  deriving DecidableEq, Repr

/-- What `fo_func` returns. -/
inductive FuncRet where
  | ok
  | error
  | norsc
  | done
  | other
  deriving DecidableEq, Repr

/-- A composite flowop has a list of inner flowops. -/
inductive Fop where
  | basic
  | composite (inner : List Fop)

/-- A loop over flowops: the current one first, and how many more times it is to be executed. -/
structure Frame where
  todo : List Fop
  left : ℕ

/-- Where a worker stands. The outermost frame of a stack is that of the main loop, the others
are those of composite flowops. -/
inductive WorkerPc where
  | main (todo : List Fop)
  | call (f : Fop) (stack : List Frame)
  | composite (todo : List Fop) (stack : List Frame)
  | ret (r : FuncRet) (stack : List Frame)
  | exit

structure Worker where
  fops : List Fop
  tfAbort : Bool
  pc : WorkerPc

inductive WorkerAct where
  | quiet
  | start (count : ℕ)
  | finish (r : FuncRet)
  | proceed
  deriving DecidableEq, Repr

/-- The head of the loop over the iterations of a flowop. At its end the loop over the flowops
goes on, from the beginning again in the main loop. -/
def iterate (fops : List Fop) (frame : Frame) (stack : List Frame) : WorkerPc :=
  match frame.todo, frame.left with
  | [], _ => .exit
  | f :: rest, left + 1 => .call f (⟨f :: rest, left⟩ :: stack)
  | _ :: rest, 0 =>
    if stack.isEmpty then .main (if rest.isEmpty then fops else rest) else .composite rest stack

/-- What the main loop does with the value that a flowop returned: the worker after it and what
it writes to the abort flag. -/
def mainReturned (rmode : RMode) (w : Worker) (frame : Frame) : FuncRet → Worker × Option FAbort
  | .ok => ({ w with pc := iterate w.fops frame [] }, none)
  | .error => ({ w with pc := .exit, tfAbort := true }, some .error)
  | .norsc =>
    ({ w with pc := .exit, tfAbort := true },
      match rmode with
      | .q1stdone => some .rsrc
      | .qalldone => none
      | .timeout => some .error)
  | .done => ({ w with pc := .exit, tfAbort := true }, some .done)
  | .other => ({ w with pc := .exit }, some .error)

/-- `flowop_composite` goes on after any other value. -/
def compositeReturned (fops : List Fop) (frame : Frame) (stack : List Frame) : FuncRet → WorkerPc
  | .done => .ret .done stack
  | .norsc => .ret .norsc stack
  | .error => .ret .error stack
  | _ => iterate fops frame stack

/-- One step of `flowop_start` or of `flowop_composite`. -/
def Worker.next (fAbort : FAbort) (rmode : RMode) (w : Worker) :
    WorkerAct → Option (Worker × Option FAbort)
  | .quiet =>
    match w.pc with
    | .main _ => if w.tfAbort ∨ fAbort ≠ .ok then some ({ w with pc := .exit }, none)
      else some (w, none)
    | _ => none
  | .start count =>
    match w.pc with
    | .main todo =>
      if w.tfAbort ∨ fAbort ≠ .ok then some ({ w with pc := .exit }, none)
      else some ({ w with pc := iterate w.fops ⟨todo, count⟩ [] }, none)
    | .composite (f :: rest) stack =>
      if w.tfAbort ∨ fAbort ≠ .ok then some ({ w with pc := .ret .done stack }, none)
      else some ({ w with pc := iterate w.fops ⟨f :: rest, count⟩ stack }, none)
    | _ => none
  | .finish r =>
    match w.pc with
    | .call .basic stack => some ({ w with pc := .ret r stack }, none)
    | _ => none
  | .proceed =>
    match w.pc with
    | .call (.composite inner) stack => some ({ w with pc := .composite inner stack }, none)
    | .composite [] stack => some ({ w with pc := .ret .ok stack }, none)
    | .ret r [frame] => some (mainReturned rmode w frame r)
    | .ret r (frame :: stack) => some ({ w with pc := compositeReturned w.fops frame stack r }, none)
    | _ => none

/-- `procflow_createnwait`: waiting for a process to exit, then with the lock after the test of
the abort flag, then with the status of the process. -/
inductive Watcher where
  | wait
  | locked
  | status
  | exit
  deriving DecidableEq, Repr

structure RunState where
  fAbort : FAbort
  rmode : RMode
  procsRunning : ℕ
  watcher : Watcher
  worker : ℕ → Worker

inductive RunEvent where
  | worker (t : ℕ) (act : WorkerAct)
  | childExit
  | testRunning
  | status (normal : Bool)
  | procsRunning (n : ℕ)
  deriving DecidableEq, Repr

/-- `filebench_shutdown` sets the flag before it stops the processes. -/
def RunState.next (s : RunState) : RunEvent → Option RunState
  | .worker t act =>
    ((s.worker t).next s.fAbort s.rmode act).map fun r =>
      { s with worker := Function.update s.worker t r.1, fAbort := r.2.getD s.fAbort }
  | .childExit =>
    if s.watcher = .wait then
      some { s with watcher := if s.fAbort ≠ .ok then .exit else .locked }
    else none
  | .testRunning =>
    if s.watcher = .locked then
      if s.procsRunning = 0 then some { s with watcher := .exit, fAbort := .rsrc }
      else some { s with watcher := .status }
    else none
  | .status normal =>
    if s.watcher = .status then
      if normal then some { s with watcher := .wait }
      else some { s with watcher := .exit, fAbort := if s.fAbort = .fini then .fini else .error }
    else none
  | .procsRunning n => some { s with procsRunning := n }

inductive AbortRun (ok : RunState → RunEvent → Prop) : RunState → RunState → Prop where
  | refl (s) : AbortRun ok s s
  | tail {s u v e} : AbortRun ok s u → ok u e → u.next e = some v → AbortRun ok s v

/-- `stats_snap` and the dumps print nothing after an error. -/
def statsPrinted (fAbort : FAbort) : Bool := fAbort ≠ .error

/-- A run before the workers' first flowops. -/
structure RunStart (s : RunState) : Prop where
  fAbort : s.fAbort = .ok
  main : ∀ t, (s.worker t).pc = .main (s.worker t).fops
  watcher : s.watcher = .wait

/-! ## What overwrites the flag -/

/-- Values on which the main loop ends a run without an error. -/
def Ends (rmode : RMode) (r : FuncRet) : Prop := r = .done ∨ r = .norsc ∧ rmode = .q1stdone

/-- The worker is about to hand such a value to its main loop. -/
def Ending (rmode : RMode) (w : Worker) : Prop := ∃ r stack, w.pc = .ret r stack ∧ Ends rmode r

/-- The steps that set the flag to an error. -/
def SetsError (s : RunState) : RunEvent → Prop
  | .worker t .proceed => ∃ r frame, (s.worker t).pc = .ret r [frame] ∧
      (r = .error ∨ r = .other ∨ r = .norsc ∧ s.rmode = .timeout)
  | .status normal => normal = false
  | _ => False

/-- While the flag tells an error, no basic flowop ends the run without one, no composite flowop
comes to its test of the flag and the watcher does not find the last process gone; and when the
error is set, no worker is on its way to its main loop with such an end. -/
def Undisturbed (s : RunState) (e : RunEvent) : Prop :=
  (s.fAbort = .error → match e with
    | .worker _ (.finish r) => ¬ Ends s.rmode r
    | .worker t (.start _) => ∀ f rest stack, (s.worker t).pc ≠ .composite (f :: rest) stack
    | .testRunning => s.procsRunning ≠ 0
    | _ => True) ∧
  (SetsError s e → ∀ t, ¬ Ending s.rmode (s.worker t))

/-- A run in which an error was set, with nobody about to overwrite it. -/
structure ErrorInv (s : RunState) : Prop where
  error : s.fAbort = .error
  ending : ∀ t, ¬ Ending s.rmode (s.worker t)

theorem iterate_ne_ret (fops : List Fop) (frame : Frame) (stack : List Frame) (r : FuncRet)
    (stack' : List Frame) : iterate fops frame stack ≠ .ret r stack' := by
  unfold iterate
  split
  · nofun
  · nofun
  · split_ifs <;> nofun

theorem mainReturned_ne_ret (rmode : RMode) (w : Worker) (frame : Frame) (r r' : FuncRet)
    (stack : List Frame) : (mainReturned rmode w frame r).1.pc ≠ .ret r' stack := by
  cases r with
  | ok => exact iterate_ne_ret _ _ _ _ _
  | _ => nofun

theorem compositeReturned_ret {fops : List Fop} {frame : Frame} {stack stack' : List Frame}
    {r r' : FuncRet} (h : compositeReturned fops frame stack r = .ret r' stack') : r' = r := by
  cases r with
  | ok => exact absurd h (iterate_ne_ret _ _ _ _ _)
  | other => exact absurd h (iterate_ne_ret _ _ _ _ _)
  | _ =>
    cases h
    rfl

/-- A value that ends the run comes from a basic flowop, from the test of a composite flowop, or
from an inner flowop. -/
theorem Worker.next_ending {fAbort : FAbort} {rmode : RMode} {w w' : Worker} {act : WorkerAct}
    {write : Option FAbort} (h : w.next fAbort rmode act = some (w', write))
    (hend : Ending rmode w') :
    Ending rmode w ∨ (∃ r, act = .finish r ∧ Ends rmode r) ∨
      ∃ count f rest stack, act = .start count ∧ w.pc = .composite (f :: rest) stack := by
  obtain ⟨r, stack', hpc, hr⟩ := hend
  revert h
  fun_cases Worker.next <;> intro h
  case case13 r' frame hw =>
    have hmain : mainReturned rmode w frame r' = (w', write) := Option.some.inj h
    have hne := mainReturned_ne_ret rmode w frame r' r stack'
    rw [hmain] at hne
    exact absurd hpc hne
  all_goals cases h
  case case1 | case4 | case11 => cases hpc
  case case2 => exact .inl ⟨r, stack', hpc, hr⟩
  case case5 | case7 => exact absurd hpc (iterate_ne_ret _ _ _ _ _)
  case case6 hw _ => exact .inr (.inr ⟨_, _, _, _, rfl, hw⟩)
  case case9 =>
    cases hpc
    exact .inr (.inl ⟨_, rfl, hr⟩)
  case case12 =>
    cases hpc
    simp [Ends] at hr
  case case14 hw =>
    obtain rfl := compositeReturned_ret hpc
    exact .inl ⟨_, _, hw, hr⟩

/-- A worker writes the flag when its main loop gets the value of a flowop. -/
theorem Worker.next_write {fAbort v : FAbort} {rmode : RMode} {w w' : Worker} {act : WorkerAct}
    (h : w.next fAbort rmode act = some (w', some v)) :
    act = .proceed ∧ ∃ r frame, w.pc = .ret r [frame] ∧
      (v = .error ∧ (r = .error ∨ r = .other ∨ r = .norsc ∧ rmode = .timeout) ∨
        v ≠ .error ∧ Ends rmode r) := by
  revert h
  fun_cases Worker.next <;> intro h
  case case13 r frame hw =>
    have hmain : mainReturned rmode w frame r = (w', some v) := Option.some.inj h
    have hv : (mainReturned rmode w frame r).2 = some v := congrArg Prod.snd hmain
    refine ⟨rfl, r, frame, hw, ?_⟩
    cases r <;> cases rmode <;> cases hv <;> simp [Ends]
  all_goals cases h

theorem childExit_some {s s' : RunState} (h : s.next .childExit = some s') :
    s.watcher = .wait ∧ s' = { s with watcher := if s.fAbort ≠ .ok then .exit else .locked } := by
  simp only [RunState.next] at h
  split at h
  case isTrue hw => exact ⟨hw, (Option.some.inj h).symm⟩
  case isFalse => cases h

theorem testRunning_some {s s' : RunState} (h : s.next .testRunning = some s') :
    s.watcher = .locked ∧
      (s.procsRunning = 0 ∧ s' = { s with watcher := .exit, fAbort := .rsrc } ∨
        s.procsRunning ≠ 0 ∧ s' = { s with watcher := .status }) := by
  simp only [RunState.next] at h
  split_ifs at h with hw h0
  · exact ⟨hw, .inl ⟨h0, (Option.some.inj h).symm⟩⟩
  · exact ⟨hw, .inr ⟨h0, (Option.some.inj h).symm⟩⟩

theorem status_some {s s' : RunState} {normal : Bool} (h : s.next (.status normal) = some s') :
    s.watcher = .status ∧
      (normal = true ∧ s' = { s with watcher := .wait } ∨
        normal = false ∧ s' =
          { s with watcher := .exit, fAbort := if s.fAbort = .fini then .fini else .error }) := by
  cases normal <;> simp only [RunState.next] at h <;> split at h
  case false.isTrue hw => exact ⟨hw, .inr ⟨rfl, by simpa using h.symm⟩⟩
  case true.isTrue hw => exact ⟨hw, .inl ⟨rfl, by simpa using h.symm⟩⟩
  all_goals cases h

theorem ErrorInv.step {s s' : RunState} {e : RunEvent} (h : ErrorInv s) (hok : Undisturbed s e)
    (hstep : s.next e = some s') : ErrorInv s' := by
  have hclean := hok.1 h.error
  cases e with
  | worker t act =>
    obtain ⟨⟨w', write⟩, hw, rfl⟩ := Option.map_eq_some_iff.mp hstep
    constructor
    · cases write with
      | none => exact h.error
      | some v =>
        obtain ⟨-, r, frame, hpc, ⟨rfl, -⟩ | ⟨-, hr⟩⟩ := Worker.next_write hw
        · rfl
        · exact absurd ⟨r, _, hpc, hr⟩ (h.ending t)
    · intro t' hend
      by_cases ht : t' = t
      · subst ht
        change Ending s.rmode (Function.update s.worker t' w' t') at hend
        rw [Function.update_self] at hend
        rcases Worker.next_ending hw hend with hold | ⟨r, rfl, hr⟩ | ⟨count, f, rest, stack, rfl, hpc⟩
        · exact h.ending t' hold
        · exact hclean hr
        · exact hclean f rest stack hpc
      · change Ending s.rmode (Function.update s.worker t w' t') at hend
        rw [Function.update_of_ne ht] at hend
        exact h.ending t' hend
  | childExit =>
    obtain ⟨-, rfl⟩ := childExit_some hstep
    exact ⟨h.error, h.ending⟩
  | testRunning =>
    obtain ⟨-, ⟨h0, -⟩ | ⟨-, rfl⟩⟩ := testRunning_some hstep
    · exact absurd h0 hclean
    · exact ⟨h.error, h.ending⟩
  | status normal =>
    obtain ⟨-, ⟨-, rfl⟩ | ⟨-, rfl⟩⟩ := status_some hstep
    · exact ⟨h.error, h.ending⟩
    · exact ⟨if_neg (by rw [h.error]; decide), h.ending⟩
  | procsRunning n =>
    cases hstep
    exact ⟨h.error, h.ending⟩

/-- The step that sets the error. -/
theorem ErrorInv.set {s s' : RunState} {e : RunEvent} (hne : s.fAbort ≠ .error)
    (hok : Undisturbed s e) (hstep : s.next e = some s') (herror : s'.fAbort = .error) :
    ErrorInv s' := by
  cases e with
  | worker t act =>
    obtain ⟨⟨w', write⟩, hw, rfl⟩ := Option.map_eq_some_iff.mp hstep
    refine ⟨herror, fun t' hend => ?_⟩
    cases write with
    | none => exact hne herror
    | some v =>
      obtain ⟨rfl, r, frame, hpc, ⟨-, hr⟩ | ⟨hv, -⟩⟩ := Worker.next_write hw
      · have hclean := hok.2 ⟨r, frame, hpc, hr⟩
        by_cases ht : t' = t
        · subst ht
          change Ending s.rmode (Function.update s.worker t' w' t') at hend
          rw [Function.update_self] at hend
          rcases Worker.next_ending hw hend with hold | ⟨_, h, -⟩ | ⟨_, _, _, _, h, -⟩
          · exact hclean t' hold
          · cases h
          · cases h
        · change Ending s.rmode (Function.update s.worker t w' t') at hend
          rw [Function.update_of_ne ht] at hend
          exact hclean t' hend
      · exact hv herror
  | childExit =>
    obtain ⟨-, rfl⟩ := childExit_some hstep
    exact absurd herror hne
  | testRunning =>
    obtain ⟨-, ⟨-, rfl⟩ | ⟨-, rfl⟩⟩ := testRunning_some hstep
    · cases herror
    · exact absurd herror hne
  | status normal =>
    obtain ⟨-, ⟨-, rfl⟩ | ⟨hn, rfl⟩⟩ := status_some hstep
    · exact absurd herror hne
    · exact ⟨herror, hok.2 hn⟩
  | procsRunning n =>
    cases hstep
    exact absurd herror hne

theorem AbortRun.errorInv {s u : RunState} (hrun : AbortRun Undisturbed s u)
    (hs : s.fAbort = .error → ErrorInv s) (hu : u.fAbort = .error) : ErrorInv u := by
  induction hrun with
  | refl => exact hs hu
  | tail _ hok hstep ih =>
    rename_i u v e _
    by_cases herror : u.fAbort = .error
    · exact (ih herror).step hok hstep
    · exact ErrorInv.set herror hok hstep hu

theorem ErrorInv.run {s u : RunState} (h : ErrorInv s) (hrun : AbortRun Undisturbed s u) :
    ErrorInv u := by
  induction hrun with
  | refl => exact h
  | tail _ hok hstep ih => exact ih.step hok hstep

theorem AbortRun.next {ok : RunState → RunEvent → Prop} {s u : RunState} (hrun : AbortRun ok s u)
    (e : RunEvent) (hok : ok u e) (h : (u.next e).isSome = true) :
    AbortRun ok s ((u.next e).get h) :=
  hrun.tail hok (Option.some_get h).symm

/-- In every run whose steps are undisturbed an error stays on the flag, and no results are
printed after it. -/
theorem abortRun_error_stays {s₀ s₁ s₂ : RunState} (h₀ : RunStart s₀)
    (h₁ : AbortRun Undisturbed s₀ s₁) (herror : s₁.fAbort = .error)
    (h₂ : AbortRun Undisturbed s₁ s₂) :
    s₂.fAbort = .error ∧ statsPrinted s₂.fAbort = false := by
  have hstart : s₀.fAbort = .error → ErrorInv s₀ := by
    intro h
    rw [h₀.fAbort] at h
    cases h
  have hinv := (h₁.errorInv hstart herror).run h₂
  exact ⟨hinv.error, by rw [hinv.error]; rfl⟩

/-- A worker with one basic flowop and one with a composite flowop. -/
def startBasicComposite : RunState where
  fAbort := .ok
  rmode := .timeout
  procsRunning := 1
  watcher := .wait
  worker
    | 0 => ⟨[.basic], false, .main [.basic]⟩
    | 1 => ⟨[.composite [.basic]], false, .main [.composite [.basic]]⟩
    | _ => ⟨[], false, .main []⟩

theorem startBasicComposite_start : RunStart startBasicComposite := by
  constructor
  · rfl
  · intro t
    match t with
    | 0 => rfl
    | 1 => rfl
    | _ + 2 => rfl
  · rfl

/-- The basic flowop fails before the other worker comes to its composite flowop. -/
theorem startBasicComposite_error : ∃ s, AbortRun Undisturbed startBasicComposite s ∧
    s.fAbort = .error ∧ (s.worker 1).pc = .main [.composite [.basic]] := by
  have hcall : AbortRun Undisturbed startBasicComposite _ :=
    (AbortRun.refl _).next (.worker 0 (.start 1)) ⟨nofun, nofun⟩ rfl
  have hret := hcall.next (.worker 0 (.finish .error)) ⟨nofun, nofun⟩ rfl
  refine ⟨_, hret.next (.worker 0 .proceed) ⟨nofun, ?_⟩ rfl, rfl, rfl⟩
  rintro - t ⟨r, stack, hpc, hr⟩
  match t with
  | 0 =>
    cases hpc
    simp [Ends] at hr
  | 1 => cases hpc
  | _ + 2 => cases hpc

/-- The other worker finds the flag at the head of its main loop. -/
theorem abortRun_error_stays_start : ∃ s : RunState, s.fAbort = .error ∧ statsPrinted s.fAbort = false := by
  obtain ⟨s, hrun, herror, hmain⟩ := startBasicComposite_error
  have hnext : (s.next (.worker 1 (.start 1))).isSome := by
    simp [RunState.next, Worker.next, hmain, herror]
  have hok : Undisturbed s (.worker 1 (.start 1)) := by
    constructor
    · intro _ f rest stack
      rw [hmain]
      nofun
    · nofun
  exact ⟨_, abortRun_error_stays startBasicComposite_start hrun herror
    ((AbortRun.refl s).next _ hok hnext)⟩

/-- A worker whose composite flowop tests the flag reports the aborted run as done. -/
theorem composite_overwrites {s : RunState} {t : ℕ} {f : Fop} {rest : List Fop} {frame : Frame}
    (hpc : (s.worker t).pc = .composite (f :: rest) [frame]) (habort : s.fAbort ≠ .ok) :
    ∃ s', AbortRun (fun _ _ => True) s s' ∧ s'.fAbort = .done := by
  have htest : s.next (.worker t (.start 1)) = some { s with
      worker := Function.update s.worker t { s.worker t with pc := .ret .done [frame] } } := by
    simp [RunState.next, Worker.next, hpc, habort]
  refine ⟨_, ((AbortRun.refl s).tail trivial htest).next (.worker t .proceed) trivial ?_, ?_⟩
  · simp [RunState.next, Worker.next]
  · simp [RunState.next, Worker.next, mainReturned]

/-- The basic flowop fails with the other worker at the first inner flowop of its composite one. -/
theorem startBasicComposite_error_inside : ∃ s,
    AbortRun (fun _ _ => True) startBasicComposite s ∧ s.fAbort = .error ∧
      (s.worker 1).pc = .composite [.basic] [⟨[.composite [.basic]], 0⟩] := by
  have hinner : AbortRun (fun _ _ => True) startBasicComposite _ :=
    ((AbortRun.refl _).next (.worker 1 (.start 1)) trivial rfl).next (.worker 1 .proceed) trivial
      rfl
  have herror := ((hinner.next (.worker 0 (.start 1)) trivial rfl).next
    (.worker 0 (.finish .error)) trivial rfl).next (.worker 0 .proceed) trivial rfl
  exact ⟨_, herror, rfl, rfl⟩

/-- A failed run reported as done. -/
theorem abortRun_error_overwritten : ∃ s₀ s₁ s₂, RunStart s₀ ∧
    AbortRun (fun _ _ => True) s₀ s₁ ∧ s₁.fAbort = .error ∧
    AbortRun (fun _ _ => True) s₁ s₂ ∧ s₂.fAbort = .done ∧ statsPrinted s₂.fAbort = true := by
  obtain ⟨s₁, hrun, herror, hpc⟩ := startBasicComposite_error_inside
  obtain ⟨s₂, hrun', hdone⟩ := composite_overwrites hpc (by rw [herror]; decide)
  exact ⟨_, s₁, s₂, startBasicComposite_start, hrun, herror, hrun', hdone, by rw [hdone]; rfl⟩

end Filebench
