import Filebench.Flowop.Composite

/-! # The main loop of a thread

`flowop_start` executes the flowops of the thread's list one after the other and starts over at
the end of it. Before each of them it looks at the abort flags and at the flags that keep it quiet,
which other threads set at any time. -/
namespace Filebench

/-- `shm_bequiet` is up or no process runs yet, by the number of the test. -/
abbrev Quiet := ℕ → Bool

structure MainState where
  todo : List FlowTree
  calls : CompositeState
  fsCount : BitVec 32
  tfAbort : Bool
  /-- What the thread wrote to `shm_f_abort`. -/
  fAbort : Option FAbort
  running : Bool

/-- What a value other than `FILEBENCH_OK` does to `tf_abort` and to `shm_f_abort`. -/
def flowopStopped (rmode : RMode) : FuncRet → Bool × Option FAbort
  | .ok => (false, none)
  | .error => (true, some .error)
  | .norsc => (true, match rmode with
    | .q1stdone => some .rsrc
    | .qalldone => none
    | .timeout => some .error)
  | .done => (true, some .done)
  | .other => (false, some .error)

/-- The loop over `fo_iters`, which any value other than `FILEBENCH_OK` ends. -/
def iterateMain (func : CompositeState → FuncRet × CompositeState) :
    ℕ → CompositeState → FuncRet × CompositeState
  | 0, s => (.ok, s)
  | count + 1, s => if (func s).1 = .ok then iterateMain func count (func s).2 else func s

/-- To the next flowop, also after one that stopped the thread. -/
def MainState.advance (s : MainState) (fops rest : List FlowTree) : MainState :=
  if rest.isEmpty then { s with todo := fops, fsCount := s.fsCount + 1 }
  else { s with todo := rest }

/-- One pass of the loop in `flowop_start`. -/
def mainPass (env : CompositeEnv) (quiet : Quiet) (rmode : RMode) (fops : List FlowTree)
    (s : MainState) : MainState :=
  let tested := { s.calls with tests := s.calls.tests + 1 }
  if s.running = false then s
  else if env.aborted s.calls.tests then { s with calls := tested, running := false }
  else if quiet s.calls.tests then { s with calls := tested }
  else match s.todo with
    | [] => { s with calls := tested, running := false }
    | f :: rest =>
      let r := iterateMain (f.foFunc env) (intCount f.foIters) tested
      let stopped := flowopStopped rmode r.1
      MainState.advance { s with
        calls := r.2
        tfAbort := s.tfAbort || stopped.1
        fAbort := stopped.2.or s.fAbort
        running := r.1 = .ok } fops rest

/-- The writes to `shm_f_abort` are those of a worker among the others. -/
theorem flowopStopped_snd (rmode : RMode) (w : Worker) (frame : Frame) (r : FuncRet) :
    (mainReturned rmode w frame r).2 = (flowopStopped rmode r).2 := by
  cases r with
  | norsc => cases rmode <;> rfl
  | _ => rfl

/-! ## What one flowop calls -/

/-- No call from number `a` to before `b` ended the run. -/
def Calm (env : CompositeEnv) (a b : ℕ) : Prop := ∀ n, a ≤ n → n < b → (env.outcome n).quits = false

theorem Calm.append {env : CompositeEnv} {a b c : ℕ} (h : Calm env a b) (h' : Calm env b c) :
    Calm env a c := by
  intro n ha hc
  rcases Nat.lt_or_ge n b with hb | hb
  · exact h n ha hb
  · exact h' n hb hc

theorem Calm.mono {env : CompositeEnv} {a b c : ℕ} (h : Calm env a b) (hc : c ≤ b) :
    Calm env a c := fun n ha hn => h n ha (Nat.lt_of_lt_of_le hn hc)

/-- From `s` to `s'` the calls are a first part of the list. All but the last of them leave the run
alone, and if the value `r` does not stop the loop, the last one too, and the list is complete. -/
def Calls (env : CompositeEnv) (stop : FuncRet → Bool) (leaves : List ℕ) (s : CompositeState)
    (r : FuncRet × CompositeState) : Prop :=
  ∃ l, r.2.called = s.called ++ l ∧ l <+: leaves ∧
    Calm env s.called.length (r.2.called.length - 1) ∧
    (stop r.1 = false → l = leaves ∧ Calm env s.called.length r.2.called.length)

section calls

variable {env : CompositeEnv} {stop : FuncRet → Bool} {leaves l₁ l₂ : List ℕ}
  {s : CompositeState} {r r' : FuncRet × CompositeState}

theorem calls_nil (env : CompositeEnv) (stop : FuncRet → Bool) (s : CompositeState) (n : ℕ)
    (r : FuncRet) : Calls env stop [] s (r, { s with tests := n }) := by
  refine ⟨[], (List.append_nil _).symm, List.prefix_rfl, fun m ha hb => ?_,
    fun _ => ⟨rfl, fun m ha hb => ?_⟩⟩
  · change m < s.called.length - 1 at hb
    omega
  · change m < s.called.length at hb
    omega

/-- Nothing of the list was called. -/
theorem calls_none (hstop : stop r.1 = true) (hcalled : r.2.called = s.called) (leaves : List ℕ) :
    Calls env stop leaves s r := by
  refine ⟨[], by rw [hcalled, List.append_nil], List.nil_prefix, fun m ha hb => ?_, fun h => ?_⟩
  · rw [hcalled] at hb
    omega
  · rw [hstop] at h
    cases h

/-- The test of the flags calls nothing. -/
theorem Calls.tested (h : Calls env stop leaves { s with tests := s.tests + 1 } r) :
    Calls env stop leaves s r := h

/-- A value that stops the loop ends the list, any other one goes on with the rest. -/
theorem Calls.append (h : Calls env stop l₁ s r)
    (h' : stop r.1 = false → Calls env stop l₂ r.2 r') (hr' : stop r.1 = true → r' = r) :
    Calls env stop (l₁ ++ l₂) s r' := by
  obtain ⟨l, hl, hfront, hcalm, hfull⟩ := h
  cases hstop : stop r.1 with
  | true =>
    rw [hr' hstop]
    refine ⟨l, hl, hfront.trans (List.prefix_append _ _), hcalm, fun hgo => ?_⟩
    rw [hstop] at hgo
    cases hgo
  | false =>
    obtain ⟨l', hl', hfront', hcalm', hfull'⟩ := h' hstop
    obtain ⟨rfl, hcalm⟩ := hfull hstop
    refine ⟨l ++ l', by rw [hl', hl, List.append_assoc], ?_, hcalm.append hcalm', fun hgo => ?_⟩
    · exact (List.prefix_append_right_inj l).mpr hfront'
    · obtain ⟨rfl, hcalm'⟩ := hfull' hgo
      exact ⟨rfl, hcalm.append hcalm'⟩

/-- A loop that more values stop calls no more of the list. -/
theorem Calls.weaken {stop' : FuncRet → Bool} (h : Calls env stop leaves s r)
    (hstop : ∀ r, stop' r = false → stop r = false) : Calls env stop' leaves s r := by
  obtain ⟨l, hl, hfront, hcalm, hfull⟩ := h
  exact ⟨l, hl, hfront, hcalm, fun hgo => hfull (hstop _ hgo)⟩

theorem calls_leaf (env : CompositeEnv) (name : ℕ) (iters : FbInt) (s : CompositeState) :
    Calls env FuncRet.quits [name] s ((FlowTree.leaf name iters).foFunc env s) := by
  simp only [FlowTree.foFunc]
  refine ⟨[name], rfl, List.prefix_rfl, fun m ha hb => ?_, fun hgo => ⟨rfl, fun m ha hb => ?_⟩⟩
  · simp only [List.length_append, List.length_singleton] at hb
    omega
  · simp only [List.length_append, List.length_singleton] at hb
    rw [show m = s.called.length by omega]
    exact hgo

/-- The loop over the iterations of an inner flowop. -/
theorem calls_iterateFunc {func : CompositeState → FuncRet × CompositeState}
    (h : ∀ s, Calls env FuncRet.quits leaves s (func s)) (count : ℕ) (s : CompositeState) :
    Calls env FuncRet.quits (List.replicate count leaves).flatten s
      (iterateFunc func count s) := by
  induction count generalizing s with
  | zero => exact calls_nil env _ s s.tests .ok
  | succ count ih =>
    rw [List.replicate_succ, List.flatten_cons, iterateFunc]
    refine (h s).append (fun hgo => ?_) fun hstop => if_pos hstop
    rw [if_neg (by rw [hgo]; exact Bool.false_ne_true)]
    exact ih _

mutual

theorem calls_foFunc (env : CompositeEnv) :
    (f : FlowTree) → (s : CompositeState) →
      Calls env FuncRet.quits (f.expand intCount) s (f.foFunc env s)
  | .leaf name iters, s => calls_leaf env name iters s
  | .composite _ inner, s => calls_composite env inner s

/-- A composite flowop that sees an abort flag leaves the rest of its list. -/
theorem calls_composite (env : CompositeEnv) :
    (inner : List FlowTree) → (s : CompositeState) →
      Calls env FuncRet.quits (expandList intCount inner) s (flowopComposite env inner s)
  | [], s => calls_nil env _ s s.tests .ok
  | f :: rest, s => by
    rw [flowopComposite, expandList]
    split
    · exact calls_none rfl rfl _
    · have hfirst := (calls_iterateFunc (calls_foFunc env f) (intCount f.foIters)
        { s with tests := s.tests + 1 }).tested
      refine hfirst.append (fun hgo => ?_) fun hstop => if_pos hstop
      rw [if_neg (by rw [hgo]; exact Bool.false_ne_true)]
      exact calls_composite env rest _

end

/-- The values that stop the main loop. -/
def FuncRet.stops (r : FuncRet) : Bool := r ≠ .ok

theorem calls_iterateMain {func : CompositeState → FuncRet × CompositeState}
    (h : ∀ s, Calls env FuncRet.quits leaves s (func s)) (count : ℕ) (s : CompositeState) :
    Calls env FuncRet.stops (List.replicate count leaves).flatten s
      (iterateMain func count s) := by
  have hstops : ∀ r : FuncRet, r.stops = false → r.quits = false := by
    intro r hr
    cases r with
    | ok => rfl
    | _ => cases hr
  induction count generalizing s with
  | zero => exact calls_nil env _ s s.tests .ok
  | succ count ih =>
    rw [List.replicate_succ, List.flatten_cons, iterateMain]
    refine ((h s).weaken hstops).append (fun hgo => ?_) fun hstop => if_neg ?_
    · rw [if_pos (by simpa [FuncRet.stops] using hgo)]
      exact ih _
    · simpa [FuncRet.stops] using hstop

end calls

/-! ## The whole loop -/

/-- The basic flowops of so many passes through the list. -/
def passed (fops : List FlowTree) (passes : ℕ) : List ℕ :=
  (List.replicate passes (expandList intCount fops)).flatten

theorem passed_succ (fops : List FlowTree) (passes : ℕ) :
    passed fops (passes + 1) = passed fops passes ++ expandList intCount fops := by
  simp [passed, List.replicate_succ']

theorem expandList_append (count : FbInt → ℕ) (fs gs : List FlowTree) :
    expandList count (fs ++ gs) = expandList count fs ++ expandList count gs := by
  induction fs with
  | nil => rfl
  | cons f fs ih => rw [List.cons_append, expandList, expandList, ih, List.append_assoc]

/-- The thread is in its pass number `passes`, counted from zero. -/
structure MainInv (env : CompositeEnv) (fops : List FlowTree) (passes : ℕ) (s : MainState) :
    Prop where
  count : s.fsCount = BitVec.ofNat 32 passes
  calm : Calm env 0 (s.calls.called.length - 1)
  calls : s.calls.called <+: passed fops (passes + 1)
  running : s.running = true → Calm env 0 s.calls.called.length ∧
    ∃ done, fops = done ++ s.todo ∧
      s.calls.called = passed fops passes ++ expandList intCount done

section run

variable {env : CompositeEnv} {quiet : Quiet} {rmode : RMode} {fops : List FlowTree}
  {s : MainState} {passes : ℕ}

/-- A pass that calls nothing. -/
theorem MainInv.idle (h : MainInv env fops passes s) {running : Bool} {tests : ℕ}
    (hrunning : running = true → s.running = true) :
    MainInv env fops passes
      { s with calls := { s.calls with tests := tests }, running := running } :=
  ⟨h.count, h.calm, h.calls, fun hr => h.running (hrunning hr)⟩

/-- A pass that executes a flowop. -/
theorem MainInv.execute (h : MainInv env fops passes s) (hrunning : s.running = true)
    {f : FlowTree} {rest : List FlowTree} (htodo : s.todo = f :: rest)
    {r : FuncRet × CompositeState}
    (hr : Calls env FuncRet.stops (List.replicate (intCount f.foIters) (f.expand intCount)).flatten
      s.calls r) (tfAbort : Bool) (fAbort : Option FAbort) :
    MainInv env fops (if rest.isEmpty then passes + 1 else passes) (MainState.advance
      { s with calls := r.2, tfAbort := tfAbort, fAbort := fAbort, running := r.1 = .ok }
      fops rest) := by
  obtain ⟨hcalm, done, hfops, hcalled⟩ := h.running hrunning
  obtain ⟨l, hl, hfront, hcalm', hfull⟩ := hr
  rw [htodo] at hfops
  have hpass : passed fops (passes + 1) = s.calls.called ++
      ((List.replicate (intCount f.foIters) (f.expand intCount)).flatten ++
        expandList intCount rest) := by
    rw [passed_succ, hcalled, List.append_assoc]
    congr 1
    rw [hfops, expandList_append]
    rfl
  have hcalls : r.2.called <+: passed fops (passes + 1) := by
    rw [hl, hpass]
    exact (List.prefix_append_right_inj _).mpr (hfront.trans (List.prefix_append _ _))
  have hgo : decide (r.1 = .ok) = true → Calm env 0 r.2.called.length ∧
      r.2.called = passed fops passes ++ expandList intCount (done ++ [f]) := by
    intro hok
    obtain ⟨rfl, hall⟩ := hfull (by simpa [FuncRet.stops] using hok)
    refine ⟨hcalm.append hall, ?_⟩
    rw [hl, hcalled, List.append_assoc, expandList_append, expandList, expandList,
      List.append_nil]
  rw [MainState.advance]
  split
  next hrest =>
    have hrest : rest = [] := List.isEmpty_iff.mp hrest
    refine ⟨?_, hcalm.append hcalm', ?_, fun hok => ⟨(hgo hok).1, [], rfl, ?_⟩⟩
    · exact (congrArg (· + 1#32) h.count).trans (BitVec.ofNat_add passes 1).symm
    · rw [passed_succ]
      exact hcalls.trans (List.prefix_append _ _)
    · rw [expandList, List.append_nil, passed_succ]
      subst hrest
      rw [← hfops] at hgo
      exact (hgo hok).2
  next =>
    refine ⟨h.count, hcalm.append hcalm', hcalls, fun hok => ⟨(hgo hok).1, done ++ [f], ?_,
      (hgo hok).2⟩⟩
    rw [hfops, List.append_assoc]
    rfl

/-- The flags stay down and no flowop fails. -/
structure Undisturbing (env : CompositeEnv) (quiet : Quiet) : Prop where
  abort : ∀ n, env.aborted n = false
  quiet : ∀ n, quiet n = false
  outcome : ∀ n, env.outcome n = .ok

theorem runLeaves_all_ok {outcome : ℕ → FuncRet} (h : ∀ n, outcome n = .ok) (leaves : List ℕ)
    (n : ℕ) : (runLeaves outcome leaves n).1 = .ok := by
  induction leaves generalizing n with
  | nil => rfl
  | cons leaf leaves ih =>
    rw [runLeaves_cons_ok leaves (h n)]
    exact ih (n + 1)

theorem Undisturbing.foFunc (h : Undisturbing env quiet) (f : FlowTree) (s : CompositeState) :
    (f.foFunc env s).1 = .ok := by
  have hknown : ∀ n, env.outcome n ≠ .other := by
    intro n
    rw [h.outcome]
    exact FuncRet.noConfusion
  exact (flattens_foFunc h.abort hknown f s).1.trans (runLeaves_all_ok h.outcome _ _)

theorem Undisturbing.iterate (h : Undisturbing env quiet) (f : FlowTree) (count : ℕ)
    (s : CompositeState) : (iterateMain (f.foFunc env) count s).1 = .ok := by
  induction count generalizing s with
  | zero => rfl
  | succ count ih =>
    rw [iterateMain, if_pos (h.foFunc f s)]
    exact ih _

/-- Where a thread is that nothing has disturbed. -/
structure AtFlowop (env : CompositeEnv) (fops todo : List FlowTree) (passes : ℕ)
    (s : MainState) : Prop where
  inv : MainInv env fops passes s
  running : s.running = true
  todo : s.todo = todo

theorem mainPass_cons {f : FlowTree} {rest : List FlowTree} (hrunning : s.running = true)
    (habort : env.aborted s.calls.tests = false) (hquiet : quiet s.calls.tests = false)
    (htodo : s.todo = f :: rest) {r : FuncRet × CompositeState}
    (hr : iterateMain (f.foFunc env) (intCount f.foIters)
      { s.calls with tests := s.calls.tests + 1 } = r) :
    mainPass env quiet rmode fops s = MainState.advance { s with
      calls := r.2
      tfAbort := s.tfAbort || (flowopStopped rmode r.1).1
      fAbort := (flowopStopped rmode r.1).2.or s.fAbort
      running := r.1 = .ok } fops rest := by
  subst hr
  simp [mainPass, hrunning, habort, hquiet, htodo]

theorem Undisturbing.pass (h : Undisturbing env quiet) (rmode : RMode) {f : FlowTree}
    {rest : List FlowTree} (hs : AtFlowop env fops (f :: rest) passes s) :
    AtFlowop env fops (if rest.isEmpty then fops else rest)
      (if rest.isEmpty then passes + 1 else passes) (mainPass env quiet rmode fops s) := by
  have hok := h.iterate f (intCount f.foIters) { s.calls with tests := s.calls.tests + 1 }
  rw [mainPass_cons hs.running (h.abort _) (h.quiet _) hs.todo rfl]
  refine ⟨hs.inv.execute hs.running hs.todo
    (calls_iterateMain (calls_foFunc env f) (intCount f.foIters) _).tested _ _, ?_, ?_⟩
  · rw [MainState.advance]
    split <;> exact decide_eq_true hok
  · rw [MainState.advance]
    split <;> rfl

end run

end Filebench
