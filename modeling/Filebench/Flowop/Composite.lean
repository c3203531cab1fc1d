import Filebench.Flowop.Abort
import Filebench.Vars.Types

/-! # Composite flowops

A composite flowop passes once through its inner flowops, each executed a constant number of
times, and leaves at the first value that ends the run. It does what its expanded list of basic
flowops does, one after the other. -/
namespace Filebench

/-- A flowop of a thread's tree. The name stands for the rest of a basic one. -/
inductive FlowTree where
  | leaf (foName : ℕ) (foIters : FbInt)
  | composite (foIters : FbInt) (foCompFops : List FlowTree)

def FlowTree.foIters : FlowTree → FbInt
  | .leaf _ iters => iters
  | .composite iters _ => iters

/-- `(int)avd_get_int(fo_iters)` as the bound of a loop that counts up from zero. -/
def intCount (iters : FbInt) : ℕ := (iters.truncate 32).toInt.toNat

theorem intCount_of_lt {v : FbInt} (h : v.toNat < 2 ^ 31) : intCount v = v.toNat := by
  have hval : (v.truncate 32).toNat = v.toNat := by
    rw [BitVec.truncate_eq_setWidth, BitVec.toNat_setWidth]
    omega
  have hint := BitVec.toInt_eq_toNat_of_lt (x := v.truncate 32) (by omega)
  rw [intCount, hint, hval]
  rfl

theorem intCount_lt (v : FbInt) : intCount v < 2 ^ 31 := by
  have hlt := BitVec.toInt_lt (x := v.truncate 32)
  rw [intCount]
  omega

/-- What the basic flowops return, by the number of the call, and whether one of the abort flags
is up, by the number of the test. -/
structure CompositeEnv where
  outcome : ℕ → FuncRet
  aborted : ℕ → Bool

structure CompositeState where
  called : List ℕ
  tests : ℕ

/-- The cases of the switch that return. -/
def FuncRet.quits : FuncRet → Bool
  | .done | .norsc | .error => true
  | .ok | .other => false

/-- The loop over `fo_iters`. -/
def iterateFunc (func : CompositeState → FuncRet × CompositeState) :
    ℕ → CompositeState → FuncRet × CompositeState
  | 0, s => (.ok, s)
  | count + 1, s => if (func s).1.quits then func s else iterateFunc func count (func s).2

mutual

/-- `fo_func` -/
def FlowTree.foFunc (env : CompositeEnv) : FlowTree → CompositeState → FuncRet × CompositeState
  | .leaf name _, s => (env.outcome s.called.length, { s with called := s.called ++ [name] })
  | .composite _ inner, s => flowopComposite env inner s

/-- `flowop_composite` on the list of inner flowops. -/
def flowopComposite (env : CompositeEnv) :
    List FlowTree → CompositeState → FuncRet × CompositeState
  | [], s => (.ok, s)
  | f :: rest, s =>
    if env.aborted s.tests then (.done, { s with tests := s.tests + 1 })
    else
      let r := iterateFunc (f.foFunc env) (intCount f.foIters) { s with tests := s.tests + 1 }
      if r.1.quits then r else flowopComposite env rest r.2

end

/-! ## The expanded list -/

mutual

/-- The basic flowops of one execution, with `count` turning the attribute into a number. -/
def FlowTree.expand (count : FbInt → ℕ) : FlowTree → List ℕ
  | .leaf name _ => [name]
  | .composite _ inner => expandList count inner

def expandList (count : FbInt → ℕ) : List FlowTree → List ℕ
  | [] => []
  | f :: rest => (List.replicate (count f.foIters) (f.expand count)).flatten ++ expandList count rest

end

/-- The basic flowops of a list one after the other, from the call number `n` on, up to the first
one that does not return `FILEBENCH_OK`: what the last one returned, and which were called. -/
def runLeaves (outcome : ℕ → FuncRet) : List ℕ → ℕ → FuncRet × List ℕ
  | [], _ => (.ok, [])
  | leaf :: leaves, n =>
    match outcome n with
    | .ok => ((runLeaves outcome leaves (n + 1)).1, leaf :: (runLeaves outcome leaves (n + 1)).2)
    | r => (r, [leaf])

theorem runLeaves_cons_ok {outcome : ℕ → FuncRet} {leaf n : ℕ} (leaves : List ℕ)
    (h : outcome n = .ok) : runLeaves outcome (leaf :: leaves) n =
      ((runLeaves outcome leaves (n + 1)).1, leaf :: (runLeaves outcome leaves (n + 1)).2) := by
  simp only [runLeaves, h]

theorem runLeaves_cons_stop {outcome : ℕ → FuncRet} {leaf n : ℕ} (leaves : List ℕ)
    (h : outcome n ≠ .ok) : runLeaves outcome (leaf :: leaves) n = (outcome n, [leaf]) := by
  cases hr : outcome n with
  | ok => exact absurd hr h
  | _ => simp only [runLeaves, hr]

/-- All of the list is called when nothing stops it. -/
theorem runLeaves_ok {outcome : ℕ → FuncRet} {leaves : List ℕ} {n : ℕ}
    (h : (runLeaves outcome leaves n).1 = .ok) : (runLeaves outcome leaves n).2 = leaves := by
  induction leaves generalizing n with
  | nil => rfl
  | cons leaf leaves ih =>
    by_cases hr : outcome n = .ok
    · rw [runLeaves_cons_ok leaves hr] at h ⊢
      exact congrArg (leaf :: ·) (ih h)
    · rw [runLeaves_cons_stop leaves hr] at h
      exact absurd h hr

theorem runLeaves_append_ok {outcome : ℕ → FuncRet} {l₁ : List ℕ} (l₂ : List ℕ) {n : ℕ}
    (h : (runLeaves outcome l₁ n).1 = .ok) : runLeaves outcome (l₁ ++ l₂) n =
      ((runLeaves outcome l₂ (n + l₁.length)).1,
        l₁ ++ (runLeaves outcome l₂ (n + l₁.length)).2) := by
  induction l₁ generalizing n with
  | nil => rfl
  | cons leaf l₁ ih =>
    by_cases hr : outcome n = .ok
    · rw [runLeaves_cons_ok l₁ hr] at h
      rw [List.cons_append, runLeaves_cons_ok _ hr, ih h, List.length_cons,
        Nat.add_right_comm n 1, Nat.add_assoc n]
      rfl
    · rw [runLeaves_cons_stop l₁ hr] at h
      exact absurd h hr

theorem runLeaves_append_stop {outcome : ℕ → FuncRet} {l₁ : List ℕ} (l₂ : List ℕ) {n : ℕ}
    (h : (runLeaves outcome l₁ n).1 ≠ .ok) :
    runLeaves outcome (l₁ ++ l₂) n = runLeaves outcome l₁ n := by
  induction l₁ generalizing n with
  | nil => exact absurd rfl h
  | cons leaf l₁ ih =>
    by_cases hr : outcome n = .ok
    · rw [runLeaves_cons_ok l₁ hr] at h ⊢
      rw [List.cons_append, runLeaves_cons_ok _ hr, ih h]
    · rw [List.cons_append, runLeaves_cons_stop _ hr, runLeaves_cons_stop _ hr]

/-- What stops the list is one of the values that `flowop_composite` knows. -/
theorem runLeaves_stop {outcome : ℕ → FuncRet} (hknown : ∀ n, outcome n ≠ .other)
    (leaves : List ℕ) (n : ℕ) : (runLeaves outcome leaves n).1 ≠ .other := by
  induction leaves generalizing n with
  | nil => exact FuncRet.noConfusion
  | cons leaf leaves ih =>
    by_cases hr : outcome n = .ok
    · rw [runLeaves_cons_ok leaves hr]
      exact ih (n + 1)
    · rw [runLeaves_cons_stop leaves hr]
      exact hknown n

/-! ## Flattening -/

/-- The call does what the list of basic flowops does. -/
def Flattens (env : CompositeEnv) (func : CompositeState → FuncRet × CompositeState)
    (leaves : List ℕ) : Prop :=
  ∀ s, (func s).1 = (runLeaves env.outcome leaves s.called.length).1 ∧
    (func s).2.called = s.called ++ (runLeaves env.outcome leaves s.called.length).2

section flatten

variable {env : CompositeEnv} {func : CompositeState → FuncRet × CompositeState}
  {leaves : List ℕ}

theorem flattens_leaf (name : ℕ) (iters : FbInt) :
    Flattens env ((FlowTree.leaf name iters).foFunc env) [name] := by
  intro s
  simp only [FlowTree.foFunc]
  by_cases hr : env.outcome s.called.length = .ok
  · rw [runLeaves_cons_ok [] hr]
    exact ⟨hr, rfl⟩
  · rw [runLeaves_cons_stop [] hr]
    exact ⟨rfl, rfl⟩

theorem FuncRet.not_quits {r : FuncRet} (h : r ≠ .other) : r.quits = false ↔ r = .ok := by
  cases r with
  | other => exact absurd rfl h
  | _ => decide

/-- One call after another. -/
theorem Flattens.append (hknown : ∀ n, env.outcome n ≠ .other) {l₁ l₂ : List ℕ}
    {func' next : CompositeState → FuncRet × CompositeState} (h : Flattens env func l₁)
    (h' : Flattens env func' l₂)
    (hnext : ∀ s, next s = if (func s).1.quits then func s else func' (func s).2) :
    Flattens env next (l₁ ++ l₂) := by
  intro s
  obtain ⟨hret, hcalled⟩ := h s
  have hother : (func s).1 ≠ .other := hret ▸ runLeaves_stop hknown _ _
  rw [hnext]
  by_cases hr : (runLeaves env.outcome l₁ s.called.length).1 = .ok
  · obtain ⟨hret', hcalled'⟩ := h' (func s).2
    rw [(FuncRet.not_quits hother).mpr (hret.trans hr), if_neg Bool.false_ne_true,
      runLeaves_append_ok _ hr]
    rw [hcalled, runLeaves_ok hr, List.length_append] at hret' hcalled'
    exact ⟨hret', hcalled'.trans (List.append_assoc ..)⟩
  · have hquits : (func s).1.quits = true := by
      rw [← Bool.not_eq_false, FuncRet.not_quits hother, hret]
      exact hr
    rw [if_pos hquits, runLeaves_append_stop _ hr]
    exact ⟨hret, hcalled⟩

/-- The loop over the iterations repeats the list. -/
theorem Flattens.iterate (hknown : ∀ n, env.outcome n ≠ .other) (h : Flattens env func leaves)
    (count : ℕ) : Flattens env (iterateFunc func count) (List.replicate count leaves).flatten := by
  induction count with
  | zero => exact fun s => ⟨rfl, (List.append_nil _).symm⟩
  | succ count ih =>
    rw [List.replicate_succ, List.flatten_cons]
    exact h.append hknown ih fun s => rfl

/-- A test of the abort flags changes nothing while they are down. -/
theorem Flattens.tested (h : Flattens env func leaves) :
    Flattens env (fun s => func { s with tests := s.tests + 1 }) leaves :=
  fun s => h { s with tests := s.tests + 1 }

mutual

theorem flattens_foFunc (habort : ∀ n, env.aborted n = false)
    (hknown : ∀ n, env.outcome n ≠ .other) :
    (f : FlowTree) → Flattens env (f.foFunc env) (f.expand intCount)
  | .leaf name iters => flattens_leaf name iters
  | .composite _ inner => flattens_composite habort hknown inner

theorem flattens_composite (habort : ∀ n, env.aborted n = false)
    (hknown : ∀ n, env.outcome n ≠ .other) :
    (inner : List FlowTree) → Flattens env (flowopComposite env inner) (expandList intCount inner)
  | [] => fun s => ⟨rfl, (List.append_nil _).symm⟩
  | f :: rest => by
    have hfirst := ((flattens_foFunc habort hknown f).iterate hknown (intCount f.foIters)).tested
    refine hfirst.append hknown (flattens_composite habort hknown rest) fun s => ?_
    rw [flowopComposite, habort, if_neg Bool.false_ne_true]

end

end flatten

/-- A composite flowop calls the basic flowops of its expanded list, up to the first one that does
not return `FILEBENCH_OK`, and returns what that one returned. Every flowop is repeated as often
as its number of iterations says as an `int`. -/
theorem flowopComposite_flatten {env : CompositeEnv} (habort : ∀ n, env.aborted n = false)
    (hknown : ∀ n, env.outcome n ≠ .other) (inner : List FlowTree) (s : CompositeState) :
    ((flowopComposite env inner s).1, (flowopComposite env inner s).2.called) =
      ((runLeaves env.outcome (expandList intCount inner) s.called.length).1,
        s.called ++ (runLeaves env.outcome (expandList intCount inner) s.called.length).2) :=
  Prod.ext_iff.mpr (flattens_composite habort hknown inner s)

/-- The third call of a basic flowop fails. -/
def thirdFails : CompositeEnv := ⟨fun n => if n = 2 then .error else .ok, fun _ => false⟩

theorem flowopComposite_flatten_third :
    let r := flowopComposite thirdFails [.leaf 0 1, .composite 2 [.leaf 1 2], .leaf 2 1] ⟨[], 0⟩
    (r.1, r.2.called) = (.error, [0, 1, 1]) := by
  refine (flowopComposite_flatten (fun _ => rfl) (fun n => ?_) _ _).trans rfl
  change (if n = 2 then FuncRet.error else FuncRet.ok) ≠ .other
  split_ifs
  · exact FuncRet.noConfusion
  · exact FuncRet.noConfusion

/-- An attribute of `2 ^ 32` iterations is no iteration. -/
theorem flowopComposite_truncated : ¬ ∀ env : CompositeEnv, (∀ n, env.aborted n = false) →
    (∀ n, env.outcome n ≠ .other) → ∀ (inner : List FlowTree) (s : CompositeState),
      ((flowopComposite env inner s).1, (flowopComposite env inner s).2.called) =
        ((runLeaves env.outcome (expandList BitVec.toNat inner) s.called.length).1,
          s.called ++
            (runLeaves env.outcome (expandList BitVec.toNat inner) s.called.length).2) := by
  intro hclaim
  have h := congrArg Prod.fst (hclaim ⟨fun _ => .error, fun _ => false⟩ (fun _ => rfl)
    (fun _ => FuncRet.noConfusion) [.leaf 0 0x100000000] ⟨[], 0⟩)
  have hcount : BitVec.toNat (0x100000000 : FbInt) = 4294967295 + 1 := by decide
  simp only [expandList, FlowTree.foIters, FlowTree.expand] at h
  rw [hcount, List.replicate_succ, List.flatten_cons, List.singleton_append, List.cons_append,
    runLeaves_cons_stop _ FuncRet.noConfusion] at h
  cases h

end Filebench
