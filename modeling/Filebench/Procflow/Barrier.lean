import Filebench.Lib.Trace

/-! # The start barrier

The main process holds the run lock as a reader, so that no worker thread gets it as a writer
before all processes of a run are created. A thread of its own creates them under the lock of the
list of procflows, which every new process needs to find itself. The run lock is taken once, when
the program starts, and released in every run. -/
namespace Filebench.Barrier

/-- The main process on its way through a run. -/
inductive MainPc where
  | idle
  | starting
  | locked
  | waiting
  | woken
  | initialised
  | released
  | ended
  deriving DecidableEq, Repr

/-- The thread that creates the processes of a run, and how many of them are left. -/
inductive CreatorPc where
  | absent
  | ready (left : ℕ)
  | creating (left : ℕ)
  | done
  deriving DecidableEq, Repr

/-- A worker process of a run, before and after it has found its procflow. -/
inductive ProcPc where
  | absent
  | forked (run : ℕ)
  | found (run : ℕ)
  deriving DecidableEq, Repr

/-- A thread of a worker process, before, at and after the barrier. -/
inductive ThreadPc where
  | absent
  | blocked (proc : ℕ)
  | locked (proc : ℕ)
  | passed (proc : ℕ)
  deriving DecidableEq, Repr

inductive Holder where
  | main
  | creator (run : ℕ)
  deriving DecidableEq, Repr

/-- `readers` and `writer` hold `shm_run_lock`. What was done for each run is on record. -/
structure State where
  readers : ℕ
  writer : Option ℕ
  shmProcflowLock : Option Holder
  main : MainPc
  run : ℕ
  creator : ℕ → CreatorPc
  cnwError : Bool
  proc : ℕ → ProcPc
  thread : ℕ → ThreadPc
  created : ℕ → Bool
  released : ℕ → Bool

inductive Event where
  | procCreate (procs : ℕ) (createnwait : Bool)
  | mainLock
  | condWait
  | wake
  | mainUnlock
  | release
  | finish
  | creatorLock (run : ℕ)
  | fork (run proc : ℕ)
  | forkFails (run : ℕ)
  | creatorDone (run : ℕ)
  | find (proc : ℕ)
  | threadStart (thread proc : ℕ)
  | wrlock (thread : ℕ)
  | unlock (thread : ℕ)
  deriving DecidableEq, Repr

/-- After `ipc_init` -/
def initial : State where
  readers := 1
  writer := none
  shmProcflowLock := none
  main := .idle
  run := 0
  creator := fun _ => .absent
  cnwError := false
  proc := fun _ => .absent
  thread := fun _ => .absent
  created := fun _ => false
  released := fun _ => false

/-- The wait of the main process can end without a signal. To release a lock that is not held is
undefined. -/
def State.next (s : State) : Event → Option State
  | .procCreate procs createnwait =>
    if s.main = .idle then
      if createnwait then
        some
          { s with
            run := s.run + 1
            main := .starting
            creator := Function.update s.creator (s.run + 1) (.ready procs) }
      else some { s with run := s.run + 1, main := .initialised }
    else none
  | .mainLock =>
    if s.main = .starting ∧ s.shmProcflowLock = none then
      some { s with main := .locked, shmProcflowLock := some .main }
    else none
  | .condWait =>
    if s.main = .locked then some { s with main := .waiting, shmProcflowLock := none } else none
  | .wake =>
    if s.main = .waiting ∧ s.shmProcflowLock = none then
      some { s with main := .woken, shmProcflowLock := some .main }
    else none
  | .mainUnlock =>
    if s.main = .woken then
      some
        { s with
          main := if s.cnwError then .ended else .initialised
          shmProcflowLock := none }
    else none
  | .release =>
    if s.main = .initialised ∧ s.readers ≠ 0 then
      some
        { s with
          main := .released
          readers := s.readers - 1
          released := Function.update s.released s.run true }
    else none
  | .finish => if s.main = .released then some { s with main := .idle } else none
  | .creatorLock run =>
    match s.creator run with
    | .ready procs =>
      if s.shmProcflowLock = none then
        some
          { s with
            creator := Function.update s.creator run (.creating procs)
            shmProcflowLock := some (.creator run) }
      else none
    | _ => none
  | .fork run proc =>
    match s.creator run with
    | .creating (left + 1) =>
      if s.proc proc = .absent then
        some
          { s with
            creator := Function.update s.creator run (.creating left)
            proc := Function.update s.proc proc (.forked run) }
      else none
    | _ => none
  | .forkFails run =>
    match s.creator run with
    | .creating (_ + 1) =>
      some
        { s with
          creator := Function.update s.creator run .done
          cnwError := true
          shmProcflowLock := none }
    | _ => none
  | .creatorDone run =>
    match s.creator run with
    | .creating 0 =>
      some
        { s with
          creator := Function.update s.creator run .done
          cnwError := false
          created := Function.update s.created run true
          shmProcflowLock := none }
    | _ => none
  | .find proc =>
    match s.proc proc with
    | .forked run =>
      if s.shmProcflowLock = none then
        some { s with proc := Function.update s.proc proc (.found run) }
      else none
    | _ => none
  | .threadStart thread proc =>
    match s.proc proc, s.thread thread with
    | .found _, .absent => some { s with thread := Function.update s.thread thread (.blocked proc) }
    | _, _ => none
  | .wrlock thread =>
    match s.thread thread with
    | .blocked proc =>
      if s.readers = 0 ∧ s.writer = none then
        some
          { s with
            writer := some thread
            thread := Function.update s.thread thread (.locked proc) }
      else none
    | _ => none
  | .unlock thread =>
    match s.thread thread with
    | .locked proc =>
      some { s with writer := none, thread := Function.update s.thread thread (.passed proc) }
    | _ => none

/-- The runs of a session. -/
abbrev Run : List (State × Event) → State → Prop := Trace.Run State.next (· = initial)

/-- The thread, one of the process, has passed the barrier or holds the run lock to do so. -/
def State.Passed (s : State) (thread proc : ℕ) : Prop :=
  s.thread thread = .locked proc ∨ s.thread thread = .passed proc

/-- No thread passes before all processes of its run are created and the lock is released. -/
def State.Holds (s : State) : Prop :=
  ∀ thread proc run, s.Passed thread proc → s.proc proc = .found run →
    s.created run = true ∧ s.released run = true

/-- The run is the first one, and no process fails to be created once the main process has gone
on without a signal. -/
def State.Meets (s : State) : Event → Prop
  | .procCreate _ _ => s.run = 0
  | .forkFails _ => s.main = .starting ∨ s.main = .waiting
  | _ => True

/-- The main process has not come back from `procflow_init`, or has ended there. -/
def MainPc.Inside : MainPc → Prop
  | .starting | .locked | .waiting | .woken | .ended => True
  | _ => False

/-- What holds in the first run. -/
structure Invariant (s : State) : Prop where
  first : s.run ≤ 1
  begun : s.main ≠ .idle → s.run = 1
  creator : ∀ r, s.creator r ≠ .absent → r = 1 ∧ s.run = 1
  creating : ∀ r k, s.creator r = .creating k → s.shmProcflowLock = some (.creator r)
  locking : s.main = .locked ∨ s.main = .woken → s.shmProcflowLock = some .main
  forked : ∀ p r, s.proc p = .forked r →
    r = 1 ∧ (s.creator 1 = .done ∨ ∃ k, s.creator 1 = .creating k)
  found : ∀ p r, s.proc p = .found r → r = 1 ∧ s.creator 1 = .done
  done : s.creator 1 = .done → s.created 1 = true ∨ s.cnwError = true ∧ s.main.Inside
  closed : s.readers = 0 → s.released 1 = true
  past : s.released 1 = true → s.run = 1 ∧ (s.main = .released ∨ s.main = .idle)
  passed : ∀ t p, s.Passed t p → s.released 1 = true

theorem initial_invariant : Invariant initial := by
  constructor <;> simp [initial, State.Passed]

theorem Invariant.holds {s : State} (h : Invariant s) : s.Holds := by
  intro t p r hp hfound
  obtain ⟨rfl, hdone⟩ := h.found p r hfound
  have hreleased := h.passed t p hp
  refine ⟨?_, hreleased⟩
  rcases h.done hdone with hcreated | ⟨-, hinside⟩
  · exact hcreated
  · rcases (h.past hreleased).2 with hm | hm
    · rw [hm] at hinside
      exact hinside.elim
    · rw [hm] at hinside
      exact hinside.elim

variable {s s' : State}

theorem Invariant.unreleased (h : Invariant s) (hm : s.main ≠ .released) (hm' : s.main ≠ .idle) :
    s.released 1 ≠ true := by
  intro hr
  rcases (h.past hr).2 with hp | hp
  · exact hm hp
  · exact hm' hp

/-- While the lock is free or with the main process nothing is created. -/
theorem Invariant.not_creating (h : Invariant s)
    (hlock : s.shmProcflowLock = none ∨ s.shmProcflowLock = some .main) (r k : ℕ) :
    s.creator r ≠ .creating k := by
  intro hr
  rw [h.creating r k hr] at hlock
  rcases hlock with hl | hl <;> cases hl

/-! ## The main process -/

theorem Invariant.procCreate {procs : ℕ} {createnwait : Bool} (h : Invariant s)
    (hrun : s.run = 0) (hnext : s.next (.procCreate procs createnwait) = some s') :
    Invariant s' := by
  have hrun1 : s.run ≠ 1 := by omega
  have habsent : ∀ r, s.creator r = .absent := by
    intro r
    by_contra hr
    exact hrun1 (h.creator r hr).2
  have hreleased : s.released 1 ≠ true := fun hr => hrun1 (h.past hr).1
  have hforked : ∀ p r, s.proc p ≠ .forked r := by
    intro p r hp
    rcases (h.forked p r hp).2 with hc | ⟨k, hc⟩
    · rw [habsent 1] at hc
      cases hc
    · rw [habsent 1] at hc
      cases hc
  have hfound : ∀ p r, s.proc p ≠ .found r := by
    intro p r hp
    have hc := (h.found p r hp).2
    rw [habsent 1] at hc
    cases hc
  simp only [State.next] at hnext
  split at hnext
  next hm =>
    split at hnext
    next =>
      obtain rfl := Option.some.inj hnext
      have hcreator : ∀ r, (Function.update s.creator (s.run + 1) (.ready procs)) r =
          if r = 1 then .ready procs else .absent := by
        intro r
        rw [hrun, Function.update_apply, habsent]
      constructor
      · exact hrun ▸ le_rfl
      · exact fun _ => by rw [hrun]
      · intro r hr
        simp only [hcreator] at hr
        split at hr
        next h1 => exact ⟨h1, by rw [hrun]⟩
        next => exact absurd rfl hr
      · intro r k hr
        simp only [hcreator] at hr
        split at hr <;> cases hr
      · rintro (hl | hl) <;> cases hl
      · exact fun p r hp => absurd hp (hforked p r)
      · exact fun p r hp => absurd hp (hfound p r)
      · intro hd
        simp only [hcreator, if_pos] at hd
        cases hd
      · exact h.closed
      · exact fun hr => absurd hr hreleased
      · exact h.passed
    next =>
      obtain rfl := Option.some.inj hnext
      constructor
      · exact hrun ▸ le_rfl
      · exact fun _ => by rw [hrun]
      · exact fun r hr => absurd (habsent r) hr
      · exact h.creating
      · rintro (hl | hl) <;> cases hl
      · exact fun p r hp => absurd hp (hforked p r)
      · exact fun p r hp => absurd hp (hfound p r)
      · intro hd
        rw [habsent 1] at hd
        cases hd
      · exact h.closed
      · exact fun hr => absurd hr hreleased
      · exact h.passed
  next => cases hnext

/-- The main process goes on inside of `proc_create`, where it or nobody had the lock. -/
theorem Invariant.move (h : Invariant s) {main : MainPc} {lock : Option Holder}
    (hreleased : s.main ≠ .released) (hidle : s.main ≠ .idle)
    (hlock : s.shmProcflowLock = none ∨ s.shmProcflowLock = some .main)
    (hlocking : main = .locked ∨ main = .woken → lock = some .main)
    (hinside : s.cnwError = true → main.Inside) :
    Invariant { s with main := main, shmProcflowLock := lock } := by
  have hrun := h.begun hidle
  have hunreleased := h.unreleased hreleased hidle
  exact
    { h with
      begun := fun _ => hrun
      creating := fun r k hr => absurd hr (h.not_creating hlock r k)
      locking := hlocking
      done := fun hd => (h.done hd).imp_right fun he => ⟨he.1, hinside he.1⟩
      past := fun hr => absurd hr hunreleased }

theorem Invariant.mainLock (h : Invariant s) (hnext : s.next .mainLock = some s') :
    Invariant s' := by
  simp only [State.next] at hnext
  split at hnext
  next hm =>
    obtain rfl := Option.some.inj hnext
    have hreleased : s.main ≠ .released := by rw [hm.1]; nofun
    have hidle : s.main ≠ .idle := by rw [hm.1]; nofun
    exact h.move hreleased hidle (.inl hm.2) (fun _ => rfl) fun _ => trivial
  next => cases hnext

theorem Invariant.condWait (h : Invariant s) (hnext : s.next .condWait = some s') :
    Invariant s' := by
  simp only [State.next] at hnext
  split at hnext
  next hm =>
    obtain rfl := Option.some.inj hnext
    have hreleased : s.main ≠ .released := by rw [hm]; nofun
    have hidle : s.main ≠ .idle := by rw [hm]; nofun
    refine h.move hreleased hidle (.inr (h.locking (.inl hm))) ?_ fun _ => trivial
    rintro (hl | hl) <;> cases hl
  next => cases hnext

theorem Invariant.wake (h : Invariant s) (hnext : s.next .wake = some s') : Invariant s' := by
  simp only [State.next] at hnext
  split at hnext
  next hm =>
    obtain rfl := Option.some.inj hnext
    have hreleased : s.main ≠ .released := by rw [hm.1]; nofun
    have hidle : s.main ≠ .idle := by rw [hm.1]; nofun
    exact h.move hreleased hidle (.inl hm.2) (fun _ => rfl) fun _ => trivial
  next => cases hnext

theorem Invariant.mainUnlock (h : Invariant s) (hnext : s.next .mainUnlock = some s') :
    Invariant s' := by
  simp only [State.next] at hnext
  split at hnext
  next hm =>
    obtain rfl := Option.some.inj hnext
    have hreleased : s.main ≠ .released := by rw [hm]; nofun
    have hidle : s.main ≠ .idle := by rw [hm]; nofun
    refine h.move hreleased hidle (.inr (h.locking (.inr hm))) ?_ ?_
    · intro hl
      split at hl <;> rcases hl with hl | hl <;> cases hl
    · intro herror
      rw [herror, if_pos rfl]
      trivial
  next => cases hnext

theorem Invariant.release (h : Invariant s) (hnext : s.next .release = some s') :
    Invariant s' := by
  simp only [State.next] at hnext
  split at hnext
  next hm =>
    obtain rfl := Option.some.inj hnext
    have hrun := h.begun (by rw [hm.1]; nofun)
    have hreleased : Function.update s.released s.run true 1 = true := by
      rw [hrun, Function.update_self]
    exact
      { h with
        begun := fun _ => hrun
        locking := by rintro (hl | hl) <;> cases hl
        done := by
          intro hd
          rcases h.done hd with hcreated | ⟨-, hinside⟩
          · exact .inl hcreated
          · rw [hm.1] at hinside
            exact hinside.elim
        closed := fun _ => hreleased
        past := fun _ => ⟨hrun, .inl rfl⟩
        passed := fun _ _ _ => hreleased }
  next => cases hnext

theorem Invariant.finish (h : Invariant s) (hnext : s.next .finish = some s') :
    Invariant s' := by
  simp only [State.next] at hnext
  split at hnext
  next hm =>
    obtain rfl := Option.some.inj hnext
    have hrun := h.begun (by rw [hm]; nofun)
    exact
      { h with
        begun := fun hne => absurd rfl hne
        locking := by rintro (hl | hl) <;> cases hl
        done := by
          intro hd
          rcases h.done hd with hcreated | ⟨-, hinside⟩
          · exact .inl hcreated
          · rw [hm] at hinside
            exact hinside.elim
        past := fun _ => ⟨hrun, .inr rfl⟩ }
  next => cases hnext

/-! ## The creating thread -/

theorem Invariant.creatorLock {r : ℕ} (h : Invariant s)
    (hnext : s.next (.creatorLock r) = some s') : Invariant s' := by
  simp only [State.next] at hnext
  split at hnext
  next procs hready =>
    split at hnext
    next hlock =>
      obtain rfl := Option.some.inj hnext
      obtain ⟨rfl, hrun⟩ := h.creator r (by rw [hready]; nofun)
      have hself : Function.update s.creator 1 (.creating procs) 1 = .creating procs :=
        Function.update_self ..
      have hnever : ∀ {c : CreatorPc}, s.creator 1 = c → c = .ready procs :=
        fun hc => hc.symm.trans hready
      exact
        { h with
          creator := by
            intro r hr
            by_cases h1 : r = 1
            · exact ⟨h1, hrun⟩
            · exact h.creator r (by simpa [h1] using hr)
          creating := by
            intro r k hr
            by_cases h1 : r = 1
            · rw [h1]
            · exact absurd (h.creator r (by simp_all)).1 h1
          locking := by
            intro hm
            rw [h.locking hm] at hlock
            cases hlock
          forked := fun p r hp => ⟨(h.forked p r hp).1, .inr ⟨procs, hself⟩⟩
          found := fun p r hp => absurd (hnever (h.found p r hp).2) nofun
          done := fun hd => absurd (hself.symm.trans hd) nofun }
    next => cases hnext
  next => cases hnext

theorem Invariant.fork {r p : ℕ} (h : Invariant s) (hnext : s.next (.fork r p) = some s') :
    Invariant s' := by
  simp only [State.next] at hnext
  split at hnext
  next k hcreating =>
    split at hnext
    next habsent =>
      obtain rfl := Option.some.inj hnext
      have hlock := h.creating r (k + 1) hcreating
      obtain ⟨rfl, hrun⟩ := h.creator r (by rw [hcreating]; nofun)
      have hself : Function.update s.creator 1 (.creating k) 1 = .creating k :=
        Function.update_self ..
      exact
        { h with
          creator := by
            intro r hr
            by_cases h1 : r = 1
            · exact ⟨h1, hrun⟩
            · exact h.creator r (by simpa [h1] using hr)
          creating := by
            intro r k' hr
            by_cases h1 : r = 1
            · rw [h1]
              exact hlock
            · exact absurd (h.creator r (by simp_all)).1 h1
          forked := by
            intro q r hq
            refine ⟨?_, .inr ⟨k, hself⟩⟩
            by_cases hqp : q = p
            · simp only [hqp, Function.update_self, ProcPc.forked.injEq] at hq
              exact hq.symm
            · exact (h.forked q r (by simpa [hqp] using hq)).1
          found := by
            intro q r hq
            have hqp : q ≠ p := by
              rintro rfl
              simp at hq
            have hdone := (h.found q r (by simpa [hqp] using hq)).2
            exact absurd (hcreating.symm.trans hdone) nofun
          done := fun hd => absurd (hself.symm.trans hd) nofun }
    next => cases hnext
  next => cases hnext

/-- The creating thread is done. -/
theorem Invariant.creatorEnds {r k : ℕ} {error : Bool} {created : ℕ → Bool} (h : Invariant s)
    (hcreating : s.creator r = .creating k)
    (hdone : created 1 = true ∨ error = true ∧ s.main.Inside) :
    Invariant
      { s with
        creator := Function.update s.creator r .done
        cnwError := error
        created := created
        shmProcflowLock := none } := by
  have hlock := h.creating r k hcreating
  obtain ⟨rfl, hrun⟩ := h.creator r (by rw [hcreating]; nofun)
  have hself : Function.update s.creator 1 .done 1 = .done := Function.update_self ..
  exact
    { h with
      creator := by
        intro r hr
        by_cases h1 : r = 1
        · exact ⟨h1, hrun⟩
        · exact h.creator r (by simpa [h1] using hr)
      creating := by
        intro r k' hr
        by_cases h1 : r = 1
        · simp [h1] at hr
        · exact absurd (h.creator r (by simp_all)).1 h1
      locking := by
        intro hm
        rw [h.locking hm] at hlock
        cases hlock
      forked := fun p r hp => ⟨(h.forked p r hp).1, .inl hself⟩
      found := fun p r hp => ⟨(h.found p r hp).1, hself⟩
      done := fun _ => hdone }

theorem Invariant.forkFails {r : ℕ} (h : Invariant s)
    (hmain : s.main = .starting ∨ s.main = .waiting)
    (hnext : s.next (.forkFails r) = some s') : Invariant s' := by
  simp only [State.next] at hnext
  split at hnext
  next k hcreating =>
    obtain rfl := Option.some.inj hnext
    refine h.creatorEnds hcreating (.inr ⟨rfl, ?_⟩)
    rcases hmain with hm | hm
    · rw [hm]
      trivial
    · rw [hm]
      trivial
  next => cases hnext

theorem Invariant.creatorDone {r : ℕ} (h : Invariant s)
    (hnext : s.next (.creatorDone r) = some s') : Invariant s' := by
  simp only [State.next] at hnext
  split at hnext
  next hcreating =>
    obtain rfl := Option.some.inj hnext
    obtain ⟨rfl, -⟩ := h.creator r (by rw [hcreating]; nofun)
    exact h.creatorEnds hcreating (.inl (Function.update_self ..))
  next => cases hnext

/-! ## The workers -/

theorem Invariant.find {p : ℕ} (h : Invariant s) (hnext : s.next (.find p) = some s') :
    Invariant s' := by
  simp only [State.next] at hnext
  split at hnext
  next r hforked =>
    split at hnext
    next hlock =>
      obtain rfl := Option.some.inj hnext
      obtain ⟨rfl, hcreator⟩ := h.forked p r hforked
      have hdone : s.creator 1 = .done :=
        hcreator.resolve_right fun ⟨k, hk⟩ => h.not_creating (.inl hlock) 1 k hk
      exact
        { h with
          forked := by
            intro q r hq
            have hqp : q ≠ p := by
              rintro rfl
              simp at hq
            exact h.forked q r (by simpa [hqp] using hq)
          found := by
            intro q r hq
            refine ⟨?_, hdone⟩
            by_cases hqp : q = p
            · simp only [hqp, Function.update_self, ProcPc.found.injEq] at hq
              exact hq.symm
            · exact (h.found q r (by simpa [hqp] using hq)).1 }
    next => cases hnext
  next => cases hnext

theorem Invariant.threadStart {t p : ℕ} (h : Invariant s)
    (hnext : s.next (.threadStart t p) = some s') : Invariant s' := by
  simp only [State.next] at hnext
  split at hnext
  next =>
    obtain rfl := Option.some.inj hnext
    refine { h with passed := fun u q hu => ?_ }
    by_cases hut : u = t
    · simp [State.Passed, hut] at hu
    · exact h.passed u q (by simpa [State.Passed, hut] using hu)
  next => cases hnext

theorem Invariant.wrlock {t : ℕ} (h : Invariant s) (hnext : s.next (.wrlock t) = some s') :
    Invariant s' := by
  simp only [State.next] at hnext
  split at hnext
  next =>
    split at hnext
    next hfree =>
      obtain rfl := Option.some.inj hnext
      exact { h with passed := fun _ _ _ => h.closed hfree.1 }
    next => cases hnext
  next => cases hnext

theorem Invariant.unlock {t : ℕ} (h : Invariant s) (hnext : s.next (.unlock t) = some s') :
    Invariant s' := by
  simp only [State.next] at hnext
  split at hnext
  next p hlocked =>
    obtain rfl := Option.some.inj hnext
    exact { h with passed := fun _ _ _ => h.passed t p (.inl hlocked) }
  next => cases hnext

theorem step_preserves_invariant {e : Event} (h : Invariant s) (hmeets : s.Meets e)
    (hnext : s.next e = some s') : Invariant s' := by
  cases e with
  | procCreate => exact h.procCreate hmeets hnext
  | mainLock => exact h.mainLock hnext
  | condWait => exact h.condWait hnext
  | wake => exact h.wake hnext
  | mainUnlock => exact h.mainUnlock hnext
  | release => exact h.release hnext
  | finish => exact h.finish hnext
  | creatorLock => exact h.creatorLock hnext
  | fork => exact h.fork hnext
  | forkFails => exact h.forkFails hmeets hnext
  | creatorDone => exact h.creatorDone hnext
  | find => exact h.find hnext
  | threadStart => exact h.threadStart hnext
  | wrlock => exact h.wrlock hnext
  | unlock => exact h.unlock hnext

/-! ## Runs -/

theorem Run.invariant {trace : List (State × Event)} (h : Run trace s)
    (hmeets : ∀ x ∈ trace, x.1.Meets x.2) : Invariant s := by
  refine Trace.Run.invariant (I := fun _ s => Invariant s) h hmeets ?_ ?_
  · rintro s rfl
    exact initial_invariant
  · exact fun _ _ _ _ hinv hmeets hnext => step_preserves_invariant hinv hmeets hnext

/-- In the first run of a session the barrier holds. -/
theorem flowopStart_barrier {trace : List (State × Event)} (h : Run trace s)
    (hmeets : ∀ x ∈ trace, x.1.Meets x.2) : s.Holds :=
  (Run.invariant h hmeets).holds

/-- The main process creates one process and lets its thread go. -/
def firstRun : List Event :=
  [.procCreate 1 true, .mainLock, .condWait, .creatorLock 1, .fork 1 0, .creatorDone 1, .wake,
    .mainUnlock, .release, .find 0, .threadStart 0 0, .wrlock 0, .unlock 0]

theorem flowopStart_barrier_first :
    ∃ s : State, s.thread 0 = .passed 0 ∧ s.proc 0 = .found 1 ∧ s.Holds := by
  have hpassed : (firstRun.foldlM State.next initial).map
      (fun s => (s.thread 0, s.proc 0)) = some (.passed 0, .found 1) := by decide
  obtain ⟨s, hs, hview⟩ := Option.map_eq_some_iff.mp hpassed
  obtain ⟨hthread, hproc⟩ := Prod.mk.inj hview
  rw [firstRun, List.foldlM_cons] at hs
  obtain ⟨s₁, hnext, hrest⟩ := Option.bind_eq_some_iff.mp hs
  have hstart : Run [] initial := .start rfl
  obtain ⟨trace, hrun, hmeets⟩ := (hstart.step hnext).events (P := fun x => x.1.Meets x.2)
    (by simp [State.Meets, initial]) hrest (by simp [State.Meets])
  exact ⟨s, hthread, hproc, flowopStart_barrier hrun hmeets⟩

/-- In the second run the lock is free from the beginning. -/
def secondRun : List Event :=
  [.finish, .procCreate 1 true, .mainLock, .condWait, .creatorLock 2, .fork 2 1, .creatorDone 2,
    .find 1, .threadStart 1 1, .wrlock 1]

/-- The thread of the second run does not wait for the release. -/
theorem flowopStart_passes :
    ∃ trace s, Run trace s ∧ s.Passed 1 1 ∧ s.proc 1 = .found 2 ∧ s.released 2 = false ∧
      ¬ s.Holds := by
  have hpassed : ((firstRun ++ secondRun).foldlM State.next initial).map
      (fun s => (s.thread 1, s.proc 1, s.released 2)) =
      some (.locked 1, .found 2, false) := by decide
  obtain ⟨s, hs, hview⟩ := Option.map_eq_some_iff.mp hpassed
  obtain ⟨hthread, hview⟩ := Prod.mk.inj hview
  obtain ⟨hproc, hreleased⟩ := Prod.mk.inj hview
  obtain ⟨trace, hrun, -⟩ := (Trace.Run.start rfl : Run [] initial).events
    (P := fun _ => True) (fun _ hx => absurd hx List.not_mem_nil) hs fun _ _ _ => trivial
  refine ⟨trace, s, hrun, .inl hthread, hproc, hreleased, fun hholds => ?_⟩
  have hrel := (hholds 1 1 2 (.inl hthread) hproc).2
  rw [hreleased] at hrel
  cases hrel

end Filebench.Barrier
