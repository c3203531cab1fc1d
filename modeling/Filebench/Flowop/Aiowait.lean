import Filebench.Flowop.Abort
import Filebench.Lib.CString
import Filebench.Lib.Linked

/-! # Waiting for asynchronous writes

`fb_lfsflow_aiowait` as built without `aio_waitn`: it walks the requests of the thread, takes those
that are done off the list that it walks, and begins anew while too many are left. -/
namespace Filebench

open Linked

/-- `EINPROGRESS` -/
def einprogress : ℤ := 115

/-- `MAXREAP` -/
def maxreap : ℤ := 4096

/-- What `aio_error64` and `aio_return64` say of a request. -/
structure AioStatus where
  aioError : ℤ
  aioReturn : ℤ

def AioStatus.inProgress (st : AioStatus) : Bool := st.aioError = einprogress

def AioStatus.failed (st : AioStatus) : Bool :=
  !st.inProgress && (st.aioReturn = -1 || st.aioError ≠ 0)

def AioStatus.succeeded (st : AioStatus) : Bool := !st.inProgress && !st.failed

/-- The list of requests of a thread. -/
structure AioThread (n : ℕ) where
  tfAiolist : Option (Fin n)
  alNext : Fin n → Option (Fin n)

variable {n : ℕ}

/-- The search of `aio_deallocate`: the element before the one that is found, if there is one. -/
def aioFind (alNext : Fin n → Option (Fin n)) (aiocb : Fin n) :
    ℕ → Option (Fin n) → Option (Fin n) → Option (Option (Fin n))
  | 0, _, _ => none
  | _, none, _ => none
  | fuel + 1, some aiolist, previous =>
    if aiolist = aiocb then some previous
    else aioFind alNext aiocb fuel (alNext aiolist) (some aiolist)

/-- Nothing where it returns `FILEBENCH_ERROR`. The element itself keeps its link. The control block
lies within an element, so that it is not null. -/
def aioDeallocate (aiocb : Fin n) (s : AioThread n) : Option (AioThread n) :=
  (aioFind s.alNext aiocb n s.tfAiolist none).map fun previous =>
    match previous with
    | some previous => { s with alNext := Function.update s.alNext previous (s.alNext aiocb) }
    | none => { s with tfAiolist := s.alNext aiocb }

/-- During a pass. The requests that were taken off the list are on record. -/
structure Reap (n : ℕ) where
  thread : AioThread n
  ncompleted : ℕ
  inprogress : ℕ
  removed : List (Fin n)
  log : List CString

section source

variable (strerror : ℤ → CString) (aio : Fin n → AioStatus)

def aioFailedError (result : ℤ) : CString := "aio failed: ".toList ++ strerror result

def aioRemoveError : CString := "Could not remove aio from list ".toList

def aioSummary (ncompleted inprogress : ℕ) (uncompleted : ℤ) : CString :=
  "aio2 completed ".toList ++ Nat.toDigits 10 ncompleted ++ " ios, uncompleted = ".toList ++
    (toString uncompleted).toList ++ ", inprogress = ".toList ++ Nat.toDigits 10 inprogress

/-- The body of the loop. The flag tells whether the loop goes on. -/
def reapOne (p : Fin n) (r : Reap n) : Bool × Reap n :=
  if (aio p).inProgress then (true, { r with inprogress := r.inprogress + 1 })
  else if (aio p).failed then
    (true, { r with log := r.log ++ [aioFailedError strerror (aio p).aioError] })
  else
    let r := { r with ncompleted := r.ncompleted + 1 }
    match aioDeallocate p r.thread with
    | some thread => (true, { r with thread, removed := r.removed ++ [p] })
    | none => (false, { r with log := r.log ++ [aioRemoveError] })

/-- The comma of C. -/
def comma {α β : Type} (_ : α) (b : β) : β := b

/-- One pass over the list. -/
def reapLoop (todo : ℤ) : ℕ → Option (Fin n) → Reap n → Option (Bool × Reap n)
  | fuel, o, r =>
    match fuel, comma (decide (r.ncompleted < todo)) o with
    | _, none => some (true, r)
    | 0, some _ => none
    | fuel + 1, some p =>
      let (goon, r) := reapOne strerror aio p r
      if goon then reapLoop todo fuel (r.thread.alNext p) r else some (false, r)

/-- Half of the requests. -/
def aioTodo (uncompleted : ℤ) : ℤ :=
  let todo := if uncompleted > maxreap then maxreap else uncompleted / 2
  if todo = 0 then 1 else todo

/-- The loop around the passes. -/
def aiowaitLoop : ℕ → ℤ → Reap n → Option (FuncRet × Reap n)
  | 0, _, _ => none
  | passes + 1, uncompleted, r => do
    let (goon, r) ← reapLoop strerror aio (aioTodo uncompleted) n r.thread.tfAiolist
      { r with ncompleted := 0, inprogress := 0 }
    if goon then
      let uncompleted := uncompleted - r.ncompleted
      let r := { r with log := r.log ++ [aioSummary r.ncompleted r.inprogress uncompleted] }
      if uncompleted > maxreap then aiowaitLoop passes uncompleted r else some (.ok, r)
    else some (.error, r)

end source

/-- The requests on the list. More than an `int` holds are undefined. -/
def countAios (alNext : Fin n → Option (Fin n)) : ℕ → Option (Fin n) → ℤ → Option ℤ
  | _, none, uncompleted => some uncompleted
  | 0, some _, _ => none
  | fuel + 1, some aio, uncompleted =>
    if uncompleted + 1 < 2 ^ 31 then countAios alNext fuel (alNext aio) (uncompleted + 1) else none

def fbLfsflowAiowait (strerror : ℤ → CString) (aio : Fin n → AioStatus) (passes : ℕ)
    (s : AioThread n) : Option (FuncRet × Reap n) := do
  let uncompleted ← countAios s.alNext n s.tfAiolist 0
  aiowaitLoop strerror aio passes uncompleted ⟨s, 0, 0, [], []⟩

/-! ## One pass -/

section pass

variable (strerror : ℤ → CString) (aio : Fin n → AioStatus) {s : AioThread n} {r : Reap n}
  {l l₁ l₂ : List (Fin n)} {p : Fin n}

theorem aioFind_eq {alNext : Fin n → Option (Fin n)} {h previous : Option (Fin n)} {fuel : ℕ}
    (hl : IsList alNext h (l₁ ++ p :: l₂)) (hfuel : l₁.length < fuel) :
    aioFind alNext p fuel h previous = some (l₁.getLast?.or previous) := by
  induction l₁ generalizing h previous fuel with
  | nil =>
    obtain ⟨fuel, rfl⟩ := Nat.exists_eq_add_of_lt hfuel
    rw [hl.1, aioFind, if_pos rfl]
    rfl
  | cons q l₁ ih =>
    obtain ⟨fuel, rfl, hle⟩ := exists_fuel hfuel
    have hne : q ≠ p := by
      rintro rfl
      exact (List.nodup_cons.mp hl.nodup).1 (by simp)
    rw [hl.1, aioFind, if_neg hne, ih hl.2 hle]
    cases l₁ using List.reverseRecOn with
    | nil => rfl
    | append_singleton l₁ e => simp [List.getLast?_cons]

/-- A request is taken off the list, and its link is left. -/
theorem aioDeallocate_spec (hl : IsList s.alNext s.tfAiolist (l₁ ++ p :: l₂)) :
    ∃ s', aioDeallocate p s = some s' ∧ IsList s'.alNext s'.tfAiolist (l₁ ++ l₂) ∧
      s'.alNext p = s.alNext p := by
  have hlen := length_le_of_isList hl
  rw [List.length_append, List.length_cons] at hlen
  have hfind : aioFind s.alNext p n s.tfAiolist none = some (l₁.getLast?.or none) :=
    aioFind_eq hl (by omega)
  rw [aioDeallocate, hfind]
  cases l₁ using List.reverseRecOn with
  | nil => exact ⟨_, rfl, hl.2, rfl⟩
  | append_singleton l₁ e =>
    have hne : p ≠ e := by
      rintro rfl
      have hnd := hl.nodup
      rw [List.append_assoc, List.singleton_append, List.nodup_append] at hnd
      exact (List.nodup_cons.mp hnd.2.1).1 (.head _)
    rw [List.append_assoc, List.singleton_append] at hl ⊢
    rw [List.getLast?_concat]
    exact ⟨_, rfl, hl.unlink, Function.update_of_ne hne ..⟩

theorem reapLoop_none (todo : ℤ) (fuel : ℕ) :
    reapLoop strerror aio todo fuel none r = some (true, r) := by
  cases fuel <;> rfl

theorem reapLoop_some (todo : ℤ) (fuel : ℕ) (p : Fin n) :
    reapLoop strerror aio todo (fuel + 1) (some p) r =
      if (reapOne strerror aio p r).1 then reapLoop strerror aio todo fuel
        ((reapOne strerror aio p r).2.thread.alNext p) (reapOne strerror aio p r).2
      else some (false, (reapOne strerror aio p r).2) := rfl

/-- A request that is in progress or has failed stays. -/
theorem reapOne_kept (h : (aio p).succeeded = false) : ∃ r', reapOne strerror aio p r = (true, r') ∧
    r'.thread = r.thread ∧ r'.ncompleted = r.ncompleted ∧ r'.removed = r.removed := by
  unfold reapOne
  by_cases hprogress : (aio p).inProgress
  · rw [if_pos hprogress]
    exact ⟨_, rfl, rfl, rfl, rfl⟩
  · have hfailed : (aio p).failed := by
      simpa [AioStatus.succeeded, hprogress] using h
    rw [if_neg hprogress, if_pos hfailed]
    exact ⟨_, rfl, rfl, rfl, rfl⟩

/-- One that succeeded is taken off. -/
theorem reapOne_removed (h : (aio p).succeeded = true)
    (hl : IsList r.thread.alNext r.thread.tfAiolist (l₁ ++ p :: l₂)) :
    ∃ r', reapOne strerror aio p r = (true, r') ∧
      IsList r'.thread.alNext r'.thread.tfAiolist (l₁ ++ l₂) ∧
      r'.thread.alNext p = r.thread.alNext p ∧ r'.ncompleted = r.ncompleted + 1 ∧
      r'.removed = r.removed ++ [p] := by
  simp only [AioStatus.succeeded, Bool.and_eq_true, Bool.not_eq_true'] at h
  obtain ⟨thread, hthread, hlist, hlink⟩ := aioDeallocate_spec hl
  unfold reapOne
  rw [if_neg (Bool.eq_false_iff.mp h.1), if_neg (Bool.eq_false_iff.mp h.2)]
  dsimp only
  rw [hthread]
  exact ⟨_, rfl, hlist, hlink, rfl, rfl⟩

/-- What a pass does to the rest `l` of the list, behind what it has left there. -/
structure Sweep (aio : Fin n → AioStatus) (kept l : List (Fin n)) (r r' : Reap n) : Prop where
  list : IsList r'.thread.alNext r'.thread.tfAiolist (kept ++ l.filter fun p => !(aio p).succeeded)
  ncompleted : r'.ncompleted = r.ncompleted + (l.filter fun p => (aio p).succeeded).length
  removed : r'.removed = r.removed ++ l.filter fun p => (aio p).succeeded

/-- The walk goes on over an element that it has taken off. -/
theorem reapLoop_spec (todo : ℤ) {kept : List (Fin n)} {fuel : ℕ}
    (hl : IsList r.thread.alNext r.thread.tfAiolist (kept ++ l)) (hfuel : l.length ≤ fuel) :
    ∃ r', reapLoop strerror aio todo fuel l.head? r = some (true, r') ∧
      Sweep aio kept l r r' := by
  induction l generalizing kept r fuel with
  | nil => exact ⟨r, reapLoop_none strerror aio todo fuel, hl, rfl, (List.append_nil _).symm⟩
  | cons p l ih =>
    obtain ⟨fuel, rfl, hle⟩ := exists_fuel hfuel
    have hnext : r.thread.alNext p = l.head? := hl.tail.head
    rw [List.head?_cons, reapLoop_some]
    cases hstatus : (aio p).succeeded with
    | true =>
      obtain ⟨r₁, hone, hlist, hlink, hcount, hremoved⟩ :=
        reapOne_removed strerror aio hstatus hl
      obtain ⟨r', hrest, hsweep⟩ := ih hlist hle
      have hfilter : (p :: l).filter (fun p => (aio p).succeeded) =
          p :: l.filter fun p => (aio p).succeeded := List.filter_cons_of_pos hstatus
      refine ⟨r', ?_, ?_, ?_, ?_⟩
      · rw [hone, if_pos rfl, hlink, hnext, hrest]
      · simpa [List.filter_cons, hstatus] using hsweep.list
      · rw [hsweep.ncompleted, hcount, hfilter, List.length_cons]
        omega
      · rw [hsweep.removed, hremoved, hfilter, List.append_assoc]
        rfl
    | false =>
      obtain ⟨r₁, hone, hthread, hcount, hremoved⟩ :=
        reapOne_kept strerror aio (r := r) hstatus
      rw [List.append_cons, ← hthread] at hl
      obtain ⟨r', hrest, hsweep⟩ := ih hl hle
      refine ⟨r', ?_, ?_, ?_, ?_⟩
      · rw [hone, if_pos rfl, hthread, hnext, hrest]
      · simpa [List.filter_cons, hstatus] using hsweep.list
      · simpa [List.filter_cons, hstatus, hcount] using hsweep.ncompleted
      · simpa [List.filter_cons, hstatus, hremoved] using hsweep.removed

/-! ## The whole call -/

/-- What is left after a pass. -/
def unreaped (aio : Fin n → AioStatus) (l : List (Fin n)) : List (Fin n) :=
  l.filter fun p => !(aio p).succeeded

theorem aiowaitLoop_succ (hl : IsList r.thread.alNext r.thread.tfAiolist l) :
    ∃ r', IsList r'.thread.alNext r'.thread.tfAiolist (unreaped aio l) ∧
      r'.removed = r.removed ++ (l.filter fun p => (aio p).succeeded) ∧
      ∀ passes, aiowaitLoop strerror aio (passes + 1) l.length r =
        if ((unreaped aio l).length : ℤ) > maxreap then
          aiowaitLoop strerror aio passes (unreaped aio l).length r'
        else some (.ok, r') := by
  obtain ⟨r₁, hloop, hsweep⟩ := reapLoop_spec strerror aio
    (r := { r with ncompleted := 0, inprogress := 0 }) (aioTodo l.length)
    (show IsList r.thread.alNext r.thread.tfAiolist ([] ++ l) from hl) (length_le_of_isList hl)
  have hcount : (l.length : ℤ) - r₁.ncompleted = (unreaped aio l).length := by
    have hsplit := List.length_eq_length_filter_add (l := l) fun p => (aio p).succeeded
    rw [hsweep.ncompleted, unreaped]
    dsimp only
    omega
  refine ⟨{ r₁ with log := r₁.log ++
    [aioSummary r₁.ncompleted r₁.inprogress (unreaped aio l).length] },
    hsweep.list, hsweep.removed, fun passes => ?_⟩
  rw [aiowaitLoop, hl.head, hloop]
  change (if (l.length : ℤ) - r₁.ncompleted > maxreap then _ else _) = _
  rw [hcount]

/-- Too many requests that stay: the call does not return. -/
theorem aiowaitLoop_stuck (hl : IsList r.thread.alNext r.thread.tfAiolist l)
    (hstay : ∀ p ∈ l, (aio p).succeeded = false) (hmany : (l.length : ℤ) > maxreap) (passes : ℕ) :
    aiowaitLoop strerror aio passes l.length r = none := by
  induction passes generalizing r with
  | zero => rfl
  | succ passes ih =>
    have hleft : unreaped aio l = l := List.filter_eq_self.mpr fun p hp => by rw [hstay p hp]; rfl
    obtain ⟨r', hlist, -, hpass⟩ := aiowaitLoop_succ strerror aio hl
    rw [hpass, hleft, if_pos hmany]
    rw [hleft] at hlist
    exact ih hlist

theorem countAios_eq {alNext : Fin n → Option (Fin n)} {h : Option (Fin n)} {fuel : ℕ} {u : ℤ}
    (hl : IsList alNext h l) (hfuel : l.length ≤ fuel) (hu : u < 2 ^ 31) :
    countAios alNext fuel h u = if u + l.length < 2 ^ 31 then some (u + l.length) else none := by
  induction l generalizing h fuel u with
  | nil =>
    obtain rfl : h = none := hl
    rw [List.length_nil, Nat.cast_zero, add_zero, if_pos hu]
    cases fuel <;> rfl
  | cons p l ih =>
    obtain ⟨fuel, rfl, hle⟩ := exists_fuel hfuel
    rw [hl.1, countAios, List.length_cons]
    push_cast
    split_ifs with hone hall hall
    · rw [ih hl.2 hle hone, if_pos (by omega)]
      congr 1
      omega
    · rw [ih hl.2 hle hone, if_neg (by omega)]
    · omega
    · rfl

/-- Exactly the requests in progress are left, in their order, and every other one was taken off
once. -/
structure Reaped (aio : Fin n → AioStatus) (l : List (Fin n)) (r : Reap n) : Prop where
  list : IsList r.thread.alNext r.thread.tfAiolist (l.filter fun p => (aio p).inProgress)
  removed : r.removed = l.filter fun p => !(aio p).inProgress

theorem fbLfsflowAiowait_eq (hl : IsList s.alNext s.tfAiolist l) (passes : ℕ) :
    fbLfsflowAiowait strerror aio passes s = if l.length < 2 ^ 31 then
      aiowaitLoop strerror aio passes l.length ⟨s, 0, 0, [], []⟩ else none := by
  rw [fbLfsflowAiowait, countAios_eq hl (length_le_of_isList hl) (by norm_num), zero_add]
  by_cases hlen : l.length < 2 ^ 31
  · rw [if_pos hlen, if_pos (by omega)]
    rfl
  · rw [if_neg hlen, if_neg (by omega)]
    rfl

/-- The requests that succeeded are those that are done, unless one has failed. -/
theorem unreaped_eq_iff : unreaped aio l = (l.filter fun p => (aio p).inProgress) ↔
    ∀ p ∈ l, (aio p).failed = false := by
  constructor
  · intro hleft p hp
    by_contra hfailed
    have hmem : p ∈ unreaped aio l :=
      List.mem_filter.mpr ⟨hp, by simp [AioStatus.succeeded, hfailed]⟩
    rw [hleft, List.mem_filter] at hmem
    rw [AioStatus.failed, hmem.2] at hfailed
    exact hfailed rfl
  · intro hfailed
    refine List.filter_congr fun p hp => ?_
    rw [AioStatus.succeeded, hfailed p hp, Bool.not_false, Bool.and_true, Bool.not_not]

/-- The call returns with the requests in progress left if and only if no request has failed and no
more than 4096 are in progress, while an `int` holds their number. -/
theorem fbLfsflowAiowait_reaped (hl : IsList s.alNext s.tfAiolist l) :
    (∃ passes ret r, fbLfsflowAiowait strerror aio passes s = some (ret, r) ∧ Reaped aio l r) ↔
      l.length < 2 ^ 31 ∧ (∀ p ∈ l, (aio p).failed = false) ∧
        (l.filter fun p => (aio p).inProgress).length ≤ 4096 := by
  obtain ⟨r', hlist, hremoved, hpass⟩ := aiowaitLoop_succ strerror aio
    (r := ⟨s, 0, 0, [], []⟩) hl
  constructor
  · rintro ⟨passes, ret, r, hrun, hreaped⟩
    rw [fbLfsflowAiowait_eq strerror aio hl] at hrun
    obtain ⟨hlen, hrun⟩ := Option.ite_none_right_eq_some.mp hrun
    have hstay : ∀ p ∈ unreaped aio l, (aio p).succeeded = false := fun p hp => by
      simpa using (List.mem_filter.mp hp).2
    cases passes with
    | zero => exact absurd hrun.symm (Option.some_ne_none _)
    | succ passes =>
      rw [hpass] at hrun
      by_cases hmany : ((unreaped aio l).length : ℤ) > maxreap
      · rw [if_pos hmany, aiowaitLoop_stuck strerror aio hlist hstay hmany] at hrun
        exact absurd hrun.symm (Option.some_ne_none _)
      · rw [if_neg hmany] at hrun
        obtain ⟨-, rfl⟩ := Prod.mk.inj (Option.some.inj hrun)
        have hleft := hlist.unique hreaped.list
        refine ⟨hlen, (unreaped_eq_iff aio).mp hleft, ?_⟩
        rw [← hleft]
        unfold maxreap at hmany
        omega
  · rintro ⟨hlen, hfailed, hfew⟩
    have hleft := (unreaped_eq_iff aio).mpr hfailed
    refine ⟨1, .ok, r', ?_, ?_, ?_⟩
    · rw [fbLfsflowAiowait_eq strerror aio hl, if_pos hlen, hpass, hleft, if_neg]
      unfold maxreap
      omega
    · rw [← hleft]
      exact hlist
    · rw [hremoved, List.nil_append]
      refine List.filter_congr fun p hp => ?_
      rw [AioStatus.succeeded, hfailed p hp, Bool.not_false, Bool.and_true]

end pass

/-- Two requests on the list, the second of which is at its end. -/
def twoRequests : AioThread 2 := ⟨some 0, fun p => if p = 0 then some 1 else none⟩

/-- The first has succeeded and the second is in progress. -/
theorem fbLfsflowAiowait_reaped_two : ∃ passes ret r,
    fbLfsflowAiowait (fun _ => []) (fun p => if p = 0 then ⟨0, 4096⟩ else ⟨einprogress, 0⟩) passes
      twoRequests = some (ret, r) ∧
    Reaped (fun p => if p = 0 then ⟨0, 4096⟩ else ⟨einprogress, 0⟩) [0, 1] r :=
  (fbLfsflowAiowait_reaped _ _ (s := twoRequests) (l := [0, 1]) ⟨rfl, rfl, rfl⟩).mpr (by decide)

/-- One request, which has failed with `EIO`, stays on the list of the thread. -/
theorem fbLfsflowAiowait_failed :
    ¬ ∃ passes ret r, fbLfsflowAiowait (fun _ => []) (fun _ => ⟨5, -1⟩) passes
      (⟨some 0, fun _ => none⟩ : AioThread 1) = some (ret, r) ∧
        Reaped (fun _ => ⟨5, -1⟩) [0] r := by
  rintro ⟨passes, ret, r, hrun, hreaped⟩
  cases passes with
  | zero => exact absurd hrun.symm (Option.some_ne_none _)
  | succ passes =>
    obtain ⟨-, rfl⟩ := Prod.mk.inj (Option.some.inj hrun)
    exact absurd hreaped.removed (by decide)

end Filebench
