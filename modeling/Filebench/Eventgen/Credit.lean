import Filebench.Eventgen.Limit

/-! # The credit of a limiter

The bucket is at most full after every invocation if and only if no invocation finds a count that
has gone down by more than what the bucket lacks. -/
namespace Filebench

variable {ι τ π : Type} [DecidableEq ι] [DecidableEq τ] [DecidableEq π] {env : LimitEnv ι π}
  {s s' : LimitState ι τ π} {e : LimitEvent ι τ π}
  {trace : List (LimitState ι τ π × LimitEvent ι τ π)}

/-- After an invocation there is no more credit than the bound. -/
def LimitEnv.Bounded (env : LimitEnv ι π) (s : LimitState ι τ π) : Prop :=
  s.waiting = none → s.flowop.bucket.foTputbucket.toInt ≤ env.kind.bound

/-- The count has not gone down by more than the bucket lacks, or by so much that the bucket runs
over. How far it went is a difference of two words, taken with its sign. -/
def LimitEnv.KeepsCredit (env : LimitEnv ι π) (s : LimitState ι τ π) (e : LimitEvent ι τ π) :
    Prop :=
  ∀ count, env.reading s e = some count → s.flowop.bucket.foTputlast ≠ 0 →
    (s.flowop.bucket.foTputlast - count).toInt ≤
        env.kind.bound - s.flowop.bucket.foTputbucket.toInt ∨
      2 ^ 63 ≤ (s.flowop.bucket.foTputlast - count).toInt + s.flowop.bucket.foTputbucket.toInt

/-- A limiter that does not wait has some credit, but not too much; one that waits has none. -/
structure Credit (env : LimitEnv ι π) (s : LimitState ι τ π) : Prop where
  nonneg : s.waiting = none → 0 ≤ s.flowop.bucket.foTputbucket.toInt
  bounded : env.Bounded s
  awaits : ∀ events, s.waiting = some events → env.kind.Awaits s.flowop.bucket events

theorem LimitStart.credit (h : LimitStart s) : Credit env s := by
  have hbound : 0 ≤ env.kind.bound := by cases env.kind <;> decide
  constructor
  · intro _
    rw [h.bucket]
    decide
  · intro _
    rw [h.bucket]
    exact hbound
  · intro events hwaiting
    exact absurd (h.waiting.symm.trans hwaiting) nofun

theorem LimitKind.bound_mem (k : LimitKind) : 0 ≤ k.bound ∧ k.bound ≤ 1048576 := by
  cases k <;> decide

theorem keepsCredit_of_not_reading (h : env.reading s e = none) : env.KeepsCredit s e :=
  fun _ hreading => absurd (h.symm.trans hreading) nofun

/-- One charge keeps the bound exactly where the count has not gone down too far. -/
theorem Credit.charge {count : BitVec 64} (h : Credit env s)
    (hreading : env.reading s e = some count) (hidle : s.waiting = none)
    (hcharged : env.kind.charge count s.flowop.bucket = some (s'.flowop.bucket, s'.waiting)) :
    (env.Bounded s' ↔ env.KeepsCredit s e) ∧ (env.Bounded s' → Credit env s') := by
  have hnonneg := h.nonneg hidle
  have hbounded := h.bounded hidle
  by_cases hzero : s.flowop.bucket.foTputlast = 0
  · rw [LimitKind.charge_first hzero] at hcharged
    obtain ⟨hbucket, hwaiting⟩ := Prod.mk.inj (Option.some.inj hcharged)
    have hkeeps : env.KeepsCredit s e := fun _ _ hne => absurd hzero hne
    have hbounded' : env.Bounded s' := by
      intro _
      rw [← hbucket]
      exact hbounded
    refine ⟨iff_of_true hbounded' hkeeps, fun _ => ⟨fun _ => ?_, hbounded', ?_⟩⟩
    · rw [← hbucket]
      exact hnonneg
    · rw [← hwaiting]
      exact nofun
  · obtain ⟨hbucket, hcredit, hawaits⟩ := LimitKind.charge_next hzero hcharged
    obtain ⟨hbound, hbound'⟩ := env.kind.bound_mem
    have hmin := BitVec.le_toInt (s.flowop.bucket.foTputlast - count)
    have hmax := BitVec.toInt_lt (x := s.flowop.bucket.foTputlast - count)
    have hsum : s'.flowop.bucket.foTputbucket.toInt = (s.flowop.bucket.foTputbucket.toInt +
        (s.flowop.bucket.foTputlast - count).toInt).bmod (2 ^ 64) := by
      rw [hbucket, Wrap.toInt_sub_toNat, Int.add_bmod_bmod]
      congr 1
      ring
    have hkeeps : env.KeepsCredit s e ↔
        (s.flowop.bucket.foTputlast - count).toInt ≤
          env.kind.bound - s.flowop.bucket.foTputbucket.toInt ∨
        2 ^ 63 ≤ (s.flowop.bucket.foTputlast - count).toInt +
          s.flowop.bucket.foTputbucket.toInt := by
      refine ⟨fun hkeeps => hkeeps count hreading hzero, fun hkeeps count' hreading' _ => ?_⟩
      obtain rfl := Option.some.inj (hreading.symm.trans hreading')
      exact hkeeps
    refine ⟨?_, fun hbounded' => ⟨hcredit, hbounded', hawaits⟩⟩
    rw [hkeeps]
    by_cases hover : 2 ^ 63 ≤ (s.flowop.bucket.foTputlast - count).toInt +
        s.flowop.bucket.foTputbucket.toInt
    · rw [Wrap.bmod_above (by omega) (by omega)] at hsum
      refine iff_of_true (fun hwaiting => ?_) (.inr hover)
      have hpos := hcredit hwaiting
      omega
    · rw [Wrap.bmod_within (by omega) (by omega)] at hsum
      constructor
      · intro hbounded'
        cases hwaiting : s'.waiting with
        | none =>
          have hle := hbounded' hwaiting
          omega
        | some events =>
          have howes := (hawaits events hwaiting).owes
          dsimp only at howes
          omega
      · rintro (hle | hge)
        · intro _
          omega
        · exact absurd hge hover

theorem Credit.next (h : Credit env s) (hnext : env.next s e = some s') :
    (env.Bounded s' ↔ env.KeepsCredit s e) ∧ (env.Bounded s' → Credit env s') := by
  cases LimitStep.of_next hnext with
  | idle hreading hbucket hwaiting _ _ _ =>
    have hcredit : Credit env s' := by
      constructor
      · rw [hwaiting, hbucket]
        exact h.nonneg
      · rw [LimitEnv.Bounded, hwaiting, hbucket]
        exact h.bounded
      · rw [hwaiting, hbucket]
        exact h.awaits
    exact ⟨iff_of_true hcredit.bounded (keepsCredit_of_not_reading hreading), fun _ => hcredit⟩
  | charge count hreading hidle hcharged _ _ _ => exact h.charge hreading hidle hcharged
  | consume events hreading hwaits hbucket hwaiting _ _ _ =>
    obtain ⟨-, hpos, hle⟩ := LimitKind.refill_bucket (h.awaits events hwaits)
    have hcredit : Credit env s' := by
      constructor
      · intro _
        rw [hbucket]
        exact hpos
      · intro _
        rw [hbucket]
        exact hle
      · rw [hwaiting]
        exact nofun
    exact ⟨iff_of_true hcredit.bounded (keepsCredit_of_not_reading hreading), fun _ => hcredit⟩

theorem LimitRun.credit (h : LimitRun env trace s) :
    ((env.Bounded s ∧ ∀ x ∈ trace, env.Bounded x.1) ↔ ∀ x ∈ trace, env.KeepsCredit x.1 x.2) ∧
      ((env.Bounded s ∧ ∀ x ∈ trace, env.Bounded x.1) → Credit env s) := by
  induction h with
  | start hstart =>
    have hcredit : Credit env _ := hstart.credit
    refine ⟨iff_of_true ⟨hcredit.bounded, fun _ hx => absurd hx List.not_mem_nil⟩
      fun _ hx => absurd hx List.not_mem_nil, fun _ => hcredit⟩
  | step hrun hnext ih =>
    obtain ⟨hiff, hcredit⟩ := ih
    rw [List.forall_mem_cons, List.forall_mem_cons, ← hiff]
    constructor
    · constructor
      · rintro ⟨hbounded, hearlier⟩
        exact ⟨((hcredit hearlier).next hnext).1.mp hbounded, hearlier⟩
      · rintro ⟨hkeeps, hearlier⟩
        exact ⟨((hcredit hearlier).next hnext).1.mpr hkeeps, hearlier⟩
    · rintro ⟨hbounded, hearlier⟩
      exact ((hcredit hearlier).next hnext).2 hbounded

/-- In every run there is never more credit than the bound if and only if no invocation finds a
count that has gone down too far. -/
theorem limitRun_bounded (h : LimitRun env trace s) :
    (env.Bounded s ∧ ∀ x ∈ trace, env.Bounded x.1) ↔ ∀ x ∈ trace, env.KeepsCredit x.1 x.2 :=
  h.credit.1

/-- The statistics are cleared between two invocations: the reads before are a credit. -/
theorem limitRun_burst : ¬ ∀ (env : LimitEnv Bool Unit) trace (s : LimitState Bool Unit Unit),
    LimitRun env trace s → env.Bounded s := by
  intro h
  have hrun : ([.stats (.endop (readCall 4096)), .invoke true, .stats .clear, .invoke true].foldlM
      (readLimit .iops).next readLimiter).map
      (fun s => (s.waiting, s.flowop.bucket.foTputbucket)) = some (none, 1) := by
    decide +kernel
  obtain ⟨s, hs, hvalues⟩ := Option.map_eq_some_iff.mp hrun
  obtain ⟨hwaiting, hbucket⟩ := Prod.mk.inj hvalues
  have hstart : LimitRun (readLimit .iops) [] readLimiter := readLimiter_start
  obtain ⟨trace, htrace, -⟩ := hstart.events
    (P := fun _ => True) (fun _ hx => absurd hx List.not_mem_nil) hs fun _ _ _ => trivial
  have hbounded := h (readLimit .iops) trace s htrace hwaiting
  rw [hbucket] at hbounded
  exact absurd hbounded (by decide)

/-- What `KeepsCredit` asks of one step. -/
def LimitEnv.keeps (env : LimitEnv Bool Unit) (s : LimitState Bool Unit Unit)
    (e : LimitEvent Bool Unit Unit) : Bool :=
  (env.reading s e).all fun count => s.flowop.bucket.foTputlast = 0 ∨
    (s.flowop.bucket.foTputlast - count).toInt ≤
        env.kind.bound - s.flowop.bucket.foTputbucket.toInt ∨
      2 ^ 63 ≤ (s.flowop.bucket.foTputlast - count).toInt + s.flowop.bucket.foTputbucket.toInt

/-- Two reads, each of which is waited for after the first. -/
theorem limitRun_bounded_reads : ∃ s : LimitState Bool Unit Unit,
    s.consumed = 1 ∧ (readLimit .bw).Bounded s := by
  have hrun : ([.stats (.endop (readCall 4096)), .invoke true, .stats (.endop (readCall 4096)),
      .invoke true, .consume 1].foldlM
      (Trace.guarded (readLimit .bw).keeps (readLimit .bw).next) readLimiter).map
      (fun s => s.consumed) = some 1 := by
    decide +kernel
  obtain ⟨s, hs, hconsumed⟩ := Option.map_eq_some_iff.mp hrun
  obtain ⟨trace, htrace, -, hkeeps⟩ := readLimiter_start.guarded
    (fun _ hx => absurd hx List.not_mem_nil) hs
  refine ⟨s, hconsumed, ((limitRun_bounded htrace).mpr fun x hx count hreading hlast => ?_).1⟩
  have hmeets := hkeeps x hx
  rw [LimitEnv.keeps, hreading] at hmeets
  exact (of_decide_eq_true hmeets).resolve_left hlast

end Filebench
