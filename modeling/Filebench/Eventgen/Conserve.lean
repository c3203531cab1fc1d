import Filebench.Eventgen.Limit

/-! # What the limiters let through

The operations that a limiter has seen are those that it consumed events for, up to its bucket, if
and only if the first count was not taken twice and the bucket never went below its least value. -/
namespace Filebench

variable {ι τ π : Type} [DecidableEq ι] [DecidableEq τ] [DecidableEq π] {env : LimitEnv ι π}
  {s s' : LimitState ι τ π} {e : LimitEvent ι τ π}
  {trace : List (LimitState ι τ π × LimitEvent ι τ π)}

/-- The counts that the invocations find do not go down. -/
def NonDecreasing (env : LimitEnv ι π)
    (trace : List (LimitState ι τ π × LimitEvent ι τ π)) : Prop :=
  ∀ x ∈ trace, ∀ count, env.reading x.1 x.2 = some count → x.1.latest ≤ count

/-- The operations since the last invocation fit into the bucket. -/
def LimitEnv.Fits (env : LimitEnv ι π) (s : LimitState ι τ π) (e : LimitEvent ι τ π) : Prop :=
  ∀ count, env.reading s e = some count → s.flowop.bucket.foTputlast ≠ 0 →
    (count.toNat : ℤ) - s.flowop.bucket.foTputlast.toNat ≤
      s.flowop.bucket.foTputbucket.toInt + 2 ^ 63

def AllFit (env : LimitEnv ι π) (trace : List (LimitState ι τ π × LimitEvent ι τ π)) : Prop :=
  ∀ x ∈ trace, env.Fits x.1 x.2

/-- What the events consumed are worth, less the operations since the count `base`. -/
def LimitEnv.balance (env : LimitEnv ι π) (s : LimitState ι τ π) (base : ℕ) : ℤ :=
  s.consumed * env.kind.unit.toNat - (s.latest.toNat - base)

/-- The account of a run. The operations are charged from the count `base` on, which is the first
count that was not zero. -/
structure Account (env : LimitEnv ι π) (trace : List (LimitState ι τ π × LimitEvent ι τ π))
    (s : LimitState ι τ π) (base : ℕ) : Prop where
  last : s.flowop.bucket.foTputlast = s.latest
  awaits : ∀ events, s.waiting = some events → env.kind.Awaits s.flowop.bucket events
  none : s.first = none → s.latest = 0
  base_le : base ≤ s.latest.toNat
  first : ∀ first, s.first = some first → (base = first.toNat ↔ first ≠ 0 ∨ s.latest = 0)
  bucket : (AllFit env trace ∧ s.flowop.bucket.foTputbucket.toInt = env.balance s base) ∨
    (¬ AllFit env trace ∧ s.flowop.bucket.foTputbucket.toInt = env.balance s base + 2 ^ 64)

theorem LimitStart.account (h : LimitStart s) : Account env [] s 0 := by
  constructor
  · rw [h.bucket, h.latest]
  · intro events hwaiting
    exact absurd (h.waiting.symm.trans hwaiting) nofun
  · exact fun _ => h.latest
  · exact Nat.zero_le _
  · intro first hfirst
    exact absurd (h.first.symm.trans hfirst) nofun
  · refine .inl ⟨fun _ hx => absurd hx List.not_mem_nil, ?_⟩
    simp [LimitEnv.balance, h.bucket, h.latest, h.consumed]

theorem allFit_cons : AllFit env ((s, e) :: trace) ↔ env.Fits s e ∧ AllFit env trace :=
  List.forall_mem_cons

theorem fits_of_not_reading (h : env.reading s e = none) : env.Fits s e :=
  fun _ hreading => absurd (h.symm.trans hreading) nofun

/-- A step that does not read the counts. -/
theorem allFit_of_not_reading (h : env.reading s e = none) :
    AllFit env ((s, e) :: trace) ↔ AllFit env trace := by
  rw [allFit_cons]
  exact and_iff_right (fits_of_not_reading h)

theorem Account.idle {base : ℕ} (h : Account env trace s base)
    (hreading : env.reading s e = Option.none) (hbucket : s'.flowop.bucket = s.flowop.bucket)
    (hwaiting : s'.waiting = s.waiting) (hfirst : s'.first = s.first)
    (hlatest : s'.latest = s.latest) (hconsumed : s'.consumed = s.consumed) :
    Account env ((s, e) :: trace) s' base := by
  constructor
  · rw [hbucket, hlatest]
    exact h.last
  · rw [hbucket, hwaiting]
    exact h.awaits
  · rw [hfirst, hlatest]
    exact h.none
  · rw [hlatest]
    exact h.base_le
  · rw [hfirst, hlatest]
    exact h.first
  · rw [allFit_of_not_reading hreading, hbucket, LimitEnv.balance, hlatest, hconsumed]
    exact h.bucket

theorem Account.consume {base : ℕ} {events : BitVec 64} (h : Account env trace s base)
    (hreading : env.reading s e = Option.none) (hwaits : s.waiting = some events)
    (hbucket : s'.flowop.bucket = env.kind.refill events s.flowop.bucket)
    (hwaiting : s'.waiting = Option.none) (hfirst : s'.first = s.first)
    (hlatest : s'.latest = s.latest) (hconsumed : s'.consumed = s.consumed + events.toNat) :
    Account env ((s, e) :: trace) s' base := by
  obtain ⟨hrefill, -, -⟩ := LimitKind.refill_bucket (h.awaits events hwaits)
  have hbalance : env.balance s' base =
      env.balance s base + events.toNat * env.kind.unit.toNat := by
    rw [LimitEnv.balance, LimitEnv.balance, hlatest, hconsumed]
    push_cast
    ring
  constructor
  · rw [hbucket, hlatest]
    exact h.last
  · rw [hwaiting]
    exact nofun
  · rw [hfirst, hlatest]
    exact h.none
  · rw [hlatest]
    exact h.base_le
  · rw [hfirst, hlatest]
    exact h.first
  · rw [allFit_of_not_reading hreading, hbucket, hrefill, hbalance]
    rcases h.bucket with ⟨hfit, heq⟩ | ⟨hfit, heq⟩
    · exact .inl ⟨hfit, by rw [heq]⟩
    · exact .inr ⟨hfit, by rw [heq]; ring⟩

/-- The count is taken for the first one. -/
theorem Account.baseline {base : ℕ} {count : BitVec 64} (h : Account env trace s base)
    (hzero : s.flowop.bucket.foTputlast = 0)
    (hcharged : env.kind.charge count s.flowop.bucket = some (s'.flowop.bucket, s'.waiting))
    (hfirst : s'.first = some (s.first.getD count)) (hlatest : s'.latest = count)
    (hconsumed : s'.consumed = s.consumed) :
    Account env ((s, e) :: trace) s' count.toNat := by
  rw [LimitKind.charge_first hzero] at hcharged
  obtain ⟨hbucket, hwaiting⟩ := Prod.mk.inj (Option.some.inj hcharged)
  have hlatest₀ : s.latest = 0 := h.last.symm.trans hzero
  have hfit : env.Fits s e := fun _ _ hne => absurd hzero hne
  have hbase : base = 0 := Nat.le_zero.mp (by simpa [hlatest₀] using h.base_le)
  have hbalance : env.balance s' count.toNat = env.balance s base := by
    rw [LimitEnv.balance, LimitEnv.balance, hlatest, hconsumed, hlatest₀, hbase]
    simp
  constructor
  · rw [← hbucket, hlatest]
  · rw [← hwaiting]
    exact nofun
  · rw [hfirst]
    exact nofun
  · rw [hlatest]
  · intro first hfirst'
    obtain rfl := Option.some.inj (hfirst.symm.trans hfirst')
    rw [hlatest]
    cases hs : s.first with
    | none => exact ⟨fun _ => (ne_or_eq count 0), fun _ => rfl⟩
    | some first =>
      have hfirst₀ : 0 = first.toNat := hbase ▸ (h.first first hs).mpr (.inr hlatest₀)
      obtain rfl : first = 0 := BitVec.eq_of_toNat_eq hfirst₀.symm
      constructor
      · exact fun heq => .inr (BitVec.eq_of_toNat_eq heq)
      · rintro (hne | rfl)
        · exact absurd rfl hne
        · rfl
  · rw [allFit_cons, and_iff_right hfit, ← hbucket, hbalance]
    exact h.bucket

/-- A bucket that went below the least value stays above its balance: it is not as far as that. -/
theorem Account.charge {base : ℕ} {count : BitVec 64} (h : Account env trace s base)
    (hmono : s.latest ≤ count) (hreading : env.reading s e = some count)
    (hlast : s.flowop.bucket.foTputlast ≠ 0)
    (hcharged : env.kind.charge count s.flowop.bucket = some (s'.flowop.bucket, s'.waiting))
    (hfirst : s'.first = some (s.first.getD count)) (hlatest : s'.latest = count)
    (hconsumed : s'.consumed = s.consumed) : Account env ((s, e) :: trace) s' base := by
  obtain ⟨hbucket, -, hawaits⟩ := LimitKind.charge_next hlast hcharged
  have hle : s.latest.toNat ≤ count.toNat := BitVec.le_def.mp hmono
  have hcount : (count.toNat : ℤ) < 2 ^ 64 := by exact_mod_cast count.isLt
  have hbase := h.base_le
  have hlast₀ : s.latest ≠ 0 := h.last ▸ hlast
  have hcount₀ : count ≠ 0 := by
    rintro rfl
    exact hlast₀ (BitVec.eq_of_toNat_eq (Nat.le_zero.mp hle))
  have hbalance : env.balance s' base =
      env.balance s base - ((count.toNat : ℤ) - s.latest.toNat) := by
    rw [LimitEnv.balance, LimitEnv.balance, hlatest, hconsumed]
    ring
  have hlow : -2 ^ 64 < env.balance s' base := by
    have hworth : (0 : ℤ) ≤ s.consumed * env.kind.unit.toNat := by positivity
    rw [LimitEnv.balance, hlatest, hconsumed]
    omega
  have hfits : env.Fits s e ↔ (count.toNat : ℤ) - s.latest.toNat ≤
      s.flowop.bucket.foTputbucket.toInt + 2 ^ 63 := by
    rw [← h.last]
    refine ⟨fun hfits => hfits count hreading hlast, fun hfits count' hreading' _ => ?_⟩
    obtain rfl := Option.some.inj (hreading.symm.trans hreading')
    exact hfits
  have hmin := BitVec.le_toInt s.flowop.bucket.foTputbucket
  have hmax := BitVec.toInt_lt (x := s.flowop.bucket.foTputbucket)
  rw [h.last] at hbucket
  constructor
  · rw [LimitKind.charge_last hcharged, hlatest]
  · exact hawaits
  · rw [hfirst]
    exact nofun
  · rw [hlatest]
    exact hbase.trans hle
  · intro first hfirst'
    obtain rfl := Option.some.inj (hfirst.symm.trans hfirst')
    rw [hlatest]
    cases hs : s.first with
    | none => exact absurd (h.none hs) hlast₀
    | some first =>
      exact (h.first first hs).trans (or_congr_right (iff_of_false hlast₀ hcount₀))
  · rw [allFit_cons, hfits, hbucket, hbalance]
    rcases h.bucket with ⟨hfit, heq⟩ | ⟨hfit, heq⟩
    · by_cases hd : (count.toNat : ℤ) - s.latest.toNat ≤
          s.flowop.bucket.foTputbucket.toInt + 2 ^ 63
      · refine .inl ⟨⟨hd, hfit⟩, ?_⟩
        rw [← heq]
        exact Wrap.bmod_within (by omega) (by omega)
      · refine .inr ⟨fun hboth => hd hboth.1, ?_⟩
        rw [← heq]
        exact Wrap.bmod_below (by omega) (by omega)
    · refine .inr ⟨fun hboth => hfit hboth.2, ?_⟩
      rw [Wrap.bmod_within (by omega) (by omega)]
      omega

theorem Account.next {base : ℕ} (h : Account env trace s base)
    (hmono : ∀ count, env.reading s e = some count → s.latest ≤ count)
    (hnext : env.next s e = some s') : ∃ base', Account env ((s, e) :: trace) s' base' := by
  cases LimitStep.of_next hnext with
  | idle hreading hbucket hwaiting hfirst hlatest hconsumed =>
    exact ⟨base, h.idle hreading hbucket hwaiting hfirst hlatest hconsumed⟩
  | charge count hreading _ hcharged hfirst hlatest hconsumed =>
    by_cases hzero : s.flowop.bucket.foTputlast = 0
    · exact ⟨_, h.baseline hzero hcharged hfirst hlatest hconsumed⟩
    · exact ⟨base, h.charge (hmono count hreading) hreading hzero hcharged hfirst hlatest
        hconsumed⟩
  | consume events hreading hwaits hbucket hwaiting hfirst hlatest hconsumed =>
    exact ⟨base, h.consume hreading hwaits hbucket hwaiting hfirst hlatest hconsumed⟩

theorem LimitRun.account (h : LimitRun env trace s) (hmono : NonDecreasing env trace) :
    ∃ base, Account env trace s base := by
  refine h.invariant (I := fun trace s => ∃ base, Account env trace s base)
    (P := fun s e => ∀ count, env.reading s e = some count → s.latest ≤ count) hmono ?_ ?_
  · exact fun _ hs => ⟨0, hs.account⟩
  · rintro trace s e s' ⟨base, hI⟩ hP hnext
    exact hI.next hP hnext

/-- The operations from the first invocation to the latest one are those that the limiter consumed
events for, less its bucket. -/
def LimitEnv.Conserves (env : LimitEnv ι π) (s : LimitState ι τ π) (first : BitVec 64) : Prop :=
  (s.latest.toNat : ℤ) - first.toNat =
    s.consumed * env.kind.unit.toNat - s.flowop.bucket.foTputbucket.toInt

/-- In every run in which the counts do not go down, that is so if and only if the first count was
not zero, or the latest still is, and the operations always fitted into the bucket. -/
theorem limitRun_conserved (h : LimitRun env trace s) (hmono : NonDecreasing env trace)
    {first : BitVec 64} (hfirst : s.first = some first) :
    env.Conserves s first ↔ (first ≠ 0 ∨ s.latest = 0) ∧ AllFit env trace := by
  obtain ⟨base, haccount⟩ := h.account hmono
  have hfirst_lt : (first.toNat : ℤ) < 2 ^ 64 := by exact_mod_cast first.isLt
  rw [← haccount.first first hfirst, LimitEnv.Conserves]
  rcases haccount.bucket with ⟨hfit, heq⟩ | ⟨hfit, heq⟩
  · rw [and_iff_left hfit, heq, LimitEnv.balance]
    omega
  · refine ⟨fun hconserves => ?_, fun hboth => absurd hboth.2 hfit⟩
    rw [heq, LimitEnv.balance] at hconserves
    omega

/-! ## A limiter on the reads of a script -/

/-- What `NonDecreasing` and `AllFit` ask of one step. -/
def LimitEnv.meets (env : LimitEnv Bool Unit) (s : LimitState Bool Unit Unit)
    (e : LimitEvent Bool Unit Unit) : Bool :=
  (env.reading s e).all fun count => s.latest ≤ count ∧ (s.flowop.bucket.foTputlast = 0 ∨
    (count.toNat : ℤ) - s.flowop.bucket.foTputlast.toNat ≤
      s.flowop.bucket.foTputbucket.toInt + 2 ^ 63)

theorem LimitEnv.meets_spec {env : LimitEnv Bool Unit} {s : LimitState Bool Unit Unit}
    {e : LimitEvent Bool Unit Unit} (h : env.meets s e) :
    (∀ count, env.reading s e = some count → s.latest ≤ count) ∧ env.Fits s e := by
  constructor
  · intro count hreading
    rw [LimitEnv.meets, hreading] at h
    exact (of_decide_eq_true h).1
  · intro count hreading hlast
    rw [LimitEnv.meets, hreading] at h
    exact (of_decide_eq_true h).2.resolve_left hlast

/-- Invoked before the first read and after it: the read is not charged. -/
theorem limitRun_uncharged : ¬ ∀ (env : LimitEnv Bool Unit) trace (s : LimitState Bool Unit Unit),
    LimitRun env trace s → NonDecreasing env trace → ∀ first, s.first = some first →
      env.Conserves s first := by
  intro h
  have hrun : ([.invoke true, .stats (.endop (readCall 4096)), .invoke true].foldlM
      (Trace.guarded (readLimit .iops).meets (readLimit .iops).next) readLimiter).map
      (fun s => (s.first, s.latest, s.consumed, s.flowop.bucket.foTputbucket)) =
      some (some 0, 1, 0, 0) := by
    decide +kernel
  obtain ⟨s, hs, hvalues⟩ := Option.map_eq_some_iff.mp hrun
  obtain ⟨hfirst, hvalues⟩ := Prod.mk.inj hvalues
  obtain ⟨hlatest, hvalues⟩ := Prod.mk.inj hvalues
  obtain ⟨hconsumed, hbucket⟩ := Prod.mk.inj hvalues
  obtain ⟨trace, htrace, -, hmeets⟩ := readLimiter_start.guarded
    (fun _ hx => absurd hx List.not_mem_nil) hs
  have hconserves := h (readLimit .iops) trace s htrace
    (fun x hx => (LimitEnv.meets_spec (hmeets x hx)).1) 0 hfirst
  rw [LimitEnv.Conserves, hlatest, hconsumed, hbucket] at hconserves
  exact absurd hconserves (by decide)

/-- Invoked after the first read and after the second one, which the limiter then waits for. -/
theorem limitRun_conserved_reads : ∃ s : LimitState Bool Unit Unit,
    s.latest = 2 ∧ s.consumed = 1 ∧ (readLimit .iops).Conserves s 1 := by
  have hrun : ([.stats (.endop (readCall 4096)), .invoke true, .stats (.endop (readCall 4096)),
      .invoke true, .consume 5].foldlM
      (Trace.guarded (readLimit .iops).meets (readLimit .iops).next) readLimiter).map
      (fun s => (s.first, s.latest, s.consumed)) = some (some 1, 2, 1) := by
    decide +kernel
  obtain ⟨s, hs, hvalues⟩ := Option.map_eq_some_iff.mp hrun
  obtain ⟨hfirst, hvalues⟩ := Prod.mk.inj hvalues
  obtain ⟨hlatest, hconsumed⟩ := Prod.mk.inj hvalues
  obtain ⟨trace, htrace, -, hmeets⟩ := readLimiter_start.guarded
    (fun _ hx => absurd hx List.not_mem_nil) hs
  refine ⟨s, hlatest, hconsumed, ?_⟩
  refine (limitRun_conserved htrace (fun x hx => (LimitEnv.meets_spec (hmeets x hx)).1)
    hfirst).mpr ⟨.inl (by decide), fun x hx => (LimitEnv.meets_spec (hmeets x hx)).2⟩

end Filebench
