import Filebench.Flowop.Library
import Filebench.Lib.Trace

/-! # Rotating descriptors

Flowops that rotate their descriptors share the rotor of the thread, which runs down from the end
of the table. It wraps only when it is as far from the end as the fileset of the flowop has
entries. -/
namespace Filebench

/-- The flowop has no descriptor of its own. -/
def Flowop.RotatesFd (flowop : Flowop) : Prop :=
  flowop.foFdnumber = 0 ∧ flowop.foRotatefd = true

/-- The fileset of the flowop has so few entries that the upper half is enough for them. -/
def Flowop.Fits (flowop : Flowop) : Prop :=
  flowop.foFileset = true ∧ flowop.fsConstentries ≤ threadflowMaxfd / 2

/-- An error, or one of the last `n` descriptors of the table. -/
def Among (n : ℕ) (fd : Option ℕ) : Prop := ∀ i ∈ fd, threadflowMaxfd - n ≤ i ∧ i < threadflowMaxfd

def fdnumNext (tf : Threadflow) (flowop : Flowop) : Option Threadflow :=
  some (flowoplibFdnum flowop tf).2

/-- The calls of a thread, from its start on. -/
abbrev FdnumRun : List (Threadflow × Flowop) → Threadflow → Prop :=
  Trace.Run fdnumNext fun tf => tf.tfFdrotor = 0

/-- With the rotor at the lowest of the last `n` descriptors, the fileset has `n` entries. -/
def WrapsInTime (n : ℕ) (tf : Threadflow) (flowop : Flowop) : Prop :=
  tf.tfFdrotor = threadflowMaxfd - n → flowop.RotatesFd → flowop.Fits → flowop.fsConstentries = n

/-- The rotor has not moved or is `n` or less from the end of the table. -/
def RotorNear (n : ℕ) (tf : Threadflow) : Prop :=
  tf.tfFdrotor = 0 ∨ threadflowMaxfd - n ≤ tf.tfFdrotor ∧ tf.tfFdrotor < threadflowMaxfd

section calls

variable {flowop : Flowop} {tf : Threadflow} {n : ℕ}

/-- A call without a rotating descriptor leaves the rotor alone. -/
theorem flowoplibFdnum_fixed (h : ¬ flowop.RotatesFd) : (flowoplibFdnum flowop tf).2 = tf := by
  unfold flowoplibFdnum
  split
  · rfl
  · rename_i hfd
    have hrot : flowop.foRotatefd = false := by
      cases hrot : flowop.foRotatefd with
      | false => rfl
      | true => exact absurd ⟨Nat.eq_zero_of_not_pos hfd, hrot⟩ h
    simp [hrot]

theorem flowoplibFdnum_error (h : flowop.RotatesFd) (hfits : ¬ flowop.Fits) :
    flowoplibFdnum flowop tf = (none, tf) := by
  obtain ⟨hfd, hrot⟩ := h
  cases hset : flowop.foFileset with
  | false => simp [flowoplibFdnum, hfd, hrot, hset]
  | true =>
    have hmany : threadflowMaxfd / 2 < flowop.fsConstentries :=
      Nat.lt_of_not_le fun hle => hfits ⟨hset, hle⟩
    simp [flowoplibFdnum, hfd, hrot, hset, hmany]

/-- The rotor starts over from the end of the table, or goes down. -/
theorem flowoplibFdnum_some (tf : Threadflow) (h : flowop.RotatesFd) (hfits : flowop.Fits) :
    ∃ i, flowoplibFdnum flowop tf = (some i, { tf with tfFdrotor := i }) ∧
      if tf.tfFdrotor = 0 ∨ flowop.fsConstentries = threadflowMaxfd - tf.tfFdrotor then
        i = threadflowMaxfd - 1
      else i = tf.tfFdrotor - 1 := by
  obtain ⟨hfd, hrot⟩ := h
  obtain ⟨hset, hle⟩ := hfits
  have hmany : ¬ threadflowMaxfd / 2 < flowop.fsConstentries := Nat.not_lt.mpr hle
  unfold flowoplibFdnum
  simp only [hfd, hrot, hset, hmany, lt_irrefl, if_false, Bool.not_true, Bool.false_eq_true]
  refine ⟨_, rfl, ?_⟩
  by_cases hzero : tf.tfFdrotor = 0
  · simp [hzero]
  · by_cases hend : flowop.fsConstentries = threadflowMaxfd - tf.tfFdrotor
    · simp [hzero, hend]
    · simp [hzero, hend]

/-- A call keeps the rotor near the end of the table when it does not miss its turn there. -/
theorem RotorNear.fdnum (hI : RotorNear n tf) (hn : 0 < n) (hmax : n ≤ threadflowMaxfd)
    (hwraps : n < threadflowMaxfd → WrapsInTime n tf flowop) :
    RotorNear n (flowoplibFdnum flowop tf).2 ∧
      (flowop.RotatesFd → Among n (flowoplibFdnum flowop tf).1) := by
  by_cases hrot : flowop.RotatesFd
  swap
  · rw [flowoplibFdnum_fixed hrot]
    exact ⟨hI, fun h => absurd h hrot⟩
  by_cases hfits : flowop.Fits
  swap
  · rw [flowoplibFdnum_error hrot hfits]
    exact ⟨hI, fun _ i hi => by cases hi⟩
  obtain ⟨i, hi, hval⟩ := flowoplibFdnum_some tf hrot hfits
  have hnear : threadflowMaxfd - n ≤ i ∧ i < threadflowMaxfd := by
    split_ifs at hval with hover
    · omega
    · rcases hI with hzero | ⟨hge, hlt⟩
      · exact absurd (.inl hzero) hover
      · obtain ⟨hzero, hend⟩ := not_or.mp hover
        have hne : tf.tfFdrotor ≠ threadflowMaxfd - n := by
          intro heq
          have hentries := hwraps (by omega) heq hrot hfits
          omega
        omega
  rw [hi]
  refine ⟨.inr hnear, fun _ j hj => ?_⟩
  obtain rfl := Option.some.inj hj
  exact hnear

/-- A call that misses its turn leaves the last `n` descriptors. -/
theorem wrapsInTime_of_among (hn : n < threadflowMaxfd)
    (h : flowop.RotatesFd → Among n (flowoplibFdnum flowop tf).1) : WrapsInTime n tf flowop := by
  intro hlast hrot hfits
  obtain ⟨i, hi, hval⟩ := flowoplibFdnum_some tf hrot hfits
  have hamong := h hrot i (by rw [hi]; rfl)
  split_ifs at hval with hover
  · rcases hover with hzero | hend <;> omega
  · omega

end calls

section runs

variable {trace : List (Threadflow × Flowop)} {tf : Threadflow} {n : ℕ}

theorem fdnumRun_among (h : FdnumRun trace tf) (hn : 0 < n) (hmax : n ≤ threadflowMaxfd)
    (hwraps : n < threadflowMaxfd → ∀ x ∈ trace, WrapsInTime n x.1 x.2) :
    ∀ x ∈ trace, x.2.RotatesFd → Among n (flowoplibFdnum x.2 x.1).1 := by
  have hall := Trace.Run.invariant (I := fun trace tf => RotorNear n tf ∧
      ∀ x ∈ trace, x.2.RotatesFd → Among n (flowoplibFdnum x.2 x.1).1)
    (P := fun tf flowop => n < threadflowMaxfd → WrapsInTime n tf flowop) h
    (fun x hx hlt => hwraps hlt x hx) (fun s hs => ⟨.inl hs, fun x hx => by cases hx⟩) ?_
  · exact hall.2
  · rintro trace tf flowop tf' ⟨hI, hamong⟩ hw hnext
    obtain rfl := Option.some.inj hnext
    obtain ⟨hnear, hnew⟩ := hI.fdnum hn hmax hw
    refine ⟨hnear, fun x hx => ?_⟩
    rcases List.mem_cons.mp hx with rfl | hx
    · exact hnew
    · exact hamong x hx

/-- No call returns a descriptor outside of the table. -/
theorem fdnumRun_lt (h : FdnumRun trace tf) :
    ∀ x ∈ trace, x.2.RotatesFd → ∀ i ∈ (flowoplibFdnum x.2 x.1).1, i < threadflowMaxfd :=
  fun x hx hrot i hi =>
    (fdnumRun_among h (by decide) le_rfl (fun hlt => absurd hlt (lt_irrefl _)) x hx hrot i hi).2

/-- With one fileset there is one descriptor for each of its entries. -/
theorem fdnumRun_same (h : FdnumRun trace tf) (hn : 0 < n) (hmax : n ≤ threadflowMaxfd)
    (hsame : ∀ x ∈ trace, x.2.Fits → x.2.fsConstentries = n) :
    ∀ x ∈ trace, x.2.RotatesFd → Among n (flowoplibFdnum x.2 x.1).1 :=
  fdnumRun_among h hn hmax fun _ x hx _ _ hfits => hsame x hx hfits

/-- The calls stay in the upper half of the table exactly when none with the rotor at the end of it
is for a fileset with fewer entries than there are descriptors in that half. -/
theorem fdnumRun_upperHalf_iff (h : FdnumRun trace tf) :
    (∀ x ∈ trace, x.2.RotatesFd → Among (threadflowMaxfd / 2) (flowoplibFdnum x.2 x.1).1) ↔
      ∀ x ∈ trace, WrapsInTime (threadflowMaxfd / 2) x.1 x.2 := by
  constructor
  · intro hamong x hx
    exact wrapsInTime_of_among (by decide) (hamong x hx)
  · intro hwraps
    exact fdnumRun_among h (by decide) (by decide) fun _ => hwraps

end runs

/-- A flowop that rotates its descriptors over a fileset with `n` entries. -/
def rotating (n : ℕ) : Flowop := ⟨0, true, true, none, true, false, n⟩

def unrotated : Threadflow := ⟨1, fun _ => 0, fun _ => none, 0⟩

theorem fdnumRun_upperHalf_two :
    (∀ x ∈ [({ unrotated with tfFdrotor := 127 }, rotating 2), (unrotated, rotating 1)],
      x.2.RotatesFd → Among (threadflowMaxfd / 2) (flowoplibFdnum x.2 x.1).1) ↔
    ∀ x ∈ [({ unrotated with tfFdrotor := 127 }, rotating 2), (unrotated, rotating 1)],
      WrapsInTime (threadflowMaxfd / 2) x.1 x.2 :=
  fdnumRun_upperHalf_iff (.step (.step (.start rfl) rfl) rfl)

set_option maxRecDepth 2000 in
/-- Two filesets of one and of two files, in turn. -/
theorem fdnumRun_lowerHalf : ∃ trace tf, FdnumRun trace tf ∧
    (∀ x ∈ trace, x.2 = rotating 1 ∨ x.2 = rotating 2) ∧
    (flowoplibFdnum (rotating 1) tf).1 = some (threadflowMaxfd / 2 - 1) := by
  have hrun : (List.replicate 32 [rotating 1, rotating 2]).flatten.foldlM fdnumNext unrotated =
      some { unrotated with tfFdrotor := threadflowMaxfd / 2 } := rfl
  have hstart : FdnumRun [] unrotated := .start rfl
  obtain ⟨trace, htrace, hcalls⟩ := hstart.events (P := fun x => x.2 = rotating 1 ∨
    x.2 = rotating 2) (by simp) hrun (by simp)
  exact ⟨trace, _, htrace, hcalls, rfl⟩

end Filebench
