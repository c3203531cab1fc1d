import Filebench.Flowop.Semblock

/-! # Who has which semaphore

An entry of the table is marked exactly while one flowop holds it, although entries are given back
in the middle of a search for a free one. -/
namespace Filebench

/-- The semaphores that a flowop holds, the last one first. -/
def SemPhase.held (semid : SemKind → ℕ) : SemPhase → List ℕ
  | .scan .hw _ | .found .hw _ | .shutdown .hw => [semid .lw]
  | .alloced | .ready | .hwPost _ | .lwWait _ => [semid .hw, semid .lw]
  | .destructing => [semid .hw]
  | .defined | .scan .lw _ | .found .lw _ | .shutdown .lw | .ended => []

/-- Between the lock of the flowop list and its release. -/
def SemPhase.Building : SemPhase → Bool
  | .scan _ _ | .found _ _ | .alloced => true
  | _ => false

variable {τ : Type} [DecidableEq τ] {env : SemEnv τ} {s s' : SemState τ} {e : SemEvent τ}
  {f g : τ} {k : SemKind} {p : SemPhase} {b : Option τ} {i : ℕ}
  {trace earlier later : List (SemState τ × SemEvent τ)}

/-- Between two calls, or in one. -/
def SemPhase.Working : SemPhase → Bool
  | .ready | .hwPost _ | .lwWait _ => true
  | _ => false

theorem SemPhase.not_building_of_working {p : SemPhase} (h : p.Working = true) :
    p.Building = false := by
  cases p with
  | ready => rfl
  | hwPost => rfl
  | lwWait => rfl
  | _ => cases h

/-- A flowop goes on, and the table stays as it is. -/
inductive SemMove (s : SemState τ) (f : τ) : SemPhase → Option τ → Prop where
  | init : s.phase f = .defined → s.builder = none → SemMove s f (.scan .lw 0) (some f)
  | full {k : SemKind} : s.phase f = .scan k filebenchNsems → SemMove s f (.shutdown k) none
  | past {k : SemKind} {i : ℕ} : s.phase f = .scan k i → i ≠ filebenchNsems →
      s.shmSemids i = true → SemMove s f (.scan k (i + 1)) s.builder
  | free {k : SemKind} {i : ℕ} : s.phase f = .scan k i → i ≠ filebenchNsems →
      s.shmSemids i = false → SemMove s f (.found k i) s.builder
  | ready : s.phase f = .alloced → SemMove s f .ready none
  | work {p : SemPhase} : (s.phase f).Working = true → p.Working = true →
      SemMove s f p s.builder

inductive SemStep (s : SemState τ) : SemEvent τ → SemState τ → Prop where
  | move {e : SemEvent τ} {f : τ} {p : SemPhase} {b : Option τ} (semval : ℕ → ℕ) :
      SemMove s f p b → SemStep s e { s.setPhase f p with semval := semval, builder := b }
  | sempost {target : τ} {value : ℤ} {blocking : Bool} (semval : ℕ → ℕ) :
      SemStep s (.sempost target value blocking) { s with semval := semval }
  | store {f : τ} {k : SemKind} {i : ℕ} : s.phase f = .found k i →
      SemStep s (.store f) (s.take f k i)
  | destructLw {f : τ} : s.phase f = .ready → SemStep s (.destructLw f) (s.give f .lw)
  | destructHw {f : τ} : s.phase f = .destructing → SemStep s (.destructHw f) (s.give f .hw)

theorem semNext_cases (hnext : semNext env s e = some s') : SemStep s e s' := by
  cases e with
  | init f =>
    simp only [semNext, Option.ite_none_right_eq_some, Option.some.injEq] at hnext
    obtain ⟨⟨hphase, hnone⟩, rfl⟩ := hnext
    exact .move s.semval (.init hphase hnone)
  | read f =>
    simp only [semNext] at hnext
    split at hnext
    next k i hphase =>
      split at hnext
      next hfull =>
        obtain rfl := Option.some.inj hnext
        exact .move s.semval (.full (hfull ▸ hphase))
      next hne =>
        obtain rfl := Option.some.inj hnext
        cases hread : s.shmSemids i with
        | true => exact .move s.semval (.past hphase hne hread)
        | false => exact .move s.semval (.free hphase hne hread)
    next => cases hnext
  | store f =>
    simp only [semNext] at hnext
    split at hnext
    next k i hphase =>
      obtain rfl := Option.some.inj hnext
      exact .store hphase
    next => cases hnext
  | highwater f highwater =>
    simp only [semNext, Option.ite_none_right_eq_some, Option.map_eq_some_iff] at hnext
    obtain ⟨hphase, semval, -, rfl⟩ := hnext
    exact .move semval (.ready hphase)
  | highwaterFails f highwater =>
    simp only [semNext, Option.ite_none_right_eq_some, Option.some.injEq] at hnext
    obtain ⟨⟨hphase, -⟩, rfl⟩ := hnext
    exact .move s.semval (.ready hphase)
  | call f value =>
    simp only [semNext, Option.ite_none_right_eq_some, Option.some.injEq] at hnext
    obtain ⟨hphase, rfl⟩ := hnext
    exact .move s.semval (.work (by rw [hphase]; rfl) rfl)
  | post f =>
    simp only [semNext] at hnext
    split at hnext
    next value hphase =>
      obtain ⟨semval, -, rfl⟩ := Option.map_eq_some_iff.mp hnext
      exact .move semval (.work (by rw [hphase]; rfl) rfl)
    next => cases hnext
  | postFails f =>
    simp only [semNext] at hnext
    split at hnext
    next value hphase =>
      obtain ⟨-, hnext⟩ := Option.ite_none_right_eq_some.mp hnext
      obtain rfl := Option.some.inj hnext
      exact .move s.semval (.work (by rw [hphase]; rfl) rfl)
    next => cases hnext
  | wait f =>
    simp only [semNext] at hnext
    split at hnext
    next value hphase =>
      obtain ⟨semval, -, rfl⟩ := Option.map_eq_some_iff.mp hnext
      exact .move semval (.work (by rw [hphase]; rfl) rfl)
    next => cases hnext
  | waitFails f =>
    simp only [semNext] at hnext
    split at hnext
    next value hphase =>
      obtain ⟨-, hnext⟩ := Option.ite_none_right_eq_some.mp hnext
      obtain rfl := Option.some.inj hnext
      exact .move s.semval (.work (by rw [hphase]; rfl) rfl)
    next => cases hnext
  | sempost target value blocking =>
    simp only [semNext, Option.ite_none_right_eq_some, Option.map_eq_some_iff] at hnext
    obtain ⟨-, semval, -, rfl⟩ := hnext
    exact .sempost semval
  | destructLw f =>
    simp only [semNext, Option.ite_none_right_eq_some, Option.some.injEq] at hnext
    obtain ⟨hphase, rfl⟩ := hnext
    exact .destructLw hphase
  | destructHw f =>
    simp only [semNext, Option.ite_none_right_eq_some, Option.some.injEq] at hnext
    obtain ⟨hphase, rfl⟩ := hnext
    exact .destructHw hphase

namespace SemState

def held (s : SemState τ) (f : τ) : List ℕ := (s.phase f).held (s.foSemid f)

theorem held_setPhase (h : p.held (s.foSemid f) = s.held f) (g : τ) :
    (s.setPhase f p).held g = s.held g := by
  by_cases hg : g = f
  · subst hg
    simpa [held, setPhase] using h
  · simp [held, setPhase, Function.update_of_ne hg]

end SemState

/-- What every interleaving of the searches and of the returns keeps. -/
structure SemOwned (s : SemState τ) : Prop where
  owners : Lock.Owners (fun i => s.shmSemids i = true) s.held
  bound : ∀ f, ∀ i ∈ s.held f, i < filebenchNsems
  building : ∀ f, (s.phase f).Building = true → s.builder = some f
  scan : ∀ f k i, s.phase f = .scan k i → i ≤ filebenchNsems
  found : ∀ f k i, s.phase f = .found k i → i < filebenchNsems ∧ s.shmSemids i = false

theorem SemStart.held (h : SemStart s) (f : τ) : s.held f = [] := by
  rw [SemState.held, h.phase]
  rfl

theorem SemStart.owned (h : SemStart s) : SemOwned s := by
  constructor
  · constructor
    · intro i
      simp [h.shmSemids, h.held]
    · intro f
      rw [h.held]
      exact List.nodup_nil
    · intro i f _ hi
      rw [h.held] at hi
      exact absurd hi List.not_mem_nil
  · intro f i hi
    rw [h.held] at hi
    exact absurd hi List.not_mem_nil
  · intro f hf
    rw [h.phase] at hf
    exact absurd hf Bool.false_ne_true
  · intro f k i hf
    rw [h.phase] at hf
    cases hf
  · intro f k i hf
    rw [h.phase] at hf
    cases hf

namespace SemOwned

theorem move_held (h : SemOwned s) (hmove : SemMove s f p b) :
    p.held (s.foSemid f) = s.held f := by
  rw [SemState.held]
  cases hmove with
  | init hphase _ => rw [hphase]; rfl
  | @full k hphase => rw [hphase]; cases k <;> rfl
  | @past k i hphase _ _ => rw [hphase]; cases k <;> rfl
  | @free k i hphase _ _ => rw [hphase]; cases k <;> rfl
  | ready hphase => rw [hphase]; rfl
  | work hphase hp =>
    have hboth : ∀ p : SemPhase, p.Working = true →
        p.held (s.foSemid f) = [s.foSemid f .hw, s.foSemid f .lw] := by
      intro p hp
      cases p with
      | ready => rfl
      | hwPost => rfl
      | lwWait => rfl
      | _ => cases hp
    rw [hboth _ hphase, hboth _ hp]

/-- The lock of the flowop list keeps other flowops out of a set-up. -/
theorem move_builder (h : SemOwned s) (hmove : SemMove s f p b) :
    (b = s.builder ∨ s.builder = some f ∨ s.builder = none) ∧
      (p.Building = true → b = some f) := by
  cases hmove with
  | init _ hnone => exact ⟨.inr (.inr hnone), fun _ => rfl⟩
  | full hphase =>
    refine ⟨.inr (.inl (h.building f (by rw [hphase]; rfl))), fun hp => ?_⟩
    cases hp
  | past hphase _ _ => exact ⟨.inl rfl, fun _ => h.building f (by rw [hphase]; rfl)⟩
  | free hphase _ _ => exact ⟨.inl rfl, fun _ => h.building f (by rw [hphase]; rfl)⟩
  | ready hphase =>
    refine ⟨.inr (.inl (h.building f (by rw [hphase]; rfl))), fun hp => ?_⟩
    cases hp
  | work _ hp =>
    refine ⟨.inl rfl, fun hbuilding => ?_⟩
    exact absurd ((SemPhase.not_building_of_working hp).symm.trans hbuilding) Bool.false_ne_true

theorem move_scan (h : SemOwned s) (hmove : SemMove s f p b) :
    (∀ k i, p = .scan k i → i ≤ filebenchNsems) ∧
      ∀ k i, p = .found k i → i < filebenchNsems ∧ s.shmSemids i = false := by
  cases hmove with
  | init _ _ =>
    constructor
    · intro k i heq
      obtain ⟨-, rfl⟩ := SemPhase.scan.inj heq
      exact Nat.zero_le _
    · intro k i heq
      cases heq
  | full _ => constructor <;> intro k i heq <;> cases heq
  | @past k' i' hphase hne _ =>
    have hle := h.scan f k' i' hphase
    constructor
    · intro k i heq
      obtain ⟨-, rfl⟩ := SemPhase.scan.inj heq
      omega
    · intro k i heq
      cases heq
  | @free k' i' hphase hne hfree =>
    have hle := h.scan f k' i' hphase
    constructor
    · intro k i heq
      cases heq
    · intro k i heq
      obtain ⟨-, rfl⟩ := SemPhase.found.inj heq
      exact ⟨by omega, hfree⟩
  | ready _ => constructor <;> intro k i heq <;> cases heq
  | work _ hp =>
    constructor <;>
    · rintro k i rfl
      cases hp

/-- A flowop goes on with what it holds. -/
theorem move (h : SemOwned s) (hmove : SemMove s f p b) (semval : ℕ → ℕ) :
    SemOwned { s.setPhase f p with semval := semval, builder := b } := by
  have hheld := SemState.held_setPhase (h.move_held hmove)
  obtain ⟨hbuilder, hbuilding⟩ := h.move_builder hmove
  obtain ⟨hscan, hfound⟩ := h.move_scan hmove
  constructor
  · exact h.owners.congr (fun _ => Iff.rfl) hheld
  · intro g i hi
    have hi' : i ∈ s.held g := hheld g ▸ hi
    exact h.bound g i hi'
  · intro g hg
    simp only [SemState.setPhase, Function.update_apply] at hg ⊢
    split at hg
    next hgf => exact hgf ▸ hbuilding hg
    next hgf =>
      have hs := h.building g hg
      rcases hbuilder with rfl | hf | hnone
      · exact hs
      · exact absurd (Option.some.inj (hs.symm.trans hf)) hgf
      · exact absurd (hs.symm.trans hnone) (Option.some_ne_none g)
  · intro g k i hg
    simp only [SemState.setPhase, Function.update_apply] at hg
    split at hg
    · exact hscan k i hg
    · exact h.scan g k i hg
  · intro g k i hg
    simp only [SemState.setPhase, Function.update_apply] at hg
    split at hg
    · exact hfound k i hg
    · exact h.found g k i hg

theorem not_building (h : SemOwned s) (hf : (s.phase f).Building = true) (hne : g ≠ f) :
    (s.phase g).Building = false := by
  cases hg : (s.phase g).Building with
  | false => rfl
  | true => exact absurd (Option.some.inj ((h.building g hg).symm.trans (h.building f hf))) hne

/-- The entry that was found free is free yet when it is marked. -/
theorem take (h : SemOwned s) (hphase : s.phase f = .found k i) : SemOwned (s.take f k i) := by
  obtain ⟨hi, hfree⟩ := h.found f k i hphase
  have hb := h.building f (by rw [hphase]; rfl)
  have hheld : (s.take f k i).held = Function.update s.held f (i :: s.held f) := by
    funext g
    by_cases hg : g = f
    · subst hg
      cases k <;> simp [SemState.held, SemState.take, hphase, SemPhase.held]
    · simp [SemState.held, SemState.take, Function.update_of_ne hg]
  have hother : ∀ g, g ≠ f → (s.phase g).Building = false :=
    fun g hne => h.not_building (by rw [hphase]; rfl) hne
  constructor
  · rw [hheld]
    refine (h.owners.acquire (a := i) (t := f) ?_).congr ?_ fun _ => rfl
    · rw [hfree]
      exact Bool.false_ne_true
    · intro j
      simp only [SemState.take, Function.update_apply]
      by_cases hj : j = i <;> simp [hj]
  · intro g j hj
    rw [hheld, Lock.mem_update_iff] at hj
    rcases hj with ⟨-, hj⟩ | ⟨-, hj⟩
    · rcases List.mem_cons.mp hj with rfl | hj
      · exact hi
      · exact h.bound f j hj
    · exact h.bound g j hj
  · intro g hg
    by_cases hgf : g = f
    · exact hgf ▸ hb
    · simp only [SemState.take, Function.update_of_ne hgf] at hg
      exact absurd ((hother g hgf).symm.trans hg) Bool.false_ne_true
  · intro g k' j hg
    by_cases hgf : g = f
    · subst hgf
      simp only [SemState.take, Function.update_self] at hg
      split at hg
      · obtain ⟨-, rfl⟩ := SemPhase.scan.inj hg
        exact Nat.zero_le _
      · cases hg
    · simp only [SemState.take, Function.update_of_ne hgf] at hg
      exact h.scan g k' j hg
  · intro g k' j hg
    by_cases hgf : g = f
    · subst hgf
      simp only [SemState.take, Function.update_self] at hg
      split at hg
      · cases hg
      · cases hg
    · simp only [SemState.take, Function.update_of_ne hgf] at hg
      have hnot := hother g hgf
      rw [hg] at hnot
      cases hnot

/-- An entry is given back by the flowop that holds it. -/
theorem give (h : SemOwned s) (hphase : s.phase f = if k = .lw then .ready else .destructing) :
    SemOwned (s.give f k) := by
  have hmem : s.foSemid f k ∈ s.held f := by
    rw [SemState.held, hphase]
    cases k <;> simp [SemPhase.held]
  have hnotB : (s.phase f).Building = false := by
    rw [hphase]
    cases k <;> rfl
  have hnodup := h.owners.nodup f
  have hheld : (s.give f k).held =
      Function.update s.held f ((s.held f).erase (s.foSemid f k)) := by
    funext g
    by_cases hg : g = f
    · subst hg
      cases k with
      | lw =>
        have hphase' : s.phase g = .ready := hphase
        have hne : s.foSemid g .hw ≠ s.foSemid g .lw := by
          rw [SemState.held, hphase'] at hnodup
          simpa [SemPhase.held] using hnodup
        simp [SemState.held, SemState.give, hphase', SemPhase.held, List.erase_cons, hne]
      | hw =>
        have hphase' : s.phase g = .destructing := hphase
        simp [SemState.held, SemState.give, hphase', SemPhase.held]
    · simp [SemState.held, SemState.give, Function.update_of_ne hg]
  constructor
  · rw [hheld]
    refine (h.owners.release hmem).congr ?_ fun _ => rfl
    intro j
    simp only [SemState.give, Function.update_apply]
    by_cases hj : j = s.foSemid f k <;> simp [hj]
  · intro g j hj
    rw [hheld, Lock.mem_update_iff] at hj
    rcases hj with ⟨-, hj⟩ | ⟨-, hj⟩
    · exact h.bound f j (List.mem_of_mem_erase hj)
    · exact h.bound g j hj
  · intro g hg
    by_cases hgf : g = f
    · subst hgf
      simp only [SemState.give, Function.update_self] at hg
      cases k <;> cases hg
    · simp only [SemState.give, Function.update_of_ne hgf] at hg
      exact h.building g hg
  · intro g k' j hg
    by_cases hgf : g = f
    · subst hgf
      simp only [SemState.give, Function.update_self] at hg
      cases k <;> cases hg
    · simp only [SemState.give, Function.update_of_ne hgf] at hg
      exact h.scan g k' j hg
  · intro g k' j hg
    by_cases hgf : g = f
    · subst hgf
      simp only [SemState.give, Function.update_self] at hg
      cases k <;> cases hg
    · simp only [SemState.give, Function.update_of_ne hgf] at hg
      obtain ⟨hj, hfree⟩ := h.found g k' j hg
      refine ⟨hj, ?_⟩
      simp only [SemState.give, Function.update_apply]
      split
      · rfl
      · exact hfree

/-- One step of any flowop. -/
theorem step (h : SemOwned s) (hnext : semNext env s e = some s') : SemOwned s' := by
  cases semNext_cases hnext with
  | move semval hmove => exact h.move hmove semval
  | sempost semval => exact ⟨h.owners, h.bound, h.building, h.scan, h.found⟩
  | store hphase => exact h.take hphase
  | destructLw hphase => exact h.give hphase
  | destructHw hphase => exact h.give hphase

end SemOwned

theorem SemRun.owned (h : SemRun env trace s) : SemOwned s := by
  induction h with
  | start hstart => exact hstart.owned
  | step _ hnext ih => exact ih.step hnext

/-! ## The order of the two semaphores -/

/-- What the search has seen so far. -/
def SemPhase.Ordered (marked : ℕ → Prop) (semid : SemKind → ℕ) : SemPhase → Prop
  | .scan .lw i | .found .lw i => ∀ j < i, marked j
  | .scan .hw i => (∀ j < i, marked j) ∧ ∀ j ≤ semid .lw, marked j
  | .found .hw i => semid .lw < i
  | .alloced | .ready | .hwPost _ | .lwWait _ | .destructing | .ended => semid .lw < semid .hw
  | .defined | .shutdown _ => True

def SemEvent.Gives : SemEvent τ → Bool
  | .destructLw _ | .destructHw _ => true
  | _ => false

/-- Nothing is given back while a flowop is set up. -/
def SemQuiet (trace : List (SemState τ × SemEvent τ)) : Prop :=
  ∀ x ∈ trace, x.2.Gives = true → x.1.builder = none

def SemState.Ordered (s : SemState τ) : Prop :=
  ∀ f, (s.phase f).Ordered (fun i => s.shmSemids i = true) (s.foSemid f)

theorem SemPhase.ordered_mono {marked marked' : ℕ → Prop} {semid : SemKind → ℕ}
    (h : p.Ordered marked semid) (hmarked : p.Building = true → ∀ i, marked i → marked' i) :
    p.Ordered marked' semid := by
  cases p with
  | scan k i =>
    have hmarked' := hmarked rfl
    cases k with
    | lw => exact fun j hj => hmarked' j (h j hj)
    | hw => exact ⟨fun j hj => hmarked' j (h.1 j hj), fun j hj => hmarked' j (h.2 j hj)⟩
  | found k i =>
    cases k with
    | lw => exact fun j hj => hmarked rfl j (h j hj)
    | hw => exact h
  | _ => exact h

theorem SemMove.ordered (hmove : SemMove s f p b) (h : s.Ordered) :
    p.Ordered (fun i => s.shmSemids i = true) (s.foSemid f) := by
  have hf := h f
  cases hmove with
  | init _ _ => exact fun j hj => absurd hj (Nat.not_lt_zero j)
  | full _ => trivial
  | @past k i hphase _ hread =>
    rw [hphase] at hf
    have hnext : ∀ j < i + 1, (∀ j < i, s.shmSemids j = true) → s.shmSemids j = true := by
      intro j hj hbelow
      rcases Nat.lt_succ_iff_lt_or_eq.mp hj with hlt | rfl
      · exact hbelow j hlt
      · exact hread
    cases k with
    | lw => exact fun j hj => hnext j hj hf
    | hw => exact ⟨fun j hj => hnext j hj hf.1, hf.2⟩
  | @free k i hphase _ hread =>
    rw [hphase] at hf
    cases k with
    | lw => exact hf
    | hw =>
      refine Nat.lt_of_not_le fun hle => ?_
      exact Bool.false_ne_true (hread.symm.trans (hf.2 i hle))
  | ready hphase =>
    rw [hphase] at hf
    exact hf
  | work hphase hp =>
    have hboth : ∀ p : SemPhase, p.Working = true →
        (p.Ordered (fun i => s.shmSemids i = true) (s.foSemid f) ↔
          s.foSemid f .lw < s.foSemid f .hw) := by
      intro p hp
      cases p with
      | ready => rfl
      | hwPost => rfl
      | lwWait => rfl
      | _ => cases hp
    exact (hboth _ hp).mpr ((hboth _ hphase).mp hf)

namespace SemState.Ordered

theorem move (h : s.Ordered) (hmove : SemMove s f p b) (semval : ℕ → ℕ) :
    SemState.Ordered { s.setPhase f p with semval := semval, builder := b } := by
  intro g
  by_cases hg : g = f
  · subst hg
    simpa [SemState.setPhase] using hmove.ordered h
  · simpa [SemState.setPhase, Function.update_of_ne hg] using h g

theorem take (h : s.Ordered) (hphase : s.phase f = .found k i) :
    (s.take f k i).Ordered := by
  have hmarks : ∀ j, s.shmSemids j = true → (s.take f k i).shmSemids j = true := by
    intro j hj
    simp only [SemState.take, Function.update_apply]
    split
    · rfl
    · exact hj
  intro g
  by_cases hg : g = f
  · subst hg
    have hf := h g
    rw [hphase] at hf
    cases k with
    | lw =>
      simp only [SemState.take, Function.update_self, if_true]
      refine ⟨fun j hj => absurd hj (Nat.not_lt_zero j), fun j hj => ?_⟩
      rcases Nat.lt_or_eq_of_le hj with hlt | rfl
      · exact hmarks j (hf j hlt)
      · exact Function.update_self _ _ _
    | hw => simpa [SemState.take, SemPhase.Ordered] using hf
  · have hg' := SemPhase.ordered_mono (h g) fun _ => hmarks
    simpa [SemState.take, Function.update_of_ne hg] using hg'

theorem give (h : s.Ordered) (howned : SemOwned s) (hnone : s.builder = none)
    (hphase : s.phase f = if k = .lw then .ready else .destructing) : (s.give f k).Ordered := by
  intro g
  have hnot : (s.phase g).Building = true → ∀ i, s.shmSemids i = true →
      (s.give f k).shmSemids i = true := fun hb =>
    absurd ((howned.building g hb).symm.trans hnone) (Option.some_ne_none g)
  by_cases hg : g = f
  · subst hg
    have hf := h g
    rw [hphase] at hf
    cases k <;> simpa [SemState.give, SemPhase.Ordered] using hf
  · have hg' := SemPhase.ordered_mono (h g) hnot
    simpa [SemState.give, Function.update_of_ne hg] using hg'

theorem step (h : s.Ordered) (howned : SemOwned s) (hnext : semNext env s e = some s')
    (hquiet : e.Gives = true → s.builder = none) : s'.Ordered := by
  cases semNext_cases hnext with
  | move semval hmove => exact h.move hmove semval
  | sempost semval => exact h
  | store hphase => exact h.take hphase
  | destructLw hphase => exact h.give howned (hquiet rfl) hphase
  | destructHw hphase => exact h.give howned (hquiet rfl) hphase

end SemState.Ordered

theorem SemRun.ordered (h : SemRun env trace s) (hquiet : SemQuiet trace) : s.Ordered := by
  induction h with
  | start hstart =>
    intro f
    rw [hstart.phase]
    trivial
  | step hrun hnext ih =>
    obtain ⟨hhead, htail⟩ := List.forall_mem_cons.mp hquiet
    exact (ih htail).step (SemRun.owned hrun) hnext hhead

/-- The upper semaphore of a flowop is not the first of the set. -/
theorem SemRun.highwaterNum (h : SemRun env trace s) (hquiet : SemQuiet trace)
    (hphase : s.phase f = .alloced) :
    s.foSemid f .lw < s.foSemid f .hw ∧ s.highwaterNum env f = s.foSemid f .hw := by
  have hlt := SemRun.ordered h hquiet f
  rw [hphase] at hlt
  have hlt' : s.foSemid f .lw < s.foSemid f .hw := hlt
  refine ⟨hlt', ?_⟩
  rw [SemState.highwaterNum, if_neg (by omega)]

/-- In any interleaving every semaphore in use has one holder, and the two of a flowop are
different. The first post of the highwater goes to the upper one of the flowop itself, if nothing
is given back while a flowop is set up. -/
theorem semRun_exclusive (h : SemRun env trace s) :
    (∀ i, s.shmSemids i = true ↔ ∃ f, i ∈ s.held f) ∧
      (∀ f g i, i ∈ s.held f → i ∈ s.held g → f = g) ∧
      (∀ f, (s.held f).Nodup ∧ ∀ i ∈ s.held f, i < filebenchNsems) ∧
      (SemQuiet trace → ∀ f, s.phase f = .alloced →
        s.foSemid f .lw < s.foSemid f .hw ∧ s.highwaterNum env f = s.foSemid f .hw) := by
  have howned := SemRun.owned h
  refine ⟨howned.owners.flag_iff, ?_, fun f => ⟨howned.owners.nodup f, howned.bound f⟩, ?_⟩
  · intro f g i hf hg
    exact howned.owners.unique i f g hf hg
  · exact fun hquiet f hphase => SemRun.highwaterNum h hquiet hphase

/-- No semaphore is in use. -/
def semFree : SemState τ where
  shmSemids _ := false
  semval _ := 0
  foSemid _ _ := 0
  phase _ := .defined
  builder := none

theorem semFree_start : SemStart (semFree : SemState τ) :=
  ⟨fun _ => rfl, fun _ => rfl, rfl⟩

def semblockInit (f : τ) (semid : ℕ) : List (SemEvent τ) :=
  .init f :: List.replicate (semid + 1) (.read f) ++
    .store f :: List.replicate (semid + 2) (.read f) ++ [.store f]

def twoSemblocks : SemEnv Bool where
  semvmx := 32767
  foConstvalue _ := 0

def twoInits : List (SemEvent Bool) :=
  semblockInit false 0 ++ [.highwater false 1] ++ semblockInit true 2

theorem semRun_exclusive_second :
    ∃ s : SemState Bool, s.held true = [3, 2] ∧
      ∀ f i, i ∈ s.held f → i ∈ s.held true → f = true := by
  have hrun : (twoInits.foldlM (semNext twoSemblocks) semFree).map
      (fun s => s.held true) = some [3, 2] := by
    decide +kernel
  obtain ⟨s, hs, hheld⟩ := Option.map_eq_some_iff.mp hrun
  obtain ⟨trace, htrace, -⟩ := (Trace.Run.start semFree_start : SemRun twoSemblocks [] _).events
    (P := fun _ => True) (fun _ hx => absurd hx List.not_mem_nil) hs fun _ _ _ => trivial
  refine ⟨s, hheld, fun f i hf htrue => ?_⟩
  exact (semRun_exclusive htrace).2.1 f true i hf htrue

/-- The entry `filebenchNsems` is read where all entries below it were found taken. -/
theorem semRun_full (h : SemRun env trace s) (hquiet : SemQuiet trace)
    (hphase : s.phase f = .scan k filebenchNsems) (L : Finset τ)
    (hL : ∀ g, g ≠ f → s.held g ≠ [] → g ∈ L) : 64 ≤ L.card := by
  have howned := SemRun.owned h
  have hbelow : ∀ i < filebenchNsems, s.shmSemids i = true := by
    have hf := SemRun.ordered h hquiet f
    rw [hphase] at hf
    cases k with
    | lw => exact hf
    | hw => exact hf.1
  have hself : (s.held f).length ≤ 1 := by
    rw [SemState.held, hphase]
    cases k with
    | lw => exact Nat.zero_le _
    | hw => exact le_rfl
  have htwo : ∀ g, (s.held g).length ≤ 2 := by
    intro g
    rw [SemState.held]
    cases s.phase g with
    | scan k _ => cases k <;> simp [SemPhase.held]
    | found k _ => cases k <;> simp [SemPhase.held]
    | shutdown k => cases k <;> simp [SemPhase.held]
    | _ => simp [SemPhase.held]
  have hcover : Finset.range filebenchNsems ⊆
      (s.held f).toFinset ∪ L.biUnion fun g => (s.held g).toFinset := by
    intro i hi
    obtain ⟨g, hg⟩ := (howned.owners.flag_iff i).mp (hbelow i (Finset.mem_range.mp hi))
    rw [Finset.mem_union, Finset.mem_biUnion]
    by_cases hgf : g = f
    · exact .inl (List.mem_toFinset.mpr (hgf ▸ hg))
    · exact .inr ⟨g, hL g hgf (List.ne_nil_of_mem hg), List.mem_toFinset.mpr hg⟩
  have hcard : filebenchNsems ≤ 1 + L.card * 2 := calc
    filebenchNsems = (Finset.range filebenchNsems).card := (Finset.card_range _).symm
    _ ≤ _ := Finset.card_le_card hcover
    _ ≤ _ := Finset.card_union_le _ _
    _ ≤ _ := Nat.add_le_add ((List.toFinset_card_le _).trans hself)
      (Finset.card_biUnion_le_card_mul L _ 2 fun g _ => (List.toFinset_card_le _).trans (htwo g))
  have hnsems : filebenchNsems = 128 := rfl
  omega

/-! ## Sixty-four flowops -/

/-- The first `n` flowops have been set up, in their order. -/
structure SetUp (n : ℕ) (s : SemState ℕ) : Prop where
  shmSemids : ∀ i, s.shmSemids i = decide (i < 2 * n)
  semval : ∀ i, 2 * n ≤ i → s.semval i = 0
  phase : ∀ f, n ≤ f → s.phase f = .defined
  builder : s.builder = none

def manySemblocks : SemEnv ℕ where
  semvmx := 32767
  foConstvalue _ := 0

/-- There is a run to the state in which nothing is given back. -/
def SemQuietly (s : SemState ℕ) : Prop := ∃ trace, SemRun manySemblocks trace s ∧ SemQuiet trace

namespace SemQuietly

variable {s s' : SemState ℕ} {e : SemEvent ℕ} {f n m : ℕ}

theorem step (h : SemQuietly s) (hnext : semNext manySemblocks s e = some s')
    (hgives : e.Gives = false) : SemQuietly s' := by
  obtain ⟨trace, hrun, hquiet⟩ := h
  refine ⟨_, hrun.step hnext, List.forall_mem_cons.mpr ⟨fun hg => ?_, hquiet⟩⟩
  exact absurd (hgives.symm.trans hg) Bool.false_ne_true

/-- The search goes past the entries that are taken. -/
theorem past (h : SemQuietly (s.setPhase f (.scan k 0))) (hm : m ≤ filebenchNsems)
    (hmarks : ∀ i < m, s.shmSemids i = true) : SemQuietly (s.setPhase f (.scan k m)) := by
  induction m with
  | zero => exact h
  | succ m ih =>
    refine (ih (by omega) fun i hi => hmarks i (by omega)).step (e := .read f) ?_ rfl
    have hread := hmarks m (by omega)
    have hne : m ≠ filebenchNsems := by omega
    simp [semNext, SemState.setPhase, hread, hne]

/-- A search ends at the first free entry. -/
theorem store (h : SemQuietly (s.setPhase f (.scan k 0))) (hm : m < filebenchNsems)
    (hmarks : ∀ i < m, s.shmSemids i = true) (hfree : s.shmSemids m = false) :
    SemQuietly (s.take f k m) := by
  have hfound : SemQuietly (s.setPhase f (.found k m)) := by
    refine (h.past hm.le hmarks).step (e := .read f) ?_ rfl
    simp [semNext, SemState.setPhase, hfree, hm.ne]
  refine hfound.step (e := .store f) ?_ rfl
  simp [semNext, SemState.setPhase, SemState.take]

theorem init (h : SemQuietly s) (hs : SetUp n s) :
    SemQuietly ({ s with builder := some n }.setPhase n (.scan .lw 0)) := by
  refine h.step (e := .init n) ?_ rfl
  simp [semNext, hs.phase n le_rfl, hs.builder, SemState.setPhase]

end SemQuietly

theorem SetUp.next {n : ℕ} {s : SemState ℕ} (h : SetUp n s) (hn : 2 * n + 1 < filebenchNsems)
    (hquiet : SemQuietly s) : ∃ s', SetUp (n + 1) s' ∧ SemQuietly s' := by
  have hlw := (hquiet.init h).store (m := 2 * n) (by omega)
    (fun i hi => by simpa [h.shmSemids] using hi) (by simp [h.shmSemids])
  set s₁ := SemState.take { s with builder := some n } n .lw (2 * n) with hs₁
  have hscan : s₁.setPhase n (.scan .hw 0) = s₁ := by
    simp [hs₁, SemState.setPhase, SemState.take]
  have hmarks : ∀ i, s₁.shmSemids i = decide (i < 2 * n + 1) := by
    intro i
    simp only [hs₁, SemState.take, Function.update_apply, h.shmSemids]
    by_cases hi : i = 2 * n
    · simp [hi]
    · simp only [hi, if_false, decide_eq_decide]
      omega
  rw [← hscan] at hlw
  have hhw := hlw.store (m := 2 * n + 1) hn (fun i hi => by simpa [hmarks] using hi)
    (by simp [hmarks])
  set s₂ := s₁.take n .hw (2 * n + 1) with hs₂
  have hnum : s₂.foSemid n .hw = 2 * n + 1 := by simp [hs₂, SemState.take]
  have hzero : s₂.semval (2 * n + 1) = 0 := h.semval _ (by omega)
  have hpost : semop manySemblocks.lim (s₂.highwaterOps manySemblocks n 1) s₂.semval =
      .done (Function.update s₂.semval (2 * n + 1) 1) := by
    have hops : s₂.highwaterOps manySemblocks n 1 = [⟨2 * n + 1, 1⟩] := by
      rw [SemState.highwaterOps, SemState.highwaterNum, hnum, if_neg (by omega)]
      rfl
    rw [hops, semop, if_pos (by simpa [SemEnv.lim] using hn), semApply]
    simp [hzero, SemEnv.lim, manySemblocks, semApply]
  refine ⟨{ s₂.setPhase n .ready with
      semval := Function.update s₂.semval (2 * n + 1) 1, builder := none }, ?_, ?_⟩
  · constructor
    · intro i
      simp only [SemState.setPhase, hs₂, SemState.take, Function.update_apply, hmarks]
      by_cases hi : i = 2 * n + 1
      · simp [hi, Nat.mul_add]
      · simp only [hi, if_false, decide_eq_decide]
        omega
    · intro i hi
      have hne : i ≠ 2 * n + 1 := by omega
      change Function.update s₂.semval (2 * n + 1) 1 i = 0
      rw [Function.update_of_ne hne]
      exact h.semval i (by omega)
    · intro f hf
      have hne : f ≠ n := by omega
      simp only [SemState.setPhase, hs₂, hs₁, SemState.take, Function.update_of_ne hne]
      exact h.phase f (by omega)
    · rfl
  · refine hhw.step (e := .highwater n 1) ?_ rfl
    have hphase : s₂.phase n = .alloced := by simp [hs₂, SemState.take]
    rw [semNext, if_pos hphase, hpost]
    rfl

/-- Sixty-four flowops get their semaphores. -/
theorem exists_setUp {n : ℕ} (hn : n ≤ 64) : ∃ s, SetUp n s ∧ SemQuietly s := by
  induction n with
  | zero =>
    refine ⟨semFree, ⟨fun i => ?_, fun _ _ => rfl, fun _ _ => rfl, rfl⟩, [], ?_, ?_⟩
    · simp [semFree]
    · exact .start semFree_start
    · exact fun _ hx => absurd hx List.not_mem_nil
  | succ n ih =>
    obtain ⟨s, hs, hquiet⟩ := ih (by omega)
    refine hs.next ?_ hquiet
    have hnsems : filebenchNsems = 128 := rfl
    omega

/-- The sixty-fifth does not. -/
theorem semRun_full_sixtyFour : ∃ s : SemState ℕ, s.phase 64 = .scan .lw filebenchNsems ∧
    ∀ L : Finset ℕ, (∀ g, g ≠ 64 → s.held g ≠ [] → g ∈ L) → 64 ≤ L.card := by
  obtain ⟨s, hs, hquiet⟩ := exists_setUp le_rfl
  have hmarks : ∀ i < filebenchNsems, s.shmSemids i = true := by
    intro i hi
    rw [hs.shmSemids]
    exact decide_eq_true hi
  obtain ⟨trace, hrun, hq⟩ := (hquiet.init hs).past le_rfl hmarks
  have hphase : (SemState.setPhase { s with builder := some 64 } 64
      (.scan .lw filebenchNsems)).phase 64 = .scan .lw filebenchNsems := by
    simp [SemState.setPhase]
  exact ⟨_, hphase, fun L hL => semRun_full hrun hq hphase L hL⟩

end Filebench
