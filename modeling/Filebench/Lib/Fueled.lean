import Filebench.Lib.Returns

/-! # Computations with fuel

A computation on a state may run out of fuel, fault, or come to a value and a new state. It
gives an outcome when every large enough fuel gives that outcome. -/
namespace Filebench.Fuel

variable {ε σ α β : Type}

abbrev Comp (ε σ α : Type) := StateT σ (ExceptT ε Option) α

/-- The outcome of a computation that has one. -/
abbrev Outcome (ε σ α : Type) := Except ε (α × σ)

def outOfFuel : Comp ε σ α := fun _ => (none : Option (Outcome ε σ α))

def fault (e : ε) : Comp ε σ α := fun _ => some (Except.error e)

theorem bind_ok {x : Comp ε σ α} {f : α → Comp ε σ β} {s s' : σ} {a : α}
    (h : x s = some (Except.ok (a, s'))) : (x >>= f) s = f a s' := by
  simp only [bind, StateT.bind, ExceptT.bind, ExceptT.mk, h, Option.bind_some, ExceptT.bindCont]

theorem bind_error {x : Comp ε σ α} {f : α → Comp ε σ β} {s : σ} {e : ε}
    (h : x s = some (Except.error e)) : (x >>= f) s = some (Except.error e) := by
  simp only [bind, StateT.bind, ExceptT.bind, ExceptT.mk, h, Option.bind_some, ExceptT.bindCont]
  rfl

theorem bind_none {x : Comp ε σ α} {f : α → Comp ε σ β} {s : σ} (h : x s = none) :
    (x >>= f) s = none := by
  simp only [bind, StateT.bind, ExceptT.bind, ExceptT.mk, h, Option.bind_none]

def Gives (f : ℕ → Comp ε σ α) (s : σ) (r : Outcome ε σ α) : Prop :=
  Returns (fun n => (f n s : Option (Outcome ε σ α))) r

variable {f : ℕ → Comp ε σ α} {g : ℕ → α → Comp ε σ β} {s s' : σ} {a : α} {e : ε}

theorem Gives.unique {r r' : Outcome ε σ α} (h : Gives f s r) (h' : Gives f s r') : r = r' :=
  Returns.unique h h'

theorem Gives.not_ok (h : Gives f s (.error e)) (p : α × σ) : ¬ Gives f s (.ok p) := by
  intro h'
  cases h.unique h'

theorem gives_const {x : Comp ε σ α} {r : Outcome ε σ α} (h : x s = some r) :
    Gives (fun _ => x) s r := returns_of_const fun _ => h

theorem gives_pure (a : α) (s : σ) : Gives (fun _ => (pure a : Comp ε σ α)) s (.ok (a, s)) :=
  gives_const rfl

theorem Gives.of_succ {r : Outcome ε σ α} (h : Gives (fun n => f (n + 1)) s r) : Gives f s r :=
  Returns.of_succ h

theorem Gives.succ {r : Outcome ε σ α} (h : Gives f s r) : Gives (fun n => f (n + 1)) s r := by
  obtain ⟨N, hN⟩ := h
  exact ⟨N, fun n hn => hN (n + 1) (by omega)⟩

theorem Gives.bind {r : Outcome ε σ β} (hf : Gives f s (.ok (a, s')))
    (hg : Gives (fun n => g n a) s' r) : Gives (fun n => f n >>= g n) s r := by
  obtain ⟨N, hN⟩ := hf
  obtain ⟨M, hM⟩ := hg
  refine ⟨max N M, fun n hn => ?_⟩
  exact (bind_ok (hN n ((le_max_left ..).trans hn))).trans (hM n ((le_max_right ..).trans hn))

theorem Gives.bind_error (hf : Gives f s (.error e)) :
    Gives (fun n => f n >>= g n) s (.error e) := by
  obtain ⟨N, hN⟩ := hf
  exact ⟨N, fun n hn => Fuel.bind_error (hN n hn)⟩

/-- The computation has an outcome from every state. -/
def Halts (f : ℕ → Comp ε σ α) : Prop := ∀ s, ∃ r, Gives f s r

theorem halts_const {x : Comp ε σ α} (h : ∀ s, ∃ r, x s = some r) : Halts fun _ => x := by
  intro s
  obtain ⟨r, hr⟩ := h s
  exact ⟨r, gives_const hr⟩

theorem halts_pure (a : α) : Halts fun _ => (pure a : Comp ε σ α) :=
  halts_const fun s => ⟨.ok (a, s), rfl⟩

theorem halts_fault (e : ε) : Halts fun _ => (fault e : Comp ε σ α) :=
  halts_const fun _ => ⟨.error e, rfl⟩

theorem Halts.of_succ (h : Halts fun n => f (n + 1)) : Halts f := by
  intro s
  obtain ⟨r, hr⟩ := h s
  exact ⟨r, hr.of_succ⟩

theorem Halts.bind (hf : Halts f) (hg : ∀ a, Halts fun n => g n a) :
    Halts fun n => f n >>= g n := by
  intro s
  obtain ⟨r, hr⟩ := hf s
  cases r with
  | error e => exact ⟨.error e, hr.bind_error⟩
  | ok p =>
    obtain ⟨a, s'⟩ := p
    obtain ⟨r', hr'⟩ := hg a s'
    exact ⟨r', hr.bind hr'⟩

/-- A value that was computed already, or a fault. -/
def orFault : Except ε α → Comp ε σ α
  | .ok a => pure a
  | .error e => fault e

theorem halts_orFault (x : Except ε α) : Halts fun _ => (orFault x : Comp ε σ α) := by
  cases x with
  | ok a => exact halts_pure a
  | error e => exact halts_fault e

/-! ## More fuel -/

/-- Every outcome of the one is an outcome of the other. -/
def Below (x y : Comp ε σ α) : Prop :=
  ∀ s (r : Outcome ε σ α), x s = some r → y s = some r

theorem Below.refl (x : Comp ε σ α) : Below x x := fun _ _ h => h

theorem Below.trans {x y z : Comp ε σ α} (hxy : Below x y) (hyz : Below y z) : Below x z :=
  fun s r h => hyz s r (hxy s r h)

theorem outOfFuel_below (x : Comp ε σ α) : Below outOfFuel x := nofun

theorem Below.bind {x y : Comp ε σ α} {f g : α → Comp ε σ β} (hx : Below x y)
    (hf : ∀ a, Below (f a) (g a)) : Below (x >>= f) (y >>= g) := by
  intro s r h
  cases hxs : x s with
  | none =>
    rw [bind_none hxs] at h
    cases h
  | some o =>
    have hys := hx s o hxs
    cases o with
    | error e =>
      rw [bind_error hxs] at h
      exact (bind_error hys).trans h
    | ok p =>
      rw [bind_ok hxs] at h
      exact (bind_ok hys).trans (hf p.1 p.2 r h)

theorem below_of_step {f : ℕ → Comp ε σ α} (h : ∀ n, Below (f n) (f (n + 1))) {n m : ℕ}
    (hnm : n ≤ m) : Below (f n) (f m) := by
  induction hnm with
  | refl => exact .refl _
  | step _ ih => exact ih.trans (h _)

/-- What gives a value after another computation gives that one a value. -/
theorem Gives.bind_inv {b : β} (hf : ∀ n, Below (f n) (f (n + 1)))
    (h : Gives (fun n => f n >>= g n) s (.ok (b, s'))) :
    ∃ a s₁, Gives f s (.ok (a, s₁)) ∧ Gives (fun n => g n a) s₁ (.ok (b, s')) := by
  obtain ⟨N, hN⟩ := h
  cases hfs : f N s with
  | none => cases (bind_none hfs).symm.trans (hN N le_rfl)
  | some o =>
    have hlater : ∀ n, N ≤ n → f n s = some o := fun n hn => below_of_step hf hn s o hfs
    cases o with
    | error e => cases (Fuel.bind_error hfs).symm.trans (hN N le_rfl)
    | ok p =>
      refine ⟨p.1, p.2, ⟨N, hlater⟩, N, fun n hn => ?_⟩
      exact (bind_ok (hlater n hn)).symm.trans (hN n hn)

end Filebench.Fuel
