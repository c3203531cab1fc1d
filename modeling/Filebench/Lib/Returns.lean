import Mathlib.Tactic

/-! # Routines that return

A routine with loops takes fuel and has no result when the fuel runs out or the program breaks
a rule of the language. It returns a value when every large enough fuel gives that value. -/
namespace Filebench.Fuel

variable {β γ : Type*} {f : ℕ → Option β} {b c : β}

def Returns (f : ℕ → Option β) (b : β) : Prop := ∃ N, ∀ fuel, N ≤ fuel → f fuel = some b

theorem Returns.unique (hb : Returns f b) (hc : Returns f c) : b = c := by
  obtain ⟨N, hN⟩ := hb
  obtain ⟨M, hM⟩ := hc
  exact Option.some.inj ((hN (max N M) (le_max_left ..)).symm.trans (hM _ (le_max_right ..)))

theorem returns_of_const (h : ∀ fuel, f fuel = some b) : Returns f b := ⟨0, fun fuel _ => h fuel⟩

theorem Returns.bind {g : ℕ → β → Option γ} {d : γ} (hf : Returns f b)
    (hg : Returns (fun fuel => g fuel b) d) : Returns (fun fuel => (f fuel).bind (g fuel)) d := by
  obtain ⟨N, hN⟩ := hf
  obtain ⟨M, hM⟩ := hg
  refine ⟨max N M, fun fuel hfuel => ?_⟩
  change (f fuel).bind (g fuel) = some d
  rw [hN fuel ((le_max_left ..).trans hfuel)]
  exact hM fuel ((le_max_right ..).trans hfuel)

theorem Returns.congr {g : ℕ → Option β} (hf : Returns f b) {N : ℕ}
    (h : ∀ fuel, N ≤ fuel → g fuel = f fuel) : Returns g b := by
  obtain ⟨M, hM⟩ := hf
  exact ⟨max N M, fun fuel hfuel =>
    (h fuel ((le_max_left ..).trans hfuel)).trans (hM fuel ((le_max_right ..).trans hfuel))⟩

theorem Returns.run (hf : Returns f b) : ∃ fuel, f fuel = some b := by
  obtain ⟨N, hN⟩ := hf
  exact ⟨N, hN N le_rfl⟩

theorem Returns.of_succ (hf : Returns (fun fuel => f (fuel + 1)) b) : Returns f b := by
  obtain ⟨N, hN⟩ := hf
  refine ⟨N + 1, fun fuel hfuel => ?_⟩
  cases fuel with
  | zero => omega
  | succ fuel => exact hN fuel (by omega)

/-- More fuel does not change a result. -/
def Steady (f : ℕ → Option β) : Prop := ∀ n m b, n ≤ m → f n = some b → f m = some b

theorem Steady.returns (hf : Steady f) {n : ℕ} (hn : f n = some b) : Returns f b :=
  ⟨n, fun m hm => hf n m b hm hn⟩

theorem steady_const (o : Option β) : Steady fun _ => o := fun _ _ _ _ h => h

theorem Steady.bind {g : ℕ → β → Option γ} (hf : Steady f) (hg : ∀ b, Steady fun n => g n b) :
    Steady fun n => (f n).bind (g n) := by
  intro n m c hnm hc
  obtain ⟨b, hb, hgb⟩ := Option.bind_eq_some_iff.mp hc
  exact Option.bind_eq_some_iff.mpr ⟨b, hf n m b hnm hb, hg b n m c hnm hgb⟩

theorem Steady.ite {p : Prop} [Decidable p] {g : ℕ → Option β} (hf : Steady f) (hg : Steady g) :
    Steady fun n => if p then f n else g n := by
  by_cases hp : p
  · simpa [hp] using hf
  · simpa [hp] using hg

theorem Steady.map (hf : Steady f) (g : β → γ) : Steady fun n => (f n).map g := by
  intro n m c hnm hc
  obtain ⟨b, hb, hgb⟩ := Option.map_eq_some_iff.mp hc
  exact Option.map_eq_some_iff.mpr ⟨b, hf n m b hnm hb, hgb⟩

/-- A loop is steady when one unfolding is, given the rest of it. -/
theorem steady_of_succ (hzero : f 0 = none)
    (hsucc : ∀ n b, f (n + 1) = some b → f (n + 2) = some b) : Steady f := by
  intro n m b hnm hb
  induction hnm with
  | refl => exact hb
  | @step m hnm ih =>
    cases m with
    | zero => rw [hzero] at ih; cases ih
    | succ m => exact hsucc m b ih

end Filebench.Fuel
