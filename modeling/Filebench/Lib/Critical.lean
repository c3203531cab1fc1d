import Mathlib.Tactic

/-! # Critical sections

Programs that take a lock and let it go. What such a call owes to its caller is that it returns
without the lock and that it reports what it could not get. -/
namespace Filebench

/-- The flag tells whether the lock is held. A program without a result has undefined behaviour. -/
abbrev Critical (σ α : Type) := StateT (σ × Bool) Option α

namespace Critical

variable {σ α : Type}

/-- Taking the lock again waits for ever. -/
def lock : Critical σ Unit := fun (s, held) => if held then none else some ((), (s, true))

def unlock : Critical σ Unit := fun (s, _) => some ((), (s, false))

def inside (f : σ → Option (α × σ)) : Critical σ α :=
  fun (s, held) => (f s).map fun r => (r.1, (r.2, held))

section run

variable {β : Type} {s s' : σ} {held : Bool} {a : α} {f : σ → Option (α × σ)}

theorem lock_bind (g : Unit → Critical σ β) : (lock >>= g) (s, false) = g () (s, true) := rfl

theorem inside_bind_some (h : f s = some (a, s')) (g : α → Critical σ β) :
    (inside f >>= g) (s, held) = g a (s', held) := by
  change ((f s).map _).bind _ = _
  rw [h]
  rfl

theorem inside_bind_none (h : f s = none) (g : α → Critical σ β) :
    (inside f >>= g) (s, held) = none := by
  change ((f s).map _).bind _ = _
  rw [h]
  rfl

end run

/-- A call returns without the lock, and with a null result where there is nothing left. -/
structure Contract (f : Critical σ α) (null : α → Prop) (exhausted : Prop) (s : σ) : Prop where
  released : ∀ a s' held, f (s, false) = some (a, (s', held)) → held = false
  reported : exhausted → ∃ a s' held, f (s, false) = some (a, (s', held)) ∧ null a

variable {f : Critical σ α} {null : α → Prop} {exhausted : Prop} {s s' : σ} {a : α}

theorem contract_of_released (h : f (s, false) = some (a, (s', false)))
    (hnull : exhausted → null a) : Contract f null exhausted s := by
  constructor
  · intro a' s'' held h'
    rw [h] at h'
    exact (Prod.mk.inj (Prod.mk.inj (Option.some.inj h')).2).2.symm
  · exact fun hexhausted => ⟨a, s', false, h, hnull hexhausted⟩

theorem not_contract_of_held (h : f (s, false) = some (a, (s', true))) :
    ¬ Contract f null exhausted s :=
  fun hcontract => nomatch hcontract.released a s' true h

/-- A call that does not return owes nothing but the report. -/
theorem contract_of_undefined (h : f (s, false) = none) :
    Contract f null exhausted s ↔ ¬ exhausted := by
  constructor
  · intro hcontract hexhausted
    obtain ⟨a, s', held, hf, -⟩ := hcontract.reported hexhausted
    rw [h] at hf
    cases hf
  · intro hnot
    constructor
    · intro a s' held hf
      rw [h] at hf
      cases hf
    · exact fun hexhausted => absurd hexhausted hnot

end Critical

end Filebench
