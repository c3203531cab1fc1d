import Filebench.Flowop.SemOwners

/-! # What the semaphores count

The lower semaphore of a flowop counts the units that were posted to it and not yet taken, the upper
one the posts that it still has room for. A call that gives up half of its work leaves the upper one
too high. -/
namespace Filebench

variable {τ : Type} [DecidableEq τ] {env : SemEnv τ} {s s' t : SemState τ} {e : SemEvent τ}
  {f g : τ} {k k' : SemKind} {p : SemPhase} {b : Option τ} {i : ℕ}
  {trace earlier later : List (SemState τ × SemEvent τ)}

namespace SemState

/-- The operations of an event. -/
def ops (env : SemEnv τ) (s : SemState τ) : SemEvent τ → List Sembuf
  | .highwater f highwater => s.highwaterOps env f highwater
  | .post f =>
    match s.phase f with
    | .hwPost value => s.postOps f value
    | _ => []
  | .wait f =>
    match s.phase f with
    | .lwWait value => s.waitOps f value
    | _ => []
  | .sempost target value blocking => s.sempostOps target value blocking
  | _ => []

/-- What an event adds to a semaphore of `f`. -/
def flow (f : τ) (k : SemKind) (s : SemState τ) : SemEvent τ → ℤ
  | .highwater g highwater => if g = f ∧ k = .hw then semShort highwater else 0
  | .post g =>
    match s.phase g with
    | .hwPost value => if g = f ∧ k = .hw then semShort value else 0
    | _ => 0
  | .wait g =>
    match s.phase g with
    | .lwWait value => if g = f ∧ k = .lw then semShort (-value) else 0
    | _ => 0
  | .sempost target value blocking =>
    if target = f then
      match k with
      | .lw => semShort value
      | .hw => if blocking then semShort (-value) else 0
    else 0
  | _ => 0

end SemState

/-- What was added to a semaphore of `f` in all. -/
def semFlow (f : τ) (k : SemKind) (trace : List (SemState τ × SemEvent τ)) : ℤ :=
  (trace.map fun x => x.1.flow f k x.2).sum

@[simp] theorem semFlow_nil : semFlow f k ([] : List (SemState τ × SemEvent τ)) = 0 := rfl

/-- Both halves of each call of `f` are done, the posts to it block, and no amount is too large for
a short. -/
def SemEvent.Paired (f : τ) : SemEvent τ → Prop
  | .postFails g | .waitFails g => g ≠ f
  | .call g value => g = f → 0 < value ∧ value < 2 ^ 15
  | .sempost target value blocking =>
    target = f → blocking = true ∧ 0 < value ∧ value < 2 ^ 15
  | _ => True

/-- The units that a flowop made room for and has not got yet. -/
def SemPhase.pending : SemPhase → ℤ
  | .lwWait value => value
  | _ => 0

/-- What the posts and the calls below meet. -/
def SemState.meets (s : SemState Bool) : SemEvent Bool → Bool
  | .sempost target value blocking =>
    (s.phase target).Working && blocking && decide (0 < value ∧ value < 2 ^ 15)
  | .call _ value => decide (0 < value ∧ value < 2 ^ 15)
  | .postFails _ | .waitFails _ | .destructLw _ | .destructHw _ => false
  | _ => true

end Filebench
