import Mathlib.Tactic

/-! # Sets of semaphores

The operations that a call names are done together or not at all. An operation of zero waits for a
semaphore that is zero, a negative one for a semaphore that is large enough. No semaphore goes
above the limit. -/
namespace Filebench

structure Sembuf where
  semNum : ℕ
  semOp : ℤ

/-- What a call would do at once. A call that waits can give up, with nothing done. -/
inductive Semres where
  | done (semval : ℕ → ℕ)
  | waits
  | error

/-- The new values of a call that is done. -/
def Semres.value : Semres → Option (ℕ → ℕ)
  | .done semval => some semval
  | _ => none

/-- The call is not done: it gave up after 600 seconds, or it is in error. -/
def Semres.failed : Semres → Bool
  | .done _ => false
  | _ => true

structure SemLimits where
  nsems : ℕ
  semvmx : ℕ

variable {lim : SemLimits} {sops : List Sembuf} {sop : Sembuf} {semval semval' : ℕ → ℕ}

def semApply (lim : SemLimits) : List Sembuf → (ℕ → ℕ) → Semres
  | [], semval => .done semval
  | sop :: sops, semval =>
    let result := (semval sop.semNum : ℤ) + sop.semOp
    if sop.semOp = 0 ∧ semval sop.semNum ≠ 0 ∨ result < 0 then .waits
    else if lim.semvmx < result then .error
    else semApply lim sops (Function.update semval sop.semNum result.toNat)

def semop (lim : SemLimits) (sops : List Sembuf) (semval : ℕ → ℕ) : Semres :=
  if ∀ sop ∈ sops, sop.semNum < lim.nsems then semApply lim sops semval else .error

theorem semop_number (h : semop lim sops semval = .done semval') (hsop : sop ∈ sops) :
    sop.semNum < lim.nsems := by
  unfold semop at h
  split at h
  next hnum => exact hnum sop hsop
  next => cases h

end Filebench
