import AugLag.Newton.Error

/-! What the solver has to say while it works. -/
namespace AugLag

/-- Events worth a message. -/
inductive Event (T : Type)
  /-- Dense input was converted to sparse format. -/
  | denseConverted (what : String) (rows cols : Nat)
  | setup (n m : Nat) (solver : String)
  | lowRankFailed (cause : NewtonError)
  | factorizationRetried (cause : NewtonError) (rho : T)
  | factorizationGivenUp (retries : Nat) (cause : NewtonError)
  | noDecrease
  | startNotPositive (cause : NewtonError)
  | subproblemUnsolved (iterOut iterIn : Nat) (gradient : T)
  | penaltyIncreased (constraints : Nat)
  | zeroStep (iter : Nat)
  | notPositive (cause : NewtonError)
  | outputFailed (cause : String)
  | released

namespace Event

variable {T : Type}

/-- Dense input with more elements than this deserves a warning. -/
def denseWarnSize : Nat := 10000

/-- The event is a warning; all others matter to a developer only. -/
def isWarning : Event T → Bool
  | denseConverted _ rows cols => denseWarnSize < rows * cols
  | outputFailed _ => true
  | _ => false

def level (e : Event T) : String := if e.isWarning then "WARN" else "DEBUG"

/-- The message of an event, with numbers written by `number`. -/
def message (number : T → String) : Event T → String
  | denseConverted what rows cols =>
    let action := s!"converting dense {what} ({rows} x {cols}) to sparse format"
    if denseWarnSize < rows * cols then action ++ "; supply sparse data for large problems" else action
  | setup n m solver => s!"setup: n = {n}, m = {m}, linear solver = {solver}"
  | lowRankFailed cause => s!"low rank update failed ({cause.message}), refactoring"
  | factorizationRetried cause rho =>
    s!"factorization failed ({cause.message}), retrying with ρ = {number rho}"
  | factorizationGivenUp retries cause => s!"factorization failed after {retries} retries: {cause.message}"
  | noDecrease => "line search found no step with sufficient decrease"
  | startNotPositive cause => s!"initial Newton system not positive definite: {cause.message}"
  | subproblemUnsolved iterOut iterIn gradient =>
    s!"subproblem {iterOut} not solved in {iterIn} iterations, ‖∇φ‖ = {number gradient}"
  | penaltyIncreased count => s!"penalty increased for {count} constraints"
  | zeroStep iter => s!"zero step at iteration {iter}"
  | notPositive cause => s!"Newton system not positive definite: {cause.message}"
  | outputFailed cause => s!"failed to write solver output: {cause}"
  | released => "workspace released"

end Event
end AugLag
