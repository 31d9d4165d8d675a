import Reckoner.Calculation.Status

/-!
# Errors

What can go wrong with a calculation, the pool or the store, with the text, the category and the
reach of each error.
-/

namespace Reckoner

inductive Error where
  /-- The text is no expression; `position` counts characters. -/
  | parse (position : Nat) (detail : String)
  | divisionByZero
  | configuration (setting detail : String)
  | poolUnavailable
  | transition (origin target : String)
  | storage (detail : String)
  deriving DecidableEq, Repr, Inhabited

namespace Error

def message : Error → String
  | parse position detail => "parse error at position " ++ toString position ++ ": " ++ detail
  | divisionByZero => "division by zero"
  | configuration setting detail => "invalid configuration for '" ++ setting ++ "': " ++ detail
  | poolUnavailable => "calculation pool is unavailable"
  | transition origin target =>
    "invalid status transition from '" ++ origin ++ "' to '" ++ target ++ "'"
  | storage detail => "storage error: " ++ detail

/-- A step that the status does not allow. -/
def illegal (status : Calculation.Status) (target : String) : Error :=
  transition status.label target

def category : Error → String
  | parse .. => "parse"
  | divisionByZero => "evaluation"
  | configuration .. => "configuration"
  | poolUnavailable => "pool"
  | transition .. => "lifecycle"
  | storage _ => "storage"

/-- Whether the error concerns only the request that met it. -/
def isRecoverable : Error → Bool
  | poolUnavailable | transition .. => false
  | _ => true

end Error

theorem bind_eq_ok {ε α β : Type} {x : Except ε α} {f : α → Except ε β} {b : β} :
    (x >>= f) = .ok b ↔ ∃ a, x = .ok a ∧ f a = .ok b := by
  cases x <;> simp [bind, Except.bind]

end Reckoner
