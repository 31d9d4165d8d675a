/-!
# Status of a calculation

A calculation is created, queued, calculated, and ends as done or failed.
-/

namespace Reckoner.Calculation

inductive Status where
  | created
  | queued
  | calculating
  | done
  | failed (message : String)
  deriving DecidableEq, Repr, Inhabited

namespace Status

/-- Whether no transition leaves the status. -/
def isTerminal : Status → Bool
  | done | failed _ => true
  | _ => false

/-- Whether a worker still has to take the calculation or to finish it. -/
def isPending : Status → Bool
  | queued | calculating => true
  | _ => false

def label : Status → String
  | created => "created"
  | queued => "in queue"
  | calculating => "calculating"
  | done => "done"
  | failed _ => "failed"

def text : Status → String
  | failed message => message
  | status => status.label

theorem not_isPending_of_isTerminal {s : Status} (h : s.isTerminal = true) :
    s.isPending = false := by
  cases s <;> simp_all [isTerminal, isPending]

end Status

end Reckoner.Calculation
