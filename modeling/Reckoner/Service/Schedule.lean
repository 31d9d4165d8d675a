import Reckoner.Service.Step

/-!
# Running a service

Out of all sequences of actions one is singled out: whoever can act does so, workers before
handovers and handovers before callers, until nobody can. Pauses may need a permit to end, so that
a service can be looked at in the middle of its work. `runs_settle` says that a service only gets
where some sequence of actions leads.
-/

namespace Reckoner.Service

/-! Upper bounds for the number of actions that are still to come. -/

def totalWork (bound : α → Nat) : List α → Nat
  | [] => 0
  | a :: rest => bound a + totalWork bound rest

/-- Bound for a worker that receives a formula of so many operators. -/
def takenWork (operators : Nat) : Nat :=
  8 * operators + 11

def planWork (c : Calculation) : Nat :=
  takenWork ((c.plan.map Formula.operatorCount).getD 0)

def Stage.work : Stage → Nat
  | .waiting => 1
  | .received c => planWork c
  | .begun c => planWork c - 1
  | .evaluating _ e => 2 * e.work + 5
  | .pausing _ e => 2 * e.work + 6
  | .concluding _ _ => 4
  | .recovering _ => 3
  | .releasing => 2
  | .exited | .lost => 0

/-- Bound for a calculation whose text is still to be parsed: it has no more operators than
characters. -/
def unparsedWork (c : Calculation) : Nat :=
  takenWork c.text.length + 6

def resumeWork (rest : List Calculation) : Nat :=
  totalWork unparsedWork rest + 1

def Then.work : Then → Nat
  | .submitted | .accepted => 0
  | .resume rest _ => resumeWork rest

def Caller.work : Caller → Nat
  | .submit text => takenWork text.length + 5
  | .parse c => takenWork c.text.length + 4
  | .reserve _ plan => takenWork plan.operatorCount + 3
  | .reject _ => 1
  | .resume rest _ => resumeWork rest
  | .reopen c rest _ => takenWork c.text.length + 4 + resumeWork rest
  | .announce _ plan next => takenWork plan.operatorCount + 2 + next.work
  | .send c next => planWork c + 1 + next.work
  | .offer c next => planWork c + next.work
  | .request c => planWork c + 2
  | .acquire | .join => 1
  | .close => 2
  | .hold | .done _ => 0

def work (s : Service) : Nat :=
  totalWork (fun w => w.stage.work) s.workers + totalWork Caller.work s.callers

/-- How many more pauses may end; `none` stands for all of them. -/
abbrev Permits :=
  Option Nat

def Stage.isPausing : Stage → Bool
  | .pausing .. => true
  | _ => false

def endsPause (s : Service) : Action → Bool
  | .worker i => match s.workers[i]? with
    | some w => w.stage.isPausing
    | none => false
  | _ => false

/-- The permits left when a pause has ended, if there was one for it. -/
def Permits.spend : Permits → Option Permits
  | none => some none
  | some 0 => none
  | some (n + 1) => some (some n)

def Permits.grant (n : Nat) (permits : Permits) : Permits :=
  permits.map (· + n)

/-! ### The schedule -/

def Caller.isOffering : Caller → Bool
  | .offer .. => true
  | _ => false

/-- The first caller at the rendezvous meets the first worker there. -/
def meetings (s : Service) : List Action :=
  match s.callers.findIdx? Caller.isOffering, s.workers.findIdx? Worker.isWaiting with
  | some i, some j => [.handOver i j]
  | _, _ => []

/-- What may happen next, in the order of preference. -/
def candidates (s : Service) : List Action :=
  (List.range s.workers.length).map .worker ++ s.meetings
    ++ (List.range s.callers.length).map .caller

/-- The state behind an action that is possible and permitted. -/
def attempt (k : Collaborators) (s : Service) (permits : Permits) (a : Action) :
    Option (Service × Permits) :=
  if s.endsPause a then do
    let permits ← permits.spend
    let s ← s.step k a
    return (s, permits)
  else (s.step k a).map (·, permits)

/-- Lets up to `n` actions happen. -/
def proceed (k : Collaborators) : Nat → Service → Permits → Service × Permits
  | 0, s, permits => (s, permits)
  | n + 1, s, permits =>
    match s.candidates.findSome? (s.attempt k permits) with
    | some (s, permits) => proceed k n s permits
    | none => (s, permits)

def settle (k : Collaborators) (s : Service) (permits : Permits) : Service × Permits :=
  proceed k s.work s permits

theorem step_of_attempt {k : Collaborators} {s : Service} {permits : Permits} {a : Action}
    {r : Service × Permits} (h : s.attempt k permits a = some r) : s.step k a = some r.1 := by
  unfold attempt at h
  split at h
  · simp only [Option.bind_eq_bind, Option.bind_eq_some_iff, Option.pure_def,
      Option.some.injEq] at h
    obtain ⟨_, _, t, happened, rfl⟩ := h
    exact happened
  · obtain ⟨t, happened, rfl⟩ := Option.map_eq_some_iff.1 h
    exact happened

theorem runs_proceed (k : Collaborators) (n : Nat) (s : Service) (permits : Permits) :
    Runs k s (proceed k n s permits).1 := by
  induction n generalizing s permits with
  | zero => exact ⟨[], rfl⟩
  | succ n ih =>
    unfold proceed
    split
    · rename_i t permits' found
      obtain ⟨a, _, happened⟩ := List.exists_of_findSome?_eq_some found
      obtain ⟨actions, rest⟩ := ih t permits'
      refine ⟨a :: actions, ?_⟩
      simp only [run, List.foldlM_cons, step_of_attempt happened, Option.bind_eq_bind,
        Option.bind_some]
      exact rest
    · exact ⟨[], rfl⟩

theorem runs_settle (k : Collaborators) (s : Service) (permits : Permits) :
    Runs k s (s.settle k permits).1 :=
  runs_proceed k _ s permits

/-! ### Calls -/

/-- Somebody calls an operation, and everything happens that can. The call has the last place among
the callers. -/
def enter (k : Collaborators) (s : Service) (permits : Permits) (c : Caller) : Service × Permits :=
  { s with callers := s.callers ++ [c] }.settle k permits

/-- The reply of the last caller, who leaves with it, if the operation has come back. -/
def leave? (s : Service) : Option (Reply × Service) := do
  let reply ← (← s.callers.getLast?).reply?
  return (reply, { s with callers := s.callers.dropLast })

/-- The reply to a call, if it comes back. -/
def call (k : Collaborators) (s : Service) (permits : Permits) (c : Caller) :
    Option Reply × Service × Permits :=
  let (s, permits) := s.enter k permits c
  match s.leave? with
  | some (reply, s) => (some reply, s, permits)
  | none => (none, s, permits)

end Reckoner.Service
