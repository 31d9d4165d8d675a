import Reckoner.Formula.Evaluation

/-!
# What a formula charges

`trace` gives the operators that a formula charges in their order, and its value or fault, without
a meter; `evaluate_trace` says that a meter under any schedule comes to the same. Each step of a
worker's evaluation leaves its outlook alone, but for a pause: `outlook_pausing` says that its
operator was the first of those to come.
-/

namespace Reckoner

/-- Operators charged in their order, and what they come to. -/
abbrev Outlook :=
  List Operator × Except Error Float

namespace Outlook

/-- What follows if the first part has a value. -/
def andThen (first : Outlook) (next : Float → Outlook) : Outlook :=
  match first with
  | (ops, .error e) => (ops, .error e)
  | (ops, .ok x) => (ops ++ (next x).1, (next x).2)

@[simp] theorem andThen_error (ops : List Operator) (e : Error) (next : Float → Outlook) :
    andThen (ops, .error e) next = (ops, .error e) := rfl

@[simp] theorem andThen_ok (ops : List Operator) (x : Float) (next : Float → Outlook) :
    andThen (ops, .ok x) next = (ops ++ (next x).1, (next x).2) := rfl

theorem andThen_assoc (first : Outlook) (second third : Float → Outlook) :
    (first.andThen second).andThen third = first.andThen fun x => (second x).andThen third := by
  obtain ⟨ops, outcome⟩ := first
  cases outcome with
  | error e => rfl
  | ok x =>
    rw [andThen_ok, andThen_ok]
    rcases second x with ⟨more, _ | y⟩
    · rfl
    · simp

/-- An operator whose operands are known: nothing is charged for a division by zero. -/
def apply (op : Operator) (x y : Float) : Outlook :=
  if op = .divide && y == 0 then ([], .error .divisionByZero) else ([op], .ok (op.apply x y))

end Outlook

namespace Formula

/-- The operators that a formula charges, and its value. -/
def trace : Formula → Outlook
  | number x => ([], .ok x)
  | binary l op r => l.trace.andThen fun x => r.trace.andThen fun y => .apply op x y

/-- Whatever the tables do, evaluation comes to the end of the trace and charges its operators. -/
theorem evaluate_trace (schedule : Nat → Option CostTable) (f : Formula) (m : Meter) :
    (f.evaluate schedule m).1 = f.trace.2 ∧
      (f.evaluate schedule m).2.log.map Charge.op = m.log.map Charge.op ++ f.trace.1 := by
  induction f generalizing m with
  | number x => simp [evaluate, trace]
  | binary l op r ihl ihr =>
    obtain ⟨outcome, log⟩ := ihl m
    rw [evaluate, trace]
    generalize l.evaluate schedule m = left at *
    generalize l.trace = before at *
    obtain ⟨ended, m₁⟩ := left
    obtain ⟨ops, _⟩ := before
    subst outcome
    rcases ended with e | x
    · exact ⟨rfl, log⟩
    obtain ⟨outcome', log'⟩ := ihr m₁
    simp only [Outlook.andThen_ok]
    generalize r.evaluate schedule m₁ = right at *
    generalize r.trace = behind at *
    obtain ⟨ended', m₂⟩ := right
    obtain ⟨ops', _⟩ := behind
    subst outcome'
    rcases ended' with e | y
    · exact ⟨rfl, by simp_all⟩
    simp only [Outlook.andThen_ok, Outlook.apply]
    split
    · exact ⟨rfl, by simp_all⟩
    · refine ⟨rfl, ?_⟩
      simp_all [Meter.log, Meter.pause]

theorem trace_value (f : Formula) : f.trace.2 = f.value := by
  induction f with
  | number x => rfl
  | binary l op r ihl ihr =>
    rw [trace, value, ← ihl, ← ihr]
    rcases l.trace with ⟨_, _ | x⟩
    · rfl
    rcases r.trace with ⟨_, _ | y⟩
    · rfl
    simp only [Outlook.andThen_ok, Outlook.apply]
    split <;> simp_all [bind, Except.bind]

theorem error_of_trace {f : Formula} {e : Error} (h : f.trace.2 = .error e) :
    e = .divisionByZero := by
  induction f generalizing e with
  | number x => cases h
  | binary l op r ihl ihr =>
    rw [trace] at h
    rcases left : l.trace with ⟨ops, e' | x⟩ <;> rw [left] at h ihl
    · cases h
      exact ihl rfl
    rw [Outlook.andThen_ok] at h
    rcases right : r.trace with ⟨ops', e' | y⟩ <;> rw [right] at h ihr
    · cases h
      exact ihr rfl
    rw [Outlook.andThen_ok, Outlook.apply] at h
    split at h <;> cases h
    rfl

end Formula

namespace Evaluation

/-- What is still to come inside the nodes entered, when the innermost operand is known. -/
def through : List Entered → Float → Outlook
  | [], x => ([], .ok x)
  | .left op _ r :: rest, x =>
    r.trace.andThen fun y => (Outlook.apply op x y).andThen (through rest)
  | .right op _ x :: rest, y => (Outlook.apply op x y).andThen (through rest)

/-- The operators still to be charged, and what the evaluation comes to. -/
def outlook : Evaluation → Outlook
  | .enter f inside => f.trace.andThen (through inside)
  | .leave x inside => through inside x

theorem outlook_start (f : Formula) : (start f).outlook = f.trace := by
  simp only [start, outlook]
  rcases f.trace with ⟨ops, _ | x⟩
  · rfl
  · simp [through]

theorem outlook_running {table : CostTable} {e e' : Evaluation} (h : e.step table = .running e') :
    e'.outlook = e.outlook := by
  cases e with
  | enter f inside =>
    cases f with
    | number x =>
      cases h
      simp [outlook, Formula.trace]
    | binary l op r =>
      cases h
      simp only [outlook, Formula.trace, Outlook.andThen_assoc]
      rfl
  | leave x inside =>
    match inside, h with
    | .left op cost r :: rest, h =>
      cases h
      rfl
    | .right op cost y :: rest, h =>
      simp only [step] at h
      split at h <;> cases h

theorem outlook_finished {table : CostTable} {e : Evaluation} {outcome : Except Error Float}
    (h : e.step table = .finished outcome) : e.outlook = ([], outcome) := by
  cases e with
  | enter f inside => cases f <;> cases h
  | leave x inside =>
    match inside, h with
    | [], h =>
      cases h
      rfl
    | .right op cost y :: rest, h =>
      simp only [step] at h
      split at h
      · rename_i zero
        cases h
        simp only [outlook, through, Outlook.apply, zero, ↓reduceIte]
        rfl
      · cases h

theorem outlook_pausing {table : CostTable} {e e' : Evaluation} {c : Charge}
    (h : e.step table = .pausing c e') :
    e.outlook = (c.op :: e'.outlook.1, e'.outlook.2) := by
  cases e with
  | enter f inside => cases f <;> cases h
  | leave x inside =>
    match inside, h with
    | .right op cost y :: rest, h =>
      simp only [step] at h
      split at h
      · cases h
      · rename_i nonzero
        cases h
        simp only [outlook, through, Outlook.apply, nonzero]
        rfl

end Evaluation

end Reckoner
