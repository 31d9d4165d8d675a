import Reckoner.Proofs.Store.Records

/-!
# What a store hears

A store hears of new calculations, of copies of calculations and of cost tables, in any order. It
numbers the new ones one after another, and the numbers start again behind the last word.
`ended_stays_iff` says that a record that has ended stays as it is until its number is given out.
-/

namespace Reckoner.Store

inductive Event where
  | created (c : Calculation)
  | changed (c : Calculation)
  | completed (c : Calculation)
  | costed (table : CostTable)

def hear (s : Store) : Event → Store
  | .created c => (s.create c).2
  | .changed c => s.keep c
  | .completed c => s.keep c
  | .costed table => s.recordCosts table

def after (s : Store) (events : List Event) : Store :=
  events.foldl hear s

variable {s : Store} {c : Calculation} {id : Calculation.Id}

@[simp] theorem after_nil (s : Store) : s.after [] = s := rfl

@[simp] theorem after_cons (s : Store) (e : Event) (events : List Event) :
    s.after (e :: events) = (s.hear e).after events := rfl

theorem Built.after (h : s.Built) (events : List Event) : (s.after events).Built := by
  induction events generalizing s with
  | nil => exact h
  | cons e events ih =>
    cases e with
    | created c => exact ih (h.created c)
    | changed c | completed c => exact ih (h.kept c)
    | costed table => exact ih (h.costed table)

/-! ### Numbers -/

def Event.newcomer? : Event → Option Calculation
  | .created c => some c
  | .changed _ | .completed _ | .costed _ => none

/-- The calculations that are new, in the order in which they come. -/
def newcomers (events : List Event) : List Calculation :=
  events.filterMap Event.newcomer?

/-- The numbers that the new calculations are given. -/
def given (s : Store) : List Event → List Calculation.Id
  | [] => []
  | .created c :: events => (s.create c).1 :: (s.create c).2.given events
  | .changed c :: events | .completed c :: events => (s.keep c).given events
  | .costed table :: events => (s.recordCosts table).given events

theorem newcomers_cons (e : Event) (events : List Event) :
    newcomers (e :: events) = e.newcomer?.toList ++ newcomers events := by
  cases e <;> rfl

theorem succ_add_ofNat (number : Calculation.Id) (k : Nat) :
    number + 1 + UInt64.ofNat k = number + UInt64.ofNat (k + 1) := by
  rw [UInt64.add_assoc, Nat.add_comm, UInt64.ofNat_add]
  rfl

theorem nextId_hear (s : Store) (e : Event) :
    (s.hear e).nextId = s.nextId + UInt64.ofNat e.newcomer?.toList.length := by
  cases e with
  | created c => rfl
  | changed c | completed c => simp [hear, Event.newcomer?]
  | costed table => simp [hear, recordCosts, Event.newcomer?]

theorem nextId_after (s : Store) (events : List Event) :
    (s.after events).nextId = s.nextId + UInt64.ofNat (newcomers events).length := by
  induction events generalizing s with
  | nil => simp [newcomers]
  | cons e events ih =>
    rw [after_cons, ih, nextId_hear, newcomers_cons, List.length_append, UInt64.ofNat_add,
      UInt64.add_assoc]

/-- The new calculations are numbered one after another, whatever the store hears in between. -/
theorem given_eq (s : Store) (events : List Event) :
    s.given events =
      (List.range (newcomers events).length).map fun k => s.nextId + UInt64.ofNat k := by
  induction events generalizing s with
  | nil => rfl
  | cons e events ih =>
    have later := ih (s.hear e)
    rw [nextId_hear] at later
    cases e with
    | created c =>
      have shifted : (s.create c).2.given events = (List.range (newcomers events).length).map
          fun k => s.nextId + UInt64.ofNat (k + 1) := by
        simp only [← succ_add_ofNat]
        exact later
      rw [given, shifted, newcomers_cons, List.length_append, Event.newcomer?, Option.toList_some,
        List.length_singleton, Nat.add_comm, List.range_succ_eq_map, List.map_cons, List.map_map]
      exact congrArg (· :: _) (UInt64.add_zero s.nextId).symm
    | changed c | completed c | costed table =>
      simpa [hear, given, newcomers_cons, Event.newcomer?] using later

/-! ### Copies -/

/-- Whether all copies are of calculations whose number is one of those here or has been given out
before the copy comes. -/
def Known : List Calculation.Id → Store → List Event → Prop
  | _, _, [] => True
  | numbers, s, .created c :: events => Known ((s.create c).1 :: numbers) (s.create c).2 events
  | numbers, s, .changed c :: events | numbers, s, .completed c :: events =>
    (∀ id, c.id = some id → id ∈ numbers) ∧ Known numbers (s.keep c) events
  | numbers, s, .costed table :: events => Known numbers (s.recordCosts table) events

theorem within_keep {numbers : List Calculation.Id}
    (within : ∀ id old, s.find? id = some old → id ∈ numbers)
    (named : ∀ id, c.id = some id → id ∈ numbers) :
    ∀ id old, (s.keep c).find? id = some old → id ∈ numbers := by
  intro id old found
  by_cases own : c.id = some id
  · exact named id own
  · rw [find?_keep_of_id_ne own] at found
    exact within id old found

/-- Where all copies are known, the records are under numbers that have been given out. -/
theorem mem_of_find?_after {numbers : List Calculation.Id} {events : List Event}
    (within : ∀ id old, s.find? id = some old → id ∈ numbers) (known : Known numbers s events)
    (found : (s.after events).find? id = some c) : id ∈ numbers ∨ id ∈ s.given events := by
  induction events generalizing s numbers with
  | nil => exact .inl (within id c found)
  | cons e events ih =>
    cases e with
    | created d =>
      have within : ∀ id old, (s.create d).2.find? id = some old → id ∈ s.nextId :: numbers := by
        intro id old there
        rw [find?_create] at there
        split at there
        · rename_i same
          exact same ▸ List.mem_cons_self
        · exact List.mem_cons_of_mem _ (within id old there)
      rcases ih within known found with old | new
      · rcases List.mem_cons.1 old with rfl | old
        · exact .inr List.mem_cons_self
        · exact .inl old
      · exact .inr (List.mem_cons_of_mem _ new)
    | changed d | completed d => exact ih (within_keep within known.1) known.2 found
    | costed table => exact ih within known found

/-! ### Records that have ended -/

/-- Only a creation that is given its number replaces a record that has ended. -/
theorem find?_hear_of_isTerminal (found : s.find? id = some c) (ended : c.isTerminal = true)
    (e : Event) :
    (s.hear e).find? id =
      if s.nextId = id then (e.newcomer?.map ({ · with id := some id })).or (some c)
      else some c := by
  cases e with
  | created d =>
    rw [hear, find?_create, found]
    by_cases same : s.nextId = id
    · simp [Event.newcomer?, same]
    · simp [same, Ne.symm same]
  | changed d | completed d =>
    exact (find?_keep_of_isTerminal found ended d).trans (ite_self _).symm
  | costed table => exact found.trans (ite_self _).symm

theorem after_prefixes {P : Store → Prop} (here : P s) (e : Event) (events : List Event) :
    (∀ front, front <+: e :: events → P (s.after front)) ↔
      ∀ front, front <+: events → P ((s.hear e).after front) := by
  constructor
  · intro all front early
    exact all (e :: front) (List.cons_prefix_cons.2 ⟨rfl, early⟩)
  · intro all front early
    cases front with
    | nil => exact here
    | cons d front =>
      obtain ⟨rfl, shorter⟩ := List.cons_prefix_cons.1 early
      exact all front shorter

/-- A record that has ended is the same after whatever the store hears, exactly if no calculation
other than itself is given its number. The new calculations are given the numbers from the next one
onwards. -/
theorem ended_stays_iff (found : s.find? id = some c) (ended : c.isTerminal = true)
    (events : List Event) :
    (∀ front, front <+: events → (s.after front).find? id = some c) ↔
      ∀ k d, (newcomers events)[k]? = some d → s.nextId + UInt64.ofNat k = id →
        { d with id := some id } = c := by
  induction events generalizing s with
  | nil => simpa [newcomers] using found
  | cons e events ih =>
    have now := find?_hear_of_isTerminal found ended e
    have next := nextId_hear s e
    rw [after_prefixes (P := fun t => t.find? id = some c) found, newcomers_cons]
    cases kind : e.newcomer? with
    | none =>
      simp only [kind, Option.map_none, Option.none_or, ite_self] at now
      have same : (s.hear e).nextId = s.nextId := by simpa [kind] using next
      rw [ih now, same]
      rfl
    | some d =>
      simp only [kind, Option.map_some, Option.some_or] at now
      have shifted (k : Nat) :
          (s.hear e).nextId + UInt64.ofNat k = s.nextId + UInt64.ofNat (k + 1) := by
        rw [next, kind]
        exact succ_add_ofNat s.nextId k
      constructor
      · intro all k x there number
        have kept : (s.hear e).find? id = some c := all [] List.nil_prefix
        cases k with
        | zero =>
          cases there
          rw [now, if_pos (by simpa using number)] at kept
          exact Option.some.inj kept
        | succ k => exact (ih kept).1 all k x there ((shifted k).trans number)
      · intro all
        have kept : (s.hear e).find? id = some c := by
          rw [now]
          split
          · rename_i first
            rw [all 0 d rfl (by simpa using first)]
          · rfl
        exact (ih kept).2 fun k x there number =>
          all (k + 1) x there ((shifted k).symm.trans number)

/-- A calculation that is done, under the first number. -/
def quotient : Calculation :=
  ⟨some 1, "6/3", none, some 2, .done, default, some default⟩

def total : Calculation :=
  .new "2+2" default

theorem quotient_stays :
    (empty.after [.created total, .completed quotient]).find? 1 = some quotient ∧
      quotient.isTerminal = true ∧
      ∀ front, front <+: [.created total, .changed { total with id := some 1 }] →
        ((empty.after [.created total, .completed quotient]).after front).find? 1 =
          some quotient := by
  have found : (empty.after [.created total, .completed quotient]).find? 1 = some quotient := rfl
  refine ⟨found, rfl, (ended_stays_iff found rfl _).2 ?_⟩
  intro k d there number
  cases k with
  | zero => exact absurd number (by decide)
  | succ k => cases there

/-- A result that comes from outside stands under a number which the store has not given out, and
the next creation replaces it. -/
theorem ended_record_replaced :
    (empty.after [.completed quotient]).find? 1 = some quotient ∧ quotient.isTerminal = true ∧
      (empty.after [.completed quotient, .created total]).find? 1 =
        some { total with id := some 1 } ∧
      some { total with id := some 1 } ≠ some quotient :=
  ⟨rfl, rfl, rfl, fun same => nomatch congrArg (Option.map Calculation.status) same⟩

end Reckoner.Store
