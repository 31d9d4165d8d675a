import Reckoner.Duration

/-!
# Instants

Moments of the Gregorian calendar in coordinated universal time, down to nanoseconds. The second 60
stands for a leap second. Instants are ordered by `rank`.
-/

namespace Reckoner

namespace Calendar

def isLeap (year : Int) : Bool :=
  year % 4 = 0 && (year % 100 ≠ 0 || year % 400 = 0)

def daysInMonth (year : Int) (month : Nat) : Nat :=
  if month = 2 then (if isLeap year then 29 else 28)
  else if month = 4 ∨ month = 6 ∨ month = 9 ∨ month = 11 then 30
  else 31

def firstYear : Int :=
  -262143

def lastYear : Int :=
  262142

def IsDate (year : Int) (month day : Nat) : Prop :=
  firstYear ≤ year ∧ year ≤ lastYear ∧ 1 ≤ month ∧ month ≤ 12 ∧ 1 ≤ day ∧
    day ≤ daysInMonth year month

instance (year : Int) (month day : Nat) : Decidable (IsDate year month day) := by
  unfold IsDate; infer_instance

def dayBefore (year : Int) (month day : Nat) : Int × Nat × Nat :=
  if 1 < day then (year, month, day - 1)
  else if 1 < month then (year, month - 1, daysInMonth year (month - 1))
  else (year - 1, 12, 31)

def dayAfter (year : Int) (month day : Nat) : Int × Nat × Nat :=
  if day < daysInMonth year month then (year, month, day + 1)
  else if month < 12 then (year, month + 1, 1)
  else (year + 1, 1, 1)

end Calendar

structure Instant where
  year : Int
  month : Nat
  day : Nat
  hour : Nat
  minute : Nat
  second : Nat
  nanos : Nat
  isDate : Calendar.IsDate year month day
  isTime : hour < 24 ∧ minute < 60 ∧ second ≤ 60 ∧ nanos < Duration.perSecond
  deriving DecidableEq

namespace Instant

def epoch : Instant :=
  ⟨1970, 1, 1, 0, 0, 0, 0, by decide, by decide⟩

instance : Inhabited Instant := ⟨epoch⟩

/-- The instant with these fields, if there is such a date and such a time. -/
def ofFields? (year : Int) (month day hour minute second nanos : Nat) : Option Instant :=
  if isDate : Calendar.IsDate year month day then
    if isTime : hour < 24 ∧ minute < 60 ∧ second ≤ 60 ∧ nanos < Duration.perSecond then
      some ⟨year, month, day, hour, minute, second, nanos, isDate, isTime⟩
    else none
  else none

@[simp] theorem ofFields?_self (t : Instant) :
    ofFields? t.year t.month t.day t.hour t.minute t.second t.nanos = some t := by
  rw [ofFields?, dif_pos t.isDate, dif_pos t.isTime]

/-- A number that grows with time. -/
def rank (t : Instant) : Int :=
  (((((t.year * 13 + t.month) * 32 + t.day) * 24 + t.hour) * 60 + t.minute) * 61 + t.second)
    * Duration.perSecond + t.nanos

instance : LT Instant := ⟨fun a b => a.rank < b.rank⟩

instance : LE Instant := ⟨fun a b => a.rank ≤ b.rank⟩

instance (a b : Instant) : Decidable (a < b) :=
  inferInstanceAs (Decidable (a.rank < b.rank))

instance (a b : Instant) : Decidable (a ≤ b) :=
  inferInstanceAs (Decidable (a.rank ≤ b.rank))

/-- The universal time of a local one that is so many minutes ahead of it, less than a day either
way. -/
def behind? (wall : Instant) (minutes : Int) : Option Instant :=
  let clock := (wall.hour * 60 + wall.minute : Int) - minutes
  let (year, month, day) :=
    if clock < 0 then Calendar.dayBefore wall.year wall.month wall.day
    else if 1440 ≤ clock then Calendar.dayAfter wall.year wall.month wall.day
    else (wall.year, wall.month, wall.day)
  let clock := (clock % 1440).toNat
  ofFields? year month day (clock / 60) (clock % 60) wall.second wall.nanos

end Instant

end Reckoner
