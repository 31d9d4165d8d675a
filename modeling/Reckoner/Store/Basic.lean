import Std.Data.TreeMap
import Reckoner.Calculation.Basic
import Reckoner.Decimal.Whole
import Reckoner.Text.Blank

/-!
# The store

A store keeps the latest copy of every calculation that it hears about, gives out the numbers under
which they are kept, and remembers the costs last recorded. `find?_keep_of_isTerminal` says that
keeping a copy never replaces a record that has ended.
-/

namespace Reckoner

abbrev Records :=
  Std.TreeMap Calculation.Id Calculation

structure Store where
  nextId : Calculation.Id
  costs : Option CostTable
  records : Records

namespace Store

def empty : Store :=
  ⟨1, none, ∅⟩

instance : Inhabited Store := ⟨empty⟩

def size (s : Store) : Nat :=
  s.records.size

def find? (s : Store) (id : Calculation.Id) : Option Calculation :=
  s.records[id]?

/-- The records, ascending by number. -/
def all (s : Store) : List Calculation :=
  s.records.values

/-- The next number; numbers start again from zero behind the last word. -/
def issue (s : Store) : Calculation.Id × Store :=
  (s.nextId, { s with nextId := s.nextId + 1 })

/-- Keeps a new calculation under the next number. -/
def create (s : Store) (c : Calculation) : Calculation.Id × Store :=
  let (id, s) := s.issue
  (id, { s with records := s.records.insert id { c with id := some id } })

/-- Keeps the copy of a calculation that has a number, unless its record has ended. -/
def keep (s : Store) (c : Calculation) : Store :=
  match c.id with
  | none => s
  | some id =>
    match s.find? id with
    | some old => if old.isTerminal then s else { s with records := s.records.insert id c }
    | none => { s with records := s.records.insert id c }

def recordCosts (s : Store) (table : CostTable) : Store :=
  { s with costs := some table }

theorem find?_keep_of_isTerminal {s : Store} {id : Calculation.Id} {old : Calculation}
    (h : s.find? id = some old) (ended : old.isTerminal = true) (c : Calculation) :
    (s.keep c).find? id = some old := by
  unfold keep
  split
  · exact h
  · rename_i key _
    by_cases same : key = id
    · subst same; simp [h, ended]
    · have other : (s.records.insert key c)[id]? = s.records[id]? := by
        rw [Std.TreeMap.getElem?_insert, if_neg]
        simpa using same
      split
      · split
        · exact h
        · rw [find?, other]; exact h
      · rw [find?, other]; exact h

/-! ### Queries -/

/-- The records whose number holds the digits of a fragment, ascending; all records, latest number
first, if the fragment is blank. -/
def search (s : Store) (fragment : String) : List Calculation :=
  let fragment := Text.trimmed fragment.toList
  if fragment.isEmpty then s.all.reverse
  else s.all.filter fun c =>
    c.id.any fun id => Text.occurs fragment (Nat.toDigits 10 id.toNat)

/-- Whether `a` comes before `b` in the latest first: by the time of creation, then by number. -/
def isLater (a b : Calculation) : Bool :=
  if a.createdAt.rank = b.createdAt.rank then
    match a.id, b.id with
    | some i, some j => j ≤ i
    | some _, none => true
    | none, some _ => false
    | none, none => true
  else b.createdAt.rank < a.createdAt.rank

/-- The records created last, latest first. -/
def latest (s : Store) (limit : Nat) : List Calculation :=
  (s.all.mergeSort isLater).take limit

/-- The records that a worker still has to take or to finish, ascending. -/
def unfinished (s : Store) : List Calculation :=
  s.all.filter Calculation.isPending

end Store

end Reckoner
