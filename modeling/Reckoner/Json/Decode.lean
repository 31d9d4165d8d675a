import Reckoner.Json.Reading

/-!
# Values from JSON texts

Readers take a tree to a value or to the first fault met from left to right: the text is no JSON
there, or it is JSON of another shape. A record may be an object or the list of its fields in their
order.
-/

namespace Reckoner.Json

inductive Fault where
  | malformed
  | mismatched
  deriving DecidableEq, Repr

abbrev Read (α : Type) :=
  Reading → Except Fault α

namespace Reading

/-- The fault of a value that has another shape than the one looked for. -/
def otherShape : Reading → Fault
  | cut | unpaired => .malformed
  | number l => match l.number with
    | .outOfRange => .malformed
    | _ => .mismatched
  | _ => .mismatched

def asText : Read String
  | text s => .ok s
  | v => .error v.otherShape

/-- A whole number from `low` up to, but not including, `high`. -/
def asWhole (low high : Int) : Read Int
  | number l => match l.number with
    | .whole n => if low ≤ n ∧ n < high then .ok n else .error .mismatched
    | .real _ => .error .mismatched
    | .outOfRange => .error .malformed
  | v => .error v.otherShape

def asUInt64 : Read UInt64 := fun v =>
  (asWhole 0 UInt64.size v).map fun n => UInt64.ofNat n.toNat

def asUInt16 : Read UInt16 := fun v =>
  (asWhole 0 UInt16.size v).map fun n => UInt16.ofNat n.toNat

def asInt64 : Read Int64 := fun v =>
  (asWhole Int64.minValue.toInt (Int64.maxValue.toInt + 1) v).map Int64.ofInt

def asFloat : Read Float
  | number l => match l.number with
    | .whole n => .ok (if n < 0 then -(UInt64.ofNat n.natAbs).toFloat
        else (UInt64.ofNat n.toNat).toFloat)
    | .real x => .ok x
    | .outOfRange => .error .malformed
  | v => .error v.otherShape

def asNull : Read Unit
  | null => .ok ()
  | v => .error v.otherShape

def asOption (read : Read α) : Read (Option α)
  | null => .ok none
  | v => (read v).map some

def asList (read : Read α) : Read (List α)
  | list items closed => do
    let values ← items.mapM read
    if closed then .ok values else .error .malformed
  | v => .error v.otherShape

/-- One of several names, as a string or as an object with null under the name. -/
def asName (names : List (String × α)) : Read α := fun v =>
  let find (s : String) := match names.lookup s with
    | some a => .ok a
    | none => .error .mismatched
  match v with
  | text s => find s
  | object [(some s, null)] true => find s
  | object ((some _, v) :: _) _ => .error v.otherShape
  | object _ _ => .error .malformed
  | v => .error v.otherShape

end Reading

/-- A field of a record that is drafted in `σ`. Where it may be missing, the draft keeps what it
starts with. -/
structure RecordField (σ : Type) where
  name : String
  read : Reading → σ → Except Fault σ
  /-- Whether an object without the field is no record. -/
  inObject : Bool
  /-- Whether a list that ends before the field is no record. -/
  inList : Bool

namespace RecordField

def required (name : String) (read : Read α) (set : α → σ → σ) : RecordField σ :=
  ⟨name, fun v s => (read v).map (set · s), true, true⟩

/-- A field that an object may leave out. -/
def optional (name : String) (read : Read α) (set : α → σ → σ) : RecordField σ :=
  ⟨name, fun v s => (read v).map (set · s), false, true⟩

def defaulted (name : String) (read : Read α) (set : α → σ → σ) : RecordField σ :=
  ⟨name, fun v s => (read v).map (set · s), false, false⟩

/-- One member: a field is read once, all other members only have to be JSON. -/
def readMember (fields : List (RecordField σ)) (state : σ × List String)
    (member : Option String × Reading) : Except Fault (σ × List String) :=
  let (draft, seen) := state
  match member with
  | (none, _) => .error .malformed
  | (some key, v) =>
    match fields.find? (·.name = key) with
    | none => if v.isIntact then .ok (draft, seen) else .error .malformed
    | some f =>
      if seen.contains key then .error .mismatched
      else (f.read v draft).map (·, key :: seen)

def readItems : List (RecordField σ) → List Reading → Bool → σ → Except Fault σ
  | [], [], true, draft => .ok draft
  | [], _, _, _ => .error .malformed
  | f :: fs, v :: vs, closed, draft => do
    let draft ← f.read v draft
    readItems fs vs closed draft
  | f :: fs, [], closed, draft =>
    if !closed then .error .malformed
    else if f.inList then .error .mismatched
    else readItems fs [] closed draft

def readRecord (fields : List (RecordField σ)) (draft : σ) : Read σ
  | .object members closed => do
    let (draft, seen) ← members.foldlM (readMember fields) (draft, [])
    if !closed then .error .malformed
    else if fields.any fun f => f.inObject && !seen.contains f.name then .error .mismatched
    else .ok draft
  | .list items closed => readItems fields items closed draft
  | v => .error v.otherShape

end RecordField

/-- The value of a whole text: nothing but blanks may follow it. -/
def decode (read : Read α) (text : String) : Except Fault α := do
  let (v, ended) := Reading.ofText text
  let a ← read v
  if ended then .ok a else .error .malformed

end Reckoner.Json
