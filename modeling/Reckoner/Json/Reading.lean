import Reckoner.Json.Mark

/-!
# JSON texts read as far as they go

A text is read into a tree that also holds what was read before the text stopped being JSON: a
list or an object knows whether its closing bracket was found. So whoever looks for a value meets
the first fault of the text, be it of the text or of the value.
-/

namespace Reckoner.Json

inductive Reading where
  | null
  | bool (b : Bool)
  | number (l : Literal)
  | text (s : String)
  | unpaired
  | list (items : List Reading) (closed : Bool)
  /-- Members in the order of the text; a key with half of a surrogate pair is `none`. -/
  | object (members : List (Option String × Reading)) (closed : Bool)
  /-- The text stops being JSON here. -/
  | cut

namespace Reading

/-- A list or an object whose end was not reached; parts latest first. -/
inductive Frame where
  | list (items : List Reading)
  | object (members : List (Option String × Reading))
  /-- An object behind a key. -/
  | member (members : List (Option String × Reading)) (key : Option String)

inductive Expectation where
  | value
  | firstItem
  | firstKey
  | key
  | colon
  | separator
  | nothing (result : Reading)

structure Builder where
  frames : List Frame
  expected : Expectation

namespace Builder

def start : Builder :=
  ⟨[], .value⟩

/-- A complete value at the place where one was expected. -/
def push (v : Reading) : List Frame → Builder
  | [] => ⟨[], .nothing v⟩
  | .list items :: fs => ⟨.list (v :: items) :: fs, .separator⟩
  | .object members :: fs => ⟨.object members :: fs, .nothing v⟩
  | .member members key :: fs => ⟨.object ((key, v) :: members) :: fs, .separator⟩

def beginValue (frames : List Frame) : Mark → Option Builder
  | .null => some (push .null frames)
  | .bool b => some (push (.bool b) frames)
  | .number l => some (push (.number l) frames)
  | .text s => some (push (.text s) frames)
  | .unpaired => some (push .unpaired frames)
  | .openList => some ⟨.list [] :: frames, .firstItem⟩
  | .openObject => some ⟨.object [] :: frames, .firstKey⟩
  | _ => none

def beginMember : List Frame → Mark → Option Builder
  | .object members :: fs, .text key => some ⟨.member members (some key) :: fs, .colon⟩
  | .object members :: fs, .unpaired => some ⟨.member members none :: fs, .colon⟩
  | _, _ => none

def close : List Frame → Mark → Option Builder
  | .list items :: fs, .closeList => some (push (.list items.reverse true) fs)
  | .object members :: fs, .closeObject => some (push (.object members.reverse true) fs)
  | _, _ => none

def feed (b : Builder) (m : Mark) : Option Builder :=
  match b.expected, b.frames, m with
  | .value, frames, m => beginValue frames m
  | .firstItem, frames, .closeList => close frames .closeList
  | .firstItem, frames, m => beginValue frames m
  | .firstKey, frames, .closeObject => close frames .closeObject
  | .firstKey, frames, m => beginMember frames m
  | .key, frames, m => beginMember frames m
  | .colon, frames, .colon => some ⟨frames, .value⟩
  | .colon, _, _ => none
  | .separator, .list items :: fs, .comma => some ⟨.list items :: fs, .value⟩
  | .separator, .object members :: fs, .comma => some ⟨.object members :: fs, .key⟩
  | .separator, frames, m => close frames m
  | .nothing _, _, _ => none

/-- What was read so far, around an inner value that stops. -/
def abandonInto (v : Option Reading) : List Frame → Reading
  | [] => v.getD .cut
  | .list items :: fs => abandonInto (some (.list (v.toList ++ items).reverse false)) fs
  | .object members :: fs => abandonInto (some (.object members.reverse false)) fs
  | .member members key :: fs =>
    abandonInto (some (.object ((key, v.getD .cut) :: members).reverse false)) fs

def abandon (b : Builder) : Reading :=
  abandonInto none b.frames

/-- The value at the front of the marks, and whether they end behind it. -/
def run (b : Builder) : List Mark → Reading × Bool
  | [] => match b.expected with
    | .nothing v => (v, true)
    | _ => (b.abandon, false)
  | m :: ms => match b.expected with
    | .nothing v => (v, false)
    | _ => match b.feed m with
      | some b => b.run ms
      | none => (b.abandon, false)

end Builder

/-- A text as the value at its front, and whether only blanks follow that. -/
def ofText (text : String) : Reading × Bool :=
  Builder.start.run (Mark.ofText text.toList)

mutual

/-- Whether a value that nobody looks at was read to its end. -/
def isIntact : Reading → Bool
  | cut => false
  | list items closed => closed && allIntact items
  | object members closed => closed && membersIntact members
  | _ => true

def allIntact : List Reading → Bool
  | [] => true
  | v :: vs => isIntact v && allIntact vs

def membersIntact : List (Option String × Reading) → Bool
  | [] => true
  | (_, v) :: ms => isIntact v && membersIntact ms

end

end Reading

end Reckoner.Json
