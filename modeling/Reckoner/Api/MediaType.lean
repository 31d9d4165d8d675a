/-!
# Media types

The type that a request gives to its body, in the form `type/subtype` with an optional suffix behind
a plus sign and parameters behind semicolons.
-/

namespace Reckoner.Api

/-- In lower case. -/
structure MediaType where
  type : String
  subtype : String
  suffix : Option String
  deriving DecidableEq, Repr

namespace MediaType

def isTokenChar (c : Char) : Bool :=
  c.isAlphanum || "!#$%&'*+-.^_`|~".toList.contains c

/-- Whether parameters are well formed, within so many characters. -/
def parametersOk : Nat → List Char → Bool
  | 0, _ => false
  | _, [] => true
  | n + 1, ' ' :: cs => parametersOk n cs
  | n + 1, cs =>
    let name := cs.takeWhile isTokenChar
    match name.isEmpty, cs.drop name.length with
    | false, '=' :: '"' :: c :: rest =>
      let value := (c :: rest.takeWhile (· ≠ '"'))
      let closed := rest.dropWhile (· ≠ '"')
      value.all (fun c => 31 < c.toNat && c.toNat < 127) && !closed.isEmpty &&
        match closed.tail.dropWhile (· = ' ') with
        | [] => true
        | ';' :: cs => parametersOk n cs
        | _ => false
    | false, '=' :: rest =>
      let value := rest.takeWhile isTokenChar
      match rest.drop value.length with
      | [] => true
      | ';' :: cs => !value.isEmpty && parametersOk n cs
      | _ => false
    | _, _ => false

/-- The part of a subtype before its last plus sign, and the one behind it. -/
def splitSuffix (cs : List Char) : List Char × Option (List Char) :=
  let behind := (cs.reverse.takeWhile (· ≠ '+')).reverse
  let before := cs.take (cs.length - behind.length - 1)
  if behind.length = cs.length || before.isEmpty then (cs, none) else (before, some behind)

def read? (text : String) : Option MediaType :=
  let cs := text.toList
  let type := cs.takeWhile isTokenChar
  match type.isEmpty, cs.drop type.length with
  | false, '/' :: rest =>
    let whole := rest.takeWhile isTokenChar
    let (subtype, suffix) := splitSuffix whole
    let lower (cs : List Char) := (String.ofList cs).toLower
    let found : MediaType := ⟨lower type, lower subtype, suffix.map lower⟩
    match rest.drop whole.length with
    | [] => some found
    | ';' :: cs => if !whole.isEmpty && parametersOk (cs.length + 1) cs then some found else none
    | _ => none
  | _, _ => none

/-- JSON, or a format built on it. -/
def isJson (m : MediaType) : Bool :=
  m.type = "application" && (m.subtype = "json" || m.suffix = some "json")

end MediaType

end Reckoner.Api
