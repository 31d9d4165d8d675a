import Reckoner.Toml.Quoted
import Reckoner.Toml.Tree
import Reckoner.Toml.Word

/-!
# TOML documents

A document is a sequence of statements: entries and headers, one a line. Its statements are read
first and then carried out from top to bottom.
-/

namespace Reckoner.Toml

/-- Values and keys nest less deep than this. -/
def maxNesting : Nat :=
  80

def isKeyChar (c : Char) : Bool :=
  c.isAlphanum || c = '_' || c = '-'

def readKeyPart : Scan String
  | '"' :: cs => readShort '"' cs
  | '\'' :: cs => readShort '\'' cs
  | cs =>
    let word := cs.takeWhile isKeyChar
    if word.isEmpty then none else some (String.ofList word, cs.drop word.length)

/-- Parts with dots between them and blanks around them. -/
def readParts : Nat → Scan (List String)
  | 0, _ => none
  | n + 1, cs => do
    let (part, cs) ← readKeyPart (skipSpaces cs)
    match skipSpaces cs with
    | '.' :: cs => do
      let (parts, cs) ← readParts n cs
      return (part :: parts, cs)
    | cs => return ([part], cs)

/-- A key: the parts before its last one, and the last one. -/
structure Key where
  path : List String
  last : String
  deriving DecidableEq, Repr

def readKey : Scan Key := fun cs => do
  let (parts, cs) ← readParts (maxNesting - 1) cs
  return (⟨parts.dropLast, parts.getLast?.getD ""⟩, cs)

def readAssigned : Scan Key := fun cs => do
  match ← readKey cs with
  | (key, '=' :: cs) => return (key, skipSpaces cs)
  | _ => none

def skipFiller : Nat → List Char → Option (List Char)
  | 0, _ => none
  | n + 1, cs =>
    match cs.dropWhile fun c => isSpace c || c = '\n' with
    | '#' :: cs => (skipComment cs).bind (skipFiller n)
    | cs => some cs

def skipAll (cs : List Char) : Option (List Char) :=
  skipFiller (cs.length + 1) cs

/-- Items up to the closing bracket; a comma may stand behind the last one. -/
def readItems (value : Scan Toml) : Nat → Scan (List Toml)
  | 0, _ => none
  | n + 1, cs => do
    match ← skipAll cs with
    | ']' :: cs => return ([], cs)
    | cs =>
      let (v, cs) ← value cs
      match ← skipAll cs with
      | ',' :: cs => do
        let (items, cs) ← readItems value n cs
        return (v :: items, cs)
      | ']' :: cs => return ([v], cs)
      | _ => none

/-- Entries up to the closing brace, all in one line and without a comma behind the last one. -/
def readEntries (value : Scan Toml) : Nat → Entries → Scan Entries
  | 0, _, _ => none
  | n + 1, es, cs => do
    let (key, cs) ← readAssigned cs
    let (v, cs) ← value cs
    let es ← es.assign key.path key.last v .header
    match skipSpaces cs with
    | ',' :: cs => readEntries value n es cs
    | '}' :: cs => return (es, cs)
    | _ => none

/-- A value within so many levels of brackets and braces. -/
def readValue : Nat → Scan Toml
  | _, '"' :: cs => (readText '"' cs).map fun (s, cs) => (.text s, cs)
  | _, '\'' :: cs => (readText '\'' cs).map fun (s, cs) => (.text s, cs)
  | n + 1, '[' :: cs =>
    (readItems (readValue n) (cs.length + 1) cs).map fun (items, cs) => (.list items, cs)
  | n + 1, '{' :: cs =>
    match skipSpaces cs with
    | '}' :: cs => some (.table [], cs)
    | _ => (readEntries (readValue n) (cs.length + 1) [] cs).map fun (es, cs) =>
      (.table (entriesToToml es), cs)
  | _, cs => Word.read cs

/-! ### Statements -/

inductive Statement where
  | entry (key : Key) (value : Toml)
  | header (key : Key)
  | itemHeader (key : Key)

/-- The text behind the end of a line, before which a comment may stand. -/
def endLine (cs : List Char) : Option (List Char) := do
  let cs ← match skipSpaces cs with
    | '#' :: cs => skipComment cs
    | cs => some cs
  match cs with
  | [] => return []
  | '\n' :: cs => return cs
  | _ => none

def readStatement : Scan Statement
  | '[' :: '[' :: cs => do
    match ← readKey cs with
    | (key, ']' :: ']' :: cs) => return (.itemHeader key, cs)
    | _ => none
  | '[' :: cs => do
    match ← readKey cs with
    | (key, ']' :: cs) => return (.header key, cs)
    | _ => none
  | cs => do
    let (key, cs) ← readAssigned cs
    let (v, cs) ← readValue (maxNesting - 1) cs
    return (.entry key v, cs)

/-- The statements of a text; each takes a character, so the text bounds their number. -/
def readStatements : Nat → List Char → Option (List Statement)
  | 0, _ => none
  | n + 1, cs => do
    match ← skipAll cs with
    | [] => return []
    | cs =>
      let (statement, cs) ← readStatement cs
      let rest ← readStatements n (← endLine cs)
      return statement :: rest

/-! ### Documents -/

/-- A document as far as it has been carried out: its tables, and the path of the last header. -/
structure Draft where
  entries : Entries
  header : List String

def Draft.carryOut (d : Draft) : Statement → Option Draft
  | .header key => do
    let es ← d.entries.change .passage (fun _ es => es.openTable key.last) key.path .header
    return ⟨es, key.path ++ [key.last]⟩
  | .itemHeader key => do
    let es ← d.entries.change .passage (fun _ es => es.openItem key.last) key.path .header
    return ⟨es, key.path ++ [key.last]⟩
  | .entry key v => do
    let es ← d.entries.change .passage (fun own es => es.assign key.path key.last v own) d.header
      .header
    return { d with entries := es }

/-- The text without a byte order mark at its beginning. -/
def withoutMark : List Char → List Char
  | '\uFEFF' :: cs => cs
  | cs => cs

def read (text : String) : Option Toml := do
  let cs := plainLines (withoutMark text.toList)
  let statements ← readStatements (cs.length + 1) cs
  let d ← statements.foldlM Draft.carryOut ⟨[], []⟩
  return .table (entriesToToml d.entries)

end Reckoner.Toml
