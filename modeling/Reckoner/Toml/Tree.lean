import Reckoner.Toml.Basic

/-!
# Tables in the making

A document defines its tables piece by piece: by headers, by dotted keys and by items of lists of
tables. A table that one way has finished cannot be taken up by another, and no value is given
twice.
-/

namespace Reckoner.Toml

inductive Origin where
  /-- By a header of its own, by braces, or as the document. -/
  | header
  /-- On the way to a table with a longer header. -/
  | passage
  /-- By a dotted key. -/
  | dots
  deriving DecidableEq, Repr

inductive Node where
  | value (v : Toml)
  | table (origin : Origin) (entries : List (String × Node))
  /-- A list of tables, latest first. -/
  | tables (items : List (List (String × Node)))

abbrev Entries :=
  List (String × Node)

namespace Entries

def put (key : String) (n : Node) (es : Entries) : Entries :=
  es.map fun e => if e.1 = key then (key, n) else e

def add (key : String) (n : Node) (es : Entries) : Option Entries :=
  if (es.lookup key).isNone then some (es ++ [(key, n)]) else none

/-- Changes the table at the end of a path. Missing tables on the way come to be by `origin`; a
list of tables is entered at its latest one. -/
def change (origin : Origin) (f : Origin → Entries → Option Entries) :
    List String → Origin → Entries → Option Entries
  | [], own, es => f own es
  | key :: path, _, es =>
    match es.lookup key with
    | none => do
      let inner ← change origin f path origin []
      return es ++ [(key, .table origin inner)]
    | some (.table other inner) =>
      if origin = .dots ∧ other = .header then none
      else (change origin f path other inner).map fun inner => es.put key (.table other inner)
    | some (.tables (latest :: earlier)) =>
      (change origin f path .header latest).map fun latest =>
        es.put key (.tables (latest :: earlier))
    | some _ => none

/-- Opens the table of a header, which may have come to be as a passage. -/
def openTable (key : String) (es : Entries) : Option Entries :=
  match es.lookup key with
  | none => es.add key (.table .header [])
  | some (.table .passage inner) => some (es.put key (.table .header inner))
  | some _ => none

/-- Opens the next table of a list. -/
def openItem (key : String) (es : Entries) : Option Entries :=
  match es.lookup key with
  | none => es.add key (.tables [[]])
  | some (.tables items) => some (es.put key (.tables ([] :: items)))
  | some _ => none

/-- Gives a value to a dotted key; the table that holds it has no other origin than dotted keys. -/
def assign (path : List String) (key : String) (v : Toml) (own : Origin) (es : Entries) :
    Option Entries :=
  change .dots (fun origin es =>
    if path ≠ [] ∧ origin ≠ .dots then none else es.add key (.value v)) path own es

end Entries

mutual

def Node.toToml : Node → Toml
  | .value v => v
  | .table _ es => .table (entriesToToml es)
  | .tables items => .list (itemsToToml items).reverse

def entriesToToml : List (String × Node) → List (String × Toml)
  | [] => []
  | (key, n) :: es => (key, n.toToml) :: entriesToToml es

def itemsToToml : List (List (String × Node)) → List Toml
  | [] => []
  | es :: items => .table (entriesToToml es) :: itemsToToml items

end

end Reckoner.Toml
