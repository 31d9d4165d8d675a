import Reckoner.Json.Mark
import Reckoner.Text.Utf8

/-!
# Addresses of requests

The path and the query of a request, with their percent escapes. In a query a plus sign stands for
a blank, and bytes that are no characters are replaced; in a path they are a fault.
-/

namespace Reckoner.Api

/-- Bytes with their percent escapes replaced; a sign without two hexadecimal digits stays. -/
def percentDecode : List UInt8 → List UInt8
  | [] => []
  | 0x25 :: a :: b :: bytes =>
    match Json.Mark.hexValue? (Char.ofNat a.toNat), Json.Mark.hexValue? (Char.ofNat b.toNat) with
    | some high, some low => UInt8.ofNat (16 * high + low) :: percentDecode bytes
    | _, _ => 0x25 :: percentDecode (a :: b :: bytes)
  | byte :: bytes => byte :: percentDecode bytes

def pathText? (cs : List Char) : Option (List Char) :=
  Text.decode? (percentDecode (Text.encode cs))

def queryText (cs : List Char) : String :=
  let blanks := cs.map fun c => if c = '+' then ' ' else c
  String.ofList (Text.decodeLossy (percentDecode (Text.encode blanks)))

def splitAt (separator : Char) : List Char → List (List Char)
  | [] => [[]]
  | c :: cs =>
    if c = separator then [] :: splitAt separator cs
    else match splitAt separator cs with
      | part :: parts => (c :: part) :: parts
      | [] => [[c]]

def queryPair (cs : List Char) : String × String :=
  let key := cs.takeWhile (· ≠ '=')
  (queryText key, queryText (cs.drop (key.length + 1)))

def queryPairs (cs : List Char) : List (String × String) :=
  ((splitAt '&' cs).filter (!·.isEmpty)).map queryPair

/-- A request target without its fragment, as its path and its query. -/
structure Target where
  path : List Char
  query : List Char
  deriving DecidableEq, Repr

def Target.ofText (text : String) : Target :=
  let cs := text.toList.takeWhile (· ≠ '#')
  let path := cs.takeWhile (· ≠ '?')
  ⟨path, cs.drop (path.length + 1)⟩

end Reckoner.Api
