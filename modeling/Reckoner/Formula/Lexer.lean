import Reckoner.Formula.Token
import Reckoner.Text.Blank

/-!
# Reading words

A cursor stands in a text and answers with the next token, the end, or a fault. A malformed number
is passed over, an unexpected character is not.
-/

namespace Reckoner.Formula

inductive LexicalFault where
  | malformedNumber (run : List Char)
  | unexpectedCharacter (c : Char)
  deriving DecidableEq, Repr

def LexicalFault.message : LexicalFault → String
  | malformedNumber run => "malformed number '" ++ String.ofList run ++ "'"
  | unexpectedCharacter c => "unexpected character '" ++ c.toString ++ "'"

inductive Answer where
  | token (t : Token)
  | finish
  | fault (f : LexicalFault)

def endName : String :=
  "end of expression"

/-- An answer and the offset of its first character. -/
structure Reading where
  start : Nat
  answer : Answer

/-- A place in a text: the number of characters before it and those behind it. -/
structure Cursor where
  position : Nat
  rest : List Char
  deriving DecidableEq, Repr

namespace Cursor

def ofText (text : List Char) : Cursor :=
  ⟨0, text⟩

def skip (c : Cursor) (n : Nat) : Cursor :=
  ⟨c.position + n, c.rest.drop n⟩

def skipBlanks (c : Cursor) : Cursor :=
  c.skip (c.rest.takeWhile Text.isBlank).length

def readNumber (c : Cursor) : Reading × Cursor :=
  let run := c.rest.takeWhile isNumeric
  let answer := match literal? run with
    | some x => .token (.number x)
    | none => .fault (.malformedNumber run)
  (⟨c.position, answer⟩, c.skip run.length)

/-- The next word, read where no blank precedes it. -/
def readWord (c : Cursor) : Reading × Cursor :=
  match c.rest with
  | [] => (⟨c.position, .finish⟩, c)
  | first :: _ =>
    if isNumeric first then c.readNumber
    else
      let single (t : Token) := (⟨c.position, .token t⟩, c.skip 1)
      match first with
      | '(' => single .leftParen
      | ')' => single .rightParen
      | first =>
        match Operator.ofSymbol? first with
        | some op => single (.operator op)
        | none => (⟨c.position, .fault (.unexpectedCharacter first)⟩, c)

def next (c : Cursor) : Reading × Cursor :=
  c.skipBlanks.readWord

def answers : Nat → Cursor → List Reading
  | 0, _ => []
  | n + 1, c => c.next.1 :: answers n c.next.2

end Cursor

structure Lexeme where
  start : Nat
  token : Token

/-- Where the tokens of a text end: behind its last character, or at the first fault. -/
structure Stop where
  position : Nat
  fault : Option LexicalFault
  deriving DecidableEq, Repr

/-- A text as its tokens and the place where they end. -/
structure Lexed where
  lexemes : List Lexeme
  stop : Stop

namespace Lexed

/-- The tokens before the first answer that is none. -/
def ofReadings (fallback : Nat) : List Reading → Lexed
  | [] => ⟨[], ⟨fallback, none⟩⟩
  | ⟨start, .token t⟩ :: rest =>
    let tail := ofReadings fallback rest
    ⟨⟨start, t⟩ :: tail.lexemes, tail.stop⟩
  | ⟨start, .finish⟩ :: _ => ⟨[], ⟨start, none⟩⟩
  | ⟨start, .fault f⟩ :: _ => ⟨[], ⟨start, some f⟩⟩

/-- Every token takes a character, so one question more than there are characters meets the end. -/
def ofText (text : List Char) : Lexed :=
  ofReadings text.length ((Cursor.ofText text).answers (text.length + 1))

end Lexed

end Reckoner.Formula
