import Reckoner.Formula.Basic
import Reckoner.Formula.Lexer

/-!
# Reading a formula

One token at a time is shifted onto a reader that keeps, for every open parenthesis, the operators
that still wait for their right operand. Products are folded before sums and chains of one
precedence to the left. The first fault met from left to right is the one reported.
-/

namespace Reckoner.Formula

def maxOperators : Nat :=
  1000

def maxNesting : Nat :=
  256

inductive Fault where
  | lexical (f : LexicalFault)
  | empty
  | unexpectedEnd
  | unexpectedToken (t : Token)
  | unexpectedClose
  | missingClose
  | tooManyOperators
  | tooDeep

def Fault.message : Fault → String
  | lexical f => f.message
  | empty => "empty expression"
  | unexpectedEnd => "unexpected " ++ endName
  | unexpectedToken t => "unexpected token '" ++ t.text ++ "'"
  | unexpectedClose => "unbalanced parentheses: unexpected ')'"
  | missingClose => "unbalanced parentheses: missing ')'"
  | tooManyOperators => "expression has more than " ++ toString maxOperators ++ " operators"
  | tooDeep => "parentheses nest deeper than " ++ toString maxNesting ++ " levels"

structure Rejection where
  position : Nat
  fault : Fault

def Rejection.toError (r : Rejection) : Error :=
  .parse r.position r.fault.message

/-- The operators of one level of parentheses that wait for their right operand, each with its
left one. -/
structure Level where
  sum : Option (Formula × Operator)
  product : Option (Formula × Operator)

namespace Level

def start : Level :=
  ⟨none, none⟩

def attach : Option (Formula × Operator) → Formula → Formula
  | none, f => f
  | some (left, op), f => .binary left op f

/-- The operand with the product it ends. -/
def closeProduct (level : Level) (f : Formula) : Formula :=
  attach level.product f

/-- The operand with all that waits for it. -/
def close (level : Level) (f : Formula) : Formula :=
  attach level.sum (level.closeProduct f)

/-- The level behind an operator that follows the operand `f`. -/
def wait (level : Level) (f : Formula) (op : Operator) : Level :=
  if op.isSum then ⟨some (level.close f, op), none⟩
  else ⟨level.sum, some (level.closeProduct f, op)⟩

end Level

/-- The state between two tokens: the last operand if one has just ended, the innermost level, the
levels around it with the offsets of their parentheses, and the operators counted so far. -/
structure Reader where
  operand : Option Formula
  level : Level
  enclosing : List (Nat × Level)
  operators : Nat

namespace Reader

def start : Reader :=
  ⟨none, .start, [], 0⟩

/-- The complaint about a token that cannot stand where it does. -/
def unexpected (x : Lexeme) : Rejection :=
  ⟨x.start, match x.token with
    | .rightParen => .unexpectedClose
    | t => .unexpectedToken t⟩

/-- A token where an operand has to begin. -/
def beginOperand (r : Reader) (x : Lexeme) : Except Rejection Reader :=
  match x.token with
  | .number v => .ok { r with operand := some (.number v) }
  | .leftParen =>
    if r.enclosing.length < maxNesting then
      .ok { r with level := .start, enclosing := (x.start, r.level) :: r.enclosing }
    else .error ⟨x.start, .tooDeep⟩
  | _ => .error (unexpected x)

/-- A token behind the operand `f`. -/
def afterOperand (r : Reader) (f : Formula) (x : Lexeme) : Except Rejection Reader :=
  match x.token, r.enclosing with
  | .operator op, _ =>
    if r.operators < maxOperators then
      .ok { r with operand := none, level := r.level.wait f op, operators := r.operators + 1 }
    else .error ⟨x.start, .tooManyOperators⟩
  | .rightParen, (_, outer) :: rest =>
    .ok { r with operand := some (r.level.close f), level := outer, enclosing := rest }
  | _, _ => .error (unexpected x)

def shift (r : Reader) (x : Lexeme) : Except Rejection Reader :=
  match r.operand with
  | none => r.beginOperand x
  | some f => r.afterOperand f x

def finish (r : Reader) (stop : Stop) : Except Rejection Formula :=
  match stop.fault, r.operand, r.enclosing with
  | some f, _, _ => .error ⟨stop.position, .lexical f⟩
  | none, none, _ => .error ⟨stop.position, .unexpectedEnd⟩
  | none, some _, (opening, _) :: _ => .error ⟨opening, .missingClose⟩
  | none, some f, [] => .ok (r.level.close f)

end Reader

def ofLexed (lexed : Lexed) : Except Rejection Formula :=
  match lexed.lexemes, lexed.stop.fault with
  | [], none => .error ⟨lexed.stop.position, .empty⟩
  | lexemes, _ => do
    let reader ← lexemes.foldlM Reader.shift Reader.start
    reader.finish lexed.stop

def ofChars (text : List Char) : Except Rejection Formula :=
  ofLexed (.ofText text)

def parse (text : String) : Except Error Formula :=
  (ofChars text.toList).mapError Rejection.toError

end Reckoner.Formula
