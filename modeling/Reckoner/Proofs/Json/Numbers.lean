import Reckoner.Proofs.Decimal.Digits
import Reckoner.Proofs.Json.Marks

/-!
# Written numbers

`ofText_number` says that a number is read as it is spelt, if what follows cannot belong to it.
-/

namespace Reckoner.Json

open Reckoner.Decimal (Digits Ended)

namespace Literal

def fractionChars : Option (List Char) → List Char
  | none => []
  | some digits => '.' :: digits

def exponentChars : Option (Bool × List Char) → List Char
  | none => []
  | some (negative, digits) => 'e' :: (if negative then '-' else '+') :: digits

def chars (l : Literal) : List Char :=
  (if l.negative then ['-'] else []) ++ (l.whole ++ fractionChars l.fraction
    ++ exponentChars l.exponent)

/-- There are digits where a number needs them, and no zero before other digits. -/
structure Spelt (l : Literal) : Prop where
  whole : Digits l.whole
  nonempty : l.whole ≠ []
  leading : l.whole ≠ ['0'] → l.whole.head? ≠ some '0'
  fraction : ∀ ds ∈ l.fraction, Digits ds ∧ ds ≠ []
  exponent : ∀ e ∈ l.exponent, Digits e.2 ∧ e.2 ≠ []

end Literal

/-- The text does not go on with what a number could go on with. -/
def Delimited (rest : List Char) : Prop :=
  ∀ c ∈ rest.head?, c.isDigit = false ∧ c ≠ '.' ∧ c ≠ 'e' ∧ c ≠ 'E'

variable {rest : List Char}

theorem delimited_nil : Delimited [] := by
  intro c member
  cases member

theorem delimited_cons {c : Char}
    (h : c.isDigit = false ∧ c ≠ '.' ∧ c ≠ 'e' ∧ c ≠ 'E') : Delimited (c :: rest) := by
  intro d member
  cases member
  exact h

theorem Delimited.ended (h : Delimited rest) : Ended rest :=
  fun c member => (h c member).1

namespace Mark

open Literal

theorem readFraction_append {fraction : Option (List Char)}
    (spelt : ∀ ds ∈ fraction, Digits ds ∧ ds ≠ []) (ended : Ended rest)
    (pointless : rest.head? ≠ some '.') :
    readFraction (fractionChars fraction ++ rest) = some (fraction, rest) := by
  cases fraction with
  | none =>
    rw [fractionChars, List.nil_append, readFraction]
    rintro cs rfl
    exact pointless rfl
  | some ds =>
    obtain ⟨digits, some⟩ := spelt ds rfl
    rw [fractionChars, List.cons_append, readFraction]
    rw [Decimal.takeWhile_digits digits ended, List.drop_left, if_neg]
    simpa using some

theorem readExponent_append {exponent : Option (Bool × List Char)}
    (spelt : ∀ e ∈ exponent, Digits e.2 ∧ e.2 ≠ []) (delimited : Delimited rest) :
    readExponent (exponentChars exponent ++ rest) = some (exponent, rest) := by
  cases exponent with
  | none =>
    rw [exponentChars, List.nil_append, readExponent]
    all_goals
      rintro cs rfl
      have different := (delimited _ rfl).2.2
      simp at different
  | some e =>
    obtain ⟨negative, ds⟩ := e
    obtain ⟨digits, some⟩ := spelt _ rfl
    have read := Decimal.takeWhile_digits digits delimited.ended
    have filled : ds.isEmpty = false := by simpa using some
    cases negative <;> simp [exponentChars, readExponent, read, filled]

theorem readNumber_append {l : Literal} (spelt : l.Spelt) (delimited : Delimited rest) :
    readNumber l.negative
      (l.whole ++ (fractionChars l.fraction ++ (exponentChars l.exponent ++ rest))) =
        (number l, rest) := by
  have notDigit : Ended (exponentChars l.exponent ++ rest) ∧
      (exponentChars l.exponent ++ rest).head? ≠ some '.' := by
    cases l.exponent with
    | none => exact ⟨delimited.ended, fun point => (delimited _ point).2.1 rfl⟩
    | some e => exact ⟨Decimal.ended_cons.2 rfl, by simp [exponentChars]⟩
  have ended : Ended (fractionChars l.fraction ++ (exponentChars l.exponent ++ rest)) := by
    cases l.fraction with
    | none => exact notDigit.1
    | some ds => exact Decimal.ended_cons.2 rfl
  have front := Decimal.takeWhile_digits spelt.whole ended
  unfold readNumber
  simp only [front, List.drop_left]
  rw [readFraction_append spelt.fraction notDigit.1 notDigit.2]
  simp only [Option.bind_eq_bind, Option.bind_some, readExponent_append spelt.exponent delimited,
    Option.pure_def]
  rw [if_pos]
  -- the digits before the point are well formed
  split
  · exact absurd ‹_› spelt.nonempty
  · rename_i c cs shape
    exact absurd (by rw [shape]; rfl) (spelt.leading (by simp [shape]))
  · rfl

theorem read_digit {c : Char} (digit : c.isDigit = true) (cs : List Char) :
    read c cs = readNumber false (c :: cs) := by
  unfold read
  split
  case h_12 => rw [if_pos digit]
  all_goals cases digit

theorem not_isSpace_of_isDigit {c : Char} (digit : c.isDigit = true) : isSpace c = false := by
  simp only [isSpace, Bool.or_eq_false_iff, decide_eq_false_iff_not]
  refine ⟨⟨⟨?_, ?_⟩, ?_⟩, ?_⟩
  all_goals
    rintro rfl
    cases digit

theorem ofText_number {l : Literal} (spelt : l.Spelt) (delimited : Delimited rest) :
    ofText (l.chars ++ rest) = number l :: ofText rest := by
  have read := readNumber_append spelt delimited
  unfold Literal.chars
  simp only [List.append_assoc]
  cases sign : l.negative with
  | true =>
    rw [sign] at read
    exact ofText_cons rfl read
  | false =>
    rw [sign] at read
    obtain ⟨c, cs, shape⟩ := List.exists_cons_of_ne_nil spelt.nonempty
    have digit : c.isDigit = true := spelt.whole c (by rw [shape]; exact .head _)
    rw [shape] at read ⊢
    exact ofText_cons (not_isSpace_of_isDigit digit) ((read_digit digit _).trans read)

end Mark

/-! ### Whole numbers -/

namespace Literal

def ofInt (n : Int) : Literal :=
  ⟨decide (n < 0), Nat.toDigits 10 n.natAbs, none, none⟩

theorem spelt_ofInt (n : Int) : (ofInt n).Spelt where
  whole := Decimal.digits_toDigits _
  nonempty := Nat.toDigits_ne_nil
  leading := by
    intro other
    apply Decimal.head_toDigits
    rw [Nat.pos_iff_ne_zero]
    intro zero
    exact other (by simp [ofInt, zero, Nat.toDigits_zero])
  fraction := by
    intro ds member
    cases member
  exponent := by
    intro e member
    cases member

theorem chars_ofInt (n : Int) : (ofInt n).chars = (toString n).toList := by
  cases n with
  | ofNat n => simp [chars, ofInt, fractionChars, exponentChars, toString, Int.repr]
  | negSucc n => simp [chars, ofInt, fractionChars, exponentChars, toString, Int.repr]

theorem number_ofInt {n : Int} (low : Int64.minValue.toInt ≤ n) (high : n < UInt64.size) :
    (ofInt n).number = .whole n := by
  have least : Int64.minValue.toInt = -9223372036854775808 := rfl
  unfold number
  simp only [ofInt, Decimal.value_toDigits, isWhole, Option.isNone_none, Bool.and_self,
    Bool.not_true, Bool.false_eq_true, if_false, decide_eq_true_eq]
  split
  · rename_i negative
    rw [if_pos]
    · rw [Int.ofNat_natAbs_of_nonpos (Int.le_of_lt negative), Int.neg_neg]
    · simp only [Bool.and_eq_true, decide_eq_true_eq, least]
      omega
  · rw [if_pos (by omega)]
    congr
    omega

end Literal

end Reckoner.Json
