import Reckoner.Instant.Text
import Reckoner.Proofs.Decimal.Digits

/-!
# Written instants are read back

`read_text` says that the text of an instant is read as that instant.
-/

namespace Reckoner.Instant

open Reckoner.Decimal (Digits Ended)

variable {rest ds : List Char} {c : Char} {n width : Nat}

/-! ### Padded numbers -/

theorem digits_padded (width n : Nat) : Digits (padded width n) := by
  simp [padded]

theorem value_padded (width n : Nat) : Decimal.value (padded width n) = n := by
  rw [padded, Decimal.value_padding, Decimal.value_toDigits]

theorem padded_ne_nil (width n : Nat) : padded width n ≠ [] := by
  simp [padded]

theorem length_padded (positive : 0 < width) (fits : n < 10 ^ width) :
    (padded width n).length = width := by
  have short := (Nat.length_toDigits_le_iff (b := 10) (by decide) positive).2 fits
  rw [padded, List.length_append, List.length_replicate]
  omega

/-! ### Parts -/

theorem not_isBlank_of_isDigit (digit : c.isDigit = true) : Text.isBlank c = false := by
  simp only [Char.isDigit, Bool.and_eq_true, decide_eq_true_eq] at digit
  have low : '0'.toNat ≤ c.toNat := digit.1
  have high : c.toNat ≤ '9'.toNat := digit.2
  have zero : '0'.toNat = 48 := rfl
  have nine : '9'.toNat = 57 := rfl
  simp only [Text.isBlank, Text.blankRanges, List.any_cons, List.any_nil, Bool.or_eq_false_iff,
    Bool.and_eq_false_iff, decide_eq_false_iff_not, and_true]
  omega

theorem skipBlanks_cons (dark : Text.isBlank c = false) : skipBlanks (c :: rest) = c :: rest := by
  simp [skipBlanks, dark]

theorem skipBlanks_digits (digits : Digits ds) (nonempty : ds ≠ []) (rest : List Char) :
    skipBlanks (ds ++ rest) = ds ++ rest := by
  obtain ⟨d, ds, rfl⟩ := List.exists_cons_of_ne_nil nonempty
  exact skipBlanks_cons (not_isBlank_of_isDigit (Decimal.digits_cons.1 digits).1)

theorem readNumber_digits (digits : Digits ds) (nonempty : ds ≠ []) (ended : Ended rest)
    (room : ds.length ≤ width) :
    readNumber width (ds ++ rest) = some (Decimal.value ds, rest) := by
  have front : ((ds ++ rest).take width).takeWhile Char.isDigit = ds := by
    rw [List.take_append, List.take_of_length_le room]
    apply Decimal.takeWhile_digits digits
    intro d member
    cases rest with
    | nil => simp at member
    | cons e rest =>
      cases left : width - ds.length with
      | zero => simp [left] at member
      | succ k =>
        rw [left] at member
        exact ended d member
  have filled : ds.isEmpty = false := by simpa using nonempty
  unfold readNumber
  simp only [front, filled, Bool.false_eq_true, if_false, List.drop_left]

theorem readPart_padded (fits : n < 100) (ended : Ended rest) :
    readPart 2 (padded 2 n ++ rest) = some (n, rest) := by
  rw [readPart, skipBlanks_digits (digits_padded 2 n) (padded_ne_nil 2 n),
    readNumber_digits (digits_padded 2 n) (padded_ne_nil 2 n) ended, value_padded]
  exact Nat.le_of_eq (length_padded (by decide) fits)

theorem readMark_cons (dark : Text.isBlank c = false) : readMark c (c :: rest) = some rest := by
  simp [readMark, skipBlanks_cons dark]

/-- Years from zero to 9999 have four digits; others have a sign, and as many as they need. -/
theorem readYear_yearText (year : Int) (ended : Ended rest) :
    readYear (yearText year ++ rest) = some (year, rest) := by
  unfold yearText
  split
  · rename_i usual
    have digits := digits_padded 4 year.toNat
    have length : (padded 4 year.toNat).length = 4 := length_padded (by decide) (by omega)
    have number := readNumber_digits digits (padded_ne_nil _ _) ended (Nat.le_of_eq length)
    rw [value_padded] at number
    have front := skipBlanks_digits digits (padded_ne_nil _ _) rest
    obtain ⟨d, ds, shape⟩ := List.exists_cons_of_ne_nil (padded_ne_nil 4 year.toNat)
    have first : d.isDigit = true := digits d (by rw [shape]; exact .head _)
    rw [shape] at front number ⊢
    unfold readYear
    rw [front]
    split
    · rename_i same
      cases same
      cases first
    · rename_i same
      cases same
      cases first
    · simp only [number, Option.map_some, Int.toNat_of_nonneg usual.1]
  · have digits := digits_padded 4 year.natAbs
    have number := readNumber_digits digits (padded_ne_nil _ _) ended
      (show _ ≤ (padded 4 year.natAbs ++ rest).length by simp)
    rw [value_padded] at number
    split
    · rename_i negative
      rw [List.cons_append, readYear, skipBlanks_cons (by decide)]
      simp only [number, Option.map_some]
      rw [Int.ofNat_natAbs_of_nonpos (Int.le_of_lt negative), Int.neg_neg]
    · rename_i positive
      rw [List.cons_append, readYear, skipBlanks_cons (by decide)]
      simp only [number, Option.map_some]
      rw [Int.natAbs_of_nonneg (Int.not_lt.1 positive)]

theorem readFraction_padded {k : Nat} (positive : 0 < k) (few : k ≤ 9) (fits : n < 10 ^ k)
    (ended : Ended rest) :
    readFraction ('.' :: padded k n ++ rest) = some (n * 10 ^ (9 - k), rest) := by
  have length := length_padded positive fits
  have digits := Decimal.takeWhile_digits (digits_padded k n) ended
  have behind : (padded k n ++ rest).drop k = rest := List.drop_left' length
  have filled : (padded k n).isEmpty = false := by simpa using padded_ne_nil k n
  have kept : (padded k n).take 9 = padded k n := List.take_of_length_le (by omega)
  rw [List.cons_append, readFraction]
  simp only [digits, filled, kept, Bool.false_eq_true, if_false, value_padded, length, Nat.pow_eq,
    behind]

/-- The digits that are left out are zeros. -/
theorem readFraction_fractionText {nanos : Nat} (fits : nanos < Duration.perSecond)
    (ended : Ended rest) (pointless : rest.head? ≠ some '.') :
    readFraction (fractionText nanos ++ rest) = some (nanos, rest) := by
  have second : Duration.perSecond = 1000000000 := rfl
  have milli : Duration.perMilli = 1000000 := rfl
  have micro : Duration.perMicro = 1000 := rfl
  rw [second] at fits
  unfold fractionText
  simp only [milli, micro]
  split
  · rename_i zero
    rw [List.nil_append, zero, readFraction]
    rintro cs rfl
    exact pointless rfl
  split
  · rename_i millis
    rw [readFraction_padded (by decide) (by decide) (by omega) ended]
    congr 2
    omega
  split
  · rename_i micros
    rw [readFraction_padded (by decide) (by decide) (by omega) ended]
    congr 2
    omega
  · rw [readFraction_padded (by decide) (by decide) (by omega) ended]
    congr 2
    omega

theorem behind?_zero (t : Instant) : t.behind? 0 = some t := by
  obtain ⟨hour, minute, _, _⟩ := t.isTime
  unfold behind?
  simp only [Int.sub_zero]
  rw [if_neg (by omega), if_neg (by omega)]
  dsimp only
  rw [show ((t.hour * 60 + t.minute : Int) % 1440).toNat / 60 = t.hour by omega,
    show ((t.hour * 60 + t.minute : Int) % 1440).toNat % 60 = t.minute by omega]
  exact ofFields?_self t

private theorem some_bind {α β : Type} (a : α) (f : α → Option β) : (some a >>= f) = f a :=
  rfl

theorem read_text (t : Instant) : Instant.read t.text = some t := by
  obtain ⟨_, _, _, monthEnd, _, dayEnd⟩ := t.isDate
  obtain ⟨hour, minute, second, nanos⟩ := t.isTime
  have days : Calendar.daysInMonth t.year t.month ≤ 31 := by
    unfold Calendar.daysInMonth
    repeat' split
    all_goals decide
  have separated (c : Char) (rest : List Char) (other : c.isDigit = false) : Ended (c :: rest) :=
    Decimal.ended_cons.2 other
  have fraction : Ended (fractionText t.nanos ++ ['Z']) := by
    unfold fractionText
    repeat' split
    all_goals exact Decimal.ended_cons.2 rfl
  have year (rest : List Char) := readYear_yearText t.year (separated '-' rest rfl)
  have month (rest : List Char) := readPart_padded (n := t.month) (by omega) (separated '-' rest rfl)
  have day (rest : List Char) := readPart_padded (n := t.day) (by omega) (separated 'T' rest rfl)
  have hour (rest : List Char) := readPart_padded (n := t.hour) (by omega) (separated ':' rest rfl)
  have minute (rest : List Char) :=
    readPart_padded (n := t.minute) (by omega) (separated ':' rest rfl)
  have second := readPart_padded (n := t.second) (by omega) fraction
  have nanos := readFraction_fractionText nanos (separated 'Z' [] rfl) (by simp)
  have dash (rest : List Char) : readMark '-' ('-' :: rest) = some rest := readMark_cons (by decide)
  have colon (rest : List Char) : readMark ':' (':' :: rest) = some rest := readMark_cons (by decide)
  have dateEnd (rest : List Char) : readDateEnd ('T' :: rest) = some rest := rfl
  have offset : readOffset (skipBlanks ['Z']) = some (0, []) := by decide
  have ended : (skipBlanks []).isEmpty = true := by decide
  have written : t.chars = yearText t.year ++ '-' :: (padded 2 t.month ++ '-' ::
      (padded 2 t.day ++ 'T' :: (padded 2 t.hour ++ ':' :: (padded 2 t.minute ++ ':' ::
        (padded 2 t.second ++ (fractionText t.nanos ++ ['Z'])))))) := by
    simp only [chars, List.append_assoc, List.cons_append]
  rw [Instant.read, text, String.toList_ofList, readChars, written, year, some_bind]
  dsimp only
  rw [dash, some_bind, month, some_bind]
  dsimp only
  rw [dash, some_bind, day, some_bind]
  dsimp only
  rw [dateEnd, some_bind, hour, some_bind]
  dsimp only
  rw [colon, some_bind, minute, some_bind]
  dsimp only
  rw [colon, some_bind, second, some_bind]
  dsimp only
  rw [nanos, some_bind]
  dsimp only
  rw [offset, some_bind]
  dsimp only
  rw [if_pos ended, ofFields?_self, some_bind, behind?_zero]

end Reckoner.Instant
