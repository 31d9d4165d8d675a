import Reckoner.Proofs.Json.Numbers
import Reckoner.Toml.Reading

/-!
# Written whole numbers are read back

`readValue_whole` says that a whole number in decimal is read as itself. It is none of the other
words that begin with a digit: those have a sign, a colon or a letter behind it.
-/

namespace Reckoner.Toml.Word

open Reckoner.Decimal (Digits)

variable {cs ds rest : List Char} {n : Int}

theorem ungrouped_digits (digits : Digits ds) (some : ds ≠ []) :
    ungrouped Char.isDigit ds = .some ds := by
  induction ds with
  | nil => exact absurd rfl some
  | cons c ds ih =>
    rw [Decimal.digits_cons] at digits
    cases ds with
    | nil => simp [ungrouped, digits.1]
    | cons d ds =>
      have behind := ih digits.2 (List.cons_ne_nil _ _)
      have plain : d ≠ '_' := by
        rintro rfl
        cases (Decimal.digits_cons.1 digits.2).1
      rw [ungrouped.eq_4 _ _ _ (List.cons_ne_nil _ _) (fun _ same => plain (List.cons.inj same).1),
        if_pos digits.1, behind]
      rfl

theorem decimal?_toDigits (n : Nat) : decimal? (Nat.toDigits 10 n) = some (Nat.toDigits 10 n) := by
  unfold decimal?
  rw [ungrouped_digits (Decimal.digits_toDigits n) Nat.toDigits_ne_nil]
  split
  · next zero =>
    have shape := Option.some.inj zero
    rcases Nat.eq_zero_or_pos n with rfl | positive
    · cases shape
    · exact absurd (congrArg List.head? shape) (Decimal.head_toDigits positive)
  · rfl

theorem unsigned_digits (digits : Digits ds) : unsigned ds = (false, ds) := by
  unfold unsigned
  split
  · cases (Decimal.digits_cons.1 digits).1
  · cases (Decimal.digits_cons.1 digits).1
  · rfl

/-! ### Whole numbers -/

theorem toString_int (n : Int) :
    (toString n).toList = (if n < 0 then ['-'] else []) ++ Nat.toDigits 10 n.natAbs := by
  rw [← Json.Literal.chars_ofInt]
  simp [Json.Literal.chars, Json.Literal.ofInt, Json.Literal.fractionChars,
    Json.Literal.exponentChars]

theorem tail_digits (n : Int) : Digits (toString n).toList.tail := by
  rw [toString_int]
  split
  · exact Decimal.digits_toDigits _
  · exact fun c member => Decimal.digits_toDigits _ c (List.mem_of_mem_tail member)

theorem whole?_toString (low : Int64.minValue.toInt ≤ n) (high : n ≤ Int64.maxValue.toInt) :
    whole? (toString n).toList = some n := by
  have plain : whole? (toString n).toList = (do
      let r := unsigned (toString n).toList
      let n : Int := Decimal.value (← decimal? r.2)
      let n := if r.1 then -n else n
      if Int64.minValue.toInt ≤ n ∧ n ≤ Int64.maxValue.toInt then some n else none) := by
    -- no letter stands behind a zero
    have digits := tail_digits n
    unfold whole?
    split
    all_goals first
      | rfl
      | next shape =>
        rw [shape] at digits
        cases (Decimal.digits_cons.1 digits).1
  have read : unsigned (toString n).toList = (decide (n < 0), Nat.toDigits 10 n.natAbs) := by
    rw [toString_int]
    by_cases negative : n < 0
    · rw [if_pos negative, decide_eq_true negative]
      rfl
    · rw [if_neg negative, decide_eq_false negative]
      exact unsigned_digits (Decimal.digits_toDigits _)
  have value : (if decide (n < 0) = true then -(n.natAbs : Int) else n.natAbs) = n := by
    simp only [decide_eq_true_eq]
    split <;> omega
  rw [plain, read]
  simp only [decimal?_toDigits, Option.bind_eq_bind, Option.bind_some, Decimal.value_toDigits,
    value]
  exact if_pos ⟨low, high⟩

/-! ### Other words -/

theorem isDate_digits (digits : Digits cs.tail) : isDate cs = false := by
  unfold isDate
  split
  · exact absurd (digits '-' (by simp)) (by decide)
  · rfl

theorem isTime_digits (digits : Digits cs.tail) (offset : List Char → Bool) :
    isTime offset cs = false := by
  unfold isTime
  split
  · exact absurd (digits ':' (by simp)) (by decide)
  · rfl

theorem isMoment_digits (digits : Digits cs.tail) : isMoment cs = false := by
  have first : isDate (cs.take 10) = false := by
    cases cs with
    | nil => rfl
    | cons c cs => exact isDate_digits (Digits.take digits 9)
  unfold isMoment
  rw [isDate_digits digits, isTime_digits digits, first]
  split <;> rfl

theorem isWordChar_toString {c : Char} (member : c ∈ (toString n).toList) :
    isWordChar c = true := by
  rw [toString_int, List.mem_append] at member
  rcases member with sign | digit
  · split at sign
    · rw [List.mem_singleton.1 sign]
      rfl
    · cases sign
  · simp [isWordChar, Char.isAlphanum, Decimal.digits_toDigits _ c digit]

theorem value?_toString (low : Int64.minValue.toInt ≤ n) (high : n ≤ Int64.maxValue.toInt) :
    value? (toString n).toList = some (.whole n) := by
  have digits := tail_digits n
  unfold value?
  rw [isMoment_digits digits, whole?_toString low high, if_neg, if_neg]
  · rfl
  · intro same
    rw [same] at digits
    exact absurd (digits 'a' (by decide)) (by decide)
  · intro same
    rw [same] at digits
    exact absurd (digits 'r' (by decide)) (by decide)

theorem read_toString (low : Int64.minValue.toInt ≤ n) (high : n ≤ Int64.maxValue.toInt) :
    read ((toString n).toList ++ '\n' :: rest) = some (.whole n, '\n' :: rest) := by
  have word : ((toString n).toList ++ '\n' :: rest).takeWhile isWordChar = (toString n).toList := by
    rw [List.takeWhile_append_of_pos fun c => isWordChar_toString, List.takeWhile_cons_of_neg
      (by decide), List.append_nil]
  unfold read
  simp only [word, List.drop_left, value?_toString low high]
  rfl

end Word

theorem head_toString (n : Int) (rest : List Char) :
    ∃ c cs, (toString n).toList ++ rest = c :: cs ∧ Word.isWordChar c = true := by
  cases shape : (toString n).toList with
  | nil =>
    rw [Word.toString_int] at shape
    exact absurd (List.append_eq_nil_iff.1 shape).2 Nat.toDigits_ne_nil
  | cons c cs => exact ⟨c, cs ++ rest, rfl, Word.isWordChar_toString (shape ▸ List.mem_cons_self)⟩

/-- A whole number that ends its line is read as itself, at any depth. -/
theorem readValue_whole {n : Int} (depth : Nat) (low : Int64.minValue.toInt ≤ n)
    (high : n ≤ Int64.maxValue.toInt) (rest : List Char) :
    readValue depth ((toString n).toList ++ '\n' :: rest) = some (.whole n, '\n' :: rest) := by
  rw [← Word.read_toString low high]
  obtain ⟨c, cs, shape, letter⟩ := head_toString n ('\n' :: rest)
  rw [shape]
  unfold readValue
  split
  all_goals first
    | rfl
    | next same =>
      rw [(List.cons.inj same).1] at letter
      cases letter

end Reckoner.Toml
