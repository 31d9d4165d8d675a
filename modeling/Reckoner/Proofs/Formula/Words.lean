import Mathlib.Data.List.TakeWhile
import Reckoner.Formula.Lexer

/-!
# The words of a text

`Splits` says how a text falls into words, without a cursor that walks through it.
`lexed_iff_splits` shows that the lexer meets no fault exactly on the texts that fall into words,
and finds these words. `Splits.unique` shows that a text falls into words in one way only.
-/

namespace Reckoner.Formula

/-! ### Numerals -/

/-- Digits with at most one dot among them. -/
def IsNumeral (run : List Char) : Prop :=
  (∀ c ∈ run, isNumeric c = true) ∧ (∃ c ∈ run, c.isDigit = true) ∧ run.count '.' ≤ 1

/-- The digits of a numeral as one whole number, over a power of ten for those behind the dot. -/
def numeralValue (run : List Char) : Float :=
  Float.ofScientific (Decimal.value (run.filter Char.isDigit)) true
    ((run.dropWhile (· ≠ '.')).length - 1)

theorem isDigit_of_isNumeric {c : Char} (h : isNumeric c = true) (other : c ≠ '.') :
    c.isDigit = true := by
  simpa [isNumeric, other] using h

/-- A run of digits and dots without a dot, or cut at its first dot. -/
theorem numeric_cases {run : List Char} (numeric : ∀ c ∈ run, isNumeric c = true) :
    (∀ c ∈ run, c.isDigit = true) ∨
      ∃ whole fraction, run = whole ++ '.' :: fraction ∧ ∀ c ∈ whole, c.isDigit = true := by
  induction run with
  | nil => left; simp
  | cons c cs ih =>
    by_cases dot : c = '.'
    · subst dot
      right
      exact ⟨[], cs, rfl, by simp⟩
    · have digit := isDigit_of_isNumeric (numeric c (by simp)) dot
      rcases ih fun d h => numeric d (List.mem_cons_of_mem _ h) with
        digits | ⟨whole, fraction, rfl, digits⟩
      · left
        intro d h
        rcases List.mem_cons.mp h with rfl | h
        · exact digit
        · exact digits d h
      · right
        refine ⟨c :: whole, fraction, rfl, ?_⟩
        intro d h
        rcases List.mem_cons.mp h with rfl | h
        · exact digit
        · exact digits d h

theorem count_dot_of_digits {cs : List Char} (digits : ∀ c ∈ cs, c.isDigit = true) :
    cs.count '.' = 0 := by
  apply List.count_eq_zero.mpr
  intro dot
  exact absurd (digits _ dot) (by decide)

theorem dropWhile_of_digits {whole : List Char} (digits : ∀ c ∈ whole, c.isDigit = true)
    (rest : List Char) :
    (whole ++ rest).takeWhile Char.isDigit = whole ++ rest.takeWhile Char.isDigit ∧
      (whole ++ rest).dropWhile Char.isDigit = rest.dropWhile Char.isDigit :=
  ⟨List.takeWhile_append_of_pos digits, List.dropWhile_append_of_pos digits⟩

theorem digits_of_count_dot {cs : List Char} (numeric : ∀ c ∈ cs, isNumeric c = true)
    (none : cs.count '.' = 0) : ∀ c ∈ cs, c.isDigit = true := by
  intro c member
  apply isDigit_of_isNumeric (numeric c member)
  rintro rfl
  exact List.count_eq_zero.mp none member

theorem dropWhile_ne_dot {whole : List Char} (digits : ∀ c ∈ whole, c.isDigit = true)
    (rest : List Char) : (whole ++ rest).dropWhile (· ≠ '.') = rest.dropWhile (· ≠ '.') := by
  refine List.dropWhile_append_of_pos fun c member => ?_
  have digit := digits c member
  simp only [ne_eq, decide_eq_true_eq]
  rintro rfl
  exact absurd digit (by decide)

theorem literal?_digits {run : List Char} (digits : ∀ c ∈ run, c.isDigit = true) {x : Float} :
    literal? run = some x ↔ run ≠ [] ∧ x = numeralValue run := by
  have taken : run.takeWhile Char.isDigit = run := List.takeWhile_eq_self_iff.mpr digits
  have dropped : run.dropWhile Char.isDigit = [] := List.dropWhile_eq_nil_iff.mpr digits
  have noDot : run.dropWhile (· ≠ '.') = [] := by
    simpa using dropWhile_ne_dot digits []
  have filtered : run.filter Char.isDigit = run := List.filter_eq_self.mpr digits
  simp only [literal?, taken, dropped, numeralValue, noDot, filtered, List.length_nil, Nat.zero_sub]
  cases run with
  | nil => simp
  | cons c cs =>
    simp only [List.isEmpty_cons, Bool.false_eq_true, ↓reduceIte, Option.some.injEq, ne_eq,
      reduceCtorEq, not_false_eq_true, true_and]
    exact eq_comm

theorem literal?_dot {whole fraction : List Char} (digits : ∀ c ∈ whole, c.isDigit = true)
    {x : Float} : literal? (whole ++ '.' :: fraction) = some x ↔
      (∀ c ∈ fraction, c.isDigit = true) ∧ whole ++ fraction ≠ [] ∧
        x = numeralValue (whole ++ '.' :: fraction) := by
  obtain ⟨taken, dropped⟩ := dropWhile_of_digits digits ('.' :: fraction)
  have behind : (whole ++ '.' :: fraction).dropWhile (· ≠ '.') = '.' :: fraction := by
    rw [dropWhile_ne_dot digits]
    simp
  have stop : ('.' :: fraction).dropWhile Char.isDigit = '.' :: fraction := by
    rw [List.dropWhile_cons_of_neg (by decide)]
  have none : ('.' :: fraction).takeWhile Char.isDigit = [] := by
    rw [List.takeWhile_cons_of_neg (by decide)]
  simp only [literal?, taken, dropped, stop, none, List.append_nil]
  by_cases all : ∀ c ∈ fraction, c.isDigit = true
  · have filtered : (whole ++ '.' :: fraction).filter Char.isDigit = whole ++ fraction := by
      rw [List.filter_append, List.filter_cons_of_neg (by decide), List.filter_eq_self.mpr digits,
        List.filter_eq_self.mpr all]
    simp only [numeralValue, behind, filtered, List.all_eq_true.mpr all, List.length_cons,
      Nat.add_sub_cancel, Bool.true_and]
    by_cases some : whole ++ fraction = []
    · simp [some]
    · rw [List.isEmpty_eq_false_iff.mpr some]
      simp only [Bool.not_false, ↓reduceIte, Option.some.injEq]
      exact ⟨fun same => ⟨all, some, same.symm⟩, fun h => h.2.2.symm⟩
  · have some : fraction.all Char.isDigit = false := by
      rwa [Bool.eq_false_iff, ne_eq, List.all_eq_true]
    simp only [some, Bool.false_and, Bool.false_eq_true, ↓reduceIte, reduceCtorEq, false_iff]
    exact fun h => all h.1

theorem literal?_eq_some_iff {run : List Char} (numeric : ∀ c ∈ run, isNumeric c = true)
    {x : Float} : literal? run = some x ↔ IsNumeral run ∧ x = numeralValue run := by
  rcases numeric_cases numeric with digits | ⟨whole, fraction, rfl, digits⟩
  · rw [literal?_digits digits, IsNumeral, count_dot_of_digits digits]
    refine and_congr_left fun _ => ⟨fun some => ?_, ?_⟩
    · obtain ⟨d, member⟩ := List.exists_mem_of_ne_nil _ some
      exact ⟨numeric, ⟨d, member, digits d member⟩, Nat.zero_le 1⟩
    · rintro ⟨_, ⟨d, member, _⟩, _⟩
      exact List.ne_nil_of_mem member
  · have numericFraction : ∀ c ∈ fraction, isNumeric c = true :=
      fun c h => numeric c (by simp [h])
    rw [literal?_dot digits, ← and_assoc, IsNumeral, List.count_append,
      count_dot_of_digits digits, List.count_cons_self]
    refine and_congr_left fun _ => ⟨?_, ?_⟩
    · rintro ⟨digits', some⟩
      obtain ⟨d, member⟩ := List.exists_mem_of_ne_nil _ some
      rw [count_dot_of_digits digits']
      refine ⟨numeric, ⟨d, ?_, ?_⟩, Nat.le_refl 1⟩
      · rcases List.mem_append.mp member with h | h <;> simp [h]
      · exact (List.mem_append.mp member).elim (digits d) (digits' d)
    · rintro ⟨_, ⟨d, member, digit⟩, few⟩
      refine ⟨digits_of_count_dot numericFraction (by omega), fun empty => ?_⟩
      obtain ⟨rfl, rfl⟩ := List.append_eq_nil_iff.mp empty
      rw [List.nil_append, List.mem_singleton] at member
      rw [member] at digit
      exact absurd digit (by decide)

/-! ### Splitting -/

def symbol? (c : Char) : Option Token :=
  if c = '(' then some .leftParen
  else if c = ')' then some .rightParen
  else (Operator.ofSymbol? c).map .operator

/-- How a text falls into words: blanks may stand before and behind each of them, and a numeral
goes on as long as there are digits and dots. -/
inductive Splits : List Char → List Token → Prop
  | nil : Splits [] []
  | blank {c : Char} {cs : List Char} {ts : List Token} :
      Text.isBlank c = true → Splits cs ts → Splits (c :: cs) ts
  | symbol {c : Char} {t : Token} {cs : List Char} {ts : List Token} :
      symbol? c = some t → Splits cs ts → Splits (c :: cs) (t :: ts)
  | numeral {run cs : List Char} {ts : List Token} :
      IsNumeral run → (∀ c ∈ cs.head?, isNumeric c = false) → Splits cs ts →
      Splits (run ++ cs) (.number (numeralValue run) :: ts)

theorem isBlank_of_isNumeric {c : Char} (h : isNumeric c = true) : Text.isBlank c = false := by
  simp only [isNumeric, Char.isDigit, Bool.or_eq_true, Bool.and_eq_true, decide_eq_true_eq,
    UInt32.le_iff_toNat_le] at h
  have bounds : 46 ≤ c.toNat ∧ c.toNat ≤ 57 := by
    rcases h with ⟨low, high⟩ | rfl
    · exact ⟨Nat.le_trans (by decide) low, high⟩
    · decide
  simp only [Text.isBlank, Text.blankRanges, List.any_cons, List.any_nil, Bool.or_false,
    Bool.or_eq_false_iff, Bool.and_eq_false_iff, decide_eq_false_iff_not]
  omega

theorem symbol?_cases {c : Char} {t : Token} (h : symbol? c = some t) :
    c = '(' ∨ c = ')' ∨ c = '+' ∨ c = '-' ∨ c = '*' ∨ c = '/' := by
  unfold symbol? at h
  split at h
  · simp [*]
  · split at h
    · simp [*]
    · obtain ⟨op, found, _⟩ := Option.map_eq_some_iff.mp h
      rw [← Operator.symbol_of_ofSymbol? found]
      cases op <;> simp [Operator.symbol]

theorem isNumeric_of_symbol? {c : Char} {t : Token} (h : symbol? c = some t) :
    isNumeric c = false := by
  rcases symbol?_cases h with rfl | rfl | rfl | rfl | rfl | rfl <;> decide

theorem isBlank_of_symbol? {c : Char} {t : Token} (h : symbol? c = some t) :
    Text.isBlank c = false := by
  rcases symbol?_cases h with rfl | rfl | rfl | rfl | rfl | rfl <;> decide

theorem IsNumeral.exists_cons {run : List Char} (h : IsNumeral run) :
    ∃ c cs, run = c :: cs ∧ isNumeric c = true := by
  cases run with
  | nil => obtain ⟨_, ⟨_, none, _⟩, _⟩ := h; cases none
  | cons c cs => exact ⟨c, cs, rfl, h.1 c (by simp)⟩

theorem Splits.length_le {text : List Char} {ts : List Token} (h : Splits text ts) :
    ts.length ≤ text.length := by
  induction h with
  | nil => exact Nat.le_refl 0
  | blank _ _ ih => exact Nat.le_succ_of_le ih
  | symbol _ _ ih => exact Nat.succ_le_succ ih
  | numeral numeral _ _ ih =>
    obtain ⟨c, cs, rfl, _⟩ := numeral.exists_cons
    simp only [List.length_append, List.length_cons]
    omega

theorem splits_nil {ts : List Token} : Splits [] ts ↔ ts = [] := by
  constructor
  · intro h
    generalize same : [] = text at h
    cases h with
    | nil => rfl
    | numeral numeral _ _ =>
      obtain ⟨c, cs, rfl, _⟩ := numeral.exists_cons
      cases same
    | _ => cases same
  · rintro rfl
    exact .nil

/-- What a text begins with decides how it splits. -/
theorem splits_cons {c : Char} {cs : List Char} {ts : List Token} (h : Splits (c :: cs) ts) :
    (Text.isBlank c = true ∧ Splits cs ts) ∨
    (∃ t us, symbol? c = some t ∧ ts = t :: us ∧ Splits cs us) ∨
    (isNumeric c = true ∧ ∃ run rest us, c :: cs = run ++ rest ∧ IsNumeral run ∧
      (∀ d ∈ rest.head?, isNumeric d = false) ∧ ts = .number (numeralValue run) :: us ∧
      Splits rest us) := by
  generalize same : c :: cs = text at h
  cases h with
  | nil => cases same
  | blank blank rest => cases same; exact .inl ⟨blank, rest⟩
  | symbol found rest => cases same; exact .inr (.inl ⟨_, _, found, rfl, rest⟩)
  | numeral numeral ends rest =>
    obtain ⟨d, ds, rfl, numeric⟩ := numeral.exists_cons
    cases same
    exact .inr (.inr ⟨numeric, _, _, _, rfl, numeral, ends, rfl, rest⟩)

theorem splits_blank {c : Char} {cs : List Char} {ts : List Token}
    (blank : Text.isBlank c = true) : Splits (c :: cs) ts ↔ Splits cs ts := by
  constructor
  · intro h
    rcases splits_cons h with ⟨_, rest⟩ | ⟨t, us, found, _⟩ | ⟨numeric, _⟩
    · exact rest
    · simp [isBlank_of_symbol? found] at blank
    · simp [isBlank_of_isNumeric numeric] at blank
  · exact .blank blank

theorem splits_symbol {c : Char} {t : Token} {cs : List Char} {ts : List Token}
    (found : symbol? c = some t) :
    Splits (c :: cs) ts ↔ ∃ us, ts = t :: us ∧ Splits cs us := by
  constructor
  · intro h
    rcases splits_cons h with ⟨blank, _⟩ | ⟨t', us, found', same, rest⟩ | ⟨numeric, _⟩
    · simp [isBlank_of_symbol? found] at blank
    · obtain rfl := Option.some.inj (found.symm.trans found')
      exact ⟨us, same, rest⟩
    · simp [isNumeric_of_symbol? found] at numeric
  · rintro ⟨us, rfl, rest⟩
    exact .symbol found rest

theorem not_head_dropWhile (p : Char → Bool) (cs : List Char) :
    ∀ c ∈ (cs.dropWhile p).head?, p c = false := by
  intro c member
  have stop := List.head?_dropWhile_not p cs
  rw [Option.mem_def] at member
  rw [member] at stop
  exact stop

theorem drop_takeWhile (p : Char → Bool) (cs : List Char) :
    cs.drop (cs.takeWhile p).length = cs.dropWhile p := by
  induction cs with
  | nil => rfl
  | cons c cs ih =>
    by_cases h : p c = true
    · simp [h, ih]
    · simp [h]

theorem takeWhile_maximal {p : Char → Bool} {run rest : List Char}
    (inside : ∀ c ∈ run, p c = true) (ends : ∀ c ∈ rest.head?, p c = false) :
    (run ++ rest).takeWhile p = run ∧ (run ++ rest).dropWhile p = rest := by
  rw [List.takeWhile_append_of_pos inside, List.dropWhile_append_of_pos inside]
  cases rest with
  | nil => simp
  | cons d ds =>
    have stop := ends d (by simp)
    simp [stop]

theorem splits_numeral {c : Char} {cs : List Char} {ts : List Token} (numeric : isNumeric c = true) :
    Splits (c :: cs) ts ↔ IsNumeral ((c :: cs).takeWhile isNumeric) ∧
      ∃ us, ts = .number (numeralValue ((c :: cs).takeWhile isNumeric)) :: us ∧
        Splits ((c :: cs).dropWhile isNumeric) us := by
  constructor
  · intro h
    rcases splits_cons h with
      ⟨blank, _⟩ | ⟨_, _, found, _⟩ | ⟨_, run, rest, us, same, numeral, ends, rfl, tail⟩
    · simp [isBlank_of_isNumeric numeric] at blank
    · simp [isNumeric_of_symbol? found] at numeric
    · obtain ⟨taken, dropped⟩ := takeWhile_maximal numeral.1 ends
      rw [same, taken, dropped]
      exact ⟨numeral, us, rfl, tail⟩
  · rintro ⟨numeral, us, rfl, rest⟩
    have joined := Splits.numeral numeral (not_head_dropWhile _ _) rest
    rwa [List.takeWhile_append_dropWhile] at joined

theorem splits_dropWhile {cs : List Char} {ts : List Token} :
    Splits (cs.dropWhile Text.isBlank) ts ↔ Splits cs ts := by
  induction cs with
  | nil => rfl
  | cons c cs ih =>
    by_cases blank : Text.isBlank c = true
    · rw [List.dropWhile_cons_of_pos blank, ih, splits_blank blank]
    · rw [List.dropWhile_cons_of_neg blank]

/-- Nothing that is neither a blank nor a part of a word stands in a text that splits. -/
theorem not_splits_other {c : Char} {cs : List Char} {ts : List Token}
    (blank : Text.isBlank c = false) (found : symbol? c = none) (numeric : isNumeric c = false) :
    ¬ Splits (c :: cs) ts := by
  intro h
  rcases splits_cons h with ⟨h, _⟩ | ⟨t, us, h, _⟩ | ⟨h, _⟩ <;> simp_all

/-! ### Lexing -/

namespace Cursor

@[simp] theorem rest_skip (c : Cursor) (n : Nat) : (c.skip n).rest = c.rest.drop n := rfl

theorem rest_skipBlanks (c : Cursor) : c.skipBlanks.rest = c.rest.dropWhile Text.isBlank :=
  drop_takeWhile _ _

theorem readWord_nil {c : Cursor} (h : c.rest = []) :
    c.readWord = (⟨c.position, .finish⟩, c) := by
  simp [readWord, h]

theorem readWord_numeric {c : Cursor} {first : Char} {cs : List Char} (h : c.rest = first :: cs)
    (numeric : isNumeric first = true) : c.readWord = c.readNumber := by
  simp [readWord, h, numeric]

/-- A first character that begins no number is a word by itself or a fault. -/
theorem readWord_single {c : Cursor} {first : Char} {cs : List Char} (h : c.rest = first :: cs)
    (numeric : isNumeric first = false) :
    c.readWord = match symbol? first with
      | some t => (⟨c.position, .token t⟩, c.skip 1)
      | none => (⟨c.position, .fault (.unexpectedCharacter first)⟩, c) := by
  unfold readWord symbol?
  rw [h]
  simp only [numeric, Bool.false_eq_true, ↓reduceIte]
  by_cases opening : first = '('
  · subst opening; rfl
  by_cases closing : first = ')'
  · subst closing; rfl
  simp only [opening, closing, ↓reduceIte]
  cases Operator.ofSymbol? first <;> rfl

end Cursor

/-- No fault was met, and these are the words. -/
def Lexed.Words (lexed : Lexed) (ts : List Token) : Prop :=
  lexed.stop.fault = none ∧ lexed.lexemes.map Lexeme.token = ts

theorem words_token {fallback start : Nat} {t : Token} {rest : List Reading} {ts : List Token} :
    (Lexed.ofReadings fallback (⟨start, .token t⟩ :: rest)).Words ts ↔
      ∃ us, ts = t :: us ∧ (Lexed.ofReadings fallback rest).Words us := by
  simp only [Lexed.ofReadings, Lexed.Words, List.map_cons]
  constructor
  · rintro ⟨none, rfl⟩
    exact ⟨_, rfl, none, rfl⟩
  · rintro ⟨us, rfl, none, rfl⟩
    exact ⟨none, rfl⟩

theorem not_words_fault {fallback start : Nat} {f : LexicalFault} {rest : List Reading}
    {ts : List Token} : ¬ (Lexed.ofReadings fallback (⟨start, .fault f⟩ :: rest)).Words ts := by
  rintro ⟨none, _⟩
  cases none

theorem words_iff_splits (fallback : Nat) {n : Nat} {c : Cursor} (enough : c.rest.length < n)
    {ts : List Token} :
    (Lexed.ofReadings fallback (c.answers n)).Words ts ↔ Splits c.rest ts := by
  induction n generalizing c ts with
  | zero => omega
  | succ n ih =>
    have shorter := (List.dropWhile_sublist Text.isBlank (l := c.rest)).length_le
    have stops := not_head_dropWhile Text.isBlank c.rest
    rw [← splits_dropWhile, Cursor.answers, Cursor.next]
    rw [← Cursor.rest_skipBlanks] at *
    generalize c.skipBlanks = d at *
    cases split : d.rest with
    | nil =>
      rw [Cursor.readWord_nil split, splits_nil]
      simp [Lexed.ofReadings, Lexed.Words, eq_comm]
    | cons first cs =>
      rw [split, List.length_cons] at shorter
      by_cases numeric : isNumeric first = true
      · have some : 0 < ((first :: cs).takeWhile isNumeric).length := by simp [numeric]
        have inside : ∀ e ∈ (first :: cs).takeWhile isNumeric, isNumeric e = true :=
          fun e member => List.all_eq_true.mp (List.all_takeWhile (l := first :: cs)) e member
        rw [Cursor.readWord_numeric split numeric, Cursor.readNumber, splits_numeral numeric, split]
        cases value : literal? ((first :: cs).takeWhile isNumeric) with
        | none =>
          have malformed : ¬ IsNumeral ((first :: cs).takeWhile isNumeric) := by
            intro numeral
            have := (literal?_eq_some_iff inside).mpr ⟨numeral, rfl⟩
            simp [value] at this
          simp only [malformed, false_and, iff_false]
          exact not_words_fault
        | some x =>
          obtain ⟨numeral, rfl⟩ := (literal?_eq_some_iff inside).mp value
          have fewer : (d.skip ((first :: cs).takeWhile isNumeric).length).rest.length < n := by
            rw [Cursor.rest_skip, List.length_drop, split, List.length_cons]
            omega
          rw [words_token]
          simp only [ih fewer, Cursor.rest_skip, split, drop_takeWhile, numeral, true_and]
      · have other := Bool.eq_false_iff.mpr numeric
        rw [Cursor.readWord_single split other]
        cases found : symbol? first with
        | none =>
          simp only [not_splits_other (stops first (by simp [split])) found other, iff_false]
          exact not_words_fault
        | some t =>
          have fewer : (d.skip 1).rest.length < n := by
            rw [Cursor.rest_skip, List.length_drop, split, List.length_cons]
            omega
          rw [words_token, splits_symbol found]
          simp only [ih fewer, Cursor.rest_skip, split, List.drop_one, List.tail_cons]

/-- The lexer meets no fault exactly on the texts that split into words, and finds these words. -/
theorem lexed_iff_splits {text : List Char} {ts : List Token} :
    (Lexed.ofText text).Words ts ↔ Splits text ts :=
  words_iff_splits text.length (Nat.lt_succ_self _)

theorem Splits.unique {text : List Char} {ts us : List Token} (first : Splits text ts)
    (second : Splits text us) : ts = us :=
  (lexed_iff_splits.mpr first).2.symm.trans (lexed_iff_splits.mpr second).2

end Reckoner.Formula
