import Reckoner.Proofs.Decimal.Reading
import Reckoner.Proofs.Formula.Acceptance

/-!
# Rendered formulas

A rendered formula has parentheses around every operator. `render_reparses` says when its text is
read as the same formula, and that it is refused otherwise.
-/

namespace Reckoner

open Reckoner.Decimal (Digits Layout Magnitude positionalText)
open Reckoner.Decimal.Binary64 (ofFloat)

namespace Formula

/-- The numbers at the leaves, from left to right. -/
def numbers : Formula → List Float
  | number x => [x]
  | binary l _ r => l.numbers ++ r.numbers

/-- The most operators on a way from the root to a leaf. -/
def depth : Formula → Nat
  | number _ => 0
  | binary l _ r => 1 + max l.depth r.depth

/-! ### Numbers -/

theorem isNumeric_of_digits {ds : List Char} (digits : Digits ds) :
    ∀ c ∈ ds, isNumeric c = true := by
  intro c member
  simp [isNumeric, digits c member]

theorem numeral_whole {ds : List Char} (digits : Digits ds) (some : ds ≠ []) :
    IsNumeral ds ∧ numeralValue ds = Float.ofScientific (Decimal.value ds) true 0 := by
  have taken : ds.takeWhile Char.isDigit = ds := List.takeWhile_eq_self_iff.mpr digits
  have dropped : ds.dropWhile Char.isDigit = [] := List.dropWhile_eq_nil_iff.mpr digits
  have found : literal? ds = Option.some (Float.ofScientific (Decimal.value ds) true 0) := by
    simp [literal?, taken, dropped, some]
  obtain ⟨numeral, value⟩ := (literal?_eq_some_iff (isNumeric_of_digits digits)).mp found
  exact ⟨numeral, value.symm⟩

theorem numeral_point (whole fraction : List Char) (digits : Digits (whole ++ fraction))
    (some : whole ++ fraction ≠ []) :
    IsNumeral (whole ++ '.' :: fraction) ∧ numeralValue (whole ++ '.' :: fraction) =
      Float.ofScientific (Decimal.value (whole ++ fraction)) true fraction.length := by
  obtain ⟨front, back⟩ := Decimal.digits_append.1 digits
  obtain ⟨taken, dropped⟩ := dropWhile_of_digits front ('.' :: fraction)
  have found : literal? (whole ++ '.' :: fraction) = Option.some
      (Float.ofScientific (Decimal.value (whole ++ fraction)) true fraction.length) := by
    have all : fraction.all Char.isDigit = true := List.all_eq_true.mpr back
    have nonempty : (whole ++ fraction).isEmpty = false := List.isEmpty_eq_false_iff.mpr some
    simp [literal?, taken, dropped, all, nonempty]
  have numeric : ∀ c ∈ whole ++ '.' :: fraction, isNumeric c = true := by
    intro c member
    rcases List.mem_append.mp member with here | there
    · exact isNumeric_of_digits front c here
    · rcases List.mem_cons.mp there with rfl | there
      · rfl
      · exact isNumeric_of_digits back c there
  obtain ⟨numeral, value⟩ := (literal?_eq_some_iff numeric).mp found
  exact ⟨numeral, value.symm⟩

/-- Digits with all places down to the point are a numeral over the power of ten of the places
behind it. -/
theorem numeral_positional {ds : List Char} (digits : Digits ds) (some : ds ≠ []) (power : Int) :
    ∃ v : Nat, IsNumeral (positionalText false ds power) ∧
      numeralValue (positionalText false ds power) = Float.ofScientific v true (-power).toNat ∧
      (v : ℚ) / 10 ^ (-power).toNat = Decimal.value ds * 10 ^ power := by
  unfold positionalText
  split
  · rename_i natural
    obtain ⟨q, rfl⟩ := Int.eq_ofNat_of_zero_le natural
    have places : (-(q : Int)).toNat = 0 := by omega
    have all : Digits (ds ++ List.replicate q '0') := by simp [digits]
    have shape := numeral_whole all (by simp [some])
    rw [places, Int.toNat_natCast]
    simp only [Bool.false_eq_true, if_false, List.append_nil]
    refine ⟨_, shape.1, shape.2, ?_⟩
    rw [Decimal.value_trailing, pow_zero, div_one, zpow_natCast]
    push_cast
    ring
  · rename_i negative
    set places := (-power).toNat with count
    set padded := List.replicate (places + 1 - ds.length) '0' ++ ds with shape
    have all : Digits padded := by simp [shape, digits]
    have long : places < padded.length := by
      rw [shape, List.length_append, List.length_replicate]
      omega
    have split : padded.take (padded.length - places) ++ padded.drop (padded.length - places) =
        padded := List.take_append_drop _ _
    have nonempty : padded ≠ [] := by
      rintro empty
      simp [empty] at long
    obtain ⟨numeral, value⟩ := numeral_point (padded.take (padded.length - places))
      (padded.drop (padded.length - places)) (split.symm ▸ all) (split.symm ▸ nonempty)
    have behind : (padded.drop (padded.length - places)).length = places := by
      rw [List.length_drop]
      omega
    rw [split, behind] at value
    refine ⟨_, numeral, value, ?_⟩
    rw [shape, Decimal.value_padding, show power = -(places : Int) by omega, zpow_neg, zpow_natCast,
      div_eq_mul_inv]

/-- The shortest digits of a float that is not below zero are a numeral, and they are read back. -/
theorem numeral_text {x : Float} {m : Magnitude} (same : ofFloat x = .finite false m) :
    IsNumeral (Layout.plain.text x) ∧ numeralValue (Layout.plain.text x) = x := by
  have fits := (Decimal.Binary64.canonical_of_ofFloat same).toFits
  have written : Layout.plain.text x = Layout.plain.magnitudeText m := by
    unfold Layout.text
    rw [same]
    rfl
  rw [written]
  unfold Layout.magnitudeText
  split
  · rename_i zero
    have digit : Digits ['0'] := by simp [Char.isDigit]
    obtain ⟨numeral, value⟩ := numeral_whole digit (List.cons_ne_nil _ _)
    refine ⟨numeral, value.trans ?_⟩
    rw [Decimal.Binary64.eq_zero_of_ofFloat same zero]
    exact Decimal.Binary64.ofScientific_zero 0
  · rename_i nonzero
    have positive := Nat.pos_of_ne_zero nonzero
    have digits : 0 < (m.shortest .up).digits := Magnitude.digits_shortest_pos positive
    have covers := Decimal.Binary64.covers_normal positive fits .up
    obtain ⟨v, numeral, value, scaled⟩ := numeral_positional (m.shortest .up).digits_normal
      (Decimal.Scaled.head_normal digits).1 (m.shortest .up).normal.2
    obtain ⟨n, factors, power⟩ := (m.shortest .up).value_normal
    have least := (Magnitude.power_shortest fits .up).1
    have some : 0 < v := by
      have nonzero : 0 < Decimal.value (m.shortest .up).normal.1 :=
        Nat.pos_of_mul_pos_left (factors ▸ digits)
      by_contra none
      obtain rfl : v = 0 := by omega
      rw [Nat.cast_zero, zero_div, eq_comm, mul_eq_zero] at scaled
      have above : (0 : ℚ) < 10 ^ (m.shortest .up).normal.2 := by positivity
      rcases scaled with zero | zero
      · exact nonzero.ne' (Nat.cast_eq_zero.1 zero)
      · exact above.ne' zero
    rw [← scaled] at covers
    exact ⟨numeral, value.trans (Decimal.Binary64.eq_of_isRounded same positive covers
      (Decimal.Binary64.isRounded_ofScientific some (by omega)))⟩

/-! ### Words of a rendered formula -/

def renderTokens : Formula → List Token
  | number x => [.number x]
  | binary l op r =>
    .leftParen :: (l.renderTokens ++ .operator op :: r.renderTokens) ++ [.rightParen]

theorem symbol?_symbol (op : Operator) : symbol? op.symbol = some (.operator op) := by
  cases op <;> rfl

/-- Numerals end at what follows them, since no digit and no dot stands there. -/
theorem splits_render {f : Formula}
    (numerals : ∀ x ∈ f.numbers, IsNumeral (Layout.plain.text x) ∧
      numeralValue (Layout.plain.text x) = x)
    {rest : List Char} {ts : List Token} (ends : ∀ c ∈ rest.head?, isNumeric c = false)
    (behind : Splits rest ts) : Splits (f.renderChars ++ rest) (f.renderTokens ++ ts) := by
  induction f generalizing rest ts with
  | number x =>
    obtain ⟨numeral, value⟩ := numerals x (by simp [numbers])
    have word := Splits.numeral numeral ends behind
    rwa [value] at word
  | binary l op r ihl ihr =>
    have close : Splits (')' :: rest) (.rightParen :: ts) := .symbol rfl behind
    have right := ihr (fun x member => numerals x (by simp [numbers, member]))
      (by simp [isNumeric, Char.isDigit]) close
    have middle : Splits (' ' :: op.symbol :: ' ' :: (r.renderChars ++ ')' :: rest))
        (.operator op :: (r.renderTokens ++ .rightParen :: ts)) :=
      .blank rfl (.symbol (symbol?_symbol op) (.blank rfl right))
    have left := ihl (fun x member => numerals x (by simp [numbers, member]))
      (by simp [isNumeric, Char.isDigit]) middle
    have whole : Splits ('(' :: _) (.leftParen :: _) := .symbol rfl left
    simpa [renderChars, renderTokens] using whole

theorem derives_term {ts : List Token} {f : Formula} (h : Derives .factor ts f) :
    Derives .term ts f :=
  .single (by decide) h

theorem derives_sum {ts : List Token} {f : Formula} (h : Derives .factor ts f) :
    Derives .sum ts f :=
  .single (by decide) (derives_term h)

/-- In parentheses a formula is one factor. -/
theorem derives_render (f : Formula) : Derives .factor f.renderTokens f := by
  induction f with
  | number x => exact .number x
  | binary l op r ihl ihr =>
    apply Derives.group
    cases kind : op.isSum with
    | true => exact .link kind (derives_sum ihl) (derives_term ihr)
    | false =>
      have product : Rank.term.joins op = true := by simp [Rank.joins, kind]
      exact .single (by decide) (.link product (derives_term ihl) ihr)

/-- As many parentheses are open at once as there are operators above each other. -/
theorem deepest_render (f : Formula) (n : Nat) : deepest n f.renderTokens = n + f.depth := by
  induction f generalizing n with
  | number x => rfl
  | binary l op r ihl ihr =>
    have left := (derives_render l).deepest_append (n + 1)
      (.operator op :: (r.renderTokens ++ [.rightParen]))
    have right := (derives_render r).deepest_append (n + 1) [.rightParen]
    simp only [renderTokens, depth, List.cons_append, List.append_assoc, deepest, ihl, ihr,
      Nat.add_sub_cancel] at left right ⊢
    omega

/-! ### Characters and numbers of a text -/

theorem Splits.chars {text : List Char} {ts : List Token} (h : Splits text ts) :
    ∀ c ∈ text, Text.isBlank c = true ∨ (symbol? c).isSome = true ∨ isNumeric c = true := by
  induction h with
  | nil => simp
  | blank blank _ ih => simpa [blank] using ih
  | symbol found _ ih => simpa [found] using ih
  | numeral numeral _ _ ih =>
    intro c member
    rcases List.mem_append.mp member with here | there
    · exact .inr (.inr (numeral.1 c here))
    · exact ih c there

theorem char_of_not_finite {x : Float} (infinite : x.isFinite = false) :
    'i' ∈ Layout.plain.text x ∨ 'N' ∈ Layout.plain.text x := by
  unfold Layout.text
  split
  · exact .inr (by decide)
  · rename_i negative _
    cases negative
    · exact .inl (by decide)
    · exact .inl (by decide)
  · rename_i same
    exact absurd same (Decimal.Binary64.ofFloat_ne_finite infinite _ _)

theorem mem_renderChars {f : Formula} {x : Float} (member : x ∈ f.numbers) {c : Char}
    (char : c ∈ Layout.plain.text x) : c ∈ f.renderChars := by
  induction f with
  | number y =>
    obtain rfl := List.mem_singleton.mp member
    exact char
  | binary l op r ihl ihr =>
    rcases List.mem_append.mp member with left | right
    · simp [renderChars, ihl left]
    · simp [renderChars, ihr right]

theorem Splits.number {text : List Char} {ts : List Token} (h : Splits text ts) {x : Float}
    (member : Token.number x ∈ ts) : ∃ v n, x = Float.ofScientific v true n := by
  induction h with
  | nil => cases member
  | blank _ _ ih => exact ih member
  | symbol found _ ih =>
    rcases List.mem_cons.mp member with rfl | member
    · rcases symbol?_cases found with rfl | rfl | rfl | rfl | rfl | rfl <;> cases found
    · exact ih member
  | numeral _ _ _ ih =>
    rcases List.mem_cons.mp member with same | member
    · cases same
      exact ⟨_, _, rfl⟩
    · exact ih member

theorem Derives.mem_tokens {rank : Rank} {ts : List Token} {f : Formula} (h : Derives rank ts f)
    {x : Float} (member : x ∈ f.numbers) : Token.number x ∈ ts := by
  induction h with
  | number y =>
    obtain rfl := List.mem_singleton.mp member
    exact List.mem_singleton_self _
  | group _ ih => simp [ih member]
  | single _ _ ih => exact ih member
  | link _ _ _ ihl ihr =>
    rcases List.mem_append.mp member with left | right
    · simp [ihl left]
    · simp [ihr right]

/-! ### Reading again -/

/-- A finite number of a formula that was read is rendered as a numeral, and is read back. -/
theorem numeral_of_parse {text : String} {f : Formula} (parsed : parse text = .ok f) {x : Float}
    (member : x ∈ f.numbers) (finite : x.isFinite = true) :
    IsNumeral (Layout.plain.text x) ∧ numeralValue (Layout.plain.text x) = x := by
  obtain ⟨ts, splits, derives, _, _⟩ := parse_eq_ok.mp parsed
  obtain ⟨v, n, rfl⟩ := splits.number (derives.mem_tokens member)
  obtain ⟨negative, m, same, _⟩ := Decimal.Binary64.ofFloat_of_isFinite finite
  cases negative with
  | true => exact absurd same (Decimal.Binary64.ofFloat_ofScientific v n m)
  | false => exact numeral_text same

theorem finite_of_splits {f : Formula} {ts : List Token} (splits : Splits f.renderChars ts) :
    ∀ x ∈ f.numbers, x.isFinite = true := by
  intro x member
  by_contra infinite
  rcases char_of_not_finite (Bool.eq_false_iff.mpr infinite) with char | char
  · exact absurd (splits.chars _ (mem_renderChars member char)) (by decide)
  · exact absurd (splits.chars _ (mem_renderChars member char)) (by decide)

theorem parse_render_eq_ok {text : String} {f g : Formula} (parsed : parse text = .ok f) :
    parse f.render = .ok g ↔
      ((∀ x ∈ f.numbers, x.isFinite = true) ∧ f.depth ≤ maxNesting) ∧ g = f := by
  have few : operatorsIn f.renderTokens ≤ maxOperators := by
    obtain ⟨ts, _, derives, few, _⟩ := parse_eq_ok.mp parsed
    rw [← (derives_render f).operatorCount_eq, derives.operatorCount_eq]
    exact few
  have words : (∀ x ∈ f.numbers, x.isFinite = true) → Splits f.renderChars f.renderTokens := by
    intro finite
    have numerals := fun x member => numeral_of_parse parsed member (finite x member)
    simpa using splits_render numerals (by simp) .nil
  have nests : nesting f.renderTokens = f.depth :=
    (deepest_render f 0).trans (Nat.zero_add _)
  have derives := derives_sum (derives_render f)
  rw [parse_eq_ok, render, String.toList_ofList]
  constructor
  · rintro ⟨us, splits, derives', few', shallow⟩
    have finite := finite_of_splits splits
    obtain rfl := splits.unique (words finite)
    exact ⟨⟨finite, nests ▸ shallow⟩, derives'.unique derives few shallow⟩
  · rintro ⟨⟨finite, shallow⟩, rfl⟩
    exact ⟨_, words finite, derives, few, nests.symm ▸ shallow⟩

theorem parse_eq_error {text : String} {e : Error} (h : parse text = .error e) :
    ∃ position detail, e = .parse position detail := by
  unfold parse at h
  cases fault : ofChars text.toList with
  | error r =>
    rw [fault] at h
    cases h
    exact ⟨_, _, rfl⟩
  | ok f =>
    rw [fault] at h
    cases h

theorem same_self {f : Formula} (finite : ∀ x ∈ f.numbers, x.isFinite = true) :
    f.same f = true := by
  induction f with
  | number x => exact Decimal.Binary64.beq_self_of_isFinite (finite x (List.mem_singleton_self x))
  | binary l op r ihl ihr =>
    have left := ihl fun x member => finite x (List.mem_append_left _ member)
    have right := ihr fun x member => finite x (List.mem_append_right _ member)
    simp [same, left, right]

/-- The text of a formula that was read is read as an equal one exactly if its numbers are finite
and no more than 256 operators stand above each other. Otherwise it is refused, and never read as
another formula. -/
theorem render_reparses {text : String} {f : Formula} (parsed : parse text = .ok f) :
    ((∃ g, parse f.render = .ok g ∧ f.same g = true) ↔
      (∀ x ∈ f.numbers, x.isFinite = true) ∧ f.depth ≤ 256) ∧
    (∀ g, parse f.render = .ok g → g = f) ∧
    (¬ ((∀ x ∈ f.numbers, x.isFinite = true) ∧ f.depth ≤ 256) →
      ∃ position detail, parse f.render = .error (.parse position detail)) := by
  refine ⟨⟨?_, ?_⟩, ?_, ?_⟩
  · rintro ⟨g, read, _⟩
    exact ((parse_render_eq_ok parsed).mp read).1
  · intro readable
    exact ⟨f, (parse_render_eq_ok parsed).mpr ⟨readable, rfl⟩, same_self readable.1⟩
  · intro g read
    exact ((parse_render_eq_ok parsed).mp read).2
  · intro unreadable
    cases read : parse f.render with
    | ok g => exact absurd ((parse_render_eq_ok parsed).mp read).1 unreadable
    | error e =>
      obtain ⟨position, detail, rfl⟩ := parse_eq_error read
      exact ⟨position, detail, rfl⟩

def sumAndProduct : Formula :=
  .binary (.number 1.5) .plus (.binary (.number 2.5) .multiply (.number 0.1))

theorem sumAndProduct_reparses :
    parse "1.5+2.5*0.1" = .ok sumAndProduct ∧
      (∀ x ∈ sumAndProduct.numbers, x.isFinite = true) ∧ sumAndProduct.depth ≤ 256 ∧
      parse sumAndProduct.render = .ok sumAndProduct := by
  have parsed : parse "1.5+2.5*0.1" = .ok sumAndProduct := rfl
  have finite : ∀ x ∈ sumAndProduct.numbers, x.isFinite = true := by decide +kernel
  have shallow : sumAndProduct.depth ≤ 256 := by decide
  obtain ⟨reads, only, _⟩ := render_reparses parsed
  obtain ⟨g, read, _⟩ := reads.mpr ⟨finite, shallow⟩
  have same := only g read
  rw [same] at read
  exact ⟨parsed, finite, shallow, read⟩

end Formula

end Reckoner
