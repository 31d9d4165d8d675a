import Reckoner.Proofs.Decimal.Binary64
import Reckoner.Proofs.Json.Numbers

/-!
# Written floats

The shortest digits of a float, laid out as a number of JSON, and the float that a reader makes of
them again. `magnitude?_spelling` says that it multiplies or divides the digits, taken as a float, by
one power of ten.
-/

namespace Reckoner.Json

open Reckoner.Decimal (Digits Magnitude)

namespace Literal

/-! ### Digits that count -/

theorem take_eq {start : Nat} {ds : List Char}
    (fits : Decimal.valueAfter start ds < UInt64.size) :
    Significand.take start ds = ⟨Decimal.valueAfter start ds, 0⟩ := by
  induction ds generalizing start with
  | nil => rfl
  | cons c cs ih =>
    have grows : 10 * start + Decimal.digitValue c ≤
        Decimal.valueAfter (10 * start + Decimal.digitValue c) cs := by
      rw [Decimal.valueAfter_eq]
      have : 10 * start + Decimal.digitValue c ≤
          10 ^ cs.length * (10 * start + Decimal.digitValue c) :=
        Nat.le_mul_of_pos_left _ (by positivity)
      omega
    have same : Decimal.valueAfter start (c :: cs) =
        Decimal.valueAfter (10 * start + Decimal.digitValue c) cs := rfl
    rw [same] at fits ⊢
    unfold Significand.take
    dsimp only
    rw [if_pos (by omega), ih fits]

theorem decimal_eq {l : Literal} {ds : List Char} (fraction : l.fraction = some ds)
    (fits : Decimal.value (l.whole ++ ds) < UInt64.size) :
    l.decimal = (Decimal.value (l.whole ++ ds), -(ds.length : Int)) := by
  have grows : Decimal.value l.whole ≤ Decimal.value (l.whole ++ ds) := by
    rw [Decimal.value_append]
    have : Decimal.value l.whole ≤ 10 ^ ds.length * Decimal.value l.whole :=
      Nat.le_mul_of_pos_left _ (by positivity)
    omega
  have front := take_eq (show Decimal.valueAfter 0 l.whole < _ from by
    change Decimal.value l.whole < _
    omega)
  have back : Decimal.valueAfter (Decimal.valueAfter 0 l.whole) ds =
      Decimal.value (l.whole ++ ds) := (Decimal.valueAfter_append 0 l.whole ds).symm
  have all := take_eq (show Decimal.valueAfter (Decimal.valueAfter 0 l.whole) ds < _ from by
    rw [back]
    exact fits)
  unfold decimal
  simp only [fraction, front, all, back]
  congr 1
  omega

theorem decimal_whole {l : Literal} (fraction : l.fraction = none)
    (fits : Decimal.value l.whole < UInt64.size) : l.decimal = (Decimal.value l.whole, 0) := by
  have front : Significand.take 0 l.whole = ⟨Decimal.value l.whole, 0⟩ := take_eq fits
  unfold decimal
  simp only [fraction, front]
  rfl

/-! ### Layouts -/

variable {ds : List Char} {power exponent : Int}

/-- Digits with all places down to the point, and at least one behind it. -/
def positional (ds : List Char) (power : Int) : Literal :=
  if 0 ≤ power then ⟨false, ds ++ List.replicate power.toNat '0', some ['0'], none⟩
  else
    let places := (-power).toNat
    let padded := List.replicate (places + 1 - ds.length) '0' ++ ds
    ⟨false, padded.take (padded.length - places), some (padded.drop (padded.length - places)), none⟩

/-- One digit, the others behind the point, and an exponent. -/
def scientific (ds : List Char) (exponent : Int) : Literal :=
  ⟨false, ds.take 1, if ds.length ≤ 1 then none else some (ds.drop 1),
    some (decide (exponent < 0), Nat.toDigits 10 exponent.natAbs)⟩

theorem chars_positional (ds : List Char) (power : Int) :
    (positional ds power).chars = Decimal.positionalText true ds power := by
  unfold positional Decimal.positionalText
  split
  · simp [chars, fractionChars, exponentChars]
  · simp [chars, fractionChars, exponentChars]

theorem chars_scientific (ds : List Char) (exponent : Int) :
    (scientific ds exponent).chars = Decimal.scientificText ds exponent := by
  unfold scientific Decimal.scientificText chars exponentChars
  rcases ds with - | ⟨c, - | ⟨d, ds⟩⟩ <;> simp [fractionChars]

theorem spelt_positional (digits : Digits ds) (nonempty : ds ≠ [])
    (leading : ds ++ List.replicate power.toNat '0' ≠ ['0'] → ds.head? ≠ some '0') :
    (positional ds power).Spelt := by
  have long : 0 < ds.length := List.length_pos_iff.2 nonempty
  unfold positional
  split
  · refine ⟨by simp [digits], by simp [nonempty], ?_, ?_, fun e member => nomatch member⟩
    · intro other
      obtain ⟨c, cs, rfl⟩ := List.exists_cons_of_ne_nil nonempty
      exact leading other
    · intro fraction member
      cases member
      exact ⟨by simp [Char.isDigit], List.cons_ne_nil _ _⟩
  · rename_i small
    dsimp only
    set places := (-power).toNat
    have padded : Digits (List.replicate (places + 1 - ds.length) '0' ++ ds) := by simp [digits]
    have length : (List.replicate (places + 1 - ds.length) '0' ++ ds).length =
        places + 1 - ds.length + ds.length := by simp
    refine ⟨padded.take _, ?_, ?_, ?_, fun e member => nomatch member⟩
    · rw [ne_eq, List.take_eq_nil_iff, not_or]
      exact ⟨by omega, by simp [nonempty]⟩
    · -- a number below one has a single zero before the point
      intro other
      by_cases short : ds.length ≤ places
      · exfalso
        apply other
        rw [length, show places + 1 - ds.length + ds.length - places = 1 by omega,
          show places + 1 - ds.length = places - ds.length + 1 by omega, List.replicate_succ]
        rfl
      · have none : places + 1 - ds.length = 0 := by omega
        rw [none, List.replicate_zero, List.nil_append, List.head?_take, if_neg (by omega)]
        apply leading
        rintro single
        have lengths := congrArg List.length single
        rw [List.length_append, List.length_replicate, List.length_singleton] at lengths
        omega
    · intro fraction member
      cases member
      refine ⟨padded.drop _, ?_⟩
      rw [ne_eq, List.drop_eq_nil_iff]
      omega

theorem spelt_scientific (digits : Digits ds) (nonempty : ds ≠ [])
    (leading : ds ≠ ['0'] → ds.head? ≠ some '0') : (scientific ds exponent).Spelt := by
  obtain ⟨c, cs, rfl⟩ := List.exists_cons_of_ne_nil nonempty
  refine ⟨digits.take 1, List.cons_ne_nil _ _, ?_, ?_, ?_⟩
  · intro other
    apply leading
    rintro same
    exact other (congrArg (List.take 1) same)
  · intro fraction member
    unfold scientific at member
    dsimp only at member
    split at member
    · cases member
    · rename_i long
      cases member
      refine ⟨digits.drop 1, ?_⟩
      rw [ne_eq, List.drop_eq_nil_iff]
      exact long
  · intro e member
    cases member
    exact ⟨Decimal.digits_toDigits _, Nat.toDigits_ne_nil⟩

/-- A zero behind the point counts as a digit. -/
theorem decimal_positional (fits : 10 ^ (power + 1).toNat * Decimal.value ds < UInt64.size) :
    (positional ds power).decimal =
      if 0 ≤ power then (10 ^ (power + 1).toNat * Decimal.value ds, -1)
      else (Decimal.value ds, power) := by
  unfold positional
  split
  · have value : Decimal.value (ds ++ List.replicate power.toNat '0' ++ ['0']) =
        10 ^ (power + 1).toNat * Decimal.value ds := by
      rw [List.append_assoc, show ['0'] = List.replicate 1 '0' from rfl,
        List.replicate_append_replicate,
        Decimal.value_trailing]
      congr 2
      omega
    rw [decimal_eq rfl (by rw [value]; exact fits), value]
    rfl
  · rename_i small
    have whole : (power + 1).toNat = 0 := by omega
    rw [whole, pow_zero, Nat.one_mul] at fits
    rw [decimal_eq rfl]
    · simp only [List.take_append_drop, Decimal.value_padding, List.length_drop,
        List.length_append, List.length_replicate]
      congr 1
      omega
    · rw [List.take_append_drop, Decimal.value_padding]
      exact fits

theorem decimal_scientific (nonempty : ds ≠ []) (fits : Decimal.value ds < UInt64.size) :
    (scientific ds exponent).decimal = (Decimal.value ds, 1 - (ds.length : Int)) := by
  have long : 0 < ds.length := List.length_pos_iff.2 nonempty
  by_cases short : ds.length ≤ 1
  · have whole : ds.take 1 = ds := List.take_of_length_le short
    rw [decimal_whole (if_pos short) (by rw [scientific, whole]; exact fits)]
    rw [scientific, whole]
    congr 1
    omega
  · have whole : ds.take 1 ++ ds.drop 1 = ds := List.take_append_drop 1 ds
    rw [decimal_eq (if_neg short) (by rw [scientific, whole]; exact fits)]
    rw [scientific, whole, List.length_drop]
    congr 1
    omega

/-! ### Shortest digits -/

variable {m : Magnitude}

def spelling (m : Magnitude) : Literal :=
  if m.mantissa = 0 then positional ['0'] 0
  else
    let (ds, power) := (m.shortest .toEven).normal
    let exponent := power + (ds.length - 1 : Nat)
    if -5 ≤ exponent ∧ exponent < 16 then positional ds power else scientific ds exponent

/-- The digits that a reader of a magnitude takes for a whole number, and the power of ten that it
gives to the last one. A number without a fraction has a zero more, behind its point. -/
def digits (m : Magnitude) : Nat × Int :=
  if m.mantissa = 0 then (0, -1)
  else
    let (ds, power) := (m.shortest .toEven).normal
    if 0 ≤ power ∧ power + ds.length ≤ 16 then
      (10 ^ (power + 1).toNat * Decimal.value ds, -1)
    else (Decimal.value ds, power)

theorem chars_spelling (m : Magnitude) : (spelling m).chars = numberLayout.magnitudeText m := by
  unfold spelling Decimal.Layout.magnitudeText
  split
  · exact chars_positional _ _
  · dsimp only [numberLayout]
    simp only [Bool.and_eq_true, decide_eq_true_eq]
    split
    · exact chars_positional _ _
    · exact chars_scientific _ _

theorem spelt_spelling (m : Magnitude) : (spelling m).Spelt := by
  unfold spelling
  split
  · exact spelt_positional (by simp [Char.isDigit]) (by simp) (fun other => absurd rfl other)
  · rename_i nonzero
    have positive : 0 < (m.shortest .toEven).digits :=
      Magnitude.digits_shortest_pos (Nat.pos_iff_ne_zero.2 nonzero)
    have all := Decimal.Scaled.digits_normal (m.shortest .toEven)
    have leading := Decimal.Scaled.head_normal positive
    dsimp only
    split
    · exact spelt_positional all leading.1 fun _ => leading.2
    · exact spelt_scientific all leading.1 fun _ => leading.2

theorem clampExponent_eq {e : Int} (low : -10000 ≤ e) (high : e ≤ 10000) : clampExponent e = e := by
  have least : Int32.minValue.toInt = -2147483648 := rfl
  have greatest : Int32.maxValue.toInt = 2147483647 := rfl
  unfold clampExponent
  rw [least, greatest]
  omega

theorem magnitude?_positional {ds : List Char} {power : Int}
    (fits : 10 ^ (power + 1).toNat * Decimal.value ds < UInt64.size) :
    (positional ds power).magnitude? =
      if 0 ≤ power then scale (10 ^ (power + 1).toNat * Decimal.value ds) (-1)
      else scale (Decimal.value ds) power := by
  have none : (positional ds power).exponent = none := by
    unfold positional
    split <;> rfl
  unfold magnitude?
  rw [decimal_positional fits, none]
  by_cases whole : 0 ≤ power
  · rw [if_pos whole, if_pos whole]
  · rw [if_neg whole, if_neg whole]

theorem magnitude?_scientific {ds : List Char} {exponent : Int} (nonempty : ds ≠ [])
    (short : ds.length ≤ 18) (fits : Decimal.value ds < UInt64.size) (low : -5000 ≤ exponent)
    (high : exponent ≤ 5000) :
    (scientific ds exponent).magnitude? =
      scale (Decimal.value ds) (exponent - (ds.length - 1 : Nat)) := by
  have long : 0 < ds.length := List.length_pos_iff.2 nonempty
  have written : (scientific ds exponent).exponent =
      some (decide (exponent < 0), Nat.toDigits 10 exponent.natAbs) := rfl
  have greatest : Int32.maxValue.toInt = 2147483647 := rfl
  unfold magnitude?
  rw [decimal_scientific nonempty fits, written]
  dsimp only
  rw [Decimal.value_toDigits, if_neg (by rw [greatest]; omega), clampExponent_eq]
  · congr 1
    split
    · rename_i negative
      rw [decide_eq_true_eq] at negative
      omega
    · rename_i nonnegative
      rw [decide_eq_true_eq] at nonnegative
      omega
  · split <;> omega
  · split <;> omega

/-- A reader multiplies or divides the digits by one power of ten. -/
theorem magnitude?_spelling (fits : m.Fits) :
    (spelling m).magnitude? = scale (digits m).1 (digits m).2 := by
  unfold spelling digits
  split
  · exact magnitude?_positional (by decide)
  · rename_i nonzero
    have positive : 0 < (m.shortest .toEven).digits :=
      Magnitude.digits_shortest_pos (Nat.pos_iff_ne_zero.2 nonzero)
    have nonempty := (Decimal.Scaled.head_normal positive).1
    have below := Decimal.value_lt (Decimal.Scaled.digits_normal (m.shortest .toEven))
    obtain ⟨value, short, low, high⟩ :=
      Decimal.Scaled.length_normal (Magnitude.digits_shortest_le fits .toEven)
    have range := Magnitude.power_shortest fits .toEven
    have long : 0 < (m.shortest .toEven).normal.1.length := List.length_pos_iff.2 nonempty
    have size : UInt64.size = 18446744073709551616 := rfl
    dsimp only
    generalize (m.shortest .toEven).normal = normal at *
    obtain ⟨ds, power⟩ := normal
    dsimp only at *
    split
    · rw [magnitude?_positional]
      · split
        · rw [if_pos (by omega)]
        · rw [if_neg (by omega)]
      · by_cases whole : 0 ≤ power
        · calc 10 ^ (power + 1).toNat * Decimal.value ds
              < 10 ^ (power + 1).toNat * 10 ^ ds.length :=
                Nat.mul_lt_mul_of_pos_left below (by positivity)
            _ = 10 ^ ((power + 1).toNat + ds.length) := (pow_add ..).symm
            _ ≤ 10 ^ 17 := Nat.pow_le_pow_right (by decide) (by omega)
            _ < UInt64.size := by decide
        · rw [show (power + 1).toNat = 0 by omega, pow_zero, Nat.one_mul]
          omega
    · rw [magnitude?_scientific nonempty short (by omega) (by omega) (by omega), if_neg (by omega)]
      dsimp only
      congr 1
      omega

/-! ### Floats -/

/-- A float as it is written, unless it is infinite or no number. -/
def ofFloat (x : Float) : Option Literal :=
  match Decimal.Binary64.ofFloat x with
  | .finite negative m => some { spelling m with negative }
  | _ => none

end Literal

/-- The float that a reader makes of a written one: the shortest digits as a float, times or divided
by one power of ten. There is none for an infinity, for a float that is no number, and where the
product is infinite. -/
def reread (x : Float) : Option Float :=
  match Decimal.Binary64.ofFloat x with
  | .finite negative m =>
    (Literal.scale (Literal.digits m).1 (Literal.digits m).2).map fun y =>
      if negative then -y else y
  | _ => none

namespace Literal

theorem ofFloat_eq_none {x : Float} (infinite : x.isFinite = false) : ofFloat x = none := by
  unfold ofFloat
  split
  · rename_i negative m same
    exact absurd same (Decimal.Binary64.ofFloat_ne_finite infinite negative m)
  · rfl

theorem isWhole_spelling (m : Magnitude) : (spelling m).isWhole = false := by
  have positional (ds : List Char) (power : Int) : (positional ds power).isWhole = false := by
    unfold Literal.positional
    split <;> rfl
  have scientific (ds : List Char) (exponent : Int) :
      (scientific ds exponent).isWhole = false := Bool.and_false _
  unfold spelling
  split
  · exact positional _ _
  · dsimp only
    split
    · exact positional _ _
    · exact scientific _ _

theorem negative_spelling (m : Magnitude) : (spelling m).negative = false := by
  have positional (ds : List Char) (power : Int) : (positional ds power).negative = false := by
    unfold Literal.positional
    split <;> rfl
  unfold spelling
  split
  · exact positional _ _
  · dsimp only
    split
    · exact positional _ _
    · rfl

/-- A finite float is written with its sign and its shortest digits, and read as they say. -/
theorem ofFloat_of_isFinite {x : Float} (finite : x.isFinite = true) :
    ∃ l, ofFloat x = some l ∧ l.Spelt ∧ l.chars = realChars x ∧
      l.number = (match reread x with
        | some y => .real y
        | none => .outOfRange) := by
  obtain ⟨negative, m, same, fits⟩ := Decimal.Binary64.ofFloat_of_isFinite finite
  have spelt := spelt_spelling m
  have written := chars_spelling m
  have magnitude := magnitude?_spelling fits
  have notWhole := isWhole_spelling m
  rw [chars, negative_spelling] at written
  refine ⟨{ spelling m with negative }, by simp [ofFloat, same], ?_, ?_, ?_⟩
  · exact ⟨spelt.whole, spelt.nonempty, spelt.leading, spelt.fraction, spelt.exponent⟩
  · unfold realChars Decimal.Layout.text chars
    simp only [finite, if_true, same, ← written]
    cases negative <;> rfl
  · unfold number
    have sameWhole : ({ spelling m with negative } : Literal).isWhole = false := notWhole
    have sameMagnitude : ({ spelling m with negative } : Literal).magnitude? =
        scale (digits m).1 (digits m).2 := magnitude
    simp only [sameWhole, sameMagnitude, reread, same]
    cases scale (digits m).1 (digits m).2 <;> rfl

end Literal

theorem isFinite_of_reread {x y : Float} (h : reread x = some y) : x.isFinite = true := by
  by_contra infinite
  unfold reread at h
  split at h
  · rename_i negative m same
    exact Decimal.Binary64.ofFloat_ne_finite (Bool.eq_false_iff.2 infinite) negative m same
  · cases h

end Reckoner.Json
