import Mathlib.Tactic.FieldSimp
import Reckoner.Proofs.Decimal.Rounding
import Reckoner.Proofs.Decimal.Sufficiency
import Reckoner.Proofs.Json.Reals

/-!
# Every finite float is read back

A reader rounds three times: the digits, the power of ten and their product. `exists_reread` says
that this never leads beyond the largest float.
-/

namespace Reckoner.Json

open Reckoner.Decimal (Magnitude)
open Reckoner.Decimal.Binary64 (Full overflow)
open Float.Model (Format UnpackedFloat)

namespace Literal

/-! ### Powers of ten -/

theorem overflow_eq : overflow = (((2 ^ 54 - 1) * 2 ^ 970 : Nat) : ℚ) := by
  rw [overflow, show (970 : Int) = ((970 : Nat) : Int) from rfl, zpow_natCast, Nat.cast_mul,
    Nat.cast_pow]
  congr 1
  norm_num

/-- Whether a power of ten, as a float with all its bits, is the power itself. -/
def isExact (q : Nat) : Bool :=
  match (powerOfTen q).toModel.unpack with
  | .finite _ r f _ =>
    2 ^ 52 ≤ r && r < 2 ^ 53 && -52 ≤ f && r * 2 ^ (f + 52).toNat = 10 ^ q * 2 ^ 52
  | _ => false

theorem isExact_of_le : ∀ q ≤ 22, isExact q = true := by
  decide +kernel

theorem ofScientific_ten {q : Nat} (small : q ≤ 308) :
    UnpackedFloat.ofScientific Format.binary64 1 q =
      UnpackedFloat.roundWithAccuracy Format.binary64 .positive (2 ^ 53 * 10 ^ q) (-53) .exact := by
  have top : ¬ (q : Int) > 2 ^ Format.binary64.exponentBits := by
    show ¬ (q : Int) > 2048
    omega
  have bottom : ¬ (q : Int) < -((2 ^ Format.binary64.exponentBits : Int) + (1 : Nat).log2) := by
    show ¬ (q : Int) < -(2048 + ((1 : Nat).log2 : Int))
    omega
  rw [UnpackedFloat.ofScientific, dif_neg one_ne_zero, if_neg top, if_neg bottom,
    if_pos (Int.natCast_nonneg q), UnpackedFloat.mul]
  rfl

/-- The table of exact powers of ten ends with `10 ^ 22`; behind it they are rounded. -/
theorem unpack_powerOfTen {q : Nat} (many : 22 < q) (small : q ≤ 308) :
    (powerOfTen q).toModel.unpack = UnpackedFloat.unpack Format.binary64
      (UnpackedFloat.pack Format.binary64
        (UnpackedFloat.roundWithAccuracy Format.binary64 .positive (2 ^ 53 * 10 ^ q) (-53)
          .exact)) := by
  rw [← ofScientific_ten small]
  unfold powerOfTen Float.ofScientific
  rw [dif_neg (by omega)]
  rfl

theorem ten_pow_lt_overflow {q : Nat} (small : q ≤ 308) : (10 : ℚ) ^ q < overflow := by
  have below : 10 ^ 308 < (2 ^ 54 - 1) * 2 ^ 970 := by decide +kernel
  have power : 10 ^ q ≤ 10 ^ 308 := by
    gcongr
    decide
  rw [overflow_eq]
  exact_mod_cast Nat.lt_of_le_of_lt power below

theorem full_powerOfTen_of_exact {q : Nat} (few : q ≤ 22) :
    ∃ r f, Full (powerOfTen q).toModel.unpack r f ∧ -53 ≤ f ∧ (r : ℚ) * 2 ^ f = 10 ^ q := by
  have exact := isExact_of_le q few
  unfold isExact at exact
  split at exact
  · rename_i sign r f positive same
    simp only [Bool.and_eq_true, decide_eq_true_eq] at exact
    obtain ⟨⟨⟨low, high⟩, least⟩, value⟩ := exact
    exact ⟨r, f, ⟨low, high, sign, positive, same⟩, by omega,
      Decimal.Binary64.value_of_ten_pow least value⟩
  · cases exact

/-- A power of ten as a float is too large by no more than one part in `2 ^ 53`. -/
theorem full_powerOfTen {q : Nat} (small : q ≤ 308) :
    ∃ r f, Full (powerOfTen q).toModel.unpack r f ∧ -53 ≤ f ∧
      (r : ℚ) * 2 ^ f * 2 ^ 53 ≤ 10 ^ q * (2 ^ 53 + 1) := by
  rcases Nat.lt_or_ge 22 q with many | few
  · rw [unpack_powerOfTen many small]
    have wide : 2 ^ 52 ≤ 2 ^ 53 * 10 ^ q := by
      have : 1 ≤ 10 ^ q := Nat.one_le_pow _ _ (by decide)
      omega
    have value : ((2 ^ 53 * 10 ^ q : Nat) : ℚ) * 2 ^ (-53 : Int) = 10 ^ q := by
      simp only [Nat.cast_mul, Nat.cast_pow, Nat.cast_ofNat]
      rw [show (-53 : Int) = -(53 : Nat) from rfl, zpow_neg, zpow_natCast, mul_right_comm,
        mul_inv_cancel₀ (by norm_num), one_mul]
    obtain ⟨k, v, r, f, full, least, same, _, lower, half, _⟩ :=
      Decimal.Binary64.word_of_round .positive wide (by decide)
        (value.trans_lt (ten_pow_lt_overflow small))
    refine ⟨r, f, full, least, ?_⟩
    have scaled : (r : ℚ) * 2 ^ f * 2 ^ 53 = v * 2 ^ k := by
      rw [same, zpow_add₀ (by norm_num), show (-53 : Int) = -(53 : Nat) from rfl, zpow_neg,
        zpow_natCast, zpow_natCast]
      field_simp
    have room : v * 2 ^ k ≤ 10 ^ q * (2 ^ 53 + 1) := by
      rw [pow_add] at lower
      have twice : 2 * (v * 2 ^ k) ≤ 2 * (2 ^ 53 * 10 ^ q) + 2 ^ k := Nat.mul_assoc 2 v _ ▸ half
      omega
    rw [scaled]
    exact_mod_cast room
  · obtain ⟨r, f, full, least, value⟩ := full_powerOfTen_of_exact few
    refine ⟨r, f, full, least, ?_⟩
    rw [value]
    gcongr
    norm_num

/-! ### Products -/

/-- Halfway between the two largest floats; far too large a number to be unfolded. -/
@[irreducible] def halfway : Nat :=
  (2 ^ 54 - 3) * 2 ^ 970

/-- Whole numbers that make up a product up to there have no more than a power of ten of 308. -/
theorem power_le_of_halfway {n q : Nat} (positive : 0 < n) (small : n * 10 ^ q ≤ halfway) :
    q ≤ 308 := by
  by_contra large
  have top : halfway < 10 ^ 309 := by decide +kernel
  have power : 10 ^ 309 ≤ 10 ^ q := by
    gcongr
    · decide
    · omega
  have product : 10 ^ q ≤ n * 10 ^ q := Nat.le_mul_of_pos_left _ positive
  exact Nat.lt_irrefl _ (top.trans_le (power.trans (product.trans small)))

theorem le_of_mul_ten_pow {n q p bound : Nat} (small : n * 10 ^ q ≤ halfway) (less : p ≤ q)
    (top : halfway < (bound + 1) * 10 ^ p) : n ≤ bound := by
  by_contra large
  have product : (bound + 1) * 10 ^ p ≤ n * 10 ^ q := by
    gcongr
    · omega
    · decide
  exact Nat.lt_irrefl _ (top.trans_le (product.trans small))

/-- Rounding the digits to 53 bits does not lead beyond the middle either. -/
theorem rounded_le_halfway {n q k v : Nat} (short : n ≤ 10 ^ 17)
    (small : n * 10 ^ q ≤ halfway) (bound : v ≤ 2 ^ 53) (half : 2 * v * 2 ^ k ≤ 2 * n + 2 ^ k)
    (exact : k = 0 → v = n) (wide : k ≠ 0 → 2 ^ (52 + k) ≤ n) : v * 2 ^ k * 10 ^ q ≤ halfway := by
  by_cases whole : k = 0
  · rw [exact whole, whole, pow_zero, Nat.mul_one]
    exact small
  have lower := wide whole
  have few : k ≤ 4 := by
    by_contra many
    have : 2 ^ 57 ≤ 2 ^ (52 + k) := Nat.pow_le_pow_right (by decide) (by omega)
    omega
  have more : 2 ^ 53 ≤ 2 ^ (52 + k) := Nat.pow_le_pow_right (by decide) (by omega)
  have power : q ≤ 292 := by
    by_contra large
    have lesser : n ≤ 2 ^ 53 - 1 :=
      le_of_mul_ten_pow (p := 293) small (by omega) (by decide +kernel)
    omega
  rcases Nat.lt_or_eq_of_le power with less | rfl
  · -- far enough below for the largest word with seventeen digits
    have top : 2 ^ 57 * 10 ^ 291 ≤ halfway := by decide +kernel
    have product : v * 2 ^ k ≤ 2 ^ 53 * 2 ^ 4 := by
      gcongr
      decide
    calc v * 2 ^ k * 10 ^ q ≤ 2 ^ 57 * 10 ^ 291 := by
          gcongr
          · exact product
          · decide
          · omega
      _ ≤ halfway := top
  · -- there the digits are rounded to an even number, and the largest one is even itself
    have digits : n ≤ 17976931348623156 :=
      le_of_mul_ten_pow (p := 292) small (Nat.le_refl _) (by decide +kernel)
    have top : 17976931348623156 * 10 ^ 292 ≤ halfway := by decide +kernel
    have one : k = 1 := by
      by_contra other
      have : 2 ^ 54 ≤ 2 ^ (52 + k) := Nat.pow_le_pow_right (by decide) (by omega)
      omega
    subst one
    calc v * 2 ^ 1 * 10 ^ 292 ≤ 17976931348623156 * 10 ^ 292 := Nat.mul_le_mul_right _ (by omega)
      _ ≤ halfway := top

theorem scale_of_halfway {n q : Nat} (positive : 0 < n) (short : n ≤ 10 ^ 17)
    (small : n * 10 ^ q ≤ halfway) : ∃ y, scale n q = some y := by
  have power := power_le_of_halfway positive small
  have word : (UInt64.ofNat n).toNat = n := UInt64.toNat_ofNat_of_lt' (by
    show n < 2 ^ 64
    omega)
  obtain ⟨k, v, r, f, left, least, value, bound, half, exact, wide⟩ :=
    Decimal.Binary64.full_toFloat (n := UInt64.ofNat n) (by omega)
  rw [word] at half exact wide
  obtain ⟨r', f', right, least', near⟩ := full_powerOfTen power
  have product := rounded_le_halfway short small bound half exact wide
  have finite : ((UInt64.ofNat n).toFloat * powerOfTen q).isInf = false := by
    refine Decimal.Binary64.isInf_mul left right (by omega) ?_
    have scaled : (r : ℚ) * 2 ^ f * (r' * 2 ^ f') * 2 ^ 53 < overflow * 2 ^ 53 :=
      calc (r : ℚ) * 2 ^ f * (r' * 2 ^ f') * 2 ^ 53
          = (v : ℚ) * 2 ^ k * (r' * 2 ^ f' * 2 ^ 53) := by rw [value, mul_assoc _ _ ((2 : ℚ) ^ 53)]
        _ ≤ (v : ℚ) * 2 ^ k * (10 ^ q * (2 ^ 53 + 1)) := by gcongr
        _ = ((v * 2 ^ k * 10 ^ q : Nat) : ℚ) * (2 ^ 53 + 1) := by
            push_cast
            ring
        _ ≤ (halfway : ℚ) * (2 ^ 53 + 1) := by gcongr
        _ < overflow * 2 ^ 53 := by
            have room : halfway * (2 ^ 53 + 1) < (2 ^ 54 - 1) * 2 ^ 970 * 2 ^ 53 := by
              decide +kernel
            rw [overflow_eq]
            exact_mod_cast room
    exact lt_of_mul_lt_mul_right scaled (by norm_num)
  refine ⟨(UInt64.ofNat n).toFloat * powerOfTen q, ?_⟩
  unfold scale
  dsimp only
  rw [if_neg (by omega), if_pos (by omega), Int.toNat_natCast, finite]
  rfl

/-! ### Digits -/

/-- The largest float. -/
def largest : Magnitude :=
  ⟨2 ^ 53 - 1, 971⟩

theorem upper_le_halfway {m : Magnitude} (fits : m.Fits) (other : m ≠ largest) :
    m.upper * 2 ^ (m.exponent - 2).toNat ≤ halfway := by
  obtain ⟨mantissa, exponent⟩ := m
  obtain ⟨small, low, high⟩ := fits
  dsimp only at small low high
  rcases Int.lt_or_eq_of_le high with less | same
  · have power : (exponent - 2).toNat ≤ 968 := by omega
    have edge : 4 * mantissa + 2 ≤ 4 * 2 ^ 53 - 2 := by omega
    calc (4 * mantissa + 2) * 2 ^ (exponent - 2).toNat
        ≤ (4 * 2 ^ 53 - 2) * 2 ^ 968 := by gcongr; decide
      _ ≤ halfway := by decide +kernel
  · have power : (exponent - 2).toNat ≤ 969 := by omega
    have lesser : mantissa ≠ 2 ^ 53 - 1 := by
      rintro rfl
      exact other (congrArg _ same)
    have edge : 4 * mantissa + 2 ≤ 4 * 2 ^ 53 - 6 := by omega
    calc (4 * mantissa + 2) * 2 ^ (exponent - 2).toNat
        ≤ (4 * 2 ^ 53 - 6) * 2 ^ 969 := by gcongr; decide
      _ ≤ halfway := by decide +kernel

theorem scale_largest : (scale (digits largest).1 (digits largest).2).isSome = true := by
  decide +kernel

theorem scale_of_negative {n : Nat} {e : Int} (negative : e < 0) : ∃ y, scale n e = some y := by
  unfold scale
  exact ⟨_, if_pos negative⟩

/-- The digits of a finite float are read as a finite float. -/
theorem scale_digits {m : Magnitude} (fits : m.Fits) :
    ∃ y, scale (digits m).1 (digits m).2 = some y := by
  by_cases extreme : m = largest
  · rw [extreme]
    exact Option.isSome_iff_exists.1 scale_largest
  unfold digits
  split
  · exact scale_of_negative (by decide)
  · rename_i nonzero
    have positive : 0 < m.mantissa := Nat.pos_iff_ne_zero.2 nonzero
    have readsBack := Magnitude.readsBack_shortest positive fits.mantissa .toEven
    have some : 0 < (m.shortest .toEven).digits := Magnitude.digits_shortest_pos positive
    obtain ⟨short, _⟩ := Decimal.Scaled.length_normal (Magnitude.digits_shortest_le fits .toEven)
    obtain ⟨n, value, power⟩ := (m.shortest .toEven).value_normal
    generalize (m.shortest .toEven).normal = normal at *
    obtain ⟨ds, e⟩ := normal
    dsimp only at *
    split
    · exact scale_of_negative (show (-1 : Int) < 0 by decide)
    · rcases Int.lt_or_le e 0 with negative | natural
      · exact scale_of_negative negative
      · obtain ⟨q, rfl⟩ := Int.eq_ofNat_of_zero_le natural
        have nonzero : 0 < Decimal.value ds := Nat.pos_of_mul_pos_left (value ▸ some)
        exact scale_of_halfway nonzero short
          ((Magnitude.mul_le_of_readsBack readsBack value power).trans
            (upper_le_halfway fits extreme))

end Literal

theorem exists_reread {x : Float} (finite : x.isFinite = true) : ∃ y, reread x = some y := by
  obtain ⟨negative, m, same, fits⟩ := Decimal.Binary64.ofFloat_of_isFinite finite
  obtain ⟨y, scaled⟩ := Literal.scale_digits fits
  refine ⟨if negative then -y else y, ?_⟩
  simp only [reread, same, scaled, Option.map_some]

end Reckoner.Json
