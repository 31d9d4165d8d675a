import Mathlib
import Reckoner.Proofs.Decimal.Binary64

/-!
# Rounding

An exact number is rounded to a mantissa of 53 bits by cutting off its last bits.
-/

namespace Reckoner.Decimal.Binary64

open Float.Model (Format UnpackedFloat totalExponent)
open Float.Model.UnpackedFloat (ExtendedMantissa Sign roundWithAccuracy
  shiftToTargetExponent shiftToExponent)

def cut (m n : Nat) : ExtendedMantissa :=
  ExtendedMantissa.ofMantissaAndAccuracy m .exact >>> n

theorem cut_zero (m : Nat) : cut m 0 = ⟨m, false, false⟩ := rfl

theorem cut_succ (m n : Nat) : cut m (n + 1) = (cut m n).shiftRightOne := rfl

theorem mantissa_cut (m n : Nat) : (cut m n).mantissa = m / 2 ^ n := by
  induction n with
  | zero => simp [cut_zero]
  | succ n ih => rw [cut_succ, ExtendedMantissa.shiftRightOne, ih, Nat.div_div_eq_div_mul, pow_succ]

/-- Where the first bit that is cut off is set, at least half of a last place is lost. -/
theorem half_le_of_roundBit {m n : Nat} (set : (cut m n).roundBit = true) :
    (2 * (m / 2 ^ n) + 1) * 2 ^ n ≤ 2 * m := by
  cases n with
  | zero => cases set
  | succ n =>
    rw [cut_succ, ExtendedMantissa.shiftRightOne, mantissa_cut] at set
    have odd : m / 2 ^ n % 2 = 1 := by
      simpa using set
    have rest := Nat.div_mul_le_self m (2 ^ n)
    rw [pow_succ, ← Nat.div_div_eq_div_mul]
    calc (2 * (m / 2 ^ n / 2) + 1) * (2 ^ n * 2)
        = (m / 2 ^ n * 2 ^ n) * 2 := by
          rw [show 2 * (m / 2 ^ n / 2) + 1 = m / 2 ^ n by omega, Nat.mul_assoc]
      _ ≤ 2 * m := by omega

theorem roundedMantissa_cases (em : ExtendedMantissa) :
    em.roundedMantissa = em.mantissa ∨
      em.roundBit = true ∧ em.roundedMantissa = em.mantissa + 1 := by
  obtain ⟨mantissa, roundBit, stickyBit⟩ := em
  cases roundBit <;> cases stickyBit
  · exact .inl rfl
  · exact .inl rfl
  · have tie : ExtendedMantissa.roundedMantissa ⟨mantissa, true, false⟩ =
        mantissa + mantissa % 2 := rfl
    rw [tie]
    rcases Nat.mod_two_eq_zero_or_one mantissa with even | odd
    · exact .inl (congrArg _ even)
    · exact .inr ⟨rfl, congrArg _ odd⟩
  · exact .inr ⟨rfl, rfl⟩

theorem roundedMantissa_cut_le (m n : Nat) :
    2 * (cut m n).roundedMantissa * 2 ^ n ≤ 2 * m + 2 ^ n := by
  rcases roundedMantissa_cases (cut m n) with down | ⟨set, up⟩
  · rw [down, mantissa_cut]
    calc 2 * (m / 2 ^ n) * 2 ^ n = 2 * (m / 2 ^ n * 2 ^ n) := Nat.mul_assoc ..
      _ ≤ 2 * m := Nat.mul_le_mul_left 2 (Nat.div_mul_le_self m (2 ^ n))
      _ ≤ 2 * m + 2 ^ n := Nat.le_add_right _ _
  · rw [up, mantissa_cut]
    have half := half_le_of_roundBit set
    calc 2 * (m / 2 ^ n + 1) * 2 ^ n = (2 * (m / 2 ^ n) + 1) * 2 ^ n + 2 ^ n := by ring
      _ ≤ 2 * m + 2 ^ n := Nat.add_le_add_right half _

theorem le_roundedMantissa_cut (m n : Nat) : m / 2 ^ n ≤ (cut m n).roundedMantissa := by
  rw [← mantissa_cut]
  rcases roundedMantissa_cases (cut m n) with down | ⟨_, up⟩ <;> omega

/-! ### Rounding to 53 bits -/

/-- A finite float whose mantissa has all 53 bits. -/
structure Full (x : UnpackedFloat) (r : Nat) (f : Int) : Prop where
  low : 2 ^ 52 ≤ r
  high : r < 2 ^ 53
  same : ∃ sign positive, x = .finite sign r f positive

theorem shiftToTargetExponent_of_log2 {m k : Nat} {e : Int} (width : m.log2 = 52 + k)
    (least : -1074 ≤ e) :
    shiftToTargetExponent Format.binary64 m e .exact = (cut m k, e + k) := by
  have target : Format.binary64.targetExponent (totalExponent m e) = e + k := by
    simp only [Format.targetExponent, totalExponent, width, Format.mantissaBits,
      Format.minExponent]
    omega
  have amount : (e + k - e).toNat = k := by omega
  simp only [shiftToTargetExponent, shiftToExponent, target, amount]
  rfl

theorem full_of_shifts (sign : Sign) {m r : Nat} {e e' f : Int} {first last : ExtendedMantissa}
    (cutOnce : shiftToTargetExponent Format.binary64 m e .exact = (first, e'))
    (cutAgain : shiftToTargetExponent Format.binary64 first.roundedMantissa e' .exact = (last, f))
    (kept : last.mantissa = r) (low : 2 ^ 52 ≤ r) (high : r < 2 ^ 53) :
    Full (roundWithAccuracy Format.binary64 sign m e .exact) r f := by
  have nonzero : r ≠ 0 := by omega
  refine ⟨low, high, sign, Nat.pos_of_ne_zero nonzero, ?_⟩
  unfold roundWithAccuracy
  simp only [cutOnce, cutAgain, kept]
  exact dif_neg nonzero

/-- A number of at least 53 bits is rounded to 53 of them, unless that carries over into one
more. -/
theorem round_wide (sign : Sign) {m : Nat} {e : Int} (wide : 2 ^ 52 ≤ m) (least : -1074 ≤ e) :
    ∃ k r : Nat, 2 ^ (52 + k) ≤ m ∧ 2 * r * 2 ^ k ≤ 2 * m + 2 ^ k ∧ (k = 0 → r = m) ∧
      (Full (roundWithAccuracy Format.binary64 sign m e .exact) r (e + k) ∨
        r = 2 ^ 53 ∧
          Full (roundWithAccuracy Format.binary64 sign m e .exact) (2 ^ 52) (e + k + 1)) := by
  have nonzero : m ≠ 0 := by omega
  obtain ⟨k, width⟩ : ∃ k, m.log2 = 52 + k :=
    Nat.exists_eq_add_of_le ((Nat.le_log2 nonzero).2 wide)
  have lower : 2 ^ (52 + k) ≤ m := width ▸ Nat.log2_self_le nonzero
  have upper : m < 2 ^ (52 + k + 1) := width ▸ Nat.lt_log2_self
  have low : 2 ^ 52 ≤ m / 2 ^ k := by
    rw [Nat.le_div_iff_mul_le (Nat.two_pow_pos k), ← pow_add]
    exact lower
  have high : m / 2 ^ k < 2 ^ 53 := by
    rw [Nat.div_lt_iff_lt_mul (Nat.two_pow_pos k), ← pow_add]
    exact upper.trans_eq (congrArg _ (by omega))
  have above := le_roundedMantissa_cut m k
  have carry : (cut m k).roundedMantissa ≤ 2 ^ 53 := by
    rcases roundedMantissa_cases (cut m k) with down | ⟨_, up⟩
    · rw [down, mantissa_cut]
      omega
    · rw [up, mantissa_cut]
      omega
  refine ⟨k, (cut m k).roundedMantissa, lower, roundedMantissa_cut_le m k, ?_, ?_⟩
  · rintro rfl
    rfl
  · have once := shiftToTargetExponent_of_log2 width least
    rcases Nat.lt_or_eq_of_le carry with narrow | full
    · have again := shiftToTargetExponent_of_log2 (m := (cut m k).roundedMantissa) (k := 0)
        (e := e + k) ((Nat.log2_eq_iff (by omega)).2 ⟨by omega, narrow⟩) (by omega)
      have settled := again.trans (congrArg (Prod.mk _) (Int.add_zero (e + k)))
      exact .inl (full_of_shifts sign once settled rfl (by omega) narrow)
    · have again := shiftToTargetExponent_of_log2 (m := (cut m k).roundedMantissa) (k := 1)
        (e := e + k) (full ▸ Nat.log2_two_pow) (by omega)
      have half : (cut (cut m k).roundedMantissa 1).mantissa = 2 ^ 52 := by
        rw [full, mantissa_cut]
        decide
      exact .inr ⟨full, full_of_shifts sign once again half (by decide) (by decide)⟩

/-! ### Words -/

theorem toNat_implicit_append {r : Nat} (low : 2 ^ 52 ≤ r) (high : r < 2 ^ 53) :
    (1#1 ++ BitVec.ofNat 52 r).toNat = r := by
  rw [BitVec.toNat_append, ← Nat.shiftLeft_add_eq_or_of_lt (BitVec.isLt _), BitVec.toNat_ofNat]
  simp only [BitVec.toNat_ofNat, Nat.shiftLeft_eq]
  omega

theorem unpackSign_packComponents {spec : Format} (sign : Sign)
    (exponent : BitVec spec.exponentBits) (mantissa : BitVec spec.mantissaBitsWithoutImplicit) :
    UnpackedFloat.unpackSign (UnpackedFloat.packComponents spec sign exponent mantissa) =
      sign.toBitVec := by
  apply BitVec.eq_of_getLsbD_eq
  intro i inside
  obtain rfl : i = 0 := by omega
  simp [UnpackedFloat.unpackSign, UnpackedFloat.packComponents, BitVec.getLsbD_append,
    BitVec.getElem_append]

/-- A float with all its bits and an exponent in range fills the fields of a word. -/
theorem pack_full (sign : Sign) {r : Nat} {f : Int} (low : 2 ^ 52 ≤ r) (high : r < 2 ^ 53)
    (least : -1074 ≤ f) (greatest : f ≤ 971) (positive : 0 < r) :
    UnpackedFloat.pack Format.binary64 (.finite sign r f positive) =
      UnpackedFloat.packComponents Format.binary64 sign (BitVec.ofNat 11 (f + 1075).toNat)
        (BitVec.ofNat 52 r) := by
  have width : r.log2 + 1 = Format.binary64.mantissaBits :=
    congrArg (· + 1) ((Nat.log2_eq_iff positive.ne').2 ⟨low, high⟩)
  have biased : (f + Format.binary64.exponentBias +
      Format.binary64.mantissaBitsWithoutImplicit).toNat = (f + 1075).toNat := by
    show (f + 1023 + 52).toNat = _
    omega
  have inRange : ¬ 2 ^ Format.binary64.exponentBits ≤ (f + 1075).toNat + 1 := by
    show ¬ 2048 ≤ _
    omega
  simp only [UnpackedFloat.pack, biased, if_neg inRange, if_pos width]

theorem unpack_pack (sign : Sign) {r : Nat} {f : Int} (low : 2 ^ 52 ≤ r) (high : r < 2 ^ 53)
    (least : -1074 ≤ f) (greatest : f ≤ 971) (positive : 0 < r) :
    UnpackedFloat.unpack Format.binary64
      (UnpackedFloat.pack Format.binary64 (.finite sign r f positive)) =
        .finite sign r f positive := by
  have field : (BitVec.ofNat 11 (f + 1075).toNat).toNat = (f + 1075).toNat := by
    rw [BitVec.toNat_ofNat, Nat.mod_eq_of_lt (by omega)]
  have notTop : BitVec.ofNat 11 (f + 1075).toNat ≠ (-1#_) := by
    rw [ne_eq, ← BitVec.toNat_inj, field]
    show ¬ (f + 1075).toNat = 2047
    omega
  have notBottom : BitVec.ofNat 11 (f + 1075).toNat ≠ 0#_ := by
    rw [ne_eq, ← BitVec.toNat_inj, field]
    show ¬ (f + 1075).toNat = 0
    omega
  have exponent : ((f + 1075).toNat : Int) -
      (Format.binary64.exponentBias + Format.binary64.mantissaBitsWithoutImplicit : Nat) = f := by
    show ((f + 1075).toNat : Int) - (1023 + 52 : Nat) = f
    omega
  have same : Sign.ofBitVec sign.toBitVec = sign := by cases sign <;> rfl
  rw [pack_full sign low high least greatest positive]
  simp only [UnpackedFloat.unpack, UnpackedFloat.unpackMantissa_packComponents,
    UnpackedFloat.unpackExponent_packComponents, unpackSign_packComponents, same, if_neg notTop,
    if_neg notBottom, toNat_implicit_append low high, field]
  exact congrArg (UnpackedFloat.finite sign r · positive) exponent

theorem Full.packed {x : UnpackedFloat} {r : Nat} {f : Int} (h : Full x r f) (least : -1074 ≤ f)
    (greatest : f ≤ 971) :
    Full (UnpackedFloat.unpack Format.binary64 (UnpackedFloat.pack Format.binary64 x)) r f := by
  obtain ⟨low, high, sign, positive, rfl⟩ := h
  exact ⟨low, high, sign, positive, unpack_pack sign low high least greatest positive⟩

/-! ### Values -/

/-- Halfway between the largest float and the next power of two, from where on numbers are rounded
to infinity. -/
def overflow : ℚ :=
  (2 ^ 54 - 1) * 2 ^ (970 : Int)

theorem word_lt_overflow : (2 : ℚ) ^ 64 < overflow :=
  calc (2 : ℚ) ^ 64
      = 2 ^ (64 : Int) := (zpow_natCast 2 64).symm
    _ ≤ 2 ^ (970 : Int) := zpow_le_zpow_right₀ (by norm_num) (by norm_num)
    _ < (2 ^ 54 - 1) * 2 ^ (970 : Int) := lt_mul_of_one_lt_left (by positivity) (by norm_num)

theorem exponent_le_of_small {m k : Nat} {e : Int} (lower : 2 ^ (52 + k) ≤ m)
    (small : (m : ℚ) * 2 ^ e < overflow) : e + k ≤ 971 := by
  by_contra large
  have top : (2 : ℚ) ^ (1024 : Int) ≤ m * 2 ^ e :=
    calc (2 : ℚ) ^ (1024 : Int)
        ≤ 2 ^ (((52 + k : Nat) : Int) + e) := zpow_le_zpow_right₀ (by norm_num) (by omega)
      _ = ((2 ^ (52 + k) : Nat) : ℚ) * 2 ^ e := by
          rw [zpow_add₀ (by norm_num), zpow_natCast]
          push_cast
          rfl
      _ ≤ m * 2 ^ e := by gcongr
  have below : overflow < (2 : ℚ) ^ (1024 : Int) := by
    rw [overflow, show (1024 : Int) = 54 + 970 from rfl, zpow_add₀ (by norm_num)]
    exact mul_lt_mul_of_pos_right (by norm_num) (by positivity)
  exact absurd (small.trans below) (not_lt.2 top)

/-- Only a number at the overflow is rounded up to the power of two behind the largest float. -/
theorem exponent_lt_of_carry {m k : Nat} {e : Int} (half : 2 * 2 ^ 53 * 2 ^ k ≤ 2 * m + 2 ^ k)
    (small : (m : ℚ) * 2 ^ e < overflow) : e + k < 971 := by
  by_contra large
  have twice : (2 ^ 54 - 1) * (2 : ℚ) ^ k ≤ 2 * m := by
    have cast : (2 * 2 ^ 53 * 2 ^ k : ℚ) ≤ 2 * m + 2 ^ k := by exact_mod_cast half
    linarith
  have top : 2 * overflow ≤ 2 * (m * 2 ^ e) :=
    calc 2 * overflow
        = (2 ^ 54 - 1) * (2 : ℚ) ^ (971 : Int) := by
          rw [overflow, show (971 : Int) = 970 + 1 from rfl, zpow_add_one₀ (by norm_num)]
          ring
      _ ≤ (2 ^ 54 - 1) * 2 ^ ((k : Int) + e) :=
          mul_le_mul_of_nonneg_left (zpow_le_zpow_right₀ (by norm_num) (by omega)) (by norm_num)
      _ = (2 ^ 54 - 1) * 2 ^ k * 2 ^ e := by
          rw [zpow_add₀ (by norm_num), zpow_natCast, mul_assoc]
      _ ≤ 2 * m * 2 ^ e := by gcongr
      _ = 2 * (m * 2 ^ e) := mul_assoc ..
  linarith

theorem word_of_round (sign : Sign) {m : Nat} {e : Int} (wide : 2 ^ 52 ≤ m) (least : -1074 ≤ e)
    (small : (m : ℚ) * 2 ^ e < overflow) :
    ∃ (k v r : Nat) (f : Int), Full (UnpackedFloat.unpack Format.binary64
        (UnpackedFloat.pack Format.binary64
          (roundWithAccuracy Format.binary64 sign m e .exact))) r f ∧
      e ≤ f ∧ (r : ℚ) * 2 ^ f = v * 2 ^ (e + k) ∧ v ≤ 2 ^ 53 ∧ 2 ^ (52 + k) ≤ m ∧
      2 * v * 2 ^ k ≤ 2 * m + 2 ^ k ∧ (k = 0 → v = m) := by
  obtain ⟨k, v, lower, half, exact, kept | ⟨rfl, carried⟩⟩ := round_wide sign wide least
  · have greatest := exponent_le_of_small lower small
    exact ⟨k, v, v, e + k, kept.packed (by omega) greatest, by omega, rfl, Nat.le_of_lt kept.high,
      lower, half, exact⟩
  · have greatest := exponent_lt_of_carry half small
    refine ⟨k, 2 ^ 53, 2 ^ 52, e + k + 1, carried.packed (by omega) (by omega), by omega, ?_,
      Nat.le_refl _, lower, half, exact⟩
    rw [zpow_add_one₀ (by norm_num)]
    push_cast
    ring

theorem value_shifted (n k : Nat) : ((n * 2 ^ k : Nat) : ℚ) * 2 ^ (-(k : Int)) = n := by
  rw [zpow_neg, zpow_natCast]
  push_cast
  exact mul_inv_cancel_right₀ (by positivity) _

/-- A mantissa and its exponent are compared with a power of ten by whole numbers. -/
theorem value_of_ten_pow {q r : Nat} {f : Int} (least : -52 ≤ f)
    (same : r * 2 ^ (f + 52).toNat = 10 ^ q * 2 ^ 52) : (r : ℚ) * 2 ^ f = 10 ^ q := by
  obtain ⟨n, shifted⟩ := Int.eq_ofNat_of_zero_le (show 0 ≤ f + 52 by omega)
  rw [shifted, Int.toNat_natCast] at same
  have cast : (r : ℚ) * 2 ^ n = 10 ^ q * 2 ^ 52 := by exact_mod_cast same
  rw [show f = (n : Int) - (52 : Nat) by omega, zpow_sub₀ (by norm_num), zpow_natCast,
    zpow_natCast, ← mul_div_assoc, cast]
  exact mul_div_cancel_right₀ _ (by norm_num)

/-! ### Words as floats -/

theorem le_shifted {n : Nat} (positive : 0 < n) : 2 ^ 52 ≤ n * 2 ^ (52 - n.log2) :=
  calc 2 ^ 52 ≤ 2 ^ (n.log2 + (52 - n.log2)) := Nat.pow_le_pow_right (by decide) (by omega)
    _ = 2 ^ n.log2 * 2 ^ (52 - n.log2) := pow_add ..
    _ ≤ n * 2 ^ (52 - n.log2) := Nat.mul_le_mul_right _ (Nat.log2_self_le positive.ne')

theorem shifted_lt {n : Nat} (few : n.log2 < 53) : n * 2 ^ (52 - n.log2) < 2 ^ 53 :=
  calc n * 2 ^ (52 - n.log2)
      < 2 ^ (n.log2 + 1) * 2 ^ (52 - n.log2) :=
        Nat.mul_lt_mul_of_pos_right Nat.lt_log2_self (Nat.two_pow_pos _)
    _ = 2 ^ 53 := by
        rw [← pow_add]
        congr 1
        omega

theorem round_natural (n : Nat) :
    UnpackedFloat.round Format.binary64 .positive n 0 =
      roundWithAccuracy Format.binary64 .positive (n * 2 ^ (52 - n.log2)) (-(52 - n.log2 : Nat))
        .exact := by
  have target : Format.binary64.targetExponent (totalExponent n 0) = (n.log2 : Int) - 52 := by
    simp only [Format.targetExponent, totalExponent, Format.mantissaBits, Format.minExponent]
    omega
  have amount : (-((n.log2 : Int) - 52)).toNat = 52 - n.log2 := by omega
  simp only [UnpackedFloat.round, UnpackedFloat.decreaseExponent, target, Int.zero_sub, amount,
    Nat.shiftLeft_eq]

theorem unpack_toFloat {n : UInt64} (positive : 0 < n.toNat) :
    n.toFloat.toModel.unpack = UnpackedFloat.unpack Format.binary64
      (UnpackedFloat.pack Format.binary64
        (roundWithAccuracy Format.binary64 .positive (n.toNat * 2 ^ (52 - n.toNat.log2))
          (-(52 - n.toNat.log2 : Nat)) .exact)) := by
  have sign : compare (n.toNat : Int) 0 = .gt := Int.compare_eq_gt.2 (by omega)
  rw [← round_natural]
  show UnpackedFloat.unpack _ (UnpackedFloat.pack _
    (UnpackedFloat.normalize Format.binary64 (n.toNat : Int) 0 .positive)) = _
  rw [UnpackedFloat.normalize, sign]
  rfl

/-- A word of up to 53 bits is a float; a larger one is rounded to 53 bits. -/
theorem full_toFloat {n : UInt64} (positive : 0 < n.toNat) :
    ∃ (k v r : Nat) (f : Int), Full n.toFloat.toModel.unpack r f ∧ -52 ≤ f ∧
      (r : ℚ) * 2 ^ f = v * 2 ^ k ∧ v ≤ 2 ^ 53 ∧ 2 * v * 2 ^ k ≤ 2 * n.toNat + 2 ^ k ∧
      (k = 0 → v = n.toNat) ∧ (k ≠ 0 → 2 ^ (52 + k) ≤ n.toNat) := by
  have word := n.toNat_lt
  rw [unpack_toFloat positive]
  generalize n.toNat = n at positive word ⊢
  have value := value_shifted n (52 - n.log2)
  have wide := le_shifted positive
  have small : ((n * 2 ^ (52 - n.log2) : Nat) : ℚ) * 2 ^ (-(52 - n.log2 : Nat) : Int) <
      overflow := by
    rw [value]
    have cast : (n : ℚ) < 2 ^ 64 := by exact_mod_cast word
    exact cast.trans word_lt_overflow
  obtain ⟨k, v, r, f, full, least, same, bound, lower, half, exact⟩ :=
    word_of_round .positive wide (by omega) small
  rcases Nat.lt_or_ge n.log2 53 with few | many
  · have narrow := shifted_lt few
    have none : k = 0 := by
      by_contra some
      have more : 2 ^ 53 ≤ 2 ^ (52 + k) := Nat.pow_le_pow_right (by decide) (by omega)
      omega
    subst none
    rw [exact rfl, Nat.cast_zero, add_zero, value] at same
    have fits : n < 2 ^ 53 := (Nat.log2_lt (by omega)).1 few
    exact ⟨0, n, r, f, full, by omega, by simpa using same, by omega, by omega, fun _ => rfl,
      fun other => absurd rfl other⟩
  · have none : 52 - n.log2 = 0 := by omega
    simp only [none, pow_zero, Nat.mul_one, Nat.cast_zero, neg_zero, zero_add, zpow_natCast]
      at full same lower half exact
    exact ⟨k, v, r, f, by simpa [none] using full, by omega, same, bound, half, exact,
      fun _ => lower⟩

theorem isInf_mul {x y : Float} {r r' : Nat} {f f' : Int} (left : Full x.toModel.unpack r f)
    (right : Full y.toModel.unpack r' f') (least : -1074 ≤ f + f')
    (small : (r : ℚ) * 2 ^ f * (r' * 2 ^ f') < overflow) : (x * y).isInf = false := by
  obtain ⟨low, high, sign, positive, same⟩ := left
  obtain ⟨low', high', sign', positive', same'⟩ := right
  have wide : 2 ^ 52 ≤ r * r' := Nat.le_trans low (Nat.le_mul_of_pos_right r positive')
  have product : ((r * r' : Nat) : ℚ) * 2 ^ (f + f') < overflow := by
    rw [zpow_add₀ (by norm_num)]
    push_cast
    exact lt_of_eq_of_lt (by ring) small
  obtain ⟨k, v, t, g, ⟨_, _, sign'', positive'', word⟩, _⟩ :=
    word_of_round (sign * sign') wide least product
  show (UnpackedFloat.unpack Format.binary64 (UnpackedFloat.pack Format.binary64
    (UnpackedFloat.mul Format.binary64 x.toModel.unpack y.toModel.unpack))).isInf = false
  rw [same, same', UnpackedFloat.mul, word]
  rfl

end Reckoner.Decimal.Binary64
