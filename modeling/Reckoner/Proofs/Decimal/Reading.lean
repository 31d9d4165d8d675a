import Reckoner.Proofs.Decimal.Nearest
import Reckoner.Proofs.Decimal.Sufficiency

/-!
# Reading digits as a float

`isRounded_ofScientific` says that digits with a point among them are rounded once, so that every
decimal around a float is read as this float, and `ofFloat_ofScientific` that none is read as a
float below zero.
-/

namespace Reckoner.Decimal.Binary64

open Float.Model (Format UnpackedFloat totalExponent)
open Float.Model.UnpackedFloat (Sign roundWithAccuracy packComponents divCore)

variable {x : Float} {g : Magnitude}

/-! ### Words of magnitudes -/

/-- The word of a finite float: below the hidden bit there is no exponent in it. -/
theorem word_cases {negative : Bool} (same : ofFloat x = .finite negative g) :
    ∃ fraction < 2 ^ 52,
      (x.toBits.toNat = negative.toNat * 2 ^ 63 + fraction ∧ g = ⟨fraction, -1074⟩) ∨
      ∃ biased, 0 < biased ∧ biased < 2047 ∧
        x.toBits.toNat = negative.toNat * 2 ^ 63 + biased * 2 ^ 52 + fraction ∧
        g = ⟨2 ^ 52 + fraction, (biased : Int) - 1075⟩ := by
  have word : x.toBits.toNat < 2 ^ 64 := x.toBits.toNat_lt
  unfold ofFloat ofBits at same
  dsimp only at same
  generalize x.toBits.toNat = bits at same word ⊢
  have fraction : bits % 2 ^ 52 < 2 ^ 52 := Nat.mod_lt _ (by decide)
  have sign : (decide (bits / 2 ^ 63 ≠ 0)).toNat = bits / 2 ^ 63 := by
    rcases (by omega : bits / 2 ^ 63 = 0 ∨ bits / 2 ^ 63 = 1) with same | same <;> rw [same] <;> rfl
  rw [Nat.shiftRight_eq_div_pow, Nat.shiftRight_eq_div_pow,
    show hiddenBit = 2 ^ 52 from rfl] at same
  refine ⟨bits % 2 ^ 52, fraction, ?_⟩
  split at same
  · split at same <;> cases same
  · split at same
    · cases same
      exact .inl ⟨by omega, rfl⟩
    · cases same
      exact .inr ⟨bits / 2 ^ 52 % 2 ^ 11, by omega, by omega, by omega, rfl⟩

theorem canonical_of_ofFloat {negative : Bool} (same : ofFloat x = .finite negative g) :
    g.Canonical := by
  obtain ⟨fraction, small, ⟨_, rfl⟩ | ⟨biased, some, less, _, rfl⟩⟩ := word_cases same
  · exact ⟨⟨by dsimp only; omega, by dsimp only; omega, by dsimp only; omega⟩, .inr rfl⟩
  · exact ⟨⟨by dsimp only; omega, by dsimp only; omega, by dsimp only; omega⟩,
      .inl (by dsimp only; omega)⟩

theorem toNat_packComponents (sign : Sign) (exponent : BitVec 11) (mantissa : BitVec 52) :
    (packComponents Format.binary64 sign exponent mantissa).toNat =
      sign.toBitVec.toNat * 2 ^ 63 + exponent.toNat * 2 ^ 52 + mantissa.toNat := by
  show (sign.toBitVec ++ exponent ++ mantissa).toNat = _
  rw [BitVec.toNat_append, ← Nat.shiftLeft_add_eq_or_of_lt mantissa.isLt, BitVec.toNat_append,
    ← Nat.shiftLeft_add_eq_or_of_lt exponent.isLt]
  simp only [Nat.shiftLeft_eq]
  omega

theorem toNat_pack_normal (sign : Sign) {m : Nat} {e : Int} (positive : 0 < m) (low : 2 ^ 52 ≤ m)
    (high : m < 2 ^ 53) (least : -1074 ≤ e) (greatest : e ≤ 971) :
    (UnpackedFloat.pack Format.binary64 (.finite sign m e positive)).toNat =
      sign.toBitVec.toNat * 2 ^ 63 + (e + 1075).toNat * 2 ^ 52 + (m - 2 ^ 52) := by
  rw [pack_full sign low high least greatest positive, toNat_packComponents, BitVec.toNat_ofNat,
    BitVec.toNat_ofNat]
  omega

theorem toNat_pack_subnormal (sign : Sign) {m : Nat} (positive : 0 < m) (high : m < 2 ^ 52) :
    (UnpackedFloat.pack Format.binary64 (.finite sign m (-1074) positive)).toNat =
      sign.toBitVec.toNat * 2 ^ 63 + m := by
  have biased : (-1074 + Format.binary64.exponentBias +
      Format.binary64.mantissaBitsWithoutImplicit : Int).toNat = 1 := rfl
  have inRange : ¬ 2 ^ Format.binary64.exponentBits ≤ 1 + 1 := by decide
  have width : ¬ m.log2 + 1 = Format.binary64.mantissaBits := by
    have short : m.log2 < 52 := (Nat.log2_lt positive.ne').2 high
    show ¬ m.log2 + 1 = 53
    omega
  simp only [UnpackedFloat.pack, biased, if_neg inRange, if_neg width]
  rw [toNat_packComponents, BitVec.toNat_ofNat, BitVec.toNat_ofNat]
  omega

theorem pack_of_ofFloat (same : ofFloat x = .finite false g) (positive : 0 < g.mantissa) :
    Float.ofModel (Float.Model.pack (.finite .positive g.mantissa g.exponent positive)) = x := by
  rw [← toNat_toBits_inj]
  show (UnpackedFloat.pack Format.binary64
    (.finite .positive g.mantissa g.exponent positive)).toNat = _
  have sign : Sign.positive.toBitVec.toNat = 0 := rfl
  obtain ⟨fraction, small, ⟨word, rfl⟩ | ⟨biased, some, less, word, rfl⟩⟩ := word_cases same
  · rw [word, toNat_pack_subnormal _ _ small, sign]
    rfl
  · rw [word, toNat_pack_normal _ _ (by dsimp only; omega) (by dsimp only; omega)
      (by dsimp only; omega) (by dsimp only; omega), sign]
    dsimp only [Bool.toNat_false]
    omega

theorem eq_zero_of_ofFloat (same : ofFloat x = .finite false g) (zero : g.mantissa = 0) :
    x = 0 := by
  rw [← toNat_toBits_inj, show (0 : Float).toBits.toNat = 0 from rfl]
  obtain ⟨fraction, small, ⟨word, rfl⟩ | ⟨biased, some, less, word, rfl⟩⟩ := word_cases same
  · rw [word, Bool.toNat_false]
    dsimp only at zero
    omega
  · dsimp only at zero
    omega

/-! ### One rounding -/

/-- The float that `x` is rounded to. -/
def IsRounded (x : ℚ) (y : Float) : Prop :=
  ∃ m e acc, Locates (.ofMantissaAndAccuracy m acc) (x / 2 ^ e) ∧
    e ≤ Format.binary64.targetExponent (totalExponent m e) ∧
    y = Float.ofModel (Float.Model.pack (roundWithAccuracy Format.binary64 .positive m e acc))

theorem isRounded_div {m₁ m₂ : Nat} (some₁ : 0 < m₁) (some₂ : 0 < m₂) (e₁ e₂ : Int) :
    IsRounded ((m₁ : ℚ) * 2 ^ e₁ / (m₂ * 2 ^ e₂)) (Float.ofModel (Float.Model.pack
      (UnpackedFloat.div Format.binary64 (.finite .positive m₁ e₁ some₁)
        (.finite .positive m₂ e₂ some₂)))) := by
  obtain ⟨located, room⟩ := located_divCore some₁ some₂ (rfl : _ = divCore _ _ e₁ _ e₂).symm
  exact ⟨_, _, _, located, room, rfl⟩

theorem unpack_toFloat_of_lt {v : Nat} (some : 0 < v) (small : v < 2 ^ 53) :
    ∃ positive, v.toUInt64.toFloat.toModel.unpack =
      .finite .positive (v * 2 ^ (52 - v.log2)) (-(52 - v.log2 : Nat)) positive := by
  have word : v.toUInt64.toNat = v := UInt64.toNat_ofNat_of_lt' (by
    show v < 2 ^ 64
    omega)
  have low := le_shifted some
  have high := shifted_lt ((Nat.log2_lt some.ne').2 small)
  have positive : 0 < v * 2 ^ (52 - v.log2) := by omega
  refine ⟨positive, ?_⟩
  rw [unpack_toFloat (some.trans_eq word.symm), word, round_of_narrow _ high (by omega) positive]
  exact unpack_pack _ low high (by omega) (by omega) positive

/-- Whether a power of ten, as a float, is the power itself. -/
def isTen (n : Nat) (x : Float) : Bool :=
  match x.toModel.unpack with
  | .finite .positive r f _ => -52 ≤ f && r * 2 ^ (f + 52).toNat = 10 ^ n * 2 ^ 52
  | _ => false

theorem isTen_of_exact :
    ∀ n : Fin 23, isTen n (Float.exactlyRepresentablePowersOfTen[n]) = true := by
  decide +kernel

/-- Few digits are a float over a power of ten that is one too. -/
theorem isRounded_of_few {v n : Nat} (some : 0 < v) (small : v < 2 ^ 53) (few : n < 23) :
    IsRounded (v / 10 ^ n)
      (v.toUInt64.toFloat / Float.exactlyRepresentablePowersOfTen[(⟨n, few⟩ : Fin 23)]) := by
  obtain ⟨positive, left⟩ := unpack_toFloat_of_lt some small
  have ten := isTen_of_exact ⟨n, few⟩
  generalize Float.exactlyRepresentablePowersOfTen[(⟨n, few⟩ : Fin 23)] = y at ten ⊢
  unfold isTen at ten
  split at ten
  · rename_i r f positive' right
    rw [Bool.and_eq_true, decide_eq_true_eq, decide_eq_true_eq] at ten
    rw [← value_shifted v (52 - v.log2), ← value_of_ten_pow ten.1 ten.2]
    show IsRounded _ (Float.ofModel (Float.Model.pack (UnpackedFloat.div Format.binary64
      v.toUInt64.toFloat.toModel.unpack y.toModel.unpack)))
    rw [left, right]
    exact isRounded_div positive positive' _ _
  · cases ten

theorem not_above_range (n : Nat) : ¬ Int.negOfNat n > 2 ^ Format.binary64.exponentBits := by
  rw [Int.negOfNat_eq]
  show ¬ -(n : Int) > 2048
  omega

theorem below_range_iff (v n : Nat) :
    Int.negOfNat n < -((2 ^ Format.binary64.exponentBits : Int) + v.log2) ↔
      2048 + v.log2 < n := by
  rw [Int.negOfNat_eq]
  show -(n : Int) < -(2048 + (v.log2 : Int)) ↔ _
  omega

/-- Digits with a point among them are rounded once. -/
theorem isRounded_ofScientific {v n : Nat} (some : 0 < v) (few : n ≤ 2048 + v.log2) :
    IsRounded (v / 10 ^ n) (Float.ofScientific v true n) := by
  unfold Float.ofScientific
  split
  · rename_i small
    exact isRounded_of_few some small.1 (by omega)
  have sign : Int.negOfNat n = -(n : Int) := Int.negOfNat_eq
  show IsRounded _ (Float.ofModel (Float.Model.pack
    (UnpackedFloat.ofScientific Format.binary64 v (Int.negOfNat n))))
  rw [UnpackedFloat.ofScientific, dif_neg some.ne', if_neg (not_above_range n),
    if_neg fun below => Nat.not_lt.2 few ((below_range_iff v n).1 below), sign]
  rcases Nat.eq_zero_or_pos n with rfl | behind
  · -- without a point there is nothing to divide by
    rw [if_pos (by decide)]
    have located := located_exact (v * 2 ^ 53) (-53)
    have value : ((v * 2 ^ 53 : Nat) : ℚ) * 2 ^ (-53 : Int) = v / 10 ^ 0 := by
      rw [pow_zero, div_one]
      exact value_shifted v 53
    have width : 53 ≤ (v * 2 ^ 53).log2 :=
      (Nat.le_log2 (by omega)).2 (Nat.le_mul_of_pos_left _ some)
    rw [value] at located
    refine ⟨v * 2 ^ 53, -53, .exact, located, ?_, ?_⟩
    · rw [targetExponent_eq, totalExponent]
      omega
    · have shifted : v <<< Format.binary64.mantissaBits * 10 ^ (-((0 : Nat) : Int)).toNat =
          v * 2 ^ 53 := (Nat.mul_one _).trans (Nat.shiftLeft_eq v 53)
      rw [← shifted]
      rfl
  · have least : ¬ 0 ≤ -(n : Int) := by omega
    rw [if_neg least]
    have ten : 0 < 10 ^ n := Nat.pow_pos (by decide)
    have quotient := isRounded_div some ten 0 0
    simpa using quotient

theorem covers_of_readsBack {d : Scaled} (h : g.readsBack d = true) :
    g.Covers (d.digits * 10 ^ d.power) := by
  have twos : (2 : ℚ) ^ (g.exponent - 2) * 2 ^ (2 - g.exponent).toNat =
      2 ^ (g.exponent - 2).toNat := by
    rw [← zpow_natCast, ← zpow_natCast, ← zpow_add₀ two_ne_zero]
    congr 1
    omega
  have tens : (10 : ℚ) ^ d.power * 10 ^ (-d.power).toNat = 10 ^ d.power.toNat := by
    rw [← zpow_natCast, ← zpow_natCast, ← zpow_add₀ (by norm_num)]
    congr 1
    omega
  have scale : (0 : ℚ) < 10 ^ (-d.power).toNat * 2 ^ (2 - g.exponent).toNat := by positivity
  have units : ((g.units d.power d.digits : Nat) : ℚ) = d.digits * 10 ^ d.power *
      (10 ^ (-d.power).toNat * 2 ^ (2 - g.exponent).toNat) := by
    unfold Magnitude.units
    simp only [Nat.pow_eq, Nat.cast_mul, Nat.cast_pow, Nat.cast_ofNat]
    rw [← tens]
    ring
  have quarters : ∀ n, ((g.quarters d.power n : Nat) : ℚ) = n * 2 ^ (g.exponent - 2) *
      (10 ^ (-d.power).toNat * 2 ^ (2 - g.exponent).toNat) := by
    intro n
    unfold Magnitude.quarters
    simp only [Nat.pow_eq, Nat.cast_mul, Nat.cast_pow, Nat.cast_ofNat]
    rw [← twos]
    ring
  unfold Magnitude.readsBack at h
  unfold Magnitude.Covers
  dsimp only at h
  split at h
  · rename_i even
    rw [Bool.and_eq_true, decide_eq_true_eq, decide_eq_true_eq] at h
    obtain ⟨low, high⟩ := h
    have low : ((_ : Nat) : ℚ) ≤ (_ : Nat) := Nat.cast_le.2 low
    have high : ((_ : Nat) : ℚ) ≤ (_ : Nat) := Nat.cast_le.2 high
    rw [units, quarters] at low high
    rw [if_pos even]
    exact ⟨le_of_mul_le_mul_right low scale, le_of_mul_le_mul_right high scale⟩
  · rename_i odd
    rw [Bool.and_eq_true, decide_eq_true_eq, decide_eq_true_eq] at h
    obtain ⟨low, high⟩ := h
    have low : ((_ : Nat) : ℚ) < (_ : Nat) := Nat.cast_lt.2 low
    have high : ((_ : Nat) : ℚ) < (_ : Nat) := Nat.cast_lt.2 high
    rw [units, quarters] at low high
    rw [if_neg odd]
    exact ⟨lt_of_mul_lt_mul_right low scale.le, lt_of_mul_lt_mul_right high scale.le⟩

/-- Without trailing zeros the shortest digits stand for the same number. -/
theorem covers_normal (positive : 0 < g.mantissa) (fits : g.Fits) (tie : Tie) :
    g.Covers (value (g.shortest tie).normal.1 * 10 ^ (g.shortest tie).normal.2) := by
  have covers := covers_of_readsBack (Magnitude.readsBack_shortest positive fits.mantissa tie)
  obtain ⟨n, digits, power⟩ := (g.shortest tie).value_normal
  rw [power, zpow_add₀ (by norm_num), zpow_natCast]
  rw [digits] at covers
  push_cast at covers
  convert covers using 1
  ring

/-- A float is read from the digits around it. -/
theorem eq_of_isRounded (same : ofFloat x = .finite false g) (positive : 0 < g.mantissa) {q : ℚ}
    (covers : g.Covers q) {y : Float} (rounded : IsRounded q y) : y = x := by
  obtain ⟨m, e, acc, located, room, rfl⟩ := rounded
  rw [round_of_covers positive (canonical_of_ofFloat same) covers located room]
  exact pack_of_ofFloat same positive

/-! ### Signs -/

theorem toNat_packComponents_positive (exponent : BitVec 11) (mantissa : BitVec 52) :
    (packComponents Format.binary64 .positive exponent mantissa).toNat < 2 ^ 63 := by
  have sign : Sign.positive.toBitVec.toNat = 0 := rfl
  have high := exponent.isLt
  have low := mantissa.isLt
  rw [toNat_packComponents, sign]
  omega

theorem toNat_pack_positive {m : Nat} (e : Int) (positive : 0 < m) :
    (UnpackedFloat.pack Format.binary64 (.finite .positive m e positive)).toNat < 2 ^ 63 := by
  unfold UnpackedFloat.pack
  dsimp only
  split
  · exact toNat_packComponents_positive _ _
  · split <;> exact toNat_packComponents_positive _ _

theorem IsRounded.toNat_toBits_lt {q : ℚ} (h : IsRounded q x) : x.toBits.toNat < 2 ^ 63 := by
  obtain ⟨m, e, acc, _, _, rfl⟩ := h
  show (UnpackedFloat.pack Format.binary64
    (roundWithAccuracy Format.binary64 .positive m e acc)).toNat < 2 ^ 63
  unfold roundWithAccuracy
  dsimp only
  split
  · exact toNat_packComponents_positive _ _
  · exact toNat_pack_positive _ _

theorem toBits_zero_div :
    ∀ n : Fin 23, ((0 : Nat).toUInt64.toFloat / Float.exactlyRepresentablePowersOfTen[n]).toBits
      = 0 := by
  decide +kernel

theorem ofScientific_zero (n : Nat) : Float.ofScientific 0 true n = 0 := by
  unfold Float.ofScientific
  split
  · rename_i small
    rw [← toNat_toBits_inj]
    exact congrArg UInt64.toNat (toBits_zero_div ⟨n, by omega⟩)
  · show Float.ofModel (Float.Model.pack
      (UnpackedFloat.ofScientific Format.binary64 0 (Int.negOfNat n))) = 0
    rw [UnpackedFloat.ofScientific, dif_pos rfl]
    rfl

theorem ofScientific_of_many {v n : Nat} (some : 0 < v) (many : 2048 + v.log2 < n) :
    Float.ofScientific v true n = 0 := by
  unfold Float.ofScientific
  rw [dif_neg (by omega)]
  show Float.ofModel (Float.Model.pack
    (UnpackedFloat.ofScientific Format.binary64 v (Int.negOfNat n))) = 0
  rw [UnpackedFloat.ofScientific, dif_neg some.ne', if_neg (not_above_range n),
    if_pos ((below_range_iff v n).2 many)]
  rfl

theorem ofFloat_ofScientific (v n : Nat) (g : Magnitude) :
    ofFloat (Float.ofScientific v true n) ≠ .finite true g := by
  have word : (Float.ofScientific v true n).toBits.toNat < 2 ^ 63 := by
    rcases Nat.eq_zero_or_pos v with rfl | some
    · rw [ofScientific_zero]
      decide
    · rcases Nat.lt_or_ge (2048 + v.log2) n with many | few
      · rw [ofScientific_of_many some many]
        decide
      · exact (isRounded_ofScientific some few).toNat_toBits_lt
  intro same
  obtain ⟨fraction, small, ⟨bits, _⟩ | ⟨biased, _, _, bits, _⟩⟩ := word_cases same <;>
    rw [Bool.toNat_true] at bits <;> omega

end Reckoner.Decimal.Binary64
