import Reckoner.Proofs.Decimal.Rounding
import Reckoner.Proofs.Decimal.Shortest

/-!
# Rounding to the nearest

A mantissa with its round bit and its sticky bit says where a number lies between two whole ones.
`round_of_covers` says that all numbers around a magnitude are rounded to it.
-/

namespace Reckoner.Decimal

/-! ### Around a magnitude -/

namespace Magnitude

/-- The numbers that `readsBack` takes for the magnitude. -/
def Covers (m : Magnitude) (x : ℚ) : Prop :=
  if m.mantissa % 2 = 0 then
    m.lower * 2 ^ (m.exponent - 2) ≤ x ∧ x ≤ m.upper * 2 ^ (m.exponent - 2)
  else m.lower * 2 ^ (m.exponent - 2) < x ∧ x < m.upper * 2 ^ (m.exponent - 2)

/-- What a word can hold, with as many bits in the mantissa as there can be. -/
structure Canonical (m : Magnitude) : Prop extends m.Fits where
  normal : 2 ^ 52 ≤ m.mantissa ∨ m.exponent = -1074

variable {m : Magnitude} {x : ℚ}

theorem Covers.bounds (h : m.Covers x) :
    m.lower * 2 ^ (m.exponent - 2) ≤ x ∧ x ≤ m.upper * 2 ^ (m.exponent - 2) := by
  unfold Covers at h
  split at h
  · exact h
  · exact ⟨h.1.le, h.2.le⟩

theorem lower_cases (m : Magnitude) :
    m.lower = 4 * m.mantissa - 2 ∨
      m.lower = 4 * m.mantissa - 1 ∧ m.mantissa = 2 ^ 52 ∧ m.exponent ≠ -1074 := by
  unfold lower
  split
  · rename_i h
    exact .inr ⟨rfl, h⟩
  · exact .inl rfl

/-- A power of two in quarters of the last place. -/
theorem zpow_eq_quarters (m : Magnitude) {k : Int} {n : Nat} (h : k = m.exponent - 2 + n) :
    (2 : ℚ) ^ k = (2 ^ n : Nat) * 2 ^ (m.exponent - 2) := by
  rw [h, zpow_add₀ two_ne_zero, zpow_natCast, mul_comm]
  push_cast
  rfl

theorem Covers.lt_two_pow (h : m.Covers x) (fits : m.Fits) : x < 2 ^ (m.exponent + 53) := by
  have mantissa := fits.mantissa
  have quarters : m.upper < 2 ^ 55 := by
    unfold upper
    omega
  rw [m.zpow_eq_quarters (n := 55) (by omega)]
  calc x ≤ m.upper * 2 ^ (m.exponent - 2) := h.bounds.2
    _ < (2 ^ 55 : Nat) * 2 ^ (m.exponent - 2) := by gcongr

theorem Covers.two_pow_le (h : m.Covers x) (normal : 2 ^ 52 ≤ m.mantissa) :
    2 ^ (m.exponent + 51) ≤ x := by
  have quarters : 2 ^ 53 ≤ m.lower := by
    have := m.lower_cases
    omega
  rw [m.zpow_eq_quarters (n := 53) (by omega)]
  calc ((2 ^ 53 : Nat) : ℚ) * 2 ^ (m.exponent - 2) ≤ m.lower * 2 ^ (m.exponent - 2) := by gcongr
    _ ≤ x := h.bounds.1

/-- Only the numbers around a power of two reach below it. -/
theorem Covers.mantissa_eq (h : m.Covers x) (normal : 2 ^ 52 ≤ m.mantissa)
    (below : x < 2 ^ (m.exponent + 52)) : m.mantissa = 2 ^ 52 := by
  rw [m.zpow_eq_quarters (n := 54) (by omega)] at below
  have quarters : (m.lower : ℚ) < (2 ^ 54 : Nat) :=
    lt_of_mul_lt_mul_right (h.bounds.1.trans_lt below) (by positivity)
  have lower : m.lower < 2 ^ 54 := by exact_mod_cast quarters
  have := m.lower_cases
  omega

end Magnitude

namespace Binary64

open Float.Model (Format totalExponent)
open Float.Model.UnpackedFloat (ExtendedMantissa Sign Accuracy roundWithAccuracy
  shiftToTargetExponent shiftToExponent accuracyOfFraction divCore)

variable {em : ExtendedMantissa} {x : ℚ}

/-! ### Between two whole numbers -/

/-- Where a number lies that was cut down to a mantissa and these two bits. -/
def Locates : ExtendedMantissa → ℚ → Prop
  | ⟨m, false, false⟩, x => x = m
  | ⟨m, false, true⟩, x => m < x ∧ x < m + 1 / 2
  | ⟨m, true, false⟩, x => x = m + 1 / 2
  | ⟨m, true, true⟩, x => m + 1 / 2 < x ∧ x < m + 1

theorem locates_fraction (num : Nat) {den : Nat} (positive : 0 < den) :
    Locates (.ofMantissaAndAccuracy (num / den) (accuracyOfFraction (num % den) den))
      (num / den) := by
  have denominator : (0 : ℚ) < den := by exact_mod_cast positive
  have rest : num % den < den := Nat.mod_lt _ positive
  have value : (num : ℚ) / den = (num / den : Nat) + (num % den : Nat) / den := by
    rw [div_eq_iff denominator.ne', add_mul, div_mul_cancel₀ _ denominator.ne']
    exact_mod_cast (Nat.div_add_mod' num den).symm
  rw [value]
  generalize num / den = q
  generalize num % den = r at rest ⊢
  unfold accuracyOfFraction
  split
  · rename_i none
    simp [none, Locates, ExtendedMantissa.ofMantissaAndAccuracy]
  · rename_i some
    have above : (0 : ℚ) < r / den := by
      have : 0 < r := Nat.pos_of_ne_zero some
      positivity
    have below : (r : ℚ) / den < 1 := by
      rw [div_lt_one denominator]
      exact_mod_cast rest
    rcases Nat.lt_trichotomy (2 * r) den with less | same | more
    · have half : (r : ℚ) / den < 1 / 2 := by
        rw [div_lt_div_iff₀ denominator two_pos]
        exact_mod_cast (by omega : r * 2 < 1 * den)
      rw [Nat.compare_eq_lt.2 less]
      exact ⟨by linarith, by linarith⟩
    · have half : (r : ℚ) / den = 1 / 2 := by
        rw [div_eq_div_iff denominator.ne' two_ne_zero]
        exact_mod_cast (by omega : r * 2 = 1 * den)
      rw [Nat.compare_eq_eq.2 same]
      exact congrArg _ half
    · have half : (1 : ℚ) / 2 < r / den := by
        rw [div_lt_div_iff₀ two_pos denominator]
        exact_mod_cast (by omega : 1 * den < r * 2)
      rw [Nat.compare_eq_gt.2 more]
      exact ⟨by linarith, by linarith⟩

theorem Locates.bounds (h : Locates em x) : em.mantissa ≤ x ∧ x < em.mantissa + 1 := by
  obtain ⟨m, roundBit, stickyBit⟩ := em
  cases roundBit <;> cases stickyBit <;> simp only [Locates] at h ⊢ <;> constructor <;> linarith

theorem Locates.shiftRightOne (h : Locates em x) : Locates em.shiftRightOne (x / 2) := by
  obtain ⟨m, roundBit, stickyBit⟩ := em
  have whole : (m : ℚ) = 2 * (m / 2 : Nat) + (m % 2 : Nat) := by
    exact_mod_cast (Nat.div_add_mod m 2).symm
  rcases Nat.mod_two_eq_zero_or_one m with even | odd
  · rw [even] at whole
    push_cast at whole
    cases roundBit <;> cases stickyBit <;>
      simp only [Locates, ExtendedMantissa.shiftRightOne, even] at h ⊢ <;> grind
  · rw [odd] at whole
    push_cast at whole
    cases roundBit <;> cases stickyBit <;>
      simp only [Locates, ExtendedMantissa.shiftRightOne, odd] at h ⊢ <;> grind

theorem Locates.shiftRight (h : Locates em x) (n : Nat) : Locates (em >>> n) (x / 2 ^ n) := by
  induction n with
  | zero =>
    rw [pow_zero, div_one]
    exact h
  | succ n ih =>
    rw [pow_succ, ← div_div]
    exact ih.shiftRightOne

/-- Nearer to `r` than to any other whole number, or in the middle and `r` is even. -/
def GoesTo (x : ℚ) (r : Nat) : Prop :=
  if r % 2 = 0 then r - 1 / 2 ≤ x ∧ x ≤ r + 1 / 2 else r - 1 / 2 < x ∧ x < r + 1 / 2

theorem GoesTo.bounds {r : Nat} (h : GoesTo x r) : r - 1 / 2 ≤ x ∧ x ≤ r + 1 / 2 := by
  unfold GoesTo at h
  split at h <;> constructor <;> linarith

theorem GoesTo.even_of_middle {r m : Nat} (h : GoesTo x r) (middle : x = m + 1 / 2) :
    r % 2 = 0 := by
  unfold GoesTo at h
  split at h
  · assumption
  · have above : (r : ℚ) < m + 1 := by linarith
    have below : (m : ℚ) < r := by linarith
    have above : r < m + 1 := by exact_mod_cast above
    have below : m < r := by exact_mod_cast below
    omega

theorem Locates.roundedMantissa {r : Nat} (h : Locates em x) (nearest : GoesTo x r) :
    em.roundedMantissa = r := by
  obtain ⟨low, high⟩ := nearest.bounds
  have same : ∀ n : Nat, (n : ℚ) - 1 < r → (r : ℚ) < n + 1 → n = r := by
    intro n above below
    have above : n < r + 1 := by exact_mod_cast (by linarith : (n : ℚ) < r + 1)
    have below : r < n + 1 := by exact_mod_cast below
    omega
  obtain ⟨m, roundBit, stickyBit⟩ := em
  cases roundBit <;> cases stickyBit
  · subst h
    exact same m (by linarith) (by linarith)
  · exact same m (by linarith [h.1]) (by linarith [h.2])
  · -- in the middle, the even neighbour is taken on both sides
    have even := nearest.even_of_middle h
    have next := Nat.mod_two_eq_zero_or_one m
    show m + m % 2 = r
    subst h
    have above : (m : ℚ) ≤ r := by linarith
    have below : (r : ℚ) ≤ m + 1 := by linarith
    have above : m ≤ r := by exact_mod_cast above
    have below : r ≤ m + 1 := by exact_mod_cast below
    omega
  · exact same (m + 1) (by push_cast; linarith [h.1]) (by push_cast; linarith [h.2])

/-! ### Exponents -/

theorem targetExponent_eq (t : Int) :
    Format.binary64.targetExponent t = max (t - 53) (-1074) := rfl

theorem shiftToTargetExponent_of_narrow {m : Nat} {e : Int} (narrow : m < 2 ^ 53)
    (least : -1074 ≤ e) :
    shiftToTargetExponent Format.binary64 m e .exact = (⟨m, false, false⟩, e) := by
  have width : m.log2 ≤ 52 := by
    rcases Nat.eq_zero_or_pos m with rfl | positive
    · decide
    · exact Nat.le_of_lt_succ ((Nat.log2_lt positive.ne').2 narrow)
  have amount : (Format.binary64.targetExponent (totalExponent m e) - e).toNat = 0 := by
    rw [targetExponent_eq, totalExponent]
    omega
  simp only [shiftToTargetExponent, shiftToExponent, amount, Nat.cast_zero, Int.add_zero]
  rfl

theorem round_of_narrow (sign : Sign) {m : Nat} {e : Int} (narrow : m < 2 ^ 53)
    (least : -1074 ≤ e) (positive : 0 < m) :
    roundWithAccuracy Format.binary64 sign m e .exact = .finite sign m e positive := by
  have once := shiftToTargetExponent_of_narrow narrow least
  have whole : ExtendedMantissa.roundedMantissa ⟨m, false, false⟩ = m := rfl
  unfold roundWithAccuracy
  simp only [once, whole]
  exact dif_neg positive.ne'

theorem mantissa_ofMantissaAndAccuracy (m : Nat) (acc : Accuracy) :
    (ExtendedMantissa.ofMantissaAndAccuracy m acc).mantissa = m := by
  unfold ExtendedMantissa.ofMantissaAndAccuracy
  split <;> rfl

section Located

variable {m : Nat} {e : Int} {acc : Accuracy}

theorem Locates.scaled (h : Locates (.ofMantissaAndAccuracy m acc) (x / 2 ^ e)) :
    m * 2 ^ e ≤ x ∧ x < (m + 1) * 2 ^ e := by
  obtain ⟨low, high⟩ := h.bounds
  rw [mantissa_ofMantissaAndAccuracy] at low high
  rw [le_div_iff₀ (by positivity)] at low
  rw [div_lt_iff₀ (by positivity)] at high
  exact ⟨low, high⟩

theorem Locates.lt_two_pow (h : Locates (.ofMantissaAndAccuracy m acc) (x / 2 ^ e)) :
    x < 2 ^ totalExponent m e := by
  have width : ((m + 1 : Nat) : ℚ) ≤ (2 ^ (m.log2 + 1) : Nat) := by
    exact_mod_cast Nat.lt_log2_self
  calc x < (m + 1) * 2 ^ e := h.scaled.2
    _ ≤ 2 ^ (m.log2 + 1) * 2 ^ e := by
        gcongr
        exact_mod_cast width
    _ = 2 ^ totalExponent m e := by
        rw [totalExponent, zpow_add₀ two_ne_zero, ← zpow_natCast]
        rfl

theorem Locates.two_pow_le (h : Locates (.ofMantissaAndAccuracy m acc) (x / 2 ^ e))
    (some : 0 < m) : 2 ^ (totalExponent m e - 1) ≤ x := by
  have width : ((2 ^ m.log2 : Nat) : ℚ) ≤ m := by
    exact_mod_cast Nat.log2_self_le some.ne'
  calc (2 : ℚ) ^ (totalExponent m e - 1)
      = 2 ^ m.log2 * 2 ^ e := by
        rw [totalExponent, ← zpow_natCast, ← zpow_add₀ two_ne_zero]
        congr 1
        omega
    _ ≤ m * 2 ^ e := by
        gcongr
        exact_mod_cast width
    _ ≤ x := h.scaled.1

/-- Both cuts of a rounding: the number goes to `r`, and a carry into a 54th bit is cut off. -/
theorem Locates.round {r c : Nat} {t f : Int}
    (h : Locates (.ofMantissaAndAccuracy m acc) (x / 2 ^ e)) (room : e ≤ t)
    (target : Format.binary64.targetExponent (totalExponent m e) = t)
    (nearest : GoesTo (x / 2 ^ t) r) {last : ExtendedMantissa}
    (settled : shiftToTargetExponent Format.binary64 r t .exact = (last, f))
    (kept : last.mantissa = c) (sign : Sign) (positive : 0 < c) :
    roundWithAccuracy Format.binary64 sign m e acc = .finite sign c f positive := by
  obtain ⟨n, rfl⟩ : ∃ n : Nat, t = e + n := ⟨(t - e).toNat, by omega⟩
  have amount : (e + n - e).toNat = n := by omega
  have first : shiftToTargetExponent Format.binary64 m e acc =
      (ExtendedMantissa.ofMantissaAndAccuracy m acc >>> n, e + n) := by
    simp only [shiftToTargetExponent, shiftToExponent, target, amount]
  have rounded : (ExtendedMantissa.ofMantissaAndAccuracy m acc >>> n).roundedMantissa = r := by
    apply (h.shiftRight n).roundedMantissa
    rw [div_div, ← zpow_natCast, ← zpow_add₀ two_ne_zero]
    exact nearest
  unfold roundWithAccuracy
  simp only [first, rounded, settled, kept]
  exact dif_neg positive.ne'

end Located

/-! ### Magnitudes -/

section Covers

variable {g : Magnitude} {m : Nat} {e : Int} {acc : Accuracy}

theorem target_cases (canonical : g.Canonical) (covers : g.Covers x)
    (located : Locates (.ofMantissaAndAccuracy m acc) (x / 2 ^ e))
    (room : e ≤ Format.binary64.targetExponent (totalExponent m e)) :
    Format.binary64.targetExponent (totalExponent m e) = g.exponent ∨
      g.mantissa = 2 ^ 52 ∧ -1074 < g.exponent ∧ x < 2 ^ (g.exponent + 52) ∧
        Format.binary64.targetExponent (totalExponent m e) = g.exponent - 1 := by
  have least := canonical.low
  have order : ∀ {a b : Int}, (2 : ℚ) ^ a < 2 ^ b → a < b :=
    fun h => (zpow_lt_zpow_iff_right₀ one_lt_two).1 h
  have above := located.lt_two_pow
  have below := covers.lt_two_pow canonical.toFits
  rw [targetExponent_eq] at room ⊢
  rcases Nat.eq_zero_or_pos m with rfl | some
  · -- less than one unit is left, so there was no more room below
    have width : totalExponent 0 e = 1 + e := rfl
    left
    rcases canonical.normal with normal | subnormal
    · have low := order ((covers.two_pow_le normal).trans_lt above)
      omega
    · omega
  have high := order ((located.two_pow_le some).trans_lt below)
  by_cases subnormal : g.exponent = -1074
  · left
    omega
  have normal := canonical.normal.resolve_right subnormal
  have low := order ((covers.two_pow_le normal).trans_lt above)
  rcases lt_or_ge x (2 ^ (g.exponent + 52)) with less | more
  · have high := order ((located.two_pow_le some).trans_lt less)
    exact .inr ⟨covers.mantissa_eq normal less, by omega, less, by omega⟩
  · have low := order (more.trans_lt above)
    left
    omega

theorem goesTo_of_covers (positive : 0 < g.mantissa) (covers : g.Covers x) :
    GoesTo (x / 2 ^ g.exponent) g.mantissa := by
  have unit : (0 : ℚ) < 2 ^ (g.exponent - 2) := by positivity
  have low : (4 * g.mantissa - 2 : ℚ) * 2 ^ (g.exponent - 2) ≤ g.lower * 2 ^ (g.exponent - 2) := by
    gcongr
    have := g.lower_cases
    have whole : 4 * g.mantissa ≤ g.lower + 2 := by omega
    have : (4 * g.mantissa : ℚ) ≤ g.lower + 2 := by exact_mod_cast whole
    linarith
  have high : (g.upper : ℚ) = 4 * g.mantissa + 2 := by
    unfold Magnitude.upper
    push_cast
    rfl
  unfold GoesTo
  unfold Magnitude.Covers at covers
  rw [high] at covers
  rw [g.zpow_eq_quarters (k := g.exponent) (n := 2) (by omega)]
  split at covers
  · rename_i even
    rw [if_pos even, le_div_iff₀ (by positivity), div_le_iff₀ (by positivity)]
    push_cast
    constructor <;> linarith
  · rename_i odd
    rw [if_neg odd, lt_div_iff₀ (by positivity), div_lt_iff₀ (by positivity)]
    push_cast
    constructor <;> linarith

/-- Below a power of two the numbers are twice as close, and the last of them is rounded up. -/
theorem goesTo_of_below (power : g.mantissa = 2 ^ 52) (least : -1074 < g.exponent)
    (covers : g.Covers x) (below : x < 2 ^ (g.exponent + 52)) :
    GoesTo (x / 2 ^ (g.exponent - 1)) (2 ^ 53) := by
  have lower : g.lower = 2 ^ 54 - 1 := by
    unfold Magnitude.lower
    rw [if_pos ⟨power, least.ne'⟩, power]
    decide
  have low := covers.bounds.1
  rw [lower] at low
  rw [g.zpow_eq_quarters (n := 54) (by omega)] at below
  unfold GoesTo
  rw [if_pos (by decide), g.zpow_eq_quarters (k := g.exponent - 1) (n := 1) (by omega),
    le_div_iff₀ (by positivity), div_le_iff₀ (by positivity)]
  push_cast at low below ⊢
  have unit : (0 : ℚ) < 2 ^ (g.exponent - 2) := by positivity
  constructor <;> linarith

/-- A number that a magnitude covers is rounded to it. -/
theorem round_of_covers (positive : 0 < g.mantissa) (canonical : g.Canonical) (covers : g.Covers x)
    (located : Locates (.ofMantissaAndAccuracy m acc) (x / 2 ^ e))
    (room : e ≤ Format.binary64.targetExponent (totalExponent m e)) (sign : Sign) :
    roundWithAccuracy Format.binary64 sign m e acc =
      .finite sign g.mantissa g.exponent positive := by
  rcases target_cases canonical covers located room with
    target | ⟨power, least, below, target⟩
  · exact located.round (target ▸ room) target (goesTo_of_covers positive covers)
      (shiftToTargetExponent_of_narrow canonical.mantissa canonical.low) rfl sign positive
  · have carry := shiftToTargetExponent_of_log2 (m := 2 ^ 53) (k := 1) (e := g.exponent - 1)
      (Nat.log2_two_pow) (by omega)
    have back : g.exponent - 1 + (1 : Nat) = g.exponent := by omega
    rw [back] at carry
    refine located.round (target ▸ room) target (goesTo_of_below power least covers below) carry
      ?_ sign positive
    rw [mantissa_cut, power]
    decide

theorem located_exact (m : Nat) (e : Int) :
    Locates (.ofMantissaAndAccuracy m .exact) ((m : ℚ) * 2 ^ e / 2 ^ e) :=
  mul_div_cancel_right₀ (m : ℚ) (by positivity)

/-! ### Quotients -/

variable {m₁ m₂ : Nat} {e₁ e₂ : Int}

/-- A quotient is cut where enough of its bits are left to round it. -/
theorem located_divCore (positive : 0 < m₁) (divisor : 0 < m₂)
    (cut : divCore Format.binary64 m₁ e₁ m₂ e₂ = (m, e, acc)) :
    Locates (.ofMantissaAndAccuracy m acc) ((m₁ : ℚ) * 2 ^ e₁ / (m₂ * 2 ^ e₂) / 2 ^ e) ∧
      e ≤ Format.binary64.targetExponent (totalExponent m e) := by
  have width₁ := (located_exact m₁ e₁).two_pow_le positive
  have width₂ := (located_exact m₂ e₂).lt_two_pow
  simp only [divCore, Prod.mk.injEq] at cut
  obtain ⟨rfl, least, rfl⟩ := cut
  rw [least]
  have room : e ≤ e₁ - e₂ := by omega
  obtain ⟨n, amount⟩ : ∃ n : Nat, e₁ - e₂ - e = n := ⟨(e₁ - e₂ - e).toNat, by omega⟩
  rw [amount, Int.toNat_natCast, Nat.shiftLeft_eq]
  have scaled : (m₁ : ℚ) * 2 ^ e₁ / (m₂ * 2 ^ e₂) / 2 ^ e = (m₁ * 2 ^ n : Nat) / m₂ := by
    have powers : (2 : ℚ) ^ e₁ = 2 ^ e₂ * 2 ^ e * 2 ^ n := by
      rw [← zpow_natCast, ← zpow_add₀ two_ne_zero, ← zpow_add₀ two_ne_zero]
      congr 1
      omega
    rw [powers]
    push_cast
    field_simp
  have located := locates_fraction (m₁ * 2 ^ n) divisor
  rw [← scaled] at located
  refine ⟨located, ?_⟩
  have above := located.lt_two_pow
  have below : (2 : ℚ) ^ (totalExponent m₁ e₁ - 1 - totalExponent m₂ e₂) <
      m₁ * 2 ^ e₁ / (m₂ * 2 ^ e₂) := by
    rw [zpow_sub₀ two_ne_zero]
    exact div_lt_div₀' width₁ width₂ (by positivity) (by positivity)
  have width := zpow_lt_zpow_iff_right₀ one_lt_two |>.1 (below.trans above)
  rw [targetExponent_eq] at least ⊢
  omega

end Covers

end Binary64

end Reckoner.Decimal
