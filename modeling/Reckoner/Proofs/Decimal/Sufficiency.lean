import Reckoner.Proofs.Decimal.Shortest

/-!
# Seventeen digits are enough

The numbers that round to a value reach further than the grid of its seventeenth digit is wide, so
one of the neighbours on that grid is among them. `readsBack_shortest` says that the shortest digits
always read back.
-/

namespace Reckoner.Decimal.Magnitude

variable {m : Magnitude} {tie : Tie} {power : Int}

/-- The value does not lie below the power of ten of its first digit. -/
theorem leadingPower_le (positive : 0 < m.mantissa) :
    m.denominator * 10 ^ m.leadingPower.toNat ≤ m.numerator * 10 ^ (-m.leadingPower).toNat := by
  set a := (Nat.toDigits 10 m.numerator).length with ha
  set b := (Nat.toDigits 10 m.denominator).length with hb
  have aPos : 0 < a := Nat.length_toDigits_pos
  have bPos : 0 < b := Nat.length_toDigits_pos
  have above : m.denominator < 10 ^ b := lt_ten_pow_length _
  have below : 10 ^ (a - 1) ≤ m.numerator :=
    ten_pow_length_le (Nat.mul_pos positive (Nat.two_pow_pos _))
  have leading : m.leadingPower =
      if m.denominator * 10 ^ ((a : Int) - b).toNat ≤ m.numerator * 10 ^ (-((a : Int) - b)).toNat
      then (a : Int) - b else (a : Int) - b - 1 := rfl
  rw [leading]
  split
  · assumption
  · calc m.denominator * 10 ^ ((a : Int) - b - 1).toNat
        ≤ 10 ^ b * 10 ^ ((a : Int) - b - 1).toNat := Nat.mul_le_mul_right _ (Nat.le_of_lt above)
      _ = 10 ^ (a - 1) * 10 ^ (-((a : Int) - b - 1)).toNat := by
          rw [← pow_add, ← pow_add]
          congr 1
          omega
      _ ≤ m.numerator * 10 ^ (-((a : Int) - b - 1)).toNat := Nat.mul_le_mul_right _ below

/-- On the grid that is so many digits below the first one, the value has no fewer digits. -/
theorem le_below (positive : 0 < m.mantissa) (k : Nat) :
    10 ^ k * m.units (m.leadingPower - k) 1 ≤ m.quarters (m.leadingPower - k) m.center := by
  have bound := leadingPower_le positive
  generalize m.leadingPower = l at bound ⊢
  unfold numerator denominator at bound
  unfold quarters units center
  simp only [Nat.pow_eq, Nat.one_mul]
  apply Nat.le_of_mul_le_mul_right (c := 2 ^ (-m.exponent).toNat * 10 ^ l.toNat) _ (by positivity)
  have twos : 4 * 2 ^ (m.exponent - 2).toNat * 2 ^ (-m.exponent).toNat =
      2 ^ m.exponent.toNat * 2 ^ (2 - m.exponent).toNat := by
    rw [show 4 = 2 ^ 2 from rfl, ← pow_add, ← pow_add, ← pow_add]
    congr 1
    omega
  have tens : 10 ^ (-(l - k)).toNat * 10 ^ l.toNat =
      10 ^ k * 10 ^ (l - k).toNat * 10 ^ (-l).toNat := by
    rw [← pow_add, ← pow_add, ← pow_add]
    congr 1
    omega
  calc 10 ^ k * (10 ^ (l - k).toNat * 2 ^ (2 - m.exponent).toNat)
        * (2 ^ (-m.exponent).toNat * 10 ^ l.toNat)
      = 2 ^ (-m.exponent).toNat * 10 ^ l.toNat
        * (10 ^ k * 10 ^ (l - k).toNat * 2 ^ (2 - m.exponent).toNat) := by ring
    _ ≤ m.mantissa * 2 ^ m.exponent.toNat * 10 ^ (-l).toNat
        * (10 ^ k * 10 ^ (l - k).toNat * 2 ^ (2 - m.exponent).toNat) :=
          Nat.mul_le_mul_right _ bound
    _ = m.mantissa * (2 ^ m.exponent.toNat * 2 ^ (2 - m.exponent).toNat)
        * (10 ^ k * 10 ^ (l - k).toNat * 10 ^ (-l).toNat) := by ring
    _ = 4 * m.mantissa * 2 ^ (m.exponent - 2).toNat * 10 ^ (-(l - k)).toNat
        * (2 ^ (-m.exponent).toNat * 10 ^ l.toNat) := by
          rw [← twos, ← tens]
          ring

/-! ### Grids -/

theorem units_eq (m : Magnitude) (power : Int) (c : Nat) :
    m.units power c = c * m.units power 1 := by
  unfold units
  ring

theorem quarters_eq (m : Magnitude) (power : Int) (x : Nat) :
    m.quarters power x = x * m.quarters power 1 := by
  unfold quarters
  ring

theorem readsBack_of_inside {digits : Nat}
    (low : m.quarters power m.lower < digits * m.units power 1)
    (high : digits * m.units power 1 < m.quarters power m.upper) :
    m.readsBack ⟨digits, power⟩ = true := by
  unfold readsBack
  dsimp only
  rw [units_eq]
  split <;> simp <;> omega

theorem select_of_readsBack
    (offered : m.readsBack ⟨m.quarters power m.center / m.units power 1, power⟩ = true ∨
      m.readsBack ⟨m.quarters power m.center / m.units power 1 + 1, power⟩ = true) :
    m.select tie power ≠ none := by
  unfold select
  dsimp only
  split
  · exact Option.some_ne_none _
  · exact Option.some_ne_none _
  · rename_i down up
    rw [down, up] at offered
    exact absurd offered (by decide)
  · -- both are offered, and the nearer one is taken
    repeat' split
    all_goals exact Option.some_ne_none _

/-- A grid narrower than the numbers that round to the value reach has one of them. -/
theorem select_of_narrow (positive : 0 < m.mantissa)
    (narrow : m.units power 1 + m.quarters power m.lower < m.quarters power m.upper) :
    m.select tie power ≠ none := by
  have unit : 0 < m.units power 1 ∧ 0 < m.quarters power 1 := by
    unfold units quarters
    simp only [Nat.pow_eq]
    constructor <;> positivity
  have lower : m.quarters power m.lower < m.quarters power m.center := by
    rw [quarters_eq, quarters_eq m power m.center]
    apply Nat.mul_lt_mul_of_pos_right _ unit.2
    unfold Magnitude.lower center
    split <;> omega
  have upper : m.quarters power m.center < m.quarters power m.upper := by
    rw [quarters_eq, quarters_eq m power m.upper]
    apply Nat.mul_lt_mul_of_pos_right _ unit.2
    unfold Magnitude.upper center
    omega
  have down := Nat.div_mul_le_self (m.quarters power m.center) (m.units power 1)
  have up := (Nat.div_lt_iff_lt_mul unit.1).1
    (Nat.lt_succ_self (m.quarters power m.center / m.units power 1))
  apply select_of_readsBack
  generalize m.quarters power m.center / m.units power 1 = below at down up ⊢
  rw [Nat.succ_eq_add_one, Nat.add_mul, Nat.one_mul] at up
  by_cases inside : m.quarters power m.lower < below * m.units power 1
  · exact .inl (readsBack_of_inside inside (by omega))
  · refine .inr (readsBack_of_inside ?_ ?_)
    · rw [Nat.add_mul, Nat.one_mul]
      omega
    · rw [Nat.add_mul, Nat.one_mul]
      omega

/-- The grid of the seventeenth digit is narrow enough for a mantissa of 53 bits. -/
theorem select_seventeenth (positive : 0 < m.mantissa) (small : m.mantissa < 2 ^ 53) :
    m.select tie (m.leadingPower - 16) ≠ none := by
  have many : 10 ^ 16 * m.units (m.leadingPower - 16) 1 ≤
      m.quarters (m.leadingPower - 16) m.center := le_below positive 16
  have unit : 0 < m.quarters (m.leadingPower - 16) 1 := by
    unfold quarters
    simp only [Nat.pow_eq]
    positivity
  apply select_of_narrow positive
  generalize m.leadingPower - 16 = power at many unit ⊢
  rw [quarters_eq, center, Nat.mul_assoc] at many
  rw [quarters_eq m power m.lower, quarters_eq m power m.upper, Magnitude.lower, Magnitude.upper]
  split
  · rename_i hidden
    have mantissa : m.mantissa = 2 ^ 52 := hidden.1
    rw [mantissa] at many ⊢
    omega
  · have inside : m.mantissa * m.quarters power 1 ≤ (2 ^ 53 - 1) * m.quarters power 1 :=
      Nat.mul_le_mul_right _ (by omega)
    have width : (4 * m.mantissa - 2) * m.quarters power 1 + 4 * m.quarters power 1 =
        (4 * m.mantissa + 2) * m.quarters power 1 := by
      rw [← Nat.add_mul]
      congr 1
      omega
    omega

/-! ### The shortest digits -/

theorem search_eq_none {tries : Nat} (h : m.search tie power tries = none) (k : Nat)
    (few : k < tries) : m.select tie (power - k) = none := by
  induction tries generalizing power k with
  | zero => omega
  | succ tries ih =>
    unfold search at h
    split at h
    · cases h
    · rename_i nothing
      cases k with
      | zero => simpa using nothing
      | succ k =>
        have later := ih h k (by omega)
        rw [← later]
        congr 1
        omega

/-- The shortest digits of a value read back, and there are at most seventeen of them. -/
theorem readsBack_shortest (positive : 0 < m.mantissa) (small : m.mantissa < 2 ^ 53) (tie : Tie) :
    m.readsBack (m.shortest tie) = true := by
  unfold shortest
  cases found : m.search tie m.leadingPower 17 with
  | none => exact absurd (search_eq_none found 16 (by decide)) (select_seventeenth positive small)
  | some d =>
    obtain ⟨k, _, selected⟩ := search_cases found
    exact select_readsBack selected

/-- A number that reads back does not lie above the numbers that round to the value. -/
theorem mul_le_of_readsBack {d : Scaled} (h : m.readsBack d = true) {c n q : Nat}
    (digits : d.digits = 10 ^ n * c) (power : (q : Int) = d.power + n) :
    c * 10 ^ q ≤ m.upper * 2 ^ (m.exponent - 2).toNat := by
  have inside : m.units d.power d.digits ≤ m.quarters d.power m.upper := by
    unfold readsBack at h
    dsimp only at h
    split at h
    · simp only [Bool.and_eq_true, decide_eq_true_eq] at h
      exact h.2
    · simp only [Bool.and_eq_true, decide_eq_true_eq] at h
      exact Nat.le_of_lt h.2
  rw [digits] at inside
  unfold units quarters at inside
  simp only [Nat.pow_eq] at inside
  have tens : 10 ^ n * 10 ^ d.power.toNat = 10 ^ q * 10 ^ (-d.power).toNat := by
    rw [← pow_add, ← pow_add]
    congr 1
    omega
  apply Nat.le_of_mul_le_mul_right (c := 10 ^ (-d.power).toNat) _ (by positivity)
  calc c * 10 ^ q * 10 ^ (-d.power).toNat
      = 10 ^ n * c * 10 ^ d.power.toNat := by
        rw [Nat.mul_assoc, ← tens]
        ring
    _ ≤ 10 ^ n * c * 10 ^ d.power.toNat * 2 ^ (2 - m.exponent).toNat :=
        Nat.le_mul_of_pos_right _ (by positivity)
    _ ≤ m.upper * 2 ^ (m.exponent - 2).toNat * 10 ^ (-d.power).toNat := inside

end Reckoner.Decimal.Magnitude
