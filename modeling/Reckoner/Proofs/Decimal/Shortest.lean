import Reckoner.Decimal.Layout
import Reckoner.Proofs.Decimal.Digits
import Mathlib.Data.List.TakeWhile
import Mathlib.Tactic.Positivity
import Mathlib.Tactic.Ring
import Mathlib.Tactic.Set

/-!
# Size of the shortest digits

A finite value has at most seventeen digits, and the power of ten of the last one is in a small
range. `digits_shortest_le` and `power_shortest` are what a reader of the digits has to know.
-/

namespace Reckoner.Decimal

namespace Magnitude

variable {m : Magnitude} {tie : Tie} {power : Int} {d : Scaled}

def numerator (m : Magnitude) : Nat :=
  m.mantissa * 2 ^ m.exponent.toNat

def denominator (m : Magnitude) : Nat :=
  2 ^ (-m.exponent).toNat

/-- The value lies below the power of ten behind that of its first digit. -/
theorem lt_leadingPower (m : Magnitude) :
    m.numerator * 10 ^ (-(m.leadingPower + 1)).toNat <
      m.denominator * 10 ^ (m.leadingPower + 1).toNat := by
  set a := (Nat.toDigits 10 m.numerator).length with ha
  set b := (Nat.toDigits 10 m.denominator).length with hb
  have aPos : 0 < a := Nat.length_toDigits_pos
  have bPos : 0 < b := Nat.length_toDigits_pos
  have above : m.numerator < 10 ^ a := lt_ten_pow_length _
  have below : 10 ^ (b - 1) ≤ m.denominator := ten_pow_length_le (Nat.two_pow_pos _)
  have leading : m.leadingPower =
      if m.denominator * 10 ^ ((a : Int) - b).toNat ≤ m.numerator * 10 ^ (-((a : Int) - b)).toNat
      then (a : Int) - b else (a : Int) - b - 1 := rfl
  rw [leading]
  split
  · -- both lie between powers of ten, so the quotient lies below the quotient of these
    calc m.numerator * 10 ^ (-((a : Int) - b + 1)).toNat
        < 10 ^ a * 10 ^ (-((a : Int) - b + 1)).toNat :=
          Nat.mul_lt_mul_of_pos_right above (by positivity)
      _ = 10 ^ (b - 1) * 10 ^ ((a : Int) - b + 1).toNat := by
          rw [← pow_add, ← pow_add]
          congr 1
          omega
      _ ≤ m.denominator * 10 ^ ((a : Int) - b + 1).toNat := Nat.mul_le_mul_right _ below
  · rename_i small
    rw [Int.sub_add_cancel]
    exact Nat.lt_of_not_le small

/-- On the grid that is so many digits below the first one, the value has one digit more. -/
theorem below_lt (m : Magnitude) (k : Nat) :
    m.quarters (m.leadingPower - k) m.center / m.units (m.leadingPower - k) 1 < 10 ^ (k + 1) := by
  have bound := m.lt_leadingPower
  generalize m.leadingPower = l at bound ⊢
  have positive : 0 < m.units (l - k) 1 := by
    unfold units
    simp only [Nat.pow_eq]
    positivity
  rw [Nat.div_lt_iff_lt_mul positive]
  unfold numerator denominator at bound
  unfold quarters units center
  simp only [Nat.pow_eq, Nat.one_mul]
  apply Nat.lt_of_mul_lt_mul_right (a := 2 ^ (-m.exponent).toNat * 10 ^ (l + 1).toNat)
  have twos : 4 * 2 ^ (m.exponent - 2).toNat * 2 ^ (-m.exponent).toNat =
      2 ^ m.exponent.toNat * 2 ^ (2 - m.exponent).toNat := by
    rw [show 4 = 2 ^ 2 from rfl, ← pow_add, ← pow_add, ← pow_add]
    congr 1
    omega
  have tens : 10 ^ (-(l - k)).toNat * 10 ^ (l + 1).toNat =
      10 ^ (k + 1) * 10 ^ (l - k).toNat * 10 ^ (-(l + 1)).toNat := by
    rw [← pow_add, ← pow_add, ← pow_add]
    congr 1
    omega
  calc 4 * m.mantissa * 2 ^ (m.exponent - 2).toNat * 10 ^ (-(l - k)).toNat
        * (2 ^ (-m.exponent).toNat * 10 ^ (l + 1).toNat)
      = m.mantissa * (4 * 2 ^ (m.exponent - 2).toNat * 2 ^ (-m.exponent).toNat)
        * (10 ^ (-(l - k)).toNat * 10 ^ (l + 1).toNat) := by ring
    _ = m.mantissa * 2 ^ m.exponent.toNat * 10 ^ (-(l + 1)).toNat
        * (2 ^ (2 - m.exponent).toNat * (10 ^ (k + 1) * 10 ^ (l - k).toNat)) := by
          rw [twos, tens]
          ring
    _ < 2 ^ (-m.exponent).toNat * 10 ^ (l + 1).toNat
        * (2 ^ (2 - m.exponent).toNat * (10 ^ (k + 1) * 10 ^ (l - k).toNat)) :=
          Nat.mul_lt_mul_of_pos_right bound (by positivity)
    _ = 10 ^ (k + 1) * (10 ^ (l - k).toNat * 2 ^ (2 - m.exponent).toNat)
        * (2 ^ (-m.exponent).toNat * 10 ^ (l + 1).toNat) := by ring

theorem select_cases (h : m.select tie power = some d) :
    d.power = power ∧ d.digits ≤ m.quarters power m.center / m.units power 1 + 1 := by
  unfold select at h
  dsimp only at h
  repeat' split at h
  all_goals cases h
  all_goals exact ⟨rfl, by dsimp only; omega⟩

theorem digits_pos (positive : 0 < m.mantissa) (h : m.readsBack d = true) : 0 < d.digits := by
  rw [Nat.pos_iff_ne_zero]
  intro zero
  have low : 0 < m.quarters d.power m.lower := by
    have : 0 < m.lower := by
      unfold lower
      split <;> omega
    unfold quarters
    simp only [Nat.pow_eq]
    positivity
  have nothing : m.units d.power d.digits = 0 := by simp [units, zero]
  unfold readsBack at h
  simp only [nothing] at h
  split at h
  · rw [Bool.and_eq_true, decide_eq_true_eq] at h
    omega
  · rw [Bool.and_eq_true, decide_eq_true_eq] at h
    omega

theorem search_cases {tries : Nat} (h : m.search tie power tries = some d) :
    ∃ k < tries, m.select tie (power - k) = some d := by
  induction tries generalizing power with
  | zero => cases h
  | succ tries ih =>
    unfold search at h
    split at h
    · rename_i found
      cases h
      exact ⟨0, by omega, by simpa using found⟩
    · obtain ⟨k, less, found⟩ := ih h
      refine ⟨k + 1, by omega, ?_⟩
      rw [← found]
      congr 1
      omega

/-- The digits come from one of seventeen grids, or they are the mantissa itself. -/
theorem shortest_cases (m : Magnitude) (tie : Tie) :
    (∃ k : Nat, k < 17 ∧ m.select tie (m.leadingPower - k) = some (m.shortest tie)) ∨
      m.shortest tie = ⟨m.mantissa, m.exponent⟩ := by
  unfold shortest
  cases found : m.search tie m.leadingPower 17 with
  | none => exact .inr rfl
  | some d => exact .inl (search_cases found)

theorem digits_shortest_pos (positive : 0 < m.mantissa) : 0 < (m.shortest tie).digits := by
  rcases m.shortest_cases tie with ⟨k, _, found⟩ | same
  · exact digits_pos positive (select_readsBack found)
  · rw [same]
    exact positive

/-- What a word of 64 bits can hold as mantissa and exponent. -/
structure Fits (m : Magnitude) : Prop where
  mantissa : m.mantissa < 2 ^ 53
  low : -1074 ≤ m.exponent
  high : m.exponent ≤ 971

theorem digits_shortest_le (fits : m.Fits) (tie : Tie) : (m.shortest tie).digits ≤ 10 ^ 17 := by
  rcases m.shortest_cases tie with ⟨k, few, found⟩ | same
  · have bound := (select_cases found).2
    have below := m.below_lt k
    have room : 10 ^ (k + 1) ≤ 10 ^ 17 := Nat.pow_le_pow_right (by decide) few
    omega
  · rw [same]
    have := fits.mantissa
    dsimp only
    omega

theorem leadingPower_cases (fits : m.Fits) : -331 ≤ m.leadingPower ∧ m.leadingPower ≤ 330 := by
  have top : m.numerator < 10 ^ 330 := by
    calc m.mantissa * 2 ^ m.exponent.toNat
        < 2 ^ 53 * 2 ^ m.exponent.toNat :=
          Nat.mul_lt_mul_of_pos_right fits.mantissa (by positivity)
      _ = 2 ^ (53 + m.exponent.toNat) := (pow_add ..).symm
      _ ≤ 2 ^ 1024 := by
          have := fits.high
          gcongr
          · decide
          · omega
      _ < 10 ^ 330 := by decide +kernel
  have bottom : m.denominator < 10 ^ 330 := by
    calc 2 ^ (-m.exponent).toNat
        ≤ 2 ^ 1074 := by
          have := fits.low
          gcongr
          · decide
          · omega
      _ < 10 ^ 330 := by decide +kernel
  have above := (Nat.length_toDigits_le_iff (b := 10) (by decide) (by decide)).2 top
  have below := (Nat.length_toDigits_le_iff (b := 10) (by decide) (by decide)).2 bottom
  have leading : m.leadingPower =
      ((Nat.toDigits 10 m.numerator).length : Int) - (Nat.toDigits 10 m.denominator).length ∨
      m.leadingPower =
      ((Nat.toDigits 10 m.numerator).length : Int) - (Nat.toDigits 10 m.denominator).length - 1 := by
    unfold leadingPower
    dsimp only
    split
    · exact .inl rfl
    · exact .inr rfl
  omega

theorem power_shortest (fits : m.Fits) (tie : Tie) :
    -1074 ≤ (m.shortest tie).power ∧ (m.shortest tie).power ≤ 971 := by
  rcases m.shortest_cases tie with ⟨k, few, found⟩ | same
  · have leading := leadingPower_cases fits
    rw [(select_cases found).1]
    omega
  · rw [same]
    exact ⟨fits.low, fits.high⟩

end Magnitude

/-! ### Zeros at the end -/

namespace Scaled

variable {d : Scaled}

/-- The digits are those that are kept and the zeros behind them. -/
theorem normal_spec (d : Scaled) :
    ∃ n : Nat, Nat.toDigits 10 d.digits = d.normal.1 ++ List.replicate n '0' ∧
      d.normal.2 = d.power + n := by
  unfold normal
  generalize Nat.toDigits 10 d.digits = all
  dsimp only
  have zeros : all.reverse.takeWhile (· = '0') =
      List.replicate (all.reverse.takeWhile (· = '0')).length '0' := by
    rw [List.eq_replicate_iff]
    refine ⟨rfl, fun c member => ?_⟩
    simpa using List.mem_takeWhile_imp member
  have split : all = (all.reverse.dropWhile (· = '0')).reverse ++
      List.replicate (all.reverse.takeWhile (· = '0')).length '0' := by
    rw [← List.reverse_replicate, ← zeros, ← List.reverse_append, List.takeWhile_append_dropWhile,
      List.reverse_reverse]
  have lengths := congrArg List.length split
  rw [List.length_append, List.length_replicate] at lengths
  exact ⟨_, split, by omega⟩

theorem digits_normal (d : Scaled) : Digits d.normal.1 := by
  obtain ⟨n, split, _⟩ := d.normal_spec
  exact (digits_append.1 (split ▸ digits_toDigits d.digits)).1

theorem head_normal (positive : 0 < d.digits) : d.normal.1 ≠ [] ∧ d.normal.1.head? ≠ some '0' := by
  obtain ⟨n, split, _⟩ := d.normal_spec
  have front := head_toDigits positive
  rw [split] at front
  cases kept : d.normal.1 with
  | nil =>
    rw [kept, List.nil_append] at front split
    cases n with
    | zero => exact absurd split Nat.toDigits_ne_nil
    | succ n => exact absurd rfl front
  | cons c cs =>
    rw [kept] at front
    exact ⟨List.cons_ne_nil c cs, front⟩

theorem value_normal (d : Scaled) :
    ∃ n : Nat, d.digits = 10 ^ n * value d.normal.1 ∧ d.normal.2 = d.power + n := by
  obtain ⟨n, split, power⟩ := d.normal_spec
  refine ⟨n, ?_, power⟩
  rw [← value_trailing, ← split, value_toDigits]

/-- No digits are lost, and none come in. -/
theorem length_normal (bound : d.digits ≤ 10 ^ 17) :
    value d.normal.1 ≤ 10 ^ 17 ∧ d.normal.1.length ≤ 18 ∧
      d.power ≤ d.normal.2 ∧ d.normal.2 ≤ d.power + 18 := by
  obtain ⟨n, split, power⟩ := d.normal_spec
  obtain ⟨k, value, _⟩ := d.value_normal
  have all : (Nat.toDigits 10 d.digits).length ≤ 18 :=
    (Nat.length_toDigits_le_iff (by decide) (by decide)).2 (by omega)
  rw [split, List.length_append, List.length_replicate] at all
  have less : Decimal.value d.normal.1 ≤ 10 ^ k * Decimal.value d.normal.1 :=
    Nat.le_mul_of_pos_left _ (by positivity)
  omega

end Scaled

end Reckoner.Decimal
