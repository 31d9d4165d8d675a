import Mathlib.Algebra.Ring.Nat
import Reckoner.Decimal.Whole

/-!
# Digits

The numbers that digits denote, and the digits at the front of a text.
-/

namespace Reckoner.Decimal

variable {ds es rest : List Char}

def Digits (ds : List Char) : Prop :=
  ∀ c ∈ ds, c.isDigit = true

@[simp] theorem digits_nil : Digits [] := by
  intro c member
  cases member

@[simp] theorem digits_append : Digits (ds ++ es) ↔ Digits ds ∧ Digits es := by
  simp only [Digits, List.mem_append]
  constructor
  · intro h
    exact ⟨fun c member => h c (.inl member), fun c member => h c (.inr member)⟩
  · rintro ⟨first, second⟩ c (member | member)
    · exact first c member
    · exact second c member

@[simp] theorem digits_cons {c : Char} : Digits (c :: ds) ↔ c.isDigit = true ∧ Digits ds := by
  simp [Digits]

@[simp] theorem digits_toDigits (n : Nat) : Digits (Nat.toDigits 10 n) :=
  fun _ member => Nat.isDigit_of_mem_toDigits (by decide) (by decide) member

@[simp] theorem digits_replicate_zero (n : Nat) : Digits (List.replicate n '0') := by
  intro c member
  rw [List.eq_of_mem_replicate member]
  rfl

theorem Digits.take (h : Digits ds) (n : Nat) : Digits (ds.take n) :=
  fun c member => h c (List.mem_of_mem_take member)

theorem Digits.drop (h : Digits ds) (n : Nat) : Digits (ds.drop n) :=
  fun c member => h c (List.mem_of_mem_drop member)

/-- The text goes on with something else than a digit, or not at all. -/
def Ended (rest : List Char) : Prop :=
  ∀ c ∈ rest.head?, c.isDigit = false

@[simp] theorem ended_nil : Ended [] := by
  intro c member
  cases member

@[simp] theorem ended_cons {c : Char} : Ended (c :: rest) ↔ c.isDigit = false := by
  simp [Ended]

theorem takeWhile_digits (h : Digits ds) (ended : Ended rest) :
    (ds ++ rest).takeWhile Char.isDigit = ds := by
  rw [List.takeWhile_append_of_pos h]
  cases rest with
  | nil => simp
  | cons c cs => simp [ended_cons.1 ended]

/-- No zero stands before another digit. -/
theorem head_toDigits {n : Nat} (positive : 0 < n) : (Nat.toDigits 10 n).head? ≠ some '0' := by
  induction n using Nat.strongRecOn with
  | ind n ih =>
    rw [Nat.toDigits_eq_if (by decide)]
    split
    · rename_i small
      have digit : ∀ k < 10, 0 < k → [Nat.digitChar k].head? ≠ some '0' := by decide
      exact digit n small positive
    · have front := ih (n / 10) (by omega) (by omega)
      obtain ⟨c, cs, shape⟩ := List.exists_cons_of_ne_nil (Nat.toDigits_ne_nil : _ ≠ [])
      rw [shape] at front ⊢
      exact front

/-! ### Values -/

theorem valueAfter_eq (start : Nat) (ds : List Char) :
    valueAfter start ds = 10 ^ ds.length * start + value ds :=
  Nat.ofDigitChars_eq_ofDigitChars_zero

theorem value_append (ds es : List Char) :
    value (ds ++ es) = 10 ^ es.length * value ds + value es := by
  rw [value, valueAfter_append, valueAfter_eq]
  rfl

@[simp] theorem value_toDigits (n : Nat) : value (Nat.toDigits 10 n) = n :=
  Nat.ofDigitChars_ten_toDigits

@[simp] theorem value_replicate_zero (n : Nat) : value (List.replicate n '0') = 0 :=
  Nat.ofDigitChars_replicate_zero.trans (Nat.mul_zero _)

theorem digitValue_lt {c : Char} (h : c.isDigit = true) : digitValue c < 10 := by
  simp only [Char.isDigit, Bool.and_eq_true, decide_eq_true_eq] at h
  have low : '0'.toNat ≤ c.toNat := h.1
  have high : c.toNat ≤ '9'.toNat := h.2
  have zero : '0'.toNat = 48 := rfl
  have nine : '9'.toNat = 57 := rfl
  unfold digitValue
  omega

theorem value_lt (h : Digits ds) : value ds < 10 ^ ds.length := by
  induction ds with
  | nil => decide
  | cons c cs ih =>
    rw [digits_cons] at h
    have here := digitValue_lt h.1
    have behind := ih h.2
    have split : value (c :: cs) = 10 ^ cs.length * digitValue c + value cs :=
      valueAfter_eq (10 * 0 + digitValue c) cs |>.trans (by rw [Nat.mul_zero, Nat.zero_add])
    have room : 10 ^ cs.length * digitValue c ≤ 10 ^ cs.length * 9 :=
      Nat.mul_le_mul_left _ (by omega)
    rw [split, List.length_cons, Nat.pow_succ]
    omega

theorem lt_ten_pow_length (n : Nat) : n < 10 ^ (Nat.toDigits 10 n).length := by
  simpa using value_lt (digits_toDigits n)

theorem ten_pow_length_le {n : Nat} (positive : 0 < n) :
    10 ^ ((Nat.toDigits 10 n).length - 1) ≤ n := by
  have some : 0 < (Nat.toDigits 10 n).length := Nat.length_toDigits_pos
  rcases Nat.eq_or_lt_of_le some with one | more
  · rw [← one]
    exact positive
  · by_contra small
    have shorter : (Nat.toDigits 10 n).length ≤ (Nat.toDigits 10 n).length - 1 :=
      (Nat.length_toDigits_le_iff (by decide) (by omega)).2 (Nat.lt_of_not_le small)
    omega

theorem value_padding (n : Nat) (ds : List Char) :
    value (List.replicate n '0' ++ ds) = value ds := by
  rw [value_append, value_replicate_zero, Nat.mul_zero, Nat.zero_add]

theorem value_trailing (ds : List Char) (n : Nat) :
    value (ds ++ List.replicate n '0') = 10 ^ n * value ds := by
  rw [value_append, value_replicate_zero, List.length_replicate, Nat.add_zero]

end Reckoner.Decimal
