import Reckoner.Decimal.Binary64
import Reckoner.Proofs.Decimal.Shortest

/-!
# Finite floats

`ofFloat_of_isFinite` says that a float that counts as finite has a mantissa and an exponent, both
in the range of a word, and `beq_zero_iff` which floats count as zero.
-/

namespace Reckoner.Decimal.Binary64

open Float.Model (Format UnpackedFloat)

def biased (bits : Nat) : Nat :=
  (bits >>> 52) % 0x800

theorem toNat_unpackExponent (bits : BitVec Format.binary64.numBits) :
    (UnpackedFloat.unpackExponent bits).toNat = biased bits.toNat := by
  simp [UnpackedFloat.unpackExponent, biased]

theorem isFinite_iff (x : Float) : x.isFinite = true ↔ biased x.toBits.toNat ≠ 2047 := by
  let bits : BitVec Format.binary64.numBits := x.toModel.toBits.toBitVec
  have field : (UnpackedFloat.unpackExponent bits).toNat = biased x.toBits.toNat :=
    toNat_unpackExponent bits
  have top : UnpackedFloat.unpackExponent bits = (-1#_) ↔ biased x.toBits.toNat = 2047 := by
    rw [← BitVec.toNat_inj, field]
    rfl
  show (UnpackedFloat.unpack Format.binary64 bits).isFinite = true ↔ _
  unfold UnpackedFloat.unpack
  dsimp only
  by_cases infinite : UnpackedFloat.unpackExponent bits = (-1#_)
  · have not : ¬ biased x.toBits.toNat ≠ 2047 := fun h => h (top.1 infinite)
    rw [if_pos infinite]
    split <;> exact iff_of_false Bool.false_ne_true not
  · have yes : biased x.toBits.toNat ≠ 2047 := fun h => infinite (top.2 h)
    rw [if_neg infinite]
    by_cases small : UnpackedFloat.unpackExponent bits = 0#_
    · rw [if_pos small]
      by_cases zero : UnpackedFloat.unpackMantissa bits = 0#_
      · rw [dif_pos zero]
        exact iff_of_true rfl yes
      · rw [dif_neg zero]
        exact iff_of_true rfl yes
    · rw [if_neg small]
      exact iff_of_true rfl yes

theorem ofFloat_of_isFinite {x : Float} (finite : x.isFinite = true) :
    ∃ negative m, ofFloat x = .finite negative m ∧ m.Fits := by
  rw [isFinite_iff, biased] at finite
  unfold ofFloat ofBits
  dsimp only
  rw [if_neg finite]
  have fraction : x.toBits.toNat % hiddenBit < 2 ^ 52 := Nat.mod_lt _ (by decide)
  have hidden : hiddenBit = 2 ^ 52 := rfl
  have least : leastExponent = -1074 := rfl
  split
  · exact ⟨_, _, rfl, by dsimp only; omega, by dsimp only; omega, by dsimp only; omega⟩
  · refine ⟨_, _, rfl, ?_, ?_, ?_⟩
    · dsimp only
      omega
    · simp only [Int.ofNat_eq_natCast]
      omega
    · simp only [Int.ofNat_eq_natCast]
      omega

theorem ofFloat_ne_finite {x : Float} (infinite : x.isFinite = false) (negative : Bool)
    (m : Magnitude) : ofFloat x ≠ .finite negative m := by
  have field : ¬ biased x.toBits.toNat ≠ 2047 := by
    rw [← isFinite_iff, infinite]
    decide
  rw [not_not, biased] at field
  unfold ofFloat ofBits
  dsimp only
  rw [if_pos field]
  split <;> exact fun same => nomatch same

/-! ### Zeros -/

theorem toNat_unpackMantissa (bits : BitVec Format.binary64.numBits) :
    (UnpackedFloat.unpackMantissa bits).toNat = bits.toNat % 2 ^ 52 := by
  simp [UnpackedFloat.unpackMantissa]

theorem toNat_toBits_inj {x y : Float} : x.toBits.toNat = y.toBits.toNat ↔ x = y := by
  refine ⟨fun same => ?_, fun same => same ▸ rfl⟩
  obtain ⟨⟨a, _⟩⟩ := x
  obtain ⟨⟨b, _⟩⟩ := y
  cases (show a = b from UInt64.toNat_inj.1 same)
  rfl

theorem unpack_eq_zero_iff {x : Float} {bits : BitVec Format.binary64.numBits}
    (word : bits.toNat = x.toBits.toNat) :
    (UnpackedFloat.unpackExponent bits = 0#_ ∧ UnpackedFloat.unpackMantissa bits = 0#_) ↔
      x = 0 ∨ x = -0 := by
  have below : x.toBits.toNat < 2 ^ 64 := x.toBits.toNat_lt
  rw [← BitVec.toNat_inj, ← BitVec.toNat_inj, toNat_unpackExponent, toNat_unpackMantissa, word,
    ← toNat_toBits_inj, ← toNat_toBits_inj, biased, show (0 : Float).toBits.toNat = 0 from rfl,
    show (-0 : Float).toBits.toNat = 2 ^ 63 from rfl]
  simp only [BitVec.toNat_ofNat, Nat.zero_mod, Nat.shiftRight_eq_div_pow]
  omega

theorem beq_zero_iff {x : Float} : (x == 0) = true ↔ x = 0 ∨ x = -0 := by
  let bits : BitVec Format.binary64.numBits := x.toModel.toBits.toBitVec
  have zero : (0 : Float).toModel.unpack = .zero .positive := rfl
  show ((UnpackedFloat.unpack Format.binary64 bits).compare (0 : Float).toModel.unpack == some .eq)
    = true ↔ _
  rw [zero, ← unpack_eq_zero_iff (x := x) (show bits.toNat = _ from rfl)]
  unfold UnpackedFloat.unpack
  dsimp only
  by_cases top : UnpackedFloat.unpackExponent bits = (-1#_)
  · have other : ¬ UnpackedFloat.unpackExponent bits = 0#_ := by
      rw [top]
      decide
    rw [if_pos top]
    refine iff_of_false ?_ fun h => other h.1
    split
    · cases UnpackedFloat.Sign.ofBitVec (UnpackedFloat.unpackSign bits) <;>
        exact Bool.false_ne_true
    · exact Bool.false_ne_true
  rw [if_neg top]
  by_cases small : UnpackedFloat.unpackExponent bits = 0#_
  · rw [if_pos small]
    by_cases none : UnpackedFloat.unpackMantissa bits = 0#_
    · rw [dif_pos none]
      exact iff_of_true rfl ⟨small, none⟩
    · rw [dif_neg none]
      refine iff_of_false ?_ fun h => none h.2
      cases UnpackedFloat.Sign.ofBitVec (UnpackedFloat.unpackSign bits) <;>
        exact Bool.false_ne_true
  · rw [if_neg small]
    refine iff_of_false ?_ fun h => small h.1
    cases UnpackedFloat.Sign.ofBitVec (UnpackedFloat.unpackSign bits) <;> exact Bool.false_ne_true

theorem beq_self_of_isFinite {x : Float} (finite : x.isFinite = true) : (x == x) = true := by
  have known : x.toModel.unpack.isFinite = true := finite
  show (x.toModel.unpack.compare x.toModel.unpack == some .eq) = true
  cases word : x.toModel.unpack with
  | infinity | notANumber =>
    rw [word] at known
    cases known
  | zero => rfl
  | finite sign m e positive =>
    have exponents : compare e e = .eq := Int.compare_eq_eq.2 rfl
    have mantissas : compare m m = .eq := Nat.compare_eq_eq.2 rfl
    cases sign with
    | positive =>
      show (some ((compare e e).then (compare m m)) == some .eq) = true
      rw [exponents, mantissas]
      rfl
    | negative =>
      show (some ((compare e e).then (compare m m)).swap == some .eq) = true
      rw [exponents, mantissas]
      rfl

end Reckoner.Decimal.Binary64
