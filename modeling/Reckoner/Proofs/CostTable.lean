import Reckoner.CostTable.Json
import Reckoner.Proofs.Json.Records

/-!
# Tables in whole milliseconds

Tables come from milliseconds with a sign, or out of JSON. `isAdmitted_iff` says that these are the
tables in whole milliseconds, and `IsWhole.inMillis` that they are kept as they are when they are
written and read back.
-/

namespace Reckoner

open Reckoner.Json (RecordField Reading reading)

def Duration.IsWholeMillis (d : Duration) : Prop :=
  ∃ ms, d = .ofMillis ms

namespace CostTable

variable {plus minus multiply divide : Int64} {t : CostTable}

/-- Every entry is a whole number of milliseconds that a word can hold. -/
def IsWhole (t : CostTable) : Prop :=
  ∀ op, ∃ ms, t.cost op = .ofMillis ms

theorem isWhole_iff : t.IsWhole ↔ t.plus.IsWholeMillis ∧ t.minus.IsWholeMillis ∧
    t.multiply.IsWholeMillis ∧ t.divide.IsWholeMillis := by
  constructor
  · exact fun whole => ⟨whole .plus, whole .minus, whole .multiply, whole .divide⟩
  · rintro ⟨plus, minus, multiply, divide⟩ op
    cases op with
    | plus => exact plus
    | minus => exact minus
    | multiply => exact multiply
    | divide => exact divide

theorem isWhole_zero : zero.IsWhole :=
  isWhole_iff.2 ⟨⟨0, rfl⟩, ⟨0, rfl⟩, ⟨0, rfl⟩, ⟨0, rfl⟩⟩

theorem duration_eq_ok {setting : String} {ms : Int64} {d : Duration} :
    duration setting ms = .ok d ↔
      0 ≤ ms.toInt ∧ .ofMillis (UInt64.ofNat ms.toInt.toNat) = d := by
  unfold duration
  split
  · rename_i negative
    simp [Int.not_le.2 negative]
  · rename_i natural
    simp [Int.not_lt.1 natural]

theorem ofMillis_eq_ok : ofMillis plus minus multiply divide = .ok t ↔
    (0 ≤ plus.toInt ∧ 0 ≤ minus.toInt ∧ 0 ≤ multiply.toInt ∧ 0 ≤ divide.toInt) ∧
      ⟨.ofMillis (UInt64.ofNat plus.toInt.toNat), .ofMillis (UInt64.ofNat minus.toInt.toNat),
        .ofMillis (UInt64.ofNat multiply.toInt.toNat),
        .ofMillis (UInt64.ofNat divide.toInt.toNat)⟩ = t := by
  simp only [ofMillis, bind_eq_ok, duration_eq_ok, pure, Except.pure, Except.ok.injEq]
  constructor
  · rintro ⟨_, ⟨plus, rfl⟩, _, ⟨minus, rfl⟩, _, ⟨multiply, rfl⟩, _, ⟨divide, rfl⟩, rfl⟩
    exact ⟨⟨plus, minus, multiply, divide⟩, rfl⟩
  · rintro ⟨⟨plus, minus, multiply, divide⟩, rfl⟩
    exact ⟨_, ⟨plus, rfl⟩, _, ⟨minus, rfl⟩, _, ⟨multiply, rfl⟩, _, ⟨divide, rfl⟩, rfl⟩

theorem ofMillis_of_negative
    (negative : plus.toInt < 0 ∨ minus.toInt < 0 ∨ multiply.toInt < 0 ∨ divide.toInt < 0) :
    ∃ e, ofMillis plus minus multiply divide = .error e := by
  cases made : ofMillis plus minus multiply divide with
  | error e => exact ⟨e, rfl⟩
  | ok table =>
    have natural := (ofMillis_eq_ok.1 made).1
    omega

theorem isWhole_of_ofMillis (made : ofMillis plus minus multiply divide = .ok t) : t.IsWhole := by
  obtain ⟨_, rfl⟩ := ofMillis_eq_ok.1 made
  exact isWhole_iff.2 ⟨⟨_, rfl⟩, ⟨_, rfl⟩, ⟨_, rfl⟩, ⟨_, rfl⟩⟩

/-! ### JSON -/

/-- Every entry cut to whole milliseconds, of which a word has to hold the number. -/
def inMillis (t : CostTable) : CostTable :=
  ⟨.ofMillis t.plus.wordMillis, .ofMillis t.minus.wordMillis, .ofMillis t.multiply.wordMillis,
    .ofMillis t.divide.wordMillis⟩

theorem IsWhole.inMillis (h : t.IsWhole) : t.inMillis = t := by
  obtain ⟨plus, minus, multiply, divide⟩ := t
  obtain ⟨_, rfl : plus = _⟩ := h .plus
  obtain ⟨_, rfl : minus = _⟩ := h .minus
  obtain ⟨_, rfl : multiply = _⟩ := h .multiply
  obtain ⟨_, rfl : divide = _⟩ := h .divide
  simp [CostTable.inMillis]

theorem read_reading (t : CostTable) : CostTable.read (reading t.toJson) = .ok t.inMillis := by
  have entry (d : Duration) : readDuration (reading (.ofNat d.wordMillis.toNat)) =
      .ok (.ofMillis d.wordMillis) := by
    rw [readDuration, Json.asUInt64_reading]
    rfl
  have record := RecordField.readRecord_zip CostTable.fields zero
    (t.entries.map fun e => reading (.ofNat e.2.wordMillis.toNat)) (by decide) rfl
  refine Eq.trans record ?_
  simp only [fields, entries, Operator.all, List.map_cons, List.map_nil, List.zip_cons_cons,
    List.zip_nil_right, RecordField.readFields_cons, RecordField.required, cost, entry, Except.map,
    bind, Except.bind]
  rfl

theorem isWhole_of_read {v : Reading} (read : CostTable.read v = .ok t) : t.IsWhole := by
  refine RecordField.readRecord_keeps (P := IsWhole) (fun f member v d e whole read => ?_)
    isWhole_zero read
  have entry : ∀ {set : Duration → CostTable}, (readDuration v).map set = .ok e →
      ∃ ms, e = set (.ofMillis ms) := by
    intro set read
    unfold readDuration at read
    cases word : v.asUInt64 with
    | error fault => rw [word] at read; cases read
    | ok ms =>
      rw [word] at read
      cases read
      exact ⟨ms, rfl⟩
  obtain ⟨plus, minus, multiply, divide⟩ := isWhole_iff.1 whole
  simp only [fields, List.mem_cons, List.not_mem_nil, or_false] at member
  rcases member with rfl | rfl | rfl | rfl <;> obtain ⟨ms, rfl⟩ := entry read
  · exact isWhole_iff.2 ⟨⟨ms, rfl⟩, minus, multiply, divide⟩
  · exact isWhole_iff.2 ⟨plus, ⟨ms, rfl⟩, multiply, divide⟩
  · exact isWhole_iff.2 ⟨plus, minus, ⟨ms, rfl⟩, divide⟩
  · exact isWhole_iff.2 ⟨plus, minus, multiply, ⟨ms, rfl⟩⟩

/-- Tables come from milliseconds with a sign, or out of JSON. -/
def IsAdmitted (t : CostTable) : Prop :=
  (∃ plus minus multiply divide, ofMillis plus minus multiply divide = .ok t) ∨
    ∃ v, CostTable.read v = .ok t

/-- The tables that come in are those in whole milliseconds, with any word in each entry. -/
theorem isAdmitted_iff : t.IsAdmitted ↔ t.IsWhole := by
  constructor
  · rintro (⟨plus, minus, multiply, divide, made⟩ | ⟨v, read⟩)
    · exact isWhole_of_ofMillis made
    · exact isWhole_of_read read
  · intro whole
    exact .inr ⟨_, (read_reading t).trans (congrArg _ whole.inMillis)⟩

end CostTable

end Reckoner
