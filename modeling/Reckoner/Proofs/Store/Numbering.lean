import Reckoner.Proofs.Store.Events
import Reckoner.Proofs.Store.Snapshots

/-!
# Numbers after a restart

A restored store numbers new calculations behind the numbers of its file. `numbers_fresh_iff` says
up to which one they are larger than all before: until the last word has been given out.
-/

namespace Reckoner

/-! ### Files -/

namespace Snapshot

def numbers (file : Snapshot) : List Calculation.Id :=
  file.calculations.filterMap Calculation.id

/-- The calculation that stands last in a file of those with a number. -/
def last? (file : Snapshot) (id : Calculation.Id) : Option Calculation :=
  file.calculations.reverse.find? fun c => c.id = some id

variable {file : Snapshot} {id : Calculation.Id}

theorem mem_numbers : id ∈ file.numbers ↔ ∃ c ∈ file.calculations, c.id = some id :=
  List.mem_filterMap

theorem find?_restore_eq_last? (file : Snapshot) (id : Calculation.Id) :
    file.restore.find? id = file.last? id := by
  obtain ⟨nextId, costs, calculations⟩ := file
  show (records _)[id]? = List.find? _ _
  dsimp only
  induction calculations using List.reverseRecOn with
  | nil => simp [records]
  | append_singleton front c ih =>
    rw [List.reverse_append, List.reverse_singleton, List.singleton_append, List.find?_cons, ← ih]
    cases named : c.id with
    | none => simp [records, named]
    | some key =>
      rw [getElem?_records_append front named]
      by_cases same : id = key
      · simp [same]
      · simp [same, Ne.symm same]

theorem mem_numbers_of_find?_restore {c : Calculation} (found : file.restore.find? id = some c) :
    id ∈ file.numbers := by
  rw [find?_restore_eq_last?] at found
  have listed := List.mem_reverse.1 (List.mem_of_find?_eq_some found)
  exact mem_numbers.2 ⟨c, listed, by simpa using List.find?_some found⟩

theorem highest_append (nextId : Calculation.Id) (costs : Option CostTable)
    (front : List Calculation) (c : Calculation) :
    highest ⟨nextId, costs, front ++ [c]⟩ =
      c.id.elim (highest ⟨nextId, costs, front⟩) (max (highest ⟨nextId, costs, front⟩)) := by
  rw [highest, List.foldl_append, List.foldl_cons, List.foldl_nil]
  cases c.id <;> rfl

theorem numbers_append (nextId : Calculation.Id) (costs : Option CostTable)
    (front : List Calculation) (c : Calculation) :
    numbers ⟨nextId, costs, front ++ [c]⟩ = numbers ⟨nextId, costs, front⟩ ++ c.id.toList := by
  rw [numbers, List.filterMap_append]
  cases named : c.id <;> simp [named, numbers]

/-- The highest number of a file is one of its numbers, unless there are none. -/
theorem highest_cases (file : Snapshot) :
    (∀ id ∈ file.numbers, id.toNat ≤ file.highest.toNat) ∧
      (file.highest = 0 ∨ file.highest ∈ file.numbers) := by
  obtain ⟨nextId, costs, calculations⟩ := file
  induction calculations using List.reverseRecOn with
  | nil => simp [numbers, highest]
  | append_singleton front c ih =>
    obtain ⟨bound, attained⟩ := ih
    rw [highest_append, numbers_append]
    cases c.id with
    | none => simpa using ⟨bound, attained⟩
    | some key =>
      simp only [Option.elim_some, Option.toList_some, List.mem_append, List.mem_singleton,
        UInt64.toNat_max]
      constructor
      · rintro id (old | rfl)
        · exact Nat.le_trans (bound id old) (Nat.le_max_left _ _)
        · exact Nat.le_max_right _ _
      · rw [UInt64.max_def]
        split
        · exact .inr (.inr rfl)
        · exact attained.imp_right .inl

/-- The number behind all those of a file, which need not be a word. -/
def next (file : Snapshot) : Nat :=
  max file.nextId.toNat (file.highest.toNat + 1)

theorem toNat_nextId_restore (fits : file.highest.toNat + 1 < UInt64.size) :
    file.restore.nextId.toNat = file.next := by
  rw [restore, UInt64.toNat_max, UInt64.toNat_add]
  exact congrArg _ (Nat.mod_eq_of_lt fits)

theorem lt_next (listed : id ∈ file.numbers) : id.toNat < file.next :=
  Nat.lt_of_lt_of_le (Nat.lt_succ_of_le (file.highest_cases.1 id listed)) (Nat.le_max_right _ _)

end Snapshot

/-! ### New numbers -/

namespace Store

variable {s : Store} {file : Snapshot} {text : String} {events : List Event} {id : Calculation.Id}

theorem mem_given :
    id ∈ s.given events ↔
      ∃ k < (newcomers events).length, s.nextId + UInt64.ofNat k = id := by
  simp [given_eq]

theorem toNat_add_ofNat {first : Calculation.Id} {k : Nat} (fits : first.toNat + k < UInt64.size) :
    (first + UInt64.ofNat k).toNat = first.toNat + k := by
  simp only [UInt64.size] at fits
  rw [UInt64.toNat_add, UInt64.toNat_ofNat', Nat.mod_eq_of_lt (a := k) (by omega),
    Nat.mod_eq_of_lt fits]

theorem lt_nextId_after (fits : s.nextId.toNat + (newcomers events).length < UInt64.size)
    (listed : id ∈ s.given events) : id < (s.after events).nextId := by
  obtain ⟨k, smaller, rfl⟩ := mem_given.1 listed
  rw [nextId_after, UInt64.lt_iff_toNat_lt, toNat_add_ofNat fits, toNat_add_ofNat (by omega)]
  omega

/-- Where counting on leaves the word, the last word has been given out. -/
theorem last_mem_given (full : UInt64.size ≤ s.nextId.toNat + (newcomers events).length) :
    UInt64.ofNat (UInt64.size - 1) ∈ s.given events := by
  have small := s.nextId.toNat_lt
  simp only [UInt64.size] at full
  refine mem_given.2 ⟨UInt64.size - 1 - s.nextId.toNat, by simp only [UInt64.size]; omega, ?_⟩
  have reaches : s.nextId.toNat + (UInt64.size - 1 - s.nextId.toNat) = UInt64.size - 1 := by
    simp only [UInt64.size]
    omega
  rw [← UInt64.toNat_inj, toNat_add_ofNat (by rw [reaches]; decide), reaches]
  rfl

theorem not_last_lt (id : Calculation.Id) : ¬ UInt64.ofNat (UInt64.size - 1) < id := by
  have word := id.toNat_lt
  rw [UInt64.lt_iff_toNat_lt, show (UInt64.ofNat (UInt64.size - 1)).toNat = 2 ^ 64 - 1 from rfl]
  omega

/-- The number that comes next is larger than those of the file and those given out since, exactly
as long as counting on from the file does not leave the word. -/
theorem fresh_restore_iff (file : Snapshot) (events : List Event) :
    (∀ id, id ∈ file.numbers ∨ id ∈ file.restore.given events →
        id < (file.restore.after events).nextId) ↔
      file.next + (newcomers events).length < UInt64.size := by
  constructor
  · intro fresh
    by_contra full
    by_cases room : file.highest.toNat + 1 < UInt64.size
    · rw [← Snapshot.toNat_nextId_restore room] at full
      exact not_last_lt _ (fresh _ (.inr (last_mem_given (Nat.le_of_not_lt full))))
    · have word := file.highest.toNat_lt
      simp only [UInt64.size] at room
      have last : file.highest = UInt64.ofNat (UInt64.size - 1) := by
        rw [← UInt64.toNat_inj, show (UInt64.ofNat (UInt64.size - 1)).toNat = 2 ^ 64 - 1 from rfl]
        omega
      rcases file.highest_cases.2 with none | listed
      · exact absurd (none.symm.trans last) (by decide)
      · exact not_last_lt _ (last ▸ fresh _ (.inl listed))
  · intro fits
    have room : file.highest.toNat + 1 < UInt64.size := by
      have : file.highest.toNat + 1 ≤ file.next := Nat.le_max_right _ _
      omega
    have first := Snapshot.toNat_nextId_restore room
    rintro id (listed | listed)
    · rw [nextId_after, UInt64.lt_iff_toNat_lt, toNat_add_ofNat (first ▸ fits), first]
      have := Snapshot.lt_next listed
      omega
    · exact lt_nextId_after (first ▸ fits) listed

theorem toNat_nextId_restore_iff (file : Snapshot) :
    file.restore.nextId.toNat = file.next ↔ file.highest.toNat + 1 < UInt64.size := by
  refine ⟨fun same => ?_, Snapshot.toNat_nextId_restore⟩
  have word := file.restore.nextId.toNat_lt
  have behind : file.highest.toNat + 1 ≤ file.next := Nat.le_max_right _ _
  simp only [UInt64.size]
  omega

theorem load_eq_ok : load text = .ok s ↔
    ∃ file, Json.decode Snapshot.read text = .ok file ∧ file.restore = s := by
  unfold load
  cases Json.decode Snapshot.read text <;> simp

/-- A file that is accepted is restored as it stands, the last of several calculations with the same
number counting, and its numbers are counted on. Until that leaves the word, and no longer, a new
number is larger than all before it, and no record stands under it. -/
theorem numbers_fresh_iff (loaded : load text = .ok s) :
    ∃ file, Json.decode Snapshot.read text = .ok file ∧ s.costs = file.costs ∧
      (∀ id, s.find? id = file.last? id) ∧
      (s.nextId.toNat = file.next ↔ file.highest.toNat + 1 < UInt64.size) ∧
      ∀ events c number, ((s.after events).create c).1 = number →
        ((∀ id, id ∈ file.numbers ∨ id ∈ s.given events → id < number) ↔
          file.next + (newcomers events).length < UInt64.size) ∧
        (Known file.numbers s events → file.next + (newcomers events).length < UInt64.size →
          (s.after events).find? number = none) := by
  obtain ⟨file, decoded, rfl⟩ := load_eq_ok.1 loaded
  refine ⟨file, decoded, rfl, Snapshot.find?_restore_eq_last? file,
    toNat_nextId_restore_iff file, ?_⟩
  rintro events c number rfl
  have fresh := fresh_restore_iff file events
  refine ⟨fresh, fun known fits => ?_⟩
  rw [Option.eq_none_iff_forall_ne_some]
  intro old there
  have earlier := mem_of_find?_after (fun id d => Snapshot.mem_numbers_of_find?_restore) known there
  exact UInt64.lt_irrefl _ (fresh.2 fits _ earlier)

def failure (id : Calculation.Id) : Calculation :=
  ⟨some id, "1/0", none, none, .failed "division by zero", default, some default⟩

/-- The text of a file with two failures in it. -/
def failures (low high : Calculation.Id) : String :=
  ((empty.keep (failure low)).keep (failure high)).save

theorem restored_counts_on :
    ∃ s, load (failures 3 7) = .ok s ∧
      ∀ id, id ∈ [3, 7] ∨ id ∈ s.given [.created total] →
        id < ((s.after [.created total]).create total).1 := by
  have loaded : load (failures 3 7) =
      .ok (Snapshot.restore ⟨1, none, [failure 3, failure 7]⟩) := (load_save _).trans rfl
  refine ⟨_, loaded, ?_⟩
  obtain ⟨file, decoded, _, _, _, fresh⟩ := numbers_fresh_iff loaded
  rw [failures, decode_save] at decoded
  cases decoded
  exact (fresh [.created total] total _ rfl).1.2 (by decide)

/-- Behind the last word the numbers begin again, and a restored record is replaced. -/
theorem restored_record_replaced :
    ∃ s, load (failures 0 18446744073709551614) = .ok s ∧
      s.find? 0 = some (failure 0) ∧
      ((s.after [.created total]).create total).1 = 0 ∧
      (s.after [.created total, .created total]).find? 0 = some { total with id := some 0 } ∧
      some { total with id := some 0 } ≠ some (failure 0) :=
  ⟨Snapshot.restore ⟨1, none, [failure 0, failure 18446744073709551614]⟩,
    (load_save _).trans rfl, rfl, rfl, rfl,
    fun same => nomatch congrArg (Option.map Calculation.status) same⟩

end Store

end Reckoner
