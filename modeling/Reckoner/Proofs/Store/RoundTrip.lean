import Reckoner.Proofs.Json.Range
import Reckoner.Proofs.Store.Numbering

/-!
# Nothing but formulas is lost

What a store of its own making is written to is read back as the same store. `restart_keeps` leaves
out the formulas, which are not written, and the results, which are rounded.
-/

namespace Reckoner

namespace Calculation

theorem exists_restoredResult (result : Option Float) :
    ∃ kept, restoredResult result = .ok kept := by
  cases result with
  | none => exact ⟨none, rfl⟩
  | some x =>
    rw [restoredResult]
    split
    · rename_i finite
      obtain ⟨y, read⟩ := Json.exists_reread finite
      exact ⟨some y, by rw [read]⟩
    · exact ⟨none, rfl⟩

theorem exists_restored (c : Calculation) :
    ∃ result, c.restored = .ok { c with plan := none, result } := by
  obtain ⟨result, kept⟩ := exists_restoredResult c.result
  exact ⟨result, restored_eq_ok.2 ⟨result, kept, rfl⟩⟩

/-- All of a calculation but its formula and its result. -/
def outline (c : Calculation) : Calculation :=
  { c with plan := none, result := none }

end Calculation

namespace Store

variable {s t : Store} {events : List Event}

/-! ### Files -/

/-- Every store is read back from the file that it is written to. -/
theorem exists_load (s : Store) : ∃ t, load s.save = .ok t := by
  refine (load_save_eq_ok s).2 fun c _ => ?_
  obtain ⟨result, kept⟩ := c.exists_restored
  exact ⟨_, kept⟩

theorem Keyed.outline_load (keyed : s.Keyed) (loaded : load s.save = .ok t) (id : Calculation.Id) :
    (t.find? id).map Calculation.outline = (s.find? id).map Calculation.outline := by
  cases found : s.find? id with
  | none =>
    have absent : t.find? id = none := by
      rw [Option.eq_none_iff_forall_ne_some]
      intro d there
      obtain ⟨c, here, _⟩ := (keyed.find?_load loaded id d).1 there
      rw [found] at here
      cases here
    rw [absent]
  | some c =>
    obtain ⟨result, kept⟩ := c.exists_restored
    rw [(keyed.find?_load loaded id { c with plan := none, result }).2 ⟨c, found, kept⟩]
    rfl

theorem exists_of_mem_numbers {file : Snapshot} {id : Calculation.Id} (listed : id ∈ file.numbers) :
    ∃ c, file.restore.find? id = some c := by
  obtain ⟨c, there, named⟩ := Snapshot.mem_numbers.1 listed
  rw [← Option.ne_none_iff_exists', Snapshot.find?_restore_eq_last?, Snapshot.last?, ne_eq,
    List.find?_eq_none]
  intro other
  exact other c (List.mem_reverse.2 there) (decide_eq_true named)

theorem nextId_of_decode_save {file : Snapshot}
    (decoded : Json.decode Snapshot.read s.save = .ok file) : file.nextId = s.nextId := by
  rw [decode_save] at decoded
  cases read : s.all.mapM Calculation.restored with
  | error fault =>
    rw [read] at decoded
    cases decoded
  | ok calculations =>
    rw [read] at decoded
    cases decoded
    rfl

/-- The next number is read back, if it lies above those of all records. -/
theorem Keyed.nextId_load (keyed : s.Keyed) (loaded : load s.save = .ok t)
    (above : ∀ id c, s.find? id = some c → id < s.nextId) (positive : 0 < s.nextId) :
    t.nextId = s.nextId := by
  obtain ⟨file, decoded, rfl⟩ := load_eq_ok.1 loaded
  have next := nextId_of_decode_save decoded
  have highest : file.highest.toNat < s.nextId.toNat := by
    rw [← UInt64.lt_iff_toNat_lt]
    rcases file.highest_cases.2 with zero | listed
    · exact zero ▸ positive
    · obtain ⟨d, there⟩ := exists_of_mem_numbers listed
      obtain ⟨c, here, _⟩ := (keyed.find?_load loaded _ d).1 there
      exact above _ c here
  have word := s.nextId.toNat_lt
  rw [← UInt64.toNat_inj, Snapshot.toNat_nextId_restore (by simp only [UInt64.size]; omega),
    Snapshot.next, next]
  omega

/-! ### Restarts -/

theorem isWhole_costs_after (before : ∀ table, s.costs = some table → table.IsWhole)
    (whole : ∀ table, .costed table ∈ events → table.IsWhole) :
    ∀ table, (s.after events).costs = some table → table.IsWhole := by
  induction events generalizing s with
  | nil => exact before
  | cons e events ih =>
    refine ih ?_ fun table listed => whole table (.tail _ listed)
    intro table costs
    cases e with
    | created c => exact before table costs
    | changed c | completed c => exact before table ((costs_keep s c).symm.trans costs)
    | costed other =>
      cases costs
      exact whole table (.head _)

/-- After fewer new calculations than there are numbers, and copies of these only, a store is read
back as it was, but for the formulas and the results. -/
theorem restart_keeps (events : List Event)
    (few : (newcomers events).length < UInt64.size - 1) (known : Known [] empty events)
    (whole : ∀ table, .costed table ∈ events → table.IsWhole) :
    ∃ t, load (empty.after events).save = .ok t ∧
      (∀ id, (t.find? id).map Calculation.outline =
        ((empty.after events).find? id).map Calculation.outline) ∧
      t.costs = (empty.after events).costs ∧ t.nextId = (empty.after events).nextId := by
  obtain ⟨t, loaded⟩ := exists_load (empty.after events)
  have keyed := (Built.empty.after events).keyed
  have room : empty.nextId.toNat + (newcomers events).length < UInt64.size := by
    show 1 + _ < UInt64.size
    omega
  refine ⟨t, loaded, keyed.outline_load loaded, ?_, keyed.nextId_load loaded ?_ ?_⟩
  · rw [costs_load loaded]
    cases costs : (empty.after events).costs with
    | none => rfl
    | some table =>
      have all := isWhole_costs_after (s := empty) (fun table none => nomatch none) whole
      exact congrArg some (all table costs).inMillis
  · intro id c found
    have none : ∀ id old, empty.find? id = some old → id ∈ ([] : List Calculation.Id) := by
      simp
    rcases mem_of_find?_after none known found with nothing | listed
    · cases nothing
    · exact lt_nextId_after room listed
  · rw [nextId_after, UInt64.lt_iff_toNat_lt, toNat_add_ofNat room]
    exact Nat.lt_of_lt_of_le Nat.one_pos (Nat.le_add_right _ _)

/-- A calculation comes and is done, and the costs are replaced. -/
def history : List Event :=
  [.created total, .changed { total with id := some 1, status := .queued },
    .completed { total with id := some 1, result := some 4, status := .done },
    .costed (.uniform (.ofMillis 1500))]

theorem history_kept :
    ((newcomers history).length < UInt64.size - 1 ∧ Known [] empty history ∧
      ∀ table, .costed table ∈ history → table.IsWhole) ∧
    ∃ t, load (empty.after history).save = .ok t ∧
      (t.find? 1).map Calculation.outline = some { total with id := some 1, status := .done } ∧
      t.costs = some (.uniform (.ofMillis 1500)) ∧ t.nextId = 2 := by
  have few : (newcomers history).length < UInt64.size - 1 := by decide
  have known : Known [] empty history := by
    simp [Known, history, create, issue, empty]
  have whole : ∀ table, .costed table ∈ history → table.IsWhole := by
    intro table listed
    have same : table = .uniform (.ofMillis 1500) := by simpa [history] using listed
    rw [same]
    intro op
    cases op <;> exact ⟨1500, rfl⟩
  obtain ⟨t, loaded, records, costs, next⟩ := restart_keeps history few known whole
  exact ⟨⟨few, known, whole⟩, t, loaded, (records 1).trans rfl, costs, next⟩

end Store

end Reckoner
