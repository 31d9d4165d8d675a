import Reckoner.Proofs.CostTable
import Reckoner.Proofs.Instant.Text
import Reckoner.Proofs.Store.Records

/-!
# Snapshots are read back

`Store.load_save` says what a store becomes when it is written to a file and restored from it.
-/

namespace Reckoner

open Reckoner.Json (RecordField Reading Fault reading reread)

/-! ### Calculations -/

theorem Instant.fromJson_reading (t : Instant) : Instant.fromJson (reading t.toJson) = .ok t := by
  unfold Instant.toJson Instant.fromJson
  simp only [Json.asText_reading, bind, Except.bind, Instant.read_text]

namespace Calculation

theorem Status.read_reading (status : Status) :
    Status.read (reading status.toJson) = .ok status := by
  cases status <;> rfl

/-- What a file keeps of a result. An infinite one and one that is no number are written as nothing,
and a finite one is what its digits are read as. -/
def restoredResult : Option Float → Except Fault (Option Float)
  | none => .ok none
  | some x =>
    if x.isFinite then
      match reread x with
      | some y => .ok (some y)
      | none => .error .malformed
    else .ok none

/-- What a file keeps of a calculation: all but its formula, and of its result what is kept of
that. -/
def restored (c : Calculation) : Except Fault Calculation :=
  (restoredResult c.result).map fun result => { c with plan := none, result }

theorem restored_eq_ok {c d : Calculation} : c.restored = .ok d ↔
    ∃ result, restoredResult c.result = .ok result ∧ d = { c with plan := none, result } := by
  unfold restored
  cases restoredResult c.result <;> simp [Except.map, eq_comm]

theorem id_restored {c d : Calculation} (h : c.restored = .ok d) : d.id = c.id := by
  obtain ⟨result, _, rfl⟩ := restored_eq_ok.1 h
  rfl

theorem asOption_id (id : Option Id) :
    Reading.asOption Reading.asUInt64 (reading (.ofOption idToJson id)) = .ok id := by
  cases id with
  | none => rfl
  | some id => exact Json.asOption_some (Json.asUInt64_reading id) (fun same => nomatch same)

theorem asOption_instant (t : Option Instant) :
    Reading.asOption Instant.fromJson (reading (.ofOption Instant.toJson t)) = .ok t := by
  cases t with
  | none => rfl
  | some t => exact Json.asOption_some (Instant.fromJson_reading t) (fun same => nomatch same)

theorem asOption_result (result : Option Float) :
    Reading.asOption Reading.asFloat (reading (.ofOption .real result)) =
      restoredResult result := by
  cases result with
  | none => rfl
  | some x =>
    rw [restoredResult, Json.ofOption]
    cases finite : x.isFinite with
    | false =>
      rw [Json.reading_of_infinite finite]
      rfl
    | true =>
      have read := Json.asFloat_reading finite
      rw [if_pos rfl]
      cases digits : reread x with
      | some y =>
        rw [digits] at read
        exact Json.asOption_some read (Json.reading_ne_null finite)
      | none =>
        rw [digits] at read
        exact Json.asOption_error read (Json.reading_ne_null finite)

theorem read_reading (c : Calculation) : Calculation.read (reading c.toJson) = c.restored := by
  have record := RecordField.readRecord_zip Draft.fields .empty
    [reading (.ofOption idToJson c.id), reading (.text c.text), reading (.ofOption .real c.result),
      reading c.status.toJson, reading c.createdAt.toJson,
      reading (.ofOption Instant.toJson c.finishedAt)] (by decide) rfl
  refine Eq.trans (congrArg (· >>= Draft.finish) record) ?_
  simp only [Draft.fields, List.zip_cons_cons, List.zip_nil_right, RecordField.readFields_cons,
    RecordField.required, RecordField.optional, asOption_id, Json.asText_reading, asOption_result,
    Status.read_reading, Instant.fromJson_reading, asOption_instant, Except.map, bind, Except.bind,
    restored]
  cases restoredResult c.result <;> rfl

end Calculation

/-! ### Files -/

namespace Snapshot

open Calculation (restored)

theorem asOption_costs (costs : Option CostTable) :
    Reading.asOption CostTable.read (reading (.ofOption CostTable.toJson costs)) =
      .ok (costs.map CostTable.inMillis) := by
  cases costs with
  | none => rfl
  | some t => exact Json.asOption_some (CostTable.read_reading t) (fun same => nomatch same)

theorem asList_reading (calculations : List Calculation) :
    Reading.asList Calculation.read (reading (.list (calculations.map Calculation.toJson))) =
      calculations.mapM restored := by
  have items : Json.readings (calculations.map Calculation.toJson) =
      calculations.map fun c => reading c.toJson := by
    induction calculations with
    | nil => rfl
    | cons c calculations ih => simp [Json.readings, ih]
  have read : (Json.readings (calculations.map Calculation.toJson)).mapM Calculation.read =
      calculations.mapM restored := by
    rw [items, List.mapM_map]
    exact congrArg (calculations.mapM ·) (funext Calculation.read_reading)
  rw [reading, Reading.asList]
  simp only [read, bind, Except.bind, if_true]
  cases calculations.mapM restored <;> rfl

theorem read_reading (file : Snapshot) :
    Snapshot.read (reading file.toJson) = (file.calculations.mapM restored).map fun calculations =>
      ⟨file.nextId, file.costs.map CostTable.inMillis, calculations⟩ := by
  have record := RecordField.readRecord_zip Snapshot.fields ⟨none, none, none⟩
    [reading (Calculation.idToJson file.nextId), reading (.ofOption CostTable.toJson file.costs),
      reading (.list (file.calculations.map Calculation.toJson))] (by decide) rfl
  refine Eq.trans (congrArg (· >>= Draft.finish) record) ?_
  simp only [Snapshot.fields, List.zip_cons_cons, List.zip_nil_right, RecordField.readFields_cons,
    RecordField.required, RecordField.optional, Calculation.idToJson, Json.asUInt64_reading,
    asOption_costs, asList_reading, Except.map, bind, Except.bind]
  cases file.calculations.mapM restored <;> rfl

theorem getElem?_records_append {nextId : Calculation.Id} {costs : Option CostTable}
    (front : List Calculation) {c : Calculation} {id : Calculation.Id} (named : c.id = some id)
    (key : Calculation.Id) :
    (records ⟨nextId, costs, front ++ [c]⟩)[key]? =
      if key = id then some c else (records ⟨nextId, costs, front⟩)[key]? := by
  simp only [records, List.foldl_append, List.foldl_cons, List.foldl_nil, named,
    Std.TreeMap.getElem?_insert, Std.LawfulEqCmp.compare_eq_iff_eq, eq_comm (a := id)]

theorem find?_restore {file : Snapshot} (numbered : ∀ c ∈ file.calculations, c.id ≠ none)
    (distinct : (file.calculations.map Calculation.id).Nodup) (key : Calculation.Id)
    (c : Calculation) :
    file.restore.find? key = some c ↔ c ∈ file.calculations ∧ c.id = some key := by
  obtain ⟨nextId, costs, calculations⟩ := file
  show (records _)[key]? = some c ↔ _
  induction calculations using List.reverseRecOn with
  | nil => simp [records]
  | append_singleton front d ih =>
    dsimp only at numbered distinct ih ⊢
    rw [List.map_append, List.nodup_append] at distinct
    have earlier := ih (fun e member => numbered e (List.mem_append_left _ member)) distinct.1
    obtain ⟨id, named⟩ := Option.ne_none_iff_exists'.1 (numbered d (by simp))
    rw [getElem?_records_append front named, List.mem_append, List.mem_singleton]
    split
    · rename_i same
      subst same
      constructor
      · rintro ⟨⟩
        exact ⟨.inr rfl, named⟩
      · rintro ⟨old | rfl, hit⟩
        · exact absurd (hit.trans named.symm)
            (distinct.2.2 _ (List.mem_map_of_mem old) _ (by simp))
        · rfl
    · rename_i other
      rw [earlier]
      constructor
      · rintro ⟨old, hit⟩
        exact ⟨.inl old, hit⟩
      · rintro ⟨old | rfl, hit⟩
        · exact ⟨old, hit⟩
        · rw [named] at hit
          exact absurd (Option.some.inj hit).symm other

end Snapshot

namespace Store

theorem decode_save (s : Store) :
    Json.decode Snapshot.read s.save = (s.all.mapM Calculation.restored).map fun calculations =>
      ⟨s.nextId, s.costs.map CostTable.inMillis, calculations⟩ := by
  rw [save, Json.decode, Json.ofText_pretty]
  simp only [Snapshot.read_reading, Snapshot.ofStore, bind, Except.bind, if_true]
  cases s.all.mapM Calculation.restored <;> rfl

/-- A file leads to the store that its calculations make up, unless a result is out of range. -/
theorem load_save (s : Store) :
    load s.save = match s.all.mapM Calculation.restored with
      | .ok calculations =>
        .ok (Snapshot.restore ⟨s.nextId, s.costs.map CostTable.inMillis, calculations⟩)
      | .error _ => .error decodeError := by
  rw [load, decode_save]
  cases s.all.mapM Calculation.restored <;> rfl

variable {s t : Store}

section

variable {α β γ ε : Type} {f : α → Except ε β} {l : List α} {r : List β}

theorem mapM_cons_eq_ok {a : α} :
    (a :: l).mapM f = .ok r ↔ ∃ b bs, f a = .ok b ∧ l.mapM f = .ok bs ∧ r = b :: bs := by
  simp only [List.mapM_cons, bind_eq_ok, exists_and_left, pure, Except.pure, Except.ok.injEq,
    eq_comm (b := r)]

theorem mem_of_mapM_eq_ok (h : l.mapM f = .ok r) {b : β} : b ∈ r ↔ ∃ a ∈ l, f a = .ok b := by
  induction l generalizing r with
  | nil =>
    cases h
    simp
  | cons a l ih =>
    obtain ⟨c, cs, first, rest, rfl⟩ := mapM_cons_eq_ok.1 h
    rw [List.mem_cons, ih rest]
    simp [first, eq_comm]

theorem map_of_mapM_eq_ok (h : l.mapM f = .ok r) {g : α → γ} {g' : β → γ}
    (same : ∀ a b, f a = .ok b → g' b = g a) : r.map g' = l.map g := by
  induction l generalizing r with
  | nil =>
    cases h
    rfl
  | cons a l ih =>
    obtain ⟨c, cs, first, rest, rfl⟩ := mapM_cons_eq_ok.1 h
    rw [List.map_cons, List.map_cons, same a c first, ih rest]

theorem exists_mapM_eq_ok : (∃ r, l.mapM f = .ok r) ↔ ∀ a ∈ l, ∃ b, f a = .ok b := by
  induction l with
  | nil => exact ⟨fun _ _ member => (nomatch member), fun _ => ⟨[], rfl⟩⟩
  | cons a l ih =>
    rw [List.forall_mem_cons, ← ih]
    constructor
    · rintro ⟨r, read⟩
      obtain ⟨b, bs, first, rest, _⟩ := mapM_cons_eq_ok.1 read
      exact ⟨⟨b, first⟩, bs, rest⟩
    · rintro ⟨⟨b, first⟩, bs, rest⟩
      exact ⟨b :: bs, mapM_cons_eq_ok.2 ⟨b, bs, first, rest, rfl⟩⟩

end

/-- A file is read back if and only if no result is out of range. -/
theorem load_save_eq_ok (s : Store) :
    (∃ t, load s.save = .ok t) ↔ ∀ c ∈ s.all, ∃ d, c.restored = .ok d := by
  rw [← exists_mapM_eq_ok, load_save]
  cases s.all.mapM Calculation.restored with
  | error fault =>
    constructor
    · rintro ⟨t, loaded⟩
      cases loaded
    · rintro ⟨r, read⟩
      cases read
  | ok calculations => exact ⟨fun _ => ⟨_, rfl⟩, fun _ => ⟨_, rfl⟩⟩

theorem costs_load (loaded : load s.save = .ok t) : t.costs = s.costs.map CostTable.inMillis := by
  rw [load_save] at loaded
  split at loaded
  · cases loaded
    rfl
  · cases loaded

/-- What is read back has what is left of the records that were written, under their numbers. -/
theorem Keyed.find?_load (keyed : s.Keyed) (loaded : load s.save = .ok t) (id : Calculation.Id)
    (d : Calculation) :
    t.find? id = some d ↔ ∃ c, s.find? id = some c ∧ c.restored = .ok d := by
  rw [load_save] at loaded
  cases read : s.all.mapM Calculation.restored with
  | error fault =>
    rw [read] at loaded
    cases loaded
  | ok calculations =>
    rw [read] at loaded
    cases loaded
    have ids := map_of_mapM_eq_ok read fun _ _ => Calculation.id_restored
    have numbered : ∀ c ∈ calculations, c.id ≠ none := by
      intro c member
      obtain ⟨b, listed, kept⟩ := (mem_of_mapM_eq_ok read).1 member
      obtain ⟨key, found⟩ := mem_all.1 listed
      rw [Calculation.id_restored kept, keyed key b found]
      exact Option.some_ne_none key
    have distinct : (calculations.map Calculation.id).Nodup := ids ▸ keyed.nodup_ids
    rw [Snapshot.find?_restore numbered distinct, mem_of_mapM_eq_ok read]
    constructor
    · rintro ⟨⟨c, listed, kept⟩, named⟩
      obtain ⟨key, found⟩ := mem_all.1 listed
      have same := keyed key c found
      rw [← Calculation.id_restored kept, named] at same
      cases same
      exact ⟨c, found, kept⟩
    · rintro ⟨c, found, kept⟩
      exact ⟨⟨c, mem_all.2 ⟨id, found⟩, kept⟩,
        (Calculation.id_restored kept).trans (keyed id c found)⟩

end Store

end Reckoner
