import Reckoner.Json.Decode
import Reckoner.Proofs.Json.Trees

/-!
# Records in JSON

What the readers make of written values. `readRecord_object` says that an object with one member for
some of the fields, in whatever order, is read field by field in that order.
-/

namespace Reckoner.Json

/-! ### Scalars -/

theorem asText_reading (s : String) : Reading.asText (reading (.text s)) = .ok s := by
  rw [reading]
  rfl

theorem asWhole_reading {low high n : Int} (least : Int64.minValue.toInt ≤ low)
    (greatest : high ≤ UInt64.size) (from' : low ≤ n) (below : n < high) :
    Reading.asWhole low high (reading (.whole n)) = .ok n := by
  have number : (Literal.ofInt n).number = .whole n :=
    Literal.number_ofInt (Int.le_trans least from') (Int.lt_of_lt_of_le below greatest)
  rw [reading, Reading.asWhole]
  simp only [number]
  rw [if_pos ⟨from', below⟩]

theorem asUInt64_reading (n : UInt64) : Reading.asUInt64 (reading (.ofNat n.toNat)) = .ok n := by
  have whole : Reading.asWhole 0 UInt64.size (reading (.whole n.toNat)) = .ok (n.toNat : Int) := by
    apply asWhole_reading
    · decide
    · exact Int.le_refl _
    · exact Int.natCast_nonneg _
    · exact Int.ofNat_lt.2 n.toNat_lt
  rw [Json.ofNat, Reading.asUInt64, whole]
  simp [Except.map]

theorem asFloat_reading {x : Float} (finite : x.isFinite = true) :
    Reading.asFloat (reading (.real x)) =
      (match reread x with
        | some y => .ok y
        | none => .error .malformed) := by
  obtain ⟨l, same, _, _, number⟩ := Literal.ofFloat_of_isFinite finite
  rw [reading, same]
  unfold Reading.asFloat
  simp only [number]
  cases reread x <;> rfl

theorem reading_of_infinite {x : Float} (infinite : x.isFinite = false) :
    reading (.real x) = .null := by
  rw [reading, Literal.ofFloat_eq_none infinite]

theorem reading_ne_null {x : Float} (finite : x.isFinite = true) : reading (.real x) ≠ .null := by
  obtain ⟨l, same, _⟩ := Literal.ofFloat_of_isFinite finite
  rw [reading, same]
  exact fun same => nomatch same

theorem asOption_some {read : Read α} {v : Reading} {a : α} (h : read v = .ok a)
    (present : v ≠ .null) : Reading.asOption read v = .ok (some a) := by
  unfold Reading.asOption
  split
  · exact absurd rfl present
  · rw [h]
    rfl

theorem asOption_error {read : Read α} {v : Reading} {fault : Fault} (h : read v = .error fault)
    (present : v ≠ .null) : Reading.asOption read v = .error fault := by
  unfold Reading.asOption
  split
  · exact absurd rfl present
  · rw [h]
    rfl

/-! ### Objects -/

namespace RecordField

variable {σ : Type} {fields : List (RecordField σ)} {draft : σ}

def membersOf (entries : List (RecordField σ × Reading)) : List (Option String × Reading) :=
  entries.map fun e => (some e.1.name, e.2)

def names (entries : List (RecordField σ × Reading)) : List String :=
  entries.map fun e => e.1.name

def readFields (entries : List (RecordField σ × Reading)) (draft : σ) : Except Fault σ :=
  entries.foldlM (fun draft e => e.1.read e.2 draft) draft

@[simp] theorem readFields_nil : readFields [] draft = .ok draft := rfl

@[simp] theorem readFields_cons (f : RecordField σ) (v : Reading)
    (entries : List (RecordField σ × Reading)) :
    readFields ((f, v) :: entries) draft = f.read v draft >>= readFields entries := rfl

theorem find?_name {f : RecordField σ} (distinct : (fields.map RecordField.name).Nodup)
    (member : f ∈ fields) : fields.find? (·.name = f.name) = some f := by
  induction fields with
  | nil => cases member
  | cons g fields ih =>
    rw [List.map_cons, List.nodup_cons] at distinct
    rw [List.find?_cons]
    cases member with
    | head => simp
    | tail _ behind =>
      have other : g.name ≠ f.name := fun same =>
        distinct.1 (same ▸ List.mem_map_of_mem behind)
      simp only [other, decide_false]
      exact ih distinct.2 behind

theorem readMember_fields {entries : List (RecordField σ × Reading)} {seen : List String}
    (distinct : (fields.map RecordField.name).Nodup) (known : ∀ e ∈ entries, e.1 ∈ fields)
    (once : (names entries).Nodup) (fresh : ∀ e ∈ entries, e.1.name ∉ seen) :
    (membersOf entries).foldlM (readMember fields) (draft, seen) =
      (readFields entries draft).map fun draft =>
        (draft, (names entries).reverse ++ seen) := by
  induction entries generalizing draft seen with
  | nil => rfl
  | cons e entries ih =>
    obtain ⟨f, v⟩ := e
    rw [names, List.map_cons, List.nodup_cons] at once
    have new : seen.contains f.name = false := by
      simpa using fresh _ (.head _)
    have here : readMember fields (draft, seen) (some f.name, v) =
        (f.read v draft).map (·, f.name :: seen) := by
      unfold readMember
      simp only [find?_name distinct (known _ (.head _)), new, Bool.false_eq_true, if_false]
    rw [membersOf, List.map_cons, List.foldlM_cons, readFields_cons]
    show (readMember fields (draft, seen) (some f.name, v) >>= fun state =>
      (membersOf entries).foldlM (readMember fields) state) = _
    rw [here]
    cases f.read v draft with
    | error fault => rfl
    | ok draft =>
      have behind := @ih draft (f.name :: seen) (fun e member => known e (.tail _ member)) once.2 (by
        intro e member again
        rcases List.mem_cons.1 again with same | old
        · exact once.1 (same ▸ List.mem_map_of_mem (f := fun e => e.1.name) member)
        · exact fresh e (.tail _ member) old)
      show (membersOf entries).foldlM (readMember fields) (draft, f.name :: seen) = _
      rw [behind, names, names, List.map_cons, List.reverse_cons, List.append_assoc]
      rfl

/-- An object that has a member for all fields that it needs is read member by member. -/
theorem readRecord_object {entries : List (RecordField σ × Reading)}
    (distinct : (fields.map RecordField.name).Nodup) (known : ∀ e ∈ entries, e.1 ∈ fields)
    (once : (names entries).Nodup)
    (complete : ∀ f ∈ fields, f.inObject = true → ∃ e ∈ entries, e.1.name = f.name) :
    readRecord fields draft (.object (membersOf entries) true) = readFields entries draft := by
  have read := @readMember_fields σ fields draft entries [] distinct known once fun _ _ => nofun
  have present : (fields.any fun f => f.inObject &&
      !((names entries).reverse ++ []).contains f.name) = false := by
    rw [List.any_eq_false]
    intro f member
    cases needed : f.inObject with
    | false => simp
    | true =>
      obtain ⟨e, there, same⟩ := complete f member needed
      have listed : f.name ∈ names entries := List.mem_map.2 ⟨e, there, same⟩
      simpa using listed
  unfold readRecord
  simp only [read]
  cases readFields entries draft with
  | error fault => rfl
  | ok draft =>
    show (if (fields.any fun f => f.inObject &&
      !((names entries).reverse ++ []).contains f.name) = true then _ else _) = _
    rw [present]
    rfl

theorem readRecord_zip (fields : List (RecordField σ)) (draft : σ) (vs : List Reading)
    (distinct : (fields.map RecordField.name).Nodup) (all : fields.length = vs.length) :
    readRecord fields draft (.object (membersOf (fields.zip vs)) true) =
      readFields (fields.zip vs) draft := by
  have fst : (fields.zip vs).map Prod.fst = fields := List.map_fst_zip (Nat.le_of_eq all)
  have listed : names (fields.zip vs) = fields.map RecordField.name := by
    rw [names, ← Function.comp_def (fun f : RecordField σ => f.name) Prod.fst, ← List.map_map, fst]
  apply readRecord_object distinct
  · rintro ⟨f, v⟩ member
    exact (List.of_mem_zip member).1
  · rw [listed]
    exact distinct
  · intro f member _
    have there : f ∈ (fields.zip vs).map Prod.fst := fst.symm ▸ member
    obtain ⟨e, inside, same⟩ := List.mem_map.1 there
    exact ⟨e, inside, congrArg RecordField.name same⟩

/-! ### What all fields keep -/

section

variable {P : σ → Prop} {r : σ}

theorem readMember_keeps (kept : ∀ f ∈ fields, ∀ v d e, P d → f.read v d = .ok e → P e)
    {state next : σ × List String} {member : Option String × Reading} (before : P state.1)
    (read : readMember fields state member = .ok next) : P next.1 := by
  obtain ⟨d, seen⟩ := state
  obtain ⟨key, v⟩ := member
  cases key with
  | none => cases read
  | some key =>
    simp only [readMember] at read
    split at read
    · split at read <;> cases read
      exact before
    · rename_i f found
      split at read
      · cases read
      · cases value : f.read v d with
        | error fault => rw [value] at read; cases read
        | ok e =>
          rw [value] at read
          cases read
          exact kept f (List.mem_of_find?_eq_some found) v d e before value

theorem readMembers_keeps (kept : ∀ f ∈ fields, ∀ v d e, P d → f.read v d = .ok e → P e)
    {members : List (Option String × Reading)} {state last : σ × List String} (before : P state.1)
    (read : members.foldlM (readMember fields) state = .ok last) : P last.1 := by
  induction members generalizing state with
  | nil =>
    cases read
    exact before
  | cons member members ih =>
    rw [List.foldlM_cons] at read
    cases value : readMember fields state member with
    | error fault => rw [value] at read; cases read
    | ok next =>
      rw [value] at read
      exact ih (readMember_keeps kept before value) read

theorem readItems_keeps (kept : ∀ f ∈ fields, ∀ v d e, P d → f.read v d = .ok e → P e)
    {vs : List Reading} {closed : Bool} (before : P draft)
    (read : readItems fields vs closed draft = .ok r) : P r := by
  induction fields generalizing vs draft with
  | nil =>
    cases vs <;> cases closed <;> cases read
    exact before
  | cons f fs ih =>
    have rest := fun g member => kept g (List.mem_cons_of_mem f member)
    cases vs with
    | nil =>
      simp only [readItems] at read
      split at read
      · cases read
      split at read
      · cases read
      · exact ih rest before read
    | cons v vs =>
      simp only [readItems] at read
      cases value : f.read v draft with
      | error fault => rw [value] at read; cases read
      | ok e =>
        rw [value] at read
        exact ih rest (kept f (.head _) v draft e before value) read

theorem readRecord_keeps (kept : ∀ f ∈ fields, ∀ v d e, P d → f.read v d = .ok e → P e)
    (start : P draft) {v : Reading} (read : readRecord fields draft v = .ok r) : P r := by
  unfold readRecord at read
  split at read
  · rename_i members closed
    cases folded : members.foldlM (readMember fields) (draft, []) with
    | error fault => rw [folded] at read; cases read
    | ok last =>
      simp only [folded, bind, Except.bind] at read
      split at read
      · cases read
      split at read <;> cases read
      have begun : P (draft, ([] : List String)).1 := start
      exact readMembers_keeps kept begun folded
  · exact readItems_keeps kept start read
  · cases read

end

end RecordField

end Reckoner.Json
