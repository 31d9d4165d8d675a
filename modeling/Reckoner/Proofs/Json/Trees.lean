import Reckoner.Json.Reading
import Reckoner.Proofs.Json.Reals

/-!
# Written values

`ofText_written` says that a written value is read to its end, and what tree it is read as.
-/

namespace Reckoner.Json

mutual

/-- The tree that a written value is read as. -/
def reading : Json → Reading
  | null => .null
  | bool b => .bool b
  | whole n => .number (.ofInt n)
  | real x => match Literal.ofFloat x with
    | some l => .number l
    | none => .null
  | text s => .text s
  | list items => .list (readings items) true
  | object members => .object (memberReadings members) true

def readings : List Json → List Reading
  | [] => []
  | v :: vs => reading v :: readings vs

def memberReadings : List (String × Json) → List (Option String × Reading)
  | [] => []
  | (k, v) :: ms => (some k, reading v) :: memberReadings ms

end

/-- Nothing but blanks stands between the parts. -/
structure Spacing.Blank (s : Spacing) : Prop where
  line : ∀ depth, ∀ c ∈ s.line depth, Mark.isSpace c = true
  colon : ∃ before behind, s.colon = before ++ ':' :: behind ∧
    (∀ c ∈ before, Mark.isSpace c = true) ∧ ∀ c ∈ behind, Mark.isSpace c = true

theorem blank_lines : Spacing.lines.Blank where
  line := by
    intro depth c member
    rw [Spacing.lines, List.mem_cons, List.mem_replicate] at member
    rcases member with rfl | ⟨_, rfl⟩ <;> rfl
  colon := ⟨[], [' '], rfl, by simp, by simp [Mark.isSpace]⟩

namespace Reading.Builder

variable {s : Spacing} {rest : List Char}

def Begins (e : Expectation) : Prop :=
  e = .value ∨ e = .firstItem

theorem run_mark {frames : List Frame} {e : Expectation} {m : Mark} {b : Builder}
    (open' : ∀ v, e ≠ .nothing v) (fed : feed ⟨frames, e⟩ m = some b) (ms : List Mark) :
    run ⟨frames, e⟩ (m :: ms) = run b ms := by
  rw [run]
  split
  · exact absurd ‹_› (open' _)
  · simp only [fed]

theorem run_begin {frames : List Frame} {e : Expectation} {m : Mark} {b : Builder}
    (begins : Begins e) (fed : beginValue frames m = some b) (ms : List Mark) :
    run ⟨frames, e⟩ (m :: ms) = run b ms := by
  apply run_mark
  · rintro v rfl
    rcases begins with same | same <;> cases same
  · rcases begins with rfl | rfl
    · exact fed
    · cases m with
      | closeList => cases fed
      | _ => exact fed

theorem delimited_blank {blanks : List Char} (spaces : ∀ c ∈ blanks, Mark.isSpace c = true) {c : Char}
    (h : c.isDigit = false ∧ c ≠ '.' ∧ c ≠ 'e' ∧ c ≠ 'E') : Delimited (blanks ++ c :: rest) := by
  cases blanks with
  | nil => exact delimited_cons h
  | cons d blanks =>
    have space := spaces d (.head _)
    simp only [Mark.isSpace, Bool.or_eq_true, decide_eq_true_eq] at space
    apply delimited_cons
    rcases space with ((rfl | rfl) | rfl) | rfl <;> decide

theorem run_key {members : List (Option String × Reading)} {frames : List Frame} {e : Expectation}
    (begins : e = .key ∨ e = .firstKey) {k : String} (ms : List Mark) :
    run ⟨.object members :: frames, e⟩ (.text k :: ms) =
      run ⟨.member members (some k) :: frames, .colon⟩ ms := by
  rcases begins with rfl | rfl <;> rfl

mutual

theorem run_value (blank : s.Blank) (v : Json) (depth : Nat) (frames : List Frame)
    {e : Expectation} (begins : Begins e) {rest : List Char} (delimited : Delimited rest) :
    run ⟨frames, e⟩ (Mark.ofText (chars s depth v ++ rest)) =
      run (push (reading v) frames) (Mark.ofText rest) := by
  match v with
  | .null =>
    rw [chars, Mark.ofText_null, reading]
    exact run_begin begins rfl _
  | .bool true =>
    rw [chars, Mark.ofText_true, reading]
    exact run_begin begins rfl _
  | .bool false =>
    rw [chars, Mark.ofText_false, reading]
    exact run_begin begins rfl _
  | .whole n =>
    rw [chars, ← Literal.chars_ofInt, Mark.ofText_number (Literal.spelt_ofInt n) delimited, reading]
    exact run_begin begins rfl _
  | .real x =>
    rw [chars, reading]
    cases finite : x.isFinite with
    | true =>
      obtain ⟨l, same, spelt, written, _⟩ := Literal.ofFloat_of_isFinite finite
      rw [← written, Mark.ofText_number spelt delimited, same]
      exact run_begin begins rfl _
    | false =>
      rw [Literal.ofFloat_eq_none finite, realChars, finite, if_neg Bool.false_ne_true,
        Mark.ofText_null]
      exact run_begin begins rfl _
  | .text t =>
    rw [chars, Mark.ofText_quoted, reading]
    exact run_begin begins rfl _
  | .list [] =>
    show run ⟨frames, e⟩ (Mark.ofText ('[' :: ']' :: rest)) = _
    rw [Mark.ofText_openList, Mark.ofText_closeList, run_begin begins rfl]
    rfl
  | .list (v :: vs) =>
    have items := run_items blank v vs (depth + 1) [] frames (.inr rfl) (blank.line depth) rest
    rw [chars, reading, itemChars, block]
    · rw [itemChars] at items
      simp only [List.cons_append, List.append_assoc, List.nil_append]
      rw [Mark.ofText_openList, run_begin begins rfl]
      exact items
    · exact fun same => nomatch same
  | .object [] =>
    show run ⟨frames, e⟩ (Mark.ofText ('{' :: '}' :: rest)) = _
    rw [Mark.ofText_openObject, Mark.ofText_closeObject, run_begin begins rfl]
    rfl
  | .object ((k, v) :: ms) =>
    have members := run_members blank k v ms (depth + 1) [] frames (.inr rfl) (blank.line depth) rest
    rw [chars, reading, memberChars, block]
    · rw [memberChars] at members
      simp only [List.cons_append, List.append_assoc, List.nil_append] at members ⊢
      rw [Mark.ofText_openObject, run_begin begins rfl]
      exact members
    · exact fun same => nomatch same
termination_by sizeOf v

theorem run_items (blank : s.Blank) (v : Json) (vs : List Json) (depth : Nat)
    (items : List Reading) (frames : List Frame) {e : Expectation} (begins : Begins e)
    {ending : List Char} (spaces : ∀ c ∈ ending, Mark.isSpace c = true) (rest : List Char) :
    run ⟨.list items :: frames, e⟩ (Mark.ofText
        ([','].intercalate ((itemChars s depth (v :: vs)).map (s.line depth ++ ·))
          ++ (ending ++ ']' :: rest))) =
      run (push (.list (items.reverse ++ readings (v :: vs)) true) frames) (Mark.ofText rest) := by
  have here {behind : List Char} (delimited : Delimited behind) :
      run ⟨.list items :: frames, e⟩ (Mark.ofText (s.line depth ++ chars s depth v ++ behind)) =
        run ⟨.list (reading v :: items) :: frames, .separator⟩ (Mark.ofText behind) := by
    rw [List.append_assoc, Mark.ofText_spaces (blank.line depth)]
    exact run_value blank v depth _ begins delimited
  match vs with
  | [] =>
    rw [itemChars, itemChars, List.map_singleton, List.intercalate_singleton,
      here (delimited_blank spaces (by decide)), Mark.ofText_spaces spaces, Mark.ofText_closeList]
    show run (push (.list (reading v :: items).reverse true) frames) _ = _
    rw [List.reverse_cons]
    rfl
  | w :: ws =>
    have behind := run_items blank w ws depth (reading v :: items) frames (.inl rfl) spaces rest
    rw [itemChars, List.map_cons, itemChars, List.map_cons, List.intercalate_cons_cons]
    rw [itemChars, List.map_cons] at behind
    simp only [List.append_assoc, List.cons_append, List.nil_append] at behind ⊢
    rw [← List.append_assoc, here (delimited_cons (by decide)), Mark.ofText_comma]
    show run ⟨.list (reading v :: items) :: frames, .value⟩ _ = _
    rw [behind, List.reverse_cons, List.append_assoc]
    rfl
termination_by sizeOf (v :: vs)

theorem run_members (blank : s.Blank) (k : String) (v : Json) (ms : List (String × Json))
    (depth : Nat) (members : List (Option String × Reading)) (frames : List Frame)
    {e : Expectation} (begins : e = .key ∨ e = .firstKey)
    {ending : List Char} (spaces : ∀ c ∈ ending, Mark.isSpace c = true) (rest : List Char) :
    run ⟨.object members :: frames, e⟩ (Mark.ofText
        ([','].intercalate ((memberChars s depth ((k, v) :: ms)).map (s.line depth ++ ·))
          ++ (ending ++ '}' :: rest))) =
      run (push (.object (members.reverse ++ memberReadings ((k, v) :: ms)) true) frames)
        (Mark.ofText rest) := by
  obtain ⟨before, behind, colon, spacesBefore, spacesBehind⟩ := blank.colon
  have here {after : List Char} (delimited : Delimited after) :
      run ⟨.object members :: frames, e⟩ (Mark.ofText
          (s.line depth ++ (quoted k ++ s.colon ++ chars s depth v) ++ after)) =
        run ⟨.object ((some k, reading v) :: members) :: frames, .separator⟩ (Mark.ofText after) := by
    rw [colon]
    simp only [List.append_assoc, List.cons_append]
    rw [Mark.ofText_spaces (blank.line depth), Mark.ofText_quoted, run_key begins,
      Mark.ofText_spaces spacesBefore, Mark.ofText_colon]
    show run ⟨.member members (some k) :: frames, .value⟩ _ = _
    rw [Mark.ofText_spaces spacesBehind]
    exact run_value blank v depth _ (.inl rfl) delimited
  match ms with
  | [] =>
    rw [memberChars, memberChars, List.map_singleton, List.intercalate_singleton,
      here (delimited_blank spaces (by decide)), Mark.ofText_spaces spaces, Mark.ofText_closeObject]
    show run (push (.object ((some k, reading v) :: members).reverse true) frames) _ = _
    rw [List.reverse_cons]
    rfl
  | (k', w) :: ms =>
    have further := run_members blank k' w ms depth ((some k, reading v) :: members) frames
      (.inl rfl) spaces rest
    rw [memberChars, List.map_cons, memberChars, List.map_cons, List.intercalate_cons_cons]
    rw [memberChars, List.map_cons] at further
    simp only [List.append_assoc, List.cons_append, List.nil_append] at further here ⊢
    rw [here (delimited_cons (by decide)), Mark.ofText_comma]
    show run ⟨.object ((some k, reading v) :: members) :: frames, .key⟩ _ = _
    rw [further, List.reverse_cons, List.append_assoc]
    rfl
termination_by sizeOf ((k, v) :: ms)

end

end Reading.Builder

/-- A written value is read to its end, with or without lines. -/
theorem ofText_written {s : Spacing} (blank : s.Blank) (v : Json) :
    Reading.ofText (String.ofList (chars s 0 v)) = (reading v, true) := by
  have whole : Reading.Builder.run ⟨[], .value⟩ (Mark.ofText (chars s 0 v ++ [])) =
      Reading.Builder.run ⟨[], .nothing (reading v)⟩ (Mark.ofText []) :=
    Reading.Builder.run_value blank v 0 [] (.inl rfl) delimited_nil
  rw [List.append_nil] at whole
  rw [Reading.ofText, String.toList_ofList]
  exact whole

theorem ofText_pretty (v : Json) : Reading.ofText v.pretty = (reading v, true) :=
  ofText_written blank_lines v

end Reckoner.Json
