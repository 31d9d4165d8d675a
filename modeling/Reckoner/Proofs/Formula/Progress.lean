import Reckoner.Proofs.Formula.Lexing

/-!
# A text asked for all its words

A cursor can be asked again and again. `Passes` takes a text apart into the pieces that it passes
over, up to the end or to a character that it does not pass, and `Passes.reading_eq` says that it
answers with them one by one. `reads_on` puts together what follows for a text, and for two texts
behind each other.
-/

namespace Reckoner.Formula

variable {p q : Nat} {text front back item rest : List Char}

/-- Whether the cursor stays where it is. -/
def Answer.isFinal : Answer → Bool
  | .finish | .fault (.unexpectedCharacter _) => true
  | .token _ | .fault (.malformedNumber _) => false

namespace Cursor

/-- The cursor after so many questions. -/
def after : Nat → Cursor → Cursor
  | 0, c => c
  | n + 1, c => after n c.next.2

/-- The answer to the question that so many others precede. -/
def reading (c : Cursor) (n : Nat) : Reading :=
  (after n c).next.1

@[simp] theorem reading_zero (c : Cursor) : c.reading 0 = c.next.1 := rfl

@[simp] theorem reading_succ (c : Cursor) (n : Nat) : c.reading (n + 1) = c.next.2.reading n := rfl

theorem answers_eq (n : Nat) (c : Cursor) : answers n c = (List.range n).map c.reading := by
  induction n generalizing c with
  | zero => rfl
  | succ n ih =>
    rw [answers, ih, List.range_succ_eq_map, List.map_cons, List.map_map]
    rfl

theorem reading_blank {c : Char} (blank : Text.isBlank c = true) (n : Nat) :
    (⟨p, c :: text⟩ : Cursor).reading n = (⟨p + 1, text⟩ : Cursor).reading n := by
  cases n with
  | zero => rw [reading_zero, reading_zero, next_blank blank]
  | succ n => rw [reading_succ, reading_succ, next_blank blank]

theorem reading_of_fixed {c : Cursor} (fixed : c.next.2 = c) (n : Nat) :
    c.reading n = c.next.1 := by
  induction n with
  | zero => rfl
  | succ n ih => rw [reading_succ, fixed, ih]

theorem next_unexpected {c : Char} (h : Item [c] (.fault (.unexpectedCharacter c))) :
    (⟨p, c :: text⟩ : Cursor).next =
      (⟨p, .fault (.unexpectedCharacter c)⟩, ⟨p, c :: text⟩) := by
  cases h with
  | other blank found numeric =>
    have here : (⟨p, c :: text⟩ : Cursor).skipBlanks = ⟨p, c :: text⟩ := by
      simp [skipBlanks, skip, blank]
    rw [next, here, readWord_single rfl numeric, found]

end Cursor

/-! ### Pieces -/

/-- Characters that were answered and passed over, and the offset of the first of them. -/
structure Piece where
  start : Nat
  chars : List Char
  answer : Answer

namespace Piece

/-- The offset behind the last character. -/
def stop (x : Piece) : Nat :=
  x.start + x.chars.length

def reading (x : Piece) : Reading :=
  ⟨x.start, x.answer⟩

end Piece

/-- The pieces of a text that begins at an offset, and the answer behind which nothing new comes. -/
inductive Passes : Nat → List Char → List Piece → Reading → Prop
  | finish {p : Nat} : Passes p [] [] ⟨p, .finish⟩
  | unexpected {p : Nat} {c : Char} {cs : List Char} :
      Item [c] (.fault (.unexpectedCharacter c)) →
      Passes p (c :: cs) [] ⟨p, .fault (.unexpectedCharacter c)⟩
  | blank {p : Nat} {c : Char} {cs : List Char} {xs : List Piece} {last : Reading} :
      Text.isBlank c = true → Passes (p + 1) cs xs last → Passes p (c :: cs) xs last
  | item {p : Nat} {item rest : List Char} {a : Answer} {xs : List Piece} {last : Reading} :
      Item item a → a.isFinal = false → Boundary item rest →
      Passes (p + item.length) rest xs last → Passes p (item ++ rest) (⟨p, item, a⟩ :: xs) last

variable {xs ys : List Piece} {x : Piece} {last : Reading}

theorem exists_passes (p : Nat) (text : List Char) : ∃ xs last, Passes p text xs last := by
  induction bound : text.length using Nat.strong_induction_on generalizing p text with
  | _ n ih =>
    subst bound
    rcases text_cases text with rfl | ⟨c, cs, rfl, blank⟩ | ⟨item, rest, a, rfl, here, boundary⟩
    · exact ⟨_, _, .finish⟩
    · obtain ⟨xs, last, passes⟩ := ih _ (Nat.lt_succ_self _) (p + 1) cs rfl
      exact ⟨xs, last, .blank blank passes⟩
    · cases final : a.isFinal with
      | false =>
        have shorter : rest.length < (item ++ rest).length := by
          have := List.length_pos_iff.mpr here.ne_nil
          rw [List.length_append]
          omega
        obtain ⟨xs, last, passes⟩ := ih _ shorter (p + item.length) rest rfl
        exact ⟨_, _, .item here final boundary passes⟩
      | true =>
        cases here with
        | other blank found numeric => exact ⟨_, _, .unexpected (.other blank found numeric)⟩
        | _ => cases final

namespace Passes

/-- A cursor answers with the pieces one by one, and then always in the same way. -/
theorem reading_eq (h : Passes p text xs last) (n : Nat) :
    (⟨p, text⟩ : Cursor).reading n = ((xs.map Piece.reading)[n]?).getD last := by
  induction h generalizing n with
  | finish => exact Cursor.reading_of_fixed rfl n
  | @unexpected p c cs here =>
    have next : (⟨p, c :: cs⟩ : Cursor).next = _ := Cursor.next_unexpected here
    have fixed : (⟨p, c :: cs⟩ : Cursor).next.2 = ⟨p, c :: cs⟩ := by rw [next]
    rw [Cursor.reading_of_fixed fixed, next]
    rfl
  | blank blank _ ih => rw [Cursor.reading_blank blank, ih]
  | @item p item rest a xs last here final boundary _ ih =>
    obtain ⟨answer, behind⟩ := Cursor.next_item p here boundary
    cases n with
    | zero => exact answer
    | succ n =>
      have known : ∀ c, a ≠ .fault (.unexpectedCharacter c) := by
        rintro c rfl
        cases final
      rw [Cursor.reading_succ, behind known, ih]
      rfl

/-- Behind its answer a piece has been passed over. -/
theorem position_after (h : Passes p text xs last) {n : Nat} (here : xs[n]? = some x) :
    (Cursor.after (n + 1) ⟨p, text⟩).position = x.stop := by
  induction h generalizing n with
  | finish | unexpected => cases here
  | blank blank _ ih =>
    rw [← ih here, Cursor.after, Cursor.after, Cursor.next_blank blank]
  | @item p item rest a xs last piece final boundary _ ih =>
    obtain ⟨_, behind⟩ := Cursor.next_item p piece boundary
    have known : ∀ c, a ≠ .fault (.unexpectedCharacter c) := by
      rintro c rfl
      cases final
    rw [Cursor.after, behind known]
    cases n with
    | zero =>
      cases here
      rfl
    | succ n => exact ih here

theorem length_le (h : Passes p text xs last) : xs.length ≤ text.length := by
  induction h with
  | finish | unexpected => exact Nat.zero_le _
  | blank _ _ ih => exact Nat.le_succ_of_le ih
  | item here _ _ _ ih =>
    have := List.length_pos_iff.mpr here.ne_nil
    rw [List.length_cons, List.length_append]
    omega

theorem isFinal_of_mem (h : Passes p text xs last) (member : x ∈ xs) : x.answer.isFinal = false := by
  induction h with
  | finish | unexpected => cases member
  | blank _ _ ih => exact ih member
  | item _ final _ _ ih =>
    rcases List.mem_cons.mp member with rfl | later
    · exact final
    · exact ih later

/-- The last answer is given at the end of the text, or at a character that belongs to no word. -/
theorem last_cases (h : Passes p text xs last) :
    last = ⟨p + text.length, .finish⟩ ∨
      ∃ before c rest, text = before ++ c :: rest ∧
        last = ⟨p + before.length, .fault (.unexpectedCharacter c)⟩ ∧
        Item [c] (.fault (.unexpectedCharacter c)) := by
  induction h with
  | finish => exact .inl rfl
  | unexpected here => exact .inr ⟨[], _, _, rfl, rfl, here⟩
  | @blank p c cs _ _ _ _ ih =>
    rcases ih with rfl | ⟨before, d, rest, rfl, rfl, here⟩
    · exact .inl (by rw [List.length_cons, Nat.add_assoc, Nat.add_comm 1])
    · exact .inr ⟨c :: before, d, rest, rfl,
        by rw [List.length_cons, Nat.add_assoc, Nat.add_comm 1], here⟩
  | @item p item rest _ _ _ _ _ _ _ ih =>
    rcases ih with rfl | ⟨before, d, rest, rfl, rfl, here⟩
    · exact .inl (by rw [List.length_append, Nat.add_assoc])
    · exact .inr ⟨item ++ before, d, rest, (List.append_assoc ..).symm,
        by rw [List.length_append, Nat.add_assoc], here⟩

theorem isFinal_last (h : Passes p text xs last) : last.answer.isFinal = true := by
  rcases h.last_cases with rfl | ⟨_, _, _, _, rfl, _⟩ <;> rfl

/-! ### Places -/

theorem start_lt_stop (h : Passes p text xs last) (member : x ∈ xs) : x.start < x.stop := by
  induction h with
  | finish | unexpected => cases member
  | blank _ _ ih => exact ih member
  | item here _ _ _ ih =>
    rcases List.mem_cons.mp member with rfl | later
    · exact Nat.lt_add_of_pos_right (List.length_pos_iff.mpr here.ne_nil)
    · exact ih later

/-- Every piece begins and ends between the offset of the text and the last answer. -/
theorem within (h : Passes p text xs last) :
    p ≤ last.start ∧ ∀ x ∈ xs, p ≤ x.start ∧ x.stop ≤ last.start := by
  induction h with
  | finish | unexpected => exact ⟨Nat.le_refl _, List.forall_mem_nil _⟩
  | blank _ _ ih =>
    exact ⟨Nat.le_of_succ_le ih.1, fun x member =>
      ⟨Nat.le_of_succ_le (ih.2 x member).1, (ih.2 x member).2⟩⟩
  | item _ _ _ _ ih =>
    refine ⟨Nat.le_of_add_right_le ih.1, List.forall_mem_cons.mpr ⟨⟨Nat.le_refl _, ih.1⟩, ?_⟩⟩
    exact fun x member => ⟨Nat.le_of_add_right_le (ih.2 x member).1, (ih.2 x member).2⟩

/-- Each piece ends where or before the next one begins. -/
theorem ordered (h : Passes p text xs last) : xs.Pairwise fun x y => x.stop ≤ y.start := by
  induction h with
  | finish | unexpected => exact .nil
  | blank _ _ ih => exact ih
  | item _ _ _ behind ih => exact .cons (fun y member => (behind.within.2 y member).1) ih

/-- A piece stands in the text at its place, and none of its run is left behind it. -/
theorem cut (h : Passes p text xs last) (member : x ∈ xs) :
    ∃ before rest, text = before ++ (x.chars ++ rest) ∧ x.start = p + before.length ∧
      Item x.chars x.answer ∧ Boundary x.chars rest := by
  induction h with
  | finish | unexpected => cases member
  | @blank p c cs _ _ _ _ ih =>
    obtain ⟨before, rest, rfl, start, here⟩ := ih member
    exact ⟨c :: before, rest, rfl, by rw [start, List.length_cons]; omega, here⟩
  | @item p item rest _ _ _ here _ boundary _ ih =>
    rcases List.mem_cons.mp member with rfl | later
    · exact ⟨[], rest, rfl, rfl, here, boundary⟩
    · obtain ⟨before, rest, rfl, start, found⟩ := ih later
      exact ⟨item ++ before, rest, (List.append_assoc ..).symm,
        by rw [start, List.length_append]; omega, found⟩

/-- What is no blank in front of the last answer stands in a piece. -/
theorem covers (h : Passes p text xs last) {c : Char} {i : Nat} (here : text[i]? = some c)
    (early : p + i < last.start) (other : Text.isBlank c = false) :
    ∃ x ∈ xs, x.start ≤ p + i ∧ p + i < x.stop := by
  induction h generalizing i with
  | finish => cases here
  | unexpected => exact absurd early (Nat.not_lt.mpr (Nat.le_add_right _ _))
  | blank blank _ ih =>
    cases i with
    | zero =>
      cases here
      simp [blank] at other
    | succ i =>
      have shifted := ih (i := i) here (by omega)
      rwa [Nat.add_assoc, Nat.add_comm 1] at shifted
  | @item p item rest a xs last _ _ _ _ ih =>
    by_cases inside : i < item.length
    · exact ⟨_, .head _, Nat.le_add_right _ _, Nat.add_lt_add_left inside p⟩
    · rw [List.getElem?_append_right (Nat.not_lt.mp inside)] at here
      obtain ⟨x, member, found⟩ := ih here (by omega)
      have same : p + item.length + (i - item.length) = p + i := by omega
      exact ⟨x, .tail _ member, same ▸ found⟩

/-! ### Two texts -/

/-- The pieces of a second text come behind those of a first one that is read to its end. -/
theorem append (first : Passes p front xs ⟨q, .finish⟩) (boundary : Boundary front back)
    (second : Passes q back ys last) : Passes p (front ++ back) (xs ++ ys) last := by
  generalize same : (⟨q, .finish⟩ : Reading) = ended at first
  induction first with
  | finish => cases same; exact second
  | unexpected => cases same
  | @blank p c cs _ _ blank _ ih =>
    have inner : Boundary cs back := by
      intro d ended
      exact boundary d (by simp [List.getLast?_cons, Option.mem_def.mp ended])
    exact .blank blank (ih inner same)
  | @item p item rest _ _ _ here final outer _ ih =>
    rw [List.append_assoc]
    have inner : Boundary rest back := by
      intro d ended
      exact boundary d (by simp [List.getLast?_append, Option.mem_def.mp ended])
    refine .item here final ?_ (ih inner same)
    cases rest with
    | nil => simpa using boundary
    | cons d ds => exact outer.append_right (List.cons_ne_nil d ds)

end Passes

/-- The same answer so many characters later. -/
def Reading.shift (d : Nat) (r : Reading) : Reading :=
  ⟨d + r.start, r.answer⟩

def Piece.shift (d : Nat) (x : Piece) : Piece :=
  ⟨d + x.start, x.chars, x.answer⟩

theorem Passes.shift (h : Passes p text xs last) (d : Nat) :
    Passes (d + p) text (xs.map (Piece.shift d)) (last.shift d) := by
  induction h with
  | finish => exact .finish
  | unexpected here => exact .unexpected here
  | blank blank _ ih => exact .blank blank ih
  | @item p item _ _ _ _ here final boundary _ ih =>
    exact .item here final boundary ((Nat.add_assoc d p item.length).symm ▸ ih)

/-! ### Questions and pieces -/

namespace Passes

theorem reading_of_piece (h : Passes p text xs last) {n : Nat} (here : xs[n]? = some x) :
    (⟨p, text⟩ : Cursor).reading n = x.reading := by
  rw [h.reading_eq, List.getElem?_map, here]
  rfl

theorem reading_of_length_le (h : Passes p text xs last) {n : Nat} (late : xs.length ≤ n) :
    (⟨p, text⟩ : Cursor).reading n = last := by
  rw [h.reading_eq, List.getElem?_eq_none (by rwa [List.length_map])]
  rfl

theorem start_lt_position (h : Passes p text xs last) {i : Nat} (inside : i < xs.length) :
    ((⟨p, text⟩ : Cursor).reading i).start < (Cursor.after (i + 1) ⟨p, text⟩).position := by
  have here := List.getElem?_eq_getElem inside
  rw [h.reading_of_piece here, h.position_after here]
  exact h.start_lt_stop (List.getElem_mem inside)

theorem position_le_start (h : Passes p text xs last) {i j : Nat} (less : i < j)
    (le : j ≤ xs.length) : (Cursor.after (i + 1) ⟨p, text⟩).position ≤
      ((⟨p, text⟩ : Cursor).reading j).start := by
  have inside := Nat.lt_of_lt_of_le less le
  rw [h.position_after (List.getElem?_eq_getElem inside)]
  rcases Nat.lt_or_eq_of_le le with later | rfl
  · rw [h.reading_of_piece (List.getElem?_eq_getElem later)]
    exact List.pairwise_iff_getElem.mp h.ordered i j inside later less
  · rw [h.reading_of_length_le (Nat.le_refl _)]
    exact (h.within.2 _ (List.getElem_mem inside)).2

theorem covers_once (h : Passes 0 text xs last) {c : Char} {place : Nat}
    (here : text[place]? = some c) (other : Text.isBlank c = false) (early : place < last.start) :
    ∃! i, i < xs.length ∧ ((⟨0, text⟩ : Cursor).reading i).start ≤ place ∧
      place < (Cursor.after (i + 1) ⟨0, text⟩).position := by
  obtain ⟨x, member, low, high⟩ := h.covers here (by omega) other
  rw [Nat.zero_add] at low high
  obtain ⟨i, there⟩ := List.mem_iff_getElem?.mp member
  have start := congrArg Reading.start (h.reading_of_piece there)
  have stop := h.position_after there
  refine ⟨i, ⟨(List.getElem?_eq_some_iff.mp there).1, start ▸ low, stop ▸ high⟩, ?_⟩
  rintro j ⟨inside, low', high'⟩
  -- Of two pieces one ends before the other begins.
  rcases Nat.lt_trichotomy i j with before | same | behind
  · have := h.position_le_start before (Nat.le_of_lt inside)
    omega
  · exact same.symm
  · have := h.position_le_start behind (Nat.le_of_lt (List.getElem?_eq_some_iff.mp there).1)
    have : x.reading.start = x.start := rfl
    omega

end Passes

/-! ### What asking on leads to -/

/-- The first so many questions are answered with words and malformed numbers, which stand one
behind the other with only blanks between them, and all later ones with one and the same answer. -/
structure Walk (text : List Char) (n : Nat) : Prop where
  few : n ≤ text.length
  passing : ∀ i < n, ((Cursor.ofText text).reading i).answer.isFinal = false
  stays : ∀ i, n ≤ i → (Cursor.ofText text).reading i = (Cursor.ofText text).reading n
  ends : (Cursor.ofText text).reading n = ⟨text.length, .finish⟩ ∨
    ∃ before c rest, text = before ++ c :: rest ∧
      (Cursor.ofText text).reading n = ⟨before.length, .fault (.unexpectedCharacter c)⟩ ∧
      Item [c] (.fault (.unexpectedCharacter c))
  ascending : ∀ i j, i < j → j ≤ n →
    ((Cursor.ofText text).reading i).start < ((Cursor.ofText text).reading j).start
  standing : ∀ i < n, ∃ before chars rest, text = before ++ (chars ++ rest) ∧
    ((Cursor.ofText text).reading i).start = before.length ∧
    (Cursor.after (i + 1) (.ofText text)).position = before.length + chars.length ∧
    Item chars ((Cursor.ofText text).reading i).answer ∧ Boundary chars rest
  covered : ∀ (place : Nat) (c : Char), text[place]? = some c → Text.isBlank c = false →
    place < ((Cursor.ofText text).reading n).start →
    ∃! i, i < n ∧ ((Cursor.ofText text).reading i).start ≤ place ∧
      place < (Cursor.after (i + 1) (.ofText text)).position

theorem Passes.walk (h : Passes 0 text xs last) : Walk text xs.length := by
  have ended : (Cursor.ofText text).reading xs.length = last :=
    h.reading_of_length_le (Nat.le_refl _)
  exact {
    few := h.length_le
    passing := fun i inside => by
      rw [Cursor.ofText, h.reading_of_piece (List.getElem?_eq_getElem inside)]
      exact h.isFinal_of_mem (List.getElem_mem inside)
    stays := fun i late => (h.reading_of_length_le late).trans ended.symm
    ends := by
      rw [ended]
      simpa only [Nat.zero_add] using h.last_cases
    ascending := fun i j less le =>
      Nat.lt_of_lt_of_le (h.start_lt_position (Nat.lt_of_lt_of_le less le))
        (h.position_le_start less le)
    standing := fun i inside => by
      have here := List.getElem?_eq_getElem inside
      obtain ⟨before, rest, split, start, item, boundary⟩ := h.cut (List.getElem_mem inside)
      rw [Nat.zero_add] at start
      rw [Cursor.ofText, h.reading_of_piece here, h.position_after here]
      exact ⟨before, _, rest, split, start, congrArg (· + _) start, item, boundary⟩
    covered := fun place c here other early =>
      h.covers_once here other (ended ▸ early) }

/-- The first so many questions are answered with tokens, and the next one with the end. -/
def Cursor.ReadsThrough (c : Cursor) (n : Nat) : Prop :=
  (∀ i < n, ∃ t, (c.reading i).answer = .token t) ∧ (c.reading n).answer = .finish

/-- A text that is read to its end ends behind its last piece. -/
theorem Passes.of_readsThrough (h : Passes 0 text xs last) {n : Nat}
    (through : (Cursor.ofText text).ReadsThrough n) :
    n = xs.length ∧ last = ⟨text.length, .finish⟩ := by
  obtain ⟨tokens, finish⟩ := through
  have long : xs.length ≤ n := by
    by_contra short
    have passing := h.walk.passing n (Nat.not_le.mp short)
    rw [finish] at passing
    cases passing
  have ended := h.reading_of_length_le long
  constructor
  · refine Nat.le_antisymm (Nat.not_lt.mp fun more => ?_) long
    obtain ⟨t, token⟩ := tokens _ more
    have final := h.isFinal_last
    rw [← h.reading_of_length_le (Nat.le_refl _), ← Cursor.ofText, token] at final
    cases final
  · rcases h.last_cases with rfl | ⟨before, c, rest, _, rfl, _⟩
    · rw [Nat.zero_add]
    · rw [← Cursor.ofText] at ended
      rw [ended] at finish
      cases finish

/-- Asked again and again, a cursor passes over the words of a text until it has come to the end or
to a character that belongs to none. Where a text is read to its end and no run of digits and dots
goes on behind it, the answers to a second text follow those to the first one. -/
theorem reads_on (front back : List Char) :
    (∃ n, Walk front n) ∧
    ∀ n, (Cursor.ofText front).ReadsThrough n → Boundary front back → ∀ m,
      Cursor.answers (n + m) (.ofText (front ++ back)) =
        Cursor.answers n (.ofText front) ++
          (Cursor.answers m (.ofText back)).map (Reading.shift front.length) := by
  obtain ⟨xs, last, passes⟩ := exists_passes 0 front
  refine ⟨⟨_, passes.walk⟩, fun n through boundary m => ?_⟩
  obtain ⟨rfl, rfl⟩ := passes.of_readsThrough through
  obtain ⟨ys, last, second⟩ := exists_passes 0 back
  have joined := passes.append boundary (second.shift front.length)
  rw [Cursor.answers_eq, List.range_add, List.map_append, List.map_map, Cursor.answers_eq,
    Cursor.answers_eq, List.map_map]
  congr 1
  · refine List.map_congr_left fun i member => ?_
    have inside := List.mem_range.mp member
    have here := List.getElem?_eq_getElem inside
    rw [Cursor.ofText, Cursor.ofText, passes.reading_of_piece here,
      joined.reading_of_piece ((List.getElem?_append_left inside).trans here)]
  · refine List.map_congr_left fun i _ => ?_
    rw [Function.comp_apply, Function.comp_apply, Cursor.ofText, Cursor.ofText, joined.reading_eq,
      second.reading_eq, List.getElem?_map, List.getElem?_append_right (Nat.le_add_right _ _),
      Nat.add_sub_cancel_left, List.getElem?_map, List.getElem?_map]
    cases ys[i]? <;> rfl

/-- An opened group that goes on behind a blank with a malformed factor and a character that belongs
to no word. -/
theorem openGroup_reads_on :
    ((Cursor.ofText ['(', '7', ' ']).ReadsThrough 2 ∧
      Boundary ['(', '7', ' '] ['1', '.', '2', '.', '3', '*', '%', '5']) ∧
    (∃ n, Walk ['(', '7', ' '] n) ∧
    Cursor.answers 6 (.ofText ['(', '7', ' ', '1', '.', '2', '.', '3', '*', '%', '5']) =
      Cursor.answers 2 (.ofText ['(', '7', ' ']) ++
        (Cursor.answers 4 (.ofText ['1', '.', '2', '.', '3', '*', '%', '5'])).map
          (Reading.shift 3) := by
  have through : (Cursor.ofText ['(', '7', ' ']).ReadsThrough 2 := by
    refine ⟨fun i less => ?_, rfl⟩
    match i, less with
    | 0, _ => exact ⟨.leftParen, rfl⟩
    | 1, _ => exact ⟨_, rfl⟩
  have boundary : Boundary ['(', '7', ' '] ['1', '.', '2', '.', '3', '*', '%', '5'] :=
    fun c last d head numeric => by
      obtain rfl : ' ' = c := Option.some.inj last
      cases numeric
  obtain ⟨walk, answers⟩ := reads_on ['(', '7', ' '] ['1', '.', '2', '.', '3', '*', '%', '5']
  exact ⟨⟨through, boundary⟩, walk, answers 2 through boundary 4⟩

end Reckoner.Formula
