import Reckoner.Proofs.Formula.Acceptance
import Reckoner.Proofs.Formula.Lexing

/-!
# Rejected texts

A rejection points at the first thing in a text that cannot be right. `parse_error_blames` says so:
what stands before the position can go on to a formula, and an item that is blamed is blamed
whatever comes behind it.
-/

namespace Reckoner.Formula

/-! ### Refusals -/

/-- The first element that is refused, behind those that are not. -/
theorem foldlM_eq_error {α β ε : Type} {step : β → α → Except ε β} {xs : List α} {b : β} {e : ε} :
    xs.foldlM step b = .error e ↔ ∃ ys x zs c, xs = ys ++ x :: zs ∧
      ys.foldlM step b = .ok c ∧ step c x = .error e := by
  constructor
  · intro refused
    induction xs generalizing b with
    | nil => cases refused
    | cons x xs ih =>
      rw [List.foldlM_cons] at refused
      cases first : step b x with
      | error e' =>
        rw [first] at refused
        cases refused
        exact ⟨[], x, xs, b, rfl, rfl, first⟩
      | ok next =>
        rw [first] at refused
        obtain ⟨ys, y, zs, c, rfl, shifted, last⟩ := ih refused
        refine ⟨x :: ys, y, zs, c, rfl, ?_, last⟩
        rw [List.foldlM_cons, first]
        exact shifted
  · rintro ⟨ys, x, zs, c, rfl, shifted, refused⟩
    rw [List.foldlM_append, shifted]
    show (x :: zs).foldlM step c = _
    rw [List.foldlM_cons, refused]
    rfl

/-- The ways in which lexemes are refused. -/
inductive Refuses (xs : List Lexeme) (stop : Stop) : Rejection → Prop
  | empty : xs = [] → stop.fault = none → Refuses xs stop ⟨stop.position, .empty⟩
  | token {ys zs : List Lexeme} {x : Lexeme} {r : Reader} {e : Rejection} :
      xs = ys ++ x :: zs → ys.foldlM Reader.shift .start = .ok r → r.shift x = .error e →
      Refuses xs stop e
  | lexical {r : Reader} {f : LexicalFault} : xs.foldlM Reader.shift .start = .ok r →
      stop.fault = some f → Refuses xs stop ⟨stop.position, .lexical f⟩
  | ends {r : Reader} : xs ≠ [] → xs.foldlM Reader.shift .start = .ok r → stop.fault = none →
      r.operand = none → Refuses xs stop ⟨stop.position, .unexpectedEnd⟩
  | inside {r : Reader} {f : Formula} {opening : Nat} {level : Level} {outer : List (Nat × Level)} :
      xs.foldlM Reader.shift .start = .ok r → stop.fault = none → r.operand = some f →
      r.enclosing = (opening, level) :: outer → Refuses xs stop ⟨opening, .missingClose⟩

theorem ofLexed_eq_bind {xs : List Lexeme} {stop : Stop}
    (some : ¬ (xs = [] ∧ stop.fault = none)) :
    ofLexed ⟨xs, stop⟩ = (do
      let r ← xs.foldlM Reader.shift .start
      r.finish stop) := by
  unfold ofLexed
  split
  · rename_i empty none
    exact absurd ⟨empty, none⟩ some
  · rfl

theorem refuses_of_finish {xs : List Lexeme} {stop : Stop} {r : Reader} {e : Rejection}
    (some : ¬ (xs = [] ∧ stop.fault = none)) (shifted : xs.foldlM Reader.shift .start = .ok r)
    (refused : r.finish stop = .error e) : Refuses xs stop e := by
  unfold Reader.finish at refused
  split at refused
  · cases refused
    exact .lexical shifted ‹_›
  · rename_i none operand
    cases refused
    exact .ends (fun empty => some ⟨empty, none⟩) shifted none operand
  · cases refused
    exact .inside shifted ‹_› ‹_› ‹_›
  · cases refused

theorem ofLexed_eq_error {xs : List Lexeme} {stop : Stop} {e : Rejection} :
    ofLexed ⟨xs, stop⟩ = .error e ↔ Refuses xs stop e := by
  constructor
  · intro refused
    by_cases none : xs = [] ∧ stop.fault = none
    · obtain ⟨rfl, none⟩ := none
      simp only [ofLexed, none] at refused
      cases refused
      exact .empty rfl none
    · rw [ofLexed_eq_bind none] at refused
      cases shifted : xs.foldlM Reader.shift .start with
      | error e' =>
        rw [shifted] at refused
        cases refused
        obtain ⟨ys, x, zs, r, split, front, first⟩ := foldlM_eq_error.mp shifted
        exact .token split front first
      | ok r =>
        rw [shifted] at refused
        exact refuses_of_finish none shifted refused
  · intro refuses
    cases refuses with
    | empty empty none => simp only [ofLexed, empty, none]
    | token split shifted refused =>
      have some : xs ≠ [] := by simp [split]
      rw [ofLexed_eq_bind fun none => some none.1,
        foldlM_eq_error.mpr ⟨_, _, _, _, split, shifted, refused⟩]
      rfl
    | lexical shifted fault =>
      rw [ofLexed_eq_bind fun none => by simp [fault] at none, shifted]
      show Reader.finish _ stop = _
      simp only [Reader.finish, fault]
    | ends some shifted none operand =>
      rw [ofLexed_eq_bind fun empty => some empty.1, shifted]
      show Reader.finish _ stop = _
      simp only [Reader.finish, none, operand]
    | inside shifted none operand enclosing =>
      have some : xs ≠ [] := by
        rintro rfl
        cases shifted
        cases operand
      rw [ofLexed_eq_bind fun empty => some empty.1, shifted]
      show Reader.finish _ stop = _
      simp only [Reader.finish, none, operand, enclosing]

/-- A lexeme that is refused is blamed itself, for where it stands or as one too many. -/
theorem shift_eq_error {r : Reader} {x : Lexeme} {e : Rejection} (refused : r.shift x = .error e) :
    e.position = x.start ∧ (e.fault = .unexpectedToken x.token ∨ e.fault = .unexpectedClose ∨
      e.fault = .tooManyOperators ∨ e.fault = .tooDeep) := by
  have complaint : (Reader.unexpected x).position = x.start ∧
      ((Reader.unexpected x).fault = .unexpectedToken x.token ∨
        (Reader.unexpected x).fault = .unexpectedClose) := by
    unfold Reader.unexpected
    split
    · exact ⟨rfl, .inr rfl⟩
    · exact ⟨rfl, .inl rfl⟩
  unfold Reader.shift Reader.beginOperand Reader.afterOperand at refused
  split at refused
  · split at refused
    · cases refused
    · split at refused <;> cases refused
      exact ⟨rfl, .inr (.inr (.inr rfl))⟩
    · cases refused
      exact ⟨complaint.1, complaint.2.imp_right .inl⟩
  · split at refused
    · split at refused <;> cases refused
      exact ⟨rfl, .inr (.inr (.inl rfl))⟩
    · cases refused
    · cases refused
      exact ⟨complaint.1, complaint.2.imp_right .inl⟩

/-! ### Completions -/

def IsFormula (text : List Char) : Prop :=
  ∃ f, parse (String.ofList text) = .ok f

theorem parse_ofList (text : List Char) :
    parse (String.ofList text) = (ofChars text).mapError Rejection.toError := by
  rw [parse, String.toList_ofList]

section

variable {p q : Nat} {front rest : List Char} {xs ys : List Lexeme} {r : Reader}

theorem isFormula_of_scans {text : List Char} {f : Formula} (scans : Scans 0 text xs ⟨q, none⟩)
    (shifted : xs.foldlM Reader.shift .start = .ok r) (operand : r.operand = some f)
    (outside : r.enclosing = []) : IsFormula text := by
  refine ⟨r.level.close f, ?_⟩
  have read : ofChars text = .ok (r.level.close f) := by
    rw [ofChars, scans.ofText_eq]
    exact ofLexed_eq_ok.mpr ⟨r, shifted, finish_eq_ok.mpr ⟨rfl, f, operand, outside, rfl⟩⟩
  rw [parse_ofList, read]
  rfl

theorem boundary_closing (front : List Char) (n : Nat) :
    Boundary front (List.replicate n ')') := by
  intro _ _ d head _
  obtain rfl := (List.mem_replicate.mp (List.mem_of_mem_head? head)).2
  rfl

theorem exists_closing (p : Nat) (f : Formula) (level : Level) (enclosing : List (Nat × Level))
    (operators : Nat) :
    ∃ xs g level', Scans p (List.replicate enclosing.length ')') xs ⟨p + enclosing.length, none⟩ ∧
      xs.foldlM Reader.shift ⟨some f, level, enclosing, operators⟩ =
        .ok ⟨some g, level', [], operators⟩ := by
  induction enclosing generalizing p f level with
  | nil => exact ⟨[], f, level, .finish, rfl⟩
  | cons opening enclosing ih =>
    obtain ⟨position, outer⟩ := opening
    obtain ⟨xs, g, level', scans, shifted⟩ := ih (p + 1) (level.close f) outer
    refine ⟨⟨p, .rightParen⟩ :: xs, g, level', ?_, ?_⟩
    · rw [Nat.add_right_comm] at scans
      exact .symbol rfl scans
    · rw [List.foldlM_cons, shift_rightParen rfl]
      exact shifted

/-- Whatever a reader has got to, a number and closing parentheses can end it. -/
theorem exists_completion (p : Nat) (r : Reader) :
    ∃ suffix xs q r' f, Scans p suffix xs ⟨q, none⟩ ∧ xs.foldlM Reader.shift r = .ok r' ∧
      r'.operand = some f ∧ r'.enclosing = [] := by
  obtain ⟨operand, level, enclosing, operators⟩ := r
  cases operand with
  | some f =>
    obtain ⟨xs, g, level', scans, shifted⟩ := exists_closing p f level enclosing operators
    exact ⟨_, xs, _, _, g, scans, shifted, rfl, rfl⟩
  | none =>
    obtain ⟨xs, g, level', scans, shifted⟩ :=
      exists_closing (p + 1) (.number (numeralValue ['1'])) level enclosing operators
    have numeral : IsNumeral ['1'] := ⟨by simp [isNumeric], ⟨'1', by simp⟩, by simp⟩
    refine ⟨_, _, _, ⟨some g, level', [], operators⟩, g,
      .token (.numeral numeral) (boundary_closing _ _) scans, ?_, rfl, rfl⟩
    rw [List.foldlM_cons, shift_number rfl]
    exact shifted

/-- Behind lexemes that are not refused, a blank and some more characters make a formula. -/
theorem exists_isFormula (scans : Scans 0 front xs ⟨q, none⟩)
    (shifted : xs.foldlM Reader.shift .start = .ok r) {b : Char} (blank : Text.isBlank b = true) :
    ∃ suffix, IsFormula (front ++ b :: suffix) := by
  obtain ⟨suffix, ys, q', r', f, more, shifted', operand, outside⟩ := exists_completion (q + 1) r
  have boundary : Boundary front (b :: suffix) := by
    intro _ _ d head _
    obtain rfl := Option.some.inj head
    exact isNumeric_of_isBlank blank
  refine ⟨suffix, isFormula_of_scans (scans.append boundary (.blank blank more)) ?_ operand
    outside⟩
  rw [List.foldlM_append, shifted]
  exact shifted'

end

/-! ### Open parentheses -/

/-- An opening parenthesis is added, a closing one takes the innermost away. -/
def Lexeme.opens (openings : List Nat) (x : Lexeme) : List Nat :=
  match x.token with
  | .leftParen => x.start :: openings
  | .rightParen => openings.tail
  | _ => openings

/-- The offsets of the parentheses that are open behind a text, innermost first, with those that
were open in front of it. -/
def openedFrom : Nat → List Nat → List Char → List Nat
  | _, openings, [] => openings
  | p, openings, c :: cs =>
    openedFrom (p + 1)
      (if c = '(' then p :: openings else if c = ')' then openings.tail else openings) cs

def opened (text : List Char) : List Nat :=
  openedFrom 0 [] text

theorem openedFrom_append {p : Nat} {openings : List Nat} (item rest : List Char)
    (other : ∀ c ∈ item, c ≠ '(' ∧ c ≠ ')') :
    openedFrom p openings (item ++ rest) = openedFrom (p + item.length) openings rest := by
  induction item generalizing p with
  | nil => rfl
  | cons c cs ih =>
    obtain ⟨left, right⟩ := other c (by simp)
    rw [List.cons_append, openedFrom, if_neg left, if_neg right,
      ih fun d member => other d (List.mem_cons_of_mem c member), List.length_cons]
    congr 1
    omega

theorem openedFrom_item {p : Nat} {openings : List Nat} {item : List Char} {t : Token}
    (here : Item item (.token t)) (rest : List Char) :
    openedFrom p openings (item ++ rest) =
      openedFrom (p + item.length) (Lexeme.opens openings ⟨p, t⟩) rest := by
  cases here with
  | numeral numeral =>
    refine openedFrom_append item rest fun c member => ⟨?_, ?_⟩ <;>
      · rintro rfl
        exact absurd (numeral.1 _ member) (by decide)
  | @symbol c t found =>
    rcases symbol?_cases found with rfl | rfl | rfl | rfl | rfl | rfl <;> cases found <;> rfl

theorem openedFrom_scans {p q : Nat} {openings : List Nat} {text : List Char} {xs : List Lexeme}
    (scans : Scans p text xs ⟨q, none⟩) :
    openedFrom p openings text = xs.foldl Lexeme.opens openings := by
  generalize same : (⟨q, none⟩ : Stop) = stop at scans
  induction scans generalizing openings with
  | finish => rfl
  | @blank p c cs xs stop blank _ ih =>
    have other : ∀ d ∈ [c], d ≠ '(' ∧ d ≠ ')' := by
      intro d member
      obtain rfl := List.mem_singleton.mp member
      constructor <;>
        · rintro rfl
          cases blank
    rw [← ih same]
    exact openedFrom_append [c] cs other
  | token here _ _ ih => rw [openedFrom_item here, ih same, List.foldl_cons]
  | fault => cases same

theorem shift_opens {r r' : Reader} {x : Lexeme} (shifted : r.shift x = .ok r') :
    r'.enclosing.map Prod.fst = Lexeme.opens (r.enclosing.map Prod.fst) x := by
  rw [Lexeme.opens]
  unfold Reader.shift Reader.beginOperand Reader.afterOperand at shifted
  split at shifted
  · split at shifted
    · rename_i token
      cases shifted
      rw [token]
    · rename_i token
      split at shifted <;> cases shifted
      rw [token]
      rfl
    · cases shifted
  · split at shifted
    · rename_i token
      split at shifted <;> cases shifted
      rw [token]
    · rename_i token enclosing
      cases shifted
      rw [token, enclosing]
      rfl
    · cases shifted

theorem shifts_opens {xs : List Lexeme} {r r' : Reader}
    (shifted : xs.foldlM Reader.shift r = .ok r') :
    r'.enclosing.map Prod.fst = xs.foldl Lexeme.opens (r.enclosing.map Prod.fst) := by
  induction xs generalizing r with
  | nil => cases shifted; rfl
  | cons x xs ih =>
    rw [List.foldlM_cons] at shifted
    cases step : r.shift x with
    | error e => rw [step] at shifted; cases shifted
    | ok next =>
      rw [step] at shifted
      rw [ih shifted, shift_opens step, List.foldl_cons]

/-- An open parenthesis is one of the lexemes. -/
theorem exists_opening {xs : List Lexeme} {openings : List Nat} {p : Nat}
    (member : p ∈ xs.foldl Lexeme.opens openings) :
    p ∈ openings ∨ ∃ ys x zs, xs = ys ++ x :: zs ∧ x.start = p := by
  induction xs generalizing openings with
  | nil => exact .inl member
  | cons x xs ih =>
    rcases ih member with inside | ⟨ys, y, zs, rfl, start⟩
    · have own : p ∈ openings ∨ x.start = p := by
        unfold Lexeme.opens at inside
        split at inside
        · exact (List.mem_cons.mp inside).elim (fun same => .inr same.symm) .inl
        · exact .inl (List.mem_of_mem_tail inside)
        · exact .inl inside
      exact own.imp_right fun start => ⟨[], x, xs, rfl, start⟩
    · exact .inr ⟨x :: ys, y, zs, rfl, start⟩

theorem opened_eq {xs : List Lexeme} {q : Nat} {r : Reader} {text : List Char}
    (scans : Scans 0 text xs ⟨q, none⟩) (shifted : xs.foldlM Reader.shift .start = .ok r) :
    opened text = r.enclosing.map Prod.fst := by
  rw [opened, openedFrom_scans scans, shifts_opens shifted]
  rfl

/-! ### Positions -/

/-- A run of digits and dots that goes on to neither side, or a single other character that is no
blank. -/
def StandsBetween (front item rest : List Char) : Prop :=
  Boundary front item ∧ Boundary item rest ∧
    ((item ≠ [] ∧ ∀ c ∈ item, isNumeric c = true) ∨
      ∃ c, item = [c] ∧ isNumeric c = false ∧ Text.isBlank c = false)

/-- What a rejection says about a text. -/
structure Rejection.Blames (r : Rejection) (text : List Char) : Prop where
  within : r.position ≤ text.length
  /-- What stands before the position can still become a formula. -/
  completes : ∀ b, Text.isBlank b = true →
    ∃ suffix, IsFormula (text.take r.position ++ b :: suffix)
  /-- A text that ends too early can go on. -/
  early : r.fault = .empty ∨ r.fault = .unexpectedEnd → r.position = text.length ∧
    ∀ b, Text.isBlank b = true → ∃ suffix, IsFormula (text ++ b :: suffix)
  /-- The innermost open parenthesis is blamed, and nothing is missing but those that close. -/
  missing : r.fault = .missingClose → (∃ outer, opened text = r.position :: outer) ∧
    IsFormula (text ++ List.replicate (opened text).length ')')
  /-- In all other cases an item is blamed, whatever comes behind it. -/
  item : r.fault ≠ .empty → r.fault ≠ .unexpectedEnd → r.fault ≠ .missingClose →
    ∃ front item rest, text = front ++ item ++ rest ∧ front.length = r.position ∧
      StandsBetween front item rest ∧ ∀ other, Boundary item other →
        parse (String.ofList (front ++ item ++ other)) = .error r.toError

theorem parse_eq_rejection {text : List Char} {r : Rejection} (rejected : ofChars text = .error r) :
    parse (String.ofList text) = .error r.toError := by
  rw [parse_ofList, rejected]
  rfl

section

variable {text front item rest : List Char} {xs ys : List Lexeme} {q : Nat} {r : Reader}
  {e : Rejection}

theorem leads_standsBetween {a : Answer} (leads : Leads 0 text xs q (item ++ rest))
    (here : Item item a) (boundary : Boundary item rest) :
    ∃ front, text = front ++ item ++ rest ∧ front.length = q ∧ Scans 0 front xs ⟨q, none⟩ ∧
      StandsBetween front item rest := by
  obtain ⟨front, rfl, scans, outer⟩ := leads
  have long := scans.position_eq
  exact ⟨front, (List.append_assoc ..).symm, by omega, scans, outer.of_append, boundary, here.shape⟩

/-- Texts that begin with the same lexemes up to an item are refused alike for it. -/
theorem blames_item (scans : Scans 0 front ys ⟨e.position, none⟩)
    (shifted : ys.foldlM Reader.shift .start = .ok r) (between : StandsBetween front item rest)
    (kind : e.fault ≠ .empty ∧ e.fault ≠ .unexpectedEnd ∧ e.fault ≠ .missingClose)
    (alike : ∀ other, Boundary item other → ofChars (front ++ item ++ other) = .error e) :
    e.Blames (front ++ item ++ rest) := by
  have long : front.length = e.position := by
    have := scans.position_eq
    omega
  constructor
  · simp only [List.length_append]
    omega
  · intro b blank
    rw [List.append_assoc, ← long, List.take_left]
    exact exists_isFormula scans shifted blank
  · rintro (empty | ends)
    · exact absurd empty kind.1
    · exact absurd ends kind.2.1
  · exact fun missing => absurd missing kind.2.2
  · intro _ _ _
    exact ⟨front, item, rest, rfl, long, between, fun other boundary =>
      parse_eq_rejection (alike other boundary)⟩

theorem blames_token {x : Lexeme} {zs : List Lexeme} {stop : Stop}
    (scans : Scans 0 text (ys ++ x :: zs) stop)
    (shifted : ys.foldlM Reader.shift .start = .ok r) (refused : r.shift x = .error e) :
    e.Blames text := by
  obtain ⟨position, kind⟩ := shift_eq_error refused
  obtain ⟨item, rest, leads, here, boundary, _⟩ := scans.cut
  obtain ⟨front, rfl, _, before, between⟩ := leads_standsBetween leads here boundary
  rw [← position] at before
  refine blames_item before shifted between ?_ fun other boundary' => ?_
  · rcases kind with same | same | same | same <;> simp [same]
  · obtain ⟨us, stop', behind⟩ := exists_scans (e.position + item.length) other
    have whole := before.append (between.1.append_right here.ne_nil)
      (.token here boundary' behind)
    rw [← List.append_assoc] at whole
    rw [ofChars, whole.ofText_eq]
    exact ofLexed_eq_error.mpr (.token (by rw [position]) shifted refused)

theorem blames_lexical {f : LexicalFault} (scans : Scans 0 text xs ⟨q, some f⟩)
    (shifted : xs.foldlM Reader.shift .start = .ok r) :
    Rejection.Blames ⟨q, .lexical f⟩ text := by
  obtain ⟨item, rest, leads, here, boundary⟩ := scans.cut_fault
  obtain ⟨front, rfl, _, before, between⟩ := leads_standsBetween leads here boundary
  refine blames_item before shifted between (by simp) fun other boundary' => ?_
  have whole := before.append (between.1.append_right here.ne_nil) (.fault here boundary')
  rw [← List.append_assoc, List.append_nil] at whole
  rw [ofChars, whole.ofText_eq]
  exact ofLexed_eq_error.mpr (.lexical shifted rfl)

theorem blames_end (scans : Scans 0 text xs ⟨q, none⟩)
    (shifted : xs.foldlM Reader.shift .start = .ok r) (position : e.position = q)
    (kind : e.fault = .empty ∨ e.fault = .unexpectedEnd) : e.Blames text := by
  have long := scans.position_eq
  have all : e.position = text.length := by omega
  have completes := fun b => exists_isFormula (b := b) scans shifted
  constructor
  · omega
  · rw [all, List.take_length]
    exact completes
  · exact fun _ => ⟨all, completes⟩
  · intro missing
    rcases kind with same | same <;> simp [same] at missing
  · intro empty ends
    exact absurd kind (not_or.mpr ⟨empty, ends⟩)

theorem blames_opening {f : Formula} {opening : Nat} {level : Level} {outer : List (Nat × Level)}
    (scans : Scans 0 text xs ⟨q, none⟩) (shifted : xs.foldlM Reader.shift .start = .ok r)
    (operand : r.operand = some f) (enclosing : r.enclosing = (opening, level) :: outer) :
    Rejection.Blames ⟨opening, .missingClose⟩ text := by
  have openings := opened_eq scans shifted
  have inside : opening ∈ xs.foldl Lexeme.opens [] := by
    rw [← openedFrom_scans scans, ← opened, openings, enclosing]
    exact .head _
  obtain ⟨ys, x, zs, rfl, rfl⟩ := (exists_opening inside).resolve_left List.not_mem_nil
  obtain ⟨item, rest, leads, here, boundary, _⟩ := scans.cut
  obtain ⟨front, same, long, before, _⟩ := leads_standsBetween leads here boundary
  constructor
  · simp only [same, List.length_append]
    omega
  · intro b blank
    rw [List.foldlM_append] at shifted
    cases shifted' : ys.foldlM Reader.shift .start with
    | error e => rw [shifted'] at shifted; cases shifted
    | ok r' =>
      rw [same, List.append_assoc, ← long, List.take_left]
      exact exists_isFormula before shifted' blank
  · rintro (empty | ends)
    · cases empty
    · cases ends
  · intro _
    refine ⟨⟨outer.map Prod.fst, by rw [openings, enclosing]; rfl⟩, ?_⟩
    rw [openings, List.length_map]
    obtain ⟨_, inner, levels, operators⟩ := r
    cases operand
    obtain ⟨us, g, level', closes, closed⟩ := exists_closing q f inner levels operators
    refine isFormula_of_scans (scans.append (boundary_closing _ _) closes) (f := g)
      (r := ⟨some g, level', [], operators⟩) ?_ rfl rfl
    rw [List.foldlM_append, shifted]
    exact closed
  · exact fun _ _ missing => absurd rfl missing

end

/-- The text of a rejection comes from a fault at a position, which is the first thing in the text
that cannot be right. -/
theorem parse_error_blames {text : String} {e : Error} (rejected : parse text = .error e) :
    ∃ r, ofChars text.toList = .error r ∧ e = r.toError ∧ r.Blames text.toList := by
  unfold parse at rejected
  cases refused : ofChars text.toList with
  | ok f => rw [refused] at rejected; cases rejected
  | error r =>
    rw [refused] at rejected
    cases rejected
    refine ⟨r, rfl, rfl, ?_⟩
    have scans := scans_ofText text.toList
    rw [ofChars] at refused
    generalize Lexed.ofText text.toList = lexed at scans refused
    obtain ⟨xs, q, fault⟩ := lexed
    cases ofLexed_eq_error.mp refused with
    | empty empty none =>
      cases empty
      cases none
      exact blames_end scans rfl rfl (.inl rfl)
    | token split shifted first =>
      cases split
      exact blames_token scans shifted first
    | lexical shifted fault =>
      cases fault
      exact blames_lexical scans shifted
    | ends some shifted none operand =>
      cases none
      exact blames_end scans shifted rfl (.inr rfl)
    | inside shifted none operand enclosing =>
      cases none
      exact blames_opening scans shifted operand enclosing

theorem strayClose_blamed :
    parse "2.5) + 1" = .error (.parse 3 "unbalanced parentheses: unexpected ')'") ∧
      ∃ r, ofChars "2.5) + 1".toList = .error r ∧ r.position = 3 ∧
        r.Blames "2.5) + 1".toList := by
  have rejected : parse "2.5) + 1" =
      .error (.parse 3 "unbalanced parentheses: unexpected ')'") := rfl
  obtain ⟨r, refused, same, blames⟩ := parse_error_blames rejected
  exact ⟨rejected, r, refused, (Error.parse.inj same).1.symm, blames⟩

end Reckoner.Formula
