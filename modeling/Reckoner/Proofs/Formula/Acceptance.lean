import Reckoner.Proofs.Formula.Grammar
import Reckoner.Proofs.Formula.Words

/-!
# What is read as a formula

The reader shifts token after token. `shift_represents` says what a reader stands for: the open
parentheses and, at each level of them, the operators that wait with their left operands.
`shifts_of_derives` says that a phrase within the limits leads a reader to its tree. Together with
the words of a text they give `parse_accepts_grammar`: the texts that have a formula are those of
the grammar, and the formula is their only tree.
-/

namespace Reckoner.Formula

/-! ### What a reader stands for -/

/-- Tokens of an operator that waits for its right operand, and of its left one. -/
inductive Waits (rank : Rank) : Option (Formula × Operator) → List Token → Prop
  | nothing : Waits rank none []
  | left {ts : List Token} {f : Formula} {op : Operator} :
      Derives rank ts f → rank.joins op = true →
      Waits rank (some (f, op)) (ts ++ [.operator op])

/-- Tokens that wait on one level of parentheses. -/
def Level.Waits (level : Level) (ts : List Token) : Prop :=
  ∃ us vs, ts = us ++ vs ∧ Formula.Waits .sum level.sum us ∧ Formula.Waits .term level.product vs

/-- Tokens up to the innermost open parenthesis. -/
inductive Encloses : List (Nat × Level) → List Token → Prop
  | outside : Encloses [] []
  | inside {position : Nat} {level : Level} {rest : List (Nat × Level)} {ts us : List Token} :
      Encloses rest ts → level.Waits us →
      Encloses ((position, level) :: rest) (ts ++ us ++ [.leftParen])

/-- Tokens of the operand that has just ended, if there is one. -/
def Ends : Option Formula → List Token → Prop
  | none, ts => ts = []
  | some f, ts => Derives .factor ts f

def Reader.Represents (r : Reader) (ts : List Token) : Prop :=
  ∃ us vs ws, ts = us ++ vs ++ ws ∧ Encloses r.enclosing us ∧ r.level.Waits vs ∧
    Ends r.operand ws

theorem represents_start : Reader.start.Represents [] :=
  ⟨[], [], [], rfl, .outside, ⟨[], [], rfl, .nothing, .nothing⟩, rfl⟩

theorem waits_start : Level.start.Waits [] :=
  ⟨[], [], rfl, .nothing, .nothing⟩

theorem attach_term {waiting : Option (Formula × Operator)} {us vs : List Token} {f : Formula}
    {rank : Rank} (above : rank ≠ .factor) (waits : Waits rank waiting us)
    (operand : Derives rank.operand vs f) :
    Derives rank (us ++ vs) (Level.attach waiting f) := by
  cases waits with
  | nothing => exact .single above operand
  | left left joins => simpa [Level.attach] using Derives.link joins left operand

theorem derives_closeProduct {level : Level} {vs ws : List Token} {f : Formula}
    (waits : Waits .term level.product vs) (operand : Derives .factor ws f) :
    Derives .term (vs ++ ws) (level.closeProduct f) :=
  attach_term (by decide) waits operand

theorem derives_close {level : Level} {vs ws : List Token} {f : Formula} (waits : level.Waits vs)
    (operand : Derives .factor ws f) : Derives .sum (vs ++ ws) (level.close f) := by
  obtain ⟨us, vs, rfl, sum, product⟩ := waits
  rw [List.append_assoc]
  exact attach_term (by decide) sum (derives_closeProduct product operand)

theorem waits_wait {level : Level} {vs ws : List Token} {f : Formula} {op : Operator}
    (waits : level.Waits vs) (operand : Derives .factor ws f) :
    (level.wait f op).Waits (vs ++ ws ++ [.operator op]) := by
  by_cases isSum : op.isSum = true
  · refine ⟨_, [], (List.append_nil _).symm, ?_, ?_⟩
    · rw [Level.wait, if_pos isSum]
      exact .left (derives_close waits operand) isSum
    · rw [Level.wait, if_pos isSum]
      exact .nothing
  · obtain ⟨us, vs, rfl, sum, product⟩ := waits
    refine ⟨us, vs ++ ws ++ [.operator op], by simp, ?_, ?_⟩
    · rw [Level.wait, if_neg isSum]
      exact sum
    · rw [Level.wait, if_neg isSum]
      exact .left (derives_closeProduct product operand) (by simp [Rank.joins, isSum])

theorem beginOperand_represents {r r' : Reader} {x : Lexeme} {ts : List Token}
    (none : r.operand = none) (h : r.Represents ts) (shifted : r.beginOperand x = .ok r') :
    r'.Represents (ts ++ [x.token]) := by
  obtain ⟨us, vs, ws, rfl, encloses, waits, ends⟩ := h
  rw [none, Ends] at ends
  subst ends
  unfold Reader.beginOperand at shifted
  split at shifted
  · rename_i v token
    cases shifted
    exact ⟨us, vs, [.number v], by simp [token], encloses, waits, .number v⟩
  · rename_i token
    split at shifted
    · cases shifted
      refine ⟨us ++ vs ++ [.leftParen], [], [], by simp [token], .inside encloses waits,
        waits_start, ?_⟩
      simp [none, Ends]
    · cases shifted
  · cases shifted

theorem afterOperand_represents {r r' : Reader} {f : Formula} {x : Lexeme} {ts : List Token}
    (some : r.operand = some f) (h : r.Represents ts) (shifted : r.afterOperand f x = .ok r') :
    r'.Represents (ts ++ [x.token]) := by
  obtain ⟨us, vs, ws, rfl, encloses, waits, ends⟩ := h
  rw [some, Ends] at ends
  unfold Reader.afterOperand at shifted
  split at shifted
  · rename_i op token
    split at shifted
    · cases shifted
      exact ⟨us, vs ++ ws ++ [.operator op], [], by simp [token], encloses, waits_wait waits ends,
        rfl⟩
    · cases shifted
  · rename_i position outer rest token enclosing
    cases shifted
    rw [enclosing] at encloses
    cases encloses with
    | @inside _ _ _ us us' encloses' waits' =>
      have group := Derives.group (derives_close waits ends)
      exact ⟨us, us', _, by simp [token], encloses', waits', group⟩
  · cases shifted

theorem shift_represents {r r' : Reader} {x : Lexeme} {ts : List Token} (h : r.Represents ts)
    (shifted : r.shift x = .ok r') : r'.Represents (ts ++ [x.token]) := by
  unfold Reader.shift at shifted
  split at shifted
  · exact beginOperand_represents ‹_› h shifted
  · exact afterOperand_represents ‹_› h shifted

theorem shifts_represents {xs : List Lexeme} {r r' : Reader} {ts : List Token}
    (h : r.Represents ts) (shifted : xs.foldlM Reader.shift r = .ok r') :
    r'.Represents (ts ++ xs.map Lexeme.token) := by
  induction xs generalizing r ts with
  | nil =>
    cases shifted
    simpa using h
  | cons x xs ih =>
    rw [List.foldlM_cons] at shifted
    cases step : r.shift x with
    | error e => rw [step] at shifted; cases shifted
    | ok next =>
      rw [step] at shifted
      simpa using ih (shift_represents h step) shifted

/-! ### Counting -/

/-- What one token does to the number of operators and to the open parentheses. -/
theorem shift_counts {r r' : Reader} {x : Lexeme} (shifted : r.shift x = .ok r') :
    (∃ v, x.token = .number v ∧ r'.operators = r.operators ∧
      r'.enclosing.length = r.enclosing.length) ∨
    (∃ op, x.token = .operator op ∧ r.operators < maxOperators ∧
      r'.operators = r.operators + 1 ∧ r'.enclosing.length = r.enclosing.length) ∨
    (x.token = .leftParen ∧ r.enclosing.length < maxNesting ∧ r'.operators = r.operators ∧
      r'.enclosing.length = r.enclosing.length + 1) ∨
    (x.token = .rightParen ∧ r'.operators = r.operators ∧
      r.enclosing.length = r'.enclosing.length + 1) := by
  unfold Reader.shift Reader.beginOperand Reader.afterOperand at shifted
  split at shifted
  · split at shifted
    · rename_i v token
      cases shifted
      exact .inl ⟨v, token, rfl, rfl⟩
    · split at shifted
      · cases shifted
        exact .inr (.inr (.inl ⟨‹_›, ‹_›, rfl, rfl⟩))
      · cases shifted
    · cases shifted
  · split at shifted
    · rename_i op token
      split at shifted
      · cases shifted
        exact .inr (.inl ⟨op, token, ‹_›, rfl, rfl⟩)
      · cases shifted
    · rename_i enclosing
      cases shifted
      exact .inr (.inr (.inr ⟨‹_›, rfl, by simp [enclosing]⟩))
    · cases shifted

theorem shifts_within_limits {xs : List Lexeme} {r r' : Reader}
    (operators : r.operators ≤ maxOperators) (depth : r.enclosing.length ≤ maxNesting)
    (shifted : xs.foldlM Reader.shift r = .ok r') :
    r.operators + operatorsIn (xs.map Lexeme.token) ≤ maxOperators ∧
      deepest r.enclosing.length (xs.map Lexeme.token) ≤ maxNesting := by
  induction xs generalizing r with
  | nil => exact ⟨operators, depth⟩
  | cons x xs ih =>
    rw [List.foldlM_cons] at shifted
    cases step : r.shift x with
    | error e => rw [step] at shifted; cases shifted
    | ok next =>
      rw [step] at shifted
      rcases shift_counts step with ⟨v, token, same, level⟩ | ⟨op, token, room, more, level⟩ |
          ⟨token, room, same, level⟩ | ⟨token, same, level⟩
      · obtain ⟨few, shallow⟩ := ih (by omega) (by omega) shifted
        rw [same, level] at *
        simp only [List.map_cons, token, deepest, operatorsIn, List.countP_cons,
          Token.isOperator] at *
        exact ⟨by simpa using few, shallow⟩
      · obtain ⟨few, shallow⟩ := ih (by omega) (by omega) shifted
        rw [more, level] at *
        simp only [List.map_cons, token, deepest, operatorsIn, List.countP_cons,
          Token.isOperator, ↓reduceIte] at *
        exact ⟨by omega, shallow⟩
      · obtain ⟨few, shallow⟩ := ih (by omega) (by omega) shifted
        rw [same, level] at *
        simp only [List.map_cons, token, deepest, operatorsIn, List.countP_cons,
          Token.isOperator] at *
        exact ⟨by simpa using few, shallow⟩
      · obtain ⟨few, shallow⟩ := ih (by omega) (by omega) shifted
        rw [same] at few
        simp only [List.map_cons, token, deepest, operatorsIn, List.countP_cons,
          Token.isOperator, level, Nat.add_sub_cancel] at *
        exact ⟨by simpa using few, by omega⟩

/-! ### Phrases lead to their trees -/

def Rank.Admits : Rank → Level → Prop
  | sum, level => level = .start
  | term, level => level.product = none
  | factor, _ => True

/-- The levels in front of a phrase and behind it, with its last operand and its tree. -/
def Rank.Reads : Rank → Level → Level → Formula → Formula → Prop
  | sum, _, after, last, f => after.close last = f
  | term, before, after, last, f => after.sum = before.sum ∧ after.closeProduct last = f
  | factor, before, after, last, f => after = before ∧ last = f

theorem admits_operand {rank : Rank} {level : Level} (admits : rank.Admits level) :
    rank.operand.Admits level := by
  cases rank with
  | sum => rw [show level = .start from admits]; rfl
  | term | factor => trivial

theorem reads_single {rank : Rank} {before after : Level} {last f : Formula}
    (admits : rank.Admits before) (reads : rank.operand.Reads before after last f) :
    rank.Reads before after last f := by
  cases rank with
  | sum =>
    obtain ⟨sum, rfl⟩ := reads
    rw [show before = .start from admits] at sum
    simp [Rank.Reads, Level.close, sum, Level.start, Level.attach]
  | term =>
    obtain ⟨rfl, rfl⟩ := reads
    have none : after.product = none := admits
    exact ⟨rfl, by simp [Level.closeProduct, none, Level.attach]⟩
  | factor => exact reads

theorem admits_wait {rank : Rank} {level : Level} {f : Formula} {op : Operator}
    (joins : rank.joins op = true) : rank.operand.Admits (level.wait f op) := by
  cases rank with
  | sum =>
    have isSum : op.isSum = true := joins
    simp [Rank.operand, Rank.Admits, Level.wait, isSum]
  | term | factor => trivial

/-- The operand behind an operator ends a longer phrase. -/
theorem reads_link {rank : Rank} {before middle after : Level} {left last l r : Formula}
    {op : Operator} (joins : rank.joins op = true) (first : rank.Reads before middle left l)
    (second : rank.operand.Reads (middle.wait left op) after last r) :
    rank.Reads before after last (.binary l op r) := by
  cases rank with
  | sum =>
    have isSum : op.isSum = true := joins
    have close : middle.close left = l := first
    obtain ⟨sum, rfl⟩ := second
    simp only [Level.wait, isSum, ↓reduceIte, close] at sum
    simp [Rank.Reads, Level.close, sum, Level.attach]
  | term =>
    have isProduct : op.isSum = false := by simpa [Rank.joins] using joins
    obtain ⟨sum, close⟩ := first
    obtain ⟨rfl, rfl⟩ := second
    simp only [Rank.Reads, Level.wait, isProduct, Bool.false_eq_true, ↓reduceIte, close, sum,
      true_and]
    rfl
  | factor => cases joins

section
variable {level : Level} {enclosing : List (Nat × Level)} {operators : Nat} {x : Lexeme}

theorem shift_number {v : Float} (token : x.token = .number v) :
    Reader.shift ⟨none, level, enclosing, operators⟩ x =
      .ok ⟨some (.number v), level, enclosing, operators⟩ := by
  simp [Reader.shift, Reader.beginOperand, token]

theorem shift_leftParen (token : x.token = .leftParen) (room : enclosing.length < maxNesting) :
    Reader.shift ⟨none, level, enclosing, operators⟩ x =
      .ok ⟨none, .start, (x.start, level) :: enclosing, operators⟩ := by
  simp [Reader.shift, Reader.beginOperand, token, room]

theorem shift_rightParen {f : Formula} {position : Nat} {outer : Level}
    (token : x.token = .rightParen) :
    Reader.shift ⟨some f, level, (position, outer) :: enclosing, operators⟩ x =
      .ok ⟨some (level.close f), outer, enclosing, operators⟩ := by
  simp [Reader.shift, Reader.afterOperand, token]

theorem shift_operator {f : Formula} {op : Operator} (token : x.token = .operator op)
    (room : operators < maxOperators) :
    Reader.shift ⟨some f, level, enclosing, operators⟩ x =
      .ok ⟨none, level.wait f op, enclosing, operators + 1⟩ := by
  simp [Reader.shift, Reader.afterOperand, token, room]

end

/-- A phrase within the limits leads a reader to its tree. -/
theorem shifts_of_derives {rank : Rank} {ts : List Token} {f : Formula} (h : Derives rank ts f)
    {xs : List Lexeme} (tokens : xs.map Lexeme.token = ts) (level : Level)
    (enclosing : List (Nat × Level)) (operators : Nat) (admits : rank.Admits level)
    (few : operators + operatorsIn ts ≤ maxOperators)
    (shallow : deepest enclosing.length ts ≤ maxNesting) :
    ∃ last after, rank.Reads level after last f ∧
      xs.foldlM Reader.shift ⟨none, level, enclosing, operators⟩ =
        .ok ⟨some last, after, enclosing, operators + operatorsIn ts⟩ := by
  induction h generalizing xs level enclosing operators with
  | number v =>
    obtain ⟨x, rfl, token⟩ := List.map_eq_singleton_iff.mp tokens
    refine ⟨.number v, level, ⟨rfl, rfl⟩, ?_⟩
    rw [List.foldlM_cons, shift_number token]
    rfl
  | @group ts f derives ih =>
    obtain ⟨x, rest, rfl, opening, behind⟩ := List.map_eq_cons_iff.mp tokens
    obtain ⟨inside, last, rfl, inner, closes⟩ := List.map_eq_append_iff.mp behind
    obtain ⟨y, rfl, closing⟩ := List.map_eq_singleton_iff.mp closes
    have count : operatorsIn (.leftParen :: ts ++ [.rightParen]) = operatorsIn ts := by
      simp [operatorsIn, Token.isOperator]
    have depth : deepest (enclosing.length + 1) ts ≤ maxNesting := by
      have := derives.deepest_append (enclosing.length + 1) [.rightParen]
      simp only [List.cons_append, deepest] at shallow
      omega
    have room := le_deepest (enclosing.length + 1) ts
    obtain ⟨last, after, close, shifted⟩ := ih inner .start
      ((x.start, level) :: enclosing) operators rfl (by omega) depth
    refine ⟨f, level, ⟨rfl, rfl⟩, ?_⟩
    rw [List.foldlM_cons, shift_leftParen opening (by omega), count]
    show (inside ++ [y]).foldlM Reader.shift _ = _
    rw [List.foldlM_append, shifted]
    show [y].foldlM Reader.shift _ = _
    rw [List.foldlM_cons, shift_rightParen closing, show after.close last = f from close]
    rfl
  | single above derives ih =>
    obtain ⟨last, after, reads, shifted⟩ := ih tokens level enclosing operators
      (admits_operand admits) few shallow
    exact ⟨last, after, reads_single admits reads, shifted⟩
  | @link rank ts us op l r joins left right ihl ihr =>
    obtain ⟨xs, rest, rfl, front, behind⟩ := List.map_eq_append_iff.mp tokens
    obtain ⟨y, ys, rfl, token, back⟩ := List.map_eq_cons_iff.mp behind
    have count : operatorsIn (ts ++ .operator op :: us) = operatorsIn ts + 1 + operatorsIn us := by
      simp only [operatorsIn, List.countP_append, List.countP_cons, Token.isOperator, ↓reduceIte]
      omega
    rw [left.deepest_append] at shallow
    simp only [deepest] at shallow
    obtain ⟨last, middle, first, shifted⟩ := ihl front level enclosing operators admits
      (by omega) (by omega)
    obtain ⟨last', after, second, shifted'⟩ := ihr back (middle.wait last op) enclosing
      (operators + operatorsIn ts + 1) (admits_wait joins) (by omega) (by omega)
    refine ⟨last', after, reads_link joins first second, ?_⟩
    rw [List.foldlM_append, shifted]
    show (y :: ys).foldlM Reader.shift _ = _
    rw [List.foldlM_cons, shift_operator token (by omega)]
    show ys.foldlM Reader.shift _ = _
    rw [shifted', count, Nat.add_assoc, Nat.add_assoc, Nat.add_assoc]

/-! ### Whole texts -/

theorem finish_eq_ok {r : Reader} {stop : Stop} {f : Formula} :
    r.finish stop = .ok f ↔ stop.fault = none ∧ ∃ last, r.operand = some last ∧
      r.enclosing = [] ∧ r.level.close last = f := by
  unfold Reader.finish
  constructor
  · intro h
    split at h
    · cases h
    · cases h
    · cases h
    · rename_i last none some outside
      exact ⟨none, last, some, outside, Except.ok.inj h⟩
  · rintro ⟨none, last, some, outside, rfl⟩
    simp [none, some, outside]

theorem ofLexed_eq_ok {lexed : Lexed} {f : Formula} :
    ofLexed lexed = .ok f ↔ ∃ r, lexed.lexemes.foldlM Reader.shift Reader.start = .ok r ∧
      r.finish lexed.stop = .ok f := by
  unfold ofLexed
  split
  · rename_i empty none
    simp only [reduceCtorEq, false_iff]
    rintro ⟨r, shifted, finished⟩
    rw [empty] at shifted
    cases shifted
    obtain ⟨_, last, some, _⟩ := finish_eq_ok.mp finished
    cases some
  · exact bind_eq_ok

theorem parse_eq_ok {text : String} {f : Formula} :
    parse text = .ok f ↔ ∃ ts, Splits text.toList ts ∧ Derives .sum ts f ∧
      operatorsIn ts ≤ maxOperators ∧ nesting ts ≤ maxNesting := by
  have same : parse text = .ok f ↔ ofLexed (.ofText text.toList) = .ok f := by
    unfold parse ofChars
    cases ofLexed (.ofText text.toList) <;> simp [Except.mapError]
  rw [same, ofLexed_eq_ok]
  constructor
  · rintro ⟨r, shifted, finished⟩
    obtain ⟨none, last, some, outside, rfl⟩ := finish_eq_ok.mp finished
    have words : (Lexed.ofText text.toList).Words _ := ⟨none, rfl⟩
    obtain ⟨few, shallow⟩ := shifts_within_limits (by decide) (by decide) shifted
    obtain ⟨us, vs, ws, split, encloses, waits, ends⟩ :=
      shifts_represents represents_start shifted
    rw [outside] at encloses
    cases encloses
    rw [some] at ends
    have derives := derives_close waits ends
    simp only [List.nil_append] at split
    rw [← split] at derives
    exact ⟨_, lexed_iff_splits.mp words, derives, by simpa [Reader.start] using few, shallow⟩
  · rintro ⟨ts, splits, derives, few, shallow⟩
    obtain ⟨none, tokens⟩ := lexed_iff_splits.mpr splits
    obtain ⟨last, after, close, shifted⟩ :=
      shifts_of_derives derives tokens .start [] 0 rfl (by omega) shallow
    exact ⟨_, shifted, finish_eq_ok.mpr ⟨none, last, rfl, rfl, close⟩⟩

theorem operatorCount_le_of_parse {text : String} {f : Formula} (h : parse text = .ok f) :
    f.operatorCount ≤ text.length := by
  obtain ⟨ts, splits, derives, _, _⟩ := parse_eq_ok.mp h
  calc f.operatorCount = operatorsIn ts := derives.operatorCount_eq
    _ ≤ ts.length := List.countP_le_length
    _ ≤ text.length := splits.length_le

theorem Derives.unique {ts : List Token} {f g : Formula} (first : Derives .sum ts f)
    (second : Derives .sum ts g) (few : operatorsIn ts ≤ maxOperators)
    (shallow : nesting ts ≤ maxNesting) : f = g := by
  have some : ∃ xs : List Lexeme, xs.map Lexeme.token = ts :=
    ⟨ts.map fun t => ⟨0, t⟩, by simp [Function.comp_def]⟩
  obtain ⟨xs, tokens⟩ := some
  obtain ⟨last, after, close, shifted⟩ :=
    shifts_of_derives first tokens .start [] 0 rfl (by omega) shallow
  obtain ⟨last', after', close', shifted'⟩ :=
    shifts_of_derives second tokens .start [] 0 rfl (by omega) shallow
  rw [shifted] at shifted'
  cases shifted'
  exact close.symm.trans close'

/-- The texts that are read as formulas are those of the grammar, with no more than a thousand
operators and no more than 256 parentheses inside each other. The words of such a text and their
tree are the only ones, and the tree is what is read. -/
theorem parse_accepts_grammar (text : String) (f : Formula) :
    (parse text = .ok f ↔ ∃ ts, Splits text.toList ts ∧ Derives .sum ts f ∧
      operatorsIn ts ≤ 1000 ∧ nesting ts ≤ 256) ∧
    (parse text = .ok f ↔ ∃ ts, (∀ us, Splits text.toList us ↔ us = ts) ∧
      (∀ g, Derives .sum ts g ↔ g = f) ∧ operatorsIn ts ≤ 1000 ∧ nesting ts ≤ 256) := by
  refine ⟨parse_eq_ok, ?_⟩
  constructor
  · intro h
    obtain ⟨ts, splits, derives, few, shallow⟩ := parse_eq_ok.mp h
    refine ⟨ts, ?_, ?_, few, shallow⟩
    · exact fun us => ⟨fun other => other.unique splits, fun same => same ▸ splits⟩
    · exact fun g => ⟨fun other => other.unique derives few shallow, fun same => same ▸ derives⟩
  · rintro ⟨ts, splits, derives, few, shallow⟩
    exact parse_eq_ok.mpr ⟨ts, (splits ts).mpr rfl, (derives f).mpr rfl, few, shallow⟩

end Reckoner.Formula
