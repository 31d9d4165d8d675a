import Reckoner.Proofs.Formula.Words

/-!
# Words in their places

`Scans` says which lexemes stand in a text that begins at some offset, up to its end or its first
fault, and `ofText_eq` that these are what the lexer finds. `Scans.append` reads two texts behind
each other. `Scans.cut` and `Scans.cut_fault` take a text apart in front of a lexeme or the fault,
with nothing said about what comes behind it.
-/

namespace Reckoner.Formula

theorem isNumeric_of_isBlank {c : Char} (blank : Text.isBlank c = true) :
    isNumeric c = false := by
  by_contra numeric
  simp [isBlank_of_isNumeric (Bool.not_eq_false _ ▸ numeric)] at blank

/-! ### Items -/

/-- The characters of a word or of a fault, with the answer to them. -/
inductive Item : List Char → Answer → Prop
  | symbol {c : Char} {t : Token} : symbol? c = some t → Item [c] (.token t)
  | numeral {run : List Char} :
      IsNumeral run → Item run (.token (.number (numeralValue run)))
  | malformed {run : List Char} : run ≠ [] → (∀ c ∈ run, isNumeric c = true) → ¬ IsNumeral run →
      Item run (.fault (.malformedNumber run))
  | other {c : Char} : Text.isBlank c = false → symbol? c = none → isNumeric c = false →
      Item [c] (.fault (.unexpectedCharacter c))

/-- Digits and dots, or a single character that is none and no blank. -/
theorem Item.shape {item : List Char} {a : Answer} (h : Item item a) :
    (item ≠ [] ∧ ∀ c ∈ item, isNumeric c = true) ∨
      ∃ c, item = [c] ∧ isNumeric c = false ∧ Text.isBlank c = false := by
  cases h with
  | symbol found => exact .inr ⟨_, rfl, isNumeric_of_symbol? found, isBlank_of_symbol? found⟩
  | numeral numeral =>
    obtain ⟨c, cs, rfl, _⟩ := numeral.exists_cons
    exact .inl ⟨List.cons_ne_nil _ _, numeral.1⟩
  | malformed some numeric _ => exact .inl ⟨some, numeric⟩
  | other blank _ numeric => exact .inr ⟨_, rfl, numeric, blank⟩

theorem Item.exists_cons {item : List Char} {a : Answer} (h : Item item a) :
    ∃ c cs, item = c :: cs ∧ Text.isBlank c = false := by
  rcases h.shape with ⟨some, numeric⟩ | ⟨c, rfl, _, blank⟩
  · obtain ⟨c, cs, rfl⟩ := List.exists_cons_of_ne_nil some
    exact ⟨c, cs, rfl, isBlank_of_isNumeric (numeric c (by simp))⟩
  · exact ⟨c, [], rfl, blank⟩

theorem Item.ne_nil {item : List Char} {a : Answer} (h : Item item a) : item ≠ [] := by
  obtain ⟨c, cs, rfl, _⟩ := h.exists_cons
  exact List.cons_ne_nil c cs

/-- No run of digits and dots goes on from one text into the other. -/
def Boundary (front back : List Char) : Prop :=
  ∀ c ∈ front.getLast?, ∀ d ∈ back.head?, isNumeric c = true → isNumeric d = false

namespace Boundary

variable {front middle back : List Char}

@[simp] theorem nil_left : Boundary [] back :=
  nofun

theorem of_append (h : Boundary front (middle ++ back)) : Boundary front middle := by
  intro c last d head
  exact h c last d (by simp [Option.mem_def.mp head])

theorem append_right (h : Boundary front middle) (some : middle ≠ []) :
    Boundary front (middle ++ back) := by
  obtain ⟨m, ms, rfl⟩ := List.exists_cons_of_ne_nil some
  exact h

theorem append_left (outer : Boundary front (middle ++ back)) (inner : Boundary middle back) :
    Boundary (front ++ middle) back := by
  intro c last d head numeric
  rw [List.getLast?_append, Option.mem_def, Option.or_eq_some_iff] at last
  rcases last with last | ⟨none, last⟩
  · exact inner c last d head numeric
  · rw [List.getLast?_eq_none_iff] at none
    subst none
    exact outer c last d head numeric

theorem of_isNumeric_eq_false {c : Char} (other : isNumeric c = false) : Boundary [c] back := by
  intro d last _ _ numeric
  obtain rfl := Option.some.inj last
  simp [other] at numeric

end Boundary

/-- A text is empty, or a blank or an item stands in front. -/
theorem text_cases (text : List Char) :
    text = [] ∨ (∃ c cs, text = c :: cs ∧ Text.isBlank c = true) ∨
      ∃ item rest a, text = item ++ rest ∧ Item item a ∧ Boundary item rest := by
  cases text with
  | nil => exact .inl rfl
  | cons c cs =>
    by_cases blank : Text.isBlank c = true
    · exact .inr (.inl ⟨c, cs, rfl, blank⟩)
    refine .inr (.inr ?_)
    by_cases numeric : isNumeric c = true
    · have inside : ∀ d ∈ (c :: cs).takeWhile isNumeric, isNumeric d = true :=
        fun d member => List.all_eq_true.mp (List.all_takeWhile (l := c :: cs)) d member
      have some : (c :: cs).takeWhile isNumeric ≠ [] := by simp [numeric]
      have boundary : Boundary ((c :: cs).takeWhile isNumeric) ((c :: cs).dropWhile isNumeric) :=
        fun _ _ d head _ => not_head_dropWhile isNumeric (c :: cs) d head
      by_cases numeral : IsNumeral ((c :: cs).takeWhile isNumeric)
      · exact ⟨_, _, _, List.takeWhile_append_dropWhile.symm, .numeral numeral, boundary⟩
      · exact ⟨_, _, _, List.takeWhile_append_dropWhile.symm, .malformed some inside numeral,
          boundary⟩
    · have numeric := Bool.eq_false_iff.mpr numeric
      have boundary : Boundary [c] cs := .of_isNumeric_eq_false numeric
      cases found : symbol? c with
      | some t => exact ⟨[c], cs, _, rfl, .symbol found, boundary⟩
      | none =>
        exact ⟨[c], cs, _, rfl, .other (Bool.eq_false_iff.mpr blank) found numeric, boundary⟩

/-! ### What a cursor meets -/

namespace Cursor

variable {position : Nat} {c : Char} {cs item rest : List Char} {a : Answer}

theorem next_blank (blank : Text.isBlank c = true) :
    (⟨position, c :: cs⟩ : Cursor).next = (⟨position + 1, cs⟩ : Cursor).next := by
  have same : (⟨position, c :: cs⟩ : Cursor).skipBlanks = skipBlanks ⟨position + 1, cs⟩ := by
    simp only [skipBlanks, skip, List.takeWhile_cons_of_pos blank, List.length_cons,
      List.drop_succ_cons]
    rw [Nat.add_assoc, Nat.add_comm 1]
  rw [next, next, same]

/-- An item is what is answered, and it is passed over but for an unexpected character. -/
theorem next_item (position : Nat) (h : Item item a) (boundary : Boundary item rest) :
    (⟨position, item ++ rest⟩ : Cursor).next.1 = ⟨position, a⟩ ∧
      ((∀ c, a ≠ .fault (.unexpectedCharacter c)) →
        (⟨position, item ++ rest⟩ : Cursor).next.2 = ⟨position + item.length, rest⟩) := by
  have here : (⟨position, item ++ rest⟩ : Cursor).skipBlanks = ⟨position, item ++ rest⟩ := by
    obtain ⟨c, cs, rfl, blank⟩ := h.exists_cons
    simp [skipBlanks, skip, blank]
  rw [next, here]
  -- A run of digits and dots is read as a whole, whatever it is.
  have run : item ≠ [] → (∀ c ∈ item, isNumeric c = true) →
      (⟨position, item ++ rest⟩ : Cursor).readWord =
        (⟨position, (literal? item).elim (.fault (.malformedNumber item)) fun x =>
          .token (.number x)⟩, ⟨position + item.length, rest⟩) := by
    intro some numeric
    have ends : ∀ d ∈ rest.head?, isNumeric d = false := fun d head =>
      boundary _ (List.getLast?_eq_some_getLast some) d head (numeric _ (List.getLast_mem some))
    have taken := (takeWhile_maximal numeric ends).1
    obtain ⟨c, cs, rfl⟩ := List.exists_cons_of_ne_nil some
    rw [readWord_numeric rfl (numeric c (by simp)), readNumber]
    cases reads : literal? (c :: cs) <;>
      simp only [taken, reads, skip, List.drop_left, Option.elim_none, Option.elim_some]
  cases h with
  | symbol found =>
    have word := readWord_single (c := ⟨position, [_] ++ rest⟩) rfl (isNumeric_of_symbol? found)
    rw [found] at word
    rw [word]
    exact ⟨rfl, fun _ => rfl⟩
  | numeral numeral =>
    obtain ⟨c, cs, rfl, _⟩ := numeral.exists_cons
    rw [run (List.cons_ne_nil c cs) numeral.1,
      (literal?_eq_some_iff numeral.1).mpr ⟨numeral, rfl⟩]
    exact ⟨rfl, fun _ => rfl⟩
  | malformed some numeric numeral =>
    have none : literal? item = none := by
      cases value : literal? item with
      | none => rfl
      | some x => exact absurd ((literal?_eq_some_iff numeric).mp value).1 numeral
    rw [run some numeric, none]
    exact ⟨rfl, fun _ => rfl⟩
  | other blank found numeric =>
    have word := readWord_single (c := ⟨position, [_] ++ rest⟩) rfl numeric
    rw [found] at word
    rw [word]
    exact ⟨rfl, fun known => absurd rfl (known _)⟩

end Cursor

/-! ### Lexemes of a text -/

/-- The lexemes of a text that begins at an offset, and where they end. -/
inductive Scans : Nat → List Char → List Lexeme → Stop → Prop
  | finish {p : Nat} : Scans p [] [] ⟨p, none⟩
  | blank {p : Nat} {c : Char} {cs : List Char} {xs : List Lexeme} {stop : Stop} :
      Text.isBlank c = true → Scans (p + 1) cs xs stop → Scans p (c :: cs) xs stop
  | token {p : Nat} {item rest : List Char} {t : Token} {xs : List Lexeme} {stop : Stop} :
      Item item (.token t) → Boundary item rest → Scans (p + item.length) rest xs stop →
      Scans p (item ++ rest) (⟨p, t⟩ :: xs) stop
  | fault {p : Nat} {item rest : List Char} {f : LexicalFault} :
      Item item (.fault f) → Boundary item rest → Scans p (item ++ rest) [] ⟨p, some f⟩

variable {p q : Nat} {text front back item rest : List Char} {xs ys zs : List Lexeme}
  {stop : Stop} {f : LexicalFault}

theorem exists_scans (p : Nat) (text : List Char) : ∃ xs stop, Scans p text xs stop := by
  induction bound : text.length using Nat.strong_induction_on generalizing p text with
  | _ n ih =>
    subst bound
    rcases text_cases text with rfl | ⟨c, cs, rfl, blank⟩ | ⟨item, rest, a, rfl, here, boundary⟩
    · exact ⟨_, _, .finish⟩
    · obtain ⟨xs, stop, scans⟩ := ih _ (Nat.lt_succ_self _) (p + 1) cs rfl
      exact ⟨xs, stop, .blank blank scans⟩
    · have shorter : rest.length < (item ++ rest).length := by
        have := List.length_pos_iff.mpr here.ne_nil
        rw [List.length_append]
        omega
      cases a with
      | token t =>
        obtain ⟨xs, stop, scans⟩ := ih _ shorter (p + item.length) rest rfl
        exact ⟨_, stop, .token here boundary scans⟩
      | fault f => exact ⟨_, _, .fault here boundary⟩
      | finish => cases here

namespace Scans

theorem symbol {c : Char} {t : Token} (found : symbol? c = some t)
    (scans : Scans (p + 1) text xs stop) : Scans p (c :: text) (⟨p, t⟩ :: xs) stop := by
  show Scans p ([c] ++ text) (⟨p, t⟩ :: xs) stop
  exact .token (.symbol found) (.of_isNumeric_eq_false (isNumeric_of_symbol? found)) scans

theorem ofReadings_eq (h : Scans p text xs stop) (fallback : Nat) {n : Nat}
    (enough : text.length < n) :
    Lexed.ofReadings fallback ((⟨p, text⟩ : Cursor).answers n) = ⟨xs, stop⟩ := by
  induction h generalizing n with
  | finish =>
    obtain ⟨n, rfl⟩ := Nat.exists_eq_succ_of_ne_zero (Nat.ne_of_gt enough)
    rfl
  | blank blank _ ih =>
    obtain ⟨n, rfl⟩ := Nat.exists_eq_succ_of_ne_zero (Nat.ne_of_gt (Nat.zero_lt_of_lt enough))
    rw [← ih (Nat.lt_of_succ_lt enough), Cursor.answers, Cursor.next_blank blank, Cursor.answers]
  | @token p item rest t xs stop here boundary _ ih =>
    obtain ⟨n, rfl⟩ := Nat.exists_eq_succ_of_ne_zero (Nat.ne_of_gt (Nat.zero_lt_of_lt enough))
    obtain ⟨answer, behind⟩ := Cursor.next_item p here boundary
    have fewer : rest.length < n := by
      have := List.length_pos_iff.mpr here.ne_nil
      rw [List.length_append] at enough
      omega
    have known : ∀ c, Answer.token t ≠ .fault (.unexpectedCharacter c) := by
      intro c same
      cases same
    rw [Cursor.answers, answer, behind known, Lexed.ofReadings, ih fewer]
  | @fault p item rest f here boundary =>
    obtain ⟨n, rfl⟩ := Nat.exists_eq_succ_of_ne_zero (Nat.ne_of_gt (Nat.zero_lt_of_lt enough))
    rw [Cursor.answers, (Cursor.next_item p here boundary).1, Lexed.ofReadings]

theorem ofText_eq (h : Scans 0 text xs stop) : Lexed.ofText text = ⟨xs, stop⟩ :=
  h.ofReadings_eq text.length (Nat.lt_succ_self _)

theorem position_eq (h : Scans p text xs ⟨q, none⟩) : q = p + text.length := by
  generalize same : (⟨q, none⟩ : Stop) = stop at h
  induction h with
  | finish => cases same; rfl
  | blank _ _ ih => rw [ih same, List.length_cons]; omega
  | token _ _ _ ih => rw [ih same, List.length_append, Nat.add_assoc]
  | fault => cases same

/-- The lexemes of a second text come behind those of a first one. -/
theorem append (first : Scans p front xs ⟨q, none⟩) (boundary : Boundary front back)
    (second : Scans q back ys stop) : Scans p (front ++ back) (xs ++ ys) stop := by
  generalize same : (⟨q, none⟩ : Stop) = ended at first
  induction first with
  | finish => cases same; exact second
  | @blank p c cs _ _ blank _ ih =>
    have inner : Boundary cs back := by
      intro d last
      exact boundary d (by simp [List.getLast?_cons, Option.mem_def.mp last])
    exact .blank blank (ih inner same)
  | @token p item rest _ _ _ here outer _ ih =>
    rw [List.append_assoc]
    have inner : Boundary rest back := by
      intro d last
      exact boundary d (by simp [List.getLast?_append, Option.mem_def.mp last])
    refine .token here ?_ (ih inner same)
    cases rest with
    | nil => simpa using boundary
    | cons d ds => exact outer.append_right (List.cons_ne_nil d ds)
  | fault => cases same

end Scans

theorem scans_ofText (text : List Char) :
    Scans 0 text (Lexed.ofText text).lexemes (Lexed.ofText text).stop := by
  obtain ⟨xs, stop, scans⟩ := exists_scans 0 text
  rw [scans.ofText_eq]
  exact scans

/-! ### Cuts -/

/-- The lexemes lead through a text up to some offset, where the rest of it begins. -/
def Leads (p : Nat) (text : List Char) (xs : List Lexeme) (q : Nat) (rest : List Char) : Prop :=
  ∃ front, text = front ++ rest ∧ Scans p front xs ⟨q, none⟩ ∧ Boundary front rest

theorem leads_blank {c : Char} (blank : Text.isBlank c = true)
    (h : Leads (p + 1) text xs q rest) : Leads p (c :: text) xs q rest := by
  obtain ⟨front, rfl, scans, boundary⟩ := h
  have longer : Boundary ([c] ++ front) rest :=
    .append_left (.of_isNumeric_eq_false (isNumeric_of_isBlank blank)) boundary
  exact ⟨c :: front, rfl, .blank blank scans, longer⟩

theorem leads_token {t : Token} (here : Item item (.token t)) (outer : Boundary item text)
    (h : Leads (p + item.length) text xs q rest) :
    Leads p (item ++ text) (⟨p, t⟩ :: xs) q rest := by
  obtain ⟨front, rfl, scans, boundary⟩ := h
  exact ⟨item ++ front, (List.append_assoc ..).symm, .token here outer.of_append scans,
    .append_left outer boundary⟩

namespace Scans

/-- Every lexeme stands at its offset, behind those before it and in front of the others. -/
theorem cut {x : Lexeme} (h : Scans p text (ys ++ x :: zs) stop) :
    ∃ item rest, Leads p text ys x.start (item ++ rest) ∧ Item item (.token x.token) ∧
      Boundary item rest ∧ Scans (x.start + item.length) rest zs stop := by
  generalize same : ys ++ x :: zs = xs at h
  induction h generalizing ys with
  | finish => simp at same
  | blank blank _ ih =>
    obtain ⟨item, rest, leads, found⟩ := ih same
    exact ⟨item, rest, leads_blank blank leads, found⟩
  | token here boundary scans ih =>
    cases ys with
    | nil =>
      cases same
      exact ⟨_, _, ⟨[], rfl, .finish, .nil_left⟩, here, boundary, scans⟩
    | cons y ys =>
      cases same
      obtain ⟨item, rest, leads, found⟩ := ih rfl
      exact ⟨item, rest, leads_token here boundary leads, found⟩
  | fault => simp at same

theorem cut_fault (h : Scans p text xs ⟨q, some f⟩) :
    ∃ item rest, Leads p text xs q (item ++ rest) ∧ Item item (.fault f) ∧
      Boundary item rest := by
  generalize same : (⟨q, some f⟩ : Stop) = stop at h
  induction h with
  | finish => cases same
  | blank blank _ ih =>
    obtain ⟨item, rest, leads, found⟩ := ih same
    exact ⟨item, rest, leads_blank blank leads, found⟩
  | token here boundary _ ih =>
    obtain ⟨item, rest, leads, found⟩ := ih same
    exact ⟨item, rest, leads_token here boundary leads, found⟩
  | fault here boundary =>
    cases same
    exact ⟨_, _, ⟨[], rfl, .finish, .nil_left⟩, here, boundary⟩

end Scans

end Reckoner.Formula
