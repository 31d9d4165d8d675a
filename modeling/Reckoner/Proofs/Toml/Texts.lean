import Mathlib.Data.List.TakeWhile
import Reckoner.Toml.Printing
import Reckoner.Toml.Reading

/-!
# Written texts are read back

A text is written between quotes of one of four kinds, with escapes between double ones.
`readValue_textChars` says that each of them is read back, whatever the characters of the text.
-/

namespace Reckoner.Toml

variable {mark c : Char} {cs body rest t : List Char} {long : Bool} {n run : Nat}

/-! ### Quotes in a row -/

/-- How many quotes of a kind stand at the front. -/
def leading (mark : Char) (cs : List Char) : Nat :=
  (cs.takeWhile (· = mark)).length

@[simp] theorem leading_nil (mark : Char) : leading mark [] = 0 := rfl

@[simp] theorem leading_cons_self (mark : Char) (cs : List Char) :
    leading mark (mark :: cs) = leading mark cs + 1 := by
  simp [leading]

theorem leading_cons_other (other : c ≠ mark) : leading mark (c :: cs) = 0 := by
  simp [leading, other]

theorem leading_of_head (other : rest.head? ≠ some mark) : leading mark rest = 0 := by
  cases rest with
  | nil => rfl
  | cons c cs => exact leading_cons_other fun same => other (congrArg some same)

theorem leading_replicate (k : Nat) (other : rest.head? ≠ some mark) :
    leading mark (List.replicate k mark ++ rest) = k := by
  induction k with
  | zero => exact leading_of_head other
  | succ k ih => rw [List.replicate_succ, List.cons_append, leading_cons_self, ih]

/-- The longest run behind the last character and the run that ends there, one character later. -/
def lengthen (mark : Char) (runs : Nat × Nat) (c : Char) : Nat × Nat :=
  if c = mark then (runs.1, runs.2 + 1) else (max runs.1 runs.2, 0)

theorem longestRun_eq (mark : Char) (cs : List Char) :
    longestRun mark cs =
      max (cs.foldl (lengthen mark) (0, 0)).1 (cs.foldl (lengthen mark) (0, 0)).2 :=
  rfl

theorem leading_le_lengthened (cs : List Char) (runs : Nat × Nat) :
    runs.1 ≤ max (cs.foldl (lengthen mark) runs).1 (cs.foldl (lengthen mark) runs).2 ∧
      runs.2 + leading mark cs ≤
        max (cs.foldl (lengthen mark) runs).1 (cs.foldl (lengthen mark) runs).2 := by
  induction cs generalizing runs with
  | nil => exact ⟨Nat.le_max_left _ _, Nat.le_max_right _ _⟩
  | cons c cs ih =>
    obtain ⟨first, second⟩ := ih (lengthen mark runs c)
    rw [List.foldl_cons]
    by_cases same : c = mark
    · subst same
      rw [leading_cons_self]
      simp only [lengthen, if_pos] at first second ⊢
      omega
    · rw [leading_cons_other same]
      simp only [lengthen, if_neg same] at first second ⊢
      omega

/-- No run within a text is longer than its longest one. -/
theorem leading_le_longestRun (front back : List Char) :
    leading mark back ≤ longestRun mark (front ++ back) := by
  rw [longestRun_eq, List.foldl_append]
  exact Nat.le_trans (Nat.le_add_left _ _) (leading_le_lengthened back _).2

/-- Quotes at the front of a text stay the same in front of more text, unless there is nothing
else. -/
theorem leading_append (mark : Char) (cs t : List Char) :
    cs = List.replicate (leading mark cs) mark ∨ leading mark (cs ++ t) = leading mark cs := by
  induction cs with
  | nil => exact .inl rfl
  | cons c cs ih =>
    by_cases same : c = mark
    · subst same
      rw [List.cons_append, leading_cons_self, leading_cons_self]
      exact ih.imp (fun all => congrArg (c :: ·) all) (congrArg (· + 1))
    · rw [List.cons_append, leading_cons_other same, leading_cons_other same]
      exact .inr rfl

/-! ### Reading on -/

namespace Quotes

/-- What is read behind a character that belongs to the text. -/
def keeping (c : Char) (r : Option (List Char × List Char)) : Option (List Char × List Char) :=
  r.map fun (body, rest) => (c :: body, rest)

theorem readBody_close (k : Nat) (few : k ≤ 2) (other : rest.head? ≠ some mark) :
    readBody ⟨mark, true⟩ (n + 1) (List.replicate (k + 3) mark ++ rest) =
      some (List.replicate k mark, rest) := by
  have run : ((List.replicate (k + 3) mark ++ rest).takeWhile (· = mark)).length = k + 3 :=
    leading_replicate (k + 3) other
  unfold readBody
  simp only [run, Bool.true_and]
  rw [if_pos (by simp), if_pos (by omega), Nat.add_sub_cancel, List.drop_left' (by simp)]

theorem readBody_closeShort : readBody ⟨mark, false⟩ (n + 1) (mark :: rest) = some ([], rest) := by
  simp [readBody]

theorem readBody_plain (few : long = true → leading mark (c :: t) < 3)
    (inside : long = false → c ≠ mark) (escape : mark = '"' → c ≠ '\\')
    (plain : isTextChar c = true ∨ long = true ∧ c = '\n') :
    readBody ⟨mark, long⟩ (n + 1) (c :: t) = keeping c (readBody ⟨mark, long⟩ n t) := by
  have run : (long && decide (3 ≤ ((c :: t).takeWhile (· = mark)).length)) = false := by
    cases long with
    | false => rfl
    | true => exact decide_eq_false (Nat.not_le.2 (few rfl))
  have stays : (decide (c = mark) && !long) = false := by
    cases long with
    | false => simp [inside]
    | true => simp
  have letter : (decide (c = '\\') && escapes ⟨mark, long⟩) = false := by
    by_cases double : mark = '"'
    · simp [escape double]
    · simp [escapes, double]
  have kept : (isTextChar c || long && decide (c = '\n')) = true := by
    rcases plain with plain | ⟨rfl, rfl⟩
    · rw [plain, Bool.true_or]
    · rfl
  rw [readBody]
  simp only [run, stays, letter, kept, Bool.false_eq_true, if_false, if_true]
  rfl

theorem readBody_escape (same : endsLine cs = false) (read : readEscape cs = some (c, t)) :
    readBody ⟨'"', long⟩ (n + 1) ('\\' :: cs) = keeping c (readBody ⟨'"', long⟩ n t) := by
  have run : ('\\' :: cs).takeWhile (· = '"') = [] := by simp
  rw [readBody]
  simp [run, same, read, escapes, keeping]

theorem endsLine_cons (other : isSpace c = false) (inLine : c ≠ '\n') :
    endsLine (c :: cs) = false := by
  simp [endsLine, skipSpaces, other, inLine]

end Quotes

/-! ### Escapes -/

theorem hexValue?_upperHex : ∀ n < 16, Json.Mark.hexValue? (upperHex n) = some n := by
  decide

theorem readCode_upperHex (small : c.toNat < 256) (t : List Char) :
    readCode 4 ('0' :: '0' :: upperHex (c.toNat / 16) :: upperHex (c.toNat % 16) :: t) =
      some (c, t) := by
  have zero : Json.Mark.hexValue? '0' = some 0 := rfl
  have high := hexValue?_upperHex (c.toNat / 16) (by omega)
  have low := hexValue?_upperHex (c.toNat % 16) (by omega)
  have code : 16 * (c.toNat / 16) + c.toNat % 16 = c.toNat := by omega
  have valid : c.toNat.isValidChar := .inl (by omega)
  simp [readCode, zero, high, low, code, valid, Char.ofNat_toNat]

theorem toNat_of_needsEscape (h : needsEscape c = true) : c.toNat < 256 := by
  by_contra large
  have plain : isTextChar c = true := by
    simp only [isTextChar, Bool.or_eq_true, Bool.and_eq_true, decide_eq_true_eq]
    omega
  simp [needsEscape, plain] at h

namespace Quotes

/-- A character other than a quote is read as it is written between double quotes. -/
theorem readBody_escaped (other : c ≠ '"') :
    readBody ⟨'"', long⟩ (n + 1) (escaped long c ++ t) = keeping c (readBody ⟨'"', long⟩ n t) := by
  have known : ∀ {d e : Char}, isSpace d = false → d ≠ '\n' → readEscape (d :: t) = some (e, t) →
      readBody ⟨'"', long⟩ (n + 1) ('\\' :: d :: t) = keeping e (readBody ⟨'"', long⟩ n t) :=
    fun other inLine read => readBody_escape (endsLine_cons other inLine) read
  have itself : (isTextChar c = true ∨ long = true ∧ c = '\n') → c ≠ '\\' →
      readBody ⟨'"', long⟩ (n + 1) (c :: t) = keeping c (readBody ⟨'"', long⟩ n t) := by
    intro plain slash
    refine readBody_plain (fun _ => ?_) (fun _ => other) (fun _ => slash) plain
    rw [leading_cons_other other]
    decide
  unfold escaped
  split_ifs with back tab line wide feed carriage slash control
  · subst back
    exact known rfl (by decide) rfl
  · subst tab
    exact known rfl (by decide) rfl
  · subst line
    exact itself (.inr ⟨wide, rfl⟩) (by decide)
  · subst line
    exact known rfl (by decide) rfl
  · subst feed
    exact known rfl (by decide) rfl
  · subst carriage
    exact known rfl (by decide) rfl
  · subst slash
    exact known rfl (by decide) rfl
  · exact readBody_escape (endsLine_cons rfl (by decide))
      (readCode_upperHex (toNat_of_needsEscape control) t)
  · refine itself (.inl ?_) slash
    by_contra unprintable
    exact control (by simp [needsEscape, unprintable, line])

/-! ### Whole bodies -/

theorem head_escaped (long : Bool) (other : c ≠ '"') :
    ∃ d ds, escaped long c = d :: ds ∧ d ≠ '"' ∧ (d = '\n' → c = '\n') := by
  unfold escaped
  split_ifs with back tab line wide feed carriage slash control
  all_goals first
    | exact ⟨_, _, rfl, by decide, fun same => absurd same (by decide)⟩
    | exact ⟨_, _, rfl, by decide, fun _ => line⟩
    | exact ⟨_, _, rfl, other, id⟩

theorem escapedBody_cons (other : c ≠ '"') :
    escapedBody long run (c :: cs) = escaped long c ++ escapedBody long 0 cs :=
  escapedBody.eq_3 long run c cs other

/-- The quotes in front of a long body and its closing quotes: they close it if they are all that
is left of it, and else they are too few. -/
theorem leading_escapedBody (cs rest : List Char) (few : run ≤ 2) :
    (∃ k, k + run ≤ 2 ∧ cs = List.replicate k '"' ∧
      escapedBody true run cs = List.replicate k '"') ∨
    leading '"' (escapedBody true run cs ++ (List.replicate 3 '"' ++ rest)) + run ≤ 2 := by
  induction cs generalizing run with
  | nil => exact .inl ⟨0, by omega, rfl, rfl⟩
  | cons c cs ih =>
    by_cases quote : c = '"'
    · subst quote
      rw [escapedBody]
      by_cases raw : run < 2
      · rw [if_pos (by simpa using raw)]
        rcases @ih (run + 1) (by omega) with ⟨k, less, rfl, same⟩ | less
        · exact .inl ⟨k + 1, by omega, List.replicate_succ.symm,
            (congrArg (_ :: ·) same).trans List.replicate_succ.symm⟩
        · refine .inr ?_
          rw [List.cons_append, leading_cons_self]
          omega
      · rw [if_neg (by simpa using raw), List.cons_append, leading_cons_other (by decide)]
        exact .inr (by omega)
    · obtain ⟨d, ds, shape, different, _⟩ := head_escaped true quote
      refine .inr ?_
      rw [escapedBody_cons quote, shape, List.cons_append, List.cons_append,
        leading_cons_other different]
      omega

/-- What was escaped is read back, and a quote that stands in a long body as it is does not close
it. -/
theorem readBody_escapedBody (cs : List Char) (few : run ≤ 2) (enough : cs.length < n)
    (other : rest.head? ≠ some '"') :
    readBody ⟨'"', long⟩ n (escapedBody long run cs ++
      (List.replicate (if long then 3 else 1) '"' ++ rest)) = some (cs, rest) := by
  induction cs generalizing n run with
  | nil =>
    obtain ⟨n, rfl⟩ := Nat.exists_eq_succ_of_ne_zero (Nat.ne_of_gt (Nat.zero_lt_of_lt enough))
    cases long with
    | true => exact readBody_close 0 (by decide) other
    | false => exact readBody_closeShort
  | cons c cs ih =>
    obtain ⟨n, rfl⟩ := Nat.exists_eq_succ_of_ne_zero (Nat.ne_of_gt (Nat.zero_lt_of_lt enough))
    have shorter : cs.length < n := Nat.lt_of_succ_lt_succ enough
    by_cases quote : c = '"'
    · subst quote
      rw [escapedBody]
      by_cases raw : (long && decide (run < 2)) = true
      · rw [if_pos raw]
        obtain ⟨rfl, few⟩ : long = true ∧ run < 2 := by simpa using raw
        have closing := leading_escapedBody ('"' :: cs) rest (Nat.le_of_lt few)
        rw [escapedBody, if_pos raw] at closing
        rcases closing with ⟨k, less, all, written⟩ | less
        · rw [written, all, if_pos rfl, ← List.append_assoc, List.replicate_append_replicate]
          exact readBody_close k (by omega) other
        · rw [List.cons_append] at less ⊢
          refine (readBody_plain (fun _ => Nat.lt_of_le_of_lt (Nat.le_of_add_right_le less)
            (by decide)) (fun h => by cases h) (fun _ => by decide) (.inl rfl)).trans ?_
          have ended := @ih n (run + 1) few shorter
          rw [if_pos rfl] at ended
          rw [ended]
          rfl
      · rw [if_neg raw, List.cons_append, List.cons_append,
          readBody_escape (endsLine_cons rfl (by decide)) rfl,
          ih (by decide) shorter]
        rfl
    · rw [escapedBody_cons quote, List.append_assoc, readBody_escaped quote, ih (by decide) shorter]
      rfl

theorem length_le_escapedBody (cs : List Char) : cs.length ≤ (escapedBody long run cs).length := by
  induction cs generalizing run with
  | nil => exact Nat.zero_le _
  | cons c cs ih =>
    by_cases quote : c = '"'
    · subst quote
      rw [escapedBody]
      by_cases raw : (long && decide (run < 2)) = true
      · rw [if_pos raw]
        exact Nat.succ_le_succ ih
      · rw [if_neg raw]
        exact Nat.succ_le_succ (ih.trans (Nat.le_succ _))
    · obtain ⟨d, ds, shape, _⟩ := head_escaped long quote
      rw [escapedBody_cons quote, shape, List.cons_append, List.length_cons, List.length_cons,
        List.length_append]
      exact Nat.succ_le_succ (ih.trans (Nat.le_add_left _ _))

theorem head_escapedBody (cs : List Char) (long : Bool) :
    ((escapedBody long 0 cs).head? = some '"' → long = true) ∧
      ((escapedBody long 0 cs).head? = some '\n' → '\n' ∈ cs) := by
  cases cs with
  | nil => simp [escapedBody]
  | cons c cs =>
    by_cases quote : c = '"'
    · subst quote
      cases long <;> simp [escapedBody]
    · obtain ⟨d, ds, shape, different, lines⟩ := head_escaped long quote
      rw [escapedBody_cons quote, shape, List.cons_append, List.head?_cons]
      refine ⟨fun same => absurd (Option.some.inj same) different, fun same => ?_⟩
      rw [lines (Option.some.inj same)]
      exact List.mem_cons_self

theorem readBody_raw (cs : List Char) (enough : cs.length < n) (other : rest.head? ≠ some '\'')
    (plain : ∀ c ∈ cs, isTextChar c = true ∨ long = true ∧ c = '\n')
    (few : ∀ back, back <:+ cs → leading '\'' back ≤ if long then 2 else 0) :
    readBody ⟨'\'', long⟩ n (cs ++ (List.replicate (if long then 3 else 1) '\'' ++ rest)) =
      some (cs, rest) := by
  induction cs generalizing n with
  | nil =>
    obtain ⟨n, rfl⟩ := Nat.exists_eq_succ_of_ne_zero (Nat.ne_of_gt (Nat.zero_lt_of_lt enough))
    cases long with
    | true => exact readBody_close 0 (by decide) other
    | false => exact readBody_closeShort
  | cons c cs ih =>
    obtain ⟨n, rfl⟩ := Nat.exists_eq_succ_of_ne_zero (Nat.ne_of_gt (Nat.zero_lt_of_lt enough))
    have here := few (c :: cs) (List.suffix_refl _)
    have kept
        (short : leading '\'' (c :: cs ++ (List.replicate (if long then 3 else 1) '\'' ++ rest))
        = leading '\'' (c :: cs)) :
        readBody ⟨'\'', long⟩ (n + 1)
          (c :: cs ++ (List.replicate (if long then 3 else 1) '\'' ++ rest)) =
            some (c :: cs, rest) := by
      rw [List.cons_append] at short ⊢
      refine (readBody_plain (fun wide => ?_) (fun narrow same => ?_)
        (fun h => absurd h (by decide))
        (plain c List.mem_cons_self)).trans ?_
      · rw [short]
        rw [wide] at here
        exact Nat.lt_succ_of_le here
      · subst same
        rw [narrow, leading_cons_self] at here
        exact absurd here (Nat.not_succ_le_zero _)
      · rw [ih (Nat.lt_of_succ_lt_succ enough) (fun d m => plain d (List.mem_cons_of_mem _ m))
          fun back behind => few back (behind.trans (List.suffix_cons _ _))]
        rfl
    cases long with
    | false =>
      have other : c ≠ '\'' := by
        rintro rfl
        rw [leading_cons_self] at here
        exact absurd here (Nat.not_succ_le_zero _)
      exact kept (by rw [List.cons_append, leading_cons_other other, leading_cons_other other])
    | true =>
      rcases leading_append '\'' (c :: cs)
        (List.replicate (if true then 3 else 1) '\'' ++ rest) with all | same
      · rw [all, if_pos rfl, ← List.append_assoc, List.replicate_append_replicate]
        exact readBody_close _ here other
      · exact kept same

end Quotes

/-! ### Texts -/

theorem readText_short {q : Quotes} (short : q.long = false) (head : body.head? ≠ some q.mark)
    (other : rest.head? ≠ some q.mark) (length : cs.length ≤ body.length)
    (read : ∀ n, cs.length < n → q.readBody n (body ++ (q.mark :: rest)) = some (cs, rest)) :
    readText q.mark (body ++ q.mark :: rest) = some (String.ofList cs, rest) := by
  obtain ⟨mark, long⟩ := q
  subst short
  have short : readText mark (body ++ mark :: rest) = readShort mark (body ++ mark :: rest) := by
    unfold readText
    split
    · next a b t shape =>
      rw [shape]
      refine if_neg ?_
      rintro ⟨rfl, rfl⟩
      cases body with
      | nil =>
        obtain rfl := (List.cons.inj shape).2
        exact other rfl
      | cons d ds => exact head (congrArg some (List.cons.inj shape).1)
    · rfl
  rw [short, readShort, read _ (by simp; omega)]
  rfl

/-- Behind three quotes only a line feed is passed over. -/
theorem readLong_plain (first : cs.head? ≠ some '\n') :
    readLong mark cs = (Quotes.readBody ⟨mark, true⟩ (cs.length + 1) cs).map
      fun (body, rest) => (String.ofList body, rest) :=
  readLong.eq_2 mark cs fun _ shape => first (shape ▸ rfl)

theorem readText_long {q : Quotes} (long : q.long = true)
    (head : body.head? = some '\n' → '\n' ∈ cs)
    (mark : q.mark ≠ '\n') (length : cs.length ≤ body.length)
    (read : ∀ n, cs.length < n →
      q.readBody n (body ++ (List.replicate 3 q.mark ++ rest)) = some (cs, rest)) :
    readText q.mark (q.mark :: q.mark :: ((if cs.contains '\n' then ['\n'] else []) ++
      (body ++ (List.replicate 3 q.mark ++ rest)))) = some (String.ofList cs, rest) := by
  obtain ⟨q, _⟩ := q
  subst long
  have enough : cs.length < (body ++ (List.replicate 3 q ++ rest)).length + 1 := by
    simp
    omega
  rw [readText, if_pos ⟨rfl, rfl⟩]
  by_cases lines : cs.contains '\n' = true
  · rw [if_pos lines]
    exact congrArg (Option.map _) (read _ enough)
  · rw [if_neg lines, List.nil_append]
    have first : (body ++ (List.replicate 3 q ++ rest)).head? ≠ some '\n' := by
      cases body with
      | nil => exact fun same => mark (Option.some.inj same)
      | cons d ds => exact fun same => lines (by simpa using head same)
    exact (readLong_plain first).trans (congrArg (Option.map _) (read _ enough))

/-- Which quotes stand around a text: double ones, within which everything can be escaped, or single
ones, if it can stand there as it is. -/
theorem quotesFor_cases (cs : List Char) :
    (∃ long, quotesFor cs = ⟨'"', long⟩) ∨
    ∃ long, quotesFor cs = ⟨'\'', long⟩ ∧ longestRun '\'' cs ≤ (if long then 2 else 0) ∧
      ∀ c ∈ cs, isTextChar c = true ∨ long = true ∧ c = '\n' := by
  unfold quotesFor
  extract_lets raw oneLine noBackslash
  have plain (h : raw = true) (c : Char) (m : c ∈ cs) : isTextChar c = true ∨ c = '\n' := by
    have none : cs.any needsEscape = false := by simpa [raw] using h
    have fine : needsEscape c = false := by simpa using List.any_eq_false.1 none c m
    by_contra bad
    rw [not_or] at bad
    simp [needsEscape, bad.1, bad.2] at fine
  have inLine (h : oneLine = true) : '\n' ∉ cs := by simpa [oneLine] using h
  split_ifs with simple single double lines
  · exact .inl ⟨false, rfl⟩
  · simp only [Bool.and_eq_true, decide_eq_true_eq] at single
    obtain ⟨⟨fine, line⟩, run⟩ := single
    refine .inr ⟨false, rfl, run.le, fun c m => .inl ((plain fine c m).resolve_right ?_)⟩
    rintro rfl
    exact inLine line m
  · exact .inl ⟨true, rfl⟩
  · simp only [Bool.and_eq_true, decide_eq_true_eq] at lines
    exact .inr ⟨true, rfl, lines.2, fun c m => (plain lines.1 c m).imp_right fun h => ⟨rfl, h⟩⟩
  · exact .inl ⟨_, rfl⟩

/-- A text within its quotes. -/
def quoted (q : Quotes) (cs body : List Char) : List Char :=
  List.replicate (if q.long then 3 else 1) q.mark ++
    (if q.long && cs.contains '\n' then ['\n'] else []) ++ body ++
    List.replicate (if q.long then 3 else 1) q.mark

theorem textChars_eq (s : String) :
    textChars s = quoted (quotesFor s.toList) s.toList
      (if (quotesFor s.toList).escapes then escapedBody (quotesFor s.toList).long 0 s.toList
        else s.toList) :=
  rfl

theorem readText_quoted {q : Quotes} (mark : q.mark ≠ '\n') (other : rest.head? ≠ some q.mark)
    (length : cs.length ≤ body.length) (first : body.head? = some q.mark → q.long = true)
    (lines : body.head? = some '\n' → '\n' ∈ cs)
    (read : ∀ n, cs.length < n → q.readBody n
      (body ++ (List.replicate (if q.long then 3 else 1) q.mark ++ rest)) = some (cs, rest)) :
    ∃ t, quoted q cs body ++ rest = q.mark :: t ∧
      readText q.mark t = some (String.ofList cs, rest) := by
  cases wide : q.long with
  | false =>
    simp only [wide, Bool.false_eq_true, if_false] at read first
    refine ⟨body ++ q.mark :: rest, by simp [quoted, wide], ?_⟩
    exact readText_short wide first other length read
  | true =>
    simp only [wide, if_true] at read
    refine ⟨_, ?_, readText_long wide lines mark length read⟩
    simp [quoted, wide, List.replicate_succ]

/-- A written text is read back, whatever follows it but a quote. -/
theorem readValue_textChars (s : String) (double : rest.head? ≠ some '"')
    (single : rest.head? ≠ some '\'') :
    readValue n (textChars s ++ rest) = some (.text s, rest) := by
  rw [textChars_eq]
  rcases quotesFor_cases s.toList with ⟨long, shape⟩ | ⟨long, shape, few, plain⟩
  · obtain ⟨first, lines⟩ := Quotes.head_escapedBody s.toList long
    obtain ⟨t, written, read⟩ := readText_quoted (q := ⟨'"', long⟩) (by simp) double
      (Quotes.length_le_escapedBody s.toList) first lines
      fun n enough => Quotes.readBody_escapedBody s.toList (Nat.zero_le 2) enough double
    have escaping : Quotes.escapes ⟨'"', long⟩ = true := rfl
    rw [shape, if_pos escaping, written, readValue, read, String.ofList_toList]
    rfl
  · have few (back) (behind : back <:+ s.toList) : leading '\'' back ≤ if long then 2 else 0 := by
      obtain ⟨front, whole⟩ := behind
      exact (leading_le_longestRun front back).trans (whole ▸ few)
    have first (same : s.toList.head? = some '\'') : long = true := by
      obtain ⟨cs, shape⟩ := List.head?_eq_some_iff.1 same
      by_contra narrow
      have none := few s.toList (List.suffix_refl _)
      rw [shape, leading_cons_self, if_neg narrow] at none
      exact Nat.not_succ_le_zero _ none
    obtain ⟨t, written, read⟩ := readText_quoted (q := ⟨'\'', long⟩) (by simp) single le_rfl first
      List.mem_of_mem_head? fun n enough => Quotes.readBody_raw s.toList enough single plain few
    have escaping : ¬ Quotes.escapes ⟨'\'', long⟩ = true := by simp [Quotes.escapes]
    rw [shape, if_neg escaping, written, readValue, read, String.ofList_toList]
    rfl

/-! ### Characters -/

/-- A character of a written document: control characters other than tabs and line feeds are
written as escapes. -/
def IsPrinted (c : Char) : Prop :=
  isTextChar c = true ∨ c = '\n'

theorem isPrinted_upperHex : ∀ n < 16, isTextChar (upperHex n) = true := by
  decide

theorem isPrinted_escaped {d : Char} (member : d ∈ escaped long c) : IsPrinted d := by
  have known {cs : List Char} (all : cs.all isTextChar = true) (member : d ∈ cs) : IsPrinted d :=
    .inl (List.all_eq_true.1 all d member)
  unfold escaped at member
  split_ifs at member with back tab line wide feed carriage slash control
  · exact known rfl member
  · exact known rfl member
  · exact .inr (List.mem_singleton.1 member)
  · exact known rfl member
  · exact known rfl member
  · exact known rfl member
  · exact known rfl member
  · have small := toNat_of_needsEscape control
    refine known ?_ member
    simp [isPrinted_upperHex (c.toNat / 16) (by omega),
      isPrinted_upperHex (c.toNat % 16) (by omega)]
    decide
  · rw [List.mem_singleton.1 member]
    refine .inl ?_
    by_contra unprintable
    exact control (by simp [needsEscape, unprintable, line])

theorem isPrinted_escapedBody {d : Char} (member : d ∈ escapedBody long run cs) : IsPrinted d := by
  induction cs generalizing run with
  | nil => cases member
  | cons c cs ih =>
    by_cases quote : c = '"'
    · subst quote
      rw [escapedBody] at member
      split at member
      · rcases List.mem_cons.1 member with rfl | later
        · exact .inl rfl
        · exact ih later
      · rcases List.mem_cons.1 member with rfl | later
        · exact .inl rfl
        · rcases List.mem_cons.1 later with rfl | later
          · exact .inl rfl
          · exact ih later
    · rw [Quotes.escapedBody_cons quote, List.mem_append] at member
      exact member.elim isPrinted_escaped ih

theorem isPrinted_quoted {q : Quotes} {d : Char} (mark : isTextChar q.mark = true)
    (inner : ∀ c ∈ body, IsPrinted c) (member : d ∈ quoted q cs body) : IsPrinted d := by
  have quote (k : Nat) (member : d ∈ List.replicate k q.mark) : IsPrinted d :=
    .inl (List.eq_of_mem_replicate member ▸ mark)
  rcases List.mem_append.1 member with member | closing
  · rcases List.mem_append.1 member with member | member
    · rcases List.mem_append.1 member with opening | line
      · exact quote _ opening
      · split at line
        · exact .inr (List.mem_singleton.1 line)
        · cases line
    · exact inner d member
  · exact quote _ closing

theorem isPrinted_textChars {s : String} {d : Char} (member : d ∈ textChars s) : IsPrinted d := by
  rw [textChars_eq] at member
  rcases quotesFor_cases s.toList with ⟨long, shape⟩ | ⟨long, shape, -, plain⟩
  · rw [shape] at member
    exact isPrinted_quoted rfl (fun c => isPrinted_escapedBody) member
  · rw [shape] at member
    refine isPrinted_quoted rfl (fun c within => ?_) member
    exact (plain c (by simpa [Quotes.escapes] using within)).imp_right And.right

theorem head_textChars (s : String) : ∃ c cs, textChars s = c :: cs ∧ (c = '"' ∨ c = '\'') := by
  have quoted (q : Quotes) (cs body : List Char) : ∃ t, quoted q cs body = q.mark :: t := by
    cases wide : q.long with
    | false => exact ⟨_, by simp only [Toml.quoted, wide]; rfl⟩
    | true => exact ⟨_, by simp only [Toml.quoted, wide]; rfl⟩
  rw [textChars_eq]
  obtain ⟨t, shape⟩ := quoted (quotesFor s.toList) s.toList
    (if (quotesFor s.toList).escapes then escapedBody (quotesFor s.toList).long 0 s.toList
      else s.toList)
  refine ⟨_, t, shape, ?_⟩
  rcases quotesFor_cases s.toList with ⟨long, same⟩ | ⟨long, same, -⟩
  · exact .inl (congrArg Quotes.mark same)
  · exact .inr (congrArg Quotes.mark same)

end Reckoner.Toml
