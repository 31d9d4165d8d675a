import Mathlib.Data.List.Nodup
import Reckoner.Proofs.Toml.Texts
import Reckoner.Proofs.Toml.Words

/-!
# Written documents are read back

`read_written` says that the document of sections with plain names is read as the table of these
sections, and `read_titled` that a comment in front of it changes nothing.
-/

namespace Reckoner.Toml

variable {cs rest title : List Char} {n : Nat} {key : String} {v : Plain} {s : Section}
  {ss : List Section}

/-! ### Characters of names -/

theorem toNat_of_isAlphanum {c : Char} (h : c.isAlphanum = true) :
    0x30 ≤ c.toNat ∧ c.toNat ≤ 0x7A := by
  delta Char.isAlphanum Char.isAlpha Char.isUpper Char.isLower Char.isDigit at h
  simp only [Bool.or_eq_true, Bool.and_eq_true, decide_eq_true_eq, UInt32.le_iff_toNat_le,
    ge_iff_le] at h
  have zero : '0'.val.toNat = 0x30 := rfl
  have nine : '9'.val.toNat = 0x39 := rfl
  have first : 'A'.val.toNat = 0x41 ∧ 'a'.val.toNat = 0x61 := ⟨rfl, rfl⟩
  have last : 'Z'.val.toNat = 0x5A ∧ 'z'.val.toNat = 0x7A := ⟨rfl, rfl⟩
  have code : c.val.toNat = c.toNat := rfl
  omega

theorem isTextChar_of_isAlphanum {c : Char} (h : c.isAlphanum = true) : isTextChar c = true := by
  have range := toNat_of_isAlphanum h
  simp only [isTextChar, Bool.or_eq_true, Bool.and_eq_true, decide_eq_true_eq]
  omega

theorem isTextChar_of_isKeyChar {c : Char} (h : isKeyChar c = true) : isTextChar c = true := by
  simp only [isKeyChar, Bool.or_eq_true, decide_eq_true_eq] at h
  rcases h with (letter | rfl) | rfl
  · exact isTextChar_of_isAlphanum letter
  · rfl
  · rfl

/-! ### What can be written -/

namespace Plain

/-- A number fits a signed word. -/
def Fits : Plain → Prop
  | text _ => True
  | whole n => Int64.minValue.toInt ≤ n ∧ n ≤ Int64.maxValue.toInt

def chars : Plain → List Char
  | text s => textChars s
  | whole n => (toString n).toList

theorem chars?_eq (fits : v.Fits) : v.chars? = some v.chars := by
  cases v with
  | text s => rfl
  | whole n => exact if_pos fits

theorem head_chars (v : Plain) (rest : List Char) :
    ∃ c cs, v.chars ++ rest = c :: cs ∧ isSpace c = false := by
  cases v with
  | text s =>
    obtain ⟨c, cs, shape, quote⟩ := head_textChars s
    refine ⟨c, cs ++ rest, by rw [chars, shape]; rfl, ?_⟩
    rcases quote with rfl | rfl <;> rfl
  | whole n =>
    obtain ⟨c, cs, shape, letter⟩ := head_toString n rest
    refine ⟨c, cs, shape, ?_⟩
    by_contra blank
    simp only [Bool.not_eq_false, isSpace, Bool.or_eq_true, decide_eq_true_eq] at blank
    rcases blank with rfl | rfl <;> cases letter

theorem readValue_chars (fits : v.Fits) (depth : Nat) (rest : List Char) :
    readValue depth (v.chars ++ '\n' :: rest) = some (v.toToml, '\n' :: rest) := by
  cases v with
  | text s => exact readValue_textChars s (by simp) (by simp)
  | whole n => exact readValue_whole depth fits.1 fits.2 rest

theorem isPrinted_chars {c : Char} (member : c ∈ v.chars) : IsPrinted c := by
  cases v with
  | text s => exact isPrinted_textChars member
  | whole n =>
    rw [chars, Word.toString_int, List.mem_append] at member
    rcases member with sign | digit
    · split at sign
      · rw [List.mem_singleton.1 sign]
        exact .inl rfl
      · cases sign
    · exact .inl (isTextChar_of_isAlphanum (by
        simp [Char.isAlphanum, Decimal.digits_toDigits _ c digit]))

end Plain

/-- A name that is written without quotes. -/
def IsBare (name : String) : Prop :=
  name.toList ≠ [] ∧ ∀ c ∈ name.toList, isKeyChar c = true

namespace Section

/-- The names are bare and the keys differ, and the numbers fit. -/
structure IsPlain (s : Section) : Prop where
  name : IsBare s.name
  keys : ∀ e ∈ s.entries, IsBare e.1
  distinct : (s.entries.map Prod.fst).Nodup
  fits : ∀ e ∈ s.entries, e.2.Fits

def line (e : String × Plain) : List Char :=
  e.1.toList ++ ([' ', '=', ' '] ++ (e.2.chars ++ ['\n']))

def chars (s : Section) : List Char :=
  '[' :: (s.name.toList ++ ([']', '\n'] ++ s.entries.flatMap line))

theorem chars?_eq (fits : ∀ e ∈ s.entries, e.2.Fits) : s.chars? = some s.chars := by
  have lines (es : List (String × Plain)) (fits : ∀ e ∈ es, e.2.Fits) :
      (es.mapM fun e => do
        return e.1.toList ++ [' ', '=', ' '] ++ (← e.2.chars?) ++ ['\n']) = some (es.map line) := by
    induction es with
    | nil => rfl
    | cons e es ih =>
      rw [List.mapM_cons, ih fun e member => fits e (List.mem_cons_of_mem _ member)]
      simp [Plain.chars?_eq (fits e List.mem_cons_self), line]
  refine (congrArg (Option.bind · _) (lines s.entries fits)).trans ?_
  simp [chars, List.flatMap_def]

end Section

/-- Sections of different names. -/
structure ArePlain (ss : List Section) : Prop where
  sections : ∀ s ∈ ss, s.IsPlain
  distinct : (ss.map Section.name).Nodup

def documentChars (ss : List Section) : List Char :=
  ['\n'].intercalate (ss.map Section.chars)

theorem write?_eq (plain : ArePlain ss) : write? ss = some (String.ofList (documentChars ss)) := by
  have parts (ss : List Section) (fits : ∀ s ∈ ss, s.IsPlain) :
      ss.mapM Section.chars? = some (ss.map Section.chars) := by
    induction ss with
    | nil => rfl
    | cons s ss ih =>
      rw [List.mapM_cons, ih fun s member => fits s (List.mem_cons_of_mem _ member),
        Section.chars?_eq (fits s List.mem_cons_self).fits]
      rfl
  rw [write?, parts ss plain.sections]
  rfl

/-! ### Names -/

theorem IsBare.cons (bare : IsBare key) :
    ∃ c cs, key.toList = c :: cs ∧ isKeyChar c = true := by
  obtain ⟨c, cs, shape⟩ := List.exists_cons_of_ne_nil bare.1
  exact ⟨c, cs, shape, bare.2 c (shape ▸ List.mem_cons_self)⟩

theorem skipSpaces_cons {c : Char} (h : isSpace c = false) : skipSpaces (c :: cs) = c :: cs :=
  List.dropWhile_cons_of_neg (by simp [h])

theorem isSpace_of_isKeyChar {c : Char} (h : isKeyChar c = true) : isSpace c = false := by
  by_contra blank
  simp only [Bool.not_eq_false, isSpace, Bool.or_eq_true, decide_eq_true_eq] at blank
  rcases blank with rfl | rfl <;> cases h

theorem readKeyPart_bare (bare : IsBare key) (ended : ∀ c ∈ rest.head?, isKeyChar c = false) :
    readKeyPart (key.toList ++ rest) = some (key, rest) := by
  obtain ⟨c, cs, shape, letter⟩ := bare.cons
  have word : (key.toList ++ rest).takeWhile isKeyChar = key.toList := by
    rw [List.takeWhile_append_of_pos bare.2]
    cases rest with
    | nil => simp
    | cons d ds => simp [ended d rfl]
  unfold readKeyPart
  split
  · next same =>
    rw [shape] at same
    obtain rfl := (List.cons.inj same).1
    cases letter
  · next same =>
    rw [shape] at same
    obtain rfl := (List.cons.inj same).1
    cases letter
  · simp only [word, List.drop_left, String.ofList_toList]
    exact if_neg (by simp [bare.1])

/-- Behind a bare name stands something else than a dot, perhaps behind blanks. -/
theorem readKey_bare (bare : IsBare key) (rest : List Char)
    (ended : ∀ c ∈ rest.head?, isKeyChar c = false)
    (last : (skipSpaces rest).head? ≠ some '.') :
    readKey (key.toList ++ rest) = some (⟨[], key⟩, skipSpaces rest) := by
  have parts : readParts (maxNesting - 1) (key.toList ++ rest) = some ([key], skipSpaces rest) := by
    obtain ⟨c, cs, shape, letter⟩ := bare.cons
    have here : skipSpaces (key.toList ++ rest) = key.toList ++ rest := by
      rw [shape]
      exact skipSpaces_cons (isSpace_of_isKeyChar letter)
    rw [maxNesting, readParts, here, readKeyPart_bare bare ended]
    simp only [Option.bind_eq_bind, Option.bind_some]
    split
    · next same => exact absurd (same ▸ rfl) last
    · rfl
  unfold readKey
  rw [parts]
  rfl

/-! ### Statements -/

/-- A text that does not begin with a blank, an empty line, a comment or a byte order mark. -/
def Begins (cs : List Char) : Prop :=
  ∀ c ∈ cs.head?, isSpace c = false ∧ c ≠ '\n' ∧ c ≠ '#' ∧ c ≠ '\uFEFF'

theorem skipFiller_begins (h : Begins cs) (n : Nat) : skipFiller (n + 1) cs = some cs := by
  have here : cs.dropWhile (fun c => isSpace c || c = '\n') = cs := by
    cases cs with
    | nil => rfl
    | cons c cs => exact List.dropWhile_cons_of_neg (by simp [(h c rfl).1, (h c rfl).2.1])
  rw [skipFiller, here]
  split
  · exact absurd rfl (h '#' rfl).2.2.1
  · rfl

theorem skipAll_begins (h : Begins cs) : skipAll cs = some cs :=
  skipFiller_begins h _

theorem skipFiller_lineFeed (n : Nat) (cs : List Char) :
    skipFiller n ('\n' :: cs) = skipFiller n cs := by
  cases n with
  | zero => rfl
  | succ n => rw [skipFiller, List.dropWhile_cons_of_pos (by simp), skipFiller]

theorem skipAll_lineFeed (h : Begins cs) : skipAll ('\n' :: cs) = some cs :=
  (skipFiller_lineFeed _ cs).trans (skipFiller_begins h _)

theorem skipAll_comment (h : Begins cs) (plain : ∀ c ∈ title, isTextChar c = true) :
    skipAll ('#' :: (title ++ '\n' :: cs)) = some cs := by
  have line : skipComment (title ++ '\n' :: cs) = some ('\n' :: cs) := by
    rw [skipComment, List.dropWhile_append_of_pos plain, List.dropWhile_cons_of_neg (by decide)]
    rfl
  rw [skipAll, skipFiller, List.dropWhile_cons_of_neg (by decide)]
  simp only [line, Option.bind_some]
  rw [List.length_cons, List.length_append, List.length_cons, skipFiller_lineFeed]
  exact skipFiller_begins h _

theorem endLine_lineFeed (cs : List Char) : endLine ('\n' :: cs) = some cs := by
  rw [endLine, skipSpaces_cons rfl]
  rfl

theorem readStatements_cons {statement : Statement} (begins : Begins cs) (filled : cs ≠ [])
    (read : readStatement cs = some (statement, '\n' :: rest)) :
    readStatements (n + 1) cs = (readStatements n rest).map (statement :: ·) := by
  obtain ⟨c, cs, rfl⟩ := List.exists_cons_of_ne_nil filled
  rw [readStatements, skipAll_begins begins]
  simp only [Option.bind_eq_bind, Option.bind_some, read, endLine_lineFeed]
  cases readStatements n rest <;> rfl

theorem readStatement_header (bare : IsBare key) (rest : List Char) :
    readStatement ('[' :: (key.toList ++ ([']', '\n'] ++ rest))) =
      some (.header ⟨[], key⟩, '\n' :: rest) := by
  obtain ⟨c, cs, shape, letter⟩ := bare.cons
  have read := readKey_bare bare ([']', '\n'] ++ rest) (by simp; decide) (by
    rw [List.cons_append, skipSpaces_cons rfl]
    simp)
  rw [List.cons_append, skipSpaces_cons rfl] at read
  unfold readStatement
  split
  · next same =>
    rw [shape] at same
    obtain rfl := (List.cons.inj (List.cons.inj same).2).1
    cases letter
  · next same =>
    obtain rfl := (List.cons.inj same).2
    rw [List.cons_append, read]
    rfl
  · next _ other => exact absurd rfl (other _)

theorem readStatement_line {e : String × Plain} (bare : IsBare e.1) (fits : e.2.Fits)
    (rest : List Char) :
    readStatement (Section.line e ++ rest) =
      some (.entry ⟨[], e.1⟩ e.2.toToml, '\n' :: rest) := by
  obtain ⟨c, cs, shape, letter⟩ := bare.cons
  obtain ⟨d, ds, value, visible⟩ := e.2.head_chars ('\n' :: rest)
  have line : Section.line e ++ rest =
      e.1.toList ++ (' ' :: '=' :: ' ' :: (e.2.chars ++ '\n' :: rest)) := by
    simp [Section.line]
  have assigned : readAssigned (Section.line e ++ rest) =
      some (⟨[], e.1⟩, e.2.chars ++ '\n' :: rest) := by
    have read := readKey_bare bare (' ' :: '=' :: ' ' :: (e.2.chars ++ '\n' :: rest))
      (by simp; decide) (by simp [skipSpaces, isSpace])
    rw [line, readAssigned, read, value]
    exact congrArg (fun cs => some (_, cs)) (skipSpaces_cons visible)
  unfold readStatement
  split
  · next same =>
    rw [line, shape] at same
    obtain rfl := (List.cons.inj same).1
    cases letter
  · next same =>
    rw [line, shape] at same
    obtain rfl := (List.cons.inj same).1
    cases letter
  · rw [assigned]
    simp only [Option.bind_eq_bind, Option.bind_some, Plain.readValue_chars fits]
    rfl

/-! ### The statements of a document -/

def Section.entryStatement (e : String × Plain) : Statement :=
  .entry ⟨[], e.1⟩ e.2.toToml

def Section.statements (s : Section) : List Statement :=
  .header ⟨[], s.name⟩ :: s.entries.map Section.entryStatement

theorem begins_bracket (cs : List Char) : Begins ('[' :: cs) := by
  rintro c ⟨⟩
  decide

theorem begins_line {e : String × Plain} (bare : IsBare e.1) (rest : List Char) :
    Begins (Section.line e ++ rest) := by
  obtain ⟨c, cs, shape, letter⟩ := bare.cons
  rw [Section.line, shape]
  rintro d ⟨⟩
  refine ⟨isSpace_of_isKeyChar letter, ?_, ?_, ?_⟩
  all_goals
    rintro rfl
    cases letter

theorem readStatements_lines (es : List (String × Plain)) (bare : ∀ e ∈ es, IsBare e.1)
    (fits : ∀ e ∈ es, e.2.Fits) (rest : List Char) :
    readStatements (n + es.length) (es.flatMap Section.line ++ rest) =
      (readStatements n rest).map (es.map Section.entryStatement ++ ·) := by
  induction es with
  | nil => simp
  | cons e es ih =>
    have behind := ih (fun e member => bare e (List.mem_cons_of_mem _ member))
      fun e member => fits e (List.mem_cons_of_mem _ member)
    have here := bare e List.mem_cons_self
    rw [List.flatMap_cons, List.append_assoc, List.length_cons, ← Nat.add_assoc,
      readStatements_cons (begins_line here _) (by simp [Section.line])
        (readStatement_line here (fits e List.mem_cons_self) _), behind, Option.map_map]
    rfl

theorem readStatements_section (plain : s.IsPlain) (rest : List Char) :
    readStatements (n + s.statements.length) (s.chars ++ rest) =
      (readStatements n rest).map (s.statements ++ ·) := by
  have shape : s.chars ++ rest =
      '[' :: (s.name.toList ++ ([']', '\n'] ++ (s.entries.flatMap Section.line ++ rest))) := by
    simp [Section.chars]
  rw [shape, Section.statements, List.length_cons, List.length_map, ← Nat.add_assoc,
    readStatements_cons (begins_bracket _) (List.cons_ne_nil _ _)
      (readStatement_header plain.name _), readStatements_lines _ plain.keys plain.fits,
    Option.map_map]
  rfl

theorem readStatements_congr {ds : List Char} (same : skipAll cs = skipAll ds) (n : Nat) :
    readStatements n cs = readStatements n ds := by
  cases n with
  | zero => rfl
  | succ n => rw [readStatements, readStatements, same]

/-- Along the sections of a document, with an empty line between two of them. -/
theorem documentChars_induction {p : List Section → List Char → Prop} (nil : p [] [])
    (last : ∀ s, p [s] s.chars)
    (cons : ∀ s ss, p ss (documentChars ss) → p (s :: ss) (s.chars ++ '\n' :: documentChars ss))
    (ss : List Section) : p ss (documentChars ss) := by
  induction ss with
  | nil => exact nil
  | cons s ss ih =>
    cases ss with
    | nil => simpa [documentChars] using last s
    | cons t ss => simpa [documentChars, List.intercalate] using cons s (t :: ss) ih

theorem begins_documentChars (ss : List Section) : Begins (documentChars ss) := by
  induction ss using documentChars_induction with
  | nil => rintro c ⟨⟩
  | last s => exact begins_bracket _
  | cons s ss ih => exact begins_bracket _

theorem readStatements_documentChars (plain : ∀ s ∈ ss, s.IsPlain) (n : Nat) :
    readStatements (n + 1 + (ss.flatMap Section.statements).length) (documentChars ss) =
      some (ss.flatMap Section.statements) := by
  induction ss using documentChars_induction with
  | nil => rfl
  | last s =>
    rw [List.flatMap_singleton, ← List.append_nil s.chars,
      readStatements_section (plain s List.mem_cons_self),
      show readStatements (n + 1) [] = some [] from rfl]
    simp
  | cons s ss ih =>
    have begins := begins_documentChars ss
    have behind := ih fun s member => plain s (List.mem_cons_of_mem _ member)
    rw [List.flatMap_cons, List.length_append, Nat.add_comm s.statements.length, ← Nat.add_assoc,
      readStatements_section (plain s List.mem_cons_self),
      readStatements_congr ((skipAll_lineFeed begins).trans (skipAll_begins begins).symm), behind]
    rfl

theorem length_statements_le (ss : List Section) :
    (ss.flatMap Section.statements).length ≤ (documentChars ss).length := by
  have lines (es : List (String × Plain)) : es.length ≤ (es.flatMap Section.line).length := by
    induction es with
    | nil => exact Nat.zero_le _
    | cons e es ih =>
      simp only [List.length_cons, List.flatMap_cons, List.length_append, Section.line]
      omega
  have sections (s : Section) : s.statements.length ≤ s.chars.length := by
    have entries := lines s.entries
    simp only [Section.statements, Section.chars, List.length_cons, List.length_map,
      List.length_append]
    omega
  induction ss using documentChars_induction with
  | nil => exact Nat.zero_le _
  | last s => simpa using sections s
  | cons s ss ih =>
    have here := sections s
    simp only [List.flatMap_cons, List.length_append, List.length_cons]
    omega

/-! ### Carrying out -/

def Section.node (s : Section) : String × Node :=
  (s.name, .table .header (s.entries.map fun e => (e.1, .value e.2.toToml)))

namespace Entries

variable {es done : Entries} {m : Node}

theorem lookup_fresh (fresh : key ∉ es.map Prod.fst) : es.lookup key = none := by
  rw [List.lookup_eq_none_iff]
  intro e member
  rw [bne_iff_ne]
  rintro rfl
  exact fresh (List.mem_map_of_mem member)

theorem add_fresh (fresh : key ∉ es.map Prod.fst) (m : Node) :
    es.add key m = some (es ++ [(key, m)]) := by
  rw [add, lookup_fresh fresh]
  rfl

theorem lookup_last (fresh : key ∉ done.map Prod.fst) (m : Node) :
    (done ++ [(key, m)]).lookup key = some m := by
  rw [List.lookup_append, lookup_fresh fresh]
  simp

theorem put_last (fresh : key ∉ done.map Prod.fst) (m m' : Node) :
    Entries.put key m' (done ++ [(key, m)]) = done ++ [(key, m')] := by
  have others : done.map (fun e => if e.1 = key then (key, m') else e) = done := by
    conv_rhs => rw [← List.map_id done]
    refine List.map_congr_left fun e member => if_neg ?_
    rintro rfl
    exact fresh (List.mem_map_of_mem member)
  rw [put, List.map_append, others]
  simp

end Entries

/-- An entry of the section at work is put behind the earlier ones. -/
theorem carryOut_entry {done inner : Entries} {name : String} {e : String × Plain}
    (fresh : name ∉ done.map Prod.fst) (new : e.1 ∉ inner.map Prod.fst) :
    Draft.carryOut ⟨done ++ [(name, .table .header inner)], [name]⟩ (Section.entryStatement e) =
      some ⟨done ++ [(name, .table .header (inner ++ [(e.1, .value e.2.toToml)]))], [name]⟩ := by
  simp only [Draft.carryOut, Section.entryStatement, Entries.change, Entries.lookup_last fresh]
  rw [if_neg (by simp)]
  simp [Entries.assign, Entries.change, Entries.add_fresh new, Entries.put_last fresh]

theorem carryOut_entries {done inner : Entries} {name : String} (fresh : name ∉ done.map Prod.fst)
    (es : List (String × Plain)) (distinct : (inner.map Prod.fst ++ es.map Prod.fst).Nodup) :
    (es.map Section.entryStatement).foldlM Draft.carryOut
        ⟨done ++ [(name, .table .header inner)], [name]⟩ =
      some ⟨done ++ [(name, .table .header (inner ++ es.map fun e => (e.1, .value e.2.toToml)))],
        [name]⟩ := by
  induction es generalizing inner with
  | nil => simp
  | cons e es ih =>
    have new : e.1 ∉ inner.map Prod.fst := fun old =>
      List.disjoint_of_nodup_append distinct old List.mem_cons_self
    rw [List.map_cons, List.foldlM_cons, carryOut_entry fresh new]
    simp only [Option.bind_eq_bind, Option.bind_some]
    rw [ih (by simpa using distinct)]
    simp

theorem carryOut_section {done : Entries} {header : List String}
    (fresh : s.name ∉ done.map Prod.fst)
    (plain : s.IsPlain) :
    s.statements.foldlM Draft.carryOut ⟨done, header⟩ = some ⟨done ++ [s.node], [s.name]⟩ := by
  have opened : Draft.carryOut ⟨done, header⟩ (.header ⟨[], s.name⟩) =
      some ⟨done ++ [(s.name, .table .header [])], [s.name]⟩ := by
    simp [Draft.carryOut, Entries.change, Entries.openTable, Entries.lookup_fresh fresh,
      Entries.add_fresh fresh]
  rw [Section.statements, List.foldlM_cons, opened]
  exact carryOut_entries fresh s.entries (by simpa using plain.distinct)

theorem carryOut_sections (done : Entries) (header : List String) (plain : ∀ s ∈ ss, s.IsPlain)
    (distinct : (done.map Prod.fst ++ ss.map Section.name).Nodup) :
    ∃ last, (ss.flatMap Section.statements).foldlM Draft.carryOut ⟨done, header⟩ =
      some ⟨done ++ ss.map Section.node, last⟩ := by
  induction ss generalizing done header with
  | nil => exact ⟨header, by simp⟩
  | cons s ss ih =>
    have fresh : s.name ∉ done.map Prod.fst := fun old =>
      List.disjoint_of_nodup_append distinct old List.mem_cons_self
    obtain ⟨last, behind⟩ := ih (done ++ [s.node]) [s.name]
      (fun s member => plain s (List.mem_cons_of_mem _ member))
      (by simpa [Section.node] using distinct)
    refine ⟨last, ?_⟩
    rw [List.flatMap_cons, List.foldlM_append, carryOut_section fresh (plain s List.mem_cons_self)]
    simpa using behind

theorem entriesToToml_nodes (ss : List Section) :
    entriesToToml (ss.map Section.node) = ss.map fun s => (s.name, s.toToml) := by
  have values (es : List (String × Plain)) :
      entriesToToml (es.map fun e => (e.1, .value e.2.toToml)) =
        es.map fun e => (e.1, e.2.toToml) := by
    induction es with
    | nil => rfl
    | cons e es ih => rw [List.map_cons, entriesToToml, ih, Node.toToml]; rfl
  induction ss with
  | nil => rfl
  | cons s ss ih =>
    rw [List.map_cons, Section.node, entriesToToml, Node.toToml, values, ih]
    rfl

/-! ### Documents -/

theorem plainLines_eq (h : '\r' ∉ cs) : plainLines cs = cs := by
  induction cs with
  | nil => rfl
  | cons c cs ih =>
    have other : c ≠ '\r' := fun same => h (same ▸ List.mem_cons_self)
    rw [plainLines.eq_3 _ _ fun _ same => absurd same other,
      ih fun member => h (List.mem_cons_of_mem _ member)]

theorem isPrinted_of_isBare (bare : IsBare key) {c : Char} (member : c ∈ key.toList) :
    IsPrinted c :=
  .inl (isTextChar_of_isKeyChar (bare.2 c member))

theorem isPrinted_section (plain : s.IsPlain) {c : Char} (member : c ∈ s.chars) : IsPrinted c := by
  have line {e : String × Plain} (inside : e ∈ s.entries) (member : c ∈ Section.line e) :
      IsPrinted c := by
    simp only [Section.line, List.mem_append] at member
    rcases member with name | mark | value | ending
    · exact isPrinted_of_isBare (plain.keys e inside) name
    · exact .inl (List.all_eq_true.1 (show [' ', '=', ' '].all isTextChar = true from rfl) c mark)
    · exact Plain.isPrinted_chars value
    · exact .inr (List.mem_singleton.1 ending)
  rw [Section.chars, List.mem_cons, List.mem_append, List.mem_append] at member
  rcases member with rfl | name | ending | lines
  · exact .inl rfl
  · exact isPrinted_of_isBare plain.name name
  · rcases List.mem_cons.1 ending with rfl | feed
    · exact .inl rfl
    · exact .inr (List.mem_singleton.1 feed)
  · obtain ⟨e, inside, member⟩ := List.mem_flatMap.1 lines
    exact line inside member

theorem isPrinted_documentChars (plain : ∀ s ∈ ss, s.IsPlain) {c : Char}
    (member : c ∈ documentChars ss) : IsPrinted c := by
  induction ss using documentChars_induction with
  | nil => cases member
  | last s => exact isPrinted_section (plain s List.mem_cons_self) member
  | cons s ss ih =>
    rcases List.mem_append.1 member with here | behind
    · exact isPrinted_section (plain s List.mem_cons_self) here
    · rcases List.mem_cons.1 behind with rfl | behind
      · exact .inr rfl
      · exact ih (fun s member => plain s (List.mem_cons_of_mem _ member)) behind

/-- Nothing is left out of a written text before its lines are read. -/
theorem plainLines_printed (printed : ∀ c ∈ cs, IsPrinted c) (unmarked : cs.head? ≠ some '\uFEFF') :
    plainLines (withoutMark cs) = cs := by
  have same : withoutMark cs = cs := by
    unfold withoutMark
    split
    · exact absurd rfl unmarked
    · rfl
  rw [same]
  refine plainLines_eq fun member => ?_
  rcases printed '\r' member with plain | same
  · cases plain
  · cases same

theorem read_of_statements (plain : ArePlain ss) (printed : ∀ c ∈ cs, IsPrinted c)
    (unmarked : cs.head? ≠ some '\uFEFF')
    (enough : (ss.flatMap Section.statements).length ≤ cs.length)
    (read : ∀ n, readStatements (n + 1 + (ss.flatMap Section.statements).length) cs =
      some (ss.flatMap Section.statements)) :
    Toml.read (String.ofList cs) = some (ofSections ss) := by
  obtain ⟨extra, length⟩ := Nat.exists_eq_add_of_le' enough
  have fuel : cs.length + 1 = extra + 1 + (ss.flatMap Section.statements).length := by omega
  obtain ⟨last, carried⟩ := carryOut_sections [] [] plain.sections
    (by simpa using plain.distinct)
  simp only [Toml.read, String.toList_ofList, plainLines_printed printed unmarked]
  rw [fuel, read extra]
  simp only [Option.bind_eq_bind, Option.bind_some, carried, List.nil_append]
  rw [entriesToToml_nodes]
  rfl

variable {text : String}

/-- Sections with plain names are read as they were written. -/
theorem read_written (plain : ArePlain ss) (written : write? ss = some text) :
    Toml.read text = some (ofSections ss) := by
  obtain rfl := Option.some.inj ((write?_eq plain).symm.trans written)
  exact read_of_statements plain (fun c => isPrinted_documentChars plain.sections)
    (fun marked => (begins_documentChars ss _ marked).2.2.2 rfl)
    (length_statements_le ss) (readStatements_documentChars plain.sections)

/-- A comment of one line in front of a written document changes nothing. -/
theorem read_titled (plain : ArePlain ss) (written : write? ss = some text) {title : String}
    (oneLine : ∀ c ∈ title.toList, isTextChar c = true) :
    Toml.read ("#" ++ title ++ "\n" ++ text) = some (ofSections ss) := by
  obtain rfl := Option.some.inj ((write?_eq plain).symm.trans written)
  have begins := begins_documentChars ss
  have shape : "#" ++ title ++ "\n" ++ String.ofList (documentChars ss) =
      String.ofList ('#' :: (title.toList ++ '\n' :: documentChars ss)) := by
    simp [← String.toList_inj]
  have skipped := (skipAll_comment begins oneLine).trans (skipAll_begins begins).symm
  refine (congrArg Toml.read shape).trans (read_of_statements plain ?_ (by simp) ?_ fun n => ?_)
  · intro c member
    rcases List.mem_cons.1 member with rfl | member
    · exact .inl rfl
    · rcases List.mem_append.1 member with inside | member
      · exact .inl (oneLine c inside)
      · rcases List.mem_cons.1 member with rfl | inside
        · exact .inr rfl
        · exact isPrinted_documentChars plain.sections inside
  · have enough := length_statements_le ss
    simp only [List.length_cons, List.length_append]
    omega
  · rw [readStatements_congr skipped, readStatements_documentChars plain.sections]

end Reckoner.Toml
