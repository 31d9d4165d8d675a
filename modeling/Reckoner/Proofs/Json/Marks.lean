import Reckoner.Json.Basic
import Reckoner.Json.Mark

/-!
# Marks of written texts

`ofText_cons` says how a text is taken apart, mark by mark and without a bound on their number. Words,
brackets and quoted texts give the mark that they were written for, whatever follows them.
-/

namespace Reckoner.Json.Mark

variable {c : Char} {cs rest : List Char} {m : Mark}

/-! ### One mark after another -/

theorem length_stringUnits {units : List CodeUnit} (h : stringUnits cs = some (units, rest)) :
    rest.length < cs.length := by
  fun_induction stringUnits cs generalizing units rest with
  | case1 => cases h
  | case2 cs =>
    cases h
    simp
  | case3 => cases h
  | case4 cs a b c d n _ ih =>
    rw [Option.map_eq_some_iff] at h
    obtain ⟨⟨_, _⟩, found, same⟩ := h
    cases same
    have := ih found
    simp only [List.length_cons]
    omega
  | case5 => cases h
  | case6 cs e _ c _ ih =>
    rw [Option.map_eq_some_iff] at h
    obtain ⟨⟨_, _⟩, found, same⟩ := h
    cases same
    have := ih found
    simp only [List.length_cons]
    omega
  | case7 => cases h
  | case8 c cs _ _ _ _ ih =>
    rw [Option.map_eq_some_iff] at h
    obtain ⟨⟨_, _⟩, found, same⟩ := h
    cases same
    have := ih found
    simp only [List.length_cons]
    omega

theorem length_readString (cs : List Char) : (readString cs).2.length ≤ cs.length := by
  unfold readString
  split
  · exact Nat.zero_le _
  · rename_i units rest found
    have := length_stringUnits found
    split <;> exact Nat.le_of_lt this

theorem length_word (expected : List Char) (m : Mark) (cs : List Char) :
    (word expected m cs).2.length ≤ cs.length := by
  unfold word
  split <;> simp

theorem length_readFraction {fraction : Option (List Char)}
    (h : readFraction cs = some (fraction, rest)) : rest.length ≤ cs.length := by
  unfold readFraction at h
  split at h
  · dsimp only at h
    split at h
    · cases h
    · cases h
      simp only [List.length_drop, List.length_cons]
      omega
  · cases h
    exact Nat.le_refl _

theorem length_readExponent {exponent : Option (Bool × List Char)}
    (h : readExponent cs = some (exponent, rest)) : rest.length ≤ cs.length := by
  have digits {negative : Bool} {ds : List Char} (longer : ds.length ≤ cs.length)
      (h : (if (ds.takeWhile Char.isDigit).isEmpty then none
        else some (some (negative, ds.takeWhile Char.isDigit),
          ds.drop (ds.takeWhile Char.isDigit).length)) = some (exponent, rest)) :
      rest.length ≤ cs.length := by
    split at h
    · cases h
    · cases h
      rw [List.length_drop]
      omega
  unfold readExponent at h
  split at h
  case h_7 =>
    cases h
    exact Nat.le_refl _
  all_goals exact digits (by simp only [List.length_cons]; omega) h

theorem length_readNumber (negative : Bool) (cs : List Char) :
    (readNumber negative cs).2.length ≤ cs.length - 1 := by
  unfold readNumber
  dsimp only
  split
  · exact Nat.zero_le _
  · rename_i l rest found
    rw [Option.ite_none_right_eq_some] at found
    obtain ⟨wellFormed, found⟩ := found
    have some : 0 < (cs.takeWhile Char.isDigit).length := by
      rw [List.length_pos_iff]
      intro none
      simp [none] at wellFormed
    simp only [Option.bind_eq_bind, Option.bind_eq_some_iff, Option.pure_def] at found
    obtain ⟨⟨fraction, behind⟩, first, ⟨exponent, rest'⟩, second, same⟩ := found
    cases same
    have one := length_readFraction first
    have two : rest'.length ≤ behind.length := length_readExponent second
    rw [List.length_drop] at one
    show rest'.length ≤ _
    omega

theorem length_read (c : Char) (cs : List Char) : (read c cs).2.length ≤ cs.length := by
  unfold read
  split
  case h_7 => exact length_readString cs
  case h_8 => exact length_word _ _ cs
  case h_9 => exact length_word _ _ cs
  case h_10 => exact length_word _ _ cs
  case h_11 => exact Nat.le_trans (length_readNumber true cs) (Nat.sub_le _ _)
  case h_12 =>
    split
    · exact length_readNumber false (c :: cs)
    · exact Nat.zero_le _
  all_goals exact Nat.le_refl _

theorem readAll_of_length_le {n k : Nat} (first : cs.length ≤ n) (second : cs.length ≤ k) :
    readAll n cs = readAll k cs := by
  induction n generalizing k cs with
  | zero =>
    rw [List.length_eq_zero_iff.1 (Nat.le_zero.1 first)]
    cases k <;> rfl
  | succ n ih =>
    cases k with
    | zero =>
      rw [List.length_eq_zero_iff.1 (Nat.le_zero.1 second)]
      rfl
    | succ k =>
      unfold readAll
      have shorter := (List.dropWhile_suffix isSpace (l := cs)).length_le
      revert shorter
      cases cs.dropWhile isSpace with
      | nil => exact fun _ => rfl
      | cons c behind =>
        intro shorter
        have left := length_read c behind
        rw [List.length_cons] at shorter
        have same : readAll n (read c behind).2 = readAll k (read c behind).2 :=
          ih (by omega) (by omega)
        exact congrArg ((read c behind).1 :: ·) same

theorem ofText_space (space : isSpace c = true) : ofText (c :: cs) = ofText cs := by
  have skipped : readAll (cs.length + 1) (c :: cs) = readAll (cs.length + 1) cs := by
    unfold readAll
    rw [List.dropWhile_cons_of_pos space]
  exact skipped.trans (readAll_of_length_le (Nat.le_succ _) (Nat.le_refl _))

theorem ofText_spaces {blanks : List Char} (spaces : ∀ c ∈ blanks, isSpace c = true) :
    ofText (blanks ++ rest) = ofText rest := by
  induction blanks with
  | nil => rfl
  | cons c blanks ih =>
    rw [List.cons_append, ofText_space (spaces c (.head _))]
    exact ih fun d member => spaces d (.tail _ member)

/-- A mark, and behind it the marks of what is left. -/
theorem ofText_cons (dark : isSpace c = false) (h : read c cs = (m, rest)) :
    ofText (c :: cs) = m :: ofText rest := by
  have shorter := length_read c cs
  rw [h] at shorter
  have taken : readAll (cs.length + 1) (c :: cs) = m :: readAll cs.length rest := by
    rw [readAll, List.dropWhile_cons_of_neg (by simp [dark])]
    simp only [h]
  exact taken.trans (congrArg (m :: ·) (readAll_of_length_le shorter (Nat.le_refl _)))

/-! ### Brackets and words -/

@[simp] theorem ofText_openList : ofText ('[' :: rest) = openList :: ofText rest :=
  ofText_cons rfl rfl

@[simp] theorem ofText_closeList : ofText (']' :: rest) = closeList :: ofText rest :=
  ofText_cons rfl rfl

@[simp] theorem ofText_openObject : ofText ('{' :: rest) = openObject :: ofText rest :=
  ofText_cons rfl rfl

@[simp] theorem ofText_closeObject : ofText ('}' :: rest) = closeObject :: ofText rest :=
  ofText_cons rfl rfl

@[simp] theorem ofText_comma : ofText (',' :: rest) = comma :: ofText rest :=
  ofText_cons rfl rfl

@[simp] theorem ofText_colon : ofText (':' :: rest) = colon :: ofText rest :=
  ofText_cons rfl rfl

theorem word_append (expected : List Char) (m : Mark) :
    word expected m (expected ++ rest) = (m, rest) := by
  simp [word]

@[simp] theorem ofText_null : ofText ("null".toList ++ rest) = null :: ofText rest :=
  ofText_cons rfl (word_append ['u', 'l', 'l'] null)

@[simp] theorem ofText_true : ofText ("true".toList ++ rest) = bool true :: ofText rest :=
  ofText_cons rfl (word_append ['r', 'u', 'e'] (bool true))

@[simp] theorem ofText_false : ofText ("false".toList ++ rest) = bool false :: ofText rest :=
  ofText_cons rfl (word_append ['a', 'l', 's', 'e'] (bool false))

/-! ### Quoted texts -/

theorem decode_escape {n : Nat} (low : n < 0xD800) (units : List CodeUnit) :
    CodeUnit.decode (.escape n :: units) =
      (CodeUnit.decode units).map (Char.ofNat n :: ·) := by
  have lead : CodeUnit.isLead n = false := by
    simp only [CodeUnit.isLead, Bool.and_eq_false_iff, decide_eq_false_iff_not]
    omega
  have trail : CodeUnit.isTrail n = false := by
    simp only [CodeUnit.isTrail, Bool.and_eq_false_iff, decide_eq_false_iff_not]
    omega
  cases units with
  | nil => simp [CodeUnit.decode, lead, trail]
  | cons u units => cases u <;> simp [CodeUnit.decode, lead, trail]

theorem hexValue?_hexDigit : ∀ n < 16, hexValue? (hexDigit n) = some n := by
  decide

/-- What is written for a character is read as one unit that stands for it. -/
theorem stringUnits_escape (c : Char) (rest : List Char) :
    ∃ u, stringUnits (escape c ++ rest) = (stringUnits rest).map (fun p => (u :: p.1, p.2)) ∧
      ∀ units, CodeUnit.decode (u :: units) = (CodeUnit.decode units).map (c :: ·) := by
  have spelt : ∀ units, CodeUnit.decode (.char c :: units) =
      (CodeUnit.decode units).map (c :: ·) := fun units => by rw [CodeUnit.decode]
  unfold escape
  iterate 7
    split
    · rename_i same
      subst same
      exact ⟨.char _, rfl, spelt⟩
  split
  · rename_i control
    have number : hex4? '0' '0' (hexDigit (c.toNat / 16)) (hexDigit (c.toNat % 16)) =
        some c.toNat := by
      unfold hex4?
      rw [hexValue?_hexDigit _ (by omega), hexValue?_hexDigit _ (by omega)]
      have zero : hexValue? '0' = some 0 := by decide
      simp only [zero, Option.bind_eq_bind, Option.bind_some, Option.pure_def, Option.some.injEq]
      omega
    refine ⟨.escape c.toNat, ?_, ?_⟩
    · simp only [List.cons_append, List.nil_append]
      rw [stringUnits]
      simp only [number]
    · intro units
      rw [decode_escape (by omega), Char.ofNat_toNat]
  · rename_i quote backslash _ _ _ _ _ control
    refine ⟨.char c, ?_, spelt⟩
    rw [List.singleton_append, stringUnits]
    · simp [control, backslash]
    · exact quote
    · exact fun a b c d rest same _ => backslash same
    · exact fun e rest same _ => backslash same

theorem stringUnits_quoted (cs rest : List Char) :
    ∃ units, stringUnits (cs.flatMap escape ++ '"' :: rest) = some (units, rest) ∧
      CodeUnit.decode units = some cs := by
  induction cs with
  | nil => exact ⟨[], rfl, rfl⟩
  | cons c cs ih =>
    obtain ⟨units, read, decoded⟩ := ih
    obtain ⟨u, first, stands⟩ := stringUnits_escape c (cs.flatMap escape ++ '"' :: rest)
    refine ⟨u :: units, ?_, ?_⟩
    · rw [List.flatMap_cons, List.append_assoc, first, read]
      rfl
    · rw [stands, decoded]
      rfl

@[simp] theorem ofText_quoted (s : String) (rest : List Char) :
    ofText (quoted s ++ rest) = text s :: ofText rest := by
  obtain ⟨units, read, decoded⟩ := stringUnits_quoted s.toList rest
  have shape : quoted s ++ rest = '"' :: (s.toList.flatMap escape ++ '"' :: rest) := by
    simp [quoted]
  rw [shape]
  refine ofText_cons rfl ?_
  show readString _ = _
  simp [readString, read, decoded]

end Reckoner.Json.Mark
