import UtilityCss.ClassName
import UtilityCss.Proofs.Text.Basic

/-!
# Class names survive their spellings

A class name comes back from a selector however its characters are spelled
(`Selector.className_spelled`). What an escape takes is decided within its own spelling, so that the
text behind it does not matter (`SpellsChar.unescape_append`). At the end of a selector trimming can
take the white space that ends a number, which the number can do without
(`SpellsChar.unescape_trimEnd`).
-/

set_option autoImplicit false

namespace UtilityCss.Selector

/-! ## Notations of numbers -/

section Notation

variable {digits : Text} {number : Nat}

theorem IsNotation.number_eq (h : IsNotation digits number) : Escape.number digits = number := by
  obtain ⟨zeros, hdigits⟩ := h
  rw [← Escape.number_asciiLower, hdigits, Escape.number_zeros_append, Escape.number_toDigits]

/-- The null character is the only one that is not what its number names. -/
theorem IsNotation.codePoint_eq {c : Char} (h : IsNotation digits c.toNat) (hnull : c ≠ '\x00') :
    Escape.codePoint digits = c := by
  rw [Escape.codePoint, h.number_eq, Escape.ofNumber_toNat hnull]

theorem IsNotation.isHexDigit (h : IsNotation digits number) :
    ∀ c ∈ digits, isHexDigit c = true := by
  obtain ⟨zeros, hdigits⟩ := h
  intro c hc
  have hlower : c.toLower ∈ Text.asciiLower digits := List.mem_map_of_mem hc
  rw [hdigits, List.mem_append] at hlower
  rw [← Escape.isHexDigit_toLower]
  rcases hlower with hzero | hdigit
  · rw [List.eq_of_mem_replicate hzero]
    rfl
  · exact Escape.isHexDigit_of_mem_toDigits hdigit

theorem IsNotation.ne_nil (h : IsNotation digits number) : digits ≠ [] := by
  obtain ⟨zeros, hdigits⟩ := h
  rintro rfl
  have hnil := (List.append_eq_nil_iff.1 hdigits.symm).2
  exact Nat.toDigits_ne_nil hnil

theorem isNotation_toDigits (number : Nat) : IsNotation (Nat.toDigits 16 number) number :=
  ⟨0, Escape.asciiLower_toDigits number⟩

/-- Six digits are enough for every character. -/
theorem length_toDigits_toNat_le (c : Char) : (Nat.toDigits 16 c.toNat).length ≤ 6 := by
  have hvalid : c.toNat < 0xD800 ∨ (0xDFFF < c.toNat ∧ c.toNat < 0x110000) := c.valid
  rw [Nat.length_toDigits_le_iff (by decide) (by decide)]
  omega

end Notation

/-! ## Resolving one character -/

@[simp] theorem unescape_nil : unescape [] = [] := by
  rw [unescape]

theorem unescape_cons_of_ne {c : Char} (h : c ≠ '\\') (rest : Text) :
    unescape (c :: rest) = c :: unescape rest := by
  rw [unescape.eq_def]
  exact if_neg h

theorem unescape_literal {c : Char} (h : isHexDigit c = false) (rest : Text) :
    unescape ('\\' :: c :: rest) = c :: unescape rest := by
  have hrun : Escape.digits (c :: rest) = [] := by simp [Escape.digits, h]
  rw [unescape, if_pos rfl, hrun]
  rfl

/-- The digits of a number are taken as far as they go, and white space behind them. -/
theorem unescape_number {digits rest : Text} (hne : digits ≠ [])
    (hdigits : ∀ c ∈ digits, isHexDigit c = true) (hlength : digits.length ≤ 6)
    (hrest : ∀ c ∈ rest.head?, isHexDigit c = false) :
    unescape ('\\' :: (digits ++ rest)) = Escape.codePoint digits :: unescape (dropSpace rest) := by
  have hrun : Escape.digits (digits ++ rest) = digits := by
    rw [Escape.digits_append hrest, Escape.digits_of_all hlength hdigits]
  have hempty : digits.isEmpty = false := List.isEmpty_eq_false_iff.2 hne
  rw [unescape.eq_def]
  simp only [hrun, hempty, Bool.false_eq_true, if_true, if_false, List.drop_left]

theorem not_isHexDigit_of_isSpace {c : Char} (h : isSpace c = true) : isHexDigit c = false := by
  simp only [isSpace, isNewline, Bool.or_eq_true, beq_iff_eq] at h
  rcases h with (rfl | rfl) | (rfl | rfl) | rfl <;> decide

namespace SpellsChar

variable {c : Char} {spelled : Text}

/-- What follows the spelling of a character does not matter. -/
theorem unescape_append (h : SpellsChar c spelled) (hnull : c ≠ '\x00') (rest : Text) :
    unescape (spelled ++ rest) = c :: unescape rest := by
  cases h with
  | plain hne => exact unescape_cons_of_ne hne rest
  | escaped hhex => exact unescape_literal hhex rest
  | @numbered digits space hdigits hlength hspace =>
      have hhead : ∀ d ∈ (space :: rest).head?, isHexDigit d = false := by
        intro d hd
        obtain rfl : space = d := by simpa using hd
        exact not_isHexDigit_of_isSpace hspace
      have hspelled : '\\' :: (digits ++ [space]) ++ rest = '\\' :: (digits ++ space :: rest) := by
        simp
      rw [hspelled, unescape_number hdigits.ne_nil hdigits.isHexDigit hlength hhead, dropSpace,
        if_pos hspace, hdigits.codePoint_eq hnull]

/-- The white space that ends a number can be trimmed. -/
theorem unescape_trimEnd (h : SpellsChar c spelled) (hnull : c ≠ '\x00')
    (hblank : isBlank c = false) : unescape (Text.trimEnd spelled) = [c] := by
  cases h with
  | plain hne =>
      rw [Text.trimEnd_cons_of_not_blank hblank, unescape_cons_of_ne hne]
      exact congrArg _ unescape_nil
  | escaped hhex =>
      have hself : Text.trimEnd ['\\', c] = ['\\', c] :=
        Text.trimEnd_eq_self_iff.2 (by simpa using hblank)
      rw [hself, unescape_literal hhex, unescape_nil]
  | @numbered digits space hdigits hlength hspace =>
      have htail : ∀ d ∈ [space], isBlank d = true := by
        intro d hd
        rw [List.mem_singleton.1 hd]
        exact isBlank_of_isSpace hspace
      have hself : Text.trimEnd ('\\' :: (digits ++ [space])) = '\\' :: (digits ++ []) := by
        rw [Text.trimEnd_cons_of_not_blank rfl, Text.trimEnd_append_of_blank htail, List.append_nil,
          Text.trimEnd_eq_self_iff.2]
        intro d hd
        exact isBlank_of_isHexDigit (hdigits.isHexDigit d (List.mem_of_mem_getLast? hd))
      rw [hself, unescape_number hdigits.ne_nil hdigits.isHexDigit hlength (by simp),
        hdigits.codePoint_eq hnull, dropSpace, unescape_nil]

/-- Only blanks have spellings of blanks. -/
theorem not_blank (h : SpellsChar c spelled) (hblank : isBlank c = false) :
    ¬ ∀ d ∈ spelled, isBlank d = true := by
  have hbackslash : isBlank '\\' = false := rfl
  intro hall
  cases h with
  | plain => simp [hblank] at hall
  | escaped => simp [hblank] at hall
  | numbered => simp [hbackslash] at hall

end SpellsChar

/-! ## Resolving a name -/

namespace Spells

variable {name spelled : Text}

theorem unescape_append (h : Spells name spelled) (hnull : '\x00' ∉ name) (rest : Text) :
    unescape (spelled ++ rest) = name ++ unescape rest := by
  induction h with
  | nil => rfl
  | cons hfirst _ ih =>
      rw [List.mem_cons, not_or] at hnull
      rw [List.append_assoc, hfirst.unescape_append (Ne.symm hnull.1), ih hnull.2, List.cons_append]

theorem not_blank (h : Spells name spelled) (hne : name ≠ [])
    (hlast : ∀ c ∈ name.getLast?, isBlank c = false) : ¬ ∀ d ∈ spelled, isBlank d = true := by
  induction h with
  | nil => exact absurd rfl hne
  | @cons c name first rest hfirst hrest ih =>
      intro hall
      rw [List.forall_mem_append] at hall
      cases name with
      | nil => exact hfirst.not_blank (hlast c rfl) hall.1
      | cons d name => exact ih (List.cons_ne_nil d name) (by simpa using hlast) hall.2

/-- A name that does not end in a blank loses nothing if its spelling is trimmed. -/
theorem unescape_trimEnd (h : Spells name spelled) (hnull : '\x00' ∉ name)
    (hlast : ∀ c ∈ name.getLast?, isBlank c = false) :
    unescape (Text.trimEnd spelled) = name := by
  induction h with
  | nil => exact unescape_nil
  | @cons c name first rest hfirst hrest ih =>
      rw [List.mem_cons, not_or] at hnull
      have hc : c ≠ '\x00' := Ne.symm hnull.1
      cases name with
      | nil =>
          -- The last character is the only one whose spelling can lose something.
          cases hrest
          rw [List.append_nil]
          exact hfirst.unescape_trimEnd hc (hlast c rfl)
      | cons d name =>
          have hlast' : ∀ c ∈ (d :: name).getLast?, isBlank c = false := by simpa using hlast
          have hink := hrest.not_blank (List.cons_ne_nil d name) hlast'
          rw [Text.trimEnd_append_of_not_blank hink, hfirst.unescape_append hc, ih hnull.2 hlast']

end Spells

/-! ## Serialized identifiers -/

theorem isIdentifierChar_of_isHexDigit {c : Char} (h : isHexDigit c = true) :
    isIdentifierChar c = true := by
  simp only [isHexDigit, Bool.or_eq_true, Bool.and_eq_true, decide_eq_true_eq] at h
  rcases h with (hdigit | hsmall) | hcapital
  · simp [isIdentifierChar, hdigit]
  · have hz : c ≤ 'z' := Char.le_trans hsmall.2 (by decide)
    simp [isIdentifierChar, isAsciiLetter, hsmall.1, hz]
  · have hz : c ≤ 'Z' := Char.le_trans hcapital.2 (by decide)
    simp [isIdentifierChar, isAsciiLetter, hcapital.1, hz]

theorem spellsChar_numberEscape (c : Char) : SpellsChar c (numberEscape c) :=
  .numbered (isNotation_toDigits c.toNat) (length_toDigits_toNat_le c) rfl

theorem spellsChar_serializeChar {c : Char} (hnull : c ≠ '\x00') :
    SpellsChar c (serializeChar c) := by
  rw [serializeChar, if_neg hnull]
  split
  · exact spellsChar_numberEscape c
  · split
    · rename_i hname
      apply SpellsChar.plain
      rintro rfl
      exact absurd hname (by decide)
    · -- Digits are among the characters that stand for themselves.
      rename_i hname
      apply SpellsChar.escaped
      rw [Bool.eq_false_iff]
      intro hhex
      exact hname (isIdentifierChar_of_isHexDigit hhex)

theorem spellsChar_serializeFirst {c : Char} (hnull : c ≠ '\x00') :
    SpellsChar c (serializeFirst c) := by
  rw [serializeFirst]
  split
  · exact spellsChar_numberEscape c
  · exact spellsChar_serializeChar hnull

theorem spells_flatMap_serializeChar {name : Text} (hnull : '\x00' ∉ name) :
    Spells name (name.flatMap serializeChar) := by
  induction name with
  | nil => exact .nil
  | cons c rest ih =>
      rw [List.mem_cons, not_or] at hnull
      exact .cons (spellsChar_serializeChar (Ne.symm hnull.1)) (ih hnull.2)

/-- The serialization of a name is one of its spellings. -/
theorem spells_serialize {name : Text} (hnull : '\x00' ∉ name) : Spells name (serialize name) := by
  fun_cases serialize name with
  | case1 => exact .nil
  | case2 => exact .cons (.escaped (by decide)) .nil
  | case3 c rest =>
      simp only [List.mem_cons, not_or] at hnull
      have hsecond := spellsChar_serializeFirst (Ne.symm hnull.2.1)
      have hrest := spells_flatMap_serializeChar hnull.2.2
      exact .cons (.plain (by decide)) (.cons hsecond hrest)
  | case4 c rest =>
      simp only [List.mem_cons, not_or] at hnull
      exact .cons (spellsChar_serializeFirst (Ne.symm hnull.1))
        (spells_flatMap_serializeChar hnull.2)

/-! ## Selectors -/

/-- White space around a selector and the dot in front of it are dropped. -/
theorem className_eq {before after : Text} (hbefore : ∀ c ∈ before, isBlank c = true)
    (hafter : ∀ c ∈ after, isBlank c = true) (spelled : Text) :
    className (before ++ '.' :: (spelled ++ after)) = unescape (Text.trimEnd spelled) := by
  have htrim : Text.trim (before ++ '.' :: (spelled ++ after)) = '.' :: Text.trimEnd spelled := by
    rw [Text.trim_append_of_blank hbefore, Text.trim, Text.trimStart_eq_self_iff.2 (by simp; rfl),
      Text.trimEnd_cons_of_not_blank rfl, Text.trimEnd_append_of_blank hafter]
  rw [className, htrim, dropDot]

/-- A name without the null character and without white space at its end comes back from every
selector that spells it, and from the one that has it as a serialized identifier. White space around
the selector does not matter. -/
theorem className_spelled (name before after : Text) (hnull : '\x00' ∉ name)
    (hlast : ∀ c ∈ name.getLast?, isBlank c = false)
    (hbefore : ∀ c ∈ before, isBlank c = true) (hafter : ∀ c ∈ after, isBlank c = true) :
    (∀ spelled, Spells name spelled →
      className (before ++ '.' :: (spelled ++ after)) = name) ∧
    className (before ++ '.' :: (serialize name ++ after)) = name := by
  have hspelled : ∀ spelled, Spells name spelled →
      className (before ++ '.' :: (spelled ++ after)) = name := by
    intro spelled h
    rw [className_eq hbefore hafter, h.unescape_trimEnd hnull hlast]
  exact ⟨hspelled, hspelled _ (spells_serialize hnull)⟩

/-- A name that begins with a digit and holds a backslash, a blank and a letter outside ASCII. -/
def numberedName : Text := "2x\\ :é4".toList

/-- It begins with a number that is ended by a line break, and ends in one whose white space is all
that stands behind it. The digits in between are those of the letter. -/
def numberedSpelling : Text := "\\32\nx\\\\ \\:\\0000E9 \\34 ".toList

theorem className_numberedName :
    '\x00' ∉ numberedName ∧ (∀ c ∈ numberedName.getLast?, isBlank c = false) ∧
    Spells numberedName numberedSpelling ∧
    className (" .".toList ++ (numberedSpelling ++ "\u00a0".toList)) = numberedName ∧
    className (" .".toList ++ (serialize numberedName ++ "\u00a0".toList)) = numberedName := by
  have hnull : '\x00' ∉ numberedName := by decide
  have hlast : ∀ c ∈ numberedName.getLast?, isBlank c = false := by
    rintro c ⟨⟩
    rfl
  have hbefore : ∀ c ∈ " ".toList, isBlank c = true := List.forall_mem_singleton.2 rfl
  have hafter : ∀ c ∈ "\u00a0".toList, isBlank c = true := List.forall_mem_singleton.2 rfl
  have hspells : Spells numberedName numberedSpelling := by
    have htwo : SpellsChar '2' ("\\32\n".toList) :=
      @SpellsChar.numbered '2' "32".toList '\n' ⟨0, by decide⟩ (by decide) (by decide)
    have he : SpellsChar 'é' ("\\0000E9 ".toList) :=
      @SpellsChar.numbered 'é' "0000E9".toList ' ' ⟨4, by decide⟩ (by decide) (by decide)
    have hfour : SpellsChar '4' ("\\34 ".toList) :=
      @SpellsChar.numbered '4' "34".toList ' ' ⟨0, by decide⟩ (by decide) (by decide)
    exact .cons htwo (.cons (.plain (by decide)) (.cons (.escaped (by decide))
      (.cons (.plain (by decide)) (.cons (.escaped (by decide)) (.cons he (.cons hfour .nil))))))
  obtain ⟨hspelled, hserialized⟩ := className_spelled numberedName " ".toList "\u00a0".toList
    hnull hlast hbefore hafter
  exact ⟨hnull, hlast, hspells, hspelled _ hspells, hserialized⟩

end UtilityCss.Selector
