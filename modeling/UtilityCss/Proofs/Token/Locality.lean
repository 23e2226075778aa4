import UtilityCss.Proofs.Text.Basic
import UtilityCss.Proofs.Token.First
import Mathlib.Data.List.TakeWhile

/-!
# Names and numerals end at the marks of blocks

A name or a numeral at the end of a stretch of text is the same whatever stands behind the
stretch, provided that this begins with a curly bracket or a semicolon or is nothing. For a numeral
it may also begin with a slash or a space.

* `Stops` says what may stand behind a stretch, `EndsName` what may stand behind a name, and
  `Breaks` what may stand behind a numeral.
* `NoNumeral` is all that a numeral asks of the text behind it.
* `Spans` says that so many characters in front of a text exist and belong to a class.

Main statements: `nameOf_append`, `startsName_append`, `numeralExtent_append` and
`startsNumeral_append`.

A function is spelled as a name and a bracket (`exists_source_of_function`). A name in which no
backslash stands is spelled as it is read (`eq_of_nameValue`).
-/

set_option autoImplicit false

namespace UtilityCss.Token

/-- Nothing, or a text that begins with a curly bracket or a semicolon. -/
def Stops (rest : Text) : Prop :=
  ∀ c ∈ rest.head?, c = '{' ∨ c = '}' ∨ c = ';'

theorem stops_nil : Stops [] := by
  intro c hc
  simp at hc

/-- A class without the three marks does not go on behind a stretch. -/
theorem Stops.head?_eq_false {rest : Text} (h : Stops rest) {p : Char → Bool}
    (hopen : p '{' = false) (hclose : p '}' = false) (hsemicolon : p ';' = false) :
    ∀ c ∈ rest.head?, p c = false := by
  intro c hc
  rcases h c hc with rfl | rfl | rfl
  · exact hopen
  · exact hclose
  · exact hsemicolon

/-- Nothing, or a text that begins with a curly bracket, a semicolon, a slash or a space. -/
def Breaks (rest : Text) : Prop :=
  ∀ c ∈ rest.head?, c = '{' ∨ c = '}' ∨ c = ';' ∨ c = '/' ∨ c = ' '

theorem Stops.breaks {rest : Text} (h : Stops rest) : Breaks rest := by
  intro c hc
  rcases h c hc with rfl | rfl | rfl <;> decide

theorem breaks_slash (rest : Text) : Breaks ('/' :: rest) := by
  intro c hc
  cases hc
  decide

theorem breaks_space (rest : Text) : Breaks (' ' :: rest) := by
  intro c hc
  cases hc
  decide

/-- A class without these characters does not go on behind a numeral. -/
theorem Breaks.head?_eq_false {rest : Text} (h : Breaks rest) {p : Char → Bool}
    (hopen : p '{' = false) (hclose : p '}' = false) (hsemicolon : p ';' = false)
    (hslash : p '/' = false) (hspace : p ' ' = false) : ∀ c ∈ rest.head?, p c = false := by
  intro c hc
  rcases h c hc with rfl | rfl | rfl | rfl | rfl
  · exact hopen
  · exact hclose
  · exact hsemicolon
  · exact hslash
  · exact hspace

/-- The first `count` characters exist and belong to a class. -/
def Spans (p : Char → Bool) (count : Nat) (text : Text) : Prop :=
  count ≤ text.length ∧ ∀ c ∈ text.take count, p c = true

namespace Spans

variable {p : Char → Bool} {text : Text}

theorem zero : Spans p 0 text := ⟨Nat.zero_le _, by simp⟩

theorem add {first second : Nat} (hfirst : Spans p first text)
    (hsecond : Spans p second (text.drop first)) : Spans p (first + second) text := by
  obtain ⟨hlen, hall⟩ := hfirst
  obtain ⟨hlen', hall'⟩ := hsecond
  rw [List.length_drop] at hlen'
  refine ⟨by omega, ?_⟩
  intro c hc
  rw [List.take_add, List.mem_append] at hc
  rcases hc with hc | hc
  · exact hall c hc
  · exact hall' c hc

theorem cons {c : Char} {rest : Text} {count : Nat} (hc : p c = true)
    (h : Spans p count rest) : Spans p (1 + count) (c :: rest) := by
  obtain ⟨hlen, hall⟩ := h
  refine ⟨by rw [List.length_cons]; omega, ?_⟩
  rw [Nat.add_comm, List.take_succ_cons, List.forall_mem_cons]
  exact ⟨hc, hall⟩

theorem one {c : Char} {rest : Text} (hc : p c = true) : Spans p 1 (c :: rest) := by
  refine ⟨by simp, ?_⟩
  rw [List.take_succ_cons, List.take_zero, List.forall_mem_singleton]
  exact hc

theorem takeWhile {q : Char → Bool} (h : ∀ c, q c = true → p c = true) :
    Spans p (text.takeWhile q).length text := by
  refine ⟨(List.takeWhile_sublist q).length_le, ?_⟩
  intro c hc
  rw [(List.prefix_iff_eq_take.1 (List.takeWhile_prefix q)).symm] at hc
  exact h c (List.mem_takeWhile_imp hc)

end Spans

/-! ## Names -/

/-- What may stand behind a name. -/
def EndsName (rest : Text) : Prop :=
  ∀ c ∈ rest.head?, isNameChar c = false ∧ c ≠ '\\'

theorem Stops.endsName {rest : Text} (h : Stops rest) : EndsName rest := by
  intro c hc
  rcases h c hc with rfl | rfl | rfl <;> decide

theorem nameExtent_append {text rest : Text} (htext : '\\' ∉ text) (hrest : EndsName rest) :
    nameExtent (text ++ rest) = (text.takeWhile isNameChar).length := by
  induction text with
  | nil =>
      cases rest with
      | nil => rw [List.nil_append, nameExtent]; rfl
      | cons c rest =>
          obtain ⟨hname, hslash⟩ := hrest c rfl
          rw [List.nil_append, nameExtent, if_neg hslash, if_neg (by simp [hname])]
          rfl
  | cons c text ih =>
      rw [List.mem_cons, not_or] at htext
      obtain ⟨hslash, htext⟩ := htext
      rw [List.cons_append, nameExtent, if_neg (fun h => hslash h.symm), ih htext]
      by_cases hname : isNameChar c = true
      · rw [if_pos hname, List.takeWhile_cons_of_pos hname, List.length_cons, Nat.add_comm]
      · rw [if_neg hname, List.takeWhile_cons_of_neg hname]
        rfl

/-- A name without escapes is written as it is. -/
theorem nameValue_eq_self {name : Text} (hslash : '\\' ∉ name) (hnull : '\x00' ∉ name) :
    nameValue name = name := by
  induction name with
  | nil => rw [nameValue]
  | cons c rest ih =>
      rw [List.mem_cons, not_or] at hslash hnull
      rw [nameValue, if_neg (fun h => hslash.1 h.symm), if_neg (fun h => hnull.1 h.symm),
        ih hslash.2 hnull.2]

theorem nameOf_append {text rest : Text} (hslash : '\\' ∉ text) (hnull : '\x00' ∉ text)
    (hrest : EndsName rest) : nameOf (text ++ rest) = text.takeWhile isNameChar := by
  have hsub : (text.takeWhile isNameChar).length ≤ text.length :=
    (List.takeWhile_sublist _).length_le
  rw [nameOf, nameExtent_append hslash hrest, List.take_append_of_le_length hsub,
    (List.prefix_iff_eq_take.1 (List.takeWhile_prefix isNameChar)).symm]
  apply nameValue_eq_self
  · exact fun h => hslash ((List.takeWhile_sublist _).subset h)
  · exact fun h => hnull ((List.takeWhile_sublist _).subset h)

theorem startsName_append {text rest : Text} (hslash : '\\' ∉ text) (hrest : Stops rest) :
    startsName (text ++ rest) = startsName text := by
  cases text with
  | nil =>
      cases rest with
      | nil => rfl
      | cons c rest =>
          rcases hrest c rfl with rfl | rfl | rfl <;> (cases rest <;> rfl)
  | cons c text =>
      rw [List.mem_cons, not_or] at hslash
      have hc : c ≠ '\\' := fun h => hslash.1 h.symm
      by_cases hhyphen : c = '-'
      · subst hhyphen
        cases text with
        | cons d text => rfl
        | nil =>
            cases rest with
            | nil => rfl
            | cons d rest => rcases hrest d rfl with rfl | rfl | rfl <;> rfl
      · rw [List.cons_append, startsName_of_ne hc hhyphen, startsName_of_ne hc hhyphen]

/-! ## Numerals -/

section Numerals

/-- The characters of numerals. -/
def isNumeralChar (c : Char) : Bool :=
  isDigit c || "+-.eE".toList.contains c

theorem isNumeralChar_of_isDigit (c : Char) (h : isDigit c = true) : isNumeralChar c = true := by
  simp [isNumeralChar, h]

variable {rest : Text} (text : Text)

theorem spaceExtent_append (hrest : Stops rest) :
    spaceExtent (text ++ rest) = spaceExtent text := by
  rw [spaceExtent, spaceExtent,
    takeWhile_append_of_head? (hrest.head?_eq_false rfl rfl rfl)]

theorem spans_digitExtent : Spans isNumeralChar (digitExtent text) text :=
  Spans.takeWhile isNumeralChar_of_isDigit

theorem spans_signExtent : Spans isNumeralChar (signExtent text) text := by
  cases text with
  | nil => exact Spans.zero
  | cons c text =>
      rw [signExtent]
      split
      · rename_i hc
        apply Spans.one
        rcases hc with rfl | rfl <;> decide
      · exact Spans.zero

theorem spans_fractionExtent : Spans isNumeralChar (fractionExtent text) text := by
  cases text with
  | nil => exact Spans.zero
  | cons c text =>
      rw [fractionExtent]
      split
      · rename_i hc
        simp only [Bool.and_eq_true, decide_eq_true_eq] at hc
        refine Spans.cons ?_ (spans_digitExtent text)
        rw [hc.1]
        decide
      · exact Spans.zero

theorem spans_exponentExtent : Spans isNumeralChar (exponentExtent text) text := by
  cases text with
  | nil => exact Spans.zero
  | cons c text =>
      rw [exponentExtent]
      split
      · rename_i hc
        simp only [Bool.and_eq_true, Bool.or_eq_true, decide_eq_true_eq] at hc
        rw [Nat.add_assoc]
        refine Spans.cons ?_ (Spans.add (spans_signExtent text) (spans_digitExtent _))
        rcases hc.1 with rfl | rfl <;> decide
      · exact Spans.zero

theorem spans_numeralExtent : Spans isNumeralChar (numeralExtent text) text := by
  have hwhole := Spans.add (spans_signExtent text) (spans_digitExtent _)
  exact Spans.add (Spans.add hwhole (spans_fractionExtent _)) (spans_exponentExtent _)

theorem numeralExtent_pos {text : Text} (h : startsNumeral text = true) :
    1 ≤ numeralExtent text := by
  by_contra hzero
  rw [numeralExtent] at hzero
  have hsign : signExtent text = 0 := by omega
  have hdigits : digitExtent text = 0 := by
    have : digitExtent (text.drop (signExtent text)) = 0 := by omega
    rwa [hsign, List.drop_zero] at this
  have hfraction : fractionExtent text = 0 := by
    have : fractionExtent (text.drop (signExtent text +
        digitExtent (text.drop (signExtent text)))) = 0 := by omega
    rwa [hsign, List.drop_zero, hdigits, Nat.add_zero, List.drop_zero] at this
  rw [startsNumeral, hsign, List.drop_zero, hfraction] at h
  cases text with
  | nil => simp [startsDigit] at h
  | cons c text =>
      have hdigit : isDigit c = true := by simpa [startsDigit] using h
      rw [digitExtent, List.takeWhile_cons_of_pos hdigit] at hdigits
      cases hdigits

/-- No numeral goes on with the text. -/
structure NoNumeral (rest : Text) : Prop where
  digit : ∀ c ∈ rest.head?, isDigit c = false
  signed : startsDigit (rest.drop (signExtent rest)) = false
  fraction : fractionExtent rest = 0
  exponent : exponentExtent rest = 0

namespace NoNumeral

variable (h : NoNumeral rest)

include h

theorem digitExtent_append : digitExtent (text ++ rest) = digitExtent text := by
  rw [digitExtent, digitExtent, takeWhile_append_of_head? h.digit]

theorem startsDigit_append : startsDigit (text ++ rest) = startsDigit text := by
  cases text with
  | cons c text => rfl
  | nil =>
      cases rest with
      | nil => rfl
      | cons c rest => exact h.digit c rfl

theorem fractionExtent_append : fractionExtent (text ++ rest) = fractionExtent text := by
  cases text with
  | nil => exact h.fraction
  | cons c text =>
      rw [List.cons_append, fractionExtent, fractionExtent, h.startsDigit_append,
        h.digitExtent_append]

omit h in
theorem signExtent_append_of_ne_nil {text : Text} (hne : text ≠ []) (rest : Text) :
    signExtent (text ++ rest) = signExtent text := by
  cases text with
  | nil => exact absurd rfl hne
  | cons c text => rfl

theorem exponentExtent_append : exponentExtent (text ++ rest) = exponentExtent text := by
  cases text with
  | nil => exact h.exponent
  | cons c text =>
      rw [List.cons_append, exponentExtent, exponentExtent]
      cases text with
      | nil =>
          rw [List.nil_append, h.signed]
          simp [startsDigit]
      | cons d text =>
          have hdrop := (spans_signExtent (d :: text)).1
          simp only [signExtent_append_of_ne_nil (List.cons_ne_nil d text),
            List.drop_append_of_le_length hdrop, h.startsDigit_append, h.digitExtent_append]

theorem numeralExtent_append {text : Text} (hne : text ≠ []) :
    numeralExtent (text ++ rest) = numeralExtent text := by
  have hsign := spans_signExtent text
  have hwhole := Spans.add hsign (spans_digitExtent _)
  have hdecimal := Spans.add hwhole (spans_fractionExtent _)
  rw [numeralExtent, numeralExtent]
  simp only [signExtent_append_of_ne_nil hne, List.drop_append_of_le_length hsign.1,
    h.digitExtent_append, List.drop_append_of_le_length hwhole.1,
    h.fractionExtent_append, List.drop_append_of_le_length hdecimal.1,
    h.exponentExtent_append]

theorem startsNumeral_append {text : Text} (hne : text ≠ []) :
    startsNumeral (text ++ rest) = startsNumeral text := by
  rw [startsNumeral, startsNumeral]
  simp only [signExtent_append_of_ne_nil hne,
    List.drop_append_of_le_length (spans_signExtent text).1, h.startsDigit_append,
    h.fractionExtent_append]

end NoNumeral

omit text in
/-- A character that is in no numeral ends one. -/
theorem noNumeral_of_head? (h : ∀ c ∈ rest.head?, isNumeralChar c = false) :
    NoNumeral rest := by
  cases rest with
  | nil => exact ⟨by simp, rfl, rfl, rfl⟩
  | cons c rest =>
      have hc := h c rfl
      have hne : ∀ d, isNumeralChar d = true → c ≠ d :=
        fun d hd => (ne_of_class hd hc).symm
      have hdigit : isDigit c = false := by
        rw [Bool.eq_false_iff]
        intro hdigit
        rw [isNumeralChar_of_isDigit c hdigit] at hc
        cases hc
      have hsign : signExtent (c :: rest) = 0 := by
        rw [signExtent, if_neg (not_or.2 ⟨hne '+' (by decide), hne '-' (by decide)⟩)]
      refine ⟨?_, ?_, ?_, ?_⟩
      · intro d hd
        obtain rfl : c = d := by simpa using hd
        exact hdigit
      · rw [hsign]
        exact hdigit
      · simp [fractionExtent, hne '.' (by decide)]
      · simp [exponentExtent, hne 'e' (by decide), hne 'E' (by decide)]

omit text in
theorem Breaks.noNumeral (h : Breaks rest) : NoNumeral rest :=
  noNumeral_of_head? (h.head?_eq_false rfl rfl rfl rfl rfl)

theorem startsDigit_append (hrest : Breaks rest) :
    startsDigit (text ++ rest) = startsDigit text :=
  hrest.noNumeral.startsDigit_append text

theorem numeralExtent_append (hrest : Breaks rest) :
    numeralExtent (text ++ rest) = numeralExtent text := by
  cases text with
  | cons c text => exact hrest.noNumeral.numeralExtent_append (List.cons_ne_nil c text)
  | nil =>
      cases rest with
      | nil => rfl
      | cons c rest => rcases hrest c rfl with rfl | rfl | rfl | rfl | rfl <;> rfl

theorem startsNumeral_append (hrest : Breaks rest) :
    startsNumeral (text ++ rest) = startsNumeral text := by
  cases text with
  | cons c text => exact hrest.noNumeral.startsNumeral_append (List.cons_ne_nil c text)
  | nil =>
      cases rest with
      | nil => rfl
      | cons c rest => rcases hrest c rfl with rfl | rfl | rfl | rfl | rfl <;> rfl

end Numerals

/-! ## Functions -/

/-- A function is read where a bracket follows the name in front. -/
theorem function_of_firstNamed {text name : Text} {extent : Nat}
    (h : firstNamed text = (.function name, extent)) :
    name = nameOf text ∧ extent = nameExtent text + 1 ∧
      ∃ inside, text.drop (nameExtent text) = '(' :: inside := by
  rw [firstNamed] at h
  cases hdrop : text.drop (nameExtent text) with
  | nil =>
      rw [hdrop] at h
      cases h
  | cons c inside =>
      rw [hdrop] at h
      dsimp only at h
      split at h
      · cases h
      · rename_i hc
        obtain rfl : c = '(' := by simpa using hc
        split at h
        · split at h
          · cases h
          · cases h
            exact ⟨rfl, rfl, inside, rfl⟩
        · cases h
          exact ⟨rfl, rfl, inside, rfl⟩

theorem first_eq_function {c : Char} {rest name : Text}
    (h : (first c rest).1 = .function name) :
    name = nameOf (c :: rest) ∧ (first c rest).2 = nameExtent (c :: rest) + 1 ∧
      ∃ inside, (c :: rest).drop (nameExtent (c :: rest)) = '(' :: inside := by
  obtain ⟨-, hnamed⟩ := first_eq_firstNamed_of_isName (by rw [h]; rfl)
  apply function_of_firstNamed
  rw [← hnamed, ← h]

/-- A function is spelled as its name and a bracket. -/
theorem exists_source_of_function {text name : Text} {token : Token} (h : token ∈ ofText text)
    (hkind : token.kind = .function name) :
    ∃ written, token.source = written ++ ['('] ∧ nameValue written = name := by
  fun_induction ofText text with
  | case1 => simp at h
  | case2 c rest read ih =>
      rw [List.mem_cons] at h
      rcases h with rfl | hrest
      · obtain ⟨rfl, hextent, inside, hinside⟩ := first_eq_function hkind
        have hread : read.2 = nameExtent (c :: rest) + 1 := hextent
        refine ⟨(c :: rest).take (nameExtent (c :: rest)), ?_, rfl⟩
        dsimp only
        rw [hread, Nat.add_sub_cancel, ← List.take_succ_cons, List.take_add, hinside]
        rfl
      · exact ih hrest

/-- The null character is not read as itself. -/
theorem replacement_mem_nameValue {written : Text} (hslash : '\\' ∉ written)
    (hnull : '\x00' ∈ written) : Escape.replacement ∈ nameValue written := by
  induction written with
  | nil => simp at hnull
  | cons c rest ih =>
      rw [List.mem_cons, not_or] at hslash
      rw [nameValue, if_neg (fun h => hslash.1 h.symm), List.mem_cons]
      rcases List.mem_cons.1 hnull with rfl | hrest
      · exact Or.inl rfl
      · exact Or.inr (ih hslash.2 hrest)

/-- A name without escapes is spelled as it is read. -/
theorem eq_of_nameValue {written name : Text} (hslash : '\\' ∉ written)
    (hvalue : nameValue written = name) (hname : Escape.replacement ∉ name) : written = name := by
  subst hvalue
  have hnull : '\x00' ∉ written := fun hmem => hname (replacement_mem_nameValue hslash hmem)
  exact (nameValue_eq_self hslash hnull).symm

end UtilityCss.Token
