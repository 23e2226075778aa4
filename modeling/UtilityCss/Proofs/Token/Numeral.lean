import UtilityCss.Arithmetic
import UtilityCss.Proofs.Number.Decimal
import UtilityCss.Proofs.Token.Firm

/-!
# The spelling of numerals

A number token is spelled as a numeral, and a dimension as a numeral with the name of its unit
behind it (`exists_numeral_of_number`, `exists_numeral_of_dimension`). A numeral is a plain decimal
unless it has a sign or an exponent (`Numeral.parse?_trim_eq_none_iff`). A dimension that is spelled
as a plain decimal with small letters behind it has these letters for its unit
(`unit_of_dimension`).

* `IsSign`, `IsFraction` and `IsExponent` are the parts of a numeral that may be missing.
* `Numeral` is a numeral in its parts.
-/

set_option autoImplicit false

namespace UtilityCss

theorem IsDigits.exists_last {digits : Text} (h : IsDigits digits) :
    ∃ front c, digits = front ++ [c] ∧ isDigit c = true :=
  ⟨_, _, (List.dropLast_concat_getLast h.ne_nil).symm, h.digit _ (List.getLast_mem h.ne_nil)⟩

namespace Token

/-! ## Parts of a numeral -/

/-- A sign, or none. -/
inductive IsSign : Text → Prop
  | absent : IsSign []
  | plus : IsSign ['+']
  | minus : IsSign ['-']

/-- A point with digits, or nothing. -/
inductive IsFraction : Text → Prop
  | absent : IsFraction []
  | present {digits : Text} : IsDigits digits → IsFraction ('.' :: digits)

/-- An exponent, or nothing. -/
inductive IsExponent : Text → Prop
  | absent : IsExponent []
  | present {mark : Char} {sign digits : Text} : mark = 'e' ∨ mark = 'E' → IsSign sign →
      IsDigits digits → IsExponent (mark :: (sign ++ digits))

theorem IsSign.eq_nil_or {sign : Text} (h : IsSign sign) :
    sign = [] ∨ ∃ c, sign = [c] ∧ (c = '+' ∨ c = '-') := by
  cases h with
  | absent => exact Or.inl rfl
  | plus => exact Or.inr ⟨'+', rfl, Or.inl rfl⟩
  | minus => exact Or.inr ⟨'-', rfl, Or.inr rfl⟩

theorem IsExponent.eq_nil_or {exponent : Text} (h : IsExponent exponent) :
    exponent = [] ∨ 'e' ∈ exponent ∨ 'E' ∈ exponent := by
  cases h with
  | absent => exact Or.inl rfl
  | present hmark =>
      rcases hmark with rfl | rfl
      · exact Or.inr (Or.inl List.mem_cons_self)
      · exact Or.inr (Or.inr List.mem_cons_self)

/-- Whether a text begins with a sign. -/
def IsSigned (text : Text) : Prop :=
  ∃ c ∈ text.head?, c = '+' ∨ c = '-'

/-- Whether a numeral of this text has an exponent. -/
def HasExponent (text : Text) : Prop :=
  'e' ∈ text ∨ 'E' ∈ text

theorem exists_foreign_of_marked {text : Text} (h : IsSigned text ∨ HasExponent text) :
    ∃ c ∈ text, Decimal.IsForeign c := by
  rcases h with ⟨c, hhead, hsign⟩ | hsmall | hcapital
  · refine ⟨c, List.mem_of_mem_head? hhead, ?_⟩
    rcases hsign with rfl | rfl <;> exact ⟨by decide, by decide, by decide⟩
  · exact ⟨'e', hsmall, by decide, by decide, by decide⟩
  · exact ⟨'E', hcapital, by decide, by decide, by decide⟩

/-- The parts of a numeral. There is a digit before the exponent. -/
structure Numeral where
  sign : Text
  whole : Text
  fraction : Text
  exponent : Text
  isSign : IsSign sign
  isDigit_whole : ∀ c ∈ whole, isDigit c = true
  isFraction : IsFraction fraction
  isExponent : IsExponent exponent
  ne_nil : whole ≠ [] ∨ fraction ≠ []

namespace Numeral

/-- The spelling of a numeral. -/
def text (numeral : Numeral) : Text :=
  numeral.sign ++ numeral.whole ++ numeral.fraction ++ numeral.exponent

/-- A numeral ends in a digit. -/
theorem exists_last (numeral : Numeral) :
    ∃ front c, numeral.text = front ++ [c] ∧ isDigit c = true := by
  -- The last of the parts that are there ends in one.
  have hends : ∀ {part : Text} (before : Text), IsDigits part →
      ∃ front c, before ++ part = front ++ [c] ∧ isDigit c = true := by
    intro part before hpart
    obtain ⟨front, c, rfl, hc⟩ := hpart.exists_last
    exact ⟨before ++ front, c, by rw [List.append_assoc], hc⟩
  obtain ⟨sign, whole, fraction, exponent, -, hwhole, hfraction, hexponent, hne⟩ := numeral
  rw [text]
  cases hexponent with
  | @present mark sign' digits _ _ hdigits =>
      have hlast := hends (sign ++ whole ++ fraction ++ mark :: sign') hdigits
      rwa [List.append_assoc, List.cons_append] at hlast
  | absent =>
      cases hfraction with
      | @present digits hdigits =>
          have hlast := hends (sign ++ whole ++ ['.']) hdigits
          rw [List.append_assoc] at hlast
          simpa using hlast
      | absent =>
          have hlast := hends sign ⟨hne.resolve_right (fun h => h rfl), hwhole⟩
          simpa using hlast

/-- Without a sign and an exponent, a numeral is a plain decimal. -/
theorem isPlain_of_unmarked (numeral : Numeral) (hsigned : ¬ IsSigned numeral.text)
    (hexponent : ¬ HasExponent numeral.text) : Decimal.isPlain numeral.text = true := by
  have hsign : numeral.sign = [] := by
    refine numeral.isSign.eq_nil_or.resolve_right ?_
    rintro ⟨c, hsign, hc⟩
    exact hsigned ⟨c, by simp [text, hsign], hc⟩
  have hscale : numeral.exponent = [] := by
    refine numeral.isExponent.eq_nil_or.resolve_right ?_
    rintro (hmem | hmem)
    · exact hexponent (Or.inl (List.mem_append_right _ hmem))
    · exact hexponent (Or.inr (List.mem_append_right _ hmem))
  -- Only digits and a point are left.
  rw [Decimal.isPlain_iff, text, hsign, hscale, List.nil_append, List.append_nil]
  obtain ⟨_, whole, fraction, _, -, hwhole, hfraction, -, hne⟩ := numeral
  dsimp only
  cases hfraction with
  | absent =>
      rw [List.append_nil]
      exact Or.inl ⟨hne.resolve_right (fun h => h rfl), hwhole⟩
  | @present digits hdigits => exact Or.inr ⟨whole, digits, hwhole, hdigits, rfl⟩

/-- After trimming, a numeral is no number exactly if it has a sign or an exponent. -/
theorem parse?_trim_eq_none_iff (numeral : Numeral) :
    Decimal.parse? (Text.trim numeral.text) = none ↔
      IsSigned numeral.text ∨ HasExponent numeral.text := by
  constructor
  · intro hnone
    by_contra hunmarked
    rw [not_or] at hunmarked
    have hplain := numeral.isPlain_of_unmarked hunmarked.1 hunmarked.2
    rw [Decimal.trim_of_isPlain hplain, Decimal.parse?, if_pos hplain] at hnone
    cases hnone
  · intro hmarked
    obtain ⟨c, hmem, hforeign⟩ := exists_foreign_of_marked hmarked
    exact Decimal.parse?_trim_eq_none hforeign hmem

end Numeral

/-! ## What is read as a numeral -/

theorem isSign_take (text : Text) : IsSign (text.take (signExtent text)) := by
  cases text with
  | nil => exact .absent
  | cons c rest =>
      rw [signExtent]
      split
      · rename_i hsign
        rcases hsign with rfl | rfl
        · exact .plus
        · exact .minus
      · exact .absent

theorem take_digitExtent (text : Text) : text.take (digitExtent text) = text.takeWhile isDigit :=
  (List.prefix_iff_eq_take.1 (List.takeWhile_prefix isDigit)).symm

theorem isDigits_take {text : Text} (h : startsDigit text = true) :
    IsDigits (text.take (digitExtent text)) := by
  rw [take_digitExtent]
  refine ⟨?_, fun c hc => List.mem_takeWhile_imp hc⟩
  cases text with
  | nil => cases h
  | cons c rest =>
      have hdigit : isDigit c = true := h
      rw [List.takeWhile_cons_of_pos hdigit]
      exact List.cons_ne_nil _ _

theorem isFraction_take (text : Text) : IsFraction (text.take (fractionExtent text)) := by
  cases text with
  | nil => exact .absent
  | cons c rest =>
      rw [fractionExtent]
      split
      · rename_i hpoint
        rw [Bool.and_eq_true, decide_eq_true_eq] at hpoint
        obtain ⟨rfl, hstarts⟩ := hpoint
        rw [Nat.add_comm, List.take_succ_cons]
        exact .present (isDigits_take hstarts)
      · exact .absent

theorem isExponent_take (text : Text) : IsExponent (text.take (exponentExtent text)) := by
  cases text with
  | nil => exact .absent
  | cons c rest =>
      rw [exponentExtent]
      split
      · rename_i hmark
        rw [Bool.and_eq_true, Bool.or_eq_true, decide_eq_true_eq, decide_eq_true_eq] at hmark
        rw [Nat.add_assoc, Nat.add_comm, List.take_succ_cons, List.take_add]
        exact .present hmark.1 (isSign_take rest) (isDigits_take hmark.2)
      · exact .absent

/-- A numeral has a digit before its exponent. -/
theorem digit_of_startsNumeral {unsigned : Text}
    (h : (startsDigit unsigned || fractionExtent unsigned != 0) = true) :
    unsigned.take (digitExtent unsigned) ≠ [] ∨
      (unsigned.drop (digitExtent unsigned)).take
        (fractionExtent (unsigned.drop (digitExtent unsigned))) ≠ [] := by
  by_cases hstarts : startsDigit unsigned = true
  · exact Or.inl (isDigits_take hstarts).ne_nil
  · -- Without digits in front, the fraction has some.
    rw [Bool.or_eq_true] at h
    have hfraction : fractionExtent unsigned ≠ 0 := by simpa using h.resolve_left hstarts
    have hnone : digitExtent unsigned = 0 := by
      cases unsigned with
      | nil => rfl
      | cons c rest =>
          have hdigit : ¬ isDigit c = true := hstarts
          rw [digitExtent, List.takeWhile_cons_of_neg hdigit, List.length_nil]
    rw [hnone, List.drop_zero]
    cases unsigned with
    | nil => exact absurd rfl hfraction
    | cons c rest =>
        obtain ⟨count, hcount⟩ := Nat.exists_eq_succ_of_ne_zero hfraction
        rw [hcount, List.take_succ_cons]
        exact Or.inr (List.cons_ne_nil _ _)

theorem exists_numeral {text : Text} (h : startsNumeral text = true) :
    ∃ numeral : Numeral, text.take (numeralExtent text) = numeral.text := by
  rw [startsNumeral] at h
  let unsigned := text.drop (signExtent text)
  let behind := unsigned.drop (digitExtent unsigned)
  let last := behind.drop (fractionExtent behind)
  refine ⟨⟨text.take (signExtent text), unsigned.take (digitExtent unsigned),
    behind.take (fractionExtent behind), last.take (exponentExtent last), isSign_take text, ?_,
    isFraction_take behind, isExponent_take last, digit_of_startsNumeral h⟩, ?_⟩
  · rw [take_digitExtent]
    exact fun c hc => List.mem_takeWhile_imp hc
  · rw [numeralExtent, Numeral.text]
    simp only [List.take_add, ← List.drop_drop, unsigned, behind, last]

/-! ## Tokens that begin with a numeral -/

/-- Whether the token is a number or a dimension. -/
def Kind.isQuantity : Kind → Bool
  | .number => true
  | .dimension _ => true
  | _ => false

theorem isQuantity_firstNamed (text : Text) : (firstNamed text).1.isQuantity = false := by
  rw [firstNamed]
  split
  · rfl
  · split
    · rfl
    · split
      · split <;> rfl
      · rfl

theorem isQuantity_firstMark (c : Char) (rest : Text) :
    (firstMark c rest).1.isQuantity = false := by
  have hmark := firstMark_spec c rest
  generalize firstMark c rest = token at hmark ⊢
  cases hmark <;> rfl

/-- Numbers and dimensions come from the reading of a numeral. -/
theorem first_eq_firstNumeric_of_isQuantity {c : Char} {rest : Text}
    (h : (first c rest).1.isQuantity = true) :
    startsNumeral (c :: rest) = true ∧ first c rest = firstNumeric (c :: rest) := by
  have hfirst := first_spec c rest
  generalize first c rest = token at h hfirst ⊢
  cases hfirst with
  | numeric hnumeral => exact ⟨hnumeral, rfl⟩
  | named =>
      rw [isQuantity_firstNamed] at h
      cases h
  | hash =>
      rw [firstHash] at h
      split at h <;> cases h
  | atKeyword =>
      rw [firstAt] at h
      split at h <;> cases h
  | mark =>
      rw [isQuantity_firstMark] at h
      cases h
  | space | string | documentClose | documentOpen | comment => cases h

/-- A number is spelled as a numeral. -/
theorem exists_numeral_of_number {text : Text} {token : Token} (h : token ∈ ofText text)
    (hkind : token.kind = .number) : ∃ numeral : Numeral, token.source = numeral.text := by
  obtain ⟨c, rest, hfirst, hsource⟩ := exists_first_of_mem h
  obtain ⟨hstarts, hnumeric⟩ :=
    @first_eq_firstNumeric_of_isQuantity c rest (by rw [← hfirst, hkind]; rfl)
  obtain ⟨numeral, hnumeral⟩ := exists_numeral hstarts
  refine ⟨numeral, ?_⟩
  rw [hnumeric, hkind, firstNumeric] at hfirst
  rw [hsource, hnumeric, firstNumeric, ← hnumeral]
  -- Neither a percent sign nor a name stands behind the numeral of a number.
  split at hfirst
  · cases hfirst
  · split at hfirst
    · cases hfirst
    · rename_i hpercent hname
      rw [if_neg hpercent, if_neg hname]

/-- A name does not begin like a plain decimal. -/
theorem head_of_startsName {c : Char} {rest : Text} (h : startsName (c :: rest) = true) :
    isDigit c = false ∧ c ≠ '.' := by
  constructor
  · rw [Bool.eq_false_iff]
    intro hdigit
    have hstarts : startsDigit (c :: rest) = true := hdigit
    rw [startsName_of_startsDigit hstarts] at h
    cases h
  · rintro rfl
    cases h

/-- A dimension is spelled as a numeral with the name of its unit behind it. -/
theorem exists_numeral_of_dimension {text unit : Text} {token : Token} (h : token ∈ ofText text)
    (hkind : token.kind = .dimension unit) :
    ∃ (numeral : Numeral) (c : Char) (name : Text), token.source = numeral.text ++ c :: name ∧
      nameValue (c :: name) = unit ∧ isDigit c = false ∧ c ≠ '.' := by
  obtain ⟨c, rest, hfirst, hsource⟩ := exists_first_of_mem h
  obtain ⟨hstarts, hnumeric⟩ :=
    @first_eq_firstNumeric_of_isQuantity c rest (by rw [← hfirst, hkind]; rfl)
  obtain ⟨numeral, hnumeral⟩ := exists_numeral hstarts
  rw [hnumeric, hkind, firstNumeric] at hfirst
  split at hfirst
  · cases hfirst
  · split at hfirst
    · rename_i hpercent hname
      have hunit : unit = nameOf ((c :: rest).drop (numeralExtent (c :: rest))) := by
        simpa using hfirst
      rw [hnumeric, firstNumeric, if_neg hpercent, if_pos hname, List.take_add, hnumeral]
        at hsource
      -- The name has a first character, which begins it.
      cases hafter : (c :: rest).drop (numeralExtent (c :: rest)) with
      | nil =>
          rw [hafter] at hname
          cases hname
      | cons d after =>
          rw [hafter] at hname hunit hsource
          obtain ⟨count, hcount⟩ := Nat.exists_eq_add_of_le' (nameExtent_pos hname)
          rw [hcount, List.take_succ_cons] at hsource
          rw [nameOf, hcount, List.take_succ_cons] at hunit
          exact ⟨numeral, d, after.take count, hsource, hunit.symm, head_of_startsName hname⟩
    · cases hfirst

theorem not_isUnitChar_of_isDigit {c : Char} (h : isDigit c = true) :
    Dimension.isUnitChar c = false := by
  simp only [isDigit, Bool.and_eq_true, decide_eq_true_eq] at h
  simp only [Dimension.isUnitChar, Bool.and_eq_false_iff, decide_eq_false_iff_not]
  exact Or.inl fun hsmall => absurd (Char.le_trans hsmall h.2) (by decide)

/-- What is spelled as a plain decimal with small letters behind it has them for its unit. -/
theorem unit_of_dimension {text unit digits letters : Text} {token : Token}
    (h : token ∈ ofText text) (hkind : token.kind = .dimension unit)
    (hsource : token.source = digits ++ letters) (hplain : Decimal.isPlain digits = true)
    (hletters : ∀ c ∈ letters, Dimension.isUnitChar c = true) : unit = letters := by
  obtain ⟨numeral, c, name, hspelled, hvalue, hdigit, hpoint⟩ := exists_numeral_of_dimension h hkind
  rw [hspelled] at hsource
  have hname : c :: name = letters := by
    rcases List.append_eq_append_iff.1 hsource with
      ⟨between, hdigits, hboth⟩ | ⟨between, hnumeral, hboth⟩
    · -- The name does not begin within the decimal.
      cases between with
      | nil => exact hboth
      | cons d between =>
          obtain rfl : c = d := (List.cons.inj hboth).1
          rcases Decimal.isDigit_or_of_isPlain hplain c (by simp [hdigits]) with hc | hc
          · rw [hdigit] at hc
            cases hc
          · exact absurd hc hpoint
    · -- The numeral does not end within the letters.
      obtain ⟨front, last, hlast, hlastDigit⟩ := numeral.exists_last
      rcases List.eq_nil_or_concat between with rfl | ⟨between, d, rfl⟩
      · exact hboth.symm
      · rw [hlast, List.concat_eq_append, ← List.append_assoc] at hnumeral
        obtain rfl : last = d := by simpa using (List.append_inj' hnumeral rfl).2
        have hletter : Dimension.isUnitChar last = true := hletters last (by simp [hboth])
        rw [not_isUnitChar_of_isDigit hlastDigit] at hletter
        cases hletter
  rw [← hvalue, hname]
  refine nameValue_eq_self ?_ ?_
  · exact fun hmem => absurd (hletters _ hmem) (by decide)
  · exact fun hmem => absurd (hletters _ hmem) (by decide)

end Token

end UtilityCss
