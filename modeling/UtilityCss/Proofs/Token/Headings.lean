import UtilityCss.Rule.Printer
import UtilityCss.Proofs.Token.Plain

/-!
# The tokens of headings and declarations

What is printed in front of a block or of a value begins with a token of its own: the name of a
property (`framed_propertyName`), an at-keyword (`framed_atKeyword`), or the first mark of a
selector (`exists_ofText_of_isPlainSelector`).
-/

set_option autoImplicit false

namespace UtilityCss

theorem isSmallLetter_bounds {c : Char} (h : isSmallLetter c = true) :
    97 ≤ c.toNat ∧ c.toNat ≤ 122 := by
  simp only [isSmallLetter, Bool.and_eq_true, decide_eq_true_eq, Char.le_def,
    UInt32.le_iff_toNat_le] at h
  exact h

theorem isSpace_of_isSmallLetter {c : Char} (h : isSmallLetter c = true) : isSpace c = false := by
  rw [Bool.eq_false_iff]
  intro hspace
  simp only [isSpace, isNewline, Bool.or_eq_true, beq_iff_eq] at hspace
  rcases hspace with (rfl | rfl) | (rfl | rfl) | rfl <;> simp [isSmallLetter] at h

theorem isDigit_bounds {c : Char} (h : isDigit c = true) : 48 ≤ c.toNat ∧ c.toNat ≤ 57 := by
  simp only [isDigit, Bool.and_eq_true, decide_eq_true_eq, Char.le_def,
    UInt32.le_iff_toNat_le] at h
  exact h

theorem isDigit_of_isSmallLetter {c : Char} (h : isSmallLetter c = true) : isDigit c = false := by
  have hbounds := isSmallLetter_bounds h
  rw [Bool.eq_false_iff]
  intro hdigit
  have hdigits := isDigit_bounds hdigit
  omega

/-- Only capital letters have a smaller form. -/
theorem toLower_of_not_capital {c : Char} (h : c.toNat < 65 ∨ 90 < c.toNat) : c.toLower = c := by
  apply dif_neg
  rintro ⟨hge, hle⟩
  have hge : 65 ≤ c.toNat := hge
  have hle : c.toNat ≤ 90 := hle
  omega

theorem toLower_of_isSmallLetter {c : Char} (h : isSmallLetter c = true) : c.toLower = c := by
  have hbounds := isSmallLetter_bounds h
  exact toLower_of_not_capital (by omega)

theorem toLower_of_isDigit {c : Char} (h : isDigit c = true) : c.toLower = c := by
  have hbounds := isDigit_bounds h
  exact toLower_of_not_capital (by omega)

namespace Token

theorem isNameStart_of_isSmallLetter {c : Char} (h : isSmallLetter c = true) :
    isNameStart c = true := by
  rw [isSmallLetter] at h
  simp [isNameStart, isAsciiLetter, h]

/-! ## Names -/

/-- A name without escapes. -/
def IsNameText (name : Text) : Prop :=
  ∀ c ∈ name, isNameChar c = true ∧ c ≠ '\x00'

namespace IsNameText

variable {name rest : Text}

theorem not_mem (h : IsNameText name) : '\\' ∉ name ∧ '\x00' ∉ name := by
  constructor
  · intro hmem
    exact ne_of_class (h _ hmem).1 rfl rfl
  · intro hmem
    exact (h _ hmem).2 rfl

theorem takeWhile_eq (h : IsNameText name) : name.takeWhile isNameChar = name :=
  List.takeWhile_eq_self_iff.2 fun c hc => (h c hc).1

theorem nameExtent_append (h : IsNameText name) (hrest : EndsName rest) :
    nameExtent (name ++ rest) = name.length := by
  rw [Token.nameExtent_append h.not_mem.1 hrest, h.takeWhile_eq]

theorem nameOf_append (h : IsNameText name) (hrest : EndsName rest) :
    nameOf (name ++ rest) = name := by
  rw [Token.nameOf_append h.not_mem.1 h.not_mem.2 hrest, h.takeWhile_eq]

end IsNameText

theorem isNameChar_of_isSmallLetter {c : Char} (h : isSmallLetter c = true) :
    isNameChar c = true ∧ c ≠ '\x00' := by
  refine ⟨?_, ne_of_class h rfl⟩
  simp [isNameChar, isNameStart_of_isSmallLetter h]

theorem isNameText_of_isSmallLetter {name : Text} (h : ∀ c ∈ name, isSmallLetter c = true) :
    IsNameText name :=
  fun c hc => isNameChar_of_isSmallLetter (h c hc)

/-- The names of plain declarations are names without escapes. -/
theorem isNameText_of_isPlain {name : Text} (h : PropertyName.isPlainStandard name = true ∨
    PropertyName.isPlainCustom name = true) : IsNameText name := by
  rcases h with hstandard | hcustom
  · cases name with
    | nil => cases hstandard
    | cons c rest =>
        simp only [PropertyName.isPlainStandard, Bool.and_eq_true, List.all_eq_true,
          Bool.or_eq_true, beq_iff_eq] at hstandard
        intro d hd
        rcases List.mem_cons.1 hd with rfl | hd
        · exact isNameChar_of_isSmallLetter hstandard.1
        · rcases hstandard.2 d hd with (hsmall | hdigit) | rfl
          · exact isNameChar_of_isSmallLetter hsmall
          · exact ⟨by simp [isNameChar, hdigit], ne_of_class hdigit rfl⟩
          · decide
  · -- The two hyphens in front are characters of names as well.
    simp only [PropertyName.isPlainCustom, Bool.and_eq_true] at hcustom
    obtain ⟨hlead, hall⟩ := hcustom
    obtain ⟨after, rfl⟩ := List.isPrefixOf_iff_prefix.1 hlead
    rw [List.all_eq_true] at hall
    intro d hd
    rcases List.mem_append.1 hd with hd | hd
    · have hhyphen : d = '-' := by simpa using hd
      subst hhyphen
      decide
    · have hclass := hall d hd
      have hnull : d ≠ '\x00' := by
        rintro rfl
        exact absurd hclass (by decide)
      refine ⟨?_, hnull⟩
      simp only [Bool.or_eq_true, beq_iff_eq] at hclass
      rcases hclass with ((hletter | hdigit) | rfl) | rfl
      · simp [isNameChar, isNameStart, hletter]
      · simp [isNameChar, hdigit]
      · decide
      · decide

/-- A name is the first token of a text that begins with neither a numeral nor a mark. -/
theorem first_eq_firstNamed {c : Char} {rest : Text} (hspace : isSpace c = false)
    (hquote : c ≠ '"' ∧ c ≠ '\'') (hnumeral : startsNumeral (c :: rest) = false)
    (hdocument : "-->".toList.isPrefixOf (c :: rest) = false)
    (hname : startsName (c :: rest) = true) : first c rest = firstNamed (c :: rest) := by
  simp only [first, hspace, hquote.1, hquote.2, hnumeral, hdocument, hname, Bool.false_eq_true,
    if_false, if_true, or_self]

theorem first_of_isSmallLetter {c : Char} (h : isSmallLetter c = true) (rest : Text) :
    first c rest = firstNamed (c :: rest) := by
  have hne : ∀ d, isSmallLetter d = false → c ≠ d := fun _ hd => ne_of_class h hd
  have hhyphen : c ≠ '-' := hne _ rfl
  apply first_eq_firstNamed (isSpace_of_isSmallLetter h) ⟨hne _ rfl, hne _ rfl⟩
  · have hsign : signExtent (c :: rest) = 0 := by
      rw [signExtent, if_neg]
      rintro (rfl | rfl)
      · exact hne '+' rfl rfl
      · exact hhyphen rfl
    rw [startsNumeral, hsign, List.drop_zero, startsDigit, isDigit_of_isSmallLetter h,
      fractionExtent]
    simp [hne '.' rfl]
  · simp [List.isPrefixOf, Ne.symm hhyphen]
  · rw [startsName_of_ne (hne _ rfl) hhyphen]
    exact isNameStart_of_isSmallLetter h

theorem first_of_hyphens {rest : Text} (h : rest.head? ≠ some '>') :
    first '-' ('-' :: rest) = firstNamed ('-' :: '-' :: rest) := by
  apply first_eq_firstNamed rfl ⟨by decide, by decide⟩
  · rfl
  · cases rest with
    | nil => rfl
    | cons c rest =>
        have hc : '>' ≠ c := fun heq => h (by rw [← heq]; rfl)
        simp [List.isPrefixOf, hc]
  · rfl

/-- The name of a property stands in front of a colon. -/
def StartsColon (rest : Text) : Prop :=
  rest.head? = some ':'

theorem StartsColon.endsName {rest : Text} (h : StartsColon rest) : EndsName rest := by
  intro c hc
  rw [Option.mem_def, h] at hc
  cases hc
  decide

/-- A name in front of a colon is an identifier. -/
theorem firstNamed_of_startsColon {name rest : Text} (h : IsNameText name)
    (hrest : StartsColon rest) : firstNamed (name ++ rest) = (.ident name, name.length) := by
  rw [firstNamed, h.nameExtent_append hrest.endsName, h.nameOf_append hrest.endsName,
    List.drop_left]
  cases rest with
  | nil => rfl
  | cons c rest =>
      cases hrest
      simp

/-- A text whose first token is known begins with this token. -/
theorem ofText_cons_of_first {c : Char} {name rest : Text} {kind : Kind}
    (h : first c (name ++ rest) = (kind, name.length + 1)) :
    ofText (c :: (name ++ rest)) = ⟨kind, c :: name⟩ :: ofText rest := by
  rw [ofText, h]
  simp

theorem framed_propertyName {name : Text} (h : PropertyName.isPlainStandard name = true ∨
    PropertyName.isPlainCustom name = true) : Framed StartsColon name [⟨.ident name, name⟩] := by
  intro rest hrest
  have hnamed := firstNamed_of_startsColon (isNameText_of_isPlain h) hrest
  cases name with
  | nil => rcases h with h | h <;> cases h
  | cons c tail =>
      have hfirst : first c (tail ++ rest) = firstNamed ((c :: tail) ++ rest) := by
        rcases h with hstandard | hcustom
        · rw [PropertyName.isPlainStandard, Bool.and_eq_true] at hstandard
          exact first_of_isSmallLetter hstandard.1 _
        · have hname := isNameText_of_isPlain (Or.inr hcustom)
          rw [PropertyName.isPlainCustom, Bool.and_eq_true] at hcustom
          obtain ⟨after, hafter⟩ := List.isPrefixOf_iff_prefix.1 hcustom.1
          have hlist : '-' :: '-' :: after = c :: tail := hafter
          cases hlist
          -- Two hyphens and a bracket would close a comment of the embedding document.
          apply first_of_hyphens
          intro hhead
          cases after with
          | nil =>
              have hnone : rest.head? = some '>' := hhead
              rw [hrest] at hnone
              cases hnone
          | cons d after =>
              have hd := (hname d (by simp)).1
              cases hhead
              revert hd
              decide
      rw [hnamed] at hfirst
      exact ofText_cons_of_first hfirst

theorem framed_atKeyword {name : Text} (hne : name ≠ [])
    (h : ∀ c ∈ name, isSmallLetter c = true) :
    Framed EndsName ('@' :: name) [⟨.atKeyword name, '@' :: name⟩] := by
  intro rest hrest
  have hname := isNameText_of_isSmallLetter h
  have hstarts : startsName (name ++ rest) = true := by
    cases name with
    | nil => exact absurd rfl hne
    | cons c tail =>
        have hc := h c List.mem_cons_self
        rw [List.cons_append,
          startsName_of_ne (ne_of_class hc rfl) (ne_of_class hc rfl)]
        exact isNameStart_of_isSmallLetter hc
  have hfirst : first '@' (name ++ rest) = (.atKeyword name, name.length + 1) := by
    have hat : first '@' (name ++ rest) = firstAt (name ++ rest) := by
      cases name ++ rest <;> rfl
    rw [hat, firstAt, if_pos hstarts, hname.nameOf_append hrest, hname.nameExtent_append hrest,
      Nat.add_comm]
  exact ofText_cons_of_first hfirst

/-! ## Spaces and marks -/

/-- A space in front of anything else is a token of its own. -/
theorem framed_space :
    Framed (fun rest => ∀ c ∈ rest.head?, isSpace c = false) [' '] [⟨.space, [' ']⟩] := by
  intro rest hrest
  have hnone : rest.takeWhile isSpace = [] := by
    cases rest with
    | nil => rfl
    | cons c rest => exact List.takeWhile_cons_of_neg (by simp [hrest c rfl])
  have hfirst : first ' ' rest = (.space, 1) := by
    have hspace : first ' ' rest = (.space, spaceExtent (' ' :: rest)) := rfl
    rw [hspace, spaceExtent, List.takeWhile_cons_of_pos rfl, hnone]
    rfl
  exact @ofText_cons_of_first ' ' [] rest .space hfirst

/-- What the first token of a selector is like. -/
def Kind.IsSelectorStart (kind : Kind) : Prop :=
  kind = .number ∨ kind = .percentage ∨ (∃ unit, kind = .dimension unit) ∨
    ∃ c, kind = .delimiter c

/-- A selector does not begin with a name. -/
theorem exists_ofText_of_isPlainSelector {selector : Text}
    (h : RuleNode.IsPlainSelector selector) :
    ∃ token rest, ofText selector = token :: rest ∧ token.kind.IsSelectorStart := by
  cases selector with
  | nil => rcases h.head with hhead | hhead <;> cases hhead
  | cons c text =>
      refine ⟨_, _, by rw [ofText], ?_⟩
      dsimp only
      rcases h.head with hhead | hhead
      · cases hhead
        -- A point and a digit make a numeral, which is no name either.
        have hfirst : first '.' text =
            if startsNumeral ('.' :: text) then firstNumeric ('.' :: text)
            else (.delimiter '.', 1) := by
          cases text <;> rfl
        rw [hfirst]
        split
        · rw [firstNumeric]
          split
          · exact Or.inr (Or.inl rfl)
          · split
            · exact Or.inr (Or.inr (Or.inl ⟨_, rfl⟩))
            · exact Or.inl rfl
        · exact Or.inr (Or.inr (Or.inr ⟨'.', rfl⟩))
      · cases hhead
        have hfirst : first '&' text = (.delimiter '&', 1) := by
          cases text <;> rfl
        rw [hfirst]
        exact Or.inr (Or.inr (Or.inr ⟨'&', rfl⟩))

end Token

end UtilityCss
