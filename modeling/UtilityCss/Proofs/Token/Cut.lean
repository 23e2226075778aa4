import UtilityCss.Proofs.Token.Loose

/-!
# Where loose text is cut off

Where a firm token stands behind loose text, or a name behind a gap, the loose text is read on its
own (`Cut.ofText_append`).

* `Token.Halts` says that a text begins like a firm token.
* `Token.Cut` says that no token goes over the end of a loose text.
-/

set_option autoImplicit false

namespace UtilityCss.Token

/-- Nothing, or a text that begins like a token that is firm, but no name. -/
def Halts (behind : Text) : Prop :=
  ∀ c ∈ behind.head?, isFence c = true ∨ c = '/' ∨ c = '<'

/-- No token goes over the end of a loose text: what stands behind it halts, or is a name behind a
gap. -/
structure Cut (text behind : Text) : Prop where
  loose : Units IsLoose behind text
  ends : Halts behind ∨ EndsGap text ∧ startsName behind = true

/-! ## What stands behind -/

/-- The characters with which no token goes on, but perhaps a name. -/
def isQuiet (c : Char) : Bool :=
  !isDigit c && !isSpace c && !"%=>*.+".toList.contains c

/-- A class without quotes, brackets, slashes and angles. -/
theorem Halts.eq_false {behind : Text} (h : Halts behind) {p : Char → Bool}
    (hp : ("\"'()[]\x7b\x7d/<".toList.all fun c => !p c) = true) :
    ∀ c ∈ behind.head?, p c = false := by
  intro c hc
  have hmem : c ∈ "\"'()[]\x7b\x7d/<".toList := by
    rcases h c hc with hfence | rfl | rfl
    · rcases isFence_iff.1 hfence with rfl | rfl | rfl | rfl | rfl | rfl | rfl | rfl <;> decide
    · decide
    · decide
  simpa using List.all_eq_true.1 hp c hmem

/-- No digit begins a name. -/
theorem isDigit_of_isNameStart {c : Char} (h : isNameStart c = true) : isDigit c = false := by
  rw [Bool.eq_false_iff]
  intro hdigit
  simp only [isDigit, Bool.and_eq_true, decide_eq_true_eq] at hdigit
  have hlow : 48 ≤ c.toNat := hdigit.1
  have hhigh : c.toNat ≤ 57 := hdigit.2
  simp only [isNameStart, isAsciiLetter, isNonAscii, Bool.or_eq_true, Bool.and_eq_true,
    decide_eq_true_eq, beq_iff_eq] at h
  rcases h with (((⟨hletter, -⟩ | ⟨hletter, -⟩) | rfl) | rfl) | hascii
  · have : 97 ≤ c.toNat := hletter
    omega
  · have : 65 ≤ c.toNat := hletter
    omega
  · revert hlow hhigh
    decide
  · revert hlow hhigh
    decide
  · omega

theorem startsName_of_startsDigit {text : Text} (h : startsDigit text = true) :
    startsName text = false := by
  cases text with
  | nil => rfl
  | cons c rest =>
      have hne : ∀ d, isDigit d = false → c ≠ d :=
        fun d hd => ne_of_class h hd
      rw [startsName_of_ne (hne '\\' (by decide)) (hne '-' (by decide)), Bool.eq_false_iff]
      intro hname
      rw [startsDigit, isDigit_of_isNameStart hname] at h
      cases h

theorem isQuiet_of_isNameStart {c : Char} (h : isNameStart c = true) : isQuiet c = true := by
  have hne : ∀ d : Char, isNameStart d = false → c ≠ d :=
    fun d hd => ne_of_class h hd
  have hspace : isSpace c = false := by
    simp [isSpace, isNewline, hne ' ' (by decide), hne '\t' (by decide), hne '\n' (by decide),
      hne '\r' (by decide), hne '\x0C' (by decide)]
  simp [isQuiet, isDigit_of_isNameStart h, hspace, hne '%' (by decide), hne '=' (by decide),
    hne '>' (by decide), hne '*' (by decide), hne '.' (by decide), hne '+' (by decide)]

theorem isQuiet_of_startsName {behind : Text} (h : startsName behind = true) :
    ∀ c ∈ behind.head?, isQuiet c = true := by
  intro c hc
  cases behind with
  | nil => cases h
  | cons d rest =>
      obtain rfl : d = c := by simpa using hc
      by_cases hslash : d = '\\'
      · rw [hslash]
        decide
      · by_cases hhyphen : d = '-'
        · rw [hhyphen]
          decide
        · rw [startsName_of_ne hslash hhyphen] at h
          exact isQuiet_of_isNameStart h

theorem isFirm_firstNumeric (text : Text) : (firstNumeric text).1.isFirm = false := by
  rw [firstNumeric]
  split
  · rfl
  · split <;> rfl

theorem isFirm_firstHash (rest : Text) : (firstHash rest).1.isFirm = false := by
  rw [firstHash]
  split <;> rfl

theorem isFirm_firstAt (rest : Text) : (firstAt rest).1.isFirm = false := by
  rw [firstAt]
  split <;> rfl

theorem isFirm_firstMark {c : Char} (h : isFence c = false) (rest : Text) :
    (firstMark c rest).1.isFirm = false := by
  have hmark := firstMark_spec c rest
  generalize firstMark c rest = token at hmark ⊢
  cases hmark with
  | opening hc => rcases hc with rfl | rfl | rfl <;> cases h
  | closing hc => rcases hc with rfl | rfl | rfl <;> cases h
  | colon => rfl
  | semicolon => rfl
  | comma => rfl
  | comparison => rfl
  | delimiter => rfl

namespace Cut

variable {text behind : Text}

theorem isQuiet (h : Cut text behind) : ∀ c ∈ behind.head?, isQuiet c = true := by
  rcases h.ends with hhalts | ⟨-, hname⟩
  · intro c hc
    have hfalse : (!Token.isQuiet c) = false :=
      hhalts.eq_false (p := fun c => !Token.isQuiet c) (by decide) c hc
    simpa using hfalse
  · exact isQuiet_of_startsName hname

theorem head?_ne (h : Cut text behind) {c : Char} (hc : Token.isQuiet c = false) :
    behind.head? ≠ some c := by
  intro hhead
  rw [h.isQuiet c hhead] at hc
  cases hc

/-- A text cut off by what halts, or one that does not end in a gap. -/
theorem halts_of_not_isGap {c : Char} (h : Cut [c] behind) (hc : isGap c = false) :
    Halts behind := by
  rcases h.ends with hhalts | ⟨⟨front, d, heq, hd, -⟩, -⟩
  · exact hhalts
  · obtain ⟨rfl, hlast⟩ := List.append_eq_singleton_iff.1 heq.symm |>.resolve_right (by simp)
    obtain rfl : d = c := by simpa using hlast
    rw [hd] at hc
    cases hc

theorem nil_iff : Cut [] behind ↔ Halts behind := by
  constructor
  · intro h
    rcases h.ends with hhalts | ⟨hgap, -⟩
    · exact hhalts
    · exact absurd rfl hgap.ne_nil
  · exact fun h => ⟨.nil, Or.inl h⟩

/-- What follows some units is cut off as well, if anything does. -/
theorem drop (first : Text) (h : Cut (first ++ text) behind) {p : Char → Text → Prop}
    (hfirst : Units p (text ++ behind) first) (hne : text ≠ [] ∨ Halts behind) :
    Cut text behind := by
  refine ⟨hfirst.cancel h.loose, ?_⟩
  rcases h.ends with hhalts | ⟨hgap, hname⟩
  · exact Or.inl hhalts
  · rcases hne with hne | hhalts
    · exact Or.inr ⟨hgap.cancel hfirst hne, hname⟩
    · exact Or.inl hhalts

/-! ### Names -/

theorem startsNewline (h : Cut text behind) :
    startsNewline (text ++ behind) = Token.startsNewline text := by
  cases text with
  | cons c text => rfl
  | nil =>
      have hhalts := nil_iff.1 h
      rw [List.nil_append, startsNewline_eq_head?]
      cases behind with
      | nil => rfl
      | cons c rest => exact hhalts.eq_false (p := isNewline) (by decide) c rfl

theorem startsName_of_halts (h : Halts behind) : Token.startsName behind = false := by
  cases behind with
  | nil => rfl
  | cons c rest =>
      have hslash : (c == '\\') = false := h.eq_false (p := (· == '\\')) (by decide) c rfl
      have hhyphen : (c == '-') = false := h.eq_false (p := (· == '-')) (by decide) c rfl
      rw [startsName_of_ne (by simpa using hslash) (by simpa using hhyphen)]
      exact h.eq_false (by decide) c rfl

theorem nameExtent_of_halts (h : Halts behind) : Token.nameExtent behind = 0 := by
  cases behind with
  | nil => rw [Token.nameExtent]
  | cons c rest =>
      have hslash : (c == '\\') = false := h.eq_false (p := (· == '\\')) (by decide) c rfl
      have hname : isNameChar c = false := h.eq_false (by decide) c rfl
      rw [Token.nameExtent, if_neg (by simpa using hslash), if_neg (by simp [hname])]

theorem startsName (h : Cut text behind) :
    startsName (text ++ behind) = Token.startsName text := by
  cases text with
  | nil => exact startsName_of_halts (nil_iff.1 h)
  | cons c rest =>
      cases rest with
      | cons d rest => rfl
      | nil =>
          -- A lone backslash or hyphen looks at what stands behind, which halts it.
          by_cases hc : c = '\\' ∨ c = '-'
          · have hhalts : Halts behind :=
              h.halts_of_not_isGap (by rcases hc with rfl | rfl <;> decide)
            cases behind with
            | nil => rfl
            | cons d more =>
                rcases hc with rfl | rfl
                · have hnewline : isNewline d = false := hhalts.eq_false (by decide) d rfl
                  simp [Token.startsName, Token.startsNewline, hnewline]
                · exact hhalts.eq_false (p := fun d => isNameStart d || d == '-' || d == '\\')
                    (by decide) d rfl
          · rw [not_or] at hc
            rw [List.cons_append, startsName_of_ne hc.1 hc.2, startsName_of_ne hc.1 hc.2]

theorem nameExtent (h : Cut text behind) :
    nameExtent (text ++ behind) = Token.nameExtent text := by
  rcases h.ends with hhalts | ⟨hgap, -⟩
  · -- The name is the same as in front of nothing.
    have hnewline : Token.startsNewline behind = false := (nil_iff.2 hhalts).startsNewline
    have hsame := h.loose.nameExtent_congr (Follows.nil_right hnewline) (nameExtent_of_halts hhalts)
      (by rw [Token.nameExtent])
    rw [← hsame, List.append_nil]
  · exact (hgap.nameExtent_append behind).1

theorem nameExtent_le (h : Cut text behind) : Token.nameExtent text ≤ text.length := by
  rw [← h.nameExtent]
  rcases h.ends with hhalts | ⟨hgap, -⟩
  · exact h.loose.nameExtent_le (nameExtent_of_halts hhalts)
  · rw [(hgap.nameExtent_append behind).1]
    exact Nat.le_of_lt (hgap.nameExtent_append behind).2

theorem nameOf (h : Cut text behind) : nameOf (text ++ behind) = Token.nameOf text := by
  rw [Token.nameOf, Token.nameOf, h.nameExtent, List.take_append_of_le_length h.nameExtent_le]

/-- The name in front consists of units. -/
theorem units_name (h : Cut text behind) :
    Units InName (text.drop (Token.nameExtent text) ++ behind)
      (text.take (Token.nameExtent text)) := by
  have hname := units_take_nameExtent (text ++ behind)
  rwa [h.nameExtent, List.take_append_of_le_length h.nameExtent_le,
    List.drop_append_of_le_length h.nameExtent_le] at hname

/-! ### Numerals -/

theorem noNumeral_of_isGap {d : Char} (hd : isGap d = true) (behind : Text)
    (hquiet : ∀ c ∈ behind.head?, Token.isQuiet c = true) :
    NoNumeral (d :: behind) ∧ startsNumeral (d :: behind) = false := by
  have hname : isNameChar d = false := by
    simp only [isGap, Bool.and_eq_true, Bool.not_eq_true'] at hd
    exact hd.1.1.1
  have hne : ∀ c, isNameChar c = true → d ≠ c :=
    fun c hc => (ne_of_class hc hname).symm
  have hdigit : isDigit d = false := by
    simp only [isNameChar, Bool.or_eq_false_iff] at hname
    exact hname.1.2
  -- Behind a sign or a point a numeral would need a digit, and none stands there.
  have hdigits : startsDigit behind = false := by
    cases behind with
    | nil => rfl
    | cons c rest =>
        have hc := hquiet c rfl
        simp only [Token.isQuiet, Bool.and_eq_true, Bool.not_eq_true'] at hc
        exact hc.1.1
  have hpoint : fractionExtent behind = 0 := by
    cases behind with
    | nil => rfl
    | cons c rest =>
        have hc : c ≠ '.' := by
          rintro rfl
          exact absurd (hquiet '.' rfl) (by decide)
        simp [fractionExtent, hc]
  have hfraction : fractionExtent (d :: behind) = 0 := by simp [fractionExtent, hdigits]
  have hexponent : exponentExtent (d :: behind) = 0 := by
    simp [exponentExtent, hne 'e' (by decide), hne 'E' (by decide)]
  have hsigned : startsDigit ((d :: behind).drop (signExtent (d :: behind))) = false ∧
      fractionExtent ((d :: behind).drop (signExtent (d :: behind))) = 0 := by
    by_cases hsign : d = '+' ∨ d = '-'
    · rw [signExtent, if_pos hsign, List.drop_succ_cons, List.drop_zero]
      exact ⟨hdigits, hpoint⟩
    · rw [signExtent, if_neg hsign, List.drop_zero]
      exact ⟨hdigit, hfraction⟩
  refine ⟨⟨?_, hsigned.1, hfraction, hexponent⟩, ?_⟩
  · intro c hc
    obtain rfl : d = c := by simpa using hc
    exact hdigit
  · rw [startsNumeral, hsigned.1, hsigned.2]
    rfl

theorem noNumeral_of_halts (h : Halts behind) : NoNumeral behind :=
  noNumeral_of_head? (h.eq_false (by decide))

theorem startsNumeral (h : Cut text behind) (hne : text ≠ []) :
    startsNumeral (text ++ behind) = Token.startsNumeral text := by
  rcases h.ends with hhalts | ⟨⟨front, d, rfl, hd, -⟩, -⟩
  · exact (noNumeral_of_halts hhalts).startsNumeral_append hne
  · -- No numeral goes on with the gap, whatever stands behind it.
    obtain ⟨hbehind, hstarts⟩ := noNumeral_of_isGap hd behind h.isQuiet
    obtain ⟨hnil, hstarts'⟩ := noNumeral_of_isGap hd [] (by simp)
    rw [List.append_assoc]
    cases front with
    | nil => exact hstarts.trans hstarts'.symm
    | cons c front =>
        exact (hbehind.startsNumeral_append (by simp)).trans
          (hnil.startsNumeral_append (by simp)).symm

/-- A numeral in front is cut off, with a character behind it that is not cut off, or nothing. -/
theorem numeralExtent (h : Cut text behind) (hstarts : Token.startsNumeral text = true) :
    numeralExtent (text ++ behind) = Token.numeralExtent text ∧
      Token.numeralExtent text ≤ text.length ∧
      (text.drop (Token.numeralExtent text) ≠ [] ∨ Halts behind) := by
  have hne : text ≠ [] := by
    rintro rfl
    cases hstarts
  have hle := (spans_numeralExtent text).1
  rcases h.ends with hhalts | ⟨⟨front, d, rfl, hd, -⟩, -⟩
  · exact ⟨(noNumeral_of_halts hhalts).numeralExtent_append hne, hle, Or.inr hhalts⟩
  · obtain ⟨hbehind, -⟩ := noNumeral_of_isGap hd behind h.isQuiet
    obtain ⟨hnil, hstarts'⟩ := noNumeral_of_isGap hd [] (by simp)
    -- The numeral ends before the gap, which has no part in it.
    cases front with
    | nil =>
        rw [List.nil_append, hstarts'] at hstarts
        cases hstarts
    | cons c front =>
        have hfront := (spans_numeralExtent (c :: front)).1
        have hsame := hnil.numeralExtent_append (List.cons_ne_nil c front)
        refine ⟨?_, hle, Or.inl ?_⟩
        · rw [List.append_assoc, hsame]
          exact hbehind.numeralExtent_append (by simp)
        · rw [hsame, List.drop_append_of_le_length hfront]
          simp

/-! ### The first token -/

theorem spaceExtent (h : Cut text behind) :
    spaceExtent (text ++ behind) = Token.spaceExtent text := by
  rw [Token.spaceExtent, Token.spaceExtent, takeWhile_append_of_head?]
  intro c hc
  have hquiet := h.isQuiet c hc
  simp only [Token.isQuiet, Bool.and_eq_true, Bool.not_eq_true'] at hquiet
  exact hquiet.1.2

theorem head?_append_eq_some_iff (h : Cut text behind) {c : Char} (hc : Token.isQuiet c = false) :
    (text ++ behind).head? = some c ↔ text.head? = some c := by
  cases text with
  | cons d text => simp
  | nil => simpa using h.head?_ne hc

theorem firstNumeric (h : Cut text behind) (hstarts : Token.startsNumeral text = true) :
    firstNumeric (text ++ behind) = Token.firstNumeric text := by
  obtain ⟨hextent, hle, hrest⟩ := h.numeralExtent hstarts
  have hdrop : Cut (text.drop (Token.numeralExtent text)) behind := by
    rw [← List.take_append_drop (Token.numeralExtent text) text] at h
    refine drop _ h (p := AnyChar) ?_ hrest
    refine Units.of_not_mem (not_mem_of_isSafe ?_) fun _ _ _ _ => trivial
    exact (spans_safe_numeralExtent text).2
  rw [Token.firstNumeric, Token.firstNumeric, hextent, List.drop_append_of_le_length hle]
  simp only [hdrop.head?_append_eq_some_iff (by decide : Token.isQuiet '%' = false),
    hdrop.startsName, hdrop.nameOf, hdrop.nameExtent]

/-- No bracket stands behind the name in front within the loose text. -/
theorem ne_round (h : Cut text behind) {c : Char} {rest : Text}
    (hdrop : text.drop (Token.nameExtent text) = c :: rest) : c ≠ '(' := by
  have hunits := h.units_name
  have hwhole := h.loose
  rw [hdrop] at hunits
  rw [← List.take_append_drop (Token.nameExtent text) text, hdrop] at hwhole
  rintro rfl
  cases hunits.cancel hwhole with
  | char _ hp _ => cases hp.fence

/-- The name in front is an identifier, unless a bracket stands just behind it. -/
theorem firstNamed (h : Cut text behind)
    (hround : behind.head? = some '(' → Token.nameExtent text < text.length) :
    firstNamed (text ++ behind) = (.ident (Token.nameOf text), Token.nameExtent text) := by
  rw [Token.firstNamed, h.nameExtent, h.nameOf, List.drop_append_of_le_length h.nameExtent_le]
  cases hdrop : text.drop (Token.nameExtent text) with
  | cons c rest => simp [h.ne_round hdrop]
  | nil =>
      cases behind with
      | nil => rfl
      | cons c rest =>
          have hc : c ≠ '(' := by
            rintro rfl
            have hlt := hround rfl
            rw [List.drop_eq_nil_iff] at hdrop
            omega
          simp [hc]

theorem firstNamed_self (h : Cut text behind) :
    Token.firstNamed text = (.ident (Token.nameOf text), Token.nameExtent text) := by
  rw [Token.firstNamed]
  cases hdrop : text.drop (Token.nameExtent text) with
  | nil => rfl
  | cons c rest => simp [h.ne_round hdrop]

theorem documentClose {c : Char} {rest : Text} (h : Cut (c :: rest) behind) :
    "-->".toList.isPrefixOf (c :: (rest ++ behind)) = "-->".toList.isPrefixOf (c :: rest) := by
  rcases rest with _ | ⟨d, _ | ⟨e, rest⟩⟩
  · by_cases hc : c = '-'
    · subst hc
      have hhalts : Halts behind := h.halts_of_not_isGap (by decide)
      cases behind with
      | nil => rfl
      | cons d more =>
          have hd : (d == '-') = false := hhalts.eq_false (p := (· == '-')) (by decide) d rfl
          have hne : '-' ≠ d := fun heq => by
            rw [← heq] at hd
            cases hd
          simp [List.isPrefixOf, hne]
    · simp [List.isPrefixOf, Ne.symm hc]
  · cases behind with
    | nil => rfl
    | cons e more =>
        have he : '>' ≠ e := by
          rintro rfl
          exact h.head?_ne (by decide) rfl
        simp [List.isPrefixOf, he]
  · simp [List.isPrefixOf]

theorem startsDigit (h : Cut text behind) :
    startsDigit (text ++ behind) = Token.startsDigit text := by
  cases text with
  | cons c text => rfl
  | nil => exact (noNumeral_of_halts (nil_iff.1 h)).startsDigit_append []

/-- What follows a mark that joins a name is cut off. -/
theorem of_mark {c : Char} {rest : Text} (h : Cut (c :: rest) behind) (hslash : c ≠ '\\')
    (hgap : isGap c = false) : Cut rest behind := by
  refine drop [c] h (p := AnyChar) ?_ ?_
  · exact .char (fun hc => absurd hc hslash) trivial .nil
  · cases rest with
    | nil => exact Or.inr (h.halts_of_not_isGap hgap)
    | cons d rest => exact Or.inl (by simp)

theorem firstHash {rest : Text} (h : Cut ('#' :: rest) behind) :
    firstHash (rest ++ behind) = Token.firstHash rest := by
  have hcut := h.of_mark (by decide) (by decide)
  have hhead : (rest ++ behind).head? = some '-' ↔ rest.head? = some '-' := by
    cases rest with
    | cons c rest => simp
    | nil =>
        have hhalts := nil_iff.1 hcut
        simp only [List.nil_append, List.head?_nil, reduceCtorEq, iff_false]
        intro hhyphen
        have hfalse : ('-' == '-') = false :=
          hhalts.eq_false (p := (· == '-')) (by decide) '-' hhyphen
        cases hfalse
  simp only [Token.firstHash, hcut.startsName, hcut.startsDigit, hhead, hcut.nameOf,
    hcut.nameExtent]

theorem firstAt {rest : Text} (h : Cut ('@' :: rest) behind) :
    firstAt (rest ++ behind) = Token.firstAt rest := by
  have hcut := h.of_mark (by decide) (by decide)
  simp only [Token.firstAt, hcut.startsName, hcut.nameOf, hcut.nameExtent]

theorem firstMark {c : Char} {rest : Text} (h : Cut (c :: rest) behind) :
    firstMark c (rest ++ behind) = Token.firstMark c rest := by
  have hhead : (rest ++ behind).head? = some '=' ↔ rest.head? = some '=' := by
    cases rest with
    | cons d rest => simp
    | nil => simpa using h.head?_ne (by decide : Token.isQuiet '=' = false)
  simp only [Token.firstMark, hhead]

theorem isLoose {c : Char} {rest : Text} (h : Cut (c :: rest) behind) :
    IsLoose c (rest ++ behind) := by
  cases h.loose with
  | char _ hp _ => exact hp
  | escape =>
      refine ⟨by decide, ?_, ?_⟩
      · rintro ⟨more, hmore⟩
        cases (List.cons.inj hmore).1
      · rintro ⟨more, hmore⟩
        cases (List.cons.inj hmore).1

/-- The first token is read on its own, unless it joins the bracket behind the text. -/
theorem first {c : Char} {rest : Text} (h : Cut (c :: rest) behind)
    (hround : behind.head? = some '(' → ∀ name, (first c rest).1 = .ident name →
      (Token.first c rest).2 < rest.length + 1) :
    Token.first c (rest ++ behind) = Token.first c rest ∧
      (Token.first c rest).1.isFirm = false := by
  obtain ⟨hfence, hcomment, hopen⟩ := h.isLoose
  have hquote : ¬ (c = '"' ∨ c = '\'') := by
    rintro (rfl | rfl) <;> cases hfence
  have hleads : ∀ mark : Text, ¬ mark <+: c :: (rest ++ behind) →
      mark.isPrefixOf (c :: (rest ++ behind)) = false ∧ mark.isPrefixOf (c :: rest) = false := by
    intro mark hmark
    rw [Bool.eq_false_iff, Bool.eq_false_iff]
    refine ⟨fun hbehind => hmark (List.isPrefixOf_iff_prefix.1 hbehind), fun hrest => hmark ?_⟩
    exact (List.isPrefixOf_iff_prefix.1 hrest).trans (List.prefix_append (c :: rest) behind)
  obtain ⟨hopen, hopen'⟩ := hleads _ hopen
  obtain ⟨hcomment, hcomment'⟩ := hleads _ hcomment
  have hspace : Token.spaceExtent (c :: (rest ++ behind)) = Token.spaceExtent (c :: rest) :=
    h.spaceExtent
  have hnumeral : Token.startsNumeral (c :: (rest ++ behind)) = Token.startsNumeral (c :: rest) :=
    h.startsNumeral (by simp)
  have hname : Token.startsName (c :: (rest ++ behind)) = Token.startsName (c :: rest) :=
    h.startsName
  -- All conditions of the reading are the same, so that the readings have to be compared only.
  simp only [Token.first, hspace, hnumeral, hname, h.documentClose, hopen, hopen', hcomment,
    hcomment', hquote, if_false, Bool.false_eq_true] at hround ⊢
  by_cases hisSpace : isSpace c = true
  · rw [if_pos hisSpace, if_pos hisSpace]
    exact ⟨rfl, rfl⟩
  rw [if_neg hisSpace] at hround ⊢
  rw [if_neg hisSpace]
  by_cases hisNumeral : Token.startsNumeral (c :: rest) = true
  · rw [if_pos hisNumeral, if_pos hisNumeral]
    exact ⟨h.firstNumeric hisNumeral, isFirm_firstNumeric _⟩
  rw [if_neg hisNumeral] at hround ⊢
  rw [if_neg hisNumeral]
  by_cases hisClose : "-->".toList.isPrefixOf (c :: rest) = true
  · rw [if_pos hisClose, if_pos hisClose]
    exact ⟨rfl, rfl⟩
  rw [if_neg hisClose] at hround ⊢
  rw [if_neg hisClose]
  by_cases hisName : Token.startsName (c :: rest) = true
  · rw [if_pos hisName, h.firstNamed_self] at hround ⊢
    rw [if_pos hisName]
    exact ⟨h.firstNamed fun hbehind => hround hbehind _ rfl, rfl⟩
  rw [if_neg hisName]
  rw [if_neg hisName]
  by_cases hhash : c = '#'
  · subst hhash
    exact ⟨h.firstHash, isFirm_firstHash rest⟩
  rw [if_neg hhash, if_neg hhash]
  by_cases hat : c = '@'
  · subst hat
    exact ⟨h.firstAt, isFirm_firstAt rest⟩
  rw [if_neg hat, if_neg hat]
  exact ⟨h.firstMark, isFirm_firstMark hfence rest⟩

/-- The first token of loose text, and what remains of the text. -/
theorem ofText_cons {c : Char} {rest : Text} (h : Cut (c :: rest) behind)
    (hround : behind.head? = some '(' → ∀ name, (Token.first c rest).1 = .ident name →
      (Token.first c rest).2 < rest.length + 1) :
    (Token.first c rest).1.isFirm = false ∧
      ofText (c :: rest ++ behind) =
        ⟨(Token.first c rest).1, (c :: rest).take (Token.first c rest).2⟩ ::
          ofText ((c :: rest).drop (Token.first c rest).2 ++ behind) ∧
      ((c :: rest).drop (Token.first c rest).2 ≠ [] →
        Cut ((c :: rest).drop (Token.first c rest).2) behind) := by
  obtain ⟨hsame, hfirm⟩ := h.first hround
  have hle : (Token.first c rest).2 ≤ (c :: rest).length := (readsLoose_first hfirm).le
  have hunits := (readsLoose_first (hsame ▸ hfirm)).units
  rw [hsame, ← List.cons_append, List.drop_append_of_le_length hle,
    List.take_append_of_le_length hle] at hunits
  refine ⟨hfirm, ?_, fun hne => ?_⟩
  · rw [List.cons_append, Token.ofText_cons, hsame, ← List.cons_append,
      List.drop_append_of_le_length hle, List.take_append_of_le_length hle]
  · refine drop _ ?_ hunits (Or.inl hne)
    rwa [List.take_append_drop]

/-- What remains behind the first token is shorter. -/
theorem length_drop_first (c : Char) (rest : Text) :
    ((c :: rest).drop (Token.first c rest).2).length < (c :: rest).length := by
  have hpos := first_pos c rest
  rw [List.length_drop, List.length_cons]
  omega

/-- The text is read as one identifier, which goes on to its end. -/
theorem ofText_eq_singleton {c : Char} {rest : Text}
    (hle : rest.length + 1 ≤ (Token.first c rest).2) :
    ofText (c :: rest) = [⟨(Token.first c rest).1, c :: rest⟩] := by
  rw [Token.ofText_cons, List.drop_eq_nil_iff.2 hle, List.take_of_length_le hle, ofText]

/-- Loose text is read on its own, unless an identifier at its end joins the bracket behind it. -/
theorem ofText_append (h : text ≠ [] → Cut text behind)
    (hround : behind.head? = some '(' → ∀ front last name, ofText text = front ++ [last] →
      last.kind ≠ .ident name) :
    ofText (text ++ behind) = ofText text ++ ofText behind := by
  induction hlength : text.length using Nat.strongRecOn generalizing text with
  | ind length ih =>
      cases text with
      | nil => rw [List.nil_append, ofText, List.nil_append]
      | cons c rest =>
          -- The first token stays, and what is left of the text is still cut off.
          obtain ⟨-, hwhole, hcut⟩ := (h (by simp)).ofText_cons (by
            intro hbehind name hident
            by_contra hlt
            have hone := ofText_eq_singleton (Nat.le_of_not_lt hlt)
            exact hround hbehind [] _ name hone hident)
          have hself := Token.ofText_cons c rest
          rw [hwhole, hself, List.cons_append,
            ih _ (hlength ▸ length_drop_first c rest) hcut ?_ rfl]
          intro hbehind front last name heq
          exact hround hbehind (_ :: front) last name (by rw [hself, heq, List.cons_append])

/-- The tokens of loose text are loose. -/
theorem isFirm_of_mem (h : text ≠ [] → Cut text behind) :
    ∀ token ∈ ofText text, token.kind.isFirm = false := by
  induction hlength : text.length using Nat.strongRecOn generalizing text with
  | ind length ih =>
      cases text with
      | nil =>
          rw [ofText]
          simp
      | cons c rest =>
          by_cases hident : ∃ name, (Token.first c rest).1 = .ident name ∧
              rest.length + 1 ≤ (Token.first c rest).2
          · obtain ⟨name, hkind, hle⟩ := hident
            rw [ofText_eq_singleton hle, List.forall_mem_singleton, hkind]
            rfl
          · obtain ⟨hfirm, -, hrest⟩ := (h (by simp)).ofText_cons
              fun _ name hkind => Nat.lt_of_not_le fun hle => hident ⟨name, hkind, hle⟩
            rw [Token.ofText_cons, List.forall_mem_cons]
            exact ⟨hfirm, ih _ (hlength ▸ length_drop_first c rest) hrest rfl⟩

end Cut

/-! ## Other text behind loose text -/

variable {text behind behind' : Text}

/-- A character stays loose if no comment begins at it that goes on behind the text. -/
theorem IsLoose.exchange {c : Char} (h : IsLoose c (text ++ behind))
    (hmark : ∀ more, c :: text ++ more = "/*".toList ∨ c :: text ++ more = "<!--".toList →
      more ≠ [] → more <+: behind' → more <+: behind) : IsLoose c (text ++ behind') := by
  have hleads : ∀ mark, mark = "/*".toList ∨ mark = "<!--".toList →
      mark <+: c :: (text ++ behind') → mark <+: c :: (text ++ behind) := by
    rintro mark hmarks ⟨after, hafter⟩
    rw [← List.cons_append] at hafter ⊢
    rcases List.append_eq_append_iff.1 hafter with ⟨inside, htext, -⟩ | ⟨more, hsplit, hbehind⟩
    · -- A mark within the text is there in front of any other text.
      rw [htext, List.append_assoc]
      exact List.prefix_append mark _
    · by_cases hne : more = []
      · rw [hsplit, hne, List.append_nil]
        exact List.prefix_append _ _
      · rw [hsplit]
        apply (List.prefix_append_right_inj _).2
        exact hmark more (hsplit ▸ hmarks) hne ⟨after, hbehind.symm⟩
  exact ⟨h.fence, fun hstarts => h.comment (hleads _ (Or.inl rfl) hstarts),
    fun hstarts => h.documentOpen (hleads _ (Or.inr rfl) hstarts)⟩

/-- The ends of the two marks that open comments. -/
theorem split_mark {c : Char} {text more : Text} (hne : more ≠ [])
    (h : c :: text ++ more = "/*".toList ∨ c :: text ++ more = "<!--".toList) :
    more = ['*'] ∨ more = "!--".toList ∨ more = "--".toList ∨ more = "-".toList := by
  rcases h with h | h
  · obtain ⟨-, h⟩ := List.cons.inj (h : c :: (text ++ more) = ['/', '*'])
    rcases text with _ | ⟨d, text⟩
    · exact Or.inl h
    · obtain ⟨-, h⟩ := List.cons.inj (h : d :: (text ++ more) = ['*'])
      exact absurd (List.append_eq_nil_iff.1 h).2 hne
  · obtain ⟨-, h⟩ := List.cons.inj (h : c :: (text ++ more) = ['<', '!', '-', '-'])
    rcases text with _ | ⟨d, _ | ⟨e, _ | ⟨f, text⟩⟩⟩
    · exact Or.inr (Or.inl h)
    · exact Or.inr (Or.inr (Or.inl (List.cons.inj h).2))
    · exact Or.inr (Or.inr (Or.inr (List.cons.inj (List.cons.inj h).2).2))
    · exact absurd (List.append_eq_nil_iff.1
        (List.cons.inj (List.cons.inj (List.cons.inj h).2).2).2).2 hne

/-- Loose text stays loose in front of what halts it. -/
theorem Units.exchange_halts (h : Units IsLoose behind text) (hfollows : Follows behind behind')
    (hhalts : Halts behind') : Units IsLoose behind' text := by
  refine h.congr hfollows fun c rest hc => hc.exchange fun more hmark hne hmore => ?_
  have hhead : ∀ d ∈ more.head?, isFence d = true ∨ d = '/' ∨ d = '<' := by
    obtain ⟨after, rfl⟩ := hmore
    intro d hd
    cases more with
    | nil => cases hd
    | cons e more => exact hhalts d hd
  rcases split_mark hne hmark with rfl | rfl | rfl | rfl <;>
    exact absurd (hhead _ rfl) (by decide)

/-- Loose text that ends in a gap stays loose in front of other text which does not end a mark. -/
theorem Units.exchange_gap (h : Units IsLoose behind text) (hgap : EndsGap text)
    (hhead : ∀ c ∈ behind'.head?, c ≠ '*' ∧ c ≠ '!')
    (hhyphens : "--".toList <+: behind' → "--".toList <+: behind) : Units IsLoose behind' text := by
  obtain ⟨front, d, rfl, hd, hfront⟩ := hgap
  have hfront' : Units AnyChar ([d] ++ behind) front :=
    hfront.congr (Follows.of_head? rfl) fun _ _ _ => trivial
  have hlast := hfront'.cancel h
  have hleft := hfront'.left h
  -- A hyphen would be no gap, so that only the beginning of a mark could stand in the text.
  have hne : d ≠ '-' := by
    rintro rfl
    exact absurd hd (by decide)
  refine Units.append (hleft.congr (Follows.of_head? rfl) fun c rest hc => ?_) ?_
  · refine hc.exchange fun more hmark hne' hmore => ?_
    rcases split_mark hne' hmark with rfl | rfl | rfl | rfl
    · obtain ⟨rfl, -⟩ := List.cons_prefix_cons.1 hmore
      exact List.cons_prefix_cons.2 ⟨rfl, List.nil_prefix⟩
    · obtain ⟨hbang, hmore⟩ := List.cons_prefix_cons.1 hmore
      exact List.cons_prefix_cons.2 ⟨hbang, hhyphens hmore⟩
    · exact absurd (List.cons_prefix_cons.1 hmore).1.symm hne
    · exact absurd (List.cons_prefix_cons.1 hmore).1.symm hne
  · cases hlast with
    | char hslash hloose hrest =>
        refine .char (fun hc => ?_) ?_ .nil
        · rw [hc] at hd
          exact absurd hd (by decide)
        · refine hloose.exchange fun more hmark hne' hmore => ?_
          have hfirst : ∀ e ∈ more.head?, e ≠ '*' ∧ e ≠ '!' := by
            obtain ⟨after, rfl⟩ := hmore
            intro e he
            cases more with
            | nil => cases he
            | cons f more => exact hhead e he
          rcases split_mark hne' hmark with rfl | rfl | rfl | rfl
          · exact absurd rfl (hfirst '*' rfl).1
          · exact absurd rfl (hfirst '!' rfl).2
          -- One character with hyphens is no mark.
          · simp at hmark
          · simp at hmark
    | escape => exact absurd hd (by decide)

end UtilityCss.Token
