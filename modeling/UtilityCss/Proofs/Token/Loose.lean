import UtilityCss.Proofs.Token.Spaced

/-!
# Loose text

The tokens of loose text can join with one another, since it has no brackets, strings, comments and
marks that open a comment of the embedding document. Each token of these kinds consists of loose
text, and ends in a gap if a name follows (`readsLoose_first`).

* `Token.IsLoose` is the condition on the characters of loose text.
* `Token.Kind.isFirm` marks the kinds of tokens that are not loose.
-/

set_option autoImplicit false

namespace UtilityCss.Token

/-! ## Loose and firm -/

/-- Quotes and brackets. -/
def isFence (c : Char) : Bool :=
  "\"'()[]\x7b\x7d".toList.contains c

/-- A character of loose text: no quote or bracket, and no beginning of a comment. -/
structure IsLoose (c : Char) (after : Text) : Prop where
  fence : isFence c = false
  comment : ¬ "/*".toList <+: c :: after
  documentOpen : ¬ "<!--".toList <+: c :: after

/-- Whether the token is read on its own, wherever it stands. -/
def Kind.isFirm : Kind → Bool
  | .string => true
  | .comment => true
  | .url => true
  | .function _ => true
  | .opening _ => true
  | .closing _ => true
  | .documentOpen => true
  | _ => false

theorem isFence_iff {c : Char} :
    isFence c = true ↔ c = '"' ∨ c = '\'' ∨ c = '(' ∨ c = ')' ∨ c = '[' ∨ c = ']' ∨ c = '\x7b' ∨
      c = '\x7d' := by
  simp [isFence]

/-! ## Loose tokens -/

/-- The characters that are loose whatever follows them. -/
def isSafe (c : Char) : Bool :=
  !"\"'()[]\x7b\x7d/<\\".toList.contains c

theorem isLoose_of_isSafe {c : Char} (h : isSafe c = true) (after : Text) : IsLoose c after := by
  have hne : ∀ d : Char, isSafe d = false → c ≠ d :=
    fun d hd => ne_of_class h hd
  refine ⟨?_, ?_, ?_⟩
  · rw [Bool.eq_false_iff]
    intro hfence
    rcases isFence_iff.1 hfence with rfl | rfl | rfl | rfl | rfl | rfl | rfl | rfl <;>
      exact absurd h (by decide)
  · rintro ⟨more, hmore⟩
    exact hne '/' (by decide) (List.cons.inj hmore).1.symm
  · rintro ⟨more, hmore⟩
    exact hne '<' (by decide) (List.cons.inj hmore).1.symm

theorem not_mem_of_isSafe {text : Text} (h : ∀ c ∈ text, isSafe c = true) : '\\' ∉ text :=
  fun hmem => absurd (h _ hmem) (by decide)

/-- A class of which all other characters are no members. -/
theorem isSafe_of_class {p : Char → Bool}
    (hp : ("\"'()[]\x7b\x7d/<\\".toList.all fun c => !p c) = true) {c : Char} (h : p c = true) :
    isSafe c = true := by
  rw [isSafe, Bool.not_eq_true']
  by_contra hmem
  rw [Bool.not_eq_false, List.contains_iff_mem] at hmem
  have hfalse := List.all_eq_true.1 hp c hmem
  rw [h] at hfalse
  cases hfalse

theorem units_take_of_spans {text : Text} {count : Nat} (h : Spans isSafe count text) :
    Units IsLoose (text.drop count) (text.take count) := by
  refine Units.of_not_mem (not_mem_of_isSafe h.2) ?_
  intro front c rest heq
  exact isLoose_of_isSafe (h.2 c (by simp [heq])) _

theorem nameExtent_le (text : Text) : nameExtent text ≤ text.length := by
  fun_induction nameExtent text with
  | case1 => exact Nat.le_refl 0
  | case2 rest _ => exact Nat.zero_le _
  | case3 rest _ ih =>
      have hle := escapeExtent_le rest
      rw [List.length_drop] at ih
      rw [List.length_cons]
      omega
  | case4 c rest _ _ ih =>
      rw [List.length_cons]
      omega
  | case5 c rest _ _ => exact Nat.zero_le _

/-- The first characters are loose, and end in a gap if a name follows. -/
structure ReadsLoose (text : Text) (extent : Nat) : Prop where
  le : extent ≤ text.length
  units : Units IsLoose (text.drop extent) (text.take extent)
  gap : startsName (text.drop extent) = true → EndsGap (text.take extent)

namespace ReadsLoose

variable {text : Text} {first second extent : Nat}

theorem add (h : Spans isSafe first text) (h' : ReadsLoose (text.drop first) second) :
    ReadsLoose text (first + second) where
  le := by
    have hle := h'.le
    have hfirst := h.1
    rw [List.length_drop] at hle
    omega
  units := by
    have hunits := units_take_of_spans h
    rw [List.take_add, ← List.drop_drop]
    refine Units.append ?_ h'.units
    rwa [List.take_append_drop]
  gap := by
    intro hname
    rw [← List.drop_drop] at hname
    have hunits : Units IsLoose ((text.drop first).take second ++ (text.drop first).drop second)
        (text.take first) := by
      rw [List.take_append_drop]
      exact units_take_of_spans h
    rw [List.take_add]
    exact EndsGap.append hunits (h'.gap hname)

theorem one {c : Char} {rest : Text} (hsafe : isSafe c = true) (hgap : isGap c = true) :
    ReadsLoose (c :: rest) 1 where
  le := by simp
  units := units_take_of_spans (Spans.one hsafe)
  gap := fun _ => ⟨[], c, rfl, hgap, .nil⟩

theorem of_spans (h : Spans isSafe extent text) (hname : startsName (text.drop extent) = false) :
    ReadsLoose text extent where
  le := h.1
  units := units_take_of_spans h
  gap := fun hstarts => by
    rw [hname] at hstarts
    cases hstarts

theorem name (text : Text) : ReadsLoose text (nameExtent text) where
  le := nameExtent_le text
  units := by
    refine (units_take_nameExtent text).mono fun c after hname => ?_
    exact isLoose_of_isSafe (isSafe_of_class (p := isNameChar) (by decide) hname) after
  gap := fun hstarts => by
    rw [startsName_drop_nameExtent] at hstarts
    cases hstarts

end ReadsLoose

theorem isSafe_of_isNumeralChar {c : Char} (h : isNumeralChar c = true) : isSafe c = true :=
  isSafe_of_class (p := isNumeralChar) (by decide) h

theorem spans_safe_numeralExtent (text : Text) : Spans isSafe (numeralExtent text) text :=
  ⟨(spans_numeralExtent text).1,
    fun c hc => isSafe_of_isNumeralChar ((spans_numeralExtent text).2 c hc)⟩

theorem isGap_of_isSpace {c : Char} (h : isSpace c = true) : isGap c = true := by
  simp only [isSpace, isNewline, Bool.or_eq_true, beq_iff_eq] at h
  rcases h with (rfl | rfl) | (rfl | rfl) | rfl <;> decide

theorem readsLoose_space {c : Char} (h : isSpace c = true) (rest : Text) :
    ReadsLoose (c :: rest) (spaceExtent (c :: rest)) := by
  have hspans : Spans isSpace (spaceExtent (c :: rest)) (c :: rest) :=
    Spans.takeWhile fun _ hd => hd
  have hsafe : Spans isSafe (spaceExtent (c :: rest)) (c :: rest) :=
    ⟨hspans.1, fun d hd => isSafe_of_class (p := isSpace) (by decide) (hspans.2 d hd)⟩
  refine ⟨hspans.1, units_take_of_spans hsafe, fun _ => ?_⟩
  rcases List.eq_nil_or_concat ((c :: rest).take (spaceExtent (c :: rest))) with
    hnil | ⟨front, d, hlast⟩
  · rw [spaceExtent, List.takeWhile_cons_of_pos h] at hnil
    simp at hnil
  · rw [List.concat_eq_append] at hlast
    have hmem : ∀ e ∈ front ++ [d], e ∈ (c :: rest).take (spaceExtent (c :: rest)) := by
      rw [hlast]
      exact fun _ he => he
    refine ⟨front, d, hlast, isGap_of_isSpace (hspans.2 d (hmem d (by simp))), ?_⟩
    refine Units.of_not_mem ?_ fun _ _ _ _ => trivial
    exact fun hslash => not_mem_of_isSafe hsafe.2 (hmem _ (by simp [hslash]))

theorem readsLoose_firstNumeric (text : Text) :
    ReadsLoose text (firstNumeric text).2 := by
  have hspans := spans_safe_numeralExtent text
  rw [firstNumeric]
  split
  · rename_i hpercent
    cases hdrop : text.drop (numeralExtent text) with
    | nil =>
        rw [hdrop] at hpercent
        cases hpercent
    | cons c after =>
        rw [hdrop] at hpercent
        obtain rfl : c = '%' := by simpa using hpercent
        apply ReadsLoose.add hspans
        rw [hdrop]
        exact .one (by decide) (by decide)
  · split
    · exact .add hspans (.name _)
    · rename_i hname
      exact .of_spans hspans (by simpa using hname)

theorem readsLoose_firstHash (rest : Text) : ReadsLoose ('#' :: rest) (firstHash rest).2 := by
  have hspans : Spans isSafe 1 ('#' :: rest) := Spans.one (by decide)
  rw [firstHash]
  split
  · exact .add hspans (.name rest)
  · rename_i hname
    simp only [Bool.or_eq_true, not_or] at hname
    exact .of_spans hspans (by simpa using hname.1.1)

theorem readsLoose_firstAt (rest : Text) : ReadsLoose ('@' :: rest) (firstAt rest).2 := by
  have hspans : Spans isSafe 1 ('@' :: rest) := Spans.one (by decide)
  rw [firstAt]
  split
  · exact .add hspans (.name rest)
  · rename_i hname
    exact .of_spans hspans (by simpa using hname)

/-! ## The first token -/

/-- Where a firm token begins, the first character is not loose. -/
theorem isLoose_of_isFirm_eq_false {c : Char} {rest : Text}
    (h : (first c rest).1.isFirm = false) : IsLoose c rest where
  fence := by
    rw [Bool.eq_false_iff]
    intro hfence
    rcases isFence_iff.1 hfence with rfl | rfl | rfl | rfl | rfl | rfl | rfl | rfl <;> cases h
  comment := by
    rintro ⟨after, hafter⟩
    obtain ⟨rfl, rfl⟩ := List.cons.inj hafter
    cases h
  documentOpen := by
    rintro ⟨after, hafter⟩
    obtain ⟨rfl, rfl⟩ := List.cons.inj hafter
    cases h

/-- A character that begins neither a numeral nor a name is a gap if a name follows. -/
theorem isGap_of_not_starts {c : Char} {rest : Text} (hnumeral : startsNumeral (c :: rest) = false)
    (hname : startsName (c :: rest) = false) (hhash : c ≠ '#') (hat : c ≠ '@')
    (hrest : startsName rest = true) : isGap c = true := by
  cases rest with
  | nil => cases hrest
  | cons d rest =>
      -- A backslash that begins no name stands at the end of a line, where no name begins.
      have hslash : c ≠ '\\' := by
        rintro rfl
        rw [startsName_backslash, Bool.not_eq_false'] at hname
        rw [startsName_newline hname] at hrest
        cases hrest
      -- Behind a hyphen that begins no name none of the three beginnings of a name stands.
      have hhyphen : c ≠ '-' := by
        rintro rfl
        have hsecond : (isNameStart d || d == '-' || d == '\\') = false := hname
        simp only [Bool.or_eq_false_iff, beq_eq_false_iff_ne] at hsecond
        rw [startsName_of_ne hsecond.2 hsecond.1.2, hsecond.1.1] at hrest
        cases hrest
      have hstart : isNameStart c = false := by rwa [startsName_of_ne hslash hhyphen] at hname
      have hdigit : isDigit c = false := by
        rw [Bool.eq_false_iff]
        intro hdigit
        have hsign : signExtent (c :: d :: rest) = 0 := by
          rw [signExtent, if_neg]
          rintro (rfl | rfl) <;> cases hdigit
        rw [startsNumeral, hsign, List.drop_zero, startsDigit, hdigit] at hnumeral
        cases hnumeral
      simp [isGap, isNameChar, hstart, hdigit, hhyphen, hslash, hhash, hat]

theorem readsLoose_firstMark {c : Char} {rest : Text}
    (hnumeral : startsNumeral (c :: rest) = false) (hname : startsName (c :: rest) = false)
    (hhash : c ≠ '#') (hat : c ≠ '@') (hloose : IsLoose c rest) :
    ReadsLoose (c :: rest) (firstMark c rest).2 := by
  -- A backslash is a mark only at the end of a line.
  have hslash : c = '\\' → startsNewline rest = true := by
    rintro rfl
    rwa [startsName_backslash, Bool.not_eq_false'] at hname
  have hfence : ∀ d, isFence d = true → c ≠ d :=
    fun d hd => (ne_of_class hd hloose.fence).symm
  have hmark := firstMark_spec c rest
  generalize firstMark c rest = token at hmark ⊢
  cases hmark with
  | colon hc => exact hc ▸ .one (by decide) (by decide)
  | semicolon hc => exact hc ▸ .one (by decide) (by decide)
  | comma hc => exact hc ▸ .one (by decide) (by decide)
  | opening hc =>
      rcases hc with rfl | rfl | rfl
      · exact absurd rfl (hfence '(' (by decide))
      · exact absurd rfl (hfence '[' (by decide))
      · exact absurd rfl (hfence '\x7b' (by decide))
  | closing hc =>
      rcases hc with rfl | rfl | rfl
      · exact absurd rfl (hfence ')' (by decide))
      · exact absurd rfl (hfence ']' (by decide))
      · exact absurd rfl (hfence '\x7d' (by decide))
  | comparison hequals =>
      cases rest with
      | nil => cases hequals
      | cons d rest =>
          obtain rfl : d = '=' := by simpa using hequals
          have hplain : c ≠ '\\' := fun hc => nomatch (hslash hc : isNewline '=' = true)
          refine ⟨by simp, ?_, fun _ => ?_⟩
          · refine .char (fun hc => absurd hc hplain) hloose ?_
            exact .char (fun hc => nomatch hc) (isLoose_of_isSafe (by decide) rest) .nil
          · exact ⟨[c], '=', rfl, by decide, .char (fun hc => absurd hc hplain) trivial .nil⟩
  | delimiter =>
      refine ⟨by simp, .char hslash hloose .nil, fun hstarts => ?_⟩
      exact ⟨[], c, rfl, isGap_of_not_starts hnumeral hname hhash hat hstarts, .nil⟩

/-- An identifier is the name in front. -/
theorem firstNamed_of_isFirm_eq_false {text : Text} (h : (firstNamed text).1.isFirm = false) :
    (firstNamed text).2 = nameExtent text := by
  rw [firstNamed] at h ⊢
  generalize text.drop (nameExtent text) = after at h ⊢
  cases after with
  | nil => rfl
  | cons c inside =>
      dsimp only at h ⊢
      split
      · rfl
      · rename_i hc
        rw [if_neg hc] at h
        split at h
        · split at h <;> cases h
        · cases h

/-- A token that is not firm is loose. -/
theorem readsLoose_first {c : Char} {rest : Text} (h : (first c rest).1.isFirm = false) :
    ReadsLoose (c :: rest) (first c rest).2 := by
  have hloose := isLoose_of_isFirm_eq_false h
  -- Hashes and at-signs come first, as a name behind them makes a token of its own kind.
  by_cases hhash : c = '#'
  · subst hhash
    exact readsLoose_firstHash rest
  by_cases hat : c = '@'
  · subst hat
    exact readsLoose_firstAt rest
  have hfirst := first_spec c rest
  generalize first c rest = token at h hfirst ⊢
  cases hfirst with
  | space hspace => exact readsLoose_space hspace rest
  | string => cases h
  | numeric => exact readsLoose_firstNumeric _
  | documentClose hclose =>
      obtain ⟨after, hafter⟩ := hclose
      obtain ⟨rfl, rfl⟩ := List.cons.inj hafter
      have hspans : Spans isSafe 2 ('-' :: '-' :: '>' :: after) :=
        Spans.cons (by decide) (Spans.one (by decide))
      exact .add hspans (.one (by decide) (by decide))
  | named =>
      rw [firstNamed_of_isFirm_eq_false h]
      exact .name _
  | documentOpen => cases h
  | comment => cases h
  | hash hc => exact absurd hc hhash
  | atKeyword hc => exact absurd hc hat
  | mark hnumeral hname => exact readsLoose_firstMark hnumeral hname hhash hat hloose

/-! ## Loose tokens in a row -/

/-- The first token with its text, and the tokens behind it. -/
theorem ofText_cons (c : Char) (rest : Text) :
    ofText (c :: rest) = ⟨(first c rest).1, (c :: rest).take (first c rest).2⟩ ::
      ofText ((c :: rest).drop (first c rest).2) := by
  have hpos := first_pos c rest
  rw [ofText, List.take_cons hpos, List.drop_cons hpos]

/-- Loose tokens make loose text, which ends in a gap if a name follows. -/
theorem units_of_ofText {text : Text} {tokens after : List Token}
    (h : ofText text = tokens ++ after) (hloose : ∀ token ∈ tokens, token.kind.isFirm = false) :
    Units IsLoose (after.flatMap source) (tokens.flatMap source) ∧
      (startsName (after.flatMap source) = true → tokens ≠ [] →
        EndsGap (tokens.flatMap source)) := by
  induction tokens generalizing text with
  | nil => exact ⟨.nil, fun _ hne => absurd rfl hne⟩
  | cons token tokens ih =>
      cases text with
      | nil =>
          rw [ofText] at h
          cases h
      | cons c rest =>
          rw [ofText_cons, List.cons_append] at h
          obtain ⟨rfl, hrest⟩ := List.cons.inj h
          rw [List.forall_mem_cons] at hloose
          obtain ⟨hunits, hgap⟩ := ih hrest hloose.2
          have hreads := readsLoose_first hloose.1
          -- What the first token leaves is the text of the others.
          have hsources : (c :: rest).drop (first c rest).2 =
              tokens.flatMap source ++ after.flatMap source := by
            rw [← List.flatMap_append, ← hrest, sources_ofText]
          have hfirst := hreads.units
          rw [hsources] at hfirst
          rw [List.flatMap_cons]
          refine ⟨hfirst.append hunits, fun hname _ => ?_⟩
          cases tokens with
          | nil =>
              rw [List.flatMap_nil, List.append_nil]
              apply hreads.gap
              rw [hsources]
              exact hname
          | cons next tokens => exact EndsGap.append hfirst (hgap hname (by simp))

end UtilityCss.Token
