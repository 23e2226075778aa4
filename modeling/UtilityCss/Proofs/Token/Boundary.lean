import UtilityCss.Reference
import UtilityCss.Proofs.Token.Locality

/-!
# Names begin at the boundaries of names

A name is read as far as it goes. So where a token ends and another one begins with a name, the
first does not end in a character of a name, with one exception: the mark that opens a comment of
the embedding document ends in a hyphen (`first_separates`). Function tokens begin with a name, so
that the text before one does not end in a name that is referred to
(`not_endsInReference_of_function`).

* `Token.Separates` says that no name begins where a token ends in a character of a name.
* `Token.EndsInReference` says that a text ends in a reference whose name may go on.
-/

set_option autoImplicit false

namespace UtilityCss.Token

/-- Behind the first characters no name begins, or the last of them is no character of a name. -/
def Separates (text : Text) (extent : Nat) : Prop :=
  startsName (text.drop extent) = false ∨
    ∃ last, (text.take extent).getLast? = some last ∧ Reference.isNameChar last = false

namespace Separates

variable {text : Text} {extent : Nat}

/-- What holds behind some characters holds from the beginning. -/
theorem add (skipped : Nat) (h : Separates (text.drop skipped) extent) :
    Separates text (skipped + extent) := by
  rcases h with hstart | ⟨last, hlast, hname⟩
  · left
    rwa [← List.drop_drop]
  · right
    refine ⟨last, ?_, hname⟩
    rw [List.take_add, List.getLast?_append, hlast]
    rfl

theorem cons {c : Char} {rest : Text} (h : Separates rest extent) :
    Separates (c :: rest) (1 + extent) :=
  add 1 h

theorem one {c : Char} {rest : Text} (h : Reference.isNameChar c = false) :
    Separates (c :: rest) 1 :=
  Or.inr ⟨c, rfl, h⟩

theorem of_drop_eq_nil (h : text.drop extent = []) : Separates text extent := by
  left
  rw [h]
  rfl

/-- Characters of a class without those of names separate. -/
theorem of_spans {p : Char → Bool} (hpos : 0 < extent) (h : Spans p extent text)
    (hclass : ∀ c, p c = true → Reference.isNameChar c = false) : Separates text extent := by
  have hne : text.take extent ≠ [] := by
    intro hnil
    have hlength := congrArg List.length hnil
    rw [List.length_take, List.length_nil, Nat.min_eq_left h.1] at hlength
    omega
  exact Or.inr ⟨_, List.getLast?_eq_some_getLast hne, hclass _ (h.2 _ (List.getLast_mem hne))⟩

end Separates

/-! ## Names and numerals -/

theorem startsName_newline {c : Char} (h : isNewline c = true) (rest : Text) :
    startsName (c :: rest) = false := by
  simp only [isNewline, Bool.or_eq_true, beq_iff_eq] at h
  rcases h with (rfl | rfl) | rfl <;> cases rest <;> rfl

/-- A name is read as far as it goes. -/
theorem startsName_drop_nameExtent (text : Text) :
    startsName (text.drop (nameExtent text)) = false := by
  -- The reading stops at the end, before a backslash that escapes nothing, or at a character that
  -- is in no name.
  fun_induction nameExtent text with
  | case1 => rfl
  | case2 rest hnewline =>
      rw [List.drop_zero, startsName_backslash, hnewline]
      rfl
  | case3 rest hnewline ih =>
      rw [Nat.add_assoc, Nat.add_comm, List.drop_succ_cons, ← List.drop_drop]
      exact ih
  | case4 c rest hslash hname ih =>
      rw [Nat.add_comm, List.drop_succ_cons]
      exact ih
  | case5 c rest hslash hname =>
      have hhyphen : c ≠ '-' := by
        rintro rfl
        exact hname rfl
      have hstart : isNameStart c = false := by
        rw [Bool.eq_false_iff]
        intro hstart
        exact hname (by simp [isNameChar, hstart])
      rw [List.drop_zero, startsName_of_ne hslash hhyphen, hstart]

theorem separates_nameExtent (text : Text) : Separates text (nameExtent text) :=
  Or.inl (startsName_drop_nameExtent text)

/-! ## Comments, strings and addresses -/

theorem separates_commentExtent (text : Text) : Separates text (commentExtent text) := by
  fun_induction commentExtent text with
  | case1 => exact .of_drop_eq_nil rfl
  | case2 rest => exact Or.inr ⟨'/', rfl, by decide⟩
  | case3 c rest _ ih => exact ih.cons

theorem separates_stringExtent {mark : Char} (hmark : Reference.isNameChar mark = false)
    (text : Text) : Separates text (stringExtent mark text) := by
  fun_induction stringExtent mark text with
  | case1 => exact .of_drop_eq_nil rfl
  | case2 rest ih =>
      rw [Nat.add_assoc]
      exact (Separates.add _ ih).cons
  | case3 rest => exact .one hmark
  | case4 c rest _ _ hnewline => exact Or.inl (startsName_newline hnewline rest)
  | case5 c rest _ _ _ ih => exact ih.cons

theorem separates_badUrlExtent (text : Text) : Separates text (badUrlExtent text) := by
  fun_induction badUrlExtent text with
  | case1 => exact .of_drop_eq_nil rfl
  | case2 c => exact .of_drop_eq_nil rfl
  | case3 second rest => exact .one rfl
  | case4 c second rest _ _ ih => exact Separates.add 2 ih
  | case5 c second rest _ _ ih => exact ih.cons

theorem separates_urlEndExtent (text : Text) : Separates text (urlEndExtent text) := by
  rw [urlEndExtent]
  cases hdrop : text.drop (spaceExtent text) with
  | nil => exact .of_drop_eq_nil hdrop
  | cons c rest =>
      dsimp only
      by_cases hclose : c = ')'
      · subst hclose
        rw [if_pos rfl]
        apply Separates.add
        rw [hdrop]
        exact .one rfl
      · rw [if_neg hclose, Nat.add_assoc]
        apply Separates.add
        rw [hdrop]
        exact (separates_badUrlExtent rest).cons

theorem separates_urlBodyExtent (text : Text) : Separates text (urlBodyExtent text) := by
  fun_induction urlBodyExtent text with
  | case1 => exact .of_drop_eq_nil rfl
  | case2 rest => exact .one rfl
  | case3 c rest => exact separates_urlEndExtent (c :: rest)
  | case4 c rest => exact (separates_badUrlExtent rest).cons
  | case5 rest => exact (separates_badUrlExtent rest).cons
  | case6 rest _ _ _ _ ih =>
      rw [Nat.add_assoc]
      exact (Separates.add _ ih).cons
  | case7 c rest _ _ _ _ ih => exact ih.cons

theorem separates_urlExtent {text : Text} {extent : Nat} (h : urlExtent text = some extent) :
    Separates text extent := by
  rw [urlExtent] at h
  cases hdrop : text.drop (spaceExtent text) with
  | nil =>
      rw [hdrop] at h
      cases h
      exact .of_drop_eq_nil hdrop
  | cons c rest =>
      rw [hdrop] at h
      dsimp only at h
      split at h
      · cases h
      · cases h
        apply Separates.add
        rw [hdrop]
        exact separates_urlBodyExtent (c :: rest)

/-! ## The first token -/

theorem separates_firstNamed (text : Text) : Separates text (firstNamed text).2 := by
  rw [firstNamed]
  cases hdrop : text.drop (nameExtent text) with
  | nil => exact separates_nameExtent text
  | cons c inside =>
      dsimp only
      by_cases hopen : c = '('
      · subst hopen
        have hbracket : Separates text (nameExtent text + 1) := by
          apply Separates.add
          rw [hdrop]
          exact .one rfl
        rw [if_neg (by simp)]
        -- Only an address goes on behind the bracket.
        split
        · cases hurl : urlExtent inside with
          | none => exact hbracket
          | some length =>
              dsimp only
              rw [Nat.add_assoc]
              apply Separates.add
              rw [hdrop]
              exact (separates_urlExtent hurl).cons
        · exact hbracket
      · rw [if_pos hopen]
        exact separates_nameExtent text

theorem separates_firstNumeric (text : Text) : Separates text (firstNumeric text).2 := by
  rw [firstNumeric]
  split
  · rename_i hhead
    apply Separates.add
    cases hdrop : text.drop (numeralExtent text) with
    | nil =>
        rw [hdrop] at hhead
        cases hhead
    | cons c rest =>
        rw [hdrop] at hhead
        cases hhead
        exact .one rfl
  · split
    · exact Separates.add _ (separates_nameExtent _)
    · rename_i hname
      exact Or.inl (by simpa using hname)

theorem separates_firstHash (rest : Text) : Separates ('#' :: rest) (firstHash rest).2 := by
  rw [firstHash]
  split
  · exact (separates_nameExtent rest).cons
  · exact .one rfl

theorem separates_firstAt (rest : Text) : Separates ('@' :: rest) (firstAt rest).2 := by
  rw [firstAt]
  split
  · exact (separates_nameExtent rest).cons
  · exact .one rfl

/-- Behind a hyphen that begins no name there is none either. -/
theorem startsName_of_hyphen {rest : Text} (h : startsName ('-' :: rest) = false) :
    startsName rest = false := by
  cases rest with
  | nil => rfl
  | cons c rest =>
      have hc : (isNameStart c || c == '-' || c == '\\') = false := h
      simp only [Bool.or_eq_false_iff, beq_eq_false_iff_ne] at hc
      rw [startsName_of_ne hc.2 hc.1.2, hc.1.1]

/-- A character of a name that begins neither a numeral nor a name is a hyphen. -/
theorem eq_hyphen_of_isNameChar {c : Char} {rest : Text}
    (hnumeral : startsNumeral (c :: rest) = false) (hname : startsName (c :: rest) = false)
    (hc : Reference.isNameChar c = true) : c = '-' := by
  by_contra hhyphen
  have hslash : c ≠ '\\' := by
    rintro rfl
    exact absurd hc (by decide)
  rw [startsName_of_ne hslash hhyphen] at hname
  have hdigit : isDigit c = false := by
    rw [Bool.eq_false_iff]
    intro hdigit
    have hsign : signExtent (c :: rest) = 0 := by
      rw [signExtent, if_neg]
      rintro (rfl | rfl)
      · exact absurd hdigit (by decide)
      · exact hhyphen rfl
    rw [startsNumeral, hsign, List.drop_zero, startsDigit, hdigit] at hnumeral
    simp at hnumeral
  simp only [isNameStart, Bool.or_eq_false_iff] at hname
  simp [Reference.isNameChar, hname.1.1.1, hname.1.1.2, hname.2, hdigit, hhyphen] at hc

/-- A single mark is no character of a name, except for a hyphen before something else. -/
theorem separates_firstMark {c : Char} {rest : Text}
    (hnumeral : startsNumeral (c :: rest) = false) (hname : startsName (c :: rest) = false) :
    Separates (c :: rest) (firstMark c rest).2 := by
  -- All marks but the comparisons are one character long.
  have hone : Separates (c :: rest) 1 := by
    by_cases hc : Reference.isNameChar c = true
    · have hhyphen := eq_hyphen_of_isNameChar hnumeral hname hc
      subst hhyphen
      exact Or.inl (startsName_of_hyphen hname)
    · exact .one (by simpa using hc)
  have hmark := firstMark_spec c rest
  generalize firstMark c rest = token at hmark ⊢
  cases hmark with
  | comparison hequals =>
      cases rest with
      | nil => cases hequals
      | cons d rest =>
          cases hequals
          exact Or.inr ⟨'=', rfl, by decide⟩
  | colon => exact hone
  | semicolon => exact hone
  | comma => exact hone
  | opening => exact hone
  | closing => exact hone
  | delimiter => exact hone

/-- Where the first token ends, no name begins behind a character of a name, unless the token is
the mark that opens a comment of the embedding document. -/
theorem first_separates (c : Char) (rest : Text) :
    Separates (c :: rest) (first c rest).2 ∨
      (first c rest).2 = 4 ∧ "<!--".toList <+: c :: rest := by
  have hfirst := first_spec c rest
  generalize first c rest = token at hfirst ⊢
  cases hfirst with
  | documentOpen hopen => exact Or.inr ⟨rfl, hopen⟩
  | space hspace =>
      -- Spaces are not in names, so that their last character separates.
      left
      have hpos : 0 < spaceExtent (c :: rest) := by
        rw [spaceExtent, List.takeWhile_cons_of_pos hspace]
        simp
      refine .of_spans hpos (Spans.takeWhile fun _ hc => hc) ?_
      intro d hd
      simp only [isSpace, isNewline, Bool.or_eq_true, beq_iff_eq] at hd
      rcases hd with (rfl | rfl) | (rfl | rfl) | rfl <;> decide
  | string hquote =>
      left
      apply Separates.cons
      apply separates_stringExtent
      rcases hquote with rfl | rfl <;> decide
  | numeric => exact Or.inl (separates_firstNumeric _)
  | named => exact Or.inl (separates_firstNamed _)
  | documentClose hclose =>
      left
      obtain ⟨after, hafter⟩ := hclose
      rw [← hafter]
      exact Or.inr ⟨'>', rfl, by decide⟩
  | comment => exact Or.inl (Separates.add 2 (separates_commentExtent _))
  | hash hc =>
      subst hc
      exact Or.inl (separates_firstHash rest)
  | atKeyword hc =>
      subst hc
      exact Or.inl (separates_firstAt rest)
  | mark hnumeral hname => exact Or.inl (separates_firstMark hnumeral hname)

/-! ## Before a function -/

theorem firstNumeric_pos {text : Text} (h : startsNumeral text = true) :
    1 ≤ (firstNumeric text).2 := by
  have hpos := numeralExtent_pos h
  rw [firstNumeric]
  split
  · exact Nat.le_add_left 1 _
  · split
    · exact Nat.le_add_right_of_le hpos
    · exact hpos

theorem firstNamed_pos {text : Text} (h : startsName text = true) : 1 ≤ (firstNamed text).2 := by
  have hpos := nameExtent_pos h
  rw [firstNamed]
  cases text.drop (nameExtent text) with
  | nil => exact hpos
  | cons c inside =>
      dsimp only
      split
      · exact hpos
      · split
        · cases urlExtent inside with
          | none => exact Nat.le_add_left 1 _
          | some length =>
              dsimp only
              omega
        · exact Nat.le_add_left 1 _

/-- Every token has a character. -/
theorem first_pos (c : Char) (rest : Text) : 1 ≤ (first c rest).2 := by
  have hfirst := first_spec c rest
  generalize first c rest = token at hfirst ⊢
  cases hfirst with
  | space hspace =>
      rw [spaceExtent, List.takeWhile_cons_of_pos hspace]
      simp
  | string => exact Nat.le_add_right 1 _
  | numeric hnumeral => exact firstNumeric_pos hnumeral
  | named hname => exact firstNamed_pos hname
  | documentClose => exact Nat.le_add_left 1 2
  | documentOpen => exact Nat.le_add_left 1 3
  | comment => exact Nat.le_add_right_of_le (Nat.le_succ 1)
  | hash =>
      rw [firstHash]
      split
      · exact Nat.le_add_right 1 _
      · exact Nat.le_refl 1
  | atKeyword =>
      rw [firstAt]
      split
      · exact Nat.le_add_right 1 _
      · exact Nat.le_refl 1
  | mark =>
      have hmark := firstMark_spec c rest
      generalize firstMark c rest = token at hmark ⊢
      cases hmark <;> simp

theorem startsName_of_ofText_eq_cons {text : Text} {next : Token} {after : List Token}
    (h : ofText text = next :: after) (hnext : next.kind.isName = true) :
    startsName text = true := by
  cases text with
  | nil =>
      rw [ofText] at h
      cases h
  | cons c rest =>
      rw [ofText] at h
      obtain ⟨hread, -⟩ := List.cons.inj h
      rw [← hread] at hnext
      exact (first_eq_firstNamed_of_isName hnext).1

/-- A token before one that begins with a name. -/
theorem source_before_name {text : Text} {after : List Token} {last next : Token}
    (hnext : next.kind.isName = true) (before : List Token)
    (h : ofText text = before ++ last :: next :: after) :
    (∃ front d, last.source = front ++ [d] ∧ Reference.isNameChar d = false) ∨
      last.source = "<!--".toList := by
  fun_induction ofText text generalizing before with
  | case1 => simp at h
  | case2 c rest token ih =>
      cases before with
      | cons found before =>
          obtain ⟨-, hrest⟩ := List.cons.inj h
          exact ih before hrest
      | nil =>
          obtain ⟨hlast, hrest⟩ := List.cons.inj h
          subst hlast
          have hpos : 0 < token.2 := first_pos c rest
          have hname : startsName ((c :: rest).drop token.2) = true := by
            rw [List.drop_cons hpos]
            exact startsName_of_ofText_eq_cons hrest hnext
          dsimp only
          rw [← List.take_cons hpos]
          -- A name begins behind the token, so that it is not the first reason to separate.
          rcases first_separates c rest with (hstart | ⟨d, hd, hclass⟩) | ⟨hfour, hopen⟩
          · rw [hname] at hstart
            cases hstart
          · left
            obtain ⟨front, hfront⟩ := List.getLast?_eq_some_iff.1 hd
            exact ⟨front, d, hfront, hclass⟩
          · right
            obtain ⟨more, hmore⟩ := hopen
            have hfour : token.2 = 4 := hfour
            rw [hfour, ← hmore]
            rfl

/-- The text ends in the beginning of a reference whose name may go on. -/
def EndsInReference (text : Text) : Prop :=
  ∃ before name, text = before ++ ("var(--".toList ++ name) ∧
    ∀ c ∈ name, Reference.isNameChar c = true

/-- What ends in the beginning of a reference ends in a character of a name. -/
theorem EndsInReference.exists_last {text : Text} (h : EndsInReference text) :
    ∃ front d, text = front ++ [d] ∧ Reference.isNameChar d = true := by
  obtain ⟨before, name, rfl, hname⟩ := h
  rcases List.eq_nil_or_concat name with rfl | ⟨start, d, rfl⟩
  · exact ⟨before ++ "var(-".toList, '-', by simp, by decide⟩
  · refine ⟨before ++ ("var(--".toList ++ start), d, by simp, hname d (by simp)⟩

/-- The mark that opens a comment is not the end of a reference. -/
theorem not_endsInReference_documentOpen (before : Text) :
    ¬ EndsInReference (before ++ "<!--".toList) := by
  rintro ⟨front, name, htext, hname⟩
  have hsuffix : "<!--".toList <:+ "var(--".toList ++ name := by
    apply List.suffix_of_suffix_length_le (List.suffix_append before _)
    · rw [htext]
      exact List.suffix_append front _
    · rw [List.length_append]
      exact Nat.le_add_right_of_le (by decide)
  have hmem : '!' ∈ "var(--".toList ++ name := hsuffix.subset (by simp)
  rcases List.mem_append.1 hmem with hvar | hmem
  · revert hvar
    decide
  · exact absurd (hname '!' hmem) (by decide)

/-- The text before a function is no place where the name of a reference could go on. -/
theorem not_endsInReference_of_function {text : Text} {before after : List Token} {next : Token}
    (h : ofText text = before ++ next :: after) (hnext : next.kind.isName = true) :
    ¬ EndsInReference (before.flatMap Token.source) := by
  intro hends
  rcases List.eq_nil_or_concat before with rfl | ⟨others, last, rfl⟩
  · obtain ⟨front, d, hnil, -⟩ := hends.exists_last
    simp at hnil
  · rw [List.concat_eq_append, List.append_assoc] at h
    rw [List.concat_eq_append, List.flatMap_append, List.flatMap_singleton] at hends
    rcases source_before_name hnext others h with ⟨start, d, hsource, hclass⟩ | hsource
    · -- The last character would be one of the name.
      obtain ⟨front, e, htext, hname⟩ := hends.exists_last
      rw [hsource, ← List.append_assoc] at htext
      have hlast := (List.append_inj' htext rfl).2
      cases hlast
      rw [hname] at hclass
      cases hclass
    · rw [hsource] at hends
      exact not_endsInReference_documentOpen _ hends

end UtilityCss.Token
