import UtilityCss.Proofs.Token.Boundary
import UtilityCss.Proofs.Token.Plain
import UtilityCss.Proofs.Token.Extent

/-!
# Tokens that end within a stretch

A token that ends within a stretch of text does not see what stands behind the stretch, so that a
slash there may be exchanged for a space. Only an escape of hexadecimal digits at the end of the
stretch takes a space with it (`endsInEscape`), and white space goes on with white space.

The statements compare a stretch in front of a slash with the same stretch in front of a space:
`nameExtent_behind` for names, `keepsEnd_slash` for what takes text up to a mark of its own, and
`first_behind` for the first token of all.
-/

set_option autoImplicit false

namespace UtilityCss.Token

variable {y z : Text}

/-! ## Escapes -/

/-- Whether a text ends in an escape of hexadecimal digits, which takes a white space behind it. -/
def endsInEscape : Text → Bool
  | [] => false
  | c :: rest =>
    if c = '\\' then
      !rest.isEmpty && Escape.digits rest == rest || endsInEscape (rest.drop (escapeExtent rest))
    else endsInEscape rest
termination_by text => text.length
decreasing_by
  · simp only [List.length_drop, List.length_cons]; omega
  · simp

theorem startsNewline_append {text rest : Text} (hrest : Breaks rest) :
    startsNewline (text ++ rest) = startsNewline text := by
  cases text with
  | cons c text => rfl
  | nil =>
      cases rest with
      | nil => rfl
      | cons c rest => rcases hrest c rfl with rfl | rfl | rfl | rfl | rfl <;> rfl

theorem newlineExtent_append {text rest : Text} (hrest : Breaks rest) :
    newlineExtent (text ++ rest) = newlineExtent text := by
  cases text with
  | nil =>
      cases rest with
      | nil => rfl
      | cons c rest => rcases hrest c rfl with rfl | rfl | rfl | rfl | rfl <;> rfl
  | cons c text =>
      cases text with
      | cons d text =>
          by_cases hd : d = '\n'
          · subst hd
            rfl
          · simp [newlineExtent, hd]
      | nil =>
          cases rest with
          | nil => rfl
          | cons d rest =>
              rcases hrest d rfl with rfl | rfl | rfl | rfl | rfl <;>
                simp [newlineExtent]

theorem prefix_digits (text : Text) : Escape.digits text <+: text :=
  (List.takeWhile_prefix _).trans (List.take_prefix 6 text)

theorem oneSpaceExtent_append {text rest : Text} (hne : text ≠ []) (hrest : Breaks rest) :
    oneSpaceExtent (text ++ rest) = oneSpaceExtent text := by
  cases text with
  | nil => exact absurd rfl hne
  | cons c text =>
      have hnewline : newlineExtent (c :: text ++ rest) = newlineExtent (c :: text) :=
        newlineExtent_append hrest
      rw [List.cons_append] at hnewline ⊢
      rw [oneSpaceExtent, oneSpaceExtent, hnewline]

/-- An escape that does not go on to the end of its text is the same in front of more text. -/
theorem escapeExtent_append {text rest : Text} (hne : text ≠ [])
    (hdigits : Escape.digits text ≠ text) (hrest : Breaks rest) :
    escapeExtent (text ++ rest) = escapeExtent text := by
  have hlength : (Escape.digits text).length ≤ text.length := Escape.length_digits_le text
  have hdrop : text.drop (Escape.digits text).length ≠ [] := by
    intro hnil
    have hle := List.drop_eq_nil_iff.1 hnil
    exact hdigits ((prefix_digits text).eq_of_length (by omega))
  have hspace := oneSpaceExtent_append hdrop hrest
  rw [← List.drop_append_of_le_length hlength] at hspace
  have hrun : Escape.digits (text ++ rest) = Escape.digits text :=
    Escape.digits_append (hrest.head?_eq_false rfl rfl rfl rfl rfl) text
  cases text with
  | nil => exact absurd rfl hne
  | cons c text =>
      rw [List.cons_append] at hrun hspace ⊢
      simp only [escapeExtent, hrun, hspace]

/-- An escape that goes on to the end of its text takes all of it. -/
theorem escapeExtent_slash {text : Text} (hne : text ≠ []) (hdigits : Escape.digits text = text) :
    escapeExtent (text ++ '/' :: y) = text.length := by
  have hrun : Escape.digits (text ++ '/' :: y) = Escape.digits text :=
    Escape.digits_append ((breaks_slash y).head?_eq_false rfl rfl rfl rfl rfl) text
  rw [hdigits] at hrun
  have hspace : oneSpaceExtent ('/' :: y) = 0 := rfl
  cases text with
  | nil => exact absurd rfl hne
  | cons c text =>
      have hhex : isHexDigit c = true := by
        have hmem : c ∈ Escape.digits (c :: text) := by
          rw [hdigits]
          exact List.mem_cons_self
        exact List.mem_takeWhile_imp hmem
      rw [List.cons_append] at hrun ⊢
      rw [escapeExtent, if_pos hhex, hrun]
      simp only [← List.cons_append, List.drop_left, hspace, Nat.add_zero]

/-! ## Names -/

theorem startsName_behind (text : Text) :
    startsName (text ++ ' ' :: z) = startsName (text ++ '/' :: y) := by
  cases text with
  | nil => rfl
  | cons c text =>
      have hnewline : startsNewline (text ++ ' ' :: z) = startsNewline (text ++ '/' :: y) := by
        rw [startsNewline_append (breaks_space z), startsNewline_append (breaks_slash y)]
      -- A hyphen looks at one more character.
      cases text with
      | cons d text =>
          simp only [List.cons_append] at hnewline
          simp only [List.cons_append, startsName, hnewline]
      | nil =>
          have hslash : (isNameStart '/' || '/' == '-' || '/' == '\\') = false := rfl
          have hspace : (isNameStart ' ' || ' ' == '-' || ' ' == '\\') = false := rfl
          simp only [List.nil_append] at hnewline
          simp only [List.cons_append, List.nil_append, startsName, hnewline, hslash, hspace]

theorem nameExtent_behind {text : Text} (hle : nameExtent (text ++ '/' :: y) ≤ text.length)
    (hopen : nameExtent (text ++ '/' :: y) = text.length → endsInEscape text = false) :
    nameExtent (text ++ ' ' :: z) = nameExtent (text ++ '/' :: y) := by
  fun_induction endsInEscape text with
  | case1 =>
      have hspace : isNameChar ' ' = false := rfl
      have hslash : isNameChar '/' = false := rfl
      simp [nameExtent, hspace, hslash]
  | case2 rest ih =>
      rw [List.cons_append, nameExtent, if_pos rfl, List.length_cons] at hle hopen
      rw [List.cons_append, List.cons_append, nameExtent, nameExtent, if_pos rfl, if_pos rfl]
      rw [startsNewline_append (breaks_slash y)] at hle hopen ⊢
      rw [startsNewline_append (breaks_space z)]
      by_cases hnewline : startsNewline rest = true
      · rw [if_pos hnewline, if_pos hnewline]
      rw [if_neg hnewline] at hle hopen ⊢
      rw [if_neg hnewline]
      by_cases hne : rest = []
      · -- The backslash would escape the slash behind the stretch.
        subst hne
        have hone : escapeExtent ([] ++ '/' :: y) = 1 := rfl
        rw [hone, List.length_nil] at hle
        omega
      · -- Digits up to the end of the stretch would take the space, which is excluded.
        by_cases hdigits : Escape.digits rest = rest
        · have hend : nameExtent ('/' :: y) = 0 := by
            rw [nameExtent]
            rfl
          rw [escapeExtent_slash hne hdigits, List.drop_left, hend] at hopen
          have hfalse := hopen (by omega)
          simp [hne, hdigits] at hfalse
        · rw [escapeExtent_append hne hdigits (breaks_slash y)] at hle hopen ⊢
          rw [escapeExtent_append hne hdigits (breaks_space z)]
          have hwithin := escapeExtent_le rest
          rw [List.drop_append_of_le_length hwithin] at hle hopen ⊢
          rw [List.drop_append_of_le_length hwithin]
          have hlength := List.length_drop (i := escapeExtent rest) (l := rest)
          rw [ih (by omega)]
          intro hwhole
          have hfalse := hopen (by omega)
          rw [Bool.or_eq_false_iff] at hfalse
          exact hfalse.2
  | case3 c rest hslash ih =>
      rw [List.cons_append, nameExtent, if_neg hslash, List.length_cons] at hle hopen
      rw [List.cons_append, List.cons_append, nameExtent, nameExtent, if_neg hslash, if_neg hslash]
      by_cases hname : isNameChar c = true
      · rw [if_pos hname] at hle hopen ⊢
        rw [if_pos hname, ih (by omega) fun hwhole => hopen (by omega)]
      · rw [if_neg hname, if_neg hname]

/-! ## Strings, comments and addresses -/

/-- A slash ends neither the input nor a line. -/
theorem keepsEnd_slash (y z : Text) : KeepsEnd ('/' :: y) (' ' :: z) where
  nil := fun h => by cases h
  newline := fun h => by cases h

theorem spaceExtent_slash (text : Text) : spaceExtent (text ++ '/' :: y) = spaceExtent text := by
  have hhead : ∀ c ∈ ('/' :: y).head?, isSpace c = false := by
    intro c hc
    cases hc
    rfl
  rw [spaceExtent, spaceExtent, takeWhile_append_of_head? hhead]

theorem urlExtent_behind {text : Text}
    (hle : ∀ extent, urlExtent (text ++ '/' :: y) = some extent → extent ≤ text.length) :
    urlExtent (text ++ ' ' :: z) = urlExtent (text ++ '/' :: y) := by
  cases hextent : urlExtent (text ++ '/' :: y) with
  | some extent =>
      exact urlExtent_append_of_le (keepsEnd_slash y z) hextent (hle extent hextent)
  | none =>
      obtain ⟨quote, hquote, hmark⟩ := urlExtent_eq_none_iff.1 hextent
      refine urlExtent_eq_none_iff.2 ⟨quote, ?_, hmark⟩
      rw [List.dropWhile_append] at hquote ⊢
      split
      · -- The slash would be the quote.
        rename_i hall
        rw [if_pos hall] at hquote
        rcases hmark with rfl | rfl <;> cases hquote
      · rename_i hall
        rw [if_neg hall] at hquote
        cases hdrop : text.dropWhile isSpace with
        | nil => simp [hdrop] at hall
        | cons c inside =>
            rw [hdrop] at hquote
            exact hquote

/-! ## The first token -/

theorem nameOf_behind {text : Text} (hle : nameExtent (text ++ '/' :: y) ≤ text.length)
    (hsame : nameExtent (text ++ ' ' :: z) = nameExtent (text ++ '/' :: y)) :
    nameOf (text ++ ' ' :: z) = nameOf (text ++ '/' :: y) := by
  rw [nameOf, nameOf, hsame, List.take_append_of_le_length hle, List.take_append_of_le_length hle]

theorem nameExtent_le_firstNamed (text : Text) : nameExtent text ≤ (firstNamed text).2 := by
  rw [firstNamed]
  cases text.drop (nameExtent text) with
  | nil => exact Nat.le_refl _
  | cons c inside =>
      dsimp only
      split
      · exact Nat.le_refl _
      · split
        · cases urlExtent inside with
          | none => exact Nat.le_add_right _ 1
          | some length =>
              dsimp only
              omega
        · exact Nat.le_add_right _ 1

theorem firstNamed_behind {text : Text} (hle : (firstNamed (text ++ '/' :: y)).2 ≤ text.length)
    (hopen : (firstNamed (text ++ '/' :: y)).2 = text.length → endsInEscape text = false) :
    firstNamed (text ++ ' ' :: z) = firstNamed (text ++ '/' :: y) := by
  have hwithin : nameExtent (text ++ '/' :: y) ≤ text.length :=
    (nameExtent_le_firstNamed _).trans hle
  have hextent : nameExtent (text ++ ' ' :: z) = nameExtent (text ++ '/' :: y) := by
    apply nameExtent_behind hwithin
    intro hwhole
    apply hopen
    rw [firstNamed, hwhole, List.drop_left]
    rfl
  have hname := nameOf_behind hwithin hextent
  -- Both texts go on from the same place, with what is left of the stretch in front.
  have hdrop : ∀ rest : Text, (text ++ rest).drop (nameExtent (text ++ '/' :: y)) =
      text.drop (nameExtent (text ++ '/' :: y)) ++ rest :=
    fun rest => List.drop_append_of_le_length hwithin
  rw [firstNamed, hdrop] at hle
  rw [firstNamed, firstNamed, hextent, hname, hdrop, hdrop]
  cases hafter : text.drop (nameExtent (text ++ '/' :: y)) with
  | nil => rfl
  | cons c inside =>
      have hlength := congrArg List.length hafter
      rw [List.length_drop, List.length_cons] at hlength
      rw [hafter] at hle
      simp only [List.cons_append] at hle ⊢
      by_cases hbracket : c ≠ '('
      · rw [if_pos hbracket, if_pos hbracket]
      rw [if_neg hbracket] at hle
      rw [if_neg hbracket, if_neg hbracket]
      -- Only an address reads on behind its bracket.
      by_cases hurl : Text.asciiLower (nameOf (text ++ '/' :: y)) = "url".toList
      · rw [if_pos hurl] at hle
        have hsame : urlExtent (inside ++ ' ' :: z) = urlExtent (inside ++ '/' :: y) := by
          apply urlExtent_behind
          intro extent hextent
          rw [hextent] at hle
          dsimp only at hle
          omega
        rw [if_pos hurl, if_pos hurl, hsame]
      · rw [if_neg hurl, if_neg hurl]

/-- Characters in front that are no backslashes do not matter. -/
theorem endsInEscape_drop {text : Text} (count : Nat) (h : ∀ c ∈ text.take count, c ≠ '\\') :
    endsInEscape (text.drop count) = endsInEscape text := by
  induction count generalizing text with
  | zero => rfl
  | succ count ih =>
      cases text with
      | nil => rfl
      | cons c text =>
          rw [List.take_succ_cons, List.forall_mem_cons] at h
          rw [List.drop_succ_cons, ih h.2]
          conv_rhs => rw [endsInEscape, if_neg h.1]

theorem firstNumeric_behind {text : Text}
    (hle : (firstNumeric (text ++ '/' :: y)).2 ≤ text.length)
    (hopen : (firstNumeric (text ++ '/' :: y)).2 = text.length → endsInEscape text = false) :
    firstNumeric (text ++ ' ' :: z) = firstNumeric (text ++ '/' :: y) := by
  obtain ⟨hwithin, hnumeral⟩ := spans_numeralExtent text
  have hslash := numeralExtent_append text (breaks_slash y)
  have hspace := numeralExtent_append text (breaks_space z)
  -- Numerals have no backslashes, so that only the unit can end in an escape.
  have hescape : endsInEscape (text.drop (numeralExtent text)) = endsInEscape text := by
    apply endsInEscape_drop
    intro c hc
    exact ne_of_class (hnumeral c hc) rfl
  have hlength := List.length_drop (i := numeralExtent text) (l := text)
  -- A percent sign or a name behind the numeral decides the kind, alike in both texts.
  have hhead : (text.drop (numeralExtent text) ++ ' ' :: z).head? = some '%' ↔
      (text.drop (numeralExtent text) ++ '/' :: y).head? = some '%' := by
    cases text.drop (numeralExtent text) <;> simp
  rw [firstNumeric] at hle hopen
  rw [firstNumeric, firstNumeric]
  simp only [hslash, hspace, List.drop_append_of_le_length hwithin, startsName_behind (y := y)]
    at hle hopen ⊢
  by_cases hpercent : (text.drop (numeralExtent text) ++ '/' :: y).head? = some '%'
  · rw [if_pos hpercent, if_pos (hhead.2 hpercent)]
  rw [if_neg hpercent] at hle hopen ⊢
  rw [if_neg fun h => hpercent (hhead.1 h)]
  by_cases hname : startsName (text.drop (numeralExtent text) ++ '/' :: y) = true
  · rw [if_pos hname] at hle hopen ⊢
    dsimp only at hle hopen
    have hunit : nameExtent (text.drop (numeralExtent text) ++ '/' :: y) ≤
        (text.drop (numeralExtent text)).length := by omega
    have hextent : nameExtent (text.drop (numeralExtent text) ++ ' ' :: z) =
        nameExtent (text.drop (numeralExtent text) ++ '/' :: y) := by
      apply nameExtent_behind hunit
      intro hwhole
      rw [hescape]
      exact hopen (by omega)
    rw [if_pos hname, hextent, nameOf_behind hunit hextent]
  · rw [if_neg hname, if_neg hname]

theorem head?_behind {c : Char} (hslash : '/' ≠ c) (hspace : ' ' ≠ c) (text : Text) :
    ((text ++ ' ' :: z).head? = some c) = ((text ++ '/' :: y).head? = some c) := by
  cases text with
  | nil => simp [hslash, hspace]
  | cons d text => rfl

theorem firstHash_behind {text : Text} (hle : (firstHash (text ++ '/' :: y)).2 ≤ text.length + 1)
    (hopen : (firstHash (text ++ '/' :: y)).2 = text.length + 1 → endsInEscape text = false) :
    firstHash (text ++ ' ' :: z) = firstHash (text ++ '/' :: y) := by
  rw [firstHash] at hle hopen
  rw [firstHash, firstHash]
  simp only [startsName_behind (y := y), startsDigit_append text (breaks_slash y),
    startsDigit_append text (breaks_space z),
    head?_behind (y := y) (c := '-') (by decide) (by decide)] at hle hopen ⊢
  split
  · rename_i hname
    rw [if_pos hname] at hle hopen
    dsimp only at hle hopen
    have hwithin : nameExtent (text ++ '/' :: y) ≤ text.length := by omega
    have hextent : nameExtent (text ++ ' ' :: z) = nameExtent (text ++ '/' :: y) :=
      nameExtent_behind hwithin fun hwhole => hopen (by omega)
    rw [hextent, nameOf_behind hwithin hextent]
  · rfl

theorem firstAt_behind {text : Text} (hle : (firstAt (text ++ '/' :: y)).2 ≤ text.length + 1)
    (hopen : (firstAt (text ++ '/' :: y)).2 = text.length + 1 → endsInEscape text = false) :
    firstAt (text ++ ' ' :: z) = firstAt (text ++ '/' :: y) := by
  rw [firstAt] at hle hopen
  rw [firstAt, firstAt, startsName_behind (y := y)]
  split
  · rename_i hname
    rw [if_pos hname] at hle hopen
    dsimp only at hle hopen
    have hwithin : nameExtent (text ++ '/' :: y) ≤ text.length := by omega
    have hextent : nameExtent (text ++ ' ' :: z) = nameExtent (text ++ '/' :: y) :=
      nameExtent_behind hwithin fun hwhole => hopen (by omega)
    rw [hextent, nameOf_behind hwithin hextent]
  · rfl

theorem firstMark_behind (c : Char) (text : Text) :
    firstMark c (text ++ ' ' :: z) = firstMark c (text ++ '/' :: y) := by
  simp only [firstMark, head?_behind (y := y) (c := '=') (by decide) (by decide)]

theorem isPrefixOf_behind {pattern : Text} (hslash : '/' ∉ pattern) (hspace : ' ' ∉ pattern)
    (text : Text) :
    pattern.isPrefixOf (text ++ ' ' :: z) = pattern.isPrefixOf (text ++ '/' :: y) := by
  induction pattern generalizing text with
  | nil => simp
  | cons c pattern ih =>
      rw [List.mem_cons, not_or] at hslash hspace
      cases text with
      | nil =>
          have hslash' : (c == '/') = false := beq_eq_false_iff_ne.2 (Ne.symm hslash.1)
          have hspace' : (c == ' ') = false := beq_eq_false_iff_ne.2 (Ne.symm hspace.1)
          rw [List.nil_append, List.nil_append, List.isPrefixOf, List.isPrefixOf, hslash', hspace']
          rfl
      | cons d text =>
          rw [List.cons_append, List.cons_append, List.isPrefixOf, List.isPrefixOf,
            ih hslash.2 hspace.2]

/-- The slash behind the stretch begins no mark that stands in it. -/
theorem isPrefixOf_comment_behind (c : Char) (text : Text) :
    "/*".toList.isPrefixOf (c :: (text ++ ' ' :: z)) =
      "/*".toList.isPrefixOf (c :: (text ++ '/' :: y)) := by
  have hstar : "*".toList.isPrefixOf (text ++ ' ' :: z) =
      "*".toList.isPrefixOf (text ++ '/' :: y) :=
    isPrefixOf_behind (by decide) (by decide) text
  exact congrArg (fun found => '/' == c && found) hstar

theorem comment_behind {c : Char} {text : Text}
    (hmark : "/*".toList.isPrefixOf (c :: (text ++ '/' :: y)) = true)
    (hle : 2 + commentExtent ((c :: (text ++ '/' :: y)).drop 2) ≤ text.length + 1) :
    commentExtent ((c :: (text ++ ' ' :: z)).drop 2) =
      commentExtent ((c :: (text ++ '/' :: y)).drop 2) := by
  cases text with
  | nil =>
      have hstar : ('*' == '/') = false := rfl
      simp [List.isPrefixOf, hstar] at hmark
  | cons d text =>
      have hdrop : (c :: (d :: text ++ '/' :: y)).drop 2 = text ++ '/' :: y := rfl
      rw [hdrop, List.length_cons] at hle
      exact commentExtent_append_of_le (keepsEnd_slash y z) (by omega)

/-- A first token with a sign in front, be it a hash, an at-sign or another one, that ends within
the stretch is the same before a space, unless it ends, with the stretch, in an escape. -/
theorem firstSign_behind {c : Char} {text : Text}
    (hle : (if c = '#' then firstHash (text ++ '/' :: y)
      else if c = '@' then firstAt (text ++ '/' :: y)
      else firstMark c (text ++ '/' :: y)).2 ≤ text.length + 1)
    (hopen : (if c = '#' then firstHash (text ++ '/' :: y)
      else if c = '@' then firstAt (text ++ '/' :: y)
      else firstMark c (text ++ '/' :: y)).2 = text.length + 1 → endsInEscape (c :: text) = false) :
    (if c = '#' then firstHash (text ++ ' ' :: z)
      else if c = '@' then firstAt (text ++ ' ' :: z)
      else firstMark c (text ++ ' ' :: z)) =
    if c = '#' then firstHash (text ++ '/' :: y)
      else if c = '@' then firstAt (text ++ '/' :: y)
      else firstMark c (text ++ '/' :: y) := by
  have hescape : c ≠ '\\' → endsInEscape (c :: text) = endsInEscape text := by
    intro hne
    rw [endsInEscape, if_neg hne]
  by_cases hhash : c = '#'
  · rw [if_pos hhash] at hle hopen
    rw [hescape (by rw [hhash]; decide)] at hopen
    rw [if_pos hhash, if_pos hhash]
    exact firstHash_behind hle hopen
  rw [if_neg hhash] at hle hopen
  rw [if_neg hhash, if_neg hhash]
  by_cases hat : c = '@'
  · rw [if_pos hat] at hle hopen
    rw [hescape (by rw [hat]; decide)] at hopen
    rw [if_pos hat, if_pos hat]
    exact firstAt_behind hle hopen
  · rw [if_neg hat, if_neg hat]
    exact firstMark_behind c text

/-- A first token that ends within the stretch is the same before a space, unless it is white space
or ends, with the stretch, in an escape. -/
theorem first_behind {c : Char} {text : Text} (hc : isSpace c = false)
    (hle : (first c (text ++ '/' :: y)).2 ≤ text.length + 1)
    (hopen : (first c (text ++ '/' :: y)).2 = text.length + 1 → endsInEscape (c :: text) = false) :
    first c (text ++ ' ' :: z) = first c (text ++ '/' :: y) := by
  have hnumeral : startsNumeral (c :: (text ++ ' ' :: z)) =
      startsNumeral (c :: (text ++ '/' :: y)) := by
    rw [← List.cons_append, ← List.cons_append, startsNumeral_append _ (breaks_space z),
      startsNumeral_append _ (breaks_slash y)]
  have hname : startsName (c :: (text ++ ' ' :: z)) = startsName (c :: (text ++ '/' :: y)) :=
    startsName_behind (c :: text)
  have hclose : "-->".toList.isPrefixOf (c :: (text ++ ' ' :: z)) =
      "-->".toList.isPrefixOf (c :: (text ++ '/' :: y)) :=
    isPrefixOf_behind (by decide) (by decide) (c :: text)
  have hdocument : "<!--".toList.isPrefixOf (c :: (text ++ ' ' :: z)) =
      "<!--".toList.isPrefixOf (c :: (text ++ '/' :: y)) :=
    isPrefixOf_behind (by decide) (by decide) (c :: text)
  have hcomment : "/*".toList.isPrefixOf (c :: (text ++ ' ' :: z)) =
      "/*".toList.isPrefixOf (c :: (text ++ '/' :: y)) :=
    isPrefixOf_comment_behind c text
  -- Both texts go the same way, and each reading ends within the stretch.
  simp only [first, hc, Bool.false_eq_true, if_false, hnumeral, hname, hclose, hdocument, hcomment]
    at hle hopen ⊢
  by_cases hquote : c = '"' ∨ c = '\''
  · rw [if_pos hquote] at hle
    dsimp only at hle
    have hstring : stringExtent c (text ++ ' ' :: z) = stringExtent c (text ++ '/' :: y) :=
      stringExtent_append_of_le (keepsEnd_slash y z) (by omega)
    rw [if_pos hquote, if_pos hquote, hstring]
  rw [if_neg hquote] at hle hopen ⊢
  rw [if_neg hquote]
  split
  · rename_i h
    rw [if_pos h] at hle hopen
    have hnumeric : firstNumeric (c :: text ++ ' ' :: z) = firstNumeric (c :: text ++ '/' :: y) :=
      firstNumeric_behind hle hopen
    exact hnumeric
  rename_i h
  rw [if_neg h] at hle hopen
  split
  · rfl
  rename_i h
  rw [if_neg h] at hle hopen
  split
  · rename_i h
    rw [if_pos h] at hle hopen
    have hnamed : firstNamed (c :: text ++ ' ' :: z) = firstNamed (c :: text ++ '/' :: y) :=
      firstNamed_behind hle hopen
    exact hnamed
  rename_i h
  rw [if_neg h] at hle hopen
  split
  · rfl
  rename_i h
  rw [if_neg h] at hle hopen
  split
  · rename_i h
    rw [if_pos h] at hle
    rw [comment_behind h hle]
  rename_i h
  rw [if_neg h] at hle hopen
  exact firstSign_behind hle hopen

end UtilityCss.Token
