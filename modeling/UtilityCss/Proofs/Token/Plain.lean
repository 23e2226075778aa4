import UtilityCss.Proofs.Token.Locality

/-!
# The tokens of plain texts

A plain stretch is like a plain text, but it may have blanks at its ends and open brackets. Its
ends are plain stretches again (`PlainStretch.of_suffix`), and so is a plain text with a space in
front (`PlainStretch.cons`). The tokens of a plain stretch are plain (`isPlain_of_mem_ofText`), and
they are the same whatever stands behind the stretch (`ofText_append`).

* `Token.IsPlain` says what a token of a plain text is like: it opens or closes a round bracket,
  or it does nothing of the kind and has no bracket in its text.
* `Token.Balanced` says that tokens are plain and close the round brackets they open, in order.
* `Token.Closes` says the same of tokens that stand under open brackets.

A text is framed when its tokens are the same whatever stands behind it, as far as this begins in
a way that is known beforehand. A framed text contributes its own tokens to the text it stands in
(`Framed.append`). A plain stretch is framed (`framed_of_plainStretch`), and a plain text has
balanced tokens (`balanced_ofText`).
-/

set_option autoImplicit false

namespace UtilityCss.Token

/-! ## Plain stretches -/

section Stretches

open Text (contains asciiLower urlOpening contains_eq_true_iff)

/-- A stretch of plain characters in which no address begins. -/
structure PlainStretch (text : Text) : Prop where
  isPlainChar : ∀ c ∈ text, Text.isPlainChar c = true
  no_url : contains urlOpening (asciiLower text) = false

namespace PlainStretch

variable {text : Text}

theorem of_isPlain (h : text.IsPlain) : PlainStretch text :=
  ⟨h.isPlainChar, h.no_url⟩

theorem not_mem (h : PlainStretch text) {c : Char} (hc : Text.isPlainChar c = false) :
    c ∉ text := by
  intro hmem
  exact ne_of_class (h.isPlainChar c hmem) hc rfl

theorem of_suffix {after : Text} (h : PlainStretch text) (hsuffix : after <:+ text) :
    PlainStretch after := by
  obtain ⟨before, rfl⟩ := hsuffix
  refine ⟨fun c hc => h.isPlainChar c (List.mem_append_right before hc), ?_⟩
  rw [Bool.eq_false_iff]
  intro hurl
  rw [contains_eq_true_iff] at hurl
  have hinfix : urlOpening <:+: asciiLower (before ++ after) := by
    rw [asciiLower, List.map_append]
    exact hurl.trans (List.suffix_append _ _).isInfix
  rw [← contains_eq_true_iff, h.no_url] at hinfix
  cases hinfix

theorem head {c : Char} (h : PlainStretch (c :: text)) : Text.isPlainChar c = true :=
  h.isPlainChar c List.mem_cons_self

/-- A character that does not begin an address may stand in front. -/
theorem cons {c : Char} (hc : Text.isPlainChar c = true) (hletter : c.toLower ≠ 'u')
    (h : PlainStretch text) : PlainStretch (c :: text) := by
  refine ⟨?_, ?_⟩
  · rw [List.forall_mem_cons]
    exact ⟨hc, h.isPlainChar⟩
  · have hlead : urlOpening.isPrefixOf (c.toLower :: asciiLower text) = false := by
      simp [urlOpening, List.isPrefixOf, Ne.symm hletter]
    have hnone := h.no_url
    rw [asciiLower] at hnone
    rw [asciiLower, List.map_cons, contains]
    rw [asciiLower] at hlead
    rw [hlead, hnone, Bool.or_self]

end PlainStretch

end Stretches

/-! ## The first token -/

/-- Two hyphens in a plain text do not close a comment of the embedding document. -/
theorem not_documentClose {c : Char} {text rest : Text} (h : PlainStretch (c :: text))
    (hrest : Stops rest) : "-->".toList.isPrefixOf (c :: (text ++ rest)) = false := by
  rw [Bool.eq_false_iff]
  intro hlead
  obtain ⟨after, hafter⟩ := List.isPrefixOf_iff_prefix.1 hlead
  have hmark : ∀ d ∈ c :: text, d ≠ '>' := fun d hd =>
    ne_of_class (h.isPlainChar d hd) rfl
  have hstop : ∀ d ∈ rest.head?, d ≠ '-' ∧ d ≠ '>' := by
    intro d hd
    rcases hrest d hd with rfl | rfl | rfl <;> decide
  have hlist : '-' :: '-' :: '>' :: after = c :: (text ++ rest) := hafter
  obtain ⟨-, hlist⟩ := List.cons.inj hlist
  -- The mark would end in the stretch or begin what stands behind it.
  rcases text with _ | ⟨d, _ | ⟨e, text⟩⟩
  · have hlist : '-' :: '>' :: after = rest := hlist
    exact (hstop '-' (by rw [← hlist]; rfl)).1 rfl
  · obtain ⟨-, hlist⟩ := List.cons.inj hlist
    have hlist : '>' :: after = rest := hlist
    exact (hstop '>' (by rw [← hlist]; rfl)).2 rfl
  · obtain ⟨-, hlist⟩ := List.cons.inj hlist
    exact hmark e (by simp) (List.cons.inj hlist).1.symm

/-- The first token of a text that begins with a plain character. -/
theorem first_of_isPlainChar {c : Char} {rest : Text} (hc : Text.isPlainChar c = true)
    (hdocument : "-->".toList.isPrefixOf (c :: rest) = false) :
    first c rest =
      if isSpace c then (.space, spaceExtent (c :: rest))
      else if startsNumeral (c :: rest) then firstNumeric (c :: rest)
      else if startsName (c :: rest) then firstNamed (c :: rest)
      else if c = '#' then firstHash rest
      else firstMark c rest := by
  have hne : ∀ d, Text.isPlainChar d = false → c ≠ d := fun _ hd => ne_of_class hc hd
  have hquote : ¬ (c = '"' ∨ c = '\'') :=
    not_or.2 ⟨hne _ rfl, hne _ rfl⟩
  have hopen : "<!--".toList.isPrefixOf (c :: rest) = false := by
    have := hne '<' rfl
    simp [List.isPrefixOf, Ne.symm this]
  have hcomment : "/*".toList.isPrefixOf (c :: rest) = false := by
    have := hne '/' rfl
    simp [List.isPrefixOf, Ne.symm this]
  have hat : c ≠ '@' := hne _ rfl
  simp only [first, hquote, hdocument, hopen, hcomment, hat, if_false, Bool.false_eq_true]

/-- A name without escapes takes its characters. -/
theorem nameExtent_of_not_mem {text : Text} (hslash : '\\' ∉ text) :
    nameExtent text = (text.takeWhile isNameChar).length := by
  have h := nameExtent_append hslash stops_nil.endsName
  rwa [List.append_nil] at h

theorem nameOf_of_not_mem {text : Text} (hslash : '\\' ∉ text) (hnull : '\x00' ∉ text) :
    nameOf text = text.takeWhile isNameChar := by
  have h := nameOf_append hslash hnull stops_nil.endsName
  rwa [List.append_nil] at h

section Plain

variable {text rest : Text}

theorem PlainStretch.nameExtent_eq (h : PlainStretch text) :
    nameExtent text = (text.takeWhile isNameChar).length :=
  nameExtent_of_not_mem (h.not_mem rfl)

theorem PlainStretch.nameOf_eq (h : PlainStretch text) :
    nameOf text = text.takeWhile isNameChar :=
  nameOf_of_not_mem (h.not_mem rfl) (h.not_mem rfl)

theorem PlainStretch.nameExtent_append (h : PlainStretch text) (hrest : Stops rest) :
    nameExtent (text ++ rest) = nameExtent text := by
  rw [h.nameExtent_eq, Token.nameExtent_append (h.not_mem rfl) hrest.endsName]

theorem PlainStretch.nameOf_append (h : PlainStretch text) (hrest : Stops rest) :
    nameOf (text ++ rest) = nameOf text := by
  rw [h.nameOf_eq,
    Token.nameOf_append (h.not_mem rfl) (h.not_mem rfl) hrest.endsName]

theorem PlainStretch.startsName_append (h : PlainStretch text) (hrest : Stops rest) :
    startsName (text ++ rest) = startsName text :=
  Token.startsName_append (h.not_mem rfl) hrest

/-- A mark other than those of blocks is in front of a stretch or nowhere. -/
theorem head?_append_eq_some (mark : Char) (hmark : mark ≠ '{' ∧ mark ≠ '}' ∧ mark ≠ ';')
    (hrest : Stops rest) : (text ++ rest).head? = some mark ↔ text.head? = some mark := by
  cases text with
  | cons c text => rfl
  | nil =>
      rw [List.nil_append]
      constructor
      · intro hhead
        rcases hrest mark hhead with h | h | h
        · exact absurd h hmark.1
        · exact absurd h hmark.2.1
        · exact absurd h hmark.2.2
      · intro hhead
        cases hhead

theorem firstNumeric_append (h : PlainStretch text) (hrest : Stops rest) :
    firstNumeric (text ++ rest) = firstNumeric text := by
  have hafter : PlainStretch (text.drop (numeralExtent text)) :=
    h.of_suffix (List.drop_suffix _ _)
  rw [firstNumeric, firstNumeric]
  simp only [numeralExtent_append text hrest.breaks,
    List.drop_append_of_le_length (spans_numeralExtent text).1,
    head?_append_eq_some '%' (by decide) hrest, hafter.startsName_append hrest,
    hafter.nameOf_append hrest, hafter.nameExtent_append hrest]

/-- A name in front of an opening bracket is not the name of an address. -/
theorem PlainStretch.name_ne_url (h : PlainStretch text) {inside : Text}
    (hdrop : text.drop (nameExtent text) = '(' :: inside) :
    Text.asciiLower (nameOf text) ≠ "url".toList := by
  intro hname
  -- The name and its bracket would stand in the stretch as they are written.
  have htake : text.take (nameExtent text) = nameOf text := by
    rw [h.nameExtent_eq, h.nameOf_eq]
    exact (List.prefix_iff_eq_take.1 (List.takeWhile_prefix isNameChar)).symm
  have hsplit : nameOf text ++ '(' :: inside = text := by
    rw [← htake, ← hdrop]
    exact List.take_append_drop (nameExtent text) text
  have hlower : Text.asciiLower text =
      Text.asciiLower (nameOf text) ++ '(' :: Text.asciiLower inside := by
    conv_lhs => rw [← hsplit]
    simp [Text.asciiLower]
  have hinfix : Text.urlOpening <:+: Text.asciiLower text := by
    rw [hlower, hname]
    exact ⟨[], Text.asciiLower inside, rfl⟩
  rw [← Text.contains_eq_true_iff, h.no_url] at hinfix
  cases hinfix

/-- A name in a plain stretch is an identifier, or a function where a bracket follows it. -/
theorem firstNamed_append_eq (h : PlainStretch text) (hrest : Stops rest) :
    firstNamed (text ++ rest) =
      if (text.drop (nameExtent text)).head? = some '(' then
        (.function (nameOf text), nameExtent text + 1)
      else (.ident (nameOf text), nameExtent text) := by
  have hle : nameExtent text ≤ text.length := by
    rw [h.nameExtent_eq]
    exact (List.takeWhile_sublist _).length_le
  rw [firstNamed, h.nameExtent_append hrest, h.nameOf_append hrest,
    List.drop_append_of_le_length hle]
  cases hdrop : text.drop (nameExtent text) with
  | cons c inside =>
      by_cases hc : c = '('
      · subst hc
        -- The name of an address would read on behind the bracket.
        have hname := h.name_ne_url hdrop
        simp only [List.cons_append, ne_eq, not_true_eq_false, if_false, if_neg hname,
          List.head?_cons, if_true]
      · simp [hc]
  | nil =>
      cases rest with
      | nil => rfl
      | cons c rest =>
          have hc : c ≠ '(' := by
            rcases hrest c rfl with rfl | rfl | rfl <;> decide
          simp [hc]

theorem firstNamed_eq (h : PlainStretch text) :
    firstNamed text =
      if (text.drop (nameExtent text)).head? = some '(' then
        (.function (nameOf text), nameExtent text + 1)
      else (.ident (nameOf text), nameExtent text) := by
  have hnamed := firstNamed_append_eq h stops_nil
  rwa [List.append_nil] at hnamed

theorem firstHash_append (h : PlainStretch text) (hrest : Stops rest) :
    firstHash (text ++ rest) = firstHash text := by
  rw [firstHash, firstHash]
  simp only [h.startsName_append hrest, startsDigit_append text hrest.breaks,
    head?_append_eq_some '-' (by decide) hrest, h.nameOf_append hrest,
    h.nameExtent_append hrest]

/-- The first token of a plain stretch is the same whatever stands behind the stretch. -/
theorem first_append {c : Char} (h : PlainStretch (c :: text)) (hrest : Stops rest) :
    first c (text ++ rest) = first c text := by
  have htail : PlainStretch text := h.of_suffix (List.suffix_cons c text)
  have hdocument := not_documentClose h hrest
  have hdocument' := not_documentClose h stops_nil
  rw [List.append_nil] at hdocument'
  have hmark : firstMark c (text ++ rest) = firstMark c text := by
    rw [firstMark, firstMark]
    simp only [head?_append_eq_some '=' (by decide) hrest]
  rw [first_of_isPlainChar h.head hdocument, first_of_isPlainChar h.head hdocument',
    ← List.cons_append, spaceExtent_append _ hrest, startsNumeral_append _ hrest.breaks,
    firstNumeric_append h hrest, h.startsName_append hrest, firstNamed_append_eq h hrest,
    firstNamed_eq h, firstHash_append htail hrest, hmark]

end Plain

/-! ## What the tokens are like -/

/-- A character that is no round bracket. -/
def isInner (c : Char) : Bool :=
  c != '(' && c != ')'

/-- A token that opens or closes a round bracket with its last character, or has none. -/
inductive IsPlain : Token → Prop
  | inner {kind : Kind} {source : Text} : kind.opens? = none → kind.closes? = none →
      kind ≠ .semicolon → source.all isInner = true → IsPlain ⟨kind, source⟩
  | opening {kind : Kind} {source : Text} : kind.opens? = some .round →
      source.all isInner = true → IsPlain ⟨kind, source ++ ['(']⟩
  | closing : IsPlain ⟨.closing .round, [')']⟩

/-- A kind and an extent that make a plain token in front of a text. -/
def ReadsPlain (text : Text) (token : Kind × Nat) : Prop :=
  1 ≤ token.2 ∧ token.2 ≤ text.length ∧ IsPlain ⟨token.1, text.take token.2⟩

section ReadsPlain

variable {text : Text} {extent : Nat} {kind : Kind}

theorem ReadsPlain.inner (hpos : 1 ≤ extent) (hspan : Spans isInner extent text)
    (hopens : kind.opens? = none) (hcloses : kind.closes? = none)
    (hsemicolon : kind ≠ .semicolon) : ReadsPlain text (kind, extent) :=
  ⟨hpos, hspan.1, .inner hopens hcloses hsemicolon (List.all_eq_true.2 hspan.2)⟩

theorem ReadsPlain.opening (hspan : Spans isInner extent text)
    (hhead : (text.drop extent).head? = some '(') (hopens : kind.opens? = some .round) :
    ReadsPlain text (kind, extent + 1) := by
  have hlt : extent < text.length := by
    by_contra hge
    rw [List.drop_of_length_le (by omega)] at hhead
    cases hhead
  have hget : text[extent] = '(' := by
    rw [List.head?_drop, List.getElem?_eq_getElem hlt] at hhead
    exact Option.some.inj hhead
  refine ⟨by simp, hlt, ?_⟩
  simp only [List.take_succ_eq_append_getElem hlt, hget]
  exact .opening hopens (List.all_eq_true.2 hspan.2)

end ReadsPlain

theorem Spans.mono {p q : Char → Bool} {count : Nat} {text : Text} (h : Spans p count text)
    (himp : ∀ c, p c = true → q c = true) : Spans q count text :=
  ⟨h.1, fun c hc => himp c (h.2 c hc)⟩

/-- A class without round brackets holds inner characters only. -/
theorem isInner_of_class {p : Char → Bool} (hopen : p '(' = false) (hclose : p ')' = false)
    (c : Char) (hc : p c = true) : isInner c = true := by
  simp [isInner, ne_of_class hc hopen, ne_of_class hc hclose]

section First

variable {text : Text}

theorem spans_spaceExtent : Spans isInner (spaceExtent text) text :=
  Spans.takeWhile (isInner_of_class rfl rfl)

theorem PlainStretch.spans_nameExtent (h : PlainStretch text) :
    Spans isInner (nameExtent text) text := by
  rw [h.nameExtent_eq]
  exact Spans.takeWhile (isInner_of_class rfl rfl)

theorem readsPlain_firstNamed (h : PlainStretch text) (hname : startsName text = true) :
    ReadsPlain text (firstNamed text) := by
  rw [firstNamed_eq h]
  split
  · rename_i hhead
    exact .opening h.spans_nameExtent hhead rfl
  · exact .inner (nameExtent_pos hname) h.spans_nameExtent rfl rfl (by simp)

theorem readsPlain_firstNumeric (h : PlainStretch text) (hnumeral : startsNumeral text = true) :
    ReadsPlain text (firstNumeric text) := by
  have hpos := numeralExtent_pos hnumeral
  have hspan : Spans isInner (numeralExtent text) text :=
    (spans_numeralExtent text).mono (isInner_of_class rfl rfl)
  rw [firstNumeric]
  split
  · rename_i hhead
    refine .inner (by omega) (hspan.add ?_) rfl rfl (by simp)
    cases hdrop : text.drop (numeralExtent text) with
    | nil =>
        rw [hdrop] at hhead
        cases hhead
    | cons c after =>
        rw [hdrop] at hhead
        cases hhead
        exact Spans.one rfl
  · split
    · have hafter : PlainStretch (text.drop (numeralExtent text)) :=
        h.of_suffix (List.drop_suffix _ _)
      exact .inner (by omega) (hspan.add hafter.spans_nameExtent) rfl rfl (by simp)
    · exact .inner hpos hspan rfl rfl (by simp)

theorem readsPlain_one {c : Char} {kind : Kind} (hc : isInner c = true)
    (hopens : kind.opens? = none) (hcloses : kind.closes? = none)
    (hsemicolon : kind ≠ .semicolon) : ReadsPlain (c :: text) (kind, 1) :=
  .inner le_rfl (Spans.one hc) hopens hcloses hsemicolon

theorem readsPlain_firstHash (h : PlainStretch text) :
    ReadsPlain ('#' :: text) (firstHash text) := by
  rw [firstHash]
  split
  · exact .inner (by omega) (Spans.cons rfl h.spans_nameExtent) rfl rfl (by simp)
  · exact readsPlain_one rfl rfl rfl (by simp)

theorem readsPlain_firstMark {c : Char} (h : PlainStretch (c :: text)) :
    ReadsPlain (c :: text) (firstMark c text) := by
  have hne : ∀ d, Text.isPlainChar d = false → c ≠ d := fun _ hd => ne_of_class h.head hd
  have hequals : text.head? ≠ some '=' := by
    intro hhead
    exact h.not_mem (c := '=') rfl
      (List.mem_cons_of_mem c (List.mem_of_mem_head? (by rw [hhead]; rfl)))
  -- Of all marks only those remain that a plain stretch may have.
  simp only [firstMark, hne ';' rfl, hne '[' rfl, hne '{' rfl,
    hne ']' rfl, hne '}' rfl, hequals, if_false, decide_false, Bool.and_false,
    Bool.false_eq_true]
  split
  · rename_i hc
    subst hc
    exact readsPlain_one rfl rfl rfl (by simp)
  · split
    · rename_i hc
      subst hc
      exact readsPlain_one rfl rfl rfl (by simp)
    · split
      · rename_i hc
        subst hc
        have hspan : Spans isInner 0 ('(' :: text) := Spans.zero
        exact .opening hspan rfl rfl
      · rename_i hopen
        split
        · rename_i hc
          subst hc
          exact ⟨le_rfl, by simp, .closing⟩
        · rename_i hclose
          exact readsPlain_one (by simp [isInner, hopen, hclose]) rfl rfl (by simp)

/-- The first token of a plain stretch is plain. -/
theorem readsPlain_first {c : Char} (h : PlainStretch (c :: text)) :
    ReadsPlain (c :: text) (first c text) := by
  have hdocument := not_documentClose h stops_nil
  rw [List.append_nil] at hdocument
  rw [first_of_isPlainChar h.head hdocument]
  split
  · rename_i hspace
    have hpos : 1 ≤ spaceExtent (c :: text) := by
      rw [spaceExtent, List.takeWhile_cons_of_pos hspace]
      simp
    exact .inner hpos spans_spaceExtent rfl rfl (by simp)
  · split
    · rename_i hnumeral
      exact readsPlain_firstNumeric h hnumeral
    · split
      · rename_i hname
        exact readsPlain_firstNamed h hname
      · split
        · rename_i hc
          subst hc
          exact readsPlain_firstHash (h.of_suffix (List.suffix_cons _ _))
        · exact readsPlain_firstMark h

end First

/-! ## Framed texts -/

/-- The tokens of a text in front of anything that begins in a given way. -/
def Framed (before : Text → Prop) (text : Text) (tokens : List Token) : Prop :=
  ∀ rest, before rest → ofText (text ++ rest) = tokens ++ ofText rest

/-- Any text may stand behind. -/
def Anything (_ : Text) : Prop := True

theorem Framed.append {before before' : Text → Prop} {text text' : Text}
    {tokens tokens' : List Token} (h : Framed before text tokens)
    (h' : Framed before' text' tokens') (himp : ∀ rest, before' rest → before (text' ++ rest)) :
    Framed before' (text ++ text') (tokens ++ tokens') := by
  intro rest hrest
  rw [List.append_assoc, h _ (himp rest hrest), h' rest hrest, List.append_assoc]

theorem framed_nil {before : Text → Prop} : Framed before [] [] := by
  intro rest _
  rfl

/-- The mark that begins a text is a token of its own. -/
theorem framed_mark {mark : Char} {kind : Kind} (h : ∀ rest, first mark rest = (kind, 1)) :
    Framed Anything [mark] [⟨kind, [mark]⟩] := by
  intro rest _
  rw [List.cons_append, List.nil_append, ofText, h]
  simp

/-- A plain stretch has its tokens in front of the marks of blocks. -/
theorem framed_of_plainStretch {text : Text} (h : PlainStretch text) :
    Framed Stops text (ofText text) := by
  intro rest hrest
  fun_induction ofText text with
  | case1 => rfl
  | case2 c text token ih =>
      obtain ⟨hpos, hle, -⟩ := readsPlain_first h
      rw [List.length_cons] at hle
      have htoken : token.2 - 1 ≤ text.length := by
        have : token.2 ≤ text.length + 1 := hle
        omega
      have hafter : PlainStretch (text.drop (token.2 - 1)) :=
        h.of_suffix ((List.drop_suffix _ _).trans (List.suffix_cons c text))
      rw [List.cons_append, ofText, first_append h hrest, List.cons_append, ← ih hafter]
      simp only [List.take_append_of_le_length htoken, List.drop_append_of_le_length htoken, token]

/-! ## Brackets -/

/-- Plain tokens that close the round brackets they open, and no others. -/
inductive Balanced : List Token → Prop
  | nil : Balanced []
  | inner {token : Token} {rest : List Token} : token.kind.opens? = none →
      token.kind.closes? = none → token.kind ≠ .semicolon → Balanced rest →
        Balanced (token :: rest)
  | block {opener closer : Token} {inside rest : List Token} :
      opener.kind.opens? = some .round → closer.kind = .closing .round → Balanced inside →
        Balanced rest → Balanced (opener :: (inside ++ closer :: rest))

/-- Plain tokens that close so many round brackets before them, and all their own. -/
inductive Closes : Nat → List Token → Prop
  | zero {tokens : List Token} : Balanced tokens → Closes 0 tokens
  | succ {depth : Nat} {closer : Token} {inside rest : List Token} :
      closer.kind = .closing .round → Balanced inside → Closes depth rest →
        Closes (depth + 1) (inside ++ closer :: rest)

namespace Closes

variable {depth : Nat} {token : Token} {tokens : List Token}

theorem inner (hopens : token.kind.opens? = none) (hcloses : token.kind.closes? = none)
    (hsemicolon : token.kind ≠ .semicolon) (h : Closes depth tokens) :
    Closes depth (token :: tokens) := by
  cases h with
  | zero hbalanced => exact .zero (.inner hopens hcloses hsemicolon hbalanced)
  | succ hkind hinside hrest =>
      exact .succ hkind (.inner hopens hcloses hsemicolon hinside) hrest

/-- An opening bracket is closed by the first of the brackets behind it. -/
theorem opening (hopens : token.kind.opens? = some .round) (h : Closes (depth + 1) tokens) :
    Closes depth (token :: tokens) := by
  cases h with
  | succ hkind hinside hrest =>
      cases hrest with
      | zero hbalanced => exact .zero (.block hopens hkind hinside hbalanced)
      | succ hkind' hinside' hrest' =>
          have hblock := Closes.succ hkind' (.block hopens hkind hinside hinside') hrest'
          simpa using hblock

end Closes

theorem balancedFrom_append_of_inner {source : Text} (h : source.all isInner = true)
    (depth : Nat) (rest : Text) :
    Text.balancedFrom depth (source ++ rest) = Text.balancedFrom depth rest := by
  induction source with
  | nil => rfl
  | cons c source ih =>
      rw [List.all_cons, Bool.and_eq_true] at h
      obtain ⟨hc, hsource⟩ := h
      have hne : c ≠ '(' ∧ c ≠ ')' := by simpa [isInner] using hc
      rw [List.cons_append, Text.balancedFrom, if_neg hne.1, if_neg hne.2, ih hsource]

/-- The tokens of a plain stretch close the brackets that its text closes. -/
theorem closes_ofText (depth : Nat) {text : Text} (h : PlainStretch text)
    (hbalanced : Text.balancedFrom depth text = true) : Closes depth (ofText text) := by
  -- The depth is the number of brackets that the text before has left open.
  fun_induction ofText text generalizing depth with
  | case1 =>
      have hdepth : depth = 0 := by simpa [Text.balancedFrom] using hbalanced
      subst hdepth
      exact .zero .nil
  | case2 c text token ih =>
      obtain ⟨hpos, -, hplain⟩ := readsPlain_first h
      change 1 ≤ token.2 at hpos
      change IsPlain ⟨token.1, (c :: text).take token.2⟩ at hplain
      have htake : (c :: text).take token.2 = c :: text.take (token.2 - 1) := List.take_cons hpos
      have hafter : PlainStretch (text.drop (token.2 - 1)) :=
        h.of_suffix ((List.drop_suffix _ _).trans (List.suffix_cons c text))
      have hsplit : (c :: text.take (token.2 - 1)) ++ text.drop (token.2 - 1) = c :: text := by
        rw [List.cons_append, List.take_append_drop]
      -- From here on only the form of the token matters, not how it was read.
      rw [← hsplit] at hbalanced
      rw [htake] at hplain
      generalize c :: text.take (token.2 - 1) = source at hplain hbalanced ⊢
      generalize token.1 = kind at hplain ⊢
      cases hplain with
      | inner hopens hcloses hsemicolon hinner =>
          rw [balancedFrom_append_of_inner hinner] at hbalanced
          exact .inner hopens hcloses hsemicolon (ih _ hafter hbalanced)
      | opening hopens hinner =>
          rw [List.append_assoc, balancedFrom_append_of_inner hinner] at hbalanced
          exact .opening hopens (ih _ hafter hbalanced)
      | closing =>
          cases depth with
          | zero => simp [Text.balancedFrom] at hbalanced
          | succ depth =>
              have hrest : Text.balancedFrom depth (text.drop (token.2 - 1)) = true := by
                simpa [Text.balancedFrom] using hbalanced
              have hkind : Token.kind ⟨.closing .round, [')']⟩ = .closing .round := rfl
              exact Closes.succ hkind .nil (ih _ hafter hrest)

theorem balanced_ofText {text : Text} (h : PlainStretch text)
    (hbalanced : Text.balancedFrom 0 text = true) : Balanced (ofText text) := by
  cases closes_ofText 0 h hbalanced with
  | zero hzero => exact hzero

end UtilityCss.Token
