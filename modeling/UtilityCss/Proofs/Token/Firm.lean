import UtilityCss.Proofs.Token.Cut

/-!
# Firm tokens

A firm token is read the same if another text follows (`ofText_of_isFirm`), provided that this text
keeps the end of the input and of the line. Only a function whose name is that of addresses looks at
what stands behind its bracket.

A name that loose text ends in makes a function with the bracket behind it (`Cut.ofText_round`).
-/

set_option autoImplicit false

namespace UtilityCss.Token

variable {text behind behind' : Text}

/-! ## Names in front of a bracket -/

/-- Where a name could be read, a hyphen may still begin a numeral or a closing mark. -/
theorem first_of_startsName {c : Char} {rest : Text} (h : startsName (c :: rest) = true) :
    first c rest =
      if startsNumeral (c :: rest) = true then firstNumeric (c :: rest)
      else if "-->".toList.isPrefixOf (c :: rest) = true then (.documentClose, 3)
      else firstNamed (c :: rest) := by
  have hquiet := isQuiet_of_startsName h c rfl
  have hspace : isSpace c = false := by
    simp only [isQuiet, Bool.and_eq_true, Bool.not_eq_true'] at hquiet
    exact hquiet.1.2
  have hquote : ¬ (c = '"' ∨ c = '\'') := by
    rintro (rfl | rfl) <;> exact absurd h (by rw [startsName_of_ne] <;> decide)
  simp only [first, hspace, hquote, h, Bool.false_eq_true, if_false, if_true]

/-- A name is read in front of the text, no numeral and no closing mark. -/
structure ReadsName (text : Text) : Prop where
  numeral : startsNumeral text = false
  documentClose : "-->".toList.isPrefixOf text = false
  name : startsName text = true

theorem ReadsName.first {c : Char} {rest : Text} (h : ReadsName (c :: rest)) :
    first c rest = firstNamed (c :: rest) := by
  rw [first_of_startsName h.name, h.numeral, h.documentClose, if_neg Bool.false_ne_true,
    if_neg Bool.false_ne_true]

/-- Identifiers, functions and addresses come from the reading of a name. -/
theorem readsName_of_kind {c : Char} {rest : Text} (hname : startsName (c :: rest) = true)
    (hkind : (first c rest).1.isFirm = true ∨ (first c rest).1.isName = true) :
    ReadsName (c :: rest) := by
  rw [first_of_startsName hname] at hkind
  split at hkind
  · rw [isFirm_firstNumeric, isName_firstNumeric] at hkind
    simp at hkind
  split at hkind
  · simp [Kind.isFirm, Kind.isName] at hkind
  · rename_i hnumeral hclose
    exact ⟨Bool.eq_false_iff.2 hnumeral, Bool.eq_false_iff.2 hclose, hname⟩

theorem Cut.readsName_iff (h : Cut text behind) (hne : text ≠ []) :
    ReadsName (text ++ behind) ↔ ReadsName text := by
  cases text with
  | nil => exact absurd rfl hne
  | cons c rest =>
      have hclose := h.documentClose
      rw [← List.cons_append] at hclose
      constructor
      · rintro ⟨hnumeral, hdocument, hname⟩
        exact ⟨by rwa [← h.startsNumeral hne], by rwa [← hclose], by rwa [← h.startsName]⟩
      · rintro ⟨hnumeral, hdocument, hname⟩
        exact ⟨by rwa [h.startsNumeral hne], by rwa [hclose], by rwa [h.startsName]⟩

/-- What is read where a whole name stands in front of a bracket. -/
theorem Cut.firstNamed_round {inside : Text} (h : Cut text ('(' :: inside))
    (hwhole : Token.nameExtent text = text.length) :
    Token.firstNamed (text ++ '(' :: inside) =
      if Text.asciiLower (Token.nameOf text) = "url".toList then
        match urlExtent inside with
        | some length => (.url, text.length + 1 + length)
        | none => (.function (Token.nameOf text), text.length + 1)
      else (.function (Token.nameOf text), text.length + 1) := by
  rw [Token.firstNamed, h.nameExtent, h.nameOf, hwhole, List.drop_left]
  rfl

/-- A whole name in front of `behind`. -/
structure IsWord (word behind : Text) : Prop where
  cut : Cut word behind
  whole : nameExtent word = word.length
  reads : ReadsName word

/-- A name makes a function, or an address, with the bracket behind it. -/
theorem IsWord.first {c : Char} {rest inside : Text} (h : IsWord (c :: rest) ('(' :: inside)) :
    first c (rest ++ '(' :: inside) =
      if Text.asciiLower (nameOf (c :: rest)) = "url".toList then
        match urlExtent inside with
        | some length => (.url, rest.length + 2 + length)
        | none => (.function (nameOf (c :: rest)), rest.length + 2)
      else (.function (nameOf (c :: rest)), rest.length + 2) := by
  have hround : ReadsName (c :: (rest ++ '(' :: inside)) :=
    (h.cut.readsName_iff (List.cons_ne_nil c rest)).2 h.reads
  rw [hround.first, ← List.cons_append, h.cut.firstNamed_round h.whole]
  rfl

/-- The characters of a name are loose, whatever stands behind its bracket. -/
theorem cut_take_nameExtent {inside : Text}
    (h : text.drop (nameExtent text) = '(' :: inside) (inside' : Text) :
    Cut (text.take (nameExtent text)) ('(' :: inside') := by
  refine ⟨?_, Or.inl fun c hc => ?_⟩
  · have hunits := units_take_nameExtent text
    rw [h] at hunits
    have hunits' : Units InName ('(' :: inside') (text.take (nameExtent text)) :=
      hunits.congr (Follows.of_head? rfl) fun c rest hc => hc
    refine hunits'.mono fun c after hc => ?_
    exact isLoose_of_isSafe (isSafe_of_class (p := isNameChar) (by decide) hc) after
  · obtain rfl : '(' = c := by simpa using hc
    exact Or.inl (by decide)

/-- What is read up to a bracket is a whole name, also if something else stands inside. -/
theorem exists_isWord {c : Char} {rest inside : Text} (hreads : ReadsName (c :: rest))
    (hdrop : (c :: rest).drop (nameExtent (c :: rest)) = '(' :: inside) :
    ∃ word, rest = word ++ '(' :: inside ∧ ∀ inside', IsWord (c :: word) ('(' :: inside') := by
  have hcut := cut_take_nameExtent hdrop
  have hsplit := List.take_append_drop (nameExtent (c :: rest)) (c :: rest)
  rw [hdrop] at hsplit
  obtain ⟨word, hword⟩ : ∃ word, (c :: rest).take (nameExtent (c :: rest)) = c :: word := by
    obtain ⟨count, hcount⟩ := Nat.exists_eq_add_of_le' (nameExtent_pos hreads.name)
    rw [hcount, List.take_succ_cons]
    exact ⟨_, rfl⟩
  have hwhole : nameExtent (c :: word) = (c :: word).length := by
    rw [← hword, List.length_take, Nat.min_eq_left (nameExtent_le _), ← (hcut inside).nameExtent,
      hsplit]
  rw [hword] at hcut hsplit
  rw [← hsplit, (hcut inside).readsName_iff (List.cons_ne_nil c word)] at hreads
  exact ⟨word, (List.cons.inj hsplit).2.symm, fun inside' => ⟨hcut inside', hwhole, hreads⟩⟩

/-! ## Firm tokens -/

/-- The readings of a firm token in front of `c :: rest`. -/
inductive FirstFirm (c : Char) (rest : Text) : Kind × Nat → Prop
  | string : c = '"' ∨ c = '\'' → FirstFirm c rest (.string, 1 + stringExtent c rest)
  | named : startsName (c :: rest) = true → FirstFirm c rest (firstNamed (c :: rest))
  | documentOpen : "<!--".toList <+: c :: rest → FirstFirm c rest (.documentOpen, 4)
  | comment : "/*".toList <+: c :: rest →
      FirstFirm c rest (.comment, 2 + commentExtent ((c :: rest).drop 2))
  | bracket {kind : Kind} : isFence c = true → (∀ rest, first c rest = (kind, 1)) →
      FirstFirm c rest (kind, 1)

theorem firstFirm_spec {c : Char} {rest : Text} (h : (first c rest).1.isFirm = true) :
    FirstFirm c rest (first c rest) := by
  have hfirst := first_spec c rest
  generalize first c rest = read at h hfirst
  cases hfirst with
  | space => cases h
  | string hquote => exact .string hquote
  | numeric => exact absurd h (by simp [isFirm_firstNumeric])
  | documentClose => cases h
  | named hname => exact .named hname
  | documentOpen hopen => exact .documentOpen hopen
  | comment hcomment => exact .comment hcomment
  | hash => exact absurd h (by simp [isFirm_firstHash])
  | atKeyword => exact absurd h (by simp [isFirm_firstAt])
  | mark =>
      have hfence : isFence c = true := by
        by_contra hfence
        rw [isFirm_firstMark (Bool.eq_false_iff.2 hfence)] at h
        cases h
      rcases isFence_iff.1 hfence with rfl | rfl | rfl | rfl | rfl | rfl | rfl | rfl
      · cases h
      · cases h
      all_goals exact .bracket hfence fun _ => rfl

/-- A token that is read in front of a text is the first one of all. -/
theorem first_of_ofText {c : Char} {rest : Text} {kind : Kind}
    (h : ofText (c :: rest ++ behind) = ⟨kind, c :: rest⟩ :: ofText behind) (hne : behind ≠ []) :
    first c (rest ++ behind) = (kind, rest.length + 1) := by
  rw [List.cons_append, ofText_cons] at h
  obtain ⟨htoken, -⟩ := List.cons.inj h
  obtain ⟨hkind, hsource⟩ := Token.mk.inj htoken
  have hlength := congrArg List.length hsource
  rw [List.length_take, ← List.cons_append, List.length_append, List.length_cons] at hlength
  have hpos := List.length_pos_iff.2 hne
  rw [← hkind, Prod.ext_iff]
  exact ⟨rfl, by dsimp only; omega⟩

theorem ofText_of_first {c : Char} {rest : Text} {kind : Kind}
    (h : first c (rest ++ behind) = (kind, rest.length + 1)) :
    ofText (c :: rest ++ behind) = ⟨kind, c :: rest⟩ :: ofText behind := by
  rw [List.cons_append, ofText_cons, h, ← List.cons_append]
  simp

/-- A function or an address has a bracket behind its name. -/
theorem round_of_isFirm (h : (firstNamed text).1.isFirm = true) :
    (∃ inside, text.drop (nameExtent text) = '(' :: inside) ∧
      nameExtent text < (firstNamed text).2 := by
  rw [firstNamed] at h ⊢
  cases hdrop : text.drop (nameExtent text) with
  | nil =>
      rw [hdrop] at h
      cases h
  | cons c inside =>
      rw [hdrop] at h
      dsimp only at h ⊢
      split at h
      · cases h
      · rename_i hc
        obtain rfl : c = '(' := by simpa using hc
        refine ⟨⟨inside, rfl⟩, ?_⟩
        rw [if_neg hc]
        split
        · cases urlExtent inside with
          | none => exact Nat.lt_succ_self _
          | some extent =>
              dsimp only
              omega
        · exact Nat.lt_succ_self _

/-- A function, or an address, in front of another text. -/
theorem first_of_startsName_of_isFirm {c : Char} {rest : Text} {kind : Kind}
    (hends : KeepsEnd behind behind') (hfirm : kind.isFirm = true)
    (hname : startsName (c :: (rest ++ behind)) = true)
    (hread : first c (rest ++ behind) = (kind, rest.length + 1))
    (hurl : ∀ name, kind = .function name → Text.asciiLower name = "url".toList →
      urlExtent behind' = none) :
    first c (rest ++ behind') = (kind, rest.length + 1) := by
  have hreads : ReadsName (c :: (rest ++ behind)) :=
    readsName_of_kind hname (Or.inl (by rw [hread]; exact hfirm))
  have hnamed := hreads.first.symm.trans hread
  obtain ⟨⟨inside, hdrop⟩, -⟩ := round_of_isFirm (by rw [hnamed]; exact hfirm)
  obtain ⟨word, hsplit, hword⟩ := exists_isWord hreads hdrop
  rw [hsplit, (hword inside).first] at hread
  -- The bracket belongs to the token, and perhaps more of what stands inside.
  have hle : (word ++ ['(']).length ≤ rest.length := by
    rw [List.length_append, List.length_singleton]
    split at hread
    · split at hread
      · have hextent := congrArg Prod.snd hread
        dsimp only at hextent
        omega
      · exact Nat.le_of_succ_le_succ (Nat.le_of_eq (congrArg Prod.snd hread))
    · exact Nat.le_of_succ_le_succ (Nat.le_of_eq (congrArg Prod.snd hread))
  rw [List.append_cons] at hsplit
  obtain ⟨more, rfl⟩ := List.prefix_of_prefix_length_le (List.prefix_append _ inside)
    (hsplit ▸ List.prefix_append rest behind) hle
  rw [List.append_assoc (word ++ ['(']), List.append_cancel_left_eq] at hsplit
  subst hsplit
  rw [List.append_assoc, List.append_assoc, List.singleton_append, (hword _).first]
  split at hread
  · rename_i hlower
    rw [if_pos hlower]
    cases hextent : urlExtent (more ++ behind) with
    | some extent =>
        rw [hextent] at hread
        have hsum := congrArg Prod.snd hread
        rw [List.length_append, List.length_append, List.length_singleton] at hsum
        dsimp only at hsum
        rw [urlExtent_append_of_le hends hextent (by omega)]
        exact hread
    | none =>
        rw [hextent] at hread
        obtain ⟨rfl, hsum⟩ := Prod.mk.inj hread
        rw [List.length_append, List.length_append, List.length_singleton] at hsum
        obtain rfl : more = [] := List.eq_nil_of_length_eq_zero (by omega)
        rw [List.nil_append, hurl _ rfl hlower]
        exact hread
  · rename_i hlower
    rw [if_neg hlower]
    exact hread

/-- A comment is read the same in front of a text that keeps the end of the input. -/
theorem first_comment_of_keepsEnd {c : Char} {rest : Text} (hends : KeepsEnd behind behind')
    (hcomment : "/*".toList <+: c :: (rest ++ behind))
    (hextent : rest.length + 1 = 2 + commentExtent ((c :: (rest ++ behind)).drop 2)) :
    first c (rest ++ behind') = (.comment, rest.length + 1) := by
  cases rest with
  | nil =>
      rw [List.length_nil] at hextent
      omega
  | cons d rest =>
      obtain ⟨after, hafter⟩ := hcomment
      have hmark : '/' :: '*' :: after = c :: d :: (rest ++ behind) := hafter
      obtain ⟨rfl, hstar⟩ := List.cons.inj hmark
      obtain ⟨rfl, -⟩ := List.cons.inj hstar
      rw [List.cons_append, List.drop_succ_cons, List.drop_succ_cons, List.drop_zero,
        List.length_cons] at hextent
      have hsame : commentExtent (rest ++ behind') = commentExtent (rest ++ behind) :=
        commentExtent_append_of_le hends (by omega)
      have hfirst : first '/' ('*' :: rest ++ behind') =
          (.comment, 2 + commentExtent (rest ++ behind')) := rfl
      rw [hfirst, hsame, ← hextent, List.length_cons]

/-- A firm token is read the same in front of a text that keeps the end of the input and of the
line. -/
theorem ofText_of_isFirm {token : Token} (hends : KeepsEnd behind behind')
    (hfirm : token.kind.isFirm = true)
    (hread : ofText (token.source ++ behind) = token :: ofText behind)
    (hurl : ∀ name, token.kind = .function name → Text.asciiLower name = "url".toList →
      urlExtent behind' = none) :
    ofText (token.source ++ behind') = token :: ofText behind' := by
  by_cases hne : behind = []
  · rw [hne] at hread
    rw [hends.nil hne]
    exact hread
  obtain ⟨kind, source⟩ := token
  cases source with
  | nil =>
      have hsource : (⟨kind, []⟩ : Token).source ≠ [] := by
        apply source_ne_nil
        rw [hread]
        exact List.mem_cons_self
      exact absurd rfl hsource
  | cons c rest =>
      -- The first token has to be the same, one way of reading after the other.
      apply ofText_of_first
      have hread := first_of_ofText hread hne
      dsimp only at hfirm hurl
      have hspec := firstFirm_spec (by rw [hread]; exact hfirm)
      rw [hread] at hspec
      generalize htoken : (kind, rest.length + 1) = read at hspec
      have hextent := congrArg Prod.snd htoken
      dsimp only at hextent
      cases hspec with
      | string hquote =>
          have hsame : stringExtent c (rest ++ behind') = stringExtent c (rest ++ behind) :=
            stringExtent_append_of_le hends (by omega)
          have hstring : first c (rest ++ behind') =
              (.string, 1 + stringExtent c (rest ++ behind')) := by
            rcases hquote with rfl | rfl <;> rfl
          rw [hstring, hsame]
      | named hname =>
          rw [← htoken]
          exact first_of_startsName_of_isFirm hends hfirm hname hread hurl
      | documentOpen hopen =>
          -- The mark is the whole token.
          have hleads : c :: rest <+: "<!--".toList :=
            List.prefix_of_prefix_length_le (List.prefix_append (c :: rest) behind) hopen
              (Nat.le_of_eq hextent)
          obtain ⟨rfl, rfl⟩ := List.cons.inj (hleads.eq_of_length hextent)
          rfl
      | comment hcomment =>
          rw [first_comment_of_keepsEnd hends hcomment hextent, hextent]
      | bracket _ hbracket => exact hbracket _

/-! ## The text of firm tokens -/

theorem exists_first_of_ofText {token : Token}
    (h : ofText (token.source ++ behind) = token :: ofText behind) :
    ∃ c rest, token.source = c :: rest ∧ (first c (rest ++ behind)).1 = token.kind ∧
      c :: rest = (c :: rest ++ behind).take (first c (rest ++ behind)).2 := by
  obtain ⟨kind, source⟩ := token
  cases source with
  | nil =>
      have hsource : (⟨kind, []⟩ : Token).source ≠ [] := by
        apply source_ne_nil
        rw [h]
        exact List.mem_cons_self
      exact absurd rfl hsource
  | cons c rest =>
      dsimp only at h
      rw [List.cons_append, ofText_cons] at h
      obtain ⟨hkind, hsource⟩ := Token.mk.inj (List.cons.inj h).1
      exact ⟨c, rest, rfl, hkind, hsource.symm⟩

theorem kind_of_firstNamed (text : Text) :
    (firstNamed text).1.isName = true ∨ (firstNamed text).1 = .url := by
  rw [firstNamed]
  cases text.drop (nameExtent text) with
  | nil => exact Or.inl rfl
  | cons c inside =>
      dsimp only
      split
      · exact Or.inl rfl
      · split
        · cases urlExtent inside with
          | none => exact Or.inl rfl
          | some extent => exact Or.inr rfl
        · exact Or.inl rfl

/-- Brackets are read as themselves. -/
theorem source_of_bracket {token : Token} {bracket : Bracket}
    (h : ofText (token.source ++ behind) = token :: ofText behind)
    (hkind : token.kind = .opening bracket ∨ token.kind = .closing bracket) :
    ∃ c, token.source = [c] ∧ isFence c = true ∧ ∀ rest, first c rest = (token.kind, 1) := by
  obtain ⟨c, rest, hsource, hfirst, htake⟩ := exists_first_of_ofText h
  have hspec : FirstFirm c (rest ++ behind) (first c (rest ++ behind)) :=
    firstFirm_spec (by rw [hfirst]; rcases hkind with hkind | hkind <;> rw [hkind] <;> rfl)
  generalize first c (rest ++ behind) = read at hfirst htake hspec
  cases hspec with
  | string => simp [← hfirst] at hkind
  | named =>
      rcases kind_of_firstNamed (c :: (rest ++ behind)) with hname | hurl
      · rcases hkind with hkind | hkind <;> simp [hfirst, hkind, Kind.isName] at hname
      · simp [← hfirst, hurl] at hkind
  | documentOpen => simp [← hfirst] at hkind
  | comment => simp [← hfirst] at hkind
  | bracket hfence hbracket =>
      refine ⟨c, ?_, hfence, fun rest => ?_⟩
      · rw [hsource, htake]
        rfl
      · rw [hbracket, ← hfirst]

theorem exists_fence_of_bracket {token : Token} {bracket : Bracket} (h : token ∈ ofText text)
    (hkind : token.kind = .opening bracket ∨ token.kind = .closing bracket) :
    ∃ c, token.source = [c] ∧ isFence c = true := by
  obtain ⟨front, back, hsplit⟩ := List.append_of_mem h
  have hback : ofText (back.flatMap source) = back := by
    have hbehind : ofText text = (front ++ [token]) ++ back := by
      rw [hsplit, List.append_assoc, List.singleton_append]
    exact ofText_of_append hbehind
  have hread : ofText (token.source ++ back.flatMap source) =
      token :: ofText (back.flatMap source) := by
    rw [hback, ← List.flatMap_cons]
    exact ofText_of_append hsplit
  obtain ⟨c, hsource, hfence, -⟩ := source_of_bracket hread hkind
  exact ⟨c, hsource, hfence⟩

theorem startsName_append_of_two_le {text : Text} (h : 2 ≤ text.length) (rest : Text) :
    startsName (text ++ rest) = startsName text := by
  match text, h with
  | c :: d :: text, _ => rfl

/-- A firm token begins with a name and its bracket, or halts what is in front of it. -/
theorem halts_or_startsName {token : Token} (hfirm : token.kind.isFirm = true)
    (h : ofText (token.source ++ behind) = token :: ofText behind) :
    (∀ behind', Halts (token.source ++ behind')) ∨
      startsName token.source = true ∧ 2 ≤ token.source.length ∧
        (token.kind = .url ∨ token.kind.isName = true) := by
  obtain ⟨c, rest, hsource, hfirst, htake⟩ := exists_first_of_ofText h
  -- A fence, or the mark of a comment, halts whatever stands behind the token.
  have hhalts : isFence c = true ∨ c = '/' ∨ c = '<' →
      ∀ behind', Halts (token.source ++ behind') := by
    intro hc behind' d hd
    rw [hsource] at hd
    obtain rfl : c = d := by simpa using hd
    exact hc
  have hspec : FirstFirm c (rest ++ behind) (first c (rest ++ behind)) :=
    firstFirm_spec (by rw [hfirst]; exact hfirm)
  generalize first c (rest ++ behind) = read at hfirst htake hspec
  cases hspec with
  | string hquote =>
      refine Or.inl (hhalts (Or.inl ?_))
      rcases hquote with rfl | rfl <;> decide
  | named hname =>
      -- A name has its bracket behind it, and so at least two characters.
      right
      obtain ⟨⟨inside, hinside⟩, hextent⟩ := round_of_isFirm (by rw [hfirst]; exact hfirm)
      have hpos := nameExtent_pos hname
      have hlength : 2 ≤ token.source.length := by
        have hdrop := congrArg List.length hinside
        simp only [List.length_drop, List.length_cons] at hdrop
        rw [hsource, htake, List.cons_append, List.length_take, List.length_cons]
        omega
      refine ⟨?_, hlength, hfirst ▸ (kind_of_firstNamed _).symm⟩
      rwa [← startsName_append_of_two_le hlength behind, hsource]
  | documentOpen hopen =>
      obtain ⟨after, hafter⟩ := hopen
      exact Or.inl (hhalts (Or.inr (Or.inr (List.cons.inj hafter).1.symm)))
  | comment hcomment =>
      obtain ⟨after, hafter⟩ := hcomment
      exact Or.inl (hhalts (Or.inr (Or.inl (List.cons.inj hafter).1.symm)))
  | bracket hfence _ => exact Or.inl (hhalts (Or.inl hfence))

/-! ## Brackets behind names -/

/-- An identifier that goes on to the end of a text is a whole name. -/
theorem Cut.isWord {c : Char} {rest name : Text} (h : Cut (c :: rest) behind)
    (hident : (Token.first c rest).1 = .ident name)
    (hle : rest.length + 1 ≤ (Token.first c rest).2) :
    IsWord (c :: rest) behind ∧ name = Token.nameOf (c :: rest) := by
  obtain ⟨hstarts, hname⟩ := first_eq_ident hident
  have hreads : ReadsName (c :: rest) :=
    readsName_of_kind hstarts (Or.inr (by rw [hident]; rfl))
  have hextent : (Token.first c rest).2 = Token.nameExtent (c :: rest) := by
    rw [hreads.first, h.firstNamed_self]
  exact ⟨⟨h, Nat.le_antisymm h.nameExtent_le (hextent ▸ hle), hreads⟩, hname⟩

/-- No gap stands in a name. -/
theorem IsWord.not_endsGap {first second : Text} (h : IsWord (first ++ second) behind) :
    ¬ EndsGap first := by
  rintro ⟨front, d, rfl, hd, hfront⟩
  have hunits := h.cut.units_name
  rw [h.whole, List.drop_length, List.take_length, List.nil_append, List.append_assoc] at hunits
  have hfront' : Units AnyChar ([d] ++ second ++ behind) front :=
    hfront.congr (Follows.of_head? rfl) fun _ _ _ => trivial
  cases hfront'.cancel hunits with
  | char _ hname _ =>
      rw [InName] at hname
      simp [isGap, hname] at hd
  | escape => exact absurd hd (by decide)

/-- A function is a whole name with its bracket. It is called like addresses only if a quoted text
stands behind the bracket. -/
theorem exists_isWord_of_function {token : Token} {name : Text}
    (h : ofText (token.source ++ behind) = token :: ofText behind)
    (hkind : token.kind = .function name) :
    ∃ word, token.source = word ++ ['('] ∧ IsWord word ('(' :: behind) ∧ name = nameOf word ∧
      (Text.asciiLower name = "url".toList → urlExtent behind = none) := by
  obtain ⟨c, rest, hsource, hfirst, htake⟩ := exists_first_of_ofText h
  rw [hkind] at hfirst
  obtain ⟨-, hextent, inside, hdrop⟩ := first_eq_function hfirst
  have hreads : ReadsName (c :: (rest ++ behind)) := by
    obtain ⟨hstarts, -⟩ := first_eq_firstNamed_of_isName (by rw [hfirst]; rfl)
    exact readsName_of_kind hstarts (Or.inr (by rw [hfirst]; rfl))
  rw [List.cons_append, hextent, List.take_add, hdrop] at htake
  -- Up to its bracket the token is one name.
  obtain ⟨word, hsplit, hword⟩ := exists_isWord hreads hdrop
  have hwhole : nameExtent (c :: (rest ++ behind)) = (c :: word).length := by
    rw [hsplit, ← List.cons_append, (hword inside).cut.nameExtent, (hword inside).whole]
  rw [hwhole, hsplit, ← List.cons_append, List.take_left, List.take_succ_cons, List.take_zero]
    at htake
  obtain rfl : rest = word ++ ['('] := (List.cons.inj htake).2
  rw [List.append_assoc, List.append_cancel_left_eq] at hsplit
  obtain rfl : behind = inside := (List.cons.inj hsplit).2
  rw [List.append_assoc, List.singleton_append, (hword behind).first] at hfirst
  refine ⟨c :: word, hsource, hword behind, ?_, fun hurl => ?_⟩
  · split at hfirst
    · split at hfirst
      · cases hfirst
      · exact (Kind.function.inj hfirst).symm
    · exact (Kind.function.inj hfirst).symm
  · -- Called like an address, it is a function only if no address can be read behind the bracket.
    cases hextent : urlExtent behind with
    | none => rfl
    | some extent =>
        split at hfirst
        · rw [hextent] at hfirst
          cases hfirst
        · rename_i hlower
          rw [Kind.function.inj hfirst] at hlower
          exact absurd hurl hlower

/-- An identifier at the end of loose text is a whole name behind a gap. -/
theorem Cut.exists_isWord {front : List Token} {last : Token} {name : Text}
    (h : Cut text behind) (heq : ofText text = front ++ [last])
    (hident : last.kind = .ident name) :
    ∃ first word, text = first ++ word ∧ (first = [] ∨ EndsGap first) ∧
      Units AnyChar (word ++ behind) first ∧ IsWord word behind ∧ name = Token.nameOf word := by
  have hlast := ofText_of_append heq
  rw [List.flatMap_cons, List.flatMap_nil, List.append_nil] at hlast
  have hmem : last ∈ ofText text := by
    rw [heq]
    simp
  have hne := source_ne_nil hmem
  have hloose : ∀ token ∈ front, token.kind.isFirm = false := by
    intro token hmem
    exact Cut.isFirm_of_mem (fun _ => h) token (by rw [heq]; simp [hmem])
  have hsources : text = front.flatMap source ++ last.source := by
    rw [← sources_ofText text, heq]
    simp
  obtain ⟨hunits, hgap⟩ := units_of_ofText heq hloose
  rw [List.flatMap_cons, List.flatMap_nil, List.append_nil] at hunits hgap
  have hfront : front = [] → front.flatMap source = [] := by
    rintro rfl
    rfl
  generalize front.flatMap source = first at hunits hgap hsources hfront
  generalize last.source = word at hlast hne hunits hgap hsources
  subst hsources
  cases word with
  | nil => exact absurd rfl hne
  | cons c rest =>
      have hunits' : Units AnyChar (c :: rest ++ behind) first :=
        hunits.anyChar.congr (Follows.of_head? rfl) fun _ _ _ => trivial
      have hcut := h.drop first hunits' (Or.inl hne)
      rw [Token.ofText_cons] at hlast
      obtain ⟨hkind, hnil⟩ := List.cons.inj hlast
      have hle : rest.length + 1 ≤ (Token.first c rest).2 := by
        rw [← List.length_cons, ← List.drop_eq_nil_iff, ← sources_ofText (List.drop _ _), hnil]
        rfl
      have hfirst : (Token.first c rest).1 = .ident name := by
        rw [← hident, ← hkind]
      obtain ⟨hword, hname⟩ := hcut.isWord hfirst hle
      -- With tokens in front the name stands behind a gap.
      refine ⟨first, c :: rest, rfl, ?_, hunits', hword, hname⟩
      by_cases hnone : front = []
      · exact Or.inl (hfront hnone)
      · exact Or.inr (hgap hword.reads.name hnone)

/-- Where a round bracket stands behind loose text, the last token opens a block. It is the bracket,
or a function if an identifier stands just before the bracket. -/
theorem Cut.ofText_round (h : text ≠ [] → ∀ inside, Cut text ('(' :: inside))
    (hurl : ∀ front last name, ofText text = front ++ [last] → last.kind = .ident name →
      Text.asciiLower name ≠ "url".toList) :
    ∃ front opener, (∀ token ∈ front, token.kind.isFirm = false) ∧
      (opener.kind = .opening .round ∨ ∃ last name, ofText text = front ++ [last] ∧
        last.kind = .ident name ∧ opener.kind = .function name) ∧
      ∀ inside, ofText (text ++ '(' :: inside) = front ++ opener :: ofText inside := by
  induction hlength : text.length using Nat.strongRecOn generalizing text with
  | ind length ih =>
      cases text with
      | nil =>
          refine ⟨[], ⟨.opening .round, ['(']⟩, by simp, Or.inl rfl, fun inside => ?_⟩
          rw [List.nil_append, List.nil_append, Token.ofText_cons]
          rfl
      | cons c rest =>
          have hcut := h (List.cons_ne_nil c rest)
          by_cases hident : ∃ name, (Token.first c rest).1 = .ident name ∧
              rest.length + 1 ≤ (Token.first c rest).2
          · -- One identifier is left. It takes the bracket and is a function.
            obtain ⟨name, hkind, hle⟩ := hident
            have hone := Cut.ofText_eq_singleton hle
            refine ⟨[], ⟨.function name, c :: rest ++ ['(']⟩, by simp,
              Or.inr ⟨_, name, hone, hkind, rfl⟩, fun inside => ?_⟩
            obtain ⟨hword, hname⟩ := (hcut inside).isWord hkind hle
            have hfirst := hword.first
            rw [← hname, if_neg (hurl [] _ name hone hkind)] at hfirst
            rw [List.nil_append, List.append_cons]
            have hlonger : Token.first c (rest ++ ['('] ++ inside) =
                (.function name, (rest ++ ['(']).length + 1) := by
              rw [List.append_assoc, List.length_append]
              exact hfirst
            exact ofText_of_first hlonger
          · -- The first token stays, and the rest of the text is shorter.
            have hread := fun inside => (hcut inside).ofText_cons
              fun _ name hkind => Nat.lt_of_not_le fun hle => hident ⟨name, hkind, hle⟩
            have hself := Token.ofText_cons c rest
            obtain ⟨front, opener, hfront, hopener, hofText⟩ := ih _
              (hlength ▸ Cut.length_drop_first c rest) (fun hne inside => (hread inside).2.2 hne)
              (fun front last name heq => hurl (_ :: front) last name (by rw [hself, heq]; rfl)) rfl
            refine ⟨⟨(Token.first c rest).1, (c :: rest).take (Token.first c rest).2⟩ :: front,
              opener, ?_, ?_, fun inside => ?_⟩
            · rw [List.forall_mem_cons]
              exact ⟨(hread []).1, hfront⟩
            · rcases hopener with hopening | ⟨last, name, heq, hlast⟩
              · exact Or.inl hopening
              · exact Or.inr ⟨last, name, by rw [hself, heq]; rfl, hlast⟩
            · rw [(hread inside).2.1, hofText, List.cons_append]

end UtilityCss.Token
