import UtilityCss.Proofs.Token.Within

/-!
# A space in the place of a comment

A comment separates tokens as a space does. If a space takes its place, the tokens before and after
it are read as they were, and the space joins the white space around it (`ofText_spaced`). The one
exception is a token before the comment that ends in an escape, since an escape takes the space with
it.
-/

set_option autoImplicit false

namespace UtilityCss.Token

/-! ## Reading a text in two parts -/

/-- What is read from a text from some token on is what is read from the text of these tokens. -/
theorem ofText_of_append {text : Text} {front back : List Token}
    (h : ofText text = front ++ back) : ofText (back.flatMap source) = back := by
  induction front generalizing text with
  | nil => rw [← List.nil_append back, ← h, sources_ofText]
  | cons token front ih =>
      cases text with
      | nil =>
          rw [ofText] at h
          cases h
      | cons c rest =>
          rw [ofText] at h
          exact ih (List.cons.inj h).2

/-- A token is the first one of some text. -/
theorem exists_first_of_mem {text : Text} {token : Token} (h : token ∈ ofText text) :
    ∃ c rest, token.kind = (first c rest).1 ∧
      token.source = (c :: rest).take (first c rest).2 := by
  fun_induction ofText text with
  | case1 => simp at h
  | case2 c rest read ih =>
      rw [List.mem_cons] at h
      rcases h with rfl | hrest
      · refine ⟨c, rest, rfl, ?_⟩
        obtain ⟨count, hcount⟩ := Nat.exists_eq_add_of_le' (first_pos c rest)
        rw [show read = first c rest from rfl, hcount, List.take_succ_cons, Nat.add_sub_cancel]
      · exact ih hrest

theorem source_ne_nil {text : Text} {token : Token} (h : token ∈ ofText text) :
    token.source ≠ [] := by
  obtain ⟨c, rest, -, hsource⟩ := exists_first_of_mem h
  obtain ⟨count, hcount⟩ := Nat.exists_eq_add_of_le' (first_pos c rest)
  rw [hsource, hcount, List.take_succ_cons]
  exact List.cons_ne_nil _ _

theorem eq_nil_of_sources_eq_nil {text : Text} {front back : List Token}
    (h : ofText text = front ++ back) (hsources : front.flatMap source = []) : front = [] := by
  cases front with
  | nil => rfl
  | cons token front =>
      have hmem : token ∈ ofText text := by
        rw [h]
        simp
      rw [List.flatMap_cons, List.append_eq_nil_iff] at hsources
      exact absurd hsources.1 (source_ne_nil hmem)

/-! ## Comments -/

theorem isSkipped_firstNamed (text : Text) : (firstNamed text).1.isSkipped = false := by
  rw [firstNamed]
  split
  · rfl
  · split
    · rfl
    · split
      · split <;> rfl
      · rfl

theorem isSkipped_firstNumeric (text : Text) : (firstNumeric text).1.isSkipped = false := by
  rw [firstNumeric]
  split
  · rfl
  · split <;> rfl

/-- Only white space and comments separate tokens, and only what begins with the mark of a comment
is one. -/
theorem first_of_isSkipped {c : Char} {rest : Text} (h : (first c rest).1.isSkipped = true) :
    isSpace c = true ∧ first c rest = (.space, spaceExtent (c :: rest)) ∨
      c = '/' ∧ (first c rest).1 = .comment := by
  have hfirst := first_spec c rest
  generalize first c rest = token at h hfirst
  cases hfirst with
  | space hspace => exact Or.inl ⟨hspace, rfl⟩
  | comment hmark =>
      obtain ⟨after, hafter⟩ := hmark
      exact Or.inr ⟨(List.cons.inj hafter).1.symm, rfl⟩
  -- No other token is skipped.
  | numeric =>
      rw [isSkipped_firstNumeric] at h
      cases h
  | named =>
      rw [isSkipped_firstNamed] at h
      cases h
  | hash =>
      rw [firstHash] at h
      split at h <;> cases h
  | atKeyword =>
      rw [firstAt] at h
      split at h <;> cases h
  | mark =>
      have hmark := firstMark_spec c rest
      generalize firstMark c rest = token at h hmark
      cases hmark <;> cases h
  | string | documentClose | documentOpen => cases h

theorem exists_source_of_comment {text comment : Text} (h : ⟨.comment, comment⟩ ∈ ofText text) :
    ∃ inside, comment = '/' :: inside := by
  obtain ⟨c, rest, hkind, hsource⟩ := exists_first_of_mem h
  rcases first_of_isSkipped (by rw [← hkind]; rfl) with ⟨-, hspace⟩ | ⟨rfl, -⟩
  · rw [hspace] at hkind
    cases hkind
  · obtain ⟨count, hcount⟩ := Nat.exists_eq_add_of_le' (first_pos '/' rest)
    rw [hcount, List.take_succ_cons] at hsource
    exact ⟨_, hsource⟩

/-! ## White space -/

theorem isSpace_of_space {text : Text} {token : Token} (h : token ∈ ofText text)
    (hkind : token.kind = .space) : ∀ c ∈ token.source, isSpace c = true := by
  obtain ⟨c, rest, hfirst, hsource⟩ := exists_first_of_mem h
  rw [hkind] at hfirst
  rcases first_of_isSkipped (by rw [← hfirst]; rfl) with ⟨-, hspace⟩ | ⟨-, hcomment⟩
  · rw [hsource, hspace]
    exact (Spans.takeWhile fun _ hc => hc).2
  · rw [hcomment] at hfirst
    cases hfirst

/-- White space as a token, if there is any. -/
def whiteSpace (text : Text) : List Token :=
  if text.isEmpty then [] else [⟨.space, text⟩]

theorem sources_whiteSpace (text : Text) : (whiteSpace text).flatMap source = text := by
  cases text <;> simp [whiteSpace]

theorem kind_of_mem_whiteSpace {text : Text} {token : Token} (h : token ∈ whiteSpace text) :
    token.kind = .space := by
  rw [whiteSpace] at h
  split at h
  · cases h
  · rw [List.mem_singleton] at h
    rw [h]

/-- White space goes on as far as there is any. -/
theorem ofText_white {c : Char} {white : Text} (hc : isSpace c = true)
    (hwhite : ∀ d ∈ white, isSpace d = true) (rest : Text) :
    ofText (c :: (white ++ rest)) =
      ⟨.space, c :: (white ++ rest.takeWhile isSpace)⟩ :: ofText (rest.dropWhile isSpace) := by
  have htake : (white ++ rest).takeWhile isSpace = white ++ rest.takeWhile isSpace :=
    List.takeWhile_append_of_pos hwhite
  have hfirst : first c (white ++ rest) =
      (.space, (white ++ rest.takeWhile isSpace).length + 1) := by
    rw [first, if_pos hc, spaceExtent, List.takeWhile_cons_of_pos hc, htake, List.length_cons]
  have hsplit : white ++ rest =
      (white ++ rest.takeWhile isSpace) ++ rest.dropWhile isSpace := by
    rw [List.append_assoc, List.takeWhile_append_dropWhile]
  rw [ofText, hfirst]
  simp only [Nat.add_sub_cancel]
  rw [hsplit, List.take_left, List.drop_left]

theorem ofText_eq_whiteSpace (rest : Text) :
    ofText rest = whiteSpace (rest.takeWhile isSpace) ++ ofText (rest.dropWhile isSpace) := by
  cases rest with
  | nil => rfl
  | cons c rest =>
      by_cases hc : isSpace c = true
      · have hwhite := @ofText_white c [] hc (by simp) rest
        rw [List.takeWhile_cons_of_pos hc, List.dropWhile_cons_of_pos hc]
        exact hwhite
      · rw [List.takeWhile_cons_of_neg hc, List.dropWhile_cons_of_neg hc]
        rfl

/-! ## The tokens before the comment -/

/-- The first of the tokens that make up a stretch ends within it, and the others make up the rest
of the stretch. -/
theorem exists_first_of_stretch {token : Token} {front after : List Token} {c : Char}
    {rest y : Text} (h : ofText (c :: rest ++ '/' :: y) = token :: front ++ after)
    (hstretch : (token :: front).flatMap source = c :: rest) :
    ∃ kind extent, first c (rest ++ '/' :: y) = (kind, extent) ∧ extent - 1 ≤ rest.length ∧
      token = ⟨kind, c :: rest.take (extent - 1)⟩ ∧
      ofText (rest.drop (extent - 1) ++ '/' :: y) = front ++ after ∧
      front.flatMap source = rest.drop (extent - 1) := by
  rw [List.cons_append, ofText, List.cons_append, List.cons.injEq] at h
  obtain ⟨htoken, hfront⟩ := h
  rcases hread : first c (rest ++ '/' :: y) with ⟨kind, extent⟩
  rw [hread] at htoken hfront
  dsimp only at htoken hfront
  rw [List.flatMap_cons, ← htoken, List.cons_append, List.cons.injEq] at hstretch
  have hwithin : extent - 1 ≤ rest.length := by
    have hlength := congrArg List.length hstretch.2
    rw [List.length_append, List.length_take, List.length_append, List.length_cons] at hlength
    omega
  rw [List.drop_append_of_le_length hwithin] at hfront
  rw [List.take_append_of_le_length hwithin] at htoken hstretch
  exact ⟨kind, extent, rfl, hwithin, htoken.symm, hfront,
    List.append_cancel_left (hstretch.2.trans (List.take_append_drop (extent - 1) rest).symm)⟩

/-- White space in front ends within a stretch, where it is the same before a space, or goes through
all of it. -/
theorem first_space_behind {c : Char} (hc : isSpace c = true) {rest y : Text} {kind : Kind}
    {extent : Nat} (hread : first c (rest ++ '/' :: y) = (kind, extent)) (z : Text) :
    first c (rest ++ ' ' :: z) = (kind, extent) ∨
      kind = .space ∧ rest.length ≤ extent - 1 ∧ ∀ d ∈ c :: rest, isSpace d = true := by
  rw [first, if_pos hc, ← List.cons_append, spaceExtent_slash] at hread
  injection hread with hkind hextent
  by_cases hend : extent < rest.length + 1
  · left
    rw [first, if_pos hc, ← List.cons_append, spaceExtent_append_of_lt, hkind, hextent]
    rw [hextent, List.length_cons]
    exact hend
  · refine Or.inr ⟨hkind.symm, by omega, ?_⟩
    apply forall_isSpace_of_length_le
    rw [hextent, List.length_cons]
    omega

/-- A first token that is the same before a space is followed by the tokens of what it leaves. -/
theorem ofText_behind_cons {c : Char} {rest white : Text} {kind : Kind} {extent : Nat}
    {kept : List Token} {z : Text} (hsame : first c (rest ++ ' ' :: z) = (kind, extent))
    (hwithin : extent - 1 ≤ rest.length)
    (hspaced : ofText (rest.drop (extent - 1) ++ ' ' :: z) = kept ++ ofText (white ++ ' ' :: z)) :
    ofText (c :: rest ++ ' ' :: z) =
      ⟨kind, c :: rest.take (extent - 1)⟩ :: kept ++ ofText (white ++ ' ' :: z) := by
  rw [List.cons_append, ofText, hsame]
  dsimp only
  rw [List.drop_append_of_le_length hwithin, List.take_append_of_le_length hwithin, hspaced,
    List.cons_append]

/-- The tokens before a slash are the same before a space, except that white space at their end
goes on. -/
theorem exists_ofText_behind {front : List Token} {stretch y : Text}
    (h : ofText (stretch ++ '/' :: y) = front ++ ofText ('/' :: y))
    (hstretch : front.flatMap source = stretch)
    (hopen : ∀ token ∈ front.getLast?, endsInEscape token.source = false) (z : Text) :
    ∃ kept white, front = kept ++ whiteSpace white ∧ (∀ c ∈ white, isSpace c = true) ∧
      ofText (stretch ++ ' ' :: z) = kept ++ ofText (white ++ ' ' :: z) := by
  induction front generalizing stretch with
  | nil =>
      subst hstretch
      exact ⟨[], [], rfl, by simp, rfl⟩
  | cons token front ih =>
      cases stretch with
      | nil => exact absurd (eq_nil_of_sources_eq_nil h hstretch) (by simp)
      | cons c rest =>
          obtain ⟨kind, extent, hread, hwithin, htoken, hfront, hrest⟩ :=
            exists_first_of_stretch h hstretch
          have hpos := first_pos c (rest ++ '/' :: y)
          rw [hread] at hpos
          dsimp only at hpos
          -- Unless the token is white space at the end, it is the same before a space.
          have hnext : first c (rest ++ ' ' :: z) = (kind, extent) →
              ∃ kept white, token :: front = kept ++ whiteSpace white ∧
                (∀ c ∈ white, isSpace c = true) ∧
                ofText (c :: rest ++ ' ' :: z) = kept ++ ofText (white ++ ' ' :: z) := by
            intro hsame
            have hopen' : ∀ token ∈ front.getLast?, endsInEscape token.source = false := by
              intro last hlast
              apply hopen last
              rw [List.getLast?_cons, hlast]
              rfl
            obtain ⟨kept, white, hkept, hwhite, hspaced⟩ := ih hfront hrest hopen'
            refine ⟨token :: kept, white, by rw [hkept, List.cons_append], hwhite, ?_⟩
            rw [ofText_behind_cons hsame hwithin hspaced, htoken]
          have hlast : rest.length ≤ extent - 1 → front = [] := by
            intro hle
            apply eq_nil_of_sources_eq_nil hfront
            rw [hrest, List.drop_eq_nil_iff]
            exact hle
          by_cases hc : isSpace c = true
          · rcases first_space_behind hc hread z with hsame | ⟨hkind, hwhole, hall⟩
            · exact hnext hsame
            · obtain rfl := hlast hwhole
              refine ⟨[], c :: rest, ?_, hall, rfl⟩
              rw [htoken, hkind, List.take_of_length_le hwhole]
              rfl
          · apply hnext
            rw [← hread]
            have hspace : isSpace c = false := by simpa using hc
            apply first_behind hspace
            · rw [hread]
              dsimp only
              omega
            · intro hwhole
              rw [hread] at hwhole
              dsimp only at hwhole
              obtain rfl := hlast (by omega)
              have hescape := hopen token rfl
              rwa [htoken, List.take_of_length_le (by omega)] at hescape

/-- If a space takes the place of a comment, the other tokens stay, and the white space around the
comment becomes one with the space. -/
theorem ofText_spaced {text comment : Text} {front back : List Token}
    (h : ofText text = front ++ ⟨.comment, comment⟩ :: back)
    (hopen : ∀ token ∈ front.getLast?, endsInEscape token.source = false) :
    ∃ kept white white' others, front = kept ++ whiteSpace white ∧
      back = whiteSpace white' ++ others ∧
      ofText (front.flatMap source ++ ' ' :: back.flatMap source) =
        kept ++ ⟨.space, white ++ ' ' :: white'⟩ :: others := by
  have hmem : ⟨.comment, comment⟩ ∈ ofText text := by
    rw [h]
    simp
  obtain ⟨inside, rfl⟩ := exists_source_of_comment hmem
  -- What stands behind the comment is read on its own.
  have hback : ofText (back.flatMap source) = back := by
    have hwhole : ofText text = (front ++ [⟨.comment, '/' :: inside⟩]) ++ back := by
      rw [h, List.append_assoc, List.singleton_append]
    exact ofText_of_append hwhole
  have hbehind : ofText ('/' :: (inside ++ back.flatMap source)) =
      ⟨.comment, '/' :: inside⟩ :: back := by
    have hsources := ofText_of_append h
    rwa [List.flatMap_cons] at hsources
  have htext : text = front.flatMap source ++ '/' :: (inside ++ back.flatMap source) := by
    rw [← sources_ofText text, h, List.flatMap_append, List.flatMap_cons]
    rfl
  rw [htext, ← hbehind] at h
  obtain ⟨kept, white, hkept, hwhite, hspaced⟩ :=
    exists_ofText_behind h rfl hopen (back.flatMap source)
  refine ⟨kept, white, (back.flatMap source).takeWhile isSpace,
    ofText ((back.flatMap source).dropWhile isSpace), hkept, ?_, ?_⟩
  · rw [← ofText_eq_whiteSpace, hback]
  · rw [hspaced]
    congr 1
    -- The white space before the space and that behind it become one token.
    cases white with
    | nil => exact @ofText_white ' ' [] rfl (by simp) _
    | cons c white =>
        rw [List.forall_mem_cons] at hwhite
        have hall : ∀ d ∈ white ++ [' '], isSpace d = true := by
          rw [List.forall_mem_append, List.forall_mem_singleton]
          exact ⟨hwhite.2, rfl⟩
        have hread := ofText_white hwhite.1 hall (back.flatMap source)
        simpa using hread

end UtilityCss.Token
