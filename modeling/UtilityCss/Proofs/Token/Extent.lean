import UtilityCss.Proofs.Token.Units

/-!
# What takes text up to a mark of its own

Strings, comments and addresses run to a mark of their own, to the end of the input, or, for a
string, to the end of its line. Where one of them ends within a text, it is the same if another text
follows that keeps the end of the input and of the line (`Token.KeepsEnd`).

Main statements: `stringExtent_append_of_le`, `commentExtent_append_of_le` and
`urlExtent_append_of_le`.
-/

set_option autoImplicit false

namespace UtilityCss.Token

/-- The second text can stand in the place of the first one behind a string, a comment or an
address: it is nothing where the first one is, and keeps the end of a line. -/
structure KeepsEnd (behind behind' : Text) : Prop where
  nil : behind = [] → behind' = []
  newline : startsNewline behind = true → behind'.head? = behind.head?

variable {behind behind' : Text}

/-! ## Escapes -/

/-- What ends within a text, before its last character, does not depend on what follows. -/
theorem append_of_lt {extent : Text → Nat}
    (hextent : ∀ {behind behind' text : Text}, Follows behind behind' →
      extent (text ++ behind) ≤ text.length → extent (text ++ behind') = extent (text ++ behind))
    {text : Text} (hlt : extent (text ++ behind) < text.length) (behind' : Text) :
    extent (text ++ behind') = extent (text ++ behind) := by
  rcases List.eq_nil_or_concat text with rfl | ⟨front, d, rfl⟩
  · cases hlt
  · rw [List.concat_eq_append] at hlt ⊢
    rw [List.append_assoc] at hlt ⊢
    rw [List.append_assoc]
    rw [List.length_append, List.length_singleton] at hlt
    exact hextent (Follows.of_head? rfl) (Nat.le_of_lt_succ hlt)

theorem stringEscapeExtent_append_of_le (h : Follows behind behind') {text : Text}
    (hle : stringEscapeExtent (text ++ behind) ≤ text.length) :
    stringEscapeExtent (text ++ behind') = stringEscapeExtent (text ++ behind) := by
  rw [stringEscapeExtent] at hle
  rw [stringEscapeExtent, stringEscapeExtent, h.startsNewline_eq]
  split
  · rename_i hnewline
    rw [if_pos hnewline] at hle
    exact newlineExtent_append_of_le h hle
  · rename_i hnewline
    rw [if_neg hnewline] at hle
    exact escapeExtent_append_of_le h hle

/-! ## Strings -/

/-- A string that has ended is followed by nothing, or by the end of its line. -/
theorem head?_of_stringExtent_eq_zero {mark : Char} (h : KeepsEnd behind behind')
    (hzero : stringExtent mark behind = 0) :
    behind'.head? = behind.head? ∧ stringExtent mark behind' = 0 := by
  cases behind with
  | nil =>
      rw [h.nil rfl]
      exact ⟨rfl, hzero⟩
  | cons c rest =>
      rw [stringExtent] at hzero
      split at hzero
      · omega
      split at hzero
      · cases hzero
      split at hzero
      · rename_i hslash hmark hnewline
        have hhead := h.newline hnewline
        refine ⟨hhead, ?_⟩
        cases behind' with
        | nil => cases hhead
        | cons d rest' =>
            obtain rfl : d = c := by simpa using hhead
            rw [stringExtent, if_neg hslash, if_neg hmark, if_pos hnewline]
      · omega

theorem stringExtent_append_of_le {mark : Char} (h : KeepsEnd behind behind') {text : Text}
    (hle : stringExtent mark (text ++ behind) ≤ text.length) :
    stringExtent mark (text ++ behind') = stringExtent mark (text ++ behind) := by
  induction hlength : text.length using Nat.strongRecOn generalizing text with
  | ind length ih =>
      cases text with
      | nil =>
          have hzero : stringExtent mark behind = 0 := Nat.le_zero.1 hle
          rw [List.nil_append, List.nil_append, hzero,
            (head?_of_stringExtent_eq_zero h hzero).2]
      | cons c rest =>
          rw [List.length_cons] at hlength
          rw [List.cons_append, stringExtent, List.length_cons] at hle
          rw [List.cons_append, List.cons_append, stringExtent, stringExtent]
          split
          · -- An escape ends before the text does, or with the string.
            rename_i hslash
            rw [if_pos hslash] at hle
            have hwithin : stringEscapeExtent (rest ++ behind) ≤ rest.length := by omega
            rw [List.drop_append_of_le_length hwithin] at hle ⊢
            have hsame : stringEscapeExtent (rest ++ behind') =
                stringEscapeExtent (rest ++ behind) := by
              rcases Nat.lt_or_eq_of_le hwithin with hlt | heq
              · refine append_of_lt (fun hfollows hle => ?_) hlt behind'
                exact stringEscapeExtent_append_of_le hfollows hle
              · -- The escape is the end of the string.
                rw [heq, List.drop_length, List.nil_append] at hle
                have hzero : stringExtent mark behind = 0 := by omega
                have hhead := (head?_of_stringExtent_eq_zero h hzero).1
                exact stringEscapeExtent_append_of_le (Follows.of_head? hhead) hwithin
            have hrest := List.length_drop (i := stringEscapeExtent (rest ++ behind)) (l := rest)
            have hbehind := ih _ (by omega)
              (by omega : stringExtent mark
                  (rest.drop (stringEscapeExtent (rest ++ behind)) ++ behind) ≤
                (rest.drop (stringEscapeExtent (rest ++ behind))).length) rfl
            rw [hsame, List.drop_append_of_le_length hwithin, hbehind]
          · rename_i hslash
            rw [if_neg hslash] at hle
            split
            · rfl
            · rename_i hmark
              rw [if_neg hmark] at hle
              split
              · rfl
              · rename_i hnewline
                rw [if_neg hnewline] at hle
                rw [ih rest.length (by omega) (by omega) rfl]

/-! ## Comments -/

theorem commentExtent_cons {c : Char} {rest : Text}
    (h : ∀ after, c :: rest ≠ '*' :: '/' :: after) :
    commentExtent (c :: rest) = 1 + commentExtent rest := by
  rw [commentExtent]
  rintro after rfl rfl
  exact h after rfl

theorem commentExtent_eq_zero_iff {text : Text} : commentExtent text = 0 ↔ text = [] := by
  constructor
  · intro hzero
    rw [commentExtent.eq_def] at hzero
    split at hzero
    · rfl
    · cases hzero
    · omega
  · rintro rfl
    rfl

theorem commentExtent_append_of_le (h : KeepsEnd behind behind') {text : Text}
    (hle : commentExtent (text ++ behind) ≤ text.length) :
    commentExtent (text ++ behind') = commentExtent (text ++ behind) := by
  induction text with
  | nil =>
      have hnil : behind = [] := commentExtent_eq_zero_iff.1 (Nat.le_zero.1 hle)
      rw [hnil, h.nil hnil]
  | cons c rest ih =>
      by_cases hend : ∃ after, c :: (rest ++ behind) = '*' :: '/' :: after
      · obtain ⟨after, hafter⟩ := hend
        obtain ⟨rfl, hrest⟩ := List.cons.inj hafter
        cases rest with
        | nil =>
            rw [List.cons_append, hrest, commentExtent] at hle
            simp at hle
        | cons d rest =>
            obtain ⟨rfl, -⟩ := List.cons.inj hrest
            rfl
      · have hone : ∀ after, c :: (rest ++ behind) ≠ '*' :: '/' :: after :=
          fun after heq => hend ⟨after, heq⟩
        rw [List.cons_append, commentExtent_cons hone, List.length_cons] at hle
        have hsame := ih (by omega)
        rw [List.cons_append, List.cons_append, commentExtent_cons hone, ← hsame,
          commentExtent_cons]
        intro after heq
        obtain ⟨rfl, hrest⟩ := List.cons.inj heq
        cases rest with
        | cons d rest =>
            obtain ⟨rfl, -⟩ := List.cons.inj hrest
            exact hone (rest ++ behind) rfl
        | nil =>
            -- Nothing is left of the comment behind the asterisk.
            have hnil := commentExtent_eq_zero_iff.1 (Nat.le_zero.1 (Nat.le_of_add_le_add_left hle))
            rw [List.nil_append] at hnil hrest
            rw [h.nil hnil] at hrest
            cases hrest

/-! ## White space -/

theorem spaceExtent_le (text : Text) : spaceExtent text ≤ text.length :=
  (List.takeWhile_sublist _).length_le

/-- White space that takes the whole text. -/
theorem forall_isSpace_of_length_le {text : Text} (h : text.length ≤ spaceExtent text) :
    ∀ c ∈ text, isSpace c = true := by
  rw [← List.takeWhile_eq_self_iff]
  exact (List.takeWhile_prefix isSpace).eq_of_length_le h

/-- White space that ends within a stretch is the same in front of more text. -/
theorem spaceExtent_append_of_lt {text : Text} (h : spaceExtent text < text.length) (rest : Text) :
    spaceExtent (text ++ rest) = spaceExtent text := by
  rw [spaceExtent] at h
  rw [spaceExtent, spaceExtent, List.takeWhile_append, if_neg (by omega)]

/-- Either all of the stretch is white space, or what follows its white space begins in the stretch,
whatever stands behind. -/
theorem drop_spaceExtent (text : Text) :
    spaceExtent text = text.length ∨
      ∃ c inside, text.drop (spaceExtent text) = c :: inside ∧
        ∀ rest, spaceExtent (text ++ rest) = spaceExtent text ∧
          (text ++ rest).drop (spaceExtent text) = c :: (inside ++ rest) := by
  by_cases hall : spaceExtent text = text.length
  · exact Or.inl hall
  · right
    have hle := spaceExtent_le text
    cases hdrop : text.drop (spaceExtent text) with
    | nil =>
        rw [List.drop_eq_nil_iff] at hdrop
        omega
    | cons c inside =>
        refine ⟨c, inside, rfl, ?_⟩
        intro rest
        refine ⟨spaceExtent_append_of_lt (by omega) rest, ?_⟩
        rw [List.drop_append_of_le_length hle, hdrop, List.cons_append]

/-! ## Addresses -/

theorem badUrlExtent_eq_zero_iff {text : Text} : badUrlExtent text = 0 ↔ text = [] := by
  constructor
  · intro hzero
    rw [badUrlExtent.eq_def] at hzero
    split at hzero
    · rfl
    · cases hzero
    · split at hzero
      · cases hzero
      · split at hzero <;> omega
  · rintro rfl
    rfl

theorem badUrlExtent_append_of_le (h : KeepsEnd behind behind') {text : Text}
    (hle : badUrlExtent (text ++ behind) ≤ text.length) :
    badUrlExtent (text ++ behind') = badUrlExtent (text ++ behind) := by
  fun_induction badUrlExtent text with
  | case1 =>
      have hnil : behind = [] := badUrlExtent_eq_zero_iff.1 (Nat.le_zero.1 hle)
      rw [hnil, h.nil hnil]
  | case2 c =>
      cases hbehind : behind with
      | nil => rw [h.nil hbehind]
      | cons d rest =>
          rw [hbehind, List.singleton_append, badUrlExtent, List.length_singleton] at hle
          -- The address ends with its only character.
          have hclose : c = ')' := by
            by_contra hclose
            rw [if_neg hclose] at hle
            have hpos : badUrlExtent (d :: rest) ≠ 0 :=
              mt badUrlExtent_eq_zero_iff.1 (List.cons_ne_nil d rest)
            split at hle <;> omega
          subst hclose
          cases behind' with
          | nil => rfl
          | cons d' rest' => rfl
  | case3 second rest => rfl
  | case4 c second rest hclose hescape ih =>
      rw [List.cons_append, List.cons_append, badUrlExtent, if_neg hclose, if_pos hescape,
        List.length_cons, List.length_cons] at hle
      simp only [List.cons_append]
      rw [badUrlExtent, badUrlExtent, if_neg hclose, if_neg hclose, if_pos hescape,
        if_pos hescape, ih (by omega)]
  | case5 c second rest hclose hescape ih =>
      rw [List.cons_append, List.cons_append, badUrlExtent, if_neg hclose, if_neg hescape,
        List.length_cons] at hle
      have hsame := ih (by rw [List.cons_append]; omega)
      simp only [List.cons_append] at hsame ⊢
      rw [badUrlExtent, badUrlExtent, if_neg hclose, if_neg hclose, if_neg hescape,
        if_neg hescape, hsame]

/-- White space that takes a whole text and nothing behind it. -/
theorem head?_of_spaceExtent_le {text : Text} (hall : spaceExtent text = text.length)
    (hle : spaceExtent (text ++ behind) ≤ text.length) :
    ∀ c ∈ behind.head?, isSpace c = false := by
  have hspace := forall_isSpace_of_length_le (Nat.le_of_eq hall.symm)
  intro c hc
  cases behind with
  | nil => cases hc
  | cons d rest =>
      obtain rfl : d = c := by simpa using hc
      rw [Bool.eq_false_iff]
      intro hd
      rw [spaceExtent, List.takeWhile_append_of_pos hspace, List.takeWhile_cons_of_pos hd,
        List.length_append, List.length_cons] at hle
      omega

theorem urlEndExtent_append_of_le (h : KeepsEnd behind behind') {text : Text}
    (hle : urlEndExtent (text ++ behind) ≤ text.length) :
    urlEndExtent (text ++ behind') = urlEndExtent (text ++ behind) := by
  rcases drop_spaceExtent text with hall | ⟨c, inside, hdrop, hrest⟩
  · -- Only the end of the input can stand behind white space.
    have hblanks : spaceExtent (text ++ behind) ≤ urlEndExtent (text ++ behind) := by
      rw [urlEndExtent]
      cases (text ++ behind).drop (spaceExtent (text ++ behind)) with
      | nil => exact Nat.le_refl _
      | cons c rest =>
          dsimp only
          split <;> omega
    have hhead := head?_of_spaceExtent_le hall (hblanks.trans hle)
    have hsame : spaceExtent (text ++ behind) = text.length := by
      rw [spaceExtent, takeWhile_append_of_head? hhead]
      exact hall
    rw [urlEndExtent, hsame] at hle
    simp only [List.drop_left] at hle
    cases behind with
    | nil => rw [h.nil rfl]
    | cons c rest =>
        dsimp only at hle
        split at hle <;> omega
  · have hlength := congrArg List.length hdrop
    rw [List.length_drop, List.length_cons] at hlength
    rw [urlEndExtent] at hle
    simp only [(hrest _).1, (hrest _).2] at hle
    rw [urlEndExtent, urlEndExtent]
    simp only [(hrest _).1, (hrest _).2]
    by_cases hclose : c = ')'
    · rw [if_pos hclose, if_pos hclose]
    · rw [if_neg hclose] at hle
      rw [if_neg hclose, if_neg hclose, badUrlExtent_append_of_le h (by omega)]

theorem urlBodyExtent_eq_zero_iff {text : Text} : urlBodyExtent text = 0 ↔ text = [] := by
  constructor
  · intro hzero
    cases text with
    | nil => rfl
    | cons c rest =>
        rw [urlBodyExtent] at hzero
        split at hzero
        · cases hzero
        split at hzero
        · rename_i hspace
          -- White space counts by itself, whatever ends the address.
          have hpos : 0 < spaceExtent (c :: rest) := by
            rw [spaceExtent, List.takeWhile_cons_of_pos hspace]
            exact Nat.succ_pos _
          rw [urlEndExtent] at hzero
          split at hzero
          · omega
          · split at hzero <;> omega
        split at hzero
        · omega
        split at hzero
        · split at hzero <;> omega
        · omega
  · rintro rfl
    rw [urlBodyExtent]

/-- The rest of an address behind a backslash: an escape, and what follows it. -/
theorem urlEscapeExtent_append_of_le (h : KeepsEnd behind behind') {rest : Text}
    (hle : escapeExtent (rest ++ behind) +
      urlBodyExtent ((rest ++ behind).drop (escapeExtent (rest ++ behind))) ≤ rest.length)
    (hbody : ∀ text : Text, text.length ≤ rest.length →
      urlBodyExtent (text ++ behind) ≤ text.length →
      urlBodyExtent (text ++ behind') = urlBodyExtent (text ++ behind)) :
    escapeExtent (rest ++ behind') = escapeExtent (rest ++ behind) ∧
      urlBodyExtent ((rest ++ behind').drop (escapeExtent (rest ++ behind))) =
        urlBodyExtent ((rest ++ behind).drop (escapeExtent (rest ++ behind))) := by
  have hwithin : escapeExtent (rest ++ behind) ≤ rest.length := by omega
  rw [List.drop_append_of_le_length hwithin] at hle ⊢
  have hrest := List.length_drop (i := escapeExtent (rest ++ behind)) (l := rest)
  refine ⟨?_, ?_⟩
  · rcases Nat.lt_or_eq_of_le hwithin with hlt | heq
    · exact append_of_lt (fun hfollows hle => escapeExtent_append_of_le hfollows hle) hlt behind'
    · -- The escape is the end of the address.
      rw [heq, List.drop_length, List.nil_append] at hle
      have hnil := urlBodyExtent_eq_zero_iff.1 (by omega : urlBodyExtent behind = 0)
      rw [hnil, h.nil hnil]
  · rw [List.drop_append_of_le_length hwithin]
    exact hbody _ (by omega) (by omega)

theorem urlBodyExtent_append_of_le (h : KeepsEnd behind behind') {text : Text}
    (hle : urlBodyExtent (text ++ behind) ≤ text.length) :
    urlBodyExtent (text ++ behind') = urlBodyExtent (text ++ behind) := by
  induction hlength : text.length using Nat.strongRecOn generalizing text with
  | ind length ih =>
      cases text with
      | nil =>
          have hnil : behind = [] := urlBodyExtent_eq_zero_iff.1 (Nat.le_zero.1 hle)
          rw [hnil, h.nil hnil]
      | cons c rest =>
          rw [List.length_cons] at hlength
          have hbody := fun more => urlBodyExtent.eq_2 c (rest ++ more)
          simp only [List.cons_append] at hle ⊢
          rw [hbody, List.length_cons] at hle
          rw [hbody, hbody]
          by_cases hclose : c = ')'
          · rw [if_pos hclose, if_pos hclose]
          rw [if_neg hclose] at hle
          rw [if_neg hclose, if_neg hclose]
          by_cases hspace : isSpace c = true
          · rw [if_pos hspace, ← List.cons_append] at hle
            rw [if_pos hspace, if_pos hspace, ← List.cons_append, ← List.cons_append]
            exact urlEndExtent_append_of_le h hle
          rw [if_neg hspace] at hle
          rw [if_neg hspace, if_neg hspace]
          by_cases hbreaks : breaksUrl c = true
          · rw [if_pos hbreaks] at hle
            rw [if_pos hbreaks, if_pos hbreaks, badUrlExtent_append_of_le h (by omega)]
          rw [if_neg hbreaks] at hle
          rw [if_neg hbreaks, if_neg hbreaks]
          by_cases hslash : c = '\\'
          · rw [if_pos hslash] at hle
            rw [if_pos hslash, if_pos hslash]
            cases rest with
            | nil =>
                -- Nothing is left of the address behind the backslash.
                have hnil : behind = [] := by
                  rw [List.nil_append, List.length_nil] at hle
                  split at hle
                  · exact badUrlExtent_eq_zero_iff.1 (by omega)
                  · exact escapeExtent_eq_zero_iff.1 (by omega)
                rw [hnil, h.nil hnil]
            | cons d rest =>
                have hnewline : ∀ more, startsNewline (d :: rest ++ more) = isNewline d :=
                  fun more => rfl
                rw [hnewline] at hle
                rw [hnewline, hnewline]
                split
                · rename_i hd
                  rw [if_pos hd] at hle
                  rw [badUrlExtent_append_of_le h (by omega)]
                · rename_i hd
                  rw [if_neg hd] at hle
                  generalize d :: rest = rest at hle hlength ⊢
                  have hwithin : escapeExtent (rest ++ behind) + urlBodyExtent
                      ((rest ++ behind).drop (escapeExtent (rest ++ behind))) ≤ rest.length := by
                    omega
                  obtain ⟨hescape, hrest⟩ := urlEscapeExtent_append_of_le h hwithin
                    fun text hshort hle => ih text.length (by omega) hle rfl
                  rw [hescape, hrest]
          · rw [if_neg hslash] at hle
            rw [if_neg hslash, if_neg hslash, ih rest.length (by omega) (by omega) rfl]

/-- No address begins in front of a quoted text behind white space. -/
theorem urlExtent_eq_none_iff {text : Text} :
    urlExtent text = none ↔
      ∃ c, (text.dropWhile isSpace).head? = some c ∧ (c = '"' ∨ c = '\'') := by
  have hdrop : text.drop (spaceExtent text) = text.dropWhile isSpace := by
    have hleft : (text.takeWhile isSpace ++ text.dropWhile isSpace).drop (spaceExtent text) =
        text.dropWhile isSpace := List.drop_left
    rwa [List.takeWhile_append_dropWhile] at hleft
  rw [urlExtent, hdrop]
  cases text.dropWhile isSpace with
  | nil => simp
  | cons c rest => simp [or_iff_not_imp_left]

theorem urlExtent_append_of_le (h : KeepsEnd behind behind') {text : Text} {extent : Nat}
    (hextent : urlExtent (text ++ behind) = some extent) (hle : extent ≤ text.length) :
    urlExtent (text ++ behind') = some extent := by
  rcases drop_spaceExtent text with hall | ⟨c, inside, hdrop, hrest⟩
  · -- Behind white space alone the address would go on, so that nothing may stand there.
    have hblanks : spaceExtent (text ++ behind) ≤ extent := by
      rw [urlExtent] at hextent
      cases hdrop : (text ++ behind).drop (spaceExtent (text ++ behind)) with
      | nil =>
          simp only [hdrop, Option.some.injEq] at hextent
          omega
      | cons c rest =>
          simp only [hdrop] at hextent
          split at hextent
          · cases hextent
          · simp only [Option.some.injEq] at hextent
            omega
    have hhead := head?_of_spaceExtent_le hall (hblanks.trans hle)
    have hsame : spaceExtent (text ++ behind) = text.length := by
      rw [spaceExtent, takeWhile_append_of_head? hhead]
      exact hall
    have hnil : behind = [] := by
      rw [urlExtent, hsame] at hextent
      simp only [List.drop_left] at hextent
      cases behind with
      | nil => rfl
      | cons c rest =>
          dsimp only at hextent
          split at hextent
          · cases hextent
          · rw [Option.some.injEq] at hextent
            have hpos : urlBodyExtent (c :: rest) ≠ 0 :=
              mt urlBodyExtent_eq_zero_iff.1 (List.cons_ne_nil c rest)
            omega
    rw [h.nil hnil, ← hextent, hnil]
  · -- The address begins within the stretch, and its body is the same in both texts.
    have hlength := congrArg List.length hdrop
    rw [List.length_drop, List.length_cons] at hlength
    rw [urlExtent] at hextent
    simp only [(hrest _).1, (hrest _).2] at hextent
    rw [urlExtent]
    simp only [(hrest _).1, (hrest _).2]
    by_cases hquote : c = '"' ∨ c = '\''
    · rw [if_pos hquote] at hextent
      cases hextent
    · rw [if_neg hquote, Option.some.injEq] at hextent
      have hsame : urlBodyExtent (c :: inside ++ behind') =
          urlBodyExtent (c :: inside ++ behind) := by
        apply urlBodyExtent_append_of_le h
        rw [List.cons_append, List.length_cons]
        omega
      rw [if_neg hquote, ← hextent, ← List.cons_append, ← List.cons_append, hsame]

end UtilityCss.Token
