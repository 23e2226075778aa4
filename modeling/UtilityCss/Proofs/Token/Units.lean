import UtilityCss.Proofs.Token.Locality

/-!
# Characters and escapes

Outside strings, comments and addresses a text is read in units: characters, and escapes as a whole.
No token ends inside a unit, so that the units of a text stay the same whatever the tokens are that
it is cut into.

* `Token.Units` says that a text consists of escapes and of characters that meet a condition on
  what follows them.
* `Token.Follows` says of a text that it can stand in the place of another one behind an escape.
* `Token.EndsGap` says that a text ends in a character, not in an escape, which separates it from a
  name behind it.

Main statements: `Units.append` and `Units.cancel` put texts together and take them apart,
`Units.congr` exchanges the text behind.
-/

set_option autoImplicit false

namespace UtilityCss.Token

/-! ## Escapes -/

theorem newlineExtent_le (text : Text) : newlineExtent text ≤ text.length := by
  rw [newlineExtent.eq_def]
  split
  · exact Nat.le_refl 0
  · split
    · split <;> simp
    · split <;> simp

theorem oneSpaceExtent_le (text : Text) : oneSpaceExtent text ≤ text.length := by
  cases text with
  | nil => exact Nat.le_refl 0
  | cons c text =>
      rw [oneSpaceExtent]
      split
      · exact newlineExtent_le _
      · split <;> simp

theorem escapeExtent_le (text : Text) : escapeExtent text ≤ text.length := by
  cases text with
  | nil => exact Nat.le_refl 0
  | cons c text =>
      have hlength := Escape.length_digits_le (c :: text)
      have hspace := oneSpaceExtent_le ((c :: text).drop (Escape.digits (c :: text)).length)
      rw [List.length_drop] at hspace
      rw [escapeExtent]
      split
      · dsimp only
        omega
      · simp

/-- The second text can stand in the place of the first one behind an escape: it does not go on
with the escape where the first one does not, and keeps the end of a line. -/
structure Follows (behind behind' : Text) : Prop where
  nil : behind = [] → behind' = []
  newline : startsNewline behind = true → behind'.head? = behind.head?
  head : ∀ c ∈ behind'.head?, isHexDigit c = true ∨ isSpace c = true → behind.head? = some c

variable {behind behind' : Text}

theorem Follows.nil_right (h : startsNewline behind = false) : Follows behind [] where
  nil := fun _ => rfl
  newline := fun hnewline => by rw [h] at hnewline; cases hnewline
  head := by simp

theorem Follows.of_head? (h : behind'.head? = behind.head?) : Follows behind behind' where
  nil := by
    rintro rfl
    exact List.head?_eq_none_iff.1 h
  newline := fun _ => h
  head := by
    intro c hc _
    rw [← h]
    exact hc

theorem startsNewline_eq_head? (text : Text) :
    startsNewline text = (text.head?.map isNewline).getD false := by
  cases text <;> rfl

theorem isSpace_of_isNewline {c : Char} (h : isNewline c = true) : isSpace c = true := by
  rw [isSpace, h, Bool.or_true]

/-- A text that follows another one starts with the end of a line if the other one does. -/
theorem Follows.startsNewline_eq (h : Follows behind behind') (text : Text) :
    startsNewline (text ++ behind') = startsNewline (text ++ behind) := by
  cases text with
  | cons c text => rfl
  | nil =>
      rw [List.nil_append, List.nil_append, Bool.eq_iff_iff]
      constructor
      · intro hstarts
        cases behind' with
        | nil => cases hstarts
        | cons c rest =>
            have hhead := h.head c rfl (Or.inr (isSpace_of_isNewline hstarts))
            rw [startsNewline_eq_head?, hhead]
            exact hstarts
      · intro hstarts
        rw [startsNewline_eq_head?, h.newline hstarts, ← startsNewline_eq_head?]
        exact hstarts

theorem takeWhile_take_append {p : Char → Bool} {text : Text} {count : Nat}
    (hhead : ∀ c ∈ behind'.head?, p c = true → behind.head? = some c)
    (hle : (((text ++ behind).take count).takeWhile p).length ≤ text.length) :
    ((text ++ behind').take count).takeWhile p = ((text ++ behind).take count).takeWhile p := by
  induction text generalizing count with
  | nil =>
      -- Nothing was taken behind the stretch, and what is taken there now would have been taken.
      have hnil : ((behind.take count).takeWhile p) = [] :=
        List.eq_nil_of_length_eq_zero (Nat.le_zero.1 hle)
      rw [List.nil_append, List.nil_append, hnil]
      cases count with
      | zero => simp
      | succ count =>
          cases behind' with
          | nil => simp
          | cons c rest =>
              rw [List.take_succ_cons, List.takeWhile_cons]
              split
              · rename_i hc
                cases behind with
                | nil => exact absurd (hhead c rfl hc) (by simp)
                | cons d rest' =>
                    obtain rfl : d = c := by simpa using hhead c rfl hc
                    rw [List.take_succ_cons, List.takeWhile_cons_of_pos hc] at hnil
                    cases hnil
              · rfl
  | cons c text ih =>
      cases count with
      | zero => simp
      | succ count =>
          rw [List.cons_append, List.take_succ_cons, List.takeWhile_cons] at hle
          rw [List.cons_append, List.cons_append, List.take_succ_cons, List.take_succ_cons,
            List.takeWhile_cons, List.takeWhile_cons]
          split
          · rename_i hc
            rw [if_pos hc, List.length_cons, List.length_cons] at hle
            rw [ih (Nat.le_of_succ_le_succ hle)]
          · rfl

theorem newlineExtent_cons (c : Char) (rest : Text) :
    newlineExtent (c :: rest) =
      if c = '\r' then (if rest.head? = some '\n' then 2 else 1)
      else if isNewline c then 1 else 0 := by
  cases rest with
  | nil => simp [newlineExtent]
  | cons d rest =>
      by_cases hd : d = '\n'
      · subst hd
        simp [newlineExtent]
      · simp [newlineExtent, hd]

theorem newlineExtent_eq_zero_iff {text : Text} :
    newlineExtent text = 0 ↔ startsNewline text = false := by
  cases text with
  | nil => exact iff_of_true rfl rfl
  | cons c rest =>
      rw [newlineExtent_cons, startsNewline]
      by_cases hreturn : c = '\r'
      · subst hreturn
        rw [if_pos rfl]
        exact iff_of_false (by split <;> simp) (by decide)
      · rw [if_neg hreturn]
        cases isNewline c <;> simp

theorem newlineExtent_append_of_le (h : Follows behind behind') {text : Text}
    (hle : newlineExtent (text ++ behind) ≤ text.length) :
    newlineExtent (text ++ behind') = newlineExtent (text ++ behind) := by
  rcases text with _ | ⟨c, _ | ⟨d, text⟩⟩
  · -- No end of a line stands behind, so that none comes with the other text.
    have hzero : newlineExtent behind = 0 := Nat.le_zero.1 hle
    have hstarts := newlineExtent_eq_zero_iff.1 hzero
    rw [List.nil_append, List.nil_append, hzero, newlineExtent_eq_zero_iff,
      ← List.nil_append behind', h.startsNewline_eq, List.nil_append, hstarts]
  · rw [List.singleton_append, newlineExtent_cons] at hle
    rw [List.singleton_append, List.singleton_append, newlineExtent_cons, newlineExtent_cons]
    split
    · rename_i hreturn
      -- The end of the line behind would be taken along.
      have hbehind : behind.head? ≠ some '\n' := by
        intro hline
        rw [if_pos hreturn, if_pos hline] at hle
        simp at hle
      have hbehind' : behind'.head? ≠ some '\n' := by
        intro hline
        exact hbehind (h.head '\n' hline (Or.inr (by decide)))
      rw [if_neg hbehind, if_neg hbehind']
    · rfl
  · simp [newlineExtent_cons]

theorem oneSpaceExtent_eq_zero_iff {text : Text} :
    oneSpaceExtent text = 0 ↔ ∀ c ∈ text.head?, isSpace c = false := by
  cases text with
  | nil => simp [oneSpaceExtent]
  | cons c rest =>
      rw [oneSpaceExtent]
      split
      · rename_i hc
        rw [newlineExtent_eq_zero_iff, startsNewline, hc]
        simp [isSpace_of_isNewline hc]
      · cases hc : isSpace c <;> simp [hc]

theorem oneSpaceExtent_append_of_le (h : Follows behind behind') {text : Text}
    (hle : oneSpaceExtent (text ++ behind) ≤ text.length) :
    oneSpaceExtent (text ++ behind') = oneSpaceExtent (text ++ behind) := by
  cases text with
  | nil =>
      have hzero : oneSpaceExtent behind = 0 := Nat.le_zero.1 hle
      rw [List.nil_append, List.nil_append, hzero, oneSpaceExtent_eq_zero_iff]
      intro c hc
      rw [Bool.eq_false_iff]
      intro hspace
      have hother := oneSpaceExtent_eq_zero_iff.1 hzero c (h.head c hc (Or.inr hspace))
      rw [hspace] at hother
      cases hother
  | cons c text =>
      rw [List.cons_append, oneSpaceExtent] at hle
      rw [List.cons_append, List.cons_append, oneSpaceExtent, oneSpaceExtent]
      split
      · rename_i hc
        rw [if_pos hc] at hle
        have hsame : newlineExtent (c :: text ++ behind') = newlineExtent (c :: text ++ behind) :=
          newlineExtent_append_of_le h hle
        exact hsame
      · rfl

/-- An escape takes at least one character. -/
theorem escapeExtent_eq_zero_iff {text : Text} : escapeExtent text = 0 ↔ text = [] := by
  constructor
  · intro hzero
    cases text with
    | nil => rfl
    | cons c rest =>
        rw [escapeExtent] at hzero
        split at hzero
        · rename_i hc
          have hdigits : Escape.digits (c :: rest) = c :: (rest.take 5).takeWhile isHexDigit := by
            rw [Escape.digits, List.take_succ_cons, List.takeWhile_cons_of_pos hc]
          simp [hdigits] at hzero
        · cases hzero
  · rintro rfl
    rfl

/-- An escape that ends within a text is the same if another text follows. -/
theorem escapeExtent_append_of_le (h : Follows behind behind') {text : Text}
    (hle : escapeExtent (text ++ behind) ≤ text.length) :
    escapeExtent (text ++ behind') = escapeExtent (text ++ behind) := by
  cases text with
  | nil =>
      have hnil : behind = [] := escapeExtent_eq_zero_iff.1 (Nat.le_zero.1 hle)
      rw [hnil, h.nil hnil]
  | cons c text =>
      rw [List.cons_append, escapeExtent] at hle
      rw [List.cons_append, List.cons_append, escapeExtent, escapeExtent]
      split
      · rename_i hc
        rw [if_pos hc] at hle
        dsimp only at hle
        -- The digits end within the text, and so does the white space behind them.
        have hrun : (Escape.digits (c :: text ++ behind)).length ≤ (c :: text).length := by
          rw [List.cons_append]
          omega
        have hdigits : Escape.digits (c :: text ++ behind') =
            Escape.digits (c :: text ++ behind) :=
          takeWhile_take_append (fun d hd hhex => h.head d hd (Or.inl hhex)) hrun
        rw [List.cons_append, List.cons_append] at hdigits
        dsimp only
        rw [hdigits, ← List.cons_append, ← List.cons_append]
        rw [← List.cons_append, List.drop_append_of_le_length hrun] at hle
        rw [List.drop_append_of_le_length hrun, List.drop_append_of_le_length hrun,
          oneSpaceExtent_append_of_le h]
        rw [List.length_drop]
        omega
      · rfl

/-! ## Units -/

/-- Escapes and characters in front of a text. The characters meet a condition on what follows
them, and a backslash is a character of its own only at the end of a line. -/
inductive Units (p : Char → Text → Prop) (behind : Text) : Text → Prop
  | nil : Units p behind []
  | char {c : Char} {rest : Text} : (c = '\\' → startsNewline (rest ++ behind) = true) →
      p c (rest ++ behind) → Units p behind rest → Units p behind (c :: rest)
  | escape {rest : Text} : startsNewline (rest ++ behind) = false →
      escapeExtent (rest ++ behind) ≤ rest.length →
      Units p behind (rest.drop (escapeExtent (rest ++ behind))) →
      Units p behind ('\\' :: rest)

/-- Any characters. -/
def AnyChar (_ : Char) (_ : Text) : Prop := True

namespace Units

variable {p q : Char → Text → Prop} {text first second : Text}

theorem mono (h : Units p behind text) (hpq : ∀ c rest, p c rest → q c rest) :
    Units q behind text := by
  induction h with
  | nil => exact .nil
  | char hslash hp _ ih => exact .char hslash (hpq _ _ hp) ih
  | escape hnewline hle _ ih => exact .escape hnewline hle ih

theorem anyChar (h : Units p behind text) : Units AnyChar behind text :=
  h.mono fun _ _ _ => trivial

/-- Without backslashes each character is a unit. -/
theorem of_not_mem (h : '\\' ∉ text)
    (hp : ∀ front c rest, text = front ++ c :: rest → p c (rest ++ behind)) :
    Units p behind text := by
  induction text with
  | nil => exact .nil
  | cons c rest ih =>
      rw [List.mem_cons, not_or] at h
      refine .char (fun hc => absurd hc.symm h.1) (hp [] c rest rfl) (ih h.2 ?_)
      intro front d more hrest
      exact hp (c :: front) d more (by rw [hrest]; rfl)

theorem append (h : Units p (second ++ behind) first) (h' : Units p behind second) :
    Units p behind (first ++ second) := by
  induction h with
  | nil => exact h'
  | char hslash hp _ ih =>
      rw [← List.append_assoc] at hslash hp
      exact .char hslash hp ih
  | @escape rest hnewline hle _ ih =>
      rw [← List.append_assoc] at hnewline hle ih
      rw [List.cons_append]
      refine .escape hnewline (Nat.le_trans hle (by simp)) ?_
      rwa [List.drop_append_of_le_length hle]

/-- What stands behind units of a text consists of units. -/
theorem cancel (h : Units q (second ++ behind) first) (h' : Units p behind (first ++ second)) :
    Units p behind second := by
  induction h with
  | nil => exact h'
  | @char c rest hslash _ _ ih =>
      rw [List.cons_append] at h'
      cases h' with
      | char _ _ hrest => exact ih hrest
      | escape hnewline _ _ =>
          -- The end of the line behind a backslash tells the two readings apart.
          rw [List.append_assoc, hslash rfl] at hnewline
          cases hnewline
  | @escape rest hnewline hle _ ih =>
      rw [List.cons_append] at h'
      cases h' with
      | char hslash _ _ =>
          rw [List.append_assoc, hnewline] at hslash
          cases hslash rfl
      | escape _ _ hrest =>
          rw [List.append_assoc, List.drop_append_of_le_length hle] at hrest
          exact ih hrest

/-- The units in front are units of their own. -/
theorem left (h : Units q (second ++ behind) first) (h' : Units p behind (first ++ second)) :
    Units p (second ++ behind) first := by
  induction h with
  | nil => exact .nil
  | @char c rest hslash _ _ ih =>
      rw [List.cons_append] at h'
      cases h' with
      | char _ hp hrest =>
          rw [List.append_assoc] at hp
          exact .char hslash hp (ih hrest)
      | escape hnewline _ _ =>
          rw [List.append_assoc, hslash rfl] at hnewline
          cases hnewline
  | @escape rest hnewline hle _ ih =>
      rw [List.cons_append] at h'
      cases h' with
      | char hslash _ _ =>
          rw [List.append_assoc, hnewline] at hslash
          cases hslash rfl
      | escape _ _ hrest =>
          rw [List.append_assoc, List.drop_append_of_le_length hle] at hrest
          exact .escape hnewline hle (ih hrest)

/-- The text behind can be exchanged. -/
theorem congr (h : Units p behind text) (hfollows : Follows behind behind')
    (hp : ∀ c rest, p c (rest ++ behind) → p c (rest ++ behind')) : Units p behind' text := by
  induction h with
  | nil => exact .nil
  | @char c rest hslash hc _ ih =>
      refine .char (fun heq => ?_) (hp c rest hc) ih
      rw [hfollows.startsNewline_eq, hslash heq]
  | @escape rest hnewline hle _ ih =>
      have hsame := escapeExtent_append_of_le hfollows hle
      refine .escape (by rw [hfollows.startsNewline_eq, hnewline]) (by rwa [hsame]) ?_
      rwa [hsame]

end Units

/-! ## Names -/

/-- The characters of names. -/
def InName (c : Char) (_ : Text) : Prop :=
  isNameChar c = true

/-- A name consists of units. -/
theorem units_take_nameExtent (text : Text) :
    Units InName (text.drop (nameExtent text)) (text.take (nameExtent text)) := by
  fun_induction nameExtent text with
  | case1 => exact .nil
  | case2 rest hnewline => exact .nil
  | case3 rest hnewline ih =>
      rw [Nat.add_assoc, Nat.add_comm, List.take_succ_cons, List.drop_succ_cons]
      have hwhole := List.take_append_drop
        (escapeExtent rest + nameExtent (rest.drop (escapeExtent rest))) rest
      have hle := escapeExtent_le rest
      refine .escape ?_ ?_ ?_
      · rw [hwhole]
        simpa using hnewline
      · rw [hwhole, List.length_take]
        omega
      · rwa [hwhole, List.drop_take, Nat.add_sub_cancel_left, ← List.drop_drop]
  | case4 c rest hslash hname ih =>
      rw [Nat.add_comm, List.take_succ_cons, List.drop_succ_cons]
      exact .char (fun hc => absurd hc hslash) hname ih
  | case5 c rest hslash hname => exact .nil

namespace Units

variable {p : Char → Text → Prop} {text : Text}

/-- A name in units ends where no name goes on. -/
theorem nameExtent_le (h : Units p behind text) (hends : nameExtent behind = 0) :
    nameExtent (text ++ behind) ≤ text.length := by
  induction h with
  | nil => exact Nat.le_of_eq hends
  | @char c rest hslash _ _ ih =>
      rw [List.cons_append, nameExtent, List.length_cons]
      split
      · rename_i hc
        rw [if_pos (hslash hc)]
        exact Nat.zero_le _
      · split <;> omega
  | @escape rest hnewline hle _ ih =>
      rw [List.drop_append_of_le_length hle |>.symm, List.length_drop] at ih
      rw [List.cons_append, nameExtent, if_pos rfl, if_neg (by simp [hnewline]), List.length_cons]
      omega

/-- The name in front of units is the same if another text follows with which no name goes on. -/
theorem nameExtent_congr (h : Units p behind text) (hfollows : Follows behind behind')
    (hends : nameExtent behind = 0) (hends' : nameExtent behind' = 0) :
    nameExtent (text ++ behind') = nameExtent (text ++ behind) := by
  induction h with
  | nil => rw [List.nil_append, List.nil_append, hends, hends']
  | @char c rest hslash _ _ ih =>
      rw [List.cons_append, List.cons_append, nameExtent, nameExtent, hfollows.startsNewline_eq, ih]
      split
      · rename_i hc
        rw [if_pos (hslash hc), if_pos (hslash hc)]
      · rfl
  | @escape rest hnewline hle _ ih =>
      rw [List.cons_append, List.cons_append, nameExtent, nameExtent, if_pos rfl, if_pos rfl,
        hfollows.startsNewline_eq, escapeExtent_append_of_le hfollows hle,
        List.drop_append_of_le_length hle, List.drop_append_of_le_length hle, ih]

end Units

/-! ## Gaps -/

/-- The characters behind which a name begins anew: no character of names, no backslash, and none
of the marks that make a token with the name behind them. -/
def isGap (c : Char) : Bool :=
  !isNameChar c && c != '\\' && c != '#' && c != '@'

/-- The text ends in such a character, which is no part of an escape. -/
def EndsGap (text : Text) : Prop :=
  ∃ front d, text = front ++ [d] ∧ isGap d = true ∧ Units AnyChar [d] front

theorem nameExtent_cons_of_isGap {d : Char} (h : isGap d = true) (rest : Text) :
    nameExtent (d :: rest) = 0 := by
  simp only [isGap, Bool.and_eq_true, Bool.not_eq_true', bne_iff_ne, ne_eq] at h
  rw [nameExtent, if_neg h.1.1.2, if_neg (by simp [h.1.1.1])]

namespace EndsGap

variable {p : Char → Text → Prop} {text first second : Text}

theorem ne_nil (h : EndsGap text) : text ≠ [] := by
  obtain ⟨front, d, rfl, -, -⟩ := h
  simp

theorem append (h : Units p (second ++ behind) first) (h' : EndsGap second) :
    EndsGap (first ++ second) := by
  have hne := h'.ne_nil
  obtain ⟨front, d, rfl, hd, hunits⟩ := h'
  refine ⟨first ++ front, d, by simp, hd, ?_⟩
  refine Units.append (h.anyChar.congr ?_ fun _ _ _ => trivial) hunits
  apply Follows.of_head?
  cases front <;> rfl

theorem cancel (h : Units p (second ++ behind) first) (hne : second ≠ [])
    (h' : EndsGap (first ++ second)) : EndsGap second := by
  obtain ⟨front, d, heq, hd, hunits⟩ := h'
  obtain ⟨front', d', rfl⟩ := List.eq_nil_or_concat second |>.resolve_left hne
  rw [List.concat_eq_append] at heq h ⊢
  rw [← List.append_assoc] at heq
  obtain ⟨rfl, hlast⟩ := List.append_inj' heq rfl
  obtain rfl : d' = d := by simpa using hlast
  refine ⟨front', d', rfl, hd, ?_⟩
  refine Units.cancel (h.anyChar.congr ?_ fun _ _ _ => trivial) hunits
  apply Follows.of_head?
  cases front' <;> rfl

/-- A name does not go on behind a gap. -/
theorem nameExtent_append (h : EndsGap text) (rest : Text) :
    nameExtent (text ++ rest) = nameExtent text ∧ nameExtent text < text.length := by
  obtain ⟨front, d, rfl, hd, hunits⟩ := h
  have hends := nameExtent_cons_of_isGap hd
  constructor
  · rw [List.append_assoc]
    exact hunits.nameExtent_congr (Follows.of_head? rfl) (hends []) (hends rest)
  · rw [List.length_append]
    exact Nat.lt_succ_of_le (hunits.nameExtent_le (hends []))

end EndsGap

end UtilityCss.Token
