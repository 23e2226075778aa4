import UtilityCss.Reference
import Mathlib.Data.List.TakeWhile
import Mathlib.Tactic.Common

/-!
# Where references occur

Reading a value from left to right finds a reference at every place where its text stands and no
character of a name stands before it (`Template.mem_pieces_iff`). No two such places overlap, so
that none is lost, and none is left in the text between references
(`Template.not_occursIn_of_mem_stretches`).

* `Reference.IsWellFormed` says that a reference can be read.
* `Reference.OccursIn` says that it stands in a text where it counts.
* `Template.stretches` lists the texts before, between and after references.
-/

set_option autoImplicit false

namespace UtilityCss

namespace Reference

/-- A name of two hyphens and more, with nothing or with a comma and blanks after it. -/
structure IsWellFormed (reference : Reference) : Prop where
  name : ∃ tail, reference.name = "--".toList ++ tail ∧ tail ≠ [] ∧
    ∀ c ∈ tail, isNameChar c = true
  gap : reference.gap = [] ∨ ∃ blanks, reference.gap = ',' :: blanks ∧
    ∀ c ∈ blanks, isBlank c = true

/-! ## The form of a reference -/

section Form

variable {reference : Reference}

theorem gapOf_append {gap after : Text} (h : gap = [] ∨ ∃ blanks, gap = ',' :: blanks ∧
    ∀ c ∈ blanks, isBlank c = true) : gapOf (gap ++ ')' :: after) = gap := by
  rcases h with rfl | ⟨blanks, rfl, hblanks⟩
  · rfl
  · rw [List.cons_append, gapOf, if_pos rfl, List.takeWhile_append_of_pos hblanks,
      List.takeWhile_cons_of_neg (by decide), List.append_nil]

theorem isWellFormed_of_read? {text after : Text} (h : read? text = some (reference, after)) :
    reference.IsWellFormed := by
  unfold read? at h
  split at h
  · cases h
  · rename_i named hnamed
    simp only at h
    split at h
    · cases h
    · rename_i c rest hrest
      split at h
      · rename_i hc
        simp only [Bool.and_eq_true, Bool.not_eq_true', List.isEmpty_eq_false_iff] at hc
        cases h
        refine ⟨⟨_, rfl, hc.2, fun d hd => List.mem_takeWhile_imp hd⟩, ?_⟩
        cases named.dropWhile isNameChar with
        | nil => exact Or.inl rfl
        | cons d later =>
            rw [gapOf]
            split
            · exact Or.inr ⟨_, rfl, fun e he => List.mem_takeWhile_imp he⟩
            · exact Or.inl rfl
      · cases h

/-- A reference is read exactly where it is written. -/
theorem read?_eq_some_iff {text after : Text} :
    read? text = some (reference, after) ↔
      reference.IsWellFormed ∧ text = reference.source ++ after := by
  constructor
  · intro h
    exact ⟨isWellFormed_of_read? h, (source_of_read? h).symm⟩
  · rintro ⟨hform, rfl⟩
    obtain ⟨name, gap⟩ := reference
    obtain ⟨⟨tail, rfl, hne, hname⟩, hgap⟩ := hform
    dsimp only at hgap
    -- The name ends where the gap begins, or at the bracket.
    have hstop : ∀ c ∈ (gap ++ ')' :: after).head?, isNameChar c = false := by
      rcases hgap with rfl | ⟨blanks, rfl, -⟩ <;> (intro c hc; cases hc; decide)
    have htext : Text.after? (opening ++ "--".toList)
        (source ⟨"--".toList ++ tail, gap⟩ ++ after) = some (tail ++ (gap ++ ')' :: after)) := by
      rw [Text.after?_eq_some_iff]
      simp [source]
    have htake : (tail ++ (gap ++ ')' :: after)).takeWhile isNameChar = tail := by
      rw [List.takeWhile_append_of_pos hname]
      cases hrest : gap ++ ')' :: after with
      | nil => simp
      | cons c rest => simp [hstop c (by rw [hrest]; rfl)]
    have hdrop : (tail ++ (gap ++ ')' :: after)).dropWhile isNameChar = gap ++ ')' :: after := by
      rw [List.dropWhile_append_of_pos hname]
      cases hrest : gap ++ ')' :: after with
      | nil => simp
      | cons c rest => simp [hstop c (by rw [hrest]; rfl)]
    rw [read?, htext]
    simp only [htake, hdrop, gapOf_append hgap, List.drop_left]
    simp [hne]

/-- The brackets of a reference are those of its opening and at its end. -/
theorem IsWellFormed.exists_source_eq (h : reference.IsWellFormed) :
    ∃ inside, reference.source = ('v' :: 'a' :: 'r' :: '(' :: inside) ++ [')'] ∧
      '(' ∉ inside ∧ ')' ∉ inside := by
  obtain ⟨⟨tail, hname, -, hchars⟩, hgap⟩ := h
  have hbracket : ∀ mark, isNameChar mark = false → isBlank mark = false → mark ≠ ',' →
      mark ≠ '-' → mark ∉ reference.name ++ reference.gap := by
    intro mark hnot hblank hcomma hhyphen hmem
    rw [hname, List.mem_append, List.mem_append] at hmem
    rcases hmem with (hmem | hmem) | hmem
    · exact hhyphen (by simpa using hmem)
    · rw [hchars mark hmem] at hnot
      cases hnot
    · rcases hgap with hnil | ⟨blanks, hcons, hblanks⟩
      · simp [hnil] at hmem
      · rw [hcons, List.mem_cons] at hmem
        rcases hmem with hmem | hmem
        · exact hcomma hmem
        · rw [hblanks mark hmem] at hblank
          cases hblank
  refine ⟨reference.name ++ reference.gap, ?_, hbracket '(' (by decide) (by decide) (by decide)
    (by decide), hbracket ')' (by decide) (by decide) (by decide) (by decide)⟩
  simp [source, opening]

/-- The beginning of a reference has no closing bracket before all of it is there. -/
theorem IsWellFormed.close_not_mem (h : reference.IsWellFormed) {begun missing : Text}
    (hsource : reference.source = begun ++ missing) (hmissing : missing ≠ []) : ')' ∉ begun := by
  obtain ⟨inside, hform, -, hclose⟩ := h.exists_source_eq
  obtain ⟨middle, last, rfl⟩ : ∃ middle last, missing = middle ++ [last] :=
    ⟨_, _, (List.dropLast_concat_getLast hmissing).symm⟩
  have hfront : 'v' :: 'a' :: 'r' :: '(' :: inside = begun ++ middle := by
    rw [hform, ← List.append_assoc] at hsource
    exact (List.append_inj' hsource rfl).1
  intro hmem
  have hinside : ')' ∈ 'v' :: 'a' :: 'r' :: '(' :: inside := by
    rw [hfront]
    exact List.mem_append_left _ hmem
  simp [hclose] at hinside

/-- The rest of a reference that begins like a reference again has no opening bracket. -/
theorem IsWellFormed.open_not_mem (h : reference.IsWellFormed) {begun missing : Text}
    (hsource : reference.source = begun ++ missing) (hbegun : begun ≠ [])
    (hhead : missing.head? = some 'v') : '(' ∉ missing := by
  obtain ⟨inside, hform, hopen, -⟩ := h.exists_source_eq
  rw [hform] at hsource
  -- No other letter before the bracket is the first one, so that the bracket has begun.
  rcases begun with _ | ⟨b₁, _ | ⟨b₂, _ | ⟨b₃, _ | ⟨b₄, begun⟩⟩⟩⟩
  · exact absurd rfl hbegun
  · simp only [List.cons_append, List.nil_append, List.cons.injEq] at hsource
    simp [← hsource.2] at hhead
  · simp only [List.cons_append, List.nil_append, List.cons.injEq] at hsource
    simp [← hsource.2.2] at hhead
  · simp only [List.cons_append, List.nil_append, List.cons.injEq] at hsource
    simp [← hsource.2.2.2] at hhead
  · simp only [List.cons_append, List.cons.injEq] at hsource
    intro hmem
    have hinside : '(' ∈ inside ++ [')'] := by
      rw [hsource.2.2.2.2]
      exact List.mem_append_right _ hmem
    simp [hopen] at hinside

/-- The beginning of a reference up to a character that could stand in its name only. -/
theorem IsWellFormed.exists_name_of_begun (h : reference.IsWellFormed) {begun rest : Text}
    {c : Char} (hsource : reference.source = begun ++ c :: rest)
    (hopening : c ∉ opening ++ "--".toList) (hgap : c ∉ reference.gap ++ [')']) :
    ∃ name, begun = opening ++ "--".toList ++ name ∧ ∀ d ∈ name, isNameChar d = true := by
  obtain ⟨tail, hname, -, hchars⟩ := h.name
  have hparts : opening ++ "--".toList ++ (tail ++ (reference.gap ++ [')'])) =
      begun ++ c :: rest := by
    rw [← hsource, source, hname]
    simp
  -- The character stands behind the two hyphens, and before what follows the name.
  rcases List.append_eq_append_iff.1 hparts with ⟨name, rfl, htail⟩ | ⟨middle, hmiddle, hrest⟩
  · rcases List.append_eq_append_iff.1 htail with ⟨middle, -, hrest⟩ | ⟨middle, rfl, -⟩
    · exact absurd (by rw [hrest]; simp) hgap
    · exact ⟨name, rfl, fun d hd => hchars d (List.mem_append_left _ hd)⟩
  · cases middle with
    | nil =>
        rw [List.append_nil] at hmiddle
        exact ⟨[], by rw [hmiddle, List.append_nil], by simp⟩
    | cons d middle =>
        obtain ⟨rfl, -⟩ := List.cons.inj hrest
        exact absurd (by rw [hmiddle]; simp) hopening

theorem IsWellFormed.head?_source_append (h : reference.IsWellFormed) (after : Text) :
    (reference.source ++ after).head? = some 'v' := by
  obtain ⟨inside, hform, -⟩ := h.exists_source_eq
  rw [hform]
  rfl

/-- Whatever is begun of a reference begins with its first letter. -/
theorem IsWellFormed.head?_begun (h : reference.IsWellFormed) {begun missing : Text}
    (hsource : reference.source = begun ++ missing) (hbegun : begun ≠ []) :
    begun.head? = some 'v' := by
  have hhead := h.head?_source_append []
  rwa [List.append_nil, hsource, List.head?_append,
    Option.or_of_isSome (by simpa using hbegun)] at hhead

theorem IsWellFormed.open_mem_source (h : reference.IsWellFormed) : '(' ∈ reference.source := by
  obtain ⟨inside, hform, -⟩ := h.exists_source_eq
  simp [hform]

theorem IsWellFormed.source_ne_nil (h : reference.IsWellFormed) : reference.source ≠ [] :=
  List.ne_nil_of_mem h.open_mem_source

theorem IsWellFormed.close_mem (h : reference.IsWellFormed) {begun missing : Text}
    (hsource : reference.source = begun ++ missing) (hmissing : missing ≠ []) :
    ')' ∈ missing := by
  obtain ⟨inside, hform, -⟩ := h.exists_source_eq
  obtain ⟨middle, last, rfl⟩ : ∃ middle last, missing = middle ++ [last] :=
    ⟨_, _, (List.dropLast_concat_getLast hmissing).symm⟩
  rw [hform, ← List.append_assoc] at hsource
  have hlast := (List.append_inj' hsource rfl).2
  rw [← hlast]
  simp

/-- A reference does not begin inside of another one. -/
theorem IsWellFormed.eq_nil_or_of_append_eq {other : Reference} (h : reference.IsWellFormed)
    (hother : other.IsWellFormed) {before after after' : Text}
    (heq : before ++ (other.source ++ after) = reference.source ++ after') :
    before = [] ∨ ∃ between, before = reference.source ++ between := by
  rcases List.append_eq_append_iff.1 heq with ⟨missing, hsource, htext⟩ | ⟨between, hbetween, -⟩
  · by_cases hbefore : before = []
    · exact Or.inl hbefore
    · by_cases hmissing : missing = []
      · rw [hmissing, List.append_nil] at hsource
        exact Or.inr ⟨[], by rw [List.append_nil, hsource]⟩
      · -- `missing` would be the beginning of a reference as well as the end of one.
        exfalso
        have hclose := h.close_mem hsource hmissing
        have hhead : missing.head? = some 'v' := by
          have hhead := hother.head?_source_append after
          rwa [htext, List.head?_append, Option.or_of_isSome (by simpa using hmissing)] at hhead
        have hopen := h.open_not_mem hsource hbefore hhead
        rcases List.append_eq_append_iff.1 htext with ⟨more, hmore, -⟩ | ⟨more, hmore, -⟩
        · apply hopen
          rw [hmore]
          exact List.mem_append_left _ hother.open_mem_source
        · by_cases hnil : more = []
          · rw [hnil, List.append_nil] at hmore
            apply hopen
            rw [← hmore]
            exact hother.open_mem_source
          · exact hother.close_not_mem hmore hnil hclose
  · exact Or.inr ⟨between, hbetween⟩

end Form

/-! ## Places that count -/

/-- Whether a character of a name stands just before what follows a text; `inName` says so of the
text itself. -/
def endsInName (inName : Bool) (text : Text) : Bool :=
  text.foldl (fun _ c => isNameChar c) inName

@[simp] theorem endsInName_nil (inName : Bool) : endsInName inName [] = inName := rfl

@[simp] theorem endsInName_cons (inName : Bool) (c : Char) (rest : Text) :
    endsInName inName (c :: rest) = endsInName (isNameChar c) rest := rfl

theorem endsInName_append (inName : Bool) (first second : Text) :
    endsInName inName (first ++ second) = endsInName (endsInName inName first) second :=
  List.foldl_append

@[simp] theorem endsInName_concat (inName : Bool) (text : Text) (c : Char) :
    endsInName inName (text ++ [c]) = isNameChar c := by
  rw [endsInName_append]
  rfl

theorem endsInName_of_ne_nil {text : Text} (h : text ≠ []) (inName inName' : Bool) :
    endsInName inName text = endsInName inName' text := by
  cases text with
  | nil => exact absurd rfl h
  | cons c rest => rfl

@[simp] theorem endsInName_source (inName : Bool) (reference : Reference) :
    endsInName inName reference.source = false := by
  rw [source, endsInName_concat]
  decide

/-- The reference stands in a text, and no character of a name stands before it. -/
def OccursIn (reference : Reference) (inName : Bool) (text : Text) : Prop :=
  ∃ before after, text = before ++ (reference.source ++ after) ∧ endsInName inName before = false

theorem IsWellFormed.not_occursIn_nil {reference : Reference} (h : reference.IsWellFormed)
    (inName : Bool) : ¬ reference.OccursIn inName [] := by
  rintro ⟨before, after, hnil, -⟩
  rw [eq_comm, List.append_eq_nil_iff, List.append_eq_nil_iff] at hnil
  exact h.source_ne_nil hnil.2.1

/-- What occurs behind a text occurs in the whole. -/
theorem OccursIn.append_left {reference : Reference} {inName : Bool} {text : Text} (before : Text)
    (h : reference.OccursIn (endsInName inName before) text) :
    reference.OccursIn inName (before ++ text) := by
  obtain ⟨front, after, rfl, hname⟩ := h
  refine ⟨before ++ front, after, by rw [List.append_assoc], ?_⟩
  rwa [endsInName_append]

end Reference

namespace Template

open Reference (endsInName read?_eq_some_iff)

variable {reference : Reference}

theorem readAt_eq_some_iff {inName : Bool} {text after : Text} :
    readAt inName text = some (reference, after) ↔
      inName = false ∧ reference.IsWellFormed ∧ text = reference.source ++ after := by
  cases inName with
  | true => simp [readAt]
  | false => simp [readAt, read?_eq_some_iff]

/-- Behind a reference, others occur as they occur in the text after it. -/
theorem occursIn_source_append {other : Reference} (h : reference.IsWellFormed)
    (hother : other.IsWellFormed) (after : Text) :
    other.OccursIn false (reference.source ++ after) ↔
      other = reference ∨ other.OccursIn false after := by
  constructor
  · rintro ⟨before, rest, htext, hname⟩
    -- References do not overlap: the other one is this one, or stands behind it.
    rcases h.eq_nil_or_of_append_eq hother htext.symm with rfl | ⟨between, rfl⟩
    · left
      have hread := read?_eq_some_iff.2 ⟨hother, htext⟩
      rw [read?_eq_some_iff.2 ⟨h, rfl⟩] at hread
      cases hread
      rfl
    · right
      refine ⟨between, rest, ?_, ?_⟩
      · rw [List.append_assoc] at htext
        exact List.append_cancel_left htext
      · rwa [Reference.endsInName_append, Reference.endsInName_source] at hname
  · rintro (rfl | ⟨before, rest, rfl, hname⟩)
    · exact ⟨[], after, rfl, rfl⟩
    · refine ⟨reference.source ++ before, rest, ?_, ?_⟩
      · rw [List.append_assoc]
      · rwa [Reference.endsInName_append, Reference.endsInName_source]

/-- Where no reference is read, those that occur begin behind the first character. -/
theorem occursIn_cons {inName : Bool} {c : Char} {rest : Text}
    (hnone : readAt inName (c :: rest) = none) (h : reference.IsWellFormed) :
    reference.OccursIn inName (c :: rest) ↔
      reference.OccursIn (Reference.isNameChar c) rest := by
  constructor
  · rintro ⟨before, after, htext, hname⟩
    cases before with
    | nil =>
        rw [Reference.endsInName_nil] at hname
        rw [readAt_eq_some_iff.2 ⟨hname, h, htext⟩] at hnone
        cases hnone
    | cons d before =>
        obtain ⟨rfl, hrest⟩ := List.cons.inj htext
        exact ⟨before, after, hrest, hname⟩
  · rintro ⟨before, after, rfl, hname⟩
    exact ⟨c :: before, after, rfl, hname⟩

/-- The references among the pieces of a text are those that occur in it. -/
theorem mem_pieces_iff {done : List Piece} {inName : Bool} {text : Text}
    (h : reference.IsWellFormed) :
    .reference reference ∈ pieces done inName text ↔
      .reference reference ∈ done ∨ reference.OccursIn inName text := by
  fun_induction pieces done inName text with
  | case1 done inName =>
      rw [List.mem_reverse]
      constructor
      · exact Or.inl
      · rintro (hmem | hoccurs)
        · exact hmem
        · exact absurd hoccurs (h.not_occursIn_nil inName)
  | case2 done inName c rest read after hread ih =>
      obtain ⟨rfl, hform, htext⟩ := readAt_eq_some_iff.1 hread
      rw [ih, htext, occursIn_source_append hform h, List.mem_cons, Piece.reference.injEq]
      tauto
  | case3 done inName c rest hnone ih =>
      rw [ih, occursIn_cons hnone h, List.mem_cons]
      simp

theorem isWellFormed_of_mem_pieces {done : List Piece} {inName : Bool} {text : Text}
    (hdone : ∀ read, .reference read ∈ done → read.IsWellFormed)
    (h : .reference reference ∈ pieces done inName text) : reference.IsWellFormed := by
  fun_induction pieces done inName text with
  | case1 done inName => exact hdone reference (List.mem_reverse.1 h)
  | case2 done inName c rest read after hread ih =>
      obtain ⟨-, hform, -⟩ := readAt_eq_some_iff.1 hread
      apply ih _ h
      intro found hfound
      rcases List.mem_cons.1 hfound with heq | hmem
      · cases heq
        exact hform
      · exact hdone found hmem
  | case3 done inName c rest hnone ih =>
      apply ih _ h
      intro found hfound
      rcases List.mem_cons.1 hfound with heq | hmem
      · cases heq
      · exact hdone found hmem

theorem exists_mem_tail_iff {all : List Piece} :
    (∃ after, (reference, after) ∈ (all.foldr prepend ⟨[], []⟩).tail) ↔
      .reference reference ∈ all := by
  induction all with
  | nil => simp
  | cons piece rest ih =>
      cases piece with
      | char c =>
          rw [List.foldr_cons, prepend, ih]
          simp
      | reference read =>
          rw [List.foldr_cons, prepend, List.mem_cons, ← ih, Piece.reference.injEq]
          simp only [List.mem_cons, Prod.mk.injEq]
          constructor
          · rintro ⟨after, ⟨hread, -⟩ | hmem⟩
            · exact Or.inl hread
            · exact Or.inr ⟨after, hmem⟩
          · rintro (hread | ⟨after, hmem⟩)
            · exact ⟨_, Or.inl ⟨hread, rfl⟩⟩
            · exact ⟨after, Or.inr hmem⟩

/-- The references of a value are those that occur in it. -/
theorem exists_mem_tail_ofValue_iff {value : Text} :
    (∃ after, (reference, after) ∈ (ofValue value).tail) ↔
      reference.IsWellFormed ∧ reference.OccursIn false value := by
  rw [ofValue, exists_mem_tail_iff]
  constructor
  · intro h
    have hform : reference.IsWellFormed := isWellFormed_of_mem_pieces (by simp) h
    exact ⟨hform, by simpa using (mem_pieces_iff hform).1 h⟩
  · rintro ⟨hform, hoccurs⟩
    exact (mem_pieces_iff hform).2 (Or.inr hoccurs)

/-! ## Text between references -/

/-- The texts before, between and after the references. -/
def stretches (template : Template) : List Text :=
  template.head :: template.tail.map Prod.snd

theorem pieces_of_readAt_some {done : List Piece} {inName : Bool} {c : Char} {rest after : Text}
    (h : readAt inName (c :: rest) = some (reference, after)) :
    pieces done inName (c :: rest) = pieces (.reference reference :: done) false after := by
  rw [pieces]
  split
  · rename_i read later hread
    rw [h] at hread
    cases hread
    rfl
  · rename_i hnone
    rw [h] at hnone
    cases hnone

theorem pieces_of_readAt_none {done : List Piece} {inName : Bool} {c : Char} {rest : Text}
    (h : readAt inName (c :: rest) = none) :
    pieces done inName (c :: rest) = pieces (.char c :: done) (Reference.isNameChar c) rest := by
  rw [pieces]
  split
  · rename_i read later hread
    rw [h] at hread
    cases hread
  · rfl

/-- The pieces before a text stay in front of its own. -/
theorem pieces_eq_append (done : List Piece) (inName : Bool) (text : Text) :
    pieces done inName text = done.reverse ++ pieces [] inName text := by
  induction hlength : text.length using Nat.strongRecOn generalizing done inName text with
  | ind length ih =>
      cases text with
      | nil => simp [pieces]
      | cons c rest =>
          cases hread : readAt inName (c :: rest) with
          | none =>
              have hrest : rest.length < length := by simp [← hlength]
              rw [pieces_of_readAt_none hread, pieces_of_readAt_none hread,
                ih _ hrest (.char c :: done) _ rest rfl, ih _ hrest [.char c] _ rest rfl]
              simp
          | some read =>
              obtain ⟨reference, after⟩ := read
              have hafter : after.length < length := by
                rw [← hlength]
                exact length_of_readAt hread
              rw [pieces_of_readAt_some hread, pieces_of_readAt_some hread,
                ih _ hafter (.reference reference :: done) _ after rfl,
                ih _ hafter [.reference reference] _ after rfl]
              simp

/-- The part of a template that a text makes behind a given character. -/
def ofRest (inName : Bool) (text : Text) : Template :=
  (pieces [] inName text).foldr prepend ⟨[], []⟩

theorem ofRest_of_readAt_some {inName : Bool} {c : Char} {rest after : Text}
    (h : readAt inName (c :: rest) = some (reference, after)) :
    ofRest inName (c :: rest) = prepend (.reference reference) (ofRest false after) := by
  rw [ofRest, pieces_of_readAt_some h, pieces_eq_append]
  rfl

theorem ofRest_of_readAt_none {inName : Bool} {c : Char} {rest : Text}
    (h : readAt inName (c :: rest) = none) :
    ofRest inName (c :: rest) = prepend (.char c) (ofRest (Reference.isNameChar c) rest) := by
  rw [ofRest, pieces_of_readAt_none h, pieces_eq_append]
  rfl

theorem source_ofRest (inName : Bool) (text : Text) : (ofRest inName text).source = text := by
  rw [ofRest, source_foldr_prepend, source_pieces]
  simp

/-- A reference that is not read in front of a text is not in front of what the text has before its
first reference. -/
theorem not_occursIn_cons_head (h : reference.IsWellFormed) {inName : Bool} {c : Char}
    {rest : Text} (hread : readAt inName (c :: rest) = none)
    (hhead : ¬ reference.OccursIn (Reference.isNameChar c)
      (ofRest (Reference.isNameChar c) rest).head) :
    ¬ reference.OccursIn inName (c :: (ofRest (Reference.isNameChar c) rest).head) := by
  rintro ⟨before, after, hsplit, hname⟩
  cases before with
  | nil =>
      -- The reference would have been read at this place.
      rw [Reference.endsInName_nil] at hname
      have hsource := source_ofRest (Reference.isNameChar c) rest
      rw [source] at hsource
      have htext : c :: rest = reference.source ++ (after ++
          (ofRest (Reference.isNameChar c) rest).tail.flatMap
            fun piece => piece.1.source ++ piece.2) := by
        rw [← List.append_assoc, ← List.nil_append (reference.source ++ after), ← hsplit,
          List.cons_append, hsource]
      rw [readAt_eq_some_iff.2 ⟨hname, h, htext⟩] at hread
      cases hread
  | cons d before =>
      obtain ⟨rfl, hrest⟩ := List.cons.inj hsplit
      exact hhead ⟨before, after, hrest, hname⟩

/-- No reference occurs in the text before the first one, nor in the texts behind references. -/
theorem not_occursIn_ofRest (h : reference.IsWellFormed) (inName : Bool) (text : Text) :
    ¬ reference.OccursIn inName (ofRest inName text).head ∧
      ∀ piece ∈ (ofRest inName text).tail, ¬ reference.OccursIn false piece.2 := by
  -- A reading goes on behind a whole reference, so that the induction is on the length.
  induction hlength : text.length using Nat.strongRecOn generalizing inName text with
  | ind length ih =>
      cases text with
      | nil =>
          rw [ofRest, pieces]
          exact ⟨h.not_occursIn_nil inName, by simp⟩
      | cons c rest =>
          cases hread : readAt inName (c :: rest) with
          | none =>
              have hrest : rest.length < length := by simp [← hlength]
              obtain ⟨hhead, htail⟩ := ih _ hrest (Reference.isNameChar c) rest rfl
              rw [ofRest_of_readAt_none hread]
              exact ⟨not_occursIn_cons_head h hread hhead, htail⟩
          | some read =>
              obtain ⟨found, after⟩ := read
              have hafter : after.length < length := by
                rw [← hlength]
                exact length_of_readAt hread
              obtain ⟨hhead, htail⟩ := ih _ hafter false after rfl
              rw [ofRest_of_readAt_some hread]
              refine ⟨h.not_occursIn_nil inName, ?_⟩
              intro piece hpiece
              rcases List.mem_cons.1 hpiece with rfl | hmem
              · exact hhead
              · exact htail piece hmem

/-- No reference is left in the text between references. -/
theorem not_occursIn_of_mem_stretches (h : reference.IsWellFormed) {value stretch : Text}
    (hstretch : stretch ∈ (ofValue value).stretches) : ¬ reference.OccursIn false stretch := by
  obtain ⟨hhead, htail⟩ := not_occursIn_ofRest h false value
  rw [stretches, List.mem_cons, List.mem_map] at hstretch
  rcases hstretch with rfl | ⟨piece, hpiece, rfl⟩
  · exact hhead
  · exact htail piece hpiece

end Template

end UtilityCss
