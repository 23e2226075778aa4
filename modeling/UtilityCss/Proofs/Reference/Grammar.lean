import UtilityCss.Proofs.Reference.Occurrence
import UtilityCss.Proofs.Text.Basic

/-!
# The places of references

A value is read from left to right, one character or one reference at a time. The places that the
reading reports are those at which the grammar of references is met: none is missed behind a
failed beginning, inside another reference or behind characters of several bytes, and no other
place is reported (`Template.references_exact`).

* `Reference.Spells` is the grammar of a reference in front of a text.
* `Reference.StandsAt` says that a place of a value meets it.
* `Template.PlacedIn` says which places a text contributes behind a number of bytes. The reading
  reports these (`Template.mem_placesFrom_ofRest_iff`), by induction on the text that is left.
-/

set_option autoImplicit false

namespace UtilityCss

namespace Reference

/-! ## The grammar -/

/-- The text begins with `var(`, two hyphens, characters of a name as far as they go, and a closing
bracket, with a comma and blanks before it or without. `after` is the text behind the bracket. -/
def Spells (text name after : Text) : Prop :=
  ∃ run rest, text = "var(".toList ++ ("--".toList ++ (run ++ rest)) ∧
    name = "--".toList ++ run ∧ run ≠ [] ∧ (∀ c ∈ run, isNameChar c = true) ∧
    (∀ c ∈ rest.head?, isNameChar c = false) ∧
    (rest = ')' :: after ∨
      ∃ blanks, (∀ c ∈ blanks, isBlank c = true) ∧ rest = ',' :: (blanks ++ ')' :: after))

/-- The bytes of the place spell a reference to its name, and no character of a name stands before
them. -/
def StandsAt (value : Text) (place : Template.Place) : Prop :=
  ∃ before text after, value = before ++ text ∧ Spells text place.name after ∧
    (∀ c ∈ before.getLast?, isNameChar c = false) ∧
    place.start = Text.utf8Length before ∧
    Text.utf8Length value = place.stop + Text.utf8Length after

/-- What spells a reference is the text of one. -/
theorem spells_iff {text name after : Text} :
    Spells text name after ↔ ∃ reference : Reference, reference.IsWellFormed ∧
      reference.name = name ∧ text = reference.source ++ after := by
  constructor
  · rintro ⟨run, rest, rfl, rfl, hne, hrun, -, hrest⟩
    rcases hrest with rfl | ⟨blanks, hblanks, rfl⟩
    · refine ⟨⟨"--".toList ++ run, []⟩, ⟨⟨run, rfl, hne, hrun⟩, Or.inl rfl⟩, rfl, ?_⟩
      simp [source, opening]
    · refine ⟨⟨"--".toList ++ run, ',' :: blanks⟩,
        ⟨⟨run, rfl, hne, hrun⟩, Or.inr ⟨blanks, rfl, hblanks⟩⟩, rfl, ?_⟩
      simp [source, opening]
  · rintro ⟨⟨_, gap⟩, ⟨⟨run, rfl, hne, hrun⟩, hgap⟩, rfl, rfl⟩
    dsimp only at hgap
    refine ⟨run, gap ++ ')' :: after, by simp [source, opening], rfl, hne, hrun, ?_, ?_⟩
    · rcases hgap with rfl | ⟨blanks, rfl, -⟩ <;> (intro c hc; cases hc; decide)
    · rcases hgap with rfl | ⟨blanks, rfl, hblanks⟩
      · exact Or.inl rfl
      · exact Or.inr ⟨blanks, hblanks, rfl⟩

theorem endsInName_eq_false_iff {text : Text} :
    endsInName false text = false ↔ ∀ c ∈ text.getLast?, isNameChar c = false := by
  rcases List.eq_nil_or_concat text with rfl | ⟨front, c, rfl⟩
  · simp
  · rw [List.concat_eq_append, endsInName_concat, List.getLast?_concat]
    simp

end Reference

namespace Template

open Reference (endsInName)

/-! ## What is reported -/

/-- A place that a text contributes behind so many bytes; `inName` says that a character of a name
stands just before the text. -/
def PlacedIn (inName : Bool) (offset : Nat) (text : Text) (place : Place) : Prop :=
  ∃ before reference after, text = before ++ (Reference.source reference ++ after) ∧
    reference.IsWellFormed ∧ endsInName inName before = false ∧
    place = ⟨offset + Text.utf8Length before,
      offset + Text.utf8Length before + Text.utf8Length reference.source, reference.name⟩

theorem placedIn_nil {inName : Bool} {offset : Nat} {place : Place} :
    ¬ PlacedIn inName offset [] place := by
  rintro ⟨before, reference, after, htext, hform, hname, -⟩
  exact hform.not_occursIn_nil inName ⟨before, after, htext, hname⟩

/-- Where no reference is read, every place is behind the first character. -/
theorem placedIn_cons {inName : Bool} {offset : Nat} {c : Char} {rest : Text} {place : Place}
    (hnone : readAt inName (c :: rest) = none) :
    PlacedIn inName offset (c :: rest) place ↔
      PlacedIn (Reference.isNameChar c) (offset + c.utf8Size) rest place := by
  constructor
  · rintro ⟨before, reference, after, htext, hform, hname, rfl⟩
    cases before with
    | nil =>
        rw [Reference.endsInName_nil] at hname
        rw [readAt_eq_some_iff.2 ⟨hname, hform, htext⟩] at hnone
        cases hnone
    | cons d before =>
        obtain ⟨rfl, hrest⟩ := List.cons.inj htext
        exact ⟨before, reference, after, hrest, hform, hname, by simp [Nat.add_assoc]⟩
  · rintro ⟨before, reference, after, rfl, hform, hname, rfl⟩
    exact ⟨c :: before, reference, after, rfl, hform, hname, by simp [Nat.add_assoc]⟩

/-- Where a reference is read, the other places are behind all of it. -/
theorem placedIn_source_append {offset : Nat} {reference : Reference} {after : Text}
    {place : Place} (hform : reference.IsWellFormed) :
    PlacedIn false offset (reference.source ++ after) place ↔
      place = ⟨offset, offset + Text.utf8Length reference.source, reference.name⟩ ∨
        PlacedIn false (offset + Text.utf8Length reference.source) after place := by
  constructor
  · rintro ⟨before, other, later, htext, hother, hname, rfl⟩
    rcases hform.eq_nil_or_of_append_eq hother htext.symm with rfl | ⟨between, rfl⟩
    · left
      -- Two references in front of one text are the same.
      have hread := Reference.read?_eq_some_iff.2 ⟨hother, htext⟩
      rw [Reference.read?_eq_some_iff.2 ⟨hform, rfl⟩] at hread
      cases hread
      simp
    · right
      rw [List.append_assoc] at htext
      rw [Reference.endsInName_append, Reference.endsInName_source] at hname
      refine ⟨between, other, later, List.append_cancel_left htext, hother, hname, ?_⟩
      simp [Nat.add_assoc]
  · rintro (rfl | ⟨before, other, later, rfl, hother, hname, rfl⟩)
    · exact ⟨[], reference, after, rfl, hform, rfl, by simp⟩
    · refine ⟨reference.source ++ before, other, later, by rw [List.append_assoc], hother, ?_, ?_⟩
      · rwa [Reference.endsInName_append, Reference.endsInName_source]
      · simp [Nat.add_assoc]

/-- The places that a reading reports are those that the text contributes. -/
theorem mem_placesFrom_ofRest_iff (inName : Bool) (offset : Nat) (text : Text) (place : Place) :
    place ∈ placesFrom (offset + Text.utf8Length (ofRest inName text).head)
        (ofRest inName text).tail ↔
      PlacedIn inName offset text place := by
  -- The reading goes on behind a character or behind a whole reference, so that the induction is
  -- on the length.
  induction hlength : text.length using Nat.strongRecOn generalizing inName offset text with
  | ind length ih =>
      cases text with
      | nil =>
          rw [ofRest, pieces]
          exact iff_of_false List.not_mem_nil placedIn_nil
      | cons c rest =>
          cases hread : readAt inName (c :: rest) with
          | none =>
              have hrest : rest.length < length := by simp [← hlength]
              have hplaces := ih _ hrest (Reference.isNameChar c) (offset + c.utf8Size) rest rfl
              rw [placedIn_cons hread, ← hplaces, ofRest_of_readAt_none hread, prepend]
              dsimp only
              rw [Text.utf8Length_cons, Nat.add_assoc]
          | some read =>
              obtain ⟨reference, after⟩ := read
              have hafter : after.length < length := by
                rw [← hlength]
                exact length_of_readAt hread
              obtain ⟨rfl, hform, htext⟩ := readAt_eq_some_iff.1 hread
              have hplaces :=
                ih _ hafter false (offset + Text.utf8Length reference.source) after rfl
              rw [ofRest_of_readAt_some hread, htext, placedIn_source_append hform, ← hplaces,
                prepend, placesFrom, List.mem_cons, Text.utf8Length_nil, Nat.add_zero]

theorem placedIn_iff_standsAt {value : Text} {place : Place} :
    PlacedIn false 0 value place ↔ Reference.StandsAt value place := by
  constructor
  · rintro ⟨before, reference, after, rfl, hform, hname, rfl⟩
    refine ⟨before, reference.source ++ after, after, rfl,
      Reference.spells_iff.2 ⟨reference, hform, rfl, rfl⟩,
      Reference.endsInName_eq_false_iff.1 hname, by simp, by simp [Nat.add_assoc]⟩
  · rintro ⟨before, text, after, rfl, hspells, hname, hstart, hstop⟩
    obtain ⟨reference, hform, hreference, rfl⟩ := Reference.spells_iff.1 hspells
    refine ⟨before, reference, after, rfl, hform, Reference.endsInName_eq_false_iff.2 hname, ?_⟩
    obtain ⟨start, stop, name⟩ := place
    dsimp only at hreference hstart hstop
    simp only [Text.utf8Length_append] at hstop
    have hend : stop = Text.utf8Length before + Text.utf8Length reference.source := by omega
    rw [Nat.zero_add, hstart, hend, hreference]

/-! ## Order -/

theorem start_of_mem_placesFrom {offset : Nat} {tail : List (Reference × Text)} {place : Place}
    (h : place ∈ placesFrom offset tail) : offset ≤ place.start ∧ place.start < place.stop := by
  induction tail generalizing offset with
  | nil => cases h
  | cons piece rest ih =>
      obtain ⟨reference, after⟩ := piece
      have hpos : 0 < Text.utf8Length reference.source := by
        have hopening : Text.utf8Length "var(".toList = 4 := by decide
        simp only [Reference.source, Reference.opening, Text.utf8Length_append]
        omega
      rw [placesFrom, List.mem_cons] at h
      rcases h with rfl | hrest
      · dsimp only
        omega
      · obtain ⟨hstart, hstop⟩ := ih hrest
        omega

theorem pairwise_placesFrom (offset : Nat) (tail : List (Reference × Text)) :
    (placesFrom offset tail).Pairwise fun place later => place.stop ≤ later.start := by
  induction tail generalizing offset with
  | nil => exact List.Pairwise.nil
  | cons piece rest ih =>
      obtain ⟨reference, after⟩ := piece
      rw [placesFrom]
      refine List.Pairwise.cons ?_ (ih _)
      intro later hlater
      have hstart := (start_of_mem_placesFrom hlater).1
      dsimp only
      omega

/-- A reading takes no more steps than the text has characters. -/
theorem length_pieces_le (done : List Piece) (inName : Bool) (text : Text) :
    (pieces done inName text).length ≤ done.length + text.length := by
  fun_induction pieces done inName text with
  | case1 => simp
  | case2 done inName c rest reference after hread ih =>
      have hafter := length_of_readAt hread
      rw [List.length_cons] at ih
      omega
  | case3 done inName c rest hread ih =>
      simp only [List.length_cons] at ih ⊢
      omega

/-! ## The main statement -/

/-- The places reported for a value are exactly those at which the grammar of references is met.
They do not overlap and stand in the order of their beginnings, and the reading ends after at most
one step for each character. -/
theorem references_exact (value : Text) :
    (∀ place, place ∈ (ofValue value).references ↔ Reference.StandsAt value place) ∧
    (∀ place ∈ (ofValue value).references, place.start < place.stop) ∧
    ((ofValue value).references.Pairwise fun place later => place.stop ≤ later.start) ∧
    (pieces [] false value).length ≤ value.length := by
  refine ⟨?_, ?_, pairwise_placesFrom _ _, ?_⟩
  · intro place
    have hplaces := mem_placesFrom_ofRest_iff false 0 value place
    rw [Nat.zero_add] at hplaces
    rw [← placedIn_iff_standsAt, ← hplaces]
    rfl
  · intro place hplace
    exact (start_of_mem_placesFrom hplace).2
  · simpa using length_pieces_le [] false value

/-- Behind a failed beginning and a character of two bytes, the reading is in step with the
bytes. -/
example : (ofValue "var(var(--é,  )".toList).references = [⟨4, 16, "--é".toList⟩] := by
  decide +kernel

end Template

end UtilityCss
