import UtilityCss.Text

/-!
# References in values

A value refers to a custom property by `var(--name)`. A comma may stand after the name, with
blanks after it and nothing else: a reference with a fallback is left alone.

* `Reference` is a reference with its exact text.
* `Reference.read?` reads one in front of a text, and what it reads is that text
  (`source_of_read?`).
* `Template` is the text before the first reference of a value, and each reference with the text
  after it. `Template.ofValue` cuts a value, reading from left to right.
* `Template.references` lists the references with their places.

A reference does not count where a character of a name stands just before it. A template has all
of the value (`source_ofValue`).
-/

set_option autoImplicit false

namespace UtilityCss

/-- A reference to a custom property. -/
structure Reference where
  /-- The name of the property with its two hyphens. -/
  name : Text
  /-- The comma after the name with the blanks after it, if they are written. -/
  gap : Text
  deriving DecidableEq, Repr

namespace Reference

/-- The characters of a name. -/
def isNameChar (c : Char) : Bool :=
  isAsciiLetter c || isDigit c || c == '-' || c == '_' || isNonAscii c

/-- What a reference begins with. -/
def opening : Text := "var(".toList

/-- The text of a reference. -/
def source (reference : Reference) : Text :=
  opening ++ reference.name ++ reference.gap ++ [')']

/-- The comma in front of a text with the blanks after it. -/
def gapOf : Text → Text
  | [] => []
  | c :: rest => if c = ',' then ',' :: rest.takeWhile isBlank else []

/-- The reference in front of a text, and the text after it. -/
def read? (text : Text) : Option (Reference × Text) :=
  match Text.after? (opening ++ "--".toList) text with
  | none => none
  | some named =>
    -- The name is the longest run, so that it cannot be cut short to make a reference.
    let name := named.takeWhile isNameChar
    let afterName := named.dropWhile isNameChar
    let gap := gapOf afterName
    match afterName.drop gap.length with
    | [] => none
    | c :: after =>
      if c = ')' && !name.isEmpty then some (⟨"--".toList ++ name, gap⟩, after) else none

theorem gapOf_append_drop (text : Text) : gapOf text ++ text.drop (gapOf text).length = text := by
  cases text with
  | nil => rfl
  | cons c rest =>
      rw [gapOf]
      split
      · rename_i h
        have h₁ : rest.takeWhile isBlank ++ rest.drop (rest.takeWhile isBlank).length = rest :=
          List.prefix_iff_eq_append.1 (List.takeWhile_prefix isBlank)
        simp [h, h₁]
      · simp

/-- What is read is a reference with the text after it. -/
theorem source_of_read? {text after : Text} {reference : Reference}
    (h : read? text = some (reference, after)) : reference.source ++ after = text := by
  unfold read? at h
  split at h
  · cases h
  · rename_i named hnamed
    have htext : text = opening ++ "--".toList ++ named := Text.after?_eq_some_iff.1 hnamed
    simp only at h
    split at h
    · cases h
    · rename_i c rest hrest
      split at h
      · rename_i hc
        simp only [Bool.and_eq_true, decide_eq_true_eq] at hc
        cases h
        have hgap := gapOf_append_drop (named.dropWhile isNameChar)
        rw [hrest, hc.1] at hgap
        have hname : named.takeWhile isNameChar ++ named.dropWhile isNameChar = named :=
          List.takeWhile_append_dropWhile
        rw [← hgap] at hname
        rw [htext]
        conv => rhs; rw [← hname]
        simp [source]
      · cases h

end Reference

/-! ## Values cut at their references -/

/-- A character of a value outside references, or a reference. -/
inductive Piece where
  | char (c : Char)
  | reference (reference : Reference)
  deriving DecidableEq, Repr

/-- The text of a piece. -/
def Piece.source : Piece → Text
  | .char c => [c]
  | .reference read => read.source

/-- A value cut at its references. -/
structure Template where
  /-- The text before the first reference. -/
  head : Text
  /-- Each reference with the text after it. -/
  tail : List (Reference × Text)
  deriving DecidableEq, Repr

namespace Template

/-- The value that a template was cut from. -/
def source (template : Template) : Text :=
  template.head ++ template.tail.flatMap (fun piece => piece.1.source ++ piece.2)

/-- The reference in front of a text, unless a character of a name stands just before. -/
def readAt (inName : Bool) (text : Text) : Option (Reference × Text) :=
  if inName then none else Reference.read? text

theorem source_of_readAt {inName : Bool} {text after : Text} {reference : Reference}
    (h : readAt inName text = some (reference, after)) : reference.source ++ after = text := by
  cases inName with
  | true => simp [readAt] at h
  | false => exact Reference.source_of_read? h

theorem length_of_readAt {inName : Bool} {text after : Text} {reference : Reference}
    (h : readAt inName text = some (reference, after)) : after.length < text.length := by
  have hlen := congrArg List.length (source_of_readAt h)
  simp only [Reference.source, List.length_append, List.length_cons, List.length_nil] at hlen
  omega

/-- The pieces of a value in order, after those in `done`, of which the latest comes first.
`inName` says that a character of a name stands just before. -/
def pieces (done : List Piece) (inName : Bool) (text : Text) : List Piece :=
  match text with
  | [] => done.reverse
  | c :: rest =>
    match _read : readAt inName (c :: rest) with
    | some (reference, after) => pieces (.reference reference :: done) false after
    | none => pieces (.char c :: done) (Reference.isNameChar c) rest
termination_by text.length
decreasing_by
  · exact length_of_readAt _read
  · simp

/-- The template with one more piece in front. -/
def prepend (piece : Piece) (template : Template) : Template :=
  match piece with
  | .char c => { template with head := c :: template.head }
  | .reference reference => ⟨[], (reference, template.head) :: template.tail⟩

/-- A value cut at its references. -/
def ofValue (value : Text) : Template :=
  (pieces [] false value).foldr prepend ⟨[], []⟩

/-! ## A template has all of the value -/

theorem source_pieces (done : List Piece) (inName : Bool) (text : Text) :
    (pieces done inName text).flatMap Piece.source =
      done.reverse.flatMap Piece.source ++ text := by
  fun_induction pieces done inName text with
  | case1 => simp
  | case2 done inName c rest reference after h ih =>
      rw [ih, ← source_of_readAt h]
      simp [Piece.source]
  | case3 done inName c rest h ih =>
      rw [ih]
      simp [Piece.source]

theorem source_prepend (piece : Piece) (template : Template) :
    (prepend piece template).source = piece.source ++ template.source := by
  cases piece <;> simp [prepend, source, Piece.source]

theorem source_foldr_prepend (all : List Piece) :
    (all.foldr prepend ⟨[], []⟩).source = all.flatMap Piece.source := by
  induction all with
  | nil => rfl
  | cons piece rest ih => rw [List.foldr_cons, source_prepend, ih, List.flatMap_cons]

/-- Cutting a value loses nothing. -/
theorem source_ofValue (value : Text) : (ofValue value).source = value := by
  rw [ofValue, source_foldr_prepend, source_pieces]
  simp

/-! ## Places -/

/-- A reference with the bytes of the value that it covers. -/
structure Place where
  start : Nat
  stop : Nat
  name : Text
  deriving DecidableEq, Repr

/-- The places of references of which the first begins after a number of bytes. -/
def placesFrom (offset : Nat) : List (Reference × Text) → List Place
  | [] => []
  | (reference, after) :: rest =>
    let stop := offset + Text.utf8Length reference.source
    ⟨offset, stop, reference.name⟩ :: placesFrom (stop + Text.utf8Length after) rest

/-- The references of a value from left to right. -/
def references (template : Template) : List Place :=
  placesFrom (Text.utf8Length template.head) template.tail

end Template

end UtilityCss
