/-!
# Text

A text is the list of its code points, in reading order. This is the form in which the grammar
of style sheets speaks about its input, and it keeps every definition of the library open to
induction.

* `Text.utf8Length` measures a text in bytes, which is the unit of positions.
* `Text.contains` finds one text inside another.
* `Text.after?` and `Text.before?` take a known text off one end.
* `Text.asciiLower` changes letter case for ASCII letters only.
* `isBlank` is the Unicode property `White_Space`, of which this module holds the table, and
  `Text.trim` drops the blanks at both ends.
* `Text.IsPlain` says that a text is made of characters that have no meaning for the grammar of
  rules: it can stand in a heading or for a value without ending it.
* `Escape.codePoint` is the character that the hexadecimal digits behind a backslash name.
* `Scan` is a start state, a step and the characters that the scan itself reads, which are never
  separators. `Scan.split` gives the pieces between the separators that count, `Scan.finish` is the
  state after a text.
* `Nesting` is where the scan of brackets, quotes and backslashes stands, `Nesting.step` reads one
  character.
* `Text.splitTopLevel` cuts a text at the separators outside brackets and quotes and not after a
  backslash.

Joining the pieces with the separator gives the text back (`intercalate_split`).
-/

set_option autoImplicit false

namespace UtilityCss

/-- A text is a list of code points. -/
abbrev Text := List Char

namespace Text

/-- The size of a text in bytes of UTF-8. -/
def utf8Length (text : Text) : Nat :=
  text.foldl (fun size c => size + c.utf8Size) 0

/-- Whether `needle` occurs somewhere in the text. -/
def contains (needle : Text) : Text → Bool
  | [] => needle.isEmpty
  | c :: rest => needle.isPrefixOf (c :: rest) || contains needle rest

/-- What follows `lead` in a text that begins with it. -/
def after? : Text → Text → Option Text
  | [], text => some text
  | _ :: _, [] => none
  | c :: lead, d :: text => if c = d then after? lead text else none

/-- What precedes `tail` in a text that ends with it. -/
def before? (tail text : Text) : Option Text :=
  (after? tail.reverse text.reverse).map List.reverse

theorem after?_eq_some_iff {lead text rest : Text} :
    after? lead text = some rest ↔ text = lead ++ rest := by
  induction lead generalizing text with
  | nil => simp [after?, eq_comm]
  | cons c lead ih =>
      cases text with
      | nil => simp [after?]
      | cons d text =>
          by_cases h : c = d
          · simp [after?, h, ih]
          · have h' : ¬ d = c := fun e => h e.symm
            simp [after?, h, h']

theorem before?_eq_some_iff {tail text rest : Text} :
    before? tail text = some rest ↔ text = rest ++ tail := by
  simp only [before?, Option.map_eq_some_iff, after?_eq_some_iff]
  constructor
  · rintro ⟨reversed, h, rfl⟩
    simpa using congrArg List.reverse h
  · rintro rfl
    exact ⟨rest.reverse, by simp, by simp⟩

/-- The text with ASCII capital letters made small. -/
def asciiLower (text : Text) : Text :=
  text.map Char.toLower

end Text

/-! ## Character classes of ASCII -/

/-- A decimal digit `0` to `9`. -/
def isDigit (c : Char) : Bool :=
  '0' ≤ c && c ≤ '9'

/-- A hexadecimal digit in either letter case. -/
def isHexDigit (c : Char) : Bool :=
  isDigit c || ('a' ≤ c && c ≤ 'f') || ('A' ≤ c && c ≤ 'F')

/-- An ASCII letter in either case. -/
def isAsciiLetter (c : Char) : Bool :=
  ('a' ≤ c && c ≤ 'z') || ('A' ≤ c && c ≤ 'Z')

/-- A code point outside ASCII. -/
def isNonAscii (c : Char) : Bool :=
  128 ≤ c.toNat

/-- The characters that end a line in a style sheet. -/
def isNewline (c : Char) : Bool :=
  c == '\n' || c == '\r' || c == '\x0C'

/-- The white space of style sheets, which is narrower than that of Unicode. -/
def isSpace (c : Char) : Bool :=
  c == ' ' || c == '\t' || isNewline c

/-! ## Blanks and trimming -/

/-- The code points of the property `White_Space`. -/
def isBlank (c : Char) : Bool :=
  let n := c.toNat
  (9 ≤ n && n ≤ 13) || n = 0x20 || n = 0x85 || n = 0xA0 || n = 0x1680 ||
    (0x2000 ≤ n && n ≤ 0x200A) || n = 0x2028 || n = 0x2029 || n = 0x202F || n = 0x205F || n = 0x3000

namespace Text

/-- The text without the blanks in front. -/
def trimStart (text : Text) : Text :=
  text.dropWhile isBlank

/-- The text without the blanks at its end. -/
def trimEnd (text : Text) : Text :=
  (text.reverse.dropWhile isBlank).reverse

/-- The text without the blanks at both ends. -/
def trim (text : Text) : Text :=
  trimEnd (trimStart text)

@[simp] theorem trimStart_nil : trimStart [] = [] := rfl

@[simp] theorem trim_nil : trim [] = [] := rfl

end Text

end UtilityCss

namespace UtilityCss.Text

/-! ## Plain texts -/

/-- The characters of plain texts. -/
def isPlainChar (c : Char) : Bool :=
  isAsciiLetter c || isDigit c || " -_.:,#%*&()".toList.contains c

/-- Whether a text that is read under so many open brackets closes all of them and its own. -/
def balancedFrom : Nat → Text → Bool
  | depth, [] => depth == 0
  | depth, c :: rest =>
    if c = '(' then balancedFrom (depth + 1) rest
    else if c = ')' then depth != 0 && balancedFrom (depth - 1) rest
    else balancedFrom depth rest

/-- What an address begins with, in small letters. -/
def urlOpening : Text := "url(".toList

/-- A trimmed text of plain characters with balanced brackets and without an address. -/
structure IsPlain (text : Text) : Prop where
  trim_eq : trim text = text
  isPlainChar : ∀ c ∈ text, isPlainChar c = true
  balanced : balancedFrom 0 text = true
  no_url : contains urlOpening (asciiLower text) = false

instance (text : Text) : Decidable text.IsPlain :=
  decidable_of_iff
    (trim text = text ∧ text.all isPlainChar = true ∧ balancedFrom 0 text = true ∧
      contains urlOpening (asciiLower text) = false)
    ⟨fun h => ⟨h.1, List.all_eq_true.1 h.2.1, h.2.2.1, h.2.2.2⟩,
      fun h => ⟨h.1, List.all_eq_true.2 h.2, h.3, h.4⟩⟩

end UtilityCss.Text

namespace UtilityCss.Escape

/-! ## Escaped code points

A code point can be written as a backslash and its number in one to six hexadecimal digits. The
number zero, the numbers of surrogates and those beyond the last code point name the replacement
character. -/

/-- The character that stands for whatever cannot be written. -/
def replacement : Char := '\uFFFD'

/-- The value of a hexadecimal digit. -/
def digitValue (c : Char) : Nat :=
  if isDigit c then c.toNat - 48
  else if c.toNat < 97 then c.toNat - 55
  else c.toNat - 87

/-- The hexadecimal digits in front of a text, at most six. -/
def digits (text : Text) : Text :=
  (text.take 6).takeWhile isHexDigit

/-- The number that a run of hexadecimal digits writes. -/
def number (run : Text) : Nat :=
  run.foldl (fun value c => 16 * value + digitValue c) 0

/-- The character with a given number, where there is one other than the null character. -/
def ofNumber (n : Nat) : Char :=
  -- Surrogates are no characters, nor are numbers beyond the last code point.
  if n = 0 then replacement
  else if n < 0xD800 || (0xDFFF < n && n < 0x110000) then Char.ofNat n
  else replacement

/-- The character that a run of hexadecimal digits names. -/
def codePoint (run : Text) : Char :=
  ofNumber (number run)

theorem length_digits_le (text : Text) : (digits text).length ≤ text.length := by
  have h : (digits text).length ≤ (text.take 6).length :=
    (List.takeWhile_sublist _).length_le
  have := List.length_take_le 6 text
  simp only [List.length_take] at h
  omega

end UtilityCss.Escape

namespace UtilityCss

/-! ## Cutting a text at separators

A text is cut by a scan from left to right. The scan keeps a state, and a separator counts only
where the state is the one the scan started with: inside brackets, quotes or an escape the state
differs. -/

/-- A scan of a text from left to right. The characters that satisfy `reads` belong to the scan and
are never separators. -/
structure Scan (σ : Type) where
  start : σ
  step : σ → Char → σ
  reads : Char → Bool

namespace Scan

variable {σ : Type}

/-- The state after a text that is read from state `s`. -/
def finish (scan : Scan σ) (s : σ) (text : Text) : σ :=
  text.foldl scan.step s

variable [DecidableEq σ]

/-- Whether a separator read in state `s` cuts the text. -/
def cutsAt (scan : Scan σ) (separator : Char) (s : σ) (c : Char) : Bool :=
  c == separator && !scan.reads c && decide (s = scan.start)

/-- The pieces of a text that is read from state `s`. -/
def splitFrom (scan : Scan σ) (separator : Char) : σ → Text → List Text
  | _, [] => [[]]
  | s, c :: rest =>
    if scan.cutsAt separator s c then
      [] :: splitFrom scan separator scan.start rest
    else
      (splitFrom scan separator (scan.step s c) rest).modifyHead (c :: ·)

/-- The pieces of a text between the separators that count. -/
def split (scan : Scan σ) (separator : Char) (text : Text) : List Text :=
  scan.splitFrom separator scan.start text

theorem splitFrom_ne_nil (scan : Scan σ) (separator : Char) (s : σ) (text : Text) :
    scan.splitFrom separator s text ≠ [] := by
  induction text generalizing s with
  | nil => simp [splitFrom]
  | cons c rest ih =>
      rw [splitFrom]
      split
      · simp
      · cases h : scan.splitFrom separator (scan.step s c) rest with
        | nil => exact absurd h (ih _)
        | cons head tail => simp

theorem intercalate_modifyHead_cons (separator : Text) (c : Char) (pieces : List Text)
    (h : pieces ≠ []) :
    separator.intercalate (pieces.modifyHead (c :: ·)) = c :: separator.intercalate pieces := by
  match pieces, h with
  | [only], _ => simp
  | first :: second :: rest, _ => simp [List.intercalate_cons_cons]

/-- The pieces of a text, joined with the separator, are the text. -/
theorem intercalate_splitFrom (scan : Scan σ) (separator : Char) (s : σ) (text : Text) :
    [separator].intercalate (scan.splitFrom separator s text) = text := by
  induction text generalizing s with
  | nil => simp [splitFrom]
  | cons c rest ih =>
      rw [splitFrom]
      split
      · -- A cut: the empty piece in front makes the separator come back.
        rename_i h
        have hc : c = separator := by
          simp only [cutsAt, Bool.and_eq_true, beq_iff_eq] at h
          exact h.1.1
        rw [List.intercalate_cons_of_ne_nil (splitFrom_ne_nil _ _ _ _), ih, hc]
        rfl
      · -- No cut: the character belongs to the first piece of the rest.
        rw [intercalate_modifyHead_cons _ _ _ (splitFrom_ne_nil _ _ _ _), ih]

theorem intercalate_split (scan : Scan σ) (separator : Char) (text : Text) :
    [separator].intercalate (scan.split separator text) = text :=
  intercalate_splitFrom scan separator scan.start text

end Scan

/-! ## The top level of a text

A backslash takes the next character with it, inside quotes as well. A quote ends at the same
character. Any closing bracket closes any open one, and one too many has no effect. -/

/-- Where a scan stands in a text: after a backslash, inside a quote, under so many open
brackets. -/
structure Nesting where
  escaped : Bool
  quote : Option Char
  depth : Nat
  deriving DecidableEq, Repr

namespace Nesting

/-- Outside everything. -/
def top : Nesting := ⟨false, none, 0⟩

/-- The characters that open a quote. -/
def isQuote (c : Char) : Bool :=
  c == '"' || c == '\''

/-- The characters that open a bracket. -/
def isOpening (c : Char) : Bool :=
  c == '(' || c == '[' || c == '{'

/-- The characters that close a bracket. -/
def isClosing (c : Char) : Bool :=
  c == ')' || c == ']' || c == '}'

/-- The characters that can change the nesting. -/
def isSpecial (c : Char) : Bool :=
  c == '\\' || isQuote c || isOpening c || isClosing c

/-- Where the scan stands after one more character. -/
def step (s : Nesting) (c : Char) : Nesting :=
  if s.escaped then { s with escaped := false }
  else if c = '\\' then { s with escaped := true }
  else
    match s.quote with
    | some mark => if c = mark then { s with quote := none } else s
    | none =>
      if isQuote c then { s with quote := some c }
      else if isOpening c then { s with depth := s.depth + 1 }
      -- Which bracket is closed does not matter.
      else if isClosing c then { s with depth := s.depth - 1 }
      else s

/-- The scan of brackets, quotes and backslashes. -/
def scan : Scan Nesting where
  start := top
  step := step
  reads := isSpecial

/-- A character that is not special leaves the scan at the top where it is. -/
theorem step_top_of_not_special {c : Char} (h : isSpecial c = false) : step top c = top := by
  simp only [isSpecial, Bool.or_eq_false_iff, beq_eq_false_iff_ne, ne_eq] at h
  obtain ⟨⟨⟨hb, hq⟩, ho⟩, hc⟩ := h
  simp [step, top, hb, hq, ho, hc]

end Nesting

/-- The pieces of a text between the separators of the top level. -/
def Text.splitTopLevel (separator : Char) (text : Text) : List Text :=
  Nesting.scan.split separator text

/-- The pieces joined with the separator are the text. -/
theorem Text.intercalate_splitTopLevel (separator : Char) (text : Text) :
    [separator].intercalate (splitTopLevel separator text) = text :=
  Scan.intercalate_split Nesting.scan separator text

end UtilityCss
