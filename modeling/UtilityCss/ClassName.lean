import UtilityCss.Text

/-!
# Class names

A utility class name is a chain: variants first, the base utility last, with a separator between
them, as in `md:hover:flex`. A backslash takes the next character with it, and segments keep their
backslashes, so that a chain is written exactly as it was read (`display_parse`). In the selector of
its rule, such as `.hover\:flex`, characters of the class name are escaped.

* `ClassName.segments` cuts a raw name at the separators outside square brackets.
* `ClassName.parse` takes the last segment for the base, `ClassName.display` writes the chain again.
* `VariantState` is the set of active variants, kept in the order in which they became active.
  `VariantState.admits` decides whether a chain applies.
* `ClassList.ofText` and `ClassList.ofEntries` bring the classes to resolve to one form.
* `Selector.className` recovers the class name from a selector, `Selector.unescape` resolves the
  escapes.
* `Selector.Spells` relates a class name to its spellings. Each character stands for itself, or
  behind a backslash, or as its number.
* `Selector.serialize` is the spelling by which identifiers are serialized. It keeps letters, digits
  and what is not in ASCII where they can begin or continue an identifier.
-/

set_option autoImplicit false

namespace UtilityCss

/-- A class name as a chain of variants before a base. -/
structure ClassName where
  base : Text
  variants : List Text
  separator : Char
  deriving DecidableEq, Repr

namespace ClassName

/-- The separator where none is chosen. -/
def defaultSeparator : Char := ':'

/-- Where a scan of a raw name stands: after a backslash, under so many square brackets. -/
structure Depth where
  escaped : Bool
  depth : Nat
  deriving DecidableEq, Repr

/-- The scan of square brackets and backslashes. -/
def scan : Scan Depth where
  start := ⟨false, 0⟩
  step s c :=
    if s.escaped then { s with escaped := false }
    else if c = '\\' then { s with escaped := true }
    else if c = '[' then { s with depth := s.depth + 1 }
    -- A bracket that closes nothing leaves the depth at zero.
    else if c = ']' then { s with depth := s.depth - 1 }
    else s
  reads c := c == '\\' || c == '[' || c == ']'

/-- The segments of a raw name. -/
def segments (separator : Char) (raw : Text) : List Text :=
  scan.split separator raw

theorem segments_ne_nil (separator : Char) (raw : Text) : segments separator raw ≠ [] :=
  Scan.splitFrom_ne_nil _ _ _ _

/-- The chain that a raw name writes. -/
def parse (separator : Char) (raw : Text) : ClassName where
  base := (segments separator raw).getLast (segments_ne_nil separator raw)
  variants := (segments separator raw).dropLast
  separator := separator

/-- Whether there is no variant before the base. -/
def isUnvaried (name : ClassName) : Bool :=
  name.variants.isEmpty

/-- The chain as it is written. -/
def display (name : ClassName) : Text :=
  [name.separator].intercalate (name.variants ++ [name.base])

/-- A chain is written exactly as it was read. -/
theorem display_parse (separator : Char) (raw : Text) : (parse separator raw).display = raw := by
  simp only [display, parse, List.dropLast_concat_getLast]
  exact Scan.intercalate_split scan separator raw

end ClassName

/-! ## Active variants

A class applies when all variants of its chain are active. In strict mode the chain must also be as
long as the state is large. -/

/-- The active variants, each once. -/
structure VariantState where
  active : List Text
  nodup : active.Nodup

namespace VariantState

/-- The state without active variants. -/
def empty : VariantState := ⟨[], List.nodup_nil⟩

/-- Whether a variant is active. -/
def contains (state : VariantState) (variant : Text) : Bool :=
  decide (variant ∈ state.active)

/-- The state in which `variant` is active too. -/
def insert (state : VariantState) (variant : Text) : VariantState :=
  if h : variant ∈ state.active then state
  else
    { active := state.active ++ [variant]
      nodup := by
        rw [List.nodup_append]
        refine ⟨state.nodup, by simp, ?_⟩
        intro a ha b hb hab
        rw [List.mem_singleton] at hb
        exact h (hb ▸ hab ▸ ha) }

/-- The state in which the listed variants are active. -/
def ofList (variants : List Text) : VariantState :=
  variants.foldl insert empty

/-- The number of active variants. -/
def size (state : VariantState) : Nat :=
  state.active.length

/-- Whether no variant is active. -/
def isEmpty (state : VariantState) : Bool :=
  state.active.isEmpty

/-- Whether two states have the same active variants. -/
def sameAs (first second : VariantState) : Bool :=
  first.size == second.size && first.active.all second.contains

/-- Whether a chain of variants applies in a state. -/
def admits (state : VariantState) (strict : Bool) (chain : List Text) : Bool :=
  (!strict || chain.length == state.size) && chain.all state.contains

end VariantState

/-! ## Class lists

The classes to resolve are given as one text that blanks separate, or one by one in a list. -/

/-- The names of the classes to resolve, trimmed and not empty. -/
structure ClassList where
  names : List Text
  deriving DecidableEq, Repr

namespace ClassList

/-- The entries of a list, trimmed, without the empty ones. -/
def ofEntries (entries : List Text) : ClassList where
  names := (entries.map Text.trim).filter (fun name => !name.isEmpty)

/-- The longest stretches of a text without blanks. -/
def ofText (classes : Text) : ClassList :=
  ofEntries (classes.splitOnP isBlank)

end ClassList

end UtilityCss

namespace UtilityCss.Selector

/-! ## The class name in a selector

A backslash before other characters than hexadecimal digits gives the next character. One
white-space character of ASCII after the digits belongs to the escape. A backslash at the end is
dropped. -/

/-- The text without one white-space character in front. -/
def dropSpace : Text → Text
  | [] => []
  | c :: rest => if isSpace c then rest else c :: rest

theorem length_dropSpace_le (text : Text) : (dropSpace text).length ≤ text.length := by
  cases text with
  | nil => simp [dropSpace]
  | cons c rest =>
      rw [dropSpace]
      split <;> simp

/-- The text with its escapes resolved. -/
def unescape : Text → Text
  | [] => []
  | c :: rest =>
    if c = '\\' then
      let run := Escape.digits rest
      if run.isEmpty then
        match rest with
        -- A backslash at the end stands for nothing.
        | [] => []
        | literal :: after => literal :: unescape after
      else
        Escape.codePoint run :: unescape (dropSpace (rest.drop run.length))
    else
      c :: unescape rest
termination_by text => text.length
decreasing_by
  · simp only [List.length_cons]; omega
  · have h := length_dropSpace_le (rest.drop (Escape.digits rest).length)
    simp only [List.length_drop] at h
    simp only [List.length_cons]
    omega
  · simp only [List.length_cons]; omega

/-- The text without one dot in front. -/
def dropDot : Text → Text
  | '.' :: rest => rest
  | text => text

/-- The class name that a selector was made from. -/
def className (selector : Text) : Text :=
  unescape (dropDot (Text.trim selector))

/-! ## Spellings of a class name -/

/-- Hexadecimal digits that write a number, in either case and with zeros in front of it. -/
def IsNotation (digits : Text) (number : Nat) : Prop :=
  ∃ zeros, Text.asciiLower digits = List.replicate zeros '0' ++ Nat.toDigits 16 number

/-- The ways to spell one character. -/
inductive SpellsChar (c : Char) : Text → Prop where
  | plain (h : c ≠ '\\') : SpellsChar c [c]
  | escaped (h : isHexDigit c = false) : SpellsChar c ['\\', c]
  /-- White space ends the digits, and belongs to them. -/
  | numbered {digits : Text} {space : Char} (hdigits : IsNotation digits c.toNat)
      (hlength : digits.length ≤ 6) (hspace : isSpace space = true) :
      SpellsChar c ('\\' :: (digits ++ [space]))

/-- The ways to spell a class name, character by character. -/
inductive Spells : Text → Text → Prop where
  | nil : Spells [] []
  | cons {c : Char} {name first rest : Text} (hfirst : SpellsChar c first)
      (hrest : Spells name rest) : Spells (c :: name) (first ++ rest)

/-! ## The serialization of identifiers -/

/-- The number of a character as an escape. -/
def numberEscape (c : Char) : Text :=
  '\\' :: (Nat.toDigits 16 c.toNat ++ [' '])

/-- The characters that an identifier can go on with. -/
def isIdentifierChar (c : Char) : Bool :=
  isNonAscii c || isAsciiLetter c || isDigit c || c == '-' || c == '_'

/-- The control characters of ASCII. -/
def isControl (c : Char) : Bool :=
  c.toNat < 0x20 || c.toNat == 0x7F

/-- A character that an identifier goes on with. -/
def serializeChar (c : Char) : Text :=
  if c = '\x00' then [Escape.replacement]
  else if isControl c then numberEscape c
  else if isIdentifierChar c then [c]
  else ['\\', c]

/-- A character that an identifier begins with, or goes on with behind a hyphen in front. -/
def serializeFirst (c : Char) : Text :=
  -- A digit would begin a number.
  if isDigit c then numberEscape c else serializeChar c

/-- The identifier that names a class. -/
def serialize : Text → Text
  | [] => []
  -- A hyphen alone is no identifier.
  | ['-'] => ['\\', '-']
  | '-' :: c :: rest => '-' :: (serializeFirst c ++ rest.flatMap serializeChar)
  | c :: rest => serializeFirst c ++ rest.flatMap serializeChar

end UtilityCss.Selector
