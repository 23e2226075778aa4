import UtilityCss.Text

/-!
# Tokens

A style sheet is read as a sequence of tokens. A token keeps the text it was read from, so that
the texts of all tokens in order are the text of the sheet (`sources_ofText`).

* `Bracket` is a pair of brackets.
* `Token.Kind` is what a token is, with its name or unit where it has one. Names are those that
  remain after escapes are resolved.
* `Token` is a kind with its source text.
* `startsName` decides whether a text begins with a name, `nameExtent` is the number of characters
  that the name takes, and `nameValue` resolves its escapes.
* `commentExtent`, `stringExtent`, `urlExtent` and `badUrlExtent` are the extents of what is never
  read further.
* `startsNumeral` decides whether a text begins with a numeral, `numeralExtent` is the number of
  characters that it takes.
* `Token.first` says what the first token of a text is and how many characters it takes,
  `Token.ofText` reads a whole text.
-/

set_option autoImplicit false

namespace UtilityCss

/-- The three pairs of brackets. A function opens a round one. -/
inductive Bracket where
  | round
  | square
  | curly
  deriving DecidableEq, Repr

namespace Token

/-- What a token is. -/
inductive Kind where
  /-- A run of white space. -/
  | space
  | comment
  /-- A name that no round bracket follows. -/
  | ident (name : Text)
  /-- A name together with the round bracket that follows it. -/
  | function (name : Text)
  | atKeyword (name : Text)
  | hash (name : Text)
  /-- A quoted text, also one that the end of its line cuts off. -/
  | string
  /-- An address without quotes, also a malformed one. -/
  | url
  | number
  | percentage
  | dimension (unit : Text)
  | colon
  | semicolon
  | comma
  | opening (bracket : Bracket)
  | closing (bracket : Bracket)
  /-- One of the operators that compare an attribute. -/
  | comparison
  /-- The mark that opens a comment of the embedding document. -/
  | documentOpen
  /-- The mark that closes a comment of the embedding document. -/
  | documentClose
  /-- Any other single character. -/
  | delimiter (c : Char)
  deriving DecidableEq, Repr

namespace Kind

/-- Whether the token only separates others. -/
def isSkipped : Kind → Bool
  | .space => true
  | .comment => true
  | _ => false

/-- The bracket that the token opens. -/
def opens? : Kind → Option Bracket
  | .function _ => some .round
  | .opening bracket => some bracket
  | _ => none

/-- The bracket that the token closes. -/
def closes? : Kind → Option Bracket
  | .closing bracket => some bracket
  | _ => none

end Kind

end Token

/-- A token with the text it was read from. -/
structure Token where
  kind : Token.Kind
  source : Text
  deriving DecidableEq, Repr

end UtilityCss

namespace UtilityCss.Token

/-! ## Names

Identifiers, function names, at-keywords, hashes and units share one form of name. An escape is a
backslash with one to six hexadecimal digits and one white space after them, where a carriage return
with its line feed is one, or a backslash with any other character. A backslash before the end of a
line is no escape. The null character stands for the replacement character. -/

/-- The characters that can begin a name. -/
def isNameStart (c : Char) : Bool :=
  isAsciiLetter c || c == '_' || c == '\x00' || isNonAscii c

/-- The characters that can stand in a name. -/
def isNameChar (c : Char) : Bool :=
  isNameStart c || isDigit c || c == '-'

/-- Whether the end of a line is in front. -/
def startsNewline : Text → Bool
  | [] => false
  | c :: _ => isNewline c

/-- Whether a name is in front. -/
def startsName : Text → Bool
  | [] => false
  | c :: rest =>
    if c = '\\' then !startsNewline rest
    else if c = '-' then
      match rest with
      | [] => false
      | second :: _ => isNameStart second || second == '-' || second == '\\'
    else isNameStart c

/-- The number of characters in front that end one line. -/
def newlineExtent : Text → Nat
  | [] => 0
  | c :: rest =>
    if c = '\r' then
      -- The line feed after a carriage return ends the same line.
      match rest with
      | '\n' :: _ => 2
      | _ => 1
    else if isNewline c then 1
    else 0

/-- The number of characters in front that make one white space. -/
def oneSpaceExtent : Text → Nat
  | [] => 0
  | c :: rest => if isNewline c then newlineExtent (c :: rest) else if isSpace c then 1 else 0

/-- The number of characters that an escape takes after its backslash. -/
def escapeExtent : Text → Nat
  | [] => 0
  | c :: rest =>
    if isHexDigit c then
      let run := (Escape.digits (c :: rest)).length
      run + oneSpaceExtent ((c :: rest).drop run)
    else 1

/-- The character that an escape names; the text begins after the backslash. -/
def escapeValue : Text → Char
  | [] => Escape.replacement
  | c :: rest =>
    if isHexDigit c then Escape.codePoint (Escape.digits (c :: rest))
    else if c = '\x00' then Escape.replacement
    else c

/-- The number of characters of the name in front. -/
def nameExtent : Text → Nat
  | [] => 0
  | c :: rest =>
    if c = '\\' then
      if startsNewline rest then 0
      else 1 + escapeExtent rest + nameExtent (rest.drop (escapeExtent rest))
    else if isNameChar c then 1 + nameExtent rest
    else 0
termination_by text => text.length
decreasing_by
  · simp only [List.length_drop, List.length_cons]; omega
  · simp

/-- The name that a text writes, with its escapes resolved. -/
def nameValue : Text → Text
  | [] => []
  | c :: rest =>
    if c = '\\' then escapeValue rest :: nameValue (rest.drop (escapeExtent rest))
    else (if c = '\x00' then Escape.replacement else c) :: nameValue rest
termination_by text => text.length
decreasing_by
  · simp only [List.length_drop, List.length_cons]; omega
  · simp

/-- The name in front of a text, with its escapes resolved. -/
def nameOf (text : Text) : Text :=
  nameValue (text.take (nameExtent text))

/-! ## Comments, strings and addresses -/

/-- The number of characters of a comment after its opening mark. -/
def commentExtent : Text → Nat
  | [] => 0
  | '*' :: '/' :: _ => 2
  | _ :: rest => 1 + commentExtent rest

/-- The number of characters that a backslash takes with it inside a quoted text: the end of a
line as well as an escape. -/
def stringEscapeExtent (rest : Text) : Nat :=
  if startsNewline rest then newlineExtent rest else escapeExtent rest

/-- The number of characters of a quoted text after its opening quote. A line end that no backslash
precedes is left outside. -/
def stringExtent (mark : Char) : Text → Nat
  | [] => 0
  | c :: rest =>
    if c = '\\' then
      1 + stringEscapeExtent rest + stringExtent mark (rest.drop (stringEscapeExtent rest))
    else if c = mark then 1
    else if isNewline c then 0
    else 1 + stringExtent mark rest
termination_by text => text.length
decreasing_by
  · simp only [List.length_drop, List.length_cons]; omega
  · simp

/-- The number of characters of a malformed address up to its closing bracket. A backslash takes a
closing bracket or another backslash with it. -/
def badUrlExtent : Text → Nat
  | [] => 0
  | [_] => 1
  | c :: second :: rest =>
    if c = ')' then 1
    else if c = '\\' && (second = ')' || second = '\\') then 2 + badUrlExtent rest
    else 1 + badUrlExtent (second :: rest)

/-- The number of white-space characters in front. -/
def spaceExtent (text : Text) : Nat :=
  (text.takeWhile isSpace).length

/-- The number of characters from the white space that ends an address. Anything but the closing
bracket after it makes the address malformed. -/
def urlEndExtent (text : Text) : Nat :=
  let blanks := spaceExtent text
  match text.drop blanks with
  | [] => blanks
  | c :: rest => if c = ')' then blanks + 1 else blanks + 1 + badUrlExtent rest

/-- The characters that make an address malformed: quotes, an opening bracket, and characters that
cannot be printed. -/
def breaksUrl (c : Char) : Bool :=
  let n := c.toNat
  c == '"' || c == '\'' || c == '(' ||
    (1 ≤ n && n ≤ 8) || n = 0x0B || (0x0E ≤ n && n ≤ 0x1F) || n = 0x7F

/-- The number of characters of an address from its first character on. -/
def urlBodyExtent : Text → Nat
  | [] => 0
  | c :: rest =>
    if c = ')' then 1
    else if isSpace c then urlEndExtent (c :: rest)
    else if breaksUrl c then 1 + badUrlExtent rest
    else if c = '\\' then
      if startsNewline rest then 1 + badUrlExtent rest
      else 1 + escapeExtent rest + urlBodyExtent (rest.drop (escapeExtent rest))
    else 1 + urlBodyExtent rest
termination_by text => text.length
decreasing_by
  · simp only [List.length_drop, List.length_cons]; omega
  · simp

/-- The number of characters of an address after its opening bracket, unless a quote follows. -/
def urlExtent (text : Text) : Option Nat :=
  let blanks := spaceExtent text
  match text.drop blanks with
  | [] => some blanks
  | c :: rest =>
    if c = '"' ∨ c = '\'' then none
    else some (blanks + urlBodyExtent (c :: rest))

/-! ## Numerals -/

/-- Whether a digit is in front. -/
def startsDigit : Text → Bool
  | [] => false
  | c :: _ => isDigit c

/-- The number of digits in front. -/
def digitExtent (text : Text) : Nat :=
  (text.takeWhile isDigit).length

/-- A plus or minus in front. -/
def signExtent : Text → Nat
  | [] => 0
  | c :: _ => if c = '+' ∨ c = '-' then 1 else 0

/-- The number of characters of a point with its digits. -/
def fractionExtent : Text → Nat
  | [] => 0
  | c :: rest => if c = '.' && startsDigit rest then 1 + digitExtent rest else 0

/-- The number of characters of an exponent with its digits. -/
def exponentExtent : Text → Nat
  | [] => 0
  | c :: rest =>
    let sign := signExtent rest
    if (c = 'e' || c = 'E') && startsDigit (rest.drop sign) then
      1 + sign + digitExtent (rest.drop sign)
    else 0

/-- Whether a numeral is in front. -/
def startsNumeral (text : Text) : Bool :=
  let unsigned := text.drop (signExtent text)
  startsDigit unsigned || fractionExtent unsigned != 0

/-- The number of characters of the numeral in front. -/
def numeralExtent (text : Text) : Nat :=
  -- Each part is read where the part before it ends.
  let sign := signExtent text
  let whole := sign + digitExtent (text.drop sign)
  let decimal := whole + fractionExtent (text.drop whole)
  decimal + exponentExtent (text.drop decimal)

/-! ## Tokens that begin with a name or a numeral -/

/-- An identifier, a function or an address. -/
def firstNamed (text : Text) : Kind × Nat :=
  let extent := nameExtent text
  let name := nameOf text
  match text.drop extent with
  | [] => (.ident name, extent)
  | c :: inside =>
    if c ≠ '(' then (.ident name, extent)
    else if Text.asciiLower name = "url".toList then
      -- With a quoted text inside, it is a function like any other.
      match urlExtent inside with
      | some length => (.url, extent + 1 + length)
      | none => (.function name, extent + 1)
    else (.function name, extent + 1)

/-- A percentage, a dimension or a plain number. -/
def firstNumeric (text : Text) : Kind × Nat :=
  let extent := numeralExtent text
  let after := text.drop extent
  -- An exponent belongs to the numeral, so that `1e3` has no unit.
  if after.head? = some '%' then (.percentage, extent + 1)
  else if startsName after then (.dimension (nameOf after), extent + nameExtent after)
  else (.number, extent)

/-- A hash, unless neither a name nor a digit follows. -/
def firstHash (rest : Text) : Kind × Nat :=
  if startsName rest || startsDigit rest || rest.head? = some '-' then
    (.hash (nameOf rest), 1 + nameExtent rest)
  else (.delimiter '#', 1)

/-- An at-keyword, unless no name follows. -/
def firstAt (rest : Text) : Kind × Nat :=
  if startsName rest then (.atKeyword (nameOf rest), 1 + nameExtent rest)
  else (.delimiter '@', 1)

/-! ## Tokens of fixed form -/

/-- The marks of one character, and the operators that end in an equals sign. -/
def firstMark (c : Char) (rest : Text) : Kind × Nat :=
  if c = ':' then (.colon, 1)
  else if c = ';' then (.semicolon, 1)
  else if c = ',' then (.comma, 1)
  else if c = '(' then (.opening .round, 1)
  else if c = '[' then (.opening .square, 1)
  else if c = '{' then (.opening .curly, 1)
  else if c = ')' then (.closing .round, 1)
  else if c = ']' then (.closing .square, 1)
  else if c = '}' then (.closing .curly, 1)
  -- An equals sign alone compares nothing.
  else if "$*^|~".toList.contains c && rest.head? = some '=' then (.comparison, 2)
  else (.delimiter c, 1)

/-! ## All tokens -/

/-- The kind of the first token of `c :: rest` and the number of its characters. -/
def first (c : Char) (rest : Text) : Kind × Nat :=
  let text := c :: rest
  -- A hyphen can begin a numeral, a closing mark and a name: they are tried in this order.
  if isSpace c then (.space, spaceExtent text)
  else if c = '"' ∨ c = '\'' then (.string, 1 + stringExtent c rest)
  else if startsNumeral text then firstNumeric text
  else if "-->".toList.isPrefixOf text then (.documentClose, 3)
  else if startsName text then firstNamed text
  else if "<!--".toList.isPrefixOf text then (.documentOpen, 4)
  else if "/*".toList.isPrefixOf text then (.comment, 2 + commentExtent (text.drop 2))
  else if c = '#' then firstHash rest
  else if c = '@' then firstAt rest
  else firstMark c rest

/-- The tokens of a text, in order. -/
def ofText : Text → List Token
  | [] => []
  | c :: rest =>
    let token := first c rest
    -- The first character is always taken, so that the rest is shorter.
    ⟨token.1, c :: rest.take (token.2 - 1)⟩ :: ofText (rest.drop (token.2 - 1))
termination_by text => text.length
decreasing_by simp only [List.length_drop, List.length_cons]; omega

/-- The sources of the tokens of a text, in order, are the text. -/
theorem sources_ofText (text : Text) : (ofText text).flatMap Token.source = text := by
  fun_induction ofText text with
  | case1 => rfl
  | case2 c rest token ih => simp [ih]

end UtilityCss.Token
