import UtilityCss.Component
import UtilityCss.Number

/-!
# Numbers, dimensions and products in values

A cursor stands in a sequence of components. It reads the first token of a component at a time,
passing over white space and comments. When that token opens a block, the rest of the block is
left over as text that the next reading passes over. A value may hold products such as
`calc(0.25rem * 4)`, which can be evaluated.

* `Cursor.next` reads one token with the text up to its end.
* `Cursor.number` reads a number, `Cursor.dimension` a number with a unit.
* `ReadError` says why a reading failed.
* `Calc.product` evaluates the contents of a `calc()` block: a dimension, an asterisk and a
  number, nothing else.
* `Calc.simplify` replaces each product in a value and leaves the rest as written.

The number is taken from the text since the cursor, which has to be a plain decimal once blanks
at both ends are trimmed; for a dimension the unit follows it. Units are small letters of ASCII.
A cursor moves past the token that it read even if the reading failed.
-/

set_option autoImplicit false

namespace UtilityCss

/-! ## Cursors -/

/-- What a block holds after its first token. -/
def Component.inside : Component → Text
  | .single _ => []
  | .block _ content closer => Component.sources content ++ Component.closerSource closer

/-- A place in a sequence of components. -/
structure Cursor where
  /-- The component whose first token was read last. Its other tokens have not been passed. -/
  begun : Option Component
  ahead : List Component
  /-- The size in bytes of the text before this place. -/
  position : Nat
  deriving Repr

namespace Cursor

/-- The place before a sequence of components. -/
def start (components : List Component) : Cursor := ⟨none, components, 0⟩

/-- The text of a begun block that has not been passed. -/
def leftOver (cursor : Cursor) : Text :=
  match cursor.begun with
  | none => []
  | some component => component.inside

/-- What a reading finds: a token, unless the end was reached, and the text up to the end of the
token. -/
structure Reading where
  token : Option Token
  text : Text
  cursor : Cursor
  deriving Repr

/-- Reads one token. -/
def next (cursor : Cursor) : Reading :=
  let passed :=
    cursor.leftOver ++ Component.sources (cursor.ahead.takeWhile Component.isSkipped)
  match cursor.ahead.dropWhile Component.isSkipped with
  | [] => ⟨none, passed, ⟨none, [], cursor.position + Text.utf8Length passed⟩⟩
  | component :: rest =>
    let text := passed ++ component.firstToken.source
    { token := some component.firstToken
      text := text
      cursor := ⟨some component, rest, cursor.position + Text.utf8Length text⟩ }

end Cursor

/-! ## Quantities -/

/-- Why a quantity could not be read. -/
inductive ReadError where
  /-- The next token is of another kind. -/
  | unexpectedToken
  /-- The number is not a plain decimal. -/
  | unsupportedNumber
  /-- Something follows the quantity. -/
  | trailingInput
  deriving DecidableEq, Repr

/-- The wording of a failed reading. -/
def ReadError.message : ReadError → Text
  | .unexpectedToken => "unexpected token".toList
  | .unsupportedNumber => "number is not a plain decimal".toList
  | .trailingInput => "unexpected trailing input".toList

/-- A number with a unit. -/
structure Dimension where
  value : Binary64
  unit : Text
  deriving DecidableEq, Repr

namespace Dimension

/-- A small letter of ASCII. -/
def isUnitChar (c : Char) : Bool :=
  'a' ≤ c && c ≤ 'z'

/-- Whether a unit is made of small letters only. -/
def isUnit (unit : Text) : Bool :=
  !unit.isEmpty && unit.all isUnitChar

end Dimension

namespace Cursor

/-- The number that a reading found. -/
def Reading.number (reading : Reading) : Except ReadError Binary64 :=
  match reading.token.map Token.kind with
  | some .number =>
    match Decimal.parse? (Text.trim reading.text) with
    | some value => .ok value
    | none => .error .unsupportedNumber
  | _ => .error .unexpectedToken

/-- The dimension that a reading found. -/
def Reading.dimension (reading : Reading) : Except ReadError Dimension :=
  match reading.token.map Token.kind with
  | some (.dimension unit) =>
    if Dimension.isUnit unit then
      match (Text.before? unit (Text.trim reading.text)).bind Decimal.parse? with
      | some value => .ok ⟨value, unit⟩
      | none => .error .unsupportedNumber
    else .error .unexpectedToken
  | _ => .error .unexpectedToken

/-- Reads a number. -/
def number (cursor : Cursor) : Except ReadError Binary64 × Cursor :=
  (cursor.next.number, cursor.next.cursor)

/-- Reads a dimension. -/
def dimension (cursor : Cursor) : Except ReadError Dimension × Cursor :=
  (cursor.next.dimension, cursor.next.cursor)

/-- Reads one character that stands for itself. -/
def delimiter (c : Char) (cursor : Cursor) : Except ReadError Unit × Cursor :=
  let reading := cursor.next
  if reading.token.map Token.kind = some (.delimiter c) then (.ok (), reading.cursor)
  else (.error .unexpectedToken, reading.cursor)

/-- Reads the end. -/
def finish (cursor : Cursor) : Except ReadError Unit :=
  if cursor.next.token.isNone then .ok () else .error .trailingInput

end Cursor

end UtilityCss

namespace UtilityCss.Calc

/-! ## Products

Products are found at any depth outside strings, comments and addresses. A block that is
replaced is not searched; any other block is. -/

/-- A dimension as it is written. -/
def writeDimension (dimension : Dimension) : Text :=
  NumberLayout.computed.write dimension.value ++ dimension.unit

/-- The product that the contents of a block denote. -/
def product (content : List Component) : Except ReadError Dimension := do
  -- Only the first factor has a unit.
  let (factor, afterFactor) := (Cursor.start content).dimension
  let factor ← factor
  let (asterisk, afterAsterisk) := afterFactor.delimiter '*'
  asterisk
  let (multiplier, afterMultiplier) := afterAsterisk.number
  let multiplier ← multiplier
  afterMultiplier.finish
  return ⟨factor.value.mul multiplier, factor.unit⟩

/-- The name of the function whose products are evaluated. -/
def functionName : Text := "calc".toList

/-- What a block is replaced by, if it is a product. -/
def replacement? (opener : Token) (content : List Component) : Option Text :=
  if opener.kind = .function functionName then
    match product content with
    | .ok dimension => some (writeDimension dimension)
    | .error _ => none
  else none

mutual
/-- The text of a component with its products evaluated, in front of a given text. -/
def reducedThen : Component → Text → Text
  | .single token, after => token.source ++ after
  | .block opener content closer, after =>
    match replacement? opener content with
    | some text => text ++ after
    -- Products inside a block that stays are still evaluated.
    | none => opener.source ++ reducedAllThen content (Component.closerSource closer ++ after)
/-- The text of a sequence of components with its products evaluated, in front of a given text. -/
def reducedAllThen : List Component → Text → Text
  | [], after => after
  | component :: rest, after => reducedThen component (reducedAllThen rest after)
end

/-- The text of a component with its products evaluated. -/
def reduced (component : Component) : Text :=
  reducedThen component []

/-- The text of a sequence of components with its products evaluated. -/
def reducedAll (components : List Component) : Text :=
  reducedAllThen components []

mutual
theorem reducedThen_eq (component : Component) (after : Text) :
    reducedThen component after = reduced component ++ after := by
  cases component with
  | single token => simp [reduced, reducedThen]
  | block opener content closer =>
      have inside := fun after => reducedAllThen_eq content after
      simp only [reduced, reducedThen, inside]
      split <;> simp
theorem reducedAllThen_eq (components : List Component) (after : Text) :
    reducedAllThen components after = reducedAll components ++ after := by
  cases components with
  | nil => simp [reducedAll, reducedAllThen]
  | cons component rest =>
      have first := fun after => reducedThen_eq component after
      have others := fun after => reducedAllThen_eq rest after
      change reducedAllThen (component :: rest) after =
        reducedAllThen (component :: rest) [] ++ after
      simp [reducedAllThen, first, others]
end

@[simp] theorem reduced_single (token : Token) : reduced (.single token) = token.source := by
  simp [reduced, reducedThen]

/-- A block is replaced as a whole, or stays with the products inside it evaluated. -/
theorem reduced_block (opener : Token) (content : List Component) (closer : Option Token) :
    reduced (.block opener content closer) =
      (replacement? opener content).getD
        (opener.source ++ reducedAll content ++ Component.closerSource closer) := by
  simp only [reduced, reducedThen, reducedAllThen_eq]
  split <;> simp_all

@[simp] theorem reducedAll_nil : reducedAll [] = [] := by
  simp [reducedAll, reducedAllThen]

@[simp] theorem reducedAll_cons (component : Component) (rest : List Component) :
    reducedAll (component :: rest) = reduced component ++ reducedAll rest := by
  change reducedAllThen (component :: rest) [] = _
  simp [reducedAllThen, reducedThen_eq, reducedAllThen_eq]

/-- The value with its products evaluated. A value in which `calc(` is not spelled out is left
alone. -/
def simplify (value : Text) : Text :=
  if Text.contains "calc(".toList value then reducedAll (Component.ofText value) else value

end UtilityCss.Calc
