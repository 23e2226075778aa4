import UtilityCss.Text

/-!
# Numbers

The numbers of style sheets are not negative. A number of double precision is given by the
integer that its 64 bits spell, and its value is an exact rational. No arithmetic of the machine
is involved. A finite number is written with the fewest decimal digits that are nearer to it than to
any other number.

* `Binary64.toRat` is the value of a finite number.
* `Binary64.nearest` is the number nearest to a rational; of two equally near ones, the one with
  the even significand. Rationals beyond the largest finite number give `Binary64.infinity`.
* `Binary64.mul` is the number nearest to the exact product.
* `Decimal.isPlain` is the form of plain decimals, `Decimal.value` the rational that one denotes.
* `Decimal.parse?` is the number of double precision nearest to it, so that decimals of equal
  value give equal bits.
* `DecimalDigits` is a run of digits with a power of ten, `Binary64.shortest` gives the digits of a
  number.
* `NumberLayout` holds the decisions about the written form: which exponents are written out in
  full, and how the other numbers mark their exponent. `NumberLayout.write` writes a number under
  such decisions, and `NumberLayout.computed` is the layout in which computed values are written.
-/

set_option autoImplicit false

namespace UtilityCss

/-- A number of double precision that is not negative, as the integer that its bits spell. -/
structure Binary64 where
  bits : Nat
  deriving DecidableEq, Repr

namespace Binary64

/-- The number of values with one exponent. -/
def fractions : Nat := Nat.pow 2 52

/-- Beyond all finite numbers. -/
def infinity : Binary64 := ⟨2047 * fractions⟩

/-- The result that is no number. -/
def nan : Binary64 := ⟨2047 * fractions + Nat.pow 2 51⟩

/-- Whether the bits are those of a finite number. -/
def isFinite (x : Binary64) : Bool :=
  x.bits < infinity.bits

/-- The power of two that scales the significand, counted from the least one, which is `2 ^
-1074`. -/
def exponent (x : Binary64) : Nat :=
  x.bits / fractions - 1

/-- The significand, an integer below `2 ^ 53`. -/
def significand (x : Binary64) : Nat :=
  x.bits - x.exponent * fractions

/-- The denominator of the values of all finite numbers. -/
def unit : Nat := Nat.pow 2 1074

/-- The value of a finite number. -/
def toRat (x : Binary64) : Rat :=
  mkRat (x.significand * Nat.pow 2 x.exponent) unit

/-- The integer nearest to a fraction, and of two equally near ones the even one. -/
def roundHalfEven (numerator denominator : Nat) : Nat :=
  let quotient := numerator / denominator
  let twice := 2 * (numerator % denominator)
  if twice < denominator || (twice == denominator && quotient % 2 == 0) then quotient
  else quotient + 1

/-- The number nearest to a rational that is not negative. A significand that rounding brings to
`2 ^ 53` carries into the exponent by itself. -/
def nearest (q : Rat) : Binary64 :=
  -- The exponent is the least one under which the significand has at most 53 bits.
  let scaled := q.num.toNat * unit
  let exponent := (scaled / q.den).log2 - 52
  let significand := roundHalfEven scaled (q.den * Nat.pow 2 exponent)
  ⟨min (exponent * fractions + significand) infinity.bits⟩

/-- The product of two numbers. Infinity times zero is no number. -/
def mul (x y : Binary64) : Binary64 :=
  if x.isFinite && y.isFinite then nearest (x.toRat * y.toRat)
  else if x = nan || y = nan || x.bits = 0 || y.bits = 0 then nan
  else infinity

end Binary64

end UtilityCss

namespace UtilityCss.Decimal

/-! ## Plain decimals

A plain decimal is a run of digits, or a possibly empty run of digits with a point and a run of
digits after it. It has no sign, no exponent and no point at its end. -/

/-- The digits before the first point. -/
def whole (text : Text) : Text :=
  text.takeWhile (· != '.')

/-- The digits after the first point, if there is a point. -/
def fraction? (text : Text) : Option Text :=
  match text.dropWhile (· != '.') with
  | [] => none
  | _ :: rest => some rest

/-- Whether a text is a plain decimal. -/
def isPlain (text : Text) : Bool :=
  match fraction? text with
  | none => !text.isEmpty && text.all isDigit
  -- There may be no digits before the point, but there are some after it.
  | some fraction => (whole text).all isDigit && !fraction.isEmpty && fraction.all isDigit

/-- The number that a run of decimal digits writes. -/
def digitsValue (digits : Text) : Nat :=
  digits.foldl (fun value c => 10 * value + (c.toNat - 48)) 0

/-- The rational that a plain decimal denotes. -/
def value (text : Text) : Rat :=
  let fraction := (fraction? text).getD []
  mkRat (digitsValue (whole text ++ fraction)) (Nat.pow 10 fraction.length)

/-- The number nearest to a plain decimal. -/
def parse? (text : Text) : Option Binary64 :=
  if isPlain text then some (Binary64.nearest (value text)) else none

end UtilityCss.Decimal

namespace UtilityCss

/-! ## The fewest digits that read back

For each count of digits the two neighbours of the number on the grid of that many digits are
tried. The first grid that has a neighbour between the bounds of the number wins. Of two such
neighbours the nearer one is taken, and the larger of two equally near ones. The bounds
themselves belong to a number with an even significand. -/

/-- Decimal digits, of which the first stands for units of `10 ^ exponent`. -/
structure DecimalDigits where
  digits : Text
  exponent : Int
  deriving DecidableEq, Repr

namespace DecimalDigits

/-- The digits of `count * 10 ^ scale`, without zeros at the end. -/
def ofScaled (count : Nat) (scale : Int) : DecimalDigits :=
  let written := Nat.toDigits 10 count
  ⟨(written.reverse.dropWhile (· == '0')).reverse, scale + (written.length - 1 : Nat)⟩

end DecimalDigits

/-- A number with its bounds, as integers over one denominator. -/
structure Bounds where
  lower : Nat
  value : Nat
  upper : Nat
  denominator : Nat
  /-- Whether the bounds themselves read back. -/
  inclusive : Bool
  deriving Repr

namespace Bounds

/-- The bounds of a finite number: half way to its neighbours. Below a power of two the lower
neighbour is half as far away. -/
def ofBinary64 (x : Binary64) : Bounds :=
  -- Quarters of the last place, so that both bounds are integers.
  let scale := Nat.pow 2 x.exponent
  let middle := 4 * x.significand
  let below := if x.significand = Binary64.fractions && 0 < x.exponent then 1 else 2
  { lower := (middle - below) * scale
    value := middle * scale
    upper := (middle + 2) * scale
    denominator := 4 * Binary64.unit
    inclusive := x.significand % 2 == 0 }

/-- The exponent of the leading decimal digit of the value, which lies between `10 ^ -400` and
`10 ^ 400`. -/
def leading (bounds : Bounds) : Int :=
  ((Nat.toDigits 10 (bounds.value * Nat.pow 10 400 / bounds.denominator)).length : Int) - 401

/-- The same bounds divided by `10 ^ scale`. -/
def rescale (bounds : Bounds) (scale : Int) : Bounds :=
  let up := Nat.pow 10 (-scale).toNat
  { bounds with
    lower := bounds.lower * up
    value := bounds.value * up
    upper := bounds.upper * up
    denominator := bounds.denominator * Nat.pow 10 scale.toNat }

/-- Whether an integer lies between the bounds. -/
def admits (bounds : Bounds) (n : Nat) : Bool :=
  let scaled := n * bounds.denominator
  if bounds.inclusive then bounds.lower ≤ scaled && scaled ≤ bounds.upper
  else bounds.lower < scaled && scaled < bounds.upper

/-- The integer between the bounds that is nearest to the value, and of two equally near ones
the larger. -/
def nearestInteger? (bounds : Bounds) : Option Nat :=
  let low := bounds.value / bounds.denominator
  let high := low + 1
  if bounds.admits low && bounds.admits high then
    if 2 * (bounds.value % bounds.denominator) < bounds.denominator then some low else some high
  else if bounds.admits low then some low
  else if bounds.admits high then some high
  else none

/-- The digits of the value on the grid of `count + 1` digits. -/
def onGrid? (bounds : Bounds) (count : Nat) : Option DecimalDigits :=
  let scale := bounds.leading - count
  (bounds.rescale scale).nearestInteger?.map fun n => DecimalDigits.ofScaled n scale

end Bounds

/-- The fewest digits that read back as a positive finite number. Seventeen are always enough. -/
def Binary64.shortest (x : Binary64) : DecimalDigits :=
  let bounds := Bounds.ofBinary64 x
  ((List.range 17).findSome? bounds.onGrid?).getD ⟨['0'], 0⟩

/-! ## Layouts -/

/-- The decisions about the written form of a number. -/
structure NumberLayout where
  /-- The least exponent of the leading digit that is written out in full. -/
  fullFrom : Int
  /-- The greatest exponent of the leading digit that is written out in full. -/
  fullTo : Int
  exponentMark : Text
  positiveSign : Text
  negativeSign : Text
  infinity : Text
  notANumber : Text
  deriving Repr

namespace NumberLayout

/-- The layout of computed values: in full from a millionth up to below `10 ^ 21`. -/
def computed : NumberLayout where
  fullFrom := -6
  fullTo := 20
  exponentMark := ['e']
  positiveSign := ['+']
  negativeSign := ['-']
  infinity := "Infinity".toList
  notANumber := "NaN".toList

/-- Digits with a point after so many of them, if any digits remain. -/
def pointAfter (count : Nat) (digits : Text) : Text :=
  if digits.length ≤ count then digits else digits.take count ++ '.' :: digits.drop count

/-- Digits written out in full. -/
def full (decimal : DecimalDigits) : Text :=
  if decimal.exponent < 0 then
    "0.".toList ++ List.replicate ((-decimal.exponent).toNat - 1) '0' ++ decimal.digits
  else
    let whole := decimal.exponent.toNat + 1
    pointAfter whole (decimal.digits ++ List.replicate (whole - decimal.digits.length) '0')

/-- Digits with an exponent. -/
def scientific (layout : NumberLayout) (decimal : DecimalDigits) : Text :=
  let sign := if decimal.exponent < 0 then layout.negativeSign else layout.positiveSign
  pointAfter 1 decimal.digits ++ layout.exponentMark ++ sign ++
    Nat.toDigits 10 decimal.exponent.natAbs

/-- The written form of a number. -/
def write (layout : NumberLayout) (x : Binary64) : Text :=
  if x = Binary64.infinity then layout.infinity
  else if !x.isFinite then layout.notANumber
  else if x.bits = 0 then ['0']
  else
    let decimal := x.shortest
    if layout.fullFrom ≤ decimal.exponent && decimal.exponent ≤ layout.fullTo then full decimal
    else layout.scientific decimal

end NumberLayout

end UtilityCss
