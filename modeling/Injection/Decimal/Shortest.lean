import Injection.Decimal

/-!
# Shortest decimals

The text of a binary64 number is the shortest decimal that reads back as the number, and of two
equally short ones the nearer. A point is always shown, unless an exponent follows a single digit.

## Main definitions

* `Binary.shortest` — the digits and the exponent.
* `Binary.shown` — the text of a number.
-/

namespace Injection

namespace Binary

/-! ## The digits -/

/-- Whether `digits * 10 ^ exponent` is read as a size. -/
def isReadFrom (size : Binary) (digits : Nat) (exponent : Int) : Bool :=
  match Decimal.nearest? ⟨false, digits, exponent⟩ with
  | none => false
  | some read => read.units == size.units

/-- The shortest digits that read as a size: tries the two neighbours of the size on the grid of
`10 ^ exponent`, a coarse grid first, and takes the nearer one that reads back. -/
def shortestFrom (size : Binary) : Nat → Int → Nat × Int
  | 0, exponent => (0, exponent)
  | steps + 1, exponent =>
    let (num, den) := scaled size.mantissa 1 size.scale
    let (num, den) :=
      if exponent ≥ 0 then (num, den * Nat.pow 10 exponent.toNat)
      else (num * Nat.pow 10 (-exponent).toNat, den)
    let below := num / den
    let nearer := roundDiv num den
    let other := if nearer = below then below + 1 else below
    if size.isReadFrom nearer exponent then (nearer, exponent)
    else if size.isReadFrom other exponent then (other, exponent)
    else shortestFrom size steps (exponent - 1)

/-- The shortest digits that read as a positive size, and their power of ten. The first grid is too
coarse for all sizes, and the last one fine enough for all. -/
def shortest (size : Binary) : Nat × Int := shortestFrom size 800 309

/-! ## The text -/

/-- The least and the greatest place of the point, counted from before the leading digit, for which
a number is written without an exponent. -/
def pointRange : Int × Int := (-4, 16)

/-- A number without an exponent, with one digit behind the point at least. -/
def positional (digits : Nat) (exponent : Int) : String :=
  let shown := Nat.toDigits 10 digits
  if exponent ≥ 0 then
    String.ofList (shown ++ List.replicate exponent.toNat '0') ++ ".0"
  else
    let places := (-exponent).toNat
    let padded := List.replicate (places + 1 - shown.length) '0' ++ shown
    let whole := padded.take (padded.length - places)
    String.ofList whole ++ "." ++ String.ofList (padded.drop (padded.length - places))

/-- A number with one digit before the point, if there is a point, and an exponent with a sign. -/
def scientific (digits : Nat) (exponent : Int) : String :=
  let shown := Nat.toDigits 10 digits
  let places := shown.tail
  let power := exponent + places.length
  String.ofList (shown.take 1) ++ (if places.isEmpty then "" else "." ++ String.ofList places) ++
    (if power ≥ 0 then "e+" else "e-") ++ toString power.natAbs

/-- The text of `digits * 10 ^ exponent`. -/
def layout (digits : Nat) (exponent : Int) : String :=
  let point : Int := (Nat.toDigits 10 digits).length + exponent
  if pointRange.1 ≤ point && point ≤ pointRange.2 then positional digits exponent
  else scientific digits exponent

/-- The shortest text that reads as a size. -/
def sizeText (size : Binary) : String :=
  if size.isZero then "0.0"
  else
    let (digits, exponent) := size.shortest
    layout digits exponent

/-- The text of a number, given by its sign and its size; a size that is out of range is
infinite. -/
def shown (negative : Bool) (size? : Option Binary) : String :=
  (if negative then "-" else "") ++
    match size? with
    | none => "inf"
    | some size => size.sizeText

end Binary

end Injection
