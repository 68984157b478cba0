import Injection.Decimal.Shortest
import Injection.Value

/-!
# Numbers in JSON

A number without fraction and exponent is an integer as long as it fits 64 bits. Every other number
stands for a binary64 number, which is found step by step: of its digits as many are taken as 64
bits can hold, and the place of the point is counted from the last digit taken.

## Main definitions

* `Json.takeDigits` — the digits that are taken.
* `Json.number` — reads a number.
-/

namespace Injection.Json

/-- The number written by decimal digits. -/
def digitsValue (digits : List Char) : Nat :=
  digits.foldl (fun done c => 10 * done + (c.toNat - '0'.toNat)) 0

/-- The number that follows an optional sign, with that sign. -/
def signedDigits? : List Char → Option Int
  | '-' :: digits => if digits.isEmpty then none else some (-(digitsValue digits : Int))
  | '+' :: digits => if digits.isEmpty then none else some (digitsValue digits)
  | digits => if digits.isEmpty then none else some (digitsValue digits)

/-- Appends digits to a number as long as 64 bits hold the result, and gives back the digits that
are left. -/
def takeDigits (size : Nat) : List Char → Nat × List Char
  | [] => (size, [])
  | c :: rest =>
    let longer := 10 * size + (c.toNat - '0'.toNat)
    if longer < UInt64.size then takeDigits longer rest else (size, c :: rest)

/-- The decimal with the digits that are taken of a whole part and of a fraction. A digit of the
whole part that is left moves the point. -/
def decimalOf (negative : Bool) (whole fraction : List Char) (exponent : Int) : Decimal :=
  let (size, unreadWhole) := takeDigits 0 whole
  let (size, unreadFraction) := takeDigits size fraction
  let places := fraction.length - unreadFraction.length
  ⟨negative, size, exponent + unreadWhole.length - places⟩

/-- The binary64 number of a decimal, unless it is out of range. -/
def realOf? (d : Decimal) : Option Value :=
  d.stepwise?.map fun size => .real (Binary.shown d.negative (some size))

/-- Whether an integer of a given sign and size fits 64 bits; zero has no sign. -/
def fits (negative : Bool) (size : Nat) : Bool :=
  if negative then 0 < size && 2 * size ≤ UInt64.size else size < UInt64.size

def number (text : List Char) : Option (Value × List Char) := do
  let negative := text.head? == some '-'
  let text := if negative then text.tail else text
  let whole := text.takeWhile Char.isDigit
  let rest := text.dropWhile Char.isDigit
  if whole.isEmpty || (whole.length > 1 && whole.head? == some '0') then none
  let (fraction, rest) ←
    match rest with
    | '.' :: rest =>
      let fraction := rest.takeWhile Char.isDigit
      if fraction.isEmpty then none else pure (some fraction, rest.dropWhile Char.isDigit)
    | _ => pure (none, rest)
  let (exponent, rest) ←
    match rest with
    | c :: rest' =>
      if c == 'e' || c == 'E' then
        let sign := rest'.takeWhile (fun c => c == '+' || c == '-')
        let rest' := rest'.drop sign.length
        let digits := rest'.takeWhile Char.isDigit
        if sign.length > 1 then none
        else do
          let exponent ← signedDigits? (sign ++ digits)
          pure (some exponent, rest'.dropWhile Char.isDigit)
      else pure (none, rest)
    | [] => pure (none, rest)
  let size := digitsValue whole
  if fraction.isNone && exponent.isNone && fits negative size then
    return (.integer (if negative then -(size : Int) else size), rest)
  else
    return (← realOf? (decimalOf negative whole (fraction.getD []) (exponent.getD 0)), rest)

end Injection.Json
