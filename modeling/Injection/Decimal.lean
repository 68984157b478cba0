import Injection.Binary

/-!
# Decimal numbers

A number written with a fraction or an exponent is held exactly, as a whole number of powers of
ten. There are two ways to take it for a binary64 number: the exact one gives the number nearest to
it; the stepwise one takes the digits first and a power of ten then, and rounds after each step, so
that it can miss the nearest number by a little.

## Main definitions

* `Decimal` — sign, digits and power of ten.
* `Decimal.nearest?` — the size nearest to a decimal.
* `Decimal.stepwise?` — the size that is found step by step.
-/

namespace Injection

/-- The number `digits * 10 ^ exponent`, with a sign. -/
structure Decimal where
  negative : Bool
  digits : Nat
  exponent : Int
deriving Inhabited

namespace Decimal

/-! ## The nearest size -/

/-- The decimal exponents beyond which a size is surely out of range. -/
def farAway : Int := 400

/-- Where the leading digit of a decimal stands: the size is below `10 ^ magnitude`. -/
def magnitude (d : Decimal) : Int := (Nat.toDigits 10 d.digits).length + d.exponent

/-- The size nearest to a decimal, unless that is beyond the range of binary64. -/
def nearest? (d : Decimal) : Option Binary :=
  if d.digits = 0 || d.magnitude < -farAway then some ⟨0, 0⟩
  else if d.magnitude > farAway then none
  else if d.exponent ≥ 0 then Binary.ofRatio? (d.digits * Nat.pow 10 d.exponent.toNat) 1
  else Binary.ofRatio? d.digits (Nat.pow 10 (-d.exponent).toNat)

/-- Whether a decimal is beyond the range of binary64. -/
def isHuge (d : Decimal) : Bool := d.nearest?.isNone

/-! ## Step by step -/

/-- The places by which the point moves in one step at most; the power of ten of one place more is
out of range. -/
def longestStep : Nat := 308

/-- The size nearest to a power of ten. -/
def power? (places : Nat) : Option Binary := Binary.ofRatio? (Nat.pow 10 places) 1

/-- A size with its point moved to the right, in one step. -/
def raised? (size : Binary) (places : Nat) : Option Binary :=
  if size.isZero then some size
  else if places > longestStep then none
  else (power? places).bind size.times?

/-- A size divided by another one a number of times, or until nothing is left of it. -/
def overAgain? (divisor : Binary) : Nat → Binary → Option Binary
  | 0, size => some size
  | times + 1, size =>
    if size.isZero then some size else (size.over? divisor).bind (overAgain? divisor times)

/-- A size with its point moved to the left, in steps that are as long as possible but the last. -/
def lowered? (size : Binary) (places : Nat) : Option Binary := do
  let longSteps := (places - 1) / longestStep
  let size ← overAgain? (← power? longestStep) longSteps size
  size.over? (← power? (places - longSteps * longestStep))

/-- The size of a decimal: its digits, rounded, and then its power of ten. There is none if the
size becomes too large on the way. -/
def stepwise? (d : Decimal) : Option Binary := do
  let size ← Binary.ofRatio? d.digits 1
  if d.exponent ≥ 0 then raised? size d.exponent.toNat else lowered? size (-d.exponent).toNat

end Decimal

end Injection
