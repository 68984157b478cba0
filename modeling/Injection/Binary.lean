/-!
# Binary64 numbers

The finite sizes of binary64, held exactly: a mantissa of 53 binary digits and a power of two. An
operation takes its exact result and rounds it once, to the nearest size, a tie going to the even
mantissa. A result beyond the range of binary64 is no size.

## Main definitions

* `Binary` — a size.
* `Binary.ofRatio?` — the size nearest to a quotient.
* `Binary.times?`, `Binary.over?` — a product and a quotient of two sizes.
-/

namespace Injection

/-- The size `mantissa * 2 ^ scale`. -/
structure Binary where
  mantissa : Nat
  scale : Int
deriving DecidableEq, Inhabited

namespace Binary

/-- The exponent of the least positive size. -/
def leastScale : Int := -1074

/-- The exponent of the first power of two that is out of range. -/
def rangeEnd : Nat := 1024

/-- A size as a multiple of the least positive one. -/
def units (size : Binary) : Nat := size.mantissa <<< (size.scale - leastScale).toNat

def isZero (size : Binary) : Bool := size.mantissa == 0

/-- A quotient rounded to a whole number, a half to the even neighbour. -/
def roundDiv (num den : Nat) : Nat :=
  let whole := num / den
  let twice := 2 * (num % den)
  if twice > den || (twice == den && whole % 2 == 1) then whole + 1 else whole

/-- A quotient of `2 ^ scale` times `num` and `den`, as a quotient of whole numbers. -/
def scaled (num den : Nat) (scale : Int) : Nat × Nat :=
  if scale ≥ 0 then (num <<< scale.toNat, den) else (num, den <<< (-scale).toNat)

/-- A quotient as a multiple of `2 ^ scale`, rounded. -/
def countOf (num den : Nat) (scale : Int) : Nat :=
  let (num, den) := scaled num den (-scale)
  roundDiv num den

/-- The size nearest to a quotient. -/
def ofRatio? (num den : Nat) : Option Binary :=
  -- leaves 53 or 54 binary digits, but none below the least positive size
  let scale := max leastScale ((Nat.log2 num : Int) - (Nat.log2 den : Int) - 53)
  let mantissa := countOf num den scale
  let size : Binary :=
    if mantissa ≥ 1 <<< 53 then ⟨countOf num den (scale + 1), scale + 1⟩ else ⟨mantissa, scale⟩
  if size.units ≥ 1 <<< (rangeEnd - leastScale).toNat then none else some size

/-- The size nearest to the product of two sizes. -/
def times? (a b : Binary) : Option Binary :=
  let (num, den) := scaled (a.mantissa * b.mantissa) 1 (a.scale + b.scale)
  ofRatio? num den

/-- The size nearest to the quotient of two sizes. -/
def over? (a b : Binary) : Option Binary :=
  let (num, den) := scaled a.mantissa b.mantissa (a.scale - b.scale)
  ofRatio? num den

end Binary

end Injection
