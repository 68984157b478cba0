import Injection.Decimal.Shortest
import Injection.Json.Parser

/-!
# Numbers, dates and times in TOML

A number may have an underscore between two of its digits. Integers have 64 bits and, without a
sign, may be hexadecimal, octal or binary. A date may be followed by a time, and a time of a date
by an offset.

## Main definitions

* `Toml.integer`, `Toml.real`, `Toml.moment` — the three forms.
* `Toml.number` — reads any of them.
-/

namespace Injection.Toml

/-! ## Digits -/

/-- The digits at the start of a text, with an underscore between two of them passed over. -/
def digitRun (isDigit : Char → Bool) : List Char → List Char × List Char
  | '_' :: c :: rest =>
    if isDigit c then
      let (digits, rest) := digitRun isDigit rest
      (c :: digits, rest)
    else ([], '_' :: c :: rest)
  | c :: rest =>
    if isDigit c then
      let (digits, rest) := digitRun isDigit rest
      (c :: digits, rest)
    else ([], c :: rest)
  | [] => ([], [])

/-- A run of digits that is not empty and starts with one. -/
def digits? (isDigit : Char → Bool) (text : List Char) : Option (List Char × List Char) :=
  if (text.head?.map isDigit).getD false then some (digitRun isDigit text) else none

/-- An optional sign: whether it is a minus, and what follows it. -/
def sign : List Char → Bool × List Char
  | '-' :: rest => (true, rest)
  | '+' :: rest => (false, rest)
  | text => (false, text)

/-- Decimal digits without a needless zero at their start. -/
def wholeDigits? : List Char → Option (List Char × List Char)
  | '0' :: rest => some (['0'], rest)
  | text => digits? Char.isDigit text

/-! ## Integers -/

/-- The value of digits to a base. -/
def valueOf (base : Nat) (digits : List Char) : Nat :=
  digits.foldl (fun done c => base * done + (Json.hexValue? c).getD 0) 0

/-- Whether an integer has 64 bits. -/
def fits (n : Int) : Bool := Int64.minValue.toInt ≤ n && n ≤ Int64.maxValue.toInt

/-- Whether a character is a digit to a base. -/
def isDigitOf (base : Nat) (c : Char) : Bool :=
  match Json.hexValue? c with
  | some digit => digit < base
  | none => false

/-- An integer without sign to a base other than ten. -/
def based? (base : Nat) (text : List Char) : Option (Value × List Char) := do
  let (digits, rest) ← digits? (isDigitOf base) text
  let n : Int := valueOf base digits
  if fits n then some (.integer n, rest) else none

def integer (text : List Char) : Option (Value × List Char) :=
  match text with
  | '0' :: 'x' :: rest => based? 16 rest
  | '0' :: 'o' :: rest => based? 8 rest
  | '0' :: 'b' :: rest => based? 2 rest
  | text => do
    let (negative, rest) := sign text
    let (digits, rest) ← wholeDigits? rest
    let size : Int := valueOf 10 digits
    let n := if negative then -size else size
    if fits n then some (.integer n, rest) else none

/-! ## Numbers with a fraction or an exponent -/

/-- Reads the exponent of a number. -/
def exponent? : List Char → Option (Int × List Char)
  | c :: rest =>
    if c == 'e' || c == 'E' then do
      let (negative, rest) := sign rest
      let (digits, rest) ← digits? Char.isDigit rest
      let size : Int := valueOf 10 digits
      some (if negative then -size else size, rest)
    else none
  | [] => none

/-- The decimal number after a sign, with a fraction or an exponent. -/
def decimal? (negative : Bool) (text : List Char) : Option (Decimal × List Char) := do
  let (whole, rest) ← wholeDigits? text
  match rest with
  | '.' :: rest =>
    let (places, rest) ← digits? Char.isDigit rest
    let (exponent, rest) := (exponent? rest).getD (0, rest)
    some (⟨negative, valueOf 10 (whole ++ places), exponent - places.length⟩, rest)
  | rest =>
    let (exponent, rest) ← exponent? rest
    some (⟨negative, valueOf 10 whole, exponent⟩, rest)

/-- Reads a number with a fraction or an exponent, an infinite one, or none at all. A finite one may
not be above the range of binary64. -/
def real (text : List Char) : Option (Value × List Char) :=
  let (negative, unsigned) := sign text
  match unsigned with
  | 'i' :: 'n' :: 'f' :: rest => some (.real (if negative then "-inf" else "inf"), rest)
  | 'n' :: 'a' :: 'n' :: rest => some (.real "NaN", rest)
  | unsigned => do
    let (decimal, rest) ← decimal? negative unsigned
    if decimal.isHuge && !negative then none
    else some (.real (Binary.shown negative decimal.nearest?), rest)

/-! ## Dates and times -/

/-- Reads a number of exactly two digits within bounds. -/
def twoDigits? (low high : Nat) : List Char → Option (Nat × List Char)
  | a :: b :: rest =>
    if a.isDigit && b.isDigit then
      let n := valueOf 10 [a, b]
      if low ≤ n && n ≤ high then some (n, rest) else none
    else none
  | _ => none

def mark? (c : Char) : List Char → Option (List Char)
  | head :: rest => if head == c then some rest else none
  | [] => none

/-- Reads one of some characters. -/
def markOf? (marks : List Char) : List Char → Option (List Char)
  | head :: rest => if marks.contains head then some rest else none
  | [] => none

/-- The number of days of a month. -/
def daysOf (year month : Nat) : Nat :=
  if month = 2 then
    if year % 4 = 0 && (year % 100 ≠ 0 || year % 400 = 0) then 29 else 28
  else if month = 4 || month = 6 || month = 9 || month = 11 then 30
  else 31

/-- What follows a date. -/
def afterDate? : List Char → Option (List Char)
  | a :: b :: c :: d :: rest =>
    if [a, b, c, d].all Char.isDigit then do
      let rest ← mark? '-' rest
      let (month, rest) ← twoDigits? 1 12 rest
      let rest ← mark? '-' rest
      let (_, rest) ← twoDigits? 1 (daysOf (valueOf 10 [a, b, c, d]) month) rest
      some rest
    else none
  | _ => none

/-- What follows a time of day. -/
def afterTime? (text : List Char) : Option (List Char) := do
  let (_, rest) ← twoDigits? 0 23 text
  let rest ← mark? ':' rest
  let (_, rest) ← twoDigits? 0 59 rest
  let rest ← mark? ':' rest
  let (_, rest) ← twoDigits? 0 60 rest
  match rest with
  | '.' :: fraction =>
    if (fraction.head?.map Char.isDigit).getD false then some (fraction.dropWhile Char.isDigit)
    else some rest
  | rest => some rest

/-- What follows the offset of a time. -/
def afterOffset? (text : List Char) : Option (List Char) :=
  match markOf? ['Z', 'z'] text with
  | some rest => some rest
  | none => do
    let rest ← markOf? ['+', '-'] text
    let (_, rest) ← twoDigits? 0 23 rest
    let rest ← mark? ':' rest
    let (_, rest) ← twoDigits? 0 59 rest
    some rest

/-- What follows a date with a time, or either of them alone. -/
def afterMoment? (text : List Char) : Option (List Char) :=
  match afterDate? text with
  | none => afterTime? text
  | some rest =>
    match (markOf? ['T', 't', ' '] rest).bind afterTime? with
    | none => some rest
    | some rest => some ((afterOffset? rest).getD rest)

/-- Reads a date or a time. -/
def moment (text : List Char) : Option (Value × List Char) :=
  (afterMoment? text).map fun rest =>
    (.moment (String.ofList (text.take (text.length - rest.length))), rest)

/-- Reads a number, a date or a time. -/
def number (text : List Char) : Option (Value × List Char) :=
  (moment text).or ((real text).or (integer text))

end Injection.Toml
