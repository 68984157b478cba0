import Injection.Text.Shapeless

/-!
# Quoted texts

A message shows a text between double quotes, so that every character of it can be told apart:
a quote and a backslash are escaped, common control characters have a short escape, and a
character without a shape of its own is given by its code point.

## Main definitions

* `Text.quoted` — the text in quotes.
* `Text.hexDigits` — a number in lower-case hexadecimal, without leading zeros.
-/

namespace Injection.Text

/-- A number in lower-case hexadecimal digits, without leading zeros. -/
def hexDigits (n : Nat) : String := String.ofList (Nat.toDigits 16 n)

/-- A character as it stands in a quoted text. -/
def quotedChar (c : Char) : String :=
  match c with
  | '\x00' => "\\0"
  | '\t' => "\\t"
  | '\n' => "\\n"
  | '\r' => "\\r"
  | '\\' => "\\\\"
  | '"' => "\\\""
  | c =>
    if c < ' ' || isShapeless c then "\\u\x7b" ++ hexDigits c.toNat ++ "\x7d"
    else c.toString

/-- A text between double quotes, in which every character can be told apart. -/
def quoted (text : String) : String :=
  "\"" ++ String.join (text.toList.map quotedChar) ++ "\""

end Injection.Text
