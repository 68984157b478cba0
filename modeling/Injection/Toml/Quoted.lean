import Injection.Json.Parser

/-!
# Quoted texts in TOML

Basic texts stand between double quotes and have escapes; literal texts stand between single
quotes and have none. Three quotes open and close a text that may go over several lines. Control
characters other than the tab may not stand in any of them.

## Main definitions

* `Toml.basicBody`, `Toml.literalBody` — the rest of a text on one line.
* `Toml.longBasicBody`, `Toml.longLiteralBody` — the rest of a text on several lines.
* `Toml.quoted` — a quoted text of any form.
-/

namespace Injection.Toml

/-- Whether a character may stand on a line, in a text or a comment. -/
def isLineChar (c : Char) : Bool := c == '\t' || (' ' ≤ c && c != '\x7f')

/-- Whether a character is a blank within a line. -/
def isSpace (c : Char) : Bool := c == ' ' || c == '\t'

/-- The text behind the end of a line, if it starts with one. -/
def newline? : List Char → Option (List Char)
  | '\n' :: rest => some rest
  | '\r' :: '\n' :: rest => some rest
  | _ => none

/-- The character with a code point in hexadecimal digits. -/
def codePoint? (digits : List Char) : Option Char := do
  let code ← Json.hexNumber? digits
  if code < 0xd800 || (0xe000 ≤ code && code < 0x110000) then some (Char.ofNat code) else none

/-- The character that a one-letter escape stands for. -/
def escaped? : Char → Option Char
  | 'b' => some '\x08'
  | 't' => some '\t'
  | 'n' => some '\n'
  | 'f' => some '\x0c'
  | 'r' => some '\r'
  | '"' => some '"'
  | '\\' => some '\\'
  | _ => none

/-! ## On one line -/

/-- The rest of a basic text after the characters `done`, the last of them first. -/
def basicBody (done : List Char) : List Char → Option (String × List Char)
  | '"' :: rest => some (String.ofList done.reverse, rest)
  | '\\' :: 'u' :: a :: b :: c :: d :: rest =>
    match codePoint? [a, b, c, d] with
    | some char => basicBody (char :: done) rest
    | none => none
  | '\\' :: 'U' :: a :: b :: c :: d :: e :: f :: g :: h :: rest =>
    match codePoint? [a, b, c, d, e, f, g, h] with
    | some char => basicBody (char :: done) rest
    | none => none
  | '\\' :: c :: rest =>
    match escaped? c with
    | some char => basicBody (char :: done) rest
    | none => none
  | c :: rest => if isLineChar c && c != '\\' then basicBody (c :: done) rest else none
  | [] => none

/-- The rest of a literal text. -/
def literalBody (done : List Char) : List Char → Option (String × List Char)
  | '\'' :: rest => some (String.ofList done.reverse, rest)
  | c :: rest => if isLineChar c then literalBody (c :: done) rest else none
  | [] => none

/-! ## On several lines -/

/-- Up to two quotes that belong to a text although they stand next to its closing quotes. -/
def innerQuotes (quote : Char) : List Char → List Char × List Char
  | a :: b :: rest =>
    if a == quote && b == quote then ([quote, quote], rest)
    else if a == quote then ([quote], b :: rest)
    else ([], a :: b :: rest)
  | [a] => if a == quote then ([quote], []) else ([], [a])
  | [] => ([], [])

/-- The end of a text, given what follows its three closing quotes. -/
def closeLong (quote : Char) (done rest : List Char) : String × List Char :=
  let (inner, rest) := innerQuotes quote rest
  (String.ofList (inner ++ done).reverse, rest)

/-- Whether nothing but blanks stands before the end of the line. -/
def endsLine (text : List Char) : Bool := (newline? (text.dropWhile isSpace)).isSome

/-- The rest of a basic text on several lines. A backslash at the end of a line joins the line with
what follows; while `joining`, blanks and ends of lines are passed over. -/
def longBasicBody (joining : Bool) (done : List Char) : List Char → Option (String × List Char)
  | '"' :: '"' :: '"' :: rest => some (closeLong '"' done rest)
  | '\r' :: '\n' :: rest => longBasicBody joining (if joining then done else '\n' :: done) rest
  | '\n' :: rest => longBasicBody joining (if joining then done else '\n' :: done) rest
  | '\\' :: 'u' :: a :: b :: c :: d :: rest =>
    match codePoint? [a, b, c, d] with
    | some char => longBasicBody false (char :: done) rest
    | none => none
  | '\\' :: 'U' :: a :: b :: c :: d :: e :: f :: g :: h :: rest =>
    match codePoint? [a, b, c, d, e, f, g, h] with
    | some char => longBasicBody false (char :: done) rest
    | none => none
  | '\\' :: c :: rest =>
    if endsLine (c :: rest) then longBasicBody true done (c :: rest)
    else
      match escaped? c with
      | some char => longBasicBody false (char :: done) rest
      | none => none
  | c :: rest =>
    if joining && isSpace c then longBasicBody true done rest
    else if isLineChar c && c != '\\' then longBasicBody false (c :: done) rest
    else none
  | [] => none

/-- The rest of a literal text on several lines. -/
def longLiteralBody (done : List Char) : List Char → Option (String × List Char)
  | '\'' :: '\'' :: '\'' :: rest => some (closeLong '\'' done rest)
  | '\r' :: '\n' :: rest => longLiteralBody ('\n' :: done) rest
  | c :: rest => if isLineChar c || c == '\n' then longLiteralBody (c :: done) rest else none
  | [] => none

/-- A text without the end of a line at its start. -/
def dropNewline (text : List Char) : List Char := (newline? text).getD text

/-- Reads a quoted text of any form. -/
def quoted : List Char → Option (String × List Char)
  | '"' :: '"' :: '"' :: rest => longBasicBody false [] (dropNewline rest)
  | '"' :: rest => basicBody [] rest
  | '\'' :: '\'' :: '\'' :: rest => longLiteralBody [] (dropNewline rest)
  | '\'' :: rest => literalBody [] rest
  | _ => none

end Injection.Toml
