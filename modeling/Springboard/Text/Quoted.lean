import Springboard.Text.Printable

/-!
# Quoted texts

A quoted text stands between apostrophes, or between quotation marks if it has an apostrophe
and no quotation mark. The mark in use, the backslash and everything that is not printable are
written as escapes.
-/

namespace Springboard.Text

/-- The character usually put around a quoted text. -/
def apostrophe : Char := Char.ofNat 0x27

/-- The character put around a text that holds apostrophes. -/
def quotationMark : Char := Char.ofNat 0x22

/-- The lower-case hexadecimal digits of a number, filled up with zeros. -/
def hexDigits (width n : Nat) : List Char :=
  let digits := Nat.toDigits 16 n
  List.replicate (width - digits.length) '0' ++ digits

/-- The escape of a character by its code point. -/
def escapeCode (c : Char) : List Char :=
  if c.toNat < 0x100 then '\\' :: 'x' :: hexDigits 2 c.toNat
  else if c.toNat < 0x10000 then '\\' :: 'u' :: hexDigits 4 c.toNat
  else '\\' :: 'U' :: hexDigits 8 c.toNat

/-- A character inside a text that is quoted by the given mark. -/
def escapeChar (mark c : Char) : List Char :=
  if c == mark || c == '\\' then ['\\', c]
  else if c == '\n' then ['\\', 'n']
  else if c == '\r' then ['\\', 'r']
  else if c == '\t' then ['\\', 't']
  else if isPrintable c then [c]
  else escapeCode c

/-- The mark a text is quoted by. -/
def markFor (cs : List Char) : Char :=
  if cs.contains apostrophe && !cs.contains quotationMark then quotationMark else apostrophe

/-- The quoted form of a text. -/
def quoted (text : String) : String :=
  let cs := text.toList
  let mark := markFor cs
  String.ofList (mark :: cs.flatMap (escapeChar mark) ++ [mark])

end Springboard.Text
