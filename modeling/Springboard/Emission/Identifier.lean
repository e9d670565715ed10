import Springboard.Text.Identifier
import Springboard.Text.Quoted

/-!
# Identifiers of the emitted text

Names of the language may hold characters that a Python identifier may not. Common ones are
spelled out, the others are written by their code points, and a reserved word gets a low line
behind it.
-/

namespace Springboard

/-- The words that Python reserves. -/
def reservedWords : List String :=
  ["False", "None", "True", "and", "as", "assert", "async", "await", "break", "class", "continue",
   "def", "del", "elif", "else", "except", "finally", "for", "from", "global", "if", "import",
   "in", "is", "lambda", "nonlocal", "not", "or", "pass", "raise", "return", "try", "while",
   "with", "yield"]

/-- The spelling of a character of a name. -/
def spelling (c : Char) : List Char :=
  match c with
  | '-' => ['_']
  | '?' => ['_', 'p']
  | '!' => ['_', 'b']
  | '*' => ['_', 's', 't', 'a', 'r']
  | '+' => ['_', 'p', 'l', 'u', 's']
  | '/' => ['_', 's', 'l', 'a', 's', 'h']
  | '<' => ['_', 'l', 't']
  | '>' => ['_', 'g', 't']
  | '=' => ['_', 'e', 'q']
  | '.' => ['_', 'd', 'o', 't']
  | c => [c]

/-- The spelling of a character that has no place in an identifier, by its code point. -/
def codeSpelling (c : Char) : List Char :=
  if Text.isContinue c then [c] else '_' :: 'x' :: Text.hexDigits 2 c.toNat

/-- Makes an identifier of some characters. -/
def legalize (cs : List Char) : List Char :=
  if Text.isIdentifier cs then cs
  else
    let cs := cs.flatMap codeSpelling
    if Text.isIdentifier cs then cs else '_' :: cs

/-- Keeps an identifier apart from the reserved words. -/
def unreserve (ident : String) : String :=
  if reservedWords.contains ident then ident ++ "_" else ident

/-- The identifier of a name. -/
def mangle (name : String) : String :=
  unreserve (String.ofList (legalize (name.toList.flatMap spelling)))

end Springboard
