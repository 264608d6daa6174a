import PowerTower.Text.Unprintable
import PowerTower.Text.Extending
import PowerTower.Text.Ignorable

/-!
# Quoted characters and texts

A character or a text as it is shown in a message: in quotes, with escapes for the quote itself, the backslash,
the zero character, tab, line feed and carriage return, and with the code point in braces for characters that
cannot be printed, that are not drawn or that extend the one before.
-/

namespace PowerTower.Text

/-- A number in hexadecimal digits. -/
def hexDigits (n : Nat) : List Char := Nat.toDigits 16 n

/-- The code point of a character in braces. -/
def codePoint (ch : Char) : List Char := ['\\', 'u', '\x7b'] ++ hexDigits ch.toNat ++ ['\x7d']

/-- Whether a character is shown by its code point. -/
def isHidden (ch : Char) : Bool := extending.mem ch || unprintable.mem ch || ignorable.mem ch

/-- A character between two of the given quotes. -/
def escape (quote ch : Char) : List Char :=
  if ch = '\x00' then ['\\', '0']
  else if ch = '\t' then ['\\', 't']
  else if ch = '\r' then ['\\', 'r']
  else if ch = '\n' then ['\\', 'n']
  else if ch = quote ∨ ch = '\\' then ['\\', ch]
  else if isHidden ch then codePoint ch
  else [ch]

/-- A character in single quotes. -/
def quoteChar (ch : Char) : String := String.ofList ('\'' :: escape '\'' ch ++ ['\''])

/-- A text in double quotes. -/
def quoteText (text : String) : String :=
  String.ofList ('"' :: text.toList.flatMap (escape '"') ++ ['"'])

end PowerTower.Text
