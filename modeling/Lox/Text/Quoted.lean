import Lox.Text.Combining
import Lox.Text.Unprintable

/-!
# Quoted text

Text between double quotes, on one line and in visible characters, as diagnostics show it.
`quoted` escapes the quote and the backslash by a backslash, the usual control characters by a
letter, and every other character that has no visible form of its own by its code point in
hexadecimal.  A single quote stands for itself.
-/

namespace Lox.Text

/-- The escape of a code point: its hexadecimal number between braces. -/
def codePointEscape (c : Char) : List Char :=
  ['\\', 'u', '{'] ++ Nat.toDigits 16 c.toNat ++ ['}']

def quotedChar (c : Char) : List Char :=
  if c = '"' ∨ c = '\\' then ['\\', c]
  else if c = '\n' then ['\\', 'n']
  else if c = '\r' then ['\\', 'r']
  else if c = '\t' then ['\\', 't']
  else if c = '\x00' then ['\\', '0']
  else if isCombining c || isUnprintable c then codePointEscape c
  else [c]

def quoted (text : String) : String :=
  String.ofList ('"' :: text.toList.flatMap quotedChar ++ ['"'])

end Lox.Text
