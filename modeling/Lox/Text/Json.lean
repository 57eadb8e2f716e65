/-!
# Strings in JSON documents

`jsonString` writes a text as a JSON string: the quote, the backslash and the control characters
are escaped, five of these by a letter, and all other characters stand for themselves.
-/

namespace Lox.Text

def hexDigit (n : Nat) : Char := Nat.digitChar (n % 16)

def jsonChar (c : Char) : List Char :=
  if c = '"' then ['\\', '"']
  else if c = '\\' then ['\\', '\\']
  else if c = '\x08' then ['\\', 'b']
  else if c = '\x0c' then ['\\', 'f']
  else if c = '\n' then ['\\', 'n']
  else if c = '\r' then ['\\', 'r']
  else if c = '\t' then ['\\', 't']
  else if c.toNat < 0x20 then ['\\', 'u', '0', '0', hexDigit (c.toNat / 16), hexDigit c.toNat]
  else [c]

def jsonString (text : String) : String :=
  String.ofList ('"' :: text.toList.flatMap jsonChar ++ ['"'])

end Lox.Text
