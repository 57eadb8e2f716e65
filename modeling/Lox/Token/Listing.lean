import Lox.Token
import Lox.Number.Text
import Lox.Text.Json

/-!
# Token listings

The two texts in which a token is listed: `Token.listing`, one line of words, and `Token.json`, a
JSON document.
-/

namespace Lox

/-- A token as a line: its name, its lexeme, and the value of a literal or `null`. -/
def Token.listing (t : Token) : String :=
  let payload := match t.kind with
    | .string contents => contents
    | .number value => Number.inToken value
    | _ => "null"
  t.terminal.name ++ " " ++ t.lexeme ++ " " ++ payload

/-- The kind of a token in JSON: its name, in an object with the value if it is a literal. -/
def Kind.json (kind : Kind) : String :=
  let name := Text.jsonString kind.terminal.name
  match kind with
  | .string contents => "\x7b" ++ name ++ ":" ++ Text.jsonString contents ++ "\x7d"
  | .number value => "\x7b" ++ name ++ ":" ++ Number.json value ++ "\x7d"
  | _ => name

def Token.json (t : Token) : String :=
  "\x7b\"token_type\":" ++ t.kind.json ++ ",\"lexeme\":" ++ Text.jsonString t.lexeme ++
    ",\"line\":" ++ toString t.line ++ "\x7d"

end Lox
