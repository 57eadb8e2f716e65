import Lox.Token.Piece

/-!
# Scanning

`scan` reads a source text as tokens.  Each piece of the text that is a token yields it, each
piece that can be none yields an error, and one end-of-file token closes the list; errors never
stop the scan.

Lines are counted from one.  A token is on the line of its last character.  A string that is never
closed is reported on the line of its opening quote.
-/

namespace Lox

inductive LexicalError where
  | unexpectedCharacter (c : Char) (line : Nat)
  | unterminatedString (line : Nat)
deriving DecidableEq, Repr

def LexicalError.line : LexicalError → Nat
  | .unexpectedCharacter _ line => line
  | .unterminatedString line => line

def LexicalError.message : LexicalError → String
  | .unexpectedCharacter c _ => "Unexpected character: " ++ String.singleton c
  | .unterminatedString _ => "Unterminated string."

abbrev Item := Except LexicalError Token

/-- The result that a piece yields when it starts on line `first` and ends on line `last`. -/
def Piece.item? (piece : Piece) (first last : Nat) : Option Item :=
  match piece.reading with
  | .blank => none
  | .comment => none
  | .token kind => some (.ok ⟨kind, String.ofList piece.text, last⟩)
  | .unexpected c => some (.error (.unexpectedCharacter c first))
  | .unterminated => some (.error (.unterminatedString first))

def Piece.newlines (piece : Piece) : Nat := piece.text.count '\n'

/-- A scan under way: the current line and the results so far. -/
structure Scan where
  line : Nat
  items : Array Item

def Scan.add (s : Scan) (piece : Piece) : Scan :=
  let last := s.line + piece.newlines
  match piece.item? s.line last with
  | some item => ⟨last, s.items.push item⟩
  | none => ⟨last, s.items⟩

/-- The tokens and errors of a source text, in order, closed by an end-of-file token. -/
def scan (source : String) : List Item :=
  let s := (pieces source.toList).foldl Scan.add ⟨1, #[]⟩
  (s.items.push (.ok ⟨.eof, "", s.line⟩)).toList

def tokensOf (items : List Item) : List Token := items.filterMap Except.toOption

def lexicalErrorsOf (items : List Item) : List LexicalError :=
  items.filterMap fun
    | .ok _ => none
    | .error e => some e

@[simp] theorem tokensOf_append (xs ys : List Item) :
    tokensOf (xs ++ ys) = tokensOf xs ++ tokensOf ys := List.filterMap_append

@[simp] theorem lexicalErrorsOf_append (xs ys : List Item) :
    lexicalErrorsOf (xs ++ ys) = lexicalErrorsOf xs ++ lexicalErrorsOf ys := List.filterMap_append

end Lox
