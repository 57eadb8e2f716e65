import Lox.Token
import Lox.Number.Text

/-!
# Pieces of a source text

A source text is cut into *pieces*: tokens, the blanks and comments between them, and what can
start no token.  `munch` finds the first piece of a text, always the longest one that starts
there, and `pieces` repeats that to the end.

The text of a piece is what was cut off, so no character is lost or read twice.  A piece records
how many characters follow its first one, which is also why the cutting comes to an end.
-/

namespace Lox

inductive Reading where
  /-- A space, tab, carriage return or newline. -/
  | blank
  /-- Two slashes and the rest of the line. -/
  | comment
  | token (kind : Kind)
  /-- A character that starts no piece. -/
  | unexpected (c : Char)
  /-- A quote with no quote after it. -/
  | unterminated
deriving DecidableEq, Repr

structure Piece where
  reading : Reading
  text : List Char
deriving DecidableEq, Repr

/-- Does the character only separate tokens? -/
def isBlank (c : Char) : Bool := c == ' ' || c == '\t' || c == '\r' || c == '\n'

def isNameStart (c : Char) : Bool := c.isAlpha || c == '_'

def isNameChar (c : Char) : Bool := c.isAlphanum || c == '_'

/-- The symbol that starts with `c`, when `next` is the character after it.  An equals sign joins
the operator before it. -/
def symbol? (c : Char) (next : Option Char) : Option Symbol :=
  match c with
  | '(' => some .leftParen
  | ')' => some .rightParen
  | '{' => some .leftBrace
  | '}' => some .rightBrace
  | ',' => some .comma
  | '.' => some .dot
  | '-' => some .minus
  | '+' => some .plus
  | ';' => some .semicolon
  | '/' => some .slash
  | '*' => some .star
  | '!' => some (if next = some '=' then .bangEqual else .bang)
  | '=' => some (if next = some '=' then .equalEqual else .equal)
  | '>' => some (if next = some '=' then .greaterEqual else .greater)
  | '<' => some (if next = some '=' then .lessEqual else .less)
  | _ => none

/-- The fraction digits at the start of a text: those after a point, if there are any. -/
def fractionDigits : List Char → List Char
  | '.' :: cs => cs.takeWhile Char.isDigit
  | _ => []

/-- The length of a fraction with the given digits; the point belongs to a fraction that has any. -/
def fractionLength (digits : List Char) : Nat :=
  if digits.isEmpty then 0 else digits.length + 1

/-- The first piece of the text `c :: cs`: what it is, and how many characters of `cs` it has. -/
def munch (c : Char) (cs : List Char) : Reading × Nat :=
  if isBlank c then (.blank, 0)
  else if c = '/' ∧ cs.head? = some '/' then (.comment, (cs.takeWhile (· ≠ '\n')).length)
  else if c = '"' then
    let contents := cs.takeWhile (· ≠ '"')
    if contents.length = cs.length then (.unterminated, cs.length)
    else (.token (.string (String.ofList contents)), contents.length + 1)
  else if c.isDigit then
    let whole := cs.takeWhile Char.isDigit
    let fraction := fractionDigits (cs.drop whole.length)
    (.token (.number (Number.ofDigits (c :: whole) fraction)),
      whole.length + fractionLength fraction)
  else if isNameStart c then
    let others := cs.takeWhile isNameChar
    let kind := match Keyword.ofSpelling? (String.ofList (c :: others)) with
      | some word => Kind.keyword word
      | none => .identifier
    (.token kind, others.length)
  else
    match symbol? c cs.head? with
    | some mark => (.token (.symbol mark), mark.spelling.length - 1)
    | none => (.unexpected c, 0)

/-- The pieces of a text, after those already cut off. -/
def piecesOnto (before : Array Piece) : List Char → Array Piece
  | [] => before
  | c :: cs =>
    let (reading, extent) := munch c cs
    piecesOnto (before.push ⟨reading, c :: cs.take extent⟩) (cs.drop extent)
termination_by cs => cs.length
decreasing_by simp only [List.length_drop, List.length_cons]; omega

def pieces (text : List Char) : List Piece := (piecesOnto #[] text).toList

theorem toList_piecesOnto (before : Array Piece) (text : List Char) :
    (piecesOnto before text).toList = before.toList ++ pieces text := by
  match text with
  | [] => simp [pieces, piecesOnto]
  | c :: cs =>
    let piece : Piece := ⟨(munch c cs).1, c :: cs.take (munch c cs).2⟩
    have onto := toList_piecesOnto (before.push piece) (cs.drop (munch c cs).2)
    have alone := toList_piecesOnto (#[].push piece) (cs.drop (munch c cs).2)
    rw [pieces, piecesOnto, piecesOnto, onto, alone]
    simp
termination_by text.length
decreasing_by all_goals simp only [List.length_drop, List.length_cons]; omega

@[simp] theorem pieces_nil : pieces [] = [] := by simp [pieces, piecesOnto]

theorem pieces_cons (c : Char) (cs : List Char) :
    pieces (c :: cs) =
      ⟨(munch c cs).1, c :: cs.take (munch c cs).2⟩ :: pieces (cs.drop (munch c cs).2) := by
  rw [pieces, piecesOnto, toList_piecesOnto]
  simp

end Lox
