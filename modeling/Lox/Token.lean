/-!
# Tokens

The words of the language.  A `Kind` tells what a token is and carries the value of a literal; a
`Token` adds the text it was written as and the line it ends on.  Grammar rules look at a token's
`Terminal` only, which is its kind without the value of a literal.
-/

namespace Lox

/-- The punctuation marks and operators. -/
inductive Symbol where
  | leftParen | rightParen | leftBrace | rightBrace
  | comma | dot | minus | plus | semicolon | slash | star
  | bang | bangEqual | equal | equalEqual
  | greater | greaterEqual | less | lessEqual
deriving DecidableEq, Repr

inductive Keyword where
  | and | «class» | «else» | «false» | «for» | «fun» | «if» | nil | or
  | print | «return» | super | this | «true» | var | «while»
deriving DecidableEq, Repr

/-- A token as the grammar sees it. -/
inductive Terminal where
  | symbol (mark : Symbol)
  | keyword (word : Keyword)
  | identifier
  | string
  | number
  | eof
deriving DecidableEq, Repr

/-- What a token is, with the value of a literal. -/
inductive Kind where
  | symbol (mark : Symbol)
  | keyword (word : Keyword)
  | identifier
  | string (contents : String)
  | number (value : Float)
  | eof
deriving DecidableEq, Repr

/-- A token: what it is, how it was written, and the line of its last character. -/
structure Token where
  kind : Kind
  lexeme : String
  line : Nat
deriving DecidableEq, Repr

/-- The kind without the value of a literal. -/
def Kind.terminal : Kind → Terminal
  | .symbol mark => .symbol mark
  | .keyword word => .keyword word
  | .identifier => .identifier
  | .string _ => .string
  | .number _ => .number
  | .eof => .eof

def Token.terminal (t : Token) : Terminal := t.kind.terminal

def Symbol.spelling : Symbol → String
  | .leftParen => "("
  | .rightParen => ")"
  | .leftBrace => "\x7b"
  | .rightBrace => "\x7d"
  | .comma => ","
  | .dot => "."
  | .minus => "-"
  | .plus => "+"
  | .semicolon => ";"
  | .slash => "/"
  | .star => "*"
  | .bang => "!"
  | .bangEqual => "!="
  | .equal => "="
  | .equalEqual => "=="
  | .greater => ">"
  | .greaterEqual => ">="
  | .less => "<"
  | .lessEqual => "<="

def Symbol.name : Symbol → String
  | .leftParen => "LEFT_PAREN"
  | .rightParen => "RIGHT_PAREN"
  | .leftBrace => "LEFT_BRACE"
  | .rightBrace => "RIGHT_BRACE"
  | .comma => "COMMA"
  | .dot => "DOT"
  | .minus => "MINUS"
  | .plus => "PLUS"
  | .semicolon => "SEMICOLON"
  | .slash => "SLASH"
  | .star => "STAR"
  | .bang => "BANG"
  | .bangEqual => "BANG_EQUAL"
  | .equal => "EQUAL"
  | .equalEqual => "EQUAL_EQUAL"
  | .greater => "GREATER"
  | .greaterEqual => "GREATER_EQUAL"
  | .less => "LESS"
  | .lessEqual => "LESS_EQUAL"

def Keyword.spelling : Keyword → String
  | .and => "and"
  | .class => "class"
  | .else => "else"
  | .false => "false"
  | .for => "for"
  | .fun => "fun"
  | .if => "if"
  | .nil => "nil"
  | .or => "or"
  | .print => "print"
  | .return => "return"
  | .super => "super"
  | .this => "this"
  | .true => "true"
  | .var => "var"
  | .while => "while"

def Keyword.name : Keyword → String
  | .and => "AND"
  | .class => "CLASS"
  | .else => "ELSE"
  | .false => "FALSE"
  | .for => "FOR"
  | .fun => "FUN"
  | .if => "IF"
  | .nil => "NIL"
  | .or => "OR"
  | .print => "PRINT"
  | .return => "RETURN"
  | .super => "SUPER"
  | .this => "THIS"
  | .true => "TRUE"
  | .var => "VAR"
  | .while => "WHILE"

def Keyword.all : List Keyword :=
  [.and, .class, .else, .false, .for, .fun, .if, .nil, .or, .print, .return, .super, .this, .true,
    .var, .while]

def Keyword.ofSpelling? (text : String) : Option Keyword :=
  Keyword.all.find? fun word => word.spelling == text

def Terminal.name : Terminal → String
  | .symbol mark => mark.name
  | .keyword word => word.name
  | .identifier => "IDENTIFIER"
  | .string => "STRING"
  | .number => "NUMBER"
  | .eof => "EOF"

end Lox
