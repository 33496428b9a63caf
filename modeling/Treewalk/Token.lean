import Treewalk.Decimal.Layout

/-!
# Tokens

**A token is a kind, the piece of source it was cut from, and the line on which that piece
ends.**  String and number tokens carry the constant they denote.  Two kinds have the same form
when they differ in such a constant at most; tokens are compared by form, lexeme and line.
-/

namespace Treewalk

/-! ### Kinds -/

/-- The kinds of tokens: punctuation and operators, names and constants, the reserved words,
    and the end of the source. -/
inductive TokenKind where
  | leftParen
  | rightParen
  | leftBrace
  | rightBrace
  | comma
  | dot
  | minus
  | plus
  | semicolon
  | slash
  | star
  | bang
  | bangEqual
  | equal
  | equalEqual
  | greater
  | greaterEqual
  | less
  | lessEqual
  | identifier
  | string (value : String)
  | number (value : Float)
  | kwAnd
  | kwClass
  | kwElse
  | kwFalse
  | kwFun
  | kwFor
  | kwIf
  | kwNil
  | kwOr
  | kwPrint
  | kwReturn
  | kwSuper
  | kwThis
  | kwTrue
  | kwVar
  | kwWhile
  | eof
deriving Inhabited

namespace TokenKind

/-- The name of a kind in listings. -/
def name : TokenKind → String
  | leftParen => "LEFT_PAREN"
  | rightParen => "RIGHT_PAREN"
  | leftBrace => "LEFT_BRACE"
  | rightBrace => "RIGHT_BRACE"
  | comma => "COMMA"
  | dot => "DOT"
  | minus => "MINUS"
  | plus => "PLUS"
  | semicolon => "SEMICOLON"
  | slash => "SLASH"
  | star => "STAR"
  | bang => "BANG"
  | bangEqual => "BANG_EQUAL"
  | equal => "EQUAL"
  | equalEqual => "EQUAL_EQUAL"
  | greater => "GREATER"
  | greaterEqual => "GREATER_EQUAL"
  | less => "LESS"
  | lessEqual => "LESS_EQUAL"
  | identifier => "IDENTIFIER"
  | string _ => "STRING"
  | number _ => "NUMBER"
  | kwAnd => "AND"
  | kwClass => "CLASS"
  | kwElse => "ELSE"
  | kwFalse => "FALSE"
  | kwFun => "FUN"
  | kwFor => "FOR"
  | kwIf => "IF"
  | kwNil => "NIL"
  | kwOr => "OR"
  | kwPrint => "PRINT"
  | kwReturn => "RETURN"
  | kwSuper => "SUPER"
  | kwThis => "THIS"
  | kwTrue => "TRUE"
  | kwVar => "VAR"
  | kwWhile => "WHILE"
  | eof => "EOF"

/-- The text of the constant that a token carries, in listings. -/
def literalText : TokenKind → String
  | string value => value
  | number value => Decimal.tokenText value
  | _ => "null"

/-- Are two kinds of one form, whatever constants they carry? -/
def sameForm (a b : TokenKind) : Bool :=
  a.ctorIdx == b.ctorIdx

/-- The kinds that carry no constant. -/
def bare : List TokenKind :=
  [leftParen, rightParen, leftBrace, rightBrace, comma, dot, minus, plus, semicolon, slash, star,
   bang, bangEqual, equal, equalEqual, greater, greaterEqual, less, lessEqual, identifier, kwAnd,
   kwClass, kwElse, kwFalse, kwFun, kwFor, kwIf, kwNil, kwOr, kwPrint, kwReturn, kwSuper, kwThis,
   kwTrue, kwVar, kwWhile, eof]

/-- The reserved words with their kinds. -/
def reserved : List (String × TokenKind) :=
  [("and", kwAnd), ("class", kwClass), ("else", kwElse), ("false", kwFalse), ("fun", kwFun),
   ("for", kwFor), ("if", kwIf), ("nil", kwNil), ("or", kwOr), ("print", kwPrint),
   ("return", kwReturn), ("super", kwSuper), ("this", kwThis), ("true", kwTrue), ("var", kwVar),
   ("while", kwWhile)]

/-- The kind of a word: its own if it is reserved, otherwise that of names. -/
def ofWord (word : String) : TokenKind :=
  (reserved.lookup word).getD identifier

end TokenKind

/-! ### Tokens -/

/-- A token of the source. -/
structure Token where
  kind : TokenKind
  lexeme : String
  /-- The line on which the lexeme ends, counted from one. -/
  line : Nat
deriving Inhabited

namespace Token

/-- The token in a listing: kind, lexeme and constant. -/
def listing (t : Token) : String :=
  t.kind.name ++ " " ++ t.lexeme ++ " " ++ t.kind.literalText

/-- Tokens are compared by form, lexeme and line; the constants do not take part. -/
instance : BEq Token where
  beq a b := a.kind.sameForm b.kind && a.lexeme == b.lexeme && a.line == b.line

/-- Is this the end of the source? -/
def isEnd (t : Token) : Bool :=
  t.kind.sameForm .eof

end Token

end Treewalk
