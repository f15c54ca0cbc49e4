/-
`Token.lean` -- the vocabulary of the language.

A token is a kind together with the text it was read from and the place where that
text starts. Two sorts of kinds differ: a terminal has one spelling (up to the case
of letters), while constants and identifiers carry what was read. Blanks, line
feeds and comments have kinds as well, so that cutting a text into lexemes loses
nothing; no token has one of these.
-/
import MiniPascal.Number
import MiniPascal.Position

set_option autoImplicit false

namespace MiniPascal

/-! ## Kinds -/

/-- The words and marks with a fixed spelling. -/
inductive Terminal where
  | program | var | procedure | integer | real | beginBlock | endBlock | div
  | assign | plus | minus | times | slash | leftParen | rightParen
  | semicolon | dot | colon | comma
deriving DecidableEq, Repr

namespace Terminal

/-- The reserved words. -/
def words : List Terminal :=
  [program, var, procedure, integer, real, beginBlock, endBlock, div]

/-- How a terminal is written; a word also in any other letter case. -/
def spelling : Terminal → String
  | program => "PROGRAM"
  | var => "VAR"
  | procedure => "PROCEDURE"
  | integer => "INTEGER"
  | real => "REAL"
  | beginBlock => "BEGIN"
  | endBlock => "END"
  | div => "DIV"
  | assign => ":="
  | plus => "+"
  | minus => "-"
  | times => "*"
  | slash => "/"
  | leftParen => "("
  | rightParen => ")"
  | semicolon => ";"
  | dot => "."
  | colon => ":"
  | comma => ","

end Terminal

/-- What stands between tokens. -/
inductive Layout where
  | comment | lineFeed | blanks
deriving DecidableEq, Repr

/-- The kind of a lexeme, with the value of those that have one. -/
inductive Kind where
  | realConstant (value : Float)
  | integerConstant (value : Int64)
  | terminal (which : Terminal)
  | identifier (name : String)
  | layout (which : Layout)
  | endOfInput
deriving BEq

namespace Kind

instance : Inhabited Kind := ⟨.endOfInput⟩

/-- Equality up to the carried value: two constants of one type are alike, and so
are any two identifiers. -/
def alike : Kind → Kind → Bool
  | .realConstant _, .realConstant _ => true
  | .integerConstant _, .integerConstant _ => true
  | .terminal a, .terminal b => a == b
  | .identifier _, .identifier _ => true
  | .layout a, .layout b => a == b
  | .endOfInput, .endOfInput => true
  | _, _ => false

/-- How messages call a kind. -/
def text : Kind → String
  | .realConstant value => "real constant " ++ (Binary64.ofFloat value).text
  | .integerConstant value => "integer constant " ++ toString value.toInt
  | .terminal which => "'" ++ which.spelling ++ "'"
  | .identifier name => "identifier '" ++ name ++ "'"
  | .layout .comment => "comment"
  | .layout .lineFeed => "newline"
  | .layout .blanks => "whitespace"
  | .endOfInput => "end of input"

/-- Is this the end of the text? -/
def isEnd : Kind → Bool
  | .endOfInput => true
  | _ => false

end Kind

/-- The kind of a constant with this value. -/
def Number.kind : Number → Kind
  | .integer value => .integerConstant value
  | .real value => .realConstant value

/-! ## Tokens -/

/-- A kind, the text it was read from, and where that text starts. -/
structure Token where
  kind : Kind
  lexeme : String
  position : Position
deriving Inhabited

end MiniPascal
