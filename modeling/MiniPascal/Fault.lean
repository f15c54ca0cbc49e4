/-
`Fault.lean` -- everything that can be wrong with a program.

A fault is a cause, and an error is a fault at a place. The faults of each stage
form a type of their own, so that a stage can only report what it can find; `Fault`
joins them for those who run all stages. Faults carry the data of their messages
(names, kinds, what was expected) and no text: the wording is one function per type,
and the frame around it is `Error.message`.
-/
import MiniPascal.Token

set_option autoImplicit false

namespace MiniPascal

/-! ## Causes, stage by stage -/

/-- A text that cannot be cut into lexemes. -/
inductive LexicalFault where
  | unrecognizedCharacter (character : Char)
  | unclosedComment
  | integerOutOfRange (literal : String)
deriving DecidableEq, Repr

/-- What the grammar asks for at some point. -/
inductive Expectation where
  | terminal (which : Terminal)
  | identifier
  | typeName
  | expression
  | separatorOrEnd
deriving DecidableEq, Repr

/-- A sequence of tokens that is no program. -/
inductive SyntaxFault where
  | unexpectedToken (expected : Expectation) (found : Kind)
  | unexpectedEndOfInput (expected : Expectation)
  | trailingTokens (first : Kind)
  | nestingTooDeep (limit : Nat)

/-- What reading a program from text can meet. -/
inductive ReadingFault where
  | lexical (fault : LexicalFault)
  | grammatical (fault : SyntaxFault)

/-- A program that uses its names wrongly. -/
inductive ScopeFault where
  | duplicateDeclaration (name scope : String)
  | undeclaredIdentifier (name : String)
deriving DecidableEq, Repr

/-- An execution that cannot go on. -/
inductive RuntimeFault where
  | divisionByZero
  | overflow
  | unassignedVariable (name : String)
deriving DecidableEq, Repr

/-- A fault of any stage. -/
inductive Fault where
  | lexical (fault : LexicalFault)
  | grammatical (fault : SyntaxFault)
  | scope (fault : ScopeFault)
  | runtime (fault : RuntimeFault)

/-- A fault of reading, seen among all faults. -/
def ReadingFault.toFault : ReadingFault → Fault
  | .lexical fault => .lexical fault
  | .grammatical fault => .grammatical fault

/-! ## Wording -/

/-- What is wrong with the text. -/
def LexicalFault.text : LexicalFault → String
  | .unrecognizedCharacter character =>
    "Unrecognized character '" ++ String.singleton character ++ "'."
  | .unclosedComment => "Comment is never closed with '\x7d'."
  | .integerOutOfRange literal => "Integer literal " ++ literal ++ " is out of range."

/-- The phrase for what is expected. -/
def Expectation.text : Expectation → String
  | .terminal which => (Kind.terminal which).text
  | .identifier => "an identifier"
  | .typeName => "a type ('INTEGER' or 'REAL')"
  | .expression => "an expression"
  | .separatorOrEnd => "';' or 'END'"

/-- What is wrong with the tokens. -/
def SyntaxFault.text : SyntaxFault → String
  | .unexpectedToken expected found =>
    "Expected " ++ expected.text ++ ", found " ++ found.text ++ "."
  | .unexpectedEndOfInput expected =>
    "Unexpected end of input, expected " ++ expected.text ++ "."
  | .trailingTokens first =>
    "Extra tokens after the end of the program: " ++ first.text ++ "."
  | .nestingTooDeep limit => "Nesting is deeper than " ++ toString limit ++ " levels."

/-- What is wrong with the names. -/
def ScopeFault.text : ScopeFault → String
  | .duplicateDeclaration name scope =>
    "Duplicate identifier '" ++ name ++ "' in scope '" ++ scope ++ "'."
  | .undeclaredIdentifier name => "Identifier '" ++ name ++ "' not found."

/-- What went wrong in execution. -/
def RuntimeFault.text : RuntimeFault → String
  | .divisionByZero => "Division by zero."
  | .overflow => "Integer overflow while trying to compute result."
  | .unassignedVariable name => "Variable '" ++ name ++ "' is used before it is assigned."

/-- The wording of any fault. -/
def Fault.text : Fault → String
  | .lexical fault => fault.text
  | .grammatical fault => fault.text
  | .scope fault => fault.text
  | .runtime fault => fault.text

/-! ## Errors -/

/-- A fault at a place. -/
structure Error (φ : Type) where
  fault : φ
  position : Position

namespace Error

variable {φ ψ : Type}

/-- The same place, with the fault seen as one of a larger type. -/
def map (f : φ → ψ) (e : Error φ) : Error ψ := ⟨f e.fault, e.position⟩

/-- The line shown to the user. -/
def message (e : Error Fault) : String :=
  "Error on " ++ e.position.text ++ ": " ++ e.fault.text

end Error

end MiniPascal
