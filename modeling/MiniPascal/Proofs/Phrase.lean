/-
`Phrase.lean` -- the grammar, apart from any way of parsing.

A class of phrases says which sequences of tokens are phrases of the class, which
tree each of them is, and how deeply it nests. The nesting of a phrase is the
largest number of compound statements, procedure blocks, groups in parentheses and
signs around one point of it. There is one class for a rule of the grammar, and the
way a phrase belongs to its class is its derivation.

Three forms of repetition are enough, and each is a class over the class of its
parts: `Many` for `x*`, `Separated` for `x (k x)*`, and `Chain` for operands with
operators between them. A chain is written with its last operator outermost, because
that is the tree of a chain: operators group to the left. Compound statements and
blocks are written over the class of the recursive part for the same reason as in the
rules: it keeps the recursion inside one predicate.

No limit is mentioned here. A limit is a bound on the nesting, so it is a condition
that a statement about phrases can put, and not a different grammar.
-/
import MiniPascal.Program
import MiniPascal.Token

set_option autoImplicit false

namespace MiniPascal

/-- A class of phrases: `P n ts a` says that the tokens `ts` are a phrase with the
tree `a`, and that it nests `n` deep. -/
abbrev Phrase (α : Type) := Nat → List Token → α → Prop

/-- The token is a given terminal. -/
def Token.Is (t : Token) (which : Terminal) : Prop := t.kind = .terminal which

/-- The token is a name. -/
def Token.Names (t : Token) (name : String) : Prop := t.kind = .identifier name

namespace Phrase

variable {α : Type}

/-! ## Repetition -/

/-- `x*` -/
inductive Many (P : Phrase α) : Phrase (List α)
  | nil : Many P 0 [] []
  | cons {n m ts us a as} :
      P n ts a → Many P m us as → Many P (max n m) (ts ++ us) (a :: as)

/-- `x (k x)*` -/
inductive Separated (k : Terminal) (P : Phrase α) : Phrase (List α)
  | single {n ts a} : P n ts a → Separated k P n ts [a]
  | cons {n m ts us a as} {mark : Token} :
      P n ts a → mark.Is k → Separated k P m us as →
      Separated k P (max n m) (ts ++ mark :: us) (a :: as)

/-- `x (operator x)*`, grouped to the left. An operation stands where its operator
does. -/
inductive Chain (Op : Kind → BinaryOperator → Prop) (P : Phrase Expr) : Phrase Expr
  | single {n ts e} : P n ts e → Chain Op P n ts e
  | link {n m ts us left right op} {mark : Token} :
      Chain Op P n ts left → Op mark.kind op → P m us right →
      Chain Op P (max n m) (ts ++ mark :: us) (.binary op left right mark.position)

/-! ## Expressions -/

/-- The operators between terms. -/
inductive Additive : Kind → BinaryOperator → Prop
  | plus : Additive (.terminal .plus) .add
  | minus : Additive (.terminal .minus) .subtract

/-- The operators between factors. -/
inductive Multiplicative : Kind → BinaryOperator → Prop
  | times : Multiplicative (.terminal .times) .multiply
  | div : Multiplicative (.terminal .div) .integerDivide
  | slash : Multiplicative (.terminal .slash) .divide

/-- The signs. -/
inductive Sign : Kind → UnaryOperator → Prop
  | plus : Sign (.terminal .plus) .plus
  | minus : Sign (.terminal .minus) .minus

/-- `factor := sign factor | constant | identifier | "(" expression ")"`. A group is
the tree of what stands in it. -/
inductive IsFactor : Phrase Expr
  | signed {n ts e op} {sign : Token} :
      Sign sign.kind op → IsFactor n ts e →
      IsFactor (n + 1) (sign :: ts) (.unary op e sign.position)
  | integer {value} {t : Token} :
      t.kind = .integerConstant value → IsFactor 0 [t] (.literal (.integer value) t.position)
  | real {value} {t : Token} :
      t.kind = .realConstant value → IsFactor 0 [t] (.literal (.real value) t.position)
  | name {name} {t : Token} :
      t.Names name → IsFactor 0 [t] (.variable ⟨name, t.position⟩)
  | group {n ts e} {opening closing : Token} :
      opening.Is .leftParen → Chain Additive (Chain Multiplicative IsFactor) n ts e →
      closing.Is .rightParen → IsFactor (n + 1) (opening :: (ts ++ [closing])) e

/-- `term := factor (("*" | "DIV" | "/") factor)*` -/
abbrev IsTerm : Phrase Expr := Chain Multiplicative IsFactor

/-- `expression := term (("+" | "-") term)*` -/
abbrev IsExpression : Phrase Expr := Chain Additive IsTerm

/-! ## Statements -/

/-- `compound := "BEGIN" statement (";" statement)* "END"`, for a class of statements. -/
inductive CompoundOf (P : Phrase Statement) : Phrase (List Statement)
  | mk {n ts body} {opening closing : Token} :
      opening.Is .beginBlock → Separated .semicolon P n ts body → closing.Is .endBlock →
      CompoundOf P (n + 1) (opening :: (ts ++ [closing])) body

/-- `statement := compound | identifier ":=" expression | (nothing)`. An assignment
stands where its `:=` does. -/
inductive IsStatement : Phrase Statement
  | empty : IsStatement 0 [] .empty
  | assign {n ts e name} {target mark : Token} :
      target.Names name → mark.Is .assign → IsExpression n ts e →
      IsStatement n (target :: mark :: ts) (.assign ⟨name, target.position⟩ e mark.position)
  | compound {n ts body} :
      CompoundOf IsStatement n ts body → IsStatement n ts (.compound body)

/-- `compound` -/
abbrev IsCompound : Phrase (List Statement) := CompoundOf IsStatement

/-! ## Declarations -/

/-- A name where it is declared. -/
inductive IsIdentifier : Phrase Identifier
  | mk {name} {t : Token} : t.Names name → IsIdentifier 0 [t] ⟨name, t.position⟩

/-- The words for types. -/
inductive TypeWord : Kind → VariableType → Prop
  | integer : TypeWord (.terminal .integer) .integer
  | real : TypeWord (.terminal .real) .real

/-- `variable := identifier ("," identifier)* ":" type`: one declaration for each name. -/
inductive IsVariableLine : Phrase (List Declaration)
  | mk {n ts names type} {colon word : Token} :
      Separated .comma IsIdentifier n ts names → colon.Is .colon → TypeWord word.kind type →
      IsVariableLine n (ts ++ [colon, word]) (names.map fun name => .variable name type)

/-- `variable ";"` -/
inductive IsVariableEntry : Phrase (List Declaration)
  | mk {n ts declared} {mark : Token} :
      IsVariableLine n ts declared → mark.Is .semicolon → IsVariableEntry n (ts ++ [mark]) declared

/-- `"VAR" (variable ";")+` -/
inductive IsVariableSection : Phrase (List Declaration)
  | mk {n m ts us first others} {word : Token} :
      word.Is .var → IsVariableEntry n ts first → Many IsVariableEntry m us others →
      IsVariableSection (max n m) (word :: (ts ++ us)) (first :: others).flatten

/-- `block := section* procedure* compound`, for a class of procedures. -/
inductive BlockOf (P : Phrase Declaration) : Phrase Block
  | mk {n m k ts us vs sections procedures body} :
      Many IsVariableSection n ts sections → Many P m us procedures → IsCompound k vs body →
      BlockOf P (max n (max m k)) (ts ++ (us ++ vs)) ⟨sections.flatten ++ procedures, body⟩

/-- `procedure := "PROCEDURE" identifier ";" block ";"`. Its block is one level deeper. -/
inductive IsProcedure : Phrase Declaration
  | mk {n ts name block} {word title mark closing : Token} :
      word.Is .procedure → title.Names name → mark.Is .semicolon →
      BlockOf IsProcedure n ts block → closing.Is .semicolon →
      IsProcedure (n + 1) (word :: title :: mark :: (ts ++ [closing]))
        (.procedure ⟨name, title.position⟩ block.declarations block.body)

/-- `block` -/
abbrev IsBlock : Phrase Block := BlockOf IsProcedure

/-- `program := "PROGRAM" identifier ";" block "."` -/
inductive IsProgram : Phrase Program
  | mk {n ts name block} {word title mark dot : Token} :
      word.Is .program → title.Names name → mark.Is .semicolon →
      IsBlock n ts block → dot.Is .dot →
      IsProgram n (word :: title :: mark :: (ts ++ [dot])) ⟨⟨name, title.position⟩, block⟩

end Phrase

end MiniPascal
