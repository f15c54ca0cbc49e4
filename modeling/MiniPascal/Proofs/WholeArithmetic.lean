/-
`WholeArithmetic.lean` -- whole numbers from the text to the result.

Expressions of whole numbers with their own meaning, in which nothing of the language
occurs: literals, signs and four operators on 64-bit integers, each exact or undefined
(`reference`). Written in full parentheses (`text`) and assigned in a program, such an
expression is run through all stages. The result is the reference value; where that
does not exist the program fails in execution and in no earlier stage.

The proof follows the text through the stages. Its lexemes are those of its parts with
marks between them, and none of them runs into the next (`clean_lexemes`). The tokens
are a factor of the grammar whose tree has the shape of the expression
(`exists_factor`). The value of a tree of that shape is the reference value
(`value_of_shape`).
-/
import MiniPascal.Proofs.Assigning
import MiniPascal.Proofs.Exactness

set_option autoImplicit false

namespace MiniPascal

open Phrase

/-- The operators that give whole numbers. -/
inductive WholeOperator where
  | add | subtract | multiply | divide
deriving DecidableEq

/-- An expression of whole numbers. A literal fits into 64 bits. -/
inductive Whole where
  | literal (value : Nat) (fits : value ≤ 9223372036854775807)
  | signed (sign : UnaryOperator) (operand : Whole)
  | operation (left : Whole) (op : WholeOperator) (right : Whole)

/-! ## The reference -/

/-- The 64-bit integer `n`, if there is one. -/
def checked (n : Int) : Option Int64 :=
  if -9223372036854775808 ≤ n ∧ n ≤ 9223372036854775807 then some (Int64.ofInt n) else none

/-- The operation on 64-bit integers. Division drops the fraction, and there is none by
zero. -/
def WholeOperator.apply : WholeOperator → Int64 → Int64 → Option Int64
  | add, a, b => checked (a.toInt + b.toInt)
  | subtract, a, b => checked (a.toInt - b.toInt)
  | multiply, a, b => checked (a.toInt * b.toInt)
  | divide, a, b => if b.toInt = 0 then none else checked (a.toInt.tdiv b.toInt)

namespace Whole

/-- The value, if all intermediate results exist. -/
def reference : Whole → Option Int64
  | literal value _ => some (Int64.ofNat value)
  | signed .plus operand => operand.reference
  | signed .minus operand => operand.reference.bind fun a => checked (-a.toInt)
  | operation left op right =>
    left.reference.bind fun a => right.reference.bind fun b => op.apply a b

/-- How many parentheses and signs enclose the innermost point. -/
def nesting : Whole → Nat
  | literal _ _ => 0
  | signed _ operand => operand.nesting + 1
  | operation left _ right => max left.nesting right.nesting + 1

/-! ## The text -/

/-- How an operator is written. -/
def operatorText : WholeOperator → String
  | .add => "+"
  | .subtract => "-"
  | .multiply => "*"
  | .divide => "DIV"

/-- How a sign is written. -/
def signText : UnaryOperator → String
  | .plus => "+"
  | .minus => "-"

/-- An operation is written in parentheses, with blanks around its operator; a sign
stands directly before its operand. -/
def text : Whole → String
  | literal value _ => toString value
  | signed sign operand => signText sign ++ operand.text
  | operation left op right =>
    "(" ++ left.text ++ " " ++ operatorText op ++ " " ++ right.text ++ ")"

/-- The terminal of an operator. -/
def operatorTerminal : WholeOperator → Terminal
  | .add => .plus
  | .subtract => .minus
  | .multiply => .times
  | .divide => .div

/-- The terminal of a sign. -/
def signTerminal : UnaryOperator → Terminal
  | .plus => .plus
  | .minus => .minus

/-- The lexemes of the text. -/
def lexemes : Whole → List Lexeme
  | literal value _ => [.ofNat value]
  | signed sign operand => .ofTerminal (signTerminal sign) :: operand.lexemes
  | operation left op right =>
    .ofTerminal .leftParen :: (left.lexemes ++
      .space :: .ofTerminal (operatorTerminal op) :: .space :: (right.lexemes ++
        [.ofTerminal .rightParen]))

theorem toList_text (a : Whole) : a.text.toList = spell a.lexemes := by
  induction a with
  | literal value fits =>
    rw [lexemes, spell_cons, spell_nil, List.append_nil]
    exact Nat.toList_repr
  | signed sign operand ih =>
    have hsign : (signText sign).toList = (signTerminal sign).spelling.toList := by
      cases sign <;> rfl
    rw [text, String.toList_append, ih, hsign, lexemes, spell_cons]
    rfl
  | operation left op right ihleft ihright =>
    have hop : (operatorText op).toList = (operatorTerminal op).spelling.toList := by
      cases op <;> rfl
    simp only [text, String.toList_append, ihleft, ihright, hop, lexemes, spell_cons, spell_append,
      spell_nil, List.append_assoc, List.append_nil]
    rfl

/-! ## Lexemes -/

/-- The text begins with a digit, a sign or a parenthesis. -/
theorem stopsAt_spell (a : Whole) (rest : List Char) :
    StopsAt Lexeme.isBlank (spell a.lexemes ++ rest) := by
  cases a with
  | literal value fits =>
    rw [lexemes, spell_cons, List.append_assoc]
    exact Lexeme.stopsAt_ofNat value _
  | signed sign operand => cases sign <;> exact stopsAt_cons rfl
  | operation left op right => exact stopsAt_cons rfl

/-- In front of anything that does not continue a number, the lexemes are found again. -/
theorem clean_lexemes (a : Whole) {rest : List Char} (hdigit : StopsAt Char.isDigit rest)
    (hpoint : StopsAt (· == '.') rest) : Clean a.lexemes rest := by
  induction a generalizing rest with
  | literal value fits => exact ⟨Lexeme.cutBefore_ofNat value hdigit hpoint, trivial⟩
  | signed sign operand ih =>
    refine ⟨?_, ih hdigit hpoint⟩
    cases sign <;> exact ⟨_, _, rfl, rfl⟩
  | operation left op right ihleft ihright =>
    have hright : Clean (right.lexemes ++ [.ofTerminal .rightParen]) rest :=
      clean_append_iff.mpr
        ⟨ihright (stopsAt_cons rfl) (stopsAt_cons rfl), ⟨_, _, rfl, rfl⟩, trivial⟩
    have hspace : StopsAt Lexeme.isBlank
        (spell (right.lexemes ++ [.ofTerminal .rightParen]) ++ rest) := by
      rw [spell_append, List.append_assoc]
      exact right.stopsAt_spell _
    refine ⟨⟨_, _, rfl, rfl⟩, clean_append_iff.mpr
      ⟨ihleft (stopsAt_cons rfl) (stopsAt_cons rfl), ?_, ?_, Lexeme.cutBefore_space hspace, hright⟩⟩
    · apply Lexeme.cutBefore_space
      cases op <;> exact stopsAt_cons rfl
    · cases op <;> exact ⟨_, _, rfl, rfl⟩

theorem isOk_lexemes (a : Whole) : ∀ l ∈ a.lexemes, l.content.isOk = true := by
  induction a with
  | literal value fits =>
    rw [lexemes, List.forall_mem_singleton, Lexeme.content_ofNat fits]
    rfl
  | signed sign operand ih =>
    rw [lexemes, List.forall_mem_cons]
    exact ⟨rfl, ih⟩
  | operation left op right ihleft ihright =>
    simp only [lexemes, List.forall_mem_cons, List.forall_mem_append]
    exact ⟨rfl, ihleft, rfl, rfl, rfl, ihright, rfl, nofun⟩

/-! ## The tree -/

/-- The operator of the language. -/
def operator : WholeOperator → BinaryOperator
  | .add => .add
  | .subtract => .subtract
  | .multiply => .multiply
  | .divide => .integerDivide

/-- A tree of the same shape, at any places. -/
inductive Shape : Whole → Expr → Prop
  | literal {value fits position} :
      Shape (.literal value fits) (.literal (.integer (Int64.ofNat value)) position)
  | signed {sign operand e position} :
      Shape operand e → Shape (.signed sign operand) (.unary sign e position)
  | operation {left op right e e' position} :
      Shape left e → Shape right e' →
      Shape (.operation left op right) (.binary (operator op) e e' position)

theorem Shape.occurrences_eq {a : Whole} {e : Expr} (h : Shape a e) : e.occurrences = [] := by
  induction h with
  | literal => rfl
  | signed h ih => exact ih
  | operation h h' ih ih' => rw [Expr.occurrences, ih, ih', List.append_nil]

/-- An operation between two factors is an expression. -/
theorem isExpression_operation {n m : Nat} {ts us : List Token} {e e' : Expr} {mark : Token}
    (op : WholeOperator) (hleft : IsFactor n ts e) (hmark : mark.Is (operatorTerminal op))
    (hright : IsFactor m us e') :
    IsExpression (max n m) (ts ++ mark :: us) (.binary (operator op) e e' mark.position) := by
  have hkind : mark.kind = .terminal (operatorTerminal op) := hmark
  cases op with
  | add => exact .link (.single (.single hleft)) (hkind ▸ .plus) (.single hright)
  | subtract => exact .link (.single (.single hleft)) (hkind ▸ .minus) (.single hright)
  | multiply => exact .single (.link (.single hleft) (hkind ▸ .times) hright)
  | divide => exact .single (.link (.single hleft) (hkind ▸ .div) hright)

/-- The tokens are a factor with a tree of the same shape. -/
theorem exists_factor (a : Whole) (p : Position) :
    ∃ e, IsFactor a.nesting (tokensFrom p a.lexemes) e ∧ Shape a e := by
  induction a generalizing p with
  | literal value fits =>
    rw [lexemes, tokensFrom_ofNat p fits]
    exact ⟨_, .integer rfl, .literal⟩
  | signed sign operand ih =>
    obtain ⟨e, hphrase, hshape⟩ := ih (p.advance (signTerminal sign).spelling.toList)
    rw [lexemes, tokensFrom_ofTerminal]
    refine ⟨_, .signed ?_ hphrase, .signed hshape⟩
    cases sign with
    | plus => exact .plus
    | minus => exact .minus
  | operation left op right ihleft ihright =>
    rw [lexemes, tokensFrom_ofTerminal, tokensFrom_append, tokensFrom_space, tokensFrom_ofTerminal,
      tokensFrom_space, tokensFrom_append, tokensFrom_ofTerminal]
    -- only that the parts stand somewhere is needed
    generalize p.advance Terminal.leftParen.spelling.toList = p₁
    generalize (stopFrom p₁ left.lexemes).advance [' '] = p₂
    generalize (p₂.advance (operatorTerminal op).spelling.toList).advance [' '] = p₃
    generalize stopFrom p₃ right.lexemes = p₄
    obtain ⟨e, hphrase, hshape⟩ := ihleft p₁
    obtain ⟨e', hphrase', hshape'⟩ := ihright p₃
    have hopening : Token.Is ⟨.terminal .leftParen, Terminal.leftParen.spelling, p⟩
        .leftParen := rfl
    have hmark : Token.Is ⟨.terminal (operatorTerminal op), (operatorTerminal op).spelling, p₂⟩
        (operatorTerminal op) := rfl
    have hclosing : Token.Is ⟨.terminal .rightParen, Terminal.rightParen.spelling, p₄⟩
        .rightParen := rfl
    have hgroup := IsFactor.group hopening
      (isExpression_operation op hphrase hmark hphrase') hclosing
    rw [List.append_assoc] at hgroup
    exact ⟨_, hgroup, .operation hshape hshape'⟩

/-- The source that assigns the expression is a program with a tree of the same shape.
The body of the program is one level more. -/
theorem exists_program (a : Whole) :
    ∃ ts e, Scans (Assigning.source a.text) ts ∧
      IsProgram (a.nesting + 1) ts (Assigning.tree e) ∧ Shape a e := by
  have hclean : Clean a.lexemes (spell Assigning.closing) :=
    a.clean_lexemes (stopsAt_cons rfl) (stopsAt_cons rfl)
  obtain ⟨p, hscans⟩ := Assigning.scans_source a.toList_text hclean (a.stopsAt_spell _)
    a.isOk_lexemes
  obtain ⟨e, hphrase, hshape⟩ := a.exists_factor ⟨1, 43⟩
  exact ⟨_, e, hscans, Assigning.isProgram (.single (.single hphrase)) p, hshape⟩

/-! ## The value -/

/-- An outcome is the expected integer, or an error if there is none. -/
def Agrees {ε : Type} (outcome : Except ε Number) : Option Int64 → Prop
  | some a => outcome = .ok (.integer a)
  | none => ∃ error, outcome = .error error

theorem Agrees.bind {ε : Type} {x : Except ε Number} {f : Number → Except ε Number}
    {o : Option Int64} {g : Int64 → Option Int64} (hx : Agrees x o)
    (hf : ∀ a, Agrees (f (.integer a)) (g a)) : Agrees (x >>= f) (o.bind g) := by
  cases o with
  | some a =>
    rw [show x = .ok (.integer a) from hx]
    exact hf a
  | none =>
    obtain ⟨error, rfl⟩ := hx
    exact ⟨error, rfl⟩

/-- Saying where an operator stands does not change its outcome. -/
theorem Agrees.located {x : Except RuntimeFault Number} {o : Option Int64} (h : Agrees x o)
    (position : Position) : Agrees (Number.located position x) o := by
  cases o with
  | some a =>
    rw [show x = .ok (.integer a) from h]
    rfl
  | none =>
    obtain ⟨fault, rfl⟩ := h
    exact ⟨_, rfl⟩

theorem agrees_exactly (n : Int) : Agrees (Number.exactly n) (checked n) := by
  rw [Number.exactly_eq, checked]
  by_cases h : Fits n
  · rw [if_pos h, if_pos (show _ ∧ _ from h)]
    rfl
  · rw [if_neg h, if_neg (show ¬ (_ ∧ _) from h)]
    exact ⟨_, rfl⟩

/-- Each operator computes what it does on 64-bit integers. -/
theorem agrees_binary (op : WholeOperator) (a b : Int64) :
    Agrees (Number.binary (operator op) (.integer a) (.integer b)) (op.apply a b) := by
  cases op with
  | add => exact agrees_exactly _
  | subtract => exact agrees_exactly _
  | multiply => exact agrees_exactly _
  | divide =>
    -- a divisor of zero is asked for before the range
    have hzero : (b == 0) = true ↔ b.toInt = 0 := by
      rw [beq_iff_eq, ← Int64.toInt_inj, Int64.toInt_zero]
    change Agrees (if (b == 0) = true then .error .divisionByZero
      else Number.exactly (a.toInt.tdiv b.toInt)) (if b.toInt = 0 then none else _)
    by_cases h : b.toInt = 0
    · rw [if_pos (hzero.mpr h), if_pos h]
      exact ⟨_, rfl⟩
    · rw [if_neg (mt hzero.mp h), if_neg h]
      exact agrees_exactly _

/-- Trees of one shape have the reference value. -/
theorem value_of_shape {a : Whole} {e : Expr} (h : Shape a e) (store : Store) :
    Agrees (e.value store) a.reference := by
  induction h with
  | literal => rfl
  | @signed sign operand e position h ih =>
    rw [Expr.value]
    cases sign with
    -- a plus sign has a value of its own, which is the value behind it
    | plus =>
      rw [reference, ← Option.bind_fun_some operand.reference]
      exact ih.bind fun a => rfl
    | minus => exact ih.bind fun a => (agrees_exactly _).located position
  | @operation left op right e e' position h h' ih ih' =>
    rw [Expr.value, reference]
    exact ih.bind fun a => ih'.bind fun b => (agrees_binary op a b).located position

end Whole

/-- **Whole arithmetic, end to end.** An expression of whole numbers, written out and
assigned in a program, is run to its reference value, and to a failure of the execution
if it has none. Up to 127 parentheses and signs may enclose a point of it: the body of
the program is one level itself. -/
theorem run_whole (a : Whole) (h : a.nesting ≤ 127) :
    (∀ value, a.reference = some value →
      ∃ store, run (Assigning.source a.text) = .ok store ∧
        store.entries = [("r", .integer value)]) ∧
    (a.reference = none →
      ∃ fault position, run (Assigning.source a.text) = .error ⟨.runtime fault, position⟩) := by
  obtain ⟨ts, e, hscans, hphrase, hshape⟩ := a.exists_program
  have hrun := Assigning.run_of_scans hscans hphrase (Nat.succ_le_succ h) hshape.occurrences_eq
  have hvalue := Whole.value_of_shape hshape ∅
  constructor
  · intro value hreference
    rw [hreference] at hvalue
    rw [show e.value ∅ = .ok (.integer value) from hvalue] at hrun
    exact ⟨_, hrun, rfl⟩
  · intro hreference
    rw [hreference] at hvalue
    obtain ⟨⟨fault, position⟩, herror⟩ := hvalue
    rw [herror] at hrun
    exact ⟨fault, position, hrun⟩

/-- The literal `1`. -/
def Whole.one : Whole := .literal 1 (by decide)

/-- `(-9223372036854775807 - 1)`, which is no literal. -/
def Whole.smallest : Whole :=
  .operation (.signed .minus (.literal 9223372036854775807 (Nat.le_refl _))) .subtract .one

/-- `((-9223372036854775807 - 1) DIV -1)`, which no 64-bit integer is. -/
def Whole.smallestByMinusOne : Whole :=
  .operation .smallest .divide (.signed .minus .one)

/-- At the limit: the smallest integer is reached, and its quotient by minus one fails. -/
theorem run_whole_smallest :
    Whole.smallest.nesting ≤ 127 ∧ Whole.smallestByMinusOne.nesting ≤ 127 ∧
    (∃ store, run (Assigning.source Whole.smallest.text) = .ok store ∧
      store.entries = [("r", .integer Int64.minValue)]) ∧
    ∃ fault position, run (Assigning.source Whole.smallestByMinusOne.text) =
      .error ⟨.runtime fault, position⟩ := by
  have hsmallest : Whole.smallest.nesting ≤ 127 := by decide
  have hquotient : Whole.smallestByMinusOne.nesting ≤ 127 := by decide
  exact ⟨hsmallest, hquotient, (run_whole _ hsmallest).1 Int64.minValue rfl,
    (run_whole _ hquotient).2 rfl⟩

end MiniPascal
