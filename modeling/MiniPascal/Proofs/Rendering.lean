/-
`Rendering.lean` -- trees written as tokens, and tokens as text.

Writing a program goes in two steps. A tree is written as kinds of tokens; what a tree
does not say, namely where parentheses stand, is decided here. Operators have levels, and
an operand is put into parentheses exactly when it is an operation of a lower level than
its place asks for: the left operand of an operator may be of the operator's own level,
the right one must be of a higher one, and behind a sign there is a factor. Then the
kinds are written one by one with a blank behind each.

Only a printable tree can be written. Its names are words, its numbers have a text, and
its shape is one that the grammar can express. The first step has a phrase of the grammar
as its result (`isProgram_kinds`): the tree itself, apart from places, and with the nesting
that is counted here along the tree.
-/
import MiniPascal.Proofs.Pattern
import MiniPascal.Proofs.Execution
import MiniPascal.Proofs.Repetition
import MiniPascal.Proofs.Unplaced

set_option autoImplicit false

namespace MiniPascal

open Lexeme

/-! ## Printable trees -/

/-- A word, but no reserved word in any letter case. -/
def IsName (name : String) : Prop :=
  IsWord name ∧
    ∀ which ∈ Terminal.words, name.toList.map Char.toUpper ≠ which.spelling.toList

/-- The real that is written as digits, a point and digits. -/
def decimalValue (whole fraction : List Char) : Float :=
  Float.ofScientific (Nat.ofDigitChars 10 (whole ++ fraction) 0) true fraction.length

/-- The real can be written with a point between digits. -/
def IsDecimal (value : Float) : Prop :=
  ∃ whole fraction, Digits whole ∧ Digits fraction ∧ value = decimalValue whole fraction

/-- The number can be written without a sign. -/
def Number.Printable : Number → Prop
  | .integer value => 0 ≤ value.toInt
  | .real value => IsDecimal value

/-- All names of the expression are names, and all its numbers can be written. -/
def Expr.Printable : Expr → Prop
  | .literal value _ => value.Printable
  | .variable x => IsName x.name
  | .binary _ left right _ => left.Printable ∧ right.Printable
  | .unary _ operand _ => operand.Printable

/-- The parts of the statement are printable, and no compound is without statements. -/
inductive Statement.Printable : Statement → Prop
  | empty : Printable .empty
  | assign {target value position} :
      IsName target.name → value.Printable → Printable (.assign target value position)
  | compound {body} :
      body ≠ [] → (∀ s ∈ body, s.Printable) → Printable (.compound body)

/-- The variables are declared before the procedures. -/
def VariablesFirst (ds : List Declaration) : Prop :=
  ∃ vars procs, ds = vars ++ procs ∧
    (∀ d ∈ vars, d.isVariable = true) ∧ ∀ d ∈ procs, d.isVariable = false

/-- The parts of the block are printable, where `P` says so of declarations; they stand in
the right order, and the body is not without statements. -/
inductive Block.PrintableOf (P : Declaration → Prop) : Block → Prop
  | mk {declarations body} :
      VariablesFirst declarations → (∀ d ∈ declarations, P d) →
      body ≠ [] → (∀ s ∈ body, s.Printable) → PrintableOf P ⟨declarations, body⟩

theorem Block.PrintableOf.declarations {P : Declaration → Prop} {b : Block}
    (h : b.PrintableOf P) : ∀ d ∈ b.declarations, P d := by
  obtain ⟨-, h, -, -⟩ := h
  exact h

theorem Block.PrintableOf.body {P : Declaration → Prop} {b : Block}
    (h : b.PrintableOf P) : ∀ s ∈ b.body, s.Printable := by
  obtain ⟨-, -, -, h⟩ := h
  exact h

/-- The name and the block of the declaration are printable. -/
inductive Declaration.Printable : Declaration → Prop
  | variable {name type} : IsName name.name → Printable (.variable name type)
  | procedure {name declarations body} :
      IsName name.name → Block.PrintableOf Printable ⟨declarations, body⟩ →
      Printable (.procedure name declarations body)

/-- The name and the block of the program are printable. -/
structure Program.Printable (p : Program) : Prop where
  name : IsName p.name.name
  block : p.block.PrintableOf Declaration.Printable

/-! ## Trees as tokens -/

/-- How tightly an operator binds. -/
def BinaryOperator.level : BinaryOperator → Nat
  | add | subtract => 0
  | multiply | integerDivide | divide => 1

/-- How tightly the outermost operator binds. A factor has none, or a sign. -/
def Expr.level : Expr → Nat
  | .binary op _ _ _ => op.level
  | _ => 2

/-- What is written for an operand of level `inner` where the level `outer` is needed. -/
def grouped (inner outer : Nat) (kinds : List Kind) : List Kind :=
  if inner < outer then .terminal .leftParen :: (kinds ++ [.terminal .rightParen]) else kinds

/-- How deeply that nests, if the operand itself nests `n` deep. -/
def groupedNesting (inner outer n : Nat) : Nat := if inner < outer then n + 1 else n

namespace Expr

/-- The tokens of an expression. -/
def kinds : Expr → List Kind
  | .literal value _ => [value.kind]
  | .variable x => [.identifier x.name]
  | .binary op left right _ =>
    grouped left.level op.level left.kinds ++
      .terminal op.terminal :: grouped right.level (op.level + 1) right.kinds
  | .unary op operand _ => .terminal op.terminal :: grouped operand.level 2 operand.kinds

/-- How deeply signs and parentheses nest. -/
def nesting : Expr → Nat
  | .literal _ _ => 0
  | .variable _ => 0
  | .binary op left right _ =>
    max (groupedNesting left.level op.level left.nesting)
      (groupedNesting right.level (op.level + 1) right.nesting)
  | .unary _ operand _ => groupedNesting operand.level 2 operand.nesting + 1

end Expr

/-- The token of a type. -/
def VariableType.terminal : VariableType → Terminal
  | .integer => .integer
  | .real => .real

mutual

/-- The tokens of a statement. -/
def Statement.kinds : Statement → List Kind
  | .empty => []
  | .assign target value _ => .identifier target.name :: .terminal .assign :: value.kinds
  | .compound body => .terminal .beginBlock :: (bodyKinds body ++ [.terminal .endBlock])

/-- The tokens of statements, with semicolons between them. -/
def bodyKinds : List Statement → List Kind
  | [] => []
  | [only] => only.kinds
  | first :: second :: others =>
    first.kinds ++ .terminal .semicolon :: bodyKinds (second :: others)

end

mutual

/-- How deeply a statement nests. -/
def Statement.nesting : Statement → Nat
  | .empty => 0
  | .assign _ value _ => value.nesting
  | .compound body => bodyNesting body + 1

/-- How deeply the statements of a body nest. -/
def bodyNesting : List Statement → Nat
  | [] => 0
  | first :: others => max first.nesting (bodyNesting others)

end

/-- The tokens of a block with the given declarations. -/
def blockKinds (declarations : List Kind) (body : List Statement) : List Kind :=
  declarations ++ (.terminal .beginBlock :: (bodyKinds body ++ [.terminal .endBlock]))

mutual

/-- The tokens of a declaration. Each variable has a section of its own. -/
def Declaration.kinds : Declaration → List Kind
  | .variable name type =>
    [.terminal .var, .identifier name.name, .terminal .colon, .terminal type.terminal,
      .terminal .semicolon]
  | .procedure name declarations body =>
    .terminal .procedure :: .identifier name.name :: .terminal .semicolon ::
      (blockKinds (declarationKinds declarations) body ++ [.terminal .semicolon])

/-- The tokens of declarations. -/
def declarationKinds : List Declaration → List Kind
  | [] => []
  | first :: others => first.kinds ++ declarationKinds others

end

mutual

/-- How deeply a declaration nests. The block of a procedure is one level deeper. -/
def Declaration.nesting : Declaration → Nat
  | .variable _ _ => 0
  | .procedure _ declarations body =>
    max (declarationNesting declarations) (bodyNesting body + 1) + 1

/-- How deeply declarations nest. -/
def declarationNesting : List Declaration → Nat
  | [] => 0
  | first :: others => max first.nesting (declarationNesting others)

end

namespace Block

/-- The tokens of a block. -/
def kinds (b : Block) : List Kind := blockKinds (declarationKinds b.declarations) b.body

/-- How deeply a block nests. -/
def nesting (b : Block) : Nat := max (declarationNesting b.declarations) (bodyNesting b.body + 1)

end Block

namespace Program

/-- The tokens of a program. -/
def kinds (p : Program) : List Kind :=
  .terminal .program :: .identifier p.name.name :: .terminal .semicolon ::
    (p.block.kinds ++ [.terminal .dot])

/-- How many compound statements, procedure blocks, signs and pairs of parentheses stand at
most around one point of what is written. -/
def nesting (p : Program) : Nat := p.block.nesting

end Program

/-! ## Tokens as text -/

/-- A way of writing reals: digits before and behind a point that have this value, if
there are any. -/
structure RealWriter where
  whole : Float → List Char
  fraction : Float → List Char
  correct : ∀ value, IsDecimal value →
    Digits (whole value) ∧ Digits (fraction value) ∧
      value = decimalValue (whole value) (fraction value)

/-- There is a way of writing reals, since each of them can be written by itself. -/
theorem RealWriter.nonempty : Nonempty RealWriter := by
  have hdigits : ∀ value, ∃ digits : List Char × List Char, IsDecimal value →
      Digits digits.1 ∧ Digits digits.2 ∧ value = decimalValue digits.1 digits.2 := by
    intro value
    by_cases hvalue : IsDecimal value
    · obtain ⟨whole, fraction, hwhole, hfraction, heq⟩ := hvalue
      exact ⟨(whole, fraction), fun _ => ⟨hwhole, hfraction, heq⟩⟩
    · exact ⟨([], []), fun h => absurd h hvalue⟩
  choose digits hdigits using hdigits
  exact ⟨fun value => (digits value).1, fun value => (digits value).2, hdigits⟩

/-- The text of a kind. Layout and the end of the input have none. -/
def Kind.spelling (w : RealWriter) : Kind → List Char
  | .realConstant value => w.whole value ++ '.' :: w.fraction value
  | .integerConstant value => Nat.toDigits 10 value.toInt.toNat
  | .terminal which => which.spelling.toList
  | .identifier name => name.toList
  | .layout _ | .endOfInput => []

/-- The text of kinds, with a blank behind each of them. -/
def written (w : RealWriter) (kinds : List Kind) : List Char :=
  kinds.flatMap fun kind => kind.spelling w ++ [' ']

/-- The text of a program. -/
def Program.render (w : RealWriter) (p : Program) : String := String.ofList (written w p.kinds)

/-! ## The phrase that is written -/

namespace Phrase

/-- A token of which nothing is known but its kind. -/
def bare (kind : Kind) : Token := ⟨kind, "", .start⟩

theorem bare_is (which : Terminal) : (bare (.terminal which)).Is which := rfl

theorem bare_names (name : String) : (bare (.identifier name)).Names name := rfl

/-- The class of expressions whose outermost operator binds at least so tightly. -/
def AtLevel : Nat → Phrase Expr
  | 0 => IsExpression
  | 1 => IsTerm
  | _ => IsFactor

variable {n m inner outer : Nat} {ts us : List Token} {kinds : List Kind} {e left right : Expr}

theorem AtLevel.lower (hlevel : outer ≤ inner) (h : AtLevel inner n ts e) :
    AtLevel outer n ts e := by
  have hstep : ∀ level, AtLevel (level + 1) n ts e → AtLevel level n ts e := by
    intro level hnext
    match level with
    | 0 => exact .single hnext
    | 1 => exact .single hnext
    | level + 2 => exact hnext
  induction hlevel with
  | refl => exact h
  | step _ ih => exact ih (hstep _ h)

/-- An operand is a phrase of the class that its place asks for, in parentheses if need
be. -/
theorem atLevel_grouped (houter : outer ≤ 2) (h : AtLevel inner n (kinds.map bare) e) :
    AtLevel outer (groupedNesting inner outer n) ((grouped inner outer kinds).map bare) e := by
  by_cases hgroup : inner < outer
  · -- between parentheses there may be any expression, and the group is a factor
    have hinside : IsExpression n (kinds.map bare) e := h.lower (Nat.zero_le inner)
    have hfactor : AtLevel 2 (n + 1)
        (bare (.terminal .leftParen) :: (kinds.map bare ++ [bare (.terminal .rightParen)])) e :=
      IsFactor.group (bare_is _) hinside (bare_is _)
    rw [groupedNesting, grouped, if_pos hgroup, if_pos hgroup, List.map_cons, List.map_append]
    exact hfactor.lower houter
  · rw [groupedNesting, grouped, if_neg hgroup, if_neg hgroup]
    exact h.lower (Nat.le_of_not_lt hgroup)

theorem parentheses_of_factor (h : IsFactor n ts e) (hlevel : e.level < 2) :
    ∃ opening us closing, ts = opening :: (us ++ [closing]) ∧
      opening.Is .leftParen ∧ closing.Is .rightParen := by
  cases h with
  | group hopening _ hclosing => exact ⟨_, _, _, rfl, hopening, hclosing⟩
  -- all other factors have the highest level
  | _ => exact absurd hlevel (Nat.lt_irrefl 2)

/-- Parentheses are not written without need. In any phrase of the grammar, an operand that
is of a lower level than its place asks for stands in parentheses. -/
theorem parentheses_of_atLevel (houter : outer ≤ 2) (h : AtLevel outer n ts e)
    (hlevel : e.level < outer) :
    ∃ opening us closing, ts = opening :: (us ++ [closing]) ∧
      opening.Is .leftParen ∧ closing.Is .rightParen := by
  match outer with
  | 0 => exact absurd hlevel (Nat.not_lt_zero _)
  | 1 =>
    cases h with
    | single hfactor => exact parentheses_of_factor hfactor (Nat.lt_succ_of_lt hlevel)
    | link _ hop _ =>
      -- the operator of a term is of the level of terms
      generalize Token.kind _ = kind at hop
      cases hop <;> exact absurd hlevel (Nat.lt_irrefl 1)
  | 2 => exact parentheses_of_factor h hlevel

/-! `(a - b) - (c - d)` is written with one pair of parentheses, the second one. -/

example (a b c d : Identifier) (p : Position) :
    (Expr.binary .subtract (.binary .subtract (.variable a) (.variable b) p)
      (.binary .subtract (.variable c) (.variable d) p) p).kinds =
      [.identifier a.name, .terminal .minus, .identifier b.name, .terminal .minus,
        .terminal .leftParen, .identifier c.name, .terminal .minus, .identifier d.name,
        .terminal .rightParen] := rfl

/-- An operation has the level of its operator. -/
theorem atLevel_binary {op : BinaryOperator} (hleft : AtLevel op.level n ts left)
    (hright : AtLevel (op.level + 1) m us right) :
    AtLevel op.level (max n m) (ts ++ bare (.terminal op.terminal) :: us)
      (.binary op left right .start) := by
  cases op with
  | add => exact Chain.link hleft Additive.plus hright
  | subtract => exact Chain.link hleft Additive.minus hright
  | multiply => exact Chain.link hleft Multiplicative.times hright
  | integerDivide => exact Chain.link hleft Multiplicative.div hright
  | divide => exact Chain.link hleft Multiplicative.slash hright

theorem level_le_one (op : BinaryOperator) : op.level + 1 ≤ 2 := by
  cases op <;> decide

theorem atLevel_kinds (e : Expr) : AtLevel e.level e.nesting (e.kinds.map bare) e.unplaced := by
  induction e with
  | literal value position =>
    cases value with
    | integer value => exact IsFactor.integer rfl
    | real value => exact IsFactor.real rfl
  | «variable» x => exact IsFactor.name (bare_names x.name)
  | unary op operand position ih =>
    have hoperand : IsFactor _ _ operand.unplaced := atLevel_grouped (Nat.le_refl 2) ih
    have hsign : Sign (bare (.terminal op.terminal)).kind op := by
      cases op with
      | plus => exact .plus
      | minus => exact .minus
    exact IsFactor.signed hsign hoperand
  | binary op left right position ihleft ihright =>
    have hlevel := level_le_one op
    rw [Expr.kinds, List.map_append, List.map_cons]
    exact atLevel_binary (atLevel_grouped (Nat.le_of_succ_le hlevel) ihleft)
      (atLevel_grouped hlevel ihright)

theorem isExpression_kinds (e : Expr) : IsExpression e.nesting (e.kinds.map bare) e.unplaced :=
  (atLevel_kinds e).lower (Nat.zero_le _)

mutual

theorem isStatement_kinds (s : Statement) (h : s.Printable) :
    IsStatement s.nesting (s.kinds.map bare) s.unplaced := by
  match s with
  | .empty => exact .empty
  | .assign target value position =>
    exact .assign (bare_names _) (bare_is _) (isExpression_kinds value)
  | .compound body =>
    cases h with
    | compound hne hbody =>
      rw [Statement.kinds, List.map_cons, List.map_append]
      exact .compound (.mk (bare_is _) (separated_kinds body hne hbody) (bare_is _))

/-- Statements are separated by semicolons, unless there are none. -/
theorem separated_kinds (body : List Statement) (hne : body ≠ []) (h : ∀ s ∈ body, s.Printable) :
    Separated .semicolon IsStatement (bodyNesting body) ((bodyKinds body).map bare)
      (unplacedBody body) := by
  match body with
  | [only] =>
    rw [bodyNesting, bodyNesting, Nat.max_zero]
    exact .single (isStatement_kinds only (h only List.mem_cons_self))
  | first :: second :: others =>
    obtain ⟨hfirst, hothers⟩ := List.forall_mem_cons.mp h
    rw [bodyKinds, List.map_append, List.map_cons]
    exact .cons (isStatement_kinds first hfirst) (bare_is _)
      (separated_kinds (second :: others) (List.cons_ne_nil _ _) hothers)

end

theorem isCompound_kinds {body : List Statement} (hne : body ≠ []) (h : ∀ s ∈ body, s.Printable) :
    IsCompound (bodyNesting body + 1)
      ((Kind.terminal .beginBlock :: (bodyKinds body ++ [.terminal .endBlock])).map bare)
      (unplacedBody body) := by
  rw [List.map_cons, List.map_append]
  exact .mk (bare_is _) (separated_kinds body hne h) (bare_is _)

/-! Declarations that are all of one kind are repetitions of their phrases. -/

theorem many_sections {ds : List Declaration} (h : ∀ d ∈ ds, d.isVariable = true) :
    declarationNesting ds = 0 ∧
      ∃ sections, Many IsVariableSection 0 ((declarationKinds ds).map bare) sections ∧
        sections.flatten = unplacedDeclarations ds := by
  induction ds with
  | nil => exact ⟨rfl, [], .nil, rfl⟩
  | cons d ds ih =>
    obtain ⟨hd, hds⟩ := List.forall_mem_cons.mp h
    obtain ⟨hnesting, sections, hsections, hflat⟩ := ih hds
    cases d with
    | procedure => cases hd
    | «variable» name type =>
      have hword : TypeWord (bare (.terminal type.terminal)).kind type := by
        cases type with
        | integer => exact .integer
        | real => exact .real
      have hline := IsVariableLine.mk (.single (.mk (bare_names name.name))) (bare_is .colon) hword
      have hsection : IsVariableSection 0 ((Declaration.variable name type).kinds.map bare)
          [(Declaration.variable name type).unplaced] :=
        .mk (bare_is .var) (.mk hline (bare_is .semicolon)) .nil
      refine ⟨?_, [(Declaration.variable name type).unplaced] :: sections, ?_, ?_⟩
      · rw [declarationNesting, hnesting]
        rfl
      · rw [declarationKinds, List.map_append]
        exact .cons hsection hsections
      · rw [List.flatten_cons, hflat]
        rfl

theorem many_procedures {ds : List Declaration}
    (h : ∀ d ∈ ds, IsProcedure d.nesting (d.kinds.map bare) d.unplaced) :
    Many IsProcedure (declarationNesting ds) ((declarationKinds ds).map bare)
      (unplacedDeclarations ds) := by
  induction ds with
  | nil => exact .nil
  | cons d ds ih =>
    obtain ⟨hd, hds⟩ := List.forall_mem_cons.mp h
    rw [declarationKinds, List.map_append]
    exact .cons hd (ih hds)

theorem declarationKinds_append (ds es : List Declaration) :
    declarationKinds (ds ++ es) = declarationKinds ds ++ declarationKinds es := by
  induction ds with
  | nil => rfl
  | cons d ds ih =>
    rw [List.cons_append, declarationKinds, declarationKinds, ih, List.append_assoc]

theorem declarationNesting_append (ds es : List Declaration) :
    declarationNesting (ds ++ es) = max (declarationNesting ds) (declarationNesting es) := by
  induction ds with
  | nil => rw [List.nil_append, declarationNesting, Nat.zero_max]
  | cons d ds ih =>
    rw [List.cons_append, declarationNesting, declarationNesting, ih, Nat.max_assoc]

/-- A printable block is written as one, if its procedures are. -/
theorem isBlock_kinds {P : Declaration → Prop} {b : Block} (h : b.PrintableOf P)
    (hprocedures : ∀ d ∈ b.declarations, d.isVariable = false →
      IsProcedure d.nesting (d.kinds.map bare) d.unplaced) :
    IsBlock b.nesting (b.kinds.map bare) b.unplaced := by
  obtain @⟨declarations, body, hfirst, -, hne, hbody⟩ := h
  obtain ⟨vars, procs, rfl, hvars, hprocs⟩ := hfirst
  -- sections do not nest, so the nesting is that of the procedures and the body
  obtain ⟨hzero, sections, hsections, hflat⟩ := many_sections hvars
  have hmany := many_procedures fun d hd => hprocedures d (List.mem_append_right _ hd) (hprocs d hd)
  have hblock := BlockOf.mk hsections hmany (isCompound_kinds hne hbody)
  have hunplaced : Block.unplaced ⟨vars ++ procs, body⟩ =
      ⟨sections.flatten ++ unplacedDeclarations procs, unplacedBody body⟩ := by
    rw [hflat, Block.unplaced, unplacedDeclarations_eq, unplacedDeclarations_eq,
      unplacedDeclarations_eq, List.map_append]
  rw [hunplaced, Block.nesting, Block.kinds, blockKinds, declarationNesting_append, hzero,
    declarationKinds_append, List.map_append, List.map_append, List.append_assoc]
  rw [Nat.zero_max] at hblock ⊢
  exact hblock

mutual

theorem isProcedure_kinds (d : Declaration) (h : d.Printable) (hd : d.isVariable = false) :
    IsProcedure d.nesting (d.kinds.map bare) d.unplaced := by
  match d with
  | .procedure name declarations body =>
    cases h with
    | procedure _ hblock =>
      have hphrase := isBlock_kinds hblock (forall_isProcedure declarations hblock.declarations)
      rw [Declaration.kinds, List.map_cons, List.map_cons, List.map_cons, List.map_append]
      exact .mk (bare_is _) (bare_names _) (bare_is _) hphrase (bare_is _)

theorem forall_isProcedure (ds : List Declaration) (h : ∀ d ∈ ds, d.Printable) :
    ∀ d ∈ ds, d.isVariable = false → IsProcedure d.nesting (d.kinds.map bare) d.unplaced := by
  match ds with
  | [] => exact nofun
  | first :: others =>
    obtain ⟨hfirst, hothers⟩ := List.forall_mem_cons.mp h
    exact List.forall_mem_cons.mpr
      ⟨isProcedure_kinds first hfirst, forall_isProcedure others hothers⟩

end

/-- **What is written is the tree.** The tokens of a printable program are a phrase of the
grammar, which is the program itself apart from places, and which nests as deeply as is
counted. -/
theorem isProgram_kinds {p : Program} (h : p.Printable) :
    IsProgram p.nesting (p.kinds.map bare) p.unplaced := by
  have hblock := isBlock_kinds h.block (forall_isProcedure _ h.block.declarations)
  rw [Program.kinds, List.map_cons, List.map_cons, List.map_cons, List.map_append]
  exact .mk (bare_is _) (bare_names _) (bare_is _) hblock (bare_is _)

end Phrase

end MiniPascal
