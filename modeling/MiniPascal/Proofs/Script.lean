/-
`Script.lean` -- the rules of the grammar, written down.

A rule is a function from a cursor to a result, and a function does not tell what happens
while it is computed. A `Script` is a rule as an expression: it names the operations on the
cursor and the ways of combining them, and `Script.run` is the rule that it denotes. So a
script has a run and, besides, a trail, which is all cursors that the run goes through
(`Script.trail`). That none is left out can be checked, for a trail is a path of single moves
from the first cursor to the last (`Script.path_trail`).

What single operations do, and sequences and levels pass on, holds of every script and every
trail (`Script.trail_induction`). It holds of the rules of the grammar because each of them has
a script. The second half writes these down; each is the text of its rule over again, and the
equation behind it says that it denotes that rule. `Routine` collects them.
-/
import MiniPascal.Grammar.Program
import MiniPascal.Proofs.Stateful

set_option autoImplicit false

namespace MiniPascal

/-! ## Scripts -/

/-- A rule as an expression. -/
inductive Script : Type → Type 1 where
  | pure {α : Type} (a : α) : Script α
  | bind {α β : Type} (first : Script β) (next : β → Script α) : Script α
  | peek : Script Kind
  | here : Script Position
  | refuse {α : Type} (fault : SyntaxFault) : Script α
  | expected {α : Type} (what : Expectation) : Script α
  | advance : Script Token
  | nested {α : Type} (body : Script α) : Script α
  | many {α β : Type} (select : Kind → Option β) (item : β → Script α) : Script (List α)

namespace Script

instance : Monad Script where
  pure := Script.pure
  bind := Script.bind

/-- The rule that a script denotes. -/
def run {α : Type} : Script α → Rule α
  | pure a => return a
  | bind first next => do (next (← first.run)).run
  | peek => Rule.peek
  | here => Rule.here
  | refuse fault => Rule.refuse fault
  | expected what => Rule.expected what
  | advance => Rule.advance
  | nested body => Rule.nested body.run
  | many select item => Rule.many select fun b => (item b).run

/-! ## Trails -/

/-- The cursors that a loop goes through, given those of each round. -/
def loopTrail {α β : Type} (select : Kind → Option β) (item : β → Rule α)
    (trail : β → Cursor → List Cursor) (c : Cursor) : List Cursor :=
  match select c.current.kind with
  | none => [c]
  | some b =>
    match item b c with
    | .error _ _ => trail b c
    | .ok _ c' =>
      if c'.remaining < c.remaining then trail b c ++ loopTrail select item trail c'
      else trail b c
termination_by c.remaining

/-- The cursors that a run goes through, from the one it starts with to the one it leaves. -/
def trail {α : Type} : Script α → Cursor → List Cursor
  | bind first next, c =>
    match first.run c with
    | .ok b d => first.trail c ++ (next b).trail d
    | .error _ _ => first.trail c
  | advance, c => [c, stateAfter (Rule.advance c)]
  | nested body, c =>
    if c.depth < maxNesting then
      c :: (body.trail { c with depth := c.depth + 1 } ++ [stateAfter (Rule.nested body.run c)])
    else [c]
  | many select item, c => loopTrail select (fun b => (item b).run) (fun b => (item b).trail) c
  | pure _, c => [c]
  | peek, c => [c]
  | here, c => [c]
  | refuse _, c => [c]
  | expected _, c => [c]

/-- A level that can be entered is left with the outcome of the rule inside. -/
theorem nested_apply {α : Type} (rule : Rule α) {c : Cursor} (h : c.depth < maxNesting) :
    Rule.nested rule c =
      mapState (fun d => { d with depth := d.depth - 1 })
        (rule { c with depth := c.depth + 1 }) := by
  rw [Rule.nested, if_pos h]
  cases rule { c with depth := c.depth + 1 } <;> rfl

theorem exists_unexpected_eq (c : Cursor) (what : Expectation) :
    ∃ f, c.unexpected what = c.fault f := by
  unfold Cursor.unexpected
  split
  · exact ⟨_, rfl⟩
  · exact ⟨_, rfl⟩

/-- What is so of single operations, and what sequences and levels pass on, is so of whole
runs: here of the cursor that a run starts with, its trail, the error it stops with, if it
does, and the cursor it leaves. The induction is on the script, and in a loop on the tokens
that are left. -/
theorem trail_induction {P : Cursor → List Cursor → Option (Error ReadingFault) → Cursor → Prop}
    (stay : ∀ c, P c [c] none c) (fail : ∀ c f, P c [c] (some (c.fault f)) c)
    (read : ∀ c, P c [c, stateAfter (Rule.advance c)] (failure? (Rule.advance c))
      (stateAfter (Rule.advance c)))
    (append : ∀ {c l d l' o e}, P c l none d → P d l' o e → P c (l ++ l') o e)
    (level : ∀ {c l o d}, c.depth < maxNesting → P { c with depth := c.depth + 1 } l o d →
      P c (c :: (l ++ [{ d with depth := d.depth - 1 }])) o { d with depth := d.depth - 1 })
    {α : Type} (x : Script α) (c : Cursor) :
    P c (x.trail c) (failure? (x.run c)) (stateAfter (x.run c)) := by
  induction x generalizing c with
  | pure | peek | here => exact stay c
  | refuse f => exact fail c f
  | expected what =>
    obtain ⟨f, hf⟩ := exists_unexpected_eq c what
    rw [run, Rule.expected, hf]
    exact fail c f
  | advance => exact read c
  | bind first next ihfirst ihnext =>
    have hfirst := ihfirst c
    rw [trail, run, bind_apply]
    cases hrun : first.run c with
    | error e d =>
      rw [hrun] at hfirst
      exact hfirst
    | ok b d =>
      rw [hrun] at hfirst
      exact append hfirst (ihnext b d)
  | nested body ih =>
    rw [trail, run]
    by_cases hdepth : c.depth < maxNesting
    · have hbody := level hdepth (ih { c with depth := c.depth + 1 })
      rw [if_pos hdepth, nested_apply body.run hdepth]
      cases hrun : body.run { c with depth := c.depth + 1 } <;>
      · rw [hrun] at hbody
        exact hbody
    · rw [if_neg hdepth, Rule.nested, if_neg hdepth]
      exact fail c _
  | many select item ih =>
    rw [trail, run]
    induction hleft : c.remaining using Nat.strongRecOn generalizing c with
    | ind n ihleft =>
      rw [loopTrail, Rule.many]
      cases select c.current.kind with
      | none => exact stay c
      | some b =>
        have hitem := ih b c
        dsimp only
        cases hrun : (item b).run c with
        | error e d =>
          rw [hrun] at hitem
          exact hitem
        | ok a d =>
          rw [hrun] at hitem
          dsimp only
          -- the loop goes on only if the round has read something
          by_cases hless : d.remaining < c.remaining
          · rw [if_pos hless, if_pos hless]
            have hrest := ihleft d.remaining (hleft ▸ hless) d rfl
            cases hmore : Rule.many select (fun b => (item b).run) d <;>
            · rw [hmore] at hrest
              exact append hitem hrest
          · rw [if_neg hless, if_neg hless]
            exact hitem

/-! ## Trails are paths -/

end Script

namespace Cursor

/-- What happens to a cursor at once: nothing, the reading of one answer, or that it enters
a level or leaves one. -/
inductive Moves : Cursor → Cursor → Prop
  | stay (c : Cursor) : Moves c c
  | read (c : Cursor) : Moves c (stateAfter (Rule.advance c))
  | enter {c : Cursor} : c.depth < maxNesting → Moves c { c with depth := c.depth + 1 }
  | leave (c : Cursor) : Moves c { c with depth := c.depth - 1 }

/-- Cursors from the first to the last, each one move behind the one before it. -/
inductive Path : Cursor → List Cursor → Cursor → Prop
  | here (c : Cursor) : Path c [c] c
  | cons {c d e : Cursor} {l : List Cursor} : Moves c d → Path d l e → Path c (c :: l) e

theorem Path.append {c d e : Cursor} {l l' : List Cursor} (h : Path c l d) (h' : Path d l' e) :
    Path c (l ++ l') e := by
  induction h with
  | here c => exact .cons (.stay c) h'
  | cons hmove _ ih => exact .cons hmove (ih h')

theorem Path.concat {c d e : Cursor} {l : List Cursor} (h : Path c l d) (hmove : Moves d e) :
    Path c (l ++ [e]) e := by
  induction h with
  | here c => exact .cons hmove (.here e)
  | cons hfirst _ ih => exact .cons hfirst (ih hmove)

end Cursor

namespace Script

open Cursor

/-- The trail of a run is a path: no cursor that the run goes through is left out of it. -/
theorem path_trail {α : Type} (x : Script α) (c : Cursor) :
    Path c (x.trail c) (stateAfter (x.run c)) := by
  refine trail_induction (P := fun c l _ d => Path c l d) .here (fun c _ => .here c)
    (fun c => .cons (.read c) (.here _)) .append ?_ x c
  intro c l o d hdepth hpath
  exact .cons (.enter hdepth) (hpath.concat (.leave d))

/-! ## What scripts denote

The proofs below read a rule and its script side by side. -/

section

variable {α β : Type}

theorem run_bind {x : Script β} {f : β → Script α} {rule : Rule β} {g : β → Rule α}
    (hx : x.run = rule) (hf : ∀ b, (f b).run = g b) : (x >>= f).run = (rule >>= g) := by
  subst hx
  obtain rfl : (fun b => (f b).run) = g := funext hf
  rfl

theorem run_nested {x : Script α} {rule : Rule α} (hx : x.run = rule) :
    (nested x).run = Rule.nested rule := by
  subst hx
  rfl

theorem run_many {select : Kind → Option β} {item : β → Script α} {item' : β → Rule α}
    (hitem : ∀ b, (item b).run = item' b) : (many select item).run = Rule.many select item' := by
  obtain rfl : (fun b => (item b).run) = item' := funext hitem
  rfl

end

/-! ### Single tokens -/

/-- The script of `Rule.eat`. -/
def eat (which : Terminal) : Script Token := do
  if (← peek).alike (.terminal which) then advance else expected (.terminal which)

theorem run_eat (which : Terminal) : (eat which).run = Rule.eat which := by
  refine run_bind rfl fun kind => ?_
  split <;> rfl

/-- The script of `Rule.identifier`. -/
def identifier : Script Identifier := do
  let position ← here
  match ← peek with
  | .identifier name =>
    let _ ← advance
    return ⟨name, position⟩
  | _ => expected .identifier

theorem run_identifier : identifier.run = Rule.identifier := by
  refine run_bind rfl fun position => run_bind rfl fun kind => ?_
  cases kind <;> rfl

/-! ### Expressions -/

/-- The script of `Rule.chain`. -/
def chain (operator? : Kind → Option BinaryOperator) (operand : Script Expr) : Script Expr := do
  let first ← operand
  let links ← many operator? fun op => do
    let token ← advance
    return (⟨op, token.position, ← operand⟩ : Rule.Link)
  return Rule.chainTree first links

theorem run_chain (operator? : Kind → Option BinaryOperator) {operand : Script Expr}
    {rule : Rule Expr} (h : operand.run = rule) :
    (chain operator? operand).run = Rule.chain operator? rule :=
  run_bind h fun _ => run_bind (run_many fun _ => run_bind rfl fun _ => run_bind h fun _ => rfl)
    fun _ => rfl

/-- The script of `Rule.termOf`. -/
def termOf (factor : Script Expr) : Script Expr := chain Rule.multiplicative? factor

/-- The script of `Rule.expressionOf`. -/
def expressionOf (factor : Script Expr) : Script Expr := chain Rule.additive? (termOf factor)

theorem run_termOf {factor : Script Expr} {rule : Rule Expr} (h : factor.run = rule) :
    (termOf factor).run = Rule.termOf rule := run_chain _ h

theorem run_expressionOf {factor : Script Expr} {rule : Rule Expr} (h : factor.run = rule) :
    (expressionOf factor).run = Rule.expressionOf rule := run_chain _ (run_termOf h)

/-- The script of `Rule.factorAt`. -/
def factorAt : Nat → Script Expr
  | 0 => refuse (.nestingTooDeep maxNesting)
  | levels + 1 => do
    let position ← here
    match ← peek with
    | .integerConstant value =>
      let _ ← advance
      return .literal (.integer value) position
    | .realConstant value =>
      let _ ← advance
      return .literal (.real value) position
    | .identifier _ => return .variable (← identifier)
    | .terminal .leftParen =>
      let _ ← advance
      let inner ← nested (expressionOf (factorAt levels))
      let _ ← eat .rightParen
      return inner
    | kind =>
      match Rule.sign? kind with
      | some op =>
        let _ ← advance
        return .unary op (← nested (factorAt levels)) position
      | none => expected .expression

theorem run_factorAt (levels : Nat) : (factorAt levels).run = Rule.factorAt levels := by
  induction levels with
  | zero => rfl
  | succ levels ih =>
    refine run_bind rfl fun position => run_bind rfl fun kind => ?_
    have signed : ∀ op : UnaryOperator,
        Script.run (do
            let _ ← advance
            return Expr.unary op (← nested (factorAt levels)) position) =
          (do
            let _ ← Rule.advance
            return Expr.unary op (← Rule.nested (Rule.factorAt levels)) position) :=
      fun op => run_bind rfl fun _ => run_bind (run_nested ih) fun _ => rfl
    cases kind with
    | identifier name => exact run_bind run_identifier fun _ => rfl
    | terminal which =>
      cases which with
      | leftParen =>
        exact run_bind rfl fun _ => run_bind (run_nested (run_expressionOf ih)) fun _ =>
          run_bind (run_eat .rightParen) fun _ => rfl
      | plus => exact signed .plus
      | minus => exact signed .minus
      | _ => rfl
    | _ => rfl

/-- The script of `Rule.expression`. -/
def expression : Script Expr := expressionOf (factorAt (maxNesting + 1))

theorem run_expression : expression.run = Rule.expression :=
  run_expressionOf (run_factorAt _)

/-! ### Statements -/

/-- The script of `Rule.assignment`. -/
def assignment : Script Statement := do
  let target ← identifier
  let mark ← eat .assign
  return .assign target (← expression) mark.position

theorem run_assignment : assignment.run = Rule.assignment :=
  run_bind run_identifier fun _ => run_bind (run_eat .assign) fun _ =>
    run_bind run_expression fun _ => rfl

/-- The script of `Rule.statementList`. -/
def statementList (statement : Script Statement) : Script (List Statement) := do
  let first ← statement
  let others ← many (Rule.on .semicolon) fun _ => do
    let _ ← advance
    statement
  if (Rule.onIdentifier (← peek)).isSome then expected .separatorOrEnd
  return first :: others

theorem run_statementList {statement : Script Statement} {rule : Rule Statement}
    (h : statement.run = rule) : (statementList statement).run = Rule.statementList rule := by
  refine run_bind h fun first => run_bind (run_many fun _ => run_bind rfl fun _ => h) fun others =>
    run_bind rfl fun kind => ?_
  split <;> rfl

/-- The script of `Rule.compoundOf`. -/
def compoundOf (statement : Script Statement) : Script (List Statement) := nested do
  let _ ← eat .beginBlock
  let body ← statementList statement
  let _ ← eat .endBlock
  return body

theorem run_compoundOf {statement : Script Statement} {rule : Rule Statement}
    (h : statement.run = rule) : (compoundOf statement).run = Rule.compoundOf rule :=
  run_nested (run_bind (run_eat .beginBlock) fun _ => run_bind (run_statementList h) fun _ =>
    run_bind (run_eat .endBlock) fun _ => rfl)

/-- The script of `Rule.statementAt`. -/
def statementAt : Nat → Script Statement
  | 0 => refuse (.nestingTooDeep maxNesting)
  | levels + 1 => do
    match ← peek with
    | .terminal .beginBlock => return .compound (← compoundOf (statementAt levels))
    | .identifier _ => assignment
    | _ => return .empty

theorem run_statementAt (levels : Nat) : (statementAt levels).run = Rule.statementAt levels := by
  induction levels with
  | zero => rfl
  | succ levels ih =>
    refine run_bind rfl fun kind => ?_
    cases kind with
    | identifier name => exact run_assignment
    | terminal which =>
      cases which with
      | beginBlock => exact run_bind (run_compoundOf ih) fun _ => rfl
      | _ => rfl
    | _ => rfl

/-- The script of `Rule.compound`. -/
def compound : Script (List Statement) := compoundOf (statementAt (maxNesting + 1))

theorem run_compound : compound.run = Rule.compound := run_compoundOf (run_statementAt _)

/-! ### Declarations -/

/-- The script of `Rule.typeName`. -/
def typeName : Script VariableType := do
  match ← peek with
  | .terminal .integer => let _ ← advance; return .integer
  | .terminal .real => let _ ← advance; return .real
  | _ => expected .typeName

theorem run_typeName : typeName.run = Rule.typeName := by
  refine run_bind rfl fun kind => ?_
  cases kind with
  | terminal which => cases which <;> rfl
  | _ => rfl

/-- The script of `Rule.variableLine`. -/
def variableLine : Script (List Declaration) := do
  let first ← identifier
  let others ← many (Rule.on .comma) fun _ => do
    let _ ← advance
    identifier
  let _ ← eat .colon
  let type ← typeName
  return (first :: others).map fun name => .variable name type

theorem run_variableLine : variableLine.run = Rule.variableLine :=
  run_bind run_identifier fun _ =>
    run_bind (run_many fun _ => run_bind rfl fun _ => run_identifier) fun _ =>
      run_bind (run_eat .colon) fun _ => run_bind run_typeName fun _ => rfl

/-- The script of `Rule.variableSection`. -/
def variableSection : Script (List Declaration) := do
  let _ ← advance
  let line : Script (List Declaration) := do
    let declared ← variableLine
    let _ ← eat .semicolon
    return declared
  let first ← line
  let others ← many Rule.onIdentifier fun _ => line
  return (first :: others).flatten

theorem run_variableSection : variableSection.run = Rule.variableSection := by
  have hline : Script.run (do
        let declared ← variableLine
        let _ ← eat .semicolon
        return declared) =
      (do
        let declared ← Rule.variableLine
        let _ ← Rule.eat .semicolon
        return declared) :=
    run_bind run_variableLine fun _ => run_bind (run_eat .semicolon) fun _ => rfl
  exact run_bind rfl fun _ => run_bind hline fun _ =>
    run_bind (run_many fun _ => hline) fun _ => rfl

/-- The script of `Rule.declarationsOf`. -/
def declarationsOf (procedure : Script Declaration) : Script (List Declaration) := do
  let sections ← many (Rule.on .var) fun _ => variableSection
  let procedures ← many (Rule.on .procedure) fun _ => procedure
  return sections.flatten ++ procedures

theorem run_declarationsOf {procedure : Script Declaration} {rule : Rule Declaration}
    (h : procedure.run = rule) : (declarationsOf procedure).run = Rule.declarationsOf rule :=
  run_bind (run_many fun _ => run_variableSection) fun _ => run_bind (run_many fun _ => h) fun _ =>
    rfl

/-- The script of `Rule.blockOf`. -/
def blockOf (procedure : Script Declaration) : Script Block := do
  return ⟨← declarationsOf procedure, ← compound⟩

theorem run_blockOf {procedure : Script Declaration} {rule : Rule Declaration}
    (h : procedure.run = rule) : (blockOf procedure).run = Rule.blockOf rule :=
  run_bind (run_declarationsOf h) fun _ => run_bind run_compound fun _ => rfl

/-- The script of `Rule.procedureAt`. -/
def procedureAt : Nat → Script Declaration
  | 0 => refuse (.nestingTooDeep maxNesting)
  | levels + 1 => do
    let _ ← eat .procedure
    let name ← identifier
    let _ ← eat .semicolon
    let block ← nested (blockOf (procedureAt levels))
    let _ ← eat .semicolon
    return .procedure name block.declarations block.body

theorem run_procedureAt (levels : Nat) : (procedureAt levels).run = Rule.procedureAt levels := by
  induction levels with
  | zero => rfl
  | succ levels ih =>
    exact run_bind (run_eat .procedure) fun _ => run_bind run_identifier fun _ =>
      run_bind (run_eat .semicolon) fun _ => run_bind (run_nested (run_blockOf ih)) fun _ =>
        run_bind (run_eat .semicolon) fun _ => rfl

/-- The script of `Rule.block`. -/
def block : Script Block := blockOf (procedureAt (maxNesting + 1))

theorem run_block : block.run = Rule.block := run_blockOf (run_procedureAt _)

/-! ### Programs -/

/-- The script of `Rule.program`. -/
def program : Script Program := do
  let _ ← eat .program
  let name ← identifier
  let _ ← eat .semicolon
  let block ← block
  let _ ← eat .dot
  return ⟨name, block⟩

theorem run_program : program.run = Rule.program :=
  run_bind (run_eat .program) fun _ => run_bind run_identifier fun _ =>
    run_bind (run_eat .semicolon) fun _ => run_bind run_block fun _ =>
      run_bind (run_eat .dot) fun _ => rfl

/-- The script of `Rule.wholeProgram`. -/
def wholeProgram : Script Program := do
  let parsed ← program
  let kind ← peek
  if kind.isEnd then return parsed else refuse (.trailingTokens kind)

theorem run_wholeProgram : wholeProgram.run = Rule.wholeProgram := by
  refine run_bind run_program fun parsed => run_bind rfl fun kind => ?_
  split <;> rfl

end Script

/-! ## Routines -/

/-- The routines of the grammar. One that is recursive in a number of levels is given that
number, so these are also all the calls that a routine makes. -/
inductive Routine : Type → Type
  | advance : Routine Token
  | eat (which : Terminal) : Routine Token
  | identifier : Routine Identifier
  | factor (levels : Nat) : Routine Expr
  | term (levels : Nat) : Routine Expr
  | expression (levels : Nat) : Routine Expr
  | assignment : Routine Statement
  | statement (levels : Nat) : Routine Statement
  | statementList (levels : Nat) : Routine (List Statement)
  | compound (levels : Nat) : Routine (List Statement)
  | typeName : Routine VariableType
  | variableLine : Routine (List Declaration)
  | variableSection : Routine (List Declaration)
  | procedure (levels : Nat) : Routine Declaration
  | declarations (levels : Nat) : Routine (List Declaration)
  | block (levels : Nat) : Routine Block
  | program : Routine Program
  | wholeProgram : Routine Program

namespace Routine

variable {α : Type}

/-- The rule of a routine. -/
def rule : Routine α → Rule α
  | advance => Rule.advance
  | eat which => Rule.eat which
  | identifier => Rule.identifier
  | factor levels => Rule.factorAt levels
  | term levels => Rule.termOf (Rule.factorAt levels)
  | expression levels => Rule.expressionOf (Rule.factorAt levels)
  | assignment => Rule.assignment
  | statement levels => Rule.statementAt levels
  | statementList levels => Rule.statementList (Rule.statementAt levels)
  | compound levels => Rule.compoundOf (Rule.statementAt levels)
  | typeName => Rule.typeName
  | variableLine => Rule.variableLine
  | variableSection => Rule.variableSection
  | procedure levels => Rule.procedureAt levels
  | declarations levels => Rule.declarationsOf (Rule.procedureAt levels)
  | block levels => Rule.blockOf (Rule.procedureAt levels)
  | program => Rule.program
  | wholeProgram => Rule.wholeProgram

/-- The script of a routine. -/
def script : Routine α → Script α
  | advance => .advance
  | eat which => .eat which
  | identifier => .identifier
  | factor levels => .factorAt levels
  | term levels => .termOf (.factorAt levels)
  | expression levels => .expressionOf (.factorAt levels)
  | assignment => .assignment
  | statement levels => .statementAt levels
  | statementList levels => .statementList (.statementAt levels)
  | compound levels => .compoundOf (.statementAt levels)
  | typeName => .typeName
  | variableLine => .variableLine
  | variableSection => .variableSection
  | procedure levels => .procedureAt levels
  | declarations levels => .declarationsOf (.procedureAt levels)
  | block levels => .blockOf (.procedureAt levels)
  | program => .program
  | wholeProgram => .wholeProgram

open Script in
/-- Every routine has a script. -/
theorem run_script (r : Routine α) : r.script.run = r.rule := by
  cases r with
  | advance => rfl
  | eat which => exact run_eat which
  | identifier => exact run_identifier
  | factor levels => exact run_factorAt levels
  | term levels => exact run_termOf (run_factorAt levels)
  | expression levels => exact run_expressionOf (run_factorAt levels)
  | assignment => exact run_assignment
  | statement levels => exact run_statementAt levels
  | statementList levels => exact run_statementList (run_statementAt levels)
  | compound levels => exact run_compoundOf (run_statementAt levels)
  | typeName => exact run_typeName
  | variableLine => exact run_variableLine
  | variableSection => exact run_variableSection
  | procedure levels => exact run_procedureAt levels
  | declarations levels => exact run_declarationsOf (run_procedureAt levels)
  | block levels => exact run_blockOf (run_procedureAt levels)
  | program => exact run_program
  | wholeProgram => exact run_wholeProgram

end Routine

end MiniPascal
