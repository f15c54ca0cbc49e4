/-
`Blind.lean` -- no stage looks at places.

A rule of the grammar asks a token for its kind. It copies places, into the tree or into
an error, but nothing that it does depends on one. So it does the same on a cursor that
has forgotten all places, and what comes out is the tree or the error without places. The
statement of this is `Blind`, for computations with any state: `x'` on the state without
places does what `x` does, seen without places. It speaks of two computations because the
continuation of a sequence is given values, and those have places too.

Sequences, loops and levels keep the property (`Blind.bind`, `Blind.many`,
`Blind.nested`), so for every rule the proof is the rule read once more. The static pass
and the execution have states without places, and for them the same is an induction over
the tree.
-/
import MiniPascal.Proofs.Stateful
import MiniPascal.Proofs.Unplaced
import MiniPascal.Proofs.Walk
import MiniPascal.Scope.Resolution
import MiniPascal.Execution

set_option autoImplicit false

namespace MiniPascal

/-! ## Computations that do not look -/

/-- What came out, with the value and the state seen through functions and without the
place of an error. -/
def seenThrough {φ σ α β : Type} (f : α → β) (g : σ → σ) :
    EStateM.Result (Error φ) σ α → EStateM.Result (Error φ) σ β
  | .ok a s => .ok (f a) (g s)
  | .error e s => .error e.unplaced (g s)

/-- On a state seen through `g`, the second computation does what the first one does,
seen through `f` and `g`. -/
def Blind {φ σ α β : Type} (g : σ → σ) (f : α → β) (x : EStateM (Error φ) σ α)
    (x' : EStateM (Error φ) σ β) : Prop :=
  ∀ s, x' (g s) = seenThrough f g (x s)

namespace Blind

section

variable {φ σ α β γ δ : Type} {g : σ → σ} {f : α → β} {h : γ → δ}

theorem pure (a : α) : Blind (φ := φ) g f (pure a) (pure (f a)) := by
  intro s
  rfl

theorem bind {x : EStateM (Error φ) σ α} {x' : EStateM (Error φ) σ β}
    {k : α → EStateM (Error φ) σ γ} {k' : β → EStateM (Error φ) σ δ} (hx : Blind g f x x')
    (hk : ∀ a, Blind g h (k a) (k' (f a))) : Blind g h (x >>= k) (x' >>= k') := by
  intro s
  rw [bind_apply, bind_apply, hx s]
  cases x s with
  | ok a s' => exact hk a s'
  | error e s' => rfl

end

/-! ## Single tokens -/

open Rule Cursor

variable {α β γ : Type}

theorem peek : Blind unplaced id Rule.peek Rule.peek := by
  intro c
  rfl

theorem here : Blind unplaced (fun _ => Position.start) Rule.here Rule.here := by
  intro c
  rfl

theorem refuse (f : α → β) (fault : SyntaxFault) :
    Blind unplaced f (Rule.refuse fault) (Rule.refuse fault) := by
  intro c
  rfl

theorem expected (f : α → β) (what : Expectation) :
    Blind unplaced f (Rule.expected what) (Rule.expected what) := by
  intro c
  have hwhat : c.unplaced.unexpected what = (c.unexpected what).unplaced := by
    rw [unexpected, unexpected, kind_unplaced]
    split <;> rfl
  rw [Rule.expected, Rule.expected, hwhat]
  rfl

theorem advance : Blind unplaced Token.unplaced Rule.advance Rule.advance := by
  intro c
  have hread : c.unplaced.stream.read = _ := c.stream.read_unplaced
  rw [Rule.advance, Rule.advance, hread]
  rcases c.stream.read with ⟨answer, rest⟩
  cases answer with
  | error e => rfl
  | ok t =>
    have hnote : note c.unplaced.seen t.unplaced = _ := note_unplaced c.seen t
    dsimp only [unplacedResult]
    rw [hnote]
    rfl

theorem eat (which : Terminal) :
    Blind unplaced Token.unplaced (Rule.eat which) (Rule.eat which) := by
  refine peek.bind fun kind => ?_
  rw [id]
  split
  · exact advance
  · exact expected _ _

theorem identifier : Blind unplaced Identifier.unplaced Rule.identifier Rule.identifier := by
  refine here.bind fun position => peek.bind fun kind => ?_
  cases kind with
  | identifier name => exact advance.bind fun _ => pure _
  | _ => exact expected _ _

/-! ## Levels and loops -/

theorem nested {f : α → β} {x : Rule α} {x' : Rule β} (hx : Blind unplaced f x x') :
    Blind unplaced f (Rule.nested x) (Rule.nested x') := by
  intro c
  -- one level deeper stands another cursor, and the rule is blind there as well
  have hinner := hx { c with depth := c.depth + 1 }
  rw [Rule.nested, Rule.nested, depth_unplaced]
  by_cases hdepth : c.depth < maxNesting
  · rw [if_pos hdepth, if_pos hdepth]
    rw [show x' { c.unplaced with depth := c.depth + 1 } = _ from hinner]
    cases x { c with depth := c.depth + 1 } <;> rfl
  · rw [if_neg hdepth, if_neg hdepth]
    rfl

/-- The induction is on the tokens that are left. -/
theorem many {f : α → β} {select : Kind → Option γ} {item : γ → Rule α} {item' : γ → Rule β}
    (hitem : ∀ selected, Blind unplaced f (item selected) (item' selected)) :
    Blind unplaced (List.map f) (Rule.many select item) (Rule.many select item') := by
  intro c
  induction hleft : c.remaining using Nat.strongRecOn generalizing c with
  | ind n ih =>
    rw [Rule.many, Rule.many, kind_unplaced]
    cases select c.current.kind with
    | none => rfl
    | some selected =>
      dsimp only
      rw [hitem selected c]
      cases item selected c with
      | error e c' => rfl
      | ok a c' =>
        dsimp only [seenThrough]
        -- whether the loop goes on depends on numbers of tokens
        rw [remaining_unplaced, remaining_unplaced]
        by_cases hless : c'.remaining < c.remaining
        · rw [if_pos hless, if_pos hless, ih _ (hleft ▸ hless) c' rfl]
          cases Rule.many select item c' <;> rfl
        · rw [if_neg hless, if_neg hless]
          rfl

/-! ## Expressions -/

theorem chain (operator? : Kind → Option BinaryOperator) {operand : Rule Expr}
    (hoperand : Blind unplaced Expr.unplaced operand operand) :
    Blind unplaced Expr.unplaced (Rule.chain operator? operand) (Rule.chain operator? operand) := by
  refine hoperand.bind fun first => ?_
  refine bind (f := List.map Link.unplaced) (many fun op => ?_) fun links => ?_
  · exact advance.bind fun token => hoperand.bind fun e => pure _
  · rw [chainTree_unplaced]
    exact pure _

theorem expressionOf {factor : Rule Expr} (h : Blind unplaced Expr.unplaced factor factor) :
    Blind unplaced Expr.unplaced (Rule.expressionOf factor) (Rule.expressionOf factor) :=
  chain _ (chain _ h)

theorem factorAt (levels : Nat) :
    Blind unplaced Expr.unplaced (Rule.factorAt levels) (Rule.factorAt levels) := by
  induction levels with
  | zero => exact refuse _ _
  | succ levels ih =>
    refine here.bind fun position => peek.bind fun kind => ?_
    have signed : ∀ op : UnaryOperator, Blind unplaced Expr.unplaced
        (do let _ ← Rule.advance; return .unary op (← Rule.nested (Rule.factorAt levels)) position)
        (do let _ ← Rule.advance; return .unary op (← Rule.nested (Rule.factorAt levels)) .start) :=
      fun op => advance.bind fun _ => (nested ih).bind fun e => pure (Expr.unary op e position)
    cases kind with
    | integerConstant value =>
      exact advance.bind fun _ => pure (Expr.literal (.integer value) position)
    | realConstant value => exact advance.bind fun _ => pure (Expr.literal (.real value) position)
    | identifier name => exact identifier.bind fun x => pure (Expr.variable x)
    | terminal which =>
      cases which with
      | leftParen =>
        exact advance.bind fun _ => (nested (expressionOf ih)).bind fun e =>
          (eat .rightParen).bind fun _ => pure e
      | plus => exact signed .plus
      | minus => exact signed .minus
      | _ => exact expected _ _
    | _ => exact expected _ _

theorem expression : Blind unplaced Expr.unplaced Rule.expression Rule.expression :=
  expressionOf (factorAt _)

/-! ## Statements -/

theorem assignment : Blind unplaced Statement.unplaced Rule.assignment Rule.assignment :=
  identifier.bind fun target => (eat .assign).bind fun mark => expression.bind fun e =>
    pure (Statement.assign target e mark.position)

/-- Lists of statements forget their places one by one. -/
theorem statementList {statement : Rule Statement}
    (h : Blind unplaced Statement.unplaced statement statement) :
    Blind unplaced (List.map Statement.unplaced) (Rule.statementList statement)
      (Rule.statementList statement) := by
  refine h.bind fun first => ?_
  refine bind (f := List.map Statement.unplaced) (many fun _ => ?_) fun others => ?_
  · exact advance.bind fun _ => h
  · refine peek.bind fun kind => ?_
    rw [id]
    split
    · exact (expected id _).bind fun _ => pure (first :: others)
    · exact pure (first :: others)

theorem compoundOf {statement : Rule Statement}
    (h : Blind unplaced Statement.unplaced statement statement) :
    Blind unplaced (List.map Statement.unplaced) (Rule.compoundOf statement)
      (Rule.compoundOf statement) :=
  nested ((eat .beginBlock).bind fun _ => (statementList h).bind fun body =>
    (eat .endBlock).bind fun _ => pure body)

theorem statementAt (levels : Nat) :
    Blind unplaced Statement.unplaced (Rule.statementAt levels) (Rule.statementAt levels) := by
  induction levels with
  | zero => exact refuse _ _
  | succ levels ih =>
    have compound : Blind unplaced Statement.unplaced
        (do return .compound (← Rule.compoundOf (Rule.statementAt levels)))
        (do return .compound (← Rule.compoundOf (Rule.statementAt levels))) := by
      refine (compoundOf ih).bind fun body => ?_
      rw [← unplacedBody_eq]
      exact pure (Statement.compound body)
    refine peek.bind fun kind => ?_
    cases kind with
    | identifier name => exact assignment
    | terminal which =>
      cases which with
      | beginBlock => exact compound
      | _ => exact pure Statement.empty
    | _ => exact pure Statement.empty

theorem compound : Blind unplaced (List.map Statement.unplaced) Rule.compound Rule.compound :=
  compoundOf (statementAt _)

/-! ## Declarations -/

theorem typeName : Blind unplaced id Rule.typeName Rule.typeName := by
  refine peek.bind fun kind => ?_
  cases kind with
  | terminal which =>
    cases which with
    | integer => exact advance.bind fun _ => pure VariableType.integer
    | real => exact advance.bind fun _ => pure VariableType.real
    | _ => exact expected _ _
  | _ => exact expected _ _

theorem variableLine :
    Blind unplaced (List.map Declaration.unplaced) Rule.variableLine Rule.variableLine := by
  refine identifier.bind fun first => ?_
  refine bind (f := List.map Identifier.unplaced) (many fun _ => ?_) fun others => ?_
  · exact advance.bind fun _ => identifier
  · refine (eat .colon).bind fun _ => typeName.bind fun type => ?_
    -- each name is a declaration of its own, so both lists forget name by name
    have hnames : (first.unplaced :: others.map Identifier.unplaced).map
        (fun name => Declaration.variable name type) =
          ((first :: others).map fun name => Declaration.variable name type).map
            Declaration.unplaced := by
      rw [← List.map_cons, List.map_map, List.map_map]
      rfl
    rw [id, hnames]
    exact pure _

theorem flatten_unplaced (first : List Declaration) (others : List (List Declaration)) :
    (first.map Declaration.unplaced :: others.map (List.map Declaration.unplaced)).flatten =
      (first :: others).flatten.map Declaration.unplaced := by
  rw [List.map_flatten, List.map_cons]

theorem variableSection :
    Blind unplaced (List.map Declaration.unplaced) Rule.variableSection Rule.variableSection := by
  have entry : Blind unplaced (List.map Declaration.unplaced)
      (do let declared ← Rule.variableLine; let _ ← Rule.eat .semicolon; return declared)
      (do let declared ← Rule.variableLine; let _ ← Rule.eat .semicolon; return declared) :=
    variableLine.bind fun declared => (eat .semicolon).bind fun _ => pure declared
  refine advance.bind fun _ => entry.bind fun first => ?_
  refine bind (f := List.map (List.map Declaration.unplaced)) (many fun _ => entry) fun others => ?_
  rw [flatten_unplaced]
  exact pure _

theorem blockOf {procedure : Rule Declaration}
    (h : Blind unplaced Declaration.unplaced procedure procedure) :
    Blind unplaced Block.unplaced (Rule.blockOf procedure) (Rule.blockOf procedure) := by
  rw [Rule.blockOf_eq]
  refine bind (f := List.map (List.map Declaration.unplaced)) (many fun _ => variableSection)
    fun sections => ?_
  refine bind (f := List.map Declaration.unplaced) (many fun _ => h) fun procedures => ?_
  refine compound.bind fun body => ?_
  have hblock : Block.unplaced ⟨sections.flatten ++ procedures, body⟩ =
      ⟨(sections.map (List.map Declaration.unplaced)).flatten ++
        procedures.map Declaration.unplaced, body.map Statement.unplaced⟩ := by
    rw [Block.unplaced, unplacedDeclarations_eq, unplacedBody_eq, List.map_append,
      List.map_flatten]
  rw [← hblock]
  exact pure _

theorem procedureAt (levels : Nat) :
    Blind unplaced Declaration.unplaced (Rule.procedureAt levels) (Rule.procedureAt levels) := by
  induction levels with
  | zero => exact refuse _ _
  | succ levels ih =>
    exact (eat .procedure).bind fun _ => identifier.bind fun name => (eat .semicolon).bind fun _ =>
      (nested (blockOf ih)).bind fun block => (eat .semicolon).bind fun _ =>
        pure (Declaration.procedure name block.declarations block.body)

/-! ## Programs -/

theorem program : Blind unplaced Program.unplaced Rule.program Rule.program :=
  (eat .program).bind fun _ => identifier.bind fun name => (eat .semicolon).bind fun _ =>
    (blockOf (procedureAt _)).bind fun block => (eat .dot).bind fun _ =>
      pure (Program.mk name block)

/-- The rule for programs does not look at places. -/
theorem wholeProgram : Blind unplaced Program.unplaced Rule.wholeProgram Rule.wholeProgram := by
  refine program.bind fun parsed => peek.bind fun kind => ?_
  rw [id]
  split
  · exact pure parsed
  · exact refuse _ _

end Blind

/-! ## The static pass -/

namespace Resolve

variable {scope : ScopeId}

theorem blind_identifier (x : Identifier) :
    Blind id id (identifier scope x) (identifier scope x.unplaced) := by
  intro r
  have hname : x.unplaced.name = x.name := rfl
  rw [id, identifier, identifier, hname]
  cases r.scopes.lookup scope x.name <;> rfl

theorem blind_expr (e : Expr) : Blind id id (expr scope e) (expr scope e.unplaced) := by
  induction e with
  | literal value position => exact Blind.pure _
  | «variable» x => exact blind_identifier x
  | binary op left right position ihleft ihright => exact ihleft.bind fun _ => ihright
  | unary op operand position ih => exact ih

mutual

theorem blind_statement (s : Statement) :
    Blind id id (statement scope s) (statement scope s.unplaced) := by
  match s with
  | .empty => exact Blind.pure _
  | .assign target value position =>
    exact (blind_expr value).bind fun _ => blind_identifier target
  | .compound body => exact blind_statements body

theorem blind_statements (body : List Statement) :
    Blind id id (statements scope body) (statements scope (unplacedBody body)) := by
  match body with
  | [] => exact Blind.pure _
  | first :: others => exact (blind_statement first).bind fun _ => blind_statements others

end

theorem blind_declare (symbol : Symbol) (position : Position) :
    Blind id id (declare scope symbol position) (declare scope symbol .start) := by
  intro r
  rw [id, declare, declare]
  cases r.scopes.insert? scope symbol <;> rfl

theorem blind_enter (name : String) (enclosing : Option ScopeId) :
    Blind id id (enter name enclosing) (enter name enclosing) := by
  intro r
  rfl

theorem blind_leave : Blind id id leave leave := by
  intro r
  rw [id, leave]
  rcases r.scopes.pop with ⟨_ | table, scopes⟩ <;> rfl

mutual

theorem blind_declaration (scope : ScopeId) (d : Declaration) :
    Blind id id (declaration scope d) (declaration scope d.unplaced) := by
  match d with
  | .variable name type => exact blind_declare _ _
  | .procedure name inner body =>
    exact (blind_declare _ _).bind fun _ => (blind_enter _ _).bind fun own =>
      (blind_declarations own inner).bind fun _ => (blind_statements body).bind fun _ => blind_leave

theorem blind_declarations (scope : ScopeId) (ds : List Declaration) :
    Blind id id (declarations scope ds) (declarations scope (unplacedDeclarations ds)) := by
  match ds with
  | [] => exact Blind.pure _
  | first :: others =>
    exact (blind_declaration scope first).bind fun _ => blind_declarations scope others

end

/-- The static pass does not look at places. -/
theorem blind_program (p : Program) : Blind id id (program p) (program p.unplaced) := by
  have hreset : Blind id id (set Resolver.fresh : Resolve PUnit) (set Resolver.fresh) :=
    fun _ => rfl
  exact hreset.bind fun _ => (blind_enter _ _).bind fun own =>
    (blind_declarations own _).bind fun _ => (blind_statements _).bind fun _ => blind_leave

end Resolve

/-! ## Execution -/

theorem Expr.value_unplaced (e : Expr) (s : Store) :
    e.unplaced.value s = unplacedResult id (e.value s) := by
  have hlocated : ∀ position outcome, Number.located .start outcome =
      unplacedResult id (Number.located position outcome) := by
    intro position outcome
    cases outcome <;> rfl
  induction e with
  | literal value position => rfl
  | «variable» x =>
    rw [unplaced, value, value, Identifier.unplaced]
    cases s.get? x.name <;> rfl
  | unary op operand position ih =>
    rw [unplaced, value, value, ih]
    cases operand.value s with
    | error e => rfl
    | ok a => exact hlocated position _
  | binary op left right position ihleft ihright =>
    rw [unplaced, value, value, ihleft, ihright]
    cases left.value s with
    | error e => rfl
    | ok a =>
      cases right.value s with
      | error e => rfl
      | ok b => exact hlocated position _

namespace Execute

theorem blind_assign (target : Identifier) (e : Expr) :
    Blind id id (assign target e) (assign target.unplaced e.unplaced) := by
  intro m
  rw [id, assign, assign, Expr.value_unplaced]
  cases e.value m.store <;> rfl

mutual

theorem blind_statement (s : Statement) : Blind id id (statement s) (statement s.unplaced) := by
  match s with
  | .empty => exact Blind.pure _
  | .assign target value position => exact blind_assign target value
  | .compound body => exact blind_statements body

theorem blind_statements (body : List Statement) :
    Blind id id (statements body) (statements (unplacedBody body)) := by
  match body with
  | [] => exact Blind.pure _
  | first :: others => exact (blind_statement first).bind fun _ => blind_statements others

end

/-- An execution does not look at places. -/
theorem blind_program (p : Program) : Blind id id (program p) (program p.unplaced) :=
  blind_statements _

end Execute

end MiniPascal
