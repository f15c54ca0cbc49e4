/-
`Lookahead.lean` -- what a rule decides by the current token.

A rule never looks further than one token, and it looks at nothing of that token but
its kind. Here each decision is stated once: which kinds select an operator or a
further round of a loop, and with what a factor, a statement or a type word goes
on once its first token is known. The right-hand sides are the rest of the rule, so
that both directions of the correspondence with the grammar can start from them.
-/
import MiniPascal.Proofs.Walk

set_option autoImplicit false

namespace MiniPascal

open Phrase

namespace Rule

/-! ## Selections -/

theorem on_eq_some_iff {which : Terminal} {kind : Kind} {u : Unit} :
    on which kind = some u ↔ kind = .terminal which := by
  unfold on
  rw [← Kind.alike_terminal_iff]
  split <;> simp_all

theorem onIdentifier_eq_some_iff {kind : Kind} {u : Unit} :
    onIdentifier kind = some u ↔ ∃ name, kind = .identifier name := by
  cases kind <;> simp [onIdentifier]

theorem additive?_eq_some_iff {kind : Kind} {op : BinaryOperator} :
    additive? kind = some op ↔ Additive kind op := by
  constructor
  · intro h
    unfold additive? at h
    split at h <;> cases h
    · exact .plus
    · exact .minus
  · rintro ⟨⟩ <;> rfl

theorem multiplicative?_eq_some_iff {kind : Kind} {op : BinaryOperator} :
    multiplicative? kind = some op ↔ Multiplicative kind op := by
  constructor
  · intro h
    unfold multiplicative? at h
    split at h <;> cases h
    · exact .times
    · exact .div
    · exact .slash
  · rintro ⟨⟩ <;> rfl

/-! ## First tokens -/

variable {levels : Nat} {c : Cursor}

/-! A factor is told by its first token. -/

theorem factorAt_sign {t : Token} {op : UnaryOperator} (hc : c.current = t)
    (h : Sign t.kind op) :
    factorAt (levels + 1) c = (do
      let _ ← advance
      return .unary op (← nested (factorAt levels)) t.position : Rule Expr) c := by
  rw [factorAt, here_bind, peek_bind, hc]
  generalize t.kind = kind at h
  cases h <;> rfl

theorem factorAt_group {t : Token} (hc : c.current = t) (h : t.Is .leftParen) :
    factorAt (levels + 1) c = (do
      let _ ← advance
      let inner ← nested (expressionOf (factorAt levels))
      let _ ← eat .rightParen
      return inner : Rule Expr) c := by
  rw [factorAt, here_bind, peek_bind, hc, show t.kind = .terminal .leftParen from h]

theorem factorAt_integer {t : Token} {value : Int64} (hc : c.current = t)
    (h : t.kind = .integerConstant value) :
    factorAt (levels + 1) c = (do
      let _ ← advance
      return .literal (.integer value) t.position : Rule Expr) c := by
  rw [factorAt, here_bind, peek_bind, hc, h]

theorem factorAt_real {t : Token} {value : Float} (hc : c.current = t)
    (h : t.kind = .realConstant value) :
    factorAt (levels + 1) c = (do
      let _ ← advance
      return .literal (.real value) t.position : Rule Expr) c := by
  rw [factorAt, here_bind, peek_bind, hc, h]

theorem factorAt_variable {t : Token} {name : String} (hc : c.current = t) (h : t.Names name) :
    factorAt (levels + 1) c = (return .variable (← identifier) : Rule Expr) c := by
  rw [factorAt, here_bind, peek_bind, hc, show t.kind = .identifier name from h]

/-- With what a factor can begin. These are the five forms, and there is no other. -/
inductive FactorStart (t : Token) : Prop
  | sign {op : UnaryOperator} : Sign t.kind op → FactorStart t
  | group : t.Is .leftParen → FactorStart t
  | integer {value : Int64} : t.kind = .integerConstant value → FactorStart t
  | real {value : Float} : t.kind = .realConstant value → FactorStart t
  | name {name : String} : t.Names name → FactorStart t
  | other : (∀ levels c, c.current = t → factorAt (levels + 1) c = expected .expression c) →
      FactorStart t

theorem factorStart (t : Token) : FactorStart t := by
  have hother : ∀ kind, t.kind = kind →
      (∀ levels c, c.current.kind = kind → factorAt (levels + 1) c = expected .expression c) →
      FactorStart t :=
    fun _ hkind h => .other fun levels c hc => h levels c (hc ▸ hkind)
  cases hkind : t.kind with
  | integerConstant value => exact .integer hkind
  | realConstant value => exact .real hkind
  | identifier name => exact .name hkind
  | terminal which =>
    cases which with
    | leftParen => exact .group hkind
    | plus => exact .sign (hkind ▸ Sign.plus)
    | minus => exact .sign (hkind ▸ Sign.minus)
    | _ =>
      refine hother _ hkind fun levels c hc => ?_
      rw [factorAt, here_bind, peek_bind, hc]
      rfl
  | _ =>
    refine hother _ hkind fun levels c hc => ?_
    rw [factorAt, here_bind, peek_bind, hc]
    rfl

/-! A statement is told by its first token too. -/

theorem statementAt_compound (h : c.current.Is .beginBlock) :
    statementAt (levels + 1) c
      = (return .compound (← compoundOf (statementAt levels)) : Rule Statement) c := by
  rw [statementAt, peek_bind, show c.current.kind = .terminal .beginBlock from h]

theorem statementAt_assignment {name : String} (h : c.current.Names name) :
    statementAt (levels + 1) c = assignment c := by
  rw [statementAt, peek_bind, show c.current.kind = .identifier name from h]

theorem statementAt_empty (hcompound : ¬ c.current.Is .beginBlock)
    (hname : ∀ name, ¬ c.current.Names name) :
    statementAt (levels + 1) c = .ok .empty c := by
  rw [statementAt, peek_bind]
  cases hkind : c.current.kind with
  | identifier name => exact absurd hkind (hname name)
  | terminal which =>
    cases which with
    | beginBlock => exact absurd hkind hcompound
    | _ => rfl
  | _ => rfl

/-! A type is one of two words. -/

theorem typeName_apply {t : Token} {type : VariableType} (hc : c.current = t)
    (h : TypeWord t.kind type) :
    typeName c = (do let _ ← advance; return type : Rule VariableType) c := by
  unfold typeName
  rw [peek_bind, hc]
  generalize t.kind = kind at h
  cases h <;> rfl

theorem typeName_other (h : ∀ type, ¬ TypeWord c.current.kind type) :
    typeName c = expected .typeName c := by
  unfold typeName
  rw [peek_bind]
  cases hkind : c.current.kind with
  | terminal which =>
    rw [hkind] at h
    cases which with
    | integer => exact absurd .integer (h .integer)
    | real => exact absurd .real (h .real)
    | _ => rfl
  | _ => rfl

end Rule

end MiniPascal
