/-
`FlatChain.lean` -- operators in a row.

A flat chain is `c₀ op₁ c₁ … opₙ cₙ`: literals with `+`, `-`, `*` and `DIV` between them and no
parentheses. What it means can be said without trees. It is cut into terms at its signs, each
term is folded from the left, and the terms are added up from the left (`Flat.reference`);
every operator gives an exact result that fits, or it is the one where the calculation ends.

The tree of a chain leans to the left, and twice so: the operators of a term form a spine,
and the signs form one whose operands are the spines of the terms. Both are folds over links
(`Term.tree`, `Flat.tree`), so there is one lemma for phrases and one for values, each by
induction over the links with the tree so far generalised. No link nests, so the length of a
chain does not count towards the limit.
-/
import MiniPascal.Proofs.Exactness
import MiniPascal.Proofs.WholeArithmetic

set_option autoImplicit false

namespace MiniPascal

open Phrase

/-! ## Chains -/

/-- The integers that literals stand for. -/
abbrev LiteralValue := { n : Nat // n ≤ 9223372036854775807 }

/-- A literal where it stands. -/
structure Literal where
  value : LiteralValue
  token : Token
  reads : token.kind = .integerConstant (Int64.ofNat value)

/-- An operator with the literal behind it, where they stand. -/
structure Link where
  op : WholeOperator
  mark : Token
  marks : mark.Is (Whole.operatorTerminal op)
  operand : Literal

/-- A chain: a literal and the links behind it. -/
structure Flat where
  first : Literal
  links : List Link

/-- A part of a chain without `+` and `-`. -/
structure Term where
  first : Literal
  factors : List Link

/-- A `+` or `-` and the term behind it: its literal is that of the link. -/
structure Addend where
  sign : Link
  factors : List Link

/-- The tokens of a link. -/
def Link.tokens (link : Link) : List Token := [link.mark, link.operand.token]

/-- The tokens of a chain. -/
def Flat.tokens (chain : Flat) : List Token := chain.first.token :: chain.links.flatMap Link.tokens

/-- The term of an addend. -/
def Addend.term (addend : Addend) : Term := ⟨addend.sign.operand, addend.factors⟩

/-- Does the operator separate terms? -/
def WholeOperator.separates : WholeOperator → Bool
  | add | subtract => true
  | multiply | divide => false

/-- Cuts links at their signs: what belongs to the term before them, and the terms behind. -/
def cutLinks : List Link → List Link × List Addend
  | [] => ([], [])
  | link :: links =>
    let (factors, addends) := cutLinks links
    if link.op.separates then ([], ⟨link, factors⟩ :: addends) else (link :: factors, addends)

/-- The first term of a chain. -/
def Flat.head (chain : Flat) : Term := ⟨chain.first, (cutLinks chain.links).1⟩

/-- The terms behind the first one, each with its sign. -/
def Flat.addends (chain : Flat) : List Addend := (cutLinks chain.links).2

/-! ## The reference -/

/-- The result of an operator on the unbounded integers. -/
def WholeOperator.exact : WholeOperator → Int → Int → Int
  | add, a, b => a + b
  | subtract, a, b => a - b
  | multiply, a, b => a * b
  | divide, a, b => a.tdiv b

/-- An intermediate result: there is none for a divisor of zero, or outside of 64 bits, and
then the calculation ends at the operator. -/
def Link.apply (link : Link) (a b : Int) : Except (Error RuntimeFault) Int :=
  if link.op = .divide ∧ b = 0 then .error ⟨.divisionByZero, link.mark.position⟩
  else if Fits (link.op.exact a b) then .ok (link.op.exact a b)
  else .error ⟨.overflow, link.mark.position⟩

/-- A term is folded from the left. -/
def Term.reference (term : Term) : Except (Error RuntimeFault) Int :=
  term.factors.foldlM (fun a link => link.apply a link.operand.value) term.first.value

/-- The terms are added and subtracted from the left, each calculated when its turn comes. -/
def Flat.reference (chain : Flat) : Except (Error RuntimeFault) Int := do
  let start ← chain.head.reference
  chain.addends.foldlM
    (fun a addend => do addend.sign.apply a (← addend.term.reference)) start

/-! ## The tree -/

/-- A literal as an expression. -/
def Literal.tree (literal : Literal) : Expr :=
  .literal (.integer (Int64.ofNat literal.value)) literal.token.position

/-- One link more on a tree. -/
def Link.onto (link : Link) (e operand : Expr) : Expr :=
  .binary (Whole.operator link.op) e operand link.mark.position

/-- The tree of a term. -/
def Term.tree (term : Term) : Expr :=
  term.factors.foldl (fun e link => link.onto e link.operand.tree) term.first.tree

/-- The tree of a chain. -/
def Flat.tree (chain : Flat) : Expr :=
  chain.addends.foldl (fun e addend => addend.sign.onto e addend.term.tree) chain.head.tree

/-- The tokens of an addend. -/
def Addend.tokens (addend : Addend) : List Token :=
  addend.sign.tokens ++ addend.factors.flatMap Link.tokens

/-- Cutting loses nothing, and puts each operator where it binds. -/
theorem cutLinks_spec (links : List Link) :
    links.flatMap Link.tokens = (cutLinks links).1.flatMap Link.tokens ++
        (cutLinks links).2.flatMap Addend.tokens ∧
      (∀ link ∈ (cutLinks links).1, link.op.separates = false) ∧
      ∀ addend ∈ (cutLinks links).2, addend.sign.op.separates = true ∧
        ∀ link ∈ addend.factors, link.op.separates = false := by
  induction links with
  | nil => exact ⟨rfl, List.forall_mem_nil _, List.forall_mem_nil _⟩
  | cons link links ih =>
    obtain ⟨htokens, hfactors, haddends⟩ := ih
    rw [cutLinks, List.flatMap_cons, htokens]
    dsimp only
    -- a sign closes the term in front of it, and what was cut behind it becomes its own term
    cases hop : link.op.separates with
    | true =>
      rw [if_pos rfl]
      refine ⟨?_, List.forall_mem_nil _, List.forall_mem_cons.mpr ⟨⟨hop, hfactors⟩, haddends⟩⟩
      rw [List.flatMap_nil, List.nil_append, List.flatMap_cons, Addend.tokens, List.append_assoc]
    | false =>
      rw [if_neg nofun]
      refine ⟨?_, List.forall_mem_cons.mpr ⟨hop, hfactors⟩, haddends⟩
      rw [List.flatMap_cons, List.append_assoc]

theorem Link.multiplicative {link : Link} (h : link.op.separates = false) :
    Multiplicative link.mark.kind (Whole.operator link.op) := by
  have hmark : link.mark.kind = .terminal (Whole.operatorTerminal link.op) := link.marks
  rw [hmark]
  revert h
  cases link.op with
  | multiply => exact fun _ => .times
  | divide => exact fun _ => .div
  | _ => exact nofun

theorem Link.additive {link : Link} (h : link.op.separates = true) :
    Additive link.mark.kind (Whole.operator link.op) := by
  have hmark : link.mark.kind = .terminal (Whole.operatorTerminal link.op) := link.marks
  rw [hmark]
  revert h
  cases link.op with
  | add => exact fun _ => .plus
  | subtract => exact fun _ => .minus
  | _ => exact nofun

theorem Literal.isFactor (literal : Literal) : IsFactor 0 [literal.token] literal.tree :=
  .integer literal.reads

/-- Products and quotients go on with a term. -/
theorem isTerm_foldl {ts : List Token} {e : Expr} {links : List Link} (h : IsTerm 0 ts e)
    (hlinks : ∀ link ∈ links, link.op.separates = false) :
    IsTerm 0 (ts ++ links.flatMap Link.tokens)
      (links.foldl (fun e link => link.onto e link.operand.tree) e) := by
  induction links generalizing ts e with
  | nil => rwa [List.flatMap_nil, List.append_nil]
  | cons link links ih =>
    obtain ⟨hlink, hlinks⟩ := List.forall_mem_cons.mp hlinks
    have hnext : IsTerm 0 (ts ++ link.tokens) (link.onto e link.operand.tree) :=
      .link h (Link.multiplicative hlink) link.operand.isFactor
    rw [List.flatMap_cons, ← List.append_assoc]
    exact ih hnext hlinks

/-- Signed terms go on with an expression. -/
theorem isExpression_foldl {ts : List Token} {e : Expr} {addends : List Addend}
    (h : IsExpression 0 ts e)
    (haddends : ∀ addend ∈ addends, addend.sign.op.separates = true ∧
      ∀ link ∈ addend.factors, link.op.separates = false) :
    IsExpression 0 (ts ++ addends.flatMap Addend.tokens)
      (addends.foldl (fun e addend => addend.sign.onto e addend.term.tree) e) := by
  induction addends generalizing ts e with
  | nil => rwa [List.flatMap_nil, List.append_nil]
  | cons addend addends ih =>
    obtain ⟨⟨hsign, hfactors⟩, haddends⟩ := List.forall_mem_cons.mp haddends
    have hterm : IsTerm 0 (addend.sign.operand.token :: addend.factors.flatMap Link.tokens)
        addend.term.tree := isTerm_foldl (.single addend.sign.operand.isFactor) hfactors
    have hnext : IsExpression 0 (ts ++ addend.tokens) (addend.sign.onto e addend.term.tree) :=
      .link h (Link.additive hsign) hterm
    rw [List.flatMap_cons, ← List.append_assoc]
    exact ih hnext haddends

/-- The tokens of a chain are an expression with its tree, which does not nest. -/
theorem Flat.isExpression (chain : Flat) : IsExpression 0 chain.tokens chain.tree := by
  obtain ⟨htokens, hfactors, haddends⟩ := cutLinks_spec chain.links
  have hhead : IsTerm 0 (chain.first.token :: chain.head.factors.flatMap Link.tokens)
      chain.head.tree := isTerm_foldl (.single chain.first.isFactor) hfactors
  rw [Flat.tokens, htokens]
  exact isExpression_foldl (.single hhead) haddends

/-! ## Variables -/

theorem Link.occurrences_onto (link : Link) {e operand : Expr} (he : e.occurrences = [])
    (hoperand : operand.occurrences = []) : (link.onto e operand).occurrences = [] := by
  rw [Link.onto, Expr.occurrences, he, hoperand, List.append_nil]

theorem occurrences_foldl {α : Type} {grow : Expr → α → Expr}
    (hstep : ∀ e part, e.occurrences = [] → (grow e part).occurrences = []) {e : Expr}
    (h : e.occurrences = []) (parts : List α) : (parts.foldl grow e).occurrences = [] := by
  induction parts generalizing e with
  | nil => exact h
  | cons part parts ih => exact ih (hstep e part h)

theorem Term.occurrences_tree (term : Term) : term.tree.occurrences = [] :=
  occurrences_foldl (fun _ link h => link.occurrences_onto h rfl) rfl term.factors

/-- There are no variables in a chain. -/
theorem Flat.occurrences_tree (chain : Flat) : chain.tree.occurrences = [] :=
  occurrences_foldl (fun _ addend h => addend.sign.occurrences_onto h addend.term.occurrences_tree)
    chain.head.occurrences_tree chain.addends

/-! ## The value -/

/-- The value of an expression is the outcome of a calculation, and that fits. -/
structure Computes (store : Store) (e : Expr) (outcome : Except (Error RuntimeFault) Int) :
    Prop where
  value_eq : e.value store = outcome.map fun n => .integer (Int64.ofInt n)
  fits : ∀ n, outcome = .ok n → Fits n

section

variable {store : Store} {e operand : Expr} {x y : Except (Error RuntimeFault) Int}

theorem Computes.of_error {fault : Error RuntimeFault} (h : e.value store = .error fault) :
    Computes store e (.error fault) := ⟨h, nofun⟩

theorem Literal.computes (literal : Literal) :
    Computes store literal.tree (.ok literal.value) := by
  have hbound := literal.value.property
  refine ⟨rfl, fun n hn => ?_⟩
  cases hn
  unfold Fits
  omega

/-- Only a quotient by zero is missing. -/
theorem WholeOperator.exactValue?_operator (op : WholeOperator) (a b : Int) :
    (Whole.operator op).exactValue? a b =
      if op = .divide ∧ b = 0 then none else some (op.exact a b) := by
  cases op with
  | divide => simp [Whole.operator, BinaryOperator.exactValue?, exact]
  | _ => rfl

/-- The operator of a link computes its intermediate result. -/
theorem Link.located_binary (link : Link) {a b : Int} (ha : Fits a) (hb : Fits b) :
    Number.located link.mark.position (Number.binary (Whole.operator link.op)
      (.integer (Int64.ofInt a)) (.integer (Int64.ofInt b))) =
      (link.apply a b).map fun n => .integer (Int64.ofInt n) := by
  have hop : Whole.operator link.op ≠ .divide := by cases link.op <;> nofun
  rw [Number.binary_integers hop, toInt_ofInt ha, toInt_ofInt hb,
    WholeOperator.exactValue?_operator, Link.apply]
  by_cases hzero : link.op = .divide ∧ b = 0
  · rw [if_pos hzero, if_pos hzero]
    rfl
  · rw [if_neg hzero, if_neg hzero]
    dsimp only
    rw [Number.exactly_eq]
    by_cases hfits : Fits (link.op.exact a b)
    · rw [if_pos hfits, if_pos hfits]
      rfl
    · rw [if_neg hfits, if_neg hfits]
      rfl

theorem Link.fits_of_apply (link : Link) {a b n : Int} (h : link.apply a b = .ok n) : Fits n := by
  unfold Link.apply at h
  split at h
  · cases h
  · split at h
    · next hfits =>
      cases h
      exact hfits
    · cases h

/-- The step lemma: a link computes on what stands before it, with the left side first. -/
theorem Computes.onto (link : Link) (hx : Computes store e x) (hy : Computes store operand y) :
    Computes store (link.onto e operand) (do link.apply (← x) (← y)) := by
  rw [Link.onto]
  cases x with
  | error fault => exact .of_error (by rw [Expr.value, hx.value_eq]; rfl)
  | ok a =>
    cases y with
    | error fault => exact .of_error (by rw [Expr.value, hx.value_eq, hy.value_eq]; rfl)
    | ok b =>
      refine ⟨?_, fun n => link.fits_of_apply⟩
      rw [Expr.value, hx.value_eq, hy.value_eq]
      exact link.located_binary (hx.fits a rfl) (hy.fits b rfl)

/-- The run lemma: what each part of a chain computes, a fold over the parts computes. -/
theorem Computes.foldl {α : Type} {grow : Expr → α → Expr}
    {step : Int → α → Except (Error RuntimeFault) Int}
    (hstep : ∀ e x part, Computes store e x →
      Computes store (grow e part) (x >>= fun n => step n part))
    (h : Computes store e x) (parts : List α) :
    Computes store (parts.foldl grow e) (x >>= fun n => parts.foldlM step n) := by
  induction parts generalizing e x with
  | nil =>
    cases x <;> exact h
  | cons part parts ih =>
    have hnext := ih (hstep e x part h)
    -- an error stays what it is over all further parts
    cases x <;> exact hnext

theorem Term.computes (term : Term) : Computes store term.tree term.reference := by
  have hstep : ∀ e x (link : Link), Computes store e x →
      Computes store (link.onto e link.operand.tree)
        (x >>= fun n => link.apply n link.operand.value) :=
    fun e x link h => h.onto link link.operand.computes
  exact term.first.computes.foldl hstep term.factors

/-- The value of the tree is the reference. -/
theorem Flat.computes (chain : Flat) : Computes store chain.tree chain.reference := by
  have hstep : ∀ e x (addend : Addend), Computes store e x →
      Computes store (addend.sign.onto e addend.term.tree)
        (x >>= fun n => do addend.sign.apply n (← addend.term.reference)) :=
    fun e x addend h => h.onto addend.sign addend.term.computes
  exact chain.head.computes.foldl hstep chain.addends

end

end MiniPascal
