/-
`ValueKinds.lean` -- the kind of a result is known beforehand.

A value is an integer or a real, and no operator decides between the two by looking at the
numbers. `/` gives a real; every other operator gives an integer exactly if both operands
are integers; a sign changes nothing. Where the operands are of different kinds, or the
divisor is zero, the order of the cases in `Number.binary` could matter, and the lemmas on
operators say that it does not: if there is a result at all, its kind is the one in the table
`BinaryOperator.valueKind`.

So a run can be repeated on kinds alone (`kindsAfter?`), with nothing but the kind of every
variable for a store. That run goes along with the real one, assignment by assignment, also
where a variable changes its kind (`kindsAfter?_of_performAll`).
-/
import MiniPascal.Proofs.Exactness
import MiniPascal.Proofs.Session

set_option autoImplicit false

namespace MiniPascal

/-! ## Maps with other values -/

namespace NameMap

variable {α β : Type}

/-- The same names, each with its value under `f`. -/
def map (f : α → β) (m : NameMap α) : NameMap β :=
  ⟨m.entries.map fun entry => (entry.1, f entry.2), List.pairwise_map.mpr m.increasing⟩

@[simp] theorem get?_map (f : α → β) (m : NameMap α) (name : String) :
    (m.map f).get? name = (m.get? name).map f := by
  change (m.entries.map fun entry => (entry.1, f entry.2)).lookup name = _
  rw [get?]
  induction m.entries with
  | nil => rfl
  | cons entry rest ih =>
    rw [List.map_cons, List.lookup_cons, List.lookup_cons]
    by_cases h : name = entry.1
    · rw [beq_iff_eq.mpr h]
      rfl
    · rw [beq_eq_false_iff_ne.mpr h]
      exact ih

theorem map_insert (f : α → β) (m : NameMap α) (name : String) (value : α) :
    (m.insert name value).map f = (m.map f).insert name (f value) := by
  apply ext_get?
  intro other
  rw [get?_map, get?_insert, get?_insert, get?_map]
  by_cases h : other = name
  · rw [if_pos h, if_pos h, Option.map_some]
  · rw [if_neg h, if_neg h]

end NameMap

/-! ## Kinds of values -/

/-- The two kinds of values. -/
inductive ValueKind where
  | integer | real
deriving DecidableEq, Repr

/-- The kind of a value. -/
def Number.valueKind : Number → ValueKind
  | .integer _ => .integer
  | .real _ => .real

/-- The kind of a result, from the kinds of the operands. -/
def BinaryOperator.valueKind : BinaryOperator → ValueKind → ValueKind → ValueKind
  | .divide, _, _ => .real
  | _, .integer, .integer => .integer
  | _, _, _ => .real

theorem BinaryOperator.valueKind_eq_integer_iff {op : BinaryOperator} {a b : ValueKind} :
    op.valueKind a b = .integer ↔ op ≠ .divide ∧ a = .integer ∧ b = .integer := by
  cases op <;> cases a <;> cases b <;> decide

namespace Number

variable {a b v : Number}

theorem valueKind_eq_integer_iff : v.valueKind = .integer ↔ ∃ n, v = .integer n := by
  cases v with
  | integer n => exact ⟨fun _ => ⟨n, rfl⟩, fun _ => rfl⟩
  | real x =>
    constructor
    · nofun
    · rintro ⟨n, h⟩
      cases h

/-- An exact result is an integer. -/
theorem valueKind_exactly {n : Int} (h : exactly n = .ok v) : v.valueKind = .integer := by
  rw [exactly_eq] at h
  split at h
  · cases h
    rfl
  · cases h

/-- Whichever case applies, the kind of the result is that of the table. -/
theorem valueKind_binary {op : BinaryOperator} (h : binary op a b = .ok v) :
    v.valueKind = op.valueKind a.valueKind b.valueKind := by
  unfold binary at h
  by_cases hzero : (op.divides && b.isZero) = true
  · rw [if_pos hzero] at h
    cases h
  rw [if_neg hzero] at h
  -- of two integers it is the operator that decides, and one real is enough for a real
  cases a with
  | integer x =>
    cases b with
    | integer y =>
      cases op with
      | divide => cases h; rfl
      | _ => exact valueKind_exactly h
    | real y => cases op <;> cases h <;> rfl
  | real x => cases op <;> cases h <;> rfl

theorem valueKind_unary {op : UnaryOperator} (h : unary op a = .ok v) :
    v.valueKind = a.valueKind := by
  cases op with
  | plus =>
    cases h
    rfl
  | minus =>
    cases a with
    | integer n => exact valueKind_exactly h
    | real x =>
      cases h
      rfl

end Number

/-! ## Expressions -/

/-- A store with kinds in the place of values. -/
def Store.valueKinds (s : Store) : NameMap ValueKind := s.map Number.valueKind

theorem Store.valueKinds_assign (s : Store) (name : String) (value : Number) :
    valueKinds (s.assign name value) = s.valueKinds.insert name value.valueKind :=
  NameMap.map_insert Number.valueKind s name value

theorem Number.of_located_eq_ok {position : Position} {outcome : Except RuntimeFault Number}
    {v : Number} (h : located position outcome = .ok v) : outcome = .ok v := by
  cases outcome with
  | ok value => exact congrArg Except.ok (Except.ok.inj h)
  | error fault => cases h

namespace Expr

variable {store : Store} {e : Expr} {v : Number}

/-! A value has been made from values. -/

theorem get?_of_value {name : Identifier} (h : (Expr.variable name).value store = .ok v) :
    store.get? name.name = some v := by
  rw [value] at h
  cases hget : store.get? name.name with
  | none =>
    rw [hget] at h
    cases h
  | some number =>
    rw [hget] at h
    exact congrArg some (Except.ok.inj h)

theorem operand_of_value {op : UnaryOperator} {operand : Expr} {position : Position}
    (h : (unary op operand position).value store = .ok v) :
    ∃ a, operand.value store = .ok a ∧ Number.unary op a = .ok v := by
  rw [value] at h
  cases hoperand : operand.value store with
  | error error =>
    rw [hoperand] at h
    cases h
  | ok a =>
    rw [hoperand] at h
    exact ⟨a, rfl, Number.of_located_eq_ok h⟩

theorem operands_of_value {op : BinaryOperator} {left right : Expr} {position : Position}
    (h : (binary op left right position).value store = .ok v) :
    ∃ a b, left.value store = .ok a ∧ right.value store = .ok b ∧ Number.binary op a b = .ok v := by
  rw [value] at h
  cases hleft : left.value store with
  | error error =>
    rw [hleft] at h
    cases h
  | ok a =>
    cases hright : right.value store with
    | error error =>
      rw [hleft, hright] at h
      cases h
    | ok b =>
      rw [hleft, hright] at h
      exact ⟨a, b, rfl, rfl, Number.of_located_eq_ok h⟩

/-! The kind of an expression is the kind of its value. -/

/-- The kind of an expression, if its variables have kinds. -/
def valueKind? (kinds : NameMap ValueKind) : Expr → Option ValueKind
  | literal value _ => some value.valueKind
  | .variable name => kinds.get? name.name
  | binary op left right _ => do
    return op.valueKind (← left.valueKind? kinds) (← right.valueKind? kinds)
  | unary _ operand _ => operand.valueKind? kinds

theorem valueKind?_of_value (h : e.value store = .ok v) :
    e.valueKind? store.valueKinds = some v.valueKind := by
  induction e generalizing v with
  | literal value position =>
    cases h
    rfl
  | «variable» name =>
    rw [valueKind?, Store.valueKinds, NameMap.get?_map, get?_of_value h, Option.map_some]
  | unary op operand position ih =>
    obtain ⟨a, hoperand, hresult⟩ := operand_of_value h
    rw [valueKind?, ih hoperand, Number.valueKind_unary hresult]
  | binary op left right position ihleft ihright =>
    obtain ⟨a, b, hleft, hright, hresult⟩ := operands_of_value h
    rw [valueKind?, ihleft hleft, ihright hright, Number.valueKind_binary hresult]
    rfl

/-- An expression has an integer for its value exactly if no reals are involved. -/
theorem valueKind_eq_integer_iff_integral (h : e.value store = .ok v) :
    v.valueKind = .integer ↔ e.Integral store := by
  induction e generalizing v with
  | literal value position =>
    cases h
    exact Number.valueKind_eq_integer_iff
  | «variable» name =>
    have hget := get?_of_value h
    rw [Number.valueKind_eq_integer_iff, Integral]
    constructor
    · intro hv w hw
      rw [hget] at hw
      exact Option.some.inj hw ▸ hv
    · intro hall
      exact hall v hget
  | unary op operand position ih =>
    obtain ⟨a, hoperand, hresult⟩ := operand_of_value h
    rw [Number.valueKind_unary hresult, ih hoperand, Integral]
  | binary op left right position ihleft ihright =>
    obtain ⟨a, b, hleft, hright, hresult⟩ := operands_of_value h
    rw [Number.valueKind_binary hresult, BinaryOperator.valueKind_eq_integer_iff, ihleft hleft,
      ihright hright, Integral]

/-! What reals come from. -/

/-- The expression brings a real in, whatever its operands are: it is a real literal, a
quotient of `/`, or a variable bound to a real. -/
inductive BringsReal (store : Store) : Expr → Prop
  | ofLiteral {x position} : BringsReal store (literal (.real x) position)
  | ofDivision {left right position} : BringsReal store (binary .divide left right position)
  | ofVariable {name x} :
      store.get? name.name = some (.real x) → BringsReal store (.variable name)

/-- No reals are involved exactly if no part of the expression brings one in. -/
theorem integral_iff : e.Integral store ↔ ∀ part ∈ e.parts, ¬ part.BringsReal store := by
  induction e with
  | literal value position =>
    rw [Integral, parts, List.forall_mem_singleton]
    cases value with
    | integer n => exact ⟨fun _ => nofun, fun _ => ⟨n, rfl⟩⟩
    | real x => exact ⟨nofun, fun h => absurd .ofLiteral h⟩
  | «variable» name =>
    rw [Integral, parts, List.forall_mem_singleton]
    constructor
    · intro h hreal
      cases hreal with
      | ofVariable hget =>
        obtain ⟨n, hn⟩ := h _ hget
        cases hn
    · intro h value hvalue
      cases value with
      | integer n => exact ⟨n, rfl⟩
      | real x => exact absurd (.ofVariable hvalue) h
  | unary op operand position ih =>
    rw [Integral, ih, parts, List.forall_mem_append, List.forall_mem_singleton]
    exact (and_iff_left nofun).symm
  | binary op left right position ihleft ihright =>
    -- of all operators only `/` makes a real out of integers
    have hself : op ≠ .divide ↔ ¬ (binary op left right position).BringsReal store := by
      constructor
      · rintro hop ⟨⟩
        exact hop rfl
      · rintro h rfl
        exact h .ofDivision
    rw [Integral, ihleft, ihright, hself, parts, List.forall_mem_append, List.forall_mem_append,
      List.forall_mem_singleton]
    exact and_comm.trans and_assoc

end Expr

/-! ## Runs -/

/-- The kinds of the variables after an assignment, from those before it. -/
def Assignment.valueKinds? (kinds : NameMap ValueKind) (a : Assignment) :
    Option (NameMap ValueKind) :=
  (a.value.valueKind? kinds).map fun kind => kinds.insert a.target.name kind

/-- The kinds of the variables after some assignments. No value is looked at on the way, and
none is known. -/
def kindsAfter? (kinds : NameMap ValueKind) (as : List Assignment) : Option (NameMap ValueKind) :=
  as.foldlM Assignment.valueKinds? kinds

/-- The step lemma: an assignment of values is an assignment of kinds. -/
theorem Assignment.valueKinds?_of_perform {s s' : Store} {a : Assignment}
    (h : a.perform s = .ok s') :
    a.valueKinds? s.valueKinds = some s'.valueKinds := by
  rw [perform] at h
  split at h
  · next value hvalue =>
    cases h
    rw [valueKinds?, Expr.valueKind?_of_value hvalue, Option.map_some, Store.valueKinds_assign]
  · cases h

/-- The run lemma. -/
theorem kindsAfter?_of_performAll {s s' : Store} {as : List Assignment}
    (h : performAll s as = .ok s') : kindsAfter? s.valueKinds as = some s'.valueKinds := by
  rw [kindsAfter?, ← List.map_id as]
  exact performAll_simulated Assignment.valueKinds?_of_perform h

/-- If nothing fails, all assignments are performed. -/
theorem Performs.performAll_eq {s s' : Store} {as : List Assignment}
    (h : Performs s as (.ok ()) s') : performAll s as = .ok s' := by
  cases h with
  | all hall => exact hall

/-- **Kinds are known beforehand.** If an expression has a value, this is an integer exactly
if no part of the expression is a real literal, a quotient of `/` or a variable bound to a
real. And if a program runs to its end on an empty store, repeating its assignments on kinds
alone succeeds and gives each variable the kind of its value: a variable that is bound has
that kind, and one that is not has none. -/
theorem kinds_predictable :
    (∀ (store : Store) (e : Expr) (v : Number), e.value store = .ok v →
      ((∃ n, v = .integer n) ↔ ∀ part ∈ e.parts, ¬ part.BringsReal store)) ∧
    ∀ (p : Program) (m m' : Machine), m.store = ∅ → m.interpret p = (.ok (), m') →
      ∃ kinds, kindsAfter? ∅ (bodyAssignments p.block.body) = some kinds ∧
        ∀ name, kinds.get? name = (m'.store.get? name).map Number.valueKind := by
  refine ⟨fun store e v h => ?_, fun p m m' hempty hrun => ?_⟩
  · rw [← Number.valueKind_eq_integer_iff, Expr.valueKind_eq_integer_iff_integral h,
      Expr.integral_iff]
  · have hperforms := m.performs_interpret p
    rw [hrun, hempty] at hperforms
    have hafter := kindsAfter?_of_performAll hperforms.performAll_eq
    exact ⟨m'.store.valueKinds, hafter, NameMap.get?_map _ _⟩

/-- A program with a variable that is a real first and an integer in the end, and with an
operator whose operands are of different kinds:
`x := 7 / 2; n := 7 DIV 2; y := n * x; x := n; z := x + n`. -/
def Program.regrading : Program :=
  let place : Position := .start
  let number (n : Int64) : Expr := .literal (.integer n) place
  let «at» (name : String) : Expr := .variable ⟨name, place⟩
  let assign (name : String) (e : Expr) : Statement := .assign ⟨name, place⟩ e place
  ⟨⟨"demo", place⟩, [],
    [assign "x" (.binary .divide (number 7) (number 2) place),
      assign "n" (.binary .integerDivide (number 7) (number 2) place),
      .compound [assign "y" (.binary .multiply («at» "n") («at» "x") place)],
      assign "x" («at» "n"),
      assign "z" (.binary .add («at» "x") («at» "n") place)]⟩

/-- In the end `y` is a real and `x`, which it was computed from, is an integer; and so is
`z`, which was computed from `x`, as its expression says. -/
theorem kinds_predictable_regrading :
    ∃ m, Machine.fresh.interpret .regrading = (.ok (), m) ∧
      (m.store.get? "x").map Number.valueKind = some .integer ∧
      (m.store.get? "y").map Number.valueKind = some .real ∧
      (m.store.get? "z").map Number.valueKind = some .integer ∧
      ∃ v n, (Expr.variable ⟨"z", .start⟩).value m.store = .ok v ∧ v = .integer n := by
  obtain ⟨m, hrun, v, hv⟩ : ∃ m, Machine.fresh.interpret .regrading = (.ok (), m) ∧
      ∃ v, (Expr.variable ⟨"z", .start⟩).value m.store = .ok v := ⟨_, rfl, _, rfl⟩
  obtain ⟨kinds, hkinds, hget⟩ := kinds_predictable.2 .regrading .fresh m rfl hrun
  -- the run on kinds is computed, and the store is only known through it
  cases hkinds
  have hz : (m.store.get? "z").map Number.valueKind = some .integer := (hget "z").symm
  have hinteger : ∃ n, v = .integer n := by
    refine (kinds_predictable.1 m.store _ v hv).mpr (List.forall_mem_singleton.mpr ?_)
    intro hreal
    cases hreal with
    | ofVariable hget =>
      rw [hget] at hz
      cases hz
  obtain ⟨n, hn⟩ := hinteger
  exact ⟨m, hrun, (hget "x").symm, (hget "y").symm, hz, v, n, hv, hn⟩

end MiniPascal
