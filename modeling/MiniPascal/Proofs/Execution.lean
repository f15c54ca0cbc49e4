/-
`Execution.lean` -- what an execution does, assignment by assignment.

The statements of a body nest, but nothing in an execution depends on how: a body is
executed as the list of its assignments in the order of the text (`statements_eq`).
So a property of executions is shown for one assignment, and then for lists. The form
in which this is used is `assignAll_invariant`: what each assignment keeps is kept by
the whole list, also if the list stops in the middle, and then the assignment at which
it stopped has a value that cannot be computed in the store that is left.

The second half says why a value cannot be computed. A variable of the expression has
none, or one of its operators cannot be applied; which operators can meet which fault
is a table (`RuntimeFault.operators`).
-/
import MiniPascal.Execution
import MiniPascal.Proofs.Frame
import MiniPascal.Proofs.Stateful

set_option autoImplicit false

namespace MiniPascal

/-! ## Bodies as lists -/

/-- An assignment of a body, without its place. -/
structure Assignment where
  target : Identifier
  value : Expr

mutual

/-- The assignments of a statement, in order. -/
def Statement.assignments : Statement → List Assignment
  | .empty => []
  | .assign target value _ => [⟨target, value⟩]
  | .compound body => bodyAssignments body

/-- The assignments of a body, in order. -/
def bodyAssignments : List Statement → List Assignment
  | [] => []
  | first :: others => first.assignments ++ bodyAssignments others

end

/-- The variables of an assignment; the target comes after the value. -/
def Assignment.occurrences (a : Assignment) : List Identifier := a.value.occurrences ++ [a.target]

mutual

theorem Statement.occurrences_eq (s : Statement) :
    s.occurrences = s.assignments.flatMap Assignment.occurrences := by
  match s with
  | .empty => rfl
  | .assign target value position =>
    rw [Statement.assignments, List.flatMap_singleton]
    rfl
  | .compound body => exact bodyOccurrences_eq body

/-- The variables of a body are those of its assignments. -/
theorem bodyOccurrences_eq (body : List Statement) :
    bodyOccurrences body = (bodyAssignments body).flatMap Assignment.occurrences := by
  match body with
  | [] => rfl
  | first :: others =>
    rw [bodyOccurrences, bodyAssignments, List.flatMap_append, first.occurrences_eq,
      bodyOccurrences_eq others]

end

theorem mem_bodyOccurrences {body : List Statement} {a : Assignment} {x : Identifier}
    (ha : a ∈ bodyAssignments body) (hx : x ∈ a.occurrences) : x ∈ bodyOccurrences body := by
  rw [bodyOccurrences_eq]
  exact List.mem_flatMap.mpr ⟨a, ha, hx⟩

namespace Execute

/-- Assigns in order. -/
def assignAll : List Assignment → Execute Unit
  | [] => return
  | a :: as => do
    assign a.target a.value
    assignAll as

theorem assignAll_append (as bs : List Assignment) :
    assignAll (as ++ bs) = (do assignAll as; assignAll bs) := by
  induction as with
  | nil => rfl
  | cons a as ih =>
    funext m
    rw [List.cons_append, assignAll, assignAll, ih]
    -- both sides begin with the same assignment, and it decides whether they go on
    simp only [bind_apply]
    cases assign a.target a.value m <;> rfl

mutual

theorem statement_eq (s : Statement) : statement s = assignAll s.assignments := by
  match s with
  | .empty => rfl
  | .assign target value position =>
    funext m
    rw [statement, Statement.assignments, assignAll, assignAll, bind_apply]
    cases assign target value m <;> rfl
  | .compound body => exact statements_eq body

/-- A body is executed as the list of its assignments. -/
theorem statements_eq (body : List Statement) :
    statements body = assignAll (bodyAssignments body) := by
  match body with
  | [] => rfl
  | first :: others =>
    rw [statements, bodyAssignments, assignAll_append, statement_eq first, statements_eq others]

end

theorem program_eq (p : Program) : program p = assignAll (bodyAssignments p.block.body) :=
  statements_eq p.block.body

/-! ## One assignment, and all of them -/

/-- The machine after an assignment. -/
def assigned (m : Machine) (name : String) (value : Number) : Machine :=
  ⟨m.store.assign name value, m.assignments.push (name, value)⟩

theorem assign_of_ok {m : Machine} {target : Identifier} {e : Expr} {value : Number}
    (h : e.value m.store = .ok value) :
    assign target e m = .ok () (assigned m target.name value) := by
  rw [assign, h]
  rfl

theorem assign_of_error {m : Machine} {target : Identifier} {e : Expr}
    {error : Error RuntimeFault} (h : e.value m.store = .error error) :
    assign target e m = .error error m := by
  rw [assign, h]

/-- What each of some assignments keeps is kept by all of them, and if they stop, one of
them has no value in the store that is left. -/
theorem assignAll_invariant {I : Machine → Prop} {as : List Assignment}
    (hstep : ∀ a ∈ as, ∀ m value, I m → a.value.value m.store = .ok value →
      I (assigned m a.target.name value)) {m : Machine} (hm : I m) :
    match assignAll as m with
    | .ok _ m' => I m'
    | .error error m' => I m' ∧ ∃ a ∈ as, a.value.value m'.store = .error error := by
  induction as generalizing m with
  | nil => exact hm
  | cons a as ih =>
    rw [assignAll]
    cases hvalue : a.value.value m.store with
    | error error =>
      rw [bind_of_error (assign_of_error hvalue)]
      exact ⟨hm, a, List.mem_cons_self, hvalue⟩
    | ok value =>
      rw [bind_of_ok (assign_of_ok hvalue)]
      have hnext := ih (fun b hb => hstep b (List.mem_cons_of_mem a hb))
        (hstep a List.mem_cons_self m value hm hvalue)
      split at hnext
      · exact hnext
      · obtain ⟨hinv, b, hb, herror⟩ := hnext
        exact ⟨hinv, b, List.mem_cons_of_mem a hb, herror⟩

end Execute

/-! ## Why there is no value -/

/-- The terminal of an operator. -/
def BinaryOperator.terminal : BinaryOperator → Terminal
  | add => .plus
  | subtract => .minus
  | multiply => .times
  | integerDivide => .div
  | divide => .slash

/-- The terminal of a sign. -/
def UnaryOperator.terminal : UnaryOperator → Terminal
  | plus => .plus
  | minus => .minus

/-- The operators of an expression with their places, from left to right. -/
def Expr.operators : Expr → List (Terminal × Position)
  | .literal _ _ => []
  | .variable _ => []
  | .binary op left right position =>
    left.operators ++ (op.terminal, position) :: right.operators
  | .unary op operand position => (op.terminal, position) :: operand.operators

/-- The operators that can meet a fault. -/
def RuntimeFault.operators : RuntimeFault → List Terminal
  | divisionByZero => [.div, .slash]
  | overflow => [.plus, .minus, .times, .div]
  | unassignedVariable _ => []

namespace Number

theorem eq_overflow_of_exactly {n : Int} {fault : RuntimeFault} (h : exactly n = .error fault) :
    fault = .overflow := by
  unfold exactly at h
  split at h
  · cases h
  · cases h
    rfl

theorem terminal_mem_of_binary {op : BinaryOperator} {a b : Number} {fault : RuntimeFault}
    (h : binary op a b = .error fault) : op.terminal ∈ fault.operators := by
  unfold binary at h
  split at h
  · next hzero =>
    cases h
    -- only the operators that divide ask for a divisor
    cases op with
    | integerDivide => exact List.mem_cons_self
    | divide => exact List.mem_cons_of_mem _ List.mem_cons_self
    | _ => cases hzero
  · split at h
    · next f x y hf _ =>
      rw [eq_overflow_of_exactly h]
      cases op with
      | divide => cases hf
      | _ => decide
    · cases h

theorem terminal_mem_of_unary {op : UnaryOperator} {a : Number} {fault : RuntimeFault}
    (h : unary op a = .error fault) : op.terminal ∈ fault.operators := by
  cases op with
  | plus => cases h
  | minus =>
    cases a with
    | real => cases h
    | integer value =>
      rw [eq_overflow_of_exactly h]
      decide

theorem located_eq_error {position : Position} {outcome : Except RuntimeFault Number}
    {error : Error RuntimeFault} (h : located position outcome = .error error) :
    outcome = .error error.fault ∧ error.position = position := by
  cases outcome with
  | ok value => cases h
  | error fault =>
    cases h
    exact ⟨rfl, rfl⟩

end Number

/-- An expression has no value because a variable has none, or because an operator
cannot be applied. The error stands at the one that is to blame. -/
theorem Expr.exists_of_value_error {store : Store} {error : Error RuntimeFault} {e : Expr}
    (h : e.value store = .error error) :
    (∃ x ∈ e.occurrences, store.get? x.name = none ∧
        error = ⟨.unassignedVariable x.name, x.position⟩) ∨
      ∃ which, (which, error.position) ∈ e.operators ∧ which ∈ error.fault.operators := by
  induction e with
  | literal => cases h
  | «variable» x =>
    rw [value] at h
    split at h
    · cases h
    · next hnone =>
      cases h
      exact .inl ⟨x, List.mem_singleton_self x, hnone, rfl⟩
  | unary op operand position ih =>
    rw [value] at h
    cases hoperand : operand.value store with
    | error error' =>
      rw [hoperand] at h
      cases h
      refine (ih hoperand).imp_right ?_
      rintro ⟨which, hmem, hwhich⟩
      exact ⟨which, List.mem_cons_of_mem _ hmem, hwhich⟩
    | ok a =>
      rw [hoperand] at h
      obtain ⟨hunary, rfl⟩ := Number.located_eq_error h
      exact .inr ⟨op.terminal, List.mem_cons_self, Number.terminal_mem_of_unary hunary⟩
  | binary op left right position ihleft ihright =>
    rw [value] at h
    cases hleft : left.value store with
    | error error' =>
      rw [hleft] at h
      cases h
      refine (ihleft hleft).imp ?_ ?_
      · rintro ⟨x, hx, hblame⟩
        exact ⟨x, List.mem_append_left _ hx, hblame⟩
      · rintro ⟨which, hmem, hwhich⟩
        exact ⟨which, List.mem_append_left _ hmem, hwhich⟩
    | ok a =>
      rw [hleft] at h
      cases hright : right.value store with
      | error error' =>
        rw [hright] at h
        cases h
        refine (ihright hright).imp ?_ ?_
        · rintro ⟨x, hx, hblame⟩
          exact ⟨x, List.mem_append_right _ hx, hblame⟩
        · rintro ⟨which, hmem, hwhich⟩
          exact ⟨which, List.mem_append_right _ (List.mem_cons_of_mem _ hmem), hwhich⟩
      | ok b =>
        rw [hright] at h
        obtain ⟨hbinary, rfl⟩ := Number.located_eq_error h
        exact .inr ⟨op.terminal, List.mem_append_right _ List.mem_cons_self,
          Number.terminal_mem_of_binary hbinary⟩

end MiniPascal
