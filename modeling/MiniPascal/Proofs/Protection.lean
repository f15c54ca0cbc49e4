/-
`Protection.lean` -- what the static pass guarantees about an execution.

An execution knows nothing of declarations: it reads and writes whatever names the body
of the program mentions. After the static pass these are variables that the program
declares itself, since nothing encloses its block. So the store never binds another name,
and if a variable is found without a value it is one of the declared ones
(`execution_within_declarations`). What procedures declare is seen by their own blocks
only, and does not come up.
-/
import MiniPascal.Proofs.Execution
import MiniPascal.Proofs.Resolution

set_option autoImplicit false

namespace MiniPascal

/-- Every bound name is one of the list. -/
def Store.Within (s : Store) (names : List String) : Prop :=
  ∀ name, s.contains name = true → name ∈ names

theorem Store.within_empty (names : List String) : Store.Within ∅ names := by
  intro name hname
  exact absurd hname Bool.false_ne_true

theorem Store.Within.assign {s : Store} {names : List String} (h : s.Within names) {name : String}
    (hname : name ∈ names) (value : Number) : (s.assign name value).Within names := by
  intro other hother
  rw [Store.assign, NameMap.contains_insert, Bool.or_eq_true, beq_iff_eq] at hother
  rcases hother with rfl | hother
  · exact hname
  · exact h other hother

/-- The body of a well-scoped program mentions only variables of the program. -/
theorem Program.WellScoped.mem_of_occurrence {p : Program} (h : p.WellScoped) {x : Identifier}
    (hx : x ∈ bodyOccurrences p.block.body) : x.name ∈ variableNames p.block.declarations := by
  have hmem := (blockScoped_iff.mp h).2 x hx
  rwa [List.append_nil] at hmem

/-- **The static pass protects execution.** After a pass that succeeds, whatever its
resolver had seen before, an execution from the empty store binds only variables that the
program itself declares, and a variable found without a value is one of these too. It
makes no difference whether the execution ends or stops in the middle. -/
theorem execution_within_declarations {p : Program} {r r' : Resolver}
    (h : Resolve.program p r = .ok () r') :
    match Execute.program p .fresh with
    | .ok _ m => m.store.Within (variableNames p.block.declarations)
    | .error e m => m.store.Within (variableNames p.block.declarations) ∧
        ∀ name, e.fault = .unassignedVariable name →
          name ∈ variableNames p.block.declarations := by
  have hscoped : p.WellScoped := Resolve.wellScoped_of_ok h
  have hstep : ∀ a ∈ bodyAssignments p.block.body, ∀ (m : Machine) (value : Number),
      m.store.Within (variableNames p.block.declarations) → a.value.value m.store = .ok value →
      (Execute.assigned m a.target.name value).store.Within
        (variableNames p.block.declarations) := by
    intro a ha m value hm _
    have htarget := mem_bodyOccurrences ha (List.mem_append_right _ (List.mem_singleton_self _))
    exact hm.assign (hscoped.mem_of_occurrence htarget) value
  have hrun := Execute.assignAll_invariant hstep (m := Machine.fresh) (Store.within_empty _)
  rw [Execute.program_eq]
  cases hresult : Execute.assignAll (bodyAssignments p.block.body) .fresh with
  | ok u m =>
    rw [hresult] at hrun
    exact hrun
  | error e m =>
    rw [hresult] at hrun
    obtain ⟨hstore, a, ha, hvalue⟩ := hrun
    refine ⟨hstore, fun name hname => ?_⟩
    rcases Expr.exists_of_value_error hvalue with ⟨x, hx, -, herror⟩ | ⟨which, -, hwhich⟩
    · rw [herror] at hname
      cases hname
      exact hscoped.mem_of_occurrence (mem_bodyOccurrences ha (List.mem_append_left _ hx))
    -- no operator is to blame for a variable
    · rw [hname] at hwhich
      exact absurd hwhich List.not_mem_nil

/-- A program with a procedure that declares a variable of its own, and with a body that
stops at a variable without a value. -/
def Program.stopping : Program :=
  let place : Position := .start
  let inner : Declaration :=
    .procedure ⟨"p", place⟩ [.variable ⟨"own", place⟩ .real]
      [.assign ⟨"own", place⟩ (.variable ⟨"a", place⟩) place]
  ⟨⟨"demo", place⟩,
    [.variable ⟨"a", place⟩ .integer, .variable ⟨"b", place⟩ .integer, inner],
    [.assign ⟨"a", place⟩ (.literal (.integer 1) place) place,
      .compound [.empty, .assign ⟨"a", place⟩
        (.binary .add (.variable ⟨"a", place⟩) (.variable ⟨"b", place⟩) place) place]]⟩

/-- It stops at `b`, which it declares, with `a` bound and nothing of the procedure. -/
theorem execution_within_declarations_stopping :
    ∃ r' e m, Resolve.program .stopping .fresh = .ok () r' ∧
      Execute.program .stopping .fresh = .error e m ∧ e.fault = .unassignedVariable "b" ∧
      "b" ∈ variableNames Program.stopping.block.declarations ∧
      m.store.contains "a" = true ∧ m.store.contains "own" = false := by
  have hscoped : Program.stopping.WellScoped := by
    rw [Program.wellScoped_iff_demands]
    decide
  obtain ⟨r', hresolve, -⟩ := Resolve.ok_of_wellScoped hscoped .fresh
  have hwithin := execution_within_declarations hresolve
  obtain ⟨e, m, hrun, hfault, hbound⟩ : ∃ e m, Execute.program .stopping .fresh = .error e m ∧
      e.fault = .unassignedVariable "b" ∧ m.store.contains "a" = true := ⟨_, _, rfl, rfl, rfl⟩
  rw [hrun] at hwithin
  refine ⟨r', e, m, hresolve, hrun, hfault, hwithin.2 "b" hfault, hbound, ?_⟩
  rw [Bool.eq_false_iff]
  intro hown
  exact absurd (hwithin.1 "own" hown) (by decide)

end MiniPascal
