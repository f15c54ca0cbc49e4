/-
`Inertness.lean` -- procedures do nothing, and nothing else depends on them.

A procedure can be declared but not called. An execution runs the body of the program
alone, so it cannot tell which procedures there are (`Machine.interpret_iff_performs`
names the body and the store and no declaration). The static pass does look at
procedures, and for each of them it opens a scope, fills it and closes it, before it
comes to the body. What remains is that none of this reaches the body or the variables:
they are checked against the names of the variables, and a list of declarations has the
same variables with its procedures and without
(`variableNames_variableDeclarations`). A procedure can therefore be refused only for its
own sake, for its name or for what is in its block.

Two programs differ in procedures only if one comes from the other by editing them
(`ProceduresEdited`): one procedure is added, deleted or replaced, or procedures change
their places among the declarations, and so on any number of times. Such programs are
exactly those that agree once all procedures are deleted (`proceduresEdited_iff`). An
edit in the middle need not be accepted by the static pass.
-/
import MiniPascal.Proofs.Resolution
import MiniPascal.Proofs.Session

set_option autoImplicit false

namespace MiniPascal

/-! ## Variables alone -/

/-- Some declarations without the procedures among them. -/
def variableDeclarations (ds : List Declaration) : List Declaration :=
  ds.filter Declaration.isVariable

section

variable (ds es : List Declaration)

@[simp] theorem variableDeclarations_variable (name : Identifier) (type : VariableType) :
    variableDeclarations (.variable name type :: ds) =
      .variable name type :: variableDeclarations ds := rfl

@[simp] theorem variableDeclarations_procedure (name : Identifier) (inner : List Declaration)
    (own : List Statement) :
    variableDeclarations (.procedure name inner own :: ds) = variableDeclarations ds := rfl

@[simp] theorem variableDeclarations_append :
    variableDeclarations (ds ++ es) = variableDeclarations ds ++ variableDeclarations es :=
  List.filter_append ds es

theorem isVariable_of_mem {d : Declaration} (hd : d ∈ variableDeclarations ds) :
    d.isVariable = true := (List.mem_filter.mp hd).2

@[simp] theorem variableDeclarations_idem :
    variableDeclarations (variableDeclarations ds) = variableDeclarations ds :=
  List.filter_eq_self.mpr fun _ hd => isVariable_of_mem ds hd

/-- Deleting procedures leaves the variables. -/
theorem variableNames_variableDeclarations :
    variableNames (variableDeclarations ds) = variableNames ds := by
  unfold variableNames variableDeclarations
  rw [List.filterMap_filter]
  congr 1
  funext d
  cases d <;> rfl

theorem procedureNames_variableDeclarations : procedureNames (variableDeclarations ds) = [] := by
  unfold procedureNames
  rw [List.filterMap_eq_nil_iff]
  intro d hd
  cases d with
  | «variable» => rfl
  | procedure => cases isVariable_of_mem ds hd

end

/-- The program without the procedures of its own block. -/
def Program.withoutProcedures (p : Program) : Program :=
  ⟨p.name, ⟨variableDeclarations p.block.declarations, p.block.body⟩⟩

/-! ## Editing procedures -/

/-- Declarations that come from `ds` by editing procedures. -/
inductive ProceduresEdited (ds : List Declaration) : List Declaration → Prop
  | refl : ProceduresEdited ds ds
  | add {before after : List Declaration} (name : Identifier) (inner : List Declaration)
      (own : List Statement) (h : ProceduresEdited ds (before ++ after)) :
      ProceduresEdited ds (before ++ .procedure name inner own :: after)
  | delete {before after : List Declaration} {name : Identifier} {inner : List Declaration}
      {own : List Statement}
      (h : ProceduresEdited ds (before ++ .procedure name inner own :: after)) :
      ProceduresEdited ds (before ++ after)
  | replace {before after : List Declaration} {name : Identifier} {inner : List Declaration}
      {own : List Statement} (name' : Identifier) (inner' : List Declaration)
      (own' : List Statement)
      (h : ProceduresEdited ds (before ++ .procedure name inner own :: after)) :
      ProceduresEdited ds (before ++ .procedure name' inner' own' :: after)
  /-- The variables keep their order. -/
  | reorder {es es' : List Declaration} (h : ProceduresEdited ds es) (hperm : es.Perm es')
      (hvariables : variableDeclarations es' = variableDeclarations es) :
      ProceduresEdited ds es'

namespace ProceduresEdited

variable {ds before after : List Declaration}

theorem deleteAll (h : ProceduresEdited ds (before ++ after)) :
    ProceduresEdited ds (before ++ variableDeclarations after) := by
  induction after generalizing before with
  | nil => exact h
  | cons d after ih =>
    cases d with
    -- a variable stays, and from now on it stands in front
    | «variable» name type =>
      rw [List.append_cons] at h
      rw [variableDeclarations_variable, List.append_cons]
      exact ih h
    | procedure name inner own => exact ih h.delete

theorem addAll (h : ProceduresEdited ds (before ++ variableDeclarations after)) :
    ProceduresEdited ds (before ++ after) := by
  induction after generalizing before with
  | nil => exact h
  | cons d after ih =>
    cases d with
    | «variable» name type =>
      rw [variableDeclarations_variable, List.append_cons] at h
      rw [List.append_cons]
      exact ih h
    | procedure name inner own => exact (ih h).add name inner own

end ProceduresEdited

/-- Editing procedures reaches all declarations that have the same variables in the same
order, and no others. -/
theorem proceduresEdited_iff {ds es : List Declaration} :
    ProceduresEdited ds es ↔ variableDeclarations es = variableDeclarations ds := by
  constructor
  · intro h
    induction h with
    | refl => rfl
    | add name inner own _ ih =>
      rw [variableDeclarations_append] at ih
      rw [variableDeclarations_append, variableDeclarations_procedure, ih]
    | delete _ ih =>
      rw [variableDeclarations_append, variableDeclarations_procedure] at ih
      rw [variableDeclarations_append, ih]
    | replace name inner own _ ih =>
      rw [variableDeclarations_append, variableDeclarations_procedure] at ih
      rw [variableDeclarations_append, variableDeclarations_procedure, ih]
    | reorder _ _ hvariables ih => exact hvariables.trans ih
  · intro h
    -- all procedures go, and then those of the other side come
    have hself : ProceduresEdited ds ([] ++ ds) := .refl
    have hdeleted := hself.deleteAll
    rw [← h] at hdeleted
    exact hdeleted.addAll

/-! ## Programs -/

namespace Program

/-- The second program differs from the first only in procedures of its own block. -/
structure DiffersInProcedures (p p' : Program) : Prop where
  name_eq : p'.name = p.name
  body_eq : p'.block.body = p.block.body
  edited : ProceduresEdited p.block.declarations p'.block.declarations

theorem differsInProcedures_withoutProcedures (p : Program) :
    p.DiffersInProcedures p.withoutProcedures :=
  ⟨rfl, rfl, proceduresEdited_iff.mpr (variableDeclarations_idem p.block.declarations)⟩

/-- The procedures of the program's own block have different names, and each of them has a
well-scoped block in its place. -/
def ProceduresScoped (p : Program) : Prop :=
  (procedureNames p.block.declarations).Nodup ∧
    ∀ before d after, p.block.declarations = before ++ d :: after → d.BlockScoped [] before

theorem proceduresScoped_withoutProcedures (p : Program) :
    p.withoutProcedures.ProceduresScoped := by
  refine ⟨?_, fun before d after heq => ?_⟩
  · rw [withoutProcedures, procedureNames_variableDeclarations]
    exact List.nodup_nil
  · change variableDeclarations p.block.declarations = before ++ d :: after at heq
    have hd : d ∈ variableDeclarations p.block.declarations := by
      rw [heq]
      exact List.mem_append_right before List.mem_cons_self
    cases d with
    | «variable» => trivial
    | procedure => cases isVariable_of_mem _ hd

/-- What the body and the variables demand of a program does not depend on procedures. -/
theorem DiffersInProcedures.wellScoped_iff {p p' : Program} (hdiff : p.DiffersInProcedures p')
    (h : p.WellScoped) : p'.WellScoped ↔ p'.ProceduresScoped := by
  obtain ⟨⟨hvars, -⟩, hbody⟩ := blockScoped_iff.mp h
  have hnames : variableNames p'.block.declarations = variableNames p.block.declarations := by
    rw [← variableNames_variableDeclarations, proceduresEdited_iff.mp hdiff.edited,
      variableNames_variableDeclarations]
  -- with the same variables and the same body, only the conditions on procedures are new
  rw [WellScoped, blockScoped_iff, hnames, hdiff.body_eq]
  constructor
  · rintro ⟨⟨-, hprocedures⟩, -⟩
    exact hprocedures
  · intro hprocedures
    exact ⟨⟨hvars, hprocedures⟩, hbody⟩

end Program

/-- **Procedures are inert.** Let the static pass accept a program. It also accepts the
program without the procedures of its own block. And take any program that differs only in
these procedures, added, deleted, replaced or reordered. Whether the static pass accepts
that one is decided by its procedures alone; and accepted or not, on every machine with the
same store it has the same outcome and leaves the same store. -/
theorem procedures_inert {p : Program} {r r' : Resolver} (h : Resolve.program p r = .ok () r') :
    (∀ s, ∃ s', Resolve.program p.withoutProcedures s = .ok () s') ∧
    ∀ p', p.DiffersInProcedures p' →
      (∀ s, (∃ s', Resolve.program p' s = .ok () s') ↔ p'.ProceduresScoped) ∧
      ∀ m m' : Machine, m'.store = m.store →
        (m'.interpret p').1 = (m.interpret p).1 ∧
        (m'.interpret p').2.store = (m.interpret p).2.store := by
  have haccepted : ∀ p', p.DiffersInProcedures p' →
      ∀ s, (∃ s', Resolve.program p' s = .ok () s') ↔ p'.ProceduresScoped := by
    intro p' hdiff s
    rw [Resolve.exists_ok_iff, hdiff.wellScoped_iff (Resolve.wellScoped_of_ok h)]
  refine ⟨fun s => ?_, fun p' hdiff => ⟨haccepted p' hdiff, fun m m' hstore => ?_⟩⟩
  · exact (haccepted _ p.differsInProcedures_withoutProcedures s).mpr
      p.proceduresScoped_withoutProcedures
  · -- both runs are the fold over the same assignments on the same store
    have hrun := m.performs_interpret p
    rw [← hstore, ← hdiff.body_eq] at hrun
    exact Machine.interpret_iff_performs.mpr hrun

/-- A variable `x` and, behind it, a procedure of that name with an `x` of its own, to which
it assigns. The body assigns to the `x` outside. -/
def Program.shadowing : Program :=
  let x : Identifier := ⟨"x", .start⟩
  ⟨⟨"demo", .start⟩,
    [.variable x .integer,
      .procedure x [.variable x .real] [.assign x (.literal (.integer 2) .start) .start]],
    [.assign x (.literal (.integer 1) .start) .start]⟩

/-- The procedure has gone, and in front of the variable there are two that know nothing of
it, one inside the other. -/
def Program.reshadowed : Program :=
  let x : Identifier := ⟨"x", .start⟩
  let demo : Identifier := ⟨"demo", .start⟩
  ⟨demo,
    [.procedure demo [.procedure x [.variable demo .real] [.empty]] [.empty],
      .variable x .integer],
    Program.shadowing.block.body⟩

/-- Both are accepted and bind `x` to what the body assigns, the second one on a machine
with another past. -/
theorem procedures_inert_shadowing :
    (∃ s', Resolve.program Program.shadowing.withoutProcedures .fresh = .ok () s') ∧
      (∃ s', Resolve.program .reshadowed .fresh = .ok () s') ∧
      ((Machine.mk ∅ #[("y", .integer 7)]).interpret .reshadowed).2.store.get? "x" =
        some (.integer 1) := by
  have hscoped : Program.shadowing.WellScoped := by
    rw [Program.wellScoped_iff_demands]
    decide
  have hrescoped : Program.reshadowed.WellScoped := by
    rw [Program.wellScoped_iff_demands]
    decide
  have hdiff : Program.shadowing.DiffersInProcedures .reshadowed :=
    ⟨rfl, rfl, proceduresEdited_iff.mpr rfl⟩
  obtain ⟨r', haccepted, -⟩ := Resolve.ok_of_wellScoped hscoped .fresh
  obtain ⟨hwithout, hdiffering⟩ := procedures_inert haccepted
  obtain ⟨hiff, hruns⟩ := hdiffering .reshadowed hdiff
  obtain ⟨-, hstore⟩ := hruns .fresh ⟨∅, #[("y", .integer 7)]⟩ rfl
  refine ⟨hwithout .fresh, (hiff .fresh).mpr ((hdiff.wellScoped_iff hscoped).mp hrescoped), ?_⟩
  rw [hstore]
  rfl

end MiniPascal
