/-
`WellScoped.lean` -- when a program uses its names rightly.

Two accounts of the same thing. The first, `BlockScoped`, has no order: in each block
the variables have different names, and so do the procedures; a procedure's block sees
the variables declared before the procedure and everything outside; and a body names
only what its block declares or sees. Nothing is said about how to find out.

The second is a list. A block makes demands one after another (`blockDemands`): each
declaration that its name is not taken, each occurrence of a variable that its name is
declared. The order of the list is the order in which a reader of the program meets
them, with the value of an assignment before its target. An unmet demand is an error,
and the first unmet one is what a reader reports.

The two agree (`blockScoped_iff_demands`), so the order decides which error it is but
not whether there is one.
-/
import Mathlib.Data.List.Nodup
import MiniPascal.Fault
import MiniPascal.Program

set_option autoImplicit false

namespace MiniPascal

/-! ## Declared names -/

namespace Declaration

/-- The name that is declared. -/
def name : Declaration → Identifier
  | .variable name _ => name
  | .procedure name _ _ => name

/-- The name of a variable. -/
def variableName? : Declaration → Option String
  | .variable name _ => some name.name
  | .procedure .. => none

/-- The name of a procedure. -/
def procedureName? : Declaration → Option String
  | .variable .. => none
  | .procedure name _ _ => some name.name

end Declaration

/-- The variables among some declarations. -/
def variableNames (ds : List Declaration) : List String := ds.filterMap Declaration.variableName?

/-- The procedures among some declarations. -/
def procedureNames (ds : List Declaration) : List String := ds.filterMap Declaration.procedureName?

@[simp] theorem variableNames_nil : variableNames [] = [] := rfl

@[simp] theorem procedureNames_nil : procedureNames [] = [] := rfl

@[simp] theorem variableNames_append (ds es : List Declaration) :
    variableNames (ds ++ es) = variableNames ds ++ variableNames es := List.filterMap_append

@[simp] theorem procedureNames_append (ds es : List Declaration) :
    procedureNames (ds ++ es) = procedureNames ds ++ procedureNames es := List.filterMap_append

/-- The names that a declaration must not repeat. Variables and procedures do not
compete for names. -/
def Declaration.rivals (before : List Declaration) : Declaration → List String
  | .variable .. => variableNames before
  | .procedure .. => procedureNames before

/-! ## Occurrences -/

/-- The variables of an expression, from left to right. -/
def Expr.occurrences : Expr → List Identifier
  | .literal _ _ => []
  | .variable name => [name]
  | .binary _ left right _ => left.occurrences ++ right.occurrences
  | .unary _ operand _ => operand.occurrences

mutual

/-- The variables of a statement; a target comes after its value. -/
def Statement.occurrences : Statement → List Identifier
  | .empty => []
  | .assign target value _ => value.occurrences ++ [target]
  | .compound body => bodyOccurrences body

/-- The variables of a body, in order. -/
def bodyOccurrences : List Statement → List Identifier
  | [] => []
  | first :: others => first.occurrences ++ bodyOccurrences others

end

/-! ## Without an order -/

/-- A block in a place that sees the variables `outer`. -/
inductive BlockScoped : List String → List Declaration → List Statement → Prop
  | mk {outer : List String} {ds : List Declaration} {body : List Statement} :
      (variableNames ds).Nodup → (procedureNames ds).Nodup →
      (∀ before name inner own after, ds = before ++ .procedure name inner own :: after →
        BlockScoped (variableNames before ++ outer) inner own) →
      (∀ occurrence ∈ bodyOccurrences body, occurrence.name ∈ variableNames ds ++ outer) →
      BlockScoped outer ds body

/-- A program stands in a place that sees nothing. -/
def Program.WellScoped (p : Program) : Prop := BlockScoped [] p.block.declarations p.block.body

/-! ## In order -/

/-- What has to hold at one point of a program. -/
inductive Demand where
  /-- The name is declared in `scope`, where the names `taken` are not free. -/
  | fresh (taken : List String) (name : Identifier) (scope : String)
  /-- The variable occurs where the variables `declared` are visible. -/
  | known (declared : List String) (occurrence : Identifier)

namespace Demand

/-- Does it hold? -/
def Met : Demand → Prop
  | fresh taken name _ => name.name ∉ taken
  | known declared occurrence => occurrence.name ∈ declared

instance : DecidablePred Met
  | fresh taken name _ => inferInstanceAs (Decidable (name.name ∉ taken))
  | known declared occurrence => inferInstanceAs (Decidable (occurrence.name ∈ declared))

/-- What is reported if it does not. -/
def error : Demand → Error ScopeFault
  | fresh _ name scope => ⟨.duplicateDeclaration name.name scope, name.position⟩
  | known _ occurrence => ⟨.undeclaredIdentifier occurrence.name, occurrence.position⟩

end Demand

/-- The demands of a body. -/
def bodyDemands (declared : List String) (body : List Statement) : List Demand :=
  (bodyOccurrences body).map (.known declared)

mutual

/-- The demands of a declaration behind the declarations `before` of the same block:
its own name first, then the block of a procedure. -/
def Declaration.demands (scope : String) (outer : List String) (before : List Declaration) :
    Declaration → List Demand
  | .variable name _ => [.fresh (variableNames before) name scope]
  | .procedure name inner own =>
    .fresh (procedureNames before) name scope ::
      (declarationDemands name.name (variableNames before ++ outer) [] inner ++
        bodyDemands (variableNames inner ++ (variableNames before ++ outer)) own)

/-- The demands of declarations behind the declarations `before` of the same block. -/
def declarationDemands (scope : String) (outer : List String) (before : List Declaration) :
    List Declaration → List Demand
  | [] => []
  | d :: ds =>
    d.demands scope outer before ++ declarationDemands scope outer (before ++ [d]) ds

end

/-- The demands of a block: the declarations, and then the body. -/
def blockDemands (scope : String) (outer : List String) (ds : List Declaration)
    (body : List Statement) : List Demand :=
  declarationDemands scope outer [] ds ++ bodyDemands (variableNames ds ++ outer) body

/-- The demands of a program. -/
def Program.demands (p : Program) : List Demand :=
  blockDemands p.name.name [] p.block.declarations p.block.body

/-- The first of some demands that is not met. -/
def FirstUnmet (demands : List Demand) (d : Demand) : Prop :=
  ∃ before after, demands = before ++ d :: after ∧ (∀ x ∈ before, x.Met) ∧ ¬ d.Met

/-! ## The two accounts agree -/

theorem bodyDemands_met_iff {declared : List String} {body : List Statement} :
    (∀ d ∈ bodyDemands declared body, d.Met) ↔
      ∀ occurrence ∈ bodyOccurrences body, occurrence.name ∈ declared := by
  unfold bodyDemands
  rw [List.forall_mem_map]
  rfl

/-- What holds at each split of `d :: ds` holds at the first one and at each later one. -/
theorem forall_split_cons_iff {α : Type} {Q : List α → α → Prop} {a : α} {l : List α} :
    (∀ before x after, a :: l = before ++ x :: after → Q before x) ↔
      Q [] a ∧ ∀ before x after, l = before ++ x :: after → Q (a :: before) x := by
  constructor
  · intro h
    refine ⟨h [] a l rfl, fun before x after heq => h (a :: before) x after ?_⟩
    rw [heq, List.cons_append]
  · rintro ⟨hfirst, hrest⟩ before x after heq
    cases before with
    | nil =>
      cases heq
      exact hfirst
    | cons b before =>
      obtain ⟨rfl, hsplit⟩ := List.cons.inj heq
      exact hrest before x after hsplit

/-- A procedure behind `before` has a well-scoped block; a variable has no block. -/
def Declaration.BlockScoped (outer : List String) (before : List Declaration) :
    Declaration → Prop
  | .variable .. => True
  | .procedure _ inner own => MiniPascal.BlockScoped (variableNames before ++ outer) inner own

theorem blockScoped_iff {outer : List String} {ds : List Declaration} {body : List Statement} :
    BlockScoped outer ds body ↔
      ((variableNames ds).Nodup ∧ (procedureNames ds).Nodup ∧
        ∀ before d after, ds = before ++ d :: after → d.BlockScoped outer before) ∧
      ∀ occurrence ∈ bodyOccurrences body, occurrence.name ∈ variableNames ds ++ outer := by
  constructor
  · rintro ⟨hvars, hprocs, hinner, hbody⟩
    refine ⟨⟨hvars, hprocs, fun before d after heq => ?_⟩, hbody⟩
    match d with
    | .variable .. => trivial
    | .procedure name inner own => exact hinner before name inner own after heq
  · rintro ⟨⟨hvars, hprocs, hinner⟩, hbody⟩
    exact .mk hvars hprocs (fun before name inner own after heq => hinner before _ after heq) hbody

/-- The block of a procedure, given what its declarations demand. -/
theorem blockDemands_met_iff_of {scope : String} {outer : List String} {ds : List Declaration}
    {body : List Statement}
    (h : (∀ d ∈ declarationDemands scope outer [] ds, d.Met) ↔
      (variableNames ds).Nodup ∧ (procedureNames ds).Nodup ∧
        ∀ before d after, ds = before ++ d :: after → d.BlockScoped outer before) :
    (∀ d ∈ blockDemands scope outer ds body, d.Met) ↔ BlockScoped outer ds body := by
  unfold blockDemands
  rw [List.forall_mem_append, h, bodyDemands_met_iff, blockScoped_iff]

/-- A declaration that repeats no name keeps the names different. -/
theorem not_mem_rivals_iff {before : List Declaration} (hvars : (variableNames before).Nodup)
    (hprocs : (procedureNames before).Nodup) (d : Declaration) :
    d.name.name ∉ d.rivals before ↔
      (variableNames (before ++ [d])).Nodup ∧ (procedureNames (before ++ [d])).Nodup := by
  rw [variableNames_append, procedureNames_append]
  match d with
  | .variable name type =>
    rw [show variableNames [.variable name type] = [name.name] from rfl,
      show procedureNames [.variable name type] = [] from rfl, List.append_nil,
      ← List.concat_eq_append, List.nodup_concat]
    exact ⟨fun h => ⟨⟨h, hvars⟩, hprocs⟩, fun h => h.1.1⟩
  | .procedure name inner own =>
    rw [show variableNames [.procedure name inner own] = [] from rfl, List.append_nil,
      show procedureNames [.procedure name inner own] = [name.name] from rfl,
      ← List.concat_eq_append, List.nodup_concat]
    exact ⟨fun h => ⟨hvars, h, hprocs⟩, fun h => h.2.1⟩

mutual

theorem Declaration.demands_met_iff {scope : String} {outer : List String}
    {before : List Declaration} (d : Declaration) :
    (∀ x ∈ d.demands scope outer before, x.Met) ↔
      d.name.name ∉ d.rivals before ∧ d.BlockScoped outer before := by
  match d with
  | .variable name type =>
    rw [Declaration.demands, List.forall_mem_singleton, Declaration.BlockScoped, and_true]
    rfl
  | .procedure name inner own =>
    have hinner : (∀ x ∈ blockDemands name.name (variableNames before ++ outer) inner own, x.Met) ↔
        BlockScoped (variableNames before ++ outer) inner own :=
      blockDemands_met_iff_of (declarationDemands_met_iff inner List.nodup_nil List.nodup_nil)
    rw [show (Declaration.procedure name inner own).demands scope outer before =
        .fresh (procedureNames before) name scope ::
          blockDemands name.name (variableNames before ++ outer) inner own from rfl,
      List.forall_mem_cons, hinner]
    rfl

/-- Behind declarations that do not repeat a name, the demands say that the further
ones do not either and that the blocks among them are well-scoped. -/
theorem declarationDemands_met_iff {scope : String} {outer : List String}
    {before : List Declaration} (ds : List Declaration) (hvars : (variableNames before).Nodup)
    (hprocs : (procedureNames before).Nodup) :
    (∀ x ∈ declarationDemands scope outer before ds, x.Met) ↔
      (variableNames (before ++ ds)).Nodup ∧ (procedureNames (before ++ ds)).Nodup ∧
        ∀ l d l', ds = l ++ d :: l' → d.BlockScoped outer (before ++ l) := by
  match ds with
  | [] =>
    rw [declarationDemands, List.append_nil]
    refine ⟨fun _ => ⟨hvars, hprocs, fun l d l' heq => ?_⟩, fun _ x hx => ?_⟩
    · exact absurd heq (by simp)
    · exact absurd hx List.not_mem_nil
  | d :: ds =>
    rw [declarationDemands, List.forall_mem_append, d.demands_met_iff, forall_split_cons_iff,
      List.append_nil, not_mem_rivals_iff hvars hprocs]
    -- the first declaration joins those before the others, and the recursion goes on there
    constructor
    · rintro ⟨⟨⟨hvars', hprocs'⟩, hblock⟩, hrest⟩
      have ih := (declarationDemands_met_iff ds hvars' hprocs').mp hrest
      simp only [List.append_assoc, List.cons_append, List.nil_append] at ih
      exact ⟨ih.1, ih.2.1, hblock, ih.2.2⟩
    · rintro ⟨hall, hall', hblock, hblocks⟩
      have hvars' : (variableNames (before ++ [d])).Nodup := by
        rw [List.append_cons, variableNames_append] at hall
        exact (List.nodup_append.mp hall).1
      have hprocs' : (procedureNames (before ++ [d])).Nodup := by
        rw [List.append_cons, procedureNames_append] at hall'
        exact (List.nodup_append.mp hall').1
      refine ⟨⟨⟨hvars', hprocs'⟩, hblock⟩, (declarationDemands_met_iff ds hvars' hprocs').mpr ?_⟩
      simp only [List.append_assoc, List.cons_append, List.nil_append]
      exact ⟨hall, hall', hblocks⟩

end

/-- **The order decides only which error it is.** A block is well-scoped exactly if all
of its demands are met. -/
theorem blockScoped_iff_demands {scope : String} {outer : List String} {ds : List Declaration}
    {body : List Statement} :
    BlockScoped outer ds body ↔ ∀ d ∈ blockDemands scope outer ds body, d.Met :=
  (blockDemands_met_iff_of
    (declarationDemands_met_iff ds List.nodup_nil List.nodup_nil)).symm

theorem Program.wellScoped_iff_demands (p : Program) :
    p.WellScoped ↔ ∀ d ∈ p.demands, d.Met := blockScoped_iff_demands

end MiniPascal
