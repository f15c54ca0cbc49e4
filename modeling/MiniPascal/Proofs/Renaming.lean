/-
`Renaming.lean` -- names are only ever compared.

Neither the static pass nor an execution looks inside a name. Let `f` give different names
to different names, and rename everything: the program and its procedures, the variables,
and the names in the store. Then both walks do what they did before, and where they stop,
they report the old error with the names that are now in its place.

For the static pass this is said of the demands of the program. They are the renamed demands
in the same order (`Program.demands_rename`), and a demand is met exactly if the renamed one
is, because membership in a list of names survives an injection. For an execution the two
runs go side by side, and the second store is the first one renamed (`NameMap.rename`). Maps
are kept by name, so renaming changes the order of the entries; that it does not matter is
what `NameMap.rename_insert` says.

An operator never blames a name (`RuntimeFault.rename_of_mem_operators`), so its faults stay
as they are.
-/
import Mathlib.Logic.Equiv.Basic
import MiniPascal.Proofs.Footprint
import MiniPascal.Proofs.Resolution
import MiniPascal.Proofs.Reuse

set_option autoImplicit false

namespace MiniPascal

/-! ## Trees -/

section

variable (f : String → String)

/-- The new name in the old place. -/
def Identifier.rename (x : Identifier) : Identifier := ⟨f x.name, x.position⟩

/-- The expression with new names. -/
def Expr.rename : Expr → Expr
  | .literal value position => .literal value position
  | .variable name => .variable (name.rename f)
  | .binary op left right position => .binary op left.rename right.rename position
  | .unary op operand position => .unary op operand.rename position

mutual

/-- The statement with new names. -/
def Statement.rename : Statement → Statement
  | .empty => .empty
  | .assign target value position => .assign (target.rename f) (value.rename f) position
  | .compound body => .compound (renameBody body)

/-- The body with new names. -/
def renameBody : List Statement → List Statement
  | [] => []
  | first :: others => first.rename :: renameBody others

end

mutual

/-- The declaration with new names. -/
def Declaration.rename : Declaration → Declaration
  | .variable name type => .variable (name.rename f) type
  | .procedure name declarations body =>
    .procedure (name.rename f) (renameDeclarations declarations) (renameBody f body)

/-- The declarations with new names. -/
def renameDeclarations : List Declaration → List Declaration
  | [] => []
  | first :: others => first.rename :: renameDeclarations others

end

/-- The program with new names. -/
def Program.rename (p : Program) : Program :=
  ⟨p.name.rename f, ⟨renameDeclarations f p.block.declarations, renameBody f p.block.body⟩⟩

/-- The assignment with new names. -/
def Assignment.rename (a : Assignment) : Assignment := ⟨a.target.rename f, a.value.rename f⟩

mutual

theorem Statement.assignments_rename (s : Statement) :
    (s.rename f).assignments = s.assignments.map (.rename f) := by
  match s with
  | .empty => rfl
  | .assign target value position => rfl
  | .compound body => exact bodyAssignments_rename body

/-- Bodies are lists of assignments, also under new names. -/
theorem bodyAssignments_rename (body : List Statement) :
    bodyAssignments (renameBody f body) = (bodyAssignments body).map (.rename f) := by
  match body with
  | [] => rfl
  | first :: others =>
    rw [renameBody, bodyAssignments, bodyAssignments, first.assignments_rename,
      bodyAssignments_rename others, List.map_append]

end

/-! ## Faults -/

/-- The fault with new names. -/
def ScopeFault.rename : ScopeFault → ScopeFault
  | .duplicateDeclaration name scope => .duplicateDeclaration (f name) (f scope)
  | .undeclaredIdentifier name => .undeclaredIdentifier (f name)

/-- The fault with new names. -/
def RuntimeFault.rename : RuntimeFault → RuntimeFault
  | .divisionByZero => .divisionByZero
  | .overflow => .overflow
  | .unassignedVariable name => .unassignedVariable (f name)

/-- What an operator can be blamed for does not have a name in it. -/
theorem RuntimeFault.rename_of_mem_operators {fault : RuntimeFault} {which : Terminal}
    (h : which ∈ fault.operators) : fault.rename f = fault := by
  cases fault with
  | divisionByZero => rfl
  | overflow => rfl
  | unassignedVariable => cases h

/-! ## Demands of the renamed program -/

/-- The demand with new names. -/
def Demand.rename : Demand → Demand
  | .fresh taken name scope => .fresh (taken.map f) (name.rename f) (f scope)
  | .known declared occurrence => .known (declared.map f) (occurrence.rename f)

theorem Demand.error_rename (d : Demand) : (d.rename f).error = d.error.map (.rename f) := by
  cases d <;> rfl

theorem Expr.occurrences_rename (e : Expr) :
    (e.rename f).occurrences = e.occurrences.map (.rename f) := by
  induction e with
  | literal => rfl
  | «variable» => rfl
  | binary op left right position ihleft ihright =>
    rw [rename, occurrences, occurrences, ihleft, ihright, List.map_append]
  | unary op operand position ih => exact ih

theorem Assignment.occurrences_rename (a : Assignment) :
    (a.rename f).occurrences = a.occurrences.map (.rename f) := by
  rw [occurrences, occurrences, rename, Expr.occurrences_rename, List.map_append]
  rfl

/-- The occurrences of a body are those of its assignments. -/
theorem bodyOccurrences_rename (body : List Statement) :
    bodyOccurrences (renameBody f body) = (bodyOccurrences body).map (.rename f) := by
  have hassignment : (fun a : Assignment => (a.rename f).occurrences) =
      fun a => a.occurrences.map (.rename f) := funext fun a => a.occurrences_rename f
  rw [bodyOccurrences_eq, bodyOccurrences_eq, bodyAssignments_rename, List.flatMap_map,
    List.map_flatMap, hassignment]

theorem renameDeclarations_eq (ds : List Declaration) :
    renameDeclarations f ds = ds.map (.rename f) := by
  induction ds with
  | nil => rfl
  | cons d ds ih => rw [renameDeclarations, ih, List.map_cons]

theorem renameDeclarations_append (ds es : List Declaration) :
    renameDeclarations f (ds ++ es) = renameDeclarations f ds ++ renameDeclarations f es := by
  simp only [renameDeclarations_eq, List.map_append]

theorem variableNames_rename (ds : List Declaration) :
    variableNames (renameDeclarations f ds) = (variableNames ds).map f := by
  rw [renameDeclarations_eq, variableNames, variableNames, List.filterMap_map, List.map_filterMap]
  congr 1
  funext d
  cases d <;> rfl

theorem procedureNames_rename (ds : List Declaration) :
    procedureNames (renameDeclarations f ds) = (procedureNames ds).map f := by
  rw [renameDeclarations_eq, procedureNames, procedureNames, List.filterMap_map,
    List.map_filterMap]
  congr 1
  funext d
  cases d <;> rfl

theorem bodyDemands_rename (declared : List String) (body : List Statement) :
    bodyDemands (declared.map f) (renameBody f body) =
      (bodyDemands declared body).map (.rename f) := by
  unfold bodyDemands
  rw [bodyOccurrences_rename, List.map_map, List.map_map]
  rfl

mutual

theorem Declaration.demands_rename (scope : String) (outer : List String)
    (before : List Declaration) (d : Declaration) :
    (d.rename f).demands (f scope) (outer.map f) (renameDeclarations f before) =
      (d.demands scope outer before).map (.rename f) := by
  match d with
  | .variable name type =>
    rw [Declaration.rename, Declaration.demands, Declaration.demands, variableNames_rename]
    rfl
  | .procedure name inner own =>
    -- the block of the procedure begins with no declarations before it
    have hinner := declarationDemands_rename name.name (variableNames before ++ outer) [] inner
    rw [renameDeclarations, List.map_append] at hinner
    have hbody := bodyDemands_rename f (variableNames inner ++ (variableNames before ++ outer)) own
    rw [List.map_append, List.map_append] at hbody
    rw [Declaration.rename, Declaration.demands, Declaration.demands, procedureNames_rename,
      variableNames_rename, variableNames_rename, List.map_cons, List.map_append, ← hinner, ← hbody]
    rfl

theorem declarationDemands_rename (scope : String) (outer : List String)
    (before ds : List Declaration) :
    declarationDemands (f scope) (outer.map f) (renameDeclarations f before)
        (renameDeclarations f ds) =
      (declarationDemands scope outer before ds).map (.rename f) := by
  match ds with
  | [] => rfl
  | d :: ds =>
    -- the others stand behind this one, under its new name
    have hothers := declarationDemands_rename scope outer (before ++ [d]) ds
    rw [renameDeclarations_append] at hothers
    rw [renameDeclarations, declarationDemands, declarationDemands, List.map_append,
      d.demands_rename, ← hothers]
    rfl

end

/-- The renamed program demands the same of its new names, and in the same order. -/
theorem Program.demands_rename (p : Program) :
    (p.rename f).demands = p.demands.map (.rename f) := by
  have hdeclarations := declarationDemands_rename f p.name.name [] [] p.block.declarations
  have hbody := bodyDemands_rename f (variableNames p.block.declarations ++ []) p.block.body
  unfold demands blockDemands
  rw [List.map_append, ← hdeclarations, ← hbody, List.map_append, ← variableNames_rename]
  rfl

end

variable {f : String → String}

theorem Demand.met_rename (hf : Function.Injective f) (d : Demand) : (d.rename f).Met ↔ d.Met := by
  cases d with
  | fresh taken name scope => exact not_congr (List.mem_map_of_injective hf)
  | known declared occurrence => exact List.mem_map_of_injective hf

theorem Resolve.firstUnmet?_rename (hf : Function.Injective f) (demands : List Demand) :
    firstUnmet? (demands.map (.rename f)) = (firstUnmet? demands).map (.rename f) := by
  have hmet : (fun d : Demand => decide ¬ d.Met) ∘ Demand.rename f = fun d => decide ¬ d.Met := by
    funext d
    exact decide_eq_decide.mpr (not_congr (d.met_rename hf))
  unfold firstUnmet?
  rw [List.find?_map, hmet]

theorem Resolve.failure?_rename (hf : Function.Injective f) (p : Program) (r s : Resolver) :
    failure? (program (p.rename f) s) = (failure? (program p r)).map (.map (.rename f)) := by
  rw [failure?_program, failure?_program, p.demands_rename, firstUnmet?_rename hf, Option.map_map,
    Option.map_map]
  congr 1
  funext d
  exact d.error_rename f

/-! ## The renamed store -/

namespace NameMap

variable {α : Type}

/-- The map with its values under new names. -/
def rename (f : String → String) (m : NameMap α) : NameMap α :=
  m.entries.foldl (fun n entry => n.insert (f entry.1) entry.2) ∅

theorem get?_rename (hf : Function.Injective f) (m : NameMap α) (name : String) :
    (m.rename f).get? (f name) = m.get? name := by
  rw [rename, get?_foldl_insert hf m.increasing]
  exact Option.or_none

/-- What is not a new name is not bound. -/
theorem get?_rename_of_forall_ne (m : NameMap α) {other : String} (h : ∀ name, other ≠ f name) :
    (m.rename f).get? other = none := by
  have hfold (l : List (String × α)) (n : NameMap α) :
      (l.foldl (fun n entry => n.insert (f entry.1) entry.2) n).get? other = n.get? other := by
    induction l generalizing n with
    | nil => rfl
    | cons entry l ih => rw [List.foldl_cons, ih, get?_insert, if_neg (h entry.1)]
  exact hfold m.entries ∅

/-- It makes no difference whether an entry is renamed with the others or added under its new
name. -/
theorem rename_insert (hf : Function.Injective f) (m : NameMap α) (name : String) (value : α) :
    (m.insert name value).rename f = (m.rename f).insert (f name) value := by
  apply ext_get?
  intro other
  rw [get?_insert]
  by_cases hother : ∃ old, other = f old
  -- a new name belongs to one old name only
  · obtain ⟨old, rfl⟩ := hother
    rw [get?_rename hf, get?_rename hf, get?_insert]
    exact if_congr hf.eq_iff.symm rfl rfl
  · have hnew : ∀ old, other ≠ f old := fun old heq => hother ⟨old, heq⟩
    rw [get?_rename_of_forall_ne _ hnew, get?_rename_of_forall_ne _ hnew, if_neg (hnew name)]

end NameMap

/-! ## Execution of the renamed program -/

/-- An operator that can be blamed fails as before. -/
theorem Number.located_rename {position : Position} {outcome : Except RuntimeFault Number}
    {which : Terminal} (h : ∀ fault, outcome = .error fault → which ∈ fault.operators) :
    (located position outcome).mapError (.map (.rename f)) = located position outcome := by
  cases outcome with
  | ok value => rfl
  | error fault =>
    have hfault := RuntimeFault.rename_of_mem_operators f (h fault rfl)
    exact congrArg (fun fault' => Except.error (Error.mk fault' position)) hfault

theorem Expr.value_rename (hf : Function.Injective f) (s : Store) (e : Expr) :
    (e.rename f).value (s.rename f) = (e.value s).mapError (.map (.rename f)) := by
  induction e with
  | literal => rfl
  | «variable» x =>
    rw [rename, value, value, Identifier.rename, NameMap.get?_rename hf]
    cases s.get? x.name <;> rfl
  | unary op operand position ih =>
    rw [rename, value, value, ih]
    cases operand.value s with
    | error e => rfl
    | ok a => exact (Number.located_rename fun _ => Number.terminal_mem_of_unary).symm
  | binary op left right position ihleft ihright =>
    rw [rename, value, value, ihleft, ihright]
    cases left.value s with
    | error e => rfl
    | ok a =>
      cases right.value s with
      | error e => rfl
      -- the values are the old ones, and so is what the operator does with them
      | ok b => exact (Number.located_rename fun _ => Number.terminal_mem_of_binary).symm

variable {s s' : Store} {as : List Assignment}

/-- The step lemma: an assignment leads from renamed store to renamed store. -/
theorem Assignment.perform_rename (hf : Function.Injective f) {a : Assignment}
    (h : a.perform s = .ok s') : (a.rename f).perform (s.rename f) = .ok (s'.rename f) := by
  cases hvalue : a.value.value s with
  | error e =>
    rw [perform_of_error hvalue] at h
    cases h
  | ok value =>
    rw [perform_of_ok hvalue] at h
    cases h
    have hsame : (a.rename f).value.value (s.rename f) = .ok value := by
      rw [rename, Expr.value_rename hf, hvalue]
      rfl
    rw [perform_of_ok hsame, Store.assign, Store.assign, NameMap.rename_insert hf]
    rfl

theorem performAll_rename (hf : Function.Injective f) (h : performAll s as = .ok s') :
    performAll (s.rename f) (as.map (.rename f)) = .ok (s'.rename f) :=
  performAll_simulated (Assignment.perform_rename hf) h

/-- The run lemma: all assignments are performed as before, or those up to the same one. -/
theorem Performs.rename (hf : Function.Injective f) {outcome : Except (Error RuntimeFault) Unit}
    (h : Performs s as outcome s') :
    Performs (s.rename f) (as.map (.rename f)) (outcome.mapError (.map (.rename f)))
      (s'.rename f) := by
  cases h with
  | all hall => exact .all (performAll_rename hf hall)
  | upTo hbefore hfails =>
    rw [List.map_append, List.map_cons]
    refine .upTo (performAll_rename hf hbefore) ?_
    -- what is renamed in the error is the variable that is to blame, if it is one
    rw [Assignment.rename, Expr.value_rename hf, hfails]
    rfl

/-! ## Other names -/

namespace Arena

variable {a b : Arena} {scope : ScopeId} {symbol : Symbol} {name : String}

/-- A scope that is not open takes no symbol. -/
theorem eq_of_insert?_of_not_isOpen (hscope : ¬ a.isOpen scope = true)
    (h : a.insert? scope symbol = some b) : b = a := by
  obtain ⟨t, -, rfl⟩ := Option.map_eq_some_iff.mp h
  rw [isOpen_iff, Nat.not_lt] at hscope
  rw [Array.setIfInBounds_eq_of_size_le hscope]

theorem find?_insert?_of_ne (h : a.insert? scope symbol = some b) (hname : symbol.name ≠ name)
    (id : ScopeId) (space : NameSpace) :
    (b.table id).find? space name = (a.table id).find? space name := by
  by_cases hscope : a.isOpen scope = true
  · rw [find?_insert? hscope h, if_neg fun hboth => hname hboth.2.2.symm]
  · rw [eq_of_insert?_of_not_isOpen hscope h]

theorem lookup_insert?_of_ne (h : a.insert? scope symbol = some b) (hname : symbol.name ≠ name)
    (id : ScopeId) : b.lookup id name = a.lookup id name := by
  by_cases hscope : a.isOpen scope = true
  · exact lookup_congr (fun other _ => find?_insert?_of_ne h hname other .vars)
      (fun other _ => enclosing_insert? hscope h other) (Nat.lt_succ_self id.index)
  · rw [eq_of_insert?_of_not_isOpen hscope h]

end Arena

/-- **Names are opaque.** Let `f` be injective. The static pass on the renamed program fails
exactly if it fails on the program, at the same place and with the fault renamed; what the
resolvers have seen before does not matter. From the renamed store the renamed program has
the outcome that the program has from the store, with the name in its error renamed, and
leaves the renamed store.

So names that are not equal are different everywhere, be it only by the case of a letter. When
one has been declared, as a variable or a procedure and in whatever scope, the other still
means in each scope what it meant, and can be declared where it could be. When one has been
assigned, the other has the value that it had, or none. -/
theorem names_opaque {f : String → String} (hf : Function.Injective f) :
    (∀ (p : Program) (r s : Resolver), failure? (Resolve.program (p.rename f) s) =
      (failure? (Resolve.program p r)).map (.map (.rename f))) ∧
    (∀ (p : Program) (m m' : Machine), m'.store = m.store.rename f →
      (m'.interpret (p.rename f)).1 = (m.interpret p).1.mapError (.map (.rename f)) ∧
      (m'.interpret (p.rename f)).2.store = (m.interpret p).2.store.rename f) ∧
    ∀ one other : String, one ≠ other →
      (∀ (a b : Arena) scope symbol, symbol.name = one → a.insert? scope symbol = some b →
        ∀ id, b.lookup id other = a.lookup id other ∧
          ∀ symbol', symbol'.name = other →
            (b.insert? id symbol' = none ↔ a.insert? id symbol' = none)) ∧
      ∀ (s : Store) value, (s.assign one value).get? other = s.get? other := by
  refine ⟨fun p r s => Resolve.failure?_rename hf p r s, fun p m m' hstore => ?_, ?_⟩
  · have hrun := (m.performs_interpret p).rename hf
    rw [← bodyAssignments_rename, ← hstore] at hrun
    exact Machine.interpret_iff_performs.mpr hrun
  · intro one other hne
    refine ⟨?_, fun s value => ?_⟩
    · rintro a b scope symbol rfl hinsert id
      refine ⟨Arena.lookup_insert?_of_ne hinsert hne id, ?_⟩
      rintro symbol' rfl
      rw [Arena.insert?_eq_none_iff, Arena.insert?_eq_none_iff,
        Arena.find?_insert?_of_ne hinsert hne]
    · rw [Store.assign, NameMap.get?_insert, if_neg hne.symm]

/-- Variables `count` and `Count`, a procedure `COUNT`, and a body that reads a variable `COUNT`
in its second assignment. -/
def Program.counting : Program :=
  let place : Position := .start
  ⟨⟨"demo", place⟩,
    [.variable ⟨"count", place⟩ .integer, .variable ⟨"Count", place⟩ .real,
      .procedure ⟨"COUNT", place⟩ [] []],
    [.assign ⟨"count", place⟩ (.literal (.integer 1) place) place,
      .assign ⟨"Count", place⟩ (.variable ⟨"COUNT", ⟨4, 12⟩⟩) place]⟩

/-- With `COUNT` and `other` exchanged, which touches none of the variables, `other` is what is
not declared and, in an execution, what has no value. The first assignment is done, and
`Count` has not been bound by it. -/
theorem names_opaque_counting :
    let p := Program.counting.rename (Equiv.swap "COUNT" "other")
    failure? (Resolve.program p .fresh) =
        some ⟨.undeclaredIdentifier "other", ⟨4, 12⟩⟩ ∧
      (Machine.fresh.interpret p).1 = .error ⟨.unassignedVariable "other", ⟨4, 12⟩⟩ ∧
      (Machine.fresh.interpret p).2.store.get? "count" = some (.integer 1) ∧
      (Machine.fresh.interpret p).2.store.get? "Count" = none := by
  intro p
  have hfailure : failure? (Resolve.program .counting .fresh) =
      some ⟨.undeclaredIdentifier "COUNT", ⟨4, 12⟩⟩ := Resolve.failure?_program _ _
  obtain ⟨hresolve, hrun, -⟩ := names_opaque (Equiv.swap "COUNT" "other").injective
  obtain ⟨houtcome, hstore⟩ := hrun .counting .fresh .fresh rfl
  refine ⟨?_, ?_, ?_, ?_⟩
  · rw [hresolve .counting .fresh .fresh, hfailure]
    rfl
  · rw [houtcome]
    rfl
  · rw [hstore]
    rfl
  · rw [hstore]
    rfl

end MiniPascal
