/-
`Listing.lean` -- what a table holds and lists.

A table is filled one declaration after another, into two maps, and is read in two ways.
A look-up asks one of the maps; a listing merges both of them by name. Neither shows how
the table was filled: if no name was declared twice, a look-up finds the declaration of
the name (`findVariable_opened`), and the listing has the symbol of each declaration
exactly once (`symbols_opened_perm`). The order of a listing does not depend on the
declarations at all. Names increase, and where a procedure and a variable share one the
procedure comes first (`pairwise_symbols`), so there is only one such listing.
-/
import Mathlib.Data.List.Induction
import MiniPascal.Proofs.Frame

set_option autoImplicit false

namespace MiniPascal

/-! ## Entries of maps -/

namespace NameMap

variable {α : Type}

theorem put_perm {name : String} (value : α) {l : List (String × α)} (h : l.lookup name = none) :
    (put name value l).Perm ((name, value) :: l) := by
  induction l with
  | nil => rfl
  | cons entry rest ih =>
    have hname : name ≠ entry.1 := by
      rintro rfl
      simp at h
    have hrest : rest.lookup name = none := by
      rwa [List.lookup_cons, beq_eq_false_iff_ne.mpr hname] at h
    rw [put, if_neg hname]
    split
    · rfl
    · exact ((ih hrest).cons entry).trans (.swap _ _ _)

/-- A name that is not bound becomes one more entry. -/
theorem entries_insert_perm {m : NameMap α} {name : String} (h : m.contains name = false)
    (value : α) : (m.insert name value).entries.Perm ((name, value) :: m.entries) :=
  put_perm value (Option.isSome_eq_false_iff.mp h |> Option.isNone_iff_eq_none.mp)

end NameMap

/-! ## The order of a listing -/

/-- By name, and a procedure before a variable of its name. -/
def Symbol.Before (a b : Symbol) : Prop :=
  a.name < b.name ∨ ∃ name type, a = .procedure name ∧ b = .variable name type

/-- A procedure that is merged in front of a variable stands before it. -/
theorem Symbol.before_of_le {name name' : String} {type : VariableType} (h : name ≤ name') :
    Before (.procedure name) (.variable name' type) := by
  by_cases heq : name = name'
  · subst heq
    exact .inr ⟨name, type, rfl, rfl⟩
  · exact .inl (Std.lt_of_le_of_ne h heq)

namespace Table

/-- The symbol of an entry among the procedures. -/
def procedureOf (entry : String × Unit) : Symbol := .procedure entry.1

/-- The symbol of an entry among the variables. -/
def variableOf (entry : String × VariableType) : Symbol := .variable entry.1 entry.2

/-- Merging procedures and variables, each by increasing name. The induction follows the
merge, which always takes the one with the smaller name. -/
theorem pairwise_merge {procs : List (String × Unit)} {vars : List (String × VariableType)}
    (hprocs : procs.Pairwise fun a b => a.1 < b.1) (hvars : vars.Pairwise fun a b => a.1 < b.1) :
    ((procs.map procedureOf).merge (vars.map variableOf)
      fun a b => a.name ≤ b.name).Pairwise Symbol.Before := by
  induction procs generalizing vars with
  | nil =>
    rw [List.map_nil, List.nil_merge]
    exact List.pairwise_map.mpr (hvars.imp .inl)
  | cons proc procs ihprocs =>
    induction vars with
    | nil =>
      rw [List.map_nil, List.merge_right]
      exact List.pairwise_map.mpr (hprocs.imp .inl)
    | cons var vars ihvars =>
      obtain ⟨hproc, hprocs'⟩ := List.pairwise_cons.mp hprocs
      obtain ⟨hvar, hvars'⟩ := List.pairwise_cons.mp hvars
      by_cases hle : proc.1 ≤ var.1
      · have hmerge := List.cons_merge_cons_pos (fun a b : Symbol => a.name ≤ b.name)
          (procs.map procedureOf) (vars.map variableOf) (a := procedureOf proc)
          (b := variableOf var) (decide_eq_true hle)
        rw [List.map_cons, List.map_cons, hmerge, ← List.map_cons]
        refine List.pairwise_cons.mpr ⟨fun symbol hsymbol => ?_, ihprocs hprocs' hvars⟩
        rcases List.mem_merge.mp hsymbol with hmem | hmem
        · obtain ⟨other, hother, rfl⟩ := List.mem_map.mp hmem
          exact .inl (hproc other hother)
        · obtain ⟨other, hother, rfl⟩ := List.mem_map.mp hmem
          rcases List.mem_cons.mp hother with rfl | hother
          · exact Symbol.before_of_le hle
          · exact .inl (Std.lt_of_le_of_lt hle (hvar other hother))
      · have hlt : var.1 < proc.1 := String.not_le.mp hle
        have hmerge := List.cons_merge_cons_neg (fun a b : Symbol => a.name ≤ b.name)
          (procs.map procedureOf) (vars.map variableOf) (a := procedureOf proc)
          (b := variableOf var) (fun h => hle (of_decide_eq_true h))
        rw [List.map_cons, List.map_cons, hmerge, ← List.map_cons]
        refine List.pairwise_cons.mpr ⟨fun symbol hsymbol => ?_, ihvars hvars'⟩
        rcases List.mem_merge.mp hsymbol with hmem | hmem
        · obtain ⟨other, hother, rfl⟩ := List.mem_map.mp hmem
          rcases List.mem_cons.mp hother with rfl | hother
          · exact .inl hlt
          · exact .inl (String.lt_trans hlt (hproc other hother))
        · obtain ⟨other, hother, rfl⟩ := List.mem_map.mp hmem
          exact .inl (hvar other hother)

/-- Every listing is in order. -/
theorem pairwise_symbols (t : Table) : t.symbols.Pairwise Symbol.Before :=
  pairwise_merge t.procs.increasing t.vars.increasing

/-! ## Filling a table -/

theorem symbols_perm (t : Table) :
    t.symbols.Perm (t.procs.entries.map procedureOf ++ t.vars.entries.map variableOf) :=
  List.merge_perm_append _

/-- A declaration that repeats no name adds its symbol to the listing. -/
theorem symbols_declare_perm {t : Table} {d : Declaration}
    (hvars : ∀ name type, d = .variable name type → t.vars.contains name.name = false)
    (hprocs : ∀ name inner own, d = .procedure name inner own →
      t.procs.contains name.name = false) :
    (t.declare d).symbols.Perm (d.symbol :: t.symbols) := by
  refine (symbols_perm _).trans (.trans ?_ (t.symbols_perm.symm.cons _))
  cases d with
  | «variable» name type =>
    have hentries := NameMap.entries_insert_perm (hvars name type rfl) type
    exact ((hentries.map _).append_left _).trans List.perm_middle
  | procedure name inner own =>
    have hentries := NameMap.entries_insert_perm (hprocs name inner own rfl) ()
    exact (hentries.map _).append_right _

end Table

/-- No variable is declared twice, and no procedure is. -/
structure Distinct (ds : List Declaration) : Prop where
  vars : (variableNames ds).Nodup
  procs : (procedureNames ds).Nodup

theorem distinct_nil : Distinct [] := ⟨List.nodup_nil, List.nodup_nil⟩

theorem distinct_concat_iff {ds : List Declaration} {d : Declaration} :
    Distinct (ds ++ [d]) ↔ Distinct ds ∧ d.name.name ∉ d.rivals ds := by
  constructor
  · rintro ⟨hvars, hprocs⟩
    have hvars' : (variableNames ds).Nodup := by
      rw [variableNames_append] at hvars
      exact (List.nodup_append.mp hvars).1
    have hprocs' : (procedureNames ds).Nodup := by
      rw [procedureNames_append] at hprocs
      exact (List.nodup_append.mp hprocs).1
    exact ⟨⟨hvars', hprocs'⟩, (not_mem_rivals_iff hvars' hprocs' d).mpr ⟨hvars, hprocs⟩⟩
  · rintro ⟨⟨hvars, hprocs⟩, hfree⟩
    obtain ⟨hvars', hprocs'⟩ := (not_mem_rivals_iff hvars hprocs d).mp hfree
    exact ⟨hvars', hprocs'⟩

/-- The variable `name`, if this is its declaration. -/
def Declaration.variableAs? (name : String) : Declaration → Option Symbol
  | .variable x type => if x.name = name then some (.variable name type) else none
  | .procedure .. => none

/-- Only a declared variable is found. -/
theorem findSome?_variableAs?_eq_none {name : String} {ds : List Declaration}
    (h : name ∉ variableNames ds) : ds.findSome? (Declaration.variableAs? name) = none := by
  rw [List.findSome?_eq_none_iff]
  intro d hd
  cases d with
  | procedure => rfl
  | «variable» x type =>
    refine if_neg fun hname => h ?_
    exact List.mem_filterMap.mpr ⟨_, hd, congrArg some hname⟩

namespace Table

variable (name : String) (level : Nat) (enclosing : Option ScopeId) {ds : List Declaration}

/-- **A listing is complete.** A table that was filled with declarations, none of them a
second one of its name, lists each of them once. -/
theorem symbols_opened_perm (h : Distinct ds) :
    ((opened name level enclosing).declareAll ds).symbols.Perm (ds.map Declaration.symbol) := by
  induction ds using List.reverseRecOn with
  | nil => exact symbols_perm _
  | append_singleton ds d ih =>
    obtain ⟨hds, hfree⟩ := distinct_concat_iff.mp h
    rw [declareAll_concat, List.map_append]
    refine (symbols_declare_perm ?_ ?_).trans
      (((ih hds).cons _).trans (List.perm_append_singleton _ _).symm)
    · rintro x type rfl
      exact Bool.eq_false_iff.mpr fun hx =>
        hfree ((contains_vars_opened name level enclosing ds _).mp hx)
    · rintro x inner own rfl
      exact Bool.eq_false_iff.mpr fun hx =>
        hfree ((contains_procs_opened name level enclosing ds _).mp hx)

/-- Such a table finds the variables by their declarations. -/
theorem findVariable_opened (h : Distinct ds) (word : String) :
    ((opened name level enclosing).declareAll ds).findVariable word =
      ds.findSome? (Declaration.variableAs? word) := by
  induction ds using List.reverseRecOn with
  | nil => rfl
  | append_singleton ds d ih =>
    obtain ⟨hds, hfree⟩ := distinct_concat_iff.mp h
    rw [declareAll_concat, List.findSome?_append, List.findSome?_singleton, ← ih hds]
    cases d with
    | procedure x inner own => exact Option.or_none.symm
    | «variable» x type =>
      rw [declare, findVariable, NameMap.get?_insert, Declaration.variableAs?]
      by_cases hword : x.name = word
      · subst hword
        -- it is the first declaration of its name
        have hnone : ds.findSome? (Declaration.variableAs? x.name) = none :=
          findSome?_variableAs?_eq_none hfree
        rw [ih hds, hnone, if_pos rfl, if_pos rfl]
        rfl
      · rw [if_neg hword, if_neg fun heq => hword heq.symm, Option.or_none]
        rfl

end Table

end MiniPascal
