/-
`Frame.lean` -- the arena while a block is worked on.

While the static pass is inside a block, that block's scope is the innermost one and
its table holds the declarations met so far; the scopes outside are as they were when
the block was entered. A `Frame` is what stays the same during a block, so the arena
is a function of the frame and of the declarations met so far (`Frame.arena`), and the
operations on an arena need to be looked at only in this form.

Scopes refer outward to smaller indices, so a scope outside the block cannot notice
what happens to the block's own table (`lookup_push_of_lt`). This one fact is the
reason why working on a nested block leaves nothing behind.
-/
import MiniPascal.Proofs.WellScoped
import MiniPascal.Scope.Arena

set_option autoImplicit false

namespace MiniPascal

theorem NameMap.contains_insert {α : Type} (m : NameMap α) (name other : String) (value : α) :
    (m.insert name value).contains other = (other == name || m.contains other) := by
  rw [contains, get?_insert, contains]
  by_cases h : other = name
  · rw [if_pos h, beq_iff_eq.mpr h]
    rfl
  · rw [if_neg h, beq_eq_false_iff_ne.mpr h]
    rfl

/-! ## Tables -/

/-- The symbol of a declaration. -/
def Declaration.symbol : Declaration → Symbol
  | .variable name type => .variable name.name type
  | .procedure name _ _ => .procedure name.name

namespace Table

/-- The table with one more declaration. -/
def declare (t : Table) : Declaration → Table
  | .variable name type => { t with vars := t.vars.insert name.name type }
  | .procedure name _ _ => { t with procs := t.procs.insert name.name () }

/-- The table with some more declarations. -/
def declareAll (t : Table) (ds : List Declaration) : Table := ds.foldl declare t

theorem declareAll_concat (t : Table) (ds : List Declaration) (d : Declaration) :
    t.declareAll (ds ++ [d]) = (t.declareAll ds).declare d := by
  rw [declareAll, List.foldl_append]
  rfl

theorem declareAll_cons (t : Table) (d : Declaration) (ds : List Declaration) :
    t.declareAll (d :: ds) = (t.declare d).declareAll ds := rfl

/-- Declaring says nothing about where the block stands. -/
theorem declareAll_frame (t : Table) (ds : List Declaration) :
    (t.declareAll ds).name = t.name ∧ (t.declareAll ds).level = t.level ∧
      (t.declareAll ds).enclosing = t.enclosing := by
  induction ds generalizing t with
  | nil => exact ⟨rfl, rfl, rfl⟩
  | cons d ds ih =>
    rw [declareAll_cons]
    obtain ⟨hname, hlevel, henclosing⟩ := ih (t.declare d)
    rw [hname, hlevel, henclosing]
    cases d <;> exact ⟨rfl, rfl, rfl⟩

theorem contains_vars_declareAll (t : Table) (ds : List Declaration) (name : String) :
    (t.declareAll ds).vars.contains name = true ↔
      name ∈ variableNames ds ∨ t.vars.contains name = true := by
  induction ds generalizing t with
  | nil => simp [declareAll]
  | cons d ds ih =>
    rw [declareAll_cons, ih]
    cases d with
    | «variable» word type =>
      rw [show variableNames (.variable word type :: ds) = word.name :: variableNames ds from rfl,
        declare, NameMap.contains_insert, List.mem_cons, Bool.or_eq_true, beq_iff_eq]
      exact or_left_comm.trans or_assoc.symm
    | procedure => rfl

theorem contains_procs_declareAll (t : Table) (ds : List Declaration) (name : String) :
    (t.declareAll ds).procs.contains name = true ↔
      name ∈ procedureNames ds ∨ t.procs.contains name = true := by
  induction ds generalizing t with
  | nil => simp [declareAll]
  | cons d ds ih =>
    rw [declareAll_cons, ih]
    cases d with
    | «variable» => rfl
    | procedure word inner own =>
      rw [show procedureNames (.procedure word inner own :: ds) = word.name :: procedureNames ds
        from rfl, declare, NameMap.contains_insert, List.mem_cons, Bool.or_eq_true, beq_iff_eq]
      exact or_left_comm.trans or_assoc.symm

/-! A new table holds exactly what was declared in it. -/

variable (name : String) (level : Nat) (enclosing : Option ScopeId) (ds : List Declaration)

theorem contains_vars_opened (word : String) :
    ((opened name level enclosing).declareAll ds).vars.contains word = true ↔
      word ∈ variableNames ds := by
  rw [contains_vars_declareAll]
  exact or_iff_left Bool.false_ne_true

theorem contains_procs_opened (word : String) :
    ((opened name level enclosing).declareAll ds).procs.contains word = true ↔
      word ∈ procedureNames ds := by
  rw [contains_procs_declareAll]
  exact or_iff_left Bool.false_ne_true

/-- It takes one more declaration unless that repeats a name. -/
theorem insert?_opened (d : Declaration) :
    ((opened name level enclosing).declareAll ds).insert? d.symbol =
      if d.name.name ∈ d.rivals ds then none
      else some ((opened name level enclosing).declareAll (ds ++ [d])) := by
  rw [declareAll_concat]
  cases d with
  | «variable» word type =>
    rw [Declaration.symbol, insert?]
    simp only [contains_vars_opened]
    rfl
  | procedure word inner own =>
    rw [Declaration.symbol, insert?]
    simp only [contains_procs_opened]
    rfl

/-- It finds the variables that were declared. -/
theorem isSome_findVariable_opened (word : String) :
    (((opened name level enclosing).declareAll ds).findVariable word).isSome = true ↔
      word ∈ variableNames ds := by
  rw [findVariable, Option.isSome_map]
  exact contains_vars_opened name level enclosing ds word

end Table

/-! ## Looking up -/

namespace Arena

theorem table_push_of_lt {tables : Array Table} {own : Table} {id : ScopeId}
    (h : id.index < tables.size) :
    (Arena.mk (tables.push own)).table id = (Arena.mk tables).table id := by
  rw [table, Array.getElem?_push, if_neg (Nat.ne_of_lt h), table]

@[simp] theorem table_push_self (tables : Array Table) (own : Table) :
    (Arena.mk (tables.push own)).table ⟨tables.size⟩ = own := by
  rw [table, Array.getElem?_push_size]
  rfl

/-- What a name means beyond the own table of a scope. -/
def outward (a : Arena) (id : ScopeId) (name : String) : Option Symbol :=
  (a.table id).enclosing.bind fun outer =>
    if outer.index < id.index then a.lookup outer name else none

theorem lookup_eq (a : Arena) (id : ScopeId) (name : String) :
    a.lookup id name = ((a.table id).findVariable name).or (a.outward id name) := by
  rw [lookup, outward]
  cases (a.table id).findVariable name with
  | some symbol => rfl
  | none => cases (a.table id).enclosing <;> rfl

/-- What a name means in a scope depends on the tables up to that scope, and there only on
what they have under this name and on which scope each of them is nested in. -/
theorem lookup_congr {a b : Arena} {n : Nat} {name : String}
    (hfind : ∀ id : ScopeId, id.index < n →
      (b.table id).findVariable name = (a.table id).findVariable name)
    (henclosing : ∀ id : ScopeId, id.index < n → (b.table id).enclosing = (a.table id).enclosing)
    {id : ScopeId} (h : id.index < n) : b.lookup id name = a.lookup id name := by
  induction hindex : id.index using Nat.strongRecOn generalizing id with
  | ind k ih =>
    -- both look into the same table first, and then further out, where the index is smaller
    rw [lookup_eq, lookup_eq, outward, outward, hfind id h, henclosing id h]
    congr 2
    funext outer
    by_cases hlt : outer.index < id.index
    · rw [if_pos hlt, if_pos hlt, ih outer.index (hindex ▸ hlt) (Nat.lt_trans hlt h) rfl]
    · rw [if_neg hlt, if_neg hlt]

/-- A scope further out does not see the innermost one. -/
theorem lookup_push_of_lt {tables : Array Table} {own : Table} {id : ScopeId}
    (h : id.index < tables.size) (name : String) :
    (Arena.mk (tables.push own)).lookup id name = (Arena.mk tables).lookup id name :=
  lookup_congr (fun _ hid => by rw [table_push_of_lt hid])
    (fun _ hid => by rw [table_push_of_lt hid]) h

end Arena

/-! ## Frames -/

/-- What stays the same while a block is worked on: the scopes outside, and where the
block stands. -/
structure Frame where
  outside : Array Table
  name : String
  level : Nat
  enclosing : Option ScopeId

namespace Frame

variable {f : Frame} {ds : List Declaration}

/-- The scope of the block. -/
def scope (f : Frame) : ScopeId := ⟨f.outside.size⟩

/-- Its table after some declarations. -/
def table (f : Frame) (ds : List Declaration) : Table :=
  (Table.opened f.name f.level f.enclosing).declareAll ds

/-- All open scopes after some declarations. -/
def arena (f : Frame) (ds : List Declaration) : Arena := ⟨f.outside.push (f.table ds)⟩

/-- The frame of a procedure's block that follows some declarations. -/
def inner (f : Frame) (ds : List Declaration) (name : String) : Frame :=
  ⟨(f.arena ds).tables, name, f.level + 1, some f.scope⟩

/-- The variables that are visible from outside are those of a list. -/
structure Sees (f : Frame) (outer : List String) : Prop where
  enclosing_lt : ∀ id ∈ f.enclosing, id.index < f.outside.size
  visible_iff : ∀ name,
    (f.enclosing.bind fun id => (Arena.mk f.outside).lookup id name).isSome = true ↔ name ∈ outer

@[simp] theorem table_arena : (f.arena ds).table f.scope = f.table ds :=
  Arena.table_push_self f.outside (f.table ds)

theorem name_table : (f.table ds).name = f.name :=
  (Table.declareAll_frame _ ds).1

/-- Inside a block its own variables are visible, and those from outside. -/
theorem isSome_lookup {outer : List String} (h : f.Sees outer) (name : String) :
    ((f.arena ds).lookup f.scope name).isSome = true ↔ name ∈ variableNames ds ++ outer := by
  have houtward : (f.arena ds).outward f.scope name =
      f.enclosing.bind fun id => (Arena.mk f.outside).lookup id name := by
    rw [Arena.outward, table_arena, table, (Table.declareAll_frame _ ds).2.2]
    refine Option.bind_congr fun id hid => ?_
    have hlt := h.enclosing_lt id hid
    rw [if_pos (show id.index < f.scope.index from hlt)]
    exact Arena.lookup_push_of_lt hlt name
  rw [Arena.lookup_eq, table_arena, Option.isSome_or, Bool.or_eq_true, houtward, h.visible_iff,
    table, Table.isSome_findVariable_opened, List.mem_append]

/-- So that is what a nested block sees. -/
theorem Sees.inner {outer : List String} (h : f.Sees outer) (name : String) :
    (f.inner ds name).Sees (variableNames ds ++ outer) where
  enclosing_lt := by
    intro id hid
    cases hid
    rw [Frame.inner, arena, Array.size_push]
    exact Nat.lt_succ_self _
  visible_iff := isSome_lookup h

/-- Declaring in the scope of the block adds to its table. -/
theorem insert?_arena (d : Declaration) :
    (f.arena ds).insert? f.scope d.symbol =
      if d.name.name ∈ d.rivals ds then none else some (f.arena (ds ++ [d])) := by
  rw [Arena.insert?, table_arena, table, Table.insert?_opened]
  split
  · rfl
  -- the own table is the last one, so that changing it is pushing another one in its place
  · rw [Option.map_some, arena, scope, Array.setIfInBounds_def,
      dif_pos (by rw [Array.size_push]; exact Nat.lt_succ_self _), Array.set_push,
      dif_neg (Nat.lt_irrefl _)]
    rfl

end Frame

end MiniPascal
