/-
`Enclosure.lean` -- open scopes and what encloses them.

A scope is called by its index among the open ones, and nothing ties an index to the
scope it was given out for: after a scope has been closed its index means the next one
that is opened there. What makes such calls harmless is that a scope can only be enclosed
by one that is open when it is opened, hence by one with a smaller index, and that one
cannot be closed before it. This is `Nested`, and every operation keeps it that names
open scopes only, whatever scope they were meant for (`nested_of_perform?`).

So the way outward from an open scope is finite and stays among the open scopes
(`Nested.exists_chain`). `Arena.lookup` compares two indices before it goes on; in a
nested arena the comparison never fails, and the search that does not make it, but may be
at open scopes only, finds the same (`Nested.search_iff`).
-/
import MiniPascal.Proofs.Frame

set_option autoImplicit false

namespace MiniPascal

/-- Symbols do not move a table. -/
theorem Table.insert?_frame {t t' : Table} {symbol : Symbol} (h : t.insert? symbol = some t') :
    t'.level = t.level ∧ t'.enclosing = t.enclosing := by
  cases symbol with
  | «variable» name type =>
    rw [insert?] at h
    split at h
    · cases h
    · cases h
      exact ⟨rfl, rfl⟩
  | procedure name =>
    rw [insert?] at h
    split at h
    · cases h
    · cases h
      exact ⟨rfl, rfl⟩

namespace Arena

/-! ## Operations -/

/-- One use of an arena. -/
inductive Operation where
  | push (name : String) (enclosing : Option ScopeId)
  | pop
  | insert (scope : ScopeId) (symbol : Symbol)
  | lookup (scope : ScopeId) (name : String)

namespace Operation

/-- The scopes that it names. -/
def scopes : Operation → List ScopeId
  | push _ enclosing => enclosing.toList
  | pop => []
  | insert scope _ => [scope]
  | lookup scope _ => [scope]

/-- The arena afterwards. A symbol whose name is taken changes nothing, and neither does
looking up. -/
def apply (a : Arena) : Operation → Arena
  | push name enclosing => (a.push name enclosing).2
  | pop => a.pop.2
  | insert scope symbol => (a.insert? scope symbol).getD a
  | lookup _ _ => a

end Operation

/-- One operation, if the scopes that it names are open. -/
def perform? (a : Arena) (op : Operation) : Option Arena :=
  if op.scopes.all a.isOpen then some (op.apply a) else none

/-- Operations one after another, each naming only scopes that are open at its time. -/
def performAll? (a : Arena) (ops : List Operation) : Option Arena := ops.foldlM perform? a

theorem perform?_eq_some_iff {a b : Arena} {op : Operation} :
    a.perform? op = some b ↔ (∀ id ∈ op.scopes, a.isOpen id = true) ∧ op.apply a = b := by
  rw [perform?, Option.ite_none_right_eq_some, List.all_eq_true, Option.some.injEq]

theorem performAll?_cons (a : Arena) (op : Operation) (ops : List Operation) :
    a.performAll? (op :: ops) = (a.perform? op).bind fun b => b.performAll? ops := by
  rw [performAll?, List.foldlM_cons]
  rfl

theorem performAll?_append (a : Arena) (ops ops' : List Operation) :
    a.performAll? (ops ++ ops') = (a.performAll? ops).bind fun b => b.performAll? ops' := by
  rw [performAll?, List.foldlM_append]
  rfl

/-! ## Tables of open scopes -/

variable {a b : Arena} {id outer : ScopeId}

theorem isOpen_iff : a.isOpen id = true ↔ id.index < a.tables.size := by
  rw [isOpen, decide_eq_true_iff, size]

theorem table_pop_of_lt (h : id.index < a.tables.size - 1) : a.pop.2.table id = a.table id := by
  have hpop : a.tables.pop[id.index]? = a.tables[id.index]? := by
    rw [Array.getElem?_pop, if_pos h]
  rw [pop, table, hpop, table]

/-- Replacing a table replaces the table of its index. -/
theorem table_set (tables : Array Table) (t : Table) (scope : ScopeId)
    (h : scope.index < tables.size) (id : ScopeId) :
    (Arena.mk (tables.setIfInBounds scope.index t)).table id =
      if id.index = scope.index then t else (Arena.mk tables).table id := by
  rw [table, Array.getElem?_setIfInBounds]
  split
  · next heq =>
    rw [if_pos heq.symm]
    rfl
  · next hne =>
    rw [if_neg fun heq => hne heq.symm]
    rfl

/-! ## Nested arenas -/

/-- How deep a scope is that is opened here. -/
def levelInside (a : Arena) : Option ScopeId → Nat
  | none => 1
  | some outer => (a.table outer).level + 1

/-- Every open scope is enclosed by an earlier one, if by any, and one level deeper. -/
structure Nested (a : Arena) : Prop where
  enclosing_lt : ∀ id, a.isOpen id = true → ∀ outer ∈ (a.table id).enclosing,
    outer.index < id.index
  level_eq : ∀ id, a.isOpen id = true → (a.table id).level = a.levelInside (a.table id).enclosing

/-- What encloses an open scope is open. -/
theorem Nested.isOpen_enclosing (h : a.Nested) (hid : a.isOpen id = true)
    (houter : (a.table id).enclosing = some outer) : a.isOpen outer = true :=
  isOpen_iff.mpr (Nat.lt_trans (h.enclosing_lt id hid outer houter) (isOpen_iff.mp hid))

theorem nested_empty : Nested empty where
  enclosing_lt _ hid := absurd (isOpen_iff.mp hid) (Nat.not_lt_zero _)
  level_eq _ hid := absurd (isOpen_iff.mp hid) (Nat.not_lt_zero _)

/-- An arena is nested if another one is, whose scopes stand where its own ones do. -/
theorem Nested.of_tables (h : a.Nested) (hopen : ∀ id, b.isOpen id = true → a.isOpen id = true)
    (htables : ∀ id, b.isOpen id = true → (b.table id).level = (a.table id).level ∧
      (b.table id).enclosing = (a.table id).enclosing) : b.Nested where
  enclosing_lt id hid outer houter := by
    rw [(htables id hid).2] at houter
    exact h.enclosing_lt id (hopen id hid) outer houter
  level_eq id hid := by
    obtain ⟨hlevel, henclosing⟩ := htables id hid
    rw [hlevel, henclosing, h.level_eq id (hopen id hid)]
    cases houter : (a.table id).enclosing with
    | none => rfl
    | some outer =>
      -- what encloses an open scope of `b` has a smaller index, so it is open there too
      have hlt : outer.index < id.index := h.enclosing_lt id (hopen id hid) outer houter
      have houter' : b.isOpen outer = true :=
        isOpen_iff.mpr (Nat.lt_trans hlt (isOpen_iff.mp hid))
      rw [levelInside, levelInside, (htables outer houter').1]

theorem Nested.push (h : a.Nested) (name : String) {enclosing : Option ScopeId}
    (henclosing : ∀ outer ∈ enclosing, a.isOpen outer = true) :
    (a.push name enclosing).2.Nested := by
  have hpush : (a.push name enclosing).2 =
      ⟨a.tables.push (.opened name (a.levelInside enclosing) enclosing)⟩ := by
    cases enclosing <;> rfl
  -- the scopes that were open keep their tables
  have hold : ∀ id, a.isOpen id = true → (a.push name enclosing).2.table id = a.table id := by
    intro id hid
    rw [hpush]
    exact table_push_of_lt (isOpen_iff.mp hid)
  have hlevel : ∀ e : Option ScopeId, (∀ outer ∈ e, a.isOpen outer = true) →
      (a.push name enclosing).2.levelInside e = a.levelInside e := by
    intro e he
    cases e with
    | none => rfl
    | some outer => rw [levelInside, levelInside, hold outer (he outer rfl)]
  have hcases : ∀ id, (a.push name enclosing).2.isOpen id = true →
      a.isOpen id = true ∨ id = ⟨a.tables.size⟩ := by
    intro id hid
    rw [hpush, isOpen_iff, Array.size_push] at hid
    rcases Nat.lt_succ_iff_lt_or_eq.mp hid with hlt | heq
    · exact .inl (isOpen_iff.mpr hlt)
    · exact .inr (congrArg ScopeId.mk heq)
  have hnew : (a.push name enclosing).2.table ⟨a.tables.size⟩ =
      .opened name (a.levelInside enclosing) enclosing := by
    rw [hpush, table_push_self]
  constructor
  · intro id hid outer houter
    rcases hcases id hid with hid | rfl
    · rw [hold id hid] at houter
      exact h.enclosing_lt id hid outer houter
    · rw [hnew] at houter
      exact isOpen_iff.mp (henclosing outer houter)
  · intro id hid
    rcases hcases id hid with hid | rfl
    · rw [hold id hid, hlevel _ fun outer houter => h.isOpen_enclosing hid houter]
      exact h.level_eq id hid
    · rw [hnew]
      exact (hlevel enclosing henclosing).symm

theorem Nested.pop (h : a.Nested) : a.pop.2.Nested := by
  have hlt : ∀ id, a.pop.2.isOpen id = true → id.index < a.tables.size - 1 := by
    intro id hid
    rw [isOpen_iff, Arena.pop, Array.size_pop] at hid
    exact hid
  refine h.of_tables (fun id hid => ?_) fun id hid => ?_
  · exact isOpen_iff.mpr (Nat.lt_of_lt_of_le (hlt id hid) (Nat.sub_le _ _))
  · rw [table_pop_of_lt (hlt id hid)]
    exact ⟨rfl, rfl⟩

theorem Nested.insert? (h : a.Nested) {scope : ScopeId} (hscope : a.isOpen scope = true)
    {symbol : Symbol} (hinsert : a.insert? scope symbol = some b) : b.Nested := by
  obtain ⟨t, ht, rfl⟩ := Option.map_eq_some_iff.mp hinsert
  have hframe := Table.insert?_frame ht
  refine h.of_tables (fun id hid => ?_) fun id hid => ?_
  · rw [isOpen_iff, Array.size_setIfInBounds] at hid
    exact isOpen_iff.mpr hid
  · rw [table_set a.tables t scope (isOpen_iff.mp hscope)]
    split
    · next heq =>
      obtain rfl : id = scope := by
        cases id
        cases scope
        exact congrArg ScopeId.mk heq
      exact hframe
    · exact ⟨rfl, rfl⟩

/-- The step lemma: an operation on open scopes keeps an arena nested. -/
theorem Nested.perform? (h : a.Nested) {op : Operation} (hop : a.perform? op = some b) :
    b.Nested := by
  obtain ⟨hscopes, rfl⟩ := perform?_eq_some_iff.mp hop
  cases op with
  | push name enclosing =>
    exact h.push name fun outer houter => hscopes outer (Option.mem_toList.mpr houter)
  | pop => exact h.pop
  | insert scope symbol =>
    have hscope := hscopes scope (List.mem_singleton_self scope)
    rw [Operation.apply]
    cases hinsert : a.insert? scope symbol with
    | none => exact h
    | some c => exact h.insert? hscope hinsert
  | lookup scope name => exact h

/-- The run lemma. -/
theorem Nested.performAll? (h : a.Nested) {ops : List Operation}
    (hops : a.performAll? ops = some b) : b.Nested := by
  induction ops generalizing a with
  | nil =>
    cases hops
    exact h
  | cons op ops ih =>
    rw [performAll?_cons] at hops
    obtain ⟨c, hop, hops⟩ := Option.bind_eq_some_iff.mp hops
    exact ih (h.perform? hop) hops

/-! ## The way outward -/

/-- The scope `id` and everything that encloses it, from the inside out. All of them are
open. -/
inductive Chain (a : Arena) : ScopeId → List ScopeId → Prop
  | outermost {id : ScopeId} (hid : a.isOpen id = true) (houter : (a.table id).enclosing = none) :
      Chain a id [id]
  | inside {id outer : ScopeId} {ids : List ScopeId} (hid : a.isOpen id = true)
      (houter : (a.table id).enclosing = some outer) (hrest : Chain a outer ids) :
      Chain a id (id :: ids)

/-- The search for a variable as a loop that goes outward without comparing indices. It
cannot be at a scope that is not open. -/
inductive Search (a : Arena) (name : String) : ScopeId → Option Symbol → Prop
  | found {id : ScopeId} {symbol : Symbol} (hid : a.isOpen id = true)
      (hfind : (a.table id).findVariable name = some symbol) : Search a name id (some symbol)
  | nowhere {id : ScopeId} (hid : a.isOpen id = true)
      (hfind : (a.table id).findVariable name = none) (houter : (a.table id).enclosing = none) :
      Search a name id none
  | outward {id outer : ScopeId} {result : Option Symbol} (hid : a.isOpen id = true)
      (hfind : (a.table id).findVariable name = none)
      (houter : (a.table id).enclosing = some outer) (hrest : Search a name outer result) :
      Search a name id result

/-- There is one way to search. -/
theorem Search.unique {name : String} {result result' : Option Symbol}
    (h : a.Search name id result) (h' : a.Search name id result') : result = result' := by
  induction h with
  | found _ hfind =>
    cases h' with
    | found _ hfind' => rw [← hfind, hfind']
    | nowhere _ hfind' => rw [hfind'] at hfind; cases hfind
    | outward _ hfind' => rw [hfind'] at hfind; cases hfind
  | nowhere _ hfind houter =>
    cases h' with
    | found _ hfind' => rw [hfind'] at hfind; cases hfind
    | nowhere => rfl
    | outward _ _ houter' => rw [houter'] at houter; cases houter
  | outward _ hfind houter _ ih =>
    cases h' with
    | found _ hfind' => rw [hfind'] at hfind; cases hfind
    | nowhere _ _ houter' => rw [houter'] at houter; cases houter
    | outward _ _ houter' hrest' =>
      rw [houter'] at houter
      cases houter
      exact ih hrest'

/-- A way outward from an open scope is as long as the scope is deep, and a search goes
along it. -/
theorem Nested.exists_chain (h : a.Nested) (hid : a.isOpen id = true) :
    ∃ chain, a.Chain id chain ∧ (a.table id).level = chain.length ∧
      ∀ name, a.Search name id
        (chain.findSome? fun scope => (a.table scope).findVariable name) := by
  induction hindex : id.index using Nat.strongRecOn generalizing id with
  | ind n ih =>
    cases houter : (a.table id).enclosing with
    | none =>
      refine ⟨[id], .outermost hid houter, ?_, fun name => ?_⟩
      · rw [h.level_eq id hid, houter]
        rfl
      · rw [List.findSome?_singleton]
        cases hfind : (a.table id).findVariable name with
        | none => exact .nowhere hid hfind houter
        | some symbol => exact .found hid hfind
    | some outer =>
      have hlt : outer.index < n := hindex ▸ h.enclosing_lt id hid outer houter
      obtain ⟨chain, hchain, hlevel, hsearch⟩ := ih _ hlt (h.isOpen_enclosing hid houter) rfl
      refine ⟨id :: chain, .inside hid houter hchain, ?_, fun name => ?_⟩
      · rw [h.level_eq id hid, houter, levelInside, hlevel, List.length_cons]
      · rw [List.findSome?_cons]
        cases hfind : (a.table id).findVariable name with
        | none => exact .outward hid hfind houter (hsearch name)
        | some symbol => exact .found hid hfind

/-- The comparison of indices that ends `lookup` never makes a difference. -/
theorem Nested.search_lookup (h : a.Nested) (hid : a.isOpen id = true) (name : String) :
    a.Search name id (a.lookup id name) := by
  induction hindex : id.index using Nat.strongRecOn generalizing id with
  | ind n ih =>
    rw [lookup_eq, outward]
    cases hfind : (a.table id).findVariable name with
    | some symbol => exact .found hid hfind
    | none =>
      rw [Option.none_or]
      cases houter : (a.table id).enclosing with
      | none => exact .nowhere hid hfind houter
      | some outer =>
        have hlt : outer.index < id.index := h.enclosing_lt id hid outer houter
        rw [Option.bind_some, if_pos hlt]
        exact .outward hid hfind houter (ih _ (hindex ▸ hlt) (h.isOpen_enclosing hid houter) rfl)

theorem Nested.search_iff (h : a.Nested) (hid : a.isOpen id = true) (name : String)
    (result : Option Symbol) : a.Search name id result ↔ result = a.lookup id name := by
  constructor
  · intro hsearch
    exact hsearch.unique (h.search_lookup hid name)
  · rintro rfl
    exact h.search_lookup hid name

end Arena

/-- **Scopes stay nested.** Operations lead from no open scope to an arena `a`, and each of
them names only scopes with an index that is open at its time. Then what encloses an open
scope has a smaller index, so it is open too; a scope is one level deeper than what encloses
it, and as deep as the way outward from it is long; and a search that goes this way without
any test of the indices ends, is at open scopes only, and finds what `lookup` does, the
variable of the first scope on the way that declares one. -/
theorem scopes_stay_nested {ops : List Arena.Operation} {a : Arena}
    (h : Arena.empty.performAll? ops = some a) {id : ScopeId} (hid : a.isOpen id = true) :
    ((a.table id).enclosing = none → (a.table id).level = 1) ∧
    (∀ outer, (a.table id).enclosing = some outer → outer.index < id.index ∧
      a.isOpen outer = true ∧ (a.table id).level = (a.table outer).level + 1) ∧
    ∃ chain, a.Chain id chain ∧ (a.table id).level = chain.length ∧
      ∀ name, (∀ result, a.Search name id result ↔ result = a.lookup id name) ∧
        a.lookup id name = chain.findSome? fun scope => (a.table scope).findVariable name := by
  have hnested : a.Nested := Arena.nested_empty.performAll? h
  have hlevel := hnested.level_eq id hid
  refine ⟨fun houter => ?_, fun outer houter => ?_, ?_⟩
  · rw [hlevel, houter]
    rfl
  · refine ⟨hnested.enclosing_lt id hid outer houter, hnested.isOpen_enclosing hid houter, ?_⟩
    rw [hlevel, houter]
    rfl
  · obtain ⟨chain, hchain, hlength, hsearch⟩ := hnested.exists_chain hid
    refine ⟨chain, hchain, hlength, fun name => ⟨hnested.search_iff hid name, ?_⟩⟩
    exact ((hnested.search_iff hid name _).mp (hsearch name)).symm

/-- Operations that go on using the index of a scope after that scope has been closed and
another one has got the index. -/
def reusedIndex : List Arena.Operation :=
  [.push "main" none, .insert ⟨0⟩ (.variable "x" .integer), .push "first" (some ⟨0⟩), .pop,
    .push "second" (some ⟨0⟩), .push "third" (some ⟨1⟩), .insert ⟨1⟩ (.variable "y" .real)]

/-- The scope opened last is enclosed by the new owner of the index, and sees what that one
declares and what is declared further out. -/
theorem scopes_stay_nested_reused_index :
    ∃ a, Arena.empty.performAll? reusedIndex = some a ∧ a.isOpen ⟨2⟩ = true ∧
      (a.table ⟨1⟩).name = "second" ∧ (a.table ⟨2⟩).level = (a.table ⟨1⟩).level + 1 ∧
      a.lookup ⟨2⟩ "y" = some (.variable "y" .real) ∧
      a.lookup ⟨2⟩ "x" = some (.variable "x" .integer) ∧ a.lookup ⟨2⟩ "z" = none := by
  obtain ⟨a, ha, hid⟩ : ∃ a, Arena.empty.performAll? reusedIndex = some a ∧
      a.isOpen ⟨2⟩ = true := ⟨_, rfl, rfl⟩
  obtain ⟨-, houter, chain, -, -, hlookup⟩ := scopes_stay_nested ha hid
  cases ha
  refine ⟨_, rfl, hid, rfl, (houter ⟨1⟩ rfl).2.2, ?_, ?_, ?_⟩
  · exact (((hlookup "y").1 _).mp (.outward rfl rfl rfl (.found rfl rfl))).symm
  · exact (((hlookup "x").1 _).mp
      (.outward rfl rfl rfl (.outward rfl rfl rfl (.found rfl rfl)))).symm
  · exact (((hlookup "z").1 _).mp
      (.outward rfl rfl rfl (.outward rfl rfl rfl (.nowhere rfl rfl rfl)))).symm

end MiniPascal
