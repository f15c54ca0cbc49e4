/-
`Footprint.lean` -- what an operation on the open scopes changes, and what it leaves alone.

Scopes share one arena, and a symbol that is inserted into one of them can be seen from
others. This file says from which. In the scope itself only the symbol's own namespace
changes, and there only its own name. From another scope a variable is seen exactly if the
way outward from there comes to the scope of the insertion before it comes to one that
declares the name (`Reaches`); if it does not, some other declaration stands in front, or the
scope is not on the way. A procedure is not seen from anywhere else.

The second part is about working on scopes of one's own. Operations that begin at some
arena, close no scope that was open there and insert only into scopes that they have opened
themselves (`Excursion`) leave all old tables as they are; and since a scope refers outward
to older ones, no look-up from an old scope can tell. Back at the old length there is nothing
but the old tables, so the arena is the same.
-/
import MiniPascal.Proofs.Enclosure

set_option autoImplicit false

namespace MiniPascal

/-! ## Searching along a list -/

/-- `x :: l` is split at its first element or at a later one. -/
theorem exists_split_cons_iff {α : Type} {Q : List α → Prop} {x y : α} {l : List α} :
    (∃ before after, x :: l = before ++ y :: after ∧ Q before) ↔
      (x = y ∧ Q []) ∨ ∃ before after, l = before ++ y :: after ∧ Q (x :: before) := by
  constructor
  · rintro ⟨before, after, heq, hbefore⟩
    cases before with
    | nil => exact .inl ⟨(List.cons.inj heq).1, hbefore⟩
    | cons z before =>
      obtain ⟨rfl, hrest⟩ := List.cons.inj heq
      exact .inr ⟨before, after, hrest, hbefore⟩
  · rintro (⟨rfl, hnil⟩ | ⟨before, after, rfl, hbefore⟩)
    · exact ⟨[], l, rfl, hnil⟩
    · exact ⟨x :: before, after, rfl, hbefore⟩

/-- A search along a list, where the answer at one element has changed: it finds the change
exactly if nothing in front of that element answers. -/
theorem findSome?_changed {α β : Type} {f g : α → Option β} {changed : α} {answer : β}
    (hchanged : g changed = some answer) (hothers : ∀ x, x ≠ changed → g x = f x) (l : List α) :
    ((∃ before after, l = before ++ changed :: after ∧ ∀ x ∈ before, f x = none) →
      l.findSome? g = some answer) ∧
    ((¬ ∃ before after, l = before ++ changed :: after ∧ ∀ x ∈ before, f x = none) →
      l.findSome? g = l.findSome? f) := by
  induction l with
  | nil => exact ⟨by simp, fun _ => rfl⟩
  | cons x l ih =>
    rw [List.findSome?_cons, List.findSome?_cons, exists_split_cons_iff]
    by_cases hx : x = changed
    · rw [hx, hchanged]
      exact ⟨fun _ => rfl, fun hnot => absurd (.inl ⟨rfl, List.forall_mem_nil _⟩) hnot⟩
    · rw [hothers x hx]
      cases hfx : f x with
      | some y => simp [hx, hfx]
      | none => simpa [hx, hfx] using ih

/-! ## One table -/

/-- The namespaces of a table. -/
inductive NameSpace where
  | vars | procs
deriving DecidableEq, Repr

/-- The namespace that a symbol belongs to. -/
def Symbol.space : Symbol → NameSpace
  | .variable .. => .vars
  | .procedure _ => .procs

namespace Table

variable {t t' : Table} {symbol : Symbol}

/-- The symbol declared here as `name`, in one of the namespaces. -/
def find? (t : Table) : NameSpace → String → Option Symbol
  | .vars, name => t.findVariable name
  | .procs, name => t.findProcedure name

/-- A symbol is refused exactly if its name is taken in its own namespace. -/
theorem insert?_eq_none_iff :
    t.insert? symbol = none ↔ (t.find? symbol.space symbol.name).isSome = true := by
  cases symbol with
  | «variable» name type =>
    change t.insert? (.variable name type) = none ↔ (t.findVariable name).isSome = true
    rw [insert?, findVariable, Option.isSome_map]
    split
    · next h => exact iff_of_true rfl h
    · next h => exact iff_of_false (Option.some_ne_none _) h
  | procedure name =>
    change t.insert? (.procedure name) = none ↔ (t.findProcedure name).isSome = true
    rw [insert?, findProcedure, Option.isSome_map]
    split
    · next h => exact iff_of_true rfl h
    · next h => exact iff_of_false (Option.some_ne_none _) h

/-- One more symbol is found under its own name in its own namespace, and nothing else is
found differently. -/
theorem find?_insert? (h : t.insert? symbol = some t') (space : NameSpace) (name : String) :
    t'.find? space name =
      if space = symbol.space ∧ name = symbol.name then some symbol else t.find? space name := by
  cases symbol with
  | «variable» own type =>
    rw [insert?, Option.ite_none_left_eq_some, Option.some.injEq] at h
    obtain ⟨-, rfl⟩ := h
    cases space with
    | procs =>
      have hspace : NameSpace.procs ≠ .vars := by decide
      exact (if_neg fun hboth => hspace hboth.1).symm
    | vars =>
      simp only [find?, findVariable, NameMap.get?_insert, Symbol.space, Symbol.name, true_and]
      by_cases hname : name = own
      · rw [if_pos hname, if_pos hname, hname, Option.map_some]
      · rw [if_neg hname, if_neg hname]
  | procedure own =>
    rw [insert?, Option.ite_none_left_eq_some, Option.some.injEq] at h
    obtain ⟨-, rfl⟩ := h
    cases space with
    | vars =>
      have hspace : NameSpace.vars ≠ .procs := by decide
      exact (if_neg fun hboth => hspace hboth.1).symm
    | procs =>
      simp only [find?, findProcedure, NameMap.get?_insert, Symbol.space, Symbol.name, true_and]
      by_cases hname : name = own
      · rw [if_pos hname, if_pos hname, hname, Option.map_some]
      · rw [if_neg hname, if_neg hname]

end Table

namespace Arena

variable {a b c : Arena} {id scope : ScopeId} {symbol : Symbol} {name : String}

/-! ## An insertion, seen from everywhere -/

theorem insert?_eq_none_iff : a.insert? scope symbol = none ↔
    ((a.table scope).find? symbol.space symbol.name).isSome = true := by
  rw [insert?, Option.map_eq_none_iff, Table.insert?_eq_none_iff]

theorem isOpen_insert? (h : a.insert? scope symbol = some b) (id : ScopeId) :
    b.isOpen id = a.isOpen id := by
  obtain ⟨t, -, rfl⟩ := Option.map_eq_some_iff.mp h
  rw [isOpen, isOpen, size, size, Array.size_setIfInBounds]

/-- The table of the scope has the symbol, and all others are as they were. -/
theorem table_insert? (hscope : a.isOpen scope = true) (h : a.insert? scope symbol = some b) :
    (a.table scope).insert? symbol = some (b.table scope) ∧
      ∀ id, id ≠ scope → b.table id = a.table id := by
  obtain ⟨t, ht, rfl⟩ := Option.map_eq_some_iff.mp h
  have hset := table_set a.tables t scope (isOpen_iff.mp hscope)
  refine ⟨?_, fun id hne => ?_⟩
  · rw [hset scope, if_pos rfl, ht]
  · have hindex : id.index ≠ scope.index := by
      cases id
      cases scope
      exact fun heq => hne (congrArg ScopeId.mk heq)
    rw [hset id, if_neg hindex]

theorem enclosing_insert? (hscope : a.isOpen scope = true) (h : a.insert? scope symbol = some b)
    (id : ScopeId) : (b.table id).enclosing = (a.table id).enclosing := by
  obtain ⟨hown, hothers⟩ := table_insert? hscope h
  by_cases hid : id = scope
  · rw [hid, (Table.insert?_frame hown).2]
  · rw [hothers id hid]

theorem find?_insert? (hscope : a.isOpen scope = true) (h : a.insert? scope symbol = some b)
    (id : ScopeId) (space : NameSpace) (name : String) :
    (b.table id).find? space name =
      if id = scope ∧ space = symbol.space ∧ name = symbol.name then some symbol
      else (a.table id).find? space name := by
  obtain ⟨hown, hothers⟩ := table_insert? hscope h
  by_cases hid : id = scope
  · rw [hid, Table.find?_insert? hown]
    exact if_congr (and_iff_right rfl).symm rfl rfl
  · rw [hothers id hid, if_neg fun hboth => hid hboth.1]

/-! The way outward is not changed, and along it there is one more declaration. -/

theorem Chain.insert? (hscope : a.isOpen scope = true) (h : a.insert? scope symbol = some b)
    {ids : List ScopeId} (hchain : a.Chain id ids) : b.Chain id ids := by
  induction hchain with
  | outermost hid houter =>
    exact .outermost (by rw [isOpen_insert? h, hid]) (by rw [enclosing_insert? hscope h, houter])
  | inside hid houter _ ih =>
    exact .inside (by rw [isOpen_insert? h, hid]) (by rw [enclosing_insert? hscope h, houter]) ih

/-- A look-up goes through the scopes on the way outward. -/
theorem Nested.lookup_of_chain (h : a.Nested) {ids : List ScopeId} (hchain : a.Chain id ids)
    (name : String) :
    a.lookup id name = ids.findSome? fun id => (a.table id).findVariable name := by
  induction hchain with
  | @outermost id hid houter =>
    rw [lookup_eq, outward, houter, Option.bind_none, Option.or_none, List.findSome?_singleton]
  | @inside id outer ids hid houter _ ih =>
    rw [lookup_eq, outward, houter, Option.bind_some, if_pos (h.enclosing_lt id hid outer houter),
      ih, List.findSome?_cons]
    cases (a.table id).findVariable name <;> rfl

/-- On the way outward from `id`, the scope `scope` comes before any other one that declares
the variable `name`. -/
def Reaches (a : Arena) (name : String) (id scope : ScopeId) : Prop :=
  ∃ before after, a.Chain id (before ++ scope :: after) ∧
    ∀ other ∈ before, (a.table other).findVariable name = none

/-- From which scopes an inserted variable is seen. -/
theorem Nested.lookup_insert? (h : a.Nested) (hscope : a.isOpen scope = true)
    (hinsert : a.insert? scope symbol = some b) (hid : a.isOpen id = true) (name : String) :
    (symbol.space = .vars ∧ symbol.name = name ∧ a.Reaches name id scope →
      b.lookup id name = some symbol) ∧
    (¬ (symbol.space = .vars ∧ symbol.name = name ∧ a.Reaches name id scope) →
      b.lookup id name = a.lookup id name) := by
  have hfind (other : ScopeId) : (b.table other).findVariable name = _ :=
    find?_insert? hscope hinsert other .vars name
  have hlookup {ids : List ScopeId} (hids : a.Chain id ids) :
      b.lookup id name = ids.findSome? fun other => (b.table other).findVariable name :=
    (h.insert? hscope hinsert).lookup_of_chain (hids.insert? hscope hinsert) name
  by_cases hsymbol : symbol.space = .vars ∧ symbol.name = name
  · obtain ⟨hspace, rfl⟩ := hsymbol
    have hchanged := findSome?_changed (f := fun other => (a.table other).findVariable symbol.name)
      ((hfind scope).trans (if_pos ⟨rfl, hspace.symm, rfl⟩))
      fun other hne => (hfind other).trans (if_neg fun hboth => hne hboth.1)
    refine ⟨?_, fun hnot => ?_⟩
    · rintro ⟨-, -, before, after, hchain, hbefore⟩
      rw [hlookup hchain]
      exact (hchanged _).1 ⟨before, after, rfl, hbefore⟩
    · obtain ⟨ids, hids, -⟩ := h.exists_chain hid
      rw [hlookup hids, h.lookup_of_chain hids]
      refine (hchanged ids).2 ?_
      rintro ⟨before, after, rfl, hbefore⟩
      exact hnot ⟨hspace, rfl, before, after, hids, hbefore⟩
  · refine ⟨fun hboth => absurd ⟨hboth.1, hboth.2.1⟩ hsymbol, fun _ => ?_⟩
    -- the symbol is none of the variables of this name, so all tables answer as before
    exact lookup_congr (fun other _ => (hfind other).trans
        (if_neg fun hboth => hsymbol ⟨hboth.2.1.symm, hboth.2.2.symm⟩))
      (fun other _ => enclosing_insert? hscope hinsert other) (Nat.lt_succ_self id.index)

/-! ## Working on scopes of one's own -/

/-- Operations that close only what lies above the first `base` scopes, and that insert only
into scopes `own`, which they have opened themselves. -/
inductive Excursion (base : Nat) : List ScopeId → Arena → List Operation → Arena → Prop
  | done {own : List ScopeId} {a : Arena} : Excursion base own a [] a
  | push {own : List ScopeId} {a b c : Arena} {ops : List Operation} {name : String}
      {enclosing : Option ScopeId} (hop : a.perform? (.push name enclosing) = some b)
      (hrest : Excursion base ((a.push name enclosing).1 :: own) b ops c) :
      Excursion base own a (.push name enclosing :: ops) c
  | pop {own : List ScopeId} {a b c : Arena} {ops : List Operation} (habove : base < a.size)
      (hop : a.perform? .pop = some b) (hrest : Excursion base own b ops c) :
      Excursion base own a (.pop :: ops) c
  | insert {own : List ScopeId} {a b c : Arena} {ops : List Operation} {scope : ScopeId}
      {symbol : Symbol} (hown : scope ∈ own) (hop : a.perform? (.insert scope symbol) = some b)
      (hrest : Excursion base own b ops c) : Excursion base own a (.insert scope symbol :: ops) c
  | lookup {own : List ScopeId} {a b c : Arena} {ops : List Operation} {scope : ScopeId}
      {name : String} (hop : a.perform? (.lookup scope name) = some b)
      (hrest : Excursion base own b ops c) : Excursion base own a (.lookup scope name :: ops) c

/-- The first `base` scopes are there, with the tables that they have in `a`. -/
structure Keeps (base : Nat) (a b : Arena) : Prop where
  le_size : base ≤ b.size
  tables_eq : ∀ i, i < base → b.tables[i]? = a.tables[i]?

namespace Keeps

variable {base : Nat} {own : List ScopeId} {ops : List Operation}

theorem refl (a : Arena) : Keeps a.size a a := ⟨Nat.le_refl _, fun _ _ => rfl⟩

theorem push (h : Keeps base a b) (name : String) (enclosing : Option ScopeId) :
    Keeps base a (b.push name enclosing).2 where
  le_size := by
    have hle := h.le_size
    simp only [size, Arena.push, Array.size_push] at hle ⊢
    omega
  tables_eq i hi := by
    have hne : i ≠ b.tables.size := Nat.ne_of_lt (Nat.lt_of_lt_of_le hi h.le_size)
    rw [← h.tables_eq i hi, Arena.push, Array.getElem?_push, if_neg hne]

theorem pop (h : Keeps base a b) (habove : base < b.size) : Keeps base a b.pop.2 where
  le_size := by
    simp only [size, Arena.pop, Array.size_pop] at habove ⊢
    omega
  tables_eq i hi := by
    have hlt : i < b.tables.size - 1 := by
      rw [size] at habove
      omega
    rw [← h.tables_eq i hi, Arena.pop, Array.getElem?_pop, if_pos hlt]

theorem insert (h : Keeps base a b) (hscope : base ≤ scope.index) (symbol : Symbol) :
    Keeps base a ((Operation.insert scope symbol).apply b) := by
  rw [Operation.apply]
  cases hinsert : b.insert? scope symbol with
  | none => exact h
  | some c =>
    obtain ⟨t, -, rfl⟩ := Option.map_eq_some_iff.mp hinsert
    refine ⟨?_, fun i hi => ?_⟩
    · rw [Option.getD_some, size, Array.size_setIfInBounds]
      exact h.le_size
    · have hne : scope.index ≠ i := Nat.ne_of_gt (Nat.lt_of_lt_of_le hi hscope)
      rw [← h.tables_eq i hi, Option.getD_some, Array.getElem?_setIfInBounds, if_neg hne]

/-- The run lemma: what an excursion opens for itself lies above the scopes that were there
before, so these keep their tables. -/
theorem excursion (h : Keeps base a b) (hown : ∀ id ∈ own, base ≤ id.index)
    (hops : Excursion base own b ops c) : Keeps base a c := by
  induction hops with
  | done => exact h
  | @push own b b' c ops name enclosing hop _ ih =>
    obtain ⟨-, rfl⟩ := perform?_eq_some_iff.mp hop
    exact ih (h.push name enclosing) (List.forall_mem_cons.mpr ⟨h.le_size, hown⟩)
  | pop habove hop _ ih =>
    obtain ⟨-, rfl⟩ := perform?_eq_some_iff.mp hop
    exact ih (h.pop habove) hown
  | @insert own b b' c ops scope symbol hscope hop _ ih =>
    obtain ⟨-, rfl⟩ := perform?_eq_some_iff.mp hop
    exact ih (h.insert (hown scope hscope) symbol) hown
  | lookup hop _ ih =>
    obtain ⟨-, rfl⟩ := perform?_eq_some_iff.mp hop
    exact ih h hown

/-- Scopes that are kept answer all look-ups as before. -/
theorem table_eq (h : Keeps base a b) (hid : id.index < base) : b.table id = a.table id := by
  rw [table, table, h.tables_eq id.index hid]

theorem lookup_eq (h : Keeps base a b) (hid : id.index < base) (name : String) :
    b.lookup id name = a.lookup id name :=
  lookup_congr (fun _ hlt => by rw [h.table_eq hlt]) (fun _ hlt => by rw [h.table_eq hlt]) hid

/-- An arena that keeps all scopes and has no others is the same arena. -/
theorem eq_of_size_eq (h : Keeps a.size a b) (hsize : b.size = a.size) : b = a := by
  have htables : b.tables = a.tables := by
    apply Array.ext_getElem?
    intro i
    by_cases hi : i < a.size
    · exact h.tables_eq i hi
    · rw [size] at hi hsize
      rw [size] at hsize
      rw [Array.getElem?_eq_none (by omega), Array.getElem?_eq_none (by omega)]
  cases a
  cases b
  exact congrArg Arena.mk htables

end Keeps

end Arena

/-- **What an operation leaves alone.** Take an arena that operations on open scopes lead to.

A symbol is refused by an open scope exactly if that scope has its name in its namespace, and
then nothing changes. If it is taken, the same scopes are open. Each of them finds the same
as before in both of its namespaces, except that the scope of the insertion finds the symbol
under its name in its namespace; and from each of them every name means the same variable as
before, except that the name of an inserted variable means that variable wherever the way
outward reaches its scope before another one that declares the name.

Operations that close none of the open scopes and insert only into scopes that they have
opened themselves change no answer of the scopes that were open; and when as many scopes are
open as in the beginning, the arena is what it was. -/
theorem arena_footprint {ops : List Arena.Operation} {a : Arena}
    (h : Arena.empty.performAll? ops = some a) :
    (∀ scope, a.isOpen scope = true → ∀ symbol,
      (a.insert? scope symbol = none ↔
        ((a.table scope).find? symbol.space symbol.name).isSome = true) ∧
      (a.insert? scope symbol = none → (Arena.Operation.insert scope symbol).apply a = a) ∧
      ∀ b, a.insert? scope symbol = some b →
        (Arena.Operation.insert scope symbol).apply a = b ∧
        ∀ id, b.isOpen id = a.isOpen id ∧ (a.isOpen id = true → ∀ name,
          (∀ space, (b.table id).find? space name =
            if id = scope ∧ space = symbol.space ∧ name = symbol.name then some symbol
            else (a.table id).find? space name) ∧
          (symbol.space = .vars ∧ symbol.name = name ∧ a.Reaches name id scope →
            b.lookup id name = some symbol) ∧
          (¬ (symbol.space = .vars ∧ symbol.name = name ∧ a.Reaches name id scope) →
            b.lookup id name = a.lookup id name))) ∧
    ∀ ops' b, Arena.Excursion a.size [] a ops' b →
      (∀ id, a.isOpen id = true → ∀ name, b.lookup id name = a.lookup id name ∧
        ∀ space, (b.table id).find? space name = (a.table id).find? space name) ∧
      (b.size = a.size → b = a) := by
  have hnested : a.Nested := Arena.nested_empty.performAll? h
  refine ⟨fun scope hscope symbol => ⟨Arena.insert?_eq_none_iff, fun hnone => ?_, ?_⟩, ?_⟩
  · rw [Arena.Operation.apply, hnone, Option.getD_none]
  · intro b hinsert
    refine ⟨by rw [Arena.Operation.apply, hinsert, Option.getD_some], fun id => ?_⟩
    refine ⟨Arena.isOpen_insert? hinsert id, fun hid name => ⟨fun space => ?_, ?_⟩⟩
    · exact Arena.find?_insert? hscope hinsert id space name
    · exact hnested.lookup_insert? hscope hinsert hid name
  · intro ops' b hops
    have hkeeps := (Arena.Keeps.refl a).excursion (fun id hid => absurd hid List.not_mem_nil) hops
    refine ⟨fun id hid name => ?_, hkeeps.eq_of_size_eq⟩
    have hlt : id.index < a.size := Arena.isOpen_iff.mp hid
    refine ⟨hkeeps.lookup_eq hlt name, fun space => ?_⟩
    rw [hkeeps.table_eq hlt]

/-- Operations on a scope of their own, inside the scope with index 2. -/
def visiting : List Arena.Operation :=
  [.push "visitor" (some ⟨2⟩), .insert ⟨3⟩ (.variable "x" .real), .lookup ⟨3⟩ "x",
    .insert ⟨3⟩ (.procedure "x"), .pop]

/-- Scope 1 has got the index of a closed one, and encloses scope 2. It declares `y` and no
second one. An `x` that is inserted there hides that of scope 0 from scope 2, and from scope
0 itself it is not seen. A visitor that declares an `x` for itself leaves nothing behind. -/
theorem arena_footprint_reused_index :
    ∃ a b c, Arena.empty.performAll? reusedIndex = some a ∧
      a.insert? ⟨1⟩ (.variable "y" .integer) = none ∧
      a.insert? ⟨1⟩ (.variable "x" .real) = some b ∧
      b.lookup ⟨2⟩ "x" = some (.variable "x" .real) ∧
      b.lookup ⟨0⟩ "x" = a.lookup ⟨0⟩ "x" ∧
      (b.table ⟨1⟩).find? .procs "x" = none ∧
      a.performAll? visiting = some c ∧ c = a := by
  obtain ⟨a, ha, hopen, hopen', hopen''⟩ : ∃ a, Arena.empty.performAll? reusedIndex = some a ∧
      a.isOpen ⟨0⟩ = true ∧ a.isOpen ⟨1⟩ = true ∧ a.isOpen ⟨2⟩ = true :=
    ⟨_, rfl, rfl, rfl, rfl⟩
  obtain ⟨hinsert, hexcursion⟩ := arena_footprint ha
  cases ha
  obtain ⟨hrefused, -, -⟩ := hinsert ⟨1⟩ hopen' (.variable "y" .integer)
  obtain ⟨-, -, htaken⟩ := hinsert ⟨1⟩ hopen' (.variable "x" .real)
  obtain ⟨-, hanswers⟩ := htaken _ rfl
  obtain ⟨-, -, hunseen⟩ := (hanswers ⟨0⟩).2 hopen "x"
  obtain ⟨-, hseen, -⟩ := (hanswers ⟨2⟩).2 hopen'' "x"
  have hnot : ∀ a : Arena, (a.table ⟨0⟩).enclosing = none → ¬ a.Reaches "x" ⟨0⟩ ⟨1⟩ := by
    rintro a hnone ⟨before, after, hchain, -⟩
    generalize hids : before ++ ⟨1⟩ :: after = ids at hchain
    cases hchain with
    | outermost =>
      have hmem : (⟨1⟩ : ScopeId) ∈ [(⟨0⟩ : ScopeId)] := hids ▸ by simp
      exact absurd hmem (by decide)
    | inside _ houter =>
      rw [hnone] at houter
      cases houter
  refine ⟨_, _, _, rfl, hrefused.mpr rfl, rfl, hseen ⟨rfl, rfl, ?_⟩, hunseen ?_, ?_, rfl, ?_⟩
  · exact ⟨[⟨2⟩], [⟨0⟩], .inside rfl rfl (.inside rfl rfl (.outermost rfl rfl)),
      List.forall_mem_singleton.mpr rfl⟩
  · exact fun hboth => hnot _ rfl hboth.2.2
  · exact ((hanswers ⟨1⟩).2 hopen' "x").1 .procs
  · exact (hexcursion visiting _ (.push rfl (.insert (by decide) rfl (.lookup rfl
      (.insert (by decide) rfl (.pop (by decide) rfl .done)))))).2 rfl

end MiniPascal
