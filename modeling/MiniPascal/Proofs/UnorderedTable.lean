/-
`UnorderedTable.lean` -- tables whose maps keep no order.

A table has two maps, and their listing is one list by name. If the maps keep no order, a name
that is in both of them comes twice before the sort. The sort keeps the two symbols in
the order in which it gets them, and it gets the procedures first; so the listing has the
procedure first, whatever orders the maps go through their symbols in
(`Represents.sortsStably_iff`). The listing of a table that is kept by name is the same.

What a table holds depends on the symbols that it has taken and not on when it took them, or on
what it refused in between (`UnorderedTable.has_fill_iff`). Together with the same result
on stores this is the main theorem (`listings_forget_history`).
-/
import MiniPascal.Proofs.Footprint
import MiniPascal.Proofs.Listing
import MiniPascal.Proofs.Printing
import MiniPascal.Proofs.Unordered

set_option autoImplicit false

namespace MiniPascal

namespace Table

theorem heading_insert? {t t' : Table} {symbol : Symbol} (h : t.insert? symbol = some t') :
    t'.heading = t.heading := by
  cases symbol with
  | «variable» name type =>
    obtain ⟨-, ht⟩ := Option.ite_none_left_eq_some.mp h
    cases ht
    rfl
  | procedure name =>
    obtain ⟨-, ht⟩ := Option.ite_none_left_eq_some.mp h
    cases ht
    rfl

end Table

/-- A table whose maps keep no order. -/
structure UnorderedTable where
  heading : Heading
  slots : NameSpace → Slots Symbol

namespace UnorderedTable

/-- A table without symbols. -/
def opened (h : Heading) : UnorderedTable := ⟨h, fun _ => []⟩

/-- The table with one more symbol, unless its namespace has the name already. -/
def insert? (u : UnorderedTable) (symbol : Symbol) : Option UnorderedTable :=
  if ((u.slots symbol.space).lookup symbol.name).isSome then none
  else some { u with
    slots := fun space =>
      if space = symbol.space then (u.slots space).set symbol.name symbol else u.slots space }

/-- The table after attempts to insert some symbols. -/
def fill (u : UnorderedTable) (symbols : List Symbol) : UnorderedTable :=
  symbols.foldl (fun u symbol => (u.insert? symbol).getD u) u

/-- Those of the symbols that are inserted. -/
def accepted (u : UnorderedTable) : List Symbol → List Symbol
  | [] => []
  | symbol :: symbols =>
    match u.insert? symbol with
    | some u' => symbol :: u'.accepted symbols
    | none => u.accepted symbols

/-- The two maps go through their symbols in these orders. -/
def Yields (u : UnorderedTable) (procs vars : List Symbol) : Prop :=
  procs.Perm ((u.slots .procs).map Prod.snd) ∧ vars.Perm ((u.slots .vars).map Prod.snd)

/-- The symbol is held under its own name in its own namespace. -/
def Has (u : UnorderedTable) (symbol : Symbol) : Prop :=
  (u.slots symbol.space).lookup symbol.name = some symbol

variable {u u' : UnorderedTable} {symbol other : Symbol}

/-- A symbol that is taken has a free name, and gets a slot in its own namespace. -/
theorem slots_insert? (h : u.insert? symbol = some u') :
    (u.slots symbol.space).lookup symbol.name = none ∧
      ∀ space, u'.slots space =
        if space = symbol.space then (u.slots space).set symbol.name symbol else u.slots space := by
  obtain ⟨hfree, hu⟩ := Option.ite_none_left_eq_some.mp h
  cases hu
  exact ⟨Option.not_isSome_iff_eq_none.mp hfree, fun _ => rfl⟩

theorem heading_insert? (h : u.insert? symbol = some u') : u'.heading = u.heading := by
  obtain ⟨-, hu⟩ := Option.ite_none_left_eq_some.mp h
  cases hu
  rfl

theorem has_insert?_iff (h : u.insert? symbol = some u') :
    u'.Has other ↔ other = symbol ∨ u.Has other := by
  obtain ⟨hfree, hslots⟩ := slots_insert? h
  rw [Has, Has, hslots]
  by_cases hspace : other.space = symbol.space
  · rw [if_pos hspace, hspace, Slots.lookup_set]
    by_cases hname : other.name = symbol.name
    · simp [hname, hfree, eq_comm]
    · have hne : other ≠ symbol := fun heq => hname (congrArg Symbol.name heq)
      simp [hname, hne]
  · have hne : other ≠ symbol := fun heq => hspace (congrArg Symbol.space heq)
    simp [hspace, hne]

theorem heading_fill (u : UnorderedTable) (symbols : List Symbol) :
    (u.fill symbols).heading = u.heading := by
  induction symbols generalizing u with
  | nil => rfl
  | cons symbol symbols ih =>
    rw [fill, List.foldl_cons, ← fill, ih]
    cases h : u.insert? symbol with
    | none => rfl
    | some u' => exact heading_insert? h

/-- A table holds what it held before and what it has accepted. -/
theorem has_fill_iff (u : UnorderedTable) (symbols : List Symbol) :
    (u.fill symbols).Has other ↔ other ∈ u.accepted symbols ∨ u.Has other := by
  induction symbols generalizing u with
  | nil => simp [fill, accepted]
  | cons symbol symbols ih =>
    rw [fill, List.foldl_cons, ← fill, ih, accepted]
    cases h : u.insert? symbol with
    | none => rfl
    | some u' =>
      rw [Option.getD_some, has_insert?_iff h, List.mem_cons, or_assoc, or_left_comm]

/-- A table that was opened without symbols holds what it has accepted since. -/
theorem has_fill_opened_iff {h : Heading} {symbols : List Symbol} :
    ((opened h).fill symbols).Has other ↔ other ∈ (opened h).accepted symbols := by
  rw [has_fill_iff]
  exact or_iff_left (Option.some_ne_none other).symm

end UnorderedTable

/-! ## The order of a listing -/

theorem Symbol.Before.name_le {a b : Symbol} (h : a.Before b) : a.name ≤ b.name := by
  rcases h with hlt | ⟨name, type, rfl, rfl⟩
  · exact Std.le_of_lt hlt
  · exact Std.le_refl name

theorem Symbol.Before.not_before {a b : Symbol} (h : a.Before b) : ¬ b.Before a := by
  rintro (hlt | ⟨name, type, rfl, rfl⟩)
  · exact String.lt_irrefl _ (Std.lt_of_lt_of_le hlt h.name_le)
  · rcases h with hlt | ⟨name', type', heq, -⟩
    · exact String.lt_irrefl _ hlt
    · cases heq

/-! ## The same table, kept by name -/

namespace Table

theorem find?_eq_some {t : Table} {space : NameSpace} {name : String} {symbol : Symbol}
    (h : t.find? space name = some symbol) : symbol.space = space ∧ symbol.name = name := by
  cases space with
  | vars =>
    obtain ⟨type, -, rfl⟩ := Option.map_eq_some_iff.mp h
    exact ⟨rfl, rfl⟩
  | procs =>
    obtain ⟨-, -, rfl⟩ := Option.map_eq_some_iff.mp h
    exact ⟨rfl, rfl⟩

/-- The table after attempts to insert some symbols. -/
def fill (t : Table) (symbols : List Symbol) : Table :=
  symbols.foldl (fun t symbol => (t.insert? symbol).getD t) t

/-- The slots of a namespace, kept by name. -/
def slots (t : Table) : NameSpace → Slots Symbol
  | .vars => t.vars.entries.map fun entry => (entry.1, variableOf entry)
  | .procs => t.procs.entries.map fun entry => (entry.1, procedureOf entry)

end Table

theorem Table.answers_slots (t : Table) (space : NameSpace) :
    (t.slots space).Answers (t.find? space) := by
  cases space with
  | vars => exact (Slots.answers_entries t.vars).map variableOf
  | procs => exact (Slots.answers_entries t.procs).map procedureOf

/-- Both tables are of the same block, and answer look-ups alike. -/
structure Represents (u : UnorderedTable) (t : Table) : Prop where
  heading : u.heading = t.heading
  answers : ∀ space, (u.slots space).Answers (t.find? space)

namespace Represents

variable {u : UnorderedTable} {t : Table} {symbol : Symbol} {procs vars sorted : List Symbol}

theorem opened (h : Heading) :
    Represents (.opened h) (.opened h.name h.level h.enclosing) where
  heading := rfl
  answers space := by
    cases space with
    | vars => exact Slots.answers_nil
    | procs => exact Slots.answers_nil

/-- The step: both take a symbol, or both refuse it. -/
theorem insert (h : Represents u t) (symbol : Symbol) :
    Represents ((u.insert? symbol).getD u) ((t.insert? symbol).getD t) := by
  have hrefused : u.insert? symbol = none ↔ t.insert? symbol = none := by
    rw [Table.insert?_eq_none_iff, ← (h.answers symbol.space).lookup_eq, UnorderedTable.insert?]
    simp
  cases ht : t.insert? symbol with
  | none =>
    rw [hrefused.mpr ht]
    exact h
  | some t' =>
    obtain ⟨u', hu⟩ := Option.ne_none_iff_exists'.mp fun hnone =>
      Option.some_ne_none t' (ht.symm.trans (hrefused.mp hnone))
    rw [hu, Option.getD_some, Option.getD_some]
    refine ⟨(UnorderedTable.heading_insert? hu).trans
      (h.heading.trans (Table.heading_insert? ht).symm), fun space => ?_⟩
    rw [(UnorderedTable.slots_insert? hu).2]
    by_cases hspace : space = symbol.space
    · have hset := (h.answers space).set symbol.name symbol
      rw [if_pos hspace]
      refine ⟨hset.nodup, fun name => ?_⟩
      rw [hset.lookup_eq, Table.find?_insert? ht]
      simp [hspace]
    · rw [if_neg hspace]
      refine ⟨(h.answers space).nodup, fun name => ?_⟩
      rw [(h.answers space).lookup_eq, Table.find?_insert? ht, if_neg fun hboth => hspace hboth.1]

/-- The run: after any symbols. -/
theorem fill (h : Represents u t) (symbols : List Symbol) :
    Represents (u.fill symbols) (t.fill symbols) := by
  induction symbols generalizing u t with
  | nil => exact h
  | cons symbol symbols ih => exact ih (h.insert symbol)

/-- What one of them holds the other one lists. -/
theorem mem_symbols_iff (h : Represents u t) : symbol ∈ t.symbols ↔ u.Has symbol := by
  rw [UnorderedTable.Has, (h.answers symbol.space).lookup_eq,
    ← (t.answers_slots symbol.space).mem_iff, t.symbols_perm.mem_iff, List.mem_append]
  -- a symbol stands among those of its own kind or nowhere
  cases symbol <;>
    simp [Symbol.space, Symbol.name, Table.slots, Table.procedureOf, Table.variableOf]

theorem find?_eq_some_iff (h : Represents u t) {space : NameSpace} {name : String} :
    t.find? space name = some symbol ↔
      symbol.space = space ∧ symbol.name = name ∧ u.Has symbol := by
  constructor
  · intro hfind
    obtain ⟨rfl, rfl⟩ := Table.find?_eq_some hfind
    exact ⟨rfl, rfl, ((h.answers _).lookup_eq _).trans hfind⟩
  · rintro ⟨rfl, rfl, hhas⟩
    exact ((h.answers _).lookup_eq _).symm.trans hhas

/-- What a table holds, and its heading, determine the table that is kept by name. -/
theorem eq_of_has_iff {u' : UnorderedTable} {t' : Table} (h : Represents u t)
    (h' : Represents u' t') (hheading : t.heading = t'.heading)
    (hhas : ∀ symbol, u.Has symbol ↔ u'.Has symbol) : t = t' := by
  have hfind (space : NameSpace) (name : String) : t.find? space name = t'.find? space name := by
    apply Option.ext
    intro symbol
    rw [h.find?_eq_some_iff, h'.find?_eq_some_iff, hhas]
  have hvars : t.vars = t'.vars := NameMap.ext_get? fun name =>
    Option.map_injective (fun _ _ heq => (Symbol.variable.inj heq).2) (hfind .vars name)
  have hprocs : t.procs = t'.procs := NameMap.ext_get? fun name =>
    Option.map_injective (fun _ _ _ => rfl) (hfind .procs name)
  obtain ⟨hname, hlevel, henclosing⟩ := Heading.mk.inj hheading
  cases t
  cases t'
  exact Table.mk.injEq .. ▸ ⟨hname, hlevel, henclosing, hvars, hprocs⟩

theorem heading_filled (h : Heading) (symbols : List Symbol) :
    ((Table.opened h.name h.level h.enclosing).fill symbols).heading = h := by
  rw [← ((opened h).fill symbols).heading, UnorderedTable.heading_fill, UnorderedTable.opened]

/-- Insertions of which the same ones are accepted make the same table. -/
theorem filled_congr {h : Heading} {as bs : List Symbol}
    (hsame : ∀ symbol, symbol ∈ (UnorderedTable.opened h).accepted as ↔
      symbol ∈ (UnorderedTable.opened h).accepted bs) :
    (Table.opened h.name h.level h.enclosing).fill as =
      (Table.opened h.name h.level h.enclosing).fill bs := by
  refine ((opened h).fill as).eq_of_has_iff ((opened h).fill bs) ?_ fun symbol => ?_
  · rw [heading_filled, heading_filled]
  · rw [UnorderedTable.has_fill_opened_iff, UnorderedTable.has_fill_opened_iff, hsame]

/-! ## Sorting two maps at once -/

/-- The orders in which the maps go through their symbols are orders of the table's entries. -/
theorem procs_perm (h : Represents u t) (hyields : u.Yields procs vars) :
    procs.Perm (t.procs.entries.map Table.procedureOf) := by
  have hslots := ((h.answers .procs).perm (t.answers_slots .procs)).map Prod.snd
  refine hyields.1.trans (hslots.trans (.of_eq ?_))
  rw [Table.slots, List.map_map]
  rfl

theorem vars_perm (h : Represents u t) (hyields : u.Yields procs vars) :
    vars.Perm (t.vars.entries.map Table.variableOf) := by
  have hslots := ((h.answers .vars).perm (t.answers_slots .vars)).map Prod.snd
  refine hyields.2.trans (hslots.trans (.of_eq ?_))
  rw [Table.slots, List.map_map]
  rfl

theorem symbols_perm (h : Represents u t) (hyields : u.Yields procs vars) :
    t.symbols.Perm (procs ++ vars) :=
  t.symbols_perm.trans ((h.procs_perm hyields).append (h.vars_perm hyields)).symm

/-- Of one name there are a procedure and a variable at most, and the procedure comes first. -/
theorem pairwise_filter (h : Represents u t) (hyields : u.Yields procs vars) (word : String) :
    ((procs ++ vars).filter fun a => a.name = word).Pairwise Symbol.Before := by
  have hapart {symbols : List Symbol} (hnames : symbols.Pairwise fun a b => a.name ≠ b.name) :
      (symbols.filter fun a => a.name = word).Pairwise Symbol.Before := by
    refine List.pairwise_filter.mpr (hnames.imp fun hne ha hb => absurd ?_ hne)
    rw [of_decide_eq_true ha, of_decide_eq_true hb]
  have hprocs : procs.Pairwise fun a b => a.name ≠ b.name :=
    ((h.procs_perm hyields).pairwise_iff Ne.symm).mpr
      (List.pairwise_map.mpr (t.procs.increasing.imp Std.ne_of_lt))
  have hvars : vars.Pairwise fun a b => a.name ≠ b.name :=
    ((h.vars_perm hyields).pairwise_iff Ne.symm).mpr
      (List.pairwise_map.mpr (t.vars.increasing.imp Std.ne_of_lt))
  rw [List.filter_append]
  refine List.pairwise_append.mpr ⟨hapart hprocs, hapart hvars, fun a ha b hb => ?_⟩
  obtain ⟨hamem, haname⟩ := List.mem_filter.mp ha
  obtain ⟨hbmem, hbname⟩ := List.mem_filter.mp hb
  obtain ⟨proc, -, rfl⟩ := List.mem_map.mp ((h.procs_perm hyields).mem_iff.mp hamem)
  obtain ⟨var, -, rfl⟩ := List.mem_map.mp ((h.vars_perm hyields).mem_iff.mp hbmem)
  have hname : proc.1 = var.1 := (of_decide_eq_true haname).trans (of_decide_eq_true hbname).symm
  exact .inr ⟨proc.1, var.2, rfl, by rw [Table.variableOf, hname]⟩

/-- **One way to sort.** In whatever orders the maps go through their symbols, a stable sort of
the procedures followed by the variables is the listing of the table that is kept by name. -/
theorem sortsStably_iff (h : Represents u t) (hyields : u.Yields procs vars) :
    SortsStably Symbol.name (procs ++ vars) sorted ↔ sorted = t.symbols := by
  have hsymbols := h.symbols_perm hyields
  constructor
  · rintro ⟨⟨hperm, hincreasing⟩, hstable⟩
    refine List.Perm.eq_of_pairwise (fun _ _ _ _ hab hba => absurd hba hab.not_before) ?_
      t.pairwise_symbols (hperm.trans hsymbols.symm)
    refine List.pairwise_iff_forall_sublist.mpr fun {a b} hsub => ?_
    have hle := List.pairwise_iff_forall_sublist.mp hincreasing hsub
    rw [utf8_lt_iff] at hle
    by_cases hname : a.name = b.name
    · -- the sort has kept the order of the two
      have hfilter := h.pairwise_filter hyields b.name
      rw [← hstable] at hfilter
      refine List.pairwise_iff_forall_sublist.mp hfilter ?_
      simpa [hname] using hsub.filter fun c => decide (c.name = b.name)
    · exact .inl (Std.lt_of_le_of_ne (String.not_lt.mp hle) hname)
  · rintro rfl
    refine ⟨⟨hsymbols, t.pairwise_symbols.imp fun hbefore hlt => ?_⟩, fun word => ?_⟩
    · exact String.lt_irrefl _
        (Std.lt_of_lt_of_le (utf8_lt_iff.mp hlt) hbefore.name_le)
    · exact List.Perm.eq_of_pairwise (fun _ _ _ _ hab hba => absurd hba hab.not_before)
        (t.pairwise_symbols.filter _) (h.pairwise_filter hyields word) (hsymbols.filter _)

end Represents

/-! ## Listings -/

/-- **Listings show what is held, and nothing of how it got there.**

Take any two sequences of assignments that leave the same value for each name. The variables of
the one store and of the other, in whatever order they come, are sorted into one and the same list.
It has each name that was assigned once, with the value that it was assigned last, and
the names by strictly increasing bytes. Both stores print this list.

Take a block and any two sequences of symbols of which its table accepts the same ones. The
procedures followed by the variables, both in whatever order they come, are sorted stably into one
and the same list. It has each symbol that was accepted once, by increasing bytes of the names, a
procedure before a variable of its name. Both tables print this list. -/
theorem listings_forget_history :
    (∀ as bs : List (String × Number),
      (∀ name, (Slots.assigned as).lookup name = (Slots.assigned bs).lookup name) →
      ∃ sorted : List (String × Number),
        (∀ order, order.Perm (Slots.assigned as) ∨ order.Perm (Slots.assigned bs) →
          ∀ l, SortsByName Prod.fst order l ↔ l = sorted) ∧
        (∀ name value, (name, value) ∈ sorted ↔ as.reverse.lookup name = some value) ∧
        (sorted.Pairwise fun a b => utf8 a.1 < utf8 b.1) ∧
        (Store.assigned as).text =
          String.join (sorted.map fun entry => entry.1 ++ " = " ++ entry.2.text ++ "\n") ∧
        (Store.assigned bs).text =
          String.join (sorted.map fun entry => entry.1 ++ " = " ++ entry.2.text ++ "\n")) ∧
    ∀ (h : Heading) (as bs : List Symbol),
      (∀ symbol, symbol ∈ (UnorderedTable.opened h).accepted as ↔
        symbol ∈ (UnorderedTable.opened h).accepted bs) →
      ∃ sorted : List Symbol,
        (∀ procs vars, ((UnorderedTable.opened h).fill as).Yields procs vars ∨
            ((UnorderedTable.opened h).fill bs).Yields procs vars →
          ∀ l, SortsStably Symbol.name (procs ++ vars) l ↔ l = sorted) ∧
        (∀ symbol, symbol ∈ sorted ↔ symbol ∈ (UnorderedTable.opened h).accepted as) ∧
        sorted.Nodup ∧
        (sorted.Pairwise fun a b => utf8 a.name < utf8 b.name ∨
          a.name = b.name ∧ a.space = .procs ∧ b.space = .vars) ∧
        ((Table.opened h.name h.level h.enclosing).fill as).text = dump h sorted ∧
        ((Table.opened h.name h.level h.enclosing).fill bs).text = dump h sorted := by
  constructor
  · intro as bs hsame
    have has := Slots.answers_assigned as
    have hbs := Slots.answers_assigned bs
    rw [← Store.assigned_congr hsame] at hbs ⊢
    refine ⟨(Store.assigned as).entries, ?_, fun name value => ?_, ?_, rfl, rfl⟩
    · rintro order (horder | horder) l
      · exact has.sortsByName_iff horder
      · exact hbs.sortsByName_iff horder
    · rw [(Slots.answers_entries _).mem_iff, Store.get?_assigned]
    · exact (Store.assigned as).increasing.imp utf8_lt_iff.mpr
  · intro h as bs hsame
    have has := (Represents.opened h).fill as
    have hbs := (Represents.opened h).fill bs
    have hheading := Represents.heading_filled h as
    rw [← Represents.filled_congr hsame] at hbs ⊢
    generalize (Table.opened h.name h.level h.enclosing).fill as = t at has hbs hheading
    have htext : t.text = dump h t.symbols := by rw [Table.text_eq_dump, hheading]
    refine ⟨t.symbols, ?_, fun symbol => ?_, ?_, ?_, htext, htext⟩
    · rintro procs vars (hyields | hyields) l
      · exact has.sortsStably_iff hyields
      · exact hbs.sortsStably_iff hyields
    · rw [has.mem_symbols_iff, UnorderedTable.has_fill_opened_iff]
    · exact t.pairwise_symbols.imp fun hab heq => (heq ▸ hab).not_before (heq ▸ hab)
    · refine t.pairwise_symbols.imp fun hab => hab.imp utf8_lt_iff.mpr ?_
      rintro ⟨name, type, rfl, rfl⟩
      exact ⟨rfl, rfl, rfl⟩

/-- Assignments to two variables, to one of them twice. -/
def reassigning : List (String × Number) :=
  [("y", .integer 7), ("b", .integer 25), ("y", .integer 2)]

/-- The assignments of these that count, in another order. -/
def reassigned : List (String × Number) := [("b", .integer 25), ("y", .integer 2)]

/-- A variable, a procedure of its name, and a variable that is refused. -/
def redeclaring : List Symbol := [.variable "p" .integer, .procedure "p", .variable "p" .real]

/-- The two that are accepted, in the other order. -/
def redeclared : List Symbol := [.procedure "p", .variable "p" .integer]

/-- What both histories print. -/
def redeclaredText : String :=
  "SCOPE (SCOPED SYMBOL TABLE)\n===========================\n" ++
  "Scope name     : P\nScope level    : 2\nEnclosing scope: #0\n" ++
  "Scope (Scoped symbol table) contents\n------------------------------------\n" ++
  "      p: <ProcedureSymbol(name='p')>\n" ++
  "      p: <VarSymbol(name='p', type='INTEGER')>\n"

/-- Both orders of two slots are sorted alike, and neither a value that was overwritten nor a
symbol that was refused is to be seen. -/
theorem listings_forget_history_overwriting :
    (SortsByName Prod.fst [("b", Number.integer 25), ("y", .integer 2)]
        [("b", .integer 25), ("y", .integer 2)] ∧
      SortsByName Prod.fst [("y", Number.integer 2), ("b", .integer 25)]
        [("b", .integer 25), ("y", .integer 2)] ∧
      (Store.assigned reassigning).text = "b = 25\ny = 2\n" ∧
      (Store.assigned reassigned).text = "b = 25\ny = 2\n") ∧
    SortsStably Symbol.name [.procedure "p", .variable "p" .integer]
        [.procedure "p", .variable "p" .integer] ∧
      ((Table.opened "P" 2 (some ⟨0⟩)).fill redeclaring).text = redeclaredText ∧
      ((Table.opened "P" 2 (some ⟨0⟩)).fill redeclared).text = redeclaredText := by
  obtain ⟨hstores, htables⟩ := listings_forget_history
  constructor
  · have hsame (name : String) :
        (Slots.assigned reassigning).lookup name = (Slots.assigned reassigned).lookup name := by
      rw [(Slots.answers_assigned _).lookup_eq, (Slots.answers_assigned _).lookup_eq,
        Store.get?_assigned, Store.get?_assigned]
      by_cases hy : name = "y"
      · rw [hy]
        rfl
      · by_cases hb : name = "b"
        · rw [hb]
          rfl
        · simp [reassigning, reassigned, List.lookup_cons, hy, hb, beq_eq_false_iff_ne.mpr]
    obtain ⟨sorted, hsorts, -, -, htext, htext'⟩ := hstores reassigning reassigned hsame
    have hbinds : SortsByName Prod.fst [("b", Number.integer 25), ("y", .integer 2)]
        [("b", .integer 25), ("y", .integer 2)] :=
      ⟨.rfl, List.pairwise_pair.mpr fun hlt => absurd (utf8_lt_iff.mp hlt) (by decide)⟩
    obtain rfl := (hsorts _ (.inl .rfl) _).mp hbinds
    exact ⟨hbinds, (hsorts _ (.inr .rfl) _).mpr rfl, htext.trans (by decide +kernel),
      htext'.trans (by decide +kernel)⟩
  · have hsame (symbol : Symbol) :
        symbol ∈ (UnorderedTable.opened ⟨"P", 2, some ⟨0⟩⟩).accepted redeclaring ↔
          symbol ∈ (UnorderedTable.opened ⟨"P", 2, some ⟨0⟩⟩).accepted redeclared :=
      (List.Perm.swap _ _ []).mem_iff
    obtain ⟨sorted, hsorts, -, -, -, htext, htext'⟩ :=
      htables ⟨"P", 2, some ⟨0⟩⟩ redeclaring redeclared hsame
    have hlisted : SortsStably Symbol.name [.procedure "p", .variable "p" .integer]
        [.procedure "p", .variable "p" .integer] :=
      ⟨⟨.rfl, List.pairwise_pair.mpr fun hlt => String.lt_irrefl _ (utf8_lt_iff.mp hlt)⟩,
        fun _ => rfl⟩
    obtain rfl :=
      (hsorts [.procedure "p"] [.variable "p" .integer] (.inl ⟨.rfl, .rfl⟩) _).mp hlisted
    exact ⟨hlisted, htext.trans (by decide +kernel), htext'.trans (by decide +kernel)⟩

end MiniPascal
