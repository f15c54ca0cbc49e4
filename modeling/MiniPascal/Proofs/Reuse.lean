/-
`Reuse.lean` -- a program on a store that is not empty.

A program may be run on what other programs have left. As long as it only reads
variables that it has assigned itself, it cannot tell. The run on a store `s` goes
along with the run on the empty store, and at every moment the store of the first is
`s` with the store of the second written over it (`NameMap.overlay`). That relation is
kept by an assignment because an expression whose variables are all found in `t` has
the same value in `s.overlay t`.

The run on the empty store may stop; it must only not stop at a variable without a
value. For then the other run may find one and go on.
-/
import MiniPascal.Proofs.Session

set_option autoImplicit false

namespace MiniPascal

/-! ## One map written over another -/

namespace NameMap

variable {α : Type}

/-- The first map with all entries of the second written over it. -/
def overlay (s t : NameMap α) : NameMap α :=
  t.entries.foldl (fun s entry => s.insert entry.1 entry.2) s

/-- Entries that are written over a map under new names, different ones if they had different
ones before. -/
theorem get?_foldl_insert {f : String → String} (hf : Function.Injective f)
    {l : List (String × α)} (h : l.Pairwise (fun a b => a.1 < b.1)) (s : NameMap α)
    (name : String) :
    (l.foldl (fun s entry => s.insert (f entry.1) entry.2) s).get? (f name) =
      (l.lookup name).or (s.get? (f name)) := by
  induction l generalizing s with
  | nil => rfl
  | cons entry l ih =>
    have ⟨hhead, htail⟩ := List.pairwise_cons.mp h
    rw [List.foldl_cons, ih htail, get?_insert, List.lookup_cons]
    by_cases hname : name = entry.1
    · -- the name is not among the later entries
      rw [hname, lookup_eq_none_of_lt hhead, if_pos rfl, beq_self_eq_true]
      rfl
    · rw [if_neg (hf.ne hname), beq_eq_false_iff_ne.mpr hname]

/-- A name that the second map does not bind is looked up in the first. -/
theorem get?_overlay (s t : NameMap α) (name : String) :
    (s.overlay t).get? name = (t.get? name).or (s.get? name) :=
  get?_foldl_insert Function.injective_id t.increasing s name

theorem overlay_empty (s : NameMap α) : s.overlay ∅ = s := rfl

/-- It makes no difference whether an entry is added on top or before. -/
theorem insert_overlay (s t : NameMap α) (name : String) (value : α) :
    (s.overlay t).insert name value = s.overlay (t.insert name value) := by
  apply ext_get?
  intro other
  rw [get?_insert, get?_overlay, get?_overlay, get?_insert]
  by_cases h : other = name
  · rw [if_pos h, if_pos h, Option.some_or]
  · rw [if_neg h, if_neg h]

end NameMap

/-! ## Expressions that find their variables -/

/-- The outcome is not that a variable has no value. -/
def SelfContained {α : Type} (outcome : Except (Error RuntimeFault) α) : Prop :=
  ∀ name position, outcome ≠ .error ⟨.unassignedVariable name, position⟩

variable {t t' : Store}

theorem SelfContained.of_bind {α β : Type} {x : Except (Error RuntimeFault) α}
    {f : α → Except (Error RuntimeFault) β} (h : SelfContained (x >>= f)) : SelfContained x := by
  intro name position hx
  rw [hx] at h
  exact h name position rfl

/-- An expression that finds its variables in a store finds them also if others lie
under it. -/
theorem Expr.value_overlay (s : Store) {e : Expr} (h : SelfContained (e.value t)) :
    e.value (s.overlay t) = e.value t := by
  induction e with
  | literal => rfl
  | «variable» x =>
    rw [value] at h
    rw [value, value, NameMap.get?_overlay]
    cases hx : t.get? x.name with
    | none =>
      rw [hx] at h
      exact absurd rfl (h x.name x.position)
    | some number => rfl
  | unary op operand position ih =>
    rw [value] at h
    rw [value, value, ih h.of_bind]
  | binary op left right position ihleft ihright =>
    rw [value] at h
    rw [value, value, ihleft h.of_bind]
    -- the right operand is looked at only if the left one has a value
    cases hleft : left.value t with
    | error e => rfl
    | ok a =>
      rw [hleft] at h
      have hright : SelfContained
          (right.value t >>= fun b => Number.located position (Number.binary op a b)) := h
      rw [ihright hright.of_bind]

/-! ## Assignments -/

theorem SelfContained.ok {α : Type} (a : α) : SelfContained (.ok a) := by
  intro name position h
  cases h

theorem Assignment.perform_overlay (s : Store) {a : Assignment} (h : a.perform t = .ok t') :
    a.perform (s.overlay t) = .ok (s.overlay t') := by
  rw [perform] at h
  split at h
  · next value hvalue =>
    have hsame : a.value.value (s.overlay t) = .ok value := by
      rw [Expr.value_overlay s (hvalue ▸ .ok value), hvalue]
    cases h
    rw [perform_of_ok hsame, Store.assign, Store.assign, NameMap.insert_overlay]
  · cases h

theorem performAll_overlay (s : Store) {as : List Assignment} (h : performAll t as = .ok t') :
    performAll (s.overlay t) as = .ok (s.overlay t') := by
  rw [← List.map_id as]
  exact performAll_simulated (Assignment.perform_overlay s) h

/-- Assignments that find their variables, all of them or those up to one that fails, do
the same on a store with others under it. -/
theorem Performs.overlay {as : List Assignment} {outcome : Except (Error RuntimeFault) Unit}
    (h : Performs t as outcome t') (hreads : SelfContained outcome) (s : Store) :
    Performs (s.overlay t) as outcome (s.overlay t') := by
  cases h with
  | all hall => exact .all (performAll_overlay s hall)
  | upTo hbefore hfails =>
    refine .upTo (performAll_overlay s hbefore) ?_
    rw [Expr.value_overlay s, hfails]
    -- the assignment fails with the error of the whole, which is of another kind
    rw [hfails]
    intro name position heq
    cases heq
    exact hreads name position rfl

/-! ## Programs -/

/-- **A machine that is used again.** Take a program that does not meet a variable without
a value when it runs on a fresh machine. On any machine it has the same outcome, with an
error also at the same place, and leaves the store of that machine with the store of the
fresh run written over it, be that run complete or not: what the fresh run binds has its
value from there, and all else keeps the value it had. -/
theorem interpret_eq_overlay_fresh {p : Program}
    (h : ∀ name position,
      (Machine.fresh.interpret p).1 ≠ .error ⟨.unassignedVariable name, position⟩)
    (m : Machine) :
    (m.interpret p).1 = (Machine.fresh.interpret p).1 ∧
    (m.interpret p).2.store = m.store.overlay (Machine.fresh.interpret p).2.store ∧
    (∀ name value, (Machine.fresh.interpret p).2.store.get? name = some value →
      (m.interpret p).2.store.get? name = some value) ∧
    ∀ name, (Machine.fresh.interpret p).2.store.get? name = none →
      (m.interpret p).2.store.get? name = m.store.get? name := by
  have hfresh : Performs ∅ (bodyAssignments p.block.body) (Machine.fresh.interpret p).1
      (Machine.fresh.interpret p).2.store :=
    (Machine.interpret_iff_performs (m := Machine.fresh)).mp ⟨rfl, rfl⟩
  have hover := hfresh.overlay h m.store
  rw [NameMap.overlay_empty] at hover
  obtain ⟨houtcome, hstore⟩ := Machine.interpret_iff_performs.mpr hover
  refine ⟨houtcome, hstore, fun name value hname => ?_, fun name hname => ?_⟩
  · rw [hstore, NameMap.get?_overlay, hname, Option.some_or]
  · rw [hstore, NameMap.get?_overlay, hname, Option.none_or]

/-- A program that assigns `a` and then, in a compound, divides by zero. -/
def Program.dividing : Program :=
  let one : Expr := .literal (.integer 1) .start
  let zero : Expr := .literal (.integer 0) .start
  ⟨⟨"demo", .start⟩, [],
    [.assign ⟨"a", .start⟩ one .start,
      .compound [.assign ⟨"b", .start⟩
        (.binary .integerDivide (.variable ⟨"a", .start⟩) zero ⟨1, 30⟩) .start],
      .assign ⟨"c", .start⟩ one .start]⟩

/-- A machine on which other programs have left values for `a` and `c`. -/
def Machine.used : Machine :=
  ⟨(Store.assign ∅ "a" (.integer 7)).assign "c" (.integer 9), #[]⟩

/-- On the used machine it fails as on a fresh one; `a` is new and `c` is kept. -/
theorem interpret_eq_overlay_fresh_dividing :
    (Machine.used.interpret .dividing).1 = .error ⟨.divisionByZero, ⟨1, 30⟩⟩ ∧
      (Machine.used.interpret .dividing).2.store.get? "a" = some (.integer 1) ∧
      (Machine.used.interpret .dividing).2.store.get? "c" = some (.integer 9) := by
  have hfresh : (Machine.fresh.interpret .dividing).1 = .error ⟨.divisionByZero, ⟨1, 30⟩⟩ := rfl
  have hreads : ∀ name position, (Machine.fresh.interpret .dividing).1 ≠
      .error ⟨.unassignedVariable name, position⟩ := by
    intro name position heq
    rw [hfresh] at heq
    cases heq
  obtain ⟨houtcome, -, hbound, hkept⟩ := interpret_eq_overlay_fresh hreads .used
  exact ⟨houtcome.trans hfresh, hbound "a" (.integer 1) rfl, (hkept "c" rfl).trans rfl⟩

end MiniPascal
