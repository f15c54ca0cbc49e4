/-
`Session.lean` -- programs run one after another on one machine.

An execution is a fold. The body of a program is flattened to its assignments, and
these are performed from left to right, each on the store that the one before it left.
An assignment whose value cannot be computed ends the fold and leaves the store as it
found it. `Performs` says this of a list of assignments without a machine, and
`Session` says it of a list of programs, where a program finds the store as the one
before left it, whether that one ended or stopped. What machines do is what these
relations say (`session_folds`).

The step lemma is about a list of assignments (`Execute.performs_assignAll`), and the lemma
for sessions is an induction on the programs. Whatever goes along with each assignment goes
along with the fold (`performAll_simulated`).
-/
import MiniPascal.Proofs.Execution

set_option autoImplicit false

namespace MiniPascal

/-! ## Assignments as a fold over the store -/

/-- Performs an assignment. -/
def Assignment.perform (s : Store) (a : Assignment) : Except (Error RuntimeFault) Store :=
  match a.value.value s with
  | .ok value => .ok (s.assign a.target.name value)
  | .error e => .error e

/-- Performs assignments from left to right, up to the first that fails. -/
abbrev performAll (s : Store) (as : List Assignment) : Except (Error RuntimeFault) Store :=
  as.foldlM Assignment.perform s

theorem Assignment.perform_of_ok {s : Store} {a : Assignment} {value : Number}
    (h : a.value.value s = .ok value) : a.perform s = .ok (s.assign a.target.name value) := by
  rw [perform, h]

theorem Assignment.perform_of_error {s : Store} {a : Assignment} {e : Error RuntimeFault}
    (h : a.value.value s = .error e) : a.perform s = .error e := by
  rw [perform, h]

theorem performAll_cons_of_ok {s s' : Store} {a : Assignment} (as : List Assignment)
    (h : a.perform s = .ok s') : performAll s (a :: as) = performAll s' as := by
  rw [performAll, List.foldlM_cons, h]
  rfl

theorem performAll_cons_of_error {s : Store} {a : Assignment} {e : Error RuntimeFault}
    (as : List Assignment) (h : a.perform s = .error e) : performAll s (a :: as) = .error e := by
  rw [performAll, List.foldlM_cons, h]
  rfl

/-- The run lemma for anything that goes along: steps that do to the image of a store what the
assignments do to the store do so all the way. -/
theorem performAll_simulated {n : Type → Type} [Monad n] [LawfulMonad n] {σ β : Type}
    {φ : Store → σ} {g : Assignment → β} {step : σ → β → n σ}
    (hstep : ∀ {s s' : Store} {a : Assignment}, a.perform s = .ok s' →
      step (φ s) (g a) = pure (φ s'))
    {s s' : Store} {as : List Assignment} (h : performAll s as = .ok s') :
    (as.map g).foldlM step (φ s) = pure (φ s') := by
  induction as generalizing s with
  | nil =>
    cases h
    rfl
  | cons a as ih =>
    cases ha : a.perform s with
    | error e =>
      rw [performAll_cons_of_error as ha] at h
      cases h
    | ok t =>
      rw [performAll_cons_of_ok as ha] at h
      rw [List.map_cons, List.foldlM_cons, hstep ha, pure_bind]
      exact ih h

/-- The outcome of performing assignments, and the store that they leave: either all of
them are performed, or exactly those before one that fails. -/
inductive Performs (s : Store) : List Assignment → Except (Error RuntimeFault) Unit → Store → Prop
  | all {as : List Assignment} {s' : Store} (hall : performAll s as = .ok s') :
      Performs s as (.ok ()) s'
  | upTo {before after : List Assignment} {a : Assignment} {s' : Store} {e : Error RuntimeFault}
      (hbefore : performAll s before = .ok s') (hfails : a.value.value s' = .error e) :
      Performs s (before ++ a :: after) (.error e) s'

/-- If the first assignment fails, nothing happens. -/
theorem Performs.first {s : Store} {a : Assignment} {as : List Assignment}
    {e : Error RuntimeFault} (h : a.value.value s = .error e) :
    Performs s (a :: as) (.error e) s := by
  rw [← List.nil_append (a :: as)]
  exact .upTo rfl h

/-- An assignment in front that succeeds only moves the store. -/
theorem Performs.cons {s s' t : Store} {a : Assignment} {as : List Assignment}
    {outcome : Except (Error RuntimeFault) Unit} (ha : a.perform s = .ok s')
    (h : Performs s' as outcome t) : Performs s (a :: as) outcome t := by
  cases h with
  | all hall => exact .all (by rw [performAll_cons_of_ok as ha, hall])
  | upTo hbefore hfails =>
    rw [← List.cons_append]
    exact .upTo (by rw [performAll_cons_of_ok _ ha, hbefore]) hfails

/-! ## Machines -/

namespace Machine

/-- Runs a program, which leaves a machine also if it stops. -/
def interpret (m : Machine) (p : Program) : Except (Error RuntimeFault) Unit × Machine :=
  match Execute.program p m with
  | .ok _ m' => (.ok (), m')
  | .error e m' => (.error e, m')

/-- Runs programs one after another, each on the machine that the one before it left. -/
def session (m : Machine) : List Program → List (Except (Error RuntimeFault) Unit) × Machine
  | [] => ([], m)
  | p :: ps =>
    let (outcome, m') := m.interpret p
    let (outcomes, last) := m'.session ps
    (outcome :: outcomes, last)

end Machine

namespace Execute

/-- The step lemma: a machine that is given assignments performs them on its store. -/
theorem performs_assignAll (as : List Assignment) (m : Machine) :
    match assignAll as m with
    | .ok _ m' => Performs m.store as (.ok ()) m'.store
    | .error e m' => Performs m.store as (.error e) m'.store := by
  induction as generalizing m with
  | nil => exact .all rfl
  | cons a as ih =>
    rw [assignAll]
    cases hvalue : a.value.value m.store with
    | error e =>
      rw [bind_of_error (assign_of_error hvalue)]
      exact .first hvalue
    | ok value =>
      rw [bind_of_ok (assign_of_ok hvalue)]
      have ha := Assignment.perform_of_ok hvalue
      -- the rest runs on the store that the first assignment left
      have hrest := ih (assigned m a.target.name value)
      split at hrest
      · exact hrest.cons ha
      · exact hrest.cons ha

theorem assignAll_of_performAll {as : List Assignment} {m : Machine} {s : Store}
    (h : performAll m.store as = .ok s) : ∃ m', assignAll as m = .ok () m' ∧ m'.store = s := by
  induction as generalizing m with
  | nil => exact ⟨m, rfl, Except.ok.inj h⟩
  | cons a as ih =>
    rw [assignAll]
    cases hvalue : a.value.value m.store with
    | error e =>
      rw [performAll_cons_of_error as (Assignment.perform_of_error hvalue)] at h
      cases h
    | ok value =>
      rw [performAll_cons_of_ok as (Assignment.perform_of_ok hvalue)] at h
      rw [bind_of_ok (assign_of_ok hvalue)]
      exact ih h

/-- The step lemma, backwards: there is only one way to perform assignments. -/
theorem assignAll_of_performs {as : List Assignment} {m : Machine} {s : Store}
    {outcome : Except (Error RuntimeFault) Unit} (h : Performs m.store as outcome s) :
    ∃ m', m'.store = s ∧ match outcome with
      | .ok _ => assignAll as m = .ok () m'
      | .error e => assignAll as m = .error e m' := by
  cases h with
  | all hall =>
    obtain ⟨m', hrun, hstore⟩ := assignAll_of_performAll hall
    exact ⟨m', hstore, hrun⟩
  | upTo hbefore hfails =>
    obtain ⟨m', hrun, rfl⟩ := assignAll_of_performAll hbefore
    refine ⟨m', rfl, ?_⟩
    -- the assignments behind the failing one are not reached
    rw [assignAll_append, bind_of_ok hrun, assignAll, bind_of_error (assign_of_error hfails)]

end Execute

/-- A run of one program is the fold over the assignments of its body. -/
theorem Machine.interpret_iff_performs {m : Machine} {p : Program} {s : Store}
    {outcome : Except (Error RuntimeFault) Unit} :
    (m.interpret p).1 = outcome ∧ (m.interpret p).2.store = s ↔
      Performs m.store (bodyAssignments p.block.body) outcome s := by
  rw [interpret, Execute.program_eq]
  constructor
  · rintro ⟨rfl, rfl⟩
    have hrun := Execute.performs_assignAll (bodyAssignments p.block.body) m
    split at hrun
    · exact hrun
    · exact hrun
  · intro h
    obtain ⟨m', rfl, hrun⟩ := Execute.assignAll_of_performs h
    cases outcome with
    | ok _ =>
      rw [hrun]
      exact ⟨rfl, rfl⟩
    | error e =>
      rw [hrun]
      exact ⟨rfl, rfl⟩

theorem Machine.performs_interpret (m : Machine) (p : Program) :
    Performs m.store (bodyAssignments p.block.body) (m.interpret p).1 (m.interpret p).2.store :=
  interpret_iff_performs.mp ⟨rfl, rfl⟩

theorem Machine.interpret_eq_ok_iff {m m' : Machine} {p : Program} :
    m.interpret p = (.ok (), m') ↔ Execute.program p m = .ok () m' := by
  rw [interpret]
  constructor
  · intro h
    split at h
    · next hresult =>
      cases h
      exact hresult
    · cases h
  · intro h
    rw [h]

/-! ## Sessions -/

/-- The outcomes of some programs and the store that they leave. Every program starts
from the store as it is, and its body is performed assignment by assignment. -/
inductive Session : Store → List Program → List (Except (Error RuntimeFault) Unit) → Store → Prop
  | nil (s : Store) : Session s [] [] s
  | cons {s s' t : Store} {p : Program} {ps : List Program}
      {outcome : Except (Error RuntimeFault) Unit}
      {outcomes : List (Except (Error RuntimeFault) Unit)}
      (hfirst : Performs s (bodyAssignments p.block.body) outcome s')
      (hothers : Session s' ps outcomes t) : Session s (p :: ps) (outcome :: outcomes) t

namespace Machine

/-- The run lemma, by induction on the programs: a session of machines is a session of
folds. -/
theorem session_iff {ps : List Program} {m : Machine}
    {outcomes : List (Except (Error RuntimeFault) Unit)} {s : Store} :
    (m.session ps).1 = outcomes ∧ (m.session ps).2.store = s ↔ Session m.store ps outcomes s := by
  induction ps generalizing m outcomes with
  | nil =>
    rw [session]
    constructor
    · rintro ⟨rfl, rfl⟩
      exact .nil m.store
    · intro h
      cases h
      exact ⟨rfl, rfl⟩
  | cons p ps ih =>
    rw [session]
    constructor
    · rintro ⟨rfl, rfl⟩
      exact .cons (interpret_iff_performs.mp ⟨rfl, rfl⟩) (ih.mp ⟨rfl, rfl⟩)
    · intro h
      cases h with
      | cons hfirst hothers =>
        -- the machine behind the first program has the store that its fold left
        obtain ⟨rfl, rfl⟩ := interpret_iff_performs.mpr hfirst
        obtain ⟨rfl, rfl⟩ := ih.mpr hothers
        exact ⟨rfl, rfl⟩

end Machine

theorem bodyAssignments_append (first second : List Statement) :
    bodyAssignments (first ++ second) = bodyAssignments first ++ bodyAssignments second := by
  induction first with
  | nil => rfl
  | cons s ss ih =>
    rw [List.cons_append, bodyAssignments, bodyAssignments, ih, List.append_assoc]

/-- The program with a name and declarations of its own, and the bodies of two programs. -/
def Program.joined (name : Identifier) (declarations : List Declaration) (p₁ p₂ : Program) :
    Program :=
  ⟨name, ⟨declarations, p₁.block.body ++ p₂.block.body⟩⟩

theorem Execute.program_joined (name : Identifier) (declarations : List Declaration)
    (p₁ p₂ : Program) :
    program (.joined name declarations p₁ p₂) = (do program p₁; program p₂) := by
  rw [program_eq, program_eq, program_eq, Program.joined, bodyAssignments_append,
    assignAll_append]

/-- **Execution is a fold with atomic failure.** On every machine and for all programs run
on it in turn, the outcomes and the last store are those of performing the assignments of
each body from left to right on the store as it stands: all of them, or those before the
first that fails, whose error is the outcome. So two programs that both succeed do what
one program with their bodies joined does. -/
theorem session_folds (m : Machine) :
    (∀ ps outcomes s, (m.session ps).1 = outcomes ∧ (m.session ps).2.store = s ↔
      Session m.store ps outcomes s) ∧
    ∀ p₁ p₂ name declarations m', m.interpret (.joined name declarations p₁ p₂) = (.ok (), m') ↔
      ∃ m₁, m.interpret p₁ = (.ok (), m₁) ∧ m₁.interpret p₂ = (.ok (), m') := by
  refine ⟨fun ps outcomes s => Machine.session_iff, fun p₁ p₂ name declarations m' => ?_⟩
  rw [Machine.interpret_eq_ok_iff, Execute.program_joined, bind_eq_ok_iff]
  constructor
  · rintro ⟨u, m₁, hfirst, hsecond⟩
    exact ⟨m₁, Machine.interpret_eq_ok_iff.mpr hfirst, Machine.interpret_eq_ok_iff.mpr hsecond⟩
  · rintro ⟨m₁, hfirst, hsecond⟩
    exact ⟨(), m₁, Machine.interpret_eq_ok_iff.mp hfirst, Machine.interpret_eq_ok_iff.mp hsecond⟩

end MiniPascal
