/-
`Resolution.lean` -- the static pass decides well-scopedness.

Each part of the pass settles a list of demands: if they are all met it succeeds, in a
state that is known, and otherwise it fails with the error of the first unmet one
(`Settles`). Parts in sequence settle their demands in sequence, so the demands of a
whole program come out in the order in which the pass looks.

What has to be known about the state between two parts is only the arena, and inside a
block it is a function of the declarations met so far (`Frame.arena`). A nested block
is entered from such an arena and leaves it as it was: that is the induction, over the
declarations.
-/
import MiniPascal.Proofs.Frame
import MiniPascal.Proofs.Stateful
import MiniPascal.Scope.Resolution

set_option autoImplicit false

namespace MiniPascal

namespace Resolve

/-! ## Settling demands -/

/-- The first of some demands that is not met. -/
def firstUnmet? (demands : List Demand) : Option Demand := demands.find? fun d => ¬ d.Met

theorem firstUnmet?_eq_some_iff {demands : List Demand} {d : Demand} :
    firstUnmet? demands = some d ↔ FirstUnmet demands d := by
  rw [firstUnmet?, List.find?_eq_some_iff_append]
  simp only [decide_eq_true_eq, Bool.not_eq_eq_eq_not, Bool.not_true, decide_eq_false_iff_not,
    Decidable.not_not]
  constructor
  · rintro ⟨hunmet, before, after, heq, hmet⟩
    exact ⟨before, after, heq, hmet, hunmet⟩
  · rintro ⟨before, after, heq, hmet, hunmet⟩
    exact ⟨hunmet, before, after, heq, hmet⟩

theorem firstUnmet?_eq_none_iff {demands : List Demand} :
    firstUnmet? demands = none ↔ ∀ d ∈ demands, d.Met := by
  rw [firstUnmet?, List.find?_eq_none]
  simp only [decide_eq_true_eq, Decidable.not_not]

/-- Started in `r`, a part of the pass succeeds in a state with `post` if all demands
are met, and fails with the error of the first one that is not. -/
def Settles (m : Resolve Unit) (r : Resolver) (demands : List Demand)
    (post : Resolver → Prop) : Prop :=
  match firstUnmet? demands with
  | none => ∃ r', m r = .ok () r' ∧ post r'
  | some d => ∃ r', m r = .error d.error r'

variable {m m' : Resolve Unit} {r r' : Resolver} {demands others : List Demand}
  {post post' : Resolver → Prop}

/-- Only what a part does from here matters. -/
theorem Settles.of_eq (heq : m r = m' r') (h : Settles m' r' demands post) :
    Settles m r demands post := by
  unfold Settles at h ⊢
  rwa [heq]

theorem settles_pure (h : post r) : Settles (pure ()) r [] post := ⟨r, rfl, h⟩

/-- One demand, met or not. -/
theorem settles_one {d : Demand} (hmet : d.Met → ∃ r', m r = .ok () r' ∧ post r')
    (hunmet : ¬ d.Met → ∃ r', m r = .error d.error r') : Settles m r [d] post := by
  unfold Settles firstUnmet?
  by_cases h : d.Met
  · rw [List.find?_cons_of_neg (by simpa using h)]
    exact hmet h
  · rw [List.find?_cons_of_pos (by simpa using h)]
    exact hunmet h

/-- Parts in sequence settle their demands in sequence. -/
theorem Settles.bind (h : Settles m r demands post)
    (hnext : ∀ r', post r' → Settles m' r' others post') :
    Settles (m >>= fun _ => m') r (demands ++ others) post' := by
  unfold Settles firstUnmet? at h ⊢
  rw [List.find?_append]
  cases hfirst : demands.find? (fun d => ¬ d.Met) with
  -- the first part has failed, and the demands of the second one are not looked at
  | some d =>
    rw [hfirst] at h
    obtain ⟨r', h⟩ := h
    exact ⟨r', bind_of_error h _⟩
  | none =>
    rw [hfirst] at h
    obtain ⟨r', h, hpost⟩ := h
    have hlast := hnext r' hpost
    unfold Settles firstUnmet? at hlast
    rw [bind_of_ok h, Option.none_or]
    exact hlast

/-- A part that demands nothing comes last. -/
theorem Settles.bind_ok (h : Settles m r demands post)
    (hnext : ∀ r', post r' → ∃ r'', m' r' = .ok () r'' ∧ post' r'') :
    Settles (m >>= fun _ => m') r demands post' := by
  rw [← List.append_nil demands]
  exact h.bind hnext

/-! ## Bodies -/

variable {f : Frame} {ds : List Declaration} {outer : List String}

theorem settles_identifier (hsees : f.Sees outer) (hr : r.scopes = f.arena ds)
    (occurrence : Identifier) :
    Settles (identifier f.scope occurrence) r [.known (variableNames ds ++ outer) occurrence]
      (fun r' => r'.scopes = f.arena ds) := by
  have hiff : ((f.arena ds).lookup f.scope occurrence.name).isSome = true ↔
      occurrence.name ∈ variableNames ds ++ outer := Frame.isSome_lookup hsees occurrence.name
  apply settles_one
  · intro hmet
    obtain ⟨symbol, hsymbol⟩ := Option.isSome_iff_exists.mp (hiff.mpr hmet)
    unfold identifier
    rw [hr, hsymbol]
    exact ⟨_, rfl, hr⟩
  · intro hunmet
    have hnone : (f.arena ds).lookup f.scope occurrence.name = none :=
      Option.not_isSome_iff_eq_none.mp fun h => hunmet (hiff.mp h)
    unfold identifier
    rw [hr, hnone]
    exact ⟨_, rfl⟩

theorem settles_expr (hsees : f.Sees outer) (e : Expr) (hr : r.scopes = f.arena ds) :
    Settles (expr f.scope e) r (e.occurrences.map (.known (variableNames ds ++ outer)))
      (fun r' => r'.scopes = f.arena ds) := by
  induction e generalizing r with
  | literal => exact settles_pure hr
  | «variable» name => exact settles_identifier hsees hr name
  | binary op left right position ihleft ihright =>
    rw [expr, Expr.occurrences, List.map_append]
    exact (ihleft hr).bind fun r' hr' => ihright hr'
  | unary op operand position ih => exact ih hr

mutual

theorem settles_statement {r : Resolver} (hsees : f.Sees outer) (s : Statement)
    (hr : r.scopes = f.arena ds) :
    Settles (statement f.scope s) r (s.occurrences.map (.known (variableNames ds ++ outer)))
      (fun r' => r'.scopes = f.arena ds) := by
  match s with
  | .empty => exact settles_pure hr
  | .assign target value position =>
    rw [statement, Statement.occurrences, List.map_append]
    exact (settles_expr hsees value hr).bind fun r' hr' => settles_identifier hsees hr' target
  | .compound body =>
    rw [statement, Statement.occurrences]
    exact settles_statements hsees body hr

theorem settles_statements {r : Resolver} (hsees : f.Sees outer) (body : List Statement)
    (hr : r.scopes = f.arena ds) :
    Settles (statements f.scope body) r (bodyDemands (variableNames ds ++ outer) body)
      (fun r' => r'.scopes = f.arena ds) := by
  match body with
  | [] => exact settles_pure hr
  | first :: others =>
    rw [statements, bodyDemands, bodyOccurrences, List.map_append]
    exact (settles_statement hsees first hr).bind fun r' hr' =>
      settles_statements hsees others hr'

end

/-! ## Declarations -/

theorem settles_declare (hr : r.scopes = f.arena ds) (d : Declaration) :
    Settles (declare f.scope d.symbol d.name.position) r [.fresh (d.rivals ds) d.name f.name]
      (fun r' => r'.scopes = f.arena (ds ++ [d])) := by
  have hinsert : (f.arena ds).insert? f.scope d.symbol =
      if d.name.name ∈ d.rivals ds then none else some (f.arena (ds ++ [d])) :=
    Frame.insert?_arena d
  apply settles_one
  · intro hmet
    rw [if_neg hmet] at hinsert
    unfold declare
    rw [hr, hinsert]
    exact ⟨_, rfl, rfl⟩
  · intro hunmet
    rw [if_pos (Decidable.not_not.mp hunmet)] at hinsert
    unfold declare
    rw [hr, hinsert, Frame.table_arena]
    dsimp only
    rw [Frame.name_table]
    exact ⟨r, by cases d <;> rfl⟩

/-- Entering the block of a procedure opens its scope inside the current one. -/
theorem enter_inner (hr : r.scopes = f.arena ds) (name : String) :
    ∃ r', enter name (some f.scope) r = .ok (f.inner ds name).scope r' ∧
      r'.scopes = (f.inner ds name).arena [] := by
  have hlevel : ((f.arena ds).table f.scope).level + 1 = f.level + 1 := by
    rw [Frame.table_arena, Frame.table, (Table.declareAll_frame _ ds).2.1]
    rfl
  -- the level of a new scope is read from the table of the one around it
  unfold enter
  rw [hr]
  refine ⟨_, rfl, ?_⟩
  change Arena.mk ((f.arena ds).tables.push
    (.opened name (((f.arena ds).table f.scope).level + 1) (some f.scope))) = _
  rw [hlevel]
  rfl

/-- Leaving a block restores the scopes outside. -/
theorem leave_arena (hr : r.scopes = f.arena ds) :
    ∃ r', leave r = .ok () r' ∧ r'.scopes = ⟨f.outside⟩ := by
  have hpop : (f.arena ds).pop = (some (f.table ds), ⟨f.outside⟩) := by
    rw [Arena.pop, Frame.arena, Array.back?_push, Array.pop_push]
  unfold leave
  rw [hr, hpop]
  exact ⟨_, rfl, rfl⟩

/-- What is left to do in a block that has just been entered, given that its
declarations settle what they demand. -/
theorem settles_block_of {body : List Statement} (hsees : f.Sees outer)
    (hdeclarations : Settles (declarations f.scope ds) r (declarationDemands f.name outer [] ds)
      (fun r' => r'.scopes = f.arena ds)) :
    Settles (do declarations f.scope ds; statements f.scope body; leave) r
      (blockDemands f.name outer ds body) (fun r' => r'.scopes = ⟨f.outside⟩) :=
  hdeclarations.bind fun _ hr' =>
    (settles_statements hsees body hr').bind_ok fun _ hr'' => leave_arena hr''

mutual

theorem settles_declaration {f : Frame} {outer : List String} {before : List Declaration}
    {r : Resolver} (hsees : f.Sees outer) (d : Declaration) (hr : r.scopes = f.arena before) :
    Settles (declaration f.scope d) r (d.demands f.name outer before)
      (fun r' => r'.scopes = f.arena (before ++ [d])) := by
  match d with
  | .variable name type => exact settles_declare hr (.variable name type)
  | .procedure name inner own =>
    rw [declaration]
    refine (settles_declare hr (.procedure name inner own)).bind fun r₁ hr₁ => ?_
    obtain ⟨r₂, henter, hr₂⟩ := enter_inner hr₁ name.name
    -- the procedure itself is no variable, so its block sees those before it
    have hsees' : (f.inner (before ++ [.procedure name inner own]) name.name).Sees
        (variableNames (before ++ [.procedure name inner own]) ++ outer) := hsees.inner name.name
    rw [variableNames_append, show variableNames [.procedure name inner own] = [] from rfl,
      List.append_nil] at hsees'
    exact .of_eq (bind_of_ok henter _)
      (settles_block_of hsees' (settles_declarations hsees' inner hr₂))

theorem settles_declarations {f : Frame} {outer : List String} {before : List Declaration}
    {r : Resolver} (hsees : f.Sees outer) (ds : List Declaration)
    (hr : r.scopes = f.arena before) :
    Settles (declarations f.scope ds) r (declarationDemands f.name outer before ds)
      (fun r' => r'.scopes = f.arena (before ++ ds)) := by
  match ds with
  | [] =>
    rw [List.append_nil]
    exact settles_pure hr
  | d :: ds =>
    rw [declarations, declarationDemands, List.append_cons before d ds]
    exact (settles_declaration hsees d hr).bind fun r' hr' => settles_declarations hsees ds hr'

end

/-! ## Programs -/

/-- A program is a block that nothing encloses, and its pass begins by forgetting. -/
theorem settles_program (p : Program) (r : Resolver) :
    Settles (program p) r p.demands (fun r' => r'.scopes = ∅) := by
  have hsees : (Frame.mk #[] p.name.name 1 none).Sees [] :=
    ⟨fun id hid => absurd hid (by simp), fun name => by simp⟩
  have hset : (set Resolver.fresh : Resolve PUnit) r = .ok ⟨⟩ Resolver.fresh := rfl
  obtain ⟨r', henter, hr'⟩ : ∃ r', enter p.name.name none Resolver.fresh =
      .ok (Frame.mk #[] p.name.name 1 none).scope r' ∧
        r'.scopes = (Frame.mk #[] p.name.name 1 none).arena [] := ⟨_, rfl, rfl⟩
  unfold program
  refine .of_eq (bind_of_ok hset _) (.of_eq (bind_of_ok henter _) ?_)
  exact settles_block_of hsees (settles_declarations hsees _ hr')

/-- How the pass ends, whatever the resolver has seen. -/
theorem failure?_program (p : Program) (r : Resolver) :
    failure? (program p r) = (firstUnmet? p.demands).map Demand.error := by
  have hsettles := settles_program p r
  unfold Settles at hsettles
  cases hfirst : firstUnmet? p.demands with
  | none =>
    rw [hfirst] at hsettles
    obtain ⟨r', hok, -⟩ := hsettles
    rw [hok]
    rfl
  | some d =>
    rw [hfirst] at hsettles
    obtain ⟨r', herror⟩ := hsettles
    rw [herror]
    rfl

theorem ok_of_wellScoped {p : Program} (h : p.WellScoped) (r : Resolver) :
    ∃ r', program p r = .ok () r' ∧ r'.scopes = ∅ := by
  have hsettles := settles_program p r
  unfold Settles at hsettles
  rwa [firstUnmet?_eq_none_iff.mpr (p.wellScoped_iff_demands.mp h)] at hsettles

theorem error_of_firstUnmet {p : Program} {d : Demand} (h : FirstUnmet p.demands d)
    (r : Resolver) : ∃ r', program p r = .error d.error r' := by
  have hsettles := settles_program p r
  unfold Settles at hsettles
  rwa [firstUnmet?_eq_some_iff.mpr h] at hsettles

/-- There is no third case. -/
theorem wellScoped_or_firstUnmet (p : Program) :
    p.WellScoped ∨ ∃ d, FirstUnmet p.demands d := by
  cases hfirst : firstUnmet? p.demands with
  | none => exact .inl (p.wellScoped_iff_demands.mpr (firstUnmet?_eq_none_iff.mp hfirst))
  | some d => exact .inr ⟨d, firstUnmet?_eq_some_iff.mp hfirst⟩

/-- Only a well-scoped program gets through. -/
theorem wellScoped_of_ok {p : Program} {r r' : Resolver} (h : program p r = .ok () r') :
    p.WellScoped := by
  refine (wellScoped_or_firstUnmet p).resolve_right ?_
  rintro ⟨d, hd⟩
  obtain ⟨_, herror⟩ := error_of_firstUnmet hd r
  rw [h] at herror
  cases herror

theorem exists_ok_iff {p : Program} (r : Resolver) :
    (∃ r', program p r = .ok () r') ↔ p.WellScoped := by
  constructor
  · rintro ⟨r', hok⟩
    exact wellScoped_of_ok hok
  · intro hscoped
    obtain ⟨r', hok, -⟩ := ok_of_wellScoped hscoped r
    exact ⟨r', hok⟩

/-- The pass fails at an unmet demand only. -/
theorem exists_of_error {p : Program} {r r' : Resolver} {e : Error ScopeFault}
    (h : program p r = .error e r') : ∃ d ∈ p.demands, ¬ d.Met ∧ d.error = e := by
  rcases wellScoped_or_firstUnmet p with hscoped | ⟨d, hd⟩
  · obtain ⟨_, hok, -⟩ := ok_of_wellScoped hscoped r
    rw [h] at hok
    cases hok
  · obtain ⟨_, herror⟩ := error_of_firstUnmet hd r
    rw [h] at herror
    cases herror
    obtain ⟨before, after, heq, -, hunmet⟩ := hd
    exact ⟨d, heq ▸ List.mem_append_right _ List.mem_cons_self, hunmet, rfl⟩

end Resolve

/-- **The static pass decides well-scopedness.** On a resolver with any past it succeeds
exactly on the programs that use their names rightly, and otherwise it fails with the
error of the first demand of the program that is not met. -/
theorem resolve_program_iff (p : Program) (r : Resolver) :
    ((∃ r', Resolve.program p r = .ok () r') ↔ p.WellScoped) ∧
      ∀ e, (∃ r', Resolve.program p r = .error e r') ↔
        ∃ d, FirstUnmet p.demands d ∧ d.error = e := by
  refine ⟨⟨?_, ?_⟩, fun e => ⟨?_, ?_⟩⟩
  · rintro ⟨r', hok⟩
    rcases Resolve.wellScoped_or_firstUnmet p with hscoped | ⟨d, hd⟩
    · exact hscoped
    · obtain ⟨_, herror⟩ := Resolve.error_of_firstUnmet hd r
      rw [hok] at herror
      cases herror
  · intro hscoped
    obtain ⟨r', hok, -⟩ := Resolve.ok_of_wellScoped hscoped r
    exact ⟨r', hok⟩
  · rintro ⟨r', herror⟩
    rcases Resolve.wellScoped_or_firstUnmet p with hscoped | ⟨d, hd⟩
    · obtain ⟨_, hok, -⟩ := Resolve.ok_of_wellScoped hscoped r
      rw [herror] at hok
      cases hok
    · obtain ⟨_, herror'⟩ := Resolve.error_of_firstUnmet hd r
      rw [herror] at herror'
      cases herror'
      exact ⟨d, hd, rfl⟩
  · rintro ⟨d, hd, rfl⟩
    exact Resolve.error_of_firstUnmet hd r

end MiniPascal
