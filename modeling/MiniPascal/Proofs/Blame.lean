/-
`Blame.lean` -- an error stands at the token that is to blame for it.

The static pass and the execution know nothing of tokens. What they report carries the
place of a node: of a declared name, of an occurrence, of an operator. All of these are
landmarks of the tree, so there is a token of the source with this place and of the kind
that the node says, and since places in a source increase it is the only token there
(`OnlyAt`).

A name that is declared twice is declared by two declarations of one block. The first of
them is a landmark further in front, hence an earlier token.
-/
import MiniPascal.Proofs.Assigning
import MiniPascal.Proofs.Landmarks
import MiniPascal.Proofs.Tokenization

set_option autoImplicit false

namespace MiniPascal

open Phrase

/-! ## Blocks -/

/-- The blocks of a program, each with the name that it belongs to: the program's own,
and those of the procedures that are declared in one of its blocks. -/
inductive Program.HasBlock (p : Program) : Identifier → List Declaration → List Statement → Prop
  | own : p.HasBlock p.name p.block.declarations p.block.body
  | procedure {owner ds body name inner own} :
      p.HasBlock owner ds body → .procedure name inner own ∈ ds → p.HasBlock name inner own

/-- Two declarations of a list, one behind the other, that both declare a variable or both
a procedure, and with the same name. -/
inductive Repeats : List Declaration → Identifier → Identifier → Prop
  | asVariables {before between after first second type type'} :
      first.name = second.name →
      Repeats (before ++ .variable first type :: (between ++ .variable second type' :: after))
        first second
  | asProcedures {before between after first second inner inner' own own'} :
      first.name = second.name →
      Repeats (before ++ .procedure first inner own ::
        (between ++ .procedure second inner' own' :: after)) first second

/-- A declared name is the first landmark of its declaration. -/
theorem Declaration.name_sublist_landmarks (d : Declaration) :
    [d.name.landmark].Sublist d.landmarks := by
  cases d with
  | «variable» name type => exact .refl _
  | procedure name inner own => exact .cons_cons _ (List.nil_sublist _)

theorem Program.HasBlock.sublist_landmarks {p : Program} {owner : Identifier}
    {ds : List Declaration} {body : List Statement} (h : p.HasBlock owner ds body) :
    (declarationLandmarks ds ++ bodyLandmarks body).Sublist p.landmarks := by
  induction h with
  | own => exact List.sublist_cons_self _ _
  | procedure _ hmem ih =>
    refine .trans ?_ (.trans (List.sublist_append_left _ _) ih)
    obtain ⟨before, after, rfl⟩ := List.append_of_mem hmem
    rw [declarationLandmarks_append, declarationLandmarks, Declaration.landmarks]
    refine .trans ?_ (List.sublist_append_right _ _)
    exact .trans (List.sublist_cons_self _ _) (List.sublist_append_left _ _)

/-- The names of two declarations are landmarks in their order. -/
theorem names_sublist_landmarks {before between after : List Declaration} (d d' : Declaration) :
    [d.name.landmark, d'.name.landmark].Sublist
      (declarationLandmarks (before ++ d :: (between ++ d' :: after))) := by
  rw [declarationLandmarks_append, declarationLandmarks, declarationLandmarks_append,
    declarationLandmarks]
  refine .trans ?_ (List.sublist_append_right _ _)
  refine List.Sublist.append d.name_sublist_landmarks ?_
  refine .trans ?_ (List.sublist_append_right _ _)
  exact .trans d'.name_sublist_landmarks (List.sublist_append_left _ _)

theorem Repeats.sublist_landmarks {ds : List Declaration} {first second : Identifier}
    (h : Repeats ds first second) :
    [first.landmark, second.landmark].Sublist (declarationLandmarks ds) := by
  cases h with
  | asVariables => exact names_sublist_landmarks (.variable first _) (.variable second _)
  | asProcedures => exact names_sublist_landmarks (.procedure first _ _) (.procedure second _ _)

/-! ## What the static pass blames -/

/-- The name that a demand is about. -/
def Demand.subject : Demand → Identifier
  | .fresh _ name _ => name
  | .known _ occurrence => occurrence

/-- A demand is made by a declaration or by the body of one of the blocks. -/
inductive Demand.MadeIn (p : Program) : Demand → Prop
  | declaration {owner body before d after} :
      p.HasBlock owner (before ++ d :: after) body →
      MadeIn p (.fresh (d.rivals before) d.name owner.name)
  | occurrence {owner ds body declared x} :
      p.HasBlock owner ds body → x ∈ bodyOccurrences body → MadeIn p (.known declared x)

theorem madeIn_of_bodyDemands {p : Program} {owner : Identifier} {ds : List Declaration}
    {body : List Statement} (hblock : p.HasBlock owner ds body) (declared : List String) :
    ∀ x ∈ bodyDemands declared body, x.MadeIn p := by
  intro x hx
  obtain ⟨occurrence, hmem, rfl⟩ := List.mem_map.mp hx
  exact .occurrence hblock hmem

mutual

theorem Declaration.madeIn {p : Program} {owner : Identifier} {body : List Statement}
    {outer : List String} {before after : List Declaration} (d : Declaration)
    (hblock : p.HasBlock owner (before ++ d :: after) body) :
    ∀ x ∈ d.demands owner.name outer before, x.MadeIn p := by
  match d with
  | .variable name type =>
    rw [Declaration.demands, List.forall_mem_singleton]
    exact .declaration hblock
  | .procedure name inner own =>
    have hinner : p.HasBlock name inner own :=
      .procedure hblock (List.mem_append_right _ List.mem_cons_self)
    rw [Declaration.demands, List.forall_mem_cons, List.forall_mem_append]
    exact ⟨.declaration hblock, madeIn_of_declarationDemands inner hinner,
      madeIn_of_bodyDemands hinner _⟩

theorem madeIn_of_declarationDemands {p : Program} {owner : Identifier} {body : List Statement}
    {outer : List String} {before : List Declaration} (ds : List Declaration)
    (hblock : p.HasBlock owner (before ++ ds) body) :
    ∀ x ∈ declarationDemands owner.name outer before ds, x.MadeIn p := by
  match ds with
  | [] => exact fun x hx => absurd hx List.not_mem_nil
  | d :: ds =>
    have hrest : p.HasBlock owner (before ++ [d] ++ ds) body := by rwa [List.append_assoc]
    rw [declarationDemands, List.forall_mem_append]
    exact ⟨d.madeIn hblock, madeIn_of_declarationDemands ds hrest⟩

end

theorem Program.madeIn_of_demands (p : Program) : ∀ x ∈ p.demands, x.MadeIn p := by
  unfold Program.demands blockDemands
  rw [List.forall_mem_append]
  exact ⟨madeIn_of_declarationDemands _ .own, madeIn_of_bodyDemands .own _⟩

/-! ## What an execution blames -/

theorem Expr.landmark_of_occurrence {e : Expr} {x : Identifier} (h : x ∈ e.occurrences) :
    x.landmark ∈ e.landmarks := by
  induction e with
  | literal => cases h
  | «variable» name =>
    obtain rfl := List.mem_singleton.mp h
    exact List.mem_singleton_self _
  | binary op left right position ihleft ihright =>
    rcases List.mem_append.mp h with h | h
    · exact List.mem_append_left _ (ihleft h)
    · exact List.mem_append_right _ (List.mem_cons_of_mem _ (ihright h))
  | unary op operand position ih => exact List.mem_cons_of_mem _ (ih h)

theorem Expr.landmark_of_operator {e : Expr} {which : Terminal} {position : Position}
    (h : (which, position) ∈ e.operators) : (.terminal which, position) ∈ e.landmarks := by
  induction e with
  | literal => cases h
  | «variable» => cases h
  | binary op left right q ihleft ihright =>
    rcases List.mem_append.mp h with h | h
    · exact List.mem_append_left _ (ihleft h)
    rcases List.mem_cons.mp h with heq | h
    · cases heq
      exact List.mem_append_right _ List.mem_cons_self
    · exact List.mem_append_right _ (List.mem_cons_of_mem _ (ihright h))
  | unary op operand q ih =>
    rcases List.mem_cons.mp h with heq | h
    · cases heq
      exact List.mem_cons_self
    · exact List.mem_cons_of_mem _ (ih h)

mutual

theorem Statement.landmarks_of_assignment {a : Assignment} (s : Statement)
    (h : a ∈ s.assignments) :
    a.target.landmark ∈ s.landmarks ∧ a.value.landmarks ⊆ s.landmarks := by
  match s with
  | .empty => cases h
  | .assign target value position =>
    obtain rfl := List.mem_singleton.mp h
    exact ⟨List.mem_cons_self, fun _ hx => List.mem_cons_of_mem _ (List.mem_cons_of_mem _ hx)⟩
  | .compound body => exact landmarks_of_bodyAssignments body h

theorem landmarks_of_bodyAssignments {a : Assignment} (body : List Statement)
    (h : a ∈ bodyAssignments body) :
    a.target.landmark ∈ bodyLandmarks body ∧ a.value.landmarks ⊆ bodyLandmarks body := by
  match body with
  | [] => cases h
  | first :: others =>
    rw [bodyLandmarks]
    rcases List.mem_append.mp h with h | h
    · obtain ⟨htarget, hvalue⟩ := first.landmarks_of_assignment h
      exact ⟨List.mem_append_left _ htarget, fun _ hx => List.mem_append_left _ (hvalue hx)⟩
    · obtain ⟨htarget, hvalue⟩ := landmarks_of_bodyAssignments others h
      exact ⟨List.mem_append_right _ htarget, fun _ hx => List.mem_append_right _ (hvalue hx)⟩

end

theorem landmark_of_bodyOccurrences {body : List Statement} {x : Identifier}
    (h : x ∈ bodyOccurrences body) : x.landmark ∈ bodyLandmarks body := by
  rw [bodyOccurrences_eq] at h
  obtain ⟨a, ha, hx⟩ := List.mem_flatMap.mp h
  obtain ⟨htarget, hvalue⟩ := landmarks_of_bodyAssignments body ha
  rcases List.mem_append.mp hx with hx | hx
  · exact hvalue (Expr.landmark_of_occurrence hx)
  · rwa [List.mem_singleton.mp hx]

theorem Demand.MadeIn.landmark {p : Program} {d : Demand} (h : d.MadeIn p) :
    d.subject.landmark ∈ p.landmarks := by
  cases h with
  | @declaration owner body before d after hblock =>
    refine hblock.sublist_landmarks.subset (List.mem_append_left _ ?_)
    rw [declarationLandmarks_append, declarationLandmarks]
    exact List.mem_append_right _
      (List.mem_append_left _ (d.name_sublist_landmarks.subset (List.mem_singleton_self _)))
  | occurrence hblock hmem =>
    exact hblock.sublist_landmarks.subset
      (List.mem_append_right _ (landmark_of_bodyOccurrences hmem))

/-- A demand for a fresh name is unmet because the block has declared it before. -/
theorem Demand.MadeIn.exists_repeats {p : Program} {taken : List String} {name : Identifier}
    {scope : String} (h : (Demand.fresh taken name scope).MadeIn p) (htaken : name.name ∈ taken) :
    ∃ owner ds body first, p.HasBlock owner ds body ∧ owner.name = scope ∧
      first.name = name.name ∧ Repeats ds first name := by
  cases h with
  | @declaration owner body before d after hblock =>
    cases d with
    | «variable» name type =>
      obtain ⟨d', hmem, hd'⟩ := List.mem_filterMap.mp htaken
      obtain ⟨front, between, rfl⟩ := List.append_of_mem hmem
      cases d' with
      | procedure => cases hd'
      | «variable» first type' =>
        have heq : first.name = name.name := Option.some.inj hd'
        rw [List.append_assoc] at hblock
        exact ⟨owner, _, body, first, hblock, rfl, heq, .asVariables heq⟩
    | procedure name inner own =>
      obtain ⟨d', hmem, hd'⟩ := List.mem_filterMap.mp htaken
      obtain ⟨front, between, rfl⟩ := List.append_of_mem hmem
      cases d' with
      | «variable» => cases hd'
      | procedure first inner' own' =>
        have heq : first.name = name.name := Option.some.inj hd'
        rw [List.append_assoc] at hblock
        exact ⟨owner, _, body, first, hblock, rfl, heq, .asProcedures heq⟩

/-! ## Tokens to blame -/

/-- The tokens that a fault of a program can be blamed on. -/
def Fault.Blames : Fault → Token → Prop
  | .scope (.duplicateDeclaration name _), t => t.Names name ∧ t.lexeme = name
  | .scope (.undeclaredIdentifier name), t => t.Names name ∧ t.lexeme = name
  | .runtime (.unassignedVariable name), t => t.Names name ∧ t.lexeme = name
  | .runtime .divisionByZero, t => t.Is .div ∨ t.Is .slash
  | .runtime .overflow, t => t.Is .plus ∨ t.Is .minus ∨ t.Is .times ∨ t.Is .div
  | .lexical _, _ => False
  | .grammatical _, _ => False

/-- Behind the tokens `before` of the source comes the token `t`, and neither another
token nor the end of the input stands at its place. -/
def OnlyAt (source : String) (before : List Token) (t : Token) : Prop :=
  ∃ after eof, (TokenStream.ofSource source).drain = (before ++ t :: after).map .ok ++ [.ok eof] ∧
    eof.kind = .endOfInput ∧ ∀ u ∈ before ++ after ++ [eof], u.position ≠ t.position

theorem OnlyAt.of_scans {source : String} {before after : List Token} {t : Token}
    (h : Scans source (before ++ t :: after)) : OnlyAt source before t := by
  obtain ⟨eof, hdrain, heof⟩ := h
  refine ⟨after, eof, hdrain, heof, ?_⟩
  have hordered := (TokenStream.tokenizes_drain source).pairwise
  have hplaces : ((before ++ t :: after).map .ok ++ [.ok eof] : List Answer).map Answer.place =
      before.map Token.position ++ t.position :: (after ++ [eof]).map Token.position := by
    simp only [List.map_append, List.map_cons, List.map_nil, List.map_map, List.append_assoc,
      List.cons_append]
    rfl
  rw [hdrain, hplaces] at hordered
  obtain ⟨-, hrest, hcross⟩ := List.pairwise_append.mp hordered
  obtain ⟨hafter, -⟩ := List.pairwise_cons.mp hrest
  rw [List.append_assoc, List.forall_mem_append]
  constructor
  · intro u hu
    exact (hcross _ (List.mem_map_of_mem hu) _ List.mem_cons_self).ne
  · intro u hu
    exact (hafter _ (List.mem_map_of_mem hu)).ne.symm

section Sources

variable {source : String} {tree : Program}

/-- The token of a landmark. -/
theorem exists_token_of_landmark (hparse : parse source = .ok tree) {mark : Landmark}
    (h : mark ∈ tree.landmarks) : ∃ before t, OnlyAt source before t ∧ t.landmark = mark := by
  obtain ⟨ts, n, hscans, hphrase, -⟩ := exists_of_parse hparse
  obtain ⟨t, ht, hmark⟩ := List.mem_map.mp ((shows_of_isProgram hphrase).sublist.subset h)
  obtain ⟨before, after, rfl⟩ := List.append_of_mem ht
  exact ⟨before, t, .of_scans hscans, hmark⟩

/-- The tokens of two landmarks, one behind the other. -/
theorem exists_tokens_of_landmarks (hparse : parse source = .ok tree) {mark mark' : Landmark}
    (h : [mark, mark'].Sublist tree.landmarks) :
    ∃ before u t, OnlyAt source before t ∧ t.landmark = mark' ∧ u ∈ before ∧
      u.landmark = mark := by
  obtain ⟨ts, n, hscans, hphrase, -⟩ := exists_of_parse hparse
  obtain ⟨us, hsublist, hmarks⟩ :=
    List.sublist_map_iff.mp (h.trans (shows_of_isProgram hphrase).sublist)
  match us, hmarks with
  | [u, t], hmarks =>
    obtain ⟨hu, hmarks⟩ := List.cons.inj hmarks
    obtain ⟨ht, -⟩ := List.cons.inj hmarks
    obtain ⟨front, back, rfl, hfront, hback⟩ := List.cons_sublist_iff.mp hsublist
    obtain ⟨between, after, rfl⟩ := List.append_of_mem (List.singleton_sublist.mp hback)
    rw [← List.append_assoc] at hscans
    exact ⟨front ++ between, u, t, .of_scans hscans, ht.symm, List.mem_append_left _ hfront,
      hu.symm⟩

/-- A token with the landmark of a name is that name. -/
theorem names_of_landmark {before : List Token} {t : Token} {x : Identifier}
    (h : OnlyAt source before t) {u : Token} (hu : u ∈ before ∨ u = t)
    (hmark : u.landmark = x.landmark) :
    u.position = x.position ∧ u.Names x.name ∧ u.lexeme = x.name := by
  obtain ⟨after, eof, hdrain, -, -⟩ := h
  obtain ⟨hkind, hposition⟩ := Prod.mk.inj hmark
  have hmem : .ok u ∈ (TokenStream.ofSource source).drain := by
    rw [hdrain]
    refine List.mem_append_left _ (List.mem_map_of_mem ?_)
    rcases hu with hu | rfl
    · exact List.mem_append_left _ hu
    · exact List.mem_append_right _ List.mem_cons_self
  exact ⟨hposition, hkind, (TokenStream.tokenizes_drain source).lexeme_eq hmem hkind⟩

/-- A name that a program shows is a token of its source. -/
theorem exists_token_of_name (hparse : parse source = .ok tree) {x : Identifier}
    (h : x.landmark ∈ tree.landmarks) :
    ∃ before t, OnlyAt source before t ∧ t.position = x.position ∧ t.Names x.name ∧
      t.lexeme = x.name := by
  obtain ⟨before, t, honly, hmark⟩ := exists_token_of_landmark hparse h
  exact ⟨before, t, honly, names_of_landmark honly (.inr rfl) hmark⟩

end Sources

/-! ## Runs that fail -/

/-- A run that fails has failed in one of the stages. -/
theorem exists_of_run_error {source : String} {e : Error Fault} (h : run source = .error e) :
    parse source = .error e ∨ ∃ tree, parse source = .ok tree ∧
      ((∃ e' r, Resolve.program tree .fresh = .error e' r ∧ e = e'.map .scope) ∨
        ∃ e' m, Execute.program tree .fresh = .error e' m ∧ e = e'.map .runtime) := by
  rw [run, Traced.run, Traced.result_bind, Traced.check, Traced.result_bind] at h
  cases hparse : parse source with
  | error e' =>
    rw [show (Traced.parse source).result = .error e' from hparse] at h
    cases h
    exact .inl rfl
  | ok tree =>
    refine .inr ⟨tree, rfl, ?_⟩
    rw [show (Traced.parse source).result = .ok tree from hparse] at h
    dsimp only at h
    rw [Traced.result_bind, Traced.resolve] at h
    cases hresolve : Resolve.program tree .fresh with
    | error e' r =>
      rw [hresolve] at h
      cases h
      exact .inl ⟨e', r, rfl, rfl⟩
    | ok u r =>
      rw [hresolve] at h
      change (Traced.execute tree).result = .error e at h
      rw [Traced.execute] at h
      cases hexecute : Execute.program tree .fresh with
      | ok u m =>
        rw [hexecute] at h
        cases h
      | error e' m =>
        rw [hexecute] at h
        cases h
        exact .inr ⟨e', m, rfl, rfl⟩

/-- The fault of a program, not of its text. -/
def Fault.OfProgram (fault : Fault) : Prop :=
  (∃ f, fault = .scope f) ∨ ∃ f, fault = .runtime f

theorem not_ofProgram_of_parse {source : String} {e : Error Fault} (h : parse source = .error e) :
    ¬ e.fault.OfProgram := by
  obtain ⟨⟨fault, position⟩, rfl, -⟩ := exists_of_parse_error h
  rintro (⟨f, hf⟩ | ⟨f, hf⟩)
  · cases fault <;> cases hf
  · cases fault <;> cases hf

/-- What an execution reports stands at a landmark that can be blamed. -/
theorem exists_blamed_of_execute {tree : Program} {m m' : Machine} {e : Error RuntimeFault}
    (h : Execute.program tree m = .error e m') :
    (∃ x : Identifier, x.landmark ∈ tree.landmarks ∧
        e = ⟨.unassignedVariable x.name, x.position⟩) ∨
      ∃ which, (.terminal which, e.position) ∈ tree.landmarks ∧ which ∈ e.fault.operators := by
  have hstep : ∀ a ∈ bodyAssignments tree.block.body, ∀ (m : Machine) (value : Number), True →
      a.value.value m.store = .ok value → True := fun _ _ _ _ _ _ => trivial
  have hrun := Execute.assignAll_invariant (I := fun _ => True) hstep (m := m) trivial
  rw [← Execute.program_eq, h] at hrun
  obtain ⟨-, a, ha, hvalue⟩ := hrun
  have hsubset : a.value.landmarks ⊆ tree.landmarks := fun mark hmark =>
    Program.HasBlock.own.sublist_landmarks.subset
      (List.mem_append_right _ ((landmarks_of_bodyAssignments _ ha).2 hmark))
  rcases Expr.exists_of_value_error hvalue with ⟨x, hx, -, rfl⟩ | ⟨which, hmem, hwhich⟩
  · exact .inl ⟨x, hsubset (Expr.landmark_of_occurrence hx), rfl⟩
  · exact .inr ⟨which, hsubset (Expr.landmark_of_operator hmem), hwhich⟩

theorem blames_of_operator {fault : RuntimeFault} {which : Terminal} {t : Token}
    (h : which ∈ fault.operators) (ht : t.Is which) : (Fault.runtime fault).Blames t := by
  cases fault with
  | unassignedVariable => cases h
  | divisionByZero =>
    simp only [RuntimeFault.operators, List.mem_cons, List.not_mem_nil, or_false] at h
    rcases h with rfl | rfl
    · exact .inl ht
    · exact .inr ht
  | overflow =>
    simp only [RuntimeFault.operators, List.mem_cons, List.not_mem_nil, or_false] at h
    rcases h with rfl | rfl | rfl | rfl
    · exact .inl ht
    · exact .inr (.inl ht)
    · exact .inr (.inr (.inl ht))
    · exact .inr (.inr (.inr ht))

/-- **An error stands at its token.** When a run fails in the static pass or in the
execution, exactly one token of the source stands at the place of the error, and it is one
that the fault can be blamed on: the name itself, or an operator that can fail in this
way. A name that is declared twice is also the name of an earlier token, which declares it
first, as the same sort of thing and in the same block, and the error names the owner of
that block. -/
theorem run_error_at_token {source : String} {e : Error Fault} (h : run source = .error e)
    (hprogram : e.fault.OfProgram) :
    ∃ before t, OnlyAt source before t ∧ t.position = e.position ∧ e.fault.Blames t ∧
      ∀ name scope, e.fault = .scope (.duplicateDeclaration name scope) →
        ∃ u ∈ before, u.Names name ∧ u.lexeme = name ∧
          ∃ tree owner ds body, parse source = .ok tree ∧ tree.HasBlock owner ds body ∧
            owner.name = scope ∧ Repeats ds ⟨name, u.position⟩ ⟨name, t.position⟩ := by
  rcases exists_of_run_error h with
    hparse | ⟨tree, hparse, ⟨e, r, hresolve, rfl⟩ | ⟨e, m, hexecute, rfl⟩⟩
  · exact absurd hprogram (not_ofProgram_of_parse hparse)
  · obtain ⟨d, hd, hunmet, rfl⟩ := Resolve.exists_of_error hresolve
    have hmade := tree.madeIn_of_demands d hd
    cases d with
    | known declared x =>
      obtain ⟨before, t, honly, hposition, hname⟩ := exists_token_of_name hparse hmade.landmark
      exact ⟨before, t, honly, hposition, hname, nofun⟩
    | fresh taken name scope =>
      obtain ⟨owner, ds, body, first, hblock, howner, heq, hrepeats⟩ :=
        hmade.exists_repeats (Decidable.not_not.mp hunmet)
      have hmarks := hrepeats.sublist_landmarks.trans
        (.trans (List.sublist_append_left _ _) hblock.sublist_landmarks)
      obtain ⟨before, u, t, honly, ht, hu, humark⟩ := exists_tokens_of_landmarks hparse hmarks
      obtain ⟨hposition, hname⟩ := names_of_landmark honly (.inr rfl) ht
      obtain ⟨hposition', hname', hlexeme'⟩ := names_of_landmark honly (.inl hu) humark
      refine ⟨before, t, honly, hposition, hname, ?_⟩
      rintro _ _ ⟨⟩
      obtain ⟨name, place⟩ := name
      obtain ⟨_, place'⟩ := first
      obtain rfl := heq
      subst hposition hposition'
      exact ⟨u, hu, hname', hlexeme', tree, owner, ds, body, hparse, hblock, howner, hrepeats⟩
  · rcases exists_blamed_of_execute hexecute with ⟨x, hx, rfl⟩ | ⟨which, hmark, hwhich⟩
    · obtain ⟨before, t, honly, hposition, hname⟩ := exists_token_of_name hparse hx
      exact ⟨before, t, honly, hposition, hname, nofun⟩
    · obtain ⟨before, t, honly, hmark⟩ := exists_token_of_landmark hparse hmark
      obtain ⟨hkind, hposition⟩ := Prod.mk.inj hmark
      exact ⟨before, t, honly, hposition, blames_of_operator hwhich hkind, nofun⟩

/-- The fault of the static pass that a run ends with. -/
def scopeFault? : Except (Error Fault) Store → Option ScopeFault
  | .error ⟨.scope fault, _⟩ => some fault
  | _ => none

/-- A source with a procedure that declares `b` twice. -/
def repeatingSource : String :=
  "PROGRAM p; VAR a, b : REAL; PROCEDURE q; VAR b, a, b : REAL; BEGIN END; BEGIN END."

/-- The second `b` of the procedure is to blame. -/
theorem run_error_at_token_repeating :
    ∃ e before t, run repeatingSource = .error e ∧
      e.fault = .scope (.duplicateDeclaration "b" "q") ∧ OnlyAt repeatingSource before t ∧
      t.position = e.position ∧ t.lexeme = "b" ∧ ∃ u ∈ before, u.lexeme = "b" := by
  have hfault : scopeFault? (run repeatingSource) = some (.duplicateDeclaration "b" "q") := by
    decide +kernel
  obtain ⟨e, hrun, he⟩ : ∃ e, run repeatingSource = .error e ∧
      e.fault = .scope (.duplicateDeclaration "b" "q") := by
    unfold scopeFault? at hfault
    split at hfault
    · next fault position hrun => exact ⟨_, hrun, congrArg Fault.scope (Option.some.inj hfault)⟩
    · cases hfault
  obtain ⟨before, t, honly, hposition, hblames, hearlier⟩ := run_error_at_token hrun (.inl ⟨_, he⟩)
  rw [he] at hblames
  obtain ⟨u, hu, -, hlexeme, -⟩ := hearlier "b" "q" he
  exact ⟨e, before, t, hrun, he, honly, hposition, hblames.2, u, hu, hlexeme⟩

end MiniPascal
