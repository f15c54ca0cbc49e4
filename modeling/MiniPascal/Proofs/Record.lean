/-
`Record.lean` -- the record of the static pass.

The pass does at each moment of a program one of four things, with the scope that its place
calls for: it opens a scope, declares a symbol, resolves a variable or closes a scope
(`Moment.act`). So it is a list of these, one after another (`Resolve.program_eq`). What one
of them does is known when the scopes that are open are those of the blocks around it: it
logs the event of the moment, or it fails and changes nothing (`Moment.act_of_ok`,
`Moment.act_of_error`). Since each moment is made where the one before it has led, the whole
pass is known from the moments alone (`Leads.actAll`).

What a maintainer reads off the record follows from there (`Logged`): which events there
are and in which order, that they nest, what a closed scope lists, and which scopes are left
open by a pass that fails. What is printed of it are the texts of the moments that have been
made (`static_pass_logged`).
-/
import MiniPascal.Proofs.Printing
import MiniPascal.Proofs.Resolution

set_option autoImplicit false

namespace MiniPascal

/-! ## The arena of some blocks -/

@[simp] theorem size_arenaOf (blocks : List OpenBlock) :
    (arenaOf blocks).tables.size = blocks.length := by
  induction blocks with
  | nil => rfl
  | cons b outer ih => rw [arenaOf, Array.size_push, ih, List.length_cons]

theorem table_arenaOf (b : OpenBlock) (outer : List OpenBlock) :
    (arenaOf (b :: outer)).table ⟨outer.length⟩ = b.table outer := by
  rw [← size_arenaOf outer]
  exact Arena.table_push_self _ _

/-- The scope of a block that is entered gets the next index, and is one level deeper. -/
theorem push_arenaOf (name : String) (outer : List OpenBlock) :
    (arenaOf outer).push name (innermost? outer) =
      (⟨outer.length⟩, arenaOf (⟨name, []⟩ :: outer)) := by
  have hlevel : ((innermost? outer).map fun id => ((arenaOf outer).table id).level + 1).getD 1 =
      outer.length + 1 := by
    cases outer with
    | nil => rfl
    | cons b outer =>
      rw [innermost?, Option.map_some, Option.getD_some, table_arenaOf, (b.table_frame outer).2.1,
        List.length_cons]
  rw [Arena.push, hlevel, Arena.size, size_arenaOf]
  rfl

theorem enter_arenaOf (name : String) {outer : List OpenBlock} {r : Resolver}
    (hr : r.scopes = arenaOf outer) :
    Resolve.enter name (innermost? outer) r = .ok ⟨outer.length⟩
      ⟨arenaOf (⟨name, []⟩ :: outer), r.record.push (.entered name (outer.length + 1))⟩ := by
  rw [Resolve.enter, hr, push_arenaOf]
  dsimp only
  rw [table_arenaOf, (OpenBlock.table_frame _ outer).2.1]
  rfl

theorem pop_arenaOf (b : OpenBlock) (outer : List OpenBlock) :
    (arenaOf (b :: outer)).pop = (some (b.table outer), arenaOf outer) := by
  rw [Arena.pop, arenaOf, Array.back?_push, Array.pop_push]

/-- Only a name that is new in the innermost block can be declared there. -/
theorem insert?_arenaOf (b : OpenBlock) (outer : List OpenBlock) (d : Declaration) :
    (arenaOf (b :: outer)).insert? ⟨outer.length⟩ d.symbol =
      if d.name.name ∈ d.rivals b.declared then none
      else some (arenaOf (⟨b.name, b.declared ++ [d]⟩ :: outer)) := by
  rw [← size_arenaOf outer]
  exact Frame.insert?_arena
    (f := ⟨(arenaOf outer).tables, b.name, outer.length + 1, innermost? outer⟩) d

/-- A variable means what the innermost block says that declares it. -/
theorem lookup_arenaOf (b : OpenBlock) {outer : List OpenBlock} (h : AllDistinct (b :: outer))
    (name : String) :
    (arenaOf (b :: outer)).lookup ⟨outer.length⟩ name = variableIn (b :: outer) name := by
  have hown : ∀ {b : OpenBlock} {outer : List OpenBlock}, AllDistinct (b :: outer) →
      (b.table outer).findVariable name =
        b.declared.findSome? (Declaration.variableAs? name) := fun h =>
    Table.findVariable_opened _ _ _ (allDistinct_cons_iff.mp h).1 name
  induction outer generalizing b with
  | nil =>
    rw [Arena.lookup_eq, Arena.outward, table_arenaOf, hown h, (b.table_frame []).2.2,
      variableIn_cons]
    rfl
  | cons b' outer ih =>
    have hlt : outer.length < (b' :: outer).length := Nat.lt_succ_self outer.length
    -- a scope further out does not see the innermost one
    have houter : (arenaOf (b :: b' :: outer)).lookup ⟨outer.length⟩ name =
        (arenaOf (b' :: outer)).lookup ⟨outer.length⟩ name := by
      refine Arena.lookup_push_of_lt ?_ name
      rw [size_arenaOf]
      exact hlt
    rw [Arena.lookup_eq, Arena.outward, table_arenaOf, hown h, (b.table_frame (b' :: outer)).2.2,
      innermost?, Option.bind_some, houter, ih b' (allDistinct_cons_iff.mp h).2, variableIn_cons b]
    exact congrArg _ (if_pos hlt)

theorem table_arenaOf_of_lt (b : OpenBlock) {outer : List OpenBlock} {id : ScopeId}
    (h : id.index < outer.length) : (arenaOf (b :: outer)).table id = (arenaOf outer).table id :=
  Arena.table_push_of_lt (by rwa [size_arenaOf])

/-- The scopes of blocks are nested as the blocks are. -/
theorem nested_arenaOf (blocks : List OpenBlock) : (arenaOf blocks).Nested := by
  induction blocks with
  | nil => exact Arena.nested_empty
  | cons b outer ih =>
    have hopened : (arenaOf (⟨b.name, []⟩ :: outer)).Nested := by
      have hpush := congrArg Prod.snd (push_arenaOf b.name outer)
      dsimp only at hpush
      rw [← hpush]
      refine ih.push b.name fun scope hscope => ?_
      cases outer with
      | nil => cases hscope
      | cons b' outer =>
        cases hscope
        exact Arena.isOpen_iff.mpr (by simp)
    -- its declarations do not move the table of the innermost block
    refine hopened.of_tables (fun id hid => ?_) fun id hid => ?_
    · rw [Arena.isOpen_iff, size_arenaOf] at hid ⊢
      exact hid
    · rw [Arena.isOpen_iff, size_arenaOf, List.length_cons] at hid
      rcases Nat.lt_succ_iff_lt_or_eq.mp hid with hlt | heq
      · rw [table_arenaOf_of_lt b hlt, table_arenaOf_of_lt ⟨b.name, []⟩ hlt]
        exact ⟨rfl, rfl⟩
      · obtain rfl : id = ⟨outer.length⟩ := congrArg ScopeId.mk heq
        rw [table_arenaOf, table_arenaOf]
        exact (b.table_frame outer).2

/-- The search for a variable goes outward through the scopes of the blocks, and finds it
in the innermost that declares it. -/
theorem search_arenaOf (b : OpenBlock) {outer : List OpenBlock} (h : AllDistinct (b :: outer))
    (name : String) : (arenaOf (b :: outer)).Search name ⟨outer.length⟩
      (variableIn (b :: outer) name) := by
  rw [← lookup_arenaOf b h name]
  exact (nested_arenaOf _).search_lookup (Arena.isOpen_iff.mpr (by simp)) name

/-! ## One moment -/

namespace Moment

/-- The part of the pass that is done at a moment. -/
def act : Moment → Resolve Unit
  | ⟨b, outer, .enter⟩ => do let _ ← Resolve.enter b.name (innermost? outer)
  | ⟨_, outer, .declare d⟩ => Resolve.declare ⟨outer.length⟩ d.symbol d.name.position
  | ⟨_, outer, .resolve x⟩ => Resolve.identifier ⟨outer.length⟩ x
  | ⟨_, _, .leave⟩ => Resolve.leave

variable {m : Moment} {r r' : Resolver}

/-- The step lemma, where the check succeeds. -/
theorem act_of_ok {event : ScopeEvent} (h : m.outcome = .ok event) (hm : AllDistinct m.start)
    (hr : r.scopes = arenaOf m.start) :
    m.act r = .ok () ⟨arenaOf m.next, r.record.push event⟩ := by
  obtain ⟨scopes, record⟩ := r
  obtain rfl : scopes = arenaOf m.start := hr
  obtain ⟨b, outer, step⟩ := m
  cases step with
  | enter =>
    cases h
    rw [act, start, bind_of_ok (enter_arenaOf b.name rfl)]
    rfl
  | declare d =>
    rw [outcome] at h
    split at h
    · cases h
    · next hfree =>
      cases h
      rw [act, start, Resolve.declare, insert?_arenaOf, if_neg hfree, table_arenaOf,
        (b.table_frame outer).1]
      rfl
  | resolve x =>
    rw [outcome] at h
    split at h
    · next symbol hsymbol =>
      cases h
      rw [act, start, Resolve.identifier, lookup_arenaOf b hm, hsymbol]
      rfl
    · cases h
  | leave =>
    cases h
    rw [act, start, Resolve.leave, pop_arenaOf]
    rfl

/-- The step lemma, where the check fails. -/
theorem act_of_error {e : Error ScopeFault} (h : m.outcome = .error e) (hm : AllDistinct m.start)
    (hr : r.scopes = arenaOf m.start) : m.act r = .error e r := by
  obtain ⟨scopes, record⟩ := r
  obtain rfl : scopes = arenaOf m.start := hr
  obtain ⟨b, outer, step⟩ := m
  cases step with
  | enter => cases h
  | declare d =>
    rw [outcome] at h
    split at h
    · next htaken =>
      cases h
      rw [act, start, Resolve.declare, insert?_arenaOf, if_pos htaken, table_arenaOf,
        (b.table_frame outer).1]
      cases d <;> rfl
    · cases h
  | resolve x =>
    rw [outcome] at h
    split at h
    · cases h
    · next hnone =>
      cases h
      rw [act, start, Resolve.identifier, lookup_arenaOf b hm, hnone]
  | leave => cases h

/-- To the arena a moment does what its operation says. -/
theorem scopes_act (m : Moment) (r : Resolver) :
    (stateAfter (m.act r)).scopes = m.operation.apply r.scopes := by
  obtain ⟨b, outer, step⟩ := m
  cases step with
  | enter => rfl
  | declare d =>
    rw [act, Resolve.declare, operation, Arena.Operation.apply]
    cases r.scopes.insert? ⟨outer.length⟩ d.symbol <;> rfl
  | resolve x =>
    rw [act, Resolve.identifier, operation, Arena.Operation.apply]
    cases r.scopes.lookup ⟨outer.length⟩ x.name <;> rfl
  | leave =>
    rw [act, Resolve.leave, operation, Arena.Operation.apply]
    cases hpop : r.scopes.pop with
    | mk table scopes => cases table <;> rfl

/-- Where its check succeeds, that is what it leads to. -/
theorem apply_of_ok {event : ScopeEvent} (h : m.outcome = .ok event) :
    m.operation.apply (arenaOf m.start) = arenaOf m.next := by
  obtain ⟨b, outer, step⟩ := m
  cases step with
  | enter => exact congrArg Prod.snd (push_arenaOf b.name outer)
  | declare d =>
    rw [outcome] at h
    split at h
    · cases h
    · next hfree =>
      rw [operation, start, Arena.Operation.apply, insert?_arenaOf, if_neg hfree]
      rfl
  | resolve x => rfl
  | leave => exact congrArg Prod.snd (pop_arenaOf b outer)

theorem apply_of_error {e : Error ScopeFault} (h : m.outcome = .error e) :
    m.operation.apply (arenaOf m.start) = arenaOf m.start := by
  obtain ⟨b, outer, step⟩ := m
  cases step with
  | enter => cases h
  | declare d =>
    rw [outcome] at h
    split at h
    · next htaken =>
      rw [operation, start, Arena.Operation.apply, insert?_arenaOf, if_pos htaken]
      rfl
    · cases h
  | resolve x => rfl
  | leave => cases h

/-- The scopes that it names are open. -/
theorem isOpen_of_mem_scopes (m : Moment) {id : ScopeId} (hid : id ∈ m.operation.scopes) :
    (arenaOf m.start).isOpen id = true := by
  obtain ⟨b, outer, step⟩ := m
  cases step with
  | enter =>
    cases outer with
    | nil => cases hid
    | cons b' outer =>
      obtain rfl : id = ⟨outer.length⟩ := List.mem_singleton.mp hid
      rw [Arena.isOpen_iff, start, size_arenaOf]
      exact Nat.lt_succ_self _
  | declare d =>
    obtain rfl : id = ⟨outer.length⟩ := List.mem_singleton.mp hid
    rw [Arena.isOpen_iff, start, size_arenaOf]
    exact Nat.lt_succ_self _
  | resolve x =>
    obtain rfl : id = ⟨outer.length⟩ := List.mem_singleton.mp hid
    rw [Arena.isOpen_iff, start, size_arenaOf]
    exact Nat.lt_succ_self _
  | leave => cases hid

end Moment

/-! ## All moments -/

namespace Resolve

/-- The parts of the pass that are done at some moments, one after another. -/
def actAll : List Moment → Resolve Unit
  | [] => return
  | m :: ms => do
    m.act
    actAll ms

theorem actAll_append (ms ns : List Moment) :
    actAll (ms ++ ns) = (do actAll ms; actAll ns) := by
  induction ms with
  | nil => rfl
  | cons m ms ih =>
    funext r
    rw [List.cons_append, actAll, actAll, ih]
    -- both sides begin with the same moment, and it decides whether they go on
    simp only [bind_apply]
    cases m.act r <;> rfl

theorem actAll_singleton (m : Moment) : actAll [m] = m.act := by
  funext r
  rw [actAll, bind_apply]
  cases m.act r <;> rfl

end Resolve

/-- The run lemma: the moments before the first whose check fails log their events, and
that one ends the pass where it is made. -/
theorem Leads.actAll {s t : List OpenBlock} {ms : List Moment} (h : Leads s ms t)
    (hs : AllDistinct s) {r : Resolver} (hr : r.scopes = arenaOf s) :
    ∃ (made pending : List Moment) (events : List ScopeEvent), ms = made ++ pending ∧
      made.map Moment.outcome = events.map .ok ∧
      match pending with
      | [] => Resolve.actAll ms r = .ok () ⟨arenaOf t, r.record ++ events.toArray⟩
      | m :: _ => ∃ e, m.outcome = .error e ∧
          Resolve.actAll ms r = .error e ⟨arenaOf m.start, r.record ++ events.toArray⟩ := by
  induction h generalizing r with
  | nil s =>
    refine ⟨[], [], [], rfl, rfl, ?_⟩
    rw [← hr, Array.append_empty]
    rfl
  | @cons m ms t hrest ih =>
    rw [Resolve.actAll]
    cases hm : m.outcome with
    | error e =>
      refine ⟨[], m :: ms, [], rfl, rfl, e, hm, ?_⟩
      rw [bind_of_error (m.act_of_error hm hs hr), ← hr, Array.append_empty]
    | ok event =>
      obtain ⟨made, pending, events, rfl, hevents, hrun⟩ :=
        ih (Moment.allDistinct_next hm hs) (r := ⟨arenaOf m.next, r.record.push event⟩) rfl
      have hrecord : r.record.push event ++ events.toArray =
          r.record ++ (event :: events).toArray := by simp
      refine ⟨m :: made, pending, event :: events, rfl, ?_, ?_⟩
      · rw [List.map_cons, hm, hevents, List.map_cons]
      · rw [bind_of_ok (m.act_of_ok hm hs hr)]
        rwa [hrecord] at hrun

/-- What is open after moments that all succeed. -/
theorem Leads.of_actAll_ok {s t : List OpenBlock} {ms : List Moment} (h : Leads s ms t)
    (hs : AllDistinct s) {r r' : Resolver} (hr : r.scopes = arenaOf s)
    (hok : Resolve.actAll ms r = .ok () r') : r'.scopes = arenaOf t ∧ AllDistinct t := by
  obtain ⟨made, pending, events, rfl, hevents, hrun⟩ := h.actAll hs hr
  cases pending with
  | nil =>
    rw [hok] at hrun
    cases hrun
    rw [List.append_nil] at h
    exact ⟨rfl, (h.allDistinct hevents hs).2⟩
  | cons m rest =>
    obtain ⟨e, -, herror⟩ := hrun
    rw [hok] at herror
    cases herror

/-! ## The pass as a list of moments -/

namespace Resolve

theorem expr_eq (b : OpenBlock) (outer : List OpenBlock) (e : Expr) :
    expr ⟨outer.length⟩ e = actAll (e.occurrences.map fun x => ⟨b, outer, .resolve x⟩) := by
  induction e with
  | literal value position => rfl
  | «variable» name => exact (actAll_singleton ⟨b, outer, .resolve name⟩).symm
  | binary op left right position ihleft ihright =>
    rw [expr, Expr.occurrences, List.map_append, actAll_append, ihleft, ihright]
  | unary op operand position ih => exact ih

mutual

theorem statement_eq (b : OpenBlock) (outer : List OpenBlock) (s : Statement) :
    statement ⟨outer.length⟩ s = actAll (s.occurrences.map fun x => ⟨b, outer, .resolve x⟩) := by
  match s with
  | .empty => rfl
  | .assign target value position =>
    rw [statement, Statement.occurrences, List.map_append, actAll_append, expr_eq b outer value,
      List.map_singleton, actAll_singleton]
    rfl
  | .compound body => exact statements_eq b outer body

/-- A body is resolved name by name. -/
theorem statements_eq (b : OpenBlock) (outer : List OpenBlock) (body : List Statement) :
    statements ⟨outer.length⟩ body = actAll (bodyMoments b outer body) := by
  match body with
  | [] => rfl
  | first :: others =>
    rw [statements, bodyMoments, bodyOccurrences, List.map_append, actAll_append,
      statement_eq b outer first, statements_eq b outer others]
    rfl

end

/-- A block is its moments, if its declarations are. -/
theorem block_eq_of {outer : List OpenBlock} {name : String} {ds : List Declaration}
    (hds : ∀ r : Resolver, r.scopes = arenaOf (⟨name, []⟩ :: outer) →
      declarations ⟨outer.length⟩ ds r = actAll (declarationMoments outer name [] ds) r)
    (body : List Statement) {r : Resolver} (hr : r.scopes = arenaOf outer)
    (houter : AllDistinct outer) :
    (do
      let own ← enter name (innermost? outer)
      declarations own ds
      statements own body
      leave : Resolve Unit) r = actAll (blockMoments outer name ds body) r := by
  have henter := enter_arenaOf name hr
  have hact : Moment.act ⟨⟨name, []⟩, outer, .enter⟩ r = .ok () _ :=
    Moment.act_of_ok rfl houter hr
  rw [bind_of_ok henter, blockMoments, actAll, bind_of_ok hact, List.append_assoc,
    actAll_append, actAll_append, actAll_singleton]
  refine bind_congr_at (hds _ rfl) fun _ r' _ => ?_
  rw [statements_eq ⟨name, ds⟩ outer body]
  rfl

mutual

theorem declaration_eq {outer : List OpenBlock} {scope : String} {before : List Declaration}
    (d : Declaration) {r : Resolver} (hr : r.scopes = arenaOf (⟨scope, before⟩ :: outer))
    (hdistinct : AllDistinct (⟨scope, before⟩ :: outer)) :
    declaration ⟨outer.length⟩ d r = actAll (d.moments outer scope before) r := by
  match d with
  | .variable name type =>
    rw [Declaration.moments, actAll_singleton]
    rfl
  | .procedure name inner own =>
    refine bind_congr_at rfl fun _ r' hr' => ?_
    -- the procedure itself has been declared when its block is entered
    obtain ⟨hscopes, haround⟩ :=
      (Leads.cons ⟨⟨scope, before⟩, outer, .declare (.procedure name inner own)⟩
        (.nil _)).of_actAll_ok hdistinct hr ((congrFun (actAll_singleton _) r).trans hr')
    exact block_eq_of (fun r₂ hr₂ => declarations_eq inner hr₂
      (allDistinct_cons_iff.mpr ⟨distinct_nil, haround⟩)) own hscopes haround

theorem declarations_eq {outer : List OpenBlock} {scope : String} {before : List Declaration}
    (ds : List Declaration) {r : Resolver} (hr : r.scopes = arenaOf (⟨scope, before⟩ :: outer))
    (hdistinct : AllDistinct (⟨scope, before⟩ :: outer)) :
    declarations ⟨outer.length⟩ ds r = actAll (declarationMoments outer scope before ds) r := by
  match ds with
  | [] => rfl
  | d :: ds =>
    rw [declarations, declarationMoments, actAll_append]
    refine bind_congr_at (declaration_eq d hr hdistinct) fun _ r' hr' => ?_
    obtain ⟨hscopes, hnext⟩ := (leads_moments d).of_actAll_ok hdistinct hr hr'
    exact declarations_eq ds hscopes hnext

end

/-- The pass over a program is its moments, from nothing. -/
theorem program_eq (p : Program) (r : Resolver) :
    program p r = actAll p.moments .fresh :=
  @block_eq_of [] p.name.name p.block.declarations (fun _ hr => declarations_eq _ hr
    (allDistinct_cons_iff.mpr ⟨distinct_nil, allDistinct_nil⟩)) p.block.body .fresh rfl
    allDistinct_nil

end Resolve

/-! ## What a record tells -/

/-- The blocks that are open where the first of some moments is made; none if there is no
moment left. -/
def openAt : List Moment → List OpenBlock
  | [] => []
  | m :: _ => m.start

/-- A moment whose check succeeds uses open scopes only, and leads on. -/
theorem Moment.perform?_of_ok {m : Moment} {event : ScopeEvent} (h : m.outcome = .ok event) :
    (arenaOf m.start).perform? m.operation = some (arenaOf m.next) :=
  Arena.perform?_eq_some_iff.mpr ⟨fun _ => m.isOpen_of_mem_scopes, m.apply_of_ok h⟩

theorem Moment.perform?_of_error {m : Moment} {e : Error ScopeFault} (h : m.outcome = .error e) :
    (arenaOf m.start).perform? m.operation = some (arenaOf m.start) :=
  Arena.perform?_eq_some_iff.mpr ⟨fun _ => m.isOpen_of_mem_scopes, m.apply_of_error h⟩

theorem Leads.performAll? {s t : List OpenBlock} {ms : List Moment} {events : List ScopeEvent}
    (h : Leads s ms t) (hevents : ms.map Moment.outcome = events.map .ok) :
    (arenaOf s).performAll? (ms.map Moment.operation) = some (arenaOf t) := by
  induction h generalizing events with
  | nil s => rfl
  | cons m _ ih =>
    cases events with
    | nil => cases hevents
    | cons event events =>
      obtain ⟨hevent, hrest⟩ := List.cons.inj hevents
      rw [List.map_cons, Arena.performAll?_cons, Moment.perform?_of_ok hevent]
      exact ih hrest

section Pending

variable {made pending : List Moment} {events : List ScopeEvent}

/-- Moments that succeed, and one more that fails, use open scopes only. -/
theorem Leads.performAll?_pending (h : Leads [] made (openAt pending))
    (hevents : made.map Moment.outcome = events.map .ok)
    (hfails : ∀ m ∈ pending.head?, ∃ e, m.outcome = .error e) :
    Arena.empty.performAll? ((made ++ pending.take 1).map Moment.operation) =
      some (arenaOf (openAt pending)) := by
  rw [List.map_append, Arena.performAll?_append, show Arena.empty = arenaOf [] from rfl,
    h.performAll? hevents, Option.bind_some]
  cases pending with
  | nil => rfl
  | cons m rest =>
    obtain ⟨e, herror⟩ := hfails m rfl
    rw [List.take_succ_cons, List.map_cons, Arena.performAll?_cons, openAt,
      m.perform?_of_error herror]
    rfl

/-- So do the searches that they make. -/
theorem Leads.search_of_mem (h : Leads [] made (openAt pending))
    (hevents : made.map Moment.outcome = events.map .ok) {m : Moment}
    (hm : m ∈ made ++ pending.take 1) {x : Identifier} (hx : m.step = .resolve x) :
    (arenaOf m.start).Search x.name ⟨m.outer.length⟩ (variableIn (m.block :: m.outer) x.name) := by
  obtain ⟨hdistinct, hopen⟩ := h.allDistinct hevents allDistinct_nil
  have hstart : AllDistinct m.start := by
    rcases List.mem_append.mp hm with hm | hm
    · exact hdistinct m hm
    · cases pending with
      | nil => cases hm
      | cons first rest => exact List.mem_singleton.mp hm ▸ hopen
  obtain ⟨b, outer, step⟩ := m
  obtain rfl : step = .resolve x := hx
  exact search_arenaOf b hstart x.name

/-- A block that is left lists what it has declared. -/
theorem Leads.listing_of_mem {t : List OpenBlock} (h : Leads [] made t)
    (hevents : made.map Moment.outcome = events.map .ok) {m : Moment} (hm : m ∈ made)
    (hleave : m.step = .leave) :
    (m.block.table m.outer).symbols.Perm (m.block.declared.map Declaration.symbol) ∧
      (m.block.table m.outer).symbols.Pairwise Symbol.Before := by
  have hstart := (h.allDistinct hevents allDistinct_nil).1 m hm
  obtain ⟨b, outer, step⟩ := m
  obtain rfl : step = .leave := hleave
  exact ⟨Table.symbols_opened_perm _ _ _ (allDistinct_cons_iff.mp hstart).1,
    Table.pairwise_symbols _⟩

end Pending

/-- What a pass over `p` leaves, which has made some moments and has not got past the first
of those pending. -/
structure Logged (p : Program) (result : EStateM.Result (Error ScopeFault) Resolver Unit)
    (made pending : List Moment) : Prop where
  /-- The moments come in the order of the program. -/
  moments_eq : p.moments = made ++ pending
  /-- Each of those made has logged its event, and there is no other event. -/
  record_eq : made.map Moment.outcome = (stateAfter result).record.toList.map .ok
  /-- The pass has ended because nothing is left to do, or because the next check fails,
  which is one in the innermost of the open blocks. -/
  ended : match pending with
    | [] => result = .ok () (stateAfter result)
    | m :: _ => m.start = m.block :: m.outer ∧
        ∃ e, m.outcome = .error e ∧ result = .error e (stateAfter result)
  /-- The open scopes are those of the blocks around that check, and otherwise none. -/
  scopes_eq : (stateAfter result).scopes = arenaOf (openAt pending)
  /-- The events nest, and those that are not closed are of these blocks. -/
  nests : (stateAfter result).record.toList.foldlM nest [] = some (labels (openAt pending))
  /-- Every operation on the scopes, that of the failing check included, has named scopes
  only that were open. -/
  operations : Arena.empty.performAll? ((made ++ pending.take 1).map Moment.operation) =
    some (stateAfter result).scopes
  /-- Every search for a variable has been at open scopes only, and has found it in the
  innermost block that declares it. -/
  searches : ∀ m ∈ made ++ pending.take 1, ∀ x, m.step = .resolve x →
    (arenaOf m.start).Search x.name ⟨m.outer.length⟩ (variableIn (m.block :: m.outer) x.name)
  /-- A block that has been left has a table which lists its declarations, each once and in
  order. -/
  listings : ∀ m ∈ made, m.step = .leave →
    (m.block.table m.outer).symbols.Perm (m.block.declared.map Declaration.symbol) ∧
      (m.block.table m.outer).symbols.Pairwise Symbol.Before

/-- The run lemma, read as a log. -/
theorem logged_of_run {p : Program} {made pending : List Moment} {events : List ScopeEvent}
    {result : EStateM.Result (Error ScopeFault) Resolver Unit}
    (hrun : match pending with
      | [] => result = .ok () ⟨arenaOf [], events.toArray⟩
      | m :: _ => ∃ e, m.outcome = .error e ∧
          result = .error e ⟨arenaOf m.start, events.toArray⟩)
    (hmoments : p.moments = made ++ pending)
    (hevents : made.map Moment.outcome = events.map .ok) : Logged p result made pending := by
  obtain ⟨t, hmade, hpending⟩ := (hmoments ▸ p.leads_moments).split
  obtain rfl : t = openAt pending := by cases hpending <;> rfl
  have hstate : stateAfter result = ⟨arenaOf (openAt pending), events.toArray⟩ := by
    cases pending with
    | nil =>
      rw [hrun]
      rfl
    | cons m rest =>
      obtain ⟨e, -, hrun⟩ := hrun
      rw [hrun]
      rfl
  refine ⟨hmoments, ?_, ?_, ?_, ?_, ?_, fun m hm x => hmade.search_of_mem hevents hm,
    fun m => hmade.listing_of_mem hevents⟩
  · rw [hstate, hevents]
  · cases pending with
    | nil => rw [hstate, hrun, openAt]
    | cons m rest =>
      obtain ⟨e, herror, hrun⟩ := hrun
      exact ⟨m.start_of_error herror, e, herror, by rw [hstate, hrun, openAt]⟩
  · rw [hstate]
  · rw [hstate]
    exact hmade.nests hevents
  · rw [hstate]
    refine hmade.performAll?_pending hevents fun m hm => ?_
    cases pending with
    | nil => cases hm
    | cons first rest =>
      cases hm
      obtain ⟨e, herror, -⟩ := hrun
      exact ⟨e, herror⟩

/-- The moments made are those that have printed. -/
theorem Logged.prints {p : Program} {made pending : List Moment}
    {result : EStateM.Result (Error ScopeFault) Resolver Unit}
    (h : Logged p result made pending) :
    List.Forall₂ Moment.Prints made
      ((stateAfter result).record.toList.map Event.ofScopeEvent) := by
  obtain ⟨t, hmade, -⟩ := (h.moments_eq ▸ p.leads_moments).split
  exact hmade.prints h.record_eq allDistinct_nil

/-- **The trace of the static pass is a faithful log.** Whatever a resolver has seen before,
the pass over a program does what the moments of the program say, one after another, each
with its operation on the scopes, and what it leaves are the events of those before the first
check that fails. What is to be read of it are the texts that these moments print, from the
first to the last, and no others. -/
theorem static_pass_logged (p : Program) (r : Resolver) :
    Resolve.program p r = Resolve.actAll p.moments .fresh ∧
      (∀ (m : Moment) (s : Resolver),
        (stateAfter (m.act s)).scopes = m.operation.apply s.scopes) ∧
      ∃ made pending, Logged p (Resolve.program p r) made pending ∧
        ∃ printed : List (List Event), List.Forall₂ Moment.Prints made printed ∧
          (stateAfter (Resolve.program p r)).record.toList.flatMap Event.ofScopeEvent =
            printed.flatten ∧
          (Traced.resolve p).events = printed.flatten := by
  refine ⟨Resolve.program_eq p r, Moment.scopes_act, ?_⟩
  obtain ⟨made, pending, events, hmoments, hevents, hrun⟩ :=
    p.leads_moments.actAll allDistinct_nil (r := .fresh) rfl
  rw [← Resolve.program_eq p r, show Resolver.fresh.record = #[] from rfl, Array.empty_append]
    at hrun
  have hlogged : Logged p (Resolve.program p r) made pending :=
    logged_of_run hrun hmoments hevents
  -- a pass does not depend on what the resolver has seen before
  have hfresh : Resolve.program p .fresh = Resolve.program p r := by
    rw [Resolve.program_eq p .fresh, Resolve.program_eq p r]
  refine ⟨made, pending, hlogged, _, hlogged.prints, List.flatMap_def .., ?_⟩
  rw [Traced.events_resolve, hfresh, List.flatMap_def]

end MiniPascal
