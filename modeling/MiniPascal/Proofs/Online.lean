/-
`Online.lean` -- a rule looks no further than the token it stops at.

What a rule does from a cursor is decided by the tokens that it passes and by the token
behind them, at which it stops or fails. So on any other input that leads over the same
tokens to the same token the rule does the same (`OnlineFrom`). This is why a syntax error
says something about all ways in which the text could go on, and not only about the text
that is there.

The one exception is a piece of text that is no token. It is met while reading on, so an
error of that kind lies one step ahead, and nothing is claimed for it.
-/
import MiniPascal.Proofs.Completeness
import MiniPascal.Proofs.Soundness

set_option autoImplicit false

namespace MiniPascal

open Phrase

/-! ## The same tokens elsewhere -/

/-- From `c'` the tokens `us` lead to a cursor `d'` on the same token as `d`, to which
they lead from `c`, and at the same depth. -/
structure Cursor.Retraces (us : List Token) (c d c' d' : Cursor) : Prop where
  closed : c'.Closed
  depth_eq : c'.depth = c.depth
  walk : c'.Walks us d'
  current_eq : d'.current = d.current

namespace Cursor

variable {c d e c' d' e' : Cursor} {us vs : List Token}

/-- Walks over the same tokens to the same token begin at the same token. -/
theorem Walks.current_eq (h : c.Walks us d) (h' : c'.Walks us d')
    (hcurrent : d'.current = d.current) : c'.current = c.current := by
  cases us with
  | nil =>
    rw [h.eq_of_nil, h'.eq_of_nil] at hcurrent
    exact hcurrent
  | cons t us =>
    obtain ⟨hc, -, -⟩ := h.uncons
    obtain ⟨hc', -, -⟩ := h'.uncons
    rw [← hc, ← hc']

theorem Retraces.start_eq (h : Retraces us c d c' d') (hwalk : c.Walks us d) :
    c'.current = c.current :=
  hwalk.current_eq h.walk h.current_eq

/-- Two walks, one behind the other, are retraced one behind the other. -/
theorem Retraces.cut (h : Retraces (us ++ vs) c e c' e') (hfirst : c.Walks us d)
    (hsecond : d.Walks vs e) :
    ∃ d', Retraces us c d c' d' ∧ Retraces vs d e d' e' := by
  obtain ⟨d', hfirst', hsecond'⟩ := h.walk.cut
  refine ⟨d', ⟨h.closed, h.depth_eq, hfirst', hsecond.current_eq hsecond' h.current_eq⟩,
    ⟨hfirst'.closed h.closed, ?_, hsecond', h.current_eq⟩⟩
  rw [hfirst'.depth_eq, hfirst.depth_eq, h.depth_eq]

/-- One token is retraced by reading it. -/
theorem Retraces.advance_eq {t : Token} (h : Retraces [t] c d c' d') :
    Rule.advance c' = .ok t d' := by
  obtain ⟨-, -, m, hadvance, hrest⟩ := h.walk.uncons
  rw [hrest.eq_of_nil]
  exact hadvance

end Cursor

namespace Rule

variable {α β : Type}

/-- What the rule does from `c`, other than meeting a piece of text that is no token, it
does from every cursor that leads over the same tokens to the same token. -/
structure OnlineFrom (rule : Rule α) (c : Cursor) : Prop where
  ok : ∀ ⦃a d⦄, rule c = .ok a d → ∃ us, c.Walks us d ∧
    ∀ ⦃c' d'⦄, Cursor.Retraces us c d c' d' → rule c' = .ok a d'
  error : ∀ ⦃e m⦄, rule c = .error e m → (∃ fault, e.fault = .lexical fault) ∨
    ∃ us d, c.Walks us d ∧ e.position = d.current.position ∧
      ∀ ⦃c' d'⦄, Cursor.Retraces us c d c' d' → ∃ m', rule c' = .error e m'

/-- From everywhere. -/
def Online (rule : Rule α) : Prop := ∀ c, c.Closed → rule.OnlineFrom c

/-! ## Combinations -/

section Combinations

variable {c : Cursor}

/-- Only what a rule does on the current token matters. -/
theorem OnlineFrom.of_eq {rule rule' : Rule α} (h : rule'.OnlineFrom c) (hc : c.Closed)
    (heq : ∀ c', c'.Closed → c'.current = c.current → rule c' = rule' c') :
    rule.OnlineFrom c := by
  constructor
  · intro a d hok
    rw [heq c hc rfl] at hok
    obtain ⟨us, hwalk, hsame⟩ := h.ok hok
    refine ⟨us, hwalk, fun c' d' hretraces => ?_⟩
    rw [heq c' hretraces.closed (hretraces.start_eq hwalk)]
    exact hsame hretraces
  · intro e m herror
    rw [heq c hc rfl] at herror
    refine (h.error herror).imp_right ?_
    rintro ⟨us, d, hwalk, hposition, hsame⟩
    refine ⟨us, d, hwalk, hposition, fun c' d' hretraces => ?_⟩
    rw [heq c' hretraces.closed (hretraces.start_eq hwalk)]
    exact hsame hretraces

theorem online_pure (a : α) : Online (pure a : Rule α) := by
  intro c _
  constructor
  · intro a d hok
    cases hok
    refine ⟨[], .stay c, fun c' d' hretraces => ?_⟩
    rw [hretraces.walk.eq_of_nil]
    rfl
  · intro e m herror
    cases herror

/-- A rule that fails at once, for a reason that the current token and the depth decide. -/
theorem onlineFrom_of_error {rule : Rule α} {e : Error ReadingFault}
    (hposition : e.position = c.current.position)
    (h : ∀ c', c'.current = c.current → c'.depth = c.depth → rule c' = .error e c') :
    rule.OnlineFrom c := by
  constructor
  · intro a d hok
    rw [h c rfl rfl] at hok
    cases hok
  · intro e' m herror
    rw [h c rfl rfl] at herror
    cases herror
    refine .inr ⟨[], c, .stay c, hposition, fun c' d' hretraces => ⟨c', h c' ?_ ?_⟩⟩
    · exact hretraces.start_eq (.stay c)
    · exact hretraces.depth_eq

theorem online_refuse (f : SyntaxFault) : Online (refuse f : Rule α) := by
  intro c _
  refine onlineFrom_of_error (e := c.fault f) rfl fun c' hcurrent _ => ?_
  rw [refuse, Cursor.fault, hcurrent]
  rfl

theorem position_unexpected (c : Cursor) (what : Expectation) :
    (c.unexpected what).position = c.current.position := by
  unfold Cursor.unexpected
  split <;> rfl

theorem online_expected (what : Expectation) : Online (expected what : Rule α) := by
  intro c _
  refine onlineFrom_of_error (position_unexpected c what) fun c' hcurrent _ => ?_
  rw [expected, Cursor.unexpected, Cursor.fault, Cursor.fault, hcurrent]
  rfl

theorem onlineFrom_advance (hend : c.current.kind.isEnd = false) : advance.OnlineFrom c := by
  constructor
  · intro t d hok
    obtain ⟨rfl, hwalk⟩ := walks_of_advance hend hok
    exact ⟨_, hwalk, fun c' d' hretraces => hretraces.advance_eq⟩
  · intro e m herror
    unfold advance at herror
    split at herror
    · cases herror
    · cases herror
      exact .inl ⟨_, rfl⟩

theorem OnlineFrom.bind {x : Rule α} {f : α → Rule β} (hx : x.OnlineFrom c) (hc : c.Closed)
    (hf : ∀ a d, d.Closed → x c = .ok a d → (f a).OnlineFrom d) : (x >>= f).OnlineFrom c := by
  constructor
  · intro b e hok
    obtain ⟨a, d, hfirst, hsecond⟩ := bind_eq_ok_iff.mp hok
    obtain ⟨us, hwalk, hsame⟩ := hx.ok hfirst
    obtain ⟨vs, hwalk', hsame'⟩ := (hf a d (hwalk.closed hc) hfirst).ok hsecond
    refine ⟨us ++ vs, hwalk.trans hwalk', fun c' e' hretraces => ?_⟩
    obtain ⟨d', hretraces, hretraces'⟩ := hretraces.cut hwalk hwalk'
    rw [bind_of_ok (hsame hretraces)]
    exact hsame' hretraces'
  · intro e m herror
    cases hfirst : x c with
    | error e' m' =>
      rw [bind_of_error hfirst] at herror
      cases herror
      refine (hx.error hfirst).imp_right ?_
      rintro ⟨us, d, hwalk, hposition, hsame⟩
      refine ⟨us, d, hwalk, hposition, fun c' d' hretraces => ?_⟩
      obtain ⟨m', hfail⟩ := hsame hretraces
      exact ⟨m', bind_of_error hfail f⟩
    | ok a d =>
      rw [bind_of_ok hfirst] at herror
      obtain ⟨us, hwalk, hsame⟩ := hx.ok hfirst
      refine ((hf a d (hwalk.closed hc) hfirst).error herror).imp_right ?_
      rintro ⟨vs, e', hwalk', hposition, hsame'⟩
      refine ⟨us ++ vs, e', hwalk.trans hwalk', hposition, fun c' e'' hretraces => ?_⟩
      obtain ⟨d', hretraces, hretraces'⟩ := hretraces.cut hwalk hwalk'
      rw [bind_of_ok (hsame hretraces)]
      exact hsame' hretraces'

theorem Online.bind {x : Rule α} {f : α → Rule β} (hx : x.Online) (hf : ∀ a, (f a).Online) :
    (x >>= f).Online :=
  fun c hc => (hx c hc).bind hc fun a d hd _ => hf a d hd

/-- A token that is not the end of the input, and then an online rule. -/
theorem onlineFrom_after_advance {f : Token → Rule β} (hc : c.Closed)
    (hend : c.current.kind.isEnd = false) (hf : ∀ t, (f t).Online) :
    (advance >>= f).OnlineFrom c :=
  (onlineFrom_advance hend).bind hc fun t d hd _ => hf t d hd

theorem online_nested {rule : Rule α} (h : rule.Online) : (nested rule).Online := by
  intro c hc
  by_cases hroom : c.depth < maxNesting
  · have hinside := h { c with depth := c.depth + 1 } hc
    -- a walk outside is the same walk inside
    have henter : ∀ {us d c' d'}, Cursor.Retraces us c { d with depth := d.depth - 1 } c' d' →
        Cursor.Retraces us { c with depth := c.depth + 1 } d { c' with depth := c'.depth + 1 }
          { d' with depth := c'.depth + 1 } :=
      fun h => ⟨h.closed, congrArg (· + 1) h.depth_eq, h.walk.atDepth _, h.current_eq⟩
    have hleave : ∀ {us} {d : Cursor}, Cursor.Walks { c with depth := c.depth + 1 } us d →
        c.Walks us { d with depth := d.depth - 1 } := by
      intro us d hwalk
      have hdepth : d.depth - 1 = c.depth := by
        rw [hwalk.depth_eq]
        rfl
      rw [hdepth]
      exact hwalk.atDepth c.depth
    constructor
    · intro a d hok
      rw [nested, if_pos hroom] at hok
      split at hok
      · next a m hrule =>
        cases hok
        obtain ⟨us, hwalk, hsame⟩ := hinside.ok hrule
        refine ⟨us, hleave hwalk, fun c' d' hretraces => ?_⟩
        have hroom' : c'.depth < maxNesting := hretraces.depth_eq ▸ hroom
        rw [nested, if_pos hroom', hsame (henter hretraces)]
        dsimp only
        rw [Nat.add_sub_cancel, ← hretraces.walk.depth_eq]
      · cases hok
    · intro e m herror
      rw [nested, if_pos hroom] at herror
      split at herror
      · cases herror
      · next e m hrule =>
        cases herror
        refine (hinside.error hrule).imp_right ?_
        rintro ⟨us, d, hwalk, hposition, hsame⟩
        refine ⟨us, _, hleave hwalk, hposition, fun c' d' hretraces => ?_⟩
        have hroom' : c'.depth < maxNesting := hretraces.depth_eq ▸ hroom
        obtain ⟨m', hfail⟩ := hsame (henter hretraces)
        rw [nested, if_pos hroom', hfail]
        exact ⟨_, rfl⟩
  -- no level is left, and the same holds wherever the depth is the same
  · refine onlineFrom_of_error (e := c.fault (.nestingTooDeep maxNesting)) rfl ?_
    intro c' hcurrent hdepth
    rw [nested, hdepth, if_neg hroom, refuse, Cursor.fault, hcurrent]
    rfl

/-- A loop, each round of which passes at least one token. -/
theorem online_many {select : Kind → Option β} {item : β → Rule α} {P : Phrase α}
    (hreads : ∀ b c, select c.current.kind = some b → (item b).ReadsFrom P c)
    (hsome : ∀ {n ts a}, P n ts a → ts ≠ [])
    (h : ∀ b c, c.Closed → select c.current.kind = some b → (item b).OnlineFrom c) :
    Online (many select item) := by
  intro c hc
  induction hleft : c.remaining using Nat.strongRecOn generalizing c with
  | ind left ih =>
    cases hselect : select c.current.kind with
    | none =>
      refine (online_pure [] c hc).of_eq hc fun c' _ hcurrent => ?_
      rw [many, hcurrent, hselect]
      rfl
    | some b =>
      have hless : ∀ c', c'.Closed → c'.current = c.current →
          ∀ ⦃a d⦄, item b c' = .ok a d → d.remaining < c'.remaining := by
        intro c' hc' hcurrent a d hok
        obtain ⟨n, ts, hwalk, hphrase, -⟩ := hreads b c' (hcurrent ▸ hselect) hok
        obtain ⟨t, us, rfl⟩ := List.exists_cons_of_ne_nil (hsome hphrase)
        exact hwalk.remaining_lt hc'
      refine OnlineFrom.of_eq ?_ hc fun c' hc' hcurrent =>
        many_eq_round (hcurrent ▸ hselect) (hless c' hc' hcurrent)
      refine (h b c hc hselect).bind hc fun a d hd hok => ?_
      have hrest := ih _ (hleft ▸ hless c hc rfl hok) d hd rfl
      exact hrest.bind hd fun as d' hd' _ => online_pure (a :: as) d' hd'

end Combinations

/-! ## Single tokens -/

theorem online_eat (which : Terminal) : Online (eat which) := by
  intro c hc
  by_cases h : c.current.Is which
  · refine (onlineFrom_advance h.not_end).of_eq hc fun c' _ hcurrent => ?_
    rw [eat_apply, hcurrent, if_pos (Kind.alike_terminal_iff.mpr h)]
  · refine (online_expected (.terminal which) c hc).of_eq hc fun c' _ hcurrent => ?_
    rw [eat_apply, hcurrent, if_neg (mt Kind.alike_terminal_iff.mp h)]

theorem online_identifier : Online identifier := by
  intro c hc
  by_cases h : ∃ name, c.current.Names name
  · obtain ⟨name, hname⟩ := h
    refine (onlineFrom_after_advance (f := fun _ => pure ⟨name, c.current.position⟩) hc
      hname.not_end fun _ => online_pure _).of_eq hc fun c' _ hcurrent => ?_
    unfold identifier
    rw [here_bind, peek_bind, hcurrent, show c.current.kind = .identifier name from hname]
  · refine (online_expected .identifier c hc).of_eq hc fun c' _ hcurrent => ?_
    unfold identifier
    rw [here_bind, peek_bind, hcurrent]
    cases hkind : c.current.kind with
    | identifier name => exact absurd ⟨name, hkind⟩ h
    | _ => rfl

theorem online_typeName : Online typeName := by
  intro c hc
  by_cases h : ∃ type, TypeWord c.current.kind type
  · obtain ⟨type, hword⟩ := h
    exact (onlineFrom_after_advance (f := fun _ => pure type) hc hword.not_end
      fun _ => online_pure _).of_eq hc fun c' _ hcurrent => typeName_apply hcurrent hword
  · refine (online_expected .typeName c hc).of_eq hc fun c' _ hcurrent => typeName_other ?_
    rw [hcurrent]
    exact not_exists.mp h

/-! ## Expressions -/

theorem online_chain {operator? : Kind → Option BinaryOperator}
    {Op : Kind → BinaryOperator → Prop} {operand : Rule Expr} {P : Phrase Expr}
    (hop : ∀ {kind op}, operator? kind = some op ↔ Op kind op)
    (hend : ∀ {kind op}, Op kind op → kind.isEnd = false) (hreads : operand.Reads P)
    (h : operand.Online) : (chain operator? operand).Online := by
  refine h.bind fun first => Online.bind ?_ fun links => online_pure _
  refine online_many (reads_linked hop hend hreads) ?_ ?_
  · rintro n ts link ⟨-, -⟩
    exact List.cons_ne_nil _ _
  · intro op c hc hselect
    exact onlineFrom_after_advance hc (hend (hop.mp hselect)) fun t =>
      h.bind fun e => online_pure _

theorem online_expressionOf {factor : Rule Expr} {P : Phrase Expr} (hreads : factor.Reads P)
    (h : factor.Online) : (expressionOf factor).Online :=
  online_chain additive?_eq_some_iff Additive.not_end (reads_termOf hreads)
    (online_chain multiplicative?_eq_some_iff Multiplicative.not_end hreads h)

theorem online_factorAt (levels : Nat) : (factorAt levels).Online := by
  induction levels with
  | zero => exact online_refuse _
  | succ levels ih =>
    intro c hc
    cases factorStart c.current with
    | sign hop =>
      refine OnlineFrom.of_eq ?_ hc fun c' _ hcurrent => factorAt_sign hcurrent hop
      exact onlineFrom_after_advance hc hop.not_end fun t =>
        (online_nested ih).bind fun e => online_pure _
    | group hgroup =>
      refine OnlineFrom.of_eq ?_ hc fun c' _ hcurrent => factorAt_group hcurrent hgroup
      exact onlineFrom_after_advance hc hgroup.not_end fun t =>
        (online_nested (online_expressionOf (reads_factorAt levels) ih)).bind fun e =>
          (online_eat _).bind fun _ => online_pure _
    | integer hkind =>
      refine OnlineFrom.of_eq ?_ hc fun c' _ hcurrent => factorAt_integer hcurrent hkind
      exact onlineFrom_after_advance hc (by rw [hkind]; rfl) fun t => online_pure _
    | real hkind =>
      refine OnlineFrom.of_eq ?_ hc fun c' _ hcurrent => factorAt_real hcurrent hkind
      exact onlineFrom_after_advance hc (by rw [hkind]; rfl) fun t => online_pure _
    | name hnames =>
      refine OnlineFrom.of_eq ?_ hc fun c' _ hcurrent => factorAt_variable hcurrent hnames
      exact (online_identifier.bind fun x => online_pure _) c hc
    | other hother =>
      exact (online_expected .expression c hc).of_eq hc fun c' _ hcurrent =>
        hother levels c' hcurrent

theorem online_expression : expression.Online :=
  online_expressionOf (reads_factorAt _) (online_factorAt _)

/-! ## Statements -/

theorem online_assignment : assignment.Online :=
  online_identifier.bind fun _ => (online_eat _).bind fun _ =>
    online_expression.bind fun _ => online_pure _

/-- The rounds of a separated list. -/
theorem online_rounds {k : Terminal} {rule : Rule α} {P : Phrase α} (hreads : rule.Reads P)
    (h : rule.Online) : Online (many (on k) fun _ => do let _ ← advance; rule) := by
  refine online_many
    (fun _ c hselect => reads_preceded hreads c (on_eq_some_iff.mp hselect)) ?_ ?_
  · rintro n ts a ⟨-, -⟩
    exact List.cons_ne_nil _ _
  · intro _ c hc hselect
    exact onlineFrom_after_advance hc (Token.Is.not_end (on_eq_some_iff.mp hselect)) fun _ => h

theorem online_statementList {statement : Rule Statement} {P : Phrase Statement}
    (hreads : statement.Reads P) (h : statement.Online) : (statementList statement).Online := by
  refine h.bind fun first => (online_rounds hreads h).bind fun others => ?_
  intro c hc
  cases hname : (onIdentifier c.current.kind).isSome with
  | true =>
    refine (online_expected .separatorOrEnd c hc).of_eq hc fun c' _ hcurrent => ?_
    rw [peek_bind, hcurrent, hname]
    rfl
  | false =>
    refine (online_pure (first :: others) c hc).of_eq hc fun c' _ hcurrent => ?_
    rw [peek_bind, hcurrent, hname]
    rfl

theorem online_compoundOf {statement : Rule Statement} {P : Phrase Statement}
    (hreads : statement.Reads P) (h : statement.Online) : (compoundOf statement).Online :=
  online_nested ((online_eat _).bind fun _ => (online_statementList hreads h).bind fun _ =>
    (online_eat _).bind fun _ => online_pure _)

theorem online_statementAt (levels : Nat) : (statementAt levels).Online := by
  induction levels with
  | zero => exact online_refuse _
  | succ levels ih =>
    intro c hc
    by_cases hcompound : c.current.Is .beginBlock
    · refine OnlineFrom.of_eq ?_ hc fun c' _ hcurrent => statementAt_compound (hcurrent ▸ hcompound)
      exact ((online_compoundOf (reads_statementAt levels) ih).bind fun _ => online_pure _) c hc
    by_cases hname : ∃ name, c.current.Names name
    · obtain ⟨name, hnames⟩ := hname
      exact (online_assignment c hc).of_eq hc fun c' _ hcurrent =>
        statementAt_assignment (hcurrent ▸ hnames)
    · refine (online_pure .empty c hc).of_eq hc fun c' _ hcurrent => ?_
      rw [← hcurrent] at hcompound hname
      exact statementAt_empty hcompound (not_exists.mp hname)

theorem online_compound : compound.Online :=
  online_compoundOf (reads_statementAt _) (online_statementAt _)

/-! ## Declarations -/

theorem online_variableLine : variableLine.Online :=
  online_identifier.bind fun _ => (online_rounds reads_identifier online_identifier).bind fun _ =>
    (online_eat _).bind fun _ => online_typeName.bind fun _ => online_pure _

theorem online_variableEntry :
    Online (do
      let declared ← variableLine
      let _ ← eat .semicolon
      return declared) :=
  online_variableLine.bind fun _ => (online_eat _).bind fun _ => online_pure _

theorem onlineFrom_variableSection {c : Cursor} (hc : c.Closed) (hvar : c.current.Is .var) :
    variableSection.OnlineFrom c := by
  refine onlineFrom_after_advance hc hvar.not_end fun _ => online_variableEntry.bind fun _ =>
    Online.bind ?_ fun _ => online_pure _
  refine online_many (fun _ c _ => reads_variableEntry c) ?_ fun _ c hc _ =>
    online_variableEntry c hc
  intro n ts declared hentry
  obtain ⟨t, us, name, rfl, -⟩ := exists_name_of_variableEntry hentry
  exact List.cons_ne_nil _ _

theorem BeginsWith.ne_nil {word : Terminal} {P : Phrase α} (h : BeginsWith word P) {n : Nat}
    {ts : List Token} {a : α} (hphrase : P n ts a) : ts ≠ [] := by
  obtain ⟨t, us, rfl, -⟩ := h hphrase
  exact List.cons_ne_nil _ _

theorem online_blockOf {procedure : Rule Declaration} {P : Phrase Declaration}
    (hreads : procedure.Reads P) (hword : BeginsWith .procedure P) (h : procedure.Online) :
    (blockOf procedure).Online := by
  rw [blockOf_eq]
  refine Online.bind ?_ fun _ => Online.bind ?_ fun _ => online_compound.bind fun _ => online_pure _
  · exact online_many
      (fun _ _ hselect => readsFrom_variableSection (on_eq_some_iff.mp hselect))
      (fun hphrase => beginsWith_section.ne_nil hphrase)
      fun _ _ hc hselect => onlineFrom_variableSection hc (on_eq_some_iff.mp hselect)
  · exact online_many (fun _ c _ => hreads c) (fun hphrase => hword.ne_nil hphrase)
      fun _ c hc _ => h c hc

theorem online_procedureAt (levels : Nat) : (procedureAt levels).Online := by
  induction levels with
  | zero => exact online_refuse _
  | succ levels ih =>
    exact (online_eat _).bind fun _ => online_identifier.bind fun _ => (online_eat _).bind fun _ =>
      (online_nested (online_blockOf (reads_procedureAt levels) beginsWith_procedure ih)).bind
        fun _ => (online_eat _).bind fun _ => online_pure _

theorem online_block : block.Online :=
  online_blockOf (reads_procedureAt _) beginsWith_procedure (online_procedureAt _)

/-! ## Programs -/

theorem online_program : program.Online :=
  (online_eat _).bind fun _ => online_identifier.bind fun _ => (online_eat _).bind fun _ =>
    online_block.bind fun _ => (online_eat _).bind fun _ => online_pure _

/-- **What a rule says holds for every text that begins like this one.** -/
theorem online_wholeProgram : wholeProgram.Online := by
  refine online_program.bind fun parsed => ?_
  intro c hc
  cases hend : c.current.kind.isEnd with
  | true =>
    refine (online_pure parsed c hc).of_eq hc fun c' _ hcurrent => ?_
    rw [peek_bind, hcurrent, hend]
    rfl
  | false =>
    refine (online_refuse (.trailingTokens c.current.kind) c hc).of_eq hc fun c' _ hcurrent => ?_
    rw [peek_bind, hcurrent, hend]
    rfl

end Rule

end MiniPascal
