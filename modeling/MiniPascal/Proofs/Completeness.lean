/-
`Completeness.lean` -- every phrase of its class is accepted, as far as levels go.

Started on a phrase of its class, a rule does one of two things, and the nesting of
the phrase says which: it passes exactly that phrase and gives its tree, or the
phrase nests too deeply for the point where it stands and the rule fails for that
reason and for no other (`Passes`). The second half is more than rejection. It says
that running into the limit is the only way to fail on a phrase of the grammar.

A rule stops where it does because of the token behind the phrase, so each statement
has a condition on that token, always the weakest one the proof needs: a term must
not be followed by an operator that would continue it, a statement is followed by
`;` or `END`, and a compound statement by anything at all. A sequence of rules is then
put together like the phrase it passes (`PassesOver.bind`), and the rules of the grammar
below are read off their definitions; cursors occur only where a rule looks ahead.

The recursion is on the number of levels again. It never runs out: each level of the
rules is one level of depth, so at a depth that `nested` still lets in there is one
left.
-/
import MiniPascal.Proofs.Lookahead
import MiniPascal.Proofs.Repetition

set_option autoImplicit false

namespace MiniPascal

open Phrase

namespace Rule

variable {α β : Type}

/-! ## Outcomes -/

/-- The rule fails because it would have to go deeper than is allowed. -/
def TooDeep (rule : Rule α) (c : Cursor) : Prop :=
  ∃ p d, rule c = .error ⟨.grammatical (.nestingTooDeep maxNesting), p⟩ d

/-- The rule passes from `c` to `c'` with the value `a` if `n` further levels can be
entered, and fails because of the levels if they cannot. -/
def Passes (rule : Rule α) (c : Cursor) (n : Nat) (a : α) (c' : Cursor) : Prop :=
  if c.depth + n ≤ maxNesting then rule c = .ok a c' else rule.TooDeep c

section Outcomes

variable {c c' d : Cursor} {n m : Nat} {a : α} {b : β}

theorem passes_of_ok {rule : Rule α} (hdepth : c.depth ≤ maxNesting) (h : rule c = .ok a c') :
    rule.Passes c 0 a c' := by
  unfold Passes
  rwa [if_pos (by omega)]

theorem Passes.ok {rule : Rule α} (h : rule.Passes c n a c') (hn : c.depth + n ≤ maxNesting) :
    rule c = .ok a c' := by
  unfold Passes at h
  rwa [if_pos hn] at h

theorem Passes.tooDeep {rule : Rule α} (h : rule.Passes c n a c')
    (hn : ¬ c.depth + n ≤ maxNesting) : rule.TooDeep c := by
  unfold Passes at h
  rwa [if_neg hn] at h

/-- Only what a rule does from here matters. -/
theorem Passes.of_eq {rule rule' : Rule α} (heq : rule c = rule' c)
    (h : rule'.Passes c n a c') : rule.Passes c n a c' := by
  unfold Passes TooDeep at h ⊢
  rwa [heq]

theorem TooDeep.bind {x : Rule α} (h : x.TooDeep c) (f : α → Rule β) : (x >>= f).TooDeep c := by
  obtain ⟨p, d, h⟩ := h
  exact ⟨p, d, bind_of_error h f⟩

/-- A sequence needs the larger number of levels. -/
theorem Passes.bind {x : Rule α} {f : α → Rule β} (h : x.Passes c n a d)
    (hdepth : d.depth = c.depth) (h' : (f a).Passes d m b c') :
    (x >>= f).Passes c (max n m) b c' := by
  unfold Passes
  split
  · next hmax =>
    rw [bind_of_ok (h.ok (by omega))]
    exact h'.ok (by omega)
  · next hmax =>
    by_cases hn : c.depth + n ≤ maxNesting
    · obtain ⟨p, d', hfail⟩ := h'.tooDeep (by omega)
      exact ⟨p, d', (bind_of_ok (h.ok hn) f).trans hfail⟩
    · exact (h.tooDeep hn).bind f

/-- A first part that needs no level can be taken as done. -/
theorem Passes.of_ok {x : Rule α} {f : α → Rule β} (h : x c = .ok a d)
    (hdepth : d.depth = c.depth) (h' : (f a).Passes d m b c') : (x >>= f).Passes c m b c' := by
  unfold Passes TooDeep at h' ⊢
  rwa [bind_of_ok h, ← hdepth]

/-- A last part that needs no level adds none. -/
theorem Passes.then_ok {x : Rule α} {f : α → Rule β} (h : x.Passes c n a d)
    (h' : f a d = .ok b c') : (x >>= f).Passes c n b c' := by
  unfold Passes
  split
  · next hn => rw [bind_of_ok (h.ok hn), h']
  · next hn => exact (h.tooDeep hn).bind f

end Outcomes

/-! ## Sequences

A rule is a sequence of smaller ones, and a phrase is their phrases one behind the
other. What one part finds behind its phrase is where the next part begins, so a
sequence asks for a link between the two (`Leads`), which is mostly the first token of
the next part. -/

/-- At the given depth, and in front of a token that satisfies `follow`, the rule
passes the phrase `ts`. -/
def PassesOver (rule : Rule α) (depth : Nat) (follow : Kind → Prop)
    (n : Nat) (ts : List Token) (a : α) : Prop :=
  ∀ ⦃c c' : Cursor⦄, c.Closed → c.depth = depth → c.Walks ts c' → follow c'.current.kind →
    rule.Passes c n a c'

/-- At the given depth the rule passes every phrase of the class. -/
def Accepts (rule : Rule α) (P : Phrase α) (follow : Kind → Prop) (depth : Nat) : Prop :=
  ∀ ⦃n ts a⦄, P n ts a → rule.PassesOver depth follow n ts a

/-- Anything may stand there. -/
def Anything (_ : Kind) : Prop := True

/-- If `follow'` holds behind the tokens `us`, then `follow` holds in front of them. -/
def Leads (us : List Token) (follow' follow : Kind → Prop) : Prop :=
  ∀ ⦃c c' : Cursor⦄, c.Walks us c' → follow' c'.current.kind → follow c.current.kind

section Sequences

variable {depth n m : Nat} {ts us : List Token} {t : Token} {which : Terminal}
  {follow follow' : Kind → Prop} {a : α} {b : β}

theorem leads_anything : Leads us follow Anything := fun _ _ _ _ => trivial

theorem leads_nil (h : ∀ kind, follow' kind → follow kind) : Leads [] follow' follow := by
  intro c c' hwalk hfollow
  rw [hwalk.eq_of_nil] at hfollow
  exact h _ hfollow

theorem leads_cons (h : follow t.kind) : Leads (t :: ts) follow' follow := by
  intro c c' hwalk _
  obtain ⟨rfl, -, -⟩ := hwalk.uncons
  exact h

theorem leads_terminal (ht : t.Is which) (h : follow (.terminal which)) :
    Leads (t :: ts) follow' follow := by
  apply leads_cons
  rw [show t.kind = .terminal which from ht]
  exact h

/-- A stronger condition behind the phrase does as well. -/
theorem PassesOver.mono {rule : Rule α} (h : rule.PassesOver depth follow n ts a)
    (hfollow : ∀ kind, follow' kind → follow kind) : rule.PassesOver depth follow' n ts a :=
  fun _ _ hclosed hc hwalk hbehind => h hclosed hc hwalk (hfollow _ hbehind)

/-- Only what a rule does on the first token of the phrase matters. -/
theorem PassesOver.of_eq {rule rule' : Rule α} (heq : ∀ c, c.current = t → rule c = rule' c)
    (h : rule'.PassesOver depth follow n (t :: ts) a) :
    rule.PassesOver depth follow n (t :: ts) a := by
  intro c c' hclosed hc hwalk hfollow
  obtain ⟨hcurrent, -, -⟩ := hwalk.uncons
  exact (h hclosed hc hwalk hfollow).of_eq (heq c hcurrent.symm)

theorem passesOver_pure (hdepth : depth ≤ maxNesting) :
    (pure a : Rule α).PassesOver depth follow 0 [] a := by
  intro c c' _ hc hwalk _
  rw [hwalk.eq_of_nil]
  exact passes_of_ok (hc ▸ hdepth) rfl

/-- One part behind the other. -/
theorem PassesOver.bind {x : Rule α} {f : α → Rule β} (h : x.PassesOver depth follow n ts a)
    (h' : (f a).PassesOver depth follow' m us b) (hlink : Leads us follow' follow) :
    (x >>= f).PassesOver depth follow' (max n m) (ts ++ us) b := by
  intro c c' hclosed hc hwalk hfollow
  obtain ⟨d, hfirst, hrest⟩ := hwalk.cut
  have hd : d.depth = c.depth := hfirst.depth_eq
  apply (h hclosed hc hfirst (hlink hrest hfollow)).bind hd
  exact h' (hfirst.closed hclosed) (hd.trans hc) hrest hfollow

/-- A last part that needs no level adds none. -/
theorem PassesOver.and_then {x : Rule α} {f : α → Rule β}
    (h : x.PassesOver depth follow n ts a) (h' : (f a).PassesOver depth follow' 0 us b)
    (hlink : Leads us follow' follow) : (x >>= f).PassesOver depth follow' n (ts ++ us) b := by
  have hboth := h.bind h' hlink
  rwa [Nat.max_zero] at hboth

/-- The value of a part is put to use. -/
theorem PassesOver.value {x : Rule α} (h : x.PassesOver depth follow n ts a) (g : α → β) :
    Rule.PassesOver (do return g (← x)) depth follow n ts (g a) :=
  fun _ _ hclosed hc hwalk hfollow => (h hclosed hc hwalk hfollow).then_ok rfl

/-- A first part that passes one token. -/
theorem PassesOver.after_token {x : Rule α} {f : α → Rule β}
    (hx : ∀ ⦃c d⦄, c.current = t → advance c = .ok t d → x c = .ok a d)
    (h : (f a).PassesOver depth follow n ts b) :
    (x >>= f).PassesOver depth follow n (t :: ts) b := by
  intro c c' hclosed hc hwalk hfollow
  obtain ⟨hcurrent, -, d, hadvance, hrest⟩ := hwalk.uncons
  have hd : d.depth = c.depth := Cursor.depth_advance hadvance
  apply Passes.of_ok (hx hcurrent.symm hadvance) hd
  exact h (Cursor.closed_advance hclosed hadvance) (hd.trans hc) hrest hfollow

theorem PassesOver.after_advance {f : Token → Rule β}
    (h : (f t).PassesOver depth follow n ts b) :
    (advance >>= f).PassesOver depth follow n (t :: ts) b :=
  .after_token (fun _ _ _ hadvance => hadvance) h

theorem PassesOver.after_eat {f : Token → Rule β} (ht : t.Is which)
    (h : (f t).PassesOver depth follow n ts b) :
    (eat which >>= f).PassesOver depth follow n (t :: ts) b :=
  .after_token (fun _ _ hc hadvance => eat_of_advance ht hc hadvance) h

theorem PassesOver.after_identifier {name : String} {f : Identifier → Rule β}
    (ht : t.Names name) (h : (f ⟨name, t.position⟩).PassesOver depth follow n ts b) :
    (identifier >>= f).PassesOver depth follow n (t :: ts) b :=
  .after_token (fun _ _ hc hadvance => identifier_of_advance ht hc hadvance) h

theorem PassesOver.after_typeName {type : VariableType} {f : VariableType → Rule β}
    (ht : TypeWord t.kind type) (h : (f type).PassesOver depth follow n ts b) :
    (typeName >>= f).PassesOver depth follow n (t :: ts) b :=
  .after_token (fun _ _ hc hadvance => (typeName_apply hc ht).trans (bind_of_ok hadvance _)) h

/-- A last terminal. -/
theorem passesOver_eat (hdepth : depth ≤ maxNesting) (ht : t.Is which) :
    Rule.PassesOver (do let _ ← eat which; return b) depth follow 0 [t] b :=
  .after_eat ht (passesOver_pure hdepth)

end Sequences

/-! ## Combinations -/

/-- One level deeper, if there is one. -/
theorem passesOver_nested {rule : Rule α} {P : Phrase α} {follow : Kind → Prop} {depth n : Nat}
    {ts : List Token} {a : α} (h : depth < maxNesting → rule.Accepts P follow (depth + 1))
    (hphrase : P n ts a) : (nested rule).PassesOver depth follow (n + 1) ts a := by
  intro c c' hclosed hdepth hwalk hfollow
  by_cases hroom : c.depth < maxNesting
  · have hinside : rule.Passes { c with depth := c.depth + 1 } n a
        { c' with depth := c.depth + 1 } :=
      h (hdepth ▸ hroom) hphrase hclosed (by rw [hdepth]) (hwalk.atDepth _) hfollow
    have hback : ({ c' with depth := c.depth + 1 - 1 } : Cursor) = c' := by
      rw [Nat.add_sub_cancel, ← hwalk.depth_eq]
    unfold Passes TooDeep nested
    rw [if_pos hroom]
    split
    · next hn =>
      rw [hinside.ok (by dsimp only; omega)]
      dsimp only
      rw [hback]
    · next hn =>
      obtain ⟨p, d, hfail⟩ := hinside.tooDeep (by dsimp only; omega)
      exact ⟨p, _, by rw [hfail]⟩
  -- no level is left, so the rule is not even tried
  · unfold Passes TooDeep nested
    rw [if_neg (by omega), if_neg hroom]
    exact ⟨c.current.position, c, rfl⟩

/-- A round of a loop that leaves fewer tokens is followed by the loop. -/
theorem many_eq_round {select : Kind → Option β} {item : β → Rule α} {c : Cursor} {b : β}
    (hselect : select c.current.kind = some b)
    (hless : ∀ ⦃a d⦄, item b c = .ok a d → d.remaining < c.remaining) :
    many select item c =
      (do let a ← item b; return a :: (← many select item) : Rule (List α)) c := by
  rw [many, hselect, bind_apply]
  dsimp only
  cases hitem : item b c with
  | error e d => rfl
  | ok a d =>
    dsimp only
    rw [if_pos (hless hitem)]
    cases hmore : many select item d with
    | error e d' => exact (bind_of_error hmore _).symm
    | ok as d' => exact (bind_of_ok hmore fun as => pure (a :: as)).symm

/-- A loop passes a list of phrases, if each of them begins with a token that selects
a round, and such a token may stand behind a phrase. It must not stand behind the
whole list. -/
theorem accepts_many {select : Kind → Option β} {item : β → Rule α} {P : Phrase α}
    {follow : Kind → Prop} {depth : Nat} (hdepth : depth ≤ maxNesting)
    (hround : ∀ {n ts a}, P n ts a → ∃ t us b, ts = t :: us ∧ select t.kind = some b ∧
      (item b).PassesOver depth follow n ts a)
    (hnext : ∀ {kind b}, select kind = some b → follow kind) :
    Accepts (many select item) (Many P) (fun kind => follow kind ∧ select kind = none) depth := by
  intro n ts as hmany
  induction hmany with
  | nil =>
    rintro c c' - hc hwalk ⟨-, hstop⟩
    rw [hwalk.eq_of_nil] at hstop ⊢
    refine passes_of_ok (hc ▸ hdepth) ?_
    rw [many, hstop]
  | @cons n m ts us a as ha hmore ih =>
    obtain ⟨t, us', b, rfl, hselect, hitem⟩ := hround ha
    -- behind this round stands the next one, or else what stands behind the list
    have hlink : Leads us (fun kind => follow kind ∧ select kind = none) follow := by
      cases hmore with
      | nil => exact leads_nil fun _ h => h.1
      | cons hb _ =>
        obtain ⟨t', us'', b', rfl, hselect', -⟩ := hround hb
        exact leads_cons (hnext hselect')
    intro c c' hclosed hc hwalk hfollow
    obtain ⟨d, hfirst, hrest⟩ := hwalk.cut
    obtain ⟨rfl, -, -⟩ := hfirst.uncons
    have hpasses := hitem hclosed hc hfirst (hlink hrest hfollow)
    -- a round that fails leaves nothing to compare, and one that passes ends in `d`
    have hless : ∀ ⦃a' d'⦄, item b c = .ok a' d' → d'.remaining < c.remaining := by
      intro a' d' hok
      by_cases hn : c.depth + n ≤ maxNesting
      · rw [hpasses.ok hn] at hok
        cases hok
        exact hfirst.remaining_lt hclosed
      · obtain ⟨p, d'', hfail⟩ := hpasses.tooDeep hn
        rw [hfail] at hok
        cases hok
    apply Passes.of_eq (many_eq_round hselect hless)
    exact hitem.bind (ih.value (a :: ·)) hlink hclosed hc hwalk hfollow

/-- What stands behind a list whose parts `k` separates or begins. -/
def AfterList (k : Terminal) (follow : Kind → Prop) (kind : Kind) : Prop :=
  follow kind ∧ kind ≠ .terminal k

/-- A class of phrases that all begin with a given word. -/
def BeginsWith (word : Terminal) (P : Phrase α) : Prop :=
  ∀ {n ts a}, P n ts a → ∃ t us, ts = t :: us ∧ t.Is word

/-- The word with which a phrase begins is what stands in front of it. -/
theorem BeginsWith.leads {word : Terminal} {P : Phrase α} {follow follow' : Kind → Prop}
    (h : BeginsWith word P) {n : Nat} {ts : List Token} {a : α} (hphrase : P n ts a)
    (hword : follow (.terminal word)) (us : List Token) : Leads (ts ++ us) follow' follow := by
  obtain ⟨t, us', rfl, ht⟩ := h hphrase
  exact leads_terminal ht hword

/-- A loop over phrases that all begin with one word. -/
theorem accepts_many_on {word : Terminal} {rule : Rule α} {P : Phrase α}
    {follow : Kind → Prop} {depth : Nat} (hdepth : depth ≤ maxNesting)
    (hword : BeginsWith word P) (h : rule.Accepts P follow depth)
    (hnext : follow (.terminal word)) :
    Accepts (many (on word) fun _ => rule) (Many P) (AfterList word follow) depth := by
  have hloop : Accepts (many (on word) fun _ => rule) (Many P)
      (fun kind => follow kind ∧ on word kind = none) depth := by
    refine accepts_many hdepth ?_ ?_
    · intro n ts a hphrase
      obtain ⟨t, us, hts, ht⟩ := hword hphrase
      exact ⟨t, us, (), hts, on_eq_some_iff.mpr ht, h hphrase⟩
    · intro kind _ hselect
      rw [on_eq_some_iff.mp hselect]
      exact hnext
  intro n ts as hphrase
  apply (hloop hphrase).mono
  rintro kind ⟨hfollow, hkind⟩
  exact ⟨hfollow, Option.eq_none_iff_forall_ne_some.mpr fun _ hon =>
    hkind (on_eq_some_iff.mp hon)⟩

theorem beginsWith_preceded {k : Terminal} {P : Phrase α} : BeginsWith k (Preceded k P) := by
  rintro n ts a ⟨hmark, -⟩
  exact ⟨_, _, rfl, hmark⟩

/-- The rounds of a separated list. -/
theorem accepts_rounds {k : Terminal} {rule : Rule α} {P : Phrase α} {follow : Kind → Prop}
    {depth : Nat} (hdepth : depth ≤ maxNesting) (h : rule.Accepts P follow depth)
    (hnext : follow (.terminal k)) :
    Accepts (many (on k) fun _ => do let _ ← advance; rule) (Many (Preceded k P))
      (AfterList k follow) depth := by
  refine accepts_many_on hdepth beginsWith_preceded ?_ hnext
  rintro n ts a ⟨-, ha⟩
  exact .after_advance (h ha)

/-- A first phrase and the loop behind it pass a separated list, and what comes then
gets both. -/
theorem passesOver_separated {k : Terminal} {rule : Rule α} {P : Phrase α}
    {follow follow' : Kind → Prop} {depth n : Nat} {ts us : List Token} {as : List α}
    {f : α → List α → Rule β} {b : β} (hdepth : depth ≤ maxNesting)
    (h : rule.Accepts P follow depth) (hnext : follow (.terminal k))
    (hphrase : Separated k P n ts as)
    (hf : ∀ first others, as = first :: others →
      (f first others).PassesOver depth follow' 0 us b)
    (hlink : Leads us follow' (AfterList k follow)) :
    Rule.PassesOver (do
      let first ← rule
      let others ← many (on k) fun _ => do let _ ← advance; rule
      f first others) depth follow' n (ts ++ us) b := by
  obtain ⟨n, m, ts, us', a, others, ha, hothers, rfl, rfl, rfl⟩ := separated_iff.mp hphrase
  have hrest : Leads (us' ++ us) follow' follow := by
    cases hothers with
    | nil => exact fun _ _ hwalk hbehind => (hlink hwalk hbehind).1
    | cons hround _ =>
      obtain ⟨hmark, -⟩ := hround
      exact leads_terminal hmark hnext
  rw [List.append_assoc]
  exact (h ha).bind ((accepts_rounds hdepth h hnext hothers).and_then (hf a others rfl) hlink) hrest

/-! ## Expressions -/

/-- What is read after a chain must not be one of its operators. -/
def AfterChain (operator? : Kind → Option BinaryOperator) (follow : Kind → Prop)
    (kind : Kind) : Prop :=
  follow kind ∧ operator? kind = none

theorem accepts_chain {operator? : Kind → Option BinaryOperator}
    {Op : Kind → BinaryOperator → Prop} {operand : Rule Expr} {P : Phrase Expr}
    {follow : Kind → Prop} {depth : Nat} (hdepth : depth ≤ maxNesting)
    (hop : ∀ {kind op}, operator? kind = some op ↔ Op kind op)
    (hnext : ∀ {kind op}, Op kind op → follow kind) (h : operand.Accepts P follow depth) :
    (chain operator? operand).Accepts (Chain Op P) (AfterChain operator? follow) depth := by
  have hrounds : Accepts
      (many operator? fun op => do let token ← advance; return ⟨op, token.position, ← operand⟩)
      (Many (Linked Op P)) (AfterChain operator? follow) depth := by
    refine accepts_many hdepth ?_ fun hselect => hnext (hop.mp hselect)
    intro n ts link hlink
    cases hlink with
    | @mk n ts op e mark hmark he =>
      exact ⟨mark, ts, op, rfl, hop.mpr hmark, .after_advance ((h he).value _)⟩
  intro n ts e hphrase
  obtain ⟨n, m, ts, us, first, links, hfirst, hlinks, rfl, rfl, rfl⟩ := chain_iff.mp hphrase
  refine (h hfirst).bind ((hrounds hlinks).value _) ?_
  cases hlinks with
  | nil => exact leads_nil fun _ hstop => hstop.1
  | cons hlink _ =>
    obtain ⟨hmark, -⟩ := hlink
    exact leads_cons (hnext hmark)

/-- What is read after an expression must not continue it. -/
def AfterExpression : Kind → Prop := AfterChain additive? (AfterChain multiplicative? Anything)

theorem accepts_expressionOf {factor : Rule Expr} {P : Phrase Expr} {depth : Nat}
    (hdepth : depth ≤ maxNesting) (h : factor.Accepts P Anything depth) :
    (expressionOf factor).Accepts (Chain Additive (Chain Multiplicative P)) AfterExpression
      depth := by
  refine accepts_chain hdepth additive?_eq_some_iff ?_
    (accepts_chain hdepth multiplicative?_eq_some_iff (fun _ => trivial) h)
  intro kind op hop
  cases hop <;> exact ⟨trivial, rfl⟩

theorem accepts_factorAt {levels depth : Nat} (hlevels : maxNesting < depth + levels)
    (hdepth : depth ≤ maxNesting) : (factorAt levels).Accepts IsFactor Anything depth := by
  induction levels generalizing depth with
  | zero => omega
  | succ levels ih =>
    have hinner : depth < maxNesting → (factorAt levels).Accepts IsFactor Anything (depth + 1) :=
      fun hroom => ih (by omega) hroom
    intro n ts e hphrase
    cases hphrase with
    | signed hop he =>
      exact .of_eq (fun _ hc => factorAt_sign hc hop)
        (.after_advance ((passesOver_nested hinner he).value _))
    | integer hkind =>
      exact .of_eq (fun _ hc => factorAt_integer hc hkind) (.after_advance (passesOver_pure hdepth))
    | real hkind =>
      exact .of_eq (fun _ hc => factorAt_real hc hkind) (.after_advance (passesOver_pure hdepth))
    | name hname =>
      exact .of_eq (fun _ hc => factorAt_variable hc hname)
        (.after_identifier hname (passesOver_pure hdepth))
    | group hopen he hclose =>
      have hinside := passesOver_nested
        (fun hroom => accepts_expressionOf hroom (hinner hroom)) he
      exact .of_eq (fun _ hc => factorAt_group hc hopen)
        (.after_advance (hinside.and_then (passesOver_eat hdepth hclose)
          (leads_terminal hclose ⟨⟨trivial, rfl⟩, rfl⟩)))

theorem accepts_expression {depth : Nat} (hdepth : depth ≤ maxNesting) :
    expression.Accepts IsExpression AfterExpression depth :=
  accepts_expressionOf hdepth (accepts_factorAt (by omega) hdepth)

/-! ## Statements -/

/-- What stands behind a statement. -/
def AfterStatement (kind : Kind) : Prop :=
  kind = .terminal .semicolon ∨ kind = .terminal .endBlock

theorem AfterStatement.afterExpression {kind : Kind} (h : AfterStatement kind) :
    AfterExpression kind := by
  rcases h with rfl | rfl <;> exact ⟨⟨trivial, rfl⟩, rfl⟩

theorem accepts_statementList {statement : Rule Statement} {P : Phrase Statement} {depth : Nat}
    (hdepth : depth ≤ maxNesting) (h : statement.Accepts P AfterStatement depth) :
    (statementList statement).Accepts (Separated .semicolon P) (· = .terminal .endBlock)
      depth := by
  intro n ts body hphrase
  rw [← List.append_nil ts]
  refine passesOver_separated hdepth h (.inl rfl) hphrase ?_ ?_
  · rintro first others rfl c c' hclosed hc hwalk hkind
    rw [hwalk.eq_of_nil] at hkind ⊢
    refine passes_of_ok (hc ▸ hdepth) ?_
    rw [peek_bind, hkind]
    rfl
  · apply leads_nil
    rintro kind rfl
    exact ⟨.inr rfl, nofun⟩

theorem beginsWith_compound {P : Phrase Statement} : BeginsWith .beginBlock (CompoundOf P) := by
  rintro n ts a ⟨hopen, -, -⟩
  exact ⟨_, _, rfl, hopen⟩

theorem accepts_compoundOf {statement : Rule Statement} {P : Phrase Statement} {depth : Nat}
    (h : depth < maxNesting → statement.Accepts P AfterStatement (depth + 1)) :
    (compoundOf statement).Accepts (CompoundOf P) Anything depth := by
  intro n ts body hphrase
  cases hphrase with
  | @mk n ts body opening closing hopen hlist hclose =>
    -- the levels are counted from `BEGIN` on, so the class inside is that of the whole
    -- compound statement, one level less
    refine passesOver_nested (P := fun n ts body => CompoundOf P (n + 1) ts body) ?_
      (.mk hopen hlist hclose)
    intro hroom n ts body hphrase
    cases hphrase with
    | mk hopen hlist hclose =>
      exact .after_eat hopen ((accepts_statementList hroom (h hroom) hlist).and_then
        (passesOver_eat hroom hclose) (leads_terminal hclose rfl))

theorem passesOver_assignment {depth n : Nat} {ts : List Token} {e : Expr} {name : String}
    {target mark : Token} (hdepth : depth ≤ maxNesting) (htarget : target.Names name)
    (hmark : mark.Is .assign) (he : IsExpression n ts e) :
    assignment.PassesOver depth AfterExpression n (target :: mark :: ts)
      (.assign ⟨name, target.position⟩ e mark.position) :=
  .after_identifier htarget (.after_eat hmark ((accepts_expression hdepth he).value _))

theorem accepts_statementAt {levels depth : Nat} (hlevels : maxNesting < depth + levels)
    (hdepth : depth ≤ maxNesting) :
    (statementAt levels).Accepts IsStatement AfterStatement depth := by
  induction levels generalizing depth with
  | zero => omega
  | succ levels ih =>
    intro n ts s hphrase
    cases hphrase with
    | empty =>
      -- nothing is a statement only because of the token behind it, which is no first
      -- token of another one
      intro c c' hclosed hc hwalk hfollow
      rw [hwalk.eq_of_nil] at hfollow ⊢
      refine passes_of_ok (hc ▸ hdepth) (statementAt_empty ?_ ?_)
      · intro hbegin
        rw [show c.current.kind = .terminal .beginBlock from hbegin] at hfollow
        rcases hfollow with h | h <;> cases h
      · intro name hname
        rw [show c.current.kind = .identifier name from hname] at hfollow
        rcases hfollow with h | h <;> cases h
    | assign htarget hmark he =>
      refine .of_eq ?_ ((passesOver_assignment hdepth htarget hmark he).mono
        fun _ => AfterStatement.afterExpression)
      rintro c rfl
      exact statementAt_assignment htarget
    | compound hbody =>
      have hinside : (compoundOf (statementAt levels)).Accepts (CompoundOf IsStatement) Anything
          depth := accepts_compoundOf fun hroom => ih (by omega) hroom
      obtain ⟨t, us, rfl, hbegin⟩ := beginsWith_compound hbody
      refine .of_eq ?_ (((hinside hbody).value _).mono fun _ _ => trivial)
      rintro c rfl
      exact statementAt_compound hbegin

theorem accepts_compound {depth : Nat} : compound.Accepts IsCompound Anything depth :=
  accepts_compoundOf fun hroom => accepts_statementAt (by omega) hroom

/-! ## Declarations -/

theorem accepts_identifier {depth : Nat} (hdepth : depth ≤ maxNesting) :
    identifier.Accepts IsIdentifier Anything depth := by
  intro n ts name hphrase c c' hclosed hc hwalk hfollow
  cases hphrase with
  | mk hname =>
    obtain ⟨hcurrent, -, d, hadvance, hrest⟩ := hwalk.uncons
    rw [hrest.eq_of_nil]
    exact passes_of_ok (hc ▸ hdepth) (identifier_of_advance hname hcurrent.symm hadvance)

theorem accepts_variableLine {depth : Nat} (hdepth : depth ≤ maxNesting) :
    variableLine.Accepts IsVariableLine Anything depth := by
  intro n ts declared hphrase
  cases hphrase with
  | mk hnames hcolon hword =>
    refine passesOver_separated hdepth (accepts_identifier hdepth) trivial hnames ?_
      (leads_terminal hcolon ⟨trivial, nofun⟩)
    rintro first others rfl
    exact .after_eat hcolon (.after_typeName hword (passesOver_pure hdepth))

/-- The rule for a line of declarations with its semicolon. -/
theorem accepts_variableEntry {depth : Nat} (hdepth : depth ≤ maxNesting) :
    Accepts (do
      let declared ← variableLine
      let _ ← eat .semicolon
      return declared) IsVariableEntry Anything depth := by
  intro n ts declared hphrase
  cases hphrase with
  | mk hline hmark =>
    exact (accepts_variableLine hdepth hline).and_then (passesOver_eat hdepth hmark) leads_anything

/-- A line of declarations begins with a name. -/
theorem exists_name_of_variableEntry {n : Nat} {ts : List Token} {declared : List Declaration}
    (h : IsVariableEntry n ts declared) : ∃ t us name, ts = t :: us ∧ t.Names name := by
  obtain ⟨hline, hmark⟩ := h
  obtain ⟨hnames, hcolon, hword⟩ := hline
  obtain ⟨n, m, us, vs, first, others, hfirst, -, -, rfl, -⟩ := separated_iff.mp hnames
  obtain ⟨hname⟩ := hfirst
  exact ⟨_, _, _, rfl, hname⟩

/-- What stands behind a section of variables. -/
def AfterSection (kind : Kind) : Prop := onIdentifier kind = none

theorem accepts_variableSection {depth : Nat} (hdepth : depth ≤ maxNesting) :
    variableSection.Accepts IsVariableSection AfterSection depth := by
  intro n ts declared hphrase
  cases hphrase with
  | mk hword hfirst hothers =>
    have hloop : Accepts (many onIdentifier fun _ => do
          let declared ← variableLine
          let _ ← eat .semicolon
          return declared)
        (Many IsVariableEntry) (fun kind => Anything kind ∧ onIdentifier kind = none) depth := by
      refine accepts_many hdepth ?_ fun _ => trivial
      intro n ts a hentry
      obtain ⟨t, us, name, hts, hname⟩ := exists_name_of_variableEntry hentry
      exact ⟨t, us, (), hts, onIdentifier_eq_some_iff.mpr ⟨name, hname⟩,
        accepts_variableEntry hdepth hentry⟩
    have hlines := (hloop hothers).mono fun _ hkind => ⟨trivial, hkind⟩
    exact .after_advance ((accepts_variableEntry hdepth hfirst).bind (hlines.value _)
      leads_anything)

theorem beginsWith_section : BeginsWith .var IsVariableSection := by
  rintro n ts a ⟨hword, -, -⟩
  exact ⟨_, _, rfl, hword⟩

theorem beginsWith_procedure : BeginsWith .procedure IsProcedure := by
  rintro n ts a ⟨hword, -, -, -, -⟩
  exact ⟨_, _, rfl, hword⟩

theorem accepts_blockOf {procedure : Rule Declaration} {P : Phrase Declaration} {depth : Nat}
    (hdepth : depth ≤ maxNesting) (hword : BeginsWith .procedure P)
    (h : procedure.Accepts P Anything depth) :
    (blockOf procedure).Accepts (BlockOf P) Anything depth := by
  rw [blockOf_eq]
  intro n ts block hphrase
  cases hphrase with
  | @mk n m k ts us vs sections procedures body hsections hprocedures hbody =>
    have hbegin : ∀ follow : Kind → Prop, follow (.terminal .beginBlock) →
        Leads vs Anything follow := by
      intro follow hfollow
      rw [← List.append_nil vs]
      exact beginsWith_compound.leads hbody hfollow []
    -- behind the sections stands the first procedure, or else the body
    have hbehind : Leads (us ++ vs) Anything (AfterList .var AfterSection) := by
      cases hprocedures with
      | nil => exact hbegin _ ⟨rfl, nofun⟩
      | cons hfirst _ =>
        rw [List.append_assoc]
        exact hword.leads hfirst ⟨rfl, nofun⟩ _
    have hfirst := accepts_many_on hdepth beginsWith_section (accepts_variableSection hdepth) rfl
      hsections
    have hsecond := accepts_many_on hdepth hword h trivial hprocedures
    exact hfirst.bind (hsecond.bind ((accepts_compound hbody).value _)
      (hbegin _ ⟨trivial, nofun⟩)) hbehind

theorem accepts_procedureAt {levels depth : Nat} (hlevels : maxNesting < depth + levels)
    (hdepth : depth ≤ maxNesting) :
    (procedureAt levels).Accepts IsProcedure Anything depth := by
  induction levels generalizing depth with
  | zero => omega
  | succ levels ih =>
    intro n ts p hphrase
    cases hphrase with
    | mk hword htitle hmark hblock hclosing =>
      have hbody : depth < maxNesting →
          (blockOf (procedureAt levels)).Accepts IsBlock Anything (depth + 1) :=
        fun hroom => accepts_blockOf hroom beginsWith_procedure (ih (by omega) hroom)
      have hinside := passesOver_nested hbody hblock
      rw [procedureAt]
      exact .after_eat hword (.after_identifier htitle (.after_eat hmark
        (hinside.and_then (passesOver_eat hdepth hclosing) leads_anything)))

theorem accepts_block {depth : Nat} (hdepth : depth ≤ maxNesting) :
    block.Accepts IsBlock Anything depth :=
  accepts_blockOf hdepth beginsWith_procedure (accepts_procedureAt (by omega) hdepth)

/-! ## Programs -/

theorem accepts_program {depth : Nat} (hdepth : depth ≤ maxNesting) :
    program.Accepts IsProgram Anything depth := by
  intro n ts p hphrase
  cases hphrase with
  | mk hword htitle hmark hblock hdot =>
    exact .after_eat hword (.after_identifier htitle (.after_eat hmark
      ((accepts_block hdepth hblock).and_then (passesOver_eat hdepth hdot) leads_anything)))

/-- A whole program is passed if there is nothing behind it. -/
theorem passes_wholeProgram {c c' : Cursor} {n : Nat} {ts : List Token} {p : Program}
    (hdepth : c.depth ≤ maxNesting) (hclosed : c.Closed) (hphrase : IsProgram n ts p)
    (hwalk : c.Walks ts c') (hend : c'.current.kind.isEnd = true) :
    wholeProgram.Passes c n p c' := by
  refine (accepts_program hdepth hphrase hclosed rfl hwalk trivial).then_ok ?_
  rw [peek_bind, hend]
  rfl

end Rule

end MiniPascal
