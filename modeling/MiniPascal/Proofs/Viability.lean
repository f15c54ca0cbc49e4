/-
`Viability.lean` -- a rule that fails has not gone astray.

Some tokens begin a phrase of a class if they can be continued to one (`Begins`). Where a
rule fails, the tokens that it has passed begin a phrase of its class, and the reason that
it gives is a good one: each token that it asks for can stand there, or it would have to go
deeper than is allowed, or the next piece of text is no token (`Verdict`). This is the
other half of soundness, for the outcomes that are no success.

A part of a rule knows nothing about what follows it. So the statement for a part is made
behind the tokens in front of it and within the class of the whole (`FailsBehind`), and
every class has phrases, with which the rest can be filled in.

The list of statements needs the context: it is refused in front of a name, since neither a
semicolon nor an `END` is there, and that `END` would do can only be said of the compound
statement around it.
-/
import MiniPascal.Proofs.Soundness

set_option autoImplicit false

namespace MiniPascal

/-! ## Beginnings -/

/-- A token that is written as the terminal is. -/
def Terminal.token (which : Terminal) : Token := ⟨.terminal which, which.spelling, .start⟩

theorem Terminal.token_is (which : Terminal) : which.token.Is which := rfl

namespace Phrase

variable {α β : Type} {n m : Nat} {ts us : List Token} {a : α}

/-- The tokens can be continued to a phrase of the class. -/
def Begins (P : Phrase α) (us : List Token) : Prop := ∃ vs n a, P n (us ++ vs) a

/-- The first tokens of a phrase begin it. -/
theorem begins_of_eq {P : Phrase α} {vs : List Token} (h : P n vs a) (hts : vs = ts ++ us) :
    Begins P ts :=
  ⟨us, n, a, hts ▸ h⟩

theorem begins_of_phrase {P : Phrase α} (h : P n ts a) : Begins P ts :=
  begins_of_eq h (List.append_nil ts).symm

theorem begins_nil {P : Phrase α} (h : P n ts a) : Begins P [] := begins_of_eq h rfl

theorem Begins.of_append {P : Phrase α} (h : Begins P (us ++ ts)) : Begins P us := by
  obtain ⟨vs, n, a, h⟩ := h
  exact ⟨ts ++ vs, n, a, by rwa [← List.append_assoc]⟩

/-- What begins a phrase of one class begins one of another class behind `ts`, if that is
so of its phrases. -/
theorem Begins.behind {P : Phrase α} {Q : Phrase β} (h : Begins P us)
    (hQ : ∀ {n vs a}, P n vs a → Begins Q (ts ++ vs)) : Begins Q (ts ++ us) := by
  obtain ⟨vs, n, a, h⟩ := h
  have hwhole := hQ h
  rw [← List.append_assoc] at hwhole
  exact hwhole.of_append

/-- What phrases of one class can stand behind begins a phrase of the other class. -/
theorem begins_front {P : Phrase α} {Q : Phrase β} (hsome : Begins P [])
    (hQ : ∀ {n vs a}, P n vs a → Begins Q (ts ++ vs)) : Begins Q ts := by
  have hwhole := hsome.behind hQ
  rwa [List.append_nil] at hwhole

end Phrase

open Phrase

/-! ## What can be expected -/

/-- The kinds of the tokens that an expectation names. -/
def Expectation.Allows : Expectation → Kind → Prop
  | .terminal which, kind => kind = .terminal which
  | .identifier, kind => ∃ name, kind = .identifier name
  | .typeName, kind => kind = .terminal .integer ∨ kind = .terminal .real
  | .expression, kind =>
    (∃ value, kind = .integerConstant value) ∨ (∃ value, kind = .realConstant value) ∨
      (∃ name, kind = .identifier name) ∨ kind = .terminal .leftParen ∨
      kind = .terminal .plus ∨ kind = .terminal .minus
  | .separatorOrEnd, kind => kind = .terminal .semicolon ∨ kind = .terminal .endBlock

theorem Expectation.exists_allowed (what : Expectation) : ∃ t : Token, what.Allows t.kind := by
  cases what with
  | terminal which => exact ⟨which.token, rfl⟩
  | identifier => exact ⟨⟨.identifier "a", "a", .start⟩, "a", rfl⟩
  | typeName => exact ⟨Terminal.integer.token, .inl rfl⟩
  | expression => exact ⟨⟨.integerConstant 0, "0", .start⟩, .inl ⟨0, rfl⟩⟩
  | separatorOrEnd => exact ⟨Terminal.semicolon.token, .inl rfl⟩

/-! ## Verdicts -/

/-- Why reading has stopped on the cursor `d`, with the tokens `us` passed. -/
inductive Verdict (Q : List Token → Prop) (us : List Token) (d : Cursor) :
    Error ReadingFault → Prop
  /-- Behind the current token, which is in order, there is a piece of text that is no
  token. -/
  | lexical {e s} :
      d.current.kind.isEnd = false → d.stream.read = (.error e, s) → Q (us ++ [d.current]) →
      Verdict Q us d (e.map .lexical)
  /-- Every token that was expected would have been in order. -/
  | unexpected {what} :
      (∀ t : Token, what.Allows t.kind → Q (us ++ [t])) → Verdict Q us d (d.unexpected what)
  /-- A further level is not to be had. -/
  | tooDeep : Q us → Verdict Q us d (d.fault (.nestingTooDeep maxNesting))

theorem Verdict.behind {Q Q' : List Token → Prop} {ts us : List Token} {d : Cursor}
    {e : Error ReadingFault} (h : Verdict Q us d e) (hQ : ∀ us, Q us → Q' (ts ++ us)) :
    Verdict Q' (ts ++ us) d e := by
  cases h with
  | lexical hend hread hus =>
    refine .lexical hend hread ?_
    rw [List.append_assoc]
    exact hQ _ hus
  | unexpected hallowed =>
    refine .unexpected fun t ht => ?_
    rw [List.append_assoc]
    exact hQ _ (hallowed t ht)
  | tooDeep hus => exact .tooDeep (hQ _ hus)

namespace Rule

variable {α β : Type}

/-- Behind the tokens `ts`, the rule fails from `c` only with a verdict. -/
def FailsBehind (rule : Rule α) (Q : List Token → Prop) (ts : List Token) (c : Cursor) : Prop :=
  ∀ ⦃e m⦄, rule c = .error e m → ∃ us d, c.Walks us d ∧ Verdict Q (ts ++ us) d e

/-- The rule fails only within its class. -/
def Fails (rule : Rule α) (P : Phrase α) : Prop := ∀ c, rule.FailsBehind (Begins P) [] c

/-! ## Combinations -/

section Combinations

variable {c : Cursor} {Q : List Token → Prop} {ts : List Token} {which : Terminal}

/-- A rule that fails within its class fails within another one, in which phrases of its
class can stand behind `ts`. -/
theorem Fails.behind {rule : Rule α} {P : Phrase α} {Q : Phrase β} (h : rule.Fails P)
    (hQ : ∀ {n vs a}, P n vs a → Begins Q (ts ++ vs)) :
    rule.FailsBehind (Begins Q) ts c := by
  intro e m herror
  obtain ⟨us, d, hwalk, hverdict⟩ := h c herror
  exact ⟨us, d, hwalk, hverdict.behind fun us hus => hus.behind hQ⟩

theorem FailsBehind.of_eq {rule rule' : Rule α} (heq : rule c = rule' c)
    (h : rule'.FailsBehind Q ts c) : rule.FailsBehind Q ts c := by
  intro e m herror
  rw [heq] at herror
  exact h herror

theorem failsBehind_pure (a : α) : (pure a : Rule α).FailsBehind Q ts c := by
  intro e m herror
  cases herror

theorem failsBehind_expected {what : Expectation}
    (h : ∀ t : Token, what.Allows t.kind → Q (ts ++ [t])) :
    (expected what : Rule α).FailsBehind Q ts c := by
  intro e m herror
  cases herror
  refine ⟨[], c, .stay c, ?_⟩
  rw [List.append_nil]
  exact .unexpected h

theorem failsBehind_tooDeep (h : Q ts) :
    (refuse (.nestingTooDeep maxNesting) : Rule α).FailsBehind Q ts c := by
  intro e m herror
  cases herror
  refine ⟨[], c, .stay c, ?_⟩
  rw [List.append_nil]
  exact .tooDeep h

theorem failsBehind_advance (hend : c.current.kind.isEnd = false) (h : Q (ts ++ [c.current])) :
    advance.FailsBehind Q ts c := by
  intro e m herror
  unfold advance at herror
  split at herror
  · cases herror
  · next e' s hread =>
    cases herror
    refine ⟨[], c, .stay c, ?_⟩
    rw [List.append_nil]
    exact .lexical hend hread h

theorem failsBehind_eat (h : ∀ t : Token, t.Is which → Q (ts ++ [t])) :
    (eat which).FailsBehind Q ts c := by
  by_cases hkind : c.current.Is which
  · refine (failsBehind_advance hkind.not_end (h _ hkind)).of_eq ?_
    rw [eat_apply, if_pos (Kind.alike_terminal_iff.mpr hkind)]
  · have hexpected : (expected (.terminal which) : Rule Token).FailsBehind Q ts c :=
      failsBehind_expected h
    refine hexpected.of_eq ?_
    rw [eat_apply, if_neg (mt Kind.alike_terminal_iff.mp hkind)]

/-- One part behind the other. -/
theorem FailsBehind.bind {x : Rule α} {f : α → Rule β} {P : Phrase α}
    (hx : x.FailsBehind Q ts c) (hreads : x.ReadsFrom P c)
    (hf : ∀ {n us a d}, P n us a → (f a).FailsBehind Q (ts ++ us) d) :
    (x >>= f).FailsBehind Q ts c := by
  intro e m herror
  cases hfirst : x c with
  | error e' m' =>
    rw [bind_of_error hfirst] at herror
    cases herror
    exact hx hfirst
  | ok a d =>
    rw [bind_of_ok hfirst] at herror
    obtain ⟨n, us, hwalk, hphrase, -⟩ := hreads hfirst
    obtain ⟨vs, d', hwalk', hverdict⟩ := hf hphrase herror
    refine ⟨us ++ vs, d', hwalk.trans hwalk', ?_⟩
    rwa [← List.append_assoc]

/-- The value of a part is put to use. -/
theorem FailsBehind.value {x : Rule α} (h : x.FailsBehind Q ts c) (g : α → β) :
    Rule.FailsBehind (do return g (← x)) Q ts c := by
  intro e m herror
  cases hfirst : x c with
  | error e' m' =>
    have hfail := bind_of_error hfirst fun a => pure (g a)
    rw [hfail] at herror
    cases herror
    exact h hfirst
  | ok a d =>
    have hdone := bind_of_ok hfirst fun a => pure (g a)
    rw [hdone] at herror
    cases herror

theorem FailsBehind.after_advance {f : Token → Rule β} (hend : c.current.kind.isEnd = false)
    (h : Q (ts ++ [c.current])) (hf : ∀ d, (f c.current).FailsBehind Q (ts ++ [c.current]) d) :
    (advance >>= f).FailsBehind Q ts c := by
  have hreads : ReadsFrom advance (fun _ us t => us = [c.current] ∧ t = c.current) c := by
    intro t d hok
    obtain ⟨rfl, hwalk⟩ := walks_of_advance hend hok
    exact ⟨0, _, hwalk, ⟨rfl, rfl⟩, c.allows_zero⟩
  refine (failsBehind_advance hend h).bind hreads ?_
  rintro n us t d ⟨rfl, rfl⟩
  exact hf d

theorem FailsBehind.after_eat {f : Token → Rule β} (h : ∀ t : Token, t.Is which → Q (ts ++ [t]))
    (hf : ∀ (t : Token) (d : Cursor), t.Is which → (f t).FailsBehind Q (ts ++ [t]) d) :
    (eat which >>= f).FailsBehind Q ts c := by
  have hreads : ReadsFrom (eat which) (fun _ us t => us = [t] ∧ t.Is which) c := by
    intro t d hok
    obtain ⟨ht, hwalk⟩ := walks_of_eat hok
    exact ⟨0, _, hwalk, ⟨rfl, ht⟩, c.allows_zero⟩
  refine (failsBehind_eat h).bind hreads ?_
  rintro n us t d ⟨rfl, ht⟩
  exact hf t d ht

/-- A last terminal. -/
theorem failsBehind_last {b : β} (h : ∀ t : Token, t.Is which → Q (ts ++ [t])) :
    Rule.FailsBehind (do let _ ← eat which; return b) Q ts c :=
  .after_eat h fun _ _ _ => failsBehind_pure b

theorem failsBehind_identifier
    (h : ∀ (t : Token) (name : String), t.Names name → Q (ts ++ [t])) :
    identifier.FailsBehind Q ts c := by
  by_cases hname : ∃ name, c.current.Names name
  · obtain ⟨name, hname⟩ := hname
    have hadvance : (do
        let _ ← advance
        return ⟨name, c.current.position⟩ : Rule Identifier).FailsBehind Q ts c :=
      .after_advance hname.not_end (h _ _ hname) fun _ => failsBehind_pure _
    refine hadvance.of_eq ?_
    unfold identifier
    rw [here_bind, peek_bind, show c.current.kind = .identifier name from hname]
  · have hexpected : (expected .identifier : Rule Identifier).FailsBehind Q ts c :=
      failsBehind_expected fun t ⟨name, ht⟩ => h t name ht
    refine hexpected.of_eq ?_
    unfold identifier
    rw [here_bind, peek_bind]
    cases hkind : c.current.kind with
    | identifier name => exact absurd ⟨name, hkind⟩ hname
    | _ => rfl

theorem FailsBehind.after_identifier {f : Identifier → Rule β}
    (h : ∀ (t : Token) (name : String), t.Names name → Q (ts ++ [t]))
    (hf : ∀ (t : Token) (name : String) (d : Cursor), t.Names name →
      (f ⟨name, t.position⟩).FailsBehind Q (ts ++ [t]) d) :
    (identifier >>= f).FailsBehind Q ts c := by
  refine (failsBehind_identifier h).bind (reads_identifier c) ?_
  rintro n us name d ⟨ht⟩
  exact hf _ _ d ht

theorem failsBehind_nested {rule : Rule α} (hQ : Q ts) (h : ∀ c, rule.FailsBehind Q ts c) :
    (nested rule).FailsBehind Q ts c := by
  by_cases hroom : c.depth < maxNesting
  · intro e m herror
    rw [nested, if_pos hroom] at herror
    split at herror
    · cases herror
    · next e m hrule =>
      cases herror
      obtain ⟨us, d, hwalk, hverdict⟩ := h _ hrule
      -- a verdict does not ask for the depth
      refine ⟨us, { d with depth := c.depth }, hwalk.atDepth c.depth, ?_⟩
      cases hverdict with
      | lexical hend hread hus => exact .lexical hend hread hus
      | unexpected hallowed => exact .unexpected hallowed
      | tooDeep hus => exact .tooDeep hus
  · refine (failsBehind_tooDeep hQ).of_eq ?_
    rw [nested, if_neg hroom]

/-- A loop fails in one of its rounds, with the rounds before it passed. -/
theorem failsBehind_many {γ : Type} {select : Kind → Option γ} {item : γ → Rule α} {P : Phrase α}
    {Q : Phrase β} (hreads : ∀ b c, select c.current.kind = some b → (item b).ReadsFrom P c)
    (h : ∀ b c, select c.current.kind = some b → (item b).FailsBehind (Begins P) [] c)
    (hQ : ∀ {n us as}, Many P n us as → Begins Q (ts ++ us)) :
    FailsBehind (many select item) (Begins Q) ts c := by
  induction hleft : c.remaining using Nat.strongRecOn generalizing c ts with
  | ind left ih =>
    intro e m herror
    rw [many] at herror
    split at herror
    · cases herror
    · next b hselect =>
      split at herror
      · next e' m' hitem =>
        cases herror
        obtain ⟨us, d, hwalk, hverdict⟩ := h b c hselect hitem
        exact ⟨us, d, hwalk, hverdict.behind fun us hus => hus.behind fun ha => hQ (.one ha)⟩
      · next a d hitem =>
        obtain ⟨n, us, hwalk, hphrase, -⟩ := hreads b c hselect hitem
        split at herror
        · next hless =>
          split at herror
          · next e' m' hmore =>
            cases herror
            have hrest : ∀ {n vs as}, Many P n vs as → Begins Q (ts ++ us ++ vs) := by
              intro n vs as hmany
              rw [List.append_assoc]
              exact hQ (.cons hphrase hmany)
            obtain ⟨vs, d', hwalk', hverdict⟩ := ih _ (hleft ▸ hless) hrest rfl hmore
            refine ⟨us ++ vs, d', hwalk.trans hwalk', ?_⟩
            rwa [← List.append_assoc]
          · cases herror
        · cases herror

/-- A part one level deeper, and then another one. -/
theorem FailsBehind.after_nested {rule : Rule α} {f : α → Rule β} {P : Phrase α} (hQ : Q ts)
    (h : ∀ c, rule.FailsBehind Q ts c) (hreads : rule.Reads P)
    (hf : ∀ {n us a d}, P n us a → (f a).FailsBehind Q (ts ++ us) d) :
    (nested rule >>= f).FailsBehind Q ts c := by
  have hinside : (nested rule).ReadsFrom (fun _ us a => ∃ n, P n us a) c := by
    intro a d hok
    obtain ⟨n, us, hwalk, hphrase, -⟩ := exists_of_nested hreads hok
    exact ⟨0, us, hwalk, ⟨n, hphrase⟩, c.allows_zero⟩
  refine (failsBehind_nested hQ h).bind hinside ?_
  rintro - us a d ⟨n, hphrase⟩
  exact hf hphrase

/-- The rounds of a separated list, behind its first phrase. -/
theorem failsBehind_rounds {k : Terminal} {rule : Rule α} {P : Phrase α} {Q : Phrase β} {n : Nat}
    {us : List Token} {first : α} (hsome : Begins P []) (hreads : rule.Reads P) (h : rule.Fails P)
    (hfirst : P n us first)
    (hQ : ∀ {n vs as}, Separated k P n vs as → Begins Q (ts ++ vs)) :
    FailsBehind (many (on k) fun _ => do let _ ← advance; rule) (Begins Q) (ts ++ us) c := by
  refine failsBehind_many (P := Preceded k P)
    (fun _ c hselect => reads_preceded hreads c (on_eq_some_iff.mp hselect)) ?_ ?_
  · intro _ c hselect
    have hmark : c.current.Is k := on_eq_some_iff.mp hselect
    have hround : ∀ {n vs a}, P n vs a → Begins (Preceded k P) ([c.current] ++ vs) :=
      fun ha => begins_of_phrase (.mk hmark ha)
    exact .after_advance hmark.not_end (begins_front hsome hround) fun _ => h.behind hround
  · intro m vs others hothers
    rw [List.append_assoc]
    exact hQ (.of_rounds hfirst hothers)

end Combinations

/-! ## Expressions -/

theorem begins_factor : Begins IsFactor [] :=
  begins_nil (.integer (t := ⟨.integerConstant 0, "0", .start⟩) rfl)

theorem begins_expression : Begins IsExpression [] := by
  obtain ⟨vs, n, e, h⟩ := begins_factor
  exact begins_nil (.single (.single h))

theorem fails_chain {operator? : Kind → Option BinaryOperator}
    {Op : Kind → BinaryOperator → Prop} {operand : Rule Expr} {P : Phrase Expr}
    (hop : ∀ {kind op}, operator? kind = some op ↔ Op kind op)
    (hend : ∀ {kind op}, Op kind op → kind.isEnd = false) (hsome : Begins P [])
    (hreads : operand.Reads P) (h : operand.Fails P) :
    (chain operator? operand).Fails (Chain Op P) := by
  intro c
  refine FailsBehind.bind (h.behind fun he => begins_of_phrase (.single he)) (hreads c) ?_
  intro n us first d hfirst
  refine (failsBehind_many (reads_linked hop hend hreads) ?_ ?_).value _
  · intro op c hselect
    have hlinked : ∀ {n vs e}, P n vs e → Begins (Linked Op P) ([c.current] ++ vs) :=
      fun he => begins_of_phrase (.mk (hop.mp hselect) he)
    exact .after_advance (hend (hop.mp hselect)) (begins_front hsome hlinked) fun d =>
      (h.behind hlinked).value _
  · intro m vs links hlinks
    exact begins_of_phrase ((Chain.single hfirst).links hlinks)

theorem fails_expressionOf {factor : Rule Expr} {P : Phrase Expr} (hsome : Begins P [])
    (hreads : factor.Reads P) (h : factor.Fails P) :
    (expressionOf factor).Fails (Chain Additive (Chain Multiplicative P)) := by
  have hterm : Begins (Chain Multiplicative P) [] := by
    obtain ⟨vs, n, e, h⟩ := hsome
    exact begins_nil (.single h)
  exact fails_chain additive?_eq_some_iff Additive.not_end hterm (reads_termOf hreads)
    (fails_chain multiplicative?_eq_some_iff Multiplicative.not_end hsome hreads h)

theorem begins_of_sign {t : Token} {op : UnaryOperator} (h : Sign t.kind op) :
    Begins IsFactor [t] :=
  begins_front begins_factor fun he => begins_of_phrase (IsFactor.signed h he)

theorem begins_of_leftParen {t : Token} (h : t.Is .leftParen) {n : Nat} {vs : List Token} {e : Expr}
    (he : IsExpression n vs e) : Begins IsFactor ([t] ++ vs) :=
  ⟨[Terminal.rightParen.token], n + 1, e, .group h he (Terminal.token_is _)⟩

/-- Whatever is called an expression can begin one. -/
theorem begins_of_allowed {t : Token} (h : Expectation.expression.Allows t.kind) :
    Begins IsFactor [t] := by
  rcases h with ⟨value, h⟩ | ⟨value, h⟩ | ⟨name, h⟩ | h | h | h
  · exact begins_of_phrase (.integer h)
  · exact begins_of_phrase (.real h)
  · exact begins_of_phrase (.name h)
  · exact begins_front begins_expression (begins_of_leftParen h)
  · exact begins_of_sign (h ▸ Sign.plus)
  · exact begins_of_sign (h ▸ Sign.minus)

theorem fails_factorAt (levels : Nat) : (factorAt levels).Fails IsFactor := by
  induction levels with
  | zero => exact fun c => failsBehind_tooDeep begins_factor
  | succ levels ih =>
    intro c
    cases factorStart c.current with
    | sign hop =>
      refine .of_eq (factorAt_sign rfl hop) (.after_advance hop.not_end (begins_of_sign hop) ?_)
      intro d
      exact (failsBehind_nested (begins_of_sign hop) fun c =>
        ih.behind fun he => begins_of_phrase (IsFactor.signed hop he)).value _
    | group hgroup =>
      have hopen : Begins IsFactor [c.current] :=
        begins_front begins_expression (begins_of_leftParen hgroup)
      refine .of_eq (factorAt_group rfl hgroup) (.after_advance hgroup.not_end hopen ?_)
      intro d
      refine .after_nested hopen (fun c => ?_) (reads_expressionOf (reads_factorAt levels)) ?_
      · exact (fails_expressionOf begins_factor (reads_factorAt levels) ih).behind
          (begins_of_leftParen hgroup)
      · intro n us e d he
        exact failsBehind_last fun t ht => begins_of_phrase (IsFactor.group hgroup he ht)
    | integer hkind =>
      exact .of_eq (factorAt_integer rfl hkind) (.after_advance (by rw [hkind]; rfl)
        (begins_of_phrase (.integer hkind)) fun _ => failsBehind_pure _)
    | real hkind =>
      exact .of_eq (factorAt_real rfl hkind) (.after_advance (by rw [hkind]; rfl)
        (begins_of_phrase (.real hkind)) fun _ => failsBehind_pure _)
    | name hnames =>
      exact .of_eq (factorAt_variable rfl hnames) ((failsBehind_identifier fun t name ht =>
        begins_of_phrase (.name ht)).value _)
    | other hother =>
      exact .of_eq (hother levels c rfl) (failsBehind_expected fun t ht => begins_of_allowed ht)

theorem fails_expression : expression.Fails IsExpression :=
  fails_expressionOf begins_factor (reads_factorAt _) (fails_factorAt _)

/-! ## Statements -/

theorem begins_statement : Begins IsStatement [] := begins_of_phrase .empty

theorem fails_assignment : assignment.Fails IsStatement := by
  have hwhole : ∀ {target mark : Token} {name n vs e}, target.Names name → mark.Is .assign →
      IsExpression n vs e → Begins IsStatement ([target, mark] ++ vs) :=
    fun ht hmark he => begins_of_phrase (.assign ht hmark he)
  intro c
  refine .after_identifier (fun t name ht => ?_) fun target name d htarget => ?_
  · have hopened : Begins IsStatement ([t] ++ [Terminal.assign.token]) :=
      begins_front begins_expression (hwhole ht (Terminal.token_is _))
    exact hopened.of_append
  refine .after_eat (fun t ht => begins_front begins_expression (hwhole htarget ht)) ?_
  intro mark d hmark
  exact (fails_expression.behind (hwhole htarget hmark)).value _

/-- A separated list goes on. -/
theorem exists_separated_concat {k : Terminal} {P : Phrase α} {n m : Nat} {ts us : List Token}
    {as : List α} {b : α} {mark : Token} (h : Separated k P n ts as) (hmark : mark.Is k)
    (hb : P m us b) : ∃ l, Separated k P l (ts ++ mark :: us) (as ++ [b]) := by
  induction h with
  | single ha => exact ⟨_, .cons ha hmark (.single hb)⟩
  | @cons n' m' ts us a as mark' ha hmark' _ ih =>
    obtain ⟨l, hrest⟩ := ih
    refine ⟨max n' l, ?_⟩
    rw [List.append_assoc]
    exact .cons ha hmark' hrest

theorem failsBehind_statementList {statement : Rule Statement} {P : Phrase Statement}
    {opening : Token} {c : Cursor} (hopen : opening.Is .beginBlock) (hsome : Begins P [])
    (hreads : statement.Reads P) (h : statement.Fails P) :
    (statementList statement).FailsBehind (Begins (CompoundOf P)) [opening] c := by
  have hwhole : ∀ {n us body}, Separated .semicolon P n us body →
      Begins (CompoundOf P) ([opening] ++ us) :=
    fun hlist => ⟨[Terminal.endBlock.token], _, _, .mk hopen hlist (Terminal.token_is _)⟩
  refine FailsBehind.bind (h.behind fun hs => hwhole (.single hs)) (hreads c) ?_
  intro n us first d hfirst
  refine FailsBehind.bind (failsBehind_rounds hsome hreads h hfirst hwhole)
    (reads_rounds hreads d) ?_
  intro m vs others d hothers
  have hlist : Separated .semicolon P (max n m) (us ++ vs) (first :: others) :=
    .of_rounds hfirst hothers
  cases hname : (onIdentifier d.current.kind).isSome with
  | false =>
    refine (failsBehind_pure (first :: others)).of_eq ?_
    rw [peek_bind, hname]
    rfl
  | true =>
    have hexpected : (expected .separatorOrEnd : Rule (List Statement)).FailsBehind
        (Begins (CompoundOf P)) ([opening] ++ us ++ vs) d := by
      refine failsBehind_expected fun t ht => ?_
      rw [List.append_assoc [opening], List.append_assoc [opening]]
      rcases ht with ht | ht
      -- a semicolon goes on with any other statement
      · obtain ⟨ws, l, s, hs⟩ := hsome
        obtain ⟨l', hlonger⟩ := exists_separated_concat hlist ht hs
        have hbegins := hwhole hlonger
        rw [List.append_cons (us ++ vs), ← List.append_assoc [opening]] at hbegins
        exact hbegins.of_append
      · exact begins_of_phrase (CompoundOf.mk hopen hlist ht)
    refine hexpected.of_eq ?_
    rw [peek_bind, hname]
    rfl

theorem fails_compoundOf {statement : Rule Statement} {P : Phrase Statement}
    (hsome : Begins P []) (hreads : statement.Reads P) (h : statement.Fails P) :
    (compoundOf statement).Fails (CompoundOf P) := by
  have hopened : ∀ t : Token, t.Is .beginBlock → Begins (CompoundOf P) [t] := by
    intro t ht
    obtain ⟨vs, n, s, hs⟩ := hsome
    exact ⟨vs ++ [Terminal.endBlock.token], _, _, .mk ht (.single hs) (Terminal.token_is _)⟩
  have hnone : Begins (CompoundOf P) ([] ++ [Terminal.beginBlock.token]) :=
    hopened _ (Terminal.token_is _)
  intro c
  refine failsBehind_nested hnone.of_append fun c => ?_
  refine .after_eat hopened fun opening d hopen => ?_
  refine FailsBehind.bind (failsBehind_statementList hopen hsome hreads h)
    (reads_statementList hreads d) ?_
  intro n us body d hlist
  exact failsBehind_last fun t ht => begins_of_phrase (CompoundOf.mk hopen hlist ht)

theorem fails_statementAt (levels : Nat) : (statementAt levels).Fails IsStatement := by
  induction levels with
  | zero => exact fun c => failsBehind_tooDeep begins_statement
  | succ levels ih =>
    intro c
    by_cases hcompound : c.current.Is .beginBlock
    · have hbody := fails_compoundOf begins_statement (reads_statementAt levels) ih
      exact .of_eq (statementAt_compound hcompound)
        ((hbody.behind fun h => begins_of_phrase (IsStatement.compound h)).value _)
    by_cases hname : ∃ name, c.current.Names name
    · obtain ⟨name, hnames⟩ := hname
      exact .of_eq (statementAt_assignment hnames) (fails_assignment c)
    · have hempty : (pure .empty : Rule Statement).FailsBehind (Begins IsStatement) [] c :=
        failsBehind_pure _
      exact hempty.of_eq (statementAt_empty hcompound (not_exists.mp hname))

theorem fails_compound : compound.Fails IsCompound :=
  fails_compoundOf begins_statement (reads_statementAt _) (fails_statementAt _)

/-! ## Declarations -/

section Declarations

variable {c : Cursor} {Q : List Token → Prop} {ts : List Token} {β : Type}

theorem fails_identifier : identifier.Fails IsIdentifier :=
  fun _ => failsBehind_identifier fun _ _ ht => begins_of_phrase (.mk ht)

/-- Any name. -/
def sampleName : Token := ⟨.identifier "a", "a", .start⟩

theorem sampleName_names : sampleName.Names "a" := rfl

theorem begins_identifier : Begins IsIdentifier [] := begins_nil (.mk sampleName_names)

theorem failsBehind_typeName (h : ∀ (t : Token) type, TypeWord t.kind type → Q (ts ++ [t])) :
    typeName.FailsBehind Q ts c := by
  by_cases hword : ∃ type, TypeWord c.current.kind type
  · obtain ⟨type, hword⟩ := hword
    have hadvance : (do let _ ← advance; return type : Rule VariableType).FailsBehind Q ts c :=
      .after_advance hword.not_end (h _ _ hword) fun _ => failsBehind_pure _
    exact hadvance.of_eq (typeName_apply rfl hword)
  · have hexpected : (expected .typeName : Rule VariableType).FailsBehind Q ts c := by
      refine failsBehind_expected fun t ht => ?_
      rcases ht with ht | ht
      · exact h t .integer (ht ▸ .integer)
      · exact h t .real (ht ▸ .real)
    exact hexpected.of_eq (typeName_other (not_exists.mp hword))

theorem fails_variableLine : variableLine.Fails IsVariableLine := by
  have hwhole : ∀ {n us names}, Separated .comma IsIdentifier n us names →
      Begins IsVariableLine ([] ++ us) :=
    fun hnames => ⟨[Terminal.colon.token, Terminal.integer.token], _, _,
      .mk hnames (Terminal.token_is _) .integer⟩
  intro c
  refine FailsBehind.bind (fails_identifier.behind fun hname => hwhole (.single hname))
    (reads_identifier c) ?_
  intro n us first d hfirst
  refine FailsBehind.bind
    (failsBehind_rounds begins_identifier reads_identifier fails_identifier hfirst hwhole)
    (reads_rounds reads_identifier d) ?_
  intro m vs others d hothers
  have hnames : Separated .comma IsIdentifier (max n m) (us ++ vs) (first :: others) :=
    .of_rounds hfirst hothers
  have hline : ∀ {colon word : Token} {type}, colon.Is .colon → TypeWord word.kind type →
      Begins IsVariableLine (us ++ vs ++ [colon] ++ [word]) := by
    intro colon word type hcolon hword
    rw [List.append_assoc _ [colon]]
    exact begins_of_phrase (IsVariableLine.mk hnames hcolon hword)
  refine .after_eat (fun t ht => ?_) fun colon d hcolon => ?_
  · have hword : TypeWord Terminal.integer.token.kind .integer := .integer
    exact (hline ht hword).of_append
  exact (failsBehind_typeName fun word type hword => hline hcolon hword).value _

theorem fails_variableEntry :
    Fails (do
      let declared ← variableLine
      let _ ← eat .semicolon
      return declared) IsVariableEntry := by
  intro c
  refine FailsBehind.bind (fails_variableLine.behind fun hline => ?_) (reads_variableLine c) ?_
  · exact ⟨[Terminal.semicolon.token], _, _, .mk hline (Terminal.token_is _)⟩
  intro n us declared d hline
  exact failsBehind_last fun t ht => begins_of_phrase (IsVariableEntry.mk hline ht)

theorem begins_variableEntry : Begins IsVariableEntry [] := by
  have hword : TypeWord Terminal.integer.token.kind .integer := .integer
  have hline := IsVariableLine.mk (.single (.mk sampleName_names)) (Terminal.token_is .colon) hword
  exact begins_nil (.mk hline (Terminal.token_is .semicolon))

theorem failsBehind_variableSection (hvar : c.current.Is .var) :
    variableSection.FailsBehind (Begins IsVariableSection) [] c := by
  have hfirst : ∀ {n vs declared}, IsVariableEntry n vs declared →
      Begins IsVariableSection ([c.current] ++ vs) :=
    fun hentry => begins_of_eq (IsVariableSection.mk hvar hentry .nil) rfl
  refine .after_advance hvar.not_end (begins_front begins_variableEntry hfirst) fun d => ?_
  refine FailsBehind.bind (fails_variableEntry.behind hfirst) (reads_variableEntry d) ?_
  intro n us first d hentry
  refine (failsBehind_many (fun _ c _ => reads_variableEntry c)
    (fun _ c _ => fails_variableEntry c) ?_).value _
  intro m vs others hothers
  exact begins_of_phrase (IsVariableSection.mk hvar hentry hothers)

theorem begins_compound : Begins IsCompound [] :=
  begins_nil (.mk (Terminal.token_is .beginBlock) (.single .empty) (Terminal.token_is .endBlock))

theorem fails_blockOf {procedure : Rule Declaration} {P : Phrase Declaration}
    (hreads : procedure.Reads P) (h : procedure.Fails P) :
    (blockOf procedure).Fails (BlockOf P) := by
  rw [blockOf_eq]
  obtain ⟨ws, l, body, hbody⟩ := begins_compound
  intro c
  have hsection : ∀ (u : Unit) (c : Cursor), on .var c.current.kind = some u →
      variableSection.ReadsFrom IsVariableSection c :=
    fun _ _ hselect => readsFrom_variableSection (on_eq_some_iff.mp hselect)
  refine FailsBehind.bind (failsBehind_many hsection
    (fun _ _ hselect => failsBehind_variableSection (on_eq_some_iff.mp hselect)) ?_)
    (reads_many hsection c) ?_
  · intro n us sections hsections
    exact begins_of_eq (BlockOf.mk hsections .nil hbody) rfl
  intro n us sections d hsections
  refine FailsBehind.bind (failsBehind_many (fun _ c _ => hreads c) (fun _ c _ => h c) ?_)
    (reads_many (fun _ c _ => hreads c) d) ?_
  · intro m vs procedures hprocedures
    exact begins_of_eq (BlockOf.mk hsections hprocedures hbody) (List.append_assoc us vs ws).symm
  intro m vs procedures d hprocedures
  refine (fails_compound.behind fun hbody => ?_).value _
  rw [List.append_assoc]
  exact begins_of_phrase (BlockOf.mk hsections hprocedures hbody)

theorem begins_block {P : Phrase Declaration} : Begins (BlockOf P) [] := by
  obtain ⟨vs, n, body, hbody⟩ := begins_compound
  exact begins_nil (.mk .nil .nil hbody)

/-- A heading, which is a word, a name and a semicolon. -/
theorem failsBehind_heading {P : Phrase β} {word : Terminal} {rest : Identifier → Rule β}
    (hbegins : ∀ {first title mark : Token} {name}, first.Is word → title.Names name →
      mark.Is .semicolon → Begins P [first, title, mark])
    (hrest : ∀ {first title mark : Token} {name} (d : Cursor), first.Is word → title.Names name →
      mark.Is .semicolon →
        (rest ⟨name, title.position⟩).FailsBehind (Begins P) [first, title, mark] d) :
    Rule.Fails (do
      let _ ← eat word
      let name ← identifier
      let _ ← eat .semicolon
      rest name) P := by
  have hword : ∀ first : Token, first.Is word →
      Begins P ([first] ++ [sampleName, Terminal.semicolon.token]) :=
    fun first hfirst => hbegins hfirst sampleName_names (Terminal.token_is _)
  have hname : ∀ (first title : Token) name, first.Is word → title.Names name →
      Begins P ([first, title] ++ [Terminal.semicolon.token]) :=
    fun first title name hfirst htitle => hbegins hfirst htitle (Terminal.token_is _)
  intro c
  refine .after_eat (fun first hfirst => (hword first hfirst).of_append) fun first d hfirst => ?_
  refine .after_identifier (fun title name ht => (hname first title name hfirst ht).of_append) ?_
  intro title name d htitle
  exact .after_eat (fun mark hmark => hbegins hfirst htitle hmark) fun mark d hmark =>
    hrest d hfirst htitle hmark

theorem fails_procedureAt (levels : Nat) : (procedureAt levels).Fails IsProcedure := by
  induction levels with
  | zero =>
    intro c
    obtain ⟨vs, n, block, hblock⟩ := begins_block (P := IsProcedure)
    exact failsBehind_tooDeep (begins_nil (.mk (Terminal.token_is .procedure) sampleName_names
      (Terminal.token_is .semicolon) hblock (Terminal.token_is .semicolon)))
  | succ levels ih =>
    have hwhole : ∀ {first title mark : Token} {name n vs block}, first.Is .procedure →
        title.Names name → mark.Is .semicolon → IsBlock n vs block →
        Begins IsProcedure ([first, title, mark] ++ vs) :=
      fun hfirst htitle hmark hblock => ⟨[Terminal.semicolon.token], _, _,
        .mk hfirst htitle hmark hblock (Terminal.token_is _)⟩
    rw [procedureAt]
    refine failsBehind_heading (fun hfirst htitle hmark =>
      begins_front begins_block (hwhole hfirst htitle hmark)) ?_
    intro first title mark name d hfirst htitle hmark
    refine .after_nested (begins_front begins_block (hwhole hfirst htitle hmark)) (fun c => ?_)
      (reads_blockOf (reads_procedureAt levels)) ?_
    · exact (fails_blockOf (reads_procedureAt levels) ih).behind (hwhole hfirst htitle hmark)
    intro n us block d hblock
    exact failsBehind_last fun t ht =>
      begins_of_phrase (IsProcedure.mk hfirst htitle hmark hblock ht)

theorem fails_block : block.Fails IsBlock :=
  fails_blockOf (reads_procedureAt _) (fails_procedureAt _)

end Declarations

/-! ## Programs -/

theorem fails_program : program.Fails IsProgram := by
  have hwhole : ∀ {first title mark : Token} {name n vs block}, first.Is .program →
      title.Names name → mark.Is .semicolon → IsBlock n vs block →
      Begins IsProgram ([first, title, mark] ++ vs) :=
    fun hfirst htitle hmark hblock => ⟨[Terminal.dot.token], _, _,
      .mk hfirst htitle hmark hblock (Terminal.token_is _)⟩
  refine failsBehind_heading (fun hfirst htitle hmark =>
    begins_front begins_block (hwhole hfirst htitle hmark)) ?_
  intro first title mark name d hfirst htitle hmark
  refine FailsBehind.bind (fails_block.behind (hwhole hfirst htitle hmark)) (reads_block d) ?_
  intro n us block d hblock
  exact failsBehind_last fun t ht => begins_of_phrase (IsProgram.mk hfirst htitle hmark hblock ht)

/-- A whole program fails within the class of programs, or because something stands behind
a program. -/
theorem exists_of_wholeProgram_error {c m : Cursor} {e : Error ReadingFault}
    (herror : wholeProgram c = .error e m) :
    ∃ us d, c.Walks us d ∧ (Verdict (Begins IsProgram) us d e ∨
      (∃ n p, IsProgram n us p) ∧ d.current.kind.isEnd = false ∧
        e = d.fault (.trailingTokens d.current.kind)) := by
  cases hprogram : program c with
  | error e' m' =>
    rw [wholeProgram, bind_of_error hprogram] at herror
    cases herror
    obtain ⟨us, d, hwalk, hverdict⟩ := fails_program c hprogram
    exact ⟨us, d, hwalk, .inl hverdict⟩
  | ok p d =>
    rw [wholeProgram, bind_of_ok hprogram, peek_bind] at herror
    obtain ⟨n, us, hwalk, hphrase, -⟩ := reads_program c hprogram
    split at herror
    · cases herror
    · next hend =>
      cases herror
      exact ⟨us, _, hwalk, .inr ⟨⟨n, p, hphrase⟩, Bool.eq_false_iff.mpr hend, rfl⟩⟩

end Rule

end MiniPascal
