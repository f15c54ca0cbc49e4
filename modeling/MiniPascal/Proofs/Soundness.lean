/-
`Soundness.lean` -- what a rule accepts is a phrase of its class.

The statement for one rule is `Reads`: wherever the rule succeeds, the cursor has
walked over a phrase of the class, the value is the tree of that phrase, and the
levels that the phrase needs were still to be had (`Cursor.Allows`). The levels are
part of the statement because `nested` is the only place that counts them, while the
nesting of a phrase is counted by its derivation: that the two counts agree is shown
rule by rule, and nothing else has to be said about the limit.

The rules that are recursive in a number of levels are handled by induction on that
number. It is the same induction for factors, statements and procedures, since each
of them only needs its own instance one level further in.
-/
import MiniPascal.Proofs.Lookahead
import MiniPascal.Proofs.Repetition

set_option autoImplicit false

namespace MiniPascal

open Phrase

/-! ## Levels -/

namespace Cursor

/-- So many further levels can be entered here. From a point that is already too deep
nothing can be entered, but what needs no level can still be read. -/
def Allows (c : Cursor) (n : Nat) : Prop := c.depth + n ≤ max c.depth maxNesting

theorem allows_zero (c : Cursor) : c.Allows 0 := Nat.le_max_left _ _

/-- Passing tokens changes nothing about the levels. -/
theorem Walks.allows {c d : Cursor} {n : Nat} {ts : List Token} (hwalk : c.Walks ts d)
    (h : d.Allows n) : c.Allows n := by
  rwa [Allows, hwalk.depth_eq] at h

/-- Two phrases, one behind the other, need the larger number of levels. -/
theorem Allows.max {c d : Cursor} {n m : Nat} {ts : List Token} (h : c.Allows n)
    (hwalk : c.Walks ts d) (h' : d.Allows m) : c.Allows (max n m) := by
  have h' : c.Allows m := hwalk.allows h'
  unfold Allows at h h' ⊢
  omega

end Cursor

namespace Rule

variable {α β : Type}

/-- From the cursor `c` the rule accepts nothing but phrases of the class. -/
def ReadsFrom (rule : Rule α) (P : Phrase α) (c : Cursor) : Prop :=
  ∀ ⦃a : α⦄ ⦃c' : Cursor⦄, rule c = .ok a c' →
    ∃ n ts, c.Walks ts c' ∧ P n ts a ∧ c.Allows n

/-- The rule accepts nothing but phrases of the class. -/
def Reads (rule : Rule α) (P : Phrase α) : Prop := ∀ c, rule.ReadsFrom P c

/-! ## Combinations -/

/-- A rule one level deeper accepts phrases that are to be counted one level deeper. -/
theorem exists_of_nested {rule : Rule α} {P : Phrase α} (h : rule.Reads P) {c c' : Cursor}
    {a : α} (hok : nested rule c = .ok a c') :
    ∃ n ts, c.Walks ts c' ∧ P n ts a ∧ c.Allows (n + 1) := by
  unfold nested at hok
  split at hok
  · next hdepth =>
    split at hok
    · next a' d hrule =>
      cases hok
      obtain ⟨n, ts, hwalk, hphrase, hallows⟩ := h _ hrule
      have hback : c.Walks ts { d with depth := c.depth } := hwalk.atDepth c.depth
      have hdeep : d.depth = c.depth + 1 := hwalk.depth_eq
      refine ⟨n, ts, ?_, hphrase, ?_⟩
      -- coming back subtracts the level that entering has added
      · rw [hdeep, Nat.add_sub_cancel]
        exact hback
      · unfold Cursor.Allows at hallows ⊢
        dsimp only at hallows
        omega
    · cases hok
  · cases hok

/-- A loop over phrases of a class accepts a list of them. -/
theorem reads_many {select : Kind → Option β} {item : β → Rule α} {P : Phrase α}
    (h : ∀ b c, select c.current.kind = some b → (item b).ReadsFrom P c) :
    Reads (many select item) (Many P) := by
  intro c
  -- every further round has fewer tokens left, which is why the loop ends at all
  induction hleft : c.remaining using Nat.strongRecOn generalizing c with
  | ind left ih =>
    intro as c' hok
    rw [many] at hok
    split at hok
    · cases hok
      exact ⟨0, [], .stay c, .nil, c.allows_zero⟩
    · next b hselect =>
      split at hok
      · cases hok
      · next a d hitem =>
        obtain ⟨n, ts, hwalk, hphrase, hallows⟩ := h b c hselect hitem
        split at hok
        · next hless =>
          split at hok
          · cases hok
          · next as' d' hmore =>
            cases hok
            obtain ⟨m, us, hwalk', hphrases, hallows'⟩ := ih _ (hleft ▸ hless) d rfl hmore
            exact ⟨_, _, hwalk.trans hwalk', .cons hphrase hphrases,
              hallows.max hwalk hallows'⟩
        -- a round that has read nothing is the last one
        · cases hok
          exact ⟨n, ts, hwalk, .one hphrase, hallows⟩

/-- The round of a separated list. -/
theorem reads_preceded {k : Terminal} {rule : Rule α} {P : Phrase α} (h : rule.Reads P)
    (c : Cursor) (hkind : c.current.kind = .terminal k) :
    ReadsFrom (do let _ ← advance; rule) (Preceded k P) c := by
  intro a c' hok
  obtain ⟨mark, d, hadvance, hok⟩ := bind_eq_ok_iff.mp hok
  obtain ⟨rfl, hmark⟩ := walks_of_advance (Token.Is.not_end hkind) hadvance
  obtain ⟨n, ts, hwalk, hphrase, hallows⟩ := h d hok
  exact ⟨n, _, hmark.trans hwalk, .mk hkind hphrase, hmark.allows hallows⟩

/-- The rounds of a separated list. -/
theorem reads_rounds {k : Terminal} {rule : Rule α} {P : Phrase α} (h : rule.Reads P) :
    Reads (many (on k) fun _ => do let _ ← advance; rule) (Many (Preceded k P)) :=
  reads_many fun _ c hselect => reads_preceded h c (on_eq_some_iff.mp hselect)

/-- A first phrase and a loop over rounds accept a separated list. -/
theorem exists_of_separated {k : Terminal} {rule : Rule α} {P : Phrase α} (h : rule.Reads P)
    {c d c' : Cursor} {first : α} {others : List α} (hfirst : rule c = .ok first d)
    (hothers : many (on k) (fun _ => do let _ ← advance; rule) d = .ok others c') :
    ∃ n ts, c.Walks ts c' ∧ Separated k P n ts (first :: others) ∧ c.Allows n := by
  obtain ⟨n, ts, hwalk, hphrase, hallows⟩ := h c hfirst
  obtain ⟨m, us, hwalk', hrounds, hallows'⟩ := reads_rounds h d hothers
  exact ⟨_, _, hwalk.trans hwalk', .of_rounds hphrase hrounds, hallows.max hwalk hallows'⟩

/-! ## Expressions -/

/-- The round of a chain. -/
theorem reads_linked {operator? : Kind → Option BinaryOperator}
    {Op : Kind → BinaryOperator → Prop} {operand : Rule Expr} {P : Phrase Expr}
    (hop : ∀ {kind op}, operator? kind = some op ↔ Op kind op)
    (hend : ∀ {kind op}, Op kind op → kind.isEnd = false) (h : operand.Reads P)
    (op : BinaryOperator) (c : Cursor) (hselect : operator? c.current.kind = some op) :
    ReadsFrom (do let token ← advance; return ⟨op, token.position, ← operand⟩) (Linked Op P) c := by
  intro link c' hok
  obtain ⟨mark, d, hadvance, hok⟩ := bind_eq_ok_iff.mp hok
  obtain ⟨e, d', he, hok⟩ := bind_eq_ok_iff.mp hok
  cases hok
  obtain ⟨rfl, hmark⟩ := walks_of_advance (hend (hop.mp hselect)) hadvance
  obtain ⟨n, ts, hwalk, hphrase, hallows⟩ := h d he
  exact ⟨n, _, hmark.trans hwalk, .mk (hop.mp hselect) hphrase, hmark.allows hallows⟩

/-- A chain of operands accepts a chain of phrases, if its operators are those of the
class. -/
theorem reads_chain {operator? : Kind → Option BinaryOperator}
    {Op : Kind → BinaryOperator → Prop} {operand : Rule Expr} {P : Phrase Expr}
    (hop : ∀ {kind op}, operator? kind = some op ↔ Op kind op)
    (hend : ∀ {kind op}, Op kind op → kind.isEnd = false) (h : operand.Reads P) :
    (chain operator? operand).Reads (Chain Op P) := by
  intro c e c' hok
  obtain ⟨first, d, hfirst, hok⟩ := bind_eq_ok_iff.mp hok
  obtain ⟨links, d', hlinks, hok⟩ := bind_eq_ok_iff.mp hok
  cases hok
  obtain ⟨n, ts, hwalk, hphrase, hallows⟩ := h c hfirst
  obtain ⟨m, us, hwalk', hrounds, hallows'⟩ := reads_many (reads_linked hop hend h) d hlinks
  exact ⟨_, _, hwalk.trans hwalk', (Chain.single hphrase).links hrounds,
    hallows.max hwalk hallows'⟩

theorem reads_termOf {factor : Rule Expr} {P : Phrase Expr} (h : factor.Reads P) :
    (termOf factor).Reads (Chain Multiplicative P) :=
  reads_chain multiplicative?_eq_some_iff Multiplicative.not_end h

theorem reads_expressionOf {factor : Rule Expr} {P : Phrase Expr} (h : factor.Reads P) :
    (expressionOf factor).Reads (Chain Additive (Chain Multiplicative P)) :=
  reads_chain additive?_eq_some_iff Additive.not_end (reads_termOf h)

theorem reads_factorAt (levels : Nat) : (factorAt levels).Reads IsFactor := by
  induction levels with
  | zero =>
    intro c e c' hok
    cases hok
  | succ levels ih =>
    intro c e c' hok
    cases factorStart c.current with
    | sign hop =>
      rw [factorAt_sign rfl hop] at hok
      obtain ⟨t, d, hadvance, hok⟩ := bind_eq_ok_iff.mp hok
      obtain ⟨operand, d', hoperand, hok⟩ := bind_eq_ok_iff.mp hok
      cases hok
      obtain ⟨rfl, hopen⟩ := walks_of_advance hop.not_end hadvance
      obtain ⟨n, ts, hwalk, hphrase, hallows⟩ := exists_of_nested ih hoperand
      exact ⟨n + 1, _, hopen.trans hwalk, .signed hop hphrase,
        hopen.allows hallows⟩
    | group hgroup =>
      rw [factorAt_group rfl hgroup] at hok
      obtain ⟨t, d, hadvance, hok⟩ := bind_eq_ok_iff.mp hok
      obtain ⟨inner, d', hinner, hok⟩ := bind_eq_ok_iff.mp hok
      obtain ⟨closing, d'', hclosing, hok⟩ := bind_eq_ok_iff.mp hok
      cases hok
      obtain ⟨rfl, hopen⟩ := walks_of_advance hgroup.not_end hadvance
      obtain ⟨n, ts, hwalk, hphrase, hallows⟩ := exists_of_nested (reads_expressionOf ih) hinner
      obtain ⟨hclose, hlast⟩ := walks_of_eat hclosing
      exact ⟨n + 1, _, hopen.trans (hwalk.trans hlast), .group hgroup hphrase hclose,
        hopen.allows hallows⟩
    | integer hkind =>
      rw [factorAt_integer rfl hkind] at hok
      obtain ⟨t, d, hadvance, hok⟩ := bind_eq_ok_iff.mp hok
      cases hok
      obtain ⟨rfl, hwalk⟩ := walks_of_advance (by rw [hkind]; rfl) hadvance
      exact ⟨0, _, hwalk, .integer hkind, c.allows_zero⟩
    | real hkind =>
      rw [factorAt_real rfl hkind] at hok
      obtain ⟨t, d, hadvance, hok⟩ := bind_eq_ok_iff.mp hok
      cases hok
      obtain ⟨rfl, hwalk⟩ := walks_of_advance (by rw [hkind]; rfl) hadvance
      exact ⟨0, _, hwalk, .real hkind, c.allows_zero⟩
    | name hnames =>
      rw [factorAt_variable rfl hnames] at hok
      obtain ⟨x, d, hidentifier, hok⟩ := bind_eq_ok_iff.mp hok
      cases hok
      obtain ⟨t, hphrase, hwalk⟩ := walks_of_identifier hidentifier
      cases hphrase with
      | mk ht => exact ⟨0, _, hwalk, .name ht, c.allows_zero⟩
    | other hother =>
      rw [hother levels c rfl] at hok
      cases hok

theorem reads_expression : expression.Reads IsExpression :=
  reads_expressionOf (reads_factorAt _)

/-! ## Statements -/

theorem reads_assignment : assignment.Reads IsStatement := by
  intro c a c' hok
  obtain ⟨target, d, htarget, hok⟩ := bind_eq_ok_iff.mp hok
  obtain ⟨mark, d', hmark, hok⟩ := bind_eq_ok_iff.mp hok
  obtain ⟨value, d'', hvalue, hok⟩ := bind_eq_ok_iff.mp hok
  cases hok
  obtain ⟨t, htarget, hwalk⟩ := walks_of_identifier htarget
  obtain ⟨hmark, hwalk'⟩ := walks_of_eat hmark
  obtain ⟨n, ts, hwalk'', hphrase, hallows⟩ := reads_expression d' hvalue
  cases htarget with
  | mk ht =>
    exact ⟨n, _, hwalk.trans (hwalk'.trans hwalk''), .assign ht hmark hphrase,
      (hwalk.trans hwalk').allows hallows⟩

theorem reads_statementList {statement : Rule Statement} {P : Phrase Statement}
    (h : statement.Reads P) : (statementList statement).Reads (Separated .semicolon P) := by
  intro c body c' hok
  obtain ⟨first, d, hfirst, hok⟩ := bind_eq_ok_iff.mp hok
  obtain ⟨others, d', hothers, hok⟩ := bind_eq_ok_iff.mp hok
  rw [peek_bind] at hok
  split at hok
  · cases hok
  · cases hok
    exact exists_of_separated h hfirst hothers

theorem reads_compoundOf {statement : Rule Statement} {P : Phrase Statement}
    (h : statement.Reads P) : (compoundOf statement).Reads (CompoundOf P) := by
  intro c body c' hok
  have hinside : Reads (do
      let _ ← eat .beginBlock
      let body ← statementList statement
      let _ ← eat .endBlock
      return body) (fun n ts body => CompoundOf P (n + 1) ts body) := by
    intro c body c' hok
    obtain ⟨opening, d, hopen, hok⟩ := bind_eq_ok_iff.mp hok
    obtain ⟨body, d', hbody, hok⟩ := bind_eq_ok_iff.mp hok
    obtain ⟨closing, d'', hclose, hok⟩ := bind_eq_ok_iff.mp hok
    cases hok
    obtain ⟨hopen, hwalk⟩ := walks_of_eat hopen
    obtain ⟨n, ts, hwalk', hphrase, hallows⟩ := reads_statementList h d hbody
    obtain ⟨hclose, hwalk''⟩ := walks_of_eat hclose
    exact ⟨n, _, hwalk.trans (hwalk'.trans hwalk''), .mk hopen hphrase hclose,
      hwalk.allows hallows⟩
  obtain ⟨n, ts, hwalk, hphrase, hallows⟩ := exists_of_nested hinside hok
  exact ⟨n + 1, ts, hwalk, hphrase, hallows⟩

theorem reads_statementAt (levels : Nat) : (statementAt levels).Reads IsStatement := by
  induction levels with
  | zero =>
    intro c a c' hok
    cases hok
  | succ levels ih =>
    intro c a c' hok
    by_cases hcompound : c.current.Is .beginBlock
    · rw [statementAt_compound hcompound] at hok
      obtain ⟨body, d, hbody, hok⟩ := bind_eq_ok_iff.mp hok
      cases hok
      obtain ⟨n, ts, hwalk, hphrase, hallows⟩ := reads_compoundOf ih c hbody
      exact ⟨n, ts, hwalk, .compound hphrase, hallows⟩
    by_cases hname : ∃ name, c.current.Names name
    · obtain ⟨name, hnames⟩ := hname
      rw [statementAt_assignment hnames] at hok
      exact reads_assignment c hok
    -- in front of any other token stands the empty statement, which is no token
    · rw [statementAt_empty hcompound (not_exists.mp hname)] at hok
      cases hok
      exact ⟨0, [], .stay c, .empty, c.allows_zero⟩

theorem reads_compound : compound.Reads IsCompound :=
  reads_compoundOf (reads_statementAt _)

/-! ## Declarations -/

theorem reads_identifier : identifier.Reads IsIdentifier := by
  intro c name c' hok
  obtain ⟨t, hphrase, hwalk⟩ := walks_of_identifier hok
  exact ⟨0, [t], hwalk, hphrase, c.allows_zero⟩

theorem walks_of_typeName {c d : Cursor} {type : VariableType} (hok : typeName c = .ok type d) :
    ∃ t, TypeWord t.kind type ∧ c.Walks [t] d := by
  by_cases h : ∃ type, TypeWord c.current.kind type
  · obtain ⟨type', hword⟩ := h
    rw [typeName_apply rfl hword] at hok
    obtain ⟨t, d, hadvance, hok⟩ := bind_eq_ok_iff.mp hok
    cases hok
    obtain ⟨rfl, hwalk⟩ := walks_of_advance hword.not_end hadvance
    exact ⟨c.current, hword, hwalk⟩
  · rw [typeName_other (not_exists.mp h)] at hok
    cases hok

theorem reads_variableLine : variableLine.Reads IsVariableLine := by
  intro c declared c' hok
  obtain ⟨first, d, hfirst, hok⟩ := bind_eq_ok_iff.mp hok
  obtain ⟨others, d₁, hothers, hok⟩ := bind_eq_ok_iff.mp hok
  obtain ⟨colon, d₂, hcolon, hok⟩ := bind_eq_ok_iff.mp hok
  obtain ⟨type, d₃, htype, hok⟩ := bind_eq_ok_iff.mp hok
  cases hok
  obtain ⟨n, ts, hwalk, hnames, hallows⟩ := exists_of_separated reads_identifier hfirst hothers
  obtain ⟨hcolon, hwalk'⟩ := walks_of_eat hcolon
  obtain ⟨word, hword, hwalk''⟩ := walks_of_typeName htype
  exact ⟨n, _, hwalk.trans (hwalk'.trans hwalk''), .mk hnames hcolon hword, hallows⟩

theorem reads_variableEntry :
    Reads (do
      let declared ← variableLine
      let _ ← eat .semicolon
      return declared) IsVariableEntry := by
  intro c declared c' hok
  obtain ⟨declared, d, hline, hok⟩ := bind_eq_ok_iff.mp hok
  obtain ⟨mark, d', hmark, hok⟩ := bind_eq_ok_iff.mp hok
  cases hok
  obtain ⟨n, ts, hwalk, hphrase, hallows⟩ := reads_variableLine c hline
  obtain ⟨hmark, hwalk'⟩ := walks_of_eat hmark
  exact ⟨n, _, hwalk.trans hwalk', .mk hphrase hmark, hallows⟩

theorem readsFrom_variableSection {c : Cursor} (hvar : c.current.Is .var) :
    variableSection.ReadsFrom IsVariableSection c := by
  intro declared c' hok
  obtain ⟨word, d, hadvance, hok⟩ := bind_eq_ok_iff.mp hok
  obtain ⟨first, d₁, hfirst, hok⟩ := bind_eq_ok_iff.mp hok
  obtain ⟨others, d₂, hothers, hok⟩ := bind_eq_ok_iff.mp hok
  cases hok
  obtain ⟨rfl, hword⟩ := walks_of_advance hvar.not_end hadvance
  obtain ⟨n, ts, hwalk, hphrase, hallows⟩ := reads_variableEntry d hfirst
  obtain ⟨m, us, hwalk', hphrases, hallows'⟩ :=
    reads_many (fun _ c _ => reads_variableEntry c) d₁ hothers
  exact ⟨_, c.current :: (ts ++ us), hword.trans (hwalk.trans hwalk'),
    .mk hvar hphrase hphrases, hword.allows (hallows.max hwalk hallows')⟩

theorem reads_blockOf {procedure : Rule Declaration} {P : Phrase Declaration}
    (h : procedure.Reads P) : (blockOf procedure).Reads (BlockOf P) := by
  rw [blockOf_eq]
  intro c block c' hok
  obtain ⟨sections, d, hsections, hok⟩ := bind_eq_ok_iff.mp hok
  obtain ⟨procedures, d', hprocedures, hok⟩ := bind_eq_ok_iff.mp hok
  obtain ⟨body, d'', hbody, hok⟩ := bind_eq_ok_iff.mp hok
  cases hok
  obtain ⟨n, ts, hwalk, hphrase, hallows⟩ :=
    reads_many (fun _ _ hselect => readsFrom_variableSection (on_eq_some_iff.mp hselect)) c
      hsections
  obtain ⟨m, us, hwalk', hphrase', hallows'⟩ := reads_many (fun _ c _ => h c) d hprocedures
  obtain ⟨k, vs, hwalk'', hphrase'', hallows''⟩ := reads_compound d' hbody
  exact ⟨_, _, hwalk.trans (hwalk'.trans hwalk''), .mk hphrase hphrase' hphrase'',
    hallows.max hwalk (hallows'.max hwalk' hallows'')⟩

/-- What has been read when the heading of a procedure or a program is over. -/
theorem exists_of_heading {word : Terminal} {rest : Identifier → Rule α} {c c' : Cursor} {a : α}
    (hok : (do
      let _ ← eat word
      let name ← identifier
      let _ ← eat .semicolon
      rest name : Rule α) c = .ok a c') :
    ∃ first title mark name d, first.Is word ∧ title.Names name ∧ mark.Is .semicolon ∧
      c.Walks [first, title, mark] d ∧ rest ⟨name, title.position⟩ d = .ok a c' := by
  obtain ⟨first, d, hfirst, hok⟩ := bind_eq_ok_iff.mp hok
  obtain ⟨name, d₁, hname, hok⟩ := bind_eq_ok_iff.mp hok
  obtain ⟨mark, d₂, hmark, hok⟩ := bind_eq_ok_iff.mp hok
  obtain ⟨hfirst, hwalk⟩ := walks_of_eat hfirst
  obtain ⟨title, htitle, hwalk₁⟩ := walks_of_identifier hname
  obtain ⟨hmark, hwalk₂⟩ := walks_of_eat hmark
  cases htitle with
  | mk htitle =>
    exact ⟨first, title, mark, _, d₂, hfirst, htitle, hmark,
      hwalk.trans (hwalk₁.trans hwalk₂), hok⟩

theorem reads_procedureAt (levels : Nat) : (procedureAt levels).Reads IsProcedure := by
  induction levels with
  | zero =>
    intro c a c' hok
    cases hok
  | succ levels ih =>
    intro c a c' hok
    rw [procedureAt] at hok
    obtain ⟨word, title, mark, name, d, hword, htitle, hmark, hhead, hok⟩ := exists_of_heading hok
    obtain ⟨block, d', hblock, hok⟩ := bind_eq_ok_iff.mp hok
    obtain ⟨closing, d'', hclosing, hok⟩ := bind_eq_ok_iff.mp hok
    cases hok
    obtain ⟨n, ts, hwalk, hphrase, hallows⟩ := exists_of_nested (reads_blockOf ih) hblock
    obtain ⟨hclosing, hlast⟩ := walks_of_eat hclosing
    exact ⟨n + 1, _, hhead.trans (hwalk.trans hlast), .mk hword htitle hmark hphrase hclosing,
      hhead.allows hallows⟩

theorem reads_block : block.Reads IsBlock :=
  reads_blockOf (reads_procedureAt _)

/-! ## Programs -/

theorem reads_program : program.Reads IsProgram := by
  intro c parsed c' hok
  obtain ⟨word, title, mark, name, d, hword, htitle, hmark, hhead, hok⟩ := exists_of_heading hok
  obtain ⟨body, d', hblock, hok⟩ := bind_eq_ok_iff.mp hok
  obtain ⟨dot, d'', hdot, hok⟩ := bind_eq_ok_iff.mp hok
  cases hok
  obtain ⟨n, ts, hwalk, hphrase, hallows⟩ := reads_block d hblock
  obtain ⟨hdot, hlast⟩ := walks_of_eat hdot
  exact ⟨n, _, hhead.trans (hwalk.trans hlast), .mk hword htitle hmark hphrase hdot,
    hhead.allows hallows⟩

/-- A whole program has nothing behind it. -/
theorem exists_of_wholeProgram {c c' : Cursor} {parsed : Program}
    (hok : wholeProgram c = .ok parsed c') :
    ∃ n ts, c.Walks ts c' ∧ IsProgram n ts parsed ∧ c.Allows n ∧
      c'.current.kind.isEnd = true := by
  obtain ⟨parsed, d, hparsed, hok⟩ := bind_eq_ok_iff.mp hok
  rw [peek_bind] at hok
  split at hok
  · next hend =>
    cases hok
    obtain ⟨n, ts, hwalk, hphrase, hallows⟩ := reads_program c hparsed
    exact ⟨n, ts, hwalk, hphrase, hallows, hend⟩
  · cases hok

end Rule

end MiniPascal
