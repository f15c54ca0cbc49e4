/-
`Repetition.lean` -- repetitions as a loop meets them.

The classes `Separated` and `Chain` say what a repetition is; a loop reads one the
other way round: a first part, and then rounds, each of which begins with the token
that asked for it. So both are restated here as a first part followed by `Many`
rounds. For a chain this is where grouping to the left becomes a fold
(`chain_iff`): the round at the end of the list is the outermost operator.
-/
import MiniPascal.Grammar.Expression
import MiniPascal.Proofs.Phrase

set_option autoImplicit false

namespace MiniPascal

namespace Phrase

variable {α : Type}

/-! ## Lists of phrases -/

theorem Many.congr {P : Phrase α} {n n' : Nat} {ts ts' : List Token} {as : List α}
    (h : Many P n ts as) (hn : n = n') (hts : ts = ts') : Many P n' ts' as := by
  subst hn hts
  exact h

theorem Many.one {P : Phrase α} {n : Nat} {ts : List Token} {a : α} (h : P n ts a) :
    Many P n ts [a] :=
  (Many.cons h .nil).congr (Nat.max_zero n) (List.append_nil ts)

theorem Many.append {P : Phrase α} {n m : Nat} {ts us : List Token} {as bs : List α}
    (h : Many P n ts as) (h' : Many P m us bs) : Many P (max n m) (ts ++ us) (as ++ bs) := by
  induction h with
  | nil => exact h'.congr (Nat.zero_max m).symm rfl
  | cons ha _ ih =>
    exact (Many.cons ha ih).congr (Nat.max_assoc ..).symm (List.append_assoc ..).symm

/-- The parts of a list of phrases nest no deeper than the list. -/
theorem Many.exists_of_mem {P : Phrase α} {n : Nat} {ts : List Token} {as : List α}
    (h : Many P n ts as) : ∀ a ∈ as, ∃ m us, m ≤ n ∧ P m us a := by
  induction h with
  | nil => exact nofun
  | @cons n m ts us a as hfirst _ ih =>
    intro b hb
    rcases List.mem_cons.mp hb with rfl | hb
    · exact ⟨n, ts, Nat.le_max_left n m, hfirst⟩
    · obtain ⟨m', us', hm', hb⟩ := ih b hb
      exact ⟨m', us', Nat.le_trans hm' (Nat.le_max_right n m), hb⟩

/-! ## Separated phrases -/

/-- `k x`, which is a round of `x (k x)*`. -/
inductive Preceded (k : Terminal) (P : Phrase α) : Phrase α
  | mk {n ts a} {mark : Token} : mark.Is k → P n ts a → Preceded k P n (mark :: ts) a

/-- A separated list is a first phrase and rounds. -/
theorem separated_iff {k : Terminal} {P : Phrase α} {l : Nat} {vs : List Token} {as : List α} :
    Separated k P l vs as ↔ ∃ n m ts us a others,
      P n ts a ∧ Many (Preceded k P) m us others ∧
        l = max n m ∧ vs = ts ++ us ∧ as = a :: others := by
  constructor
  · intro h
    induction h with
    | @single n ts a ha =>
      exact ⟨n, 0, ts, [], a, [], ha, .nil, (Nat.max_zero n).symm, (List.append_nil ts).symm, rfl⟩
    | @cons n m ts us a as mark ha hmark _ ih =>
      obtain ⟨n', m', ts', us', a', others, ha', hothers, rfl, rfl, rfl⟩ := ih
      exact ⟨n, _, ts, _, a, _, ha, .cons (.mk hmark ha') hothers, rfl, rfl, rfl⟩
  · rintro ⟨n, m, ts, us, a, others, ha, hothers, rfl, rfl, rfl⟩
    induction hothers generalizing n ts a with
    | nil =>
      rw [Nat.max_zero, List.append_nil]
      exact .single ha
    | cons hround _ ih =>
      cases hround with
      | mk hmark hb => exact .cons ha hmark (ih _ _ _ hb)

theorem Separated.of_rounds {k : Terminal} {P : Phrase α} {n m : Nat} {ts us : List Token} {a : α}
    {others : List α} (h : P n ts a) (hothers : Many (Preceded k P) m us others) :
    Separated k P (max n m) (ts ++ us) (a :: others) :=
  separated_iff.mpr ⟨n, m, ts, us, a, others, h, hothers, rfl, rfl, rfl⟩

theorem Separated.exists_of_mem {k : Terminal} {P : Phrase α} {l : Nat} {vs : List Token}
    {as : List α} (h : Separated k P l vs as) : ∀ a ∈ as, ∃ m us, m ≤ l ∧ P m us a := by
  obtain ⟨n, m, ts, us, first, others, hfirst, hothers, rfl, rfl, rfl⟩ := separated_iff.mp h
  intro b hb
  rcases List.mem_cons.mp hb with rfl | hb
  · exact ⟨n, ts, Nat.le_max_left n m, hfirst⟩
  · obtain ⟨m', us', hm', hround⟩ := hothers.exists_of_mem b hb
    cases hround with
    | mk _ hb => exact ⟨m', _, Nat.le_trans hm' (Nat.le_max_right n m), hb⟩

/-! ## Chains -/

/-- `operator x`, which is a round of a chain. -/
inductive Linked (Op : Kind → BinaryOperator → Prop) (P : Phrase Expr) : Phrase Rule.Link
  | mk {n ts op e} {mark : Token} :
      Op mark.kind op → P n ts e → Linked Op P n (mark :: ts) ⟨op, mark.position, e⟩

variable {Op : Kind → BinaryOperator → Prop} {P : Phrase Expr}

/-- A chain goes on. -/
theorem Chain.links {n m : Nat} {ts us : List Token} {e : Expr} {links : List Rule.Link}
    (h : Chain Op P n ts e) (hlinks : Many (Linked Op P) m us links) :
    Chain Op P (max n m) (ts ++ us) (Rule.chainTree e links) := by
  induction hlinks generalizing n ts e with
  | nil =>
    rw [Nat.max_zero, List.append_nil]
    exact h
  | cons hround _ ih =>
    cases hround with
    | mk hop he =>
      -- the first round joins the chain, and the others follow the longer one
      rw [← Nat.max_assoc, ← List.append_assoc]
      exact ih (.link h hop he)

/-- A chain is a first operand and rounds, folded from the left. -/
theorem chain_iff {l : Nat} {vs : List Token} {e : Expr} :
    Chain Op P l vs e ↔ ∃ n m ts us first links,
      P n ts first ∧ Many (Linked Op P) m us links ∧
        l = max n m ∧ vs = ts ++ us ∧ e = Rule.chainTree first links := by
  constructor
  · intro h
    induction h with
    | @single n ts e he =>
      exact ⟨n, 0, ts, [], e, [], he, .nil, (Nat.max_zero n).symm, (List.append_nil ts).symm, rfl⟩
    | @link n m ts us left right op mark _ hop hright ih =>
      obtain ⟨n', m', ts', us', first, links, hfirst, hlinks, rfl, rfl, rfl⟩ := ih
      -- the outermost operator is the last round
      refine ⟨n', _, ts', _, first, _, hfirst, hlinks.append (.one (.mk hop hright)),
        Nat.max_assoc .., List.append_assoc .., ?_⟩
      simp only [Rule.chainTree, List.foldl_append, List.foldl_cons, List.foldl_nil]
  · rintro ⟨n, m, ts, us, first, links, hfirst, hlinks, rfl, rfl, rfl⟩
    exact (Chain.single hfirst).links hlinks

end Phrase

end MiniPascal
