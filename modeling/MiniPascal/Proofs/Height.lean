/-
`Height.lean` -- how high the tree of a program is.

The height of a tree is the longest way from its root to a leaf, counted in compound
statements, procedure blocks, operations and signs. Every later stage recurses along
such ways, so the height is the depth of its recursion.

The limit on nesting bounds the height only together with another number. A chain of
operators without parentheses nests nowhere, but its tree groups to the left and grows
by one with each operator; so the length of the longest such spine counts as well
(`longestChain`). Along a way through the tree at most two chains are met between two
levels of nesting, one of terms and one of factors, and this gives the bound of
`height_le_of_isProgram`. The other way round a long chain is high, and nothing limits
its length: there are sources of any height (`heights_unbounded`).
-/
import MiniPascal.Proofs.FlatSource

set_option autoImplicit false

namespace MiniPascal

open Phrase

/-! ## Measures of trees -/

namespace Expr

/-- How many operations and signs are on the longest way down. -/
def height : Expr → Nat
  | .literal _ _ => 0
  | .variable _ => 0
  | .binary _ left right _ => max left.height right.height + 1
  | .unary _ operand _ => operand.height + 1

/-- How many operations are met by going down to the left operand only. -/
def spine : Expr → Nat
  | .binary _ left _ _ => left.spine + 1
  | _ => 0

/-- The longest spine anywhere in the expression. -/
def longestChain : Expr → Nat
  | .literal _ _ => 0
  | .variable _ => 0
  | .binary _ left right _ => max (left.spine + 1) (max left.longestChain right.longestChain)
  | .unary _ operand _ => operand.longestChain

theorem spine_le_height (e : Expr) : e.spine ≤ e.height := by
  induction e with
  | literal => exact Nat.le_refl _
  | «variable» => exact Nat.le_refl _
  | unary => exact Nat.zero_le _
  | binary op left right position ih =>
    rw [spine, height]
    omega

theorem longestChain_le_height (e : Expr) : e.longestChain ≤ e.height := by
  induction e with
  | literal => exact Nat.le_refl _
  | «variable» => exact Nat.le_refl _
  | unary op operand position ih =>
    rw [longestChain, height]
    omega
  | binary op left right position ih ih' =>
    have hspine := left.spine_le_height
    rw [longestChain, height]
    omega

theorem spine_le_longestChain (e : Expr) : e.spine ≤ e.longestChain := by
  cases e with
  | literal => exact Nat.zero_le _
  | «variable» => exact Nat.zero_le _
  | unary => exact Nat.zero_le _
  | binary op left right position =>
    rw [spine, longestChain]
    omega

end Expr

/-! The measures of expressions are carried on to programs, where a compound statement
and the block of a procedure count `step` each. -/

mutual

/-- The largest measure in a statement. -/
def Statement.depthBy (measure : Expr → Nat) (step : Nat) : Statement → Nat
  | .empty => 0
  | .assign _ value _ => measure value
  | .compound body => bodyDepthBy measure step body + step

/-- The largest measure in a body. -/
def bodyDepthBy (measure : Expr → Nat) (step : Nat) : List Statement → Nat
  | [] => 0
  | first :: others => max (first.depthBy measure step) (bodyDepthBy measure step others)

end

mutual

/-- The largest measure in a declaration. -/
def Declaration.depthBy (measure : Expr → Nat) (step : Nat) : Declaration → Nat
  | .variable .. => 0
  | .procedure _ inner own =>
    max (declarationsDepthBy measure step inner) (bodyDepthBy measure step own + step) + step

/-- The largest measure in declarations. -/
def declarationsDepthBy (measure : Expr → Nat) (step : Nat) : List Declaration → Nat
  | [] => 0
  | first :: others =>
    max (first.depthBy measure step) (declarationsDepthBy measure step others)

end

/-- The largest measure in a block. -/
def Block.depthBy (measure : Expr → Nat) (step : Nat) (b : Block) : Nat :=
  max (declarationsDepthBy measure step b.declarations) (bodyDepthBy measure step b.body + step)

/-- The height of the tree of a program. -/
def Program.height (p : Program) : Nat := p.block.depthBy Expr.height 1

/-- The longest chain of operators in a program. -/
def Program.longestChain (p : Program) : Nat := p.block.depthBy Expr.longestChain 0

section Measures

variable {measure measure' : Expr → Nat} {step step' b : Nat}

theorem bodyDepthBy_le_iff {body : List Statement} :
    bodyDepthBy measure step body ≤ b ↔ ∀ s ∈ body, s.depthBy measure step ≤ b := by
  induction body with
  | nil => simp [bodyDepthBy]
  | cons first others ih => rw [bodyDepthBy, Nat.max_le, ih, List.forall_mem_cons]

theorem declarationsDepthBy_le_iff {ds : List Declaration} :
    declarationsDepthBy measure step ds ≤ b ↔ ∀ d ∈ ds, d.depthBy measure step ≤ b := by
  induction ds with
  | nil => simp [declarationsDepthBy]
  | cons first others ih => rw [declarationsDepthBy, Nat.max_le, ih, List.forall_mem_cons]

mutual

theorem Statement.depthBy_mono (hmeasure : ∀ e, measure e ≤ measure' e) (hstep : step ≤ step')
    (s : Statement) : s.depthBy measure step ≤ s.depthBy measure' step' := by
  match s with
  | .empty => exact Nat.le_refl _
  | .assign _ value _ => exact hmeasure value
  | .compound body => exact Nat.add_le_add (bodyDepthBy_mono hmeasure hstep body) hstep

theorem bodyDepthBy_mono (hmeasure : ∀ e, measure e ≤ measure' e) (hstep : step ≤ step')
    (body : List Statement) : bodyDepthBy measure step body ≤ bodyDepthBy measure' step' body := by
  match body with
  | [] => exact Nat.le_refl _
  | first :: others =>
    have hfirst := Statement.depthBy_mono hmeasure hstep first
    have hothers := bodyDepthBy_mono hmeasure hstep others
    rw [bodyDepthBy, bodyDepthBy]
    omega

end

mutual

theorem Declaration.depthBy_mono (hmeasure : ∀ e, measure e ≤ measure' e) (hstep : step ≤ step')
    (d : Declaration) : d.depthBy measure step ≤ d.depthBy measure' step' := by
  match d with
  | .variable .. => exact Nat.le_refl _
  | .procedure _ inner own =>
    have hinner := declarationsDepthBy_mono hmeasure hstep inner
    have hown := bodyDepthBy_mono hmeasure hstep own
    rw [Declaration.depthBy, Declaration.depthBy]
    omega

theorem declarationsDepthBy_mono (hmeasure : ∀ e, measure e ≤ measure' e) (hstep : step ≤ step')
    (ds : List Declaration) :
    declarationsDepthBy measure step ds ≤ declarationsDepthBy measure' step' ds := by
  match ds with
  | [] => exact Nat.le_refl _
  | first :: others =>
    have hfirst := Declaration.depthBy_mono hmeasure hstep first
    have hothers := declarationsDepthBy_mono hmeasure hstep others
    rw [declarationsDepthBy, declarationsDepthBy]
    omega

end

end Measures

theorem Program.longestChain_le_height (p : Program) : p.longestChain ≤ p.height := by
  have hds := declarationsDepthBy_mono Expr.longestChain_le_height (Nat.zero_le 1)
    p.block.declarations
  have hbody := bodyDepthBy_mono Expr.longestChain_le_height (Nat.zero_le 1) p.block.body
  rw [longestChain, height, Block.depthBy, Block.depthBy]
  omega

/-! ## Phrases are not high

With chains of at most `k` operators, a level of nesting adds at most `2 * k + 1`: a
chain of terms, a chain of factors, and what makes the level. -/

section Bounds

variable {k n : Nat} {ts : List Token}

/-- A chain is as high as its operands, and one more for each of its operators. -/
theorem height_le_spine_add {Op : Kind → BinaryOperator → Prop} {P : Phrase Expr} {b : Nat}
    {e : Expr} (h : Chain Op P n ts e)
    (hP : ∀ m ≤ n, ∀ us e, P m us e → e.longestChain ≤ k → e.height ≤ b)
    (hk : e.longestChain ≤ k) : e.height ≤ e.spine + b := by
  induction h with
  | @single n ts e hsingle =>
    have hheight := hP n (Nat.le_refl n) ts e hsingle hk
    omega
  | @link n m ts us left right op mark _ _ hright ih =>
    rw [Expr.longestChain] at hk
    -- the left operand is the shorter chain, the right one a single operand
    have hleft := ih (fun m' hm' => hP m' (by omega)) (by omega)
    have hright := hP m (by omega) us right hright (by omega)
    rw [Expr.height, Expr.spine]
    omega

theorem height_le_of_chain {Op : Kind → BinaryOperator → Prop} {P : Phrase Expr} {b : Nat}
    {e : Expr} (h : Chain Op P n ts e)
    (hP : ∀ m ≤ n, ∀ us e, P m us e → e.longestChain ≤ k → e.height ≤ b)
    (hk : e.longestChain ≤ k) : e.height ≤ k + b := by
  have hheight := height_le_spine_add h hP hk
  have hspine := e.spine_le_longestChain
  omega

/-- An expression has two chains above its factors. -/
theorem height_le_of_factors {b : Nat} {e : Expr} (h : IsExpression n ts e)
    (hfactor : ∀ m ≤ n, ∀ us e, IsFactor m us e → e.longestChain ≤ k → e.height ≤ b)
    (hk : e.longestChain ≤ k) : e.height ≤ 2 * k + b := by
  have hterm : ∀ m ≤ n, ∀ us e, IsTerm m us e → e.longestChain ≤ k → e.height ≤ k + b := by
    intro m hm us e hterm hk
    exact height_le_of_chain hterm (fun m' hm' => hfactor m' (Nat.le_trans hm' hm)) hk
  have hheight := height_le_of_chain h hterm hk
  omega

/-- Signs and groups are the levels of a factor, so the recursion is on the nesting. -/
theorem height_le_of_isFactor {e : Expr} (h : IsFactor n ts e) (hk : e.longestChain ≤ k) :
    e.height ≤ (2 * k + 1) * n := by
  induction n using Nat.strongRecOn generalizing ts e with
  | ind n ih =>
    cases h with
    | @signed n ts e op sign hsign hoperand =>
      have hheight := ih n (Nat.lt_succ_self n) hoperand hk
      rw [Expr.height, Nat.mul_succ]
      omega
    | integer => exact Nat.zero_le _
    | real => exact Nat.zero_le _
    | name => exact Nat.zero_le _
    | @group n ts _ opening closing _ hinside _ =>
      -- a group is no node: its level pays for the two chains inside it
      have hfactor : ∀ m ≤ n, ∀ us e, IsFactor m us e → e.longestChain ≤ k →
          e.height ≤ (2 * k + 1) * n := by
        intro m hm us e hfactor hk
        have hheight := ih m (Nat.lt_succ_of_le hm) hfactor hk
        exact Nat.le_trans hheight (Nat.mul_le_mul_left _ hm)
      have hheight := height_le_of_factors hinside hfactor hk
      rw [Nat.mul_succ]
      omega

/-- The bound for whatever nests `n` deep. -/
def heightBound (k n : Nat) : Nat := 2 * k + (2 * k + 1) * n

theorem heightBound_mono {m : Nat} (h : m ≤ n) : heightBound k m ≤ heightBound k n :=
  Nat.add_le_add_left (Nat.mul_le_mul_left _ h) _

theorem heightBound_mono_chain {l : Nat} (h : l ≤ k) : heightBound l n ≤ heightBound k n := by
  have hmul : (2 * l + 1) * n ≤ (2 * k + 1) * n := Nat.mul_le_mul_right _ (by omega)
  rw [heightBound, heightBound]
  omega

/-- A level makes room for what it adds itself. -/
theorem heightBound_succ_le : heightBound k n + 1 ≤ heightBound k (n + 1) := by
  rw [heightBound, heightBound, Nat.mul_succ]
  omega

theorem height_le_of_isExpression {e : Expr} (h : IsExpression n ts e)
    (hk : e.longestChain ≤ k) : e.height ≤ heightBound k n := by
  refine height_le_of_factors h (fun m hm us e hfactor hk => ?_) hk
  exact Nat.le_trans (height_le_of_isFactor hfactor hk) (Nat.mul_le_mul_left _ hm)

theorem height_le_of_isStatement {s : Statement} (h : IsStatement n ts s)
    (hk : s.depthBy Expr.longestChain 0 ≤ k) : s.depthBy Expr.height 1 ≤ heightBound k n := by
  induction n using Nat.strongRecOn generalizing ts s with
  | ind n ih =>
    cases h with
    | empty => exact Nat.zero_le _
    | assign _ _ hvalue => exact height_le_of_isExpression hvalue hk
    | @compound _ _ body hcompound =>
      cases hcompound with
      | @mk n ts _ _ _ _ hbody _ =>
        have hchains : ∀ s ∈ body, s.depthBy Expr.longestChain 0 ≤ k := bodyDepthBy_le_iff.mp hk
        have hheights : bodyDepthBy Expr.height 1 body ≤ heightBound k n := by
          refine bodyDepthBy_le_iff.mpr fun s hs => ?_
          obtain ⟨m, us, hm, hphrase⟩ := hbody.exists_of_mem s hs
          exact Nat.le_trans (ih m (Nat.lt_succ_of_le hm) hphrase (hchains s hs))
            (heightBound_mono hm)
        exact Nat.le_trans (Nat.add_le_add_right hheights 1) heightBound_succ_le

/-- The body of a block counts for itself. -/
theorem height_le_of_isCompound {body : List Statement} (h : IsCompound n ts body)
    (hk : bodyDepthBy Expr.longestChain 0 body ≤ k) :
    bodyDepthBy Expr.height 1 body + 1 ≤ heightBound k n :=
  height_le_of_isStatement (.compound h) hk

theorem depthBy_of_entry {measure : Expr → Nat} {step : Nat} {declared : List Declaration}
    (h : IsVariableEntry n ts declared) : ∀ d ∈ declared, d.depthBy measure step = 0 := by
  intro d hd
  cases h with
  | mk hline _ =>
    cases hline with
    | mk _ _ _ =>
      obtain ⟨name, -, rfl⟩ := List.mem_map.mp hd
      rfl

/-- Sections declare variables, which have no height. -/
theorem depthBy_of_section {measure : Expr → Nat} {step : Nat} {declared : List Declaration}
    (h : IsVariableSection n ts declared) : ∀ d ∈ declared, d.depthBy measure step = 0 := by
  intro d hd
  cases h with
  | mk _ hfirst hothers =>
    obtain ⟨line, hline, hmem⟩ := List.mem_flatten.mp hd
    rcases List.mem_cons.mp hline with rfl | hline
    · exact depthBy_of_entry hfirst d hmem
    · obtain ⟨m, us, -, hentry⟩ := hothers.exists_of_mem line hline
      exact depthBy_of_entry hentry d hmem

theorem height_le_of_isBlock {P : Phrase Declaration} {b : Block} (h : BlockOf P n ts b)
    (hP : ∀ m ≤ n, ∀ us d, P m us d → d.depthBy Expr.longestChain 0 ≤ k →
      d.depthBy Expr.height 1 ≤ heightBound k n)
    (hk : b.depthBy Expr.longestChain 0 ≤ k) : b.depthBy Expr.height 1 ≤ heightBound k n := by
  cases h with
  | @mk n m l ts us vs sections procedures body hsections hprocedures hbody =>
    obtain ⟨hdeclared, hown⟩ := Nat.max_le.mp hk
    have hchains := declarationsDepthBy_le_iff.mp hdeclared
    refine Nat.max_le.mpr ⟨declarationsDepthBy_le_iff.mpr fun d hd => ?_, ?_⟩
    · rcases List.mem_append.mp hd with hd' | hd'
      -- variables do not count, so only the procedures and the body are left
      · obtain ⟨declared, hdeclared, hd'⟩ := List.mem_flatten.mp hd'
        obtain ⟨m', us', -, hsection⟩ := hsections.exists_of_mem declared hdeclared
        rw [depthBy_of_section hsection d hd']
        exact Nat.zero_le _
      · obtain ⟨m', us', hm', hprocedure⟩ := hprocedures.exists_of_mem d hd'
        exact hP m' (by omega) us' d hprocedure (hchains d hd)
    · exact Nat.le_trans (height_le_of_isCompound hbody hown) (heightBound_mono (by omega))

theorem height_le_of_isProcedure {d : Declaration} (h : IsProcedure n ts d)
    (hk : d.depthBy Expr.longestChain 0 ≤ k) : d.depthBy Expr.height 1 ≤ heightBound k n := by
  induction n using Nat.strongRecOn generalizing ts d with
  | ind n ih =>
    cases h with
    | @mk n ts name block _ _ _ _ _ _ _ hblock _ =>
      have hheight : block.depthBy Expr.height 1 ≤ heightBound k n := by
        refine height_le_of_isBlock hblock (fun m hm us d hprocedure hk => ?_) hk
        exact Nat.le_trans (ih m (Nat.lt_succ_of_le hm) hprocedure hk) (heightBound_mono hm)
      exact Nat.le_trans (Nat.add_le_add_right hheight 1) heightBound_succ_le

/-- A program is no higher than its nesting and its longest chain make it. -/
theorem height_le_of_isProgram {p : Program} (h : IsProgram n ts p) :
    p.height ≤ heightBound p.longestChain n := by
  cases h with
  | mk _ _ _ hblock _ =>
    refine height_le_of_isBlock hblock (fun m hm us d hprocedure hk => ?_) (Nat.le_refl _)
    exact Nat.le_trans (height_le_of_isProcedure hprocedure hk) (heightBound_mono hm)

theorem height_le_of_parse {source : String} {tree : Program} (h : parse source = .ok tree) :
    tree.height ≤ heightBound tree.longestChain maxNesting := by
  obtain ⟨ts, n, -, hphrase, hn⟩ := exists_of_parse h
  exact Nat.le_trans (height_le_of_isProgram hphrase) (heightBound_mono hn)

end Bounds

/-! ## Chains of any length -/

/-- `+ 1`, so many times over. -/
def plusOnes : Nat → List Lexeme
  | 0 => []
  | k + 1 => .space :: .ofTerminal .plus :: .space :: .ofNat 1 :: plusOnes k

/-- `1 + 1 + … + 1` with `k` operators. -/
def ones (k : Nat) : List Lexeme := .ofNat 1 :: plusOnes k

/-- The text of the chain. -/
def onesText (k : Nat) : String := String.ofList (spell (ones k))

/-- It is a flat chain. -/
theorem plusOnes_eq (k : Nat) :
    plusOnes k = linkLexemes (List.replicate k (.add, ⟨1, by decide⟩)) := by
  induction k with
  | zero => rfl
  | succ k ih => rw [plusOnes, ih, List.replicate_succ, linkLexemes]; rfl

theorem isTerm_one (lexeme : String) (p : Position) :
    IsTerm 0 [⟨.integerConstant (Int64.ofNat 1), lexeme, p⟩]
      (.literal (.integer (Int64.ofNat 1)) p) := .single (.integer rfl)

/-- Each operator of the chain makes its spine one longer. -/
theorem exists_chain_of_plusOnes (k : Nat) (p : Position) {ts : List Token} {e : Expr}
    (h : IsExpression 0 ts e) :
    ∃ e', IsExpression 0 (ts ++ tokensFrom p (plusOnes k)) e' ∧ e'.spine = e.spine + k := by
  induction k generalizing p ts e with
  | zero => exact ⟨e, by rwa [show tokensFrom p (plusOnes 0) = [] from rfl, List.append_nil], rfl⟩
  | succ k ih =>
    rw [plusOnes, tokensFrom_space, tokensFrom_ofTerminal, tokensFrom_space,
      tokensFrom_ofNat _ (by decide)]
    generalize p.advance [' '] = p₁
    generalize (p₁.advance Terminal.plus.spelling.toList).advance [' '] = p₂
    generalize p₂.advance (Nat.toDigits 10 1) = p₃
    have hplus : Additive (Token.mk (.terminal .plus) Terminal.plus.spelling p₁).kind .add := .plus
    obtain ⟨e', hphrase, hspine⟩ := ih p₃ (Chain.link h hplus (isTerm_one _ p₂))
    refine ⟨e', ?_, ?_⟩
    · rwa [List.append_assoc] at hphrase
    · rw [hspine, Expr.spine]
      omega

/-- The tree of the chain is higher than it has operators. -/
theorem exists_high_tree (k : Nat) :
    ∃ tree, parse (Assigning.source (onesText k)) = .ok tree ∧ k < tree.height := by
  have hspell : (onesText k).toList = spell (ones k) := String.toList_ofList
  rw [ones, plusOnes_eq] at hspell
  obtain ⟨p, hscans⟩ := scans_chain ⟨1, by decide⟩ _ hspell
  rw [← plusOnes_eq, tokensFrom_ofNat _ (by decide)] at hscans
  obtain ⟨e, hphrase, hspine⟩ := exists_chain_of_plusOnes k _ (.single (isTerm_one _ ⟨1, 43⟩))
  have hparse := parse_of_phrase hscans (Assigning.isProgram hphrase p) (by decide)
  have hheight : (Assigning.tree e).height = max 0 (max e.height 0 + 1) := rfl
  have hle := e.spine_le_height
  refine ⟨_, hparse, ?_⟩
  change e.spine = 0 + k at hspine
  omega

/-- **What bounds the height.** Of any class of sources, the trees are bounded in height
exactly if their chains of operators are bounded in length: a tree is at least as high as
its longest chain, and the limit on nesting bounds it only in proportion to that. What
nests beyond the limit is refused for it. -/
theorem heights_bounded_iff_chains_bounded (sources : String → Prop) :
    ((∃ bound, ∀ source tree, sources source → parse source = .ok tree → tree.height ≤ bound) ↔
      ∃ k, ∀ source tree, sources source → parse source = .ok tree → tree.longestChain ≤ k) ∧
    (∀ source tree, parse source = .ok tree →
      tree.longestChain ≤ tree.height ∧
        tree.height ≤ heightBound tree.longestChain maxNesting) ∧
    (∀ source ts n tree, Scans source ts → IsProgram n ts tree → maxNesting < n →
      ∃ position, parse source = .error ⟨.grammatical (.nestingTooDeep maxNesting), position⟩) := by
  refine ⟨⟨?_, ?_⟩, fun source tree hparse => ?_, fun source ts n tree => parse_tooDeep⟩
  · rintro ⟨bound, hbound⟩
    refine ⟨bound, fun source tree hsource hparse => ?_⟩
    exact Nat.le_trans tree.longestChain_le_height (hbound source tree hsource hparse)
  · rintro ⟨k, hk⟩
    refine ⟨heightBound k maxNesting, fun source tree hsource hparse => ?_⟩
    exact Nat.le_trans (height_le_of_parse hparse)
      (heightBound_mono_chain (hk source tree hsource hparse))
  · exact ⟨tree.longestChain_le_height, height_le_of_parse hparse⟩

/-- Over all sources there is no bound. -/
theorem heights_unbounded :
    ¬ ∃ bound, ∀ source tree, parse source = .ok tree → tree.height ≤ bound := by
  rintro ⟨bound, hbound⟩
  obtain ⟨tree, hparse, hheight⟩ := exists_high_tree bound
  exact absurd (hbound _ tree hparse) (Nat.not_le_of_lt hheight)

/-- So many minus signs in front of a one. -/
def Whole.signs : Nat → Whole
  | 0 => .one
  | k + 1 => .signed .minus (signs k)

theorem Whole.nesting_signs (k : Nat) : (signs k).nesting = k := by
  induction k with
  | zero => rfl
  | succ k ih => rw [signs, nesting, ih]

/-- A thousand operators make a tree that is bounded only together with them, and 128
signs in the body of a program are refused. -/
theorem heights_bounded_thousand_ones :
    (∃ tree, parse (Assigning.source (onesText 1000)) = .ok tree ∧ 1000 < tree.height ∧
      tree.height ≤ heightBound tree.longestChain maxNesting) ∧
    ∃ position, parse (Assigning.source (Whole.signs 128).text) =
      .error ⟨.grammatical (.nestingTooDeep maxNesting), position⟩ := by
  have hgeneral := heights_bounded_iff_chains_bounded fun _ => True
  obtain ⟨tree, hparse, hheight⟩ := exists_high_tree 1000
  obtain ⟨ts, e, hscans, hphrase, -⟩ := (Whole.signs 128).exists_program
  rw [Whole.nesting_signs] at hphrase
  exact ⟨⟨tree, hparse, hheight, (hgeneral.2.1 _ tree hparse).2⟩,
    hgeneral.2.2 _ ts _ _ hscans hphrase (by decide)⟩

end MiniPascal
