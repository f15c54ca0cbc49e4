/-
`Landmarks.lean` -- every place in a tree is the place of its token.

A node of a tree carries a place, and with its name, its value or its operator it also
says what stands there. Listed in the order of the text these are the landmarks of the
tree. Parsing has taken each of them from one token, and in the order of the tokens, so
they are the kinds and the places of some of the tokens that the phrase consists of
(`shows_of_isProgram`). Statements about a place in a tree become statements about a
token in this way, and statements about two places in order too. On the way it is noted
that the end of the input is part of no phrase.

Groups, separators and reserved words leave no landmark, since the tree does not show
them.
-/
import MiniPascal.Proofs.Execution
import MiniPascal.Proofs.Walk

set_option autoImplicit false

namespace MiniPascal

open Phrase

/-! ## Landmarks -/

/-- What stands at a place. -/
abbrev Landmark := Kind × Position

/-- A token, without its text. -/
def Token.landmark (t : Token) : Landmark := (t.kind, t.position)

/-- A name where it occurs. -/
def Identifier.landmark (x : Identifier) : Landmark := (.identifier x.name, x.position)

/-- The landmarks of an expression. -/
def Expr.landmarks : Expr → List Landmark
  | .literal value position => [(value.kind, position)]
  | .variable name => [name.landmark]
  | .binary op left right position =>
    left.landmarks ++ (.terminal op.terminal, position) :: right.landmarks
  | .unary op operand position => (.terminal op.terminal, position) :: operand.landmarks

mutual

/-- The landmarks of a statement. -/
def Statement.landmarks : Statement → List Landmark
  | .empty => []
  | .assign target value position =>
    target.landmark :: (.terminal .assign, position) :: value.landmarks
  | .compound body => bodyLandmarks body

/-- The landmarks of a body. -/
def bodyLandmarks : List Statement → List Landmark
  | [] => []
  | first :: others => first.landmarks ++ bodyLandmarks others

end

mutual

/-- The landmarks of a declaration. -/
def Declaration.landmarks : Declaration → List Landmark
  | .variable name _ => [name.landmark]
  | .procedure name inner own =>
    name.landmark :: (declarationLandmarks inner ++ bodyLandmarks own)

/-- The landmarks of declarations. -/
def declarationLandmarks : List Declaration → List Landmark
  | [] => []
  | first :: others => first.landmarks ++ declarationLandmarks others

end

/-- The landmarks of a block. -/
def Block.landmarks (b : Block) : List Landmark :=
  declarationLandmarks b.declarations ++ bodyLandmarks b.body

/-- The landmarks of a program. -/
def Program.landmarks (p : Program) : List Landmark := p.name.landmark :: p.block.landmarks

theorem bodyLandmarks_eq (body : List Statement) :
    bodyLandmarks body = body.flatMap Statement.landmarks := by
  induction body with
  | nil => rfl
  | cons first others ih => rw [bodyLandmarks, ih, List.flatMap_cons]

theorem declarationLandmarks_eq (ds : List Declaration) :
    declarationLandmarks ds = ds.flatMap Declaration.landmarks := by
  induction ds with
  | nil => rfl
  | cons first others ih => rw [declarationLandmarks, ih, List.flatMap_cons]

theorem declarationLandmarks_append (ds es : List Declaration) :
    declarationLandmarks (ds ++ es) = declarationLandmarks ds ++ declarationLandmarks es := by
  rw [declarationLandmarks_eq, declarationLandmarks_eq, declarationLandmarks_eq,
    List.flatMap_append]

theorem declarationLandmarks_flatten (parts : List (List Declaration)) :
    declarationLandmarks parts.flatten = parts.flatMap declarationLandmarks := by
  induction parts with
  | nil => rfl
  | cons part parts ih =>
    rw [List.flatten_cons, declarationLandmarks_append, ih, List.flatMap_cons]

/-! ## Phrases show their landmarks

Phrases of a class that is recursive are taken up to a bound on their nesting, which is
what the recursion goes by. -/

namespace Phrase

variable {α : Type} {n m b : Nat} {ts us : List Token}

/-- The landmarks stand in the tokens, in this order, and no token is the end of the
input. -/
structure Shows (ts : List Token) (marks : List Landmark) : Prop where
  sublist : marks.Sublist (ts.map Token.landmark)
  not_end : ∀ t ∈ ts, t.kind.isEnd = false

section Shows

variable {marks marks' : List Landmark} {mark : Landmark} {t : Token}

theorem shows_nil : Shows [] [] := ⟨.slnil, nofun⟩

theorem Shows.append (h : Shows ts marks) (h' : Shows us marks') :
    Shows (ts ++ us) (marks ++ marks') := by
  refine ⟨?_, List.forall_mem_append.mpr ⟨h.not_end, h'.not_end⟩⟩
  rw [List.map_append]
  exact h.sublist.append h'.sublist

theorem Shows.cons (ht : t.landmark = mark) (hend : t.kind.isEnd = false) (h : Shows ts marks) :
    Shows (t :: ts) (mark :: marks) := by
  subst ht
  exact ⟨h.sublist.cons_cons _, List.forall_mem_cons.mpr ⟨hend, h.not_end⟩⟩

/-- A token that leaves no landmark, in front. -/
theorem Shows.skip (h : Shows ts marks) (hend : t.kind.isEnd = false) : Shows (t :: ts) marks :=
  ⟨h.sublist.cons _, List.forall_mem_cons.mpr ⟨hend, h.not_end⟩⟩

/-- A token that leaves no landmark, behind. -/
theorem Shows.before (h : Shows ts marks) (hend : t.kind.isEnd = false) :
    Shows (ts ++ [t]) marks := by
  have hall := h.append (.skip shows_nil hend)
  rwa [List.append_nil] at hall

theorem shows_name {name : String} (h : t.Names name) :
    Shows [t] [Identifier.landmark ⟨name, t.position⟩] :=
  .cons (congrArg (·, t.position) h) h.not_end shows_nil

end Shows

/-- Every phrase of the class that does not nest deeper than `b` shows the landmarks of its
tree. -/
def Marked (P : Phrase α) (landmarks : α → List Landmark) (b : Nat) : Prop :=
  ∀ ⦃n ts a⦄, n ≤ b → P n ts a → Shows ts (landmarks a)

section Repetition

variable {P : Phrase α} {landmarks : α → List Landmark}

theorem Marked.many (hP : Marked P landmarks b) :
    Marked (Many P) (fun as => as.flatMap landmarks) b := by
  intro n ts as hn h
  induction h with
  | nil => exact shows_nil
  | cons ha _ ih =>
    dsimp only
    rw [List.flatMap_cons]
    exact (hP (Nat.le_trans (Nat.le_max_left _ _) hn) ha).append
      (ih (Nat.le_trans (Nat.le_max_right _ _) hn))

theorem Marked.separated {k : Terminal} (hP : Marked P landmarks b) :
    Marked (Separated k P) (fun as => as.flatMap landmarks) b := by
  intro n ts as hn h
  induction h with
  | single ha =>
    dsimp only
    rw [List.flatMap_singleton]
    exact hP hn ha
  | cons ha hmark _ ih =>
    dsimp only
    rw [List.flatMap_cons]
    exact (hP (Nat.le_trans (Nat.le_max_left _ _) hn) ha).append
      ((ih (Nat.le_trans (Nat.le_max_right _ _) hn)).skip hmark.not_end)

end Repetition

theorem Marked.chain {Op : Kind → BinaryOperator → Prop} {P : Phrase Expr}
    (hop : ∀ {kind op}, Op kind op → kind = .terminal op.terminal)
    (hP : Marked P Expr.landmarks b) : Marked (Chain Op P) Expr.landmarks b := by
  intro n ts e hn h
  induction h with
  | single he => exact hP hn he
  | link _ hmark hright ih =>
    have hend := Token.Is.not_end (hop hmark)
    rw [Expr.landmarks, ← hop hmark]
    exact (ih (Nat.le_trans (Nat.le_max_left _ _) hn)).append
      (.cons rfl hend (hP (Nat.le_trans (Nat.le_max_right _ _) hn) hright))

/-! ### Expressions -/

theorem Additive.kind_eq {kind : Kind} {op : BinaryOperator} (h : Additive kind op) :
    kind = .terminal op.terminal := by
  cases h <;> rfl

theorem Multiplicative.kind_eq {kind : Kind} {op : BinaryOperator} (h : Multiplicative kind op) :
    kind = .terminal op.terminal := by
  cases h <;> rfl

theorem Sign.kind_eq {kind : Kind} {op : UnaryOperator} (h : Sign kind op) :
    kind = .terminal op.terminal := by
  cases h <;> rfl

theorem marked_expression_of (h : Marked IsFactor Expr.landmarks b) :
    Marked IsExpression Expr.landmarks b :=
  .chain Additive.kind_eq (.chain Multiplicative.kind_eq h)

theorem marked_factor (b : Nat) : Marked IsFactor Expr.landmarks b := by
  induction b using Nat.strongRecOn with
  | ind b ih =>
    intro n ts e hn h
    cases h with
    | signed hsign he =>
      rw [Expr.landmarks, ← hsign.kind_eq]
      exact .cons rfl hsign.not_end (ih _ hn (Nat.le_refl _) he)
    | integer hkind =>
      rw [Expr.landmarks, Number.kind, ← hkind]
      exact .cons rfl (by rw [hkind]; rfl) shows_nil
    | real hkind =>
      rw [Expr.landmarks, Number.kind, ← hkind]
      exact .cons rfl (by rw [hkind]; rfl) shows_nil
    | name hname => exact shows_name hname
    | group hopen he hclose =>
      have hinside := marked_expression_of (ih _ hn) (Nat.le_refl _) he
      exact (hinside.before hclose.not_end).skip hopen.not_end

theorem marked_expression (b : Nat) : Marked IsExpression Expr.landmarks b :=
  marked_expression_of (marked_factor b)

/-! ### Statements -/

theorem marked_compound_of (h : Marked IsStatement Statement.landmarks b) {body : List Statement}
    (hn : n ≤ b + 1) (hbody : IsCompound n ts body) : Shows ts (bodyLandmarks body) := by
  cases hbody with
  | mk hopen hlist hclose =>
    have hinside := h.separated (Nat.le_of_succ_le_succ hn) hlist
    rw [bodyLandmarks_eq]
    exact (hinside.before hclose.not_end).skip hopen.not_end

theorem marked_statement (b : Nat) : Marked IsStatement Statement.landmarks b := by
  induction b using Nat.strongRecOn with
  | ind b ih =>
    intro n ts s hn h
    cases h with
    | empty => exact shows_nil
    | @assign n ts e name target mark htarget hmark he =>
      have hassign : mark.landmark = (.terminal .assign, mark.position) :=
        congrArg (·, mark.position) hmark
      exact (shows_name htarget).append
        (.cons hassign hmark.not_end (marked_expression b hn he))
    | compound hbody =>
      cases n with
      | zero => cases hbody
      | succ n => exact marked_compound_of (ih n hn) (Nat.le_refl _) hbody

theorem marked_compound (b : Nat) : Marked IsCompound bodyLandmarks b :=
  fun _ _ _ hn hbody => marked_compound_of (marked_statement b) (Nat.le_succ_of_le hn) hbody

/-! ### Declarations -/

theorem marked_variableLine (b : Nat) : Marked IsVariableLine declarationLandmarks b := by
  intro n ts declared hn h
  cases h with
  | @mk n ts names type colon word hnames hcolon hword =>
    have hname : Marked IsIdentifier (fun x => [x.landmark]) b := by
      rintro n ts x - ⟨hname⟩
      exact shows_name hname
    have hflat : declarationLandmarks (names.map fun name => .variable name type) =
        names.flatMap fun x => [x.landmark] := by
      rw [declarationLandmarks_eq, List.flatMap_map]
      rfl
    have hline := ((hname.separated hn hnames).before hcolon.not_end).before hword.not_end
    rw [List.append_assoc] at hline
    rw [hflat]
    exact hline

theorem marked_variableEntry (b : Nat) : Marked IsVariableEntry declarationLandmarks b := by
  rintro n ts declared hn ⟨hline, hmark⟩
  exact (marked_variableLine b hn hline).before hmark.not_end

theorem marked_variableSection (b : Nat) : Marked IsVariableSection declarationLandmarks b := by
  rintro n ts declared hn ⟨hword, hfirst, hothers⟩
  have hfirst := marked_variableEntry b (Nat.le_trans (Nat.le_max_left _ _) hn) hfirst
  have hothers := (marked_variableEntry b).many (Nat.le_trans (Nat.le_max_right _ _) hn) hothers
  rw [declarationLandmarks_flatten, List.flatMap_cons]
  exact (hfirst.append hothers).skip hword.not_end

theorem marked_blockOf {P : Phrase Declaration} (h : Marked P Declaration.landmarks b) :
    Marked (BlockOf P) Block.landmarks b := by
  intro n ts block hn hblock
  cases hblock with
  | @mk n m k ts us vs sections procedures body hsections hprocedures hbody =>
    have hsections := (marked_variableSection b).many (by omega) hsections
    have hprocedures := h.many (by omega) hprocedures
    have hbody := marked_compound b (by omega) hbody
    rw [Block.landmarks, declarationLandmarks_append, declarationLandmarks_flatten,
      declarationLandmarks_eq procedures, List.append_assoc]
    exact hsections.append (hprocedures.append hbody)

theorem marked_procedure (b : Nat) : Marked IsProcedure Declaration.landmarks b := by
  induction b using Nat.strongRecOn with
  | ind b ih =>
    intro n ts d hn h
    cases h with
    | @mk n ts name block word title mark closing hword htitle hmark hblock hclosing =>
      have hinside := marked_blockOf (ih n hn) (Nat.le_refl n) hblock
      have htail := (hinside.before hclosing.not_end).skip hmark.not_end
      exact ((shows_name htitle).append htail).skip hword.not_end

/-- **A tree points at its tokens.** The landmarks of a program are kinds and places of
tokens of its phrase, in the order of the tokens. -/
theorem shows_of_isProgram {p : Program} (h : IsProgram n ts p) : Shows ts p.landmarks := by
  cases h with
  | @mk n ts name block word title mark dot hword htitle hmark hblock hdot =>
    have hinside := marked_blockOf (marked_procedure n) (Nat.le_refl n) hblock
    have htail := (hinside.before hdot.not_end).skip hmark.not_end
    exact ((shows_name htitle).append htail).skip hword.not_end

end Phrase

end MiniPascal
