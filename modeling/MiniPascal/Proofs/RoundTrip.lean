/-
`RoundTrip.lean` -- writing a tree and parsing what is written.

The text of a printable tree is cut into the tokens that were written, since a blank
stands behind each of them. These tokens are a phrase with the tree, apart from places
(`Rendering.lean`), and parsing does not look at places (`Blind.lean`). So parsing gives
the tree back, or refuses it for its nesting.

Conversely whatever is parsed is printable. The tokens of a source are matched by
patterns, and the conditions on names and numbers are those of the patterns; the
conditions on the shape are those of the grammar. Together the printable trees are
exactly those that parsing can give, up to places and the limit (`parse_render`).
-/
import MiniPascal.Proofs.Relayout
import MiniPascal.Proofs.Rendering

set_option autoImplicit false

namespace MiniPascal

open Lexeme Phrase

/-! ## The tokens of a printable tree have texts -/

/-- The text of each of the kinds is matched as this kind. -/
def Writable (w : RealWriter) (kinds : List Kind) : Prop :=
  ∀ kind ∈ kinds, Pattern (kind.spelling w) (.ok kind)

section Writable

variable {w : RealWriter} {kinds kinds' : List Kind}

theorem pattern_terminal (w : RealWriter) (which : Terminal) :
    Pattern ((Kind.terminal which).spelling w) (.ok (.terminal which)) := by
  by_cases hword : which ∈ Terminal.words
  · have hupper : ∀ word ∈ Terminal.words,
        word.spelling.toList.map Char.toUpper = word.spelling.toList := by decide
    exact .reserved hword (hupper which hword)
  · exact .mark hword

theorem IsName.pattern {name : String} (h : IsName name) :
    Pattern ((Kind.identifier name).spelling w) (.ok (.identifier name)) := by
  obtain ⟨⟨c, cs, hname, hc, hcs⟩, hnone⟩ := h
  rw [hname] at hnone
  have hpattern := Pattern.identifier hc hcs hnone
  rwa [← hname, String.ofList_toList] at hpattern

theorem Number.Printable.pattern {value : Number} (h : value.Printable) :
    Pattern (value.kind.spelling w) (.ok value.kind) := by
  cases value with
  | integer value =>
    obtain ⟨c, cs, hdigits, hall⟩ := exists_toDigits_eq value.toInt.toNat
    have hrun : Digits (Nat.toDigits 10 value.toInt.toNat) := by
      rw [hdigits]
      exact ⟨List.cons_ne_nil c cs, hall⟩
    have hvalue : value.toInt = Nat.ofDigitChars 10 (Nat.toDigits 10 value.toInt.toNat) 0 := by
      rw [Nat.ofDigitChars_ten_toDigits]
      exact (Int.toNat_of_nonneg h).symm
    exact .integer hrun hvalue
  | real value =>
    obtain ⟨hwhole, hfraction, hvalue⟩ := w.correct value h
    have hpattern := Pattern.real hwhole hfraction
    rwa [← decimalValue, ← hvalue] at hpattern

theorem writable_nil : Writable w [] := nofun

theorem Writable.append (h : Writable w kinds) (h' : Writable w kinds') :
    Writable w (kinds ++ kinds') :=
  List.forall_mem_append.mpr ⟨h, h'⟩

theorem Writable.terminal (which : Terminal) (h : Writable w kinds) :
    Writable w (.terminal which :: kinds) :=
  List.forall_mem_cons.mpr ⟨pattern_terminal w which, h⟩

theorem Writable.name {name : String} (hname : IsName name) (h : Writable w kinds) :
    Writable w (.identifier name :: kinds) :=
  List.forall_mem_cons.mpr ⟨hname.pattern, h⟩

theorem Writable.grouped (inner outer : Nat) (h : Writable w kinds) :
    Writable w (grouped inner outer kinds) := by
  rw [MiniPascal.grouped]
  split
  · exact (h.append (writable_nil.terminal _)).terminal _
  · exact h

end Writable

section Trees

variable (w : RealWriter)

theorem Expr.Printable.writable {e : Expr} (h : e.Printable) : Writable w e.kinds := by
  induction e with
  | literal value position => exact List.forall_mem_singleton.mpr (Number.Printable.pattern h)
  | «variable» x => exact writable_nil.name h
  | unary op operand position ih => exact ((ih h).grouped _ _).terminal _
  | binary op left right position ihleft ihright =>
    obtain ⟨hleft, hright⟩ := h
    exact ((ihleft hleft).grouped _ _).append (((ihright hright).grouped _ _).terminal _)

mutual

theorem writable_statement (s : Statement) (h : s.Printable) : Writable w s.kinds := by
  match s with
  | .empty => exact writable_nil
  | .assign target value position =>
    cases h with
    | assign htarget hvalue => exact ((hvalue.writable w).terminal _).name htarget
  | .compound body =>
    cases h with
    | compound _ hbody =>
      exact ((writable_body body hbody).append (writable_nil.terminal _)).terminal _

theorem writable_body (body : List Statement) (h : ∀ s ∈ body, s.Printable) :
    Writable w (bodyKinds body) := by
  match body with
  | [] => exact writable_nil
  | [only] => exact writable_statement only (h only List.mem_cons_self)
  | first :: second :: others =>
    obtain ⟨hfirst, hothers⟩ := List.forall_mem_cons.mp h
    exact (writable_statement first hfirst).append
      ((writable_body (second :: others) hothers).terminal _)

end

theorem writable_block {declarations : List Kind} {body : List Statement}
    (hdeclarations : Writable w declarations) (hbody : ∀ s ∈ body, s.Printable) :
    Writable w (blockKinds declarations body) :=
  hdeclarations.append
    (((writable_body w body hbody).append (writable_nil.terminal _)).terminal _)

mutual

theorem writable_declaration (d : Declaration) (h : d.Printable) : Writable w d.kinds := by
  match d with
  | .variable name type =>
    cases h with
    | «variable» hname =>
      exact ((((writable_nil.terminal _).terminal _).terminal _).name hname).terminal _
  | .procedure name declarations body =>
    cases h with
    | procedure hname hblock =>
      have hinner := writable_declarations declarations hblock.declarations
      exact ((((writable_block w hinner hblock.body).append
        (writable_nil.terminal _)).terminal _).name hname).terminal _

theorem writable_declarations (ds : List Declaration) (h : ∀ d ∈ ds, d.Printable) :
    Writable w (declarationKinds ds) := by
  match ds with
  | [] => exact writable_nil
  | first :: others =>
    obtain ⟨hfirst, hothers⟩ := List.forall_mem_cons.mp h
    exact (writable_declaration first hfirst).append (writable_declarations others hothers)

end

theorem Program.Printable.writable {p : Program} (h : p.Printable) : Writable w p.kinds := by
  have hblock := writable_block w (writable_declarations w _ h.block.declarations) h.block.body
  exact (((hblock.append (writable_nil.terminal _)).terminal _).name h.name).terminal _

end Trees

/-! ## The tokens are found again -/

/-- Kinds that have texts are cut from their text. Trivia in front is no obstacle, as the
blank behind one token stands in front of the next. -/
theorem exists_lexes_written {w : RealWriter} {kinds : List Kind} (h : Writable w kinds)
    (before : List Char) {gap : List Char} (hgap : Trivia gap) :
    ∃ ts, Lexes before (gap ++ written w kinds) ts ∧ ts.map Token.kind = kinds := by
  induction kinds generalizing before gap with
  | nil =>
    rw [written, List.flatMap_nil, List.append_nil]
    exact ⟨[], .finish hgap, rfl⟩
  | cons kind kinds ih =>
    obtain ⟨hkind, hkinds⟩ := List.forall_mem_cons.mp h
    have hblank : Trivia [' '] := .blank rfl .nil
    have hstop := hblank.stopsAt (List.cons_ne_nil _ _) (written w kinds)
    have htext : written w (kind :: kinds) = kind.spelling w ++ ([' '] ++ written w kinds) := by
      rw [written, List.flatMap_cons, List.append_assoc]
      rfl
    -- the blank is trivia in front of the rest
    obtain ⟨ts, hts, hsame⟩ := ih hkinds (before ++ gap ++ kind.spelling w) hblank
    rw [htext]
    exact ⟨_, .token hgap hkind (hkind.longest_of_stopsAt hstop) hts, congrArg (kind :: ·) hsame⟩

theorem exists_scans_render (w : RealWriter) {p : Program} (h : p.Printable) :
    ∃ ts, Scans (p.render w) ts ∧ ts.map Token.unplaced = p.kinds.map bare := by
  obtain ⟨ts, hts, hkinds⟩ := exists_lexes_written (h.writable w) [] .nil
  refine ⟨ts, scans_iff_lexes.mpr ?_, ?_⟩
  · rw [Program.render, String.toList_ofList]
    exact hts
  · rw [← hkinds, List.map_map]
    rfl

/-! ## Parsing by kinds -/

namespace Cursor

theorem pending_unplaced (c : Cursor) :
    c.unplaced.pending = c.pending.map (unplacedResult Token.unplaced) := by
  rw [pending, pending, kind_unplaced]
  split
  · rfl
  · rfl

theorem Orderly.unplaced {c : Cursor} (h : c.Orderly) : c.unplaced.Orderly := by
  refine ⟨h.closed, ?_⟩
  intro t ht
  obtain ⟨answer, hanswer, heq⟩ := List.mem_map.mp ht
  cases answer with
  | error e => cases heq
  | ok u =>
    cases heq
    exact h.not_end u hanswer

end Cursor

/-- If the kinds of a source are those of a phrase, then the source is parsed as the tree of
the phrase, up to places, or refused because the phrase nests too deeply. -/
theorem parse_of_kinds {source : String} {ts : List Token} {n : Nat} {tree : Program}
    (hscans : Scans source ts) (hphrase : IsProgram n (ts.map Token.unplaced) tree) :
    (n ≤ maxNesting → ∃ t, parse source = .ok t ∧ t.unplaced = tree) ∧
    (maxNesting < n →
      ∃ p, parse source = .error ⟨.grammatical (.nestingTooDeep maxNesting), p⟩) := by
  obtain ⟨c, hc⟩ := Cursor.exists_of_scans hscans
  obtain ⟨hpending, horderly, hdepth⟩ := Cursor.ofSource_eq_ok hc
  -- the cursor that has forgotten all places walks over the phrase
  have hwalks : c.unplaced.pending = (ts.map Token.unplaced).map .ok := by
    rw [Cursor.pending_unplaced, hpending, scans_iff_upcoming.mp hscans, List.map_map,
      List.map_map]
    rfl
  obtain ⟨c', hwalk, hend⟩ := (Cursor.walks_to_end_iff horderly.unplaced).mpr hwalks
  have hlevel : c.unplaced.depth = 0 := hdepth
  have hpasses := Rule.passes_wholeProgram (by omega) horderly.unplaced.closed hphrase hwalk hend
  have hblind := Blind.wholeProgram c
  constructor
  · intro hn
    rw [hpasses.ok (by omega)] at hblind
    -- the other cursor succeeds too, with a tree that is the same without places
    cases hresult : Rule.wholeProgram c with
    | ok t d =>
      rw [hresult] at hblind
      cases hblind
      exact ⟨t, parse_of_ok hc hresult, rfl⟩
    | error e d =>
      rw [hresult] at hblind
      cases hblind
  · intro hn
    obtain ⟨p, d, htoo⟩ := hpasses.tooDeep (by omega)
    rw [htoo] at hblind
    cases hresult : Rule.wholeProgram c with
    | ok t d =>
      rw [hresult] at hblind
      cases hblind
    | error e d =>
      rw [hresult] at hblind
      obtain ⟨fault, position⟩ := e
      cases hblind
      exact ⟨position, parse_of_error hc hresult⟩

/-! ## What is parsed is printable

Names and numbers are as their patterns say, whatever phrase they stand in. The induction
is on a bound of the nesting, as phrases contain phrases of their own class only deeper
inside. -/

/-- The token has a text. -/
def Token.Spelled (t : Token) : Prop := ∃ chars, Pattern chars (.ok t.kind)

theorem Lexes.spelled {before text : List Char} {ts : List Token} (h : Lexes before text ts) :
    ∀ t ∈ ts, t.Spelled := by
  induction h with
  | finish => exact nofun
  | token _ hpattern _ _ ih => exact List.forall_mem_cons.mpr ⟨⟨_, hpattern⟩, ih⟩

theorem Token.Spelled.isName {t : Token} {name : String} (h : t.Spelled) (hname : t.Names name) :
    IsName name := by
  obtain ⟨chars, hpattern⟩ := h
  rw [show t.kind = .identifier name from hname] at hpattern
  cases hpattern with
  | identifier hc hcs hnone =>
    refine ⟨⟨_, _, String.toList_ofList, hc, hcs⟩, ?_⟩
    rwa [String.toList_ofList]

theorem Token.Spelled.printable {t : Token} {value : Number} (h : t.Spelled)
    (hkind : t.kind = value.kind) : value.Printable := by
  obtain ⟨chars, hpattern⟩ := h
  rw [hkind] at hpattern
  cases value with
  | integer value =>
    cases hpattern with
    | integer _ hvalue =>
      rw [Number.Printable, hvalue]
      exact Int.natCast_nonneg _
  | real value =>
    generalize hreal : (Number.real value).kind = kind at hpattern
    cases hpattern with
    | real hwhole hfraction =>
      cases hreal
      exact ⟨_, _, hwhole, hfraction, rfl⟩
    | _ => cases hreal

namespace Phrase

variable {α : Type} {b : Nat}

/-- The trees of all phrases of the class that do not nest deeper than `b` have the
property, if their tokens have texts. -/
def Yields (P : Phrase α) (Q : α → Prop) (b : Nat) : Prop :=
  ∀ ⦃n ts a⦄, n ≤ b → P n ts a → (∀ t ∈ ts, t.Spelled) → Q a

theorem Yields.many {P : Phrase α} {Q : α → Prop} (hP : Yields P Q b) :
    Yields (Many P) (fun as => ∀ a ∈ as, Q a) b := by
  intro n ts as hn h hts
  induction h with
  | nil => exact nofun
  | cons ha _ ih =>
    obtain ⟨hfirst, hothers⟩ := List.forall_mem_append.mp hts
    exact List.forall_mem_cons.mpr ⟨hP (Nat.le_trans (Nat.le_max_left _ _) hn) ha hfirst,
      ih (Nat.le_trans (Nat.le_max_right _ _) hn) hothers⟩

theorem Yields.separated {P : Phrase α} {Q : α → Prop} {k : Terminal} (hP : Yields P Q b) :
    Yields (Separated k P) (fun as => as ≠ [] ∧ ∀ a ∈ as, Q a) b := by
  intro n ts as hn h hts
  induction h with
  | single ha =>
    exact ⟨List.cons_ne_nil _ _, List.forall_mem_singleton.mpr (hP hn ha hts)⟩
  | cons ha _ _ ih =>
    obtain ⟨hfirst, hothers⟩ := List.forall_mem_append.mp hts
    obtain ⟨-, hothers⟩ := List.forall_mem_cons.mp hothers
    obtain ⟨-, hrest⟩ := ih (Nat.le_trans (Nat.le_max_right _ _) hn) hothers
    exact ⟨List.cons_ne_nil _ _, List.forall_mem_cons.mpr
      ⟨hP (Nat.le_trans (Nat.le_max_left _ _) hn) ha hfirst, hrest⟩⟩

theorem Yields.chain {Op : Kind → BinaryOperator → Prop} {P : Phrase Expr}
    (hP : Yields P Expr.Printable b) : Yields (Chain Op P) Expr.Printable b := by
  intro n ts e hn h hts
  induction h with
  | single he => exact hP hn he hts
  | link _ _ hright ih =>
    obtain ⟨hleft, hothers⟩ := List.forall_mem_append.mp hts
    obtain ⟨-, hothers⟩ := List.forall_mem_cons.mp hothers
    exact ⟨ih (Nat.le_trans (Nat.le_max_left _ _) hn) hleft,
      hP (Nat.le_trans (Nat.le_max_right _ _) hn) hright hothers⟩

theorem yields_factor (b : Nat) : Yields IsFactor Expr.Printable b := by
  induction b using Nat.strongRecOn with
  | ind b ih =>
    intro n ts e hn h hts
    cases h with
    | @signed n ts operand op sign _ he =>
      obtain ⟨-, hothers⟩ := List.forall_mem_cons.mp hts
      have hoperand : operand.Printable := ih n hn (Nat.le_refl n) he hothers
      exact hoperand
    | @integer value t hkind =>
      have hliteral : t.kind = (Number.integer value).kind := hkind
      exact (List.forall_mem_singleton.mp hts).printable hliteral
    | @real value t hkind =>
      have hliteral : t.kind = (Number.real value).kind := hkind
      exact (List.forall_mem_singleton.mp hts).printable hliteral
    | name hname => exact (List.forall_mem_singleton.mp hts).isName hname
    | group _ he _ =>
      obtain ⟨-, hothers⟩ := List.forall_mem_cons.mp hts
      obtain ⟨hinside, -⟩ := List.forall_mem_append.mp hothers
      exact (ih _ hn).chain.chain (Nat.le_refl _) he hinside

theorem yields_expression (b : Nat) : Yields IsExpression Expr.Printable b :=
  (yields_factor b).chain.chain

theorem yields_compoundOf {n : Nat} {ts : List Token} {body : List Statement}
    (h : Yields IsStatement Statement.Printable b) (hn : n ≤ b + 1) (hbody : IsCompound n ts body)
    (hts : ∀ t ∈ ts, t.Spelled) : body ≠ [] ∧ ∀ s ∈ body, s.Printable := by
  cases hbody with
  | mk _ hlist _ =>
    obtain ⟨-, hothers⟩ := List.forall_mem_cons.mp hts
    obtain ⟨hinside, -⟩ := List.forall_mem_append.mp hothers
    exact h.separated (Nat.le_of_succ_le_succ hn) hlist hinside

theorem yields_statement (b : Nat) : Yields IsStatement Statement.Printable b := by
  induction b using Nat.strongRecOn with
  | ind b ih =>
    intro n ts s hn h hts
    cases h with
    | empty => exact .empty
    | assign htarget _ he =>
      obtain ⟨hfirst, hothers⟩ := List.forall_mem_cons.mp hts
      obtain ⟨-, hvalue⟩ := List.forall_mem_cons.mp hothers
      exact .assign (hfirst.isName htarget) (yields_expression b hn he hvalue)
    | compound hbody =>
      cases n with
      | zero => cases hbody
      | succ n =>
        obtain ⟨hne, hbody⟩ := yields_compoundOf (ih n hn) (Nat.le_refl _) hbody hts
        exact .compound hne hbody

/-- A declared variable with a name. -/
def DeclaresVariable (d : Declaration) : Prop := d.isVariable = true ∧ d.Printable

theorem yields_variableLine (b : Nat) :
    Yields IsVariableLine (fun ds => ∀ d ∈ ds, DeclaresVariable d) b := by
  intro n ts ds hn h hts
  have hname : Yields IsIdentifier (fun x => IsName x.name) b := by
    rintro n ts x - ⟨hname⟩ hts
    exact (List.forall_mem_singleton.mp hts).isName hname
  cases h with
  | mk hnames _ _ =>
    obtain ⟨hfirst, -⟩ := List.forall_mem_append.mp hts
    obtain ⟨-, hall⟩ := hname.separated hn hnames hfirst
    exact List.forall_mem_map.mpr fun x hx => ⟨rfl, .variable (hall x hx)⟩

theorem yields_variableEntry (b : Nat) :
    Yields IsVariableEntry (fun ds => ∀ d ∈ ds, DeclaresVariable d) b := by
  rintro n ts ds hn ⟨hline, -⟩ hts
  exact yields_variableLine b hn hline (List.forall_mem_append.mp hts).1

theorem yields_variableSection (b : Nat) :
    Yields IsVariableSection (fun ds => ∀ d ∈ ds, DeclaresVariable d) b := by
  rintro n ts ds hn ⟨-, hfirst, hothers⟩ hts
  obtain ⟨-, hts⟩ := List.forall_mem_cons.mp hts
  obtain ⟨hts, hts'⟩ := List.forall_mem_append.mp hts
  have hfirst := yields_variableEntry b (Nat.le_trans (Nat.le_max_left _ _) hn) hfirst hts
  have hothers :=
    (yields_variableEntry b).many (Nat.le_trans (Nat.le_max_right _ _) hn) hothers hts'
  intro d hd
  obtain ⟨line, hline, hmem⟩ := List.mem_flatten.mp hd
  rcases List.mem_cons.mp hline with rfl | hline
  · exact hfirst d hmem
  · exact hothers line hline d hmem

theorem yields_blockOf {P : Phrase Declaration}
    (h : Yields P (fun d => d.isVariable = false ∧ d.Printable) b) :
    Yields (BlockOf P) (Block.PrintableOf Declaration.Printable) b := by
  rintro n ts block hn ⟨hsections, hprocedures, hbody⟩ hts
  obtain ⟨hts, hts'⟩ := List.forall_mem_append.mp hts
  obtain ⟨hts', hts''⟩ := List.forall_mem_append.mp hts'
  have hsections := (yields_variableSection b).many (by omega) hsections hts
  have hprocedures := h.many (by omega) hprocedures hts'
  obtain ⟨hne, hbody⟩ := yields_compoundOf (yields_statement b) (by omega) hbody hts''
  -- the sections come first in the phrase, hence the variables in the tree
  have hvars : ∀ d ∈ List.flatten _, DeclaresVariable d := fun d hd =>
    (List.mem_flatten.mp hd).elim fun ds hds => hsections ds hds.1 d hds.2
  refine .mk ⟨_, _, rfl, fun d hd => (hvars d hd).1, fun d hd => (hprocedures d hd).1⟩ ?_ hne hbody
  exact List.forall_mem_append.mpr ⟨fun d hd => (hvars d hd).2, fun d hd => (hprocedures d hd).2⟩

theorem yields_procedure (b : Nat) :
    Yields IsProcedure (fun d => d.isVariable = false ∧ d.Printable) b := by
  induction b using Nat.strongRecOn with
  | ind b ih =>
    intro n ts d hn h hts
    cases h with
    | mk _ htitle _ hblock _ =>
      obtain ⟨-, hts⟩ := List.forall_mem_cons.mp hts
      obtain ⟨htitle', hts⟩ := List.forall_mem_cons.mp hts
      obtain ⟨-, hts⟩ := List.forall_mem_cons.mp hts
      obtain ⟨hinside, -⟩ := List.forall_mem_append.mp hts
      have hprintable := yields_blockOf (ih _ hn) (Nat.le_refl _) hblock hinside
      exact ⟨rfl, .procedure (htitle'.isName htitle) hprintable⟩

theorem printable_of_isProgram {n : Nat} {ts : List Token} {p : Program} (h : IsProgram n ts p)
    (hts : ∀ t ∈ ts, t.Spelled) : p.Printable := by
  cases h with
  | mk _ htitle _ hblock _ =>
    obtain ⟨-, hts⟩ := List.forall_mem_cons.mp hts
    obtain ⟨htitle', hts⟩ := List.forall_mem_cons.mp hts
    obtain ⟨-, hts⟩ := List.forall_mem_cons.mp hts
    obtain ⟨hinside, -⟩ := List.forall_mem_append.mp hts
    exact ⟨htitle'.isName htitle,
      yields_blockOf (yields_procedure n) (Nat.le_refl n) hblock hinside⟩

end Phrase

theorem printable_of_parse {source : String} {p : Program} (h : parse source = .ok p) :
    p.Printable := by
  obtain ⟨ts, n, hscans, hphrase, -⟩ := exists_of_parse h
  exact printable_of_isProgram hphrase (scans_iff_lexes.mp hscans).spelled

/-- **Printing and parsing.** Write a printable program as text, with parentheses only
where its operators need them. Parsing gives the program back, up to places, if what is
written nests at most as deeply as is allowed, and refuses it for its nesting otherwise.
Every program that parsing gives, of whatever source, is printable. And the parentheses are
needed: an operand of a lower level than its place asks for is written in parentheses by
whatever phrase of the grammar. -/
theorem parse_render :
    (∀ (w : RealWriter) (p : Program), p.Printable →
      (p.nesting ≤ maxNesting → ∃ t, parse (p.render w) = .ok t ∧ t.unplaced = p.unplaced) ∧
      (maxNesting < p.nesting → ∃ position,
        parse (p.render w) = .error ⟨.grammatical (.nestingTooDeep maxNesting), position⟩)) ∧
    (∀ source p, parse source = .ok p → p.Printable) ∧
    ∀ outer n ts e, outer ≤ 2 → Phrase.AtLevel outer n ts e → e.level < outer →
      ∃ opening inside closing, ts = opening :: (inside ++ [closing]) ∧
        opening.Is .leftParen ∧ closing.Is .rightParen := by
  refine ⟨fun w p hp => ?_, fun source p => printable_of_parse,
    fun outer n ts e => Phrase.parentheses_of_atLevel⟩
  obtain ⟨ts, hscans, hkinds⟩ := exists_scans_render w hp
  have hphrase := isProgram_kinds hp
  rw [← hkinds] at hphrase
  exact parse_of_kinds hscans hphrase

/-- A program that assigns `- (1 - (2 - 3)) * 4`. -/
def Program.grouping : Program :=
  let number (n : Int64) : Expr := .literal (.integer n) .start
  let difference : Expr :=
    .binary .subtract (number 1) (.binary .subtract (number 2) (number 3) .start) .start
  ⟨⟨"p", .start⟩, [.variable ⟨"x", .start⟩ .integer],
    [.assign ⟨"x", .start⟩
      (.binary .multiply (.unary .minus difference .start) (number 4) .start) .start]⟩

/-- It is printable, and nests four levels deep with its sign and its parentheses. -/
theorem parse_render_grouping :
    Program.grouping.Printable ∧ Program.grouping.nesting = 4 ∧
      ∃ (w : RealWriter) (t : Program), parse (Program.grouping.render w) = .ok t ∧
        t.unplaced = Program.grouping.unplaced := by
  obtain ⟨w⟩ := RealWriter.nonempty
  have hp : IsName "p" := ⟨⟨'p', [], rfl, rfl, nofun⟩, by decide⟩
  have hx : IsName "x" := ⟨⟨'x', [], rfl, rfl, nofun⟩, by decide⟩
  have hnumber : ∀ n : Int64, 0 ≤ n.toInt → (Number.integer n).Printable := fun _ h => h
  have hbody : ∀ s ∈ Program.grouping.block.body, s.Printable :=
    List.forall_mem_singleton.mpr (.assign hx (And.intro
      (And.intro (hnumber 1 (by decide))
        (And.intro (hnumber 2 (by decide)) (hnumber 3 (by decide))))
      (hnumber 4 (by decide))))
  have hfirst : VariablesFirst Program.grouping.block.declarations :=
    ⟨_, [], (List.append_nil _).symm, by decide, nofun⟩
  have hprintable : Program.grouping.Printable :=
    ⟨hp, .mk hfirst (List.forall_mem_singleton.mpr (.variable hx)) (List.cons_ne_nil _ _) hbody⟩
  have hnesting : Program.grouping.nesting = 4 := by decide
  have hwithin : Program.grouping.nesting ≤ maxNesting := by decide
  exact ⟨hprintable, hnesting, w, (parse_render.1 w _ hprintable).1 hwithin⟩

end MiniPascal
