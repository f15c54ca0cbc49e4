/-
`Assigning.lean` -- programs that assign one expression.

The smallest program that shows the value of an expression declares one variable and
assigns the expression to it. Everything around the expression is fixed here once:
its lexemes, its part of the tree, that its names are used rightly, and that running
it is evaluating the expression in an empty store (`run_of_scans`). What remains for
a given text is to say which lexemes it has and which expression they are.
-/
import MiniPascal.Proofs.Parsing
import MiniPascal.Proofs.Resolution
import MiniPascal.Proofs.Spelling

set_option autoImplicit false

namespace MiniPascal

open Phrase

/-! ## Stages in sequence -/

theorem Traced.result_bind {α β : Type} (x : Traced α) (f : α → Traced β) :
    (x >>= f).result = match x.result with
      | .ok a => (f a).result
      | .error e => .error e := by
  rcases x with ⟨events, result⟩
  cases result <;> rfl

/-- A source whose program is well-scoped is run by executing the program. -/
theorem run_of_wellScoped {source : String} {tree : Program} (hparse : parse source = .ok tree)
    (hscoped : tree.WellScoped) : run source = (Traced.execute tree).result := by
  obtain ⟨r', hresolve, -⟩ := Resolve.ok_of_wellScoped hscoped .fresh
  have hcheck : (Traced.check source).result = .ok tree := by
    rw [Traced.check, Traced.result_bind, show (Traced.parse source).result = .ok tree from hparse]
    dsimp only
    rw [Traced.result_bind, Traced.resolve, hresolve]
    rfl
  rw [run, Traced.run, Traced.result_bind, hcheck]

/-- To execute a body of one assignment is to evaluate its expression in the empty store. -/
theorem Traced.execute_assignment {p : Program} {target : Identifier} {e : Expr}
    {position : Position} (h : p.block.body = [.assign target e position]) :
    (Traced.execute p).result = match e.value ∅ with
      | .ok value => .ok (Store.assign ∅ target.name value)
      | .error fault => .error (fault.map .runtime) := by
  have hprogram : Execute.program p .fresh =
      (Execute.assign target e >>= fun _ => pure ()) .fresh := by
    rw [Execute.program, h]
    rfl
  rw [Traced.execute, hprogram, bind_apply]
  unfold Execute.assign
  rw [show Machine.fresh.store = ∅ from rfl]
  cases e.value ∅ <;> rfl

/-! ## The program around an expression -/

namespace Assigning

/-- The source around the text of an expression. -/
def source (text : String) : String :=
  "PROGRAM Prop; VAR r : INTEGER; BEGIN r := " ++ text ++ " END."

/-- What is written before the expression. -/
def opening : List Lexeme :=
  [.ofWord "PROGRAM".toList, .space, .ofWord "Prop".toList, .ofTerminal .semicolon, .space,
    .ofWord "VAR".toList, .space, .ofWord "r".toList, .space, .ofTerminal .colon, .space,
    .ofWord "INTEGER".toList, .ofTerminal .semicolon, .space,
    .ofWord "BEGIN".toList, .space, .ofWord "r".toList, .space, .ofTerminal .assign, .space]

/-- What is written behind it. -/
def closing : List Lexeme := [.space, .ofWord "END".toList, .ofTerminal .dot]

/-- The program with a given expression. -/
def tree (e : Expr) : Program :=
  ⟨⟨"Prop", ⟨1, 9⟩⟩, [.variable ⟨"r", ⟨1, 19⟩⟩ .integer], [.assign ⟨"r", ⟨1, 38⟩⟩ e ⟨1, 40⟩]⟩

theorem clean_opening {rest : List Char} (h : StopsAt Lexeme.isBlank rest) :
    Clean opening rest := by
  -- what stands behind each lexeme is written above, except behind the last blank
  repeat refine ⟨⟨_, _, rfl, rfl⟩, ?_⟩
  exact ⟨Lexeme.cutBefore_space h, trivial⟩

theorem clean_closing : Clean closing [] :=
  ⟨⟨_, _, rfl, rfl⟩, ⟨_, _, rfl, rfl⟩, ⟨_, _, rfl, rfl⟩, trivial⟩

/-! ## Tokens -/

/-- The tokens before the expression. -/
def openingTokens : List Token :=
  [⟨.terminal .program, "PROGRAM", ⟨1, 1⟩⟩, ⟨.identifier "Prop", "Prop", ⟨1, 9⟩⟩,
    ⟨.terminal .semicolon, ";", ⟨1, 13⟩⟩, ⟨.terminal .var, "VAR", ⟨1, 15⟩⟩,
    ⟨.identifier "r", "r", ⟨1, 19⟩⟩, ⟨.terminal .colon, ":", ⟨1, 21⟩⟩,
    ⟨.terminal .integer, "INTEGER", ⟨1, 23⟩⟩, ⟨.terminal .semicolon, ";", ⟨1, 30⟩⟩,
    ⟨.terminal .beginBlock, "BEGIN", ⟨1, 32⟩⟩, ⟨.identifier "r", "r", ⟨1, 38⟩⟩,
    ⟨.terminal .assign, ":=", ⟨1, 40⟩⟩]

theorem tokensFrom_opening : tokensFrom .start opening = openingTokens := rfl

/-- The tokens behind the expression, if it ends at `p`. -/
def closingTokens (p : Position) : List Token := tokensFrom p closing

/-- The source has the tokens of the expression between those around it. -/
theorem scans_source {text : String} {ls : List Lexeme} (htext : text.toList = spell ls)
    (hclean : Clean ls (spell closing))
    (hstart : StopsAt Lexeme.isBlank (spell ls ++ spell closing))
    (hok : ∀ l ∈ ls, l.content.isOk = true) :
    ∃ p, Scans (source text) (openingTokens ++ tokensFrom ⟨1, 43⟩ ls ++ closingTokens p) := by
  have hwhole : Clean (opening ++ (ls ++ closing)) [] := by
    rw [clean_append_iff, clean_append_iff, List.append_nil, List.append_nil, spell_append]
    exact ⟨clean_opening hstart, hclean, clean_closing⟩
  have hwritten : ∀ l ∈ opening ++ (ls ++ closing), l.content.isOk = true := by
    have hopening : opening.all (fun l => l.content.isOk) = true := rfl
    have hclosing : closing.all (fun l => l.content.isOk) = true := rfl
    simp only [List.forall_mem_append]
    exact ⟨List.all_eq_true.mp hopening, hok, List.all_eq_true.mp hclosing⟩
  have hsource : (source text).toList = spell (opening ++ (ls ++ closing)) := by
    have hopening : "PROGRAM Prop; VAR r : INTEGER; BEGIN r := ".toList = spell opening := rfl
    have hclosing : " END.".toList = spell closing := rfl
    have hparts : (source text).toList =
        "PROGRAM Prop; VAR r : INTEGER; BEGIN r := ".toList ++ text.toList ++ " END.".toList :=
      String.toList_append.trans (congrArg (· ++ _) String.toList_append)
    rw [hparts, hopening, hclosing, htext, spell_append, spell_append, List.append_assoc]
  have hscans := scans_of_clean hwhole hwritten
  rw [← hsource, String.ofList_toList, tokensFrom_append, tokensFrom_append, tokensFrom_opening,
    ← List.append_assoc openingTokens] at hscans
  exact ⟨_, hscans⟩

/-! ## The phrase -/

/-- The declaration. -/
def declaration : Declaration := .variable ⟨"r", ⟨1, 19⟩⟩ .integer

/-- The tokens of the declaration are its section, which does not nest. -/
theorem isSection : Many IsVariableSection 0 ((openingTokens.drop 3).take 5) [[declaration]] := by
  have hvar : Token.Is ⟨.terminal .var, "VAR", ⟨1, 15⟩⟩ .var := rfl
  have hdeclared : Token.Names ⟨.identifier "r", "r", ⟨1, 19⟩⟩ "r" := rfl
  have hcolon : Token.Is ⟨.terminal .colon, ":", ⟨1, 21⟩⟩ .colon := rfl
  have htype : TypeWord (Token.mk (.terminal .integer) "INTEGER" ⟨1, 23⟩).kind .integer := .integer
  have hmark : Token.Is ⟨.terminal .semicolon, ";", ⟨1, 30⟩⟩ .semicolon := rfl
  have hsection := IsVariableSection.mk hvar
    (.mk (.mk (.single (.mk hdeclared)) hcolon htype) hmark) .nil
  exact .cons hsection .nil

theorem isProgram {n : Nat} {ts : List Token} {e : Expr} (h : IsExpression n ts e) (p : Position) :
    IsProgram (n + 1) (openingTokens ++ ts ++ closingTokens p) (tree e) := by
  have hprogram : Token.Is ⟨.terminal .program, "PROGRAM", ⟨1, 1⟩⟩ .program := rfl
  have hname : Token.Names ⟨.identifier "Prop", "Prop", ⟨1, 9⟩⟩ "Prop" := rfl
  have hmark : Token.Is ⟨.terminal .semicolon, ";", ⟨1, 13⟩⟩ .semicolon := rfl
  have hbegin : Token.Is ⟨.terminal .beginBlock, "BEGIN", ⟨1, 32⟩⟩ .beginBlock := rfl
  have htarget : Token.Names ⟨.identifier "r", "r", ⟨1, 38⟩⟩ "r" := rfl
  have hassign : Token.Is ⟨.terminal .assign, ":=", ⟨1, 40⟩⟩ .assign := rfl
  obtain ⟨last, dot, hclosing, hend, hdot⟩ : ∃ last dot : Token,
      closingTokens p = [last, dot] ∧ last.Is .endBlock ∧ dot.Is .dot := ⟨_, _, rfl, rfl, rfl⟩
  have hbody := CompoundOf.mk hbegin (.single (IsStatement.assign htarget hassign h)) hend
  have hwhole := IsProgram.mk hprogram hname hmark (.mk isSection .nil hbody) hdot
  -- the declaration does not nest, so there is one level more than in the expression
  have hnesting : max 0 (max 0 (n + 1)) = n + 1 := by omega
  rw [hclosing, List.append_assoc, List.append_cons ts last [dot], ← hnesting]
  exact hwhole

/-! ## Names -/

/-- A body may name the variable. -/
theorem blockScoped {body : List Statement} (h : ∀ occurrence ∈ bodyOccurrences body,
    occurrence.name = "r") : BlockScoped [] [declaration] body := by
  refine .mk (List.nodup_cons.mpr ⟨List.not_mem_nil, List.nodup_nil⟩) List.nodup_nil ?_ ?_
  · intro before name inner own after heq
    cases before with
    | nil => cases heq
    | cons d before =>
      -- the variable is the only declaration
      have hnil : [] = before ++ .procedure name inner own :: after := (List.cons.inj heq).2
      exact absurd hnil (by simp)
  · intro occurrence hmem
    rw [h occurrence hmem]
    exact List.mem_cons_self

theorem wellScoped {e : Expr} (h : e.occurrences = []) : (tree e).WellScoped := by
  refine blockScoped fun occurrence hmem => ?_
  have hmem' : occurrence ∈ e.occurrences ++ [⟨"r", ⟨1, 38⟩⟩] := by
    rwa [tree, bodyOccurrences, bodyOccurrences, List.append_nil] at hmem
  rw [h, List.nil_append, List.mem_singleton] at hmem'
  rw [hmem']

/-! ## Execution -/

theorem execute_tree (e : Expr) :
    (Traced.execute (tree e)).result = match e.value ∅ with
      | .ok value => .ok (Store.assign ∅ "r" value)
      | .error fault => .error (fault.map .runtime) := by
  have hbody : (tree e).block.body = [.assign ⟨"r", ⟨1, 38⟩⟩ e ⟨1, 40⟩] := rfl
  rw [Traced.execute_assignment hbody]

/-- What a source with one assignment does, if its expression has no variables. -/
theorem run_of_scans {source : String} {ts : List Token} {n : Nat} {e : Expr}
    (hscans : Scans source ts) (hphrase : IsProgram n ts (tree e)) (hn : n ≤ maxNesting)
    (hclosed : e.occurrences = []) :
    run source = match e.value ∅ with
      | .ok value => .ok (Store.assign ∅ "r" value)
      | .error fault => .error (fault.map .runtime) := by
  rw [run_of_wellScoped (parse_of_phrase hscans hphrase hn) (wellScoped hclosed), execute_tree]

end Assigning

end MiniPascal
