/-
`FlatSource.lean` -- programs that calculate a flat chain.

A program declares a variable, among whatever else, and its body assigns a flat chain to it
(`Flat.AssignedIn`). Nothing is said about the layout of such a program, only about its tokens,
and nothing about the length of the chain. It is parsed, since a chain does not nest, and
running it is calculating the reference (`run_flat_chain`).

Every chain can be written in such a program: with one blank on either side of each operator
its lexemes are found again (`exists_source`).
-/
import MiniPascal.Proofs.FlatChain

set_option autoImplicit false

namespace MiniPascal

open Phrase

/-! ## Programs around a chain -/

/-- The tokens are a program that declares the variable `target` and assigns the chain to it.
The other declarations use their names rightly and stay within the limit on nesting. -/
inductive Flat.AssignedIn (chain : Flat) (target : String) : List Token → Prop
  | mk {n m ds ps sections procedures name}
      {word title mark opening own becomes closing dot : Token} :
      word.Is .program → title.Names name → mark.Is .semicolon →
      Many IsVariableSection n ds sections → Many IsProcedure m ps procedures →
      n ≤ maxNesting → m ≤ maxNesting →
      BlockScoped [] (sections.flatten ++ procedures) [] →
      target ∈ variableNames (sections.flatten ++ procedures) →
      opening.Is .beginBlock → own.Names target → becomes.Is .assign → closing.Is .endBlock →
      dot.Is .dot →
      AssignedIn chain target (word :: title :: mark ::
        ((ds ++ (ps ++ opening :: (own :: becomes :: chain.tokens ++ [closing]))) ++ [dot]))

/-- A body that only names what is declared adds nothing to what a block has to fulfil. -/
theorem BlockScoped.withBody {ds : List Declaration} {outer : List String} {body : List Statement}
    (h : BlockScoped outer ds [])
    (hbody : ∀ occurrence ∈ bodyOccurrences body, occurrence.name ∈ variableNames ds ++ outer) :
    BlockScoped outer ds body := by
  cases h with
  | mk hvariables hprocedures hinner _ => exact .mk hvariables hprocedures hinner hbody

/-- Such tokens are a program within the limit, whatever the length of the chain. -/
theorem Flat.AssignedIn.exists_program {chain : Flat} {target : String} {ts : List Token}
    (h : chain.AssignedIn target ts) :
    ∃ n tree place position, IsProgram n ts tree ∧ n ≤ maxNesting ∧ tree.WellScoped ∧
      tree.block.body = [.assign ⟨target, place⟩ chain.tree position] := by
  cases h with
  | @mk n m ds ps sections procedures name word title mark opening own becomes closing dot hword
      htitle hmark hsections hprocedures hn hm hscoped htarget hopening hown hbecomes hclosing
      hdot =>
    have hbody := CompoundOf.mk hopening
      (.single (IsStatement.assign hown hbecomes chain.isExpression)) hclosing
    have hwhole := IsProgram.mk hword htitle hmark (.mk hsections hprocedures hbody) hdot
    refine ⟨_, _, own.position, becomes.position, hwhole, ?_, ?_, rfl⟩
    · -- the chain adds no level, so the body has one level whatever its length
      have hlimit : 1 ≤ maxNesting := by decide
      omega
    · refine hscoped.withBody fun occurrence hmem => ?_
      have hmem' : occurrence ∈ chain.tree.occurrences ++ [⟨target, own.position⟩] := by
        rwa [bodyOccurrences, bodyOccurrences, List.append_nil] at hmem
      rw [chain.occurrences_tree, List.nil_append, List.mem_singleton] at hmem'
      rw [hmem', List.append_nil]
      exact htarget

/-! ## Texts -/

/-- The lexemes of links, with a blank on either side of each operator. -/
def linkLexemes : List (WholeOperator × LiteralValue) → List Lexeme
  | [] => []
  | (op, operand) :: links =>
    .space :: .ofTerminal (Whole.operatorTerminal op) :: .space :: .ofNat operand ::
      linkLexemes links

/-- The text of links. -/
def linksText : List (WholeOperator × LiteralValue) → String
  | [] => ""
  | (op, operand) :: links =>
    " " ++ Whole.operatorText op ++ " " ++ toString operand.val ++ linksText links

/-- The text of a chain. -/
def chainText (first : LiteralValue) (links : List (WholeOperator × LiteralValue)) : String :=
  toString first.val ++ linksText links

section Texts

variable (first : LiteralValue) (links : List (WholeOperator × LiteralValue))

theorem toList_linksText : (linksText links).toList = spell (linkLexemes links) := by
  induction links with
  | nil => rfl
  | cons link links ih =>
    obtain ⟨op, operand⟩ := link
    have hop : (Whole.operatorText op).toList = (Whole.operatorTerminal op).spelling.toList := by
      cases op <;> rfl
    have hoperand : (toString operand.val).toList = Nat.toDigits 10 operand.val := Nat.toList_repr
    simp only [linksText, String.toList_append, ih, hop, hoperand, linkLexemes, spell_cons,
      List.append_assoc]
    rfl

theorem toList_chainText :
    (chainText first links).toList = spell (.ofNat first :: linkLexemes links) := by
  have hfirst : (toString first.val).toList = Nat.toDigits 10 first.val := Nat.toList_repr
  rw [chainText, String.toList_append, toList_linksText, hfirst]
  rfl

/-- Behind a number there is a blank, whether the chain goes on or not. -/
theorem cutBefore_linkLexemes (n : Nat) :
    (Lexeme.ofNat n).CutBefore (spell (linkLexemes links) ++ spell Assigning.closing) := by
  obtain ⟨rest, hrest⟩ :
      ∃ rest, spell (linkLexemes links) ++ spell Assigning.closing = ' ' :: rest := by
    cases links <;> exact ⟨_, rfl⟩
  rw [hrest]
  exact Lexeme.cutBefore_ofNat n (stopsAt_cons rfl) (stopsAt_cons rfl)

theorem clean_linkLexemes : Clean (linkLexemes links) (spell Assigning.closing) := by
  induction links with
  | nil => trivial
  | cons link links ih =>
    obtain ⟨op, operand⟩ := link
    refine ⟨?_, ?_, Lexeme.cutBefore_space ?_, cutBefore_linkLexemes links operand, ih⟩
    · apply Lexeme.cutBefore_space
      cases op <;> exact stopsAt_cons rfl
    · cases op <;> exact ⟨_, _, rfl, rfl⟩
    · rw [spell_cons, List.append_assoc]
      exact Lexeme.stopsAt_ofNat _ _

theorem isOk_linkLexemes : ∀ l ∈ linkLexemes links, l.content.isOk = true := by
  induction links with
  | nil => exact nofun
  | cons link links ih =>
    obtain ⟨op, operand⟩ := link
    simp only [linkLexemes, List.forall_mem_cons]
    refine ⟨rfl, rfl, rfl, ?_, ih⟩
    rw [Lexeme.content_ofNat operand.property]
    rfl

/-- The tokens of the text of links are links, with the same operators and numbers. -/
theorem exists_links (p : Position) :
    ∃ placed : List Link, tokensFrom p (linkLexemes links) = placed.flatMap Link.tokens ∧
      placed.map (fun link => (link.op, link.operand.value)) = links := by
  induction links generalizing p with
  | nil => exact ⟨[], rfl, rfl⟩
  | cons link links ih =>
    obtain ⟨op, operand⟩ := link
    rw [linkLexemes, tokensFrom_space, tokensFrom_ofTerminal, tokensFrom_space,
      tokensFrom_ofNat _ operand.property]
    -- only that the parts stand somewhere is needed
    generalize p.advance [' '] = p₁
    generalize (p₁.advance (Whole.operatorTerminal op).spelling.toList).advance [' '] = p₂
    obtain ⟨placed, htokens, hplaced⟩ := ih (p₂.advance (Nat.toDigits 10 operand.val))
    let literal : Literal := ⟨operand, ⟨_, String.ofList (Nat.toDigits 10 operand.val), p₂⟩, rfl⟩
    let here : Link := ⟨op, ⟨_, (Whole.operatorTerminal op).spelling, p₁⟩, rfl, literal⟩
    refine ⟨here :: placed, ?_, ?_⟩
    · rw [List.flatMap_cons, ← htokens]
      rfl
    · rw [List.map_cons, hplaced]

/-- The program around a chain is one that assigns it to `r`. -/
theorem Flat.assignedIn_source (chain : Flat) (p : Position) :
    chain.AssignedIn "r"
      (Assigning.openingTokens ++ chain.tokens ++ Assigning.closingTokens p) := by
  have hprogram : Token.Is ⟨.terminal .program, "PROGRAM", ⟨1, 1⟩⟩ .program := rfl
  have hname : Token.Names ⟨.identifier "Prop", "Prop", ⟨1, 9⟩⟩ "Prop" := rfl
  have hmark : Token.Is ⟨.terminal .semicolon, ";", ⟨1, 13⟩⟩ .semicolon := rfl
  have hbegin : Token.Is ⟨.terminal .beginBlock, "BEGIN", ⟨1, 32⟩⟩ .beginBlock := rfl
  have htarget : Token.Names ⟨.identifier "r", "r", ⟨1, 38⟩⟩ "r" := rfl
  have hassign : Token.Is ⟨.terminal .assign, ":=", ⟨1, 40⟩⟩ .assign := rfl
  obtain ⟨last, dot, hclosing, hend, hdot⟩ : ∃ last dot : Token,
      Assigning.closingTokens p = [last, dot] ∧ last.Is .endBlock ∧ dot.Is .dot :=
    ⟨_, _, rfl, rfl, rfl⟩
  have hscoped : BlockScoped [] [Assigning.declaration] [] := Assigning.blockScoped nofun
  have hassigned : chain.AssignedIn "r" _ := .mk hprogram hname hmark Assigning.isSection .nil
    (Nat.zero_le _) (Nat.zero_le _) hscoped List.mem_cons_self hbegin htarget hassign hend hdot
  rw [hclosing, List.append_assoc, List.append_cons chain.tokens last [dot]]
  exact hassigned

/-- Where the text of a chain stands in a program, its lexemes are found again. -/
theorem scans_chain {text : String}
    (htext : text.toList = spell (.ofNat first :: linkLexemes links)) :
    ∃ p, Scans (Assigning.source text)
      (Assigning.openingTokens ++ tokensFrom ⟨1, 43⟩ (.ofNat first :: linkLexemes links) ++
        Assigning.closingTokens p) := by
  have hclean : Clean (.ofNat first :: linkLexemes links) (spell Assigning.closing) :=
    ⟨cutBefore_linkLexemes links first, clean_linkLexemes links⟩
  have hstart : StopsAt Lexeme.isBlank
      (spell (.ofNat first :: linkLexemes links) ++ spell Assigning.closing) := by
    rw [spell_cons, List.append_assoc]
    exact Lexeme.stopsAt_ofNat _ _
  refine Assigning.scans_source htext hclean hstart (List.forall_mem_cons.mpr ⟨?_, ?_⟩)
  · rw [Lexeme.content_ofNat first.property]
    rfl
  · exact isOk_linkLexemes links

/-- Every chain can be written in a program. -/
theorem exists_source :
    ∃ (ts : List Token) (chain : Flat), Scans (Assigning.source (chainText first links)) ts ∧
      chain.AssignedIn "r" ts ∧ chain.first.value = first ∧
      chain.links.map (fun link => (link.op, link.operand.value)) = links := by
  obtain ⟨p, hscans⟩ := scans_chain first links (toList_chainText first links)
  obtain ⟨placed, htokens, hplaced⟩ :=
    exists_links links (Position.advance ⟨1, 43⟩ (Nat.toDigits 10 first.val))
  rw [tokensFrom_ofNat _ first.property, htokens] at hscans
  let literal : Literal := ⟨first, ⟨_, String.ofList (Nat.toDigits 10 first.val), ⟨1, 43⟩⟩, rfl⟩
  let chain : Flat := ⟨literal, placed⟩
  exact ⟨_, chain, hscans, chain.assignedIn_source p, rfl, hplaced⟩

end Texts

/-! ## Running -/

/-- A source with such tokens is parsed, and running it is calculating the chain. -/
theorem Flat.AssignedIn.run_eq {source target : String} {chain : Flat} {ts : List Token}
    (h : chain.AssignedIn target ts) (hscans : Scans source ts) :
    ∃ tree, parse source = .ok tree ∧
      run source = match chain.reference with
        | .ok n => .ok (Store.assign ∅ target (.integer (Int64.ofInt n)))
        | .error fault => .error (fault.map .runtime) := by
  obtain ⟨n, tree, place, position, hphrase, hn, hscoped, hbody⟩ := h.exists_program
  have hparse := parse_of_phrase hscans hphrase hn
  refine ⟨tree, hparse, ?_⟩
  rw [run_of_wellScoped hparse hscoped, Traced.execute_assignment hbody, chain.computes.value_eq]
  cases chain.reference <;> rfl

/-- **Flat chains.** A chain of any length, assigned in a program that declares the target, is
parsed. If all intermediate results of the reference exist the program binds the target to the
last of them, and to nothing else; if not it fails as the reference does, at the operator of the
first that does not. Any literals with any operators between them are the chain of such a
program. -/
theorem run_flat_chain :
    (∀ (source target : String) (ts : List Token) (chain : Flat),
      Scans source ts → chain.AssignedIn target ts →
      (∃ tree, parse source = .ok tree) ∧
      (∀ n, chain.reference = .ok n → ∃ store value, run source = .ok store ∧
        store.entries = [(target, .integer value)] ∧ value.toInt = n) ∧
      ∀ fault, chain.reference = .error fault → run source = .error (fault.map .runtime)) ∧
    ∀ (first : LiteralValue) (links : List (WholeOperator × LiteralValue)),
      ∃ (ts : List Token) (chain : Flat), Scans (Assigning.source (chainText first links)) ts ∧
        chain.AssignedIn "r" ts ∧ chain.first.value = first ∧
        chain.links.map (fun link => (link.op, link.operand.value)) = links := by
  refine ⟨fun source target ts chain hscans hassigned => ?_, exists_source⟩
  obtain ⟨tree, hparse, hrun⟩ := hassigned.run_eq hscans
  refine ⟨⟨tree, hparse⟩, fun n hn => ?_, fun fault hfault => ?_⟩
  · have hfits : Fits n := (@Flat.computes ∅ chain).fits n hn
    rw [hn] at hrun
    exact ⟨_, Int64.ofInt n, hrun, rfl, toInt_ofInt hfits⟩
  · rw [hrun, hfault]

/-- `9223372036854775806 + 2 - 3 DIV 0` from the place where an expression begins. -/
def Flat.tooMuch : Flat where
  first := ⟨⟨9223372036854775806, by decide⟩, ⟨_, "9223372036854775806", ⟨1, 43⟩⟩, rfl⟩
  links :=
    [⟨.add, ⟨_, "+", ⟨1, 63⟩⟩, rfl, ⟨⟨2, by decide⟩, ⟨_, "2", ⟨1, 65⟩⟩, rfl⟩⟩,
      ⟨.subtract, ⟨_, "-", ⟨1, 67⟩⟩, rfl, ⟨⟨3, by decide⟩, ⟨_, "3", ⟨1, 69⟩⟩, rfl⟩⟩,
      ⟨.divide, ⟨_, "DIV", ⟨1, 71⟩⟩, rfl, ⟨⟨0, by decide⟩, ⟨_, "0", ⟨1, 75⟩⟩, rfl⟩⟩]

/-- The sum comes before the quotient behind it, so it is the sum that fails. -/
theorem run_flat_chain_tooMuch :
    ∃ ts, Scans (Assigning.source "9223372036854775806 + 2 - 3 DIV 0") ts ∧
      Flat.tooMuch.AssignedIn "r" ts ∧
      run (Assigning.source "9223372036854775806 + 2 - 3 DIV 0") =
        .error ⟨.runtime .overflow, ⟨1, 63⟩⟩ := by
  obtain ⟨p, hscans⟩ := scans_chain ⟨9223372036854775806, by decide⟩
    [(.add, ⟨2, by decide⟩), (.subtract, ⟨3, by decide⟩), (.divide, ⟨0, by decide⟩)]
    (toList_chainText _ _)
  have hassigned := Flat.tooMuch.assignedIn_source p
  exact ⟨_, hscans, hassigned,
    (run_flat_chain.1 _ _ _ _ hscans hassigned).2.2 ⟨.overflow, ⟨1, 63⟩⟩ rfl⟩

end MiniPascal
