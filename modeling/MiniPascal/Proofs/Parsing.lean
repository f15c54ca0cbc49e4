/-
`Parsing.lean` -- what parsing a source means.

The two directions of the grammar meet here. A source that is parsed has only tokens,
and these are a phrase with the tree that was given, within the limit
(`exists_of_parse`). Conversely the tokens of a source that are a phrase of the grammar
are parsed as its tree, or refused for nesting too deeply, and the nesting of the
phrase decides which (`parse_of_phrase`, `parse_tooDeep`). Since a source has at most
one sequence of tokens, the tree of a phrase is its only tree.
-/
import MiniPascal.Proofs.Completeness
import MiniPascal.Proofs.Scan
import MiniPascal.Proofs.Soundness
import MiniPascal.Trace

set_option autoImplicit false

namespace MiniPascal

open Phrase

/-! ## From sources to cursors -/

theorem parse_of_ok {source : String} {tree : Program} {c c' : Cursor}
    (hc : Cursor.ofStream (.ofSource source) = .ok c) (h : Rule.wholeProgram c = .ok tree c') :
    parse source = .ok tree := by
  simp only [parse, Traced.parse, hc, Traced.ofCursor, h]

theorem parse_of_error {source : String} {e : Error ReadingFault} {c c' : Cursor}
    (hc : Cursor.ofStream (.ofSource source) = .ok c) (h : Rule.wholeProgram c = .error e c') :
    parse source = .error (e.map ReadingFault.toFault) := by
  simp only [parse, Traced.parse, hc, Traced.ofCursor, h]

theorem exists_cursor_of_parse {source : String} {tree : Program}
    (h : parse source = .ok tree) :
    ∃ c c', Cursor.ofStream (.ofSource source) = .ok c ∧ Rule.wholeProgram c = .ok tree c' := by
  cases hc : Cursor.ofStream (.ofSource source) with
  | error e =>
    simp only [parse, Traced.parse, hc, reduceCtorEq] at h
  | ok c =>
    cases hprogram : Rule.wholeProgram c with
    | error e c' =>
      rw [parse_of_error hc hprogram] at h
      cases h
    | ok tree' c' =>
      rw [parse_of_ok hc hprogram] at h
      cases h
      exact ⟨c, c', rfl, hprogram⟩

/-- A source is refused because it does not begin with a token, or by the rule for
programs. -/
theorem exists_of_parse_error {source : String} {e : Error Fault} (h : parse source = .error e) :
    ∃ e' : Error ReadingFault, e = e'.map ReadingFault.toFault ∧
      (Cursor.ofStream (.ofSource source) = .error e' ∨
        ∃ c m, Cursor.ofStream (.ofSource source) = .ok c ∧ Rule.wholeProgram c = .error e' m) := by
  cases hc : Cursor.ofStream (.ofSource source) with
  | error e' =>
    simp only [parse, Traced.parse, hc] at h
    cases h
    exact ⟨e', rfl, .inl rfl⟩
  | ok c =>
    cases hprogram : Rule.wholeProgram c with
    | error e' m =>
      rw [parse_of_error hc hprogram] at h
      cases h
      exact ⟨e', rfl, .inr ⟨c, m, rfl, hprogram⟩⟩
    | ok tree m =>
      rw [parse_of_ok hc hprogram] at h
      cases h

/-! ## Both directions -/

theorem exists_of_parse {source : String} {tree : Program} (h : parse source = .ok tree) :
    ∃ ts n, Scans source ts ∧ IsProgram n ts tree ∧ n ≤ maxNesting := by
  obtain ⟨c, c', hc, hprogram⟩ := exists_cursor_of_parse h
  obtain ⟨n, ts, hwalk, hphrase, hallows, hend⟩ := Rule.exists_of_wholeProgram hprogram
  obtain ⟨-, -, hdepth⟩ := Cursor.ofSource_eq_ok hc
  refine ⟨ts, n, (Cursor.scans_iff_walks hc).mpr ⟨c', hwalk, hend⟩, hphrase, ?_⟩
  unfold Cursor.Allows at hallows
  omega

/-- The rule for programs on the tokens of a source, seen from the source. -/
theorem exists_passes_of_phrase {source : String} {tree : Program} {ts : List Token} {n : Nat}
    (hscans : Scans source ts) (hphrase : IsProgram n ts tree) :
    ∃ c c', Cursor.ofStream (.ofSource source) = .ok c ∧ c.depth = 0 ∧
      Rule.wholeProgram.Passes c n tree c' := by
  obtain ⟨c, hc⟩ := Cursor.exists_of_scans hscans
  obtain ⟨-, horderly, hdepth⟩ := Cursor.ofSource_eq_ok hc
  obtain ⟨c', hwalk, hend⟩ := (Cursor.scans_iff_walks hc).mp hscans
  exact ⟨c, c', hc, hdepth,
    Rule.passes_wholeProgram (by omega) horderly.closed hphrase hwalk hend⟩

theorem parse_of_phrase {source : String} {tree : Program} {ts : List Token} {n : Nat}
    (hscans : Scans source ts) (hphrase : IsProgram n ts tree) (hn : n ≤ maxNesting) :
    parse source = .ok tree := by
  obtain ⟨c, c', hc, hdepth, hpasses⟩ := exists_passes_of_phrase hscans hphrase
  exact parse_of_ok hc (hpasses.ok (by omega))

/-- A program that nests too deeply is refused for that. -/
theorem parse_tooDeep {source : String} {tree : Program} {ts : List Token} {n : Nat}
    (hscans : Scans source ts) (hphrase : IsProgram n ts tree) (hn : maxNesting < n) :
    ∃ p, parse source = .error ⟨.grammatical (.nestingTooDeep maxNesting), p⟩ := by
  obtain ⟨c, c', hc, hdepth, hpasses⟩ := exists_passes_of_phrase hscans hphrase
  obtain ⟨p, d, h⟩ := hpasses.tooDeep (by omega)
  exact ⟨p, parse_of_error hc h⟩

/-- **Parsing accepts the grammar.** A source is parsed as `tree` exactly if it consists
of tokens that are a program of the grammar with this tree, nested no deeper than the
limit. -/
theorem parse_eq_ok_iff (source : String) (tree : Program) :
    parse source = .ok tree ↔
      ∃ ts n, Scans source ts ∧ IsProgram n ts tree ∧ n ≤ maxNesting := by
  constructor
  · exact exists_of_parse
  · rintro ⟨ts, n, hscans, hphrase, hn⟩
    exact parse_of_phrase hscans hphrase hn

end MiniPascal
