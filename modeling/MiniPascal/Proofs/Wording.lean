/-
`Wording.lean` -- what messages call things, and that nothing else is called so.

Messages and events name kinds of tokens and places by texts. The text of a kind begins with
a word for the sort of token, and what follows is the value of a constant, the spelling of a
terminal or a name, so there is one kind for each text (`Kind.text_injective`). The text of a
place is two numbers with words between them (`Position.text_injective`). Whoever reads an
event therefore knows the kind or the place itself.
-/
import MiniPascal.Proofs.Unambiguous

set_option autoImplicit false

namespace MiniPascal

/-! ## Places -/

theorem comma_notMem_toString (n : Nat) : ',' ∉ (toString n).toList := by
  rw [Nat.toString_eq_repr, Nat.toList_repr]
  intro hcomma
  exact absurd (Nat.isDigit_of_mem_toDigits (by decide) (by decide) hcomma) (by decide)

theorem toString_nat_injective : Function.Injective fun n : Nat => toString n := by
  intro m n h
  have hdigits : Nat.toDigits 10 m = Nat.toDigits 10 n := by
    simpa [Nat.toString_eq_repr, Nat.toList_repr] using congrArg String.toList h
  rw [← Nat.ofDigitChars_ten_toDigits (n := m), hdigits, Nat.ofDigitChars_ten_toDigits]

/-- **The text of a place tells the place.** -/
theorem Position.text_injective : Function.Injective Position.text := by
  intro p q h
  have hcolumn : ", column ".toList = ',' :: " column ".toList := rfl
  have hchars := congrArg String.toList h
  simp only [text, String.toList_append, List.append_assoc, hcolumn, List.cons_append] at hchars
  -- the line ends at the first comma
  obtain ⟨hline, hbehind⟩ := append_cons_inj_of_notMem (comma_notMem_toString _)
    (comma_notMem_toString _) (List.append_cancel_left hchars)
  have hlines : p.line = q.line := toString_nat_injective (String.toList_inj.mp hline)
  have hcolumns : p.column = q.column :=
    toString_nat_injective (String.toList_inj.mp (List.append_cancel_left hbehind))
  cases p
  cases q
  exact congrArg₂ Position.mk hlines hcolumns

/-! ## Kinds -/

theorem Terminal.spelling_injective : Function.Injective Terminal.spelling := by
  intro which other h
  cases which <;> cases other <;> first | rfl | exact absurd h (by decide)

namespace Kind

/-- The letter that the text of a kind begins with. -/
def initial : Kind → Char
  | realConstant _ => 'r'
  | integerConstant _ => 'i'
  | terminal _ => '\''
  | identifier _ => 'i'
  | layout .comment => 'c'
  | layout .lineFeed => 'n'
  | layout .blanks => 'w'
  | endOfInput => 'e'

theorem head?_text (k : Kind) : k.text.toList.head? = some k.initial := by
  cases k with
  | realConstant _ =>
    change ("real constant " ++ _).toList.head? = _
    rw [String.toList_append]
    rfl
  | integerConstant _ =>
    change ("integer constant " ++ _).toList.head? = _
    rw [String.toList_append]
    rfl
  | terminal _ =>
    change ("'" ++ _ ++ _).toList.head? = _
    rw [String.toList_append, String.toList_append]
    rfl
  | identifier _ =>
    change ("identifier '" ++ _ ++ _).toList.head? = _
    rw [String.toList_append, String.toList_append]
    rfl
  | layout which => cases which <;> rfl
  | endOfInput => rfl

/-- An integer has another second letter than an identifier. -/
theorem text_integer_ne_text_identifier (value : Int64) (name : String) :
    (integerConstant value).text ≠ (identifier name).text := by
  intro h
  change "integer constant " ++ _ = "identifier '" ++ _ ++ _ at h
  have hchars := congrArg (fun s => s.toList.take 2) h
  simp only [String.toList_append] at hchars
  have hletters : ['i', 'n'] = ['i', 'd'] := hchars
  exact absurd hletters (by decide)

/-- **The text of a kind tells the kind.** -/
theorem text_injective : Function.Injective Kind.text := by
  intro k k' h
  have hinitial : k.initial = k'.initial := by
    have hhead : k.text.toList.head? = k'.text.toList.head? := by rw [h]
    rw [head?_text, head?_text] at hhead
    exact Option.some.inj hhead
  cases k with
  | realConstant x =>
    cases k' with
    | realConstant y =>
      exact congrArg realConstant (Binary64.text_injective ((String.append_right_inj _).mp h))
    | layout which => cases which <;> simp [initial] at hinitial
    | _ => simp [initial] at hinitial
  | integerConstant m =>
    cases k' with
    | integerConstant n =>
      have hvalue : Number.integer m = .integer n :=
        Number.text_injective ((String.append_right_inj _).mp h)
      exact congrArg integerConstant (Number.integer.inj hvalue)
    | identifier name => exact absurd h (text_integer_ne_text_identifier m name)
    | layout which => cases which <;> simp [initial] at hinitial
    | _ => simp [initial] at hinitial
  | terminal which =>
    cases k' with
    | terminal other =>
      have hspelling := (String.append_right_inj _).mp ((String.append_left_inj _).mp h)
      exact congrArg terminal (Terminal.spelling_injective hspelling)
    | layout which => cases which <;> simp [initial] at hinitial
    | _ => simp [initial] at hinitial
  | identifier name =>
    cases k' with
    | integerConstant n => exact absurd h.symm (text_integer_ne_text_identifier n name)
    | identifier other =>
      have hname := (String.append_right_inj _).mp ((String.append_left_inj _).mp h)
      exact congrArg identifier hname
    | layout which => cases which <;> simp [initial] at hinitial
    | _ => simp [initial] at hinitial
  | layout which =>
    cases k' with
    | layout other => cases which <;> cases other <;> first | rfl | simp [initial] at hinitial
    | _ => cases which <;> simp [initial] at hinitial
  | endOfInput =>
    cases k' with
    | endOfInput => rfl
    | layout which => cases which <;> simp [initial] at hinitial
    | _ => simp [initial] at hinitial

end Kind

end MiniPascal
