/-
`Spelling.lean` -- texts that are cut where they were put together.

A text can be built by writing lexemes one after another. Whether the scanner finds
the same lexemes in it depends on what stands behind each of them: a run of digits
must not be followed by a digit, nor by a point. `CutBefore` is that condition for one
lexeme, and `Clean` for a whole sequence in front of a text. Both speak about the text
that really follows, so sequences can be put together (`clean_append_iff`) and nothing
has to be known about a lexeme but its own class.

The tokens of a clean sequence are its lexemes without the layout, each at the place
where its text begins (`scans_of_clean`).
-/
import MiniPascal.Proofs.Scan

set_option autoImplicit false

namespace MiniPascal

/-- The text of some lexemes, one after another. -/
def spell (ls : List Lexeme) : List Char := ls.flatMap Lexeme.chars

@[simp] theorem spell_nil : spell [] = [] := rfl

@[simp] theorem spell_cons (l : Lexeme) (ls : List Lexeme) :
    spell (l :: ls) = l.chars ++ spell ls := rfl

@[simp] theorem spell_append (ls ms : List Lexeme) : spell (ls ++ ms) = spell ls ++ spell ms :=
  List.flatMap_append

/-- A text does not go on with a character of the class `p`. -/
def StopsAt (p : Char → Bool) (rest : List Char) : Prop := ∀ c ∈ rest.head?, p c = false

theorem stopsAt_cons {p : Char → Bool} {c : Char} {rest : List Char} (h : p c = false) :
    StopsAt p (c :: rest) := by
  intro d hd
  cases hd
  exact h

/-- A run of characters ends where the text stops going on with them. -/
theorem StopsAt.takeWhile_eq {p : Char → Bool} {run rest : List Char} (h : StopsAt p rest)
    (hrun : ∀ c ∈ run, p c = true) : (run ++ rest).takeWhile p = run := by
  rw [List.takeWhile_append_of_pos hrun]
  cases rest with
  | nil => simp
  | cons c rest => rw [List.takeWhile_cons_of_neg (by simp [h c rfl]), List.append_nil]

theorem StopsAt.dropWhile_eq {p : Char → Bool} {run rest : List Char} (h : StopsAt p rest)
    (hrun : ∀ c ∈ run, p c = true) : (run ++ rest).dropWhile p = rest := by
  rw [List.dropWhile_append_of_pos hrun]
  cases rest with
  | nil => rfl
  | cons c rest => rw [List.dropWhile_cons_of_neg (by simp [h c rfl])]

namespace Lexeme

/-! ## First characters -/

/-- The characters with which a token can begin. -/
def canBegin (c : Char) : Bool := isLetter c || c.isDigit || (markOf? c).isSome

/-- No layout begins like this. -/
theorem not_layout_of_canBegin {c : Char} (h : canBegin c = true) :
    isBlank c = false ∧ c ≠ '\n' ∧ c ≠ '{' := by
  have hne : ∀ d : Char, canBegin d = false → c ≠ d := by
    rintro d hd rfl
    rw [h] at hd
    cases hd
  refine ⟨?_, hne '\n' rfl, hne '{' rfl⟩
  simp [isBlank, hne ' ' rfl, hne '\t' rfl, hne '\r' rfl, hne '\x0c' rfl]

theorem canBegin_of_letter {c : Char} (h : isLetter c = true) : canBegin c = true := by
  rw [canBegin, h, Bool.true_or, Bool.true_or]

theorem canBegin_of_digit {c : Char} (h : c.isDigit = true) : canBegin c = true := by
  rw [canBegin, h, Bool.or_true, Bool.true_or]

/-! ## One lexeme -/

/-- In front of `rest` the lexeme is found as it is. -/
def CutBefore (l : Lexeme) (rest : List Char) : Prop :=
  ∃ c cs, l.chars = c :: cs ∧ cut c (cs ++ rest) = (l, rest)

/-- A single blank. -/
def space : Lexeme := ⟨.ok (.layout .blanks), [' ']⟩

/-- A mark or a reserved word in its own spelling. -/
def ofTerminal (t : Terminal) : Lexeme := ⟨.ok (.terminal t), t.spelling.toList⟩

/-- A word. -/
def ofWord (chars : List Char) : Lexeme := ⟨.ok (wordKind chars), chars⟩

/-- An integer in its shortest decimal form. -/
def ofNat (n : Nat) : Lexeme := ⟨integerKind (Nat.toDigits 10 n), Nat.toDigits 10 n⟩

theorem cutBefore_space {rest : List Char} (h : StopsAt isBlank rest) : space.CutBefore rest := by
  refine ⟨' ', [], rfl, ?_⟩
  have hrun : ∀ c ∈ ([] : List Char), isBlank c = true := nofun
  rw [cut, if_pos (show isBlank ' ' = true from rfl), h.takeWhile_eq hrun, h.dropWhile_eq hrun]
  rfl

theorem isLetter_of_digit {c : Char} (h : c.isDigit = true) : isLetter c = false := by
  simp only [Char.isDigit, Bool.and_eq_true, decide_eq_true_eq, UInt32.le_iff_toNat_le,
    ge_iff_le] at h
  have hdigit : 48 ≤ c.val.toNat ∧ c.val.toNat ≤ 57 := h
  apply Bool.eq_false_iff.mpr
  intro hletter
  delta isLetter Char.isAlpha Char.isUpper Char.isLower at hletter
  simp only [Bool.or_eq_true, Bool.and_eq_true, decide_eq_true_eq, beq_iff_eq,
    UInt32.le_iff_toNat_le, ge_iff_le] at hletter
  -- both cases of letters lie above the digits, and so does the underscore
  rcases hletter with (⟨hlow, -⟩ | ⟨hlow, -⟩) | rfl
  · have hupper : 65 ≤ c.val.toNat := hlow
    omega
  · have hlower : 97 ≤ c.val.toNat := hlow
    omega
  · exact absurd hdigit (by decide)

/-- No digit begins anything but a number. -/
theorem cut_digit {c : Char} (h : c.isDigit = true) (rest : List Char) :
    cut c rest = cutNumber c rest := by
  obtain ⟨hblank, hfeed, hbrace⟩ := not_layout_of_canBegin (canBegin_of_digit h)
  rw [cut, hblank, isLetter_of_digit h, if_neg hfeed, if_neg hbrace, if_pos h]
  rfl

/-- A decimal begins with a digit and goes on with digits. -/
theorem exists_toDigits_eq (n : Nat) :
    ∃ c cs, Nat.toDigits 10 n = c :: cs ∧ ∀ d ∈ c :: cs, d.isDigit = true := by
  cases hdigits : Nat.toDigits 10 n with
  | nil => exact absurd hdigits Nat.toDigits_ne_nil
  | cons c cs =>
    refine ⟨c, cs, rfl, fun d hd => ?_⟩
    exact Nat.isDigit_of_mem_toDigits (by decide) (by decide) (hdigits ▸ hd)

/-- So it does not begin with a blank. -/
theorem stopsAt_ofNat (n : Nat) (rest : List Char) :
    StopsAt isBlank ((ofNat n).chars ++ rest) := by
  obtain ⟨c, cs, hdigits, hall⟩ := exists_toDigits_eq n
  have hdigit := canBegin_of_digit (hall c List.mem_cons_self)
  rw [show (ofNat n).chars = c :: cs from hdigits]
  exact stopsAt_cons (not_layout_of_canBegin hdigit).1

theorem cutBefore_ofNat (n : Nat) {rest : List Char} (hdigit : StopsAt Char.isDigit rest)
    (hpoint : StopsAt (· == '.') rest) : (ofNat n).CutBefore rest := by
  obtain ⟨c, cs, hdigits, hall⟩ := exists_toDigits_eq n
  have hrun : ∀ d ∈ cs, d.isDigit = true := fun d hd => hall d (List.mem_cons_of_mem _ hd)
  refine ⟨c, cs, hdigits, ?_⟩
  rw [cut_digit (hall c List.mem_cons_self), cutNumber, hdigit.takeWhile_eq hrun,
    hdigit.dropWhile_eq hrun, ofNat, hdigits]
  -- the digits are a whole number unless a point stands behind them
  cases rest with
  | nil => rfl
  | cons d rest =>
    have hd : d ≠ '.' := by simpa using hpoint d rfl
    split
    · next heq => exact absurd (List.cons.inj heq).1 hd
    · rfl

/-- A decimal that fits into 64 bits is an integer constant. -/
theorem content_ofNat {n : Nat} (h : n ≤ 9223372036854775807) :
    (ofNat n).content = .ok (.integerConstant (Int64.ofNat n)) := by
  rw [ofNat]
  dsimp only
  rw [integerKind, Nat.ofDigitChars_ten_toDigits, if_pos (Nat.lt_succ_of_le h)]

end Lexeme

/-! ## Sequences -/

/-- In front of `rest` each of the lexemes is found as it is. -/
def Clean : List Lexeme → List Char → Prop
  | [], _ => True
  | l :: ls, rest => l.CutBefore (spell ls ++ rest) ∧ Clean ls rest

theorem clean_append_iff {ls ms : List Lexeme} {rest : List Char} :
    Clean (ls ++ ms) rest ↔ Clean ls (spell ms ++ rest) ∧ Clean ms rest := by
  induction ls with
  | nil => exact ⟨fun h => ⟨trivial, h⟩, And.right⟩
  | cons l ls ih =>
    rw [List.cons_append, Clean, Clean, ih, spell_append, List.append_assoc, and_assoc]

/-- Lexemes with the places where they start, if the first one starts at `p`. -/
def placed : Position → List Lexeme → List (Lexeme × Position)
  | _, [] => []
  | p, l :: ls => (l, p) :: placed (l.stop p) ls

theorem lexemes_ofText_spell {ls : List Lexeme} (h : Clean ls []) (p : Position) :
    (Cutting.ofText p (spell ls)).lexemes = placed p ls := by
  induction ls generalizing p with
  | nil =>
    rw [spell_nil, Cutting.ofText]
    rfl
  | cons l ls ih =>
    obtain ⟨⟨c, cs, hchars, hcut⟩, hrest⟩ := h
    rw [List.append_nil] at hcut
    rw [spell_cons, hchars, List.cons_append, Cutting.ofText, hcut, placed]
    dsimp only
    rw [ih hrest]

/-- The token that a lexeme at `p` is, if it is one. -/
def Lexeme.token? (l : Lexeme) (p : Position) : Option Token :=
  match l.content with
  | .ok (.layout _) => none
  | .ok kind => some ⟨kind, String.ofList l.chars, p⟩
  | .error _ => none

/-- The tokens among lexemes of which the first one starts at `p`. -/
def tokensFrom (p : Position) (ls : List Lexeme) : List Token :=
  (placed p ls).filterMap fun (l, p) => l.token? p

/-- Where the text behind some lexemes begins. -/
def stopFrom (p : Position) (ls : List Lexeme) : Position := ls.foldl (fun q l => l.stop q) p

theorem placed_append (p : Position) (ls ms : List Lexeme) :
    placed p (ls ++ ms) = placed p ls ++ placed (stopFrom p ls) ms := by
  induction ls generalizing p with
  | nil => rfl
  | cons l ls ih => rw [List.cons_append, placed, placed, ih, List.cons_append]; rfl

theorem tokensFrom_append (p : Position) (ls ms : List Lexeme) :
    tokensFrom p (ls ++ ms) = tokensFrom p ls ++ tokensFrom (stopFrom p ls) ms := by
  rw [tokensFrom, placed_append, List.filterMap_append]
  rfl

theorem tokensFrom_cons {l : Lexeme} {p : Position} {t : Token} (h : l.token? p = some t)
    (ls : List Lexeme) : tokensFrom p (l :: ls) = t :: tokensFrom (l.stop p) ls :=
  List.filterMap_cons_some h

theorem tokensFrom_space (p : Position) (ls : List Lexeme) :
    tokensFrom p (.space :: ls) = tokensFrom (p.advance [' ']) ls := rfl

theorem tokensFrom_ofTerminal (p : Position) (t : Terminal) (ls : List Lexeme) :
    tokensFrom p (.ofTerminal t :: ls) =
      ⟨.terminal t, t.spelling, p⟩ :: tokensFrom (p.advance t.spelling.toList) ls := by
  apply tokensFrom_cons
  rw [Lexeme.token?, Lexeme.ofTerminal, String.ofList_toList]

theorem tokensFrom_ofNat (p : Position) {n : Nat} (h : n ≤ 9223372036854775807) (ls : List Lexeme) :
    tokensFrom p (.ofNat n :: ls) =
      ⟨.integerConstant (Int64.ofNat n), String.ofList (Nat.toDigits 10 n), p⟩ ::
        tokensFrom (p.advance (Nat.toDigits 10 n)) ls := by
  have hcontent := Lexeme.content_ofNat h
  have hstop : (Lexeme.ofNat n).stop p = p.advance (Nat.toDigits 10 n) := by
    rw [Lexeme.stop, hcontent]
    rfl
  rw [← hstop]
  apply tokensFrom_cons
  rw [Lexeme.token?, hcontent]
  rfl

/-- A text of lexemes that are found again has their tokens. -/
theorem scans_of_clean {ls : List Lexeme} (h : Clean ls [])
    (hok : ∀ l ∈ ls, l.content.isOk = true) :
    Scans (String.ofList (spell ls)) (tokensFrom .start ls) := by
  rw [scans_iff_upcoming, TokenStream.ofSource, tokensFrom, String.toList_ofList]
  dsimp only
  rw [lexemes_ofText_spell h]
  -- where the sequence starts does not matter, and it is another place for each rest
  generalize Position.start = p
  clear h
  induction ls generalizing p with
  | nil => rfl
  | cons l ls ih =>
    have hfirst := hok l List.mem_cons_self
    have hrest := ih (fun m hm => hok m (List.mem_cons_of_mem _ hm)) (l.stop p)
    rw [placed, List.filterMap_cons, List.filterMap_cons, hrest, Lexeme.answer?, Lexeme.token?]
    cases hcontent : l.content with
    | ok kind => cases kind <;> rfl
    | error fault =>
      rw [hcontent] at hfirst
      cases hfirst

end MiniPascal
