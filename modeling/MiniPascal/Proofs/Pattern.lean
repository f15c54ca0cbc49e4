/-
`Pattern.lean` -- which texts are lexemes, and that cutting takes the longest.

The patterns say which texts can be a token or a number out of range, each text for
itself and without a word about how it is found (`Pattern`). Several patterns can match
at one point of a text, at different lengths: `3` and `3.1`, `:` and `:=`, `end` and
`ending`. What `cut` takes is a text of a pattern, of the kind that this pattern says,
and no pattern matches a longer one (`Longest`). Where it takes something else there is
layout, or no pattern matches at all. That these are all cases is `outcome_cut`, and from
it a longest match can be recognised as what is cut (`cut_of_longest`).
-/
import Mathlib.Data.List.TakeWhile
import MiniPascal.Proofs.Spelling

set_option autoImplicit false

namespace MiniPascal

/-- The shape of an identifier: a letter or an underscore, and then letters, digits and
underscores. -/
def IsWord (name : String) : Prop :=
  ∃ c cs, name.toList = c :: cs ∧ Lexeme.isLetter c = true ∧ ∀ d ∈ cs, Lexeme.isWordChar d = true

namespace Lexeme

/-! ## Patterns -/

/-- One or more digits. -/
def Digits (chars : List Char) : Prop := chars ≠ [] ∧ ∀ c ∈ chars, c.isDigit = true

/-- The texts that the patterns match, and what they are. A word is reserved if it is
one in some letter case, and otherwise an identifier that keeps its spelling. An integer
has the value of its digits, if that fits into 64 bits. -/
inductive Pattern : List Char → Except LexicalFault Kind → Prop
  | real {whole fraction} :
      Digits whole → Digits fraction →
      Pattern (whole ++ '.' :: fraction) (.ok (.realConstant
        (Float.ofScientific (Nat.ofDigitChars 10 (whole ++ fraction) 0) true fraction.length)))
  | integer {digits} {value : Int64} :
      Digits digits → value.toInt = Nat.ofDigitChars 10 digits 0 →
      Pattern digits (.ok (.integerConstant value))
  | outOfRange {digits} :
      Digits digits → Int64.maxValue.toInt < Nat.ofDigitChars 10 digits 0 →
      Pattern digits (.error (.integerOutOfRange (String.ofList digits)))
  | reserved {chars which} :
      which ∈ Terminal.words → chars.map Char.toUpper = which.spelling.toList →
      Pattern chars (.ok (.terminal which))
  | identifier {c cs} :
      isLetter c = true → (∀ d ∈ cs, isWordChar d = true) →
      (∀ which ∈ Terminal.words, (c :: cs).map Char.toUpper ≠ which.spelling.toList) →
      Pattern (c :: cs) (.ok (.identifier (String.ofList (c :: cs))))
  | mark {which} :
      which ∉ Terminal.words → Pattern which.spelling.toList (.ok (.terminal which))

/-- In front of `rest`, no pattern matches more than `chars`. -/
def Longest (chars rest : List Char) : Prop :=
  ∀ longer content, Pattern longer content → longer <+: chars ++ rest →
    longer.length ≤ chars.length

/-- Runs of blanks, line feeds and closed comments. -/
inductive Trivia : List Char → Prop
  | nil : Trivia []
  | blank {c rest} : isBlank c = true → Trivia rest → Trivia (c :: rest)
  | lineFeed {rest} : Trivia rest → Trivia ('\n' :: rest)
  | comment {inside rest} : '}' ∉ inside → Trivia rest → Trivia ('{' :: (inside ++ '}' :: rest))

/-- Trivia does not begin like a token. -/
theorem Trivia.not_canBegin {c : Char} {cs : List Char} (h : Trivia (c :: cs)) :
    canBegin c = false := by
  rw [Bool.eq_false_iff]
  intro hbegin
  obtain ⟨hblank, hfeed, hbrace⟩ := not_layout_of_canBegin hbegin
  cases h with
  | blank hc _ =>
    rw [hc] at hblank
    cases hblank
  | lineFeed _ => exact hfeed rfl
  | comment _ _ => exact hbrace rfl

/-! ## Words -/

/-- No letter begins anything but a word. -/
theorem cut_letter {c : Char} (h : isLetter c = true) (rest : List Char) :
    cut c rest = (⟨.ok (wordKind (c :: rest.takeWhile isWordChar)),
      c :: rest.takeWhile isWordChar⟩, rest.dropWhile isWordChar) := by
  obtain ⟨hblank, hfeed, hbrace⟩ := not_layout_of_canBegin (canBegin_of_letter h)
  rw [cut, hblank, if_neg hfeed, if_neg hbrace, if_pos h]
  rfl

theorem isWordChar_of_letter {c : Char} (h : isLetter c = true) : isWordChar c = true := by
  rw [isWordChar, h, Bool.true_or]

/-- Only letters become letters in another case. -/
theorem isAlpha_of_toUpper {c : Char} (h : c.toUpper.isAlpha = true) : c.isAlpha = true := by
  unfold Char.toUpper at h
  split at h
  · next hlower =>
    have hisLower : c.isLower = true :=
      Bool.and_eq_true_iff.mpr ⟨decide_eq_true hlower.1, decide_eq_true hlower.2⟩
    exact Bool.or_eq_true_iff.mpr (.inr hisLower)
  · exact h

/-- Reserved words are written in letters. -/
theorem isLetter_of_reserved {chars : List Char} {which : Terminal}
    (hwhich : which ∈ Terminal.words) (h : chars.map Char.toUpper = which.spelling.toList) :
    ∀ c ∈ chars, isLetter c = true := by
  have hspelling : Terminal.words.all (fun w => w.spelling.toList.all Char.isAlpha) = true := rfl
  have hwhich := List.all_eq_true.mp (List.all_eq_true.mp hspelling which hwhich)
  intro c hc
  have halpha := hwhich c.toUpper (h ▸ List.mem_map_of_mem hc)
  rw [isLetter, isAlpha_of_toUpper halpha, Bool.true_or]

theorem exists_cons_of_reserved {chars : List Char} {which : Terminal}
    (hwhich : which ∈ Terminal.words) (h : chars.map Char.toUpper = which.spelling.toList) :
    ∃ c cs, chars = c :: cs ∧ isLetter c = true ∧ ∀ d ∈ cs, isWordChar d = true := by
  have hletters := isLetter_of_reserved hwhich h
  cases chars with
  | nil =>
    have hspelling : ∀ which ∈ Terminal.words, which.spelling.toList ≠ [] := by decide
    exact absurd h.symm (hspelling which hwhich)
  | cons c cs =>
    obtain ⟨hc, hcs⟩ := List.forall_mem_cons.mp hletters
    exact ⟨c, cs, rfl, hc, fun d hd => isWordChar_of_letter (hcs d hd)⟩

theorem wordKind_of_reserved {chars : List Char} {which : Terminal}
    (hwhich : which ∈ Terminal.words) (h : chars.map Char.toUpper = which.spelling.toList) :
    wordKind chars = .terminal which := by
  unfold wordKind
  rw [h]
  -- the spellings of the reserved words differ
  simp only [Terminal.words, List.mem_cons, List.not_mem_nil, or_false] at hwhich
  rcases hwhich with rfl | rfl | rfl | rfl | rfl | rfl | rfl | rfl <;> rfl

theorem wordKind_of_not_reserved {chars : List Char}
    (h : ∀ which ∈ Terminal.words, chars.map Char.toUpper ≠ which.spelling.toList) :
    wordKind chars = .identifier (String.ofList chars) := by
  have hnone : Terminal.words.find? (fun w => w.spelling.toList == chars.map Char.toUpper) =
      none := by
    rw [List.find?_eq_none]
    intro which hwhich heq
    exact h which hwhich (beq_iff_eq.mp heq).symm
  rw [wordKind, hnone]

/-- A run of letters and digits that begins with a letter is a word. -/
theorem pattern_wordKind {c : Char} {cs : List Char} (hc : isLetter c = true)
    (hcs : ∀ d ∈ cs, isWordChar d = true) : Pattern (c :: cs) (.ok (wordKind (c :: cs))) := by
  by_cases h : ∃ which ∈ Terminal.words, (c :: cs).map Char.toUpper = which.spelling.toList
  · obtain ⟨which, hwhich, heq⟩ := h
    rw [wordKind_of_reserved hwhich heq]
    exact .reserved hwhich heq
  · have hnone : ∀ which ∈ Terminal.words, (c :: cs).map Char.toUpper ≠ which.spelling.toList :=
      fun which hwhich heq => h ⟨which, hwhich, heq⟩
    rw [wordKind_of_not_reserved hnone]
    exact .identifier hc hcs hnone

/-! ## Numbers -/

theorem cutNumber_real {c d : Char} {whole : List Char} (more : List Char)
    (hwhole : ∀ x ∈ whole, x.isDigit = true) (hd : d.isDigit = true) :
    cutNumber c (whole ++ '.' :: d :: more) =
      (⟨.ok (realKind (c :: whole) (d :: more.takeWhile Char.isDigit)),
        c :: whole ++ '.' :: d :: more.takeWhile Char.isDigit⟩, more.dropWhile Char.isDigit) := by
  have hstop : StopsAt Char.isDigit ('.' :: d :: more) := stopsAt_cons rfl
  rw [cutNumber, hstop.takeWhile_eq hwhole, hstop.dropWhile_eq hwhole]
  exact if_pos hd

/-- No digit behind a point, so that the digits are a whole number. -/
def NoFraction (rest : List Char) : Prop := ∀ d more, rest = '.' :: d :: more → d.isDigit = false

theorem cutNumber_integer {c : Char} {rest : List Char}
    (h : NoFraction (rest.dropWhile Char.isDigit)) :
    cutNumber c rest = (⟨integerKind (c :: rest.takeWhile Char.isDigit),
      c :: rest.takeWhile Char.isDigit⟩, rest.dropWhile Char.isDigit) := by
  unfold cutNumber
  dsimp only
  split
  · next d more hrest =>
    rw [if_neg (Bool.eq_false_iff.mp (h d more hrest)), hrest]
  · rfl

theorem pattern_integerKind {digits : List Char} (h : Digits digits) :
    Pattern digits (integerKind digits) := by
  unfold integerKind
  dsimp only
  split
  · next hfits =>
    exact .integer h (Int64.toInt_ofNat_of_lt hfits)
  · next hlarge =>
    refine .outOfRange h ?_
    have hmax : Int64.maxValue.toInt = 9223372036854775807 := rfl
    have hpow : Nat.pow 2 63 = 9223372036854775808 := rfl
    rw [hpow] at hlarge
    omega

theorem integerKind_of_value {digits : List Char} {value : Int64}
    (h : value.toInt = Nat.ofDigitChars 10 digits 0) :
    integerKind digits = .ok (.integerConstant value) := by
  have hfits : Nat.ofDigitChars 10 digits 0 < Nat.pow 2 63 := by
    have hlt : value.toInt < 2 ^ 63 := value.toInt_lt
    have hpow : Nat.pow 2 63 = 9223372036854775808 := rfl
    omega
  have hvalue : Int64.ofNat (Nat.ofDigitChars 10 digits 0) = value :=
    Int64.toInt_inj.mp ((Int64.toInt_ofNat_of_lt hfits).trans h.symm)
  unfold integerKind
  dsimp only
  rw [if_pos hfits, hvalue]

theorem integerKind_of_outOfRange {digits : List Char}
    (h : Int64.maxValue.toInt < Nat.ofDigitChars 10 digits 0) :
    integerKind digits = .error (.integerOutOfRange (String.ofList digits)) := by
  have hmax : Int64.maxValue.toInt = 9223372036854775807 := rfl
  have hpow : Nat.pow 2 63 = 9223372036854775808 := rfl
  unfold integerKind
  dsimp only
  rw [if_neg (by omega)]

theorem Digits.exists_cons {digits : List Char} (h : Digits digits) :
    ∃ c cs, digits = c :: cs ∧ c.isDigit = true ∧ ∀ d ∈ cs, d.isDigit = true := by
  cases digits with
  | nil => exact absurd rfl h.1
  | cons c cs => exact ⟨c, cs, rfl, List.forall_mem_cons.mp h.2⟩

/-! ## Every pattern is cut whole -/

/-- A run is part of the longest run in its place. -/
theorem length_le_takeWhile {p : Char → Bool} {run : List Char} (h : ∀ c ∈ run, p c = true)
    (rest : List Char) : run.length ≤ ((run ++ rest).takeWhile p).length := by
  rw [List.takeWhile_append_of_pos h, List.length_append]
  exact Nat.le_add_right _ _

theorem length_le_cutNumber (c : Char) (rest : List Char) :
    (rest.takeWhile Char.isDigit).length + 1 ≤ (cutNumber c rest).1.chars.length := by
  unfold cutNumber
  dsimp only
  split
  · split <;> simp
  · simp

/-! ## Marks -/

theorem spelling_of_markOf? {c : Char} {which : Terminal} (h : markOf? c = some which) :
    which ∉ Terminal.words ∧ which.spelling.toList = [c] := by
  unfold markOf? at h
  split at h <;> cases h
  all_goals exact ⟨by decide, rfl⟩

/-- All marks but one are single characters. -/
theorem markOf?_of_mark {which : Terminal} (h : which ∉ Terminal.words) :
    which = .assign ∨ ∃ c, which.spelling.toList = [c] ∧ markOf? c = some which := by
  cases which with
  | assign => exact .inl rfl
  | plus => exact .inr ⟨'+', rfl, rfl⟩
  | minus => exact .inr ⟨'-', rfl, rfl⟩
  | times => exact .inr ⟨'*', rfl, rfl⟩
  | slash => exact .inr ⟨'/', rfl, rfl⟩
  | leftParen => exact .inr ⟨'(', rfl, rfl⟩
  | rightParen => exact .inr ⟨')', rfl, rfl⟩
  | semicolon => exact .inr ⟨';', rfl, rfl⟩
  | dot => exact .inr ⟨'.', rfl, rfl⟩
  | colon => exact .inr ⟨':', rfl, rfl⟩
  | comma => exact .inr ⟨',', rfl, rfl⟩
  | _ => exact absurd (by decide) h

theorem cut_mark_alone {c : Char} {which : Terminal} (h : markOf? c = some which) :
    cut c [] = (⟨.ok (.terminal which), [c]⟩, []) := by
  unfold markOf? at h
  split at h <;> cases h <;> rfl

/-! ## What a pattern matches is part of what is cut -/

/-- What a pattern matches is not empty, and its first character can begin it. -/
theorem Pattern.exists_cons {chars : List Char} {content : Except LexicalFault Kind}
    (h : Pattern chars content) : ∃ c cs, chars = c :: cs ∧ canBegin c = true := by
  cases h with
  | real hwhole _ =>
    obtain ⟨c, cs, rfl, hc, -⟩ := hwhole.exists_cons
    exact ⟨c, _, rfl, canBegin_of_digit hc⟩
  | integer hdigits _ =>
    obtain ⟨c, cs, rfl, hc, -⟩ := hdigits.exists_cons
    exact ⟨c, cs, rfl, canBegin_of_digit hc⟩
  | outOfRange hdigits _ =>
    obtain ⟨c, cs, rfl, hc, -⟩ := hdigits.exists_cons
    exact ⟨c, cs, rfl, canBegin_of_digit hc⟩
  | reserved hwhich heq =>
    obtain ⟨c, cs, rfl, hc, -⟩ := exists_cons_of_reserved hwhich heq
    exact ⟨c, cs, rfl, canBegin_of_letter hc⟩
  | @identifier c cs hc _ _ => exact ⟨c, cs, rfl, canBegin_of_letter hc⟩
  | mark hwhich =>
    rcases markOf?_of_mark hwhich with rfl | ⟨c, hspelling, hmark⟩
    · exact ⟨':', ['='], rfl, rfl⟩
    · refine ⟨c, [], hspelling, ?_⟩
      rw [canBegin, hmark, Option.isSome_some, Bool.or_true]

theorem Digits.length_le_cut {c : Char} {cs digits rest : List Char} (h : Digits digits)
    (htext : digits ++ rest = c :: cs) : digits.length ≤ (cut c cs).1.chars.length := by
  obtain ⟨d, ds, rfl, hd, hds⟩ := h.exists_cons
  obtain ⟨rfl, rfl⟩ := List.cons.inj htext
  rw [cut_digit hd]
  exact Nat.le_trans (Nat.succ_le_succ (length_le_takeWhile hds rest)) (length_le_cutNumber d _)

theorem length_le_cut_of_word {c d : Char} {cs ds rest : List Char} (hd : isLetter d = true)
    (hds : ∀ x ∈ ds, isWordChar x = true) (htext : d :: ds ++ rest = c :: cs) :
    (d :: ds).length ≤ (cut c cs).1.chars.length := by
  obtain ⟨rfl, rfl⟩ := List.cons.inj htext
  rw [cut_letter hd]
  exact Nat.succ_le_succ (length_le_takeWhile hds rest)

/-- **No pattern reaches further.** What is cut is at least as long as what any pattern
matches in its place. -/
theorem Pattern.length_le_cut {c : Char} {chars cs rest : List Char}
    {content : Except LexicalFault Kind} (h : Pattern chars content)
    (htext : chars ++ rest = c :: cs) : chars.length ≤ (cut c cs).1.chars.length := by
  cases h with
  | real hwhole hfraction =>
    obtain ⟨d, ds, rfl, hd, hds⟩ := hwhole.exists_cons
    obtain ⟨e, es, rfl, he, hes⟩ := hfraction.exists_cons
    simp only [List.append_assoc, List.cons_append] at htext
    obtain ⟨rfl, rfl⟩ := List.cons.inj htext
    have hrun := length_le_takeWhile hes rest
    rw [cut_digit hd, cutNumber_real _ hds he]
    simp only [List.length_append, List.length_cons]
    omega
  | integer hdigits _ => exact hdigits.length_le_cut htext
  | outOfRange hdigits _ => exact hdigits.length_le_cut htext
  | reserved hwhich heq =>
    obtain ⟨d, ds, rfl, hd, hds⟩ := exists_cons_of_reserved hwhich heq
    exact length_le_cut_of_word hd hds htext
  | identifier hd hds _ => exact length_le_cut_of_word hd hds htext
  | mark hwhich =>
    rcases markOf?_of_mark hwhich with rfl | ⟨d, hspelling, -⟩
    · obtain ⟨rfl, rfl⟩ := List.cons.inj htext
      exact Nat.le_refl 2
    · rw [hspelling]
      exact List.length_pos_iff.mpr (cut_ne_nil c cs)

theorem cut_word_alone {c : Char} {cs : List Char} (hc : isLetter c = true)
    (hcs : ∀ d ∈ cs, isWordChar d = true) :
    cut c cs = (⟨.ok (wordKind (c :: cs)), c :: cs⟩, []) := by
  rw [cut_letter hc, List.takeWhile_eq_self_iff.mpr hcs, List.dropWhile_eq_nil_iff.mpr hcs]

theorem cut_digits_alone {c : Char} {cs : List Char} (hc : c.isDigit = true)
    (hcs : ∀ d ∈ cs, d.isDigit = true) :
    cut c cs = (⟨integerKind (c :: cs), c :: cs⟩, []) := by
  have hdrop : cs.dropWhile Char.isDigit = [] := List.dropWhile_eq_nil_iff.mpr hcs
  have hnone : NoFraction (cs.dropWhile Char.isDigit) := by
    rw [hdrop]
    exact nofun
  rw [cut_digit hc, cutNumber_integer hnone, List.takeWhile_eq_self_iff.mpr hcs, hdrop]

/-- Alone, what a pattern matches is cut whole and as what the pattern says. -/
theorem Pattern.cut_alone {c : Char} {cs : List Char} {content : Except LexicalFault Kind}
    (h : Pattern (c :: cs) content) : cut c cs = (⟨content, c :: cs⟩, []) := by
  generalize hchars : c :: cs = chars at h ⊢
  cases h with
  | real hwhole hfraction =>
    obtain ⟨d, ds, rfl, hd, hds⟩ := hwhole.exists_cons
    obtain ⟨e, es, rfl, he, hes⟩ := hfraction.exists_cons
    rw [List.cons_append] at hchars
    obtain ⟨rfl, rfl⟩ := List.cons.inj hchars
    rw [cut_digit hd, cutNumber_real _ hds he, List.takeWhile_eq_self_iff.mpr hes,
      List.dropWhile_eq_nil_iff.mpr hes]
    rfl
  | integer hdigits hvalue =>
    subst hchars
    obtain ⟨hc, hcs⟩ := List.forall_mem_cons.mp hdigits.2
    rw [cut_digits_alone hc hcs, integerKind_of_value hvalue]
  | outOfRange hdigits hlarge =>
    subst hchars
    obtain ⟨hc, hcs⟩ := List.forall_mem_cons.mp hdigits.2
    rw [cut_digits_alone hc hcs, integerKind_of_outOfRange hlarge]
  | reserved hwhich heq =>
    obtain ⟨d, ds, rfl, hd, hds⟩ := exists_cons_of_reserved hwhich heq
    obtain ⟨rfl, rfl⟩ := List.cons.inj hchars
    rw [cut_word_alone hd hds, wordKind_of_reserved hwhich heq]
  | identifier hd hds hnone =>
    obtain ⟨rfl, rfl⟩ := List.cons.inj hchars
    rw [cut_word_alone hd hds, wordKind_of_not_reserved hnone]
  | mark hwhich =>
    rcases markOf?_of_mark hwhich with rfl | ⟨d, hspelling, hmark⟩
    · obtain ⟨rfl, rfl⟩ := List.cons.inj hchars
      rfl
    · rw [hspelling] at hchars ⊢
      obtain ⟨rfl, rfl⟩ := List.cons.inj hchars
      exact cut_mark_alone hmark

/-- A text is matched as one thing only. -/
theorem Pattern.unique {chars : List Char} {content content' : Except LexicalFault Kind}
    (h : Pattern chars content) (h' : Pattern chars content') : content = content' := by
  obtain ⟨c, cs, rfl, -⟩ := h.exists_cons
  have heq := h.cut_alone.symm.trans h'.cut_alone
  exact congrArg (fun piece => piece.1.content) heq

/-! ## What is cut -/

/-- What can be cut from `c :: rest`. -/
inductive Outcome (c : Char) (rest : List Char) : Lexeme × List Char → Prop
  | layout {which chars after} :
      Trivia chars → Outcome c rest (⟨.ok (.layout which), chars⟩, after)
  | lexeme {content chars after} :
      Pattern chars content → Outcome c rest (⟨content, chars⟩, after)
  | unclosed :
      c = '{' → '}' ∉ rest → Outcome c rest (⟨.error .unclosedComment, c :: rest⟩, [])
  | nothing :
      isBlank c = false → c ≠ '\n' → c ≠ '{' →
      (∀ chars content, Pattern chars content → ¬ chars <+: c :: rest) →
      Outcome c rest (⟨.error (.unrecognizedCharacter c), [c]⟩, rest)

theorem trivia_of_blanks {chars : List Char} (h : ∀ c ∈ chars, isBlank c = true) :
    Trivia chars := by
  induction chars with
  | nil => exact .nil
  | cons c cs ih =>
    obtain ⟨hc, hcs⟩ := List.forall_mem_cons.mp h
    exact .blank hc (ih hcs)

theorem outcome_cutComment (rest : List Char) : Outcome '{' rest (cutComment rest) := by
  have hinside : '}' ∉ rest.takeWhile (· != '}') := fun hmem => by
    simpa using List.mem_takeWhile_imp hmem
  unfold cutComment
  split
  · next close after hrest =>
    have hclose : close = '}' := by
      have hhead := List.head?_dropWhile_not (fun x : Char => x != '}') rest
      rw [hrest] at hhead
      simpa using hhead
    subst hclose
    exact .layout (.comment hinside .nil)
  · next hrest =>
    refine .unclosed rfl fun hmem => ?_
    simpa using List.dropWhile_eq_nil_iff.mp hrest '}' hmem

theorem outcome_cutNumber {c : Char} (hc : c.isDigit = true) (rest : List Char) :
    Outcome c rest (cutNumber c rest) := by
  have hwhole : Digits (c :: rest.takeWhile Char.isDigit) :=
    ⟨List.cons_ne_nil _ _, List.forall_mem_cons.mpr ⟨hc, fun _ => List.mem_takeWhile_imp⟩⟩
  unfold cutNumber
  dsimp only
  split
  · split
    · next d more _ hd =>
      have hfraction : Digits (d :: more.takeWhile Char.isDigit) :=
        ⟨List.cons_ne_nil _ _, List.forall_mem_cons.mpr ⟨hd, fun _ => List.mem_takeWhile_imp⟩⟩
      exact .lexeme (.real hwhole hfraction)
    · exact .lexeme (pattern_integerKind hwhole)
  · exact .lexeme (pattern_integerKind hwhole)

theorem outcome_cutMark {c : Char} {rest : List Char} (hblank : isBlank c = false)
    (hfeed : c ≠ '\n') (hbrace : c ≠ '{') (hletter : isLetter c = false)
    (hdigit : c.isDigit = false) : Outcome c rest (cutMark c rest) := by
  unfold cutMark
  split
  · have hassign : Pattern Terminal.assign.spelling.toList (.ok (.terminal .assign)) :=
      .mark (by decide)
    exact .lexeme hassign
  · split
    · next which hmark =>
      obtain ⟨hwhich, hspelling⟩ := spelling_of_markOf? hmark
      exact .lexeme (hspelling ▸ .mark hwhich)
    · next hmark =>
      refine .nothing hblank hfeed hbrace fun chars content hpattern hprefix => ?_
      obtain ⟨d, ds, rfl, hd⟩ := hpattern.exists_cons
      obtain rfl : d = c := (List.cons_prefix_cons.mp hprefix).1
      rw [canBegin, hletter, hdigit, hmark] at hd
      cases hd

/-- There is no other case. -/
theorem outcome_cut (c : Char) (rest : List Char) : Outcome c rest (cut c rest) := by
  unfold cut
  split
  · next hc =>
    exact .layout (trivia_of_blanks
      (List.forall_mem_cons.mpr ⟨hc, fun _ => List.mem_takeWhile_imp⟩))
  next hblank =>
  split
  · next hfeed =>
    subst hfeed
    exact .layout (.lineFeed .nil)
  next hfeed =>
  split
  · next hbrace =>
    subst hbrace
    exact outcome_cutComment rest
  next hbrace =>
  split
  · next hc => exact .lexeme (pattern_wordKind hc fun _ => List.mem_takeWhile_imp)
  next hletter =>
  split
  · next hc => exact outcome_cutNumber hc rest
  next hdigit =>
  exact outcome_cutMark (Bool.eq_false_iff.mpr hblank) hfeed hbrace
    (Bool.eq_false_iff.mpr hletter) (Bool.eq_false_iff.mpr hdigit)

/-- A longest match is what is cut. -/
theorem Pattern.cut_of_longest {c : Char} {chars cs rest : List Char}
    {content : Except LexicalFault Kind} (h : Pattern chars content) (hlongest : Longest chars rest)
    (htext : chars ++ rest = c :: cs) : cut c cs = (⟨content, chars⟩, rest) := by
  have happend := cut_append c cs
  have hlength := h.length_le_cut htext
  have houtcome := outcome_cut c cs
  have hbegin : canBegin c = true := by
    obtain ⟨d, ds, rfl, hd⟩ := h.exists_cons
    rwa [(List.cons.inj htext).1] at hd
  have hne := cut_ne_nil c cs
  generalize cut c cs = piece at *
  cases houtcome with
  | @layout which chars' after htrivia =>
    cases chars' with
    | nil => exact absurd rfl hne
    | cons d ds =>
      obtain rfl : d = c := (List.cons.inj happend).1
      rw [htrivia.not_canBegin] at hbegin
      cases hbegin
  | @lexeme content' chars' after hpattern =>
    -- each of the two is at least as long as the other
    have hle : chars'.length ≤ chars.length := by
      refine hlongest chars' content' hpattern ?_
      rw [htext, ← happend]
      exact List.prefix_append _ _
    obtain ⟨rfl, rfl⟩ := List.append_inj (happend.trans htext.symm) (Nat.le_antisymm hle hlength)
    rw [h.unique hpattern]
  | unclosed hbrace _ => exact absurd hbrace (not_layout_of_canBegin hbegin).2.2
  | nothing _ _ _ hnone =>
    refine absurd ?_ (hnone chars content h)
    rw [← htext]
    exact List.prefix_append _ _

/-- What is cut by a pattern is a longest match. -/
theorem longest_of_cut {c : Char} {chars cs rest : List Char} {content : Except LexicalFault Kind}
    (h : cut c cs = (⟨content, chars⟩, rest)) : Longest chars rest := by
  have happend := cut_append c cs
  rw [h] at happend
  rintro longer content' hpattern ⟨more, hmore⟩
  have hlength := hpattern.length_le_cut (hmore.trans happend)
  rwa [h] at hlength

end Lexeme

end MiniPascal
