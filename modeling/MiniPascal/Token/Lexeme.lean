/-
`Lexeme.lean` -- cutting a text into lexemes.

A lexeme is a piece of text that the scanner takes in one go: a token, a stretch of
layout, or a piece that is neither and is reported. `cut` takes the lexeme that the
first character announces, and always the longest one: each class of lexemes is a
first character followed by all characters that can continue it, so the split is a
`takeWhile` and its `dropWhile`. Only two classes look further ahead, at a point
that may begin a fraction and at a colon that may begin an assignment.

What matters later is stated at the end: nothing of the text is lost (`cut_append`)
and no lexeme is empty (`cut_ne_nil`), hence what is left is shorter
(`length_cut_lt`), which is why scanning ends.
-/
import MiniPascal.Fault

set_option autoImplicit false

namespace MiniPascal

/-- A piece of text and what it is. -/
structure Lexeme where
  content : Except LexicalFault Kind
  chars : List Char

namespace Lexeme

/-! ## Classes of characters

Letters and digits are those of ASCII. No other character begins or continues a
lexeme, except inside a comment. -/

/-- Spaces, tabs, carriage returns and form feeds. -/
def isBlank (c : Char) : Bool := c == ' ' || c == '\t' || c == '\r' || c == '\x0c'

/-- Letters and the underscore begin a word. -/
def isLetter (c : Char) : Bool := c.isAlpha || c == '_'

/-- Digits may continue one. -/
def isWordChar (c : Char) : Bool := isLetter c || c.isDigit

/-! ## Kinds -/

/-- The kind of a word. Reserved words are recognised in any letter case, while
identifiers keep their spelling. -/
def wordKind (chars : List Char) : Kind :=
  match Terminal.words.find? fun w => w.spelling.toList == chars.map Char.toUpper with
  | some w => .terminal w
  | none => .identifier (String.ofList chars)

/-- The constant that a run of digits stands for, if it fits into 64 bits. -/
def integerKind (digits : List Char) : Except LexicalFault Kind :=
  let n := Nat.ofDigitChars 10 digits 0
  if n < Nat.pow 2 63 then .ok (.integerConstant (Int64.ofNat n))
  else .error (.integerOutOfRange (String.ofList digits))

/-- The real nearest to the decimal with these digits around its point. -/
def realKind (whole fraction : List Char) : Kind :=
  .realConstant
    (Float.ofScientific (Nat.ofDigitChars 10 (whole ++ fraction) 0) true fraction.length)

/-- The marks of one character. -/
def markOf? : Char → Option Terminal
  | '+' => some .plus
  | '-' => some .minus
  | '*' => some .times
  | '/' => some .slash
  | '(' => some .leftParen
  | ')' => some .rightParen
  | ';' => some .semicolon
  | '.' => some .dot
  | ':' => some .colon
  | ',' => some .comma
  | _ => none

/-! ## Cutting

Each function gets the text behind the opening character, and gives the lexeme and
the text behind it. -/

/-- A comment runs to the next closing brace, over line feeds as well. Without one
it is reported, and takes the whole text along. -/
def cutComment (rest : List Char) : Lexeme × List Char :=
  match rest.dropWhile (· != '}') with
  | close :: after =>
    (⟨.ok (.layout .comment), '{' :: rest.takeWhile (· != '}') ++ [close]⟩, after)
  | [] => (⟨.error .unclosedComment, '{' :: rest⟩, [])

/-- A run of digits, and a fraction if a point and another digit follow. A point
without a digit is left for the next lexeme. -/
def cutNumber (c : Char) (rest : List Char) : Lexeme × List Char :=
  let whole := c :: rest.takeWhile Char.isDigit
  match rest.dropWhile Char.isDigit with
  | '.' :: d :: more =>
    if d.isDigit then
      let fraction := d :: more.takeWhile Char.isDigit
      (⟨.ok (realKind whole fraction), whole ++ '.' :: fraction⟩, more.dropWhile Char.isDigit)
    else (⟨integerKind whole, whole⟩, '.' :: d :: more)
  | after => (⟨integerKind whole, whole⟩, after)

/-- A mark. A character that is none is reported on its own. -/
def cutMark (c : Char) (rest : List Char) : Lexeme × List Char :=
  match c, rest with
  | ':', '=' :: after => (⟨.ok (.terminal .assign), [':', '=']⟩, after)
  | _, _ =>
    match markOf? c with
    | some mark => (⟨.ok (.terminal mark), [c]⟩, rest)
    | none => (⟨.error (.unrecognizedCharacter c), [c]⟩, rest)

/-- The first lexeme of `c :: rest`, and the text behind it. -/
def cut (c : Char) (rest : List Char) : Lexeme × List Char :=
  if isBlank c then
    (⟨.ok (.layout .blanks), c :: rest.takeWhile isBlank⟩, rest.dropWhile isBlank)
  else if c = '\n' then (⟨.ok (.layout .lineFeed), [c]⟩, rest)
  else if c = '{' then cutComment rest
  else if isLetter c then
    let chars := c :: rest.takeWhile isWordChar
    (⟨.ok (wordKind chars), chars⟩, rest.dropWhile isWordChar)
  else if c.isDigit then cutNumber c rest
  else cutMark c rest

/-- Where the text behind a lexeme begins. An unclosed comment never gets to end a
line: what it takes along is counted in the columns of the line it began on. -/
def stop (lexeme : Lexeme) (p : Position) : Position :=
  match lexeme.content with
  | .error .unclosedComment => p.shift lexeme.chars
  | _ => p.advance lexeme.chars

/-! ## Nothing is lost -/

theorem cutComment_append (rest : List Char) :
    (cutComment rest).1.chars ++ (cutComment rest).2 = '{' :: rest := by
  unfold cutComment
  split
  · next close after h =>
    have hsplit := List.takeWhile_append_dropWhile (p := (· != '}')) (l := rest)
    rw [h] at hsplit
    simp only [List.cons_append, List.append_assoc, List.nil_append, hsplit]
  · simp

theorem cutNumber_append (c : Char) (rest : List Char) :
    (cutNumber c rest).1.chars ++ (cutNumber c rest).2 = c :: rest := by
  have hsplit := List.takeWhile_append_dropWhile (p := Char.isDigit) (l := rest)
  unfold cutNumber
  split
  · next d more h =>
    rw [h] at hsplit
    split
    · simp only [List.cons_append, List.append_assoc, List.takeWhile_append_dropWhile, hsplit]
    · simp only [List.cons_append, hsplit]
  · simp only [List.cons_append, hsplit]

theorem cutMark_append (c : Char) (rest : List Char) :
    (cutMark c rest).1.chars ++ (cutMark c rest).2 = c :: rest := by
  unfold cutMark
  split
  · rfl
  · split <;> rfl

theorem cut_append (c : Char) (rest : List Char) :
    (cut c rest).1.chars ++ (cut c rest).2 = c :: rest := by
  unfold cut
  split
  · simp only [List.cons_append, List.takeWhile_append_dropWhile]
  split
  · rfl
  split
  · next h => rw [cutComment_append, h]
  split
  · simp only [List.cons_append, List.takeWhile_append_dropWhile]
  split
  · exact cutNumber_append c rest
  · exact cutMark_append c rest

theorem cut_ne_nil (c : Char) (rest : List Char) : (cut c rest).1.chars ≠ [] := by
  unfold cut cutComment cutNumber cutMark
  repeat' split
  all_goals simp

theorem length_cut_lt (c : Char) (rest : List Char) :
    (cut c rest).2.length < (c :: rest).length := by
  have happend := congrArg List.length (cut_append c rest)
  have hpos := List.length_pos_iff.mpr (cut_ne_nil c rest)
  rw [List.length_append] at happend
  omega

end Lexeme

end MiniPascal
