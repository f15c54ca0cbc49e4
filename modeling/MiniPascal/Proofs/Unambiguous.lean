/-
`Unambiguous.lean` -- a listing tells what is stored.

The text of a value is a sign and a body of digits, points and letters. Bodies of integers
have digits only, bodies of reals have something else besides, and each kind can be had back
from its own: an integer from its digits, and a real from its numeral. So texts tell values
apart, zeros of different signs included (`Number.text_injective`). Messages write reals in
another way, which tells them apart as well (`Binary64.text_injective`). A line ends where its
line feed is, and its name where the first space is, so the lines of a listing can be told
apart too (`listing_determines_store`).
-/
import MiniPascal.Proofs.Numeral
import MiniPascal.Proofs.Pattern
import MiniPascal.Store

set_option autoImplicit false

namespace MiniPascal

/-! ## Texts are a sign and a body -/

/-- A way to write magnitudes with digits and points which tells them apart. -/
structure Magnitude.IsWriting (write : Magnitude → List Char) : Prop where
  mem : ∀ {x c}, c ∈ write x → c.isDigit = true ∨ c = '.'
  injective : ∀ {x y : Magnitude}, x.Representable → y.Representable → write x = write y → x = y

/-- The values of variables are written with numerals. -/
theorem Magnitude.isWriting_numeral : IsWriting numeral := ⟨mem_numeral, numeral_injective⟩

/-- Messages have shortest decimals. -/
theorem Magnitude.isWriting_shortest : IsWriting fun x => x.shortest.chars :=
  ⟨Decimal.mem_chars, chars_shortest_injective⟩

namespace Binary64

theorem toList_signText (negative : Bool) :
    (signText negative).toList = if negative then ['-'] else [] := by
  cases negative <;> rfl

/-- A sign in front is told from what follows it, if that has no hyphen. -/
theorem signText_append_inj {m n : Bool} {a b : List Char} (ha : '-' ∉ a) (hb : '-' ∉ b)
    (h : (signText m).toList ++ a = (signText n).toList ++ b) : m = n ∧ a = b := by
  rw [toList_signText, toList_signText] at h
  -- a hyphen on one side only would be in the other side's text
  cases m <;> cases n <;>
    simp only [if_true, if_false, Bool.false_eq_true, List.nil_append, List.singleton_append] at h
  · exact ⟨rfl, h⟩
  · exact absurd (h ▸ List.mem_cons_self) ha
  · exact absurd (h ▸ List.mem_cons_self) hb
  · exact ⟨rfl, (List.cons.inj h).2⟩

/-- The sign that is written. -/
def negative : Binary64 → Bool
  | nan => false
  | infinite negative => negative
  | finite negative _ => negative

/-- What is written behind the sign. -/
def body (write : Magnitude → List Char) : Binary64 → List Char
  | nan => ['N', 'a', 'N']
  | infinite _ => ['i', 'n', 'f']
  | finite _ size => write size

theorem toList_realText (x : Binary64) :
    (Number.realText x).toList = (signText x.negative).toList ++ x.body Magnitude.numeral := by
  cases x with
  | nan => rfl
  | infinite negative => cases negative <;> rfl
  | finite negative size => exact Number.toList_realText_finite negative size

theorem toList_text (x : Binary64) :
    x.text.toList = (signText x.negative).toList ++ x.body fun size => size.shortest.chars := by
  cases x with
  | nan => rfl
  | infinite negative => cases negative <;> rfl
  | finite negative size => simp [text, body, Binary64.negative, Decimal.text]

variable {write : Magnitude → List Char} (hwrite : Magnitude.IsWriting write)

include hwrite

theorem mem_body {x : Binary64} {c : Char} (h : c ∈ x.body write) :
    c.isAlphanum = true ∨ c = '.' := by
  cases x with
  | nan =>
    simp only [body, List.mem_cons, List.not_mem_nil, or_false] at h
    rcases h with rfl | rfl | rfl <;> decide
  | infinite negative =>
    simp only [body, List.mem_cons, List.not_mem_nil, or_false] at h
    rcases h with rfl | rfl | rfl <;> decide
  | finite negative size =>
    exact (hwrite.mem h).imp_left fun hdigit => by simp [Char.isAlphanum, hdigit]

theorem hyphen_notMem_body (x : Binary64) : '-' ∉ x.body write := by
  intro h
  exact absurd (mem_body hwrite h) (by decide)

/-- What is written of a magnitude is no word with a letter in it. -/
theorem write_ne_word (size : Magnitude) {c : Char} {word : List Char} (hc : c ∈ word)
    (hletter : ¬ (c.isDigit = true ∨ c = '.')) : write size ≠ word := by
  rintro rfl
  exact hletter (hwrite.mem hc)

/-- Sign and body tell decoded reals apart, if their magnitudes are some that bits can have. -/
theorem eq_of_body_eq {x y : Binary64}
    (hx : ∀ {negative size}, x = finite negative size → size.Representable)
    (hy : ∀ {negative size}, y = finite negative size → size.Representable)
    (hsign : x.negative = y.negative) (hbody : x.body write = y.body write) : x = y := by
  have hnan (size : Magnitude) : write size ≠ ['N', 'a', 'N'] :=
    write_ne_word hwrite size List.mem_cons_self (by decide)
  have hinf (size : Magnitude) : write size ≠ ['i', 'n', 'f'] :=
    write_ne_word hwrite size List.mem_cons_self (by decide)
  cases x with
  | nan =>
    cases y with
    | nan => rfl
    | infinite negative => exact absurd hbody (by simp [body])
    | finite negative size => exact absurd hbody.symm (hnan size)
  | infinite negative =>
    cases y with
    | nan => exact absurd hbody (by simp [body])
    | infinite negative' => exact congrArg infinite hsign
    | finite negative' size => exact absurd hbody.symm (hinf size)
  | finite negative size =>
    cases y with
    | nan => exact absurd hbody (hnan size)
    | infinite negative' => exact absurd hbody (hinf size)
    | finite negative' size' =>
      exact congrArg₂ finite hsign (hwrite.injective (hx rfl) (hy rfl) hbody)

/-- Reals are told apart by their sign and their body. -/
theorem eq_of_body_ofFloat_eq {value other : Float}
    (hsign : (ofFloat value).negative = (ofFloat other).negative)
    (hbody : (ofFloat value).body write = (ofFloat other).body write) : value = other :=
  ofFloat_injective
    (eq_of_body_eq hwrite representable_ofBits representable_ofBits hsign hbody)

omit hwrite

/-- The body of a real has more in it than digits. -/
theorem exists_mem_body_not_isDigit (x : Binary64) :
    ∃ c ∈ x.body Magnitude.numeral, c.isDigit = false := by
  cases x with
  | nan => exact ⟨'N', by simp [body], rfl⟩
  | infinite negative => exact ⟨'i', by simp [body], rfl⟩
  | finite negative size => exact ⟨'.', size.point_mem_numeral, rfl⟩

/-- Texts in messages tell reals apart. -/
theorem text_injective : Function.Injective fun value : Float => (ofFloat value).text := by
  intro value other h
  have hchars := congrArg String.toList h
  simp only [toList_text] at hchars
  have hyphen (x : Binary64) := hyphen_notMem_body Magnitude.isWriting_shortest x
  obtain ⟨hsign, hbody⟩ := signText_append_inj (hyphen _) (hyphen _) hchars
  exact eq_of_body_ofFloat_eq Magnitude.isWriting_shortest hsign hbody

end Binary64

namespace Number

/-- Is the value a real that is no number? -/
def isNaN : Number → Bool
  | integer _ => false
  | real value => value.isNaN

/-- The sign that is written. -/
def negative : Number → Bool
  | integer value => decide (value.toInt < 0)
  | real value => (Binary64.ofFloat value).negative

/-- What is written behind the sign. -/
def body : Number → List Char
  | integer value => Nat.toDigits 10 value.toInt.natAbs
  | real value => (Binary64.ofFloat value).body Magnitude.numeral

theorem toList_text (v : Number) :
    v.text.toList = (Binary64.signText v.negative).toList ++ v.body := by
  cases v with
  | integer value =>
    simp only [text, negative, body, Int.toString_eq_repr, Int.repr_eq_if,
      Binary64.toList_signText, decide_eq_true_eq]
    by_cases hneg : value.toInt < 0
    · have habs : (-value.toInt).toNat = value.toInt.natAbs := by omega
      simp [hneg, not_le.mpr hneg, Nat.toList_repr, habs]
    · have habs : value.toInt.toNat = value.toInt.natAbs := by omega
      simp [hneg, not_lt.mp hneg, Nat.toList_repr, habs]
  | real value => exact Binary64.toList_realText _

theorem mem_body {v : Number} {c : Char} (h : c ∈ v.body) : c.isAlphanum = true ∨ c = '.' := by
  cases v with
  | integer value =>
    have hdigit := Nat.isDigit_of_mem_toDigits (by decide) (by decide) h
    exact .inl (by simp [Char.isAlphanum, hdigit])
  | real value => exact Binary64.mem_body Magnitude.isWriting_numeral h

/-- The body of a real is not that of an integer. -/
theorem body_real_ne_body_integer (x : Float) (n : Int64) :
    (real x).body ≠ (integer n).body := by
  intro h
  obtain ⟨c, hc, hdigit⟩ := (Binary64.ofFloat x).exists_mem_body_not_isDigit
  have hinteger : c ∈ (integer n).body := h ▸ hc
  have hisDigit := Nat.isDigit_of_mem_toDigits (by decide) (by decide) hinteger
  simp [hdigit] at hisDigit

theorem hyphen_notMem_body (v : Number) : '-' ∉ v.body := by
  intro h
  exact absurd (mem_body h) (by decide)

/-- **Texts tell values apart.** -/
theorem text_injective : Function.Injective text := by
  intro v w h
  have hchars := congrArg String.toList h
  rw [toList_text, toList_text] at hchars
  obtain ⟨hsign, hbody⟩ :=
    Binary64.signText_append_inj v.hyphen_notMem_body w.hyphen_notMem_body hchars
  cases v with
  | integer m =>
    cases w with
    | integer n =>
      have habs : m.toInt.natAbs = n.toInt.natAbs := by
        have hread := congrArg (Nat.ofDigitChars 10 · 0) hbody
        simpa only [body, Nat.ofDigitChars_ten_toDigits] using hread
      have hneg : m.toInt < 0 ↔ n.toInt < 0 := by simpa [negative] using hsign
      exact congrArg integer (Int64.toInt_inj.mp (by omega))
    | real y => exact absurd hbody.symm (body_real_ne_body_integer y m)
  | real x =>
    cases w with
    | integer n => exact absurd hbody (body_real_ne_body_integer x n)
    | real y =>
      exact congrArg real
        (Binary64.eq_of_body_ofFloat_eq Magnitude.isWriting_numeral hsign hbody)

example : (real 0.0).text = "0.0" ∧ (real (-0.0)).text = "-0.0" := by decide +kernel

theorem newline_notMem_text (v : Number) : '\n' ∉ v.text.toList := by
  rw [toList_text, Binary64.toList_signText]
  intro h
  rcases List.mem_append.mp h with hsign | hbody
  · split at hsign <;> simp at hsign
  · exact absurd (mem_body hbody) (by decide)

end Number

/-! ## Lines -/

theorem IsWord.space_notMem {name : String} (h : IsWord name) :
    ' ' ∉ name.toList := by
  obtain ⟨c, cs, hname, hc, hcs⟩ := h
  rw [hname]
  intro hspace
  rcases List.mem_cons.mp hspace with rfl | hmem
  · exact absurd hc (by decide)
  · exact absurd (hcs ' ' hmem) (by decide)

/-- Up to the first `c`, and from there on, equal texts are equal. -/
theorem append_cons_inj_of_notMem {c : Char} {a b as bs : List Char} (ha : c ∉ a) (hb : c ∉ b)
    (h : a ++ c :: as = b ++ c :: bs) : a = b ∧ as = bs := by
  have hab : a = b := by
    rw [← takeWhile_bne ha as, h, takeWhile_bne hb]
  subst hab
  exact ⟨rfl, (List.cons.inj (List.append_cancel_left h)).2⟩

namespace Store

theorem toList_line (entry : String × Number) :
    (line entry).toList =
      entry.1.toList ++ ' ' :: ['=', ' '] ++ (entry.2.text.toList ++ ['\n']) := by
  simp [line, String.toList_append]

/-- The name of the entry is that of an identifier, and its value is no real that is no
number. -/
def Legible (entry : String × Number) : Prop :=
  IsWord entry.1 ∧ entry.2.isNaN = false

/-- A first line can be told from what follows it. -/
theorem line_append_inj {e f : String × Number} {rest rest' : List Char}
    (he : Legible e) (hf : Legible f)
    (h : (line e).toList ++ rest = (line f).toList ++ rest') : e = f ∧ rest = rest' := by
  simp only [toList_line, List.append_assoc, List.cons_append, List.nil_append] at h
  -- the name ends at the first space, and the text of the value at the first line feed
  obtain ⟨hname, hbehind⟩ :=
    append_cons_inj_of_notMem he.1.space_notMem hf.1.space_notMem h
  obtain ⟨htext, hrest⟩ := append_cons_inj_of_notMem e.2.newline_notMem_text
    f.2.newline_notMem_text (List.cons.inj (List.cons.inj hbehind).2).2
  have hvalue := Number.text_injective (String.toList_inj.mp htext)
  exact ⟨Prod.ext (String.toList_inj.mp hname) hvalue, hrest⟩

theorem line_ne_empty (entry : String × Number) : line entry ≠ "" := by
  intro h
  have hchars := congrArg String.toList h
  simp [toList_line] at hchars

/-- Legible entries can be had back from their lines. -/
theorem eq_of_lines_eq {l m : List (String × Number)} (hl : ∀ e ∈ l, Legible e)
    (hm : ∀ e ∈ m, Legible e)
    (h : (l.map line).flatMap String.toList = (m.map line).flatMap String.toList) : l = m := by
  induction l generalizing m with
  | nil =>
    cases m with
    | nil => rfl
    | cons f m => simp [line_ne_empty] at h
  | cons e l ih =>
    cases m with
    | nil => simp [line_ne_empty] at h
    | cons f m =>
      simp only [List.map_cons, List.flatMap_cons] at h
      obtain ⟨hentry, hrest⟩ :=
        line_append_inj (hl e List.mem_cons_self) (hm f List.mem_cons_self) h
      have htail := ih (fun e he => hl e (List.mem_cons_of_mem _ he))
        (fun e he => hm e (List.mem_cons_of_mem _ he)) hrest
      rw [hentry, htail]

end Store

/-- **A listing tells what is stored.** Two stores with the same text have the same names, and
under each the same value: of the same kind, and equal bit by bit if it is a real. -/
theorem listing_determines_store {s t : Store} (hs : ∀ entry ∈ s.entries, Store.Legible entry)
    (ht : ∀ entry ∈ t.entries, Store.Legible entry) (h : s.text = t.text) : s = t := by
  have hlines := congrArg String.toList h
  rw [Store.text, Store.text, String.toList_join, String.toList_join] at hlines
  have hentries := Store.eq_of_lines_eq hs ht hlines
  obtain ⟨entries, hincreasing⟩ := s
  obtain ⟨entries', hincreasing'⟩ := t
  cases hentries
  rfl

theorem listing_determines_store_reordered :
    (Store.assign ∅ "x" (.real 0.1)).assign "a" (.integer (-3)) =
      ((Store.assign ∅ "a" (.real (-0.0))).assign "x" (.real 0.1)).assign "a" (.integer (-3)) := by
  have hlegible : ∀ entry ∈ [("a", Number.integer (-3)), ("x", .real 0.1)],
      Store.Legible entry := by
    have hname : IsWord "a" ∧ IsWord "x" :=
      ⟨⟨'a', [], rfl, rfl, by simp⟩, ⟨'x', [], rfl, rfl, by simp⟩⟩
    have hnumber : (Number.real 0.1).isNaN = false := by decide +kernel
    intro entry hmem
    rcases List.mem_pair.mp hmem with rfl | rfl
    · exact ⟨hname.1, rfl⟩
    · exact ⟨hname.2, hnumber⟩
  exact listing_determines_store hlegible hlegible (by decide +kernel)

-- Names have to be identifiers: with a space and a line feed in it, one name may be two lines.
example : Store.text (Store.assign ∅ "a = 1\nb" (.integer 2)) =
    Store.text ((Store.assign ∅ "a" (.integer 1)).assign "b" (.integer 2)) := by decide +kernel

end MiniPascal
