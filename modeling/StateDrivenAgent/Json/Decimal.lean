import Mathlib.Algebra.Order.Field.Power
import Mathlib.Algebra.Order.Ring.Rat
import Mathlib.Tactic.Ring
import Mathlib.Tactic.FieldSimp
import Mathlib.Tactic.Positivity

/-!
# Decimal numerals

The numbers of the JSON grammar as text and as rationals. A numeral is a sign, the digits before the
point without a leading zero, the digits after it, and an exponent, whose sign may be written out.
`read` takes a text apart again; on the text of a numeral it returns the value (`read_text`), so that
the text determines the value.
-/

namespace Decimal

def isDigit (c : Char) : Bool := '0' ≤ c && c ≤ '9'

def AllDigits (cs : List Char) : Prop := ∀ c ∈ cs, isDigit c = true

/-- The value of a list of digits. -/
def digits (cs : List Char) : Nat := Nat.ofDigitChars 10 cs 0

structure Numeral where
  negative : Bool
  whole : List Char
  fraction : List Char
  /-- Whether a `+` is written, and the exponent. -/
  exponent : Option (Bool × Int)
  whole_ne : whole ≠ []
  whole_digits : AllDigits whole
  whole_lead : whole.head? = some '0' → whole.length = 1
  fraction_digits : AllDigits fraction

namespace Numeral

def fractionText (n : Numeral) : List Char :=
  if n.fraction = [] then [] else '.' :: n.fraction

def exponentText : Option (Bool × Int) → List Char
  | none => []
  | some (plus, e) => 'e' :: ((if plus && decide (0 ≤ e) then ['+'] else []) ++ (toString e).toList)

/-- The text after the sign. -/
def unsigned (n : Numeral) : List Char :=
  n.whole ++ n.fractionText ++ exponentText n.exponent

def text (n : Numeral) : List Char := (if n.negative then ['-'] else []) ++ n.unsigned

def exp (n : Numeral) : Int := (n.exponent.map Prod.snd).getD 0

def magnitude (n : Numeral) : Rat :=
  digits (n.whole ++ n.fraction) * 10 ^ (n.exp - n.fraction.length)

def value (n : Numeral) : Rat := if n.negative then -n.magnitude else n.magnitude

/-- Written without a point and without an exponent. -/
def plain (n : Numeral) : Bool := n.fraction.isEmpty && n.exponent.isNone

end Numeral

/-! ## Reading -/

def notExponent (c : Char) : Bool := !(c = 'e' || c = 'E')

def readExponent : List Char → Int
  | '-' :: cs => -(digits cs : Int)
  | '+' :: cs => digits cs
  | cs => digits cs

/-- The value a decimal text stands for. -/
def read (cs : List Char) : Rat :=
  let unsigned := cs.dropWhile (· = '-')
  let mantissa := unsigned.takeWhile notExponent
  let fraction := (mantissa.dropWhile (· ≠ '.')).drop 1
  let exp := readExponent ((unsigned.dropWhile notExponent).drop 1)
  let magnitude : Rat :=
    digits (mantissa.takeWhile (· ≠ '.') ++ fraction) * 10 ^ (exp - fraction.length)
  if cs.head? = some '-' then -magnitude else magnitude

/-! ## Digits -/

theorem digits_append (as bs : List Char) :
    digits (as ++ bs) = digits as * 10 ^ bs.length + digits bs := by
  rw [digits, Nat.ofDigitChars_append, Nat.ofDigitChars_eq_ofDigitChars_zero, digits, digits,
    Nat.mul_comm]

theorem digits_replicate_zero (n : Nat) : digits (List.replicate n '0') = 0 := by
  simp [digits]

theorem digits_toDigits (n : Nat) : digits (Nat.toDigits 10 n) = n :=
  Nat.ofDigitChars_ten_toDigits

theorem isDigit_eq (c : Char) : isDigit c = c.isDigit := by
  rw [Bool.eq_iff_iff]
  simp [isDigit, Char.isDigit, Char.le_def, UInt32.le_iff_toNat_le]

theorem allDigits_toDigits (n : Nat) : AllDigits (Nat.toDigits 10 n) := by
  intro c hc
  rw [isDigit_eq]
  exact Nat.isDigit_of_mem_toDigits (by omega) (by omega) hc

theorem toDigits_head {n : Nat} (h : (Nat.toDigits 10 n).head? = some '0') : n = 0 := by
  induction n using Nat.strong_induction_on with
  | _ n ih =>
    by_cases hn : n < 10
    · rw [Nat.toDigits_of_lt_base hn, List.head?_cons, Option.some.injEq] at h
      have hval := Nat.toNat_digitChar_sub_48_of_lt_ten hn
      rw [h] at hval
      exact hval.symm
    · have hten := Nat.toDigits_of_base_le (by omega : 1 < 10) (by omega : 10 ≤ n)
      rw [hten, List.head?_append_of_ne_nil _ Nat.toDigits_ne_nil] at h
      have := ih (n / 10) (by omega) h
      omega

/-- The digits of a number do not start with a zero that could be left out. -/
theorem toDigits_lead {n : Nat} (h : (Nat.toDigits 10 n).head? = some '0') :
    (Nat.toDigits 10 n).length = 1 := by
  rw [toDigits_head h]
  rfl

theorem AllDigits.append {as bs : List Char} (ha : AllDigits as) (hb : AllDigits bs) :
    AllDigits (as ++ bs) := by
  intro c hc
  rcases List.mem_append.1 hc with hc | hc
  · exact ha c hc
  · exact hb c hc

theorem allDigits_replicate_zero (n : Nat) : AllDigits (List.replicate n '0') := by
  intro c hc
  rw [(List.mem_replicate.1 hc).2]
  rfl

theorem allDigits_nil : AllDigits [] := allDigits_replicate_zero 0

theorem allDigits_zero : AllDigits ['0'] := allDigits_replicate_zero 1

theorem AllDigits.of_append_left {as bs : List Char} (h : AllDigits (as ++ bs)) : AllDigits as :=
  fun c hc => h c (List.mem_append_left _ hc)

theorem AllDigits.of_append_right {as bs : List Char} (h : AllDigits (as ++ bs)) : AllDigits bs :=
  fun c hc => h c (List.mem_append_right _ hc)

theorem isDigit_ne {c d : Char} (h : isDigit c = true) (hd : isDigit d = false) : c ≠ d := by
  rintro rfl
  rw [h] at hd
  cases hd

theorem AllDigits.notExponent {cs : List Char} (h : AllDigits cs) :
    ∀ c ∈ cs, notExponent c = true := by
  intro c hc
  have he := isDigit_ne (h c hc) (d := 'e') rfl
  have hE := isDigit_ne (h c hc) (d := 'E') rfl
  simp [Decimal.notExponent, he, hE]

theorem AllDigits.ne_point {cs : List Char} (h : AllDigits cs) :
    ∀ c ∈ cs, decide (c ≠ '.') = true := by
  intro c hc
  exact decide_eq_true (isDigit_ne (h c hc) rfl)

theorem toString_int_toList (i : Int) :
    (toString i).toList = (if i < 0 then ['-'] else []) ++ Nat.toDigits 10 i.natAbs := by
  cases i with
  | ofNat n =>
    rw [if_neg (by simp)]
    exact Nat.toList_repr
  | negSucc n =>
    rw [if_pos (by omega)]
    show ("-" ++ Nat.repr (n + 1)).toList = _
    rw [String.toList_append, Nat.toList_repr]
    rfl

theorem readExponent_of_digits {cs : List Char} (h : AllDigits cs) :
    readExponent cs = digits cs := by
  cases cs with
  | nil => rfl
  | cons c cs =>
    have hc := h c List.mem_cons_self
    have hminus := isDigit_ne hc (d := '-') rfl
    have hplus := isDigit_ne hc (d := '+') rfl
    rw [readExponent]
    · intro ds hds
      exact hminus (List.cons.inj hds).1
    · intro ds hds
      exact hplus (List.cons.inj hds).1

theorem readExponent_text (plus : Bool) (e : Int) :
    readExponent ((if plus && decide (0 ≤ e) then ['+'] else []) ++ (toString e).toList) = e := by
  rw [toString_int_toList]
  by_cases he : e < 0
  · have hplus : (plus && decide (0 ≤ e)) = false := by simp [he]
    rw [if_pos he, hplus, if_neg (by simp), List.nil_append]
    show -(digits (Nat.toDigits 10 e.natAbs) : Int) = e
    rw [digits_toDigits]
    omega
  · rw [if_neg he, List.nil_append]
    have hval : (digits (Nat.toDigits 10 e.natAbs) : Int) = e := by
      rw [digits_toDigits]
      omega
    split
    · exact hval
    · rw [List.nil_append, readExponent_of_digits (allDigits_toDigits _), hval]

/-! ## The text of a numeral -/

namespace Numeral

variable (n : Numeral)

theorem unsigned_head : ∃ c cs, n.unsigned = c :: cs ∧ isDigit c = true := by
  cases hw : n.whole with
  | nil => exact absurd hw n.whole_ne
  | cons c cs =>
    refine ⟨c, cs ++ n.fractionText ++ exponentText n.exponent, ?_, ?_⟩
    · rw [unsigned, hw]
      rfl
    · exact n.whole_digits c (hw ▸ List.mem_cons_self)

theorem dropWhile_minus_text : n.text.dropWhile (· = '-') = n.unsigned := by
  obtain ⟨c, cs, hcs, hc⟩ := n.unsigned_head
  have hne : c ≠ '-' := isDigit_ne hc rfl
  rw [text, hcs]
  cases n.negative <;> simp [hne]

theorem head?_text : n.text.head? = some '-' ↔ n.negative = true := by
  obtain ⟨c, cs, hcs, hc⟩ := n.unsigned_head
  have hne : c ≠ '-' := isDigit_ne hc rfl
  rw [text, hcs]
  cases n.negative <;> simp [hne]

theorem exponentText_head : exponentText n.exponent = [] ∨
    ∃ cs, exponentText n.exponent = 'e' :: cs := by
  cases n.exponent with
  | none => exact .inl rfl
  | some e => exact .inr ⟨_, rfl⟩

theorem mantissa_notExponent : ∀ c ∈ n.whole ++ n.fractionText, notExponent c = true := by
  intro c hc
  rcases List.mem_append.1 hc with hc | hc
  · exact n.whole_digits.notExponent c hc
  · rw [fractionText] at hc
    split at hc
    · cases hc
    · rcases List.mem_cons.1 hc with rfl | hc
      · rfl
      · exact n.fraction_digits.notExponent c hc

theorem takeWhile_unsigned : n.unsigned.takeWhile notExponent = n.whole ++ n.fractionText := by
  rw [unsigned, List.takeWhile_append_of_pos n.mantissa_notExponent]
  rcases n.exponentText_head with h | ⟨cs, h⟩
  · rw [h]
    simp
  · rw [h, List.takeWhile_cons_of_neg (by simp [notExponent]), List.append_nil]

theorem dropWhile_unsigned : n.unsigned.dropWhile notExponent = exponentText n.exponent := by
  rw [unsigned, List.dropWhile_append_of_pos n.mantissa_notExponent]
  rcases n.exponentText_head with h | ⟨cs, h⟩
  · rw [h]
    rfl
  · rw [h, List.dropWhile_cons_of_neg (by simp [notExponent])]

theorem readExponent_exponentText : readExponent ((exponentText n.exponent).drop 1) = n.exp := by
  rw [exp]
  cases n.exponent with
  | none => rfl
  | some e => exact readExponent_text e.1 e.2

theorem takeWhile_mantissa :
    (n.whole ++ n.fractionText).takeWhile (fun c => decide (c ≠ '.')) = n.whole := by
  rw [List.takeWhile_append_of_pos n.whole_digits.ne_point, fractionText]
  split <;> simp

theorem dropWhile_mantissa :
    ((n.whole ++ n.fractionText).dropWhile (fun c => decide (c ≠ '.'))).drop 1 = n.fraction := by
  rw [List.dropWhile_append_of_pos n.whole_digits.ne_point, fractionText]
  split
  next h => simp [h]
  next h => simp

/-- Reading the text of a numeral gives its value. -/
theorem read_text : read n.text = n.value := by
  simp only [read]
  rw [n.dropWhile_minus_text, n.takeWhile_unsigned, n.dropWhile_unsigned, n.takeWhile_mantissa,
    n.dropWhile_mantissa, n.readExponent_exponentText, value, magnitude]
  simp only [n.head?_text]

theorem magnitude_nonneg : 0 ≤ n.magnitude := by
  rw [magnitude]
  positivity

theorem abs_value : |n.value| = n.magnitude := by
  rw [value]
  split
  · rw [abs_neg, abs_of_nonneg n.magnitude_nonneg]
  · rw [abs_of_nonneg n.magnitude_nonneg]

end Numeral

/-- The numeral `0`. -/
def Numeral.zero : Numeral where
  negative := false
  whole := ['0']
  fraction := []
  exponent := none
  whole_ne := by simp
  whole_digits := by simp [AllDigits, isDigit]
  whole_lead := by simp
  fraction_digits := by simp [AllDigits]

theorem read_zero : read ['0'] = 0 := by
  have h := Numeral.zero.read_text
  simpa [Numeral.zero, Numeral.text, Numeral.unsigned, Numeral.fractionText, Numeral.exponentText,
    Numeral.value, Numeral.magnitude, digits, Nat.ofDigitChars_cons] using h

/-! ## Plain numerals -/

namespace Numeral

variable {n : Numeral}

theorem plain_iff : n.plain = true ↔ n.fraction = [] ∧ n.exponent = none := by
  rw [plain, Bool.and_eq_true, List.isEmpty_iff, Option.isNone_iff_eq_none]

theorem unsigned_of_plain (h : n.plain = true) : n.unsigned = n.whole := by
  obtain ⟨hf, he⟩ := plain_iff.1 h
  rw [unsigned, fractionText, if_pos hf, he, exponentText, List.append_nil, List.append_nil]

theorem magnitude_of_plain (h : n.plain = true) : n.magnitude = digits n.whole := by
  obtain ⟨hf, he⟩ := plain_iff.1 h
  rw [magnitude, exp, hf, he]
  simp

theorem all_unsigned_iff : n.unsigned.all isDigit = true ↔ n.plain = true := by
  constructor
  · intro h
    rw [List.all_eq_true] at h
    rw [plain_iff]
    constructor
    · by_contra hf
      have hpoint : isDigit '.' = true := by
        refine h '.' ?_
        simp [unsigned, fractionText, hf]
      cases hpoint
    · cases he : n.exponent with
      | none => rfl
      | some e =>
        have hexp : isDigit 'e' = true := by
          refine h 'e' ?_
          simp [unsigned, he, exponentText]
        cases hexp
  · intro h
    rw [unsigned_of_plain h]
    exact List.all_eq_true.2 n.whole_digits

end Numeral

end Decimal
