import StateDrivenAgent.Agent.Tools
import StateDrivenAgent.Json.Reading
import StateDrivenAgent.Verify.Numbers
import Mathlib.Tactic.IntervalCases

/-!
# `decimal_equal` compares numbers

`decimal_equal` strips the outer zeros of the digits of two texts and compares what is left with its
sign and its power of ten. On numerals that is the comparison of their values
(`decimalEqual_text_iff`): a number has one list of digits without outer zeros (`digits_inj`,
`mantissa_inj`).
-/

namespace Decimal

/-! ## Digits without outer zeros -/

theorem digitChar_of_isDigit {c : Char} (h : isDigit c = true) : ∃ d < 10, c = d.digitChar := by
  simp only [isDigit, Bool.and_eq_true, decide_eq_true_eq, Char.le_def,
    UInt32.le_iff_toNat_le] at h
  have hlow : 48 ≤ c.toNat := h.1
  have hhigh : c.toNat ≤ 57 := h.2
  refine ⟨c.toNat - 48, by omega, ?_⟩
  conv_lhs => rw [← Char.ofNat_toNat c]
  generalize c.toNat = n at hlow hhigh
  interval_cases n <;> rfl

theorem digits_digitChar {d : Nat} (h : d < 10) : digits [d.digitChar] = d := by
  interval_cases d <;> rfl

theorem toDigits_digits {ds : List Char} (hall : AllDigits ds) (hne : ds ≠ [])
    (hhead : ds.head? ≠ some '0') : Nat.toDigits 10 (digits ds) = ds := by
  induction ds using List.reverseRecOn with
  | nil => exact absurd rfl hne
  | append_singleton init c ih =>
    obtain ⟨d, hd, rfl⟩ := digitChar_of_isDigit (hall c (by simp))
    have hval : digits (init ++ [d.digitChar]) = digits init * 10 + d := by
      rw [digits_append, digits_digitChar hd]
      rfl
    rw [hval]
    by_cases hinit : init = []
    · rw [hinit, show digits [] = 0 from rfl, Nat.zero_mul, Nat.zero_add, Nat.toDigits_of_lt_base hd,
        List.nil_append]
    · have hhead' : init.head? ≠ some '0' := by
        rwa [List.head?_append_of_ne_nil _ hinit] at hhead
      have hih := ih hall.of_append_left hinit hhead'
      have hpos : digits init ≠ 0 := by
        intro h0
        rw [h0] at hih
        rw [← hih] at hhead'
        exact hhead' rfl
      rw [Nat.toDigits_of_base_le (by omega) (by omega), show (digits init * 10 + d) / 10 = digits init
        by omega, show (digits init * 10 + d) % 10 = d by omega, hih]

/-- Digits that neither start nor end with a zero. -/
structure Bare (ds : List Char) : Prop where
  all : AllDigits ds
  ne : ds ≠ []
  head : ds.head? ≠ some '0'
  last : ds.getLast? ≠ some '0'

theorem Bare.pos {ds : List Char} (h : Bare ds) : 0 < digits ds := by
  have hmod := StateDrivenAgent.digits_mod_ten h.all h.ne h.last
  omega

theorem Bare.digits_inj {ds es : List Char} (hd : Bare ds) (he : Bare es)
    (h : digits ds = digits es) : ds = es := by
  rw [← toDigits_digits hd.all hd.ne hd.head, h, toDigits_digits he.all he.ne he.head]

theorem Bare.exponent_le {ds es : List Char} {i j : Int} (he : Bare es)
    (h : (digits ds : Rat) * 10 ^ i = digits es * 10 ^ j) : i ≤ j := by
  by_contra hlt
  obtain ⟨k, hk⟩ : ∃ k : Nat, i = j + (k + 1 : Nat) := ⟨(i - j - 1).toNat, by omega⟩
  rw [hk, zpow_add₀ (by norm_num), zpow_natCast, mul_left_comm, mul_comm (digits es : Rat)] at h
  have hnat : digits ds * 10 ^ (k + 1) = digits es := by
    exact_mod_cast mul_left_cancel₀ (zpow_ne_zero j (by norm_num : (10 : Rat) ≠ 0)) h
  apply StateDrivenAgent.digits_mod_ten he.all he.ne he.last
  rw [← hnat, pow_succ, ← mul_assoc]
  exact Nat.mul_mod_left _ _

/-- A number has one mantissa without outer zeros. -/
theorem Bare.mantissa_inj {ds es : List Char} {i j : Int} (hd : Bare ds) (he : Bare es)
    (h : (digits ds : Rat) * 10 ^ i = digits es * 10 ^ j) : ds = es ∧ i = j := by
  have hexp : i = j := le_antisymm (he.exponent_le h) (hd.exponent_le h.symm)
  rw [hexp] at h
  refine ⟨hd.digits_inj he ?_, hexp⟩
  exact_mod_cast mul_right_cancel₀ (zpow_ne_zero j (by norm_num : (10 : Rat) ≠ 0)) h

/-! ## Stripping zeros -/

/-- Without the zeros in front. -/
def stripFront (cs : List Char) : List Char := cs.dropWhile (· = '0')

/-- Without the zeros at the end. -/
def stripBack (cs : List Char) : List Char := (cs.reverse.dropWhile (· = '0')).reverse

theorem exists_replicate (cs : List Char) : ∃ k, cs = List.replicate k '0' ++ stripFront cs := by
  induction cs with
  | nil => exact ⟨0, rfl⟩
  | cons c cs ih =>
    by_cases hc : c = '0'
    · obtain ⟨k, hk⟩ := ih
      refine ⟨k + 1, ?_⟩
      rw [stripFront, List.dropWhile_cons_of_pos (by simpa using hc), List.replicate_succ,
        List.cons_append, hc]
      exact congrArg _ hk
    · refine ⟨0, ?_⟩
      rw [stripFront, List.dropWhile_cons_of_neg (by simpa using hc)]
      rfl

theorem head?_stripFront (cs : List Char) : (stripFront cs).head? ≠ some '0' := by
  intro h
  have hne : stripFront cs ≠ [] := by
    intro h0
    rw [h0] at h
    cases h
  have hhead := List.head_dropWhile_not (fun c => decide (c = '0')) hne
  rw [List.head?_eq_some_head hne, Option.some.injEq] at h
  have hzero : (List.dropWhile (fun c => decide (c = '0')) cs).head hne = '0' := h
  rw [hzero] at hhead
  simp at hhead

theorem digits_stripFront (cs : List Char) : digits (stripFront cs) = digits cs := by
  obtain ⟨k, hk⟩ := exists_replicate cs
  conv_rhs => rw [hk]
  rw [digits_append, digits_replicate_zero, Nat.zero_mul, Nat.zero_add]

theorem stripBack_append (cs : List Char) :
    cs = stripBack cs ++ List.replicate (cs.length - (stripBack cs).length) '0' := by
  obtain ⟨k, hk⟩ := exists_replicate cs.reverse
  have hcs : cs = stripBack cs ++ List.replicate k '0' := by
    have hrev := congrArg List.reverse hk
    rwa [List.reverse_reverse, List.reverse_append, List.reverse_replicate] at hrev
  have hlen : cs.length - (stripBack cs).length = k := by
    conv_lhs => rw [hcs]
    have hback : stripBack (stripBack cs ++ List.replicate k '0') = stripBack cs := by rw [← hcs]
    rw [hback, List.length_append, List.length_replicate]
    omega
  rw [hlen]
  exact hcs

theorem digits_stripBack (cs : List Char) :
    digits cs = digits (stripBack cs) * 10 ^ (cs.length - (stripBack cs).length) := by
  conv_lhs => rw [stripBack_append cs]
  rw [digits_append, digits_replicate_zero, List.length_replicate, Nat.add_zero]

theorem getLast?_stripBack (cs : List Char) : (stripBack cs).getLast? ≠ some '0' := by
  rw [stripBack, List.getLast?_reverse]
  exact head?_stripFront cs.reverse

theorem bare_strip {cs : List Char} (hall : AllDigits cs) (hne : stripFront cs ≠ []) :
    Bare (stripBack (stripFront cs)) := by
  obtain ⟨j, hj⟩ := exists_replicate cs
  have hfront : AllDigits (stripFront cs) := by
    rw [hj] at hall
    exact hall.of_append_right
  have hsplit := stripBack_append (stripFront cs)
  have hback : stripBack (stripFront cs) ≠ [] := by
    intro h0
    rw [h0, List.nil_append, List.length_nil, Nat.sub_zero] at hsplit
    have hhead := head?_stripFront cs
    rw [hsplit] at hhead
    cases hlen : (stripFront cs).length with
    | zero => exact hne (List.length_eq_zero_iff.1 hlen)
    | succ n =>
      rw [hlen] at hhead
      exact hhead rfl
  refine ⟨?_, hback, ?_, getLast?_stripBack _⟩
  · rw [hsplit] at hfront
    exact hfront.of_append_left
  · have hhead := head?_stripFront cs
    rwa [hsplit, List.head?_append_of_ne_nil _ hback] at hhead

/-! ## The normal form of a decimal -/

/-- The value of digits before a power of ten. -/
def scaled (negative : Bool) (ds : List Char) (e : Int) : Rat :=
  (if negative then -1 else 1) * (digits ds * 10 ^ e)

/-- The power of ten of the last digit that is not an outer zero. -/
def lastPower (ds : List Char) (e : Int) : Int :=
  e + ((stripFront ds).length - (stripBack (stripFront ds)).length : Nat)

/-- The sign, the digits without outer zeros and the power of the last of them; zero has one form. -/
def normal (negative : Bool) (ds : List Char) (e : Int) : Bool × String × Int :=
  if stripFront ds = [] then (false, "0", 0)
  else (negative, .ofList (stripBack (stripFront ds)), lastPower ds e)

section normal
variable {n m : Bool} {ds es : List Char} {i j : Int}

theorem scaled_strip :
    scaled n ds i = scaled n (stripBack (stripFront ds)) (lastPower ds i) := by
  rw [scaled, scaled, ← digits_stripFront ds, digits_stripBack (stripFront ds), lastPower,
    zpow_add₀ (by norm_num), zpow_natCast]
  push_cast
  ring

theorem scaled_zero (h : stripFront ds = []) : scaled n ds i = 0 := by
  have hdigits : digits ds = 0 := by
    rw [← digits_stripFront, h]
    rfl
  rw [scaled, hdigits, Nat.cast_zero, zero_mul, mul_zero]

theorem scaled_pos (hds : Bare ds) : 0 < (digits ds : Rat) * 10 ^ i := by
  have hpos : (0 : Rat) < digits ds := by exact_mod_cast hds.pos
  positivity

theorem scaled_ne_zero (hds : Bare ds) : scaled n ds i ≠ 0 := by
  have hpos := scaled_pos (i := i) hds
  rw [scaled]
  cases n with
  | true => simpa using hpos.ne'
  | false => simpa using hpos.ne'

/-- A number has one sign and one mantissa without outer zeros. -/
theorem scaled_inj (hds : Bare ds) (hes : Bare es) (h : scaled n ds i = scaled m es j) :
    n = m ∧ ds = es ∧ i = j := by
  have hpos := scaled_pos (i := i) hds
  have hpos' := scaled_pos (i := j) hes
  simp only [scaled] at h
  cases n <;> cases m <;> simp only [Bool.false_eq_true, if_true, if_false, one_mul, neg_mul] at h
  · exact ⟨rfl, hds.mantissa_inj hes h⟩
  · linarith
  · linarith
  · exact ⟨rfl, hds.mantissa_inj hes (neg_injective h)⟩

theorem normal_zero (h : stripFront ds = []) : normal n ds i = (false, "0", 0) := if_pos h

theorem normal_ne_zero (hds : AllDigits ds) (hne : stripFront ds ≠ []) :
    normal n ds i ≠ (false, "0", 0) := by
  intro h
  rw [normal, if_neg hne] at h
  have htext := congrArg String.toList (Prod.mk.inj (Prod.mk.inj h).2).1
  rw [String.toList_ofList] at htext
  exact (bare_strip hds hne).head (htext ▸ rfl)

theorem normal_eq_iff (hds : AllDigits ds) (hes : AllDigits es) :
    normal n ds i = normal m es j ↔ scaled n ds i = scaled m es j := by
  by_cases hd : stripFront ds = [] <;> by_cases he : stripFront es = []
  · rw [scaled_zero hd, scaled_zero he, normal_zero hd, normal_zero he]
    simp
  · rw [scaled_zero hd, @scaled_strip m es j, normal_zero hd]
    exact iff_of_false (fun h => normal_ne_zero hes he h.symm)
      fun h => scaled_ne_zero (bare_strip hes he) h.symm
  · rw [scaled_zero he, @scaled_strip n ds i, normal_zero he]
    exact iff_of_false (normal_ne_zero hds hd) (scaled_ne_zero (bare_strip hds hd))
  · rw [normal, normal, if_neg hd, if_neg he, @scaled_strip n ds i, @scaled_strip m es j]
    constructor
    · intro h
      obtain ⟨hneg, htext, hpow⟩ : n = m ∧ String.ofList (stripBack (stripFront ds)) =
          .ofList (stripBack (stripFront es)) ∧ lastPower ds i = lastPower es j := by
        simpa using h
      rw [hneg, String.ofList_inj.1 htext, hpow]
    · intro h
      obtain ⟨hneg, hkept, hpow⟩ := scaled_inj (bare_strip hds hd) (bare_strip hes he) h
      rw [hneg, hkept, hpow]

end normal

/-! ## What `decimal_equal` keeps of a numeral -/

namespace Numeral

variable (n : Numeral)

/-- The digits without the zeros in front. -/
def ds : List Char := stripFront (n.whole ++ n.fraction)

/-- The power of ten of the last digit kept. -/
def power : Int := n.exp - n.fraction.length + (n.ds.length - (stripBack n.ds).length : Nat)

def parts : Bool × String × Int :=
  if n.ds = [] then (false, "0", 0) else (n.negative, .ofList (stripBack n.ds), n.power)

/-- The exponent and the number of digits stay far within 64 bits. -/
structure Brief : Prop where
  low : -2 ^ 31 ≤ n.exp
  high : n.exp < 2 ^ 31
  whole : n.whole.length < 2 ^ 31
  fraction : n.fraction.length < 2 ^ 31

theorem magnitude_eq : n.magnitude = digits (stripBack n.ds) * 10 ^ n.power := by
  have hds : digits n.ds = digits (n.whole ++ n.fraction) := digits_stripFront _
  rw [magnitude, ← hds, digits_stripBack n.ds, power, zpow_add₀ (by norm_num), zpow_natCast]
  push_cast
  ring

variable {n}

theorem bare (h : n.ds ≠ []) : Bare (stripBack n.ds) :=
  bare_strip (n.whole_digits.append n.fraction_digits) h

theorem magnitude_pos (h : n.ds ≠ []) : 0 < n.magnitude := by
  have hpos : (0 : Rat) < digits (stripBack n.ds) := by exact_mod_cast (bare h).pos
  rw [magnitude_eq]
  positivity

theorem value_eq_zero_iff : n.value = 0 ↔ n.ds = [] := by
  constructor
  · intro h
    by_contra hne
    have hpos := magnitude_pos hne
    rw [← n.abs_value, h] at hpos
    simp at hpos
  · intro h
    have hmag : n.magnitude = 0 := by
      rw [magnitude_eq, h, show digits (stripBack []) = 0 from rfl]
      simp
    rw [value, hmag, neg_zero, ite_self]

theorem negative_iff (h : n.ds ≠ []) : n.negative = true ↔ n.value < 0 := by
  have hpos := magnitude_pos h
  rw [value]
  cases n.negative with
  | true => simp [hpos]
  | false => simp [hpos.le]

theorem value_eq_scaled :
    n.value = scaled n.negative (n.whole ++ n.fraction) (n.exp - n.fraction.length) := by
  rw [value, magnitude, scaled]
  cases n.negative <;> simp

theorem parts_eq_iff {m : Numeral} : n.parts = m.parts ↔ n.value = m.value := by
  rw [value_eq_scaled, value_eq_scaled, ← normal_eq_iff (n.whole_digits.append n.fraction_digits)
    (m.whole_digits.append m.fraction_digits)]
  rfl

end Numeral

end Decimal

namespace StateDrivenAgent

namespace Engine

open Decimal Text

theorem not_isWhitespace {c : Char} (h : isNumberChar c = true) : isWhitespace c = false := by
  have hrange : 43 ≤ c.toNat ∧ c.toNat ≤ 101 := by
    simp only [isNumberChar, Bool.or_eq_true, Bool.and_eq_true, decide_eq_true_eq, Char.le_def,
      UInt32.le_iff_toNat_le] at h
    rcases h with ((((⟨h₁, h₂⟩ | rfl) | rfl) | rfl) | rfl) | rfl
    · have hlow : 48 ≤ c.toNat := h₁
      have hhigh : c.toNat ≤ 57 := h₂
      omega
    all_goals decide
  simp only [isWhitespace, Bool.or_eq_false_iff, Bool.and_eq_false_imp, beq_eq_false_iff_ne,
    decide_eq_true_eq, decide_eq_false_iff_not]
  omega

theorem dropWhile_eq_self {α : Type} {p : α → Bool} {cs : List α} (h : ∀ c ∈ cs, p c = false) :
    cs.dropWhile p = cs := by
  cases cs with
  | nil => rfl
  | cons c cs => exact List.dropWhile_cons_of_neg (by simp [h c List.mem_cons_self])

theorem trim_text (n : Numeral) : trim (.ofList n.text) = .ofList n.text := by
  have hchars : ∀ c ∈ n.text, isWhitespace c = false :=
    fun c hc => not_isWhitespace (isNumberChar_text n c hc)
  rw [trim, String.toList_ofList, dropWhile_eq_self hchars,
    dropWhile_eq_self fun c hc => hchars c (List.mem_reverse.1 hc), List.reverse_reverse]

theorem parseInt_widen {s : String} {i : Int} (h : parseInt 32 s = some i) :
    parseInt 64 s = some i := by
  rw [parseInt, Option.filter_eq_some_iff] at h ⊢
  refine ⟨h.1, ?_⟩
  have hrange := h.2
  simp only [Bool.and_eq_true, decide_eq_true_eq] at hrange ⊢
  omega

theorem text_eq (n : Numeral) : n.text = (if n.negative then ['-'] else []) ++ n.whole ++
    n.fractionText ++ Numeral.exponentText n.exponent := by
  rw [Numeral.text, Numeral.unsigned]
  simp only [List.append_assoc]

theorem signed_notExponent (n : Numeral) :
    ∀ c ∈ (if n.negative then ['-'] else []) ++ n.whole ++ n.fractionText, notExponent c = true := by
  intro c hc
  rw [List.append_assoc] at hc
  rcases List.mem_append.1 hc with hc | hc
  · split at hc
    · rw [List.mem_singleton.1 hc]
      rfl
    · cases hc
  · exact n.mantissa_notExponent c hc

theorem takeWhile_text (n : Numeral) : n.text.takeWhile notExponent =
    (if n.negative then ['-'] else []) ++ n.whole ++ n.fractionText := by
  rw [text_eq, List.takeWhile_append_of_pos (signed_notExponent n)]
  rcases n.exponentText_head with h | ⟨cs, h⟩
  · rw [h, List.takeWhile_nil, List.append_nil]
  · rw [h, List.takeWhile_cons_of_neg (by simp [notExponent]), List.append_nil]

theorem dropWhile_text (n : Numeral) :
    n.text.dropWhile notExponent = Numeral.exponentText n.exponent := by
  rw [text_eq, List.dropWhile_append_of_pos (signed_notExponent n)]
  rcases n.exponentText_head with h | ⟨cs, h⟩
  · rw [h]
    rfl
  · rw [h, List.dropWhile_cons_of_neg (by simp [notExponent])]

/-- The exponent `decimal_equal` reads. -/
theorem exponent_text {n : Numeral} (hn : n.Brief) :
    (if n.text.any (fun c => c = 'e' || c = 'E') then
      parseInt 64 (.ofList ((n.text.dropWhile notExponent).drop 1)) else some 0) = some n.exp := by
  have hsplit : n.text = n.text.takeWhile notExponent ++ n.text.dropWhile notExponent :=
    List.takeWhile_append_dropWhile.symm
  have hfront : (n.text.takeWhile notExponent).any
      (fun c => c = 'e' || c = 'E') = false := by
    rw [List.any_eq_false]
    intro c hc
    rw [takeWhile_text] at hc
    have hnot := signed_notExponent n c hc
    rw [notExponent, Bool.not_eq_true'] at hnot
    simpa using hnot
  rw [dropWhile_text] at hsplit ⊢
  rw [hsplit, List.any_append, hfront, Bool.false_or, Numeral.exp]
  cases he : n.exponent with
  | none => rfl
  | some e =>
    have hval : n.exp = e.2 := by rw [Numeral.exp, he]; rfl
    have hparse := parseInt_exponent e.1 (hval ▸ hn.low) (hval ▸ hn.high)
    exact parseInt_widen hparse

/-- The sign of `canonical`, taken from the text before the exponent. -/
def signed : List Char → Bool × List Char
  | '-' :: rest => (true, rest)
  | '+' :: rest => (false, rest)
  | rest => (false, rest)

/-- What `canonical` makes of the sign, the digits with their point and the exponent. -/
def finish (x : Bool × List Char) (exponent : Int) : Option (Bool × String × Int) :=
  let whole := x.2.takeWhile (· ≠ '.')
  let fraction := (x.2.dropWhile (· ≠ '.')).drop 1
  if (whole ++ fraction).isEmpty || !(whole ++ fraction).all isAsciiDigit then none
  else
    let ds := stripFront (whole ++ fraction)
    if ds = [] then some (false, "0", 0)
    else
      let kept := stripBack ds
      let power := exponent - fraction.length + (ds.length - kept.length : Nat)
      if exponent - fraction.length < -2 ^ 63 ∨ 2 ^ 63 ≤ power then none
      else some (x.1, .ofList kept, power)

theorem decimalParts_eq_finish (value : String) :
    decimalParts value =
      (if (trim value).toList.any (fun c => c = 'e' || c = 'E') then
        parseInt 64 (.ofList (((trim value).toList.dropWhile notExponent).drop 1)) else some 0).bind
          (finish (signed ((trim value).toList.takeWhile notExponent))) := by
  have hL : (fun c => !(c = 'e' || c = 'E')) = notExponent := rfl
  simp only [decimalParts, finish, stripFront, stripBack, hL]
  generalize (trim value).toList.takeWhile notExponent = L
  rcases L with _ | ⟨c, cs⟩
  · split <;> rfl
  · by_cases hminus : c = '-'
    · subst hminus
      split <;> rfl
    · by_cases hplus : c = '+'
      · subst hplus
        split <;> rfl
      · simp only [signed]
        split <;> rfl

theorem signed_text (n : Numeral) :
    signed (n.text.takeWhile notExponent) = (n.negative, n.whole ++ n.fractionText) := by
  obtain ⟨c, cs, hcs⟩ : ∃ c cs, n.whole = c :: cs := List.exists_cons_of_ne_nil n.whole_ne
  have hc : isDigit c = true := n.whole_digits c (by rw [hcs]; exact List.mem_cons_self)
  have hminus : c ≠ '-' := isDigit_ne hc rfl
  have hplus : c ≠ '+' := isDigit_ne hc rfl
  rw [takeWhile_text, hcs]
  cases n.negative with
  | true => rfl
  | false => simp [signed, hminus, hplus]

/-- `canonical` of `decimal_equal` on the text of a numeral. -/
theorem decimalParts_text {n : Numeral} (hn : n.Brief) :
    decimalParts (.ofList n.text) = some n.parts := by
  have hall : (n.whole ++ n.fraction).all isAsciiDigit = true :=
    List.all_eq_true.2 (n.whole_digits.append n.fraction_digits)
  have hne : (n.whole ++ n.fraction).isEmpty = false := by
    simp [n.whole_ne]
  have hlen : n.ds.length ≤ n.whole.length + n.fraction.length := by
    rw [← List.length_append]
    exact (List.dropWhile_sublist _).length_le
  have hrange : ¬ (n.exp - n.fraction.length < -2 ^ 63 ∨ 2 ^ 63 ≤ n.power) := by
    have := hn.low
    have := hn.high
    have := hn.whole
    have := hn.fraction
    rw [Numeral.power]
    omega
  rw [decimalParts_eq_finish, trim_text, String.toList_ofList, exponent_text hn, signed_text,
    Option.bind_some, finish]
  simp only [n.takeWhile_mantissa, n.dropWhile_mantissa, hall, hne, Bool.not_true, Bool.or_false,
    Bool.false_eq_true, if_false]
  rw [Numeral.parts]
  split
  next h => exact (congrArg some (if_pos h)).symm
  next h => exact (if_neg hrange).trans (congrArg some (if_neg h)).symm

theorem decimalEqual_text_iff {n m : Numeral} (hn : n.Brief) (hm : m.Brief) :
    decimalEqual (.ofList n.text) (.ofList m.text) = true ↔ n.value = m.value := by
  rw [decimalEqual, decimalParts_text hn, decimalParts_text hm]
  exact decide_eq_true_iff.trans Numeral.parts_eq_iff

end Engine

end StateDrivenAgent
