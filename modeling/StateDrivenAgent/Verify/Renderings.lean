import StateDrivenAgent.Spec.Renderings
import StateDrivenAgent.Verify.Decimals
import StateDrivenAgent.Verify.StrictJson

/-!
# Numbers keep their value and take a shape

The canonical encoding and `python_number` rewrite the text `serde_json` prints for a double: the
former is ECMAScript's text of the same digits, the latter Python's, and each stands for the decimal
that was printed (`numbers_reformatted`). Doubles are compared with powers of ten to choose between
the forms; the shortest digits tell the same (`Python.between_iff`).
-/

namespace StateDrivenAgent

open Decimal Text Renderings

namespace Identity

variable {host : Host} {f : F64} {p : Numeral}

/-! ## The texts of the two writers -/

theorem scientific_eq_mantissa {ds : List Char} (hne : ds ≠ []) : scientific ds = mantissa ds := by
  rcases ds with _ | ⟨d, _ | ⟨e, rest⟩⟩
  · exact absurd rfl hne
  · rfl
  · rw [scientific, if_neg (by simp)]
    rfl

/-- The digits and the exponent of ECMA-262 for a number that is not written with a point alone. -/
theorem numberText_exponent {negative : Bool} {ds : List Char} {n : Int} (hne : ds ≠ [])
    (hout : ¬(-6 < n ∧ n ≤ 21)) : Ecma.numberText negative ds n =
      signed negative (mantissa ds ++ 'e' :: exponentSign (n - 1) ::
        Nat.toDigits 10 (n - 1).natAbs) := by
  have hlen := List.length_pos_iff.2 hne
  rw [Ecma.numberText, if_neg (by omega), if_neg (by omega), if_neg (by omega)]

theorem placePoint_eq (ds : List Char) (n : Int) (whole : List Char) : placePoint ds n whole =
    if n ≤ 0 then '0' :: '.' :: (zeros (-n) ++ ds)
    else if ds.length ≤ n then ds ++ zeros (n - ds.length) ++ whole
    else ds.take n.toNat ++ '.' :: ds.drop n.toNat := by
  rw [placePoint]
  by_cases hn : n ≤ 0
  · rw [if_pos hn, if_pos hn]
    rfl
  · rw [if_neg hn, if_neg hn]
    by_cases hlen : (ds.length : Int) ≤ n
    · have hnat : n.toNat - ds.length = (n - ds.length).toNat := by omega
      rw [if_pos (by omega), if_pos hlen, hnat]
      rfl
    · rw [if_neg (by omega), if_neg hlen]

theorem placed_iff_point (hs : Python.Shortest host) (hf : f.isZero = false)
    (h : Python.Digits host f p) :
    Placed f ↔ (-6 < (Python.dtoa host f).2 ∧ (Python.dtoa host f).2 ≤ 21) := by
  have hlow : (10 : Rat) ^ (-6 : Int) = 1 / 10 ^ 6 := by norm_num
  have hlow' : 9 * (10 : Rat) ^ (-6 - 1 : Int) = 9 / 10 ^ 7 := by norm_num
  have hhigh : (10 : Rat) ^ (21 : Int) = 10 ^ 21 := by norm_num
  have hhigh' : 9 * (10 : Rat) ^ (21 - 1 : Int) = 9 * 10 ^ 20 := by norm_num
  have h₁ : Python.Threshold (-6) := ⟨by omega, by rw [hlow]; decide +kernel,
    by rw [hlow']; decide +kernel, by rw [hlow, hlow']; decide +kernel⟩
  have h₂ : Python.Threshold 21 := ⟨by omega, by rw [hhigh]; decide +kernel,
    by rw [hhigh']; decide +kernel, by rw [hhigh, hhigh']; decide +kernel⟩
  have hexact : (F64.ofRat (10 ^ 21)).abs = 10 ^ 21 := by decide +kernel
  have hbetween := Python.between_iff hs hf h h₁ h₂
  rwa [hlow, hhigh, hexact] at hbetween

theorem numberText_point {negative : Bool} {ds : List Char} {n : Int} (hne : ds ≠ [])
    (hin : -6 < n ∧ n ≤ 21) :
    Ecma.numberText negative ds n = signed negative (placePoint ds n []) := by
  have hlen := List.length_pos_iff.2 hne
  rw [Ecma.numberText, placePoint_eq]
  by_cases hwhole : (ds.length : Int) ≤ n
  · rw [if_pos ⟨hwhole, hin.2⟩, if_neg (by omega), if_pos hwhole, List.append_nil]
  · rw [if_neg (fun h => hwhole h.1)]
    by_cases hn : 0 < n
    · rw [if_pos ⟨hn, hin.2⟩, if_neg (by omega), if_neg hwhole]
    · rw [if_neg (fun h => hn h.1), if_pos ⟨hin.1, by omega⟩, if_pos (by omega)]

/-- The canonical text in the words of ECMA-262. -/
theorem canonicalNumber_eq_numberText (hs : Python.Shortest host) (hf : f.isZero = false)
    (h : Python.Digits host f p) : canonicalNumber host (.float f) =
      .ok (.ofList (Ecma.numberText f.negative (Python.dtoa host f).1 (Python.dtoa host f).2)) := by
  have hplaced := placed_iff_point hs hf h
  have hne := h.decomposed.ne
  have hsign : (if startsWith (host.floatText f) "-" = true then "-" else "") =
      String.ofList (if f.negative then ['-'] else []) := by
    rw [h.text, startsWith_minus, h.negative hf]
    cases f.negative <;> rfl
  rcases hparts : Python.dtoa host f with ⟨ds, n⟩
  rw [hparts] at hplaced hne
  rw [canonicalNumber_parts hf hsign hparts]
  by_cases hin : -6 < n ∧ n ≤ 21
  · rw [if_pos (hplaced.2 hin), numberText_point hne hin]
    rfl
  · rw [if_neg (mt hplaced.1 hin), numberText_exponent hne hin, scientific_eq_mantissa hne, signed,
      exponentSign, toString_int_toList]
    by_cases hpos : 0 ≤ n - 1
    · have hsigned : ¬n - 1 < 0 := by omega
      rw [if_pos hpos, if_pos hpos, if_neg hsigned]
      rfl
    · have hsigned : n - 1 < 0 := by omega
      rw [if_neg hpos, if_neg hpos, if_pos hsigned]
      rfl

theorem reprText_point {negative : Bool} {ds : List Char} {n : Int} (hne : ds ≠ [])
    (hin : -4 < n ∧ n ≤ 16) :
    Python.reprText negative ds n = signed negative (placePoint ds n ['.', '0']) := by
  have hlen := List.length_pos_iff.2 hne
  rw [Python.reprText, if_pos hin, placePoint_eq]
  by_cases hwhole : (ds.length : Int) ≤ n
  · rw [if_pos hwhole, if_neg (by omega), if_pos hwhole]
  · rw [if_neg hwhole]
    by_cases hn : 0 < n
    · rw [if_pos hn, if_neg (by omega), if_neg hwhole]
    · rw [if_neg hn, if_pos (by omega)]

theorem exponentDigits_eq_zeros (n : Nat) : exponentDigits n =
    zeros (2 - (Nat.toDigits 10 n).length) ++ Nat.toDigits 10 n := by
  have hlen : 0 < (Nat.toDigits 10 n).length := List.length_pos_iff.2 Nat.toDigits_ne_nil
  rw [exponentDigits, zeros]
  split
  next hshort =>
    have hone : (2 - ((Nat.toDigits 10 n).length : Int)).toNat = 1 := by omega
    rw [hone]
    rfl
  next hlong =>
    have hzero : (2 - ((Nat.toDigits 10 n).length : Int)).toNat = 0 := by omega
    rw [hzero]
    rfl

/-- `python_number` in the words of CPython. -/
theorem pythonNumber_eq_reprText (hs : Python.Shortest host) (hf : f.isZero = false)
    (h : Python.Digits host f p) : pythonNumber host (.float f) =
      .ofList (Python.reprText f.negative (Python.dtoa host f).1 (Python.dtoa host f).2) := by
  apply String.toList_injective
  have hne := h.decomposed.ne
  rw [pythonNumber_toList hf h, String.toList_ofList]
  by_cases hin : -4 < (Python.dtoa host f).2 ∧ (Python.dtoa host f).2 ≤ 16
  · rw [if_pos ((Python.placed_iff hs hf h).2 hin), reprText_point hne hin]
    rfl
  · rw [if_neg (mt (Python.placed_iff hs hf h).1 hin), Python.reprText, if_neg hin,
      scientific_eq_mantissa hne, exponentDigits_eq_zeros, List.append_assoc]
    rfl

/-! ## Both texts keep the value -/

theorem read_canonicalNumber (hp : host.Prints) (hf : f.isZero = false) {t : String}
    (ht : canonicalNumber host (.float f) = .ok t) :
    Decimal.read t.toList = Decimal.read (host.floatText f).toList := by
  obtain ⟨p, m, h⟩ := exists_printed hp hf ht
  rw [h.canonical, h.text, String.toList_ofList, String.toList_ofList, Numeral.read_text,
    Numeral.read_text, h.value]

theorem read_pythonNumber (h : Python.Digits host f p) (hf : f.isZero = false) :
    Decimal.read (pythonNumber host (.float f)).toList = p.value := by
  rw [pythonNumber_toList hf h]
  split
  · obtain ⟨m, htext, -, -, hvalue⟩ := placed_numeral hf h
    rw [htext, Numeral.read_text, hvalue]
  · exact read_scientific hf h

/-- A double taken apart into the digits and the point of the text that is printed for it, and
written again by both writers. -/
structure Reformatted (host : Host) (f : F64) (ds : List Char) (n : Int) : Prop where
  digits : Bare ds
  rendering : Decimal.read (host.floatText f).toList = scaled f.negative ds (n - ds.length)
  canonical : canonicalNumber host (.float f) = .ok (.ofList (Ecma.numberText f.negative ds n))
  canonical_value : Decimal.read (Ecma.numberText f.negative ds n) =
    Decimal.read (host.floatText f).toList
  python : pythonNumber host (.float f) = .ofList (Python.reprText f.negative ds n)
  python_value : Decimal.read (Python.reprText f.negative ds n) =
    Decimal.read (host.floatText f).toList

theorem reformatted (hp : host.Prints) (hs : Python.Shortest host) (hf : f.isZero = false) :
    Reformatted host f (Python.dtoa host f).1 (Python.dtoa host f).2 := by
  obtain ⟨p, h⟩ := Python.exists_digits hp hf
  have hd := h.decomposed
  have hread : Decimal.read (host.floatText f).toList = p.value := by
    rw [h.text, String.toList_ofList, Numeral.read_text]
  have hcanonical := canonicalNumber_eq_numberText hs hf h
  have hpython := pythonNumber_eq_reprText hs hf h
  constructor
  case digits => exact ⟨hd.all, hd.ne, hd.head h.magnitude, hd.last h.magnitude⟩
  case rendering =>
    rw [hread, Numeral.value, hd.value, h.negative hf, scaled]
    cases f.negative with
    | true => rw [if_pos rfl, if_pos rfl, neg_one_mul]
    | false => rw [if_neg Bool.false_ne_true, if_neg Bool.false_ne_true, one_mul]
  case canonical => exact hcanonical
  case canonical_value =>
    have hvalue := read_canonicalNumber hp hf hcanonical
    rwa [String.toList_ofList] at hvalue
  case python => exact hpython
  case python_value =>
    have hvalue := read_pythonNumber h hf
    rw [hpython, String.toList_ofList] at hvalue
    rw [hread, hvalue]

/-- The texts of a zero. -/
theorem reformatted_zero (hf : f.isZero = true) : canonicalNumber host (.float f) = .ok "0" ∧
    pythonNumber host (.float f) = if f.negative then "-0.0" else "0.0" := by
  constructor
  · exact canonicalNumber_zero hf
  · exact if_pos hf

/-- Both writers keep the decimal that is printed for a double, and give it the shape of their
language. -/
theorem numbers_reformatted (hp : host.Prints) (hs : Python.Shortest host) (f : F64) :
    (f.isZero = true → canonicalNumber host (.float f) = .ok "0" ∧
      pythonNumber host (.float f) = if f.negative then "-0.0" else "0.0") ∧
    (f.isZero = false → ∃ ds n, Reformatted host f ds n) :=
  ⟨reformatted_zero, fun hf => ⟨_, _, reformatted hp hs hf⟩⟩

/-- The double of `10 ^ 21` is the first one that is canonically written with an exponent. -/
theorem numbers_reformatted_threshold :
    ∃ ds n, Reformatted Python.shortHost (F64.ofRat (10 ^ 21)) ds n :=
  (numbers_reformatted Python.shortHost_prints Python.shortHost_shortest _).2 (by decide +kernel)

end Identity

end StateDrivenAgent
