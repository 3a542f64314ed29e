import StateDrivenAgent.Spec.Decimals
import StateDrivenAgent.Verify.Grounding

/-!
# Two comparisons of decimals

`decimal_equal` and `decimal_canonical` each bring a decimal text to a form of its own: sign, digits
and power of ten, or a text of the three. Both forms are that of `Decimal.normal`, so that on decimals
whose exponents fit the integers of the function each tells exactly the numbers apart
(`decimals_exact`).
-/

namespace Decimal

namespace Written

variable (w : Written)

theorem value_eq_scaled : w.value = scaled (decide (w.sign = .minus)) w.allDigits w.unit := by
  rw [value, scaled]
  cases w.sign <;> simp [Sign.apply]

theorem allDigits_all : AllDigits w.allDigits := by
  refine w.whole_digits.append ?_
  rw [fractionDigits]
  cases h : w.fraction with
  | none => exact allDigits_nil
  | some ds => exact w.fraction_digits ds h

theorem value_ne_zero_iff : w.value ≠ 0 ↔ stripFront w.allDigits ≠ [] := by
  rw [value_eq_scaled]
  constructor
  · intro h hzero
    exact h (scaled_zero hzero)
  · intro h
    rw [scaled_strip]
    exact scaled_ne_zero (bare_strip w.allDigits_all h)

/-- The zeros at the end are the ones that are stripped. -/
theorem zeros_eq (h : stripFront w.allDigits ≠ []) : w.zeros =
    (stripFront w.allDigits).length - (stripBack (stripFront w.allDigits)).length := by
  obtain ⟨k, hk⟩ := exists_replicate w.allDigits
  have hstop : ∃ c ∈ (stripFront w.allDigits).reverse, decide (c = '0') = false := by
    obtain ⟨c, cs, hcs⟩ := List.exists_cons_of_ne_nil h
    refine ⟨c, by rw [hcs]; simp, decide_eq_false ?_⟩
    rintro rfl
    exact head?_stripFront w.allDigits (by rw [hcs]; rfl)
  have htake : ∀ {cs ds : List Char}, (∃ c ∈ cs, decide (c = '0') = false) →
      (cs ++ ds).takeWhile (· = '0') = cs.takeWhile (· = '0') := by
    intro cs ds hstop
    induction cs with
    | nil =>
      obtain ⟨c, hc, -⟩ := hstop
      cases hc
    | cons c cs ih =>
      by_cases hc : c = '0'
      · subst hc
        obtain ⟨d, hd, hne⟩ := hstop
        rcases List.mem_cons.1 hd with rfl | hd
        · simp at hne
        · rw [List.cons_append, List.takeWhile_cons_of_pos (by simp),
            List.takeWhile_cons_of_pos (by simp), ih ⟨d, hd, hne⟩]
      · rw [List.cons_append, List.takeWhile_cons_of_neg (by simpa using hc),
          List.takeWhile_cons_of_neg (by simpa using hc)]
  have hsplit := congrArg List.length
    (List.takeWhile_append_dropWhile (p := (· = '0')) (l := (stripFront w.allDigits).reverse))
  rw [zeros]
  conv_lhs => rw [hk]
  rw [List.reverse_append, htake hstop, stripBack]
  rw [List.length_append, List.length_reverse] at hsplit
  rw [List.length_reverse]
  omega

variable {w} in
theorem Fits.widen (h : w.Fits 32) : w.Fits 64 := by
  refine ⟨?_, ?_, fun hne => ?_⟩
  · have := h.exponent
    omega
  · have := h.count
    omega
  · have := h.power hne
    omega

end Written

end Decimal

namespace StateDrivenAgent

open Decimal Numerals Text Context

namespace Engine

/-- `canonical` of `decimal_equal` on a numeral without commas. -/
theorem parts_of_bald {t s whole f fraction e : List Char} (h : Bald t s whole f fraction e)
    (hexp : -2 ^ 63 ≤ readExponent (e.drop 1) ∧ readExponent (e.drop 1) < 2 ^ 63)
    (hpower : stripFront (whole ++ fraction) ≠ [] →
      -2 ^ 63 ≤ readExponent (e.drop 1) - fraction.length ∧
        lastPower (whole ++ fraction) (readExponent (e.drop 1) - fraction.length) < 2 ^ 63) :
    decimalParts (.ofList t) = some (normal (Decidable.decide (s = ['-'])) (whole ++ fraction)
      (readExponent (e.drop 1) - fraction.length)) := by
  have hall : (whole ++ fraction).all isAsciiDigit = true :=
    List.all_eq_true.2 (h.whole.append h.fraction)
  have hne : (whole ++ fraction).isEmpty = false := by simp [h.whole_ne]
  rw [decimalParts_eq_finish, h.trim_eq, String.toList_ofList, h.exponent_eq 64, h.split.1,
    h.signed_eq, if_pos hexp, Option.bind_some, finish]
  simp only [h.point_split.1, h.point_split.2, hall, hne, Bool.not_true, Bool.or_false,
    Bool.false_eq_true, if_false]
  by_cases hzero : stripFront (whole ++ fraction) = []
  · rw [if_pos hzero, normal_zero hzero]
  · have hrange := hpower hzero
    rw [lastPower] at hrange
    rw [if_neg hzero, normal, if_neg hzero, lastPower]
    exact if_neg (by omega)

/-- What `decimal_canonical` writes of a normal form. -/
def spell : Bool × String × Int → String
  | (negative, kept, power) =>
    if kept = "0" then "0" else (if negative then "-" else "") ++ kept ++ "e" ++ toString power

/-- `decimal_canonical` on a numeral without commas. -/
theorem canonical_of_bald {t s whole f fraction e : List Char} (h : Bald t s whole f fraction e)
    (hexp : -2 ^ 31 ≤ readExponent (e.drop 1) ∧ readExponent (e.drop 1) < 2 ^ 31)
    (hpower : stripFront (whole ++ fraction) ≠ [] →
      -2 ^ 31 ≤ readExponent (e.drop 1) - fraction.length ∧
        lastPower (whole ++ fraction) (readExponent (e.drop 1) - fraction.length) < 2 ^ 31) :
    decimalCanonical (.ofList t) = some (spell (normal (Decidable.decide (s = ['-'])) (whole ++ fraction)
      (readExponent (e.drop 1) - fraction.length))) := by
  rw [h.canonical, if_pos hexp]
  by_cases hzero : stripFront (whole ++ fraction) = []
  · rw [if_pos hzero, normal_zero hzero]
    rfl
  · have hrange := hpower hzero
    have hbare := bare_strip (h.whole.append h.fraction) hzero
    have hkept : String.ofList (stripBack (stripFront (whole ++ fraction))) ≠ "0" := by
      intro hkept
      have hlist := congrArg String.toList hkept
      rw [String.toList_ofList] at hlist
      exact hbare.head (hlist ▸ rfl)
    rw [lastPower] at hrange
    rw [if_neg hzero, if_neg (by omega), normal, if_neg hzero, spell, if_neg hkept, lastPower]

/-! ## Written decimals -/

section written
variable (w : Written)

theorem bald_text : Bald (w.sign.text ++ (w.whole ++ (w.pointText ++ w.exponentText))) w.sign.text
    w.whole w.pointText w.fractionDigits w.exponentText where
  eq := rfl
  sign := by
    cases w.sign with
    | absent => exact .inl rfl
    | plus => exact .inr ⟨'+', rfl, rfl⟩
    | minus => exact .inr ⟨'-', rfl, rfl⟩
  whole_ne := w.whole_ne
  whole := w.whole_digits
  point := by
    rw [Written.pointText, Written.fractionDigits]
    cases w.fraction with
    | none => exact .inl ⟨rfl, rfl⟩
    | some ds => exact .inr rfl
  fraction := w.allDigits_all.of_append_right
  exponent := by
    rw [Written.exponentText]
    cases hexp : w.exponent with
    | none => exact .inl rfl
    | some e =>
      obtain ⟨upper, s, ds⟩ := e
      obtain ⟨hne, hall⟩ := w.exponent_digits upper s ds hexp
      refine .inr ⟨if upper then 'E' else 'e', s.text, ds, rfl, ?_, ?_, hne, hall⟩
      · cases upper <;> rfl
      · cases s with
        | absent => exact .inl rfl
        | plus => exact .inr ⟨'+', rfl, rfl⟩
        | minus => exact .inr ⟨'-', rfl, rfl⟩

theorem readExponent_exponentText : readExponent (w.exponentText.drop 1) = w.exp := by
  rw [Written.exponentText, Written.exp]
  cases hexp : w.exponent with
  | none => rfl
  | some e =>
    obtain ⟨upper, s, ds⟩ := e
    obtain ⟨-, hall⟩ := w.exponent_digits upper s ds hexp
    cases s with
    | absent => exact readExponent_of_digits hall
    | plus => rfl
    | minus => rfl

theorem sign_text_eq :
    Decidable.decide (w.sign.text = ['-']) = Decidable.decide (w.sign = .minus) := by
  cases w.sign <;> rfl

/-- The exponent that both functions end with. -/
theorem power_of_fits {bits : Nat} (h : w.Fits bits) (hne : stripFront w.allDigits ≠ []) :
    -2 ^ (bits - 1) ≤ w.unit ∧ lastPower w.allDigits w.unit < 2 ^ (bits - 1) := by
  have hpower := h.power (w.value_ne_zero_iff.2 hne)
  rwa [lastPower, ← w.zeros_eq hne]

theorem decimalParts_written (h : w.Fits 64) : decimalParts w.text =
    some (normal (Decidable.decide (w.sign = .minus)) w.allDigits w.unit) := by
  have hbald := bald_text w
  have hexp := readExponent_exponentText w
  rw [Written.text, parts_of_bald hbald (hexp ▸ h.exponent)
    (by rw [hexp]; exact power_of_fits w h), hexp, sign_text_eq]
  rfl

theorem decimalCanonical_written (h : w.Fits 32) : decimalCanonical w.text =
    some (spell (normal (Decidable.decide (w.sign = .minus)) w.allDigits w.unit)) := by
  have hbald := bald_text w
  have hexp := readExponent_exponentText w
  rw [Written.text, canonical_of_bald hbald (hexp ▸ h.exponent)
    (by rw [hexp]; exact power_of_fits w h), hexp, sign_text_eq]
  rfl

/-- The canonical text has the value. -/
theorem read_canonical_written {t : String} (h : decimalCanonical w.text = some t) :
    Decimal.read t.toList = w.value := by
  rw [(bald_text w).read_canonical h, readExponent_exponentText, w.value_eq_scaled, scaled]
  cases w.sign <;> simp [Sign.text, Written.allDigits, Written.unit]

end written

/-- On decimals whose exponents fit, `decimal_equal` and `decimal_canonical` compare the numbers. -/
theorem decimals_exact (w v : Written) :
    (w.Fits 64 → v.Fits 64 → (decimalEqual w.text v.text = true ↔ w.value = v.value)) ∧
    (w.Fits 32 → v.Fits 32 →
      (∃ s t, decimalCanonical w.text = some s ∧ decimalCanonical v.text = some t ∧
        (s = t ↔ w.value = v.value)) ∧
      (decimalEqual w.text v.text = true ↔ decimalCanonical w.text = decimalCanonical v.text)) := by
  have hequal : w.Fits 64 → v.Fits 64 → (decimalEqual w.text v.text = true ↔ w.value = v.value) := by
    intro hw hv
    rw [decimalEqual, decimalParts_written w hw, decimalParts_written v hv, w.value_eq_scaled,
      v.value_eq_scaled, ← normal_eq_iff w.allDigits_all v.allDigits_all]
    exact decide_eq_true_iff
  refine ⟨hequal, fun hw hv => ?_⟩
  have hcanonical := decimalCanonical_written w hw
  have hcanonical' := decimalCanonical_written v hv
  obtain ⟨s, hs⟩ : ∃ s, decimalCanonical w.text = some s := ⟨_, hcanonical⟩
  obtain ⟨t, ht⟩ : ∃ t, decimalCanonical v.text = some t := ⟨_, hcanonical'⟩
  have htext : s = t ↔ w.value = v.value := by
    constructor
    · rintro rfl
      rw [← read_canonical_written w hs, ← read_canonical_written v ht]
    · intro hvalue
      rw [w.value_eq_scaled, v.value_eq_scaled, ← normal_eq_iff w.allDigits_all v.allDigits_all]
        at hvalue
      rw [hs, hvalue] at hcanonical
      rw [ht] at hcanonical'
      exact Option.some.inj (hcanonical.trans hcanonical'.symm)
  refine ⟨⟨s, t, hs, ht, htext⟩, ?_⟩
  rw [hequal hw.widen hv.widen, hs, ht, Option.some.injEq, htext]

theorem hundred_whole_ne : ['1'] ≠ [] := by simp

theorem hundred_whole_digits : AllDigits ['1'] := allDigits_toDigits 1

/-- One hundred as `1e2`. -/
def hundred : Written where
  sign := .absent
  whole := ['1']
  fraction := none
  exponent := some (false, .absent, ['2'])
  whole_ne := hundred_whole_ne
  whole_digits := hundred_whole_digits
  fraction_digits := fun ds h => by cases h
  exponent_digits := by
    intro upper s ds h
    cases h
    exact ⟨by simp, allDigits_toDigits 2⟩

/-- One hundred as `+100.0`. -/
def longHundred : Written where
  sign := .plus
  whole := ['1', '0', '0']
  fraction := some ['0']
  exponent := none
  whole_ne := by simp
  whole_digits := allDigits_toDigits 100
  fraction_digits := by
    intro ds h
    cases h
    exact allDigits_zero
  exponent_digits := fun upper s ds h => by cases h

theorem decimals_exact_hundred : decimalEqual hundred.text longHundred.text = true ∧
    decimalCanonical hundred.text = decimalCanonical longHundred.text := by
  have hw : hundred.Fits 32 := ⟨by decide, by decide, fun _ => by decide⟩
  have hv : longHundred.Fits 32 := ⟨by decide, by decide, fun _ => by decide⟩
  have hvalue : hundred.value = longHundred.value := by decide +kernel
  have hequal := ((decimals_exact hundred longHundred).1 hw.widen hv.widen).2 hvalue
  exact ⟨hequal, ((decimals_exact hundred longHundred).2 hw hv).2.1 hequal⟩

end Engine

end StateDrivenAgent
