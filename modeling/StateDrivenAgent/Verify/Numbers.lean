import StateDrivenAgent.Identity
import StateDrivenAgent.Json.Reading

/-!
# The canonical text of a number

`canonical` takes the text of a double apart into its digits and the place of the point
(`decimalParts_unsigned`) and spells them again as a numeral of the same value
(`canonicalNumber_numeral`). Two numbers of the domain therefore have one text exactly when they are
equal (`canonicalNumber_eq_iff`), and the text reads back as a number with the same text unless it is
a plain integer that serde keeps as one (`rereads_iff`).
-/

namespace StateDrivenAgent

open Text Decimal

/-! ## Taking a decimal text apart -/

theorem stripLeadingZeros_spec : ∀ cs : List Char, cs ≠ [] →
    cs = List.replicate (stripLeadingZeros cs).2 '0' ++ (stripLeadingZeros cs).1 ∧
      (stripLeadingZeros cs).1 ≠ [] ∧
      ((stripLeadingZeros cs).1.head? = some '0' → (stripLeadingZeros cs).1 = ['0'])
  | [], h => absurd rfl h
  | [c], _ => by simp [stripLeadingZeros]
  | c :: d :: cs, _ => by
    by_cases hc : c = '0'
    · obtain ⟨heq, hne, hhead⟩ := stripLeadingZeros_spec (d :: cs) (by simp)
      rw [hc, stripLeadingZeros]
      refine ⟨?_, hne, hhead⟩
      rw [List.replicate_succ, List.cons_append, ← heq]
    · have hstop : stripLeadingZeros (c :: d :: cs) = (c :: d :: cs, 0) := by
        rw [stripLeadingZeros]
        intro c' cs' h
        exact hc (List.cons.inj h).1
      rw [hstop]
      simp [hc]

theorem stripTrailingZeros_spec {cs : List Char} (h : cs ≠ []) : ∃ k,
    cs = stripTrailingZeros cs ++ List.replicate k '0' ∧ stripTrailingZeros cs ≠ [] ∧
      ((stripTrailingZeros cs).getLast? = some '0' → stripTrailingZeros cs = ['0']) := by
  obtain ⟨heq, hne, hhead⟩ := stripLeadingZeros_spec cs.reverse (by simpa using h)
  refine ⟨(stripLeadingZeros cs.reverse).2, ?_, ?_, ?_⟩
  · have hrev := congrArg List.reverse heq
    rwa [List.reverse_reverse, List.reverse_append, List.reverse_replicate] at hrev
  · rw [stripTrailingZeros]
    simpa using hne
  · rw [stripTrailingZeros, List.getLast?_reverse]
    intro h
    rw [hhead h]
    rfl

theorem parseDigits_eq {cs : List Char} (h : AllDigits cs) (hne : cs ≠ []) :
    parseDigits cs = some (digits cs) := by
  have hall : cs.all isAsciiDigit = true := List.all_eq_true.2 h
  rw [parseDigits, if_pos hall]
  · rfl
  · exact hne

section exponent
variable {cs : List Char} (h : AllDigits cs) (hne : cs ≠ [])
include h hne

theorem parseInt_minus (hlow : -2 ^ 31 ≤ -(digits cs : Int)) :
    parseInt 32 (.ofList ('-' :: cs)) = some (-(digits cs : Int)) := by
  rw [parseInt, String.toList_ofList]
  simp [parseDigits_eq h hne, Option.filter]
  omega

theorem parseInt_plus (hhigh : (digits cs : Int) < 2 ^ 31) :
    parseInt 32 (.ofList ('+' :: cs)) = some (digits cs : Int) := by
  rw [parseInt, String.toList_ofList]
  simp [parseDigits_eq h hne, Option.filter]
  omega

theorem parseInt_digits (hhigh : (digits cs : Int) < 2 ^ 31) :
    parseInt 32 (.ofList cs) = some (digits cs : Int) := by
  rw [parseInt, String.toList_ofList]
  have hparse := parseDigits_eq h hne
  cases cs with
  | nil => exact absurd rfl hne
  | cons c cs =>
    have hminus : c ≠ '-' := isDigit_ne (h c List.mem_cons_self) rfl
    have hplus : c ≠ '+' := isDigit_ne (h c List.mem_cons_self) rfl
    simp [hminus, hplus, hparse, Option.filter]
    omega

end exponent

theorem parseInt_exponent (plus : Bool) {e : Int} (h₁ : -2 ^ 31 ≤ e) (h₂ : e < 2 ^ 31) :
    parseInt 32 (.ofList ((if plus && decide (0 ≤ e) then ['+'] else []) ++ (toString e).toList)) =
      some e := by
  have hdigits := allDigits_toDigits e.natAbs
  have hne : Nat.toDigits 10 e.natAbs ≠ [] := Nat.toDigits_ne_nil
  have hval := digits_toDigits e.natAbs
  rw [toString_int_toList]
  by_cases he : e < 0
  · have hplus : (plus && decide (0 ≤ e)) = false := by simp [he]
    rw [if_pos he, hplus, if_neg (by simp), List.nil_append, List.singleton_append,
      parseInt_minus hdigits hne (by omega)]
    congr 1
    omega
  · rw [if_neg he, List.nil_append]
    split
    · rw [List.singleton_append, parseInt_plus hdigits hne (by omega)]
      congr 1
      omega
    · rw [List.nil_append, parseInt_digits hdigits hne (by omega)]
      congr 1
      omega

theorem decimalParts_eq (p : Numeral) (h₁ : -2 ^ 31 ≤ p.exp) (h₂ : p.exp < 2 ^ 31) :
    decimalParts (.ofList p.unsigned) =
      (stripTrailingZeros (stripLeadingZeros (p.whole ++ p.fraction)).1,
        p.whole.length + p.exp - (stripLeadingZeros (p.whole ++ p.fraction)).2) := by
  have hexp : (parseInt 32 (.ofList ((p.unsigned.dropWhile notExponent).drop 1))).getD 0 = p.exp := by
    rw [p.dropWhile_unsigned]
    cases he : p.exponent with
    | none =>
      rw [Numeral.exp, he]
      rfl
    | some e =>
      have hval : p.exp = e.2 := by rw [Numeral.exp, he]; rfl
      rw [hval] at h₁ h₂ ⊢
      show (parseInt 32 (.ofList ((if e.1 && decide (0 ≤ e.2) then ['+'] else []) ++
        (toString e.2).toList))).getD 0 = e.2
      rw [parseInt_exponent e.1 h₁ h₂]
      rfl
  have hdigits : (p.whole ++ p.fractionText).filter (fun c => decide (c ≠ '.')) =
      p.whole ++ p.fraction := by
    rw [List.filter_append, List.filter_eq_self.2 p.whole_digits.ne_point]
    congr 1
    rw [Numeral.fractionText]
    split
    next h => simp [h]
    next h =>
      rw [List.filter_cons_of_neg (by simp), List.filter_eq_self.2 p.fraction_digits.ne_point]
  have hunfold : decimalParts (.ofList p.unsigned) =
      (stripTrailingZeros (stripLeadingZeros
          ((p.unsigned.takeWhile notExponent).filter fun c => decide (c ≠ '.'))).1,
        ((p.unsigned.takeWhile notExponent).takeWhile fun c => decide (c ≠ '.')).length +
          (parseInt 32 (.ofList ((p.unsigned.dropWhile notExponent).drop 1))).getD 0 -
          (stripLeadingZeros
            ((p.unsigned.takeWhile notExponent).filter fun c => decide (c ≠ '.'))).2) := by
    rw [decimalParts, String.toList_ofList]
    rfl
  rw [hunfold, hexp, p.takeWhile_unsigned, p.takeWhile_mantissa, hdigits]

/-- The digits of a numeral without zeros at either end, and the place of the point. -/
structure Decomposed (p : Numeral) (ds : List Char) (point : Int) : Prop where
  ne : ds ≠ []
  all : AllDigits ds
  value : p.magnitude = digits ds * 10 ^ (point - ds.length)
  head : p.magnitude ≠ 0 → ds.head? ≠ some '0'
  last : p.magnitude ≠ 0 → ds.getLast? ≠ some '0'

theorem decimalParts_unsigned {p : Numeral} (h₁ : -2 ^ 31 ≤ p.exp) (h₂ : p.exp < 2 ^ 31) :
    Decomposed p (decimalParts (.ofList p.unsigned)).1 (decimalParts (.ofList p.unsigned)).2 := by
  have hne : p.whole ++ p.fraction ≠ [] := by simp [p.whole_ne]
  obtain ⟨hlead, hne₁, hhead⟩ := stripLeadingZeros_spec _ hne
  obtain ⟨j, htrail, hne₂, hlast⟩ := stripTrailingZeros_spec hne₁
  have hall : AllDigits (p.whole ++ p.fraction) := p.whole_digits.append p.fraction_digits
  rw [decimalParts_eq p h₁ h₂]
  set k := (stripLeadingZeros (p.whole ++ p.fraction)).2 with hk
  set ds := (stripLeadingZeros (p.whole ++ p.fraction)).1 with hds
  set es := stripTrailingZeros ds with hes
  have hdigits : digits (p.whole ++ p.fraction) = digits es * 10 ^ j := by
    rw [hlead, digits_append, digits_replicate_zero, Nat.zero_mul, Nat.zero_add, htrail,
      digits_append, digits_replicate_zero, Nat.add_zero, List.length_replicate]
  have hlength : p.whole.length + p.fraction.length = k + (es.length + j) := by
    have h := congrArg List.length hlead
    rw [htrail] at h
    simpa using h
  have hvalue : p.magnitude =
      digits es * 10 ^ ((p.whole.length : Int) + p.exp - k - es.length) := by
    rw [Numeral.magnitude, hdigits, Nat.cast_mul, Nat.cast_pow, mul_assoc, Nat.cast_ofNat,
      ← zpow_natCast, ← zpow_add₀ (by norm_num)]
    congr 2
    omega
  have hds0 : digits ds = digits es * 10 ^ j := by
    rw [htrail, digits_append, digits_replicate_zero, Nat.add_zero, List.length_replicate]
  have hnonzero : p.magnitude ≠ 0 → digits es ≠ 0 := by
    intro hp hzero
    rw [hvalue, hzero] at hp
    simp at hp
  refine ⟨hne₂, ?_, hvalue, ?_, ?_⟩
  · rw [hlead, htrail] at hall
    exact hall.of_append_right.of_append_left
  · intro hp h
    have hcons : ds.head? = some '0' := by
      rw [htrail, List.head?_append, h]
      rfl
    rw [hhead hcons] at hds0
    have hzero : digits es * 10 ^ j = 0 := hds0.symm
    exact hnonzero hp (by simpa using hzero)
  · intro hp h
    have hes0 := hlast h
    exact hnonzero hp (by rw [hes0]; rfl)

theorem digits_mod_ten {ds : List Char} (hall : AllDigits ds) (hne : ds ≠ [])
    (hlast : ds.getLast? ≠ some '0') : digits ds % 10 ≠ 0 := by
  obtain ⟨init, c, rfl⟩ : ∃ init c, ds = init ++ [c] :=
    ⟨ds.dropLast, ds.getLast hne, (List.dropLast_append_getLast hne).symm⟩
  have hc := hall c (by simp)
  have hne0 : c ≠ '0' := by
    rintro rfl
    exact hlast (by simp)
  simp only [isDigit, Bool.and_eq_true, decide_eq_true_eq, Char.le_def,
    UInt32.le_iff_toNat_le] at hc
  have hval : digits [c] = c.toNat - 48 := by simp [digits, Nat.ofDigitChars_cons]
  have hnat : c.toNat ≠ 48 := by
    intro h
    exact hne0 (by rw [← Char.ofNat_toNat c, h])
  have hlow : 48 ≤ c.toNat := hc.1
  have hhigh : c.toNat ≤ 57 := hc.2
  rw [digits_append, hval]
  simp only [List.length_singleton, pow_one]
  omega

/-- A decomposed numeral is an integer when the point is not among its digits. -/
theorem Decomposed.integral_iff {p : Numeral} {ds : List Char} {point : Int}
    (hd : Decomposed p ds point) (hp : p.magnitude ≠ 0) :
    (∃ k : Nat, p.magnitude = k) ↔ (ds.length : Int) ≤ point := by
  constructor
  · rintro ⟨k, hk⟩
    by_contra hpoint
    have hmod := digits_mod_ten hd.all hd.ne (hd.last hp)
    obtain ⟨j, hj⟩ : ∃ j : Nat, point - ds.length = -((j + 1 : Nat) : Int) :=
      ⟨((ds.length : Int) - point - 1).toNat, by omega⟩
    have hvalue := hd.value
    rw [hk, hj, zpow_neg, zpow_natCast, ← div_eq_mul_inv, eq_div_iff (by positivity)] at hvalue
    have hnat : k * 10 ^ (j + 1) = digits ds := by exact_mod_cast hvalue
    apply hmod
    rw [← hnat, pow_succ, ← mul_assoc]
    exact Nat.mul_mod_left _ _
  · intro hpoint
    refine ⟨digits ds * 10 ^ (point - ds.length).toNat, ?_⟩
    rw [hd.value]
    push_cast
    rw [← zpow_natCast, Int.toNat_of_nonneg (by omega)]

/-! ## Spelling the digits again -/

section spell
variable {p : Numeral} {ds : List Char} {point : Int}

theorem Decomposed.length_pos (hd : Decomposed p ds point) : 0 < ds.length :=
  List.length_pos_iff.2 hd.ne

/-- Digits with the point in place are a numeral without an exponent. -/
theorem placePoint_digits (negative : Bool) (hne : ds ≠ []) (hall : AllDigits ds)
    (hhead : ds.head? ≠ some '0') (point : Int) :
    ∃ m : Numeral, m.negative = negative ∧ m.unsigned = placePoint ds point [] ∧
      m.magnitude = digits ds * 10 ^ (point - ds.length) ∧
      (m.plain = true ↔ (ds.length : Int) ≤ point) ∧ m.exponent = none := by
  have hlen : 0 < ds.length := List.length_pos_iff.2 hne
  by_cases h₁ : point ≤ 0
  · let m : Numeral :=
      { negative, whole := ['0'], fraction := List.replicate (-point).toNat '0' ++ ds
        exponent := none, whole_ne := by simp, whole_digits := by simp [AllDigits, isDigit]
        whole_lead := by simp, fraction_digits := (allDigits_replicate_zero _).append hall }
    have hfrac : m.fraction ≠ [] := by simp [m, hne]
    refine ⟨m, rfl, ?_, ?_, ?_, rfl⟩
    · rw [placePoint, if_pos h₁, Numeral.unsigned, Numeral.fractionText, if_neg hfrac]
      simp [m, Numeral.exponentText]
    · have hval : digits (m.whole ++ m.fraction) = digits ds := by
        show digits (['0'] ++ (List.replicate (-point).toNat '0' ++ ds)) = digits ds
        rw [digits_append, digits_append, digits_replicate_zero, show digits ['0'] = 0 from rfl]
        omega
      have hfl : (m.fraction.length : Int) = -point + ds.length := by
        show ((List.replicate (-point).toNat '0' ++ ds).length : Int) = _
        rw [List.length_append, List.length_replicate]
        push_cast
        omega
      rw [Numeral.magnitude, hval, hfl]
      show (digits ds : Rat) * 10 ^ ((0 : Int) - (-point + ds.length)) = _
      congr 2
      omega
    · rw [Numeral.plain]
      simp only [List.isEmpty_eq_false_iff.2 hfrac, Bool.false_and, Bool.false_eq_true, false_iff]
      omega
  by_cases h₂ : ds.length ≤ point.toNat
  · let m : Numeral :=
      { negative, whole := ds ++ List.replicate (point.toNat - ds.length) '0', fraction := []
        exponent := none, whole_ne := by simp [hne]
        whole_digits := hall.append (allDigits_replicate_zero _)
        whole_lead := by
          intro h
          rw [List.head?_append_of_ne_nil _ hne] at h
          exact absurd h hhead
        fraction_digits := by simp [AllDigits] }
    refine ⟨m, rfl, ?_, ?_, ?_, rfl⟩
    · rw [placePoint, if_neg h₁, if_pos h₂, Numeral.unsigned, Numeral.fractionText]
      simp [m, Numeral.exponentText]
    · have hval : digits (m.whole ++ m.fraction) = digits ds * 10 ^ (point.toNat - ds.length) := by
        show digits ((ds ++ List.replicate (point.toNat - ds.length) '0') ++ []) = _
        rw [List.append_nil, digits_append, digits_replicate_zero, List.length_replicate]
        rfl
      rw [Numeral.magnitude, hval]
      show ((digits ds * 10 ^ (point.toNat - ds.length) : Nat) : Rat) * 10 ^ ((0 : Int) - 0) = _
      push_cast
      rw [mul_one, ← zpow_natCast]
      congr 2
      omega
    · rw [Numeral.plain]
      simp only [m, List.isEmpty_nil, Option.isNone_none, Bool.and_self, true_iff]
      omega
  · have hpt : point.toNat < ds.length := by omega
    let m : Numeral :=
      { negative, whole := ds.take point.toNat, fraction := ds.drop point.toNat
        exponent := none
        whole_ne := by
          intro h
          rw [List.take_eq_nil_iff] at h
          rcases h with h | h
          · omega
          · exact hne h
        whole_digits := fun c hc => hall c (List.mem_of_mem_take hc)
        whole_lead := by
          intro h
          rw [List.head?_take, if_neg (by omega)] at h
          exact absurd h hhead
        fraction_digits := fun c hc => hall c (List.mem_of_mem_drop hc) }
    have hfrac : m.fraction ≠ [] := by
      show ds.drop point.toNat ≠ []
      rw [ne_eq, List.drop_eq_nil_iff]
      omega
    refine ⟨m, rfl, ?_, ?_, ?_, rfl⟩
    · rw [placePoint, if_neg h₁, if_neg h₂, Numeral.unsigned, Numeral.fractionText, if_neg hfrac]
      simp [m, Numeral.exponentText]
    · have hval : digits (m.whole ++ m.fraction) = digits ds := by
        show digits (ds.take point.toNat ++ ds.drop point.toNat) = digits ds
        rw [List.take_append_drop]
      rw [Numeral.magnitude, hval]
      show (digits ds : Rat) * 10 ^ ((0 : Int) - (ds.drop point.toNat).length) = _
      rw [List.length_drop]
      congr 2
      omega
    · rw [Numeral.plain]
      simp only [List.isEmpty_eq_false_iff.2 hfrac, Bool.false_and, Bool.false_eq_true, false_iff]
      omega

/-- The digits of a numeral with the point in place are a numeral of the same value. -/
theorem placePoint_numeral (negative : Bool) (hd : Decomposed p ds point) (hp : p.magnitude ≠ 0) :
    ∃ m : Numeral, m.negative = negative ∧ m.unsigned = placePoint ds point [] ∧
      m.magnitude = p.magnitude ∧ (m.plain = true ↔ (ds.length : Int) ≤ point) ∧
      m.exponent = none := by
  obtain ⟨m, hneg, hunsigned, hmag, hplain⟩ :=
    placePoint_digits negative hd.ne hd.all (hd.head hp) point
  exact ⟨m, hneg, hunsigned, hmag.trans hd.value.symm, hplain⟩

theorem scientific_numeral (negative : Bool) (hd : Decomposed p ds point) (hp : p.magnitude ≠ 0) :
    ∃ m : Numeral, m.negative = negative ∧
      m.unsigned = scientific ds ++ 'e' :: ((if 0 ≤ point - 1 then ['+'] else []) ++
        (toString (point - 1)).toList) ∧
      m.magnitude = p.magnitude ∧ m.plain = false ∧ m.exponent ≠ none := by
  have hlen := hd.length_pos
  have hhead := hd.head hp
  by_cases h₁ : ds.length = 1
  · let m : Numeral :=
      { negative, whole := ds, fraction := [], exponent := some (true, point - 1)
        whole_ne := hd.ne, whole_digits := hd.all, whole_lead := fun _ => h₁
        fraction_digits := by simp [AllDigits] }
    refine ⟨m, rfl, ?_, ?_, ?_, Option.some_ne_none _⟩
    · rw [scientific, if_pos h₁, Numeral.unsigned, Numeral.fractionText]
      simp [m, Numeral.exponentText]
    · rw [Numeral.magnitude, hd.value, h₁]
      show (digits (ds ++ []) : Rat) * 10 ^ (point - 1 - 0) = _
      rw [List.append_nil, sub_zero]
      rfl
    · rfl
  · have htake : ds.take 1 ≠ [] := by
      rw [ne_eq, List.take_eq_nil_iff]
      simp [hd.ne]
    let m : Numeral :=
      { negative, whole := ds.take 1, fraction := ds.drop 1, exponent := some (true, point - 1)
        whole_ne := htake, whole_digits := fun c hc => hd.all c (List.mem_of_mem_take hc)
        whole_lead := fun _ => by rw [List.length_take]; omega
        fraction_digits := fun c hc => hd.all c (List.mem_of_mem_drop hc) }
    have hfrac : m.fraction ≠ [] := by
      show ds.drop 1 ≠ []
      rw [ne_eq, List.drop_eq_nil_iff]
      omega
    refine ⟨m, rfl, ?_, ?_, ?_, Option.some_ne_none _⟩
    · rw [scientific, if_neg h₁, Numeral.unsigned, Numeral.fractionText, if_neg hfrac]
      simp [m, Numeral.exponentText]
    · have hval : digits (m.whole ++ m.fraction) = digits ds := by
        show digits (ds.take 1 ++ ds.drop 1) = digits ds
        rw [List.take_append_drop]
      rw [Numeral.magnitude, hval, hd.value]
      show (digits ds : Rat) * 10 ^ (point - 1 - ((ds.drop 1).length : Int)) = _
      rw [List.length_drop]
      congr 2
      omega
    · simp [Numeral.plain, m]

end spell

/-! ## `canonical` on a number -/

namespace Identity

/-- The range in which the point is put in place. -/
def Placed (f : F64) : Prop := (F64.ofRat (1 / 10 ^ 6)).abs ≤ f.abs ∧ f.abs < 10 ^ 21

instance (f : F64) : Decidable (Placed f) := inferInstanceAs (Decidable (_ ∧ _))

section number
variable {host : Host}

/-- A number of the domain has the text of its double. -/
theorem canonicalNumber_of_ok {n : Number} {t : String} (h : canonicalNumber host n = .ok t) :
    canonicalNumber host (.float n.asF64) = .ok t := by
  rw [canonicalNumber] at h ⊢
  split at h
  · cases h
  · rw [if_neg (by simp [Number.isInt])]
    exact h

theorem canonicalNumber_zero {f : F64} (h : f.isZero = true) :
    canonicalNumber host (.float f) = .ok "0" := by
  rw [canonicalNumber, if_neg (by simp [Number.isInt])]
  exact if_pos h

theorem startsWith_minus (p : Numeral) :
    startsWith (.ofList p.text) "-" = p.negative := by
  rw [Bool.eq_iff_iff, ← p.head?_text, startsWith, String.toList_ofList]
  cases p.text with
  | nil => simp
  | cons c cs =>
    simp
    exact eq_comm

/-- The text of a nonzero double from the parts of the printed one. -/
theorem canonicalNumber_parts {f : F64} (hf : f.isZero = false) {sign ds : List Char} {point : Int}
    (hsign : (if startsWith (host.floatText f) "-" = true then "-" else "") = String.ofList sign)
    (hparts : decimalParts (.ofList ((host.floatText f).toList.dropWhile (· = '-'))) = (ds, point)) :
    canonicalNumber host (.float f) = .ok (.ofList (sign ++
      if Placed f then placePoint ds point []
      else scientific ds ++ 'e' :: ((if 0 ≤ point - 1 then ['+'] else []) ++
        (toString (point - 1)).toList))) := by
  have hnonzero : ¬ (Number.float f).asF64.isZero = true := Bool.not_eq_true _ ▸ hf
  rw [canonicalNumber, if_neg (by simp [Number.isInt]), if_neg hnonzero]
  dsimp only [Number.asF64]
  rw [hsign, hparts]
  by_cases hplaced : Placed f
  · rw [if_pos hplaced]
    exact (if_pos hplaced).trans (congrArg Except.ok (String.ofList_append ..).symm)
  · rw [if_neg hplaced]
    refine (if_neg hplaced).trans (congrArg Except.ok (String.toList_injective ?_))
    split <;> simp

/-- The text of a nonzero double is a numeral of the value it prints with. -/
theorem canonicalNumber_numeral {f : F64} (hf : f.isZero = false) {p : Numeral}
    (htext : host.floatText f = .ofList p.text) (h₁ : -2 ^ 31 ≤ p.exp) (h₂ : p.exp < 2 ^ 31)
    (hp : p.magnitude ≠ 0) : ∃ m : Numeral,
      canonicalNumber host (.float f) = .ok (.ofList m.text) ∧ m.value = p.value ∧
      (m.plain = true ↔ Placed f ∧ ((decimalParts (.ofList p.unsigned)).1.length : Int) ≤
        (decimalParts (.ofList p.unsigned)).2) ∧ (m.exponent = none ↔ Placed f) := by
  have hd := decimalParts_unsigned h₁ h₂
  have hsign : (if startsWith (host.floatText f) "-" = true then "-" else "") =
      String.ofList (if p.negative then ['-'] else []) := by
    rw [htext, startsWith_minus]
    cases p.negative <;> rfl
  have hunsigned : decimalParts (.ofList ((host.floatText f).toList.dropWhile (· = '-'))) =
      ((decimalParts (.ofList p.unsigned)).1, (decimalParts (.ofList p.unsigned)).2) := by
    rw [htext, String.toList_ofList, p.dropWhile_minus_text]
  have hvalue : ∀ m : Numeral, m.negative = p.negative → m.magnitude = p.magnitude →
      m.value = p.value := by
    intro m hneg hmag
    rw [Numeral.value, Numeral.value, hneg, hmag]
  rw [canonicalNumber_parts hf hsign hunsigned]
  by_cases hplaced : Placed f
  · obtain ⟨m, hneg, hm, hmag, hplain, hexp⟩ := placePoint_numeral p.negative hd hp
    refine ⟨m, ?_, hvalue m hneg hmag, ?_, iff_of_true hexp hplaced⟩
    · rw [if_pos hplaced, Numeral.text, hneg, hm]
    · rw [hplain]
      exact (and_iff_right hplaced).symm
  · obtain ⟨m, hneg, hm, hmag, hplain, hexp⟩ := scientific_numeral p.negative hd hp
    refine ⟨m, ?_, hvalue m hneg hmag, ?_, iff_of_false hexp hplaced⟩
    · rw [if_neg hplaced, Numeral.text, hneg, hm]
    · rw [hplain]
      exact iff_of_false Bool.false_ne_true fun h => hplaced h.1

theorem isZero_iff {f : F64} : f.isZero = true ↔ f.toRat = 0 := by
  refine ⟨F64.toRat_of_isZero, fun h => ?_⟩
  by_contra hf
  have hpos := F64.abs_pos (Bool.eq_false_iff.2 hf)
  rw [← F64.abs_toRat, h, abs_zero] at hpos
  exact lt_irrefl _ hpos

theorem ofRat_zero : (F64.ofRat 0).isZero = true := F64.nearest_zero _ _

theorem magnitude_ne_zero {f : F64} (hf : f.isZero = false) {p : Numeral}
    (hdouble : F64.ofRat p.value = f) : p.magnitude ≠ 0 := by
  intro hzero
  have hvalue : p.value = 0 := by rw [Numeral.value, hzero, neg_zero, ite_self]
  rw [← hdouble, hvalue, ofRat_zero] at hf
  cases hf

/-- An integer of the domain is exactly its double. -/
theorem natAbs_lt_of_ok {i : Int} (hr : (Number.int i).InRange) {t : String}
    (h : canonicalNumber host (.int i) = .ok t) : i.natAbs < 2 ^ 53 := by
  by_contra hlarge
  have habs : (2 : Rat) ^ 53 ≤ |(i : Rat)| := by
    rw [← Int.cast_abs, Int.abs_eq_natAbs]
    exact_mod_cast not_lt.1 hlarge
  have hsmall : |(i : Rat)| < 2 ^ 100 := by
    rw [← Int.cast_abs, Int.abs_eq_natAbs]
    have hi : i.natAbs < 2 ^ 100 := by
      simp only [Number.InRange] at hr
      omega
    exact_mod_cast hi
  have hzero := F64.ofRat_isZero (le_trans (by norm_num) habs) hsmall
  have hbound := F64.two_pow_le_abs_ofRat hzero habs
  rw [F64.ofRat_intCast] at hbound
  have hdomain : ((Number.int i).isInt &&
      decide ((Number.int i).asF64.abs > 9007199254740991)) = true := by
    rw [Number.isInt, Bool.true_and, decide_eq_true_eq]
    refine lt_of_lt_of_le ?_ hbound
    norm_num
  rw [canonicalNumber, if_pos hdomain] at h
  cases h

theorem toRat_asF64 {n : Number} (hr : n.InRange) {t : String}
    (h : canonicalNumber host n = .ok t) : n.asF64.toRat = n.toRat := by
  cases n with
  | int i => exact F64.toRat_ofInt (natAbs_lt_of_ok hr h)
  | float f => rfl

/-- How a nonzero double `f` is printed and spelled. -/
structure Printed (host : Host) (f : F64) (t : String) (p m : Numeral) : Prop where
  text : host.floatText f = .ofList p.text
  double : F64.ofRat p.value = f
  magnitude : p.magnitude ≠ 0
  canonical : t = .ofList m.text
  value : m.value = p.value
  plain : ∃ ds point, Decomposed p ds point ∧
    (m.plain = true ↔ Placed f ∧ (ds.length : Int) ≤ point)
  exponent : m.exponent = none ↔ Placed f

theorem exists_printed (hp : host.Prints) {f : F64} (hf : f.isZero = false) {t : String}
    (h : canonicalNumber host (.float f) = .ok t) : ∃ p m, Printed host f t p m := by
  obtain ⟨p, htext, h₁, h₂, hdouble⟩ := hp f hf
  have hmag := magnitude_ne_zero hf hdouble
  obtain ⟨m, hcanonical, hvalue, hplain, hexp⟩ := canonicalNumber_numeral hf htext h₁ h₂ hmag
  rw [hcanonical, Except.ok.injEq] at h
  exact ⟨p, m, htext, hdouble, hmag, h.symm, hvalue, ⟨_, _, decimalParts_unsigned h₁ h₂, hplain⟩,
    hexp⟩

theorem Printed.read {f : F64} {t : String} {p m : Numeral} (h : Printed host f t p m) :
    F64.ofRat (Decimal.read t.toList) = f := by
  rw [h.canonical, String.toList_ofList, m.read_text, h.value, h.double]

theorem canonicalNumber_eq_zero_iff (hp : host.Prints) {f : F64} {t : String}
    (h : canonicalNumber host (.float f) = .ok t) : t = "0" ↔ f.isZero = true := by
  constructor
  · intro ht
    by_contra hf
    obtain ⟨p, m, hprinted⟩ := exists_printed hp (Bool.eq_false_iff.2 hf) h
    have hread := hprinted.read
    rw [ht, show "0".toList = ['0'] from rfl, Decimal.read_zero] at hread
    rw [← hread, ofRat_zero] at hf
    exact hf rfl
  · intro hf
    rw [canonicalNumber_zero hf, Except.ok.injEq] at h
    exact h.symm

/-- The text is a JSON number, neither too large nor too small for a double. -/
theorem canonicalNumber_grammatical (hp : host.Prints) {n : Number} {t : String}
    (h : canonicalNumber host n = .ok t) : (Spelling.num t.toList).Grammatical := by
  have h := canonicalNumber_of_ok h
  by_cases hf : n.asF64.isZero = true
  · rw [(canonicalNumber_eq_zero_iff hp h).2 hf]
    refine ⟨.zero, rfl, .inl ?_⟩
    rw [← Numeral.read_text]
    exact Decimal.read_zero
  · have hf : n.asF64.isZero = false := Bool.eq_false_iff.2 hf
    obtain ⟨p, m, hprinted⟩ := exists_printed hp hf h
    refine ⟨m, ?_, .inr ?_⟩
    · rw [hprinted.canonical, String.toList_ofList]
    · rw [hprinted.value, hprinted.double, hf]

/-- One text for equal numbers, and only for them. -/
theorem canonicalNumber_eq_iff (hp : host.Prints) {n m : Number} (hn : n.InRange) (hm : m.InRange)
    {t u : String} (ht : canonicalNumber host n = .ok t) (hu : canonicalNumber host m = .ok u) :
    t = u ↔ n.toRat = m.toRat := by
  rw [← toRat_asF64 hn ht, ← toRat_asF64 hm hu]
  have ht := canonicalNumber_of_ok ht
  have hu := canonicalNumber_of_ok hu
  have hzero₁ := canonicalNumber_eq_zero_iff hp ht
  have hzero₂ := canonicalNumber_eq_zero_iff hp hu
  constructor
  · intro htu
    by_cases hf : n.asF64.isZero = true
    · have hg : m.asF64.isZero = true := hzero₂.1 (htu ▸ hzero₁.2 hf)
      rw [F64.toRat_of_isZero hf, F64.toRat_of_isZero hg]
    · have hg : ¬ m.asF64.isZero = true := fun hg => hf (hzero₁.1 (htu ▸ hzero₂.2 hg))
      obtain ⟨p, m₁, hprinted₁⟩ := exists_printed hp (Bool.eq_false_iff.2 hf) ht
      obtain ⟨q, m₂, hprinted₂⟩ := exists_printed hp (Bool.eq_false_iff.2 hg) hu
      rw [← hprinted₁.read, ← hprinted₂.read, htu]
  · intro hvalue
    by_cases hf : n.asF64.isZero = true
    · have hg : m.asF64.isZero = true :=
        isZero_iff.2 (hvalue ▸ F64.toRat_of_isZero hf)
      rw [hzero₁.2 hf, hzero₂.2 hg]
    · rw [F64.eq_of_toRat_eq (Bool.eq_false_iff.2 hf) hvalue, hu, Except.ok.injEq] at ht
      exact ht.symm

/-! ## Reading the text again -/

/-- Not an integer of the range serde keeps as integers that is outside the domain of `canonical`. -/
def Rereadable (host : Host) (n : Number) : Prop :=
  n.asF64.isZero = true ∨
    let q := Decimal.read (host.floatText n.asF64).toList
    ¬ (q.den = 1 ∧ 2 ^ 53 ≤ |q| ∧ -2 ^ 63 ≤ q ∧ q < 2 ^ 64)

theorem tokenRaw_plain {m : Numeral} (h : m.plain = true) : tokenRaw m.text =
    if m.negative then
      if digits m.whole = 0 then .f64 (F64.build true 0 (-1074))
      else if digits m.whole ≤ 2 ^ 63 then .i64 (-(digits m.whole : Int))
      else .f64 (F64.ofRat m.value)
    else if digits m.whole < 2 ^ 64 then .u64 (digits m.whole)
    else .f64 (F64.ofRat m.value) := by
  have hunsigned := m.unsigned_of_plain h
  have hall := m.all_unsigned_iff.2 h
  rw [tokenRaw, m.dropWhile_minus_text]
  rw [if_pos hall, hunsigned, Numeral.value, Numeral.magnitude_of_plain h]
  simp only [m.head?_text]
  cases m.negative <;> simp

theorem tokenRaw_not_plain {m : Numeral} (h : m.plain = false) :
    tokenRaw m.text = .f64 (F64.ofToken m.text) := by
  have hall : ¬ m.unsigned.all isDigit = true := by
    rw [m.all_unsigned_iff, h]
    simp
  rw [tokenRaw, m.dropWhile_minus_text]
  rw [if_neg hall]

theorem canonicalNumber_int {i : Int} (h : i.natAbs < 2 ^ 53) :
    canonicalNumber host (.int i) = canonicalNumber host (.float (F64.ofInt i)) := by
  have habs : (F64.ofInt i).abs ≤ 9007199254740991 := by
    rw [← F64.abs_toRat, F64.toRat_ofInt h, ← Int.cast_abs, Int.abs_eq_natAbs]
    have hle : i.natAbs ≤ 9007199254740991 := by omega
    exact_mod_cast hle
  have hint : ¬ ((Number.int i).isInt &&
      decide ((Number.int i).asF64.abs > 9007199254740991)) = true := by
    simpa [Number.isInt, Number.asF64] using habs
  have hfloat : ¬ ((Number.float (F64.ofInt i)).isInt &&
      decide ((Number.float (F64.ofInt i)).asF64.abs > 9007199254740991)) = true := by
    simp [Number.isInt]
  rw [canonicalNumber, canonicalNumber, if_neg hint, if_neg hfloat]
  rfl

/-- The text of the number is read as a number with this text. -/
def Rereads (host : Host) (t : String) : Prop :=
  ∃ w : Number, strict (tokenRaw t.toList) = .ok (.num w) ∧ canonicalNumber host w = .ok t

theorem rereads_int {f : F64} {t : String} (h : canonicalNumber host (.float f) = .ok t) {i : Int}
    (hr : (Number.int i).InRange) (hf : F64.ofRat i = f)
    (hread : strict (tokenRaw t.toList) = .ok (.int i)) :
    Rereads host t ↔ i.natAbs < 2 ^ 53 := by
  constructor
  · rintro ⟨w, hw, hcanonical⟩
    rw [hread, Except.ok.injEq] at hw
    obtain rfl : Number.int i = w := Value.num.inj hw
    exact natAbs_lt_of_ok hr hcanonical
  · intro hi
    refine ⟨.int i, hread, ?_⟩
    rw [canonicalNumber_int hi, ← F64.ofRat_intCast, hf, h]

theorem rereads_float {f : F64} {t : String} (h : canonicalNumber host (.float f) = .ok t)
    (hread : tokenRaw t.toList = .f64 f) : Rereads host t :=
  ⟨.float f, by rw [hread]; rfl, h⟩

theorem Printed.not_plain {f : F64} (hf : f.isZero = false) {t : String} {p m : Numeral}
    (h : Printed host f t p m) (hm : m.plain = false) : ¬ (p.value.den = 1 ∧ 2 ^ 53 ≤ |p.value| ∧
      -2 ^ 63 ≤ p.value ∧ p.value < 2 ^ 64) := by
  rintro ⟨hden, hlow, h₁, h₂⟩
  obtain ⟨ds, point, hd, hplain⟩ := h.plain
  have hlarge : |p.value| < 2 ^ 64 := by
    rw [abs_lt]
    constructor <;> linarith
  have hzero : (F64.ofRat p.value).isZero = false := by rw [h.double, hf]
  have hlow' := F64.two_pow_le_abs_ofRat hzero hlow
  have hhigh' := F64.abs_ofRat_le_two_pow hzero hlarge
  rw [h.double] at hlow' hhigh'
  have hsmall : (F64.ofRat (1 / 10 ^ 6)).abs ≤ 2 ^ 0 :=
    F64.abs_ofRat_le_two_pow (by decide +kernel) (by norm_num [abs_of_pos])
  have hplaced : Placed f := by
    constructor
    · exact hsmall.trans (le_trans (by norm_num) hlow')
    · exact hhigh'.trans_lt (by norm_num)
  have hintegral : ∃ k : Nat, p.magnitude = k := by
    refine ⟨p.value.num.natAbs, ?_⟩
    rw [← p.abs_value, Rat.abs_def, hden]
    simp
  have := hplain.2 ⟨hplaced, (hd.integral_iff h.magnitude).1 hintegral⟩
  rw [hm] at this
  cases this

theorem kept_iff {q : Rat} {i : Int} (hq : q = i) :
    (q.den = 1 ∧ 2 ^ 53 ≤ |q| ∧ -2 ^ 63 ≤ q ∧ q < 2 ^ 64) ↔
      2 ^ 53 ≤ i.natAbs ∧ -2 ^ 63 ≤ i ∧ i < 2 ^ 64 := by
  have hden : q.den = 1 := by rw [hq, Rat.den_intCast]
  have habs : |q| = (i.natAbs : Rat) := by
    rw [hq, ← Int.cast_abs, Int.abs_eq_natAbs]
    rfl
  rw [habs, hq]
  constructor
  · rintro ⟨-, h₁, h₂, h₃⟩
    exact ⟨by exact_mod_cast h₁, by exact_mod_cast h₂, by exact_mod_cast h₃⟩
  · rintro ⟨h₁, h₂, h₃⟩
    exact ⟨Rat.den_intCast i, by exact_mod_cast h₁, by exact_mod_cast h₂, by exact_mod_cast h₃⟩

theorem rereads_iff (hp : host.Prints) {f : F64} {t : String}
    (h : canonicalNumber host (.float f) = .ok t) :
    Rereads host t ↔ Rereadable host (.float f) := by
  by_cases hf : f.isZero = true
  · have ht : t = "0" := (canonicalNumber_eq_zero_iff hp h).2 hf
    have hread : strict (tokenRaw t.toList) = .ok (.int 0) := by
      rw [ht]
      rfl
    refine iff_of_true ⟨.int 0, hread, ?_⟩ (.inl hf)
    rw [canonicalNumber_int (by simp), F64.ofInt_zero, ht]
    exact canonicalNumber_zero rfl
  have hf : f.isZero = false := Bool.eq_false_iff.2 hf
  obtain ⟨p, m, hprinted⟩ := exists_printed hp hf h
  have hvalue : Decimal.read (host.floatText f).toList = p.value := by
    rw [hprinted.text, String.toList_ofList, p.read_text]
  have hright : Rereadable host (.float f) ↔ ¬ (p.value.den = 1 ∧ 2 ^ 53 ≤ |p.value| ∧
      -2 ^ 63 ≤ p.value ∧ p.value < 2 ^ 64) := by
    rw [Rereadable]
    simp only [Number.asF64, hf, hvalue, Bool.false_eq_true, false_or]
  have htext : t.toList = m.text := by rw [hprinted.canonical, String.toList_ofList]
  have hdouble : F64.ofRat m.value = f := by rw [hprinted.value, hprinted.double]
  rw [hright]
  cases hm : m.plain with
  | false =>
    refine iff_of_true (rereads_float h ?_) (hprinted.not_plain hf hm)
    have hzero : (F64.ofRat (Decimal.read m.text)).isZero = false := by
      rw [m.read_text, hdouble]
      exact hf
    rw [htext, tokenRaw_not_plain hm, F64.ofToken_eq hzero, m.read_text, hdouble]
  | true =>
    have habs : |p.value| = digits m.whole := by
      rw [← hprinted.value, m.abs_value, Numeral.magnitude_of_plain hm]
    have hraw := tokenRaw_plain hm
    rw [← htext, hdouble] at hraw
    have hpos : digits m.whole ≠ 0 := by
      intro hzero
      apply hprinted.magnitude
      rw [← p.abs_value, habs, hzero, Nat.cast_zero]
    cases hneg : m.negative with
    | true =>
      have hq : p.value = ((-(digits m.whole : Int) : Int) : Rat) := by
        rw [← hprinted.value, Numeral.value, hneg, if_pos rfl, Numeral.magnitude_of_plain hm]
        simp
      have hf' : F64.ofRat ((-(digits m.whole : Int) : Int) : Rat) = f := by
        rw [← hq, hprinted.double]
      rw [hneg, if_pos rfl, if_neg hpos] at hraw
      rw [kept_iff hq]
      by_cases hrange : digits m.whole ≤ 2 ^ 63
      · rw [if_pos hrange] at hraw
        rw [rereads_int h (by simp only [Number.InRange]; omega) hf' (by rw [hraw]; rfl)]
        omega
      · rw [if_neg hrange] at hraw
        exact iff_of_true (rereads_float h hraw) (by omega)
    | false =>
      have hq : p.value = ((digits m.whole : Int) : Rat) := by
        rw [← hprinted.value, Numeral.value, hneg, if_neg (by simp), Numeral.magnitude_of_plain hm]
        simp
      have hf' : F64.ofRat ((digits m.whole : Int) : Rat) = f := by
        rw [← hq, hprinted.double]
      rw [hneg, if_neg (by simp)] at hraw
      rw [kept_iff hq]
      by_cases hrange : digits m.whole < 2 ^ 64
      · rw [if_pos hrange] at hraw
        by_cases hsigned : digits m.whole > 2 ^ 63 - 1
        · refine iff_of_false ?_ (by omega)
          rintro ⟨w, hw, -⟩
          rw [hraw, strict, if_pos hsigned] at hw
          cases hw
        · rw [rereads_int h (by simp only [Number.InRange]; omega) hf'
            (by rw [hraw, strict, if_neg hsigned])]
          omega
      · rw [if_neg hrange] at hraw
        exact iff_of_true (rereads_float h hraw) (by omega)

end number

end Identity

end StateDrivenAgent
