import StateDrivenAgent.Json.Document
import StateDrivenAgent.Python.Context
import StateDrivenAgent.Verify.Numbers

/-!
# The source of a summary in two runtimes

`python_json` escapes every character outside ASCII, as `json.dumps` does unless it is told not to;
the reference agent does tell it. The numbers agree (`pythonNumber_eq`), by way of the two digits
bounds of the point (`abs_ofRat_pow_le_iff`), and so do the texts of values all of ASCII
(`pythonJson_sortJson`). A text with any other character differs, since the text of `python_json` is
all ASCII.
-/

namespace StateDrivenAgent

open Text

/-! ## Numbers -/

open Decimal

theorem digits_singleton {c : Char} (h : isDigit c = true) :
    digits [c] ≤ 9 ∧ (c ≠ '0' → 1 ≤ digits [c]) := by
  simp only [isDigit, Bool.and_eq_true, decide_eq_true_eq, Char.le_def,
    UInt32.le_iff_toNat_le] at h
  have hlow : 48 ≤ c.toNat := h.1
  have hhigh : c.toNat ≤ 57 := h.2
  have hval : digits [c] = c.toNat - 48 := by simp [digits, Nat.ofDigitChars_cons]
  refine ⟨by omega, fun hc => ?_⟩
  have hne : c.toNat ≠ 48 := fun h48 => hc (by rw [← Char.ofNat_toNat c, h48])
  omega

theorem digits_lt {ds : List Char} (h : AllDigits ds) : digits ds < 10 ^ ds.length := by
  induction ds with
  | nil => decide
  | cons c cs ih =>
    have hc := (digits_singleton (h c (by simp))).1
    have hcs := ih fun d hd => h d (List.mem_cons_of_mem _ hd)
    rw [← List.singleton_append, digits_append, List.singleton_append, List.length_cons, pow_succ]
    have hmul := Nat.mul_le_mul_right (10 ^ cs.length) hc
    omega

theorem le_digits {ds : List Char} (h : AllDigits ds) (hne : ds ≠ []) (hhead : ds.head? ≠ some '0') :
    10 ^ (ds.length - 1) ≤ digits ds := by
  obtain ⟨c, cs, rfl⟩ := List.exists_cons_of_ne_nil hne
  have hc := (digits_singleton (h c (by simp))).2 fun hc => hhead (by rw [hc, List.head?_cons])
  rw [← List.singleton_append, digits_append, List.singleton_append, List.length_cons,
    Nat.add_sub_cancel]
  have hmul := Nat.mul_le_mul_right (10 ^ cs.length) hc
  omega

section decomposed
variable {p : Numeral} {ds : List Char} {point : Int}

theorem Decomposed.lt_pow (hd : Decomposed p ds point) : p.magnitude < 10 ^ point := by
  have hlt : (digits ds : Rat) < 10 ^ (ds.length : Int) := by
    rw [zpow_natCast]
    exact_mod_cast digits_lt hd.all
  calc p.magnitude = digits ds * 10 ^ (point - ds.length) := hd.value
    _ < 10 ^ (ds.length : Int) * 10 ^ (point - ds.length) :=
      mul_lt_mul_of_pos_right hlt (by positivity)
    _ = 10 ^ point := by
      rw [← zpow_add₀ (by norm_num)]
      congr 1
      omega

theorem Decomposed.pow_le (hd : Decomposed p ds point) (hp : p.magnitude ≠ 0) :
    10 ^ (point - 1) ≤ p.magnitude := by
  have hlen := hd.length_pos
  have hle : (10 : Rat) ^ ((ds.length : Int) - 1) ≤ digits ds := by
    rw [show (ds.length : Int) - 1 = ((ds.length - 1 : Nat) : Int) by omega, zpow_natCast]
    exact_mod_cast le_digits hd.all hd.ne (hd.head hp)
  calc (10 : Rat) ^ (point - 1) = 10 ^ ((ds.length : Int) - 1) * 10 ^ (point - ds.length) := by
        rw [← zpow_add₀ (by norm_num)]
        congr 1
        omega
    _ ≤ digits ds * 10 ^ (point - ds.length) := mul_le_mul_of_nonneg_right hle (by positivity)
    _ = p.magnitude := hd.value.symm

theorem Decomposed.le_nine (hd : Decomposed p ds point) (hlen : ds.length = 1) :
    p.magnitude ≤ 9 * 10 ^ (point - 1) := by
  obtain ⟨c, rfl⟩ := List.length_eq_one_iff.1 hlen
  have hc : (digits [c] : Rat) ≤ 9 := by
    exact_mod_cast (digits_singleton (hd.all c (by simp))).1
  rw [hd.value, hlen, Nat.cast_one]
  exact mul_le_mul_of_nonneg_right hc (by positivity)

end decomposed

namespace Python

open Identity

section repr
variable {host : Host}

/-- The numeral a nonzero double is printed as, and its digits. -/
structure Digits (host : Host) (f : F64) (p : Numeral) : Prop where
  text : host.floatText f = .ofList p.text
  double : F64.ofRat p.value = f
  magnitude : p.magnitude ≠ 0
  decomposed : Decomposed p (dtoa host f).1 (dtoa host f).2

theorem exists_digits (hp : host.Prints) {f : F64} (hf : f.isZero = false) :
    ∃ p, Digits host f p := by
  obtain ⟨p, htext, h₁, h₂, hdouble⟩ := hp f hf
  have hmag := magnitude_ne_zero hf hdouble
  have hdtoa : dtoa host f = decimalParts (.ofList p.unsigned) := by
    rw [dtoa, htext, String.toList_ofList, p.dropWhile_minus_text]
  refine ⟨p, htext, hdouble, hmag, ?_⟩
  rw [hdtoa]
  exact decimalParts_unsigned h₁ h₂

theorem Digits.negative {f : F64} {p : Numeral} (hf : f.isZero = false) (h : Digits host f p) :
    p.negative = f.negative := by
  have hpos : 0 < p.magnitude := lt_of_le_of_ne p.magnitude_nonneg h.magnitude.symm
  have hsign := F64.negative_ofRat (by rw [h.double, hf])
  rw [h.double] at hsign
  rw [hsign, Numeral.value]
  cases p.negative with
  | false => simp [hpos.le]
  | true => simp [hpos]

/-- A power of ten whose double is larger than those of all smaller numbers of one digit. -/
structure Threshold (k : Int) : Prop where
  range : -307 ≤ k ∧ k ≤ 308
  power : (F64.ofRat (10 ^ k)).isZero = false
  nine : (F64.ofRat (9 * 10 ^ (k - 1))).isZero = false
  lt : (F64.ofRat (9 * 10 ^ (k - 1))).abs < (F64.ofRat (10 ^ k)).abs

/-- The digits tell on which side of a power of ten a double lies, as a comparison of doubles. -/
theorem abs_ofRat_pow_le_iff (hs : Shortest host) {f : F64} (hf : f.isZero = false) {p : Numeral}
    (h : Digits host f p) {k : Int} (hk : Threshold k) :
    (F64.ofRat (10 ^ k)).abs ≤ f.abs ↔ k < (dtoa host f).2 := by
  have hd := h.decomposed
  set point := (dtoa host f).2
  constructor
  · intro hle
    by_contra hpoint
    -- below the power, and not below its double: the double of the power, which has one digit
    have hpoint : point ≤ k := not_lt.1 hpoint
    have hbelow : |p.value| ≤ |(10 : Rat) ^ k| := by
      rw [p.abs_value, abs_of_pos (by positivity)]
      exact hd.lt_pow.le.trans (zpow_le_zpow_right₀ (by norm_num) hpoint)
    have habs := F64.abs_ofRat_mono hbelow hk.power
    rw [h.double] at habs
    have hone := hs f hf k hk.range.1 hk.range.2 (le_antisymm hle habs)
    have hdigit : |p.value| ≤ |9 * (10 : Rat) ^ (k - 1)| := by
      rw [p.abs_value, abs_of_pos (by positivity)]
      refine (hd.le_nine hone).trans (mul_le_mul_of_nonneg_left ?_ (by norm_num))
      exact zpow_le_zpow_right₀ (by norm_num) (by omega)
    have hless := F64.abs_ofRat_mono hdigit hk.nine
    rw [h.double] at hless
    exact absurd (hle.trans hless) (not_le.2 hk.lt)
  · intro hpoint
    have habove : |(10 : Rat) ^ k| ≤ |p.value| := by
      rw [p.abs_value, abs_of_pos (by positivity)]
      exact (zpow_le_zpow_right₀ (by norm_num) (by omega)).trans (hd.pow_le h.magnitude)
    have hle := F64.abs_ofRat_mono habove (by rw [h.double, hf])
    rwa [h.double] at hle

/-- The place of the point tells whether a double lies between two powers of ten. -/
theorem between_iff (hs : Shortest host) {f : F64} (hf : f.isZero = false) {p : Numeral}
    (h : Digits host f p) {low high : Int} (hlow : Threshold low) (hhigh : Threshold high) :
    ((F64.ofRat (10 ^ low)).abs ≤ f.abs ∧ f.abs < (F64.ofRat (10 ^ high)).abs) ↔
      (low < (dtoa host f).2 ∧ (dtoa host f).2 ≤ high) := by
  have hbelow := (abs_ofRat_pow_le_iff hs hf h hhigh).not
  rw [not_le, not_lt] at hbelow
  rw [abs_ofRat_pow_le_iff hs hf h hlow, hbelow]

theorem placed_iff (hs : Shortest host) {f : F64} (hf : f.isZero = false) {p : Numeral}
    (h : Digits host f p) :
    ((F64.ofRat (1 / 10 ^ 4)).abs ≤ f.abs ∧ f.abs < 10 ^ 16) ↔
      (-4 < (dtoa host f).2 ∧ (dtoa host f).2 ≤ 16) := by
  have hlow : (10 : Rat) ^ (-4 : Int) = 1 / 10 ^ 4 := by norm_num
  have hlow' : 9 * (10 : Rat) ^ (-4 - 1 : Int) = 9 / 10 ^ 5 := by norm_num
  have hhigh : (10 : Rat) ^ (16 : Int) = 10 ^ 16 := by norm_num
  have hhigh' : 9 * (10 : Rat) ^ (16 - 1 : Int) = 9 * 10 ^ 15 := by norm_num
  have h₁ : Threshold (-4) := ⟨by omega, by rw [hlow]; decide +kernel, by rw [hlow']; decide +kernel,
    by rw [hlow, hlow']; decide +kernel⟩
  have h₂ : Threshold 16 := ⟨by omega, by rw [hhigh]; decide +kernel, by rw [hhigh']; decide +kernel,
    by rw [hhigh, hhigh']; decide +kernel⟩
  have hexact : (F64.ofRat (10 ^ 16)).abs = 10 ^ 16 := by decide +kernel
  have hbetween := between_iff hs hf h h₁ h₂
  rwa [hlow, hhigh, hexact] at hbetween

/-- `python_number` writes a number as Python does. -/
theorem pythonNumber_eq (hp : host.Prints) (hs : Shortest host) (n : Number) :
    pythonNumber host n = numberRepr host n := by
  cases n with
  | int i => rfl
  | float f =>
    rw [numberRepr, pythonNumber, floatRepr]
    cases hf : f.isZero with
    | true =>
      dsimp only
      rw [if_pos rfl, if_pos rfl]
      cases f.negative <;> rfl
    | false =>
      obtain ⟨p, h⟩ := exists_digits hp hf
      have hsign : (if startsWith (host.floatText f) "-" = true then "-" else "") =
          if f.negative = true then "-" else "" := by
        rw [h.text, startsWith_minus, h.negative hf]
      dsimp only
      rw [if_neg Bool.false_ne_true, if_neg Bool.false_ne_true, hsign]
      have hplaced := placed_iff hs hf h
      rw [dtoa] at hplaced ⊢
      rcases hparts : decimalParts (.ofList ((host.floatText f).toList.dropWhile (· = '-'))) with
        ⟨digits, point⟩
      rw [hparts] at hplaced
      dsimp only at hplaced ⊢
      by_cases hin : -4 < point ∧ point ≤ 16
      · rw [if_pos hin, if_pos (hplaced.2 hin)]
      · rw [if_neg hin, if_neg (mt hplaced.1 hin)]
        by_cases hneg : point - 1 < 0
        · rw [if_pos hneg, if_neg (show ¬ 0 ≤ point - 1 by omega)]
        · rw [if_neg hneg, if_pos (show 0 ≤ point - 1 by omega)]

end repr

/-! ## Characters of a joined text -/

end Python

theorem joinWith_cons_cons (sep x y : String) (xs : List String) :
    (joinWith sep (x :: y :: xs)).toList =
      x.toList ++ sep.toList ++ (joinWith sep (y :: xs)).toList := by
  rw [joinWith, String.intercalate_cons_cons]
  simp [joinWith]

theorem mem_joinWith {sep : String} {c : Char} {xs : List String}
    (h : c ∈ (joinWith sep xs).toList) : c ∈ sep.toList ∨ ∃ x ∈ xs, c ∈ x.toList := by
  induction xs with
  | nil => simp [joinWith] at h
  | cons x xs ih =>
    cases xs with
    | nil =>
      have hx : joinWith sep [x] = x := by simp [joinWith]
      rw [hx] at h
      exact .inr ⟨x, by simp, h⟩
    | cons y ys =>
      rw [joinWith_cons_cons, List.mem_append, List.mem_append] at h
      rcases h with (h | h) | h
      · exact .inr ⟨x, by simp, h⟩
      · exact .inl h
      · rcases ih h with h | ⟨z, hz, h⟩
        · exact .inl h
        · exact .inr ⟨z, List.mem_cons_of_mem _ hz, h⟩

theorem mem_joinWith_of_mem {sep : String} {c : Char} {xs : List String} {x : String} (hx : x ∈ xs)
    (h : c ∈ x.toList) : c ∈ (joinWith sep xs).toList := by
  induction xs with
  | nil => cases hx
  | cons z xs ih =>
    cases xs with
    | nil =>
      obtain rfl : x = z := by simpa using hx
      simpa [joinWith] using h
    | cons y ys =>
      rw [joinWith_cons_cons, List.mem_append, List.mem_append]
      rcases List.mem_cons.1 hx with rfl | hx
      · exact .inl (.inl h)
      · exact .inr (ih hx)

theorem joinWith_length (sep : String) {xs : List String} (h : xs ≠ []) :
    (joinWith sep xs).toList.length + sep.toList.length =
      (xs.map fun x => x.toList.length + sep.toList.length).sum := by
  induction xs with
  | nil => exact absurd rfl h
  | cons x xs ih =>
    cases xs with
    | nil => simp [joinWith]
    | cons y ys =>
      have hrest := ih (by simp)
      rw [joinWith_cons_cons, List.map_cons, List.sum_cons, ← hrest]
      simp only [List.length_append]
      omega

/-! ## Values all of ASCII -/

def EveryChar (P : Char → Prop) (s : String) : Prop := ∀ c ∈ s.toList, P c

instance (P : Char → Prop) [DecidablePred P] : DecidablePred (EveryChar P) :=
  fun s => decidable_of_iff (s.toList.all fun c => P c) (by simp [EveryChar])

section EveryChar

variable {P : Char → Prop}

theorem everyChar_append {s t : String} : EveryChar P (s ++ t) ↔ EveryChar P s ∧ EveryChar P t := by
  simp only [EveryChar, String.toList_append, List.mem_append]
  exact ⟨fun h => ⟨fun c hc => h c (.inl hc), fun c hc => h c (.inr hc)⟩,
    fun h c hc => hc.elim (h.1 c) (h.2 c)⟩

theorem everyChar_ofList {cs : List Char} : EveryChar P (.ofList cs) ↔ ∀ c ∈ cs, P c := by
  rw [EveryChar, String.toList_ofList]

theorem everyChar_joinWith {sep : String} {xs : List String} (hsep : EveryChar P sep)
    (h : ∀ x ∈ xs, EveryChar P x) : EveryChar P (joinWith sep xs) := by
  intro c hc
  rcases mem_joinWith hc with hc | ⟨x, hx, hc⟩
  · exact hsep c hc
  · exact h x hx c hc

end EveryChar

def Ascii (s : String) : Prop := ∀ c ∈ s.toList, c.toNat ≤ 0x7f

instance : DecidablePred Ascii :=
  inferInstanceAs (DecidablePred (EveryChar fun c => c.toNat ≤ 0x7f))

theorem ascii_append {s t : String} : Ascii (s ++ t) ↔ Ascii s ∧ Ascii t := everyChar_append

theorem ascii_ofList {cs : List Char} : Ascii (.ofList cs) ↔ ∀ c ∈ cs, c.toNat ≤ 0x7f :=
  everyChar_ofList

theorem ascii_joinWith {sep : String} {xs : List String} (hsep : Ascii sep)
    (h : ∀ x ∈ xs, Ascii x) : Ascii (joinWith sep xs) := everyChar_joinWith hsep h

theorem hexDigit_ascii (n : Nat) : (hexDigit n).toNat ≤ 0x7f := by
  by_cases h : n < 16
  · have hall : ∀ n < 16, (hexDigit n).toNat ≤ 0x7f := by decide
    exact hall n h
  · have hnone : "0123456789abcdef".toList[n]? = none := List.getElem?_eq_none (not_lt.1 h)
    rw [hexDigit, List.getD_eq_getElem?_getD, hnone]
    decide

/-- Inside ASCII the two ways to escape agree. -/
theorem pythonEscape_of_ascii {c : Char} (h : c.toNat ≤ 0x7f) :
    Tools.pythonEscape c = escapeChar c := by
  rw [Tools.pythonEscape, escapeChar]
  iterate 7 refine if_congr Iff.rfl rfl ?_
  have hhigh : ¬ 0x7f < c.toNat := not_lt.2 h
  rw [decide_eq_false hhigh, Bool.or_false]
  by_cases hlow : c.toNat < 32
  · have hunit : utf16 (.ofList [c]) = [c.toNat] := by
      have hsmall : c.toNat < 0x10000 := by omega
      rw [utf16, String.toList_ofList, List.flatMap_cons, if_pos hsmall]
      rfl
    have hzero : c.toNat / 4096 % 16 = 0 ∧ c.toNat / 256 % 16 = 0 ∧
        c.toNat / 16 % 16 = c.toNat / 16 := by omega
    rw [if_pos (decide_eq_true hlow), if_pos hlow, hunit, List.flatMap_cons, List.flatMap_nil,
      List.append_nil, Tools.hexUnit, hzero.1, hzero.2.1, hzero.2.2]
    rfl
  · rw [if_neg (by simpa using hlow), if_neg hlow]

theorem pythonEscape_ascii (c : Char) : ∀ d ∈ Tools.pythonEscape c, d.toNat ≤ 0x7f := by
  intro d hd
  rw [Tools.pythonEscape] at hd
  split_ifs at hd with _ _ _ _ _ _ _ hcontrol
  iterate 7
    · simp only [List.mem_cons, List.not_mem_nil, or_false] at hd
      rcases hd with rfl | rfl <;> decide
  · obtain ⟨n, -, hd⟩ := List.mem_flatMap.1 hd
    simp only [Tools.hexUnit, List.mem_cons, List.not_mem_nil, or_false] at hd
    rcases hd with rfl | rfl | rfl | rfl | rfl | rfl
    · decide
    · decide
    all_goals exact hexDigit_ascii _
  · rw [Bool.or_eq_true, decide_eq_true_eq, decide_eq_true_eq] at hcontrol
    rw [List.mem_singleton.1 hd]
    omega

theorem pythonJsonString_ascii (s : String) : Ascii (Tools.pythonJsonString s) := by
  rw [Tools.pythonJsonString, ascii_ofList]
  intro c hc
  simp only [List.cons_append, List.mem_cons, List.mem_append, List.mem_flatMap,
    List.not_mem_nil, or_false] at hc
  rcases hc with rfl | ⟨d, -, hc⟩ | rfl
  · decide
  · exact pythonEscape_ascii d c hc
  · decide

theorem pythonJsonString_of_ascii {s : String} (h : Ascii s) :
    Tools.pythonJsonString s = Python.encodeString s := by
  rw [Tools.pythonJsonString, Python.encodeString,
    List.flatMap_congr fun c hc => pythonEscape_of_ascii (h c hc)]

theorem escapeChar_of_not_ascii {c : Char} (h : ¬ c.toNat ≤ 0x7f) : escapeChar c = [c] := by
  rw [escapeChar]
  split_ifs with h₁ h₂ h₃ h₄ h₅ h₆ h₇ h₈
  · exact absurd (by rw [h₁]; decide) h
  · exact absurd (by rw [h₂]; decide) h
  · omega
  · omega
  · exact absurd (by rw [h₅]; decide) h
  · exact absurd (by rw [h₆]; decide) h
  · exact absurd (by rw [h₇]; decide) h
  · omega
  · rfl

theorem ascii_of_encodeString {s : String} (h : Ascii (Python.encodeString s)) : Ascii s := by
  rw [Python.encodeString, ascii_ofList] at h
  intro c hc
  by_contra hlarge
  refine hlarge (h c ?_)
  simp only [List.cons_append, List.mem_cons, List.mem_append, List.mem_flatMap]
  exact .inr (.inl ⟨c, hc, by rw [escapeChar_of_not_ascii hlarge]; simp⟩)

/-! ## Numbers are written in printable characters -/

/-- From the blank to the tilde. -/
def Printable (c : Char) : Prop := 0x20 ≤ c.toNat ∧ c.toNat < 0x7f

instance : DecidablePred Printable := fun c => by unfold Printable; infer_instance

theorem printable_digits {cs : List Char} (h : Decimal.AllDigits cs) : ∀ c ∈ cs, Printable c := by
  intro c hc
  have hdigit := h c hc
  simp only [Decimal.isDigit, Bool.and_eq_true, decide_eq_true_eq, Char.le_def,
    UInt32.le_iff_toNat_le] at hdigit
  have hlow : 48 ≤ c.toNat := hdigit.1
  have hhigh : c.toNat ≤ 57 := hdigit.2
  exact ⟨by omega, by omega⟩

theorem printable_natText (n : Nat) : EveryChar Printable (toString n) := by
  show EveryChar Printable (String.ofList (Nat.toDigits 10 n))
  rw [everyChar_ofList]
  exact printable_digits (Decimal.allDigits_toDigits n)

theorem printable_intText (i : Int) : EveryChar Printable (toString i) := by
  rw [EveryChar, Decimal.toString_int_toList]
  intro c hc
  rcases List.mem_append.1 hc with hc | hc
  · split at hc
    · rw [List.mem_singleton.1 hc]
      decide
    · cases hc
  · exact printable_digits (Decimal.allDigits_toDigits _) c hc

theorem printable_placePoint {digits whole : List Char} {point : Int}
    (hd : ∀ c ∈ digits, Printable c) (hw : ∀ c ∈ whole, Printable c) :
    ∀ c ∈ placePoint digits point whole, Printable c := by
  intro c hc
  rw [placePoint] at hc
  split_ifs at hc
  · simp only [List.cons_append, List.mem_cons, List.mem_append, List.mem_replicate] at hc
    rcases hc with rfl | rfl | ⟨-, rfl⟩ | hc
    · decide
    · decide
    · decide
    · exact hd c hc
  · simp only [List.mem_append, List.mem_replicate] at hc
    rcases hc with (hc | ⟨-, rfl⟩) | hc
    · exact hd c hc
    · decide
    · exact hw c hc
  · simp only [List.mem_append, List.mem_cons] at hc
    rcases hc with hc | rfl | hc
    · exact hd c (List.mem_of_mem_take hc)
    · decide
    · exact hd c (List.mem_of_mem_drop hc)

theorem printable_scientific {digits : List Char} (hd : ∀ c ∈ digits, Printable c) :
    ∀ c ∈ scientific digits, Printable c := by
  intro c hc
  rw [scientific] at hc
  split_ifs at hc
  · exact hd c hc
  · simp only [List.mem_append, List.mem_cons] at hc
    rcases hc with hc | rfl | hc
    · exact hd c (List.mem_of_mem_take hc)
    · decide
    · exact hd c (List.mem_of_mem_drop hc)

namespace Python

variable {host : Host}

theorem numberRepr_printable (hp : host.Prints) (n : Number) :
    EveryChar Printable (numberRepr host n) := by
  cases n with
  | int i => exact printable_intText i
  | float f =>
    have hsign : EveryChar Printable (if f.negative = true then "-" else "") := by split <;> decide
    rw [numberRepr, floatRepr]
    cases hf : f.isZero with
    | true => exact everyChar_append.2 ⟨hsign, by decide⟩
    | false =>
      obtain ⟨p, h⟩ := exists_digits hp hf
      have hdigits := printable_digits h.decomposed.all
      dsimp only
      rw [if_neg Bool.false_ne_true]
      by_cases hin : -4 < (dtoa host f).2 ∧ (dtoa host f).2 ≤ 16
      · rw [if_pos hin]
        have hwhole : EveryChar Printable (.ofList ['.', '0']) := by decide
        exact everyChar_append.2 ⟨hsign,
          everyChar_ofList.2 (printable_placePoint hdigits (everyChar_ofList.1 hwhole))⟩
      · rw [if_neg hin]
        have hmark : EveryChar Printable (if (dtoa host f).2 - 1 < 0 then "-" else "+") := by split <;> decide
        refine everyChar_append.2 ⟨everyChar_append.2 ⟨everyChar_append.2 ⟨everyChar_append.2 ⟨hsign,
          everyChar_ofList.2 (printable_scientific hdigits)⟩, by decide⟩, hmark⟩, ?_⟩
        split
        · exact everyChar_append.2 ⟨by decide, printable_natText _⟩
        · exact printable_natText _

theorem numberRepr_ascii (hp : host.Prints) (n : Number) : Ascii (numberRepr host n) := by
  intro c hc
  have hprintable := numberRepr_printable hp n c hc
  exact Nat.le_of_lt hprintable.2

/-! ## The two texts of a value -/

theorem pythonJsonItems_eq (items : List Value) :
    Tools.pythonJsonItems host items = items.map (Tools.pythonJson host) := by
  induction items with
  | nil => rfl
  | cons v vs ih => rw [Tools.pythonJsonItems, ih, List.map_cons]

theorem pythonJsonFields_eq (fields : List (String × Value)) :
    Tools.pythonJsonFields host fields =
      fields.map fun f => Tools.pythonJsonString f.1 ++ ": " ++ Tools.pythonJson host f.2 := by
  induction fields with
  | nil => rfl
  | cons f rest ih => rw [Tools.pythonJsonFields, ih, List.map_cons]

theorem sortItems_eq (items : List Value) :
    Context.sortItems items = items.map Context.sortJson := by
  induction items with
  | nil => rfl
  | cons v vs ih => rw [Context.sortItems, ih, List.map_cons]

theorem sortFields_eq (fields : List (String × Value)) :
    Context.sortFields fields = fields.map fun f => (f.1, Context.sortJson f.2) := by
  induction fields with
  | nil => rfl
  | cons f rest ih => rw [Context.sortFields, ih, List.map_cons]

theorem dumpsItems_eq (items : List Value) : dumpsItems host items = items.map (dumps host) := by
  induction items with
  | nil => rfl
  | cons v vs ih => rw [dumpsItems, ih, List.map_cons]

theorem dumpsFields_eq (fields : List (String × Value)) :
    dumpsFields host fields = fields.map fun f => (f.1, dumps host f.2) := by
  induction fields with
  | nil => rfl
  | cons f rest ih => rw [dumpsFields, ih, List.map_cons]

/-- The order of `sort_keys`. -/
def NameLe {α : Type} (a b : String × α) : Prop := a.1 ≤ b.1

instance {α : Type} : DecidableRel (@NameLe α) :=
  fun a b => inferInstanceAs (Decidable (a.1 ≤ b.1))

theorem dumps_obj (fields : List (String × Value)) : dumps host (.obj fields) =
    "\x7b" ++ joinWith ", " ((fields.insertionSort NameLe).map fun f =>
      encodeString f.1 ++ ": " ++ dumps host f.2) ++ "\x7d" := by
  have hsort : (fields.map fun f => (f.1, dumps host f.2)).insertionSort
      (fun a b => a.1 ≤ b.1) =
        (fields.insertionSort NameLe).map fun f => (f.1, dumps host f.2) :=
    (List.map_insertionSort NameLe _ (fun f => (f.1, dumps host f.2)) fields
      fun _ _ _ _ => Iff.rfl).symm
  rw [dumps, dumpsFields_eq, hsort, List.map_map]
  rfl

theorem pythonJson_obj (fields : List (String × Value)) :
    Tools.pythonJson host (Context.sortJson (.obj fields)) =
      "\x7b" ++ joinWith ", " ((fields.insertionSort NameLe).map fun f =>
        Tools.pythonJsonString f.1 ++ ": " ++ Tools.pythonJson host (Context.sortJson f.2)) ++
        "\x7d" := by
  have hsort : (fields.map fun f => (f.1, Context.sortJson f.2)).insertionSort
      (fun a b => a.1 ≤ b.1) =
        (fields.insertionSort NameLe).map fun f => (f.1, Context.sortJson f.2) :=
    (List.map_insertionSort NameLe _ (fun f => (f.1, Context.sortJson f.2)) fields
      fun _ _ _ _ => Iff.rfl).symm
  rw [Context.sortJson, sortFields_eq, hsort, Tools.pythonJson, pythonJsonFields_eq, List.map_map]
  rfl

/-- Inside ASCII the two writers agree. -/
theorem pythonJson_sortJson (hp : host.Prints) (hs : Shortest host) : ∀ v : Value,
    v.EveryText Ascii → Tools.pythonJson host (Context.sortJson v) = dumps host v := by
  intro v
  induction v using Value.induct_mem with
  | null => exact fun _ => rfl
  | bool b => exact fun _ => rfl
  | num n => exact fun _ => pythonNumber_eq hp hs n
  | str s => exact fun h => pythonJsonString_of_ascii h
  | arr items ih =>
    intro h
    rw [Value.EveryText, Value.everyTextItems_iff] at h
    rw [Context.sortJson, sortItems_eq, Tools.pythonJson, pythonJsonItems_eq, dumps, dumpsItems_eq,
      List.map_map]
    congr 3
    exact List.map_congr_left fun v hv => ih v hv (h v hv)
  | obj fields ih =>
    intro h
    rw [Value.EveryText, Value.everyTextFields_iff] at h
    rw [pythonJson_obj, dumps_obj]
    congr 3
    refine List.map_congr_left fun f hf => ?_
    have hmem : f ∈ fields := (List.perm_insertionSort _ _).mem_iff.1 hf
    rw [pythonJsonString_of_ascii (h f hmem).1, ih f hmem (h f hmem).2]

theorem pythonJson_ascii (hp : host.Prints) (hs : Shortest host) : ∀ v : Value,
    Ascii (Tools.pythonJson host v) := by
  intro v
  induction v using Value.induct_mem with
  | null =>
    have h : Ascii "null" := by decide
    exact h
  | bool b =>
    have h : Ascii (if b = true then "true" else "false") := by cases b <;> decide
    exact h
  | num n =>
    rw [Tools.pythonJson, pythonNumber_eq hp hs]
    exact numberRepr_ascii hp n
  | str s => exact pythonJsonString_ascii s
  | arr items ih =>
    rw [Tools.pythonJson, pythonJsonItems_eq]
    refine ascii_append.2 ⟨ascii_append.2 ⟨by decide, ascii_joinWith (by decide) ?_⟩, by decide⟩
    exact List.forall_mem_map.2 ih
  | obj fields ih =>
    rw [Tools.pythonJson, pythonJsonFields_eq]
    refine ascii_append.2 ⟨ascii_append.2 ⟨by decide, ascii_joinWith (by decide) ?_⟩, by decide⟩
    refine List.forall_mem_map.2 fun f hf => ?_
    exact ascii_append.2 ⟨ascii_append.2 ⟨pythonJsonString_ascii _, by decide⟩, ih f hf⟩

theorem everyText_of_dumps : ∀ v : Value, Ascii (dumps host v) → v.EveryText Ascii := by
  intro v
  induction v using Value.induct_mem with
  | null => exact fun _ => trivial
  | bool b => exact fun _ => trivial
  | num n => exact fun _ => trivial
  | str s => exact fun h => ascii_of_encodeString h
  | arr items ih =>
    intro h
    rw [dumps, dumpsItems_eq] at h
    rw [Value.EveryText, Value.everyTextItems_iff]
    intro v hv
    refine ih v hv fun c hc => ?_
    refine (ascii_append.1 (ascii_append.1 h).1).2 c ?_
    exact mem_joinWith_of_mem (List.mem_map.2 ⟨v, hv, rfl⟩) hc
  | obj fields ih =>
    intro h
    rw [dumps_obj] at h
    rw [Value.EveryText, Value.everyTextFields_iff]
    intro f hf
    have hmem : f ∈ fields.insertionSort NameLe := (List.perm_insertionSort _ _).mem_iff.2 hf
    have hfield : Ascii (encodeString f.1 ++ ": " ++ dumps host f.2) := by
      intro c hc
      refine (ascii_append.1 (ascii_append.1 h).1).2 c ?_
      exact mem_joinWith_of_mem (List.mem_map.2 ⟨f, hmem, rfl⟩) hc
    obtain ⟨hkey, hvalue⟩ := ascii_append.1 hfield
    exact ⟨ascii_of_encodeString (ascii_append.1 hkey).1, ih f hf hvalue⟩

/-! ## The length of a text -/

theorem dumps_obj_length {fields : List (String × Value)} (h : fields ≠ []) :
    (dumps host (.obj fields)).toList.length = (fields.map fun f =>
      (encodeString f.1).toList.length + (dumps host f.2).toList.length + 4).sum := by
  have hperm : (fields.insertionSort NameLe).Perm fields := List.perm_insertionSort _ _
  have hne : fields.insertionSort NameLe ≠ [] := fun hnil => h (by rw [hnil] at hperm; simpa using hperm)
  have hne' : ((fields.insertionSort NameLe).map fun f =>
      encodeString f.1 ++ ": " ++ dumps host f.2) ≠ [] := by simpa using hne
  have hjoin := joinWith_length ", " hne'
  have hsum := (hperm.map fun f =>
    (encodeString f.1).toList.length + (dumps host f.2).toList.length + 4).sum_eq
  rw [dumps_obj, ← hsum]
  rw [List.map_map] at hjoin
  have hmap : ((fun x : String => x.toList.length + ", ".toList.length) ∘ fun f : String × Value =>
      encodeString f.1 ++ ": " ++ dumps host f.2) = fun f : String × Value =>
      (encodeString f.1).toList.length + (dumps host f.2).toList.length + 4 := by
    funext f
    simp only [Function.comp_apply, String.toList_append, List.length_append]
    rw [show ": ".toList.length = 2 from rfl, show ", ".toList.length = 2 from rfl]
    omega
  rw [hmap] at hjoin
  simp only [String.toList_append, List.length_append]
  rw [← hjoin]
  rw [show ", ".toList.length = 2 from rfl, show "\x7b".toList.length = 1 from rfl,
    show "\x7d".toList.length = 1 from rfl]
  omega

theorem dumps_arr_length {items : List Value} (h : items ≠ []) :
    (dumps host (.arr items)).toList.length =
      (items.map fun v => (dumps host v).toList.length + 2).sum := by
  have hne : items.map (dumps host) ≠ [] := by simpa using h
  have hjoin := joinWith_length ", " hne
  rw [List.map_map] at hjoin
  rw [dumps, dumpsItems_eq]
  simp only [String.toList_append, List.length_append]
  rw [show ", ".toList.length = 2 from rfl] at hjoin
  rw [show "[".toList.length = 1 from rfl, show "]".toList.length = 1 from rfl]
  have hmap : ((fun x : String => x.toList.length + 2) ∘ dumps host) =
      fun v : Value => (dumps host v).toList.length + 2 := rfl
  rw [hmap] at hjoin
  omega

/-! ## The source text -/

/-- Without an empty list of tool calls both runtimes put the same fields on the wire. -/
theorem wireMessage_eq {m : MessageBody} (h : m.toolCalls ≠ some (.arr [])) :
    Context.wireMessage m = wirePayload m := by
  rw [Context.wireMessage, wirePayload]
  cases hcalls : m.toolCalls with
  | none => rfl
  | some v =>
    have hempty : (v.asArray.any List.isEmpty) = false := by
      cases v with
      | arr items =>
        cases items with
        | nil => exact absurd hcalls h
        | cons _ _ => rfl
      | _ => rfl
    simp only [Option.filter_some, hempty, Bool.not_false, Bool.and_true]

/-- An empty list of tool calls is left out by one runtime only. -/
theorem wire_of_empty {m : MessageBody} (h : m.toolCalls = some (.arr [])) :
    ∃ fields, fields ≠ [] ∧ Context.wireMessage m = .obj fields ∧
      wirePayload m = .obj (fields ++ [("tool_calls", .arr [])]) := by
  refine ⟨[("role", .str m.role)] ++ (m.content.map fun c => ("content", .str c)).toList ++
    (m.name.map fun n => ("name", .str n)).toList ++
    (m.toolCallId.map fun i => ("tool_call_id", .str i)).toList, by simp, ?_, ?_⟩
  · rw [Context.wireMessage, h]
    exact congrArg Value.obj (List.append_nil _)
  · rw [wirePayload, h]
    rfl

theorem wireMessage_shorter {m : MessageBody} (h : m.toolCalls = some (.arr [])) :
    (dumps host (Context.wireMessage m)).toList.length <
      (dumps host (wirePayload m)).toList.length := by
  obtain ⟨fields, hne, hwire, hpayload⟩ := wire_of_empty h
  rw [hwire, hpayload, dumps_obj_length hne, dumps_obj_length (by simp), List.map_append,
    List.sum_append, List.map_singleton, List.sum_singleton]
  omega

theorem wireMessage_length (m : MessageBody) :
    (dumps host (Context.wireMessage m)).toList.length ≤
      (dumps host (wirePayload m)).toList.length := by
  by_cases h : m.toolCalls = some (.arr [])
  · exact (wireMessage_shorter h).le
  · rw [wireMessage_eq h]

theorem wireMessage_ascii {m : MessageBody} (h : (wirePayload m).EveryText Ascii) :
    (Context.wireMessage m).EveryText Ascii := by
  by_cases hempty : m.toolCalls = some (.arr [])
  · obtain ⟨fields, -, hwire, hpayload⟩ := wire_of_empty hempty
    rw [hpayload, Value.EveryText, Value.everyTextFields_iff] at h
    rw [hwire, Value.EveryText, Value.everyTextFields_iff]
    exact fun f hf => h f (List.mem_append_left _ hf)
  · rwa [wireMessage_eq hempty]

/-- What the reference agent puts on the wire is in ASCII, and no list of tool calls is empty. -/
def Plain (m : MessageBody) : Prop :=
  (wirePayload m).EveryText Ascii ∧ m.toolCalls ≠ some (.arr [])

theorem wire_arr (history : List Message) :
    Tools.pythonJson host (.arr (history.map fun m => Context.sortJson
      (Context.wireMessage m.toMessageBody))) = Tools.pythonJson host (Context.sortJson
      (.arr (history.map fun m => Context.wireMessage m.toMessageBody))) := by
  rw [Context.sortJson, sortItems_eq, List.map_map]
  rfl

/-- Both runtimes summarise from one text exactly when the history is plain. -/
theorem source_text_eq_iff (hp : host.Prints) (hs : Shortest host) (goal : String)
    (history : List Message) (previous : Option String) :
    Context.sourceText host goal history previous = sourceText host goal history previous ↔
      ∀ m ∈ history, Plain m.toMessageBody := by
  have htext : Context.sourceText host goal history previous = sourceText host goal history previous ↔
      Tools.pythonJson host (Context.sortJson
        (.arr (history.map fun m => Context.wireMessage m.toMessageBody))) =
        dumps host (.arr (history.map fun m => wirePayload m.toMessageBody)) := by
    rw [Context.sourceText, sourceText, wire_arr]
    exact ⟨fun h => String.toList_injective (by
      simpa only [String.toList_append, List.append_cancel_left_eq] using congrArg String.toList h),
      fun h => by rw [h]⟩
  rw [htext]
  constructor
  · intro heq
    have hascii : ∀ m ∈ history, (wirePayload m.toMessageBody).EveryText Ascii := by
      have h := everyText_of_dumps _ (heq ▸ pythonJson_ascii hp hs _)
      rw [Value.EveryText, Value.everyTextItems_iff] at h
      exact List.forall_mem_map.1 h
    refine fun m hm => ⟨hascii m hm, fun hempty => ?_⟩
    have hwire : (Value.arr (history.map fun m => Context.wireMessage m.toMessageBody)).EveryText
        Ascii := by
      rw [Value.EveryText, Value.everyTextItems_iff]
      exact List.forall_mem_map.2 fun m hm => wireMessage_ascii (hascii m hm)
    have hne : history ≠ [] := List.ne_nil_of_mem hm
    rw [pythonJson_sortJson hp hs _ hwire] at heq
    -- the field that is left out makes the text shorter
    have hlength := congrArg (fun s : String => s.toList.length) heq
    rw [dumps_arr_length (by simpa using hne), dumps_arr_length (by simpa using hne), List.map_map,
      List.map_map] at hlength
    refine hlength.not_lt (List.sum_lt_sum _ _ (fun m _ => ?_) ⟨m, hm, ?_⟩)
    · exact Nat.add_le_add_right (wireMessage_length m.toMessageBody) 2
    · exact Nat.add_lt_add_right (wireMessage_shorter hempty) 2
  · intro hplain
    have hwire : (history.map fun m => Context.wireMessage m.toMessageBody) =
        history.map fun m => wirePayload m.toMessageBody :=
      List.map_congr_left fun m hm => wireMessage_eq (hplain m hm).2
    rw [hwire]
    refine pythonJson_sortJson hp hs _ ?_
    rw [Value.EveryText, Value.everyTextItems_iff]
    exact List.forall_mem_map.2 fun m hm => (hplain m hm).1

/-! ## A host that prints powers of ten with one digit -/

/-- The exponents from `-307` on. -/
def powers (n : Nat) : List Int := (List.range n).map fun i : Nat => (i : Int) - 307

theorem mem_powers {n : Nat} {k : Int} : k ∈ powers n ↔ -307 ≤ k ∧ k < n - 307 := by
  rw [powers, List.mem_map]
  constructor
  · rintro ⟨i, hi, rfl⟩
    rw [List.mem_range] at hi
    omega
  · intro hk
    refine ⟨(k + 307).toNat, ?_, by omega⟩
    rw [List.mem_range]
    omega

/-- The power of ten a double is nearest to. -/
@[irreducible] def powerOfTen (f : F64) : Option Int :=
  (powers 616).find? fun k => (F64.ofRat (10 ^ k)).abs = f.abs

def powerNumeral (negative : Bool) (k : Int) : Decimal.Numeral :=
  { negative, whole := ['1'], fraction := [], exponent := some (false, k), whole_ne := by simp
    whole_digits := Decimal.allDigits_toDigits 1, whole_lead := fun _ => rfl
    fraction_digits := Decimal.allDigits_nil }

def shortText (f : F64) : String :=
  match powerOfTen f with
  | some k => .ofList (powerNumeral f.negative k).text
  | none => exactHost.floatText f

def shortHost : Host := { exactHost with floatText := shortText }

theorem powerNumeral_magnitude (negative : Bool) (k : Int) :
    (powerNumeral negative k).magnitude = 10 ^ k := by
  show (Decimal.digits ['1'] : Rat) * 10 ^ (k - (([] : List Char).length : Int)) = 10 ^ k
  rw [show Decimal.digits ['1'] = 1 from rfl]
  simp

theorem powerOfTen_some {f : F64} {k : Int} (h : powerOfTen f = some k) :
    (-307 ≤ k ∧ k ≤ 308) ∧ (F64.ofRat (10 ^ k)).abs = f.abs := by
  unfold powerOfTen at h
  have hfound := List.find?_some h
  rw [decide_eq_true_eq] at hfound
  have hrange := mem_powers.1 (List.mem_of_find?_eq_some h)
  exact ⟨by omega, hfound⟩

theorem exists_powerOfTen {f : F64} {k : Int} (hk : -307 ≤ k ∧ k ≤ 308)
    (h : (F64.ofRat (10 ^ k)).abs = f.abs) : ∃ k', powerOfTen f = some k' := by
  rw [← Option.isSome_iff_exists]
  unfold powerOfTen
  rw [List.find?_isSome]
  refine ⟨k, mem_powers.2 (by omega), ?_⟩
  rwa [decide_eq_true_eq]

theorem ofRat_powerNumeral {f : F64} (hf : f.isZero = false) {k : Int}
    (h : (F64.ofRat (10 ^ k)).abs = f.abs) : F64.ofRat (powerNumeral f.negative k).value = f := by
  have hpow : (0 : Rat) < 10 ^ k := by positivity
  have hvalue : (powerNumeral f.negative k).value = if f.negative then -10 ^ k else 10 ^ k := by
    rw [Decimal.Numeral.value, powerNumeral_magnitude]
    rfl
  have habs : (F64.ofRat (powerNumeral f.negative k).value).abs = f.abs := by
    rw [hvalue]
    split
    · rw [F64.abs_ofRat_neg, h]
    · exact h
  have hzero : (F64.ofRat (powerNumeral f.negative k).value).isZero = false := by
    by_contra hz
    have hnull := F64.toRat_of_isZero (Bool.not_eq_false _ ▸ hz)
    have hpos := F64.abs_pos hf
    rw [← habs, ← F64.abs_toRat, hnull, abs_zero] at hpos
    exact lt_irrefl _ hpos
  have hneg : (F64.ofRat (powerNumeral f.negative k).value).negative = f.negative := by
    rw [F64.negative_ofRat hzero, hvalue]
    cases f.negative with
    | false => simpa using hpow.le
    | true => simpa using hpow
  refine F64.eq_of_toRat_eq hzero ?_
  rw [F64.toRat, F64.toRat, habs, hneg]

theorem shortHost_prints : shortHost.Prints := by
  intro f hf
  have htext : shortHost.floatText f = shortText f := rfl
  rw [htext, shortText]
  split
  next k hpower =>
    obtain ⟨hrange, habs⟩ := powerOfTen_some hpower
    refine ⟨powerNumeral f.negative k, rfl, ?_, ?_, ofRat_powerNumeral hf habs⟩
    · show -2 ^ 31 ≤ k
      omega
    · show k < 2 ^ 31
      omega
  next => exact exactHost_prints f hf

theorem shortHost_shortest : Shortest shortHost := by
  intro f hf k hlow hhigh h
  obtain ⟨k', hpower⟩ := exists_powerOfTen ⟨hlow, hhigh⟩ h
  obtain ⟨hrange, -⟩ := powerOfTen_some hpower
  have htext : shortHost.floatText f = .ofList (powerNumeral f.negative k').text := by
    show shortText f = _
    rw [shortText, hpower]
  have hexp : (powerNumeral f.negative k').exp = k' := rfl
  rw [dtoa, htext, String.toList_ofList, Decimal.Numeral.dropWhile_minus_text,
    decimalParts_eq _ (by rw [hexp]; omega) (by rw [hexp]; omega)]
  rfl

/-! ## Runs of both writers -/

def sampleMessage (content : String) : Message := { role := "user", content := some content }

theorem source_text_eq_plain : Context.sourceText shortHost "café" [sampleMessage "total 5"] none =
    sourceText shortHost "café" [sampleMessage "total 5"] none := by
  refine (source_text_eq_iff shortHost_prints shortHost_shortest _ _ _).2 ?_
  refine List.forall_mem_singleton.2 ⟨?_, by rintro ⟨⟩⟩
  have hrole : Ascii "user" := by decide
  have hcontent : Ascii "total 5" := by decide
  exact ⟨⟨by decide, hrole⟩, ⟨by decide, hcontent⟩, trivial⟩

/-- One accent in the history, and the texts differ. -/
theorem source_text_differs : ¬ ∀ (host : Host) (goal : String) (history : List Message)
    (previous : Option String), host.Prints → Shortest host →
    Context.sourceText host goal history previous = sourceText host goal history previous :=
  fun h => absurd (h shortHost "goal" [sampleMessage "é"] none shortHost_prints shortHost_shortest)
    (by decide +kernel)

end Python

end StateDrivenAgent
