import StateDrivenAgent.Json.Decimal
import StateDrivenAgent.Json.Double
import StateDrivenAgent.Json.Spelling

/-!
# Reading and printing numbers

What `serde_json` documents of the two functions of it the agent relies on. Reading a text without
white space reports the tree of the text, an integer token as `u64` or `i64` where it fits and any
other number as the nearest double, and fails below 127 levels (`Host.Reads`). Printing a nonzero
double gives a numeral that reads back as that double (`Host.Prints`, the feature
`float_roundtrip`).
-/

namespace StateDrivenAgent

/-- The double nearest to a token; a zero keeps the sign of the token. -/
def F64.ofToken (token : List Char) : F64 :=
  let f := F64.ofRat (Decimal.read token)
  if f.isZero && token.head? = some '-' then F64.build true 0 (-1074) else f

theorem F64.ofToken_eq {token : List Char} (h : (F64.ofRat (Decimal.read token)).isZero = false) :
    F64.ofToken token = F64.ofRat (Decimal.read token) := by
  rw [ofToken]
  simp only [h, Bool.false_and, Bool.false_eq_true, if_false]

/-- The event serde reports for a number token. -/
def tokenRaw (token : List Char) : Raw :=
  let unsigned := token.dropWhile (· = '-')
  let n := Decimal.digits unsigned
  if unsigned.all Decimal.isDigit then
    if token.head? = some '-' then
      if n = 0 then .f64 (F64.build true 0 (-1074))
      else if n ≤ 2 ^ 63 then .i64 (-n)
      else .f64 (F64.ofRat (-n))
    else if n < 2 ^ 64 then .u64 n
    else .f64 (F64.ofRat n)
  else .f64 (F64.ofToken token)

namespace Spelling

mutual

/-- The events serde reports for a text. -/
def raw : Spelling → Raw
  | null => .null
  | bool b => .bool b
  | num token => tokenRaw token
  | str s => .str s
  | arr items => .seq (rawItems items)
  | obj fields => .map (rawFields fields)

def rawItems : List Spelling → List Raw
  | [] => []
  | x :: xs => x.raw :: rawItems xs

def rawFields : List (String × Spelling) → List (String × Raw)
  | [] => []
  | (k, x) :: xs => (k, x.raw) :: rawFields xs

end

mutual

/-- The number of arrays and objects around the innermost value. -/
def depth : Spelling → Nat
  | arr items => depthItems items + 1
  | obj fields => depthFields fields + 1
  | _ => 0

def depthItems : List Spelling → Nat
  | [] => 0
  | x :: xs => max x.depth (depthItems xs)

def depthFields : List (String × Spelling) → Nat
  | [] => 0
  | (_, x) :: xs => max x.depth (depthFields xs)

end

mutual

/-- The tokens are JSON numbers, neither too large nor too small for a double. -/
def Grammatical : Spelling → Prop
  | num token => ∃ n : Decimal.Numeral, n.text = token ∧
      (n.value = 0 ∨ (F64.ofRat n.value).isZero = false)
  | arr items => GrammaticalItems items
  | obj fields => GrammaticalFields fields
  | _ => True

def GrammaticalItems : List Spelling → Prop
  | [] => True
  | x :: xs => x.Grammatical ∧ GrammaticalItems xs

def GrammaticalFields : List (String × Spelling) → Prop
  | [] => True
  | (_, x) :: xs => x.Grammatical ∧ GrammaticalFields xs

end

end Spelling

/-- `serde_json`'s reader on texts without white space; its recursion limit is 128. -/
structure Host.Reads (host : Host) : Prop where
  reads : ∀ x : Spelling, x.Grammatical → x.depth ≤ 127 →
    host.reader (.ofList x.text) = .ok x.raw
  limit : ∀ x : Spelling, x.Grammatical → 127 < x.depth →
    ∃ e, host.reader (.ofList x.text) = .error e

/-- `serde_json` prints a nonzero double as a numeral that reads back as that double. -/
def Host.Prints (host : Host) : Prop :=
  ∀ f : F64, f.isZero = false → ∃ n : Decimal.Numeral, host.floatText f = .ofList n.text ∧
    -2 ^ 31 ≤ n.exp ∧ n.exp < 2 ^ 31 ∧ F64.ofRat n.value = f

/-! ## Numerals as tokens -/

theorem isNumberChar_of_isDigit {c : Char} (h : Decimal.isDigit c = true) :
    isNumberChar c = true := by
  have hdigit : ('0' ≤ c && c ≤ '9') = true := h
  simp [isNumberChar, hdigit]

theorem isNumberChar_text (n : Decimal.Numeral) : ∀ c ∈ n.text, isNumberChar c = true := by
  have hexp : ∀ c ∈ Decimal.Numeral.exponentText n.exponent, isNumberChar c = true := by
    cases n.exponent with
    | none => simp [Decimal.Numeral.exponentText]
    | some e =>
      intro c hc
      rw [Decimal.Numeral.exponentText, Decimal.toString_int_toList] at hc
      simp only [List.mem_cons, List.mem_append] at hc
      rcases hc with rfl | hc | hc | hc
      · rfl
      · split at hc
        · rw [List.mem_singleton.1 hc]
          rfl
        · cases hc
      · split at hc
        · rw [List.mem_singleton.1 hc]
          rfl
        · cases hc
      · exact isNumberChar_of_isDigit (Decimal.allDigits_toDigits _ c hc)
  intro c hc
  rw [Decimal.Numeral.text, Decimal.Numeral.unsigned, Decimal.Numeral.fractionText] at hc
  simp only [List.mem_append] at hc
  rcases hc with hc | (hc | hc) | hc
  · split at hc
    · rw [List.mem_singleton.1 hc]
      rfl
    · cases hc
  · exact isNumberChar_of_isDigit (n.whole_digits c hc)
  · split at hc
    · cases hc
    · rcases List.mem_cons.1 hc with rfl | hc
      · rfl
      · exact isNumberChar_of_isDigit (n.fraction_digits c hc)
  · exact hexp c hc

namespace Spelling

mutual

theorem Grammatical.tokens : ∀ {x : Spelling}, x.Grammatical → x.Tokens
  | .null, _ | .bool _, _ | .str _, _ => trivial
  | .num token, h => by
    obtain ⟨n, rfl, -⟩ := h
    obtain ⟨c, cs, hcs, -⟩ := n.unsigned_head
    refine ⟨?_, isNumberChar_text n⟩
    rw [Decimal.Numeral.text, hcs]
    simp
  | .arr _, h => GrammaticalItems.tokens h
  | .obj _, h => GrammaticalFields.tokens h

theorem GrammaticalItems.tokens : ∀ {xs : List Spelling}, GrammaticalItems xs → TokensItems xs
  | [], _ => trivial
  | _ :: _, h => ⟨h.1.tokens, GrammaticalItems.tokens h.2⟩

theorem GrammaticalFields.tokens : ∀ {xs : List (String × Spelling)}, GrammaticalFields xs →
    TokensFields xs
  | [], _ => trivial
  | (_, _) :: _, h => ⟨h.1.tokens, GrammaticalFields.tokens h.2⟩

end

theorem grammaticalItems_iff {xs : List Spelling} :
    GrammaticalItems xs ↔ ∀ x ∈ xs, x.Grammatical := by
  induction xs with
  | nil => simp [GrammaticalItems]
  | cons x xs ih => simp [GrammaticalItems, ih]

theorem grammaticalFields_iff {xs : List (String × Spelling)} :
    GrammaticalFields xs ↔ ∀ f ∈ xs, f.2.Grammatical := by
  induction xs with
  | nil => simp [GrammaticalFields]
  | cons f xs ih => simp [GrammaticalFields, ih]

theorem depthItems_le_iff {xs : List Spelling} {n : Nat} :
    depthItems xs ≤ n ↔ ∀ x ∈ xs, x.depth ≤ n := by
  induction xs with
  | nil => simp [depthItems]
  | cons x xs ih => simp [depthItems, ih]

theorem depthFields_le_iff {xs : List (String × Spelling)} {n : Nat} :
    depthFields xs ≤ n ↔ ∀ f ∈ xs, f.2.depth ≤ n := by
  induction xs with
  | nil => simp [depthFields]
  | cons f xs ih => simp [depthFields, ih]

end Spelling

/-! ## A host that prints doubles exactly -/

/-- The exact value of a double in decimal: whole numbers with one zero after the point, as
`serde_json` prints them up to sixteen digits, any other number with a negative exponent. -/
def exactNumeral (f : F64) : Decimal.Numeral :=
  if f.toRat.den = 1 then
    { negative := f.negative, whole := Nat.toDigits 10 f.toRat.num.natAbs, fraction := ['0']
      exponent := none, whole_ne := Nat.toDigits_ne_nil
      whole_digits := Decimal.allDigits_toDigits _, whole_lead := Decimal.toDigits_lead
      fraction_digits := Decimal.allDigits_zero }
  else
    { negative := f.negative, whole := Nat.toDigits 10 (f.mantissa * 5 ^ (-f.exponent).toNat)
      fraction := [], exponent := some (false, -((-f.exponent).toNat : Int))
      whole_ne := Nat.toDigits_ne_nil, whole_digits := Decimal.allDigits_toDigits _
      whole_lead := Decimal.toDigits_lead, fraction_digits := Decimal.allDigits_nil }

/-- `serde_json`'s reader on texts without white space. -/
def readExact (cs : List Char) : Except String Raw :=
  match Spelling.parse cs with
  | none => .error "expected value"
  | some x => if x.depth ≤ 127 then .ok x.raw else .error "recursion limit exceeded"

theorem readExact_text {x : Spelling} (hx : x.Tokens) : readExact x.text =
    if x.depth ≤ 127 then .ok x.raw else .error "recursion limit exceeded" := by
  rw [readExact, Spelling.parse_text hx]

/-- The libraries as far as they are documented. -/
def exactHost : Host where
  sha256 text := text
  floatText f := .ofList (exactNumeral f).text
  reader text := readExact text.toList
  regex _ := .error "unsupported"
  regexEscape text := text
  lowercase text := text
  debugStr text := text
  parseUuid := some
  overflowChecks := true

theorem exactHost_reads : exactHost.Reads where
  reads x hx hdepth := by
    show readExact (String.ofList x.text).toList = _
    rw [String.toList_ofList, readExact_text hx.tokens, if_pos hdepth]
  limit x hx hdepth := by
    refine ⟨"recursion limit exceeded", ?_⟩
    show readExact (String.ofList x.text).toList = _
    rw [String.toList_ofList, readExact_text hx.tokens, if_neg (by omega)]

theorem F64.den_of_exponent {f : F64} (h : 0 ≤ f.exponent) : f.toRat.den = 1 := by
  have habs : f.abs = ((f.mantissa * 2 ^ f.exponent.toNat : Nat) : Rat) := by
    rw [abs]
    push_cast
    rw [← zpow_natCast, Int.toNat_of_nonneg h]
  rw [toRat, habs]
  split
  · rw [Rat.den_neg_eq_den, Rat.den_natCast]
  · rw [Rat.den_natCast]

theorem exactNumeral_magnitude (f : F64) : (exactNumeral f).magnitude = f.abs := by
  rw [exactNumeral]
  split
  next h =>
    have hnum := F64.natAbs_div_den f.toRat
    rw [h, Nat.cast_one, div_one, F64.abs_toRat] at hnum
    show (Decimal.digits (Nat.toDigits 10 f.toRat.num.natAbs ++ ['0']) : Rat) * 10 ^ ((0 : Int) - 1) = _
    rw [Decimal.digits_append, Decimal.digits_toDigits, ← hnum,
      show Decimal.digits ['0'] = 0 from rfl]
    push_cast
    norm_num
    ring
  next h =>
    have hneg : ¬ 0 ≤ f.exponent := fun he => h (F64.den_of_exponent he)
    obtain ⟨k, hk⟩ : ∃ k : Nat, f.exponent = -(k : Int) := ⟨(-f.exponent).toNat, by omega⟩
    have hnat : (-f.exponent).toNat = k := by omega
    show (Decimal.digits (Nat.toDigits 10 (f.mantissa * 5 ^ (-f.exponent).toNat) ++ []) : Rat) *
      10 ^ (-((-f.exponent).toNat : Int) - 0) = _
    rw [List.append_nil, Decimal.digits_toDigits, hnat, F64.abs, hk, sub_zero, zpow_neg, zpow_neg,
      zpow_natCast, zpow_natCast, show (10 : Rat) = 5 * 2 by norm_num, mul_pow]
    push_cast
    field_simp

theorem exactNumeral_value (f : F64) : (exactNumeral f).value = f.toRat := by
  have hneg : (exactNumeral f).negative = f.negative := by
    rw [exactNumeral]
    split <;> rfl
  rw [Decimal.Numeral.value, hneg, exactNumeral_magnitude, F64.toRat]

theorem exactHost_prints : exactHost.Prints := by
  intro f hf
  obtain ⟨-, hlow, hhigh, -⟩ := f.normal
  have hexp : (exactNumeral f).exp = 0 ∨ (exactNumeral f).exp = -((-f.exponent).toNat : Int) := by
    rw [exactNumeral]
    split
    · exact .inl rfl
    · exact .inr rfl
  refine ⟨exactNumeral f, rfl, ?_, ?_, ?_⟩
  · omega
  · omega
  · rw [exactNumeral_value, F64.ofRat_toRat hf]

end StateDrivenAgent
