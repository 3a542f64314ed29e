import StateDrivenAgent.Json.Grammar
import StateDrivenAgent.Verify.Sources

/-!
# The strict reader

`parse_strict_json` takes back what `python_json` writes, integers as integers and doubles as
doubles, the two zeros apart; and it refuses every text in which an object repeats a property, at
any depth and after the escapes are resolved.
-/

namespace StateDrivenAgent

open Text Spelling

/-! ## Strings as Python writes them -/

theorem hexValue?_hexDigit : ∀ n, n < 16 → hexValue? (hexDigit n) = some n := by decide

theorem unitOf_hexDigit {n : Nat} (h : n < 0x10000) :
    unitOf (hexDigit (n / 4096 % 16)) (hexDigit (n / 256 % 16)) (hexDigit (n / 16 % 16))
      (hexDigit (n % 16)) = some n := by
  rw [unitOf, hexValue?_hexDigit _ (by omega), hexValue?_hexDigit _ (by omega),
    hexValue?_hexDigit _ (by omega), hexValue?_hexDigit _ (by omega)]
  simp only [Option.bind_eq_bind, Option.bind_some, Option.pure_def, Option.some.injEq]
  omega

/-- The marks put before the others. -/
def prepend (marks : List Glyph) (p : List Glyph × List Char) : List Glyph × List Char :=
  (marks ++ p.1, p.2)

theorem scan_hexUnit {n : Nat} (h : n < 0x10000) (rest : List Char) :
    scan (Tools.hexUnit n ++ rest) = (scan rest).map (prepend [.unit n]) := by
  rw [Tools.hexUnit]
  simp only [List.cons_append, List.nil_append]
  rw [scan, unitOf_hexDigit h]
  cases scan rest <;> rfl

theorem scan_simple {c d : Char} (hc : c ≠ 'u') (h : unescape c = some d) (rest : List Char) :
    scan ('\\' :: c :: rest) = (scan rest).map (prepend [.char d]) := by
  rw [scan, h]
  · cases scan rest <;> rfl
  · exact fun _ _ _ _ _ heq => absurd heq hc

theorem scan_plain {c : Char} (hquote : c ≠ '"') (hslash : c ≠ '\\') (hlow : ¬c.toNat < 32)
    (rest : List Char) : scan (c :: rest) = (scan rest).map (prepend [.char c]) := by
  rw [scan, if_neg hlow]
  · cases scan rest <;> rfl
  · exact hquote
  · exact fun _ _ _ _ _ heq _ => absurd heq hslash
  · exact fun _ _ heq _ => absurd heq hslash

/-- The marks stand for the character, whatever follows. -/
def Stands (marks : List Glyph) (c : Char) : Prop :=
  ∀ ms, decode (marks ++ ms) = (decode ms).map fun cs => c :: cs

theorem stands_char (c : Char) : Stands [.char c] c := by
  intro ms
  rw [List.singleton_append, decode]

theorem stands_unit {n : Nat} (hhigh : isHigh n = false) (hlow : isLow n = false) :
    Stands [.unit n] (Char.ofNat n) := by
  intro ms
  rw [List.singleton_append]
  cases ms with
  | nil => simp [decode, hhigh, hlow]
  | cons m ms => cases m <;> simp [decode, hhigh, hlow]

theorem stands_pair {n m : Nat} (hhigh : isHigh n = true) (hlow : isLow m = true) :
    Stands [.unit n, .unit m] (Char.ofNat (0x10000 + (n - 0xd800) * 0x400 + (m - 0xdc00))) := by
  intro ms
  simp [decode, hhigh, hlow]

/-- A character is read as it is escaped. -/
theorem scan_pythonEscape (c : Char) : ∃ marks, Stands marks c ∧
    ∀ rest, scan (Tools.pythonEscape c ++ rest) = (scan rest).map (prepend marks) := by
  by_cases hquote : c = '"'
  · subst hquote
    exact ⟨_, stands_char _, scan_simple (by decide) rfl⟩
  by_cases hslash : c = '\\'
  · subst hslash
    exact ⟨_, stands_char _, scan_simple (by decide) rfl⟩
  by_cases hb : c.toNat = 8
  · obtain rfl : c = Char.ofNat 8 := by rw [← hb, Char.ofNat_toNat]
    exact ⟨_, stands_char _, scan_simple (by decide) rfl⟩
  by_cases hf : c.toNat = 12
  · obtain rfl : c = Char.ofNat 12 := by rw [← hf, Char.ofNat_toNat]
    exact ⟨_, stands_char _, scan_simple (by decide) rfl⟩
  by_cases hn : c = '\n'
  · subst hn
    exact ⟨_, stands_char _, scan_simple (by decide) rfl⟩
  by_cases hr : c = '\r'
  · subst hr
    exact ⟨_, stands_char _, scan_simple (by decide) rfl⟩
  by_cases ht : c = '\t'
  · subst ht
    exact ⟨_, stands_char _, scan_simple (by decide) rfl⟩
  rw [Tools.pythonEscape, if_neg hquote, if_neg hslash, if_neg hb, if_neg hf, if_neg hn, if_neg hr,
    if_neg ht]
  by_cases hplain : (decide (c.toNat < 32) || decide (0x7f < c.toNat)) = true
  · have hvalid : c.toNat < 0xd800 ∨ (0xdfff < c.toNat ∧ c.toNat < 0x110000) := c.valid
    rw [if_pos hplain, utf16, String.toList_ofList, List.flatMap_cons, List.flatMap_nil,
      List.append_nil]
    by_cases hsmall : c.toNat < 0x10000
    · have hhigh : isHigh c.toNat = false := by simp [isHigh]; omega
      have hlow : isLow c.toNat = false := by simp [isLow]; omega
      have hstands := stands_unit hhigh hlow
      rw [Char.ofNat_toNat] at hstands
      rw [if_pos hsmall, List.flatMap_cons, List.flatMap_nil, List.append_nil]
      exact ⟨_, hstands, scan_hexUnit hsmall⟩
    · set high := 0xd800 + (c.toNat - 0x10000) / 0x400 with hhighDef
      set low := 0xdc00 + (c.toNat - 0x10000) % 0x400 with hlowDef
      have hhigh : isHigh high = true := by simp [isHigh]; omega
      have hlow : isLow low = true := by simp [isLow]; omega
      have hvalue : 0x10000 + (high - 0xd800) * 0x400 + (low - 0xdc00) = c.toNat := by omega
      have hstands := stands_pair hhigh hlow
      rw [hvalue, Char.ofNat_toNat] at hstands
      refine ⟨_, hstands, fun rest => ?_⟩
      rw [if_neg hsmall, List.flatMap_cons, List.flatMap_cons, List.flatMap_nil, List.append_nil,
        List.append_assoc, scan_hexUnit (by omega), scan_hexUnit (by omega)]
      cases scan rest <;> rfl
  · have hlow : ¬c.toNat < 32 := by
      intro hlt
      exact hplain (by simp [hlt])
    rw [if_neg hplain]
    exact ⟨_, stands_char c, scan_plain hquote hslash hlow⟩

/-- Every character is read as this function escapes it. -/
def Escapes (escape : Char → List Char) : Prop := ∀ c, ∃ marks, Stands marks c ∧
  ∀ rest, scan (escape c ++ rest) = (scan rest).map (prepend marks)

theorem scan_string {escape : Char → List Char} (he : Escapes escape) (cs rest : List Char) :
    ∃ marks, decode marks = some cs ∧
      scan (cs.flatMap escape ++ '"' :: rest) = some (marks, rest) := by
  induction cs with
  | nil => exact ⟨[], rfl, by simp [scan]⟩
  | cons c cs ih =>
    obtain ⟨marks, hmarks, hscan⟩ := ih
    obtain ⟨first, hstands, hfirst⟩ := he c
    refine ⟨first ++ marks, by rw [hstands, hmarks]; rfl, ?_⟩
    rw [List.flatMap_cons, List.append_assoc, hfirst, hscan]
    rfl

theorem readString_escaped {escape : Char → List Char} (he : Escapes escape) (s : String)
    (rest : List Char) : readString (s.toList.flatMap escape ++ ['"'] ++ rest) = some (s, rest) := by
  obtain ⟨marks, hmarks, hscan⟩ := scan_string he s.toList rest
  rw [List.append_assoc, List.singleton_append, readString, hscan]
  simp [hmarks]

/-- The strings of Python's text. -/
def pythonQuote (s : String) : List Char := (Tools.pythonJsonString s).toList

theorem quotes_pythonQuote : Quotes pythonQuote := by
  intro s rest
  refine ⟨s.toList.flatMap Tools.pythonEscape ++ ['"'], ?_, readString_escaped scan_pythonEscape s rest⟩
  rw [pythonQuote, Tools.pythonJsonString, String.toList_ofList, List.cons_append]

/-- serde escapes as Python does, and nothing outside ASCII. -/
theorem escapeChar_eq (c : Char) :
    escapeChar c = if 0x7f < c.toNat then [c] else Tools.pythonEscape c := by
  by_cases hlarge : 0x7f < c.toNat
  · have hne : ∀ d : Char, d.toNat ≤ 0x7f → c ≠ d := by
      rintro d hd rfl
      omega
    rw [if_pos hlarge, escapeChar, if_neg (hne _ (by decide)), if_neg (hne _ (by decide)),
      if_neg (by omega), if_neg (by omega), if_neg (hne _ (by decide)), if_neg (hne _ (by decide)),
      if_neg (hne _ (by decide)), if_neg (by omega)]
  · have htail : (if c.toNat < 32 then
          ['\\', 'u', '0', '0', hexDigit (c.toNat / 16), hexDigit (c.toNat % 16)] else [c]) =
        if c.toNat < 32 || 0x7f < c.toNat then (utf16 (.ofList [c])).flatMap Tools.hexUnit else [c] := by
      by_cases hlow : c.toNat < 32
      · rw [if_pos hlow, if_pos (by simp [hlow]), utf16, String.toList_ofList, List.flatMap_cons,
          List.flatMap_nil, List.append_nil, if_pos (by omega), List.flatMap_cons, List.flatMap_nil,
          List.append_nil, Tools.hexUnit, show c.toNat / 4096 % 16 = 0 by omega,
          show c.toNat / 256 % 16 = 0 by omega, show c.toNat / 16 % 16 = c.toNat / 16 by omega]
        rfl
      · rw [if_neg hlow, if_neg (by simpa using ⟨by omega, by omega⟩)]
    rw [if_neg hlarge, escapeChar, Tools.pythonEscape, htail]

theorem scan_escapeChar : Escapes escapeChar := by
  intro c
  rw [escapeChar_eq]
  by_cases hlarge : 0x7f < c.toNat
  · have hne : ∀ d : Char, d.toNat ≤ 0x7f → c ≠ d := by
      rintro d hd rfl
      omega
    rw [if_pos hlarge]
    exact ⟨_, stands_char c, scan_plain (hne _ (by decide)) (hne _ (by decide)) (by omega)⟩
  · rw [if_neg hlarge]
    exact scan_pythonEscape c

theorem quotes_stringText : Quotes stringText := fun s rest =>
  ⟨_, rfl, readString_escaped scan_escapeChar s rest⟩

/-- A text without blanks is read as the tree it was written from. -/
theorem ofText_text {x : Spelling} (hx : x.Tokens) : ofText x.text = some x := by
  rw [text_eq, read_gapped quotes_stringText gap_nil hx]

/-! ## Numbers as Python writes them -/

open Decimal

/-- An integer is an `i64`. -/
def Signed (n : Number) : Prop := ∀ i, n = .int i → I64.inRange i = true

theorem signed_float (f : F64) : Signed (.float f) := by
  rintro _ ⟨⟩

/-- The token is a number of the grammar, and the strict reader takes it for `n`, or for nothing if
`n` is an integer above `i64::MAX`. -/
structure Token (n : Number) (token : List Char) : Prop where
  number : IsNumber token
  double : Decimal.read token = 0 ∨ (F64.ofRat (Decimal.read token)).isZero = false
  value : Signed n → strict (tokenRaw token) = .ok (.num n)
  signed : ∀ {v : Value}, strict (tokenRaw token) = .ok v → Signed n

theorem intDigits_ne (i : Int) : Nat.toDigits 10 i.natAbs ≠ [] := Nat.toDigits_ne_nil

theorem intDigits_all (i : Int) : AllDigits (Nat.toDigits 10 i.natAbs) := allDigits_toDigits _

theorem intDigits_lead (i : Int) (h : (Nat.toDigits 10 i.natAbs).head? = some '0') :
    (Nat.toDigits 10 i.natAbs).length = 1 := toDigits_lead h

/-- An integer as a numeral. -/
def intNumeral (i : Int) : Numeral where
  negative := i < 0
  whole := Nat.toDigits 10 i.natAbs
  fraction := []
  exponent := none
  whole_ne := intDigits_ne i
  whole_digits := intDigits_all i
  whole_lead := intDigits_lead i
  fraction_digits := allDigits_nil

theorem intNumeral_text (i : Int) : (intNumeral i).text = (toString i).toList := by
  rw [toString_int_toList, Numeral.text, Numeral.unsigned_of_plain rfl]
  simp [intNumeral]

theorem intNumeral_abs (i : Int) : |(intNumeral i).value| = (i.natAbs : Rat) := by
  rw [Numeral.abs_value, Numeral.magnitude_of_plain rfl]
  exact congrArg Nat.cast (digits_toDigits _)

theorem signed_int {i : Int} : Signed (.int i) ↔ -2 ^ 63 ≤ i ∧ i < 2 ^ 63 := by
  have hrange : I64.inRange i = true ↔ -2 ^ 63 ≤ i ∧ i < 2 ^ 63 := by simp [I64.inRange]
  rw [← hrange]
  constructor
  · intro h
    exact h i rfl
  · rintro h _ ⟨⟩
    exact h

theorem token_int {i : Int} (h : (Number.int i).InRange) : Token (.int i) (toString i).toList := by
  obtain ⟨hlow, hhigh⟩ : -2 ^ 63 ≤ i ∧ i < 2 ^ 64 := h
  rw [← intNumeral_text]
  have hraw := Identity.tokenRaw_plain (m := intNumeral i) rfl
  have hdigits : digits (intNumeral i).whole = i.natAbs := digits_toDigits _
  have hneg : (intNumeral i).negative = decide (i < 0) := rfl
  rw [hdigits, hneg] at hraw
  have hdouble : Decimal.read (intNumeral i).text = 0 ∨
      (F64.ofRat (Decimal.read (intNumeral i).text)).isZero = false := by
    rw [Numeral.read_text]
    by_cases hi : i = 0
    · refine .inl (abs_eq_zero.1 ?_)
      rw [intNumeral_abs, hi]
      rfl
    · have hlow : 1 ≤ i.natAbs := by omega
      have hhigh : i.natAbs < 2 ^ 100 := by omega
      refine .inr (F64.ofRat_isZero ?_ ?_)
      · rw [intNumeral_abs]
        exact_mod_cast hlow
      · rw [intNumeral_abs]
        exact_mod_cast hhigh
  by_cases hi : i < 0
  · have hvalue : -(i.natAbs : Int) = i := by omega
    rw [decide_eq_true hi, if_pos rfl, if_neg (by omega), if_pos (by omega), hvalue] at hraw
    refine ⟨.of_numeral rfl, hdouble, fun _ => ?_, fun _ => signed_int.2 ⟨hlow, by omega⟩⟩
    rw [hraw]
    rfl
  · have hvalue : (i.natAbs : Int) = i := by omega
    rw [decide_eq_false hi, if_neg Bool.false_ne_true, if_pos (by omega)] at hraw
    refine ⟨.of_numeral rfl, hdouble, fun hs => ?_, fun hv => ?_⟩
    · obtain ⟨-, hsmall⟩ := signed_int.1 hs
      rw [hraw, strict, if_neg (by omega), hvalue]
      rfl
    · rw [hraw, strict] at hv
      split_ifs at hv with hlarge
      exact signed_int.2 ⟨hlow, by omega⟩

/-- A token with a point or an exponent is read as a double. -/
theorem token_float {f : F64} {token : List Char} (hnumber : IsNumber token)
    (hraw : tokenRaw token = .f64 (F64.ofToken token)) (hf : f.isZero = false)
    (hread : F64.ofRat (Decimal.read token) = f) : Token (.float f) token := by
  have hzero : (F64.ofRat (Decimal.read token)).isZero = false := by rw [hread, hf]
  refine ⟨hnumber, .inr hzero, fun _ => ?_, fun _ => signed_float f⟩
  rw [hraw, F64.ofToken_eq hzero, hread]
  rfl

/-- The two zeros. -/
def zeroNumeral (negative : Bool) : Numeral := { Numeral.zero with
  negative, fraction := ['0'], fraction_digits := allDigits_zero }

theorem token_zero {f : F64} (hf : f.isZero = true) :
    Token (.float f) (zeroNumeral f.negative).text := by
  have hmagnitude : (zeroNumeral f.negative).magnitude = 0 := by
    rw [Numeral.magnitude, show digits _ = 0 from rfl, Nat.cast_zero, zero_mul]
  have hread : Decimal.read (zeroNumeral f.negative).text = 0 := by
    rw [Numeral.read_text, Numeral.value, hmagnitude, neg_zero, ite_self]
  have hraw := Identity.tokenRaw_not_plain (m := zeroNumeral f.negative) rfl
  refine ⟨.of_numeral rfl, .inl hread, fun _ => ?_, fun _ => signed_float f⟩
  have hf' : f = ⟨f.negative, 0, -1074, by decide⟩ := by
    obtain ⟨negative, mantissa, exponent, hnormal⟩ := f
    obtain rfl : mantissa = 0 := by simpa [F64.isZero] using hf
    obtain rfl : exponent = -1074 := by omega
    rfl
  have htoken : F64.ofToken (zeroNumeral f.negative).text = f := by
    rw [F64.ofToken, hread, hf']
    cases f.negative <;> rfl
  rw [hraw, htoken]
  rfl

/-- A numeral without a point written with the point and a zero. -/
def withPoint (m : Numeral) : Numeral := { m with
  fraction := ['0'], exponent := none, fraction_digits := allDigits_zero }

theorem withPoint_value {m : Numeral} (h : m.plain = true) : (withPoint m).value = m.value := by
  have hmagnitude : (withPoint m).magnitude = m.magnitude := by
    rw [Numeral.magnitude_of_plain h, Numeral.magnitude]
    show ((digits (m.whole ++ ['0']) : Nat) : Rat) * 10 ^ ((0 : Int) - 1) = _
    rw [digits_append]
    push_cast
    rw [show digits ['0'] = 0 from rfl]
    norm_num
    ring
  rw [Numeral.value, Numeral.value, hmagnitude]
  rfl

theorem placePoint_whole (ds : List Char) (point : Int) (whole : List Char) :
    placePoint ds point whole =
      placePoint ds point [] ++ if (ds.length : Int) ≤ point ∧ 0 < point then whole else [] := by
  rw [placePoint, placePoint]
  by_cases h₁ : point ≤ 0
  · rw [if_pos h₁, if_pos h₁, if_neg (by omega), List.append_nil]
  · by_cases h₂ : ds.length ≤ point.toNat
    · rw [if_neg h₁, if_neg h₁, if_pos h₂, if_pos h₂, if_pos (by omega), List.append_nil]
    · rw [if_neg h₁, if_neg h₁, if_neg h₂, if_neg h₂, if_neg (by omega), List.append_nil]

theorem scientific_eq {ds : List Char} (hne : ds ≠ []) : scientific ds = placePoint ds 1 [] := by
  have hlen : 0 < ds.length := List.length_pos_iff.2 hne
  have hone : ¬(1 : Int) ≤ 0 := by decide
  have hnat : (1 : Int).toNat = 1 := rfl
  by_cases h : ds.length = 1
  · rw [scientific, if_pos h, placePoint, if_neg hone, hnat, if_pos h.le, h]
    simp
  · rw [scientific, if_neg h, placePoint, if_neg hone, hnat, if_neg (by omega)]

section float

variable {host : Host} {f : F64} {p : Numeral}

/-- The sign in front of the digits of `f`. -/
def signText (f : F64) : List Char := if f.negative then ['-'] else []

theorem signText_append {m : Numeral} (hneg : m.negative = f.negative) :
    signText f ++ m.unsigned = m.text := by
  rw [signText, Numeral.text, hneg]

theorem value_of_magnitude (hf : f.isZero = false) (h : Python.Digits host f p) {m : Numeral}
    (hneg : m.negative = f.negative) (hmagnitude : m.magnitude = p.magnitude) :
    m.value = p.value := by
  rw [Numeral.value, Numeral.value, hneg, hmagnitude, h.negative hf]

/-- The text with a point is a numeral of the value that is printed. -/
theorem placed_numeral (hf : f.isZero = false) (h : Python.Digits host f p) : ∃ m : Numeral,
    signText f ++ placePoint (Python.dtoa host f).1 (Python.dtoa host f).2 ['.', '0'] = m.text ∧
      m.exponent = none ∧ m.plain = false ∧ m.value = p.value := by
  obtain ⟨m, hneg, hunsigned, hmagnitude, hplain, hexponent⟩ :=
    placePoint_numeral f.negative h.decomposed h.magnitude
  have hvalue := value_of_magnitude hf h hneg hmagnitude
  have hlen := h.decomposed.length_pos
  rw [placePoint_whole, ← hunsigned]
  by_cases hm : m.plain = true
  · have hwhole := hplain.1 hm
    refine ⟨withPoint m, ?_, rfl, rfl, (withPoint_value hm).trans hvalue⟩
    rw [if_pos ⟨hwhole, by omega⟩, Numeral.unsigned_of_plain hm, signText, ← hneg, Numeral.text,
      Numeral.unsigned, Numeral.fractionText]
    simp [withPoint, Numeral.exponentText]
    rfl
  · have hwhole : ¬((Python.dtoa host f).1.length : Int) ≤ (Python.dtoa host f).2 :=
      fun hle => hm (hplain.2 hle)
    refine ⟨m, ?_, hexponent, Bool.eq_false_iff.2 hm, hvalue⟩
    rw [if_neg fun hle => hwhole hle.1, List.append_nil, signText_append hneg]

theorem token_placed (hf : f.isZero = false) (h : Python.Digits host f p) :
    Token (.float f)
      (signText f ++ placePoint (Python.dtoa host f).1 (Python.dtoa host f).2 ['.', '0']) := by
  obtain ⟨m, htext, hexponent, hplain, hvalue⟩ := placed_numeral hf h
  rw [htext]
  refine token_float (.of_numeral hexponent) (Identity.tokenRaw_not_plain hplain) hf ?_
  rw [Numeral.read_text, hvalue, h.double]

/-- The exponent of at least two digits. -/
def exponentDigits (n : Nat) : List Char :=
  if (Nat.toDigits 10 n).length < 2 then '0' :: Nat.toDigits 10 n else Nat.toDigits 10 n

theorem exponentDigits_spec (n : Nat) : exponentDigits n ≠ [] ∧ AllDigits (exponentDigits n) ∧
    digits (exponentDigits n) = n := by
  rw [exponentDigits]
  split
  · refine ⟨by simp, ?_, ?_⟩
    · exact allDigits_zero.append (allDigits_toDigits n)
    · have hzero := digits_append ['0'] (Nat.toDigits 10 n)
      rw [digits_toDigits, show digits ['0'] = 0 from rfl, Nat.zero_mul, Nat.zero_add] at hzero
      exact hzero
  · exact ⟨Nat.toDigits_ne_nil, allDigits_toDigits n, digits_toDigits n⟩

theorem tokenRaw_exponent {m : Numeral} (cs : List Char) :
    tokenRaw (m.text ++ 'e' :: cs) = .f64 (F64.ofToken (m.text ++ 'e' :: cs)) := by
  obtain ⟨c, tail, hc, hdigit⟩ := m.unsigned_head
  have hminus : c ≠ '-' := isDigit_ne hdigit rfl
  have hdrop : (m.text ++ 'e' :: cs).dropWhile (· = '-') = m.unsigned ++ 'e' :: cs := by
    rw [Numeral.text, hc]
    cases m.negative <;> simp [hminus]
  have hall : ¬(m.unsigned ++ 'e' :: cs).all isDigit = true := by
    rw [List.all_append, List.all_cons, show isDigit 'e' = false from rfl]
    simp
  rw [tokenRaw, hdrop, if_neg hall]

/-- The exponent as it is read. -/
theorem readExponent_sign (e : Int) :
    readExponent ((if 0 ≤ e then '+' else '-') :: exponentDigits e.natAbs) = e := by
  obtain ⟨-, -, hdigits⟩ := exponentDigits_spec e.natAbs
  split
  next hpos =>
    show (digits (exponentDigits e.natAbs) : Int) = e
    omega
  next hpos =>
    show -(digits (exponentDigits e.natAbs) : Int) = e
    omega

/-- The text before the exponent is a numeral of what the exponent leaves of the printed value. -/
theorem scientific_mantissa (hf : f.isZero = false) (h : Python.Digits host f p) : ∃ m : Numeral,
    signText f ++ scientific (Python.dtoa host f).1 = m.text ∧ m.exponent = none ∧
      m.value * 10 ^ ((Python.dtoa host f).2 - 1) = p.value := by
  have hd := h.decomposed
  obtain ⟨m, hneg, hunsigned, hmagnitude, -, hexponent⟩ :=
    placePoint_digits f.negative hd.ne hd.all (hd.head h.magnitude) 1
  refine ⟨m, ?_, hexponent, ?_⟩
  · rw [scientific_eq hd.ne, ← hunsigned, signText_append hneg]
  · have hsum : (1 - (Python.dtoa host f).1.length : Int) + ((Python.dtoa host f).2 - 1) =
        (Python.dtoa host f).2 - (Python.dtoa host f).1.length := by omega
    have hscale : m.magnitude * 10 ^ ((Python.dtoa host f).2 - 1) = p.magnitude := by
      rw [hmagnitude, hd.value, mul_assoc, ← zpow_add₀ (by norm_num), hsum]
    rw [Numeral.value, Numeral.value, hneg, h.negative hf, ← hscale]
    cases f.negative <;> simp

/-- The text with an exponent has the value that is printed. -/
theorem read_scientific (hf : f.isZero = false) (h : Python.Digits host f p) :
    Decimal.read (signText f ++ scientific (Python.dtoa host f).1 ++ 'e' ::
      ((if 0 ≤ (Python.dtoa host f).2 - 1 then '+' else '-') ::
        exponentDigits ((Python.dtoa host f).2 - 1).natAbs)) = p.value := by
  obtain ⟨m, htext, hexponent, hvalue⟩ := scientific_mantissa hf h
  rw [htext, read_exponent hexponent _ (.inl rfl : 'e' = 'e' ∨ 'e' = 'E'), readExponent_sign, hvalue]

theorem token_scientific (hf : f.isZero = false) (h : Python.Digits host f p) :
    Token (.float f) (signText f ++ scientific (Python.dtoa host f).1 ++ 'e' ::
      ((if 0 ≤ (Python.dtoa host f).2 - 1 then '+' else '-') ::
        exponentDigits ((Python.dtoa host f).2 - 1).natAbs)) := by
  have hread := read_scientific hf h
  obtain ⟨m, htext, hexponent, -⟩ := scientific_mantissa hf h
  obtain ⟨hne, hall, -⟩ := exponentDigits_spec ((Python.dtoa host f).2 - 1).natAbs
  rw [htext] at hread ⊢
  refine token_float ⟨m, _, hexponent, ?_, rfl⟩ (tokenRaw_exponent _) hf (by rw [hread, h.double])
  split
  · exact .some (.inl rfl) (.inr (.inl rfl)) hne hall
  · exact .some (.inl rfl) (.inr (.inr rfl)) hne hall

theorem zeroNumeral_text (negative : Bool) :
    (zeroNumeral negative).text = (if negative then "-0.0" else "0.0").toList := by
  cases negative <;> decide

theorem exponentDigits_eq (n : Nat) :
    (if (toString n).length < 2 then "0" ++ toString n else toString n).toList =
      exponentDigits n := by
  have htext : (toString n).toList = Nat.toDigits 10 n := Nat.toList_repr
  have hlen : (toString n).length = (Nat.toDigits 10 n).length := by
    rw [← htext, String.length_toList]
  rw [exponentDigits, hlen]
  split
  · rw [String.toList_append, htext]
    rfl
  · exact htext

/-- Python's text of a nonzero double. -/
theorem pythonNumber_toList (hf : f.isZero = false) (h : Python.Digits host f p) :
    (Identity.pythonNumber host (.float f)).toList =
      if (F64.ofRat (1 / 10 ^ 4)).abs ≤ f.abs ∧ f.abs < 10 ^ 16 then
        signText f ++ placePoint (Python.dtoa host f).1 (Python.dtoa host f).2 ['.', '0']
      else signText f ++ scientific (Python.dtoa host f).1 ++ 'e' ::
        ((if 0 ≤ (Python.dtoa host f).2 - 1 then '+' else '-') ::
          exponentDigits ((Python.dtoa host f).2 - 1).natAbs) := by
  have hsign : (if startsWith (host.floatText f) "-" = true then "-" else "").toList =
      signText f := by
    rw [h.text, Identity.startsWith_minus, h.negative hf, signText]
    cases f.negative <;> rfl
  have hdtoa : Python.dtoa host f =
      decimalParts (.ofList ((host.floatText f).toList.dropWhile (· = '-'))) := rfl
  rw [Identity.pythonNumber, hf, if_neg Bool.false_ne_true, hdtoa]
  dsimp only
  split
  · rw [String.toList_append, hsign, String.toList_ofList]
  · rw [String.toList_append, String.toList_append, String.toList_append, String.toList_append,
      hsign, String.toList_ofList, exponentDigits_eq]
    split <;> simp

/-- Every number is taken back from Python's text of it. -/
theorem token_pythonNumber (hp : host.Prints) {n : Number} (hn : n.InRange) :
    Token n (Identity.pythonNumber host n).toList := by
  cases n with
  | int i => exact token_int hn
  | float f =>
    cases hf : f.isZero with
    | true =>
      have hzero := token_zero hf
      rw [Identity.pythonNumber, hf, if_pos rfl, ← zeroNumeral_text]
      exact hzero
    | false =>
      obtain ⟨p, h⟩ := Python.exists_digits hp hf
      rw [pythonNumber_toList hf h]
      split
      · exact token_placed hf h
      · exact token_scientific hf h

end float

/-! ## Values as Python writes them -/

mutual

/-- The tree of Python's text of a value. -/
def spelled (host : Host) : Value → Spelling
  | .null => .null
  | .bool b => .bool b
  | .num n => .num (Identity.pythonNumber host n).toList
  | .str s => .str s
  | .arr items => .arr (spelledItems host items)
  | .obj fields => .obj (spelledFields host fields)

def spelledItems (host : Host) : List Value → List Spelling
  | [] => []
  | v :: vs => spelled host v :: spelledItems host vs

def spelledFields (host : Host) : List (String × Value) → List (String × Spelling)
  | [] => []
  | (k, v) :: rest => (k, spelled host v) :: spelledFields host rest

end

section values

variable {host : Host}

mutual

theorem pythonJson_toList : ∀ v : Value,
    (Tools.pythonJson host v).toList = spaced pythonQuote (spelled host v)
  | .null => by rw [Tools.pythonJson, spelled, spaced]; decide
  | .bool true => by rw [Tools.pythonJson, spelled, spaced]; decide
  | .bool false => by rw [Tools.pythonJson, spelled, spaced]; decide
  | .num n => rfl
  | .str s => rfl
  | .arr items => by
    rw [Tools.pythonJson, spelled, spaced, String.toList_append, String.toList_append,
      pythonJsonItems_toList]
    rfl
  | .obj fields => by
    rw [Tools.pythonJson, spelled, spaced, String.toList_append, String.toList_append,
      pythonJsonFields_toList]
    rfl

theorem pythonJsonItems_toList : ∀ items : List Value,
    (joinWith ", " (Tools.pythonJsonItems host items)).toList =
      spacedItems pythonQuote (spelledItems host items)
  | [] => by simp [joinWith, Tools.pythonJsonItems, spelledItems, spacedItems]
  | [v] => by
    rw [spelledItems, spelledItems, spacedItems, ← pythonJson_toList v]
    simp [joinWith, Tools.pythonJsonItems]
  | v :: w :: vs => by
    have hrest := pythonJsonItems_toList (w :: vs)
    rw [Tools.pythonJsonItems, spelledItems] at hrest
    rw [Tools.pythonJsonItems, Tools.pythonJsonItems, joinWith_cons_cons, hrest, spelledItems,
      spelledItems, spacedItems, ← pythonJson_toList v, List.append_assoc]
    rfl

theorem pythonJsonFields_toList : ∀ fields : List (String × Value),
    (joinWith ", " (Tools.pythonJsonFields host fields)).toList =
      spacedFields pythonQuote (spelledFields host fields)
  | [] => by simp [joinWith, Tools.pythonJsonFields, spelledFields, spacedFields]
  | [(k, v)] => by
    rw [spelledFields, spelledFields, spacedFields, ← pythonJson_toList v]
    simp [joinWith, Tools.pythonJsonFields, pythonQuote]
  | (k, v) :: (k', w) :: rest => by
    have hrest := pythonJsonFields_toList ((k', w) :: rest)
    rw [Tools.pythonJsonFields, spelledFields] at hrest
    rw [Tools.pythonJsonFields, Tools.pythonJsonFields, joinWith_cons_cons, hrest, spelledFields,
      spelledFields, spacedFields, ← pythonJson_toList v]
    simp [pythonQuote]

end

mutual

theorem spelled_readable (hp : host.Prints) : ∀ {v : Value}, v.valid = true →
    (spelled host v).Tokens ∧ (spelled host v).Readable
  | .null, _ | .bool _, _ | .str _, _ => ⟨trivial, trivial⟩
  | .num _, h =>
    have htoken := token_pythonNumber hp (Value.valid_num.1 h)
    ⟨isNumberChar_of_isNumber htoken.number, htoken.number, htoken.double⟩
  | .arr _, h => spelledItems_readable hp h
  | .obj _, h => by
    rw [Value.valid, Bool.and_eq_true] at h
    exact spelledFields_readable hp h.2

theorem spelledItems_readable (hp : host.Prints) : ∀ {items : List Value},
    Value.validItems items = true →
    TokensItems (spelledItems host items) ∧ ReadableItems (spelledItems host items)
  | [], _ => ⟨trivial, trivial⟩
  | _ :: _, h => by
    rw [Value.validItems, Bool.and_eq_true] at h
    have hv := spelled_readable hp h.1
    have hvs := spelledItems_readable hp h.2
    exact ⟨⟨hv.1, hvs.1⟩, hv.2, hvs.2⟩

theorem spelledFields_readable (hp : host.Prints) : ∀ {fields : List (String × Value)},
    Value.validFields fields = true →
    TokensFields (spelledFields host fields) ∧ ReadableFields (spelledFields host fields)
  | [], _ => ⟨trivial, trivial⟩
  | (_, _) :: _, h => by
    rw [Value.validFields, Bool.and_eq_true] at h
    have hv := spelled_readable hp h.1
    have hrest := spelledFields_readable hp h.2
    exact ⟨⟨hv.1, hrest.1⟩, hv.2, hrest.2⟩

end

mutual

theorem spelled_depth : ∀ v : Value, (spelled host v).depth = v.depth
  | .null | .bool _ | .num _ | .str _ => rfl
  | .arr items => by rw [spelled, Spelling.depth, Value.depth, spelledItems_depth items]
  | .obj fields => by rw [spelled, Spelling.depth, Value.depth, spelledFields_depth fields]

theorem spelledItems_depth : ∀ items : List Value,
    depthItems (spelledItems host items) = Value.depthItems items
  | [] => rfl
  | v :: vs => by
    rw [spelledItems, depthItems, Value.depthItems, spelled_depth v, spelledItems_depth vs]

theorem spelledFields_depth : ∀ fields : List (String × Value),
    depthFields (spelledFields host fields) = Value.depthFields fields
  | [] => rfl
  | (_, v) :: rest => by
    rw [spelledFields, depthFields, Value.depthFields, spelled_depth v, spelledFields_depth rest]

end

mutual

/-- The strict reader takes the value back. -/
theorem strict_spelled (hp : host.Prints) : ∀ {v : Value}, v.valid = true →
    v.EveryNumber Signed → strict (spelled host v).raw = .ok v
  | .null, _, _ | .bool _, _, _ | .str _, _, _ => rfl
  | .num _, hv, h => (token_pythonNumber hp (Value.valid_num.1 hv)).value h
  | .arr items, hv, h => by
    rw [spelled, Spelling.raw, strict, strictItems_spelled hp hv h]
    rfl
  | .obj fields, hv, h => by
    rw [Value.valid, Bool.and_eq_true, decide_eq_true_eq] at hv
    rw [spelled, Spelling.raw, strict, strictFields_spelled hp hv.2 h hv.1 (by simp)]
    rfl

theorem strictItems_spelled (hp : host.Prints) : ∀ {items : List Value},
    Value.validItems items = true → Value.EveryNumberItems Signed items →
    strictItems (rawItems (spelledItems host items)) = .ok items
  | [], _, _ => rfl
  | v :: vs, hv, h => by
    rw [Value.validItems, Bool.and_eq_true] at hv
    rw [spelledItems, rawItems, strictItems, strict_spelled hp hv.1 h.1,
      strictItems_spelled hp hv.2 h.2]
    rfl

theorem strictFields_spelled (hp : host.Prints) : ∀ {fields out : List (String × Value)},
    Value.validFields fields = true → Value.EveryNumberFields Signed fields →
    (fields.map Prod.fst).Nodup → (∀ k ∈ fields.map Prod.fst, k ∉ out.map Prod.fst) →
    strictFields out (rawFields (spelledFields host fields)) = .ok (out ++ fields)
  | [], out, _, _, _, _ => by rw [spelledFields, rawFields, strictFields, List.append_nil]
  | (k, v) :: rest, out, hv, h, hn, hout => by
    rw [Value.validFields, Bool.and_eq_true] at hv
    rw [List.map_cons, List.nodup_cons] at hn
    have hnew : lookup k out = none := lookup_eq_none.mpr (hout k (by simp))
    have hrest : ∀ k' ∈ rest.map Prod.fst, k' ∉ (out ++ [(k, v)]).map Prod.fst := by
      intro k' hk' hmem
      rw [List.map_append, List.mem_append] at hmem
      rcases hmem with hmem | hmem
      · exact hout k' (by simp [hk']) hmem
      · obtain rfl : k' = k := by simpa using hmem
        exact hn.1 hk'
    rw [spelledFields, rawFields, strictFields, hnew, if_neg (by simp),
      strict_spelled hp hv.1 h.1]
    show strictFields (out ++ [(k, v)]) (rawFields (spelledFields host rest)) = _
    rw [strictFields_spelled hp hv.2 h.2 hn.2 hrest, List.append_assoc, List.singleton_append]

end

mutual

/-- It takes nothing back if there is an integer above `i64::MAX`. -/
theorem signed_of_spelled (hp : host.Prints) : ∀ {v w : Value}, v.valid = true →
    strict (spelled host v).raw = .ok w → v.EveryNumber Signed
  | .null, _, _, _ | .bool _, _, _, _ | .str _, _, _, _ => trivial
  | .num _, _, hv, h => (token_pythonNumber hp (Value.valid_num.1 hv)).signed h
  | .arr items, _, hv, h => by
    rw [spelled, Spelling.raw, strict] at h
    obtain ⟨ws, hws, -⟩ := bind_ok h
    exact signed_of_spelledItems hp hv hws
  | .obj fields, _, hv, h => by
    rw [Value.valid, Bool.and_eq_true] at hv
    rw [spelled, Spelling.raw, strict] at h
    obtain ⟨ws, hws, -⟩ := bind_ok h
    exact signed_of_spelledFields hp hv.2 hws

theorem signed_of_spelledItems (hp : host.Prints) : ∀ {items ws : List Value},
    Value.validItems items = true → strictItems (rawItems (spelledItems host items)) = .ok ws →
    Value.EveryNumberItems Signed items
  | [], _, _, _ => trivial
  | v :: vs, _, hv, h => by
    rw [Value.validItems, Bool.and_eq_true] at hv
    rw [spelledItems, rawItems, strictItems] at h
    obtain ⟨w, hw, h⟩ := bind_ok h
    obtain ⟨ws, hws, -⟩ := bind_ok h
    exact ⟨signed_of_spelled hp hv.1 hw, signed_of_spelledItems hp hv.2 hws⟩

theorem signed_of_spelledFields (hp : host.Prints) : ∀ {fields out ws : List (String × Value)},
    Value.validFields fields = true →
    strictFields out (rawFields (spelledFields host fields)) = .ok ws →
    Value.EveryNumberFields Signed fields
  | [], _, _, _, _ => trivial
  | (k, v) :: rest, out, _, hv, h => by
    rw [Value.validFields, Bool.and_eq_true] at hv
    rw [spelledFields, rawFields, strictFields] at h
    split_ifs at h
    obtain ⟨w, hw, h⟩ := bind_ok h
    exact ⟨signed_of_spelled hp hv.1 hw, signed_of_spelledFields hp hv.2 h⟩

end

end values

mutual

/-- Every integer it reads is an `i64`. -/
theorem signed_of_strict : ∀ {x : Raw} {v : Value}, x.InRange → strict x = .ok v →
    v.EveryNumber Signed
  | .null, _, _, h | .bool _, _, _, h | .str _, _, _, h => by
    rw [← Except.ok.inj h]
    trivial
  | .f64 f, _, _, h => by
    rw [← Except.ok.inj h]
    exact signed_float f
  | .i64 i, _, hr, h => by
    rw [← Except.ok.inj h]
    exact signed_int.2 hr
  | .u64 n, _, _, h => by
    rw [strict] at h
    split_ifs at h with hlarge
    rw [← Except.ok.inj h]
    exact signed_int.2 ⟨by omega, by omega⟩
  | .seq items, _, hr, h => by
    rw [strict] at h
    obtain ⟨vs, hvs, h⟩ := bind_ok h
    rw [← Except.ok.inj h]
    exact signed_of_strictItems hr hvs
  | .map fields, _, hr, h => by
    rw [strict] at h
    obtain ⟨vs, hvs, h⟩ := bind_ok h
    rw [← Except.ok.inj h]
    exact @signed_of_strictFields fields [] vs hr trivial hvs

theorem signed_of_strictItems : ∀ {xs : List Raw} {vs : List Value}, Raw.InRangeItems xs →
    strictItems xs = .ok vs → Value.EveryNumberItems Signed vs
  | [], _, _, h => by
    rw [← Except.ok.inj h]
    trivial
  | x :: xs, _, hr, h => by
    rw [strictItems] at h
    obtain ⟨v, hv, h⟩ := bind_ok h
    obtain ⟨vs, hvs, h⟩ := bind_ok h
    rw [← Except.ok.inj h]
    exact ⟨signed_of_strict hr.1 hv, signed_of_strictItems hr.2 hvs⟩

theorem signed_of_strictFields : ∀ {xs : List (String × Raw)} {out vs : List (String × Value)},
    Raw.InRangeFields xs → Value.EveryNumberFields Signed out → strictFields out xs = .ok vs →
    Value.EveryNumberFields Signed vs
  | [], _, _, _, hout, h => by
    rw [← Except.ok.inj h]
    exact hout
  | (k, x) :: xs, out, _, hr, hout, h => by
    rw [strictFields] at h
    split_ifs at h
    obtain ⟨v, hv, h⟩ := bind_ok h
    refine signed_of_strictFields hr.2 ?_ h
    rw [Value.everyNumberFields_iff] at hout ⊢
    rw [List.forall_mem_append]
    exact ⟨hout, by simpa using signed_of_strict hr.1 hv⟩

end

/-! ## Repetitions -/

mutual

/-- What the strict reader accepts repeats no property. -/
theorem unique_of_strict : ∀ {x : Spelling} {r : Raw} {v : Value}, x.Shows r → strict r = .ok v →
    x.Unique
  | _, _, _, .null, _ | _, _, _, .bool _, _ | _, _, _, .i64 _ _, _ | _, _, _, .u64 _ _, _
  | _, _, _, .f64 _ _, _ | _, _, _, .str _, _ => trivial
  | _, _, _, .arr h, hv => by
    rw [strict] at hv
    obtain ⟨vs, hvs, -⟩ := bind_ok hv
    exact unique_of_strictItems h hvs
  | _, _, _, .obj h, hv => by
    rw [strict] at hv
    obtain ⟨fields, hfields, -⟩ := bind_ok hv
    have hunique := unique_of_strictFields h hfields
    exact ⟨hunique.1, hunique.2.2⟩

theorem unique_of_strictItems : ∀ {xs : List Spelling} {rs : List Raw} {vs : List Value},
    ShowsItems xs rs → strictItems rs = .ok vs → UniqueItems xs
  | _, _, _, .nil, _ => trivial
  | _, _, _, .cons h hs, hvs => by
    rw [strictItems] at hvs
    obtain ⟨v, hv, hvs⟩ := bind_ok hvs
    obtain ⟨vs, hvs, -⟩ := bind_ok hvs
    exact ⟨unique_of_strict h hv, unique_of_strictItems hs hvs⟩

theorem unique_of_strictFields : ∀ {xs : List (String × Spelling)} {rs : List (String × Raw)}
    {out fields : List (String × Value)}, ShowsFields xs rs → strictFields out rs = .ok fields →
    (xs.map Prod.fst).Nodup ∧ (∀ k ∈ xs.map Prod.fst, k ∉ out.map Prod.fst) ∧ UniqueFields xs
  | _, _, _, _, .nil, _ => ⟨List.nodup_nil, by simp, trivial⟩
  | _, _, out, _, @ShowsFields.cons k x r xs rs h hs, hfields => by
    rw [strictFields] at hfields
    split at hfields
    · cases hfields
    · rename_i hnew
      obtain ⟨v, hv, hrest⟩ := bind_ok hfields
      obtain ⟨hnodup, hout, hunique⟩ := unique_of_strictFields hs hrest
      have hfresh : ∀ k' ∈ xs.map Prod.fst, k' ∉ out.map Prod.fst ∧ k' ≠ k := by
        intro k' hk'
        have hnot := hout k' hk'
        rw [List.map_append, List.mem_append, not_or] at hnot
        exact ⟨hnot.1, fun heq => hnot.2 (by simp [heq])⟩
      refine ⟨List.nodup_cons.2 ⟨fun hmem => (hfresh k hmem).2 rfl, hnodup⟩, ?_,
        unique_of_strict h hv, hunique⟩
      intro k' hk'
      rcases List.mem_cons.1 hk' with rfl | hk'
      · exact lookup_isSome.mp hnew
      · exact (hfresh k' hk').1

end

/-- The strict reader takes back every value `python_json` writes, and refuses every text with a
repeated property. -/
theorem parseStrictJson_pythonJson (host : Host) (hr : host.ReadsText) (hp : host.Prints) :
    (∀ v : Value, v.valid = true → v.EveryNumber Signed → v.depth ≤ 127 →
      parseStrictJson host (Tools.pythonJson host v) = .ok v) ∧
    ∀ (text : String) (x : Spelling), Spelling.ofText text.toList = some x → ¬x.Unique →
      ∃ e, parseStrictJson host text = .error e := by
  refine ⟨fun v hv hi hdepth => ?_, fun text x hx hunique => ?_⟩
  · obtain ⟨htokens, hreadable⟩ := spelled_readable hp hv
    have hread : Spelling.ofText (Tools.pythonJson host v).toList = some (spelled host v) := by
      rw [pythonJson_toList, read_spaced quotes_pythonQuote htokens]
    have hraw := hr.reads hread hreadable (by rw [spelled_depth]; exact hdepth)
    rw [parseStrictJson, hraw]
    exact strict_spelled hp hv hi
  · cases h : parseStrictJson host text with
    | error e => exact ⟨e, rfl⟩
    | ok v =>
      rw [parseStrictJson] at h
      obtain ⟨r, hraw, hstrict⟩ := bind_ok h
      obtain ⟨y, hy, hshows⟩ := hr.shows hraw
      obtain rfl : x = y := Option.some.inj (hx.symm.trans hy)
      exact absurd (unique_of_strict hshows hstrict) hunique

/-- `serde_json`'s reader as it is documented. -/
def readSpelling (text : String) : Except String Raw :=
  match Spelling.ofText text.toList with
  | none => .error "expected value"
  | some x => if x.depth ≤ 127 then .ok x.raw else .error "recursion limit exceeded"

/-- The libraries as far as they are documented, on any text. -/
def textHost : Host := { Python.shortHost with reader := readSpelling }

theorem textHost_prints : textHost.Prints := Python.shortHost_prints

theorem textHost_readsText : textHost.ReadsText := by
  constructor
  · intro text r h
    have h : readSpelling text = .ok r := h
    rw [readSpelling] at h
    cases hread : Spelling.ofText text.toList with
    | none =>
      rw [hread] at h
      cases h
    | some x =>
      rw [hread] at h
      dsimp only at h
      split at h
      · rw [← Except.ok.inj h]
        exact ⟨x, rfl, shows_raw x⟩
      · cases h
  · intro text x hread _ hdepth
    show readSpelling text = _
    rw [readSpelling, hread]
    exact if_pos hdepth

theorem textHost_readsBounded : textHost.ReadsBounded := by
  refine { textHost_readsText with range := ?_, limit := ?_ }
  · intro text r h
    have h : readSpelling text = .ok r := h
    unfold readSpelling at h
    split at h
    · cases h
    · split_ifs at h
      rw [← Except.ok.inj h]
      exact raw_inRange _
  · intro text x hread hdepth
    show ∃ e, readSpelling text = .error e
    rw [readSpelling, hread]
    exact ⟨_, if_neg (by omega)⟩

/-- A value with both kinds of numbers, the double a negative zero. -/
def sampleDocument : Value :=
  .obj [("é\n", .arr [.int 1, .num (.float { F64.zero with negative := true })])]

/-- A property twice, under two spellings of its name. -/
def sampleRepetition : List Char :=
  ['\x7b', '"', 'a', '"', ':', '[', '1', ']', ',', '"', '\\', 'u', '0', '0', '6', '1', '"', ':',
    '2', '\x7d']

theorem ofText_sampleRepetition : Spelling.ofText sampleRepetition =
    some (.obj [("a", .arr [.num ['1']]), ("a", .num ['2'])]) := rfl

theorem parseStrictJson_sample :
    parseStrictJson textHost (Tools.pythonJson textHost sampleDocument) = .ok sampleDocument ∧
      ∃ e, parseStrictJson textHost (.ofList sampleRepetition) = .error e := by
  obtain ⟨htaken, hrefused⟩ := parseStrictJson_pythonJson textHost textHost_readsText textHost_prints
  refine ⟨htaken sampleDocument (by decide) ?_ (by decide), ?_⟩
  · refine ⟨⟨?_, ?_, trivial⟩, trivial⟩
    · intro i hi
      rw [← Number.int.inj hi]
      decide
    · intro i hi
      cases hi
  · have hread := ofText_sampleRepetition
    rw [← String.toList_ofList (l := sampleRepetition)] at hread
    refine hrefused _ _ hread ?_
    intro h
    have hnodup := h.1
    simp at hnodup

end StateDrivenAgent
