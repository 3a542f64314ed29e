import StateDrivenAgent.Json.Document
import StateDrivenAgent.Json.Reading

/-!
# The JSON grammar

Any JSON text as a tree: white space between the tokens, strings with all their escapes. Numbers are
the runs of number characters; which of these the grammar allows is `Decimal.IsNumber`. `parse`
reads a text; it takes back what `spaced` writes with a blank after each comma and colon
(`parse_spaced`), whatever escapes the strings are written with (`Quotes`).

`Host.ReadsText` is what `serde_json` documents of its reader for all of these texts.
-/

namespace Decimal

/-- The exponent of a number, if it has one. -/
inductive IsExponent : List Char → Prop
  | none : IsExponent []
  | some {mark : Char} {sign ds : List Char} (hm : mark = 'e' ∨ mark = 'E')
      (hs : sign = [] ∨ sign = ['+'] ∨ sign = ['-']) (hne : ds ≠ []) (hd : AllDigits ds) :
      IsExponent (mark :: (sign ++ ds))

/-- A number of the JSON grammar. -/
def IsNumber (token : List Char) : Prop :=
  ∃ (n : Numeral) (e : List Char), n.exponent = .none ∧ IsExponent e ∧ token = n.text ++ e

theorem Numeral.text_of_exponent {n : Numeral} (h : n.exponent = .none) :
    n.text = (if n.negative then ['-'] else []) ++ (n.whole ++ n.fractionText) := by
  rw [text, unsigned, h, exponentText, List.append_nil]

theorem IsNumber.of_numeral {n : Numeral} (h : n.exponent = .none) : IsNumber n.text :=
  ⟨n, [], h, .none, by rw [List.append_nil]⟩

/-- The value of a number with an exponent. -/
theorem read_exponent {n : Numeral} (h : n.exponent = .none) {mark : Char} (cs : List Char)
    (hm : mark = 'e' ∨ mark = 'E') :
    read (n.text ++ mark :: cs) = n.value * 10 ^ readExponent cs := by
  have hmark : notExponent mark = false := by rcases hm with rfl | rfl <;> rfl
  have hunsigned : n.unsigned = n.whole ++ n.fractionText := by
    rw [Numeral.unsigned, h, Numeral.exponentText, List.append_nil]
  obtain ⟨c, tail, hc, hdigit⟩ := n.unsigned_head
  have hminus : c ≠ '-' := isDigit_ne hdigit rfl
  have hdrop : (n.text ++ mark :: cs).dropWhile (· = '-') = n.unsigned ++ mark :: cs := by
    rw [Numeral.text, hc]
    cases n.negative <;> simp [hminus]
  have hhead : (n.text ++ mark :: cs).head? = some '-' ↔ n.negative = true := by
    rw [Numeral.text, hc]
    cases n.negative <;> simp [hminus]
  have htake : (n.unsigned ++ mark :: cs).takeWhile notExponent = n.whole ++ n.fractionText := by
    rw [hunsigned, List.takeWhile_append_of_pos n.mantissa_notExponent,
      List.takeWhile_cons_of_neg (by simp [hmark]), List.append_nil]
  have hrest : ((n.unsigned ++ mark :: cs).dropWhile notExponent).drop 1 = cs := by
    rw [hunsigned, List.dropWhile_append_of_pos n.mantissa_notExponent,
      List.dropWhile_cons_of_neg (by simp [hmark])]
    rfl
  have hexp : n.exp = 0 := by rw [Numeral.exp, h]; rfl
  have hpow : ∀ a : Rat, a * 10 ^ (readExponent cs - n.fraction.length) =
      a * 10 ^ ((0 : Int) - n.fraction.length) * 10 ^ readExponent cs := by
    intro a
    rw [mul_assoc, ← zpow_add₀ (by norm_num)]
    congr 2
    omega
  rw [read]
  simp only [hdrop, htake, hrest, n.takeWhile_mantissa, n.dropWhile_mantissa, hhead]
  rw [Numeral.value, Numeral.magnitude, hexp, hpow]
  cases n.negative <;> simp

end Decimal

namespace StateDrivenAgent

theorem isNumberChar_of_isNumber {token : List Char} (h : Decimal.IsNumber token) :
    token ≠ [] ∧ ∀ c ∈ token, isNumberChar c = true := by
  obtain ⟨n, e, -, he, rfl⟩ := h
  constructor
  · obtain ⟨c, cs, hcs, -⟩ := n.unsigned_head
    rw [Decimal.Numeral.text, hcs]
    simp
  · intro c hc
    rcases List.mem_append.1 hc with hc | hc
    · exact isNumberChar_text n c hc
    · cases he with
      | none => cases hc
      | some hm hs hne hd =>
        rcases List.mem_cons.1 hc with rfl | hc
        · rcases hm with rfl | rfl <;> rfl
        · rcases List.mem_append.1 hc with hc | hc
          · rcases hs with rfl | rfl | rfl
            · cases hc
            · rw [List.mem_singleton.1 hc]; rfl
            · rw [List.mem_singleton.1 hc]; rfl
          · exact isNumberChar_of_isDigit (hd c hc)

namespace Spelling

/-! ## Strings -/

/-- A character of a string as it is written: itself, or a UTF-16 unit. -/
inductive Glyph where
  | char (c : Char)
  | unit (n : Nat)

def hexValue? (c : Char) : Option Nat :=
  if '0' ≤ c && c ≤ '9' then some (c.toNat - '0'.toNat)
  else if 'a' ≤ c && c ≤ 'f' then some (c.toNat - 'a'.toNat + 10)
  else if 'A' ≤ c && c ≤ 'F' then some (c.toNat - 'A'.toNat + 10)
  else none

def unitOf (a b c d : Char) : Option Nat := do
  return ((← hexValue? a) * 16 + (← hexValue? b)) * 256 + ((← hexValue? c) * 16 + (← hexValue? d))

/-- The escapes of one character. -/
def unescape (c : Char) : Option Char :=
  if c = '"' || c = '\\' || c = '/' then some c
  else if c = 'b' then some (Char.ofNat 8)
  else if c = 'f' then some (Char.ofNat 12)
  else if c = 'n' then some '\n'
  else if c = 'r' then some '\r'
  else if c = 't' then some '\t'
  else none

/-- The marks of a string up to its closing quote. -/
def scan : List Char → Option (List Glyph × List Char)
  | [] => none
  | '"' :: rest => some ([], rest)
  | '\\' :: 'u' :: a :: b :: c :: d :: rest => do
    let n ← unitOf a b c d
    let (marks, rest) ← scan rest
    return (.unit n :: marks, rest)
  | '\\' :: c :: rest => do
    let c ← unescape c
    let (marks, rest) ← scan rest
    return (.char c :: marks, rest)
  | c :: rest =>
    if c.toNat < 32 then none else do
      let (marks, rest) ← scan rest
      return (.char c :: marks, rest)

def isHigh (n : Nat) : Bool := 0xd800 ≤ n && n < 0xdc00

def isLow (n : Nat) : Bool := 0xdc00 ≤ n && n < 0xe000

/-- The text of the marks; a surrogate needs its partner. -/
def decode : List Glyph → Option (List Char)
  | [] => some []
  | .char c :: marks => (decode marks).map fun cs => c :: cs
  | [.unit n] => if isHigh n || isLow n then none else some [Char.ofNat n]
  | .unit n :: .char c :: marks =>
    if isHigh n || isLow n then none
    else (decode (.char c :: marks)).map fun cs => Char.ofNat n :: cs
  | .unit n :: .unit m :: marks =>
    if isHigh n then
      if isLow m then (decode marks).map fun cs =>
        Char.ofNat (0x10000 + (n - 0xd800) * 0x400 + (m - 0xdc00)) :: cs
      else none
    else if isLow n then none
    else (decode (.unit m :: marks)).map fun cs => Char.ofNat n :: cs

/-- The rest of a string after its opening quote. -/
def readString (cs : List Char) : Option (String × List Char) := do
  let (marks, rest) ← scan cs
  let cs ← decode marks
  return (.ofList cs, rest)

/-! ## Texts -/

def isSpace (c : Char) : Bool := c = ' ' || c = '\t' || c = '\n' || c = '\r'

def skip (cs : List Char) : List Char := cs.dropWhile isSpace

mutual

def readValue : Nat → List Char → Option (Spelling × List Char)
  | 0, _ => none
  | fuel + 1, cs =>
    match skip cs with
    | 'n' :: 'u' :: 'l' :: 'l' :: rest => some (null, rest)
    | 't' :: 'r' :: 'u' :: 'e' :: rest => some (bool true, rest)
    | 'f' :: 'a' :: 'l' :: 's' :: 'e' :: rest => some (bool false, rest)
    | '"' :: rest => (readString rest).map fun p => (str p.1, p.2)
    | '[' :: rest =>
      if (skip rest).head? = some ']' then some (arr [], (skip rest).drop 1)
      else (readItems fuel rest).map fun p => (arr p.1, p.2)
    | '\x7b' :: rest =>
      if (skip rest).head? = some '\x7d' then some (obj [], (skip rest).drop 1)
      else (readFields fuel rest).map fun p => (obj p.1, p.2)
    | cs =>
      if cs.takeWhile isNumberChar = [] then none
      else some (num (cs.takeWhile isNumberChar), cs.dropWhile isNumberChar)

/-- The items of an array up to its closing bracket. -/
def readItems : Nat → List Char → Option (List Spelling × List Char)
  | 0, _ => none
  | fuel + 1, cs => do
    let (x, rest) ← readValue fuel cs
    match skip rest with
    | ',' :: rest =>
      let (xs, rest) ← readItems fuel rest
      return (x :: xs, rest)
    | ']' :: rest => return ([x], rest)
    | _ => none

/-- The properties of an object up to its closing brace. -/
def readFields : Nat → List Char → Option (List (String × Spelling) × List Char)
  | 0, _ => none
  | fuel + 1, cs =>
    match skip cs with
    | '"' :: cs => do
      let (k, rest) ← readString cs
      match skip rest with
      | ':' :: rest =>
        let (x, rest) ← readValue fuel rest
        match skip rest with
        | ',' :: rest =>
          let (xs, rest) ← readFields fuel rest
          return ((k, x) :: xs, rest)
        | '\x7d' :: rest => return ([(k, x)], rest)
        | _ => none
      | _ => none
    | _ => none

end

/-- The tree of a whole text. -/
def ofText (cs : List Char) : Option Spelling :=
  match readValue (cs.length + 1) cs with
  | some (x, rest) => if skip rest = [] then some x else none
  | none => none

/-! ## What is written is read -/

section written

-- how a string is written, its quotes included, and what is put after each comma and each colon
variable (quote : String → List Char) (gap : List Char)

/-- Every string is read as it is written. -/
def Quotes : Prop := ∀ s rest, ∃ tail, quote s = '"' :: tail ∧
  readString (tail ++ rest) = some (s, rest)

mutual

/-- The text with a blank after each comma and each colon. -/
def spaced : Spelling → List Char
  | null => ['n', 'u', 'l', 'l']
  | bool true => ['t', 'r', 'u', 'e']
  | bool false => ['f', 'a', 'l', 's', 'e']
  | num token => token
  | str s => quote s
  | arr items => '[' :: (spacedItems items ++ [']'])
  | obj fields => '\x7b' :: (spacedFields fields ++ ['\x7d'])

def spacedItems : List Spelling → List Char
  | [] => []
  | [x] => spaced x
  | x :: y :: ys => spaced x ++ ',' :: ' ' :: spacedItems (y :: ys)

def spacedFields : List (String × Spelling) → List Char
  | [] => []
  | [(k, x)] => quote k ++ ':' :: ' ' :: spaced x
  | (k, x) :: y :: ys =>
    quote k ++ ':' :: ' ' :: (spaced x ++ ',' :: ' ' :: spacedFields (y :: ys))

end

mutual

/-- The text with a gap after each comma and each colon. -/
def gapped : Spelling → List Char
  | null => ['n', 'u', 'l', 'l']
  | bool true => ['t', 'r', 'u', 'e']
  | bool false => ['f', 'a', 'l', 's', 'e']
  | num token => token
  | str s => quote s
  | arr items => '[' :: (gappedItems items ++ [']'])
  | obj fields => '\x7b' :: (gappedFields fields ++ ['\x7d'])

def gappedItems : List Spelling → List Char
  | [] => []
  | [x] => gapped x
  | x :: y :: ys => gapped x ++ ',' :: (gap ++ gappedItems (y :: ys))

def gappedFields : List (String × Spelling) → List Char
  | [] => []
  | [(k, x)] => quote k ++ ':' :: (gap ++ gapped x)
  | (k, x) :: y :: ys =>
    quote k ++ ':' :: (gap ++ (gapped x ++ ',' :: (gap ++ gappedFields (y :: ys))))

end

variable {quote gap}

mutual

theorem spaced_eq : ∀ x : Spelling, spaced quote x = gapped quote [' '] x
  | null | bool true | bool false | num _ | str _ => rfl
  | arr items => by rw [spaced, gapped, spacedItems_eq]
  | obj fields => by rw [spaced, gapped, spacedFields_eq]

theorem spacedItems_eq : ∀ xs : List Spelling, spacedItems quote xs = gappedItems quote [' '] xs
  | [] => rfl
  | [x] => spaced_eq x
  | x :: y :: ys => by
    rw [spacedItems, gappedItems, spaced_eq, spacedItems_eq (y :: ys)]
    rfl

theorem spacedFields_eq : ∀ xs : List (String × Spelling),
    spacedFields quote xs = gappedFields quote [' '] xs
  | [] => rfl
  | [(k, x)] => by
    rw [spacedFields, gappedFields, spaced_eq]
    rfl
  | (k, x) :: y :: ys => by
    rw [spacedFields, gappedFields, spaced_eq, spacedFields_eq (y :: ys)]
    rfl

end

mutual

theorem text_eq : ∀ x : Spelling, x.text = gapped stringText [] x
  | null | bool true | bool false | num _ | str _ => rfl
  | arr items => by rw [text, gapped, textItems_eq]
  | obj fields => by rw [text, gapped, textFields_eq]

theorem textItems_eq : ∀ xs : List Spelling, textItems xs = gappedItems stringText [] xs
  | [] => rfl
  | [x] => text_eq x
  | x :: y :: ys => by rw [textItems_cons_cons, gappedItems, text_eq, textItems_eq (y :: ys),
      List.nil_append]

theorem textFields_eq : ∀ xs : List (String × Spelling),
    textFields xs = gappedFields stringText [] xs
  | [] => rfl
  | [(k, x)] => by
    rw [textFields, gappedFields, text_eq, List.nil_append]
  | (k, x) :: y :: ys => by
    rw [textFields_cons_cons, gappedFields, text_eq, textFields_eq (y :: ys), List.nil_append,
      List.nil_append]

end

theorem skip_cons {c : Char} {cs : List Char} (h : isSpace c = false) : skip (c :: cs) = c :: cs :=
  List.dropWhile_cons_of_neg (by simp [h])

/-- What is put between the parts is white space. -/
def Gap (gap : List Char) : Prop := ∀ c ∈ gap, isSpace c = true

theorem gap_nil : Gap [] := fun _ h => absurd h List.not_mem_nil

theorem gap_blank : Gap [' '] := by
  intro c hc
  rw [List.mem_singleton.1 hc]
  rfl

theorem skip_gap (hg : Gap gap) (cs : List Char) : skip (gap ++ cs) = skip cs :=
  List.dropWhile_append_of_pos hg

theorem isSpace_of_isNumberChar {c : Char} (h : isNumberChar c = true) : isSpace c = false := by
  rw [isSpace]
  simp only [Bool.or_eq_false_iff, decide_eq_false_iff_not]
  refine ⟨⟨⟨?_, ?_⟩, ?_⟩, ?_⟩
  all_goals
    rintro rfl
    revert h
    decide

/-- The first character of a value ends nothing. -/
theorem gapped_head (hq : Quotes quote) {x : Spelling} (hx : x.Tokens) :
    ∃ c cs, gapped quote gap x = c :: cs ∧ isSpace c = false ∧ c ≠ ']' := by
  cases x with
  | null => exact ⟨_, _, rfl, rfl, by decide⟩
  | bool b => cases b <;> exact ⟨_, _, rfl, rfl, by decide⟩
  | num token =>
    obtain ⟨c, cs, rfl⟩ := List.exists_cons_of_ne_nil hx.1
    have hc := hx.2 c List.mem_cons_self
    refine ⟨c, cs, rfl, isSpace_of_isNumberChar hc, ?_⟩
    rintro rfl
    revert hc
    decide
  | str s =>
    obtain ⟨tail, htail, -⟩ := hq s []
    exact ⟨_, tail, htail, rfl, by decide⟩
  | arr items => exact ⟨_, _, rfl, rfl, by decide⟩
  | obj fields => exact ⟨_, _, rfl, rfl, by decide⟩

theorem gappedItems_head (hq : Quotes quote) {x : Spelling} (hx : x.Tokens) (xs : List Spelling) :
    ∃ c cs, gappedItems quote gap (x :: xs) = c :: cs ∧ isSpace c = false ∧ c ≠ ']' := by
  obtain ⟨c, cs, hcs, hspace, hc⟩ := gapped_head hq hx
  cases xs with
  | nil => exact ⟨c, cs, hcs, hspace, hc⟩
  | cons y ys =>
    refine ⟨c, cs ++ ',' :: (gap ++ gappedItems quote gap (y :: ys)), ?_, hspace, hc⟩
    rw [gappedItems, hcs, List.cons_append]

theorem gappedFields_head (hq : Quotes quote) (k : String) (x : Spelling)
    (xs : List (String × Spelling)) : ∃ cs, gappedFields quote gap ((k, x) :: xs) = '"' :: cs := by
  obtain ⟨tail, htail, -⟩ := hq k []
  cases xs with
  | nil => exact ⟨_, by rw [gappedFields, htail]; rfl⟩
  | cons y ys => exact ⟨_, by rw [gappedFields, htail]; rfl⟩

theorem readValue_token {token rest : List Char} {fuel : Nat} (hne : token ≠ [])
    (hall : ∀ c ∈ token, isNumberChar c = true) (hrest : Ends rest) :
    readValue (fuel + 1) (token ++ rest) = some (num token, rest) := by
  have htake : (token ++ rest).takeWhile isNumberChar = token := by
    rw [List.takeWhile_append_of_pos hall]
    cases rest with
    | nil => simp
    | cons c cs =>
      rw [List.takeWhile_cons_of_neg (by simp [hrest c cs rfl]), List.append_nil]
  have hdrop : (token ++ rest).dropWhile isNumberChar = rest := by
    rw [List.dropWhile_append_of_pos hall]
    cases rest with
    | nil => rfl
    | cons c cs => rw [List.dropWhile_cons_of_neg (by simp [hrest c cs rfl])]
  obtain ⟨c, cs, hcs⟩ := List.exists_cons_of_ne_nil hne
  have hc : isNumberChar c = true := hall c (by rw [hcs]; exact List.mem_cons_self)
  have hskip : skip (token ++ rest) = token ++ rest := by
    rw [hcs, List.cons_append, skip_cons (isSpace_of_isNumberChar hc)]
  rw [readValue, hskip]
  split
  case _ h | _ h | _ h | _ h | _ h | _ h =>
    rw [hcs, List.cons_append, List.cons.injEq] at h
    rw [h.1] at hc
    exact absurd hc (by decide)
  case _ => rw [htake, hdrop, if_neg hne]

/-- White space before a value is skipped. -/
theorem readValue_gap (hg : Gap gap) {fuel : Nat} {cs : List Char} :
    readValue fuel (gap ++ cs) = readValue fuel cs := by
  cases fuel with
  | zero => rfl
  | succ fuel => rw [readValue, readValue, skip_gap hg]

theorem readItems_gap (hg : Gap gap) {fuel : Nat} {cs : List Char} :
    readItems fuel (gap ++ cs) = readItems fuel cs := by
  cases fuel with
  | zero => rfl
  | succ fuel => rw [readItems, readItems, readValue_gap hg]

theorem readFields_gap (hg : Gap gap) {fuel : Nat} {cs : List Char} :
    readFields fuel (gap ++ cs) = readFields fuel cs := by
  cases fuel with
  | zero => rfl
  | succ fuel => rw [readFields, readFields, skip_gap hg]

mutual

theorem readValue_gapped (hq : Quotes quote) (hg : Gap gap) : ∀ {x : Spelling} {fuel : Nat}
    {rest : List Char}, x.Tokens → x.weight ≤ fuel → Ends rest →
    readValue fuel (gapped quote gap x ++ rest) = some (x, rest)
  | x, 0, rest, _, hw, _ => by
    cases x <;> simp [weight] at hw
  | .null, fuel + 1, rest, _, _, _ => rfl
  | .bool true, fuel + 1, rest, _, _, _ => rfl
  | .bool false, fuel + 1, rest, _, _, _ => rfl
  | .num token, fuel + 1, rest, ht, _, hrest => readValue_token ht.1 ht.2 hrest
  | .str s, fuel + 1, rest, _, _, _ => by
    obtain ⟨tail, htail, hread⟩ := hq s rest
    rw [gapped, htail, List.cons_append, readValue, skip_cons rfl]
    simp only [hread, Option.map_some]
  | .arr [], fuel + 1, rest, _, _, _ => rfl
  | .arr (x :: xs), fuel + 1, rest, ht, hw, _ => by
    have hitems : readItems fuel (gappedItems quote gap (x :: xs) ++ ']' :: rest) =
        some (x :: xs, rest) := readItems_gapped hq hg ht (by simpa [weight] using hw)
    obtain ⟨c, cs, hcs, hspace, hc⟩ := gappedItems_head hq ht.1 xs
    have hskip : skip (gappedItems quote gap (x :: xs) ++ ']' :: rest) =
        gappedItems quote gap (x :: xs) ++ ']' :: rest := by
      rw [hcs, List.cons_append, skip_cons hspace]
    rw [gapped, List.cons_append, List.append_assoc, List.singleton_append, readValue,
      skip_cons rfl]
    simp only [hskip]
    rw [if_neg (by simp [hcs, hc]), hitems]
    rfl
  | .obj [], fuel + 1, rest, _, _, _ => rfl
  | .obj ((k, x) :: xs), fuel + 1, rest, ht, hw, _ => by
    have hfields : readFields fuel (gappedFields quote gap ((k, x) :: xs) ++ '\x7d' :: rest) =
        some ((k, x) :: xs, rest) := readFields_gapped hq hg ht (by simpa [weight] using hw)
    obtain ⟨cs, hcs⟩ := gappedFields_head hq k x xs
    have hskip : skip (gappedFields quote gap ((k, x) :: xs) ++ '\x7d' :: rest) =
        gappedFields quote gap ((k, x) :: xs) ++ '\x7d' :: rest := by
      rw [hcs, List.cons_append, skip_cons rfl]
    rw [gapped, List.cons_append, List.append_assoc, List.singleton_append, readValue,
      skip_cons rfl]
    simp only [hskip]
    rw [if_neg (by simp [hcs]), hfields]
    rfl

theorem readItems_gapped (hq : Quotes quote) (hg : Gap gap) : ∀ {x : Spelling}
    {xs : List Spelling} {fuel : Nat} {rest : List Char}, TokensItems (x :: xs) →
    weightItems (x :: xs) ≤ fuel →
    readItems fuel (gappedItems quote gap (x :: xs) ++ ']' :: rest) = some (x :: xs, rest)
  | x, xs, 0, rest, _, hw => by
    simp [weightItems] at hw
  | x, [], fuel + 1, rest, ht, hw => by
    have hx : readValue fuel (gapped quote gap x ++ ']' :: rest) = some (x, ']' :: rest) :=
      readValue_gapped hq hg ht.1 (by simp [weightItems] at hw; omega) (ends_cons (by decide))
    rw [gappedItems, readItems, hx]
    rfl
  | x, y :: xs, fuel + 1, rest, ht, hw => by
    have hx : readValue fuel (gapped quote gap x ++ ',' :: (gap ++
        (gappedItems quote gap (y :: xs) ++ ']' :: rest))) =
        some (x, ',' :: (gap ++ (gappedItems quote gap (y :: xs) ++ ']' :: rest))) :=
      readValue_gapped hq hg ht.1 (by rw [weightItems] at hw; omega) (ends_cons (by decide))
    have hxs : readItems fuel (gappedItems quote gap (y :: xs) ++ ']' :: rest) =
        some (y :: xs, rest) :=
      readItems_gapped hq hg ht.2 (by rw [weightItems] at hw; omega)
    rw [gappedItems, List.append_assoc, List.cons_append, List.append_assoc, readItems, hx]
    simp only [Option.bind_eq_bind, Option.bind_some, skip_cons (show isSpace ',' = false from rfl),
      readItems_gap hg, hxs]
    rfl

theorem readFields_gapped (hq : Quotes quote) (hg : Gap gap) : ∀ {k : String} {x : Spelling}
    {xs : List (String × Spelling)} {fuel : Nat} {rest : List Char},
    TokensFields ((k, x) :: xs) → weightFields ((k, x) :: xs) ≤ fuel →
    readFields fuel (gappedFields quote gap ((k, x) :: xs) ++ '\x7d' :: rest) =
      some ((k, x) :: xs, rest)
  | k, x, xs, 0, rest, _, hw => by
    simp [weightFields] at hw
  | k, x, [], fuel + 1, rest, ht, hw => by
    have hx : readValue fuel (gapped quote gap x ++ '\x7d' :: rest) = some (x, '\x7d' :: rest) :=
      readValue_gapped hq hg ht.1 (by simp [weightFields] at hw; omega) (ends_cons (by decide))
    obtain ⟨tail, htail, hread⟩ := hq k (':' :: (gap ++ (gapped quote gap x ++ '\x7d' :: rest)))
    rw [gappedFields, htail, List.append_assoc, List.cons_append, List.cons_append,
      List.append_assoc, readFields, skip_cons rfl]
    simp only [hread, Option.bind_eq_bind, Option.bind_some,
      skip_cons (show isSpace ':' = false from rfl), readValue_gap hg, hx]
    rfl
  | k, x, (k', y) :: xs, fuel + 1, rest, ht, hw => by
    have hx : readValue fuel (gapped quote gap x ++ ',' :: (gap ++
        (gappedFields quote gap ((k', y) :: xs) ++ '\x7d' :: rest))) =
        some (x, ',' :: (gap ++ (gappedFields quote gap ((k', y) :: xs) ++ '\x7d' :: rest))) :=
      readValue_gapped hq hg ht.1 (by rw [weightFields] at hw; omega) (ends_cons (by decide))
    have hxs : readFields fuel (gappedFields quote gap ((k', y) :: xs) ++ '\x7d' :: rest) =
        some ((k', y) :: xs, rest) := readFields_gapped hq hg ht.2 (by rw [weightFields] at hw; omega)
    obtain ⟨tail, htail, hread⟩ := hq k (':' :: (gap ++ (gapped quote gap x ++ ',' :: (gap ++
      (gappedFields quote gap ((k', y) :: xs) ++ '\x7d' :: rest)))))
    rw [gappedFields, htail, List.append_assoc, List.cons_append, List.cons_append,
      List.append_assoc, List.append_assoc, List.cons_append, List.append_assoc, readFields,
      skip_cons rfl]
    simp only [hread, Option.bind_eq_bind, Option.bind_some,
      skip_cons (show isSpace ':' = false from rfl), readValue_gap hg, hx,
      skip_cons (show isSpace ',' = false from rfl), readFields_gap hg, hxs]
    rfl

end

mutual

theorem weight_le_gapped (hq : Quotes quote) : ∀ {x : Spelling}, x.Tokens →
    x.weight ≤ (gapped quote gap x).length
  | .null, _ => by simp [weight, gapped]
  | .bool true, _ => by simp [weight, gapped]
  | .bool false, _ => by simp [weight, gapped]
  | .num token, h => List.length_pos_iff.2 h.1
  | .str s, _ => by
    obtain ⟨tail, htail, -⟩ := hq s []
    simp [weight, gapped, htail]
  | .arr items, h => by
    have hitems := weightItems_le_gapped hq h
    simp only [weight, gapped, List.length_cons, List.length_append, List.length_nil]
    omega
  | .obj fields, h => by
    have hfields := weightFields_le_gapped hq h
    simp only [weight, gapped, List.length_cons, List.length_append, List.length_nil]
    omega

theorem weightItems_le_gapped (hq : Quotes quote) : ∀ {xs : List Spelling}, TokensItems xs →
    weightItems xs ≤ (gappedItems quote gap xs).length + 1
  | [], _ => by simp [weightItems]
  | [x], h => by
    have hx := weight_le_gapped hq h.1
    simp only [weightItems, gappedItems]
    omega
  | x :: y :: ys, h => by
    have hx := weight_le_gapped hq h.1
    have hys := weightItems_le_gapped hq h.2
    rw [gappedItems, weightItems, List.length_append, List.length_cons, List.length_append]
    omega

theorem weightFields_le_gapped (hq : Quotes quote) : ∀ {xs : List (String × Spelling)},
    TokensFields xs → weightFields xs ≤ (gappedFields quote gap xs).length + 1
  | [], _ => by simp [weightFields]
  | [(k, x)], h => by
    have hx := weight_le_gapped hq h.1
    simp only [weightFields, gappedFields, List.length_append, List.length_cons]
    omega
  | (k, x) :: y :: ys, h => by
    have hx := weight_le_gapped hq h.1
    have hys := weightFields_le_gapped hq h.2
    rw [gappedFields, weightFields, List.length_append, List.length_cons, List.length_append,
      List.length_append, List.length_cons, List.length_append]
    omega

end

/-- A text with gaps is read as the tree it was written from. -/
theorem read_gapped (hq : Quotes quote) (hg : Gap gap) {x : Spelling} (hx : x.Tokens) :
    ofText (gapped quote gap x) = some x := by
  have hfuel := @weight_le_gapped _ gap hq _ hx
  have h := @readValue_gapped _ _ hq hg x ((gapped quote gap x).length + 1) [] hx (by omega) ends_nil
  rw [List.append_nil] at h
  rw [ofText, h]
  rfl

theorem read_spaced (hq : Quotes quote) {x : Spelling} (hx : x.Tokens) :
    ofText (spaced quote x) = some x := by
  rw [spaced_eq, read_gapped hq gap_blank hx]

end written

/-! ## Repetitions -/

mutual

/-- No object has two properties of one name. -/
def Unique : Spelling → Prop
  | arr items => UniqueItems items
  | obj fields => (fields.map Prod.fst).Nodup ∧ UniqueFields fields
  | _ => True

def UniqueItems : List Spelling → Prop
  | [] => True
  | x :: xs => x.Unique ∧ UniqueItems xs

def UniqueFields : List (String × Spelling) → Prop
  | [] => True
  | (_, x) :: xs => x.Unique ∧ UniqueFields xs

end

mutual

/-- The events show the tree: literals, strings, names and nesting; a number is some number. -/
inductive Shows : Spelling → Raw → Prop
  | null : Shows .null .null
  | bool (b : Bool) : Shows (.bool b) (.bool b)
  | i64 (token : List Char) (i : Int) : Shows (.num token) (.i64 i)
  | u64 (token : List Char) (n : Nat) : Shows (.num token) (.u64 n)
  | f64 (token : List Char) (f : F64) : Shows (.num token) (.f64 f)
  | str (s : String) : Shows (.str s) (.str s)
  | arr {xs : List Spelling} {rs : List Raw} (h : ShowsItems xs rs) : Shows (.arr xs) (.seq rs)
  | obj {xs : List (String × Spelling)} {rs : List (String × Raw)} (h : ShowsFields xs rs) :
      Shows (.obj xs) (.map rs)

inductive ShowsItems : List Spelling → List Raw → Prop
  | nil : ShowsItems [] []
  | cons {x : Spelling} {r : Raw} {xs : List Spelling} {rs : List Raw} (h : Shows x r)
      (hs : ShowsItems xs rs) : ShowsItems (x :: xs) (r :: rs)

inductive ShowsFields : List (String × Spelling) → List (String × Raw) → Prop
  | nil : ShowsFields [] []
  | cons {k : String} {x : Spelling} {r : Raw} {xs : List (String × Spelling)}
      {rs : List (String × Raw)} (h : Shows x r) (hs : ShowsFields xs rs) :
      ShowsFields ((k, x) :: xs) ((k, r) :: rs)

end

theorem shows_tokenRaw (token : List Char) : Shows (.num token) (tokenRaw token) := by
  rw [tokenRaw]
  split_ifs
  · exact .f64 _ _
  · exact .i64 _ _
  · exact .f64 _ _
  · exact .u64 _ _
  · exact .f64 _ _
  · exact .f64 _ _

mutual

theorem shows_raw : ∀ x : Spelling, x.Shows x.raw
  | .num token => shows_tokenRaw token
  | .null => .null
  | .bool b => .bool b
  | .str s => .str s
  | .arr items => .arr (showsItems_raw items)
  | .obj fields => .obj (showsFields_raw fields)

theorem showsItems_raw : ∀ xs : List Spelling, ShowsItems xs (rawItems xs)
  | [] => .nil
  | x :: xs => .cons (shows_raw x) (showsItems_raw xs)

theorem showsFields_raw : ∀ xs : List (String × Spelling), ShowsFields xs (rawFields xs)
  | [] => .nil
  | (_, x) :: xs => .cons (shows_raw x) (showsFields_raw xs)

end

theorem tokenRaw_inRange (token : List Char) : (tokenRaw token).InRange := by
  rw [tokenRaw]
  split_ifs
  · trivial
  · rw [Raw.InRange]
    omega
  · trivial
  · rw [Raw.InRange]
    omega
  · trivial
  · trivial

mutual

theorem raw_inRange : ∀ x : Spelling, x.raw.InRange
  | .num token => tokenRaw_inRange token
  | .null | .bool _ | .str _ => trivial
  | .arr items => rawItems_inRange items
  | .obj fields => rawFields_inRange fields

theorem rawItems_inRange : ∀ xs : List Spelling, Raw.InRangeItems (rawItems xs)
  | [] => trivial
  | x :: xs => ⟨raw_inRange x, rawItems_inRange xs⟩

theorem rawFields_inRange : ∀ xs : List (String × Spelling), Raw.InRangeFields (rawFields xs)
  | [] => trivial
  | (_, x) :: xs => ⟨raw_inRange x, rawFields_inRange xs⟩

end

mutual

/-- The tokens are JSON numbers, neither too large nor too small for a double. -/
def Readable : Spelling → Prop
  | num token => Decimal.IsNumber token ∧
      (Decimal.read token = 0 ∨ (F64.ofRat (Decimal.read token)).isZero = false)
  | arr items => ReadableItems items
  | obj fields => ReadableFields fields
  | _ => True

def ReadableItems : List Spelling → Prop
  | [] => True
  | x :: xs => x.Readable ∧ ReadableItems xs

def ReadableFields : List (String × Spelling) → Prop
  | [] => True
  | (_, x) :: xs => x.Readable ∧ ReadableFields xs

end

end Spelling

/-- `serde_json`'s reader on any text: what it reports shows the tree of the text, and it reports
the tree of every text whose numbers it can read, down to its recursion limit. -/
structure Host.ReadsText (host : Host) : Prop where
  shows : ∀ {text : String} {r : Raw}, host.reader text = .ok r →
    ∃ x, Spelling.ofText text.toList = some x ∧ x.Shows r
  reads : ∀ {text : String} {x : Spelling}, Spelling.ofText text.toList = some x → x.Readable →
    x.depth ≤ 127 → host.reader text = .ok x.raw

/-- What it reports of an integer is in the range of its type, and no tree deeper than its recursion
limit is reported. -/
structure Host.ReadsBounded (host : Host) : Prop extends host.ReadsText where
  range : ∀ {text : String} {r : Raw}, host.reader text = .ok r → r.InRange
  limit : ∀ {text : String} {x : Spelling}, Spelling.ofText text.toList = some x →
    127 < x.depth → ∃ e, host.reader text = .error e

end StateDrivenAgent
