import Mathlib.Tactic.Common
import Mathlib.Tactic.IntervalCases
import Mathlib.Tactic.SplitIfs
import StateDrivenAgent.Host

/-!
# Spelled documents

A JSON text without white space as a tree: numbers are the tokens as written, strings are spelled as
serde spells them. `parse` reads such a text back (`parse_text`), so that a text has one tree
(`text_injective`).
-/

namespace StateDrivenAgent

inductive Spelling where
  | null
  | bool (b : Bool)
  | num (token : List Char)
  | str (s : String)
  | arr (items : List Spelling)
  | obj (fields : List (String × Spelling))

/-- The characters of a number. -/
def isNumberChar (c : Char) : Bool :=
  ('0' ≤ c && c ≤ '9') || c = '-' || c = '+' || c = '.' || c = 'e' || c = 'E'

namespace Spelling

def stringText (s : String) : List Char := '"' :: (s.toList.flatMap escapeChar ++ ['"'])

mutual

def text : Spelling → List Char
  | null => ['n', 'u', 'l', 'l']
  | bool true => ['t', 'r', 'u', 'e']
  | bool false => ['f', 'a', 'l', 's', 'e']
  | num token => token
  | str s => stringText s
  | arr items => '[' :: (textItems items ++ [']'])
  | obj fields => '\x7b' :: (textFields fields ++ ['\x7d'])

def textItems : List Spelling → List Char
  | [] => []
  | [x] => x.text
  | x :: xs => x.text ++ ',' :: textItems xs

def textFields : List (String × Spelling) → List Char
  | [] => []
  | [(k, x)] => stringText k ++ ':' :: x.text
  | (k, x) :: xs => stringText k ++ ':' :: (x.text ++ ',' :: textFields xs)

end

theorem textItems_cons_cons (x y : Spelling) (ys : List Spelling) :
    textItems (x :: y :: ys) = x.text ++ ',' :: textItems (y :: ys) := by
  rw [textItems]
  simp

theorem textFields_cons_cons (k : String) (x : Spelling) (y : String × Spelling)
    (ys : List (String × Spelling)) : textFields ((k, x) :: y :: ys) =
      stringText k ++ ':' :: (x.text ++ ',' :: textFields (y :: ys)) := by
  rw [textFields]
  simp

mutual

/-- The tokens are made of the characters of a number. -/
def Tokens : Spelling → Prop
  | num token => token ≠ [] ∧ ∀ c ∈ token, isNumberChar c = true
  | arr items => TokensItems items
  | obj fields => TokensFields fields
  | _ => True

def TokensItems : List Spelling → Prop
  | [] => True
  | x :: xs => x.Tokens ∧ TokensItems xs

def TokensFields : List (String × Spelling) → Prop
  | [] => True
  | (_, x) :: xs => x.Tokens ∧ TokensFields xs

end

mutual

/-- The fuel `parseValue` needs. -/
def weight : Spelling → Nat
  | arr items => weightItems items + 1
  | obj fields => weightFields fields + 1
  | _ => 1

def weightItems : List Spelling → Nat
  | [] => 0
  | x :: xs => max x.weight (weightItems xs) + 1

def weightFields : List (String × Spelling) → Nat
  | [] => 0
  | (_, x) :: xs => max x.weight (weightFields xs) + 1

end

/-! ## Reading a text back -/

def hexValue (c : Char) : Nat :=
  if '0' ≤ c && c ≤ '9' then c.toNat - '0'.toNat else c.toNat - 'a'.toNat + 10

/-- The rest of a string after its opening quote. -/
def parseString : List Char → Option (List Char × List Char)
  | '"' :: rest => some ([], rest)
  | '\\' :: 'u' :: a :: b :: c :: d :: rest =>
    (parseString rest).map fun p =>
      (Char.ofNat (((hexValue a * 16 + hexValue b) * 16 + hexValue c) * 16 + hexValue d) :: p.1, p.2)
  | '\\' :: c :: rest =>
    (parseString rest).map fun p =>
      ((if c = 'b' then Char.ofNat 8 else if c = 'f' then Char.ofNat 12 else if c = 'n' then '\n'
        else if c = 'r' then '\r' else if c = 't' then '\t' else c) :: p.1, p.2)
  | c :: rest => (parseString rest).map fun p => (c :: p.1, p.2)
  | [] => none

mutual

def parseValue : Nat → List Char → Option (Spelling × List Char)
  | 0, _ => none
  | fuel + 1, cs =>
    match cs with
    | 'n' :: 'u' :: 'l' :: 'l' :: rest => some (null, rest)
    | 't' :: 'r' :: 'u' :: 'e' :: rest => some (bool true, rest)
    | 'f' :: 'a' :: 'l' :: 's' :: 'e' :: rest => some (bool false, rest)
    | '"' :: rest => (parseString rest).map fun p => (str (.ofList p.1), p.2)
    | '[' :: ']' :: rest => some (arr [], rest)
    | '[' :: rest => (parseItems fuel rest).map fun p => (arr p.1, p.2)
    | '\x7b' :: '\x7d' :: rest => some (obj [], rest)
    | '\x7b' :: rest => (parseFields fuel rest).map fun p => (obj p.1, p.2)
    | cs =>
      if cs.takeWhile isNumberChar = [] then none
      else some (num (cs.takeWhile isNumberChar), cs.dropWhile isNumberChar)

/-- The items of an array up to its closing bracket. -/
def parseItems : Nat → List Char → Option (List Spelling × List Char)
  | 0, _ => none
  | fuel + 1, cs => do
    let (x, rest) ← parseValue fuel cs
    match rest with
    | ',' :: rest =>
      let (xs, rest) ← parseItems fuel rest
      return (x :: xs, rest)
    | ']' :: rest => return ([x], rest)
    | _ => none

/-- The properties of an object up to its closing brace. -/
def parseFields : Nat → List Char → Option (List (String × Spelling) × List Char)
  | 0, _ => none
  | fuel + 1, '"' :: cs => do
    let (k, rest) ← parseString cs
    match rest with
    | ':' :: rest =>
      let (x, rest) ← parseValue fuel rest
      match rest with
      | ',' :: rest =>
        let (xs, rest) ← parseFields fuel rest
        return ((.ofList k, x) :: xs, rest)
      | '\x7d' :: rest => return ([(.ofList k, x)], rest)
      | _ => none
    | _ => none
  | _ + 1, _ => none

end

/-! ## Strings -/

theorem hexValue_hexDigit : ∀ n, n < 16 → hexValue (hexDigit n) = n := by decide

theorem parseString_escapeChar (c : Char) (rest : List Char) :
    parseString (escapeChar c ++ rest) = (parseString rest).map fun p => (c :: p.1, p.2) := by
  by_cases hquote : c = '"'
  · rw [hquote]
    rfl
  by_cases hslash : c = '\\'
  · rw [hslash]
    rfl
  by_cases hb : c.toNat = 8
  · have hc : c = Char.ofNat 8 := by rw [← hb, Char.ofNat_toNat]
    rw [hc]
    rfl
  by_cases hf : c.toNat = 12
  · have hc : c = Char.ofNat 12 := by rw [← hf, Char.ofNat_toNat]
    rw [hc]
    rfl
  by_cases hn : c = '\n'
  · rw [hn]
    rfl
  by_cases hr : c = '\r'
  · rw [hr]
    rfl
  by_cases ht : c = '\t'
  · rw [ht]
    rfl
  by_cases hlow : c.toNat < 32
  · have hval : ((hexValue '0' * 16 + hexValue '0') * 16 + hexValue (hexDigit (c.toNat / 16))) * 16 +
        hexValue (hexDigit (c.toNat % 16)) = c.toNat := by
      rw [hexValue_hexDigit _ (by omega), hexValue_hexDigit _ (by omega),
        show hexValue '0' = 0 from rfl]
      omega
    simp only [escapeChar, hquote, hslash, hb, hf, hn, hr, ht, hlow, if_true, if_false,
      List.cons_append, List.nil_append, parseString]
    rw [hval, Char.ofNat_toNat]
  · simp only [escapeChar, hquote, hslash, hb, hf, hn, hr, ht, hlow, if_false, List.cons_append,
      List.nil_append]
    rw [parseString]
    · exact hquote
    · exact fun _ _ _ _ _ h _ => hslash h
    · exact fun _ _ h _ => hslash h

theorem parseString_text (cs rest : List Char) :
    parseString (cs.flatMap escapeChar ++ '"' :: rest) = some (cs, rest) := by
  induction cs with
  | nil => simp [parseString]
  | cons c cs ih =>
    rw [List.flatMap_cons, List.append_assoc, parseString_escapeChar, ih]
    rfl

/-! ## The tree of a text -/

/-- The text does not go on with a character of a number. -/
def Ends (rest : List Char) : Prop := ∀ c cs, rest = c :: cs → isNumberChar c = false

theorem ends_nil : Ends [] := by
  intro c cs h
  cases h

theorem ends_cons {c : Char} {cs : List Char} (h : isNumberChar c = false) : Ends (c :: cs) := by
  intro c' cs' h'
  rwa [← (List.cons.inj h').1]

theorem text_head {x : Spelling} (hx : x.Tokens) : ∃ c cs, x.text = c :: cs ∧ c ≠ ']' := by
  cases x with
  | null => exact ⟨_, _, rfl, by decide⟩
  | bool b => cases b <;> exact ⟨_, _, rfl, by decide⟩
  | num token =>
    obtain ⟨hne, hall⟩ := hx
    cases token with
    | nil => exact absurd rfl hne
    | cons c cs =>
      refine ⟨c, cs, rfl, ?_⟩
      rintro rfl
      have := hall _ List.mem_cons_self
      revert this
      decide
  | str s => exact ⟨_, _, rfl, by decide⟩
  | arr items => exact ⟨_, _, rfl, by decide⟩
  | obj fields => exact ⟨_, _, rfl, by decide⟩

theorem textItems_head {x : Spelling} (hx : x.Tokens) (xs : List Spelling) :
    ∃ c cs, textItems (x :: xs) = c :: cs ∧ c ≠ ']' := by
  obtain ⟨c, cs, hcs, hc⟩ := text_head hx
  cases xs with
  | nil => exact ⟨c, cs, hcs, hc⟩
  | cons y ys => exact ⟨c, cs ++ ',' :: textItems (y :: ys), by rw [textItems] <;> simp [hcs], hc⟩

theorem textFields_head (k : String) (x : Spelling) (xs : List (String × Spelling)) :
    ∃ cs, textFields ((k, x) :: xs) = '"' :: cs := by
  cases xs with
  | nil => exact ⟨_, rfl⟩
  | cons y ys => exact ⟨_, rfl⟩

theorem parseValue_token {token rest : List Char} {fuel : Nat} (hne : token ≠ [])
    (hall : ∀ c ∈ token, isNumberChar c = true) (hrest : Ends rest) :
    parseValue (fuel + 1) (token ++ rest) = some (num token, rest) := by
  have htake : (token ++ rest).takeWhile isNumberChar = token := by
    rw [List.takeWhile_append_of_pos hall]
    cases rest with
    | nil => simp
    | cons c cs =>
      rw [List.takeWhile_cons_of_neg (by simp [hrest c cs rfl]), List.append_nil]
  have hdrop : (token ++ rest).dropWhile isNumberChar = rest := by
    rw [List.dropWhile_append_of_pos hall]
    cases rest with
    | nil => rfl
    | cons c cs => rw [List.dropWhile_cons_of_neg (by simp [hrest c cs rfl])]
  have hhead : ∀ c cs, token ++ rest = c :: cs → isNumberChar c = true := by
    intro c cs h
    cases token with
    | nil => exact absurd rfl hne
    | cons d ds =>
      rw [List.cons_append] at h
      rw [← (List.cons.inj h).1]
      exact hall d List.mem_cons_self
  rw [parseValue, htake, hdrop, if_neg hne]
  all_goals
    intro cs h
    have := hhead _ _ h
    revert this
    decide

mutual

theorem parseValue_text : ∀ {x : Spelling} {fuel : Nat} {rest : List Char}, x.Tokens →
    x.weight ≤ fuel → Ends rest → parseValue fuel (x.text ++ rest) = some (x, rest)
  | x, 0, rest, _, hw, _ => by
    cases x <;> simp [weight] at hw
  | .null, fuel + 1, rest, _, _, _ => rfl
  | .bool true, fuel + 1, rest, _, _, _ => rfl
  | .bool false, fuel + 1, rest, _, _, _ => rfl
  | .num token, fuel + 1, rest, ht, _, hrest => parseValue_token ht.1 ht.2 hrest
  | .str s, fuel + 1, rest, _, _, _ => by
    rw [text, stringText, List.cons_append, List.append_assoc, List.cons_append, List.nil_append,
      parseValue, parseString_text]
    simp
  | .arr [], fuel + 1, rest, _, _, _ => rfl
  | .arr (x :: xs), fuel + 1, rest, ht, hw, _ => by
    have hitems : parseItems fuel (textItems (x :: xs) ++ ']' :: rest) = some (x :: xs, rest) :=
      parseItems_text ht (by simpa [weight] using hw)
    obtain ⟨c, cs, hcs, hc⟩ := textItems_head ht.1 xs
    rw [text, List.cons_append, List.append_assoc, List.singleton_append, hcs, List.cons_append,
      parseValue]
    · rw [← List.cons_append, ← hcs, hitems]
      rfl
    · intro cs' h
      exact hc (List.cons.inj h).1
  | .obj [], fuel + 1, rest, _, _, _ => rfl
  | .obj ((k, x) :: xs), fuel + 1, rest, ht, hw, _ => by
    have hfields : parseFields fuel (textFields ((k, x) :: xs) ++ '\x7d' :: rest) =
        some ((k, x) :: xs, rest) := parseFields_text ht (by simpa [weight] using hw)
    obtain ⟨cs, hcs⟩ := textFields_head k x xs
    rw [text, List.cons_append, List.append_assoc, List.singleton_append, hcs, List.cons_append,
      parseValue]
    · rw [← List.cons_append, ← hcs, hfields]
      rfl
    · intro cs' h
      have := (List.cons.inj h).1
      revert this
      decide

theorem parseItems_text : ∀ {x : Spelling} {xs : List Spelling} {fuel : Nat} {rest : List Char},
    TokensItems (x :: xs) → weightItems (x :: xs) ≤ fuel →
    parseItems fuel (textItems (x :: xs) ++ ']' :: rest) = some (x :: xs, rest)
  | x, xs, 0, rest, _, hw => by
    simp [weightItems] at hw
  | x, [], fuel + 1, rest, ht, hw => by
    have hx : parseValue fuel (x.text ++ ']' :: rest) = some (x, ']' :: rest) :=
      parseValue_text ht.1 (by simp [weightItems] at hw; omega) (ends_cons (by decide))
    rw [textItems, parseItems, hx]
    rfl
  | x, y :: xs, fuel + 1, rest, ht, hw => by
    have hx : parseValue fuel (x.text ++ ',' :: (textItems (y :: xs) ++ ']' :: rest)) =
        some (x, ',' :: (textItems (y :: xs) ++ ']' :: rest)) :=
      parseValue_text ht.1 (by rw [weightItems] at hw; omega) (ends_cons (by decide))
    have hxs : parseItems fuel (textItems (y :: xs) ++ ']' :: rest) = some (y :: xs, rest) :=
      parseItems_text ht.2 (by rw [weightItems] at hw; omega)
    rw [textItems, List.append_assoc, List.cons_append, parseItems, hx]
    · simp [hxs]
    · simp

theorem parseFields_text : ∀ {k : String} {x : Spelling} {xs : List (String × Spelling)}
    {fuel : Nat} {rest : List Char}, TokensFields ((k, x) :: xs) →
    weightFields ((k, x) :: xs) ≤ fuel →
    parseFields fuel (textFields ((k, x) :: xs) ++ '\x7d' :: rest) = some ((k, x) :: xs, rest)
  | k, x, xs, 0, rest, _, hw => by
    simp [weightFields] at hw
  | k, x, [], fuel + 1, rest, ht, hw => by
    have hx : parseValue fuel (x.text ++ '\x7d' :: rest) = some (x, '\x7d' :: rest) :=
      parseValue_text ht.1 (by simp [weightFields] at hw; omega) (ends_cons (by decide))
    rw [textFields, stringText, List.append_assoc, List.cons_append, List.append_assoc,
      List.cons_append, List.nil_append, List.cons_append, parseFields, parseString_text]
    simp [hx]
  | k, x, (k', y) :: xs, fuel + 1, rest, ht, hw => by
    have hx : parseValue fuel (x.text ++ ',' :: (textFields ((k', y) :: xs) ++ '\x7d' :: rest)) =
        some (x, ',' :: (textFields ((k', y) :: xs) ++ '\x7d' :: rest)) :=
      parseValue_text ht.1 (by rw [weightFields] at hw; omega) (ends_cons (by decide))
    have hxs : parseFields fuel (textFields ((k', y) :: xs) ++ '\x7d' :: rest) =
        some ((k', y) :: xs, rest) := parseFields_text ht.2 (by rw [weightFields] at hw; omega)
    rw [textFields, stringText, List.append_assoc, List.cons_append, List.append_assoc,
      List.cons_append, List.nil_append, List.cons_append, List.append_assoc, List.cons_append,
      parseFields, parseString_text]
    · simp [hx, hxs]
    · simp

end

mutual

/-- A text is long enough to be the fuel of its reading. -/
theorem weight_le_length : ∀ {x : Spelling}, x.Tokens → x.weight ≤ x.text.length
  | .null, _ => by simp [weight, text]
  | .bool true, _ => by simp [weight, text]
  | .bool false, _ => by simp [weight, text]
  | .num token, h => List.length_pos_iff.2 h.1
  | .str s, _ => by simp [weight, text, stringText]
  | .arr items, h => by
    have hitems := weightItems_le_length h
    simp only [weight, text, List.length_cons, List.length_append, List.length_nil]
    omega
  | .obj fields, h => by
    have hfields := weightFields_le_length h
    simp only [weight, text, List.length_cons, List.length_append, List.length_nil]
    omega

theorem weightItems_le_length : ∀ {xs : List Spelling}, TokensItems xs →
    weightItems xs ≤ (textItems xs).length + 1
  | [], _ => by simp [weightItems]
  | [x], h => by
    have hx := weight_le_length h.1
    simp only [weightItems, textItems]
    omega
  | x :: y :: ys, h => by
    have hx := weight_le_length h.1
    have hys := weightItems_le_length h.2
    rw [textItems_cons_cons, weightItems, List.length_append, List.length_cons]
    omega

theorem weightFields_le_length : ∀ {xs : List (String × Spelling)}, TokensFields xs →
    weightFields xs ≤ (textFields xs).length + 1
  | [], _ => by simp [weightFields]
  | [(k, x)], h => by
    have hx := weight_le_length h.1
    simp only [weightFields, textFields, List.length_append, List.length_cons]
    omega
  | (k, x) :: y :: ys, h => by
    have hx := weight_le_length h.1
    have hys := weightFields_le_length h.2
    rw [textFields_cons_cons, weightFields, List.length_append, List.length_cons,
      List.length_append, List.length_cons]
    omega

end

/-- The tree of a whole text. -/
def parse (cs : List Char) : Option Spelling :=
  match parseValue cs.length cs with
  | some (x, []) => some x
  | _ => none

theorem parse_text {x : Spelling} (hx : x.Tokens) : parse x.text = some x := by
  have h := parseValue_text hx (weight_le_length hx) ends_nil
  rw [List.append_nil] at h
  rw [parse, h]

/-- A text has one tree. -/
theorem text_injective {x y : Spelling} (hx : x.Tokens) (hy : y.Tokens) (h : x.text = y.text) :
    x = y := by
  have hpx := parse_text hx
  rw [h, parse_text hy, Option.some.injEq] at hpx
  exact hpx.symm

/-! ## A text is one line -/

theorem hexDigit_no_control (n : Nat) : 32 ≤ (hexDigit n).toNat := by
  by_cases h : n < 16
  · interval_cases n <;> decide
  · rw [hexDigit, List.getD_eq_getElem?_getD, List.getElem?_eq_none (by simpa using h)]
    decide

theorem escapeChar_no_control (c : Char) : ∀ d ∈ escapeChar c, 32 ≤ d.toNat := by
  unfold escapeChar
  split_ifs with _ _ _ _ _ _ _ hlow
  · simp
  · simp
  · simp
  · simp
  · simp
  · simp
  · simp
  · simp only [List.forall_mem_cons]
    exact ⟨by decide, by decide, by decide, by decide, hexDigit_no_control _, hexDigit_no_control _,
      by simp⟩
  · simpa using hlow

theorem stringText_no_control (s : String) : ∀ c ∈ stringText s, 32 ≤ c.toNat := by
  have hchars : ∀ c ∈ s.toList.flatMap escapeChar, 32 ≤ c.toNat := by
    intro c hc
    obtain ⟨d, -, hc⟩ := List.mem_flatMap.1 hc
    exact escapeChar_no_control d c hc
  rw [stringText, List.forall_mem_cons, List.forall_mem_append]
  exact ⟨by decide, hchars, by simp⟩

theorem isNumberChar_no_control {c : Char} (h : isNumberChar c = true) : 32 ≤ c.toNat := by
  simp only [isNumberChar, Bool.or_eq_true, Bool.and_eq_true, decide_eq_true_eq, Char.le_def,
    UInt32.le_iff_toNat_le] at h
  rcases h with ((((h | rfl) | rfl) | rfl) | rfl) | rfl
  · have hlow : 48 ≤ c.toNat := h.1
    omega
  · decide
  · decide
  · decide
  · decide
  · decide

mutual

/-- There is no control character in a text. -/
theorem text_no_control : ∀ {x : Spelling}, x.Tokens → ∀ c ∈ x.text, 32 ≤ c.toNat
  | .null, _ => by simp [text]
  | .bool true, _ => by simp [text]
  | .bool false, _ => by simp [text]
  | .num _, h => fun c hc => isNumberChar_no_control (h.2 c hc)
  | .str s, _ => stringText_no_control s
  | .arr items, h => by
    rw [text, List.forall_mem_cons, List.forall_mem_append]
    exact ⟨by decide, textItems_no_control h, by simp⟩
  | .obj fields, h => by
    rw [text, List.forall_mem_cons, List.forall_mem_append]
    exact ⟨by decide, textFields_no_control h, by simp⟩

theorem textItems_no_control : ∀ {xs : List Spelling}, TokensItems xs →
    ∀ c ∈ textItems xs, 32 ≤ c.toNat
  | [], _ => by simp [textItems]
  | [_], h => text_no_control h.1
  | x :: y :: ys, h => by
    rw [textItems_cons_cons, List.forall_mem_append, List.forall_mem_cons]
    exact ⟨text_no_control h.1, by decide, textItems_no_control h.2⟩

theorem textFields_no_control : ∀ {xs : List (String × Spelling)}, TokensFields xs →
    ∀ c ∈ textFields xs, 32 ≤ c.toNat
  | [], _ => by simp [textFields]
  | [(k, _)], h => by
    rw [textFields, List.forall_mem_append, List.forall_mem_cons]
    exact ⟨stringText_no_control k, by decide, text_no_control h.1⟩
  | (k, x) :: y :: ys, h => by
    rw [textFields_cons_cons, List.forall_mem_append, List.forall_mem_cons, List.forall_mem_append,
      List.forall_mem_cons]
    exact ⟨stringText_no_control k, by decide, text_no_control h.1, by decide,
      textFields_no_control h.2⟩

end

end Spelling

end StateDrivenAgent
