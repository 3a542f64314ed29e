import StateDrivenAgent.Json.Spelling
import StateDrivenAgent.Json.Reading
import StateDrivenAgent.Identity

/-!
# Go's strict reader and canonical encoding

`identity_v2.go`. A decoded value is a tree whose numbers are the tokens as written (`json.Number`);
`decoder` is the tree `Decoder.Token` delivers for a text, properties as written, with repetitions.
Marshalling a decoded value and decoding it again, as `CanonicalV2` does first, gives the same tree,
or fails below 10000 levels.
-/

namespace StateDrivenAgent

namespace Go

open Text

/-! ## `encoding/json` and `strconv` -/

/-- The escape of one character without HTML escaping: U+2028 and U+2029 are escaped besides. -/
def escape (c : Char) : List Char :=
  if c = '\u2028' then ['\\', 'u', '2', '0', '2', '8']
  else if c = '\u2029' then ['\\', 'u', '2', '0', '2', '9']
  else escapeChar c

/-- `Encoder.Encode` of a string, without the line feed. -/
def encode (s : String) : String := .ofList ('"' :: s.toList.flatMap escape ++ ['"'])

/-- The shortest digits of a double, and the place of the point among them: the digits `serde_json`
prints. -/
def shortest (host : Host) (f : F64) : List Char × Int :=
  decimalParts (.ofList ((host.floatText f).toList.dropWhile (· = '-')))

/-- `strconv.FormatFloat(f, 'f', -1, 64)`. -/
def formatFixed (host : Host) (f : F64) : List Char :=
  let (digits, point) := shortest host f
  (if f.negative then ['-'] else []) ++ placePoint digits point []

/-- `strconv.FormatFloat(f, 'e', -1, 64)`: the exponent has two digits at least. -/
def formatExp (host : Host) (f : F64) : List Char :=
  let (digits, point) := shortest host f
  let exponent := point - 1
  let magnitude := (toString exponent.natAbs).toList
  (if f.negative then ['-'] else []) ++ scientific digits ++
    'e' :: (if exponent < 0 then '-' else '+') ::
      (if magnitude.length < 2 then '0' :: magnitude else magnitude)

/-- `strings.Replace(s, p, q, 1)`. -/
def replaceFirst (p q : List Char) : List Char → List Char
  | [] => []
  | c :: cs => if p.isPrefixOf (c :: cs) then q ++ (c :: cs).drop p.length
      else c :: replaceFirst p q cs

/-- `strconv.ParseInt(token, 10, 64)` of a number token without a point and an exponent. -/
def parseInt64 (token : List Char) : Option Int :=
  let n := Decimal.digits (token.dropWhile (· = '-'))
  let i : Int := if token.head? = some '-' then -n else n
  if I64.inRange i then some i else none

/-- `strconv.ParseFloat(token, 64)`: the nearest double, an error from halfway between the largest
double and `2 ^ 1024` on. -/
def parseFloat (token : List Char) : Option F64 :=
  if 2 ^ 1024 - 2 ^ 970 ≤ |Decimal.read token| then none else some (F64.ofRat (Decimal.read token))

/-! ## `CanonicalV2` -/

/-- The closure `quote`. -/
def quote (s : String) : String :=
  let x := encode s
  let x := replace x "\\u2028" "\u2028"
  replace x "\\u2029" "\u2029"

/-- No `.`, `e` or `E`. -/
def isInteger (token : List Char) : Bool := !token.any fun c => c = '.' || c = 'e' || c = 'E'

/-- The number case of the closure `write`. -/
def writeNumber (host : Host) (token : List Char) : Except String String :=
  if isInteger token && (parseInt64 token).all (fun i =>
      decide (i > 9007199254740991) || decide (i < -9007199254740991)) then
    .error "integer outside I-JSON range"
  else match parseFloat token with
    | none => .error "unsupported JSON number"
    | some f =>
      if f.isZero then .ok "0"
      else
        let s := if (F64.ofRat (1 / 10 ^ 6)).abs ≤ f.abs ∧ f.abs < 10 ^ 21 then formatFixed host f
          else formatExp host f
        let s := replaceFirst ['e', '-', '0'] ['e', '-'] s
        .ok (.ofList (replaceFirst ['e', '+', '0'] ['e', '+'] s))

mutual

/-- The closure `write`. -/
def write (host : Host) : Spelling → Except String String
  | .null => .ok "null"
  | .bool b => .ok (if b then "true" else "false")
  | .str s => .ok (quote s)
  | .num token => writeNumber host token
  | .arr items => do return "[" ++ joinWith "," (← writeItems host items) ++ "]"
  | .obj fields => do
    let fields := (writeFields host fields).insertionSort fun a b => utf16 a.1 ≤ utf16 b.1
    let texts ← fields.mapM fun f => do return quote f.1 ++ ":" ++ (← f.2)
    return "\x7b" ++ joinWith "," texts ++ "\x7d"

def writeItems (host : Host) : List Spelling → Except String (List String)
  | [] => .ok []
  | x :: xs => do
    let text ← write host x
    return text :: (← writeItems host xs)

def writeFields (host : Host) : List (String × Spelling) → List (String × Except String String)
  | [] => []
  | (k, x) :: xs => (k, write host x) :: writeFields host xs

end

/-- `CanonicalV2`. -/
def canonicalV2 (host : Host) (x : Spelling) : Except String String :=
  if 10000 < x.depth then .error "exceeded max depth" else write host x

/-! ## `StrictJSON` -/

/-- The exponent of a number, if any. -/
def isExponent : List Char → Bool
  | [] => true
  | c :: cs => (c = 'e' || c = 'E') &&
    (let digits := if cs.head? = some '-' ∨ cs.head? = some '+' then cs.drop 1 else cs
    !digits.isEmpty && digits.all Decimal.isDigit)

/-- The fraction of a number, if any, and the exponent. -/
def isFraction : List Char → Bool
  | '.' :: cs => !(cs.takeWhile Decimal.isDigit).isEmpty &&
    isExponent (cs.dropWhile Decimal.isDigit)
  | cs => isExponent cs

/-- `isValidNumber`. -/
def isValidNumber (token : List Char) : Bool :=
  let unsigned := if token.head? = some '-' then token.drop 1 else token
  let whole := unsigned.takeWhile Decimal.isDigit
  !whole.isEmpty && (whole.head? ≠ some '0' || whole.length = 1) &&
    isFraction (unsigned.dropWhile Decimal.isDigit)

/-- `strconv.ParseUint(s, 16, 16)` of four bytes. -/
def hexWord (a b c d : UInt8) : Option Nat := do
  let digit (x : UInt8) : Option Nat := digitValue 16 (Char.ofNat x.toNat)
  return ((← digit a) * 16 + (← digit b)) * 256 + ((← digit c) * 16 + (← digit d))

/-- The pass over the bytes that refuses an escaped surrogate without its partner; `inside` a
string. -/
def checkEscapes : (inside : Bool) → List UInt8 → Except String Unit
  | _, [] => .ok ()
  | false, b :: bs => checkEscapes (b = 0x22) bs
  | true, 0x5c :: 0x75 :: a :: b :: c :: d :: bs =>
    match hexWord a b c d with
    | none => .error "invalid syntax"
    | some n =>
      if 0xd800 ≤ n ∧ n ≤ 0xdbff then
        match bs with
        | 0x5c :: 0x75 :: a :: b :: c :: d :: bs =>
          if (hexWord a b c d).any fun m => 0xdc00 ≤ m && m ≤ 0xdfff then checkEscapes true bs
          else .error "unpaired surrogate"
        | _ => .error "unpaired surrogate"
      else if 0xdc00 ≤ n ∧ n ≤ 0xdfff then .error "unpaired surrogate"
      else checkEscapes true bs
  | true, 0x5c :: _ :: bs => checkEscapes true bs
  | true, b :: bs => checkEscapes (b ≠ 0x22) bs

mutual

/-- The tokens are numbers of the grammar. -/
def validNumbers : Spelling → Bool
  | .num token => isValidNumber token
  | .arr items => validNumbersItems items
  | .obj fields => validNumbersFields fields
  | _ => true

def validNumbersItems : List Spelling → Bool
  | [] => true
  | x :: xs => validNumbers x && validNumbersItems xs

def validNumbersFields : List (String × Spelling) → Bool
  | [] => true
  | (_, x) :: xs => validNumbers x && validNumbersFields xs

end

mutual

/-- Each property once, at every depth. -/
def distinct : Spelling → Bool
  | .arr items => distinctItems items
  | .obj fields => decide (fields.map Prod.fst).Nodup && distinctFields fields
  | _ => true

def distinctItems : List Spelling → Bool
  | [] => true
  | x :: xs => distinct x && distinctItems xs

def distinctFields : List (String × Spelling) → Bool
  | [] => true
  | (_, x) :: xs => distinct x && distinctFields xs

end

/-- `StrictJSON`. -/
def strictJson (host : Host) (decoder : String → Except String Spelling) (text : String) :
    Except String Spelling := do
  checkEscapes false (text.toList.flatMap String.utf8EncodeChar)
  let x ← decoder text
  if distinct x then
    let _ ← canonicalV2 host x
    return x
  else .error "duplicate JSON property"

end Go

end StateDrivenAgent
