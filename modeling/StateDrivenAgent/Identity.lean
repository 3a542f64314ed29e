import Mathlib.Data.List.Sort
import StateDrivenAgent.Host

/-!
# Encodings and digests

`identity.rs`: the canonical encoding (RFC 8785 spelling of numbers, properties in UTF-16 order)
behind every command, action, payload and commit identity, and the older encoding with Python's
spelling of numbers behind the integrity anchors of a stored snapshot. `python_json` of `tools.rs`
is the text tools and summaries use.

Both spellings start from the decimal text of the double, taken apart into its digits and the place
of the decimal point.
-/

namespace StateDrivenAgent

namespace Text

/-- Removes leading zeros but for the last digit; returns how many. -/
def stripLeadingZeros : List Char → List Char × Nat
  | '0' :: c :: cs => ((stripLeadingZeros (c :: cs)).1, (stripLeadingZeros (c :: cs)).2 + 1)
  | cs => (cs, 0)

/-- Removes trailing zeros but for the last digit. -/
def stripTrailingZeros (cs : List Char) : List Char := (stripLeadingZeros cs.reverse).1.reverse

/-- The digits of a decimal text without sign, and the place of the point among them. -/
def decimalParts (unsigned : String) : List Char × Int :=
  let isE (c : Char) : Bool := c = 'e' || c = 'E'
  let mantissa := unsigned.toList.takeWhile fun c => !isE c
  let exponent := (unsigned.toList.dropWhile fun c => !isE c).drop 1
  let exp := (parseInt 32 (.ofList exponent)).getD 0
  let before : Int := (mantissa.takeWhile (· ≠ '.')).length
  let (digits, dropped) := stripLeadingZeros (mantissa.filter (· ≠ '.'))
  (stripTrailingZeros digits, before + exp - dropped)

/-- The digits with the point put in place, `zeros` being the text after a whole number. -/
def placePoint (digits : List Char) (point : Int) (whole : List Char) : List Char :=
  if point ≤ 0 then '0' :: '.' :: List.replicate (-point).toNat '0' ++ digits
  else if digits.length ≤ point.toNat then
    digits ++ List.replicate (point.toNat - digits.length) '0' ++ whole
  else digits.take point.toNat ++ '.' :: digits.drop point.toNat

/-- The first digit, and the others after a point. -/
def scientific (digits : List Char) : List Char :=
  if digits.length = 1 then digits else digits.take 1 ++ '.' :: digits.drop 1

/-- The UTF-16 code units of a text. -/
def utf16 (s : String) : List Nat :=
  s.toList.flatMap fun c =>
    if c.toNat < 0x10000 then [c.toNat]
    else [0xd800 + (c.toNat - 0x10000) / 0x400, 0xdc00 + (c.toNat - 0x10000) % 0x400]

end Text

open Text

namespace Identity

/-- `identity::canonical` on a number. -/
def canonicalNumber (host : Host) (v : Number) : Except String String :=
  let n := v.asF64
  if v.isInt && decide (n.abs > 9007199254740991) then
    .error "number outside I-JSON domain; use a string"
  else if n.isZero then .ok "0"
  else
    let raw := host.floatText n
    let sign := if startsWith raw "-" then "-" else ""
    let (digits, point) := decimalParts (.ofList (raw.toList.dropWhile (· = '-')))
    if (F64.ofRat (1 / 10 ^ 6)).abs ≤ n.abs ∧ n.abs < 10 ^ 21 then
      .ok (sign ++ .ofList (placePoint digits point []))
    else
      let exponent := point - 1
      .ok (sign ++ .ofList (scientific digits) ++ "e" ++ (if 0 ≤ exponent then "+" else "") ++
        toString exponent)

mutual

/-- `identity::canonical`. -/
def canonical (host : Host) : Value → Except String String
  | .null => .ok "null"
  | .bool b => .ok (if b then "true" else "false")
  | .str s => .ok (jsonString s)
  | .num n => canonicalNumber host n
  | .arr items => do return "[" ++ joinWith "," (← canonicalItems host items) ++ "]"
  | .obj fields => do
    let fields := (← canonicalFields host fields).insertionSort fun a b => utf16 a.1 ≤ utf16 b.1
    return "\x7b" ++ joinWith "," (fields.map fun f => jsonString f.1 ++ ":" ++ f.2) ++ "\x7d"

def canonicalItems (host : Host) : List Value → Except String (List String)
  | [] => .ok []
  | v :: vs => do
    let text ← canonical host v
    return text :: (← canonicalItems host vs)

def canonicalFields (host : Host) : List (String × Value) → Except String (List (String × String))
  | [] => .ok []
  | (k, v) :: rest => do
    let text ← canonical host v
    return (k, text) :: (← canonicalFields host rest)

end

/-- `identity::digest`. -/
def digest (host : Host) (v : Value) : Except String String := do
  return host.sha256 (← canonical host v)

/-- `identity::action`. -/
def action (host : Host) (deployment session execution : String) : Except String String :=
  digest host (.arr [.str "agent-action-v1", .str deployment, .str session, .str execution])

/-- `identity::payload`. -/
def payload (host : Host) (tool target : String) (args : Value) : Except String String :=
  digest host (.arr [.str "agent-payload-v1", .str tool, .str target, args])

/-- `identity::python_number`. -/
def pythonNumber (host : Host) : Number → String
  | .int i => toString i
  | .float n =>
    if n.isZero then if n.negative then "-0.0" else "0.0"
    else
      let raw := host.floatText n
      let sign := if startsWith raw "-" then "-" else ""
      let (digits, point) := decimalParts (.ofList (raw.toList.dropWhile (· = '-')))
      if (F64.ofRat (1 / 10 ^ 4)).abs ≤ n.abs ∧ n.abs < 10 ^ 16 then
        sign ++ .ofList (placePoint digits point ['.', '0'])
      else
        let exponent := point - 1
        let magnitude := toString exponent.natAbs
        sign ++ .ofList (scientific digits) ++ "e" ++ (if 0 ≤ exponent then "+" else "-") ++
          (if magnitude.length < 2 then "0" ++ magnitude else magnitude)

mutual

/-- `identity::python_encoded`. -/
def pythonEncoded (host : Host) : Value → String
  | .null => "null"
  | .bool b => if b then "true" else "false"
  | .str s => jsonString s
  | .num n => pythonNumber host n
  | .arr items => "[" ++ joinWith "," (pythonItems host items) ++ "]"
  | .obj fields =>
    let fields := (pythonFields host fields).insertionSort fun a b => a.1 ≤ b.1
    "\x7b" ++ joinWith "," (fields.map fun f => jsonString f.1 ++ ":" ++ f.2) ++ "\x7d"

def pythonItems (host : Host) : List Value → List String
  | [] => []
  | v :: vs => pythonEncoded host v :: pythonItems host vs

def pythonFields (host : Host) : List (String × Value) → List (String × String)
  | [] => []
  | (k, v) :: rest => (k, pythonEncoded host v) :: pythonFields host rest

end

end Identity

/-! ## `tools::python_json` -/

namespace Tools

def hexUnit (n : Nat) : List Char :=
  ['\\', 'u', hexDigit (n / 4096 % 16), hexDigit (n / 256 % 16), hexDigit (n / 16 % 16),
    hexDigit (n % 16)]

def pythonEscape (c : Char) : List Char :=
  if c = '"' then ['\\', '"']
  else if c = '\\' then ['\\', '\\']
  else if c.toNat = 8 then ['\\', 'b']
  else if c.toNat = 12 then ['\\', 'f']
  else if c = '\n' then ['\\', 'n']
  else if c = '\r' then ['\\', 'r']
  else if c = '\t' then ['\\', 't']
  else if c.toNat < 32 || 0x7f < c.toNat then (utf16 (.ofList [c])).flatMap hexUnit
  else [c]

/-- `python_json_string`. -/
def pythonJsonString (s : String) : String :=
  .ofList ('"' :: s.toList.flatMap pythonEscape ++ ['"'])

mutual

/-- `python_json`: properties in insertion order, everything outside ASCII escaped. -/
def pythonJson (host : Host) : Value → String
  | .null => "null"
  | .bool b => if b then "true" else "false"
  | .str s => pythonJsonString s
  | .num n => Identity.pythonNumber host n
  | .arr items => "[" ++ joinWith ", " (pythonJsonItems host items) ++ "]"
  | .obj fields => "\x7b" ++ joinWith ", " (pythonJsonFields host fields) ++ "\x7d"

def pythonJsonItems (host : Host) : List Value → List String
  | [] => []
  | v :: vs => pythonJson host v :: pythonJsonItems host vs

def pythonJsonFields (host : Host) : List (String × Value) → List String
  | [] => []
  | (k, v) :: rest => (pythonJsonString k ++ ": " ++ pythonJson host v) ::
      pythonJsonFields host rest

end

end Tools

end StateDrivenAgent
