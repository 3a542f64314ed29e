import StateDrivenAgent.Identity

/-!
# Python's JSON writer

`json.dumps` of the reference agent with `sort_keys=True` and `ensure_ascii=False`: properties in the
order of their code points, `", "` and `": "` as separators, and only the characters escaped that JSON
demands. A float is written as `repr` writes it. `dumpsAscii` is `json.dumps` with its defaults.
-/

namespace StateDrivenAgent

open Text

namespace Python

/-- The digits of a float and the place of the point among them. CPython's `dtoa` gives the shortest
digits that read back as the float, which are the digits `serde_json` prints. -/
def dtoa (host : Host) (f : F64) : List Char × Int :=
  decimalParts (.ofList ((host.floatText f).toList.dropWhile (· = '-')))

/-- Of the digits being the shortest: a double nearest to a power of ten has one digit. -/
def Shortest (host : Host) : Prop :=
  ∀ f : F64, f.isZero = false → ∀ k : Int, -307 ≤ k → k ≤ 308 →
    (F64.ofRat (10 ^ k)).abs = f.abs → (dtoa host f).1.length = 1

/-- `float.__repr__`: an exponent from `1e+16` on and below `0.0001`, of two digits at least. -/
def floatRepr (host : Host) (f : F64) : String :=
  let sign := if f.negative then "-" else ""
  if f.isZero then sign ++ "0.0"
  else
    let (digits, point) := dtoa host f
    if -4 < point ∧ point ≤ 16 then sign ++ .ofList (placePoint digits point ['.', '0'])
    else
      let exponent := point - 1
      let magnitude := toString exponent.natAbs
      sign ++ .ofList (scientific digits) ++ "e" ++ (if exponent < 0 then "-" else "+") ++
        (if magnitude.length < 2 then "0" ++ magnitude else magnitude)

def numberRepr (host : Host) : Number → String
  | .int i => toString i
  | .float f => floatRepr host f

/-- `py_encode_basestring`. -/
def encodeString (s : String) : String :=
  .ofList ('"' :: s.toList.flatMap escapeChar ++ ['"'])

mutual

/-- `json.dumps(value, ensure_ascii=False, sort_keys=True)`. -/
def dumps (host : Host) : Value → String
  | .null => "null"
  | .bool b => if b then "true" else "false"
  | .str s => encodeString s
  | .num n => numberRepr host n
  | .arr items => "[" ++ joinWith ", " (dumpsItems host items) ++ "]"
  | .obj fields =>
    let fields := (dumpsFields host fields).insertionSort fun a b => a.1 ≤ b.1
    "\x7b" ++ joinWith ", " (fields.map fun f => encodeString f.1 ++ ": " ++ f.2) ++ "\x7d"

def dumpsItems (host : Host) : List Value → List String
  | [] => []
  | v :: vs => dumps host v :: dumpsItems host vs

def dumpsFields (host : Host) : List (String × Value) → List (String × String)
  | [] => []
  | (k, v) :: rest => (k, dumps host v) :: dumpsFields host rest

end

/-! ## The defaults -/

/-- The replacement in `py_encode_basestring_ascii`: an escape of its own for a few characters, and
UTF-16 units for all others that are not between the blank and the tilde. -/
def escapeAscii (c : Char) : List Char :=
  if c = '"' then ['\\', '"']
  else if c = '\\' then ['\\', '\\']
  else if c.toNat = 8 then ['\\', 'b']
  else if c.toNat = 12 then ['\\', 'f']
  else if c = '\n' then ['\\', 'n']
  else if c = '\r' then ['\\', 'r']
  else if c = '\t' then ['\\', 't']
  else if 0x20 ≤ c.toNat ∧ c.toNat ≤ 0x7e then [c]
  else if c.toNat < 0x10000 then Tools.hexUnit c.toNat
  else
    let n := c.toNat - 0x10000
    Tools.hexUnit (0xd800 + n / 1024 % 1024) ++ Tools.hexUnit (0xdc00 + n % 1024)

/-- `py_encode_basestring_ascii`. -/
def encodeAscii (s : String) : String :=
  .ofList ('"' :: s.toList.flatMap escapeAscii ++ ['"'])

mutual

/-- `json.dumps(value)`: properties in insertion order. -/
def dumpsAscii (host : Host) : Value → String
  | .null => "null"
  | .bool b => if b then "true" else "false"
  | .str s => encodeAscii s
  | .num n => numberRepr host n
  | .arr items => "[" ++ joinWith ", " (dumpsAsciiItems host items) ++ "]"
  | .obj fields => "\x7b" ++ joinWith ", " (dumpsAsciiFields host fields) ++ "\x7d"

def dumpsAsciiItems (host : Host) : List Value → List String
  | [] => []
  | v :: vs => dumpsAscii host v :: dumpsAsciiItems host vs

def dumpsAsciiFields (host : Host) : List (String × Value) → List String
  | [] => []
  | (k, v) :: rest => (encodeAscii k ++ ": " ++ dumpsAscii host v) :: dumpsAsciiFields host rest

end

end Python

end StateDrivenAgent
