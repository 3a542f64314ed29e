import StateDrivenAgent.Json.Value
import StateDrivenAgent.Json.Text

/-!
# What the agent takes from outside its own code

The crates and the machine the agent runs on: SHA-256 (`sha2`), the text of a double and the JSON
reader (`serde_json`), the regex engine (`regex`), the reader of UUIDs (`uuid`), the lower-case
mapping of Unicode, and whether the build checks integer overflow (`cargo run` does, a release build
does not). Nothing is assumed of them here; a result that needs one of their documented properties
takes it as a hypothesis.

`parseStrictJson` and the JSON writer are the agent's own code and the library's writer over these.
-/

namespace StateDrivenAgent

theorem bind_ok {ε α β : Type} {x : Except ε α} {f : α → Except ε β} {b : β}
    (h : x >>= f = .ok b) : ∃ a, x = .ok a ∧ f a = .ok b := by
  cases x with
  | error e => cases h
  | ok a => exact ⟨a, rfl, h⟩

/-- What serde's deserializer reports to a visitor: integers by sign, properties as written, with
repetitions. -/
inductive Raw where
  | null
  | bool (b : Bool)
  | i64 (i : Int)
  | u64 (n : Nat)
  | f64 (f : F64)
  | str (s : String)
  | seq (items : List Raw)
  | map (fields : List (String × Raw))

/-- A compiled regular expression. `captures` gives, match by match, the offset after the whole
match and the text of the first group with it. -/
structure Regex where
  isMatch : String → Bool
  captures : String → List (Nat × Option String)

/-- The libraries and the build the agent runs on. -/
structure Host where
  /-- Lower-case hexadecimal SHA-256 of the UTF-8 text. -/
  sha256 : String → String
  /-- `serde_json`'s text of a finite double. -/
  floatText : F64 → String
  /-- `serde_json`'s reader, as it drives a visitor. -/
  reader : String → Except String Raw
  regex : String → Except String Regex
  regexEscape : String → String
  lowercase : String → String
  /-- `{:?}` of a string. -/
  debugStr : String → String
  /-- `Uuid::parse_str`, as the canonical text of the UUID. -/
  parseUuid : String → Option String
  /-- Whether integer overflow panics (`overflow-checks`) or wraps. -/
  overflowChecks : Bool

/-- The error kinds of `sqlx` the code tells apart. -/
inductive SqlError where
  | io (message : String)
  | tls (message : String)
  | poolTimedOut (message : String)
  | other (message : String)
deriving DecidableEq

namespace SqlError

def message : SqlError → String
  | io m | tls m | poolTimedOut m | other m => m

/-- The outcome of the transaction is unknown. -/
def unresolved : SqlError → Bool
  | io _ | tls _ | poolTimedOut _ => true
  | other _ => false

end SqlError

/-! ## Fixed-width arithmetic -/

namespace I64

def inRange (i : Int) : Bool := -2 ^ 63 ≤ i && i < 2 ^ 63

/-- Two's complement wrapping into 64 bits. -/
def wrap (i : Int) : Int := Int.bmod i (2 ^ 64)

theorem wrap_of_inRange {i : Int} (h : inRange i = true) : wrap i = i := by
  simp only [inRange, Bool.and_eq_true, decide_eq_true_eq] at h
  unfold wrap
  rw [Int.bmod_eq_of_le] <;> omega

end I64

/-- The outcome of an `i64` operation with exact result `i`: `none` is an overflow panic. -/
def Host.i64 (host : Host) (i : Int) : Option Int :=
  if I64.inRange i then some i else if host.overflowChecks then none else some (I64.wrap i)

theorem Host.i64_of_inRange {host : Host} {i : Int} (h : I64.inRange i = true) :
    host.i64 i = some i := by simp [Host.i64, h]

/-! ## The strict reader -/

mutual

/-- `StrictVisitor`: an integer above `i64::MAX` and a repeated property are errors. -/
def strict : Raw → Except String Value
  | .null => .ok .null
  | .bool b => .ok (.bool b)
  | .i64 i => .ok (.int i)
  | .u64 n =>
    if n > 2 ^ 63 - 1 then .error "JSON integer exceeds signed 64-bit range" else .ok (.int n)
  | .f64 f => .ok (.num (.float f))
  | .str s => .ok (.str s)
  | .seq items => do return .arr (← strictItems items)
  | .map fields => do return .obj (← strictFields [] fields)

def strictItems : List Raw → Except String (List Value)
  | [] => .ok []
  | x :: xs => do
    let v ← strict x
    return v :: (← strictItems xs)

def strictFields (out : List (String × Value)) :
    List (String × Raw) → Except String (List (String × Value))
  | [] => .ok out
  | (k, x) :: xs =>
    if (lookup k out).isSome then .error ("duplicate JSON property: " ++ k)
    else do
      let v ← strict x
      strictFields (out ++ [(k, v)]) xs

end

/-- `tools::parse_strict_json`. -/
def parseStrictJson (host : Host) (text : String) : Except String Value := do
  strict (← host.reader text)

/-! ## The JSON writer of `serde_json` -/

def hexDigit (n : Nat) : Char := "0123456789abcdef".toList.getD n '0'

/-- serde's escape of one character. -/
def escapeChar (c : Char) : List Char :=
  if c = '"' then ['\\', '"']
  else if c = '\\' then ['\\', '\\']
  else if c.toNat = 8 then ['\\', 'b']
  else if c.toNat = 12 then ['\\', 'f']
  else if c = '\n' then ['\\', 'n']
  else if c = '\r' then ['\\', 'r']
  else if c = '\t' then ['\\', 't']
  else if c.toNat < 32 then ['\\', 'u', '0', '0', hexDigit (c.toNat / 16), hexDigit (c.toNat % 16)]
  else [c]

/-- `serde_json::to_string` of a string. -/
def jsonString (s : String) : String :=
  .ofList ('"' :: s.toList.flatMap escapeChar ++ ['"'])

/-- `serde_json::Number::to_string`. -/
def Number.text (host : Host) : Number → String
  | .int i => toString i
  | .float f => host.floatText f

mutual

/-- `serde_json::to_string` of a value, which is also its `Display`. -/
def Value.text (host : Host) : Value → String
  | .null => "null"
  | .bool b => if b then "true" else "false"
  | .num n => n.text host
  | .str s => jsonString s
  | .arr items => "[" ++ Text.joinWith "," (Value.textItems host items) ++ "]"
  | .obj fields => "\x7b" ++ Text.joinWith "," (Value.textFields host fields) ++ "\x7d"

def Value.textItems (host : Host) : List Value → List String
  | [] => []
  | v :: vs => v.text host :: Value.textItems host vs

def Value.textFields (host : Host) : List (String × Value) → List String
  | [] => []
  | (k, v) :: rest => (jsonString k ++ ":" ++ v.text host) :: Value.textFields host rest

end

/-- The length in bytes of `serde_json::to_vec`. -/
def Value.byteLength (host : Host) (v : Value) : Nat := (v.text host).utf8ByteSize

end StateDrivenAgent
