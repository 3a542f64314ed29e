import StateDrivenAgent.Json.Document

/-!
# JSON in the Java runtime

The comparisons of `JsonSupport.java`. A `JsonNode` is a value: Jackson keeps the order of a
mapper's fields, an integer node of any size and a floating-point node apart, and refuses a repeated
field. `MissingNode`, which `path` returns for an absent field, is no value; `equal` and `contains`
answer `false` on it.
-/

namespace StateDrivenAgent

namespace Java

/-- The libraries the Java runtime runs on. -/
structure Platform where
  host : Host
  /-- `BigDecimal.valueOf(double)`: the decimal that `Double.toString` prints. -/
  decimal : F64 → Rat

namespace Platform

variable (p : Platform)

/-- `JsonNode.decimalValue`. -/
def decimalValue : Number → Rat
  | .int i => i
  | .float f => p.decimal f

mutual

/-- `JsonSupport.equal`. -/
def equal : Value → Value → Bool
  | .num a, .num b => p.decimalValue a = p.decimalValue b
  | .obj a, .obj b => a.length = b.length && equalFields a b
  | .arr a, .arr b => a.length = b.length && equalItems a b
  | .null, .null => true
  | .bool a, .bool b => a = b
  | .str a, .str b => a = b
  | _, _ => false

def equalItems : List Value → List Value → Bool
  | [], _ | _, [] => true
  | a :: as, b :: bs => equal a b && equalItems as bs

def equalFields : List (String × Value) → List (String × Value) → Bool
  | [], _ => true
  | (k, a) :: rest, b => (lookup k b).any (fun v => equal a v) && equalFields rest b

end

mutual

/-- `JsonSupport.contains`; the elements of an array are compared with `equal`. -/
def contains (actual : Value) : Value → Bool
  | .obj expected => match actual with
    | .obj fields => containsFields fields expected
    | _ => false
  | .arr expected => match actual with
    | .arr items => expected.all fun e => items.any fun a => p.equal a e
    | _ => false
  | expected => p.equal actual expected

def containsFields (fields : List (String × Value)) : List (String × Value) → Bool
  | [] => true
  | (k, e) :: rest =>
    (lookup k fields).any (fun actual => contains actual e) && containsFields fields rest

end

end Platform

end Java

end StateDrivenAgent
