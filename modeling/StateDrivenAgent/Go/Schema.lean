import StateDrivenAgent.Go.Json
import StateDrivenAgent.Go.Session

/-!
# Arguments and their schema

`validation.go`. A number is an `int64`, a `float64` or, read back from the database, a
`json.Number`; every comparison goes through `schemaNumber`, which reads the three alike, so a number
of the model is just a number. The order of a map's problems is the order of its properties here.
-/

namespace StateDrivenAgent

namespace Go

/-- The libraries the Go runtime runs on. -/
structure Platform where
  host : Host
  /-- The tree `Decoder.Token` delivers for a text. -/
  decoder : String → Except String Spelling
  /-- `json.Marshal`; `none` is an error. -/
  marshal : Value → Option String
  /-- `regexp.Compile`; `none` is an error. -/
  regexp : String → Option (String → Bool)
  /-- `strings.ToLower`. -/
  toLower : String → String
  /-- `%v` of a float. -/
  formatFloat : F64 → String

/-! ## `strictJSON` -/

/-- The number case of `readJSONValue`. -/
def strictNumber (token : List Char) : Except String Number :=
  match if isInteger token then parseInt64 token else none with
  | some i => .ok (.int i)
  | none =>
    if isInteger token then .error "JSON integer exceeds supported range"
    else match parseFloat token with
      | some f => .ok (.float f)
      | none => .error "JSON number exceeds finite numeric range"

mutual

/-- `readJSONValue`. -/
def strictValue : Spelling → Except String Value
  | .null => .ok .null
  | .bool b => .ok (.bool b)
  | .str s => .ok (.str s)
  | .num token => (strictNumber token).map .num
  | .arr items => (strictItems items).map .arr
  | .obj fields => (strictFields [] fields).map .obj

def strictItems : List Spelling → Except String (List Value)
  | [] => .ok []
  | x :: xs => do
    let v ← strictValue x
    return v :: (← strictItems xs)

def strictFields (read : List (String × Value)) :
    List (String × Spelling) → Except String (List (String × Value))
  | [] => .ok read
  | (k, x) :: xs =>
    if (lookup k read).isSome then .error ("duplicate JSON property: " ++ k)
    else do
      let v ← strictValue x
      strictFields (read ++ [(k, v)]) xs

end

/-- `strictJSON`. -/
def Platform.strictJSON (p : Platform) (text : String) : Except String Value := do
  strictValue (← p.decoder text)

/-! ## Values and types -/

def schemaNumber : Value → Option F64
  | .num n => some n.asF64
  | _ => none

def schemaType (v : Value) (kind : String) : Bool :=
  match kind with
  | "object" => v.isObject
  | "array" => v.asArray.isSome
  | "string" => v.asStr.isSome
  | "boolean" => v.asBool.isSome
  | "null" => v.isNull
  | "number" => (schemaNumber v).isSome
  | "integer" => (schemaNumber v).any F64.isIntegral
  | _ => false

mutual

def jsonEqual : Value → Value → Bool
  | .bool a, b => b.asBool = some a
  | .obj x, .obj y => x.length == y.length && jsonEqualFields x y
  | .arr x, .arr y => jsonEqualItems x y
  | .num a, .num b => a.asF64.eqv b.asF64
  | .str a, .str b => a = b
  | .null, .null => true
  | _, _ => false

def jsonEqualFields : List (String × Value) → List (String × Value) → Bool
  | [], _ => true
  | (k, v) :: rest, y => (lookup k y).any (fun w => jsonEqual v w) && jsonEqualFields rest y

def jsonEqualItems : List Value → List Value → Bool
  | [], [] => true
  | v :: vs, w :: ws => jsonEqual v w && jsonEqualItems vs ws
  | _, _ => false

end

/-- `%T` of a decoded value. -/
def typeName : Value → String
  | .null => "<nil>"
  | .bool _ => "bool"
  | .num (.int _) => "int64"
  | .num (.float _) => "float64"
  | .str _ => "string"
  | .arr _ => "[]interface {}"
  | .obj _ => "map[string]interface {}"

/-! ## `validateArguments` -/

/-- The entry of a schema with a number. -/
def schemaLimit (schema : Value) (k : String) : Option F64 := (schema.get k).bind schemaNumber

/-- The problem of `validateArguments` with the size of a string or an array. -/
def sizeIssues (schema : Value) (n : Nat) (least most low high : String) : List String :=
  (if (schemaLimit schema least).any fun limit => (F64.ofInt n).lt limit then [low] else []) ++
    if (schemaLimit schema most).any fun limit => limit.lt (F64.ofInt n) then [high] else []

def textIssues (p : Platform) (schema : Value) (s path : String) : List String :=
  sizeIssues schema s.length "minLength" "maxLength"
      (path ++ ": string length is below configured minimum")
      (path ++ ": string length exceeds configured maximum") ++
    match ((schema.get "pattern").bind Value.asStr).bind p.regexp with
    | some matches' => if matches' s then [] else [path ++ ": string does not match configured pattern"]
    | none => []

/-- The rules on numbers; `valid` compares the number with its limit. -/
def numberRules : List (String × (F64 → F64 → Bool)) :=
  [("minimum", fun n x => !n.lt x), ("maximum", fun n x => !x.lt n),
    ("exclusiveMinimum", fun n x => x.lt n), ("exclusiveMaximum", fun n x => n.lt x)]

def numberIssues (p : Platform) (schema : Value) (n : F64) (path : String) : List String :=
  numberRules.filterMap fun rule =>
    (schemaLimit schema rule.1).bind fun limit =>
      if rule.2 n limit then none
      else some (path ++ ": violates " ++ rule.1 ++ "=" ++ p.formatFloat limit)

def requiredIssues (schema : Value) (fields : List (String × Value)) (path : String) :
    List String :=
  (((schema.get "required").bind Value.asArray).getD []).filterMap fun r =>
    r.asStr.bind fun key =>
      if (lookup key fields).isSome then none
      else some (path ++ "." ++ key ++ ": required property is missing")

def enumIssues (schema value : Value) (path : String) : List String :=
  match (schema.get "enum").bind Value.asArray with
  | some options => if options.any fun x => jsonEqual value x then []
      else [path ++ ": value is not in configured enum"]
  | none => []

def constIssues (schema value : Value) (path : String) : List String :=
  match schema.get "const" with
  | some x => if jsonEqual value x then []
      else [path ++ ": value does not match configured constant"]
  | none => []

/-- The schema of a property, and whether the property is forbidden. -/
def propertySchema (schema : Value) (k : String) : Option Value × Bool :=
  match (((schema.get "properties").bind Value.asObject).bind (lookup k)).filter Value.isObject with
  | some sub => (some sub, false)
  | none =>
    match schema.get "additionalProperties" with
    | some (.bool false) => (none, true)
    | some (.obj fields) => (some (.obj fields), false)
    | _ => (none, false)

mutual

def validateArguments (p : Platform) (schema : Value) : Value → String → List String
  | value, path =>
    let kind := ((schema.get "type").bind Value.asStr).getD ""
    if kind ≠ "" ∧ !schemaType value kind then
      [path ++ ": expected " ++ kind ++ ", received " ++ typeName value ++ "; supply a JSON " ++
        kind ++ " without coercion"]
    else
      enumIssues schema value path ++ constIssues schema value path ++
        match value with
        | .obj fields => requiredIssues schema fields path ++ validateFields p schema fields path
        | .str s => textIssues p schema s path
        | .arr items =>
          sizeIssues schema items.length "minItems" "maxItems"
              (path ++ ": array is shorter than configured minimum")
              (path ++ ": array exceeds configured maximum") ++
            match (schema.get "items").filter Value.isObject with
            | some sub => validateItems p sub items 0 path
            | none => []
        | .num n => numberIssues p schema n.asF64 path
        | _ => []

def validateFields (p : Platform) (schema : Value) : List (String × Value) → String → List String
  | [], _ => []
  | (k, item) :: rest, path =>
    (match propertySchema schema k with
      | (some sub, _) => validateArguments p sub item (path ++ "." ++ k)
      | (none, true) => [path ++ "." ++ k ++ ": additional property is forbidden"]
      | (none, false) => []) ++ validateFields p schema rest path

def validateItems (p : Platform) (schema : Value) : List Value → Nat → String → List String
  | [], _, _ => []
  | item :: rest, i, path =>
    validateArguments p schema item (path ++ "[" ++ toString i ++ "]") ++
      validateItems p schema rest (i + 1) path

end

/-! ## `contains` and paths -/

mutual

/-- `contains(a, b)`. -/
def contains (a : Value) : Value → Bool
  | .null => true
  | .obj y => match a with
    | .obj x => containsFields x y
    | _ => false
  | .arr y => match a with
    | .arr x => containsItems x y
    | _ => false
  | b => jsonEqual a b

def containsFields (x : List (String × Value)) : List (String × Value) → Bool
  | [] => true
  | (k, v) :: rest => (lookup k x).any (fun q => contains q v) && containsFields x rest

def containsItems (x : List Value) : List Value → Bool
  | [] => true
  | v :: rest => x.any (fun q => contains q v) && containsItems x rest

end

def valueAtPath (value : Value) : List Value → Option Value
  | [] => some value
  | .str k :: rest => (value.asObject.bind (lookup k)).bind fun v => valueAtPath v rest
  | .num (.int i) :: rest =>
    if i < 0 then none
    else (value.asArray.bind fun items => items[i.toNat]?).bind fun v => valueAtPath v rest
  | _ => none

end Go

end StateDrivenAgent
