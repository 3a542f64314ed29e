import StateDrivenAgent.Agent.Session

/-!
# Arguments and completion checks

`validate_value` of `tools.rs`, and of `engine.rs` the functions that compare JSON values: the
matching of evidence, the extraction of a result from a tool's output, and the check of a final
answer against it. A number compares by its decimal value.
-/

namespace StateDrivenAgent

/-- A pattern of the source or of a configuration matches somewhere in `s`. -/
def Host.isMatch (host : Host) (pattern s : String) : Bool :=
  match host.regex pattern with
  | .ok re => re.isMatch s
  | .error _ => false

namespace Tools

/-! ## The lenient reader -/

mutual

/-- What serde builds from a JSON text for a `Value`: of a repeated property the last one. -/
def lenient : Raw → Value
  | .null => .null
  | .bool b => .bool b
  | .i64 i => .int i
  | .u64 n => .int n
  | .f64 f => .num (.float f)
  | .str s => .str s
  | .seq items => .arr (lenientItems items)
  | .map fields => .obj (lenientFields [] fields)

def lenientItems : List Raw → List Value
  | [] => []
  | x :: xs => lenient x :: lenientItems xs

def lenientFields (out : List (String × Value)) : List (String × Raw) → List (String × Value)
  | [] => out
  | (k, x) :: xs => lenientFields (insertField k (lenient x) out) xs

end

/-- `serde_json::from_str::<Value>`. -/
def readJson (host : Host) (text : String) : Option Value := (host.reader text).toOption.map lenient

/-! ## `validate_arguments` -/

/-- The JSON type a schema asks for. -/
def hasType (kind : String) (value : Value) : Bool :=
  if kind = "object" then value.isObject
  else if kind = "array" then value.asArray.isSome
  else if kind = "string" then value.asStr.isSome
  else if kind = "boolean" then value.asBool.isSome
  else if kind = "null" then value.isNull
  else if kind = "number" then value.asF64.isSome
  else if kind = "integer" then
    value.asI64.isSome || value.asU64.isSome || value.asF64.any F64.isIntegral
  else true

def checkRequired (path : String) (fields : List (String × Value)) (schema : Value) :
    Except String Unit :=
  match ((((schema.get "required").bind Value.asArray).getD []).filterMap Value.asStr).find? fun k =>
    (lookup k fields).isNone with
  | some key => .error (path ++ "." ++ key ++ " is required")
  | none => .ok ()

def checkText (host : Host) (schema : Value) (s path : String) : Except String Unit :=
  let bound (key : String) : Option Nat := (schema.get key).bind Value.asU64
  if (bound "minLength").any (s.length < ·) then .error (path ++ " is shorter than minLength")
  else if (bound "maxLength").any (· < s.length) then .error (path ++ " exceeds maxLength")
  else match (schema.get "pattern").bind Value.asStr with
    | none => .ok ()
    | some pattern => match host.regex pattern with
      | .error e => .error ("invalid configured pattern: " ++ e)
      | .ok re => if re.isMatch s then .ok ()
          else .error (path ++ " does not match the configured pattern")

def checkNumber (schema : Value) (n : F64) (path : String) : Except String Unit :=
  let violated (key : String) (failed : Rat → Bool) : Bool :=
    ((schema.get key).bind Value.asF64).any fun b => failed b.toRat
  if violated "minimum" (n.toRat < ·) then .error (path ++ " violates minimum")
  else if violated "maximum" (· < n.toRat) then .error (path ++ " violates maximum")
  else if violated "exclusiveMinimum" (n.toRat ≤ ·) then .error (path ++ " violates exclusiveMinimum")
  else if violated "exclusiveMaximum" (· ≤ n.toRat) then .error (path ++ " violates exclusiveMaximum")
  else .ok ()

def checkLength (schema : Value) (n : Nat) (path : String) : Except String Unit :=
  let bound (key : String) : Option Nat := (schema.get key).bind Value.asU64
  if (bound "minItems").any (n < ·) then .error (path ++ " has fewer than minItems")
  else if (bound "maxItems").any (· < n) then .error (path ++ " exceeds maxItems")
  else .ok ()

mutual

/-- `validate_value`. -/
def validateValue (host : Host) (schema : Value) : (value : Value) → (path : String) →
    Except String Unit
  | value, path => do
    let kind := ((schema.get "type").bind Value.asStr).getD ""
    if !hasType kind value then .error (path ++ " must be " ++ kind)
    else if ((schema.get "enum").bind Value.asArray).any fun allowed => !allowed.any (·.eqv value) then
      .error (path ++ " is not an allowed value")
    else if (schema.get "const").any fun x => !x.eqv value then
      .error (path ++ " must equal the configured constant")
    else match value with
      | .obj fields =>
        checkRequired path fields schema
        validateFields host schema fields path
      | .arr items =>
        match schema.get "items" with
        | some sub => validateItems host sub items 0 path
        | none => .ok ()
        checkLength schema items.length path
      | .str s => checkText host schema s path
      | .num n => checkNumber schema n.asF64 path
      | _ => .ok ()

def validateFields (host : Host) (schema : Value) : List (String × Value) → String →
    Except String Unit
  | [], _ => .ok ()
  | (key, item) :: rest, path => do
    let additional := schema.get "additionalProperties"
    match ((schema.get "properties").bind Value.asObject).bind (lookup key) with
    | some sub => validateValue host sub item (path ++ "." ++ key)
    | none =>
      if additional.any (·.eqv (.bool false)) then .error (path ++ "." ++ key ++ " is not allowed")
      else match additional.filter Value.isObject with
        | some sub => validateValue host sub item (path ++ "." ++ key)
        | none => .ok ()
    validateFields host schema rest path

def validateItems (host : Host) (schema : Value) : List Value → Nat → String → Except String Unit
  | [], _, _ => .ok ()
  | item :: rest, i, path => do
    validateValue host schema item (path ++ "[" ++ toString i ++ "]")
    validateItems host schema rest (i + 1) path

end

/-- `validate_arguments`. -/
def validateArguments (host : Host) (schema args : Value) : Except String Unit :=
  validateValue host schema args "$"

end Tools

namespace Engine

/-! ## Decimal equality -/

/-- `canonical` of `decimal_equal`: sign, digits without outer zeros, power of ten. -/
def decimalParts (value : String) : Option (Bool × String × Int) := do
  let cs := (Text.trim value).toList
  let isE (c : Char) : Bool := c = 'e' || c = 'E'
  let exponent ← if cs.any isE then
      Text.parseInt 64 (.ofList ((cs.dropWhile fun c => !isE c).drop 1)) else some 0
  let (negative, mantissa) := match cs.takeWhile fun c => !isE c with
    | '-' :: rest => (true, rest)
    | '+' :: rest => (false, rest)
    | mantissa => (false, mantissa)
  let whole := mantissa.takeWhile (· ≠ '.')
  let fraction := (mantissa.dropWhile (· ≠ '.')).drop 1
  if (whole ++ fraction).isEmpty || !(whole ++ fraction).all Text.isAsciiDigit then none
  else
    let digits := (whole ++ fraction).dropWhile (· = '0')
    if digits = [] then some (false, "0", 0)
    else
      let kept := (digits.reverse.dropWhile (· = '0')).reverse
      let power := exponent - fraction.length + (digits.length - kept.length : Nat)
      if exponent - fraction.length < -2 ^ 63 ∨ 2 ^ 63 ≤ power then none
      else some (negative, .ofList kept, power)

def decimalEqual (left right : String) : Bool :=
  match decimalParts left, decimalParts right with
  | some a, some b => a = b
  | _, _ => false

/-! ## Comparison of values -/

mutual

def typedEqual (host : Host) : Value → Value → Bool
  | .bool x, .bool y => x = y
  | .num x, .num y => decimalEqual (x.text host) (y.text host)
  | .arr x, .arr y => x.length = y.length && typedEqualItems host x y
  | .obj x, .obj y => x.length = y.length && typedEqualFields host x y
  | a, b => a.eqv b

def typedEqualItems (host : Host) : List Value → List Value → Bool
  | [], _ | _, [] => true
  | x :: xs, y :: ys => typedEqual host x y && typedEqualItems host xs ys

def typedEqualFields (host : Host) : List (String × Value) → List (String × Value) → Bool
  | [], _ => true
  | (k, x) :: rest, other =>
    (match lookup k other with
      | some y => typedEqual host x y
      | none => false) && typedEqualFields host rest other

end

mutual

/-- `contains(a, b)`, by recursion on the expectation `b`. -/
def contains (host : Host) (a : Value) : Value → Bool
  | .obj m => match a with
    | .obj x => containsFields host x m
    | _ => false
  | .arr v => match a with
    | .arr x => containsItems host x v
    | _ => false
  | b => typedEqual host a b

def containsFields (host : Host) (x : List (String × Value)) : List (String × Value) → Bool
  | [] => true
  | (k, v) :: rest =>
    (match lookup k x with
      | some q => contains host q v
      | none => false) && containsFields host x rest

def containsItems (host : Host) (x : List Value) : List Value → Bool
  | [] => true
  | q :: rest => (x.any fun z => contains host z q) && containsItems host x rest

end

/-- `matches`. -/
def evidenceMatches (host : Host) (e : Evidence) (name : String) (args : List (String × Value))
    (output : String) : Bool :=
  e.tool = name && contains host (.obj args) e.arguments &&
    (e.contentContains.all fun x =>
      Text.containsStr (host.lowercase output) (host.lowercase x)) &&
    (e.result.isNull || e.result.asObject.any List.isEmpty ||
      (Tools.readJson host output).any fun x => contains host x e.result)

/-- `value_at_path`. -/
def valueAtPath (value : Value) : List Value → Option Value
  | [] => some value
  | part :: path =>
    match part.asStr with
    | some key => (value.get key).bind fun v => valueAtPath v path
    | none => (part.asU64.bind value.at?).bind fun v => valueAtPath v path

/-- The path a binding or a check names; none is the value itself. -/
def pathOf (v : Value) (key : String) : List Value := ((v.get key).bind Value.asArray).getD []

/-! ## Results and answers -/

/-- The cells of a table row. -/
def tableCells (line : String) : List String :=
  let cells := (Text.split line '|').map Text.trim
  let cells := if cells.head? = some "" then cells.drop 1 else cells
  if cells.getLast? = some "" then cells.dropLast else cells

/-- The rows of the first table of the lines; `rows` are those found so far. -/
def tableRows (host : Host) (rows : List (List String)) : List String → List (List String)
  | [] => rows
  | line :: lines =>
    let trimmed := Text.trim line
    if trimmed.toList.contains '|' then
      let cells := tableCells trimmed
      if cells.isEmpty || cells.all (host.isMatch "^:?-\x7b3,\x7d:?$") then tableRows host rows lines
      else tableRows host (rows ++ [cells]) lines
    else if rows.isEmpty then tableRows host rows lines
    else rows

/-- `parse_markdown_table`. -/
def parseMarkdownTable (host : Host) (text : String) : Option Value :=
  let rows := tableRows host [] (Text.lines text)
  let width := rows.head?.elim 0 List.length
  let keys : List String := rows.tail.map fun row => row.head?.getD ""
  if rows.length < 2 || rows.any (·.length ≠ width) then none
  else if !decide keys.Nodup then none
  else some (.arr (rows.map fun row => .arr (row.map .str)))

/-- `numeric_cell_equal`. -/
def numericCellEqual (host : Host) (actual expected : String) : Bool :=
  let isInteger := host.isMatch "^[-+]?\\d+$"
  let plain (s : String) : String := Text.replaceChar s ',' ""
  if isInteger expected && !isInteger actual then false
  else decimalEqual (plain actual) (plain expected) || actual = expected

/-- `extract_result`. -/
def extractResult (host : Host) (check : Value) (output : String) : Option Value :=
  let kind := ((check.get "kind").bind Value.asStr).getD ""
  if kind = "markdown_table" then parseMarkdownTable host output
  else do
    let parsed ← (parseStrictJson host output).toOption
    let value ← valueAtPath parsed (pathOf check "path")
    if kind = "number" && !value.isNumber then none else some value

/-- The rows below the head of a table, by their first cell. -/
def keyedRows (rows : List Value) : Option (List (String × List String)) := do
  let keyed ← rows.tail.mapM fun row => do
    let cells ← row.asArray
    let key ← cells.head?.bind Value.asStr
    let value ← cells.tail.mapM Value.asStr
    return (key, value)
  if (keyed.map Prod.fst).Nodup then some keyed else none

/-- The `markdown_table` check of an answer. -/
def checkTable (host : Host) (answer : String) (artifact : Value) : Bool :=
  match (parseMarkdownTable host answer).bind Value.asArray, artifact.asArray with
  | some actualRows, some wantedRows =>
    let sameHead := match actualRows.head?, wantedRows.head? with
      | some a, some b => a.eqv b
      | none, none => true
      | _, _ => false
    sameHead && match keyedRows actualRows, keyedRows wantedRows with
      | some actual, some wanted => actual.length = wanted.length && wanted.all fun (key, expected) =>
          (lookup key actual).any fun found => found.length = expected.length &&
            (found.zip expected).all fun (a, b) => numericCellEqual host a b
      | _, _ => false
  | _, _ => false

/-- The value an answer has at `answer_path`. -/
def answerAtPath (value : Value) : List Value → Option Value
  | [] => some value
  | part :: path =>
    (((part.asStr.bind value.get) <|> part.asU64.bind value.at?)).bind fun v => answerAtPath v path

/-- A numeral that ends at the offset is not a part of a longer one. -/
def endsNumeral (answer : String) (stop : Nat) : Bool :=
  match answer.toList.drop stop with
  | c :: rest => !(Text.isAsciiDigit c || c = ',') &&
      !(c = '.' && rest.head?.any Text.isAsciiDigit)
  | [] => true

/-- The `number` check of an answer: the label occurs with exactly one number. -/
def checkLabelled (host : Host) (check : Value) (answer : String) (artifact : Value) : Bool :=
  let label := ((check.get "label").bind Value.asStr).getD ""
  match host.regex (host.regexEscape label ++
    "\\s*\\$?\\s*([-+]?(?:\\d\x7b1,3\x7d(?:,\\d\x7b3\x7d)+|\\d+)(?:\\.\\d+)?)") with
  | .error _ => false
  | .ok re => match (re.captures answer).filterMap fun m => m.2.map fun text => (m.1, text) with
    | [(stop, text)] => endsNumeral answer stop && artifact.asNumber.any fun expected =>
        decimalEqual (Text.replaceChar text ',' "") (expected.text host)
    | _ => false

/-- `check_answer`. -/
def checkAnswer (host : Host) (check : Value) (answer : String) (artifact : Value) : Bool :=
  let kind := ((check.get "kind").bind Value.asStr).getD ""
  if kind = "markdown_table" then checkTable host answer artifact
  else if kind = "json_value" then
    match parseStrictJson host answer with
    | .error _ => false
    | .ok parsed => match answerAtPath parsed (pathOf check "answer_path") with
      | none => false
      | some v => typedEqual host v artifact
  else if kind = "number" then checkLabelled host check answer artifact
  else false

mutual

/-- `{:?}` of a value. -/
def debugValue (host : Host) : Value → String
  | .null => "Null"
  | .bool b => "Bool(" ++ (if b then "true" else "false") ++ ")"
  | .num n => "Number(" ++ n.text host ++ ")"
  | .str s => "String(" ++ host.debugStr s ++ ")"
  | .arr items => "Array [" ++ Text.joinWith ", " (debugItems host items) ++ "]"
  | .obj fields => "Object \x7b" ++ Text.joinWith ", " (debugFields host fields) ++ "\x7d"

def debugItems (host : Host) : List Value → List String
  | [] => []
  | v :: vs => debugValue host v :: debugItems host vs

def debugFields (host : Host) : List (String × Value) → List String
  | [] => []
  | (k, v) :: rest => (host.debugStr k ++ ": " ++ debugValue host v) :: debugFields host rest

end

/-- One row of a table as Markdown, with the rule below the first. -/
def describeRow (first : Bool) (row : Value) : List String :=
  let cells := (row.asArray.getD []).map fun c => c.asStr.getD ""
  let line (cells : List String) : String := "| " ++ Text.joinWith " | " cells ++ " |"
  if first then [line cells, line (cells.map fun _ => "---")] else [line cells]

/-- `describe_artifact`. -/
def describeArtifact (host : Host) (check artifact : Value) : String :=
  let kind := ((check.get "kind").bind Value.asStr).getD ""
  if kind = "markdown_table" then
    match artifact.asArray with
    | none => artifact.text host
    | some rows => Text.joinWith "\n" (((rows.take 1).flatMap (describeRow true)) ++
        (rows.drop 1).flatMap (describeRow false))
  else if kind = "number" then
    ((check.get "label").bind Value.asStr).getD "Result" ++ " " ++ artifact.text host
  else "Expected JSON value at " ++ debugValue host (check.index "answer_path") ++ ": " ++
    artifact.text host

end Engine

end StateDrivenAgent
