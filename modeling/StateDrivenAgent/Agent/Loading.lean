import StateDrivenAgent.Agent.Decode
import StateDrivenAgent.Agent.Schema

/-!
# Loading a configuration

`cfg` of `main.rs` from the document on, and the hash of what it gives: the variables of the
environment are put into the texts (`expand`), the `agent` mapping is read as serde derives it for
`Config`, checked (`validate_config`), completed (`complete_config_value`) and hashed
(`resolved_config_hash`).

serde reads a struct from a mapping, and also from a sequence with the fields in their order; a
field with a default may be missing from either. What is read is written again as a mapping, so the
shapes a document can leave in the completed value are those of the fields that stay raw JSON:
`execution`, `completion`, a tool's `parameters` and `recovery`, and the values of evidence.

A panic is an outcome of its own here: `expect` on a value that is no mapping, `unwrap` of nothing,
an exponent that is not an `i32`, and `i64` overflow in a build that checks it.
-/

namespace StateDrivenAgent

/-- Why loading stops: an error for the caller, or a panic of the thread, by its site. -/
inductive Stop where
  | error (message : String)
  | panic (site : String)
deriving DecidableEq

abbrev Loading (α : Type) := Except Stop α

/-- What loading takes from outside: the variables of the environment and serde's text for a value
that is not of the type. -/
structure Loader extends Host where
  env : String → Option String
  typeError : Value → String

/-! ## The variables of the environment -/

namespace Expand

/-- The name of a variable. -/
def isName (key : String) : Bool :=
  !key.isEmpty && key.toList.all fun c => ('A' ≤ c && c ≤ 'Z') || Text.isAsciiDigit c || c = '_'

/-- `split_once(":-")`. -/
def splitDefault : List Char → List Char × List Char
  | ':' :: '-' :: rest => ([], rest)
  | c :: cs => (c :: (splitDefault cs).1, (splitDefault cs).2)
  | [] => ([], [])

/-- What stands for the expression between the braces. -/
def value (env : String → Option String) (expression : List Char) : List Char :=
  let key := String.ofList (splitDefault expression).1
  if isName key then ((env key).map String.toList).getD (splitDefault expression).2
  else '$' :: '\x7b' :: expression ++ ['\x7d']

/-- The text from the start of a reference, with how many characters the reference has. -/
def reference (env : String → Option String) : List Char → Option (List Char × Nat)
  | '$' :: '\x7b' :: tail =>
    if '\x7d' ∈ tail then
      let expression := tail.takeWhile (· ≠ '\x7d')
      some (value env expression, expression.length + 3)
    else none
  | _ => none

/-- `skip` characters belong to the last reference. -/
def text (env : String → Option String) (skip : Nat) : List Char → List Char
  | [] => []
  | c :: cs =>
    if skip > 0 then text env (skip - 1) cs
    else match reference env (c :: cs) with
      | some (value, length) => value ++ text env (length - 1) cs
      | none => c :: text env 0 cs

mutual

/-- `expand`. -/
def document (env : String → Option String) : Value → Value
  | .str s => .str (.ofList (text env 0 s.toList))
  | .arr items => .arr (documentItems env items)
  | .obj fields => .obj (documentFields env fields)
  | v => v

def documentItems (env : String → Option String) : List Value → List Value
  | [] => []
  | v :: vs => document env v :: documentItems env vs

def documentFields (env : String → Option String) : List (String × Value) → List (String × Value)
  | [] => []
  | (k, v) :: rest => (k, document env v) :: documentFields env rest

end

end Expand

/-! ## Reading the types -/

namespace Derived

/-- The value of a field, by its name in a mapping or by its place in a sequence. -/
def field (v : Value) (k : String) (place : Nat) : Option Value :=
  match v with
  | .obj fields => lookup k fields
  | .arr items => items[place]?
  | _ => none

/-- A struct of `n` fields is read from a mapping or from a sequence that is not longer. -/
def isStruct (n : Nat) (v : Value) : Bool :=
  v.isObject || v.asArray.any fun items => items.length ≤ n

variable {α : Type}

def required (f : Value → Option α) (v : Value) (k : String) (place : Nat) : Option α :=
  (field v k place).bind f

/-- A field with `serde(default)`. -/
def defaulted (f : Value → Option α) (d : α) (v : Value) (k : String) (place : Nat) : Option α :=
  match field v k place with
  | none => some d
  | some x => f x

/-- An `Option`: `null` is `None`. -/
def optional (f : Value → Option α) : Value → Option (Option α)
  | .null => some none
  | v => (f v).map some

def memory (v : Value) : Option MemoryPolicy := do
  guard (isStruct 19 v)
  return {
    maxTokens := ← required Value.asI64 v "max_tokens" 0
    maxSteps := ← required Value.asI64 v "max_steps" 1
    rawTurnsToKeep := ← required Value.asU64 v "raw_turns_to_keep" 2
    hybridReflection := ← defaulted Value.asBool true v "hybrid_reflection" 3
    runMaxSteps := ← defaulted (optional Value.asI64) none v "run_max_steps" 4
    compactionIntervalSteps :=
      ← defaulted (optional Value.asI64) none v "compaction_interval_steps" 5
    contextWindowTokens := ← defaulted Value.asI64 32768 v "context_window_tokens" 6
    reservedOutputTokens := ← defaulted Value.asI64 1024 v "reserved_output_tokens" 7
    safetyMarginTokens := ← defaulted Value.asI64 256 v "safety_margin_tokens" 8
    maxSummaryTokens := ← defaulted Value.asI64 4096 v "max_summary_tokens" 9
    summaryOutputTokens := ← defaulted Value.asI64 512 v "summary_output_tokens" 10
    compactionMaxAttempts := ← defaulted Value.asI64 2 v "compaction_max_attempts" 11
    compactionMaxPasses := ← defaulted Value.asI64 3 v "compaction_max_passes" 12
    compactionMinGrowthTokens := ← defaulted Value.asI64 512 v "compaction_min_growth_tokens" 13
    compactionMinIntervalSteps := ← defaulted Value.asI64 0 v "compaction_min_interval_steps" 14
    optionalCompactionMinPressureRatio :=
      ← defaulted Value.asF64 .zero v "optional_compaction_min_pressure_ratio" 15
    optionalCompactionMinReclaimableTokens :=
      ← defaulted Value.asI64 0 v "optional_compaction_min_reclaimable_tokens" 16
    optionalCompactionMinReductionTokens :=
      ← defaulted Value.asI64 0 v "optional_compaction_min_reduction_tokens" 17
    optionalCompactionMinReductionRatio :=
      ← defaulted Value.asF64 .zero v "optional_compaction_min_reduction_ratio" 18 }

def llm (v : Value) : Option Llm := do
  guard (isStruct 6 v)
  return {
    baseUrl := ← required Value.asStr v "base_url" 0
    apiKeyEnv := ← defaulted Value.asStr "OPENAI_API_KEY" v "api_key_env" 1
    temperature := ← defaulted Value.asF64 (.ofRat (1 / 10)) v "temperature" 2
    timeoutSeconds := ← defaulted Value.asF64 (.ofInt 90) v "timeout_seconds" 3
    toolCallMode := ← defaulted Value.asStr "native" v "tool_call_mode" 4
    maxOutputTokens := ← defaulted (optional Value.asI64) none v "max_output_tokens" 5 }

/-- The field of `Output`. -/
def output (v : Value) : Option Bool := do
  guard (isStruct 1 v)
  defaulted Value.asBool false v "verbose_setup" 0

def evidence (v : Value) : Option Evidence := do
  guard (isStruct 6 v)
  return {
    description := ← required Value.asStr v "description" 0
    tool := ← required Value.asStr v "tool" 1
    required := ← defaulted Value.asBool true v "required" 2
    arguments := ← defaulted some (.obj []) v "arguments" 3
    result := ← defaulted some (.obj []) v "result" 4
    contentContains := ← defaulted (Decode.list Value.asStr) [] v "content_contains" 5 }

def edge (v : Value) : Option Edge := do
  guard (isStruct 3 v)
  return {
    to' := ← required Value.asStr v "to" 0
    when' := ← defaulted Value.asStr "phase_complete" v "when" 1
    evidence := ← defaulted (Decode.list evidence) [] v "evidence" 2 }

def phase (v : Value) : Option Phase := do
  guard (isStruct 6 v)
  return {
    id := ← required Value.asStr v "id" 0
    name := ← required Value.asStr v "name" 1
    instruction := ← required Value.asStr v "instruction" 2
    allowedTools := ← defaulted (optional (Decode.list Value.asStr)) none v "allowed_tools" 3
    completion := ← defaulted (Decode.list evidence) [] v "completion" 4
    transitions := ← defaulted (Decode.list edge) [] v "transitions" 5 }

def workflow (v : Value) : Option WorkflowConfig := do
  guard (isStruct 2 v)
  return {
    entryPhase := ← required Value.asStr v "entry_phase" 0
    phases := ← required (Decode.list phase) v "phases" 1 }

def tool (v : Value) : Option Tool := do
  guard (isStruct 4 v)
  return {
    name := ← required Value.asStr v "name" 0
    description := ← required Value.asStr v "description" 1
    parameters := ← required some v "parameters" 2
    recovery := ← defaulted (optional some) none v "recovery" 3 }

def config (v : Value) : Option Config := do
  guard (isStruct 10 v)
  return {
    name := ← required Value.asStr v "name" 0
    systemPrompt := ← required Value.asStr v "system_prompt" 1
    model := ← required Value.asStr v "model" 2
    llm := ← required llm v "llm" 3
    memory := ← required memory v "memory" 4
    verboseSetup := ← defaulted output false v "output" 5
    tools := ← required (Decode.list tool) v "tools" 6
    workflow := ← defaulted (optional workflow) none v "workflow" 7
    execution := ← defaulted some (.obj []) v "execution" 8
    completion := ← defaulted some (.obj []) v "completion" 9 }

end Derived

/-! ## `validate_config` -/

namespace Config

/-- An error unless the condition holds. -/
def demand (p : Prop) [Decidable p] (message : String) : Except String Unit :=
  if p then .ok () else .error message

/-- `ok_or`. -/
def need {α : Type} (a : Option α) (message : String) : Except String α :=
  match a with
  | some a => .ok a
  | none => .error message

/-- The elements of an array property; another value has none. -/
def elements (v : Value) (k : String) : List Value := ((v.get k).bind Value.asArray).getD []

/-- A check that cannot panic. -/
def check {α : Type} (x : Except String α) : Loading α := x.mapError Stop.error

def Thresholds (m : MemoryPolicy) : Prop := 0 < m.maxTokens ∧ 0 < m.maxSteps ∧ m.rawTurnsToKeep ≠ 0

instance (m : MemoryPolicy) : Decidable (Thresholds m) := inferInstanceAs (Decidable (_ ∧ _))

/-- A double that is read is finite. -/
def LlmSettings (l : Llm) : Prop :=
  (l.toolCallMode = "native" ∨ l.toolCallMode = "single") ∧ 0 < l.timeoutSeconds.toRat ∧
    ∀ n ∈ l.maxOutputTokens, 0 < n

instance (l : Llm) : Decidable (LlmSettings l) := inferInstanceAs (Decidable (_ ∧ _))

/-- The conditions before the sum of the reserve and the margin. -/
def Sized (m : MemoryPolicy) : Prop :=
  0 < m.contextWindowTokens ∧ 0 < m.reservedOutputTokens ∧ 0 < m.maxSummaryTokens ∧
    0 < m.summaryOutputTokens ∧ 0 ≤ m.safetyMarginTokens

instance (m : MemoryPolicy) : Decidable (Sized m) := inferInstanceAs (Decidable (_ ∧ _))

/-- The conditions after it. -/
def Bounded (m : MemoryPolicy) : Prop :=
  (1 ≤ m.compactionMaxAttempts ∧ m.compactionMaxAttempts ≤ 5) ∧
    (1 ≤ m.compactionMaxPasses ∧ m.compactionMaxPasses ≤ 10) ∧
    0 ≤ m.compactionMinGrowthTokens ∧ 0 ≤ m.compactionMinIntervalSteps ∧
    (0 ≤ m.optionalCompactionMinPressureRatio.toRat ∧
      m.optionalCompactionMinPressureRatio.toRat ≤ 1) ∧
    (0 ≤ m.optionalCompactionMinReductionRatio.toRat ∧
      m.optionalCompactionMinReductionRatio.toRat ≤ 1) ∧
    0 ≤ m.optionalCompactionMinReclaimableTokens ∧ 0 ≤ m.optionalCompactionMinReductionTokens

instance (m : MemoryPolicy) : Decidable (Bounded m) := inferInstanceAs (Decidable (_ ∧ _))

def checkBudget (host : Host) (m : MemoryPolicy) : Loading Unit :=
  let message := "invalid memory budget or compaction settings"
  if ¬Sized m then .error (.error message)
  else match host.i64 (m.reservedOutputTokens + m.safetyMarginTokens) with
    | none => .error (.panic "attempt to add with overflow")
    | some sum => check (demand (sum < m.contextWindowTokens ∧ Bounded m) message)

def recoveryModes : List String := ["read_only", "repeatable", "idempotent", "reconcile"]

def checkRecovery (t : Tool) : Except String Unit :=
  match t.recovery with
  | none => .ok ()
  | some recovery => do
    let mode := ((recovery.get "mode").bind Value.asStr).getD "reconcile"
    demand (mode ∈ recoveryModes) ("invalid recovery mode '" ++ mode ++ "' for tool '" ++ t.name ++ "'")
    demand (∀ n ∈ (recovery.get "max_attempts").bind Value.asI64, 1 ≤ n ∧ n ≤ 10)
      ("invalid recovery max_attempts for tool '" ++ t.name ++ "'")

/-- `seen` are the names of the tools before. -/
def checkTools (host : Host) (seen : List String) : List Tool → Except String Unit
  | [] => .ok ()
  | t :: rest => do
    demand (t.name ∉ seen) ("duplicate tool name '" ++ t.name ++ "'")
    checkRecovery t
    validateSchema host t.parameters ("tools." ++ t.name ++ ".parameters")
    checkTools host (t.name :: seen) rest

/-- Only settings of the type that is expected are looked at, but for `max_no_progress_steps`. -/
def checkPolicies (execution : Value) : Except String Unit := do
  demand (∀ p ∈ (execution.get "tool_policy").bind Value.asStr, p = "auto" ∨ p = "none")
    "execution.tool_policy must be auto or none"
  demand (∀ n ∈ (execution.get "max_consecutive_invalid_responses").bind Value.asI64,
      1 ≤ n ∧ n ≤ 50) "execution.max_consecutive_invalid_responses must be in 1..50"
  demand (∀ v ∈ execution.get "max_no_progress_steps", v.isNull = true ∨ ∃ n ∈ v.asI64, 2 ≤ n)
    "execution.max_no_progress_steps must be null or at least 2"

/-- The labels of the result checks. -/
def checkResults (names labels : List String) : List Value → Except String (List String)
  | [] => .ok labels
  | result :: rest => do
    let tool ← need ((result.get "tool").bind Value.asStr) "completion result check requires tool"
    demand (tool ∈ names) ("completion check references unknown tool '" ++ tool ++ "'")
    let label ← need ((result.get "label").bind Value.asStr)
      "completion result check requires label"
    demand (label ∉ labels) ("duplicate completion result label '" ++ label ++ "'")
    checkResults names (label :: labels) rest

def checkRegex (host : Host) (message pattern : String) : Except String Unit :=
  match host.regex pattern with
  | .ok _ => .ok ()
  | .error e => .error (message ++ e)

def checkForbidden (host : Host) : List Value → Except String Unit
  | [] => .ok ()
  | p :: rest => do
    let p ← need p.asStr "completion.forbidden_patterns entries must be strings"
    checkRegex host "invalid forbidden completion pattern: " p
    checkForbidden host rest

def checkPattern (host : Host) (completion : Value) : Except String Unit :=
  match (completion.get "pattern").bind Value.asStr with
  | none => .ok ()
  | some pattern => checkRegex host "invalid completion.pattern: " pattern

def checkAnswer (host : Host) (completion : Value) : Except String Unit := do
  checkPattern host completion
  checkForbidden host (elements completion "forbidden_patterns")
  demand (∀ x ∈ (completion.get "exact").bind Value.asStr, (Text.trim x).isEmpty = false)
    "completion.exact must not be empty"

/-- `seen` are the targets of the bindings before. -/
def checkBindings (tools : List Tool) (labels : List String) (seen : List (String × String)) :
    List Value → Loading Unit
  | [] => .ok ()
  | binding :: rest => do
    let tool ← check (need ((binding.get "tool").bind Value.asStr) "argument binding requires tool")
    let argument ← check (need ((binding.get "argument").bind Value.asStr)
      "argument binding requires argument")
    let label ← check (need ((binding.get "source_label").bind Value.asStr)
      "argument binding requires source_label")
    check (demand (tool ∈ tools.map Tool.name)
      ("argument binding references unknown tool '" ++ tool ++ "'"))
    check (demand (label ∈ labels)
      ("argument binding references unknown result label '" ++ label ++ "'"))
    check (demand (seen.contains (tool, argument) = false) "argument binding targets must be unique")
    match tools.find? (·.name = tool) with
    | none => .error (.panic "unwrap of the declaration")
    | some declaration =>
      check (demand (((declaration.parameters.get "properties").bind Value.asObject).any
          fun properties => (lookup argument properties).isSome)
        ("argument binding target '" ++ tool ++ "." ++ argument ++ "' is not a declared parameter"))
      checkBindings tools labels ((tool, argument) :: seen) rest

/-- Every item passes; the first that does not is the error. -/
def checkAll {α : Type} (f : α → Except String Unit) : List α → Except String Unit
  | [] => .ok ()
  | x :: xs => do
    f x
    checkAll f xs

def checkEvidence (names : List String) (e : Evidence) : Except String Unit :=
  demand (e.tool ∈ names) ("workflow evidence references unknown tool '" ++ e.tool ++ "'")

def checkEdge (names ids : List String) (phase : String) (e : Edge) : Except String Unit := do
  demand (e.to' = "complete" ∨ e.to' ∈ ids)
    ("workflow transition from " ++ phase ++ " targets unknown phase " ++ e.to')
  demand (e.when' = "evidence" → e.evidence ≠ [])
    ("workflow evidence transition from " ++ phase ++ " requires evidence")
  demand (e.when' ∈ ["phase_complete", "always", "evidence"])
    ("invalid transition type " ++ e.when')
  checkAll (checkEvidence names) e.evidence

def checkPhase (names ids : List String) (p : Phase) : Except String Unit := do
  checkAll (fun tool => demand (tool ∈ names)
    ("phase '" ++ p.id ++ "' references unknown tool '" ++ tool ++ "'")) (p.allowedTools.getD [])
  checkAll (checkEvidence names) p.completion
  checkAll (checkEdge names ids p.id) p.transitions

def checkWorkflow (names : List String) : Option WorkflowConfig → Except String Unit
  | none => .ok ()
  | some w => do
    let ids := w.phases.map Phase.id
    demand ids.Nodup "workflow phase IDs must be unique"
    demand (w.entryPhase ∈ ids) "workflow.entry_phase must name a configured phase"
    checkAll (checkPhase names ids) w.phases

/-- `validate_config`. -/
def validateConfig (host : Host) (c : Config) : Loading Unit := do
  check (demand (Thresholds c.memory)
    "memory thresholds must be positive and raw_turns_to_keep must be at least 1")
  check (demand (LlmSettings c.llm) "invalid llm settings")
  checkBudget host c.memory
  check (checkTools host [] c.tools)
  let names := c.tools.map Tool.name
  check (checkPolicies c.execution)
  let labels ← check (checkResults names [] (elements c.completion "result_checks"))
  check (checkAnswer host c.completion)
  checkBindings c.tools labels [] (elements c.execution "argument_bindings")
  check (checkWorkflow names c.workflow)

/-! ## The completed value and its hash -/

/-- `expect` of a mapping. -/
def expectObject (v : Value) (site : String) : Loading Unit :=
  if v.isObject then .ok () else .error (.panic site)

/-- `complete_config_value`, with what it expects of the value. -/
def completeConfigValue (v : Value) : Loading Value := do
  expectObject v "typed config object"
  expectObject ((ConfigHash.withDefault "execution" (.obj []) v).index "execution") "execution object"
  expectObject ((ConfigHash.withDefault "completion" (.obj []) v).index "completion")
    "completion object"
  return ConfigHash.completeConfigValue v

/-- The exponent of a decimal text, where there is one, is an `i32`. -/
def readsExponent (raw : String) : Bool :=
  let rest := raw.toList.dropWhile fun c => !(c = 'e' || c = 'E')
  rest.isEmpty || (Text.parseInt 32 (.ofList (rest.drop 1))).isSome

mutual

/-- Whether `python_number` can read the exponent of every double of the value. -/
def exponentsRead (host : Host) : Value → Bool
  | .num (.float f) => f.isZero || readsExponent (host.floatText f)
  | .arr items => exponentsReadItems host items
  | .obj fields => exponentsReadFields host fields
  | _ => true

def exponentsReadItems (host : Host) : List Value → Bool
  | [] => true
  | v :: vs => exponentsRead host v && exponentsReadItems host vs

def exponentsReadFields (host : Host) : List (String × Value) → Bool
  | [] => true
  | (_, v) :: rest => exponentsRead host v && exponentsReadFields host rest

end

/-- `canonical_json`. -/
def canonicalJson (host : Host) (v : Value) : Loading String :=
  if exponentsRead host v then .ok (Identity.pythonEncoded host v)
  else .error (.panic "unwrap of the exponent")

/-- `resolved_config_hash`: the text that is hashed, and the hash. -/
def resolvedConfigHash (host : Host) (c : Config) : Loading (String × String) := do
  let v ← completeConfigValue c.toValue
  check (demand (v.isObject = true) "config serialization must be an object")
  check (demand ((v.index "llm").isObject = true) "missing llm")
  check (demand ((v.index "execution").isObject = true) "missing execution")
  check (demand ((v.index "completion").isObject = true) "missing completion")
  let canonical ← canonicalJson host (ConfigHash.hashedValue c)
  return (canonical, host.sha256 canonical)

/-! ## A document -/

/-- An error of the check, as `cfg` reports it. -/
def invalid (message : String) : String := "invalid YAML workflow config: " ++ message

def Stop.report : Stop → Stop
  | .error message => .error (invalid message)
  | .panic site => .panic site

/-- The configuration of a document, when its `agent` mapping is one. -/
def typed (loader : Loader) (document : Value) : Option Config :=
  ((Expand.document loader.env document).get "agent").bind Derived.config

/-- `cfg`, from the document on: the configuration and its completed value. -/
def cfg (loader : Loader) (document : Value) : Loading (Config × Value) := do
  let agent ← check (need ((Expand.document loader.env document).get "agent")
    "missing agent mapping")
  let c ← check (need (Derived.config agent) (invalid (loader.typeError agent)))
  (validateConfig loader.toHost c).mapError Stop.report
  let snapshot ← completeConfigValue c.toValue
  return (c, snapshot)

/-- What `collect_configs` does with a document: the configuration, its completed value and its
hash. -/
def load (loader : Loader) (document : Value) : Loading (Config × Value × String) := do
  let (c, snapshot) ← cfg loader document
  let (_, hash) ← resolvedConfigHash loader.toHost c
  return (c, snapshot, hash)

end Config

end StateDrivenAgent
