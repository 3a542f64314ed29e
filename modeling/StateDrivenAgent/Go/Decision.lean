import StateDrivenAgent.Go.Effect

/-!
# Reading a decision

`parseDecision` of `openai.go`. The body is spelled, since the arguments of a call are kept as they
were written; properties may repeat, and the last one counts.
-/

namespace StateDrivenAgent

open Interaction

namespace Go

/-- `json.Unmarshal` into a map: an object, or `null`, which leaves the map empty. -/
def asMap : Spelling → Option (List (String × Spelling))
  | .obj fields => some fields
  | .null => some []
  | _ => none

/-- The last property of a name. -/
def field (fields : List (String × Spelling)) (k : String) : Option Spelling :=
  lookup k fields.reverse

/-- `json.Unmarshal` into a string that is empty so far, its error ignored. -/
def stringField (fields : List (String × Spelling)) (k : String) : String :=
  match field fields k with
  | some (.str s) => s
  | _ => ""

/-- The arguments as text: a string is the text, anything else stays as it was written. -/
def rawArguments (fn : List (String × Spelling)) : String :=
  match field fn "arguments" with
  | none | some .null => ""
  | some (.str s) => s
  | some x => .ofList x.text

/-- `historicalCallIDs`. -/
def historicalCallIds (messages : List Message) : List String :=
  messages.flatMap fun m =>
    m.toolCallId.toList ++
      ((m.toolCalls.bind Value.asArray).getD []).filterMap fun call =>
        ((call.get "id").bind Value.asStr).filter fun id => id ≠ ""

/-- What is wrong with a call: a later check overrides an earlier one, the arguments come last. -/
def callIssue (raw : Spelling) (obj fn : List (String × Spelling)) (name : String)
    (args : Option Arguments) : String :=
  let callType := stringField obj "type"
  if name = "" then "function name is missing"
  else if callType ≠ "" ∧ callType ≠ "function" then "tool call type is not function"
  else if ((field obj "function").bind asMap).isNone then "function payload is missing or malformed"
  else if (asMap raw).isNone then "tool call is malformed"
  else if args.isNone then "arguments are not a valid JSON object"
  else ""

namespace Platform

variable (p : Platform)

/-- The object a text of arguments spells. -/
def readArguments (text : String) : Option Arguments :=
  (p.strictJSON text).toOption.bind Value.asObject

/-- One call of a batch. -/
def readCall (id : String) (raw : Spelling) : ToolCall :=
  let obj := (asMap raw).getD []
  let fn := ((field obj "function").bind asMap).getD []
  let name := stringField fn "name"
  let text := rawArguments fn
  { id, name, rawArguments := text, arguments := p.readArguments text
    invalid := callIssue raw obj fn name (p.readArguments text) }

/-- The identity of a call: its own, unless it is missing or in use. -/
def callIdentity (used : List String) (raw : Spelling) : GoM String :=
  let id := stringField ((asMap raw).getD []) "id"
  if id = "" ∨ used.contains id then Proc.request (Ask.freshCallId used) else pure id

/-- The calls of a batch. -/
def readCalls (used : List String) : List Spelling → GoM (List ToolCall)
  | [] => pure []
  | raw :: rest => do
    let id ← callIdentity used raw
    return p.readCall id raw :: (← readCalls (id :: used) rest)

/-- The decision of a message without calls. -/
def readContent (content : String) : Decision :=
  if Text.trim content = "" then
    { invalid := "empty_model_response: content and tool calls are empty" }
  else { final := true, content }

/-- The decision of a message. -/
def readMessage (msg : List (String × Spelling)) (history : List Message) : GoM Decision :=
  match field msg "content" with
  | some (.bool _) | some (.num _) | some (.arr _) | some (.obj _) =>
    pure { invalid := "invalid_model_response: message content must be a string or null" }
  | _ =>
    match field msg "tool_calls" with
    | none | some .null | some (.arr []) => pure (readContent (stringField msg "content"))
    | some (.arr raw) => do
      let calls ← p.readCalls (historicalCallIds history) raw
      return { calls }
    | some _ => pure { invalid := "invalid_model_response: tool_calls must be an array" }

/-- `parseDecision`; `none` is a body that is not JSON. -/
def parseDecision (body : Option Spelling) (history : List Message) : GoM Decision :=
  match body.bind asMap with
  | none => pure { invalid := "invalid_model_response: response body is not valid JSON" }
  | some envelope =>
    match field envelope "choices" with
    | none | some .null => pure { invalid := "invalid_model_response: choices are missing" }
    | some (.arr []) => pure { invalid := "empty_model_response: choices array is empty" }
    | some (.arr (choice :: _)) =>
      match asMap choice with
      | none => pure { invalid := "invalid_model_response: choice is malformed" }
      | some choice =>
        match (field choice "message").bind asMap with
        | none => pure { invalid := "invalid_model_response: choice message is missing or malformed" }
        | some msg => p.readMessage msg history
    | some _ => pure { invalid := "invalid_model_response: choices must be an array" }

end Platform

/-- `Client.Decide`: posts the request and reads the decision off the reply. -/
def Platform.decide (p : Platform) : GoM Decision := do
  let s ← GoM.get
  match ← Proc.request (Ask.chat s) with
  | .error err => Proc.fail err
  | .ok body => p.parseDecision body (s.memory.drop 1)

end Go

end StateDrivenAgent
