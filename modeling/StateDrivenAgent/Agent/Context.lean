import StateDrivenAgent.Agent.Session
import StateDrivenAgent.Identity

/-!
# Request budgets and history groups

`context.rs` without the ledger parser: what a message looks like on the wire, the estimate of a
request against the context window, the grouping of the history into interactions (an assistant
message with tool calls and the results of all of them belong together), and the source text of a
summary.

`Host.i64` stands where the source adds `i64`s: `none` is a panic of a build with overflow checks.
-/

namespace StateDrivenAgent

namespace Context

/-- `wire_message`. -/
def wireMessage (m : MessageBody) : Value :=
  .obj <| [("role", .str m.role)] ++
    (m.content.map fun c => ("content", .str c)).toList ++
    (m.name.map fun n => ("name", .str n)).toList ++
    (m.toolCallId.map fun i => ("tool_call_id", .str i)).toList ++
    ((m.toolCalls.filter fun v => !v.isNull && !v.asArray.any List.isEmpty).map
      fun c => ("tool_calls", c)).toList

/-! ## Budgets -/

def estimator : String :=
  "compact UTF-8 JSON bytes + 32 per message; conservative estimate, not provider usage"

/-- `estimate_payload`. -/
@[irreducible] def estimatePayload (host : Host) (payload : Value) (memory : MemoryPolicy) :
    Option RequestBudget := do
  let bytes := payload.byteLength host
  let messages := ((payload.get "messages").bind Value.asArray).elim 0 List.length
  let estimate ← host.i64 (bytes + 32 * messages)
  let cap := ((payload.get "max_tokens").bind Value.asI64).getD 0
  let reserve := max memory.reservedOutputTokens cap
  let total ← host.i64 (estimate + reserve)
  let total ← host.i64 (total + memory.safetyMarginTokens)
  return {
    estimatedInputTokens := estimate, reservedOutputTokens := reserve,
    safetyMarginTokens := memory.safetyMarginTokens,
    contextWindowTokens := memory.contextWindowTokens,
    fits := total ≤ memory.contextWindowTokens, estimator }

/-! ## Interaction groups -/

structure HistoryGroup where
  messages : List Message
  indexes : List Nat

/-- The tool calls of a message that opens a batch. -/
def batchCalls (m : MessageBody) : Option (List Value) :=
  (m.toolCalls.bind Value.asArray).filter fun calls => m.role = "assistant" && !calls.isEmpty

/-- `call.get("id")` as a string. -/
def callId (call : Value) : Option String := (call.get "id").bind Value.asStr

/-- The identities of a batch: all there and all different. -/
def callIds (index : Nat) (seen : List String) : List Value → Except String (List String)
  | [] => .ok []
  | call :: calls =>
    match (callId call).filter (· ≠ "") with
    | none => .error ("context_integrity_error: missing tool-call ID at history index " ++
        toString index)
    | some id =>
      if id ∈ seen then
        .error ("context_integrity_error: duplicate tool-call ID at history index " ++
          toString index)
      else do
        let ids ← callIds index (seen ++ [id]) calls
        return id :: ids

/-- The identities of a batch's results: all there and all different. -/
def resultIds (host : Host) (index : Nat) (seen : List String) :
    List Message → Except String (List String)
  | [] => .ok seen
  | result :: results =>
    if result.role ≠ "tool" then
      .error ("context_integrity_error: incomplete tool-call result group at history index " ++
        toString index)
    else match result.toolCallId.filter (· ≠ "") with
      | none => .error ("context_integrity_error: missing tool result ID at history index " ++
          toString index)
      | some id =>
        if id ∈ seen then
          .error ("context_integrity_error: duplicate tool result ID " ++ host.debugStr id)
        else resultIds host index (seen ++ [id]) results

/-- How many messages the first group takes, the first message being `message`. -/
def firstGroup (host : Host) (index : Nat) (message : Message) (rest : List Message) :
    Except String Nat :=
  if message.role = "tool" then
    .error ("context_integrity_error: orphaned tool result at history index " ++ toString index)
  else match batchCalls message.toMessageBody with
    | none => .ok 1
    | some calls => do
      let ids ← callIds index [] calls
      if rest.length < ids.length then
        .error ("context_integrity_error: incomplete tool-call batch at history index " ++
          toString index)
      else
        let results ← resultIds host index [] (rest.take ids.length)
        if results.length ≠ ids.length || ids.any fun id => id ∉ results then
          .error ("context_integrity_error: tool-call results do not correlate at history index "
            ++ toString index)
        else .ok (1 + ids.length)

/-- The loop of `interaction_groups` from `index`; every group takes a message at least. -/
def groupsFrom (host : Host) : Nat → Nat → List Message → Except String (List HistoryGroup)
  | _, _, [] => .ok []
  | 0, _, _ => .ok []
  | fuel + 1, index, message :: rest => do
    let n ← firstGroup host index message rest
    let groups ← groupsFrom host fuel (index + n) ((message :: rest).drop n)
    return ⟨(message :: rest).take n, List.range' index n⟩ :: groups

/-- `interaction_groups`. -/
def interactionGroups (host : Host) (messages : List Message) :
    Except String (List HistoryGroup) := groupsFrom host messages.length 0 messages

/-- The groups `split_history` retains: from the end, until they hold `minimum` messages. -/
def boundary (minimum : Nat) (groups : List HistoryGroup) : Nat :=
  let rec back : Nat → Nat → Nat
    | 0, _ => 0
    | b + 1, count =>
      if count < minimum then back b (count + (groups[b]?.elim 0 fun g => g.messages.length))
      else b + 1
  back groups.length 0

/-- `split_history`. -/
def splitHistory (host : Host) (messages : List Message) (minimum : Nat) :
    Except String (List HistoryGroup × List HistoryGroup) := do
  let groups ← interactionGroups host messages
  let b := boundary minimum groups
  return (groups.take b, groups.drop b)

/-- `flatten`. -/
def flatten (groups : List HistoryGroup) : List Message := groups.flatMap HistoryGroup.messages

/-! ## The source of a summary -/

mutual

/-- `sort_json`. -/
def sortJson : Value → Value
  | .arr items => .arr (sortItems items)
  | .obj fields => .obj ((sortFields fields).insertionSort fun a b => a.1 ≤ b.1)
  | v => v

def sortItems : List Value → List Value
  | [] => []
  | v :: vs => sortJson v :: sortItems vs

def sortFields : List (String × Value) → List (String × Value)
  | [] => []
  | (k, v) :: rest => (k, sortJson v) :: sortFields rest

end

/-- `source_text`, which never fails. -/
def sourceText (host : Host) (goal : String) (history : List Message) (previous : Option String) :
    String :=
  let wire := history.map fun m => sortJson (wireMessage m.toMessageBody)
  "Goal: " ++ goal ++ "\nPrevious ledger: " ++ (previous.filter (· ≠ "")).getD "none" ++
    "\nHistorical prefix:\n" ++ Tools.pythonJson host (.arr wire)

end Context

end StateDrivenAgent
