import StateDrivenAgent.Agent.Context
import StateDrivenAgent.Python.Json

/-!
# The source of a summary in the reference agent

`source_text` of `context.py` over `Message.wire_payload` of `models.py`.
-/

namespace StateDrivenAgent

namespace Python

/-- `Message.wire_payload`: the fields that are not `None`. -/
def wirePayload (m : MessageBody) : Value :=
  .obj <| [("role", .str m.role)] ++
    (m.content.map fun c => ("content", .str c)).toList ++
    (m.name.map fun n => ("name", .str n)).toList ++
    (m.toolCallId.map fun i => ("tool_call_id", .str i)).toList ++
    ((m.toolCalls.filter fun v => !v.isNull).map fun c => ("tool_calls", c)).toList

/-- `source_text`; an empty ledger is falsy. -/
def sourceText (host : Host) (goal : String) (historical : List Message)
    (existing : Option String) : String :=
  let payloads := historical.map fun m => wirePayload m.toMessageBody
  "Goal: " ++ goal ++ "\nPrevious ledger: " ++ (existing.filter (· ≠ "")).getD "none" ++
    "\nHistorical prefix:\n" ++ dumps host (.arr payloads)

end Python

end StateDrivenAgent
