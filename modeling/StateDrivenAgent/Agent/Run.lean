import StateDrivenAgent.Agent.Actions
import StateDrivenAgent.Agent.Compaction

/-!
# The run of the agent

`Engine::run`: settle what an earlier run left pending, then advance the workflow, compact the
context, ask the model and act on its decision, until the session has an outcome or the allowance of
steps is used up. Every change is followed by a checkpoint, at which the run can be cut off.
-/

namespace StateDrivenAgent

open Interaction

/-- The reason a terminal session is stored with. -/
def terminationReason (s : Session) : String :=
  ((s.lastError.bind fun error => (error.index "code").asStr)).getD s.runStatus.text

/-- Completes the outcome of a session that is not active. -/
def sealOutcome (now : String) (s : Session) : Session :=
  if s.status = .active then s
  else
    let s := if s.runStatus = .running then
        { s with runStatus := if s.status = .complete then .complete else .failed } else s
    { s with
      runEndedAt := s.runEndedAt <|> some now
      runTerminationReason := s.runTerminationReason <|> some (terminationReason s) }

/-- `checkpoint` of the engine. -/
def checkpoint (emit : Emit) (event : Value) : EngineM Unit := do
  let now ← EngineM.now
  EngineM.modify (sealOutcome now)
  EngineM.op Diagnostics.stage
  EngineM.emit emit event
  EngineM.op acknowledged

/-- `append_correlated_tool_result`. -/
def appendCorrelatedToolResult (id name output : String) : EngineM Unit :=
  appendMessage { role := "tool", content := some output, name := some name, toolCallId := some id }

namespace Engine

variable (e : Engine) (emit : Emit)

/-! ## Events -/

def interim (step : String) (data : Value) : Value :=
  .obj [("type", .str "interim_result"), ("step", .str step), ("data", data)]

def errorEvent (code : String) (message : Value) : Value :=
  .obj [("type", .str "error"), ("code", .str code), ("message", message),
    ("recoverable", .bool true)]

def diagnosticEvent (data : Value) : Value :=
  .obj [("type", .str "model_request_diagnostic"), ("data", data)]

/-! ## Limits -/

/-- `run_allowance`. -/
def runAllowance (requested : Option Int) : Int :=
  (requested.filter (0 < ·) <|> e.config.memory.runMaxSteps.filter (0 < ·)).getD
    e.config.memory.maxSteps

/-- The session with the outcome `failed`. -/
def failWith (answer : String) (s : Session) : Session :=
  { s with status := .failed, runStatus := .failed, finalAnswer := some answer }

/-- `max_consecutive_invalid_responses`. -/
def maxInvalid : Nat :=
  ((e.config.execution.get "max_consecutive_invalid_responses").bind Value.asU64).getD 3

/-- `increment_invalid`: whether the limit is reached. -/
def incrementInvalid : EngineM Bool := Proc.swap fun s =>
  let s := { s with consecutiveInvalidResponses := s.consecutiveInvalidResponses + 1 }
  if s.consecutiveInvalidResponses < e.maxInvalid then (false, s)
  else (true, failWith "Consecutive invalid-response limit reached. Resume to retry." s)

/-- The checkpoint of a session that has reached the invalid-response limit. -/
def reportInvalidLimit (reached : Bool) : EngineM Unit := do
  if reached then
    let s ← EngineM.get
    checkpoint emit (errorEvent "invalid_response_limit" (.ofStr? s.finalAnswer))
  else pure ()

/-! ## Progress -/

/-- `max_no_progress_steps`. -/
def progressLimit : Option Nat := (e.config.execution.get "max_no_progress_steps").bind Value.asU64

/-- Warns the model halfway to the limit. -/
def warnProgress (guidance : String) (limit : Nat) : EngineM Unit := do
  let s ← EngineM.get
  if s.noProgressSteps = max (limit / 2) 1 then do
    let feedback := "No new task evidence in " ++ toString s.noProgressSteps ++ (" decisions. " ++
      "Repeating a successful call does not complete missing requirements.\n") ++ guidance
    appendMessage (msg "user" feedback)
    checkpoint emit (interim "no_progress_warning" (.obj [
      ("no_progress_steps", .int s.noProgressSteps), ("message", .str feedback)]))
  else pure ()

/-- Ends the session at the limit. -/
def limitProgress (guidance : String) (limit : Nat) : EngineM Unit := do
  let s ← EngineM.get
  if limit ≤ s.noProgressSteps then do
    let message := "No new task evidence in " ++ toString limit ++ " decisions. " ++ guidance ++
      " Resume after correcting the workflow or instructions."
    EngineM.modify (failWith message)
    checkpoint emit (errorEvent "no_progress_limit" (.str message))
  else pure ()

/-- `observe_progress`, for a decision that made no progress. -/
def stalled : EngineM Unit := do
  EngineM.modify fun s => { s with noProgressSteps := s.noProgressSteps + 1 }
  let s ← EngineM.get
  match e.progressLimit with
  | none => pure ()
  | some limit => do
    let guidance := (e.instruction s).getD
      "Obtain new tool evidence or return the verified final deliverables."
    warnProgress emit guidance limit
    limitProgress emit guidance limit

/-- `observe_progress`. -/
def observeProgress (before : String) : EngineM Unit := do
  let s ← EngineM.get
  EngineM.mark (.observing s before)
  let current := e.progressFingerprint s
  EngineM.modify fun s => { s with progressFingerprint := some current }
  if current ≠ before then EngineM.modify fun s => { s with noProgressSteps := 0 }
  else e.stalled emit

/-! ## Pending calls -/

/-- A call of the batch as the loop reads it. -/
structure Scheduled where
  id : String
  name : String
  args : List (String × Value)
  error : Option String

def readScheduled (call : Value) : Scheduled :=
  { id := (setting call "id").getD ""
    name := (setting call "name").getD "invalid_tool_call"
    args := ((call.get "arguments").bind Value.asObject).getD []
    error := setting call "error" }

/-- What an executed call leaves in the session. -/
def applyOutput (id name : String) (args : List (String × Value)) (output : String) (s : Session) :
    Session :=
  let s := e.captureArtifacts s id name args output
  let s := if s.workflow.isNone && !failed output then e.recordProgressOutput s name args output
    else s
  e.record s name args output

/-- What the model is told instead of the output of a rejected call. -/
def rejectionOutput (s : Session) (phase : Option String) (name reason : String) : String :=
  "ERROR: action rejected before execution: " ++ reason ++ ". " ++ e.actionFeedback s phase name ++
    ("\nRuntime correction: invalid tool calls were rejected before execution. Use the advertised " ++
    "function names and JSON argument schemas.\n") ++ (e.instruction s).getD ""

/-- The output of a call that was not rejected, and whether it was executed. -/
def execute (phase : Option String) (call : Value) (c : Scheduled) : EngineM (String × Bool) := do
  let s ← EngineM.get
  if e.allowedInPhaseForSession s phase c.name then do
    EngineM.mark (.dispatch s call c.id c.name c.args)
    let output ← Actions.dispatch e emit c.id c.name c.args
    EngineM.mark (.executed (← EngineM.get) c.name c.args output)
    EngineM.modify (e.applyOutput c.id c.name c.args output)
    return (output, true)
  else
    return ("ERROR: tool '" ++ c.name ++ "' is disabled or not allowed in the active workflow phase.",
      false)

/-- Takes the first call off the batch. -/
def dropCall (s : Session) : Session :=
  { s with
    pendingToolCalls := s.pendingToolCalls.tail
    pendingToolPhase := if s.pendingToolCalls.tail.isEmpty then none else s.pendingToolPhase }

/-- The output of a call, and whether it was executed. -/
def outputOf (s : Session) (phase : Option String) (call : Value) (c : Scheduled) :
    Option String → EngineM (String × Bool)
  | some reason => pure (e.rejectionOutput s phase c.name reason, false)
  | none => e.execute emit phase call c

/-- One call of the batch: whether it was rejected. -/
def settleCall (phase : Option String) (call : Value) : EngineM Bool := do
  let s ← EngineM.get
  let c := readScheduled call
  let rejection := e.actionRejection s phase c.name c.args c.error
  let out ← e.outputOf emit s phase call c rejection
  appendCorrelatedToolResult c.id c.name out.1
  EngineM.modify dropCall
  checkpoint emit (interim "tool_completed" (.obj [("tool", .str c.name), ("output", .str out.1),
    ("tool_call_id", .str c.id), ("executed", .bool out.2)]))
  return rejection.isSome

/-- The calls of the batch: whether one was rejected. -/
def settleCalls (phase : Option String) : List Value → Bool → EngineM Bool
  | [], rejected => return rejected
  | call :: calls, rejected => do
    let r ← e.settleCall emit phase call
    settleCalls phase calls (rejected || r)

/-- The end of a batch with rejected calls. -/
def rejectBatch (phase : Option String) : EngineM Unit := do
  let s ← EngineM.get
  let feedback := match e.instruction s with
    | some instruction => ("Runtime correction: invalid tool calls were rejected before execution. " ++
        "Use the advertised function names and JSON argument schemas.\n") ++ instruction
    | none => "Runtime correction: " ++ e.actionFeedback s phase ""
  let reached ← e.incrementInvalid
  let s ← EngineM.get
  checkpoint emit (interim "response_rejected" (.obj [("code", .str "action_rejected"),
    ("message", .str feedback),
    ("consecutive_invalid_responses", .int s.consecutiveInvalidResponses)]))
  reportInvalidLimit emit reached

/-- `settle_pending`. The loop runs while calls are pending; a checkpoint gives back the calls it was
given, so it runs over those of the beginning. -/
def settlePending : EngineM Unit := do
  let s ← EngineM.get
  let rejected ← e.settleCalls emit s.pendingToolPhase s.pendingToolCalls false
  if rejected then e.rejectBatch emit s.pendingToolPhase
  else EngineM.modify fun s => { s with consecutiveInvalidResponses := 0 }

/-! ## A decision -/

/-- A decision that is not usable. -/
def actInvalid (before code content : String) : EngineM Unit := do
  let reached ← e.incrementInvalid
  appendMessage (msg "user" ("Runtime correction: " ++ content ++
    ". Return a valid tool call or a nonempty final answer."))
  let s ← EngineM.get
  checkpoint emit (interim "response_rejected" (.obj [("code", .str code), ("message", .str content),
    ("consecutive_invalid_responses", .int s.consecutiveInvalidResponses)]))
  reportInvalidLimit emit reached
  e.observeProgress emit before

/-- A final answer that does not pass its checks. -/
def rejectAnswer (before answer : String) (errors : List String) : EngineM Unit := do
  let s ← EngineM.get
  let feedback := if e.config.workflow.isSome && !e.complete s then
      ("Runtime correction: Workflow is incomplete. Obtain the outstanding evidence before " ++
        "answering.\n") ++ (e.instruction s).getD ""
    else "Runtime correction: " ++ Text.joinWith " " errors
  appendMessage (msg "assistant" answer)
  appendMessage (msg "user" feedback)
  checkpoint emit (interim "response_rejected" (.obj [("code", .str "completion_rejected"),
    ("message", .str feedback), ("errors", .arr (errors.map .str)),
    ("candidate_content", .str answer)]))
  let reached ← e.incrementInvalid
  reportInvalidLimit emit reached
  e.observeProgress emit before

/-- The session with its final answer. -/
def completeWith (answer : String) (s : Session) : Session :=
  { s with
    consecutiveInvalidResponses := 0, status := .complete, runStatus := .complete
    finalAnswer := some answer }

/-- The final answer that ends the session. -/
def acceptAnswer (answer : String) : EngineM Unit := do
  EngineM.modify (completeWith answer)
  appendMessage (msg "assistant" answer)
  EngineM.modify fun s => { s with noProgressSteps := 0 }
  checkpoint emit (.obj [("type", .str "final_result"), ("answer", .str answer)])

def actFinal (before answer : String) : EngineM Unit := do
  let s ← EngineM.get
  let errors := e.completionErrors s answer
  if !errors.isEmpty then e.rejectAnswer emit before answer errors
  else if e.complete s then acceptAnswer emit answer
  else pure ()

/-- Gives the calls whose identity is in the history a new one. -/
def renewIds (historical : List String) : List Call → List String → EngineM (List Call)
  | [], _ => return []
  | call :: calls, taken => do
    if historical.contains call.id then do
      let id ← EngineM.uuid (taken ++ (call :: calls).map Call.id)
      let calls ← renewIds historical calls (taken ++ [id])
      return { call with id } :: calls
    else do
      let calls ← renewIds historical calls (taken ++ [call.id])
      return call :: calls

/-- Puts a batch in front of the engine. -/
def scheduleCalls (calls : List Call) (s : Session) : Session :=
  { s with
    pendingToolPhase := s.workflow.bind Workflow.activePhase
    pendingToolCalls := calls.map Call.toValue }

/-- A decision that calls tools. -/
def actTools (before : String) (content : Option String) (calls : List Call) : EngineM Unit := do
  let s ← EngineM.get
  let historical ← (Proc.request (Eff.historicalCallIds s.id (calls.map Call.id)) :
    EngineM (Except SqlError (List String)))
  let historical ← Proc.ofExcept (historical.mapError SqlError.message)
  let calls ← renewIds historical calls []
  appendMessage (batchMessage content calls)
  EngineM.modify (scheduleCalls calls)
  checkpoint emit (.obj [("type", .str "tool_batch_scheduled"), ("call_count", .int calls.length)])
  e.settlePending emit
  e.observeProgress emit before

/-- The record of a decision in the transcript. -/
def decisionRecord (d : Decision) : Value :=
  let v := d.toValue
  let calls := ((v.get "calls").bind Value.asArray).getD []
  .obj [("code", v.index "code"), ("type", v.index "type"),
    ("calls", .arr (calls.map fun call => .obj [("id", call.index "id"), ("name", call.index "name"),
      ("raw_arguments", call.index "raw_arguments")])),
    ("content", v.index "content"), ("parsed_decision_json", .str (Tools.pythonJson e.host v))]

/-- Reports the diagnostics of a decision request. -/
def reportDecision : List Value → EngineM Unit
  | [] => pure ()
  | diagnostic :: rest => do
    EngineM.modify fun s => { s with
      modelRequestDiagnostics := s.modelRequestDiagnostics ++ [diagnostic] }
    checkpoint emit (diagnosticEvent diagnostic)
    reportDecision rest

/-- Acts on a decision. -/
def act (before : String) (d : Decision) : EngineM Unit :=
  match d with
  | .invalid code content => e.actInvalid emit before code content
  | .final content => e.actFinal emit before content
  | .tools content calls => e.actTools emit before content calls

/-- Asks the model and acts on its decision. -/
def decideAndAct : EngineM Unit := do
  let s ← EngineM.get
  checkpoint emit (.obj [("type", .str "status"), ("message", .str "Agent deciding next action."),
    ("step_count", .int s.stepCount)])
  let s ← EngineM.get
  let before := e.progressFingerprint s
  let decided ← Proc.lift (e.decide (e.payload s) s)
  let (d, diagnostics) ← Proc.ofExcept decided
  reportDecision emit diagnostics
  EngineM.modify fun s => { s with stepCount := s.stepCount + 1 }
  archiveRecord "model_decision" (e.decisionRecord d)
  e.act emit before d

/-! ## The loop -/

def reportAdvance : Option Transition → EngineM Unit
  | none => pure ()
  | some t => checkpoint emit (.obj [("type", .str "interim_result"), ("step", .str "phase_completed"),
      ("phase_id", .str t.fromPhase), ("next_phase", .str t.toPhase), ("reason", .str t.reason)])

def reportCompaction (changed : Bool) : EngineM Unit := do
  if changed then
    let s ← EngineM.get
    checkpoint emit (interim "compaction" (.obj [
      ("compaction_count", .int (Diagnostics.counted s "compaction_events"))]))
  else pure ()

/-- `compact`, with the checkpoint of a compaction that changed the memory; the failure of `compact`
itself is returned. -/
def compactAndReport : EngineM (Except String Unit) := do
  match ← Proc.attempt e.compact with
  | .ok changed => do
    reportCompaction emit changed
    return .ok ()
  | .error message => return .error message

def reportDiagnostics : List Value → EngineM Unit
  | [] => pure ()
  | diagnostic :: rest => do
    checkpoint emit (diagnosticEvent diagnostic)
    reportDiagnostics rest

/-- The end of a session whose context cannot be made to fit. -/
def failCompaction (message : String) : EngineM Unit := do
  let code := if Text.startsWith message "context_integrity_error" then "context_integrity_error"
    else "context_budget_exceeded"
  EngineM.modify (failWith message)
  checkpoint emit (errorEvent code (.str message))

/-- One round of the loop: whether the loop goes on. -/
def round : EngineM Bool := do
  let transition ← Proc.swap e.advance
  reportAdvance emit transition
  let reported := (← EngineM.get).modelRequestDiagnostics.length
  let compacted ← e.compactAndReport emit
  let s ← EngineM.get
  reportDiagnostics emit (s.modelRequestDiagnostics.drop reported)
  match compacted with
  | .error message => do
    failCompaction emit message
    return false
  | .ok () => do
    e.decideAndAct emit
    return true

/-- The loop. A round that goes on counts a step, so there are no more rounds than steps left. -/
def rounds (limit : Int) : Nat → EngineM Unit
  | 0 => pure ()
  | fuel + 1 => do
    let s ← EngineM.get
    if s.status = .active ∧ s.stepCount < limit then do
      if ← e.round emit then rounds limit fuel else pure ()
    else pure ()

/-- Ends a session that has used up its steps. -/
def limitSteps (cap limit : Int) : EngineM Unit := do
  let s ← EngineM.get
  if s.status = .active ∧ limit ≤ s.stepCount then do
    let message := "Step limit (" ++ toString cap ++ (") reached without a final answer. Resume " ++
      "with another run request.")
    EngineM.modify fun s => { failWith message s with
      runTerminationReason := some "step_limit"
      lastError := some (.obj [("code", .str "step_limit"), ("message", .str message),
        ("recoverable", .bool true)]) }
    checkpoint emit (errorEvent "step_limit" (.str message))
  else pure ()

/-- The run is over: its outcome without a checkpoint. -/
def finishRun (now : String) (s : Session) : Session :=
  let s := if s.status ≠ .active ∧ s.runStatus = .running then
      { s with runStatus := if s.status = .complete then .complete else .failed } else s
  if s.runStatus = .running then s
  else { s with
    runEndedAt := s.runEndedAt <|> some now
    runTerminationReason := s.runTerminationReason <|> some s.runStatus.text }

/-- The session at the beginning of a run. -/
def startRun (runId now : String) (s : Session) : Session :=
  { s with
    progressFingerprint := s.progressFingerprint <|> some (e.progressFingerprint s)
    runCount := s.runCount + 1, runCommandId := s.command.map Command.id, runId := some runId
    runStartedAt := some now, runEndedAt := none, runTerminationReason := none
    runStatus := .running }

/-- Settles the calls an earlier run left pending. -/
def settleLeft : EngineM Unit := do
  let s ← EngineM.get
  if s.pendingToolCalls.isEmpty then pure ()
  else do
    e.settlePending emit
    e.observeProgress emit (e.progressFingerprint s)

/-- `run`. -/
def run (max : Option Int) : EngineM Unit := do
  let cap := e.runAllowance max
  let s ← EngineM.get
  let limit ← EngineM.i64 (e.host.i64 (s.stepCount + cap))
  let runId ← EngineM.uuid s.runId.toList
  let now ← EngineM.now
  EngineM.modify (e.startRun runId now)
  archiveRecord "run_started" (.obj [("fence", .ofInt? s.executionFence),
    ("disconnect_policy", .str "cancel_at_boundary")])
  let s ← EngineM.get
  checkpoint emit (.obj [("type", .str "status"), ("message", .str "Agent run started."),
    ("run_count", .int s.runCount)])
  e.settleLeft emit
  e.rounds emit limit (limit - s.stepCount).toNat
  limitSteps emit cap limit
  let now ← EngineM.now
  EngineM.modify (finishRun now)

end Engine

end StateDrivenAgent
