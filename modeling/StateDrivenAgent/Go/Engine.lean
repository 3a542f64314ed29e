import StateDrivenAgent.Go.Actions
import StateDrivenAgent.Go.Decision

/-!
# The run of the Go runtime

`Engine.Run` with its two deferred functions, the batch loop and `recoverPending`. A failing callback
ends most of the functions; the batch loop goes on after one, so that every call of the batch has its
result, and returns the error at the end.
-/

namespace StateDrivenAgent

open Interaction

namespace Go

/-- How the main loop goes on: `done` is `return nil`. -/
inductive Flow where
  | again
  | done

/-! ## Events -/

def errorEvent (code message : String) : Value :=
  .obj [("type", .str "error"), ("code", .str code), ("message", .str message),
    ("recoverable", .bool true)]

def stepEvent (step : String) (data : List (String × Value)) : Value :=
  .obj [("type", .str "interim_result"), ("step", .str step), ("data", .obj data)]

def errorRecord (code message : String) : Value :=
  .obj [("code", .str code), ("message", .str message)]

def recoverableRecord (code message : String) : Value :=
  .obj [("code", .str code), ("message", .str message), ("recoverable", .bool true)]

/-! ## Messages -/

def userMessage (content : String) : MessageBody := { role := "user", content := some content }

def assistantMessage (content : String) : MessageBody :=
  { role := "assistant", content := some content }

def toolMessage (id name result : String) : MessageBody :=
  { role := "tool", content := some result, name := some name, toolCallId := some id }

/-- A call as the assistant message carries it. -/
def wireCall (id name args : String) : Value :=
  .obj [("id", .str id), ("type", .str "function"),
    ("function", .obj [("name", .str name), ("arguments", .str args)])]

/-! ## Stops -/

def cancelMessage : String := "Run cancelled; use /resume to recover committed work."

def Session.cancel (s : Session) : Session :=
  { s with
    status := .failed, runStatus := .cancelled, finalAnswer := some cancelMessage
    lastError := some (recoverableRecord "run_cancelled" cancelMessage) }

/-- `s.Status, s.RunStatus = "failed", "failed"` with an answer and an error. -/
def Session.stop (answer : String) (err : Value) (s : Session) : Session :=
  { s with status := .failed, runStatus := .failed, finalAnswer := some answer, lastError := some err }

def Session.blockOn (result : String) (s : Session) : Session :=
  { s with
    status := .failed, runStatus := .blocked
    lastError := some (recoverableRecord "recovery_required" result) }

/-- `checkExecutionCheckpoint` and what the engine does with its error; `announce` it as an event. -/
def checkExecution (emit : Emit) (announce : Bool) : GoM Unit := do
  let s ← GoM.get
  match ← Proc.request (Ask.checkpoint s) with
  | .ok () => pure ()
  | .error .cancelled => do
    GoM.modify Session.cancel
    GoM.when announce do
      archive "run_cancel_requested" (.obj [("run_id", .ofStr? s.runId)])
      let _ ← Proc.attempt (emit (errorEvent "run_cancelled" cancelMessage))
    Proc.fail .cancelled
  | .error err => Proc.fail err

/-- `emitDiagnostics`. -/
def emitDiagnostics (emit : Emit) : GoM Unit := do
  let requests ← (Proc.request Ask.requestDiagnostics : GoM (List Value))
  emitEach requests
where
  emitEach : List Value → GoM Unit
    | [] => pure ()
    | x :: rest => do
      emit (.obj [("type", .str "model_request_diagnostic"), ("data", x)])
      emitEach rest

/-! ## Compaction -/

def archiveAll : List (Bool × Value) → GoM Unit
  | [] => pure ()
  | (accepted, payload) :: rest => do
    archive (if accepted then "compaction_summary" else "compaction_rejected") payload
    archiveAll rest

/-- The passes of `compact`, and its last check. -/
def compactPasses (emit : Emit) : Nat → GoM Unit
  | 0 => pure ()
  | passes + 1 => do
    let s ← GoM.get
    let x ← (Proc.request (Ask.compact s) : GoM CompactStep)
    archiveAll x.archived
    GoM.modify fun s => { s with
      compaction := x.compaction
      memory := s.memory.take 1 ++ (s.memory.drop 1).drop x.summarized }
    match x.next with
    | .finished none => pure ()
    | .finished (some err) => Proc.fail err
    | .accepted event => do
      emit event
      compactPasses emit passes

/-! ## Pending calls -/

namespace Engine

variable (e : Engine)

/-- `compact`. -/
def compact (emit : Emit) : GoM Unit := do
  stageMessages
  compactPasses emit (e.config.compactionMaxPasses + 1)

/-- A call whose outcome is open ends the run. -/
def endBlocked (emit : Emit) (id result : String) : GoM Unit := do
  GoM.modify (·.blockOn result)
  emit (.obj [("type", .str "tool_uncertain"), ("tool_call_id", .str id), ("message", .str result)])
  Proc.fail (.failed "recovery_required: unresolved tool outcome")

/-- The result of a call joins the memory, and its evidence the workflow. -/
def appendResult (id name : String) (args : Arguments) (result : String) (invoked : Bool) :
    GoM Unit := do
  appendMessage (toolMessage id name result)
  GoM.when invoked do
    GoM.mark (.executed id result)
    GoM.modify (e.record name args result)

def dropPending (s : Session) : Session := { s with pendingToolCalls := s.pendingToolCalls.drop 1 }

/-- The event of a settled call. -/
def resultEvent (step id name result : String) : Value :=
  stepEvent step [("tool", .str name), ("output", .str result), ("tool_call_id", .str id)]

/-- `recoverPending`; the count is the number of pending calls. -/
def recoverPending (emit : Emit) : Nat → GoM Unit
  | 0 => pure ()
  | left + 1 => do
    let s ← GoM.get
    match s.pendingToolCalls with
    | [] => pure ()
    | pending :: _ =>
      match pending.arguments with
      | none => Proc.fail (.failed "recovery_required: persisted pending tool call is malformed")
      | some args =>
        if pending.id = "" ∨ pending.name = "" then
          Proc.fail (.failed "recovery_required: persisted pending tool call is malformed")
        else do
          let (result, invoked) ← e.call emit pending.id pending.name (some args)
          if unresolved result then endBlocked emit pending.id result
          else do
            GoM.modify (e.captureArtifacts pending.id pending.name args result)
            e.appendResult pending.id pending.name args result invoked
            GoM.modify dropPending
            emit (resultEvent "tool_recovered" pending.id pending.name result)
            recoverPending emit left

/-! ## The batch loop -/

/-- What the batch loop keeps between its calls. -/
structure Batch where
  rejected : List String := []
  emitErr : Option Failure := none

/-- The digest of a call with its output. -/
def outputDigest (name : String) (args : Arguments) (result : String) : String :=
  e.platform.host.sha256
    ((e.platform.marshal (.arr [.str name, .obj args, .str result])).getD "")

/-- Remembers the output of a call outside a workflow. -/
def rememberOutput (name : String) (args : Arguments) (result : String) (s : Session) : Session :=
  if e.config.workflow.isSome || failedOutput result then s
  else
    let digest := e.outputDigest name args result
    if s.progressSeenOutputs.contains digest then s
    else
      let seen := s.progressSeenOutputs ++ [digest]
      { s with progressSeenOutputs := seen.drop (seen.length - 64) }

def rejectionPrefix : String := "ERROR: action rejected before execution: "

/-- `strings.TrimPrefix`. -/
def trimPrefix (s p : String) : String := (Text.stripPrefix s p).getD s

/-- The result of one call of a batch. A call with a defect gets a fixed text, which is not that of
an open outcome. -/
def settleCall (emit : Emit) (batch : Batch) (call : ToolCall) : GoM Batch := do
  let (result, invoked) ← (match call.arguments with
    | some args => if call.invalid = "" then e.call emit call.id call.name (some args)
        else pure ("ERROR: invalid tool arguments.", false)
    | none => pure ("ERROR: invalid tool arguments.", false) : GoM (String × Bool))
  if unresolved result then do
    endBlocked emit call.id result
    return batch
  else do
    let args := call.arguments.getD []
    GoM.when invoked <|
      GoM.modify fun s =>
        e.rememberOutput call.name args result (e.captureArtifacts call.id call.name args result s)
    e.appendResult call.id call.name args result invoked
    GoM.modify dropPending
    let outcome ← Proc.attempt (emit (resultEvent "tool_completed" call.id call.name result))
    return {
      rejected := if invoked then batch.rejected
        else batch.rejected ++ [trimPrefix result rejectionPrefix]
      emitErr := match batch.emitErr, outcome with
        | some err, _ => some err
        | none, .error err => some err
        | none, .ok () => none }

/-- The calls of a batch in their order. -/
def settleBatch (emit : Emit) (batch : Batch) : List ToolCall → GoM Batch
  | [] => pure batch
  | call :: rest => do
    let batch ← e.settleCall emit batch call
    settleBatch emit batch rest

/-- The text of the arguments of a call in the assistant message. -/
def wireArguments (call : ToolCall) : String :=
  if call.rawArguments ≠ "" then call.rawArguments
  else (e.platform.marshal ((call.arguments.map Value.obj).getD .null)).getD ""

/-- The calls as the assistant message carries them, with a check before each. -/
def wireCalls (emit : Emit) : List ToolCall → GoM (List Value)
  | [] => pure []
  | call :: rest => do
    checkExecution emit true
    return wireCall call.id call.name (e.wireArguments call) :: (← wireCalls emit rest)

/-! ## Feedback -/

/-- `rejectResponse`. -/
def rejectResponse (emit : Emit) (code message : String) (appendFeedback : Bool) : GoM Unit := do
  archive "decision_rejected" (errorRecord code message)
  GoM.modify fun s => { s with
    consecutiveInvalidResponses := s.consecutiveInvalidResponses + 1
    lastError := some (recoverableRecord code message) }
  GoM.when appendFeedback (appendMessage (userMessage ("Runtime correction: " ++ message)))
  let s ← GoM.get
  emit (stepEvent "response_rejected" [("code", .str code), ("message", .str message),
    ("recoverable", .bool true),
    ("consecutive_invalid_responses", .int s.consecutiveInvalidResponses)])
  let limit := e.config.maxConsecutiveInvalidResponses
  let s ← GoM.get
  GoM.when ((if limit < 1 then 3 else limit) ≤ s.consecutiveInvalidResponses) do
    let failure := "Consecutive invalid-response limit reached. " ++ message ++ " Resume to retry."
    GoM.modify (·.stop failure (recoverableRecord "invalid_response_limit" failure))
    emit (errorEvent "invalid_response_limit" failure)

/-- The guidance of `observeProgress`. -/
def progressGuidance (s : Session) : String :=
  if s.workflow.any fun w => w.activePhase.isSome then e.guidance.workflowGuidance s
  else "Obtain new tool evidence or return the verified final deliverables."

/-- The warning of `observeProgress`, at half the limit. -/
def warnProgress (emit : Emit) (limit : Int) (guidance : String) : GoM Unit := do
  let s ← GoM.get
  GoM.when (s.noProgressSteps = max 1 (limit / 2)) do
    let feedback := "No new task evidence in " ++ toString s.noProgressSteps ++
      " decisions. Repeating a successful call does not complete missing requirements.\n" ++ guidance
    appendMessage (userMessage feedback)
    emit (stepEvent "no_progress_warning" [("no_progress_steps", .int s.noProgressSteps),
      ("message", .str feedback)])

/-- `observeProgress`. -/
def observeProgress (emit : Emit) (before : String) : GoM Unit := do
  let s ← GoM.get
  let current := e.guidance.progressFingerprint s
  if current ≠ before then
    GoM.modify fun s => { s with noProgressSteps := 0, progressFingerprint := current }
  else do
    GoM.modify fun s => { s with
      noProgressSteps := s.noProgressSteps + 1, progressFingerprint := current }
    match e.config.maxNoProgressSteps with
    | none => pure ()
    | some limit => do
      let s ← GoM.get
      let guidance := e.progressGuidance s
      warnProgress emit limit guidance
      let s ← GoM.get
      GoM.when (limit ≤ s.noProgressSteps) do
        let message := "No new task evidence in " ++ toString limit ++ " decisions. " ++ guidance ++
          " Resume after correcting the workflow or instructions."
        GoM.modify (·.stop message (errorRecord "no_progress_limit" message))
        emit (errorEvent "no_progress_limit" message)

/-! ## Decisions -/

/-- The calls of a decision as the transcript keeps them. -/
def observedCall (call : ToolCall) : Value :=
  .obj [("id", .str call.id), ("name", .str call.name), ("raw_arguments", .str (e.wireArguments call))]

/-- The part of an error text before the first colon. -/
def errorCode (text : String) : String := .ofList (text.toList.takeWhile (· ≠ ':'))

/-- `recordDecision`. -/
def recordDecision (d : Decision) : GoM Unit := do
  let calls := if d.calls.isEmpty && d.name ≠ "" then
    [{ id := d.id, name := d.name, arguments := d.arguments }] else d.calls
  let observed := Value.arr (calls.map e.observedCall)
  let kind := if d.final then "final" else if d.invalid ≠ "" then "recoverable_error"
    else if d.calls.isEmpty then "tool" else "tools"
  let code : Value := if !d.final && d.invalid ≠ "" then .str (errorCode d.invalid) else .null
  let parsed : List (String × Value) :=
    (if d.final then [("content", .str d.content)]
      else if d.invalid ≠ "" then [("code", code), ("content", .str d.invalid)] else []) ++
      [("type", .str kind), ("calls", observed)]
  archive "model_decision" (.obj [
    ("parsed_decision_json", .str ((e.platform.marshal (.obj parsed)).getD "")),
    ("type", .str kind), ("code", code),
    ("content", if d.content ≠ "" then .str d.content else .null), ("calls", observed)])

/-- The branch of an invalid decision. -/
def actInvalid (emit : Emit) (before invalid : String) : GoM Flow := do
  GoM.modify fun s => { s with consecutiveInvalidResponses := s.consecutiveInvalidResponses + 1 }
  archive "decision_rejected" (.obj [("message", .str invalid)])
  appendMessage (userMessage ("Runtime correction: " ++ invalid ++
    ". Return a valid tool call or a nonempty final answer."))
  let s ← GoM.get
  let code := if errorCode invalid = "" then "invalid_model_response" else errorCode invalid
  emit (stepEvent "response_rejected" [("code", .str code), ("message", .str invalid),
    ("consecutive_invalid_responses", .int s.consecutiveInvalidResponses)])
  let s ← GoM.get
  if e.config.maxConsecutiveInvalidResponses ≤ s.consecutiveInvalidResponses then do
    let failure := "Consecutive invalid-response limit reached. Resume to retry."
    GoM.modify (·.stop failure (errorRecord "invalid_response_limit" failure))
    emit (errorEvent "invalid_response_limit" failure)
    return .done
  else do
    e.observeProgress emit before
    return .again

/-- The branch of a final answer. -/
def actFinal (emit : Emit) (before content : String) : GoM Flow := do
  let s ← GoM.get
  let errors := e.guidance.completionErrors s content
  if errors.isEmpty then do
    appendMessage (assistantMessage content)
    GoM.modify fun s => { s with
      status := .complete, runStatus := .complete, finalAnswer := some content, noProgressSteps := 0
      consecutiveInvalidResponses := 0, lastError := none }
    emit (.obj [("type", .str "final_result"), ("answer", .str content)])
    return .again
  else do
    GoM.when (Text.trim content ≠ "") (appendMessage (assistantMessage content))
    GoM.modify fun s => { s with rejectedFinals := s.rejectedFinals ++ [{ content, errors }] }
    archive "rejected_final" (.obj [("content", .str content), ("errors", .arr (errors.map .str))])
    e.rejectResponse emit "completion_rejected" (" ".intercalate errors) true
    e.observeProgress emit before
    return .again

/-- A settled batch: its rejections are reported, or the counters start again. -/
def reportBatch (emit : Emit) (rejected : List String) : GoM Unit :=
  if rejected.isEmpty then
    GoM.modify fun s => { s with consecutiveInvalidResponses := 0, lastError := none }
  else e.rejectResponse emit "action_rejected" (" ".intercalate rejected) false

/-- The branch of a batch. -/
def actTools (emit : Emit) (before : String) (items : List ToolCall) : GoM Flow := do
  let calls ← e.wireCalls emit items
  appendMessage { role := "assistant", toolCalls := some (.arr calls) }
  GoM.modify fun s => { s with pendingToolCalls := items.map ToolCall.pending }
  let batch ← e.settleBatch emit {} items
  match batch.emitErr with
  | some err => Proc.fail err
  | none => do
    e.reportBatch emit batch.rejected
    e.observeProgress emit before
    return .again

/-- A decision and what it leads to. -/
def act (emit : Emit) (before : String) (d : Decision) : GoM Flow :=
  if d.invalid ≠ "" then e.actInvalid emit before d.invalid
  else if d.final then e.actFinal emit before d.content
  else e.actTools emit before (if d.calls.isEmpty then
    [{ id := d.id, name := d.name, arguments := d.arguments }] else d.calls)

/-! ## The run -/

/-- The next phase, if it is reached, is announced. -/
def advancePhase (emit : Emit) : GoM Unit := do
  match ← Proc.swap e.advance with
  | none => pure ()
  | some x => emit (.obj [("type", .str "interim_result"), ("step", .str "phase_completed"),
      ("phase_id", .str x.fromPhase), ("next_phase", .str x.toPhase), ("reason", .str x.reason)])

/-- The end of a run after an error of `compact`. -/
def failCompaction (emit : Emit) (err : Failure) : GoM Flow := do
  GoM.modify (·.stop err.message (errorRecord "context_error" err.message))
  emit (errorEvent (if Text.containsStr err.message "context_budget_exceeded" then
    "context_budget_exceeded" else "context_integrity_error") err.message)
  return .done

/-- What follows the request of a decision. -/
def follow (emit : Emit) (before : String) (decision : Except Failure Decision) : GoM Flow := do
  emitDiagnostics emit
  let d ← (Proc.ofExcept decision : GoM Decision)
  checkExecution emit true
  GoM.modify fun s => { s with stepCount := s.stepCount + 1 }
  e.recordDecision d
  e.act emit before d

/-- One iteration of the main loop. -/
def round (emit : Emit) : GoM Flow := do
  checkExecution emit true
  e.advancePhase emit
  let compacted ← Proc.attempt (e.compact emit)
  emitDiagnostics emit
  match compacted with
  | .error err => failCompaction emit err
  | .ok () => do
    let s ← GoM.get
    emit (.obj [("type", .str "status"), ("message", .str "Agent deciding next action."),
      ("step_count", .int s.stepCount)])
    let s ← GoM.get
    let decision ← Proc.attempt e.platform.decide
    e.follow emit (e.guidance.progressFingerprint s) decision

/-- The main loop; every iteration takes a step, so the count suffices. -/
def rounds (emit : Emit) (limit : Int) : Nat → GoM Flow
  | 0 => pure .again
  | left + 1 => do
    let s ← GoM.get
    if s.status = .active ∧ s.stepCount < limit then
      match ← e.round emit with
      | .done => return .done
      | .again => rounds emit limit left
    else return .again

/-- The steps a run may take. -/
def allowance (max : Int) : Int :=
  if max ≤ 0 then match e.config.runMaxSteps with
    | some n => if 0 < n then n else e.config.maxSteps
    | none => e.config.maxSteps
  else max

/-- The end of a run at its step limit. -/
def stopAtLimit (emit : Emit) (max limit : Int) : GoM Unit := do
  let s ← GoM.get
  GoM.when (s.status = .active ∧ limit ≤ s.stepCount) do
    let message := "Step limit (" ++ toString max ++
      ") reached without a final answer. Resume with another run request."
    GoM.modify (·.stop message (errorRecord "step_limit" message))
    emit (.obj [("type", .str "error"), ("message", .str message), ("recoverable", .bool true)])

/-- The body of `Run`, from the first event on. -/
def runBody (emit : Emit) (max : Int) : GoM Unit := do
  let max := e.allowance max
  let s ← GoM.get
  let limit := s.stepCount + max
  GoM.modify fun s => { s with
    progressFingerprint := if s.progressFingerprint = "" then e.guidance.progressFingerprint s
      else s.progressFingerprint
    runCount := s.runCount + 1 }
  let s ← GoM.get
  emit (.obj [("type", .str "status"), ("message", .str "Agent run started."),
    ("run_count", .int s.runCount)])
  let s ← GoM.get
  GoM.when (s.pendingToolCalls ≠ []) do
    checkExecution emit false
    e.recoverPending emit s.pendingToolCalls.length
  match ← e.rounds emit limit max.toNat with
  | .done => pure ()
  | .again => stopAtLimit emit max limit

/-- The status a run ends with. -/
def endRun (outcome : Except Failure Unit) (s : Session) : Session :=
  let s := if s.runStatus = .running then
    { s with runStatus := if s.status = .complete then .complete else .failed } else s
  match outcome with
  | .ok () => s
  | .error err =>
    if s.runStatus = .blocked ∨ s.runStatus = .cancelled then s
    else { s with
      runStatus := .interrupted, lastError := some (.obj [("message", .str err.message)]) }

/-- The deferred end of a run: its status, its reason and its record. -/
def finishRun (outcome : Except Failure Unit) : GoM Unit := do
  GoM.modify (endRun outcome)
  let ended ← GoM.now
  let s ← GoM.get
  let reason := match outcome with
    | .ok () => s.runStatus.text
    | .error err => err.message
  GoM.modify fun s => { s with runEndedAt := some ended, runTerminationReason := some reason }
  archive (if s.runStatus = .interrupted then "run_interrupted" else "run_finished")
    (.obj [("status", .str s.runStatus.text), ("reason", .str reason)])

/-- The beginning of a run: its identity and its record. -/
def startRun : GoM Unit := do
  stageMessages
  let runId ← GoM.uuid
  let started ← GoM.now
  GoM.modify fun s => { s with
    runId := some runId
    runCommandId := if s.commandId ≠ "" then some s.commandId else s.runCommandId
    runStartedAt := some started, runEndedAt := none, runTerminationReason := none }
  let s ← GoM.get
  archive "run_started" (.obj [("run_count", .int (s.runCount + 1))])
  GoM.modify fun s => { s with runStatus := .running }

/-- `Run`. -/
def run (emit : Emit) (max : Int) : GoM Unit := do
  startRun
  let outcome ← Proc.attempt (e.runBody emit max)
  finishRun outcome
  Proc.ofExcept outcome

end Engine

end Go

end StateDrivenAgent
