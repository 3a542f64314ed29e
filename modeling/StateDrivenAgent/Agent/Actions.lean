import StateDrivenAgent.Agent.Decision

/-!
# Durable actions

`actions.rs`: a call becomes an execution with a frozen identity, payload and policy; each attempt to
carry it out is stored before it is made, and its outcome after. What a stored execution whose
outcome is unknown may do next depends on its recovery mode.
-/

namespace StateDrivenAgent

open Interaction

/-- The checkpoint callback of a handler: it saves a copy of the session and returns that copy, whose
acknowledgement and revision counter it shares with the caller. -/
abbrev Emit : Type := Value → Session → Prog (Except String Unit × Session)

/-- Calls the callback on a copy of the session. -/
def EngineM.emit (emit : Emit) (event : Value) : EngineM Unit := fun s =>
  (emit event s).bind fun out =>
    .ret (out.1, { s with
      checkpointAck := out.2.checkpointAck, emitRevision := out.2.emitRevision })

/-- What follows a checkpoint that was saved. -/
def acknowledged : StateOp := fun s =>
  let s := acknowledgeCheckpoint s
  if s.needsReload then (.error "historical commit receipt requires reload", s)
  else (.ok (), { s with
    pendingTranscript := [], pendingExecutionOutbox := [], attemptsPending := []
    diagnosticsPending := [] })

namespace Actions

/-- `audit`. -/
def audit (kind : String) (payload : Value) : EngineM Unit := archiveRecord kind payload

/-- `stage`. -/
def stage (x : Execution) (s : Session) : Session :=
  { s with
    executions := if s.executions.any fun v => v.executionId = x.executionId then
        s.executions.map fun v => if v.executionId = x.executionId then x else v
      else s.executions ++ [x]
    pendingExecutionOutbox :=
      (s.pendingExecutionOutbox.filter fun v => v.executionId ≠ x.executionId) ++ [x] }

/-- Ends the run of a session whose action is blocked. -/
def endBlocked (now : String) (s : Session) : Session :=
  if s.runStatus = .blocked ∧ s.runEndedAt.isNone then
    { s with runEndedAt := some now, runTerminationReason := some "recovery_required" }
  else s

/-- `checkpoint` of the actions. -/
def checkpoint (emit : Emit) (event : Value) : EngineM Unit := do
  let now ← EngineM.now
  EngineM.modify (endBlocked now)
  EngineM.emit emit event
  EngineM.op acknowledged

def statusEvent (message : String) : Value :=
  .obj [("type", .str "status"), ("message", .str message)]

def errorEvent (code message : String) : Value :=
  .obj [("type", .str "error"), ("code", .str code), ("message", .str message),
    ("recoverable", .bool true)]

/-- The tool whose recipient keeps receipts. -/
def fixture : String := "fixture_idempotent_write"

def targetOf (tool : String) : String :=
  if tool = fixture then "fixture://action-receipts" else "tool://" ++ tool

def policyOf (config : Config) (tool : String) : Value :=
  ((config.tools.find? fun t => t.name = tool).bind Tool.recovery).getD
    (.obj [("mode", .str (if tool = fixture then "idempotent" else "read_only")),
      ("max_attempts", .int 2)])

/-- The execution of a call that has none. -/
def newExecution (e : Engine) (s : Session) (deployment id call tool : String) (args : Value) :
    Except String Execution := do
  let idempotencyKey ← Identity.action e.host deployment s.id id
  let payloadSha256 ← Identity.payload e.host tool (targetOf tool) args
  return {
    executionId := id, runId := s.runId, commandId := s.runCommandId, namespaceId := deployment
    target := targetOf tool, callId := call, tool, arguments := args
    policy := policyOf e.config tool, idempotencyKey, payloadSha256
    keyAlgorithm := "agent-action-v1", attempts := 0, status := .pending, result := none
    recipient := if tool = fixture then some (.obj [("target", .str "fixture://action-receipts"),
      ("key_scope", .str "deployment"), ("retention_seconds", .null),
      ("outcome_query", .bool true)]) else none }

/-- The execution of a call, created and committed if there is none. -/
def executionOf (e : Engine) (emit : Emit) (deployment call tool : String) (args : Value) :
    EngineM Execution := do
  let s ← EngineM.get
  match s.executions.find? fun x => x.callId = call with
  | some x => return x
  | none => do
    let id ← EngineM.uuid
    let x ← Proc.ofExcept (newExecution e s deployment id call tool args)
    EngineM.modify (stage x)
    audit "tool_intent" x.toValue
    checkpoint emit (.obj [("type", .str "tool_intent"), ("execution_id", .str id),
      ("tool_call_id", .str call)])
    return x

/-- The identity and the payload of an execution are those of the call. -/
def checkFrozen (host : Host) (session : String) (x : Execution) (deployment tool : String)
    (args : Value) : Except String Unit := do
  let changed := .error "frozen action identity differs from its ledger-derived key"
  if x.namespaceId ≠ deployment ∨ x.target ≠ targetOf tool ∨ x.keyAlgorithm ≠ "agent-action-v1" then
    changed
  else
    let key ← Identity.action host deployment session x.executionId
    if x.idempotencyKey ≠ key then changed
    else if x.tool ≠ tool ∨ !x.arguments.eqv args then .error "frozen action payload changed"
    else
      let payload ← Identity.payload host tool x.target args
      if x.payloadSha256 ≠ payload then .error "frozen action payload changed" else .ok ()

/-- The number of the last attempt. -/
def lastOrdinal (x : Execution) : Int :=
  match x.attemptRecords.map Attempt.attemptNumber with
  | [] => x.attempts
  | n :: ns => ns.foldl max n

/-- Settles the attempts a former owner started and never settled. -/
def settleStarted : List Attempt → EngineM Unit
  | [] => pure ()
  | a :: rest => do
    let now ← EngineM.now
    let a := { a with
      status := .uncertain, finishedAt := some now
      evidence := .obj [("reason", .str "previous_owner_did_not_record_an_outcome")] }
    EngineM.modify fun s => { s with attemptsPending := s.attemptsPending ++ [a] }
    audit "tool_attempt_settled" a.toValue
    settleStarted rest

/-- Commits what `settleStarted` settled. -/
def commitSettled (emit : Emit) : EngineM Unit := do
  let s ← EngineM.get
  if s.attemptsPending.isEmpty then pure ()
  else checkpoint emit (statusEvent "Recorded prior attempt uncertainty.")

def modeOf (x : Execution) : String := ((x.policy.index "mode").asStr).getD "reconcile"

/-- A started attempt of a session's worker. -/
def newAttempt (s : Session) (x : Execution) (command : Option String) (id now : String)
    (ordinal : Int) (kind : AttemptKind) : Attempt :=
  { attemptId := id, executionId := x.executionId, commandId := command, attemptNumber := ordinal
    kind, status := .started, owner := s.executionOwner, fence := s.executionFence
    payloadSha256 := x.payloadSha256, startedAt := now }

/-- Puts an attempt in front of the next commit. -/
def stageAttempt (a : Attempt) (kind : String) : EngineM Unit := do
  EngineM.modify fun s => { s with attemptsPending := s.attemptsPending ++ [a] }
  audit kind a.toValue

/-- Commits the outcome a receipt of the recipient proves. -/
def recoverOutcome (host : Host) (emit : Emit) (x : Execution) (a : Attempt) (now : String)
    (result : Value) : EngineM String := do
  let result ← Proc.ofExcept (Identity.canonical host result)
  stageAttempt { a with
    finishedAt := some now, status := .succeeded, externalReference := some x.idempotencyKey
    evidence := .obj [("source", .str "recipient-primary"), ("receipt_present", .bool true),
      ("result", .str result)] } "tool_attempt_settled"
  EngineM.modify (stage { x with
    status := .succeeded, result := some result, finishedAt := some now })
  checkpoint emit (statusEvent "Recovered the committed recipient outcome.")
  return result

/-- Asks the recipient for the outcome of the original action. -/
def verifyReceipt (host : Host) (emit : Emit) (x : Execution) (command : Option String)
    (deployment : String) (ordinal : Int) : EngineM (Option String) := do
  let s ← EngineM.get
  let id ← EngineM.uuid
  let now ← EngineM.now
  let a := newAttempt s x command id now ordinal .verify
  stageAttempt a "tool_attempt"
  checkpoint emit (statusEvent "Verifying the original recipient receipt.")
  let receipt ← (Proc.request (Eff.receipt deployment x.idempotencyKey) :
    EngineM (Option (String × Value)))
  let now ← EngineM.now
  match receipt.filter fun r => x.payloadSha256 = r.1 with
  | some (_, result) => do
    let result ← recoverOutcome host emit x a now result
    return some result
  | none => do
    stageAttempt { a with
      finishedAt := some now, status := .uncertain
      evidence := .obj [("source", .str "recipient-primary"), ("outcome", .str "unknown")] }
      "tool_attempt_settled"
    checkpoint emit (statusEvent "Recipient evidence did not establish an outcome.")
    return none

/-- The session of an action that needs an operator. -/
def blockSession (message : String) (s : Session) : Session :=
  { s with
    status := .failed, runStatus := .blocked
    lastError := some (.obj [("code", .str "recovery_required"), ("message", .str message),
      ("recoverable", .bool true)]) }

/-- Ends with the action blocked. -/
def requireRecovery (emit : Emit) (x : Execution) : EngineM String := do
  EngineM.mark (.blocking (← EngineM.get))
  EngineM.modify (blockSession "Safe recovery requires operator resolution")
  let x := { x with status := .blocked }
  EngineM.modify (stage x)
  audit "tool_recovery_required" x.toValue
  checkpoint emit (errorEvent "recovery_required" "Authoritative reconciliation is required")
  Proc.fail "recovery_required"

/-- The invocation itself. -/
def invoke (deployment tool : String) (x : Execution) (args : List (String × Value)) :
    EngineM (Except String String) :=
  if tool = fixture then Proc.request (Eff.recipient deployment x.idempotencyKey (.obj args))
  else do
    let output ← (Proc.request (Eff.execute tool args) : EngineM String)
    return .ok output

/-- Commits the output of an invocation. -/
def settleOutput (emit : Emit) (x : Execution) (a : Attempt) (now result : String) :
    EngineM String := do
  let status := if Engine.failed result then ExecutionStatus.failed else .succeeded
  stageAttempt { a with
    finishedAt := some now, status := if Engine.failed result then .failed else .succeeded
    evidence := .obj [("result", .str result)] } "tool_attempt_settled"
  EngineM.modify (stage { x with status, result := some result, finishedAt := some now })
  audit "tool_outcome" (.obj [("execution_id", .str x.executionId), ("status", .str status.text),
    ("result", .str result)])
  checkpoint emit (.obj [("type", .str "tool_settled"), ("execution_id", .str x.executionId)])
  return result

/-- Commits that the outcome of an invocation is unknown. -/
def settleUncertain (emit : Emit) (x : Execution) (a : Attempt) (now error : String) :
    EngineM String := do
  EngineM.mark (.blocking (← EngineM.get))
  EngineM.modify (blockSession "Action outcome is uncertain")
  stageAttempt { a with
    finishedAt := some now, status := .uncertain, error := .obj [("message", .str error)] }
    "tool_attempt_settled"
  EngineM.modify (stage { x with status := .uncertain })
  checkpoint emit (errorEvent "recovery_required" "Action outcome is uncertain")
  Proc.fail "recovery_required"

/-- One attempt: committed as started, made, and committed with its outcome. -/
def attempt (emit : Emit) (x : Execution) (command : Option String) (deployment tool : String)
    (args : List (String × Value)) (ordinal : Int) : EngineM String := do
  let s ← EngineM.get
  let now ← EngineM.now
  let id ← EngineM.uuid
  let a := newAttempt s x command id now (ordinal + 1) .dispatch
  let x := { x with
    status := .started, attempts := x.attempts + 1, startedAt := x.startedAt <|> some (some now) }
  EngineM.modify fun s => stage x { s with attemptsPending := s.attemptsPending ++ [a] }
  audit "tool_attempt" a.toValue
  checkpoint emit (.obj [("type", .str "tool_started"), ("execution_id", .str x.executionId),
    ("attempt", .int x.attempts)])
  let output ← invoke deployment tool x args
  let now ← EngineM.now
  match output with
  | .ok result => settleOutput emit x a now result
  | .error error => settleUncertain emit x a now error

/-- The action may be attempted again although an attempt has been started. -/
def repeatable (mode tool : String) : Bool :=
  mode = "read_only" || mode = "repeatable" || (mode = "idempotent" && tool = fixture)

/-- Whether the recipient is asked for the outcome of the original action. -/
def verifies (x : Execution) (tool : String) : Bool :=
  x.status ≠ .pending && modeOf x = "reconcile" && tool = fixture

/-- The outcome the recipient proves, where it is asked. -/
def verifiedOutcome (e : Engine) (emit : Emit) (x : Execution) (command : Option String)
    (deployment tool : String) : EngineM (Option String) :=
  if verifies x tool then verifyReceipt e.host emit x command deployment (lastOrdinal x + 1)
  else pure none

/-- What becomes of an execution whose outcome is not known and cannot be verified. -/
def attemptOrBlock (emit : Emit) (x : Execution) (command : Option String) (deployment tool : String)
    (args : List (String × Value)) : EngineM String :=
  if x.status ≠ .pending && !repeatable (modeOf x) tool then requireRecovery emit x
  else if maxAttempts x.policy ≤ x.attempts then
    Proc.fail "recovery_required: action dispatch bound reached"
  else if modeOf x = "idempotent" && tool ≠ fixture then
    Proc.fail "recovery_required: no trusted recipient guarantee"
  else attempt emit x command deployment tool args
    (lastOrdinal x + if verifies x tool then 1 else 0)

/-- `dispatch`, for an execution whose outcome is not known. -/
def resolve (e : Engine) (emit : Emit) (x : Execution) (command : Option String)
    (deployment tool : String) (args : List (String × Value)) : EngineM String := do
  settleStarted (x.attemptRecords.filter fun a => a.status = .started)
  commitSettled emit
  match ← verifiedOutcome e emit x command deployment tool with
  | some result => return result
  | none => attemptOrBlock emit x command deployment tool args

/-- `dispatch`. -/
def dispatch (e : Engine) (emit : Emit) (call tool : String) (args : List (String × Value)) :
    EngineM String := do
  let s ← EngineM.get
  let deployment := s.command.elim "regression" Command.namespaceId
  let command := s.command.elim s.runCommandId fun c => some c.id
  let x ← executionOf e emit deployment call tool (.obj args)
  let _ ← Proc.ofExcept (checkFrozen e.host s.id x deployment tool (.obj args))
  if x.status.terminal then
    Proc.ofExcept (match x.result with
      | some result => .ok result
      | none => .error "terminal action lacks result")
  else resolve e emit x command deployment tool args

end Actions

end StateDrivenAgent
