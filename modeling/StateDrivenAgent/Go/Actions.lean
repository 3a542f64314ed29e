import StateDrivenAgent.Go.Effect
import StateDrivenAgent.Go.Workflow

/-!
# The action ledger of the Go runtime

`Engine.call` and `stageActionAttempt`. Every transition of an execution is put in the outbox, which
the next emitted event commits; the outbox holds one record, so a record put there replaces the one
before it.
-/

namespace StateDrivenAgent

open Interaction

namespace Go

/-! ## Attempts -/

/-- The row of an attempt; a row of the same attempt in the outbox gives the start. -/
def attemptRow (s : Session) (x : ToolExecution) (id : String) (kind : AttemptKind)
    (status : AttemptStatus) (evidence : Value) (now : String) : AttemptRow :=
  { attemptId := id, executionId := x.executionId, commandId := s.commandId
    attemptNumber := x.attemptNumber, kind, status, payloadSha256 := x.payloadSha256
    owner := s.executionOwner.getD "00000000-0000-0000-0000-000000000000"
    fence := s.executionFence.getD 0
    startedAt := match (s.attemptsPending.filter fun r => r.attemptId = id).getLast? with
      | some r => r.startedAt
      | none => x.attemptStartedAt
    finishedAt := if status = .started then none else some now
    evidence }

/-- Replaces the row of the same attempt, or adds one. -/
def putRow (row : AttemptRow) : List AttemptRow → List AttemptRow
  | [] => [row]
  | r :: rest => if r.attemptId = row.attemptId then row :: rest else r :: putRow row rest

/-- `stageActionAttempt`. -/
def stageActionAttempt (i : Nat) (kind : AttemptKind) (status : AttemptStatus) (evidence : Value) :
    GoM Unit := do
  let now ← GoM.now
  GoM.when (status = .started) do
    let id ← GoM.uuid
    GoM.modify (·.setExecution i fun x => { x with
      attemptId := some id, attemptNumber := x.attemptNumber + 1, attemptStartedAt := some now
      attemptKind := kind })
  let s ← GoM.get
  match (s.execution i).attemptId with
  | none => pure ()
  | some id => do
    let row := attemptRow s (s.execution i) id kind status evidence now
    GoM.modify fun s => { s with attemptsPending := putRow row s.attemptsPending }
    archive (if status = .started then "tool_attempt" else "tool_attempt_settled") row.json

/-- `s.ExecutionPending = []map[string]any{executionRecord(s.Executions[i])}`. -/
def stageExecution (i : Nat) : GoM Unit := do
  let s ← GoM.get
  GoM.mark (.stage s (s.execution i).callId)
  GoM.modify fun s => { s with executionPending := [executionRecord (s.execution i)] }

/-! ## Outcomes that stay open -/

def recoveryRequired (reason : String) : String × Bool :=
  ("ERROR: recovery_required: " ++ reason, false)

/-- The record of an execution that stays open. -/
def openRecord (x : ToolExecution) (reason : String) : Value :=
  .obj [("execution_id", .str x.executionId), ("reason", .str reason)]

/-- `markBlocked`. -/
def markBlocked (i : Nat) (reason : String) : GoM (String × Bool) := do
  GoM.modify (·.setExecution i fun x => { x with status := .blocked })
  stageExecution i
  let s ← GoM.get
  archive "tool_blocked" (openRecord (s.execution i) reason)
  GoM.modify fun s => { s with runStatus := .blocked }
  return recoveryRequired reason

/-- `markUncertain`. -/
def markUncertain (i : Nat) (reason : String) : GoM (String × Bool) := do
  GoM.modify (·.setExecution i fun x => { x with status := .uncertain })
  let s ← GoM.get
  GoM.when ((s.execution i).attemptId.isSome) <|
    stageActionAttempt i (s.execution i).attemptKind .uncertain (.obj [("reason", .str reason)])
  stageExecution i
  archive "tool_uncertain" (openRecord (s.execution i) reason)
  return recoveryRequired reason

/-- The status of an attempt with a result. -/
def attemptStatus (result : String) : AttemptStatus :=
  if failedOutput result then .failed else .succeeded

/-- The result of an execution is written down: the execution, the outbox and the transcript. -/
def settleExecution (i : Nat) (result : String) (note : List (String × Value)) :
    GoM (String × Bool) := do
  let finished ← GoM.now
  GoM.modify (·.setExecution i fun x => { x with
    status := resultStatus result, result, finishedAt := some finished })
  stageExecution i
  let s ← GoM.get
  archive "tool_outcome" (.obj ([("execution_id", .str (s.execution i).executionId),
    ("status", .str (resultStatus result).text), ("result", .str result)] ++ note))
  return (result, true)

/-! ## Verification -/

/-- `validateVerification`. -/
def validateVerification (v : Verification) : Except String Unit :=
  if v.evidence.isEmpty then .error "verification requires authoritative evidence"
  else if v.outcome = "succeeded" ∨ v.outcome = "failed" then
    if (v.outcome = "failed") ≠ (resultStatus v.result = .failed) then
      .error "verification result status mismatch"
    else .ok ()
  else if v.outcome = "not_executed" ∨ v.outcome = "unknown" then .ok ()
  else .error "invalid verification outcome"

/-- What is known of an attempt after the verifier or the reconciler was asked. -/
structure Verified where
  err : Option String := none
  result : String := ""
  found : Bool := false
  notExecuted : Bool := false
  evidence : Value := .obj []

def Verified.ofVerification (v : Verification) : Verified :=
  match validateVerification v with
  | .error m => { err := some m }
  | .ok () => {
      result := v.result, found := v.outcome = "succeeded" || v.outcome = "failed"
      notExecuted := v.outcome = "not_executed", evidence := .obj v.evidence }

namespace Engine

variable (e : Engine)

/-- `DigestV2`. -/
def digestV2 (v : Value) : Except String String := do
  match e.platform.marshal v with
  | none => .error "json: unsupported value"
  | some text =>
    let x ← e.platform.decoder text
    let canonical ← canonicalV2 e.platform.host x
    return e.platform.host.sha256 canonical

def payloadDigest (tool target : String) (args : Arguments) : Except String String :=
  e.digestV2 (.arr [.str "agent-payload-v1", .str tool, .str target, .obj args])

/-- The key of an execution; an error leaves it empty. -/
def actionKey (namespaceId session execution : String) : String :=
  (e.digestV2 (.arr [.str "agent-action-v1", .str namespaceId, .str session,
    .str execution])).toOption.getD ""

/-- `equalJSON`. -/
def equalJSON (a b : Value) : Bool :=
  match e.platform.marshal a, e.platform.marshal b with
  | some x, some y => x = y
  | _, _ => false

/-- The recovery policy of a tool. -/
def policyOf (name : String) : Policy :=
  ((e.config.tools.filterMap fun t => if t.name = name then t.recovery else none).getLast?).getD {}

/-- Asks the verifier, or else the reconciler. -/
def askOutcome (x : ToolExecution) (name : String) : GoM Verified :=
  if e.registry.verifier name then do
    match ← Proc.request (Ask.verify name x.arguments x.idempotencyKey) with
    | .error m => return { err := some m }
    | .ok v => return .ofVerification v
  else do
    let (result, found, err) ← Proc.request (Ask.reconcile name x.arguments x.idempotencyKey)
    return { err, result, found, evidence := .obj [("source", .str "registered-reconciler"),
      ("confirmed", .bool found), ("result", .str result)] }

/-- Verifies an attempt whose outcome is open; `.ok b` if it stays open, and `b` tells that it was
not executed. -/
def verifyOutcome (emit : Emit) (i : Nat) (name : String) : GoM (Except (String × Bool) Bool) := do
  let s ← GoM.get
  stageActionAttempt i .verify .started .null
  match ← Proc.attempt (emit (.obj [("type", .str "tool_verifying"),
      ("execution_id", .str (s.execution i).executionId)])) with
  | .error _ => return .error (← markUncertain i "Verification intent commit was not acknowledged")
  | .ok () => do
    let v ← e.askOutcome (s.execution i) name
    stageActionAttempt i .verify
      (if v.found && v.err.isNone then attemptStatus v.result else .uncertain) v.evidence
    match v.err with
    | some m => return .error (← markUncertain i ("Reconciliation failed: " ++ m))
    | none =>
      if v.found then
        return .error (← settleExecution i v.result [("reconciled", .bool true)])
      else return .ok v.notExecuted

/-- What becomes of an execution that was begun before; `.ok` if it may be dispatched. -/
def resumeExecution (emit : Emit) (i : Nat) (name : String) (args : Arguments) (policy : Policy) :
    GoM (Except (String × Bool) Unit) := do
  let s ← GoM.get
  let x := s.execution i
  let capability := e.registry.capability name
  if (e.payloadDigest x.tool x.target x.arguments).toOption.getD "" ≠ x.payloadSha256 ∨
      e.actionKey x.namespaceId s.id x.executionId ≠ x.idempotencyKey ∨
      capability.any fun c => x.target ≠ c.target then
    return .error (← markBlocked i "Frozen action identity or adapter target changed")
  else if x.tool ≠ name || !e.equalJSON (.obj x.arguments) (.obj args) ||
      !e.equalJSON x.policy.json policy.json then do
    GoM.modify (·.setExecution i fun x => { x with status := .uncertain })
    stageExecution i
    return .error (recoveryRequired "persisted tool identity or recovery policy changed.")
  else if x.status.terminal then return .error (x.result, true)
  else if x.status = .pending then return .ok ()
  else do
    match ← (if e.registry.reconciler name || e.registry.verifier name then
        e.verifyOutcome emit i name
      else pure (.ok false) : GoM (Except (String × Bool) Bool)) with
    | .error settled => return .error settled
    | .ok notExecuted =>
      if policy.mode = "reconcile" ∧ !notExecuted then
        return .error (← markBlocked i
          "Tool outcome is unknown; reconciliation found no confirmed result.")
      else if policy.mode = "idempotent" ∧ !e.registry.idempotent name then
        return .error (← markUncertain i "Idempotent adapter is not registered.")
      else return .ok ()

/-- Begins the execution of a call, commits the intent; its index. -/
def createExecution (emit : Emit) (id name : String) (args : Arguments) (policy : Policy) :
    GoM (Except (String × Bool) Nat) := do
  let executionId ← GoM.uuid
  let s ← GoM.get
  let target := ((e.registry.capability name).map Capability.target).getD ("tool://" ++ name)
  match e.payloadDigest name target args with
  | .error _ => return .error ("ERROR: invalid action payload", false)
  | .ok fingerprint => do
    let i := s.executions.length
    GoM.modify fun s => { s with executions := s.executions ++ [{
      commandId := s.commandId, namespaceId := s.deploymentNamespace, target
      payloadSha256 := fingerprint, keyAlgorithm := "agent-action-v1", executionId
      runId := s.runId.getD "", callId := id, tool := name, arguments := args, policy
      idempotencyKey := e.actionKey s.deploymentNamespace s.id executionId, status := .pending }] }
    let s ← GoM.get
    archive "tool_intent" (executionRecord (s.execution i)).json
    stageExecution i
    match ← Proc.attempt (emit (.obj [("type", .str "tool_intent"),
        ("execution_id", .str executionId), ("tool_call_id", .str id)])) with
    | .error err =>
      return .error (← markUncertain i ("Tool intent commit was not acknowledged: " ++ err.message))
    | .ok () => return .ok i

/-! ## Dispatch -/

/-- The retention window of the capability has passed since the execution was started. -/
def retentionExpired (capability : Capability) (since : Option String) : GoM Bool :=
  match capability.retentionSeconds, since with
  | some limit, some since => Proc.request (Ask.elapsed since limit)
  | _, _ => pure false

/-- The conditions of the idempotent mode. -/
def admitIdempotent (i : Nat) (name : String) : GoM (Except (String × Bool) Unit) := do
  match e.registry.capability name with
  | none => return .error (← markBlocked i "Adapter has no declared key scope or retention guarantee")
  | some capability => do
    let s ← GoM.get
    let expired ← retentionExpired capability (s.execution i).startedAt
    if expired then return .error (← markBlocked i "Recipient idempotency retention window expired")
    else if !e.registry.idempotent name then
      return .error (← markUncertain i "Idempotent adapter is not registered.")
    else return .ok ()

/-- Runs the tool, through the adapter that honours the key in the idempotent mode. -/
def invoke (mode name : String) (args : Arguments) (key : String) :
    GoM (Except ToolFailure String) :=
  if mode = "idempotent" then Proc.request (Ask.idempotent name args key)
  else Proc.request (Ask.invoke name args)

/-- The loop over the attempts; the count is what `max_attempts` leaves of them. -/
def dispatch (emit : Emit) (i : Nat) (name : String) (args : Arguments) (mode : String)
    (maxAttempts : Int) : Nat → GoM (String × Bool)
  | 0 => markUncertain i "Permitted tool attempts are exhausted; reconciliation required."
  | left + 1 => do
    let started ← GoM.now
    GoM.modify (·.setExecution i fun x => { x with
      attempts := x.attempts + 1, status := .started, startedAt := some (x.startedAt.getD started) })
    stageActionAttempt i .dispatch .started .null
    stageExecution i
    let s ← GoM.get
    let x := s.execution i
    match ← Proc.attempt (emit (.obj [("type", .str "tool_started"),
        ("execution_id", .str x.executionId), ("attempt", .int x.attempts)])) with
    | .error err => markUncertain i ("Tool start commit was not acknowledged: " ++ err.message)
    | .ok () => do
      match ← invoke mode name args x.idempotencyKey with
      | .ok result => finish i result
      | .error err => do
        stageActionAttempt i .dispatch .uncertain (.obj [("error", .str "adapter invocation failed")])
        match err with
        | .transient _ =>
          if mode = "reconcile" then
            markUncertain i "Transient failure may have produced an external effect."
          else if x.attempts < maxAttempts then dispatch emit i name args mode maxAttempts left
          else finish i "ERROR: transient tool failure; automatic attempt limit reached."
        | .other m =>
          if mode = "reconcile" ∨ mode = "idempotent" then
            markUncertain i ("Tool raised without a confirmed external outcome: " ++ m)
          else finish i ("ERROR: " ++ m)
where
  /-- The result is known. -/
  finish (i : Nat) (result : String) : GoM (String × Bool) := do
    stageActionAttempt i .dispatch (attemptStatus result) (.obj [("result", .str result)])
    settleExecution i result []

/-- `call` from the lookup of the execution on. -/
def perform (emit : Emit) (id name : String) (args : Arguments) : GoM (String × Bool) := do
  let policy := e.policyOf name
  let maxAttempts := max 1 policy.maxAttempts
  let s ← GoM.get
  match ← (match s.executions.findIdx? fun x => x.callId = id with
      | some i => return (← e.resumeExecution emit i name args policy).map fun _ => i
      | none => e.createExecution emit id name args policy : GoM (Except (String × Bool) Nat)) with
  | .error settled => return settled
  | .ok i => do
    match ← (if policy.mode = "idempotent" then e.admitIdempotent i name
        else pure (.ok ()) : GoM (Except (String × Bool) Unit)) with
    | .error settled => return settled
    | .ok () => do
      let s ← GoM.get
      dispatch emit i name args policy.mode maxAttempts
        (maxAttempts - (s.execution i).attempts).toNat

/-- `call`: the result, and whether the call was executed. -/
def call (emit : Emit) (id name : String) (args : Option Arguments) : GoM (String × Bool) := do
  let s ← GoM.get
  let issues := e.actionErrors s name args
  if !issues.isEmpty then
    return ("ERROR: action rejected before execution: " ++ " ".intercalate issues, false)
  else if !e.registry.tools name then return ("ERROR: unknown tool '" ++ name ++ "'.", false)
  else e.perform emit id name (args.getD [])

end Engine

end Go

end StateDrivenAgent
