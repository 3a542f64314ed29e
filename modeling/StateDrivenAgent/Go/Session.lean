import StateDrivenAgent.Agent.Session

/-!
# The session of the Go runtime

`engine.go` and `transcript.go`, field for field where a modelled function reads or writes the
field. Messages, transcript entries and the workflow state have the shape of the other runtime. A
`nil` slice and an empty one are one value, so that `NormalizeSession` has nothing to do here; a
JSON object is the list of its properties. What only `compact` reads and writes is `Compaction`.
-/

namespace StateDrivenAgent

namespace Go

abbrev Arguments : Type := List (String × Value)

/-! ## Calls and decisions -/

structure ToolCall where
  id : String
  name : String := ""
  rawArguments : String := ""
  /-- `none` is the `nil` map. -/
  arguments : Option Arguments := none
  invalid : String := ""

structure Decision where
  final : Bool := false
  content : String := ""
  id : String := ""
  name : String := ""
  arguments : Option Arguments := none
  calls : List ToolCall := []
  invalid : String := ""

/-- A call of a batch that is not settled yet, as the session keeps it. -/
structure PendingCall where
  id : String
  name : String
  arguments : Option Arguments
  rawArguments : String

def ToolCall.pending (call : ToolCall) : PendingCall :=
  { id := call.id, name := call.name, arguments := call.arguments
    rawArguments := call.rawArguments }

/-! ## Executions -/

structure Policy where
  mode : String := "reconcile"
  maxAttempts : Int := 1
deriving DecidableEq

structure ToolExecution where
  attemptKind : AttemptKind := .dispatch
  attemptStartedAt : Option String := none
  attemptId : Option String := none
  attemptNumber : Int := 0
  commandId : String
  namespaceId : String
  target : String
  payloadSha256 : String
  keyAlgorithm : String
  executionId : String
  runId : String
  callId : String
  tool : String
  arguments : Arguments
  policy : Policy
  idempotencyKey : String
  attempts : Int := 0
  status : ExecutionStatus
  result : String := ""
  startedAt : Option String := none
  finishedAt : Option String := none

instance : Inhabited ToolExecution where
  default := {
    commandId := "", namespaceId := "", target := "", payloadSha256 := "", keyAlgorithm := ""
    executionId := "", runId := "", callId := "", tool := "", arguments := [], policy := {}
    idempotencyKey := "", status := .pending }

/-- What the outbox carries of an execution (`executionRecord`). -/
structure ExecutionRecord where
  commandId : String
  namespaceId : String
  target : String
  payloadSha256 : String
  keyAlgorithm : String
  executionId : String
  runId : String
  callId : String
  tool : String
  arguments : Arguments
  policy : Policy
  idempotencyKey : String
  attempts : Int
  status : ExecutionStatus
  result : Option String
  startedAt : Option String
  finishedAt : Option String

/-- `executionRecord`: the result is written down with a terminal status only. -/
def executionRecord (x : ToolExecution) : ExecutionRecord :=
  { commandId := x.commandId, namespaceId := x.namespaceId, target := x.target
    payloadSha256 := x.payloadSha256, keyAlgorithm := x.keyAlgorithm, executionId := x.executionId
    runId := x.runId, callId := x.callId, tool := x.tool, arguments := x.arguments
    policy := x.policy, idempotencyKey := x.idempotencyKey, attempts := x.attempts
    status := x.status, result := if x.status.terminal then some x.result else none
    startedAt := x.startedAt, finishedAt := x.finishedAt }

def Policy.json (p : Policy) : Value :=
  .obj [("mode", .str p.mode), ("max_attempts", .int p.maxAttempts)]

def ExecutionRecord.json (x : ExecutionRecord) : Value :=
  .obj [("command_id", .str x.commandId), ("namespace", .str x.namespaceId),
    ("target", .str x.target), ("payload_sha256", .str x.payloadSha256),
    ("key_algorithm", .str x.keyAlgorithm), ("execution_id", .str x.executionId),
    ("run_id", .str x.runId), ("call_id", .str x.callId), ("tool", .str x.tool),
    ("arguments", .obj x.arguments), ("policy", x.policy.json),
    ("idempotency_key", .str x.idempotencyKey), ("attempts", .int x.attempts),
    ("status", .str x.status.text), ("result", .ofStr? x.result),
    ("started_at", .ofStr? x.startedAt), ("finished_at", .ofStr? x.finishedAt)]

/-- A row of the attempts outbox. -/
structure AttemptRow where
  attemptId : String
  executionId : String
  commandId : String
  attemptNumber : Int
  kind : AttemptKind
  status : AttemptStatus
  payloadSha256 : String
  owner : String
  fence : Int
  startedAt : Option String
  finishedAt : Option String
  evidence : Value

/-- A row without its session, as the transcript keeps it. -/
def AttemptRow.json (r : AttemptRow) : Value :=
  .obj [("attempt_id", .str r.attemptId), ("execution_id", .str r.executionId),
    ("command_id", .str r.commandId), ("attempt_number", .int r.attemptNumber),
    ("kind", .str r.kind.text), ("status", .str r.status.text),
    ("payload_sha256", .str r.payloadSha256), ("owner", .str r.owner), ("fence", .int r.fence),
    ("started_at", .ofStr? r.startedAt), ("finished_at", .ofStr? r.finishedAt),
    ("evidence", r.evidence)]

/-! ## The session -/

structure CompletionArtifact where
  tool : String
  arguments : Arguments
  toolCallId : String
  step : Int
  value : Value

structure RejectedFinal where
  content : String
  errors : List String

/-- The fields of the compactor and of its diagnostics. -/
structure Compaction where
  compactedContext : Option String := none
  compactionLedger : Option Ledger := none
  activeLedgerId : Option String := none
  diagnosticsPending : List DiagnosticRecord := []
  diagnosticCounts : List (String × Int) := []
  requestBudget : Option RequestBudget := none
  /-- The counters and markers of the attempts so far. -/
  markers : Value := .obj []

structure Session where
  commandId : String := ""
  runCommandId : Option String := none
  deploymentNamespace : String := ""
  attemptsPending : List AttemptRow := []
  needsReload : Bool := false
  resolvedConfigSha256 : String := ""
  revision : Int := 0
  nextTranscriptSequence : Int := 1
  runId : Option String := none
  runStartedAt : Option String := none
  runEndedAt : Option String := none
  runTerminationReason : Option String := none
  pendingToolCalls : List PendingCall := []
  lastError : Option Value := none
  lastArchiveId : Option String := none
  diagnosticHistoryComplete : Bool := true
  transcriptPending : List TranscriptEntry := []
  executionPending : List ExecutionRecord := []
  retentionPending : Option Value := none
  pendingCommitId : Option String := none
  executionOwner : Option String := none
  executionFence : Option Int := none
  executionMaintenance : Bool := false
  id : String
  goal : String
  configRef : String := ""
  configSha256 : String := ""
  memory : List Message := []
  compaction : Compaction := {}
  workflow : Option Workflow := none
  stepCount : Int := 0
  runCount : Int := 0
  runStatus : RunStatus := .idle
  consecutiveInvalidResponses : Int := 0
  executions : List ToolExecution := []
  /-- By the index of the result check. -/
  completionArtifacts : List (Nat × CompletionArtifact) := []
  rejectedFinals : List RejectedFinal := []
  noProgressSteps : Int := 0
  progressFingerprint : String := ""
  progressSeenOutputs : List String := []
  status : Status := .active
  finalAnswer : Option String := none

namespace Session

/-- `s.Executions[i]`. -/
def execution (s : Session) (i : Nat) : ToolExecution := s.executions.getD i default

def setExecution (i : Nat) (f : ToolExecution → ToolExecution) (s : Session) : Session :=
  { s with executions := s.executions.modify i f }

end Session

/-! ## Configuration -/

structure Binding where
  tool : String
  argument : String
  sourceLabel : String
  path : List Value := []

structure ResultCheck where
  kind : String
  tool : String
  arguments : Arguments := []
  result : Arguments := []
  path : List Value := []
  label : String

structure ToolDefinition where
  name : String
  parameters : Value
  recovery : Option Policy := none

/-- The settings the engine reads. -/
structure Config where
  tools : List ToolDefinition
  workflow : Option WorkflowConfig := none
  toolPolicy : String := ""
  argumentBindings : List Binding := []
  maxConsecutiveInvalidResponses : Int := 3
  maxNoProgressSteps : Option Int := none
  resultChecks : List ResultCheck := []
  runMaxSteps : Option Int := none
  maxSteps : Int := 1
  compactionMaxPasses : Nat := 3
  verboseSetup : Bool := false

end Go

end StateDrivenAgent
