import StateDrivenAgent.Host

/-!
# The session and the configuration

The data the engine works on (`engine.rs`), field for field where a modelled function reads or
writes the field. Counters and sequence numbers (`i64`, `usize`) are integers or naturals; free-form
JSON (`execution`, `completion`, tool parameters, artifacts, pending calls) stays JSON. Statuses are
enumerations with the source's spelling in `text`. A message is its body, which goes over the wire,
with the storage metadata around it.

The fields a session carries only for the process (`#[serde(skip)]`) are reset by `hydrated`, which
is what loading a stored session gives.
-/

namespace StateDrivenAgent

/-! ## Messages and transcript -/

/-- The part of a message that goes over the wire. -/
structure MessageBody where
  role : String
  content : Option String := none
  name : Option String := none
  toolCallId : Option String := none
  toolCalls : Option Value := none

structure Message extends MessageBody where
  messageId : Option String := none
  sequence : Option Int := none
  createdAt : Option String := none

structure TranscriptEntry where
  sequence : Int
  messageId : String
  kind : String
  payload : Value
  runId : Option String
  decisionStep : Int
  createdAt : String

/-! ## Workflow state -/

structure Transition where
  fromPhase : String
  toPhase : String
  reason : String
deriving DecidableEq

structure Workflow where
  activePhase : Option String
  completedPhases : List String := []
  observedEvidence : List String := []
  transitions : List Transition := []
deriving DecidableEq

/-! ## Statuses -/

inductive Status where
  | active | complete | failed
deriving DecidableEq

def Status.text : Status → String
  | active => "active"
  | complete => "complete"
  | failed => "failed"

inductive RunStatus where
  | idle | running | complete | failed | blocked | cancelled | interrupted
deriving DecidableEq

def RunStatus.text : RunStatus → String
  | idle => "idle"
  | running => "running"
  | complete => "complete"
  | failed => "failed"
  | blocked => "blocked"
  | cancelled => "cancelled"
  | interrupted => "interrupted"

/-! ## Actions -/

inductive AttemptKind where
  | dispatch | verify
deriving DecidableEq

def AttemptKind.text : AttemptKind → String
  | dispatch => "dispatch"
  | verify => "verify"

inductive AttemptStatus where
  | started | succeeded | failed | uncertain
deriving DecidableEq

def AttemptStatus.text : AttemptStatus → String
  | started => "started"
  | succeeded => "succeeded"
  | failed => "failed"
  | uncertain => "uncertain"

structure Attempt where
  attemptId : String
  executionId : String
  commandId : Option String
  attemptNumber : Int
  kind : AttemptKind
  status : AttemptStatus
  owner : Option String
  fence : Option Int
  payloadSha256 : String
  startedAt : String
  finishedAt : Option String := none
  evidence : Value := .null
  error : Value := .null
  externalReference : Option String := none

inductive ExecutionStatus where
  | pending | started | succeeded | failed | uncertain | blocked
deriving DecidableEq

def ExecutionStatus.text : ExecutionStatus → String
  | pending => "pending"
  | started => "started"
  | succeeded => "succeeded"
  | failed => "failed"
  | uncertain => "uncertain"
  | blocked => "blocked"

def ExecutionStatus.terminal : ExecutionStatus → Bool
  | succeeded | failed => true
  | _ => false

structure Execution where
  executionId : String
  runId : Option String
  commandId : Option String
  namespaceId : String
  target : String
  callId : String
  tool : String
  arguments : Value
  policy : Value
  idempotencyKey : String
  payloadSha256 : String
  keyAlgorithm : String
  attempts : Int
  status : ExecutionStatus
  result : Option String
  recipient : Option Value := none
  /-- A stored execution carries the property even before it has a value. -/
  startedAt : Option (Option String) := none
  finishedAt : Option String := none
  attemptRecords : List Attempt := []

/-- The dispatch bound of an execution's policy. -/
def maxAttempts (policy : Value) : Int := ((policy.index "max_attempts").asI64).getD 2

/-! ## The session -/

structure Ledger where
  goal : String
  modelClaims : List String
  deadEnds : List String
  hypothesis : String
  sourceSha256 : String
  verification : String

structure RequestBudget where
  estimatedInputTokens : Int
  reservedOutputTokens : Int
  safetyMarginTokens : Int
  contextWindowTokens : Int
  fits : Bool
  estimator : String

/-- `diagnostics::Record`. -/
structure DiagnosticRecord where
  family : String
  ordinal : Int
  payload : Value

/-- The admitted command a request carries (`_command`). -/
structure Command where
  id : String
  owner : String
  fence : Int
  namespaceId : String
  route : String
  admission : Value

/-- What a successful save tells the engine through the shared cell. -/
structure CheckpointAck where
  needsReload : Bool := false
  revision : Int := 0
  nextSequence : Int := 0
  memory : List Message := []
  summaries : List String := []

structure Session where
  checkpointAck : Option CheckpointAck := none
  /-- The handler's own revision counter, which it shares with its checkpoint callback. -/
  emitRevision : Int := 0
  committedSummaries : List String := []
  command : Option Command := none
  runCommandId : Option String := none
  attemptsPending : List Attempt := []
  needsReload : Bool := false
  lastArchiveId : Option String := none
  retentionPending : Option Value := none
  id : String
  goal : String
  revision : Int := 0
  pendingCommitId : Option String := none
  pendingCommitFingerprint : Option String := none
  executionOwner : Option String := none
  executionFence : Option Int := none
  nextTranscriptSequence : Int := 1
  historyComplete : Bool := true
  pendingTranscript : List TranscriptEntry := []
  configRef : Option String := none
  configSha256 : Option String := none
  resolvedConfigSha256 : Option String := none
  memory : List Message := []
  compactedContext : Option String := none
  activeLedgerId : Option String := none
  compactionEvents : List String := []
  compactionAttempts : List Value := []
  compactionDecisions : List Value := []
  diagnosticCounts : List (String × Int) := []
  diagnosticsComplete : Bool := true
  diagnosticHistoryComplete : Bool := true
  diagnosticRejections : Int := 0
  compactionSavingsTotal : Int := 0
  compactionSavingsKnown : Bool := true
  diagnosticsPending : List DiagnosticRecord := []
  compactionProvenance : List Value := []
  compactionLedger : Option Ledger := none
  lastCompactionStep : Int := 0
  lastCompactionEstimatedTokens : Option Int := none
  lastCompactionAttemptStep : Option Int := none
  lastCompactionAttemptSha256 : Option String := none
  requestBudget : Option RequestBudget := none
  workflow : Option Workflow := none
  stepCount : Int := 0
  runCount : Int := 0
  runId : Option String := none
  runStartedAt : Option String := none
  runEndedAt : Option String := none
  runTerminationReason : Option String := none
  status : Status := .active
  runStatus : RunStatus := .idle
  finalAnswer : Option String := none
  lastError : Option Value := none
  consecutiveInvalidResponses : Nat := 0
  modelRequestDiagnostics : List Value := []
  executions : List Execution := []
  pendingExecutionOutbox : List Execution := []
  completionArtifacts : Value := .obj []
  noProgressSteps : Nat := 0
  progressFingerprint : Option String := none
  progressSeenOutputs : List String := []
  pendingToolCalls : List Value := []
  pendingToolPhase : Option String := none

/-- A stored session as a later load returns it: the process's own fields are gone, and of the
executions only those of the pending calls are read back. -/
def Session.hydrated (s : Session) : Session :=
  { s with
    checkpointAck := none, emitRevision := 0, committedSummaries := [], command := none, attemptsPending := [],
    needsReload := false, retentionPending := none, pendingCommitId := none,
    pendingCommitFingerprint := none, executionOwner := none, executionFence := none,
    pendingTranscript := [], diagnosticsPending := [], compactionProvenance := [],
    pendingExecutionOutbox := [], modelRequestDiagnostics := [],
    executions := s.executions.filter fun e =>
      s.pendingToolCalls.any fun call => (call.index "id").asStr = some e.callId }

/-! ## Configuration -/

structure MemoryPolicy where
  maxTokens : Int
  maxSteps : Int
  rawTurnsToKeep : Nat
  hybridReflection : Bool := true
  runMaxSteps : Option Int := none
  compactionIntervalSteps : Option Int := none
  contextWindowTokens : Int := 32768
  reservedOutputTokens : Int := 1024
  safetyMarginTokens : Int := 256
  maxSummaryTokens : Int := 4096
  summaryOutputTokens : Int := 512
  compactionMaxAttempts : Int := 2
  compactionMaxPasses : Int := 3
  compactionMinGrowthTokens : Int := 512
  compactionMinIntervalSteps : Int := 0
  optionalCompactionMinPressureRatio : F64 := .zero
  optionalCompactionMinReclaimableTokens : Int := 0
  optionalCompactionMinReductionTokens : Int := 0
  optionalCompactionMinReductionRatio : F64 := .zero

structure Llm where
  baseUrl : String
  apiKeyEnv : String := "OPENAI_API_KEY"
  temperature : F64
  timeoutSeconds : F64
  toolCallMode : String := "native"
  maxOutputTokens : Option Int := none

structure Evidence where
  description : String
  tool : String
  required : Bool := true
  arguments : Value := .obj []
  result : Value := .obj []
  contentContains : List String := []

structure Edge where
  to' : String
  when' : String := "phase_complete"
  evidence : List Evidence := []

structure Phase where
  id : String
  name : String
  instruction : String
  allowedTools : Option (List String) := none
  completion : List Evidence := []
  transitions : List Edge := []

structure WorkflowConfig where
  entryPhase : String
  phases : List Phase

structure Tool where
  name : String
  description : String
  parameters : Value
  recovery : Option Value := none

structure Config where
  name : String
  systemPrompt : String
  model : String
  llm : Llm
  memory : MemoryPolicy
  verboseSetup : Bool := false
  tools : List Tool
  workflow : Option WorkflowConfig := none
  execution : Value := .obj []
  completion : Value := .obj []

end StateDrivenAgent
