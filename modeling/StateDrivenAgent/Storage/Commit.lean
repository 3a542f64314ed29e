import StateDrivenAgent.Storage.Tables
import StateDrivenAgent.Agent.Context
import StateDrivenAgent.Agent.Diagnostics

/-!
# The commit of a session

`save_inner`: one transaction that either applies a staged session to the tables, or finds the
receipt of an earlier application of the same commit, or fails and leaves everything as it was. Each
part of the transaction is a function on the tables it works on; `applyCommit` puts them together in
the source's order.
-/

namespace StateDrivenAgent

namespace Storage

open Commands (Query)

abbrev Sql (α : Type) : Type := Except SqlError α

def protocol {α : Type} (message : String) : Sql α := .error (.other message)

/-- Fails with `message` unless `c`. -/
def require (c : Bool) (message : String) : Sql Unit := if c then .ok () else protocol message

theorem require_ok {c : Bool} {message : String} {u : Unit} (h : require c message = .ok u) :
    c = true := by
  unfold require at h
  split at h
  · assumption
  · cases h

/-! ## The identity of a commit -/

/-- The parts of the snapshot that enter the fingerprint on their own. -/
def separate : List String := ["memory", "compacted_context", "compaction_ledger",
  "compaction_events", "compaction_attempts", "compaction_decisions", "compaction_provenance",
  "executions", "pending_transcript", "transcript_pending"]

/-- What the fingerprint of a commit is the digest of. -/
def commitPreimage (env : Deployment) (s : Session) (resolvedHash : String) (event : Value) : Value :=
  .arr [.str "agent-commit-v2", .str s.id, .ofOption (fun c => .str c.id) s.command,
    .int s.revision, (Integrity.snapshot env.toHost s).without separate,
    .arr (s.memory.map Message.toValue), .ofStr? s.compactedContext,
    .ofOption Ledger.toValue s.compactionLedger,
    .arr (s.pendingTranscript.map TranscriptEntry.toValue),
    .obj [("executions", .arr (s.pendingExecutionOutbox.map Execution.toValue)),
      ("attempts", .arr (s.attemptsPending.map Attempt.toValue))],
    .arr (s.diagnosticsPending.map DiagnosticRecord.toValue), .ofValue? s.retentionPending,
    .str resolvedHash, event]

/-- `commit_fingerprint`. -/
def commitFingerprint (env : Deployment) (s : Session) (config event : Value) : Sql String := do
  match env.readConfig config with
  | .error e => protocol e
  | .ok config =>
    let resolvedHash := ConfigHash.resolvedConfigHash env.toHost config
    if s.resolvedConfigSha256 ≠ some resolvedHash then
      protocol "resolved configuration hash differs from immutable session anchor"
    else match Identity.digest env.toHost (commitPreimage env s resolvedHash event) with
      | .error e => protocol e
      | .ok hash => .ok hash

/-! ## The previous state -/

/-- The stored state with the context the tables hold of it (`integrity::PROJECTION`). -/
def restored (t : Tables) (state : Value) : Option Session := do
  let context ← t.context
  let rows (id : Value) : List Value := match id with
    | .str id => (t.transcript.filter fun r => r.messageId = id && r.kind = "message").map fun r =>
        match r.payload with
        | .obj fields => .obj (insertField "created_at" (.str r.createdAt)
            (insertField "sequence" (.int r.sequence)
              (insertField "message_id" (.str r.messageId) fields)))
        | v => v
    | _ => []
  let memory := rows (.str context.goalMessageId) ++
    (context.rawMessageIds.asArray.getD []).flatMap rows
  let ledger := (t.transcript.find? fun r => some r.messageId = context.ledgerRecordId).bind
    fun r => r.payload.get "content"
  Decode.session (((state.set "memory" (.arr memory)).set "compacted_context"
    (ledger.getD .null)).set "ledger_state" context.ledgerState)

/-- A message that states the goal. -/
def isGoal (goal : String) (m : Message) : Bool := m.role = "user" && m.content = some goal

/-- The checks of `validate_previous_transcript` on the stored state and what it is restored to. -/
def checkRestored (env : Deployment) (state : Value) : Option Session → Sql Unit
  | none => protocol "invalid stored session"
  | some s => match Integrity.validateContext env.toHost state s with
    | .error e => protocol e
    | .ok () => match s.memory.head? with
      | none => protocol "missing immutable goal message"
      | some goal => require (isGoal s.goal goal) "goal anchor mismatch"

/-- `validate_previous_transcript`, for a session that has a row. -/
def validatePreviousTranscript (env : Deployment) (t : Tables) (maximum : Int) : Sql Unit :=
  match t.session with
  | none => .ok ()
  | some row => match Integrity.validateSnapshot env.toHost row.state with
    | .error e => protocol e
    | .ok () => do
      require ((row.state.index "next_transcript_sequence").asI64 = some (maximum + 1))
        "transcript counter mismatch"
      checkRestored env row.state (restored t row.state)

/-- What may not change from one commit of a session to the next. -/
def sameAnchors (s : Session) (config : Value) (row : SessionRow) : Bool :=
  let field (k : String) : Option String := (row.state.get k).bind Value.asStr
  field "id" = some s.id && field "goal" = some s.goal && field "config_ref" = s.configRef &&
    field "config_sha256" = s.configSha256 &&
    field "resolved_config_sha256" = s.resolvedConfigSha256 && row.configRef = s.configRef &&
    row.configSha256 = s.configSha256 && row.resolvedConfigSha256 = s.resolvedConfigSha256 &&
    row.config.eqv config

/-- The lease allows this session to commit. -/
def leaseAllows (env : Deployment) (clock : Int) (s : Session) (row : SessionRow) : Bool :=
  row.leaseOwner = s.executionOwner.bind env.parseUuid &&
    (row.leaseOwner.isNone || (s.executionFence = some row.leaseFence &&
      (row.leaseExpiresAt.isNone || row.leaseLive clock)))

/-- The checks against the row the session has, if it has one. -/
def checkPrevious (env : Deployment) (clock : Int) (s : Session) (config : Value) :
    Option SessionRow → Sql Unit
  | none =>
    require (s.revision = 0)
      ("revision conflict: expected " ++ toString s.revision ++ ", stored 0")
  | some row => do
    require (row.revision = s.revision) ("revision conflict: expected " ++ toString s.revision ++
      ", stored " ++ toString row.revision)
    require (sameAnchors s config row) "immutable session goal/config anchor changed"
    require (row.storageVersion = 6)
      "unsupported stored session format; automatic migration is disabled"
    require (leaseAllows env clock s row) "session is owned by a fenced worker"

/-! ## The transcript -/

/-- `SELECT COUNT(*),COALESCE(MAX(sequence),0)`. -/
def maxSequence (rows : List TranscriptEntry) : Int :=
  rows.foldl (fun m r => max m r.sequence) 0

def findEntry (rows : List TranscriptEntry) (messageId : String) : Option TranscriptEntry :=
  rows.find? fun r => r.messageId = messageId

/-- Sets the sequence number of the first message with this identity. -/
def setSequence (messageId : String) (sequence : Int) : List Message → List Message
  | [] => []
  | m :: ms => if m.messageId = some messageId then { m with sequence := some sequence } :: ms
      else m :: setSequence messageId sequence ms

/-- What appending to the transcript works on. -/
structure Appending where
  rows : List TranscriptEntry
  memory : List Message
  next : Int

/-- One staged entry: a new row, or the row it already has. -/
def appendEntry (env : Deployment) (a : Appending) (entry : TranscriptEntry) : Sql Appending := do
  let isMessage : Bool := entry.kind = "message"
  let changed := (a.memory.find? fun m => m.messageId = some entry.messageId).any fun m =>
    !(Context.wireMessage m.toMessageBody).eqv entry.payload
  require (!(isMessage && changed)) "transcript message ID reused with changed payload"
  match findEntry a.rows entry.messageId with
  | some row =>
    require (row.kind = entry.kind && row.payload.eqv entry.payload &&
      (row.sequence = entry.sequence || isMessage)) "transcript immutable identity conflict"
    .ok { a with
      memory := if isMessage then setSequence entry.messageId row.sequence a.memory else a.memory }
  | none =>
    .ok {
      rows := a.rows ++ [{ entry with
        sequence := a.next, payload := jsonb env.toHost entry.payload,
        runId := entry.runId.bind env.parseUuid }]
      memory := if isMessage then setSequence entry.messageId a.next a.memory else a.memory
      next := a.next + 1 }

def appendEntries (env : Deployment) : Appending → List TranscriptEntry → Sql Appending
  | a, [] => .ok a
  | a, entry :: entries => do
    let a ← appendEntry env a entry
    appendEntries env a entries

/-- The messages a summary was made of: distinct, archived and in order. -/
def summarySources (env : Deployment) (rows : List TranscriptEntry) (seen : List String)
    (previous : Int) : List Value → Sql (List Message)
  | [] => .ok []
  | source :: sources => do
    match source.asStr with
    | none => protocol "invalid summary source identity"
    | some sid =>
      require (!seen.contains sid) "duplicate summary source identity"
      match env.parseUuid sid with
      | none => protocol "invalid summary source identity"
      | some uuid => match findEntry rows uuid with
        | none => protocol "summary references a missing or cross-session source message"
        | some row =>
          require (row.kind = "message" && decide (previous < row.sequence))
            "summary source messages are not ordered transcript messages"
          match Decode.message row.payload with
          | none => protocol "invalid archived message"
          | some m =>
            let rest ← summarySources env rows (seen ++ [sid]) row.sequence sources
            return m :: rest

/-- The messages a summary left in the context: distinct and archived. -/
def summaryRetained (env : Deployment) (rows : List TranscriptEntry) (seen : List String) :
    List Value → Sql Unit
  | [] => .ok ()
  | retained :: rest => do
    match retained.asStr with
    | none => protocol "invalid retained message identity"
    | some identity =>
      require (!seen.contains identity) "duplicate retained message identity"
      match env.parseUuid identity with
      | none => protocol "invalid retained message identity"
      | some uuid =>
        require ((findEntry rows uuid).any fun r => r.kind = "message")
          "summary retained message is missing or cross-session"
        summaryRetained env rows (seen ++ [identity]) rest

/-- The content of the ledger a summary replaced. -/
def previousContent (env : Deployment) (rows : List TranscriptEntry) (payload : Value) :
    Sql (Option String) :=
  match (payload.get "previous_ledger_id").bind Value.asStr with
  | none => .ok none
  | some prior => match env.parseUuid prior with
    | none => protocol "invalid previous summary identity"
    | some uuid => match findEntry rows uuid with
      | none => protocol "previous summary ledger is missing"
      | some row =>
        if row.kind = "compaction_summary" ∨ row.kind = "legacy_summary" then
          .ok (some (((row.payload.get "content").bind Value.asStr).getD ""))
        else protocol "previous summary ledger is invalid"

/-- `validate_summary_payload`. -/
def validateSummaryPayload (env : Deployment) (rows : List TranscriptEntry) (payload : Value)
    (goal : String) : Sql Unit := do
  match (payload.get "source_message_ids").bind Value.asArray with
  | none => protocol "summary source identities are missing"
  | some ids =>
    require (!ids.isEmpty) "summary source identities are empty"
    let sources ← summarySources env rows [] 0 ids
    summaryRetained env rows []
      (((payload.get "retained_message_ids").bind Value.asArray).getD [])
    let previous ← previousContent env rows payload
    let fingerprint := env.sha256 (Context.sourceText env.toHost goal sources previous)
    require ((payload.get "source_sha256").bind Value.asStr = some fingerprint)
      "summary source fingerprint differs from archived inputs"

/-- One accepted summary: a new row, or the row it already has. -/
def appendSummary (env : Deployment) (goal : String) (step : Int) (now : String)
    (rows : List TranscriptEntry) (next : Int) (provenance : Value) :
    Sql (List TranscriptEntry × Int) := do
  match (provenance.get "transcript_record_id").bind Value.asStr with
  | none => .ok (rows, next)
  | some record => match env.parseUuid record with
    | none => protocol "invalid summary identity"
    | some uuid =>
      let payload := (provenance.get "transcript_payload").getD .null
      validateSummaryPayload env rows payload goal
      match findEntry rows uuid with
      | some row =>
        require (row.kind = "compaction_summary" && row.payload.eqv payload)
          "immutable compaction summary identity conflict"
        .ok (rows, next)
      | none =>
        let row : TranscriptEntry := {
          sequence := next, messageId := uuid, kind := "compaction_summary",
          payload := jsonb env.toHost payload, runId := none, decisionStep := step,
          createdAt := now }
        .ok (rows ++ [row], next + 1)

def appendSummaries (env : Deployment) (goal : String) (step : Int) (now : String) :
    List TranscriptEntry → Int → List Value → Sql (List TranscriptEntry × Int)
  | rows, next, [] => .ok (rows, next)
  | rows, next, p :: ps => do
    let (rows, next) ← appendSummary env goal step now rows next p
    appendSummaries env goal step now rows next ps

/-! ## The other tables -/

/-- One call of a staged message in `write_call_map`. -/
def writeCall (messageId : String) (calls : List CallRow) (call : Value) : Sql (List CallRow) :=
  match Context.callId call with
  | none => protocol "tool call is missing its identity"
  | some id => match calls.find? fun r => r.callId = id with
    | none => .ok (calls ++ [⟨id, messageId⟩])
    | some row => do
      require (row.messageId = messageId) "tool call identity collision"
      return calls

/-- `write_call_map`. -/
def writeCallMap (calls : List CallRow) : List TranscriptEntry → Sql (List CallRow)
  | [] => .ok calls
  | entry :: entries => do
    let items := if entry.kind = "message" then
      ((entry.payload.get "tool_calls").bind Value.asArray).getD [] else []
    let calls ← items.foldlM (writeCall entry.messageId) calls
    writeCallMap calls entries

def families : List String := ["compaction_events", "compaction_attempts", "compaction_decisions"]

/-- `SELECT COALESCE(MAX(ordinal),0)`. -/
def maxOrdinal (rows : List DiagnosticRecord) (family : String) : Int :=
  (rows.filter fun r => r.family = family).foldl (fun m r => max m r.ordinal) 0

def writeDiagnostic (env : Deployment) (rows : List DiagnosticRecord) (r : DiagnosticRecord) :
    Sql (List DiagnosticRecord) := do
  require (families.contains r.family && decide (1 ≤ r.ordinal))
    "invalid pending diagnostic identity"
  match rows.find? fun r' => r'.family = r.family && r'.ordinal = r.ordinal with
  | none => .ok (rows ++ [{ r with payload := jsonb env.toHost r.payload }])
  | some old =>
    require (old.payload.eqv r.payload) "diagnostic ordinal reused with changed payload"
    .ok rows

/-- `write_diagnostics`. -/
def writeDiagnostics (env : Deployment) (s : Session) (rows : List DiagnosticRecord) :
    Sql (List DiagnosticRecord) := do
  let rows ← s.diagnosticsPending.foldlM (writeDiagnostic env) rows
  require (s.diagnosticCounts.all fun c => families.contains c.1) "unknown diagnostic counter family"
  let counted (family : String) : Int := (lookup family s.diagnosticCounts).getD 0
  require (families.all fun family => 0 ≤ counted family && maxOrdinal rows family = counted family)
    "diagnostic counter differs from archived history"
  return rows

/-- `write_run_state`: the row of the session's run. The end and the reason, once set, stay. -/
def writeRunState (env : Deployment) (now : String) (s : Session) (runs : List RunRow) :
    Sql (List RunRow) :=
  match s.runId, s.runStartedAt with
  | some run, some startedAt => match env.parseUuid run with
    | none => protocol "invalid run identity"
    | some run =>
      let endedAt := if s.runStatus = .running then none else some (s.runEndedAt.getD now)
      let row : RunRow := {
        runId := run, commandId := s.runCommandId,
        owner := (s.executionOwner.bind env.parseUuid).getD s.id,
        fence := s.executionFence.getD 0, status := s.runStatus.text, startedAt, endedAt,
        terminationReason := s.runTerminationReason, lastDecisionStep := s.stepCount }
      if runs.any fun r => r.runId = run then
        .ok (runs.map fun r => if r.runId = run then { r with
          status := row.status, endedAt := r.endedAt <|> row.endedAt,
          terminationReason := r.terminationReason <|> row.terminationReason,
          lastDecisionStep := row.lastDecisionStep } else r)
      else .ok (runs ++ [row])
  | _, _ => .ok runs

/-- The fields of an execution that are frozen when it is created. -/
def sameAction (old item : Execution) : Bool :=
  old.executionId = item.executionId && old.runId = item.runId && old.callId = item.callId &&
    old.tool = item.tool && old.arguments.eqv item.arguments && old.policy.eqv item.policy &&
    old.idempotencyKey = item.idempotencyKey && old.commandId = item.commandId &&
    old.namespaceId = item.namespaceId && old.target = item.target &&
    old.payloadSha256 = item.payloadSha256 && old.keyAlgorithm = item.keyAlgorithm

def sameRecipient (old item : Option Value) : Bool :=
  match old, item with
  | none, none => true
  | some a, some b => a.eqv b
  | _, _ => false

/-- One execution of the outbox against the row it has. -/
def checkExecution (old item : Execution) : Sql Unit := do
  require (old.attempts ≤ item.attempts && sameRecipient old.recipient item.recipient)
    "frozen recipient metadata or dispatch count changed"
  require (sameAction old item) "frozen action field changed"
  require (!old.status.terminal || (old.status = item.status && old.result = item.result))
    "terminal action changed"

/-- The row of an execution after `ON CONFLICT DO UPDATE`. -/
def mergeExecution (s : Session) (old : ExecutionRow) (item : Execution) : ExecutionRow :=
  { execution := { old.execution with
      attempts := item.attempts, status := item.status, result := item.result,
      recipient := item.recipient,
      startedAt := match old.execution.startedAt with
        | some (some t) => some (some t)
        | _ => some (item.startedAt.getD none)
      finishedAt := old.execution.finishedAt <|> item.finishedAt }
    owner := s.executionOwner, fence := s.executionFence }

def insertExecution (env : Deployment) (s : Session) (item : Execution) : ExecutionRow :=
  { execution := { item with
      arguments := jsonb env.toHost item.arguments, policy := jsonb env.toHost item.policy,
      recipient := item.recipient.map (jsonb env.toHost),
      startedAt := some (item.startedAt.getD none), attemptRecords := [] }
    owner := s.executionOwner, fence := s.executionFence }

def writeExecution (env : Deployment) (s : Session) (rows : List ExecutionRow) (item : Execution) :
    Sql (List ExecutionRow) := do
  require (0 ≤ item.attempts && item.attempts ≤ maxAttempts item.policy)
    "action exceeded its frozen dispatch bound"
  require (item.status.terminal == item.result.isSome) "violates check constraint"
  match rows.find? fun r => r.execution.executionId = item.executionId with
  | some old =>
    checkExecution old.execution item
    .ok (rows.map fun r => if r.execution.executionId = item.executionId then
      mergeExecution s r item else r)
  | none =>
    require (!rows.any fun r => r.execution.callId = item.callId)
      "duplicate key value violates unique constraint"
    .ok (rows ++ [insertExecution env s item])

/-- The fields of an attempt that identify it. -/
def sameAttempt (old item : Attempt) : Bool :=
  old.executionId = item.executionId && old.commandId = item.commandId &&
    old.attemptNumber = item.attemptNumber && old.kind = item.kind &&
    old.payloadSha256 = item.payloadSha256 && old.owner = item.owner && old.fence = item.fence

/-- One attempt: a new row, the outcome of a started one, or a settled one again. -/
def writeAttempt (env : Deployment) (rows : List Attempt) (item : Attempt) : Sql (List Attempt) := do
  require ((item.status = .started) == item.finishedAt.isNone) "violates check constraint"
  match rows.find? fun r => r.attemptId = item.attemptId with
  | some old =>
    require (sameAttempt old item) "attempt identity changed"
    require (old.startedAt = item.startedAt) "attempt start time changed"
    if old.status = .started then
      .ok (rows.map fun r => if r.attemptId = item.attemptId then { r with
        status := item.status, finishedAt := item.finishedAt,
        evidence := jsonb env.toHost item.evidence, error := jsonb env.toHost item.error,
        externalReference := item.externalReference } else r)
    else do
      require (old.externalReference = item.externalReference && old.finishedAt = item.finishedAt)
        "settled attempt evidence metadata changed"
      require (old.status = item.status && old.evidence.eqv item.evidence &&
        old.error.eqv item.error) "settled attempt changed"
      return rows
  | none =>
    require (!rows.any fun r => r.executionId = item.executionId &&
      r.attemptNumber = item.attemptNumber) "duplicate key value violates unique constraint"
    .ok (rows ++ [{ item with
      evidence := jsonb env.toHost item.evidence, error := jsonb env.toHost item.error }])

/-- `write_tool_executions`. -/
def writeToolExecutions (env : Deployment) (s : Session) (executions : List ExecutionRow)
    (attempts : List Attempt) : Sql (List ExecutionRow × List Attempt) := do
  let executions ← s.pendingExecutionOutbox.foldlM (writeExecution env s) executions
  let attempts ← s.attemptsPending.foldlM (writeAttempt env) attempts
  return (executions, attempts)

/-- The active messages with the numbers and times of their archived rows. -/
def refreshMemory (rows : List TranscriptEntry) : List Message → Sql (List Message)
  | [] => .ok []
  | m :: ms => do
    match rows.find? fun r => m.messageId = some r.messageId && r.kind = "message" with
    | none => protocol "active message missing from transcript"
    | some row =>
      require ((Context.wireMessage m.toMessageBody).eqv row.payload)
        "active message payload differs from archive"
      let rest ← refreshMemory rows ms
      return { m with sequence := some row.sequence, createdAt := some row.createdAt } :: rest

/-- `write_context`. -/
def writeContext (env : Deployment) (s : Session) : Sql ContextRow := do
  match s.memory with
  | [] => protocol "active context has no goal message"
  | goal :: raw =>
    require (isGoal s.goal goal) "active context lost immutable goal"
    match goal.messageId.bind env.parseUuid with
    | none => protocol "goal message has no identity"
    | some goalMessageId =>
      require (s.activeLedgerId.all fun id => (env.parseUuid id).isSome) "invalid ledger identity"
      return {
        revision := s.revision, goalMessageId
        ledgerRecordId := s.activeLedgerId.bind env.parseUuid
        rawMessageIds := .arr (raw.map fun m => .ofStr? m.messageId)
        ledgerState := jsonb env.toHost (.ofOption Ledger.toValue s.compactionLedger) }

/-- `retention::write`: the rows of the telemetry tables a verified archive allows to drop. -/
def retentionWrite (env : Deployment) (s : Session) (t : Tables) : Sql Tables := do
  match s.retentionPending with
  | none => .ok t
  | some item =>
    require (s.executionOwner.isSome && s.status ≠ .active && s.pendingToolCalls.isEmpty &&
      (item.index "snapshot_revision").asI64 = some (s.revision - 1))
      "retention requires terminal owned matching revision"
    require (!t.runs.any (·.status = "running") &&
      !t.executions.any fun r => !r.execution.status.terminal)
      "unresolved recovery evidence prevents pruning"
    require (["agent_session_events", "agent_session_diagnostics"].all fun table =>
      ((item.index "table_sha256").index table).asStr = some (env.tableSha256 table s.id item))
      "archive telemetry digest differs; nothing pruned"
    let cutoff (family : String) : Int :=
      min (((((item.index "watermarks").index "diagnostics").index family).asI64).getD 0)
        ((lookup family s.diagnosticCounts).getD 0 -
          ((item.index "keep_diagnostics").asI64).getD 0)
    let watermark := ((item.index "watermarks").index "events").asI64.getD 0
    let keep := (((item.index "keep_events").asI64).getD 0).toNat
    let dropped := t.events.take (t.events.length - keep)
    let kept := t.events.drop (t.events.length - keep)
    return { t with
      diagnostics := t.diagnostics.filter fun r => cutoff r.family < r.ordinal
      events := dropped.filter (fun r => watermark < r.eventId) ++ kept }

/-! ## The transaction -/

/-- The kinds of events whose commit answers their command. -/
def answers (kind : String) : Bool :=
  ["session_created", "user_message_appended", "run_finished", "telemetry_archived",
    "run_reconciled"].contains kind

/-- What a commit does to its command besides. -/
def outcomeOf (s : Session) (kind : String) : Commands.Outcome :=
  if kind = "run_finished" ∧ s.runStatus = .blocked then .blocked
  else if answers kind then
    let message := if kind = "session_created" then
        "Session created with immutable config " ++ s.configRef.getD "" ++ "@" ++
          .ofList ((s.configSha256.getD "").toList.take 12) ++ "."
      else if kind = "user_message_appended" then "User input appended to session memory."
      else s.finalAnswer.getD "Run stopped."
    .finish (if kind = "session_created" then 201 else 200)
      (.obj [("session", { s with pendingTranscript := [] }.toValue), ("message", .str message)])
  else .none

/-- The session a commit leaves the worker with. -/
def settled (s : Session) : Session :=
  { s with
    pendingTranscript := [], pendingExecutionOutbox := [], diagnosticsPending := [],
    pendingCommitId := none, pendingCommitFingerprint := none, attemptsPending := [],
    retentionPending := none }

/-- The last look at the lease, by a session that has an owner. -/
def checkLease (env : Deployment) (clock : Int) (s : Session) (row : SessionRow) : Sql Unit :=
  match s.executionOwner with
  | none => .ok ()
  | some text => match env.parseUuid text with
    | none => protocol "invalid execution owner"
    | some owner => require (row.leaseOwner = some owner && s.executionFence = some row.leaseFence &&
        row.leaseLive clock) "lease lost: final fence check rejected commit"

/-- The row the first `INSERT` makes. -/
def firstRow (env : Deployment) (s : Session) (config : Value) : SessionRow :=
  { state := .null, config := jsonb env.toHost config, configRef := s.configRef
    configSha256 := s.configSha256, resolvedConfigSha256 := s.resolvedConfigSha256 }

/-- `save_inner` from the revision check on: the new tables of the session and the session as it is
now, or why the transaction is rolled back. `eventId` is the number the sequence gives out. -/
def applyCommit (env : Deployment) (clock : Int) (now : String) (command : Command)
    (commitId fingerprint : String) (eventId : Int) (t : Tables) (s : Session)
    (config event : Value) :
    Sql (Tables × Session) := do
  checkPrevious env clock s config t.session
  let stored := t.session.elim 0 SessionRow.revision
  let maximum := maxSequence t.transcript
  require ((t.transcript.length : Int) = maximum) "transcript sequence gap detected"
  validatePreviousTranscript env t maximum
  let appended ← appendEntries env ⟨t.transcript, s.memory, maximum + 1⟩ s.pendingTranscript
  let (transcript, next) ← appendSummaries env s.goal s.stepCount now appended.rows appended.next
    s.compactionProvenance
  let calls ← writeCallMap t.calls s.pendingTranscript
  let diagnostics ← writeDiagnostics env s t.diagnostics
  let runs ← writeRunState env now s t.runs
  let (executions, attempts) ← writeToolExecutions env s t.executions t.attempts
  let memory ← refreshMemory transcript appended.memory
  let s := { s with revision := stored + 1, nextTranscriptSequence := next, memory }
  let context ← writeContext env s
  let t ← retentionWrite env s { t with
    transcript, calls, diagnostics, runs, executions, attempts, context := some context }
  require (!t.receipts.any fun r => r.committedRevision = s.revision)
    "duplicate key value violates unique constraint"
  let event := (event.set "command_id" (.str command.id)).set "run_id" (.ofStr? s.runId)
  let row := t.session.getD (firstRow env s config)
  checkLease env clock s row
  let persisted := { s with pendingTranscript := [], pendingCommitId := none }
  return ({ t with
    receipts := t.receipts ++ [⟨commitId, command.id, fingerprint, stored, s.revision⟩]
    events := t.events ++ [⟨eventId, jsonb env.toHost event, s.revision, commitId, command.id⟩]
    session := some { row with
      state := jsonb env.toHost (Integrity.snapshot env.toHost persisted), revision := s.revision,
      lastCommitId := some commitId, lastCommitSha256 := some fingerprint } }, s)

/-- The outcome of one execution of `save_inner`; `stored` is what it stored. -/
structure Commit where
  stored : Option Session := none
  result : Sql Unit
  session : Session
  db : Db

def failed (message : String) (s : Session) (db : Db) : Commit :=
  { result := protocol message, session := s, db }

/-- The answer of a commit identity that has a receipt. -/
def fromReceipt (fingerprint : String) (receipt : Receipt) (s : Session) (db : Db) : Commit :=
  if receipt.fingerprint ≠ fingerprint then
    failed "commit identity reused with changed payload" s db
  else
    { db, result := .ok (), session := { s with
        needsReload := (db.tables s.id).session.elim false fun row =>
          row.revision ≠ receipt.committedRevision
        revision := receipt.committedRevision
        pendingCommitId := none, pendingCommitFingerprint := none, pendingTranscript := []
        pendingExecutionOutbox := [], diagnosticsPending := [], attemptsPending := [] } }

/-- The answer of the last commit of a session, from its row. -/
def fromRow (fingerprint : String) (row : SessionRow) (s : Session) (db : Db) : Commit :=
  if row.lastCommitSha256 ≠ some fingerprint then
    failed "commit identity reused with changed content" s db
  else
    { db, result := .ok (), session := { s with
        revision := row.revision, pendingTranscript := [], pendingExecutionOutbox := []
        diagnosticsPending := [], pendingCommitId := none } }

/-- Applies a commit that has neither. -/
def applied (env : Deployment) (now : String) (command : Command) (commitId fingerprint : String)
    (s : Session) (config event : Value) (db : Db) : Commit :=
  match applyCommit env db.clock now command commitId fingerprint (db.eventSequence + 1)
    (db.tables s.id) s config event with
  | .error e => { result := .error e, session := s, db }
  | .ok (t, s') =>
    let kind := ((event.index "type").asStr).getD ""
    let origin := if kind = "run_interrupted" ∨ kind = "run_reconciled" then
      s.runCommandId else none
    let query := Query.guarded command.id command.owner command.fence (some s.id) origin
      (outcomeOf s' kind)
    { stored := some (settled s'), result := .ok (), session := settled s'
      db := { db.set s.id t with
        commands := (query.run db.commands).2, eventSequence := db.eventSequence + 1 } }

/-- The part of `save_inner` in the transaction. -/
def transact (env : Deployment) (now : String) (commitId fingerprint : String) (s : Session)
    (config event : Value) (db : Db) : Commit :=
  match s.command with
  | none => failed "durable command required" s db
  | some command =>
    if !db.commands.rows.any fun r => r.commandId = command.id then
      failed "no rows returned by a query that expected to return at least one row" s db
    else match (db.tables s.id).receipts.find? fun r => r.commitId = commitId with
    | some receipt => fromReceipt fingerprint receipt s db
    | none =>
      if !db.commands.guard command.id command.owner command.fence then
        failed "command lease lost" s db
      else match (db.tables s.id).session.filter fun row => row.lastCommitId = some commitId with
      | some row => fromRow fingerprint row s db
      | none => applied env now command commitId fingerprint s config event db

/-- The session once its proposal has a fingerprint. -/
def fingerprinted (s : Session) (fingerprint : String) : Session :=
  { s with pendingCommitFingerprint := some fingerprint }

/-- `save_inner`, for a session whose messages are all staged. -/
def saveInner (env : Deployment) (now : String) (s : Session) (config event : Value) (db : Db) :
    Commit :=
  match s.pendingCommitId.bind env.parseUuid with
  | none => failed "invalid commit identity" s db
  | some commitId => match commitFingerprint env s config event with
    | .error e => { result := .error e, session := s, db }
    | .ok fingerprint =>
      if s.pendingCommitFingerprint.any (· ≠ fingerprint) then
        failed "retained commit proposal changed" s db
      else transact env now commitId fingerprint (fingerprinted s fingerprint) config event db

/-! ## Loading -/

/-- The last rows of each family, or all of them where the state has no counters, by family and
number. -/
def recentDiagnostics (rows : List DiagnosticRecord) (legacy : Bool) : List DiagnosticRecord :=
  ["compaction_attempts", "compaction_decisions", "compaction_events"].flatMap fun family =>
    let rows := (rows.filter fun r => r.family = family).insertionSort fun a b =>
      a.ordinal ≤ b.ordinal
    if legacy then rows else rows.drop (rows.length - Diagnostics.recent)

/-- The last number of each family. -/
def diagnosticTotals (rows : List DiagnosticRecord) : List (String × Int) :=
  Diagnostics.families.map fun family => (family, maxOrdinal rows family)

/-- `diagnostics::hydrate` on what `load` reads of the journal. -/
def hydrated (t : Tables) (s : Session) : Except String Session :=
  Diagnostics.hydrate (recentDiagnostics t.diagnostics s.diagnosticCounts.isEmpty)
    (diagnosticTotals t.diagnostics) s

/-- `load`, as far as the session tables decide it: the anchors hold, the revisions agree, and the
context names the messages the state was sealed with. -/
def load (env : Deployment) (db : Db) (id : String) : Option (Session × Value) := do
  let id ← env.parseUuid id
  let t := db.tables id
  let row ← t.session
  let context ← t.context
  (Integrity.validateSnapshot env.toHost row.state).toOption
  let s ← restored t row.state
  (Integrity.validateContext env.toHost row.state s).toOption
  guard (s.revision = row.revision)
  let s ← (hydrated t s).toOption
  let goal ← s.memory.head?.bind (·.messageId)
  guard (context.revision = row.revision ∧ context.goalMessageId = goal ∧
    context.ledgerRecordId = s.activeLedgerId)
  guard (context.rawMessageIds.eqv (.arr (s.memory.tail.map fun m => .ofStr? m.messageId)))
  guard (context.ledgerState.eqv (.ofOption Ledger.toValue s.compactionLedger))
  let executions := (t.executions.filter fun r =>
      s.pendingToolCalls.any fun call => (call.index "id").asStr = some r.execution.callId).map
    fun r => { r.execution with
      attemptRecords := t.attempts.filter fun a => a.executionId = r.execution.executionId }
  return ({ s with executions }, row.config)

end Storage

end StateDrivenAgent
