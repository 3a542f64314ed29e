import StateDrivenAgent.Go.Engine

/-!
# The server of the Go runtime

`history_store.go` and the handlers of `main.go`, as far as they change a session and save it. A
session a handler begins with has just been fetched, or created: nothing in it is staged, and no
commit identity is kept in it. The identity of a commit is chosen by the first try of a save, and
given up by a save that succeeds.
-/

namespace StateDrivenAgent

open Interaction

namespace Go

/-- The durable command a request runs under. -/
structure Command where
  id : String
  namespaceId : String

/-- What a commit is identified by, besides the command: the list under `commitFingerprint`. -/
structure Preimage where
  id : String
  commandId : String
  revision : Int
  /-- The hot snapshot: the session without the process's own fields. -/
  hot : Session
  memory : List Message
  compactedContext : Option String
  compactionLedger : Option Ledger
  transcriptPending : List TranscriptEntry
  executions : List ExecutionRecord
  attempts : List AttemptRow
  diagnosticsPending : List DiagnosticRecord
  retentionPending : Option Value
  config : String
  event : Value

structure Server where
  engine : Engine
  command : Command
  /-- `ConfigIdentity` of the stored configuration. -/
  configIdentity : Except String String
  /-- `DigestV2` of the preimage of a commit. -/
  digest : Preimage → Except String String

/-- `HotSnapshot`: without the fields that are not part of the stored state. -/
def Session.hotSnapshot (s : Session) : Session :=
  { s with
    commandId := "", deploymentNamespace := "", attemptsPending := [], needsReload := false
    transcriptPending := [], executionPending := [], retentionPending := none
    pendingCommitId := none, executionOwner := none, executionFence := none
    executionMaintenance := false, executions := [], memory := [], compaction := {} }

def preimage (s : Session) (config : String) (event : Value) : Preimage :=
  { id := s.id, commandId := s.commandId, revision := s.revision, hot := s.hotSnapshot
    memory := s.memory, compactedContext := s.compaction.compactedContext
    compactionLedger := s.compaction.compactionLedger, transcriptPending := s.transcriptPending
    executions := s.executionPending, attempts := s.attemptsPending
    diagnosticsPending := s.compaction.diagnosticsPending, retentionPending := s.retentionPending
    config, event }

/-- A session whose proposal is committed: the outboxes are empty, the identity is given up. -/
def Session.committed (revision : Int) (needsReload : Bool) (s : Session) : Session :=
  { s with
    revision, needsReload, transcriptPending := [], executionPending := [], attemptsPending := []
    compaction := { s.compaction with diagnosticsPending := [] }
    retentionPending := none, pendingCommitId := none }

namespace Server

variable (srv : Server)

def revisionConflict : Failure := .failed "session revision conflict"

/-- The event as it is saved: with the command and the run. -/
def stamped (event : Value) (s : Session) : Value :=
  (event.set "command_id" (.str srv.command.id)).set "run_id" (.ofStr? s.runId)

/-- The proposal of a prepared session, with its fingerprint and its event. -/
def proposal (event : Value) (s : Session) : Except Failure (Session × String × Value) :=
  let event := srv.stamped event s
  match srv.configIdentity with
  | .error m => .error (.failed m)
  | .ok identity =>
    if s.resolvedConfigSha256 ≠ "" ∧ s.resolvedConfigSha256 ≠ identity then
      .error (.failed "immutable resolved configuration changed")
    else
      let proposal := { s with resolvedConfigSha256 := identity }
      match srv.digest (preimage proposal identity event) with
      | .error m => .error (.failed m)
      | .ok fingerprint => .ok (proposal, fingerprint, event)

/-- The identity of the commit, chosen unless there is one. -/
def chooseCommitId : GoM Unit := do
  let s ← GoM.get
  match s.pendingCommitId with
  | some _ => pure ()
  | none => do
    let id ← GoM.uuid
    GoM.modify fun s => { s with pendingCommitId := some id }

/-- The first half of `saveOnce`: the identity of the commit, the messages, and the proposal. -/
def propose (event : Value) : GoM (Session × String × Value) := do
  let s ← GoM.get
  if s.needsReload then Proc.fail revisionConflict
  else do
    GoM.modify fun s => { s with
      commandId := srv.command.id, deploymentNamespace := srv.command.namespaceId }
    chooseCommitId
    stageMessages
    let s ← GoM.get
    Proc.ofExcept (srv.proposal event s)

/-- The second half of `saveOnce`: the transaction, and what its outcome makes of the session; with
an error it tells whether `save` tries again. -/
def submit (proposal : Session) (fingerprint : String) (event : Value) :
    GoM (Except (Failure × Bool) Unit) := do
  let reply ← (Proc.request (Ask.transact proposal fingerprint event) : GoM TransactReply)
  match reply with
  | .committed revision => do
    GoM.modify fun _ => proposal.committed revision proposal.needsReload
    return .ok ()
  | .receipt committed latest => do
    GoM.modify fun _ => proposal.committed committed (latest ≠ committed)
    return .ok ()
  | .failed err again _ => return .error (err, again)

/-- `saveOnce`. -/
def saveOnce (event : Value) : GoM (Except (Failure × Bool) Unit) := do
  match ← Proc.attempt (srv.propose event) with
  | .error err => return .error (err, false)
  | .ok (proposal, fingerprint, event) => submit proposal fingerprint event

/-- The tries of `save`; the count is what is left of them. -/
def saveFrom (event : Value) : Nat → GoM Unit
  | 0 => pure ()
  | left + 1 => do
    match ← srv.saveOnce event with
    | .ok () => pure ()
    | .error (err, again) => if again ∧ left ≠ 0 then saveFrom event left else Proc.fail err

/-- `save`. -/
def save (event : Value) : GoM Unit := do
  GoM.mark .save
  srv.saveFrom event 3

/-! ## Handlers -/

/-- A run left behind by a worker is closed. -/
def closeAbandoned : GoM Unit := do
  let s ← GoM.get
  match s.runId with
  | some oldRun =>
    GoM.when (s.runStatus = .running) do
      let ended ← GoM.now
      let reason := "previous_worker_abandoned"
      GoM.modify fun s => { s with
        runStatus := .interrupted, runEndedAt := some ended, runTerminationReason := some reason }
      archive "run_interrupted" (.obj [("run_id", .str oldRun), ("reason", .str reason)])
      srv.save (.obj [("type", .str "run_interrupted"), ("run_id", .str oldRun),
        ("reason", .str reason)])
  | none => pure ()

/-- What `execute` makes of an error of the run, a cancellation apart. -/
def failRun (outcome : Except Failure Unit) (s : Session) : Session :=
  match outcome with
  | .error (.failed m) =>
    let message := "Agent run failed: " ++ m
    { s with
      status := .failed, lastError := some (.obj [("message", .str message)])
      finalAnswer := some message }
  | _ => s

/-- The outcome `execute` returns. -/
def outcomeOf (outcome : Except Failure Unit) : Except Failure Unit :=
  match outcome with
  | .error (.failed m) => .error (.failed m)
  | _ => .ok ()

/-- `execute`. -/
def execute (emit : Emit) (max : Int) : GoM Unit := do
  GoM.modify fun s => { s with
    commandId := srv.command.id, deploymentNamespace := srv.command.namespaceId }
  srv.closeAbandoned
  let outcome ← Proc.attempt (srv.engine.run emit max)
  GoM.modify (failRun outcome)
  let done ← (Proc.request Ask.contextDone : GoM Bool)
  let s ← GoM.get
  if done ∧ s.executionOwner.isSome then Proc.fail (.failed "context canceled")
  else do
    srv.save (.obj [("type", .str "run_finished"), ("status", .str s.status.text)])
    Proc.ofExcept (outcomeOf outcome)

/-- `run`. -/
def handleRun (maxSteps : Int) : GoM Unit := do
  let s ← GoM.get
  GoM.when (s.status = .active) (srv.execute srv.save maxSteps)

/-- `resume` on the session: new content, and the counters of the run start again. -/
def reopen (content : String) : GoM Unit := do
  GoM.when (content ≠ "") (appendMessage (userMessage content))
  GoM.modify fun s => { s with
    status := .active, finalAnswer := none, consecutiveInvalidResponses := 0, noProgressSteps := 0
    progressFingerprint := "", lastError := none }

def statusEvent (message : String) : Value :=
  .obj [("type", .str "status"), ("message", .str message)]

/-- `streamCommon`. -/
def handleStream (resume : Bool) (content : String) (maxSteps : Int) : GoM Unit := do
  let s ← GoM.get
  if !resume ∧ s.status ≠ .active then pure ()
  else if resume ∧ content ≠ "" ∧ !s.pendingToolCalls.isEmpty then pure ()
  else do
    GoM.when resume do
      reopen content
      srv.save (statusEvent "Session restored from PostgreSQL; resuming agent work.")
    GoM.when srv.engine.config.verboseSetup <|
      srv.save (statusEvent "Agent initialized from persisted session state.")
    srv.execute srv.save maxSteps

/-- `message`. -/
def handleMessage (content : String) : GoM Unit := do
  let s ← GoM.get
  GoM.when (s.status = .active ∧ s.pendingToolCalls.isEmpty ∧ content ≠ "") do
    appendMessage (userMessage content)
    GoM.modify fun s => { s with noProgressSteps := 0, progressFingerprint := "" }
    srv.save (.obj [("type", .str "user_message_appended")])

/-- `create`, on the new session. -/
def handleCreate : GoM Unit := do
  let s ← GoM.get
  appendMessage (userMessage s.goal)
  srv.save (.obj [("type", .str "session_created"), ("config_ref", .str s.configRef),
    ("config_sha256", .str s.configSha256)])

/-- One candidate of `reconcileAbandoned`. -/
def handleReconcile (run : String) : GoM Unit := do
  let s ← GoM.get
  GoM.when (s.runId = some run ∧ s.runStatus = .running) do
    let ended ← GoM.now
    let message := "Abandoned run detected; use /resume to reconcile pending work."
    GoM.modify fun s => if s.status = .complete then
        { s with
          runEndedAt := some ended, runStatus := .complete
          runTerminationReason := some "terminal_snapshot_recovered" }
      else { s with
        runEndedAt := some ended, status := .failed, runStatus := .interrupted
        finalAnswer := some message
        lastError := some (recoverableRecord "run_abandoned" message)
        runTerminationReason := some "worker_abandoned" }
    let s ← GoM.get
    srv.save (.obj [("type", .str "run_interrupted"), ("run_id", .str run),
      ("status", .str s.runStatus.text), ("reason", .ofStr? s.runTerminationReason)])

/-- The end of the retention of an archive. -/
def handleRetention (archiveId : String) (plan : Value) : GoM Unit := do
  GoM.modify fun s => { s with
    executionMaintenance := true, lastArchiveId := some archiveId
    diagnosticHistoryComplete := false, retentionPending := some plan }
  srv.save (.obj [("type", .str "telemetry_archived"), ("archive_id", .str archiveId)])

/-- A request that changes a session. -/
inductive Request where
  | create
  | message (content : String)
  | run (maxSteps : Int)
  | stream (maxSteps : Int)
  | resume (content : String) (maxSteps : Int)
  | reconcile (run : String)
  | retention (archiveId : String) (plan : Value)

/-- Serves a request on the session it is about. -/
def handle (request : Request) : GoM Unit := do
  GoM.mark .request
  match request with
  | .create => srv.handleCreate
  | .message content => srv.handleMessage content
  | .run maxSteps => srv.handleRun maxSteps
  | .stream maxSteps => srv.handleStream false "" maxSteps
  | .resume content maxSteps => srv.handleStream true content maxSteps
  | .reconcile run => srv.handleReconcile run
  | .retention archiveId plan => srv.handleRetention archiveId plan

end Server

end Go

end StateDrivenAgent
