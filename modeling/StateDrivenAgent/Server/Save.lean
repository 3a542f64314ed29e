import StateDrivenAgent.Agent.Actions

/-!
# Saving a session

`save`: gives every message its identity, freezes the proposal under a commit identity, and tries the
transaction until its outcome is known, three times at most. A failed save puts the proposal's own
numbers back, so that the same proposal can be made again.
-/

namespace StateDrivenAgent

open Interaction

/-- Functions of the server on a session, with a database error. -/
abbrev SaveM (α : Type) : Type := Proc Eff Reply Session SqlError α

namespace Server

def protocol (message : String) : SqlError := .other message

/-- An operation whose failure is a protocol error. -/
def liftOp (f : StateOp) : SaveM Unit := Proc.step fun s =>
  match f s with
  | (.ok (), s') => (.ok (), s')
  | (.error e, s') => (.error (protocol e), s')

/-- `Session::archive_record` from the server. -/
def archive (kind : String) (payload : Value) : SaveM Unit := fun s =>
  (archiveRecord kind payload s).bind fun out => .ret (out.1.mapError protocol, out.2)

/-- The entry of a message that is not archived yet. -/
def entryOf (s : Session) (m : Message) (id createdAt : String) : TranscriptEntry :=
  { sequence := s.nextTranscriptSequence, messageId := id, kind := "message"
    payload := Context.wireMessage m.toMessageBody, runId := none, decisionStep := s.stepCount
    createdAt }

/-- `stage_transcript`; `done` are the messages that are staged already. -/
def stageMessages (done : List Message) : List Message → SaveM Unit
  | [] => Proc.update fun s => { s with memory := done }
  | m :: rest =>
    if m.sequence.isSome ∧ m.messageId.isSome ∧ m.createdAt.isSome then stageMessages (done ++ [m]) rest
    else do
      let id ← (Proc.request (Eff.uuid []) : SaveM String)
      let createdAt ← (Proc.request Eff.now : SaveM String)
      let s ← (Proc.state : SaveM Session)
      Proc.update fun s => { s with
        nextTranscriptSequence := s.nextTranscriptSequence + 1
        pendingTranscript := s.pendingTranscript ++ [entryOf s m id createdAt] }
      stageMessages (done ++ [{ m with
        messageId := some id, sequence := some s.nextTranscriptSequence
        createdAt := some createdAt }]) rest

/-- `stage_transcript`. -/
def stageTranscript : SaveM Unit := do
  let s ← (Proc.state : SaveM Session)
  stageMessages [] s.memory

/-- The entry of an accepted summary. -/
def stageSummary (provenance : Value) : SaveM Unit := do
  let s ← (Proc.state : SaveM Session)
  match (provenance.index "transcript_record_id").asStr.filter
    fun id => !s.committedSummaries.contains id with
  | none => pure ()
  | some record =>
    if s.pendingTranscript.any fun x => x.messageId = record then pure ()
    else do
      let createdAt ← (Proc.request Eff.now : SaveM String)
      Proc.update fun s => { s with
        nextTranscriptSequence := s.nextTranscriptSequence + 1
        pendingTranscript := s.pendingTranscript ++ [{
          sequence := s.nextTranscriptSequence, messageId := record, kind := "compaction_summary"
          payload := provenance.index "transcript_payload", runId := s.runId
          decisionStep := s.stepCount, createdAt }] }

def stageSummaries : List Value → SaveM Unit
  | [] => pure ()
  | provenance :: rest => do
    stageSummary provenance
    stageSummaries rest

/-- `transcript_event_record`. -/
def transcriptEventRecord (event : Value) (s : Session) : Option (String × Value) :=
  match (event.index "type").asStr with
  | some "run_finished" => some ("run_finished", .obj [
      ("reason", .str (s.runTerminationReason.getD s.runStatus.text)),
      ("status", .str s.runStatus.text)])
  | some "run_interrupted" | some "run_reconciled" => some ("run_interrupted", .obj [
      ("run_id", .ofStr? s.runId), ("reason", event.index "reason"),
      ("status", .str s.runStatus.text)])
  | _ => none

def archiveEvent (event : Value) : SaveM Unit := do
  let s ← (Proc.state : SaveM Session)
  match transcriptEventRecord event s with
  | some (kind, payload) => archive kind payload
  | none => pure ()

/-- Freezes the proposal, unless one is frozen already. -/
def freeze (event : Value) : SaveM Unit := do
  let s ← (Proc.state : SaveM Session)
  if s.pendingCommitId.isSome then pure ()
  else do
    stageSummaries s.compactionProvenance
    archiveEvent event
    let id ← (Proc.request (Eff.uuid []) : SaveM String)
    Proc.update fun s => { s with pendingCommitId := some id }

/-- The transaction, repeated while its outcome is unresolved. -/
def tryCommit (staged : Session) (config event : Value) : Nat → SaveM TransactReply
  | 0 => Proc.request (Eff.transact staged config event)
  | retries + 1 => do
    let r ← (Proc.request (Eff.transact staged config event) : SaveM TransactReply)
    match r.result with
    | .error e => if e.unresolved then tryCommit staged config event retries else return r
    | .ok () => return r

/-- The summaries whose entry is committed now. -/
def commitSummaries (s : Session) : Session :=
  { s with committedSummaries := s.compactionProvenance.foldl (fun ids p =>
      match (p.index "transcript_record_id").asStr with
      | some id => if ids.contains id then ids else ids ++ [id]
      | none => ids) s.committedSummaries }

/-- Tells the engine through the shared cell, if there is one. -/
def acknowledge (s : Session) : Session :=
  { s with checkpointAck := s.checkpointAck.map fun _ => {
      needsReload := s.needsReload, revision := s.revision
      nextSequence := s.nextTranscriptSequence, memory := s.memory
      summaries := s.committedSummaries } }

/-- What a failed save leaves: the proposal with its own numbers. -/
def restore (staged proposal : Session) : Session :=
  { proposal with
    revision := staged.revision, nextTranscriptSequence := staged.nextTranscriptSequence
    memory := staged.memory, pendingTranscript := staged.pendingTranscript
    pendingExecutionOutbox := staged.pendingExecutionOutbox }

/-- The error a failed save reports. -/
def reported (e : SqlError) : SqlError :=
  if e.unresolved then protocol ("commit_outcome_unresolved: " ++ e.message) else e

/-- `save`. -/
def save (config event : Value) : SaveM Unit := do
  liftOp Diagnostics.stage
  stageTranscript
  freeze event
  let staged ← (Proc.state : SaveM Session)
  if staged.needsReload then Proc.fail (protocol "Historical receipt requires reload")
  else do
    let r ← tryCommit staged config event 2
    match r.result with
    | .ok () => Proc.update fun _ => acknowledge (commitSummaries r.session)
    | .error e => do
      Proc.update fun _ => restore staged r.session
      Proc.fail (reported e)

end Server

end StateDrivenAgent
