import StateDrivenAgent.Agent.Encode

/-!
# Reading sessions back

What serde derives for reading a session, for the properties a stored session has: a missing or
`null` property of an optional field reads as absent, a missing property with a default reads as its
default, and anything of another type is an error (`none` here; its text is not used). What is
`skip` reads as its default, whatever is stored.
-/

namespace StateDrivenAgent

namespace Decode

def str (v : Value) (k : String) : Option String := (v.get k).bind Value.asStr

def int (v : Value) (k : String) : Option Int := (v.get k).bind Value.asI64

/-- An optional property read by `f`. -/
def optional {α : Type} (f : Value → Option α) (v : Value) (k : String) : Option (Option α) :=
  match v.get k with
  | none | some .null => some none
  | some x => (f x).map some

/-- A property read by `f` that may be missing. -/
def defaulted {α : Type} (f : Value → Option α) (d : α) (v : Value) (k : String) : Option α :=
  match v.get k with
  | none => some d
  | some x => f x

def list {α : Type} (f : Value → Option α) (v : Value) : Option (List α) :=
  v.asArray.bind fun items => items.mapM f

def nat (v : Value) : Option Nat := v.asU64

def status : Value → Option Status
  | .str "active" => some .active
  | .str "complete" => some .complete
  | .str "failed" => some .failed
  | _ => none

def runStatus : Value → Option RunStatus
  | .str "idle" => some .idle
  | .str "running" => some .running
  | .str "complete" => some .complete
  | .str "failed" => some .failed
  | .str "blocked" => some .blocked
  | .str "cancelled" => some .cancelled
  | .str "interrupted" => some .interrupted
  | _ => none

def message (v : Value) : Option Message := do
  return {
    messageId := ← optional Value.asStr v "message_id"
    sequence := ← optional Value.asI64 v "sequence"
    createdAt := ← optional Value.asStr v "created_at"
    role := ← str v "role"
    content := ← optional Value.asStr v "content"
    name := ← optional Value.asStr v "name"
    toolCallId := ← optional Value.asStr v "tool_call_id"
    toolCalls := ← optional some v "tool_calls" }

def transition (v : Value) : Option Transition := do
  return { fromPhase := ← str v "from_phase", toPhase := ← str v "to_phase", reason := ← str v "reason" }

def workflow (v : Value) : Option Workflow := do
  return {
    activePhase := ← optional Value.asStr v "active_phase"
    completedPhases := ← defaulted (list Value.asStr) [] v "completed_phases"
    observedEvidence := ← defaulted (list Value.asStr) [] v "observed_evidence"
    transitions := ← defaulted (list transition) [] v "transitions" }

def ledger (v : Value) : Option Ledger := do
  return {
    goal := ← str v "goal"
    modelClaims := ← (v.get "model_claims").bind (list Value.asStr)
    deadEnds := ← (v.get "dead_ends").bind (list Value.asStr)
    hypothesis := ← str v "hypothesis"
    sourceSha256 := ← str v "source_sha256"
    verification := ← str v "verification" }

def requestBudget (v : Value) : Option RequestBudget := do
  return {
    estimatedInputTokens := ← int v "estimated_input_tokens"
    reservedOutputTokens := ← int v "reserved_output_tokens"
    safetyMarginTokens := ← int v "safety_margin_tokens"
    contextWindowTokens := ← int v "context_window_tokens"
    fits := ← (v.get "fits").bind Value.asBool
    estimator := ← str v "estimator" }

def counts (v : Value) : Option (List (String × Int)) :=
  v.asObject.bind fun fields => fields.mapM fun f => f.2.asI64.map fun i => (f.1, i)

/-- Reading a session; the transcript outbox and the executions are not part of a stored state. -/
def session (v : Value) : Option Session := do
  return {
    runCommandId := ← optional Value.asStr v "run_command_id"
    lastArchiveId := ← optional Value.asStr v "last_archive_id"
    id := ← str v "id"
    goal := ← str v "goal"
    revision := ← defaulted Value.asI64 0 v "revision"
    nextTranscriptSequence := ← defaulted Value.asI64 1 v "next_transcript_sequence"
    historyComplete := ← defaulted Value.asBool true v "history_complete"
    configRef := ← optional Value.asStr v "config_ref"
    configSha256 := ← optional Value.asStr v "config_sha256"
    resolvedConfigSha256 := ← optional Value.asStr v "resolved_config_sha256"
    memory := ← defaulted (list message) [] v "memory"
    compactedContext := ← optional Value.asStr v "compacted_context"
    activeLedgerId := ← optional Value.asStr v "active_ledger_id"
    compactionEvents := ← defaulted (list Value.asStr) [] v "compaction_events"
    compactionAttempts := ← defaulted (list some) [] v "compaction_attempts"
    compactionDecisions := ← defaulted (list some) [] v "compaction_decisions"
    diagnosticCounts := ← defaulted counts [] v "diagnostic_counts"
    diagnosticsComplete := ← defaulted Value.asBool true v "diagnostics_complete"
    diagnosticHistoryComplete := ← defaulted Value.asBool true v "diagnostic_history_complete"
    diagnosticRejections := ← defaulted Value.asI64 0 v "diagnostic_rejections"
    compactionSavingsTotal := ← defaulted Value.asI64 0 v "compaction_savings_total"
    compactionSavingsKnown := ← defaulted Value.asBool true v "compaction_savings_known"
    compactionLedger := ← optional ledger v "ledger_state"
    lastCompactionStep := ← defaulted Value.asI64 0 v "last_compaction_step"
    lastCompactionEstimatedTokens := ← optional Value.asI64 v "last_compaction_estimated_tokens"
    lastCompactionAttemptStep := ← optional Value.asI64 v "last_compaction_attempt_step"
    lastCompactionAttemptSha256 := ← optional Value.asStr v "last_compaction_attempt_sha256"
    requestBudget := ← optional requestBudget v "request_budget"
    workflow := ← optional workflow v "workflow"
    stepCount := ← defaulted Value.asI64 0 v "step_count"
    runCount := ← defaulted Value.asI64 0 v "run_count"
    runId := ← optional Value.asStr v "run_id"
    runStartedAt := ← optional Value.asStr v "run_started_at"
    runEndedAt := ← optional Value.asStr v "run_ended_at"
    runTerminationReason := ← optional Value.asStr v "run_termination_reason"
    status := ← (v.get "status").bind status
    runStatus := ← (v.get "run_status").bind runStatus
    finalAnswer := ← optional Value.asStr v "final_answer"
    lastError := ← optional some v "last_error"
    consecutiveInvalidResponses := ← defaulted nat 0 v "consecutive_invalid_responses"
    modelRequestDiagnostics := ← defaulted (list some) [] v "model_request_diagnostics"
    completionArtifacts := ← defaulted some (.obj []) v "completion_artifacts"
    noProgressSteps := ← defaulted nat 0 v "no_progress_steps"
    progressFingerprint := ← optional Value.asStr v "progress_fingerprint"
    progressSeenOutputs := ← defaulted (list Value.asStr) [] v "progress_seen_outputs"
    pendingToolCalls := ← defaulted (list some) [] v "pending_tool_calls"
    pendingToolPhase := ← optional Value.asStr v "pending_tool_phase" }

end Decode

end StateDrivenAgent
