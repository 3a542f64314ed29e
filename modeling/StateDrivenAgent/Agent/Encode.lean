import StateDrivenAgent.Agent.Session
import StateDrivenAgent.Identity

/-!
# JSON of the session and the configuration

What serde derives for the agent's types, and what the stored state is sealed with: the snapshot of
a session without its unbounded parts, anchored by the digest of the snapshot and of the active
context (`integrity.rs`), and the digest of the resolved configuration (`main.rs`).
-/

namespace StateDrivenAgent

namespace Value

def ofStrs (l : List String) : Value := .arr (l.map .str)

def ofOption {α : Type} (f : α → Value) : Option α → Value
  | some a => f a
  | none => .null

def ofValue? (v : Option Value) : Value := v.getD .null

/-- The object without these properties. -/
def without (v : Value) (keys : List String) : Value :=
  match v with
  | obj fields => obj (fields.filter fun f => !keys.contains f.1)
  | v => v

end Value

open Value (ofStr? ofInt? ofOption ofValue? ofStrs)

def Message.toValue (m : Message) : Value := .obj [
  ("message_id", ofStr? m.messageId), ("sequence", ofInt? m.sequence),
  ("created_at", ofStr? m.createdAt), ("role", .str m.role), ("content", ofStr? m.content),
  ("name", ofStr? m.name), ("tool_call_id", ofStr? m.toolCallId),
  ("tool_calls", ofValue? m.toolCalls)]

def TranscriptEntry.toValue (e : TranscriptEntry) : Value := .obj [
  ("sequence", .int e.sequence), ("message_id", .str e.messageId), ("kind", .str e.kind),
  ("payload", e.payload), ("run_id", ofStr? e.runId), ("decision_step", .int e.decisionStep),
  ("created_at", .str e.createdAt)]

def Transition.toValue (t : Transition) : Value := .obj [
  ("from_phase", .str t.fromPhase), ("to_phase", .str t.toPhase), ("reason", .str t.reason)]

def Workflow.toValue (w : Workflow) : Value := .obj [
  ("active_phase", ofStr? w.activePhase), ("completed_phases", ofStrs w.completedPhases),
  ("observed_evidence", ofStrs w.observedEvidence),
  ("transitions", .arr (w.transitions.map Transition.toValue))]

def Ledger.toValue (l : Ledger) : Value := .obj [
  ("goal", .str l.goal), ("model_claims", ofStrs l.modelClaims), ("dead_ends", ofStrs l.deadEnds),
  ("hypothesis", .str l.hypothesis), ("source_sha256", .str l.sourceSha256),
  ("verification", .str l.verification)]

def RequestBudget.toValue (b : RequestBudget) : Value := .obj [
  ("estimated_input_tokens", .int b.estimatedInputTokens),
  ("reserved_output_tokens", .int b.reservedOutputTokens),
  ("safety_margin_tokens", .int b.safetyMarginTokens),
  ("context_window_tokens", .int b.contextWindowTokens), ("fits", .bool b.fits),
  ("estimator", .str b.estimator)]

def DiagnosticRecord.toValue (r : DiagnosticRecord) : Value := .obj [
  ("family", .str r.family), ("ordinal", .int r.ordinal), ("payload", r.payload)]

/-- An attempt; its error and its external reference are there once they are known. -/
def Attempt.toValue (a : Attempt) : Value := .obj <| [
  ("attempt_id", .str a.attemptId), ("execution_id", .str a.executionId),
  ("command_id", ofStr? a.commandId), ("attempt_number", .int a.attemptNumber),
  ("kind", .str a.kind.text), ("status", .str a.status.text), ("owner", ofStr? a.owner),
  ("fence", ofInt? a.fence), ("payload_sha256", .str a.payloadSha256),
  ("started_at", .str a.startedAt), ("finished_at", ofStr? a.finishedAt),
  ("evidence", a.evidence)] ++
  (if a.error.isNull then [] else [("error", a.error)]) ++
  (a.externalReference.map fun r => ("external_reference", .str r)).toList

def Execution.toValue (e : Execution) : Value := .obj <| [
  ("execution_id", .str e.executionId), ("run_id", ofStr? e.runId),
  ("command_id", ofStr? e.commandId), ("namespace", .str e.namespaceId),
  ("target", .str e.target), ("call_id", .str e.callId), ("tool", .str e.tool),
  ("arguments", e.arguments), ("policy", e.policy), ("idempotency_key", .str e.idempotencyKey),
  ("payload_sha256", .str e.payloadSha256), ("key_algorithm", .str e.keyAlgorithm),
  ("attempts", .int e.attempts), ("status", .str e.status.text), ("result", ofStr? e.result)] ++
  (e.recipient.map fun r => ("recipient", r)).toList ++
  (e.startedAt.map fun t => ("started_at", ofStr? t)).toList ++
  (e.finishedAt.map fun t => ("finished_at", .str t)).toList ++
  (if e.attemptRecords.isEmpty then [] else
    [("attempt_records", .arr (e.attemptRecords.map Attempt.toValue))])

/-- The session as serde writes it: what is `skip` or `skip_serializing` is not there. -/
def Session.toValue (s : Session) : Value := .obj [
  ("run_command_id", ofStr? s.runCommandId), ("last_archive_id", ofStr? s.lastArchiveId),
  ("id", .str s.id), ("goal", .str s.goal), ("revision", .int s.revision),
  ("next_transcript_sequence", .int s.nextTranscriptSequence),
  ("history_complete", .bool s.historyComplete),
  ("transcript_pending", .arr (s.pendingTranscript.map TranscriptEntry.toValue)),
  ("config_ref", ofStr? s.configRef), ("config_sha256", ofStr? s.configSha256),
  ("resolved_config_sha256", ofStr? s.resolvedConfigSha256),
  ("memory", .arr (s.memory.map Message.toValue)),
  ("compacted_context", ofStr? s.compactedContext),
  ("active_ledger_id", ofStr? s.activeLedgerId),
  ("compaction_events", ofStrs s.compactionEvents),
  ("compaction_attempts", .arr s.compactionAttempts),
  ("compaction_decisions", .arr s.compactionDecisions),
  ("diagnostic_counts", .obj (s.diagnosticCounts.map fun c => (c.1, .int c.2))),
  ("diagnostics_complete", .bool s.diagnosticsComplete),
  ("diagnostic_history_complete", .bool s.diagnosticHistoryComplete),
  ("diagnostic_rejections", .int s.diagnosticRejections),
  ("compaction_savings_total", .int s.compactionSavingsTotal),
  ("compaction_savings_known", .bool s.compactionSavingsKnown),
  ("ledger_state", ofOption Ledger.toValue s.compactionLedger),
  ("last_compaction_step", .int s.lastCompactionStep),
  ("last_compaction_estimated_tokens", ofInt? s.lastCompactionEstimatedTokens),
  ("last_compaction_attempt_step", ofInt? s.lastCompactionAttemptStep),
  ("last_compaction_attempt_sha256", ofStr? s.lastCompactionAttemptSha256),
  ("request_budget", ofOption RequestBudget.toValue s.requestBudget),
  ("workflow", ofOption Workflow.toValue s.workflow), ("step_count", .int s.stepCount),
  ("run_count", .int s.runCount), ("run_id", ofStr? s.runId),
  ("run_started_at", ofStr? s.runStartedAt), ("run_ended_at", ofStr? s.runEndedAt),
  ("run_termination_reason", ofStr? s.runTerminationReason), ("status", .str s.status.text),
  ("run_status", .str s.runStatus.text), ("final_answer", ofStr? s.finalAnswer),
  ("last_error", ofValue? s.lastError),
  ("consecutive_invalid_responses", .int s.consecutiveInvalidResponses),
  ("model_request_diagnostics", .arr s.modelRequestDiagnostics),
  ("completion_artifacts", s.completionArtifacts), ("no_progress_steps", .int s.noProgressSteps),
  ("progress_fingerprint", ofStr? s.progressFingerprint),
  ("progress_seen_outputs", ofStrs s.progressSeenOutputs),
  ("pending_tool_calls", .arr s.pendingToolCalls),
  ("pending_tool_phase", ofStr? s.pendingToolPhase)]

/-! ## Integrity anchors -/

namespace Integrity

/-- The digest of an anchor. -/
def digest (host : Host) (v : Value) : String := host.sha256 (Identity.pythonEncoded host v)

/-- What the context anchor seals. -/
def activeContext (s : Session) : Value := .arr [.arr (s.memory.map Message.toValue),
  ofStr? s.compactedContext, ofOption Ledger.toValue s.compactionLedger]

/-- The parts of a session its snapshot leaves out. -/
def unbounded : List String := ["memory", "compacted_context", "ledger_state", "compaction_ledger",
  "compaction_provenance", "executions", "model_request_diagnostics", "pending_transcript",
  "transcript_pending", "diagnostics_complete", "compaction_events", "compaction_attempts",
  "compaction_decisions"]

def anchors (snapshot context : String) : Value := .obj [("version", .int 1),
  ("snapshot_sha256", .str snapshot), ("context_sha256", .str context)]

/-- `integrity::snapshot`. -/
def snapshot (host : Host) (s : Session) : Value :=
  let v := s.toValue.without unbounded
  v.set "_active_integrity" (anchors (digest host v) (digest host (activeContext s)))

/-- `integrity::validate_snapshot`. -/
def validateSnapshot (host : Host) (v : Value) : Except String Unit :=
  match v with
  | .obj fields => match lookup "_active_integrity" fields with
    | none => .error "missing active integrity anchor"
    | some anchor =>
      let copy := Value.obj (removeField "_active_integrity" fields)
      if !(anchor.index "version").eqv (.int 1) ||
          !(anchor.index "snapshot_sha256").eqv (.str (digest host copy)) then
        .error "snapshot integrity mismatch"
      else .ok ()
  | _ => .error "invalid snapshot"

/-- `integrity::validate_context`. -/
def validateContext (host : Host) (v : Value) (s : Session) : Except String Unit :=
  if ((v.index "_active_integrity").index "context_sha256").eqv
      (.str (digest host (activeContext s))) then .ok ()
  else .error "active context integrity mismatch"

end Integrity

/-! ## The configuration -/

def MemoryPolicy.toValue (m : MemoryPolicy) : Value := .obj [
  ("max_tokens", .int m.maxTokens), ("max_steps", .int m.maxSteps),
  ("raw_turns_to_keep", .int m.rawTurnsToKeep), ("hybrid_reflection", .bool m.hybridReflection),
  ("run_max_steps", ofInt? m.runMaxSteps),
  ("compaction_interval_steps", ofInt? m.compactionIntervalSteps),
  ("context_window_tokens", .int m.contextWindowTokens),
  ("reserved_output_tokens", .int m.reservedOutputTokens),
  ("safety_margin_tokens", .int m.safetyMarginTokens),
  ("max_summary_tokens", .int m.maxSummaryTokens),
  ("summary_output_tokens", .int m.summaryOutputTokens),
  ("compaction_max_attempts", .int m.compactionMaxAttempts),
  ("compaction_max_passes", .int m.compactionMaxPasses),
  ("compaction_min_growth_tokens", .int m.compactionMinGrowthTokens),
  ("compaction_min_interval_steps", .int m.compactionMinIntervalSteps),
  ("optional_compaction_min_pressure_ratio", .num (.float m.optionalCompactionMinPressureRatio)),
  ("optional_compaction_min_reclaimable_tokens", .int m.optionalCompactionMinReclaimableTokens),
  ("optional_compaction_min_reduction_tokens", .int m.optionalCompactionMinReductionTokens),
  ("optional_compaction_min_reduction_ratio", .num (.float m.optionalCompactionMinReductionRatio))]

def Llm.toValue (l : Llm) : Value := .obj [
  ("base_url", .str l.baseUrl), ("api_key_env", .str l.apiKeyEnv),
  ("temperature", .num (.float l.temperature)),
  ("timeout_seconds", .num (.float l.timeoutSeconds)),
  ("tool_call_mode", .str l.toolCallMode), ("max_output_tokens", ofInt? l.maxOutputTokens)]

def Evidence.toValue (e : Evidence) : Value := .obj [
  ("description", .str e.description), ("tool", .str e.tool), ("required", .bool e.required),
  ("arguments", e.arguments), ("result", e.result), ("content_contains", ofStrs e.contentContains)]

def Edge.toValue (e : Edge) : Value := .obj [
  ("to", .str e.to'), ("when", .str e.when'), ("evidence", .arr (e.evidence.map Evidence.toValue))]

def Phase.toValue (p : Phase) : Value := .obj [
  ("id", .str p.id), ("name", .str p.name), ("instruction", .str p.instruction),
  ("allowed_tools", ofOption ofStrs p.allowedTools),
  ("completion", .arr (p.completion.map Evidence.toValue)),
  ("transitions", .arr (p.transitions.map Edge.toValue))]

def WorkflowConfig.toValue (w : WorkflowConfig) : Value := .obj [
  ("entry_phase", .str w.entryPhase), ("phases", .arr (w.phases.map Phase.toValue))]

def Tool.toValue (t : Tool) : Value := .obj [
  ("name", .str t.name), ("description", .str t.description), ("parameters", t.parameters),
  ("recovery", ofValue? t.recovery)]

def Config.toValue (c : Config) : Value := .obj [
  ("name", .str c.name), ("system_prompt", .str c.systemPrompt), ("model", .str c.model),
  ("llm", c.llm.toValue), ("memory", c.memory.toValue),
  ("output", .obj [("verbose_setup", .bool c.verboseSetup)]),
  ("tools", .arr (c.tools.map Tool.toValue)), ("workflow", ofOption WorkflowConfig.toValue c.workflow),
  ("execution", c.execution), ("completion", c.completion)]

namespace ConfigHash

/-- `entry(k).or_insert(v)` on an object; another value is left as it is. -/
def withDefault (k : String) (d : Value) (v : Value) : Value :=
  match v with
  | .obj fields => if (lookup k fields).isSome then v else .obj (fields ++ [(k, d)])
  | v => v

def withDefaults (ds : List (String × Value)) (v : Value) : Value :=
  ds.foldl (fun v d => withDefault d.1 d.2 v) v

/-- Rewrites the property `k` where it is there. -/
def mapField (k : String) (f : Value → Value) (v : Value) : Value :=
  match v with
  | .obj fields => .obj (fields.map fun x => if x.1 = k then (x.1, f x.2) else x)
  | v => v

def mapItems (f : Value → Value) (v : Value) : Value :=
  match v with
  | .arr items => .arr (items.map f)
  | v => v

/-- Removes the property `k` where `p` holds of it. -/
def dropField (k : String) (p : Value → Bool) (v : Value) : Value :=
  if (v.get k).any p then v.without [k] else v

def isEmptyArray (v : Value) : Bool := v.asArray.any List.isEmpty

def executionDefaults : List (String × Value) := [("argument_bindings", .arr []),
  ("tool_policy", .str "auto"), ("max_consecutive_invalid_responses", .int 3),
  ("max_no_progress_steps", .null)]

def completionDefaults : List (String × Value) := [("instructions", .null),
  ("forbidden_patterns", .arr []), ("result_checks", .arr []), ("exact", .null),
  ("pattern", .null), ("json_schema", .null)]

/-- `complete_config_value`. -/
def completeConfigValue (v : Value) : Value :=
  let v := withDefault "execution" (.obj []) v
  let v := mapField "execution" (fun e => mapField "argument_bindings"
    (mapItems (withDefault "path" (.arr []))) (withDefaults executionDefaults e)) v
  let v := withDefault "completion" (.obj []) v
  mapField "completion" (fun c => mapField "result_checks"
    (mapItems (withDefaults [("arguments", .obj []), ("result", .obj []), ("path", .arr []),
      ("answer_path", .arr [])])) (withDefaults completionDefaults c)) v

/-- The memory settings that are left out of the hash at their default. -/
def memoryDefaults : List (String × Value) := [("run_max_steps", .null),
  ("compaction_interval_steps", .null), ("context_window_tokens", .int 32768),
  ("reserved_output_tokens", .int 1024), ("safety_margin_tokens", .int 256),
  ("max_summary_tokens", .int 4096), ("summary_output_tokens", .int 512),
  ("compaction_max_attempts", .int 2), ("compaction_max_passes", .int 3),
  ("compaction_min_growth_tokens", .int 512), ("compaction_min_interval_steps", .int 0),
  ("optional_compaction_min_pressure_ratio", .int 0),
  ("optional_compaction_min_reclaimable_tokens", .int 0),
  ("optional_compaction_min_reduction_tokens", .int 0),
  ("optional_compaction_min_reduction_ratio", .int 0)]

def isZeroRatio (v : Value) : Bool := v.asF64.any F64.isZero

/-- The configuration without what is at its default. -/
def hashedValue (config : Config) : Value :=
  let v := completeConfigValue config.toValue
  let v := mapField "llm" (fun l => dropField "max_output_tokens" Value.isNull
    (dropField "tool_call_mode" (fun m => m.asStr = some "native") l)) v
  let v := mapField "execution" (fun e => dropField "argument_bindings" isEmptyArray
    (dropField "max_no_progress_steps" Value.isNull
      (dropField "tool_policy" (fun p => p.asStr = some "auto") (withDefaults executionDefaults e))))
    v
  let v := mapField "completion" (fun c => dropField "result_checks" isEmptyArray
    (dropField "forbidden_patterns" isEmptyArray (dropField "instructions" Value.isNull
      (withDefaults completionDefaults c)))) v
  let v := mapField "memory" (fun m =>
    dropField "optional_compaction_min_reduction_ratio" isZeroRatio
      (dropField "optional_compaction_min_pressure_ratio" isZeroRatio
        (memoryDefaults.foldl (fun m d => dropField d.1 (·.eqv d.2) m) m))) v
  mapField "tools" (mapItems (dropField "recovery" Value.isNull)) v

/-- `resolved_config_hash`. -/
def resolvedConfigHash (host : Host) (config : Config) : String :=
  host.sha256 (Identity.pythonEncoded host (hashedValue config))

end ConfigHash

end StateDrivenAgent
