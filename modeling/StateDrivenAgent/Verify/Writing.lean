import StateDrivenAgent.Relational.Keyed
import StateDrivenAgent.Verify.Store

/-!
# What a commit writes

A commit that is applied finds the staged transcript entries, diagnostics, executions and attempts in
its tables, or puts them there. Every staged item has one row afterwards (`Written`), under the keys
of the tables (`Keys`), which every commit keeps.
-/

namespace StateDrivenAgent.Storage

open Keyed

variable {env : Deployment} {t t' : Tables} {s : Session}

/-! ## One item -/

/-- What a JSON column holds of a value: the value as it comes back, or one like it. -/
def Stores (env : Deployment) (v w : Value) : Prop := w = jsonb env.toHost v ∨ w.eqv v = true

/-- The row of a staged entry. -/
structure HoldsEntry (env : Deployment) (entry row : TranscriptEntry) : Prop where
  kind : row.kind = entry.kind
  payload : Stores env entry.payload row.payload

/-- The row of a staged diagnostic record. -/
def HoldsDiagnostic (env : Deployment) (item row : DiagnosticRecord) : Prop :=
  Stores env item.payload row.payload

/-- The row of a staged execution. -/
structure HoldsExecution (env : Deployment) (item : Execution) (row : ExecutionRow) : Prop where
  run : row.execution.runId = item.runId
  call : row.execution.callId = item.callId
  tool : row.execution.tool = item.tool
  arguments : Stores env item.arguments row.execution.arguments
  attempts : row.execution.attempts = item.attempts
  status : row.execution.status = item.status
  result : row.execution.result = item.result

/-- The row of a staged attempt. -/
structure HoldsAttempt (env : Deployment) (item row : Attempt) : Prop where
  execution : row.executionId = item.executionId
  number : row.attemptNumber = item.attemptNumber
  kind : row.kind = item.kind
  status : row.status = item.status
  finished : row.finishedAt = item.finishedAt
  reference : row.externalReference = item.externalReference
  evidence : Stores env item.evidence row.evidence
  error : Stores env item.error row.error

theorem appendEntry_puts {a a' : Appending} {entry : TranscriptEntry}
    (h : appendEntry env a entry = .ok a') :
    Puts TranscriptEntry.messageId entry.messageId (HoldsEntry env entry) a.rows a'.rows ∧
      a.rows ⊆ a'.rows := by
  unfold appendEntry at h
  obtain ⟨_, -, h⟩ := bind_ok h
  split at h
  · next row hrow =>
    obtain ⟨_, hsame, h⟩ := bind_ok h
    have hsame := require_ok hsame
    simp only [Bool.and_eq_true, decide_eq_true_eq] at hsame
    cases h
    refine ⟨.found (List.mem_of_find?_eq_some hrow) ?_ ⟨hsame.1.1, .inr hsame.1.2⟩, fun _ hr => hr⟩
    simpa using List.find?_some hrow
  · next hnone =>
    cases h
    refine ⟨.insert ?_ rfl ⟨rfl, .inl rfl⟩, List.subset_append_left _ _⟩
    simpa [findEntry] using hnone

theorem appendEntries_puts {a a' : Appending} {entries : List TranscriptEntry}
    (h : appendEntries env a entries = .ok a')
    (hn : (a.rows.map TranscriptEntry.messageId).Nodup) :
    (a'.rows.map TranscriptEntry.messageId).Nodup ∧ a.rows ⊆ a'.rows ∧ ∀ entry ∈ entries,
      ∃ row ∈ a'.rows, row.messageId = entry.messageId ∧ HoldsEntry env entry row := by
  induction entries generalizing a with
  | nil =>
    cases h
    exact ⟨hn, fun _ hr => hr, by simp⟩
  | cons entry entries ih =>
    obtain ⟨mid, hmid, h⟩ := bind_ok h
    obtain ⟨hputs, hsub⟩ := appendEntry_puts hmid
    obtain ⟨hnodup, hsub', hrest⟩ := ih h (hputs.nodup hn)
    refine ⟨hnodup, fun r hr => hsub' (hsub hr), fun e he => ?_⟩
    rcases List.mem_cons.mp he with rfl | he
    · obtain ⟨row, hrow, hk, hp⟩ := hputs.put
      exact ⟨row, hsub' hrow, hk, hp⟩
    · exact hrest e he

theorem appendSummary_keys {goal now : String} {step next next' : Int}
    {rows rows' : List TranscriptEntry} {provenance : Value}
    (h : appendSummary env goal step now rows next provenance = .ok (rows', next'))
    (hn : (rows.map TranscriptEntry.messageId).Nodup) :
    (rows'.map TranscriptEntry.messageId).Nodup := by
  unfold appendSummary at h
  split at h
  · cases h
    exact hn
  · split at h
    · cases h
    · next uuid _ =>
      obtain ⟨_, -, h⟩ := bind_ok h
      split at h
      · obtain ⟨_, -, h⟩ := bind_ok h
        cases h
        exact hn
      · next hnone =>
        cases h
        rw [List.map_append, List.map_singleton, ← List.concat_eq_append]
        refine hn.concat ?_
        simpa [findEntry] using hnone

theorem appendSummaries_keys {goal now : String} {step next next' : Int}
    {rows rows' : List TranscriptEntry} {items : List Value}
    (h : appendSummaries env goal step now rows next items = .ok (rows', next'))
    (hn : (rows.map TranscriptEntry.messageId).Nodup) :
    (rows'.map TranscriptEntry.messageId).Nodup := by
  induction items generalizing rows next with
  | nil =>
    cases h
    exact hn
  | cons item items ih =>
    obtain ⟨⟨mid, next₁⟩, hmid, h⟩ := bind_ok h
    exact ih h (appendSummary_keys hmid hn)

/-- The key of `agent_session_diagnostics`. -/
def diagnosticKey (r : DiagnosticRecord) : String × Int := (r.family, r.ordinal)

theorem writeDiagnostic_puts {rows rows' : List DiagnosticRecord} {item : DiagnosticRecord}
    (h : writeDiagnostic env rows item = .ok rows') :
    Puts diagnosticKey (diagnosticKey item) (HoldsDiagnostic env item) rows rows' ∧
      rows ⊆ rows' := by
  unfold writeDiagnostic at h
  obtain ⟨_, -, h⟩ := bind_ok h
  split at h
  · next hnone =>
    cases h
    refine ⟨.insert ?_ rfl (.inl rfl), List.subset_append_left _ _⟩
    intro r hr heq
    have hno := List.find?_eq_none.mp hnone r hr
    simp only [diagnosticKey, Prod.mk.injEq] at heq
    simp [heq.1, heq.2] at hno
  · next old hold =>
    obtain ⟨_, hsame, h⟩ := bind_ok h
    cases h
    refine ⟨.found (List.mem_of_find?_eq_some hold) ?_ (.inr (require_ok hsame)), fun _ hr => hr⟩
    have hk := List.find?_some hold
    simp only [Bool.and_eq_true, decide_eq_true_eq] at hk
    exact Prod.ext hk.1 hk.2

/-- The key of `agent_tool_executions`. -/
def executionKey (r : ExecutionRow) : String := r.execution.executionId

/-- Rows with one key are one row. -/
theorem eq_of_key {α κ : Type} {key : α → κ} {rows : List α} (hn : (rows.map key).Nodup) {a b : α}
    (ha : a ∈ rows) (hb : b ∈ rows) (h : key a = key b) : a = b :=
  List.inj_on_of_nodup_map hn ha hb h

theorem writeExecution_puts {rows rows' : List ExecutionRow} {item : Execution}
    (hn : (rows.map executionKey).Nodup) (h : writeExecution env s rows item = .ok rows') :
    Puts executionKey item.executionId (HoldsExecution env item) rows rows' := by
  unfold writeExecution at h
  obtain ⟨_, -, h⟩ := bind_ok h
  obtain ⟨_, -, h⟩ := bind_ok h
  split at h
  · next old hold =>
    obtain ⟨_, hcheck, h⟩ := bind_ok h
    have hmem := List.mem_of_find?_eq_some hold
    have hk : executionKey old = item.executionId := by
      simpa [executionKey] using List.find?_some hold
    cases h
    refine .rewrite hmem hk (fun r hr => hr) fun r hr hkr => ?_
    obtain rfl : r = old := eq_of_key hn hr hmem (hkr.trans hk.symm)
    unfold checkExecution at hcheck
    obtain ⟨_, -, hcheck⟩ := bind_ok hcheck
    obtain ⟨_, haction, -⟩ := bind_ok hcheck
    have haction := require_ok haction
    simp only [sameAction, Bool.and_eq_true, decide_eq_true_eq] at haction
    obtain ⟨⟨⟨⟨⟨⟨⟨⟨⟨⟨⟨-, hrun⟩, hcall⟩, htool⟩, hargs⟩, -⟩, -⟩, -⟩, -⟩, -⟩, -⟩, -⟩ := haction
    exact ⟨hrun, hcall, htool, .inr hargs, rfl, rfl, rfl⟩
  · next hnone =>
    obtain ⟨_, -, h⟩ := bind_ok h
    cases h
    refine .insert ?_ rfl ⟨rfl, rfl, rfl, .inl rfl, rfl, rfl, rfl⟩
    simpa [executionKey] using hnone

theorem writeAttempt_puts {rows rows' : List Attempt} {item : Attempt}
    (hn : (rows.map Attempt.attemptId).Nodup) (h : writeAttempt env rows item = .ok rows') :
    Puts Attempt.attemptId item.attemptId (HoldsAttempt env item) rows rows' := by
  unfold writeAttempt at h
  obtain ⟨_, -, h⟩ := bind_ok h
  split at h
  · next old hold =>
    obtain ⟨_, hsame, h⟩ := bind_ok h
    obtain ⟨_, -, h⟩ := bind_ok h
    have hmem := List.mem_of_find?_eq_some hold
    have hk : old.attemptId = item.attemptId := by simpa using List.find?_some hold
    have hsame := require_ok hsame
    simp only [sameAttempt, Bool.and_eq_true, decide_eq_true_eq] at hsame
    obtain ⟨⟨⟨⟨⟨⟨hexecution, -⟩, hnumber⟩, hkind⟩, -⟩, -⟩, -⟩ := hsame
    split at h
    · cases h
      refine .rewrite hmem hk (fun r hr => hr) fun r hr hkr => ?_
      obtain rfl : r = old := eq_of_key hn hr hmem (hkr.trans hk.symm)
      exact ⟨hexecution, hnumber, hkind, rfl, rfl, rfl, .inl rfl, .inl rfl⟩
    · obtain ⟨_, hmeta, h⟩ := bind_ok h
      obtain ⟨_, hsettled, h⟩ := bind_ok h
      have hmeta := require_ok hmeta
      have hsettled := require_ok hsettled
      simp only [Bool.and_eq_true, decide_eq_true_eq] at hmeta hsettled
      cases h
      exact .found hmem hk ⟨hexecution, hnumber, hkind, hsettled.1.1, hmeta.2, hmeta.1,
        .inr hsettled.1.2, .inr hsettled.2⟩
  · next hnone =>
    obtain ⟨_, -, h⟩ := bind_ok h
    cases h
    refine .insert ?_ rfl ⟨rfl, rfl, rfl, rfl, rfl, rfl, .inl rfl, .inl rfl⟩
    simpa using hnone

/-! ## One commit -/

/-- The rows of the tables are told apart by their keys. -/
structure Keys (t : Tables) : Prop where
  transcript : (t.transcript.map TranscriptEntry.messageId).Nodup
  diagnostics : (t.diagnostics.map diagnosticKey).Nodup
  executions : (t.executions.map executionKey).Nodup
  attempts : (t.attempts.map Attempt.attemptId).Nodup

theorem Keys.empty : Keys {} := by
  constructor <;> exact List.nodup_nil

/-- The event of a commit as its row tells it. -/
structure HoldsEvent (env : Deployment) (command : Command) (commitId : String) (s : Session)
    (event : Value) (row : EventRow) : Prop where
  commit : row.commitId = commitId
  revision : row.revision = s.revision + 1
  event : row.event = jsonb env.toHost
    ((event.set "command_id" (.str command.id)).set "run_id" (.ofStr? s.runId))

/-- Every staged item was written exactly once. The last state an execution or an attempt was staged
in is the one its row has, and only telemetry that an archive holds is taken away again. -/
structure Written (env : Deployment) (command : Command) (commitId : String) (s : Session)
    (event : Value) (t t' : Tables) : Prop where
  transcript : ∀ entry ∈ s.pendingTranscript,
    Once TranscriptEntry.messageId entry.messageId (HoldsEntry env entry) t'.transcript
  diagnostics : ∃ rows, (∀ item ∈ s.diagnosticsPending,
      Once diagnosticKey (diagnosticKey item) (HoldsDiagnostic env item) rows) ∧
    t'.diagnostics.Sublist rows ∧ (s.retentionPending = none → t'.diagnostics = rows)
  executions : ∀ item ∈ s.pendingExecutionOutbox, ∃ last,
    (s.pendingExecutionOutbox.filter fun i => i.executionId = item.executionId).getLast? =
        some last ∧
      Once executionKey item.executionId (HoldsExecution env last) t'.executions
  attempts : ∀ item ∈ s.attemptsPending, ∃ last,
    (s.attemptsPending.filter fun i => i.attemptId = item.attemptId).getLast? = some last ∧
      Once Attempt.attemptId item.attemptId (HoldsAttempt env last) t'.attempts
  event : ∃ kept row, t'.events = kept ++ [row] ∧ HoldsEvent env command commitId s event row ∧
    kept.Sublist t.events ∧ (s.retentionPending = none → kept = t.events)

/-- What a retention pass does to the telemetry. -/
theorem retentionWrite_telemetry (h : retentionWrite env s t = .ok t') :
    t'.diagnostics.Sublist t.diagnostics ∧ t'.events.Sublist t.events ∧
      (s.retentionPending = none → t' = t) := by
  unfold retentionWrite at h
  split at h
  · cases h
    exact ⟨.refl _, .refl _, fun _ => rfl⟩
  · next item hitem =>
    obtain ⟨_, -, h⟩ := bind_ok h
    obtain ⟨_, -, h⟩ := bind_ok h
    obtain ⟨_, -, h⟩ := bind_ok h
    cases h
    refine ⟨List.filter_sublist, ?_, fun hnone => by rw [hitem] at hnone; cases hnone⟩
    have hall : ∀ (n : Nat) (p : EventRow → Bool),
        ((t.events.take n).filter p ++ t.events.drop n).Sublist t.events := by
      intro n p
      have hsub := (List.filter_sublist (p := p) (l := t.events.take n)).append_right
        (t.events.drop n)
      rwa [List.take_append_drop] at hsub
    exact hall _ _

/-- A commit that is applied writes every staged item exactly once. -/
theorem written_of_applyCommit {clock : Int} {now : String} {command : Command}
    {commitId fingerprint : String} {eventId : Int} {s' : Session} {config event : Value}
    (h : applyCommit env clock now command commitId fingerprint eventId t s config event =
      .ok (t', s')) (hk : Keys t) :
    Keys t' ∧ Written env command commitId s event t t' := by
  have hrevision := (applied_of_applyCommit h).revision
  unfold applyCommit at h
  obtain ⟨_, -, h⟩ := bind_ok h
  obtain ⟨_, -, h⟩ := bind_ok h
  obtain ⟨_, -, h⟩ := bind_ok h
  obtain ⟨appended, happ, h⟩ := bind_ok h
  obtain ⟨⟨transcript, next⟩, hsum, h⟩ := bind_ok h
  obtain ⟨_, -, h⟩ := bind_ok h
  obtain ⟨diagnostics, hdiagnostics, h⟩ := bind_ok h
  obtain ⟨_, -, h⟩ := bind_ok h
  obtain ⟨⟨executions, attempts⟩, hexec, h⟩ := bind_ok h
  obtain ⟨_, -, h⟩ := bind_ok h
  obtain ⟨_, -, h⟩ := bind_ok h
  obtain ⟨t₁, hret, h⟩ := bind_ok h
  obtain ⟨_, -, h⟩ := bind_ok h
  obtain ⟨_, -, h⟩ := bind_ok h
  obtain ⟨-, -, htranscript, -, hexecutions, hattempts, -, -⟩ := retentionWrite_keeps hret
  obtain ⟨hdiag, hevents, hnone⟩ := retentionWrite_telemetry hret
  cases h
  -- the transcript
  obtain ⟨hn, -, hentries⟩ := appendEntries_puts happ hk.transcript
  have hn' := appendSummaries_keys hsum hn
  have hkept := (appendSummaries_appended hsum).1.subset
  -- the diagnostics
  obtain ⟨rows, hrows, hchecks⟩ := bind_ok hdiagnostics
  obtain rfl : rows = diagnostics := by
    obtain ⟨_, -, hchecks⟩ := bind_ok hchecks
    obtain ⟨_, -, hchecks⟩ := bind_ok hchecks
    exact Except.ok.inj hchecks
  have hputs : ∀ rows item rows', (rows.map diagnosticKey).Nodup →
      writeDiagnostic env rows item = .ok rows' →
        Puts diagnosticKey (diagnosticKey item) (HoldsDiagnostic env item) rows rows' :=
    fun _ _ _ _ h => (writeDiagnostic_puts h).1
  have hkeys := nodup_of_foldlM hputs _ hrows hk.diagnostics
  obtain ⟨-, hrecords⟩ :=
    all_of_foldlM hputs (fun _ _ _ h => (writeDiagnostic_puts h).2) _ hrows hk.diagnostics
  -- the executions and the attempts
  obtain ⟨executions₁, hexec₁, hexec⟩ := bind_ok hexec
  obtain ⟨attempts₁, hexec₂, hexec⟩ := bind_ok hexec
  cases hexec
  have hx : ∀ rows item rows', (rows.map executionKey).Nodup →
      writeExecution env s rows item = .ok rows' →
        Puts executionKey item.executionId (HoldsExecution env item) rows rows' :=
    fun _ _ _ => writeExecution_puts
  have ha : ∀ rows item rows', (rows.map Attempt.attemptId).Nodup →
      writeAttempt env rows item = .ok rows' →
        Puts Attempt.attemptId item.attemptId (HoldsAttempt env item) rows rows' :=
    fun _ _ _ => writeAttempt_puts
  refine ⟨⟨?_, ?_, ?_, ?_⟩, ?_, ?_, ?_, ?_, ?_⟩
  · rw [htranscript]
    exact hn'
  · exact hkeys.sublist (hdiag.map _)
  · rw [hexecutions]
    exact nodup_of_foldlM hx _ hexec₁ hk.executions
  · rw [hattempts]
    exact nodup_of_foldlM ha _ hexec₂ hk.attempts
  · intro entry hentry
    obtain ⟨row, hrow, hid, hp⟩ := hentries entry hentry
    rw [htranscript, ← hid]
    exact once_of_mem hn' (hkept hrow) hp
  · refine ⟨rows, hrecords, hdiag, fun hr => ?_⟩
    rw [hnone hr]
  · rw [hexecutions]
    exact once_of_foldlM hx _ hexec₁ hk.executions
  · rw [hattempts]
    exact once_of_foldlM ha _ hexec₂ hk.attempts
  · refine ⟨t₁.events, _, rfl, ⟨rfl, ?_, rfl⟩, hevents, fun hr => ?_⟩
    · exact congrArg (· + 1) hrevision
    · rw [hnone hr]

end StateDrivenAgent.Storage
