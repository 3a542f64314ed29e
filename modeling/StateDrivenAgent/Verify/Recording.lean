import StateDrivenAgent.Relational.Growing
import StateDrivenAgent.Verify.Retrying

/-!
# What the action tables record

The executions and the attempts of a session, under any number of workers that run any programs. A
commit that writes an execution finds the frozen fields as they are, counts no dispatch back, and
leaves a terminal outcome alone; an attempt is written once, and settled once. So a row, once it is
there, is only ever continued (`ExecutionRow.Follows`, `Attempt.Follows`), and in every state the rows
are well formed (`Actions.Sound`).
-/

namespace StateDrivenAgent

open Interaction
open Growing (Continues foldlM_trans map_key)

/-! ## Rows -/

/-- The part of an execution that is frozen when it is created. -/
def Execution.action (x : Execution) : Execution :=
  { x with
    attempts := 0, status := .pending, result := none, recipient := none, startedAt := none
    finishedAt := none, attemptRecords := [] }

/-- The part of an attempt that is frozen when it is started. -/
def Attempt.identity (a : Attempt) : Attempt :=
  { a with
    status := .started, finishedAt := none, evidence := .null, error := .null
    externalReference := none }

/-- What an attempt can become: a settled one stays as it is. -/
structure Attempt.Follows (old a : Attempt) : Prop where
  identity : a.identity = old.identity
  settled : old.status ≠ .started → a = old

theorem Attempt.Follows.refl (a : Attempt) : Attempt.Follows a a := ⟨rfl, fun _ => rfl⟩

theorem Attempt.Follows.trans {a₁ a₂ a₃ : Attempt} (h : a₁.Follows a₂) (h' : a₂.Follows a₃) :
    a₁.Follows a₃ where
  identity := h'.identity.trans h.identity
  settled hs := by
    obtain rfl := h.settled hs
    exact h'.settled hs

namespace Storage

/-- What the row of an execution can become. -/
structure ExecutionRow.Follows (old row : ExecutionRow) : Prop where
  action : row.execution.action = old.execution.action
  attempts : old.execution.attempts ≤ row.execution.attempts
  terminal : old.execution.status.terminal = true →
    row.execution.status = old.execution.status ∧ row.execution.result = old.execution.result
  started : ∀ time, old.execution.startedAt = some (some time) →
    row.execution.startedAt = some (some time)
  finished : ∀ time, old.execution.finishedAt = some time → row.execution.finishedAt = some time

theorem ExecutionRow.Follows.refl (r : ExecutionRow) : r.Follows r :=
  ⟨rfl, Int.le_refl _, fun _ => ⟨rfl, rfl⟩, fun _ => id, fun _ => id⟩

theorem ExecutionRow.Follows.trans {r₁ r₂ r₃ : ExecutionRow} (h : r₁.Follows r₂)
    (h' : r₂.Follows r₃) : r₁.Follows r₃ where
  action := h'.action.trans h.action
  attempts := Int.le_trans h.attempts h'.attempts
  terminal ht := by
    obtain ⟨hstatus, hresult⟩ := h.terminal ht
    obtain ⟨hstatus', hresult'⟩ := h'.terminal (hstatus ▸ ht)
    exact ⟨hstatus'.trans hstatus, hresult'.trans hresult⟩
  started time ht := h'.started time (h.started time ht)
  finished time ht := h'.finished time (h.finished time ht)

def ExecutionRow.call (r : ExecutionRow) : String := r.execution.callId

theorem ExecutionRow.Follows.call {old row : ExecutionRow} (h : old.Follows row) :
    row.call = old.call := by
  have hcall : row.execution.action.callId = old.execution.action.callId := by rw [h.action]
  exact hcall

/-- A dispatch count within the bound of a policy that was proposed for the execution. -/
def ExecutionRow.Bounded (env : Deployment) (r : ExecutionRow) : Prop :=
  0 ≤ r.execution.attempts ∧ ∃ policy, r.execution.attempts ≤ maxAttempts policy ∧
    Stores env policy r.execution.policy

/-- The executions of a session. -/
structure SoundExecutions (env : Deployment) (rows : List ExecutionRow) : Prop where
  ids : (rows.map executionKey).Nodup
  calls : (rows.map ExecutionRow.call).Nodup
  bounded : ∀ r ∈ rows, r.Bounded env
  /-- An outcome is there as soon as the execution is terminal. -/
  outcome : ∀ r ∈ rows, r.execution.status.terminal = r.execution.result.isSome

/-- The attempts of a session. -/
structure SoundAttempts (rows : List Attempt) : Prop where
  ids : (rows.map Attempt.attemptId).Nodup
  numbers : (rows.map fun a => (a.executionId, a.attemptNumber)).Nodup
  finished : ∀ a ∈ rows, a.status = .started ↔ a.finishedAt = none

theorem SoundExecutions.nil (env : Deployment) : SoundExecutions env [] where
  ids := List.nodup_nil
  calls := List.nodup_nil
  bounded _ h := absurd h List.not_mem_nil
  outcome _ h := absurd h List.not_mem_nil

theorem SoundAttempts.nil : SoundAttempts [] where
  ids := List.nodup_nil
  numbers := List.nodup_nil
  finished _ h := absurd h List.not_mem_nil

/-! ## One execution -/

/-- What a commit checks of an execution that has a row. -/
structure Checked (old item : Execution) : Prop where
  attempts : old.attempts ≤ item.attempts
  policy : old.policy.eqv item.policy = true
  terminal : old.status.terminal = true → item.status = old.status ∧ item.result = old.result

theorem checkExecution_ok {old item : Execution} {u : Unit}
    (h : checkExecution old item = .ok u) : Checked old item := by
  unfold checkExecution at h
  obtain ⟨_, hcount, h⟩ := bind_ok h
  obtain ⟨_, hsame, h⟩ := bind_ok h
  have hcount := require_ok hcount
  have hsame := require_ok hsame
  have hterminal := require_ok h
  simp only [sameAction, Bool.and_eq_true, decide_eq_true_eq] at hcount hsame
  refine ⟨hcount.1, hsame.1.1.1.1.1.1.2, fun ht => ?_⟩
  simp only [ht, Bool.not_true, Bool.false_or, Bool.and_eq_true, decide_eq_true_eq] at hterminal
  exact ⟨hterminal.1.symm, hterminal.2.symm⟩

/-- The two ways to write an execution. -/
inductive Wrote (env : Deployment) (s : Session) (rows : List ExecutionRow) (item : Execution) :
    List ExecutionRow → Prop
  | merged {old : ExecutionRow} (hmem : old ∈ rows) (hid : executionKey old = item.executionId)
      (hchecked : Checked old.execution item) :
      Wrote env s rows item (rows.map fun r =>
        if r.execution.executionId = item.executionId then mergeExecution s r item else r)
  | inserted (hid : item.executionId ∉ rows.map executionKey)
      (hcall : item.callId ∉ rows.map ExecutionRow.call) :
      Wrote env s rows item (rows ++ [insertExecution env s item])

theorem writeExecution_ok {env : Deployment} {s : Session} {rows rows' : List ExecutionRow}
    {item : Execution} (h : writeExecution env s rows item = .ok rows') :
    0 ≤ item.attempts ∧ item.attempts ≤ maxAttempts item.policy ∧
      item.status.terminal = item.result.isSome ∧ Wrote env s rows item rows' := by
  unfold writeExecution at h
  obtain ⟨_, hbound, h⟩ := bind_ok h
  obtain ⟨_, houtcome, h⟩ := bind_ok h
  have hbound := require_ok hbound
  have houtcome := require_ok houtcome
  simp only [Bool.and_eq_true, decide_eq_true_eq] at hbound
  refine ⟨hbound.1, hbound.2, eq_of_beq houtcome, ?_⟩
  split at h
  next old hfind =>
    obtain ⟨_, hchecked, h⟩ := bind_ok h
    cases h
    have hid := List.find?_some hfind
    exact .merged (List.mem_of_find?_eq_some hfind) (of_decide_eq_true hid)
      (checkExecution_ok hchecked)
  next hnone =>
    obtain ⟨_, hcall, h⟩ := bind_ok h
    cases h
    have hcall := require_ok hcall
    refine .inserted (fun hmem => ?_) fun hmem => ?_
    · obtain ⟨r, hr, hid⟩ := List.mem_map.1 hmem
      exact List.find?_eq_none.1 hnone r hr (decide_eq_true hid)
    · obtain ⟨r, hr, hid⟩ := List.mem_map.1 hmem
      rw [Bool.not_eq_true', List.any_eq_false] at hcall
      exact hcall r hr (decide_eq_true hid)

theorem merge_follows {s : Session} {old : ExecutionRow} {item : Execution}
    (h : Checked old.execution item) : old.Follows (mergeExecution s old item) where
  action := rfl
  attempts := h.attempts
  terminal := h.terminal
  started time ht := by
    simp only [mergeExecution, ht]
  finished time ht := by
    simp only [mergeExecution, ht]
    rfl

/-- The rows after one execution was written. -/
structure Continued (env : Deployment) (rows rows' : List ExecutionRow) : Prop where
  sound : SoundExecutions env rows'
  continues : Continues ExecutionRow.Follows rows rows'

theorem Wrote.continued {env : Deployment} {s : Session} {rows rows' : List ExecutionRow}
    {item : Execution} (h : Wrote env s rows item rows') (hs : SoundExecutions env rows)
    (hpos : 0 ≤ item.attempts) (hmax : item.attempts ≤ maxAttempts item.policy)
    (houtcome : item.status.terminal = item.result.isSome) : Continued env rows rows' := by
  cases h with
  | @merged old hmem hid hchecked =>
    -- the row that is rewritten is the one that was checked
    have heq : ∀ r ∈ rows, r.execution.executionId = item.executionId → r = old := fun r hr hrid =>
      List.inj_on_of_nodup_map hs.ids hr hmem (hrid.trans hid.symm)
    have hid' : ∀ r, executionKey (if r.execution.executionId = item.executionId then
        mergeExecution s r item else r) = executionKey r := fun r => by split <;> rfl
    have hcall' : ∀ r, ExecutionRow.call (if r.execution.executionId = item.executionId then
        mergeExecution s r item else r) = r.call := fun r => by split <;> rfl
    refine ⟨⟨?_, ?_, ?_, ?_⟩, .map fun r hr => ?_⟩
    · rw [map_key hid']
      exact hs.ids
    · rw [map_key hcall']
      exact hs.calls
    · intro r' hr'
      obtain ⟨r, hr, rfl⟩ := List.mem_map.1 hr'
      split
      next hrid =>
        obtain rfl := heq r hr hrid
        exact ⟨hpos, item.policy, hmax, .inr hchecked.policy⟩
      · exact hs.bounded r hr
    · intro r' hr'
      obtain ⟨r, hr, rfl⟩ := List.mem_map.1 hr'
      split
      · exact houtcome
      · exact hs.outcome r hr
    · split
      next hrid =>
        obtain rfl := heq r hr hrid
        exact merge_follows hchecked
      · exact .refl r
  | inserted hid hcall =>
    refine ⟨⟨?_, ?_, ?_, ?_⟩, .append ExecutionRow.Follows.refl rows _⟩
    · rw [List.map_append, List.map_singleton]
      exact List.concat_eq_append ▸ hs.ids.concat hid
    · rw [List.map_append, List.map_singleton]
      exact List.concat_eq_append ▸ hs.calls.concat hcall
    · intro r hr
      rcases List.mem_append.1 hr with hr | hr
      · exact hs.bounded r hr
      · obtain rfl := List.mem_singleton.1 hr
        exact ⟨hpos, item.policy, hmax, .inl rfl⟩
    · intro r hr
      rcases List.mem_append.1 hr with hr | hr
      · exact hs.outcome r hr
      · obtain rfl := List.mem_singleton.1 hr
        exact houtcome

theorem writeExecution_continued {env : Deployment} {s : Session} {rows rows' : List ExecutionRow}
    {item : Execution} (h : writeExecution env s rows item = .ok rows')
    (hs : SoundExecutions env rows) : Continued env rows rows' := by
  obtain ⟨hpos, hmax, houtcome, hwrote⟩ := writeExecution_ok h
  exact hwrote.continued hs hpos hmax houtcome

/-- The executions of an outbox, one after another. -/
theorem writeExecutions_continued {env : Deployment} {s : Session} {items : List Execution}
    {rows rows' : List ExecutionRow} (h : items.foldlM (writeExecution env s) rows = .ok rows')
    (hs : SoundExecutions env rows) : Continued env rows rows' := by
  refine foldlM_trans (S := fun rows rows' => SoundExecutions env rows → Continued env rows rows')
    (fun rows hs => ⟨hs, .refl ExecutionRow.Follows.refl rows⟩) (fun h h' hs => ?_)
    (fun _ _ _ _ h => writeExecution_continued h) h hs
  have hmid := h hs
  have hend := h' hmid.sound
  exact ⟨hend.sound, hmid.continues.trans ExecutionRow.Follows.trans hend.continues⟩

/-! ## One attempt -/

/-- An attempt with the outcome of `item`. -/
def settleAttempt (env : Deployment) (item a : Attempt) : Attempt :=
  { a with
    status := item.status, finishedAt := item.finishedAt, evidence := jsonb env.toHost item.evidence
    error := jsonb env.toHost item.error, externalReference := item.externalReference }

/-- The three ways to write an attempt. -/
inductive Noted (env : Deployment) (rows : List Attempt) (item : Attempt) : List Attempt → Prop
  | settled {old : Attempt} (hmem : old ∈ rows) (hid : old.attemptId = item.attemptId)
      (hstarted : old.status = .started) :
      Noted env rows item (rows.map fun a =>
        if a.attemptId = item.attemptId then settleAttempt env item a else a)
  | same : Noted env rows item rows
  | inserted (hid : item.attemptId ∉ rows.map Attempt.attemptId)
      (hnumber : (item.executionId, item.attemptNumber) ∉
        rows.map fun a => (a.executionId, a.attemptNumber)) :
      Noted env rows item (rows ++ [{ item with
        evidence := jsonb env.toHost item.evidence, error := jsonb env.toHost item.error }])

theorem writeAttempt_ok {env : Deployment} {rows rows' : List Attempt} {item : Attempt}
    (h : writeAttempt env rows item = .ok rows') :
    (item.status = .started ↔ item.finishedAt = none) ∧ Noted env rows item rows' := by
  unfold writeAttempt at h
  obtain ⟨_, hopen, h⟩ := bind_ok h
  have hopen := eq_of_beq (require_ok hopen)
  refine ⟨?_, ?_⟩
  · rw [← decide_eq_true_iff (p := item.status = .started), hopen, Option.isNone_iff_eq_none]
  split at h
  next old hfind =>
    have hmem := List.mem_of_find?_eq_some hfind
    have hid : old.attemptId = item.attemptId := by simpa using List.find?_some hfind
    obtain ⟨_, -, h⟩ := bind_ok h
    obtain ⟨_, -, h⟩ := bind_ok h
    split at h
    next hstarted =>
      cases h
      exact .settled hmem hid hstarted
    · obtain ⟨_, -, h⟩ := bind_ok h
      obtain ⟨_, -, h⟩ := bind_ok h
      cases h
      exact .same
  next hnone =>
    obtain ⟨_, hnumber, h⟩ := bind_ok h
    cases h
    have hnumber := require_ok hnumber
    rw [Bool.not_eq_true', List.any_eq_false] at hnumber
    refine .inserted (fun hmem => ?_) fun hmem => ?_
    · obtain ⟨a, ha, hid⟩ := List.mem_map.1 hmem
      exact List.find?_eq_none.1 hnone a ha (decide_eq_true hid)
    · obtain ⟨a, ha, hid⟩ := List.mem_map.1 hmem
      obtain ⟨hexecution, hordinal⟩ := Prod.mk.inj hid
      refine hnumber a ha ?_
      rw [decide_eq_true hexecution, decide_eq_true hordinal]
      rfl

theorem Noted.continued {env : Deployment} {rows rows' : List Attempt} {item : Attempt}
    (h : Noted env rows item rows') (hs : SoundAttempts rows)
    (hopen : item.status = .started ↔ item.finishedAt = none) :
    SoundAttempts rows' ∧ Continues Attempt.Follows rows rows' := by
  cases h with
  | same => exact ⟨hs, .refl Attempt.Follows.refl rows⟩
  | @settled old hmem hid hstarted =>
    have hid' : ∀ a, (if a.attemptId = item.attemptId then settleAttempt env item a
        else a).attemptId = a.attemptId := fun a => by split <;> rfl
    have hnumber' : ∀ a, (fun a : Attempt => (a.executionId, a.attemptNumber))
        (if a.attemptId = item.attemptId then settleAttempt env item a else a) =
          (a.executionId, a.attemptNumber) := fun a => by split <;> rfl
    refine ⟨⟨?_, ?_, ?_⟩, .map fun a ha => ?_⟩
    · rw [map_key hid']
      exact hs.ids
    · rw [map_key hnumber']
      exact hs.numbers
    · intro a' ha'
      obtain ⟨a, ha, rfl⟩ := List.mem_map.1 ha'
      split
      · exact hopen
      · exact hs.finished a ha
    · split
      next haid =>
        obtain rfl := List.inj_on_of_nodup_map hs.ids ha hmem (haid.trans hid.symm)
        exact ⟨rfl, fun hsettled => absurd hstarted hsettled⟩
      · exact .refl a
  | inserted hid hnumber =>
    refine ⟨⟨?_, ?_, ?_⟩, .append Attempt.Follows.refl rows _⟩
    · rw [List.map_append, List.map_singleton]
      exact List.concat_eq_append ▸ hs.ids.concat hid
    · rw [List.map_append, List.map_singleton]
      exact List.concat_eq_append ▸ hs.numbers.concat hnumber
    · intro a ha
      rcases List.mem_append.1 ha with ha | ha
      · exact hs.finished a ha
      · obtain rfl := List.mem_singleton.1 ha
        exact hopen

/-- The attempts of an outbox, one after another. -/
theorem writeAttempts_continued {env : Deployment} {items rows rows' : List Attempt}
    (h : items.foldlM (writeAttempt env) rows = .ok rows') (hs : SoundAttempts rows) :
    SoundAttempts rows' ∧ Continues Attempt.Follows rows rows' := by
  refine foldlM_trans
    (S := fun rows rows' => SoundAttempts rows →
      SoundAttempts rows' ∧ Continues Attempt.Follows rows rows')
    (fun rows hs => ⟨hs, .refl Attempt.Follows.refl rows⟩) (fun h h' hs => ?_)
    (fun rows item rows' _ h hs => ?_) h hs
  · obtain ⟨hmid, hcont⟩ := h hs
    obtain ⟨hend, hcont'⟩ := h' hmid
    exact ⟨hend, hcont.trans Attempt.Follows.trans hcont'⟩
  · obtain ⟨hopen, hnoted⟩ := writeAttempt_ok h
    exact hnoted.continued hs hopen

/-! ## One commit -/

/-- The revision of a session. -/
def Tables.revision (t : Tables) : Int := t.session.elim 0 SessionRow.revision

/-- What a commit writes of the actions. -/
theorem actions_of_applyCommit {env : Deployment} {clock : Int} {now : String} {command : Command}
    {commitId fingerprint : String} {eventId : Int} {t t' : Tables} {s s' : Session}
    {config event : Value}
    (h : applyCommit env clock now command commitId fingerprint eventId t s config event =
      .ok (t', s')) :
    writeToolExecutions env s t.executions t.attempts = .ok (t'.executions, t'.attempts) := by
  unfold applyCommit at h
  obtain ⟨_, -, h⟩ := bind_ok h
  obtain ⟨_, -, h⟩ := bind_ok h
  obtain ⟨_, -, h⟩ := bind_ok h
  obtain ⟨appended, -, h⟩ := bind_ok h
  obtain ⟨⟨transcript, next⟩, -, h⟩ := bind_ok h
  obtain ⟨_, -, h⟩ := bind_ok h
  obtain ⟨_, -, h⟩ := bind_ok h
  obtain ⟨_, -, h⟩ := bind_ok h
  obtain ⟨⟨executions, attempts⟩, hwritten, h⟩ := bind_ok h
  obtain ⟨_, -, h⟩ := bind_ok h
  obtain ⟨_, -, h⟩ := bind_ok h
  obtain ⟨t₁, hret, h⟩ := bind_ok h
  obtain ⟨_, -, h⟩ := bind_ok h
  obtain ⟨_, -, h⟩ := bind_ok h
  obtain ⟨-, -, -, -, hexecutions, hattempts, -⟩ := retentionWrite_keeps hret
  cases h
  rw [hwritten]
  exact congrArg Except.ok (Prod.ext hexecutions.symm hattempts.symm)

theorem writeToolExecutions_ok {env : Deployment} {s : Session} {executions : List ExecutionRow}
    {attempts : List Attempt} {out : List ExecutionRow × List Attempt}
    (h : writeToolExecutions env s executions attempts = .ok out) :
    s.pendingExecutionOutbox.foldlM (writeExecution env s) executions = .ok out.1 ∧
      s.attemptsPending.foldlM (writeAttempt env) attempts = .ok out.2 := by
  unfold writeToolExecutions at h
  obtain ⟨executions', hexecutions, h⟩ := bind_ok h
  obtain ⟨attempts', hattempts, h⟩ := bind_ok h
  cases h
  exact ⟨hexecutions, hattempts⟩

/-! ## Every run -/

/-- The action tables of a session are well formed. -/
structure SoundActions (env : Deployment) (t : Tables) : Prop where
  executions : SoundExecutions env t.executions
  attempts : SoundAttempts t.attempts

theorem SoundActions.empty (env : Deployment) : SoundActions env {} := ⟨.nil env, .nil⟩

/-- What becomes of the action tables of a session. -/
structure ActionsFollow (t t' : Tables) : Prop where
  executions : Continues ExecutionRow.Follows t.executions t'.executions
  attempts : Continues Attempt.Follows t.attempts t'.attempts

theorem ActionsFollow.refl (t : Tables) : ActionsFollow t t :=
  ⟨.refl ExecutionRow.Follows.refl _, .refl Attempt.Follows.refl _⟩

theorem ActionsFollow.trans {t t' t'' : Tables} (h : ActionsFollow t t') (h' : ActionsFollow t' t'') :
    ActionsFollow t t'' :=
  ⟨h.executions.trans ExecutionRow.Follows.trans h'.executions,
    h.attempts.trans Attempt.Follows.trans h'.attempts⟩

theorem SoundActions.applied {env : Deployment} {clock : Int} {now : String} {command : Command}
    {commitId fingerprint : String} {eventId : Int} {t t' : Tables} {s s' : Session}
    {config event : Value} (hs : SoundActions env t)
    (h : applyCommit env clock now command commitId fingerprint eventId t s config event =
      .ok (t', s')) : SoundActions env t' ∧ ActionsFollow t t' := by
  obtain ⟨hexecutions, hattempts⟩ := writeToolExecutions_ok (actions_of_applyCommit h)
  have hwritten := writeExecutions_continued hexecutions hs.executions
  obtain ⟨hnoted, hcontinues⟩ := writeAttempts_continued hattempts hs.attempts
  exact ⟨⟨hwritten.sound, hnoted⟩, hwritten.continues, hcontinues⟩

/-- A move of the tables keeps the action tables of a session well formed, and continues them. -/
theorem moved_follows {env : Deployment} {db db' : Db} (h : Moved env db db') (hi : Inv db)
    (id : String) (hs : SoundActions env (db.tables id)) :
    SoundActions env (db'.tables id) ∧ ActionsFollow (db.tables id) (db'.tables id) := by
  rcases moved_cases h hi id with ⟨-, hsame⟩ | ⟨e, hcommitted⟩
  · refine ⟨⟨?_, ?_⟩, ?_, ?_⟩
    · rw [hsame.executions]
      exact hs.executions
    · rw [hsame.attempts]
      exact hs.attempts
    · rw [hsame.executions]
      exact .refl ExecutionRow.Follows.refl _
    · rw [hsame.attempts]
      exact .refl Attempt.Follows.refl _
  · obtain ⟨-, -, -, -, -, -, -, happly⟩ := hcommitted
    have hs' : SoundActions env (db.tables id) := hs
    exact hs'.applied happly

theorem history_follows {env : Deployment} {db db' : Db} (hi : Sane db) (h : History env db db')
    (id : String) (hs : SoundActions env (db.tables id)) :
    SoundActions env (db'.tables id) ∧ ActionsFollow (db.tables id) (db'.tables id) := by
  induction h with
  | refl => exact ⟨hs, .refl _⟩
  | tail hh hm ih =>
    obtain ⟨hs', hfollow⟩ := moved_follows hm (hi.history hh).inv id ih.1
    exact ⟨hs', ih.2.trans hfollow⟩

/-- In every state that any number of workers reach from empty tables, the action tables of a session
are well formed: execution and call identities and attempt numbers are unique, no execution has more
dispatches than a policy proposed for it allows, and an outcome is there exactly when it is terminal.
And in every run from there a row stays at its place: its identity, payload and policy are frozen,
dispatches are not counted back, a terminal outcome is never changed, and a settled attempt is left
as it is. -/
theorem actions_recorded (env : Deployment) {α : Type} (w w' : Pool Eff Reply Db α)
    (hw : Pool.Run (machine env α) ⟨{}, []⟩ w) (hw' : Pool.Run (machine env α) w w') (id : String) :
    SoundActions env (w.shared.tables id) ∧
      ActionsFollow (w.shared.tables id) (w'.shared.tables id) := by
  have hs := (history_follows .empty (history_of_run hw) id (.empty env)).1
  exact ⟨hs, (history_follows (Sane.empty.history (history_of_run hw)) (history_of_run hw') id hs).2⟩

/-! ## An action that succeeds -/

def sampleAction : Execution where
  executionId := "execution"
  runId := some "run"
  commandId := some "command"
  namespaceId := "test"
  target := "tool://list_artifacts"
  callId := "call"
  tool := "list_artifacts"
  arguments := .obj []
  policy := .obj [("mode", .str "read_only"), ("max_attempts", .int 2)]
  idempotencyKey := "key"
  payloadSha256 := "payload"
  keyAlgorithm := "agent-action-v1"
  attempts := 1
  status := .started
  result := none

def sampleAttempt : Attempt where
  attemptId := "attempt"
  executionId := "execution"
  commandId := some "command"
  attemptNumber := 1
  kind := .dispatch
  status := .started
  owner := none
  fence := none
  payloadSha256 := "payload"
  startedAt := "now"

/-- The session that has started an action. -/
def actingSession : Session :=
  { sampleSession with
    pendingExecutionOutbox := [sampleAction], attemptsPending := [sampleAttempt] }

def actingCommit : Commit :=
  saveInner sampleAgent "now" actingSession .null (sampleEvent "run_started") sampleDb

/-- The session that has the outcome of the action. -/
def actedSession : Session :=
  { actingCommit.session with
    command := some sampleCommand, pendingCommitId := some "second"
    pendingExecutionOutbox := [{ sampleAction with status := .succeeded, result := some "output" }]
    attemptsPending := [{ sampleAttempt with status := .succeeded, finishedAt := some "later" }] }

def actedCommit : Commit :=
  saveInner sampleAgent "later" actedSession .null (sampleEvent "tool_settled") actingCommit.db

/-- The worker that makes the two commits. -/
def actingWorker : Prog Unit :=
  .perform (.transact actingSession .null (sampleEvent "run_started")) fun _ =>
    .perform (.transact actedSession .null (sampleEvent "tool_settled")) fun _ => .ret ()

/-- An action is started, and then it succeeds. -/
theorem actions_recorded_acted : ∃ w w' : Pool Eff Reply Db Unit,
    (w.shared.tables "session").executions.map (·.execution.status) = [.started] ∧
      (w'.shared.tables "session").executions.map (·.execution.status) = [.succeeded] ∧
        SoundActions sampleAgent (w.shared.tables "session") ∧
          ActionsFollow (w.shared.tables "session") (w'.shared.tables "session") := by
  have hspawn : Pool.Run (machine sampleAgent Unit) ⟨{}, []⟩ ⟨sampleDb, [.fresh actingWorker]⟩ :=
    .tail (.single (.drift (.command (e := .sql (.administrative Commands.sampleRow "operator"))
      (.inl ⟨rfl, rfl⟩)))) (.spawn trivial)
  let rest : Prog Unit :=
    .perform (.transact actedSession .null (sampleEvent "tool_settled")) fun _ => .ret ()
  let done : List (Event Eff Reply) := [⟨.transact actingSession .null (sampleEvent "run_started"),
    ⟨actingCommit.stored, actingCommit.result, actingCommit.session⟩⟩]
  have hacting : Pool.Run (machine sampleAgent Unit) ⟨{}, []⟩
      ⟨actingCommit.db, [⟨actingWorker, done, rest⟩]⟩ :=
    hspawn.tail (.act (.mk (t := .fresh actingWorker) (i := 0) rfl rfl
      ⟨"now", .inl ⟨rfl, rfl⟩⟩))
  have hacted : Pool.Run (machine sampleAgent Unit)
      ⟨actingCommit.db, [⟨actingWorker, done, rest⟩]⟩ ⟨actedCommit.db, [⟨actingWorker, done ++
        [⟨.transact actedSession .null (sampleEvent "tool_settled"),
          ⟨actedCommit.stored, actedCommit.result, actedCommit.session⟩⟩], .ret ()⟩]⟩ :=
    .single (.act (.mk (t := ⟨actingWorker, done, rest⟩) (i := 0) rfl rfl
      ⟨"later", .inl ⟨rfl, rfl⟩⟩))
  exact ⟨_, _, by decide +kernel, by decide +kernel,
    actions_recorded sampleAgent _ _ hacting hacted "session"⟩

end Storage

end StateDrivenAgent
