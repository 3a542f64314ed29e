import Mathlib.Data.List.GetD
import StateDrivenAgent.Go.Server
import StateDrivenAgent.Go.Verify.Batch
import StateDrivenAgent.Go.Verify.Ledger

/-!
# The ledger and the transcript

Every emitted event is one atomic commit of what the session stages. The observer keeps what is
committed, and which results of executed calls have joined the memory. A result that joined the
memory is recorded, or it waits in the outbox, where the next commit finds it; the outbox holds one
record, so this is so as long as nothing is put there while the record of another call waits.
-/

namespace StateDrivenAgent

open Interaction

namespace Go

/-! ## Commits -/

/-- `persistToolExecution`, as far as the outcome goes: one record for a call, and the outcome of a
terminal one is final. The code refuses more. -/
def persist (x : ExecutionRecord) : List ExecutionRecord → Option (List ExecutionRecord)
  | [] => some [x]
  | r :: rs =>
    if r.callId = x.callId then
      if r.status.terminal then
        if r.status = x.status ∧ r.result = x.result ∧ r.attempts = x.attempts then some (r :: rs)
        else none
      else some (x :: rs)
    else (persist x rs).map (r :: ·)

/-- The loop of `writeRunAndExecutions` over the outbox. -/
def persistAll : List ExecutionRecord → List ExecutionRecord → Option (List ExecutionRecord)
  | rs, [] => some rs
  | rs, x :: xs => (persist x rs).bind fun rs => persistAll rs xs

/-- An event is emitted by one commit, which stores what is staged or nothing. -/
def commitEmit : Emit := fun event => do
  let s ← GoM.get
  match ← (Proc.request (Ask.commit s event) : GoM (Except Failure Int)) with
  | .ok revision => GoM.modify (·.committed revision false)
  | .error err => Proc.fail err

/-! ## The observer -/

/-- What is committed, and the results of executed calls: those that joined the memory, and those
that had joined it at the last commit. -/
structure Books where
  records : List ExecutionRecord := []
  transcript : List TranscriptEntry := []
  executed : List (String × String) := []
  settled : List (String × String) := []

/-- The records have this outcome of the call. -/
def Recorded (rs : List ExecutionRecord) (p : String × String) : Prop :=
  ∃ r ∈ rs, r.callId = p.1 ∧ r.status.terminal = true ∧ r.result = some p.2

namespace Books

def next (g : Books) : (e : Ask) → Answer e → Books
  | .commit s _, .ok _ => { g with
      records := (persistAll g.records s.executionPending).getD g.records
      transcript := g.transcript ++ s.transcriptPending
      settled := g.executed }
  | .mark (.executed id result), _ => { g with executed := (id, result) :: g.executed }
  | .mark .request, _ => { g with executed := g.settled }
  | _, _ => g

/-- The database refuses what `persistAll` refuses. A careful run stages nothing while the record of
another call waits. -/
def may (careful : Bool) (g : Books) : (e : Ask) → Answer e → Prop
  | .commit s _, .ok _ => (persistAll g.records s.executionPending).isSome = true
  | .freshCallId used, id => id ≠ "" ∧ id ∉ used
  | .mark (.stage s id), _ => careful = true → ∀ r ∈ s.executionPending, r.callId = id
  | _, _ => True

/-- With a commit, every result in the memory is recorded; a record that waits is replaced by one of
the same execution. -/
def must (g : Books) : Ask → Prop
  | .commit s _ => ∀ p ∈ g.executed, Recorded g.records p ∨ Recorded s.executionPending p
  | .mark (.stage s id) => ∀ r ∈ s.executionPending, r.callId = id →
      ∃ x ∈ s.executions, x.callId = id ∧ x.executionId = r.executionId
  | _ => True

end Books

/-- The observer of the ledger. -/
def books (careful : Bool) : Monitor Ask Answer Books where
  may := Books.may careful
  must := Books.must
  next := Books.next

/-! ## Records -/

section Records

variable {x r : ExecutionRecord} {rs rs' xs : List ExecutionRecord} {p : String × String}

theorem Recorded.cons (h : Recorded rs p) : Recorded (r :: rs) p := by
  obtain ⟨y, hy, h⟩ := h
  exact ⟨y, List.mem_cons_of_mem r hy, h⟩

theorem recorded_cons : Recorded (r :: rs) p ↔
    (r.callId = p.1 ∧ r.status.terminal = true ∧ r.result = some p.2) ∨ Recorded rs p := by
  simp [Recorded]

theorem not_recorded_nil : ¬ Recorded [] p := by
  rintro ⟨r, hr, -⟩
  cases hr

/-- A terminal outcome is final. -/
theorem persist_keeps (h : persist x rs = some rs') (hp : Recorded rs p) : Recorded rs' p := by
  induction rs generalizing rs' with
  | nil => exact absurd hp not_recorded_nil
  | cons r rs ih =>
    unfold persist at h
    split at h
    · split at h
      · split at h
        · rw [← Option.some.inj h]
          exact hp
        · cases h
      next hopen =>
        rw [← Option.some.inj h]
        rcases recorded_cons.1 hp with ⟨-, hterminal, -⟩ | hp
        · exact absurd hterminal hopen
        · exact hp.cons
    · obtain ⟨rs₁, h₁, rfl⟩ := Option.map_eq_some_iff.1 h
      rcases recorded_cons.1 hp with hr | hp
      · exact recorded_cons.2 (.inl hr)
      · exact (ih h₁ hp).cons

/-- A terminal outcome that is accepted is recorded. -/
theorem persist_records (h : persist x rs = some rs') {c : String}
    (hx : x.status.terminal = true) (hc : x.result = some c) : Recorded rs' (x.callId, c) := by
  induction rs generalizing rs' with
  | nil =>
    rw [← Option.some.inj h]
    exact recorded_cons.2 (.inl ⟨rfl, hx, hc⟩)
  | cons r rs ih =>
    unfold persist at h
    split at h
    next hid =>
      split at h
      · split at h
        next hterminal hsame =>
          rw [← Option.some.inj h]
          exact recorded_cons.2 (.inl ⟨hid, hterminal, hsame.2.1.trans hc⟩)
        · cases h
      · rw [← Option.some.inj h]
        exact recorded_cons.2 (.inl ⟨rfl, hx, hc⟩)
    · obtain ⟨rs₁, h₁, rfl⟩ := Option.map_eq_some_iff.1 h
      exact (ih h₁).cons

/-- What was recorded stays so, and what waited is recorded. -/
theorem persistAll_records (h : persistAll rs xs = some rs')
    (hp : Recorded rs p ∨ Recorded xs p) : Recorded rs' p := by
  induction xs generalizing rs with
  | nil =>
    rw [← Option.some.inj h]
    exact hp.resolve_right not_recorded_nil
  | cons x xs ih =>
    obtain ⟨rs₁, h₁, h⟩ := Option.bind_eq_some_iff.1 h
    refine ih h ?_
    rcases hp with hp | hp
    · exact .inl (persist_keeps h₁ hp)
    · rcases recorded_cons.1 hp with ⟨hid, hterminal, hc⟩ | hp
      · refine .inl ?_
        have := persist_records h₁ hterminal hc
        rwa [hid] at this
      · exact .inr hp

theorem recorded_executionRecord {y : ToolExecution} (hy : y.status.terminal = true) :
    Recorded [executionRecord y] (y.callId, y.result) :=
  ⟨_, List.mem_singleton_self _, rfl, hy, if_pos hy⟩

end Records

/-! ## The invariant -/

/-- The outcome is recorded, or it waits in the outbox. -/
def Backed (g : Books) (s : Session) (p : String × String) : Prop :=
  Recorded g.records p ∨ Recorded s.executionPending p

/-- Between the calls; `done` are the calls that may have a record in the outbox. -/
structure Calm (done : List String) (g : Books) (s : Session) : Prop where
  staged : s.Staged
  unique : (s.executions.map ToolExecution.callId).Nodup
  marks : ∀ p ∈ g.executed, Backed g s p
  ledger : ∀ x ∈ s.executions, x.status.terminal = true → Backed g s (x.callId, x.result)
  waits : ∀ r ∈ s.executionPending, r.callId ∈ done

/-- While the call `id` is performed on the execution `i`. Its outbox may be replaced, so an earlier
outcome of the same call has to be recorded. -/
structure Calling (id : String) (done : List String) (i : Nat) (g : Books) (s : Session) : Prop where
  staged : s.Staged
  bound : i < s.executions.length
  call : (s.execution i).callId = id
  unique : (s.executions.map ToolExecution.callId).Nodup
  marks : ∀ p ∈ g.executed, Recorded g.records p ∨ p.1 ≠ id ∧ Recorded s.executionPending p
  ledger : ∀ x ∈ s.executions, x.status.terminal = true → Backed g s (x.callId, x.result)
  waits : ∀ r ∈ s.executionPending, r.callId ∈ id :: done
  same : ∀ r ∈ s.executionPending, r.callId = id → r.executionId = (s.execution i).executionId

section Invariant

variable {id : String} {done : List String} {i : Nat} {g : Books} {s s' : Session}

theorem Recorded.callId {rs : List ExecutionRecord} {p : String × String} (h : Recorded rs p) :
    ∃ r ∈ rs, r.callId = p.1 := by
  obtain ⟨r, hr, hid, -⟩ := h
  exact ⟨r, hr, hid⟩

theorem Calm.mono {done' : List String} (h : Calm done g s) (hd : ∀ id ∈ done, id ∈ done') :
    Calm done' g s where
  staged := h.staged
  unique := h.unique
  marks := h.marks
  ledger := h.ledger
  waits r hr := hd _ (h.waits r hr)

theorem Backed.quiet {p : String × String} (h : Backed g s p) (hq : Quiet s s') : Backed g s' p := by
  unfold Backed
  rw [hq.outbox]
  exact h

theorem Calm.quiet (h : Calm done g s) (hq : Quiet s s') : Calm done g s' where
  staged := hq.staged h.staged
  unique := hq.executions ▸ h.unique
  marks p hp := (h.marks p hp).quiet hq
  ledger x hx hterminal := (h.ledger x (hq.executions ▸ hx) hterminal).quiet hq
  waits r hr := h.waits r (hq.outbox ▸ hr)

theorem calm_stands (done : List String) : Stands (books true) (Calm done) where
  staged h := h.staged
  plain a ha h := by
    cases a with
    | commit | transact | mark => cases ha
    | _ => exact ⟨trivial, fun _ _ => h⟩
  quiet hq h := h.quiet hq
  entry x _ h := ⟨h.staged, h.unique, h.marks, h.ledger, h.waits⟩

theorem calm_fresh (careful : Bool) : FreshCallIds (books careful) := fun _ _ _ h => h

theorem next_commit {careful : Bool} {rs : List ExecutionRecord} {event : Value} {revision : Int}
    (h : persistAll g.records s.executionPending = some rs) :
    (books careful).next g (.commit s event) (.ok revision) = { g with
      records := rs, transcript := g.transcript ++ s.transcriptPending, settled := g.executed } :=
  congrArg (fun rs => ({ g with
      records := rs, transcript := g.transcript ++ s.transcriptPending
      settled := g.executed } : Books)) (congrArg (·.getD g.records) h)

/-- What a commit leaves: everything is recorded. -/
theorem Calm.commit {rs : List ExecutionRecord} (h : Calm done g s)
    (hrs : persistAll g.records s.executionPending = some rs) (transcript : List TranscriptEntry)
    (settled : List (String × String)) (revision : Int) (reload : Bool) :
    Calm [] { g with records := rs, transcript, settled } (s.committed revision reload) where
  staged := h.staged
  unique := h.unique
  marks p hp := .inl (persistAll_records hrs (h.marks p hp))
  ledger x hx hterminal := .inl (persistAll_records hrs (h.ledger x hx hterminal))
  waits _ hr := absurd hr List.not_mem_nil

theorem commitEmit_calm (event : Value) (h : Calm done g s) :
    Proc.Sat (books true) (commitEmit event) g s (fun g' s' _ => Calm [] g' s')
      fun g' s' _ => Calm done g' s' := by
  refine Proc.sat_state_bind.2 (Proc.sat_bind.2 ((Proc.sat_request _).2 ⟨h.marks, fun r hr => ?_⟩))
  cases r with
  | error err => exact h
  | ok revision =>
    obtain ⟨rs, hrs⟩ := Option.isSome_iff_exists.1 hr
    rw [next_commit hrs]
    exact h.commit hrs _ _ _ _

theorem commitEmit_keeps (done : List String) (event : Value) :
    Proc.Keeps (books true) (Calm done) (commitEmit event) := by
  intro g s h
  refine (commitEmit_calm event h).mono_post fun g s _ h => ?_
  exact h.mono fun _ hid => absurd hid List.not_mem_nil

/-! ## During a call -/

theorem Calling.backed (h : Calling id done i g s) : ∀ p ∈ g.executed, Backed g s p :=
  fun p hp => (h.marks p hp).imp_right And.right

theorem Calling.closed (h : Calling id done i g s) : Calm (id :: done) g s where
  staged := h.staged
  unique := h.unique
  marks := h.backed
  ledger := h.ledger
  waits := h.waits

theorem map_modify {α β : Type} {f : α → α} {k : α → β} (h : ∀ x, k (f x) = k x) (xs : List α)
    (i : Nat) : (xs.modify i f).map k = xs.map k := by
  induction xs generalizing i with
  | nil => simp
  | cons x xs ih =>
    cases i with
    | zero => simp [h]
    | succ i => simp [ih]

theorem mem_modify {α : Type} {f : α → α} {xs : List α} {i : Nat} {x : α} (h : x ∈ xs.modify i f) :
    x ∈ xs ∨ ∃ y ∈ xs, xs[i]? = some y ∧ x = f y := by
  obtain ⟨j, hj⟩ := List.mem_iff_getElem?.1 h
  rw [List.getElem?_modify] at hj
  obtain ⟨y, hy, hx⟩ := Option.map_eq_some_iff.1 hj
  have hmem := List.mem_of_getElem? hy
  split at hx
  next hij =>
    subst hij
    exact .inr ⟨y, hmem, hy, hx.symm⟩
  next => exact .inl (hx ▸ hmem)

theorem execution_setExecution {f : ToolExecution → ToolExecution} (h : i < s.executions.length) :
    (s.setExecution i f).execution i = f (s.execution i) := by
  simp [Session.setExecution, Session.execution, List.getD_eq_getElem?_getD, h]

theorem execution_of_getElem? {x : ToolExecution} (h : s.executions[i]? = some x) :
    s.execution i = x := by
  rw [Session.execution, List.getD_eq_getElem?_getD, h, Option.getD_some]

/-- A change that leaves the outcome of the execution, if it has one. -/
theorem Calling.change {f : ToolExecution → ToolExecution} (hcall : ∀ x, (f x).callId = x.callId)
    (hexecution : ∀ x, (f x).executionId = x.executionId)
    (houtcome : ∀ x, (f x).status.terminal = true → (f x).status = x.status ∧ (f x).result = x.result)
    (h : Calling id done i g s) : Calling id done i g (s.setExecution i f) where
  staged := h.staged
  bound := by
    rw [Session.setExecution, List.length_modify]
    exact h.bound
  call := by
    rw [execution_setExecution h.bound, hcall]
    exact h.call
  unique := by
    rw [Session.setExecution, map_modify hcall]
    exact h.unique
  marks := h.marks
  ledger x hx hterminal := by
    rcases mem_modify hx with hx | ⟨y, hy, -, rfl⟩
    · exact h.ledger x hx hterminal
    · obtain ⟨hstatus, hresult⟩ := houtcome y hterminal
      have := h.ledger y hy (hstatus ▸ hterminal)
      rwa [hcall, hresult]
  waits := h.waits
  same := by
    rw [execution_setExecution h.bound, hexecution]
    exact h.same

/-- The execution may have got an outcome that is not in the outbox yet. -/
structure Resolving (id : String) (i : Nat) (g : Books) (s : Session) : Prop where
  staged : s.Staged
  bound : i < s.executions.length
  call : (s.execution i).callId = id
  unique : (s.executions.map ToolExecution.callId).Nodup
  marks : ∀ p ∈ g.executed, Recorded g.records p ∨ p.1 ≠ id ∧ Recorded s.executionPending p
  ledger : ∀ x ∈ s.executions, x.callId ≠ id → x.status.terminal = true →
    Backed g s (x.callId, x.result)
  same : ∀ r ∈ s.executionPending, r.callId = id → r.executionId = (s.execution i).executionId

theorem Calling.resolving (h : Calling id done i g s) : Resolving id i g s where
  staged := h.staged
  bound := h.bound
  call := h.call
  unique := h.unique
  marks := h.marks
  ledger x hx _ := h.ledger x hx
  same := h.same

theorem Calling.resolved (h : Calling id done i g s) (result finished : String) :
    Resolving id i g (s.resolved i result finished) where
  staged := h.staged
  bound := by
    rw [Session.resolved, Session.setExecution, List.length_modify]
    exact h.bound
  call := by
    rw [Session.resolved, execution_setExecution h.bound]
    exact h.call
  unique := by
    rw [Session.resolved, Session.setExecution, map_modify]
    · exact h.unique
    · intro x
      rfl
  marks := h.marks
  ledger x hx hid hterminal := by
    rcases mem_modify hx with hx | ⟨y, -, hy, rfl⟩
    · exact h.ledger x hx hterminal
    · refine absurd ?_ hid
      rw [← h.call, execution_of_getElem? hy]
  same := by
    rw [Session.resolved, execution_setExecution h.bound]
    exact h.same

theorem Resolving.mem (h : Resolving id i g s) : s.execution i ∈ s.executions := by
  rw [Session.execution, List.getD_eq_getElem _ _ h.bound]
  exact List.getElem_mem h.bound

theorem Resolving.must (h : Resolving id i g s) :
    (books true).must g (.mark (.stage s (s.execution i).callId)) := fun r hr hcall =>
  ⟨_, h.mem, rfl, (h.same r hr (hcall.trans h.call)).symm⟩

/-- The record of the execution replaces what waits, which is of the same call. -/
theorem Resolving.stage (h : Resolving id i g s) (hsame : ∀ r ∈ s.executionPending, r.callId = id) :
    Calling id done i g (s.staging i) := by
  have hother : ∀ {p : String × String}, p.1 ≠ id → ¬ Recorded s.executionPending p := by
    rintro p hp ⟨r, hr, hid, -⟩
    exact hp (hid ▸ hsame r hr)
  refine ⟨h.staged, h.bound, h.call, h.unique, fun p hp => ?_, fun x hx hterminal => ?_, ?_, ?_⟩
  · rcases h.marks p hp with hp | ⟨hid, hp⟩
    · exact .inl hp
    · exact absurd hp (hother hid)
  · by_cases hid : x.callId = id
    · obtain rfl := List.inj_on_of_nodup_map h.unique hx h.mem (hid.trans h.call.symm)
      exact .inr (recorded_executionRecord hterminal)
    · exact .inl ((h.ledger x hx hid hterminal).resolve_right (hother hid))
  · intro r hr
    rw [List.mem_singleton.1 hr]
    exact List.mem_cons.2 (.inl h.call)
  · intro r hr _
    rw [List.mem_singleton.1 hr]
    rfl

theorem resultStatus_terminal (result : String) : (resultStatus result).terminal = true := by
  unfold resultStatus
  split <;> rfl

/-- What is due when a call has a result. -/
abbrev Reported (id : String) (g : Books) (s : Session) (result : String) : Prop :=
  Backed g s (id, result)

theorem Calling.quiet (h : Calling id done i g s) (hq : Quiet s s') : Calling id done i g s' := by
  have hexecution : s'.execution i = s.execution i := by
    rw [Session.execution, hq.executions, Session.execution]
  exact ⟨hq.staged h.staged, hq.executions ▸ h.bound, hexecution ▸ h.call, hq.executions ▸ h.unique,
    hq.outbox ▸ h.marks, fun x hx hterminal => (h.ledger x (hq.executions ▸ hx) hterminal).quiet hq,
    hq.outbox ▸ h.waits, hexecution ▸ hq.outbox ▸ h.same⟩

theorem calling_stands (id : String) (done : List String) (i : Nat) :
    Stands (books true) (Calling id done i) where
  staged h := h.staged
  plain a ha h := by
    cases a with
    | commit | transact | mark => cases ha
    | _ => exact ⟨trivial, fun _ _ => h⟩
  quiet hq h := h.quiet hq
  entry x _ h := ⟨h.staged, h.bound, h.call, h.unique, h.marks, h.ledger, h.waits, h.same⟩

theorem calling_delivers (id : String) (done : List String) (i : Nat) :
    Delivers (books true) (Calling id done i) i where
  elapsed _ _ := Proc.keeps_request fun _ _ h => ⟨trivial, fun _ _ => h⟩
  idempotent _ _ _ := Proc.keeps_request fun _ _ h => ⟨trivial, fun _ _ => h⟩
  begun h := ⟨trivial, fun _ _ => h.change (fun _ => rfl) (fun _ => rfl) fun _ hterminal =>
    absurd hterminal Bool.false_ne_true⟩

theorem calling_bears (id : String) (done : List String) (i : Nat) :
    Bears (books true) (Calling id done i) (Reported id) i where
  toStands := calling_stands id done i
  change hf h := h.change hf.call hf.execution hf.outcome
  rows rows h := ⟨h.staged, h.bound, h.call, h.unique, h.marks, h.ledger, h.waits, h.same⟩
  stage h := by
    refine ⟨h.resolving.must, fun _ hsame => h.resolving.stage ?_⟩
    exact h.call ▸ hsame rfl
  settle {g s} result finished h := by
    have hr := h.resolved result finished
    have hx : (s.resolved i result finished).execution i = { s.execution i with
        status := resultStatus result, result, finishedAt := some finished } :=
      execution_setExecution h.bound
    refine ⟨hr.must, fun _ hsame => ⟨hr.stage (hr.call ▸ hsame rfl), .inr ?_⟩⟩
    have hterminal : ((s.resolved i result finished).execution i).status.terminal = true := by
      rw [hx]
      exact resultStatus_terminal result
    have hrecord := recorded_executionRecord hterminal
    rwa [hr.call, congrArg ToolExecution.result hx] at hrecord
  due result := {
    staged := fun h => h.1.staged
    plain := fun a ha h => by
      cases a with
      | commit | transact | mark => cases ha
      | _ => exact ⟨trivial, fun _ _ => h⟩
    quiet := fun hq h => ⟨h.1.quiet hq, h.2.quiet hq⟩
    entry := fun x hx h => ⟨(calling_stands id done i).entry x hx h.1, h.2⟩ }
  terminal {g s} h hterminal := by
    have := h.ledger _ h.resolving.mem hterminal
    rwa [h.call] at this

/-- Between the calls, `id` has no record in the outbox. -/
theorem Calm.found (h : Calm done g s) (hid : id ∉ done)
    (hi : s.executions.findIdx? (fun x => x.callId = id) = some i) : Calling id done i g s := by
  obtain ⟨hbound, hcall, -⟩ := List.findIdx?_eq_some_iff_getElem.1 hi
  refine ⟨h.staged, hbound, ?_, h.unique, fun p hp => ?_, h.ledger, fun r hr => ?_,
    fun r hr heq => absurd (heq ▸ h.waits r hr) hid⟩
  · rw [Session.execution, List.getD_eq_getElem _ _ hbound]
    exact of_decide_eq_true hcall
  · refine (h.marks p hp).imp_right fun hp => ⟨?_, hp⟩
    rintro rfl
    obtain ⟨r, hr, heq⟩ := hp.callId
    exact hid (heq ▸ h.waits r hr)
  · exact List.mem_cons_of_mem id (h.waits r hr)

theorem Calm.created (h : Calm done g s) (hid : id ∉ done)
    (hnone : s.executions.findIdx? (fun x => x.callId = id) = none) {x : ToolExecution}
    (hx : x.callId = id) (hpending : x.status = .pending) :
    Calling id done s.executions.length g { s with executions := s.executions ++ [x] } := by
  have hfresh : ∀ y ∈ s.executions, y.callId ≠ id := fun y hy =>
    of_decide_eq_false (List.findIdx?_eq_none_iff.1 hnone y hy)
  refine ⟨h.staged, ?_, ?_, ?_, fun p hp => ?_, fun y hy hterminal => ?_, fun r hr => ?_,
    fun r hr heq => absurd (heq ▸ h.waits r hr) hid⟩
  · simp
  · simp [Session.execution, List.getD_eq_getElem?_getD, hx]
  · rw [List.map_append, List.nodup_append]
    refine ⟨h.unique, by simp, fun a ha b hb heq => ?_⟩
    obtain ⟨y, hy, rfl⟩ := List.mem_map.1 ha
    exact hfresh y hy (heq.trans ((List.mem_singleton.1 hb).trans hx))
  · refine (h.marks p hp).imp_right fun hp => ⟨?_, hp⟩
    rintro rfl
    obtain ⟨r, hr, heq⟩ := hp.callId
    exact hid (heq ▸ h.waits r hr)
  · rcases List.mem_append.1 hy with hy | hy
    · exact h.ledger y hy hterminal
    · rw [List.mem_singleton.1 hy, hpending] at hterminal
      cases hterminal
  · exact List.mem_cons_of_mem id (h.waits r hr)

theorem calm_opens (hid : id ∉ done) :
    Opens (books true) id (Calm done) (Calm (id :: done)) (Calling id done) (Reported id) where
  calm := calm_stands done
  bears := calling_bears id done
  found h hi := h.found hid hi
  created h hnone hx hpending _ := h.created hid hnone hx hpending
  closed h := h.closed
  kept h := h.mono fun _ => List.mem_cons_of_mem id

theorem Calling.commit {rs : List ExecutionRecord} (h : Calling id done i g s)
    (hrs : persistAll g.records s.executionPending = some rs) (transcript : List TranscriptEntry)
    (settled : List (String × String)) (revision : Int) (reload : Bool) :
    Calling id done i { g with records := rs, transcript, settled }
      (s.committed revision reload) where
  staged := h.staged
  bound := h.bound
  call := h.call
  unique := h.unique
  marks p hp := .inl (persistAll_records hrs (h.backed p hp))
  ledger x hx hterminal := .inl (persistAll_records hrs (h.ledger x hx hterminal))
  waits _ hr := absurd hr List.not_mem_nil
  same _ hr := absurd hr List.not_mem_nil

theorem commitEmit_calling (event : Value) :
    Proc.Keeps (books true) (Calling id done i) (commitEmit event) := by
  intro g s h
  refine Proc.sat_state_bind.2 (Proc.sat_bind.2 ((Proc.sat_request _).2 ⟨h.backed, fun r hr => ?_⟩))
  cases r with
  | error err => exact h
  | ok revision =>
    obtain ⟨rs, hrs⟩ := Option.isSome_iff_exists.1 hr
    rw [next_commit hrs]
    exact h.commit hrs _ _ _ _

/-! ## The batch -/

/-- After a failure. -/
def Loose (g : Books) (s : Session) : Prop := ∃ done, Calm done g s

theorem loose_stands : Stands (books true) Loose where
  staged h := h.elim fun _ h => h.staged
  plain a ha h := by
    obtain ⟨done, h⟩ := h
    exact ⟨((calm_stands done).plain a ha h).1, fun r hr => ⟨done, ((calm_stands done).plain a ha h).2 r hr⟩⟩
  quiet hq h := h.imp fun _ h => h.quiet hq
  entry x hx h := h.imp fun done h => (calm_stands done).entry x hx h

variable (e : Engine)

theorem call_calm (h : Calm done g s) (hid : id ∉ done) (name : String) (args : Option Arguments) :
    Proc.Sat (books true) (e.call commitEmit id name args) g s
      (fun g' s' out => Calm (id :: done) g' s' ∧ Due (Reported id) g' s' out)
      fun g' s' _ => Calm (id :: done) g' s' :=
  call_sat (calm_opens hid) e (fun _ => commitEmit_calling)
    (dispatches (calm_opens hid) e (fun _ => commitEmit_calling) (calling_delivers id done) name _) h

theorem endBlocked_calm (h : Calm done g s) (id result : String) :
    Proc.Sat (books true) (Engine.endBlocked commitEmit id result) g s (fun _ _ _ => False)
      fun g' s' _ => Loose g' s' := by
  refine Proc.sat_update_bind.2 (Proc.sat_bind.2 ?_)
  have hq : Quiet s (s.blockOn result) := .same rfl rfl
  exact (commitEmit_calm _ (h.quiet hq)).mono (fun _ _ _ h => ⟨[], h⟩) fun _ _ _ h => ⟨done, h⟩

theorem calm_due_stands (done : List String) (id : String) (out : String × Bool) :
    Stands (books true) fun g s => Calm done g s ∧ Due (Reported id) g s out where
  staged h := h.1.staged
  plain a ha h := by
    cases a with
    | commit | transact | mark => cases ha
    | _ => exact ⟨trivial, fun _ _ => h⟩
  quiet hq h := ⟨h.1.quiet hq, fun hinvoked => (h.2 hinvoked).quiet hq⟩
  entry x hx h := ⟨(calm_stands done).entry x hx h.1, h.2⟩

/-- A result joins the memory; that of an executed call is recorded, or waits. -/
theorem appendResult_calm (h : Calm done g s) {result : String} {invoked : Bool}
    (hdue : Due (Reported id) g s (result, invoked)) (name : String) (args : Arguments) :
    Proc.Sat (books true) (e.appendResult id name args result invoked) g s
      (fun g' s' _ => Calm done g' s') fun g' s' _ => Calm done g' s' := by
  have hboth := calm_due_stands done id (result, invoked)
  refine Proc.sat_bind.2 ((hboth.appendMessage rfl g s ⟨h, hdue⟩).mono (fun g s _ h => ?_)
    fun _ _ _ h => h.1)
  unfold GoM.when
  split
  next hinvoked =>
    refine Proc.sat_bind.2 ((Proc.sat_request _).2 ⟨trivial, fun _ _ => ?_⟩)
    have hmarked : Calm done ((books true).next g (.mark (.executed id result)) ⟨⟩) s :=
      ⟨h.1.staged, h.1.unique, List.forall_mem_cons.2 ⟨h.2 hinvoked, h.1.marks⟩, h.1.ledger, h.1.waits⟩
    exact hmarked.quiet (record_quiet e name args result s)
  next => exact h.1

theorem Calm.dropPending (h : Calm done g s) : Calm done g (Engine.dropPending s) :=
  ⟨h.staged, h.unique, h.marks, h.ledger, h.waits⟩

/-- Recovery settles each call with its own commit. -/
theorem recoverPending_leads (left : Nat) :
    Proc.Leads (books true) (Calm []) Loose (e.recoverPending commitEmit left) := by
  induction left with
  | zero => exact fun g s h => h
  | succ left ih =>
    intro g s h
    refine Proc.sat_state_bind.2 ?_
    split
    · exact h
    · split
      · exact ⟨[], h⟩
      · split
        · exact ⟨[], h⟩
        next pending _ _ _ args _ _ =>
          refine Proc.sat_bind.2 ((call_calm e h List.not_mem_nil _ _).mono (fun g s out h => ?_)
            fun _ _ _ h => ⟨_, h⟩)
          obtain ⟨result, invoked⟩ := out
          dsimp only
          split
          · exact (endBlocked_calm h.1 _ _).mono (fun _ _ _ h => h.elim) fun _ _ _ h => h
          · have hq := captureArtifacts_quiet e pending.id pending.name args result s
            refine Proc.sat_update_bind.2 (Proc.sat_bind.2 ((appendResult_calm e (h.1.quiet hq)
              (fun hinvoked => (h.2 hinvoked).quiet hq) _ _).mono (fun g s _ h => ?_)
              fun _ _ _ h => ⟨_, h⟩))
            refine Proc.sat_update_bind.2 (Proc.sat_bind.2 ((commitEmit_calm _ h.dropPending).mono
              (fun g s _ h => ih g s h) fun _ _ _ h => ⟨_, h⟩))

theorem settleCall_calm (h : Calm done g s) (batch : Engine.Batch) (call : ToolCall)
    (hid : call.id ∉ done) :
    Proc.Sat (books true) (e.settleCall commitEmit batch call) g s
      (fun g' s' batch => Calm (call.id :: done) g' s' ∧ (batch.emitErr = none → Calm [] g' s'))
      fun g' s' _ => Loose g' s' := by
  have hrefused : Calm (call.id :: done) g s ∧
      Due (Reported call.id) g s ("ERROR: invalid tool arguments.", false) :=
    ⟨h.mono fun _ => List.mem_cons_of_mem _, due_open⟩
  refine Proc.sat_bind.2 ((?_ : Proc.Sat (books true) _ g s (fun g s out =>
    Calm (call.id :: done) g s ∧ Due (Reported call.id) g s out) _).mono_post fun g s out h => ?_)
  · split
    · split
      · exact (call_calm e h hid _ _).mono (fun _ _ _ h => h) fun _ _ _ h => ⟨_, h⟩
      · exact hrefused
    · exact hrefused
  · obtain ⟨result, invoked⟩ := out
    dsimp only
    split
    · exact Proc.sat_bind.2 ((endBlocked_calm h.1 _ _).mono (fun _ _ _ h => h.elim) fun _ _ _ h => h)
    · have hkeeps : Stands (books true) fun g s =>
          Calm (call.id :: done) g s ∧ Due (Reported call.id) g s (result, invoked) :=
        calm_due_stands _ _ _
      refine Proc.sat_bind.2 ((keeps_when (hkeeps.change fun s => ?_) g s h).mono (fun g s _ h => ?_)
        fun _ _ _ h => ⟨_, h.1⟩)
      · exact (captureArtifacts_quiet e _ _ _ _ s).trans (rememberOutput_quiet e _ _ _ _)
      · refine Proc.sat_bind.2 ((appendResult_calm e h.1 h.2 _ _).mono (fun g s _ h => ?_)
          fun _ _ _ h => ⟨_, h⟩)
        refine Proc.sat_update_bind.2 (Proc.sat_bind.2 (Proc.sat_attempt.2
          ((commitEmit_calm _ h.dropPending).mono (fun g s _ h => ?_) fun g s err h => ?_)))
        · exact ⟨h.mono fun _ hid => absurd hid List.not_mem_nil, fun _ => h⟩
        · refine ⟨h, fun hnone => ?_⟩
          dsimp only at hnone
          split at hnone
          · cases hnone
          · cases hnone
          · next heq => cases heq

/-- After a batch whose every event was committed, the outbox is empty. -/
theorem settleBatch_calm (h : Calm done g s) (batch : Engine.Batch) (calls : List ToolCall)
    (hsent : batch.emitErr = none → Calm [] g s) (hids : (calls.map ToolCall.id).Nodup)
    (hdone : ∀ call ∈ calls, call.id ∉ done) :
    Proc.Sat (books true) (e.settleBatch commitEmit batch calls) g s
      (fun g' s' batch => Loose g' s' ∧ (batch.emitErr = none → Calm [] g' s'))
      fun g' s' _ => Loose g' s' := by
  induction calls generalizing done batch g s with
  | nil => exact ⟨⟨done, h⟩, hsent⟩
  | cons call calls ih =>
    obtain ⟨hnew, hids⟩ := List.nodup_cons.1 hids
    obtain ⟨hcall, hdone⟩ := List.forall_mem_cons.1 hdone
    refine Proc.sat_bind.2 ((settleCall_calm e h batch call hcall).mono_post fun g s batch h => ?_)
    refine ih h.1 batch h.2 hids fun x hx hmem => ?_
    rcases List.mem_cons.1 hmem with heq | hmem
    · exact hnew (heq ▸ List.mem_map_of_mem hx)
    · exact hdone x hx hmem

theorem wireCalls_calm (calls : List ToolCall) :
    Proc.Keeps (books true) (Calm done) (e.wireCalls commitEmit calls) := fun g s h =>
  (wireCalls_yields (calm_stands done) (commitEmit_keeps done) e calls g s h).mono_post
    fun _ _ _ h => h.1

theorem actTools_leads (before : String) {items : List ToolCall} (hitems : Distinct items) :
    Proc.Leads (books true) (Calm []) Loose (e.actTools commitEmit before items) := by
  have hloose : ∀ g s, Calm [] g s → Loose g s := fun _ _ h => ⟨[], h⟩
  refine Proc.leads_bind ((wireCalls_calm e items).leads hloose) fun calls =>
    Proc.leads_bind (((calm_stands []).appendBatch fun _ _ h =>
      ⟨h.staged, h.unique, h.marks, h.ledger, h.waits⟩).leads hloose) fun _ g s h => ?_
  have h' : Calm [] g { s with pendingToolCalls := items.map ToolCall.pending } :=
    ⟨h.staged, h.unique, h.marks, h.ledger, h.waits⟩
  refine Proc.sat_update_bind.2 (Proc.sat_bind.2 ((settleBatch_calm e h' {} items (fun _ => h')
    hitems.ids fun _ _ => List.not_mem_nil).mono_post fun g s batch h => ?_))
  split
  · exact h.1
  next hnone =>
    have hkeeps := calm_stands []
    have hemit := commitEmit_keeps []
    refine Proc.leads_bind ((reportBatch_keeps hkeeps hemit e _).leads hloose) (fun _ =>
      Proc.leads_bind ((observeProgress_keeps hkeeps hemit e before).leads hloose) fun _ =>
      (Proc.keeps_pure _).leads hloose) g s (h.2 hnone)

theorem run_calm (max : Int) : Proc.Leads (books true) (Calm []) Loose (e.run commitEmit max) :=
  run_leads (calm_stands []) loose_stands (fun _ _ h => ⟨[], h⟩) (commitEmit_keeps [])
    (decides (calm_stands []) (calm_fresh true) (commitEmit_keeps []) e fun before _ =>
      actTools_leads e before) (recoverPending_leads e) max

end Invariant

/-! ## Runs -/

/-- A session as it is fetched: nothing waits, and its executions are those of the ledger. -/
structure Fetched (g : Books) (s : Session) : Prop where
  staged : s.Staged
  outbox : s.executionPending = []
  unique : (s.executions.map ToolExecution.callId).Nodup
  ledger : ∀ x ∈ s.executions, executionRecord x ∈ g.records

/-- A run of the engine on such a session. -/
def Engaged (g : Books) (p : Program Ask Answer (Except Failure Unit × Session)) : Prop :=
  ∃ (e : Engine) (max : Int) (s : Session), Fetched g s ∧
    p = (do GoM.mark .request; e.run commitEmit max : GoM Unit) s

/-- The entry is the result of a call. -/
structure TranscriptEntry.IsResult (x : TranscriptEntry) (id content : String) : Prop where
  kind : x.kind = "message"
  role : x.payload.get "role" = some (.str "tool")
  call : x.payload.get "tool_call_id" = some (.str id)
  content : x.payload.get "content" = some (.str content)

/-- An executed call whose result is in the committed transcript has a committed record with a
terminal status and this result. -/
def Books.Agree (g : Books) : Prop :=
  ∀ x ∈ g.transcript, ∀ id content, TranscriptEntry.IsResult x id content →
    (id, content) ∈ g.settled →
    ∃ r ∈ g.records, r.callId = id ∧ r.status.terminal = true ∧ r.result = some content

/-- What had joined the memory at the last commit is recorded. -/
def Books.Recording (g : Books) : Prop := ∀ p ∈ g.settled, Recorded g.records p

theorem recording_stable : (books true).Stable Books.Recording := by
  intro g e r hg hmust hmay
  cases e with
  | mark m => cases m <;> exact hg
  | commit s event =>
    cases r with
    | error err => exact hg
    | ok revision =>
      obtain ⟨rs, hrs⟩ := Option.isSome_iff_exists.1 hmay
      rw [next_commit hrs]
      intro p hp
      exact persistAll_records hrs (hmust p hp)
  | _ => exact hg

theorem engaged_sat {g : Books} {p : Program Ask Answer (Except Failure Unit × Session)}
    (hg : g.Recording) (hp : Engaged g p) : p.Sat (books true) g fun _ _ => True := by
  obtain ⟨e, max, s, hs, rfl⟩ := hp
  have hcalm : Calm [] { g with executed := g.settled } s := by
    refine ⟨hs.staged, hs.unique, fun p hp => .inl (hg p hp), fun x hx hterminal => .inl ?_, ?_⟩
    · exact ⟨_, hs.ledger x hx, rfl, hterminal, if_pos hterminal⟩
    · rw [hs.outbox]
      exact fun r hr => absurd hr List.not_mem_nil
  have hsat : Proc.Sat (books true) (do GoM.mark .request; e.run commitEmit max : GoM Unit) g s
      (fun _ _ _ => True) fun _ _ _ => True :=
    Proc.sat_bind.2 ((Proc.sat_request _).2 ⟨trivial, fun _ _ =>
      (run_calm e max _ s hcalm).mono (fun _ _ _ _ => trivial) fun _ _ _ _ => trivial⟩)
  refine Program.Sat.mono hsat fun _ _ _ => trivial

section Sample

instance Books.decidableMay (careful : Bool) (g : Books) :
    (e : Ask) → (r : Answer e) → Decidable (g.may careful e r)
  | .commit s _, .ok _ => inferInstanceAs (Decidable ((persistAll g.records s.executionPending).isSome = true))
  | .freshCallId used, id => inferInstanceAs (Decidable (id ≠ "" ∧ id ∉ used))
  | .mark (.stage s id), _ =>
    inferInstanceAs (Decidable (careful = true → ∀ r ∈ s.executionPending, r.callId = id))
  | .commit _ _, .error _ | .mark .request, _ | .mark .save, _ | .mark (.executed ..), _ | .uuid, _
  | .now, _ | .checkpoint _, _ | .elapsed .., _ | .requestDiagnostics, _ | .chat _, _ | .compact _, _
  | .invoke .., _ | .idempotent .., _ | .verify .., _ | .reconcile .., _ | .transact .., _
  | .contextDone, _ => isTrue trivial

instance booksDecidableMay (careful : Bool) (g : Books) (e : Ask) (r : Answer e) :
    Decidable ((books careful).may g e r) := inferInstanceAs (Decidable (g.may careful e r))

/-- An engine with one tool, whose arguments are always empty. -/
def toolEngine : Engine where
  config := { tools := [{ name := "tool", parameters := .obj [] }] }
  platform := {
    host := exactHost, decoder := fun _ => .ok (.obj []), marshal := fun _ => some "\x7b\x7d"
    regexp := fun _ => none, toLower := fun text => text, formatFloat := fun _ => "0" }
  registry := {
    tools := fun _ => true, capability := fun _ => none, idempotent := fun _ => false
    reconciler := fun _ => false, verifier := fun _ => false }
  guidance := {
    workflowGuidance := fun _ => "", argumentFeedback := fun _ _ _ => ""
    completionErrors := fun _ _ => [], progressFingerprint := fun _ => "progress"
    parseTable := fun _ => none }

def toolSpelling (id : String) : Spelling :=
  .obj [("id", .str id), ("type", .str "function"), ("function", .obj [("name", .str "tool"),
    ("arguments", .str "\x7b\x7d")])]

/-- A decision with two calls. -/
def toolReply : Spelling :=
  .obj [("choices", .arr [.obj [("message", .obj [("content", .null),
    ("tool_calls", .arr [toolSpelling "a", toolSpelling "b"])])]])]

def toolAnswer (commit : Session → Except Failure Int) (n : Nat) : (e : Ask) → Answer e
  | .uuid => String.singleton (Char.ofNat (65 + n))
  | .now => "now"
  | .freshCallId used => .ofList (List.replicate ((used.map String.length).foldl max 0 + 1) 'c')
  | .checkpoint _ => .ok ()
  | .elapsed .. => false
  | .requestDiagnostics => []
  | .chat _ => .ok (some toolReply)
  | .compact s => { compaction := s.compaction, archived := [], summarized := 0, next := .finished none }
  | .invoke .. => .ok "done"
  | .idempotent .. => .ok "done"
  | .verify .. => .error "unsupported"
  | .reconcile .. => ("", false, none)
  | .commit s _ => commit s
  | .transact .. => .committed 1
  | .contextDone => false
  | .mark _ => ⟨⟩

def toolProgram : Program Ask Answer (Except Failure Unit × Session) :=
  (do GoM.mark .request; toolEngine.run commitEmit 1 : GoM Unit) { id := "session", goal := "goal" }

theorem toolProgram_engaged : Engaged {} toolProgram :=
  ⟨toolEngine, 1, { id := "session", goal := "goal" }, ⟨fun _ hm => absurd hm List.not_mem_nil, rfl,
    List.nodup_nil, fun _ hx => absurd hx List.not_mem_nil⟩, rfl⟩

/-- Every commit succeeds, up to that of the first result. -/
def toolCommitted : List (Event Ask Answer) × Program Ask Answer (Except Failure Unit × Session) :=
  Program.play (toolAnswer fun _ => .ok 1) 43 toolProgram 0

/-- The commit of the first result fails, and the next one succeeds. -/
def toolRun : List (Event Ask Answer) × Program Ask Answer (Except Failure Unit × Session) :=
  Program.play (toolAnswer fun s => if s.executionPending.any fun r => r.status.terminal then
    .error (.failed "conn closed") else .ok 1) 48 toolProgram 0

end Sample

end Go

end StateDrivenAgent
