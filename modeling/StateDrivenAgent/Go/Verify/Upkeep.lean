import StateDrivenAgent.Interaction.Invariant
import StateDrivenAgent.Go.Engine

/-!
# What the quiet part of a run keeps

Most of a run changes nothing but counters and statuses, appends entries to the transcript and emits
events. `Stands` collects what an invariant has to bear for that; the functions of the engine that do
no more keep every such invariant.
-/

namespace StateDrivenAgent

open Interaction

namespace Go

/-- Every message of the memory has its sequence number. -/
def Session.Staged (s : Session) : Prop := ∀ m ∈ s.memory, m.sequence.isSome = true

/-- The session after a message has been appended. -/
def Session.appended (s : Session) (body : MessageBody) (id createdAt : String) : Session :=
  { s with
    nextTranscriptSequence := s.nextTranscriptSequence + 1
    transcriptPending := s.transcriptPending ++ [entryOf s { body with } id createdAt]
    memory := s.memory ++ [{ body with
      messageId := some id, sequence := some s.nextTranscriptSequence
      createdAt := some createdAt }] }

/-- The session after a record has been archived. -/
def Session.recorded (s : Session) (x : TranscriptEntry) : Session :=
  { s with
    transcriptPending := s.transcriptPending ++ [x]
    nextTranscriptSequence := s.nextTranscriptSequence + 1 }

/-! ## Staging -/

theorem stageFrom_append {done xs : List Message} (hs : ∀ m ∈ xs, m.sequence.isSome = true)
    (rest : List Message) : stageFrom done (xs ++ rest) = stageFrom (done ++ xs) rest := by
  induction xs generalizing done with
  | nil => simp
  | cons m xs ih =>
    rw [List.cons_append, stageFrom, if_pos (hs m List.mem_cons_self),
      ih (fun x hx => hs x (List.mem_cons_of_mem m hx))]
    simp

theorem stageMessages_staged {s : Session} (hs : s.Staged) :
    stageMessages s = .ret (.ok (), s) := by
  have h : stageFrom [] s.memory = GoM.modify fun t => { t with memory := s.memory } := by
    have := @stageFrom_append [] _ hs []
    rwa [List.append_nil] at this
  show stageFrom [] s.memory s = _
  rw [h]
  rfl

theorem appendMessage_staged {s : Session} (hs : s.Staged) (body : MessageBody) :
    appendMessage body s = (do
      let id ← GoM.uuid
      let createdAt ← GoM.now
      GoM.modify (·.appended body id createdAt) : GoM Unit) s := by
  have h := @stageFrom_append [] _ hs [({ body with } : Message)]
  rw [List.nil_append] at h
  show (stageMessages s).bind _ = _
  rw [stageMessages_staged hs]
  show (stageFrom [] (s.memory ++ [({ body with } : Message)])) _ = _
  rw [h]
  rfl

theorem archiveRecord_staged {s : Session} (hs : s.Staged) (kind : String) (payload : Value) :
    archiveRecord kind payload s = (do
      let id ← GoM.uuid
      let createdAt ← GoM.now
      let s ← GoM.get
      GoM.modify (·.recorded {
        sequence := s.nextTranscriptSequence, messageId := id, kind, payload, runId := s.runId
        decisionStep := s.stepCount, createdAt })
      return id : GoM String) s := by
  show (stageMessages s).bind _ = _
  rw [stageMessages_staged hs]
  rfl

theorem Session.Staged.appended {s : Session} (hs : s.Staged) (body : MessageBody)
    (id createdAt : String) : (s.appended body id createdAt).Staged := by
  intro m hm
  rcases List.mem_append.1 hm with hm | hm
  · exact hs m hm
  · rw [List.mem_singleton.1 hm]
    rfl

/-- The calls that an entry brings along. -/
def batchOf (x : TranscriptEntry) : Option Value :=
  if x.kind = "message" then x.payload.get "tool_calls" else none

theorem batchOf_entryOf (s : Session) (m : Message) (id createdAt : String) :
    batchOf (entryOf s m id createdAt) = m.toolCalls := by
  obtain ⟨⟨role, content, name, toolCallId, toolCalls⟩, messageId, sequence, created⟩ := m
  show (wirePayload _).get "tool_calls" = toolCalls
  cases content <;> cases name <;> cases toolCallId <;> cases toolCalls <;>
    simp [wirePayload, Value.get, lookup]

/-! ## The rules -/

/-- An effect that neither commits, nor observes, nor belongs to the idempotent mode. -/
def Ask.plain : Ask → Bool
  | .commit .. | .transact .. | .mark _ | .elapsed .. | .idempotent .. => false
  | _ => true

/-- The ledger of a session: its calls and executions, what they left to commit, and the commit. -/
def Session.ledger (s : Session) :=
  (s.executions, s.executionPending, s.transcriptPending, s.pendingToolCalls, s.pendingCommitId,
    s.needsReload)

/-- The sessions agree on calls, executions, outboxes and the commit identity. -/
structure Quiet (s s' : Session) : Prop where
  ledger : s'.ledger = s.ledger
  staged : s.Staged → s'.Staged

namespace Quiet

theorem same {s s' : Session} (h : s'.ledger = s.ledger) (hm : s'.memory = s.memory) : Quiet s s' :=
  ⟨h, fun hs m hmem => hs m (hm ▸ hmem)⟩

theorem trans {s t u : Session} (h : Quiet s t) (h' : Quiet t u) : Quiet s u where
  ledger := h'.ledger.trans h.ledger
  staged hs := h'.staged (h.staged hs)

variable {s s' : Session} (h : Quiet s s')

include h

theorem executions : s'.executions = s.executions := congrArg (·.1) h.ledger

theorem outbox : s'.executionPending = s.executionPending := congrArg (·.2.1) h.ledger

theorem transcript : s'.transcriptPending = s.transcriptPending := congrArg (·.2.2.1) h.ledger

theorem pending : s'.pendingToolCalls = s.pendingToolCalls := congrArg (·.2.2.2.1) h.ledger

theorem commit : s'.pendingCommitId = s.pendingCommitId := congrArg (·.2.2.2.2.1) h.ledger

theorem reload : s'.needsReload = s.needsReload := congrArg (·.2.2.2.2.2) h.ledger

end Quiet

variable {G : Type} {xs : List (Bool × Value)} {M : Monitor Ask Answer G} {I : G → Session → Prop}

/-- What an invariant bears. -/
structure Stands (M : Monitor Ask Answer G) (I : G → Session → Prop) : Prop where
  staged : ∀ {g s}, I g s → s.Staged
  plain : ∀ {g s} (a : Ask), a.plain = true → I g s →
    M.must g a ∧ ∀ r, M.may g a r → I (M.next g a r) s
  quiet : ∀ {g s s'}, Quiet s s' → I g s → I g s'
  entry : ∀ {g s} (x : TranscriptEntry), batchOf x = none → I g s → I g (s.recorded x)

theorem keeps_when {c : Prop} [Decidable c] {f : GoM Unit} (h : Proc.Keeps M I f) :
    Proc.Keeps M I (GoM.when c f) := by
  unfold GoM.when
  split
  · exact h
  · exact Proc.keeps_pure _

namespace Stands

variable (hI : Stands M I)

include hI

theorem ask (a : Ask) (ha : a.plain = true) :
    Proc.Keeps M I (Proc.request a : GoM (Answer a)) :=
  Proc.keeps_request fun _ _ h => hI.plain a ha h

theorem change {f : Session → Session} (hf : ∀ s, Quiet s (f s)) :
    Proc.Keeps M I (GoM.modify f) := Proc.keeps_update fun _ s h => hI.quiet (hf s) h

theorem uuid : Proc.Keeps M I GoM.uuid := hI.ask .uuid rfl

theorem now : Proc.Keeps M I GoM.now := hI.ask .now rfl

theorem stageMessages : Proc.Keeps M I stageMessages := by
  intro g s h
  unfold Proc.Sat
  rw [stageMessages_staged (hI.staged h)]
  exact h

theorem archiveRecord {kind : String} (hk : kind ≠ "message") (payload : Value) :
    Proc.Keeps M I (archiveRecord kind payload) := by
  intro g s h
  unfold Proc.Sat
  rw [archiveRecord_staged (hI.staged h)]
  refine Proc.keeps_bind hI.uuid (fun id => Proc.keeps_bind hI.now fun createdAt =>
    Proc.keeps_bind Proc.keeps_state fun t => Proc.keeps_bind (Proc.keeps_update ?_) fun _ =>
      Proc.keeps_pure id) g s h
  exact fun g s h => hI.entry _ (if_neg hk) h

theorem archive {kind : String} (hk : kind ≠ "message") (payload : Value) :
    Proc.Keeps M I (archive kind payload) :=
  Proc.keeps_bind (hI.archiveRecord hk payload) fun _ => Proc.keeps_pure _

/-- The message of a batch, if its entry is borne. -/
theorem appendBatch {body : MessageBody} (hb : ∀ {g s} (id createdAt : String), I g s →
    I g (s.recorded (entryOf s { body with } id createdAt))) :
    Proc.Keeps M I (appendMessage body) := by
  intro g s h
  unfold Proc.Sat
  rw [appendMessage_staged (hI.staged h)]
  refine Proc.keeps_bind hI.uuid (fun id => Proc.keeps_bind hI.now fun createdAt =>
    Proc.keeps_update fun g s h => ?_) g s h
  have hq : Quiet (s.recorded (entryOf s { body with } id createdAt)) (s.appended body id createdAt) :=
    ⟨rfl, fun _ => (hI.staged h).appended body id createdAt⟩
  exact hI.quiet hq (hb id createdAt h)

theorem appendMessage {body : MessageBody} (hb : body.toolCalls = none) :
    Proc.Keeps M I (appendMessage body) :=
  hI.appendBatch fun _ _ h => hI.entry _ ((batchOf_entryOf ..).trans hb) h

theorem archiveAll : Proc.Keeps M I (archiveAll xs) := by
  induction xs with
  | nil => exact Proc.keeps_pure _
  | cons x xs ih =>
    refine Proc.keeps_bind (hI.archive ?_ _) fun _ => ih
    split <;> decide

end Stands

/-! ## The quiet functions of the engine -/

section Run

variable (hI : Stands M I) {emit : Emit} (he : ∀ event, Proc.Keeps M I (emit event)) (e : Engine)

include hI he

theorem checkExecution_keeps (announce : Bool) : Proc.Keeps M I (checkExecution emit announce) := by
  refine Proc.keeps_bind Proc.keeps_state fun s => Proc.keeps_bind (hI.ask _ rfl) fun r => ?_
  cases r with
  | ok u => exact Proc.keeps_pure _
  | error err =>
    cases err with
    | failed m => exact Proc.keeps_fail _
    | cancelled =>
      refine Proc.keeps_bind (hI.change fun _ => .same rfl rfl) fun _ =>
        Proc.keeps_bind (keeps_when ?_) fun _ => Proc.keeps_fail _
      exact Proc.keeps_bind (hI.archive (by decide) _) fun _ =>
        Proc.keeps_bind (Proc.keeps_attempt (he _)) fun _ => Proc.keeps_pure _

theorem emitDiagnostics_keeps : Proc.Keeps M I (emitDiagnostics emit) := by
  refine Proc.keeps_bind (hI.ask .requestDiagnostics rfl) fun requests => ?_
  induction requests with
  | nil => exact Proc.keeps_pure _
  | cons x xs ih => exact Proc.keeps_bind (he _) fun _ => ih

theorem compactPasses_keeps (passes : Nat) : Proc.Keeps M I (compactPasses emit passes) := by
  induction passes with
  | zero => exact Proc.keeps_pure _
  | succ passes ih =>
    refine Proc.keeps_bind Proc.keeps_state fun s => Proc.keeps_bind (hI.ask _ rfl) fun x =>
      Proc.keeps_bind hI.archiveAll fun _ => Proc.keeps_bind (hI.change fun t => ⟨rfl, ?_⟩)
        fun _ => ?_
    · intro ht m hm
      refine ht m ?_
      rcases List.mem_append.1 hm with hm | hm
      · exact List.mem_of_mem_take hm
      · exact List.mem_of_mem_drop (List.mem_of_mem_drop hm)
    · rcases x.next with (_ | err) | event
      · exact Proc.keeps_pure _
      · exact Proc.keeps_fail _
      · exact Proc.keeps_bind (he _) fun _ => ih

theorem compact_keeps : Proc.Keeps M I (e.compact emit) :=
  Proc.keeps_bind hI.stageMessages fun _ => compactPasses_keeps hI he _

theorem rejectResponse_keeps (code message : String) (appendFeedback : Bool) :
    Proc.Keeps M I (e.rejectResponse emit code message appendFeedback) := by
  refine Proc.keeps_bind (hI.archive (by decide) _) fun _ =>
    Proc.keeps_bind (hI.change fun _ => .same rfl rfl) fun _ =>
    Proc.keeps_bind (keeps_when (hI.appendMessage rfl)) fun _ =>
    Proc.keeps_bind Proc.keeps_state fun s => Proc.keeps_bind (he _) fun _ =>
    Proc.keeps_bind Proc.keeps_state fun t => keeps_when ?_
  exact Proc.keeps_bind (hI.change fun _ => .same rfl rfl) fun _ => he _

theorem warnProgress_keeps (limit : Int) (guidance : String) :
    Proc.Keeps M I (Engine.warnProgress emit limit guidance) :=
  Proc.keeps_bind Proc.keeps_state fun _ => keeps_when <|
    Proc.keeps_bind (hI.appendMessage rfl) fun _ => he _

theorem observeProgress_keeps (before : String) :
    Proc.Keeps M I (e.observeProgress emit before) := by
  refine Proc.keeps_bind Proc.keeps_state fun s => ?_
  dsimp only
  split
  · exact hI.change fun _ => .same rfl rfl
  · refine Proc.keeps_bind (hI.change fun _ => .same rfl rfl) fun _ => ?_
    cases e.config.maxNoProgressSteps with
    | none => exact Proc.keeps_pure _
    | some limit =>
      refine Proc.keeps_bind Proc.keeps_state fun s =>
        Proc.keeps_bind (warnProgress_keeps hI he _ _) fun _ =>
        Proc.keeps_bind Proc.keeps_state fun t => keeps_when ?_
      exact Proc.keeps_bind (hI.change fun _ => .same rfl rfl) fun _ => he _

theorem actInvalid_keeps (before invalid : String) :
    Proc.Keeps M I (e.actInvalid emit before invalid) := by
  refine Proc.keeps_bind (hI.change fun _ => .same rfl rfl) fun _ =>
    Proc.keeps_bind (hI.archive (by decide) _) fun _ =>
    Proc.keeps_bind (hI.appendMessage rfl) fun _ => Proc.keeps_bind Proc.keeps_state fun s =>
    Proc.keeps_bind (he _) fun _ => Proc.keeps_bind Proc.keeps_state fun t => ?_
  split
  · exact Proc.keeps_bind (hI.change fun _ => .same rfl rfl) fun _ => Proc.keeps_bind (he _) fun _ =>
      Proc.keeps_pure _
  · exact Proc.keeps_bind (observeProgress_keeps hI he e before) fun _ => Proc.keeps_pure _

theorem actFinal_keeps (before content : String) :
    Proc.Keeps M I (e.actFinal emit before content) := by
  refine Proc.keeps_bind Proc.keeps_state fun s => ?_
  dsimp only
  split
  · exact Proc.keeps_bind (hI.appendMessage rfl) fun _ =>
      Proc.keeps_bind (hI.change fun _ => .same rfl rfl) fun _ =>
      Proc.keeps_bind (he _) fun _ => Proc.keeps_pure _
  · exact Proc.keeps_bind (keeps_when (hI.appendMessage rfl)) fun _ =>
      Proc.keeps_bind (hI.change fun _ => .same rfl rfl) fun _ =>
      Proc.keeps_bind (hI.archive (by decide) _) fun _ =>
      Proc.keeps_bind (rejectResponse_keeps hI he e _ _ _) fun _ =>
      Proc.keeps_bind (observeProgress_keeps hI he e before) fun _ => Proc.keeps_pure _

theorem reportBatch_keeps (rejected : List String) :
    Proc.Keeps M I (e.reportBatch emit rejected) := by
  unfold Engine.reportBatch
  split
  · exact hI.change fun _ => .same rfl rfl
  · exact rejectResponse_keeps hI he e _ _ _

theorem advancePhase_keeps : Proc.Keeps M I (e.advancePhase emit) := by
  refine Proc.keeps_bind (Proc.keeps_swap fun g s h => hI.quiet ?_ h) fun x => ?_
  · unfold Engine.advance
    split
    · dsimp only
      split <;> exact .same rfl rfl
    · exact .same rfl rfl
  · cases x with
    | none => exact Proc.keeps_pure _
    | some x => exact he _

theorem failCompaction_keeps (err : Failure) :
    Proc.Keeps M I (Engine.failCompaction emit err) :=
  Proc.keeps_bind (hI.change fun _ => .same rfl rfl) fun _ => Proc.keeps_bind (he _) fun _ =>
    Proc.keeps_pure _

theorem stopAtLimit_keeps (max limit : Int) :
    Proc.Keeps M I (Engine.stopAtLimit emit max limit) :=
  Proc.keeps_bind Proc.keeps_state fun _ => keeps_when <|
    Proc.keeps_bind (hI.change fun _ => .same rfl rfl) fun _ => he _

omit he

theorem recordDecision_keeps (d : Decision) : Proc.Keeps M I (e.recordDecision d) :=
  hI.archive (by decide) _

omit hI in
theorem record_quiet (name : String) (args : Arguments) (output : String) (s : Session) :
    Quiet s (e.record name args output s) := by
  unfold Engine.record
  split <;> exact .same rfl rfl

omit hI in
theorem captureArtifacts_quiet (id name : String) (args : Arguments) (output : String) (s : Session) :
    Quiet s (e.captureArtifacts id name args output s) := by
  unfold Engine.captureArtifacts
  split
  · exact .same rfl rfl
  · generalize e.config.resultChecks.zipIdx = xs
    induction xs generalizing s with
    | nil => exact .same rfl rfl
    | cons x xs ih =>
      rw [List.foldl_cons]
      refine Quiet.trans ?_ (ih _)
      split <;> exact .same rfl rfl

omit hI in
theorem rememberOutput_quiet (name : String) (args : Arguments) (result : String) (s : Session) :
    Quiet s (e.rememberOutput name args result s) := by
  unfold Engine.rememberOutput
  split
  · exact .same rfl rfl
  · dsimp only
    split <;> exact .same rfl rfl

omit hI in
theorem endRun_quiet (outcome : Except Failure Unit) (s : Session) :
    Quiet s (Engine.endRun outcome s) := by
  unfold Engine.endRun
  dsimp only
  split <;> split <;> first | exact .same rfl rfl | (split <;> exact .same rfl rfl)

theorem finishRun_keeps (outcome : Except Failure Unit) :
    Proc.Keeps M I (Engine.finishRun outcome) := by
  refine Proc.keeps_bind (hI.change (endRun_quiet outcome)) fun _ =>
    Proc.keeps_bind hI.now fun ended => Proc.keeps_bind Proc.keeps_state fun s =>
    Proc.keeps_bind (hI.change fun _ => .same rfl rfl) fun _ => hI.archive ?_ _
  split <;> decide

theorem startRun_keeps : Proc.Keeps M I Engine.startRun :=
  Proc.keeps_bind hI.stageMessages fun _ => Proc.keeps_bind hI.uuid fun _ =>
    Proc.keeps_bind hI.now fun _ => Proc.keeps_bind (hI.change fun _ => .same rfl rfl) fun _ =>
    Proc.keeps_bind Proc.keeps_state fun _ =>
    Proc.keeps_bind (hI.archive (by decide) _) fun _ => hI.change fun _ => .same rfl rfl

end Run

/-! ## Decisions -/

/-- The calls of a batch: each has an identity of its own. -/
structure Distinct (calls : List ToolCall) : Prop where
  ids : (calls.map ToolCall.id).Nodup
  named : ∀ call ∈ calls, call.id ≠ ""

/-- A decision is an error, an answer or a batch. -/
def Parsed (d : Decision) : Prop :=
  d.invalid = "" → d.final = false → d.calls ≠ [] ∧ Distinct d.calls

/-- `freshCallID` returns an identity that is not in use. -/
def FreshCallIds (M : Monitor Ask Answer G) : Prop :=
  ∀ g used r, M.may g (.freshCallId used) r → r ≠ "" ∧ r ∉ used

/-- And one that `P` holds of; the effect keeps `I`. -/
def Freshens (M : Monitor Ask Answer G) (I : G → Session → Prop) (P : String → Prop) : Prop :=
  ∀ g s used, I g s → M.must g (.freshCallId used) ∧ ∀ r, M.may g (.freshCallId used) r →
    I (M.next g (.freshCallId used) r) s ∧ (r ≠ "" ∧ r ∉ used) ∧ P r

theorem FreshCallIds.freshens (hM : FreshCallIds M) (hI : Stands M I) :
    Freshens M I fun _ => True := fun g s used h => by
  obtain ⟨hmust, hnext⟩ := hI.plain (.freshCallId used) rfl h
  exact ⟨hmust, fun r hr => ⟨hnext r hr, hM g used r hr, trivial⟩⟩

/-- The identity that a call comes with. -/
def givenId (raw : Spelling) : String := stringField ((asMap raw).getD []) "id"

/-- The calls in the body of a reply, if they are read. -/
def offeredCalls (body : Option Spelling) : List Spelling :=
  match body.bind asMap with
  | none => []
  | some envelope =>
    match field envelope "choices" with
    | some (.arr (choice :: _)) =>
      match asMap choice with
      | none => []
      | some choice =>
        match (field choice "message").bind asMap with
        | none => []
        | some msg =>
          match field msg "content" with
          | some (.bool _) | some (.num _) | some (.arr _) | some (.obj _) => []
          | _ =>
            match field msg "tool_calls" with
            | some (.arr raw) => raw
            | _ => []
    | _ => []

section Decide

variable {P : String → Prop} (hF : Freshens M I P) (p : Platform)

include hF

theorem callIdentity_sat {g : G} {s : Session} (h : I g s) (used : List String) (raw : Spelling)
    (hraw : givenId raw ∉ used → P (givenId raw)) :
    Proc.Sat M (Platform.callIdentity used raw) g s
      (fun g' s' id => I g' s' ∧ (id ≠ "" ∧ id ∉ used) ∧ P id) fun _ _ _ => False := by
  unfold Platform.callIdentity
  dsimp only
  split
  next hid => exact (Proc.sat_request _).2 (hF g s used h)
  next hid =>
    rw [not_or, Bool.not_eq_true, List.contains_eq_mem, decide_eq_false_iff_not] at hid
    exact ⟨h, hid, hraw hid.2⟩

theorem readCalls_sat {g : G} {s : Session} (h : I g s) (used : List String)
    (raw : List Spelling) (hraw : ∀ x ∈ raw, givenId x ∉ used → P (givenId x)) :
    Proc.Sat M (p.readCalls used raw) g s
      (fun g' s' calls => I g' s' ∧ calls.length = raw.length ∧ Distinct calls ∧
        ∀ call ∈ calls, call.id ∉ used ∧ P call.id) fun _ _ _ => False := by
  induction raw generalizing used g s with
  | nil => exact ⟨h, rfl, ⟨List.nodup_nil, by simp⟩, by simp⟩
  | cons x raw ih =>
    obtain ⟨hx, hraw⟩ := List.forall_mem_cons.1 hraw
    refine Proc.sat_bind.2 ((callIdentity_sat hF h used x hx).mono_post fun g s id hid => ?_)
    obtain ⟨h, ⟨hne, hid⟩, hP⟩ := hid
    have hrest : ∀ x ∈ raw, givenId x ∉ id :: used → P (givenId x) := fun x hx hmem =>
      hraw x hx fun hused => hmem (List.mem_cons_of_mem id hused)
    refine Proc.sat_bind.2 ((ih h (id :: used) hrest).mono_post fun g s calls hc => ?_)
    obtain ⟨h, hlen, hd, hout⟩ := hc
    refine ⟨h, by rw [List.length_cons, hlen, List.length_cons], ⟨?_, ?_⟩, ?_⟩
    · refine List.nodup_cons.2 ⟨fun hmem => ?_, hd.ids⟩
      obtain ⟨call, hcall, heq⟩ := List.mem_map.1 hmem
      exact (hout call hcall).1 (heq ▸ List.mem_cons_self)
    · exact List.forall_mem_cons.2 ⟨hne, hd.named⟩
    · exact List.forall_mem_cons.2 ⟨⟨hid, hP⟩, fun call hcall =>
        ⟨fun hmem => (hout call hcall).1 (List.mem_cons_of_mem id hmem), (hout call hcall).2⟩⟩

theorem readMessage_sat {g : G} {s : Session} (h : I g s) (msg : List (String × Spelling))
    (history : List Message)
    (hraw : ∀ raw, field msg "tool_calls" = some (.arr raw) →
      (∀ x, field msg "content" = some x → x = .null ∨ ∃ text, x = .str text) →
      ∀ x ∈ raw, givenId x ∉ historicalCallIds history → P (givenId x)) :
    Proc.Sat M (p.readMessage msg history) g s
      (fun g' s' d => I g' s' ∧ Parsed d ∧ ∀ call ∈ d.calls, P call.id) fun _ _ _ => False := by
  have hnone : ∀ {d : Decision}, d.calls = [] → ∀ call ∈ d.calls, P call.id := fun hd call hcall => by
    rw [hd] at hcall
    cases hcall
  have hinvalid : ∀ {m : String}, m ≠ "" → Parsed { invalid := m } := fun hm h => absurd h hm
  have hcontent : ∀ content, Parsed (Platform.readContent content) ∧
      (Platform.readContent content).calls = [] := by
    intro content
    unfold Platform.readContent
    split
    · exact ⟨hinvalid (by decide), rfl⟩
    · exact ⟨fun _ h => absurd h Bool.true_eq_false.mp, rfl⟩
  unfold Platform.readMessage
  split
  iterate 4 exact ⟨h, hinvalid (by decide), hnone rfl⟩
  next hbool hnum harr hobj =>
    split
    iterate 3 exact ⟨h, (hcontent _).1, hnone (hcontent _).2⟩
    next raw hne hfield =>
      have htext : ∀ x, field msg "content" = some x → x = .null ∨ ∃ text, x = .str text := by
        intro x hx
        cases x with
        | null => exact .inl rfl
        | str text => exact .inr ⟨text, rfl⟩
        | bool b => exact (hbool b hx).elim
        | num t => exact (hnum t hx).elim
        | arr items => exact (harr items hx).elim
        | obj fields => exact (hobj fields hx).elim
      refine Proc.sat_bind.2 ((readCalls_sat hF p h _ raw (hraw raw hfield htext)).mono_post
        fun g s calls hc => ?_)
      refine ⟨hc.1, fun _ _ => ⟨?_, hc.2.2.1⟩, fun call hcall => (hc.2.2.2 call hcall).2⟩
      rintro rfl
      exact hne (List.eq_nil_of_length_eq_zero hc.2.1.symm)
    next => exact ⟨h, hinvalid (by decide), hnone rfl⟩

theorem parseDecision_sat {g : G} {s : Session} (h : I g s) (body : Option Spelling)
    (history : List Message)
    (hraw : ∀ x ∈ offeredCalls body, givenId x ∉ historicalCallIds history → P (givenId x)) :
    Proc.Sat M (p.parseDecision body history) g s
      (fun g' s' d => I g' s' ∧ Parsed d ∧ ∀ call ∈ d.calls, P call.id) fun _ _ _ => False := by
  have hinvalid : ∀ {m : String}, m ≠ "" → Parsed { invalid := m } := fun hm h => absurd h hm
  have hnone : ∀ (m : String), ∀ call ∈ ({ invalid := m } : Decision).calls, P call.id :=
    fun _ call hcall => by cases hcall
  unfold Platform.parseDecision
  split
  · exact ⟨h, hinvalid (by decide), hnone _⟩
  next envelope hbody =>
    split
    iterate 3 exact ⟨h, hinvalid (by decide), hnone _⟩
    next choice rest hchoices =>
      split
      · exact ⟨h, hinvalid (by decide), hnone _⟩
      next object hchoice =>
        split
        · exact ⟨h, hinvalid (by decide), hnone _⟩
        next msg hmsg =>
          refine readMessage_sat hF p h msg history fun raw hfield htext x hx => hraw x ?_
          rw [offeredCalls, hbody]
          dsimp only
          rw [hchoices]
          dsimp only
          rw [hchoice]
          dsimp only
          rw [hmsg]
          dsimp only
          rw [hfield]
          split
          iterate 4
            next hcontent =>
              obtain htext | ⟨text, htext⟩ := htext _ hcontent <;> cases htext
          exact hx
    · exact ⟨h, hinvalid (by decide), hnone _⟩

end Decide

theorem decide_sat (hI : Stands M I) (hM : FreshCallIds M) (p : Platform) {g : G} {s : Session}
    (h : I g s) :
    Proc.Sat M p.decide g s (fun g' s' d => Parsed d ∧ I g' s') fun g' s' _ => I g' s' := by
  obtain ⟨hmust, hnext⟩ := hI.plain (.chat s) rfl h
  refine Proc.sat_bind.2 (Proc.sat_bind.2 ((Proc.sat_request _).2 ⟨hmust, fun r hr => ?_⟩))
  cases r with
  | error err => exact hnext _ hr
  | ok body =>
    exact (parseDecision_sat (hM.freshens hI) p (hnext _ hr) body _ fun _ _ _ => trivial).mono
      (fun _ _ _ h => ⟨h.2.1, h.1⟩) fun _ _ _ h => h.elim

/-! ## The run -/

/-- What a decision establishes, until it is acted upon. -/
structure Engine.Decides (e : Engine) (M : Monitor Ask Answer G) (emit : Emit)
    (I J : G → Session → Prop) (K : Decision → G → Session → Prop) : Prop where
  stands : ∀ d, Stands M (K d)
  emits : ∀ d event, Proc.Keeps M (K d) (emit event)
  calm : ∀ {d g s}, K d g s → I g s
  decide : ∀ {g s}, I g s →
    Proc.Sat M e.platform.decide g s (fun g' s' d => Parsed d ∧ K d g' s') fun g' s' _ => I g' s'
  act : ∀ (before : String) {d g s}, Distinct d.calls → K d g s →
    Proc.Sat M (e.actTools emit before d.calls) g s (fun g' s' _ => I g' s') fun g' s' _ => J g' s'

theorem decides (hI : Stands M I) (hM : FreshCallIds M) {emit : Emit}
    (he : ∀ event, Proc.Keeps M I (emit event)) (e : Engine) {J : G → Session → Prop}
    (hact : ∀ before items, Distinct items → Proc.Leads M I J (e.actTools emit before items)) :
    e.Decides M emit I J fun _ => I where
  stands _ := hI
  emits _ := he
  calm h := h
  decide h := decide_sat hI hM e.platform h
  act before _ _ _ hd h := hact before _ hd _ _ h

section Rounds

variable {J : G → Session → Prop} {K : Decision → G → Session → Prop} (hI : Stands M I)
  (hJ : Stands M J) (hIJ : ∀ g s, I g s → J g s) {emit : Emit}
  (he : ∀ event, Proc.Keeps M I (emit event)) {e : Engine} (hd : e.Decides M emit I J K)

include hI hIJ he hd

theorem act_sat (before : String) {d : Decision} (hparsed : Parsed d) {g : G} {s : Session}
    (h : K d g s) :
    Proc.Sat M (e.act emit before d) g s (fun g' s' _ => I g' s') fun g' s' _ => J g' s' := by
  unfold Engine.act
  split
  next => exact (actInvalid_keeps hI he e before _).leads hIJ g s (hd.calm h)
  next hinvalid =>
    split
    next => exact (actFinal_keeps hI he e before _).leads hIJ g s (hd.calm h)
    next hfinal =>
      obtain ⟨hne, hdistinct⟩ := hparsed (not_not.1 hinvalid) (Bool.eq_false_iff.2 hfinal)
      rw [List.isEmpty_eq_false_iff.2 hne, if_neg Bool.false_ne_true]
      exact hd.act before hdistinct h

/-- What holds when a decision is there, or the request failed. -/
def Decided (I : G → Session → Prop) (K : Decision → G → Session → Prop) :
    Except Failure Decision → G → Session → Prop
  | .ok d, g, s => Parsed d ∧ K d g s
  | .error _, g, s => I g s

theorem follow_sat (before : String) {decision : Except Failure Decision} {g : G} {s : Session}
    (h : Decided I K decision g s) :
    Proc.Sat M (e.follow emit before decision) g s (fun g' s' _ => I g' s')
      fun g' s' _ => J g' s' := by
  cases decision with
  | error err =>
    exact Proc.leads_bind ((emitDiagnostics_keeps hI he).leads hIJ)
      (fun _ => (Proc.keeps_fail _).leads hIJ) g s h
  | ok d =>
    obtain ⟨hparsed, h⟩ := h
    have hKJ : ∀ g s (_ : Failure), K d g s → J g s := fun g s _ h => hIJ g s (hd.calm h)
    have hK := hd.stands d
    have heK := hd.emits d
    refine (emitDiagnostics_keeps hK heK).sat_bind h hKJ fun _ g s h => ?_
    refine (checkExecution_keeps hK heK true).sat_bind h hKJ fun _ g s h => ?_
    refine (hK.change ?_).sat_bind h hKJ fun _ g s h => ?_
    · exact fun _ => .same rfl rfl
    refine (recordDecision_keeps hK e d).sat_bind h hKJ fun _ g s h => ?_
    exact act_sat hI hIJ he hd before hparsed h

theorem round_leads : Proc.Leads M I J (e.round emit) := by
  refine Proc.leads_bind ((checkExecution_keeps hI he true).leads hIJ) fun _ =>
    Proc.leads_bind ((advancePhase_keeps hI he e).leads hIJ) fun _ =>
    Proc.leads_bind ((Proc.keeps_attempt (compact_keeps hI he e)).leads hIJ) fun compacted =>
    Proc.leads_bind ((emitDiagnostics_keeps hI he).leads hIJ) fun _ => ?_
  cases compacted with
  | error err => exact (failCompaction_keeps hI he err).leads hIJ
  | ok u =>
    refine Proc.leads_bind (Proc.keeps_state.leads hIJ) fun s =>
      Proc.leads_bind ((he _).leads hIJ) fun _ =>
      Proc.leads_bind (Proc.keeps_state.leads hIJ) fun t g s h => ?_
    refine Proc.sat_bind.2 (Proc.sat_attempt.2 ?_)
    refine (hd.decide h).mono (fun g s d h => ?_) fun g s err h => ?_
    · have hdecided : Decided I K (.ok d) g s := h
      exact follow_sat hI hIJ he hd _ hdecided
    · have hdecided : Decided I K (.error err) g s := h
      exact follow_sat hI hIJ he hd _ hdecided

theorem rounds_leads (limit : Int) (left : Nat) :
    Proc.Leads M I J (e.rounds emit limit left) := by
  induction left with
  | zero => exact (Proc.keeps_pure _).leads hIJ
  | succ left ih =>
    refine Proc.leads_bind (Proc.keeps_state.leads hIJ) fun s => ?_
    split
    · refine Proc.leads_bind (round_leads hI hIJ he hd) fun flow => ?_
      cases flow with
      | done => exact (Proc.keeps_pure _).leads hIJ
      | again => exact ih
    · exact (Proc.keeps_pure _).leads hIJ

theorem runBody_leads (hrec : ∀ n, Proc.Leads M I J (e.recoverPending emit n)) (max : Int) :
    Proc.Leads M I J (e.runBody emit max) := by
  refine Proc.leads_bind (Proc.keeps_state.leads hIJ) fun s =>
    Proc.leads_bind (Proc.Keeps.leads (hI.change fun _ => .same rfl rfl) hIJ) fun _ =>
    Proc.leads_bind (Proc.keeps_state.leads hIJ) fun t =>
    Proc.leads_bind ((he _).leads hIJ) fun _ =>
    Proc.leads_bind (Proc.keeps_state.leads hIJ) fun u => Proc.leads_bind ?_ fun _ =>
    Proc.leads_bind (rounds_leads hI hIJ he hd _ _) fun flow => ?_
  · unfold GoM.when
    split
    · exact Proc.leads_bind ((checkExecution_keeps hI he false).leads hIJ) fun _ => hrec _
    · exact (Proc.keeps_pure _).leads hIJ
  · cases flow with
    | done => exact (Proc.keeps_pure _).leads hIJ
    | again => exact (stopAtLimit_keeps hI he _ _).leads hIJ

include hJ in
/-- A run leaves what its failures leave. -/
theorem run_leads (hrec : ∀ n, Proc.Leads M I J (e.recoverPending emit n)) (max : Int) :
    Proc.Leads M I J (e.run emit max) := by
  refine Proc.leads_bind ((startRun_keeps hI).leads hIJ) fun _ g s h => ?_
  refine Proc.sat_bind.2 (Proc.sat_attempt.2 ?_)
  refine (runBody_leads hI hIJ he hd hrec max g s h).mono (fun g s _ h => ?_)
    fun g s err h => ?_
  · exact Proc.leads_bind ((finishRun_keeps hI _).leads hIJ) (fun _ => Proc.keeps_pure _ |>.leads hIJ) g s h
  · refine Proc.sat_bind.2 ((finishRun_keeps hJ _ g s h).mono_post fun g s _ h => ?_)
    exact h

end Rounds

end Go

end StateDrivenAgent
