import StateDrivenAgent.Verify.Dispatching
import StateDrivenAgent.Verify.Deciding

/-!
# What a run keeps

`Engine::run` step by step: the calls of a batch are settled in order while the session is active, a
decision is acted on when no calls are pending, and whatever a step does to the task is a move.
-/

namespace StateDrivenAgent

open Interaction

namespace Upkeep

variable {env : Deployment} {e : Engine} {promise : Ghost → (x : Eff) → Reply x → Prop}
  {owes : Ghost → Eff → Prop} {U : Upkeep env e promise owes} {g : Ghost} {s : Session}
  {emit : Emit} {α β : Type}

/-- No calls are pending. -/
abbrev Settled (s : Session) : Prop := s.pendingToolCalls = []

theorem Settled.of_task {s s' : Session} (h : Settled s) (ht : s'.task = s.task) : Settled s' :=
  (congrArg Task.pendingToolCalls ht).trans h

theorem Idle.of_task {s s' : Session} (h : Idle s) (ht : s'.task = s.task) : Idle s' :=
  ⟨(Session.status_of_task ht).trans h.active, Settled.of_task h.settled ht⟩

theorem harmless_interim (step : String) (data : Value) : U.Event (Engine.interim step data) :=
  U.harmless (harmless_plain rfl)

theorem harmless_error {code : String} (message : Value) (h : code ≠ "context_integrity_error") :
    U.Event (Engine.errorEvent code message) :=
  U.harmless (harmless_code rfl h)

/-! ## Limits -/

/-- A message of the user or of the assistant between two interactions. -/
theorem say_bind {role text : String} {k : Unit → EngineM β}
    {post : Ghost → Session → β → Prop} (h : U.At g s) (hs : Settled s) (hr : role ≠ "tool")
    (hk : ∀ s', U.At g s' → s'.core = s.core.append (msg role text) → U.Does (k ()) g s' post) :
    U.Does (appendMessage (msg role text) >>= k) g s post := by
  refine appendMessage_bind fun s' hb => ?_
  exact hk s' (h.becomes hb (.say text hr hs)) hb.core

/-- The session fails while it is active, or where an outcome may be changed. -/
theorem At.failWith (h : U.At g s) (ha : s.status = .active ∨ U.free) (answer : String) :
    U.At g (Engine.failWith answer s) :=
  h.becomes ⟨rfl, ⟨rfl, rfl, rfl, rfl⟩, rfl⟩ (.fail answer s.core.runTerminationReason ha)

theorem incrementInvalid_bind {k : Bool → EngineM β} {post : Ghost → Session → β → Prop}
    (h : U.At g s) (hi : Idle s)
    (hk : ∀ s' reached, U.At g s' → Settled s' → U.Does (k reached) g s' post) :
    U.Does (e.incrementInvalid >>= k) g s post := by
  have hcount : U.At g { s with
      consecutiveInvalidResponses := s.consecutiveInvalidResponses + 1 } :=
    h.alike ⟨rfl, ⟨rfl, rfl, rfl, rfl⟩, rfl, rfl⟩
  refine does_swap_bind ?_
  dsimp only
  split
  · exact hk _ _ hcount hi.settled
  · exact hk _ _ (hcount.failWith (.inl hi.active) _) hi.settled

theorem reportInvalidLimit_keeps (hemit : U.Emits emit) (reached : Bool) (h : U.At g s) :
    U.Keeps (Engine.reportInvalidLimit emit reached) g s := by
  unfold Engine.reportInvalidLimit
  split
  · exact does_get_bind (checkpoint_keeps hemit h (harmless_error _ (by decide)))
  · exact keeps_pure h

/-! ## Progress -/

theorem warnProgress_does (hemit : U.Emits emit) (guidance : String) (limit : Nat) (h : U.At g s)
    (hs : Settled s) :
    U.Does (Engine.warnProgress emit guidance limit) g s fun _ s' _ => Settled s' ∧
      s'.status = s.status ∧ s'.noProgressSteps = s.noProgressSteps := by
  unfold Engine.warnProgress
  refine does_get_bind ?_
  split
  · refine say_bind h hs (by decide) fun s₁ h₁ hc₁ => ?_
    refine Does.mono (checkpoint_keeps hemit h₁ (harmless_interim _ _)) fun g₂ s₂ _ _ ht => ?_
    have hs₁ : Settled s₁ := (congrArg (·.pendingToolCalls) hc₁).trans hs
    have ha₁ : s₁.status = s.status := congrArg (·.status) hc₁
    have hn₁ : s₁.noProgressSteps = s.noProgressSteps := congrArg (·.noProgressSteps) hc₁
    exact ⟨hs₁.of_task ht, (Session.status_of_task ht).trans ha₁,
      (congrArg Task.noProgressSteps ht).trans hn₁⟩
  · exact does_pure h ⟨hs, rfl, rfl⟩

theorem limitProgress_does (hemit : U.Emits emit) (guidance : String) (limit : Nat) (h : U.At g s)
    (hs : Settled s) (hlimit : limit ≤ s.noProgressSteps → s.status = .active ∨ U.free) :
    U.Does (Engine.limitProgress emit guidance limit) g s fun _ s' _ => Settled s' := by
  unfold Engine.limitProgress
  refine does_get_bind ?_
  split
  · next hreached =>
    refine does_modify_bind ?_
    refine Does.mono (checkpoint_keeps hemit (h.failWith (hlimit hreached) _)
      (harmless_error _ (by decide))) fun g' s' _ _ ht => ?_
    exact (congrArg Task.pendingToolCalls ht).trans hs
  · exact does_pure h hs

theorem stalled_does (hemit : U.Emits emit) (h : U.At g s) (hs : Settled s)
    (hlimit : s.status = .active ∨ U.free ∨
      ∀ limit, e.progressLimit = some limit → s.noProgressSteps + 1 < limit) :
    U.Does (e.stalled emit) g s fun _ s' _ => Settled s' := by
  unfold Engine.stalled
  refine does_modify_bind (does_get_bind ?_)
  have h₁ : U.At g { s with noProgressSteps := s.noProgressSteps + 1 } :=
    h.becomes ⟨rfl, ⟨rfl, rfl, rfl, rfl⟩, rfl⟩ (.progress _)
  split
  · exact does_pure h₁ hs
  · next limit hprogress =>
    dsimp only
    refine does_bind (warnProgress_does hemit _ _ h₁ hs) fun g₂ s₂ _ h₂ hw => ?_
    obtain ⟨hs₂, hstatus, hsteps⟩ := hw
    refine limitProgress_does hemit _ _ h₂ hs₂ fun hreached => ?_
    rcases hlimit with ha | hf | hunder
    · exact .inl (hstatus.trans ha)
    · exact .inr hf
    · have hlt := hunder limit hprogress
      have hsame : s₂.noProgressSteps = s.noProgressSteps + 1 := hsteps
      omega

theorem observeProgress_does (hemit : U.Emits emit) (before : String) (h : U.At g s)
    (hs : Settled s) : U.Does (e.observeProgress emit before) g s fun _ s' _ => Settled s' := by
  unfold Engine.observeProgress
  refine does_get_bind (U.sat_request_bind rfl rfl fun _ hr => ?_)
  have hlimited := U.limited h.inv hr
  dsimp only
  refine does_modify_bind ?_
  have h₁ : U.At g { s with progressFingerprint := some (e.progressFingerprint s) } :=
    h.alike ⟨rfl, ⟨rfl, rfl, rfl, rfl⟩, rfl, rfl⟩
  split
  · refine does_modify ?_ hs
    exact h₁.becomes ⟨rfl, ⟨rfl, rfl, rfl, rfl⟩, rfl⟩ (.progress 0)
  · next hsame =>
    refine stalled_does hemit h₁ hs ?_
    rcases hlimited with ha | hf | hunder
    · exact .inl ha
    · exact .inr (.inl hf)
    · refine .inr (.inr fun limit hprogress => ?_)
      by_contra hreached
      exact hunder ⟨not_not.mp hsame, limit, hprogress, not_lt.mp hreached⟩

/-! ## Pending calls -/

/-- An active session with these calls pending, made in this phase. -/
structure Pending (s : Session) (phase : Option String) (calls : List Value) : Prop where
  active : s.status = .active
  pending : s.pendingToolCalls = calls
  phased : calls ≠ [] → s.pendingToolPhase = phase

theorem Pending.of_task {s s' : Session} {phase : Option String} {calls : List Value}
    (h : Pending s phase calls) (ht : s'.task = s.task) : Pending s' phase calls :=
  ⟨(Session.status_of_task ht).trans h.active, (congrArg Task.pendingToolCalls ht).trans h.pending,
    fun hne => (congrArg Task.pendingToolPhase ht).trans (h.phased hne)⟩

section output
variable (id name : String) (args : List (String × Value)) (output : String) (s : Session)

theorem captureArtifacts_becomes : Becomes s { s.core with
    completionArtifacts := e.artifactsAfter s.completionArtifacts id name args output s.stepCount }
    (e.captureArtifacts s id name args output) :=
  ⟨rfl, ⟨rfl, rfl, rfl, rfl⟩, rfl⟩

theorem recordProgressOutput_alike : Alike s (e.recordProgressOutput s name args output) :=
  ⟨rfl, ⟨rfl, rfl, rfl, rfl⟩, rfl, rfl⟩

theorem record_becomes : Becomes s { s.core with
    workflow := s.core.workflow.map fun w => e.recordWorkflow w name args output }
    (e.record s name args output) :=
  ⟨rfl, ⟨rfl, rfl, rfl, rfl⟩, rfl⟩

theorem applyOutput_becomes : Becomes s (s.core.takeIn e id name args output s.stepCount)
    (e.applyOutput id name args output s) := by
  have hcapture := captureArtifacts_becomes (e := e) id name args output s
  rw [Engine.applyOutput]
  generalize hs₁ : e.captureArtifacts s id name args output = s₁ at hcapture ⊢
  have hstep : ∀ s₂, Alike s₁ s₂ → Becomes s (s.core.takeIn e id name args output s.stepCount)
      (e.record s₂ name args output) := by
    intro s₂ h₂
    have hrecord := h₂.becomes (record_becomes (e := e) name args output s₂)
    rw [h₂.core, hcapture.core] at hrecord
    exact {
      core := hrecord.core
      journal := {
        counts := hrecord.journal.counts.trans hcapture.journal.counts
        events := hrecord.journal.events.trans hcapture.journal.events
        attempts := hrecord.journal.attempts.trans hcapture.journal.attempts
        decisions := hrecord.journal.decisions.trans hcapture.journal.decisions }
      reload := hrecord.reload.trans hcapture.reload }
  split
  · exact hstep _ (recordProgressOutput_alike name args output s₁)
  · exact hstep _ (.refl s₁)

theorem applyOutput_core : (e.applyOutput id name args output s).core =
    s.core.takeIn e id name args output s.stepCount :=
  (applyOutput_becomes id name args output s).core

end output

/-- The result of a call is taken in after it was executed. -/
theorem takeIn_bind {id name output : String} {args : List (String × Value)} {k : Unit → EngineM β}
    {post : Ghost → Session → β → Prop} (h : U.At g s) (ha : s.status = .active)
    (hk : ∀ g', U.At g' (e.applyOutput id name args output s) →
      U.Does (k ()) g' (e.applyOutput id name args output s) post) :
    U.Does (EngineM.mark (.executed s name args output) >>= fun _ =>
      EngineM.modify (e.applyOutput id name args output) >>= k) g s post := by
  refine ⟨U.quiet rfl, fun r _ => ?_⟩
  let g' := g.next (.mark (.executed s name args output)) ()
  have h' : U.At g' s := ⟨U.executed h.inv, h.numbered, fun hr => U.executedErr (h.reload hr)⟩
  have hmem : (⟨s.core.activePhase, name, args, output⟩ : Executed) ∈ g'.executed :=
    List.mem_append_right _ (List.mem_singleton.mpr rfl)
  exact hk g' (h'.becomes (applyOutput_becomes id name args output s) (.takeIn id _ ha hmem))

theorem execute_does (hemit : U.Emits emit) {phase : Option String} {call : Value}
    {rest : List Value} (h : U.At g s) (hp : Pending s phase (call :: rest))
    (hadmitted : e.actionRejection s phase (Engine.readScheduled call).name
      (Engine.readScheduled call).args (Engine.readScheduled call).error = none) :
    U.Does (e.execute emit phase call (Engine.readScheduled call)) g s
      fun _ s' _ => Pending s' phase (call :: rest) := by
  unfold Engine.execute
  refine does_get_bind ?_
  split
  · next hallowed =>
    have hphase := hp.phased (List.cons_ne_nil _ _)
    have hdispatches : e.Dispatches s call (Engine.readScheduled call).id
        (Engine.readScheduled call).name (Engine.readScheduled call).args :=
      ⟨⟨rest, hp.pending⟩, rfl, hphase ▸ hadmitted, hphase ▸ hallowed, hp.active⟩
    refine Proc.sat_bind.mpr ((Proc.sat_request _).mpr ⟨U.dispatch h.inv hdispatches, fun r _ => ?_⟩)
    show U.Does _ (g.next (.mark (.dispatch s call _ _ _)) r) s _
    rw [Ghost.next_inert r rfl]
    refine does_bind (dispatch_acts hemit e _ _ _ _ _ h hp.active) fun g₁ s₁ output h₁ ht => ?_
    have hp₁ : Pending s₁ phase (call :: rest) := hp.of_task ht
    refine does_get_bind (takeIn_bind h₁ hp₁.active fun g₂ h₂ => ?_)
    have hcore := applyOutput_core (e := e) (Engine.readScheduled call).id
      (Engine.readScheduled call).name (Engine.readScheduled call).args output s₁
    refine does_pure h₂ ⟨?_, ?_, fun hne => ?_⟩
    · exact (congrArg (·.status) hcore).trans hp₁.active
    · exact (congrArg (·.pendingToolCalls) hcore).trans hp₁.pending
    · exact (congrArg (·.pendingToolPhase) hcore).trans (hp₁.phased hne)
  · exact does_pure h hp

theorem outputOf_does (hemit : U.Emits emit) {phase : Option String} {call : Value}
    {rest : List Value} (h : U.At g s) (hp : Pending s phase (call :: rest)) :
    U.Does (e.outputOf emit s phase call (Engine.readScheduled call)
      (e.actionRejection s phase (Engine.readScheduled call).name (Engine.readScheduled call).args
        (Engine.readScheduled call).error)) g s
      fun _ s' _ => Pending s' phase (call :: rest) := by
  cases hrejection : e.actionRejection s phase (Engine.readScheduled call).name
      (Engine.readScheduled call).args (Engine.readScheduled call).error with
  | some reason => exact does_pure h hp
  | none => exact execute_does hemit h hp hrejection

/-- One call is answered. -/
theorem settleCall_does (hemit : U.Emits emit) {phase : Option String} {call : Value}
    {rest : List Value} (h : U.At g s) (hp : Pending s phase (call :: rest)) :
    U.Does (e.settleCall emit phase call) g s fun _ s' _ => Pending s' phase rest := by
  unfold Engine.settleCall
  refine does_get_bind ?_
  dsimp only
  refine does_bind (outputOf_does hemit h hp) fun g₁ s₁ out h₁ hp₁ => ?_
  unfold appendCorrelatedToolResult
  refine appendMessage_bind fun s₂ hb => does_modify_bind ?_
  have hcalls : s₂.pendingToolCalls = call :: rest :=
    (congrArg (·.pendingToolCalls) hb.core).trans hp₁.pending
  have hdrop : Becomes s₁ (s₁.core.settle call rest out.1) (Engine.dropCall s₂) := by
    refine ⟨?_, ⟨hb.journal.counts, hb.journal.events, hb.journal.attempts,
      hb.journal.decisions⟩, hb.reload⟩
    have hcore : (Engine.dropCall s₂).core = { s₂.core with
        pendingToolCalls := s₂.pendingToolCalls.tail
        pendingToolPhase := if s₂.pendingToolCalls.tail.isEmpty then none
          else s₂.core.pendingToolPhase } := rfl
    rw [hcore, hb.core, hcalls]
    rfl
  have h₂ : U.At g₁ (Engine.dropCall s₂) := h₁.becomes hdrop (.settle out.1 hp₁.pending)
  have hp₂ : Pending (Engine.dropCall s₂) phase rest := by
    refine ⟨?_, ?_, fun hne => ?_⟩
    · exact (congrArg (·.status) hdrop.core).trans hp₁.active
    · exact congrArg (·.pendingToolCalls) hdrop.core
    · have hphase : (Engine.dropCall s₂).pendingToolPhase =
          if rest.isEmpty then none else s₁.pendingToolPhase :=
        congrArg (·.pendingToolPhase) hdrop.core
      rw [hphase, if_neg (by simpa using hne)]
      exact hp₁.phased (List.cons_ne_nil _ _)
  refine does_bind (checkpoint_keeps hemit h₂ (harmless_interim _ _)) fun g₃ s₃ _ h₃ ht => ?_
  exact does_pure h₃ (hp₂.of_task ht)

theorem settleCalls_does (hemit : U.Emits emit) {phase : Option String} (calls : List Value)
    (rejected : Bool) (h : U.At g s) (hp : Pending s phase calls) :
    U.Does (e.settleCalls emit phase calls rejected) g s fun _ s' _ => Idle s' := by
  induction calls generalizing g s rejected with
  | nil => exact does_pure h ⟨hp.active, hp.pending⟩
  | cons call calls ih =>
    unfold Engine.settleCalls
    exact does_bind (settleCall_does hemit h hp) fun g₁ s₁ r h₁ hp₁ => ih _ h₁ hp₁

theorem rejectBatch_does (hemit : U.Emits emit) (phase : Option String) (h : U.At g s)
    (hi : Idle s) : U.Does (e.rejectBatch emit phase) g s fun _ s' _ => Settled s' := by
  unfold Engine.rejectBatch
  refine does_get_bind (incrementInvalid_bind h hi fun s₁ reached h₁ hs₁ => does_get_bind ?_)
  refine does_bind (checkpoint_keeps hemit h₁ (harmless_interim _ _)) fun g₂ s₂ _ h₂ ht₂ => ?_
  refine Does.mono (reportInvalidLimit_keeps hemit reached h₂) fun g₃ s₃ _ _ ht₃ => ?_
  exact hs₁.of_task (ht₃.trans ht₂)

theorem settlePending_does (hemit : U.Emits emit) (h : U.At g s) (ha : s.status = .active) :
    U.Does (e.settlePending emit) g s fun _ s' _ => Settled s' := by
  unfold Engine.settlePending
  refine does_get_bind (does_bind (settleCalls_does hemit _ _ h ⟨ha, rfl, fun _ => rfl⟩)
    fun g₁ s₁ rejected h₁ hi₁ => ?_)
  split
  · exact rejectBatch_does hemit _ h₁ hi₁
  · exact does_modify (h₁.alike ⟨rfl, ⟨rfl, rfl, rfl, rfl⟩, rfl, rfl⟩) hi₁.settled

end Upkeep

end StateDrivenAgent
