import StateDrivenAgent.Verify.Checkpoints

/-!
# What the execution of a call keeps

`actions::dispatch` keeps the task of an active session, whatever becomes of the action; where it has
to be resolved by an operator, the session is blocked and the run fails.
-/

namespace StateDrivenAgent

open Interaction

namespace Upkeep

variable {env : Deployment} {e : Engine} {promise : Ghost → (x : Eff) → Reply x → Prop}
  {owes : Ghost → Eff → Prop} {U : Upkeep env e promise owes} {g : Ghost} {s : Session}
  {emit : Emit}

theorem harmless_status (message : String) : U.Event (Actions.statusEvent message) :=
  U.harmless (harmless_plain rfl)

/-- A change to the executions or to the attempts. -/
theorem At.stage (h : U.At g s) (x : Execution) : U.At g (Actions.stage x s) :=
  h.alike ⟨rfl, ⟨rfl, rfl, rfl, rfl⟩, rfl, rfl⟩

theorem At.attempts (h : U.At g s) (a : Attempt) :
    U.At g { s with attemptsPending := s.attemptsPending ++ [a] } :=
  h.alike ⟨rfl, ⟨rfl, rfl, rfl, rfl⟩, rfl, rfl⟩

theorem audit_keeps {kind : String} {payload : Value} (h : U.At g s) :
    U.Keeps (Actions.audit kind payload) g s :=
  (archiveRecord_does h).mono fun _ _ _ _ hc => Session.task_of_core hc

theorem stageAttempt_keeps {a : Attempt} {kind : String} (h : U.At g s) :
    U.Keeps (Actions.stageAttempt a kind) g s :=
  keeps_modify_bind rfl (audit_keeps (h.attempts a))

/-- A step of `dispatch`: it keeps the task of an active session. -/
def Acts (U : Upkeep env e promise owes) {α : Type} (f : EngineM α) : Prop :=
  ∀ g s, U.At g s → s.status = .active → U.Keeps f g s

namespace Acts

variable {α β : Type}

theorem bind {f : EngineM α} {k : α → EngineM β} (hf : U.Acts f) (hk : ∀ a, U.Acts (k a)) :
    U.Acts (f >>= k) := fun g s h ha =>
  keeps_bind (hf g s h ha) fun _ _ a h' ht => hk a _ _ h' ((Session.status_of_task ht).trans ha)

theorem pure (a : α) : U.Acts (Pure.pure a : EngineM α) := fun _ _ h _ => keeps_pure h

theorem get : U.Acts EngineM.get := fun _ _ h _ => ⟨h, rfl⟩

theorem fail (x : String) : U.Acts (Proc.fail x : EngineM α) := fun _ _ h ha => ⟨h, h.fails ha x⟩

theorem ofExcept (x : Except String α) : U.Acts (Proc.ofExcept x : EngineM α) := fun _ _ h ha => by
  cases x with
  | ok a => exact ⟨h, rfl⟩
  | error m => exact ⟨h, h.fails ha m⟩

theorem request {x : Eff} (hq : x.quiet = true) (hi : x.inert = true) :
    U.Acts (Proc.request x : EngineM (Reply x)) := fun _ _ h _ => does_request h hq hi fun _ _ => rfl

theorem stage (x : Execution) : U.Acts (EngineM.modify (Actions.stage x)) := fun _ _ h _ =>
  ⟨h.stage x, rfl⟩

theorem checkpoint {event : Value} (hemit : U.Emits emit) (hev : U.Event event) :
    U.Acts (Actions.checkpoint emit event) := fun _ _ h ha =>
  actionsCheckpoint_keeps hemit h (.inl ha) hev

theorem audit (kind : String) (payload : Value) : U.Acts (Actions.audit kind payload) :=
  fun _ _ h _ => audit_keeps h

theorem stageAttempt (a : Attempt) (kind : String) : U.Acts (Actions.stageAttempt a kind) :=
  fun _ _ h _ => stageAttempt_keeps h

end Acts

theorem executionOf_acts (hemit : U.Emits emit) (e : Engine) (deployment call tool : String)
    (args : Value) : U.Acts (Actions.executionOf e emit deployment call tool args) := by
  refine .bind .get fun s => ?_
  split
  · exact .pure _
  · refine .bind (.request rfl rfl) fun id => .bind (.ofExcept _) fun x => ?_
    refine .bind (.stage x) fun _ => .bind (.audit _ _) fun _ => ?_
    exact .bind (.checkpoint hemit (U.harmless (harmless_plain rfl))) fun _ => .pure _

theorem settleStarted_acts (records : List Attempt) : U.Acts (Actions.settleStarted records) := by
  induction records with
  | nil => exact .pure _
  | cons a rest ih =>
    refine .bind (.request rfl rfl) fun now => ?_
    exact .bind (fun _ _ h _ => ⟨h.attempts _, rfl⟩) fun _ => .bind (.audit _ _) fun _ => ih

theorem commitSettled_acts (hemit : U.Emits emit) : U.Acts (Actions.commitSettled emit) := by
  refine .bind .get fun s => ?_
  split
  · exact .pure _
  · exact .checkpoint hemit (harmless_status _)

theorem recoverOutcome_acts (hemit : U.Emits emit) (host : Host) (x : Execution) (a : Attempt)
    (now : String) (result : Value) :
    U.Acts (Actions.recoverOutcome host emit x a now result) := by
  refine .bind (.ofExcept _) fun result => .bind (.stageAttempt _ _) fun _ => ?_
  refine .bind (.stage _) fun _ => .bind (.checkpoint hemit (harmless_status _)) fun _ => ?_
  exact .pure _

theorem verifyReceipt_acts (hemit : U.Emits emit) (host : Host) (x : Execution)
    (command : Option String) (deployment : String) (ordinal : Int) :
    U.Acts (Actions.verifyReceipt host emit x command deployment ordinal) := by
  refine .bind .get fun s => .bind (.request rfl rfl) fun id => .bind (.request rfl rfl) fun now => ?_
  refine .bind (.stageAttempt _ _) fun _ => .bind (.checkpoint hemit (harmless_status _)) fun _ => ?_
  refine .bind (.request rfl rfl) fun receipt => .bind (.request rfl rfl) fun now => ?_
  split
  · exact .bind (recoverOutcome_acts hemit host x _ _ _) fun _ => .pure _
  · refine .bind (.stageAttempt _ _) fun _ => ?_
    exact .bind (.checkpoint hemit (harmless_status _)) fun _ => .pure _

/-! ## Blocked actions -/

theorem At.block (h : U.At g s) (hf : U.free) (message : String) :
    U.At g (Actions.blockSession message s) :=
  h.becomes ⟨rfl, ⟨rfl, rfl, rfl, rfl⟩, rfl⟩ (.block hf)

/-- The end of a blocked action: it is committed, and the run fails. -/
theorem blocked_does {event : Value} {α : Type} {post : Ghost → Session → α → Prop}
    (hemit : U.Emits emit) (h : U.At g s) (hf : U.free) (hev : U.Event event) (x : String) :
    U.Does (do Actions.checkpoint emit event; Proc.fail x : EngineM α) g s post :=
  does_bind (actionsCheckpoint_keeps hemit h (.inr hf) hev) fun _ _ _ h' _ =>
    ⟨h', .inr (U.overrules hf)⟩

theorem requireRecovery_acts (hemit : U.Emits emit) (x : Execution) :
    U.Acts (Actions.requireRecovery emit x) := by
  intro g s h _
  refine does_get_bind (U.sat_request_bind rfl rfl fun _ hr => ?_)
  have hf : U.free := U.blocked hr
  refine does_modify_bind (does_modify_bind ?_)
  refine archiveRecord_bind fun s' ha => ?_
  exact blocked_does hemit (((h.block hf _).stage _).alike ha) hf (U.harmless (harmless_code rfl (by decide))) _

theorem settleUncertain_acts (hemit : U.Emits emit) (x : Execution) (a : Attempt)
    (now error : String) : U.Acts (Actions.settleUncertain emit x a now error) := by
  intro g s h _
  refine does_get_bind (U.sat_request_bind rfl rfl fun _ hr => ?_)
  have hf : U.free := U.blocked hr
  refine does_modify_bind (does_bind (stageAttempt_keeps (h.block hf _)) fun g' s' _ h' _ => ?_)
  refine does_modify_bind ?_
  exact blocked_does hemit (h'.stage _) hf (U.harmless (harmless_code rfl (by decide))) _

/-! ## An attempt -/

theorem invoke_acts (deployment tool : String) (x : Execution) (args : List (String × Value)) :
    U.Acts (Actions.invoke deployment tool x args) := by
  unfold Actions.invoke
  split
  · exact .request rfl rfl
  · exact .bind (.request rfl rfl) fun _ => .pure _

theorem settleOutput_acts (hemit : U.Emits emit) (x : Execution) (a : Attempt)
    (now result : String) : U.Acts (Actions.settleOutput emit x a now result) := by
  refine .bind (.stageAttempt _ _) fun _ => .bind (.stage _) fun _ => .bind (.audit _ _) fun _ => ?_
  exact .bind (.checkpoint hemit (U.harmless (harmless_plain rfl))) fun _ => .pure _

theorem attempt_acts (hemit : U.Emits emit) (x : Execution) (command : Option String)
    (deployment tool : String) (args : List (String × Value)) (ordinal : Int) :
    U.Acts (Actions.attempt emit x command deployment tool args ordinal) := by
  refine .bind .get fun s => .bind (.request rfl rfl) fun now => .bind (.request rfl rfl) fun id => ?_
  refine .bind (fun _ _ h _ => ⟨(h.attempts _).stage _, rfl⟩) fun _ => .bind (.audit _ _) fun _ => ?_
  refine .bind (.checkpoint hemit (U.harmless (harmless_plain rfl))) fun _ => ?_
  refine .bind (invoke_acts _ _ _ _) fun output => .bind (.request rfl rfl) fun now => ?_
  split
  · exact settleOutput_acts hemit _ _ _ _
  · exact settleUncertain_acts hemit _ _ _ _

/-! ## The dispatch -/

theorem attemptOrBlock_acts (hemit : U.Emits emit) (x : Execution) (command : Option String)
    (deployment tool : String) (args : List (String × Value)) :
    U.Acts (Actions.attemptOrBlock emit x command deployment tool args) := by
  unfold Actions.attemptOrBlock
  split
  · exact requireRecovery_acts hemit x
  · split
    · exact .fail _
    · split
      · exact .fail _
      · exact attempt_acts hemit _ _ _ _ _ _

theorem resolve_acts (hemit : U.Emits emit) (e : Engine) (x : Execution) (command : Option String)
    (deployment tool : String) (args : List (String × Value)) :
    U.Acts (Actions.resolve e emit x command deployment tool args) := by
  refine .bind (settleStarted_acts _) fun _ => .bind (commitSettled_acts hemit) fun _ => ?_
  have hverify : U.Acts (Actions.verifiedOutcome e emit x command deployment tool) := by
    unfold Actions.verifiedOutcome
    split
    · exact verifyReceipt_acts hemit _ _ _ _ _
    · exact .pure _
  refine .bind hverify fun outcome => ?_
  cases outcome with
  | some result => exact .pure _
  | none => exact attemptOrBlock_acts hemit _ _ _ _ _

theorem dispatch_acts (hemit : U.Emits emit) (e : Engine) (call tool : String)
    (args : List (String × Value)) : U.Acts (Actions.dispatch e emit call tool args) := by
  refine .bind .get fun s => .bind (executionOf_acts hemit _ _ _ _ _) fun x => ?_
  refine .bind (.ofExcept _) fun _ => ?_
  split
  · exact .ofExcept _
  · exact resolve_acts hemit _ _ _ _ _ _

end Upkeep

end StateDrivenAgent
