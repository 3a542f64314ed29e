import StateDrivenAgent.Go.Verify.Ledger

/-!
# Batches that keep an invariant

The calls of a batch, scheduled or left pending, are performed and their results appended one by one.
An invariant that a call keeps, that does not speak of the calls left, is kept by a whole run.
-/

namespace StateDrivenAgent

open Interaction

namespace Go

variable {G : Type} {M : Monitor Ask Answer G} {I : G → Session → Prop} (hI : Stands M I) {emit : Emit}
  (he : ∀ event, Proc.Keeps M I (emit event)) (e : Engine)

/-- What else a batch does: a call, the observation of its result and the change of what is left. -/
structure Engine.Settles (e : Engine) (M : Monitor Ask Answer G) (I : G → Session → Prop)
    (emit : Emit) : Prop where
  call : ∀ id name args, Proc.Keeps M I (e.call emit id name args)
  executed : ∀ id result, Proc.Keeps M I (GoM.mark (.executed id result))
  pending : ∀ {g s} (calls : List PendingCall), I g s → I g { s with pendingToolCalls := calls }

include hI

theorem appendResult_keeps (hc : e.Settles M I emit) (id name : String) (args : Arguments)
    (result : String) (invoked : Bool) :
    Proc.Keeps M I (e.appendResult id name args result invoked) :=
  Proc.keeps_bind (hI.appendMessage rfl) fun _ => keeps_when <|
    Proc.keeps_bind (hc.executed _ _) fun _ => hI.change (record_quiet e _ _ _)

include he

theorem endBlocked_keeps (id result : String) : Proc.Keeps M I (Engine.endBlocked emit id result) :=
  Proc.keeps_bind (hI.change fun _ => .same rfl rfl) fun _ =>
    Proc.keeps_bind (he _) fun _ => Proc.keeps_fail _

/-- The calls of the assistant message. -/
def Engine.wired (e : Engine) (calls : List ToolCall) : List Value :=
  calls.map fun call => wireCall call.id call.name (e.wireArguments call)

theorem wireCalls_yields (calls : List ToolCall) :
    Proc.Yields M I (fun _ _ wired => wired = e.wired calls) (e.wireCalls emit calls) := by
  induction calls with
  | nil => exact Proc.yields_pure fun _ _ _ => rfl
  | cons call calls ih =>
    refine Proc.yields_bind (checkExecution_keeps hI he true) fun _ g s h => ?_
    refine Proc.sat_bind.2 ((ih g s h).mono_post fun g s wired h => ⟨h.1, ?_⟩)
    rw [h.2]
    rfl

variable (hc : e.Settles M I emit)

include hc

theorem recoverPending_keeps (left : Nat) : Proc.Keeps M I (e.recoverPending emit left) := by
  induction left with
  | zero => exact Proc.keeps_pure _
  | succ left ih =>
    refine Proc.keeps_bind Proc.keeps_state fun s => ?_
    split
    · exact Proc.keeps_pure _
    · split
      · exact Proc.keeps_fail _
      · split
        · exact Proc.keeps_fail _
        · refine Proc.keeps_bind (hc.call _ _ _) fun out => ?_
          obtain ⟨result, invoked⟩ := out
          dsimp only
          split
          · exact endBlocked_keeps hI he _ _
          · exact Proc.keeps_bind (hI.change (captureArtifacts_quiet e _ _ _ _)) fun _ =>
              Proc.keeps_bind (appendResult_keeps hI e hc _ _ _ _ _) fun _ =>
              Proc.keeps_bind (Proc.keeps_update fun _ _ h => hc.pending _ h) fun _ =>
              Proc.keeps_bind (he _) fun _ => ih

theorem settleCall_keeps (batch : Engine.Batch) (call : ToolCall) :
    Proc.Keeps M I (e.settleCall emit batch call) := by
  refine Proc.keeps_bind ?_ fun out => ?_
  · split
    · split
      · exact hc.call _ _ _
      · exact Proc.keeps_pure _
    · exact Proc.keeps_pure _
  · obtain ⟨result, invoked⟩ := out
    dsimp only
    split
    · exact Proc.keeps_bind (endBlocked_keeps hI he _ _) fun _ => Proc.keeps_pure _
    · refine Proc.keeps_bind (keeps_when (hI.change fun s => ?_)) fun _ =>
        Proc.keeps_bind (appendResult_keeps hI e hc _ _ _ _ _) fun _ =>
        Proc.keeps_bind (Proc.keeps_update fun _ _ h => hc.pending _ h) fun _ =>
        Proc.keeps_bind (Proc.keeps_attempt (he _)) fun _ => Proc.keeps_pure _
      exact (captureArtifacts_quiet e _ _ _ _ s).trans (rememberOutput_quiet e _ _ _ _)

theorem settleBatch_keeps (batch : Engine.Batch) (calls : List ToolCall) :
    Proc.Keeps M I (e.settleBatch emit batch calls) := by
  induction calls generalizing batch with
  | nil => exact Proc.keeps_pure _
  | cons call calls ih =>
    exact Proc.keeps_bind (settleCall_keeps hI he e hc batch call) fun batch => ih batch

/-- A batch, from what its decision establishes; the message of the batch is what needs it. -/
theorem actTools_sat {K : G → Session → Prop} (hK : Stands M K)
    (heK : ∀ event, Proc.Keeps M K (emit event)) (hKI : ∀ g s, K g s → I g s) (before : String)
    {items : List ToolCall} (happend : ∀ g s, K g s →
      Proc.Sat M (appendMessage { role := "assistant", toolCalls := some (.arr (e.wired items)) }) g s
        (fun g' s' _ => I g' s') fun g' s' _ => I g' s') {g : G} {s : Session} (h : K g s) :
    Proc.Sat M (e.actTools emit before items) g s (fun g' s' _ => I g' s') fun g' s' _ => I g' s' := by
  refine Proc.sat_bind.2 ((wireCalls_yields hK heK e items g s h).mono (fun g s wired h => ?_)
    fun g s _ h => hKI g s h)
  obtain ⟨h, rfl⟩ := h
  refine Proc.sat_bind.2 ((happend g s h).mono_post fun g s _ h => ?_)
  refine Proc.keeps_bind (Proc.keeps_update fun _ _ h => hc.pending _ h) (fun _ =>
    Proc.keeps_bind (settleBatch_keeps hI he e hc _ _) fun batch => ?_) g s h
  split
  · exact Proc.keeps_fail _
  · exact Proc.keeps_bind (reportBatch_keeps hI he e _) fun _ =>
      Proc.keeps_bind (observeProgress_keeps hI he e before) fun _ => Proc.keeps_pure _

theorem actTools_keeps (hentry : ∀ {g s} (x : TranscriptEntry), I g s → I g (s.recorded x))
    (before : String) (items : List ToolCall) : Proc.Keeps M I (e.actTools emit before items) :=
  fun _ _ h => actTools_sat hI he e hc hI he (fun _ _ h => h) before
    (fun g s h => hI.appendBatch (fun _ _ h => hentry _ h) g s h) h

theorem run_keeps (hentry : ∀ {g s} (x : TranscriptEntry), I g s → I g (s.recorded x))
    (hM : FreshCallIds M) (max : Int) : Proc.Keeps M I (e.run emit max) :=
  run_leads hI hI (fun _ _ h => h) he
    (decides hI hM he e fun before items _ => actTools_keeps hI he e hc hentry before items)
    (recoverPending_keeps hI he e hc) max

end Go

end StateDrivenAgent
