import StateDrivenAgent.Verify.Saving

/-!
# What a checkpoint keeps

The callbacks of the two handlers save the session, look for a cancellation and, where there is a
client, send the event. A checkpoint of the engine keeps the task it works on whatever the callback
does, and fails only where a failure is allowed (`Emits`).
-/

namespace StateDrivenAgent

open Interaction

namespace Upkeep

variable {env : Deployment} {e : Engine} {promise : Ghost → (x : Eff) → Reply x → Prop}
  {owes : Ghost → Eff → Prop} {U : Upkeep env e promise owes} {g : Ghost} {s : Session}
  {value event : Value}

/-- The acknowledgement asks for a reload only where a failure is allowed. -/
def Acked (U : Upkeep env e promise owes) (g : Ghost) (s : Session) : Prop :=
  ∀ ack, s.checkpointAck = some ack → ack.needsReload = true → U.Err g

/-- What a callback guarantees of the session it is called on. -/
structure Emitted (U : Upkeep env e promise owes) (s : Session) (g : Ghost)
    (out : Except String Unit × Session) : Prop where
  inv : U.Inv g s.core
  reload : s.needsReload = true → U.Err g
  acked : out.1 = .ok () → U.Acked g out.2
  fails : ∀ x, out.1 = .error x → U.Fails g x

def Emits (U : Upkeep env e promise owes) (emit : Emit) : Prop :=
  ∀ {g s event}, U.At g s → U.Event event →
    (emit event s).Sat (watch env e.config promise owes) g (U.Emitted s)

/-! ## The callbacks -/

/-- What a step of a callback leaves. -/
def Leaves (U : Upkeep env e promise owes) (s : Session) (g : Ghost) (s' : Session) : Prop :=
  U.At g s' ∧ Saved s s' ∧ U.Acked g s'

theorem Emitted.of_sat {f : EngineM Unit} (h : f.Sat (watch env e.config promise owes) g s
    (fun g' s' _ => U.Leaves s g' s') fun g' s' x => (U.At g' s' ∧ Saved s s') ∧ U.Fails g' x) :
    (f s).Sat (watch env e.config promise owes) g (U.Emitted s) := by
  refine Program.Sat.mono h ?_
  rintro g' ⟨_ | _, s'⟩ hout
  · obtain ⟨⟨hat, hsaved⟩, hfails⟩ := hout
    refine ⟨hsaved.core ▸ hat.inv, fun hr => hat.reload (hsaved.reload hr), nofun, ?_⟩
    rintro _ ⟨rfl⟩
    exact hfails
  · obtain ⟨hat, hsaved, hack⟩ := hout
    exact ⟨hsaved.core ▸ hat.inv, fun hr => hat.reload (hsaved.reload hr), fun _ => hack, nofun⟩

theorem saveCheckpoint_sat (h : U.At g s) (hev : U.Event event) :
    (Server.saveCheckpoint value event).Sat (watch env e.config promise owes) g s
      (fun g' s' _ => U.Leaves s g' s') fun g' s' x => (U.At g' s' ∧ Saved s s') ∧ U.Fails g' x := by
  have hcopy : U.At g { s with revision := s.emitRevision } :=
    h.alike ⟨rfl, ⟨rfl, rfl, rfl, rfl⟩, rfl, rfl⟩
  refine Program.sat_bind.mpr (Program.Sat.mono (save_sat hcopy hev) ?_)
  rintro g' ⟨_ | _, s'⟩ hout
  · obtain ⟨hat, hsaved, hfails⟩ := hout
    exact ⟨⟨hat, hsaved.core, hsaved.reload⟩, hfails⟩
  · obtain ⟨hat, hsaved, hack⟩ := hout
    exact ⟨hat.alike ⟨rfl, ⟨rfl, rfl, rfl, rfl⟩, rfl, rfl⟩, ⟨hsaved.core, hsaved.reload⟩, hack⟩

/-- Without a failure of the query, a set flag means that the run was cancelled. -/
theorem cancelled_sat {s₀ : Session} (h : U.Leaves s₀ g s) (missing : Except String Bool) :
    (Server.cancelled missing).Sat (watch env e.config promise owes) g s
      (fun g' s' flag => U.Leaves s₀ g' s' ∧ (flag = true → U.Err g'))
      fun g' s' x => (U.At g' s' ∧ Saved s₀ s') ∧ U.Fails g' x := by
  refine Proc.sat_bind.mpr (Proc.sat_state.mpr ?_)
  split
  · exact ⟨h, nofun⟩
  · next run hrun =>
    refine U.sat_request_bind rfl rfl fun r hr => ?_
    have herr : r ≠ .ok (some false) → U.Err g := U.cancelled h.1.inv hr
    match r with
    | .error _ => exact ⟨⟨h.1, h.2.1⟩, .inr (herr nofun)⟩
    | .ok (some true) => exact ⟨h, fun _ => herr nofun⟩
    | .ok (some false) => exact ⟨h, nofun⟩
    | .ok none =>
      cases missing with
      | error _ => exact ⟨⟨h.1, h.2.1⟩, .inr (herr nofun)⟩
      | ok flag => exact ⟨h, fun _ => herr nofun⟩

theorem emits_run (value : Value) : U.Emits (Server.emitRun value) := by
  intro g s event h hev
  refine Emitted.of_sat (Proc.sat_bind.mpr (Proc.Sat.mono_post (saveCheckpoint_sat h hev) ?_))
  intro g₁ s₁ _ h₁
  refine Proc.sat_bind.mpr (Proc.Sat.mono_post (cancelled_sat h₁ _) ?_)
  rintro g₂ s₂ flag ⟨h₂, herr⟩
  cases flag with
  | true => exact ⟨⟨h₂.1, h₂.2.1⟩, .inr (herr rfl)⟩
  | false => exact h₂

/-- An event the client does not take cancels the run. -/
theorem sendOrCancel_sat {s₀ : Session} (h : U.Leaves s₀ g s) :
    (Server.sendOrCancel event).Sat (watch env e.config promise owes) g s
      (fun g' s' _ => U.Leaves s₀ g' s') fun g' s' x => (U.At g' s' ∧ Saved s₀ s') ∧ U.Fails g' x := by
  refine Proc.sat_bind.mpr (Proc.sat_state.mpr (Proc.sat_bind.mpr (Proc.sat_lift.mpr ?_)))
  refine ⟨U.quiet rfl, fun id _ => ?_⟩
  show Program.Sat _ (.ret _) (g.next (.eventId s.id s.revision) id) _
  rw [Ghost.next_inert id rfl]
  refine U.sat_request_bind rfl rfl fun sent hsent => ?_
  cases sent with
  | true => exact h
  | false =>
    have herr : U.Err g := U.unsent h.1.inv hsent
    cases s.runId with
    | none => exact ⟨⟨h.1, h.2.1⟩, .inr herr⟩
    | some run => exact U.sat_request_bind rfl rfl fun _ _ => ⟨⟨h.1, h.2.1⟩, .inr herr⟩

theorem emits_stream (value : Value) : U.Emits (Server.emitStream value) := by
  intro g s event h hev
  refine Emitted.of_sat (Proc.sat_bind.mpr (Proc.Sat.mono_post (saveCheckpoint_sat h hev) ?_))
  intro g₁ s₁ _ h₁
  refine Proc.sat_bind.mpr (Proc.Sat.mono_post (cancelled_sat h₁ _) ?_)
  rintro g₂ s₂ flag ⟨h₂, herr⟩
  cases flag with
  | true => exact ⟨⟨h₂.1, h₂.2.1⟩, .inr (herr rfl)⟩
  | false => exact sendOrCancel_sat h₂

/-! ## Checkpoints -/

variable {emit : Emit}

theorem acknowledge_alike (s : Session) :
    (acknowledgeCheckpoint s).core = s.core ∧ SameJournal s (acknowledgeCheckpoint s) := by
  unfold acknowledgeCheckpoint
  split
  · exact ⟨rfl, .refl s⟩
  · next receipt _ =>
    refine ⟨?_, rfl, rfl, rfl, rfl⟩
    simp only [Session.core, Session.task, List.map_map]
    congr 2
    refine List.map_congr_left fun m _ => ?_
    rw [Function.comp_apply]
    split <;> rfl

/-- After a checkpoint that was saved, the session goes on unless it has to be loaded again. -/
theorem acknowledged_does (h : U.At g s) (hack : U.Acked g s) :
    U.Does (EngineM.op acknowledged) g s fun _ s' _ => s'.core = s.core := by
  obtain ⟨hcore, hjournal⟩ := acknowledge_alike s
  have hreload : (acknowledgeCheckpoint s).needsReload = true → U.Err g := by
    unfold acknowledgeCheckpoint
    split
    · exact h.reload
    · next receipt hreceipt => exact hack receipt hreceipt
  unfold acknowledged EngineM.op Proc.step
  simp only [Does, Proc.Sat, Program.sat_ret]
  split
  · next s' hs =>
    split at hs
    · cases hs
    · cases hs
      exact ⟨⟨hcore ▸ h.inv, SameJournal.numbered ⟨hjournal.counts, hjournal.events,
        hjournal.attempts, hjournal.decisions⟩ h.numbered, hreload⟩, hcore⟩
  · next x s' hs =>
    split at hs
    · next hr =>
      cases hs
      exact ⟨⟨hcore ▸ h.inv, hjournal.numbered h.numbered, hreload⟩, .inr (hreload hr)⟩
    · cases hs

theorem emit_does (hemit : U.Emits emit) (h : U.At g s) (hev : U.Event event) :
    U.Does (EngineM.emit emit event) g s fun g' s' _ => s'.core = s.core ∧ U.Acked g' s' := by
  refine Program.sat_bind.mpr (Program.Sat.mono (hemit h hev) ?_)
  intro g' out hout
  have hat : U.At g' { s with
      checkpointAck := out.2.checkpointAck, emitRevision := out.2.emitRevision } :=
    ⟨hout.inv, h.numbered, hout.reload⟩
  cases hresult : out.1 with
  | ok u =>
    simp only [Program.sat_ret]
    exact ⟨hat, rfl, hout.acked hresult⟩
  | error x =>
    simp only [Program.sat_ret]
    exact ⟨hat, hout.fails x hresult⟩

theorem stage_does (h : U.At g s) :
    U.Does (EngineM.op Diagnostics.stage) g s fun _ s' _ => s'.core = s.core := by
  obtain ⟨hok, halike⟩ := stage_alike h.numbered
  refine does_op (h.alike halike) (fun _ => halike.core) fun m hm => ?_
  rw [hok] at hm
  cases hm

theorem sealOutcome_core (now : String) (s : Session) :
    (sealOutcome now s).core = s.core ∨ s.status ≠ .active ∧ ∃ reason,
      (sealOutcome now s).core = { s.core with
        runStatus := if s.core.runStatus = .running then
          if s.core.status = .complete then .complete else .failed else s.core.runStatus
        runTerminationReason := s.core.runTerminationReason <|> some reason } := by
  unfold sealOutcome
  split
  · exact .inl rfl
  · next hs =>
    refine .inr ⟨hs, ?_⟩
    by_cases hrun : s.runStatus = .running
    · have hcore : s.core.runStatus = .running := hrun
      simp only [hrun, hcore, if_true]
      exact ⟨_, rfl⟩
    · have hcore : s.core.runStatus ≠ .running := hrun
      simp only [hrun, hcore, if_false]
      exact ⟨_, rfl⟩

theorem sealOutcome_at (h : U.At g s) (now : String) : U.At g (sealOutcome now s) := by
  have hrest : SameJournal s (sealOutcome now s) ∧
      (sealOutcome now s).needsReload = s.needsReload := by
    unfold sealOutcome
    split
    · exact ⟨.refl s, rfl⟩
    · split <;> exact ⟨⟨rfl, rfl, rfl, rfl⟩, rfl⟩
  rcases sealOutcome_core now s with hcore | ⟨hs, reason, hcore⟩
  · exact ⟨hcore ▸ h.inv, hrest.1.numbered h.numbered, fun hr => h.reload (hrest.2 ▸ hr)⟩
  · exact h.becomes ⟨hcore, hrest.1, hrest.2⟩ (.seal reason (.inl hs))

theorem sealOutcome_task (now : String) (s : Session) : (sealOutcome now s).task = s.task := by
  rcases sealOutcome_core now s with hcore | ⟨-, reason, hcore⟩
  · exact Session.task_of_core hcore
  · exact congrArg Core.toTask hcore

theorem checkpoint_keeps (hemit : U.Emits emit) (h : U.At g s) (hev : U.Event event) :
    U.Keeps (checkpoint emit event) g s := by
  refine U.sat_request_bind rfl rfl fun now _ => ?_
  refine does_modify_bind (does_bind (stage_does (sealOutcome_at h now)) fun g₁ s₁ _ h₁ hc₁ => ?_)
  refine does_bind (emit_does hemit h₁ hev) fun g₂ s₂ _ h₂ hc₂ => ?_
  refine (acknowledged_does h₂ hc₂.2).mono fun g₃ s₃ _ h₃ hc₃ => ?_
  calc s₃.task = s₂.task := Session.task_of_core hc₃
    _ = s₁.task := Session.task_of_core hc₂.1
    _ = (sealOutcome now s).task := Session.task_of_core hc₁
    _ = s.task := sealOutcome_task now s

theorem endBlocked_at (h : U.At g s) (now : String) (ha : s.status = .active ∨ U.free) :
    U.At g (Actions.endBlocked now s) := by
  unfold Actions.endBlocked
  split
  · exact h.becomes ⟨rfl, ⟨rfl, rfl, rfl, rfl⟩, rfl⟩ (.endBlocked ha)
  · exact h

theorem endBlocked_task (now : String) (s : Session) : (Actions.endBlocked now s).task = s.task := by
  unfold Actions.endBlocked
  split <;> rfl

theorem actionsCheckpoint_keeps (hemit : U.Emits emit) (h : U.At g s)
    (ha : s.status = .active ∨ U.free) (hev : U.Event event) :
    U.Keeps (Actions.checkpoint emit event) g s := by
  refine U.sat_request_bind rfl rfl fun now _ => does_modify_bind ?_
  refine does_bind (emit_does hemit (endBlocked_at h now ha) hev) fun g₁ s₁ _ h₁ hc₁ => ?_
  refine (acknowledged_does h₁ hc₁.2).mono fun g₂ s₂ _ h₂ hc₂ => ?_
  calc s₂.task = s₁.task := Session.task_of_core hc₂
    _ = (Actions.endBlocked now s).task := Session.task_of_core hc₁.1
    _ = s.task := endBlocked_task now s

/-! ## Records and messages -/

theorem archiveRecord_bind {β : Type} {kind : String} {payload : Value} {k : Unit → EngineM β}
    {post : Ghost → Session → β → Prop} (h : ∀ s', Alike s s' → U.Does (k ()) g s' post) :
    U.Does (archiveRecord kind payload >>= k) g s post := by
  refine U.sat_request_bind rfl rfl fun id _ => U.sat_request_bind rfl rfl fun createdAt _ => ?_
  exact h _ ⟨rfl, ⟨rfl, rfl, rfl, rfl⟩, rfl, rfl⟩

theorem archiveRecord_does {kind : String} {payload : Value} (h : U.At g s) :
    U.Does (archiveRecord kind payload) g s fun _ s' _ => s'.core = s.core := by
  refine U.sat_request_bind rfl rfl fun id _ => U.sat_request_bind rfl rfl fun createdAt _ => ?_
  exact does_modify (h.alike ⟨rfl, ⟨rfl, rfl, rfl, rfl⟩, rfl, rfl⟩) rfl

theorem appendMessage_bind {β : Type} {body : MessageBody} {k : Unit → EngineM β}
    {post : Ghost → Session → β → Prop}
    (h : ∀ s', Becomes s (s.core.append body) s' → U.Does (k ()) g s' post) :
    U.Does (appendMessage body >>= k) g s post := by
  refine U.sat_request_bind rfl rfl fun id _ => U.sat_request_bind rfl rfl fun createdAt _ => ?_
  refine h _ ⟨?_, ⟨rfl, rfl, rfl, rfl⟩, rfl⟩
  simp only [Session.core, Session.task, List.map_append, List.map_cons, List.map_nil]
  rfl

theorem tally_core (payload : Value) (s : Session) :
    (Diagnostics.tally payload s).core = s.core ∧
      (Diagnostics.tally payload s).needsReload = s.needsReload := by
  unfold Diagnostics.tally
  split
  · exact ⟨rfl, rfl⟩
  split <;> exact ⟨rfl, rfl⟩

theorem cache_core {family : String} {payload : Value} {s s' : Session}
    (h : Diagnostics.cache family payload s = .ok s') :
    s'.core = s.core ∧ s'.needsReload = s.needsReload := by
  unfold Diagnostics.cache at h
  split at h
  · split at h
    · cases h
      exact ⟨rfl, rfl⟩
    · cases h
  · split at h
    · cases h
      exact tally_core payload s
    · split at h
      · cases h
        exact ⟨rfl, rfl⟩
      · cases h

/-- A new record is numbered. -/
theorem append_at (family : String) (payload : Value) (h : U.At g s) :
    U.At g (Diagnostics.append family payload s).2 ∧
      (Diagnostics.append family payload s).2.core = s.core := by
  unfold Diagnostics.append
  dsimp only
  split
  · exact ⟨h, rfl⟩
  · split
    · exact ⟨h, rfl⟩
    · next s' hs =>
      obtain ⟨hcore, hreload⟩ := cache_core hs
      refine ⟨⟨?_, ?_, fun hr => h.reload (hreload ▸ hr)⟩, hcore⟩
      · exact hcore ▸ h.inv
      · intro hcounts
        exact absurd hcounts (Diagnostics.insertCount_ne_nil _ _ _)

theorem record_at (family : String) (payload : Value) (h : U.At g s) :
    U.At g (Diagnostics.record family payload s).2 ∧
      (Diagnostics.record family payload s).2.core = s.core := by
  unfold Diagnostics.record
  split
  · exact ⟨h, rfl⟩
  · split
    · exact ⟨h, rfl⟩
    · obtain ⟨hok, halike⟩ := stage_alike h.numbered
      rcases hs : Diagnostics.stage s with ⟨r, s'⟩
      rw [hs] at hok halike
      subst hok
      obtain ⟨hat, hcore⟩ := append_at family payload (h.alike halike)
      simp only [StateOp.andThen, hs]
      exact ⟨hat, hcore.trans halike.core⟩

end Upkeep

end StateDrivenAgent
