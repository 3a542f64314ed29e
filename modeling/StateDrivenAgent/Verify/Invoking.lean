import StateDrivenAgent.Server.Handlers
import StateDrivenAgent.Verify.Holding

/-!
# What a worker invokes

A save that is acknowledged has stored what was due, so what a session says of its executions at one
revision it says at the next (`save_sat`). The callbacks of the handlers are such saves, and with them
the engine keeps what it knows current from checkpoint to checkpoint (`Current`). An attempt counts a
dispatch on top of a row that is known, commits it, and only then makes it. So every request a worker
serves meets its obligations (`program_sat`), whatever the other workers do.
-/

namespace StateDrivenAgent

open Interaction
open Storage (executionKey)

variable {env : Deployment} {L : Annals} {g : Worker} {s : Session} {config event : Value}

/-! ## One save -/

theorem Annals.due_congr {s s' : Session} (hid : s'.id = s.id)
    (houtbox : s'.pendingExecutionOutbox = s.pendingExecutionOutbox) (n : Int) (x : Execution) :
    L.Due n s' x ↔ L.Due n s x := by
  unfold Annals.Due
  rw [hid, houtbox]

theorem Annals.raises_congr {s s' : Session} (hid : s'.id = s.id)
    (houtbox : s'.pendingExecutionOutbox = s.pendingExecutionOutbox) (n : Int) (call : String) :
    L.raises n s' call = L.raises n s call := by
  unfold Annals.raises
  rw [hid, houtbox]

/-- The session is committed on top of the revision `n`. -/
structure Sealed (L : Annals) (n : Int) (s : Session) (g g' : Worker) : Prop where
  call : g'.call = g.call
  known : (s.pendingExecutionOutbox.map Execution.executionId).Nodup →
    ∀ x, L.Due n s x → L.Known s.id (n + 1) x
  started : ∀ call, g.call = some (s.id, call) → L.raises n s call = true → g'.started = true

/-- The proposal is tried: what is committed under its identity is the proposal. -/
structure Trying (env : Deployment) (L : Annals) (staged : Session) (g₀ g : Worker) : Prop where
  call : g.call = g₀.call
  drawn : ∃ id ∈ g.drawn, staged.pendingCommitId = some id
  committed : ∀ c n, Worker.commitId env staged = some c → (c, n) ∈ g.commits →
    n = staged.revision + 1 ∧ Sealed L staged.revision staged g₀ g

theorem Trying.transact {staged : Session} {g₀ g : Worker} (h : Trying env L staged g₀ g)
    {r : TransactReply} (hr : Worker.Answers env L g staged r) :
    Trying env L staged g₀ ((Worker.watch env L).next g (.transact staged config event) r) := by
  change Trying env L staged g₀ (if r.stored.isSome then g.commit env L staged else g)
  split
  next hstored =>
    refine ⟨h.call, h.drawn, fun c n hc hmem => ?_⟩
    have hsealed : Sealed L staged.revision staged g₀ (g.commit env L staged) := by
      refine ⟨h.call, hr.stored hstored, fun call hcall hraises => ?_⟩
      change (g.started || g.call.any fun k => k.1 = staged.id && L.raises staged.revision staged k.2) =
        true
      rw [h.call, hcall]
      simp [hraises]
    rcases List.mem_append.1 hmem with hold | hnew
    · exact ⟨(h.committed c n hc hold).1, hsealed⟩
    · rw [hc] at hnew
      obtain rfl := (Prod.mk.inj (List.mem_singleton.1 hnew)).2
      exact ⟨rfl, hsealed⟩
  · exact h

/-- What the tries end with, if they are acknowledged. -/
theorem tryCommit_sat {staged : Session} {g₀ : Worker} (h : Trying env L staged g₀ g)
    (retries : Nat) :
    (Server.tryCommit staged config event retries).Sat (Worker.watch env L) g s
      (fun g' _ r => r.result = .ok () → Sealed L staged.revision staged g₀ g' ∧
        Worker.Settles staged r.session ∧ r.session.revision = staged.revision + 1)
      fun _ _ _ => False := by
  have hreply : ∀ {g r}, Trying env L staged g₀ g → Worker.Answers env L g staged r →
      r.result = .ok () → Sealed L staged.revision staged g₀
          ((Worker.watch env L).next g (.transact staged config event) r) ∧
        Worker.Settles staged r.session ∧ r.session.revision = staged.revision + 1 := by
    intro g r h hr hok
    obtain ⟨c, hc, hcommits⟩ := hr.acknowledged hok
    have hnext : Trying env L staged g₀
        ((Worker.watch env L).next g (.transact staged config event) r) := h.transact hr
    have hmem : (c, r.session.revision) ∈
        ((Worker.watch env L).next g (.transact staged config event) r).commits := by
      change _ ∈ (if r.stored.isSome then g.commit env L staged else g).commits
      rcases hcommits with hold | ⟨hstored, hrevision⟩
      · split
        · exact List.mem_append_left _ hold
        · exact hold
      · rw [if_pos hstored]
        refine List.mem_append_right _ ?_
        rw [hc, hrevision]
        exact List.mem_singleton_self _
    obtain ⟨hrevision, hsealed⟩ := hnext.committed c _ hc hmem
    exact ⟨hsealed, hr.settles hok, hrevision⟩
  induction retries generalizing g with
  | zero => exact ⟨h.drawn, fun r hr => hreply h hr⟩
  | succ retries ih =>
    refine Proc.sat_bind.2 ((Proc.sat_request _).2 ⟨h.drawn, fun r hr => ?_⟩)
    split
    next problem hproblem =>
      split
      · exact ih (h.transact hr)
      · exact fun hok => hreply h hr hok
    next hok => exact fun hok => hreply h hr hok

/-- What is frozen is the proposal as it was, under an identity nothing is committed under. -/
theorem freeze_sat (hnone : s.pendingCommitId = none) :
    (Server.freeze event).Sat (Worker.watch env L) g s
      (fun g' s' _ => g'.claim = g.claim ∧ ∃ id ∈ g'.drawn,
        s'.held = { s.held with commit := some id } ∧
          ∀ c, env.parseUuid id = some c → c ∉ g'.commits.map Prod.fst) fun _ _ _ => True := by
  refine Proc.sat_state_bind.2 ?_
  rw [if_neg (by rw [hnone]; exact Bool.false_ne_true)]
  refine (Server.stageSummaries_still _).sat_bind (fun _ _ _ _ _ => trivial) fun _ g₁ s₁ hg₁ hs₁ => ?_
  refine (Server.archiveEvent_still _).sat_bind (fun _ _ _ _ _ => trivial) fun _ g₂ s₂ hg₂ hs₂ => ?_
  refine Proc.sat_bind.2 ((Proc.sat_request _).2 ⟨trivial, fun id hid => ?_⟩)
  refine ⟨hg₂.trans hg₁, id, List.mem_append_right _ (List.mem_singleton_self id), ?_, hid⟩
  rw [← hs₁, ← hs₂]
  rfl

/-- A save of a session without a proposal: what is acknowledged is sealed. -/
theorem save_sat (hnone : s.pendingCommitId = none) :
    (Server.save config event).Sat (Worker.watch env L) g s
      (fun g' s' _ => Sealed L s.revision s g g' ∧ Worker.Settles s s' ∧ s'.revision = s.revision + 1)
      fun _ _ _ => True := by
  refine (Server.liftOp_still Diagnostics.stage_held).sat_bind (fun _ _ _ _ _ => trivial)
    fun _ g₁ s₁ hg₁ hs₁ => ?_
  refine Server.stageTranscript_still.sat_bind (fun _ _ _ _ _ => trivial) fun _ g₂ s₂ hg₂ hs₂ => ?_
  have hheld : s₂.held = s.held := hs₂.trans hs₁
  have hnone₂ : s₂.pendingCommitId = none := (congrArg Holding.commit hheld).trans hnone
  refine Proc.sat_bind.2 ((freeze_sat hnone₂).mono_post fun g₃ staged _ hfrozen => ?_)
  obtain ⟨hg₃, id, hdrawn, hstaged, hfresh⟩ := hfrozen
  rw [hheld] at hstaged
  have hid : staged.id = s.id := congrArg Holding.id hstaged
  have hrevision : staged.revision = s.revision := congrArg Holding.revision hstaged
  have houtbox : staged.pendingExecutionOutbox = s.pendingExecutionOutbox :=
    congrArg Holding.outbox hstaged
  have hexecutions : staged.executions = s.executions := congrArg Holding.executions hstaged
  have hcommit : staged.pendingCommitId = some id := congrArg Holding.commit hstaged
  have htrying : Trying env L staged g₃ g₃ := by
    refine ⟨rfl, ⟨id, hdrawn, hcommit⟩, fun c n hc hmem => ?_⟩
    rw [Worker.commitId, hcommit, Option.bind_some] at hc
    exact absurd (List.mem_map_of_mem hmem) (hfresh c hc)
  have hclaim : g₃.call = g.call := congrArg Prod.fst (hg₃.trans (hg₂.trans hg₁))
  refine Proc.sat_state_bind.2 ?_
  split
  · exact trivial
  · refine Proc.sat_bind.2 ((tryCommit_sat htrying 2).mono (fun g₄ s₄ r hr => ?_)
      fun _ _ _ hfalse => hfalse.elim)
    split
    next hok =>
      obtain ⟨hsealed, hsettles, hnext⟩ := hr hok
      refine ⟨⟨hsealed.call.trans hclaim, fun hnodup x hx => ?_, fun call hcall hraises => ?_⟩,
        ⟨hsettles.id.trans hid, hsettles.executions.trans hexecutions, hsettles.outbox,
          hsettles.commit⟩, hnext.trans (congrArg (· + 1) hrevision)⟩
      · have hknown := hsealed.known (houtbox ▸ hnodup) x
          (hrevision ▸ (Annals.due_congr hid houtbox _ x).2 hx)
        rwa [hid, hrevision] at hknown
      · refine hsealed.started call (hclaim.trans (hid ▸ hcall)) ?_
        rw [Annals.raises_congr hid houtbox, hrevision]
        exact hraises
    next problem _ => exact trivial

/-! ## Callbacks -/

theorem Sealed.of_claim {n : Int} {g' g'' : Worker} (h : Sealed L n s g g')
    (hg : g''.claim = g'.claim) : Sealed L n s g g'' :=
  ⟨(congrArg Prod.fst hg).trans h.call, h.known, fun call hcall hraises =>
    (congrArg Prod.snd hg).trans (h.started call hcall hraises)⟩

theorem saveCheckpoint_sat (hnone : s.pendingCommitId = none) :
    (Server.saveCheckpoint config event).Sat (Worker.watch env L) g s
      (fun g' s' _ => Sealed L s.emitRevision s g g' ∧ s'.emitRevision = s.emitRevision + 1)
      fun _ _ _ => True := by
  have hcopy : ({ s with revision := s.emitRevision } : Session).pendingCommitId = none := hnone
  refine Program.sat_bind.2 (Program.Sat.mono (save_sat hcopy) fun g' out hout => ?_)
  obtain ⟨_ | _, s'⟩ := out
  · exact trivial
  · obtain ⟨hsealed, -, hrevision⟩ := hout
    exact ⟨⟨hsealed.call, hsealed.known, hsealed.started⟩, hrevision⟩

theorem cancelled_still (missing : Except String Bool) : Still env L (Server.cancelled missing) := by
  refine .bind .get fun s => ?_
  split
  · exact .pure _
  · exact .bind (.request rfl) fun _ => .ofExcept _

theorem decorate_calmly (event : Value) (s : Session) : Calmly env L (Server.decorate event s) :=
  .perform rfl fun _ => .ret _

theorem sendOrCancel_still (event : Value) : Still env L (Server.sendOrCancel event) := by
  refine .bind .get fun s => .bind (.lift (decorate_calmly _ _)) fun event => ?_
  refine .bind (.request rfl) fun sent => ?_
  split
  · exact .pure _
  · refine .bind ?_ fun _ => .fail _
    cases s.runId with
    | none => exact .pure _
    | some run => exact .request rfl

/-- The callback saves on top of the revision it has reached. -/
structure Tracks (env : Deployment) (L : Annals) (emit : Emit) : Prop where
  sat : ∀ event s g, s.pendingCommitId = none → (emit event s).Sat (Worker.watch env L) g
    fun g' out => out.1 = .ok () → Sealed L s.emitRevision s g g' ∧
      out.2.emitRevision = s.emitRevision + 1

/-- A callback that saves and then goes on with something else. -/
theorem tracks_of_still {rest : Value → EngineM Unit} (h : ∀ event, Still env L (rest event)) :
    Tracks env L fun event s => (Server.saveCheckpoint config event >>= fun _ => rest event) s := by
  refine ⟨fun event s g hnone => ?_⟩
  have hsat : (Server.saveCheckpoint config event >>= fun _ => rest event).Sat
      (Worker.watch env L) g s
      (fun g' s' _ => Sealed L s.emitRevision s g g' ∧ s'.emitRevision = s.emitRevision + 1)
      fun _ _ _ => True := by
    refine Proc.sat_bind.2 ((saveCheckpoint_sat hnone).mono_post fun g₁ s₁ _ hs₁ => ?_)
    refine (h event g₁.claim s₁.held g₁ s₁ ⟨rfl, rfl⟩).mono (fun g₂ s₂ _ hs₂ => ?_)
      fun _ _ _ _ => trivial
    exact ⟨hs₁.1.of_claim hs₂.1, (congrArg Holding.emitRevision hs₂.2).trans hs₁.2⟩
  refine Program.Sat.mono hsat fun g' out hout => ?_
  obtain ⟨_ | _, s'⟩ := out
  · exact fun hok => by cases hok
  · exact fun _ => hout

theorem tracks_run (config : Value) : Tracks env L (Server.emitRun config) := by
  refine tracks_of_still fun event => .bind (cancelled_still _) fun flag => ?_
  split
  · exact .fail _
  · exact .pure _

theorem tracks_stream (config : Value) : Tracks env L (Server.emitStream config) := by
  refine tracks_of_still fun event => .bind (cancelled_still _) fun flag => ?_
  split
  · exact .fail _
  · exact sendOrCancel_still _

/-! ## Checkpoints -/

/-- What the session says of its executions is so at the revision of its callback. -/
structure Current (L : Annals) (s : Session) : Prop where
  outbox : s.pendingExecutionOutbox = []
  commit : s.pendingCommitId = none
  known : ∀ x ∈ s.executions, L.Known s.id s.emitRevision x

/-- After a checkpoint the session is at the next revision, and says of its executions what it said
before. -/
structure Checkpointed (L : Annals) (g : Worker) (s : Session) (g' : Worker) (s' : Session) :
    Prop where
  closed : Sealed L s.emitRevision s g g'
  id : s'.id = s.id
  executions : s'.executions = s.executions
  outbox : s'.pendingExecutionOutbox = []
  commit : s'.pendingCommitId = none
  revision : s'.emitRevision = s.emitRevision + 1

theorem Checkpointed.current {g' : Worker} {s' : Session} (h : Checkpointed L g s g' s')
    (hnodup : (s.pendingExecutionOutbox.map Execution.executionId).Nodup)
    (hdue : ∀ x ∈ s.executions, L.Due s.emitRevision s x) : Current L s' := by
  refine ⟨h.outbox, h.commit, fun x hx => ?_⟩
  rw [h.id, h.revision]
  exact h.closed.known hnodup x (hdue x (h.executions ▸ hx))

/-- The session is not in the middle of a save. -/
def Unsaved (s : Session) : Prop := s.pendingCommitId = none

variable {emit : Emit}

theorem emit_sat (hemit : Tracks env L emit) (hnone : s.pendingCommitId = none) :
    (EngineM.emit emit event).Sat (Worker.watch env L) g s
      (fun g' s' _ => Sealed L s.emitRevision s g g' ∧
        s'.held = { s.held with emitRevision := s.emitRevision + 1 })
      fun _ s' _ => Unsaved s' := by
  refine Program.sat_bind.2 ((hemit.sat event s g hnone).mono fun g' out hout => ?_)
  cases hok : out.1 with
  | ok u =>
    obtain ⟨hsealed, hrevision⟩ := hout hok
    refine ⟨hsealed, ?_⟩
    rw [← hrevision]
    rfl
  | error problem => exact hnone

theorem acknowledgeCheckpoint_held (s : Session) : ∃ n,
    (acknowledgeCheckpoint s).held = { s.held with revision := n } := by
  unfold acknowledgeCheckpoint
  split
  · exact ⟨s.revision, rfl⟩
  next receipt _ => exact ⟨receipt.revision, rfl⟩

/-- The end of a checkpoint. -/
theorem acknowledged_sat {g' : Worker} {s' : Session} (hsealed : Sealed L s.emitRevision s g g')
    (hheld : s'.held = { s.held with emitRevision := s.emitRevision + 1 })
    (hnone : s.pendingCommitId = none) :
    (EngineM.op acknowledged).Sat (Worker.watch env L) g' s'
      (fun g' s' _ => Checkpointed L g s g' s') fun _ s' _ => Unsaved s' := by
  obtain ⟨n, hn⟩ := acknowledgeCheckpoint_held s'
  rw [hheld] at hn
  have hcommit : (acknowledgeCheckpoint s').pendingCommitId = none :=
    (congrArg Holding.commit hn).trans hnone
  refine Proc.sat_step (fun u hu => ?_) fun problem hproblem => ?_
  · unfold acknowledged at hu ⊢
    dsimp only at hu ⊢
    split_ifs at hu ⊢
    exact ⟨hsealed, congrArg Holding.id hn, congrArg Holding.executions hn, rfl, hcommit,
      congrArg Holding.emitRevision hn⟩
  · unfold acknowledged at hproblem ⊢
    dsimp only at hproblem ⊢
    split_ifs at hproblem ⊢
    exact hcommit

/-- The callback, where what came before has left alone what the checkpoint is about. -/
theorem checkpointed_sat {g₁ : Worker} {s₁ : Session} (hemit : Tracks env L emit)
    (hnone : s.pendingCommitId = none) (hg₁ : g₁.claim = g.claim) (hs₁ : s₁.held = s.held) :
    (EngineM.emit emit event >>= fun _ => EngineM.op acknowledged).Sat (Worker.watch env L) g₁ s₁
      (fun g' s' _ => Checkpointed L g s g' s') fun _ s' _ => Unsaved s' := by
  have hnone₁ : s₁.pendingCommitId = none := (congrArg Holding.commit hs₁).trans hnone
  refine Proc.sat_bind.2 ((emit_sat hemit hnone₁).mono_post fun g₂ s₂ _ hs₂ => ?_)
  refine (acknowledged_sat hs₂.1 hs₂.2 hnone₁).mono_post fun g₃ s₃ _ h => ?_
  have hid : s₁.id = s.id := congrArg Holding.id hs₁
  have houtbox : s₁.pendingExecutionOutbox = s.pendingExecutionOutbox := congrArg Holding.outbox hs₁
  have hrevision : s₁.emitRevision = s.emitRevision := congrArg Holding.emitRevision hs₁
  have hcall : g₁.call = g.call := congrArg Prod.fst hg₁
  refine ⟨⟨h.closed.call.trans hcall, fun hnodup x hx => ?_, fun call hc hraises => ?_⟩,
    h.id.trans hid, h.executions.trans (congrArg Holding.executions hs₁), h.outbox, h.commit,
    h.revision.trans (congrArg (· + 1) hrevision)⟩
  · have hknown := h.closed.known (houtbox ▸ hnodup) x
      (hrevision ▸ (Annals.due_congr hid houtbox _ x).2 hx)
    rwa [hid, hrevision] at hknown
  · refine h.closed.started call (hcall.trans (hid ▸ hc)) ?_
    rw [Annals.raises_congr hid houtbox, hrevision]
    exact hraises

theorem sealOutcome_held (now : String) (s : Session) : (sealOutcome now s).held = s.held := by
  unfold sealOutcome
  split_ifs <;> rfl

theorem endBlocked_held (now : String) (s : Session) : (Actions.endBlocked now s).held = s.held := by
  unfold Actions.endBlocked
  split_ifs <;> rfl

/-- A checkpoint of the engine. -/
theorem checkpoint_sat (hemit : Tracks env L emit) (hnone : s.pendingCommitId = none) :
    (checkpoint emit event).Sat (Worker.watch env L) g s
      (fun g' s' _ => Checkpointed L g s g' s') fun _ s' _ => Unsaved s' := by
  have herr : ∀ (g' : Worker) (s' : Session) (problem : String), g'.claim = g.claim →
      s'.held = s.held → Unsaved s' := fun _ _ _ _ hs => (congrArg Holding.commit hs).trans hnone
  have hnow : Still env L EngineM.now := .request rfl
  refine hnow.sat_bind herr fun now g₁ s₁ hg₁ hs₁ => Proc.sat_update_bind.2 ?_
  have hs₂ : (sealOutcome now s₁).held = s.held := (sealOutcome_held now s₁).trans hs₁
  have hstage : Still env L (EngineM.op Diagnostics.stage) := .op Diagnostics.stage_held
  refine hstage.sat_bind (fun g' s' x hg hs => herr g' s' x (hg.trans hg₁) (hs.trans hs₂))
    fun _ g₃ s₃ hg₃ hs₃ => ?_
  exact checkpointed_sat hemit hnone (hg₃.trans hg₁) (hs₃.trans hs₂)

/-- A checkpoint of the actions. -/
theorem actionsCheckpoint_sat (hemit : Tracks env L emit) (hnone : s.pendingCommitId = none) :
    (Actions.checkpoint emit event).Sat (Worker.watch env L) g s
      (fun g' s' _ => Checkpointed L g s g' s') fun _ s' _ => Unsaved s' := by
  have hnow : Still env L EngineM.now := .request rfl
  refine hnow.sat_bind (fun _ _ _ _ hs => (congrArg Holding.commit hs).trans hnone)
    fun now g₁ s₁ hg₁ hs₁ => Proc.sat_update_bind.2 ?_
  exact checkpointed_sat hemit hnone hg₁ ((endBlocked_held now s₁).trans hs₁)

/-! ## Staging executions -/

/-- The next checkpoint leaves the session current. -/
structure Poised (L : Annals) (s : Session) : Prop where
  commit : s.pendingCommitId = none
  nodup : (s.pendingExecutionOutbox.map Execution.executionId).Nodup
  due : ∀ x ∈ s.executions, L.Due s.emitRevision s x

theorem Current.of_held {s' : Session} (h : Current L s) (hs : s'.held = s.held) : Current L s' := by
  have hid : s'.id = s.id := congrArg Holding.id hs
  have hrevision : s'.emitRevision = s.emitRevision := congrArg Holding.emitRevision hs
  have hexecutions : s'.executions = s.executions := congrArg Holding.executions hs
  refine ⟨(congrArg Holding.outbox hs).trans h.outbox, (congrArg Holding.commit hs).trans h.commit,
    fun x hx => ?_⟩
  rw [hid, hrevision]
  exact h.known x (hexecutions ▸ hx)

theorem Current.poised (h : Current L s) : Poised L s := by
  refine ⟨h.commit, ?_, fun x hx => .inr ⟨h.known x hx, ?_⟩⟩
  · rw [h.outbox]
    exact List.nodup_nil
  · rw [h.outbox]
    exact List.not_mem_nil

theorem Poised.of_held {s' : Session} (h : Poised L s) (hs : s'.held = s.held) : Poised L s' := by
  have hid : s'.id = s.id := congrArg Holding.id hs
  have hrevision : s'.emitRevision = s.emitRevision := congrArg Holding.emitRevision hs
  have hexecutions : s'.executions = s.executions := congrArg Holding.executions hs
  have houtbox : s'.pendingExecutionOutbox = s.pendingExecutionOutbox := congrArg Holding.outbox hs
  refine ⟨(congrArg Holding.commit hs).trans h.commit, houtbox ▸ h.nodup, fun x hx => ?_⟩
  rw [hrevision, Annals.due_congr hid houtbox]
  exact h.due x (hexecutions ▸ hx)

/-- What is staged is among the executions, and what was said of the others is said of them still. -/
theorem mem_stage {x y : Execution} (h : y ∈ (Actions.stage x s).executions) :
    y = x ∨ y ∈ s.executions ∧ y.executionId ≠ x.executionId := by
  unfold Actions.stage at h
  dsimp only at h
  split at h
  · obtain ⟨z, hz, rfl⟩ := List.mem_map.1 h
    split
    · exact .inl rfl
    next hne => exact .inr ⟨hz, hne⟩
  next hnone =>
    rcases List.mem_append.1 h with hy | hy
    · refine .inr ⟨hy, fun heq => hnone ?_⟩
      exact List.any_eq_true.2 ⟨y, hy, decide_eq_true heq⟩
    · exact .inl (List.mem_singleton.1 hy)

theorem self_mem_stage (x : Execution) (s : Session) : x ∈ (Actions.stage x s).executions := by
  unfold Actions.stage
  dsimp only
  split
  next h =>
    obtain ⟨y, hy, heq⟩ := List.any_eq_true.1 h
    exact List.mem_map.2 ⟨y, hy, if_pos (of_decide_eq_true heq)⟩
  · exact List.mem_append_right _ (List.mem_singleton_self x)

theorem Poised.stage (h : Poised L s) (x : Execution) : Poised L (Actions.stage x s) := by
  have houtbox : (Actions.stage x s).pendingExecutionOutbox =
      (s.pendingExecutionOutbox.filter fun v => v.executionId ≠ x.executionId) ++ [x] := rfl
  refine ⟨h.commit, ?_, fun y hy => ?_⟩
  · rw [houtbox, List.map_append, List.map_singleton]
    refine List.concat_eq_append ▸ List.Nodup.concat (fun hmem => ?_)
      (h.nodup.sublist (List.filter_sublist.map _))
    obtain ⟨v, hv, heq⟩ := List.mem_map.1 hmem
    exact of_decide_eq_true (List.mem_filter.1 hv).2 heq
  · unfold Annals.Due
    rw [houtbox]
    rcases mem_stage hy with rfl | ⟨hold, hne⟩
    · exact .inl (List.mem_append_right _ (List.mem_singleton_self y))
    · rcases h.due y hold with hout | ⟨hknown, hnot⟩
      · exact .inl (List.mem_append_left _ (List.mem_filter.2 ⟨hout, decide_eq_true hne⟩))
      · refine .inr ⟨hknown, fun hmem => ?_⟩
        rw [List.map_append, List.map_singleton] at hmem
        rcases List.mem_append.1 hmem with hmem | hmem
        · exact hnot ((List.filter_sublist.map _).subset hmem)
        · exact hne (List.mem_singleton.1 hmem)

/-- A dispatch is counted on top of what is known. -/
theorem Current.raises (h : Current L s) {x x' : Execution} (hx : x ∈ s.executions)
    (hid : x'.executionId = x.executionId) (hcall : x'.callId = x.callId)
    (hmore : x.attempts < x'.attempts) :
    L.raises s.emitRevision (Actions.stage x' s) x.callId = true := by
  have houtbox : (Actions.stage x' s).pendingExecutionOutbox = [x'] := by
    change (s.pendingExecutionOutbox.filter fun v => v.executionId ≠ x'.executionId) ++ [x'] = [x']
    rw [h.outbox]
    rfl
  obtain ⟨r, hr, hkey, hrow, hattempts⟩ := h.known x hx
  have hany : (L s.id s.emitRevision).any (fun r => executionKey r = x'.executionId &&
      r.call = x.callId && decide (r.execution.attempts < x'.attempts)) = true := by
    refine List.any_eq_true.2 ⟨r, hr, ?_⟩
    rw [hid, hkey, hrow, hattempts]
    simp [hmore]
  unfold Annals.raises
  rw [houtbox]
  simp only [List.map_cons, List.map_nil, List.nodup_singleton, decide_true, List.any_cons,
    List.any_nil, hcall, Bool.or_false, Bool.true_and]
  exact hany

/-! ## A dispatch -/

/-- Between two checkpoints of a dispatch. -/
structure At (L : Annals) (k : Option (String × String)) (id : String) (xs : List Execution)
    (g : Worker) (s : Session) : Prop where
  call : g.call = k
  id : s.id = id
  executions : s.executions = xs
  current : Current L s

theorem At.of_still {k : Option (String × String)} {id : String} {xs : List Execution}
    (h : At L k id xs g s) {g' : Worker} {s' : Session} (hg : g'.claim = g.claim)
    (hs : s'.held = s.held) : At L k id xs g' s' :=
  ⟨(congrArg Prod.fst hg).trans h.call, (congrArg Holding.id hs).trans h.id,
    (congrArg Holding.executions hs).trans h.executions, h.current.of_held hs⟩

/-- The next checkpoint of a dispatch leaves the session current. -/
structure Opens (L : Annals) (k : Option (String × String)) (id : String) (g : Worker) (s : Session) :
    Prop where
  call : g.call = k
  id : s.id = id
  poised : Poised L s

theorem At.opens {k : Option (String × String)} {id : String} {xs : List Execution}
    (h : At L k id xs g s) : Opens L k id g s := ⟨h.call, h.id, h.current.poised⟩

theorem Opens.of_still {k : Option (String × String)} {id : String} (h : Opens L k id g s)
    {g' : Worker} {s' : Session} (hg : g'.claim = g.claim) (hs : s'.held = s.held) :
    Opens L k id g' s' :=
  ⟨(congrArg Prod.fst hg).trans h.call, (congrArg Holding.id hs).trans h.id, h.poised.of_held hs⟩

theorem Opens.stage {k : Option (String × String)} {id : String} (h : Opens L k id g s)
    (x : Execution) : Opens L k id g (Actions.stage x s) := ⟨h.call, h.id, h.poised.stage x⟩

theorem Opens.closed {k : Option (String × String)} {id : String} (h : Opens L k id g s)
    {g' : Worker} {s' : Session} (hc : Checkpointed L g s g' s') : At L k id s.executions g' s' :=
  ⟨hc.closed.call.trans h.call, hc.id.trans h.id, hc.executions,
    hc.current h.poised.nodup h.poised.due⟩

/-- The program keeps the session current, and leaves it unsaved if it fails. -/
def Checks (env : Deployment) (L : Annals) {α : Type} (f : EngineM α) : Prop :=
  ∀ k id xs, Proc.Leads (Worker.watch env L) (At L k id xs) (fun _ s => Unsaved s) f

section rules

variable {α β : Type} {f : EngineM α} {k : α → EngineM β}

theorem Still.checks (hf : Still env L f) : Checks env L f := fun _ _ _ g s h =>
  (hf g.claim s.held g s ⟨rfl, rfl⟩).mono (fun _ _ _ h' => h.of_still h'.1 h'.2)
    fun _ _ _ h' => (congrArg Holding.commit h'.2).trans h.current.commit

theorem Checks.bind (hf : Checks env L f) (hk : ∀ a, Checks env L (k a)) : Checks env L (f >>= k) :=
  fun c id xs => Proc.leads_bind (hf c id xs) fun a => hk a c id xs

/-- A step that leaves things alone, between two checkpoints. -/
theorem Still.followed (hf : Still env L f) (hnone : s.pendingCommitId = none)
    {post : Worker → Session → β → Prop}
    (hk : ∀ a g' s', g'.claim = g.claim → s'.held = s.held →
      (k a).Sat (Worker.watch env L) g' s' post fun _ s _ => Unsaved s) :
    (f >>= k).Sat (Worker.watch env L) g s post fun _ s _ => Unsaved s :=
  hf.sat_bind (fun _ _ _ _ hs => (congrArg Holding.commit hs).trans hnone) hk

end rules

theorem checkpoint_checks (hemit : Tracks env L emit) (event : Value) :
    Checks env L (checkpoint emit event) := by
  intro k id xs g s h
  refine (checkpoint_sat hemit h.current.commit).mono_post fun g' s' _ h' => ?_
  exact h.executions ▸ h.opens.closed h'

theorem actionsCheckpoint_checks (hemit : Tracks env L emit) (event : Value) :
    Checks env L (Actions.checkpoint emit event) := by
  intro k id xs g s h
  refine (actionsCheckpoint_sat hemit h.current.commit).mono_post fun g' s' _ h' => ?_
  exact h.executions ▸ h.opens.closed h'

section dispatch

variable {e : Engine} {k : Option (String × String)} {id : String} {xs : List Execution}
  {x : Execution} {command : Option String} {deployment call tool : String}

/-- The checkpoint of what is staged. -/
theorem Opens.checkpoint_bind {α : Type} (h : Opens L k id g s) (hemit : Tracks env L emit)
    {rest : EngineM α} {post : Worker → Session → α → Prop}
    (hrest : ∀ g' s', At L k id s.executions g' s' → Checkpointed L g s g' s' →
      rest.Sat (Worker.watch env L) g' s' post fun _ s _ => Unsaved s) :
    (Actions.checkpoint emit event >>= fun _ => rest).Sat (Worker.watch env L) g s post
      fun _ s _ => Unsaved s :=
  Proc.sat_bind.2 ((actionsCheckpoint_sat hemit h.poised.commit).mono_post
    fun g' s' _ hc => hrest g' s' (h.closed hc) hc)

theorem newExecution_call {a : Value} (h : Actions.newExecution e s deployment id call tool a = .ok x) :
    x.callId = call := by
  unfold Actions.newExecution at h
  obtain ⟨_, -, h⟩ := bind_ok h
  obtain ⟨_, -, h⟩ := bind_ok h
  cases h
  rfl

/-- The execution of a call is known after it has been found or created. -/
theorem executionOf_sat (hemit : Tracks env L emit) (h : At L k id xs g s) (a : Value) :
    (Actions.executionOf e emit deployment call tool a).Sat (Worker.watch env L) g s
      (fun g' s' x => ∃ ys, At L k id ys g' s' ∧ x ∈ ys ∧ x.callId = call)
      fun _ s _ => Unsaved s := by
  refine Proc.sat_state_bind.2 ?_
  split
  next x hfind =>
    have hcall := List.find?_some hfind
    exact ⟨xs, h, h.executions ▸ List.mem_of_find?_eq_some hfind, of_decide_eq_true hcall⟩
  · have huuid : Still env L EngineM.uuid := .request rfl
    refine huuid.followed h.current.commit fun uuid g₁ s₁ hg₁ hs₁ => ?_
    have hopens := h.opens.of_still hg₁ hs₁
    refine Proc.sat_bind.2 ?_
    cases hx : Actions.newExecution e s deployment uuid call tool a with
    | error problem => exact hopens.poised.commit
    | ok x =>
      have hstaged := hopens.stage x
      have haudit : Still env L (Actions.audit "tool_intent" x.toValue) := archiveRecord_still _ _
      refine Proc.sat_update_bind.2 ?_
      refine haudit.followed hstaged.poised.commit fun _ g₂ s₂ hg₂ hs₂ => ?_
      refine (hstaged.of_still hg₂ hs₂).checkpoint_bind hemit fun g₃ s₃ hat _ => ?_
      refine ⟨_, hat, ?_, newExecution_call hx⟩
      rw [show s₂.executions = _ from congrArg Holding.executions hs₂]
      exact self_mem_stage x s₁

theorem settleStarted_still (records : List Attempt) : Still env L (Actions.settleStarted records) := by
  induction records with
  | nil => exact .pure _
  | cons a rest ih =>
    refine .bind (.request rfl) fun now => .bind (.modify fun _ => rfl) fun _ => ?_
    exact .bind (archiveRecord_still _ _) fun _ => ih

theorem commitSettled_checks (hemit : Tracks env L emit) :
    Checks env L (Actions.commitSettled emit) := by
  refine .bind Still.get.checks fun s => ?_
  split
  · exact (Still.pure _).checks
  · exact actionsCheckpoint_checks hemit _

theorem stageAttempt_still (a : Attempt) (kind : String) : Still env L (Actions.stageAttempt a kind) :=
  .bind (.modify fun _ => rfl) fun _ => archiveRecord_still _ _

theorem recoverOutcome_sat (hemit : Tracks env L emit) (h : At L k id xs g s) (host : Host)
    (a : Attempt) (now : String) (result : Value) :
    (Actions.recoverOutcome host emit x a now result).Sat (Worker.watch env L) g s
      (fun g' s' _ => ∃ ys, At L k id ys g' s') fun _ s _ => Unsaved s := by
  refine Proc.sat_bind.2 ?_
  cases Identity.canonical host result with
  | error problem => exact h.current.commit
  | ok result =>
    refine (stageAttempt_still _ _).followed h.current.commit fun _ g₁ s₁ hg₁ hs₁ => ?_
    refine Proc.sat_update_bind.2 ?_
    exact ((h.opens.of_still hg₁ hs₁).stage _).checkpoint_bind hemit fun g₂ s₂ hat _ => ⟨_, hat⟩

/-- Where the recipient proves nothing, the executions are as they were. -/
theorem verifyReceipt_sat (hemit : Tracks env L emit) (h : At L k id xs g s) (host : Host)
    (ordinal : Int) :
    (Actions.verifyReceipt host emit x command deployment ordinal).Sat (Worker.watch env L) g s
      (fun g' s' out => ∃ ys, At L k id ys g' s' ∧ (out = none → ys = xs)) fun _ s _ => Unsaved s := by
  refine Proc.sat_state_bind.2 ?_
  have huuid : Still env L EngineM.uuid := .request rfl
  have hnow : Still env L EngineM.now := .request rfl
  refine huuid.followed h.current.commit fun uuid g₁ s₁ hg₁ hs₁ => ?_
  have h₁ := h.of_still hg₁ hs₁
  refine hnow.followed h₁.current.commit fun now g₂ s₂ hg₂ hs₂ => ?_
  have h₂ := h₁.of_still hg₂ hs₂
  refine (stageAttempt_still _ _).followed h₂.current.commit fun _ g₃ s₃ hg₃ hs₃ => ?_
  have h₃ := h₂.of_still hg₃ hs₃
  refine h₃.opens.checkpoint_bind hemit fun g₄ s₄ h₄ _ => ?_
  rw [h₃.executions] at h₄
  have hreceipt : Still env L (Proc.request (Eff.receipt deployment x.idempotencyKey) :
      EngineM (Option (String × Value))) := .request rfl
  refine hreceipt.followed h₄.current.commit fun receipt g₅ s₅ hg₅ hs₅ => ?_
  have h₅ := h₄.of_still hg₅ hs₅
  refine hnow.followed h₅.current.commit fun now' g₆ s₆ hg₆ hs₆ => ?_
  have h₆ := h₅.of_still hg₆ hs₆
  split
  · refine Proc.sat_bind.2 ((recoverOutcome_sat hemit h₆ _ _ _ _).mono_post fun g₇ s₇ out h₇ => ?_)
    obtain ⟨ys, h₇⟩ := h₇
    exact ⟨ys, h₇, fun hnone => by cases hnone⟩
  · refine (stageAttempt_still _ _).followed h₆.current.commit fun _ g₇ s₇ hg₇ hs₇ => ?_
    have h₇ := h₆.of_still hg₇ hs₇
    exact h₇.opens.checkpoint_bind hemit fun g₈ s₈ h₈ _ => ⟨_, h₈, fun _ => h₇.executions⟩

theorem requireRecovery_sat (hemit : Tracks env L emit) (h : At L k id xs g s)
    {post : Worker → Session → String → Prop} :
    (Actions.requireRecovery emit x).Sat (Worker.watch env L) g s post fun _ s _ => Unsaved s := by
  refine Proc.sat_state_bind.2 ?_
  have hmark : Still env L (EngineM.mark (.blocking s)) := .request rfl
  refine hmark.followed h.current.commit fun _ g₁ s₁ hg₁ hs₁ => Proc.sat_update_bind.2 ?_
  have h₁ := h.of_still hg₁ hs₁
  have hblocked : At L k id xs g₁
      (Actions.blockSession "Safe recovery requires operator resolution" s₁) := h₁.of_still rfl rfl
  refine Proc.sat_update_bind.2 ?_
  have hstaged := hblocked.opens.stage { x with status := .blocked }
  have haudit : Still env L (Actions.audit "tool_recovery_required"
      { x with status := .blocked }.toValue) := archiveRecord_still _ _
  refine haudit.followed hstaged.poised.commit fun _ g₂ s₂ hg₂ hs₂ => ?_
  exact (hstaged.of_still hg₂ hs₂).checkpoint_bind hemit fun g₃ s₃ hat _ => hat.current.commit

theorem settleOutput_sat (hemit : Tracks env L emit) (h : At L k id xs g s) (a : Attempt)
    (now result : String) :
    (Actions.settleOutput emit x a now result).Sat (Worker.watch env L) g s
      (fun g' s' _ => ∃ ys, At L k id ys g' s') fun _ s _ => Unsaved s := by
  refine (stageAttempt_still _ _).followed h.current.commit fun _ g₁ s₁ hg₁ hs₁ => ?_
  refine Proc.sat_update_bind.2 ?_
  have hstaged := (h.opens.of_still hg₁ hs₁).stage { x with
    status := if Engine.failed result then ExecutionStatus.failed else .succeeded
    result := some result, finishedAt := some now }
  refine Still.followed (archiveRecord_still _ _) hstaged.poised.commit fun _ g₂ s₂ hg₂ hs₂ => ?_
  exact (hstaged.of_still hg₂ hs₂).checkpoint_bind hemit fun g₃ s₃ hat _ => ⟨_, hat⟩

theorem settleUncertain_sat (hemit : Tracks env L emit) (h : At L k id xs g s) (a : Attempt)
    (now problem : String) {post : Worker → Session → String → Prop} :
    (Actions.settleUncertain emit x a now problem).Sat (Worker.watch env L) g s post
      fun _ s _ => Unsaved s := by
  refine Proc.sat_state_bind.2 ?_
  have hmark : Still env L (EngineM.mark (.blocking s)) := .request rfl
  refine hmark.followed h.current.commit fun _ g₁ s₁ hg₁ hs₁ => Proc.sat_update_bind.2 ?_
  have h₁ := h.of_still hg₁ hs₁
  have hblocked : At L k id xs g₁ (Actions.blockSession "Action outcome is uncertain" s₁) :=
    h₁.of_still rfl rfl
  refine (stageAttempt_still _ _).followed hblocked.current.commit fun _ g₂ s₂ hg₂ hs₂ => ?_
  refine Proc.sat_update_bind.2 ?_
  have hstaged := (hblocked.opens.of_still hg₂ hs₂).stage { x with status := .uncertain }
  exact hstaged.checkpoint_bind hemit fun g₃ s₃ hat _ => hat.current.commit

/-- An invocation makes the dispatch that is committed. -/
theorem invoke_sat (h : At L k id xs g s) (hstarted : g.started = true)
    (a : List (String × Value)) :
    (Actions.invoke deployment tool x a).Sat (Worker.watch env L) g s
      (fun g' s' _ => At L k id xs g' s') fun _ s _ => Unsaved s := by
  unfold Actions.invoke
  split
  · exact ⟨hstarted, fun r _ => ⟨h.call, h.id, h.executions, h.current⟩⟩
  · exact ⟨hstarted, fun r _ => ⟨h.call, h.id, h.executions, h.current⟩⟩

/-- An attempt: it is made where its dispatch has been committed. -/
theorem attempt_sat (hemit : Tracks env L emit) (h : At L (some (id, x.callId)) id xs g s)
    (hx : x ∈ xs) (a : List (String × Value)) (ordinal : Int) :
    (Actions.attempt emit x command deployment tool a ordinal).Sat (Worker.watch env L) g s
      (fun g' s' _ => ∃ ys, At L (some (id, x.callId)) id ys g' s') fun _ s _ => Unsaved s := by
  refine Proc.sat_state_bind.2 ?_
  have huuid : Still env L EngineM.uuid := .request rfl
  have hnow : Still env L EngineM.now := .request rfl
  refine hnow.followed h.current.commit fun now g₁ s₁ hg₁ hs₁ => ?_
  have h₁ := h.of_still hg₁ hs₁
  refine huuid.followed h₁.current.commit fun uuid g₂ s₂ hg₂ hs₂ => ?_
  have h₂ := h₁.of_still hg₂ hs₂
  refine Proc.sat_update_bind.2 ?_
  -- the attempt is put in front of the commit, and the execution counts it
  let started : Execution := { x with
    status := .started, attempts := x.attempts + 1, startedAt := x.startedAt <|> some (some now) }
  let noted : Session := { s₂ with
    attemptsPending := s₂.attemptsPending ++
      [Actions.newAttempt s x command uuid now (ordinal + 1) .dispatch] }
  have hnoted : At L (some (id, x.callId)) id xs g₂ noted := h₂.of_still rfl rfl
  have hraises : L.raises noted.emitRevision (Actions.stage started noted) x.callId = true :=
    hnoted.current.raises (hnoted.executions ▸ hx) rfl rfl (Int.lt_succ x.attempts)
  have hstaged := hnoted.opens.stage started
  refine Still.followed (archiveRecord_still _ _) hstaged.poised.commit fun _ g₃ s₃ hg₃ hs₃ => ?_
  have hopens := hstaged.of_still hg₃ hs₃
  refine hopens.checkpoint_bind hemit fun g₄ s₄ h₄ hc => ?_
  have hclaimed : g₄.started = true := by
    refine hc.closed.started x.callId (hopens.call.trans (by rw [hopens.id])) ?_
    rw [Annals.raises_congr (congrArg Holding.id hs₃) (congrArg Holding.outbox hs₃),
      show s₃.emitRevision = _ from congrArg Holding.emitRevision hs₃]
    exact hraises
  refine Proc.sat_bind.2 ((invoke_sat h₄ hclaimed a).mono_post fun g₅ s₅ output h₅ => ?_)
  refine hnow.followed h₅.current.commit fun now' g₆ s₆ hg₆ hs₆ => ?_
  have h₆ := h₅.of_still hg₆ hs₆
  cases output with
  | ok result => exact settleOutput_sat hemit h₆ _ _ _
  | error problem => exact settleUncertain_sat hemit h₆ _ _ _

theorem resolve_sat (hemit : Tracks env L emit) (h : At L (some (id, x.callId)) id xs g s)
    (hx : x ∈ xs) (a : List (String × Value)) :
    (Actions.resolve e emit x command deployment tool a).Sat (Worker.watch env L) g s
      (fun g' s' _ => ∃ ys, At L (some (id, x.callId)) id ys g' s') fun _ s _ => Unsaved s := by
  refine (settleStarted_still _).followed h.current.commit fun _ g₁ s₁ hg₁ hs₁ => ?_
  refine Proc.sat_bind.2 ((commitSettled_checks hemit _ _ _ g₁ s₁ (h.of_still hg₁ hs₁)).mono_post
    fun g₂ s₂ _ h₂ => ?_)
  have hverified : (Actions.verifiedOutcome e emit x command deployment tool).Sat (Worker.watch env L)
      g₂ s₂ (fun g' s' out => ∃ ys, At L (some (id, x.callId)) id ys g' s' ∧ (out = none → ys = xs))
      fun _ s _ => Unsaved s := by
    unfold Actions.verifiedOutcome
    split
    · exact verifyReceipt_sat hemit h₂ _ _
    · exact ⟨xs, h₂, fun _ => rfl⟩
  refine Proc.sat_bind.2 (hverified.mono_post fun g₃ s₃ out h₃ => ?_)
  obtain ⟨ys, h₃, hsame⟩ := h₃
  cases out with
  | some result => exact ⟨ys, h₃⟩
  | none =>
    obtain rfl := hsame rfl
    dsimp only
    unfold Actions.attemptOrBlock
    split
    · exact requireRecovery_sat hemit h₃
    · split
      · exact h₃.current.commit
      · split
        · exact h₃.current.commit
        · exact attempt_sat hemit h₃ hx _ _

/-- A dispatch of the call it is about. -/
theorem dispatch_sat (hemit : Tracks env L emit) (h : At L (some (id, call)) id xs g s)
    (a : List (String × Value)) :
    (Actions.dispatch e emit call tool a).Sat (Worker.watch env L) g s
      (fun _ s' _ => Current L s') fun _ s _ => Unsaved s := by
  refine Proc.sat_state_bind.2 ?_
  refine Proc.sat_bind.2 ((executionOf_sat hemit h _).mono_post fun g₁ s₁ x h₁ => ?_)
  obtain ⟨ys, hat, hx, rfl⟩ := h₁
  refine Proc.sat_bind.2 ?_
  cases Actions.checkFrozen e.host s.id x (s.command.elim "regression" Command.namespaceId) tool
      (.obj a) with
  | error problem => exact hat.current.commit
  | ok u =>
    change Proc.Sat _ (if x.status.terminal then _ else _) _ _ _ _
    split
    · cases x.result with
      | none => exact hat.current.commit
      | some result => exact hat.current
    · exact (resolve_sat hemit hat hx a).mono_post fun g₂ s₂ _ h₂ => h₂.elim fun _ h => h.current

end dispatch

/-! ## The run -/

/-- The program keeps the session current, and leaves it unsaved if it fails. -/
structure Serves (env : Deployment) (L : Annals) {α : Type} (f : EngineM α) : Prop where
  leads : Proc.Leads (Worker.watch env L) (fun _ s => Current L s) (fun _ s => Unsaved s) f

theorem Checks.serves {α : Type} {f : EngineM α} (hf : Checks env L f) : Serves env L f :=
  ⟨fun g s h => (hf g.call s.id s.executions g s ⟨rfl, rfl, rfl, h⟩).mono_post
    fun _ _ _ h' => h'.current⟩

theorem Still.serves {α : Type} {f : EngineM α} (hf : Still env L f) : Serves env L f :=
  hf.checks.serves

theorem Serves.bind {α β : Type} {f : EngineM α} {k : α → EngineM β} (hf : Serves env L f)
    (hk : ∀ a, Serves env L (k a)) : Serves env L (f >>= k) :=
  ⟨Proc.leads_bind hf.leads fun a => (hk a).leads⟩

/-- A step that leaves things alone, before others. -/
theorem Still.before {α β : Type} {f : EngineM α} {k : α → EngineM β} (hf : Still env L f)
    (hk : ∀ a, Serves env L (k a)) : Serves env L (f >>= k) := hf.serves.bind hk

theorem Serves.pure {α : Type} (a : α) : Serves env L (Pure.pure a : EngineM α) :=
  (Still.pure a).serves

namespace Engine

variable {e : Engine}

section run

variable (hemit : Tracks env L emit)

include hemit

theorem checkpoint_serves (event : Value) : Serves env L (checkpoint emit event) :=
  (checkpoint_checks hemit event).serves

theorem reportInvalidLimit_serves (reached : Bool) :
    Serves env L (reportInvalidLimit emit reached) := by
  unfold reportInvalidLimit
  split
  · exact Still.get.before fun s => checkpoint_serves hemit _
  · exact .pure _

theorem warnProgress_serves (guidance : String) (limit : Nat) :
    Serves env L (warnProgress emit guidance limit) := by
  refine Still.get.before fun s => ?_
  split
  · exact (appendMessage_still _).before fun _ => checkpoint_serves hemit _
  · exact .pure _

theorem limitProgress_serves (guidance : String) (limit : Nat) :
    Serves env L (limitProgress emit guidance limit) := by
  refine Still.get.before fun s => ?_
  split
  · exact Still.before (.modify fun _ => rfl) fun _ => checkpoint_serves hemit _
  · exact .pure _

theorem stalled_serves : Serves env L (e.stalled emit) := by
  refine Still.before (.modify fun _ => rfl) fun _ => Still.get.before fun s => ?_
  split
  · exact .pure _
  · exact (warnProgress_serves hemit _ _).bind fun _ => limitProgress_serves hemit _ _

theorem observeProgress_serves (before : String) : Serves env L (e.observeProgress emit before) := by
  refine Still.get.before fun s => Still.before (.request rfl) fun _ => ?_
  refine Still.before (.modify fun _ => rfl) fun _ => ?_
  split
  · exact Still.serves (.modify fun _ => rfl)
  · exact stalled_serves hemit

omit hemit in
theorem applyOutput_held (id name : String) (a : List (String × Value)) (output : String)
    (s : Session) : (e.applyOutput id name a output s).held = s.held := by
  have hrecord : ∀ s : Session, (e.record s name a output).held = s.held := fun _ => rfl
  have hcapture : (e.captureArtifacts s id name a output).held = s.held := rfl
  have hprogress : ∀ s : Session, (e.recordProgressOutput s name a output).held = s.held :=
    fun _ => rfl
  rw [applyOutput, hrecord]
  cases (e.captureArtifacts s id name a output).workflow.isNone && !failed output with
  | true => exact (hprogress _).trans hcapture
  | false => exact hcapture

/-- The execution of a call: its dispatch is the one that is marked. -/
theorem execute_serves (phase : Option String) (call : Value) (c : Scheduled) :
    Serves env L (e.execute emit phase call c) := by
  refine ⟨fun g s h => Proc.sat_state_bind.2 ?_⟩
  split
  · refine Proc.sat_bind.2 ((Proc.sat_request _).2 ⟨trivial, fun _ _ => ?_⟩)
    have hat : At L (some (s.id, c.id)) s.id s.executions
        ((Worker.watch env L).next g (.mark (.dispatch s call c.id c.name c.args)) ()) s :=
      ⟨rfl, rfl, rfl, h⟩
    refine Proc.sat_bind.2 ((dispatch_sat hemit hat _).mono_post fun g₁ s₁ output h₁ => ?_)
    have hrest : Serves env L (EngineM.get >>= fun s => EngineM.mark (.executed s c.name c.args output)
        >>= fun _ => EngineM.modify (e.applyOutput c.id c.name c.args output) >>= fun _ =>
          (Pure.pure (output, true) : EngineM (String × Bool))) :=
      Still.get.before fun s => Still.before (.request rfl) fun _ =>
        Still.before (.modify fun s => applyOutput_held _ _ _ _ s) fun _ => .pure _
    exact hrest.leads g₁ s₁ h₁
  · exact h

theorem settleCall_serves (phase : Option String) (call : Value) :
    Serves env L (e.settleCall emit phase call) := by
  refine Still.get.before fun s => ?_
  refine Serves.bind ?_ fun out => ?_
  · cases e.actionRejection s phase (readScheduled call).name (readScheduled call).args
        (readScheduled call).error with
    | some reason => exact .pure _
    | none => exact execute_serves hemit _ _ _
  · refine (appendMessage_still _).before fun _ => Still.before (.modify fun _ => rfl) fun _ => ?_
    exact (checkpoint_serves hemit _).bind fun _ => .pure _

theorem settleCalls_serves (phase : Option String) (calls : List Value) (rejected : Bool) :
    Serves env L (e.settleCalls emit phase calls rejected) := by
  induction calls generalizing rejected with
  | nil => exact .pure _
  | cons call calls ih => exact (settleCall_serves hemit _ _).bind fun r => ih _

omit hemit in
theorem incrementInvalid_still : Still env L e.incrementInvalid := by
  refine .swap fun s => ?_
  dsimp only
  split_ifs <;> rfl

theorem rejectBatch_serves (phase : Option String) : Serves env L (e.rejectBatch emit phase) := by
  refine Still.get.before fun s => incrementInvalid_still.before fun reached => ?_
  refine Still.get.before fun s => (checkpoint_serves hemit _).bind fun _ => ?_
  exact reportInvalidLimit_serves hemit _

theorem settlePending_serves : Serves env L (e.settlePending emit) := by
  refine Still.get.before fun s => (settleCalls_serves hemit _ _ _).bind fun rejected => ?_
  split
  · exact rejectBatch_serves hemit _
  · exact Still.serves (.modify fun _ => rfl)

theorem actInvalid_serves (before code content : String) :
    Serves env L (e.actInvalid emit before code content) := by
  refine incrementInvalid_still.before fun reached => (appendMessage_still _).before fun _ => ?_
  refine Still.get.before fun s => (checkpoint_serves hemit _).bind fun _ => ?_
  exact (reportInvalidLimit_serves hemit _).bind fun _ => observeProgress_serves hemit _

theorem rejectAnswer_serves (before answer : String) (errors : List String) :
    Serves env L (e.rejectAnswer emit before answer errors) := by
  refine Still.get.before fun s => (appendMessage_still _).before fun _ => ?_
  refine (appendMessage_still _).before fun _ => (checkpoint_serves hemit _).bind fun _ => ?_
  refine incrementInvalid_still.before fun reached => ?_
  exact (reportInvalidLimit_serves hemit _).bind fun _ => observeProgress_serves hemit _

theorem acceptAnswer_serves (answer : String) : Serves env L (acceptAnswer emit answer) := by
  refine Still.before (.modify fun _ => rfl) fun _ => (appendMessage_still _).before fun _ => ?_
  exact Still.before (.modify fun _ => rfl) fun _ => checkpoint_serves hemit _

theorem actFinal_serves (before answer : String) : Serves env L (e.actFinal emit before answer) := by
  refine Still.get.before fun s => ?_
  dsimp only
  split
  · exact rejectAnswer_serves hemit _ _ _
  · split
    · exact acceptAnswer_serves hemit _
    · exact .pure _

omit hemit in
theorem renewIds_still (historical : List String) (calls : List Call) (taken : List String) :
    Still env L (renewIds historical calls taken) := by
  induction calls generalizing taken with
  | nil => exact .pure _
  | cons call calls ih =>
    rw [renewIds]
    split
    · exact .bind (.request rfl) fun id => .bind (ih _) fun _ => .pure _
    · exact .bind (ih _) fun _ => .pure _

theorem actTools_serves (before : String) (content : Option String) (calls : List Call) :
    Serves env L (e.actTools emit before content calls) := by
  refine Still.get.before fun s => Still.before (.request rfl) fun historical => ?_
  refine Still.before (.ofExcept _) fun historical => (renewIds_still _ _ _).before fun calls => ?_
  refine (appendMessage_still _).before fun _ => Still.before (.modify fun _ => rfl) fun _ => ?_
  refine (checkpoint_serves hemit _).bind fun _ => (settlePending_serves hemit).bind fun _ => ?_
  exact observeProgress_serves hemit _

theorem reportDecision_serves (diagnostics : List Value) :
    Serves env L (reportDecision emit diagnostics) := by
  induction diagnostics with
  | nil => exact .pure _
  | cons diagnostic rest ih =>
    exact Still.before (.modify fun _ => rfl) fun _ => (checkpoint_serves hemit _).bind fun _ => ih

theorem act_serves (before : String) (d : Decision) : Serves env L (e.act emit before d) := by
  cases d with
  | invalid code content => exact actInvalid_serves hemit _ _ _
  | final content => exact actFinal_serves hemit _ _
  | tools content calls => exact actTools_serves hemit _ _ _

theorem decideAndAct_serves : Serves env L (e.decideAndAct emit) := by
  refine Still.get.before fun s => (checkpoint_serves hemit _).bind fun _ => ?_
  refine Still.get.before fun s => Still.before (.lift (decide_calmly _ _)) fun decided => ?_
  refine Still.before (.ofExcept _) fun out => (reportDecision_serves hemit _).bind fun _ => ?_
  refine Still.before (.modify fun _ => rfl) fun _ => (archiveRecord_still _ _).before fun _ => ?_
  exact act_serves hemit _ _

theorem reportAdvance_serves (t : Option Transition) : Serves env L (reportAdvance emit t) := by
  cases t with
  | none => exact .pure _
  | some t => exact checkpoint_serves hemit _

theorem reportCompaction_serves (changed : Bool) :
    Serves env L (reportCompaction emit changed) := by
  unfold reportCompaction
  split
  · exact Still.get.before fun s => checkpoint_serves hemit _
  · exact .pure _

theorem compactAndReport_serves : Serves env L (e.compactAndReport emit) := by
  refine compact_still.attempt.before fun out => ?_
  split
  · exact (reportCompaction_serves hemit _).bind fun _ => .pure _
  · exact .pure _

theorem reportDiagnostics_serves (diagnostics : List Value) :
    Serves env L (reportDiagnostics emit diagnostics) := by
  induction diagnostics with
  | nil => exact .pure _
  | cons diagnostic rest ih => exact (checkpoint_serves hemit _).bind fun _ => ih

theorem failCompaction_serves (message : String) :
    Serves env L (failCompaction emit message) :=
  Still.before (.modify fun _ => rfl) fun _ => checkpoint_serves hemit _

omit hemit in
theorem advance_held (s : Session) : (e.advance s).2.held = s.held := by
  unfold advance
  split <;> rfl

theorem round_serves : Serves env L (e.round emit) := by
  refine Still.before (.swap advance_held) fun transition => ?_
  refine (reportAdvance_serves hemit _).bind fun _ => Still.get.before fun s => ?_
  refine (compactAndReport_serves hemit).bind fun compacted => Still.get.before fun s => ?_
  refine (reportDiagnostics_serves hemit _).bind fun _ => ?_
  split
  · exact (failCompaction_serves hemit _).bind fun _ => .pure _
  · exact (decideAndAct_serves hemit).bind fun _ => .pure _

theorem rounds_serves (limit : Int) (fuel : Nat) : Serves env L (e.rounds emit limit fuel) := by
  induction fuel with
  | zero => exact .pure _
  | succ fuel ih =>
    refine Still.get.before fun s => ?_
    split
    · refine (round_serves hemit).bind fun goes => ?_
      split
      · exact ih
      · exact .pure _
    · exact .pure _

theorem limitSteps_serves (cap limit : Int) : Serves env L (limitSteps emit cap limit) := by
  refine Still.get.before fun s => ?_
  split
  · exact Still.before (.modify fun _ => rfl) fun _ => checkpoint_serves hemit _
  · exact .pure _

theorem settleLeft_serves : Serves env L (e.settleLeft emit) := by
  refine Still.get.before fun s => ?_
  split
  · exact .pure _
  · exact (settlePending_serves hemit).bind fun _ => observeProgress_serves hemit _

omit hemit in
theorem finishRun_held (now : String) (s : Session) : (finishRun now s).held = s.held := by
  unfold finishRun
  dsimp only
  split_ifs <;> rfl

/-- The run of the engine. -/
theorem run_serves (max : Option Int) : Serves env L (e.run emit max) := by
  refine Still.get.before fun s => Still.before (.i64 _) fun limit => ?_
  refine Still.before (.request rfl) fun runId => Still.before (.request rfl) fun now => ?_
  refine Still.before (.modify fun _ => rfl) fun _ => (archiveRecord_still _ _).before fun _ => ?_
  refine Still.get.before fun s => (checkpoint_serves hemit _).bind fun _ => ?_
  refine (settleLeft_serves hemit).bind fun _ => (rounds_serves hemit _ _).bind fun _ => ?_
  refine (limitSteps_serves hemit _ _).bind fun _ => Still.before (.request rfl) fun now => ?_
  exact Still.serves (.modify fun s => finishRun_held now s)

end run

end Engine

end StateDrivenAgent
