import StateDrivenAgent.Verify.Upkeep

/-!
# What a save keeps

A save gives identities to what has none, freezes the proposal and tries the transaction; whatever
becomes of it, the session is as it was in all a property is about. A save that fails has been refused,
or its outcome is unresolved.
-/

namespace StateDrivenAgent

open Interaction

/-! ## Staging -/

/-- The journals of a numbered session need no numbers. -/
theorem stage_alike {s : Session} (h : s.Numbered) :
    (Diagnostics.stage s).1 = .ok () ∧ Alike s (Diagnostics.stage s).2 := by
  unfold Diagnostics.stage
  by_cases hc : s.diagnosticCounts = []
  · obtain ⟨he, ha, hd⟩ := h hc
    simp only [hc, he, ha, hd, List.isEmpty_nil, Bool.not_true, Bool.false_eq_true, if_false,
      List.map_nil, Diagnostics.appendAll, StateOp.andThen, StateOp.skip]
    refine ⟨trivial, rfl, ⟨?_, ?_, ?_, ?_⟩, rfl, rfl⟩
    · exact hc.symm
    · exact he.symm
    · exact ha.symm
    · exact hd.symm
  · have hne : s.diagnosticCounts.isEmpty = false := by
      simpa using hc
    rw [hne]
    exact ⟨rfl, .refl s⟩

namespace Upkeep

variable {env : Deployment} {e : Engine} {promise : Ghost → (x : Eff) → Reply x → Prop}
  {owes : Ghost → Eff → Prop} {U : Upkeep env e promise owes} {g : Ghost} {s : Session}
  {value event : Value}

/-- A step of a save: it cannot fail, and it keeps the session alike. -/
def Stages (U : Upkeep env e promise owes) {α : Type} (f : SaveM α) : Prop :=
  ∀ g s, f.Sat (watch env e.config promise owes) g s (fun g' s' _ => g' = g ∧ Alike s s')
    fun _ _ _ => False

theorem sat_stages_bind {α β : Type} {f : SaveM α} {k : α → SaveM β}
    {post : Ghost → Session → β → Prop} {err : Ghost → Session → SqlError → Prop}
    (hf : U.Stages f)
    (h : ∀ s' a, Alike s s' → (k a).Sat (watch env e.config promise owes) g s' post err) :
    (f >>= k).Sat (watch env e.config promise owes) g s post err := by
  refine Proc.sat_bind.mpr (Proc.Sat.mono (hf g s) ?_ fun _ _ _ => False.elim)
  rintro _ s' a ⟨rfl, ha⟩
  exact h s' a ha

theorem Stages.bind {α β : Type} {f : SaveM α} {k : α → SaveM β}
    (hf : U.Stages f) (hk : ∀ a, U.Stages (k a)) : U.Stages (f >>= k) := by
  intro g s
  refine sat_stages_bind hf fun s' a ha => ?_
  exact Proc.Sat.mono_post (hk a g s') fun g' s'' b h => ⟨h.1, ha.trans h.2⟩

theorem Stages.request {x : Eff} (U : Upkeep env e promise owes) (hq : x.quiet = true)
    (hi : x.inert = true) : U.Stages (Proc.request x : SaveM (Reply x)) := by
  intro g s
  refine ⟨U.quiet hq, fun r _ => ?_⟩
  exact ⟨Ghost.next_inert r hi, .refl s⟩

theorem Stages.pure {α : Type} (U : Upkeep env e promise owes) (a : α) :
    U.Stages (Pure.pure a : SaveM α) := fun _ s => ⟨rfl, .refl s⟩

theorem Stages.update {f : Session → Session} (U : Upkeep env e promise owes)
    (h : ∀ s, Alike s (f s)) : U.Stages (Proc.update f : SaveM Unit) :=
  fun _ s => ⟨rfl, h s⟩

theorem Stages.state (U : Upkeep env e promise owes) :
    U.Stages (Proc.state : SaveM Session) := fun _ s => ⟨rfl, .refl s⟩

/-- The messages keep their bodies when they are given an identity. -/
theorem stageMessages_sat (U : Upkeep env e promise owes) (done rest : List Message) :
    (Server.stageMessages done rest).Sat (watch env e.config promise owes) g s
      (fun g' s' _ => g' = g ∧ SameJournal s s' ∧ s'.needsReload = s.needsReload ∧
        s'.checkpointAck = s.checkpointAck ∧ s'.core = { s.core with
          memory := (done ++ rest).map Message.toMessageBody })
      fun _ _ _ => False := by
  induction rest generalizing done s with
  | nil =>
    refine ⟨rfl, ⟨rfl, rfl, rfl, rfl⟩, rfl, rfl, ?_⟩
    rw [List.append_nil]
    rfl
  | cons m rest ih =>
    rw [Server.stageMessages]
    split
    · refine Proc.Sat.mono_post (ih (done ++ [m])) fun g' s' _ h => ?_
      rw [List.append_assoc] at h
      exact h
    · refine U.sat_request_bind rfl rfl fun id _ => U.sat_request_bind rfl rfl fun createdAt _ => ?_
      refine Proc.Sat.mono_post (ih _) fun g' s' _ h => ?_
      obtain ⟨hg, hj, hr, ha, hc⟩ := h
      refine ⟨hg, ⟨hj.counts, hj.events, hj.attempts, hj.decisions⟩, hr, ha, hc.trans ?_⟩
      simp only [List.append_assoc, List.map_append, List.map_cons, List.cons_append,
        List.nil_append]
      rfl

theorem stageTranscript_stages : U.Stages Server.stageTranscript := by
  intro g s
  refine Proc.Sat.mono_post (U.stageMessages_sat [] s.memory) fun g' s' _ h => ?_
  obtain ⟨hg, hj, hr, ha, hc⟩ := h
  exact ⟨hg, hc, hj, hr, ha⟩

theorem stageSummary_stages (provenance : Value) : U.Stages (Server.stageSummary provenance) := by
  refine .bind (.state U) fun s => ?_
  split
  · exact .pure U _
  · split
    · exact .pure U _
    · exact .bind (.request U rfl rfl) fun _ => .update U fun s => ⟨rfl, ⟨rfl, rfl, rfl, rfl⟩, rfl, rfl⟩

theorem stageSummaries_stages (items : List Value) : U.Stages (Server.stageSummaries items) := by
  induction items with
  | nil => exact .pure U _
  | cons item items ih => exact .bind (stageSummary_stages item) fun _ => ih

theorem archive_stages (kind : String) (payload : Value) : U.Stages (Server.archive kind payload) := by
  intro g s
  refine ⟨U.quiet rfl, fun id _ => ⟨U.quiet rfl, fun createdAt _ => ?_⟩⟩
  exact ⟨rfl, rfl, ⟨rfl, rfl, rfl, rfl⟩, rfl, rfl⟩

theorem archiveEvent_stages (event : Value) : U.Stages (Server.archiveEvent event) := by
  refine .bind (.state U) fun s => ?_
  split
  · exact archive_stages _ _
  · exact .pure U _

theorem freeze_stages (event : Value) : U.Stages (Server.freeze event) := by
  refine .bind (.state U) fun s => ?_
  split
  · exact .pure U _
  · refine .bind (stageSummaries_stages _) fun _ => .bind (archiveEvent_stages event) fun _ => ?_
    exact .bind (.request U rfl rfl) fun _ => .update U fun s => ⟨rfl, ⟨rfl, rfl, rfl, rfl⟩, rfl, rfl⟩

/-! ## The transaction -/

/-- What the reply to a transaction that is not tried again leaves. -/
structure Replied (U : Upkeep env e promise owes) (s : Session) (g : Ghost)
    (r : TransactReply) : Prop where
  inv : U.Inv g s.core
  transacts : Transacts s r
  answered : r.result = .ok () → r.session.needsReload = true → U.Err g
  refused : ∀ x, r.result = .error x → x.unresolved = true ∨ U.Mild x.message ∨ U.Err g

theorem Replied.of_may {r : TransactReply} (h : U.Inv g s.core)
    (hr : (watch env e.config promise owes).may g (.transact s value event) r) :
    U.Replied s (g.next (.transact s value event) r) r := by
  refine ⟨U.committed hr h, hr.1, U.answered hr, fun x hx => ?_⟩
  cases hu : x.unresolved with
  | true => exact .inl rfl
  | false => exact .inr (U.refused h hr hx hu)

theorem tryCommit_sat (retries : Nat) (h : U.Inv g s.core) (hn : s.Numbered)
    (hev : U.Event event) :
    (Server.tryCommit s value event retries).Sat (watch env e.config promise owes) g s
      (fun g' s' r => s' = s ∧ U.Replied s g' r) fun _ _ _ => False := by
  induction retries generalizing g with
  | zero => exact ⟨U.commit h hn hev, fun r hr => ⟨rfl, .of_may h hr⟩⟩
  | succ retries ih =>
    rw [Server.tryCommit]
    refine Proc.sat_bind.mpr ((Proc.sat_request _).mpr ⟨U.commit h hn hev, fun r hr => ?_⟩)
    have hreplied := Replied.of_may h hr
    split
    · split
      · exact ih hreplied.inv
      · exact ⟨rfl, hreplied⟩
    · exact ⟨rfl, hreplied⟩

/-! ## The save -/

/-- What a save keeps of the session. -/
structure Saved (s s' : Session) : Prop where
  core : s'.core = s.core
  reload : s.needsReload = true → s'.needsReload = true

theorem acknowledge_core (s : Session) :
    (Server.acknowledge (Server.commitSummaries s)).core = s.core := rfl

theorem restore_core {staged proposal : Session} (h : proposal.core = staged.core) :
    (Server.restore staged proposal).core = staged.core := by
  have hmem := congrArg (fun c : Core => { c with memory := staged.core.memory }) h
  exact hmem

theorem At.restore {staged : Session} {r : TransactReply} (h : U.At g staged)
    (hr : Transacts staged r) {x : SqlError} (hx : r.result = .error x) {g' : Ghost}
    (hi : U.Inv g' staged.core) (hn : staged.needsReload = false) :
    U.At g' (Server.restore staged r.session) := by
  refine ⟨(restore_core hr.core) ▸ hi, ?_, ?_⟩
  · exact SameJournal.numbered ⟨hr.journal.counts, hr.journal.events, hr.journal.attempts,
      hr.journal.decisions⟩ h.numbered
  · intro hreload
    have hsame : r.session.needsReload = staged.needsReload := hr.failed x hx
    rw [show (Server.restore staged r.session).needsReload = r.session.needsReload from rfl, hsame,
      hn] at hreload
    cases hreload

theorem save_sat (h : U.At g s) (hev : U.Event event) :
    (Server.save value event).Sat (watch env e.config promise owes) g s
      (fun g' s' _ => U.At g' s' ∧ Saved s s' ∧
        ∀ ack, s'.checkpointAck = some ack → ack.needsReload = true → U.Err g')
      fun g' s' x => U.At g' s' ∧ Saved s s' ∧ U.Fails g' x.message := by
  have hstage : (Server.liftOp Diagnostics.stage).Sat (watch env e.config promise owes) g s
      (fun g' s' _ => g' = g ∧ Alike s s') fun _ _ _ => False := by
    obtain ⟨hok, halike⟩ := stage_alike h.numbered
    rcases hs : Diagnostics.stage s with ⟨r, s'⟩
    rw [hs] at hok halike
    subst hok
    simp only [Proc.Sat, Server.liftOp, Proc.step, hs, Program.sat_ret]
    exact ⟨trivial, halike⟩
  refine Proc.sat_bind.mpr (Proc.Sat.mono hstage ?_ fun _ _ _ => False.elim)
  rintro _ s₁ _ ⟨rfl, h₁⟩
  refine sat_stages_bind (stageTranscript_stages (U := U)) fun s₂ _ h₂ => ?_
  refine sat_stages_bind (freeze_stages (U := U) event) fun staged _ h₃ => ?_
  have hsame : Alike s staged := (h₁.trans h₂).trans h₃
  have hat := h.alike hsame
  refine Proc.sat_bind.mpr (Proc.sat_state.mpr ?_)
  split
  · next hreload =>
    exact ⟨hat, ⟨hsame.core, fun _ => hreload⟩, .inr (hat.reload hreload)⟩
  · next hreload =>
    have hfresh : staged.needsReload = false := by simpa using hreload
    have hnever : s.needsReload = false := hsame.reload ▸ hfresh
    refine Proc.sat_bind.mpr (Proc.Sat.mono (tryCommit_sat 2 hat.inv hat.numbered hev) ?_
      fun _ _ _ => False.elim)
    rintro g' _ r ⟨rfl, hr⟩
    split
    · next hok =>
      refine ⟨⟨?_, ?_, ?_⟩, ⟨?_, ?_⟩, ?_⟩
      · rw [acknowledge_core, hr.transacts.core]
        exact hr.inv
      · exact SameJournal.numbered ⟨hr.transacts.journal.counts, hr.transacts.journal.events,
          hr.transacts.journal.attempts, hr.transacts.journal.decisions⟩ hat.numbered
      · exact hr.answered hok
      · rw [acknowledge_core, hr.transacts.core, hsame.core]
      · rw [hnever]
        exact fun hfalse => absurd hfalse Bool.false_ne_true
      · intro ack hack hreload'
        obtain ⟨_, -, rfl⟩ := Option.map_eq_some_iff.mp hack
        exact hr.answered hok hreload'
    · next x hx =>
      have hrestored := hat.restore hr.transacts hx hr.inv hfresh
      refine ⟨hrestored, ⟨?_, ?_⟩, ?_⟩
      · rw [restore_core hr.transacts.core, hsame.core]
      · rw [hnever]
        exact fun hfalse => absurd hfalse Bool.false_ne_true
      · unfold Server.reported
        split
        · exact .inl (U.unresolved _)
        · next hu =>
          rcases hr.refused x hx with hun | hmild | herr
          · exact absurd hun hu
          · exact .inl hmild
          · exact .inr herr

end Upkeep

end StateDrivenAgent
