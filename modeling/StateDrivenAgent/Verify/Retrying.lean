import StateDrivenAgent.Interaction.History
import StateDrivenAgent.Server.Save
import StateDrivenAgent.Verify.Canonical
import StateDrivenAgent.Verify.Writing

/-!
# A save that fails can be made again

A save stages everything first (`Ready`), then proposes the session it has staged, three times at
most. An attempt may break off anywhere, with any part of the session renumbered, and before or after
the transaction was committed (`Attempted`). What a failed save leaves is the staged session, with the
fingerprint of the proposal; made again, it proposes this session as it is. A save that succeeds finds
its receipt in the tables, and the history of the tables has the one transaction that wrote it.
-/

namespace StateDrivenAgent

open Interaction

namespace Storage

/-! ## Histories of the tables -/

/-- One move of the tables: an effect of anybody, or their drift. -/
inductive Moved (env : Deployment) (db db' : Db) : Prop
  | effect {e : Eff} {r : Reply e} (h : exec env e db r db')
  | drift (h : Drift db db')

/-- Any number of moves, of any number of workers. -/
abbrev History (env : Deployment) : Db → Db → Prop := Relation.ReflTransGen (Moved env)

/-- The tables of a pool of workers have a history. -/
theorem history_of_run {env : Deployment} {α : Type} {w w' : Pool Eff Reply Db α}
    (h : Pool.Run (machine env α) w w') : History env w.shared w'.shared := by
  induction h with
  | refl => exact .refl
  | tail _ hstep ih =>
    cases hstep with
    | act hact =>
      obtain ⟨-, -, hexec⟩ := hact
      exact ih.tail (.effect hexec)
    | spawn _ => exact ih
    | drift hd => exact ih.tail (.drift hd)

/-- The rows a commit writes are as they were. -/
structure SameRows (t t' : Tables) : Prop where
  diagnostics : t'.diagnostics = t.diagnostics
  executions : t'.executions = t.executions
  attempts : t'.attempts = t.attempts

theorem SameRows.refl (t : Tables) : SameRows t t := ⟨rfl, rfl, rfl⟩

theorem sameRows_updateSession (db : Db) (id id' : String) (f : SessionRow → SessionRow) :
    SameRows (db.tables id') ((db.updateSession id f).tables id') := by
  by_cases h : id' = id
  · subst h
    rw [Db.updateSession, Db.set_same]
    exact ⟨rfl, rfl, rfl⟩
  · rw [Db.updateSession, Db.set_other _ _ h]
    exact .refl _

theorem sameRows_lease (db : Db) (id owner id' : String) :
    SameRows (db.tables id') ((acquireLease db id owner).2.tables id') := by
  unfold acquireLease
  split
  · exact sameRows_updateSession db id id' _
  · exact .refl _

theorem sameRows_renew (db : Db) (id owner id' : String) (fence : Int) :
    SameRows (db.tables id') ((renewLease db id owner fence).2.tables id') := by
  unfold renewLease
  split
  · exact sameRows_updateSession db id id' _
  · exact .refl _

theorem sameRows_release (db : Db) (id owner id' : String) (fence : Int) :
    SameRows (db.tables id') ((releaseLease db id owner fence).tables id') := by
  unfold releaseLease
  split
  · exact sameRows_updateSession db id id' _
  · exact .refl _

/-- Only a commit to a session writes its rows. -/
theorem exec_rows {env : Deployment} {e : Eff} {db db' : Db} {r : Reply e}
    (h : exec env e db r db') (id : String) :
    SameRows (db.tables id) (db'.tables id) ∨ Committed env db id (db'.tables id) e := by
  have same : db' = db →
      SameRows (db.tables id) (db'.tables id) ∨ Committed env db id (db'.tables id) e := by
    rintro rfl
    exact .inl (.refl _)
  cases e with
  | transact s config event =>
    obtain ⟨now, h⟩ := h
    suffices hsuff : db' = db ∨ db' = (saveInner env now s config event db).db by
      rcases hsuff with hdb | rfl
      · exact same hdb
      · rcases saveInner_cases env now s config event db with
          ⟨hdb, -⟩ | ⟨t, g, commands, hcommitted, -, hdb⟩
        · exact same hdb
        · rw [hdb]
          by_cases hid : id = s.id
          · subst hid
            refine .inr ?_
            change Committed env db s.id ((db.set s.id t).tables s.id) _
            rw [Db.set_same]
            exact hcommitted
          · refine .inl ?_
            change SameRows _ ((db.set s.id t).tables id)
            rw [Db.set_other _ _ hid]
            exact .refl _
    rcases h with ⟨-, hdb⟩ | ⟨-, -, -, ⟨-, hdb⟩ | ⟨-, hdb⟩⟩
    · exact .inr hdb
    · exact .inl hdb
    · exact .inr hdb
  | acquireLease id' =>
    obtain ⟨owner, -, ⟨-, rfl⟩ | ⟨-, -, hdb | rfl⟩⟩ := h
    · exact .inl (sameRows_lease db id' owner id)
    · exact same hdb
    · exact .inl (sameRows_lease db id' owner id)
  | releaseLease id' owner fence =>
    rcases h with hdb | rfl
    · exact same hdb
    · exact .inl (sameRows_release db id' owner id fence)
  | requestCancel run =>
    rcases h with hdb | rfl
    · exact same hdb
    · exact .inl ⟨rfl, rfl, rfl⟩
  | markUncertain command =>
    rcases h with hdb | rfl
    · exact same hdb
    · exact .inl (.refl _)
  | cancelRequested | historicalCallIds | committedResponse | load => exact same h.1
  | _ => exact same h

theorem sameRows_drift {db db' : Db} (h : Drift db db') (id : String) :
    SameRows (db.tables id) (db'.tables id) := by
  cases h with
  | command | time | sequence => exact .refl _
  | renew id' owner fence => exact sameRows_renew db id' owner id fence
  | cancel p => exact ⟨rfl, rfl, rfl⟩

/-- A move leaves the tables of a session as committed as they were, or it is a commit to it. -/
theorem moved_cases {env : Deployment} {db db' : Db} (h : Moved env db db') (hi : Inv db)
    (id : String) :
    (Kept (db.tables id) (db'.tables id) ∧ SameRows (db.tables id) (db'.tables id)) ∨
      ∃ e, Committed env db id (db'.tables id) e := by
  cases h with
  | effect hexec =>
    rcases exec_rows hexec id with hsame | hc
    · obtain ⟨-, -, hkept⟩ := exec_cases hexec hi.commands
      rcases hkept id with hk | ⟨hc, -⟩
      · exact .inl ⟨hk, hsame⟩
      · exact .inr ⟨_, hc⟩
    · exact .inr ⟨_, hc⟩
  | drift hd => exact .inl ⟨kept_drift hd id, sameRows_drift hd id⟩

theorem Moved.inv {env : Deployment} {db db' : Db} (h : Moved env db db') (hi : Inv db) :
    Inv db' := by
  cases h with
  | effect hexec => exact (preserves_inv (α := Unit)).exec hi hexec
  | drift hd => exact hi.drift hd

/-! ## What every history keeps -/

/-- The tables of a session have keys, and its last commit has a receipt. -/
structure Booked (t : Tables) : Prop where
  keys : Keys t
  last : ∀ row c, t.session = some row → row.lastCommitId = some c →
    ∃ receipt ∈ t.receipts, receipt.commitId = c

theorem Booked.empty : Booked {} := by
  refine ⟨.empty, ?_⟩
  intro row c h
  cases h

theorem Booked.kept {t t' : Tables} (h : Booked t) (hk : Kept t t') (hr : SameRows t t') :
    Booked t' := by
  refine ⟨⟨?_, ?_, ?_, ?_⟩, ?_⟩
  · rw [hk.transcript]
    exact h.keys.transcript
  · rw [hr.diagnostics]
    exact h.keys.diagnostics
  · rw [hr.executions]
    exact h.keys.executions
  · rw [hr.attempts]
    exact h.keys.attempts
  · intro row' c hrow' hc
    have hrow := hk.row
    rw [hrow', Option.map_some] at hrow
    obtain ⟨row, hrow, hcommit⟩ := Option.map_eq_some_iff.mp hrow.symm
    simp only [SessionRow.commit, Prod.mk.injEq] at hcommit
    rw [hk.receipts]
    exact h.last row c hrow (hcommit.2.1.trans hc)

theorem Booked.committed {env : Deployment} {db : Db} {id : String} {t' : Tables} {e : Eff}
    (h : Booked (db.tables id)) (hc : Committed env db id t' e) : Booked t' := by
  obtain ⟨-, -, -, -, -, -, happlied, happly⟩ := hc
  refine ⟨(written_of_applyCommit happly h.keys).1, ?_⟩
  intro row c hrow hlast
  obtain ⟨row', hrow', -, hcommit, -⟩ := happlied.row
  obtain rfl : row = row' := Option.some.inj (hrow.symm.trans hrow')
  obtain rfl := Option.some.inj (hlast.symm.trans hcommit)
  rw [happlied.receipts]
  exact ⟨_, List.mem_append_right _ (List.mem_singleton_self _), rfl⟩

/-- What holds of the tables of every history. -/
structure Sane (db : Db) : Prop where
  inv : Inv db
  booked : ∀ id, Booked (db.tables id)

theorem Sane.empty : Sane {} := ⟨.empty, fun _ => .empty⟩

theorem Sane.moved {env : Deployment} {db db' : Db} (h : Sane db) (hm : Moved env db db') :
    Sane db' := by
  refine ⟨hm.inv h.inv, fun id => ?_⟩
  rcases moved_cases hm h.inv id with ⟨hk, hr⟩ | ⟨e, hc⟩
  · exact (h.booked id).kept hk hr
  · exact (h.booked id).committed hc

theorem Sane.history {env : Deployment} {db db' : Db} (h : Sane db) (hh : History env db db') :
    Sane db' := by
  induction hh with
  | refl => exact h
  | tail _ hm ih => exact ih.moved hm

theorem receipts_grow {env : Deployment} {db db' : Db} (h : Sane db) (hh : History env db db')
    (id : String) : (db.tables id).receipts ⊆ (db'.tables id).receipts := by
  induction hh with
  | refl => exact fun _ hr => hr
  | tail hh hm ih =>
    rcases moved_cases hm (h.history hh).inv id with ⟨hk, -⟩ | ⟨e, hc⟩
    · rw [hk.receipts]
      exact ih
    · obtain ⟨-, -, -, -, -, -, happlied, -⟩ := hc
      rw [happlied.receipts]
      exact fun r hr => List.mem_append_left _ (ih hr)

/-- The transaction `db → db'` that committed the proposal `x` under this identity: its items were
written by it, exactly once. -/
structure Writes (env : Deployment) (id commitId fingerprint : String) (x : Session)
    (config event : Value) (db db' : Db) : Prop where
  moved : Moved env db db'
  session : x.id = id
  commit : x.pendingCommitId.bind env.parseUuid = some commitId
  fingerprint : commitFingerprint env x config event = .ok fingerprint
  /-- Nobody had committed under this identity before. -/
  new : commitId ∉ (db.tables id).receipts.map Receipt.commitId
  written : ∃ command, x.command = some command ∧
    Written env command commitId x event (db.tables id) (db'.tables id)

theorem writes_of_committed {env : Deployment} {db db' : Db} {id : String} {e : Eff}
    (hb : Booked (db.tables id)) (hm : Moved env db db')
    (hc : Committed env db id (db'.tables id) e) :
    ∃ receipt x config event,
      (db'.tables id).receipts = (db.tables id).receipts ++ [receipt] ∧
      Writes env id receipt.commitId receipt.fingerprint x config event db db' := by
  obtain ⟨hid, hcommand, -, hcommit, hfingerprint, hnew, happlied, happly⟩ := hc
  obtain ⟨h1, h2, h3, h4, kept, row, hevents, ⟨hc, hr, he⟩, hsub, hall⟩ :=
    (written_of_applyCommit happly hb.keys).2
  exact ⟨_, _, _, _, happlied.receipts, hm, hid, hcommit, hfingerprint, hnew, _, hcommand,
    h1, h2, h3, h4, kept, row, hevents, ⟨hc, hr, he⟩, hsub, hall⟩

/-- Every receipt has the transaction that wrote it. -/
theorem writes_of_receipt {env : Deployment} {start db : Db} (hs : Sane start)
    (h : History env start db) {id : String} {receipt : Receipt}
    (hstart : (start.tables id).receipts = [])
    (hr : receipt ∈ (db.tables id).receipts) : ∃ d₁ d₂ x config event, History env start d₁ ∧
      Writes env id receipt.commitId receipt.fingerprint x config event d₁ d₂ ∧
        History env d₂ db := by
  induction h with
  | refl =>
    rw [hstart] at hr
    cases hr
  | @tail mid db hh hm ih =>
    by_cases hmem : receipt ∈ (mid.tables id).receipts
    · obtain ⟨d₁, d₂, x, config, event, h₁, hw, h₂⟩ := ih hmem
      exact ⟨d₁, d₂, x, config, event, h₁, hw, h₂.tail hm⟩
    · have hsane := hs.history hh
      rcases moved_cases hm hsane.inv id with ⟨hk, -⟩ | ⟨e, hc⟩
      · rw [hk.receipts] at hr
        exact absurd hr hmem
      · obtain ⟨last, x, config, event, hreceipts, hw⟩ :=
          writes_of_committed (hsane.booked id) hm hc
        rw [hreceipts] at hr
        obtain rfl : receipt = last :=
          List.mem_singleton.mp ((List.mem_append.mp hr).resolve_left hmem)
        exact ⟨_, _, x, config, event, hh, hw, .refl⟩

/-! ## One attempt -/

/-- The proposal once `save_inner` has looked at it: it has a fingerprint, unless there is none or it
had another one. -/
def proposed (env : Deployment) (s : Session) (config event : Value) : Session :=
  match s.pendingCommitId.bind env.parseUuid, commitFingerprint env s config event with
  | some _, .ok fingerprint =>
    if s.pendingCommitFingerprint.any (· ≠ fingerprint) then s else fingerprinted s fingerprint
  | _, _ => s

theorem proposed_cases (env : Deployment) (s : Session) (config event : Value) :
    proposed env s config event = s ∨
      ∃ fingerprint, commitFingerprint env s config event = .ok fingerprint ∧
        (∀ f, s.pendingCommitFingerprint = some f → f = fingerprint) ∧
          proposed env s config event = fingerprinted s fingerprint := by
  unfold proposed
  split
  · next fingerprint _ hf =>
    split
    · exact .inl rfl
    · next hsame =>
      refine .inr ⟨fingerprint, hf, ?_, rfl⟩
      intro f hp
      simpa [hp] using hsame
  · exact .inl rfl

/-- The fingerprint is no part of the proposal. -/
theorem commitFingerprint_fingerprinted (env : Deployment) (s : Session) (f : String)
    (config event : Value) :
    commitFingerprint env (fingerprinted s f) config event =
      commitFingerprint env s config event := rfl

/-- What an attempt that breaks off leaves of the proposal: the revision, the numbers and the messages
may have been changed already. -/
def Torn (env : Deployment) (staged : Session) (config event : Value) (left : Session) : Prop :=
  ∃ revision next memory, left = { proposed env staged config event with
    revision, nextTranscriptSequence := next, memory }

/-- One attempt of a save: `save_inner` succeeds, or it breaks off at any point, and then its
transaction was rolled back or its commit was not acknowledged. -/
def Attempted (env : Deployment) (db : Db) (staged : Session) (config event : Value)
    (r : TransactReply) (db' : Db) : Prop :=
  ∃ now, (r.result = .ok () ∧ (saveInner env now staged config event db).result = .ok () ∧
      r.session = (saveInner env now staged config event db).session ∧
      db' = (saveInner env now staged config event db).db) ∨
    ((∃ e, r.result = .error e) ∧ Torn env staged config event r.session ∧
      (db' = db ∨ db' = (saveInner env now staged config event db).db))

variable {env : Deployment} {db db' : Db} {s staged : Session} {config event : Value}
  {r : TransactReply}

/-- An attempt is a move of the tables. -/
theorem Attempted.moved (h : Attempted env db staged config event r db') : Moved env db db' := by
  obtain ⟨now, ⟨-, -, -, rfl⟩ | ⟨⟨e, -⟩, -, rfl | rfl⟩⟩ := h
  · exact .effect (e := .transact staged config event) ⟨now, .inl ⟨rfl, rfl⟩⟩
  · exact .effect (e := .transact staged config event)
      (r := ⟨none, .error e, frozen env staged config event⟩)
      ⟨now, .inr ⟨e, rfl, rfl, .inl ⟨rfl, rfl⟩⟩⟩
  · exact .effect (e := .transact staged config event) ⟨now, .inl ⟨rfl, rfl⟩⟩

/-- Nothing is left to be written. -/
structure Emptied (s : Session) : Prop where
  transcript : s.pendingTranscript = []
  diagnostics : s.diagnosticsPending = []
  executions : s.pendingExecutionOutbox = []
  attempts : s.attemptsPending = []
  commit : s.pendingCommitId = none
  fingerprint : s.pendingCommitFingerprint = none

/-- An attempt that succeeds has a receipt for its proposal, and the outboxes are empty. -/
theorem saveInner_ok {now : String} (hb : Booked (db.tables s.id))
    (h : (saveInner env now s config event db).result = .ok ()) :
    Emptied (saveInner env now s config event db).session ∧ ∃ commitId fingerprint,
      s.pendingCommitId.bind env.parseUuid = some commitId ∧
      commitFingerprint env s config event = .ok fingerprint ∧
      ∃ receipt ∈ ((saveInner env now s config event db).db.tables s.id).receipts,
        receipt.commitId = commitId ∧ receipt.fingerprint = fingerprint := by
  unfold saveInner at h ⊢
  cases hc : s.pendingCommitId.bind env.parseUuid with
  | none =>
    rw [hc] at h
    cases h
  | some commitId =>
    rw [hc] at h
    cases hf : commitFingerprint env s config event with
    | error e =>
      rw [hf] at h
      cases h
    | ok fingerprint =>
      rw [hf] at h
      simp only at h ⊢
      split at h
      · cases h
      next hsame =>
      rw [if_neg hsame]
      suffices hs : Emptied (transact env now commitId fingerprint (fingerprinted s fingerprint)
            config event db).session ∧
          ∃ receipt ∈ ((transact env now commitId fingerprint (fingerprinted s fingerprint)
            config event db).db.tables s.id).receipts,
            receipt.commitId = commitId ∧ receipt.fingerprint = fingerprint by
        obtain ⟨he, hr⟩ := hs
        exact ⟨he, commitId, fingerprint, rfl, rfl, hr⟩
      unfold transact at h ⊢
      split at h
      · cases h
      next command hcommand =>
      split at h
      · cases h
      next hrow =>
      simp only [if_neg hrow]
      cases hfind : ((db.tables (fingerprinted s fingerprint).id).receipts.find? fun r =>
          r.commitId = commitId) with
      | some receipt =>
        rw [hfind] at h
        simp only [fromReceipt] at h ⊢
        split at h
        · cases h
        next hprint =>
        rw [if_neg hprint]
        refine ⟨⟨rfl, rfl, rfl, rfl, rfl, rfl⟩, receipt, List.mem_of_find?_eq_some hfind, ?_,
          not_not.mp hprint⟩
        simpa using List.find?_some hfind
      | none =>
        rw [hfind] at h
        simp only at h ⊢
        split at h
        · cases h
        next hguard =>
        simp only [if_neg hguard]
        cases hrow' : (db.tables (fingerprinted s fingerprint).id).session.filter
            (fun row => row.lastCommitId = some commitId) with
        | some row =>
          obtain ⟨hsession, hlast⟩ := Option.filter_eq_some_iff.mp hrow'
          obtain ⟨receipt, hmem, hid⟩ := hb.last row commitId hsession (by simpa using hlast)
          have hno := List.find?_eq_none.mp hfind receipt hmem
          simp [hid] at hno
        | none =>
          rw [hrow'] at h
          simp only [applied] at h ⊢
          split at h
          · cases h
          next t s' happly =>
          refine ⟨⟨rfl, rfl, rfl, rfl, rfl, rfl⟩, ?_⟩
          have happlied := applied_of_applyCommit happly
          change ∃ receipt ∈ ((db.set s.id t).tables s.id).receipts, _
          rw [Db.set_same, happlied.receipts]
          exact ⟨_, List.mem_append_right _ (List.mem_singleton_self _), rfl, rfl⟩

end Storage

/-! ## Staging -/

namespace Diagnostics

/-- The journal needs no numbers any more. -/
def Idle (s : Session) : Prop :=
  s.diagnosticCounts ≠ [] ∨ (s.compactionEvents = [] ∧ s.compactionAttempts = [] ∧
    s.compactionDecisions = [] ∧ s.diagnosticRejections = 0 ∧ s.compactionSavingsTotal = 0 ∧
      s.compactionSavingsKnown = true)

theorem Idle.stage {s : Session} (h : Idle s) : Diagnostics.stage s = (.ok (), s) := by
  by_cases hc : s.diagnosticCounts = []
  · obtain ⟨he, ha, hd, hr, ht, hk⟩ := h.resolve_left (not_not.mpr hc)
    cases s
    subst hc he ha hd hr ht hk
    rfl
  · unfold Diagnostics.stage
    rw [if_pos (by simpa using hc)]

theorem append_counts {family : String} {payload : Value} {s s' : Session}
    (h : append family payload s = (.ok (), s')) : s'.diagnosticCounts ≠ [] := by
  unfold append at h
  dsimp only at h
  split at h
  · cases h
  · split at h
    · cases h
    · cases h
      exact insertCount_ne_nil _ _ _

theorem appendAll_counts {family : String} {payloads : List Value} {s s' : Session}
    (h : appendAll family payloads s = (.ok (), s')) :
    (payloads = [] ∧ s' = s) ∨ s'.diagnosticCounts ≠ [] := by
  induction payloads generalizing s with
  | nil =>
    cases h
    exact .inl ⟨rfl, rfl⟩
  | cons payload payloads ih =>
    unfold appendAll StateOp.andThen at h
    split at h
    · next s₁ hs₁ =>
      refine .inr ?_
      rcases ih h with ⟨-, rfl⟩ | hne
      · exact append_counts hs₁
      · exact hne
    · cases h

/-- The second of two operations on a session. -/
theorem andThen_ok {f g : StateOp} {s s' : Session} (h : f.andThen g s = (.ok (), s')) :
    ∃ s₁, f s = (.ok (), s₁) ∧ g s₁ = (.ok (), s') := by
  unfold StateOp.andThen at h
  split at h
  · next s₁ hs₁ => exact ⟨s₁, hs₁, h⟩
  · cases h

theorem stage_idle {s s' : Session} (h : Diagnostics.stage s = (.ok (), s')) : Idle s' := by
  unfold Diagnostics.stage at h
  dsimp only at h
  split at h
  · next hc =>
    cases h
    exact .inl (by simpa using hc)
  · next hc =>
    have hc : s.diagnosticCounts = [] := by simpa using hc
    obtain ⟨s₁, h₁, h⟩ := andThen_ok h
    obtain ⟨s₂, h₂, h₃⟩ := andThen_ok h
    by_cases hn : s'.diagnosticCounts = []
    · refine .inr ?_
      obtain ⟨hd, rfl⟩ := (appendAll_counts h₃).resolve_right (not_not.mpr hn)
      obtain ⟨ha, rfl⟩ := (appendAll_counts h₂).resolve_right (not_not.mpr hn)
      obtain ⟨he, rfl⟩ := (appendAll_counts h₁).resolve_right (not_not.mpr hn)
      have he : s.compactionEvents = [] := List.map_eq_nil_iff.mp he
      refine ⟨rfl, rfl, rfl, rfl, rfl, ?_⟩
      simp [ha, he]
    · exact .inl hn

end Diagnostics

namespace Server

/-- Everything is staged. -/
structure Ready (s : Session) : Prop where
  journal : Diagnostics.Idle s
  messages : ∀ m ∈ s.memory, m.sequence.isSome ∧ m.messageId.isSome ∧ m.createdAt.isSome
  frozen : s.pendingCommitId.isSome

/-- The part of a save after the staging. -/
def propose (config event : Value) (staged : Session) : SaveM Unit :=
  if staged.needsReload then Proc.fail (protocol "Historical receipt requires reload")
  else do
    let r ← tryCommit staged config event 2
    match r.result with
    | .ok () => Proc.update fun _ => acknowledge (commitSummaries r.session)
    | .error e => do
      Proc.update fun _ => restore staged r.session
      Proc.fail (reported e)

variable {env : Deployment} {s s' : Session} {config event : Value}

theorem save_eq : save config event = (do
    liftOp Diagnostics.stage
    stageTranscript
    freeze event
    let staged ← (Proc.state : SaveM Session)
    propose config event staged) := rfl

/-- An effect that only makes identities and times. -/
def fresh : Eff → Bool
  | .uuid _ | .now => true
  | _ => false

/-- Watches that nothing but identities and times is asked for. -/
def staging : Monitor Eff Reply Unit where
  may _ _ _ := True
  must _ e := fresh e = true
  next _ _ _ := ()

theorem staging_allowed (es : List (Event Eff Reply)) : staging.Allowed () es := by
  induction es with
  | nil => trivial
  | cons x es ih => exact ⟨trivial, ih⟩

theorem fresh_of_run {α : Type} {p q : Prog α} {post : Unit → α → Prop}
    {es : List (Event Eff Reply)} (h : p.Sat staging () post) (hr : p.Runs es q) :
    ∀ ev ∈ es, fresh ev.1 = true := by
  intro ev hev
  obtain ⟨_, hmust⟩ := (h.run hr (staging_allowed es)).1.mem (e := ev.1) (r := ev.2) hev
  exact hmust

/-- The parts of the session that the staging of messages leaves alone. -/
structure SameRest (s s' : Session) : Prop where
  counts : s'.diagnosticCounts = s.diagnosticCounts
  events : s'.compactionEvents = s.compactionEvents
  attempts : s'.compactionAttempts = s.compactionAttempts
  decisions : s'.compactionDecisions = s.compactionDecisions
  rejections : s'.diagnosticRejections = s.diagnosticRejections
  savings : s'.compactionSavingsTotal = s.compactionSavingsTotal
  known : s'.compactionSavingsKnown = s.compactionSavingsKnown

theorem SameRest.refl (s : Session) : SameRest s s := ⟨rfl, rfl, rfl, rfl, rfl, rfl, rfl⟩

theorem SameRest.idle (h : SameRest s s') (hs : Diagnostics.Idle s) : Diagnostics.Idle s' := by
  unfold Diagnostics.Idle
  rw [h.counts, h.events, h.attempts, h.decisions, h.rejections, h.savings, h.known]
  exact hs

/-- A message with its identity. -/
def Identified (m : Message) : Prop :=
  m.sequence.isSome ∧ m.messageId.isSome ∧ m.createdAt.isSome

theorem stageMessages_ready (done rest : List Message) (hd : ∀ m ∈ done, Identified m) (s : Session) :
    (stageMessages done rest).Sat staging () s
      (fun _ s' _ => SameRest s s' ∧ ∀ m ∈ s'.memory, Identified m) fun _ _ _ => False := by
  induction rest generalizing done s with
  | nil => exact ⟨⟨rfl, rfl, rfl, rfl, rfl, rfl, rfl⟩, hd⟩
  | cons m rest ih =>
    rw [stageMessages]
    split
    · next hm =>
      refine ih (done ++ [m]) ?_ s
      intro m' hm'
      rcases List.mem_append.mp hm' with hm' | hm'
      · exact hd m' hm'
      · rw [List.mem_singleton.mp hm']
        exact hm
    · refine Proc.sat_bind.mpr ((Proc.sat_request _).mpr ⟨rfl, fun id _ => ?_⟩)
      refine Proc.sat_bind.mpr ((Proc.sat_request _).mpr ⟨rfl, fun createdAt _ => ?_⟩)
      refine Proc.sat_state_bind.mpr (Proc.sat_update_bind.mpr ?_)
      refine Proc.Sat.mono_post (ih _ ?_ _) ?_
      · intro m' hm'
        rcases List.mem_append.mp hm' with hm' | hm'
        · exact hd m' hm'
        · rw [List.mem_singleton.mp hm']
          exact ⟨rfl, rfl, rfl⟩
      · rintro _ s' _ ⟨hr, hm'⟩
        exact ⟨⟨hr.counts, hr.events, hr.attempts, hr.decisions, hr.rejections, hr.savings,
          hr.known⟩, hm'⟩

/-- A part of the staging that leaves the messages and the journals alone. -/
def Adds {α : Type} (f : SaveM α) : Prop :=
  ∀ s, f.Sat staging () s (fun _ s' _ => SameRest s s' ∧ s'.memory = s.memory) fun _ _ _ => False

theorem Adds.bind {α β : Type} {f : SaveM α} {k : α → SaveM β} (hf : Adds f)
    (hk : ∀ a, Adds (k a)) : Adds (f >>= k) := by
  intro s
  refine Proc.sat_bind.mpr (Proc.Sat.mono (hf s) ?_ fun _ _ _ => False.elim)
  rintro _ s₁ a ⟨h₁, hm₁⟩
  refine Proc.Sat.mono_post (hk a s₁) ?_
  rintro _ s₂ _ ⟨h₂, hm₂⟩
  exact ⟨⟨h₂.counts.trans h₁.counts, h₂.events.trans h₁.events, h₂.attempts.trans h₁.attempts,
    h₂.decisions.trans h₁.decisions, h₂.rejections.trans h₁.rejections,
    h₂.savings.trans h₁.savings, h₂.known.trans h₁.known⟩, hm₂.trans hm₁⟩

theorem Adds.pure {α : Type} (a : α) : Adds (Pure.pure a : SaveM α) := fun s => ⟨.refl s, rfl⟩

theorem Adds.state : Adds (Proc.state : SaveM Session) := fun s => ⟨.refl s, rfl⟩

theorem Adds.request {x : Eff} (hx : fresh x = true) : Adds (Proc.request x : SaveM (Reply x)) :=
  fun s => ⟨hx, fun _ _ => ⟨.refl s, rfl⟩⟩

theorem stageSummary_adds (provenance : Value) : Adds (stageSummary provenance) := by
  refine .bind .state fun s => ?_
  split
  · exact .pure _
  · split
    · exact .pure _
    · refine .bind (.request rfl) fun _ => ?_
      exact fun s => ⟨⟨rfl, rfl, rfl, rfl, rfl, rfl, rfl⟩, rfl⟩

theorem stageSummaries_adds (items : List Value) : Adds (stageSummaries items) := by
  induction items with
  | nil => exact .pure _
  | cons item items ih => exact .bind (stageSummary_adds item) fun _ => ih

theorem archiveEvent_adds (event : Value) : Adds (archiveEvent event) := by
  refine .bind .state fun s => ?_
  split
  · exact fun s => ⟨rfl, fun id _ => ⟨rfl, fun createdAt _ =>
      ⟨⟨rfl, rfl, rfl, rfl, rfl, rfl, rfl⟩, rfl⟩⟩⟩
  · exact .pure _

theorem freeze_ready (hj : Diagnostics.Idle s) (hm : ∀ m ∈ s.memory, Identified m) :
    (freeze event).Sat staging () s (fun _ s' _ => Ready s') fun _ _ _ => False := by
  refine Proc.sat_state_bind.mpr ?_
  split
  · next hfrozen => exact ⟨hj, hm, hfrozen⟩
  · refine Proc.sat_bind.mpr (Proc.Sat.mono (stageSummaries_adds _ s) ?_ fun _ _ _ => False.elim)
    rintro _ s₁ _ ⟨h₁, hm₁⟩
    refine Proc.sat_bind.mpr (Proc.Sat.mono (archiveEvent_adds event s₁) ?_
      fun _ _ _ => False.elim)
    rintro _ s₂ _ ⟨h₂, hm₂⟩
    refine Proc.sat_bind.mpr ((Proc.sat_request _).mpr ⟨rfl, fun id _ => ?_⟩)
    refine ⟨h₂.idle (h₁.idle hj), fun m hmem => ?_, rfl⟩
    have hmem : m ∈ s₂.memory := hmem
    rw [hm₂, hm₁] at hmem
    exact hm m hmem

theorem stageTranscript_ready (s : Session) :
    stageTranscript.Sat staging () s
      (fun _ s' _ => SameRest s s' ∧ ∀ m ∈ s'.memory, Identified m) fun _ _ _ => False :=
  stageMessages_ready [] s.memory (by simp) s

theorem staging_run {α : Type} {f : SaveM α} {post : Unit → Session → α → Prop}
    {err : Unit → Session → SqlError → Prop} (h : f.Sat staging () s post err)
    {es : List (Event Eff Reply)} {out : Except SqlError α}
    (hr : (f s).Runs es (.ret (out, s'))) :
    (∀ ev ∈ es, fresh ev.1 = true) ∧ ∀ a, out = .ok a → post () s' a := by
  refine ⟨fresh_of_run h hr, ?_⟩
  rintro a rfl
  exact Program.Sat.post_of_run h hr (staging_allowed es)

/-- A save stages the session or fails in this, or it proposes the session it has staged. -/
theorem save_runs {es : List (Event Eff Reply)} {out : Except SqlError Unit}
    (h : (save config event s).Runs es (.ret (out, s'))) :
    ((∀ ev ∈ es, fresh ev.1 = true) ∧ ∃ e, out = .error e) ∨
      ∃ staged es₁ es₂, es = es₁ ++ es₂ ∧ (∀ ev ∈ es₁, fresh ev.1 = true) ∧ Ready staged ∧
        (propose config event staged staged).Runs es₂ (.ret (out, s')) := by
  have hstage : (liftOp Diagnostics.stage).Sat staging () s (fun _ s' _ => Diagnostics.Idle s')
      fun _ _ _ => True := by
    rcases hs : Diagnostics.stage s with ⟨_ | ⟨⟩, s₁⟩
    · simp only [Proc.Sat, liftOp, Proc.step, hs, Program.sat_ret]
    · simp only [Proc.Sat, liftOp, Proc.step, hs, Program.sat_ret]
      exact Diagnostics.stage_idle hs
  rw [save_eq] at h
  rcases Proc.runs_bind h with ⟨e, rfl, h₁⟩ | ⟨_, s₁, es₁, es', rfl, h₁, h⟩
  · exact .inl ⟨(staging_run hstage h₁).1, e, rfl⟩
  obtain ⟨hf₁, hidle⟩ := staging_run hstage h₁
  have hidle := hidle _ rfl
  rcases Proc.runs_bind h with ⟨e, rfl, h₂⟩ | ⟨_, s₂, es₂, es'', rfl, h₂, h⟩
  · exact (Program.Sat.post_of_run (stageTranscript_ready s₁) h₂ (staging_allowed _)).elim
  obtain ⟨hf₂, hmessages⟩ := staging_run (stageTranscript_ready s₁) h₂
  obtain ⟨hrest, hmessages⟩ := hmessages _ rfl
  have hfreeze : (freeze event).Sat staging () s₂ (fun _ s' _ => Ready s') fun _ _ _ => False :=
    freeze_ready (hrest.idle hidle) hmessages
  rcases Proc.runs_bind h with ⟨e, rfl, h₃⟩ | ⟨_, s₃, es₃, es₄, rfl, h₃, h⟩
  · exact (Program.Sat.post_of_run hfreeze h₃ (staging_allowed _)).elim
  obtain ⟨hf₃, hready⟩ := staging_run hfreeze h₃
  refine .inr ⟨s₃, es₁ ++ (es₂ ++ es₃), es₄, by simp, ?_, hready _ rfl, h⟩
  intro ev hev
  rcases List.mem_append.mp hev with hev | hev
  · exact hf₁ ev hev
  · rcases List.mem_append.mp hev with hev | hev
    · exact hf₂ ev hev
    · exact hf₃ ev hev

theorem bind_of_ret {α β : Type} {f : SaveM α} {k : α → SaveM β} {s₁ : Session} {a : α}
    (h : f s = .ret (.ok a, s₁)) : (f >>= k) s = k a s₁ := by
  change (f s).bind _ = _
  rw [h]
  rfl

theorem stageMessages_identified (done rest : List Message) (h : ∀ m ∈ rest, Identified m)
    (s : Session) :
    stageMessages done rest s = .ret (.ok (), { s with memory := done ++ rest }) := by
  induction rest generalizing done with
  | nil =>
    rw [List.append_nil]
    rfl
  | cons m rest ih =>
    have hm : m.sequence.isSome ∧ m.messageId.isSome ∧ m.createdAt.isSome :=
      h m List.mem_cons_self
    rw [stageMessages, if_pos hm, ih _ fun m' hm' => h m' (List.mem_cons_of_mem _ hm'),
      List.append_assoc]
    rfl

/-- Where everything is staged, a save proposes the session as it is. -/
theorem save_of_ready (h : Ready s) : save config event s = propose config event s s := by
  rw [save_eq]
  have hstage : liftOp Diagnostics.stage s = .ret (.ok (), s) := by
    rw [liftOp, Proc.step, h.journal.stage]
  have hmessages : stageTranscript s = .ret (.ok (), s) :=
    stageMessages_identified [] s.memory h.messages s
  have hfreeze : freeze event s = .ret (.ok (), s) := by
    rw [freeze, Proc.state_bind_apply, if_pos h.frozen]
    rfl
  rw [bind_of_ret hstage, bind_of_ret hmessages, bind_of_ret hfreeze]
  rfl

/-- Every attempt proposes the same session; the last one has the reply that counts. -/
theorem tryCommit_runs {staged : Session} {n : Nat} {es : List (Event Eff Reply)}
    {out : Except SqlError TransactReply}
    (h : (tryCommit staged config event n s).Runs es (.ret (out, s'))) :
    ∃ es₀ r, es = es₀ ++ [⟨.transact staged config event, r⟩] ∧ out = .ok r ∧
      ∀ ev ∈ es₀, ev.1 = .transact staged config event := by
  induction n generalizing es with
  | zero =>
    cases h with
    | @cons _ r _ _ _ h =>
      cases h
      exact ⟨[], r, rfl, rfl, by simp⟩
  | succ n ih =>
    rw [tryCommit] at h
    rcases Proc.runs_bind h with ⟨e, rfl, h₁⟩ | ⟨r, s₁, es₁, es₂, rfl, h₁, hrest⟩
    · cases h₁ with
      | cons h₁ => cases h₁
    cases h₁ with
    | @cons _ r _ _ _ h₁ =>
    cases h₁
    have answered : ((pure r : SaveM TransactReply) s).Runs es₂ (.ret (out, s')) →
        es₂ = [] ∧ out = .ok r := by
      intro h
      cases h
      exact ⟨rfl, rfl⟩
    cases hresult : TransactReply.result r with
    | ok u =>
      simp only [hresult] at hrest
      obtain ⟨rfl, rfl⟩ := answered hrest
      exact ⟨[], r, rfl, rfl, by simp⟩
    | error e =>
      simp only [hresult] at hrest
      split at hrest
      · obtain ⟨es₀, r', rfl, rfl, hall⟩ := ih hrest
        refine ⟨⟨_, r⟩ :: es₀, r', rfl, rfl, ?_⟩
        intro ev hev
        rcases List.mem_cons.mp hev with rfl | hev
        · rfl
        · exact hall ev hev
      · obtain ⟨rfl, rfl⟩ := answered hrest
        exact ⟨[], r, rfl, rfl, by simp⟩

/-- What becomes of a proposal. -/
theorem propose_runs {staged : Session} {es : List (Event Eff Reply)} {out : Except SqlError Unit}
    (h : (propose config event staged s).Runs es (.ret (out, s'))) :
    (es = [] ∧ ∃ e, out = .error e) ∨
      staged.needsReload = false ∧ ∃ es₀ r, es = es₀ ++ [⟨.transact staged config event, r⟩] ∧
        (∀ ev ∈ es₀, ev.1 = .transact staged config event) ∧
        ((r.result = .ok () ∧ out = .ok () ∧ s' = acknowledge (commitSummaries r.session)) ∨
          ((∃ e, r.result = .error e) ∧ (∃ e, out = .error e) ∧ s' = restore staged r.session)) := by
  unfold propose at h
  split at h
  · cases h
    exact .inl ⟨rfl, _, rfl⟩
  · next hreload =>
    rcases Proc.runs_bind h with ⟨e, rfl, h₁⟩ | ⟨r, s₁, es₁, es₂, rfl, h₁, hrest⟩
    · obtain ⟨_, _, -, hout, -⟩ := tryCommit_runs h₁
      cases hout
    obtain ⟨es₀, r', rfl, hr, hall⟩ := tryCommit_runs h₁
    obtain rfl := Except.ok.inj hr
    refine .inr ⟨by simpa using hreload, es₀, r, ?_⟩
    cases hresult : r.result with
    | ok u =>
      simp only [hresult] at hrest
      cases hrest
      exact ⟨by simp, hall, .inl ⟨rfl, rfl, rfl⟩⟩
    | error e =>
      simp only [hresult] at hrest
      cases hrest
      exact ⟨by simp, hall, .inr ⟨⟨e, rfl⟩, ⟨_, rfl⟩, rfl⟩⟩

/-- Watches that every effect is the transaction of this proposal. -/
def proposing (staged : Session) (config event : Value) : Monitor Eff Reply Unit where
  may _ _ _ := True
  must _ e := e = .transact staged config event
  next _ _ _ := ()

theorem tryCommit_proposes (staged : Session) (n : Nat) :
    (tryCommit staged config event n).Sat (proposing staged config event) () s
      (fun _ _ _ => True) fun _ _ _ => True := by
  induction n with
  | zero => exact ⟨rfl, fun _ _ => trivial⟩
  | succ n ih =>
    rw [tryCommit]
    refine Proc.sat_bind.mpr ((Proc.sat_request _).mpr ⟨rfl, fun r _ => ?_⟩)
    split
    · split
      · exact ih
      · exact trivial
    · exact trivial

/-- A proposal performs its transaction and nothing else, also where it is cut off. -/
theorem propose_events {staged : Session} {es : List (Event Eff Reply)}
    {p : Prog (Except SqlError Unit × Session)} (h : (propose config event staged s).Runs es p) :
    ∀ ev ∈ es, ev.1 = .transact staged config event := by
  have hsat : (propose config event staged).Sat (proposing staged config event) () s
      (fun _ _ _ => True) fun _ _ _ => True := by
    unfold propose
    split
    · trivial
    · refine Proc.sat_bind.mpr (Proc.Sat.mono_post (tryCommit_proposes staged 2) ?_)
      rintro _ s₁ r -
      split <;> trivial
  have hallowed : ∀ es : List (Event Eff Reply), (proposing staged config event).Allowed () es := by
    intro es
    induction es with
    | nil => trivial
    | cons x es ih => exact ⟨trivial, ih⟩
  intro ev hev
  obtain ⟨_, hmust⟩ := (Program.Sat.run hsat h (hallowed es)).1.mem (e := ev.1) (r := ev.2) hev
  exact hmust

end Server

/-! ## Proposals with one encoding -/

namespace Identity

/-- Two values have one canonical encoding. -/
def SameText (host : Host) (v w : Value) : Prop :=
  ∃ t, canonical host v = .ok t ∧ canonical host w = .ok t

variable {host : Host} {v w : Value}

theorem SameText.spelled (hp : host.Prints) (h : SameText host v w) :
    ∃ x, spell host v = .ok x ∧ spell host w = .ok x := by
  obtain ⟨t, hv, hw⟩ := h
  obtain ⟨x, hx, rfl⟩ := spell_of_canonical hv
  obtain ⟨y, hy, htext⟩ := spell_of_canonical hw
  refine ⟨x, hx, ?_⟩
  rw [hy, Spelling.text_injective (spell_grammatical hp hx).tokens (spell_grammatical hp hy).tokens
    (String.ofList_injective htext)]

theorem sameText_of_spelled {x : Spelling} (hv : spell host v = .ok x)
    (hw : spell host w = .ok x) : SameText host v w := by
  refine ⟨.ofList x.text, ?_, ?_⟩
  · rw [canonical_eq, hv]
    rfl
  · rw [canonical_eq, hw]
    rfl

/-- Arrays with one encoding have the same items. -/
theorem SameText.items (hp : host.Prints) {as bs : List Value}
    (h : SameText host (.arr as) (.arr bs)) : List.Forall₂ (SameText host) as bs := by
  obtain ⟨x, hx, hy⟩ := h.spelled hp
  obtain ⟨xs, hxs, rfl⟩ := spell_arr hx
  obtain ⟨ys, hys, hsame⟩ := spell_arr hy
  obtain rfl := Spelling.arr.inj hsame
  have ha := spellItems_ok_iff.mp hxs
  have hb := spellItems_ok_iff.mp hys
  clear hx hy hsame hxs hys h
  induction ha generalizing bs with
  | nil =>
    cases hb
    exact .nil
  | cons hv _ ih =>
    cases hb with
    | cons hw hb => exact .cons (sameText_of_spelled hv hw) (ih hb)

/-- Objects with one encoding have the same fields. -/
theorem SameText.field (hp : host.Prints) {fs gs : List (String × Value)} {k : String}
    (h : SameText host (.obj fs) (.obj gs)) (hk : (gs.map Prod.fst).Nodup) (hv : (k, v) ∈ fs)
    (hw : (k, w) ∈ gs) : SameText host v w := by
  obtain ⟨x, hx, hy⟩ := h.spelled hp
  obtain ⟨xs, hxs, rfl⟩ := spell_obj hx
  obtain ⟨ys, hys, hsame⟩ := spell_obj hy
  have hsame : sortFields xs = sortFields ys := Spelling.obj.inj hsame
  obtain ⟨x, hmx, hx⟩ := exists_spelled hxs hv
  obtain ⟨y, hmy, hy⟩ := exists_spelled hys hw
  have hmx : (k, x) ∈ ys := by
    rw [← (sortFields_perm ys).mem_iff, ← hsame, (sortFields_perm xs).mem_iff]
    exact hmx
  rw [keys_of_spellFields hys] at hk
  have hxy : (k, x) = (k, y) := List.inj_on_of_nodup_map hk hmx hmy rfl
  rw [(Prod.mk.inj hxy).2] at hx
  exact sameText_of_spelled hx hy

end Identity

namespace Storage

open Identity (SameText)

/-- Two proposals stage the same items, each under its canonical encoding. -/
structure SameItems (host : Host) (s x : Session) (event event' : Value) : Prop where
  transcript : List.Forall₂ (SameText host) (s.pendingTranscript.map TranscriptEntry.toValue)
    (x.pendingTranscript.map TranscriptEntry.toValue)
  diagnostics : List.Forall₂ (SameText host) (s.diagnosticsPending.map DiagnosticRecord.toValue)
    (x.diagnosticsPending.map DiagnosticRecord.toValue)
  executions : List.Forall₂ (SameText host) (s.pendingExecutionOutbox.map Execution.toValue)
    (x.pendingExecutionOutbox.map Execution.toValue)
  attempts : List.Forall₂ (SameText host) (s.attemptsPending.map Attempt.toValue)
    (x.attemptsPending.map Attempt.toValue)
  event : SameText host event event'

theorem commitFingerprint_ok {env : Deployment} {s : Session} {config event : Value}
    {fingerprint : String} (h : commitFingerprint env s config event = .ok fingerprint) :
    ∃ resolved text,
      Identity.canonical env.toHost (commitPreimage env s resolved event) = .ok text ∧
        env.sha256 text = fingerprint := by
  unfold commitFingerprint at h
  split at h
  · cases h
  · next c _ =>
    dsimp only at h
    split at h
    · cases h
    · split at h
      · cases h
      · next hash hdigest =>
        obtain rfl := Except.ok.inj h
        obtain ⟨text, htext, hhash⟩ := bind_ok hdigest
        exact ⟨_, text, htext, Except.ok.inj hhash⟩

/-- A fingerprint stands for one proposal, as far as the digest does for one text. -/
theorem sameItems_of_fingerprint {env : Deployment} (hp : env.toHost.Prints)
    (hash : Function.Injective env.sha256) {s x : Session} {config config' event event' : Value}
    {fingerprint : String} (hs : commitFingerprint env s config event = .ok fingerprint)
    (hx : commitFingerprint env x config' event' = .ok fingerprint) :
    SameItems env.toHost s x event event' := by
  obtain ⟨resolved, text, htext, hsha⟩ := commitFingerprint_ok hs
  obtain ⟨resolved', text', htext', hsha'⟩ := commitFingerprint_ok hx
  obtain rfl := hash (hsha.trans hsha'.symm)
  have hall := SameText.items hp ⟨text, htext, htext'⟩
  -- the parts of the preimage that hold the outboxes and the event
  simp only [List.forall₂_cons, List.forall₂_nil_left_iff] at hall
  obtain ⟨-, -, -, -, -, -, -, -, htranscript, houtbox, hdiagnostics, -, -, hevent, -⟩ := hall
  have hkeys : ((([("executions", Value.arr (x.pendingExecutionOutbox.map Execution.toValue)),
      ("attempts", .arr (x.attemptsPending.map Attempt.toValue))] :
        List (String × Value))).map Prod.fst).Nodup := by simp
  exact ⟨htranscript.items hp, hdiagnostics.items hp,
    (houtbox.field hp hkeys List.mem_cons_self List.mem_cons_self).items hp,
    (houtbox.field hp hkeys (List.mem_cons_of_mem _ List.mem_cons_self)
      (List.mem_cons_of_mem _ List.mem_cons_self)).items hp, hevent⟩

/-! ## The environment of a save -/

/-- The tables serve the effects of a save, while anybody else moves them in between. -/
inductive Serves (env : Deployment) : Db → List (Event Eff Reply) → Db → Prop
  | nil {db db' : Db} (h : History env db db') : Serves env db [] db'
  | fresh {db db' : Db} {e : Eff} {r : Reply e} {es : List (Event Eff Reply)}
      (he : Server.fresh e = true) (h : Serves env db es db') : Serves env db (⟨e, r⟩ :: es) db'
  | attempt {db d₁ d₂ db' : Db} {s : Session} {config event : Value} {r : TransactReply}
      {es : List (Event Eff Reply)} (hh : History env db d₁)
      (ha : Attempted env d₁ s config event r d₂) (h : Serves env d₂ es db') :
      Serves env db (⟨.transact s config event, r⟩ :: es) db'

theorem Serves.history {env : Deployment} {db db' : Db} {es : List (Event Eff Reply)}
    (h : Serves env db es db') : History env db db' := by
  induction h with
  | nil h => exact h
  | fresh _ _ ih => exact ih
  | attempt hh ha _ ih => exact (hh.tail ha.moved).trans ih

theorem Serves.of_append {env : Deployment} {db db' : Db} {es fs : List (Event Eff Reply)}
    (h : Serves env db (es ++ fs) db') : ∃ mid, History env db mid ∧ Serves env mid fs db' := by
  induction es generalizing db with
  | nil => exact ⟨db, .refl, h⟩
  | cons ev es ih =>
    cases h with
    | fresh _ h => exact ih h
    | attempt hh ha h =>
      obtain ⟨mid, hmid, h⟩ := ih h
      exact ⟨mid, (hh.tail ha.moved).trans hmid, h⟩

/-- The last effect, when it is an attempt. -/
theorem Serves.last {env : Deployment} {db db' : Db} {s : Session} {config event : Value}
    {r : TransactReply} (h : Serves env db [⟨.transact s config event, r⟩] db') :
    ∃ d₁ d₂, History env db d₁ ∧ Attempted env d₁ s config event r d₂ ∧ History env d₂ db' := by
  cases h with
  | fresh he _ => cases he
  | attempt hh ha h => exact ⟨_, _, hh, ha, h.history⟩

/-! ## The save -/

/-- A failed save leaves the session as it was staged; only a fingerprint may be new. -/
structure Restored (env : Deployment) (staged : Session) (config event : Value) (s' : Session) :
    Prop where
  revision : s'.revision = staged.revision
  sequence : s'.nextTranscriptSequence = staged.nextTranscriptSequence
  memory : s'.memory = staged.memory
  transcript : s'.pendingTranscript = staged.pendingTranscript
  diagnostics : s'.diagnosticsPending = staged.diagnosticsPending
  executions : s'.pendingExecutionOutbox = staged.pendingExecutionOutbox
  attempts : s'.attemptsPending = staged.attemptsPending
  commit : s'.pendingCommitId = staged.pendingCommitId
  fingerprint : s'.pendingCommitFingerprint = staged.pendingCommitFingerprint ∨
    ∃ fingerprint, s'.pendingCommitFingerprint = some fingerprint ∧
      staged.pendingCommitFingerprint = none ∧
        commitFingerprint env staged config event = .ok fingerprint
  whole : s' = { staged with pendingCommitFingerprint := s'.pendingCommitFingerprint }
  proposal : commitFingerprint env s' config event = commitFingerprint env staged config event

theorem restored_fingerprinted {env : Deployment} {staged : Session} {config event : Value}
    {fingerprint : String} (hf : commitFingerprint env staged config event = .ok fingerprint)
    (hsame : ∀ f, staged.pendingCommitFingerprint = some f → f = fingerprint) :
    Restored env staged config event (fingerprinted staged fingerprint) where
  revision := rfl
  sequence := rfl
  memory := rfl
  transcript := rfl
  diagnostics := rfl
  executions := rfl
  attempts := rfl
  commit := rfl
  fingerprint := by
    cases hp : staged.pendingCommitFingerprint with
    | none => exact .inr ⟨fingerprint, rfl, rfl, hf⟩
    | some f =>
      rw [hsame f hp]
      exact .inl rfl
  whole := rfl
  proposal := commitFingerprint_fingerprinted env staged fingerprint config event

theorem restored_proposed (env : Deployment) (staged : Session) (config event : Value) :
    Restored env staged config event (proposed env staged config event) := by
  rcases proposed_cases env staged config event with h | ⟨fingerprint, hf, hsame, h⟩
  · rw [h]
    exact ⟨rfl, rfl, rfl, rfl, rfl, rfl, rfl, rfl, .inl rfl, rfl, rfl⟩
  · rw [h]
    exact restored_fingerprinted hf hsame

/-- Whatever an attempt that broke off has left, the proposal is put back. -/
theorem restore_torn {env : Deployment} {staged left : Session} {config event : Value}
    (h : Torn env staged config event left) :
    Server.restore staged left = proposed env staged config event := by
  obtain ⟨revision, next, memory, rfl⟩ := h
  rcases proposed_cases env staged config event with h | ⟨fingerprint, -, -, h⟩
  · rw [h]
    rfl
  · rw [h]
    rfl

theorem Restored.ready {env : Deployment} {staged s' : Session} {config event : Value}
    (h : Restored env staged config event s') (hs : Server.Ready staged) : Server.Ready s' := by
  obtain ⟨hj, hm, hf⟩ := hs
  refine ⟨?_, ?_, ?_⟩
  · rw [h.whole]
    exact hj
  · rw [h.memory]
    exact hm
  · rw [h.commit]
    exact hf

/-- What a save keeps to, in a run with the effects `es` that ends with `out` and the session `s'`,
and leaves the tables `db'`. `staged` is the session it proposes. -/
structure Retryable (env : Deployment) (config event : Value) (es : List (Event Eff Reply))
    (out : Except SqlError Unit) (s' : Session) (db' : Db) (staged : Session) : Prop where
  /-- Every attempt of the save makes the same proposal. -/
  proposes : ∀ ev ∈ es, Server.fresh ev.1 = true ∨ ev.1 = .transact staged config event
  /-- A save that fails in its transaction leaves what was staged. -/
  failed : ∀ e, out = .error e → (∃ ev ∈ es, ev.1 = .transact staged config event) →
    Restored env staged config event s'
  /-- The save made again makes the proposal that is left, and does nothing else. -/
  again : ∀ e, out = .error e → (∃ ev ∈ es, ev.1 = .transact staged config event) →
    ∀ es' p, (Server.save config event s').Runs es' p →
      ∀ ev ∈ es', ev.1 = .transact s' config event
  /-- A save that succeeds leaves nothing staged. -/
  emptied : out = .ok () → Emptied s'
  /-- Its commit has one receipt, and one transaction of the history wrote the commit, which staged
  the same items. -/
  written : out = .ok () → ∃ commitId fingerprint,
    staged.pendingCommitId.bind env.parseUuid = some commitId ∧
    commitFingerprint env staged config event = .ok fingerprint ∧
    Keyed.Once Receipt.commitId commitId (fun receipt => receipt.fingerprint = fingerprint)
      (db'.tables staged.id).receipts ∧
    ∃ d₁ d₂ x config' event', History env {} d₁ ∧
      Writes env staged.id commitId fingerprint x config' event' d₁ d₂ ∧ History env d₂ db' ∧
        (env.toHost.Prints → Function.Injective env.sha256 →
          SameItems env.toHost staged x event event')

/-- A save that has failed can be made again, and one that has succeeded has written everything once,
wherever its attempts break off and whatever anybody else does to the tables. -/
theorem save_retryable (env : Deployment) {db db' : Db} (hdb : History env {} db)
    {config event : Value} {s s' : Session} {es : List (Event Eff Reply)}
    {out : Except SqlError Unit} (hr : (Server.save config event s).Runs es (.ret (out, s')))
    (hs : Serves env db es db') :
    ∃ staged, Retryable env config event es out s' db' staged := by
  rcases Server.save_runs hr with ⟨hfresh, e, rfl⟩ | ⟨staged, es₁, es₂, rfl, hfresh, hready, hp⟩
  · -- the staging has failed: nothing was proposed
    have hnone : ∀ P : Prop, (∃ ev ∈ es, ev.1 = .transact s config event) → P := by
      rintro P ⟨ev, hev, htransact⟩
      have hno := hfresh ev hev
      rw [htransact] at hno
      cases hno
    exact ⟨s, fun ev hev => .inl (hfresh ev hev), fun _ _ h => hnone _ h, fun _ _ h => hnone _ h,
      fun h => (by cases h), fun h => (by cases h)⟩
  refine ⟨staged, ?_⟩
  have hall : ∀ ev ∈ es₁ ++ es₂,
      Server.fresh ev.1 = true ∨ ev.1 = .transact staged config event := by
    intro ev hev
    rcases List.mem_append.mp hev with hev | hev
    · exact .inl (hfresh ev hev)
    · exact .inr (Server.propose_events hp ev hev)
  rcases Server.propose_runs hp with ⟨rfl, e, rfl⟩ | ⟨hreload, es₀, r, rfl, -, hout⟩
  · -- the session has to be loaded again: nothing was proposed
    have hnone : ∀ P : Prop, (∃ ev ∈ es₁ ++ [], ev.1 = .transact staged config event) → P := by
      rintro P ⟨ev, hev, htransact⟩
      rw [List.append_nil] at hev
      have hno := hfresh ev hev
      rw [htransact] at hno
      cases hno
    exact ⟨hall, fun _ _ h => hnone _ h, fun _ _ h => hnone _ h, fun h => (by cases h),
      fun h => (by cases h)⟩
  obtain ⟨mid, hmid, hs⟩ := hs.of_append
  obtain ⟨mid', hmid', hs⟩ := hs.of_append
  obtain ⟨d₁, d₂, h₁, hattempt, h₂⟩ := hs.last
  have hbefore : History env {} d₁ := ((hdb.trans hmid).trans hmid').trans h₁
  have hsane : Sane d₁ := Sane.empty.history hbefore
  rcases hout with ⟨hok, rfl, rfl⟩ | ⟨⟨e, he⟩, ⟨x, rfl⟩, rfl⟩
  · obtain ⟨now, ⟨-, hresult, hsession, rfl⟩ | ⟨⟨e, he⟩, -⟩⟩ := hattempt
    swap
    · rw [hok] at he
      cases he
    obtain ⟨hempty, commitId, fingerprint, hcommit, hfingerprint, receipt, hreceipt, hid, hprint⟩ :=
      saveInner_ok (hsane.booked staged.id) hresult
    rw [← hsession] at hempty
    refine ⟨hall, fun _ h => (by cases h), fun _ h => (by cases h), fun _ => ?_, fun _ => ?_⟩
    · exact ⟨hempty.transcript, hempty.diagnostics, hempty.executions, hempty.attempts,
        hempty.commit, hempty.fingerprint⟩
    · have hafter := hbefore.tail
        (Attempted.moved ⟨now, .inl ⟨hok, hresult, hsession, rfl⟩⟩ : Moved env d₁ _)
      have hend : History env {} db' := hafter.trans h₂
      have hmem := receipts_grow (Sane.empty.history hafter) h₂ staged.id hreceipt
      obtain ⟨e₁, e₂, x, config', event', hto, hwrites, hfrom⟩ :=
        writes_of_receipt Sane.empty hend rfl hmem
      rw [hid, hprint] at hwrites
      refine ⟨commitId, fingerprint, hcommit, hfingerprint, ?_, e₁, e₂, x, config', event', hto,
        hwrites, hfrom, fun hprints hash => ?_⟩
      · rw [← hid]
        exact Keyed.once_of_mem ((Sane.empty.history hend).inv.sound staged.id).commits hmem hprint
      · exact sameItems_of_fingerprint hprints hash hfingerprint hwrites.fingerprint
  · obtain ⟨now, ⟨hok, -⟩ | ⟨-, htorn, -⟩⟩ := hattempt
    · rw [he] at hok
      cases hok
    have hrestored : Restored env staged config event (Server.restore staged r.session) := by
      rw [restore_torn htorn]
      exact restored_proposed env staged config event
    refine ⟨hall, fun _ _ _ => hrestored, fun _ _ _ es' p hagain => ?_, fun h => (by cases h),
      fun h => (by cases h)⟩
    rw [Server.save_of_ready (hrestored.ready hready)] at hagain
    exact Server.propose_events hagain

theorem sampleSession_ready : Server.Ready sampleSession where
  journal := .inr ⟨rfl, rfl, rfl, rfl, rfl, rfl⟩
  messages := by simp [sampleSession]
  frozen := rfl

/-- The second attempt at the first commit of a session, after the first one was committed. -/
def sampleSecond : Commit :=
  saveInner sampleAgent "now" sampleSession .null (sampleEvent "run_started") sampleCommit.db

theorem sampleSecond_ok : sampleSecond.result = .ok () := by
  have h : (match sampleSecond.result with
    | .ok _ => true
    | .error _ => false) = true := by decide +kernel
  cases hr : sampleSecond.result with
  | ok u => rfl
  | error e =>
    rw [hr] at h
    cases h

/-- The acknowledgement of the first attempt is lost, and the second attempt finds its receipt. -/
theorem save_retryable_lost : ∃ es s' db' staged, es.length = 2 ∧
    Retryable sampleAgent .null (sampleEvent "run_started") es (.ok ()) s' db' staged := by
  let first : TransactReply := ⟨none, .error (.io "connection reset"),
    proposed sampleAgent sampleSession .null (sampleEvent "run_started")⟩
  let second : TransactReply := ⟨none, .ok (), sampleSecond.session⟩
  have hdb : History sampleAgent {} sampleDb :=
    .single (.drift (.command (e := .sql (.administrative Commands.sampleRow "operator"))
      (.inl ⟨rfl, rfl⟩)))
  have hrun : (Server.save .null (sampleEvent "run_started") sampleSession).Runs
      [⟨.transact sampleSession .null (sampleEvent "run_started"), first⟩,
        ⟨.transact sampleSession .null (sampleEvent "run_started"), second⟩]
      (.ret (.ok (), Server.acknowledge (Server.commitSummaries sampleSecond.session))) := by
    rw [Server.save_of_ready sampleSession_ready, Server.propose, if_neg (by decide)]
    exact .cons (.cons (.nil _))
  have hlost : Attempted sampleAgent sampleDb sampleSession .null (sampleEvent "run_started") first
      sampleCommit.db :=
    ⟨"now", .inr ⟨⟨_, rfl⟩, ⟨_, _, _, rfl⟩, .inr rfl⟩⟩
  have hfound : Attempted sampleAgent sampleCommit.db sampleSession .null
      (sampleEvent "run_started") second sampleSecond.db :=
    ⟨"now", .inl ⟨rfl, sampleSecond_ok, rfl, rfl⟩⟩
  obtain ⟨staged, h⟩ := save_retryable sampleAgent hdb hrun
    (.attempt .refl hlost (.attempt .refl hfound (.nil .refl)))
  exact ⟨_, _, _, staged, rfl, h⟩

end Storage

end StateDrivenAgent
