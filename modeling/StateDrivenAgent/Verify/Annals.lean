import StateDrivenAgent.Interaction.Chronicle
import StateDrivenAgent.Spec.Annals
import StateDrivenAgent.Verify.Holding
import StateDrivenAgent.Verify.Journal
import StateDrivenAgent.Verify.Recording

/-!
# The tables answer a worker

Annals that tell what the tables hold are kept by every worker that reads or writes them: a session
that is loaded has the executions its revision has (`load_loads`), and a transaction that is stored
has written what was due on top of the revision it was made for (`transact_answers`). A transaction
that is acknowledged without being stored was stored before, under the same identity.
-/

namespace StateDrivenAgent.Storage

open Interaction
open Keyed (Once)

variable {env : Deployment} {L : Annals} {s : Session} {config event : Value} {db db' : Db}

/-- What the tables hold of a session is what the annals tell of its revision. -/
def Tells (L : Annals) (db : Db) : Prop :=
  ∀ id, (db.tables id).executions = L id (db.tables id).revision

/-! ## One transaction -/

/-- The session a commit leaves. -/
theorem session_of_applyCommit {clock : Int} {now : String} {command : Command}
    {commitId fingerprint : String} {eventId : Int} {t t' : Tables} {s' : Session}
    (h : applyCommit env clock now command commitId fingerprint eventId t s config event =
      .ok (t', s')) :
    ∃ next memory, s' = { s with
      revision := s.revision + 1, nextTranscriptSequence := next, memory } := by
  have hrevision := (applied_of_applyCommit h).revision
  unfold applyCommit at h
  obtain ⟨_, -, h⟩ := bind_ok h
  obtain ⟨_, -, h⟩ := bind_ok h
  obtain ⟨_, -, h⟩ := bind_ok h
  obtain ⟨_, -, h⟩ := bind_ok h
  obtain ⟨⟨_, next⟩, -, h⟩ := bind_ok h
  obtain ⟨_, -, h⟩ := bind_ok h
  obtain ⟨_, -, h⟩ := bind_ok h
  obtain ⟨_, -, h⟩ := bind_ok h
  obtain ⟨⟨_, _⟩, -, h⟩ := bind_ok h
  obtain ⟨memory, -, h⟩ := bind_ok h
  obtain ⟨_, -, h⟩ := bind_ok h
  obtain ⟨_, -, h⟩ := bind_ok h
  obtain ⟨_, -, h⟩ := bind_ok h
  obtain ⟨_, -, h⟩ := bind_ok h
  cases h
  rw [hrevision]
  exact ⟨next, memory, rfl⟩

/-- What a transaction acknowledges that is not stored: an earlier commit under its identity. -/
structure Repeated (env : Deployment) (s : Session) (t : Tables) (s' : Session) : Prop where
  settles : Worker.Settles s s'
  receipt : ∃ receipt ∈ t.receipts, Worker.commitId env s = some receipt.commitId ∧
    s'.revision = receipt.committedRevision

/-- What a transaction leaves that is stored. -/
structure Advanced (s s' : Session) : Prop where
  settles : Worker.Settles s s'
  revision : s'.revision = s.revision + 1

/-- What `save_inner` acknowledges. -/
theorem saveInner_acknowledged (now : String) (hb : Booked (db.tables s.id))
    (h : (saveInner env now s config event db).result = .ok ()) :
    ((saveInner env now s config event db).stored = none ∧
      Repeated env s (db.tables s.id) (saveInner env now s config event db).session) ∨
    ((saveInner env now s config event db).stored.isSome = true ∧
      Advanced s (saveInner env now s config event db).session) := by
  unfold saveInner at h ⊢
  cases hcommit : s.pendingCommitId.bind env.parseUuid with
  | none =>
    rw [hcommit] at h
    cases h
  | some commitId =>
  rw [hcommit] at h
  cases hfingerprint : commitFingerprint env s config event with
  | error e =>
    rw [hfingerprint] at h
    cases h
  | ok fingerprint =>
  rw [hfingerprint] at h
  dsimp only at h ⊢
  split at h
  · cases h
  next hsame =>
  rw [if_neg hsame]
  unfold transact at h ⊢
  split at h
  · cases h
  next command hcommand =>
  split at h
  · cases h
  next hrow =>
  simp only [if_neg hrow]
  cases hfind : (db.tables (fingerprinted s fingerprint).id).receipts.find? fun r =>
      r.commitId = commitId with
  | some receipt =>
    have hmem := List.mem_of_find?_eq_some hfind
    have hfound := List.find?_some hfind
    have hid : receipt.commitId = commitId := of_decide_eq_true hfound
    rw [hfind] at h
    simp only [fromReceipt] at h ⊢
    split at h
    · cases h
    next hprint =>
    rw [if_neg hprint]
    refine .inl ⟨rfl, ⟨rfl, rfl, rfl, rfl⟩, receipt, hmem, ?_, rfl⟩
    rw [hid]
    exact hcommit
  | none =>
    rw [hfind] at h
    dsimp only at h ⊢
    split at h
    · cases h
    next hguard =>
    simp only [if_neg hguard]
    cases hlast : (db.tables (fingerprinted s fingerprint).id).session.filter
        (fun row => row.lastCommitId = some commitId) with
    | some row =>
      obtain ⟨hsession, hcommitted⟩ := Option.filter_eq_some_iff.1 hlast
      obtain ⟨receipt, hmem, hid⟩ := hb.last row commitId hsession (of_decide_eq_true hcommitted)
      exact absurd (decide_eq_true hid) (List.find?_eq_none.1 hfind receipt hmem)
    | none =>
      rw [hlast] at h
      simp only [applied] at h ⊢
      split at h
      · cases h
      next t s' happly =>
      obtain ⟨next, memory, rfl⟩ := session_of_applyCommit happly
      exact .inr ⟨rfl, ⟨rfl, rfl, rfl, rfl⟩, rfl⟩

/-- What stores nothing leaves the tables as they are. -/
theorem transact_unstored {now commitId fingerprint : String}
    (h : (transact env now commitId fingerprint s config event db).stored = none) :
    (transact env now commitId fingerprint s config event db).db = db := by
  unfold transact at h ⊢
  split
  · rfl
  next command hcommand =>
  rw [hcommand] at h
  dsimp only at h
  split
  · rfl
  next hrow =>
  rw [if_neg hrow] at h
  cases hfind : (db.tables s.id).receipts.find? fun r => r.commitId = commitId with
  | some receipt =>
    dsimp only
    unfold fromReceipt
    split
    · rfl
    · rfl
  | none =>
    rw [hfind] at h
    dsimp only at h ⊢
    split
    · rfl
    next hguard =>
    rw [if_neg hguard] at h
    cases hlast : (db.tables s.id).session.filter (fun row => row.lastCommitId = some commitId) with
    | some row =>
      dsimp only
      unfold fromRow
      split
      · rfl
      · rfl
    | none =>
      rw [hlast] at h
      dsimp only [applied] at h ⊢
      split at h
      · rfl
      · cases h

theorem saveInner_unstored {now : String}
    (h : (saveInner env now s config event db).stored = none) :
    (saveInner env now s config event db).db = db := by
  unfold saveInner at h ⊢
  split
  · rfl
  next commitId hcommit =>
  rw [hcommit] at h
  split
  · rfl
  next fingerprint hfingerprint =>
  rw [hfingerprint] at h
  dsimp only at h
  split
  · rfl
  next hsame =>
  rw [if_neg hsame] at h
  exact transact_unstored h

/-- What a transaction does, whether or not its answer arrives. -/
inductive Outcome (env : Deployment) (s : Session) (config event : Value) (db : Db)
    (r : TransactReply) (db' : Db) : Prop
  | left (hstored : r.stored = none) (hdb : db' = db)
      (hok : r.result = .ok () → Repeated env s (db.tables s.id) r.session)
  | committed (hstored : r.stored.isSome = true)
      (hcommitted : Committed env db s.id (db'.tables s.id) (.transact s config event))
      (hothers : ∀ id, id ≠ s.id → db'.tables id = db.tables id)
      (hok : r.result = .ok () → Advanced s r.session)

theorem exec_transact {r : TransactReply} (h : exec env (.transact s config event) db r db')
    (hb : Booked (db.tables s.id)) : Outcome env s config event db r db' := by
  obtain ⟨now, h⟩ := h
  have hanswer : (saveInner env now s config event db).result = .ok () → _ :=
    saveInner_acknowledged now hb
  have hleft : (saveInner env now s config event db).stored = none → _ := saveInner_unstored
  have hcommitted : (saveInner env now s config event db).stored.isSome = true →
      Committed env db s.id ((saveInner env now s config event db).db.tables s.id)
        (.transact s config event) ∧
      ∀ id, id ≠ s.id → (saveInner env now s config event db).db.tables id = db.tables id := by
    intro hsome
    rcases saveInner_cases env now s config event db with
      ⟨-, hnone⟩ | ⟨t, g, commands, hcommitted, -, hdb⟩
    · rw [hnone] at hsome
      cases hsome
    · rw [hdb]
      refine ⟨?_, fun id hid => Db.set_other db t hid⟩
      change Committed env db s.id ((db.set s.id t).tables s.id) _
      rw [Db.set_same]
      exact hcommitted
  generalize saveInner env now s config event db = c at h hanswer hleft hcommitted
  cases hstored : c.stored with
  | none =>
    have hrepeated : c.result = .ok () → Repeated env s (db.tables s.id) c.session := by
      intro hok
      rcases hanswer hok with hrepeated | ⟨hsome, -⟩
      · exact hrepeated.2
      · rw [hstored] at hsome
        cases hsome
    rcases h with ⟨rfl, rfl⟩ | ⟨e, he, -, ⟨hnone, rfl⟩ | ⟨hnone, rfl⟩⟩
    · exact .left hstored (hleft hstored) hrepeated
    · exact .left hnone rfl fun hok => by rw [he] at hok; cases hok
    · exact .left (hnone.trans hstored) (hleft hstored) fun hok => by rw [he] at hok; cases hok
  | some stored =>
    have hsome : c.stored.isSome = true := by rw [hstored]; rfl
    obtain ⟨hc, hothers⟩ := hcommitted hsome
    have hadvanced : c.result = .ok () → Advanced s c.session := fun hok =>
      (hanswer hok).elim (fun hnone => by rw [hstored] at hnone; cases hnone.1) And.right
    rcases h with ⟨rfl, rfl⟩ | ⟨e, he, -, ⟨hnone, rfl⟩ | ⟨hnone, rfl⟩⟩
    · exact .committed hsome hc hothers hadvanced
    · exact .left hnone rfl fun hok => by rw [he] at hok; cases hok
    · exact .committed (hnone ▸ hsome) hc hothers fun hok => by rw [he] at hok; cases hok

/-! ## Stored identities -/

/-- The stored state of a session has its identity. -/
def Named (t : Tables) (id : String) : Prop :=
  ∀ row, t.session = some row → row.state.get "id" = some (.str id)

theorem Named.empty (id : String) : Named {} id := fun row h => by cases h

theorem named_updateSession {f : SessionRow → SessionRow} (hf : ∀ r, (f r).state = r.state)
    (id : String) (h : ∀ id, Named (db.tables id) id) (id' : String) :
    Named ((db.updateSession id f).tables id') id' := by
  by_cases heq : id' = id
  · subst heq
    rw [Db.updateSession, Db.set_same]
    intro row hrow
    obtain ⟨r, hr, rfl⟩ := Option.map_eq_some_iff.1 hrow
    rw [hf]
    exact h id' r hr
  · rw [Db.updateSession, Db.set_other _ _ heq]
    exact h id'

theorem named_lease (h : ∀ id, Named (db.tables id) id) (id owner id' : String) :
    Named ((acquireLease db id owner).2.tables id') id' := by
  unfold acquireLease
  split
  · refine named_updateSession ?_ id h id'
    exact fun _ => rfl
  · exact h id'

theorem named_renew (h : ∀ id, Named (db.tables id) id) (id owner : String) (fence : Int)
    (id' : String) : Named ((renewLease db id owner fence).2.tables id') id' := by
  unfold renewLease
  split
  · refine named_updateSession ?_ id h id'
    exact fun _ => rfl
  · exact h id'

theorem named_release (h : ∀ id, Named (db.tables id) id) (id owner : String) (fence : Int)
    (id' : String) : Named ((releaseLease db id owner fence).tables id') id' := by
  unfold releaseLease
  split
  · refine named_updateSession ?_ id h id'
    exact fun _ => rfl
  · exact h id'

theorem Committed.named {e : Eff} {id : String} {t' : Tables} (h : Committed env db id t' e) :
    Named t' id := by
  obtain ⟨hid, -, -, -, -, -, -, happly⟩ := h
  obtain ⟨_, revision, next, memory, -, rfl, ⟨row, hrow, hstate⟩, -⟩ := applyCommit_journal happly
  intro row' hrow'
  obtain rfl := Option.some.inj (hrow.symm.trans hrow')
  rw [hstate, snapshot_get _ _ (by decide), if_neg (by decide), ← hid]
  rfl

theorem exec_named {e : Eff} {r : Reply e} (h : exec env e db r db') (hb : ∀ id, Booked (db.tables id))
    (hn : ∀ id, Named (db.tables id) id) (id : String) : Named (db'.tables id) id := by
  have same : db' = db → Named (db'.tables id) id := fun hdb => hdb ▸ hn id
  cases e with
  | transact s config event =>
    rcases exec_transact h (hb s.id) with ⟨-, hdb, -⟩ | ⟨-, hcommitted, hothers, -⟩
    · exact same hdb
    · by_cases heq : id = s.id
      · exact heq ▸ hcommitted.named
      · exact hothers id heq ▸ hn id
  | acquireLease id' =>
    obtain ⟨owner, -, ⟨-, rfl⟩ | ⟨-, -, hdb | rfl⟩⟩ := h
    · exact named_lease hn id' owner id
    · exact same hdb
    · exact named_lease hn id' owner id
  | releaseLease id' owner fence =>
    rcases h with hdb | rfl
    · exact same hdb
    · exact named_release hn id' owner fence id
  | requestCancel run =>
    rcases h with hdb | rfl
    · exact same hdb
    · exact hn id
  | markUncertain command =>
    rcases h with hdb | rfl
    · exact same hdb
    · exact hn id
  | cancelRequested | historicalCallIds | committedResponse | load => exact same h.1
  | _ => exact same h

theorem named_drift (hd : Drift db db') (hn : ∀ id, Named (db.tables id) id) (id : String) :
    Named (db'.tables id) id := by
  cases hd with
  | command | time | sequence => exact hn id
  | renew id' owner fence => exact named_renew hn id' owner fence id
  | cancel p => exact hn id

/-! ## What every run keeps -/

/-- What holds of the tables of every run. -/
structure Lawful (env : Deployment) (db : Db) : Prop where
  sane : Sane db
  actions : ∀ id, SoundActions env (db.tables id)
  named : ∀ id, Named (db.tables id) id

theorem Lawful.empty (env : Deployment) : Lawful env {} := ⟨.empty, fun _ => .empty env, Named.empty⟩

theorem Lawful.moved (h : Lawful env db) (hm : Moved env db db') (hn : ∀ id, Named (db'.tables id) id) :
    Lawful env db' :=
  ⟨h.sane.moved hm, fun id => (moved_follows hm h.sane.inv id (h.actions id)).1, hn⟩

theorem preserves_lawful {α : Type} : (machine env α).Preserves (Lawful env) where
  exec h hex := h.moved (.effect hex) (exec_named hex h.sane.booked h.named)
  drift h hd := h.moved (.drift hd) (named_drift hd h.named)

theorem Kept.revision {t t' : Tables} (h : Kept t t') : t'.revision = t.revision := by
  have hrow := h.row
  unfold Tables.revision
  cases ht : t.session with
  | none =>
    cases ht' : t'.session with
    | none => rfl
    | some row' =>
      rw [ht, ht'] at hrow
      cases hrow
  | some row =>
    cases ht' : t'.session with
    | none =>
      rw [ht, ht'] at hrow
      cases hrow
    | some row' =>
      rw [ht, ht'] at hrow
      exact congrArg Prod.fst (Option.some.inj hrow)

/-- A commit is made on top of the revision it was made for, and leads to the next one. -/
theorem Committed.revision {id : String} {t' : Tables}
    (h : Committed env db id t' (.transact s config event)) :
    s.id = id ∧ (db.tables id).revision = s.revision ∧ t'.revision = s.revision + 1 := by
  obtain ⟨hid, -, -, -, -, -, happlied, -⟩ := h
  obtain ⟨row, hrow, hrevision, -⟩ := happlied.row
  refine ⟨hid, happlied.revision, ?_⟩
  unfold Tables.revision
  rw [hrow]
  exact hrevision

/-- A move leaves the executions of a session as they are, or leads to a new revision. -/
theorem versioned_of_moved (h : Moved env db db') (hl : Lawful env db) :
    Pool.Versioned (fun db id => (db.tables id).revision) (fun db id => (db.tables id).executions)
      db db' := by
  intro id
  rcases moved_cases h hl.sane.inv id with ⟨hkept, hsame⟩ | ⟨e, hcommitted⟩
  · exact .inl ⟨hkept.revision, hsame.executions⟩
  · have hc := hcommitted
    obtain ⟨-, -, -, -, -, -, -, -⟩ := hcommitted
    obtain ⟨-, hold, hnew⟩ := hc.revision
    refine .inr ?_
    change (db.tables id).revision < (db'.tables id).revision
    rw [hold, hnew]
    exact Int.lt_succ _

/-! ## Loading -/

/-- What the decoder reads of the identity, and what it leaves to the defaults. -/
theorem decode_held {v : Value} (h : Decode.session v = some s) :
    (v.get "id").bind Value.asStr = some s.id ∧ s.pendingExecutionOutbox = [] ∧
      s.pendingCommitId = none := by
  unfold Decode.session at h
  iterate 2 obtain ⟨_, -, h⟩ := bind_some h
  obtain ⟨_, hid, h⟩ := bind_some h
  iterate 44 obtain ⟨_, -, h⟩ := bind_some h
  cases h
  exact ⟨hid, rfl, rfl⟩

theorem restored_held {t : Tables} {state : Value} {id : String}
    (hstate : state.get "id" = some (.str id)) (h : restored t state = some s) :
    s.id = id ∧ s.pendingExecutionOutbox = [] ∧ s.pendingCommitId = none := by
  obtain ⟨context, -, h⟩ := bind_some h
  obtain ⟨hid, houtbox, hcommit⟩ := decode_held h
  refine ⟨?_, houtbox, hcommit⟩
  cases state with
  | obj fields =>
    rw [Value.set, Value.set, Value.get_set_of_ne (by decide), Value.get_obj,
      lookup_insertField_of_ne _ _ _ _ (by decide), lookup_insertField_of_ne _ _ _ _ (by decide)]
      at hid
    rw [Value.get_obj] at hstate
    rw [hstate] at hid
    exact (Option.some.inj hid).symm
  | _ => cases hstate

theorem push_held {family : String} {payload : Value} {s' : Session}
    (h : Diagnostics.push family s payload = .ok s') : s'.held = s.held := by
  unfold Diagnostics.push at h
  split_ifs at h
  · split at h
    · cases h
      rfl
    · cases h
  · cases h
    rfl
  · cases h
    rfl

theorem foldlM_held {β : Type} {f : Session → β → Except String Session}
    (hf : ∀ {s b s'}, f s b = .ok s' → s'.held = s.held) {bs : List β} {s' : Session}
    (h : bs.foldlM f s = .ok s') : s'.held = s.held := by
  induction bs generalizing s with
  | nil =>
    cases h
    rfl
  | cons b bs ih =>
    obtain ⟨mid, hmid, h⟩ := bind_ok h
    exact (ih h).trans (hf hmid)

theorem restoreFamily_held {legacy : Bool} {records : List DiagnosticRecord}
    {counts : List (String × Int)} {family : String} {s' : Session}
    (h : Diagnostics.restoreFamily legacy records counts s family = .ok s') : s'.held = s.held := by
  unfold Diagnostics.restoreFamily at h
  dsimp only at h
  split_ifs at h
  · exact foldlM_held (fun h => push_held h) h
  · exact foldlM_held (fun h => push_held h) h

theorem hydrate_held {records : List DiagnosticRecord} {counts : List (String × Int)} {s' : Session}
    (h : Diagnostics.hydrate records counts s = .ok s') : s'.held = s.held := by
  unfold Diagnostics.hydrate at h
  obtain ⟨s₁, hnumbered, h⟩ := bind_ok h
  have hs₁ : s₁.held = s.held := by
    unfold Diagnostics.numbered at hnumbered
    split at hnumbered
    · have hstage := Diagnostics.stage_held s
      split at hnumbered
      · cases hnumbered
      next s₂ hs₂ =>
        rw [hs₂] at hstage
        split at hnumbered
        · cases hnumbered
          exact hstage
        · cases hnumbered
    · cases hnumbered
      rfl
  split at h
  · cases h
  · obtain ⟨s₂, hfamilies, h⟩ := bind_ok h
    cases h
    have hs₂ := foldlM_held (fun h => restoreFamily_held h) hfamilies
    exact hs₂.trans hs₁

/-- A session as it is loaded has what the annals tell of its revision. -/
theorem load_loads {id : String} {value : Value} (ht : Tells L db) (hn : ∀ id, Named (db.tables id) id)
    (h : load env db id = some (s, value)) : Worker.Loads L s := by
  unfold load at h
  obtain ⟨key, -, h⟩ := bind_some h
  obtain ⟨row, hrow, h⟩ := bind_some h
  obtain ⟨context, -, h⟩ := bind_some h
  obtain ⟨_, -, h⟩ := bind_some h
  obtain ⟨s₀, hrestored, h⟩ := bind_some h
  obtain ⟨_, -, h⟩ := bind_some h
  obtain ⟨_, hrevision, h⟩ := bind_some h
  obtain ⟨s₁, hhydrated, h⟩ := bind_some h
  obtain ⟨_, -, h⟩ := bind_some h
  obtain ⟨_, -, h⟩ := bind_some h
  obtain ⟨_, -, h⟩ := bind_some h
  obtain ⟨_, -, h⟩ := bind_some h
  cases h
  obtain ⟨hid, houtbox, hcommit⟩ := restored_held (hn key row hrow) hrestored
  have hheld : s₁.held = s₀.held := by
    cases hs₁ : hydrated (db.tables key) s₀ with
    | error problem =>
      rw [hs₁] at hhydrated
      cases hhydrated
    | ok s =>
      rw [hs₁] at hhydrated
      obtain rfl := Option.some.inj hhydrated
      exact hydrate_held hs₁
  have hrevision : s₀.revision = row.revision := by
    by_contra hne
    rw [guard, if_neg hne] at hrevision
    cases hrevision
  refine ⟨fun x hx => ?_, (congrArg Holding.outbox hheld).trans houtbox,
    (congrArg Holding.commit hheld).trans hcommit⟩
  obtain ⟨r, hr, rfl⟩ := List.mem_map.1 hx
  change L.Known s₁.id s₁.revision _
  rw [show s₁.id = key from (congrArg Holding.id hheld).trans hid,
    show s₁.revision = (db.tables key).revision by
      rw [show s₁.revision = s₀.revision from congrArg Holding.revision hheld, hrevision]
      unfold Tables.revision
      rw [hrow]
      rfl]
  refine ⟨r, ?_, rfl, rfl, rfl⟩
  rw [← ht key]
  exact List.mem_of_mem_filter hr

/-! ## Committing -/

/-- A commit writes the rows that are due. -/
theorem Committed.due {id : String} {t' : Tables}
    (h : Committed env db id t' (.transact s config event)) (hk : Keys (db.tables id))
    (hold : (db.tables id).executions = L id s.revision)
    (hnew : t'.executions = L id (s.revision + 1))
    (hnodup : (s.pendingExecutionOutbox.map Execution.executionId).Nodup) {x : Execution}
    (hx : L.Due s.revision s x) : L.Known id (s.revision + 1) x := by
  obtain ⟨rfl, -, -, -, -, -, -, happly⟩ := h
  unfold Annals.Known
  rw [← hnew]
  rcases hx with hx | ⟨⟨r, hr, hid, hcall, hattempts⟩, hother⟩
  · obtain ⟨last, hlast, row, hrow, hholds⟩ :=
      (written_of_applyCommit happly hk).2.executions x hx
    have hlast := List.mem_filter.1 (List.mem_of_getLast? hlast)
    obtain rfl : last = x :=
      List.inj_on_of_nodup_map hnodup hlast.1 hx (of_decide_eq_true hlast.2)
    have hmem : row ∈ t'.executions.filter fun r => executionKey r = last.executionId := by
      rw [hrow]
      exact List.mem_singleton_self row
    obtain ⟨hmem, hkey⟩ := List.mem_filter.1 hmem
    exact ⟨row, hmem, of_decide_eq_true hkey, hholds.call, hholds.attempts⟩
  · obtain ⟨hexecutions, -⟩ := writeToolExecutions_ok (actions_of_applyCommit happly)
    have hputs : ∀ (s : Session) (rows : List ExecutionRow) (item : Execution)
        (rows' : List ExecutionRow), (rows.map executionKey).Nodup →
          writeExecution env s rows item = .ok rows' →
            Keyed.Puts executionKey item.executionId (HoldsExecution env item) rows rows' :=
      fun _ _ _ _ => writeExecution_puts
    refine ⟨r, ?_, hid, hcall, hattempts⟩
    exact Keyed.others_of_foldlM (hputs _) _ hexecutions hk.executions (hold ▸ hr) (hid ▸ hother)

/-- The reply to a transaction. What is acknowledged without being stored has to be known of. -/
theorem transact_answers {r : TransactReply} {g : Worker}
    (h : exec env (.transact s config event) db r db') (hl : Lawful env db) (ht : Tells L db)
    (ht' : Tells L db')
    (hreceipts : ∀ receipt ∈ (db.tables s.id).receipts,
      Worker.commitId env s = some receipt.commitId →
        (receipt.commitId, receipt.committedRevision) ∈ g.commits) :
    Worker.Answers env L g s r := by
  rcases exec_transact h (hl.sane.booked s.id) with
    ⟨hnone, -, hok⟩ | ⟨hsome, hcommitted, -, hok⟩
  · refine ⟨fun hsome => ?_, fun h => (hok h).settles, fun h => ?_⟩
    · rw [hnone] at hsome
      cases hsome
    · obtain ⟨receipt, hmem, hid, hrevision⟩ := (hok h).receipt
      exact ⟨receipt.commitId, hid, .inl (hrevision ▸ hreceipts receipt hmem hid)⟩
  · obtain ⟨-, hold, hnew⟩ := hcommitted.revision
    refine ⟨fun _ hnodup x hx => ?_, fun h => (hok h).settles, fun h => ?_⟩
    · exact hcommitted.due (hl.sane.booked s.id).keys (hold ▸ ht s.id) (hnew ▸ ht' s.id) hnodup hx
    · have hc := hcommitted
      obtain ⟨-, -, -, hcommit, -, -, -, -⟩ := hcommitted
      exact ⟨_, hcommit, .inr ⟨hsome, (hok h).revision⟩⟩

end StateDrivenAgent.Storage
