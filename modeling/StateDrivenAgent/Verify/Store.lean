import StateDrivenAgent.Storage.Exec
import StateDrivenAgent.Verify.Commands

/-!
# The commit protocol of a session

Any number of workers run any programs over the tables. `applied_of_applyCommit` says once what a
commit needs and what it leaves; `Moves` says what any effect can do to the tables of one session:
move its lease, flag its runs, or commit. From it follow the invariant of a session's tables
(`Sound`) and what only grows (`Grows`): the receipts and the transcript. A commit identity that has a
receipt is answered from it.
-/

namespace StateDrivenAgent.Storage

open Interaction
open Commands (CommandDb CommandRow Query TableInv)

/-! ## Rows that are numbered from one -/

/-- The rows have the numbers 1, 2, … in order. -/
def Numbered {α : Type} (number : α → Int) (rows : List α) : Prop :=
  ∀ (i : Nat) a, rows[i]? = some a → number a = i + 1

theorem Numbered.nil {α : Type} (number : α → Int) : Numbered number [] := by
  intro i a h
  simp at h

theorem Numbered.concat {α : Type} {number : α → Int} {rows : List α} {a : α}
    (h : Numbered number rows) (ha : number a = rows.length + 1) :
    Numbered number (rows ++ [a]) := by
  intro i b hb
  rw [List.getElem?_append] at hb
  split at hb
  · exact h i b hb
  · next hi =>
    rw [List.getElem?_singleton] at hb
    split at hb
    · next hz =>
      have hb : a = b := Option.some.inj hb
      have hi : i = rows.length := by omega
      rw [← hb, hi]
      exact ha
    · cases hb

/-- A numbered row is not above the number of rows. -/
theorem Numbered.le_length {α : Type} {number : α → Int} {rows : List α} {a : α}
    (h : Numbered number rows) (ha : a ∈ rows) : number a ≤ rows.length := by
  obtain ⟨i, hi, rfl⟩ := List.getElem_of_mem ha
  have hn := h i _ (List.getElem?_eq_getElem hi)
  omega

/-! ## The transcript -/

/-- The next row can be appended to the transcript under the number `next`. -/
def Open (rows : List TranscriptEntry) (next : Int) : Prop :=
  Numbered TranscriptEntry.sequence rows ∧ next = rows.length + 1

theorem Open.concat {rows : List TranscriptEntry} {row : TranscriptEntry} {next : Int}
    (h : Open rows next) (hr : row.sequence = next) : Open (rows ++ [row]) (next + 1) := by
  obtain ⟨hn, hnext⟩ := h
  refine ⟨hn.concat (hr.trans hnext), ?_⟩
  rw [hnext]
  simp

/-- The transcript grew from `rows` to `rows'`. -/
def Appended (rows rows' : List TranscriptEntry) (next next' : Int) : Prop :=
  rows <+: rows' ∧ (Open rows next → Open rows' next')

theorem Appended.refl (rows : List TranscriptEntry) (next : Int) : Appended rows rows next next :=
  ⟨List.prefix_refl rows, id⟩

theorem Appended.trans {rows rows' rows'' : List TranscriptEntry} {next next' next'' : Int}
    (h : Appended rows rows' next next') (h' : Appended rows' rows'' next' next'') :
    Appended rows rows'' next next'' :=
  ⟨h.1.trans h'.1, fun ho => h'.2 (h.2 ho)⟩

theorem Appended.concat (rows : List TranscriptEntry) {row : TranscriptEntry} {next : Int}
    (hr : row.sequence = next) : Appended rows (rows ++ [row]) next (next + 1) :=
  ⟨List.prefix_append _ _, fun ho => ho.concat hr⟩

theorem appendEntry_appended {env : Deployment} {a a' : Appending} {entry : TranscriptEntry}
    (h : appendEntry env a entry = .ok a') : Appended a.rows a'.rows a.next a'.next := by
  obtain ⟨_, -, h⟩ := bind_ok h
  split at h
  · obtain ⟨_, -, h⟩ := bind_ok h
    cases h
    exact .refl _ _
  · cases h
    exact .concat a.rows rfl

theorem appendEntries_appended {env : Deployment} {a a' : Appending}
    {entries : List TranscriptEntry} (h : appendEntries env a entries = .ok a') :
    Appended a.rows a'.rows a.next a'.next := by
  induction entries generalizing a with
  | nil =>
    cases h
    exact .refl _ _
  | cons entry entries ih =>
    obtain ⟨b, hb, h⟩ := bind_ok h
    exact (appendEntry_appended hb).trans (ih h)

theorem appendSummary_appended {env : Deployment} {goal now : String} {step next : Int}
    {rows : List TranscriptEntry} {provenance : Value} {out : List TranscriptEntry × Int}
    (h : appendSummary env goal step now rows next provenance = .ok out) :
    Appended rows out.1 next out.2 := by
  unfold appendSummary at h
  split at h
  · cases h
    exact .refl _ _
  · split at h
    · cases h
    · obtain ⟨_, -, h⟩ := bind_ok h
      split at h
      · obtain ⟨_, -, h⟩ := bind_ok h
        cases h
        exact .refl _ _
      · cases h
        exact .concat rows rfl

theorem appendSummaries_appended {env : Deployment} {goal now : String} {step next : Int}
    {rows : List TranscriptEntry} {provenances : List Value} {out : List TranscriptEntry × Int}
    (h : appendSummaries env goal step now rows next provenances = .ok out) :
    Appended rows out.1 next out.2 := by
  induction provenances generalizing rows next with
  | nil =>
    cases h
    exact .refl _ _
  | cons p ps ih =>
    obtain ⟨mid, hmid, h⟩ := bind_ok h
    exact (appendSummary_appended hmid).trans (ih h)

/-! ## One commit -/

/-- The lease a session commits under: it is the live one, or there is none on either side. -/
inductive HoldsLease (env : Deployment) (clock : Int) (sessionOwner : Option String)
    (sessionFence : Option Int) : Option SessionRow → Prop
  | owned {row : SessionRow} {text owner : String} (ht : sessionOwner = some text)
      (hp : env.parseUuid text = some owner) (ho : row.leaseOwner = some owner)
      (hf : sessionFence = some row.leaseFence) (hl : row.leaseLive clock = true) :
      HoldsLease env clock sessionOwner sessionFence (some row)
  | unowned {row : SessionRow} (hs : sessionOwner = none) (ho : row.leaseOwner = none) :
      HoldsLease env clock sessionOwner sessionFence (some row)
  | first (hs : sessionOwner = none) : HoldsLease env clock sessionOwner sessionFence none

/-- What a commit that is applied finds and leaves. -/
structure Applied (env : Deployment) (clock : Int) (command : Command)
    (commitId fingerprint : String) (t : Tables) (s : Session) (t' : Tables) : Prop where
  revision : t.session.elim 0 SessionRow.revision = s.revision
  lease : HoldsLease env clock s.executionOwner s.executionFence t.session
  transcript : t.transcript <+: t'.transcript
  numbered : Numbered TranscriptEntry.sequence t.transcript →
    Numbered TranscriptEntry.sequence t'.transcript
  receipts : t'.receipts =
    t.receipts ++ [⟨commitId, command.id, fingerprint, s.revision, s.revision + 1⟩]
  row : ∃ row, t'.session = some row ∧ row.revision = s.revision + 1 ∧
    row.lastCommitId = some commitId ∧ row.lastCommitSha256 = some fingerprint

theorem leaseAllows_owner {env : Deployment} {clock : Int} {s : Session} {row : SessionRow}
    (h : leaseAllows env clock s row = true) :
    row.leaseOwner = s.executionOwner.bind env.parseUuid := by
  simp only [leaseAllows, Bool.and_eq_true, decide_eq_true_eq] at h
  exact h.1

theorem checkPrevious_ok {env : Deployment} {clock : Int} {s : Session} {config : Value}
    {row : Option SessionRow} {u : Unit} (h : checkPrevious env clock s config row = .ok u) :
    row.elim 0 SessionRow.revision = s.revision ∧
      ∀ r, row = some r → r.leaseOwner = s.executionOwner.bind env.parseUuid := by
  cases row with
  | none =>
    have h0 := of_decide_eq_true (require_ok h)
    exact ⟨h0.symm, by simp⟩
  | some r =>
    obtain ⟨_, hrev, h⟩ := bind_ok h
    obtain ⟨_, -, h⟩ := bind_ok h
    obtain ⟨_, -, h⟩ := bind_ok h
    refine ⟨of_decide_eq_true (require_ok hrev), ?_⟩
    rintro _ ⟨⟩
    exact leaseAllows_owner (require_ok h)

theorem checkLease_ok {env : Deployment} {clock : Int} {s : Session} {row : SessionRow} {u : Unit}
    (h : checkLease env clock s row = .ok u) :
    s.executionOwner = none ∨ ∃ text owner, s.executionOwner = some text ∧
      env.parseUuid text = some owner ∧ row.leaseOwner = some owner ∧
        s.executionFence = some row.leaseFence ∧ row.leaseLive clock = true := by
  unfold checkLease at h
  split at h
  · next hs => exact .inl hs
  · next text hs =>
    split at h
    · cases h
    · next owner hp =>
      have hc := require_ok h
      simp only [Bool.and_eq_true, decide_eq_true_eq] at hc
      exact .inr ⟨text, owner, hs, hp, hc.1.1, hc.1.2, hc.2⟩

/-- What a retention pass keeps: everything but telemetry. -/
theorem retentionWrite_keeps {env : Deployment} {s : Session} {t t' : Tables}
    (h : retentionWrite env s t = .ok t') :
    t'.session = t.session ∧ t'.receipts = t.receipts ∧ t'.transcript = t.transcript ∧
      t'.runs = t.runs ∧ t'.executions = t.executions ∧ t'.attempts = t.attempts ∧
      t'.context = t.context ∧ t'.calls = t.calls := by
  unfold retentionWrite at h
  split at h
  · cases h
    simp
  · obtain ⟨_, -, h⟩ := bind_ok h
    obtain ⟨_, -, h⟩ := bind_ok h
    obtain ⟨_, -, h⟩ := bind_ok h
    cases h
    simp

/-- A commit is applied only to the revision it was made for, only under the lease, and it leaves one
new receipt. -/
theorem applied_of_applyCommit {env : Deployment} {clock : Int} {now : String} {command : Command}
    {commitId fingerprint : String} {eventId : Int} {t t' : Tables} {s s' : Session}
    {config event : Value}
    (h : applyCommit env clock now command commitId fingerprint eventId t s config event =
      .ok (t', s')) :
    Applied env clock command commitId fingerprint t s t' := by
  unfold applyCommit at h
  obtain ⟨_, hprev, h⟩ := bind_ok h
  obtain ⟨hrev, howner⟩ := checkPrevious_ok hprev
  obtain ⟨_, hgap, h⟩ := bind_ok h
  have hgap := of_decide_eq_true (require_ok hgap)
  obtain ⟨_, -, h⟩ := bind_ok h
  obtain ⟨appended, happ, h⟩ := bind_ok h
  obtain ⟨⟨transcript, next⟩, hsum, h⟩ := bind_ok h
  obtain ⟨_, -, h⟩ := bind_ok h
  obtain ⟨_, -, h⟩ := bind_ok h
  obtain ⟨_, -, h⟩ := bind_ok h
  obtain ⟨⟨_, _⟩, -, h⟩ := bind_ok h
  obtain ⟨_, -, h⟩ := bind_ok h
  obtain ⟨_, -, h⟩ := bind_ok h
  obtain ⟨t₁, hret, h⟩ := bind_ok h
  obtain ⟨_, -, h⟩ := bind_ok h
  obtain ⟨_, hlease, h⟩ := bind_ok h
  obtain ⟨hsession, hreceipts, htranscript, -⟩ := retentionWrite_keeps hret
  rw [hsession] at hlease
  cases h
  have hgrown := (appendEntries_appended happ).trans (appendSummaries_appended hsum)
  refine ⟨hrev, ?_, ?_, ?_, ?_, ?_⟩
  · cases hrow : t.session with
    | none =>
      rw [hrow] at hlease
      rcases checkLease_ok hlease with hs | ⟨_, _, -, -, ho, -⟩
      · exact .first hs
      · simp [firstRow] at ho
    | some row =>
      rw [hrow] at hlease
      rcases checkLease_ok hlease with hs | ⟨_, _, hs, hp, ho, hf, hl⟩
      · refine .unowned hs ?_
        rw [howner row hrow, hs]
        rfl
      · exact .owned hs hp ho hf hl
  · rw [htranscript]
    exact hgrown.1
  · intro hn
    rw [htranscript]
    exact (hgrown.2 ⟨hn, by simp [hgap]⟩).1
  · simp [hreceipts, hrev]
  · exact ⟨_, rfl, by simp [hrev], rfl, rfl⟩

/-! ## The invariant of a session's tables -/

structure Sound (t : Tables) : Prop where
  /-- The session is at the revision of its last receipt. -/
  revision : t.session.elim 0 SessionRow.revision = t.receipts.length
  receipts : Numbered Receipt.committedRevision t.receipts
  commits : (t.receipts.map Receipt.commitId).Nodup
  transcript : Numbered TranscriptEntry.sequence t.transcript

theorem Sound.empty : Sound {} := by
  refine ⟨rfl, .nil _, ?_, .nil _⟩
  simp

theorem Sound.applied {env : Deployment} {clock : Int} {command : Command}
    {commitId fingerprint : String} {t t' : Tables} {s : Session} (h : Sound t)
    (hnew : commitId ∉ t.receipts.map Receipt.commitId)
    (ha : Applied env clock command commitId fingerprint t s t') : Sound t' := by
  have hrev : s.revision = t.receipts.length := ha.revision.symm.trans h.revision
  refine ⟨?_, ?_, ?_, ha.numbered h.transcript⟩
  · obtain ⟨row, hrow, hr, -⟩ := ha.row
    rw [hrow, ha.receipts]
    simp [hr, hrev]
  · rw [ha.receipts]
    refine h.receipts.concat ?_
    simp [hrev]
  · rw [ha.receipts, List.map_append, List.nodup_append]
    refine ⟨h.commits, by simp, ?_⟩
    rintro a hmem b hb rfl
    simp only [List.map_cons, List.map_nil, List.mem_singleton] at hb
    exact hnew (hb ▸ hmem)

/-- The columns a commit writes. -/
def SessionRow.commit (r : SessionRow) : Int × Option String × Option String :=
  (r.revision, r.lastCommitId, r.lastCommitSha256)

/-- What a run's row says of its outcome. -/
def RunRow.outcome (r : RunRow) : String × String := (r.runId, r.status)

/-- Nothing was committed. -/
structure Kept (t t' : Tables) : Prop where
  row : t'.session.map SessionRow.commit = t.session.map SessionRow.commit
  receipts : t'.receipts = t.receipts
  transcript : t'.transcript = t.transcript
  events : t'.events = t.events
  runs : t'.runs.map RunRow.outcome = t.runs.map RunRow.outcome

theorem Kept.refl (t : Tables) : Kept t t := ⟨rfl, rfl, rfl, rfl, rfl⟩

theorem Sound.kept {t t' : Tables} (h : Sound t) (hk : Kept t t') : Sound t' := by
  obtain ⟨hrow, hreceipts, htranscript, -, -⟩ := hk
  have hrev : t'.session.elim 0 SessionRow.revision = t.session.elim 0 SessionRow.revision := by
    cases ht : t.session <;> cases ht' : t'.session <;>
      simp_all [SessionRow.commit]
  refine ⟨?_, ?_, ?_, ?_⟩
  · rw [hrev, hreceipts]
    exact h.revision
  · rw [hreceipts]
    exact h.receipts
  · rw [hreceipts]
    exact h.commits
  · rw [htranscript]
    exact h.transcript

/-! ## What an effect does to the tables of a session -/

/-- The commit `e` made to the session `id`. -/
inductive Committed (env : Deployment) (db : Db) (id : String) (t' : Tables) : Eff → Prop
  | mk {s : Session} {config event : Value} {command : Command} {commitId fingerprint : String}
      (hid : s.id = id) (hcommand : s.command = some command)
      (hrow : ∃ row ∈ db.commands.rows, row.commandId = command.id)
      (hcommit : s.pendingCommitId.bind env.parseUuid = some commitId)
      (hfingerprint : commitFingerprint env s config event = .ok fingerprint)
      (hnew : commitId ∉ (db.tables id).receipts.map Receipt.commitId)
      (happlied : Applied env db.clock command commitId fingerprint (db.tables id) s t')
      {now : String} {s' : Session}
      (happly : applyCommit env db.clock now command commitId fingerprint (db.eventSequence + 1)
        (db.tables id) (fingerprinted s fingerprint) config event = .ok (t', s')) :
      Committed env db id t' (.transact s config event)

theorem kept_updateSession (db : Db) (id id' : String) {f : SessionRow → SessionRow}
    (hf : ∀ r, (f r).commit = r.commit) :
    Kept (db.tables id') ((db.updateSession id f).tables id') := by
  by_cases h : id' = id
  · subst h
    rw [Db.updateSession, Db.set_same]
    refine ⟨?_, rfl, rfl, rfl, rfl⟩
    cases (db.tables id').session with
    | none => rfl
    | some r => simp [hf]
  · rw [Db.updateSession, Db.set_other _ _ h]
    exact .refl _

theorem kept_acquireLease (db : Db) (id owner id' : String) :
    Kept (db.tables id') ((acquireLease db id owner).2.tables id') := by
  unfold acquireLease
  split
  · exact kept_updateSession db id id' fun _ => rfl
  · exact .refl _

theorem kept_renewLease (db : Db) (id owner id' : String) (fence : Int) :
    Kept (db.tables id') ((renewLease db id owner fence).2.tables id') := by
  unfold renewLease
  split
  · exact kept_updateSession db id id' fun _ => rfl
  · exact .refl _

theorem kept_releaseLease (db : Db) (id owner id' : String) (fence : Int) :
    Kept (db.tables id') ((releaseLease db id owner fence).tables id') := by
  unfold releaseLease
  split
  · exact kept_updateSession db id id' fun _ => rfl
  · exact .refl _

theorem kept_requestCancel (db : Db) (p : String → RunRow → Bool) (id : String) :
    Kept (db.tables id) ((db.requestCancel p).tables id) := by
  refine ⟨rfl, rfl, rfl, rfl, ?_⟩
  simp only [Db.requestCancel, List.map_map]
  refine List.map_congr_left fun r _ => ?_
  simp only [Function.comp_apply]
  split <;> rfl

/-- A transaction leaves everything as it was, or it commits. -/
theorem transact_cases (env : Deployment) (now commitId fingerprint : String) (s : Session)
    (config event : Value) (db : Db) :
    ((transact env now commitId fingerprint s config event db).db = db ∧
      (transact env now commitId fingerprint s config event db).stored = none) ∨
    ∃ command t h commands, s.command = some command ∧
      (∃ row ∈ db.commands.rows, row.commandId = command.id) ∧
      commitId ∉ (db.tables s.id).receipts.map Receipt.commitId ∧
      Applied env db.clock command commitId fingerprint (db.tables s.id) s t ∧
      (TableInv db.commands → Commands.Moves h db.commands commands) ∧
      (∃ s', applyCommit env db.clock now command commitId fingerprint (db.eventSequence + 1)
        (db.tables s.id) s config event = .ok (t, s')) ∧
      (transact env now commitId fingerprint s config event db).db =
        { db.set s.id t with commands, eventSequence := db.eventSequence + 1 } := by
  unfold transact
  split
  · exact .inl ⟨rfl, rfl⟩
  next command hcommand =>
  split
  · exact .inl ⟨rfl, rfl⟩
  next hrow =>
  split
  · unfold fromReceipt
    split <;> exact .inl ⟨rfl, rfl⟩
  next hfind =>
  split
  · exact .inl ⟨rfl, rfl⟩
  split
  · unfold fromRow
    split <;> exact .inl ⟨rfl, rfl⟩
  unfold applied
  split
  · exact .inl ⟨rfl, rfl⟩
  next t s' happ =>
  refine .inr ⟨command, t, _, _, hcommand, ?_, ?_, applied_of_applyCommit happ,
    fun hi => Query.run_moves _ hi.ids, ⟨s', happ⟩, rfl⟩
  · simpa using hrow
  · simpa using hfind

/-- The same for `save_inner`. -/
theorem saveInner_cases (env : Deployment) (now : String) (s : Session) (config event : Value)
    (db : Db) :
    ((saveInner env now s config event db).db = db ∧
      (saveInner env now s config event db).stored = none) ∨
    ∃ t h commands, Committed env db s.id t (.transact s config event) ∧
      (TableInv db.commands → Commands.Moves h db.commands commands) ∧
      (saveInner env now s config event db).db =
        { db.set s.id t with commands, eventSequence := db.eventSequence + 1 } := by
  unfold saveInner
  split
  · exact .inl ⟨rfl, rfl⟩
  next commitId hcommit =>
  split
  · exact .inl ⟨rfl, rfl⟩
  next fingerprint hfingerprint =>
  split
  · exact .inl ⟨rfl, rfl⟩
  rcases transact_cases env now commitId fingerprint (fingerprinted s fingerprint) config event db with
    h | ⟨command, t, h, commands, hcommand, hrow, hnew, ⟨h1, h2, h3, h4, h5, h6⟩, hm, ⟨s', happ⟩, hdb⟩
  · exact .inl h
  · exact .inr ⟨t, h, commands, .mk rfl hcommand hrow hcommit hfingerprint hnew
      ⟨h1, h2, h3, h4, h5, h6⟩ happ, hm, hdb⟩

/-- An effect moves the command table or leaves it, and the tables of a session are as committed as
before, unless it commits to this session. -/
theorem exec_cases {env : Deployment} {e : Eff} {db db' : Db} {r : Reply e}
    (h : exec env e db r db') (hi : TableInv db.commands) :
    (∃ g, Commands.Moves g db.commands db'.commands) ∧ db.eventSequence ≤ db'.eventSequence ∧
      ∀ id, Kept (db.tables id) (db'.tables id) ∨
        (Committed env db id (db'.tables id) e ∧ db.eventSequence < db'.eventSequence) := by
  have same : db' = db → (∃ g, Commands.Moves g db.commands db'.commands) ∧
      db.eventSequence ≤ db'.eventSequence ∧ ∀ id, Kept (db.tables id) (db'.tables id) ∨
        (Committed env db id (db'.tables id) e ∧ db.eventSequence < db'.eventSequence) := by
    rintro rfl
    exact ⟨⟨none, .same _ _⟩, Int.le_refl _, fun id => .inl (.refl _)⟩
  cases e with
  | transact s config event =>
    obtain ⟨now, h⟩ := h
    suffices hsuff : db' = db ∨ db' = (saveInner env now s config event db).db by
      rcases hsuff with hdb | rfl
      · exact same hdb
      · rcases saveInner_cases env now s config event db with
          ⟨hdb, -⟩ | ⟨t, g, commands, hcommitted, hm, hdb⟩
        · exact same hdb
        · rw [hdb]
          have hlt : db.eventSequence < db.eventSequence + 1 := by omega
          refine ⟨⟨g, hm hi⟩, Int.le_of_lt hlt, fun id => ?_⟩
          by_cases hid : id = s.id
          · subst hid
            refine .inr ⟨?_, hlt⟩
            change Committed env db s.id ((db.set s.id t).tables s.id) _
            rw [Db.set_same]
            exact hcommitted
          · refine .inl ?_
            change Kept _ ((db.set s.id t).tables id)
            rw [Db.set_other _ _ hid]
            exact .refl _
    rcases h with ⟨-, hdb⟩ | ⟨-, -, -, ⟨-, hdb⟩ | ⟨-, hdb⟩⟩
    · exact .inr hdb
    · exact .inl hdb
    · exact .inr hdb
  | acquireLease id =>
    obtain ⟨owner, -, h⟩ := h
    suffices hsuff : db' = db ∨ db' = (acquireLease db id owner).2 by
      rcases hsuff with hdb | rfl
      · exact same hdb
      · refine ⟨⟨none, ?_⟩, ?_, fun id' => .inl (kept_acquireLease db id owner id')⟩
        · unfold acquireLease
          split <;> exact .same _ _
        · unfold acquireLease
          split <;> exact Int.le_refl _
    rcases h with ⟨-, hdb⟩ | ⟨-, -, hdb | hdb⟩
    · exact .inr hdb
    · exact .inl hdb
    · exact .inr hdb
  | releaseLease id owner fence =>
    rcases h with hdb | rfl
    · exact same hdb
    · refine ⟨⟨none, ?_⟩, ?_, fun id' => .inl (kept_releaseLease db id owner id' fence)⟩
      · unfold releaseLease
        split <;> exact .same _ _
      · unfold releaseLease
        split <;> exact Int.le_refl _
  | requestCancel run =>
    rcases h with hdb | rfl
    · exact same hdb
    · exact ⟨⟨none, .same _ _⟩, Int.le_refl _, fun id' => .inl (kept_requestCancel db _ id')⟩
  | markUncertain command =>
    rcases h with hdb | rfl
    · exact same hdb
    · exact ⟨⟨_, Query.run_moves _ hi.ids⟩, Int.le_refl _, fun id' => .inl (.refl _)⟩
  | cancelRequested | historicalCallIds | committedResponse | load => exact same h.1
  | _ => exact same h

theorem kept_drift {db db' : Db} (h : Drift db db') (id : String) :
    Kept (db.tables id) (db'.tables id) := by
  cases h with
  | command | time | sequence => exact .refl _
  | renew id' owner fence => exact kept_renewLease db id' owner id fence
  | cancel p => exact kept_requestCancel db p id

/-! ## The invariant of the tables -/

/-- The table has a row of this command. -/
def HasCommand (db : CommandDb) (command : String) : Prop :=
  ∃ row ∈ db.rows, row.commandId = command

/-- A command that has a row keeps one. -/
theorem HasCommand.moves {g : Option Commands.Grant} {db db' : CommandDb} {command : String}
    (h : HasCommand db command) (hm : Commands.Moves g db db') (hi : TableInv db) :
    HasCommand db' command := by
  obtain ⟨row, hrow, rfl⟩ := h
  obtain ⟨row', hrow', hsame, -⟩ := (hm.shown (.self hi hrow)).row
  exact ⟨row', hrow', hsame.commandId⟩

structure Inv (db : Db) : Prop where
  commands : TableInv db.commands
  sound : ∀ id, Sound (db.tables id)
  /-- The command of a receipt exists. -/
  commanded : ∀ id, ∀ receipt ∈ (db.tables id).receipts, HasCommand db.commands receipt.commandId

theorem Inv.empty : Inv {} := by
  refine ⟨.empty, fun _ => .empty, ?_⟩
  intro id receipt h
  cases h

/-- `db'` comes after `db` by one move of the command table and one commit at most. -/
theorem Inv.step {db db' : Db} {g : Option Commands.Grant} (h : Inv db)
    (hm : Commands.Moves g db.commands db'.commands)
    (ht : ∀ id, Kept (db.tables id) (db'.tables id) ∨
      ∃ env e, Committed env db id (db'.tables id) e) : Inv db' := by
  refine ⟨hm.inv h.commands, fun id => ?_, fun id receipt hmem => ?_⟩
  · rcases ht id with hk | ⟨env, e, ⟨-, -, -, -, -, hnew, happlied, -⟩⟩
    · exact (h.sound id).kept hk
    · exact (h.sound id).applied hnew happlied
  · rcases ht id with hk | ⟨env, e, ⟨-, -, hrow, -, -, -, happlied, -⟩⟩
    · rw [hk.receipts] at hmem
      exact (h.commanded id receipt hmem).moves hm h.commands
    · rw [happlied.receipts] at hmem
      rcases List.mem_append.mp hmem with hmem | hmem
      · exact (h.commanded id receipt hmem).moves hm h.commands
      · rw [List.mem_singleton.mp hmem]
        exact HasCommand.moves hrow hm h.commands

theorem Inv.drift {db db' : Db} (h : Inv db) (hd : Drift db db') : Inv db' := by
  have hkept : ∀ id, Kept (db.tables id) (db'.tables id) ∨
      ∃ env e, Committed env db id (db'.tables id) e := fun id => .inl (kept_drift hd id)
  cases hd with
  | @command e r commands hex =>
    rcases Commands.exec_cases hex with rfl | ⟨q, rfl, rfl⟩
    · exact h
    · exact h.step (q.run_moves h.commands.ids) hkept
  | @time commands hr hg =>
    obtain ⟨hc, hs, hcd⟩ := h
    refine ⟨hc.drift hr hg, hs, fun id receipt hmem => ?_⟩
    obtain ⟨row, hrow, hid⟩ := hcd id receipt hmem
    exact ⟨row, hr ▸ hrow, hid⟩
  | sequence => exact h.step (.same none _) hkept
  | renew id owner fence =>
    refine h.step (g := none) ?_ hkept
    unfold renewLease
    split <;> exact .same _ _
  | cancel p => exact h.step (.same none _) hkept

theorem preserves_inv {env : Deployment} {α : Type} : (machine env α).Preserves Inv where
  exec h hex := by
    obtain ⟨⟨g, hm⟩, -, ht⟩ := exec_cases hex h.commands
    refine h.step hm fun id => ?_
    rcases ht id with hk | ⟨hc, -⟩
    · exact .inl hk
    · exact .inr ⟨env, _, hc⟩
  drift h hd := h.drift hd

/-! ## What only grows -/

/-- The receipts and the transcript of a session were only appended to. -/
def Grows (t t' : Tables) : Prop := t.receipts <+: t'.receipts ∧ t.transcript <+: t'.transcript

theorem Grows.refl (t : Tables) : Grows t t := ⟨List.prefix_refl _, List.prefix_refl _⟩

theorem Grows.trans {t t' t'' : Tables} (h : Grows t t') (h' : Grows t' t'') : Grows t t'' :=
  ⟨h.1.trans h'.1, h.2.trans h'.2⟩

theorem Kept.grows {t t' : Tables} (h : Kept t t') : Grows t t' := by
  rw [Grows, h.receipts, h.transcript]
  exact Grows.refl t

theorem Applied.grows {env : Deployment} {clock : Int} {command : Command}
    {commitId fingerprint : String} {t t' : Tables} {s : Session}
    (h : Applied env clock command commitId fingerprint t s t') : Grows t t' := by
  refine ⟨?_, h.transcript⟩
  rw [h.receipts]
  exact List.prefix_append _ _

section Pool

variable {env : Deployment} {α : Type} {w w' : Pool Eff Reply Db α}

/-- A step of the pool leaves a session as committed as it is, or is the commit of one thread. -/
theorem step_cases (hw : Inv w.shared) (h : Pool.Step (machine env α) w w') (id : String) :
    Kept (w.shared.tables id) (w'.shared.tables id) ∨
      ∃ i e, Pool.Act (machine env α) i e w w' ∧
        Committed env w.shared id (w'.shared.tables id) e := by
  cases h with
  | @act i e _ _ h =>
    have hact := h
    obtain ⟨ht, hrest, hexec⟩ := h
    rcases (exec_cases hexec hw.commands).2.2 id with hk | ⟨hc, -⟩
    · exact .inl hk
    · exact .inr ⟨i, e, hact, hc⟩
  | spawn => exact .inl (.refl _)
  | drift hd => exact .inl (kept_drift hd id)

theorem grows_of_run (hw : Inv w.shared) (h : Pool.Run (machine env α) w w') (id : String) :
    Grows (w.shared.tables id) (w'.shared.tables id) := by
  induction h with
  | refl => exact .refl _
  | tail hrun hstep ih =>
    rcases step_cases (Pool.Run.inv preserves_inv hrun hw) hstep id with
      hk | ⟨-, -, -, ⟨-, -, -, -, -, -, ha, -⟩⟩
    · exact ih.trans hk.grows
    · exact ih.trans ha.grows

end Pool

/-! ## A commit identity that has a receipt -/

section Retry

variable {env : Deployment} {db : Db} {s : Session} {receipt : Receipt}

theorem find_receipt {id : String} (hs : Sound (db.tables id))
    (hr : receipt ∈ (db.tables id).receipts) :
    (db.tables id).receipts.find? (fun r => r.commitId = receipt.commitId) = some receipt := by
  cases hf : (db.tables id).receipts.find? fun r => r.commitId = receipt.commitId with
  | none =>
    have hno := List.find?_eq_none.mp hf receipt hr
    simp at hno
  | some r =>
    have hmem := List.mem_of_find?_eq_some hf
    have heq := List.find?_some hf
    simp only [decide_eq_true_eq] at heq
    rw [List.inj_on_of_nodup_map hs.commits hmem hr heq]

/-- A transaction that writes nothing, and acknowledges `receipt` or fails. -/
structure Replayed (receipt : Receipt) (fingerprint : String) (db : Db) (c : Commit) : Prop where
  db : c.db = db
  stored : c.stored = none
  ok : c.result = .ok () →
    fingerprint = receipt.fingerprint ∧ c.session.revision = receipt.committedRevision

theorem Replayed.failed (fingerprint message : String) (s : Session) :
    Replayed receipt fingerprint db (failed message s db) := by
  refine ⟨rfl, rfl, fun h => ?_⟩
  cases h

theorem transact_of_receipt (hs : Sound (db.tables s.id))
    (hr : receipt ∈ (db.tables s.id).receipts) (now fingerprint : String) (config event : Value) :
    Replayed receipt fingerprint db
      (transact env now receipt.commitId fingerprint s config event db) := by
  unfold transact
  rw [find_receipt hs hr]
  split
  · exact .failed _ _ _
  split
  · exact .failed _ _ _
  simp only
  unfold fromReceipt
  split
  · exact .failed _ _ _
  · next hsame => exact ⟨rfl, rfl, fun _ => ⟨(not_not.mp hsame).symm, rfl⟩⟩

/-- It is answered without a write; what is acknowledged is the revision of the receipt, and only for
the fingerprint of the receipt. -/
theorem saveInner_of_receipt (hs : Sound (db.tables s.id))
    (hr : receipt ∈ (db.tables s.id).receipts)
    (hc : s.pendingCommitId.bind env.parseUuid = some receipt.commitId) (now : String)
    (config event : Value) :
    (saveInner env now s config event db).db = db ∧
      (saveInner env now s config event db).stored = none ∧
      ((saveInner env now s config event db).result = .ok () →
        commitFingerprint env s config event = .ok receipt.fingerprint ∧
          (saveInner env now s config event db).session.revision = receipt.committedRevision) := by
  unfold saveInner
  rw [hc]
  simp only
  split
  · next e he => exact ⟨rfl, rfl, fun h => by cases h⟩
  next fingerprint hf =>
  split
  · exact ⟨rfl, rfl, fun h => by cases h⟩
  have hreplayed : Replayed receipt fingerprint db
      (transact env now receipt.commitId fingerprint (fingerprinted s fingerprint) config event db) :=
    transact_of_receipt (s := fingerprinted s fingerprint) hs hr now fingerprint config event
  obtain ⟨hdb, hstored, hok⟩ := hreplayed
  refine ⟨hdb, hstored, fun h => ?_⟩
  obtain ⟨hsame, hrev⟩ := hok h
  exact ⟨by rw [hf, hsame], hrev⟩

/-- It is acknowledged to the session it was made for. -/
theorem saveInner_acknowledges (hs : Sound (db.tables s.id))
    (hr : receipt ∈ (db.tables s.id).receipts)
    (hc : s.pendingCommitId.bind env.parseUuid = some receipt.commitId) {config event : Value}
    (hf : commitFingerprint env s config event = .ok receipt.fingerprint)
    (hp : ∀ f, s.pendingCommitFingerprint = some f → f = receipt.fingerprint)
    {command : Command} (hcommand : s.command = some command)
    (hrow : HasCommand db.commands command.id) (now : String) :
    (saveInner env now s config event db).result = .ok () := by
  have hrow' : (db.commands.rows.any fun r => r.commandId = command.id) = true := by
    obtain ⟨row, hmem, hid⟩ := hrow
    exact List.any_eq_true.mpr ⟨row, hmem, by simpa using hid⟩
  have hp' : (s.pendingCommitFingerprint.any fun f => decide (f ≠ receipt.fingerprint)) = false := by
    cases hsp : s.pendingCommitFingerprint with
    | none => rfl
    | some f => simp [hp f hsp]
  have hfind : (db.tables (fingerprinted s receipt.fingerprint).id).receipts.find?
      (fun r => r.commitId = receipt.commitId) = some receipt := find_receipt hs hr
  have hcommand' : (fingerprinted s receipt.fingerprint).command = some command := hcommand
  unfold saveInner
  rw [hc, hf]
  simp only [hp', Bool.false_eq_true, if_false]
  unfold transact
  simp only [hcommand', hrow', hfind, Bool.not_true, Bool.false_eq_true, if_false]
  simp [fromReceipt]

end Retry

/-- The promises of the commit protocol in one state of the system. -/
structure CommitProtocol (env : Deployment) {α : Type} (w : Pool Eff Reply Db α) : Prop where
  /-- The receipts have the revisions 1, 2, …, and the session is at the last of them. -/
  revisions : ∀ id, Numbered Receipt.committedRevision (w.shared.tables id).receipts ∧
    (w.shared.tables id).session.elim 0 SessionRow.revision = (w.shared.tables id).receipts.length
  /-- A commit identity has one receipt at most. -/
  once : ∀ id, ((w.shared.tables id).receipts.map Receipt.commitId).Nodup
  /-- The transcript is numbered without a gap. -/
  transcript : ∀ id, Numbered TranscriptEntry.sequence (w.shared.tables id).transcript
  /-- A session changes only by one commit at a time, which its worker makes under the lease. -/
  step : ∀ w', Pool.Step (machine env α) w w' → ∀ id,
    Kept (w.shared.tables id) (w'.shared.tables id) ∨
      ∃ i e, Pool.Act (machine env α) i e w w' ∧
        Committed env w.shared id (w'.shared.tables id) e
  /-- Receipts and transcript rows stay as they are. -/
  grows : ∀ w', Pool.Run (machine env α) w w' → ∀ id,
    Grows (w.shared.tables id) (w'.shared.tables id)
  /-- A commit identity with a receipt is never applied again: nothing is written, and only the
  fingerprint of the receipt is acknowledged, with the revision of the receipt. -/
  retried : ∀ w', Pool.Run (machine env α) w w' → ∀ s config event,
    ∀ receipt ∈ (w.shared.tables s.id).receipts,
      s.pendingCommitId.bind env.parseUuid = some receipt.commitId → ∀ r db',
        exec env (.transact s config event) w'.shared r db' →
          db' = w'.shared ∧ r.stored = none ∧ (r.result = .ok () →
            commitFingerprint env s config event = .ok receipt.fingerprint ∧
              r.session.revision = receipt.committedRevision)
  /-- The commit is acknowledged when it is made again, if the answer arrives. -/
  acknowledged : ∀ w', Pool.Run (machine env α) w w' → ∀ s config event command,
    ∀ receipt ∈ (w.shared.tables s.id).receipts,
      s.pendingCommitId.bind env.parseUuid = some receipt.commitId →
        commitFingerprint env s config event = .ok receipt.fingerprint →
          (∀ f, s.pendingCommitFingerprint = some f → f = receipt.fingerprint) →
            s.command = some command → command.id = receipt.commandId → ∀ now,
              (saveInner env now s config event w'.shared).result = .ok ()

/-- A deployment without configurations. -/
def sampleDeployment : Deployment where
  toHost := Commands.sampleHost
  readConfig _ := .error "invalid configuration"
  canonicalRef ref := ref
  tableSha256 _ _ _ := ""

/-- A configuration without tools and workflow. -/
def sampleConfig : Config where
  name := "agent"
  systemPrompt := "system"
  model := "model"
  llm := { baseUrl := "http://localhost", temperature := .zero, timeoutSeconds := F64.ofInt 30 }
  memory := { maxTokens := 1000, maxSteps := 10, rawTurnsToKeep := 4 }
  tools := []

/-- A deployment of that configuration whose digests are all alike. -/
def sampleAgent : Deployment where
  toHost := { Commands.sampleHost with sha256 := fun _ => "digest" }
  readConfig _ := .ok sampleConfig
  canonicalRef ref := ref
  tableSha256 _ _ _ := ""

def sampleCommand : Command := ⟨"command", "operator", 1, "test", "/sessions", .null⟩

/-- The tables once the command is held. -/
def sampleDb : Db :=
  { commands := (Commands.Query.run (.administrative Commands.sampleRow "operator") {}).2 }

/-- A new session that is running. -/
def sampleSession : Session where
  command := some sampleCommand
  runCommandId := some "command"
  id := "session"
  goal := "goal"
  pendingCommitId := some "first"
  nextTranscriptSequence := 2
  pendingTranscript := [{
    sequence := 1, messageId := "message", kind := "message", runId := none, decisionStep := 0
    createdAt := "now"
    payload := Context.wireMessage { role := "user", content := some "goal" } }]
  configRef := some "agent.yaml"
  configSha256 := some "source"
  resolvedConfigSha256 := some "digest"
  memory := [{
    role := "user", content := some "goal", messageId := some "message", sequence := some 1
    createdAt := some "now" }]
  runId := some "run"
  runStartedAt := some "now"
  runStatus := .running

def sampleEvent (kind : String) : Value := .obj [("type", .str kind)]

/-- Its first commit. -/
def sampleCommit : Commit :=
  saveInner sampleAgent "now" sampleSession .null (sampleEvent "run_started") sampleDb

/-- The session when its run is complete. -/
def sampleFinished : Session :=
  { sampleCommit.session with
    command := some sampleCommand, pendingCommitId := some "second", runStatus := .complete
    status := .complete, finalAnswer := some "done" }

end StateDrivenAgent.Storage
