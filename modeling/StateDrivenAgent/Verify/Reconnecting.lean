import StateDrivenAgent.Interaction.Cursor
import StateDrivenAgent.Server.Reconnect
import StateDrivenAgent.Verify.Store

/-!
# What a reconnected reader delivers

The events of a session are numbered in the order of their commits. A reader works beside any pool of
workers. `Scene.due` keeps what the reader owes when it stops: the events of the run stored up to the
commit that ended the run. As long as no commit ends the run between the two queries of one poll, the
reader has delivered all of it when it stops (`reconnect_delivers`); a commit in between is lost
(`reconnect_misses_last_event`).
-/

namespace StateDrivenAgent

namespace Storage

open Interaction

/-! ## The numbers of the events -/

theorem retentionWrite_events {env : Deployment} {s : Session} {t t' : Tables}
    (h : retentionWrite env s t = .ok t') :
    t'.events.Sublist t.events ∧ (s.retentionPending = none → t'.events = t.events) := by
  unfold retentionWrite at h
  split at h
  · cases h
    exact ⟨.refl _, fun _ => rfl⟩
  · next item hitem =>
    obtain ⟨_, -, h⟩ := bind_ok h
    obtain ⟨_, -, h⟩ := bind_ok h
    obtain ⟨_, -, h⟩ := bind_ok h
    cases h
    refine ⟨?_, fun hnone => by rw [hitem] at hnone; cases hnone⟩
    have hsub (n : Nat) (p : EventRow → Bool) :
        ((t.events.take n).filter p ++ t.events.drop n).Sublist
          (t.events.take n ++ t.events.drop n) := List.filter_sublist.append_right _
    simp only [List.take_append_drop] at hsub
    exact hsub _ _

/-- A commit stores one event, under the number it was given. -/
theorem applyCommit_events {env : Deployment} {clock : Int} {now : String} {command : Command}
    {commitId fingerprint : String} {eventId : Int} {t t' : Tables} {s s' : Session}
    {config event : Value}
    (h : applyCommit env clock now command commitId fingerprint eventId t s config event =
      .ok (t', s')) :
    ∃ kept row, t'.events = kept ++ [row] ∧ row.eventId = eventId ∧ kept.Sublist t.events ∧
      (s.retentionPending = none → kept = t.events) := by
  unfold applyCommit at h
  obtain ⟨_, -, h⟩ := bind_ok h
  obtain ⟨_, -, h⟩ := bind_ok h
  obtain ⟨_, -, h⟩ := bind_ok h
  obtain ⟨_, -, h⟩ := bind_ok h
  obtain ⟨⟨_, _⟩, -, h⟩ := bind_ok h
  obtain ⟨_, -, h⟩ := bind_ok h
  obtain ⟨_, -, h⟩ := bind_ok h
  obtain ⟨_, -, h⟩ := bind_ok h
  obtain ⟨⟨_, _⟩, -, h⟩ := bind_ok h
  obtain ⟨_, -, h⟩ := bind_ok h
  obtain ⟨_, -, h⟩ := bind_ok h
  obtain ⟨t₁, hret, h⟩ := bind_ok h
  obtain ⟨_, -, h⟩ := bind_ok h
  obtain ⟨_, -, h⟩ := bind_ok h
  cases h
  obtain ⟨hsub, hsame⟩ := retentionWrite_events hret
  exact ⟨t₁.events, _, rfl, rfl, hsub, hsame⟩

/-- The events of every session are in the order of their numbers, which the sequence has given
out. -/
structure Inscribed (db : Db) : Prop where
  base : Inv db
  increasing : ∀ id, Increasing EventRow.eventId (db.tables id).events
  given : ∀ id, ∀ r ∈ (db.tables id).events, r.eventId ≤ db.eventSequence

theorem Inscribed.empty : Inscribed {} := by
  refine ⟨.empty, fun _ => List.Pairwise.nil, ?_⟩
  intro id r h
  cases h

theorem Inscribed.exec {env : Deployment} {e : Eff} {db db' : Db} {r : Reply e}
    (h : Inscribed db) (hex : exec env e db r db') : Inscribed db' := by
  obtain ⟨-, hseq, ht⟩ := exec_cases hex h.base.commands
  have hbase : Inv db' := (preserves_inv (α := Unit)).exec h.base hex
  have hone : ∀ id, Increasing EventRow.eventId (db'.tables id).events ∧
      ∀ r ∈ (db'.tables id).events, r.eventId ≤ db'.eventSequence := by
    intro id
    rcases ht id with hk | ⟨⟨-, -, -, -, -, -, -, happly⟩, hlt⟩
    · rw [hk.events]
      exact ⟨h.increasing id, fun r hr => Int.le_trans (h.given id r hr) hseq⟩
    · obtain ⟨kept, row, hevents, hid, hsub, -⟩ := applyCommit_events happly
      rw [hevents]
      have hkept : ∀ a ∈ kept, a.eventId ≤ db.eventSequence :=
        fun a ha => h.given id a (hsub.subset ha)
      constructor
      · refine Increasing.concat (List.Pairwise.sublist hsub (h.increasing id)) fun a ha => ?_
        have := hkept a ha
        omega
      · intro r hr
        rcases List.mem_append.mp hr with hr | hr
        · have := hkept r hr
          omega
        · rw [List.mem_singleton.mp hr]
          omega
  exact ⟨hbase, fun id => (hone id).1, fun id => (hone id).2⟩

theorem Inscribed.drift {db db' : Db} (h : Inscribed db) (hd : Drift db db') : Inscribed db' := by
  have hseq : db.eventSequence ≤ db'.eventSequence := by
    cases hd with
    | sequence hle => exact hle
    | renew id owner fence =>
      unfold renewLease
      split <;> exact Int.le_refl _
    | _ => exact Int.le_refl _
  refine ⟨h.base.drift hd, fun id => ?_, fun id r hr => ?_⟩
  · rw [(kept_drift hd id).events]
    exact h.increasing id
  · rw [(kept_drift hd id).events] at hr
    exact Int.le_trans (h.given id r hr) hseq

theorem preserves_inscribed {env : Deployment} {α : Type} : (machine env α).Preserves Inscribed where
  exec h hex := h.exec hex
  drift h hd := h.drift hd

/-! ## A reader beside the workers -/

/-- A pool of workers, a reader of the session `session`, the cursor the reader was opened with, and
the events it owes. -/
structure Scene (α : Type) where
  session : String
  workers : Pool Eff Reply Db α
  reader : Reader
  start : Int
  due : List EventRow

namespace Scene

variable {α : Type}

def tables (σ : Scene α) : Tables := σ.workers.shared.tables σ.session

/-- The stored events of the run. -/
def events (σ : Scene α) : List EventRow :=
  σ.tables.events.filter fun r => r.ofRun σ.reader.run

def running (σ : Scene α) : Bool := runStatus σ.tables σ.reader.run = some "running"

/-- The reader is still in its loop. -/
def reading (σ : Scene α) : Bool :=
  match σ.reader.phase with
  | .ended _ => false
  | _ => true

/-- The workers move: as long as the run was running, everything stored of it is due. -/
def after (σ : Scene α) (workers : Pool Eff Reply Db α) : Scene α :=
  let σ' := { σ with workers }
  { σ' with due := if σ.reading && σ.running then σ'.events else σ.due }

inductive Step (env : Deployment) : Scene α → Scene α → Prop
  | work {σ : Scene α} {workers : Pool Eff Reply Db α}
      (h : Pool.Step (machine env α) σ.workers workers) : Step env σ (σ.after workers)
  | read {σ : Scene α} {reader : Reader} (h : Reader.Step σ.tables σ.reader reader) :
      Step env σ { σ with reader }

/-- A step at which no archive prunes the events of the session, and the run does not end between the
two queries of one poll. -/
inductive Calm (env : Deployment) : Scene α → Scene α → Prop
  | work {σ : Scene α} {workers : Pool Eff Reply Db α}
      (h : Pool.Step (machine env α) σ.workers workers)
      (kept : ∀ i s config event, Pool.Act (machine env α) i (.transact s config event) σ.workers
        workers → s.id = σ.session → s.retentionPending = none)
      (held : σ.reader.open = true → σ.running = true → (σ.after workers).running = true) :
      Calm env σ (σ.after workers)
  | read {σ : Scene α} {reader : Reader} (h : Reader.Step σ.tables σ.reader reader) :
      Calm env σ { σ with reader }

theorem Calm.step {env : Deployment} {σ σ' : Scene α} (h : Calm env σ σ') : Step env σ σ' := by
  cases h with
  | work h => exact .work h
  | read h => exact .read h

/-- A reader opened on the workers as they are. -/
def opened (workers : Pool Eff Reply Db α) (session : String) (reader : Reader) : Scene α :=
  let σ : Scene α := { session, workers, reader, start := reader.after, due := [] }
  { σ with due := σ.events }

/-- Every event of the run after the start, up to the cursor, was sent once and in order; a reader
that stopped because the run is not running has sent everything due. -/
structure Delivered (σ : Scene α) : Prop where
  increasing : Increasing EventRow.eventId σ.events
  sent : σ.reader.sent =
    (between EventRow.eventId σ.start σ.reader.after σ.events).map EventRow.delivery
  complete : σ.reader.phase = .ended .settled →
    ∀ row ∈ σ.due, σ.start < row.eventId → row.delivery ∈ σ.reader.sent

/-- What the reader's phase says of the events it still has to send. -/
def Ahead (σ : Scene α) : Prop :=
  match σ.reader.phase with
  | .polling => True
  | .sending rows full => rows <+: beyond EventRow.eventId σ.reader.after σ.events ∧
      (full = false → σ.running = false →
        ∀ row ∈ σ.due, σ.reader.after < row.eventId → row ∈ rows)
  | .checking => σ.running = false → ∀ row ∈ σ.due, row.eventId ≤ σ.reader.after
  | .ended why => why = .settled → ∀ row ∈ σ.due, row.eventId ≤ σ.reader.after

/-- The invariant of a scene whose steps are all calm. -/
structure Held (σ : Scene α) : Prop where
  base : Inscribed σ.workers.shared
  due : ∀ row ∈ σ.due, row ∈ σ.events
  from_ : σ.start ≤ σ.reader.after
  at_ : σ.reader.after = σ.start ∨ ∃ row ∈ σ.events, row.eventId = σ.reader.after
  sent : σ.reader.sent =
    (between EventRow.eventId σ.start σ.reader.after σ.events).map EventRow.delivery
  ahead : σ.Ahead

variable {env : Deployment} {σ σ' : Scene α}

theorem Held.increasing (h : σ.Held) : Increasing EventRow.eventId σ.events :=
  List.Pairwise.sublist List.filter_sublist (h.base.increasing σ.session)

theorem Held.delivered (h : σ.Held) : σ.Delivered := by
  refine ⟨h.increasing, h.sent, fun hp row hrow hlt => ?_⟩
  have hahead := h.ahead
  unfold Ahead at hahead
  rw [hp] at hahead
  rw [h.sent]
  exact List.mem_map_of_mem (mem_between.mpr ⟨h.due row hrow, hlt, hahead rfl row hrow⟩)

theorem held_opened {workers : Pool Eff Reply Db α} (hw : Inscribed workers.shared)
    (session : String) {reader : Reader} (hs : reader.sent = []) (hp : reader.phase = .polling) :
    (opened workers session reader).Held := by
  refine ⟨hw, fun row h => h, Int.le_refl _, .inl rfl, ?_, ?_⟩
  · show reader.sent = _
    rw [hs]
    show [] = List.map _ (between _ reader.after reader.after _)
    rw [between_self]
    rfl
  · have hphase : (opened workers session reader).reader.phase = .polling := hp
    unfold Ahead
    rw [hphase]
    trivial

/-! ## The steps of the workers -/

/-- What a calm step of the workers does to the events of the run. -/
inductive Grown (events events' : List EventRow) : Prop
  | same (h : events' = events)
  | one (row : EventRow) (h : events' = events ++ [row])
      (hlt : ∀ a ∈ events, a.eventId < row.eventId)

theorem grown_work {workers : Pool Eff Reply Db α} (hb : Inscribed σ.workers.shared)
    (h : Pool.Step (machine env α) σ.workers workers)
    (kept : ∀ i s config event, Pool.Act (machine env α) i (.transact s config event) σ.workers
      workers → s.id = σ.session → s.retentionPending = none) :
    Grown σ.events (σ.after workers).events := by
  have hevents : (σ.after workers).events = (workers.shared.tables σ.session).events.filter
      fun r => r.ofRun σ.reader.run := rfl
  rcases step_cases hb.base h σ.session with hk | ⟨i, e, hact, hc⟩
  · refine .same ?_
    rw [hevents, hk.events]
    rfl
  · obtain ⟨hid, -, -, -, -, -, -, happly⟩ := hc
    rename_i s config event command commitId fingerprint now s'
    obtain ⟨rows, row, hrows, hrow, -, hall⟩ := applyCommit_events happly
    have hsame : rows = σ.tables.events := hall (kept i s config event hact hid)
    rw [hrows, hsame, List.filter_append] at hevents
    by_cases hrun : row.ofRun σ.reader.run = true
    · refine .one row ?_ fun a ha => ?_
      · rw [hevents, List.filter_cons, if_pos hrun]
        rfl
      · have hle := hb.given σ.session a (List.mem_filter.mp ha).1
        rw [hrow]
        omega
    · refine .same ?_
      rw [hevents, List.filter_cons, if_neg hrun, List.filter_nil, List.append_nil]
      rfl

theorem Held.work {workers : Pool Eff Reply Db α} (hσ : σ.Held)
    (h : Pool.Step (machine env α) σ.workers workers)
    (kept : ∀ i s config event, Pool.Act (machine env α) i (.transact s config event) σ.workers
      workers → s.id = σ.session → s.retentionPending = none)
    (held : σ.reader.open = true → σ.running = true → (σ.after workers).running = true) :
    (σ.after workers).Held := by
  have hbase : Inscribed workers.shared := h.inv preserves_inscribed hσ.base
  have hgrown := grown_work hσ.base h kept
  have hsub : ∀ row ∈ σ.events, row ∈ (σ.after workers).events := by
    intro row hrow
    rcases hgrown with heq | ⟨new, heq, -⟩
    · rw [heq]
      exact hrow
    · rw [heq]
      exact List.mem_append_left _ hrow
  have hdue : (σ.after workers).due =
      if σ.reading && σ.running then (σ.after workers).events else σ.due := rfl
  -- once the run is over, nothing more falls due
  have hover : σ.running = false ∨ σ.reading = false → (σ.after workers).due = σ.due := by
    intro h
    rw [hdue]
    rcases h with h | h <;> simp [h]
  refine ⟨hbase, ?_, hσ.from_, ?_, ?_, ?_⟩
  · intro row hrow
    rw [hdue] at hrow
    split at hrow
    · exact hrow
    · exact hsub row (hσ.due row hrow)
  · rcases hσ.at_ with heq | ⟨row, hrow, heq⟩
    · exact .inl heq
    · exact .inr ⟨row, hsub row hrow, heq⟩
  · have hsent : (σ.after workers).reader.sent = σ.reader.sent := rfl
    rw [hsent, hσ.sent]
    rcases hgrown with heq | ⟨new, heq, hlt⟩
    · rw [heq]
      rfl
    · rw [heq]
      exact congrArg _ (between_concat hσ.at_ hlt).symm
  · have hahead := hσ.ahead
    have hphase : (σ.after workers).reader.phase = σ.reader.phase := rfl
    have hcursor : (σ.after workers).reader.after = σ.reader.after := rfl
    unfold Ahead at hahead ⊢
    rw [hphase, hcursor]
    cases hp : σ.reader.phase with
    | polling => trivial
    | sending rows full =>
      rw [hp] at hahead
      obtain ⟨hpre, hlast⟩ := hahead
      refine ⟨?_, fun hfull hstop row hrow hlt => ?_⟩
      · rcases hgrown with heq | ⟨new, heq, -⟩
        · rw [heq]
          exact hpre
        · rw [heq]
          exact hpre.trans (beyond_append _ _ _)
      · have hrun : σ.running = false := by
          by_contra hrun
          have hopen : σ.reader.open = true := by
            unfold Reader.open
            rw [hp, hfull]
          rw [held hopen (by simpa using hrun)] at hstop
          cases hstop
        rw [hover (.inl hrun)] at hrow
        exact hlast hfull hrun row hrow hlt
    | checking =>
      rw [hp] at hahead
      intro hstop row hrow
      have hrun : σ.running = false := by
        by_contra hrun
        have hopen : σ.reader.open = true := by
          unfold Reader.open
          rw [hp]
        rw [held hopen (by simpa using hrun)] at hstop
        cases hstop
      rw [hover (.inl hrun)] at hrow
      exact hahead hrun row hrow
    | ended why =>
      rw [hp] at hahead
      intro hwhy row hrow
      have hread : σ.reading = false := by
        unfold reading
        rw [hp]
      rw [hover (.inr hread)] at hrow
      exact hahead hwhy row hrow

/-! ## The steps of the reader -/

theorem reconnect_fresh {host : Host} {db : Db} {id session : String} {run cursor : Option String}
    {reader : Reader} (h : reconnect host db id run cursor = .ok (session, reader)) :
    reader.sent = [] ∧ reader.phase = .polling := by
  unfold reconnect at h
  split at h
  · cases h
  split at h
  · cases h
  split at h
  · cases h
  split at h
  · cases h
  split at h
  · cases h
  · cases h
    exact ⟨rfl, rfl⟩

/-- On a log that is in order, a poll returns the first entries beyond the cursor. -/
theorem pollEvents_of_increasing {t : Tables} (h : Increasing EventRow.eventId t.events)
    (run : String) (cursor : Int) :
    pollEvents t run cursor =
      (beyond EventRow.eventId cursor (t.events.filter fun r => r.ofRun run)).take pageSize := by
  have hfilter : (t.events.filter fun r => r.ofRun run && decide (cursor < r.eventId)) =
      beyond EventRow.eventId cursor (t.events.filter fun r => r.ofRun run) := by
    rw [beyond, List.filter_filter]
    exact List.filter_congr fun r _ => Bool.and_comm _ _
  have hsorted : (beyond EventRow.eventId cursor (t.events.filter fun r => r.ofRun run)).Pairwise
      fun a b => a.eventId ≤ b.eventId := by
    have hinc : Increasing EventRow.eventId
        (beyond EventRow.eventId cursor (t.events.filter fun r => r.ofRun run)) :=
      List.Pairwise.sublist (List.filter_sublist.trans List.filter_sublist) h
    exact hinc.imp fun hlt => Int.le_of_lt hlt
  rw [pollEvents, hfilter, hsorted.insertionSort_eq]

/-- Sending the next event of a page. -/
theorem Held.send (hσ : σ.Held) {row : EventRow} {rest : List EventRow} {full : Bool}
    (hp : σ.reader.phase = .sending (row :: rest) full) :
    σ.start ≤ row.eventId ∧ row ∈ σ.events ∧
      σ.reader.sent ++ [row.delivery] =
        (between EventRow.eventId σ.start row.eventId σ.events).map EventRow.delivery ∧
      rest <+: beyond EventRow.eventId row.eventId σ.events := by
  have hahead := hσ.ahead
  unfold Ahead at hahead
  rw [hp] at hahead
  obtain ⟨⟨tail, htail⟩, -⟩ := hahead
  have hmem : row ∈ beyond EventRow.eventId σ.reader.after σ.events := by
    rw [← htail]
    simp
  obtain ⟨hrow, hlt⟩ := mem_beyond.mp hmem
  obtain ⟨hbetween, hbeyond⟩ := hσ.increasing.take hσ.from_ htail.symm
  refine ⟨Int.le_of_lt (Int.lt_of_le_of_lt hσ.from_ hlt), hrow, ?_, ?_⟩
  · rw [hσ.sent, hbetween, List.map_append]
    rfl
  · rw [hbeyond]
    exact List.prefix_append _ _

theorem Held.read {reader : Reader} (hσ : σ.Held) (h : Reader.Step σ.tables σ.reader reader) :
    ({ σ with reader } : Scene α).Held := by
  have hahead := hσ.ahead
  unfold Ahead at hahead
  cases h with
  | poll hp =>
    refine ⟨hσ.base, hσ.due, hσ.from_, hσ.at_, hσ.sent, ?_⟩
    have hpage : σ.reader.page σ.tables =
        (beyond EventRow.eventId σ.reader.after σ.events).take pageSize :=
      pollEvents_of_increasing (hσ.base.increasing σ.session) _ _
    refine ⟨?_, fun hfull _ row hrow hlt => ?_⟩
    · rw [hpage]
      exact List.take_prefix _ _
    · -- a page that is not full holds everything beyond the cursor
      have hmem : row ∈ beyond EventRow.eventId σ.reader.after σ.events :=
        mem_beyond.mpr ⟨hσ.due row hrow, hlt⟩
      have hshort : (σ.reader.page σ.tables).length ≠ pageSize := of_decide_eq_false hfull
      rw [hpage, List.length_take] at hshort
      rw [hpage, List.take_of_length_le (by omega)]
      exact hmem
  | pollFailed hp =>
    refine ⟨hσ.base, hσ.due, hσ.from_, hσ.at_, hσ.sent, ?_⟩
    intro hwhy
    cases hwhy
  | @send row rest full hp =>
    obtain ⟨hle, hrow, hsent, hrest⟩ := hσ.send hp
    rw [hp] at hahead
    refine ⟨hσ.base, hσ.due, hle, .inr ⟨row, hrow, rfl⟩, hsent, hrest,
      fun hfull hstop r hr hlt => ?_⟩
    have hbefore : σ.reader.after < row.eventId := by
      have hmem : row ∈ beyond EventRow.eventId σ.reader.after σ.events :=
        hahead.1.subset List.mem_cons_self
      exact (mem_beyond.mp hmem).2
    rcases List.mem_cons.mp (hahead.2 hfull hstop r hr (Int.lt_trans hbefore hlt)) with heq | hr
    · rw [heq] at hlt
      exact absurd hlt (Int.lt_irrefl _)
    · exact hr
  | closed hp =>
    refine ⟨hσ.base, hσ.due, hσ.from_, hσ.at_, hσ.sent, ?_⟩
    intro hwhy
    cases hwhy
  | again hp => exact ⟨hσ.base, hσ.due, hσ.from_, hσ.at_, hσ.sent, trivial⟩
  | check hp =>
    rw [hp] at hahead
    refine ⟨hσ.base, hσ.due, hσ.from_, hσ.at_, hσ.sent, fun hstop row hrow => ?_⟩
    by_contra hlt
    have hmem := hahead.2 rfl hstop row hrow (Int.lt_of_not_ge hlt)
    cases hmem
  | running hp hs => exact ⟨hσ.base, hσ.due, hσ.from_, hσ.at_, hσ.sent, trivial⟩
  | settled hp hs =>
    rw [hp] at hahead
    refine ⟨hσ.base, hσ.due, hσ.from_, hσ.at_, hσ.sent, fun _ => hahead ?_⟩
    exact decide_eq_false hs
  | checkFailed hp =>
    refine ⟨hσ.base, hσ.due, hσ.from_, hσ.at_, hσ.sent, ?_⟩
    intro hwhy
    cases hwhy

theorem Held.calm (hσ : σ.Held) (h : Calm env σ σ') : σ'.Held := by
  cases h with
  | work h kept held => exact hσ.work h kept held
  | read h => exact hσ.read h

theorem held_of_run (hσ : σ.Held) (h : Relation.ReflTransGen (Calm env) σ σ') : σ'.Held := by
  induction h with
  | refl => exact hσ
  | tail _ hcalm ih => exact ih.calm hcalm

end Scene

/-- A reader that a reconnection opened beside workers that started from empty tables delivers, in
every state of a run of calm steps. -/
theorem reconnect_delivers (env : Deployment) {α : Type} (workers : Pool Eff Reply Db α)
    (hw : Pool.Run (machine env α) ⟨{}, []⟩ workers) (id session : String)
    (run after : Option String) (reader : Reader)
    (hr : reconnect env.toHost workers.shared id run after = .ok (session, reader)) (σ : Scene α)
    (hσ : Relation.ReflTransGen (Scene.Calm env) (Scene.opened workers session reader) σ) :
    σ.Delivered := by
  have hbase : Inscribed workers.shared := Pool.Run.inv preserves_inscribed hw .empty
  obtain ⟨hsent, hphase⟩ := Scene.reconnect_fresh hr
  exact (Scene.held_of_run (Scene.held_opened hbase session hsent hphase) hσ).delivered

/-! ## A commit between the two queries -/

section Sample

/-- The worker that makes the two commits of the run. -/
def sampleWorker : Prog Unit :=
  .perform (.transact sampleSession .null (sampleEvent "run_started")) fun _ =>
    .perform (.transact sampleFinished .null (sampleEvent "run_finished")) fun _ => .ret ()

/-- What the worker has left once the run has started. -/
def sampleThread : Thread Eff Reply Unit where
  start := sampleWorker
  events := [⟨.transact sampleSession .null (sampleEvent "run_started"),
    ⟨sampleCommit.stored, sampleCommit.result, sampleCommit.session⟩⟩]
  rest := .perform (.transact sampleFinished .null (sampleEvent "run_finished")) fun _ => .ret ()

def sampleWorkers : Pool Eff Reply Db Unit := ⟨sampleCommit.db, [sampleThread]⟩

theorem sampleWorkers_run : Pool.Run (machine sampleAgent Unit) ⟨{}, []⟩ sampleWorkers := by
  have hcommand : Pool.Run (machine sampleAgent Unit) ⟨{}, []⟩ ⟨sampleDb, []⟩ :=
    .single (.drift (.command (e := .sql (.administrative Commands.sampleRow "operator"))
      (.inl ⟨rfl, rfl⟩)))
  have hspawn : Pool.Run (machine sampleAgent Unit) ⟨{}, []⟩ ⟨sampleDb, [.fresh sampleWorker]⟩ :=
    hcommand.tail (.spawn trivial)
  exact hspawn.tail (.act (.mk (t := .fresh sampleWorker) (i := 0) rfl rfl
    ⟨"now", .inl ⟨rfl, rfl⟩⟩))

def sampleReader : Reader := { run := "run", after := 0 }

theorem sampleReader_opened : reconnect sampleAgent.toHost sampleWorkers.shared "session"
    (some "run") none = .ok ("session", sampleReader) := by
  have hrun : (runStatus (sampleWorkers.shared.tables "session") "run").isNone = false := by
    decide +kernel
  have hopen : reconnect sampleAgent.toHost sampleWorkers.shared "session" (some "run") none =
      if (0 : Int) < 0 then .error (422, "Invalid event cursor")
      else if (runStatus (sampleWorkers.shared.tables "session") "run").isNone then
        .error (404, "Run not found")
      else .ok ("session", sampleReader) := rfl
  rw [hopen, if_neg (Int.lt_irrefl _), hrun]
  rfl

/-- The first event of the run, the only one so far. -/
theorem sample_page : ∃ row, sampleReader.page (sampleWorkers.shared.tables "session") = [row] ∧
    (row.delivery.index "event_id").asI64 = some 1 := by
  have hlength : (sampleReader.page (sampleWorkers.shared.tables "session")).length = 1 := by
    decide +kernel
  have hids : (sampleReader.page (sampleWorkers.shared.tables "session")).map
      (fun row => (row.delivery.index "event_id").asI64) = [some 1] := by decide +kernel
  obtain ⟨row, hrow⟩ := List.length_eq_one_iff.mp hlength
  rw [hrow] at hids
  exact ⟨row, hrow, by simpa using hids⟩

/-- The reader asks for its first page and sends it. -/
theorem sample_read {row : EventRow}
    (hpage : sampleReader.page (sampleWorkers.shared.tables "session") = [row]) :
    Relation.ReflTransGen (Scene.Calm sampleAgent)
      (.opened sampleWorkers "session" sampleReader)
      { Scene.opened sampleWorkers "session" sampleReader with
        reader := ⟨"run", row.eventId, [row.delivery], .sending [] false⟩ } := by
  have hpoll : Reader.Step (sampleWorkers.shared.tables "session") sampleReader
      ⟨"run", 0, [], .sending [row] false⟩ := by
    have hstep := Reader.Step.poll (t := sampleWorkers.shared.tables "session")
      (r := sampleReader) rfl
    rw [hpage] at hstep
    exact hstep
  have hsend : Reader.Step (sampleWorkers.shared.tables "session")
      ⟨"run", 0, [], .sending [row] false⟩
      ⟨"run", row.eventId, [row.delivery], .sending [] false⟩ := .send rfl
  exact .tail (.single (.read hpoll)) (.read hsend)

/-- Before the last commit, the reader has delivered the first event. -/
theorem reconnect_delivers_running : ∃ (workers : Pool Eff Reply Db Unit) (reader : Reader)
    (σ : Scene Unit), σ.workers = workers ∧ σ.reader.sent.length = 1 ∧ σ.Delivered ∧
      reconnect sampleAgent.toHost workers.shared "session" (some "run") none =
        .ok ("session", reader) := by
  obtain ⟨row, hpage, -⟩ := sample_page
  exact ⟨sampleWorkers, sampleReader, _, rfl, rfl,
    reconnect_delivers sampleAgent sampleWorkers sampleWorkers_run "session" "session" (some "run")
      none sampleReader sampleReader_opened _ (sample_read hpage), sampleReader_opened⟩

/-- The worker commits the last event after the page was read and before the status is: the stream
ends without it. -/
theorem reconnect_misses_last_event : ∃ (workers : Pool Eff Reply Db Unit) (reader : Reader)
    (σ : Scene Unit), Pool.Run (machine sampleAgent Unit) ⟨{}, []⟩ workers ∧
      reconnect sampleAgent.toHost workers.shared "session" (some "run") none =
        .ok ("session", reader) ∧
      Relation.ReflTransGen (Scene.Step sampleAgent) (Scene.opened workers "session" reader) σ ∧
      ¬ σ.Delivered := by
  obtain ⟨row, hpage, hid⟩ := sample_page
  have hread := Relation.ReflTransGen.mono (fun _ _ => Scene.Calm.step) _ _ (sample_read hpage)
  let σ : Scene Unit := { Scene.opened sampleWorkers "session" sampleReader with
    reader := ⟨"run", row.eventId, [row.delivery], .checking⟩ }
  have hcheck : Relation.ReflTransGen (Scene.Step sampleAgent)
      (.opened sampleWorkers "session" sampleReader) σ := hread.tail (.read (.check rfl))
  let commit := saveInner sampleAgent "now" sampleFinished .null (sampleEvent "run_finished")
    sampleCommit.db
  have hact : Pool.Step (machine sampleAgent Unit) sampleWorkers
      ⟨commit.db, [⟨sampleWorker, sampleThread.events ++
        [⟨.transact sampleFinished .null (sampleEvent "run_finished"),
          ⟨commit.stored, commit.result, commit.session⟩⟩], .ret ()⟩]⟩ :=
    .act (.mk (t := sampleThread) (i := 0) rfl rfl ⟨"now", .inl ⟨rfl, rfl⟩⟩)
  have hwork := hcheck.tail (.work hact)
  have hstatus : runStatus (commit.db.tables "session") "run" ≠ some "running" := by
    decide +kernel
  refine ⟨sampleWorkers, sampleReader, _, sampleWorkers_run, sampleReader_opened,
    hwork.tail (.read (.settled rfl hstatus)), fun hdelivered => ?_⟩
  have hrunning : runStatus (sampleCommit.db.tables "session") "run" = some "running" := by
    decide +kernel
  have hdue (threads : List (Thread Eff Reply Unit)) : (σ.after ⟨commit.db, threads⟩).due =
      (commit.db.tables "session").events.filter fun r => r.ofRun "run" :=
    if_pos (decide_eq_true hrunning)
  have hlast : ((commit.db.tables "session").events.filter fun r => r.ofRun "run").any
      (fun r => decide (0 < r.eventId) && decide ((r.delivery.index "event_id").asI64 = some 2)) =
        true := by
    decide +kernel
  obtain ⟨last, hmem, hp⟩ := List.any_eq_true.mp hlast
  simp only [Bool.and_eq_true, decide_eq_true_eq] at hp
  have hsent : last.delivery ∈ [row.delivery] :=
    hdelivered.complete rfl last ((hdue _).symm ▸ hmem) hp.1
  rw [List.mem_singleton.mp hsent, hid] at hp
  exact absurd hp.2 (by decide)

end Sample

end Storage

end StateDrivenAgent
