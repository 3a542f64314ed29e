import StateDrivenAgent.Storage.Commit
import StateDrivenAgent.Agent.Effect
import StateDrivenAgent.Interaction.Pool

/-!
# What the effects do to the tables

`Eff.exec` relates the tables before an effect, its reply and the tables after it, one transaction at
a time. A transaction answers, or it fails, and then it may have been carried out all the same: the
connection can break before the commit or after it. What the tables do not decide (the model service,
the tools, the files) is any reply.

`Drift` is what the session tables see of everybody else: the command table's own traffic, the
renewals of leases, cancellation requests, and time.
-/

namespace StateDrivenAgent

open Interaction

namespace Storage

open Commands (CommandDb CommandEff CommandReply Query)

/-- The session a transaction that failed leaves: its proposal has a fingerprint now. -/
def frozen (env : Deployment) (s : Session) (config event : Value) : Session :=
  match commitFingerprint env s config event with
  | .ok fingerprint => fingerprinted s fingerprint
  | .error _ => s

/-- `c` was answered, or its answer is an error that tells nothing. -/
def Transacted (db : Db) (c : Commit) (left : Session) (r : TransactReply) (db' : Db) : Prop :=
  (r = ⟨c.stored, c.result, c.session⟩ ∧ db' = c.db) ∨
    ∃ e, r.result = .error e ∧ r.session = left ∧
      ((r.stored = none ∧ db' = db) ∨ (r.stored = c.stored ∧ db' = c.db))

/-- `UPDATE agent_runs SET cancel_requested=TRUE WHERE p AND status='running'`. -/
def Db.requestCancel (db : Db) (p : String → RunRow → Bool) : Db :=
  { db with tables := fun id =>
      let t := db.tables id
      { t with runs := t.runs.map fun r =>
          if r.status = "running" && p id r then { r with cancelRequested := true } else r } }

def findRun (t : Tables) (run : String) : Option RunRow := t.runs.find? fun r => r.runId = run

/-- One effect on the shared tables. -/
def exec (env : Deployment) : (e : Eff) → Db → Reply e → Db → Prop
  | .transact s config event, db, (r : TransactReply), db' =>
    ∃ now, Transacted db (saveInner env now s config event db) (frozen env s config event) r db'
  | .cancelRequested session run, db, (r : Except SqlError (Option Bool)), db' =>
    db' = db ∧
      ((∃ e, r = .error e) ∨ r = .ok ((findRun (db.tables session) run).map (·.cancelRequested)))
  | .historicalCallIds session ids, db, (r : Except SqlError (List String)), db' =>
    db' = db ∧ ((∃ e, r = .error e) ∨
      r = .ok (((db.tables session).calls.map CallRow.callId).filter ids.contains))
  | .committedResponse command, db, (r : Except SqlError (Nat × Value)), db' =>
    db' = db ∧ ∀ a, r = .ok a →
      ∃ row ∈ db.commands.rows, row.commandId = command ∧ row.response = some a
  | .load id, db, (r : Option (Session × Value)), db' =>
    db' = db ∧ (r = none ∨ r = load env db id)
  | .acquireLease id, db, (r : Except SqlError (String × Int)), db' =>
    ∃ owner, env.parseUuid owner = some owner ∧
      ((r = (acquireLease db id owner).1 ∧ db' = (acquireLease db id owner).2) ∨
        ∃ e, r = .error e ∧ (db' = db ∨ db' = (acquireLease db id owner).2))
  | .releaseLease id owner fence, db, _, db' => db' = db ∨ db' = releaseLease db id owner fence
  | .requestCancel run, db, _, db' =>
    db' = db ∨ db' = db.requestCancel fun _ r => r.runId = run
  | .markUncertain command, db, _, db' =>
    db' = db ∨ db' = { db with
      commands := ((Query.abandon command.id command.owner command.fence).run db.commands).2 }
  | _, db, _, db' => db' = db

/-- What happens to the tables besides. -/
inductive Drift (db : Db) : Db → Prop
  | command {e : CommandEff} {r : CommandReply e} {commands : CommandDb}
      (h : e.exec db.commands r commands) : Drift db { db with commands }
  /-- Time passes, and the list of sessions the command table knows of changes. -/
  | time {commands : CommandDb} (hr : commands.rows = db.commands.rows)
      (hg : commands.grants = db.commands.grants) : Drift db { db with commands }
  /-- The sequence is shared by all sessions, and a transaction that fails leaves a gap. -/
  | sequence {n : Int} (h : db.eventSequence ≤ n) : Drift db { db with eventSequence := n }
  | renew (id owner : String) (fence : Int) : Drift db (renewLease db id owner fence).2
  | cancel (p : String → RunRow → Bool) : Drift db (db.requestCancel p)

/-- The tables with any number of workers, whatever programs they run. -/
def machine (env : Deployment) (α : Type) : Machine Eff Reply Db α where
  exec := exec env
  drift := Drift
  client _ := True

end Storage

end StateDrivenAgent
