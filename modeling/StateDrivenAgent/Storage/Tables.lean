import StateDrivenAgent.Agent.Decode
import StateDrivenAgent.Commands

/-!
# The session tables

The tables of `schema/postgres.sql` a session's commits write, session by session, beside the
command table. A JSON column gives numbers back as `jsonb` keeps them: the exact decimal value,
written without exponent and without a signed zero, so that a number may come back as another token.

The lease of a session is three columns of its row; its clock is the command table's.
-/

namespace StateDrivenAgent

/-- What a deployment adds to the libraries: how serde reads a stored configuration, the path a
configuration has below the configuration root, and the digest PostgreSQL's own JSON gives of a
session's rows of a telemetry table. -/
structure Deployment extends Host where
  readConfig : Value → Except String Config
  canonicalRef : String → String
  tableSha256 : (table : String) → (session : String) → (item : Value) → String

namespace Storage

open Commands (CommandDb)

/-! ## JSON columns -/

/-- A float token as PostgreSQL returns it. A decimal text whose exponent is at least the number of
its fraction digits is written as a whole number, and read as an integer token where it fits one. -/
def jsonbFloat (host : Host) (f : F64) : Number :=
  if f.isZero then .float .zero
  else
    let text := (host.floatText f).toList.dropWhile (· = '-')
    let isE (c : Char) : Bool := c = 'e' || c = 'E'
    let exp := (Text.parseInt 32 (.ofList ((text.dropWhile fun c => !isE c).drop 1))).getD 0
    let mantissa := text.takeWhile fun c => !isE c
    let fraction := (mantissa.dropWhile (· ≠ '.')).drop 1
    if (fraction.length : Int) ≤ exp then
      let digits : Int := (Text.parseDigits (mantissa.filter (· ≠ '.'))).getD 0
      let whole := digits * 10 ^ (exp - fraction.length).toNat
      let whole := if f.negative then -whole else whole
      if -2 ^ 63 ≤ whole ∧ whole < 2 ^ 64 then .int whole else .float f
    else .float f

def jsonbNumber (host : Host) : Number → Number
  | .int i => .int i
  | .float f => jsonbFloat host f

mutual

/-- A value after it was stored in a `JSONB` column and read back. -/
def jsonb (host : Host) : Value → Value
  | .num n => .num (jsonbNumber host n)
  | .arr items => .arr (jsonbItems host items)
  | .obj fields => .obj (jsonbFields host fields)
  | v => v

def jsonbItems (host : Host) : List Value → List Value
  | [] => []
  | v :: vs => jsonb host v :: jsonbItems host vs

def jsonbFields (host : Host) : List (String × Value) → List (String × Value)
  | [] => []
  | (k, v) :: rest => (k, jsonb host v) :: jsonbFields host rest

end

/-! ## Rows -/

/-- A row of `agent_sessions`. -/
structure SessionRow where
  state : Value
  config : Value
  configRef : Option String
  configSha256 : Option String
  resolvedConfigSha256 : Option String
  revision : Int := 0
  lastCommitId : Option String := none
  lastCommitSha256 : Option String := none
  storageVersion : Int := 6
  leaseOwner : Option String := none
  leaseFence : Int := 0
  leaseExpiresAt : Option Int := none

/-- A row of `agent_commit_receipts`. -/
structure Receipt where
  commitId : String
  commandId : String
  fingerprint : String
  expectedRevision : Int
  committedRevision : Int
deriving DecidableEq

/-- A row of `agent_session_context`. -/
structure ContextRow where
  revision : Int
  goalMessageId : String
  ledgerRecordId : Option String
  rawMessageIds : Value
  ledgerState : Value

/-- A row of `agent_runs`. -/
structure RunRow where
  runId : String
  commandId : Option String
  owner : String
  fence : Int
  status : String
  startedAt : String
  endedAt : Option String
  terminationReason : Option String
  lastDecisionStep : Int
  cancelRequested : Bool := false

/-- A row of `agent_tool_executions`. -/
structure ExecutionRow where
  execution : Execution
  owner : Option String
  fence : Option Int

/-- A row of `agent_session_calls`. -/
structure CallRow where
  callId : String
  messageId : String

/-- A row of `agent_session_events`. -/
structure EventRow where
  eventId : Int
  event : Value
  revision : Int
  commitId : String
  commandId : String

/-- The rows of one session; a row of `agent_session_transcript` is a transcript entry. -/
structure Tables where
  session : Option SessionRow := none
  receipts : List Receipt := []
  transcript : List TranscriptEntry := []
  context : Option ContextRow := none
  runs : List RunRow := []
  executions : List ExecutionRow := []
  attempts : List Attempt := []
  diagnostics : List DiagnosticRecord := []
  calls : List CallRow := []
  events : List EventRow := []

/-- The tables; `eventSequence` is the last number the sequence behind `event_id` gave out. -/
structure Db where
  commands : CommandDb := {}
  tables : String → Tables := fun _ => {}
  eventSequence : Int := 0

def Db.clock (db : Db) : Int := db.commands.clock

def Db.set (db : Db) (id : String) (t : Tables) : Db :=
  { db with tables := fun id' => if id' = id then t else db.tables id' }

@[simp] theorem Db.set_same (db : Db) (id : String) (t : Tables) : (db.set id t).tables id = t := by
  simp [Db.set]

theorem Db.set_other (db : Db) {id id' : String} (t : Tables) (h : id' ≠ id) :
    (db.set id t).tables id' = db.tables id' := by
  simp [Db.set, h]

@[simp] theorem Db.set_commands (db : Db) (id : String) (t : Tables) :
    (db.set id t).commands = db.commands := rfl

/-! ## The execution lease -/

/-- `lease_owner IS NULL OR lease_expires_at<=clock_timestamp()`. -/
def SessionRow.free (clock : Int) (r : SessionRow) : Bool :=
  r.leaseOwner.isNone || r.leaseExpiresAt.any (· ≤ clock)

/-- `lease_owner=$2 AND lease_fence=$3`. -/
def SessionRow.ownedBy (owner : String) (fence : Int) (r : SessionRow) : Bool :=
  r.leaseOwner = some owner && r.leaseFence = fence

/-- `lease_expires_at>clock_timestamp()`. -/
def SessionRow.leaseLive (clock : Int) (r : SessionRow) : Bool := r.leaseExpiresAt.any (clock < ·)

/-- Rewrites the row of a session, where there is one. -/
def Db.updateSession (db : Db) (id : String) (f : SessionRow → SessionRow) : Db :=
  db.set id { db.tables id with session := (db.tables id).session.map f }

/-- `acquire_execution_lease`, with the fresh `owner`. -/
def acquireLease (db : Db) (id owner : String) : Except SqlError (String × Int) × Db :=
  match (db.tables id).session.filter (SessionRow.free db.clock) with
  | some row =>
    (.ok (owner, row.leaseFence + 1), db.updateSession id fun r => { r with
      leaseOwner := some owner, leaseFence := r.leaseFence + 1,
      leaseExpiresAt := some (db.clock + 30) })
  | none => (.error (.other "session ownership conflict: lease held by another worker"), db)

/-- `renew_execution_lease`. -/
def renewLease (db : Db) (id owner : String) (fence : Int) : Except SqlError Unit × Db :=
  if (db.tables id).session.any fun r => r.ownedBy owner fence && r.leaseLive db.clock then
    (.ok (), db.updateSession id fun r => { r with leaseExpiresAt := some (db.clock + 30) })
  else (.error (.other "lease lost: owner or fence changed"), db)

/-- `release_execution_lease`. -/
def releaseLease (db : Db) (id owner : String) (fence : Int) : Db :=
  if (db.tables id).session.any fun r => r.ownedBy owner fence then
    db.updateSession id fun r => { r with leaseOwner := none, leaseExpiresAt := none }
  else db

end Storage

end StateDrivenAgent
