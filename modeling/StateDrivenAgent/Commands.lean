import StateDrivenAgent.Identity
import StateDrivenAgent.Interaction.Program

/-!
# Command admission

`commands.rs`: every mutating request carries an idempotency key and becomes a row of
`agent_commands`. `admit` finds or inserts the row, answers a finished command from it, or takes the
command over under a fresh owner and the next fence and runs the request's handler, whose outcome it
stores. The handlers themselves store theirs inside their session transactions, under `guard`.

A `Query` is one statement or transaction on the table, `Query.run` what PostgreSQL does with it.
`grants` is a ghost column: it lists every holder a command ever had. `CommandEff.exec` adds that a
query can fail, with or without having been carried out.
-/

namespace StateDrivenAgent

open Interaction

namespace Commands

/-! ## The table -/

inductive CommandStatus where
  | pending | started | succeeded | failed | uncertain | blocked
deriving DecidableEq

def CommandStatus.text : CommandStatus → String
  | pending => "pending"
  | started => "started"
  | succeeded => "succeeded"
  | failed => "failed"
  | uncertain => "uncertain"
  | blocked => "blocked"

/-- `status IN ('pending','started')`. -/
def CommandStatus.unsettled : CommandStatus → Bool
  | pending | started => true
  | _ => false

/-- One row of `agent_commands`. -/
structure CommandRow where
  commandId : String
  deployment : String
  clientScope : String
  idempotencyKey : String
  method : String
  route : String
  request : Value
  requestSha256 : String
  sessionId : Option String
  status : CommandStatus
  response : Option (Nat × Value) := none
  owner : Option String := none
  fence : Int := 0
  leaseExpiresAt : Option Int := none

/-- The columns of `agent_commands_key`. -/
def CommandRow.key (r : CommandRow) : String × String × String :=
  (r.deployment, r.clientScope, r.idempotencyKey)

/-- A holder of a command: the fence it was granted and under which owner. -/
structure Grant where
  commandId : String
  owner : String
  fence : Int
deriving DecidableEq

structure CommandDb where
  rows : List CommandRow := []
  sessions : List String := []
  clock : Int := 0
  grants : List Grant := []

/-- The row a `WHERE namespace=$1 AND client_scope='local' AND idempotency_key=$2` selects. -/
def CommandDb.find (db : CommandDb) (deployment key : String) : Option CommandRow :=
  db.rows.find? fun r => r.key = (deployment, "local", key)

/-- `UPDATE agent_commands SET f WHERE command_id=id AND p`. -/
def CommandDb.update (db : CommandDb) (id : String) (p : CommandRow → Bool)
    (f : CommandRow → CommandRow) : CommandDb :=
  { db with rows := db.rows.map fun r => if r.commandId = id && p r then f r else r }

/-- `INSERT` with the table's two keys; `none` is a unique violation. -/
def CommandDb.insert (db : CommandDb) (r : CommandRow) : Option CommandDb :=
  if db.rows.any fun r' => r'.commandId = r.commandId || r'.key = r.key then none
  else some { db with rows := db.rows ++ [r] }

/-! ## Statements and transactions -/

/-- `owner=$2 AND fence=$3 AND status='started'`. -/
def CommandRow.heldBy (owner : String) (fence : Int) (r : CommandRow) : Bool :=
  r.owner = some owner && r.fence = fence && r.status = .started

/-- `lease_expires_at>clock_timestamp()`. -/
def CommandRow.live (clock : Int) (r : CommandRow) : Bool := r.leaseExpiresAt.any (clock < ·)

/-- `lease_expires_at<=clock_timestamp()`. -/
def CommandRow.expired (clock : Int) (r : CommandRow) : Bool := r.leaseExpiresAt.any (· ≤ clock)

/-- `owner=NULL,lease_expires_at=NULL` with the new status. -/
def CommandRow.settle (status : CommandStatus) (r : CommandRow) : CommandRow :=
  { r with status, owner := none, leaseExpiresAt := none }

/-- The `UPDATE` that stores a terminal response. -/
def CommandRow.finish (status : Nat) (body : Value) (r : CommandRow) : CommandRow :=
  { r.settle (if 400 ≤ status then .failed else .succeeded) with response := some (status, body) }

/-- What a guarded transaction does to its own command besides. -/
inductive Outcome where
  | none
  | finish (status : Nat) (body : Value)
  | blocked

inductive Query where
  | find (deployment key : String)
  | sessionExists (id : String)
  /-- `INSERT … ON CONFLICT(namespace,client_scope,idempotency_key) DO NOTHING`. -/
  | insert (row : CommandRow)
  | fetch (deployment key : String)
  | takeOver (command owner : String)
  | renew (command owner : String) (fence : Int)
  /-- `admit`, after a handler that answers with a server error or a lost lease. -/
  | markUncertain (command owner : String) (fence : Int)
  /-- `admit`, after any other answer of a handler. -/
  | finalize (command owner : String) (fence : Int) (status : Nat) (body : Value)
  /-- A transaction of a holder under `guard`: a session commit, a cancellation or a
  reconciliation. `origin` is the command of an interrupted run. -/
  | guarded (command owner : String) (fence : Int) (session origin : Option String)
      (outcome : Outcome)
  /-- `lifecycle`, after a commit whose outcome is unresolved. -/
  | abandon (command owner : String) (fence : Int)
  /-- `administrative`: a command that is created held. -/
  | administrative (row : CommandRow) (owner : String)

/-- What a query returns. -/
abbrev Query.Result : Query → Type
  | .find .. => Option CommandRow
  | .sessionExists _ => Bool
  | .fetch .. => CommandRow
  | .takeOver .. => Option Int
  | .renew .. => Bool
  | _ => Unit

/-- `commands::guard`: the command is held by this owner under this fence, unexpired. -/
def CommandDb.guard (db : CommandDb) (command owner : String) (fence : Int) : Bool :=
  db.rows.any fun r => r.commandId = command && r.heldBy owner fence && r.live db.clock

/-- The effect of a guarded transaction on its own row. -/
def Outcome.apply (session : Option String) (o : Outcome) (r : CommandRow) : CommandRow :=
  let r := match session with
    | some id => { r with sessionId := some id }
    | .none => r
  match o with
  | .none => r
  | .finish status body => r.finish status body
  | .blocked => r.settle .blocked

/-- A takeover can claim the row: it is not settled and nobody holds it. -/
def CommandRow.claimable (clock : Int) (r : CommandRow) : Bool :=
  r.status.unsettled && (r.owner.isNone || r.expired clock)

/-- A query as PostgreSQL carries it out, one transaction at a time. -/
def Query.run : (q : Query) → CommandDb → Except SqlError q.Result × CommandDb
  | .find deployment key, db => (.ok (db.find deployment key), db)
  | .sessionExists id, db => (.ok (db.sessions.contains id), db)
  | .insert row, db =>
    -- the columns the statement does not name have their defaults
    if db.rows.any fun r => r.key = row.key then (.ok (), db)
    else match db.insert { row with
      status := .pending, response := none, owner := none, fence := 0, leaseExpiresAt := none } with
      | some db' => (.ok (), db')
      | none => (.error (.other "duplicate key value violates unique constraint"), db)
  | .fetch deployment key, db =>
    match db.find deployment key with
    | some row => (.ok row, db)
    | none => (.error (.other "no rows returned by a query that expected to return at least one row"),
        db)
  | .takeOver command owner, db =>
    match db.rows.find? fun r => r.commandId = command && r.claimable db.clock with
    | none => (.ok none, db)
    | some r =>
      let db' := db.update command (CommandRow.claimable db.clock) fun r =>
        { r with owner := some owner, fence := r.fence + 1,
                 leaseExpiresAt := some (db.clock + 30), status := .started }
      (.ok (some (r.fence + 1)), { db' with grants := db.grants ++ [⟨command, owner, r.fence + 1⟩] })
  | .renew command owner fence, db =>
    (.ok (db.guard command owner fence),
      db.update command (fun r => r.heldBy owner fence && r.live db.clock) fun r =>
        { r with leaseExpiresAt := some (db.clock + 30) })
  | .markUncertain command owner fence, db =>
    (.ok (), db.update command (fun r => r.heldBy owner fence && r.live db.clock)
      (CommandRow.settle .uncertain))
  | .finalize command owner fence status body, db =>
    (.ok (), db.update command (fun r => r.heldBy owner fence && r.live db.clock)
      (CommandRow.finish status body))
  | .guarded command owner fence session origin outcome, db =>
    if db.guard command owner fence then
      let db' := match origin with
        | some id => if id = command then db else
            db.update id (fun r => r.status.unsettled &&
              (r.leaseExpiresAt.isNone || r.expired db.clock)) (CommandRow.settle .uncertain)
        | none => db
      (.ok (), db'.update command (CommandRow.heldBy owner fence) (outcome.apply session))
    else (.error (.other "command lease lost"), db)
  | .abandon command owner fence, db =>
    (.ok (), db.update command (CommandRow.heldBy owner fence) (CommandRow.settle .uncertain))
  | .administrative row owner, db =>
    match db.insert { row with
      status := .started, response := none, owner := some owner, fence := 1,
      leaseExpiresAt := some (db.clock + 300) } with
    | some db' =>
      (.ok (), { db' with grants := db.grants ++ [⟨row.commandId, owner, 1⟩] })
    | none => (.error (.other "duplicate key value violates unique constraint"), db)

/-! ## Effects -/

inductive CommandEff where
  | uuid
  /-- `cfg`: the names of the configured tools, the resolved configuration and its digest. -/
  | config (ref : String)
  | sql (q : Query)

abbrev CommandReply : CommandEff → Type
  | .uuid => String
  | .config _ => Except String (List String × Value × String)
  | .sql q => Except SqlError q.Result

/-- One effect on the shared table. A query answers, or fails; a failed query may have been carried
out. -/
def CommandEff.exec : (e : CommandEff) → CommandDb → CommandReply e → CommandDb → Prop
  | .uuid, db, _, db' => db' = db
  | .config _, db, _, db' => db' = db
  | .sql q, db, (r : Except SqlError q.Result), db' =>
    (r = (q.run db).1 ∧ db' = (q.run db).2) ∨
      ∃ e, r = .error e ∧ (db' = db ∨ db' = (q.run db).2)

/-! ## Requests and responses -/

/-- A response body, as `admit` looks at it. -/
inductive Body where
  | json (v : Value)
  | text
  /-- More than `admit` is willing to read. -/
  | oversized

structure Response where
  status : Nat
  body : Body
  /-- The content type starts with `text/event-stream`. -/
  stream : Bool := false
  headers : List (String × String) := []

structure HttpRequest where
  method : String
  path : String
  /-- The values of `Idempotency-Key`; `none` is a value that is not text. -/
  idempotencyKeys : List (Option String)
  /-- The body as text, or why it cannot be read. -/
  body : Except String String
  oversized : Bool := false

/-- The process the middleware runs in: the handlers behind it get the route and the body with the
command injected. -/
structure Server where
  host : Host
  deployment : Option String
  next : String → Value → Program CommandEff CommandReply Response

/-- `reject`. -/
def reject (status : Nat) (code message : String) : Response :=
  { status, body := .json (.obj [("code", .str code), ("detail", .str message)]) }

/-- `valid_key`. -/
def validKey (key : String) (count : Nat) : Bool :=
  count = 1 && key ≠ "" && key.utf8ByteSize ≤ 255 &&
    key.toList.all fun c => 33 ≤ c.toNat && c.toNat ≤ 126

def nonempty (v : Option Value) : Bool := (v.bind Value.asStr).any (· ≠ "")

/-- The request fields a route accepts. -/
def fieldsOf (route : String) : List String :=
  if route = "/sessions" then ["user_prompt", "config_ref"]
  else if Text.endsWith route "/messages" then ["content"]
  else if Text.endsWith route "/cancel" then ["run_id"]
  else if Text.endsWith route "/resume" then ["content", "max_steps"]
  else ["max_steps"]

/-- `entry(k).or_insert(v)`. -/
def orInsert (k : String) (v : Value) (fields : List (String × Value)) : List (String × Value) :=
  if (lookup k fields).isSome then fields else fields ++ [(k, v)]

/-- The defaults and checks of `normalize`, by route. -/
def normalizeFields (host : Host) (route : String) (obj : List (String × Value)) :
    Except String (List (String × Value)) :=
  if route = "/sessions" then
    if !nonempty (lookup "user_prompt" obj) then .error "user_prompt is required"
    else
      let obj := orInsert "config_ref" (.str "log-analysis.yaml") obj
      if !nonempty (lookup "config_ref" obj) then .error "config_ref must be nonempty" else .ok obj
  else if Text.endsWith route "/messages" then
    if !nonempty (lookup "content" obj) then .error "content must be nonempty" else .ok obj
  else if Text.endsWith route "/cancel" then
    match (lookup "run_id" obj).bind Value.asStr with
    | none => .error "run_id required"
    | some id => match host.parseUuid id with
      | none => .error "run_id must be UUID"
      | some id => .ok (insertField "run_id" (.str id) obj)
  else
    let obj := orInsert "max_steps" .null obj
    let steps := (lookup "max_steps" obj).getD .null
    if !steps.isNull && !steps.asU64.any (fun v => 0 < v ∧ v ≤ 50) then
      .error "max_steps must be a positive integer"
    else if Text.endsWith route "/resume" then
      let obj := orInsert "content" .null obj
      let content := (lookup "content" obj).getD .null
      if !content.isNull && !nonempty (some content) then .error "content must be nonempty or null"
      else .ok obj
    else .ok obj

/-- `normalize`. -/
def normalize (host : Host) (route : String) (body : Value) : Except String Value :=
  match body with
  | .obj obj =>
    if obj.any fun f => !(fieldsOf route).contains f.1 then .error "Unknown request field"
    else do
      let obj ← normalizeFields host route obj
      let _ ← Identity.canonical host (.obj obj)
      return .obj obj
  | _ => .error "JSON body must be an object"

/-! ## `admit` -/

/-- What `admit` knows of a request before it looks at the database. -/
structure Prepared where
  key : String
  route : String
  session : Option String
  body : Value
  hash : String
  deployment : String

/-- The route with the session's UUID in canonical form, and that UUID. -/
def parseRoute (host : Host) (path : String) : Option (String × Option String) :=
  let parts := Text.split path '/'
  match parts with
  | a :: "sessions" :: id :: rest => match host.parseUuid id with
    | some id => some (Text.joinWith "/" (a :: "sessions" :: id :: rest), some id)
    | none => none
  | _ => some (Text.joinWith "/" parts, none)

/-- The part of `admit` up to the first query: the request is refused, the server fails, or it is
ready for admission. -/
def prepare (sv : Server) (request : HttpRequest) : Except (SqlError ⊕ Response) Prepared := do
  let refuse (code message : String) : Except (SqlError ⊕ Response) Prepared :=
    .error (.inr (reject 422 code message))
  match request.idempotencyKeys with
  | [] => refuse "idempotency_key_required" "Idempotency-Key is required"
  | first :: _ =>
    let key := first.getD ""
    if !validKey key request.idempotencyKeys.length then
      refuse "idempotency_key_invalid" "Invalid Idempotency-Key"
    else match parseRoute sv.host request.path with
    | none => refuse "invalid_session_id" "Session ID must be UUID"
    | some (route, session) =>
      if request.oversized then refuse "invalid_request" "Request body too large"
      else match request.body >>= parseStrictJson sv.host >>= normalize sv.host route with
      | .error e => refuse "invalid_request" e
      | .ok body =>
        match Identity.digest sv.host
          (.arr [.str "agent-command-v1", .str "POST", .str route, body]), sv.deployment with
        | .error e, _ => .error (.inl (.other e))
        | .ok _, none => .error (.inl (.other "AGENT_DEPLOYMENT_NAMESPACE is required"))
        | .ok hash, some deployment => .ok { key, route, session, body, hash, deployment }

/-- The functions of the middleware: they end early with a response, or with a database error. -/
abbrev AdmitM (α : Type) : Type := Proc CommandEff CommandReply Unit (SqlError ⊕ Response) α

namespace AdmitM

def uuid : AdmitM String := Proc.request CommandEff.uuid

def config (ref : String) : AdmitM (Except String (List String × Value × String)) :=
  Proc.request (CommandEff.config ref)

/-- One query, with `?` on its failure. -/
def sql (q : Query) : AdmitM q.Result := fun s =>
  .perform (.sql q) fun r : Except SqlError q.Result => match r with
    | .ok a => .ret (.ok a, s)
    | .error e => .ret (.error (.inl e), s)

/-- `return Ok(response)`. -/
def respond {α : Type} (r : Response) : AdmitM α := Proc.fail (.inr r)

end AdmitM

/-- `tools::is_supported`. -/
def isSupported (name : String) : Bool :=
  ["fixture_idempotent_write", "inspect_log", "analyze_500_ips", "validate_top_offending_ip",
    "inspect_sql_schema", "query_chicago_q1_revenue", "validate_chicago_q1_revenue",
    "inspect_employee_audit_schema", "audit_employee_phase_1", "calculate_new_york_median_salary",
    "generate_employee_phase_3_report", "validate_employee_audit"].contains name

/-- What a new command remembers of its admission. -/
def admissionOf (p : Prepared) (existing : Option CommandRow) : AdmitM Value :=
  if existing.isNone && p.route = "/sessions" then do
    match ← AdmitM.config (((p.body.index "config_ref").asStr).getD "") with
    | .error e => AdmitM.respond (reject 422 "invalid_config" e)
    | .ok (tools, raw, source) =>
      if tools.any fun t => !isSupported t then
        AdmitM.respond (reject 422 "invalid_config" "Unavailable tool")
      else do
        let session ← AdmitM.uuid
        return .obj [("session_id", .str session), ("config", raw), ("source_sha256", .str source)]
  else return .obj [("session_id", .ofStr? p.session)]

/-- The answer to a command that is already finished. -/
def replay (row : CommandRow) (status : Nat) (body : Value) : Response :=
  { status, body := .json body
    headers := [("Idempotency-Replayed", "true"), ("Idempotency-Command-Id", row.commandId)] }

/-- The answer while somebody else holds the command. -/
def accepted (row : CommandRow) : Response :=
  { status := 202
    body := .json (.obj [("command_id", .str row.commandId), ("session_id", .ofStr? row.sessionId),
      ("status", .str row.status.text), ("status_uri", .str ("/commands/" ++ row.commandId))])
    headers := [("Retry-After", "1"), ("Idempotency-Command-Id", row.commandId)] }

/-- The answer to a key that identifies another request. -/
def keyReused : Response :=
  reject 409 "idempotency_key_reused" "Key already identifies different content or route"

/-- The body a handler gets. -/
def injected (p : Prepared) (row : CommandRow) (owner : String) (fence : Int) : Value :=
  p.body.set "_command" (.obj [("id", .str row.commandId), ("owner", .str owner),
    ("fence", .int fence), ("namespace", .str p.deployment), ("route", .str p.route),
    ("admission", (row.request.get "admission").getD .null)])

/-- Stores the outcome of a handler that did not do so itself. -/
def settleResponse (sv : Server) (command owner : String) (fence : Int) (response : Response) :
    AdmitM Unit :=
  if response.stream then pure ()
  else match response.body with
  | .oversized => Proc.fail (.inl (.other "length limit exceeded"))
  | .text => pure ()
  | .json value =>
    if 500 ≤ response.status || Text.containsStr (value.text sv.host) "lease lost" then
      AdmitM.sql (.markUncertain command owner fence)
    else AdmitM.sql (.finalize command owner fence response.status value)

/-- Takes the command over, runs the handler and stores its outcome. -/
def execute (sv : Server) (p : Prepared) (row : CommandRow) : AdmitM Response := do
  let owner ← AdmitM.uuid
  match ← AdmitM.sql (.takeOver row.commandId owner) with
  | none => return accepted row
  | some fence =>
    let response ← Proc.lift (sv.next p.route (injected p row owner fence))
    settleResponse sv row.commandId owner fence response
    return { response with
      headers := response.headers ++ [("Idempotency-Command-Id", row.commandId)] }

/-- The row `admit` inserts. -/
def newRow (p : Prepared) (id : String) (admission : Value) : CommandRow :=
  { commandId := id, deployment := p.deployment, clientScope := "local", idempotencyKey := p.key,
    method := "POST", route := p.route,
    request := .obj [("input", p.body), ("admission", admission)],
    requestSha256 := p.hash, sessionId := p.session, status := .pending }

/-- A new command on a session needs the session. -/
def requireSession (p : Prepared) (existing : Option CommandRow) : AdmitM Unit :=
  match p.session, existing with
  | some session, none => do
    let found : Bool ← AdmitM.sql (.sessionExists session)
    if found then pure () else AdmitM.respond (reject 404 "not_found" "Session not found")
  | _, _ => pure ()

/-- `admit`, once the request is prepared. -/
def admitPrepared (sv : Server) (p : Prepared) : AdmitM Response := do
  let existing ← AdmitM.sql (.find p.deployment p.key)
  requireSession p existing
  let admission ← admissionOf p existing
  let id ← AdmitM.uuid
  AdmitM.sql (.insert (newRow p id admission))
  let row ← AdmitM.sql (.fetch p.deployment p.key)
  if row.requestSha256 ≠ p.hash || row.route ≠ p.route then return keyReused
  else match row.response with
    | some (status, body) => return replay row status body
    | none => execute sv p row

/-- `admit`. -/
def admitCommand (sv : Server) (request : HttpRequest) : AdmitM Response := do
  let p ← Proc.ofExcept (prepare sv request)
  admitPrepared sv p

/-- `admission`: the answer to a request, whatever happens. -/
def admission (sv : Server) (request : HttpRequest) : Program CommandEff CommandReply Response :=
  (admitCommand sv request ()).bind fun out => .ret <| match out.1 with
    | .ok r => r
    | .error (.inr r) => r
    | .error (.inl e) => reject 500 "persistence_error" e.message

end Commands

end StateDrivenAgent
