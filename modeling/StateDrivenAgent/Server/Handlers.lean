import StateDrivenAgent.Agent.Run
import StateDrivenAgent.Server.Save
import StateDrivenAgent.Storage.Tables

/-!
# The request handlers

The handlers of `main.rs` that change a session. A handler locks and loads the session, and a run
also takes the session's execution lease and gives the engine a callback that saves every checkpoint
and looks for a cancellation. The body of a request comes with the admitted command in `_command`.

The heartbeat that renews the lease and the watcher of a dropped connection are not part of a
handler's program: they are moves of the tables that may happen at any time.
-/

namespace StateDrivenAgent

open Interaction

namespace Server

open Commands (Response)

/-! ## Requests and responses -/

def respond (status : Nat) (body : Value) : Response := { status, body := .json body }

def detail (status : Nat) (message : String) : Response :=
  respond status (.obj [("detail", .str message)])

/-- `internal`. -/
def internal (e : SqlError) : Response :=
  let conflict := ["revision conflict", "ownership conflict", "lease lost", "fenced worker"].any
    (Text.containsStr e.message)
  detail (if conflict then 409 else 500) e.message

/-- `validation_error`. -/
def validationError (errors : List Value) : Response := respond 422 (.obj [("detail", .arr errors)])

/-- `field_error`. -/
def fieldError (field : String) (value : Option Value) (kind message : String)
    (ctx : Option Value) : Value :=
  .obj <| [("loc", .arr [.str "body", .str field]), ("msg", .str message), ("type", .str kind)] ++
    (value.map fun v => ("input", v)).toList ++ (ctx.map fun c => ("ctx", c)).toList

/-- `validate_body`. -/
def validateBody (q : Value) : Option Value :=
  if q.isObject then none
  else some (.obj [("loc", .arr [.str "body"]),
    ("msg", .str "Input should be a valid dictionary or object to extract fields from"),
    ("type", .str "model_attributes_type"), ("input", q)])

/-- `coerce_integer`. -/
def coerceInteger (v : Value) : Option Int :=
  match v with
  | .num (.int i) =>
    if -2 ^ 63 ≤ i ∧ i < 2 ^ 63 then some i
    -- an integer beyond `i64` is read as a double, and cast with saturation
    else if (F64.ofInt i).toRat ≤ 2 ^ 63 then some (2 ^ 63 - 1) else none
  | .num (.float f) =>
    if f.isIntegral ∧ -2 ^ 63 ≤ f.toRat ∧ f.toRat ≤ 2 ^ 63 then some (min f.toRat.num (2 ^ 63 - 1))
    else none
  | .str s => Text.parseInt 64 (Text.trim s)
  | .bool b => some (if b then 1 else 0)
  | _ => none

/-- `validate_max_steps`. -/
def validateMaxSteps (q : Value) : Option Value :=
  match (q.get "max_steps").filter fun v => !v.isNull with
  | none => none
  | some value =>
    let text := value.asStr.isSome
    let error (kind message : String) (ctx : Option Value) : Option Value :=
      some (fieldError "max_steps" (some value) kind message ctx)
    match coerceInteger value with
    | none => error (if text then "int_parsing" else "int_type")
        (if text then "Input should be a valid integer, unable to parse string as an integer"
          else "Input should be a valid integer") none
    | some x =>
      if x < 1 then error "greater_than_equal" "Input should be greater than or equal to 1"
        (some (.obj [("ge", .int 1)]))
      else if 50 < x then error "less_than_equal" "Input should be less than or equal to 50"
        (some (.obj [("le", .int 50)]))
      else none

/-- The errors of a text field that is there. -/
def textErrors (field : String) (v : Value) : List Value :=
  match v with
  | .str "" => [fieldError field (some v) "string_too_short" "String should have at least 1 character"
      (some (.obj [("min_length", .int 1)]))]
  | .str _ => []
  | v => [fieldError field (some v) "string_type" "Input should be a valid string" none]

/-- The errors of a text field that has to be there. -/
def requiredText (field : String) (q : Value) : List Value :=
  match q.get field with
  | none => [fieldError field none "missing" "Field required" none]
  | some v => textErrors field v

/-- The command a request carries. -/
def commandOf (q : Value) : Option Command := do
  let c ← q.get "_command"
  let id ← (c.index "id").asStr
  let owner ← (c.index "owner").asStr
  let fence ← (c.index "fence").asI64
  return {
    id, owner, fence, namespaceId := ((c.index "namespace").asStr).getD "regression"
    route := ((c.index "route").asStr).getD "", admission := c.index "admission" }

/-- `commands::attach`. -/
def attach (q : Value) (s : Session) : Session :=
  { s with command := commandOf q, checkpointAck := some {} }

def sessionBusy : Response := detail 409 "session ownership conflict"

def notFound : Response := detail 404 "Session not found"

/-- The body that goes with a session. -/
def sessionBody (s : Session) (message : String) : Value :=
  .obj [("session", s.toValue), ("message", .str message)]

/-- The handlers, from the loaded session on: they may answer early. -/
abbrev HandlerM (α : Type) : Type := Proc Eff Reply Session Response α

namespace HandlerM

def update (f : Session → Session) : HandlerM Unit := Proc.update f

def get : HandlerM Session := Proc.state

def effect (e : Eff) : HandlerM (Reply e) := Proc.request e

def now : HandlerM String := effect Eff.now

def answer {α : Type} (r : Response) : HandlerM α := Proc.fail r

/-- A save whose failure is returned. -/
def save (config event : Value) : HandlerM (Except SqlError Unit) := fun s =>
  (Server.save config event s).bind fun out => .ret (.ok out.1, out.2)

/-- A function of the engine whose failure is returned. -/
def engine {α : Type} (f : EngineM α) : HandlerM (Except String α) := fun s =>
  (f s).bind fun out => .ret (.ok out.1, out.2)

/-- The answer of a handler on a loaded session. -/
def serve (f : HandlerM Response) (s : Session) : Prog Response :=
  (f s).bind fun out => match out.1 with
    | .ok r | .error r => .ret r

end HandlerM

/-- Locks and loads a session. -/
def withSession (id : String) (k : Session → Value → Prog Response) : Prog Response :=
  .perform (.lockSession id) fun locked : Bool =>
    if !locked then .ret sessionBusy
    else .perform (.load id) fun found : Option (Session × Value) => match found with
      | none => .ret notFound
      | some (s, config) => k s config

/-! ## Messages -/

def messageAppended : String := "User input appended to session memory."

/-- `message`, on the loaded session. -/
def appendContent (q config : Value) (content : String) : HandlerM Response := do
  HandlerM.update (attach q)
  let s ← HandlerM.get
  if s.status ≠ .active then
    HandlerM.answer (detail 409
      "Cannot append to a terminal session; use /resume with content instead")
  else do
    let _ ← HandlerM.engine (appendMessage (msg "user" content))
    match ← HandlerM.save config (.obj [("type", .str "user_message_appended")]) with
    | .ok () => do
      let s ← HandlerM.get
      return respond 200 (sessionBody s messageAppended)
    | .error e => return internal e

/-- `message`. -/
def message (id : String) (q : Value) : Prog Response :=
  match validateBody q with
  | some error => .ret (validationError [error])
  | none => .perform (.lockSession id) fun locked : Bool =>
    if !locked then .ret sessionBusy
    else match requiredText "content" q with
      | error :: _ => .ret (validationError [error])
      | [] => .perform (.load id) fun found : Option (Session × Value) => match found with
        | none => .ret notFound
        | some (s, config) => (appendContent q config ((q.index "content").asStr.getD "")).serve s

/-! ## Checkpoints -/

/-- Saves a checkpoint of the engine with the handler's revision counter. -/
def saveCheckpoint (config event : Value) : EngineM Unit := fun s =>
  (save config event { s with revision := s.emitRevision }).bind fun out => match out with
    | (.ok (), s') => .ret (.ok (), { s' with emitRevision := s'.revision })
    | (.error e, s') => .ret (.error e.message, s')

/-- The cancellation flag of the session's run, as `fetch_one` and `fetch_optional` read it. -/
def cancelled (missing : Except String Bool) : EngineM Bool := do
  let s ← EngineM.get
  match s.runId with
  | none => return false
  | some run => do
    let found ← (Proc.request (Eff.cancelRequested s.id run) :
      EngineM (Except SqlError (Option Bool)))
    Proc.ofExcept (match found with
      | .error e => .error e.message
      | .ok none => missing
      | .ok (some flag) => .ok flag)

def runCancelled : String := "run_cancelled"

/-- The callback of `run`. -/
def emitRun (config : Value) : Emit := fun event s =>
  (do
    saveCheckpoint config event
    let flag ← cancelled (.error "no rows returned by a query that expected to return at least one row")
    if flag then Proc.fail runCancelled else pure () : EngineM Unit) s

/-- `events::decorate`. -/
def decorate (event : Value) (s : Session) : Prog Value :=
  .perform (.eventId s.id s.revision) fun id : Option Int =>
    let event := match s.command with
      | some c => event.set "command_id" (.str c.id)
      | none => event
    let event := event.set "run_id" (.ofStr? s.runId)
    .ret (match id with
      | some id => event.set "event_id" (.int id)
      | none => event)

/-- Asks for the cancellation of a run. -/
def requestCancel : Option String → EngineM Unit
  | some run => Proc.request (Eff.requestCancel run)
  | none => pure ()

/-- Sends a saved event to the client; without one the run is cancelled. -/
def sendOrCancel (event : Value) : EngineM Unit := do
  let s ← EngineM.get
  let event ← Proc.lift (decorate event s)
  let sent ← (Proc.request (Eff.send event) : EngineM Bool)
  if sent then pure ()
  else do
    requestCancel s.runId
    Proc.fail runCancelled

/-- The callback of `lifecycle`. -/
def emitStream (config : Value) : Emit := fun event s =>
  (do
    saveCheckpoint config event
    let flag ← cancelled (.ok false)
    if flag then Proc.fail runCancelled else sendOrCancel event : EngineM Unit) s

/-- `execute`. -/
def execute (env : Deployment) (config q : Value) (emit : Emit) : EngineM Unit := do
  let config ← Proc.ofExcept (env.readConfig config)
  let engine : Engine := { host := env.toHost, config }
  engine.run emit ((q.get "max_steps").bind coerceInteger)

/-! ## The lease of a run -/

/-- The worker of a run. -/
structure Lease where
  session : String
  owner : String
  fence : Int

def release (l : Lease) : HandlerM Unit := HandlerM.effect (.releaseLease l.session l.owner l.fence)

/-- Releases the lease and answers. -/
def releaseWith {α : Type} (l : Lease) (r : Response) : HandlerM α := do
  release l
  HandlerM.answer r

/-- Takes the execution lease for the session. -/
def acquire (env : Deployment) (id : String) : HandlerM Lease := do
  match env.parseUuid id with
  | none => HandlerM.answer notFound
  | some session => do
    let r ← (HandlerM.effect (.acquireLease session) : HandlerM (Except SqlError (String × Int)))
    match r with
    | .error e => HandlerM.answer (if Text.containsStr e.message "ownership conflict" then
        detail 409 e.message else internal e)
    | .ok (owner, fence) => do
      HandlerM.update fun s => { s with executionOwner := some owner, executionFence := some fence }
      return { session, owner, fence }

/-- The session whose run was left behind by another worker. -/
def interrupt (now : String) (s : Session) : Session :=
  { s with
    runStatus := .interrupted, runEndedAt := some now
    runTerminationReason := some "previous_worker_abandoned" }

/-- Closes a run that another worker left behind. -/
def closeAbandoned (config : Value) (l : Lease) : HandlerM Unit := do
  let s ← HandlerM.get
  if s.runStatus ≠ .running then pure ()
  else do
    let now ← HandlerM.now
    HandlerM.update (interrupt now)
    match ← HandlerM.save config (.obj [("type", .str "run_interrupted"),
      ("reason", .str "previous_worker_abandoned")]) with
    | .ok () => pure ()
    | .error e => releaseWith l (internal e)

/-- The event of a finished run. -/
def runFinished (status : String) : Value :=
  .obj [("type", .str "run_finished"), ("status", .str status)]

/-- The callback starts from the revision the handler has reached. -/
def openCounter (s : Session) : Session := { s with emitRevision := s.revision }

/-- The handler takes over the revision its callback has reached. -/
def adoptRevision (s : Session) : Session := { s with revision := s.emitRevision }

/-- `committed_command_response`. -/
def committedResponse (q : Value) : HandlerM Response := do
  let id := (((q.get "_command").getD .null).index "id").asStr.getD ""
  let r ← (HandlerM.effect (.committedResponse id) : HandlerM (Except SqlError (Nat × Value)))
  match r with
  | .ok (status, body) => return respond status body
  | .error e => return internal e

/-! ## `run` -/

/-- The errors that end a run without being a failure of the service. -/
def settles (error : String) : Bool :=
  error = runCancelled || Text.startsWith error "recovery_required"

/-- The session of a run that was cancelled or is blocked. -/
def stoppedRun (now error : String) (s : Session) : Session :=
  let stopped : Bool := error = runCancelled
  let s := adoptRevision s
  let s := if stopped then acknowledgeCommittedOutboxes s else s
  let reason := if stopped then "run_cancelled" else "recovery_required"
  let message := if stopped then "Run cancelled; use /resume to recover committed work."
    else "Safe recovery requires resolving the original action."
  { s with
    status := .failed, runStatus := if stopped then .cancelled else .blocked
    runEndedAt := some now, runTerminationReason := some reason, finalAnswer := some message
    lastError := some (.obj [("code", .str reason), ("message", .str message),
      ("recoverable", .bool true)]) }

/-- The end of `run`, by the outcome of the engine. -/
def finishRun (config q : Value) (outcome : Except String Unit) : HandlerM Response := do
  match outcome with
  | .ok () => do
    HandlerM.update adoptRevision
    let s ← HandlerM.get
    match ← HandlerM.save config (runFinished s.status.text) with
    | .ok () => committedResponse q
    | .error e => return internal e
  | .error error =>
    if settles error then do
      let now ← HandlerM.now
      HandlerM.update (stoppedRun now error)
      let s ← HandlerM.get
      match ← HandlerM.save config (runFinished s.runStatus.text) with
      | .ok () =>
        if s.runStatus ≠ .blocked then committedResponse q
        else do
          let s ← HandlerM.get
          return respond 202 (sessionBody s (s.finalAnswer.getD ""))
      | .error e => return internal e
    else return detail 502 ("Model service response was invalid: " ++ error)

/-- `run`, on the loaded session. -/
def runSession (env : Deployment) (id : String) (q config : Value) : HandlerM Response := do
  HandlerM.update (attach q)
  let s ← HandlerM.get
  if s.status ≠ .active then
    HandlerM.answer (detail 409
      "Session is terminal; use POST /sessions/\x7bid\x7d/resume to continue it.")
  else do
    let l ← acquire env id
    closeAbandoned config l
    HandlerM.update openCounter
    let outcome ← HandlerM.engine (execute env config q (emitRun config))
    let response ← finishRun config q outcome
    release l
    return response

/-- `run`. -/
def run (env : Deployment) (id : String) (q : Value) : Prog Response :=
  match validateBody q, validateMaxSteps q with
  | some error, _ | none, some error => .ret (validationError [error])
  | none, none => withSession id fun s config => (runSession env id q config).serve s

/-! ## `stream_run` and `resume` -/

/-- The response of a streamed run. -/
def streamResponse : Response :=
  { status := 200, body := .text, stream := true
    headers := [("cache-control", "no-cache"), ("connection", "keep-alive")] }

def persistenceError (message : String) : Value :=
  Engine.errorEvent "persistence_error" (.str message)

/-- Sends an event to the client, whether or not it is still there. -/
def tell (event : Value) : HandlerM Unit := do
  let _ ← (HandlerM.effect (.send event) : HandlerM Bool)
  pure ()

/-- A problem ends the task of a streamed run. -/
def endTask {α : Type} (l : Lease) (event : Value) : HandlerM α := do
  tell event
  releaseWith l streamResponse

/-- Saves an event and sends it. -/
def saveAndTell (config event : Value) : HandlerM (Except SqlError Unit) := do
  match ← HandlerM.save config event with
  | .error e => return .error e
  | .ok () => do
    let s ← HandlerM.get
    let event ← (Proc.lift (decorate event s) : HandlerM Value)
    tell event
    return .ok ()

/-- The session a resume starts from. -/
def reopen (s : Session) : Session :=
  resetResumeCounters { s with status := .active, finalAnswer := none }

/-- Appends what the user has to say, if anything. -/
def appendGiven : Option String → HandlerM Unit
  | some content => do
    let _ ← HandlerM.engine (appendMessage (msg "user" content))
    pure ()
  | none => pure ()

/-- The part of `lifecycle` only a resume has. -/
def resumeSession (q config : Value) (l : Lease) : HandlerM Unit := do
  appendGiven (q.index "content").asStr
  HandlerM.update reopen
  match ← HandlerM.save config (.obj [("type", .str "session_resumed"),
    ("has_new_user_message", .bool ((q.index "content").asStr.any (· ≠ "")))]) with
  | .ok () => pure ()
  | .error e => releaseWith l (internal e)

/-- The status event of a restored session. -/
def restoredEvent : Value :=
  Actions.statusEvent "Session restored from PostgreSQL; resuming agent work."

/-- Announces a restored session. -/
def announceRestored (config : Value) (l : Lease) : HandlerM Unit := do
  match ← saveAndTell config restoredEvent with
  | .ok () => pure ()
  | .error e => endTask l (persistenceError e.message)

/-- `output.verbose_setup`. -/
def verboseSetup (env : Deployment) (config : Value) : Bool :=
  match env.readConfig config with
  | .ok config => config.verboseSetup
  | .error _ => false

/-- Announces the setup of the run. -/
def announceSetup (resume : Bool) (config : Value) (l : Lease) : HandlerM Unit := do
  let s ← HandlerM.get
  let text := if resume then
      "Restored immutable config, workflow evidence, memory, and compaction ledger."
    else "Agent initialized from persisted session state."
  match ← saveAndTell config (.obj [("type", .str "status"), ("message", .str text),
    ("config_ref", .ofStr? s.configRef)]) with
  | .ok () => pure ()
  | .error e => endTask l (.obj [("type", .str "error"), ("message", .str e.message),
      ("recoverable", .bool true)])

/-- The session of a streamed run that failed. -/
def failedRun (now error : String) (s : Session) : Session :=
  let stopped : Bool := error = runCancelled
  let s := if stopped then acknowledgeCommittedOutboxes s else s
  let blocked := !stopped && Text.startsWith error "recovery_required"
  let cancelledText := "Run cancelled; use /resume to recover committed work."
  { s with
    status := .failed
    runStatus := if stopped then .cancelled else if blocked then .blocked else .failed
    finalAnswer := some (if stopped then cancelledText else "Agent run failed: " ++ error)
    runEndedAt := some now
    runTerminationReason := some (if stopped then "run_cancelled"
      else if blocked then "recovery_required" else "run_failed")
    lastError := some (.obj [("code", .str (if stopped then "run_cancelled" else "run_failed")),
      ("message", .str (if stopped then cancelledText else error)), ("recoverable", .bool true)]) }

/-- The event of a failed run. -/
def failureEvent (s : Session) : Value :=
  let field (k : String) : Value := (s.lastError.bind fun error => error.get k).getD .null
  .obj [("type", .str "error"), ("message", field "message"), ("code", field "code"),
    ("recoverable", .bool true)]

/-- The command of a commit whose outcome is unresolved. -/
def markUncertain : Option Command → HandlerM Unit
  | some command => HandlerM.effect (.markUncertain command)
  | none => pure ()

/-- Commits the failure of a streamed run. -/
def commitFailure (config : Value) (l : Lease) (event : Value) : HandlerM Unit := do
  match ← HandlerM.save config event with
  | .ok () => HandlerM.update openCounter
  | .error e => endTask l (persistenceError ("Unable to persist run failure: " ++ e.message))

/-- Stores the failure of a streamed run. -/
def storeFailure (config : Value) (l : Lease) (error : String) : HandlerM Unit := do
  if Text.containsStr error "commit_outcome_unresolved" then do
    let s ← HandlerM.get
    markUncertain s.command
    endTask l (persistenceError ("Commit outcome is unresolved; inspect the original command before " ++
      "recovery."))
  else do
    let now ← HandlerM.now
    HandlerM.update (failedRun now error)
    let s ← HandlerM.get
    commitFailure config l (failureEvent s)
    tell (failureEvent s)

def storeOutcome (config : Value) (l : Lease) : Except String Unit → HandlerM Unit
  | .ok () => pure ()
  | .error error => storeFailure config l error

/-- The end of a streamed run. -/
def finishStream (config : Value) (l : Lease) (outcome : Except String Unit) : HandlerM Unit := do
  HandlerM.update adoptRevision
  storeOutcome config l outcome
  HandlerM.update adoptRevision
  let s ← HandlerM.get
  match ← saveAndTell config (runFinished s.status.text) with
  | .ok () => release l
  | .error e => endTask l (persistenceError ("Unable to persist run completion: " ++ e.message))

/-- The events of a streamed run before the engine starts. -/
def announce (env : Deployment) (config : Value) (resume : Bool) (l : Lease) : HandlerM Unit := do
  (if resume then announceRestored config l else pure () : HandlerM Unit)
  if verboseSetup env config then announceSetup resume config l else pure ()

/-- The task a streamed run spawns. -/
def streamTask (env : Deployment) (q config : Value) (resume : Bool) (l : Lease) : HandlerM Unit := do
  announce env config resume l
  HandlerM.update openCounter
  let outcome ← HandlerM.engine (execute env config q (emitStream config))
  finishStream config l outcome

/-- The part only a resume has, for a resume. -/
def resumeIf (resume : Bool) (q config : Value) (l : Lease) : HandlerM Unit :=
  if resume then resumeSession q config l else pure ()

/-- `lifecycle`, on the loaded session. -/
def streamSession (env : Deployment) (id : String) (q config : Value) (resume : Bool) :
    HandlerM Response := do
  HandlerM.update (attach q)
  let s ← HandlerM.get
  if !resume ∧ s.status ≠ .active then
    HandlerM.answer (detail 409
      "Session is terminal; use POST /sessions/\x7bid\x7d/resume to continue it")
  else do
    let l ← acquire env id
    closeAbandoned config l
    resumeIf resume q config l
    streamTask env q config resume l
    return streamResponse

/-- `lifecycle`. The response of a streamed run is sent when its task starts; the program goes on
with the task. -/
def lifecycle (env : Deployment) (id : String) (q : Value) (resume : Bool) : Prog Response :=
  match validateBody q with
  | some error => .ret (validationError [error])
  | none =>
    let content := if resume then
        ((q.get "content").filter fun v => !v.isNull).elim [] (textErrors "content") else []
    let errors := (validateMaxSteps q).toList ++ content
    if !errors.isEmpty then .ret (validationError errors)
    else withSession id fun s config => (streamSession env id q config resume).serve s

/-- `stream_run`. -/
def streamRun (env : Deployment) (id : String) (q : Value) : Prog Response := lifecycle env id q false

/-- `resume`. -/
def resume (env : Deployment) (id : String) (q : Value) : Prog Response := lifecycle env id q true

/-! ## Creation and reconciliation -/

/-- The session `create` starts with. -/
def newSession (config : Config) (command : Option Command) (id goal ref sha resolved : String) :
    Session :=
  { command, id, goal, configRef := some ref, configSha256 := some sha
    resolvedConfigSha256 := some resolved
    memory := [{ role := "user", content := some goal }]
    workflow := config.workflow.map Engine.initialWorkflow }

/-- `create`, from the configuration on. -/
def createSession (env : Deployment) (q : Value) (goal : String) (raw : Value) (sha : String)
    (config : Config) : Prog Response :=
  match config.tools.find? fun t => !Commands.isSupported t.name with
  | some t => .ret (detail 422
      ("Invalid config_ref: config references unavailable compiled-in tools: " ++ t.name))
  | none =>
    let ref := env.canonicalRef (((q.index "config_ref").asStr).getD "log-analysis.yaml")
    let resolved := ConfigHash.resolvedConfigHash env.toHost config
    let start (id : String) : Prog Response :=
      HandlerM.serve (do
        match ← HandlerM.save raw (.obj [("type", .str "session_created"),
          ("config_ref", .str ref), ("config_sha256", .str sha),
          ("resolved_config_sha256", .str resolved)]) with
        | .ok () => do
          let s ← HandlerM.get
          return respond 201 (sessionBody s ("Session created with immutable config " ++ ref ++ "@" ++
            .ofList (sha.toList.take 12) ++ "."))
        | .error e => return internal e)
        (newSession config (commandOf q) id goal ref sha resolved)
    match (((q.index "_command").index "admission").index "session_id").asStr with
    | some id => start id
    | none => .perform (.uuid []) start

/-- `create`. -/
def create (env : Deployment) (q : Value) : Prog Response :=
  match validateBody q with
  | some error => .ret (validationError [error])
  | none =>
    let errors := requiredText "user_prompt" q ++
      (q.get "config_ref").elim [] (textErrors "config_ref")
    if !errors.isEmpty then .ret (validationError errors)
    else
      let goal := ((q.index "user_prompt").asStr).getD ""
      let frozen := (q.index "_command").index "admission"
      let withConfig (raw : Value) (sha : String) : Prog Response :=
        match env.readConfig raw with
        | .error e => .ret (detail 422 ("Invalid config_ref: " ++ e))
        | .ok config => createSession env q goal raw sha config
      if (frozen.index "config").isObject then
        withConfig (frozen.index "config") (((frozen.index "source_sha256").asStr).getD "")
      else .perform (.configFile (((q.index "config_ref").asStr).getD "log-analysis.yaml"))
        fun r : Except String (Value × String) => match r with
          | .error e => .ret (detail 422 ("Invalid config_ref: " ++ e))
          | .ok (raw, sha) => withConfig raw sha

/-- The session whose run an operator closes. -/
def abandon (now : String) (command : Command) (owner : String) (fence : Int) (s : Session) : Session :=
  let message := "Abandoned run detected; use /resume to recover committed work."
  { s with
    command := some command, executionOwner := some owner, executionFence := some fence
    runStatus := .interrupted, runEndedAt := some now
    runTerminationReason := some "worker_abandoned", status := .failed
    finalAnswer := some message
    lastError := some (.obj [("code", .str "run_abandoned"), ("message", .str message),
      ("recoverable", .bool true)]) }

/-- `reconcile::cli`, for one candidate: whether the run was closed. -/
def reconcile (command : Command) (id run : String) : Prog (Except SqlError Bool) :=
  .perform (.acquireLease id) fun lease : Except SqlError (String × Int) => match lease with
    | .error _ => .ret (.ok false)
    | .ok (owner, fence) => .perform (.load id) fun found : Option (Session × Value) =>
      let finish (r : Except SqlError Bool) : Prog (Except SqlError Bool) :=
        .perform (.releaseLease id owner fence) fun _ : Unit => .ret r
      match found with
      | none => finish (.error (protocol "invalid session snapshot"))
      | some (s, config) =>
        if s.runId ≠ some run ∨ s.runStatus ≠ .running then finish (.ok false)
        else .perform .now fun now : String =>
          (save config (.obj [("type", .str "run_reconciled"), ("run_id", .str run),
            ("reason", .str "worker_abandoned")]) (abandon now command owner fence s)).bind
            fun out => finish (out.1.map fun _ => true)

end Server

end StateDrivenAgent
