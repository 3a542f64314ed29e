import StateDrivenAgent.Server.Handlers
import StateDrivenAgent.Spec.Moves

/-!
# Watching the requests of a session

The ghost state that goes with the requests of one session: what is stored of it, the calls that were
executed, and, for the run of the current request, the outcome it has committed. `world` is what the
environment guarantees of its replies whatever a promise may add: a fresh identity is new, a
transaction works on the session it is given, and a load gives the stored session back as PostgreSQL
returns it.
-/

namespace StateDrivenAgent

open Interaction

/-! ## Reading a stored session back -/

def Message.reloaded (host : Host) (m : Message) : Message :=
  { m with toolCalls := m.toolCalls.map (Storage.jsonb host) }

/-- A stored session as `load` returns it: JSON columns rewrite numbers. -/
def Session.reloaded (host : Host) (s : Session) : Session :=
  { s.hydrated with
    memory := s.memory.map (Message.reloaded host)
    pendingToolCalls := s.pendingToolCalls.map (Storage.jsonb host)
    completionArtifacts := Storage.jsonb host s.completionArtifacts
    lastError := s.lastError.map (Storage.jsonb host)
    compactionAttempts := s.compactionAttempts.map (Storage.jsonb host)
    compactionDecisions := s.compactionDecisions.map (Storage.jsonb host) }

/-! ## The ghost state -/

/-- The outcome of a run as the session row has it. -/
structure Outcome where
  status : Status
  runStatus : RunStatus
  finalAnswer : Option String
  runTerminationReason : Option String
deriving DecidableEq

def Core.outcome (c : Core) : Outcome :=
  { status := c.status, runStatus := c.runStatus, finalAnswer := c.finalAnswer
    runTerminationReason := c.runTerminationReason }

/-- The run statuses that are an outcome. -/
def RunStatus.decided : RunStatus → Bool
  | complete | failed | blocked => true
  | _ => false

/-- What the row of a run says of it. -/
structure RunOutcome where
  status : RunStatus
  reason : Option String
deriving DecidableEq

structure Ghost where
  stored : Option Session := none
  executed : List Executed := []
  /-- The run the loaded session had. -/
  loadedRun : Option String := none
  /-- The outcome the run of the request has committed. -/
  committed : Option Outcome := none
  /-- The row of the run of the request. -/
  row : Option RunOutcome := none

namespace Ghost

/-- The outcome a commit of this session stores for the run of the request. -/
def outcomeOf (g : Ghost) (s : Session) : Option Outcome :=
  if s.runId ≠ g.loadedRun ∧ s.runStatus.decided then some s.core.outcome else none

/-- The row of the run after a commit of this session. -/
def rowOf (g : Ghost) (s : Session) : Option RunOutcome :=
  if s.runId = g.loadedRun then g.row
  else some ⟨s.runStatus, (g.row.bind RunOutcome.reason) <|> s.runTerminationReason⟩

def next (g : Ghost) : (x : Eff) → Reply x → Ghost
  | .transact s _ _, (r : TransactReply) =>
    if r.stored.isSome then
      { g with
        stored := r.stored, committed := g.committed <|> g.outcomeOf s, row := g.rowOf s }
    else g
  | .load _, (r : Option (Session × Value)) =>
    { g with loadedRun := r.bind fun x => x.1.runId, committed := none, row := none }
  | .mark (.executed s name args output), _ =>
    { g with executed := g.executed ++ [⟨s.core.activePhase, name, args, output⟩] }
  | _, _ => g

end Ghost

/-! ## The world -/

/-- The journals of two sessions are the same. -/
structure SameJournal (s x : Session) : Prop where
  counts : x.diagnosticCounts = s.diagnosticCounts
  events : x.compactionEvents = s.compactionEvents
  attempts : x.compactionAttempts = s.compactionAttempts
  decisions : x.compactionDecisions = s.compactionDecisions

/-- What a transaction on `s` guarantees of its reply. -/
structure Transacts (s : Session) (r : TransactReply) : Prop where
  core : r.session.core = s.core
  journal : SameJournal s r.session
  ack : r.session.checkpointAck = s.checkpointAck
  failed : ∀ x, r.result = .error x → r.session.needsReload = s.needsReload
  stored : ∀ x, r.stored = some x → x.core = s.core ∧ SameJournal s x

/-- What the environment guarantees. -/
def world (env : Deployment) (config : Config) (g : Ghost) : (x : Eff) → Reply x → Prop
  | .uuid among, (id : String) => id ∉ among ∧ id ≠ ""
  | .transact s _ _, (r : TransactReply) => Transacts s r
  | .load _, (r : Option (Session × Value)) => ∀ s value, r = some (s, value) →
    (∃ x, g.stored = some x ∧ s = x.reloaded env.toHost) ∧ env.readConfig value = .ok config
  | _, _ => True

/-! ## Obligations -/

namespace Engine

variable (e : Engine)

/-- The request is within the budget, as the engine computes it. -/
def Fits (payload : Value) : Prop :=
  ∃ b, Context.estimatePayload e.host payload e.config.memory = some b ∧ b.fits = true

/-- A decision that leaves the evidence as it was `before` is one too many. -/
def Limited (s : Session) (before : String) : Prop :=
  e.progressFingerprint s = before ∧ ∃ limit, e.progressLimit = some limit ∧
    limit ≤ s.noProgressSteps + 1

/-- What the engine has checked when it asks for a call to be dispatched. -/
structure Dispatches (s : Session) (call : Value) (id name : String)
    (args : List (String × Value)) : Prop where
  first : ∃ rest, s.pendingToolCalls = call :: rest
  read : Engine.readScheduled call = ⟨id, name, args, (Engine.readScheduled call).error⟩
  admitted : e.actionRejection s s.pendingToolPhase name args (Engine.readScheduled call).error = none
  allowed : e.allowedInPhaseForSession s s.pendingToolPhase name = true
  active : s.status = .active

end Engine

end StateDrivenAgent
