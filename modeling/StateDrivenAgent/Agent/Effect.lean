import StateDrivenAgent.Interaction.Program
import StateDrivenAgent.Agent.Context

/-!
# Effects of the agent

Everything a request handler and the engine do to the world outside the session value: fresh
identifiers and the clock, one PostgreSQL transaction at a time, the model service, the tools, and
the event stream. An operation the source builds from several transactions is a program over these,
so that a run can be cut off, or another worker can act, between any two of them.

`Eff.transact` is one execution of `save_inner`. Its reply carries, besides what the caller sees,
what the transaction in fact stored: an acknowledgement can be lost after the commit, and the caller
cannot tell. Nothing in the model reads `stored`; it is there for the observer. So are the
identities `Eff.uuid` lists, among which the new one is put.

`Eff.mark` performs nothing. It is an observation point: it names a place of the source a property
talks about (the call of `actions::dispatch`, for one) together with the data at that place.
-/

namespace StateDrivenAgent

open Interaction

/-- One reply of the model service. -/
inductive HttpReply where
  | timeout (elapsed : Int)
  | transport (elapsed : Int)
  /-- The body could not be read. -/
  | broken (elapsed : Int) (status : Nat) (timeout : Bool)
  /-- A complete response; `none` is a body that is not JSON. -/
  | response (elapsed : Int) (status : Nat) (body : Option Value)

structure TransactReply where
  stored : Option Session
  result : Except SqlError Unit
  session : Session

inductive Mark where
  /-- The engine calls `actions::dispatch`. -/
  | dispatch (s : Session) (call : Value) (id name : String) (args : List (String × Value))
  /-- `actions::dispatch` has returned the output of a call. -/
  | executed (s : Session) (name : String) (args : List (String × Value)) (output : String)
  /-- `observe_progress` is entered. -/
  | observing (s : Session) (before : String)
  /-- An action is about to end with the session blocked. -/
  | blocking (s : Session)

inductive Eff where
  | uuid (among : List String)
  | now
  | transact (s : Session) (config event : Value)
  | cancelRequested (session run : String)
  | historicalCallIds (session : String) (ids : List String)
  | eventId (session : String) (revision : Int)
  | committedResponse (command : String)
  | httpPost (url : String) (payload : Value)
  /-- `tools::execute`: an invocation of a tool. -/
  | execute (tool : String) (args : List (String × Value))
  /-- `recipient`: a write at the recipient that keeps receipts. -/
  | recipient (deployment key : String) (args : Value)
  | receipt (deployment key : String)
  /-- `cfg`: the snapshot of a configuration file and the digest of the file. -/
  | configFile (ref : String)
  | lockSession (id : String)
  | load (id : String)
  | acquireLease (id : String)
  | releaseLease (id owner : String) (fence : Int)
  | send (event : Value)
  | requestCancel (run : String)
  | markUncertain (command : Command)
  /-- The thread ends here: a panic, or a loop that never ends. -/
  | panic
  | mark (m : Mark)

/-- The type of the reply to an effect. -/
abbrev Reply : Eff → Type
  | .uuid _ => String
  | .now => String
  | .transact .. => TransactReply
  | .cancelRequested .. => Except SqlError (Option Bool)
  | .historicalCallIds .. => Except SqlError (List String)
  | .eventId .. => Option Int
  | .committedResponse _ => Except SqlError (Nat × Value)
  | .httpPost .. => HttpReply
  | .execute .. => String
  | .recipient .. => Except String String
  | .receipt .. => Option (String × Value)
  | .configFile _ => Except String (Value × String)
  | .lockSession _ => Bool
  | .load _ => Option (Session × Value)
  | .acquireLease _ => Except SqlError (String × Int)
  | .releaseLease .. => Unit
  | .send _ => Bool
  | .requestCancel _ => Unit
  | .markUncertain _ => Unit
  | .panic => Empty
  | .mark _ => Unit

abbrev Prog (α : Type) : Type := Program Eff Reply α

/-- Engine functions: they update the session and may fail with a message. -/
abbrev EngineM (α : Type) : Type := Proc Eff Reply Session String α

namespace EngineM

def modify (f : Session → Session) : EngineM Unit := Proc.update f

def get : EngineM Session := Proc.state

/-- `Uuid::new_v4()`. -/
def uuid (among : List String := []) : EngineM String := Proc.request (Eff.uuid among)

def now : EngineM String := Proc.request Eff.now

def mark (m : Mark) : EngineM Unit := Proc.request (Eff.mark m)

def panic {α : Type} : EngineM α := fun _ => .perform .panic fun r : Empty => nomatch r

/-- An integer operation that panics in a build with overflow checks. -/
def i64 {α : Type} (x : Option α) : EngineM α :=
  match x with
  | some a => pure a
  | none => EngineM.panic

end EngineM

/-! ## Appending to the session -/

/-- `Session::archive_record`. -/
def archiveRecord (kind : String) (payload : Value) : EngineM Unit := do
  let id ← EngineM.uuid
  let createdAt ← EngineM.now
  EngineM.modify fun s => { s with
    pendingTranscript := s.pendingTranscript ++ [{
      sequence := s.nextTranscriptSequence, messageId := id, kind, payload, runId := s.runId,
      decisionStep := s.stepCount, createdAt }]
    nextTranscriptSequence := s.nextTranscriptSequence + 1 }

/-- `Session::append_message`. -/
def appendMessage (body : MessageBody) : EngineM Unit := do
  let id ← EngineM.uuid
  let createdAt ← EngineM.now
  EngineM.modify fun s =>
    let sequence := max s.nextTranscriptSequence 1
    { s with
      nextTranscriptSequence := sequence + 1
      pendingTranscript := s.pendingTranscript ++ [{
        sequence, messageId := id, kind := "message", payload := Context.wireMessage body,
        runId := if s.runStatus = .running then s.runId else none,
        decisionStep := s.stepCount, createdAt }]
      memory := s.memory ++ [{ body with
        messageId := some id, sequence := some sequence, createdAt := some createdAt }] }

/-- `Session::acknowledge_checkpoint`. -/
def acknowledgeCheckpoint (s : Session) : Session :=
  match s.checkpointAck with
  | none => s
  | some receipt => { s with
      needsReload := receipt.needsReload
      revision := receipt.revision
      nextTranscriptSequence := receipt.nextSequence
      memory := s.memory.map fun m =>
        match receipt.memory.find? fun saved => saved.messageId = m.messageId with
        | some saved => { m with sequence := saved.sequence, createdAt := saved.createdAt }
        | none => m
      committedSummaries := receipt.summaries }

/-- `Session::acknowledge_committed_outboxes`. -/
def acknowledgeCommittedOutboxes (s : Session) : Session :=
  { acknowledgeCheckpoint s with
    pendingTranscript := [], pendingExecutionOutbox := [], attemptsPending := [],
    diagnosticsPending := [] }

/-- `Session::reset_resume_counters`. -/
def resetResumeCounters (s : Session) : Session :=
  { s with
    consecutiveInvalidResponses := 0, noProgressSteps := 0, progressFingerprint := none,
    lastError := none }

end StateDrivenAgent
