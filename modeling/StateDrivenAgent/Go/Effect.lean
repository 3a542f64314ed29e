import StateDrivenAgent.Interaction.Program
import StateDrivenAgent.Go.Schema

/-!
# Effects of the Go runtime

What the engine and the server do outside the session value. `Ask.transact` is one transaction of
`saveOnce`. `Ask.compact` is one step of `compact`: the
token estimates, the summarizer and its gates are the environment's, what becomes of the session is
in the reply. `Ask.mark` performs nothing: it is an observation point.
-/

namespace StateDrivenAgent

open Interaction

namespace Go

/-- An `error`: the run was cancelled, or a text. -/
inductive Failure where
  | cancelled
  | failed (message : String)

/-- `Error()`. -/
def Failure.message : Failure → String
  | cancelled => "run cancellation requested"
  | failed m => m

/-- What an adapter fails with; the retry of `transient` is authorised. -/
inductive ToolFailure where
  | transient (message : String)
  | other (message : String)

def ToolFailure.message : ToolFailure → String
  | transient m => m
  | other m => m

structure Verification where
  outcome : String
  evidence : Arguments
  result : String

/-- How a step of `compact` goes on. -/
inductive CompactNext where
  | finished (err : Option Failure)
  /-- A summary was accepted and is announced. -/
  | accepted (event : Value)

/-- One step of `compact`: the fields of the compactor, the records it archives and how many messages
of the memory a summary replaces. -/
structure CompactStep where
  compaction : Compaction
  /-- A record is that of an accepted summary, or of a rejected one. -/
  archived : List (Bool × Value)
  summarized : Nat
  next : CompactNext

/-- How a transaction went, as the caller is told. -/
inductive TransactReply where
  /-- The commit was acknowledged. -/
  | committed (revision : Int)
  /-- A receipt of this very proposal was found. -/
  | receipt (committed latest : Int)
  /-- An error; `save` tries again after some of them. The transaction may have been applied all the
  same, which nothing in the model reads. -/
  | failed (e : Failure) (again applied : Bool)

inductive Mark where
  /-- A request begins. -/
  | request
  /-- `save` is entered. -/
  | save
  /-- The engine is about to put a record in the outbox of the executions. -/
  | stage (s : Session) (callId : String)
  /-- The result of an executed call has been appended to the memory. -/
  | executed (callId result : String)

inductive Ask where
  | uuid
  | now
  /-- `freshCallID`: an identity outside `used`. -/
  | freshCallId (used : List String)
  | checkpoint (s : Session)
  /-- `time.Since(t).Seconds() >= limit`. -/
  | elapsed (since : String) (limit : F64)
  /-- The diagnostics of the model requests since the last time. -/
  | requestDiagnostics
  /-- The request of a decision; the reply is the body, if it is JSON. -/
  | chat (s : Session)
  | compact (s : Session)
  /-- An invocation of a tool. -/
  | invoke (tool : String) (args : Arguments)
  /-- An invocation through the adapter that honours the key. -/
  | idempotent (tool : String) (args : Arguments) (key : String)
  | verify (tool : String) (args : Arguments) (key : String)
  /-- The reply is a result, whether it was found, and the error, if any. -/
  | reconcile (tool : String) (args : Arguments) (key : String)
  /-- One atomic commit of what the session stages. -/
  | commit (s : Session) (event : Value)
  | transact (proposal : Session) (fingerprint : String) (event : Value)
  /-- `ctx.Err() != nil`. -/
  | contextDone
  | mark (m : Mark)

abbrev Answer : Ask → Type
  | .uuid => String
  | .now => String
  | .freshCallId _ => String
  | .checkpoint _ => Except Failure Unit
  | .elapsed .. => Bool
  | .requestDiagnostics => List Value
  | .chat _ => Except Failure (Option Spelling)
  | .compact _ => CompactStep
  | .invoke .. => Except ToolFailure String
  | .idempotent .. => Except ToolFailure String
  | .verify .. => Except String Verification
  | .reconcile .. => String × Bool × Option String
  | .commit .. => Except Failure Int
  | .transact .. => TransactReply
  | .contextDone => Bool
  | .mark _ => Unit

/-- Functions on a session; the session reached at an error stays. -/
abbrev GoM (α : Type) : Type := Proc Ask Answer Session Failure α

/-- A callback that commits an event. -/
abbrev Emit : Type := Value → GoM Unit

namespace GoM

def get : GoM Session := Proc.state

def modify (f : Session → Session) : GoM Unit := Proc.update f

def uuid : GoM String := Proc.request Ask.uuid

def now : GoM String := Proc.request Ask.now

def mark (m : Mark) : GoM Unit := Proc.request (Ask.mark m)

/-- A statement under a condition. -/
def when (c : Prop) [Decidable c] (f : GoM Unit) : GoM Unit := if c then f else pure ()

end GoM

/-! ## `transcript.go` -/

/-- `WirePayload`, as JSON. -/
def wirePayload (m : MessageBody) : Value :=
  .obj <| [("role", .str m.role)] ++
    (m.content.map fun c => ("content", .str c)).toList ++
    (m.name.map fun n => ("name", .str n)).toList ++
    (m.toolCallId.map fun i => ("tool_call_id", .str i)).toList ++
    (m.toolCalls.map fun c => ("tool_calls", c)).toList

/-- The transcript entry of a message. -/
def entryOf (s : Session) (m : Message) (id createdAt : String) : TranscriptEntry :=
  { sequence := s.nextTranscriptSequence, messageId := id, kind := "message"
    payload := wirePayload m.toMessageBody, runId := s.runId
    decisionStep := s.stepCount, createdAt }

/-- A value that is there, or a fresh one. -/
def orElse (x : Option String) (fresh : GoM String) : GoM String :=
  match x with
  | some v => pure v
  | none => fresh

/-- The loop of `StageMessages`; `done` are the messages with a sequence number. -/
def stageFrom (done : List Message) : List Message → GoM Unit
  | [] => GoM.modify fun s => { s with memory := done }
  | m :: rest =>
    if m.sequence.isSome then stageFrom (done ++ [m]) rest
    else do
      let id ← orElse m.messageId GoM.uuid
      let createdAt ← orElse m.createdAt GoM.now
      let s ← GoM.get
      GoM.modify fun s => { s with
        nextTranscriptSequence := s.nextTranscriptSequence + 1
        transcriptPending := s.transcriptPending ++ [entryOf s m id createdAt] }
      stageFrom (done ++ [{ m with
        messageId := some id, sequence := some s.nextTranscriptSequence
        createdAt := some createdAt }]) rest

/-- `StageMessages`. -/
def stageMessages : GoM Unit := do
  let s ← GoM.get
  stageFrom [] s.memory

/-- `AppendMessage`. -/
def appendMessage (body : MessageBody) : GoM Unit := do
  stageMessages
  GoM.modify fun s => { s with memory := s.memory ++ [{ body with }] }
  stageMessages

/-- `ArchiveRecord`; returns the identity of the entry. -/
def archiveRecord (kind : String) (payload : Value) : GoM String := do
  stageMessages
  let id ← GoM.uuid
  let createdAt ← GoM.now
  GoM.modify fun s => { s with
    transcriptPending := s.transcriptPending ++ [{
      sequence := s.nextTranscriptSequence, messageId := id, kind, payload, runId := s.runId
      decisionStep := s.stepCount, createdAt }]
    nextTranscriptSequence := s.nextTranscriptSequence + 1 }
  return id

/-- `ArchiveRecord`, its result dropped. -/
def archive (kind : String) (payload : Value) : GoM Unit := do
  let _ ← archiveRecord kind payload

end Go

end StateDrivenAgent
