import StateDrivenAgent.Agent.Run
import StateDrivenAgent.Spec.Groups

/-!
# What the agent does to a session

The part of a session the agent's promises are about (`Core`): the history it shows the model, the
calls it still owes, the workflow, the captured results, and the outcome. `Move` lists everything the
engine and the request handlers can do to it, each with what holds when they do it; counters, journals
and the bookkeeping of commits are not part of it. Every property of a run is then a property that all
moves keep.
-/

namespace StateDrivenAgent

open Context

/-- What the engine works on. -/
structure Task where
  goal : String
  memory : List MessageBody
  pendingToolCalls : List Value
  pendingToolPhase : Option String
  workflow : Option Workflow
  completionArtifacts : Value
  compactedContext : Option String
  status : Status
  finalAnswer : Option String
  runId : Option String
  noProgressSteps : Nat

/-- The task with the outcome of its run. -/
structure Core extends Task where
  runStatus : RunStatus
  runTerminationReason : Option String

def Session.task (s : Session) : Task :=
  { goal := s.goal, memory := s.memory.map Message.toMessageBody
    pendingToolCalls := s.pendingToolCalls, pendingToolPhase := s.pendingToolPhase
    workflow := s.workflow, completionArtifacts := s.completionArtifacts
    compactedContext := s.compactedContext, status := s.status, finalAnswer := s.finalAnswer
    runId := s.runId, noProgressSteps := s.noProgressSteps }

def Session.core (s : Session) : Core :=
  { s.task with runStatus := s.runStatus, runTerminationReason := s.runTerminationReason }

theorem Session.task_of_core {s s' : Session} (h : s'.core = s.core) : s'.task = s.task :=
  congrArg Core.toTask h

/-- A call the engine has executed, in the phase it was made in. -/
structure Executed where
  phase : Option String
  name : String
  args : List (String × Value)
  output : String

/-! ## Calls and answers -/

namespace Engine

variable (e : Engine)

/-- What the reading of a reply guarantees of a call: it has an identity, and without an error it is
the call of a configured tool whose raw arguments are an object of the tool's schema. -/
structure Readable (call : Call) : Prop where
  id : call.id ≠ ""
  admissible : call.error = none → ∃ tool ∈ e.config.tools, tool.name = call.name ∧
    ∃ fields, parseStrictJson e.host call.rawArguments = .ok (.obj fields) ∧
      Tools.validateArguments e.host tool.parameters (.obj fields) = .ok () ∧
        call.arguments = fields

/-- The workflow and the captured results admit this final answer. -/
def Accepts (w : Option Workflow) (artifacts : Value) (answer : String) : Prop :=
  ∃ s : Session, s.workflow = w ∧ s.completionArtifacts = artifacts ∧
    e.complete s = true ∧ e.completionErrors s answer = []

/-- The workflow after `advance`. -/
def advanced (w : Option Workflow) : Option Workflow :=
  match e.config.workflow with
  | none => w
  | some config => some (e.advanceWorkflow (w.getD (initialWorkflow config))).2

end Engine

namespace Core

variable (c : Core)

def append (m : MessageBody) : Core := { c with memory := c.memory ++ [m] }

/-- The phase calls are made in. -/
def activePhase : Option String := c.workflow.bind Workflow.activePhase

/-- Puts a batch in front of the engine. -/
def schedule (content : Option String) (calls : List Call) : Core :=
  { c with
    memory := c.memory ++ [batchMessage content calls]
    pendingToolCalls := calls.map Call.toValue, pendingToolPhase := c.activePhase }

/-- The message that answers a call. -/
def answerOf (call : Value) (output : String) : MessageBody :=
  { role := "tool", content := some output, name := some (Engine.readScheduled call).name
    toolCallId := some (Engine.readScheduled call).id }

/-- Answers the first pending call. -/
def settle (call : Value) (rest : List Value) (output : String) : Core :=
  { c with
    memory := c.memory ++ [answerOf call output], pendingToolCalls := rest
    pendingToolPhase := if rest.isEmpty then none else c.pendingToolPhase }

/-- Takes in the output of an executed call. -/
def takeIn (e : Engine) (id name : String) (args : List (String × Value)) (output : String)
    (step : Int) : Core :=
  { c with
    completionArtifacts := e.artifactsAfter c.completionArtifacts id name args output step
    workflow := c.workflow.map fun w => e.recordWorkflow w name args output }

/-- Begins a run. -/
def start (run : String) : Core :=
  { c with runId := some run, runStatus := .running, runTerminationReason := none }

end Core

/-! ## Moves -/

/-- What a move may rely on besides the session: where a request may append what the user says, which
calls were executed, and whether outcomes may be changed that were already there. -/
structure Permits where
  content : Core → Prop
  executed : Executed → Prop
  /-- The limit of decisions without progress, or a blocked action. -/
  free : Prop
  /-- A handler whose engine has failed. -/
  overrule : Prop
  /-- A request before its run. -/
  request : Prop

inductive Move (e : Engine) (p : Permits) (c : Core) : Core → Prop
  | say {role : String} (text : String) (hr : role ≠ "tool") (hp : c.pendingToolCalls = []) :
      Move e p c (c.append (msg role text))
  | content (text : String) (h : p.content c) : Move e p c (c.append (msg "user" text))
  | schedule (content : Option String) {calls : List Call} (hp : c.pendingToolCalls = [])
      (ha : c.status = .active) (hne : calls ≠ []) (hd : Distinct calls)
      (hr : ∀ call ∈ calls, e.Readable call) : Move e p c (c.schedule content calls)
  | settle {call : Value} {rest : List Value} (output : String)
      (hp : c.pendingToolCalls = call :: rest) : Move e p c (c.settle call rest output)
  | advance (hp : c.pendingToolCalls = []) (ha : c.status = .active) :
      Move e p c { c with workflow := e.advanced c.workflow }
  | takeIn (id : String) {name output : String} {args : List (String × Value)} (step : Int)
      (ha : c.status = .active) (hx : p.executed ⟨c.activePhase, name, args, output⟩) :
      Move e p c (c.takeIn e id name args output step)
  | compact {retained : List MessageBody} (summary : String) (hp : c.pendingToolCalls = [])
      (ha : c.status = .active) (hr : Grouped (c.memory.drop 1) → Grouped retained) :
      Move e p c { c with
        memory := c.memory.take 1 ++ retained, compactedContext := some summary }
  | complete {answer : String} (hp : c.pendingToolCalls = []) (ha : c.status = .active)
      (h : e.Accepts c.workflow c.completionArtifacts answer) :
      Move e p c { c with
        status := .complete, runStatus := .complete, finalAnswer := some answer }
  | fail (answer : String) (reason : Option String) (h : c.status = .active ∨ p.free) :
      Move e p c { c with
        status := .failed, runStatus := .failed, finalAnswer := some answer
        runTerminationReason := reason }
  | seal (reason : String) (h : c.status ≠ .active ∨ c.runStatus ≠ .running) :
      Move e p c { c with
        runStatus := if c.runStatus = .running then
          if c.status = .complete then .complete else .failed else c.runStatus
        runTerminationReason := c.runTerminationReason <|> some reason }
  | block (h : p.free) : Move e p c { c with status := .failed, runStatus := .blocked }
  | endBlocked (h : c.status = .active ∨ p.free) :
      Move e p c { c with runTerminationReason := some "recovery_required" }
  | stop (runStatus : RunStatus) (reason answer : String) (h : p.overrule) :
      Move e p c { c with
        status := .failed, runStatus, runTerminationReason := some reason
        finalAnswer := some answer }
  | interrupt (reason : String) (h : p.request) :
      Move e p c { c with runStatus := .interrupted, runTerminationReason := some reason }
  | abandon (reason answer : String) (h : p.request) :
      Move e p c { c with
        status := .failed, runStatus := .interrupted, runTerminationReason := some reason
        finalAnswer := some answer }
  | reopen (h : p.request) :
      Move e p c { c with status := .active, finalAnswer := none, noProgressSteps := 0 }
  | progress (n : Nat) : Move e p c { c with noProgressSteps := n }

end StateDrivenAgent
