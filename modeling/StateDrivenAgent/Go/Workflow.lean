import Mathlib.Data.List.Sort
import StateDrivenAgent.Go.Schema

/-!
# Admission and evidence in the Go runtime

`Engine.actionErrors` and what it reads: the active phase, the captured artifacts and the bindings;
and what an executed call leaves in the session (`captureArtifacts`, `record`, `advance`). The texts
that guide the model (`Guidance`) are parameters: no decision of the engine depends on them, except
that `completionErrors` tells whether an answer may end the session.
-/

namespace StateDrivenAgent

namespace Go

/-- `IdempotencyCapability`. -/
structure Capability where
  target : String
  retentionSeconds : Option F64 := none

/-- The tools and the adapters that are registered. -/
structure Registry where
  tools : String → Bool
  capability : String → Option Capability
  idempotent : String → Bool
  reconciler : String → Bool
  verifier : String → Bool

structure Guidance where
  workflowGuidance : Session → String
  argumentFeedback : Session → String → Option Arguments → String
  completionErrors : Session → String → List String
  progressFingerprint : Session → String
  /-- `parseTable`. -/
  parseTable : String → Option Value

structure Engine where
  config : Config
  platform : Platform
  registry : Registry
  guidance : Guidance

/-- The output tells of a failure. -/
def failedOutput (output : String) : Bool :=
  Text.startsWith output "ERROR:" || Text.startsWith output "AssertionError:"

/-- `resultStatus`. -/
def resultStatus (result : String) : ExecutionStatus :=
  if failedOutput result then .failed else .succeeded

/-- The prefix of the results after which the engine stops. -/
def unresolved (result : String) : Bool := Text.startsWith result "ERROR: recovery_required:"

def key (phase category : String) (index : Nat) : String :=
  phase ++ ":" ++ category ++ ":" ++ toString index

def appendUnique (xs : List String) (x : String) : List String :=
  if xs.contains x then xs else xs ++ [x]

namespace Engine

variable (e : Engine)

/-! ## Phases -/

def phase (id : String) : Option Phase := e.config.workflow.bind fun w => w.phases.find? (·.id = id)

def complete (s : Session) : Bool :=
  e.config.workflow.isNone || s.workflow.any fun w => w.activePhase.isNone

def activePhase (s : Session) : Option Phase := (s.workflow.bind Workflow.activePhase).bind e.phase

/-- The tools of `decisionPolicy`: those of the phase, or those of its evidence, each once. -/
def policyTools (s : Session) : List String :=
  match e.activePhase s with
  | none => []
  | some p => p.allowedTools.getD ((p.completion.map Evidence.tool).foldl appendUnique [])

def allowed (s : Session) (name : String) : Bool :=
  match s.workflow with
  | none => true
  | some w => w.activePhase.isSome && (e.policyTools s).contains name

/-! ## Bindings and artifacts -/

/-- The index of the first result check with a label; `-1` is no key of the artifacts. -/
def artifactFor (s : Session) (label : String) : Option CompletionArtifact :=
  (e.config.resultChecks.findIdx? fun check => check.label = label).bind fun i =>
    s.completionArtifacts.lookup i

/-- The problem of one binding. -/
def bindingIssue (s : Session) (name : String) (args : Arguments) (binding : Binding) :
    Option String :=
  match e.artifactFor s binding.sourceLabel with
  | none => some ("Obtain executed result " ++ binding.sourceLabel ++ " before calling " ++ name ++ ".")
  | some artifact =>
    match valueAtPath artifact.value binding.path with
    | none => some ("Bound result path for " ++ binding.sourceLabel ++ " is unavailable.")
    | some value =>
      if (lookup binding.argument args).any fun actual => !jsonEqual actual value then
        some (binding.argument ++ " must equal its bound executed result: " ++
          (e.platform.marshal value).getD "" ++ ".")
      else none

/-- `bindingError`; the source's empty text is `none`. -/
def bindingError (s : Session) (name : String) (args : Arguments) : Option String :=
  (e.config.argumentBindings.filter fun binding => binding.tool = name).findSome?
    (e.bindingIssue s name args)

def extractResult (check : ResultCheck) (output : String) : Option Value :=
  if check.kind = "markdown_table" then e.guidance.parseTable output
  else
    ((e.platform.strictJSON output).toOption.bind fun v => valueAtPath v check.path).filter fun v =>
      check.kind ≠ "number" || (schemaNumber v).isSome

/-- What a check captures from an output. -/
def captured (check : ResultCheck) (name : String) (args : Arguments) (output : String) :
    Option Value :=
  if check.tool ≠ name || !contains (.obj args) (.obj check.arguments) then none
  else (e.extractResult check output).filter fun _ =>
    check.result.isEmpty ||
      (e.platform.strictJSON output).toOption.any fun v => contains v (.obj check.result)

/-- Writes an artifact down under its index. -/
def setArtifact (artifacts : List (Nat × CompletionArtifact)) (i : Nat) (a : CompletionArtifact) :
    List (Nat × CompletionArtifact) := (i, a) :: artifacts.filter fun x => x.1 ≠ i

/-- `captureArtifacts`. -/
def captureArtifacts (id name : String) (args : Arguments) (output : String) (s : Session) :
    Session :=
  if failedOutput output then s
  else e.config.resultChecks.zipIdx.foldl (fun s x =>
    match e.captured x.1 name args output with
    | none => s
    | some value => { s with
        completionArtifacts := setArtifact s.completionArtifacts x.2
          { tool := name, arguments := args, toolCallId := id, step := s.stepCount, value } }) s

/-! ## Admission -/

/-- The last definition of a tool. -/
def definition (name : String) : Option ToolDefinition :=
  (e.config.tools.filter fun t => t.name = name).getLast?

/-- The issues with the tool and its arguments. -/
def argumentIssues (s : Session) (name : String) (args : Option Arguments) : List String :=
  match e.definition name, args with
  | none, _ => ["Tool '" ++ name ++ "' is not configured. Available tools: " ++
      ", ".intercalate ((e.config.tools.map ToolDefinition.name).insertionSort (· ≤ ·)) ++ "."]
  | some _, none => ["Tool arguments must be a JSON object."]
  | some d, some args =>
    validateArguments e.platform d.parameters (.obj args) "$" ++
      (e.bindingError s name args).toList

def policyIssues : List String :=
  if e.config.toolPolicy = "none" then
    ["Tools are disabled by this session policy. Return a final answer directly."]
  else []

def phaseIssues (s : Session) (name : String) : List String :=
  if e.config.workflow.isSome && e.complete s then
    ["All workflow phases are complete. Tool calls are no longer allowed; return the final answer now."]
  else if !e.allowed s name then
    ["Active workflow phase permits only: " ++
      ", ".intercalate ((e.policyTools s).insertionSort (· ≤ ·)) ++ ". Complete that phase first."]
  else []

/-- `actionErrors`. -/
def actionErrors (s : Session) (name : String) (args : Option Arguments) : List String :=
  let issues := e.argumentIssues s name args ++ e.policyIssues ++ e.phaseIssues s name
  if issues.isEmpty then [] else issues ++ [e.guidance.argumentFeedback s name args]

/-! ## Evidence -/

def missing (w : Workflow) (p : Phase) : List String :=
  (p.completion.zipIdx.filter fun x =>
    x.1.required && !w.observedEvidence.contains (key p.id "completion" x.2)).map (·.1.description)

def edgeReady (w : Workflow) (p : Phase) (edge : Edge) (n : Nat) : Bool :=
  if edge.when' = "evidence" then
    edge.evidence.zipIdx.all fun x =>
      w.observedEvidence.contains (key p.id ("transition-" ++ toString n) x.2)
  else edge.when' = "always" || (edge.when' = "phase_complete" && (missing w p).isEmpty)

/-- `advance`. -/
def advance (s : Session) : Option Transition × Session :=
  match s.workflow, e.activePhase s with
  | some w, some p =>
    match p.transitions.zipIdx.find? fun x => edgeReady w p x.1 x.2 with
    | none => (none, s)
    | some x =>
      let z : Transition := { fromPhase := p.id, toPhase := x.1.to', reason := x.1.when' }
      (some z, { s with workflow := some { w with
        completedPhases := appendUnique w.completedPhases p.id
        activePhase := if x.1.to' = "complete" then none else some x.1.to'
        transitions := w.transitions ++ [z] } })
  | _, _ => (none, s)

/-- Whether a call shows a piece of evidence. -/
def shows (x : Evidence) (name : String) (args : Arguments) (output : String) : Bool :=
  x.tool = name && contains (.obj args) x.arguments &&
    x.contentContains.all (fun q =>
      Text.containsStr (e.platform.toLower output) (e.platform.toLower q)) &&
    ((x.result.asObject.getD []).isEmpty ||
      (e.platform.strictJSON output).toOption.any fun v => contains v x.result)

/-- `recordOne`. -/
def recordOne (p : Phase) (name : String) (args : Arguments) (output : String) (w : Workflow)
    (x : String × Nat × Evidence) : Workflow :=
  let k := key p.id x.1 x.2.1
  if w.observedEvidence.contains k || !e.shows x.2.2 name args output then w
  else { w with observedEvidence := w.observedEvidence ++ [k] }

/-- The evidence of a phase with its category and place: of its completion, then of each edge. -/
def phaseEvidence (p : Phase) : List (String × Nat × Evidence) :=
  p.completion.zipIdx.map (fun x => ("completion", x.2, x.1)) ++
    p.transitions.zipIdx.flatMap fun t =>
      t.1.evidence.zipIdx.map fun x => ("transition-" ++ toString t.2, x.2, x.1)

/-- `record`. -/
def record (name : String) (args : Arguments) (output : String) (s : Session) : Session :=
  match s.workflow, e.activePhase s with
  | some w, some p => { s with
      workflow := some ((phaseEvidence p).foldl (e.recordOne p name args output) w) }
  | _, _ => s

end Engine

end Go

end StateDrivenAgent
