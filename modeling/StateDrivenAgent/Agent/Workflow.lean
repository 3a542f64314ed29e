import Mathlib.Data.List.Dedup
import Mathlib.Data.List.Sort
import StateDrivenAgent.Agent.Encode
import StateDrivenAgent.Agent.Tools

/-!
# Workflow, admission and completion

The part of `Engine` that decides: which phase is active and what it still needs, which call may be
made, which phase comes next, which evidence and which artifacts an executed call leaves, and whether
an answer may end the session.
-/

namespace StateDrivenAgent

structure Engine where
  host : Host
  config : Config

namespace Engine

variable (e : Engine)

/-- `key`. -/
def key (phase category : String) (index : Nat) : String :=
  phase ++ ":" ++ category ++ ":" ++ toString index

/-- A string setting of `execution` or `completion`. -/
def setting (v : Value) (name : String) : Option String := (v.get name).bind Value.asStr

/-- `execution.tool_policy` is `none`. -/
def toolsDisabled : Bool := setting e.config.execution "tool_policy" = some "none"

/-! ## Phases -/

def phase (id : String) : Option Phase := e.config.workflow.bind fun w => w.phases.find? (·.id = id)

def complete (s : Session) : Bool :=
  e.config.workflow.isNone || s.workflow.any fun w => w.activePhase.isNone

/-- The evidence has been observed. -/
def observed (w : Option Workflow) (k : String) : Bool := w.any fun w => w.observedEvidence.contains k

/-- The required evidence of a phase that is not there yet, with its place. -/
def missingEvidence (w : Option Workflow) (p : Phase) : List (Evidence × Nat) :=
  p.completion.zipIdx.filter fun x => x.1.required && !observed w (key p.id "completion" x.2)

def missing (s : Session) (p : Phase) : List String :=
  (missingEvidence s.workflow p).map fun x =>
    x.1.description ++ " Call " ++ x.1.tool ++ "; required argument constraints: " ++
      x.1.arguments.text e.host ++ "; expected result constraints: " ++ x.1.result.text e.host ++
      "; required output text: " ++ (Value.arr (x.1.contentContains.map .str)).text e.host ++
      ". Configured diagnostic errors count as evidence."

/-- The tools of a phase. -/
def phaseTools (p : Phase) : List String := p.allowedTools.getD (p.completion.map Evidence.tool)

def allowedNames (s : Session) : List String :=
  match (s.workflow.bind Workflow.activePhase).bind e.phase with
  | none => []
  | some p => ((phaseTools p).insertionSort (· ≤ ·)).dedup

def allowedInPhase (phase name : String) : Bool :=
  (e.phase phase).any fun p => (phaseTools p).contains name

def instruction (s : Session) : Option String := do
  let id ← s.workflow.bind Workflow.activePhase
  let p ← e.phase id
  let missing := Text.joinWith "\n" ((e.missing s p).map fun text => "- " ++ text)
  let allowed := Text.joinWith ", " (e.allowedNames s)
  return ("[WORKFLOW STATE]\nThis is the current authoritative execution state. Historical summaries " ++
    "do not override it.\nActive phase: ") ++ p.name ++ " (" ++ p.id ++
    ").\nAllowed function names: " ++ (if allowed = "" then "none" else allowed) ++
    ". Phase IDs are workflow labels, not function names.\nPhase instruction: " ++ p.instruction ++
    ("\nDo not provide prose progress updates or a final answer while this phase is incomplete; " ++
    "make a tool call instead.\nChoose a call that supplies outstanding required evidence; repeating " ++
    "an observed outcome does not satisfy a different argument constraint.\nOutstanding required " ++
    "evidence:\n") ++ missing

/-- The condition of an edge holds; `n` is its place among the edges of its phase. -/
def edgeReady (w : Option Workflow) (p : Phase) (edge : Edge) (n : Nat) : Bool :=
  if edge.when' = "always" then true
  else if edge.when' = "phase_complete" then (missingEvidence w p).isEmpty
  else edge.evidence.zipIdx.all fun x => observed w (key p.id ("transition-" ++ toString n) x.2)

/-- Takes an edge out of a phase. -/
def takeEdge (w : Workflow) (p : Phase) (edge : Edge) : Workflow × Transition :=
  let t : Transition := { fromPhase := p.id, toPhase := edge.to', reason := edge.when' }
  ({ w with
      completedPhases := if w.completedPhases.contains p.id then w.completedPhases
        else w.completedPhases ++ [p.id]
      activePhase := if edge.to' ≠ "complete" then some edge.to' else none
      transitions := w.transitions ++ [t] }, t)

/-- The workflow a session without one starts with. -/
def initialWorkflow (w : WorkflowConfig) : Workflow := { activePhase := some w.entryPhase }

/-- The first edge of the active phase whose condition holds. -/
def nextEdge (w : Workflow) : Option (Phase × Edge) := do
  let id ← w.activePhase
  let p ← e.phase id
  let x ← p.transitions.zipIdx.find? fun x => edgeReady (some w) p x.1 x.2
  return (p, x.1)

/-- What `advance` makes of a workflow. -/
def advanceWorkflow (w : Workflow) : Option Transition × Workflow :=
  match e.nextEdge w with
  | none => (none, w)
  | some (p, edge) =>
    let (w, t) := takeEdge w p edge
    (some t, w)

/-- `advance`. A session that should have a workflow and has none gets one first. -/
def advance (s : Session) : Option Transition × Session :=
  match e.config.workflow with
  | none => (none, s)
  | some config =>
    let (t, w) := e.advanceWorkflow (s.workflow.getD (initialWorkflow config))
    (t, { s with workflow := some w })

/-- All evidence a phase knows of, with category and place. -/
def phaseEvidence (p : Phase) : List (String × Nat × Evidence) :=
  (p.completion.zipIdx.map fun x => ("completion", x.2, x.1)) ++
    p.transitions.zipIdx.flatMap fun t =>
      t.1.evidence.zipIdx.map fun x => ("transition-" ++ toString t.2, x.2, x.1)

/-- Adds the key of one piece of evidence if the call supplies it. -/
def recordOne (p : Phase) (name : String) (args : List (String × Value)) (output : String)
    (observed : List String) (x : String × Nat × Evidence) : List String :=
  let k := key p.id x.1 x.2.1
  if !observed.contains k && evidenceMatches e.host x.2.2 name args output then observed ++ [k]
  else observed

/-- `record`, on the workflow. -/
def recordWorkflow (w : Workflow) (name : String) (args : List (String × Value)) (output : String) :
    Workflow :=
  match w.activePhase.bind e.phase with
  | none => w
  | some p => { w with observedEvidence :=
      (phaseEvidence p).foldl (e.recordOne p name args output) w.observedEvidence }

def record (s : Session) (name : String) (args : List (String × Value)) (output : String) : Session :=
  { s with workflow := s.workflow.map fun w => e.recordWorkflow w name args output }

/-! ## Results and bindings -/

def resultChecks : List Value := ((e.config.completion.get "result_checks").bind Value.asArray).getD []

def bindings : List Value := ((e.config.execution.get "argument_bindings").bind Value.asArray).getD []

/-- The artifact captured for the check at `index`. -/
def artifactAt (artifacts : Value) (index : Nat) : Option Value := artifacts.get (toString index)

/-- `artifact_for_label`. -/
def artifactForLabel (artifacts : Value) (label : String) : Option Value :=
  (e.resultChecks.zipIdx.find? fun x => setting x.1 "label" = some label).bind fun x =>
    artifactAt artifacts x.2

/-- A failed tool reports its failure in its output. -/
def failed (output : String) : Bool :=
  Text.startsWith output "ERROR:" || Text.startsWith output "AssertionError:"

/-- The value a check captures from an executed call. -/
def captured (check : Value) (name : String) (args : List (String × Value)) (output : String) :
    Option Value :=
  let expected := (check.get "result").filter fun v => v.asObject.any fun fields => !fields.isEmpty
  if setting check "tool" ≠ some name ||
      !contains e.host (.obj args) ((check.get "arguments").getD (.obj [])) then none
  else if expected.any fun expected => !(parseStrictJson e.host output).toOption.any fun parsed =>
      contains e.host parsed expected then none
  else extractResult e.host check output

/-- The artifacts after one check. -/
def captureOne (id name : String) (args : List (String × Value)) (output : String) (step : Int)
    (artifacts : Value) (x : Value × Nat) : Value :=
  match e.captured x.1 name args output with
  | none => artifacts
  | some value =>
    let artifacts := if artifacts.isObject then artifacts else .obj []
    artifacts.set (toString x.2) (.obj [("tool", .str name), ("arguments", .obj args),
      ("tool_call_id", .str id), ("step", .int step), ("value", value)])

/-- The artifacts after an executed call. -/
def artifactsAfter (artifacts : Value) (id name : String) (args : List (String × Value))
    (output : String) (step : Int) : Value :=
  if failed output then artifacts
  else e.resultChecks.zipIdx.foldl (e.captureOne id name args output step) artifacts

def captureArtifacts (s : Session) (id name : String) (args : List (String × Value))
    (output : String) : Session :=
  { s with completionArtifacts :=
      e.artifactsAfter s.completionArtifacts id name args output s.stepCount }

/-- What is wrong with one bound argument of a call. -/
def boundArgument (artifacts : Value) (name : String) (args : List (String × Value))
    (binding : Value) : Option String :=
  let argument := (setting binding "argument").getD ""
  let label := (setting binding "source_label").getD ""
  match e.artifactForLabel artifacts label with
  | none => some ("Obtain executed result " ++ e.host.debugStr label ++ " before calling " ++ name ++ ".")
  | some artifact =>
    match (artifact.get "value").bind fun v => valueAtPath v (pathOf binding "path") with
    | none => some ("Bound result path for " ++ e.host.debugStr label ++ " is unavailable.")
    | some expected =>
      if (lookup argument args).any fun actual => !typedEqual e.host actual expected then
        some (argument ++ " must equal its bound executed result: " ++ expected.text e.host ++ ".")
      else none

def bindingError (artifacts : Value) (name : String) (args : List (String × Value)) :
    Option String :=
  (e.bindings.filter fun b => setting b "tool" = some name).findSome?
    (e.boundArgument artifacts name args)

/-! ## Admission of a call -/

/-- The phase permits the tool; without a phase there has to be no workflow either. -/
def permitted (phase : Option String) (name : String) : Bool :=
  match phase with
  | some phase => e.allowedInPhase phase name
  | none => e.config.workflow.isNone

def actionRejection (s : Session) (phase : Option String) (name : String)
    (args : List (String × Value)) (invalid : Option String) : Option String :=
  match invalid with
  | some error => some error
  | none =>
    if e.toolsDisabled then some "tools are disabled for this task"
    else if !e.permitted phase name then some "tool is not allowed in the active workflow phase"
    else e.bindingError s.completionArtifacts name args

/-- `allowed_in_phase_for_session`. -/
def allowedInPhaseForSession (s : Session) (phase : Option String) (name : String) : Bool :=
  !e.toolsDisabled && match phase with
    | some phase => e.allowedInPhase phase name
    | none => e.config.workflow.isNone && s.workflow.isNone

def actionFeedback (s : Session) (phase : Option String) (name : String) : String :=
  if e.config.workflow.isSome && e.complete s then
    "All workflow phases are complete. Do not call tools; return the verified final answer now."
  else if e.toolsDisabled then "Tools are disabled. Return the requested final answer directly."
  else
    let allowed := e.config.tools.filter fun tool =>
      phase.all fun phase => e.allowedInPhase phase tool.name
    let names := Text.joinWith ", " (allowed.map Tool.name)
    let selected := allowed.any fun tool => tool.name = name
    let schemas := (allowed.filter fun tool => !selected || tool.name = name).map fun tool =>
      tool.name ++ " arguments JSON schema: " ++ tool.parameters.text e.host
    "Use currently allowed functions: " ++ names ++ (". Workflow phase labels are not function " ++
      "names. Supply JSON objects satisfying their schemas.\n") ++ Text.joinWith "\n" schemas

/-! ## The final answer -/

def forbiddenErrors (answer : String) : List String :=
  let patterns := ((e.config.completion.get "forbidden_patterns").bind Value.asArray).getD []
  (patterns.filterMap Value.asStr).filterMap fun pattern =>
    if e.host.isMatch ("(?i)(?:" ++ pattern ++ ")") answer then
      some ("Final answer includes forbidden diagnostic content; return only the configured " ++
        "deliverables.")
    else none

def exactErrors (answer : String) : List String :=
  if (setting e.config.completion "exact").any (answer ≠ ·) then
    ["Final answer must equal the configured exact text without surrounding prose or whitespace."]
  else []

def patternErrors (answer : String) : List String :=
  if (setting e.config.completion "pattern").any fun p =>
      !e.host.isMatch ("\\A(?:" ++ p ++ ")\\z") answer then
    ["Final answer does not satisfy the configured presentation pattern."]
  else []

def schemaErrors (answer : String) : List String :=
  match (e.config.completion.get "json_schema").filter fun v => !v.isNull with
  | none => []
  | some schema => match parseStrictJson e.host answer with
    | .error _ => ["Final answer must be bare valid JSON without prose or code fences."]
    | .ok value => match Tools.validateValue e.host schema value "final_answer" with
      | .ok () => []
      | .error problem => [problem]

/-- What is wrong with the answer as to one deliverable. -/
def deliverableErrors (artifacts : Value) (answer : String) (x : Value × Nat) : List String :=
  match (artifactAt artifacts x.2).bind fun artifact => artifact.get "value" with
  | none => ["Missing executed tool result for " ++
      (setting x.1 "label").getD "required deliverable" ++ "; obtain it using " ++
      (setting x.1 "tool").getD "the configured tool" ++ "."]
  | some value =>
    if checkAnswer e.host x.1 answer value then []
    else ["Final answer must include the verified deliverable for " ++
      (setting x.1 "label").getD "required deliverable" ++ ":\n" ++
      describeArtifact e.host x.1 value]

def completionErrors (s : Session) (answer : String) : List String :=
  (if (Text.trim answer).isEmpty then ["Return a nonempty final answer or valid tool call."] else [])
    ++ (if e.config.workflow.isSome && !e.complete s then
      ["Workflow is incomplete. Obtain the outstanding evidence before answering.\n" ++
        (e.instruction s).getD ""] else [])
    ++ e.forbiddenErrors answer ++ e.exactErrors answer ++ e.patternErrors answer
    ++ e.schemaErrors answer
    ++ e.resultChecks.zipIdx.flatMap (e.deliverableErrors s.completionArtifacts answer)

/-! ## Progress -/

def recordProgressOutput (s : Session) (name : String) (args : List (String × Value))
    (output : String) : Session :=
  let hash := e.host.sha256 ((Value.arr [.str name, .obj args, .str output]).text e.host)
  let seen := if s.progressSeenOutputs.contains hash then s.progressSeenOutputs
    else s.progressSeenOutputs ++ [hash]
  { s with progressSeenOutputs := seen.drop (seen.length - 64) }

def progressFingerprint (s : Session) : String :=
  let workflow := if e.config.workflow.isSome then Value.ofOption Workflow.toValue s.workflow else .null
  let outputs := if e.config.workflow.isNone then s.progressSeenOutputs.map Value.str else []
  e.host.sha256 ((Value.arr [workflow, s.completionArtifacts, .arr outputs]).text e.host)

end Engine

end StateDrivenAgent
