import StateDrivenAgent.Agent.Decision
import StateDrivenAgent.Agent.Ledger

/-!
# Compaction

`Engine::compact`: while the next request is too large, or large enough for the policy, an old prefix
of the history is replaced by a summary the model writes. One pass measures the request, selects the
prefix and asks for a summary a bounded number of times; the passes are bounded too. A summary
request is measured before it is sent, as the decision request is at the end.
-/

namespace StateDrivenAgent

open Interaction

/-- `budget_error`. -/
def budgetError (host : Host) (budget : RequestBudget) : String :=
  ("context_budget_exceeded: complete request exceeds configured context budget; no model request " ++
    "was sent (") ++ budget.toValue.text host ++ ")"

namespace Engine

variable (e : Engine)

/-! ## Summary requests -/

def summaryPayload (goal source : String) (correction : Option String) : Value :=
  let structure' :=
    if e.config.memory.hybridReflection then
      ("Return one XML document with root COMPACTED_STATE and exactly four text-only child elements, " ++
        "in this order: USER_GOAL, GLOBAL_LESSON_LEDGER, DEAD_ENDS, CURRENT_LOCAL_PIVOT. Use this " ++
        "complete first child verbatim: <USER_GOAL>") ++ Context.xmlEscape (Text.trim goal) ++
        ("</USER_GOAL>. Write concise source-grounded lessons in GLOBAL_LESSON_LEDGER, failed " ++
        "approaches in DEAD_ENDS, and a provisional next direction in CURRENT_LOCAL_PIVOT. Close " ++
        "every element and the root with its matching closing tag. Escape XML special characters in " ++
        "section text. Do not emit Markdown fences, tool calls, JSON messages, nested elements, or " ++
        "placeholder text.")
    else
      ("Return exactly four ordered headings: '- Core Objective:', '- Universal Truths Discovered:', " ++
        "'- Dead Ends:', '- Current Local Pivot:'. Put the original goal verbatim below the first " ++
        "heading, then source-grounded lessons, failed approaches, and a provisional next direction " ++
        "below the others. Do not emit placeholder text or tool calls.")
  let instruction :=
    ("Summarize only the supplied historical prefix and previous ledger. Copy the original goal " ++
      "exactly. Do not reconstruct recent raw messages. Carry forward prior useful lessons and dead " ++
      "ends. Keep provisional hypotheses separate from observations; do not present guesses as " ++
      "verified facts. Use only numbers appearing in the source. Do not calculate or invent " ++
      "statistics. Fill every section, using '- None.' if empty. No prose outside the structure. " ++
      "Escape XML special characters when using the XML format. Keep output short, within ") ++
      toString e.config.memory.maxSummaryTokens ++ " UTF-8 bytes. " ++ structure' ++
    ((correction.filter (· ≠ "")).elim "" fun feedback =>
      " Previous replacement rejected: " ++ feedback ++ (". Generate a complete corrected " ++
        "replacement from the source. Preserve the full original goal; replace every placeholder " ++
        "with source-grounded text or '- None.' and check all closing tags."))
  .obj [("model", .str e.config.model),
    ("messages", .arr [systemNote instruction, .obj [("role", .str "user"), ("content", .str source)]]),
    ("temperature", .int 0), ("max_tokens", .int e.config.memory.summaryOutputTokens)]

/-- `source_text` of a session's history. -/
def sourceOf (s : Session) (historical : List Message) : String :=
  Context.sourceText e.host s.goal historical s.compactedContext

/-- `summary_budget`; `none` is an overflow panic. -/
def summaryBudget (s : Session) (historical : List Message) (correction : Option String) :
    Option RequestBudget :=
  Context.estimatePayload e.host (e.summaryPayload s.goal (e.sourceOf s historical) correction)
    e.config.memory

/-- `v.pointer("/choices/0")`. -/
def firstChoice (v : Value) : Option Value :=
  (v.get "choices").bind fun choices => match choices with
    | .arr items => items[0]?
    | .obj fields => lookup "0" fields
    | _ => none

/-- Marks the last diagnostic of a truncated summary. -/
def markTruncated (diagnostics : List Value) : List Value :=
  match diagnostics.getLast? with
  | some last => diagnostics.dropLast ++ [last.set "failure" (.str "summary_truncated")]
  | none => diagnostics

/-- `compact_client`, on the payload it builds. -/
def compactClient (payload : Value) : Prog (Option String × List Value) := do
  let (reply, diagnostics) ← e.postChat payload
  match reply with
  | .error _ => return (none, diagnostics)
  | .ok value =>
    let choice := firstChoice value
    let content := ((choice.bind fun c => c.get "message").bind fun m => m.get "content").bind
      Value.asStr
    if choice.bind (fun c => setting c "finish_reason") = some "length" then
      return (content, markTruncated diagnostics)
    else return (content.filter fun text => Text.trim text ≠ "", diagnostics)

/-! ## A pass -/

/-- What a pass knows when it asks for a summary. -/
structure Pass where
  number : Int
  hard : Bool
  measured : RequestBudget
  requiredReduction : Int
  historical : List Message
  retained : List Message
  source : String
  sourceHash : String
  sourceIndexes : List Nat
  retainedIndexes : List Nat
  previousLedgerHash : Option String

def indexesValue (indexes : List Nat) : Value := .arr (indexes.map fun i => .int i)

/-- The fields the records of a pass share. -/
def Pass.sourceFields (p : Pass) : List (String × Value) :=
  [("source_sha256", .str p.sourceHash), ("source_indexes", indexesValue p.sourceIndexes),
    ("source_messages", .arr (p.historical.map Message.toValue)),
    ("retained_indexes", indexesValue p.retainedIndexes)]

/-- The memory with everything between the goal and the retained messages gone. -/
def keepRetained (s : Session) (retained : List Message) : List Message :=
  s.memory.take 1 ++ retained

/-- The last failure among the diagnostics of an exchange. -/
def providerFailure (diagnostics : List Value) : Option String :=
  diagnostics.reverse.findSome? fun d => (d.index "failure").asStr

/-- Measurements of an accepted or rejected replacement. -/
def reductionFields (before after : Int) : List (String × Value) :=
  [("before_estimated_tokens", .int before), ("after_estimated_tokens", .int after),
    ("reduction_tokens", .int (before - after)),
    ("reduction_ratio", .num (.float (F64.div (.ofInt (before - after)) (.ofInt (max before 1)))))]

/-- Puts an accepted summary in the place of the history it was made of. -/
def acceptSummary (p : Pass) (attempt : Int) (text : String) (ledger : Ledger) (canonical : String)
    (after : RequestBudget) : EngineM Unit := do
  let before := p.measured.estimatedInputTokens
  let reduction := reductionFields before after.estimatedInputTokens
  let previousLedgerId := (← EngineM.get).activeLedgerId
  let summaryId ← EngineM.uuid
  EngineM.modify fun s => { s with
    memory := keepRetained s p.retained, compactedContext := some canonical
    compactionLedger := some ledger, activeLedgerId := some summaryId }
  EngineM.record "compaction_events" (.str canonical)
  EngineM.modify fun s => { s with
    lastCompactionStep := s.stepCount
    lastCompactionEstimatedTokens := some after.estimatedInputTokens
    lastCompactionAttemptSha256 := none, requestBudget := some after }
  let s ← EngineM.get
  let numbered : List (String × Value) :=
    [("step", .int s.stepCount), ("pass", .int p.number), ("attempt", .int attempt)]
  EngineM.record "compaction_attempts" (.obj (numbered ++ p.sourceFields ++
    [("accepted", .bool true)] ++ reduction ++ [("proposal", .str text),
      ("ledger", ledger.toValue), ("previous_ledger_sha256", .ofStr? p.previousLedgerHash)]))
  let ids (messages : List Message) : Value :=
    .arr ((messages.filterMap Message.messageId).map .str)
  let payload : Value := .obj [("content", .str canonical), ("proposal", .str text),
    ("ledger", ledger.toValue), ("source_sha256", .str p.sourceHash),
    ("source_message_ids", ids p.historical), ("retained_message_ids", ids (s.memory.drop 1)),
    ("previous_ledger_id", .ofStr? previousLedgerId),
    ("efficiency", .obj (numbered ++ [("source_sha256", .str p.sourceHash)] ++ reduction))]
  EngineM.modify fun s => { s with
    compactionProvenance := s.compactionProvenance ++ [.obj (p.sourceFields ++
      [("previous_ledger_sha256", .ofStr? p.previousLedgerHash), ("accepted", .bool true)] ++
      reduction.take 3 ++ [("transcript_record_id", .str summaryId),
        ("transcript_payload", payload)])] }
  EngineM.record "compaction_decisions" (.obj ([("step", .int s.stepCount),
    ("outcome", .str "accepted"), ("source_sha256", .str p.sourceHash)] ++ reduction.take 3))

/-- Accepts a valid ledger if it makes the request small enough; otherwise the reason why not. -/
def judgeLedger (p : Pass) (attempt : Int) (text : String) (ledger : Ledger) (canonical : String) :
    EngineM (Option String) := do
  let s ← EngineM.get
  let after ← e.requestBudget { s with
    memory := keepRetained s p.retained, compactedContext := some canonical }
  let reduction := p.measured.estimatedInputTokens - after.estimatedInputTokens
  if reduction ≤ 0 then
    return some "replacement does not reduce the complete decision request"
  else if !p.hard && reduction < p.requiredReduction then
    return some "replacement reduction is below the configured optional minimum"
  else do
    acceptSummary p attempt text ledger canonical after
    return none

/-- What becomes of the reply to a summary request: `none` if it is accepted, else the reason. -/
def judgeProposal (p : Pass) (attempt : Int) (failure proposal : Option String) :
    EngineM (Option String) := do
  let s ← EngineM.get
  let policy := e.config.memory
  if failure = some "summary_truncated" then return some "summary_truncated"
  else match proposal with
    | none => return some (failure.getD "summary model returned no usable proposal")
    | some text =>
      match Context.validateLedger e.host text s.goal p.source (max policy.maxSummaryTokens 1).toNat
        policy.hybridReflection with
      | .error reason => return some reason
      | .ok (ledger, canonical) => e.judgeLedger p attempt text ledger canonical

/-- One rejected attempt in the journals. -/
def rejectAttempt (p : Pass) (step attempt : Int) (reason : String) (proposal : Option String) :
    EngineM Unit := do
  let record : Value := .obj ([("step", .int step), ("pass", .int p.number),
    ("attempt", .int attempt)] ++ p.sourceFields ++ [("accepted", .bool false),
    ("reason", .str reason), ("proposal", .ofStr? proposal),
    ("previous_ledger_sha256", .ofStr? p.previousLedgerHash)])
  archiveRecord "compaction_rejected" record
  EngineM.record "compaction_attempts" record

/-- The attempts of a pass; `used` of them are over. It returns how many are over in the end, and
whether the last one was accepted or else why not. -/
def attempts (p : Pass) : Nat → Int → Option String → String → EngineM (Int × Option String)
  | 0, used, _, reason => return (used, some reason)
  | left + 1, used, correction, reason => do
    let s ← EngineM.get
    let budget ← EngineM.i64 (e.summaryBudget s p.historical correction)
    if !budget.fits then
      return (used, some "summary request exceeds configured context budget")
    else do
      EngineM.modify fun s => { s with
        lastCompactionAttemptStep := some s.stepCount
        lastCompactionAttemptSha256 := some p.sourceHash }
      let (proposal, diagnostics) ← Proc.lift
        (e.compactClient (e.summaryPayload s.goal p.source correction))
      EngineM.modify fun s => { s with
        modelRequestDiagnostics := s.modelRequestDiagnostics ++ diagnostics }
      match ← e.judgeProposal p (used + 1) (providerFailure diagnostics) proposal with
      | none => return (used + 1, none)
      | some reason => do
        rejectAttempt p s.stepCount (used + 1) reason proposal
        attempts p left (used + 1) (some reason) reason

/-- Records why a pass does not ask for a summary. -/
def skip (assessment : Value) (reason : String) (more : List (String × Value)) : EngineM Unit :=
  EngineM.record "compaction_decisions" (.obj ([("assessment", assessment),
    ("outcome", .str "skipped"), ("reason", .str reason)] ++ more))

/-- Nothing can be summarized: an error if the request has to shrink. -/
def giveUp (hard : Bool) (measured : RequestBudget) (assessment : Value) (reason : String) :
    EngineM Unit := do
  skip assessment reason []
  if hard then Proc.fail (budgetError e.host measured) else pure ()

/-- The longest prefix of groups whose summary request fits, with the groups after it. -/
def selectPrefix (s : Session) : Nat → List Context.HistoryGroup → List Context.HistoryGroup →
    EngineM (Option (List Context.HistoryGroup × List Context.HistoryGroup))
  | 0, _, _ => return none
  | fuel + 1, old, tail => do
    let budget ← EngineM.i64 (e.summaryBudget s (Context.flatten old) none)
    if budget.fits then return some (old, tail)
    else if old.length ≤ 1 then return none
    else selectPrefix s fuel old.dropLast (old.drop (old.length - 1) ++ tail)

/-- Whether the estimate has grown enough since the last compaction; `none` is an overflow panic. -/
def grown (s : Session) (estimated : Int) : Option Bool :=
  match s.lastCompactionEstimatedTokens with
  | none => some true
  | some last => (e.host.i64 (last + e.config.memory.compactionMinGrowthTokens)).map (· ≤ estimated)

def intervalDue (s : Session) : Bool :=
  e.config.memory.compactionIntervalSteps.any fun interval =>
    0 < interval && interval ≤ s.stepCount - s.lastCompactionStep

/-- `compaction_due`. -/
def compactionDue (s : Session) (estimated : Int) : Option Bool :=
  if e.config.memory.maxTokens ≤ estimated then
    (e.grown s estimated).map fun grown => grown || e.intervalDue s
  else some (e.intervalDue s)

/-- What a pass is about to do, as a record. -/
def assess (s : Session) (pass : Int) (measured : RequestBudget) (grown : Bool) (limit headroom : Int)
    (pressure : F64) : Value :=
  let hard := !measured.fits
  let threshold := e.config.memory.maxTokens ≤ measured.estimatedInputTokens && grown
  let reasons := (if hard then ["hard_budget"] else []) ++
    (if e.intervalDue s then ["cadence"] else []) ++ if threshold then ["soft_threshold"] else []
  .obj [("step", .int s.stepCount), ("pass", .int pass),
    ("trigger", .str (if hard then "hard_budget" else if e.intervalDue s then "cadence"
      else "soft_threshold")),
    ("trigger_reasons", .arr (reasons.map .str)),
    ("before_estimated_tokens", .int measured.estimatedInputTokens),
    ("input_budget_tokens", .int limit), ("headroom_tokens", .int headroom),
    ("pressure_ratio", .num (.float pressure))]

/-- The least reduction that is worth a summary. -/
def requiredReduction (hard : Bool) (measured : RequestBudget) : Int :=
  if hard then 1
  else
    let policy := e.config.memory
    let ratio := F64.ceil (F64.mul (.ofInt measured.estimatedInputTokens)
      policy.optionalCompactionMinReductionRatio)
    max (max 1 policy.optionalCompactionMinReductionTokens) ratio

/-- How a pass ends: the loop stops, or it goes on with this many attempts used. -/
inductive PassEnd where
  | stop
  | next (used : Int)

/-- The end of a pass whose attempts were all rejected. -/
def rejectPass (p : Pass) (groups : Nat) (used : Int) (reason : String) : EngineM PassEnd := do
  EngineM.modify fun s => { s with
    lastCompactionAttemptSha256 := some p.sourceHash
    compactionProvenance := s.compactionProvenance ++ [.obj (p.sourceFields ++
      [("previous_ledger_sha256", .ofStr? p.previousLedgerHash), ("accepted", .bool false),
        ("before_estimated_tokens", .int p.measured.estimatedInputTokens),
        ("reason", .str reason)])] }
  let s ← EngineM.get
  EngineM.record "compaction_decisions" (.obj [("step", .int s.stepCount),
    ("outcome", .str "rejected"), ("source_sha256", .str p.sourceHash), ("reason", .str reason)])
  return if e.config.memory.compactionMaxAttempts ≤ used ∨ groups ≤ 1 then .stop else .next used

/-- Asks for a summary of the selected prefix. -/
def summarize (p : Pass) (groups : Nat) (used : Int) (assessment : Value) :
    EngineM (Bool × PassEnd) := do
  EngineM.record "compaction_decisions" (.obj [("assessment", assessment),
    ("outcome", .str "triggered"), ("source_sha256", .str p.sourceHash)])
  let (used, rejected) ← e.attempts p (e.config.memory.compactionMaxAttempts - used).toNat used none ""
  match rejected with
  | some reason => do
    let fin ← e.rejectPass p groups used reason
    return (false, fin)
  | none => do
    let s ← EngineM.get
    return (true, if s.requestBudget.any RequestBudget.fits then .stop else .next used)

/-- A pass from the selected prefix on. -/
def weigh (number : Int) (hard : Bool) (measured : RequestBudget) (pressure : F64)
    (assessment : Value) (old tail : List Context.HistoryGroup) (used : Int) :
    EngineM (Bool × PassEnd) := do
  let s ← EngineM.get
  let policy := e.config.memory
  let historical := Context.flatten old
  let retained := Context.flatten tail
  let floor ← e.requestBudget { s with memory := keepRetained s retained, compactedContext := none }
  let reclaimable := max (measured.estimatedInputTokens - floor.estimatedInputTokens) 0
  let required := e.requiredReduction hard measured
  let assessment := ((assessment.set "protected_estimated_tokens"
    (.int floor.estimatedInputTokens)).set "reclaimable_estimated_tokens" (.int reclaimable)).set
    "required_reduction_tokens" (.int required)
  let source := e.sourceOf s historical
  let sourceHash := e.host.sha256 source
  if !hard && F64.lt pressure policy.optionalCompactionMinPressureRatio then do
    skip assessment "low_pressure" []
    return (false, .stop)
  else if !hard && reclaimable < max policy.optionalCompactionMinReclaimableTokens required then do
    skip assessment "insufficient_reclaimable_history" []
    return (false, .stop)
  else if s.lastCompactionAttemptSha256 = some sourceHash then do
    skip assessment "unchanged_failed_source" [("source_sha256", .str sourceHash)]
    return (false, .stop)
  else
    e.summarize {
      number, hard, measured, requiredReduction := required, historical, retained, source
      sourceHash, sourceIndexes := old.flatMap fun g => g.indexes.map (· + 1)
      retainedIndexes := tail.flatMap fun g => g.indexes.map (· + 1)
      previousLedgerHash := s.compactionLedger.map Ledger.sourceSha256 } old.length used assessment

/-- A pass that is due. -/
def duePass (number : Int) (measured : RequestBudget) (grown : Bool) (used : Int) :
    EngineM (Bool × PassEnd) := do
  let s ← EngineM.get
  let policy := e.config.memory
  let hard := !measured.fits
  let limit ← EngineM.i64 (e.host.i64 (policy.contextWindowTokens - measured.reservedOutputTokens))
  let limit ← EngineM.i64 (e.host.i64 (limit - policy.safetyMarginTokens))
  let headroom ← EngineM.i64 (e.host.i64 (limit - measured.estimatedInputTokens))
  let pressure := F64.div (.ofInt measured.estimatedInputTokens) (.ofInt (max limit 1))
  let assessment := e.assess s number measured grown limit headroom pressure
  let (old, tail) ← Proc.ofExcept
    (Context.splitHistory e.host (s.memory.drop 1) policy.rawTurnsToKeep)
  if old.isEmpty then do
    e.giveUp hard measured assessment "no_historical_groups"
    return (false, .stop)
  else if !hard && e.config.workflow.isSome && e.complete s then do
    skip assessment "completed_workflow" []
    return (false, .stop)
  else if !hard && s.lastCompactionAttemptStep.any
      (s.stepCount - · < policy.compactionMinIntervalSteps) then do
    skip assessment "minimum_spacing" []
    return (false, .stop)
  else do
    match ← e.selectPrefix s old.length old tail with
    | none => do
      e.giveUp hard measured assessment "summarizer_source_unaffordable"
      return (false, .stop)
    | some (old, tail) => e.weigh number hard measured pressure assessment old tail used

/-- One pass: whether the memory changed, and how the loop goes on. -/
def compactPass (number : Int) (used : Int) : EngineM (Bool × PassEnd) := do
  let measured ← e.requestBudget (← EngineM.get)
  EngineM.modify fun s => { s with requestBudget := some measured }
  let s ← EngineM.get
  let grown ← EngineM.i64 (e.grown s measured.estimatedInputTokens)
  let due ← EngineM.i64 (e.compactionDue s measured.estimatedInputTokens)
  if measured.fits && !due then return (false, .stop)
  else e.duePass number measured grown used

/-- The passes; `changed` is whether one of those before replaced history. -/
def compactPasses : Nat → Int → Int → Bool → EngineM Bool
  | 0, _, _, changed => return changed
  | left + 1, number, used, changed => do
    let (replaced, fin) ← e.compactPass number used
    match fin with
    | .stop => return changed || replaced
    | .next used => compactPasses left (number + 1) used (changed || replaced)

/-- `compact`. -/
def compact : EngineM Bool := do
  let changed ← e.compactPasses (max e.config.memory.compactionMaxPasses 1).toNat 1 0 false
  let budget ← e.requestBudget (← EngineM.get)
  EngineM.modify fun s => { s with requestBudget := some budget }
  if !budget.fits then Proc.fail (budgetError e.host budget) else return changed

end Engine

end StateDrivenAgent
