import StateDrivenAgent.Agent.Compaction

/-!
# What a compaction does

A compaction is a sequence of passes, a pass a sequence of attempts, and an attempt an exchange with
the model. What may change is what the session remembers (`Remembered`): an accepted attempt replaces
the oldest interactions by a summary (`Replacement`), any other one leaves everything as it is.
`Compacted` says this of a whole run.
-/

namespace StateDrivenAgent

open Interaction Context

/-- What a compaction may replace. -/
structure Remembered where
  memory : List Message
  compactedContext : Option String
  compactionLedger : Option Ledger
  activeLedgerId : Option String

def Session.remembered (s : Session) : Remembered :=
  ⟨s.memory, s.compactedContext, s.compactionLedger, s.activeLedgerId⟩

/-- The session with another memory. -/
def Session.recall (s : Session) (r : Remembered) : Session :=
  { s with
    memory := r.memory, compactedContext := r.compactedContext
    compactionLedger := r.compactionLedger, activeLedgerId := r.activeLedgerId }

namespace Engine

variable (e : Engine)

/-- The budget of the next decision request. -/
def Estimates (s : Session) (b : RequestBudget) : Prop :=
  ∃ payload, e.completeRequestPayload s = .ok payload ∧
    Context.estimatePayload e.host payload e.config.memory = some b

/-- A suffix of the interactions of a history, of as many messages as are to stay raw. -/
def Keeps (history kept : List Message) : Prop :=
  ∃ old tail, interactionGroups e.host history = .ok (old ++ tail) ∧ kept = flatten tail ∧
    min e.config.memory.rawTurnsToKeep history.length ≤ kept.length

/-- A summary in the place of the oldest interactions of a session. -/
structure Replacement (s : Session) (r r' : Remembered) : Prop where
  memory : ∃ kept, e.Keeps (r.memory.drop 1) kept ∧ r'.memory = r.memory.take 1 ++ kept
  saves : ∃ before after, e.Estimates (s.recall r) before ∧ e.Estimates (s.recall r') after ∧
    after.estimatedInputTokens < before.estimatedInputTokens ∧
    (before.fits = true → e.requiredReduction false before ≤
      before.estimatedInputTokens - after.estimatedInputTokens)

/-- That many replacements, one after the other. -/
inductive Replacements (s : Session) : Nat → Remembered → Remembered → Prop
  | none (r : Remembered) : Replacements s 0 r r
  | more {n : Nat} {r r' r'' : Remembered} (h : Replacements s n r r')
      (hr : e.Replacement s r' r'') : Replacements s (n + 1) r r''

end Engine

/-! ## Passes and attempts -/

def Eff.isPost : Eff → Bool
  | .httpPost .. => true
  | _ => false

/-- The requests to the model among the events of a run. -/
def posts (es : List (Event Eff Reply)) : List (Event Eff Reply) := es.filter fun x => x.1.isPost

/-- One exchange about a summary, and whether the summary was accepted. -/
structure SummaryAttempt where
  events : List (Event Eff Reply)
  accepted : Bool

/-- One pass with its attempts. -/
structure PassRun where
  events : List (Event Eff Reply)
  attempts : List SummaryAttempt

namespace Engine

variable (e : Engine)

/-- The attempt is an exchange of the summary client. -/
def IsAttempt (a : SummaryAttempt) : Prop :=
  ∃ payload reply, (e.compactClient payload).Runs a.events (.ret reply)

/-- The run of a pass, which asks the model in its attempts only. -/
structure IsPass (number : Int) (p : PassRun) : Prop where
  run : ∃ used s out, (e.compactPass number used s).Runs p.events (.ret out)
  requests : posts p.events = p.attempts.flatMap fun a => posts a.events
  attempts : ∀ a ∈ p.attempts, e.IsAttempt a
  bounded : p.attempts.length ≤ e.config.memory.compactionMaxAttempts.toNat

/-- What a run of `compact` from `s` to `s'` did in its passes. -/
structure Compacted (s s' : Session) (es : List (Event Eff Reply)) (passes : List PassRun) :
    Prop where
  events : es = passes.flatMap PassRun.events
  each : ∀ (i : Nat) p, passes[i]? = some p → e.IsPass (i + 1) p
  bounded : (passes.length : Int) ≤ e.config.memory.compactionMaxPasses
  goal : s'.goal = s.goal
  workflow : s'.workflow = s.workflow
  artifacts : s'.completionArtifacts = s.completionArtifacts
  pending : s'.pendingToolCalls = s.pendingToolCalls ∧ s'.pendingToolPhase = s.pendingToolPhase
  replaced : e.Replacements s ((passes.flatMap PassRun.attempts).countP SummaryAttempt.accepted)
    s.remembered s'.remembered
  kept : ∃ kept, e.Keeps (s.memory.drop 1) kept ∧ s'.memory = s.memory.take 1 ++ kept

end Engine

end StateDrivenAgent
