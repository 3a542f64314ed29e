import Mathlib.Data.List.Sort
import StateDrivenAgent.Agent.Effect

/-!
# The diagnostics journal

`diagnostics.rs`: what happened to the context is recorded in three families of numbered records. A
session carries the count of each family, the last few records, and the records a commit still has
to store. A failing function keeps the changes it made before it failed.
-/

namespace StateDrivenAgent

/-- A function that updates the session and may fail, without effects. -/
abbrev StateOp : Type := Session → Except String Unit × Session

/-- One after the other; a failure of the first is the failure of both. -/
def StateOp.andThen (f g : StateOp) : StateOp := fun s =>
  match f s with
  | (.ok (), s') => g s'
  | (.error e, s') => (.error e, s')

def StateOp.skip : StateOp := fun s => (.ok (), s)

namespace Diagnostics

/-- `RECENT`. -/
def recent : Nat := 32

/-- `FAMILIES`. -/
def families : List String := ["compaction_events", "compaction_attempts", "compaction_decisions"]

/-- Inserts into the `BTreeMap` of counts. -/
def insertCount (family : String) (n : Int) : List (String × Int) → List (String × Int)
  | [] => [(family, n)]
  | (k, m) :: rest =>
    if family < k then (family, n) :: (k, m) :: rest
    else if k = family then (family, n) :: rest
    else (k, m) :: insertCount family n rest

theorem insertCount_ne_nil (family : String) (n : Int) (counts : List (String × Int)) :
    insertCount family n counts ≠ [] := by
  cases counts with
  | nil => exact List.cons_ne_nil _ _
  | cons count counts =>
    unfold insertCount
    split
    · exact List.cons_ne_nil _ _
    · split <;> exact List.cons_ne_nil _ _

def counted (s : Session) (family : String) : Int := (lookup family s.diagnosticCounts).getD 0

def trim {α : Type} (items : List α) : List α := items.drop (items.length - recent)

def refreshCompleteness (s : Session) : Session :=
  { s with diagnosticsComplete :=
      counted s "compaction_events" = s.compactionEvents.length &&
      counted s "compaction_attempts" = s.compactionAttempts.length &&
      counted s "compaction_decisions" = s.compactionDecisions.length }

/-- The tokens an accepted attempt saved, as far as its record tells. -/
def savings (payload : Value) : Option Int :=
  (payload.index "reduction_tokens").asI64 <|> do
    let before ← (payload.index "before_estimated_tokens").asI64
    let after ← (payload.index "after_estimated_tokens").asI64
    if I64.inRange (before - after) then some (before - after) else none

/-- The totals after an attempt. -/
def tally (payload : Value) (s : Session) : Session :=
  if !(payload.index "accepted").eqv (.bool true) then
    { s with diagnosticRejections := s.diagnosticRejections + 1 }
  else match savings payload with
    | some reduction => { s with
        compactionSavingsTotal := s.compactionSavingsTotal + reduction }
    | none => { s with compactionSavingsKnown := false }

/-- The caches and totals after a record of `family`; an error where there is no such record. -/
def cache (family : String) (payload : Value) (s : Session) : Except String Session :=
  if family = "compaction_events" then
    match payload.asStr with
    | some text => .ok { s with compactionEvents := trim (s.compactionEvents ++ [text]) }
    | none => .error "invalid compaction event"
  else if family = "compaction_attempts" then
    let s := tally payload s
    .ok { s with compactionAttempts := trim (s.compactionAttempts ++ [payload]) }
  else if family = "compaction_decisions" then
    .ok { s with compactionDecisions := trim (s.compactionDecisions ++ [payload]) }
  else .error ("unknown diagnostic family '" ++ family ++ "'")

def append (family : String) (payload : Value) : StateOp := fun s =>
  let ordinal := counted s family + 1
  if !I64.inRange ordinal then (.error "diagnostic ordinal overflow", s)
  else match cache family payload s with
  | .error e => (.error e, s)
  | .ok s => (.ok (), refreshCompleteness { s with
      diagnosticCounts := insertCount family ordinal s.diagnosticCounts
      diagnosticsPending := s.diagnosticsPending ++ [{ family, ordinal, payload }] })

def appendAll (family : String) : List Value → StateOp
  | [] => .skip
  | payload :: payloads => (append family payload).andThen (appendAll family payloads)

/-- Numbers the records of a session that has none yet. -/
def stage : StateOp := fun s =>
  if !s.diagnosticCounts.isEmpty then (.ok (), s)
  else
    let accepted := (s.compactionAttempts.filter fun item =>
      (item.index "accepted").eqv (.bool true)).length
    ((appendAll "compaction_events" (s.compactionEvents.map .str)).andThen
      ((appendAll "compaction_attempts" s.compactionAttempts).andThen
        (appendAll "compaction_decisions" s.compactionDecisions))) { s with
      compactionEvents := [], compactionAttempts := [], compactionDecisions := []
      diagnosticRejections := 0, compactionSavingsTotal := 0
      compactionSavingsKnown := accepted = s.compactionEvents.length }

def record (family : String) (payload : Value) : StateOp := fun s =>
  if !families.contains family then (.error ("unknown diagnostic family '" ++ family ++ "'"), s)
  else if family = "compaction_events" && payload.asStr.isNone then
    (.error "compaction event must contain a summary string", s)
  else (stage.andThen (append family payload)) s

/-! ## Reading the journal back -/

/-- `(&a.family, a.ordinal).cmp(&(&b.family, b.ordinal))`. -/
def recordLe (a b : DiagnosticRecord) : Prop :=
  a.family < b.family ∨ (a.family = b.family ∧ a.ordinal ≤ b.ordinal)

instance : DecidableRel recordLe := fun a b => by unfold recordLe; infer_instance

def sameRecords : List DiagnosticRecord → List DiagnosticRecord → Bool
  | [], [] => true
  | a :: as, b :: bs =>
    a.family = b.family && a.ordinal = b.ordinal && a.payload.eqv b.payload && sameRecords as bs
  | _, _ => false

/-- The numbers of the rows go up one by one from `first`. -/
def consecutive (first : Int) : List DiagnosticRecord → Bool
  | [] => true
  | r :: rs => r.ordinal = first && consecutive (first + 1) rs

/-- A record read back into its cache. -/
def push (family : String) (s : Session) (payload : Value) : Except String Session :=
  if family = "compaction_events" then
    match payload.asStr with
    | some text => .ok { s with compactionEvents := s.compactionEvents ++ [text] }
    | none => .error "invalid archived compaction event"
  else if family = "compaction_attempts" then
    .ok { s with compactionAttempts := s.compactionAttempts ++ [payload] }
  else .ok { s with compactionDecisions := s.compactionDecisions ++ [payload] }

/-- The cache of a family from its last rows, which have to end at the counter. -/
def restoreFamily (legacy : Bool) (records : List DiagnosticRecord)
    (counts : List (String × Int)) (s : Session) (family : String) : Except String Session :=
  let expected := counted s family
  let actual := (lookup family counts).getD 0
  if expected < 0 ∨ actual ≠ expected then
    .error ("diagnostic counter differs from archived history: family=" ++ family ++
      " expected=" ++ toString expected ++ " stored=" ++ toString actual)
  else
    let rows := records.filter fun r => r.family = family
    let retained := if legacy then expected else min expected recent
    if (rows.length : Int) ≠ retained ∨ !consecutive (expected - retained + 1) rows then
      .error ("diagnostic recent history has a gap: family=" ++ family)
    else ((rows.drop (rows.length - recent)).map DiagnosticRecord.payload).foldlM (push family) s

/-- The session to restore the caches of; one without counters is numbered first, and has to be the
whole history. -/
def numbered (records : List DiagnosticRecord) (s : Session) : Except String Session :=
  if s.diagnosticCounts.isEmpty then
    match stage s with
    | (.error e, _) => .error e
    | (.ok (), s) =>
      if sameRecords (s.diagnosticsPending.insertionSort recordLe) records then .ok s
      else .error "legacy diagnostic snapshot differs from archived history"
  else .ok s

/-- `hydrate`: the caches of a loaded session from the stored rows. -/
def hydrate (records : List DiagnosticRecord) (counts : List (String × Int)) (s : Session) :
    Except String Session := do
  let legacy := s.diagnosticCounts.isEmpty
  let s ← numbered records s
  if s.diagnosticCounts.any fun c => !families.contains c.1 then
    .error "unknown diagnostic counter family"
  else do
    let s ← families.foldlM (restoreFamily legacy records counts)
      { s with compactionEvents := [], compactionAttempts := [], compactionDecisions := [] }
    return refreshCompleteness { s with diagnosticsPending := [] }

end Diagnostics

open Interaction

namespace EngineM

/-- A function of the session as an engine step. -/
def op (f : StateOp) : EngineM Unit := Proc.step f

def record (family : String) (payload : Value) : EngineM Unit := op (Diagnostics.record family payload)

end EngineM

end StateDrivenAgent
