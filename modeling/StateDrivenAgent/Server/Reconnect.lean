import Mathlib.Data.List.Sort
import StateDrivenAgent.Storage.Tables

/-!
# Reconnecting to the events of a run

`events.rs`: a client that lost its stream asks for the stored events of a run after the last event
it saw. The reader polls: it queries the next events, sends them, and when there were fewer than a
full page it queries the status of the run and stops unless the run is running. The two queries are
two statements, each sees the tables as they are at that moment.
-/

namespace StateDrivenAgent

namespace Storage

/-- Why a stream ends: the run is not running, a query failed, or the client is gone. -/
inductive StreamEnd where
  | settled
  | failed
  | closed
deriving DecidableEq

/-- Where the reader is in its loop. -/
inductive ReaderPhase where
  | polling
  | sending (rows : List EventRow) (full : Bool)
  | checking
  | ended (why : StreamEnd)

structure Reader where
  run : String
  after : Int
  sent : List Value := []
  phase : ReaderPhase := .polling

/-- `event->>'run_id'=$2`. -/
def EventRow.ofRun (run : String) (r : EventRow) : Bool :=
  (r.event.index "run_id").asStr = some run

/-- The event as the reader sends it. -/
def EventRow.delivery (r : EventRow) : Value := r.event.set "event_id" (.int r.eventId)

/-- The size of a page of events. -/
def pageSize : Nat := 1000

/-- The query of one poll. -/
def pollEvents (t : Tables) (run : String) (after : Int) : List EventRow :=
  ((t.events.filter fun r => r.ofRun run && decide (after < r.eventId)).insertionSort
    fun a b => a.eventId ≤ b.eventId).take pageSize

/-- `SELECT status FROM agent_runs`. -/
def runStatus (t : Tables) (run : String) : Option String :=
  (t.runs.find? fun r => r.runId = run).map RunRow.status

/-- The checks of a reconnection, and the reader it starts. -/
def reconnect (host : Host) (db : Db) (id : String) (run after : Option String) :
    Except (Nat × String) (String × Reader) := do
  match host.parseUuid id with
  | none => .error (422, "Session ID must be UUID")
  | some session => match run.bind host.parseUuid with
    | none => .error (422, "run_id must be UUID")
    | some run => match after.elim (some 0) (Text.parseInt 64) with
      | none => .error (422, "Invalid event cursor")
      | some after =>
        if after < 0 then .error (422, "Invalid event cursor")
        else if (runStatus (db.tables session) run).isNone then .error (404, "Run not found")
        else .ok (session, { run, after })

/-- The next events of the run. -/
def Reader.page (r : Reader) (t : Tables) : List EventRow := pollEvents t r.run r.after

/-- One move of a reader, on the tables as they are. -/
inductive Reader.Step (t : Tables) : Reader → Reader → Prop
  | poll {r : Reader} (h : r.phase = .polling) :
      Step t r { r with phase := .sending (r.page t) ((r.page t).length = pageSize) }
  | pollFailed {r : Reader} (h : r.phase = .polling) : Step t r { r with phase := .ended .failed }
  | send {r : Reader} {row : EventRow} {rest : List EventRow} {full : Bool}
      (h : r.phase = .sending (row :: rest) full) :
      Step t r { r with
        after := row.eventId, sent := r.sent ++ [row.delivery], phase := .sending rest full }
  -- the task returns, and its cursor is gone with it
  | closed {r : Reader} {row : EventRow} {rest : List EventRow} {full : Bool}
      (h : r.phase = .sending (row :: rest) full) : Step t r { r with phase := .ended .closed }
  | again {r : Reader} (h : r.phase = .sending [] true) : Step t r { r with phase := .polling }
  | check {r : Reader} (h : r.phase = .sending [] false) : Step t r { r with phase := .checking }
  | running {r : Reader} (h : r.phase = .checking) (hs : runStatus t r.run = some "running") :
      Step t r { r with phase := .polling }
  | settled {r : Reader} (h : r.phase = .checking) (hs : runStatus t r.run ≠ some "running") :
      Step t r { r with phase := .ended .settled }
  | checkFailed {r : Reader} (h : r.phase = .checking) : Step t r { r with phase := .ended .failed }

/-- The reader queried its last page, and has yet to see the status that goes with it. -/
def Reader.open (r : Reader) : Bool :=
  match r.phase with
  | .sending _ false | .checking => true
  | _ => false

end Storage

end StateDrivenAgent
