import StateDrivenAgent.Agent.Diagnostics
import StateDrivenAgent.Agent.Loading

/-!
# Archives

`verify` and `export` of `retention.rs`. An archive is a text of JSON lines: a header, the rows of the
session table by table, and a manifest with the counts, the watermarks and the digests of what is
before it.

The hashers are the texts they were fed (`Archive.Share`), since a digest is that of the whole text.
A row is the text PostgreSQL sends for it; the driver reads it with serde's own visitor
(`Raw.value`), which keeps an integer up to `u64::MAX` and the last of equal names.
-/

namespace StateDrivenAgent

mutual

/-- What serde's own visitor makes of the events. -/
def Raw.value : Raw → Value
  | .null => .null
  | .bool b => .bool b
  | .i64 i => .num (.int i)
  | .u64 n => .num (.int n)
  | .f64 f => .num (.float f)
  | .str s => .str s
  | .seq items => .arr (Raw.valueItems items)
  | .map fields => .obj (Raw.valueFields [] fields)

def Raw.valueItems : List Raw → List Value
  | [] => []
  | x :: xs => x.value :: Raw.valueItems xs

def Raw.valueFields (out : List (String × Value)) : List (String × Raw) → List (String × Value)
  | [] => out
  | (k, x) :: xs => Raw.valueFields (insertField k x.value out) xs

end

namespace Archive

open Config (check demand need)

/-- `TABLES`, with the columns the rows are ordered by. -/
def tables : List (String × String) :=
  [("agent_sessions", "session_id"),
   ("agent_session_context", "session_id"),
   ("agent_session_transcript", "sequence"),
   ("agent_session_events", "event_id"),
   ("agent_session_diagnostics", "family,ordinal"),
   ("agent_runs", "started_at,run_id"),
   ("agent_tool_executions", "execution_id"),
   ("agent_session_calls", "call_id,message_id"),
   ("agent_archive_receipts", "archive_id"),
   ("agent_commands", "created_at,command_id"),
   ("agent_commit_receipts", "committed_revision"),
   ("agent_action_attempts", "execution_id,attempt_number")]

/-- `line`. -/
def line (host : Host) (v : Value) : Loading String := do
  return (← Config.canonicalJson host v) ++ "\n"

/-- A line without the carriage return before its line feed. -/
def stripReturn (l : List Char) : List Char := if l.getLast? = some '\r' then l.dropLast else l

/-- `BufReader::lines`. -/
def fileLines (text : String) : List String :=
  let parts := Text.splitList '\n' text.toList
  let last := parts.getLast?.getD []
  (parts.dropLast.map stripReturn ++ (if last = [] then [] else [last])).map .ofList

/-- What was read or written of one table: the text its hasher was fed, and the number of rows. -/
structure Share where
  table : String
  text : String := ""
  count : Int := 0

def shares : List Share := tables.map fun t => { table := t.1 }

/-- A row of the table with its line. -/
def addShare (table text : String) (shares : List Share) : List Share :=
  shares.map fun s =>
    if s.table = table then { s with text := s.text ++ text, count := s.count + 1 } else s

def countsValue (shares : List Share) : Value :=
  .obj (shares.map fun s => (s.table, .int s.count))

def hashesValue (host : Host) (shares : List Share) : Value :=
  .obj (shares.map fun s => (s.table, .str (host.sha256 s.text)))

/-! ## `verify` -/

/-- The state of `verify` behind a line. -/
structure Tally where
  covered : String
  shares : List Share := Archive.shares
  events : Int := 0
  diagnostics : List (String × Value) := []
  manifest : Option Value := none

def Tally.watermarks (t : Tally) : Value :=
  .obj [("events", .int t.events), ("diagnostics", .obj t.diagnostics)]

/-- A field of the header that is a UUID. -/
def checkUuid (host : Host) (header : Value) (key : String) : Except String Unit := do
  let id ← need (header.index key).asStr "missing archive UUID"
  demand ((host.parseUuid id).isSome = true) "invalid UUID"

/-- The checks of the header. -/
def checkHeader (host : Host) (header : Value) : Except String Unit := do
  demand (((header.index "format").eqv (.str "sda-archive-2") &&
      (header.asObject.map List.length == some 4) &&
      decide (1 ≤ ((header.index "snapshot_revision").asI64).getD 0)) = true)
    "invalid archive header"
  checkUuid host header "archive_id"
  checkUuid host header "session_id"

/-- The watermarks behind a row. -/
def mark (table : String) (row : Value) (t : Tally) : Except String Tally := do
  if table = "agent_session_events" then
    let id ← need (row.index "event_id").asI64 "invalid event id"
    return { t with events := max t.events id }
  else if table = "agent_session_diagnostics" then
    let family ← need (row.index "family").asStr "missing family"
    demand (family ∈ Diagnostics.families) "invalid diagnostic family"
    let ordinal ← need (row.index "ordinal").asI64 "invalid ordinal"
    let mark := max (((lookup family t.diagnostics).bind Value.asI64).getD 0) ordinal
    return { t with diagnostics := insertField family (.int mark) t.diagnostics }
  else return t

/-- A record without a manifest. -/
def addRow (host : Host) (header : Value) (t : Tally) (v : Value) : Loading Tally := do
  let table ← check (need (v.index "table").asStr "missing table")
  check (demand ((tables.any fun x => x.1 = table) = true ∧
      ((v.index "row").index "session_id").eqv (header.index "session_id") = true ∧
      v.asObject.map List.length = some 2)
    "unknown table or cross-session archive row")
  let bytes ← line host v
  check (mark table (v.index "row")
    { t with covered := t.covered ++ bytes, shares := addShare table bytes t.shares })

/-- A line behind the header. -/
def readLine (host : Host) (header : Value) (t : Tally) (raw : String) : Loading Tally := do
  let v ← check (parseStrictJson host raw)
  check (demand (t.manifest.isNone = true) "trailing archive data")
  match v.get "manifest" with
  | some m => return { t with manifest := some m }
  | none => addRow host header t v

/-- The manifest says what was read. -/
def Tally.agrees (host : Host) (t : Tally) (m : Value) : Bool :=
  (m.index "sha256").eqv (.str (host.sha256 t.covered)) &&
    (m.index "counts").eqv (countsValue t.shares) &&
    (m.index "table_sha256").eqv (hashesValue host t.shares) &&
    (m.index "watermarks").eqv t.watermarks

/-- `verify`; `path` is the canonical path of the file. -/
def verify (host : Host) (path : Except String String) (text : String) : Loading Value := do
  let first ← check (need (fileLines text).head? "empty archive")
  let header ← check (parseStrictJson host first)
  check (checkHeader host header)
  let t ← (fileLines text).tail.foldlM (readLine host header) { covered := ← line host header }
  let m ← check (need t.manifest "archive manifest missing")
  check (demand (t.agrees host m = true) "archive manifest mismatch")
  let fields ← check (need m.asObject "invalid manifest")
  let result := fields.foldl (fun r f => r.set f.1 f.2) header
  return result.set "archive_path" (.str (← check path))

/-! ## `export` -/

/-- What a transaction sees of a session: its revision, and the text of each row of each table. -/
structure Snapshot where
  session : String
  archive : String
  revision : Int
  rows : String → List String

/-- The driver's reading of a row. -/
def fetch (host : Host) (text : String) : Except String Value := return (← host.reader text).value

def Snapshot.header (s : Snapshot) : Value :=
  .obj [("format", .str "sda-archive-2"), ("archive_id", .str s.archive),
    ("session_id", .str s.session), ("snapshot_revision", .int s.revision)]

/-- The state of `export` behind a row; the digest was fed the text of the file. -/
structure Writing where
  text : String
  shares : List Share := Archive.shares
  events : Value := .int 0
  diagnostics : List (String × Value) := []

def Writing.watermarks (w : Writing) : Value :=
  .obj [("events", w.events), ("diagnostics", .obj w.diagnostics)]

/-- One row of a table. -/
def exportRow (host : Host) (table : String) (w : Writing) (row : Value) : Loading Writing := do
  let w := if table = "agent_session_events" then { w with events := row.index "event_id" } else w
  let w ← if table = "agent_session_diagnostics" then
      match (row.index "family").asStr with
      | some family =>
        pure { w with diagnostics := insertField family (row.index "ordinal") w.diagnostics }
      | none => .error (.panic "unwrap of the family")
    else pure w
  let bytes ← line host (.obj [("table", .str table), ("row", row)])
  return { w with text := w.text ++ bytes, shares := addShare table bytes w.shares }

def exportTable (host : Host) (s : Snapshot) (w : Writing) (table : String) : Loading Writing := do
  let rows ← check ((s.rows table).mapM (fetch host))
  rows.foldlM (exportRow host table) w

def Writing.manifest (host : Host) (w : Writing) : Value :=
  .obj [("counts", countsValue w.shares), ("table_sha256", hashesValue host w.shares),
    ("watermarks", w.watermarks), ("sha256", .str (host.sha256 w.text))]

/-- The file `export` writes. -/
def exportFile (host : Host) (s : Snapshot) : Loading String := do
  let first ← line host s.header
  let w ← (tables.map Prod.fst).foldlM (exportTable host s) { text := first }
  return w.text ++ (← line host (.obj [("manifest", w.manifest host)]))

/-- `export`: what it has written is verified. -/
def exportTo (host : Host) (path : Except String String) (s : Snapshot) : Loading Value := do
  verify host path (← exportFile host s)

end Archive

end StateDrivenAgent
