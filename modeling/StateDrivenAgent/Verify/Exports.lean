import Mathlib.Data.List.Pairwise
import StateDrivenAgent.Verify.Archives

/-!
# Export and verification

The rows of an accepted file are fixed by its manifest, as values up to the order of properties
(`Accepts.unique`). The file `export` writes is accepted if and only if the driver can read every
row, no row has an integer above `i64::MAX` or is nested to the limit of the reader, every diagnostic
is of a known family, and the session was saved once (`exported_iff`).
-/

namespace StateDrivenAgent

namespace Archive

open Identity (pythonEncoded Portable)
open Config (check_ok_iff bind_ok_iff unit_bind_ok_iff)

/-! ## The rows are fixed by the manifest -/

section unique

variable {host : Host}

theorem written_append (vs ws : List Value) :
    written host (vs ++ ws) = written host vs ++ written host ws := List.flatMap_append

theorem written_nil : written host [] = [] := rfl

theorem written_cons (v : Value) (vs : List Value) :
    written host (v :: vs) = (pythonEncoded host v ++ "\n").toList ++ written host vs := by
  rw [written, List.flatMap_cons, String.toList_append]
  rfl

/-- The lines give the values back. -/
theorem written_injective (hp : host.Prints) {vs ws : List Value}
    (hvs : ∀ v ∈ vs, v.valid = true ∧ v.EveryNumber Signed)
    (hws : ∀ w ∈ ws, w.valid = true ∧ w.EveryNumber Signed)
    (h : written host vs = written host ws) : vs.map Value.sorted = ws.map Value.sorted := by
  have hline : ∀ {us : List Value}, (∀ u ∈ us, u.valid = true ∧ u.EveryNumber Signed) →
      Text.splitList '\n' (written host us) =
        (us.map (pythonEncoded host)).map String.toList ++ [[]] := by
    intro us hus
    have hfeed : ∀ l ∈ us.map (pythonEncoded host), '\n' ∉ l.toList := by
      intro l hl hmem
      obtain ⟨u, hu, rfl⟩ := List.mem_map.1 hl
      exact absurd (Identity.pythonEncoded_no_control hp (hus u hu).1 _ hmem) (by decide)
    rw [← splitList_lines hfeed, List.flatMap_map]
    rfl
  have hsplit := congrArg (Text.splitList '\n') h
  rw [hline hvs, hline hws] at hsplit
  have hmap := List.map_injective_iff.2 (fun _ _ => String.toList_injective)
    (List.append_cancel_right hsplit)
  clear h hsplit hline
  induction vs generalizing ws with
  | nil =>
    cases ws with
    | nil => rfl
    | cons w ws => cases hmap
  | cons v vs ih =>
    cases ws with
    | nil => cases hmap
    | cons w ws =>
      obtain ⟨hv, hvs⟩ := List.forall_mem_cons.1 hvs
      obtain ⟨hw, hws⟩ := List.forall_mem_cons.1 hws
      obtain ⟨hhead, htail⟩ := List.cons.inj hmap
      rw [List.map_cons, List.map_cons, ih hvs hws htail,
        (Identity.pythonEncoded_eq_iff hp hv.1 hw.1 hv.2 hw.2).1 hhead]

theorem mark_covered {table : String} {row : Value} {t t' : Tally} (h : mark table row t = .ok t') :
    t'.covered = t.covered ∧ t'.shares = t.shares := by
  rcases mark_ok_iff.1 h with ⟨-, id, -, rfl⟩ | ⟨-, family, ordinal, -, -, -, rfl⟩ | ⟨-, -, rfl⟩ <;>
    exact ⟨rfl, rfl⟩

/-- What is hashed are the lines of the header and the rows. -/
theorem foldlM_addRow_covered (hp : host.Prints) {header : Value} {rows : List Value} {t t' : Tally}
    (h : rows.foldlM (addRow host header) t = .ok t') :
    t'.covered.toList = t.covered.toList ++ written host rows := by
  induction rows generalizing t with
  | nil =>
    rw [← Except.ok.inj h]
    exact (List.append_nil _).symm
  | cons row rows ih =>
    rw [List.foldlM_cons] at h
    obtain ⟨t₁, hrow, h⟩ := bind_ok h
    obtain ⟨table, bytes, -, -, -, -, hbytes, hmark⟩ := addRow_ok_iff.1 hrow
    rw [line_ok hp] at hbytes
    rw [ih h, (mark_covered hmark).1, written_cons, Tally.add, ← Except.ok.inj hbytes,
      String.toList_append, List.append_assoc]

variable {text text' : String} {c c' : Contents} {t t' : Tally}

theorem Accepts.covered (hp : host.Prints) (h : Accepts host text c t) :
    t.covered.toList = written host (c.header :: c.rows) := by
  obtain ⟨first, hfirst, htally⟩ := h.tally
  rw [line_ok hp] at hfirst
  rw [foldlM_addRow_covered hp htally, written_cons, ← Except.ok.inj hfirst]

/-- Every record is a document with `i64` integers. -/
theorem Accepts.signed (hr : host.ReadsBounded) (h : Accepts host text c t) :
    ∀ v ∈ c.header :: (c.rows ++ [c.record]), v.valid = true ∧ v.EveryNumber Signed := by
  intro v hv
  refine ⟨h.valid hr v hv, ?_⟩
  obtain ⟨raw, -, hraw⟩ := mem_of_mapM_ok h.read hv
  obtain ⟨x, hx, hstrict⟩ := bind_ok hraw
  exact signed_of_strict (hr.range hx) hstrict

/-- Two accepted files whose manifests have one digest have the same rows. -/
theorem Accepts.unique (hp : host.Prints) (hr : host.ReadsBounded)
    (hinj : Function.Injective host.sha256) (h : Accepts host text c t)
    (h' : Accepts host text' c' t')
    (hsha : c.manifest.index "sha256" = c'.manifest.index "sha256") :
    c.header.sorted = c'.header.sorted ∧ c.rows.map Value.sorted = c'.rows.map Value.sorted := by
  have hdigest : ∀ {text c t}, Accepts host text c t →
      c.manifest.index "sha256" = .str (host.sha256 t.covered) := by
    intro text c t h
    have hagrees := h.agrees
    rw [Tally.agrees, Bool.and_eq_true, Bool.and_eq_true, Bool.and_eq_true, eqv_str] at hagrees
    exact hagrees.1.1.1
  have hcovered : t.covered = t'.covered := by
    rw [hdigest h, hdigest h'] at hsha
    exact hinj (Value.str.inj hsha)
  have hwritten : written host (c.header :: c.rows) = written host (c'.header :: c'.rows) := by
    rw [← h.covered hp, ← h'.covered hp, hcovered]
  have hprefix : ∀ {c : Contents} {v}, v ∈ c.header :: c.rows →
      v ∈ c.header :: (c.rows ++ [c.record]) := by
    intro c v hv
    rw [← List.cons_append]
    exact List.mem_append_left _ hv
  have hmap := written_injective hp (fun v hv => h.signed hr v ( hprefix hv))
    (fun v hv => h'.signed hr v ( hprefix hv)) hwritten
  exact List.cons.inj hmap

theorem length_of_mapM_ok {α β ε : Type} {f : α → Except ε β} {xs : List α} {ys : List β}
    (h : xs.mapM f = .ok ys) : ys.length = xs.length := by
  induction xs generalizing ys with
  | nil =>
    obtain rfl := Except.ok.inj h
    rfl
  | cons x xs ih =>
    obtain ⟨y, zs, -, hzs, rfl⟩ := mapM_cons_ok_iff.1 h
    rw [List.length_cons, List.length_cons, ih hzs]

/-- What is read of an element that is not the last is not the last of what is read. -/
theorem mem_of_mapM_append {α β ε : Type} {f : α → Except ε β} {pre post : List α} {x : α}
    {ys : List β} {y z : β} (h : (pre ++ x :: post).mapM f = .ok (ys ++ [z])) (hx : f x = .ok y)
    (hpost : post ≠ []) : y ∈ ys := by
  induction pre generalizing ys with
  | nil =>
    obtain ⟨y', zs, hy', hzs, heq⟩ := mapM_cons_ok_iff.1 h
    obtain rfl : y' = y := Except.ok.inj (hy'.symm.trans hx)
    cases ys with
    | nil =>
      obtain ⟨-, rfl⟩ := List.cons.inj heq
      exact absurd (List.length_eq_zero_iff.1 (length_of_mapM_ok hzs).symm) hpost
    | cons y'' ys =>
      obtain ⟨rfl, -⟩ := List.cons.inj heq
      exact List.mem_cons_self
  | cons x' pre ih =>
    obtain ⟨y', zs, -, hzs, heq⟩ := mapM_cons_ok_iff.1 h
    cases ys with
    | nil =>
      obtain ⟨-, rfl⟩ := List.cons.inj heq
      have hlength := length_of_mapM_ok hzs
      simp at hlength
    | cons y'' ys =>
      obtain ⟨-, rfl⟩ := List.cons.inj heq
      exact List.mem_cons_of_mem _ (ih hzs)

theorem Accepts.read_tail (h : Accepts host text c t) :
    (fileLines text).tail.mapM (parseStrictJson host) = .ok (c.rows ++ [c.record]) := by
  have hread := h.read
  cases hlines : fileLines text with
  | nil =>
    rw [hlines] at hread
    cases Except.ok.inj hread
  | cons raw raws =>
    rw [hlines] at hread
    obtain ⟨v, vs, -, hvs, heq⟩ := mapM_cons_ok_iff.1 hread
    obtain ⟨-, rfl⟩ := List.cons.inj heq
    exact hvs

/-- Nothing follows the manifest. -/
theorem Accepts.last (h : Accepts host text c t) {pre post : List String} {raw : String} {v : Value}
    (htail : (fileLines text).tail = pre ++ raw :: post) (hv : parseStrictJson host raw = .ok v)
    (hm : v.get "manifest" ≠ none) : post = [] := by
  by_contra hpost
  have hread := h.read_tail
  rw [htail] at hread
  exact hm (h.rows v (mem_of_mapM_append hread hv hpost))

/-- There is a manifest. -/
theorem Accepts.exists_manifest (h : Accepts host text c t) : ∃ raw ∈ (fileLines text).tail,
    ∃ v, parseStrictJson host raw = .ok v ∧ v.get "manifest" ≠ none := by
  obtain ⟨raw, hmem, hraw⟩ := mem_of_mapM_ok h.read_tail (y := c.record) (by simp)
  exact ⟨raw, hmem, c.record, hraw, by simp [h.record]⟩

end unique

/-! ## The rows of a snapshot -/

/-- The text of each row with its table, in the order of the export. -/
def Snapshot.lines (s : Snapshot) : List (String × String) :=
  (tables.map Prod.fst).flatMap fun table => (s.rows table).map (Prod.mk table)

/-- The driver's reading of a row, with its table. -/
def fetchLine (host : Host) (l : String × String) : Except String (String × Value) :=
  (fetch host l.2).map (Prod.mk l.1)

/-- The record of a row. -/
def entry (e : String × Value) : Value := .obj [("table", .str e.1), ("row", e.2)]

def eventId (row : Value) : Int := ((row.index "event_id").asI64).getD 0

def familyOf (row : Value) : Option String := (row.index "family").asStr

def ordinalOf (row : Value) : Int := ((row.index "ordinal").asI64).getD 0

/-- What the queries of `export` and the schema say of a snapshot: its identifiers are UUIDs, rows
are of the session, events are numbered from one and come in the order of their numbers, and so do
the diagnostics of each family. -/
structure Snapshot.Stored (host : Host) (s : Snapshot) : Prop where
  session : (host.parseUuid s.session).isSome = true
  archive : (host.parseUuid s.archive).isSome = true
  revision : I64.inRange s.revision = true
  count : s.lines.length < 2 ^ 63
  owned : ∀ l ∈ s.lines, ∀ row, fetch host l.2 = .ok row →
    row.get "session_id" = some (.str s.session)
  events : ∀ text ∈ s.rows "agent_session_events", ∀ row, fetch host text = .ok row → 0 < eventId row
  ascending : (s.rows "agent_session_events").Pairwise fun a b =>
    ∀ row row', fetch host a = .ok row → fetch host b = .ok row' → eventId row < eventId row'
  diagnostics : ∀ text ∈ s.rows "agent_session_diagnostics", ∀ row, fetch host text = .ok row →
    (familyOf row).isSome = true ∧ 0 < ordinalOf row
  numbered : (s.rows "agent_session_diagnostics").Pairwise fun a b =>
    ∀ row row', fetch host a = .ok row → fetch host b = .ok row' → familyOf row = familyOf row' →
      ordinalOf row < ordinalOf row'

/-- The session was saved, and every row can be read back from the file. -/
structure Snapshot.Exportable (host : Host) (s : Snapshot) : Prop where
  saved : 1 ≤ s.revision
  rows : ∀ l ∈ s.lines, ∃ row, fetch host l.2 = .ok row ∧ row.EveryNumber Signed ∧ row.depth ≤ 126
  families : ∀ text ∈ s.rows "agent_session_diagnostics", ∀ row, fetch host text = .ok row →
    ∃ family ∈ Diagnostics.families, familyOf row = some family

/-- The rows of a table as the driver reads them. -/
def Snapshot.values (host : Host) (s : Snapshot) (table : String) : List Value :=
  (s.rows table).filterMap fun text => (fetch host text).toOption

/-- What is reported are the counts and the watermarks of the rows. -/
structure Snapshot.Reported (host : Host) (s : Snapshot) (r : Value) : Prop where
  counts : (r.index "counts").eqv
    (.obj (tables.map fun t => (t.1, .int (s.rows t.1).length))) = true
  events : (r.index "watermarks").index "events" =
    .int (((s.values host "agent_session_events").map eventId).foldl max 0)
  diagnostics : ∀ family, ((r.index "watermarks").index "diagnostics").get family =
    ((((s.values host "agent_session_diagnostics").filter fun row =>
      familyOf row = some family).map ordinalOf).max?).map .int

/-! ## What the driver reads -/

mutual

/-- What the driver reads is a document. -/
theorem rawValue_valid : ∀ {x : Raw}, x.InRange → x.value.valid = true
  | .null, _ | .bool _, _ | .str _, _ => rfl
  | .f64 f, _ => by
    rw [Raw.value, Value.valid_num]
    trivial
  | .i64 i, h => by
    obtain ⟨hlow, hhigh⟩ : -2 ^ 63 ≤ i ∧ i < 2 ^ 63 := h
    rw [Raw.value, Value.valid_num]
    exact ⟨hlow, by omega⟩
  | .u64 n, h => by
    have hn : n < 2 ^ 64 := h
    rw [Raw.value, Value.valid_num]
    constructor <;> omega
  | .seq items, h => by
    rw [Raw.value, Value.valid_arr]
    exact valueItems_valid h
  | .map fields, h => by
    rw [Raw.value]
    exact valueFields_valid h rfl

theorem valueItems_valid : ∀ {xs : List Raw}, Raw.InRangeItems xs →
    ∀ v ∈ Raw.valueItems xs, v.valid = true
  | [], _ => by simp [Raw.valueItems]
  | _ :: _, h => by
    rw [Raw.valueItems, List.forall_mem_cons]
    exact ⟨rawValue_valid h.1, valueItems_valid h.2⟩

theorem valueFields_valid : ∀ {xs : List (String × Raw)} {out : List (String × Value)},
    Raw.InRangeFields xs → (Value.obj out).valid = true →
    (Value.obj (Raw.valueFields out xs)).valid = true
  | [], _, _, hout => hout
  | (_, _) :: _, _, h, hout => by
    rw [Raw.valueFields]
    exact valueFields_valid h.2 (Value.valid_insertField hout (rawValue_valid h.1))

end

section fetched

variable {host : Host} {s : Snapshot}

theorem fetch_valid (hr : host.ReadsBounded) {text : String} {row : Value}
    (h : fetch host text = .ok row) : row.valid = true := by
  obtain ⟨x, hx, h⟩ := bind_ok h
  rw [← Except.ok.inj h]
  exact rawValue_valid (hr.range hx)

theorem fetchLine_ok_iff {l : String × String} {e : String × Value} :
    fetchLine host l = .ok e ↔ e.1 = l.1 ∧ fetch host l.2 = .ok e.2 := by
  rw [fetchLine]
  cases hrow : fetch host l.2 with
  | error m =>
    constructor
    · rintro ⟨⟩
    · rintro ⟨-, h⟩
      cases h
  | ok row =>
    constructor
    · intro h
      rw [← Except.ok.inj h]
      exact ⟨rfl, rfl⟩
    · rintro ⟨htable, h⟩
      obtain rfl : row = e.2 := Except.ok.inj h
      exact congrArg Except.ok (Prod.ext htable.symm rfl)

theorem mapM_eq_filterMap {α β ε : Type} {f : α → Except ε β} {xs : List α} {ys : List β}
    (h : xs.mapM f = .ok ys) : ys = xs.filterMap fun x => (f x).toOption := by
  induction xs generalizing ys with
  | nil =>
    obtain rfl := Except.ok.inj h
    rfl
  | cons x xs ih =>
    obtain ⟨y, zs, hy, hzs, rfl⟩ := mapM_cons_ok_iff.1 h
    rw [List.filterMap_cons, hy, ih hzs]
    rfl

theorem mapM_ok_of_forall {α β ε : Type} {f : α → Except ε β} {xs : List α}
    (h : ∀ x ∈ xs, ∃ y, f x = .ok y) : ∃ ys, xs.mapM f = .ok ys := by
  induction xs with
  | nil => exact ⟨[], rfl⟩
  | cons x xs ih =>
    obtain ⟨⟨y, hy⟩, hxs⟩ := List.forall_mem_cons.1 h
    obtain ⟨ys, hys⟩ := ih hxs
    exact ⟨y :: ys, mapM_cons_ok_iff.2 ⟨y, ys, hy, hys, rfl⟩⟩

/-- The lines of one table. -/
theorem filter_lines {table : String} (h : table ∈ tables.map Prod.fst) :
    s.lines.filter (fun l => l.1 = table) = (s.rows table).map (Prod.mk table) := by
  have hn := tables_nodup
  rw [Snapshot.lines]
  generalize tables.map Prod.fst = ts at h hn
  have hself : ∀ t, ((s.rows t).map (Prod.mk t)).filter (fun l => l.1 = table) =
      if t = table then (s.rows t).map (Prod.mk t) else [] := by
    intro t
    split_ifs with ht
    · exact List.filter_eq_self.2 (by simp [ht])
    · exact List.filter_eq_nil_iff.2 (by simp [ht])
  have hnone : ∀ {ts : List String}, table ∉ ts →
      (ts.flatMap fun t => (s.rows t).map (Prod.mk t)).filter (fun l => l.1 = table) = [] := by
    intro ts hts
    refine List.filter_eq_nil_iff.2 fun l hl => ?_
    obtain ⟨t, ht, hl⟩ := List.mem_flatMap.1 hl
    obtain ⟨text, -, rfl⟩ := List.mem_map.1 hl
    simpa using fun heq : t = table => hts (heq ▸ ht)
  induction ts with
  | nil => cases h
  | cons t ts ih =>
    rw [List.nodup_cons] at hn
    rw [List.flatMap_cons, List.filter_append, hself]
    split_ifs with ht
    · subst ht
      rw [hnone hn.1, List.append_nil]
    · rcases List.mem_cons.1 h with heq | h
      · exact absurd heq.symm ht
      · rw [ih h hn.2, List.nil_append]

theorem mem_lines {table text : String} : (table, text) ∈ s.lines ↔
    table ∈ tables.map Prod.fst ∧ text ∈ s.rows table := by
  rw [Snapshot.lines, List.mem_flatMap]
  constructor
  · rintro ⟨t, ht, h⟩
    obtain ⟨text', htext, heq⟩ := List.mem_map.1 h
    cases heq
    exact ⟨ht, htext⟩
  · rintro ⟨ht, htext⟩
    exact ⟨table, ht, List.mem_map.2 ⟨text, htext, rfl⟩⟩

variable {es : List (String × Value)}

theorem map_fst_entries (h : s.lines.mapM (fetchLine host) = .ok es) :
    es.map Prod.fst = s.lines.map Prod.fst := by
  generalize s.lines = ls at h
  induction ls generalizing es with
  | nil =>
    obtain rfl := Except.ok.inj h
    rfl
  | cons l ls ih =>
    obtain ⟨e, es, he, hes, rfl⟩ := mapM_cons_ok_iff.1 h
    rw [List.map_cons, List.map_cons, ih hes, (fetchLine_ok_iff.1 he).1]

/-- As many as the table has rows. -/
theorem length_filter_entries (h : s.lines.mapM (fetchLine host) = .ok es) {table : String}
    (htable : table ∈ tables.map Prod.fst) :
    (es.filter fun e => e.1 = table).length = (s.rows table).length := by
  have hfst : ∀ {α : Type} (xs : List (String × α)), (xs.filter fun e => e.1 = table).length =
      ((xs.map Prod.fst).filter fun t => t = table).length := by
    intro α xs
    rw [List.filter_map, List.length_map]
    rfl
  rw [hfst, map_fst_entries h, ← hfst, filter_lines htable, List.length_map]

/-- The rows of one table. -/
theorem filter_entries (h : s.lines.mapM (fetchLine host) = .ok es) {table : String}
    (htable : table ∈ tables.map Prod.fst) :
    (es.filter fun e => e.1 = table).map Prod.snd = s.values host table := by
  have hcommute : es.filter (fun e => e.1 = table) =
      (s.lines.filter fun l => l.1 = table).filterMap fun l => (fetchLine host l).toOption := by
    rw [mapM_eq_filterMap h, List.filter_filterMap, List.filterMap_filter]
    refine List.filterMap_congr fun l _ => ?_
    rw [fetchLine]
    cases fetch host l.2 with
    | error m => by_cases hl : l.1 = table <;> simp [hl, Except.map, Except.toOption]
    | ok row => by_cases hl : l.1 = table <;> simp [hl, Except.map, Except.toOption]
  rw [hcommute, filter_lines htable, List.filterMap_map, List.map_filterMap, Snapshot.values]
  refine List.filterMap_congr fun text _ => ?_
  rw [Function.comp_apply, fetchLine]
  cases fetch host text <;> rfl

end fetched

/-! ## Writing and reading row by row -/

section rows

variable {host : Host}

theorem asI64_eq_some {v : Value} {i : Int} :
    v.asI64 = some i ↔ v = .int i ∧ -2 ^ 63 ≤ i ∧ i < 2 ^ 63 := by
  cases v with
  | num n =>
    cases n with
    | int j =>
      rw [Value.asI64, Value.int]
      split_ifs with h
      · constructor
        · rintro ⟨⟩
          exact ⟨rfl, h⟩
        · rintro ⟨heq, -⟩
          cases heq
          rfl
      · constructor
        · rintro ⟨⟩
        · rintro ⟨heq, hrange⟩
          cases heq
          exact absurd hrange h
    | float f => simp [Value.asI64, Value.int]
  | null | bool | str | arr | obj => simp [Value.asI64, Value.int]

/-- A positive number of a row is there. -/
theorem index_of_pos {row : Value} {k : String} (h : 0 < ((row.index k).asI64).getD 0) :
    (row.index k).asI64 = some (((row.index k).asI64).getD 0) ∧
      row.index k = .int (((row.index k).asI64).getD 0) := by
  cases hk : (row.index k).asI64 with
  | none =>
    rw [hk] at h
    exact absurd h (lt_irrefl _)
  | some i => exact ⟨rfl, (asI64_eq_some.1 hk).1⟩

/-- The line of a row. -/
def bytesOf (host : Host) (e : String × Value) : String := pythonEncoded host (entry e) ++ "\n"

def Writing.add (w : Writing) (table bytes : String) : Writing :=
  { w with text := w.text ++ bytes, shares := addShare table bytes w.shares }

theorem exportRow_ok_iff (hp : host.Prints) {e : String × Value} {w w' : Writing} :
    exportRow host e.1 w e.2 = .ok w' ↔
      (e.1 = "agent_session_events" ∧
        w' = Writing.add { w with events := e.2.index "event_id" } e.1 (bytesOf host e)) ∨
      (e.1 = "agent_session_diagnostics" ∧ ∃ family, familyOf e.2 = some family ∧
        w' = Writing.add
          { w with diagnostics := insertField family (e.2.index "ordinal") w.diagnostics } e.1
          (bytesOf host e)) ∨
      (e.1 ≠ "agent_session_events" ∧ e.1 ≠ "agent_session_diagnostics" ∧
        w' = w.add e.1 (bytesOf host e)) := by
  obtain ⟨table, row⟩ := e
  have hline : line host (.obj [("table", .str table), ("row", row)]) =
      .ok (bytesOf host (table, row)) := line_ok hp _
  unfold exportRow
  dsimp only
  by_cases hevents : table = "agent_session_events"
  · have hdiagnostics : table ≠ "agent_session_diagnostics" := by
      rw [hevents]
      decide
    rw [if_pos hevents, if_neg hdiagnostics, hline]
    constructor
    · intro h
      exact .inl ⟨hevents, (Except.ok.inj h).symm⟩
    · rintro (⟨-, rfl⟩ | ⟨h, -⟩ | ⟨h, -⟩)
      · rfl
      · exact absurd h hdiagnostics
      · exact absurd hevents h
  · rw [if_neg hevents]
    by_cases hdiagnostics : table = "agent_session_diagnostics"
    · rw [if_pos hdiagnostics, hline]
      cases hfamily : (row.index "family").asStr with
      | none =>
        constructor
        · rintro ⟨⟩
        · rintro (⟨h, -⟩ | ⟨-, family, h, -⟩ | ⟨-, h, -⟩)
          · exact absurd h hevents
          · exact absurd (hfamily.symm.trans h) (by simp)
          · exact absurd hdiagnostics h
      | some family =>
        constructor
        · intro h
          exact .inr (.inl ⟨hdiagnostics, family, hfamily, (Except.ok.inj h).symm⟩)
        · rintro (⟨h, -⟩ | ⟨-, family', h, rfl⟩ | ⟨-, h, -⟩)
          · exact absurd h hevents
          · obtain rfl : family = family' := Option.some.inj (hfamily.symm.trans h)
            rfl
          · exact absurd hdiagnostics h
    · rw [if_neg hdiagnostics, hline]
      constructor
      · intro h
        exact .inr (.inr ⟨hevents, hdiagnostics, (Except.ok.inj h).symm⟩)
      · rintro (⟨h, -⟩ | ⟨h, -⟩ | ⟨-, -, rfl⟩)
        · exact absurd h hevents
        · exact absurd h hdiagnostics
        · rfl

/-- The reader's state follows the writer's. -/
structure Tracks (w : Writing) (t : Tally) : Prop where
  text : t.covered = w.text
  shares : t.shares = w.shares
  events : w.events = .int t.events
  diagnostics : t.diagnostics = w.diagnostics

/-- The mark of a family. -/
def Tally.markOf (t : Tally) (family : String) : Int :=
  ((lookup family t.diagnostics).bind Value.asI64).getD 0

/-- The row is numbered above the watermark. -/
structure Ahead (t : Tally) (e : String × Value) : Prop where
  events : e.1 = "agent_session_events" → 0 < eventId e.2 ∧ t.events < eventId e.2
  diagnostics : e.1 = "agent_session_diagnostics" → ∃ family ∈ Diagnostics.families,
    familyOf e.2 = some family ∧ 0 < ordinalOf e.2 ∧ t.markOf family < ordinalOf e.2

/-- Rows of one kind in the order of their numbers. -/
structure Ordered (e e' : String × Value) : Prop where
  events : e.1 = "agent_session_events" → e'.1 = "agent_session_events" →
    eventId e.2 < eventId e'.2
  diagnostics : e.1 = "agent_session_diagnostics" → e'.1 = "agent_session_diagnostics" →
    familyOf e.2 = familyOf e'.2 → ordinalOf e.2 < ordinalOf e'.2

theorem markOf_insertField {t : Tally} {family : String} {ordinal : Int}
    (h : -2 ^ 63 ≤ ordinal ∧ ordinal < 2 ^ 63) (family' : String) :
    Tally.markOf { t with diagnostics := insertField family (.int ordinal) t.diagnostics } family' =
      if family = family' then ordinal else t.markOf family' := by
  rw [Tally.markOf]
  dsimp only
  split_ifs with heq
  · subst heq
    rw [lookup_insertField_self, Option.bind_some, asI64_eq_some.2 ⟨rfl, h⟩]
    rfl
  · rw [lookup_insertField_of_ne _ _ _ _ heq]
    rfl

/-- The row of an entry is accepted by the checks before the watermarks. -/
theorem addRow_entry_iff (hp : host.Prints) {header : Value} {id : String} {t t' : Tally}
    {e : String × Value} (hid : header.get "session_id" = some (.str id))
    (htable : e.1 ∈ tables.map Prod.fst) (hrow : e.2.get "session_id" = some (.str id)) :
    addRow host header t (entry e) = .ok t' ↔
      mark e.1 e.2 (t.add e.1 (bytesOf host e)) = .ok t' := by
  rw [addRow_ok_iff]
  constructor
  · rintro ⟨table, bytes, hget, -, -, -, hbytes, hmark⟩
    obtain rfl : e.1 = table := Value.str.inj (Option.some.inj hget)
    rw [line_ok hp] at hbytes
    rw [bytesOf, Except.ok.inj hbytes]
    exact hmark
  · intro hmark
    refine ⟨e.1, bytesOf host e, rfl, htable, ?_, rfl, line_ok hp _, hmark⟩
    show (e.2.index "session_id").eqv (header.index "session_id") = true
    rw [index_eq_str.2 hid, eqv_str]
    exact index_eq_str.2 hrow

/-- A row is written and read, and the states stay together. -/
theorem tracks_step (hp : host.Prints) {header : Value} {id : String} {w : Writing} {t : Tally}
    {e : String × Value} (h : Tracks w t) (hid : header.get "session_id" = some (.str id))
    (htable : e.1 ∈ tables.map Prod.fst) (hrow : e.2.get "session_id" = some (.str id))
    (hahead : Ahead t e) : ∃ w' t', exportRow host e.1 w e.2 = .ok w' ∧
      addRow host header t (entry e) = .ok t' ∧ Tracks w' t' ∧
      ∀ e', Ordered e e' → Ahead t e' → Ahead t' e' := by
  have hadd : Tracks (w.add e.1 (bytesOf host e)) (t.add e.1 (bytesOf host e)) :=
    ⟨congrArg (· ++ _) h.text, congrArg (addShare _ _) h.shares, h.events, h.diagnostics⟩
  by_cases hevents : e.1 = "agent_session_events"
  · obtain ⟨hpos, habove⟩ := hahead.events hevents
    obtain ⟨hsome, hindex⟩ := index_of_pos hpos
    refine ⟨_, { t.add e.1 (bytesOf host e) with events := max t.events (eventId e.2) },
      (exportRow_ok_iff hp).2 (.inl ⟨hevents, rfl⟩),
      (addRow_entry_iff hp hid htable hrow).2 (mark_ok_iff.2 (.inl ⟨hevents, _, hsome, rfl⟩)), ?_, ?_⟩
    · refine ⟨hadd.text, hadd.shares, ?_, hadd.diagnostics⟩
      show e.2.index "event_id" = .int (max t.events (eventId e.2))
      rw [hindex, max_eq_right habove.le]
      rfl
    · intro e' hordered hahead'
      refine ⟨fun he' => ⟨(hahead'.events he').1, ?_⟩, hahead'.diagnostics⟩
      exact max_lt (hahead'.events he').2 (hordered.events hevents he')
  by_cases hdiagnostics : e.1 = "agent_session_diagnostics"
  · obtain ⟨family, hmem, hfamily, hpos, habove⟩ := hahead.diagnostics hdiagnostics
    obtain ⟨hsome, hindex⟩ := index_of_pos hpos
    have hrange : -2 ^ 63 ≤ ordinalOf e.2 ∧ ordinalOf e.2 < 2 ^ 63 := (asI64_eq_some.1 hsome).2
    have hmax : max (t.markOf family) (ordinalOf e.2) = ordinalOf e.2 := max_eq_right habove.le
    have hmark : mark e.1 e.2 (t.add e.1 (bytesOf host e)) = .ok { t.add e.1 (bytesOf host e) with
        diagnostics := insertField family (.int (ordinalOf e.2)) t.diagnostics } := by
      refine mark_ok_iff.2 (.inr (.inl ⟨hdiagnostics, family, _, hfamily, hmem, hsome, ?_⟩))
      rw [← hmax]
      rfl
    refine ⟨_, _, (exportRow_ok_iff hp).2 (.inr (.inl ⟨hdiagnostics, family, hfamily, rfl⟩)),
      (addRow_entry_iff hp hid htable hrow).2 hmark, ?_, ?_⟩
    · refine ⟨hadd.text, hadd.shares, hadd.events, ?_⟩
      show insertField family (.int (ordinalOf e.2)) t.diagnostics =
        insertField family (e.2.index "ordinal") w.diagnostics
      rw [hindex, h.diagnostics]
      rfl
    · intro e' hordered hahead'
      refine ⟨hahead'.events, fun he' => ?_⟩
      obtain ⟨family', hmem', hfamily', hpos', habove'⟩ := hahead'.diagnostics he'
      refine ⟨family', hmem', hfamily', hpos', ?_⟩
      have hmark' := @markOf_insertField (t.add e.1 (bytesOf host e)) family _ hrange family'
      refine lt_of_eq_of_lt hmark' ?_
      split_ifs with heq
      · subst heq
        exact hordered.diagnostics hdiagnostics he' (hfamily.trans hfamily'.symm)
      · exact habove'
  · exact ⟨_, _, (exportRow_ok_iff hp).2 (.inr (.inr ⟨hevents, hdiagnostics, rfl⟩)),
      (addRow_entry_iff hp hid htable hrow).2 (mark_ok_iff.2 (.inr (.inr ⟨hevents, hdiagnostics, rfl⟩))),
      hadd, fun e' _ hahead' => ⟨hahead'.events, hahead'.diagnostics⟩⟩

theorem tracks_run (hp : host.Prints) {header : Value} {id : String} {es : List (String × Value)}
    {w : Writing} {t : Tally} (h : Tracks w t) (hid : header.get "session_id" = some (.str id))
    (htable : ∀ e ∈ es, e.1 ∈ tables.map Prod.fst)
    (hrow : ∀ e ∈ es, e.2.get "session_id" = some (.str id)) (hahead : ∀ e ∈ es, Ahead t e)
    (hordered : es.Pairwise Ordered) : ∃ w' t',
      es.foldlM (fun w e => exportRow host e.1 w e.2) w = .ok w' ∧
        (es.map entry).foldlM (addRow host header) t = .ok t' ∧ Tracks w' t' := by
  induction es generalizing w t with
  | nil => exact ⟨w, t, rfl, rfl, h⟩
  | cons e es ih =>
    obtain ⟨htable, htables⟩ := List.forall_mem_cons.1 htable
    obtain ⟨hrow, hrows⟩ := List.forall_mem_cons.1 hrow
    obtain ⟨hfirst, hrest⟩ := List.forall_mem_cons.1 hahead
    obtain ⟨hbefore, hordered⟩ := List.pairwise_cons.1 hordered
    obtain ⟨w₁, t₁, hw₁, ht₁, h₁, hkeep⟩ := tracks_step hp h hid htable hrow hfirst
    obtain ⟨w', t', hw', ht', h'⟩ := ih h₁ htables hrows
      (fun e' he' => hkeep e' (hbefore e' he') (hrest e' he')) hordered
    refine ⟨w', t', ?_, ?_, h'⟩
    · rw [List.foldlM_cons, hw₁]
      exact hw'
    · rw [List.map_cons, List.foldlM_cons, ht₁]
      exact ht'

theorem mapM_fetchLine_iff {table : String} {texts : List String} {es : List (String × Value)} :
    (texts.map (Prod.mk table)).mapM (fetchLine host) = .ok es ↔
      ∃ rows, texts.mapM (fetch host) = .ok rows ∧ es = rows.map (Prod.mk table) := by
  induction texts generalizing es with
  | nil =>
    constructor
    · intro h
      obtain rfl := Except.ok.inj h
      exact ⟨[], rfl, rfl⟩
    · rintro ⟨rows, h, rfl⟩
      obtain rfl := Except.ok.inj h
      rfl
  | cons text texts ih =>
    rw [List.map_cons, mapM_cons_ok_iff]
    constructor
    · rintro ⟨e, es, he, hes, rfl⟩
      obtain ⟨rows, hrows, rfl⟩ := ih.1 hes
      rw [fetchLine] at he
      cases hrow : fetch host text with
      | error m =>
        rw [hrow] at he
        cases he
      | ok row =>
        rw [hrow] at he
        obtain rfl := Except.ok.inj he
        exact ⟨row :: rows, mapM_cons_ok_iff.2 ⟨row, rows, hrow, hrows, rfl⟩, rfl⟩
    · rintro ⟨_, h, rfl⟩
      obtain ⟨row, rows, hrow, hrows, rfl⟩ := mapM_cons_ok_iff.1 h
      refine ⟨(table, row), rows.map (Prod.mk table), ?_, ih.2 ⟨rows, hrows, rfl⟩, rfl⟩
      rw [fetchLine, hrow]
      rfl

/-- The tables one after the other are the lines one after the other. -/
theorem foldlM_exportTable_iff {s : Snapshot} {ts : List String} {w w' : Writing} :
    ts.foldlM (exportTable host s) w = .ok w' ↔
      ∃ es, (ts.flatMap fun table => (s.rows table).map (Prod.mk table)).mapM (fetchLine host) =
          .ok es ∧ es.foldlM (fun w e => exportRow host e.1 w e.2) w = .ok w' := by
  induction ts generalizing w with
  | nil =>
    constructor
    · intro h
      exact ⟨[], rfl, h⟩
    · rintro ⟨es, hes, h⟩
      obtain rfl := Except.ok.inj hes
      exact h
  | cons table ts ih =>
    rw [List.foldlM_cons, List.flatMap_cons, List.mapM_append, bind_ok_iff]
    constructor
    · rintro ⟨w₁, htable, h⟩
      obtain ⟨es, hes, h⟩ := ih.1 h
      obtain ⟨rows, hrows, htable⟩ := bind_ok htable
      have hfirst : ((s.rows table).map (Prod.mk table)).mapM (fetchLine host) =
          .ok (rows.map (Prod.mk table)) := mapM_fetchLine_iff.2 ⟨rows, check_ok_iff.1 hrows, rfl⟩
      refine ⟨rows.map (Prod.mk table) ++ es, ?_, ?_⟩
      · rw [hfirst, hes]
        rfl
      · rw [List.foldlM_append, List.foldlM_map, htable]
        exact h
    · rintro ⟨es, hes, h⟩
      obtain ⟨first, hfirst, hes⟩ := bind_ok hes
      obtain ⟨rest, hrest, hes⟩ := bind_ok hes
      obtain rfl := Except.ok.inj hes
      obtain ⟨rows, hrows, rfl⟩ := mapM_fetchLine_iff.1 hfirst
      rw [List.foldlM_append, List.foldlM_map] at h
      obtain ⟨w₁, htable, h⟩ := bind_ok h
      refine ⟨w₁, ?_, ih.2 ⟨rest, hrest, h⟩⟩
      exact bind_ok_iff.2 ⟨rows, check_ok_iff.2 hrows, htable⟩

theorem exportFile_ok_iff (hp : host.Prints) {s : Snapshot} {text : String} :
    exportFile host s = .ok text ↔ ∃ es w, s.lines.mapM (fetchLine host) = .ok es ∧
      es.foldlM (fun w e => exportRow host e.1 w e.2)
        { text := pythonEncoded host s.header ++ "\n" } = .ok w ∧
      text = w.text ++ (pythonEncoded host (.obj [("manifest", w.manifest host)]) ++ "\n") := by
  unfold exportFile
  rw [line_ok hp]
  constructor
  · intro h
    obtain ⟨first, hfirst, h⟩ := bind_ok h
    obtain ⟨w, hw, h⟩ := bind_ok h
    rw [line_ok hp] at h
    obtain ⟨es, hes, hw⟩ := foldlM_exportTable_iff.1 hw
    rw [← Except.ok.inj hfirst] at hw
    exact ⟨es, w, hes, hw, (Except.ok.inj h).symm⟩
  · rintro ⟨es, w, hes, hw, rfl⟩
    refine bind_ok_iff.2 ⟨_, rfl, bind_ok_iff.2 ⟨w, foldlM_exportTable_iff.2 ⟨es, hes, hw⟩, ?_⟩⟩
    rw [line_ok hp]
    rfl

/-! ## What was written -/

theorem exportRow_add (hp : host.Prints) {e : String × Value} {w w' : Writing}
    (h : exportRow host e.1 w e.2 = .ok w') :
    w'.text = w.text ++ bytesOf host e ∧ w'.shares = addShare e.1 (bytesOf host e) w.shares := by
  rcases (exportRow_ok_iff hp).1 h with ⟨-, rfl⟩ | ⟨-, family, -, rfl⟩ | ⟨-, -, rfl⟩ <;>
    exact ⟨rfl, rfl⟩

theorem addShare_counts (table bytes : String) (shares : List Share) :
    (addShare table bytes shares).map (fun s => (s.table, s.count)) =
      shares.map fun s => (s.table, s.count + if s.table = table then 1 else 0) := by
  rw [addShare, List.map_map]
  refine List.map_congr_left fun s _ => ?_
  rw [Function.comp_apply]
  split <;> simp

/-- The lines of the rows are behind what was there, and every table counts its rows. -/
theorem foldlM_exportRow_add (hp : host.Prints) {es : List (String × Value)} {w w' : Writing}
    (h : es.foldlM (fun w e => exportRow host e.1 w e.2) w = .ok w') :
    w'.text.toList = w.text.toList ++ written host (es.map entry) ∧
      w'.shares.map (fun s => (s.table, s.count)) =
        w.shares.map fun s =>
          (s.table, s.count + ((es.filter fun e => e.1 = s.table).length : Int)) := by
  induction es generalizing w with
  | nil =>
    obtain rfl := Except.ok.inj h
    exact ⟨(List.append_nil _).symm, by simp⟩
  | cons e es ih =>
    rw [List.foldlM_cons] at h
    obtain ⟨w₁, hw₁, h⟩ := bind_ok h
    obtain ⟨htext, hshares⟩ := exportRow_add hp hw₁
    obtain ⟨htexts, hcounts⟩ := ih h
    constructor
    · rw [htexts, htext, List.map_cons, written_cons, bytesOf, String.toList_append,
        List.append_assoc]
    · have hmap : ∀ shares : List Share, shares.map (fun s => (s.table, s.count +
            ((es.filter fun e => e.1 = s.table).length : Int))) =
          (shares.map fun s => (s.table, s.count)).map fun p => (p.1, p.2 +
            ((es.filter fun e => e.1 = p.1).length : Int)) := by
        intro shares
        rw [List.map_map]
        rfl
      rw [hcounts, hmap, hshares, addShare_counts, List.map_map]
      refine List.map_congr_left fun s _ => ?_
      simp only [Function.comp_apply, List.filter_cons, decide_eq_true_eq, eq_comm (a := e.1)]
      split
      · simp
        omega
      · simp

/-- What is in the watermarks is a document. -/
structure Sound (w : Writing) : Prop where
  events : w.events.valid = true
  diagnostics : (Value.obj w.diagnostics).valid = true

theorem sound_run (hp : host.Prints) {es : List (String × Value)} {w w' : Writing} (h : Sound w)
    (hes : ∀ e ∈ es, e.2.valid = true)
    (hrun : es.foldlM (fun w e => exportRow host e.1 w e.2) w = .ok w') : Sound w' := by
  induction es generalizing w with
  | nil =>
    obtain rfl := Except.ok.inj hrun
    exact h
  | cons e es ih =>
    rw [List.foldlM_cons] at hrun
    obtain ⟨w₁, hw₁, hrun⟩ := bind_ok hrun
    obtain ⟨he, hes⟩ := List.forall_mem_cons.1 hes
    refine ih ?_ hes hrun
    rcases (exportRow_ok_iff hp).1 hw₁ with ⟨-, rfl⟩ | ⟨-, family, -, rfl⟩ | ⟨-, -, rfl⟩
    · exact ⟨Value.index_valid he _, h.diagnostics⟩
    · exact ⟨h.events, Value.valid_insertField h.diagnostics (Value.index_valid he _)⟩
    · exact ⟨h.events, h.diagnostics⟩

/-! ## What was read -/

theorem mark_of_addRow {header : Value} {t t' : Tally} {e : String × Value}
    (h : addRow host header t (entry e) = .ok t') :
    ∃ bytes, mark e.1 e.2 (t.add e.1 bytes) = .ok t' := by
  obtain ⟨table, bytes, htable, -, -, -, -, hmark⟩ := addRow_ok_iff.1 h
  obtain rfl : e.1 = table := Value.str.inj (Option.some.inj htable)
  exact ⟨bytes, hmark⟩

/-- The rows of a table. -/
def rowsIn (table : String) (es : List (String × Value)) : List Value :=
  (es.filter fun e => e.1 = table).map Prod.snd

theorem rowsIn_cons_self (table : String) (row : Value) (es : List (String × Value)) :
    rowsIn table ((table, row) :: es) = row :: rowsIn table es := by
  simp [rowsIn]

theorem rowsIn_cons_of_ne {table : String} {e : String × Value} (h : e.1 ≠ table)
    (es : List (String × Value)) : rowsIn table (e :: es) = rowsIn table es := by
  simp [rowsIn, h]

/-- The watermark of the events is their greatest number. -/
theorem foldlM_addRow_events {header : Value} {es : List (String × Value)} {t t' : Tally}
    (h : (es.map entry).foldlM (addRow host header) t = .ok t') :
    t'.events = ((rowsIn "agent_session_events" es).map eventId).foldl max t.events := by
  induction es generalizing t with
  | nil =>
    obtain rfl := Except.ok.inj h
    rfl
  | cons e es ih =>
    rw [List.map_cons, List.foldlM_cons] at h
    obtain ⟨t₁, hrow, h⟩ := bind_ok h
    obtain ⟨bytes, hmark⟩ := mark_of_addRow hrow
    obtain ⟨table, row⟩ := e
    rcases mark_ok_iff.1 hmark with ⟨hevents, id, hid, rfl⟩ |
      ⟨hdiagnostics, family, ordinal, -, -, -, rfl⟩ | ⟨hevents, -, rfl⟩
    · obtain rfl : table = "agent_session_events" := hevents
      have hvalue : eventId row = id := by
        rw [eventId, hid]
        rfl
      rw [ih h, rowsIn_cons_self, List.map_cons, List.foldl_cons, hvalue]
      rfl
    · obtain rfl : table = "agent_session_diagnostics" := hdiagnostics
      rw [ih h, rowsIn_cons_of_ne (by simp)]
      rfl
    · rw [ih h, rowsIn_cons_of_ne hevents]
      rfl

/-- A mark raised by a number. -/
def raise (m : Option Int) (ordinal : Int) : Option Int := some (max (m.getD 0) ordinal)

theorem foldl_raise_none {ordinals : List Int} (h : ∀ o ∈ ordinals, 0 < o) :
    ordinals.foldl raise none = ordinals.max? := by
  have hsome : ∀ (os : List Int) (a : Int), os.foldl raise (some a) = some (os.foldl max a) := by
    intro os
    induction os with
    | nil => exact fun _ => rfl
    | cons o os ih => exact fun a => ih (max a o)
  cases ordinals with
  | nil => rfl
  | cons o os =>
    have hpos := h o List.mem_cons_self
    have hmax : max 0 o = o := max_eq_right hpos.le
    rw [List.foldl_cons, raise, Option.getD_none, hmax, hsome, List.max?_cons']

/-- The mark of a family in a tally, if it is an `i64`. -/
def Marked (t : Tally) (family : String) (m : Option Int) : Prop :=
  lookup family t.diagnostics = m.map .int ∧ ∀ i, m = some i → -2 ^ 63 ≤ i ∧ i < 2 ^ 63

/-- The watermark of a family is its greatest number. -/
theorem foldlM_addRow_diagnostics {header : Value} {family : String} {es : List (String × Value)}
    {t t' : Tally} {m : Option Int} (hm : Marked t family m)
    (h : (es.map entry).foldlM (addRow host header) t = .ok t') :
    Marked t' family ((((rowsIn "agent_session_diagnostics" es).filter fun row =>
      familyOf row = some family).map ordinalOf).foldl raise m) := by
  induction es generalizing t m with
  | nil =>
    obtain rfl := Except.ok.inj h
    exact hm
  | cons e es ih =>
    rw [List.map_cons, List.foldlM_cons] at h
    obtain ⟨t₁, hrow, h⟩ := bind_ok h
    obtain ⟨bytes, hmark⟩ := mark_of_addRow hrow
    obtain ⟨table, row⟩ := e
    rcases mark_ok_iff.1 hmark with ⟨hevents, id, hid, rfl⟩ |
      ⟨hdiagnostics, family', ordinal, hfamily, -, hordinal, rfl⟩ | ⟨-, hdiagnostics, rfl⟩
    · obtain rfl : table = "agent_session_events" := hevents
      rw [rowsIn_cons_of_ne (by simp)]
      refine ih ?_ h
      exact ⟨hm.1, hm.2⟩
    · obtain rfl : table = "agent_session_diagnostics" := hdiagnostics
      have hvalue : ordinalOf row = ordinal := by
        rw [ordinalOf, hordinal]
        rfl
      have hfamily : familyOf row = some family' := hfamily
      have hrange := (asI64_eq_some.1 hordinal).2
      rw [rowsIn_cons_self, List.filter_cons]
      by_cases heq : family' = family
      · subst heq
        rw [if_pos (decide_eq_true hfamily), List.map_cons, List.foldl_cons, hvalue]
        refine ih ⟨?_, ?_⟩ h
        · have hlookup : ((lookup family' t.diagnostics).bind Value.asI64).getD 0 = m.getD 0 := by
            rw [hm.1]
            cases m with
            | none => rfl
            | some i =>
              have hi : (Value.int i).asI64 = some i := asI64_eq_some.2 ⟨rfl, hm.2 i rfl⟩
              rw [Option.map_some, Option.bind_some, hi]
          refine (lookup_insertField_self _ _ _).trans ?_
          show some (Value.int (max (((lookup family' t.diagnostics).bind Value.asI64).getD 0) _)) = _
          rw [hlookup]
          rfl
        · intro i hi
          obtain rfl := Option.some.inj hi
          cases m with
          | none => simp only [Option.getD_none]; omega
          | some j =>
            have hj := hm.2 j rfl
            simp only [Option.getD_some]
            omega
      · have hother : familyOf row ≠ some family := by
          intro hsome
          exact heq (Option.some.inj (hfamily.symm.trans hsome))
        rw [if_neg (by simpa using hother)]
        exact ih ⟨(lookup_insertField_of_ne _ _ _ _ heq).trans hm.1, hm.2⟩ h
    · rw [rowsIn_cons_of_ne hdiagnostics]
      refine ih ?_ h
      exact ⟨hm.1, hm.2⟩

end rows

/-! ## The exported file -/

section exported

variable {host : Host} {s : Snapshot} {es : List (String × Value)}

theorem line_of_mem (h : s.lines.mapM (fetchLine host) = .ok es) {e : String × Value}
    (he : e ∈ es) : ∃ text, (e.1, text) ∈ s.lines ∧ fetch host text = .ok e.2 := by
  obtain ⟨⟨table, text⟩, hmem, hline⟩ := mem_of_mapM_ok h he
  obtain ⟨rfl, hfetch⟩ := fetchLine_ok_iff.1 hline
  exact ⟨text, hmem, hfetch⟩

theorem pairwise_lines (hs : s.Stored host) : s.lines.Pairwise fun l l' =>
    ∀ row row', fetch host l.2 = .ok row → fetch host l'.2 = .ok row' →
      Ordered (l.1, row) (l'.1, row') := by
  rw [Snapshot.lines, List.pairwise_flatMap]
  constructor
  · intro table _
    rw [List.pairwise_map]
    by_cases hevents : table = "agent_session_events"
    · subst hevents
      refine hs.ascending.imp fun h row row' hrow hrow' => ⟨fun _ _ => h row row' hrow hrow', ?_⟩
      intro heq
      exact absurd heq (by simp)
    · by_cases hdiagnostics : table = "agent_session_diagnostics"
      · subst hdiagnostics
        refine hs.numbered.imp fun h row row' hrow hrow' => ⟨?_, fun _ _ => h row row' hrow hrow'⟩
        intro heq
        exact absurd heq (by simp)
      · exact List.pairwise_of_forall fun _ _ row row' _ _ =>
          ⟨fun heq => absurd heq hevents, fun heq => absurd heq hdiagnostics⟩
  · refine tables_nodup.imp fun {table table'} hne l hl l' hl' row row' _ _ => ?_
    obtain ⟨text, -, rfl⟩ := List.mem_map.1 hl
    obtain ⟨text', -, rfl⟩ := List.mem_map.1 hl'
    exact ⟨fun h h' => absurd (h.trans h'.symm) hne, fun h h' => absurd (h.trans h'.symm) hne⟩

theorem pairwise_entries (hs : s.Stored host) (h : s.lines.mapM (fetchLine host) = .ok es) :
    es.Pairwise Ordered := by
  rw [mapM_eq_filterMap h, List.pairwise_filterMap]
  refine (pairwise_lines hs).imp fun {l l'} hordered e he e' he' => ?_
  have hok : ∀ {l : String × String} {e : String × Value}, e ∈ (fetchLine host l).toOption →
      e.1 = l.1 ∧ fetch host l.2 = .ok e.2 := by
    intro l e he
    refine fetchLine_ok_iff.1 ?_
    cases hline : fetchLine host l with
    | error m =>
      rw [hline] at he
      cases he
    | ok e' =>
      rw [hline] at he
      rw [Option.some.inj he]
  obtain ⟨htable, hrow⟩ := hok he
  obtain ⟨htable', hrow'⟩ := hok he'
  have hpair := hordered e.2 e'.2 hrow hrow'
  rwa [← htable, ← htable'] at hpair

theorem ahead_entries (hs : s.Stored host) (hx : s.Exportable host)
    (h : s.lines.mapM (fetchLine host) = .ok es) (covered : String) :
    ∀ e ∈ es, Ahead { covered } e := by
  intro e he
  obtain ⟨text, hmem, hrow⟩ := line_of_mem h he
  obtain ⟨-, htext⟩ := mem_lines.1 hmem
  refine ⟨fun hevents => ?_, fun hdiagnostics => ?_⟩
  · rw [hevents] at htext
    exact ⟨hs.events text htext e.2 hrow, hs.events text htext e.2 hrow⟩
  · rw [hdiagnostics] at htext
    obtain ⟨family, hknown, hfamily⟩ := hx.families text htext e.2 hrow
    have hpos := (hs.diagnostics text htext e.2 hrow).2
    exact ⟨family, hknown, hfamily, hpos, hpos⟩

theorem portable_entry {e : String × Value} (h : Portable 126 e.2) : Portable 127 (entry e) := by
  refine Identity.portable_obj.2 ⟨by simp, ?_⟩
  simp only [List.forall_mem_cons]
  exact ⟨Identity.portable_str _ _, h, by simp⟩

theorem portable_of_entry {e : String × Value} (h : Portable 127 (entry e)) : Portable 126 e.2 :=
  (Identity.portable_obj.1 h).2 ("row", e.2) (by simp)

theorem portable_header (h : I64.inRange s.revision = true) : Portable 1 s.header := by
  refine Identity.portable_obj.2 ⟨by simp, ?_⟩
  simp only [List.forall_mem_cons]
  exact ⟨Identity.portable_str _ _, Identity.portable_str _ _, Identity.portable_str _ _,
    Identity.portable_int.2 h, by simp⟩

/-- The text of the exported file. -/
theorem exportFile_toList (hp : host.Prints) {w : Writing}
    (hw : es.foldlM (fun w e => exportRow host e.1 w e.2)
      { text := pythonEncoded host s.header ++ "\n" } = .ok w) :
    (w.text ++ (pythonEncoded host (.obj [("manifest", w.manifest host)]) ++ "\n")).toList =
      written host (s.header :: (es.map entry ++ [.obj [("manifest", w.manifest host)]])) := by
  rw [String.toList_append, (foldlM_exportRow_add hp hw).1, written_cons, written_append, written_cons,
    List.append_assoc, written_nil, List.append_nil]

/-- Every table counts its rows. -/
theorem shares_counts (hp : host.Prints) {w : Writing} {first : String}
    (h : s.lines.mapM (fetchLine host) = .ok es)
    (hw : es.foldlM (fun w e => exportRow host e.1 w e.2) { text := first } = .ok w) :
    w.shares.map (fun sh => (sh.table, sh.count)) =
      tables.map fun t => (t.1, ((s.rows t.1).length : Int)) := by
  rw [(foldlM_exportRow_add hp hw).2]
  show (tables.map fun t => { table := t.1 : Share }).map _ = _
  rw [List.map_map]
  refine List.map_congr_left fun t ht => ?_
  have hlength := length_filter_entries h (List.mem_map.2 ⟨t, ht, rfl⟩)
  simp [hlength]

theorem length_rows_le {table : String} (h : table ∈ tables.map Prod.fst) :
    (s.rows table).length ≤ s.lines.length := by
  have hfilter := List.length_filter_le (fun l => decide (l.1 = table)) s.lines
  rw [filter_lines h, List.length_map] at hfilter
  exact hfilter

/-- The counts are small enough to be read back. -/
theorem counts_inRange (hp : host.Prints) (hs : s.Stored host) {w : Writing} {first : String}
    (h : s.lines.mapM (fetchLine host) = .ok es)
    (hw : es.foldlM (fun w e => exportRow host e.1 w e.2) { text := first } = .ok w) :
    w.shares.map Share.table = tables.map Prod.fst ∧
      ∀ sh ∈ w.shares, I64.inRange sh.count = true := by
  have hcounts := shares_counts hp h hw
  constructor
  · have hfst := congrArg (List.map Prod.fst) hcounts
    rw [List.map_map, List.map_map] at hfst
    exact hfst
  · intro sh hsh
    have hmem : (sh.table, sh.count) ∈ tables.map fun t => (t.1, ((s.rows t.1).length : Int)) := by
      rw [← hcounts]
      exact List.mem_map.2 ⟨sh, hsh, rfl⟩
    obtain ⟨t, ht, heq⟩ := List.mem_map.1 hmem
    have hlength := length_rows_le (s := s) (List.mem_map.2 ⟨t, ht, rfl⟩ : t.1 ∈ tables.map Prod.fst)
    have hbound := hs.count
    obtain ⟨-, hcount⟩ := Prod.mk.inj heq
    simp only [I64.inRange, Bool.and_eq_true, decide_eq_true_eq]
    omega

theorem eventId_lt (row : Value) : eventId row < 2 ^ 63 := by
  rw [eventId]
  cases h : (row.index "event_id").asI64 with
  | none => simp
  | some i => exact (asI64_eq_some.1 h).2.2

theorem foldl_max_lt {is : List Int} {i bound : Int} (hi : i < bound) (h : ∀ j ∈ is, j < bound) :
    is.foldl max i < bound := by
  induction is generalizing i with
  | nil => exact hi
  | cons j is ih =>
    obtain ⟨hj, his⟩ := List.forall_mem_cons.1 h
    exact ih (max_lt hi hj) his

theorem le_foldl_max (is : List Int) (i : Int) : i ≤ is.foldl max i := by
  induction is generalizing i with
  | nil => exact le_rfl
  | cons j is ih => exact (le_max_left i j).trans (ih _)

theorem marked_start (covered family : String) : Marked { covered } family none := by
  refine ⟨rfl, ?_⟩
  rintro i ⟨⟩

/-- The watermarks of the file can be read back. -/
theorem portable_tally {w : Writing} {t : Tally} {first : String} {header : Value}
    (hw : Sound w) (htracks : Tracks w t)
    (ht : (es.map entry).foldlM (addRow host header) { covered := first } = .ok t) :
    Portable 2 t.watermarks := by
  have hdiagnostics : (Value.obj t.diagnostics).valid = true := htracks.diagnostics ▸ hw.diagnostics
  obtain ⟨hnodup, -⟩ := Value.valid_obj.1 hdiagnostics
  refine portable_watermarks ?_ hnodup fun f hf => ?_
  · rw [foldlM_addRow_events ht]
    have hlow := le_foldl_max ((rowsIn "agent_session_events" es).map eventId) 0
    have hhigh : ((rowsIn "agent_session_events" es).map eventId).foldl max 0 < 2 ^ 63 := by
      refine foldl_max_lt (by norm_num) fun i hi => ?_
      obtain ⟨row, -, rfl⟩ := List.mem_map.1 hi
      exact eventId_lt row
    simp only [I64.inRange, Bool.and_eq_true, decide_eq_true_eq]
    exact ⟨le_trans (by norm_num) hlow, hhigh⟩
  · obtain ⟨hlookup, hrange⟩ := foldlM_addRow_diagnostics (marked_start first f.1) ht
    rw [lookup_of_mem hnodup hf] at hlookup
    generalize List.foldl raise none _ = m at hlookup hrange
    cases m with
    | none => cases hlookup
    | some i =>
      rw [Option.some.inj hlookup]
      refine Identity.portable_int.2 ?_
      simp only [I64.inRange, Bool.and_eq_true, decide_eq_true_eq]
      exact hrange i rfl

theorem manifest_of_tracks {w : Writing} {t : Tally} (h : Tracks w t) :
    w.manifest host = .obj (t.fields host ++ []) := by
  rw [List.append_nil, Writing.manifest, Tally.fields, Writing.watermarks, Tally.watermarks, h.text,
    h.shares, h.events, h.diagnostics]

/-- What the manifest says is reported. -/
theorem Accepts.index_report (hr : host.ReadsBounded) {text p k : String} {c : Contents} {t : Tally}
    {fields : List (String × Value)} {v : Value} (h : Accepts host text c t)
    (hm : c.manifest = .obj fields) (hk : k ≠ "archive_path") (hv : c.manifest.get k = some v) :
    (report c.header fields p).index k = v := by
  obtain ⟨out, hout⟩ := h.header_obj
  rw [hm, Value.get_obj] at hv
  rw [hout, Value.index, get_report (h.manifest_nodup hr hm) hk, hv]
  rfl

theorem checkHeader_snapshot (hs : s.Stored host) (hsaved : 1 ≤ s.revision) :
    checkHeader host s.header = .ok () := by
  have hrange := hs.revision
  simp only [I64.inRange, Bool.and_eq_true, decide_eq_true_eq] at hrange
  have hrevision : (s.header.index "snapshot_revision").asI64 = some s.revision :=
    asI64_eq_some.2 ⟨rfl, hrange⟩
  refine checkHeader_ok_iff.2 ⟨rfl, rfl, ?_, ⟨_, rfl, hs.archive⟩, _, rfl, hs.session⟩
  rw [hrevision]
  exact hsaved

theorem portable_rows (hr : host.ReadsBounded) (hx : s.Exportable host)
    (h : s.lines.mapM (fetchLine host) = .ok es) : ∀ e ∈ es, Portable 126 e.2 := by
  intro e he
  obtain ⟨text, hmem, hrow⟩ := line_of_mem h he
  obtain ⟨row, hrow', hsigned, hdepth⟩ := hx.rows _ hmem
  obtain rfl : row = e.2 := Except.ok.inj (hrow'.symm.trans hrow)
  exact ⟨fetch_valid hr hrow, hsigned, hdepth⟩

/-- The file of an exportable snapshot is accepted, with its counts and watermarks. -/
theorem exists_reported (hp : host.Prints) (hr : host.ReadsBounded) (hs : s.Stored host)
    (hx : s.Exportable host) (p : String) :
    ∃ r, exportTo host (.ok p) s = .ok r ∧ s.Reported host r := by
  obtain ⟨es, hes⟩ : ∃ es, s.lines.mapM (fetchLine host) = .ok es := by
    refine mapM_ok_of_forall fun l hl => ?_
    obtain ⟨row, hrow, -⟩ := hx.rows l hl
    exact ⟨(l.1, row), fetchLine_ok_iff.2 ⟨rfl, hrow⟩⟩
  have hportable := portable_rows hr hx hes
  have hstart : Tracks { text := pythonEncoded host s.header ++ "\n" }
      { covered := pythonEncoded host s.header ++ "\n" } := ⟨rfl, rfl, rfl, rfl⟩
  have hid : s.header.get "session_id" = some (.str s.session) := rfl
  obtain ⟨w, t, hw, ht, htracks⟩ := tracks_run hp hstart hid
    (fun e he => (mem_lines.1 (line_of_mem hes he).choose_spec.1).1)
    (fun e he => by
      obtain ⟨text, hmem, hrow⟩ := line_of_mem hes he
      exact hs.owned _ hmem _ hrow)
    (ahead_entries hs hx hes _) (pairwise_entries hs hes)
  obtain ⟨htables, hcounts⟩ := counts_inRange hp hs hes hw
  rw [← htracks.shares] at htables hcounts
  have hsound : Sound w := sound_run hp ⟨rfl, rfl⟩ (fun e he => (hportable e he).valid) hw
  have hmarks := portable_tally hsound htracks ht
  have hmanifest := @manifest_of_tracks host _ _ htracks
  have hrecord : Portable 127 (.obj [("manifest", w.manifest host)]) := by
    rw [hmanifest]
    exact portable_record htables hcounts hmarks (by simp [Tally.fields]) (by simp)
  have hvalid : (w.manifest host).valid = true :=
    @Value.get_valid _ (w.manifest host) "manifest" hrecord.valid rfl
  have haccepts := accepts_written hp hr.toReadsText (exportFile_toList hp hw)
    ((portable_header hs.revision).mono (by omega))
    (fun v hv => by
      obtain ⟨e, he, rfl⟩ := List.mem_map.1 hv
      exact portable_entry (hportable e he))
    hrecord (checkHeader_snapshot hs hx.saved)
    (fun v hv => by
      obtain ⟨e, -, rfl⟩ := List.mem_map.1 hv
      rfl)
    ht
    (by
      rw [hmanifest]
      exact agrees_fields (portable_counts htables hcounts).valid (portable_hashes htables).valid
        hmarks.valid)
  have hwatermarks : w.watermarks = t.watermarks := by
    rw [Writing.watermarks, Tally.watermarks, htracks.events, htracks.diagnostics]
  obtain ⟨fields, hfields⟩ : ∃ fields, (w.manifest host).sorted = .obj fields := by
    rw [hmanifest]
    exact ⟨_, Value.sorted_obj _⟩
  have hindex : ∀ k v, k ≠ "archive_path" → (w.manifest host).get k = some v →
      (report s.header.sorted fields p).index k = v.sorted := by
    intro k v hk hv
    refine haccepts.index_report hr hfields hk ?_
    show (w.manifest host).sorted.get k = _
    rw [Value.get_sorted hvalid, hv]
    rfl
  refine ⟨report s.header.sorted fields p, ?_, ?_, ?_, ?_⟩
  · unfold exportTo
    rw [(exportFile_ok_iff hp).2 ⟨es, w, hes, hw, rfl⟩]
    exact verify_ok_iff.2 ⟨_, t, fields, p, haccepts, hfields, rfl, rfl⟩
  · have hshares : countsValue w.shares =
        .obj (tables.map fun t => (t.1, .int (s.rows t.1).length)) := by
      have hpairs := congrArg (List.map fun c : String × Int => (c.1, Value.int c.2))
        (shares_counts hp hes hw)
      rw [List.map_map, List.map_map] at hpairs
      exact congrArg Value.obj hpairs
    rw [hindex "counts" _ (by decide) rfl, Value.sorted_eqv, hshares]
    refine Value.eqv_self ?_
    rw [← hshares, ← htracks.shares]
    exact (portable_counts htables hcounts).valid
  · rw [hindex "watermarks" _ (by decide) rfl, hwatermarks, Value.index_sorted hmarks.valid]
    show (Value.int t.events).sorted = _
    rw [foldlM_addRow_events ht, rowsIn, filter_entries hes (by decide)]
    rfl
  · intro family
    have hdiagnostics : (Value.obj t.diagnostics).valid = true :=
      Value.index_valid hmarks.valid "diagnostics"
    have hmarked := (foldlM_addRow_diagnostics (marked_start _ family) ht).1
    rw [hindex "watermarks" _ (by decide) rfl, hwatermarks, Value.index_sorted hmarks.valid]
    show (Value.obj t.diagnostics).sorted.get family = _
    rw [Value.get_sorted hdiagnostics, Value.get_obj, hmarked, rowsIn, filter_entries hes (by decide),
      foldl_raise_none, Option.map_map]
    · rfl
    · intro o ho
      obtain ⟨row, hrow, rfl⟩ := List.mem_map.1 ho
      have hvalues := (List.mem_filter.1 hrow).1
      rw [Snapshot.values, List.mem_filterMap] at hvalues
      obtain ⟨text, htext, hfetch⟩ := hvalues
      refine (hs.diagnostics text htext row ?_).2
      cases h : fetch host text with
      | error m =>
        rw [h] at hfetch
        cases hfetch
      | ok row' =>
        rw [h] at hfetch
        rw [Option.some.inj hfetch]

theorem fetched_of_mapM (h : s.lines.mapM (fetchLine host) = .ok es) {l : String × String}
    (hl : l ∈ s.lines) : ∃ row, fetch host l.2 = .ok row := by
  generalize s.lines = ls at h hl
  induction ls generalizing es with
  | nil => cases hl
  | cons l' ls ih =>
    obtain ⟨e, es, he, hes, rfl⟩ := mapM_cons_ok_iff.1 h
    rcases List.mem_cons.1 hl with rfl | hl
    · exact ⟨e.2, (fetchLine_ok_iff.1 he).2⟩
    · exact ih hes hl

theorem exists_addRow {header : Value} {rows : List Value} {t t' : Tally}
    (h : rows.foldlM (addRow host header) t = .ok t') {row : Value} (hrow : row ∈ rows) :
    ∃ t₁ t₂, addRow host header t₁ row = .ok t₂ := by
  induction rows generalizing t with
  | nil => cases hrow
  | cons row' rows ih =>
    rw [List.foldlM_cons] at h
    obtain ⟨t₁, hadd, h⟩ := bind_ok h
    rcases List.mem_cons.1 hrow with rfl | hrow
    · exact ⟨t, t₁, hadd⟩
    · exact ih h hrow

theorem entry_valid {e : String × Value} (h : e.2.valid = true) : (entry e).valid = true := by
  refine Value.valid_obj.2 ⟨by simp, ?_⟩
  simp only [List.forall_mem_cons]
  exact ⟨rfl, h, by simp⟩

theorem record_valid (hp : host.Prints) (hs : s.Stored host) {w : Writing} {first : String}
    (h : s.lines.mapM (fetchLine host) = .ok es)
    (hw : es.foldlM (fun w e => exportRow host e.1 w e.2) { text := first } = .ok w)
    (hrow : ∀ e ∈ es, e.2.valid = true) :
    (Value.obj [("manifest", w.manifest host)]).valid = true := by
  obtain ⟨htables, hcounts⟩ := counts_inRange hp hs h hw
  have hsound : Sound w := sound_run hp ⟨rfl, rfl⟩ hrow hw
  have hmarks : w.watermarks.valid = true := by
    refine Value.valid_obj.2 ⟨by simp, ?_⟩
    simp only [List.forall_mem_cons]
    exact ⟨hsound.events, hsound.diagnostics, by simp⟩
  have hmanifest : (w.manifest host).valid = true := by
    refine Value.valid_obj.2 ⟨by simp, ?_⟩
    simp only [List.forall_mem_cons]
    exact ⟨(portable_counts htables hcounts).valid, (portable_hashes htables).valid, hmarks, rfl,
      by simp⟩
  refine Value.valid_obj.2 ⟨by simp, ?_⟩
  simp only [List.forall_mem_cons]
  exact ⟨hmanifest, by simp⟩

/-- A file that is accepted is that of an exportable snapshot. -/
theorem exportable_of_ok (hp : host.Prints) (hr : host.ReadsBounded) (hs : s.Stored host) {p : String}
    {r : Value} (h : exportTo host (.ok p) s = .ok r) : s.Exportable host := by
  obtain ⟨text, hfile, hverify⟩ := bind_ok h
  obtain ⟨es, w, hes, hw, rfl⟩ := (exportFile_ok_iff hp).1 hfile
  obtain ⟨c, t, fields, _, haccepts, -⟩ := verify_ok_iff.1 hverify
  have hrow : ∀ e ∈ es, e.2.valid = true := by
    intro e he
    obtain ⟨text, -, hfetch⟩ := line_of_mem hes he
    exact fetch_valid hr hfetch
  have hrows : ∀ v ∈ es.map entry, v.valid = true := by
    intro v hv
    obtain ⟨e, he, rfl⟩ := List.mem_map.1 hv
    exact entry_valid (hrow e he)
  have hheader := (portable_header hs.revision).valid
  have hvalid : ∀ v ∈ s.header :: (es.map entry ++ [.obj [("manifest", w.manifest host)]]),
      v.valid = true := by
    rw [List.forall_mem_cons, List.forall_mem_append]
    exact ⟨hheader, hrows, by simpa using record_valid hp hs hes hw hrow⟩
  have htext := exportFile_toList hp hw
  have hportable := portable_of_read hp hr htext hvalid haccepts.read
  have hread := haccepts.read
  rw [read_written hp hr.toReadsText htext hportable, List.map_cons, List.map_append] at hread
  obtain ⟨hheaderEq, hrowsEq⟩ := List.cons.inj (Except.ok.inj hread)
  obtain ⟨hrowsEq, -⟩ := List.append_inj' hrowsEq rfl
  have hcheck := haccepts.header
  rw [← hheaderEq, checkHeader_sorted hheader, checkHeader_ok_iff] at hcheck
  obtain ⟨-, -, hsaved, -⟩ := hcheck
  obtain ⟨first, -, htally⟩ := haccepts.tally
  rw [← hrowsEq, ← hheaderEq, foldlM_addRow_sorted hp hheader ⟨_, rfl⟩ hrows] at htally
  have hmem : ∀ table text row, (table, text) ∈ s.lines → fetch host text = .ok row →
      (table, row) ∈ es := by
    intro table text row hl hfetch
    rw [mapM_eq_filterMap hes, List.mem_filterMap]
    refine ⟨(table, text), hl, ?_⟩
    rw [(fetchLine_ok_iff (e := (table, row))).2 ⟨rfl, hfetch⟩]
    rfl
  refine ⟨?_, fun l hl => ?_, fun text htext row hfetch => ?_⟩
  · have hrange := hs.revision
    simp only [I64.inRange, Bool.and_eq_true, decide_eq_true_eq] at hrange
    rwa [(asI64_eq_some.2 ⟨rfl, hrange⟩ : (s.header.index "snapshot_revision").asI64 = _)] at hsaved
  · obtain ⟨row, hfetch⟩ := fetched_of_mapM hes hl
    have hentry := hportable (entry (l.1, row))
      (List.mem_cons_of_mem _ (List.mem_append_left _ (List.mem_map_of_mem (hmem l.1 l.2 row hl hfetch))))
    have hrow := portable_of_entry hentry
    exact ⟨row, hfetch, hrow.signed, hrow.shallow⟩
  · have he := hmem _ text row (mem_lines.2 ⟨by decide, htext⟩) hfetch
    obtain ⟨t₁, t₂, hadd⟩ := exists_addRow htally (List.mem_map_of_mem he)
    obtain ⟨bytes, hmark⟩ := mark_of_addRow hadd
    rcases mark_ok_iff.1 hmark with ⟨heq, -⟩ | ⟨-, family, ordinal, hfamily, hknown, -⟩ | ⟨-, hne, -⟩
    · exact absurd heq (by simp)
    · exact ⟨family, hknown, hfamily⟩
    · exact absurd rfl hne

end exported

/-! ## Export and verification -/

/-- The rows of an accepted file are those its manifest was made of, and the manifest is its last
record. -/
structure Sealed (host : Host) : Prop where
  rows : ∀ {text text' : String} {path path' : Except String String} {r r' : Value},
    verify host path text = .ok r → verify host path' text' = .ok r' →
    ((manifestOf host text).getD .null).index "sha256" =
      ((manifestOf host text').getD .null).index "sha256" →
    (headerOf host text).sorted = (headerOf host text').sorted ∧
      (rowsOf host text).map Value.sorted = (rowsOf host text').map Value.sorted
  last : ∀ {text : String} {path : Except String String} {r : Value} {pre post : List String}
    {raw : String} {v : Value}, verify host path text = .ok r →
    (fileLines text).tail = pre ++ raw :: post → parseStrictJson host raw = .ok v →
    v.get "manifest" ≠ none → post = []
  manifest : ∀ {text : String} {path : Except String String} {r : Value},
    verify host path text = .ok r → ∃ raw ∈ (fileLines text).tail,
      ∃ v, parseStrictJson host raw = .ok v ∧ v.get "manifest" ≠ none

theorem sealed_of_injective {host : Host} (hp : host.Prints) (hr : host.ReadsBounded)
    (hinj : Function.Injective host.sha256) : Sealed host where
  rows h h' hsha := by
    obtain ⟨c, t, -, -, haccepts, -⟩ := verify_ok_iff.1 h
    obtain ⟨c', t', -, -, haccepts', -⟩ := verify_ok_iff.1 h'
    rw [haccepts.manifestOf_eq, haccepts'.manifestOf_eq] at hsha
    rw [haccepts.headerOf_eq, haccepts'.headerOf_eq, haccepts.rowsOf_eq, haccepts'.rowsOf_eq]
    exact haccepts.unique hp hr hinj haccepts' hsha
  last h htail hv hm := by
    obtain ⟨c, t, -, -, haccepts, -⟩ := verify_ok_iff.1 h
    exact haccepts.last htail hv hm
  manifest h := by
    obtain ⟨c, t, -, -, haccepts, -⟩ := verify_ok_iff.1 h
    exact haccepts.exists_manifest

/-- A snapshot is exported to a file that is accepted and reported as it is if and only if it is
exportable; and no accepted file can be changed under its manifest. -/
theorem exported_iff {host : Host} (hp : host.Prints) (hr : host.ReadsBounded)
    (hinj : Function.Injective host.sha256) {s : Snapshot} (hs : s.Stored host) (p : String) :
    ((∃ r, exportTo host (.ok p) s = .ok r ∧ s.Reported host r) ↔ s.Exportable host) ∧
      Sealed host := by
  refine ⟨⟨?_, fun hx => exists_reported hp hr hs hx p⟩, sealed_of_injective hp hr hinj⟩
  rintro ⟨r, h, -⟩
  exact exportable_of_ok hp hr hs h

/-! ## An integer of 64 bits without a sign -/

/-- A session with one row, as PostgreSQL writes it. -/
def sampleSnapshot (row : Spelling) : Snapshot where
  session := sampleId
  archive := "c3d4e5f6-8a9b-4c7d-ae0f-1a2b3c4d5e6f"
  revision := 1
  rows table := if table = "agent_sessions" then [.ofList row.text] else []

section sample

variable {row : Spelling}

theorem lines_sampleSnapshot :
    (sampleSnapshot row).lines = [("agent_sessions", .ofList row.text)] := by
  simp [Snapshot.lines, sampleSnapshot, tables]

theorem fetch_sample (htokens : row.Tokens) (hdepth : row.depth ≤ 127) :
    fetch archiveHost (.ofList row.text) = .ok row.raw.value := by
  have hread : archiveHost.reader (.ofList row.text) = .ok row.raw := by
    show readSpelling _ = _
    rw [readSpelling, String.toList_ofList, ofText_text htokens]
    exact if_pos hdepth
  rw [fetch, hread]
  rfl

theorem stored_sample (htokens : row.Tokens) (hdepth : row.depth ≤ 127)
    (hid : row.raw.value.get "session_id" = some (.str sampleId)) :
    (sampleSnapshot row).Stored archiveHost where
  session := rfl
  archive := rfl
  revision := (by decide : I64.inRange 1 = true)
  count := by simp [lines_sampleSnapshot]
  owned l hl v hv := by
    rw [lines_sampleSnapshot, List.mem_singleton] at hl
    rw [hl, fetch_sample htokens hdepth] at hv
    rw [← Except.ok.inj hv]
    exact hid
  events := by simp [sampleSnapshot]
  ascending := by simp [sampleSnapshot]
  diagnostics := by simp [sampleSnapshot]
  numbered := by simp [sampleSnapshot]

end sample

/-- The row of a session. -/
def sessionRow : Spelling := .obj [("session_id", .str sampleId)]

theorem sessionRow_stored : (sampleSnapshot sessionRow).Stored archiveHost :=
  stored_sample ⟨trivial, trivial⟩ (by decide) rfl

theorem sampleSha256_injective : Function.Injective archiveHost.sha256 := by
  have hother : ∀ {hash : String} (text : String), hash.toList.head? ≠ some 'n' →
      hash ≠ "no hash of " ++ text := by
    rintro _ text hhead rfl
    exact hhead (by simp [String.toList_append])
  intro a b h
  have h : sampleSha256 a = sampleSha256 b := h
  unfold sampleSha256 at h
  split_ifs at h with ha hb hb hb ha hb hb hb ha hb hb hb hb hb hb
  · rw [ha, hb]
  · exact absurd h (by decide)
  · exact absurd h (by decide)
  · exact absurd h (hother b (by decide))
  · exact absurd h (by decide)
  · rw [ha, hb]
  · exact absurd h (by decide)
  · exact absurd h (hother b (by decide))
  · exact absurd h (by decide)
  · exact absurd h (by decide)
  · rw [ha, hb]
  · exact absurd h (hother b (by decide))
  · exact absurd h.symm (hother a (by decide))
  · exact absurd h.symm (hother a (by decide))
  · exact absurd h.symm (hother a (by decide))
  · refine String.toList_injective ?_
    have hlists := congrArg String.toList h
    rw [String.toList_append, String.toList_append] at hlists
    exact List.append_cancel_left hlists

theorem exported_iff_sample : ∃ r, exportTo archiveHost (.ok "/archive.jsonl")
    (sampleSnapshot sessionRow) = .ok r ∧ (sampleSnapshot sessionRow).Reported archiveHost r := by
  refine ((exported_iff archiveHost_prints archiveHost_readsBounded sampleSha256_injective
    sessionRow_stored "/archive.jsonl").1).2 ⟨by decide, fun l hl => ?_, by simp [sampleSnapshot]⟩
  rw [lines_sampleSnapshot, List.mem_singleton] at hl
  have htokens : sessionRow.Tokens := ⟨trivial, trivial⟩
  rw [hl, fetch_sample htokens (by decide)]
  exact ⟨_, rfl, ⟨trivial, trivial⟩, by decide⟩

/-- The row of a session whose state has an integer of 64 bits above `i64::MAX`. -/
def largeRow : Spelling :=
  .obj [("session_id", .str sampleId), ("state", .obj [("total", .num
    ['9', '2', '2', '3', '3', '7', '2', '0', '3', '6', '8', '5', '4', '7', '7', '5', '8', '0', '8'])])]

/-- The file of a stored session is refused. -/
theorem exists_refused : ∃ s : Snapshot, s.Stored archiveHost ∧ 1 ≤ s.revision ∧
    (∀ l ∈ s.lines, ∃ row, fetch archiveHost l.2 = .ok row) ∧
    ¬∃ r, exportTo archiveHost (.ok "/archive.jsonl") s = .ok r := by
  have htokens : largeRow.Tokens := by
    refine ⟨trivial, ⟨⟨by simp, ?_⟩, trivial⟩, trivial⟩
    exact List.all_eq_true.1 rfl
  have hfetch := fetch_sample htokens (by decide)
  have hstored : (sampleSnapshot largeRow).Stored archiveHost := stored_sample htokens (by decide) rfl
  refine ⟨sampleSnapshot largeRow, hstored, by decide, ?_, ?_⟩
  · intro l hl
    rw [lines_sampleSnapshot, List.mem_singleton] at hl
    rw [hl]
    exact ⟨_, hfetch⟩
  · rintro ⟨r, h⟩
    have hx := exportable_of_ok archiveHost_prints archiveHost_readsBounded hstored h
    obtain ⟨v, hv, hsigned, -⟩ := hx.rows _ (by rw [lines_sampleSnapshot]; exact List.mem_singleton_self _)
    rw [hfetch] at hv
    rw [← Except.ok.inj hv] at hsigned
    have hsmall : Signed (.int 9223372036854775808) := hsigned.2.1.1
    exact absurd (signed_int.1 hsmall).2 (by norm_num)

end Archive

end StateDrivenAgent
