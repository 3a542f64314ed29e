import StateDrivenAgent.Storage.Archive
import StateDrivenAgent.Verify.Loading
import StateDrivenAgent.Verify.PythonEncoding

/-!
# What an accepted archive is

`verify` accepts a file whose lines are a header, rows and a record with a manifest, in this order,
when the checks of each hold and the manifest agrees with what was read before it (`Accepts`,
`verify_ok_iff`). What it reports is the header with every property of the manifest put over it, so
that the session of the covered rows is reported only if the manifest names no other
(`reported_iff`).
-/

namespace StateDrivenAgent

namespace Archive

open Config (check demand need check_ok_iff demand_ok_iff need_ok_iff bind_ok_iff unit_bind_ok_iff)

/-! ## The lines of a file -/

theorem splitList_lines {ls : List String} (h : ∀ l ∈ ls, '\n' ∉ l.toList) :
    Text.splitList '\n' (ls.flatMap fun l => l.toList ++ ['\n']) = ls.map String.toList ++ [[]] := by
  induction ls with
  | nil => exact Text.splitList_of_not_mem (by simp)
  | cons l ls ih =>
    obtain ⟨hl, hls⟩ := List.forall_mem_cons.1 h
    rw [List.flatMap_cons, List.append_assoc, List.singleton_append, Text.splitList_append hl, ih hls]
    rfl

/-- The lines of a text that was written line by line. -/
theorem fileLines_eq {text : String} {ls : List String}
    (htext : text.toList = ls.flatMap fun l => l.toList ++ ['\n'])
    (hls : ∀ l ∈ ls, ∀ c ∈ l.toList, 32 ≤ c.toNat) : fileLines text = ls := by
  have hfeed : ∀ l ∈ ls, '\n' ∉ l.toList := by
    intro l hl hmem
    exact absurd (hls l hl _ hmem) (by decide)
  have hstrip : ∀ l ∈ ls, stripReturn l.toList = l.toList := by
    intro l hl
    refine if_neg fun hlast => ?_
    exact absurd (hls l hl _ (List.mem_of_getLast? hlast)) (by decide)
  rw [fileLines, htext, splitList_lines hfeed]
  simp only [List.dropLast_concat, List.getLast?_concat, Option.getD_some, if_true, List.append_nil,
    List.map_map]
  calc ls.map ((String.ofList ∘ stripReturn) ∘ String.toList)
      = ls.map id := List.map_congr_left fun l hl => by simp [hstrip l hl]
    _ = ls := List.map_id ls

/-- The records of a file; none if a line cannot be read. -/
def records (host : Host) (text : String) : List Value :=
  (((fileLines text).mapM (parseStrictJson host)).toOption).getD []

def headerOf (host : Host) (text : String) : Value := (records host text).head?.getD .null

/-- The records between the header and the manifest. -/
def rowsOf (host : Host) (text : String) : List Value :=
  (records host text).tail.takeWhile fun v => (v.get "manifest").isNone

def manifestOf (host : Host) (text : String) : Option Value :=
  (records host text).tail.findSome? fun v => v.get "manifest"

/-- What is reported. -/
def report (header : Value) (fields : List (String × Value)) (path : String) : Value :=
  (fields.foldl (fun r f => r.set f.1 f.2) header).set "archive_path" (.str path)

/-! ## One line -/

theorem eqv_str {v : Value} {s : String} : v.eqv (.str s) = true ↔ v = .str s := by
  cases v <;> simp [Value.eqv]

theorem index_eq_str {v : Value} {k s : String} : v.index k = .str s ↔ v.get k = some (.str s) := by
  rw [Value.index]
  cases v.get k <;> simp

section lines

variable {host : Host} {header : Value} {t t' : Tally}

theorem mark_ok_iff {table : String} {row : Value} : mark table row t = .ok t' ↔
    (table = "agent_session_events" ∧ ∃ id, (row.index "event_id").asI64 = some id ∧
        t' = { t with events := max t.events id }) ∨
      (table = "agent_session_diagnostics" ∧ ∃ family ordinal,
        (row.index "family").asStr = some family ∧ family ∈ Diagnostics.families ∧
        (row.index "ordinal").asI64 = some ordinal ∧
        t' = { t with
          diagnostics := insertField family
            (.int (max (((lookup family t.diagnostics).bind Value.asI64).getD 0) ordinal))
            t.diagnostics }) ∨
      (table ≠ "agent_session_events" ∧ table ≠ "agent_session_diagnostics" ∧ t' = t) := by
  unfold mark
  split_ifs with hevents hdiagnostics
  · constructor
    · intro h
      obtain ⟨id, hid, h⟩ := bind_ok h
      exact .inl ⟨hevents, id, need_ok_iff.1 hid, (Except.ok.inj h).symm⟩
    · rintro (⟨-, id, hid, rfl⟩ | ⟨h, -⟩ | ⟨h, -⟩)
      · exact bind_ok_iff.2 ⟨id, need_ok_iff.2 hid, rfl⟩
      · exact absurd (hevents.symm.trans h) (by decide)
      · exact absurd hevents h
  · constructor
    · intro h
      obtain ⟨family, hfamily, h⟩ := bind_ok h
      obtain ⟨hmem, h⟩ := unit_bind_ok_iff.1 h
      obtain ⟨ordinal, hordinal, h⟩ := bind_ok h
      exact .inr (.inl ⟨hdiagnostics, family, ordinal, need_ok_iff.1 hfamily, demand_ok_iff.1 hmem,
        need_ok_iff.1 hordinal, (Except.ok.inj h).symm⟩)
    · rintro (⟨h, -⟩ | ⟨-, family, ordinal, hfamily, hmem, hordinal, rfl⟩ | ⟨-, h, -⟩)
      · exact absurd h hevents
      · refine bind_ok_iff.2 ⟨family, need_ok_iff.2 hfamily, ?_⟩
        refine unit_bind_ok_iff.2 ⟨demand_ok_iff.2 hmem, ?_⟩
        exact bind_ok_iff.2 ⟨ordinal, need_ok_iff.2 hordinal, rfl⟩
      · exact absurd hdiagnostics h
  · constructor
    · intro h
      exact .inr (.inr ⟨hevents, hdiagnostics, (Except.ok.inj h).symm⟩)
    · rintro (⟨h, -⟩ | ⟨h, -⟩ | ⟨-, -, rfl⟩)
      · exact absurd h hevents
      · exact absurd h hdiagnostics
      · rfl

/-- What a row adds to the state, but for the watermarks. -/
def Tally.add (t : Tally) (table bytes : String) : Tally :=
  { t with covered := t.covered ++ bytes, shares := addShare table bytes t.shares }

theorem addRow_ok_iff {v : Value} : addRow host header t v = .ok t' ↔
    ∃ table bytes, v.get "table" = some (.str table) ∧ table ∈ tables.map Prod.fst ∧
      ((v.index "row").index "session_id").eqv (header.index "session_id") = true ∧
      v.asObject.map List.length = some 2 ∧ line host v = .ok bytes ∧
      mark table (v.index "row") (t.add table bytes) = .ok t' := by
  have hany : ∀ table, (tables.any fun x => x.1 = table) = true ↔ table ∈ tables.map Prod.fst := by
    intro table
    simp [List.mem_map]
  unfold addRow
  rw [bind_ok_iff]
  simp only [check_ok_iff, need_ok_iff, Value.asStr_eq_some, index_eq_str]
  refine exists_congr fun table => ?_
  constructor
  · rintro ⟨htable, h⟩
    obtain ⟨⟨⟩, hdemand, h⟩ := bind_ok h
    obtain ⟨bytes, hbytes, h⟩ := bind_ok h
    obtain ⟨hknown, hsession, hlength⟩ := demand_ok_iff.1 (check_ok_iff.1 hdemand)
    exact ⟨bytes, htable, (hany table).1 hknown, hsession, hlength, hbytes, check_ok_iff.1 h⟩
  · rintro ⟨bytes, htable, hknown, hsession, hlength, hbytes, h⟩
    refine ⟨htable, unit_bind_ok_iff.2 ⟨check_ok_iff.2 (demand_ok_iff.2 ⟨(hany table).2 hknown, hsession, hlength⟩), ?_⟩⟩
    exact bind_ok_iff.2 ⟨bytes, hbytes, check_ok_iff.2 h⟩

theorem addRow_manifest {v : Value} (h : addRow host header t v = .ok t') :
    t'.manifest = t.manifest := by
  obtain ⟨table, bytes, -, -, -, -, -, hmark⟩ := addRow_ok_iff.1 h
  rcases mark_ok_iff.1 hmark with ⟨-, id, -, rfl⟩ | ⟨-, family, ordinal, -, -, -, rfl⟩ | ⟨-, -, rfl⟩ <;>
    rfl

theorem readLine_ok_iff {raw : String} : readLine host header t raw = .ok t' ↔
    ∃ v, parseStrictJson host raw = .ok v ∧ t.manifest = none ∧
      ((∃ m, v.get "manifest" = some m ∧ t' = { t with manifest := some m }) ∨
        v.get "manifest" = none ∧ addRow host header t v = .ok t') := by
  unfold readLine
  simp only [bind_ok_iff, check_ok_iff]
  refine exists_congr fun v => and_congr_right fun _ => ?_
  rw [← Option.isNone_iff_eq_none]
  constructor
  · rintro ⟨⟨⟩, hnone, h⟩
    refine ⟨demand_ok_iff.1 hnone, ?_⟩
    cases hm : v.get "manifest" with
    | none =>
      rw [hm] at h
      exact .inr ⟨rfl, h⟩
    | some m =>
      rw [hm] at h
      exact .inl ⟨m, rfl, (Except.ok.inj h).symm⟩
  · rintro ⟨hnone, ⟨m, hm, rfl⟩ | ⟨hm, h⟩⟩
    · exact ⟨(), demand_ok_iff.2 hnone, by rw [hm]; rfl⟩
    · exact ⟨(), demand_ok_iff.2 hnone, by rw [hm]; exact h⟩

/-- Nothing is read behind the manifest. -/
theorem foldlM_readLine_some {raws : List String} (hm : t.manifest ≠ none)
    (h : raws.foldlM (readLine host header) t = .ok t') : raws = [] ∧ t' = t := by
  cases raws with
  | nil => exact ⟨rfl, (Except.ok.inj h).symm⟩
  | cons raw raws =>
    rw [List.foldlM_cons] at h
    obtain ⟨_, h, -⟩ := bind_ok h
    obtain ⟨-, -, hnone, -⟩ := readLine_ok_iff.1 h
    exact absurd hnone hm

/-- Rows up to a manifest. -/
theorem foldlM_readLine_iff {raws : List String} {m : Value} (hnone : t.manifest = none) :
    raws.foldlM (readLine host header) t = .ok t' ∧ t'.manifest = some m ↔
      ∃ rows record t₀, raws.mapM (parseStrictJson host) = .ok (rows ++ [record]) ∧
        (∀ row ∈ rows, row.get "manifest" = none) ∧ record.get "manifest" = some m ∧
        rows.foldlM (addRow host header) t = .ok t₀ ∧ t' = { t₀ with manifest := some m } := by
  induction raws generalizing t with
  | nil =>
    constructor
    · rintro ⟨h, hm⟩
      rw [← Except.ok.inj h, hnone] at hm
      cases hm
    · rintro ⟨rows, record, -, h, -⟩
      have hnil : [] = rows ++ [record] := Except.ok.inj h
      simp at hnil
  | cons raw raws ih =>
    rw [List.foldlM_cons, List.mapM_cons]
    constructor
    · rintro ⟨h, hm⟩
      obtain ⟨t₁, hstep, h⟩ := bind_ok h
      obtain ⟨v, hv, -, ⟨m₁, hget, rfl⟩ | ⟨hget, hrow⟩⟩ := readLine_ok_iff.1 hstep
      · obtain ⟨rfl, rfl⟩ := foldlM_readLine_some (by simp) h
        obtain rfl : m₁ = m := Option.some.inj hm
        exact ⟨[], v, t, by rw [hv]; rfl, by simp, hget, rfl, rfl⟩
      · have hnone₁ : t₁.manifest = none := (addRow_manifest hrow).trans hnone
        obtain ⟨rows, record, t₀, hread, hrows, hrecord, hfold, rfl⟩ := (ih hnone₁).1 ⟨h, hm⟩
        refine ⟨v :: rows, record, t₀, by rw [hv, hread]; rfl, ?_, hrecord, ?_, rfl⟩
        · exact List.forall_mem_cons.2 ⟨hget, hrows⟩
        · rw [List.foldlM_cons, hrow]
          exact hfold
    · rintro ⟨rows, record, t₀, hread, hrows, hrecord, hfold, rfl⟩
      obtain ⟨v, hv, hread⟩ := bind_ok hread
      obtain ⟨vs, hvs, hread⟩ := bind_ok hread
      have hcons : v :: vs = rows ++ [record] := Except.ok.inj hread
      cases rows with
      | nil =>
        obtain ⟨rfl, rfl⟩ := List.cons.inj hcons
        obtain rfl : raws = [] := by
          cases raws with
          | nil => rfl
          | cons raw' raws =>
            rw [List.mapM_cons] at hvs
            obtain ⟨w, -, hvs⟩ := bind_ok hvs
            obtain ⟨ws, -, hvs⟩ := bind_ok hvs
            cases Except.ok.inj hvs
        rw [← Except.ok.inj hfold]
        have hstep : readLine host header t raw = .ok { t with manifest := some m } :=
          readLine_ok_iff.2 ⟨v, hv, hnone, .inl ⟨m, hrecord, rfl⟩⟩
        exact ⟨by rw [hstep]; rfl, rfl⟩
      | cons row rows =>
        obtain ⟨rfl, rfl⟩ := List.cons.inj hcons
        rw [List.foldlM_cons] at hfold
        obtain ⟨t₁, hrow, hfold⟩ := bind_ok hfold
        obtain ⟨hget, hrows⟩ := List.forall_mem_cons.1 hrows
        have hnone₁ : t₁.manifest = none := (addRow_manifest hrow).trans hnone
        have hstep : readLine host header t raw = .ok t₁ :=
          readLine_ok_iff.2 ⟨v, hv, hnone, .inr ⟨hget, hrow⟩⟩
        rw [hstep]
        exact (ih hnone₁).2 ⟨rows, record, t₀, hvs, hrows, hrecord, hfold, rfl⟩

end lines

/-- The records of a file, the last with what it says of the others. -/
structure Contents where
  header : Value
  rows : List Value
  record : Value
  manifest : Value

/-- A file with these records is accepted, with this state behind the rows. -/
structure Accepts (host : Host) (text : String) (c : Contents) (t : Tally) : Prop where
  read : (fileLines text).mapM (parseStrictJson host) = .ok (c.header :: (c.rows ++ [c.record]))
  header : checkHeader host c.header = .ok ()
  rows : ∀ row ∈ c.rows, row.get "manifest" = none
  record : c.record.get "manifest" = some c.manifest
  tally : ∃ first, line host c.header = .ok first ∧
    c.rows.foldlM (addRow host c.header) { covered := first } = .ok t
  agrees : t.agrees host c.manifest = true

section verify

variable {host : Host} {path : Except String String} {text : String} {r : Value}

theorem mapM_cons_ok_iff {α β ε : Type} {f : α → Except ε β} {x : α} {xs : List α} {ys : List β} :
    (x :: xs).mapM f = .ok ys ↔ ∃ y zs, f x = .ok y ∧ xs.mapM f = .ok zs ∧ ys = y :: zs := by
  rw [List.mapM_cons, bind_ok_iff]
  constructor
  · rintro ⟨y, hy, h⟩
    obtain ⟨zs, hzs, h⟩ := bind_ok h
    exact ⟨y, zs, hy, hzs, (Except.ok.inj h).symm⟩
  · rintro ⟨y, zs, hy, hzs, rfl⟩
    exact ⟨y, hy, by rw [hzs]; rfl⟩

theorem mem_of_mapM_ok {α β ε : Type} {f : α → Except ε β} {xs : List α} {ys : List β} {y : β}
    (h : xs.mapM f = .ok ys) (hy : y ∈ ys) : ∃ x ∈ xs, f x = .ok y := by
  induction xs generalizing ys with
  | nil =>
    obtain rfl := Except.ok.inj h
    cases hy
  | cons x xs ih =>
    obtain ⟨z, zs, hz, hzs, rfl⟩ := mapM_cons_ok_iff.1 h
    rcases List.mem_cons.1 hy with rfl | hy
    · exact ⟨x, List.mem_cons_self, hz⟩
    · obtain ⟨x', hx', hf⟩ := ih hzs hy
      exact ⟨x', List.mem_cons_of_mem _ hx', hf⟩

theorem verify_ok_iff : verify host path text = .ok r ↔
    ∃ c t fields p, Accepts host text c t ∧ c.manifest = .obj fields ∧ path = .ok p ∧
      r = report c.header fields p := by
  unfold verify
  simp only [bind_ok_iff, check_ok_iff, need_ok_iff]
  constructor
  · rintro ⟨raw, hraw, header, hheader, ⟨⟩, hcheck, first, hfirst, t, hfold, m, hm, ⟨⟩, hagrees,
      fields, hfields, p, hp, h⟩
    obtain ⟨raws, hraws⟩ : ∃ raws, fileLines text = raw :: raws := by
      rw [List.head?_eq_some_iff] at hraw
      exact hraw
    rw [hraws, List.tail_cons] at hfold
    obtain ⟨rows, record, t₀, hread, hrows, hrecord, htally, rfl⟩ :=
      (foldlM_readLine_iff rfl).1 ⟨hfold, hm⟩
    refine ⟨⟨header, rows, record, m⟩, t₀, fields, p, ?_, Value.asObject_eq_some.1 hfields, hp,
      (Except.ok.inj h).symm⟩
    exact {
      read := by rw [hraws, mapM_cons_ok_iff]; exact ⟨header, _, hheader, hread, rfl⟩
      header := hcheck
      rows := hrows
      record := hrecord
      tally := ⟨first, hfirst, htally⟩
      agrees := demand_ok_iff.1 hagrees }
  · rintro ⟨c, t, fields, p, ⟨hread, hcheck, hrows, hrecord, ⟨first, hfirst, hfold⟩, hagrees⟩, hm, hp,
      rfl⟩
    cases hraws : fileLines text with
    | nil =>
      rw [hraws] at hread
      cases Except.ok.inj hread
    | cons raw raws =>
      rw [hraws] at hread
      obtain ⟨header, rest, hheader, hrest, heq⟩ := mapM_cons_ok_iff.1 hread
      obtain ⟨rfl, rfl⟩ := List.cons.inj heq
      have hlines := (foldlM_readLine_iff rfl).2 ⟨c.rows, c.record, t, hrest, hrows, hrecord, hfold, rfl⟩
      exact ⟨raw, rfl, c.header, hheader, ⟨⟩, hcheck, first, hfirst, _, hlines.1, _, hlines.2, ⟨⟩,
        demand_ok_iff.2 hagrees, fields, Value.asObject_eq_some.2 hm, p, hp, rfl⟩

end verify

/-! ## A file that was written record by record -/

section written

open Identity (pythonEncoded Portable)

variable {host : Host} {text : String} {header : Value} {t t' : Tally}

theorem checkUuid_ok_iff {header : Value} {k : String} : checkUuid host header k = .ok () ↔
    ∃ id, header.get k = some (.str id) ∧ (host.parseUuid id).isSome = true := by
  unfold checkUuid
  rw [bind_ok_iff]
  refine exists_congr fun id => ?_
  rw [need_ok_iff, Value.asStr_eq_some, index_eq_str, demand_ok_iff]

theorem checkHeader_ok_iff {header : Value} : checkHeader host header = .ok () ↔
    header.get "format" = some (.str "sda-archive-2") ∧
      header.asObject.map List.length = some 4 ∧
      1 ≤ ((header.index "snapshot_revision").asI64).getD 0 ∧
      (∃ id, header.get "archive_id" = some (.str id) ∧ (host.parseUuid id).isSome = true) ∧
      ∃ id, header.get "session_id" = some (.str id) ∧ (host.parseUuid id).isSome = true := by
  unfold checkHeader
  rw [unit_bind_ok_iff, unit_bind_ok_iff, demand_ok_iff, checkUuid_ok_iff, checkUuid_ok_iff]
  simp only [Bool.and_eq_true, eqv_str, index_eq_str, beq_iff_eq, decide_eq_true_eq, and_assoc]

theorem checkHeader_sorted (hv : header.valid = true) :
    checkHeader host header.sorted = .ok () ↔ checkHeader host header = .ok () := by
  rw [checkHeader_ok_iff, checkHeader_ok_iff]
  simp only [Value.get_sorted_str hv, Value.index_sorted hv, Value.asObject_length_sorted,
    Value.asI64_sorted]

theorem line_ok (hp : host.Prints) (v : Value) :
    line host v = .ok (pythonEncoded host v ++ "\n") := by
  rw [line, Config.canonicalJson, if_pos (Config.exponentsRead_of_prints hp v)]
  rfl

/-- The records, a line each. -/
def written (host : Host) (vs : List Value) : List Char :=
  vs.flatMap fun v => (pythonEncoded host v).toList ++ ['\n']

theorem fileLines_written (hp : host.Prints) {vs : List Value}
    (htext : text.toList = written host vs) (h : ∀ v ∈ vs, v.valid = true) :
    fileLines text = vs.map (pythonEncoded host) := by
  refine fileLines_eq (by rw [htext, written, List.flatMap_map]) ?_
  intro l hl
  obtain ⟨v, hv, rfl⟩ := List.mem_map.1 hl
  exact Identity.pythonEncoded_no_control hp (h v hv)

/-- Each record is read back. -/
theorem read_written (hp : host.Prints) (hr : host.ReadsText) {vs : List Value}
    (htext : text.toList = written host vs) (h : ∀ v ∈ vs, Portable 127 v) :
    (fileLines text).mapM (parseStrictJson host) = .ok (vs.map Value.sorted) := by
  rw [fileLines_written hp htext fun v hv => (h v hv).valid]
  clear htext
  induction vs with
  | nil => rfl
  | cons v vs ih =>
    obtain ⟨hv, hvs⟩ := List.forall_mem_cons.1 h
    rw [List.map_cons, mapM_cons_ok_iff]
    exact ⟨_, _, Identity.parseStrictJson_pythonEncoded hp hr hv, ih hvs, rfl⟩

/-- A file is only read if every record can be read back. -/
theorem portable_of_read (hp : host.Prints) (hr : host.ReadsBounded) {vs ws : List Value}
    (htext : text.toList = written host vs) (h : ∀ v ∈ vs, v.valid = true)
    (hread : (fileLines text).mapM (parseStrictJson host) = .ok ws) : ∀ v ∈ vs, Portable 127 v := by
  rw [fileLines_written hp htext h] at hread
  clear htext
  induction vs generalizing ws with
  | nil => simp
  | cons v vs ih =>
    obtain ⟨hv, hvs⟩ := List.forall_mem_cons.1 h
    obtain ⟨w, ws, hw, hws, rfl⟩ := mapM_cons_ok_iff.1 hread
    exact List.forall_mem_cons.2
      ⟨Identity.portable_of_parseStrictJson hp hr hv hw, ih hvs hws⟩

/-- A row counts as it was before it was written. -/
theorem addRow_sorted (hp : host.Prints) (hh : header.valid = true) {v : Value}
    (hv : v.valid = true) (hid : ∃ id, header.get "session_id" = some (.str id)) :
    addRow host header.sorted t v.sorted = .ok t' ↔ addRow host header t v = .ok t' := by
  obtain ⟨id, hid⟩ := hid
  have hindex : header.index "session_id" = .str id := index_eq_str.2 hid
  have hsession : ((v.sorted.index "row").index "session_id").eqv (header.sorted.index "session_id") =
      ((v.index "row").index "session_id").eqv (header.index "session_id") := by
    rw [Value.index_sorted hh, hindex, Value.index_sorted hv,
      Value.index_sorted (Value.index_valid hv _), Value.sorted_eqv]
    rfl
  have hmark : ∀ table t₁, mark table (v.sorted.index "row") t₁ = mark table (v.index "row") t₁ := by
    intro table t₁
    rw [Value.index_sorted hv]
    simp only [mark, Value.index_sorted (Value.index_valid hv _), Value.asI64_sorted,
      Value.asStr_sorted]
  rw [addRow_ok_iff, addRow_ok_iff]
  simp only [hsession, hmark, Value.get_sorted_str hv, Value.asObject_length_sorted, line_ok hp,
    Identity.pythonEncoded_sorted]

theorem foldlM_addRow_sorted (hp : host.Prints) (hh : header.valid = true)
    (hid : ∃ id, header.get "session_id" = some (.str id)) {rows : List Value}
    (hrows : ∀ v ∈ rows, v.valid = true) :
    (rows.map Value.sorted).foldlM (addRow host header.sorted) t = .ok t' ↔
      rows.foldlM (addRow host header) t = .ok t' := by
  induction rows generalizing t with
  | nil => rfl
  | cons v rows ih =>
    obtain ⟨hv, hrows⟩ := List.forall_mem_cons.1 hrows
    rw [List.map_cons, List.foldlM_cons, List.foldlM_cons, bind_ok_iff, bind_ok_iff]
    exact exists_congr fun t₁ => and_congr (addRow_sorted hp hh hv hid) (ih hrows)

theorem agrees_sorted {m : Value} (hm : m.valid = true) :
    t.agrees host m.sorted = t.agrees host m := by
  simp only [Tally.agrees, Value.index_sorted hm, Value.sorted_eqv]

/-- A file is accepted if it was written from a header, its rows and a manifest that agrees with
them. -/
theorem accepts_written (hp : host.Prints) (hr : host.ReadsText) {rows : List Value} {m : Value}
    (htext : text.toList = written host (header :: (rows ++ [.obj [("manifest", m)]])))
    (hheader : Portable 127 header) (hrows : ∀ v ∈ rows, Portable 127 v)
    (hm : Portable 127 (.obj [("manifest", m)])) (hcheck : checkHeader host header = .ok ())
    (hplain : ∀ v ∈ rows, v.get "manifest" = none)
    (htally : rows.foldlM (addRow host header) { covered := pythonEncoded host header ++ "\n" } =
      .ok t)
    (hagrees : t.agrees host m = true) :
    Accepts host text ⟨header.sorted, rows.map Value.sorted, .obj [("manifest", m.sorted)], m.sorted⟩
      t := by
  have hrecord : (Value.obj [("manifest", m)]).sorted = .obj [("manifest", m.sorted)] := by
    rw [Value.sorted_obj]
    rfl
  have hvalid : m.valid = true := @Value.get_valid _ m "manifest" hm.valid rfl
  refine ⟨?_, ?_, ?_, rfl, ⟨pythonEncoded host header ++ "\n", ?_, ?_⟩, ?_⟩
  · rw [read_written hp hr htext, List.map_cons, List.map_append, List.map_cons, hrecord]
    · rfl
    · intro v hv
      rcases List.mem_cons.1 hv with rfl | hv
      · exact hheader
      · rcases List.mem_append.1 hv with hv | hv
        · exact hrows v hv
        · rw [List.mem_singleton.1 hv]
          exact hm
  · exact (checkHeader_sorted hheader.valid).2 hcheck
  · intro row hrow
    obtain ⟨v, hv, rfl⟩ := List.mem_map.1 hrow
    rw [Value.get_sorted (hrows v hv).valid, hplain v hv]
    rfl
  · rw [line_ok hp, Identity.pythonEncoded_sorted]
  · obtain ⟨-, -, -, -, id, hid, -⟩ := checkHeader_ok_iff.1 hcheck
    exact (foldlM_addRow_sorted hp hheader.valid ⟨id, hid⟩ fun v hv => (hrows v hv).valid).2 htally
  · rw [agrees_sorted hvalid]
    exact hagrees

/-! ## What a manifest says -/

theorem tables_nodup : (tables.map Prod.fst).Nodup := by decide

theorem addShare_tables (table bytes : String) (shares : List Share) :
    (addShare table bytes shares).map Share.table = shares.map Share.table := by
  rw [addShare, List.map_map]
  refine List.map_congr_left fun s _ => ?_
  rw [Function.comp_apply]
  split <;> rfl

theorem shares_tables : shares.map Share.table = tables.map Prod.fst := by
  rw [shares, List.map_map]
  rfl

theorem portable_hashes {shares : List Share} (h : shares.map Share.table = tables.map Prod.fst) :
    Portable 1 (hashesValue host shares) := by
  rw [hashesValue, Identity.portable_obj, List.map_map, List.forall_mem_map]
  have hnodup : (shares.map Share.table).Nodup := h ▸ tables_nodup
  exact ⟨hnodup, fun s _ => Identity.portable_str _ _⟩

theorem portable_counts {shares : List Share} (h : shares.map Share.table = tables.map Prod.fst)
    (hcounts : ∀ s ∈ shares, I64.inRange s.count = true) : Portable 1 (countsValue shares) := by
  rw [countsValue, Identity.portable_obj, List.map_map, List.forall_mem_map]
  have hnodup : (shares.map Share.table).Nodup := h ▸ tables_nodup
  exact ⟨hnodup, fun s hs => Identity.portable_int.2 (hcounts s hs)⟩

theorem portable_watermarks (hevents : I64.inRange t.events = true)
    (hnodup : (t.diagnostics.map Prod.fst).Nodup)
    (hmarks : ∀ f ∈ t.diagnostics, Portable 0 f.2) : Portable 2 t.watermarks := by
  rw [Tally.watermarks, Identity.portable_obj]
  simp only [List.forall_mem_cons]
  exact ⟨by simp, Identity.portable_int.2 hevents, Identity.portable_obj.2 ⟨hnodup, hmarks⟩,
    by simp⟩

/-- What the manifest of `export` says of what was read. -/
def Tally.fields (host : Host) (t : Tally) : List (String × Value) :=
  [("counts", countsValue t.shares), ("table_sha256", hashesValue host t.shares),
    ("watermarks", t.watermarks), ("sha256", .str (host.sha256 t.covered))]

/-- The record with the manifest can be read back. -/
theorem portable_record {rest : List (String × Value)}
    (htables : t.shares.map Share.table = tables.map Prod.fst)
    (hcounts : ∀ s ∈ t.shares, I64.inRange s.count = true) (hmarks : Portable 2 t.watermarks)
    (hnodup : ((t.fields host ++ rest).map Prod.fst).Nodup) (hrest : ∀ f ∈ rest, Portable 0 f.2) :
    Portable 127 (.obj [("manifest", .obj (t.fields host ++ rest))]) := by
  have hfields : ∀ f ∈ t.fields host, Portable 2 f.2 := by
    simp only [Tally.fields, List.forall_mem_cons]
    exact ⟨(portable_counts htables hcounts).mono (by omega), (portable_hashes htables).mono (by omega),
      hmarks, Identity.portable_str _ _, by simp⟩
  have hmanifest : Portable 3 (.obj (t.fields host ++ rest)) := by
    refine Identity.portable_obj.2 ⟨hnodup, ?_⟩
    rw [List.forall_mem_append]
    exact ⟨hfields, fun f hf => (hrest f hf).mono (by omega)⟩
  refine Identity.portable_obj.2 ⟨by simp, ?_⟩
  simp only [List.forall_mem_cons]
  exact ⟨hmanifest.mono (by omega), by simp⟩

theorem agrees_fields {rest : List (String × Value)} (hcounts : (countsValue t.shares).valid = true)
    (hhashes : (hashesValue host t.shares).valid = true) (hmarks : t.watermarks.valid = true) :
    t.agrees host (.obj (t.fields host ++ rest)) = true := by
  have hcountsIndex : (Value.obj (t.fields host ++ rest)).index "counts" = countsValue t.shares := rfl
  have hhashesIndex : (Value.obj (t.fields host ++ rest)).index "table_sha256" =
      hashesValue host t.shares := rfl
  have hmarksIndex : (Value.obj (t.fields host ++ rest)).index "watermarks" = t.watermarks := rfl
  have hsha : (Value.obj (t.fields host ++ rest)).index "sha256" = .str (host.sha256 t.covered) := rfl
  rw [Tally.agrees, hcountsIndex, hhashesIndex, hmarksIndex, hsha, Value.eqv_self rfl,
    Value.eqv_self hcounts, Value.eqv_self hhashes, Value.eqv_self hmarks]
  rfl

end written

/-! ## The reported identity -/

theorem lookup_foldl_insertField {fields : List (String × Value)}
    (hn : (fields.map Prod.fst).Nodup) (out : List (String × Value)) (k : String) :
    lookup k (fields.foldl (fun out f => insertField f.1 f.2 out) out) =
      (lookup k fields).or (lookup k out) := by
  induction fields generalizing out with
  | nil => rfl
  | cons f fields ih =>
    obtain ⟨k', v⟩ := f
    rw [List.map_cons, List.nodup_cons] at hn
    rw [List.foldl_cons, ih hn.2, lookup_cons]
    by_cases hk : k' = k
    · subst hk
      have hnone : lookup k' fields = none := lookup_eq_none.2 hn.1
      rw [if_pos rfl, hnone, lookup_insertField_self]
      rfl
    · rw [if_neg hk, lookup_insertField_of_ne _ _ _ _ hk]

theorem foldl_set_obj (fields out : List (String × Value)) :
    fields.foldl (fun (r : Value) f => r.set f.1 f.2) (.obj out) =
      Value.obj (fields.foldl (fun out f => insertField f.1 f.2 out) out) := by
  induction fields generalizing out with
  | nil => rfl
  | cons f fields ih => exact ih _

/-- The manifest is put over the header. -/
theorem get_report {out fields : List (String × Value)} (hn : (fields.map Prod.fst).Nodup)
    {k p : String} (hk : k ≠ "archive_path") :
    (report (.obj out) fields p).get k = (lookup k fields).or (lookup k out) := by
  rw [report, foldl_set_obj, Value.get_set_of_ne (Ne.symm hk)]
  exact lookup_foldl_insertField hn out k

section accepted

variable {host : Host} {text : String} {c : Contents} {t : Tally}

theorem Accepts.headerOf_eq (h : Accepts host text c t) : headerOf host text = c.header := by
  rw [headerOf, records, h.read]
  rfl

theorem Accepts.manifestOf_eq (h : Accepts host text c t) :
    manifestOf host text = some c.manifest := by
  rw [manifestOf, records, h.read]
  show (c.rows ++ [c.record]).findSome? _ = _
  rw [List.findSome?_append, List.findSome?_eq_none_iff.2 h.rows]
  simp [h.record]

theorem Accepts.rowsOf_eq (h : Accepts host text c t) : rowsOf host text = c.rows := by
  rw [rowsOf, records, h.read]
  show (c.rows ++ [c.record]).takeWhile _ = _
  rw [List.takeWhile_append_of_pos (by simpa using h.rows), List.takeWhile_cons_of_neg (by simp [h.record])]
  exact List.append_nil _

/-- Every row is of the session of the header. -/
theorem foldlM_addRow_session {header : Value} {rows : List Value} {t t' : Tally}
    (h : rows.foldlM (addRow host header) t = .ok t') : ∀ row ∈ rows,
      ((row.index "row").index "session_id").eqv (header.index "session_id") = true := by
  induction rows generalizing t with
  | nil => simp
  | cons row rows ih =>
    rw [List.foldlM_cons] at h
    obtain ⟨t₁, hrow, h⟩ := bind_ok h
    obtain ⟨table, bytes, -, -, hsession, -⟩ := addRow_ok_iff.1 hrow
    exact List.forall_mem_cons.2 ⟨hsession, ih h⟩

theorem Accepts.header_obj (h : Accepts host text c t) : ∃ out, c.header = .obj out := by
  obtain ⟨-, hlength, -⟩ := checkHeader_ok_iff.1 h.header
  cases hheader : c.header with
  | obj out => exact ⟨out, rfl⟩
  | null | bool | num | str | arr => simp [hheader, Value.asObject] at hlength

/-- What is read is a document. -/
theorem Accepts.valid (hr : host.ReadsBounded) (h : Accepts host text c t) :
    ∀ v ∈ c.header :: (c.rows ++ [c.record]), v.valid = true := by
  intro v hv
  obtain ⟨raw, -, hraw⟩ := mem_of_mapM_ok h.read hv
  obtain ⟨x, hx, hstrict⟩ := bind_ok hraw
  exact strict_valid (hr.range hx) hstrict

theorem Accepts.manifest_nodup (hr : host.ReadsBounded) (h : Accepts host text c t)
    {fields : List (String × Value)} (hm : c.manifest = .obj fields) :
    (fields.map Prod.fst).Nodup := by
  have hrecord : c.record.valid = true := h.valid hr c.record (by simp)
  have hget := h.record
  cases hobj : c.record with
  | obj out =>
    rw [hobj] at hrecord hget
    have hmanifest := (Value.valid_obj.1 hrecord).2 _ (mem_of_lookup hget)
    rw [hm] at hmanifest
    exact (Value.valid_obj.1 hmanifest).1
  | null | bool | num | str | arr =>
    rw [hobj] at hget
    cases hget

end accepted

/-- What of the header says which archive it is. -/
def identity : List String := ["archive_id", "session_id", "snapshot_revision", "format"]

/-- The manifest names no other archive than the header. -/
def SameIdentity (host : Host) (text : String) : Prop :=
  ∀ k ∈ identity, ∀ v, (manifestOf host text).bind (fun m => m.get k) = some v →
    (headerOf host text).get k = some v

/-- The reported identity is that of the covered header if and only if the manifest names no other;
then it is that of every row. -/
theorem reported_iff {host : Host} {path : Except String String} {text : String} {r : Value}
    (hr : host.ReadsBounded) (h : verify host path text = .ok r) :
    ((∀ k ∈ identity, r.get k = (headerOf host text).get k) ↔ SameIdentity host text) ∧
      (SameIdentity host text → ∀ row ∈ rowsOf host text,
        (row.index "row").index "session_id" = r.index "session_id") := by
  obtain ⟨c, t, fields, p, haccepts, hm, -, rfl⟩ := verify_ok_iff.1 h
  obtain ⟨out, hout⟩ := haccepts.header_obj
  have hn := haccepts.manifest_nodup hr hm
  have hget : ∀ k ∈ identity, (report c.header fields p).get k =
      (lookup k fields).or ((headerOf host text).get k) := by
    intro k hk
    have hpath : k ≠ "archive_path" := by
      rintro rfl
      revert hk
      decide
    rw [haccepts.headerOf_eq, hout]
    exact get_report hn hpath
  have hiff : (∀ k ∈ identity, (report c.header fields p).get k = (headerOf host text).get k) ↔
      SameIdentity host text := by
    refine forall₂_congr fun k hk => ?_
    rw [hget k hk, haccepts.manifestOf_eq, Option.bind_some, hm, Value.get_obj]
    cases lookup k fields with
    | none => simp
    | some v => simp [eq_comm]
  refine ⟨hiff, fun hsame row hrow => ?_⟩
  have hreported := hiff.2 hsame "session_id" (by decide)
  obtain ⟨-, -, -, -, id, hid, -⟩ := checkHeader_ok_iff.1 haccepts.header
  obtain ⟨first, -, htally⟩ := haccepts.tally
  have hsession := foldlM_addRow_session htally row (haccepts.rowsOf_eq ▸ hrow)
  have hindex : c.header.index "session_id" = .str id := index_eq_str.2 hid
  rw [haccepts.headerOf_eq, hid] at hreported
  rw [hindex, eqv_str] at hsession
  rw [hsession, index_eq_str.2 hreported]

/-! ## Another session in the manifest -/

def sampleId : String := "a2f1b0c4-6d3e-4f5a-8b7c-9d0e1f2a3b4c"

def otherId : String := "b7e2c1d5-7e4f-4a6b-9c8d-0e1f2a3b4c5d"

def sampleHeader : Value :=
  .obj [("format", .str "sda-archive-2"),
    ("archive_id", .str "c3d4e5f6-8a9b-4c7d-ae0f-1a2b3c4d5e6f"), ("session_id", .str sampleId),
    ("snapshot_revision", .int 1)]

def sampleRow : Value :=
  .obj [("table", .str "agent_sessions"), ("row", .obj [("session_id", .str sampleId)])]

/-- SHA-256 as it is on the texts of the sample, and no two texts alike. -/
def sampleSha256 (text : String) : String :=
  if text = "" then "e3b0c44298fc1c149afbf4c8996fb92427ae41e4649b934ca495991b7852b855"
  else if text = Identity.pythonEncoded textHost sampleHeader ++ "\n" ++
      (Identity.pythonEncoded textHost sampleRow ++ "\n") then
    "923f2094959a6b423c8dbc276a042a2349833a78b39bc1d479aa151908709502"
  else if text = Identity.pythonEncoded textHost sampleRow ++ "\n" then
    "72b3e35a1be2a2a212fc0a05d77109bbf6b28a4f72d442f739e64efb09a2fe19"
  else "no hash of " ++ text

def archiveHost : Host := { textHost with sha256 := sampleSha256 }

theorem archiveHost_prints : archiveHost.Prints := textHost_prints

theorem archiveHost_readsBounded : archiveHost.ReadsBounded where
  shows := textHost_readsBounded.shows
  reads := textHost_readsBounded.reads
  range := textHost_readsBounded.range
  limit := textHost_readsBounded.limit

def sampleTally : Tally :=
  { covered := Identity.pythonEncoded archiveHost sampleHeader ++ "\n" : Tally }.add "agent_sessions"
    (Identity.pythonEncoded archiveHost sampleRow ++ "\n")

/-- The manifest of the sample, with a session of its own. -/
def sampleManifest : Value :=
  .obj (sampleTally.fields archiveHost ++ [("session_id", .str otherId)])

def sampleArchive : String :=
  .ofList (written archiveHost (sampleHeader :: ([sampleRow] ++ [.obj [("manifest", sampleManifest)]])))

theorem addRow_sampleRow : addRow archiveHost sampleHeader
    { covered := Identity.pythonEncoded archiveHost sampleHeader ++ "\n" } sampleRow =
      .ok sampleTally := by
  refine addRow_ok_iff.2 ⟨"agent_sessions", Identity.pythonEncoded archiveHost sampleRow ++ "\n", rfl,
    by decide, ?_, rfl, line_ok archiveHost_prints _, ?_⟩
  · exact Value.eqv_self (v := .str sampleId) rfl
  · exact mark_ok_iff.2 (.inr (.inr ⟨by decide, by decide, rfl⟩))

theorem portable_sampleHeader : Identity.Portable 1 sampleHeader := by
  refine Identity.portable_obj.2 ⟨by decide, ?_⟩
  simp only [List.forall_mem_cons]
  exact ⟨Identity.portable_str _ _, Identity.portable_str _ _, Identity.portable_str _ _,
    Identity.portable_int.2 (by decide), by simp⟩

theorem portable_sampleRow : Identity.Portable 2 sampleRow := by
  refine Identity.portable_obj.2 ⟨by decide, ?_⟩
  simp only [List.forall_mem_cons]
  refine ⟨Identity.portable_str _ _, Identity.portable_obj.2 ⟨by decide, ?_⟩, by simp⟩
  simp only [List.forall_mem_cons]
  exact ⟨Identity.portable_str _ _, by simp⟩

theorem sampleTally_tables : sampleTally.shares.map Share.table = tables.map Prod.fst :=
  (addShare_tables _ _ _).trans shares_tables

theorem sampleTally_inRange : ∀ s ∈ sampleTally.shares, I64.inRange s.count = true := by decide

theorem portable_sampleMarks : Identity.Portable 2 sampleTally.watermarks :=
  portable_watermarks (by decide) List.nodup_nil (by simp [sampleTally, Tally.add])

theorem portable_sampleRecord : Identity.Portable 127 (.obj [("manifest", sampleManifest)]) :=
  portable_record sampleTally_tables sampleTally_inRange portable_sampleMarks
    (by simp [Tally.fields]) (by simp [Identity.portable_str])

theorem accepts_sampleArchive : Accepts archiveHost sampleArchive
    ⟨sampleHeader.sorted, [sampleRow.sorted], .obj [("manifest", sampleManifest.sorted)],
      sampleManifest.sorted⟩ sampleTally := by
  refine accepts_written archiveHost_prints archiveHost_readsBounded.toReadsText
    (String.toList_ofList) (portable_sampleHeader.mono (by omega))
    (by simpa using portable_sampleRow.mono (by omega)) portable_sampleRecord ?_
    (by simp [sampleRow, Value.get, lookup]) ?_
    (agrees_fields (portable_counts sampleTally_tables sampleTally_inRange).valid
      (portable_hashes sampleTally_tables).valid portable_sampleMarks.valid)
  · exact checkHeader_ok_iff.2 ⟨rfl, rfl, by decide, ⟨_, rfl, rfl⟩, _, rfl, rfl⟩
  · rw [List.foldlM_cons, addRow_sampleRow]
    rfl

/-- What is reported of the sample. -/
def sampleReport : Value :=
  report sampleHeader.sorted (sampleManifest.sorted.asObject.getD []) "/archive.jsonl"

theorem verify_sampleArchive :
    verify archiveHost (.ok "/archive.jsonl") sampleArchive = .ok sampleReport :=
  verify_ok_iff.2 ⟨_, _, _, _, accepts_sampleArchive, Value.sorted_obj _, rfl, rfl⟩

theorem reported_iff_sample :
    verify archiveHost (.ok "/archive.jsonl") sampleArchive = .ok sampleReport ∧
      ((∀ k ∈ identity, sampleReport.get k = (headerOf archiveHost sampleArchive).get k) ↔
        SameIdentity archiveHost sampleArchive) :=
  ⟨verify_sampleArchive, (reported_iff archiveHost_readsBounded verify_sampleArchive).1⟩

/-- The archive of one session is reported as that of another. -/
theorem exists_other_session : ∃ r, verify archiveHost (.ok "/archive.jsonl") sampleArchive = .ok r ∧
    (headerOf archiveHost sampleArchive).get "session_id" = some (.str sampleId) ∧
    (∀ row ∈ rowsOf archiveHost sampleArchive,
      (row.index "row").index "session_id" = .str sampleId) ∧
    rowsOf archiveHost sampleArchive ≠ [] ∧ r.get "session_id" = some (.str otherId) := by
  have haccepts := accepts_sampleArchive
  have hrow : ((sampleRow.sorted.index "row").index "session_id") = .str sampleId := by
    rw [Value.index_sorted portable_sampleRow.valid,
      Value.index_sorted (Value.index_valid portable_sampleRow.valid _)]
    rfl
  have hvalid : sampleManifest.valid = true :=
    @Value.get_valid _ sampleManifest "manifest" portable_sampleRecord.valid rfl
  have hother : sampleManifest.sorted.get "session_id" = some (.str otherId) :=
    (Value.get_sorted_str hvalid).2 rfl
  refine ⟨sampleReport, verify_sampleArchive, ?_, ?_, ?_, ?_⟩
  · rw [haccepts.headerOf_eq]
    exact (Value.get_sorted_str portable_sampleHeader.valid).2 rfl
  · rw [haccepts.rowsOf_eq]
    simpa using hrow
  · rw [haccepts.rowsOf_eq]
    simp
  · obtain ⟨out, hout⟩ := haccepts.header_obj
    obtain ⟨fields, hfields⟩ : ∃ fields, sampleManifest.sorted = .obj fields :=
      ⟨_, Value.sorted_obj _⟩
    have hn := haccepts.manifest_nodup archiveHost_readsBounded hfields
    have hout : sampleHeader.sorted = .obj out := hout
    rw [hfields, Value.get_obj] at hother
    rw [sampleReport, hout, hfields, Value.asObject_obj, Option.getD_some, get_report hn (by decide),
      hother]
    rfl

end Archive

end StateDrivenAgent
