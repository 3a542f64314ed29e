import StateDrivenAgent.Agent.Tools
import StateDrivenAgent.Json.Trimming
import StateDrivenAgent.Spec.Labels
import StateDrivenAgent.Verify.Evidence
import StateDrivenAgent.Verify.PythonEncoding
import StateDrivenAgent.Verify.StrictJson

/-!
# Descriptions of artifacts

A model whose answer lacks an artifact is told to write the text `describe_artifact` makes of it. The
check finds a table again in its description, row by row (`tableRows_rowLines`). It finds a number
behind its label up to the exponent (`checkLabelled_describe_iff`), so the description of a number
that is printed with an exponent is refused.
-/

namespace StateDrivenAgent

open Decimal Text

namespace Text

/-- The lines of joined texts, when none is empty or ends with a carriage return. -/
theorem lines_joinWith {l : String} {ls : List String} (h : ∀ part ∈ l :: ls,
    '\n' ∉ part.toList ∧ part.toList ≠ [] ∧ part.toList.getLast? ≠ some '\r') :
    lines (joinWith "\n" (l :: ls)) = l :: ls := by
  have hsplit : splitList '\n' (joinWith "\n" (l :: ls)).toList = (l :: ls).map String.toList :=
    splitList_join rfl fun part hp => (h part hp).1
  have hlast : ((l :: ls).map String.toList).getLast? ≠ some [] := by
    intro hnil
    have hmem := List.mem_of_getLast? hnil
    obtain ⟨part, hpart, hempty⟩ := List.mem_map.1 hmem
    exact (h part hpart).2.1 hempty
  rw [lines, hsplit, if_neg hlast, List.map_map]
  refine (List.map_congr_left fun part hp => ?_).trans (List.map_id _)
  rw [Function.comp_apply, if_neg (h part hp).2.2, String.ofList_toList]
  rfl

theorem mem_of_mem_splitList {m x : Char} {cs part : List Char} (h : part ∈ splitList m cs)
    (hx : x ∈ part) : x ∈ cs := by
  induction cs generalizing part with
  | nil =>
    rw [splitList, List.mem_singleton] at h
    rwa [h] at hx
  | cons c cs ih =>
    rw [splitList] at h
    split_ifs at h
    · rcases List.mem_cons.1 h with rfl | h
      · cases hx
      · exact List.mem_cons_of_mem _ (ih h hx)
    · split at h
      next heq =>
        rw [List.mem_singleton.1 h, List.mem_singleton] at hx
        exact hx ▸ List.mem_cons_self
      next y ys heq =>
        rcases List.mem_cons.1 h with rfl | h
        · rcases List.mem_cons.1 hx with rfl | hx
          · exact List.mem_cons_self
          · exact List.mem_cons_of_mem _ (ih (heq ▸ List.mem_cons_self) hx)
        · exact List.mem_cons_of_mem _ (ih (heq ▸ List.mem_cons_of_mem _ h) hx)

theorem newline_of_mem_lines {s line : String} (h : line ∈ lines s) : '\n' ∉ line.toList := by
  rw [lines] at h
  obtain ⟨part, hpart, rfl⟩ := List.mem_map.1 h
  have hsplit : part ∈ splitList '\n' s.toList := by
    split_ifs at hpart
    · exact List.mem_of_mem_dropLast hpart
    · exact hpart
  have hnew := not_mem_of_mem_splitList hsplit
  rw [String.toList_ofList]
  split_ifs
  · exact fun hmem => hnew (List.mem_of_mem_dropLast hmem)
  · exact hnew

end Text

namespace Engine

/-! ## Rows of a table -/

section rows

variable {host : Host}

/-- A cell as a row has it. -/
structure Cell (c : String) : Prop where
  trimmed : Trimmed c.toList
  bar : '|' ∉ c.toList
  newline : '\n' ∉ c.toList

/-- The cells of a row that is no rule. -/
structure Row (host : Host) (row : List String) : Prop where
  ne : row ≠ []
  plain : row.all (host.isMatch "^:?-\x7b3,\x7d:?$") = false
  cells : ∀ c ∈ row, Cell c

theorem cell_of_mem_tableCells {line c : String} (hline : '\n' ∉ line.toList)
    (h : c ∈ tableCells line) : Cell c := by
  have hsplit : c ∈ (Text.split line '|').map Text.trim := by
    rw [tableCells] at h
    split_ifs at h
    · exact List.mem_of_mem_drop (List.mem_of_mem_dropLast h)
    · exact List.mem_of_mem_drop h
    · exact List.mem_of_mem_dropLast h
    · exact h
  rw [Text.split, List.map_map] at hsplit
  obtain ⟨part, hpart, rfl⟩ := List.mem_map.1 hsplit
  rw [Function.comp_apply]
  obtain ⟨b, b', -, -, heq, htrimmed⟩ := trim_spec part
  have hsub : ∀ x ∈ (trim (.ofList part)).toList, x ∈ part := by
    intro x hx
    rw [heq]
    exact List.mem_append_right _ (List.mem_append_left _ hx)
  refine ⟨htrimmed, fun hbar => not_mem_of_mem_splitList hpart (hsub _ hbar), fun hnew => ?_⟩
  exact hline (mem_of_mem_splitList hpart (hsub _ hnew))

/-- Every row found in lines is a row with trimmed cells. -/
theorem row_of_mem_tableRows {rows : List (List String)} {lines : List String}
    (hrows : ∀ row ∈ rows, Row host row) (hlines : ∀ line ∈ lines, '\n' ∉ line.toList) :
    ∀ row ∈ tableRows host rows lines, Row host row := by
  induction lines generalizing rows with
  | nil => exact hrows
  | cons line lines ih =>
    obtain ⟨hline, hrest⟩ := List.forall_mem_cons.1 hlines
    have htrim : '\n' ∉ (trim line).toList := by
      obtain ⟨b, b', -, -, heq, -⟩ := trim_spec line.toList
      rw [String.ofList_toList] at heq
      rw [heq, List.mem_append, List.mem_append, not_or, not_or] at hline
      exact hline.2.1
    rw [tableRows]
    dsimp only
    split_ifs with hbar hskip hnone
    · exact ih hrows hrest
    · refine ih ?_ hrest
      rw [Bool.or_eq_true, not_or, List.isEmpty_iff, Bool.not_eq_true] at hskip
      intro row hrow
      rcases List.mem_append.1 hrow with hrow | hrow
      · exact hrows row hrow
      · rw [List.mem_singleton.1 hrow]
        exact ⟨hskip.1, hskip.2, fun c hc => cell_of_mem_tableCells htrim hc⟩
    · exact ih hrows hrest
    · exact hrows

theorem row_of_mem_lines {text : String} :
    ∀ row ∈ tableRows host [] (Text.lines text), Row host row :=
  row_of_mem_tableRows (fun _ hrow => nomatch hrow) fun _ hline => newline_of_mem_lines hline

/-- A row as the description writes it. -/
def rowLine (row : List String) : String := "| " ++ joinWith " | " row ++ " |"

theorem rowLine_toList (c : String) (row : List String) : (rowLine (c :: row)).toList =
    '|' :: (c :: row).flatMap fun c => ' ' :: (c.toList ++ [' ', '|']) := by
  have hjoin : (joinWith " | " (c :: row)).toList ++ [' ', '|'] =
      c.toList ++ ' ' :: '|' :: row.flatMap fun c => ' ' :: (c.toList ++ [' ', '|']) := by
    induction row generalizing c with
    | nil => simp [joinWith]
    | cons d row ih =>
      have hsep : (" | " : String).toList = [' ', '|', ' '] := rfl
      rw [joinWith_cons_cons, List.append_assoc, ih, hsep, List.flatMap_cons]
      simp
  have hopen : ("| " : String).toList = ['|', ' '] := rfl
  have hclose : (" |" : String).toList = [' ', '|'] := rfl
  rw [rowLine, String.toList_append, String.toList_append, hopen, hclose, List.append_assoc, hjoin,
    List.flatMap_cons]
  simp

theorem splitList_row {row : List String} (h : ∀ c ∈ row, Cell c) :
    splitList '|' (row.flatMap fun c => ' ' :: (c.toList ++ [' ', '|'])) =
      row.map (fun c => ' ' :: (c.toList ++ [' '])) ++ [[]] := by
  induction row with
  | nil => rfl
  | cons c row ih =>
    obtain ⟨hc, hrow⟩ := List.forall_mem_cons.1 h
    have hbar : '|' ∉ ' ' :: (c.toList ++ [' ']) := by
      simp only [List.mem_cons, List.mem_append, List.not_mem_nil, or_false, not_or]
      exact ⟨by decide, hc.bar, by decide⟩
    have hcell : (c :: row).flatMap (fun c => ' ' :: (c.toList ++ [' ', '|'])) =
        (' ' :: (c.toList ++ [' '])) ++
          '|' :: row.flatMap fun c => ' ' :: (c.toList ++ [' ', '|']) := by
      simp
    rw [hcell, splitList_append hbar, ih hrow]
    rfl

theorem trim_padded {c : String} (h : Cell c) : trim (.ofList (' ' :: (c.toList ++ [' ']))) = c := by
  have hblank : Spacing [' '] := by
    intro x hx
    rw [List.mem_singleton.1 hx]
    rfl
  have htrim := trim_eq hblank h.trimmed hblank
  rwa [String.ofList_toList] at htrim

/-- A written row has the cells of the row. -/
theorem tableCells_rowLine {row : List String} (hne : row ≠ []) (h : ∀ c ∈ row, Cell c) :
    tableCells (rowLine row) = row := by
  obtain ⟨c, rest, rfl⟩ := List.exists_cons_of_ne_nil hne
  have hparts : (Text.split (rowLine (c :: rest)) '|').map Text.trim = "" :: ((c :: rest) ++ [""]) := by
    have hblank : trim (.ofList []) = "" := trim_blank .nil
    have hcells : (c :: rest).map (fun c => trim (.ofList (' ' :: (c.toList ++ [' '])))) = c :: rest :=
      (List.map_congr_left fun x hx => trim_padded (h x hx)).trans (List.map_id _)
    rw [Text.split, rowLine_toList, splitList, if_pos rfl, splitList_row h]
    rw [List.map_map, List.map_cons, List.map_append, List.map_map, List.map_singleton,
      Function.comp_apply, hblank]
    exact congrArg (fun l => "" :: (l ++ [""])) hcells
  rw [tableCells, hparts, List.head?_cons, if_pos rfl, List.drop_one, List.tail_cons,
    List.getLast?_concat, if_pos rfl, List.dropLast_concat]

theorem last_rowLine (c : String) (row : List String) :
    (rowLine (c :: row)).toList.getLast? = some '|' := by
  rw [rowLine]
  have hclose : (" |" : String).toList = [' ', '|'] := rfl
  rw [String.toList_append, hclose, List.getLast?_append]
  rfl

theorem head_rowLine (c : String) (row : List String) :
    (rowLine (c :: row)).toList.head? = some '|' := by
  rw [rowLine_toList]
  rfl

theorem trim_rowLine {row : List String} (hne : row ≠ []) : trim (rowLine row) = rowLine row := by
  obtain ⟨c, rest, rfl⟩ := List.exists_cons_of_ne_nil hne
  have htrimmed : Trimmed (rowLine (c :: rest)).toList := by
    constructor
    · intro x hx
      rw [head_rowLine, Option.some.injEq] at hx
      rw [← hx]
      rfl
    · intro x hx
      rw [last_rowLine, Option.some.injEq] at hx
      rw [← hx]
      rfl
  have htrim := trim_ofList htrimmed
  rwa [String.ofList_toList] at htrim

/-- The lines of a written table are its rows; the rule is passed over. -/
theorem tableRows_rowLine {row : List String} (hne : row ≠ []) (h : ∀ c ∈ row, Cell c)
    (rows : List (List String)) (lines : List String) :
    tableRows host rows (rowLine row :: lines) =
      if row.all (host.isMatch "^:?-\x7b3,\x7d:?$") then tableRows host rows lines
      else tableRows host (rows ++ [row]) lines := by
  have hbar : (trim (rowLine row)).toList.contains '|' = true := by
    obtain ⟨c, rest, rfl⟩ := List.exists_cons_of_ne_nil hne
    rw [trim_rowLine hne, List.contains_iff_mem]
    exact List.mem_of_mem_head? (head_rowLine c rest)
  have hempty : row.isEmpty = false := List.isEmpty_eq_false_iff.2 hne
  rw [tableRows]
  dsimp only
  rw [if_pos hbar, trim_rowLine hne, tableCells_rowLine hne h, hempty, Bool.false_or]

/-- The rows of written lines, behind those found so far. -/
theorem tableRows_rowLines {more : List (List String)} (h : ∀ row ∈ more, Row host row)
    (rows : List (List String)) : tableRows host rows (more.map rowLine) = rows ++ more := by
  induction more generalizing rows with
  | nil => rw [List.map_nil, tableRows, List.append_nil]
  | cons row more ih =>
    obtain ⟨hrow, hmore⟩ := List.forall_mem_cons.1 h
    rw [List.map_cons, tableRows_rowLine hrow.ne hrow.cells, hrow.plain, if_neg Bool.false_ne_true,
      ih hmore, List.append_assoc, List.singleton_append]

/-! ## Tables -/

/-- A table as an artifact. -/
def tableValue (rows : List (List String)) : Value := .arr (rows.map fun row => .arr (row.map .str))

/-- What is taken for a table. -/
structure Table (rows : List (List String)) : Prop where
  two : 2 ≤ rows.length
  width : ∀ row ∈ rows, row.length = rows.head?.elim 0 List.length
  keys : (rows.tail.map fun row => row.head?.getD "").Nodup

theorem parseMarkdownTable_some_iff {text : String} {a : Value} :
    parseMarkdownTable host text = some a ↔ Table (tableRows host [] (Text.lines text)) ∧
      a = tableValue (tableRows host [] (Text.lines text)) := by
  rw [parseMarkdownTable]
  generalize tableRows host [] (Text.lines text) = rows
  constructor
  · intro h
    split_ifs at h with hsize hkeys
    rw [Bool.or_eq_true, not_or, decide_eq_true_eq, Bool.not_eq_true, List.any_eq_false] at hsize
    refine ⟨⟨by omega, fun row hrow => ?_, by simpa using hkeys⟩, (Option.some.inj h).symm⟩
    simpa using hsize.2 row hrow
  · rintro ⟨htable, rfl⟩
    have hsize : (Decidable.decide (rows.length < 2) ||
        rows.any fun row => Decidable.decide (row.length ≠ rows.head?.elim 0 List.length)) = false := by
      rw [Bool.or_eq_false_iff, decide_eq_false_iff_not, List.any_eq_false]
      exact ⟨Nat.not_lt.2 htable.two, fun row hrow => by simp [htable.width row hrow]⟩
    rw [hsize, if_neg Bool.false_ne_true, decide_eq_true htable.keys]
    rfl

theorem describeRow_arr (row : List String) (first : Bool) :
    describeRow first (.arr (row.map .str)) =
      if first then [rowLine row, rowLine (row.map fun _ => "---")] else [rowLine row] := by
  have hcells : ((Value.arr (row.map Value.str)).asArray.getD []).map (fun c => c.asStr.getD "") =
      row := by
    rw [Value.asArray, Option.getD_some, List.map_map]
    exact List.map_id _
  rw [describeRow, hcells]
  rfl

/-- The description of a table: its rows, with the rule behind the first. -/
theorem describeArtifact_table {check : Value}
    (hkind : ((check.get "kind").bind Value.asStr).getD "" = "markdown_table")
    (row : List String) (rows : List (List String)) :
    describeArtifact host check (tableValue (row :: rows)) =
      joinWith "\n" (rowLine row :: rowLine (row.map fun _ => "---") :: rows.map rowLine) := by
  rw [describeArtifact, hkind, if_pos rfl, tableValue, Value.asArray]
  dsimp only
  rw [List.map_cons, List.take_succ_cons, List.take_zero, List.drop_succ_cons, List.drop_zero,
    List.flatMap_singleton, describeRow_arr, if_pos rfl, List.flatMap_map]
  congr 1
  have hrows : rows.flatMap (fun row => describeRow false (.arr (row.map .str))) = rows.map rowLine := by
    induction rows with
    | nil => rfl
    | cons row rows ih => rw [List.flatMap_cons, ih, describeRow_arr, if_neg Bool.false_ne_true]; rfl
  rw [hrows]
  rfl

/-- A written row is one line. -/
theorem line_rowLine {row : List String} (hne : row ≠ []) (h : ∀ c ∈ row, Cell c) :
    '\n' ∉ (rowLine row).toList ∧ (rowLine row).toList ≠ [] ∧
      (rowLine row).toList.getLast? ≠ some '\r' := by
  obtain ⟨c, rest, rfl⟩ := List.exists_cons_of_ne_nil hne
  refine ⟨?_, ?_, ?_⟩
  · rw [rowLine_toList, List.mem_cons, not_or]
    refine ⟨by decide, fun hmem => ?_⟩
    obtain ⟨x, hx, hmem⟩ := List.mem_flatMap.1 hmem
    simp only [List.mem_cons, List.mem_append, List.not_mem_nil, or_false] at hmem
    rcases hmem with hmem | hmem | hmem | hmem
    · cases hmem
    · exact (h x hx).newline hmem
    · cases hmem
    · cases hmem
  · rw [rowLine_toList]
    exact List.cons_ne_nil _ _
  · rw [last_rowLine]
    decide

theorem cell_rule : Cell "---" := by
  refine ⟨⟨?_, ?_⟩, by decide, by decide⟩
  · rintro c ⟨⟩
    rfl
  · rintro c ⟨⟩
    rfl

/-- A table that was found in a text is found again in its description. -/
theorem parse_describe (hrule : host.isMatch "^:?-\x7b3,\x7d:?$" "---" = true) {check a : Value}
    {output : String} (hkind : ((check.get "kind").bind Value.asStr).getD "" = "markdown_table")
    (h : parseMarkdownTable host output = some a) :
    parseMarkdownTable host (describeArtifact host check a) = some a := by
  obtain ⟨htable, rfl⟩ := parseMarkdownTable_some_iff.1 h
  have hall : ∀ row ∈ tableRows host [] (Text.lines output), Row host row := row_of_mem_lines
  rw [parseMarkdownTable_some_iff]
  generalize tableRows host [] (Text.lines output) = rows at htable hall
  cases rows with
  | nil => exact absurd htable.two (by simp)
  | cons row rows =>
    obtain ⟨hrow, hrows⟩ := List.forall_mem_cons.1 hall
    have hdashes : ∀ c ∈ row.map fun _ => "---", Cell c := by
      intro c hc
      obtain ⟨_, -, rfl⟩ := List.mem_map.1 hc
      exact cell_rule
    have hne : (row.map fun _ => "---") ≠ [] := fun hnil => hrow.ne (List.map_eq_nil_iff.1 hnil)
    have hskip : (row.map fun _ => "---").all (host.isMatch "^:?-\x7b3,\x7d:?$") = true := by
      rw [List.all_map, List.all_eq_true]
      exact fun _ _ => hrule
    have hlines : Text.lines (describeArtifact host check (tableValue (row :: rows))) =
        rowLine row :: rowLine (row.map fun _ => "---") :: rows.map rowLine := by
      rw [describeArtifact_table hkind]
      refine lines_joinWith fun part hpart => ?_
      rcases List.mem_cons.1 hpart with rfl | hpart
      · exact line_rowLine hrow.ne hrow.cells
      · rcases List.mem_cons.1 hpart with rfl | hpart
        · exact line_rowLine hne hdashes
        · obtain ⟨more, hmore, rfl⟩ := List.mem_map.1 hpart
          exact line_rowLine (hrows more hmore).ne (hrows more hmore).cells
    rw [hlines, tableRows_rowLine hrow.ne hrow.cells, hrow.plain, if_neg Bool.false_ne_true,
      tableRows_rowLine hne hdashes, if_pos hskip, tableRows_rowLines hrows]
    exact ⟨htable, rfl⟩

theorem numericCellEqual_self (host : Host) (s : String) : numericCellEqual host s s = true := by
  rw [numericCellEqual, Bool.and_not_self]
  simp

theorem mapM_some {α β : Type} {f : α → Option β} {g : α → β} {xs : List α}
    (h : ∀ x ∈ xs, f x = some (g x)) : xs.mapM f = some (xs.map g) := by
  induction xs with
  | nil => rfl
  | cons x xs ih =>
    obtain ⟨hx, hxs⟩ := List.forall_mem_cons.1 h
    rw [List.mapM_cons, hx, ih hxs]
    rfl

theorem keyedRows_table {rows : List (List String)} (ht : Table rows) (hne : ∀ row ∈ rows, row ≠ []) :
    keyedRows (rows.map fun row => .arr (row.map .str)) =
      some (rows.tail.map fun row => (row.head?.getD "", row.tail)) := by
  have hrow : ∀ row ∈ rows.tail, ((Value.arr (row.map .str)).asArray.bind fun cells =>
      (cells.head?.bind Value.asStr).bind fun key => (cells.tail.mapM Value.asStr).bind fun value =>
        some (key, value)) = some (row.head?.getD "", row.tail) := by
    intro row hmem
    obtain ⟨c, row, rfl⟩ := List.exists_cons_of_ne_nil (hne row (List.mem_of_mem_tail hmem))
    have hcells : (row.map Value.str).mapM Value.asStr = some row := by
      rw [List.mapM_map]
      exact (mapM_some (g := id) fun _ _ => rfl).trans (congrArg some (List.map_id _))
    rw [Value.asArray, Option.bind_some, List.map_cons, List.tail_cons, hcells]
    rfl
  have hkeys : ((rows.tail.map fun row => (row.head?.getD "", row.tail)).map Prod.fst).Nodup := by
    rw [List.map_map]
    exact ht.keys
  have hkeyed : (rows.map fun row => Value.arr (row.map .str)).tail.mapM (fun row => do
      let cells ← row.asArray
      let key ← cells.head?.bind Value.asStr
      let value ← cells.tail.mapM Value.asStr
      return (key, value)) = some (rows.tail.map fun row => (row.head?.getD "", row.tail)) := by
    rw [← List.map_tail, List.mapM_map]
    exact mapM_some hrow
  rw [keyedRows, hkeyed]
  exact if_pos hkeys

/-- A text in which the table is found passes the check of the table. -/
theorem checkTable_of_parse {rows : List (List String)} {text : String}
    (hrows : tableRows host [] (Text.lines text) = rows) (ht : Table rows)
    (hne : ∀ row ∈ rows, row ≠ []) : checkTable host text (tableValue rows) = true := by
  have hparse : parseMarkdownTable host text = some (tableValue rows) := by
    rw [parseMarkdownTable_some_iff, hrows]
    exact ⟨ht, rfl⟩
  have hhead : ∀ v ∈ (rows.map fun row => Value.arr (row.map .str)).head?, v.eqv v = true := by
    intro v hv
    obtain ⟨row, -, rfl⟩ := List.mem_map.1 (List.mem_of_mem_head? hv)
    apply Value.eqv_self
    rw [Value.valid_arr]
    exact List.forall_mem_map.2 fun _ _ => rfl
  have hnodup : ((rows.tail.map fun row => (row.head?.getD "", row.tail)).map Prod.fst).Nodup := by
    rw [List.map_map]
    exact ht.keys
  have hall : ∀ (cells : List String) (p : String × String), p ∈ cells.zip cells →
      numericCellEqual host p.1 p.2 = true := by
    intro cells p hp
    have hzip := @List.zip_map' String String String id id cells
    rw [List.map_id] at hzip
    rw [hzip] at hp
    obtain ⟨c, -, rfl⟩ := List.mem_map.1 hp
    exact numericCellEqual_self host c
  rw [checkTable, hparse, tableValue, Option.bind_some, Value.asArray]
  dsimp only
  rw [keyedRows_table ht hne, Bool.and_eq_true]
  constructor
  · cases hfirst : (rows.map fun row => Value.arr (row.map .str)).head? with
    | none => rfl
    | some v => exact hhead v hfirst
  · dsimp only
    rw [decide_eq_true rfl, Bool.true_and, List.all_eq_true]
    rintro ⟨key, cells⟩ hmem
    rw [lookup_of_mem hnodup hmem, Option.any_some, decide_eq_true rfl, Bool.true_and]
    exact List.all_eq_true.2 (hall cells)

end rows

/-! ## Numbers -/

/-- The expression of a number behind a label. -/
def numberExpression : String :=
  "\\s*\\$?\\s*([-+]?(?:\\d\x7b1,3\x7d(?:,\\d\x7b3\x7d)+|\\d+)(?:\\.\\d+)?)"

/-- What `regex` documents of the two expressions: a label and a number behind it are found from the
left, over its class of digits, and three dashes are a rule. -/
structure Finds (host : Host) (digit : Char → Bool) : Prop where
  ascii : Labels.AsciiDigits digit
  captures : ∀ {label : String} {re : Regex},
    host.regex (host.regexEscape label ++ numberExpression) = .ok re → ∀ text : String,
      re.captures text = (Labels.found digit label.toList text.toList).map fun x =>
        (x.1, some (.ofList x.2))
  rule : host.isMatch "^:?-\x7b3,\x7d:?$" "---" = true

/-- `serde_json` prints a double as a short numeral; an exponent is not zero and neither is a number
that is printed with one. -/
def Scientific (host : Host) : Prop :=
  ∀ f : F64, ∃ n : Numeral, host.floatText f = .ofList n.text ∧ n.Brief ∧
    (n.exponent ≠ none → n.exp ≠ 0 ∧ n.value ≠ 0)

/-- The text of a numeral before its exponent. -/
def mantissa (n : Numeral) : Numeral := { n with exponent := none }

theorem mantissa_brief {n : Numeral} (h : n.Brief) : (mantissa n).Brief where
  low := by
    show (-2 ^ 31 : Int) ≤ 0
    norm_num
  high := by
    show (0 : Int) < 2 ^ 31
    norm_num
  whole := h.whole
  fraction := h.fraction

theorem mantissa_text (n : Numeral) :
    (mantissa n).text = (if n.negative then ['-'] else []) ++ (n.whole ++ n.fractionText) := by
  show (if n.negative then ['-'] else []) ++ (n.whole ++ n.fractionText ++ []) = _
  rw [List.append_nil]

theorem text_mantissa (n : Numeral) :
    n.text = (mantissa n).text ++ Numeral.exponentText n.exponent := by
  rw [mantissa_text, Numeral.text, Numeral.unsigned, List.append_assoc, List.append_assoc,
    List.append_assoc]

/-- The exponent scales the value of the mantissa. -/
theorem value_mantissa (n : Numeral) : n.value = (mantissa n).value * 10 ^ n.exp := by
  have hmag : n.magnitude = (mantissa n).magnitude * 10 ^ n.exp := by
    have hexp : (mantissa n).exp = 0 := rfl
    have hfraction : (mantissa n).fraction = n.fraction := rfl
    have hwhole : (mantissa n).whole = n.whole := rfl
    rw [Numeral.magnitude, Numeral.magnitude, hexp, hfraction, hwhole, mul_assoc,
      ← zpow_add₀ (by norm_num), zero_sub, neg_add_eq_sub]
  rw [Numeral.value, Numeral.value, hmag]
  show _ = (if n.negative then _ else _) * _
  split
  · rw [neg_mul]
  · rfl

theorem value_ne_mantissa {n : Numeral} (hexp : n.exp ≠ 0) (hvalue : n.value ≠ 0) :
    (mantissa n).value ≠ n.value := by
  intro heq
  have hzero : (mantissa n).value ≠ 0 := heq ▸ hvalue
  have hpow : (10 : Rat) ^ n.exp = 1 := by
    have hmul := value_mantissa n
    rw [← heq] at hmul
    exact (mul_eq_left₀ hzero).1 hmul.symm
  exact hexp ((zpow_eq_one_iff_right₀ (by norm_num) (by norm_num)).1 hpow)

theorem ungrouped_mantissa (n : Numeral) : Labels.Ungrouped (mantissa n).text
    (if n.negative then ['-'] else []) n.whole n.fractionText where
  eq := mantissa_text n
  sign := by
    split
    · exact .inr ⟨'-', rfl, rfl⟩
    · exact .inl rfl
  whole_ne := n.whole_ne
  whole := n.whole_digits
  fraction := by
    rw [Numeral.fractionText]
    split
    next h => exact .inl rfl
    next h => exact .inr ⟨n.fraction, rfl, h, n.fraction_digits⟩

/-- The label a check looks for. -/
def labelOf (check : Value) : String := ((check.get "label").bind Value.asStr).getD ""

/-- The expression of the check's label compiles. -/
def LabelCompiles (host : Host) (check : Value) : Prop :=
  ∃ re, host.regex (host.regexEscape (labelOf check) ++ numberExpression) = .ok re

theorem replaceChar_mantissa (n : Numeral) :
    replaceChar (.ofList (mantissa n).text) ',' "" = .ofList (mantissa n).text := by
  have hchars : ∀ c ∈ (String.ofList (mantissa n).text).toList,
      (if c = ',' then ("" : String).toList else [c]) = [c] := by
    intro c hc
    rw [String.toList_ofList] at hc
    rw [if_neg]
    rintro rfl
    exact absurd (isNumberChar_text (mantissa n) _ hc) (by decide)
  rw [replaceChar, List.flatMap_congr hchars, List.flatMap_singleton', String.ofList_toList]

/-- The letters of the label of a check without one. -/
theorem inert_result {digit : Char → Bool} (ha : Labels.AsciiDigits digit) :
    ∀ c ∈ ("Result" : String).toList, Labels.Inert digit c := by
  have hletters : ("Result" : String).toList = ['R', 'e', 's', 'u', 'l', 't'] := rfl
  rw [hletters]
  simp only [List.forall_mem_cons]
  refine ⟨?_, ?_, ?_, ?_, ?_, ?_, fun _ h => nomatch h⟩
  all_goals exact ⟨rfl, rfl, rfl, ha _ (by decide)⟩

/-- The numbers that are found in the description of a number: the mantissa, and nothing else when
no exponent is printed. -/
theorem found_describe {host : Host} {digit : Char → Bool} (ha : Labels.AsciiDigits digit)
    {check : Value} {k : Number} {n : Numeral} (htext : k.text host = .ofList n.text)
    (hkind : ((check.get "kind").bind Value.asStr).getD "" = "number") :
    ∃ stop tail, Labels.found digit (labelOf check).toList
        (describeArtifact host check (.num k)).toList = (stop, (mantissa n).text) :: tail ∧
      (n.exponent = none → tail = [] ∧ stop = (describeArtifact host check (.num k)).toList.length) := by
  have hstops : Labels.Stops digit (Numeral.exponentText n.exponent) := by
    rcases n.exponentText_head with h | ⟨cs, h⟩
    · rw [h]
      rintro c ⟨⟩
    · rw [h]
      rintro c ⟨⟩
      exact ⟨ha 'e' (by decide), rfl, rfl⟩
  -- without a label the description begins with a word of its own
  obtain ⟨skipped, hdescribe, hskip, hlabel⟩ : ∃ skipped : List Char,
      (describeArtifact host check (.num k)).toList = skipped ++ ((labelOf check).toList ++
        ' ' :: ((mantissa n).text ++ Numeral.exponentText n.exponent)) ∧
      (∀ c ∈ skipped, Labels.Inert digit c) ∧ (skipped = [] ∨ (labelOf check).toList = []) := by
    have hne : ("number" : String) ≠ "markdown_table" := by decide
    have htail : ∀ label : String, (label ++ " " ++ String.ofList n.text).toList =
        label.toList ++ ' ' :: n.text := by
      intro label
      have hspace : (" " : String).toList = [' '] := rfl
      rw [String.toList_append, String.toList_append, hspace, String.toList_ofList,
        List.append_assoc, List.singleton_append]
    rw [describeArtifact, hkind, if_neg hne, if_pos rfl, labelOf, Value.text, htext,
      ← text_mantissa, htail]
    cases (check.get "label").bind Value.asStr with
    | none => exact ⟨("Result" : String).toList, rfl, inert_result ha, .inr rfl⟩
    | some label => exact ⟨[], rfl, fun c hc => absurd hc List.not_mem_nil, .inl rfl⟩
  obtain ⟨tail, hfound, hnil⟩ :=
    Labels.found_plain ha (ungrouped_mantissa n) hstops hskip hlabel
  refine ⟨_, tail, hdescribe ▸ hfound, fun hexp => ?_⟩
  have hempty : Numeral.exponentText n.exponent = [] := by
    rw [hexp]
    rfl
  exact ⟨hnil hempty, by rw [hdescribe, hempty, List.append_nil]⟩

/-- The description of a number passes exactly when it is printed without an exponent. -/
theorem checkLabelled_describe_iff {host : Host} {digit : Char → Bool} (hf : Finds host digit)
    {check : Value} {k : Number} {n : Numeral} (htext : k.text host = .ofList n.text)
    (hn : n.Brief) (hexp : n.exponent ≠ none → n.exp ≠ 0 ∧ n.value ≠ 0)
    (hkind : ((check.get "kind").bind Value.asStr).getD "" = "number") :
    checkLabelled host check (describeArtifact host check (.num k)) (.num k) = true ↔
      LabelCompiles host check ∧ n.exponent = none := by
  obtain ⟨stop, tail, hfound, hplain⟩ := found_describe hf.ascii htext hkind
  have hequal : decimalEqual (replaceChar (.ofList (mantissa n).text) ',' "") (k.text host) = true ↔
      (mantissa n).value = n.value := by
    rw [replaceChar_mantissa, htext]
    exact decimalEqual_text_iff (mantissa_brief hn) hn
  have hcaptures : ∀ re, host.regex (host.regexEscape (labelOf check) ++ numberExpression) = .ok re →
      (re.captures (describeArtifact host check (.num k))).filterMap (fun m =>
        m.2.map fun text => (m.1, text)) = (stop, .ofList (mantissa n).text) ::
          tail.map fun x => (x.1, .ofList x.2) := by
    intro re hre
    rw [hf.captures hre, hfound, List.filterMap_map]
    exact congrFun List.filterMap_eq_map' _
  rw [LabelCompiles, checkLabelled]
  unfold labelOf numberExpression at hcaptures ⊢
  cases hre : host.regex (host.regexEscape (((check.get "label").bind Value.asStr).getD "") ++
      "\\s*\\$?\\s*([-+]?(?:\\d\x7b1,3\x7d(?:,\\d\x7b3\x7d)+|\\d+)(?:\\.\\d+)?)") with
  | error e => simp
  | ok re =>
    have hone := hcaptures re hre
    simp only [hone]
    have hcompiles : ∃ re', (Except.ok re : Except String Regex) = .ok re' := ⟨re, rfl⟩
    rw [and_iff_right hcompiles]
    cases hexponent : n.exponent with
    | none =>
      obtain ⟨rfl, rfl⟩ := hplain hexponent
      have hends : endsNumeral (describeArtifact host check (.num k))
          (describeArtifact host check (.num k)).toList.length = true := by
        rw [endsNumeral, List.drop_length]
      have hzero : n.exp = 0 := by
        rw [Numeral.exp, hexponent]
        rfl
      have hvalue : (mantissa n).value = n.value := by
        rw [value_mantissa n, hzero, zpow_zero, mul_one]
      simp only [List.map_nil, hends, Value.asNumber, Option.any_some, Bool.true_and]
      exact iff_of_true (hequal.2 hvalue) trivial
    | some e =>
      refine iff_of_false ?_ (by simp)
      cases tail with
      | nil =>
        simp only [List.map_nil, Value.asNumber, Option.any_some, Bool.and_eq_true]
        rintro ⟨-, hsame⟩
        obtain ⟨hscale, hnonzero⟩ := hexp (by simp [hexponent])
        exact value_ne_mantissa hscale hnonzero (hequal.1 hsame)
      | cons _ _ => exact Bool.false_ne_true

/-! ## Artifacts -/

/-- A check finds the number of an artifact in its description: the expression of the label compiles
and the number is printed without an exponent. -/
structure Findable (host : Host) (check a : Value) : Prop where
  label : LabelCompiles host check
  exponent : 'e' ∉ (a.text host).toList

/-- The description of an artifact passes the check of the artifact, and the table of a table's
description is the table. -/
structure Reproduces (host : Host) (check a : Value) : Prop where
  accepted : checkAnswer host check (describeArtifact host check a) a = true
  again : ((check.get "kind").bind Value.asStr).getD "" = "markdown_table" →
    extractResult host check (describeArtifact host check a) = some a

theorem everyNumber_valueAtPath {P : Number → Prop} {v w : Value} {path : List Value}
    (hv : v.EveryNumber P) (h : valueAtPath v path = some w) : w.EveryNumber P := by
  have hget : ∀ {v w : Value} {key : String}, v.EveryNumber P → v.get key = some w →
      w.EveryNumber P := by
    intro v w key hv h
    cases v with
    | obj fields =>
      rw [Value.EveryNumber, Value.everyNumberFields_iff] at hv
      exact hv _ (mem_of_lookup h)
    | _ => cases h
  have hat : ∀ {v w : Value} {i : Nat}, v.EveryNumber P → v.at? i = some w → w.EveryNumber P := by
    intro v w i hv h
    cases v with
    | arr items =>
      rw [Value.EveryNumber, Value.everyNumberItems_iff] at hv
      exact hv w (List.mem_of_getElem? h)
    | _ => cases h
  induction path generalizing v with
  | nil =>
    rw [valueAtPath, Option.some.injEq] at h
    exact h ▸ hv
  | cons part path ih =>
    rw [valueAtPath] at h
    cases hpart : part.asStr with
    | some key =>
      rw [hpart] at h
      obtain ⟨next, hnext, hrest⟩ := Option.bind_eq_some_iff.1 h
      exact ih (hget hv hnext) hrest
    | none =>
      rw [hpart] at h
      obtain ⟨next, hnext, hrest⟩ := Option.bind_eq_some_iff.1 h
      obtain ⟨i, -, hi⟩ := Option.bind_eq_some_iff.1 hnext
      exact ih (hat hv hi) hrest

/-- A number that is taken from an output is an `i64` or a double. -/
theorem number_of_extractResult {host : Host} (hr : host.ReadsBounded) {check a : Value}
    {output : String} (hkind : ((check.get "kind").bind Value.asStr).getD "" = "number")
    (h : extractResult host check output = some a) : ∃ k, a = .num k ∧ Signed k := by
  have hne : ("number" : String) ≠ "markdown_table" := by decide
  rw [extractResult, hkind, if_neg hne] at h
  obtain ⟨parsed, hparsed, hrest⟩ := Option.bind_eq_some_iff.1 h
  obtain ⟨value, hvalue, hnumber⟩ := Option.bind_eq_some_iff.1 hrest
  have hsigned : value.EveryNumber Signed := by
    cases hparse : parseStrictJson host output with
    | error e =>
      rw [hparse] at hparsed
      cases hparsed
    | ok v =>
      rw [hparse] at hparsed
      obtain rfl : v = parsed := Option.some.inj hparsed
      rw [parseStrictJson] at hparse
      obtain ⟨raw, hraw, hstrict⟩ := bind_ok hparse
      exact everyNumber_valueAtPath (signed_of_strict (hr.range hraw) hstrict) hvalue
  cases value with
  | num k =>
    obtain rfl : Value.num k = a := by simpa [Value.isNumber] using hnumber
    exact ⟨k, rfl, hsigned⟩
  | _ => simp [Value.isNumber] at hnumber

/-- A number as it is printed. -/
theorem numeral_of_number {host : Host} (hs : Scientific host) {k : Number}
    (hk : Signed k) : ∃ n : Numeral, k.text host = .ofList n.text ∧ n.Brief ∧
      (n.exponent ≠ none → n.exp ≠ 0 ∧ n.value ≠ 0) := by
  cases k with
  | int i =>
    have hshared : (Number.int i).Shared := hk i rfl
    exact ⟨Number.numeral i, Number.toString_numeral i, Number.brief_numeral hshared.inRange,
      fun h => absurd rfl h⟩
  | float f => exact hs f

theorem exponent_iff {n : Numeral} : 'e' ∉ n.text ↔ n.exponent = none := by
  rw [text_mantissa, List.mem_append, not_or]
  constructor
  · rintro ⟨-, h⟩
    cases hexp : n.exponent with
    | none => rfl
    | some e =>
      rw [hexp] at h
      exact absurd List.mem_cons_self h
  · intro h
    rw [h]
    refine ⟨fun hmem => ?_, fun hmem => nomatch hmem⟩
    rw [mantissa_text, List.mem_append, List.mem_append] at hmem
    rcases hmem with hmem | hmem | hmem
    · split at hmem <;> simp at hmem
    · exact absurd (n.whole_digits _ hmem) (by decide)
    · rw [Numeral.fractionText] at hmem
      split at hmem
      · cases hmem
      · rcases List.mem_cons.1 hmem with hmem | hmem
        · cases hmem
        · exact absurd (n.fraction_digits _ hmem) (by decide)

/-- The description of a number passes its check exactly when the number can be found in it. -/
theorem accepts_number_iff {host : Host} {digit : Char → Bool} (hf : Finds host digit)
    (hs : Scientific host) {check : Value} {k : Number} (hk : Signed k)
    (hkind : ((check.get "kind").bind Value.asStr).getD "" = "number") :
    checkAnswer host check (describeArtifact host check (.num k)) (.num k) = true ↔
      Findable host check (.num k) := by
  obtain ⟨n, htext, hn, hexp⟩ := numeral_of_number hs hk
  have htable : ("number" : String) ≠ "markdown_table" := by decide
  have hjson : ("number" : String) ≠ "json_value" := by decide
  have hvalue : (Value.num k).text host = .ofList n.text := by rw [Value.text, htext]
  rw [checkAnswer, hkind, if_neg htable, if_neg hjson, if_pos rfl,
    checkLabelled_describe_iff hf htext hn hexp hkind, ← exponent_iff, ← String.toList_ofList (l := n.text),
    ← hvalue]
  exact ⟨fun h => ⟨h.1, h.2⟩, fun h => ⟨h.label, h.exponent⟩⟩

/-- What the model is told to write passes: always for a table, and for a number exactly when the
check can find it. -/
theorem describe_reproduces_iff {host : Host} {digit : Char → Bool} (hf : Finds host digit)
    (hs : Scientific host) (hr : host.ReadsBounded) {check a : Value} {output : String}
    (hkind : ((check.get "kind").bind Value.asStr).getD "" = "markdown_table" ∨
      ((check.get "kind").bind Value.asStr).getD "" = "number")
    (h : extractResult host check output = some a) : Reproduces host check a ↔
      (((check.get "kind").bind Value.asStr).getD "" = "number" → Findable host check a) := by
  have hne : ("markdown_table" : String) ≠ "number" := by decide
  rcases hkind with hkind | hkind
  · refine iff_of_true ?_ fun hnumber => absurd (hkind.symm.trans hnumber) hne
    have hextract : ∀ text, extractResult host check text = parseMarkdownTable host text := by
      intro text
      rw [extractResult, hkind, if_pos rfl]
    rw [hextract] at h
    have hagain := parse_describe hf.rule hkind h
    refine ⟨?_, fun _ => (hextract _).trans hagain⟩
    obtain ⟨htable, ha⟩ := parseMarkdownTable_some_iff.1 hagain
    have hrows : ∀ row ∈ tableRows host [] (Text.lines (describeArtifact host check a)), row ≠ [] :=
      fun row hrow => (row_of_mem_lines row hrow).ne
    have hpass := checkTable_of_parse rfl htable hrows
    rw [← ha] at hpass
    rwa [checkAnswer, hkind, if_pos rfl]
  · obtain ⟨k, rfl, hk⟩ := number_of_extractResult hr hkind h
    have haccepts := accepts_number_iff hf hs hk hkind
    constructor
    · exact fun hgood _ => haccepts.1 hgood.accepted
    · intro hgood
      exact ⟨haccepts.2 (hgood hkind), fun htable => absurd (htable.symm.trans hkind) hne⟩

/-! ### A host that finds labels -/

/-- `^:?-\x7b3,\x7d:?$`. -/
def rulePattern : Matching.Pattern Char :=
  .seq (.opt (.one (· = ':'))) (.seq (.one (· = '-')) (.seq (.one (· = '-')) (.seq (.one (· = '-'))
    (.seq (.many (.one (· = '-'))) (.opt (.one (· = ':')))))))

/-- A compiler of the two expressions, for labels without special characters. -/
def compileLabel (expression : String) : Except String Regex :=
  match Text.stripSuffix expression numberExpression with
  | some label => .ok {
      isMatch := fun text => !(Labels.found Text.isAsciiDigit label.toList text.toList).isEmpty
      captures := fun text => (Labels.found Text.isAsciiDigit label.toList text.toList).map fun x =>
        (x.1, some (.ofList x.2)) }
  | none =>
    if expression = "^:?-\x7b3,\x7d:?$" then
      .ok { isMatch := fun text => (rulePattern.rests text.toList).contains [], captures := fun _ => [] }
    else .error "unsupported"

/-- The double `1e100`. -/
def googol : F64 := F64.ofToken ['1', 'e', '1', '0', '0']

def scientificText (f : F64) : String :=
  if f = googol then .ofList (Python.powerNumeral false 100).text else exactHost.floatText f

/-- The libraries as far as they are documented, with the two expressions. -/
def labelHost : Host :=
  { textHost with regex := compileLabel, regexEscape := id, floatText := scientificText }

theorem stripSuffix_append (a p : String) : Text.stripSuffix (a ++ p) p = some a := by
  have hends : Text.endsWith (a ++ p) p = true := by
    rw [Text.endsWith, String.toList_append, List.reverse_append, List.isPrefixOf_iff_prefix]
    exact List.prefix_append _ _
  rw [Text.stripSuffix, if_pos hends, String.toList_append, List.length_append,
    Nat.add_sub_cancel, List.take_left, String.ofList_toList]

theorem labelHost_finds : Finds labelHost Text.isAsciiDigit where
  ascii _ _ := rfl
  captures := by
    intro label re hre text
    have hcompile : compileLabel (label ++ numberExpression) = .ok re := hre
    rw [compileLabel, stripSuffix_append] at hcompile
    rw [← Except.ok.inj hcompile]
  rule := by decide +kernel

theorem labelHost_scientific : Scientific labelHost := by
  intro f
  show ∃ n : Numeral, scientificText f = _ ∧ _
  rw [scientificText]
  split
  · have hvalue : (Python.powerNumeral false 100).value = 10 ^ (100 : Int) := by
      rw [Numeral.value, Python.powerNumeral_magnitude]
      rfl
    refine ⟨Python.powerNumeral false 100, rfl, ⟨?_, ?_, ?_, ?_⟩, fun _ => ⟨?_, ?_⟩⟩
    · show (-2 ^ 31 : Int) ≤ 100
      norm_num
    · show (100 : Int) < 2 ^ 31
      norm_num
    · show 1 < 2 ^ 31
      norm_num
    · show 0 < 2 ^ 31
      norm_num
    · show (100 : Int) ≠ 0
      norm_num
    · rw [hvalue]
      positivity
  · refine ⟨exactNumeral f, rfl, Value.exactNumeral_brief f, fun hexp => ?_⟩
    have hden : f.toRat.den ≠ 1 := by
      intro hden
      rw [exactNumeral, if_pos hden] at hexp
      exact hexp rfl
    have hneg : f.exponent < 0 := not_le.1 fun h => hden (F64.den_of_exponent h)
    constructor
    · rw [exactNumeral, if_neg hden]
      show -((-f.exponent).toNat : Int) ≠ 0
      omega
    · rw [exactNumeral_value]
      intro hzero
      rw [hzero] at hden
      exact hden rfl

theorem labelHost_readsBounded : labelHost.ReadsBounded where
  shows := textHost_readsBounded.shows
  reads := textHost_readsBounded.reads
  range := textHost_readsBounded.range
  limit := textHost_readsBounded.limit

/-- A check of a total. -/
def totalCheck : Value := .obj [("kind", .str "number"), ("label", .str "Total")]

theorem extractResult_total (token : List Char) {k : Number}
    (htoken : Spelling.ofText token = some (.num token)) (hraw : strict (tokenRaw token) = .ok (.num k)) :
    extractResult labelHost totalCheck (.ofList token) = some (.num k) := by
  have hread : labelHost.reader (.ofList token) = .ok (tokenRaw token) := by
    show readSpelling _ = _
    rw [readSpelling, String.toList_ofList, htoken]
    rfl
  have hparse : parseStrictJson labelHost (.ofList token) = .ok (.num k) := by
    rw [parseStrictJson, hread]
    exact hraw
  have hkind : ((totalCheck.get "kind").bind Value.asStr).getD "" = "number" := rfl
  have hne : ("number" : String) ≠ "markdown_table" := by decide
  rw [extractResult, hkind, if_neg hne, hparse]
  rfl

theorem compileLabel_ok (label : String) : ∃ re, compileLabel (label ++ numberExpression) = .ok re := by
  rw [compileLabel, stripSuffix_append]
  exact ⟨_, rfl⟩

theorem total_compiles : LabelCompiles labelHost totalCheck :=
  compileLabel_ok (labelOf totalCheck)

theorem describe_reproduces_total : extractResult labelHost totalCheck (.ofList ['4', '2']) =
      some (.int 42) ∧ Reproduces labelHost totalCheck (.int 42) := by
  have hextract := extractResult_total ['4', '2'] (k := .int 42) rfl rfl
  refine ⟨hextract, (describe_reproduces_iff labelHost_finds labelHost_scientific
    labelHost_readsBounded (.inr rfl) hextract).2 fun _ => ⟨total_compiles, ?_⟩⟩
  decide +kernel

/-- The description of `1e100` does not pass: the check finds `Total 1` in it. -/
theorem describe_loses_exponent : ¬ ∀ (host : Host) (digit : Char → Bool) (check a : Value)
    (output : String), Finds host digit → Scientific host → host.ReadsBounded →
      ((check.get "kind").bind Value.asStr).getD "" = "markdown_table" ∨
        ((check.get "kind").bind Value.asStr).getD "" = "number" →
      extractResult host check output = some a → Reproduces host check a := by
  intro h
  have hextract := extractResult_total ['1', 'e', '1', '0', '0'] (k := .float googol) rfl rfl
  have hgood := h labelHost _ _ _ _ labelHost_finds labelHost_scientific labelHost_readsBounded
    (.inr rfl) hextract
  have hfind := (accepts_number_iff labelHost_finds labelHost_scientific (signed_float googol)
    rfl).1 hgood.accepted
  refine hfind.exponent ?_
  have htext : (Value.num (.float googol)).text labelHost =
      .ofList (Python.powerNumeral false 100).text := if_pos rfl
  rw [htext, String.toList_ofList]
  decide

end Engine

end StateDrivenAgent
