import StateDrivenAgent.Verify.Sources

/-!
# Python's JSON with its defaults

`python_json` writes what `json.dumps` writes, except for one character: Python escapes whatever is
not between the blank and the tilde, the agent whatever is a control character or above U+007F, so
that U+007F itself goes out as it is. Python's text never has it (`dumpsAscii_printable`), the
agent's has it whenever the value does (`everyText_of_pythonJson`).
-/

namespace StateDrivenAgent

open Text

namespace Python

variable {host : Host}

/-! ## Characters -/

theorem delete_toNat : '\x7f'.toNat = 0x7f := rfl

theorem toNat_ne_delete {c : Char} (h : c ≠ '\x7f') : c.toNat ≠ 0x7f := by
  intro hc
  refine h ?_
  rw [← Char.ofNat_toNat c, hc]

theorem pythonEscape_delete : Tools.pythonEscape '\x7f' = ['\x7f'] := by decide

/-- The two escapes differ at U+007F only. -/
theorem pythonEscape_eq {c : Char} (h : c ≠ '\x7f') : Tools.pythonEscape c = escapeAscii c := by
  have hdelete := toNat_ne_delete h
  rw [Tools.pythonEscape, escapeAscii]
  iterate 7 refine if_congr Iff.rfl rfl ?_
  by_cases hplain : 0x20 ≤ c.toNat ∧ c.toNat ≤ 0x7e
  · rw [if_pos hplain, if_neg]
    simp only [Bool.or_eq_true, decide_eq_true_eq, not_or]
    omega
  · have hescape : (decide (c.toNat < 32) || decide (0x7f < c.toNat)) = true := by
      rw [Bool.or_eq_true, decide_eq_true_eq, decide_eq_true_eq]
      omega
    rw [if_neg hplain, if_pos hescape, utf16, String.toList_ofList, List.flatMap_cons,
      List.flatMap_nil, List.append_nil]
    by_cases hsmall : c.toNat < 0x10000
    · rw [if_pos hsmall, if_pos hsmall, List.flatMap_cons, List.flatMap_nil, List.append_nil]
    · have hvalid : c.toNat < 0xd800 ∨ (0xdfff < c.toNat ∧ c.toNat < 0x110000) := c.valid
      have hhigh : (c.toNat - 0x10000) / 0x400 = (c.toNat - 0x10000) / 1024 % 1024 := by omega
      rw [if_neg hsmall, if_neg hsmall, hhigh, List.flatMap_cons, List.flatMap_cons,
        List.flatMap_nil, List.append_nil]

theorem hexDigit_printable (n : Nat) : Printable (hexDigit n) := by
  by_cases h : n < 16
  · have hall : ∀ n < 16, Printable (hexDigit n) := by decide
    exact hall n h
  · have hnone : "0123456789abcdef".toList[n]? = none := List.getElem?_eq_none (not_lt.1 h)
    rw [hexDigit, List.getD_eq_getElem?_getD, hnone]
    decide

theorem hexUnit_printable (n : Nat) : ∀ d ∈ Tools.hexUnit n, Printable d := by
  intro d hd
  simp only [Tools.hexUnit, List.mem_cons, List.not_mem_nil, or_false] at hd
  rcases hd with rfl | rfl | rfl | rfl | rfl | rfl
  · decide
  · decide
  all_goals exact hexDigit_printable _

theorem escapeAscii_printable (c : Char) : ∀ d ∈ escapeAscii c, Printable d := by
  intro d hd
  rw [escapeAscii] at hd
  split_ifs at hd with _ _ _ _ _ _ _ hplain hsmall
  iterate 7
    · simp only [List.mem_cons, List.not_mem_nil, or_false] at hd
      rcases hd with rfl | rfl <;> decide
  · rw [List.mem_singleton.1 hd]
    exact ⟨hplain.1, by omega⟩
  · exact hexUnit_printable _ d hd
  · rcases List.mem_append.1 hd with hd | hd
    · exact hexUnit_printable _ d hd
    · exact hexUnit_printable _ d hd

/-! ## Strings -/

theorem pythonJsonString_eq {s : String} (h : '\x7f' ∉ s.toList) :
    Tools.pythonJsonString s = encodeAscii s := by
  rw [Tools.pythonJsonString, encodeAscii,
    List.flatMap_congr fun c hc => pythonEscape_eq fun heq => h (heq ▸ hc)]

theorem encodeAscii_printable (s : String) : EveryChar Printable (encodeAscii s) := by
  rw [encodeAscii, everyChar_ofList]
  intro c hc
  simp only [List.cons_append, List.mem_cons, List.mem_append, List.mem_flatMap,
    List.not_mem_nil, or_false] at hc
  rcases hc with rfl | ⟨d, -, hc⟩ | rfl
  · decide
  · exact escapeAscii_printable d c hc
  · decide

theorem delete_mem_pythonJsonString {s : String} (h : '\x7f' ∈ s.toList) :
    '\x7f' ∈ (Tools.pythonJsonString s).toList := by
  rw [Tools.pythonJsonString, String.toList_ofList]
  simp only [List.cons_append, List.mem_cons, List.mem_append, List.mem_flatMap]
  exact .inr (.inl ⟨_, h, by rw [pythonEscape_delete]; simp⟩)

/-! ## Values -/

theorem dumpsAsciiItems_eq (items : List Value) :
    dumpsAsciiItems host items = items.map (dumpsAscii host) := by
  induction items with
  | nil => rfl
  | cons v vs ih => rw [dumpsAsciiItems, ih, List.map_cons]

theorem dumpsAsciiFields_eq (fields : List (String × Value)) : dumpsAsciiFields host fields =
    fields.map fun f => encodeAscii f.1 ++ ": " ++ dumpsAscii host f.2 := by
  induction fields with
  | nil => rfl
  | cons f rest ih => rw [dumpsAsciiFields, ih, List.map_cons]

/-- Without U+007F the two writers agree. -/
theorem pythonJson_eq (hp : host.Prints) (hs : Shortest host) : ∀ v : Value,
    (v.EveryText fun s => '\x7f' ∉ s.toList) → Tools.pythonJson host v = dumpsAscii host v := by
  intro v
  induction v using Value.induct_mem with
  | null => exact fun _ => rfl
  | bool b => exact fun _ => rfl
  | num n => exact fun _ => pythonNumber_eq hp hs n
  | str s => exact fun h => pythonJsonString_eq h
  | arr items ih =>
    intro h
    rw [Value.EveryText, Value.everyTextItems_iff] at h
    rw [Tools.pythonJson, pythonJsonItems_eq, dumpsAscii, dumpsAsciiItems_eq]
    congr 3
    exact List.map_congr_left fun v hv => ih v hv (h v hv)
  | obj fields ih =>
    intro h
    rw [Value.EveryText, Value.everyTextFields_iff] at h
    rw [Tools.pythonJson, pythonJsonFields_eq, dumpsAscii, dumpsAsciiFields_eq]
    congr 3
    refine List.map_congr_left fun f hf => ?_
    rw [pythonJsonString_eq (h f hf).1, ih f hf (h f hf).2]

/-- Python's text is printable. -/
theorem dumpsAscii_printable (hp : host.Prints) : ∀ v : Value,
    EveryChar Printable (dumpsAscii host v) := by
  intro v
  induction v using Value.induct_mem with
  | null =>
    have h : EveryChar Printable "null" := by decide
    exact h
  | bool b =>
    have h : EveryChar Printable (if b = true then "true" else "false") := by cases b <;> decide
    exact h
  | num n => exact numberRepr_printable hp n
  | str s => exact encodeAscii_printable s
  | arr items ih =>
    rw [dumpsAscii, dumpsAsciiItems_eq]
    refine everyChar_append.2 ⟨everyChar_append.2 ⟨by decide, ?_⟩, by decide⟩
    exact everyChar_joinWith (by decide) (List.forall_mem_map.2 ih)
  | obj fields ih =>
    rw [dumpsAscii, dumpsAsciiFields_eq]
    refine everyChar_append.2 ⟨everyChar_append.2 ⟨by decide, ?_⟩, by decide⟩
    refine everyChar_joinWith (by decide) (List.forall_mem_map.2 fun f hf => ?_)
    exact everyChar_append.2 ⟨everyChar_append.2 ⟨encodeAscii_printable _, by decide⟩, ih f hf⟩

/-- A U+007F anywhere in a value is one in the agent's text. -/
theorem everyText_of_pythonJson : ∀ v : Value, '\x7f' ∉ (Tools.pythonJson host v).toList →
    v.EveryText fun s => '\x7f' ∉ s.toList := by
  intro v
  induction v using Value.induct_mem with
  | null => exact fun _ => trivial
  | bool b => exact fun _ => trivial
  | num n => exact fun _ => trivial
  | str s => exact fun h hmem => h (delete_mem_pythonJsonString hmem)
  | arr items ih =>
    intro h
    rw [Tools.pythonJson, pythonJsonItems_eq] at h
    rw [Value.EveryText, Value.everyTextItems_iff]
    intro v hv
    refine ih v hv fun hmem => h ?_
    rw [String.toList_append, String.toList_append, List.mem_append, List.mem_append]
    exact .inl (.inr (mem_joinWith_of_mem (List.mem_map.2 ⟨v, hv, rfl⟩) hmem))
  | obj fields ih =>
    intro h
    rw [Tools.pythonJson, pythonJsonFields_eq] at h
    rw [Value.EveryText, Value.everyTextFields_iff]
    intro f hf
    have hfield : '\x7f' ∉
        (Tools.pythonJsonString f.1 ++ ": " ++ Tools.pythonJson host f.2).toList := by
      refine fun hmem => h ?_
      rw [String.toList_append, String.toList_append, List.mem_append, List.mem_append]
      exact .inl (.inr (mem_joinWith_of_mem (List.mem_map.2 ⟨f, hf, rfl⟩) hmem))
    simp only [String.toList_append, List.mem_append, not_or] at hfield
    exact ⟨fun hmem => hfield.1.1 (delete_mem_pythonJsonString hmem), ih f hf hfield.2⟩

/-- `python_json` is `json.dumps` for the values without U+007F, and for no others. -/
theorem pythonJson_eq_dumps_iff (hp : host.Prints) (hs : Shortest host) (v : Value) :
    Tools.pythonJson host v = dumpsAscii host v ↔ v.EveryText fun s => '\x7f' ∉ s.toList := by
  constructor
  · intro h
    refine @everyText_of_pythonJson host v fun hmem => ?_
    rw [h] at hmem
    have hprintable := (dumpsAscii_printable hp v _ hmem).2
    exact absurd hprintable (by decide)
  · exact pythonJson_eq hp hs v

/-- Accents, emoji and control characters are written alike. -/
theorem pythonJson_eq_sample :
    Tools.pythonJson shortHost (.arr [.str "é😀\x1b", .int 7]) =
      dumpsAscii shortHost (.arr [.str "é😀\x1b", .int 7]) :=
  (pythonJson_eq_dumps_iff shortHost_prints shortHost_shortest _).2 (by
    simp [Value.EveryText, Value.EveryTextItems, Value.int])

/-- The character U+007F alone is not. -/
theorem pythonJson_differs : ¬ ∀ (host : Host), host.Prints → Shortest host → ∀ v : Value,
    Tools.pythonJson host v = dumpsAscii host v := by
  intro h
  have hsame := h shortHost shortHost_prints shortHost_shortest (.str "\x7f")
  exact absurd hsame (by decide)

end Python

end StateDrivenAgent
