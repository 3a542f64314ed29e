import Mathlib.Data.List.Infix
import Mathlib.Tactic.SplitIfs
import StateDrivenAgent.Verify.References

/-!
# The reader of summaries

`parse_xml_sections` reads the documents of the grammar, where a plus sign may stand in numeric
references. Tags come first, then the loop: what a stack of open tags still demands of the text is
the inside of the innermost element and its closing tag.
-/

namespace StateDrivenAgent

namespace Markup

open Context Text

/-! ## Tags -/

/-- What an opening tag does when its name is right. -/
def enter (x : XmlState) (name : String) (selfClosing : Bool) : Except String XmlState :=
  if x.stack.isEmpty && (x.rootSeen || name ≠ "COMPACTED_STATE") then
    .error "invalid summary root"
  else if x.stack.length = 1 && (!sectionNames.contains name || (lookup name x.sections).isSome) then
    .error "invalid or duplicate summary section"
  else
    let rootSeen := x.rootSeen || x.stack.isEmpty
    if !selfClosing then .ok { x with stack := name :: x.stack, rootSeen }
    else if x.stack.length = 1 then
      .ok { x with sections := insertField name "" x.sections, rootSeen }
    else .ok { x with rootSeen }

/-- The end of a tag that closes itself. -/
def slash (selfClosing : Bool) : List Char := if selfClosing then ['/'] else []

theorem nameChar_ne_slash {c : Char} (h : xmlNameChar c = true) : c ≠ '/' := by
  rintro rfl
  revert h
  decide

theorem nameStart_ne_slash {c : Char} (h : xmlNameStart c = true) : c ≠ '/' := by
  rintro rfl
  revert h
  decide

theorem nameChar_ne_close {c : Char} (h : xmlNameChar c = true) : c ≠ '>' := by
  rintro rfl
  revert h
  decide

theorem Name.ne_nil {name : List Char} (h : Name name) : name ≠ [] := by
  rintro rfl
  cases h.start

theorem endsWith_slash {cs : List Char} : endsWith (.ofList cs) "/" = true ↔
    cs.getLast? = some '/' := by
  unfold endsWith
  rw [List.isPrefixOf_iff_prefix, String.toList_ofList, String.toList_ofList,
    List.reverse_singleton, List.getLast?_eq_head?_reverse]
  cases cs.reverse with
  | nil => simp
  | cons c cs => simp [eq_comm]

/-- The end of the text between the brackets says whether the tag closes itself. -/
theorem tag_end {name b : List Char} {selfClosing : Bool} (hn : Name name) (hb : Spacing b) :
    endsWith (.ofList (name ++ b ++ slash selfClosing)) "/" = selfClosing := by
  cases selfClosing with
  | true => exact endsWith_slash.2 (by simp [slash])
  | false =>
    rw [Bool.eq_false_iff, ne_eq, endsWith_slash]
    intro h
    have hmem := List.mem_of_getLast? h
    simp only [slash, Bool.false_eq_true, if_false, List.append_nil, List.mem_append] at hmem
    rcases hmem with hmem | hmem
    · exact nameChar_ne_slash (List.all_eq_true.1 hn.chars _ hmem) rfl
    · have := hb _ hmem
      revert this
      decide

theorem stripSuffix_slash {cs : List Char} :
    (stripSuffix (.ofList (cs ++ ['/'])) "/").getD (.ofList (cs ++ ['/'])) = .ofList cs := by
  have hend : endsWith (.ofList (cs ++ ['/'])) "/" = true := endsWith_slash.2 (by simp)
  unfold stripSuffix
  rw [if_pos hend, String.toList_ofList]
  simp

theorem stripSuffix_of_not {cs : List Char} (h : endsWith (.ofList cs) "/" = false) :
    (stripSuffix (.ofList cs) "/").getD (.ofList cs) = .ofList cs := by
  unfold stripSuffix
  simp [h]

theorem openTag_eq (x : XmlState) {name b : List Char} {selfClosing : Bool} (hn : Name name)
    (hb : Spacing b) : openTag x (.ofList (name ++ b ++ slash selfClosing)) =
      enter x (.ofList name) selfClosing := by
  have hend := @tag_end _ _ selfClosing hn hb
  have hname : trimEnd ((stripSuffix (.ofList (name ++ b ++ slash selfClosing)) "/").getD
      (.ofList (name ++ b ++ slash selfClosing))) = .ofList name := by
    cases selfClosing with
    | true => rw [slash, if_pos rfl, stripSuffix_slash, trimEnd_eq hn.last hb]
    | false =>
      rw [stripSuffix_of_not hend]
      simp only [slash, Bool.false_eq_true, if_false, List.append_nil]
      rw [trimEnd_eq hn.last hb]
  unfold openTag enter
  simp only [hname, hend, String.toList_ofList, hn.start, hn.chars]
  rfl

theorem openTag_ok {x y : XmlState} {tag : List Char} (h : openTag x (.ofList tag) = .ok y) :
    ∃ name b selfClosing, Name name ∧ Spacing b ∧ tag = name ++ b ++ slash selfClosing ∧
      enter x (.ofList name) selfClosing = .ok y := by
  obtain ⟨body, selfClosing, htag, hbody⟩ : ∃ body selfClosing, tag = body ++ slash selfClosing ∧
      (stripSuffix (.ofList tag) "/").getD (.ofList tag) = .ofList body := by
    cases hend : endsWith (.ofList tag) "/" with
    | true =>
      obtain ⟨body, hbody⟩ := List.getLast?_eq_some_iff.1 (endsWith_slash.1 hend)
      exact ⟨body, true, hbody, hbody ▸ stripSuffix_slash⟩
    | false => exact ⟨tag, false, by simp [slash], stripSuffix_of_not hend⟩
  obtain ⟨b, hb, hsplit, hlast⟩ := trimEnd_spec body
  have hcheck : ¬ (!(trimEnd (.ofList body)).toList.head?.any xmlNameStart ||
      !(trimEnd (.ofList body)).toList.all xmlNameChar) = true := by
    intro hbad
    unfold openTag at h
    simp only [hbody, hbad, if_true] at h
    cases h
  have hname : Name (trimEnd (.ofList body)).toList := by
    constructor
    · cases hs : (trimEnd (.ofList body)).toList.head?.any xmlNameStart with
      | true => rfl
      | false => exact absurd (by rw [hs]; rfl) hcheck
    · cases hc : (trimEnd (.ofList body)).toList.all xmlNameChar with
      | true => rfl
      | false => exact absurd (by rw [hc]; simp) hcheck
    · exact hlast
  have htag' : tag = (trimEnd (.ofList body)).toList ++ b ++ slash selfClosing := by
    rw [htag, ← hsplit]
  refine ⟨_, b, selfClosing, hname, hb, htag', ?_⟩
  rw [← openTag_eq x hname hb, ← htag']
  exact h

/-- The state with more text in its section. -/
def said (x : XmlState) (text : List Char) : XmlState :=
  { x with current := x.current ++ .ofList text }

@[simp] theorem said_stack (x : XmlState) (text : List Char) : (said x text).stack = x.stack := rfl

@[simp] theorem said_nil (x : XmlState) : said x [] = x := by
  simp [said]

@[simp] theorem said_said (x : XmlState) (a b : List Char) :
    said (said x a) b = said x (a ++ b) := by
  simp [said, String.append_assoc]

/-- The line end a tag leaves in a section. -/
def newline (x : XmlState) : XmlState := if 2 ≤ x.stack.length then said x ['\n'] else x

theorem newline_deep {x : XmlState} (h : 2 ≤ x.stack.length) : newline x = said x ['\n'] := by
  unfold newline
  rw [if_pos h]

theorem newline_shallow {x : XmlState} (h : x.stack.length < 2) : newline x = x := by
  unfold newline
  rw [if_neg (by omega)]

theorem stripPrefix_slash (cs : List Char) :
    stripPrefix (.ofList ('/' :: cs)) "/" = some (.ofList cs) := by
  have h : startsWith (.ofList ('/' :: cs)) "/" = true := startsWith_ofList.2 ⟨cs, rfl⟩
  unfold stripPrefix
  rw [if_pos h, String.toList_ofList, String.toList_ofList]
  rfl

theorem stripPrefix_of_not {cs : List Char} (h : ∀ rest, cs ≠ '/' :: rest) :
    stripPrefix (.ofList cs) "/" = none := by
  unfold stripPrefix
  rw [if_neg]
  intro hp
  obtain ⟨rest, hrest⟩ := startsWith_ofList.1 hp
  exact h rest hrest

theorem readTag_closing (x : XmlState) (cs : List Char) :
    readTag x (.ofList ('/' :: cs)) = (closeTag x (trimEnd (.ofList cs))).map newline := by
  unfold readTag
  rw [stripPrefix_slash]
  simp only
  cases closeTag x (trimEnd (.ofList cs)) <;> rfl

theorem readTag_opening (x : XmlState) {tag : List Char} (h : ∀ rest, tag ≠ '/' :: rest) :
    readTag x (.ofList tag) = (openTag x (.ofList tag)).map newline := by
  unfold readTag
  rw [stripPrefix_of_not h]
  simp only
  cases openTag x (.ofList tag) <;> rfl

theorem Name.not_slash {name : List Char} (h : Name name) (cs rest : List Char) :
    name ++ cs ≠ '/' :: rest := by
  intro heq
  cases name with
  | nil => exact h.ne_nil rfl
  | cons c name =>
    injection heq with hc _
    exact nameStart_ne_slash (by simpa using h.start) hc

theorem readTag_name (x : XmlState) {name b : List Char} {selfClosing : Bool} (hn : Name name)
    (hb : Spacing b) : readTag x (.ofList (name ++ b ++ slash selfClosing)) =
      (enter x (.ofList name) selfClosing).map newline := by
  rw [readTag_opening x (by rw [List.append_assoc]; exact hn.not_slash _), openTag_eq x hn hb]

/-- A tag closes the innermost element or opens one. -/
theorem readTag_ok {x y : XmlState} {tag : List Char} (h : readTag x (.ofList tag) = .ok y) :
    (∃ name b z, Spacing b ∧ tag = '/' :: (name.toList ++ b) ∧ closeTag x name = .ok z ∧
      newline z = y) ∨
    (∃ name b selfClosing z, Name name ∧ Spacing b ∧ tag = name ++ b ++ slash selfClosing ∧
      enter x (.ofList name) selfClosing = .ok z ∧ newline z = y) := by
  by_cases hslash : ∃ rest, tag = '/' :: rest
  · obtain ⟨cs, rfl⟩ := hslash
    rw [readTag_closing, map_ok_iff] at h
    obtain ⟨z, hz, hy⟩ := h
    obtain ⟨b, hb, hcs, -⟩ := trimEnd_spec cs
    exact .inl ⟨_, b, z, hb, by rw [← hcs], hz, hy⟩
  · rw [readTag_opening x fun rest he => hslash ⟨rest, he⟩, map_ok_iff] at h
    obtain ⟨z, hz, hy⟩ := h
    obtain ⟨name, b, selfClosing, hn, hb, htag, hz⟩ := openTag_ok hz
    exact .inr ⟨name, b, selfClosing, z, hn, hb, htag, hz, hy⟩

/-! ## The loop -/

/-- The fuel suffices when it covers the text. -/
theorem readXml_fuel {f f' : Nat} {x : XmlState} {cs : List Char} (hf : cs.length ≤ f)
    (hf' : cs.length ≤ f') : readXml f x cs = readXml f' x cs := by
  induction f generalizing f' x cs with
  | zero =>
    obtain rfl : cs = [] := List.length_eq_zero_iff.1 (by omega)
    cases f' <;> rfl
  | succ f ih =>
    cases cs with
    | nil => cases f' <;> rfl
    | cons c cs =>
      obtain ⟨f', rfl⟩ : ∃ k, f' = k + 1 := ⟨f' - 1, by simp at hf'; omega⟩
      simp only [List.length_cons] at hf hf'
      have htag : ((cs.dropWhile (· ≠ '>')).drop 1).length ≤ cs.length := by
        have := (List.dropWhile_sublist (l := cs) (· ≠ '>')).length_le
        simp only [List.length_drop]
        omega
      unfold readXml
      by_cases hc : c = '<'
      · rw [if_pos hc, if_pos hc]
        by_cases hclose : '>' ∈ cs
        · rw [if_neg (not_not_intro hclose), if_neg (not_not_intro hclose)]
          congr 1
          funext y
          exact ih (by omega) (by omega)
        · rw [if_pos hclose, if_pos hclose]
      · have htext : ((c :: cs).dropWhile (· ≠ '<')).length ≤ cs.length := by
          have hdrop : (c :: cs).dropWhile (· ≠ '<') = cs.dropWhile (· ≠ '<') := by simp [hc]
          rw [hdrop]
          exact (List.dropWhile_sublist (l := cs) (· ≠ '<')).length_le
        rw [if_neg hc, if_neg hc]
        congr 1
        funext y
        exact ih (by omega) (by omega)

/-- The loop with fuel for its text. -/
def readAll (x : XmlState) (cs : List Char) : Except String XmlState := readXml cs.length x cs

theorem readAll_nil (x : XmlState) : readAll x [] = .ok x := rfl

theorem readAll_tag (x : XmlState) {tag rest : List Char} (ht : '>' ∉ tag) :
    readAll x ('<' :: (tag ++ '>' :: rest)) =
      (readTag x (.ofList tag)).bind fun y => readAll y rest := by
  have htake : (tag ++ '>' :: rest).takeWhile (· ≠ '>') = tag := by
    rw [List.takeWhile_append_of_pos]
    · simp
    · intro c hc
      simpa using fun h : c = '>' => ht (h ▸ hc)
  have hdrop : (tag ++ '>' :: rest).dropWhile (· ≠ '>') = '>' :: rest := by
    rw [List.dropWhile_append_of_pos]
    · simp
    · intro c hc
      simpa using fun h : c = '>' => ht (h ▸ hc)
  unfold readAll
  rw [List.length_cons]
  conv_lhs => unfold readXml
  rw [if_pos rfl, if_neg (by simp), htake, hdrop]
  change (readTag x (.ofList tag)).bind _ = _
  congr 1
  funext y
  exact readXml_fuel (by simp; omega) (by simp)

theorem readAll_open (x : XmlState) {cs : List Char} (h : '>' ∉ cs) :
    readAll x ('<' :: cs) = .error "incomplete XML tag" := by
  unfold readAll
  rw [List.length_cons]
  unfold readXml
  rw [if_pos rfl, if_pos h]

/-- Nothing is left, or a tag. -/
def AtTag (cs : List Char) : Prop := cs = [] ∨ ∃ rest, cs = '<' :: rest

theorem readAll_text (x : XmlState) {run rest : List Char} (hne : run ≠ []) (hr : '<' ∉ run)
    (hrest : AtTag rest) :
    readAll x (run ++ rest) = (readText x run).bind fun y => readAll y rest := by
  obtain ⟨c, cs, rfl⟩ := List.exists_cons_of_ne_nil hne
  have hc : c ≠ '<' := fun h => hr (h ▸ List.mem_cons_self)
  have hpos : ∀ d ∈ c :: cs, (decide (d ≠ '<')) = true := by
    intro d hd
    simpa using fun h : d = '<' => hr (h ▸ hd)
  have htake : (c :: cs ++ rest).takeWhile (· ≠ '<') = c :: cs := by
    rw [List.takeWhile_append_of_pos hpos]
    rcases hrest with rfl | ⟨rest, rfl⟩ <;> simp
  have hdrop : (c :: cs ++ rest).dropWhile (· ≠ '<') = rest := by
    rw [List.dropWhile_append_of_pos hpos]
    rcases hrest with rfl | ⟨rest, rfl⟩ <;> simp
  unfold readAll
  rw [List.cons_append, List.length_cons]
  conv_lhs => unfold readXml
  rw [if_neg hc, ← List.cons_append, htake, hdrop]
  change (readText x (c :: cs)).bind _ = _
  congr 1
  funext y
  exact readXml_fuel (by simp) (by simp)

/-- The text up to the next tag. -/
theorem split_text (cs : List Char) : ∃ run rest, cs = run ++ rest ∧ '<' ∉ run ∧ AtTag rest := by
  refine ⟨cs.takeWhile (· ≠ '<'), cs.dropWhile (· ≠ '<'), List.takeWhile_append_dropWhile.symm,
    ?_, ?_⟩
  · intro h
    have := List.mem_takeWhile_imp h
    simp at this
  · cases hrest : cs.dropWhile (· ≠ '<') with
    | nil => exact .inl rfl
    | cons c rest =>
      have := List.head?_dropWhile_not (· ≠ '<') cs
      rw [hrest] at this
      have hc : c = '<' := by simpa using this
      exact .inr ⟨rest, by rw [hc]⟩

/-! ## The inside of a section -/

theorem tag_not_close {name b : List Char} {selfClosing : Bool} (hn : Name name) (hb : Spacing b) :
    '>' ∉ name ++ b ++ slash selfClosing := by
  intro h
  rcases List.mem_append.1 h with h | h
  · rcases List.mem_append.1 h with h | h
    · exact nameChar_ne_close (List.all_eq_true.1 hn.chars _ h) rfl
    · have := hb _ h
      revert this
      decide
  · cases selfClosing <;> simp [slash] at h

theorem opening_append (name b rest : List Char) :
    opening name b ++ rest = '<' :: ((name ++ b ++ slash false) ++ '>' :: rest) := by
  simp [opening, slash]

theorem empty_append (name b rest : List Char) :
    empty name b ++ rest = '<' :: ((name ++ b ++ slash true) ++ '>' :: rest) := by
  simp [empty, slash]

theorem closing_append (name b rest : List Char) :
    closing name b ++ rest = '<' :: (('/' :: (name ++ b)) ++ '>' :: rest) := by
  simp [closing]

theorem atTag_opening (name b rest : List Char) : AtTag (opening name b ++ rest) := .inr ⟨_, rfl⟩

theorem atTag_empty (name b rest : List Char) : AtTag (empty name b ++ rest) := .inr ⟨_, rfl⟩

theorem atTag_closing (name b rest : List Char) : AtTag (closing name b ++ rest) := .inr ⟨_, rfl⟩

def push (x : XmlState) (name : String) : XmlState := { x with stack := name :: x.stack }

@[simp] theorem push_stack (x : XmlState) (name : String) : (push x name).stack = name :: x.stack :=
  rfl

theorem readAll_enter {x : XmlState} {name b : List Char} {selfClosing : Bool} (hn : Name name)
    (hb : Spacing b) (rest : List Char) :
    readAll x ('<' :: ((name ++ b ++ slash selfClosing) ++ '>' :: rest)) =
      (enter x (.ofList name) selfClosing).bind fun y => readAll (newline y) rest := by
  rw [readAll_tag x (tag_not_close hn hb), readTag_name x hn hb]
  cases enter x (.ofList name) selfClosing <;> rfl

theorem readAll_close {x : XmlState} {name b : List Char} (hn : Name name) (hb : Spacing b)
    (rest : List Char) : readAll x (closing name b ++ rest) =
      (closeTag x (.ofList name)).bind fun y => readAll (newline y) rest := by
  have hnot : '>' ∉ '/' :: (name ++ b) := by
    have := @tag_not_close _ _ false hn hb
    simpa [slash] using this
  rw [closing_append, readAll_tag x hnot, readTag_closing, trimEnd_eq hn.last hb]
  cases closeTag x (.ofList name) <;> rfl

theorem enter_deep {x : XmlState} (hd : 2 ≤ x.stack.length) (name : String) (selfClosing : Bool) :
    enter x name selfClosing = .ok (if selfClosing then x else push x name) := by
  have hempty : x.stack.isEmpty = false := by
    cases hs : x.stack with
    | nil => rw [hs] at hd; simp at hd
    | cons => rfl
  have hone : x.stack.length ≠ 1 := by omega
  unfold enter
  cases selfClosing <;> simp [hempty, hone, push]

theorem closeTag_ok {x z : XmlState} {close : String} (h : closeTag x close = .ok z) :
    ∃ st, x.stack = close :: st ∧ z = if st.length = 1 then
        { x with stack := st, sections := insertField close x.current x.sections, current := "" }
      else { x with stack := st } := by
  unfold closeTag at h
  cases hs : x.stack with
  | nil => rw [hs] at h; cases h
  | cons top st =>
    rw [hs] at h
    simp only at h
    split_ifs at h with htop hlen
    · have : top = close := by simpa using htop
      subst this
      cases h
      exact ⟨st, rfl, by rw [if_pos hlen]⟩
    · have : top = close := by simpa using htop
      subst this
      cases h
      exact ⟨st, rfl, by rw [if_neg hlen]⟩

theorem closeTag_top {x : XmlState} {close : String} {st : List String}
    (hs : x.stack = close :: st) : closeTag x close = .ok (if st.length = 1 then
        { x with stack := st, sections := insertField close x.current x.sections, current := "" }
      else { x with stack := st }) := by
  unfold closeTag
  rw [hs]
  by_cases hlen : st.length = 1 <;> simp [hlen]

theorem readText_deep {x : XmlState} (hd : 2 ≤ x.stack.length) {run : List Char}
    (hr : '<' ∉ run) {y : XmlState} :
    readText x run = .ok y ↔ ∃ text, Run true run text ∧ said x text = y := by
  unfold readText
  rw [if_pos hd]
  constructor
  · intro h
    obtain ⟨text, ht, h⟩ := bind_ok h
    cases h
    exact ⟨text, (xmlUnescape_iff le_rfl le_rfl hr).1 ht, rfl⟩
  · rintro ⟨text, ht, rfl⟩
    rw [(xmlUnescape_iff le_rfl le_rfl hr).2 ht]
    rfl

section deep

variable {x : XmlState} (hd : 2 ≤ x.stack.length)
include hd

theorem readAll_run {run text rest : List Char} (h : Run true run text) (hrest : AtTag rest) :
    readAll x (run ++ rest) = readAll (said x text) rest := by
  by_cases hne : run = []
  · subst hne
    cases h
    rw [said_nil]
    rfl
  · rw [readAll_text x hne h.chars hrest, (readText_deep hd h.chars).2 ⟨text, h, rfl⟩]
    rfl

theorem readAll_opening {name b : List Char} (hn : Name name) (hb : Spacing b) (rest : List Char) :
    readAll x (opening name b ++ rest) = readAll (said (push x (.ofList name)) ['\n']) rest := by
  rw [opening_append, readAll_enter hn hb, enter_deep hd]
  change readAll (newline (push x (.ofList name))) rest = _
  rw [newline_deep (by rw [push_stack, List.length_cons]; omega)]

theorem readAll_empty {name b : List Char} (hn : Name name) (hb : Spacing b) (rest : List Char) :
    readAll x (empty name b ++ rest) = readAll (said x ['\n']) rest := by
  rw [empty_append, readAll_enter hn hb, enter_deep hd]
  change readAll (newline x) rest = _
  rw [newline_deep hd]

theorem readAll_closing {name b : List Char} (hn : Name name) (hb : Spacing b) (text rest : List Char) :
    readAll (said (push x (.ofList name)) text) (closing name b ++ rest) =
      readAll (said x (text ++ ['\n'])) rest := by
  have hone : x.stack.length ≠ 1 := by omega
  rw [readAll_close hn hb, @closeTag_top _ _ x.stack rfl, if_neg hone]
  change readAll (newline (said x text)) rest = _
  rw [newline_deep (by simpa using hd), said_said]

end deep

/-- What the reader makes of the inside of an element. -/
theorem Content.reads {cs text : List Char} (h : Content true cs text) {x : XmlState}
    (hd : 2 ≤ x.stack.length) {rest : List Char} (hrest : AtTag rest) :
    readAll x (cs ++ rest) = readAll (said x text) rest := by
  induction h generalizing x rest with
  | run h => exact readAll_run hd h hrest
  | @element before said' name b b' inside insideText after afterText hb hn hs hs' hi h ihi ih =>
    have hd' : 2 ≤ (said (push (said x said') (.ofList name)) ['\n']).stack.length := by
      simp only [said_stack, push_stack, List.length_cons]
      omega
    simp only [List.append_assoc]
    rw [readAll_run hd hb (atTag_opening _ _ _),
      readAll_opening (by simpa using hd) hn hs, ihi hd' (atTag_closing _ _ _), said_said,
      readAll_closing (by simpa using hd) hn hs', ih (by simpa using hd) hrest]
    simp
  | empty hb hn hs h ih =>
    simp only [List.append_assoc]
    rw [readAll_run hd hb (atTag_empty _ _ _), readAll_empty (by simpa using hd) hn hs,
      ih (by simpa using hd) hrest]
    simp

/-- Text in front of the inside of an element belongs to it. -/
theorem Content.prepend {signed : Bool} {run text cs said : List Char} (hr : Run signed run text)
    (h : Content signed cs said) : Content signed (run ++ cs) (text ++ said) := by
  cases h with
  | run h => exact .run (hr.append h)
  | element hb hn hs hs' hi h =>
    have := Content.element (hr.append hb) hn hs hs' hi h
    simpa using this
  | empty hb hn hs h =>
    have := Content.empty (hr.append hb) hn hs h
    simpa using this

/-- What an accepting run has read up to the tag that closes the innermost element. -/
theorem inside_of_reads {n : Nat} {x x' : XmlState} {top : String} {st : List String}
    {cs : List Char} (hn : cs.length ≤ n) (hs : x.stack = top :: st) (hd : st ≠ [])
    (h : readAll x cs = .ok x') (hx' : x'.stack = []) :
    ∃ inside text b rest, cs = inside ++ (closing top.toList b ++ rest) ∧
      Content true inside text ∧ Spacing b := by
  induction n generalizing x top st cs with
  | zero =>
    obtain rfl : cs = [] := List.length_eq_zero_iff.1 (by omega)
    cases h
    rw [hs] at hx'
    cases hx'
  | succ n ih =>
    have hdeep : 2 ≤ x.stack.length := by
      rw [hs]
      have := List.length_pos_iff.2 hd
      simp only [List.length_cons]
      omega
    obtain ⟨run, rest, rfl, hr, hrest⟩ := split_text cs
    by_cases hne : run = []
    · subst hne
      rw [List.nil_append] at h hn ⊢
      rcases hrest with rfl | ⟨rest, rfl⟩
      · cases h
        rw [hs] at hx'
        cases hx'
      · by_cases hclose : '>' ∈ rest
        · obtain ⟨tag, rest, rfl, ht⟩ := List.eq_append_cons_of_mem hclose
          simp only [List.length_cons, List.length_append] at hn
          rw [readAll_tag x ht] at h
          obtain ⟨y, hy, h⟩ := bind_ok h
          rcases readTag_ok hy with ⟨name, b, z, hb, rfl, hz, rfl⟩ |
            ⟨name, b, selfClosing, z, hname, hb, rfl, hz, rfl⟩
          · -- the tag closes the innermost element
            obtain ⟨st', hst, -⟩ := closeTag_ok hz
            rw [hs] at hst
            injection hst with htop _
            subst htop
            exact ⟨[], [], b, rest, by rw [closing_append]; rfl, .run .nil, hb⟩
          · rw [enter_deep hdeep] at hz
            cases selfClosing with
            | true =>
              cases hz
              have hstack : (newline x).stack = top :: st := by
                rw [newline_deep hdeep, said_stack, hs]
              obtain ⟨inside, text, b', after, rfl, hi, hb'⟩ := ih (by omega) hstack hd h
              refine ⟨[] ++ (empty name b ++ inside), _, b', after, ?_, .empty .nil hname hb hi, hb'⟩
              simp [empty, slash]
            | false =>
              cases hz
              -- the element opened here closes first, then the innermost one
              have hdeep' : 2 ≤ (push x (.ofList name)).stack.length := by
                rw [push_stack, List.length_cons]
                omega
              have hdeep'' : 2 ≤ (said (push x (.ofList name)) ['\n']).stack.length := hdeep'
              change readAll (newline (push x (.ofList name))) rest = .ok x' at h
              rw [newline_deep hdeep'] at h
              obtain ⟨inside, text, b', after, rfl, hi, hb'⟩ :=
                ih (by omega) (said_stack _ _) (List.length_pos_iff.1 (by omega)) h
              rw [String.toList_ofList] at h hn ⊢
              rw [hi.reads hdeep'' (atTag_closing _ _ _), said_said,
                readAll_closing hdeep hname hb'] at h
              simp only [List.length_append] at hn
              obtain ⟨inside', text', b'', after', rfl, hi', hb''⟩ := ih (by omega)
                (by rw [said_stack, hs]) hd h
              refine ⟨[] ++ (opening name b ++ (inside ++ (closing name b' ++ inside'))), _, b'',
                after', ?_, .element .nil hname hb hb' hi hi', hb''⟩
              simp [opening, slash]
        · rw [readAll_open x hclose] at h
          cases h
    · rw [readAll_text x hne hr hrest] at h
      obtain ⟨y, hy, h⟩ := bind_ok h
      obtain ⟨text, ht, rfl⟩ := (readText_deep hdeep hr).1 hy
      have hlen := List.length_pos_iff.2 hne
      simp only [List.length_append] at hn
      obtain ⟨inside, said', b, after, rfl, hi, hb⟩ := ih (by omega) (by rw [said_stack, hs]) hd h
      exact ⟨run ++ inside, text ++ said', b, after, by simp, hi.prepend ht, hb⟩

/-! ## The lines of a section -/

/-- What is left of a text cut in front of each line end. -/
def kept (cs : List Char) : List String :=
  ((splitLines cs).map fun line => trim (.ofList line)).filter (· ≠ "")

theorem splitLines_eq (cs : List Char) : splitLines cs = cs.splitBy fun _ c => !lineEnd c := rfl

theorem blank_lineEnd {c : Char} (h : lineEnd c = true) : isWhitespace c = true := by
  simp only [lineEnd, Bool.or_eq_true, decide_eq_true_eq] at h
  rcases h with (((rfl | rfl) | h) | h) | h
  · decide
  · decide
  · simp [isWhitespace, h]
  · simp [isWhitespace, h]
  · simp [isWhitespace, h]

theorem kept_append {cs rest : List Char} {c : Char} (hc : lineEnd c = true) :
    kept (cs ++ c :: rest) = kept cs ++ kept (c :: rest) := by
  unfold kept
  rw [splitLines_eq, splitLines_eq, splitLines_eq, List.splitBy_append_cons]
  · simp
  · intro d _
    simp [hc]

theorem isChain_line {c : Char} {cs : List Char} (h : ∀ d ∈ cs, lineEnd d = false) :
    (c :: cs).IsChain fun _ d => (!lineEnd d) = true := by
  induction cs generalizing c with
  | nil => exact .singleton c
  | cons d cs ih =>
    apply List.IsChain.cons_cons
    · simp [h d List.mem_cons_self]
    · exact ih fun e he => h e (List.mem_cons_of_mem _ he)

/-- The line of a text without line ends, when it is not blank. -/
theorem kept_line {c : Char} {cs : List Char} (h : ∀ d ∈ cs, lineEnd d = false) :
    kept (c :: cs) = [trim (.ofList (c :: cs))].filter (· ≠ "") := by
  unfold kept
  rw [splitLines_eq, List.splitBy_of_isChain (List.cons_ne_nil c cs) (isChain_line h)]
  rfl

theorem kept_of_not_mem {cs : List Char} (h : ∀ d ∈ cs, lineEnd d = false) :
    kept cs = [trim (.ofList cs)].filter (· ≠ "") := by
  cases cs with
  | nil => simp [kept, splitLines, trim]
  | cons c cs => exact kept_line fun d hd => h d (List.mem_cons_of_mem _ hd)

theorem split_line (cs : List Char) : ∃ a, (∀ d ∈ a, lineEnd d = false) ∧
    (cs = a ∨ ∃ d rest, lineEnd d = true ∧ cs = a ++ d :: rest) := by
  refine ⟨cs.takeWhile fun d => !lineEnd d, ?_, ?_⟩
  · intro d hd
    simpa using List.mem_takeWhile_imp hd
  · have hsplit := List.takeWhile_append_dropWhile (p := fun d => !lineEnd d) (l := cs)
    cases hrest : cs.dropWhile fun d => !lineEnd d with
    | nil =>
      rw [hrest, List.append_nil] at hsplit
      exact .inl hsplit.symm
    | cons d rest =>
      have := List.head?_dropWhile_not (fun d => !lineEnd d) cs
      rw [hrest] at this hsplit
      exact .inr ⟨d, rest, by simpa using this, hsplit.symm⟩

/-- A line end in front of a text changes none of its lines. -/
theorem kept_lineEnd {c : Char} (hc : lineEnd c = true) (cs : List Char) :
    kept (c :: cs) = kept cs := by
  have hline : ∀ {a : List Char}, (∀ d ∈ a, lineEnd d = false) → kept (c :: a) = kept a := by
    intro a ha
    have hblank : Spacing [c] := by
      intro d hd
      rw [List.mem_singleton.1 hd]
      exact blank_lineEnd hc
    rw [kept_line ha, kept_of_not_mem ha]
    exact congrArg (fun s => [s].filter (· ≠ "")) (trim_blank_append hblank a)
  obtain ⟨a, ha, rfl | ⟨d, rest, hd, rfl⟩⟩ := split_line cs
  · exact hline ha
  · rw [← List.cons_append, kept_append hd, kept_append hd, hline ha]

theorem sectionLines_append {c : Char} (hc : lineEnd c = true) (cs rest : List Char) :
    sectionLines (cs ++ c :: rest) = sectionLines cs ++ sectionLines rest := by
  unfold sectionLines
  rw [List.splitOnP_append_cons cs rest hc, List.map_append, List.filter_append]

theorem sectionLines_of_not_mem {cs : List Char} (h : ∀ d ∈ cs, lineEnd d = false) :
    sectionLines cs = [trim (.ofList cs)].filter (· ≠ "") := by
  unfold sectionLines
  rw [List.splitOnP_eq_singleton h]
  rfl

theorem kept_eq {n : Nat} {cs : List Char} (hn : cs.length ≤ n) : kept cs = sectionLines cs := by
  induction n generalizing cs with
  | zero =>
    obtain rfl : cs = [] := List.length_eq_zero_iff.1 (by omega)
    rw [kept_of_not_mem (by simp), sectionLines_of_not_mem (by simp)]
  | succ n ih =>
    obtain ⟨a, ha, rfl | ⟨d, rest, hd, rfl⟩⟩ := split_line cs
    · rw [kept_of_not_mem ha, sectionLines_of_not_mem ha]
    · simp only [List.length_append, List.length_cons] at hn
      rw [kept_append hd, sectionLines_append hd, kept_lineEnd hd, kept_of_not_mem ha,
        sectionLines_of_not_mem ha, ih (by omega)]

/-- A finished section is told by its lines. -/
theorem tidySection_eq (cs : List Char) :
    tidySection (.ofList cs) = joinWith "\n" (sectionLines cs) := by
  rw [← kept_eq le_rfl]
  unfold tidySection
  rw [String.toList_ofList]
  rfl

theorem tidySection_newline (cs : List Char) :
    tidySection (.ofList ('\n' :: cs)) = joinWith "\n" (sectionLines cs) := by
  rw [tidySection_eq, ← kept_eq le_rfl, kept_lineEnd rfl, kept_eq le_rfl]

theorem tidySection_empty : tidySection "" = joinWith "\n" (sectionLines []) := by
  rw [← String.ofList_nil, tidySection_eq]

/-! ## The sections -/

/-- The reader between two sections. -/
def between (sections : List (String × String)) : XmlState :=
  { stack := ["COMPACTED_STATE"], sections, rootSeen := true }

/-- The reader keeps what a section says, up to how its lines are told apart. -/
def Stored (block : String × List Char) (stored : String × String) : Prop :=
  block.1 = stored.1 ∧ tidySection stored.2 = joinWith "\n" (sectionLines block.2)

theorem insertField_append {name : String} {text : String} {sections : List (String × String)}
    (h : name ∉ sections.map Prod.fst) :
    insertField name text sections = sections ++ [(name, text)] := by
  induction sections with
  | nil => rfl
  | cons field sections ih =>
    rw [List.map_cons, List.mem_cons, not_or] at h
    rw [insertField, if_neg (Ne.symm h.1), ih h.2]
    rfl

theorem name_of_mem {name : String} (h : name ∈ sectionNames) : Name name.toList := by
  simp only [sectionNames, List.mem_cons, List.not_mem_nil, or_false] at h
  rcases h with rfl | rfl | rfl | rfl <;>
    exact ⟨by decide, by decide, by simp [isWhitespace]⟩

theorem name_root : Name "COMPACTED_STATE".toList :=
  ⟨by decide, by decide, by simp [isWhitespace]⟩

section sections

variable {sections : List (String × String)}

theorem readAll_blank {x : XmlState} (hs : x.stack.length < 2) {b rest : List Char} (hb : Spacing b)
    (hrest : AtTag rest) : readAll x (b ++ rest) = readAll x rest := by
  by_cases hne : b = []
  · rw [hne, List.nil_append]
  · have hlt : '<' ∉ b := by
      intro h
      have := hb _ h
      revert this
      decide
    have htext : readText x b = .ok x := by
      unfold readText
      rw [if_neg (by omega), if_pos (trim_isEmpty_iff.2 hb)]
    rw [readAll_text x hne hlt hrest, htext]
    rfl

/-- Outside the sections there is white space only. -/
theorem blank_of_readText {x y : XmlState} (hs : x.stack.length < 2) {run : List Char}
    (h : readText x run = .ok y) : Spacing run ∧ y = x := by
  unfold readText at h
  rw [if_neg (by omega)] at h
  split_ifs at h with htrim
  · cases h
    exact ⟨trim_isEmpty_iff.1 htrim, rfl⟩

theorem enter_section {name : String} {selfClosing : Bool} (hn : name ∈ sectionNames)
    (hnew : name ∉ sections.map Prod.fst) : enter (between sections) name selfClosing =
      .ok (if selfClosing then between (sections ++ [(name, "")])
        else push (between sections) name) := by
  have hlookup : lookup name sections = none := lookup_eq_none.2 hnew
  have hinsert := @insertField_append _ "" _ hnew
  unfold enter
  cases selfClosing <;> simp [between, push, hlookup, hinsert, hn]

theorem section_of_enter {name : String} {selfClosing : Bool} {y : XmlState}
    (h : enter (between sections) name selfClosing = .ok y) :
    name ∈ sectionNames ∧ name ∉ sections.map Prod.fst := by
  unfold enter at h
  by_cases hn : name ∈ sectionNames
  · refine ⟨hn, fun hmem => ?_⟩
    have := lookup_isSome_iff.2 hmem
    simp [between, this] at h
  · simp [between, hn] at h

theorem readAll_section {name : String} (hn : name ∈ sectionNames)
    (hnew : name ∉ sections.map Prod.fst) {b b' inside text : List Char} (hb : Spacing b)
    (hb' : Spacing b') (hi : Content true inside text) (rest : List Char) :
    readAll (between sections)
        (opening name.toList b ++ (inside ++ (closing name.toList b' ++ rest))) =
      readAll (between (sections ++ [(name, .ofList ('\n' :: text))])) rest := by
  have hname := name_of_mem hn
  have hstart : newline (push (between sections) name) =
      said (push (between sections) name) ['\n'] := newline_deep le_rfl
  have hone : (between sections).stack.length = 1 := rfl
  rw [opening_append, readAll_enter hname hb, String.ofList_toList, enter_section hn hnew]
  change readAll (newline (push (between sections) name)) _ = _
  rw [hstart, hi.reads le_rfl (atTag_closing _ _ _), said_said, readAll_close hname hb',
    String.ofList_toList, closeTag_top rfl, if_pos hone]
  change readAll (newline (between (insertField name _ sections))) rest = _
  rw [newline_shallow (by simp [between]), insertField_append hnew]
  rfl

theorem readAll_emptySection {name : String} (hn : name ∈ sectionNames)
    (hnew : name ∉ sections.map Prod.fst) {b : List Char} (hb : Spacing b) (rest : List Char) :
    readAll (between sections) (empty name.toList b ++ rest) =
      readAll (between (sections ++ [(name, "")])) rest := by
  rw [empty_append, readAll_enter (name_of_mem hn) hb, String.ofList_toList, enter_section hn hnew]
  change readAll (newline (between (sections ++ [(name, "")]))) rest = _
  rw [newline_shallow (by simp [between])]

end sections

/-- The names of the sections read so far and of those to come are distinct. -/
def Fresh (stored : List (String × String)) (sections : List (String × List Char)) : Prop :=
  (stored.map Prod.fst ++ sections.map Prod.fst).Nodup

theorem Fresh.head {stored : List (String × String)} {name : String} {text : List Char}
    {sections : List (String × List Char)} (h : Fresh stored ((name, text) :: sections)) :
    name ∉ stored.map Prod.fst := by
  intro hmem
  rw [Fresh, List.nodup_append] at h
  exact h.2.2 name hmem name (by simp) rfl

theorem fresh_cons {stored : List (String × String)} {name said : String} {text : List Char}
    {sections : List (String × List Char)} :
    Fresh stored ((name, text) :: sections) ↔ Fresh (stored ++ [(name, said)]) sections := by
  unfold Fresh
  simp

/-- What the reader makes of the sections. -/
theorem Sections.reads {cs : List Char} {sections : List (String × List Char)}
    (h : Sections true cs sections) {done : List (String × String)} (hf : Fresh done sections)
    {rest : List Char} (hrest : AtTag rest) : ∃ stored, List.Forall₂ Stored sections stored ∧
      readAll (between done) (cs ++ rest) = readAll (between (done ++ stored)) rest := by
  have hshallow : ∀ sections, (between sections).stack.length < 2 := by
    intro sections
    simp [between]
  induction h generalizing done with
  | nil hb =>
    refine ⟨[], .nil, ?_⟩
    rw [readAll_blank (hshallow _) hb hrest, List.append_nil]
  | @filled blank b b' inside text after name sections hb hn hs hs' hi h ih =>
    obtain ⟨stored, hstored, hread⟩ :=
      @ih (done ++ [(name, .ofList ('\n' :: text))]) (fresh_cons.1 hf)
    refine ⟨(name, .ofList ('\n' :: text)) :: stored,
      .cons ⟨rfl, tidySection_newline text⟩ hstored, ?_⟩
    simp only [List.append_assoc]
    rw [readAll_blank (hshallow _) hb (atTag_opening _ _ _),
      readAll_section hn hf.head hs hs' hi, hread]
    simp
  | @empty blank b after name sections hb hn hs h ih =>
    obtain ⟨stored, hstored, hread⟩ := @ih (done ++ [(name, "")]) (fresh_cons.1 hf)
    refine ⟨(name, "") :: stored, .cons ⟨rfl, tidySection_empty⟩ hstored, ?_⟩
    simp only [List.append_assoc]
    rw [readAll_blank (hshallow _) hb (atTag_empty _ _ _),
      readAll_emptySection hn hf.head hs, hread]
    simp

theorem Sections.prepend {signed : Bool} {b cs : List Char} {sections : List (String × List Char)}
    (hb : Spacing b) (h : Sections signed cs sections) : Sections signed (b ++ cs) sections := by
  cases h with
  | nil hb' => exact .nil (hb.append hb')
  | filled hb' hn hs hs' hi h =>
    have := Sections.filled (hb.append hb') hn hs hs' hi h
    simpa using this
  | empty hb' hn hs h =>
    have := Sections.empty (hb.append hb') hn hs h
    simpa using this

/-- What an accepting run has read up to the tag that closes the root. -/
theorem sections_of_reads {n : Nat} {done : List (String × String)} {x' : XmlState}
    {cs : List Char} (hn : cs.length ≤ n) (hdone : (done.map Prod.fst).Nodup)
    (h : readAll (between done) cs = .ok x') (hx' : x'.stack = []) :
    ∃ inside sections b rest, cs = inside ++ (closing "COMPACTED_STATE".toList b ++ rest) ∧
      Sections true inside sections ∧ Fresh done sections ∧ Spacing b := by
  induction n generalizing done cs with
  | zero =>
    obtain rfl : cs = [] := List.length_eq_zero_iff.1 (by omega)
    cases h
    cases hx'
  | succ n ih =>
    have hshallow : (between done).stack.length < 2 := by simp [between]
    obtain ⟨run, rest, rfl, hr, hrest⟩ := split_text cs
    by_cases hne : run = []
    · subst hne
      rw [List.nil_append] at h hn ⊢
      rcases hrest with rfl | ⟨rest, rfl⟩
      · cases h
        cases hx'
      · by_cases hclose : '>' ∈ rest
        · obtain ⟨tag, rest, rfl, ht⟩ := List.eq_append_cons_of_mem hclose
          simp only [List.length_cons, List.length_append] at hn
          have hread := h
          rw [readAll_tag _ ht] at hread
          obtain ⟨y, hy, -⟩ := bind_ok hread
          rcases readTag_ok hy with ⟨name, b, z, hb, rfl, hz, rfl⟩ |
            ⟨name, b, selfClosing, z, hname, hb, rfl, hz, rfl⟩
          · -- the tag closes the root
            obtain ⟨st, hst, -⟩ := closeTag_ok hz
            injection hst with htop _
            subst htop
            refine ⟨[], [], b, rest, by rw [closing_append]; rfl, .nil .nil, ?_, hb⟩
            simpa [Fresh] using hdone
          · obtain ⟨hmem, hnew⟩ := section_of_enter hz
            obtain ⟨name, rfl⟩ : ∃ s : String, name = s.toList := ⟨.ofList name, by simp⟩
            rw [String.ofList_toList] at hmem hnew
            have hdone' : ∀ said, ((done ++ [(name, said)]).map Prod.fst).Nodup := by
              intro said
              rw [List.map_append, List.nodup_append]
              refine ⟨hdone, by simp, ?_⟩
              intro a ha b' hb' heq
              have : b' = name := by simpa using hb'
              exact hnew (this ▸ heq ▸ ha)
            cases selfClosing with
            | true =>
              rw [← empty_append, readAll_emptySection hmem hnew hb] at h
              obtain ⟨inside, sections, b', after, rfl, hi, hf, hb'⟩ := ih (by omega) ( hdone' "") h
              refine ⟨[] ++ (empty name.toList b ++ inside), _, b', after, ?_,
                .empty .nil hmem hb hi, fresh_cons.2 hf, hb'⟩
              simp [empty, slash]
            | false =>
              have hstart : enter (between done) name false = .ok (push (between done) name) :=
                enter_section hmem hnew
              have hdeep : (newline (push (between done) name)).stack =
                  name :: ["COMPACTED_STATE"] := by
                rw [newline_deep le_rfl]
                rfl
              have hinside := h
              rw [readAll_enter hname hb, String.ofList_toList, hstart] at hinside
              obtain ⟨inside, text, b', after, rfl, hi, hb'⟩ :=
                inside_of_reads le_rfl hdeep (by simp) hinside hx'
              rw [← opening_append, readAll_section hmem hnew hb hb' hi] at h
              simp only [List.length_append] at hn
              obtain ⟨inside', sections, b'', after', rfl, hi', hf, hb''⟩ :=
                ih (by omega) (hdone' _) h
              refine ⟨[] ++ (opening name.toList b ++ (inside ++ (closing name.toList b' ++
                inside'))), _, b'', after', ?_, .filled .nil hmem hb hb' hi hi', fresh_cons.2 hf,
                hb''⟩
              simp [opening, slash]
        · rw [readAll_open _ hclose] at h
          cases h
    · have hlen := List.length_pos_iff.2 hne
      rw [readAll_text _ hne hr hrest] at h
      obtain ⟨y, hy, h⟩ := bind_ok h
      obtain ⟨hblank, rfl⟩ := blank_of_readText hshallow hy
      simp only [List.length_append] at hn
      obtain ⟨inside, sections, b, after, rfl, hi, hf, hb⟩ := ih (by omega) hdone h
      exact ⟨run ++ inside, sections, b, after, by simp, hi.prepend hblank, hf, hb⟩

/-! ## The document -/

/-- The reader after the root. -/
def finished (sections : List (String × String)) : XmlState := { sections, rootSeen := true }

theorem readAll_root {b : List Char} (hb : Spacing b) (rest : List Char) :
    readAll {} (opening "COMPACTED_STATE".toList b ++ rest) = readAll (between []) rest := by
  have henter : enter {} "COMPACTED_STATE" false = .ok (between []) := by simp [enter, between]
  rw [opening_append, readAll_enter name_root hb, String.ofList_toList, henter]
  change readAll (newline (between [])) rest = _
  rw [newline_shallow (by simp [between])]

theorem readAll_closeRoot (sections : List (String × String)) {b : List Char} (hb : Spacing b)
    (rest : List Char) :
    readAll (between sections) (closing "COMPACTED_STATE".toList b ++ rest) =
      readAll (finished sections) rest := by
  rw [readAll_close name_root hb, String.ofList_toList, @closeTag_top _ _ [] rfl,
    if_neg (by simp)]
  change readAll (newline (finished sections)) rest = _
  rw [newline_shallow (by simp [finished])]

/-- What the reader makes of a document. -/
theorem Root.reads {cs : List Char} {sections : List (String × List Char)}
    (h : Root true cs sections) (hf : Fresh [] sections) : ∃ stored,
      List.Forall₂ Stored sections stored ∧ readAll {} cs = .ok (finished stored) := by
  obtain ⟨hb, hs, hs', ha, h⟩ := h
  obtain ⟨stored, hstored, hread⟩ := h.reads hf (atTag_closing _ _ _)
  refine ⟨stored, hstored, ?_⟩
  have hafter := readAll_blank (x := finished stored) (by simp [finished]) ha (.inl rfl)
  rw [readAll_blank (by simp) hb (atTag_opening _ _ _), readAll_root hs, hread,
    readAll_closeRoot _ hs', List.nil_append]
  rwa [List.append_nil] at hafter

/-- After the root there is white space only. -/
theorem blank_of_finished {n : Nat} {x y : XmlState} {cs : List Char} (hn : cs.length ≤ n)
    (hs : x.stack = []) (hroot : x.rootSeen = true) (h : readAll x cs = .ok y) :
    Spacing cs ∧ y = x := by
  induction n generalizing cs with
  | zero =>
    obtain rfl : cs = [] := List.length_eq_zero_iff.1 (by omega)
    cases h
    exact ⟨.nil, rfl⟩
  | succ n ih =>
    obtain ⟨run, rest, rfl, hr, hrest⟩ := split_text cs
    by_cases hne : run = []
    · subst hne
      rw [List.nil_append] at h ⊢
      rcases hrest with rfl | ⟨rest, rfl⟩
      · cases h
        exact ⟨.nil, rfl⟩
      · -- there is no element to close, and none may open
        exfalso
        by_cases hclose : '>' ∈ rest
        · obtain ⟨tag, rest, rfl, ht⟩ := List.eq_append_cons_of_mem hclose
          rw [readAll_tag _ ht] at h
          obtain ⟨z, hz, -⟩ := bind_ok h
          rcases readTag_ok hz with ⟨name, b, z, -, -, hz, -⟩ | ⟨name, b, selfClosing, z, -, -, -, hz, -⟩
          · obtain ⟨st, hst, -⟩ := closeTag_ok hz
            rw [hs] at hst
            cases hst
          · unfold enter at hz
            simp [hs, hroot] at hz
        · rw [readAll_open _ hclose] at h
          cases h
    · have hlen := List.length_pos_iff.2 hne
      have hshallow : x.stack.length < 2 := by simp [hs]
      rw [readAll_text _ hne hr hrest] at h
      obtain ⟨z, hz, hnext⟩ := bind_ok h
      obtain ⟨hblank, rfl⟩ := blank_of_readText hshallow hz
      simp only [List.length_append] at hn
      obtain ⟨hrestBlank, rfl⟩ := ih (by omega) hnext
      exact ⟨hblank.append hrestBlank, rfl⟩

theorem Root.pad {signed : Bool} {b b' cs : List Char} {sections : List (String × List Char)}
    (hb : Spacing b) (h : Root signed cs sections) (hb' : Spacing b') :
    Root signed (b ++ (cs ++ b')) sections := by
  obtain ⟨hbefore, hs, hs', ha, h⟩ := h
  have := Root.root (hb.append hbefore) hs hs' (ha.append hb') h
  simpa using this

/-- What an accepting run has read is a document. -/
theorem root_of_reads {n : Nat} {y : XmlState} {cs : List Char} (hn : cs.length ≤ n)
    (h : readAll {} cs = .ok y) (hroot : y.rootSeen = true) (hs : y.stack = [])
    (hsections : y.sections ≠ []) :
    ∃ sections, Root true cs sections ∧ Fresh [] sections := by
  induction n generalizing cs with
  | zero =>
    obtain rfl : cs = [] := List.length_eq_zero_iff.1 (by omega)
    cases h
    cases hroot
  | succ n ih =>
    obtain ⟨run, rest, rfl, hr, hrest⟩ := split_text cs
    by_cases hne : run = []
    · subst hne
      rw [List.nil_append] at h hn ⊢
      rcases hrest with rfl | ⟨rest, rfl⟩
      · cases h
        cases hroot
      · by_cases hclose : '>' ∈ rest
        · obtain ⟨tag, rest, rfl, ht⟩ := List.eq_append_cons_of_mem hclose
          have hread := h
          rw [readAll_tag _ ht] at hread
          obtain ⟨z, htag, hnext⟩ := bind_ok hread
          rcases readTag_ok htag with ⟨name, b, z, -, -, hz, -⟩ |
            ⟨name, b, selfClosing, z, hname, hb, rfl, hz, rfl⟩
          · obtain ⟨st, hst, -⟩ := closeTag_ok hz
            cases hst
          · have hname : String.ofList name = "COMPACTED_STATE" := by
              by_contra hnot
              unfold enter at hz
              simp [hnot] at hz
            obtain rfl : name = "COMPACTED_STATE".toList := ofList_eq.1 hname
            cases selfClosing with
            | true =>
              -- a root that closes itself has no sections
              have hz' : enter {} (.ofList "COMPACTED_STATE".toList) true =
                  .ok (finished []) := by
                rw [String.ofList_toList]
                simp [enter, finished]
              rw [hz'] at hz
              cases hz
              rw [newline_shallow (by simp [finished])] at hnext
              obtain ⟨-, rfl⟩ := blank_of_finished le_rfl rfl rfl hnext
              exact absurd rfl hsections
            | false =>
              rw [← opening_append, readAll_root hb] at h
              obtain ⟨inside, sections, b', after, rfl, hi, hf, hb'⟩ :=
                @sections_of_reads _ [] _ _ le_rfl List.nodup_nil h hs
              obtain ⟨stored, -, hstored⟩ := hi.reads hf (atTag_closing _ b' after)
              rw [hstored, readAll_closeRoot _ hb'] at h
              obtain ⟨hafter, -⟩ := blank_of_finished le_rfl rfl rfl h
              have := Root.root .nil hb hb' hafter hi
              refine ⟨sections, ?_, hf⟩
              simpa [opening, slash] using this
        · rw [readAll_open _ hclose] at h
          cases h
    · have hlen := List.length_pos_iff.2 hne
      rw [readAll_text _ hne hr hrest] at h
      obtain ⟨z, hz, hnext⟩ := bind_ok h
      obtain ⟨hblank, rfl⟩ := blank_of_readText (by simp) hz
      simp only [List.length_append] at hn
      obtain ⟨sections, hi, hf⟩ := ih (by omega) hnext
      refine ⟨sections, ?_, hf⟩
      have := hi.pad hblank .nil
      simpa using this

theorem Sections.names {signed : Bool} {cs : List Char} {sections : List (String × List Char)}
    (h : Sections signed cs sections) : ∀ name ∈ sections.map Prod.fst, name ∈ sectionNames := by
  induction h with
  | nil => simp
  | filled _ hn _ _ _ _ ih =>
    intro name hname
    rcases List.mem_cons.1 hname with rfl | hname
    · exact hn
    · exact ih name hname
  | empty _ hn _ _ ih =>
    intro name hname
    rcases List.mem_cons.1 hname with rfl | hname
    · exact hn
    · exact ih name hname

theorem Root.names {signed : Bool} {cs : List Char} {sections : List (String × List Char)}
    (h : Root signed cs sections) : ∀ name ∈ sections.map Prod.fst, name ∈ sectionNames := by
  obtain ⟨-, -, -, -, h⟩ := h
  exact h.names

/-- The loop accepts the documents with the four sections. -/
theorem reads_iff {cs : List Char} {y : XmlState} :
    (readAll {} cs = .ok y ∧ y.rootSeen = true ∧ y.stack = [] ∧ y.sections.length = 4) ↔
      ∃ sections stored, Root true cs sections ∧ (sections.map Prod.fst).Perm sectionNames ∧
        List.Forall₂ Stored sections stored ∧ readAll {} cs = .ok y ∧ y = finished stored := by
  constructor
  · rintro ⟨hread, hroot, hs, hlength⟩
    have hne : y.sections ≠ [] := by
      intro h
      simp [h] at hlength
    obtain ⟨sections, hr, hf⟩ := root_of_reads le_rfl hread hroot hs hne
    obtain ⟨stored, hstored, hread'⟩ := hr.reads hf
    have hy : y = finished stored := Except.ok.inj (hread.symm.trans hread')
    have hnodup : (sections.map Prod.fst).Nodup := by simpa [Fresh] using hf
    have hlen : (sections.map Prod.fst).length = 4 := by
      rw [List.length_map, hstored.length_eq, ← hlength, hy]
      rfl
    have hperm : (sections.map Prod.fst).Perm sectionNames :=
      (List.subperm_of_subset hnodup hr.names).perm_of_length_le (by rw [hlen]; decide)
    exact ⟨sections, stored, hr, hperm, hstored, hread, hy⟩
  · rintro ⟨sections, stored, hr, hperm, hstored, hread, rfl⟩
    refine ⟨hread, rfl, rfl, ?_⟩
    change stored.length = 4
    rw [← hstored.length_eq, ← List.length_map (f := Prod.fst), hperm.length_eq]
    rfl

/-- The text of a section, as the reader stores it. -/
theorem lookup_stored {sections : List (String × List Char)} {stored : List (String × String)}
    (h : List.Forall₂ Stored sections stored) {name : String}
    (hn : name ∈ sections.map Prod.fst) : ∃ s, lookup name stored = some s ∧
      tidySection s = joinWith "\n" (sectionLines ((lookup name sections).getD [])) := by
  induction h with
  | nil => cases hn
  | @cons a b _ _ hab _ ih =>
    obtain ⟨hname, htidy⟩ := hab
    rw [@lookup_cons _ _ b.1, @lookup_cons _ _ a.1]
    by_cases ha : a.1 = name
    · rw [if_pos ha, if_pos (hname ▸ ha)]
      exact ⟨b.2, rfl, htidy⟩
    · rw [if_neg ha, if_neg (hname ▸ ha)]
      apply ih
      simpa [Ne.symm ha] using hn

/-- A section at the end of the reader. -/
def takeSection (sections : List (String × String)) (name : String) : Except String String :=
  match lookup name sections with
  | some s => .ok (tidySection s)
  | none => .error "missing section"

theorem mapM_of_forall {α β : Type} {f : α → Except String β} {g : α → β} {xs : List α}
    (h : ∀ a ∈ xs, f a = .ok (g a)) : xs.mapM f = .ok (xs.map g) := by
  induction xs with
  | nil => rfl
  | cons a xs ih =>
    rw [List.mapM_cons, h a List.mem_cons_self, ih fun b hb => h b (List.mem_cons_of_mem _ hb)]
    rfl

theorem trimmed_root {name b inside b' : List Char} :
    Trimmed (opening name b ++ (inside ++ closing name b')) := by
  constructor
  · intro c hc
    obtain rfl : '<' = c := by simpa [opening] using hc
    decide
  · intro c hc
    have hlast : (closing name b').getLast? = some '>' := by
      have hclosing : closing name b' = ('<' :: '/' :: (name ++ b')) ++ ['>'] := by simp [closing]
      rw [hclosing, List.getLast?_append]
      rfl
    rw [List.getLast?_append, List.getLast?_append, hlast] at hc
    obtain rfl : '>' = c := by simpa using hc
    decide

/-- White space around a document is not part of it. -/
theorem root_trim {signed : Bool} {text : String} {sections : List (String × List Char)} :
    Root signed (trim text).toList sections ↔ Root signed text.toList sections := by
  constructor
  · intro h
    obtain ⟨b, b', hb, hb', hcs, -⟩ := trim_spec text.toList
    rw [String.ofList_toList] at hcs
    rw [hcs]
    exact h.pad hb hb'
  · generalize hcs : text.toList = cs
    intro h
    obtain ⟨hbefore, hs, hs', ha, h⟩ := h
    next before b b' inside after =>
    have hroot := Root.root .nil hs hs' .nil h
    have htrim := @trim_eq _ (opening "COMPACTED_STATE".toList b ++
      (inside ++ closing "COMPACTED_STATE".toList b')) _ hbefore trimmed_root ha
    have htext : text = .ofList (before ++ (opening "COMPACTED_STATE".toList b ++
        (inside ++ closing "COMPACTED_STATE".toList b') ++ after)) := by
      rw [← String.ofList_toList (s := text), hcs]
      simp only [List.append_assoc]
    rw [htext, htrim, String.toList_ofList]
    simpa using hroot

/-- The reader and the grammar, where a numeric reference may have a plus sign. -/
theorem parseXmlSections_iff {text : String} {sections : List String} :
    parseXmlSections text = .ok sections ↔ Document true text sections := by
  have hparse : parseXmlSections text =
      if containsStr (normalized text) "]]>" then .error "invalid XML character sequence"
      else if (normalized text).toList.any fun c => !xmlCharacter c then
        .error "invalid XML character"
      else if containsStr (normalized text) "<!" || containsStr (normalized text) "<?" then
        .error "XML declarations and comments are forbidden"
      else (readAll {} (trim (normalized text)).toList).bind fun y =>
        if !y.rootSeen || !y.stack.isEmpty || y.sections.length ≠ 4 then
          .error "incomplete summary XML"
        else sectionNames.mapM (takeSection y.sections) := rfl
  have hsections : ∀ {children : List (String × List Char)} {stored : List (String × String)},
      (children.map Prod.fst).Perm sectionNames → List.Forall₂ Stored children stored →
      sectionNames.mapM (takeSection stored) = .ok (sectionNames.map fun name =>
        joinWith "\n" (sectionLines ((lookup name children).getD []))) := by
    intro children stored hperm hstored
    apply mapM_of_forall
    intro name hname
    obtain ⟨s, hs, htidy⟩ := lookup_stored hstored (hperm.mem_iff.2 hname)
    unfold takeSection
    rw [hs, ← htidy]
  have hcheck : ∀ y : XmlState, (!y.rootSeen || !y.stack.isEmpty || y.sections.length ≠ 4) = false ↔
      y.rootSeen = true ∧ y.stack = [] ∧ y.sections.length = 4 := by
    intro y
    simp [and_assoc]
  rw [hparse]
  constructor
  · intro h
    split_ifs at h with hend hchars hdecl
    obtain ⟨y, hy, h⟩ := bind_ok h
    split_ifs at h with hdone
    obtain ⟨hroot, hs, hlength⟩ := (hcheck y).1 (by simpa using hdone)
    obtain ⟨children, stored, hr, hperm, hstored, -, rfl⟩ :=
      reads_iff.1 ⟨hy, hroot, hs, hlength⟩
    have hresult := h.symm.trans (hsections hperm hstored)
    rw [Bool.or_eq_true, not_or] at hdecl
    exact {
      characters := by simpa using hchars
      noSectionEnd := by simpa using hend
      noDeclaration := by simpa using hdecl.1
      noInstruction := by simpa using hdecl.2
      root := ⟨children, root_trim.1 hr, hperm, Except.ok.inj hresult⟩ }
  · rintro ⟨hchars, hend, hdecl, hinst, children, hr, hperm, rfl⟩
    have hfresh : Fresh [] children := by
      have : (sectionNames : List String).Nodup := by decide
      simpa [Fresh] using hperm.nodup_iff.2 this
    have hr' := root_trim.2 hr
    obtain ⟨stored, hstored, hread⟩ := hr'.reads hfresh
    obtain ⟨-, hroot, hs, hlength⟩ :=
      reads_iff.2 ⟨children, stored, hr', hperm, hstored, hread, rfl⟩
    have hdone := (hcheck _).2 ⟨hroot, hs, hlength⟩
    rw [hend, hdecl, hinst, hread]
    simp only [Except.bind, hdone]
    have hany : ((normalized text).toList.any fun c => !xmlCharacter c) = false := by
      simpa using hchars
    rw [hany]
    exact hsections hperm hstored

/-! ## Plus signs -/

theorem Sign.signed {sign : List Char} (h : Sign false sign) : Sign true sign := by
  rcases h with rfl | ⟨h, -⟩
  · exact .inl rfl
  · cases h

theorem Reference.signed {entity : List Char} {c : Char} (h : Reference false entity c) :
    Reference true entity c := by
  cases h with
  | amp => exact .amp
  | lt => exact .lt
  | gt => exact .gt
  | quot => exact .quot
  | apos => exact .apos
  | decimal hs hd hn => exact .decimal hs.signed hd hn
  | hexadecimal hs hd hn => exact .hexadecimal hs.signed hd hn

theorem Run.signed {cs text : List Char} (h : Run false cs text) : Run true cs text := by
  induction h with
  | nil => exact .nil
  | char hlt hamp _ ih => exact .char hlt hamp ih
  | ref hr hc _ ih => exact .ref hr.signed hc ih

theorem Content.signed {cs text : List Char} (h : Content false cs text) :
    Content true cs text := by
  induction h with
  | run h => exact .run h.signed
  | element hb hn hs hs' _ _ ihi ih => exact .element hb.signed hn hs hs' ihi ih
  | empty hb hn hs _ ih => exact .empty hb.signed hn hs ih

theorem Sections.signed {cs : List Char} {sections : List (String × List Char)}
    (h : Sections false cs sections) : Sections true cs sections := by
  induction h with
  | nil hb => exact .nil hb
  | filled hb hn hs hs' hi _ ih => exact .filled hb hn hs hs' hi.signed ih
  | empty hb hn hs _ ih => exact .empty hb hn hs ih

theorem Root.signed {cs : List Char} {sections : List (String × List Char)}
    (h : Root false cs sections) : Root true cs sections := by
  obtain ⟨hb, hs, hs', ha, h⟩ := h
  exact .root hb hs hs' ha h.signed

theorem Document.signed {text : String} {sections : List String}
    (h : Document false text sections) : Document true text sections := by
  obtain ⟨children, hr, hperm, hsections⟩ := h.root
  exact { h with root := ⟨children, hr.signed, hperm, hsections⟩ }

/-- No numeric reference has a plus sign. -/
def Plain (cs : List Char) : Prop :=
  ¬ ['&', '#', '+'] <:+: cs ∧ ¬ ['&', '#', 'x', '+'] <:+: cs

theorem Plain.infix {a b : List Char} (h : Plain b) (hab : a <:+: b) : Plain a :=
  ⟨fun ha => h.1 (ha.trans hab), fun ha => h.2 (ha.trans hab)⟩

theorem Plain.left {a b : List Char} (h : Plain (a ++ b)) : Plain a :=
  h.infix (List.prefix_append a b).isInfix

theorem Plain.right {a b : List Char} (h : Plain (a ++ b)) : Plain b :=
  h.infix (List.suffix_append a b).isInfix

theorem Sign.unsigned {sign : List Char} (h : Sign true sign) (hne : sign ≠ ['+']) :
    Sign false sign := by
  rcases h with rfl | ⟨-, rfl⟩
  · exact .inl rfl
  · exact absurd rfl hne

theorem Reference.unsigned {entity cs : List Char} {c : Char} (h : Reference true entity c)
    (hp : Plain ('&' :: (entity ++ cs))) : Reference false entity c := by
  cases h with
  | amp => exact .amp
  | lt => exact .lt
  | gt => exact .gt
  | quot => exact .quot
  | apos => exact .apos
  | @decimal sign ds n hs hd hn =>
    refine .decimal (hs.unsigned ?_) hd hn
    rintro rfl
    exact hp.1 (List.IsPrefix.isInfix ⟨ds ++ cs, by simp⟩)
  | @hexadecimal sign ds n hs hd hn =>
    refine .hexadecimal (hs.unsigned ?_) hd hn
    rintro rfl
    exact hp.2 (List.IsPrefix.isInfix ⟨ds ++ cs, by simp⟩)

theorem Run.unsigned {cs text : List Char} (h : Run true cs text) (hp : Plain cs) :
    Run false cs text := by
  induction h with
  | nil => exact .nil
  | @char c cs text hlt hamp _ ih => exact .char hlt hamp (ih (Plain.right (a := [c]) hp))
  | @ref entity cs text c hr hc _ ih =>
    refine .ref (hr.unsigned hp) hc (ih ?_)
    apply Plain.right (a := '&' :: (entity ++ [';']))
    simpa using hp

theorem Content.unsigned {cs text : List Char} (h : Content true cs text) (hp : Plain cs) :
    Content false cs text := by
  induction h with
  | run h => exact .run (h.unsigned hp)
  | element hb hn hs hs' _ _ ihi ih =>
    exact .element (hb.unsigned hp.left) hn hs hs' (ihi hp.right.right.left)
      (ih hp.right.right.right.right)
  | empty hb hn hs _ ih => exact .empty (hb.unsigned hp.left) hn hs (ih hp.right.right)

theorem Sections.unsigned {cs : List Char} {sections : List (String × List Char)}
    (h : Sections true cs sections) (hp : Plain cs) : Sections false cs sections := by
  induction h with
  | nil hb => exact .nil hb
  | filled hb hn hs hs' hi _ ih =>
    exact .filled hb hn hs hs' (hi.unsigned hp.right.right.left) (ih hp.right.right.right.right)
  | empty hb hn hs _ ih => exact .empty hb hn hs (ih hp.right.right)

theorem Root.unsigned {cs : List Char} {sections : List (String × List Char)}
    (h : Root true cs sections) (hp : Plain cs) : Root false cs sections := by
  obtain ⟨hb, hs, hs', ha, h⟩ := h
  exact .root hb hs hs' ha (h.unsigned hp.right.right.left)

theorem Document.unsigned {text : String} {sections : List String}
    (h : Document true text sections) (hp : Plain (normalized text).toList) :
    Document false text sections := by
  obtain ⟨children, hr, hperm, hsections⟩ := h.root
  exact { h with root := ⟨children, hr.unsigned hp, hperm, hsections⟩ }

/-- The start of a signed reference, after the ampersand. -/
def Marked (r : List Char) : Prop := ['#', '+'] <+: r ∨ ['#', 'x', '+'] <+: r

/-- Every ampersand starts an unsigned reference, whatever follows. -/
def Complete (cs : List Char) : Prop := ∀ r, ('&' :: r) <:+ cs → ∀ tail, ¬ Marked (r ++ tail)

theorem Complete.plain {cs : List Char} (h : Complete cs) : Plain cs := by
  constructor
  · rintro ⟨a, b, hab⟩
    refine h ('#' :: '+' :: b) ⟨a, by simpa using hab⟩ [] (.inl ⟨b, by simp⟩)
  · rintro ⟨a, b, hab⟩
    refine h ('#' :: 'x' :: '+' :: b) ⟨a, by simpa using hab⟩ [] (.inr ⟨b, by simp⟩)

theorem Complete.append {a b : List Char} (ha : Complete a) (hb : Complete b) :
    Complete (a ++ b) := by
  rintro r ⟨before, h⟩ tail
  rcases List.append_eq_append_iff.1 h with ⟨a', rfl, h'⟩ | ⟨b', rfl, rfl⟩
  · cases a' with
    | nil =>
      apply hb r ?_ tail
      rw [h']
      exact List.suffix_rfl
    | cons c a' =>
      injection h' with hc hr
      have hr' : r = a' ++ b := hr
      subst hc
      rw [hr', List.append_assoc]
      exact ha a' (List.suffix_append _ _) (b ++ tail)
  · exact hb r (List.suffix_append _ _) tail

theorem complete_of_not_mem {cs : List Char} (h : '&' ∉ cs) : Complete cs := by
  intro r hr
  exact absurd (hr.subset List.mem_cons_self) h

theorem Reference.not_marked {entity : List Char} {c : Char} (h : Reference false entity c)
    (tail : List Char) : ¬ Marked (entity ++ tail) := by
  have hunsigned : ∀ {sign ds : List Char} {radix n : Nat}, Sign false sign → Digits radix ds n →
      ∃ d ds', sign ++ ds = d :: ds' ∧ d ≠ '+' ∧ d ≠ 'x' := by
    intro sign ds radix n hs hd
    rcases hs with rfl | ⟨hs, -⟩
    · obtain ⟨d, ds', rfl⟩ := List.exists_cons_of_ne_nil hd.ne
      refine ⟨d, ds', rfl, ?_, ?_⟩
      · rintro rfl
        have := hd.head
        rw [digitValue_plus] at this
        cases this
      · rintro rfl
        have := hd.head
        rw [digitValue_x] at this
        cases this
    · cases hs
  cases h with
  | decimal hs hd _ =>
    obtain ⟨d, ds', hds, hplus, hx⟩ := hunsigned hs hd
    rw [hds]
    simp [Marked, Ne.symm hplus, Ne.symm hx]
  | hexadecimal hs hd _ =>
    obtain ⟨d, ds', hds, hplus, -⟩ := hunsigned hs hd
    rw [hds]
    simp [Marked, Ne.symm hplus]
  | _ => simp [Marked]

theorem Reference.complete {entity : List Char} {c : Char} (h : Reference false entity c) :
    Complete ('&' :: (entity ++ [';'])) := by
  have hamp : '&' ∉ entity ++ [';'] := by
    have := h.chars (m := '&') (.inr (.inr rfl))
    simp [this]
  intro r hr tail
  rcases List.suffix_cons_iff.1 hr with heq | hr
  · injection heq with _ heq
    rw [heq, List.append_assoc]
    exact h.not_marked _
  · exact absurd (hr.subset List.mem_cons_self) hamp

theorem Run.complete {cs text : List Char} (h : Run false cs text) : Complete cs := by
  induction h with
  | nil => exact complete_of_not_mem (by simp)
  | @char c cs text _ hamp _ ih =>
    exact (@complete_of_not_mem [c] (by simpa using Ne.symm hamp)).append ih
  | ref hr _ _ ih =>
    have := hr.complete.append ih
    simpa using this

theorem amp_not_mem {name b : List Char} (hn : Name name) (hb : Spacing b) :
    '&' ∉ opening name b ∧ '&' ∉ closing name b ∧ '&' ∉ empty name b := by
  have hname : '&' ∉ name := by
    intro h
    have := List.all_eq_true.1 hn.chars _ h
    revert this
    decide
  have hblank : '&' ∉ b := by
    intro h
    have := hb _ h
    revert this
    decide
  simp [opening, closing, empty, hname, hblank]

theorem Content.complete {cs text : List Char} (h : Content false cs text) : Complete cs := by
  induction h with
  | run h => exact h.complete
  | element hb hn hs hs' _ _ ihi ih =>
    have hopen := complete_of_not_mem (amp_not_mem hn hs).1
    have hclose := complete_of_not_mem (amp_not_mem hn hs').2.1
    exact hb.complete.append (hopen.append (ihi.append (hclose.append ih)))
  | empty hb hn hs _ ih =>
    have hempty := complete_of_not_mem (amp_not_mem hn hs).2.2
    exact hb.complete.append (hempty.append ih)

theorem blank_complete {b : List Char} (hb : Spacing b) : Complete b := by
  apply complete_of_not_mem
  intro h
  have := hb _ h
  revert this
  decide

theorem Sections.complete {cs : List Char} {sections : List (String × List Char)}
    (h : Sections false cs sections) : Complete cs := by
  induction h with
  | nil hb => exact blank_complete hb
  | filled hb hn hs hs' hi _ ih =>
    have hopen := complete_of_not_mem (amp_not_mem (name_of_mem hn) hs).1
    have hclose := complete_of_not_mem (amp_not_mem (name_of_mem hn) hs').2.1
    exact (blank_complete hb).append (hopen.append (hi.complete.append (hclose.append ih)))
  | empty hb hn hs _ ih =>
    have hempty := complete_of_not_mem (amp_not_mem (name_of_mem hn) hs).2.2
    exact (blank_complete hb).append (hempty.append ih)

theorem Root.complete {cs : List Char} {sections : List (String × List Char)}
    (h : Root false cs sections) : Complete cs := by
  obtain ⟨hb, hs, hs', ha, h⟩ := h
  have hopen := complete_of_not_mem (amp_not_mem name_root hs).1
  have hclose := complete_of_not_mem (amp_not_mem name_root hs').2.1
  exact (blank_complete hb).append
    (hopen.append (h.complete.append (hclose.append (blank_complete ha))))

/-- A document where signs may stand is one without signs if no signed reference starts in it. -/
theorem document_false_iff {text : String} {sections : List String} :
    Document false text sections ↔
      Document true text sections ∧ Plain (normalized text).toList := by
  constructor
  · intro h
    obtain ⟨children, hr, -⟩ := h.root
    exact ⟨h.signed, hr.complete.plain⟩
  · rintro ⟨h, hp⟩
    exact h.unsigned hp

theorem containsStr_eq_false {s p : String} :
    containsStr s p = false ↔ ¬ p.toList <:+: s.toList := by
  unfold containsStr
  rw [Bool.eq_false_iff, ne_eq, List.any_eq_true]
  simp only [List.mem_tails, List.isPrefixOf_iff_prefix, List.infix_iff_prefix_suffix, and_comm]

/-- The reader accepts exactly the documents of the grammar if and only if the text is no document
even where signs may stand, or has no plus sign at the start of a numeric reference. -/
theorem parseXmlSections_exact_iff (text : String) :
    (∀ sections, parseXmlSections text = .ok sections ↔ Document false text sections) ↔
      ((∃ sections, Document true text sections) →
        containsStr (normalized text) "&#+" = false ∧
          containsStr (normalized text) "&#x+" = false) := by
  have hplain : containsStr (normalized text) "&#+" = false ∧
      containsStr (normalized text) "&#x+" = false ↔ Plain (normalized text).toList := by
    rw [containsStr_eq_false, containsStr_eq_false]
    rfl
  rw [hplain]
  constructor
  · rintro h ⟨sections, hd⟩
    exact (document_false_iff.1 ((h sections).1 (parseXmlSections_iff.2 hd))).2
  · intro h sections
    rw [parseXmlSections_iff, document_false_iff]
    exact ⟨fun hd => ⟨hd, h ⟨sections, hd⟩⟩, fun hd => hd.1⟩

/-! ## Line ends and byte order marks -/

/-- Each line end as a line feed. -/
def lineFeeds (cs : List Char) : List Char :=
  (replaceFrom ['\r', '\n'] ['\n'] 0 cs).flatMap fun c => if c = '\r' then ['\n'] else [c]

theorem normalized_toList (text : String) : (normalized text).toList =
    (lineFeeds text.toList).dropWhile fun c => c.toNat = 0xfeff := by
  unfold normalized replaceChar replace lineFeeds
  rw [String.toList_ofList, String.toList_ofList, String.toList_ofList, String.toList_ofList,
    String.toList_ofList]

theorem lineFeeds_nil : lineFeeds [] = [] := rfl

theorem lineFeeds_cons {c : Char} (hc : c ≠ '\r') (cs : List Char) :
    lineFeeds (c :: cs) = c :: lineFeeds cs := by
  have hnot : ['\r', '\n'].isPrefixOf (c :: cs) = false := by
    simp [List.isPrefixOf, Ne.symm hc]
  unfold lineFeeds
  rw [replaceFrom, if_neg (by omega), hnot, if_neg (by simp), List.flatMap_cons, if_neg hc]
  rfl

theorem lineFeeds_crlf (cs : List Char) : lineFeeds ('\r' :: '\n' :: cs) = '\n' :: lineFeeds cs := by
  unfold lineFeeds
  rw [replaceFrom, if_neg (by omega), if_pos (by simp [List.isPrefixOf]), replaceFrom,
    if_pos (by decide)]
  rfl

theorem lineFeeds_cr {cs : List Char} (h : cs.head? ≠ some '\n') :
    lineFeeds ('\r' :: cs) = '\n' :: lineFeeds cs := by
  have hnot : ['\r', '\n'].isPrefixOf ('\r' :: cs) = false := by
    cases cs with
    | nil => simp [List.isPrefixOf]
    | cons c cs =>
      have hc : c ≠ '\n' := by simpa using h
      simp [List.isPrefixOf, Ne.symm hc]
  unfold lineFeeds
  rw [replaceFrom, if_neg (by omega), hnot, if_neg (by simp), List.flatMap_cons, if_pos rfl]
  rfl

theorem lineFeeds_append {a : List Char} (ha : '\r' ∉ a) (b : List Char) :
    lineFeeds (a ++ b) = a ++ lineFeeds b := by
  induction a with
  | nil => rfl
  | cons c a ih =>
    have hc : c ≠ '\r' := fun heq => ha (heq ▸ List.mem_cons_self)
    rw [List.cons_append, lineFeeds_cons hc, ih fun h => ha (List.mem_cons_of_mem _ h)]
    rfl

theorem lineFeeds_eq {cs : List Char} (h : '\r' ∉ cs) : lineFeeds cs = cs := by
  have := lineFeeds_append h []
  rwa [List.append_nil, lineFeeds_nil, List.append_nil] at this

theorem dropWhile_mark {cs : List Char} (h : ∀ c, cs.head? = some c → c.toNat ≠ 0xfeff) :
    cs.dropWhile (fun c => c.toNat = 0xfeff) = cs := by
  cases cs with
  | nil => rfl
  | cons c cs => simp [h c rfl]

/-- A text without carriage returns and without a byte order mark stays as it is. -/
theorem normalized_eq {text : String} (hcr : '\r' ∉ text.toList)
    (hbom : ∀ c, text.toList.head? = some c → c.toNat ≠ 0xfeff) : normalized text = text := by
  rw [← String.toList_inj, normalized_toList, lineFeeds_eq hcr, dropWhile_mark hbom]

/-- A ledger with a sign that XML does not know. -/
def signedLedger : String :=
  "<COMPACTED_STATE><USER_GOAL>&#+65;</USER_GOAL><GLOBAL_LESSON_LEDGER/><DEAD_ENDS/>" ++
    "<CURRENT_LOCAL_PIVOT/></COMPACTED_STATE>"

theorem signedLedger_root : Root true signedLedger.toList
    [("USER_GOAL", ['A']), ("GLOBAL_LESSON_LEDGER", []), ("DEAD_ENDS", []),
      ("CURRENT_LOCAL_PIVOT", [])] := by
  have hdigits : Digits 10 ['6', '5'] 65 := ⟨by simp, [6, 5], by decide, rfl⟩
  have hgoal : Content true ['&', '#', '+', '6', '5', ';'] ['A'] :=
    .run (.ref (.decimal (.inr ⟨rfl, rfl⟩) hdigits (by decide)) (by decide) .nil)
  have hsections := Sections.filled .nil goal_mem .nil .nil hgoal
    (.empty .nil claims_mem .nil (.empty .nil deadEnds_mem .nil
    (.empty .nil pivot_mem .nil (.nil .nil))))
  have hroot := Root.root .nil .nil .nil .nil hsections
  unfold signedLedger
  simpa [opening, closing, empty] using hroot

set_option maxRecDepth 4000 in
/-- The characters of the ledger, written out, pass the checks and have the sign. -/
theorem signedLedger_characters : ∃ cs, signedLedger.toList = cs ∧ cs.all xmlCharacter = true ∧
    '\r' ∉ cs ∧ cs.head? = some '<' ∧ ¬ [']', ']', '>'] <:+: cs ∧ ¬ ['<', '!'] <:+: cs ∧
    ¬ ['<', '?'] <:+: cs ∧ ['&', '#', '+'] <:+: cs := by
  unfold signedLedger
  rw [String.toList_append, String.toList_ofList, String.toList_ofList]
  refine ⟨_, rfl, ?_, ?_, ?_, ?_, ?_, ?_, ?_⟩ <;> decide +kernel

theorem normalized_signedLedger : normalized signedLedger = signedLedger := by
  obtain ⟨cs, hcs, -, hcr, hhead, -⟩ := signedLedger_characters
  apply normalized_eq
  · rwa [hcs]
  · intro c hc
    rw [hcs, hhead] at hc
    cases hc
    decide

theorem signedLedger_document : ∃ sections, Document true signedLedger sections := by
  obtain ⟨cs, hcs, hlegal, -, -, hend, hdecl, hinst, -⟩ := signedLedger_characters
  have hroot : Root true (normalized signedLedger).toList _ :=
    normalized_signedLedger ▸ signedLedger_root
  refine ⟨_, ?_, ?_, ?_, ?_, _, hroot, .refl _, rfl⟩
  · rw [normalized_signedLedger, hcs]
    exact List.all_eq_true.1 hlegal
  · rw [normalized_signedLedger, containsStr_eq_false, hcs]
    exact hend
  · rw [normalized_signedLedger, containsStr_eq_false, hcs]
    exact hdecl
  · rw [normalized_signedLedger, containsStr_eq_false, hcs]
    exact hinst

theorem parseXmlSections_signed :
    ¬ ∀ sections, parseXmlSections signedLedger = .ok sections ↔
      Document false signedLedger sections := by
  intro h
  obtain ⟨sections, hdoc⟩ := signedLedger_document
  have hplain := (document_false_iff.1 ((h sections).1 (parseXmlSections_iff.2 hdoc))).2
  obtain ⟨cs, hcs, -, -, -, -, -, -, hsign⟩ := signedLedger_characters
  rw [normalized_signedLedger, hcs] at hplain
  exact hplain.1 hsign

end Markup

end StateDrivenAgent
