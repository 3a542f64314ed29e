import StateDrivenAgent.Json.Document
import StateDrivenAgent.Json.Reading
import StateDrivenAgent.Verify.Xml

/-!
# A ledger is valid again

What `validate_ledger` renders, it accepts, and renders as the same text: the lines of a section
are trimmed and have no line ends, escaped text reads as the text, and the checks see the same
sections.
-/

namespace StateDrivenAgent

namespace Markup

open Context Text

/-! ## Lines -/

/-- A line that tidying a section leaves as it is. -/
structure Line (line : String) : Prop where
  ne : line ≠ ""
  trimmed : Trimmed line.toList
  ends : ∀ c ∈ line.toList, lineEnd c = false

theorem mem_trim {cs : List Char} {c : Char} (h : c ∈ (trim (.ofList cs)).toList) : c ∈ cs := by
  obtain ⟨b, b', -, -, hcs, -⟩ := trim_spec cs
  rw [hcs]
  simp [h]

/-- The lines of a section are tidy and have the section's characters. -/
theorem sectionLines_spec {n : Nat} {cs : List Char} (hn : cs.length ≤ n) :
    ∀ line ∈ sectionLines cs, Line line ∧ ∀ c ∈ line.toList, c ∈ cs := by
  have hline : ∀ {a : List Char}, (∀ d ∈ a, lineEnd d = false) →
      ∀ line ∈ sectionLines a, Line line ∧ ∀ c ∈ line.toList, c ∈ a := by
    intro a ha line hline
    rw [sectionLines_of_not_mem ha, List.mem_filter, List.mem_singleton] at hline
    obtain ⟨rfl, hne⟩ := hline
    exact ⟨⟨by simpa using hne, trimmed_trim _, fun c hc => ha c (mem_trim hc)⟩,
      fun c hc => mem_trim hc⟩
  induction n generalizing cs with
  | zero =>
    obtain rfl : cs = [] := List.length_eq_zero_iff.1 (by omega)
    exact hline (by simp)
  | succ n ih =>
    obtain ⟨a, ha, rfl | ⟨d, rest, hd, rfl⟩⟩ := split_line cs
    · exact hline ha
    · intro line hmem
      simp only [List.length_append, List.length_cons] at hn
      rw [sectionLines_append hd, List.mem_append] at hmem
      rcases hmem with hmem | hmem
      · obtain ⟨h, hc⟩ := hline ha line hmem
        exact ⟨h, fun c hcl => List.mem_append_left _ (hc c hcl)⟩
      · obtain ⟨h, hc⟩ := ih (by omega) line hmem
        exact ⟨h, fun c hcl => List.mem_append_right _ (List.mem_cons_of_mem _ (hc c hcl))⟩

theorem sectionLines_line {line : String} (h : Line line) : sectionLines line.toList = [line] := by
  rw [sectionLines_of_not_mem h.ends, trim_ofList h.trimmed, String.ofList_toList]
  simp [h.ne]

/-- Tidy lines are the lines of their join. -/
theorem sectionLines_join {ls : List String} (h : ∀ line ∈ ls, Line line) :
    sectionLines (joinWith "\n" ls).toList = ls := by
  induction ls with
  | nil => simp [joinWith, sectionLines, trim]
  | cons l ls ih =>
    have hl := sectionLines_line (h l List.mem_cons_self)
    cases ls with
    | nil => simpa [joinWith] using hl
    | cons l' ls =>
      rw [joinWith_cons rfl, sectionLines_append rfl, hl, ih fun line hm => h line (List.mem_cons_of_mem _ hm)]
      rfl

theorem sectionLines_padded (cs : List Char) :
    sectionLines ('\n' :: (cs ++ ['\n'])) = sectionLines cs := by
  have hnil : sectionLines [] = [] := by simp [sectionLines, trim]
  have hfront := sectionLines_append (c := '\n') rfl [] (cs ++ ['\n'])
  rw [List.nil_append] at hfront
  rw [hfront, sectionLines_append rfl, hnil, List.append_nil, List.nil_append]

theorem Line.not_mem {line : String} (h : Line line) {c : Char} (hc : lineEnd c = true) :
    c ∉ line.toList := by
  intro hm
  have := h.ends c hm
  rw [hc] at this
  cases this

/-- `str::lines` of joined lines. -/
theorem lines_join {ls : List String} (hne : ls ≠ []) (h : ∀ line ∈ ls, Line line) :
    lines (joinWith "\n" ls) = ls := by
  obtain ⟨l, ls, rfl⟩ := List.exists_cons_of_ne_nil hne
  have hlast : ((l :: ls).map String.toList).getLast? ≠ some [] := by
    intro hlast
    have hmem := List.mem_of_getLast? hlast
    obtain ⟨line, hm, hnil⟩ := List.mem_map.1 hmem
    exact (h line hm).ne (by rw [← String.ofList_toList (s := line), hnil, String.ofList_nil])
  have hcr : ∀ line ∈ l :: ls, String.ofList (if line.toList.getLast? = some '\r' then
      line.toList.dropLast else line.toList) = line := by
    intro line hm
    have hnot : line.toList.getLast? ≠ some '\r' := fun hlast =>
      (h line hm).not_mem (c := '\r') rfl (List.mem_of_getLast? hlast)
    rw [if_neg hnot, String.ofList_toList]
  unfold lines
  have hparts : ∀ line ∈ l :: ls, '\n' ∉ line.toList := fun line hm => (h line hm).not_mem rfl
  simp only [@splitList_join "\n" '\n' rfl l ls hparts]
  rw [if_neg hlast, List.map_map]
  exact (List.map_congr_left hcr).trans (List.map_id _)

/-! ## Escaped text -/

def escapeChar (c : Char) : List Char :=
  if c = '&' then ['&', 'a', 'm', 'p', ';'] else if c = '<' then ['&', 'l', 't', ';']
  else if c = '>' then ['&', 'g', 't', ';'] else [c]

theorem xmlEscape_toList (value : String) :
    (xmlEscape value).toList = value.toList.flatMap escapeChar := by
  unfold xmlEscape replaceChar
  simp only [String.toList_ofList, List.flatMap_assoc]
  apply List.flatMap_congr
  intro c _
  unfold escapeChar
  by_cases hamp : c = '&'
  · simp [hamp]
  · by_cases hlt : c = '<'
    · simp [hlt]
    · by_cases hgt : c = '>'
      · simp [hgt]
      · simp [hamp, hlt, hgt]

/-- An escaped character reads as the character. -/
theorem run_escapeChar {signed : Bool} {c : Char} (hc : xmlCharacter c = true) :
    Run signed (escapeChar c) [c] := by
  unfold escapeChar
  split_ifs with hamp hlt hgt
  · subst hamp
    exact .ref .amp hc .nil
  · subst hlt
    exact .ref .lt hc .nil
  · subst hgt
    exact .ref .gt hc .nil
  · exact .char hlt hamp .nil

theorem run_escape {signed : Bool} {cs : List Char} (h : ∀ c ∈ cs, xmlCharacter c = true) :
    Run signed (cs.flatMap escapeChar) cs := by
  induction cs with
  | nil => exact .nil
  | cons c cs ih =>
    have hc := @run_escapeChar signed _ (h c List.mem_cons_self)
    exact hc.append (ih fun d hd => h d (List.mem_cons_of_mem _ hd))

/-- A character of the text of a ledger between two tags. -/
def Inner (c : Char) : Prop := xmlCharacter c = true ∧ c ≠ '<' ∧ c ≠ '>'

instance (c : Char) : Decidable (Inner c) := inferInstanceAs (Decidable (_ ∧ _ ∧ _))

/-- A list whose characters all pass a test. -/
theorem forall_of_all {p : Char → Prop} [DecidablePred p] {cs : List Char}
    (h : cs.all (fun c => decide (p c)) = true) : ∀ c ∈ cs, p c := by
  intro c hc
  exact of_decide_eq_true (List.all_eq_true.1 h c hc)

/-- Escaped text is legal and has no angle brackets. -/
theorem inner_escapeChar {c : Char} (hc : xmlCharacter c = true) : ∀ d ∈ escapeChar c, Inner d := by
  unfold escapeChar
  split_ifs with hamp hlt hgt
  · exact forall_of_all (by decide)
  · exact forall_of_all (by decide)
  · exact forall_of_all (by decide)
  · intro d hd
    rw [List.mem_singleton] at hd
    subst hd
    exact ⟨hc, hlt, hgt⟩

theorem inner_escape {cs : List Char} (h : ∀ c ∈ cs, xmlCharacter c = true) :
    ∀ d ∈ cs.flatMap escapeChar, Inner d := by
  intro d hd
  obtain ⟨c, hc, hd⟩ := List.mem_flatMap.1 hd
  exact inner_escapeChar (h c hc) d hd

theorem return_not_mem_escapeChar {c : Char} (hc : c ≠ '\r') : '\r' ∉ escapeChar c := by
  unfold escapeChar
  split_ifs
  · decide
  · decide
  · decide
  · simpa using Ne.symm hc

theorem head_escapeChar {c : Char} (hc : c ≠ '\n') (cs : List Char) :
    (escapeChar c ++ cs).head? ≠ some '\n' := by
  unfold escapeChar
  split_ifs
  · simp
  · simp
  · simp
  · simpa using hc

/-- The line ends of an escaped text become line feeds, and it stays escaped. -/
theorem lineFeeds_escape {n : Nat} {goal rest : List Char} (hn : goal.length ≤ n)
    (hgoal : ∀ c ∈ goal, xmlCharacter c = true) (hlast : goal.getLast? ≠ some '\r')
    (hrest : '\r' ∉ rest) : ∃ cs text, lineFeeds (goal.flatMap escapeChar ++ rest) = cs ++ rest ∧
      Run true cs text ∧ ∀ c ∈ cs, Inner c := by
  induction n generalizing goal with
  | zero =>
    obtain rfl : goal = [] := List.length_eq_zero_iff.1 (by omega)
    exact ⟨[], [], lineFeeds_eq hrest, .nil, by simp⟩
  | succ n ih =>
    cases goal with
    | nil => exact ⟨[], [], lineFeeds_eq hrest, .nil, by simp⟩
    | cons c goal =>
      simp only [List.length_cons] at hn
      have hc := hgoal c List.mem_cons_self
      have htail : ∀ d ∈ goal, xmlCharacter d = true := fun d hd =>
        hgoal d (List.mem_cons_of_mem _ hd)
      have hfeed : Inner '\n' := by decide
      by_cases hcr : c = '\r'
      · subst hcr
        -- the text does not end in a carriage return
        obtain ⟨d, goal, rfl⟩ : ∃ d goal', goal = d :: goal' := by
          cases goal with
          | nil => exact absurd rfl hlast
          | cons d goal => exact ⟨d, goal, rfl⟩
        rw [List.getLast?_cons_cons] at hlast
        have hplain : escapeChar '\r' = ['\r'] := by decide
        by_cases hfeedNext : d = '\n'
        · subst hfeedNext
          have hlast' : goal.getLast? ≠ some '\r' := by
            cases goal with
            | nil => simp
            | cons e goal => rwa [List.getLast?_cons_cons] at hlast
          simp only [List.length_cons] at hn
          obtain ⟨cs, text, hcs, hrun, hinner⟩ := ih (by omega)
            (fun e he => htail e (List.mem_cons_of_mem _ he)) hlast'
          have hplain' : escapeChar '\n' = ['\n'] := by decide
          refine ⟨'\n' :: cs, '\n' :: text, ?_, .char (by decide) (by decide) hrun, ?_⟩
          · rw [List.flatMap_cons, List.flatMap_cons, hplain, hplain']
            change lineFeeds ('\r' :: '\n' :: (goal.flatMap escapeChar ++ rest)) = _
            rw [lineFeeds_crlf, hcs]
            rfl
          · exact List.forall_mem_cons.2 ⟨hfeed, hinner⟩
        · obtain ⟨cs, text, hcs, hrun, hinner⟩ := ih (by omega) htail hlast
          refine ⟨'\n' :: cs, '\n' :: text, ?_, .char (by decide) (by decide) hrun, ?_⟩
          · rw [List.flatMap_cons, hplain]
            change lineFeeds ('\r' :: ((d :: goal).flatMap escapeChar ++ rest)) = _
            rw [lineFeeds_cr, hcs]
            · rfl
            · rw [List.flatMap_cons, List.append_assoc]
              exact head_escapeChar hfeedNext _
          · exact List.forall_mem_cons.2 ⟨hfeed, hinner⟩
      · have hlast' : goal.getLast? ≠ some '\r' := by
          cases goal with
          | nil => simp
          | cons e goal => rwa [List.getLast?_cons_cons] at hlast
        obtain ⟨cs, text, hcs, hrun, hinner⟩ := ih (by omega) htail hlast'
        refine ⟨escapeChar c ++ cs, [c] ++ text, ?_, (run_escapeChar hc).append hrun, ?_⟩
        · rw [List.flatMap_cons, List.append_assoc,
            lineFeeds_append (return_not_mem_escapeChar hcr), hcs, List.append_assoc]
        · intro d hd
          exact (List.mem_append.1 hd).elim (inner_escapeChar hc d) (hinner d)

/-! ## Tags -/

/-- Each angle bracket of a text is that of a tag. -/
structure Tagged (cs : List Char) : Prop where
  opens : ∀ a b, cs = a ++ '<' :: b → ∃ c b', b = c :: b' ∧ c ≠ '!' ∧ c ≠ '?'
  closes : ∀ a b, cs = a ++ '>' :: b → ∃ a' c, a = a' ++ [c] ∧ c ≠ ']'

theorem Tagged.append {x y : List Char} (hx : Tagged x) (hy : Tagged y) : Tagged (x ++ y) := by
  constructor
  · intro a b h
    rcases List.append_eq_append_iff.1 h with ⟨a', rfl, h'⟩ | ⟨b', rfl, h'⟩
    · exact hy.opens a' b h'
    · cases b' with
      | nil => exact hy.opens [] b h'.symm
      | cons d b' =>
        injection h' with hd hb
        subst hd
        obtain ⟨c, b'', rfl, hc⟩ := hx.opens a b' rfl
        exact ⟨c, b'' ++ y, hb, hc⟩
  · intro a b h
    rcases List.append_eq_append_iff.1 h with ⟨a', rfl, h'⟩ | ⟨b', rfl, h'⟩
    · obtain ⟨a'', c, rfl, hc⟩ := hy.closes a' b h'
      exact ⟨x ++ a'', c, by simp, hc⟩
    · cases b' with
      | nil =>
        obtain ⟨a'', c, h'', -⟩ := hy.closes [] b h'.symm
        simp at h''
      | cons d b' =>
        injection h' with hd hb
        subst hd
        exact hx.closes a b' rfl

theorem tagged_inner {cs : List Char} (h : ∀ c ∈ cs, Inner c) : Tagged cs := by
  constructor
  · rintro a b rfl
    exact absurd rfl (h '<' (by simp)).2.1
  · rintro a b rfl
    exact absurd rfl (h '>' (by simp)).2.2

theorem mark_last {m : Char} {x a b : List Char} (hx : m ∉ x) (h : x ++ [m] = a ++ m :: b) :
    a = x := by
  rcases List.append_eq_append_iff.1 h with ⟨a', rfl, h'⟩ | ⟨c', rfl, h'⟩
  · cases a' with
    | nil => simp
    | cons d a' => simp at h'
  · cases c' with
    | nil => simp
    | cons d c' =>
      injection h' with hd _
      exact absurd (by simp [hd]) hx

theorem tagged_tag {mid : List Char} (h : ∀ c ∈ mid, c ≠ '<' ∧ c ≠ '>')
    (hhead : ∃ c mid', mid = c :: mid' ∧ c ≠ '!' ∧ c ≠ '?')
    (hlast : ∃ mid' c, mid = mid' ++ [c] ∧ c ≠ ']') : Tagged ('<' :: (mid ++ ['>'])) := by
  constructor
  · intro a b heq
    cases a with
    | nil =>
      obtain ⟨c, mid', rfl, hc⟩ := hhead
      exact ⟨c, mid' ++ ['>'], by simpa using (List.cons.inj heq).2.symm, hc⟩
    | cons d a =>
      have hmem : '<' ∈ mid ++ ['>'] := by
        rw [(List.cons.inj heq).2]
        simp
      rcases List.mem_append.1 hmem with hmem | hmem
      · exact absurd rfl (h '<' hmem).1
      · simp at hmem
  · intro a b heq
    have hnot : '>' ∉ '<' :: mid := by
      intro hmem
      rcases List.mem_cons.1 hmem with hmem | hmem
      · simp at hmem
      · exact (h '>' hmem).2 rfl
    obtain ⟨mid', c, rfl, hc⟩ := hlast
    have ha := mark_last hnot heq
    exact ⟨'<' :: mid', c, by simp [ha], hc⟩

theorem Tagged.not_sectionEnd {cs : List Char} (h : Tagged cs) : ¬ [']', ']', '>'] <:+: cs := by
  rintro ⟨a, b, hab⟩
  obtain ⟨a', c, ha, hc⟩ := h.closes (a ++ [']', ']']) b (by simp [← hab])
  have := congrArg List.getLast? ha
  simp at this
  exact hc this.symm

theorem Tagged.not_mark {cs : List Char} (h : Tagged cs) {m : Char} (hm : m = '!' ∨ m = '?') :
    ¬ ['<', m] <:+: cs := by
  rintro ⟨a, b, hab⟩
  obtain ⟨c, b', hb, hc⟩ := h.opens a (m :: b) (by simp [← hab])
  injection hb with hcm _
  rcases hm with rfl | rfl
  · exact hc.1 hcm.symm
  · exact hc.2 hcm.symm

/-! ## The rendered ledger -/

/-- The tags of a rendered ledger around the texts of its sections. -/
def framed (goal claims deadEnds hypothesis : List Char) : List Char :=
  opening "COMPACTED_STATE".toList [] ++ (opening "USER_GOAL".toList [] ++ (goal ++
    (closing "USER_GOAL".toList [] ++ (opening "GLOBAL_LESSON_LEDGER".toList [] ++ (claims ++
    (closing "GLOBAL_LESSON_LEDGER".toList [] ++ (opening "DEAD_ENDS".toList [] ++ (deadEnds ++
    (closing "DEAD_ENDS".toList [] ++ (opening "CURRENT_LOCAL_PIVOT".toList [] ++ (hypothesis ++
    (closing "CURRENT_LOCAL_PIVOT".toList [] ++ closing "COMPACTED_STATE".toList []))))))))))))

section framed

variable {goal claims deadEnds hypothesis : List Char}

theorem framed_root {g c d p : List Char} (hg : Content true goal g) (hc : Content true claims c)
    (hd : Content true deadEnds d) (hp : Content true hypothesis p) :
    Root true (framed goal claims deadEnds hypothesis)
      [("USER_GOAL", g), ("GLOBAL_LESSON_LEDGER", c), ("DEAD_ENDS", d),
        ("CURRENT_LOCAL_PIVOT", p)] := by
  have hsections := Sections.filled .nil goal_mem .nil .nil hg
    (.filled .nil claims_mem .nil .nil hc (.filled .nil deadEnds_mem .nil .nil hd
    (.filled .nil pivot_mem .nil .nil hp (.nil .nil))))
  have hroot := Root.root .nil .nil .nil .nil hsections
  unfold framed
  simpa using hroot

/-- A property of lists that holds of the tags and the texts, and of two lists together. -/
theorem framed_induction {P : List Char → Prop} (happend : ∀ a b, P a → P b → P (a ++ b))
    (htags : ∀ name ∈ "COMPACTED_STATE" :: sectionNames,
      P (opening name.toList []) ∧ P (closing name.toList []))
    (hg : P goal) (hc : P claims) (hd : P deadEnds) (hp : P hypothesis) :
    P (framed goal claims deadEnds hypothesis) := by
  obtain ⟨hopen, hclose⟩ := htags "COMPACTED_STATE" (by decide)
  obtain ⟨hopen₁, hclose₁⟩ := htags "USER_GOAL" (by decide)
  obtain ⟨hopen₂, hclose₂⟩ := htags "GLOBAL_LESSON_LEDGER" (by decide)
  obtain ⟨hopen₃, hclose₃⟩ := htags "DEAD_ENDS" (by decide)
  obtain ⟨hopen₄, hclose₄⟩ := htags "CURRENT_LOCAL_PIVOT" (by decide)
  unfold framed
  exact happend _ _ hopen (happend _ _ hopen₁ (happend _ _ hg (happend _ _ hclose₁
    (happend _ _ hopen₂ (happend _ _ hc (happend _ _ hclose₂ (happend _ _ hopen₃
    (happend _ _ hd (happend _ _ hclose₃ (happend _ _ hopen₄ (happend _ _ hp
    (happend _ _ hclose₄ hclose))))))))))))

theorem nameChar_ne {c : Char} (h : xmlNameChar c = true) :
    c ≠ '<' ∧ c ≠ '>' ∧ c ≠ '!' ∧ c ≠ '?' ∧ c ≠ ']' := by
  refine ⟨?_, ?_, ?_, ?_, ?_⟩ <;>
  · rintro rfl
    revert h
    decide

theorem nameChar_of_start {c : Char} (h : xmlNameStart c = true) : xmlNameChar c = true := by
  simp [xmlNameChar, h]

theorem name_of_tag {name : String} (h : name ∈ "COMPACTED_STATE" :: sectionNames) :
    Name name.toList := by
  rcases List.mem_cons.1 h with rfl | h
  · exact name_root
  · exact name_of_mem h

/-- The tags of an element without white space. -/
theorem Name.tagged {name : List Char} (h : Name name) :
    Tagged (opening name []) ∧ Tagged (closing name []) := by
  have hchars : ∀ c ∈ name, c ≠ '<' ∧ c ≠ '>' := fun c hc =>
    have := nameChar_ne (List.all_eq_true.1 h.chars c hc)
    ⟨this.1, this.2.1⟩
  obtain ⟨front, last, hfront⟩ : ∃ front last, name = front ++ [last] :=
    ⟨_, _, (List.dropLast_append_getLast h.ne_nil).symm⟩
  have hlast : last ≠ ']' :=
    (nameChar_ne (List.all_eq_true.1 h.chars last (by simp [hfront]))).2.2.2.2
  constructor
  · have hopening : opening name [] = '<' :: (name ++ ['>']) := by simp [opening]
    rw [hopening]
    refine tagged_tag hchars ?_ ⟨front, last, hfront, hlast⟩
    obtain ⟨c, rest, rfl⟩ := List.exists_cons_of_ne_nil h.ne_nil
    have hc := nameChar_ne (List.all_eq_true.1 h.chars c List.mem_cons_self)
    exact ⟨c, rest, rfl, hc.2.2.1, hc.2.2.2.1⟩
  · have hclosing : closing name [] = '<' :: (('/' :: name) ++ ['>']) := by simp [closing]
    rw [hclosing]
    refine tagged_tag ?_ ⟨'/', name, rfl, by decide, by decide⟩ ⟨'/' :: front, last, ?_, hlast⟩
    · exact List.forall_mem_cons.2 ⟨by decide, hchars⟩
    · rw [hfront]
      rfl

theorem framed_tagged (hg : ∀ c ∈ goal, Inner c) (hc : ∀ c ∈ claims, Inner c)
    (hd : ∀ c ∈ deadEnds, Inner c) (hp : ∀ c ∈ hypothesis, Inner c) :
    Tagged (framed goal claims deadEnds hypothesis) :=
  framed_induction (fun _ _ => Tagged.append) (fun _ h => (name_of_tag h).tagged)
    (tagged_inner hg) (tagged_inner hc) (tagged_inner hd) (tagged_inner hp)

theorem tag_legal {name : String} (h : name ∈ "COMPACTED_STATE" :: sectionNames) :
    (∀ c ∈ opening name.toList [], xmlCharacter c = true ∧ c ≠ '\r') ∧
      ∀ c ∈ closing name.toList [], xmlCharacter c = true ∧ c ≠ '\r' := by
  simp only [sectionNames, List.mem_cons, List.not_mem_nil, or_false] at h
  rcases h with rfl | rfl | rfl | rfl | rfl <;>
    exact ⟨forall_of_all (by decide), forall_of_all (by decide)⟩

theorem framed_legal (hg : ∀ c ∈ goal, Inner c) (hc : ∀ c ∈ claims, Inner c)
    (hd : ∀ c ∈ deadEnds, Inner c) (hp : ∀ c ∈ hypothesis, Inner c) :
    ∀ c ∈ framed goal claims deadEnds hypothesis, xmlCharacter c = true := by
  refine framed_induction (P := fun cs => ∀ c ∈ cs, xmlCharacter c = true) ?_ ?_
    (fun c h => (hg c h).1) (fun c h => (hc c h).1) (fun c h => (hd c h).1) (fun c h => (hp c h).1)
  · intro a b ha hb c hmem
    exact (List.mem_append.1 hmem).elim (ha c) (hb c)
  · intro name hname
    exact ⟨fun c h => ((tag_legal hname).1 c h).1, fun c h => ((tag_legal hname).2 c h).1⟩

theorem framed_noReturn (hg : '\r' ∉ goal) (hc : '\r' ∉ claims) (hd : '\r' ∉ deadEnds)
    (hp : '\r' ∉ hypothesis) : '\r' ∉ framed goal claims deadEnds hypothesis := by
  refine framed_induction (P := fun cs => '\r' ∉ cs) ?_ ?_ hg hc hd hp
  · intro a b ha hb hmem
    exact (List.mem_append.1 hmem).elim ha hb
  · intro name hname
    exact ⟨fun h => ((tag_legal hname).1 _ h).2 rfl, fun h => ((tag_legal hname).2 _ h).2 rfl⟩

/-- The text of the goal stands between two parts that depend on nothing and on the rest. -/
theorem framed_goal : ∃ front back, framed goal claims deadEnds hypothesis =
    front ++ (goal ++ back) ∧ ∀ g, framed g claims deadEnds hypothesis = front ++ (g ++ back) := by
  refine ⟨opening "COMPACTED_STATE".toList [] ++ opening "USER_GOAL".toList [],
    closing "USER_GOAL".toList [] ++ (opening "GLOBAL_LESSON_LEDGER".toList [] ++ (claims ++
    (closing "GLOBAL_LESSON_LEDGER".toList [] ++ (opening "DEAD_ENDS".toList [] ++ (deadEnds ++
    (closing "DEAD_ENDS".toList [] ++ (opening "CURRENT_LOCAL_PIVOT".toList [] ++ (hypothesis ++
    (closing "CURRENT_LOCAL_PIVOT".toList [] ++ closing "COMPACTED_STATE".toList []))))))))), ?_, ?_⟩
  · unfold framed
    simp only [List.append_assoc]
  · intro g
    unfold framed
    simp only [List.append_assoc]

theorem framed_head : ∃ rest, framed goal claims deadEnds hypothesis = '<' :: rest := ⟨_, rfl⟩

theorem framed_trimmed : Trimmed (framed goal claims deadEnds hypothesis) := by
  have h := @trimmed_root "COMPACTED_STATE".toList [] (opening "USER_GOAL".toList [] ++ (goal ++
    (closing "USER_GOAL".toList [] ++ (opening "GLOBAL_LESSON_LEDGER".toList [] ++ (claims ++
    (closing "GLOBAL_LESSON_LEDGER".toList [] ++ (opening "DEAD_ENDS".toList [] ++ (deadEnds ++
    (closing "DEAD_ENDS".toList [] ++ (opening "CURRENT_LOCAL_PIVOT".toList [] ++ (hypothesis ++
    closing "CURRENT_LOCAL_PIVOT".toList []))))))))))) []
  unfold framed
  simpa only [List.append_assoc] using h

end framed

/-- A text on lines of its own. -/
def padded (cs : List Char) : List Char := '\n' :: (cs ++ ['\n'])

theorem inner_padded {cs : List Char} (h : ∀ c ∈ cs, Inner c) : ∀ c ∈ padded cs, Inner c := by
  intro c hc
  simp only [padded, List.mem_cons, List.mem_append, List.not_mem_nil, or_false] at hc
  rcases hc with rfl | hc | rfl
  · decide
  · exact h c hc
  · decide

theorem renderLedger_toList {ledger : Ledger} (hc : ledger.modelClaims ≠ [])
    (hd : ledger.deadEnds ≠ []) : (renderLedger ledger true).toList =
      framed (padded ((trim ledger.goal).toList.flatMap escapeChar))
        (padded ((joinWith "\n" ledger.modelClaims).toList.flatMap escapeChar))
        (padded ((joinWith "\n" ledger.deadEnds).toList.flatMap escapeChar))
        (padded (ledger.hypothesis.toList.flatMap escapeChar)) := by
  have hc' : ledger.modelClaims.isEmpty = false := by simpa using hc
  have hd' : ledger.deadEnds.isEmpty = false := by simpa using hd
  unfold renderLedger
  simp [hc', hd', xmlEscape_toList, framed, padded, opening, closing]

/-- A section of an accepted proposal. -/
structure Tidy (text : String) : Prop where
  lines : ∃ ls, (∀ line ∈ ls, Line line) ∧ text = joinWith "\n" ls
  legal : ∀ c ∈ text.toList, xmlCharacter c = true

theorem Run.legal {cs text : List Char} (h : Run true cs text)
    (hcs : ∀ c ∈ cs, xmlCharacter c = true) : ∀ c ∈ text, xmlCharacter c = true := by
  induction h with
  | nil => simp
  | char _ _ _ ih =>
    exact List.forall_mem_cons.2 ⟨hcs _ List.mem_cons_self,
      ih fun c hc => hcs c (List.mem_cons_of_mem _ hc)⟩
  | ref _ hc _ ih => exact List.forall_mem_cons.2 ⟨hc, ih fun c hm => hcs c (by simp [hm])⟩

theorem Content.legal {cs text : List Char} (h : Content true cs text)
    (hcs : ∀ c ∈ cs, xmlCharacter c = true) : ∀ c ∈ text, xmlCharacter c = true := by
  have hfeed : xmlCharacter '\n' = true := by decide
  induction h with
  | run h => exact h.legal hcs
  | element hb _ _ _ _ _ ihi ih =>
    have h₁ := hb.legal fun c hc => hcs c (by simp [hc])
    have h₂ := ihi fun c hc => hcs c (by simp [hc])
    have h₃ := ih fun c hc => hcs c (by simp [hc])
    intro c hc
    simp only [List.mem_append, List.mem_cons] at hc
    rcases hc with hc | rfl | hc | rfl | hc
    · exact h₁ c hc
    · exact hfeed
    · exact h₂ c hc
    · exact hfeed
    · exact h₃ c hc
  | empty hb _ _ _ ih =>
    have h₁ := hb.legal fun c hc => hcs c (by simp [hc])
    have h₃ := ih fun c hc => hcs c (by simp [hc])
    intro c hc
    simp only [List.mem_append, List.mem_cons] at hc
    rcases hc with hc | rfl | hc
    · exact h₁ c hc
    · exact hfeed
    · exact h₃ c hc

theorem Sections.legal {cs : List Char} {sections : List (String × List Char)}
    (h : Sections true cs sections) (hcs : ∀ c ∈ cs, xmlCharacter c = true) :
    ∀ s ∈ sections, ∀ c ∈ s.2, xmlCharacter c = true := by
  induction h with
  | nil => simp
  | filled _ _ _ _ hi _ ih =>
    exact List.forall_mem_cons.2 ⟨hi.legal fun c hc => hcs c (by simp [hc]),
      ih fun c hc => hcs c (by simp [hc])⟩
  | empty _ _ _ _ ih =>
    exact List.forall_mem_cons.2 ⟨by simp, ih fun c hc => hcs c (by simp [hc])⟩

theorem mem_join {ls : List String} {c : Char} (h : c ∈ (joinWith "\n" ls).toList) :
    c = '\n' ∨ ∃ line ∈ ls, c ∈ line.toList := by
  induction ls with
  | nil => simp [joinWith] at h
  | cons l ls ih =>
    cases ls with
    | nil => exact .inr ⟨l, by simp, by simpa [joinWith] using h⟩
    | cons l' ls =>
      rw [joinWith_cons rfl, List.mem_append, List.mem_cons] at h
      rcases h with h | rfl | h
      · exact .inr ⟨l, by simp, h⟩
      · exact .inl rfl
      · rcases ih h with rfl | ⟨line, hm, hc⟩
        · exact .inl rfl
        · exact .inr ⟨line, List.mem_cons_of_mem _ hm, hc⟩

theorem tidy_sectionLines {text : List Char} (h : ∀ c ∈ text, xmlCharacter c = true) :
    Tidy (joinWith "\n" (sectionLines text)) where
  lines := ⟨_, fun line hm => (sectionLines_spec le_rfl line hm).1, rfl⟩
  legal c hc := by
    rcases mem_join hc with rfl | ⟨line, hm, hc⟩
    · decide
    · exact h c ((sectionLines_spec le_rfl line hm).2 c hc)

/-- The sections the reader returns are tidy. -/
theorem tidy_of_parse {text : String} {sections : List String}
    (h : parseXmlSections text = .ok sections) :
    ∃ goal claims deadEnds hypothesis, sections = [goal, claims, deadEnds, hypothesis] ∧
      Tidy claims ∧ Tidy deadEnds ∧ Tidy hypothesis := by
  obtain ⟨hchars, -, -, -, children, hroot, -, rfl⟩ := parseXmlSections_iff.1 h
  have hlegal : ∀ name, Tidy (joinWith "\n" (sectionLines ((lookup name children).getD []))) := by
    intro name
    apply tidy_sectionLines
    generalize (normalized text).toList = cs at hchars hroot
    obtain ⟨-, -, -, -, hsections⟩ := hroot
    have hall := hsections.legal fun c hc => hchars c (by simp [hc])
    cases hfind : lookup name children with
    | none => simp
    | some said => exact hall _ (mem_of_lookup hfind)
  exact ⟨_, _, _, _, rfl, hlegal _, hlegal _, hlegal _⟩

/-! ## Validating twice -/

/-- What `validate_ledger` asks of the sections. -/
structure Passes (goal source claims deadEnds hypothesis : String) : Prop where
  noEllipsis : ([claims, deadEnds, hypothesis].any fun s => trim s = "..." || trim s = "…") = false
  populated : ([trim goal, claims, deadEnds, hypothesis].any fun s => (trim s).isEmpty) = false
  grounded : (numberSet (joinWith "\n" [trim goal, claims, deadEnds, hypothesis])).find?
    (fun n => !(numberSet source).contains n) = none

/-- The ledger of these sections. -/
def ledgerOf (host : Host) (goal source claims deadEnds hypothesis : String) : Ledger where
  goal := goal
  modelClaims := lines claims
  deadEnds := lines deadEnds
  hypothesis := hypothesis
  sourceSha256 := host.sha256 source
  verification := "unverified_model_summary"

/-- The checks of `validate_ledger` on the sections it has read. -/
def checkSections (host : Host) (goal source claims deadEnds hypothesis : String) (maxBytes : Nat) :
    Except String (Ledger × String) :=
  let sections := [trim goal, claims, deadEnds, hypothesis]
  if [claims, deadEnds, hypothesis].any fun s => trim s = "..." || trim s = "…" then
    .error "summary reflection must not be an ellipsis placeholder"
  else if sections.any fun s => (trim s).isEmpty then
    .error "all summary sections must be populated"
  else match (numberSet (joinWith "\n" sections)).find? fun n =>
      !(numberSet source).contains n with
  | some number => .error ("summary introduces numeric claim " ++ number ++ " absent from source")
  | none =>
    let ledger := ledgerOf host goal source claims deadEnds hypothesis
    let rendered := renderLedger ledger true
    if rendered.utf8ByteSize > maxBytes then
      .error "canonical ledger exceeds configured byte limit"
    else .ok (ledger, rendered)

section validating

variable {host : Host} {proposal goal source claims deadEnds hypothesis : String} {maxBytes : Nat}
  {ledger : Ledger} {rendered : String}

theorem checkSections_ok_iff :
    checkSections host goal source claims deadEnds hypothesis maxBytes = .ok (ledger, rendered) ↔
      Passes goal source claims deadEnds hypothesis ∧
        ledger = ledgerOf host goal source claims deadEnds hypothesis ∧
        rendered = renderLedger ledger true ∧ rendered.utf8ByteSize ≤ maxBytes := by
  unfold checkSections
  constructor
  · intro h
    simp only at h
    cases hellipsis : [claims, deadEnds, hypothesis].any fun s => trim s = "..." || trim s = "…" with
    | true =>
      rw [hellipsis, if_pos rfl] at h
      cases h
    | false =>
      cases hpopulated : [trim goal, claims, deadEnds, hypothesis].any fun s => (trim s).isEmpty with
      | true =>
        rw [hellipsis, hpopulated, if_neg (by simp), if_pos rfl] at h
        cases h
      | false =>
        rw [hellipsis, hpopulated, if_neg (by simp), if_neg (by simp)] at h
        cases hfind : (numberSet (joinWith "\n" [trim goal, claims, deadEnds, hypothesis])).find?
            fun n => !(numberSet source).contains n with
        | some n =>
          rw [hfind] at h
          cases h
        | none =>
          rw [hfind] at h
          simp only at h
          by_cases hlarge : (renderLedger (ledgerOf host goal source claims deadEnds hypothesis)
              true).utf8ByteSize > maxBytes
          · rw [if_pos hlarge] at h
            cases h
          · rw [if_neg hlarge] at h
            cases h
            exact ⟨⟨hellipsis, hpopulated, hfind⟩, rfl, rfl, by omega⟩
  · rintro ⟨⟨hellipsis, hpopulated, hfind⟩, rfl, rfl, hlarge⟩
    simp only
    rw [hellipsis, hpopulated, hfind, if_neg (by simp), if_neg (by simp)]
    simp only
    rw [if_neg (by omega)]

theorem validateLedger_eq {first : String}
    (h : parseXmlSections (stripFence proposal) = .ok [first, claims, deadEnds, hypothesis]) :
    validateLedger host proposal goal source maxBytes true =
      if (trim proposal).isEmpty then .error "summary is empty"
      else if proposal.utf8ByteSize > maxBytes then .error "summary exceeds ledger byte budget"
      else checkSections host goal source claims deadEnds hypothesis maxBytes := by
  unfold validateLedger checkSections ledgerOf
  simp only [if_true]
  rw [h]
  simp only [bind, Except.bind] <;>
    cases (numberSet (joinWith "\n" [trim goal, claims, deadEnds, hypothesis])).find?
      fun n => !(numberSet source).contains n <;> rfl

/-- What an accepted proposal gives. -/
theorem validateLedger_ok
    (h : validateLedger host proposal goal source maxBytes true = .ok (ledger, rendered)) :
    ∃ claims deadEnds hypothesis, Tidy claims ∧ Tidy deadEnds ∧ Tidy hypothesis ∧
      checkSections host goal source claims deadEnds hypothesis maxBytes =
        .ok (ledger, rendered) := by
  cases hs : parseXmlSections (stripFence proposal) with
  | error e =>
    unfold validateLedger at h
    simp only [if_true] at h
    rw [hs] at h
    split_ifs at h
    cases h
  | ok sections =>
    obtain ⟨first, claims, deadEnds, hypothesis, rfl, hc, hd, hp⟩ := tidy_of_parse hs
    rw [validateLedger_eq hs] at h
    split_ifs at h
    exact ⟨claims, deadEnds, hypothesis, hc, hd, hp, h⟩

end validating

theorem Tidy.padded {text : String} (h : Tidy text) :
    joinWith "\n" (sectionLines (padded text.toList)) = text := by
  obtain ⟨ls, hls, rfl⟩ := h.lines
  rw [Markup.padded, sectionLines_padded, sectionLines_join hls]

/-- The lines of a section that is not blank make the section. -/
theorem Tidy.lines_ne {text : String} (h : Tidy text) (hne : (trim text).isEmpty = false) :
    Text.lines text ≠ [] ∧ joinWith "\n" (Text.lines text) = text := by
  obtain ⟨ls, hls, rfl⟩ := h.lines
  have hls' : ls ≠ [] := by
    rintro rfl
    simp [joinWith, trim] at hne
  rw [lines_join hls' hls]
  exact ⟨hls', rfl⟩

theorem Tidy.noReturn {text : String} (h : Tidy text) :
    '\r' ∉ Markup.padded (text.toList.flatMap escapeChar) := by
  obtain ⟨ls, hls, rfl⟩ := h.lines
  intro hmem
  simp only [Markup.padded, List.mem_cons, List.mem_append, List.not_mem_nil, or_false,
    List.mem_flatMap] at hmem
  rcases hmem with hmem | ⟨c, hc, hmem⟩ | hmem
  · simp at hmem
  · by_cases hcr : c = '\r'
    · rcases mem_join hc with hfeed | ⟨line, hl, hc⟩
      · rw [hcr] at hfeed
        simp at hfeed
      · exact (hls line hl).not_mem (c := '\r') rfl (hcr ▸ hc)
    · exact return_not_mem_escapeChar hcr hmem
  · simp at hmem

theorem Tidy.content {text : String} (h : Tidy text) :
    Content true (Markup.padded (text.toList.flatMap escapeChar)) (Markup.padded text.toList) := by
  have hfeed : Run true ['\n'] ['\n'] := .char (by decide) (by decide) .nil
  exact .run (hfeed.append ((run_escape h.legal).append hfeed))

theorem Tidy.inner {text : String} (h : Tidy text) :
    ∀ c ∈ Markup.padded (text.toList.flatMap escapeChar), Inner c :=
  inner_padded (inner_escape h.legal)

theorem stripFence_eq {text : String} {rest : List Char} (htext : text.toList = '<' :: rest)
    (htrim : trim text = text) : stripFence text = text := by
  have hfence : stripPrefix text "\x60\x60\x60" = none := by
    unfold stripPrefix startsWith
    rw [htext, String.toList_ofList]
    rfl
  unfold stripFence
  simp only [htrim]
  rw [hfence]
  rfl

/-- Carriage returns of the goal are line feeds for the reader; the other sections have none. -/
theorem normalized_framed {text : String} {goal claims deadEnds hypothesis : List Char}
    (htext : text.toList = framed (padded (goal.flatMap escapeChar)) claims deadEnds hypothesis)
    (hgoal : ∀ c ∈ goal, xmlCharacter c = true) (hlast : goal.getLast? ≠ some '\r')
    (hc : '\r' ∉ claims) (hd : '\r' ∉ deadEnds) (hp : '\r' ∉ hypothesis) :
    ∃ cs said, (normalized text).toList = framed (padded cs) claims deadEnds hypothesis ∧
      Run true cs said ∧ ∀ c ∈ cs, Inner c := by
  obtain ⟨front, back, hframed, hother⟩ := @framed_goal [] claims deadEnds hypothesis
  have hnone := @framed_noReturn [] _ _ _ (by simp) hc hd hp
  rw [hframed] at hnone
  have hfront : '\r' ∉ front ++ ['\n'] := by
    intro h
    rcases List.mem_append.1 h with h | h
    · exact hnone (List.mem_append_left _ h)
    · simp at h
  have hback : '\r' ∉ '\n' :: back := by
    intro h
    rcases List.mem_cons.1 h with h | h
    · simp at h
    · exact hnone (by simp [h])
  obtain ⟨cs, said, hcs, hrun, hinner⟩ := lineFeeds_escape le_rfl hgoal hlast hback
  refine ⟨cs, said, ?_, hrun, hinner⟩
  have hsplit : text.toList = (front ++ ['\n']) ++ (goal.flatMap escapeChar ++ '\n' :: back) := by
    rw [htext, hother]
    simp [padded]
  have hfeeds : lineFeeds text.toList = framed (padded cs) claims deadEnds hypothesis := by
    rw [hsplit, lineFeeds_append hfront, hcs, hother]
    simp [padded]
  rw [normalized_toList, hfeeds]
  apply dropWhile_mark
  intro c hc
  obtain ⟨rest, hrest⟩ := @framed_head (padded cs) claims deadEnds hypothesis
  rw [hrest] at hc
  cases hc
  decide

/-- The sections of a document with the sections in order. -/
theorem canonical_sections {children : List (String × List Char)}
    (h : children.map Prod.fst = sectionNames) : sectionNames.map (fun name =>
      joinWith "\n" (sectionLines ((lookup name children).getD []))) =
    children.map fun child => joinWith "\n" (sectionLines child.2) := by
  have hnodup : (children.map Prod.fst).Nodup := by
    rw [h]
    decide
  rw [← h, List.map_map]
  apply List.map_congr_left
  intro child hchild
  simp only [Function.comp_apply, lookup_of_mem hnodup (k := child.1) hchild, Option.getD_some]

theorem legal_trim {goal : String} (h : ∀ c ∈ goal.toList, xmlCharacter c = true) :
    ∀ c ∈ (trim goal).toList, xmlCharacter c = true := by
  intro c hc
  rw [← String.ofList_toList (s := goal)] at hc
  exact h c (mem_trim hc)

theorem trim_last (goal : String) : (trim goal).toList.getLast? ≠ some '\r' := by
  intro h
  have := (trimmed_trim goal).last _ h
  revert this
  decide

/-- The reader takes a rendered ledger and returns its sections. -/
theorem parse_framed {text goal claims deadEnds hypothesis : String}
    (htext : text.toList = framed (padded ((trim goal).toList.flatMap escapeChar))
      (padded (claims.toList.flatMap escapeChar)) (padded (deadEnds.toList.flatMap escapeChar))
      (padded (hypothesis.toList.flatMap escapeChar)))
    (hgoal : ∀ c ∈ goal.toList, xmlCharacter c = true) (hc : Tidy claims) (hd : Tidy deadEnds)
    (hp : Tidy hypothesis) :
    ∃ first, parseXmlSections text = .ok [first, claims, deadEnds, hypothesis] := by
  obtain ⟨cs, said, hnormal, hrun, hinner⟩ := normalized_framed htext (legal_trim hgoal)
    (trim_last goal) hc.noReturn hd.noReturn hp.noReturn
  have htagged := framed_tagged (inner_padded hinner) hc.inner hd.inner hp.inner
  have hfeed : Run true ['\n'] ['\n'] := .char (by decide) (by decide) .nil
  have hgoalContent : Content true (padded cs) (padded said) :=
    .run (hfeed.append (hrun.append hfeed))
  have hroot := framed_root hgoalContent hc.content hd.content hp.content
  rw [← hnormal] at hroot
  refine ⟨joinWith "\n" (sectionLines (padded said)), parseXmlSections_iff.2
    ⟨?_, ?_, ?_, ?_, _, hroot, List.Perm.refl _, ?_⟩⟩
  · rw [hnormal]
    exact framed_legal (inner_padded hinner) hc.inner hd.inner hp.inner
  · rw [containsStr_eq_false, hnormal]
    exact htagged.not_sectionEnd
  · rw [containsStr_eq_false, hnormal]
    exact htagged.not_mark (.inl rfl)
  · rw [containsStr_eq_false, hnormal]
    exact htagged.not_mark (.inr rfl)
  · rw [canonical_sections rfl, List.map_cons, List.map_cons, List.map_cons, List.map_singleton,
      hc.padded, hd.padded, hp.padded]

/-- A rendered ledger is valid, and renders as itself. -/
theorem validateLedger_rendered {host : Host} {proposal goal source rendered : String}
    {maxBytes : Nat} {ledger : Ledger} (hgoal : ∀ c ∈ goal.toList, xmlCharacter c = true)
    (h : validateLedger host proposal goal source maxBytes true = .ok (ledger, rendered)) :
    validateLedger host rendered goal source maxBytes true = .ok (ledger, rendered) := by
  obtain ⟨claims, deadEnds, hypothesis, hc, hd, hp, hcheck⟩ := validateLedger_ok h
  obtain ⟨hpasses, hledger, hrendered, hsize⟩ := checkSections_ok_iff.1 hcheck
  have hpopulated := hpasses.populated
  simp only [List.any_cons, List.any_nil, Bool.or_false, Bool.or_eq_false_iff] at hpopulated
  obtain ⟨hlines, hjoin⟩ := hc.lines_ne hpopulated.2.1
  obtain ⟨hlines', hjoin'⟩ := hd.lines_ne hpopulated.2.2.1
  have htext : rendered.toList = framed (padded ((trim goal).toList.flatMap escapeChar))
      (padded (claims.toList.flatMap escapeChar)) (padded (deadEnds.toList.flatMap escapeChar))
      (padded (hypothesis.toList.flatMap escapeChar)) := by
    rw [hrendered, hledger, renderLedger_toList hlines hlines']
    simp only [ledgerOf, hjoin, hjoin']
  obtain ⟨first, hparse⟩ := parse_framed htext hgoal hc hd hp
  have htrimmed : Trimmed rendered.toList := htext ▸ framed_trimmed
  have htrim : trim rendered = rendered := by
    have := trim_ofList htrimmed
    rwa [String.ofList_toList] at this
  obtain ⟨rest, hrest⟩ := @framed_head (padded ((trim goal).toList.flatMap escapeChar))
    (padded (claims.toList.flatMap escapeChar)) (padded (deadEnds.toList.flatMap escapeChar))
    (padded (hypothesis.toList.flatMap escapeChar))
  rw [← htext] at hrest
  have hempty : (trim rendered).isEmpty = false := by
    rw [htrim, Bool.eq_false_iff, ne_eq, String.isEmpty_iff]
    rintro rfl
    cases hrest
  rw [← stripFence_eq hrest htrim] at hparse
  rw [validateLedger_eq hparse, hempty, if_neg (by simp), if_neg (by omega), hcheck]

/-- A proposal that is not in the form of a rendered ledger. -/
def looseProposal : String :=
  "<COMPACTED_STATE><USER_GOAL/><GLOBAL_LESSON_LEDGER>&lt;</GLOBAL_LESSON_LEDGER>" ++
    "<DEAD_ENDS>b</DEAD_ENDS> <CURRENT_LOCAL_PIVOT>c</CURRENT_LOCAL_PIVOT></COMPACTED_STATE>"

set_option maxRecDepth 4000 in
theorem looseProposal_characters : ∃ cs, looseProposal.toList = '<' :: cs ∧
    ('<' :: cs).all xmlCharacter = true ∧ '\r' ∉ '<' :: cs ∧ cs.getLast? = some '>' ∧
    ¬ [']', ']', '>'] <:+: '<' :: cs ∧ ¬ ['<', '!'] <:+: '<' :: cs ∧ ¬ ['<', '?'] <:+: '<' :: cs := by
  unfold looseProposal
  rw [String.toList_append, String.toList_ofList, String.toList_ofList]
  refine ⟨_, rfl, ?_, ?_, ?_, ?_, ?_, ?_⟩ <;> decide +kernel

theorem looseProposal_root : Root true looseProposal.toList
    [("USER_GOAL", []), ("GLOBAL_LESSON_LEDGER", ['<']), ("DEAD_ENDS", ['b']),
      ("CURRENT_LOCAL_PIVOT", ['c'])] := by
  have hclaims : Content true ['&', 'l', 't', ';'] ['<'] := .run (.ref .lt (by decide) .nil)
  have hdeadEnds : Content true ['b'] ['b'] := .run (.char (by decide) (by decide) .nil)
  have hpivot : Content true ['c'] ['c'] := .run (.char (by decide) (by decide) .nil)
  have hblank : Spacing [' '] := by simp [Spacing, isWhitespace]
  have hsections := Sections.empty .nil goal_mem .nil
    (.filled .nil claims_mem .nil .nil hclaims (.filled .nil deadEnds_mem .nil .nil hdeadEnds
    (.filled hblank pivot_mem .nil .nil hpivot (.nil .nil))))
  have hroot := Root.root .nil .nil .nil .nil hsections
  unfold looseProposal
  simpa [opening, closing, empty] using hroot

theorem trim_looseProposal : trim looseProposal = looseProposal := by
  obtain ⟨cs, hcs, -, -, hlast, -⟩ := looseProposal_characters
  have htrimmed : Trimmed looseProposal.toList := by
    rw [hcs]
    constructor
    · intro c hc
      cases hc
      decide
    · intro c hc
      rw [List.getLast?_cons, hlast] at hc
      cases hc
      decide
  have := trim_ofList htrimmed
  rwa [String.ofList_toList] at this

theorem parse_looseProposal : parseXmlSections (stripFence looseProposal) = .ok ["", "<", "b", "c"] := by
  obtain ⟨cs, hcs, hlegal, hcr, -, hend, hdecl, hinst⟩ := looseProposal_characters
  have hnormalized : normalized looseProposal = looseProposal := by
    apply normalized_eq
    · rwa [hcs]
    · intro c hc
      rw [hcs] at hc
      cases hc
      decide
  have hroot : Root true (normalized looseProposal).toList _ := hnormalized ▸ looseProposal_root
  rw [stripFence_eq hcs trim_looseProposal]
  refine parseXmlSections_iff.2 ⟨?_, ?_, ?_, ?_, _, hroot, .refl _, ?_⟩
  · rw [hnormalized, hcs]
    exact List.all_eq_true.1 hlegal
  · rw [hnormalized, containsStr_eq_false, hcs]
    exact hend
  · rw [hnormalized, containsStr_eq_false, hcs]
    exact hdecl
  · rw [hnormalized, containsStr_eq_false, hcs]
    exact hinst
  · rw [canonical_sections rfl]
    decide +kernel

theorem validateLedger_looseProposal : ∃ ledger rendered,
    validateLedger exactHost looseProposal "g" "s" 1000 true = .ok (ledger, rendered) ∧
      validateLedger exactHost rendered "g" "s" 1000 true = .ok (ledger, rendered) := by
  have hcheck : checkSections exactHost "g" "s" "<" "b" "c" 1000 = .ok (_, _) :=
    checkSections_ok_iff.2 ⟨⟨by decide +kernel, by decide +kernel, by decide +kernel⟩, rfl, rfl,
      by decide +kernel⟩
  have heq := @validateLedger_eq exactHost _ "g" "s" _ _ _ 1000 _ parse_looseProposal
  rw [trim_looseProposal, if_neg (by decide +kernel), if_neg (by decide +kernel), hcheck] at heq
  exact ⟨_, _, heq, validateLedger_rendered (by simp [xmlCharacter]) heq⟩

end Markup

end StateDrivenAgent
