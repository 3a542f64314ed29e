import StateDrivenAgent.Verify.Allowance
import StateDrivenAgent.Verify.Admitting

/-!
# The phases of a session

What a session records of its workflow is the trace of a walk along the configured edges (`Walk`):
evidence is recorded while its phase is active, by a call that was executed in it, and the first edge
of the phase whose condition the evidence so far makes true is taken. Every commit of every request,
after every history, has such a workflow, and is complete only with an answer that was accepted
(`history_sound`).
-/

namespace StateDrivenAgent

open Interaction

/-! ## Keys -/

theorem Decimal.colon_notMem_digits (n : Nat) : ':' ∉ (toString n).toList := by
  intro h
  have hdigit : (':').isDigit = true := by
    refine Nat.isDigit_of_mem_toDigits (by omega) (by omega) (n := n) (b := 10) ?_
    rwa [← Nat.toList_repr]
  exact absurd hdigit (by decide)

/-- What follows the last separator. -/
theorem suffix_inj {α : Type} {x : α} {before before' after after' : List α} (h : x ∉ after)
    (h' : x ∉ after') (heq : before ++ x :: after = before' ++ x :: after') :
    before = before' ∧ after = after' := by
  have hnone : ∀ {l m rest : List α}, x ∉ m → x :: m = l ++ x :: rest → l = [] := by
    intro l m rest hm hl
    cases l with
    | nil => rfl
    | cons y l =>
      obtain ⟨-, rfl⟩ := List.cons.inj hl
      exact absurd (List.mem_append_right _ List.mem_cons_self) hm
  rcases List.append_eq_append_iff.1 heq with ⟨l, rfl, hl⟩ | ⟨l, rfl, hl⟩
  · obtain rfl := hnone h hl
    exact ⟨(List.append_nil _).symm, (List.cons.inj hl).2⟩
  · obtain rfl := hnone h' hl
    exact ⟨List.append_nil _, (List.cons.inj hl).2.symm⟩

namespace Engine

/-- The names of the kinds of evidence. -/
inductive Category : String → Prop
  | completion : Category "completion"
  | transition (n : Nat) : Category ("transition-" ++ toString n)

theorem Category.colon_notMem {c : String} (h : Category c) : ':' ∉ c.toList := by
  cases h with
  | completion => decide
  | transition n =>
    rw [String.toList_append, List.mem_append, not_or]
    exact ⟨by decide, Decimal.colon_notMem_digits n⟩

/-- A key names one phase, one kind of evidence and one place, whatever the phase is called. -/
theorem key_inj {p q c d : String} {i j : Nat} (hc : Category c) (hd : Category d)
    (h : key p c i = key q d j) : p = q ∧ c = d ∧ i = j := by
  have htext := congrArg String.toList h
  unfold key at htext
  simp only [String.toList_append, List.append_assoc] at htext
  have hcolon : (":" : String).toList = [':'] := rfl
  rw [hcolon, List.singleton_append, List.singleton_append, List.singleton_append,
    List.singleton_append, ← List.cons_append, ← List.cons_append, ← List.append_assoc,
    ← List.append_assoc] at htext
  obtain ⟨hnames, hplace⟩ := suffix_inj (Decimal.colon_notMem_digits i)
    (Decimal.colon_notMem_digits j) htext
  obtain ⟨hphase, hcategory⟩ := suffix_inj hc.colon_notMem hd.colon_notMem hnames
  exact ⟨String.toList_inj.1 hphase, String.toList_inj.1 hcategory,
    repr_injective (String.toList_inj.1 hplace)⟩

theorem mem_phaseEvidence_iff {p : Phase} {c : String} {i : Nat} {ev : Evidence} :
    (c, i, ev) ∈ phaseEvidence p ↔ c = "completion" ∧ p.completion[i]? = some ev ∨
      ∃ (n : Nat) (edge : Edge), p.transitions[n]? = some edge ∧ c = "transition-" ++ toString n ∧
        edge.evidence[i]? = some ev := by
  unfold phaseEvidence
  rw [List.mem_append, List.mem_map, List.mem_flatMap]
  refine or_congr ⟨?_, ?_⟩ ⟨?_, ?_⟩
  · rintro ⟨x, hx, heq⟩
    cases heq
    exact ⟨rfl, List.mem_zipIdx_iff_getElem?.1 hx⟩
  · rintro ⟨rfl, hev⟩
    exact ⟨(ev, i), List.mem_zipIdx_iff_getElem?.2 hev, rfl⟩
  · rintro ⟨t, ht, hmem⟩
    obtain ⟨x, hx, heq⟩ := List.mem_map.1 hmem
    cases heq
    exact ⟨t.2, t.1, List.mem_zipIdx_iff_getElem?.1 ht, rfl, List.mem_zipIdx_iff_getElem?.1 hx⟩
  · rintro ⟨n, edge, hedge, rfl, hev⟩
    refine ⟨(edge, n), List.mem_zipIdx_iff_getElem?.2 hedge, List.mem_map.2 ⟨(ev, i), ?_, rfl⟩⟩
    exact List.mem_zipIdx_iff_getElem?.2 hev

theorem category_of_mem {p : Phase} {y : String × Nat × Evidence} (h : y ∈ phaseEvidence p) :
    Category y.1 := by
  obtain ⟨c, i, ev⟩ := y
  rcases mem_phaseEvidence_iff.1 h with ⟨rfl, -⟩ | ⟨n, edge, -, rfl, -⟩
  · exact .completion
  · exact .transition n

/-- The place of evidence in its phase. -/
theorem phaseEvidence_inj {p : Phase} {y z : String × Nat × Evidence} (hy : y ∈ phaseEvidence p)
    (hz : z ∈ phaseEvidence p) (hkind : y.1 = z.1) (hplace : y.2.1 = z.2.1) : y = z := by
  obtain ⟨c, i, ev⟩ := y
  obtain ⟨d, j, ev'⟩ := z
  dsimp only at hkind hplace
  subst hkind hplace
  have hne : ∀ n : Nat, "completion" ≠ "transition-" ++ toString n := by
    intro n h
    have hhead := congrArg (fun text : String => text.toList.head?) h
    simp only [String.toList_append] at hhead
    exact absurd hhead (by simp)
  rcases mem_phaseEvidence_iff.1 hy with ⟨rfl, hev⟩ | ⟨n, edge, hedge, rfl, hev⟩ <;>
    rcases mem_phaseEvidence_iff.1 hz with ⟨hc, hev'⟩ | ⟨m, edge', hedge', hc, hev'⟩
  · rw [hev] at hev'
    rw [Option.some.inj hev']
  · exact absurd hc (hne m)
  · exact absurd hc.symm (hne n)
  · have hnumber : toString n = toString m := by
      have htext := congrArg String.toList hc
      rw [String.toList_append, String.toList_append, List.append_cancel_left_eq] at htext
      exact String.toList_inj.1 htext
    obtain rfl := repr_injective hnumber
    rw [hedge] at hedge'
    obtain rfl := Option.some.inj hedge'
    rw [hev] at hev'
    rw [Option.some.inj hev']

/-- In a workflow a key names one piece of evidence of one phase. -/
theorem evidence_of_key {w : WorkflowConfig} (hids : (w.phases.map Phase.id).Nodup) {p q : Phase}
    {y z : String × Nat × Evidence} (hp : p ∈ w.phases) (hq : q ∈ w.phases)
    (hy : y ∈ phaseEvidence p) (hz : z ∈ phaseEvidence q)
    (h : key p.id y.1 y.2.1 = key q.id z.1 z.2.1) : p = q ∧ y = z := by
  obtain ⟨hid, hkind, hplace⟩ := key_inj (category_of_mem hy) (category_of_mem hz) h
  obtain rfl := List.inj_on_of_nodup_map hids hp hq hid
  exact ⟨rfl, phaseEvidence_inj hy hz hkind hplace⟩

/-! ## Walks -/

/-- The evidence so far makes the condition of the `n`-th edge of a phase true. -/
def Holds (seen : List String) (p : Phase) (edge : Edge) (n : Nat) : Prop :=
  edge.when' = "always" ∨
  edge.when' = "phase_complete" ∧ (∀ i ev, p.completion[i]? = some ev → ev.required = true →
    key p.id "completion" i ∈ seen) ∨
  edge.when' ≠ "always" ∧ edge.when' ≠ "phase_complete" ∧ ∀ i < edge.evidence.length,
    key p.id ("transition-" ++ toString n) i ∈ seen

/-- The first edge of a phase whose condition is true. -/
def Chosen (seen : List String) (p : Phase) (edge : Edge) : Prop :=
  ∃ n, p.transitions[n]? = some edge ∧ Holds seen p edge n ∧
    ∀ m < n, ∀ other, p.transitions[m]? = some other → ¬Holds seen p other m

/-- The phase a path of transitions has led to. -/
def reached (w : WorkflowConfig) (ts : List Transition) : Option String :=
  match ts.getLast? with
  | none => some w.entryPhase
  | some t => if t.toPhase = "complete" then none else some t.toPhase

theorem reached_append {w : WorkflowConfig} (ts : List Transition) (t : Transition) :
    reached w (ts ++ [t]) = if t.toPhase = "complete" then none else some t.toPhase := by
  unfold reached
  rw [List.getLast?_append, List.getLast?_singleton]
  rfl

/-- A walk from the entry phase: the keys of the evidence that was recorded, each while its phase was
active and by a call that was executed in it, and the edges that were taken. -/
inductive Walk (e : Engine) (w : WorkflowConfig) (executed : List Executed) :
    List String → List Transition → Prop
  | start : Walk e w executed [] []
  | observe {seen : List String} {ts : List Transition} {p : Phase} {y : String × Nat × Evidence}
      {call : Executed} (h : Walk e w executed seen ts) (hp : p ∈ w.phases)
      (hreached : reached w ts = some p.id) (hy : y ∈ phaseEvidence p) (hcall : call ∈ executed)
      (hphase : call.phase = some p.id)
      (hmatches : evidenceMatches e.host y.2.2 call.name call.args call.output = true)
      (hnew : key p.id y.1 y.2.1 ∉ seen) :
      Walk e w executed (seen ++ [key p.id y.1 y.2.1]) ts
  | take {seen : List String} {ts : List Transition} {p : Phase} {edge : Edge}
      (h : Walk e w executed seen ts) (hp : p ∈ w.phases) (hreached : reached w ts = some p.id)
      (hchosen : Chosen seen p edge) :
      Walk e w executed seen (ts ++ [⟨p.id, edge.to', edge.when'⟩])

theorem Walk.mono {e : Engine} {w : WorkflowConfig} {executed : List Executed} {seen : List String}
    {ts : List Transition} (h : Walk e w executed seen ts) (x : Executed) :
    Walk e w (executed ++ [x]) seen ts := by
  induction h with
  | start => exact .start
  | observe _ hp hreached hy hcall hphase hmatches hnew ih =>
    exact .observe ih hp hreached hy (List.mem_append_left _ hcall) hphase hmatches hnew
  | take _ hp hreached hchosen ih => exact .take ih hp hreached hchosen

section Walk

variable {e : Engine} {w : WorkflowConfig} {executed : List Executed} {seen : List String}
  {ts : List Transition}

/-- A walk stays among the phases of the workflow. -/
theorem Walk.configured {names : List String} (hw : Config.Connected names w)
    (h : Walk e w executed seen ts) {id : String} (hid : reached w ts = some id) :
    id ∈ w.phases.map Phase.id := by
  induction h with
  | start => exact Option.some.inj hid ▸ hw.entry
  | observe _ _ _ _ _ _ _ _ ih => exact ih hid
  | @take _ ts p edge _ hp _ hchosen _ =>
    obtain ⟨n, hedge, -, -⟩ := hchosen
    rw [reached_append] at hid
    split at hid
    · cases hid
    next htarget =>
      obtain rfl := Option.some.inj hid
      exact (hw.targets p hp edge (List.mem_of_getElem? hedge)).resolve_left htarget

theorem Walk.nodup (h : Walk e w executed seen ts) : seen.Nodup := by
  induction h with
  | start => exact List.nodup_nil
  | observe _ _ _ _ _ _ _ hnew ih => exact List.nodup_append.2 ⟨ih, List.nodup_singleton _, by
      rintro a ha b hb rfl
      exact hnew (List.mem_singleton.1 hb ▸ ha)⟩
  | take _ _ _ _ ih => exact ih

/-- Every transition leaves the phase the ones before it have led to. -/
theorem Walk.chain (h : Walk e w executed seen ts) {before after : List Transition} {t : Transition}
    (hts : ts = before ++ t :: after) : reached w before = some t.fromPhase := by
  induction h generalizing after with
  | start => simp at hts
  | observe _ _ _ _ _ _ _ _ ih => exact ih hts
  | take _ _ hreached _ ih =>
    rcases List.eq_nil_or_concat after with rfl | ⟨after, u, rfl⟩
    · obtain ⟨rfl, ht⟩ := List.append_inj' hts rfl
      cases ht
      exact hreached
    · rw [List.concat_eq_append, ← List.cons_append, ← List.append_assoc] at hts
      exact ih (List.append_inj' hts rfl).1

/-- Every key was recorded for a call that was executed in its phase and supplies its evidence. -/
theorem Walk.supplied (h : Walk e w executed seen ts) {k : String} (hk : k ∈ seen) :
    ∃ p ∈ w.phases, ∃ y ∈ phaseEvidence p, k = key p.id y.1 y.2.1 ∧ ∃ call ∈ executed,
      call.phase = some p.id ∧
        evidenceMatches e.host y.2.2 call.name call.args call.output = true := by
  induction h with
  | start => cases hk
  | observe _ hp _ hy hcall hphase hmatches _ ih =>
    rcases List.mem_append.1 hk with hk | hk
    · exact ih hk
    · exact ⟨_, hp, _, hy, List.mem_singleton.1 hk, _, hcall, hphase, hmatches⟩
  | take _ _ _ _ ih => exact ih hk

end Walk

/-- The record of a walk. -/
structure Traced (e : Engine) (w : WorkflowConfig) (executed : List Executed) (x : Workflow) :
    Prop where
  walk : Walk e w executed x.observedEvidence x.transitions
  active : x.activePhase = reached w x.transitions
  left : x.completedPhases = (x.transitions.map Transition.fromPhase).eraseDups

/-! ## What the engine records -/

theorem observed_iff {x : Workflow} {k : String} :
    observed (some x) k = true ↔ k ∈ x.observedEvidence := by
  unfold observed
  rw [Option.any_some, List.contains_iff_mem]

theorem missingEvidence_isEmpty_iff {x : Workflow} {p : Phase} :
    (missingEvidence (some x) p).isEmpty = true ↔ ∀ i ev, p.completion[i]? = some ev →
      ev.required = true → key p.id "completion" i ∈ x.observedEvidence := by
  unfold missingEvidence
  rw [List.isEmpty_iff, List.filter_eq_nil_iff]
  constructor
  · intro h i ev hev hrequired
    have hseen := h (ev, i) (List.mem_zipIdx_iff_getElem?.2 hev)
    rw [hrequired, Bool.true_and, Bool.not_eq_true', Bool.not_eq_false] at hseen
    exact observed_iff.1 hseen
  · rintro h ⟨ev, i⟩ hmem hmissing
    obtain ⟨hrequired, hunseen⟩ := Bool.and_eq_true_iff.1 hmissing
    have hseen := observed_iff.2 (h i ev (List.mem_zipIdx_iff_getElem?.1 hmem) hrequired)
    rw [hseen] at hunseen
    cases hunseen

theorem evidence_all_iff {x : Workflow} {evidence : List Evidence} {p c : String} :
    (evidence.zipIdx.all fun y => observed (some x) (key p c y.2)) = true ↔
      ∀ i < evidence.length, key p c i ∈ x.observedEvidence := by
  simp only [List.all_eq_true, observed_iff]
  constructor
  · intro h i hi
    have hmem : (evidence[i], i) ∈ evidence.zipIdx :=
      List.mem_zipIdx_iff_getElem?.2 (List.getElem?_eq_getElem hi)
    exact h (evidence[i], i) hmem
  · rintro h ⟨ev, i⟩ hmem
    obtain ⟨hi, -⟩ := List.getElem?_eq_some_iff.1 (List.mem_zipIdx_iff_getElem?.1 hmem)
    exact h i hi

theorem edgeReady_iff {x : Workflow} {p : Phase} {edge : Edge} {n : Nat} :
    edgeReady (some x) p edge n = true ↔ Holds x.observedEvidence p edge n := by
  unfold edgeReady Holds
  by_cases halways : edge.when' = "always"
  · simp [halways]
  by_cases hcomplete : edge.when' = "phase_complete"
  · rw [if_neg halways, if_pos hcomplete, missingEvidence_isEmpty_iff]
    simp [hcomplete]
  · rw [if_neg halways, if_neg hcomplete, evidence_all_iff]
    simp only [halways, hcomplete, false_and, false_or, not_false_eq_true, true_and, ne_eq]

variable {e : Engine} {w : WorkflowConfig} {executed : List Executed} {x : Workflow}

theorem phase_eq_some {id : String} {p : Phase} (hw : e.config.workflow = some w)
    (h : e.phase id = some p) : p ∈ w.phases ∧ p.id = id := by
  unfold phase at h
  rw [hw, Option.bind_some] at h
  exact ⟨List.mem_of_find?_eq_some h, by simpa using List.find?_some h⟩

theorem nextEdge_eq_some {p : Phase} {edge : Edge} (hw : e.config.workflow = some w)
    (h : e.nextEdge x = some (p, edge)) :
    p ∈ w.phases ∧ x.activePhase = some p.id ∧ Chosen x.observedEvidence p edge := by
  unfold nextEdge at h
  simp only [Option.bind_eq_bind, Option.bind_eq_some_iff] at h
  obtain ⟨id, hactive, q, hphase, y, hfind, hpair⟩ := h
  cases hpair
  obtain ⟨hp, hid⟩ := phase_eq_some hw hphase
  obtain ⟨hready, n, hn, hy, hfirst⟩ := List.find?_eq_some_iff_getElem.1 hfind
  rw [List.getElem_zipIdx, Nat.zero_add] at hy
  have hlength : n < p.transitions.length := by simpa using hn
  have hedge : y = (p.transitions[n], n) := hy.symm
  subst hedge
  refine ⟨hp, hid ▸ hactive, n, List.getElem?_eq_getElem hlength, edgeReady_iff.1 hready, ?_⟩
  intro m hm other hother hholds
  obtain ⟨hlt, rfl⟩ := List.getElem?_eq_some_iff.1 hother
  have hnot := hfirst m hm
  rw [List.getElem_zipIdx, Nat.zero_add] at hnot
  rw [edgeReady_iff.2 hholds] at hnot
  cases hnot

/-- The phases that were left, in the order in which they were left first. -/
theorem eraseDups_append_singleton {α : Type} [DecidableEq α] (l : List α) (a : α) :
    (l ++ [a]).eraseDups =
      if l.eraseDups.contains a then l.eraseDups else l.eraseDups ++ [a] := by
  rw [List.eraseDups_append]
  by_cases h : a ∈ l
  · have hcontains : l.eraseDups.contains a = true := List.contains_iff_mem.2 (List.mem_eraseDups.2 h)
    rw [if_pos hcontains]
    simp [List.removeAll, h]
  · have hcontains : ¬l.eraseDups.contains a = true := fun hc =>
      h (List.mem_eraseDups.1 (List.contains_iff_mem.1 hc))
    rw [if_neg hcontains]
    simp [List.removeAll, h, List.eraseDups_cons]

namespace Traced

theorem start (e : Engine) (w : WorkflowConfig) (executed : List Executed) :
    Traced e w executed (initialWorkflow w) := ⟨.start, rfl, rfl⟩

theorem advance (hw : e.config.workflow = some w) (h : Traced e w executed x) :
    Traced e w executed (e.advanceWorkflow x).2 := by
  unfold advanceWorkflow
  cases hnext : e.nextEdge x with
  | none => exact h
  | some next =>
    obtain ⟨p, edge⟩ := next
    obtain ⟨hp, hactive, hchosen⟩ := nextEdge_eq_some hw hnext
    refine ⟨.take h.walk hp (h.active ▸ hactive) hchosen, ?_, ?_⟩
    · show (if edge.to' ≠ "complete" then some edge.to' else none) = _
      rw [show (takeEdge x p edge).1.transitions = x.transitions ++ [⟨p.id, edge.to', edge.when'⟩]
        from rfl, reached_append, ite_not]
    · show (if x.completedPhases.contains p.id then _ else _) = _
      rw [show (takeEdge x p edge).1.transitions = x.transitions ++ [⟨p.id, edge.to', edge.when'⟩]
        from rfl, List.map_append, List.map_singleton, eraseDups_append_singleton, ← h.left]

/-- A call that was executed in the active phase adds what it supplies. -/
theorem record (call : Executed) (hw : e.config.workflow = some w) (h : Traced e w executed x)
    (hcall : call ∈ executed) (hphase : call.phase = x.activePhase) :
    Traced e w executed (e.recordWorkflow x call.name call.args call.output) := by
  unfold recordWorkflow
  cases hactive : x.activePhase.bind e.phase with
  | none => exact h
  | some p =>
    obtain ⟨id, hid, hfound⟩ := Option.bind_eq_some_iff.1 hactive
    obtain ⟨hp, rfl⟩ := phase_eq_some hw hfound
    have hreached : reached w x.transitions = some p.id := h.active ▸ hid
    refine ⟨?_, h.active, h.left⟩
    -- the evidence is added piece by piece
    have hfold : ∀ (ys : List (String × Nat × Evidence)) (seen : List String),
        (∀ y ∈ ys, y ∈ phaseEvidence p) → Walk e w executed seen x.transitions →
        Walk e w executed (ys.foldl (e.recordOne p call.name call.args call.output) seen)
          x.transitions := by
      intro ys
      induction ys with
      | nil => exact fun _ _ hwalk => hwalk
      | cons y ys ih =>
        intro seen hys hwalk
        rw [List.foldl_cons]
        refine ih _ (fun z hz => hys z (List.mem_cons_of_mem _ hz)) ?_
        unfold recordOne
        dsimp only
        split
        next hnew =>
          obtain ⟨hnew, hmatches⟩ := Bool.and_eq_true_iff.1 hnew
          refine .observe hwalk hp hreached (hys y List.mem_cons_self) hcall (hphase.trans hid)
            hmatches ?_
          intro hmem
          rw [List.contains_iff_mem.2 hmem] at hnew
          cases hnew
        next => exact hwalk
    exact hfold _ _ (fun _ hy => hy) h.walk

end Traced

/-! ## Sessions -/

/-- The workflow of a session is the record of a walk, and a session is complete only with an answer
that its workflow and its captured results admitted; `n` times the store has rewritten these
since. -/
structure Sound (e : Engine) (executed : List Executed) (c : Core) : Prop where
  configured : c.workflow.isSome = e.config.workflow.isSome
  traced : ∀ w x, e.config.workflow = some w → c.workflow = some x → Traced e w executed x
  complete : c.status = .complete → ∃ answer artifacts n, c.finalAnswer = some answer ∧
    c.completionArtifacts = (Storage.jsonb e.host)^[n] artifacts ∧
    e.Accepts c.workflow artifacts answer

namespace Sound

variable {c : Core}

theorem mono (h : e.Sound executed c) (y : Executed) : e.Sound (executed ++ [y]) c :=
  ⟨h.configured, fun w x hw hx => ⟨(h.traced w x hw hx).walk.mono y, (h.traced w x hw hx).active,
    (h.traced w x hw hx).left⟩, h.complete⟩

theorem of_workflow {c' : Core} (h : e.Sound executed c) (hw : c'.workflow = c.workflow)
    (hc : c'.status = .complete → c.status = .complete ∧ c'.finalAnswer = c.finalAnswer ∧
      c'.completionArtifacts = c.completionArtifacts) : e.Sound executed c' := by
  refine ⟨hw ▸ h.configured, hw ▸ h.traced, fun hcomplete => ?_⟩
  obtain ⟨hstatus, hanswer, hartifacts⟩ := hc hcomplete
  rw [hw, hanswer, hartifacts]
  exact h.complete hstatus

theorem advance (h : e.Sound executed c) (ha : c.status = .active) :
    e.Sound executed { c with workflow := e.advanced c.workflow } := by
  refine ⟨?_, fun w x hw hx => ?_, fun hcomplete => ?_⟩
  · show (e.advanced c.workflow).isSome = _
    unfold advanced
    cases hw : e.config.workflow with
    | none => exact h.configured.trans (by rw [hw])
    | some w => rfl
  · have hsome : c.workflow.isSome = true := by rw [h.configured, hw]; rfl
    obtain ⟨y, hy⟩ := Option.isSome_iff_exists.1 hsome
    have hx : e.advanced c.workflow = some x := hx
    unfold advanced at hx
    rw [hw, hy] at hx
    obtain rfl := Option.some.inj hx
    exact (h.traced w y hw hy).advance hw
  · exact absurd (ha.symm.trans hcomplete) (by decide)

theorem takeIn (h : e.Sound executed c) (id : String) {name output : String}
    {args : List (String × Value)} (step : Int) (ha : c.status = .active)
    (hx : ⟨c.activePhase, name, args, output⟩ ∈ executed) :
    e.Sound executed (c.takeIn e id name args output step) := by
  refine ⟨?_, fun w x hw hworkflow => ?_, fun hcomplete => ?_⟩
  · show (c.workflow.map _).isSome = _
    rw [Option.isSome_map]
    exact h.configured
  · obtain ⟨y, hy, rfl⟩ := Option.map_eq_some_iff.1 hworkflow
    have hphase : c.activePhase = y.activePhase := by
      unfold Core.activePhase
      rw [hy]
      rfl
    exact (h.traced w y hw hy).record ⟨c.activePhase, name, args, output⟩ hw hx hphase
  · exact absurd (ha.symm.trans hcomplete) (by decide)

theorem move {p : Permits} {c' : Core} (h : e.Sound executed c)
    (hexecuted : ∀ y, p.executed y → y ∈ executed) (hm : Move e p c c') : e.Sound executed c' := by
  cases hm with
  | advance _ ha => exact h.advance ha
  | takeIn id step ha hx => exact h.takeIn id step ha (hexecuted _ hx)
  | complete _ _ haccepts => exact ⟨h.configured, h.traced, fun _ => ⟨_, _, 0, rfl, rfl, haccepts⟩⟩
  | fail | block | stop | abandon | reopen => exact h.of_workflow rfl nofun
  | _ => exact h.of_workflow rfl fun hcomplete => ⟨hcomplete, rfl, rfl⟩

theorem reloaded {y : Session} (h : e.Sound executed y.core) :
    e.Sound executed (y.reloaded e.host).core := by
  refine ⟨h.configured, h.traced, fun hcomplete => ?_⟩
  obtain ⟨answer, artifacts, n, hanswer, hartifacts, haccepts⟩ := h.complete hcomplete
  refine ⟨answer, artifacts, n + 1, hanswer, ?_, haccepts⟩
  rw [Function.iterate_succ_apply', ← hartifacts]
  rfl

end Sound

end Engine

/-! ## Histories of requests -/

def sound (env : Deployment) {config : Config} (h : ∀ tool ∈ config.tools, tool.name ≠ "") :
    Lasting env config where
  Inv executed c := Engine.Sound ⟨env.toHost, config⟩ executed c
  Event _ := True
  content _ := True
  supported := h
  mono h := h.mono _
  move h hm := h.move (fun _ hy => hy) hm
  start h := h.of_workflow rfl fun hcomplete => ⟨hcomplete, rfl, rfl⟩
  created := by
    refine ⟨Option.isSome_map, fun w x hw hx => ?_, nofun⟩
    obtain ⟨w', hw', rfl⟩ := Option.map_eq_some_iff.1 hx
    obtain rfl := Option.some.inj (hw.symm.trans hw')
    exact .start _ _ _
  reloaded h := h.reloaded
  harmless _ := trivial
  grouped _ _ := .inr fun _ => trivial
  said _ _ := trivial

/-- After every history, the workflow of every commit and of what is stored is the record of a walk,
and what is complete has an answer that was accepted. A walk stays among the configured phases, every
transition leaves the phase that was reached, and every key is the key of one piece of evidence only,
which an executed call of its phase has supplied. -/
theorem history_sound (env : Deployment) (config : Config)
    (haccepted : Config.validateConfig env.toHost config = .ok ())
    (htools : ∀ tool ∈ config.tools, Commands.isSupported tool.name = true) :
    (∀ g s value event, Server.Reaches env config (fun _ _ => True) g (.transact s value event) →
      Engine.Sound ⟨env.toHost, config⟩ g.executed s.core) ∧
    (∀ g x, Server.History env config (fun _ _ => True) g → g.stored = some x →
      Engine.Sound ⟨env.toHost, config⟩ g.executed x.core) ∧
    ∀ w executed seen ts, config.workflow = some w →
      Engine.Walk ⟨env.toHost, config⟩ w executed seen ts → seen.Nodup ∧
        (∀ id, Engine.reached w ts = some id → id ∈ w.phases.map Phase.id) ∧
        (∀ before t after, ts = before ++ t :: after →
          Engine.reached w before = some t.fromPhase) ∧
        ∀ k ∈ seen, ∃ p ∈ w.phases, ∃ y ∈ Engine.phaseEvidence p,
          k = Engine.key p.id y.1 y.2.1 ∧
          (∃ call ∈ executed, call.phase = some p.id ∧
            Engine.evidenceMatches env.toHost y.2.2 call.name call.args call.output = true) ∧
          ∀ q ∈ w.phases, ∀ z ∈ Engine.phaseEvidence q, k = Engine.key q.id z.1 z.2.1 →
            q = p ∧ z = y := by
  have hnames : ∀ tool ∈ config.tools, tool.name ≠ "" :=
    fun tool ht => Commands.name_of_supported (htools tool ht)
  refine ⟨fun g s value event h => ?_, fun g x h hx => ?_, fun w executed seen ts hw hwalk => ?_⟩
  · obtain ⟨g₀, before, r, rest, hperforms, hg⟩ := h
    exact ((sound env hnames).owed ⟨g₀, before, r, rest,
      hperforms.mono fun _ _ _ _ _ _ => trivial, hg⟩).1
  · exact ((sound env hnames).stored_of_history (h.mono fun _ _ ⟨request, hp, _, hnew⟩ =>
      ⟨request, hp, fun _ _ _ => trivial, hnew⟩) x hx).1
  · have hconnected := (Config.validateConfig_ok_iff.1 haccepted).workflow w hw
    refine ⟨hwalk.nodup, fun id => hwalk.configured hconnected,
      fun before t after => hwalk.chain, fun k hk => ?_⟩
    obtain ⟨p, hp, y, hy, rfl, hcall⟩ := hwalk.supplied hk
    refine ⟨p, hp, y, hy, rfl, hcall, fun q hq z hz hkey => ?_⟩
    exact Engine.evidence_of_key hconnected.ids hq hp hz hy hkey.symm

section Sample

def openEdge : Edge := { to' := "complete", when' := "always" }

/-- A phase that is left at once. -/
def openPhase : Phase where
  id := "inspect"
  name := "Inspection"
  instruction := "Inspect the log."
  transitions := [openEdge]

def openWorkflow : WorkflowConfig := ⟨"inspect", [openPhase]⟩

def openConfig : Config := { Engine.limitsConfig 10 1024 256 with workflow := some openWorkflow }

theorem accepts_openConfig : Config.validateConfig exactHost openConfig = .ok () :=
  Engine.eq_ok_of_stopOf (by decide +kernel)

/-- The model answers. -/
def answerReply : HttpReply := replyOf (.obj [("content", .str "Done.")])

/-- The event commits a session that is complete after a transition. -/
def completes (x : Event Eff Reply) : Bool :=
  match x.1 with
  | .transact s _ _ => decide (s.status = .complete) &&
      s.workflow.any fun w => w.transitions.length == 1
  | _ => false

theorem openWalk : Engine.Walk ⟨exactHost, openConfig⟩ openWorkflow [] []
    ([] ++ [⟨openPhase.id, openEdge.to', openEdge.when'⟩]) :=
  .take .start List.mem_cons_self rfl ⟨0, rfl, .inl rfl, fun _ hm => absurd hm (Nat.not_lt_zero _)⟩

/-- A small session is completed by an answer after its only transition. -/
theorem history_sound_small :
    (∃ (g : Ghost) (s : Session) (value event : Value),
      Server.Reaches (plainAgent exactHost openConfig) openConfig (fun _ _ => True) g
        (.transact s value event) ∧ s.status = .complete ∧
      Engine.Sound ⟨exactHost, openConfig⟩ g.executed s.core) ∧
    (∃ (g : Ghost) (x : Session), g.stored = some x ∧
      Engine.Sound ⟨exactHost, openConfig⟩ g.executed x.core) ∧
    Engine.reached openWorkflow [] = some "inspect" := by
  have h := history_sound (plainAgent exactHost openConfig) openConfig accepts_openConfig
    (by simp [openConfig, Engine.limitsConfig])
  have hcompleted : (firstRun exactHost openConfig (fun _ => answerReply) 100).any completes = true := by
    decide +kernel
  obtain ⟨g, hperforms⟩ := firstRun_performs exactHost openConfig (fun _ => answerReply) 100
  obtain ⟨⟨x, r⟩, hx, hcompletes⟩ := List.any_eq_true.1 hcompleted
  have hstored : (Server.afterPlayed (plainAgent exactHost openConfig) openConfig .null
      (fun _ => false) (fun _ => answerReply) 100 {}
      (.create .null "goal" .null "sha")).stored.isSome = true := by decide +kernel
  obtain ⟨y, hy⟩ := Option.isSome_iff_exists.1 hstored
  have hcreated := Server.History.performs .null (fun _ => false) (fun _ => answerReply) 100 rfl
    (.start : Server.History (plainAgent exactHost openConfig) openConfig (fun _ _ => True) {})
    (.create .null "goal" .null "sha") trivial fun _ => rfl
  refine ⟨?_, ⟨_, y, hy, h.2.1 _ y hcreated.history_after hy⟩,
    (h.2.2 openWorkflow [] [] _ rfl openWalk).2.2.1 [] _ [] rfl⟩
  cases x with
  | transact s value event =>
    obtain ⟨g', hreaches⟩ := hperforms.reaches hx
    have hcomplete := of_decide_eq_true (Bool.and_eq_true_iff.1 hcompletes).1
    exact ⟨g', s, value, event, hreaches, hcomplete, h.1 g' s value event hreaches⟩
  | _ => cases hcompletes

end Sample

end StateDrivenAgent
