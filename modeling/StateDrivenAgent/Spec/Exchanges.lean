import StateDrivenAgent.Agent.Decision
import StateDrivenAgent.Interaction.Segments

/-!
# Complete exchanges

What belongs together in a history: one message that neither calls tools nor answers a call, or a
batch of calls with one result for each of them, in any order. The kind is stated over what a
reader sees of a message (`View`), for the history and for its form on the wire alike. The two
functions that group a history, `interaction_groups` and `single_call_wire`, check exactly this.
-/

namespace StateDrivenAgent

open Context Segments

/-- What grouping sees of a message: whether it is a result, the call it answers, and the calls it
makes. -/
structure View (α : Type) where
  isResult : α → Prop
  answers : α → Option String
  calls : α → Option (List Value)

/-- The messages of a history, whatever they were stored with. -/
def bodyView : View MessageBody where
  isResult m := m.role = "tool"
  answers m := m.toolCallId
  calls := batchCalls

/-- The messages of the history. -/
def historyView : View Message where
  isResult m := m.role = "tool"
  answers m := m.toolCallId
  calls m := batchCalls m.toMessageBody

/-- The messages of a request. -/
def wireView : View Value where
  isResult v := Engine.setting v "role" = some "tool"
  answers v := Engine.setting v "tool_call_id"
  calls := Engine.wireCalls

/-- Identities all there, all different, and none of them seen before. -/
def Fresh (seen ids : List String) : Prop :=
  ids.Nodup ∧ ∀ id ∈ ids, id ≠ "" ∧ id ∉ seen

/-- The calls have the identities `ids`, none of them empty and all different. -/
structure Identified (calls : List Value) (ids : List String) : Prop where
  calls : calls.map callId = ids.map some
  fresh : Fresh [] ids

/-- The messages are the results of the calls `ids`, one for each. -/
structure Resolves {α : Type} (v : View α) (ids : List String) (results : List α) : Prop where
  each : ∀ r ∈ results, v.isResult r
  perm : (results.map v.answers).Perm (ids.map some)

/-- One complete exchange. -/
inductive Exchange {α : Type} (v : View α) : List α → Prop
  | single {m : α} (hr : ¬v.isResult m) (hc : v.calls m = none) : Exchange v [m]
  | batch {m : α} {calls : List Value} {ids : List String} {results : List α}
      (hm : ¬v.isResult m) (hc : v.calls m = some calls) (hne : calls ≠ [])
      (hi : Identified calls ids) (hr : Resolves v ids results) : Exchange v (m :: results)

/-! ## Identities -/

theorem fresh_nil (seen : List String) : Fresh seen [] := ⟨List.nodup_nil, by simp⟩

theorem fresh_cons {seen ids : List String} {id : String} :
    Fresh seen (id :: ids) ↔ (id ≠ "" ∧ id ∉ seen) ∧ Fresh (seen ++ [id]) ids := by
  unfold Fresh
  simp only [List.nodup_cons, List.forall_mem_cons, List.mem_append, List.mem_singleton, not_or]
  constructor
  · rintro ⟨⟨hnot, hnodup⟩, hid, hall⟩
    exact ⟨hid, hnodup, fun id' hid' =>
      ⟨(hall id' hid').1, (hall id' hid').2, fun heq => hnot (heq ▸ hid')⟩⟩
  · rintro ⟨hid, hnodup, hall⟩
    exact ⟨⟨fun hmem => (hall id hmem).2.2 rfl, hnodup⟩, hid, fun id' hid' =>
      ⟨(hall id' hid').1, (hall id' hid').2.1⟩⟩

/-- A list without repetitions within one that is no longer. -/
theorem perm_of_subset {α : Type} {ids results : List α} (hids : ids.Nodup)
    (hlen : results.length = ids.length) (hsub : ids ⊆ results) : results.Perm ids :=
  ((List.subperm_of_subset hids hsub).perm_of_length_le (by omega)).symm

theorem Identified.length {calls : List Value} {ids : List String} (h : Identified calls ids) :
    calls.length = ids.length := by
  have hlen := congrArg List.length h.calls
  simpa using hlen

theorem Identified.unique {calls : List Value} {ids ids' : List String} (h : Identified calls ids)
    (h' : Identified calls ids') : ids = ids' :=
  List.map_injective_iff.mpr (Option.some_injective _) (h.calls.symm.trans h'.calls)

theorem Resolves.length {α : Type} {v : View α} {ids : List String} {results : List α}
    (h : Resolves v ids results) : results.length = ids.length := by
  have hlen := h.perm.length_eq
  simpa using hlen

/-- A list without `none` is a list of values. -/
theorem exists_map_some {l : List (Option String)} (h : ∀ o ∈ l, o ≠ none) :
    ∃ values : List String, l = values.map some := by
  induction l with
  | nil => exact ⟨[], rfl⟩
  | cons o l ih =>
    obtain ⟨values, rfl⟩ := ih fun o' ho' => h o' (by simp [ho'])
    obtain ⟨x, rfl⟩ := Option.ne_none_iff_exists'.mp (h o (by simp))
    exact ⟨x :: values, rfl⟩

/-- Results resolve the calls if as many different identities answer as calls were made, and each
call is among the answered ones. -/
theorem resolves_iff {α : Type} {v : View α} {ids : List String} {results : List α}
    (hids : Fresh [] ids) : Resolves v ids results ↔ (∀ r ∈ results, v.isResult r) ∧
      ∃ found : List String, results.map v.answers = found.map some ∧ Fresh [] found ∧
        found.length = ids.length ∧ ∀ id ∈ ids, id ∈ found := by
  constructor
  · intro h
    have hsome : ∀ o ∈ results.map v.answers, o ≠ none := by
      intro o ho
      obtain ⟨id, -, rfl⟩ := List.mem_map.mp (h.perm.mem_iff.mp ho)
      exact Option.some_ne_none id
    obtain ⟨found, hfound⟩ := exists_map_some hsome
    have hperm : found.Perm ids :=
      (List.map_perm_map_iff (Option.some_injective _)).mp (hfound ▸ h.perm)
    refine ⟨h.each, found, hfound, ⟨hperm.nodup_iff.mpr hids.1, ?_⟩, hperm.length_eq, ?_⟩
    · intro id hid
      exact hids.2 id (hperm.mem_iff.mp hid)
    · intro id hid
      exact hperm.mem_iff.mpr hid
  · rintro ⟨heach, found, hfound, -, hlen, hall⟩
    refine ⟨heach, ?_⟩
    rw [hfound]
    exact (perm_of_subset hids.1 hlen hall).map some

/-! ## Exchanges from the left -/

section Left

variable {α : Type} {v : View α} {m : α} {calls : List Value} {ids : List String} {rest : List α}

/-- No exchange is the beginning of another one. -/
theorem Exchange.prefixFree (v : View α) : PrefixFree (Exchange v) := by
  constructor
  · intro g h
    cases h <;> simp
  · intro g g' h h' hprefix
    cases h with
    | @single m hr hc =>
      cases h' with
      | single hr' hc' => exact (List.cons_prefix_cons.mp hprefix).1 ▸ rfl
      | batch hm' hc' hne' hi' hr' =>
        rw [(List.cons_prefix_cons.mp hprefix).1, hc'] at hc
        cases hc
    | @batch m calls ids results hm hc hne hi hr =>
      cases h' with
      | single hr' hc' =>
        rw [(List.cons_prefix_cons.mp hprefix).1, hc'] at hc
        cases hc
      | @batch m' calls' ids' results' hm' hc' hne' hi' hr' =>
        obtain ⟨rfl, hresults⟩ := List.cons_prefix_cons.mp hprefix
        obtain rfl : calls = calls' := Option.some.inj (hc.symm.trans hc')
        obtain rfl : ids = ids' := hi.unique hi'
        rw [hresults.eq_of_length (hr.length.trans hr'.length.symm)]

/-- A message without calls is an exchange of its own. -/
theorem exists_cut_single (hr : ¬v.isResult m) (hc : v.calls m = none) :
    (∃ gs, Cut (Exchange v) gs (m :: rest)) ↔ ∃ gs, Cut (Exchange v) gs rest :=
  Cut.exists_append_iff (Exchange.prefixFree v) (.single hr hc)

/-- No exchange begins with a result. -/
theorem not_cut_result (hr : v.isResult m) : ¬∃ gs, Cut (Exchange v) gs (m :: rest) := by
  intro h
  obtain ⟨g, hg, hprefix⟩ := Cut.exists_head h
  cases hg with
  | single hr' hc => exact hr' ((List.cons_prefix_cons.mp hprefix).1 ▸ hr)
  | batch hm hc hne hi hr' => exact hm ((List.cons_prefix_cons.mp hprefix).1 ▸ hr)

/-- A batch takes as many results as it makes calls. -/
theorem exists_cut_batch (hm : ¬v.isResult m) (hc : v.calls m = some calls) (hne : calls ≠ []) :
    (∃ gs, Cut (Exchange v) gs (m :: rest)) ↔
      ∃ ids, Identified calls ids ∧ Resolves v ids (rest.take ids.length) ∧
        ∃ gs, Cut (Exchange v) gs (rest.drop ids.length) := by
  constructor
  · intro h
    obtain ⟨g, hg, hprefix⟩ := Cut.exists_head h
    cases hg with
    | single hr' hc' =>
      rw [(List.cons_prefix_cons.mp hprefix).1, hc] at hc'
      cases hc'
    | @batch m' calls' ids results hm' hc' hne' hi hr =>
      obtain ⟨rfl, rest, rfl⟩ := List.cons_prefix_cons.mp hprefix
      obtain rfl : calls = calls' := Option.some.inj (hc.symm.trans hc')
      have hcut := (Cut.exists_append_iff (Exchange.prefixFree v)
        (.batch hm' hc' hne' hi hr)).mp h
      refine ⟨ids, hi, ?_, ?_⟩
      · rw [← hr.length, List.take_left]
        exact hr
      · rw [← hr.length, List.drop_left]
        exact hcut
  · rintro ⟨ids, hi, hr, hcut⟩
    have hsplit : m :: rest = (m :: rest.take ids.length) ++ rest.drop ids.length := by simp
    rw [hsplit]
    exact (Cut.exists_append_iff (Exchange.prefixFree v) (.batch hm hc hne hi hr)).mpr hcut

end Left

/-! ## One history in two forms -/

/-- `f` shows `w` the same of a message as `v` sees. -/
structure View.Agrees {α β : Type} (v : View α) (w : View β) (f : α → β) : Prop where
  isResult : ∀ m, w.isResult (f m) ↔ v.isResult m
  answers : ∀ m, w.answers (f m) = v.answers m
  calls : ∀ m, w.calls (f m) = v.calls m

section Agrees

variable {α β : Type} {v : View α} {w : View β} {f : α → β}

theorem View.Agrees.resolves_iff (h : v.Agrees w f) {ids : List String} {results : List α} :
    Resolves w ids (results.map f) ↔ Resolves v ids results := by
  have hanswers : (results.map f).map w.answers = results.map v.answers := by
    rw [List.map_map]
    exact List.map_congr_left fun m _ => h.answers m
  constructor
  · rintro ⟨heach, hperm⟩
    exact ⟨fun r hr => (h.isResult r).mp (heach _ (List.mem_map_of_mem hr)), hanswers ▸ hperm⟩
  · rintro ⟨heach, hperm⟩
    refine ⟨fun r' hr' => ?_, hanswers.symm ▸ hperm⟩
    obtain ⟨r, hr, rfl⟩ := List.mem_map.mp hr'
    exact (h.isResult r).mpr (heach r hr)

/-- An exchange is one in either form. -/
theorem Exchange.map_iff (h : v.Agrees w f) {g : List α} :
    Exchange w (g.map f) ↔ Exchange v g := by
  constructor
  · intro hg
    cases g with
    | nil => cases hg
    | cons m results =>
      rw [List.map_cons] at hg
      generalize hrest : results.map f = rest at hg
      cases hg with
      | single hr hc =>
        rw [List.map_eq_nil_iff.mp hrest]
        exact .single ((h.isResult m).not.mp hr) (h.calls m ▸ hc)
      | batch hm hc hne hi hr =>
        rw [← hrest] at hr
        exact .batch ((h.isResult m).not.mp hm) (h.calls m ▸ hc) hne hi (h.resolves_iff.mp hr)
  · intro hg
    cases hg with
    | single hr hc => exact .single ((h.isResult _).not.mpr hr) ((h.calls _).trans hc)
    | batch hm hc hne hi hr =>
      exact .batch ((h.isResult _).not.mpr hm) ((h.calls _).trans hc) hne hi (h.resolves_iff.mpr hr)

/-- So a history is made of exchanges in either form. -/
theorem exists_cut_map_iff (h : v.Agrees w f) {l : List α} :
    (∃ gs, Cut (Exchange w) gs (l.map f)) ↔ ∃ gs, Cut (Exchange v) gs l := by
  constructor
  · rintro ⟨images, himages⟩
    obtain ⟨gs, hgs, -⟩ := himages.of_map fun _ => (Exchange.map_iff h).mp
    exact ⟨gs, hgs⟩
  · rintro ⟨gs, hgs⟩
    exact ⟨_, hgs.map fun _ => (Exchange.map_iff h).mpr⟩

end Agrees

theorem historyView_agrees : historyView.Agrees bodyView Message.toMessageBody :=
  ⟨fun _ => Iff.rfl, fun _ => rfl, fun _ => rfl⟩

/-! ## The form on the wire -/

theorem setting_role (m : MessageBody) : Engine.setting (wireMessage m) "role" = some m.role := rfl

theorem get_toolCallId (m : MessageBody) :
    Engine.setting (wireMessage m) "tool_call_id" = m.toolCallId := by
  unfold Engine.setting wireMessage
  cases m.content <;> cases m.name <;> cases m.toolCallId <;>
    cases (m.toolCalls.filter fun v => !v.isNull && !v.asArray.any List.isEmpty) <;> rfl

theorem get_toolCalls (m : MessageBody) : (wireMessage m).get "tool_calls" =
    m.toolCalls.filter fun v => !v.isNull && !v.asArray.any List.isEmpty := by
  unfold wireMessage
  cases m.content <;> cases m.name <;> cases m.toolCallId <;>
    cases (m.toolCalls.filter fun v => !v.isNull && !v.asArray.any List.isEmpty) <;> rfl

/-- A message opens a batch on the wire exactly if it does in the history. -/
theorem wireCalls_wireMessage (m : MessageBody) :
    Engine.wireCalls (wireMessage m) = batchCalls m := by
  unfold Engine.wireCalls batchCalls
  rw [setting_role, get_toolCalls]
  by_cases hr : m.role = "assistant"
  · rw [if_pos (by rw [hr])]
    simp only [hr, decide_true, Bool.true_and]
    cases m.toolCalls with
    | none => rfl
    | some v =>
      cases v with
      | arr items => cases items <;> rfl
      | _ => rfl
  · rw [if_neg (by simpa using hr)]
    simp [hr]

theorem bodyView_agrees : bodyView.Agrees wireView wireMessage := by
  refine ⟨fun m => ?_, get_toolCallId, wireCalls_wireMessage⟩
  show Engine.setting (wireMessage m) "role" = some "tool" ↔ _
  rw [setting_role, Option.some.injEq]
  exact Iff.rfl

end StateDrivenAgent
