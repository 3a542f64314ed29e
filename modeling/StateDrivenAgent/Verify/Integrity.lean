import StateDrivenAgent.Verify.Grouping
import StateDrivenAgent.Verify.Journal
import StateDrivenAgent.Verify.Posting

/-!
# The integrity of the history

Between a batch and the last of its results the history is not made of whole interactions: the calls
that are still owed are in `pending_tool_calls`, and they are the rest of the last batch of the
history (`Correlated`). Every move of the agent keeps this, wherever a run is cut off and whatever is
requested next, but one: what the user says while calls are owed comes between a batch and its
results, and no later run can read the history. So the history of a session stays readable as long
as nothing is said then (`history_correlated`).
-/

namespace StateDrivenAgent

open Interaction

/-! ## Calls in the store -/

/-- A pending call that was stored and read back `n` times. -/
def Call.reread (host : Host) (n : Nat) (call : Call) : Value := (Storage.jsonb host)^[n] call.toValue

theorem Storage.get_jsonb (host : Host) (v : Value) (k : String) :
    (jsonb host v).get k = (v.get k).map (jsonb host) := by
  cases v with
  | obj fields => exact lookup_jsonbFields host k fields
  | _ => rfl

theorem Storage.asStr_jsonb (host : Host) (v : Value) : (jsonb host v).asStr = v.asStr := by
  cases v <;> rfl

/-- The store keeps texts. -/
theorem Engine.setting_jsonb (host : Host) (v : Value) (k : String) :
    setting (Storage.jsonb host v) k = setting v k := by
  unfold setting
  rw [Storage.get_jsonb]
  cases v.get k with
  | none => rfl
  | some x => exact Storage.asStr_jsonb host x

theorem Engine.setting_reread (host : Host) (n : Nat) (call : Call) (k : String) :
    setting (call.reread host n) k = setting call.toValue k := by
  induction n with
  | zero => rfl
  | succ n ih =>
    unfold Call.reread
    rw [Function.iterate_succ_apply', setting_jsonb]
    exact ih

theorem Engine.readScheduled_reread (host : Host) (n : Nat) (call : Call) :
    (Engine.readScheduled (call.reread host n)).id = call.id ∧
      (Engine.readScheduled (call.reread host n)).name = call.name := by
  unfold Engine.readScheduled
  rw [setting_reread, setting_reread]
  exact ⟨rfl, rfl⟩

/-! ## Messages in the store -/

def MessageBody.reloaded (host : Host) (m : MessageBody) : MessageBody :=
  { m with toolCalls := m.toolCalls.map (Storage.jsonb host) }

theorem Message.reloaded_body (host : Host) (m : Message) :
    (m.reloaded host).toMessageBody = m.toMessageBody.reloaded host := rfl

theorem Storage.jsonbItems_eq (host : Host) (items : List Value) :
    jsonbItems host items = items.map (jsonb host) := by
  induction items with
  | nil => rfl
  | cons v items ih => rw [jsonbItems, List.map_cons, ih]

/-- The calls of a batch are texts. -/
theorem batchMessage_reloaded (host : Host) (content : Option String) (calls : List Call) :
    (batchMessage content calls).reloaded host = batchMessage content calls := by
  have hwire : ∀ call, Storage.jsonb host (wireCall call) = wireCall call := fun _ => rfl
  have hbatch : Storage.jsonb host (wireBatch calls) = wireBatch calls := by
    rw [wireBatch_eq, Storage.jsonb, Storage.jsonbItems_eq, List.map_map]
    exact congrArg Value.arr (List.map_congr_left fun call _ => hwire call)
  unfold MessageBody.reloaded batchMessage
  rw [Option.map_some, hbatch]

theorem batchCalls_reloaded {host : Host} {m : MessageBody} (h : Context.batchCalls m = none) :
    Context.batchCalls (m.reloaded host) = none := by
  unfold Context.batchCalls MessageBody.reloaded at *
  cases hcalls : m.toolCalls with
  | none => rfl
  | some v =>
    rw [hcalls] at h
    cases v with
    | arr items =>
      rw [Option.map_some, Storage.jsonb, Storage.jsonbItems_eq]
      simp only [Option.bind_some, Value.asArray, Option.filter_eq_none_iff] at h ⊢
      rintro _ ⟨⟩
      simpa using h items rfl
    | _ => rfl

theorem Group.reloaded {host : Host} {g : List MessageBody} (h : Group g) :
    Group (g.map (MessageBody.reloaded host)) := by
  cases h with
  | single hr hb => exact .single hr (batchCalls_reloaded hb)
  | batch hne hd ha =>
    rw [List.map_cons, batchMessage_reloaded]
    refine .batch hne hd ?_
    exact List.forall₂_map_right_iff.2 (ha.imp fun _ _ h => h)

theorem Grouped.reloaded {host : Host} {ms : List MessageBody} (h : Grouped ms) :
    Grouped (ms.map (MessageBody.reloaded host)) := by
  obtain ⟨groups, rfl, hgroups⟩ := h
  refine ⟨groups.map (List.map (MessageBody.reloaded host)), List.map_flatten, fun g hg => ?_⟩
  obtain ⟨g', hg', rfl⟩ := List.mem_map.1 hg
  exact (hgroups g' hg').reloaded

/-! ## What is owed -/

/-- The history ends with a batch whose first calls have their results, in order, and the rest of
which is pending. -/
inductive Unfinished (host : Host) : List MessageBody → List Value → Prop
  | intro {before results : List MessageBody} {content : Option String} {done rest : List Call}
      (n : Nat) (hb : Grouped before) (hd : Distinct (done ++ rest)) (ha : Answers done results) :
      Unfinished host (before ++ batchMessage content (done ++ rest) :: results)
        (rest.map (Call.reread host n))

/-- A batch without results. -/
theorem Unfinished.of_none {host : Host} {before : List MessageBody} {content : Option String}
    {calls : List Call} (n : Nat) (hb : Grouped before) (hd : Distinct calls) :
    Unfinished host (before ++ [batchMessage content calls]) (calls.map (Call.reread host n)) := by
  have hd : Distinct ([] ++ calls) := hd
  exact .intro n hb hd .nil

/-- The history after the goal is made of whole interactions, up to the batch that is pending. -/
structure Correlated (host : Host) (c : Core) : Prop where
  goal : c.memory ≠ []
  idle : c.pendingToolCalls = [] → Grouped (c.memory.drop 1)
  owed : c.pendingToolCalls ≠ [] → Unfinished host (c.memory.drop 1) c.pendingToolCalls

theorem drop_append_one {α : Type} {l : List α} (h : l ≠ []) (l' : List α) :
    (l ++ l').drop 1 = l.drop 1 ++ l' := by
  cases l with
  | nil => exact absurd rfl h
  | cons a l => rfl

namespace Correlated

variable {host : Host} {c : Core}

theorem of_same {c' : Core} (h : Correlated host c) (hm : c'.memory = c.memory)
    (hp : c'.pendingToolCalls = c.pendingToolCalls) : Correlated host c' := by
  refine ⟨hm ▸ h.goal, ?_, ?_⟩
  · rw [hm, hp]
    exact h.idle
  · rw [hm, hp]
    exact h.owed

/-- What is said between two interactions. -/
theorem say (h : Correlated host c) {role : String} (text : String) (hr : role ≠ "tool")
    (hp : c.pendingToolCalls = []) : Correlated host (c.append (msg role text)) where
  goal := List.append_ne_nil_of_left_ne_nil h.goal _
  idle _ := by
    show Grouped ((c.memory ++ [msg role text]).drop 1)
    rw [drop_append_one h.goal]
    exact (h.idle hp).append (.msg text hr)
  owed hne := absurd hp hne

/-- A batch owes all its calls. -/
theorem schedule (h : Correlated host c) (content : Option String) {calls : List Call}
    (hp : c.pendingToolCalls = []) (hne : calls ≠ []) (hd : Distinct calls) :
    Correlated host (c.schedule content calls) where
  goal := List.append_ne_nil_of_left_ne_nil h.goal _
  idle hnil := absurd (List.map_eq_nil_iff.1 hnil) hne
  owed _ := by
    show Unfinished host ((c.memory ++ [batchMessage content calls]).drop 1) (calls.map Call.toValue)
    rw [drop_append_one h.goal]
    exact Unfinished.of_none 0 (h.idle hp) hd

/-- The answer of the first pending call. -/
theorem settle (h : Correlated host c) {call : Value} {rest : List Value} (output : String)
    (hp : c.pendingToolCalls = call :: rest) : Correlated host (c.settle call rest output) := by
  have howed := h.owed (by rw [hp]; exact List.cons_ne_nil _ _)
  rw [hp] at howed
  generalize hhistory : c.memory.drop 1 = history at howed
  generalize hpending : call :: rest = pending at howed
  have hmemory : (c.memory ++ [Core.answerOf call output]).drop 1 =
      history ++ [Core.answerOf call output] := by rw [drop_append_one h.goal, hhistory]
  cases howed with
  | @intro before results content done left n hb hd ha =>
    cases left with
    | nil => cases hpending
    | cons first left =>
      obtain ⟨rfl, rfl⟩ := List.cons.inj hpending
      obtain ⟨hid, -⟩ := Engine.readScheduled_reread host n first
      have hanswers : Answers (done ++ [first])
          (results ++ [Core.answerOf (first.reread host n) output]) :=
        List.rel_append ha (.cons ⟨rfl, congrArg some hid⟩ .nil)
      have hcalls : done ++ first :: left = (done ++ [first]) ++ left := by
        rw [List.append_assoc, List.singleton_append]
      rw [hcalls, List.append_assoc, List.cons_append] at hmemory
      rw [hcalls] at hd
      refine ⟨List.append_ne_nil_of_left_ne_nil h.goal _, fun hnil => ?_, fun _ => ?_⟩
      · -- the batch is complete
        have hleft : left = [] := List.map_eq_nil_iff.1 hnil
        subst hleft
        show Grouped ((c.memory ++ [_]).drop 1)
        rw [hmemory, List.append_nil]
        rw [List.append_nil] at hd
        exact hb.append (.batch (by simp) hd hanswers)
      · show Unfinished host ((c.memory ++ [_]).drop 1) _
        rw [hmemory]
        exact .intro n hb hd hanswers

theorem compact (h : Correlated host c) {retained : List MessageBody} (summary : String)
    (hp : c.pendingToolCalls = []) (hr : Grouped (c.memory.drop 1) → Grouped retained) :
    Correlated host { c with
      memory := c.memory.take 1 ++ retained, compactedContext := some summary } := by
  obtain ⟨goal, rest, hmemory⟩ := List.exists_cons_of_ne_nil h.goal
  have htake : c.memory.take 1 = [goal] := by rw [hmemory, List.take_succ_cons, List.take_zero]
  refine ⟨?_, fun _ => ?_, fun hne => absurd hp hne⟩
  · show c.memory.take 1 ++ retained ≠ []
    rw [htake]
    exact List.cons_ne_nil _ _
  · show Grouped ((c.memory.take 1 ++ retained).drop 1)
    rw [htake]
    exact hr (h.idle hp)

theorem move {e : Engine} {p : Permits} {c' : Core} (h : Correlated host c)
    (hcontent : ∀ c, p.content c → c.pendingToolCalls = []) (hm : Move e p c c') :
    Correlated host c' := by
  cases hm with
  | say text hr hp => exact h.say text hr hp
  | content text hc => exact h.say text (by decide) (hcontent c hc)
  | schedule content hp _ hne hd _ => exact h.schedule content hp hne hd
  | settle output hp => exact h.settle output hp
  | compact summary hp _ hr => exact h.compact summary hp hr
  | _ => exact h.of_same rfl rfl

/-- The way into the store and back. -/
theorem reloaded {x : Session} (h : Correlated host x.core) : Correlated host (x.reloaded host).core := by
  have hmemory : (x.reloaded host).core.memory = x.core.memory.map (MessageBody.reloaded host) := by
    show (x.memory.map (Message.reloaded host)).map Message.toMessageBody =
      (x.memory.map Message.toMessageBody).map (MessageBody.reloaded host)
    rw [List.map_map, List.map_map]
    exact List.map_congr_left fun m _ => Message.reloaded_body host m
  have hpending : (x.reloaded host).core.pendingToolCalls =
      x.core.pendingToolCalls.map (Storage.jsonb host) := rfl
  refine ⟨?_, fun hnil => ?_, fun hne => ?_⟩
  · rw [hmemory]
    exact fun hnil => h.goal (List.map_eq_nil_iff.1 hnil)
  · rw [hmemory, ← List.map_drop]
    exact (h.idle (List.map_eq_nil_iff.1 hnil)).reloaded
  · have howed := h.owed fun hnil => hne (by rw [hpending, hnil]; rfl)
    rw [hmemory, hpending, ← List.map_drop]
    generalize x.core.memory.drop 1 = history at howed
    generalize x.core.pendingToolCalls = pending at howed
    cases howed with
    | @intro before results content done rest n hb hd ha =>
      rw [List.map_append, List.map_cons, batchMessage_reloaded, List.map_map]
      have hreread : Storage.jsonb host ∘ Call.reread host n = Call.reread host (n + 1) := by
        funext call
        exact (Function.iterate_succ_apply' _ _ _).symm
      rw [hreread]
      exact .intro (n + 1) hb.reloaded hd (List.forall₂_map_right_iff.2 (ha.imp fun _ _ h => h))

end Correlated

/-! ## What breaks the history -/

open Segments Context in
theorem Grouped.exists_cut_append {ms l : List MessageBody} (h : Grouped ms) :
    (∃ gs, Cut (Exchange bodyView) gs (ms ++ l)) ↔ ∃ gs, Cut (Exchange bodyView) gs l := by
  obtain ⟨groups, rfl, hgroups⟩ := h
  induction groups with
  | nil => rfl
  | cons g groups ih =>
    rw [List.flatten_cons, List.append_assoc,
      Cut.exists_append_iff (Exchange.prefixFree bodyView) (hgroups g List.mem_cons_self).exchange]
    exact ih fun g' hg' => hgroups g' (List.mem_cons_of_mem g hg')

open Segments Context in
/-- A message between a batch and its results is never mended by what follows. -/
theorem Unfinished.not_cut {host : Host} {history : List MessageBody} {pending : List Value}
    (h : Unfinished host history pending) (hne : pending ≠ []) {m : MessageBody}
    (hm : m.role ≠ "tool") (tail : List MessageBody) :
    ¬∃ gs, Cut (Exchange bodyView) gs (history ++ m :: tail) := by
  cases h with
  | @intro before results content done rest n hb hd ha =>
    have hrest : rest ≠ [] := fun hnil => hne (by rw [hnil]; rfl)
    have hcalls : done ++ rest ≠ [] := List.append_ne_nil_of_right_ne_nil _ hrest
    rw [List.append_assoc, hb.exists_cut_append, List.cons_append,
      exists_cut_batch (show ¬"assistant" = "tool" by decide) (batchCalls_batchMessage hcalls)
        (by simpa using hcalls)]
    rintro ⟨ids, hids, hresolves, -⟩
    -- the batch has more calls than results, so the message stands for one of them
    have hlength : ids.length = done.length + rest.length := by
      rw [← hids.length, List.length_map, List.length_append]
    have hpos := List.length_pos_iff.2 hrest
    have hresults : results.length = done.length := ha.length_eq.symm
    have htake : m ∈ (results ++ m :: tail).take ids.length := by
      rw [List.take_append, List.mem_append]
      refine .inr ?_
      rw [show ids.length - results.length = (rest.length - 1) + 1 by omega, List.take_succ_cons]
      exact List.mem_cons_self
    exact hm (hresolves.each m htake)

/-! ## Histories of requests -/

/-- Nothing is said while calls are owed. -/
def Server.SaysIdle (g : Ghost) (request : Server.Request) : Prop :=
  request.said.isSome = true → ∀ x, g.stored = some x → x.pendingToolCalls = []

def correlated (env : Deployment) {config : Config} (h : ∀ tool ∈ config.tools, tool.name ≠ "") :
    Lasting env config where
  Inv _ c := Correlated env.toHost c
  Event := Harmless
  content c := c.pendingToolCalls = []
  supported := h
  mono h := h
  move h hm := h.move (fun _ hc => hc) hm
  start h := h.of_same rfl rfl
  created := ⟨List.cons_ne_nil _ _, fun _ => .nil, fun hne => absurd rfl hne⟩
  reloaded h := h.reloaded
  harmless h := h
  grouped h hp := .inl (h.idle hp)
  said ht hc := (congrArg Task.pendingToolCalls ht).trans hc

theorem correlated_permits {env : Deployment} {config : Config}
    (h : ∀ tool ∈ config.tools, tool.name ≠ "") {g : Ghost} {request : Server.Request}
    (hidle : Server.SaysIdle g request) : (correlated env h).Permits g request :=
  fun hsaid x hx => List.map_eq_nil_iff.2 (hidle hsaid x hx)

/-- As long as nothing is said while calls are owed, the history of a session is made of whole
interactions up to the batch that is pending, in every stored session and in every commit of every
request, and no commit reports a broken history. What is said while calls are owed makes the history
unreadable for good. -/
theorem history_correlated (env : Deployment) (config : Config)
    (htools : ∀ tool ∈ config.tools, Commands.isSupported tool.name = true) :
    (∀ g, Server.History env config Server.SaysIdle g → ∀ x, g.stored = some x →
      Correlated env.toHost x.core ∧ (x.pendingToolCalls = [] →
        ∃ found, Context.interactionGroups env.toHost (x.memory.drop 1) = .ok found)) ∧
    (∀ g es, Server.Performs env config Server.SaysIdle g es → ∀ s value event r,
      ⟨.transact s value event, r⟩ ∈ es → Correlated env.toHost s.core ∧ Harmless event) ∧
    ∀ (c : Core) (text : String) (ms : List Message) (tail : List MessageBody),
      Correlated env.toHost c → c.pendingToolCalls ≠ [] →
      ms.map Message.toMessageBody = (c.append (msg "user" text)).memory.drop 1 ++ tail →
        ¬∃ found, Context.interactionGroups env.toHost ms = .ok found := by
  have hnames : ∀ tool ∈ config.tools, tool.name ≠ "" :=
    fun tool ht => Commands.name_of_supported (htools tool ht)
  refine ⟨fun g hg x hx => ?_, fun g es hes s value event r hr => ?_, ?_⟩
  · have hhistory : Server.History env config (correlated env hnames).Permits g :=
      hg.mono fun g p ⟨request, hp, hidle, hnew⟩ =>
        ⟨request, hp, correlated_permits hnames hidle, hnew⟩
    obtain ⟨hinv, -⟩ := (correlated env hnames).stored_of_history hhistory x hx
    have hinv : Correlated env.toHost x.core := hinv
    refine ⟨hinv, fun hpending => ?_⟩
    have hgrouped : Grouped ((x.memory.drop 1).map Message.toMessageBody) := by
      rw [List.map_drop]
      exact hinv.idle hpending
    obtain ⟨found, hfound, -⟩ := interactionGroups_of_grouped env.toHost hgrouped
    exact ⟨found, hfound⟩
  · have hkept := (correlated env hnames).kept
      (hes.mono fun g request hidle => correlated_permits hnames hidle)
    obtain ⟨g', hinv, -, hevent⟩ := hkept.mem hr
    exact ⟨hinv, hevent⟩
  · intro c text ms tail hc hne hms hfound
    have hcut := interactionGroups_ok_iff.1 hfound
    rw [← exists_cut_map_iff historyView_agrees, hms] at hcut
    have happend : (c.append (msg "user" text)).memory.drop 1 =
        c.memory.drop 1 ++ [msg "user" text] := drop_append_one hc.goal _
    rw [happend, List.append_assoc] at hcut
    exact (hc.owed hne).not_cut hne (m := msg "user" text)
      (show "user" ≠ "tool" by decide) tail hcut

section Sample

/-- A call without arguments. -/
def plainCall (id : String) : Call := ⟨id, "inspect_log", "\x7b\x7d", [], none⟩

/-- A new session that owes one call. -/
def owingCore : Core :=
  (Server.newSession Engine.smallLimits.config none "session" "goal" "ref" "sha" "sha").core.schedule
    none [plainCall "call"]

/-- The history of that session, and what the user says then. -/
def saidWhileOwing : List Message :=
  [{ toMessageBody := batchMessage none [plainCall "call"] },
    { toMessageBody := msg "user" "Are you done?" }]

/-- The event is a commit. -/
def isCommit (x : Event Eff Reply) : Bool :=
  match x.1 with
  | .transact .. => true
  | _ => false

theorem owingCore_correlated : Correlated exactHost owingCore := by
  have hnew : Correlated exactHost (Server.newSession Engine.smallLimits.config none "session" "goal"
      "ref" "sha" "sha").core := ⟨List.cons_ne_nil _ _, fun _ => .nil, fun hne => absurd rfl hne⟩
  exact hnew.schedule none rfl (List.cons_ne_nil _ _) ⟨by simp, by simp [plainCall]⟩

theorem history_correlated_small :
    (∃ (g : Ghost) (x : Session), g.stored = some x ∧ Correlated exactHost x.core) ∧
      (∃ (g : Ghost) (es : List (Event Eff Reply)),
        Server.Performs (plainAgent exactHost Engine.smallLimits.config)
          Engine.smallLimits.config Server.SaysIdle g es ∧ ∃ s value event r,
          ⟨.transact s value event, r⟩ ∈ es ∧ Correlated exactHost s.core ∧ Harmless event) ∧
      ¬∃ found, Context.interactionGroups exactHost saidWhileOwing = .ok found := by
  have h := history_correlated (plainAgent exactHost Engine.smallLimits.config)
    Engine.smallLimits.config (by simp [Engine.smallLimits, Engine.limitsConfig])
  have hstart : Server.History (plainAgent exactHost Engine.smallLimits.config)
    Engine.smallLimits.config Server.SaysIdle {} := .start
  have hcreate := Server.History.performs .null (fun _ => false) (fun _ => .timeout 1) 100 rfl hstart
    (.create .null "goal" .null "sha") (fun hsaid => absurd hsaid Bool.false_ne_true) fun _ => rfl
  have hstored : (Server.afterPlayed (plainAgent exactHost Engine.smallLimits.config)
      Engine.smallLimits.config .null (fun _ => false) (fun _ => .timeout 1) 100 {}
      (.create .null "goal" .null "sha")).stored.isSome = true := by decide +kernel
  obtain ⟨x, hx⟩ := Option.isSome_iff_exists.1 hstored
  have hcommit : (Server.played (plainAgent exactHost Engine.smallLimits.config)
      Engine.smallLimits.config .null (fun _ => false) (fun _ => .timeout 1) 100 {}
      (.create .null "goal" .null "sha")).any isCommit = true := by
    decide +kernel
  obtain ⟨⟨y, r⟩, hy, hmatch⟩ := List.any_eq_true.1 hcommit
  refine ⟨⟨_, x, hx, (h.1 _ hcreate.history_after x hx).1⟩, ⟨_, _, hcreate, ?_⟩,
    h.2.2 owingCore "Are you done?" saidWhileOwing [] owingCore_correlated
      (List.cons_ne_nil _ _) rfl⟩
  cases y with
  | transact s value event => exact ⟨s, value, event, r, hy, h.2.1 _ _ hcreate s value event r hy⟩
  | _ => cases hmatch

end Sample

end StateDrivenAgent
