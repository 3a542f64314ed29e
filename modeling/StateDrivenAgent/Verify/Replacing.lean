import StateDrivenAgent.Interaction.History
import StateDrivenAgent.Spec.Compaction
import StateDrivenAgent.Verify.Compacting
import StateDrivenAgent.Verify.Store

/-!
# A compaction replaces old interactions and nothing else

Every step of a compaction but the acceptance of a summary leaves the task and the memory as they
are. `Progress` is what holds between the steps of a pass: the attempts so far, with their
exchanges, account for every request to the model and for every replacement.
-/

namespace StateDrivenAgent

open Interaction Context

/-! ## Suffixes of a history -/

section suffix
variable {host : Host}

/-- The place in the history only shows in the error texts. -/
theorem callIds_index {index index' : Nat} {seen : List String} {calls : List Value}
    {ids : List String} (h : callIds index seen calls = .ok ids) :
    callIds index' seen calls = .ok ids := by
  induction calls generalizing seen ids with
  | nil => exact h
  | cons call calls ih =>
    rw [callIds] at h ⊢
    cases hid : (callId call).filter (· ≠ "") with
    | none =>
      rw [hid] at h
      cases h
    | some id =>
      rw [hid] at h
      dsimp only at h ⊢
      split at h
      · cases h
      next hnew =>
        rw [if_neg hnew]
        obtain ⟨ids', hids, heq⟩ := bind_ok h
        rw [ih hids]
        exact heq

theorem resultIds_index {index index' : Nat} {seen : List String} {results : List Message}
    {ids : List String} (h : resultIds host index seen results = .ok ids) :
    resultIds host index' seen results = .ok ids := by
  induction results generalizing seen with
  | nil => exact h
  | cons result results ih =>
    rw [resultIds] at h ⊢
    split at h
    · cases h
    next hrole =>
      rw [if_neg hrole]
      cases hid : result.toolCallId.filter (· ≠ "") with
      | none =>
        rw [hid] at h
        cases h
      | some id =>
        rw [hid] at h
        dsimp only at h ⊢
        split at h
        · cases h
        next hnew =>
          rw [if_neg hnew]
          exact ih h

theorem firstGroup_index {index index' : Nat} {m : Message} {rest : List Message} {n : Nat}
    (h : firstGroup host index m rest = .ok n) : firstGroup host index' m rest = .ok n := by
  rw [firstGroup] at h ⊢
  split at h
  · cases h
  next hrole =>
    rw [if_neg hrole]
    cases hcalls : batchCalls m.toMessageBody with
    | none =>
      rw [hcalls] at h
      exact h
    | some calls =>
      rw [hcalls] at h
      dsimp only at h ⊢
      obtain ⟨ids, hids, h⟩ := bind_ok h
      rw [callIds_index hids]
      show (if _ then _ else _) = _
      split at h
      · cases h
      next hlen =>
        rw [if_neg hlen]
        obtain ⟨results, hresults, h⟩ := bind_ok h
        rw [resultIds_index hresults]
        show (if _ then _ else _) = _
        split at h
        · cases h
        next hmatch =>
          rw [if_neg hmatch]
          exact h

theorem firstGroup_pos {index : Nat} {m : Message} {rest : List Message} {n : Nat}
    (h : firstGroup host index m rest = .ok n) : 0 < n := by
  rw [firstGroup] at h
  split at h
  · cases h
  · cases hcalls : batchCalls m.toMessageBody with
    | none =>
      rw [hcalls] at h
      rw [← Except.ok.inj h]
      exact Nat.one_pos
    | some calls =>
      rw [hcalls] at h
      obtain ⟨ids, -, h⟩ := bind_ok h
      split at h
      · cases h
      · obtain ⟨results, -, h⟩ := bind_ok h
        split at h
        · cases h
        · rw [← Except.ok.inj h]
          omega

/-- The first group and the groups after it. -/
theorem groupsFrom_cons {fuel index : Nat} {m : Message} {rest : List Message}
    {groups : List HistoryGroup} (h : groupsFrom host (fuel + 1) index (m :: rest) = .ok groups) :
    ∃ n groups', firstGroup host index m rest = .ok n ∧ 0 < n ∧
      groupsFrom host fuel (index + n) ((m :: rest).drop n) = .ok groups' ∧
      groups = ⟨(m :: rest).take n, List.range' index n⟩ :: groups' := by
  rw [groupsFrom] at h
  obtain ⟨n, hn, h⟩ := bind_ok h
  obtain ⟨groups', hgroups', h⟩ := bind_ok h
  exact ⟨n, groups', hn, firstGroup_pos hn, hgroups', (Except.ok.inj h).symm⟩

theorem drop_le {fuel n : Nat} {m : Message} {rest : List Message} (hn : 0 < n)
    (hf : (m :: rest).length ≤ fuel + 1) : ((m :: rest).drop n).length ≤ fuel := by
  rw [List.length_drop]
  omega

/-- The same groups are found wherever the history stands. -/
theorem groupsFrom_index {fuel fuel' index index' : Nat} {ms : List Message}
    {groups : List HistoryGroup} (hf : ms.length ≤ fuel) (hf' : ms.length ≤ fuel')
    (h : groupsFrom host fuel index ms = .ok groups) :
    ∃ groups', groupsFrom host fuel' index' ms = .ok groups' ∧
      groups'.map HistoryGroup.messages = groups.map HistoryGroup.messages := by
  induction fuel generalizing fuel' index index' ms groups with
  | zero =>
    obtain rfl : ms = [] := List.length_eq_zero_iff.1 (Nat.le_zero.1 hf)
    refine ⟨[], ?_, ?_⟩
    · cases fuel' <;> rfl
    · rw [← Except.ok.inj h]
  | succ fuel ih =>
    cases ms with
    | nil =>
      refine ⟨[], ?_, ?_⟩
      · cases fuel' <;> rfl
      · rw [← Except.ok.inj h]
    | cons m rest =>
      obtain ⟨n, groups', hn, hpos, hrest, rfl⟩ := groupsFrom_cons h
      cases fuel' with
      | zero => simp at hf'
      | succ fuel' =>
        obtain ⟨found, hfound, hmessages⟩ : ∃ found,
            groupsFrom host fuel' (index' + n) ((m :: rest).drop n) = .ok found ∧ _ :=
          ih (drop_le hpos hf) (drop_le hpos hf') hrest
        refine ⟨⟨(m :: rest).take n, List.range' index' n⟩ :: found, ?_, ?_⟩
        · rw [groupsFrom, firstGroup_index hn]
          show (groupsFrom host fuel' (index' + n) ((m :: rest).drop n) >>= _) = _
          rw [hfound]
          rfl
        · rw [List.map_cons, List.map_cons, hmessages]

/-- The groups make up the history. -/
theorem flatten_groupsFrom {fuel index : Nat} {ms : List Message} {groups : List HistoryGroup}
    (hf : ms.length ≤ fuel) (h : groupsFrom host fuel index ms = .ok groups) :
    flatten groups = ms := by
  induction fuel generalizing index ms groups with
  | zero =>
    obtain rfl : ms = [] := List.length_eq_zero_iff.1 (Nat.le_zero.1 hf)
    rw [← Except.ok.inj h]
    rfl
  | succ fuel ih =>
    cases ms with
    | nil =>
      rw [← Except.ok.inj h]
      rfl
    | cons m rest =>
      obtain ⟨n, groups', hn, hpos, hrest, rfl⟩ := groupsFrom_cons h
      have hih := ih (drop_le hpos hf) hrest
      rw [flatten] at hih ⊢
      rw [List.flatMap_cons, hih]
      exact List.take_append_drop n (m :: rest)

/-- The groups of what is left after the first groups. -/
theorem groupsFrom_tail {fuel index : Nat} {ms : List Message} {old tail : List HistoryGroup}
    (hf : ms.length ≤ fuel) (h : groupsFrom host fuel index ms = .ok (old ++ tail)) :
    ∃ fuel' index', (flatten tail).length ≤ fuel' ∧
      groupsFrom host fuel' index' (flatten tail) = .ok tail := by
  induction old generalizing fuel index ms with
  | nil =>
    rw [List.nil_append] at h
    rw [flatten_groupsFrom hf h]
    exact ⟨fuel, index, hf, h⟩
  | cons g old ih =>
    cases fuel with
    | zero => cases ms <;> cases h
    | succ fuel =>
      cases ms with
      | nil => cases h
      | cons m rest =>
        obtain ⟨n, groups', hn, hpos, hrest, heq⟩ := groupsFrom_cons h
        rw [List.cons_append] at heq
        rw [← (List.cons.inj heq).2] at hrest
        exact ih (drop_le hpos hf) hrest

theorem interactionGroups_tail {ms : List Message} {old tail : List HistoryGroup}
    (h : interactionGroups host ms = .ok (old ++ tail)) :
    ∃ groups, interactionGroups host (flatten tail) = .ok groups ∧
      groups.map HistoryGroup.messages = tail.map HistoryGroup.messages := by
  obtain ⟨fuel, index, hf, htail⟩ := groupsFrom_tail (Nat.le_refl _) h
  exact groupsFrom_index hf (Nat.le_refl _) htail

theorem flatten_eq (groups : List HistoryGroup) :
    flatten groups = (groups.map HistoryGroup.messages).flatten := by
  rw [flatten, List.flatMap_def]

theorem flatten_append (old tail : List HistoryGroup) :
    flatten (old ++ tail) = flatten old ++ flatten tail := by
  rw [flatten, List.flatMap_append]
  rfl

/-- The groups a split keeps hold as many messages as asked for. -/
theorem boundary_back (minimum : Nat) (groups : List HistoryGroup) (b : Nat)
    (hb : b ≤ groups.length) :
    boundary.back minimum groups b (flatten (groups.drop b)).length = 0 ∨
      minimum ≤ (flatten (groups.drop
        (boundary.back minimum groups b (flatten (groups.drop b)).length))).length := by
  induction b with
  | zero => exact .inl rfl
  | succ b ih =>
    rw [boundary.back]
    split
    · have hdrop : groups.drop b = groups[b] :: groups.drop (b + 1) := List.drop_eq_getElem_cons (by omega)
      have hcount : (flatten (groups.drop (b + 1))).length +
          (groups[b]?.elim 0 fun g => g.messages.length) = (flatten (groups.drop b)).length := by
        rw [hdrop, flatten_eq, flatten_eq, List.map_cons, List.flatten_cons, List.length_append,
          List.getElem?_eq_getElem (by omega)]
        exact Nat.add_comm _ _
      rw [hcount]
      exact ih (by omega)
    next hcount => exact .inr (not_lt.1 hcount)

theorem splitHistory_keeps {ms : List Message} {minimum : Nat} {old tail : List HistoryGroup}
    (h : splitHistory host ms minimum = .ok (old, tail)) :
    interactionGroups host ms = .ok (old ++ tail) ∧ min minimum ms.length ≤ (flatten tail).length := by
  rw [splitHistory] at h
  obtain ⟨groups, hgroups, h⟩ := bind_ok h
  obtain ⟨rfl, rfl⟩ := Prod.mk.inj (Except.ok.inj h)
  refine ⟨by rw [List.take_append_drop]; exact hgroups, ?_⟩
  have hback := boundary_back minimum groups groups.length (Nat.le_refl _)
  rw [List.drop_length] at hback
  rcases hback with hzero | hmin
  · have hboundary : boundary minimum groups = 0 := hzero
    rw [hboundary, List.drop_zero, flatten_groupsFrom (Nat.le_refl _) hgroups]
    exact Nat.min_le_right _ _
  · exact (Nat.min_le_left _ _).trans hmin

end suffix

namespace Engine

variable {e : Engine}

theorem Keeps.self {history : List Message} {groups : List HistoryGroup}
    (h : interactionGroups e.host history = .ok groups) : e.Keeps history history :=
  ⟨[], groups, h, (flatten_groupsFrom (Nat.le_refl _) h).symm, Nat.min_le_right _ _⟩

/-- A suffix of a suffix. -/
theorem Keeps.trans {history kept kept' : List Message} (h : e.Keeps history kept)
    (h' : e.Keeps kept kept') : e.Keeps history kept' := by
  obtain ⟨old, tail, hgroups, rfl, hlen⟩ := h
  obtain ⟨old', tail', hgroups', rfl, hlen'⟩ := h'
  obtain ⟨found, hfound, hmessages⟩ := interactionGroups_tail hgroups
  obtain rfl : old' ++ tail' = found := Except.ok.inj (hgroups'.symm.trans hfound)
  have hdrop := congrArg (List.drop old'.length) hmessages
  have hold : (old'.map HistoryGroup.messages).length = old'.length := List.length_map _
  rw [List.map_append, ← hold, List.drop_left, hold, ← List.map_drop] at hdrop
  refine ⟨old ++ tail.take old'.length, tail.drop old'.length, ?_, ?_, ?_⟩
  · rw [List.append_assoc, List.take_append_drop]
    exact hgroups
  · rw [flatten_eq, flatten_eq, hdrop]
  · omega

/-- The history after some replacements is a suffix of the one before them. -/
theorem Replacements.keeps {s : Session} {n : Nat} {r r' : Remembered}
    (h : e.Replacements s n r r') (hne : r.memory ≠ []) {groups : List HistoryGroup}
    (hgroups : interactionGroups e.host (r.memory.drop 1) = .ok groups) :
    ∃ kept, e.Keeps (r.memory.drop 1) kept ∧ r'.memory = r.memory.take 1 ++ kept := by
  induction h with
  | none => exact ⟨_, .self hgroups, (List.take_append_drop 1 _).symm⟩
  | @more n r r' r'' h hr ih =>
    obtain ⟨kept, hkept, hmemory⟩ := ih hne hgroups
    obtain ⟨kept', hkept', hmemory'⟩ := hr.memory
    obtain ⟨m, rest, hcons⟩ := List.exists_cons_of_ne_nil hne
    have hone : r.memory.take 1 = [m] := by
      rw [hcons]
      rfl
    rw [hone, List.singleton_append] at hmemory
    rw [hmemory] at hkept' hmemory'
    exact ⟨kept', hkept.trans hkept', by rw [hmemory', hone]; rfl⟩

theorem Replacements.trans {s : Session} {n m : Nat} {r r' r'' : Remembered}
    (h : e.Replacements s n r r') (h' : e.Replacements s m r' r'') :
    e.Replacements s (n + m) r r'' := by
  induction h' with
  | none => exact h
  | more _ hr ih => exact .more (ih h) hr

theorem Replacements.eq_of_none {s : Session} {r r' : Remembered} (h : e.Replacements s 0 r r') :
    r' = r := by
  cases h
  rfl

end Engine

/-! ## Steps that change nothing a compaction may change -/

/-- The task and what the session remembers. -/
def Session.view (s : Session) : Task × Remembered := (s.task, s.remembered)

namespace Diagnostics

theorem append_view (family : String) (payload : Value) (s : Session) :
    (append family payload s).2.view = s.view := by
  rw [append]
  split
  · rfl
  · cases hc : cache family payload s with
    | error x => rfl
    | ok s' =>
      show s'.view = s.view
      rw [cache] at hc
      split at hc
      · split at hc
        · rw [← Except.ok.inj hc]
          rfl
        · cases hc
      · split at hc
        · rw [← Except.ok.inj hc]
          show (tally payload s).view = s.view
          rw [tally]
          split
          · rfl
          · split <;> rfl
        · split at hc
          · rw [← Except.ok.inj hc]
            rfl
          · cases hc

theorem andThen_view {f g : StateOp} {s : Session} (hf : (f s).2.view = s.view)
    (hg : ∀ s, (g s).2.view = s.view) : (f.andThen g s).2.view = s.view := by
  rw [StateOp.andThen]
  rcases hfs : f s with ⟨out, s'⟩
  rw [hfs] at hf
  cases out with
  | error x => exact hf
  | ok u => exact (hg s').trans hf

theorem appendAll_view (family : String) (payloads : List Value) (s : Session) :
    (appendAll family payloads s).2.view = s.view := by
  induction payloads generalizing s with
  | nil => rfl
  | cons payload payloads ih => exact andThen_view (append_view family payload s) ih

theorem stage_view (s : Session) : (stage s).2.view = s.view := by
  rw [stage]
  split
  · rfl
  · exact andThen_view (appendAll_view _ _ _) fun s =>
      andThen_view (appendAll_view _ _ s) fun s => appendAll_view _ _ s

theorem record_view (family : String) (payload : Value) (s : Session) :
    (record family payload s).2.view = s.view := by
  rw [record]
  split
  · rfl
  · split
    · rfl
    · exact andThen_view (stage_view s) (append_view family payload)

end Diagnostics

/-! ## Between the steps -/

theorem posts_append (h es : List (Event Eff Reply)) : posts (h ++ es) = posts h ++ posts es :=
  List.filter_append _ _

namespace Engine

/-- After the attempts `att` of a pass that started from `s₀` remembering `r₀`, with `r` remembered. -/
structure Progress (e : Engine) (s₀ : Session) (r₀ r : Remembered) (att : List SummaryAttempt)
    (h : List (Event Eff Reply)) (s : Session) : Prop where
  task : s.task = (s₀.recall r).task
  remembered : s.remembered = r
  requests : posts h = att.flatMap fun a => posts a.events
  attempts : ∀ a ∈ att, e.IsAttempt a
  replaced : e.Replacements s₀ (att.countP SummaryAttempt.accepted) r₀ r

variable {e : Engine} {s₀ : Session} {r₀ r : Remembered} {att : List SummaryAttempt}
  {h : List (Event Eff Reply)} {s : Session}

theorem Progress.quiet (hp : e.Progress s₀ r₀ r att h s) {h' : List (Event Eff Reply)} {s' : Session}
    (hv : s'.view = s.view) (hh : posts h' = posts h) : e.Progress s₀ r₀ r att h' s' where
  task := (congrArg Prod.fst hv).trans hp.task
  remembered := (congrArg Prod.snd hv).trans hp.remembered
  requests := hh.trans hp.requests
  attempts := hp.attempts
  replaced := hp.replaced

section quiet

theorem modify_keeps {f : Session → Session} (hf : ∀ s, (f s).view = s.view) :
    Proc.Keeps history (e.Progress s₀ r₀ r att) (EngineM.modify f) :=
  Proc.keeps_update fun _ s hp => hp.quiet (hf s) rfl

theorem record_keeps (family : String) (payload : Value) :
    Proc.Keeps history (e.Progress s₀ r₀ r att) (EngineM.record family payload) := fun _ s hp =>
  Proc.sat_step (fun _ _ => hp.quiet (Diagnostics.record_view family payload s) rfl)
    fun _ _ => hp.quiet (Diagnostics.record_view family payload s) rfl

theorem request_keeps {x : Eff} (hx : x.isPost = false) :
    Proc.Keeps history (e.Progress s₀ r₀ r att) (Proc.request x : EngineM (Reply x)) :=
  Proc.keeps_request fun h s hp => ⟨trivial, fun r' _ => hp.quiet rfl (by
    show posts (h ++ [⟨x, r'⟩]) = posts h
    rw [posts_append]
    simp [posts, hx])⟩

theorem archiveRecord_keeps (kind : String) (payload : Value) :
    Proc.Keeps history (e.Progress s₀ r₀ r att) (archiveRecord kind payload) :=
  Proc.keeps_bind (request_keeps rfl) fun _ => Proc.keeps_bind (request_keeps rfl) fun _ =>
    modify_keeps fun _ => rfl

theorem skip_keeps (assessment : Value) (reason : String) (more : List (String × Value)) :
    Proc.Keeps history (e.Progress s₀ r₀ r att) (skip assessment reason more) := record_keeps _ _

theorem giveUp_keeps (hard : Bool) (measured : RequestBudget) (assessment : Value)
    (reason : String) : Proc.Keeps history (e.Progress s₀ r₀ r att)
      (e.giveUp hard measured assessment reason) := by
  refine Proc.keeps_bind (skip_keeps _ _ _) fun _ => ?_
  split
  · exact Proc.keeps_fail _
  · exact Proc.keeps_pure ()

theorem rejectAttempt_keeps (p : Pass) (step attempt : Int) (reason : String)
    (proposal : Option String) : Proc.Keeps history (e.Progress s₀ r₀ r att)
      (rejectAttempt p step attempt reason proposal) :=
  Proc.keeps_bind (archiveRecord_keeps _ _) fun _ => record_keeps _ _

theorem rejectPass_yields (p : Pass) (groups : Nat) (used : Int) (reason : String) :
    Proc.Yields history (e.Progress s₀ r₀ r att) (fun _ _ fin => ∀ u, fin = .next u → u = used)
      (e.rejectPass p groups used reason) := by
  refine Proc.yields_bind (modify_keeps fun _ => rfl) fun _ => ?_
  refine Proc.yields_bind Proc.keeps_state fun s => ?_
  refine Proc.yields_bind (record_keeps _ _) fun _ => Proc.yields_pure fun _ _ _ u hu => ?_
  split at hu
  · cases hu
  · exact (PassEnd.next.inj hu).symm

end quiet

/-! ## Measuring -/

variable {α β : Type} {post : List (Event Eff Reply) → Session → β → Prop}
  {err : List (Event Eff Reply) → Session → String → Prop}

theorem sat_i64_bind {x : Option α} {k : α → EngineM β}
    (hk : ∀ a, x = some a → Proc.Sat history (k a) h s post err) :
    Proc.Sat history (EngineM.i64 x >>= k) h s post err := by
  cases x with
  | some a => exact hk a rfl
  | none => exact ⟨trivial, fun r _ => Empty.elim r⟩

theorem sat_ofExcept_bind {x : Except String α} {k : α → EngineM β} (he : ∀ m, err h s m)
    (hk : ∀ a, x = .ok a → Proc.Sat history (k a) h s post err) :
    Proc.Sat history (Proc.ofExcept x >>= k) h s post err := by
  cases x with
  | ok a => exact hk a rfl
  | error m => exact he m

theorem sat_requestBudget_bind {s' : Session} {k : RequestBudget → EngineM β}
    (he : ∀ m, err h s m)
    (hk : ∀ b, e.Estimates s' b → Proc.Sat history (k b) h s post err) :
    Proc.Sat history (e.requestBudget s' >>= k) h s post err := by
  rw [requestBudget]
  refine Proc.sat_bind.2 (sat_ofExcept_bind he fun _ _ => sat_ofExcept_bind he fun payload hp => ?_)
  generalize hx : estimatePayload e.host payload e.config.memory = x
  cases x with
  | none => exact ⟨trivial, fun r _ => Empty.elim r⟩
  | some b => exact hk b ⟨payload, hp, hx⟩

/-- The estimate is a matter of the task. -/
theorem Estimates.of_task {s s' : Session} {b : RequestBudget} (hb : e.Estimates s b)
    (h : s.task = s'.task) : e.Estimates s' b := by
  obtain ⟨payload, hpayload, hb⟩ := hb
  exact ⟨payload, (request_congr h.symm).trans hpayload, hb⟩

/-! ## Attempts -/

/-- What a pass has planned. -/
structure Planned (e : Engine) (s₀ : Session) (r : Remembered) (p : Pass) : Prop where
  measured : e.Estimates (s₀.recall r) p.measured
  hard : p.hard = !p.measured.fits
  required : p.requiredReduction = e.requiredReduction p.hard p.measured
  retained : e.Keeps (r.memory.drop 1) p.retained

/-- What is remembered once a summary is accepted. -/
def Pass.result (p : Pass) (r : Remembered) (ledger : Ledger) (canonical summaryId : String) :
    Remembered :=
  ⟨r.memory.take 1 ++ p.retained, some canonical, some ledger, some summaryId⟩

theorem Progress.task_replace (hp : e.Progress s₀ r₀ r att h s) (memory : List Message)
    (context : Option String) (r' : Remembered) (hm : r'.memory = memory)
    (hc : r'.compactedContext = context) :
    { s with memory := memory, compactedContext := context }.task = (s₀.recall r').task := by
  have htask := congrArg (fun t : Task => { t with
    memory := memory.map Message.toMessageBody, compactedContext := context }) hp.task
  subst hm hc
  exact htask

/-- The last attempt turns out to be accepted. -/
theorem Progress.accept {es : List (Event Eff Reply)}
    (hp : e.Progress s₀ r₀ r (att ++ [⟨es, false⟩]) h s) {r' : Remembered}
    (hr : e.Replacement s₀ r r') {s' : Session} {h' : List (Event Eff Reply)}
    (htask : s'.task = (s₀.recall r').task) (hremembered : s'.remembered = r')
    (hh : posts h' = posts h) : e.Progress s₀ r₀ r' (att ++ [⟨es, true⟩]) h' s' where
  task := htask
  remembered := hremembered
  requests := by
    rw [hh, hp.requests, List.flatMap_append, List.flatMap_append]
    rfl
  attempts := by
    intro a ha
    rcases List.mem_append.1 ha with ha | ha
    · exact hp.attempts a (List.mem_append_left _ ha)
    · rw [List.mem_singleton.1 ha]
      exact hp.attempts ⟨es, false⟩ (List.mem_append_right _ List.mem_cons_self)
  replaced := by
    have hmore := Replacements.more hp.replaced hr
    rw [List.countP_append] at hmore ⊢
    exact hmore

theorem acceptSummary_sat {p : Pass} {es : List (Event Eff Reply)}
    (hp : e.Progress s₀ r₀ r (att ++ [⟨es, false⟩]) h s) (attempt : Int) (text : String)
    (ledger : Ledger) (canonical : String) (after : RequestBudget)
    (hr : ∀ summaryId, e.Replacement s₀ r (p.result r ledger canonical summaryId)) :
    Proc.Sat history (acceptSummary p attempt text ledger canonical after) h s
      (fun h' s' _ => ∃ r', e.Progress s₀ r₀ r' (att ++ [⟨es, true⟩]) h' s')
      fun h' s' _ => ∃ r', e.Progress s₀ r₀ r' (att ++ [⟨es, true⟩]) h' s' := by
  rw [acceptSummary]
  refine Proc.sat_state_bind.2 (Proc.sat_bind.2 ⟨trivial, fun summaryId _ => ?_⟩)
  refine Proc.sat_update_bind.2 ?_
  have haccept : e.Progress s₀ r₀ (p.result r ledger canonical summaryId) (att ++ [⟨es, true⟩])
      (h ++ [⟨.uuid [], summaryId⟩]) { s with
        memory := keepRetained s p.retained, compactedContext := some canonical
        compactionLedger := some ledger, activeLedgerId := some summaryId } := by
    have hmemory : keepRetained s p.retained = r.memory.take 1 ++ p.retained := by
      rw [keepRetained, ← hp.remembered]
      rfl
    refine hp.accept (hr summaryId) ?_ ?_ ?_
    · exact hp.task_replace _ _ (p.result r ledger canonical summaryId) hmemory.symm rfl
    · rw [hmemory]
      rfl
    · rw [posts_append]
      simp [posts, Eff.isPost]
  have hrest : ∀ {f : EngineM Unit} {h' : List (Event Eff Reply)} {s' : Session},
      (∀ r', Proc.Keeps history (e.Progress s₀ r₀ r' (att ++ [⟨es, true⟩])) f) →
      e.Progress s₀ r₀ (p.result r ledger canonical summaryId) (att ++ [⟨es, true⟩]) h' s' →
      Proc.Sat history f h' s'
        (fun h' s' _ => ∃ r', e.Progress s₀ r₀ r' (att ++ [⟨es, true⟩]) h' s')
        fun h' s' _ => ∃ r', e.Progress s₀ r₀ r' (att ++ [⟨es, true⟩]) h' s' :=
    fun hf hp' => (hf _ _ _ hp').mono (fun _ _ _ h => ⟨_, h⟩) fun _ _ _ h => ⟨_, h⟩
  refine hrest (fun r' => ?_) haccept
  refine Proc.keeps_bind (record_keeps _ _) fun _ => ?_
  refine Proc.keeps_bind (modify_keeps fun _ => rfl) fun _ => ?_
  refine Proc.keeps_bind Proc.keeps_state fun s => ?_
  refine Proc.keeps_bind (record_keeps _ _) fun _ => ?_
  exact Proc.keeps_bind (modify_keeps fun _ => rfl) fun _ => record_keeps _ _

/-- A judged attempt: accepted with a new memory, or rejected with the old one. -/
def Judged (e : Engine) (s₀ : Session) (r₀ r : Remembered) (att : List SummaryAttempt)
    (es : List (Event Eff Reply)) (h : List (Event Eff Reply)) (s : Session) : Option String → Prop
  | none => ∃ r', e.Progress s₀ r₀ r' (att ++ [⟨es, true⟩]) h s
  | some _ => e.Progress s₀ r₀ r (att ++ [⟨es, false⟩]) h s

/-- Whichever way the attempt goes, it counts. -/
def Counted (e : Engine) (s₀ : Session) (r₀ : Remembered) (att : List SummaryAttempt)
    (n : Nat) (h : List (Event Eff Reply)) (s : Session) : Prop :=
  ∃ new r', new.length ≤ n ∧ e.Progress s₀ r₀ r' (att ++ new) h s

theorem Counted.mono {n m : Nat} (hc : e.Counted s₀ r₀ att n h s) (hnm : n ≤ m) :
    e.Counted s₀ r₀ att m h s := by
  obtain ⟨new, r', hlen, hp⟩ := hc
  exact ⟨new, r', hlen.trans hnm, hp⟩

theorem Progress.counted {a : SummaryAttempt} {r' : Remembered}
    (hp : e.Progress s₀ r₀ r' (att ++ [a]) h s) : e.Counted s₀ r₀ att 1 h s :=
  ⟨[a], r', Nat.le_refl 1, hp⟩

theorem judgeLedger_sat {p : Pass} {es : List (Event Eff Reply)}
    (hp : e.Progress s₀ r₀ r (att ++ [⟨es, false⟩]) h s) (hplan : e.Planned s₀ r p) (attempt : Int)
    (text : String) (ledger : Ledger) (canonical : String) :
    Proc.Sat history (e.judgeLedger p attempt text ledger canonical) h s
      (e.Judged s₀ r₀ r att es) fun h' s' _ => e.Counted s₀ r₀ att 1 h' s' := by
  rw [judgeLedger]
  refine Proc.sat_state_bind.2 (sat_requestBudget_bind (fun _ => hp.counted) fun after hafter => ?_)
  dsimp only
  split
  · exact hp
  next hreduces =>
    split
    · exact hp
    next hsaves =>
      have hmemory : keepRetained s p.retained = r.memory.take 1 ++ p.retained := by
        rw [keepRetained, ← hp.remembered]
        rfl
      have hreplace : ∀ summaryId,
          e.Replacement s₀ r (p.result r ledger canonical summaryId) := by
        intro summaryId
        refine ⟨⟨p.retained, hplan.retained, rfl⟩, p.measured, after, hplan.measured,
          hafter.of_task ?_, by omega, fun hfits => ?_⟩
        · exact hp.task_replace _ _ (p.result r ledger canonical summaryId) hmemory.symm rfl
        · have hsoft : p.hard = false := by rw [hplan.hard, hfits]; rfl
          rw [← hsoft, ← hplan.required]
          simp only [hsoft, Bool.not_false, Bool.true_and, decide_eq_true_eq, not_lt] at hsaves
          exact hsaves
      refine Proc.sat_bind.2 ((acceptSummary_sat hp attempt text ledger canonical after hreplace).mono
        (fun _ _ _ h => h) fun _ _ _ hex => ?_)
      obtain ⟨r', hp'⟩ := hex
      exact hp'.counted

theorem judgeProposal_sat {p : Pass} (es : List (Event Eff Reply))
    (hp : e.Progress s₀ r₀ r (att ++ [⟨es, false⟩]) h s) (hplan : e.Planned s₀ r p) (attempt : Int)
    (failure proposal : Option String) :
    Proc.Sat history (e.judgeProposal p attempt failure proposal) h s
      (e.Judged s₀ r₀ r att es) fun h' s' _ => e.Counted s₀ r₀ att 1 h' s' := by
  rw [judgeProposal]
  refine Proc.sat_state_bind.2 ?_
  dsimp only
  split
  · exact hp
  · cases proposal with
    | none => exact hp
    | some text =>
      dsimp only
      split
      · exact hp
      · exact judgeLedger_sat hp hplan attempt text _ _

theorem countP_rejected (att : List SummaryAttempt) (es : List (Event Eff Reply)) :
    (att ++ [(⟨es, false⟩ : SummaryAttempt)]).countP SummaryAttempt.accepted =
      att.countP SummaryAttempt.accepted := by
  simp

/-- What a pass has done when its attempts are over. -/
structure Tried (e : Engine) (s₀ : Session) (r₀ r : Remembered) (att : List SummaryAttempt)
    (left : Nat) (used : Int) (h : List (Event Eff Reply)) (s : Session)
    (out : Int × Option String) : Prop where
  progress : ∃ new r', e.Progress s₀ r₀ r' (att ++ new) h s ∧ new.length ≤ left ∧
    out.1 = used + new.length ∧ (out.2 = none → 0 < new.countP SummaryAttempt.accepted) ∧
    (out.2 ≠ none → new.countP SummaryAttempt.accepted = 0 ∧ r' = r)

/-- One attempt more in front. -/
theorem Tried.cons {a : SummaryAttempt} {left : Nat} {used : Int} {out : Int × Option String}
    (ha : a.accepted = false) (ht : e.Tried s₀ r₀ r (att ++ [a]) left (used + 1) h s out) :
    e.Tried s₀ r₀ r att (left + 1) used h s out := by
  obtain ⟨new, r', hp, hlen, hused, hnone, hsome⟩ := ht.progress
  refine ⟨a :: new, r', ?_, ?_, ?_, ?_, ?_⟩
  · rwa [List.append_assoc] at hp
  · rw [List.length_cons]
    omega
  · rw [List.length_cons, hused]
    push_cast
    omega
  · rw [List.countP_cons_of_neg (by simp [ha])]
    exact hnone
  · rw [List.countP_cons_of_neg (by simp [ha])]
    exact hsome

theorem Counted.cons {a : SummaryAttempt} {n : Nat} (hc : e.Counted s₀ r₀ (att ++ [a]) n h s) :
    e.Counted s₀ r₀ att (n + 1) h s := by
  obtain ⟨new, r', hlen, hp⟩ := hc
  refine ⟨a :: new, r', ?_, ?_⟩
  · rw [List.length_cons]
    omega
  · rwa [List.append_assoc] at hp

theorem attempts_sat {p : Pass} (left : Nat) (used : Int) (correction : Option String)
    (reason : String) (hp : e.Progress s₀ r₀ r att h s) (hplan : e.Planned s₀ r p) :
    Proc.Sat history (e.attempts p left used correction reason) h s
      (e.Tried s₀ r₀ r att left used) fun h' s' _ => e.Counted s₀ r₀ att left h' s' := by
  induction left generalizing att h s used correction reason with
  | zero =>
    rw [attempts]
    refine ⟨[], r, ?_, Nat.le_refl 0, by simp, nofun, fun _ => ⟨rfl, rfl⟩⟩
    rwa [List.append_nil]
  | succ left ih =>
    have hstop : ∀ {h' : List (Event Eff Reply)} {s' : Session} {reason : String},
        e.Progress s₀ r₀ r att h' s' → e.Tried s₀ r₀ r att (left + 1) used h' s' (used, some reason) := by
      intro h' s' reason hp'
      refine ⟨[], r, ?_, Nat.zero_le _, by simp, nofun, fun _ => ⟨rfl, rfl⟩⟩
      rwa [List.append_nil]
    rw [attempts]
    refine Proc.sat_state_bind.2 (sat_i64_bind fun budget _ => ?_)
    split
    · exact hstop hp
    · refine Proc.sat_update_bind.2 (Proc.sat_bind.2 (Proc.sat_lift.2 ?_))
      refine (Program.sat_history _ _).mono fun h' out hrun => ?_
      obtain ⟨es, rfl, hes⟩ := hrun
      obtain ⟨proposal, diagnostics⟩ := out
      refine Proc.sat_update_bind.2 ?_
      -- from here on the attempt counts, not accepted so far
      have hasked : e.Progress s₀ r₀ r (att ++ [⟨es, false⟩]) (h ++ es) s := by
        refine ⟨hp.task, hp.remembered, ?_, ?_, ?_⟩
        · rw [posts_append, hp.requests, List.flatMap_append]
          simp
        · intro a ha
          rcases List.mem_append.1 ha with ha | ha
          · exact hp.attempts a ha
          · rw [List.mem_singleton.1 ha]
            exact ⟨_, _, hes⟩
        · rw [countP_rejected]
          exact hp.replaced
      refine Proc.sat_bind.2 (Proc.Sat.mono (judgeProposal_sat es ?_ hplan _ _ _)
        (fun h₁ s₁ judged hj => ?_) fun _ _ _ hc => hc.mono (by omega))
      · exact hasked.quiet rfl rfl
      cases judged with
      | none =>
        obtain ⟨r', hp'⟩ := hj
        refine ⟨[⟨es, true⟩], r', hp', ?_, rfl, fun _ => Nat.one_pos, fun hne => absurd rfl hne⟩
        rw [List.length_singleton]
        omega
      | some reason =>
        have hrejected : e.Progress s₀ r₀ r (att ++ [⟨es, false⟩]) h₁ s₁ := hj
        refine Proc.sat_bind.2 ((rejectAttempt_keeps p _ _ _ _ h₁ s₁ hrejected).mono
          (fun h₂ s₂ _ hp₂ => ?_) fun _ _ _ hp₂ => hp₂.counted.mono (by omega))
        exact (ih (used + 1) _ _ hp₂).mono (fun _ _ _ ht => ht.cons rfl) fun _ _ _ hc => hc.cons

/-! ## Passes -/

/-- What a pass has done when it is over. -/
def Passed (e : Engine) (s₀ : Session) (r₀ : Remembered) (left : Nat)
    (h : List (Event Eff Reply)) (s : Session) (out : Bool × PassEnd) : Prop :=
  (∀ u, out.2 = .next u → 0 ≤ u) ∧ ∃ att r, e.Progress s₀ r₀ r att h s ∧ att.length ≤ left ∧
    (out.1 = true ↔ 0 < att.countP SummaryAttempt.accepted)

theorem Progress.passed (hp : e.Progress s₀ r₀ r [] h s) {left : Nat} :
    e.Passed s₀ r₀ left h s (false, .stop) := ⟨nofun, [], r, hp, Nat.zero_le _, by simp⟩

/-- A pass that ends in this way. -/
abbrev PassSat (e : Engine) (s₀ : Session) (r₀ : Remembered) (left : Nat)
    (f : EngineM (Bool × PassEnd)) (h : List (Event Eff Reply)) (s : Session) : Prop :=
  Proc.Sat history f h s (e.Passed s₀ r₀ left)
    fun h' s' _ => e.Counted s₀ r₀ [] left h' s'

theorem passSat_keeps_bind {f : EngineM α} (hf : Proc.Keeps history (e.Progress s₀ r₀ r []) f)
    {left : Nat} {k : α → EngineM (Bool × PassEnd)} (hp : e.Progress s₀ r₀ r [] h s)
    (hk : ∀ a h' s', e.Progress s₀ r₀ r [] h' s' → e.PassSat s₀ r₀ left (k a) h' s') :
    e.PassSat s₀ r₀ left (f >>= k) h s :=
  Proc.sat_bind.2 ((hf h s hp).mono (fun h' s' a hp' => hk a h' s' hp')
    fun _ _ _ hp' => ⟨[], r, Nat.zero_le _, hp'⟩)

theorem Progress.failed {left : Nat} (hp : e.Progress s₀ r₀ r [] h s) :
    e.Counted s₀ r₀ [] left h s := ⟨[], r, Nat.zero_le _, hp⟩

theorem summarize_sat {p : Pass} {groups : Nat} {used : Int} {assessment : Value}
    (hp : e.Progress s₀ r₀ r [] h s) (hplan : e.Planned s₀ r p) (hused : 0 ≤ used) :
    e.PassSat s₀ r₀ e.config.memory.compactionMaxAttempts.toNat
      (e.summarize p groups used assessment) h s := by
  have hleft : (e.config.memory.compactionMaxAttempts - used).toNat ≤
      e.config.memory.compactionMaxAttempts.toNat := by omega
  rw [summarize]
  refine passSat_keeps_bind (record_keeps _ _) hp fun _ h₁ s₁ hp₁ => ?_
  refine Proc.sat_bind.2 ((attempts_sat _ used none "" hp₁ hplan).mono (fun h₂ s₂ out ht => ?_)
    fun _ _ _ hc => hc.mono hleft)
  obtain ⟨used', rejected⟩ := out
  obtain ⟨new, r', hp₂, hlen, hused', hnone, hsome⟩ := ht.progress
  rw [List.nil_append] at hp₂
  have hpos : 0 ≤ used' := by
    have hsum : used' = used + new.length := hused'
    omega
  cases rejected with
  | some reason =>
    obtain ⟨hzero, rfl⟩ := hsome (by simp)
    refine Proc.sat_bind.2 ((rejectPass_yields p groups used' reason h₂ s₂ hp₂).mono
      (fun h₃ s₃ fin hp₃ => ?_) fun _ _ _ hp₃ => ⟨new, r', hlen.trans hleft, hp₃⟩)
    refine ⟨fun u hu => ?_, new, r', hp₃.1, hlen.trans hleft, by simp [hzero]⟩
    rw [hp₃.2 u hu]
    exact hpos
  | none =>
    refine Proc.sat_state_bind.2 ⟨fun u hu => ?_, new, r', hp₂, hlen.trans hleft, by simp [hnone rfl]⟩
    dsimp only at hu
    split at hu
    · cases hu
    · rw [← PassEnd.next.inj hu]
      exact hpos

theorem weigh_sat {number : Int} {hard : Bool} {measured : RequestBudget} {pressure : F64}
    {assessment : Value} {old tail : List HistoryGroup} {used : Int}
    (hp : e.Progress s₀ r₀ r [] h s) (hmeasured : e.Estimates (s₀.recall r) measured)
    (hhard : hard = !measured.fits) (hkept : e.Keeps (r.memory.drop 1) (flatten tail))
    (hused : 0 ≤ used) :
    e.PassSat s₀ r₀ e.config.memory.compactionMaxAttempts.toNat
      (e.weigh number hard measured pressure assessment old tail used) h s := by
  have hskip : ∀ assessment reason more,
      e.PassSat s₀ r₀ e.config.memory.compactionMaxAttempts.toNat
        (do skip assessment reason more; return (false, .stop)) h s :=
    fun _ _ _ => passSat_keeps_bind (skip_keeps _ _ _) hp fun _ _ _ hp' => hp'.passed
  rw [weigh]
  refine Proc.sat_state_bind.2 (sat_requestBudget_bind (fun _ => hp.failed) fun floor _ => ?_)
  dsimp only
  split
  · exact hskip _ _ _
  · split
    · exact hskip _ _ _
    · split
      · exact hskip _ _ _
      · exact summarize_sat hp ⟨hmeasured, hhard, rfl, hkept⟩ hused

/-- The selection only moves groups from the end of the prefix to the rest. -/
theorem sat_selectPrefix_bind (s' : Session) (fuel : Nat) (old tail : List HistoryGroup)
    {k : Option (List HistoryGroup × List HistoryGroup) → EngineM β} 
    (hk : ∀ out, (∀ old' tail', out = some (old', tail') → ∃ moved, tail' = moved ++ tail ∧
      old' ++ tail' = old ++ tail) → Proc.Sat history (k out) h s post err) :
    Proc.Sat history (e.selectPrefix s' fuel old tail >>= k) h s post err := by
  induction fuel generalizing old tail with
  | zero => exact hk none nofun
  | succ fuel ih =>
    rw [selectPrefix]
    refine Proc.sat_bind.2 (sat_i64_bind fun budget _ => ?_)
    split
    · refine hk _ fun old' tail' heq => ?_
      cases heq
      exact ⟨[], rfl, rfl⟩
    · split
      · exact hk none nofun
      · refine Proc.sat_bind.1 (ih _ _ fun out hout => hk out fun old' tail' heq => ?_)
        obtain ⟨moved, hmoved, happend⟩ := hout old' tail' heq
        have hsplit : old.dropLast ++ old.drop (old.length - 1) = old := by
          rw [List.dropLast_eq_take, List.take_append_drop]
        refine ⟨moved ++ old.drop (old.length - 1), ?_, ?_⟩
        · rw [hmoved, List.append_assoc]
        · rw [happend, ← List.append_assoc, hsplit]

theorem duePass_sat {number : Int} {measured : RequestBudget} {grown : Bool} {used : Int}
    (hp : e.Progress s₀ r₀ r [] h s) (hmeasured : e.Estimates (s₀.recall r) measured)
    (hused : 0 ≤ used) :
    e.PassSat s₀ r₀ e.config.memory.compactionMaxAttempts.toNat
      (e.duePass number measured grown used) h s := by
  rw [duePass]
  refine Proc.sat_state_bind.2 ?_
  refine sat_i64_bind fun limit _ => sat_i64_bind fun limit _ => sat_i64_bind fun headroom _ => ?_
  refine sat_ofExcept_bind (fun _ => hp.failed) fun split hsplit => ?_
  obtain ⟨old, tail⟩ := split
  have hmemory : s.memory = r.memory := congrArg Remembered.memory hp.remembered
  rw [hmemory] at hsplit
  obtain ⟨hgroups, hlen⟩ := splitHistory_keeps hsplit
  dsimp only
  split
  · exact passSat_keeps_bind (giveUp_keeps _ _ _ _) hp fun _ _ _ hp' => hp'.passed
  · split
    · exact passSat_keeps_bind (skip_keeps _ _ _) hp fun _ _ _ hp' => hp'.passed
    · split
      · exact passSat_keeps_bind (skip_keeps _ _ _) hp fun _ _ _ hp' => hp'.passed
      · refine sat_selectPrefix_bind s _ _ _ fun out hout => ?_
        cases out with
        | none =>
          exact passSat_keeps_bind (giveUp_keeps _ _ _ _) hp fun _ _ _ hp' => hp'.passed
        | some selected =>
          obtain ⟨old', tail'⟩ := selected
          obtain ⟨moved, hmoved, happend⟩ := hout old' tail' rfl
          refine weigh_sat hp hmeasured rfl ⟨old', tail', by rw [happend]; exact hgroups, rfl, ?_⟩ hused
          rw [hmoved, flatten_append, List.length_append]
          omega

/-- A pass, from a session with the memory `r`. -/
theorem compactPass_sat {number used : Int} (hp : e.Progress s₀ r₀ r [] h s) (hused : 0 ≤ used) :
    e.PassSat s₀ r₀ e.config.memory.compactionMaxAttempts.toNat (e.compactPass number used) h s := by
  rw [compactPass]
  refine Proc.sat_state_bind.2 (sat_requestBudget_bind (fun _ => hp.failed) fun measured hm => ?_)
  have hmeasured : e.Estimates (s₀.recall r) measured := hm.of_task hp.task
  refine Proc.sat_update_bind.2 (Proc.sat_state_bind.2 ?_)
  have hp' : e.Progress s₀ r₀ r [] h { s with requestBudget := some measured } := hp.quiet rfl rfl
  refine sat_i64_bind fun grown _ => sat_i64_bind fun due _ => ?_
  split
  · exact hp'.passed
  · exact duePass_sat hp' hmeasured hused

/-! ## The run of a compaction -/

/-- What the passes of a run have done. -/
structure PassesDone (e : Engine) (s₀ s s' : Session) (number : Int) (left : Nat)
    (es : List (Event Eff Reply)) (passes : List PassRun) : Prop where
  events : es = passes.flatMap PassRun.events
  each : ∀ (i : Nat) p, passes[i]? = some p → e.IsPass (number + i) p
  bounded : passes.length ≤ left
  task : s'.task = (s₀.recall s'.remembered).task
  replaced : e.Replacements s₀ ((passes.flatMap PassRun.attempts).countP SummaryAttempt.accepted)
    s.remembered s'.remembered

/-- The run of one pass. -/
theorem pass_of_run {number used : Int} {s s' : Session} {es : List (Event Eff Reply)}
    {out : Except String (Bool × PassEnd)} (htask : s.task = (s₀.recall s.remembered).task)
    (hused : 0 ≤ used) (hr : (e.compactPass number used s).Runs es (.ret (out, s'))) :
    ∃ p : PassRun, p.events = es ∧ e.IsPass number p ∧ s'.task = (s₀.recall s'.remembered).task ∧
      e.Replacements s₀ (p.attempts.countP SummaryAttempt.accepted) s.remembered s'.remembered ∧
      ∀ replaced fin, out = .ok (replaced, fin) → (∀ u, fin = .next u → 0 ≤ u) ∧
        (replaced = true ↔ 0 < p.attempts.countP SummaryAttempt.accepted) := by
  have hstart : e.Progress s₀ s.remembered s.remembered [] [] s :=
    ⟨htask, rfl, rfl, fun _ h => (by cases h), .none _⟩
  have hsat : e.PassSat s₀ s.remembered _ (e.compactPass number used) [] s :=
    compactPass_sat hstart hused
  have hpass : ∀ {att r}, e.Progress s₀ s.remembered r att es s' →
      att.length ≤ e.config.memory.compactionMaxAttempts.toNat →
      e.IsPass number ⟨es, att⟩ ∧ s'.task = (s₀.recall s'.remembered).task ∧
        e.Replacements s₀ (att.countP SummaryAttempt.accepted) s.remembered s'.remembered := by
    intro att r hp hlen
    refine ⟨⟨⟨used, s, _, hr⟩, hp.requests, hp.attempts, hlen⟩, ?_, ?_⟩
    · rw [hp.remembered]
      exact hp.task
    · rw [hp.remembered]
      exact hp.replaced
  cases out with
  | ok out =>
    obtain ⟨hnext, att, r, hp, hlen, hreplaced⟩ := hsat.ok_of_run hr
    obtain ⟨hisPass, htask', hreplacements⟩ := hpass hp hlen
    refine ⟨⟨es, att⟩, rfl, hisPass, htask', hreplacements, fun replaced fin hout => ?_⟩
    cases hout
    exact ⟨hnext, hreplaced⟩
  | error x =>
    obtain ⟨att, r, hlen, hp⟩ := hsat.error_of_run hr
    obtain ⟨hisPass, htask', hreplacements⟩ := hpass hp hlen
    exact ⟨⟨es, att⟩, rfl, hisPass, htask', hreplacements, nofun⟩

/-- The run of the passes. -/
theorem passes_of_run {left : Nat} {number used : Int} {changed : Bool} {s s' : Session}
    {es : List (Event Eff Reply)} {out : Except String Bool}
    (htask : s.task = (s₀.recall s.remembered).task) (hused : 0 ≤ used)
    (hr : (e.compactPasses left number used changed s).Runs es (.ret (out, s'))) :
    ∃ passes, e.PassesDone s₀ s s' number left es passes ∧
      ∀ result, out = .ok result → (result = true ↔ changed = true ∨
        0 < (passes.flatMap PassRun.attempts).countP SummaryAttempt.accepted) := by
  induction left generalizing number used changed s es with
  | zero =>
    cases hr
    refine ⟨[], ⟨rfl, nofun, Nat.le_refl 0, htask, .none _⟩, fun result hout => ?_⟩
    rw [← Except.ok.inj hout]
    simp
  | succ left ih =>
    rw [compactPasses] at hr
    -- the first pass in front of the passes after it
    have hcons : ∀ {p : PassRun} {s₁ : Session} {es₂ : List (Event Eff Reply)}
        {passes : List PassRun}, e.IsPass number p →
        e.Replacements s₀ (p.attempts.countP SummaryAttempt.accepted) s.remembered s₁.remembered →
        e.PassesDone s₀ s₁ s' (number + 1) left es₂ passes →
        e.PassesDone s₀ s s' number (left + 1) (p.events ++ es₂) (p :: passes) := by
      intro p s₁ es₂ passes hp hreplaced hdone
      refine ⟨?_, ?_, ?_, hdone.task, ?_⟩
      · rw [List.flatMap_cons, hdone.events]
      · intro i q hq
        cases i with
        | zero =>
          obtain rfl : p = q := by simpa using hq
          simpa using hp
        | succ i =>
          have hnum : number + ((i + 1 : Nat) : Int) = number + 1 + i := by
            push_cast
            omega
          rw [hnum]
          exact hdone.each i q (by simpa using hq)
      · rw [List.length_cons]
        exact Nat.succ_le_succ hdone.bounded
      · rw [List.flatMap_cons, List.countP_append]
        exact hreplaced.trans hdone.replaced
    have hlast : ∀ {p : PassRun} {s₁ : Session}, s₁ = s' → e.IsPass number p →
        s₁.task = (s₀.recall s₁.remembered).task →
        e.Replacements s₀ (p.attempts.countP SummaryAttempt.accepted) s.remembered s₁.remembered →
        e.PassesDone s₀ s s' number (left + 1) p.events [p] := by
      rintro p s₁ rfl hp htask' hreplaced
      have hnone : e.PassesDone s₀ s₁ s₁ (number + 1) left [] [] :=
        ⟨rfl, nofun, Nat.zero_le _, htask', .none _⟩
      have hone := hcons hp hreplaced hnone
      rwa [List.append_nil] at hone
    rcases Proc.runs_bind hr with ⟨x, rfl, hfail⟩ | ⟨⟨replaced, fin⟩, s₁, es₁, es₂, rfl, hpass, hrest⟩
    · obtain ⟨p, rfl, hisPass, htask', hreplaced, -⟩ := pass_of_run htask hused hfail
      exact ⟨[p], hlast rfl hisPass htask' hreplaced, nofun⟩
    · obtain ⟨p, rfl, hisPass, htask', hreplaced, hout⟩ := pass_of_run htask hused hpass
      obtain ⟨hnext, hcount⟩ := hout replaced fin rfl
      cases fin with
      | stop =>
        cases hrest
        refine ⟨[p], ?_, fun result hres => ?_⟩
        · rw [List.append_nil]
          exact hlast rfl hisPass htask' hreplaced
        · rw [← Except.ok.inj hres, Bool.or_eq_true, hcount, List.flatMap_cons, List.flatMap_nil,
            List.append_nil]
      | next used' =>
        obtain ⟨passes, hdone, hresult⟩ := ih htask' (hnext used' rfl) hrest
        refine ⟨p :: passes, hcons hisPass hreplaced hdone, fun result hres => ?_⟩
        rw [hresult result hres, Bool.or_eq_true, hcount, List.flatMap_cons, List.countP_append,
          or_assoc, Nat.add_pos_iff_pos_or_pos]

/-- The last measurement of a compaction. -/
def measureLast (e : Engine) (changed : Bool) : EngineM Bool := do
  let budget ← e.requestBudget (← EngineM.get)
  EngineM.modify fun s => { s with requestBudget := some budget }
  if !budget.fits then Proc.fail (budgetError e.host budget) else return changed

theorem measureLast_sat (changed : Bool) (h : List (Event Eff Reply)) (s : Session) :
    Proc.Sat history (e.measureLast changed) h s
      (fun h' s' result => h' = h ∧ s'.view = s.view ∧ result = changed)
      fun h' s' _ => h' = h ∧ s'.view = s.view := by
  rw [measureLast]
  refine Proc.sat_state_bind.2 (sat_requestBudget_bind (fun _ => ⟨rfl, rfl⟩) fun budget _ => ?_)
  refine Proc.sat_update_bind.2 ?_
  split
  · exact ⟨rfl, rfl⟩
  · exact ⟨rfl, rfl, rfl⟩

/-- What a whole compaction does, with the number of summaries it has accepted. -/
theorem compact_does (e : Engine) (hpasses : 1 ≤ e.config.memory.compactionMaxPasses)
    {s s' : Session} {groups : List HistoryGroup} {es : List (Event Eff Reply)}
    {out : Except String Bool} (hmemory : s.memory ≠ [])
    (hgroups : interactionGroups e.host (s.memory.drop 1) = .ok groups)
    (hr : (e.compact s).Runs es (.ret (out, s'))) :
    ∃ passes, e.Compacted s s' es passes ∧ ∀ changed, out = .ok changed → (changed = true ↔
      0 < (passes.flatMap PassRun.attempts).countP SummaryAttempt.accepted) := by
  have hbound : (max e.config.memory.compactionMaxPasses 1).toNat ≤
      e.config.memory.compactionMaxPasses.toNat := by omega
  have hcompacted : ∀ {passes} {s₁ : Session}, s'.view = s₁.view →
      e.PassesDone s s s₁ 1 (max e.config.memory.compactionMaxPasses 1).toNat es passes →
      e.Compacted s s' es passes := by
    intro passes s₁ hview hdone
    have hrem : s'.remembered = s₁.remembered := congrArg Prod.snd hview
    have htask : s'.task = (s.recall s'.remembered).task := by
      rw [hrem]
      exact (congrArg Prod.fst hview).trans hdone.task
    have hreplaced := hdone.replaced
    rw [← hrem] at hreplaced
    refine ⟨hdone.events, fun i p hp => ?_, ?_, congrArg Task.goal htask,
      congrArg Task.workflow htask, congrArg Task.completionArtifacts htask,
      ⟨congrArg Task.pendingToolCalls htask, congrArg Task.pendingToolPhase htask⟩, hreplaced,
      hreplaced.keeps hmemory hgroups⟩
    · rw [Int.add_comm]
      exact hdone.each i p hp
    · have := hdone.bounded
      omega
  have hrun : ((e.compactPasses (max e.config.memory.compactionMaxPasses 1).toNat 1 0 false >>=
      e.measureLast) s).Runs es (.ret (out, s')) := hr
  have hstart : s.task = (s.recall s.remembered).task := rfl
  rcases Proc.runs_bind hrun with ⟨x, rfl, hfail⟩ | ⟨changed, s₁, es₁, es₂, rfl, hfirst, hrest⟩
  · obtain ⟨passes, hdone, -⟩ := passes_of_run hstart (Int.le_refl 0) hfail
    exact ⟨passes, hcompacted rfl hdone, nofun⟩
  · obtain ⟨passes, hdone, hresult⟩ := passes_of_run hstart (Int.le_refl 0) hfirst
    have hend := hresult changed rfl
    simp only [Bool.false_eq_true, false_or] at hend
    cases out with
    | ok result =>
      obtain ⟨hes, hview, rfl⟩ := (measureLast_sat changed [] s₁).ok_of_run hrest
      obtain rfl : es₂ = [] := hes
      rw [List.append_nil] at hcompacted ⊢
      refine ⟨passes, hcompacted hview hdone, fun result' hres => ?_⟩
      rw [← Except.ok.inj hres]
      exact hend
    | error x =>
      obtain ⟨hes, hview⟩ := (measureLast_sat changed [] s₁).error_of_run hrest
      obtain rfl : es₂ = [] := hes
      rw [List.append_nil] at hcompacted ⊢
      exact ⟨passes, hcompacted hview hdone, nofun⟩

end Engine

end StateDrivenAgent
