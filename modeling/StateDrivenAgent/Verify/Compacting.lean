import StateDrivenAgent.Verify.Checkpoints
import StateDrivenAgent.Verify.SingleCalls

/-!
# What a compaction keeps

A compaction works on an active session without pending calls. Every request it posts has been
measured as it is posted, it puts a summary only in the place of whole interactions, and when it
succeeds the next decision request has been measured too. It reports a broken history only where the
history is broken.
-/

namespace StateDrivenAgent

open Interaction Context

/-! ## Requests -/

namespace Engine

variable {e : Engine} {s s' : Session}

/-- The messages of a request over a well-formed history. -/
theorem payload_grouped (h : Grouped ((s.memory.drop 1).map Message.toMessageBody)) :
    Grouped (e.payload s) := by
  unfold payload
  refine .concat (.concat (.concat (.concat ?_ h) ?_) ?_) ?_
  · refine .concat (.concat (.concat (.concat ?_ ?_) ?_) ?_) ?_
    · exact .plain (by simp [msg])
    · split
      · exact .nil
      · exact .plain (by simp [msg])
    · cases s.compactedContext with
      | none => exact .nil
      | some x => exact .plain (by simp [msg])
    · refine .plain fun m hm => ?_
      obtain ⟨text, -, rfl⟩ := List.mem_map.mp hm
      exact ⟨_, _, rfl, by decide⟩
    · split
      · exact .plain (by simp [msg])
      · exact .nil
  · refine .plain fun m hm => ?_
    obtain ⟨binding, -, hnote⟩ := List.mem_filterMap.mp hm
    unfold bindingNote at hnote
    simp only [Option.bind_eq_bind, Option.bind_eq_some_iff, Option.pure_def, Option.some.injEq] at hnote
    obtain ⟨artifact, -, value, -, rfl⟩ := hnote
    exact ⟨_, _, rfl, by decide⟩
  · refine .plain fun m hm => ?_
    obtain ⟨text, -, rfl⟩ := Option.mem_toList.mp hm |> Option.map_eq_some_iff.mp
    exact ⟨_, _, rfl, by decide⟩
  · split
    · exact .plain (by simp [msg])
    · exact .nil

/-- A request over a well-formed history can be formed. -/
theorem request_of_grouped (h : Grouped ((s.memory.drop 1).map Message.toMessageBody)) :
    ∃ v, e.completeRequestPayload s = .ok v := by
  obtain ⟨out, hout⟩ := singleCallWire_of_grouped (payload_grouped (e := e) h)
  unfold completeRequestPayload decisionPayload
  rw [List.length_map, hout]
  by_cases hmode : e.config.llm.toolCallMode = "single"
  · simp only [hmode, decide_true, if_true]
    split <;> exact ⟨_, rfl⟩
  · simp only [hmode, decide_false, Bool.false_eq_true, if_false]
    split <;> exact ⟨_, rfl⟩

/-- The request is a matter of the task. -/
theorem request_congr (h : s'.task = s.task) :
    e.completeRequestPayload s' = e.completeRequestPayload s := by
  have hgoal : s'.goal = s.goal := congrArg Task.goal h
  have hmemory : s'.memory.map Message.toMessageBody = s.memory.map Message.toMessageBody :=
    congrArg Task.memory h
  have hdrop : (s'.memory.drop 1).map Message.toMessageBody =
      (s.memory.drop 1).map Message.toMessageBody := by
    rw [List.map_drop, List.map_drop, hmemory]
  have hlength : s'.memory.length = s.memory.length := by
    rw [← List.length_map (f := Message.toMessageBody), hmemory, List.length_map]
  have hworkflow : s'.workflow = s.workflow := congrArg Task.workflow h
  have hartifacts : s'.completionArtifacts = s.completionArtifacts :=
    congrArg Task.completionArtifacts h
  have hcontext : s'.compactedContext = s.compactedContext := congrArg Task.compactedContext h
  have hcomplete : e.complete s' = e.complete s := by
    unfold complete
    rw [hworkflow]
  have hinstruction : e.instruction s' = e.instruction s := by
    unfold instruction missing allowedNames
    rw [hworkflow]
  have hdeliverables : e.deliverables s' = e.deliverables s := by
    unfold deliverables
    rw [hartifacts]
  have hnotes : e.bindingNote s' = e.bindingNote s := by
    funext binding
    unfold bindingNote
    rw [hartifacts]
  have hpayload : e.payload s' = e.payload s := by
    unfold payload
    rw [hgoal, hcontext, hdeliverables, hlength, hdrop, hnotes, hinstruction, hcomplete]
  unfold completeRequestPayload decisionPayload
  rw [hpayload, hcomplete]

/-- The next decision request of the session can be formed, and it fits. -/
def Ready (e : Engine) (s : Session) : Prop :=
  ∃ payload, e.completeRequestPayload s = .ok payload ∧ e.Fits payload

theorem Ready.of_task (h : e.Ready s) (ht : s'.task = s.task) : e.Ready s' := by
  obtain ⟨payload, hpayload, hfits⟩ := h
  exact ⟨payload, (request_congr ht).trans hpayload, hfits⟩

end Engine

namespace Upkeep

variable {env : Deployment} {e : Engine} {promise : Ghost → (x : Eff) → Reply x → Prop}
  {owes : Ghost → Eff → Prop} {U : Upkeep env e promise owes} {g : Ghost} {s : Session}
  {α β : Type}

/-- A request that fits may be posted, to as many addresses as there are. -/
theorem postTo_sat {payload : Value} (hp : e.Fits payload)
    (U : Upkeep env e promise owes) (urls : List String) (diagnostics : List Value) :
    (e.postTo payload urls diagnostics).Sat (watch env e.config promise owes) g
      fun g' _ => g' = g := by
  have hdiagnosed : ∀ diagnostics elapsed status failure usage
      (next : List Value → Prog Engine.Exchange),
      (∀ ds, (next ds).Sat (watch env e.config promise owes) g fun g' _ => g' = g) →
      (e.diagnosed payload diagnostics elapsed status failure usage next).Sat
        (watch env e.config promise owes) g fun g' _ => g' = g := by
    intro diagnostics elapsed status failure usage next hnext
    unfold Engine.diagnosed
    cases e.requestDiagnostic payload elapsed status failure usage with
    | none => exact ⟨U.quiet rfl, fun r => nomatch r⟩
    | some diagnostic => exact hnext _
  have hfail : ∀ elapsed status code,
      (e.failExchange payload diagnostics elapsed status code).Sat
        (watch env e.config promise owes) g fun g' _ => g' = g :=
    fun elapsed status code => hdiagnosed _ _ _ _ _ _ fun _ => rfl
  induction urls generalizing diagnostics with
  | nil => exact rfl
  | cons url urls ih =>
    refine ⟨U.post hp, fun r _ => ?_⟩
    show Program.Sat _ _ (g.next (.httpPost url payload) r) _
    rw [Ghost.next_inert r rfl]
    match r with
    | .timeout elapsed => exact hfail _ _ _
    | .transport elapsed => exact hfail _ _ _
    | .broken elapsed status timeout => exact hfail _ _ _
    | .response elapsed status body =>
      refine hdiagnosed _ _ _ _ _ _ fun ds => ?_
      split
      · refine ih ds fun elapsed status code => ?_
        exact hdiagnosed _ _ _ _ _ _ fun _ => rfl
      · split <;> exact rfl

/-! ## Steps of a compaction -/

/-- An active session without pending calls. -/
structure Idle (s : Session) : Prop where
  active : s.status = .active
  settled : s.pendingToolCalls = []

theorem Idle.of_core {s s' : Session} (h : Idle s) (hc : s'.core = s.core) : Idle s' :=
  ⟨(congrArg (·.status) hc).trans h.active, (congrArg (·.pendingToolCalls) hc).trans h.settled⟩

/-- The failure does not report a broken history, or such reports may be committed. -/
def Reportable (U : Upkeep env e promise owes) (x : String) : Prop :=
  Text.startsWith x "context_integrity_error" = false ∨ ∀ event, U.Event event

/-- `f` works on an idle session, and leaves one. -/
def Compacts (U : Upkeep env e promise owes) (f : EngineM α) (g : Ghost) (s : Session)
    (post : Session → α → Prop) : Prop :=
  f.Sat (watch env e.config promise owes) g s
    (fun g' s' a => (U.At g' s' ∧ Idle s') ∧ post s' a)
    fun g' s' x => (U.At g' s' ∧ Idle s') ∧ U.Reportable x

theorem compacts_bind {f : EngineM α} {k : α → EngineM β} {post : Session → α → Prop}
    {post' : Session → β → Prop} (h : U.Compacts f g s post)
    (hk : ∀ g' s' a, U.At g' s' → Idle s' → post s' a → U.Compacts (k a) g' s' post') :
    U.Compacts (f >>= k) g s post' := by
  refine Proc.sat_bind.mpr (Proc.Sat.mono_post h ?_)
  exact fun g' s' a h' => hk g' s' a h'.1.1 h'.1.2 h'.2

theorem Compacts.mono {f : EngineM α} {post post' : Session → α → Prop}
    (h : U.Compacts f g s post) (hp : ∀ s' a, post s' a → post' s' a) : U.Compacts f g s post' :=
  Proc.Sat.mono_post h fun _ s' a h' => ⟨h'.1, hp s' a h'.2⟩

theorem compacts_get_bind {k : Session → EngineM β} {post : Session → β → Prop}
    (h : U.Compacts (k s) g s post) : U.Compacts (EngineM.get >>= k) g s post := h

theorem compacts_modify_bind {f : Session → Session} {k : Unit → EngineM β}
    {post : Session → β → Prop} (h : U.Compacts (k ()) g (f s) post) :
    U.Compacts (EngineM.modify f >>= k) g s post := h

theorem compacts_request_bind {x : Eff} {k : Reply x → EngineM β} {post : Session → β → Prop}
    (hq : x.quiet = true) (hi : x.inert = true) (h : ∀ r, U.Compacts (k r) g s post) :
    U.Compacts (Proc.request x >>= k) g s post := U.sat_request_bind hq hi fun r _ => h r

theorem compacts_pure {a : α} {post : Session → α → Prop} (h : U.At g s) (hi : Idle s)
    (hp : post s a) : U.Compacts (pure a) g s post := ⟨⟨h, hi⟩, hp⟩

theorem compacts_fail {x : String} {post : Session → α → Prop} (h : U.At g s) (hi : Idle s)
    (hx : U.Reportable x) : U.Compacts (Proc.fail x) g s post := ⟨⟨h, hi⟩, hx⟩

theorem compacts_i64_bind {x : Option α} {k : α → EngineM β} {post : Session → β → Prop}
    (hk : ∀ a, x = some a → U.Compacts (k a) g s post) :
    U.Compacts (EngineM.i64 x >>= k) g s post := by
  cases x with
  | none => exact ⟨U.quiet rfl, fun r => nomatch r⟩
  | some a => exact hk a rfl

theorem compacts_i64 {x : Option α} {post : Session → α → Prop} (h : U.At g s) (hi : Idle s)
    (hp : ∀ a, x = some a → post s a) : U.Compacts (EngineM.i64 x) g s post := by
  cases x with
  | none => exact ⟨U.quiet rfl, fun r => nomatch r⟩
  | some a => exact ⟨⟨h, hi⟩, hp a rfl⟩

/-- A step that fails only on a broken history. -/
theorem compacts_ofExcept_bind {x : Except String α} {k : α → EngineM β}
    {post : Session → β → Prop} (h : U.At g s) (hi : Idle s)
    (hx : ∀ m, x = .error m → U.Reportable m)
    (hk : ∀ a, x = .ok a → U.Compacts (k a) g s post) :
    U.Compacts (Proc.ofExcept x >>= k) g s post := by
  cases x with
  | ok a => exact hk a rfl
  | error m => exact ⟨⟨h, hi⟩, hx m rfl⟩

theorem compacts_modify {f : Session → Session} (h : U.At g s) (hi : Idle s)
    (ha : Alike s (f s)) :
    U.Compacts (EngineM.modify f) g s fun s' _ => s'.core = s.core :=
  ⟨⟨h.alike ha, hi.of_core ha.core⟩, ha.core⟩

/-- A change that is a move. -/
theorem compacts_change_bind {f : Session → Session} {k : Unit → EngineM β} {c : Core}
    {post : Session → β → Prop} (h : U.At g s) (hm : Move e (U.permits g) s.core c)
    (hb : Becomes s c (f s)) (hi : Idle (f s))
    (hk : ∀ s', U.At g s' → Idle s' → s'.core = c → U.Compacts (k ()) g s' post) :
    U.Compacts (EngineM.modify f >>= k) g s post := hk (f s) (h.becomes hb hm) hi hb.core

theorem compacts_archive {kind : String} {payload : Value} (h : U.At g s) (hi : Idle s) :
    U.Compacts (archiveRecord kind payload) g s fun s' _ => s'.core = s.core := by
  refine U.sat_request_bind rfl rfl fun id _ => U.sat_request_bind rfl rfl fun createdAt _ => ?_
  exact compacts_modify h hi ⟨rfl, ⟨rfl, rfl, rfl, rfl⟩, rfl, rfl⟩

theorem append_reportable {family m : String} {payload : Value}
    (hf : family ∈ Diagnostics.families) (hs : family = "compaction_events" → payload.asStr.isSome)
    (h : (Diagnostics.append family payload s).1 = .error m) : m = "diagnostic ordinal overflow" := by
  unfold Diagnostics.append at h
  dsimp only at h
  split at h
  · cases h
    rfl
  · split at h
    · next x hx =>
      unfold Diagnostics.cache at hx
      split at hx
      · next he =>
        obtain ⟨text, htext⟩ := Option.isSome_iff_exists.mp (hs he)
        rw [htext] at hx
        cases hx
      · split at hx
        · cases hx
        · split at hx
          · cases hx
          · next h₁ h₂ h₃ =>
            simp only [Diagnostics.families, List.mem_cons, List.not_mem_nil, or_false] at hf
            rcases hf with hf | hf | hf
            · exact absurd hf h₁
            · exact absurd hf h₂
            · exact absurd hf h₃
    · cases h

/-- Recording in a family fails only where there are no more ordinals. -/
theorem compacts_record {family : String} {payload : Value} (h : U.At g s) (hi : Idle s)
    (hf : family ∈ Diagnostics.families) (hs : family = "compaction_events" → payload.asStr.isSome) :
    U.Compacts (EngineM.record family payload) g s fun s' _ => s'.core = s.core := by
  obtain ⟨hat, hcore⟩ := record_at family payload h
  refine Proc.sat_step (fun _ _ => ⟨⟨hat, hi.of_core hcore⟩, hcore⟩) fun m hm => ?_
  refine ⟨⟨hat, hi.of_core hcore⟩, .inl ?_⟩
  have hknown : (!Diagnostics.families.contains family) = false := by
    simpa using hf
  have htext : (decide (family = "compaction_events") && payload.asStr.isNone) = false := by
    by_cases he : family = "compaction_events"
    · simpa [he, Option.isNone_iff_eq_none, Option.isSome_iff_ne_none] using hs he
    · simp [he]
  unfold Diagnostics.record at hm
  rw [hknown, htext] at hm
  simp only [Bool.false_eq_true, if_false, StateOp.andThen] at hm
  have hok := (stage_alike h.numbered).1
  rcases hstage : Diagnostics.stage s with ⟨r, s'⟩
  rw [hstage] at hok hm
  subst hok
  rw [append_reportable hf hs hm]
  decide

theorem compacts_note {family : String} {payload : Value} (h : U.At g s) (hi : Idle s)
    (hf : family ∈ Diagnostics.families) (hne : family ≠ "compaction_events") :
    U.Compacts (EngineM.record family payload) g s fun s' _ => s'.core = s.core :=
  compacts_record h hi hf fun he => absurd he hne

/-! ## Measuring -/

/-- The history is whole, or everything may be reported. -/
def Whole (U : Upkeep env e promise owes) (ms : List MessageBody) : Prop :=
  Grouped ms ∨ ∀ event, U.Event event

theorem Idle.whole (hi : Idle s) (h : U.At g s) :
    U.Whole ((s.memory.drop 1).map Message.toMessageBody) := by
  have hgrouped := U.grouped h.inv hi.settled
  rw [show s.core.memory = s.memory.map Message.toMessageBody from rfl, ← List.map_drop] at hgrouped
  exact hgrouped

/-- A measured request can be formed, and this is its budget. -/
def Measures (e : Engine) (s : Session) (b : RequestBudget) : Prop :=
  ∃ payload, e.completeRequestPayload s = .ok payload ∧
    Context.estimatePayload e.host payload e.config.memory = some b

theorem requestBudget_bind (s₀ : Session) {k : RequestBudget → EngineM β}
    {post : Session → β → Prop} (h : U.At g s) (hi : Idle s)
    (hw : U.Whole ((s₀.memory.drop 1).map Message.toMessageBody))
    (hk : ∀ g' b, U.At g' s → Measures e s₀ b → U.Compacts (k b) g' s post) :
    U.Compacts (e.requestBudget s₀ >>= k) g s post := by
  have hgroups : ∀ m, (if 1 < s₀.memory.length then
      Context.interactionGroups e.host (s₀.memory.drop 1) else .ok []) = .error m →
        U.Reportable m := by
    intro m hm
    rcases hw with hgrouped | hall
    · obtain ⟨found, hfound, -⟩ := interactionGroups_of_grouped e.host hgrouped
      rw [hfound] at hm
      split at hm <;> cases hm
    · exact .inr hall
  have hrequest : ∀ m, e.completeRequestPayload s₀ = .error m →
      U.Reportable m := by
    intro m hm
    rcases hw with hgrouped | hall
    · obtain ⟨v, hv⟩ := Engine.request_of_grouped (e := e) hgrouped
      rw [hv] at hm
      cases hm
    · exact .inr hall
  have hmeasured : ∀ payload, e.completeRequestPayload s₀ = .ok payload → ∀ b,
      estimatePayload e.host payload e.config.memory = some b → Measures e s₀ b :=
    fun payload hpayload b hb => ⟨payload, hpayload, hb⟩
  have hrun : U.Compacts (e.requestBudget s₀) g s fun s' b => s' = s ∧ Measures e s₀ b := by
    unfold Engine.requestBudget
    refine compacts_ofExcept_bind h hi hgroups fun _ _ => ?_
    refine compacts_ofExcept_bind h hi hrequest fun payload hpayload => ?_
    have hmeasured := hmeasured payload hpayload
    generalize estimatePayload e.host payload e.config.memory = x at hmeasured ⊢
    exact compacts_i64 h hi fun b hb => ⟨rfl, hmeasured b hb⟩
  refine compacts_bind hrun fun g' s' b h' _ hs => ?_
  rw [hs.1] at h' ⊢
  exact hk g' b h' hs.2

/-! ## Summaries -/

/-- What a pass was built from. -/
structure Taken (e : Engine) (c : Core) (p : Engine.Pass) : Prop where
  source : p.source = Context.sourceText e.host c.goal p.historical c.compactedContext
  history : c.memory ≠ []
  retained : Grouped (c.memory.drop 1) → Grouped (p.retained.map Message.toMessageBody)

theorem keepRetained_core (s : Session) (retained : List Message) :
    (Engine.keepRetained s retained).map Message.toMessageBody =
      s.core.memory.take 1 ++ retained.map Message.toMessageBody := by
  rw [Engine.keepRetained, List.map_append, List.map_take]
  rfl

theorem Taken.of_core {c c' : Core} {p : Engine.Pass} (h : Taken e c p) (hc : c' = c) :
    Taken e c' p := hc ▸ h

/-- An accepted summary takes the place of what the pass summarized. -/
theorem acceptSummary_compacts {p : Engine.Pass} (h : U.At g s) (hi : Idle s)
    (hp : Taken e s.core p) (attempt : Int) (text : String) (ledger : Ledger) (canonical : String)
    (after : RequestBudget) :
    U.Compacts (Engine.acceptSummary p attempt text ledger canonical after) g s
      fun _ _ => True := by
  have hmove : Move e (U.permits g) s.core { s.core with
      memory := s.core.memory.take 1 ++ p.retained.map Message.toMessageBody
      compactedContext := some canonical } := .compact canonical hi.settled hi.active hp.retained
  unfold Engine.acceptSummary
  refine compacts_get_bind (compacts_request_bind rfl rfl fun summaryId => ?_)
  refine compacts_change_bind h hmove ⟨?_, ⟨rfl, rfl, rfl, rfl⟩, rfl⟩ ⟨hi.active, hi.settled⟩ ?_
  · rw [← keepRetained_core]
    rfl
  intro s₁ h₁ hi₁ _
  refine compacts_bind (compacts_record h₁ hi₁ (by decide) fun _ => rfl) fun g₂ s₂ _ h₂ hi₂ _ => ?_
  refine compacts_bind (compacts_modify h₂ hi₂ ⟨rfl, ⟨rfl, rfl, rfl, rfl⟩, rfl, rfl⟩)
    fun g₃ s₃ _ h₃ hi₃ _ => compacts_get_bind ?_
  refine compacts_bind (compacts_note h₃ hi₃ (by decide) (by decide)) fun g₄ s₄ _ h₄ hi₄ _ => ?_
  refine compacts_bind (compacts_modify h₄ hi₄ ⟨rfl, ⟨rfl, rfl, rfl, rfl⟩, rfl, rfl⟩)
    fun g₅ s₅ _ h₅ hi₅ _ => ?_
  exact (compacts_note h₅ hi₅ (by decide) (by decide)).mono fun _ _ _ => trivial

/-- The history without what a pass summarized. -/
theorem keepRetained_whole {retained : List Message} (h : U.At g s) (hi : Idle s)
    (hm : s.core.memory ≠ [])
    (hr : Grouped (s.core.memory.drop 1) → Grouped (retained.map Message.toMessageBody)) :
    U.Whole (((Engine.keepRetained s retained).drop 1).map Message.toMessageBody) := by
  rcases hi.whole h with hgrouped | hall
  · rw [List.map_drop] at hgrouped
    refine .inl ?_
    rw [List.map_drop, keepRetained_core]
    obtain ⟨m, ms, hcons⟩ := List.exists_cons_of_ne_nil hm
    have hone : (s.core.memory.take 1 ++ retained.map Message.toMessageBody).drop 1 =
        retained.map Message.toMessageBody := by
      rw [hcons]
      rfl
    rw [hone]
    exact hr hgrouped
  · exact .inr hall

theorem judgeLedger_compacts {p : Engine.Pass} (h : U.At g s) (hi : Idle s)
    (hp : Taken e s.core p) (attempt : Int) (text : String) (ledger : Ledger) (canonical : String) :
    U.Compacts (e.judgeLedger p attempt text ledger canonical) g s
      fun s' r => r.isSome = true → s'.core = s.core := by
  unfold Engine.judgeLedger
  refine compacts_get_bind ?_
  refine requestBudget_bind _ h hi (keepRetained_whole h hi hp.history hp.retained)
    fun g' after h' _ => ?_
  dsimp only
  split
  · exact compacts_pure h' hi fun _ => rfl
  · split
    · exact compacts_pure h' hi fun _ => rfl
    · refine compacts_bind (acceptSummary_compacts h' hi hp _ _ _ _ _) fun _ _ _ h₁ hi₁ _ => ?_
      exact compacts_pure h₁ hi₁ nofun

/-- A reply that is not accepted leaves the session as it was. -/
theorem judgeProposal_compacts {p : Engine.Pass} (h : U.At g s) (hi : Idle s)
    (hp : Taken e s.core p) (attempt : Int) (failure proposal : Option String) :
    U.Compacts (e.judgeProposal p attempt failure proposal) g s
      fun s' r => r.isSome = true → s'.core = s.core := by
  unfold Engine.judgeProposal
  refine compacts_get_bind ?_
  dsimp only
  split
  · exact compacts_pure h hi fun _ => rfl
  · split
    · exact compacts_pure h hi fun _ => rfl
    · split
      · exact compacts_pure h hi fun _ => rfl
      · exact judgeLedger_compacts h hi hp _ _ _ _

theorem rejectAttempt_compacts {p : Engine.Pass} (h : U.At g s) (hi : Idle s) (step attempt : Int)
    (reason : String) (proposal : Option String) :
    U.Compacts (Engine.rejectAttempt p step attempt reason proposal) g s
      fun s' _ => s'.core = s.core := by
  unfold Engine.rejectAttempt
  refine compacts_bind (compacts_archive h hi) fun g₁ s₁ _ h₁ hi₁ hc₁ => ?_
  exact (compacts_note h₁ hi₁ (by decide) (by decide)).mono fun s' _ hc => hc.trans hc₁

/-- The summary request a pass sends is the one it has measured. -/
theorem Taken.fits {p : Engine.Pass} (hp : Taken e s.core p) {correction : Option String}
    {b : RequestBudget} (hb : e.summaryBudget s p.historical correction = some b)
    (hf : b.fits = true) : e.Fits (e.summaryPayload s.goal p.source correction) := by
  refine ⟨b, ?_, hf⟩
  rw [hp.source]
  exact hb

theorem compactClient_sat {payload : Value} (hp : e.Fits payload)
    (U : Upkeep env e promise owes) :
    (e.compactClient payload).Sat (watch env e.config promise owes) g fun g' _ => g' = g := by
  unfold Engine.compactClient Engine.postChat
  refine Program.sat_bind.mpr (Program.Sat.mono (postTo_sat hp U _ _) fun g' out hg => ?_)
  subst hg
  obtain ⟨reply, diagnostics⟩ := out
  cases reply with
  | error problem => exact rfl
  | ok value =>
    dsimp only
    split <;> exact rfl

theorem attempts_compacts {p : Engine.Pass} (left : Nat) (used : Int) (correction : Option String)
    (reason : String) (h : U.At g s) (hi : Idle s) (hp : Taken e s.core p) :
    U.Compacts (e.attempts p left used correction reason) g s fun _ _ => True := by
  induction left generalizing g s used correction reason with
  | zero => exact compacts_pure h hi trivial
  | succ left ih =>
    unfold Engine.attempts
    refine compacts_get_bind ?_
    generalize hx : e.summaryBudget s p.historical correction = x
    refine compacts_i64_bind fun b hb => ?_
    rw [hb] at hx
    split
    · exact compacts_pure h hi trivial
    · next hfits =>
      have hpost : e.Fits (e.summaryPayload s.goal p.source correction) :=
        hp.fits hx (by simpa using hfits)
      refine compacts_bind (compacts_modify h hi ⟨rfl, ⟨rfl, rfl, rfl, rfl⟩, rfl, rfl⟩)
        fun g₁ s₁ _ h₁ hi₁ hc₁ => ?_
      refine Proc.sat_bind.mpr (Proc.sat_lift.mpr ?_)
      refine Program.Sat.mono (compactClient_sat hpost U) fun g₂ out hg => ?_
      subst hg
      refine compacts_bind (compacts_modify h₁ hi₁ ⟨rfl, ⟨rfl, rfl, rfl, rfl⟩, rfl, rfl⟩)
        fun g₃ s₃ _ h₃ hi₃ hc₃ => ?_
      have hp₃ : Taken e s₃.core p := hp.of_core (hc₃.trans hc₁)
      refine compacts_bind (judgeProposal_compacts h₃ hi₃ hp₃ _ _ _) fun g₄ s₄ r h₄ hi₄ hr => ?_
      cases r with
      | none => exact compacts_pure h₄ hi₄ trivial
      | some reason =>
        refine compacts_bind (rejectAttempt_compacts h₄ hi₄ _ _ _ _) fun g₅ s₅ _ h₅ hi₅ hc₅ => ?_
        exact ih _ _ _ h₅ hi₅ (hp₃.of_core (hc₅.trans (hr rfl)))

/-! ## A pass -/

theorem skip_compacts {assessment : Value} {reason : String} {more : List (String × Value)}
    (h : U.At g s) (hi : Idle s) :
    U.Compacts (Engine.skip assessment reason more) g s fun s' _ => s'.core = s.core :=
  compacts_note h hi (by decide) (by decide)

theorem budgetError_reportable (host : Host) (b : RequestBudget) :
    U.Reportable (budgetError host b) := by
  refine .inl ?_
  unfold budgetError
  rw [String.append_assoc, Text.startsWith_append]
  · decide
  · decide

theorem giveUp_compacts {hard : Bool} {measured : RequestBudget} {assessment : Value}
    {reason : String} (h : U.At g s) (hi : Idle s) :
    U.Compacts (e.giveUp hard measured assessment reason) g s fun _ _ => True := by
  unfold Engine.giveUp
  refine compacts_bind (skip_compacts h hi) fun g' s' _ h' hi' _ => ?_
  split
  · exact compacts_fail h' hi' (budgetError_reportable _ _)
  · exact compacts_pure h' hi' trivial

/-- The selection only moves groups from the end of the prefix to the rest. -/
theorem selectPrefix_compacts (s₀ : Session) (fuel : Nat) (old tail : List HistoryGroup)
    (h : U.At g s) (hi : Idle s) :
    U.Compacts (e.selectPrefix s₀ fuel old tail) g s fun s' r => s' = s ∧
      ∀ old' tail', r = some (old', tail') → old' ++ tail' = old ++ tail := by
  induction fuel generalizing old tail with
  | zero => exact compacts_pure h hi ⟨rfl, nofun⟩
  | succ fuel ih =>
    unfold Engine.selectPrefix
    refine compacts_i64_bind fun b _ => ?_
    split
    · refine compacts_pure h hi ⟨rfl, fun old' tail' heq => ?_⟩
      cases heq
      rfl
    · split
      · exact compacts_pure h hi ⟨rfl, nofun⟩
      · next hlong =>
        refine (ih _ _).mono fun s' r hr => ⟨hr.1, fun old' tail' heq => ?_⟩
        have hsplit : old.dropLast ++ old.drop (old.length - 1) = old := by
          rw [List.dropLast_eq_take, List.take_append_drop]
        rw [hr.2 old' tail' heq, ← List.append_assoc, hsplit]

theorem rejectPass_compacts {p : Engine.Pass} {groups : Nat} {used : Int} {reason : String}
    (h : U.At g s) (hi : Idle s) :
    U.Compacts (e.rejectPass p groups used reason) g s fun _ _ => True := by
  unfold Engine.rejectPass
  refine compacts_bind (compacts_modify h hi ⟨rfl, ⟨rfl, rfl, rfl, rfl⟩, rfl, rfl⟩)
    fun g₁ s₁ _ h₁ hi₁ _ => compacts_get_bind ?_
  refine compacts_bind (compacts_note h₁ hi₁ (by decide) (by decide)) fun g₂ s₂ _ h₂ hi₂ _ => ?_
  exact compacts_pure h₂ hi₂ trivial

theorem summarize_compacts {p : Engine.Pass} {groups : Nat} {used : Int} {assessment : Value}
    (h : U.At g s) (hi : Idle s) (hp : Taken e s.core p) :
    U.Compacts (e.summarize p groups used assessment) g s fun _ _ => True := by
  unfold Engine.summarize
  refine compacts_bind (compacts_note h hi (by decide) (by decide)) fun g₁ s₁ _ h₁ hi₁ hc₁ => ?_
  refine compacts_bind (attempts_compacts _ _ _ _ h₁ hi₁ (hp.of_core hc₁)) fun g₂ s₂ out h₂ hi₂ _ => ?_
  obtain ⟨used, rejected⟩ := out
  cases rejected with
  | some reason =>
    refine compacts_bind (rejectPass_compacts h₂ hi₂) fun g₃ s₃ _ h₃ hi₃ _ => ?_
    exact compacts_pure h₃ hi₃ trivial
  | none => exact compacts_get_bind (compacts_pure h₂ hi₂ trivial)

/-- `tail` is what is left of the groups of the history after `old`. -/
def Splits (e : Engine) (s : Session) (old tail : List HistoryGroup) : Prop :=
  interactionGroups e.host (s.memory.drop 1) = .ok (old ++ tail)

theorem Splits.retained {old tail : List HistoryGroup} (h : Splits e s old tail) :
    Grouped (s.core.memory.drop 1) → Grouped ((flatten tail).map Message.toMessageBody) := by
  intro hgrouped
  have hbodies : Grouped ((s.memory.drop 1).map Message.toMessageBody) := by
    rw [List.map_drop]
    exact hgrouped
  obtain ⟨found, hfound, hsuffix⟩ := interactionGroups_of_grouped e.host hbodies
  have heq : old ++ tail = found := Except.ok.inj (h.symm.trans hfound)
  have hdrop := hsuffix old.length
  rw [← heq, List.drop_left] at hdrop
  exact hdrop

theorem Splits.history {old tail : List HistoryGroup} (h : Splits e s old tail)
    (hne : old ++ tail ≠ []) : s.core.memory ≠ [] := by
  intro hnil
  have hmemory : s.memory = [] := List.map_eq_nil_iff.mp hnil
  unfold Splits at h
  rw [hmemory] at h
  exact hne (Except.ok.inj h).symm

theorem weigh_compacts {number : Int} {hard : Bool} {measured : RequestBudget} {pressure : F64}
    {assessment : Value} {old tail : List HistoryGroup} {used : Int} (h : U.At g s) (hi : Idle s)
    (hs : Splits e s old tail) (hne : old ++ tail ≠ []) :
    U.Compacts (e.weigh number hard measured pressure assessment old tail used) g s
      fun _ _ => True := by
  unfold Engine.weigh
  refine compacts_get_bind ?_
  refine requestBudget_bind _ h hi (keepRetained_whole h hi (hs.history hne) hs.retained)
    fun g₁ floor h₁ _ => ?_
  dsimp only
  split
  · refine compacts_bind (skip_compacts h₁ hi) fun g₂ s₂ _ h₂ hi₂ _ => ?_
    exact compacts_pure h₂ hi₂ trivial
  · split
    · refine compacts_bind (skip_compacts h₁ hi) fun g₂ s₂ _ h₂ hi₂ _ => ?_
      exact compacts_pure h₂ hi₂ trivial
    · split
      · refine compacts_bind (skip_compacts h₁ hi) fun g₂ s₂ _ h₂ hi₂ _ => ?_
        exact compacts_pure h₂ hi₂ trivial
      · exact summarize_compacts h₁ hi ⟨rfl, hs.history hne, hs.retained⟩

theorem splitHistory_splits {minimum : Nat} {old tail : List HistoryGroup}
    (h : splitHistory e.host (s.memory.drop 1) minimum = .ok (old, tail)) : Splits e s old tail := by
  unfold splitHistory at h
  cases hgroups : interactionGroups e.host (s.memory.drop 1) with
  | error x =>
    rw [hgroups] at h
    cases h
  | ok groups =>
    rw [hgroups] at h
    cases h
    unfold Splits
    rw [hgroups, List.take_append_drop]

theorem splitHistory_reportable {minimum : Nat} {m : String} (h : U.At g s) (hi : Idle s)
    (hm : splitHistory e.host (s.memory.drop 1) minimum = .error m) : U.Reportable m := by
  rcases hi.whole h with hgrouped | hall
  · obtain ⟨found, hfound, -⟩ := interactionGroups_of_grouped e.host hgrouped
    unfold splitHistory at hm
    rw [hfound] at hm
    cases hm
  · exact .inr hall

theorem duePass_compacts {number : Int} {measured : RequestBudget} {grown : Bool} {used : Int}
    (h : U.At g s) (hi : Idle s) :
    U.Compacts (e.duePass number measured grown used) g s fun _ _ => True := by
  unfold Engine.duePass
  refine compacts_get_bind ?_
  refine compacts_i64_bind fun limit _ => compacts_i64_bind fun limit _ => ?_
  refine compacts_i64_bind fun headroom _ => ?_
  refine compacts_ofExcept_bind h hi (fun m hm => splitHistory_reportable h hi hm) fun split hsplit => ?_
  obtain ⟨old, tail⟩ := split
  have hs := splitHistory_splits hsplit
  dsimp only
  split
  · refine compacts_bind (giveUp_compacts h hi) fun g₁ s₁ _ h₁ hi₁ _ => ?_
    exact compacts_pure h₁ hi₁ trivial
  · next hold =>
    have hne : old ++ tail ≠ [] := by
      intro hnil
      exact hold (by rw [(List.append_eq_nil_iff.mp hnil).1]; rfl)
    split
    · refine compacts_bind (skip_compacts h hi) fun g₁ s₁ _ h₁ hi₁ _ => ?_
      exact compacts_pure h₁ hi₁ trivial
    · split
      · refine compacts_bind (skip_compacts h hi) fun g₁ s₁ _ h₁ hi₁ _ => ?_
        exact compacts_pure h₁ hi₁ trivial
      · refine compacts_bind (selectPrefix_compacts s _ _ _ h hi) fun g₁ s₁ r h₁ hi₁ hr => ?_
        rw [hr.1] at h₁ hi₁ ⊢
        cases r with
        | none =>
          refine compacts_bind (giveUp_compacts h₁ hi₁) fun g₂ s₂ _ h₂ hi₂ _ => ?_
          exact compacts_pure h₂ hi₂ trivial
        | some selected =>
          obtain ⟨old', tail'⟩ := selected
          have heq : old' ++ tail' = old ++ tail := hr.2 old' tail' rfl
          exact weigh_compacts h₁ hi₁ (by unfold Splits; rw [heq]; exact hs) (heq ▸ hne)

theorem compactPass_compacts (number used : Int) (h : U.At g s) (hi : Idle s) :
    U.Compacts (e.compactPass number used) g s fun _ _ => True := by
  unfold Engine.compactPass
  refine compacts_get_bind (requestBudget_bind _ h hi (hi.whole h) fun g₁ measured h₁ _ => ?_)
  refine compacts_bind (compacts_modify h₁ hi ⟨rfl, ⟨rfl, rfl, rfl, rfl⟩, rfl, rfl⟩)
    fun g₂ s₂ _ h₂ hi₂ _ => compacts_get_bind ?_
  refine compacts_i64_bind fun grown _ => compacts_i64_bind fun due _ => ?_
  split
  · exact compacts_pure h₂ hi₂ trivial
  · exact duePass_compacts h₂ hi₂

theorem compactPasses_compacts (left : Nat) (number used : Int) (changed : Bool) (h : U.At g s)
    (hi : Idle s) : U.Compacts (e.compactPasses left number used changed) g s fun _ _ => True := by
  induction left generalizing g s number used changed with
  | zero => exact compacts_pure h hi trivial
  | succ left ih =>
    unfold Engine.compactPasses
    refine compacts_bind (compactPass_compacts _ _ h hi) fun g₁ s₁ out h₁ hi₁ _ => ?_
    obtain ⟨replaced, fin⟩ := out
    cases fin with
    | stop => exact compacts_pure h₁ hi₁ trivial
    | next used => exact ih _ _ _ h₁ hi₁

/-- After a compaction that succeeds the next request can be sent. -/
theorem compact_compacts (h : U.At g s) (hi : Idle s) :
    U.Compacts e.compact g s fun s' _ => e.Ready s' := by
  unfold Engine.compact
  refine compacts_bind (compactPasses_compacts _ _ _ _ h hi) fun g₁ s₁ changed h₁ hi₁ _ => ?_
  refine compacts_get_bind (requestBudget_bind _ h₁ hi₁ (hi₁.whole h₁) fun g₂ b h₂ hb => ?_)
  refine compacts_bind (compacts_modify h₂ hi₁ ⟨rfl, ⟨rfl, rfl, rfl, rfl⟩, rfl, rfl⟩)
    fun g₃ s₃ _ h₃ hi₃ hc₃ => ?_
  split
  · exact compacts_fail h₃ hi₃ (budgetError_reportable _ _)
  · next hfits =>
    obtain ⟨payload, hpayload, hb⟩ := hb
    have hready : e.Ready s₁ := ⟨payload, hpayload, b, hb, by simpa using hfits⟩
    exact compacts_pure h₃ hi₃ (hready.of_task (Session.task_of_core hc₃))

end Upkeep

end StateDrivenAgent
