import StateDrivenAgent.Interaction.Invariant
import StateDrivenAgent.Verify.Running

/-!
# What a round keeps

A decision is acted on between two interactions: the runtime answers what is not usable, a batch is
put in front of the engine and settled, a final answer ends the session if it passes its checks. A
round advances the workflow, compacts the context and asks for a decision, and a run repeats it.
-/

namespace StateDrivenAgent

open Interaction

/-! ## New identities -/

theorem Engine.Readable.rename {e : Engine} {call : Call} {id : String} (h : e.Readable call)
    (hid : id ≠ "") : e.Readable { call with id } := ⟨hid, h.admissible⟩

namespace Upkeep

variable {env : Deployment} {e : Engine} {promise : Ghost → (x : Eff) → Reply x → Prop}
  {owes : Ghost → Eff → Prop} {U : Upkeep env e promise owes} {g : Ghost} {s : Session}
  {emit : Emit} {α β : Type}

/-- What the renewal of identities gives back: usable calls, with identities of the batch or new
ones. -/
structure Renews (e : Engine) (calls : List Call) (taken : List String) (renewed : List Call) :
    Prop where
  length : renewed.length = calls.length
  readable : ∀ call ∈ renewed, e.Readable call
  nodup : (renewed.map Call.id).Nodup
  fresh : ∀ call ∈ renewed, call.id ∉ taken

theorem renewIds_sat (U : Upkeep env e promise owes) (historical : List String)
    {calls : List Call} {taken : List String} (hr : ∀ call ∈ calls, e.Readable call)
    (hd : (calls.map Call.id).Nodup) (hf : ∀ call ∈ calls, call.id ∉ taken) :
    (Engine.renewIds historical calls taken).Sat (watch env e.config promise owes) g s
      (fun g' s' renewed => g' = g ∧ s' = s ∧ Renews e calls taken renewed)
      fun _ _ _ => False := by
  induction calls generalizing taken with
  | nil => exact ⟨rfl, rfl, rfl, by simp, List.nodup_nil, by simp⟩
  | cons call calls ih =>
    rw [List.map_cons, List.nodup_cons] at hd
    have hrest : ∀ c ∈ calls, e.Readable c := fun c hc => hr c (List.mem_cons_of_mem _ hc)
    -- whatever the call is called, it is not among the others or what is taken
    have hstep : ∀ id, id ≠ "" → id ∉ taken → id ∉ calls.map Call.id →
        (Engine.renewIds historical calls (taken ++ [id])).Sat (watch env e.config promise owes) g s
          (fun g' s' renewed => g' = g ∧ s' = s ∧
            Renews e (call :: calls) taken ({ call with id } :: renewed)) fun _ _ _ => False := by
      intro id hne htaken hcalls
      have hfresh : ∀ c ∈ calls, c.id ∉ taken ++ [id] := by
        intro c hc hmem
        rcases List.mem_append.1 hmem with hmem | hmem
        · exact hf c (List.mem_cons_of_mem _ hc) hmem
        · exact hcalls (List.mem_singleton.1 hmem ▸ List.mem_map_of_mem hc)
      refine Proc.Sat.mono_post (ih hrest hd.2 hfresh) ?_
      rintro g' s' renewed ⟨hg, hs, hn⟩
      refine ⟨hg, hs, by rw [List.length_cons, hn.length, List.length_cons], ?_, ?_, ?_⟩
      · intro c hc
        rcases List.mem_cons.1 hc with rfl | hc
        · exact (hr call List.mem_cons_self).rename hne
        · exact hn.readable c hc
      · rw [List.map_cons, List.nodup_cons]
        refine ⟨fun hmem => ?_, hn.nodup⟩
        obtain ⟨c, hc, hid⟩ := List.mem_map.1 hmem
        exact hn.fresh c hc (List.mem_append_right _ (by rw [hid]; exact List.mem_singleton_self _))
      · intro c hc
        rcases List.mem_cons.1 hc with rfl | hc
        · exact htaken
        · exact fun hmem => hn.fresh c hc (List.mem_append_left _ hmem)
    rw [Engine.renewIds]
    split
    · refine U.sat_request_bind rfl rfl fun id hid => ?_
      obtain ⟨⟨hnew, hne⟩, -⟩ := hid
      rw [List.mem_append, not_or, List.map_cons, List.mem_cons, not_or] at hnew
      exact Proc.sat_bind.mpr (hstep id hne hnew.1 hnew.2.2)
    · exact Proc.sat_bind.mpr (hstep call.id (hr call List.mem_cons_self).id
        (hf call List.mem_cons_self) hd.1)

/-! ## Acting on a decision -/

theorem actInvalid_does (hemit : U.Emits emit) (before code content : String) (h : U.At g s)
    (hi : Idle s) : U.Does (e.actInvalid emit before code content) g s fun _ s' _ => Settled s' := by
  unfold Engine.actInvalid
  refine incrementInvalid_bind h hi fun s₁ reached h₁ hs₁ => ?_
  refine say_bind h₁ hs₁ (by decide) fun s₂ h₂ hc₂ => does_get_bind ?_
  have hs₂ : Settled s₂ := (congrArg (·.pendingToolCalls) hc₂).trans hs₁
  refine does_bind (checkpoint_keeps hemit h₂ (harmless_interim _ _)) fun g₃ s₃ _ h₃ ht₃ => ?_
  refine does_bind (reportInvalidLimit_keeps hemit reached h₃) fun g₄ s₄ _ h₄ ht₄ => ?_
  exact observeProgress_does hemit before h₄ (hs₂.of_task (ht₄.trans ht₃))

theorem rejectAnswer_does (hemit : U.Emits emit) (before answer : String) (errors : List String)
    (h : U.At g s) (hi : Idle s) :
    U.Does (e.rejectAnswer emit before answer errors) g s fun _ s' _ => Settled s' := by
  unfold Engine.rejectAnswer
  refine does_get_bind (say_bind h hi.settled (by decide) fun s₁ h₁ hc₁ => ?_)
  have hi₁ : Idle s₁ := ⟨(congrArg (·.status) hc₁).trans hi.active,
    (congrArg (·.pendingToolCalls) hc₁).trans hi.settled⟩
  refine say_bind h₁ hi₁.settled (by decide) fun s₂ h₂ hc₂ => ?_
  have hi₂ : Idle s₂ := ⟨(congrArg (·.status) hc₂).trans hi₁.active,
    (congrArg (·.pendingToolCalls) hc₂).trans hi₁.settled⟩
  refine does_bind (checkpoint_keeps hemit h₂ (harmless_interim _ _)) fun g₃ s₃ _ h₃ ht₃ => ?_
  refine incrementInvalid_bind h₃ (hi₂.of_task ht₃) fun s₄ reached h₄ hs₄ => ?_
  refine does_bind (reportInvalidLimit_keeps hemit reached h₄) fun g₅ s₅ _ h₅ ht₅ => ?_
  exact observeProgress_does hemit before h₅ (hs₄.of_task ht₅)

theorem acceptAnswer_does (hemit : U.Emits emit) (answer : String) (h : U.At g s) (hi : Idle s)
    (haccepts : e.Accepts s.workflow s.completionArtifacts answer) :
    U.Does (Engine.acceptAnswer emit answer) g s fun _ s' _ => Settled s' := by
  unfold Engine.acceptAnswer
  have hcomplete : U.At g (Engine.completeWith answer s) :=
    h.becomes ⟨rfl, ⟨rfl, rfl, rfl, rfl⟩, rfl⟩ (.complete hi.settled hi.active haccepts)
  have hs : Settled (Engine.completeWith answer s) := hi.settled
  refine does_modify_bind ?_
  refine say_bind hcomplete hs (by decide) fun s₁ h₁ hc₁ => ?_
  have hs₁ : Settled s₁ := (congrArg (·.pendingToolCalls) hc₁).trans hs
  have h₂ : U.At g { s₁ with noProgressSteps := 0 } :=
    h₁.becomes ⟨rfl, ⟨rfl, rfl, rfl, rfl⟩, rfl⟩ (.progress 0)
  refine does_modify_bind ?_
  refine Does.mono (checkpoint_keeps hemit h₂ (U.harmless (harmless_plain rfl))) ?_
  exact fun g₃ s₃ _ _ ht₃ => (congrArg Task.pendingToolCalls ht₃).trans hs₁

/-- The program is named, because a unifier would compute the errors of the answer. -/
theorem actFinal_does (hemit : U.Emits emit) (before answer : String) {f : EngineM Unit}
    (hf : f = e.actFinal emit before answer) (h : U.At g s) (hi : Idle s) :
    U.Does f g s fun _ s' _ => Settled s' := by
  subst hf
  unfold Engine.actFinal Does Proc.Sat
  rw [EngineM.get, Proc.state_bind_apply]
  dsimp only
  generalize herrors : e.completionErrors s answer = errors
  cases errors with
  | cons error errors => exact rejectAnswer_does hemit before answer (error :: errors) h hi
  | nil =>
    by_cases hcomplete : e.complete s = true
    · rw [if_neg (by simp), if_pos hcomplete]
      exact acceptAnswer_does hemit answer h hi ⟨s, rfl, rfl, hcomplete, herrors⟩
    · rw [if_neg (by simp), if_neg hcomplete]
      exact ⟨h, hi.settled⟩

theorem actTools_does (hemit : U.Emits emit) (before : String) (content : Option String)
    {calls : List Call} (h : U.At g s) (hi : Idle s) (hne : calls ≠ []) (hd : Distinct calls)
    (hr : ∀ call ∈ calls, e.Readable call) :
    U.Does (e.actTools emit before content calls) g s fun _ s' _ => Settled s' := by
  unfold Engine.actTools
  refine does_get_bind (U.sat_request_bind rfl rfl fun found _ => ?_)
  have hfound : U.Does (Proc.ofExcept (found.mapError SqlError.message)) g s
      fun g' s' _ => g' = g ∧ s' = s :=
    does_ofExcept h (fun _ _ => ⟨rfl, rfl⟩) fun m _ => h.fails hi.active m
  refine does_bind hfound ?_
  rintro g₀ s₀ historical - ⟨rfl, rfl⟩
  refine Proc.sat_bind.mpr (Proc.Sat.mono (renewIds_sat U historical hr hd.1 (by simp)) ?_
    fun _ _ _ => False.elim)
  rintro g₁ s₁ renewed ⟨rfl, rfl, hn⟩
  have hne' : renewed ≠ [] := by
    rintro rfl
    exact hne (List.length_eq_zero_iff.1 hn.length.symm)
  refine appendMessage_bind fun s₂ hb => does_modify_bind ?_
  have hschedule : Becomes s₁ (s₁.core.schedule content renewed) (Engine.scheduleCalls renewed s₂) := by
    refine ⟨?_, ⟨hb.journal.counts, hb.journal.events, hb.journal.attempts, hb.journal.decisions⟩,
      hb.reload⟩
    have hcore : (Engine.scheduleCalls renewed s₂).core = { s₂.core with
        pendingToolPhase := s₂.core.activePhase
        pendingToolCalls := renewed.map Call.toValue } := rfl
    rw [hcore, hb.core]
    rfl
  have h₂ : U.At g₁ (Engine.scheduleCalls renewed s₂) := h.becomes hschedule
    (.schedule content hi.settled hi.active hne' ⟨hn.nodup, fun c hc => (hn.readable c hc).id⟩
      hn.readable)
  have hactive : (Engine.scheduleCalls renewed s₂).status = .active :=
    (congrArg (·.status) hschedule.core).trans hi.active
  refine does_bind (checkpoint_keeps hemit h₂ (U.harmless (harmless_plain rfl)))
    fun g₃ s₃ _ h₃ ht₃ => ?_
  refine does_bind (settlePending_does hemit h₃ ((Session.status_of_task ht₃).trans hactive))
    fun g₄ s₄ _ h₄ hs₄ => ?_
  exact observeProgress_does hemit before h₄ hs₄

theorem act_does (hemit : U.Emits emit) (before : String) {d : Decision} (h : U.At g s) (hi : Idle s)
    (hd : d.Usable e) : U.Does (e.act emit before d) g s fun _ s' _ => Settled s' := by
  generalize hf : e.act emit before d = f
  cases d with
  | invalid code content =>
    subst hf
    exact actInvalid_does hemit before code content h hi
  | final content => exact actFinal_does hemit before content hf.symm h hi
  | tools content calls =>
    subst hf
    exact actTools_does hemit before content h hi hd.1 hd.2.1 hd.2.2

theorem reportDecision_keeps (hemit : U.Emits emit) (diagnostics : List Value) (h : U.At g s) :
    U.Keeps (Engine.reportDecision emit diagnostics) g s := by
  induction diagnostics generalizing g s with
  | nil => exact keeps_pure h
  | cons diagnostic rest ih =>
    have h₁ : U.At g { s with
        modelRequestDiagnostics := s.modelRequestDiagnostics ++ [diagnostic] } :=
      h.alike ⟨rfl, ⟨rfl, rfl, rfl, rfl⟩, rfl, rfl⟩
    unfold Engine.reportDecision
    refine keeps_modify_bind rfl ?_
    refine keeps_bind (checkpoint_keeps hemit h₁ (U.harmless (harmless_plain rfl))) ?_
    exact fun g' s' _ h' _ => ih h'

theorem decideAndAct_does (hemit : U.Emits emit) (h : U.At g s) (hi : Idle s) (hready : e.Ready s) :
    U.Does (e.decideAndAct emit) g s fun _ s' _ => Settled s' := by
  unfold Engine.decideAndAct
  refine does_get_bind (does_bind (checkpoint_keeps hemit h (U.harmless (harmless_plain rfl)))
    fun g₁ s₁ _ h₁ ht₁ => does_get_bind ?_)
  have hi₁ := hi.of_task ht₁
  refine Proc.sat_bind.mpr (Proc.sat_lift.mpr (Program.Sat.mono
    (decide_sat U (hready.of_task ht₁)) ?_))
  rintro _ decided ⟨rfl, hdecided⟩
  cases decided with
  | error m => exact ⟨h₁, h₁.fails hi₁.active m⟩
  | ok out =>
    obtain ⟨d, diagnostics⟩ := out
    have hd := hdecided d diagnostics rfl
    refine Proc.sat_bind.mpr ((Proc.sat_ofExcept_ok _).mpr ?_)
    show U.Does (Engine.reportDecision emit diagnostics >>= _) _ _ _
    refine does_bind (reportDecision_keeps hemit diagnostics h₁) fun g₂ s₂ _ h₂ ht₂ => ?_
    have h₃ : U.At g₂ { s₂ with stepCount := s₂.stepCount + 1 } :=
      h₂.alike ⟨rfl, ⟨rfl, rfl, rfl, rfl⟩, rfl, rfl⟩
    refine does_modify_bind (archiveRecord_bind fun s₄ halike => ?_)
    have hi₄ : Idle s₄ := Idle.of_core (hi₁.of_task ht₂) halike.core
    exact act_does hemit _ (h₃.alike halike) hi₄ hd

/-! ## The loop -/

theorem advance_becomes (e : Engine) (s : Session) :
    Becomes s { s.core with workflow := e.advanced s.core.workflow } (e.advance s).2 := by
  have hworkflow : s.core.workflow = s.workflow := rfl
  rw [Engine.advance, Engine.advanced, hworkflow]
  cases e.config.workflow with
  | none => exact ⟨rfl, ⟨rfl, rfl, rfl, rfl⟩, rfl⟩
  | some config => exact ⟨rfl, ⟨rfl, rfl, rfl, rfl⟩, rfl⟩

theorem reportAdvance_keeps (hemit : U.Emits emit) (t : Option Transition) (h : U.At g s) :
    U.Keeps (Engine.reportAdvance emit t) g s := by
  cases t with
  | none => exact keeps_pure h
  | some t => exact checkpoint_keeps hemit h (U.harmless (harmless_plain rfl))

theorem reportCompaction_keeps (hemit : U.Emits emit) (changed : Bool) (h : U.At g s) :
    U.Keeps (Engine.reportCompaction emit changed) g s := by
  cases changed with
  | false => exact keeps_pure h
  | true => exact does_get_bind (checkpoint_keeps hemit h (harmless_interim _ _))

theorem reportDiagnostics_keeps (hemit : U.Emits emit) (diagnostics : List Value) (h : U.At g s) :
    U.Keeps (Engine.reportDiagnostics emit diagnostics) g s := by
  induction diagnostics generalizing g s with
  | nil => exact keeps_pure h
  | cons diagnostic rest ih =>
    unfold Engine.reportDiagnostics
    refine keeps_bind (checkpoint_keeps hemit h (U.harmless (harmless_plain rfl))) ?_
    exact fun g' s' _ h' _ => ih h'

/-- After a compaction the next request can be sent, or its failure may be reported. -/
theorem compactAndReport_does (hemit : U.Emits emit) (h : U.At g s) (hi : Idle s) :
    U.Does (e.compactAndReport emit) g s fun _ s' out => Idle s' ∧
      (out = .ok () → e.Ready s') ∧ ∀ m, out = .error m → U.Reportable m := by
  unfold Engine.compactAndReport
  refine Proc.sat_bind.mpr (Proc.sat_attempt.mpr (Proc.Sat.mono (compact_compacts h hi) ?_ ?_))
  · rintro g₁ s₁ changed ⟨⟨h₁, hi₁⟩, hready⟩
    refine does_bind (reportCompaction_keeps hemit changed h₁) fun g₂ s₂ _ h₂ ht₂ => ?_
    exact ⟨h₂, hi₁.of_task ht₂, fun _ => hready.of_task ht₂, nofun⟩
  · rintro g₁ s₁ m ⟨⟨h₁, hi₁⟩, hreport⟩
    refine ⟨h₁, hi₁, nofun, fun m' hm => ?_⟩
    rwa [← Except.error.inj hm]

theorem failCompaction_does (hemit : U.Emits emit) {m : String} (h : U.At g s) (hi : Idle s)
    (hreport : U.Reportable m) :
    U.Does (Engine.failCompaction emit m) g s fun _ s' _ => Settled s' := by
  have hfail := h.failWith (.inl hi.active) m
  unfold Engine.failCompaction
  refine does_modify_bind ?_
  refine Does.mono (checkpoint_keeps hemit hfail ?_) fun _ _ _ _ ht =>
    (congrArg Task.pendingToolCalls ht).trans hi.settled
  rcases hreport with hplain | hall
  · rw [hplain, if_neg Bool.false_ne_true]
    exact harmless_error _ (by decide)
  · exact hall _

theorem round_does (hemit : U.Emits emit) (h : U.At g s) (hi : Idle s) :
    U.Does (e.round emit) g s fun _ s' _ => Settled s' := by
  have hadvance := advance_becomes e s
  have h₁ := h.becomes hadvance (.advance hi.settled hi.active)
  have hi₁ : Idle (e.advance s).2 := ⟨(congrArg (·.status) hadvance.core).trans hi.active,
    (congrArg (·.pendingToolCalls) hadvance.core).trans hi.settled⟩
  unfold Engine.round
  refine does_swap_bind (does_bind (reportAdvance_keeps hemit _ h₁) fun g₂ s₂ _ h₂ ht₂ => ?_)
  refine does_get_bind (does_bind (compactAndReport_does hemit h₂ (hi₁.of_task ht₂))
    fun g₃ s₃ out h₃ hout => does_get_bind ?_)
  obtain ⟨hi₃, hready, hreport⟩ := hout
  refine does_bind (reportDiagnostics_keeps hemit _ h₃) fun g₄ s₄ _ h₄ ht₄ => ?_
  cases out with
  | error m =>
    refine does_bind (failCompaction_does hemit h₄ (hi₃.of_task ht₄) (hreport m rfl)) ?_
    exact fun g₅ s₅ _ h₅ hs₅ => does_pure h₅ hs₅
  | ok u =>
    refine does_bind (decideAndAct_does hemit h₄ (hi₃.of_task ht₄) ((hready rfl).of_task ht₄)) ?_
    exact fun g₅ s₅ _ h₅ hs₅ => does_pure h₅ hs₅

theorem rounds_does (hemit : U.Emits emit) (limit : Int) (fuel : Nat) (h : U.At g s)
    (hs : Settled s) : U.Does (e.rounds emit limit fuel) g s fun _ s' _ => Settled s' := by
  induction fuel generalizing g s with
  | zero => exact does_pure h hs
  | succ fuel ih =>
    unfold Engine.rounds
    refine does_get_bind ?_
    split
    · next hgo =>
      refine does_bind (round_does hemit h ⟨hgo.1, hs⟩) fun g₁ s₁ goes h₁ hs₁ => ?_
      split
      · exact ih h₁ hs₁
      · exact does_pure h₁ hs₁
    · exact does_pure h hs

theorem limitSteps_does (hemit : U.Emits emit) (cap limit : Int) (h : U.At g s) (hs : Settled s) :
    U.Does (Engine.limitSteps emit cap limit) g s fun _ s' _ => Settled s' := by
  unfold Engine.limitSteps
  refine does_get_bind ?_
  split
  · next hlimit =>
    refine does_modify_bind ?_
    refine Does.mono (checkpoint_keeps hemit ?_ (harmless_error _ (by decide))) fun _ _ _ _ ht =>
      (congrArg Task.pendingToolCalls ht).trans hs
    exact h.becomes ⟨rfl, ⟨rfl, rfl, rfl, rfl⟩, rfl⟩ (.fail _ (some "step_limit") (.inl hlimit.1))
  · exact does_pure h hs

theorem settleLeft_does (hemit : U.Emits emit) (h : U.At g s) (ha : s.status = .active) :
    U.Does (e.settleLeft emit) g s fun _ s' _ => Settled s' := by
  unfold Engine.settleLeft
  refine does_get_bind ?_
  split
  · next hempty => exact does_pure h (by simpa using hempty)
  · refine does_bind (settlePending_does hemit h ha) fun g₁ s₁ _ h₁ hs₁ => ?_
    exact observeProgress_does hemit _ h₁ hs₁

/-- The end of a run seals its outcome. -/
theorem finishRun_at (h : U.At g s) (now : String) : U.At g (Engine.finishRun now s) := by
  unfold Engine.finishRun
  by_cases hdecided : s.status ≠ .active ∧ s.runStatus = .running
  · have hstatus : (if s.status = .complete then RunStatus.complete else .failed) ≠ .running := by
      split <;> decide
    have hseal : U.At g { s with
        runStatus := if s.status = .complete then .complete else .failed
        runEndedAt := s.runEndedAt <|> some now
        runTerminationReason := s.runTerminationReason <|> some
          (if s.status = .complete then RunStatus.complete else .failed).text } := by
      refine h.becomes ⟨?_, ⟨rfl, rfl, rfl, rfl⟩, rfl⟩ (.seal
        (if s.status = .complete then RunStatus.complete else .failed).text (.inl hdecided.1))
      show Core.mk _ _ _ = Core.mk _ _ _
      congr 1
      exact (if_pos hdecided.2).symm
    rw [if_pos hdecided]
    dsimp only
    rwa [if_neg hstatus]
  · rw [if_neg hdecided]
    dsimp only
    split
    · exact h
    · next hended =>
      refine h.becomes ⟨?_, ⟨rfl, rfl, rfl, rfl⟩, rfl⟩ (.seal s.runStatus.text (.inr hended))
      show Core.mk _ _ _ = Core.mk _ _ _
      congr 1
      exact (if_neg hended).symm

/-- A run keeps the property up that its beginning has. -/
theorem run_does (hemit : U.Emits emit) (max : Option Int) (ha : s.status = .active)
    (h : ∀ run now, run ∉ s.runId.toList → U.At g (e.startRun run now s)) :
    U.Does (e.run emit max) g s fun _ _ _ => True := by
  unfold Engine.run
  refine does_get_bind ?_
  cases hlimit : e.host.i64 (s.stepCount + e.runAllowance max) with
  | none => exact ⟨U.quiet rfl, fun r => nomatch r⟩
  | some limit =>
    refine U.sat_request_bind rfl rfl fun run hrun => U.sat_request_bind rfl rfl fun now _ => ?_
    have h₀ := h run now hrun.1.1
    refine does_modify_bind (archiveRecord_bind fun s₁ halike => does_get_bind ?_)
    have h₁ := h₀.alike halike
    have ha₁ : s₁.status = .active := (congrArg (·.status) halike.core).trans ha
    refine does_bind (checkpoint_keeps hemit h₁ (U.harmless (harmless_plain rfl)))
      fun g₂ s₂ _ h₂ ht₂ => ?_
    refine does_bind (settleLeft_does hemit h₂ ((Session.status_of_task ht₂).trans ha₁))
      fun g₃ s₃ _ h₃ hs₃ => ?_
    refine does_bind (rounds_does hemit limit _ h₃ hs₃) fun g₄ s₄ _ h₄ hs₄ => ?_
    refine does_bind (limitSteps_does hemit _ limit h₄ hs₄) fun g₅ s₅ _ h₅ _ => ?_
    exact U.sat_request_bind rfl rfl fun now _ => does_modify (finishRun_at h₅ now) trivial

end Upkeep

end StateDrivenAgent
