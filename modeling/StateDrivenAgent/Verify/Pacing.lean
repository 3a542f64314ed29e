import StateDrivenAgent.Interaction.Invariant
import StateDrivenAgent.Agent.Run
import StateDrivenAgent.Server.Handlers

/-!
# What the run loop decides by

Between two decisions the run reports, archives, compacts and executes calls. None of this touches
the fields the loop decides by (`Session.standing`), and none of it is an effect that paces the run:
the request for a decision, the execution of a call, the observation of progress. So a ghost state
that only these move stays where it is (`Calm`), and what is left to look at is the loop itself.
-/

namespace StateDrivenAgent

open Interaction

/-- The fields of a session the run loop decides by. -/
structure Standing where
  status : Status
  stepCount : Int
  consecutiveInvalidResponses : Nat
  noProgressSteps : Nat
  workflow : Option Workflow
  completionArtifacts : Value
  progressSeenOutputs : List String
  finalAnswer : Option String
  pendingToolCalls : List Value
  pendingToolPhase : Option String

def Session.standing (s : Session) : Standing :=
  { status := s.status, stepCount := s.stepCount
    consecutiveInvalidResponses := s.consecutiveInvalidResponses
    noProgressSteps := s.noProgressSteps, workflow := s.workflow
    completionArtifacts := s.completionArtifacts, progressSeenOutputs := s.progressSeenOutputs
    finalAnswer := s.finalAnswer, pendingToolCalls := s.pendingToolCalls
    pendingToolPhase := s.pendingToolPhase }

/-- The request for a decision, at the first of the completion routes, and the marks of the loop. -/
def Engine.paces (e : Engine) : Eff → Bool
  | .httpPost url payload => (payload.get "tool_choice").isSome && e.completionUrls.head? = some url
  | .mark (.executed ..) | .mark (.observing ..) => true
  | _ => false

/-- A property of the ghost state that no effect moves except those that pace the run. -/
structure Calm {G : Type} (e : Engine) (M : Monitor Eff Reply G) (K : G → Prop) : Prop where
  must : ∀ g x, K g → e.paces x = false → M.must g x
  next : ∀ g x r, K g → e.paces x = false → M.may g x r → K (M.next g x r)

/-- The callback performs no effect that paces the run. -/
def Hushed {G : Type} (M : Monitor Eff Reply G) (K : G → Prop) (emit : Emit) : Prop :=
  ∀ event s g, K g → (emit event s).Sat M g fun g' _ => K g'

section frames

variable {G : Type} {e : Engine} {M : Monitor Eff Reply G} {K : G → Prop} {emit : Emit}

/-- The program leaves the standing of the session alone. -/
def Rests (M : Monitor Eff Reply G) (K : G → Prop) {α : Type} (f : EngineM α) : Prop :=
  ∀ x, Proc.Keeps M (fun g s => K g ∧ s.standing = x) f

/-- The program leaves the standing of the session alone unless it fails. -/
def Ends (M : Monitor Eff Reply G) (K : G → Prop) {α : Type} (f : EngineM α) : Prop :=
  ∀ x, Proc.Leads M (fun g s => K g ∧ s.standing = x) (fun g _ => K g) f

namespace Rests

variable {α β : Type}

theorem bind {f : EngineM α} {k : α → EngineM β} (hf : Rests M K f) (hk : ∀ a, Rests M K (k a)) :
    Rests M K (f >>= k) := fun x => Proc.keeps_bind (hf x) fun a => hk a x

theorem pure (a : α) : Rests M K (Pure.pure a : EngineM α) := fun _ => Proc.keeps_pure a

theorem get : Rests M K EngineM.get := fun _ => Proc.keeps_state

theorem fail (x : String) : Rests M K (Proc.fail x : EngineM α) := fun _ => Proc.keeps_fail x

theorem ofExcept (x : Except String α) : Rests M K (Proc.ofExcept x : EngineM α) := fun _ =>
  Proc.keeps_ofExcept x

theorem modify {f : Session → Session} (hf : ∀ s, (f s).standing = s.standing) :
    Rests M K (EngineM.modify f) := fun _ =>
  Proc.keeps_update fun _ s h => ⟨h.1, (hf s).trans h.2⟩

theorem op {f : StateOp} (hf : ∀ s, (f s).2.standing = s.standing) : Rests M K (EngineM.op f) :=
  fun _ _ s h => Proc.sat_step (fun _ _ => ⟨h.1, (hf s).trans h.2⟩) fun _ _ =>
    ⟨h.1, (hf s).trans h.2⟩

theorem request (hK : Calm e M K) {x : Eff} (hx : e.paces x = false) :
    Rests M K (Proc.request x : EngineM (Reply x)) := fun _ =>
  Proc.keeps_request fun g _ h =>
    ⟨hK.must g x h.1 hx, fun r hr => ⟨hK.next g x r h.1 hx hr, h.2⟩⟩

theorem attempt {f : EngineM α} (hf : Rests M K f) : Rests M K (Proc.attempt f) := fun x =>
  Proc.keeps_attempt (hf x)

theorem lift {p : Prog α} (hp : ∀ g, K g → p.Sat M g fun g' _ => K g') :
    Rests M K (Proc.lift p) := fun _ g _ h =>
  Proc.sat_lift.2 ((hp g h.1).mono fun _ _ hg => ⟨hg, h.2⟩)

theorem i64 (hK : Calm e M K) (x : Option α) : Rests M K (EngineM.i64 x) := by
  cases x with
  | some a => exact .pure a
  | none => exact fun _ g _ h => ⟨hK.must g .panic h.1 rfl, fun r => nomatch r⟩

theorem ends {f : EngineM α} (hf : Rests M K f) : Ends M K f := fun x =>
  (hf x).leads fun _ _ h => h.1

end Rests

/-- The program fails. -/
def Fails (M : Monitor Eff Reply G) (K : G → Prop) {α : Type} (f : EngineM α) : Prop :=
  ∀ g s, K g → Proc.Sat M f g s (fun _ _ _ => False) fun g' _ _ => K g'

namespace Fails

variable {α β : Type}

theorem fail (x : String) : Fails M K (Proc.fail x : EngineM α) := fun _ _ h => h

theorem bind {f : EngineM α} {k : α → EngineM β} (hf : Rests M K f) (hk : ∀ a, Fails M K (k a)) :
    Fails M K (f >>= k) := fun g s h =>
  Proc.sat_bind.2 ((hf s.standing g s ⟨h, rfl⟩).mono (fun g' s' a h' => hk a g' s' h'.1)
    fun _ _ _ h' => h'.1)

theorem modify_bind {f : Session → Session} {k : Unit → EngineM β} (hk : ∀ a, Fails M K (k a)) :
    Fails M K (EngineM.modify f >>= k) := fun g s h => hk () g (f s) h

theorem ends {f : EngineM α} (hf : Fails M K f) : Ends M K f := fun _ g s h =>
  (hf g s h.1).mono (fun _ _ _ hfalse => hfalse.elim) fun _ _ _ hg => hg

end Fails

namespace Ends

variable {α β : Type}

theorem bind {f : EngineM α} {k : α → EngineM β} (hf : Ends M K f) (hk : ∀ a, Ends M K (k a)) :
    Ends M K (f >>= k) := fun x => Proc.leads_bind (hf x) fun a => hk a x

theorem after {f : EngineM α} {k : α → EngineM β} (hf : Rests M K f) (hk : ∀ a, Ends M K (k a)) :
    Ends M K (f >>= k) := .bind hf.ends hk

end Ends

/-! ## Records and checkpoints -/

theorem archiveRecord_rests (hK : Calm e M K) (kind : String) (payload : Value) :
    Rests M K (archiveRecord kind payload) :=
  .bind (.request hK rfl) fun _ => .bind (.request hK rfl) fun _ => .modify fun _ => rfl

theorem appendMessage_rests (hK : Calm e M K) (body : MessageBody) :
    Rests M K (appendMessage body) :=
  .bind (.request hK rfl) fun _ => .bind (.request hK rfl) fun _ => .modify fun _ => rfl

namespace Diagnostics

theorem andThen_standing {f h : StateOp} (hf : ∀ s, (f s).2.standing = s.standing)
    (hh : ∀ s, (h s).2.standing = s.standing) (s : Session) :
    (f.andThen h s).2.standing = s.standing := by
  have hs := hf s
  unfold StateOp.andThen
  split
  next s' hfs =>
    rw [hfs] at hs
    exact (hh s').trans hs
  next x s' hfs =>
    rw [hfs] at hs
    exact hs

theorem tally_standing (payload : Value) (s : Session) :
    (tally payload s).standing = s.standing := by
  unfold tally
  split
  · rfl
  · split <;> rfl

theorem cache_standing {family : String} {payload : Value} {s s' : Session}
    (h : cache family payload s = .ok s') : s'.standing = s.standing := by
  unfold cache at h
  split_ifs at h
  · split at h
    · cases h
      rfl
    · cases h
  · cases h
    exact tally_standing payload s
  · cases h
    rfl

theorem append_standing (family : String) (payload : Value) (s : Session) :
    (append family payload s).2.standing = s.standing := by
  unfold append
  dsimp only
  split_ifs
  · rfl
  · split
    · rfl
    next s' h =>
      have hs := cache_standing h
      exact hs

theorem appendAll_standing (family : String) (payloads : List Value) (s : Session) :
    (appendAll family payloads s).2.standing = s.standing := by
  induction payloads generalizing s with
  | nil => rfl
  | cons payload payloads ih => exact andThen_standing (append_standing family payload) ih s

theorem stage_standing (s : Session) : (stage s).2.standing = s.standing := by
  unfold stage
  split_ifs
  · rfl
  · exact andThen_standing (appendAll_standing _ _)
      (andThen_standing (appendAll_standing _ _) (appendAll_standing _ _)) _

theorem record_standing (family : String) (payload : Value) (s : Session) :
    (record family payload s).2.standing = s.standing := by
  unfold record
  split_ifs
  · rfl
  · rfl
  · exact andThen_standing stage_standing (append_standing family payload) s

end Diagnostics

theorem record_rests (family : String) (payload : Value) :
    Rests M K (EngineM.record family payload) :=
  .op (Diagnostics.record_standing family payload)

theorem acknowledged_standing (s : Session) : (acknowledged s).2.standing = s.standing := by
  have hack : (acknowledgeCheckpoint s).standing = s.standing := by
    unfold acknowledgeCheckpoint
    split <;> rfl
  unfold acknowledged
  dsimp only
  split_ifs
  · exact hack
  · exact hack

theorem emit_rests (hemit : Hushed M K emit) (event : Value) :
    Rests M K (EngineM.emit emit event) := by
  intro x g s h
  refine Program.sat_bind.2 ((hemit event s g h.1).mono fun g' out hg => ?_)
  cases out.1 with
  | ok u => exact ⟨hg, h.2⟩
  | error problem => exact ⟨hg, h.2⟩

theorem sealOutcome_standing (now : String) (s : Session) :
    (sealOutcome now s).standing = s.standing := by
  unfold sealOutcome
  split_ifs <;> rfl

/-- A checkpoint. -/
theorem checkpoint_rests (hK : Calm e M K) (hemit : Hushed M K emit) (event : Value) :
    Rests M K (checkpoint emit event) :=
  .bind (.request hK rfl) fun now => .bind (.modify (sealOutcome_standing now)) fun _ =>
    .bind (.op Diagnostics.stage_standing) fun _ => .bind (emit_rests hemit event) fun _ =>
      .op acknowledged_standing

/-! ## Compaction -/

section compaction

variable (hK : Calm e M K)

include hK

theorem requestBudget_rests (s : Session) : Rests M K (e.requestBudget s) :=
  .bind (.ofExcept _) fun _ => .bind (.ofExcept _) fun _ => .i64 hK _

theorem diagnosed_calm {payload : Value} {diagnostics : List Value} {elapsed : Int}
    {status : Option Nat} {failure : Option String} {usage : Option Value}
    {next : List Value → Prog Engine.Exchange}
    (hnext : ∀ diagnostics g, K g → (next diagnostics).Sat M g fun g' _ => K g') (g : G) (hg : K g) :
    (e.diagnosed payload diagnostics elapsed status failure usage next).Sat M g fun g' _ => K g' := by
  unfold Engine.diagnosed
  cases e.requestDiagnostic payload elapsed status failure usage with
  | none => exact ⟨hK.must g .panic hg rfl, fun r => nomatch r⟩
  | some diagnostic => exact hnext _ g hg

theorem failExchange_calm {payload : Value} {diagnostics : List Value} {elapsed : Int}
    {status : Option Nat} {code : String} (g : G) (hg : K g) :
    (e.failExchange payload diagnostics elapsed status code).Sat M g fun g' _ => K g' := by
  refine diagnosed_calm hK (fun _ g h => ?_) g hg
  exact h

/-- An exchange over calm routes. -/
theorem postTo_calm {payload : Value} {urls : List String} {diagnostics : List Value}
    (hurls : ∀ url ∈ urls, e.paces (.httpPost url payload) = false) (g : G) (hg : K g) :
    (e.postTo payload urls diagnostics).Sat M g fun g' _ => K g' := by
  induction urls generalizing diagnostics g with
  | nil => exact hg
  | cons url urls ih =>
    obtain ⟨hurl, hrest⟩ := List.forall_mem_cons.1 hurls
    refine ⟨hK.must g _ hg hurl, fun r hr => ?_⟩
    have hg' := hK.next g _ r hg hurl hr
    cases r with
    | timeout => exact failExchange_calm hK _ hg'
    | transport => exact failExchange_calm hK _ hg'
    | broken => exact failExchange_calm hK _ hg'
    | response elapsed status body =>
      refine diagnosed_calm hK (fun diagnostics g h => ?_) _ hg'
      split
      · exact ih hrest g h
      · split <;> exact h

theorem compactClient_calm {payload : Value} (hpayload : payload.get "tool_choice" = none) (g : G)
    (hg : K g) : (e.compactClient payload).Sat M g fun g' _ => K g' := by
  have hquiet : ∀ url, e.paces (.httpPost url payload) = false := by
    intro url
    rw [Engine.paces, hpayload]
    rfl
  refine Program.sat_bind.2 ((postTo_calm hK (fun url _ => hquiet url) g hg).mono ?_)
  rintro g' ⟨reply, diagnostics⟩ h
  cases reply with
  | error problem => exact h
  | ok value =>
    dsimp only
    split <;> exact h

theorem acceptSummary_rests (p : Engine.Pass) (attempt : Int) (text : String) (ledger : Ledger)
    (canonical : String) (after : RequestBudget) :
    Rests M K (Engine.acceptSummary p attempt text ledger canonical after) := by
  refine .bind .get fun _ => .bind (.request hK rfl) fun _ => .bind (.modify fun _ => rfl) fun _ => ?_
  refine .bind (record_rests _ _) fun _ => .bind (.modify fun _ => rfl) fun _ => .bind .get fun _ => ?_
  refine .bind (record_rests _ _) fun _ => .bind (.modify fun _ => rfl) fun _ => ?_
  exact record_rests _ _

theorem judgeProposal_rests (p : Engine.Pass) (attempt : Int) (failure proposal : Option String) :
    Rests M K (e.judgeProposal p attempt failure proposal) := by
  have hledger : ∀ text ledger canonical,
      Rests M K (e.judgeLedger p attempt text ledger canonical) := by
    intro text ledger canonical
    refine .bind .get fun s => .bind (requestBudget_rests hK _) fun after => ?_
    dsimp only
    split
    · exact .pure _
    · split
      · exact .pure _
      · exact .bind (acceptSummary_rests hK _ _ _ _ _ _) fun _ => .pure _
  refine .bind .get fun s => ?_
  dsimp only
  split
  · exact .pure _
  · split
    · exact .pure _
    · split
      · exact .pure _
      · exact hledger _ _ _

theorem attempts_rests (p : Engine.Pass) (left : Nat) (used : Int) (correction : Option String)
    (reason : String) : Rests M K (e.attempts p left used correction reason) := by
  induction left generalizing used correction reason with
  | zero => exact .pure _
  | succ left ih =>
    refine .bind .get fun s => .bind (.i64 hK _) fun budget => ?_
    split
    · exact .pure _
    · refine .bind (.modify fun _ => rfl) fun _ => .bind (.lift (compactClient_calm hK rfl)) fun out => ?_
      refine .bind (.modify fun _ => rfl) fun _ => ?_
      refine .bind (judgeProposal_rests hK _ _ _ _) fun rejected => ?_
      cases rejected with
      | none => exact .pure _
      | some reason =>
        refine .bind (.bind (archiveRecord_rests hK _ _) fun _ => record_rests _ _) fun _ => ?_
        exact ih _ _ _

omit hK in
theorem giveUp_rests (hard : Bool) (measured : RequestBudget) (assessment : Value)
    (reason : String) : Rests M K (e.giveUp hard measured assessment reason) := by
  refine .bind (record_rests _ _) fun _ => ?_
  split
  · exact .fail _
  · exact .pure _

theorem selectPrefix_rests (s : Session) (fuel : Nat) (old tail : List Context.HistoryGroup) :
    Rests M K (e.selectPrefix s fuel old tail) := by
  induction fuel generalizing old tail with
  | zero => exact .pure _
  | succ fuel ih =>
    refine .bind (.i64 hK _) fun budget => ?_
    split
    · exact .pure _
    · split
      · exact .pure _
      · exact ih _ _

theorem summarize_rests (p : Engine.Pass) (groups : Nat) (used : Int) (assessment : Value) :
    Rests M K (e.summarize p groups used assessment) := by
  refine .bind (record_rests _ _) fun _ => .bind (attempts_rests hK _ _ _ _ _) ?_
  rintro ⟨used, rejected⟩
  cases rejected with
  | some reason =>
    refine .bind ?_ fun _ => .pure _
    refine .bind (.modify fun _ => rfl) fun _ => .bind .get fun _ => ?_
    exact .bind (record_rests _ _) fun _ => .pure _
  | none => exact .bind .get fun _ => .pure _

theorem weigh_rests (number : Int) (hard : Bool) (measured : RequestBudget) (pressure : F64)
    (assessment : Value) (old tail : List Context.HistoryGroup) (used : Int) :
    Rests M K (e.weigh number hard measured pressure assessment old tail used) := by
  have hskip : ∀ assessment reason more,
      Rests M K (Engine.skip assessment reason more) := fun _ _ _ => record_rests _ _
  refine .bind .get fun s => .bind (requestBudget_rests hK _) fun floor => ?_
  dsimp only
  split
  · exact .bind (hskip _ _ _) fun _ => .pure _
  · split
    · exact .bind (hskip _ _ _) fun _ => .pure _
    · split
      · exact .bind (hskip _ _ _) fun _ => .pure _
      · exact summarize_rests hK _ _ _ _

theorem duePass_rests (number : Int) (measured : RequestBudget) (grown : Bool) (used : Int) :
    Rests M K (e.duePass number measured grown used) := by
  have hskip : ∀ assessment reason more,
      Rests M K (Engine.skip assessment reason more) := fun _ _ _ => record_rests _ _
  refine .bind .get fun s => .bind (.i64 hK _) fun limit => .bind (.i64 hK _) fun limit => ?_
  refine .bind (.i64 hK _) fun headroom => .bind (.ofExcept _) fun groups => ?_
  dsimp only
  split
  · exact .bind (giveUp_rests _ _ _ _) fun _ => .pure _
  · split
    · exact .bind (hskip _ _ _) fun _ => .pure _
    · split
      · exact .bind (hskip _ _ _) fun _ => .pure _
      · refine .bind (selectPrefix_rests hK _ _ _ _) fun selected => ?_
        cases selected with
        | none => exact .bind (giveUp_rests _ _ _ _) fun _ => .pure _
        | some groups => exact weigh_rests hK _ _ _ _ _ _ _ _

theorem compactPass_rests (number used : Int) : Rests M K (e.compactPass number used) := by
  refine .bind .get fun s => .bind (requestBudget_rests hK _) fun measured => ?_
  refine .bind (.modify fun _ => rfl) fun _ => .bind .get fun _ => .bind (.i64 hK _) fun grown => ?_
  refine .bind (.i64 hK _) fun due => ?_
  split
  · exact .pure _
  · exact duePass_rests hK _ _ _ _

theorem compactPasses_rests (left : Nat) (number used : Int) (changed : Bool) :
    Rests M K (e.compactPasses left number used changed) := by
  induction left generalizing number used changed with
  | zero => exact .pure _
  | succ left ih =>
    refine .bind (compactPass_rests hK _ _) ?_
    rintro ⟨replaced, fin⟩
    cases fin with
    | stop => exact .pure _
    | next used => exact ih _ _ _

/-- A compaction, also one that fails. -/
theorem compact_rests : Rests M K e.compact := by
  refine .bind (compactPasses_rests hK _ _ _ _) fun changed => .bind .get fun s => ?_
  refine .bind (requestBudget_rests hK _) fun budget => .bind (.modify fun _ => rfl) fun _ => ?_
  split
  · exact .fail _
  · exact .pure _

end compaction

/-! ## The execution of a call -/

section dispatch

variable (hK : Calm e M K) (hemit : Hushed M K emit)

include hK hemit

theorem actionsCheckpoint_rests (event : Value) : Rests M K (Actions.checkpoint emit event) := by
  have hblocked : ∀ now s, (Actions.endBlocked now s).standing = s.standing := by
    intro now s
    unfold Actions.endBlocked
    split_ifs <;> rfl
  exact .bind (.request hK rfl) fun now => .bind (.modify (hblocked now)) fun _ =>
    .bind (emit_rests hemit event) fun _ => .op acknowledged_standing

omit hemit in
theorem stageAttempt_rests (a : Attempt) (kind : String) : Rests M K (Actions.stageAttempt a kind) :=
  .bind (.modify fun _ => rfl) fun _ => archiveRecord_rests hK _ _

theorem executionOf_rests (e' : Engine) (deployment call tool : String) (args : Value) :
    Rests M K (Actions.executionOf e' emit deployment call tool args) := by
  refine .bind .get fun s => ?_
  split
  · exact .pure _
  · refine .bind (.request hK rfl) fun id => .bind (.ofExcept _) fun x => ?_
    refine .bind (.modify fun _ => rfl) fun _ => .bind (archiveRecord_rests hK _ _) fun _ => ?_
    exact .bind (actionsCheckpoint_rests hK hemit _) fun _ => .pure _

omit hemit in
theorem settleStarted_rests (records : List Attempt) : Rests M K (Actions.settleStarted records) := by
  induction records with
  | nil => exact .pure _
  | cons a rest ih =>
    refine .bind (.request hK rfl) fun now => .bind (.modify fun _ => rfl) fun _ => ?_
    exact .bind (archiveRecord_rests hK _ _) fun _ => ih

theorem commitSettled_rests : Rests M K (Actions.commitSettled emit) := by
  refine .bind .get fun s => ?_
  split
  · exact .pure _
  · exact actionsCheckpoint_rests hK hemit _

theorem recoverOutcome_rests (host : Host) (x : Execution) (a : Attempt) (now : String)
    (result : Value) : Rests M K (Actions.recoverOutcome host emit x a now result) := by
  refine .bind (.ofExcept _) fun result => .bind (stageAttempt_rests hK _ _) fun _ => ?_
  refine .bind (.modify fun _ => rfl) fun _ => ?_
  exact .bind (actionsCheckpoint_rests hK hemit _) fun _ => .pure _

theorem verifyReceipt_rests (host : Host) (x : Execution) (command : Option String)
    (deployment : String) (ordinal : Int) :
    Rests M K (Actions.verifyReceipt host emit x command deployment ordinal) := by
  refine .bind .get fun s => .bind (.request hK rfl) fun id => .bind (.request hK rfl) fun now => ?_
  refine .bind (stageAttempt_rests hK _ _) fun _ => ?_
  refine .bind (actionsCheckpoint_rests hK hemit _) fun _ => ?_
  refine .bind (.request hK rfl) fun receipt => .bind (.request hK rfl) fun now => ?_
  split
  · exact .bind (recoverOutcome_rests hK hemit _ _ _ _ _) fun _ => .pure _
  · refine .bind (stageAttempt_rests hK _ _) fun _ => ?_
    exact .bind (actionsCheckpoint_rests hK hemit _) fun _ => .pure _

theorem requireRecovery_fails (x : Execution) : Fails M K (Actions.requireRecovery emit x) := by
  refine .bind .get fun s => .bind (.request hK rfl) fun _ => .modify_bind fun _ => ?_
  refine .bind (.modify fun _ => rfl) fun _ => .bind (archiveRecord_rests hK _ _) fun _ => ?_
  exact .bind (actionsCheckpoint_rests hK hemit _) fun _ => .fail _

theorem settleUncertain_fails (x : Execution) (a : Attempt) (now error : String) :
    Fails M K (Actions.settleUncertain emit x a now error) := by
  refine .bind .get fun s => .bind (.request hK rfl) fun _ => .modify_bind fun _ => ?_
  refine .bind (stageAttempt_rests hK _ _) fun _ => .bind (.modify fun _ => rfl) fun _ => ?_
  exact .bind (actionsCheckpoint_rests hK hemit _) fun _ => .fail _

theorem settleOutput_rests (x : Execution) (a : Attempt) (now result : String) :
    Rests M K (Actions.settleOutput emit x a now result) := by
  refine .bind (stageAttempt_rests hK _ _) fun _ => .bind (.modify fun _ => rfl) fun _ => ?_
  refine .bind (archiveRecord_rests hK _ _) fun _ => ?_
  exact .bind (actionsCheckpoint_rests hK hemit _) fun _ => .pure _

omit hemit in
theorem invoke_rests (deployment tool : String) (x : Execution) (args : List (String × Value)) :
    Rests M K (Actions.invoke deployment tool x args) := by
  unfold Actions.invoke
  split
  · exact .request hK rfl
  · exact .bind (.request hK rfl) fun _ => .pure _

theorem attempt_ends (x : Execution) (command : Option String) (deployment tool : String)
    (args : List (String × Value)) (ordinal : Int) :
    Ends M K (Actions.attempt emit x command deployment tool args ordinal) := by
  refine .after .get fun s => .after (.request hK rfl) fun now => .after (.request hK rfl) fun id => ?_
  refine .after (.modify fun _ => rfl) fun _ => .after (archiveRecord_rests hK _ _) fun _ => ?_
  refine .after (actionsCheckpoint_rests hK hemit _) fun _ => ?_
  refine .after (invoke_rests hK _ _ _ _) fun output => .after (.request hK rfl) fun now => ?_
  cases output with
  | ok result => exact (settleOutput_rests hK hemit _ _ _ _).ends
  | error problem => exact (settleUncertain_fails hK hemit _ _ _ _).ends

theorem resolve_ends (e' : Engine) (x : Execution) (command : Option String)
    (deployment tool : String) (args : List (String × Value)) :
    Ends M K (Actions.resolve e' emit x command deployment tool args) := by
  refine .after (settleStarted_rests hK _) fun _ => .after (commitSettled_rests hK hemit) fun _ => ?_
  have hverify : Rests M K (Actions.verifiedOutcome e' emit x command deployment tool) := by
    unfold Actions.verifiedOutcome
    split
    · exact verifyReceipt_rests hK hemit _ _ _ _ _
    · exact .pure _
  refine .after hverify fun outcome => ?_
  cases outcome with
  | some result => exact (Rests.pure _).ends
  | none =>
    dsimp only
    unfold Actions.attemptOrBlock
    split
    · exact (requireRecovery_fails hK hemit x).ends
    · split
      · exact (Rests.fail _).ends
      · split
        · exact (Rests.fail _).ends
        · exact attempt_ends hK hemit _ _ _ _ _ _

/-- The execution of a call: it fails where it blocks the session. -/
theorem dispatch_ends (e' : Engine) (call tool : String) (args : List (String × Value)) :
    Ends M K (Actions.dispatch e' emit call tool args) := by
  refine .after .get fun s => .after (executionOf_rests hK hemit _ _ _ _ _) fun x => ?_
  refine .after (.ofExcept _) fun _ => ?_
  split
  · exact (Rests.ofExcept _).ends
  · exact resolve_ends hK hemit _ _ _ _ _ _

end dispatch

/-! ## The callbacks of the handlers -/

section callbacks

variable (hK : Calm e M K)

/-- The program performs no effect that paces the run. -/
def Calms (M : Monitor Eff Reply G) (K : G → Prop) {ε α : Type} (f : Proc Eff Reply Session ε α) :
    Prop := Proc.Keeps M (fun g _ => K g) f

include hK

theorem request_calms {ε : Type} {x : Eff} (hx : e.paces x = false) :
    Calms M K (Proc.request x : Proc Eff Reply Session ε (Reply x)) :=
  Proc.keeps_request fun g _ h => ⟨hK.must g x h hx, fun r hr => hK.next g x r h hx hr⟩

omit hK in
theorem update_calms {ε : Type} (f : Session → Session) :
    Calms M K (Proc.update f : Proc Eff Reply Session ε Unit) := Proc.keeps_update fun _ _ h => h

theorem stageMessages_calms (done todo : List Message) :
    Calms M K (Server.stageMessages done todo) := by
  induction todo generalizing done with
  | nil => exact update_calms _
  | cons m todo ih =>
    rw [Server.stageMessages]
    split
    · exact ih _
    · refine Proc.keeps_bind (request_calms hK rfl) fun id => ?_
      refine Proc.keeps_bind (request_calms hK rfl) fun createdAt => ?_
      refine Proc.keeps_bind Proc.keeps_state fun s => ?_
      exact Proc.keeps_bind (update_calms _) fun _ => ih _

theorem stageSummaries_calms (provenance : List Value) :
    Calms M K (Server.stageSummaries provenance) := by
  induction provenance with
  | nil => exact Proc.keeps_pure _
  | cons p provenance ih =>
    refine Proc.keeps_bind (Proc.keeps_bind Proc.keeps_state fun s => ?_) fun _ => ih
    split
    · exact Proc.keeps_pure _
    · split
      · exact Proc.keeps_pure _
      · exact Proc.keeps_bind (request_calms hK rfl) fun _ => update_calms _

theorem archive_calms (kind : String) (payload : Value) :
    Calms M K (Server.archive kind payload) := by
  intro g s h
  refine Program.sat_bind.2 (Program.Sat.mono
    (archiveRecord_rests hK kind payload s.standing g s ⟨h, rfl⟩) ?_)
  rintro g' ⟨_ | _, s'⟩ h'
  · exact h'.1
  · exact h'.1

theorem freeze_calms (event : Value) : Calms M K (Server.freeze event) := by
  refine Proc.keeps_bind Proc.keeps_state fun s => ?_
  split
  · exact Proc.keeps_pure _
  · refine Proc.keeps_bind (stageSummaries_calms hK _) fun _ => ?_
    refine Proc.keeps_bind (Proc.keeps_bind Proc.keeps_state fun s => ?_) fun _ => ?_
    · split
      · exact archive_calms hK _ _
      · exact Proc.keeps_pure _
    · exact Proc.keeps_bind (request_calms hK rfl) fun _ => update_calms _

theorem tryCommit_calms (staged : Session) (config event : Value) (retries : Nat) :
    Calms M K (Server.tryCommit staged config event retries) := by
  induction retries with
  | zero => exact request_calms hK rfl
  | succ retries ih =>
    refine Proc.keeps_bind (request_calms hK rfl) fun r => ?_
    split
    · split
      · exact ih
      · exact Proc.keeps_pure _
    · exact Proc.keeps_pure _

theorem save_calms (config event : Value) : Calms M K (Server.save config event) := by
  have hop : Calms M K (Server.liftOp Diagnostics.stage) := by
    intro g s h
    refine Proc.sat_step (fun _ _ => ?_) fun _ _ => ?_
    · exact h
    · exact h
  refine Proc.keeps_bind hop fun _ => ?_
  refine Proc.keeps_bind (Proc.keeps_bind Proc.keeps_state fun s => stageMessages_calms hK _ _) fun _ => ?_
  refine Proc.keeps_bind (freeze_calms hK event) fun _ => Proc.keeps_bind Proc.keeps_state fun s => ?_
  split
  · exact Proc.keeps_fail _
  · refine Proc.keeps_bind (tryCommit_calms hK _ _ _ _) fun r => ?_
    split
    · exact update_calms _
    · exact Proc.keeps_bind (update_calms _) fun _ => Proc.keeps_fail _

theorem saveCheckpoint_calms (config event : Value) :
    Calms M K (Server.saveCheckpoint config event) := by
  intro g s h
  refine Program.sat_bind.2 (Program.Sat.mono
    (save_calms hK config event g { s with revision := s.emitRevision } h) ?_)
  rintro g' ⟨_ | _, s'⟩ h'
  · exact h'
  · exact h'

theorem cancelled_calms (missing : Except String Bool) : Calms M K (Server.cancelled missing) := by
  refine Proc.keeps_bind Proc.keeps_state fun s => ?_
  split
  · exact Proc.keeps_pure _
  · exact Proc.keeps_bind (request_calms hK rfl) fun _ => Proc.keeps_ofExcept _

omit hK in
theorem hushed_of_calms {f : Value → EngineM Unit} (hf : ∀ event, Calms M K (f event)) :
    Hushed M K fun event s => f event s := by
  intro event s g h
  refine Program.Sat.mono (hf event g s h) ?_
  rintro g' ⟨_ | _, s'⟩ h'
  · exact h'
  · exact h'

/-- The callback of `run`. -/
theorem hushed_run (config : Value) : Hushed M K (Server.emitRun config) := by
  refine hushed_of_calms fun event => ?_
  refine Proc.keeps_bind (saveCheckpoint_calms hK config event) fun _ => ?_
  refine Proc.keeps_bind (cancelled_calms hK _) fun flag => ?_
  split
  · exact Proc.keeps_fail _
  · exact Proc.keeps_pure _

/-- The callback of a streamed run. -/
theorem hushed_stream (config : Value) : Hushed M K (Server.emitStream config) := by
  refine hushed_of_calms fun event => ?_
  refine Proc.keeps_bind (saveCheckpoint_calms hK config event) fun _ => ?_
  refine Proc.keeps_bind (cancelled_calms hK _) fun flag => ?_
  split
  · exact Proc.keeps_fail _
  · refine Proc.keeps_bind Proc.keeps_state fun s => ?_
    have hdecorate : Calms M K (Proc.lift (Server.decorate event s) : EngineM Value) :=
      fun g s' h => ⟨hK.must g _ h rfl, fun r hr => hK.next g _ r h rfl hr⟩
    refine Proc.keeps_bind hdecorate fun _ => Proc.keeps_bind (request_calms hK rfl) fun sent => ?_
    split
    · exact Proc.keeps_pure _
    · refine Proc.keeps_bind ?_ fun _ => Proc.keeps_fail _
      cases s.runId with
      | none => exact Proc.keeps_pure _
      | some run => exact request_calms hK rfl

end callbacks

end frames

/-! ## The request for a decision -/

namespace Engine

variable {e : Engine}

/-- There is a first completion route, and it is not among the others. -/
theorem completionUrls_cons (e : Engine) : ∃ url urls, e.completionUrls = url :: urls ∧ url ∉ urls := by
  unfold completionUrls
  dsimp only
  generalize Text.trimEndMatches e.config.llm.baseUrl '/' = base
  split
  · exact ⟨base, [], rfl, List.not_mem_nil⟩
  · split
    next root hroot =>
      refine ⟨_, [_], rfl, fun hmem => ?_⟩
      -- the root is shorter than the base
      have heq := congrArg (fun s : String => s.toList.length) (List.mem_singleton.1 hmem)
      rw [Text.stripSuffix] at hroot
      split at hroot
      next hends =>
        have hsuffix : ("/v1" : String).toList.reverse <+: base.toList.reverse :=
          List.isPrefixOf_iff_prefix.1 hends
        have hlength := hsuffix.length_le
        have hv1 : ("/v1" : String).toList.length = 3 := rfl
        rw [List.length_reverse, List.length_reverse, hv1] at hlength
        rw [← Option.some.inj hroot] at heq
        simp only [String.toList_append, List.length_append, String.toList_ofList, List.length_take,
          hv1] at heq
        omega
      · cases hroot
    · exact ⟨_, [], rfl, List.not_mem_nil⟩

/-- A request for a decision says how tools are chosen. -/
theorem decisionPayload_choice {messages : List Value} {s : Session} {payload : Value}
    (h : e.decisionPayload messages s = .ok payload) : (payload.get "tool_choice").isSome = true := by
  have htail : ∃ fields v, payload = .obj fields ∧ ("tool_choice", v) ∈ fields := by
    unfold decisionPayload at h
    dsimp only at h
    split at h
    all_goals
      obtain ⟨wire, -, h⟩ := bind_ok h
      split at h
      · rw [← Except.ok.inj h]
        exact ⟨_, _, rfl, List.mem_append_right _ List.mem_cons_self⟩
      · rw [← Except.ok.inj h]
        exact ⟨_, _, rfl,
          List.mem_append_left _ (List.mem_append_right _ List.mem_cons_self)⟩
  obtain ⟨fields, v, rfl, hmem⟩ := htail
  exact lookup_isSome_iff.2 (List.mem_map.2 ⟨_, hmem, rfl⟩)

theorem paces_first {payload : Value} {url : String} {urls : List String}
    (hurls : e.completionUrls = url :: urls) (hchoice : (payload.get "tool_choice").isSome = true) :
    e.paces (.httpPost url payload) = true := by
  rw [paces, hchoice, hurls]
  simp

theorem paces_rest {payload : Value} {url : String} {urls : List String}
    (hurls : e.completionUrls = url :: urls) (hnew : url ∉ urls) :
    ∀ other ∈ urls, e.paces (.httpPost other payload) = false := by
  intro other hmem
  have hne : url ≠ other := by
    rintro rfl
    exact hnew hmem
  rw [paces, hurls, List.head?_cons]
  simp [hne]

end Engine

/-- A batch has calls. -/
def Decision.Filled : Decision → Prop
  | .tools _ calls => calls ≠ []
  | _ => True

section decide

variable {G : Type} {e : Engine} {M : Monitor Eff Reply G} {K : G → Prop}

theorem freshCallId_calm (hK : Calm e M K) (used : List String) (fuel : Nat) (g : G) (hg : K g) :
    (Engine.freshCallId used fuel).Sat M g fun g' _ => K g' := by
  induction fuel generalizing g with
  | zero => exact ⟨hK.must g .panic hg rfl, fun r => nomatch r⟩
  | succ fuel ih =>
    refine ⟨hK.must g _ hg rfl, fun id hid => ?_⟩
    have hg' := hK.next g _ id hg rfl hid
    dsimp only
    split
    · exact ih _ hg'
    · exact hg'

theorem readCalls_calm (hK : Calm e M K) (used : List String) (raws : List Value) (g : G)
    (hg : K g) : (e.readCalls used raws).Sat M g fun g' calls => K g' ∧ calls.length = raws.length := by
  induction raws generalizing used g with
  | nil => exact ⟨hg, rfl⟩
  | cons raw raws ih =>
    have hid : (Engine.callIdentity used raw).Sat M g fun g' _ => K g' := by
      unfold Engine.callIdentity
      split
      · split
        · exact freshCallId_calm hK _ _ g hg
        · exact hg
      · exact freshCallId_calm hK _ _ g hg
    refine Program.sat_bind.2 (hid.mono fun g' id hg' => ?_)
    refine Program.sat_bind.2 ((ih _ g' hg').mono fun g'' calls h => ?_)
    exact ⟨h.1, congrArg Nat.succ h.2⟩

theorem parseDecision_calm (hK : Calm e M K) (body : Value) (s : Session) (g : G) (hg : K g) :
    (e.parseDecision body s).Sat M g fun g' d => K g' ∧ d.Filled := by
  have hcontent : ∀ content, (Engine.readContent content).Filled := by
    intro content
    unfold Engine.readContent
    split <;> trivial
  unfold Engine.parseDecision
  dsimp only
  split
  · exact ⟨hg, trivial⟩
  · exact ⟨hg, trivial⟩
  · split
    · exact ⟨hg, trivial⟩
    · split
      · exact ⟨hg, hcontent _⟩
      · exact ⟨hg, hcontent _⟩
      next raws hne _ =>
        refine Program.sat_bind.2 ((readCalls_calm hK _ raws g hg).mono fun g' calls h => ?_)
        refine ⟨h.1, ?_⟩
        rintro rfl
        have hlength := h.2
        rw [List.length_nil, eq_comm, List.length_eq_zero_iff] at hlength
        exact hne hlength
      · exact ⟨hg, trivial⟩

/-- An exchange whose first route alone moves the ghost state. -/
theorem postTo_paced (hK : ∀ g₀, Calm e M (· = g₀)) {payload : Value} {url : String}
    {urls : List String} {g : G} {diagnostics : List Value} (hmust : M.must g (.httpPost url payload))
    (hrest : ∀ other ∈ urls, e.paces (.httpPost other payload) = false) :
    (e.postTo payload (url :: urls) diagnostics).Sat M g fun g' _ =>
      ∃ r, M.may g (.httpPost url payload) r ∧ g' = M.next g (.httpPost url payload) r := by
  refine ⟨hmust, fun r hr => ?_⟩
  -- whatever the reply, what follows it leaves the ghost state where the reply put it
  suffices hstay : Program.Sat M _ (M.next g (.httpPost url payload) r)
      fun g' _ => g' = M.next g (.httpPost url payload) r from hstay.mono fun g' _ h => ⟨r, hr, h⟩
  have hcalm := hK (M.next g (.httpPost url payload) r)
  cases r with
  | timeout => exact failExchange_calm hcalm _ rfl
  | transport => exact failExchange_calm hcalm _ rfl
  | broken => exact failExchange_calm hcalm _ rfl
  | response elapsed status body =>
    refine diagnosed_calm hcalm (fun diagnostics g' h => ?_) _ rfl
    split
    · exact postTo_calm hcalm hrest g' h
    · split <;> exact h

/-- What asking the model does to a ghost state: nothing when no request can be made, and otherwise
what the one request at the first route does. -/
theorem decide_paced (hK : ∀ g₀, Calm e M (· = g₀)) {messages : List MessageBody} {s : Session}
    {g : G} (hmust : ∀ url payload, e.paces (.httpPost url payload) = true →
      M.must g (.httpPost url payload)) :
    (e.decide messages s).Sat M g fun g' out => match out with
      | .error _ => g' = g
      | .ok (d, _) => d.Filled ∧ ∃ url payload r, e.paces (.httpPost url payload) = true ∧
          M.may g (.httpPost url payload) r ∧ g' = M.next g (.httpPost url payload) r := by
  unfold Engine.decide
  cases hpayload : e.decisionPayload (messages.map Context.wireMessage) s with
  | error problem => exact rfl
  | ok payload =>
    obtain ⟨url, urls, hurls, hnew⟩ := Engine.completionUrls_cons e
    have hpaces := Engine.paces_first hurls (Engine.decisionPayload_choice hpayload)
    have hrest := @Engine.paces_rest e payload _ _ hurls hnew
    -- what follows the request leaves the ghost state where the request put it
    have hpost : (e.postChat payload).Sat M g fun g' _ =>
        ∃ r, M.may g (.httpPost url payload) r ∧ g' = M.next g (.httpPost url payload) r := by
      rw [Engine.postChat, hurls]
      exact postTo_paced hK (hmust _ _ hpaces) hrest
    refine Program.sat_bind.2 (hpost.mono ?_)
    rintro g₁ ⟨reply, diagnostics⟩ ⟨r, hr, hg₁⟩
    cases reply with
    | error problem => exact ⟨trivial, url, payload, r, hpaces, hr, hg₁⟩
    | ok body =>
      refine Program.sat_bind.2 ((parseDecision_calm (hK g₁) body s g₁ rfl).mono fun g₂ d h => ?_)
      exact ⟨h.2, url, payload, r, hpaces, hr, h.1.trans hg₁⟩

end decide

/-! ## Sequences -/

section sequences

variable {G : Type} {M : Monitor Eff Reply G} {g : G} {s : Session} {α β : Type}

/-- The program meets its obligations, and ends as `post` says unless it fails. -/
structure Paces (M : Monitor Eff Reply G) (f : EngineM α) (g : G) (s : Session)
    (post : G → Session → α → Prop) : Prop where
  sat : Proc.Sat M f g s post fun _ _ _ => True

namespace Paces

variable {f : EngineM α} {k : α → EngineM β} {mid : G → Session → α → Prop}
  {post : G → Session → β → Prop}

theorem pure {b : β} (h : post g s b) : Paces M (Pure.pure b : EngineM β) g s post := ⟨h⟩

theorem modify {h : Session → Session} {post : G → Session → Unit → Prop} (hs : post g (h s) ()) :
    Paces M (EngineM.modify h) g s post := ⟨hs⟩

theorem get_bind {k : Session → EngineM β} (h : Paces M (k s) g s post) :
    Paces M (EngineM.get >>= k) g s post := ⟨h.sat⟩

theorem modify_bind {h : Session → Session} {k : Unit → EngineM β}
    (hk : Paces M (k ()) g (h s) post) : Paces M (EngineM.modify h >>= k) g s post := ⟨hk.sat⟩

theorem swap_bind {h : Session → α × Session} (hk : Paces M (k (h s).1) g (h s).2 post) :
    Paces M (Proc.swap h >>= k) g s post := ⟨hk.sat⟩

theorem bind (hf : Paces M f g s mid) (hk : ∀ g' s' a, mid g' s' a → Paces M (k a) g' s' post) :
    Paces M (f >>= k) g s post :=
  ⟨Proc.sat_bind.2 (hf.sat.mono (fun g' s' a h => (hk g' s' a h).sat) fun _ _ _ h => h)⟩

theorem mono {post' : G → Session → α → Prop} (hf : Paces M f g s mid)
    (h : ∀ g' s' a, mid g' s' a → post' g' s' a) : Paces M f g s post' :=
  ⟨hf.sat.mono (fun g' s' a hm => h g' s' a hm) fun _ _ _ h => h⟩

theorem ends (hf : ∀ g₀, Ends M (· = g₀) f) :
    Paces M f g s fun g' s' _ => g' = g ∧ s'.standing = s.standing :=
  ⟨(hf g s.standing g s ⟨rfl, rfl⟩).mono (fun _ _ _ h => h) fun _ _ _ _ => trivial⟩

theorem ends_bind (hf : ∀ g₀, Ends M (· = g₀) f)
    (hk : ∀ a s', s'.standing = s.standing → Paces M (k a) g s' post) :
    Paces M (f >>= k) g s post := by
  refine bind (ends hf) ?_
  rintro g' s' a ⟨rfl, hs⟩
  exact hk a s' hs

/-- A step that rests is passed over. -/
theorem rests_bind (hf : ∀ g₀, Rests M (· = g₀) f)
    (hk : ∀ a s', s'.standing = s.standing → Paces M (k a) g s' post) :
    Paces M (f >>= k) g s post := ends_bind (fun g₀ => (hf g₀).ends) hk

theorem rests (hf : ∀ g₀, Rests M (· = g₀) f) :
    Paces M f g s fun g' s' _ => g' = g ∧ s'.standing = s.standing :=
  ends fun g₀ => (hf g₀).ends

theorem lift_bind {p : Prog α} {mid : G → α → Prop} (hp : p.Sat M g mid)
    (hk : ∀ g' a, mid g' a → Paces M (k a) g' s post) : Paces M (Proc.lift p >>= k) g s post :=
  ⟨Proc.sat_bind.2 (Proc.sat_lift.2 (hp.mono fun g' a h => (hk g' a h).sat))⟩

theorem ofExcept_bind {x : Except String α} (hk : ∀ a, x = .ok a → Paces M (k a) g s post) :
    Paces M (Proc.ofExcept x >>= k) g s post := by
  cases x with
  | ok a => exact ⟨(hk a rfl).sat⟩
  | error x => exact ⟨trivial⟩

theorem i64_bind {a : α} (hk : Paces M (k a) g s post) :
    Paces M (EngineM.i64 (some a) >>= k) g s post := ⟨hk.sat⟩

theorem i64_bind_none : Paces M (EngineM.i64 none >>= k) g s post ↔ M.must g .panic :=
  ⟨fun h => h.sat.1, fun h => ⟨h, fun r => nomatch r⟩⟩

theorem mark_bind {m : Mark} {k : Unit → EngineM β} (hm : M.must g (.mark m))
    (hk : ∀ r, M.may g (.mark m) r → Paces M (k ()) (M.next g (.mark m) r) s post) :
    Paces M (EngineM.mark m >>= k) g s post :=
  ⟨Proc.sat_bind.2 ((Proc.sat_request _).2 ⟨hm, fun r hr => (hk r hr).sat⟩)⟩

end Paces

end sequences

end StateDrivenAgent
