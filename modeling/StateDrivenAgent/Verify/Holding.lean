import StateDrivenAgent.Interaction.Invariant
import StateDrivenAgent.Agent.Run
import StateDrivenAgent.Spec.Annals

/-!
# What holds between two checkpoints

Between two checkpoints the engine reports, archives, compacts and decides. None of this touches what
the next commit says about the executions (`Session.held`), and none of it is a commit, an invocation
or the beginning of a dispatch, so what is remembered of the worker stays as well, but for the
identities it draws (`Still`).
-/

namespace StateDrivenAgent

open Interaction

/-- What a session says about its executions and under which identity and revision. -/
structure Holding where
  id : String
  revision : Int
  emitRevision : Int
  executions : List Execution
  outbox : List Execution
  commit : Option String

def Session.held (s : Session) : Holding :=
  { id := s.id, revision := s.revision, emitRevision := s.emitRevision, executions := s.executions
    outbox := s.pendingExecutionOutbox, commit := s.pendingCommitId }

/-- The effect is no commit, no invocation and no beginning of a dispatch. -/
def Eff.plain : Eff → Bool
  | .transact .. | .execute .. | .recipient .. | .mark (.dispatch ..) => false
  | _ => true

namespace Worker

variable {env : Deployment} {L : Annals}

/-- The call that is dispatched, and whether its dispatch is committed. -/
def claim (g : Worker) : Option (String × String) × Bool := (g.call, g.started)

theorem must_plain {x : Eff} (hx : x.plain = true) (g : Worker) : (watch env L).must g x := by
  cases x <;> first | exact trivial | cases hx

theorem claim_next {x : Eff} (hx : x.plain = true) (g : Worker) (r : Reply x) :
    ((watch env L).next g x r).claim = g.claim := by
  cases x with
  | mark m =>
    cases m with
    | dispatch => cases hx
    | _ => rfl
  | transact => cases hx
  | execute => cases hx
  | recipient => cases hx
  | _ => rfl

end Worker

variable (env : Deployment) (L : Annals)

/-- The program leaves the worker's claim alone. -/
def Calmly {α : Type} (p : Prog α) : Prop :=
  ∀ g, p.Sat (Worker.watch env L) g fun g' _ => g'.claim = g.claim

/-- The program leaves the worker's claim and what the session holds alone. -/
def Still {ε α : Type} (f : Proc Eff Reply Session ε α) : Prop :=
  ∀ c h, Proc.Keeps (Worker.watch env L) (fun g s => g.claim = c ∧ s.held = h) f

variable {env L} {α β ε : Type}

namespace Calmly

theorem ret (a : α) : Calmly env L (.ret a) := fun _ => rfl

theorem perform {x : Eff} {next : Reply x → Prog α} (hx : x.plain = true)
    (h : ∀ r, Calmly env L (next r)) : Calmly env L (.perform x next) := fun g =>
  ⟨Worker.must_plain hx g, fun r _ => (h r _).mono fun _ _ hg => hg.trans (Worker.claim_next hx g r)⟩

theorem bind {p : Prog α} {k : α → Prog β} (hp : Calmly env L p) (hk : ∀ a, Calmly env L (k a)) :
    Calmly env L (p >>= k) := fun g =>
  Program.sat_bind.2 ((hp g).mono fun _ a hg => (hk a _).mono fun _ _ hg' => hg'.trans hg)

theorem panic (next : Empty → Prog α) : Calmly env L (.perform .panic next) := fun g =>
  ⟨Worker.must_plain rfl g, fun r : Empty => r.elim⟩

end Calmly

namespace Still

variable {f : Proc Eff Reply Session ε α} {k : α → Proc Eff Reply Session ε β}

theorem bind (hf : Still env L f) (hk : ∀ a, Still env L (k a)) : Still env L (f >>= k) :=
  fun c h => Proc.keeps_bind (hf c h) fun a => hk a c h

theorem pure (a : α) : Still env L (Pure.pure a : Proc Eff Reply Session ε α) :=
  fun _ _ => Proc.keeps_pure a

theorem fail (x : ε) : Still env L (Proc.fail x : Proc Eff Reply Session ε α) :=
  fun _ _ => Proc.keeps_fail x

theorem state : Still env L (Proc.state : Proc Eff Reply Session ε Session) :=
  fun _ _ => Proc.keeps_state

theorem get : Still env L EngineM.get := state

theorem ofExcept (x : Except ε α) : Still env L (Proc.ofExcept x : Proc Eff Reply Session ε α) :=
  fun _ _ => Proc.keeps_ofExcept x

theorem update {m : Session → Session} (hm : ∀ s, (m s).held = s.held) :
    Still env L (Proc.update m : Proc Eff Reply Session ε Unit) :=
  fun _ _ => Proc.keeps_update fun _ s h => ⟨h.1, (hm s).trans h.2⟩

theorem modify {m : Session → Session} (hm : ∀ s, (m s).held = s.held) :
    Still env L (EngineM.modify m) := update hm

theorem swap {m : Session → α × Session} (hm : ∀ s, (m s).2.held = s.held) :
    Still env L (Proc.swap m : Proc Eff Reply Session ε α) :=
  fun _ _ => Proc.keeps_swap fun _ s h => ⟨h.1, (hm s).trans h.2⟩

theorem step {m : Session → Except ε α × Session} (hm : ∀ s, (m s).2.held = s.held) :
    Still env L (Proc.step m : Proc Eff Reply Session ε α) := fun _ _ _ s h =>
  Proc.sat_step (fun _ _ => ⟨h.1, (hm s).trans h.2⟩) fun _ _ => ⟨h.1, (hm s).trans h.2⟩

theorem op {m : StateOp} (hm : ∀ s, (m s).2.held = s.held) : Still env L (EngineM.op m) := step hm

theorem request {x : Eff} (hx : x.plain = true) :
    Still env L (Proc.request x : Proc Eff Reply Session ε (Reply x)) := fun _ _ =>
  Proc.keeps_request fun g _ h =>
    ⟨Worker.must_plain hx g, fun r _ => ⟨(Worker.claim_next hx g r).trans h.1, h.2⟩⟩

theorem lift {p : Prog α} (hp : Calmly env L p) :
    Still env L (Proc.lift p : Proc Eff Reply Session ε α) := fun _ _ g _ h =>
  Proc.sat_lift.2 ((hp g).mono fun _ _ hg => ⟨hg.trans h.1, h.2⟩)

/-- A program that leaves them alone, before one with other ends. -/
theorem sat_bind (hf : Still env L f) {g : Worker} {s : Session} {post : Worker → Session → β → Prop}
    {err : Worker → Session → ε → Prop}
    (herr : ∀ g' s' x, g'.claim = g.claim → s'.held = s.held → err g' s' x)
    (hk : ∀ a g' s', g'.claim = g.claim → s'.held = s.held →
      Proc.Sat (Worker.watch env L) (k a) g' s' post err) :
    Proc.Sat (Worker.watch env L) (f >>= k) g s post err :=
  Proc.sat_bind.2 ((hf g.claim s.held g s ⟨rfl, rfl⟩).mono (fun g' s' a h => hk a g' s' h.1 h.2)
    fun g' s' x h => herr g' s' x h.1 h.2)

theorem attempt (hf : Still env L f) : Still env L (Proc.attempt f) :=
  fun c h => Proc.keeps_attempt (hf c h)

theorem i64 (x : Option α) : Still env L (EngineM.i64 x) := by
  cases x with
  | some a => exact .pure a
  | none => exact fun _ _ g _ _ => ⟨Worker.must_plain rfl g, fun r : Empty => r.elim⟩

end Still

/-! ## Records -/

theorem archiveRecord_still (kind : String) (payload : Value) :
    Still env L (archiveRecord kind payload) :=
  .bind (.request rfl) fun _ => .bind (.request rfl) fun _ => .modify fun _ => rfl

theorem appendMessage_still (body : MessageBody) : Still env L (appendMessage body) :=
  .bind (.request rfl) fun _ => .bind (.request rfl) fun _ => .modify fun _ => rfl

namespace Diagnostics

theorem andThen_held {f h : StateOp} (hf : ∀ s, (f s).2.held = s.held)
    (hh : ∀ s, (h s).2.held = s.held) (s : Session) : (f.andThen h s).2.held = s.held := by
  have hs := hf s
  unfold StateOp.andThen
  split
  next s' hfs =>
    rw [hfs] at hs
    exact (hh s').trans hs
  next x s' hfs =>
    rw [hfs] at hs
    exact hs

theorem tally_held (payload : Value) (s : Session) : (tally payload s).held = s.held := by
  unfold tally
  split
  · rfl
  · split <;> rfl

theorem cache_held {family : String} {payload : Value} {s s' : Session}
    (h : cache family payload s = .ok s') : s'.held = s.held := by
  unfold cache at h
  split_ifs at h
  · split at h
    · cases h
      rfl
    · cases h
  · cases h
    exact tally_held payload s
  · cases h
    rfl

theorem append_held (family : String) (payload : Value) (s : Session) :
    (append family payload s).2.held = s.held := by
  unfold append
  dsimp only
  split_ifs
  · rfl
  · split
    · rfl
    next s' h =>
      have hs := cache_held h
      exact hs

theorem appendAll_held (family : String) (payloads : List Value) (s : Session) :
    (appendAll family payloads s).2.held = s.held := by
  induction payloads generalizing s with
  | nil => rfl
  | cons payload payloads ih => exact andThen_held (append_held family payload) ih s

theorem stage_held (s : Session) : (stage s).2.held = s.held := by
  unfold stage
  split_ifs
  · rfl
  · exact andThen_held (appendAll_held _ _) (andThen_held (appendAll_held _ _) (appendAll_held _ _)) _

theorem record_held (family : String) (payload : Value) (s : Session) :
    (record family payload s).2.held = s.held := by
  unfold record
  split_ifs
  · rfl
  · rfl
  · exact andThen_held stage_held (append_held family payload) s

end Diagnostics

theorem record_still (family : String) (payload : Value) :
    Still env L (EngineM.record family payload) := .op (Diagnostics.record_held family payload)

/-! ## Exchanges with the model -/

namespace Engine

variable {e : Engine}

theorem diagnosed_calmly {payload : Value} {diagnostics : List Value} {elapsed : Int}
    {status : Option Nat} {failure : Option String} {usage : Option Value}
    {next : List Value → Prog Exchange} (hnext : ∀ diagnostics, Calmly env L (next diagnostics)) :
    Calmly env L (e.diagnosed payload diagnostics elapsed status failure usage next) := by
  unfold diagnosed
  cases e.requestDiagnostic payload elapsed status failure usage with
  | none => exact .panic _
  | some diagnostic => exact hnext _

theorem postTo_calmly (payload : Value) (urls : List String) (diagnostics : List Value) :
    Calmly env L (e.postTo payload urls diagnostics) := by
  have hfail : ∀ diagnostics elapsed status code,
      Calmly env L (e.failExchange payload diagnostics elapsed status code) :=
    fun _ _ _ _ => diagnosed_calmly fun _ => .ret _
  induction urls generalizing diagnostics with
  | nil => exact .ret _
  | cons url urls ih =>
    refine .perform rfl fun r => ?_
    cases r with
    | timeout => exact hfail _ _ _ _
    | transport => exact hfail _ _ _ _
    | broken => exact hfail _ _ _ _
    | response elapsed status body =>
      refine diagnosed_calmly fun diagnostics => ?_
      split
      · exact ih _
      · split <;> exact .ret _

theorem compactClient_calmly (payload : Value) : Calmly env L (e.compactClient payload) := by
  refine .bind (postTo_calmly payload _ _) fun out => ?_
  obtain ⟨reply, diagnostics⟩ := out
  cases reply with
  | error problem => exact .ret _
  | ok value =>
    dsimp only
    split <;> exact .ret _

theorem freshCallId_calmly (used : List String) (fuel : Nat) :
    Calmly env L (freshCallId used fuel) := by
  induction fuel with
  | zero => exact .panic _
  | succ fuel ih =>
    refine .perform rfl fun id => ?_
    split
    · exact ih
    · exact .ret _

theorem readCalls_calmly (used : List String) (raws : List Value) :
    Calmly env L (e.readCalls used raws) := by
  induction raws generalizing used with
  | nil => exact .ret _
  | cons raw raws ih =>
    refine .bind ?_ fun id => .bind (ih _) fun calls => .ret _
    unfold callIdentity
    split
    · split
      · exact freshCallId_calmly _ _
      · exact .ret _
    · exact freshCallId_calmly _ _

theorem parseDecision_calmly (body : Value) (s : Session) :
    Calmly env L (e.parseDecision body s) := by
  unfold parseDecision
  dsimp only
  split
  · exact .ret _
  · exact .ret _
  · split
    · exact .ret _
    · split
      · exact .ret _
      · exact .ret _
      · exact .bind (readCalls_calmly _ _) fun calls => .ret _
      · exact .ret _

theorem decide_calmly (messages : List MessageBody) (s : Session) :
    Calmly env L (e.decide messages s) := by
  unfold decide
  cases e.decisionPayload (messages.map Context.wireMessage) s with
  | error problem => exact .ret _
  | ok payload =>
    refine .bind (postTo_calmly payload _ _) fun out => ?_
    obtain ⟨reply, diagnostics⟩ := out
    cases reply with
    | error problem => exact .ret _
    | ok body => exact .bind (parseDecision_calmly _ _) fun d => .ret _

/-! ## Compaction -/

theorem requestBudget_still (s : Session) : Still env L (e.requestBudget s) :=
  .bind (.ofExcept _) fun _ => .bind (.ofExcept _) fun _ => .i64 _

theorem acceptSummary_still (p : Pass) (attempt : Int) (text : String) (ledger : Ledger)
    (canonical : String) (after : RequestBudget) :
    Still env L (acceptSummary p attempt text ledger canonical after) := by
  refine .bind .get fun _ => .bind (.request rfl) fun _ => .bind (.modify fun _ => rfl) fun _ => ?_
  refine .bind (record_still _ _) fun _ => .bind (.modify fun _ => rfl) fun _ => .bind .get fun _ => ?_
  refine .bind (record_still _ _) fun _ => .bind (.modify fun _ => rfl) fun _ => ?_
  exact record_still _ _

theorem judgeLedger_still (p : Pass) (attempt : Int) (text : String) (ledger : Ledger)
    (canonical : String) : Still env L (e.judgeLedger p attempt text ledger canonical) := by
  refine .bind .get fun s => .bind (requestBudget_still _) fun after => ?_
  dsimp only
  split
  · exact .pure _
  · split
    · exact .pure _
    · exact .bind (acceptSummary_still _ _ _ _ _ _) fun _ => .pure _

theorem judgeProposal_still (p : Pass) (attempt : Int) (failure proposal : Option String) :
    Still env L (e.judgeProposal p attempt failure proposal) := by
  refine .bind .get fun s => ?_
  dsimp only
  split
  · exact .pure _
  · split
    · exact .pure _
    · split
      · exact .pure _
      · exact judgeLedger_still _ _ _ _ _

theorem attempts_still (p : Pass) (left : Nat) (used : Int) (correction : Option String)
    (reason : String) : Still env L (e.attempts p left used correction reason) := by
  induction left generalizing used correction reason with
  | zero => exact .pure _
  | succ left ih =>
    refine .bind .get fun s => .bind (.i64 _) fun budget => ?_
    split
    · exact .pure _
    · refine .bind (.modify fun _ => rfl) fun _ => .bind (.lift (compactClient_calmly _)) fun out => ?_
      refine .bind (.modify fun _ => rfl) fun _ => ?_
      refine .bind (judgeProposal_still _ _ _ _) fun rejected => ?_
      cases rejected with
      | none => exact .pure _
      | some reason =>
        refine .bind (.bind (archiveRecord_still _ _) fun _ => record_still _ _) fun _ => ?_
        exact ih _ _ _

theorem giveUp_still (hard : Bool) (measured : RequestBudget) (assessment : Value)
    (reason : String) : Still env L (e.giveUp hard measured assessment reason) := by
  refine .bind (record_still _ _) fun _ => ?_
  split
  · exact .fail _
  · exact .pure _

theorem selectPrefix_still (s : Session) (fuel : Nat) (old tail : List Context.HistoryGroup) :
    Still env L (e.selectPrefix s fuel old tail) := by
  induction fuel generalizing old tail with
  | zero => exact .pure _
  | succ fuel ih =>
    refine .bind (.i64 _) fun budget => ?_
    split
    · exact .pure _
    · split
      · exact .pure _
      · exact ih _ _

theorem summarize_still (p : Pass) (groups : Nat) (used : Int) (assessment : Value) :
    Still env L (e.summarize p groups used assessment) := by
  refine .bind (record_still _ _) fun _ => .bind (attempts_still _ _ _ _ _) fun out => ?_
  obtain ⟨used, rejected⟩ := out
  cases rejected with
  | some reason =>
    refine .bind ?_ fun _ => .pure _
    refine .bind (.modify fun _ => rfl) fun _ => .bind .get fun _ => ?_
    exact .bind (record_still _ _) fun _ => .pure _
  | none => exact .bind .get fun _ => .pure _

theorem skip_still (assessment : Value) (reason : String) (more : List (String × Value)) :
    Still env L (skip assessment reason more) := record_still _ _

theorem weigh_still (number : Int) (hard : Bool) (measured : RequestBudget) (pressure : F64)
    (assessment : Value) (old tail : List Context.HistoryGroup) (used : Int) :
    Still env L (e.weigh number hard measured pressure assessment old tail used) := by
  refine .bind .get fun s => .bind (requestBudget_still _) fun floor => ?_
  dsimp only
  split
  · exact .bind (skip_still _ _ _) fun _ => .pure _
  · split
    · exact .bind (skip_still _ _ _) fun _ => .pure _
    · split
      · exact .bind (skip_still _ _ _) fun _ => .pure _
      · exact summarize_still _ _ _ _

theorem duePass_still (number : Int) (measured : RequestBudget) (grown : Bool) (used : Int) :
    Still env L (e.duePass number measured grown used) := by
  refine .bind .get fun s => .bind (.i64 _) fun limit => .bind (.i64 _) fun limit => ?_
  refine .bind (.i64 _) fun headroom => .bind (.ofExcept _) fun groups => ?_
  dsimp only
  split
  · exact .bind (giveUp_still _ _ _ _) fun _ => .pure _
  · split
    · exact .bind (skip_still _ _ _) fun _ => .pure _
    · split
      · exact .bind (skip_still _ _ _) fun _ => .pure _
      · refine .bind (selectPrefix_still _ _ _ _) fun selected => ?_
        cases selected with
        | none => exact .bind (giveUp_still _ _ _ _) fun _ => .pure _
        | some groups => exact weigh_still _ _ _ _ _ _ _ _

theorem compactPass_still (number used : Int) : Still env L (e.compactPass number used) := by
  refine .bind .get fun s => .bind (requestBudget_still _) fun measured => ?_
  refine .bind (.modify fun _ => rfl) fun _ => .bind .get fun _ => .bind (.i64 _) fun grown => ?_
  refine .bind (.i64 _) fun due => ?_
  split
  · exact .pure _
  · exact duePass_still _ _ _ _

theorem compactPasses_still (left : Nat) (number used : Int) (changed : Bool) :
    Still env L (e.compactPasses left number used changed) := by
  induction left generalizing number used changed with
  | zero => exact .pure _
  | succ left ih =>
    refine .bind (compactPass_still _ _) fun out => ?_
    obtain ⟨replaced, fin⟩ := out
    cases fin with
    | stop => exact .pure _
    | next used => exact ih _ _ _

/-- A compaction, also one that fails. -/
theorem compact_still : Still env L e.compact := by
  refine .bind (compactPasses_still _ _ _ _) fun changed => .bind .get fun s => ?_
  refine .bind (requestBudget_still _) fun budget => .bind (.modify fun _ => rfl) fun _ => ?_
  split
  · exact .fail _
  · exact .pure _

end Engine

/-! ## Staging -/

namespace Server

theorem liftOp_still {f : StateOp} (hf : ∀ s, (f s).2.held = s.held) : Still env L (liftOp f) := by
  refine .step fun s => ?_
  have hs := hf s
  split
  next s' hfs =>
    rw [hfs] at hs
    exact hs
  next problem s' hfs =>
    rw [hfs] at hs
    exact hs

theorem stageMessages_still (done todo : List Message) :
    Still env L (stageMessages done todo) := by
  induction todo generalizing done with
  | nil => exact .update fun _ => rfl
  | cons m todo ih =>
    rw [stageMessages]
    split
    · exact ih _
    · refine .bind (.request rfl) fun id => .bind (.request rfl) fun createdAt => ?_
      exact .bind .state fun s => .bind (.update fun _ => rfl) fun _ => ih _

theorem stageTranscript_still : Still env L stageTranscript :=
  .bind .state fun _ => stageMessages_still _ _

theorem stageSummaries_still (provenance : List Value) :
    Still env L (stageSummaries provenance) := by
  induction provenance with
  | nil => exact .pure _
  | cons p provenance ih =>
    refine .bind (.bind .state fun s => ?_) fun _ => ih
    split
    · exact .pure _
    · split
      · exact .pure _
      · exact .bind (.request rfl) fun _ => .update fun _ => rfl

theorem archive_still (kind : String) (payload : Value) : Still env L (archive kind payload) := by
  intro c h g s hs
  refine Program.sat_bind.2 (Program.Sat.mono (archiveRecord_still kind payload c h g s hs) ?_)
  intro g' out hout
  obtain ⟨_ | _, s'⟩ := out
  · exact hout
  · exact hout

theorem archiveEvent_still (event : Value) : Still env L (archiveEvent event) := by
  refine .bind .state fun s => ?_
  split
  · exact archive_still _ _
  · exact .pure _

end Server

end StateDrivenAgent
