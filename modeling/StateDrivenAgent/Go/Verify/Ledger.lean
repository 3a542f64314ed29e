import StateDrivenAgent.Go.Verify.Upkeep

/-!
# What the ledger keeps

`Bears` collects what an invariant has to bear while a call is performed, on top of what `Stands`
asks for: changes of the one execution the call is about, and the record of it in the outbox. The
functions of the ledger do no more than that, so a call keeps every such invariant; `Opens` says how
one passes from an invariant between the calls to that of a call.
-/

namespace StateDrivenAgent

open Interaction

namespace Go

variable {G : Type} {M : Monitor Ask Answer G}

/-- The change leaves the identity of an execution, its start, and its outcome if it has one
afterwards. -/
structure Leaves (f : ToolExecution → ToolExecution) : Prop where
  call : ∀ x, (f x).callId = x.callId
  execution : ∀ x, (f x).executionId = x.executionId
  started : ∀ x, (f x).startedAt = x.startedAt
  outcome : ∀ x, (f x).status.terminal = true → (f x).status = x.status ∧ (f x).result = x.result

/-- An attempt begins; the first one gives the start. -/
def ToolExecution.begun (started : String) (x : ToolExecution) : ToolExecution :=
  { x with
    attempts := x.attempts + 1, status := .started, startedAt := some (x.startedAt.getD started) }

/-- The record of the execution alone is in the outbox. -/
def Session.staging (i : Nat) (s : Session) : Session :=
  { s with executionPending := [executionRecord (s.execution i)] }

/-- The execution has its result. -/
def Session.resolved (i : Nat) (result finished : String) (s : Session) : Session :=
  s.setExecution i fun x => { x with
    status := resultStatus result, result, finishedAt := some finished }

/-- What an invariant bears while the call of the execution `i` is performed; `D` is what is due when
the call has a result. -/
structure Bears (M : Monitor Ask Answer G) (I : G → Session → Prop) (D : G → Session → String → Prop)
    (i : Nat) : Prop extends Stands M I where
  change : ∀ {g s f}, Leaves f → I g s → I g (s.setExecution i f)
  rows : ∀ {g s} (rows : List AttemptRow), I g s → I g { s with attemptsPending := rows }
  stage : ∀ {g s}, I g s → M.must g (.mark (.stage s (s.execution i).callId)) ∧
    ∀ r, M.may g (.mark (.stage s (s.execution i).callId)) r →
      I (M.next g (.mark (.stage s (s.execution i).callId)) r) (s.staging i)
  settle : ∀ {g s} (result finished : String), I g s →
    M.must g (.mark (.stage (s.resolved i result finished)
      ((s.resolved i result finished).execution i).callId)) ∧
    ∀ r, M.may g (.mark (.stage (s.resolved i result finished)
      ((s.resolved i result finished).execution i).callId)) r →
      let g' := M.next g (.mark (.stage (s.resolved i result finished)
        ((s.resolved i result finished).execution i).callId)) r
      let s' := (s.resolved i result finished).staging i
      I g' s' ∧ D g' s' result
  due : ∀ result, Stands M fun g s => I g s ∧ D g s result
  terminal : ∀ {g s}, I g s → (s.execution i).status.terminal = true → D g s (s.execution i).result

/-- An invariant that the window check, the start of an attempt and the adapters keep. -/
structure Delivers (M : Monitor Ask Answer G) (I : G → Session → Prop) (i : Nat) : Prop where
  elapsed : ∀ since limit, Proc.Keeps M I (Proc.request (Ask.elapsed since limit) : GoM Bool)
  idempotent : ∀ name args key,
    Proc.Keeps M I (Proc.request (Ask.idempotent name args key) : GoM (Except ToolFailure String))
  begun : ∀ {g s}, I g s → M.must g .now ∧ ∀ started, M.may g .now started →
    I (M.next g .now started) (s.setExecution i (ToolExecution.begun started))

/-- What a call owes when it says that it was executed. -/
def Due (D : G → Session → String → Prop) (g : G) (s : Session) (out : String × Bool) : Prop :=
  out.2 = true → D g s out.1

/-- A step that may end the call. -/
def Ends {α : Type} (D : G → Session → String → Prop) (g : G) (s : Session)
    (r : Except (String × Bool) α) : Prop := ∀ out, r = .error out → Due D g s out

theorem due_open {D : G → Session → String → Prop} {g : G} {s : Session} {text : String} :
    Due D g s (text, false) := fun h => absurd h Bool.false_ne_true

theorem ends_ok {α : Type} {D : G → Session → String → Prop} {g : G} {s : Session} {a : α} :
    Ends D g s (.ok a) := fun _ h => by cases h

theorem ends_open {α : Type} {D : G → Session → String → Prop} {g : G} {s : Session} {text : String} :
    Ends (α := α) D g s (.error (text, false)) := fun _ h => by
  cases h
  exact due_open

section Perform

variable {I : G → Session → Prop} {D : G → Session → String → Prop} {i : Nat} (hI : Bears M I D i)

include hI

theorem Bears.leave {f : ToolExecution → ToolExecution} (hf : Leaves f) :
    Proc.Keeps M I (GoM.modify (·.setExecution i f)) :=
  Proc.keeps_update fun _ _ h => hI.change hf h

/-- An execution that stays open. -/
theorem Bears.reopen {status : ExecutionStatus} (hs : status.terminal = false) :
    Proc.Keeps M I (GoM.modify (·.setExecution i fun x => { x with status })) :=
  hI.leave ⟨fun _ => rfl, fun _ => rfl, fun _ => rfl, fun _ h => absurd (hs.symm.trans h) Bool.false_ne_true⟩

theorem stageActionAttempt_keeps (kind : AttemptKind) (status : AttemptStatus) (evidence : Value) :
    Proc.Keeps M I (stageActionAttempt i kind status evidence) := by
  refine Proc.keeps_bind hI.now fun now => Proc.keeps_bind (keeps_when ?_) fun _ =>
    Proc.keeps_bind Proc.keeps_state fun s => ?_
  · exact Proc.keeps_bind hI.uuid fun _ => hI.leave
      ⟨fun _ => rfl, fun _ => rfl, fun _ => rfl, fun _ _ => ⟨rfl, rfl⟩⟩
  · split
    · exact Proc.keeps_pure _
    · refine Proc.keeps_bind (Proc.keeps_update fun _ s h => hI.rows _ h) fun _ => hI.archive ?_ _
      split <;> decide

theorem stageExecution_keeps : Proc.Keeps M I (stageExecution i) := fun _ _ h =>
  Proc.sat_state_bind.2 (Proc.sat_bind.2 ((Proc.sat_request _).2 (hI.stage h)))

theorem markBlocked_yields (reason : String) : Proc.Yields M I (Due D) (markBlocked i reason) :=
  Proc.yields_bind (hI.reopen rfl) fun _ => Proc.yields_bind (stageExecution_keeps hI) fun _ =>
    Proc.yields_bind Proc.keeps_state fun _ =>
    Proc.yields_bind (hI.archive (by decide) _) fun _ =>
    Proc.yields_bind (hI.toStands.change fun _ => .same rfl rfl) fun _ => Proc.yields_pure fun _ _ _ => due_open

theorem markUncertain_yields (reason : String) : Proc.Yields M I (Due D) (markUncertain i reason) :=
  Proc.yields_bind (hI.reopen rfl) fun _ => Proc.yields_bind Proc.keeps_state fun _ =>
    Proc.yields_bind (keeps_when (stageActionAttempt_keeps hI _ _ _)) fun _ =>
    Proc.yields_bind (stageExecution_keeps hI) fun _ =>
    Proc.yields_bind (hI.archive (by decide) _) fun _ => Proc.yields_pure fun _ _ _ => due_open

theorem settleExecution_yields (result : String) (note : List (String × Value)) :
    Proc.Yields M I (Due D) (settleExecution i result note) := by
  refine Proc.yields_bind hI.now fun finished g s h => ?_
  refine Proc.sat_update_bind.2 (Proc.sat_bind.2 (Proc.sat_state_bind.2 (Proc.sat_bind.2
    ((Proc.sat_request _).2 ⟨(hI.settle result finished h).1, fun r hr => ?_⟩))))
  have hdone := (hI.settle result finished h).2 r hr
  refine Proc.sat_state_bind.2 (Proc.sat_bind.2 (((hI.due result).archive (by decide) _ _ _ hdone).mono
    (fun g s _ h => ?_) fun _ _ _ h => h.1))
  exact ⟨h.1, fun _ => h.2⟩

theorem invoke_keeps (hd : Delivers M I i) (mode name : String) (args : Arguments) (key : String) :
    Proc.Keeps M I (Engine.invoke mode name args key) := by
  unfold Engine.invoke
  split
  · exact hd.idempotent _ _ _
  · exact hI.ask _ rfl

omit hI in
/-- A call that ends in its ledger function. -/
theorem yields_error {α : Type} {f : GoM (String × Bool)} (hf : Proc.Yields M I (Due D) f) :
    Proc.Yields M I (Ends (α := α) D) (do return .error (← f)) := fun g s h =>
  Proc.sat_bind.2 ((hf g s h).mono_post fun _ _ _ h => ⟨h.1, fun _ heq => by
    cases heq
    exact h.2⟩)

variable (e : Engine)

theorem askOutcome_keeps (x : ToolExecution) (name : String) :
    Proc.Keeps M I (e.askOutcome x name) := by
  unfold Engine.askOutcome
  split
  · refine Proc.keeps_bind (hI.ask _ rfl) fun r => ?_
    cases r with
    | error m => exact Proc.keeps_pure _
    | ok v => exact Proc.keeps_pure _
  · exact Proc.keeps_bind (hI.ask _ rfl) fun _ => Proc.keeps_pure _

theorem admitIdempotent_yields (hd : Delivers M I i) (name : String) :
    Proc.Yields M I (Ends D) (e.admitIdempotent i name) := by
  unfold Engine.admitIdempotent
  split
  · exact yields_error (markBlocked_yields hI _)
  · refine Proc.yields_bind Proc.keeps_state fun s => Proc.yields_bind ?_ fun expired => ?_
    · unfold Engine.retentionExpired
      split
      · exact hd.elapsed _ _
      · exact Proc.keeps_pure _
    · split
      · exact yields_error (markBlocked_yields hI _)
      · split
        · exact yields_error (markUncertain_yields hI _)
        · exact Proc.yields_pure fun _ _ _ => ends_ok

variable {emit : Emit} (he : ∀ event, Proc.Keeps M I (emit event))

include he

theorem verifyOutcome_yields (name : String) :
    Proc.Yields M I (Ends D) (e.verifyOutcome emit i name) := by
  refine Proc.yields_bind Proc.keeps_state fun s =>
    Proc.yields_bind (stageActionAttempt_keeps hI _ _ _) fun _ =>
    Proc.yields_bind (Proc.keeps_attempt (he _)) fun sent => ?_
  cases sent with
  | error err => exact yields_error (markUncertain_yields hI _)
  | ok u =>
    refine Proc.yields_bind (askOutcome_keeps hI e _ _) fun v =>
      Proc.yields_bind (stageActionAttempt_keeps hI _ _ _) fun _ => ?_
    split
    · exact yields_error (markUncertain_yields hI _)
    · split
      · exact yields_error (settleExecution_yields hI _ _)
      · exact Proc.yields_pure fun _ _ _ => ends_ok

theorem resumeExecution_yields (name : String) (args : Arguments) (policy : Policy) :
    Proc.Yields M I (Ends D) (e.resumeExecution emit i name args policy) := by
  intro g s h
  refine Proc.sat_state_bind.2 ?_
  dsimp only
  split
  · exact yields_error (markBlocked_yields hI _) g s h
  · split
    · refine Proc.yields_bind ?_ (fun _ => Proc.yields_bind (stageExecution_keeps hI) fun _ =>
        Proc.yields_pure fun _ _ _ => ends_open) g s h
      exact hI.reopen rfl
    · split
      next hterminal =>
        refine ⟨h, fun out heq => ?_⟩
        cases heq
        exact fun _ => hI.terminal h hterminal
      next =>
        split
        · exact ⟨h, ends_ok⟩
        · refine Proc.sat_bind.2 (
            (?_ : Proc.Sat M _ g s (fun g s r => I g s ∧ Ends D g s r) _).mono_post fun g s r hr => ?_)
          · split
            · exact verifyOutcome_yields hI e he name g s h
            · exact ⟨h, ends_ok⟩
          · cases r with
            | error settled =>
              refine ⟨hr.1, fun out heq => hr.2 out ?_⟩
              rw [Except.error.inj heq]
            | ok notExecuted =>
              dsimp only
              split
              · exact yields_error (markBlocked_yields hI _) g s hr.1
              · split
                · exact yields_error (markUncertain_yields hI _) g s hr.1
                · exact ⟨hr.1, ends_ok⟩

omit he in
theorem finish_yields (result : String) :
    Proc.Yields M I (Due D) (Engine.dispatch.finish i result) :=
  Proc.yields_bind (stageActionAttempt_keeps hI _ _ _) fun _ => settleExecution_yields hI _ _

theorem dispatch_yields (hd : Delivers M I i) (name : String) (args : Arguments) (mode : String)
    (maxAttempts : Int) (left : Nat) :
    Proc.Yields M I (Due D) (Engine.dispatch emit i name args mode maxAttempts left) := by
  induction left with
  | zero => exact markUncertain_yields hI _
  | succ left ih =>
    intro g s h
    obtain ⟨hmust, hbegun⟩ := hd.begun h
    refine Proc.sat_bind.2 ((Proc.sat_request _).2 ⟨hmust, fun started hstarted => ?_⟩)
    refine Proc.sat_update_bind.2 (Proc.yields_bind (stageActionAttempt_keeps hI _ _ _) (fun _ =>
      Proc.yields_bind (stageExecution_keeps hI) fun _ => Proc.yields_bind Proc.keeps_state fun s =>
      Proc.yields_bind (Proc.keeps_attempt (he _)) fun sent => ?_) _ _ (hbegun started hstarted))
    cases sent with
    | error err => exact markUncertain_yields hI _
    | ok u =>
      refine Proc.yields_bind (invoke_keeps hI hd _ _ _ _) fun outcome => ?_
      cases outcome with
      | ok result => exact finish_yields hI _
      | error err =>
        refine Proc.yields_bind (stageActionAttempt_keeps hI _ _ _) fun _ => ?_
        cases err with
        | transient m =>
          dsimp only
          split
          · exact markUncertain_yields hI _
          · split
            · exact ih
            · exact finish_yields hI _
        | other m =>
          dsimp only
          split
          · exact markUncertain_yields hI _
          · exact finish_yields hI _

end Perform

/-! ## A call -/

/-- How one passes from `C`, between the calls, to the invariant of a call with the identity `id`, and
from that to `C'`. -/
structure Opens (M : Monitor Ask Answer G) (id : String) (C C' : G → Session → Prop)
    (I : Nat → G → Session → Prop) (D : G → Session → String → Prop) : Prop where
  calm : Stands M C
  bears : ∀ i, Bears M (I i) D i
  found : ∀ {g s i}, C g s → s.executions.findIdx? (fun x => x.callId = id) = some i → I i g s
  created : ∀ {g s x}, C g s → s.executions.findIdx? (fun x => x.callId = id) = none →
    x.callId = id → x.status = .pending → x.startedAt = none →
    I s.executions.length g { s with executions := s.executions ++ [x] }
  closed : ∀ {g s i}, I i g s → C' g s
  kept : ∀ {g s}, C g s → C' g s

section Call

variable {id : String} {C C' : G → Session → Prop} {I : Nat → G → Session → Prop}
  {D : G → Session → String → Prop} (hC : Opens M id C C' I D) (e : Engine) {emit : Emit}
  (he : ∀ i event, Proc.Keeps M (I i) (emit event))

/-- A call has an execution to go on with, or it is over. -/
def Opened (C' : G → Session → Prop) (I : Nat → G → Session → Prop)
    (D : G → Session → String → Prop) (g : G) (s : Session) :
    Except (String × Bool) Nat → Prop
  | .ok i => I i g s
  | .error out => C' g s ∧ Due D g s out

include hC he

theorem createExecution_sat {g : G} {s : Session} (h : C g s)
    (hnone : s.executions.findIdx? (fun x => x.callId = id) = none) (name : String)
    (args : Arguments) (policy : Policy) :
    Proc.Sat M (e.createExecution emit id name args policy) g s (Opened C' I D)
      fun g' s' _ => C' g' s' := by
  obtain ⟨hmust, hnext⟩ := hC.calm.plain .uuid rfl h
  refine Proc.sat_bind.2 ((Proc.sat_request _).2 ⟨hmust, fun executionId hid => ?_⟩)
  refine Proc.sat_state_bind.2 ?_
  dsimp only
  split
  · exact ⟨hC.kept (hnext _ hid), due_open⟩
  · have hI := hC.bears s.executions.length
    refine Proc.sat_update_bind.2 (Proc.sat_state_bind.2 (Proc.sat_bind.2
      ((hI.archive (by decide) _ _ _ (hC.created (hnext _ hid) hnone rfl rfl rfl)).mono
        (fun g s _ h => ?_) fun _ _ _ h => hC.closed h)))
    refine Proc.sat_bind.2 ((stageExecution_keeps hI g s h).mono (fun g s _ h => ?_)
      fun _ _ _ h => hC.closed h)
    refine Proc.sat_bind.2 ((Proc.keeps_attempt (he _ _) g s h).mono (fun g s sent h => ?_)
      fun _ _ _ h => hC.closed h)
    cases sent with
    | error err =>
      exact Proc.sat_bind.2 ((markUncertain_yields hI _ g s h).mono
        (fun _ _ _ h => ⟨hC.closed h.1, h.2⟩) fun _ _ _ h => hC.closed h)
    | ok u => exact h

/-- How an execution is admitted and dispatched; `J` is what holds of an admitted one. -/
structure Dispatches (M : Monitor Ask Answer G) (e : Engine) (emit : Emit) (name : String)
    (args : Arguments) (C' : G → Session → Prop) (I J : Nat → G → Session → Prop)
    (D : G → Session → String → Prop) : Prop where
  allow : ∀ {i g s}, I i g s →
    Proc.Sat M (if (e.policyOf name).mode = "idempotent" then e.admitIdempotent i name
      else pure (.ok ()) : GoM (Except (String × Bool) Unit)) g s
      (fun g' s' r => Opened C' (fun _ => J i) D g' s' (r.map fun _ => i)) fun g' s' _ => C' g' s'
  dispatch : ∀ {i g s} maxAttempts left, J i g s →
    Proc.Sat M (Engine.dispatch emit i name args (e.policyOf name).mode maxAttempts left) g s
      (fun g' s' out => C' g' s' ∧ Due D g' s' out) fun g' s' _ => C' g' s'

theorem dispatches (hd : ∀ i, Delivers M (I i) i) (name : String) (args : Arguments) :
    Dispatches M e emit name args C' I I D where
  allow {i g s} h := by
    split
    · refine (admitIdempotent_yields (hC.bears i) e (hd i) name g s h).mono (fun g s r hr => ?_)
        fun _ _ _ h => hC.closed h
      cases r with
      | error settled => exact ⟨hC.closed hr.1, hr.2 settled rfl⟩
      | ok u => exact hr.1
    · exact h
  dispatch {i g s} maxAttempts left h :=
    (dispatch_yields (hC.bears i) (he i) (hd i) _ _ _ _ _ g s h).mono (fun _ _ _ h => ⟨hC.closed h.1, h.2⟩) fun _ _ _ h => hC.closed h

variable {name : String} {J : Nat → G → Session → Prop}

theorem perform_sat {args : Arguments} (hd : Dispatches M e emit name args C' I J D) {g : G}
    {s : Session} (h : C g s) :
    Proc.Sat M (e.perform emit id name args) g s (fun g' s' out => C' g' s' ∧ Due D g' s' out)
      fun g' s' _ => C' g' s' := by
  refine Proc.sat_state_bind.2 (Proc.sat_bind.2
    ((?_ : Proc.Sat M _ g s (Opened C' I D) _).mono_post fun g s opened h => ?_))
  · split
    next i hi =>
      refine Proc.sat_bind.2 ((resumeExecution_yields (hC.bears i) e (he i) name args _ g s
        (hC.found h hi)).mono (fun g s r hr => ?_) fun _ _ _ h => hC.closed h)
      cases r with
      | error out => exact ⟨hC.closed hr.1, hr.2 out rfl⟩
      | ok u => exact hr.1
    next hnone => exact createExecution_sat hC e he h hnone name args _
  · cases opened with
    | error settled => exact h
    | ok i =>
      refine Proc.sat_bind.2 ((hd.allow h).mono_post fun g s admitted h => ?_)
      cases admitted with
      | error settled => exact h
      | ok u => exact Proc.sat_state_bind.2 (hd.dispatch _ _ h)

theorem call_sat {args : Option Arguments}
    (hd : Dispatches M e emit name (args.getD []) C' I J D) {g : G} {s : Session} (h : C g s) :
    Proc.Sat M (e.call emit id name args) g s (fun g' s' out => C' g' s' ∧ Due D g' s' out)
      fun g' s' _ => C' g' s' := by
  refine Proc.sat_state_bind.2 ?_
  dsimp only
  split
  · exact ⟨hC.kept h, due_open⟩
  · split
    · exact ⟨hC.kept h, due_open⟩
    · exact perform_sat hC e he hd h

end Call

/-! ## Invariants that leave the ledger aside -/

/-- An effect that does not commit, and does not mark a request or a save. -/
def Ask.free : Ask → Bool
  | .commit .. | .transact .. | .mark .request | .mark .save => false
  | _ => true

/-- An invariant of the messages and what they leave to commit. -/
structure Worded (M : Monitor Ask Answer G) (I : G → Session → Prop) : Prop extends Stands M I where
  free : ∀ {g s} (a : Ask), a.free = true → I g s →
    M.must g a ∧ ∀ r, M.may g a r → I (M.next g a r) s
  talk : ∀ {g s s'}, I g s → s'.memory = s.memory → s'.transcriptPending = s.transcriptPending →
    s'.pendingCommitId = s.pendingCommitId → I g s'

section Worded

variable {I : G → Session → Prop} (hI : Worded M I)

include hI

theorem Worded.bears (i : Nat) : Bears M I (fun _ _ _ => True) i where
  toStands := hI.toStands
  change _ h := hI.talk h rfl rfl rfl
  rows _ h := hI.talk h rfl rfl rfl
  stage {g s} h := by
    obtain ⟨hmust, hnext⟩ := hI.free (.mark (.stage s (s.execution i).callId)) rfl h
    exact ⟨hmust, fun r hr => hI.talk (hnext r hr) rfl rfl rfl⟩
  settle {g s} result finished h := by
    have hr : I g (s.resolved i result finished) := hI.talk h rfl rfl rfl
    obtain ⟨hmust, hnext⟩ := hI.free (.mark (.stage (s.resolved i result finished)
      ((s.resolved i result finished).execution i).callId)) rfl hr
    exact ⟨hmust, fun r hr => ⟨hI.talk (hnext r hr) rfl rfl rfl, trivial⟩⟩
  due _ := {
    staged := fun h => hI.staged h.1
    plain := fun a ha h => ⟨(hI.plain a ha h.1).1, fun r hr => ⟨(hI.plain a ha h.1).2 r hr, trivial⟩⟩
    quiet := fun hq h => ⟨hI.quiet hq h.1, trivial⟩
    entry := fun x hx h => ⟨hI.entry x hx h.1, trivial⟩ }
  terminal _ _ := trivial

theorem Worded.opens (id : String) : Opens M id I I (fun _ => I) fun _ _ _ => True where
  calm := hI.toStands
  bears := hI.bears
  found h _ := h
  created h _ _ _ _ := hI.talk h rfl rfl rfl
  closed h := h
  kept h := h

theorem Worded.delivers (i : Nat) : Delivers M I i where
  elapsed _ _ := Proc.keeps_request fun _ _ h => hI.free _ rfl h
  idempotent _ _ _ := Proc.keeps_request fun _ _ h => hI.free _ rfl h
  begun h := by
    obtain ⟨hmust, hnext⟩ := hI.free .now rfl h
    exact ⟨hmust, fun started hr => hI.talk (hnext started hr) rfl rfl rfl⟩

theorem Worded.call_keeps (e : Engine) {emit : Emit} (he : ∀ event, Proc.Keeps M I (emit event))
    (id name : String) (args : Option Arguments) : Proc.Keeps M I (e.call emit id name args) :=
  fun _ _ h => (call_sat (hI.opens id) e (fun _ => he) (dispatches (hI.opens id) e (fun _ => he)
    hI.delivers name (args.getD [])) h).mono_post fun _ _ _ h => h.1

end Worded

end Go

end StateDrivenAgent
