import StateDrivenAgent.Interaction.Answers
import StateDrivenAgent.Verify.Acting

/-!
# Serving requests

The requests of one session are served one after another, from its creation on, and each of them may
be cut off anywhere. A `Service` is an upkeep for the part of a request before its run and one for
each kind of run; what is stored between requests starts the next one. Every request then meets its
obligations (`Service.serves`), and so does every request of every history (`Service.kept`).
-/

namespace StateDrivenAgent

open Interaction

namespace Server

/-! ## Requests -/

/-- A request for one session; the creation from its configuration on. -/
inductive Request where
  | create (q : Value) (goal : String) (raw : Value) (sha : String)
  | message (id : String) (q : Value)
  | run (id : String) (q : Value)
  | streamRun (id : String) (q : Value)
  | resume (id : String) (q : Value)
  | reconcile (command : Command) (id runId : String)

def Request.program (env : Deployment) (config : Config) : Request → Prog Unit
  | .create q goal raw sha => (createSession env q goal raw sha config).bind fun _ => .ret ()
  | .message id q => (Server.message id q).bind fun _ => .ret ()
  | .run id q => (Server.run env id q).bind fun _ => .ret ()
  | .streamRun id q => (Server.streamRun env id q).bind fun _ => .ret ()
  | .resume id q => (Server.resume env id q).bind fun _ => .ret ()
  | .reconcile command id runId => (Server.reconcile command id runId).bind fun _ => .ret ()

/-- What the request has the user say. -/
def Request.said : Request → Option String
  | .message _ q | .resume _ q => (q.index "content").asStr
  | _ => none

/-- Only a session that is not stored is created. -/
def Request.creates : Request → Prop
  | .create .. => True
  | _ => False

/-- The requests that may come next. -/
def client (env : Deployment) (config : Config) (permitted : Ghost → Request → Prop) (g : Ghost)
    (p : Prog Unit) : Prop :=
  ∃ request : Request, p = request.program env config ∧ permitted g request ∧
    (request.creates → g.stored = none)

/-! ## Handlers -/

variable {env : Deployment} {config : Config} {promise : Ghost → (x : Eff) → Reply x → Prop}
  {owes : Ghost → Eff → Prop} {g : Ghost} {s : Session} {α β : Type}

/-- A handler meets its obligations, and ends in `post` unless it answers early. -/
structure Handles (env : Deployment) (config : Config)
    (promise : Ghost → (x : Eff) → Reply x → Prop) (owes : Ghost → Eff → Prop) (f : HandlerM α)
    (g : Ghost) (s : Session) (post : Ghost → Session → α → Prop) : Prop where
  sat : f.Sat (watch env config promise owes) g s post fun _ _ _ => True

namespace Handles

variable {post : Ghost → Session → α → Prop} {post' : Ghost → Session → β → Prop} {f : HandlerM α}
  {k : α → HandlerM β}

theorem pure {a : α} (h : post g s a) :
    Handles env config promise owes (Pure.pure a : HandlerM α) g s post := ⟨h⟩

theorem answer (r : Commands.Response) :
    Handles env config promise owes (HandlerM.answer r : HandlerM α) g s post := ⟨trivial⟩

theorem mono (h : Handles env config promise owes f g s post) {post' : Ghost → Session → α → Prop}
    (hp : ∀ g' s' a, post g' s' a → post' g' s' a) : Handles env config promise owes f g s post' :=
  ⟨h.sat.mono_post hp⟩

theorem bind (h : Handles env config promise owes f g s post)
    (hk : ∀ g' s' a, post g' s' a → Handles env config promise owes (k a) g' s' post') :
    Handles env config promise owes (f >>= k) g s post' :=
  ⟨Proc.sat_bind.mpr (h.sat.mono_post fun g' s' a h' => (hk g' s' a h').sat)⟩

theorem get_bind {k : Session → HandlerM β} (h : Handles env config promise owes (k s) g s post') :
    Handles env config promise owes (HandlerM.get >>= k) g s post' := ⟨h.sat⟩

theorem update_bind {change : Session → Session} {k : Unit → HandlerM β}
    (h : Handles env config promise owes (k ()) g (change s) post') :
    Handles env config promise owes (HandlerM.update change >>= k) g s post' := ⟨h.sat⟩

/-- An effect without obligation that leaves the ghost state as it is. -/
theorem effect_bind (U : Upkeep env ⟨env.toHost, config⟩ promise owes) {x : Eff}
    {k : Reply x → HandlerM β} (hq : x.quiet = true) (hi : x.inert = true)
    (h : ∀ r, (watch env config promise owes).may g x r →
      Handles env config promise owes (k r) g s post') :
    Handles env config promise owes (HandlerM.effect x >>= k) g s post' :=
  ⟨U.sat_request_bind hq hi fun r hr => (h r hr).sat⟩

end Handles

section upkeep

variable {U : Upkeep env ⟨env.toHost, config⟩ promise owes} {value event q : Value} {l : Lease}

/-- The update changes nothing an upkeep depends on. -/
theorem attach_at (h : U.At g s) : U.At g (attach q s) :=
  ⟨h.inv, h.numbered, h.reload⟩

theorem save_handles (h : U.At g s) (hev : U.Event event) :
    Handles env config promise owes (HandlerM.save value event) g s fun g' s' _ =>
      U.At g' s' ∧ s'.core = s.core := by
  refine ⟨Program.sat_bind.mpr (Program.Sat.mono (Upkeep.save_sat h hev) ?_)⟩
  rintro g' ⟨_ | _, s'⟩ hout
  · exact ⟨hout.1, hout.2.1.core⟩
  · exact ⟨hout.1, hout.2.1.core⟩

theorem engine_handles {f : EngineM α} {post : Ghost → Session → α → Prop}
    (h : U.Does f g s post) :
    Handles env config promise owes (HandlerM.engine f) g s fun g' s' out =>
      U.At g' s' ∧ (∀ a, out = .ok a → post g' s' a) ∧ ∀ x, out = .error x → U.Fails g' x := by
  refine ⟨Program.sat_bind.mpr (Program.Sat.mono h ?_)⟩
  rintro g' ⟨x | a, s'⟩ ⟨hat, hout⟩
  · exact ⟨hat, nofun, fun x' hx => Except.error.inj hx ▸ hout⟩
  · exact ⟨hat, fun a' ha => Except.ok.inj ha ▸ hout, nofun⟩

theorem release_bind {k : Unit → HandlerM β} {post : Ghost → Session → β → Prop}
    (U : Upkeep env ⟨env.toHost, config⟩ promise owes)
    (h : Handles env config promise owes (k ()) g s post) :
    Handles env config promise owes (release l >>= k) g s post :=
  .effect_bind U rfl rfl fun _ _ => h

theorem releaseWith_handles (U : Upkeep env ⟨env.toHost, config⟩ promise owes)
    (r : Commands.Response) {post : Ghost → Session → α → Prop} :
    Handles env config promise owes (releaseWith l r : HandlerM α) g s post :=
  release_bind U (.answer r)

theorem tell_bind {k : Unit → HandlerM β} {post : Ghost → Session → β → Prop}
    (U : Upkeep env ⟨env.toHost, config⟩ promise owes)
    (h : Handles env config promise owes (k ()) g s post) :
    Handles env config promise owes (tell event >>= k) g s post := by
  have htold : Handles env config promise owes (tell event) g s fun g' s' _ => g' = g ∧ s' = s :=
    .effect_bind U rfl rfl fun _ _ => .pure ⟨rfl, rfl⟩
  exact .bind htold fun _ _ _ ⟨hg, hs⟩ => hg ▸ hs ▸ h

theorem endTask_handles (U : Upkeep env ⟨env.toHost, config⟩ promise owes)
    {post : Ghost → Session → α → Prop} :
    Handles env config promise owes (endTask l event : HandlerM α) g s post :=
  tell_bind U (releaseWith_handles U _)

theorem appendMessage_sat (U : Upkeep env ⟨env.toHost, config⟩ promise owes) (body : MessageBody) :
    (appendMessage body).Sat (watch env config promise owes) g s
      (fun g' s' _ => g' = g ∧ Becomes s (s.core.append body) s') fun _ _ _ => False := by
  refine U.sat_request_bind rfl rfl fun id _ => U.sat_request_bind rfl rfl fun createdAt _ => ?_
  refine ⟨rfl, ?_, ⟨rfl, rfl, rfl, rfl⟩, rfl⟩
  simp only [Session.core, Session.task, List.map_append, List.map_cons, List.map_nil]
  rfl

/-- What the user says is appended where that is allowed. -/
theorem append_handles (h : U.At g s) (text : String) (hsay : U.content s.core) :
    Handles env config promise owes (HandlerM.engine (appendMessage (msg "user" text))) g s
      fun g' s' _ => U.At g' s' ∧ s'.core = s.core.append (msg "user" text) := by
  refine ⟨Program.sat_bind.mpr (Program.Sat.mono (appendMessage_sat U (msg "user" text)) ?_)⟩
  rintro g' ⟨_ | _, s'⟩ hout
  · exact hout.elim
  · obtain ⟨rfl, hb⟩ := hout
    exact ⟨h.becomes hb (.content text hsay), hb.core⟩

/-! ## Before the run -/

theorem acquire_handles (h : U.At g s) (id : String) :
    Handles env config promise owes (acquire env id) g s fun g' s' _ =>
      U.At g' s' ∧ s'.core = s.core := by
  unfold acquire
  split
  · exact .answer _
  · refine .effect_bind U rfl rfl fun r _ => ?_
    split
    · exact .answer _
    · exact .update_bind (.pure ⟨⟨h.inv, h.numbered, h.reload⟩, rfl⟩)

theorem closeAbandoned_handles (hreq : U.request) (h : U.At g s) :
    Handles env config promise owes (closeAbandoned value l) g s fun g' s' _ =>
      U.At g' s' ∧ s'.task = s.task := by
  unfold closeAbandoned
  refine .get_bind ?_
  split
  · exact .pure ⟨h, rfl⟩
  · refine .effect_bind U rfl rfl fun now _ => .update_bind ?_
    have hinterrupt : U.At g (interrupt now s) :=
      h.becomes ⟨rfl, ⟨rfl, rfl, rfl, rfl⟩, rfl⟩ (.interrupt "previous_worker_abandoned" hreq)
    refine .bind (save_handles hinterrupt (U.harmless (harmless_plain rfl))) fun g' s' r h' => ?_
    cases r with
    | ok u => exact .pure ⟨h'.1, (Session.task_of_core h'.2).trans rfl⟩
    | error x => exact releaseWith_handles U _

theorem appendGiven_handles (h : U.At g s) (content : Option String)
    (hsay : content.isSome = true → U.content s.core) :
    Handles env config promise owes (appendGiven content) g s fun g' s' _ => U.At g' s' := by
  cases content with
  | none => exact .pure h
  | some text => exact .bind (append_handles h text (hsay rfl)) fun _ _ _ h' => .pure h'.1

theorem reopen_at (hreq : U.request) (h : U.At g s) : U.At g (reopen s) :=
  h.becomes ⟨rfl, ⟨rfl, rfl, rfl, rfl⟩, rfl⟩ (.reopen hreq)

theorem resumeSession_handles (hreq : U.request) (h : U.At g s)
    (hsay : (q.index "content").asStr.isSome = true → U.content s.core) :
    Handles env config promise owes (resumeSession q value l) g s fun g' s' _ =>
      U.At g' s' ∧ s'.status = .active := by
  unfold resumeSession
  refine .bind (appendGiven_handles h _ hsay) fun g₁ s₁ _ h₁ => .update_bind ?_
  refine .bind (save_handles (reopen_at hreq h₁) (U.harmless (harmless_plain rfl)))
    fun g₂ s₂ r h₂ => ?_
  cases r with
  | ok u => exact .pure ⟨h₂.1, congrArg (·.status) h₂.2⟩
  | error x => exact releaseWith_handles U _

theorem saveAndTell_handles (h : U.At g s) (hev : U.Event event) :
    Handles env config promise owes (saveAndTell value event) g s fun g' s' _ =>
      U.At g' s' ∧ s'.core = s.core := by
  unfold saveAndTell
  refine .bind (save_handles h hev) fun g' s' r h' => ?_
  cases r with
  | error x => exact .pure h'
  | ok u =>
    refine .get_bind ⟨Proc.sat_bind.mpr (Proc.sat_lift.mpr ?_)⟩
    refine ⟨U.quiet rfl, fun id _ => ?_⟩
    show Program.Sat _ (.ret _) (g'.next (.eventId s'.id s'.revision) id) _
    rw [Ghost.next_inert id rfl]
    have htold : ∀ event, Handles env config promise owes
        (tell event >>= fun _ => pure (.ok ()) : HandlerM (Except SqlError Unit)) g' s'
          fun g s' _ => U.At g s' ∧ s'.core = s.core := fun _ => tell_bind U (.pure h')
    exact (htold _).sat

theorem announce_handles (h : U.At g s) (resume : Bool) :
    Handles env config promise owes (announce env value resume l) g s fun g' s' _ =>
      U.At g' s' ∧ s'.core = s.core := by
  have hrestored : Handles env config promise owes
      (if resume then announceRestored value l else pure () : HandlerM Unit) g s fun g' s' _ =>
        U.At g' s' ∧ s'.core = s.core := by
    cases resume with
    | false => exact .pure ⟨h, rfl⟩
    | true =>
      refine .bind (saveAndTell_handles h (U.harmless (harmless_plain rfl))) fun g' s' r h' => ?_
      cases r with
      | ok u => exact .pure h'
      | error x => exact endTask_handles U
  unfold announce
  refine .bind hrestored fun g₁ s₁ _ h₁ => ?_
  split
  · unfold announceSetup
    refine .get_bind (.bind (saveAndTell_handles h₁.1 (U.harmless (harmless_plain rfl)))
      fun g₂ s₂ r h₂ => ?_)
    cases r with
    | ok u => exact .pure ⟨h₂.1, h₂.2.trans h₁.2⟩
    | error x => exact endTask_handles U
  · exact .pure h₁

/-! ## After the run -/

theorem committedResponse_handles (U : Upkeep env ⟨env.toHost, config⟩ promise owes) :
    Handles env config promise owes (committedResponse q) g s fun _ _ _ => True := by
  refine .effect_bind U rfl rfl fun r _ => ?_
  split <;> exact .pure trivial

theorem acknowledgeCommittedOutboxes_alike (s : Session) :
    (acknowledgeCommittedOutboxes s).core = s.core ∧
      SameJournal s (acknowledgeCommittedOutboxes s) := by
  obtain ⟨hcore, hjournal⟩ := Upkeep.acknowledge_alike s
  exact ⟨hcore, hjournal.counts, hjournal.events, hjournal.attempts, hjournal.decisions⟩

/-- A handler whose engine has failed overrules the outcome. -/
theorem stopped_at {s' : Session} (runStatus : RunStatus) (reason answer : String) (h : U.At g s)
    (herr : U.Err g) (hcore : s'.core = { s.core with
      status := .failed, runStatus, runTerminationReason := some reason, finalAnswer := some answer })
    (hjournal : SameJournal s s') : U.At g s' :=
  ⟨hcore ▸ U.move h.inv (.stop runStatus reason answer herr), hjournal.numbered h.numbered,
    fun _ => herr⟩

theorem stoppedRun_at (h : U.At g s) (herr : U.Err g) (now error : String) :
    U.At g (stoppedRun now error s) := by
  obtain ⟨hcore, hjournal⟩ := acknowledgeCommittedOutboxes_alike (adoptRevision s)
  unfold stoppedRun
  by_cases hstopped : error = runCancelled
  · simp only [hstopped, decide_true, if_true]
    refine stopped_at .cancelled "run_cancelled"
      "Run cancelled; use /resume to recover committed work." h herr ?_
      ⟨hjournal.counts, hjournal.events, hjournal.attempts, hjournal.decisions⟩
    exact congrArg (fun c : Core => { c with
      status := .failed, runStatus := .cancelled, runTerminationReason := some "run_cancelled"
      finalAnswer := some "Run cancelled; use /resume to recover committed work." }) hcore
  · simp only [hstopped, decide_false, Bool.false_eq_true, if_false]
    exact stopped_at .blocked "recovery_required"
      "Safe recovery requires resolving the original action." h herr rfl ⟨rfl, rfl, rfl, rfl⟩

theorem finishRun_handles (h : U.At g s) {outcome : Except String Unit}
    (hfails : ∀ x, outcome = .error x → U.Fails g x)
    (hsettles : ∀ x, U.Fails g x → settles x = true → U.Err g) :
    Handles env config promise owes (finishRun value q outcome) g s fun _ _ _ => True := by
  cases outcome with
  | ok u =>
    have hadopt : U.At g (adoptRevision s) := ⟨h.inv, h.numbered, h.reload⟩
    refine .update_bind (.get_bind (.bind (save_handles hadopt (U.harmless (harmless_plain rfl)))
      fun g' s' r _ => ?_))
    cases r with
    | ok u => exact committedResponse_handles U
    | error x => exact .pure trivial
  | error x =>
    unfold finishRun
    dsimp only
    split
    · next hsettle =>
      have hstopped := fun now => stoppedRun_at h (hsettles x (hfails x rfl) hsettle) now x
      refine .effect_bind U rfl rfl fun now _ => .update_bind (.get_bind ?_)
      refine .bind (save_handles (hstopped now) (U.harmless (harmless_plain rfl)))
        fun g' s' r _ => ?_
      cases r with
      | error x => exact .pure trivial
      | ok u =>
        dsimp only
        split
        · exact committedResponse_handles U
        · exact .get_bind (.pure trivial)
    · exact .pure trivial

theorem failedRun_at (h : U.At g s) (herr : U.Err g) (now error : String) :
    U.At g (failedRun now error s) := by
  obtain ⟨hcore, hjournal⟩ := acknowledgeCommittedOutboxes_alike s
  unfold failedRun
  by_cases hstopped : error = runCancelled
  · simp only [hstopped, decide_true, if_true]
    refine stopped_at .cancelled "run_cancelled"
      "Run cancelled; use /resume to recover committed work." h herr ?_
      ⟨hjournal.counts, hjournal.events, hjournal.attempts, hjournal.decisions⟩
    exact congrArg (fun c : Core => { c with
      status := .failed, runStatus := .cancelled, runTerminationReason := some "run_cancelled"
      finalAnswer := some "Run cancelled; use /resume to recover committed work." }) hcore
  · simp only [hstopped, decide_false, Bool.false_eq_true, if_false]
    exact stopped_at _ _ ("Agent run failed: " ++ error) h herr rfl ⟨rfl, rfl, rfl, rfl⟩

theorem harmless_failureEvent (now error : String) (s : Session) :
    Harmless (failureEvent (failedRun now error s)) := by
  have hcode : ∀ (stopped : Bool) (rest : List (String × Value)),
      ((some (Value.obj (("code", .str (if stopped then "run_cancelled" else "run_failed")) ::
        rest))).bind fun error => error.get "code").getD .null =
          .str (if stopped then "run_cancelled" else "run_failed") := fun _ _ => rfl
  have hallowed : (if decide (error = runCancelled) then "run_cancelled" else "run_failed") ≠
      "context_integrity_error" := by split <;> decide
  exact harmless_code (congrArg some (hcode _ _)) hallowed

theorem commitFailure_handles (h : U.At g s) (hev : U.Event event) :
    Handles env config promise owes (commitFailure value l event) g s fun g' s' _ => U.At g' s' := by
  unfold commitFailure
  refine .bind (save_handles h hev) fun g' s' r h' => ?_
  cases r with
  | ok u => exact .update_bind (.pure ⟨h'.1.inv, h'.1.numbered, h'.1.reload⟩)
  | error x => exact endTask_handles U

theorem markUncertain_handles (U : Upkeep env ⟨env.toHost, config⟩ promise owes)
    (command : Option Command) :
    Handles env config promise owes (markUncertain command) g s fun _ _ _ => True := by
  cases command with
  | none => exact .pure trivial
  | some command => exact .effect_bind U rfl rfl fun _ _ => .pure trivial

theorem storeOutcome_handles (h : U.At g s) {outcome : Except String Unit}
    (hfails : ∀ x, outcome = .error x → U.Fails g x)
    (hstores : ∀ x, U.Fails g x → Text.containsStr x "commit_outcome_unresolved" = false →
      U.Err g) :
    Handles env config promise owes (storeOutcome value l outcome) g s fun g' s' _ =>
      U.At g' s' := by
  cases outcome with
  | ok u => exact .pure h
  | error x =>
    unfold storeOutcome storeFailure
    dsimp only
    split
    · refine .get_bind (.bind (markUncertain_handles U _) fun _ _ _ _ => endTask_handles U)
    · next hresolved =>
      have herr := hstores x (hfails x rfl) (by simpa using hresolved)
      refine .effect_bind U rfl rfl fun now _ => .update_bind (.get_bind ?_)
      exact .bind (commitFailure_handles (failedRun_at h herr now x)
        (U.harmless (harmless_failureEvent now x s))) fun g' s' _ h' => tell_bind U (.pure h')

theorem finishStream_handles (h : U.At g s) {outcome : Except String Unit}
    (hfails : ∀ x, outcome = .error x → U.Fails g x)
    (hstores : ∀ x, U.Fails g x → Text.containsStr x "commit_outcome_unresolved" = false →
      U.Err g) :
    Handles env config promise owes (finishStream value l outcome) g s fun _ _ _ => True := by
  have hadopt : ∀ {g s}, U.At g s → U.At g (adoptRevision s) :=
    fun h => ⟨h.inv, h.numbered, h.reload⟩
  unfold finishStream
  refine .update_bind (.bind (storeOutcome_handles (hadopt h) hfails hstores) fun g₁ s₁ _ h₁ => ?_)
  refine .update_bind (.get_bind (.bind (saveAndTell_handles (hadopt h₁)
    (U.harmless (harmless_plain rfl))) fun g₂ s₂ r _ => ?_))
  cases r with
  | ok u => exact release_bind U (.pure trivial)
  | error x => exact endTask_handles U

theorem execute_does {emit : Emit} (hemit : U.Emits emit) (hread : env.readConfig value = .ok config)
    (ha : s.status = .active) (h : ∀ runId now, runId ∉ s.runId.toList →
      U.At g (Engine.startRun ⟨env.toHost, config⟩ runId now s)) :
    U.Does (execute env value q emit) g s fun _ _ _ => True := by
  unfold execute
  rw [hread]
  exact Upkeep.run_does hemit _ ha h

end upkeep

end Server

/-! ## Services -/

/-- Upkeeps for the parts of a request, and how they start. -/
structure Service (env : Deployment) (config : Config)
    (promise : Ghost → (x : Eff) → Reply x → Prop) (owes : Ghost → Eff → Prop) where
  before : Upkeep env ⟨env.toHost, config⟩ promise owes
  running : Upkeep env ⟨env.toHost, config⟩ promise owes
  streaming : Upkeep env ⟨env.toHost, config⟩ promise owes
  request : before.request
  /-- What holds between requests. -/
  Stored : Ghost → Prop
  stable : (watch env config promise owes).Stable Stored
  created : ∀ {g s}, Stored g → g.stored = none → (∃ command id goal ref sha resolved,
    s = Server.newSession config command id goal ref sha resolved) → before.At g s
  loaded : ∀ {g id s value}, Stored g →
    (watch env config promise owes).may g (.load id) (some (s, value)) →
      before.At (g.next (.load id) (some (s, value))) s
  runs : ∀ {g s runId now}, before.At g s → s.status = .active → runId ∉ s.runId.toList →
    running.At g (Engine.startRun ⟨env.toHost, config⟩ runId now s)
  streams : ∀ {g s runId now}, before.At g s → s.status = .active → runId ∉ s.runId.toList →
    streaming.At g (Engine.startRun ⟨env.toHost, config⟩ runId now s)
  settles : ∀ {g x}, running.Fails g x → Server.settles x = true → running.Err g
  stores : ∀ {g x}, streaming.Fails g x →
    Text.containsStr x "commit_outcome_unresolved" = false → streaming.Err g
  /-- Whether the user may say something depends on the task. -/
  content : ∀ {c c' : Core}, c'.toTask = c.toTask → before.content c → before.content c'

namespace Service

variable {env : Deployment} {config : Config} {promise : Ghost → (x : Eff) → Reply x → Prop}
  {owes : Ghost → Eff → Prop} (S : Service env config promise owes) {g : Ghost} {s : Session}
  {q value : Value}

open Server

/-- The requests a service can serve: the user says something only where that is allowed. -/
def Permits (g : Ghost) (request : Request) : Prop :=
  request.said.isSome = true → ∀ x, g.stored = some x →
    S.before.content (x.reloaded env.toHost).core

/-- A required text is there. -/
theorem text_of_required {field : String} (h : requiredText field q = []) :
    (q.index field).asStr.isSome = true := by
  unfold requiredText at h
  split at h
  · cases h
  next v hv =>
    have hindex : q.index field = v := by
      rw [Value.index, hv]
      rfl
    rw [hindex]
    unfold textErrors at h
    split at h
    · cases h
    · rfl
    · cases h

theorem appendContent_handles (h : S.before.At g s) (content : String)
    (hsay : S.before.content s.core) :
    Handles env config promise owes (appendContent q value content) g s fun _ _ _ => True := by
  unfold appendContent
  refine .update_bind (.get_bind ?_)
  split
  · exact .answer _
  · refine .bind (append_handles (attach_at h) content hsay) fun g₁ s₁ _ h₁ => ?_
    refine .bind (save_handles h₁.1 (S.before.harmless (harmless_plain rfl))) fun g₂ s₂ r _ => ?_
    cases r with
    | ok u => exact .get_bind (.pure trivial)
    | error x => exact .pure trivial

theorem runSession_handles (h : S.before.At g s) (hread : env.readConfig value = .ok config)
    (id : String) :
    Handles env config promise owes (runSession env id q value) g s fun _ _ _ => True := by
  unfold runSession
  refine .update_bind (.get_bind ?_)
  split
  · exact .answer _
  next hactive =>
    have hactive : (attach q s).status = .active := not_not.1 hactive
    refine .bind (acquire_handles (attach_at h) id) fun g₁ s₁ l h₁ => ?_
    refine .bind (closeAbandoned_handles S.request h₁.1) fun g₂ s₂ _ h₂ => .update_bind ?_
    have hopen : S.before.At g₂ (openCounter s₂) := ⟨h₂.1.inv, h₂.1.numbered, h₂.1.reload⟩
    have hstatus : (openCounter s₂).status = .active :=
      (Session.status_of_task h₂.2).trans ((congrArg (·.status) h₁.2).trans hactive)
    refine .bind (engine_handles (execute_does (Upkeep.emits_run value) hread hstatus
      fun runId now hrun => S.runs hopen hstatus hrun)) fun g₃ s₃ outcome h₃ => ?_
    refine .bind (finishRun_handles h₃.1 h₃.2.2 fun x => S.settles) fun g₄ s₄ response _ => ?_
    exact release_bind S.running (.pure trivial)

theorem streamTask_handles (h : S.before.At g s) (hread : env.readConfig value = .ok config)
    (hactive : s.status = .active) (resume : Bool) {l : Lease} :
    Handles env config promise owes (streamTask env q value resume l) g s fun _ _ _ => True := by
  unfold streamTask
  refine .bind (announce_handles h resume) fun g₁ s₁ _ h₁ => .update_bind ?_
  have hopen : S.before.At g₁ (openCounter s₁) := ⟨h₁.1.inv, h₁.1.numbered, h₁.1.reload⟩
  have hstatus : (openCounter s₁).status = .active := (congrArg (·.status) h₁.2).trans hactive
  refine .bind (engine_handles (execute_does (Upkeep.emits_stream value) hread hstatus
    fun runId now hrun => S.streams hopen hstatus hrun)) fun g₂ s₂ outcome h₂ => ?_
  exact finishStream_handles h₂.1 h₂.2.2 fun x => S.stores

theorem streamSession_handles (h : S.before.At g s) (hread : env.readConfig value = .ok config)
    (id : String) (resume : Bool)
    (hsay : resume = true → (q.index "content").asStr.isSome = true → S.before.content s.core) :
    Handles env config promise owes (streamSession env id q value resume) g s fun _ _ _ => True := by
  unfold streamSession
  refine .update_bind (.get_bind ?_)
  split
  · exact .answer _
  next hopen =>
    refine .bind (acquire_handles (attach_at h) id) fun g₁ s₁ l h₁ => ?_
    refine .bind (closeAbandoned_handles S.request h₁.1) fun g₂ s₂ _ h₂ => ?_
    have htask : s₂.core.toTask = s.core.toTask :=
      h₂.2.trans ((Session.task_of_core h₁.2).trans rfl)
    have hresumed : Handles env config promise owes (resumeIf resume q value l) g₂ s₂ fun g' s' _ =>
        S.before.At g' s' ∧ s'.status = .active := by
      cases resume with
      | true => exact resumeSession_handles S.request h₂.1 fun hsome =>
          S.content htask (hsay rfl hsome)
      | false =>
        have hactive : (attach q s).status = .active := by
          by_contra hne
          exact hopen ⟨rfl, hne⟩
        exact .pure ⟨h₂.1, (congrArg Task.status htask).trans hactive⟩
    refine .bind hresumed fun g₃ s₃ _ h₃ => ?_
    exact .bind (S.streamTask_handles h₃.1 hread h₃.2 resume) fun _ _ _ _ => .pure trivial

/-! ## Requests -/

/-- `p` meets its obligations. -/
def Meets (env : Deployment) (config : Config) (promise : Ghost → (x : Eff) → Reply x → Prop)
    (owes : Ghost → Eff → Prop) {α : Type} (p : Prog α) (g : Ghost) : Prop :=
  p.Sat (watch env config promise owes) g fun _ _ => True

theorem meets_serve {f : HandlerM Commands.Response} {post : Ghost → Session → Commands.Response → Prop}
    (h : Handles env config promise owes f g s post) :
    Meets env config promise owes (f.serve s) g := by
  refine Program.sat_bind.mpr (Program.Sat.mono h.sat ?_)
  rintro g' ⟨_ | _, s'⟩ _ <;> exact trivial

theorem meets_end {α : Type} {p : Prog α} (h : Meets env config promise owes p g) :
    Meets env config promise owes (p.bind fun _ => .ret ()) g :=
  Program.sat_bind.mpr (Program.Sat.mono h fun _ _ _ => trivial)

/-- What a handler may rely on of a loaded session. -/
structure Loaded (g : Ghost) (id : String) (s : Session) (value : Value) : Prop where
  at' : S.before.At (g.next (.load id) (some (s, value))) s
  read : env.readConfig value = .ok config
  stored : ∃ x, g.stored = some x ∧ s = x.reloaded env.toHost

theorem meets_load {α : Type} {id : String} {k : Option (Session × Value) → Prog α} (hg : S.Stored g)
    (hnone : Meets env config promise owes (k none) (g.next (.load id) none))
    (hsome : ∀ s value, S.Loaded g id s value →
      Meets env config promise owes (k (some (s, value))) (g.next (.load id) (some (s, value)))) :
    Meets env config promise owes (.perform (.load id) k) g := by
  refine ⟨S.before.quiet rfl, fun r hr => ?_⟩
  match r with
  | none => exact hnone
  | some (s, value) =>
    obtain ⟨hstored, hread⟩ := hr.1 s value rfl
    exact hsome s value ⟨S.loaded hg hr, hread, hstored⟩

include S in
theorem meets_lock {α : Type} {id : String} {k : Bool → Prog α}
    (h : ∀ locked, Meets env config promise owes (k locked) g) :
    Meets env config promise owes (.perform (.lockSession id) k) g := by
  refine ⟨S.before.quiet rfl, fun locked _ => ?_⟩
  show Meets env config promise owes (k locked) (g.next (.lockSession id) locked)
  rw [Ghost.next_inert locked rfl]
  exact h locked

theorem meets_withSession {id : String} {k : Session → Value → Prog Commands.Response}
    (hg : S.Stored g) (h : ∀ s value, S.Loaded g id s value →
      Meets env config promise owes (k s value) (g.next (.load id) (some (s, value)))) :
    Meets env config promise owes (withSession id k) g := by
  refine S.meets_lock fun locked => ?_
  split
  · exact trivial
  · exact S.meets_load hg trivial h

theorem message_meets (hg : S.Stored g) (id : String) (q : Value)
    (hsay : (q.index "content").asStr.isSome = true → ∀ x, g.stored = some x →
      S.before.content (x.reloaded env.toHost).core) :
    Meets env config promise owes (Server.message id q) g := by
  unfold Server.message
  split
  · exact trivial
  · refine S.meets_lock fun locked => ?_
    split
    · exact trivial
    · split
      · exact trivial
      next hcontent =>
        refine S.meets_load hg trivial fun s value h => ?_
        obtain ⟨x, hx, rfl⟩ := h.stored
        exact meets_serve (S.appendContent_handles h.at' _ (hsay (text_of_required hcontent) x hx))

theorem lifecycle_meets (hg : S.Stored g) (id : String) (q : Value) (resume : Bool)
    (hsay : resume = true → (q.index "content").asStr.isSome = true → ∀ x, g.stored = some x →
      S.before.content (x.reloaded env.toHost).core) :
    Meets env config promise owes (Server.lifecycle env id q resume) g := by
  unfold Server.lifecycle
  split
  · exact trivial
  · dsimp only
    generalize List.isEmpty _ = valid
    cases valid with
    | false => exact trivial
    | true =>
      refine S.meets_withSession hg fun s value h => ?_
      obtain ⟨x, hx, rfl⟩ := h.stored
      exact meets_serve (S.streamSession_handles h.at' h.read id resume
        fun hresume hsome => hsay hresume hsome x hx)

theorem run_meets (hg : S.Stored g) (id : String) (q : Value) :
    Meets env config promise owes (Server.run env id q) g := by
  unfold Server.run
  split
  · exact trivial
  · exact trivial
  · exact S.meets_withSession hg fun s value h =>
      meets_serve (S.runSession_handles h.at' h.read id)

theorem abandon_at (h : S.before.At g s) (now : String) (command : Command) (owner : String)
    (fence : Int) : S.before.At g (abandon now command owner fence s) :=
  h.becomes ⟨rfl, ⟨rfl, rfl, rfl, rfl⟩, rfl⟩ (.abandon "worker_abandoned"
    "Abandoned run detected; use /resume to recover committed work." S.request)

include S in
theorem meets_release {α : Type} {id owner : String} {fence : Int} {a : α} :
    Meets env config promise owes
      (.perform (.releaseLease id owner fence) fun _ : Unit => .ret a) g :=
  ⟨S.before.quiet rfl, fun _ _ => trivial⟩

theorem reconcile_meets (hg : S.Stored g) (command : Command) (id runId : String) :
    Meets env config promise owes (Server.reconcile command id runId) g := by
  refine ⟨S.before.quiet rfl, fun lease _ => ?_⟩
  rw [show (watch env config promise owes).next g (.acquireLease id) lease = g from
    Ghost.next_inert lease rfl]
  match lease with
  | .error x => exact trivial
  | .ok (owner, fence) =>
    refine S.meets_load hg S.meets_release fun s value h => ?_
    dsimp only
    split
    · exact S.meets_release
    · refine ⟨S.before.quiet rfl, fun now _ => ?_⟩
      rw [show (watch env config promise owes).next _ .now now = _ from Ghost.next_inert now rfl]
      refine Program.sat_bind.mpr (Program.Sat.mono (Upkeep.save_sat
        (S.abandon_at h.at' now command owner fence) (S.before.harmless (harmless_plain rfl))) ?_)
      exact fun g' out _ => S.meets_release

/-- The first commit of a session. -/
theorem start_meets {event : Value} {k : Except SqlError Unit → HandlerM Commands.Response}
    (h : S.before.At g s) (hevent : Harmless event)
    (hk : ∀ r g s, Handles env config promise owes (k r) g s fun _ _ _ => True) :
    Meets env config promise owes (HandlerM.serve (HandlerM.save value event >>= k) s) g :=
  meets_serve (.bind (save_handles h (S.before.harmless hevent)) fun g' s' r _ => hk r g' s')

theorem create_meets (hg : S.Stored g) (hnew : g.stored = none) (q : Value) (goal : String)
    (raw : Value) (sha : String) :
    Meets env config promise owes (Server.createSession env q goal raw sha config) g := by
  have hat : ∀ {command id ref resolved},
      S.before.At g (newSession config command id goal ref sha resolved) :=
    S.created hg hnew ⟨_, _, _, _, _, _, rfl⟩
  unfold Server.createSession
  split
  · exact trivial
  · dsimp only
    split
    · refine S.start_meets hat (harmless_plain rfl) fun r g s => ?_
      cases r with
      | ok u => exact .get_bind (.pure trivial)
      | error x => exact .pure trivial
    · refine ⟨S.before.quiet rfl, fun id _ => ?_⟩
      rw [show (watch env config promise owes).next g (.uuid []) id = g from Ghost.next_inert id rfl]
      refine S.start_meets hat (harmless_plain rfl) fun r g s => ?_
      cases r with
      | ok u => exact .get_bind (.pure trivial)
      | error x => exact .pure trivial

/-- Every request meets its obligations. -/
theorem serves (hg : S.Stored g) {p : Prog Unit} (h : client env config S.Permits g p) :
    Meets env config promise owes p g := by
  obtain ⟨request, rfl, hsay, hnew⟩ := h
  cases request with
  | create q goal raw sha => exact meets_end (S.create_meets hg (hnew trivial) q goal raw sha)
  | message id q => exact meets_end (S.message_meets hg id q hsay)
  | run id q => exact meets_end (S.run_meets hg id q)
  | streamRun id q => exact meets_end (S.lifecycle_meets hg id q false nofun)
  | resume id q => exact meets_end (S.lifecycle_meets hg id q true fun _ => hsay)
  | reconcile command id runId => exact meets_end (S.reconcile_meets hg command id runId)

end Service

/-! ## Histories -/

/-- Requests that were served one after another, from the creation of the session on, have led to
`g`. -/
def Server.History (env : Deployment) (config : Config) (permitted : Ghost → Server.Request → Prop)
    (g : Ghost) : Prop :=
  (watch env config (fun _ _ _ => True) fun _ _ => True).Serves
    (Server.client env config permitted) {} g

/-- After a history that has led to `g`, a request performs `es`. -/
structure Server.Performs (env : Deployment) (config : Config)
    (permitted : Ghost → Server.Request → Prop) (g : Ghost) (es : List (Event Eff Reply)) : Prop where
  history : Server.History env config permitted g
  request : ∃ p q, Server.client env config permitted g p ∧ p.Runs es q
  allowed : (watch env config (fun _ _ _ => True) fun _ _ => True).Allowed g es

/-- What more requests may perform. -/
theorem Server.Performs.mono {env : Deployment} {config : Config}
    {permitted permitted' : Ghost → Server.Request → Prop} {g : Ghost}
    {es : List (Event Eff Reply)} (h : Server.Performs env config permitted g es)
    (hp : ∀ g request, permitted g request → permitted' g request) :
    Server.Performs env config permitted' g es := by
  have hclient : ∀ g p, Server.client env config permitted g p →
      Server.client env config permitted' g p :=
    fun g p ⟨request, hr, hpermitted, hnew⟩ => ⟨request, hr, hp g request hpermitted, hnew⟩
  obtain ⟨p, q, hc, hr⟩ := h.request
  exact ⟨h.history.mono hclient, ⟨p, q, hclient g p hc, hr⟩, h.allowed⟩

/-- After a history, and some of a request, which have led to `g`, `x` is performed. -/
def Server.Reaches (env : Deployment) (config : Config) (permitted : Ghost → Server.Request → Prop)
    (g : Ghost) (x : Eff) : Prop :=
  ∃ g₀ before r rest, Server.Performs env config permitted g₀ (before ++ ⟨x, r⟩ :: rest) ∧
    g = (watch env config (fun _ _ _ => True) fun _ _ => True).after g₀ before

theorem Server.Performs.reaches {env : Deployment} {config : Config}
    {permitted : Ghost → Server.Request → Prop} {g : Ghost} {es : List (Event Eff Reply)}
    (h : Server.Performs env config permitted g es) {x : Eff} {r : Reply x} (hx : ⟨x, r⟩ ∈ es) :
    ∃ g', Server.Reaches env config permitted g' x := by
  obtain ⟨before, rest, rfl⟩ := List.append_of_mem hx
  exact ⟨_, g, before, r, rest, h, rfl⟩

/-- A property of the core of a session that lasts: every move keeps it, whoever makes it, and so does
the way into the store and back. -/
structure Lasting (env : Deployment) (config : Config) where
  Inv : List Executed → Core → Prop
  /-- The events that may be committed. -/
  Event : Value → Prop
  content : Core → Prop
  supported : ∀ tool ∈ config.tools, tool.name ≠ ""
  mono : ∀ {executed c x}, Inv executed c → Inv (executed ++ [x]) c
  move : ∀ {executed c c'}, Inv executed c →
    Move ⟨env.toHost, config⟩ ⟨content, (· ∈ executed), True, True, True⟩ c c' → Inv executed c'
  start : ∀ {executed c runId}, Inv executed c → Inv executed (c.start runId)
  created : ∀ {executed command id goal ref sha resolved},
    Inv executed (Server.newSession config command id goal ref sha resolved).core
  reloaded : ∀ {executed} {x : Session}, Inv executed x.core → Inv executed (x.reloaded env.toHost).core
  harmless : ∀ {event}, Harmless event → Event event
  grouped : ∀ {executed c}, Inv executed c → c.pendingToolCalls = [] →
    Grouped (c.memory.drop 1) ∨ ∀ event, Event event
  said : ∀ {c c' : Core}, c'.toTask = c.toTask → content c → content c'

namespace Lasting

variable {env : Deployment} {config : Config} (L : Lasting env config) {g : Ghost}

/-- What the agent owes: it commits sessions with the property, dispatches calls of such sessions that
it has checked, and posts requests it has measured. -/
def owes (g : Ghost) : Eff → Prop
  | .transact s _ event => L.Inv g.executed s.core ∧ s.Numbered ∧ L.Event event
  | .mark (.dispatch s call id name args) => L.Inv g.executed s.core ∧
      Engine.Dispatches ⟨env.toHost, config⟩ s call id name args
  | .httpPost _ payload => Engine.Fits ⟨env.toHost, config⟩ payload
  | _ => True

theorem executed_transact (g : Ghost) {s : Session} {value event : Value} (r : TransactReply) :
    (g.next (.transact s value event) r).executed = g.executed := by
  show (if r.stored.isSome then _ else g : Ghost).executed = _
  split <;> rfl

def upkeep : Upkeep env ⟨env.toHost, config⟩ (fun _ _ _ => True) L.owes where
  Inv g c := L.Inv g.executed c
  Err _ := True
  Mild _ := True
  Event := L.Event
  content := L.content
  free := True
  request := True
  supported := L.supported
  move := L.move
  active _ _ := trivial
  overrules _ := trivial
  unresolved _ := trivial
  harmless := L.harmless
  grouped := L.grouped
  quiet {g x} h := by
    cases x with
    | transact | httpPost => cases h
    | mark m => cases m <;> trivial
    | _ => trivial
  commit h hn hev := ⟨h, hn, hev⟩
  dispatch h hd := ⟨h, hd⟩
  post h := h
  executed h := L.mono h
  executedErr _ := trivial
  committed {g s value event r} _ h := by rwa [executed_transact]
  answered _ _ _ := trivial
  refused _ _ _ _ := .inl trivial
  cancelled _ _ _ := trivial
  unsent _ _ := trivial
  limited _ _ := .inr (.inl trivial)
  blocked _ := trivial

/-- What is stored has the property. -/
def Stored (g : Ghost) : Prop := ∀ x, g.stored = some x → L.Inv g.executed x.core ∧ x.Numbered

theorem stable_stored :
    (watch env config (fun _ _ _ => True) L.owes).Stable L.Stored := by
  intro g x r hg hmust hmay
  cases x with
  | transact s value event =>
    obtain ⟨hinv, hn, -⟩ := hmust
    have hmay : Transacts s r := hmay.1
    show L.Stored (if r.stored.isSome then _ else g)
    split
    · intro x hx
      obtain ⟨hcore, hjournal⟩ := hmay.stored x hx
      exact ⟨hcore ▸ hinv, hjournal.numbered hn⟩
    · exact hg
  | load id => exact hg
  | mark m =>
    cases m with
    | executed s name args output => exact fun x hx => ⟨L.mono (hg x hx).1, (hg x hx).2⟩
    | _ => exact hg
  | _ => exact hg

theorem at_of_reloaded {s : Session} {id : String} {value : Value} (hg : L.Stored g)
    (hload : ∃ x, g.stored = some x ∧ s = x.reloaded env.toHost) :
    L.upkeep.At (g.next (.load id) (some (s, value))) s := by
  obtain ⟨x, hx, rfl⟩ := hload
  obtain ⟨hinv, hn⟩ := hg x hx
  refine ⟨L.reloaded hinv, fun hcounts => ?_, fun _ => trivial⟩
  obtain ⟨hevents, hattempts, hdecisions⟩ := hn hcounts
  refine ⟨hevents, ?_, ?_⟩
  · show x.compactionAttempts.map _ = []
    rw [hattempts, List.map_nil]
  · show x.compactionDecisions.map _ = []
    rw [hdecisions, List.map_nil]

theorem at_of_start {s : Session} {runId now : String} (h : L.upkeep.At g s) :
    L.upkeep.At g (Engine.startRun ⟨env.toHost, config⟩ runId now s) :=
  ⟨L.start h.inv, h.numbered, h.reload⟩

def service : Service env config (fun _ _ _ => True) L.owes where
  before := L.upkeep
  running := L.upkeep
  streaming := L.upkeep
  request := trivial
  Stored := L.Stored
  stable := L.stable_stored
  created := by
    rintro g s - - ⟨command, id, goal, ref, sha, resolved, rfl⟩
    exact ⟨L.created, fun _ => ⟨rfl, rfl, rfl⟩, fun _ => trivial⟩
  loaded hg hmay := L.at_of_reloaded hg (hmay.1 _ _ rfl).1
  runs h _ _ := L.at_of_start h
  streams h _ _ := L.at_of_start h
  settles _ _ := trivial
  stores _ _ := trivial
  content := L.said

/-- The user says something only where the property allows it. -/
def Permits (g : Ghost) (request : Server.Request) : Prop :=
  request.said.isSome = true → ∀ x, g.stored = some x → L.content (x.reloaded env.toHost).core

theorem serves {p : Prog Unit} (hg : L.Stored g)
    (h : Server.client env config L.Permits g p) :
    p.Sat (watch env config (fun _ _ _ => True) L.owes) g fun _ _ => True := L.service.serves hg h

theorem stored_start : L.Stored {} := fun _ h => (nomatch h)

theorem stored_of_history (h : Server.History env config L.Permits g) : L.Stored g :=
  Monitor.Serves.stable L.stable_stored (fun _ _ => L.serves) L.stored_start
    (Monitor.Serves.owing h)

/-- Every request meets its obligations, after every history. -/
theorem kept {es : List (Interaction.Event Eff Reply)}
    (h : Server.Performs env config L.Permits g es) :
    (watch env config (fun _ _ _ => True) L.owes).Kept g es := by
  obtain ⟨p, q, hp, hr⟩ := h.request
  exact Monitor.Serves.kept L.stable_stored (fun _ _ => L.serves) L.stored_start
    (Monitor.Serves.owing h.history) hp hr ((Monitor.allowed_owing _ _).2 h.allowed)

/-- Every effect meets its obligation, after every history. -/
theorem owed {x : Eff} (h : Server.Reaches env config L.Permits g x) : L.owes g x := by
  obtain ⟨g₀, before, r, rest, hperforms, rfl⟩ := h
  have hafter : (watch env config (fun _ _ _ => True) L.owes).after g₀ before =
      (watch env config (fun _ _ _ => True) fun _ _ => True).after g₀ before :=
    Monitor.after_owing (M := watch env config (fun _ _ _ => True) fun _ _ => True) g₀ before
  have hkept := ((Monitor.kept_append _ _ _ _).1 (L.kept hperforms)).2
  rw [hafter] at hkept
  exact hkept.1

end Lasting

/-! ## An obliging world -/

namespace Server

/-- An identity that is not among these: it is longer than each of them. -/
def newId (among : List String) : String := .ofList ('u' :: among.flatMap String.toList)

theorem newId_notMem (among : List String) : newId among ∉ among := by
  intro hmem
  have hle : (newId among).toList.length ≤ (among.flatMap String.toList).length := by
    rw [List.length_flatMap]
    exact List.single_le_sum (fun _ _ => Nat.zero_le _) _ (List.mem_map_of_mem hmem)
  rw [newId, String.toList_ofList, List.length_cons] at hle
  exact absurd hle (Nat.not_succ_le_self _)

/-- The answers of a world in which every commit succeeds. -/
def answers (env : Deployment) (value : Value) (cancel : Ghost → Bool) (replies : Nat → HttpReply) :
    Nat → Ghost → (x : Eff) → Option (Reply x)
  | _, _, .uuid among => some (newId among)
  | _, _, .now => some "now"
  | _, _, .transact s _ _ => some { stored := some s, result := .ok (), session := s }
  | _, g, .cancelRequested .. => some (.ok (some (cancel g)))
  | _, _, .historicalCallIds .. => some (.ok [])
  | _, _, .eventId .. => some none
  | _, _, .committedResponse _ => some (.ok (200, .null))
  | n, _, .httpPost .. => some (replies n)
  | _, _, .execute .. => some "output"
  | _, _, .recipient .. => some (.ok "output")
  | _, _, .receipt .. => some none
  | _, _, .configFile _ => some (.error "unreadable")
  | _, _, .lockSession _ => some true
  | _, g, .load _ => some (g.stored.map fun x => (x.reloaded env.toHost, value))
  | _, _, .acquireLease _ => some (.ok ("owner", 1))
  | _, _, .releaseLease .. => some ()
  | _, _, .send _ => some true
  | _, _, .requestCancel _ => some ()
  | _, _, .markUncertain _ => some ()
  | _, _, .panic => none
  | _, _, .mark _ => some ()

variable {env : Deployment} {config : Config} {value : Value} {cancel : Ghost → Bool}
  {replies : Nat → HttpReply} {permitted : Ghost → Request → Prop}

theorem answers_may (hread : env.readConfig value = .ok config) {owes : Ghost → Eff → Prop} {n : Nat}
    {g : Ghost} {x : Eff} {r : Reply x} (h : answers env value cancel replies n g x = some r) :
    (watch env config (fun _ _ _ => True) owes).may g x r := by
  refine ⟨?_, trivial⟩
  cases x with
  | uuid among =>
    obtain rfl := Option.some.inj h
    refine ⟨newId_notMem among, fun hempty => ?_⟩
    have hlength := congrArg (fun s : String => s.toList.length) hempty
    simp [newId] at hlength
  | transact s value event =>
    obtain rfl := Option.some.inj h
    refine ⟨rfl, .refl s, rfl, nofun, fun x hx => ?_⟩
    obtain rfl := Option.some.inj hx
    exact ⟨rfl, .refl s⟩
  | load id =>
    obtain rfl := Option.some.inj h
    intro s value' hs
    obtain ⟨x, hx, hpair⟩ := Option.map_eq_some_iff.1 hs
    obtain ⟨rfl, rfl⟩ := Prod.mk.inj hpair
    exact ⟨⟨x, hx, rfl⟩, hread⟩
  | _ => trivial

/-- The events of a request in that world, cut off after `fuel` effects. -/
def played (env : Deployment) (config : Config) (value : Value) (cancel : Ghost → Bool)
    (replies : Nat → HttpReply) (fuel : Nat) (g : Ghost) (request : Request) :
    List (Event Eff Reply) :=
  ((watch env config (fun _ _ _ => True) fun _ _ => True).follow
    (answers env value cancel replies) fuel 0 g (request.program env config)).1

/-- The ghost state after such a request. -/
def afterPlayed (env : Deployment) (config : Config) (value : Value) (cancel : Ghost → Bool)
    (replies : Nat → HttpReply) (fuel : Nat) (g : Ghost) (request : Request) : Ghost :=
  (watch env config (fun _ _ _ => True) fun _ _ => True).after g
    (played env config value cancel replies fuel g request)

theorem History.performs (value : Value) (cancel : Ghost → Bool) (replies : Nat → HttpReply)
    (fuel : Nat) (hread : env.readConfig value = .ok config) {g : Ghost}
    (hg : History env config permitted g) (request : Request) (hp : permitted g request)
    (hnew : request.creates → g.stored = none) :
    Performs env config permitted g (played env config value cancel replies fuel g request) where
  history := hg
  request := ⟨_, _, ⟨request, rfl, hp, hnew⟩, Monitor.follow_runs _ _ _ _⟩
  allowed := Monitor.follow_allowed (fun _ _ _ _ => answers_may hread) _ _ _ _

theorem Performs.history_after {g : Ghost} {es : List (Event Eff Reply)}
    (h : Performs env config permitted g es) : History env config permitted
      ((watch env config (fun _ _ _ => True) fun _ _ => True).after g es) := by
  obtain ⟨p, q, hp, hr⟩ := h.request
  exact .serve h.history hp hr h.allowed

end Server

/-- A deployment of one configuration. -/
def plainAgent (host : Host) (config : Config) : Deployment where
  toHost := host
  readConfig _ := .ok config
  canonicalRef ref := ref
  tableSha256 _ _ _ := ""

/-- The events of the first run of a session, when every commit succeeds, cut off after `fuel`
effects. -/
def firstRun (host : Host) (config : Config) (replies : Nat → HttpReply) (fuel : Nat) :
    List (Event Eff Reply) :=
  Server.played (plainAgent host config) config .null (fun _ => false) replies fuel
    (Server.afterPlayed (plainAgent host config) config .null (fun _ => false) replies 100 {}
      (.create .null "goal" .null "sha")) (.run "session" (.obj []))

theorem firstRun_performs (host : Host) (config : Config) (replies : Nat → HttpReply) (fuel : Nat) :
    ∃ g, Server.Performs (plainAgent host config) config (fun _ _ => True) g
      (firstRun host config replies fuel) := by
  have hstart : Server.History (plainAgent host config) config (fun _ _ => True) {} := .start
  have hcreated := (Server.History.performs .null (fun _ => false) replies 100 rfl hstart
    (.create .null "goal" .null "sha") trivial fun _ => rfl).history_after
  exact ⟨_, Server.History.performs _ _ _ fuel rfl hcreated (.run "session" (.obj [])) trivial nofun⟩

end StateDrivenAgent
