import StateDrivenAgent.Verify.Invoking
import StateDrivenAgent.Verify.Serving

/-!
# What a request owes

A handler loads a session, so it starts with one whose executions are known, and the saves before its
engine keep it so (`Worker.Loads`). The engine starts current and leaves the session unsaved, and so do
the saves after it that succeed; after one that fails nothing follows but answers. So every request a
worker serves meets its obligations (`program_sat`), whatever the other workers do.
-/

namespace StateDrivenAgent

open Interaction

namespace Server

open Commands (Response)

variable {env : Deployment} {L : Annals} {α β : Type} {I J K : Session → Prop}
  {config event q : Value} {l : Lease}

/-! ## Parts of a handler -/

/-- A part of a handler, from sessions of `I` to sessions of `J`, unless it answers. -/
structure Passes (env : Deployment) (L : Annals) (I J : Session → Prop) (f : HandlerM α) : Prop where
  sat : ∀ g s, I s → f.Sat (Worker.watch env L) g s (fun _ s' _ => J s') fun _ _ _ => True

/-- A part whose failure is returned: then nothing is known of the session. -/
structure Returns {ε : Type} (env : Deployment) (L : Annals) (I J : Session → Prop)
    (f : HandlerM (Except ε α)) : Prop where
  sat : ∀ g s, I s → f.Sat (Worker.watch env L) g s (fun _ s' r => ∀ a, r = .ok a → J s')
    fun _ _ _ => True

/-- What is said of a session only depends on what it holds. -/
def Held (I : Session → Prop) : Prop := ∀ {s s' : Session}, s'.held = s.held → I s → I s'

theorem held_true : Held fun _ => True := fun _ _ => trivial

theorem held_unsaved : Held Unsaved := fun hs h => (congrArg Holding.commit hs).trans h

theorem held_loads : Held (Worker.Loads L) := by
  intro s s' hs h
  refine ⟨fun x hx => ?_, (congrArg Holding.outbox hs).trans h.outbox,
    (congrArg Holding.commit hs).trans h.commit⟩
  rw [show s'.id = s.id from congrArg Holding.id hs,
    show s'.revision = s.revision from congrArg Holding.revision hs]
  have hexecutions : s'.executions = s.executions := congrArg Holding.executions hs
  exact h.executions x (hexecutions ▸ hx)

namespace Passes

variable {f : HandlerM α} {k : α → HandlerM β}

theorem pure (h : ∀ s, I s → J s) (a : α) : Passes env L I J (Pure.pure a : HandlerM α) :=
  ⟨fun _ s hs => h s hs⟩

theorem answer (r : Response) : Passes env L I J (HandlerM.answer r : HandlerM α) :=
  ⟨fun _ _ _ => trivial⟩

theorem bind (hf : Passes env L I J f) (hk : ∀ a, Passes env L J K (k a)) :
    Passes env L I K (f >>= k) :=
  ⟨fun g s h => Proc.sat_bind.2 ((hf.sat g s h).mono_post fun g' s' a h' => (hk a).sat g' s' h')⟩

theorem get_bind {k : Session → HandlerM β} (hk : ∀ s, Passes env L I J (k s)) :
    Passes env L I J (HandlerM.get >>= k) := ⟨fun g s h => (hk s).sat g s h⟩

theorem update_bind {m : Session → Session} {k : Unit → HandlerM β} (hm : ∀ s, I s → J (m s))
    (hk : Passes env L J K (k ())) : Passes env L I K (HandlerM.update m >>= k) :=
  ⟨fun g s h => hk.sat g (m s) (hm s h)⟩

theorem of_true (hf : Passes env L (fun _ => True) J f) : Passes env L I J f :=
  ⟨fun g s _ => hf.sat g s trivial⟩

end Passes

theorem Returns.bind {ε : Type} {f : HandlerM (Except ε α)} {k : Except ε α → HandlerM β}
    (hf : Returns env L I J f) (hok : ∀ a, Passes env L J K (k (.ok a)))
    (herr : ∀ x, Passes env L (fun _ => True) K (k (.error x))) : Passes env L I K (f >>= k) := by
  refine ⟨fun g s h => Proc.sat_bind.2 ((hf.sat g s h).mono_post fun g' s' r h' => ?_)⟩
  cases r with
  | ok a => exact (hok a).sat g' s' (h' a rfl)
  | error x => exact (herr x).sat g' s' trivial

theorem passes_of_still {f : HandlerM α} (hf : Still env L f) (hI : Held I) : Passes env L I I f :=
  ⟨fun g s h => (hf g.claim s.held g s ⟨rfl, rfl⟩).mono (fun _ _ _ h' => hI h'.2 h)
    fun _ _ _ _ => trivial⟩

/-- A step that leaves things alone, before others. -/
theorem still_before {f : HandlerM α} {k : α → HandlerM β} (hf : Still env L f) (hI : Held I)
    (hk : ∀ a, Passes env L I J (k a)) : Passes env L I J (f >>= k) :=
  (passes_of_still hf hI).bind hk

theorem update_before {m : Session → Session} {k : Unit → HandlerM β}
    (hm : ∀ s, (m s).held = s.held) (hI : Held I) (hk : Passes env L I J (k ())) :
    Passes env L I J (HandlerM.update m >>= k) :=
  .update_bind (fun s h => hI (hm s) h) hk

/-! ## Saves -/

theorem save_returns_loads : Returns env L (Worker.Loads L) (Worker.Loads L)
    (HandlerM.save config event) := by
  refine ⟨fun g s h => Program.sat_bind.2 (Program.Sat.mono (save_sat h.commit) ?_)⟩
  intro g' out hout
  obtain ⟨_ | _, s'⟩ := out
  · exact fun a ha => by cases ha
  · intro _ _
    obtain ⟨hsealed, hsettles, hrevision⟩ := hout
    refine ⟨fun x hx => ?_, hsettles.outbox, hsettles.commit⟩
    rw [hsettles.id, hrevision]
    refine hsealed.known ?_ x (.inr ⟨h.executions x (hsettles.executions ▸ hx), ?_⟩)
    · rw [h.outbox]
      exact List.nodup_nil
    · rw [h.outbox]
      exact List.not_mem_nil

theorem save_returns_unsaved : Returns env L Unsaved Unsaved (HandlerM.save config event) := by
  refine ⟨fun g s h => Program.sat_bind.2 (Program.Sat.mono (save_sat h) ?_)⟩
  intro g' out hout
  obtain ⟨_ | _, s'⟩ := out
  · exact fun a ha => by cases ha
  · exact fun _ _ => hout.2.1.commit

/-! ## What leaves things alone -/

theorem engine_still {f : EngineM α} (hf : Still env L f) : Still env L (HandlerM.engine f) := by
  intro c h g s hs
  refine Program.sat_bind.2 (Program.Sat.mono (hf c h g s hs) fun g' out hout => ?_)
  obtain ⟨_ | _, s'⟩ := out
  · exact hout
  · exact hout

theorem release_still (l : Lease) : Still env L (release l) := .request rfl

theorem tell_still (event : Value) : Still env L (tell event) := .bind (.request rfl) fun _ => .pure _

theorem releaseWith_passes (r : Response) : Passes env L I J (releaseWith l r : HandlerM α) :=
  .of_true (still_before (release_still l) held_true fun _ => .answer r)

/-- A problem that ends the task. -/
theorem endTask_passes : Passes env L I J (endTask l event : HandlerM α) :=
  .of_true (still_before (tell_still event) held_true fun _ => releaseWith_passes _)

theorem saveAndTell_returns (hI : Held I)
    (hsave : ∀ event, Returns env L I I (HandlerM.save config event)) :
    Returns env L I I (saveAndTell config event) := by
  have htold : Still env L (HandlerM.get >>= fun s =>
      (Proc.lift (decorate event s) : HandlerM Value) >>= fun event => tell event >>= fun _ =>
        (pure (.ok ()) : HandlerM (Except SqlError Unit))) :=
    .bind .state fun s => .bind (.lift (decorate_calmly _ _)) fun event =>
      .bind (tell_still event) fun _ => .pure _
  refine ⟨fun g s h => Proc.sat_bind.2 (((hsave event).sat g s h).mono_post fun g' s' r h' => ?_)⟩
  cases r with
  | error x => exact fun a ha => by cases ha
  | ok u =>
    refine (htold g'.claim s'.held g' s' ⟨rfl, rfl⟩).mono (fun _ _ _ ht _ _ => ?_)
      fun _ _ _ _ => trivial
    exact hI ht.2 (h' u rfl)

/-! ## Before the run -/

theorem acquire_still (id : String) : Still env L (acquire env id) := by
  unfold acquire
  split
  · exact .fail _
  · refine .bind (.request rfl) fun r => ?_
    split
    · exact .fail _
    · exact .bind (.update fun _ => rfl) fun _ => .pure _

theorem closeAbandoned_passes : 
    Passes env L (Worker.Loads L) (Worker.Loads L) (closeAbandoned config l) := by
  refine .get_bind fun s => ?_
  split
  · exact .pure (fun _ => id) _
  · refine still_before (.request rfl) held_loads fun now => ?_
    refine update_before (fun _ => rfl) held_loads ?_
    exact save_returns_loads.bind (fun _ => .pure (fun _ => id) _) fun _ => releaseWith_passes _

theorem appendGiven_still (content : Option String) : Still env L (appendGiven content) := by
  cases content with
  | none => exact .pure _
  | some text => exact .bind (engine_still (appendMessage_still _)) fun _ => .pure _

theorem resumeSession_passes :
    Passes env L (Worker.Loads L) (Worker.Loads L) (resumeSession q config l) := by
  refine still_before (appendGiven_still _) held_loads fun _ => ?_
  refine update_before (fun _ => rfl) held_loads ?_
  exact save_returns_loads.bind (fun _ => .pure (fun _ => id) _) fun _ => releaseWith_passes _

theorem announceRestored_passes :
    Passes env L (Worker.Loads L) (Worker.Loads L) (announceRestored config l) :=
  (saveAndTell_returns held_loads fun _ => save_returns_loads).bind
    (fun _ => .pure (fun _ => id) _) fun _ => endTask_passes

theorem announceSetup_passes (resume : Bool) :
    Passes env L (Worker.Loads L) (Worker.Loads L) (announceSetup resume config l) := by
  refine .get_bind fun s => ?_
  exact (saveAndTell_returns held_loads fun _ => save_returns_loads).bind
    (fun _ => .pure (fun _ => id) _) fun _ => endTask_passes

theorem announce_passes (resume : Bool) :
    Passes env L (Worker.Loads L) (Worker.Loads L) (announce env config resume l) := by
  refine Passes.bind (J := Worker.Loads L) ?_ fun _ => ?_
  · cases resume with
    | true => exact announceRestored_passes
    | false => exact .pure (fun _ => id) _
  · split
    · exact announceSetup_passes resume
    · exact .pure (fun _ => id) _

/-! ## The run -/

/-- The engine starts from a session that is loaded. -/
theorem current_openCounter {s : Session} (h : Worker.Loads L s) : Current L (openCounter s) :=
  ⟨h.outbox, h.commit, h.executions⟩

theorem execute_passes {emit : Emit} (hemit : Tracks env L emit) :
    Passes env L (Current L) Unsaved (HandlerM.engine (execute env config q emit)) := by
  have hserves : Serves env L (execute env config q emit) :=
    Still.before (.ofExcept _) fun config => Engine.run_serves hemit _
  refine ⟨fun g s h => Program.sat_bind.2 (Program.Sat.mono (hserves.leads g s h) ?_)⟩
  intro g' out hout
  obtain ⟨_ | _, s'⟩ := out
  · exact hout
  · exact hout.commit

/-! ## After the run -/

theorem committedResponse_still (q : Value) : Still env L (committedResponse q) := by
  refine .bind (.request rfl) fun r => ?_
  split
  · exact .pure _
  · exact .pure _

theorem unsaved_acknowledge {s : Session} (h : Unsaved s) : Unsaved (acknowledgeCheckpoint s) := by
  obtain ⟨n, hn⟩ := acknowledgeCheckpoint_held s
  exact (congrArg Holding.commit hn).trans h

theorem unsaved_stoppedRun {s : Session} (h : Unsaved s) (now error : String) :
    Unsaved (stoppedRun now error s) := by
  unfold stoppedRun
  dsimp only
  cases decide (error = runCancelled) with
  | true => exact unsaved_acknowledge (s := adoptRevision s) h
  | false => exact h

theorem finishRun_passes (outcome : Except String Unit) :
    Passes env L Unsaved (fun _ => True) (finishRun config q outcome) := by
  have hrespond : Passes env L (fun _ => True) (fun _ => True) (committedResponse q) :=
    passes_of_still (committedResponse_still q) held_true
  cases outcome with
  | ok u =>
    refine .update_bind (J := Unsaved) (fun _ h => h) (.get_bind fun s => ?_)
    exact save_returns_unsaved.bind (fun _ => hrespond.of_true) fun _ => .pure (fun _ => id) _
  | error error =>
    unfold finishRun
    dsimp only
    split
    · refine still_before (.request rfl) held_unsaved fun now => ?_
      refine .update_bind (J := Unsaved) (fun _ h => unsaved_stoppedRun h now error) ?_
      refine .get_bind fun s => save_returns_unsaved.bind (fun _ => ?_) fun _ => .pure (fun _ => id) _
      dsimp only
      split
      · exact hrespond.of_true
      · exact .get_bind fun s => .pure (fun _ _ => trivial) _
    · exact .pure (fun _ _ => trivial) _

theorem unsaved_failedRun {s : Session} (h : Unsaved s) (now error : String) :
    Unsaved (failedRun now error s) := by
  unfold failedRun
  dsimp only
  cases decide (error = runCancelled) with
  | true => exact unsaved_acknowledge h
  | false => exact h

theorem markUncertain_still (command : Option Command) : Still env L (markUncertain command) := by
  cases command with
  | none => exact .pure _
  | some command => exact .request rfl

theorem commitFailure_passes : Passes env L Unsaved Unsaved (commitFailure config l event) :=
  save_returns_unsaved.bind (fun _ => ⟨fun _ _ h => h⟩)
    fun _ => endTask_passes

theorem storeFailure_passes (error : String) :
    Passes env L Unsaved Unsaved (storeFailure config l error) := by
  unfold storeFailure
  split
  · refine .get_bind fun s => ?_
    exact still_before (markUncertain_still _) held_unsaved fun _ => endTask_passes
  · refine still_before (.request rfl) held_unsaved fun now => ?_
    refine .update_bind (J := Unsaved) (fun _ h => unsaved_failedRun h now error) ?_
    refine .get_bind fun s => commitFailure_passes.bind fun _ => ?_
    exact passes_of_still (tell_still _) held_unsaved

theorem finishStream_passes (outcome : Except String Unit) :
    Passes env L Unsaved (fun _ => True) (finishStream config l outcome) := by
  have hstore : Passes env L Unsaved Unsaved (storeOutcome config l outcome) := by
    cases outcome with
    | ok u => exact .pure (fun _ => id) _
    | error error => exact storeFailure_passes error
  refine .update_bind (J := Unsaved) (fun _ h => h) (hstore.bind fun _ => ?_)
  refine .update_bind (J := Unsaved) (fun _ h => h) (.get_bind fun s => ?_)
  refine (saveAndTell_returns held_unsaved fun _ => save_returns_unsaved).bind (fun _ => ?_)
    fun _ => endTask_passes
  exact (passes_of_still (release_still l) held_true).of_true

/-! ## Requests -/

theorem appendContent_passes (content : String) :
    Passes env L (Worker.Loads L) (fun _ => True) (appendContent q config content) := by
  refine update_before (fun _ => rfl) held_loads (.get_bind fun s => ?_)
  split
  · exact .answer _
  · refine still_before (engine_still (appendMessage_still _)) held_loads fun _ => ?_
    exact save_returns_loads.bind (fun _ => .get_bind fun s => .pure (fun _ _ => trivial) _)
      fun _ => .pure (fun _ => id) _

theorem runSession_passes (id : String) :
    Passes env L (Worker.Loads L) (fun _ => True) (runSession env id q config) := by
  refine update_before (fun _ => rfl) held_loads (.get_bind fun s => ?_)
  split
  · exact .answer _
  · refine still_before (acquire_still id) held_loads fun l => closeAbandoned_passes.bind fun _ => ?_
    refine .update_bind (J := Current L) (fun s h => current_openCounter h) ?_
    refine (execute_passes (tracks_run config)).bind fun outcome => ?_
    refine (finishRun_passes outcome).bind fun response => ?_
    exact still_before (release_still l) held_true fun _ => .pure (fun _ h => h) _

theorem streamTask_passes (resume : Bool) :
    Passes env L (Worker.Loads L) (fun _ => True) (streamTask env q config resume l) := by
  refine (announce_passes resume).bind fun _ => ?_
  refine .update_bind (J := Current L) (fun s h => current_openCounter h) ?_
  exact (execute_passes (tracks_stream config)).bind fun outcome => finishStream_passes outcome

theorem streamSession_passes (id : String) (resume : Bool) :
    Passes env L (Worker.Loads L) (fun _ => True) (streamSession env id q config resume) := by
  refine update_before (fun _ => rfl) held_loads (.get_bind fun s => ?_)
  split
  · exact .answer _
  · refine still_before (acquire_still id) held_loads fun l => closeAbandoned_passes.bind fun _ => ?_
    refine Passes.bind (J := Worker.Loads L) ?_ fun _ =>
      (streamTask_passes resume).bind fun _ => .pure (fun _ h => h) _
    cases resume with
    | true => exact resumeSession_passes
    | false => exact .pure (fun _ h => h) _

/-- The program meets its obligations. -/
def Owes (env : Deployment) (L : Annals) (p : Prog α) : Prop :=
  ∀ g, p.Sat (Worker.watch env L) g fun _ _ => True

theorem Owes.bind {p : Prog α} {k : α → Prog β} (hp : Owes env L p) (hk : ∀ a, Owes env L (k a)) :
    Owes env L (p >>= k) := fun g => Program.sat_bind.2 ((hp g).mono fun g' a _ => hk a g')

theorem Owes.perform {x : Eff} {next : Reply x → Prog α} (hx : x.plain = true)
    (h : ∀ r, Owes env L (next r)) : Owes env L (.perform x next) := fun g =>
  ⟨Worker.must_plain hx g, fun r _ => h r _⟩

theorem owes_serve {f : HandlerM Response} {s : Session} (hf : Passes env L I J f) (h : I s) :
    Owes env L (f.serve s) := by
  refine fun g => Program.sat_bind.2 (Program.Sat.mono (hf.sat g s h) fun g' out _ => ?_)
  obtain ⟨_ | _, s'⟩ := out
  · exact trivial
  · exact trivial

/-- What follows a load may rely on what is loaded. -/
theorem owes_load {id : String} {next : Option (Session × Value) → Prog α}
    (hnone : Owes env L (next none))
    (hsome : ∀ s config, Worker.Loads L s → Owes env L (next (some (s, config)))) :
    Owes env L (.perform (.load id) next) := by
  refine fun g => ⟨trivial, fun r hr => ?_⟩
  cases r with
  | none => exact hnone _
  | some found => exact hsome found.1 found.2 (hr found.1 found.2 rfl) _

theorem owes_withSession {id : String} {k : Session → Value → Prog Response}
    (hk : ∀ s config, Worker.Loads L s → Owes env L (k s config)) :
    Owes env L (withSession id k) := by
  refine .perform rfl fun locked => ?_
  split
  · exact fun g => trivial
  · exact owes_load (fun g => trivial) hk

theorem message_owes (id : String) (q : Value) : Owes env L (message id q) := by
  unfold message
  split
  · exact fun g => trivial
  · refine .perform rfl fun locked => ?_
    split
    · exact fun g => trivial
    · split
      · exact fun g => trivial
      · exact owes_load (fun g => trivial) fun s config h => owes_serve (appendContent_passes _) h

theorem run_owes (id : String) (q : Value) : Owes env L (run env id q) := by
  unfold run
  split
  · exact fun g => trivial
  · exact fun g => trivial
  · exact owes_withSession fun s config h => owes_serve (runSession_passes id) h

theorem lifecycle_owes (id : String) (q : Value) (resume : Bool) :
    Owes env L (lifecycle env id q resume) := by
  unfold lifecycle
  split
  · exact fun g => trivial
  · dsimp only
    generalize List.isEmpty _ = valid
    cases valid with
    | false => exact fun g => trivial
    | true => exact owes_withSession fun s config h => owes_serve (streamSession_passes id resume) h

theorem createSession_owes (q : Value) (goal : String) (raw : Value) (sha : String)
    (config : Config) : Owes env L (createSession env q goal raw sha config) := by
  have hstart : ∀ id ref resolved event (k : Except SqlError Unit → HandlerM Response),
      (∀ r, Passes env L (fun _ => True) (fun _ => True) (k r)) →
        Owes env L ((HandlerM.save raw event >>= k).serve
          (newSession config (commandOf q) id goal ref sha resolved)) := by
    intro id ref resolved event k hk
    refine owes_serve (I := Unsaved) (J := fun _ => True) ?_ rfl
    exact save_returns_unsaved.bind (fun u => (hk (.ok u)).of_true) fun x => hk (.error x)
  unfold createSession
  split
  · exact fun g => trivial
  · dsimp only
    split
    · refine hstart _ _ _ _ _ fun r => ?_
      cases r with
      | ok u => exact .get_bind fun s => .pure (fun _ => id) _
      | error x => exact .pure (fun _ => id) _
    · refine .perform rfl fun id => hstart _ _ _ _ _ fun r => ?_
      cases r with
      | ok u => exact .get_bind fun s => .pure (fun _ h => h) _
      | error x => exact .pure (fun _ h => h) _

theorem reconcile_owes (command : Command) (id runId : String) :
    Owes env L (reconcile command id runId) := by
  refine .perform rfl fun lease => ?_
  split
  · exact fun g => trivial
  · have hfinish : ∀ (owner : String) (fence : Int) (r : Except SqlError Bool),
        Owes env L (.perform (.releaseLease id owner fence) fun _ : Unit => .ret r) :=
      fun owner fence r => .perform rfl fun _ _ => trivial
    refine owes_load (hfinish _ _ _) fun s config h => ?_
    dsimp only
    split
    · exact hfinish _ _ _
    · refine .perform rfl fun now => ?_
      have hcommit : ∀ owner fence, (abandon now command owner fence s).pendingCommitId = none :=
        fun _ _ => h.commit
      exact fun g => Program.sat_bind.2 (Program.Sat.mono (save_sat (hcommit _ _)) fun g' out _ =>
        hfinish _ _ _ g')

end Server

/-- A request meets its obligations. -/
theorem program_owes {env : Deployment} {L : Annals} (config : Config) (request : Server.Request) :
    Server.Owes env L (request.program env config) := by
  have hret : ∀ u : Unit, Server.Owes env L (.ret u : Prog Unit) := fun _ _ => trivial
  cases request with
  | create q goal raw sha =>
    exact (Server.createSession_owes q goal raw sha config).bind fun _ => hret ()
  | message id q => exact (Server.message_owes id q).bind fun _ => hret ()
  | run id q => exact (Server.run_owes id q).bind fun _ => hret ()
  | streamRun id q => exact (Server.lifecycle_owes id q false).bind fun _ => hret ()
  | resume id q => exact (Server.lifecycle_owes id q true).bind fun _ => hret ()
  | reconcile command id runId =>
    exact (Server.reconcile_owes command id runId).bind fun _ => hret ()

end StateDrivenAgent
