import StateDrivenAgent.Spec.Watch

/-!
# Keeping a property up

An `Upkeep` is an invariant of the ghost state and the core of the session that every move keeps,
together with what the environment promises and what the agent owes. The rules carry it through the
programs of the agent: an effect that is neither a commit nor a request leaves it as it is, a change
of the session has to be one of the moves, and a checkpoint keeps the task. A program fails only
where the invariant lets a failure be followed by an overruling handler (`Err`), or with a message
after which no handler stores anything (`Mild`).
-/

namespace StateDrivenAgent

open Interaction

/-- The monitor of a promise of the environment and an obligation of the agent. -/
def watch (env : Deployment) (config : Config) (promise : Ghost → (x : Eff) → Reply x → Prop)
    (owes : Ghost → Eff → Prop) : Monitor Eff Reply Ghost where
  may g x r := world env config g x r ∧ promise g x r
  must := owes
  next := Ghost.next

/-- The effect neither commits nor loads a session, and is not a result. -/
def Eff.inert : Eff → Bool
  | .transact .. | .load _ | .mark (.executed ..) => false
  | _ => true

/-- The effect is under no obligation. -/
def Eff.quiet : Eff → Bool
  | .transact .. | .httpPost .. | .mark (.dispatch ..) => false
  | _ => true

theorem Ghost.next_inert {g : Ghost} {x : Eff} (r : Reply x) (h : x.inert = true) :
    g.next x r = g := by
  cases x with
  | mark m => cases m <;> first | rfl | cases h
  | transact | load => cases h
  | _ => rfl

/-- A session without numbered records has no records. -/
def Session.Numbered (s : Session) : Prop :=
  s.diagnosticCounts = [] →
    s.compactionEvents = [] ∧ s.compactionAttempts = [] ∧ s.compactionDecisions = []

theorem SameJournal.refl (s : Session) : SameJournal s s := ⟨rfl, rfl, rfl, rfl⟩

theorem SameJournal.numbered {s x : Session} (h : SameJournal s x) (hs : s.Numbered) :
    x.Numbered := by
  intro hx
  rw [h.events, h.attempts, h.decisions]
  exact hs (h.counts ▸ hx)

/-- The sessions differ in nothing an invariant or a commit depends on. -/
structure Alike (s s' : Session) : Prop where
  core : s'.core = s.core
  journal : SameJournal s s'
  reload : s'.needsReload = s.needsReload
  ack : s'.checkpointAck = s.checkpointAck

namespace Alike

theorem refl (s : Session) : Alike s s := ⟨rfl, .refl s, rfl, rfl⟩

theorem trans {s s' s'' : Session} (h : Alike s s') (h' : Alike s' s'') : Alike s s'' where
  core := h'.core.trans h.core
  journal := {
    counts := h'.journal.counts.trans h.journal.counts
    events := h'.journal.events.trans h.journal.events
    attempts := h'.journal.attempts.trans h.journal.attempts
    decisions := h'.journal.decisions.trans h.journal.decisions }
  reload := h'.reload.trans h.reload
  ack := h'.ack.trans h.ack

end Alike

/-- `s'` is `s` with the core `c`, as far as it matters. -/
structure Becomes (s : Session) (c : Core) (s' : Session) : Prop where
  core : s'.core = c
  journal : SameJournal s s'
  reload : s'.needsReload = s.needsReload

theorem Alike.becomes {s s' s'' : Session} {c : Core} (h : Alike s s') (h' : Becomes s' c s'') :
    Becomes s c s'' where
  core := h'.core
  journal := {
    counts := h'.journal.counts.trans h.journal.counts
    events := h'.journal.events.trans h.journal.events
    attempts := h'.journal.attempts.trans h.journal.attempts
    decisions := h'.journal.decisions.trans h.journal.decisions }
  reload := h'.reload.trans h.reload

/-- The event does not report a broken history. -/
def Harmless (event : Value) : Prop :=
  (event.index "code").asStr ≠ some "context_integrity_error"

/-- An event without a code. -/
theorem harmless_plain {fields : List (String × Value)} (h : lookup "code" fields = none) :
    Harmless (.obj fields) := by
  simp [Harmless, Value.index, Value.get, h, Value.asStr]

theorem harmless_code {fields : List (String × Value)} {code : String}
    (h : lookup "code" fields = some (.str code)) (hne : code ≠ "context_integrity_error") :
    Harmless (.obj fields) := by
  simpa [Harmless, Value.index, Value.get, h, Value.asStr] using hne

structure Upkeep (env : Deployment) (e : Engine)
    (promise : Ghost → (x : Eff) → Reply x → Prop) (owes : Ghost → Eff → Prop) where
  Inv : Ghost → Core → Prop
  /-- The run may be overruled. -/
  Err : Ghost → Prop
  /-- Nothing is stored after a failure with this message. -/
  Mild : String → Prop
  /-- The events that may be committed. -/
  Event : Value → Prop
  content : Core → Prop
  free : Prop
  request : Prop
  supported : ∀ tool ∈ e.config.tools, tool.name ≠ ""
  move : ∀ {g c c'}, Inv g c →
    Move e ⟨content, (· ∈ g.executed), free, Err g, request⟩ c c' → Inv g c'
  active : ∀ {g c}, Inv g c → c.status = .active → Err g
  overrules : ∀ {g}, free → Err g
  unresolved : ∀ m, Mild ("commit_outcome_unresolved: " ++ m)
  harmless : ∀ {event}, Harmless event → Event event
  grouped : ∀ {g c}, Inv g c → c.pendingToolCalls = [] →
    Grouped (c.memory.drop 1) ∨ ∀ event, Event event
  -- what the agent owes
  quiet : ∀ {g x}, x.quiet = true → owes g x
  commit : ∀ {g s value event}, Inv g s.core → s.Numbered → Event event →
    owes g (.transact s value event)
  dispatch : ∀ {g s call id name args}, Inv g s.core →
    e.Dispatches s call id name args →
      owes g (.mark (.dispatch s call id name args))
  post : ∀ {g url payload}, e.Fits payload → owes g (.httpPost url payload)
  -- what the replies do
  executed : ∀ {g s name args output c}, Inv g c →
    Inv (g.next (.mark (.executed s name args output)) ()) c
  executedErr : ∀ {g s name args output}, Err g →
    Err (g.next (.mark (.executed s name args output)) ())
  committed : ∀ {g s value event r}, (watch env e.config promise owes).may g (.transact s value event) r →
    Inv g s.core → Inv (g.next (.transact s value event) r) s.core
  answered : ∀ {g s value event} {r : TransactReply},
    (watch env e.config promise owes).may g (.transact s value event) r → r.result = .ok () →
      r.session.needsReload = true → Err (g.next (.transact s value event) r)
  refused : ∀ {g s value event x} {r : TransactReply}, Inv g s.core →
    (watch env e.config promise owes).may g (.transact s value event) r → r.result = .error x →
      x.unresolved = false → Mild x.message ∨ Err (g.next (.transact s value event) r)
  cancelled : ∀ {g session run r c}, Inv g c →
    (watch env e.config promise owes).may g (.cancelRequested session run) r → r ≠ .ok (some false) →
      Err g
  unsent : ∀ {g event c}, Inv g c → (watch env e.config promise owes).may g (.send event) false → Err g
  limited : ∀ {g s before}, Inv g s.core →
    (watch env e.config promise owes).may g (.mark (.observing s before)) () →
      s.status = .active ∨ free ∨ ¬e.Limited s before
  blocked : ∀ {g s}, (watch env e.config promise owes).may g (.mark (.blocking s)) () → free

theorem Session.status_of_task {s s' : Session} (h : s'.task = s.task) : s'.status = s.status :=
  congrArg Task.status h

namespace Upkeep

variable {env : Deployment} {e : Engine} {promise : Ghost → (x : Eff) → Reply x → Prop}
  {owes : Ghost → Eff → Prop} (U : Upkeep env e promise owes)

/-- What holds of the session whenever it is not in the middle of a change. -/
structure At (g : Ghost) (s : Session) : Prop where
  inv : U.Inv g s.core
  numbered : s.Numbered
  reload : s.needsReload = true → U.Err g

def Fails (g : Ghost) (x : String) : Prop := U.Mild x ∨ U.Err g

def permits (g : Ghost) : Permits := ⟨U.content, (· ∈ g.executed), U.free, U.Err g, U.request⟩

/-- `f` keeps the property up and ends in `post`, or it fails where it may. -/
def Does {α : Type} (f : EngineM α) (g : Ghost) (s : Session)
    (post : Ghost → Session → α → Prop) : Prop :=
  f.Sat (watch env e.config promise owes) g s (fun g s a => U.At g s ∧ post g s a)
    fun g s x => U.At g s ∧ U.Fails g x

variable {U} {g : Ghost} {s s' : Session} {α β : Type} {post : Ghost → Session → α → Prop}

/-! ## Changes of the session -/

namespace At

theorem becomes {c : Core} (h : U.At g s) (hb : Becomes s c s')
    (hm : Move e (U.permits g) s.core c) : U.At g s' :=
  ⟨hb.core ▸ U.move h.inv hm, hb.journal.numbered h.numbered, fun h' => h.reload (hb.reload ▸ h')⟩

theorem alike (h : U.At g s) (ha : Alike s s') : U.At g s' :=
  ⟨ha.core ▸ h.inv, ha.journal.numbered h.numbered, fun h' => h.reload (ha.reload ▸ h')⟩

theorem fails (h : U.At g s) (ha : s.status = .active) (x : String) : U.Fails g x :=
  .inr (U.active h.inv ha)

end At

/-! ## Programs -/

theorem does_pure {a : α} (h : U.At g s) (hp : post g s a) : U.Does (pure a) g s post := ⟨h, hp⟩

theorem does_bind {f : EngineM α} {k : α → EngineM β} {post' : Ghost → Session → β → Prop}
    (h : U.Does f g s post)
    (hk : ∀ g' s' a, U.At g' s' → post g' s' a → U.Does (k a) g' s' post') :
    U.Does (f >>= k) g s post' := by
  refine Proc.sat_bind.mpr (Proc.Sat.mono_post h ?_)
  exact fun g' s' a h' => hk g' s' a h'.1 h'.2

theorem Does.mono {f : EngineM α} {post' : Ghost → Session → α → Prop} (h : U.Does f g s post)
    (hp : ∀ g' s' a, U.At g' s' → post g' s' a → post' g' s' a) : U.Does f g s post' :=
  Proc.Sat.mono_post h fun g' s' a h' => ⟨h'.1, hp g' s' a h'.1 h'.2⟩

theorem does_get_bind {k : Session → EngineM β} {post' : Ghost → Session → β → Prop}
    (h : U.Does (k s) g s post') : U.Does (EngineM.get >>= k) g s post' := h

theorem does_modify_bind {f : Session → Session} {k : Unit → EngineM β}
    {post' : Ghost → Session → β → Prop} (h : U.Does (k ()) g (f s) post') :
    U.Does (EngineM.modify f >>= k) g s post' := h

theorem does_swap_bind {f : Session → α × Session} {k : α → EngineM β}
    {post' : Ghost → Session → β → Prop} (h : U.Does (k (f s).1) g (f s).2 post') :
    U.Does (Proc.swap f >>= k) g s post' := h

theorem does_modify {f : Session → Session} {post : Ghost → Session → Unit → Prop}
    (h : U.At g (f s)) (hp : post g (f s) ()) : U.Does (EngineM.modify f) g s post := ⟨h, hp⟩

/-- An effect without obligation that leaves the ghost state as it is. -/
theorem does_request {x : Eff} {post : Ghost → Session → Reply x → Prop} (h : U.At g s)
    (hq : x.quiet = true) (hi : x.inert = true)
    (hp : ∀ r, (watch env e.config promise owes).may g x r → post g s r) :
    U.Does (Proc.request x) g s post := by
  refine ⟨U.quiet hq, fun r hr => ?_⟩
  show U.At (g.next x r) s ∧ post (g.next x r) s r
  rw [Ghost.next_inert r hi]
  exact ⟨h, hp r hr⟩

theorem sat_request_bind {ε : Type} {x : Eff} {k : Reply x → Proc Eff Reply Session ε β}
    {post' : Ghost → Session → β → Prop} {err : Ghost → Session → ε → Prop} (U : Upkeep env e promise owes)
    (hq : x.quiet = true) (hi : x.inert = true)
    (h : ∀ r, (watch env e.config promise owes).may g x r →
      (k r).Sat (watch env e.config promise owes) g s post' err) :
    (Proc.request x >>= k).Sat (watch env e.config promise owes) g s post' err := by
  refine ⟨U.quiet hq, fun r hr => ?_⟩
  show (k r).Sat (watch env e.config promise owes) (g.next x r) s post' err
  rw [Ghost.next_inert r hi]
  exact h r hr

theorem does_ofExcept {x : Except String α} (h : U.At g s)
    (hp : ∀ a, x = .ok a → post g s a) (he : ∀ m, x = .error m → U.Fails g m) :
    U.Does (Proc.ofExcept x) g s post := by
  cases x with
  | ok a => exact ⟨h, hp a rfl⟩
  | error m => exact ⟨h, he m rfl⟩

theorem does_fail {x : String} (h : U.At g s) (he : U.Fails g x) :
    U.Does (Proc.fail x : EngineM α) g s post := ⟨h, he⟩

theorem does_panic : U.Does (EngineM.panic : EngineM α) g s post :=
  ⟨U.quiet rfl, fun r => nomatch r⟩

theorem does_i64 {x : Option α} (h : U.At g s) (hp : ∀ a, x = some a → post g s a) :
    U.Does (EngineM.i64 x) g s post := by
  cases x with
  | none => exact does_panic
  | some a => exact ⟨h, hp a rfl⟩

theorem does_op {f : StateOp} {post : Ghost → Session → Unit → Prop} (h : U.At g (f s).2)
    (hp : (f s).1 = .ok () → post g (f s).2 ())
    (he : ∀ m, (f s).1 = .error m → U.Fails g m) : U.Does (EngineM.op f) g s post := by
  refine Proc.sat_step (fun _ h' => ⟨h, hp h'⟩) fun m h' => ⟨h, he m h'⟩

/-- A failure that is returned instead. -/
theorem does_attempt {f : EngineM α} {post' : Ghost → Session → Except String α → Prop}
    (h : U.Does f g s post) (hok : ∀ g' s' a, U.At g' s' → post g' s' a → post' g' s' (.ok a))
    (herr : ∀ g' s' x, U.At g' s' → U.Fails g' x → post' g' s' (.error x)) :
    U.Does (Proc.attempt f) g s post' := by
  refine Proc.sat_attempt.mpr (Proc.Sat.mono h ?_ ?_)
  · exact fun g' s' a h' => ⟨h'.1, hok g' s' a h'.1 h'.2⟩
  · exact fun g' s' x h' => ⟨h'.1, herr g' s' x h'.1 h'.2⟩

/-! ## Programs that keep the task -/

/-- `f` keeps the property up and the task as it is, or it fails where it may. -/
def Keeps (U : Upkeep env e promise owes) {α : Type} (f : EngineM α) (g : Ghost)
    (s : Session) : Prop := U.Does f g s fun _ s' _ => s'.task = s.task

theorem keeps_pure {a : α} (h : U.At g s) : U.Keeps (pure a) g s := ⟨h, rfl⟩

theorem keeps_fail {x : String} (h : U.At g s) (he : U.Fails g x) :
    U.Keeps (Proc.fail x : EngineM α) g s := ⟨h, he⟩

theorem Keeps.of_task {f : EngineM α} (h : U.Keeps f g s') (ht : s'.task = s.task) :
    U.Does f g s' fun _ s'' _ => s''.task = s.task :=
  Does.mono h fun _ _ _ _ h' => h'.trans ht

theorem keeps_bind {f : EngineM α} {k : α → EngineM β} (h : U.Keeps f g s)
    (hk : ∀ g' s' a, U.At g' s' → s'.task = s.task → U.Keeps (k a) g' s') :
    U.Keeps (f >>= k) g s :=
  does_bind h fun g' s' a h' ht => (hk g' s' a h' ht).of_task ht

theorem keeps_modify_bind {f : Session → Session} {k : Unit → EngineM β}
    (ht : (f s).task = s.task) (h : U.Keeps (k ()) g (f s)) :
    U.Keeps (EngineM.modify f >>= k) g s := does_modify_bind (h.of_task ht)

theorem keeps_request_bind {x : Eff} {k : Reply x → EngineM β} (hq : x.quiet = true)
    (hi : x.inert = true) (h : ∀ r, U.Keeps (k r) g s) : U.Keeps (Proc.request x >>= k) g s :=
  U.sat_request_bind hq hi fun r _ => h r

theorem keeps_ofExcept_bind {x : Except String α} {k : α → EngineM β} (h : U.At g s)
    (he : ∀ m, U.Fails g m) (hk : ∀ a, U.Keeps (k a) g s) :
    U.Keeps (Proc.ofExcept x >>= k) g s := by
  cases x with
  | ok a => exact hk a
  | error m => exact ⟨h, he m⟩

end Upkeep

end StateDrivenAgent
