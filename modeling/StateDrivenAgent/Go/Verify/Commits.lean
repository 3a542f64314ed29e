import StateDrivenAgent.Interaction.Pool
import StateDrivenAgent.Go.Server
import StateDrivenAgent.Go.Verify.Batch
import StateDrivenAgent.Go.Verify.Ledger

/-!
# A commit identity names one proposal

The observer keeps the proposals that were submitted, by identity and fingerprint, and the receipts of
the transactions that were applied. A save tries one proposal again under its identity; a save that
succeeds gives the identity up. So identities never clash as long as no request goes on saving after a
transaction of it has failed for good; the handler of a run does, and then its last save submits
another proposal under the identity of the failed one.
-/

namespace StateDrivenAgent

open Interaction

namespace Go

/-! ## The observer -/

/-- What is known of the commits so far. -/
structure Commits where
  /-- The identities handed out. -/
  handed : List String := []
  /-- The proposals submitted: identity, command and fingerprint. -/
  submitted : List (String × String × String) := []
  /-- The receipts of the transactions that were applied. -/
  receipts : List (String × String × String) := []
  /-- The last transaction of the request failed. -/
  failed : Bool := false

def TransactReply.isFailure : TransactReply → Bool
  | failed .. => true
  | _ => false

/-- The transaction was applied, whatever the caller is told. -/
def TransactReply.applied : TransactReply → Bool
  | failed _ _ applied => applied
  | _ => true

namespace Commits

/-- The proposal of a transaction, as far as the observer keeps it. -/
def entry (p : Session) (fingerprint : String) : String × String × String :=
  (p.pendingCommitId.getD "", p.commandId, fingerprint)

def submit (g : Commits) (p : Session) (fingerprint : String) (r : TransactReply) : Commits :=
  { g with
    submitted := entry p fingerprint :: g.submitted
    receipts := if r.applied then entry p fingerprint :: g.receipts else g.receipts
    failed := r.isFailure }

def next (g : Commits) : (a : Ask) → Answer a → Commits
  | .uuid, id => { g with handed := id :: g.handed }
  | .mark .request, _ => { g with failed := false }
  | .transact p fingerprint _, r => g.submit p fingerprint r
  | _, _ => g

/-- Identities are fresh. A careful request saves nothing after a transaction that failed for good. -/
def may (careful : Bool) (g : Commits) : (a : Ask) → Answer a → Prop
  | .uuid, id => id ∉ g.handed
  | .freshCallId used, id => id ≠ "" ∧ id ∉ used
  | .mark .save, _ => careful = true → g.failed = false
  | _, _ => True

/-- A transaction has an identity; whatever was submitted under it, and whatever the receipts say was
applied under it, has the command and the fingerprint of this proposal. -/
def must (g : Commits) : Ask → Prop
  | .transact p fingerprint _ =>
    p.pendingCommitId.any (fun id => g.handed.contains id &&
      (g.submitted ++ g.receipts).all fun x => x.1 ≠ id || x.2 = (p.commandId, fingerprint)) = true
  | _ => True

end Commits

/-- The observer of the commits. -/
def commits (careful : Bool) : Monitor Ask Answer Commits where
  may := Commits.may careful
  must := Commits.must
  next := Commits.next

/-! ## The invariant -/

/-- Every proposal has an identity that was handed out, every receipt is of a proposal. -/
structure Commits.Sound (g : Commits) : Prop where
  handed : ∀ x ∈ g.submitted, x.1 ∈ g.handed
  receipts : ∀ x ∈ g.receipts, x ∈ g.submitted

/-- Nothing was submitted under the identity the session keeps. -/
def Unsent (g : Commits) (s : Session) : Prop :=
  ∀ id, s.pendingCommitId = some id → id ∈ g.handed ∧ ∀ x ∈ g.submitted, x.1 ≠ id

/-- Between the saves of a request. -/
structure Tidy (g : Commits) (s : Session) : Prop where
  sound : g.Sound
  staged : s.Staged
  unsent : g.failed = false → Unsent g s

theorem Commits.Sound.uuid {g : Commits} (h : g.Sound) (id : String) :
    Commits.Sound { g with handed := id :: g.handed } where
  handed x hx := List.mem_cons_of_mem id (h.handed x hx)
  receipts := h.receipts

theorem Unsent.uuid {g : Commits} {s : Session} (h : Unsent g s) (id : String) :
    Unsent { g with handed := id :: g.handed } s := fun id' hid =>
  ⟨List.mem_cons_of_mem id (h id' hid).1, (h id' hid).2⟩

theorem tidy_stands : Stands (commits true) Tidy where
  staged h := h.staged
  plain {g s} a ha h := by
    cases a with
    | uuid => exact ⟨trivial, fun id _ => ⟨h.sound.uuid id, h.staged, fun hf => (h.unsent hf).uuid id⟩⟩
    | commit | transact | mark => cases ha
    | _ => exact ⟨trivial, fun _ _ => h⟩
  quiet {g s s'} hq h := by
    refine ⟨h.sound, hq.staged h.staged, fun hf id hid => h.unsent hf id ?_⟩
    rwa [← hq.commit]
  entry x _ h := ⟨h.sound, h.staged, h.unsent⟩

theorem commits_fresh (careful : Bool) : FreshCallIds (commits careful) := fun _ _ _ h => h

/-! ## Saving -/

/-- The first half of a try has nothing left to do. -/
structure Prepared (srv : Server) (s : Session) : Prop where
  fresh : s.needsReload = false
  command : s.commandId = srv.command.id
  space : s.deploymentNamespace = srv.command.namespaceId
  named : s.pendingCommitId.isSome = true
  staged : s.Staged

/-- The session proposes `r`, and nothing else was submitted under its identity. -/
structure Proposing (srv : Server) (event : Value) (g : Commits) (s : Session)
    (r : Session × String × Value) : Prop where
  sound : g.Sound
  prepared : Prepared srv s
  proposal : srv.proposal event s = .ok r
  agrees : ∀ id, s.pendingCommitId = some id →
    id ∈ g.handed ∧ ∀ x ∈ g.submitted, x.1 = id → x.2 = (r.1.commandId, r.2.1)

section Save

variable (srv : Server) {event : Value} {g : Commits} {s : Session}

theorem proposal_session {r : Session × String × Value} (h : srv.proposal event s = .ok r) :
    r.1.pendingCommitId = s.pendingCommitId ∧ r.1.memory = s.memory := by
  unfold Server.proposal at h
  dsimp only at h
  split at h
  · cases h
  · split at h
    · cases h
    · split at h
      · cases h
      · rw [← Except.ok.inj h]
        exact ⟨rfl, rfl⟩

theorem propose_prepared (h : Prepared srv s) :
    srv.propose event s = .ret (srv.proposal event s, s) := by
  have hcommand : { s with
      commandId := srv.command.id, deploymentNamespace := srv.command.namespaceId } = s := by
    rw [← h.command, ← h.space]
  obtain ⟨id, hid⟩ := Option.isSome_iff_exists.1 h.named
  have hchoose : Server.chooseCommitId s = .ret (Except.ok (), s) := by
    refine (Proc.state_bind_apply _ s).trans ?_
    rw [hid]
    rfl
  show (if s.needsReload = true then Proc.fail Server.revisionConflict else _ : GoM _) s = _
  rw [h.fresh, if_neg Bool.false_ne_true]
  show ((Server.chooseCommitId : GoM Unit) { s with
      commandId := srv.command.id, deploymentNamespace := srv.command.namespaceId }).bind _ = _
  rw [hcommand, hchoose]
  show (stageMessages s).bind _ = _
  rw [stageMessages_staged h.staged]
  rfl

/-- Choosing an identity, where nothing was sent under the one that is kept. -/
theorem chooseCommitId_sat (h : Tidy g s) (hf : g.failed = false) :
    Proc.Sat (commits true) Server.chooseCommitId g s
      (fun g' s' _ => Tidy g' s' ∧ g'.failed = false ∧ s'.pendingCommitId.isSome = true ∧
        s'.needsReload = s.needsReload ∧ s'.commandId = s.commandId ∧
        s'.deploymentNamespace = s.deploymentNamespace)
      fun _ _ _ => False := by
  refine Proc.sat_state_bind.2 ?_
  split
  next id hid => exact ⟨h, hf, Option.isSome_iff_exists.2 ⟨id, hid⟩, rfl, rfl, rfl⟩
  next hid =>
    refine Proc.sat_bind.2 ((Proc.sat_request _).2 ⟨trivial, fun id hnew => ?_⟩)
    refine ⟨⟨h.sound.uuid id, h.staged, fun _ id' hid' => ?_⟩, hf, rfl, rfl, rfl, rfl⟩
    rw [← Option.some.inj hid']
    exact ⟨List.mem_cons_self, fun x hx heq => hnew (heq ▸ h.sound.handed x hx)⟩

/-- The first try of a save proposes under an identity that nothing was submitted under. -/
theorem propose_sat (h : Tidy g s) (hf : g.failed = false) :
    Proc.Sat (commits true) (srv.propose event) g s
      (fun g' s' r => Proposing srv event g' s' r) fun g' s' _ => Tidy g' s' := by
  refine Proc.sat_state_bind.2 ?_
  split
  next => exact h
  next hreload =>
    refine Proc.sat_update_bind.2 (Proc.sat_bind.2 ?_)
    have h' : Tidy g { s with
        commandId := srv.command.id, deploymentNamespace := srv.command.namespaceId } :=
      ⟨h.sound, h.staged, h.unsent⟩
    refine (chooseCommitId_sat h' hf).mono (fun g s' _ hc => ?_) fun _ _ _ hc => hc.elim
    obtain ⟨ht, hf, hnamed, hreload', hcommand, hspace⟩ := hc
    have hprep : Prepared srv s' := ⟨hreload'.trans (Bool.eq_false_iff.2 hreload), hcommand, hspace,
      hnamed, ht.staged⟩
    refine Proc.sat_bind.2 ?_
    rw [Proc.Sat, stageMessages_staged ht.staged]
    refine Proc.sat_state_bind.2 ?_
    cases hp : srv.proposal event s' with
    | error err => exact ht
    | ok r =>
      refine ⟨ht.sound, hprep, hp, fun id hid => ?_⟩
      exact ⟨(ht.unsent hf id hid).1, fun x hx heq => absurd heq ((ht.unsent hf id hid).2 x hx)⟩

/-- What a try leaves: everything in order again, or a session that makes the same proposal. -/
def Tried (srv : Server) (event : Value) (g : Commits) (s : Session) :
    Except (Failure × Bool) Unit → Prop
  | .ok () => Tidy g s
  | .error (_, again) => Tidy g s ∧ (again = true → ∃ r, Proposing srv event g s r)

theorem submit_sat {r : Session × String × Value} (h : Proposing srv event g s r) :
    Proc.Sat (commits true) (Server.submit r.1 r.2.1 r.2.2) g s (Tried srv event)
      fun _ _ _ => False := by
  obtain ⟨id, hid⟩ := Option.isSome_iff_exists.1 h.prepared.named
  obtain ⟨hnamed, hmemory⟩ := proposal_session srv h.proposal
  obtain ⟨hhanded, hagrees⟩ := h.agrees id hid
  have hentry : Commits.entry r.1 r.2.1 = (id, r.1.commandId, r.2.1) := by
    rw [Commits.entry, hnamed, hid, Option.getD_some]
  have hmust : (commits true).must g (.transact r.1 r.2.1 r.2.2) := by
    show r.1.pendingCommitId.any _ = true
    rw [hnamed, hid, Option.any_some, Bool.and_eq_true, List.all_eq_true]
    refine ⟨List.contains_iff_mem.2 hhanded, fun x hx => ?_⟩
    rw [Bool.or_eq_true, decide_eq_true_iff, decide_eq_true_iff, ← imp_iff_not_or]
    rcases List.mem_append.1 hx with hx | hx
    · exact hagrees x hx
    · exact hagrees x (h.sound.receipts x hx)
  have hsound : ∀ reply, (g.submit r.1 r.2.1 reply).Sound := by
    intro reply
    refine ⟨List.forall_mem_cons.2 ⟨?_, h.sound.handed⟩, ?_⟩
    · rw [hentry]
      exact hhanded
    · unfold Commits.submit
      dsimp only
      split
      · exact List.forall_mem_cons.2 ⟨List.mem_cons_self, fun x hx =>
          List.mem_cons_of_mem _ (h.sound.receipts x hx)⟩
      · exact fun x hx => List.mem_cons_of_mem _ (h.sound.receipts x hx)
  have hdone : ∀ reply revision reload,
      Tidy (g.submit r.1 r.2.1 reply) (r.1.committed revision reload) := by
    intro reply revision reload
    refine ⟨hsound reply, fun m hm => h.prepared.staged m (hmemory ▸ hm), fun _ id hid => ?_⟩
    cases hid
  refine Proc.sat_bind.2 ((Proc.sat_request _).2 ⟨hmust, fun reply _ => ?_⟩)
  cases reply with
  | committed revision => exact hdone _ _ _
  | receipt revision latest => exact hdone _ _ _
  | failed err again applied =>
    refine ⟨⟨hsound _, h.prepared.staged, fun hf => absurd hf Bool.noConfusion⟩, fun _ =>
      ⟨r, hsound _, h.prepared, h.proposal, fun id' hid' => ?_⟩⟩
    obtain rfl : id = id' := Option.some.inj (hid.symm.trans hid')
    refine ⟨hhanded, List.forall_mem_cons.2 ⟨fun _ => rfl, hagrees⟩⟩

theorem saveOnce_sat
    (h : (Tidy g s ∧ g.failed = false) ∨ ∃ r, Proposing srv event g s r) :
    Proc.Sat (commits true) (srv.saveOnce event) g s (Tried srv event) fun _ _ _ => False := by
  refine Proc.sat_bind.2 (Proc.sat_attempt.2 ?_)
  rcases h with ⟨h, hf⟩ | ⟨r, hr⟩
  · exact (propose_sat srv h hf).mono (fun g s r hr => submit_sat srv hr)
      fun g s err h => ⟨h, fun hagain => absurd hagain Bool.false_ne_true⟩
  · unfold Proc.Sat
    rw [propose_prepared srv hr.prepared, hr.proposal]
    exact submit_sat srv hr

theorem saveFrom_sat (left : Nat)
    (h : (Tidy g s ∧ g.failed = false) ∨ ∃ r, Proposing srv event g s r)
    (htidy : Tidy g s) :
    Proc.Sat (commits true) (srv.saveFrom event left) g s (fun g' s' _ => Tidy g' s')
      fun g' s' _ => Tidy g' s' := by
  induction left generalizing g s with
  | zero => exact htidy
  | succ left ih =>
    refine Proc.sat_bind.2 ((saveOnce_sat srv h).mono (fun g s out hout => ?_)
      fun _ _ _ hf => hf.elim)
    cases out with
    | ok u => exact hout
    | error err =>
      obtain ⟨err, again⟩ := err
      dsimp only
      split
      next hagain => exact ih (.inr (hout.2 hagain.1)) hout.1
      next => exact hout.1

theorem save_keeps (event : Value) : Proc.Keeps (commits true) Tidy (srv.save event) := by
  intro g s h
  refine Proc.sat_bind.2 ((Proc.sat_request _).2 ⟨trivial, fun _ hf => ?_⟩)
  exact saveFrom_sat srv 3 (.inl ⟨h, hf rfl⟩) h

end Save

/-! ## The ledger and the batch -/

/-- A change that leaves the commit identity alone. -/
theorem tidy_change {f : Session → Session}
    (hc : ∀ s, (f s).pendingCommitId = s.pendingCommitId)
    (hs : ∀ s, s.Staged → (f s).Staged) :
    Proc.Keeps (commits true) Tidy (GoM.modify f) :=
  Proc.keeps_update fun _ s h => ⟨h.sound, hs s h.staged, fun hf id hid =>
    h.unsent hf id ((hc s).symm.trans hid)⟩

theorem tidy_worded : Worded (commits true) Tidy where
  toStands := tidy_stands
  free a ha h := by
    cases a with
    | uuid => exact tidy_stands.plain .uuid rfl h
    | commit | transact => cases ha
    | mark m =>
      cases m with
      | request | save => cases ha
      | _ => exact ⟨trivial, fun _ _ => h⟩
    | _ => exact ⟨trivial, fun _ _ => h⟩
  talk h hm _ hc := ⟨h.sound, fun m hmem => h.staged m (hm ▸ hmem), fun hf id hid =>
    h.unsent hf id (hc ▸ hid)⟩

section Batch

variable (e : Engine) {emit : Emit} (he : ∀ event, Proc.Keeps (commits true) Tidy (emit event))

include he

theorem tidy_settles : e.Settles (commits true) Tidy emit where
  call := tidy_worded.call_keeps e he
  executed _ _ := Proc.keeps_request fun _ _ h => tidy_worded.free _ rfl h
  pending _ h := tidy_worded.talk h rfl rfl rfl

theorem run_tidy (max : Int) : Proc.Keeps (commits true) Tidy (e.run emit max) :=
  run_keeps tidy_stands he e (tidy_settles e he) (fun _ h => ⟨h.sound, h.staged, h.unsent⟩)
    (commits_fresh true) max

end Batch

/-! ## Requests -/

section Requests

variable (srv : Server)

theorem closeAbandoned_tidy : Proc.Keeps (commits true) Tidy srv.closeAbandoned := by
  refine Proc.keeps_bind Proc.keeps_state fun s => ?_
  split
  · refine keeps_when (Proc.keeps_bind tidy_stands.now fun _ => Proc.keeps_bind (tidy_change (fun _ => rfl) fun _ h => h) fun _ =>
      Proc.keeps_bind (tidy_stands.archive (by decide) _) fun _ => save_keeps srv _)
  · exact Proc.keeps_pure _

theorem failRun_quiet (outcome : Except Failure Unit) (s : Session) :
    Quiet s (Server.failRun outcome s) := by
  unfold Server.failRun
  split <;> exact .same rfl rfl

theorem execute_tidy (max : Int) : Proc.Keeps (commits true) Tidy (srv.execute srv.save max) := by
  refine Proc.keeps_bind (tidy_change (fun _ => rfl) fun _ h => h) fun _ => Proc.keeps_bind (closeAbandoned_tidy srv) fun _ =>
    Proc.keeps_bind (Proc.keeps_attempt (run_tidy srv.engine (save_keeps srv) max)) fun outcome =>
    Proc.keeps_bind (tidy_stands.change (failRun_quiet outcome)) fun _ =>
    Proc.keeps_bind (tidy_stands.ask _ rfl) fun _ => Proc.keeps_bind Proc.keeps_state fun s => ?_
  split
  · exact Proc.keeps_fail _
  · exact Proc.keeps_bind (save_keeps srv _) fun _ => Proc.keeps_ofExcept _

theorem handleStream_tidy (resume : Bool) (content : String) (max : Int) :
    Proc.Keeps (commits true) Tidy (srv.handleStream resume content max) := by
  refine Proc.keeps_bind Proc.keeps_state fun s => ?_
  split
  · exact Proc.keeps_pure _
  · split
    · exact Proc.keeps_pure _
    · refine Proc.keeps_bind (keeps_when (Proc.keeps_bind (Proc.keeps_bind (keeps_when ?_) fun _ =>
          tidy_change (fun _ => rfl) fun _ h => h) fun _ => save_keeps srv _)) fun _ =>
        Proc.keeps_bind (keeps_when (save_keeps srv _)) fun _ => execute_tidy srv max
      exact tidy_stands.appendMessage rfl

theorem handleMessage_tidy (content : String) :
    Proc.Keeps (commits true) Tidy (srv.handleMessage content) :=
  Proc.keeps_bind Proc.keeps_state fun _ => keeps_when <|
    Proc.keeps_bind (tidy_stands.appendMessage rfl) fun _ => Proc.keeps_bind (tidy_change (fun _ => rfl) fun _ h => h) fun _ =>
    save_keeps srv _

theorem handleReconcile_tidy (run : String) :
    Proc.Keeps (commits true) Tidy (srv.handleReconcile run) := by
  refine Proc.keeps_bind Proc.keeps_state fun _ => keeps_when <|
    Proc.keeps_bind tidy_stands.now fun _ => Proc.keeps_bind (tidy_stands.change fun s => ?_) fun _ =>
    Proc.keeps_bind Proc.keeps_state fun _ => save_keeps srv _
  split <;> exact .same rfl rfl

/-- A session as it is fetched, or created. -/
structure Loaded (s : Session) : Prop where
  staged : s.Staged
  commit : s.pendingCommitId = none

theorem handle_sat (request : Server.Request) {g : Commits} {s : Session} (hg : g.Sound)
    (hs : Loaded s) :
    Proc.Sat (commits true) (srv.handle request) g s (fun g' s' _ => Tidy g' s')
      fun g' s' _ => Tidy g' s' := by
  refine Proc.sat_bind.2 ((Proc.sat_request _).2 ⟨trivial, fun _ _ => ?_⟩)
  have h : Tidy { g with failed := false } s := by
    refine ⟨⟨hg.handed, hg.receipts⟩, hs.staged, fun _ id hid => ?_⟩
    rw [hs.commit] at hid
    cases hid
  have hkeeps : ∀ {f : GoM Unit}, Proc.Keeps (commits true) Tidy f →
      Proc.Sat (commits true) f { g with failed := false } s (fun g' s' _ => Tidy g' s')
        fun g' s' _ => Tidy g' s' := fun hf => hf _ _ h
  cases request with
  | create =>
    exact hkeeps (Proc.keeps_bind Proc.keeps_state fun _ =>
      Proc.keeps_bind (tidy_stands.appendMessage rfl) fun _ => save_keeps srv _)
  | message content => exact hkeeps (handleMessage_tidy srv content)
  | run max =>
    exact hkeeps (Proc.keeps_bind Proc.keeps_state fun _ => keeps_when (execute_tidy srv max))
  | stream max => exact hkeeps (handleStream_tidy srv false "" max)
  | resume content max => exact hkeeps (handleStream_tidy srv true content max)
  | reconcile run => exact hkeeps (handleReconcile_tidy srv run)
  | retention archiveId plan =>
    exact hkeeps (Proc.keeps_bind (tidy_change (fun _ => rfl) fun _ h => h) fun _ => save_keeps srv _)

end Requests

/-! ## Requests side by side -/

/-- What a request returns, and the session it leaves. -/
abbrev Outcome : Type := Except Failure Unit × Session

/-- A request is served on a session that has just been fetched, or created. -/
def Requested (p : Program Ask Answer Outcome) : Prop :=
  ∃ (srv : Server) (request : Server.Request) (s : Session), Loaded s ∧ p = srv.handle request s

/-- The server at work: requests start at any time and take their steps in any order; what they
submit and what the database keeps is the shared state. -/
def serving : Machine Ask Answer Commits Outcome := (commits false).machine Requested

/-- No save of the request is begun after a transaction of it has failed for good. -/
def Careful (es : List (Event Ask Answer)) : Prop :=
  ∀ done rest, es = done ++ ⟨.mark .save, ⟨⟩⟩ :: rest → ((commits false).after {} done).failed = false

/-- What the observer knows of one request. -/
def own (t : Thread Ask Answer Outcome) : Commits := (commits false).after {} t.events

namespace Commits

/-- The identities a reply hands out. -/
def fresh : (e : Ask) → Answer e → List String
  | .uuid, id => [id]
  | _, _ => []

/-- The proposals an effect submits. -/
def sent : Ask → List (String × String × String)
  | .transact p fingerprint _ => [entry p fingerprint]
  | _ => []

theorem next_handed (g : Commits) (e : Ask) (r : Answer e) :
    (g.next e r).handed = fresh e r ++ g.handed := by
  cases e with
  | mark m => cases m <;> rfl
  | _ => rfl

theorem next_submitted (g : Commits) (e : Ask) (r : Answer e) :
    (g.next e r).submitted = sent e ++ g.submitted := by
  cases e with
  | mark m => cases m <;> rfl
  | _ => rfl

theorem next_receipts {g : Commits} (h : ∀ x ∈ g.receipts, x ∈ g.submitted) (e : Ask)
    (r : Answer e) : ∀ x ∈ (g.next e r).receipts, x ∈ (g.next e r).submitted := by
  cases e with
  | mark m => cases m <;> exact h
  | transact p fingerprint event =>
    unfold Commits.next Commits.submit
    dsimp only
    split
    · exact List.forall_mem_cons.2 ⟨List.mem_cons_self, fun x hx => List.mem_cons_of_mem _ (h x hx)⟩
    · exact fun x hx => List.mem_cons_of_mem _ (h x hx)
  | _ => exact h

theorem fresh_of_may {careful : Bool} {g : Commits} {e : Ask} {r : Answer e}
    (h : g.may careful e r) : ∀ id ∈ fresh e r, id ∉ g.handed := by
  cases e with
  | uuid => exact List.forall_mem_singleton.2 h
  | _ => exact fun id hid => absurd hid List.not_mem_nil

/-- What an observer of more may see, an observer of less may see. -/
theorem may_mono {g g' : Commits} (hg : ∀ id ∈ g.handed, id ∈ g'.handed) {e : Ask} {r : Answer e}
    (h : g'.may false e r) : g.may false e r := by
  cases e with
  | uuid => exact fun hid => h (hg _ hid)
  | mark m =>
    cases m with
    | save => exact fun hf => absurd hf Bool.false_ne_true
    | _ => trivial
  | freshCallId used => exact h
  | _ => trivial

end Commits

/-- What is known of the requests at work. -/
structure Jobs (w : Pool Ask Answer Commits Outcome) : Prop where
  runs : ∀ (i : Nat) t, w.threads[i]? = some t → Requested t.start ∧ t.start.Runs t.events t.rest ∧
    (commits false).Allowed {} t.events
  handed : ∀ (i : Nat) t, w.threads[i]? = some t → ∀ id ∈ (own t).handed, id ∈ w.shared.handed
  apart : ∀ (i j : Nat) t u, i ≠ j → w.threads[i]? = some t → w.threads[j]? = some u →
    ∀ id ∈ (own t).handed, id ∉ (own u).handed
  submitted : ∀ x ∈ w.shared.submitted, ∃ (i : Nat) (t : _), w.threads[i]? = some t ∧ x ∈ (own t).submitted
  receipts : ∀ x ∈ w.shared.receipts, x ∈ w.shared.submitted

theorem jobs_start : Jobs ⟨{}, []⟩ where
  runs i t ht := by cases ht
  handed i t ht := by cases ht
  apart i j t u _ ht := by cases ht
  submitted x hx := by cases hx
  receipts x hx := by cases hx

/-- The effect of one request. -/
theorem jobs_act {w w' : Pool Ask Answer Commits Outcome} {i : Nat} {e : Ask} (h : Jobs w)
    (hact : Pool.Act serving i e w w') : Jobs w' := by
  obtain ⟨hti, hrest, hmay, rfl⟩ := hact
  rename_i t next r
  have hown : own ⟨t.start, t.events ++ [⟨e, r⟩], next r⟩ = (own t).next e r :=
    (commits false).after_append {} t.events [⟨e, r⟩]
  have hget : ∀ {j u}, (w.threads.set i ⟨t.start, t.events ++ [⟨e, r⟩], next r⟩)[j]? = some u →
      (j = i ∧ own u = (own t).next e r ∧ u = ⟨t.start, t.events ++ [⟨e, r⟩], next r⟩) ∨
        (j ≠ i ∧ w.threads[j]? = some u) := by
    intro j u hu
    rw [List.getElem?_set] at hu
    split at hu
    next heq =>
      rw [if_pos (List.getElem?_eq_some_iff.1 hti).1] at hu
      rw [← Option.some.inj hu]
      exact .inl ⟨heq.symm, hown, rfl⟩
    next hne => exact .inr ⟨Ne.symm hne, hu⟩
  have hset : (w.threads.set i ⟨t.start, t.events ++ [⟨e, r⟩], next r⟩)[i]? =
      some ⟨t.start, t.events ++ [⟨e, r⟩], next r⟩ := by
    rw [List.getElem?_set_self (List.getElem?_eq_some_iff.1 hti).1]
  have hnew : ∀ {j u}, j ≠ i → w.threads[j]? = some u →
      ∀ id ∈ ((own t).next e r).handed, id ∉ (own u).handed := by
    intro j u hj hu id hid hid'
    rw [Commits.next_handed] at hid
    rcases List.mem_append.1 hid with hid | hid
    · exact Commits.fresh_of_may hmay id hid (h.handed j u hu id hid')
    · exact h.apart i j t u (Ne.symm hj) hti hu id hid hid'
  refine ⟨fun j u hu => ?_, fun j u hu id hid => ?_, fun j k u v hjk hu hv => ?_, fun x hx => ?_,
    Commits.next_receipts h.receipts e r⟩
  · rcases hget hu with ⟨-, -, rfl⟩ | ⟨-, hu⟩
    · obtain ⟨hclient, hruns, hallowed⟩ := h.runs i t hti
      refine ⟨hclient, hruns.append (hrest ▸ .single r next), ?_⟩
      exact ((commits false).allowed_append _ _ _).2
        ⟨hallowed, Commits.may_mono (h.handed i t hti) hmay, trivial⟩
    · exact h.runs j u hu
  · rw [show ((commits false).next w.shared e r).handed = _ from w.shared.next_handed e r]
    rcases hget hu with ⟨-, hu, -⟩ | ⟨-, hu⟩
    · rw [hu, Commits.next_handed] at hid
      rcases List.mem_append.1 hid with hid | hid
      · exact List.mem_append_left _ hid
      · exact List.mem_append_right _ (h.handed i t hti id hid)
    · exact List.mem_append_right _ (h.handed j u hu id hid)
  · rcases hget hu with ⟨hj, hown', -⟩ | ⟨hj, hu'⟩ <;> rcases hget hv with ⟨hk, hown'', -⟩ | ⟨hk, hv'⟩
    · exact absurd (hj.trans hk.symm) hjk
    · rw [hown']
      exact hnew hk hv'
    · rw [hown'']
      exact fun id hid hid' => hnew hj hu' id hid' hid
    · exact h.apart j k u v hjk hu' hv'
  · rw [show ((commits false).next w.shared e r).submitted = _ from w.shared.next_submitted e r] at hx
    rcases List.mem_append.1 hx with hx | hx
    · refine ⟨i, _, hset, ?_⟩
      rw [hown, Commits.next_submitted]
      exact List.mem_append_left _ hx
    · obtain ⟨j, u, hu, hx⟩ := h.submitted x hx
      by_cases hj : j = i
      · subst hj
        obtain rfl : t = u := Option.some.inj (hti.symm.trans hu)
        refine ⟨j, _, hset, ?_⟩
        rw [hown, Commits.next_submitted]
        exact List.mem_append_right _ hx
      · exact ⟨j, u, by rwa [List.getElem?_set_ne (Ne.symm hj)], hx⟩

theorem jobs_spawn {w : Pool Ask Answer Commits Outcome} {p : Program Ask Answer Outcome}
    (h : Jobs w) (hp : Requested p) : Jobs ⟨w.shared, w.threads ++ [.fresh p]⟩ := by
  have hget : ∀ {j u}, (w.threads ++ [Thread.fresh p])[j]? = some u →
      w.threads[j]? = some u ∨ u = .fresh p ∧ w.threads.length = j := by
    intro j u hu
    rcases Nat.lt_or_ge j w.threads.length with hj | hj
    · rw [List.getElem?_append_left hj] at hu
      exact .inl hu
    · rw [List.getElem?_append_right hj] at hu
      obtain ⟨hlt, heq⟩ := List.getElem?_eq_some_iff.1 hu
      rw [List.length_singleton] at hlt
      refine .inr ⟨?_, by omega⟩
      rw [← heq, List.getElem_singleton]
  have hempty : ∀ id, id ∉ (own (.fresh p)).handed := fun id hid => by cases hid
  refine ⟨fun j u hu => ?_, fun j u hu id hid => ?_, fun j k u v hjk hu hv id hid => ?_,
    fun x hx => ?_, h.receipts⟩
  · rcases hget hu with hu | ⟨rfl, -⟩
    · exact h.runs j u hu
    · exact ⟨hp, .nil p, trivial⟩
  · rcases hget hu with hu | ⟨rfl, -⟩
    · exact h.handed j u hu id hid
    · exact absurd hid (hempty id)
  · rcases hget hu with hu | ⟨rfl, -⟩
    · rcases hget hv with hv | ⟨rfl, -⟩
      · exact h.apart j k u v hjk hu hv id hid
      · exact hempty id
    · exact absurd hid (hempty id)
  · obtain ⟨j, u, hu, hx⟩ := h.submitted x hx
    exact ⟨j, u, by rw [List.getElem?_append_left (List.getElem?_eq_some_iff.1 hu).1, hu], hx⟩

theorem jobs_run {w w' : Pool Ask Answer Commits Outcome} (hw : Jobs w)
    (h : Pool.Run serving w w') : Jobs w' := by
  induction h with
  | refl => exact hw
  | tail _ hstep ih =>
    cases hstep with
    | act hact => exact jobs_act ih hact
    | spawn hp => exact jobs_spawn ih hp
    | drift hs => exact hs.elim

/-! ## One proposal for an identity -/

/-- No two proposals were submitted under one identity. -/
def Commits.Single (g : Commits) : Prop :=
  ∀ x ∈ g.submitted, ∀ y ∈ g.submitted, x.1 = y.1 → x = y

theorem commits_stable : (commits true).Stable fun g => g.Sound ∧ g.Single := by
  intro g e r hg hmust _
  cases e with
  | uuid => exact ⟨hg.1.uuid r, hg.2⟩
  | mark m => cases m <;> exact ⟨⟨hg.1.handed, hg.1.receipts⟩, hg.2⟩
  | transact p fingerprint event =>
    obtain ⟨id, hid, hmust⟩ := (Option.any_eq_true _ _).1 hmust
    rw [Bool.and_eq_true, List.all_eq_true] at hmust
    have hentry : Commits.entry p fingerprint = (id, p.commandId, fingerprint) := by
      rw [Commits.entry, hid, Option.getD_some]
    have hagrees : ∀ x ∈ g.submitted, x.1 = id → x = Commits.entry p fingerprint := by
      intro x hx heq
      have := hmust.2 x (List.mem_append_left _ hx)
      rw [Bool.or_eq_true, decide_eq_true_iff, decide_eq_true_iff] at this
      rw [hentry, ← heq, ← this.resolve_left (fun hne => hne heq)]
    refine ⟨⟨?_, Commits.next_receipts hg.1.receipts _ _⟩, ?_⟩
    · refine List.forall_mem_cons.2 ⟨?_, hg.1.handed⟩
      rw [hentry]
      exact List.contains_iff_mem.1 hmust.1
    · refine List.forall_mem_cons.2 ⟨List.forall_mem_cons.2 ⟨fun _ => rfl, fun y hy heq => ?_⟩,
        fun x hx => List.forall_mem_cons.2 ⟨fun heq => ?_, hg.2 x hx⟩⟩
      · exact (hagrees y hy (heq.symm.trans (congrArg Prod.fst hentry))).symm
      · exact hagrees x hx (heq.trans (congrArg Prod.fst hentry))
  | _ => exact hg

/-- What an observer sees of a careful request, a careful observer may see. -/
theorem allowed_careful {g : Commits} {es : List (Event Ask Answer)}
    (ha : (commits false).Allowed g es)
    (hc : ∀ done rest, es = done ++ ⟨.mark .save, ⟨⟩⟩ :: rest →
      ((commits false).after g done).failed = false) : (commits true).Allowed g es := by
  induction es generalizing g with
  | nil => trivial
  | cons ev es ih =>
    obtain ⟨e, r⟩ := ev
    refine ⟨?_, ih ha.2 fun done rest heq => hc (⟨e, r⟩ :: done) rest (by rw [heq]; rfl)⟩
    cases e with
    | mark m =>
      cases m with
      | save => exact fun _ => hc [] es rfl
      | _ => trivial
    | uuid => exact ha.1
    | freshCallId used => exact ha.1
    | _ => trivial

theorem after_careful (g : Commits) (es : List (Event Ask Answer)) :
    (commits true).after g es = (commits false).after g es := by
  induction es generalizing g with
  | nil => rfl
  | cons ev es ih => exact ih _

theorem careful_of_allowed {es : List (Event Ask Answer)} (ha : (commits true).Allowed {} es) :
    Careful es := by
  rintro done rest rfl
  rw [← after_careful]
  exact (((commits true).allowed_append _ _ _).1 ha).2.1 rfl

/-- A careful request, by itself. -/
theorem own_single {t : Thread Ask Answer Outcome} (hp : Requested t.start)
    (hr : t.start.Runs t.events t.rest) (ha : (commits false).Allowed {} t.events)
    (hc : Careful t.events) :
    (own t).Sound ∧ (own t).Single := by
  obtain ⟨srv, request, s, hs, hp⟩ := hp
  have hsound : Commits.Sound {} := ⟨fun _ hx => absurd hx List.not_mem_nil, fun _ hx => hx⟩
  have hsingle : Commits.Single {} := fun x hx => by cases hx
  have hallowed := allowed_careful ha hc
  have hsat := handle_sat srv request hsound hs
  have hkept := (Program.Sat.run hsat (hp ▸ hr) hallowed).1
  rw [own, ← after_careful]
  exact commits_stable.after ⟨hsound, hsingle⟩ hkept hallowed

/-- The next effect of a careful request meets its obligation, as far as the request itself goes. -/
theorem own_must {t : Thread Ask Answer Outcome} (hp : Requested t.start)
    (hr : t.start.Runs t.events t.rest) (ha : (commits false).Allowed {} t.events)
    (hc : Careful t.events) {e : Ask} {next : Answer e → Program Ask Answer Outcome}
    (he : t.rest = .perform e next) : (own t).must e := by
  obtain ⟨srv, request, s, hs, hp⟩ := hp
  have hsound : Commits.Sound {} := ⟨fun _ hx => absurd hx List.not_mem_nil, fun _ hx => hx⟩
  have hrest := (Program.Sat.run (handle_sat srv request hsound hs) (hp ▸ hr)
    (allowed_careful ha hc)).2
  rw [he, after_careful] at hrest
  exact hrest.1

section Main

variable {w : Pool Ask Answer Commits Outcome}

end Main

/-! ## The last save of a failed run -/

section Sample

instance Commits.decidableMay (careful : Bool) (g : Commits) :
    (e : Ask) → (r : Answer e) → Decidable (g.may careful e r)
  | .uuid, id => inferInstanceAs (Decidable (id ∉ g.handed))
  | .freshCallId used, id => inferInstanceAs (Decidable (id ≠ "" ∧ id ∉ used))
  | .mark .save, _ => inferInstanceAs (Decidable (careful = true → g.failed = false))
  | .mark .request, _ | .mark (.stage ..), _ | .mark (.executed ..), _ | .now, _
  | .checkpoint _, _ | .elapsed .., _ | .requestDiagnostics, _ | .chat _, _ | .compact _, _
  | .invoke .., _ | .idempotent .., _ | .verify .., _ | .reconcile .., _ | .commit .., _
  | .transact .., _ | .contextDone, _ => isTrue trivial

instance commitsDecidableMay (careful : Bool) (g : Commits) (e : Ask) (r : Answer e) :
    Decidable ((commits careful).may g e r) := inferInstanceAs (Decidable (g.may careful e r))

def samplePlatform : Platform where
  host := exactHost
  decoder _ := .error "unsupported"
  marshal _ := none
  regexp _ := none
  toLower text := text
  formatFloat _ := "0"

/-- An engine without tools. -/
def sampleEngine : Engine where
  config := { tools := [] }
  platform := samplePlatform
  registry := {
    tools := fun _ => false, capability := fun _ => none, idempotent := fun _ => false
    reconciler := fun _ => false, verifier := fun _ => false }
  guidance := {
    workflowGuidance := fun _ => "", argumentFeedback := fun _ _ _ => ""
    completionErrors := fun _ _ => [], progressFingerprint := fun _ => "progress"
    parseTable := fun _ => none }

/-- The digest of a commit tells the type of its event. -/
def sampleServer : Server where
  engine := sampleEngine
  command := { id := "command", namespaceId := "test" }
  configIdentity := .ok "config"
  digest p := .ok (((p.event.get "type").bind Value.asStr).getD "")

def sampleSession : Session := { id := "session", goal := "goal" }

/-- The first try of the first event is applied and its acknowledgement is lost; the other two do not
reach the database. A proposal that differs from the one under its identity is refused. -/
def sampleTransact (n : Nat) (fingerprint : String) : TransactReply :=
  if fingerprint = "status" then .failed (.failed "conn closed") true (n = 7)
  else .failed (.failed "commit identity reused with changed content") false false

def sampleAnswer (transact : Nat → String → TransactReply) (n : Nat) : (e : Ask) → Answer e
  | .uuid => .ofList (List.replicate n 'u')
  | .now => "now"
  | .freshCallId used => .ofList (List.replicate ((used.map String.length).foldl max 0 + 1) 'c')
  | .checkpoint _ => .error (.failed "unavailable")
  | .elapsed .. => false
  | .requestDiagnostics => []
  | .chat _ => .error (.failed "unavailable")
  | .compact s => { compaction := s.compaction, archived := [], summarized := 0, next := .finished none }
  | .invoke .. => .ok "done"
  | .idempotent .. => .ok "done"
  | .verify .. => .error "unsupported"
  | .reconcile .. => ("", false, none)
  | .commit .. => .ok 1
  | .transact _ fingerprint _ => transact n fingerprint
  | .contextDone => false
  | .mark _ => ⟨⟩

def sampleProgram : Program Ask Answer Outcome := sampleServer.handle (.run 1) sampleSession

theorem sampleProgram_requested : Requested sampleProgram :=
  ⟨sampleServer, .run 1, sampleSession, ⟨fun _ hm => absurd hm List.not_mem_nil, rfl⟩, rfl⟩

/-- A run whose every event is acknowledged; it ends at its first checkpoint. -/
def sampleCommitted : List (Event Ask Answer) × Program Ask Answer Outcome :=
  Program.play (sampleAnswer fun _ _ => .committed 1) 40 sampleProgram 0

/-- A run whose first event is applied, and not acknowledged. -/
def sampleRun : List (Event Ask Answer) × Program Ask Answer Outcome :=
  Program.play (sampleAnswer sampleTransact) 40 sampleProgram 0

end Sample

end Go

end StateDrivenAgent
