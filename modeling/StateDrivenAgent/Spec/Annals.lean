import StateDrivenAgent.Verify.Recording

/-!
# What a worker knows of the executions

The annals tell the executions of every session at every revision. A worker that has loaded or
committed a revision knows the rows of it, whatever the other workers do: the next revision is only
reached by a commit on top of this one. `Worker` is what is to be remembered of a worker: the
identities it has drawn, its commits, the call it dispatches, and whether it has committed a dispatch
of that call that it has not made yet. `Worker.watch` says what the tables answer it, and what it owes:
no invocation without such a commit.
-/

namespace StateDrivenAgent

open Interaction
open Storage (ExecutionRow executionKey)

/-! ## Annals -/

/-- The executions of every session at every revision. -/
abbrev Annals : Type := String → Int → List ExecutionRow

namespace Annals

variable (L : Annals)

/-- The execution has a row at this revision, with as many dispatches. -/
def Known (id : String) (n : Int) (x : Execution) : Prop :=
  ∃ r ∈ L id n, executionKey r = x.executionId ∧ r.call = x.callId ∧
    r.execution.attempts = x.attempts

/-- The execution has such a row once the session is committed on top of this revision. -/
def Due (n : Int) (s : Session) (x : Execution) : Prop :=
  x ∈ s.pendingExecutionOutbox ∨
    L.Known s.id n x ∧ x.executionId ∉ s.pendingExecutionOutbox.map Execution.executionId

/-- The outbox is unambiguous, and counts another dispatch of the call. -/
def raises (n : Int) (s : Session) (call : String) : Bool :=
  decide (s.pendingExecutionOutbox.map Execution.executionId).Nodup &&
    s.pendingExecutionOutbox.any fun x => x.callId = call &&
      (L s.id n).any fun r => executionKey r = x.executionId && r.call = call &&
        decide (r.execution.attempts < x.attempts)

end Annals

/-! ## Workers -/

structure Worker where
  drawn : List String := []
  /-- The commits, with the revisions they have led to. -/
  commits : List (String × Int) := []
  /-- The session and the call that is dispatched. -/
  call : Option (String × String) := none
  /-- A dispatch of the call is committed and not made. -/
  started : Bool := false

namespace Worker

variable (env : Deployment) (L : Annals)

/-- The commit identity of a session. -/
def commitId (s : Session) : Option String := s.pendingCommitId.bind env.parseUuid

/-- After a commit that is stored. -/
def commit (g : Worker) (s : Session) : Worker :=
  { g with
    commits := g.commits ++ (commitId env s).toList.map fun c => (c, s.revision + 1)
    started := g.started || g.call.any fun k => k.1 = s.id && L.raises s.revision s k.2 }

def next (g : Worker) : (x : Eff) → Reply x → Worker
  | .uuid _, (id : String) => { g with drawn := g.drawn ++ [id] }
  | .transact s _ _, (r : TransactReply) => if r.stored.isSome then g.commit env L s else g
  | .mark (.dispatch s _ id _ _), _ => { g with call := some (s.id, id), started := false }
  | .execute .., _ => { g with started := false }
  | .recipient .., _ => { g with started := false }
  | _, _ => g

/-- What a commit leaves the worker with. -/
structure Settles (s s' : Session) : Prop where
  id : s'.id = s.id
  executions : s'.executions = s.executions
  outbox : s'.pendingExecutionOutbox = []
  commit : s'.pendingCommitId = none

/-- The reply to a transaction. -/
structure Answers (g : Worker) (s : Session) (r : TransactReply) : Prop where
  /-- What is stored has the rows that were due. -/
  stored : r.stored.isSome = true →
    (s.pendingExecutionOutbox.map Execution.executionId).Nodup →
      ∀ x, L.Due s.revision s x → L.Known s.id (s.revision + 1) x
  settles : r.result = .ok () → Settles s r.session
  /-- What is acknowledged is stored, now or by an earlier commit of the worker. -/
  acknowledged : r.result = .ok () → ∃ c, commitId env s = some c ∧
    ((c, r.session.revision) ∈ g.commits ∨
      r.stored.isSome = true ∧ r.session.revision = s.revision + 1)

/-- A session as it is loaded. -/
structure Loads (s : Session) : Prop where
  executions : ∀ x ∈ s.executions, L.Known s.id s.revision x
  outbox : s.pendingExecutionOutbox = []
  commit : s.pendingCommitId = none

def may (g : Worker) : (x : Eff) → Reply x → Prop
  | .uuid _, (id : String) => ∀ c, env.parseUuid id = some c → c ∉ g.commits.map Prod.fst
  | .transact s _ _, (r : TransactReply) => Answers env L g s r
  | .load _, (r : Option (Session × Value)) => ∀ s value, r = some (s, value) → Loads L s
  | _, _ => True

/-- A worker commits under an identity it has drawn, and invokes what it has committed. -/
def must (g : Worker) : Eff → Prop
  | .transact s _ _ => ∃ c ∈ g.drawn, s.pendingCommitId = some c
  | .execute .. => g.started = true
  | .recipient .. => g.started = true
  | _ => True

def watch : Monitor Eff Reply Worker := ⟨may env L, must, next env L⟩

end Worker

end StateDrivenAgent
