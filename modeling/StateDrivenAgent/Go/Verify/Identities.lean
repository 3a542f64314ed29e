import StateDrivenAgent.Go.Verify.Batch
import StateDrivenAgent.Go.Verify.Books

/-!
# The identities of calls

The identity of a call is repaired against the messages of the memory; the table of the calls keeps
those of the whole session. As long as no reply brings the identity of a call that is in the table and
no longer in the memory, no two batches share one.
-/

namespace StateDrivenAgent

open Interaction

namespace Go

/-! ## The table -/

/-- `agent_session_calls`: a call and the message that brought it. -/
abbrev CallMap : Type := List (String × String)

/-- The identity of a call in an assistant message. -/
def wireId (v : Value) : String := ((v.get "id").bind Value.asStr).getD ""

/-- The error of a commit that meets a call of another message. -/
def callCollision : String := "tool call identity collision"

/-- The calls of one message. -/
def registerCalls (message : String) : CallMap → List Value → Except String CallMap
  | calls, [] => .ok calls
  | calls, v :: rest =>
    if wireId v = "" then .error "tool call is missing its identity"
    else
      let calls := if (wireId v, message) ∈ calls then calls else calls ++ [(wireId v, message)]
      if calls.all fun x => x.1 ≠ wireId v || x.2 = message then registerCalls message calls rest
      else .error callCollision

/-- `writeCallMap`. -/
def writeCallMap : CallMap → List TranscriptEntry → Except String CallMap
  | calls, [] => .ok calls
  | calls, x :: rest =>
    match batchOf x with
    | none | some .null => writeCallMap calls rest
    | some (.arr items) => do writeCallMap (← registerCalls x.messageId calls items) rest
    | some _ => .error "tool call payload is not an array"

/-- The calls that an entry registers. -/
def entryCalls (x : TranscriptEntry) : List String :=
  (((batchOf x).bind Value.asArray).getD []).map wireId

/-! ## The observer -/

/-- The table, the identities taken at the last request of a decision, and what went wrong. -/
structure Roll where
  calls : CallMap := []
  known : List String := []
  /-- A commit met a collision. -/
  collided : Bool := false
  /-- Two calls had the same identity. -/
  shared : Bool := false

namespace Roll

/-- The identities that are in the table, or wait. -/
def taken (g : Roll) (s : Session) : List String :=
  s.transcriptPending.flatMap entryCalls ++ g.calls.map Prod.fst

def collides (g : Roll) (s : Session) : Bool :=
  match writeCallMap g.calls s.transcriptPending with
  | .ok _ => false
  | .error m => m = callCollision

def next (g : Roll) : (a : Ask) → Answer a → Roll
  | .commit s _, r => { g with
      calls := if r.isOk then (writeCallMap g.calls s.transcriptPending).toOption.getD g.calls
        else g.calls
      collided := g.collided || g.collides s
      shared := g.shared || !decide (g.taken s).Nodup }
  | .chat s, _ => { g with known := g.taken s }
  | _, _ => g

/-- The database refuses what `writeCallMap` refuses. In a careful run a taken identity that a reply
brings is in the memory, and one that is generated is not taken. -/
def may (careful : Bool) (g : Roll) : (a : Ask) → Answer a → Prop
  | .commit s _, .ok _ => (writeCallMap g.calls s.transcriptPending).isOk = true
  | .chat s, .ok body => careful = true → ∀ x ∈ offeredCalls body, givenId x ∈ g.taken s →
      givenId x ∈ historicalCallIds (s.memory.drop 1)
  | .freshCallId used, id => (id ≠ "" ∧ id ∉ used) ∧ (careful = true → id ∉ g.known)
  | _, _ => True

def must (g : Roll) : Ask → Prop
  | .commit s _ => (g.taken s).Nodup
  | _ => True

/-- The calls of every batch have identities of their own, and no commit met a collision. -/
structure Apart (g : Roll) : Prop where
  collided : g.collided = false
  shared : g.shared = false

end Roll

/-- The observer of the identities. -/
def roll (careful : Bool) : Monitor Ask Answer Roll where
  may := Roll.may careful
  must := Roll.must
  next := Roll.next

/-! ## Registering -/

section Register

variable {message : String} {calls calls' : CallMap} {items : List Value}

theorem registerCalls_fresh (h : (items.map wireId ++ calls.map Prod.fst).Nodup) :
    registerCalls message calls items = .error "tool call is missing its identity" ∨
      ∃ calls', registerCalls message calls items = .ok calls' ∧
        calls'.map Prod.fst = calls.map Prod.fst ++ items.map wireId := by
  induction items generalizing calls with
  | nil => exact .inr ⟨calls, rfl, (List.append_nil _).symm⟩
  | cons v rest ih =>
    obtain ⟨hv, hrest⟩ := List.nodup_cons.1 h
    obtain ⟨hvrest, hvcalls⟩ := not_or.1 fun hmem => hv (List.mem_append.2 hmem)
    unfold registerCalls
    split
    · exact .inl rfl
    next hne =>
      have hnew : (wireId v, message) ∉ calls := fun hmem => hvcalls (List.mem_map_of_mem hmem)
      have hsame : (calls ++ [(wireId v, message)]).all
          (fun x => x.1 ≠ wireId v || x.2 = message) = true := by
        refine List.all_eq_true.2 fun x hx => ?_
        rcases List.mem_append.1 hx with hx | hx
        · have hxv : x.1 ≠ wireId v := fun heq => hvcalls (heq ▸ List.mem_map_of_mem hx)
          simp [hxv]
        · rw [List.mem_singleton.1 hx]
          simp
      dsimp only
      rw [if_neg hnew, if_pos hsame]
      have hmap : (calls ++ [(wireId v, message)]).map Prod.fst = calls.map Prod.fst ++ [wireId v] := by
        rw [List.map_append]
        rfl
      have hnodup : (rest.map wireId ++ (calls ++ [(wireId v, message)]).map Prod.fst).Nodup := by
        rw [hmap, ← List.append_assoc, List.nodup_append]
        refine ⟨hrest, List.nodup_singleton _, fun x hx y hy heq => ?_⟩
        rw [heq, List.mem_singleton.1 hy] at hx
        exact hv hx
      rcases ih hnodup with hmissing | ⟨calls', hok, hids⟩
      · exact .inl hmissing
      · refine .inr ⟨calls', hok, ?_⟩
        rw [hids, hmap, List.map_cons, List.append_assoc]
        rfl

theorem asArray_of {x : TranscriptEntry} {items : List Value} (h : batchOf x = some (.arr items)) :
    entryCalls x = items.map wireId := by
  rw [entryCalls, h]
  rfl

theorem entryCalls_of_none {x : TranscriptEntry} (h : batchOf x = none) : entryCalls x = [] := by
  rw [entryCalls, h]
  rfl

/-- Fresh identities do not collide, and are registered. -/
theorem writeCallMap_fresh {xs : List TranscriptEntry}
    (h : (xs.flatMap entryCalls ++ calls.map Prod.fst).Nodup) :
    writeCallMap calls xs ≠ .error callCollision ∧ ∀ calls', writeCallMap calls xs = .ok calls' →
      (calls'.map Prod.fst).Perm (xs.flatMap entryCalls ++ calls.map Prod.fst) := by
  induction xs generalizing calls with
  | nil =>
    refine ⟨fun h => (by cases h), fun calls' hok => ?_⟩
    rw [← Except.ok.inj hok]
    exact .refl _
  | cons x rest ih =>
    rw [List.flatMap_cons]
    rw [List.flatMap_cons] at h
    unfold writeCallMap
    split
    next hbatch =>
      rw [entryCalls_of_none hbatch]
      rw [entryCalls_of_none hbatch] at h
      exact ih h
    next hbatch =>
      have hnone : entryCalls x = [] := by
        rw [entryCalls, hbatch]
        rfl
      rw [hnone]
      rw [hnone] at h
      exact ih h
    next items hbatch =>
      rw [asArray_of hbatch] at h ⊢
      have hitems : (items.map wireId ++ calls.map Prod.fst).Nodup := by
        rw [List.append_assoc] at h
        exact h.sublist (List.Sublist.append_left (List.sublist_append_right _ _) _)
      rcases @registerCalls_fresh x.messageId _ _ hitems with hmissing | ⟨calls₁, hok, hids⟩
      · rw [hmissing]
        exact ⟨fun h => absurd (Except.error.inj h) (by decide), fun _ h => (by cases h)⟩
      · have hperm : (rest.flatMap entryCalls ++ calls₁.map Prod.fst).Perm
            (items.map wireId ++ rest.flatMap entryCalls ++ calls.map Prod.fst) := by
          rw [hids]
          refine List.perm_append_comm.trans ?_
          rw [List.append_assoc]
          exact List.perm_append_comm
        obtain ⟨hne, hsub⟩ := ih (hperm.nodup_iff.2 h)
        rw [hok]
        exact ⟨hne, fun calls' hok' => (hsub calls' hok').trans hperm⟩
    next => exact ⟨fun h => absurd (Except.error.inj h) (by decide), fun _ h => (by cases h)⟩

end Register

/-! ## During a run -/

/-- The identities taken are distinct, and `ids` are not among them. -/
structure Told (ids : List String) (g : Roll) (s : Session) : Prop where
  staged : s.Staged
  apart : (g.taken s).Nodup
  fresh : ∀ id ∈ ids, id ∉ g.taken s

section Told

variable {ids : List String} {g : Roll} {s s' : Session}

theorem Told.keep {g' : Roll} (h : Told ids g s) (hs : s'.Staged) (ht : g'.taken s' = g.taken s) :
    Told ids g' s' := ⟨hs, ht ▸ h.apart, ht ▸ h.fresh⟩

theorem Told.none (h : Told ids g s) : Told [] g s :=
  ⟨h.staged, h.apart, fun _ hid => absurd hid List.not_mem_nil⟩

theorem taken_of_transcript {g' : Roll} (hg : g'.calls = g.calls)
    (hs : s'.transcriptPending = s.transcriptPending) : g'.taken s' = g.taken s := by
  rw [Roll.taken, hg, hs, Roll.taken]

/-- Only a commit changes the table. -/
theorem taken_next {a : Ask} (r : Answer a) (ha : ∀ s event, a ≠ .commit s event) :
    ((roll true).next g a r).taken s = g.taken s := by
  cases a with
  | commit s event => exact absurd rfl (ha s event)
  | _ => rfl

theorem must_next {a : Ask} (ha : ∀ s event, a ≠ .commit s event) : (roll true).must g a := by
  cases a with
  | commit s event => exact absurd rfl (ha s event)
  | _ => trivial

theorem told_ask {a : Ask} (ha : ∀ s event, a ≠ .commit s event) (h : Told ids g s) :
    (roll true).must g a ∧ ∀ r, (roll true).may g a r → Told ids ((roll true).next g a r) s :=
  ⟨must_next ha, fun r _ => h.keep h.staged (taken_next r ha)⟩

theorem told_stands (ids : List String) : Stands (roll true) (Told ids) where
  staged h := h.staged
  plain a ha h := told_ask (fun _ _ heq => by
    rw [heq] at ha
    cases ha) h
  quiet hq h := h.keep (hq.staged h.staged) (taken_of_transcript rfl hq.transcript)
  entry {g s} x hx h := by
    refine h.keep h.staged ?_
    show (s.transcriptPending ++ [x]).flatMap entryCalls ++ _ = _
    rw [List.flatMap_append, List.flatMap_singleton, entryCalls_of_none hx, List.append_nil]
    rfl

theorem told_worded (ids : List String) : Worded (roll true) (Told ids) where
  toStands := told_stands ids
  free a ha h := told_ask (fun _ _ heq => by
    rw [heq] at ha
    cases ha) h
  talk h hm ht _ := h.keep (fun m hmem => h.staged m (hm ▸ hmem)) (taken_of_transcript rfl ht)

theorem exists_of_isOk {ε α : Type} {x : Except ε α} (h : x.isOk = true) : ∃ a, x = .ok a := by
  cases x with
  | ok a => exact ⟨a, rfl⟩
  | error m => cases h

theorem commitEmit_told (ids : List String) (event : Value) :
    Proc.Keeps (roll true) (Told ids) (commitEmit event) := by
  refine fun g s h => Proc.sat_state_bind.2 (Proc.sat_bind.2 ((Proc.sat_request _).2
    ⟨h.apart, fun r hr => ?_⟩))
  cases r with
  | error err => exact h.keep h.staged rfl
  | ok revision =>
    obtain ⟨calls', hok⟩ := exists_of_isOk hr
    have hperm := (writeCallMap_fresh h.apart).2 calls' hok
    have htaken : (((roll true).next g (.commit s event) (.ok revision)).taken
        (s.committed revision false)).Perm (g.taken s) := by
      show (((writeCallMap g.calls s.transcriptPending).toOption.getD g.calls).map Prod.fst).Perm _
      rw [hok]
      exact hperm
    exact ⟨h.staged, htaken.nodup_iff.2 h.apart, fun id hid hmem =>
      h.fresh id hid (htaken.mem_iff.1 hmem)⟩

/-! ## A batch -/

theorem told_settles (e : Engine) (ids : List String) :
    e.Settles (roll true) (Told ids) commitEmit where
  call := (told_worded ids).call_keeps e (commitEmit_told ids)
  executed _ _ := Proc.keeps_request fun _ _ h => (told_worded ids).free _ rfl h
  pending _ h := (told_worded ids).talk h rfl rfl rfl

theorem wireId_wireCall (id name args : String) : wireId (wireCall id name args) = id := by
  simp [wireId, wireCall, Value.get, lookup, Value.asStr]

theorem map_wireId (e : Engine) (items : List ToolCall) :
    (e.wired items).map wireId = items.map ToolCall.id := by
  rw [Engine.wired, List.map_map]
  exact List.map_congr_left fun call _ => wireId_wireCall _ _ _

/-- The message of a batch registers its calls, which are fresh. -/
theorem appendMessage_told (e : Engine) {items : List ToolCall} (hd : Distinct items)
    (h : Told (items.map ToolCall.id) g s) :
    Proc.Sat (roll true) (appendMessage
      { role := "assistant", toolCalls := some (.arr (e.wired items)) }) g s
      (fun g' s' _ => Told [] g' s') fun g' s' _ => Told [] g' s' := by
  have hnil : ∀ g s (_ : Failure), Told (items.map ToolCall.id) g s → Told [] g s :=
    fun _ _ _ h => h.none
  unfold Proc.Sat
  rw [appendMessage_staged h.staged]
  refine (told_stands _).uuid.sat_bind h hnil fun id g s h => ?_
  refine (told_stands _).now.sat_bind h hnil fun createdAt g s h => ?_
  have hentry : ∀ (t : Session) (m : Message), m.toolCalls = some (.arr (e.wired items)) →
      entryCalls (entryOf t m id createdAt) = items.map ToolCall.id := by
    intro t m hm
    rw [asArray_of ((batchOf_entryOf t m id createdAt).trans hm), map_wireId]
  have htaken : g.taken (s.appended { role := "assistant", toolCalls := some (.arr (e.wired items)) }
      id createdAt) = s.transcriptPending.flatMap entryCalls ++
        (items.map ToolCall.id ++ g.calls.map Prod.fst) := by
    rw [Roll.taken, Session.appended]
    dsimp only
    rw [List.flatMap_append, List.flatMap_singleton, hentry _ _ rfl, List.append_assoc]
  refine ⟨h.staged.appended _ id createdAt, ?_, fun _ hid => absurd hid List.not_mem_nil⟩
  rw [htaken]
  have hperm : (s.transcriptPending.flatMap entryCalls ++
      (items.map ToolCall.id ++ g.calls.map Prod.fst)).Perm
        (items.map ToolCall.id ++ g.taken s) := by
    rw [Roll.taken, ← List.append_assoc, ← List.append_assoc]
    exact List.perm_append_comm.append_right _
  refine hperm.nodup_iff.2 (List.nodup_append.2 ⟨hd.ids, h.apart, fun x hx y hy heq => ?_⟩)
  exact h.fresh x hx (heq ▸ hy)

/-! ## A decision -/

/-- While the decision is read, nothing is taken. -/
theorem freshens_told (taken : List String) : Freshens (roll true)
    (fun g s => Told [] g s ∧ g.known = taken ∧ g.taken s = taken) fun id => id ∉ taken := by
  intro g s used h
  refine ⟨trivial, fun r hr => ⟨⟨h.1.keep h.1.staged rfl, h.2⟩, hr.1, ?_⟩⟩
  exact h.2.1 ▸ hr.2 rfl

theorem decide_told (p : Platform) (h : Told [] g s) :
    Proc.Sat (roll true) p.decide g s
      (fun g' s' d => Parsed d ∧ Told (d.calls.map ToolCall.id) g' s') fun g' s' _ => Told [] g' s' := by
  refine Proc.sat_bind.2 (Proc.sat_bind.2 ((Proc.sat_request _).2 ⟨trivial, fun r hr => ?_⟩))
  have hnext : Told [] ((roll true).next g (.chat s) r) s := h.keep h.staged rfl
  cases r with
  | error err => exact hnext
  | ok body =>
    have hread := parseDecision_sat (freshens_told (g.taken s)) p
      (g := (roll true).next g (.chat s) (.ok body)) (s := s) ⟨hnext, rfl, rfl⟩ body
      (s.memory.drop 1) fun x hx hshown htaken => hshown (hr rfl x hx htaken)
    refine hread.mono (fun g' s' d hd => ?_) fun _ _ _ => False.elim
    obtain ⟨⟨htold, -, htaken⟩, hparsed, hfresh⟩ := hd
    refine ⟨hparsed, htold.staged, htold.apart, fun id hid => ?_⟩
    obtain ⟨call, hcall, rfl⟩ := List.mem_map.1 hid
    rw [htaken]
    exact hfresh call hcall

theorem decides_told (e : Engine) :
    e.Decides (roll true) commitEmit (Told []) (Told []) fun d => Told (d.calls.map ToolCall.id) where
  stands _ := told_stands _
  emits _ := commitEmit_told _
  calm h := h.none
  decide h := decide_told e.platform h
  act before _ _ _ hd h := actTools_sat (told_stands []) (commitEmit_told []) e (told_settles e [])
    (told_stands _) (commitEmit_told _) (fun _ _ h => h.none) before
    (fun _ _ h => appendMessage_told e hd h) h

theorem run_told (e : Engine) (max : Int) :
    Proc.Keeps (roll true) (Told []) (e.run commitEmit max) :=
  run_leads (told_stands []) (told_stands []) (fun _ _ h => h) (commitEmit_told []) (decides_told e)
    (recoverPending_keeps (told_stands []) (commitEmit_told []) e (told_settles e [])) max

/-! ## Runs -/

/-- A session as it is fetched: nothing waits. -/
structure Unpending (s : Session) : Prop where
  staged : s.Staged
  transcript : s.transcriptPending = []

/-- A run of the engine on such a session. -/
def Roll.Engaged (_ : Roll) (p : Program Ask Answer (Except Failure Unit × Session)) : Prop :=
  ∃ (e : Engine) (max : Int) (s : Session), Unpending s ∧ p = e.run commitEmit max s

/-- What holds of the table between the runs. -/
structure Roll.Sound (g : Roll) : Prop where
  apart : g.Apart
  calls : (g.calls.map Prod.fst).Nodup

theorem taken_unpending (hs : Unpending s) : g.taken s = g.calls.map Prod.fst := by
  rw [Roll.taken, hs.transcript]
  rfl

theorem roll_stable : (roll true).Stable Roll.Sound := by
  intro g a r hg hmust hmay
  cases a with
  | commit s event =>
    have hfresh := writeCallMap_fresh hmust
    have hcollides : g.collides s = false := by
      unfold Roll.collides
      split
      · rfl
      next m hm =>
        refine decide_eq_false fun heq => hfresh.1 ?_
        rw [hm, heq]
    refine ⟨⟨?_, ?_⟩, ?_⟩
    · show (g.collided || g.collides s) = false
      rw [hg.apart.collided, hcollides]
      rfl
    · show (g.shared || !decide (g.taken s).Nodup) = false
      rw [hg.apart.shared, decide_eq_true (show (g.taken s).Nodup from hmust)]
      rfl
    · cases r with
      | error err => exact hg.calls
      | ok revision =>
        obtain ⟨calls', hok⟩ := exists_of_isOk hmay
        show (((writeCallMap g.calls s.transcriptPending).toOption.getD g.calls).map Prod.fst).Nodup
        rw [hok]
        exact (hfresh.2 calls' hok).nodup_iff.2 hmust
  | chat s => exact ⟨⟨hg.apart.collided, hg.apart.shared⟩, hg.calls⟩
  | _ => exact hg

theorem engaged_told {p : Program Ask Answer (Except Failure Unit × Session)} (hg : g.Sound)
    (hp : g.Engaged p) : p.Sat (roll true) g fun _ _ => True := by
  obtain ⟨e, max, s, hs, rfl⟩ := hp
  have htold : Told [] g s := by
    refine ⟨hs.staged, ?_, fun _ hid => absurd hid List.not_mem_nil⟩
    rw [taken_unpending hs]
    exact hg.calls
  exact Program.Sat.mono (run_told e max g s htold) fun _ _ _ => trivial

end Told

/-! ## A call of a compacted batch -/

section Sample

instance decidableRollMay (careful : Bool) (g : Roll) :
    (a : Ask) → (r : Answer a) → Decidable ((roll careful).may g a r)
  | .commit s _, .ok _ =>
    inferInstanceAs (Decidable ((writeCallMap g.calls s.transcriptPending).isOk = true))
  | .chat s, .ok body => inferInstanceAs (Decidable (careful = true → ∀ x ∈ offeredCalls body,
      givenId x ∈ g.taken s → givenId x ∈ historicalCallIds (s.memory.drop 1)))
  | .freshCallId used, id =>
    inferInstanceAs (Decidable ((id ≠ "" ∧ id ∉ used) ∧ (careful = true → id ∉ g.known)))
  | .commit _ _, .error _ | .chat _, .error _ | .uuid, _ | .now, _ | .checkpoint _, _ | .elapsed .., _
  | .requestDiagnostics, _ | .compact _, _ | .invoke .., _ | .idempotent .., _ | .verify .., _
  | .reconcile .., _ | .transact .., _ | .contextDone, _ | .mark _, _ => isTrue trivial

def toolReplyWith (id : String) : Spelling :=
  .obj [("choices", .arr [.obj [("message", .obj [("content", .null),
    ("tool_calls", .arr [toolSpelling id])])]])]

/-- The first reply calls `a`, the second one `second`; in between, the batch is summarized. -/
def compactedAnswer (second : String) (n : Nat) : (a : Ask) → Answer a
  | .chat _ => .ok (some (toolReplyWith (if n ≤ 9 then "a" else second)))
  | .compact s => {
      compaction := s.compaction, archived := [], summarized := s.memory.length - 1
      next := .finished none }
  | a => toolAnswer (fun _ => .ok 1) n a

def compactedProgram : Program Ask Answer (Except Failure Unit × Session) :=
  toolEngine.run commitEmit 2 { id := "session", goal := "goal" }

theorem compactedProgram_engaged : Roll.Engaged {} compactedProgram :=
  ⟨toolEngine, 2, { id := "session", goal := "goal" },
    ⟨fun _ hm => absurd hm List.not_mem_nil, rfl⟩, rfl⟩

/-- Up to the commit of the second batch, the effect `n`, which is answered by `last`. -/
def compactedRun (second : String) (n : Nat) (last : Except Failure Int) :
    List (Event Ask Answer) × Program Ask Answer (Except Failure Unit × Session) :=
  Program.play (fun k a => match a with
    | .commit _ _ => if k = n then last else .ok 1
    | a => compactedAnswer second k a) (n + 1) compactedProgram 0

end Sample

end Go

end StateDrivenAgent
