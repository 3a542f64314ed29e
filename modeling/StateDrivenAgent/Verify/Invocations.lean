import StateDrivenAgent.Verify.Admitting
import StateDrivenAgent.Verify.Annals
import StateDrivenAgent.Verify.Requests

/-!
# Invocations are recorded

Any number of workers serve requests on one set of tables. Each of them may stop anywhere, lose the
answer of a commit, or lose its session to another worker. A run of the pool has a chronicle, which is
the annals every worker is watched with (`watched_of_run`): a worker that is told by a receipt that its
commit was made has made it, because nobody else draws its identities. So no worker makes a dispatch it
has not committed, and the dispatches of a call that the tables have are at least as many as its
invocations (`invocations_recorded`).
-/

namespace StateDrivenAgent

open Interaction

/-! ## What workers do -/

/-- The effect invokes a tool, or writes at a recipient. -/
def Eff.invokes : Eff → Bool
  | .execute .. | .recipient .. => true
  | _ => false

/-- The session and the call of a dispatch that begins. -/
def Eff.dispatched : Eff → Option (String × String)
  | .mark (.dispatch s _ id _ _) => some (s.id, id)
  | _ => none

/-- The invocations of a call; `call` is the one that is dispatched. -/
def invocations (k : String × String) : Option (String × String) → List (Event Eff Reply) → Nat
  | _, [] => 0
  | call, x :: es =>
    (if x.1.invokes ∧ call = some k then 1 else 0) + invocations k (x.1.dispatched.or call) es

/-- The identities that are drawn. -/
def drawnBy : (x : Eff) → Reply x → List String
  | .uuid _, (id : String) => [id]
  | _, _ => []

/-- The commits that are made, with the revisions they lead to. -/
def committedBy (env : Deployment) : (x : Eff) → Reply x → List (String × Int)
  | .transact s _ _, (r : TransactReply) =>
    if r.stored.isSome then (Worker.commitId env s).toList.map fun c => (c, s.revision + 1) else []
  | _, _ => []

def drawnAlong (es : List (Event Eff Reply)) : List String := es.flatMap fun x => drawnBy x.1 x.2

def committedAlong (env : Deployment) (es : List (Event Eff Reply)) : List (String × Int) :=
  es.flatMap fun x => committedBy env x.1 x.2

/-- The UUIDs among the identities that are drawn. -/
def uuidsAlong (env : Deployment) (es : List (Event Eff Reply)) : List String :=
  (drawnAlong es).filterMap env.parseUuid

theorem committedAlong_append (env : Deployment) (es : List (Event Eff Reply)) (x : Event Eff Reply) :
    committedAlong env (es ++ [x]) = committedAlong env es ++ committedBy env x.1 x.2 := by
  unfold committedAlong
  rw [List.flatMap_append, List.flatMap_singleton]

theorem uuidsAlong_append (env : Deployment) (es : List (Event Eff Reply)) (x : Event Eff Reply) :
    uuidsAlong env (es ++ [x]) = uuidsAlong env es ++ (drawnBy x.1 x.2).filterMap env.parseUuid := by
  unfold uuidsAlong drawnAlong
  rw [List.flatMap_append, List.filterMap_append, List.flatMap_singleton]

/-- No UUID is drawn twice. -/
def DrawnOnce (env : Deployment) {S : Type} (w : Pool Eff Reply S Unit) : Prop :=
  (w.collected (uuidsAlong env)).Nodup

namespace Storage

/-- The tables with any number of workers that serve requests. -/
def serving (env : Deployment) : Machine Eff Reply Db Unit :=
  { machine env Unit with
    client := fun p => ∃ config request, p = Server.Request.program env config request }

/-- The dispatches of a call that the tables have. -/
def dispatchesOf (t : Tables) (call : String) : Nat :=
  (t.executions.find? fun r => r.call = call).elim 0 fun r => r.execution.attempts.toNat

end Storage

/-! ## One worker -/

namespace Worker

variable {env : Deployment} {L : Annals} {k : String × String} {g : Worker}
  {es : List (Event Eff Reply)}

theorem next_drawn (g : Worker) (x : Eff) (r : Reply x) :
    (next env L g x r).drawn = g.drawn ++ drawnBy x r := by
  cases x with
  | uuid among => rfl
  | transact s config event =>
    have hnil : drawnBy (.transact s config event) r = [] := rfl
    rw [hnil, List.append_nil]
    unfold next
    dsimp only
    split
    · rfl
    · rfl
  | mark m => cases m <;> exact (List.append_nil _).symm
  | _ => exact (List.append_nil _).symm

theorem next_commits (g : Worker) (x : Eff) (r : Reply x) :
    (next env L g x r).commits = g.commits ++ committedBy env x r := by
  cases x with
  | transact s config event =>
    unfold next committedBy
    dsimp only
    split
    · rfl
    · exact (List.append_nil _).symm
  | mark m => cases m <;> exact (List.append_nil _).symm
  | _ => exact (List.append_nil _).symm

theorem next_call (g : Worker) (x : Eff) (r : Reply x) :
    (next env L g x r).call = x.dispatched.or g.call := by
  cases x with
  | transact s config event =>
    unfold next
    dsimp only
    split
    · rfl
    · rfl
  | mark m => cases m <;> rfl
  | _ => rfl

theorem after_drawn (g : Worker) (es : List (Event Eff Reply)) :
    ((watch env L).after g es).drawn = g.drawn ++ drawnAlong es :=
  Monitor.after_appends next_drawn g es

theorem after_commits (g : Worker) (es : List (Event Eff Reply)) :
    ((watch env L).after g es).commits = g.commits ++ committedAlong env es :=
  Monitor.after_appends next_commits g es

/-- The commit counts another dispatch of the call. -/
def raisedBy (L : Annals) (k : String × String) : (x : Eff) → Reply x → Nat
  | .transact s _ _, (r : TransactReply) =>
    if r.stored.isSome ∧ k.1 = s.id ∧ L.raises s.revision s k.2 = true then 1 else 0
  | _, _ => 0

/-- The commits that count another dispatch of the call. -/
def raised (L : Annals) (k : String × String) (es : List (Event Eff Reply)) : Nat :=
  (es.map fun x => raisedBy L k x.1 x.2).sum

/-- The dispatch of the call that is committed and not made. -/
def owed (k : String × String) (g : Worker) : Nat :=
  if g.call = some k ∧ g.started = true then 1 else 0

theorem owed_commit (s : Session) : owed k (g.commit env L s) ≤
    (if k.1 = s.id ∧ L.raises s.revision s k.2 = true then 1 else 0) + owed k g := by
  unfold owed
  by_cases hcall : g.call = some k
  · have hstarted : (g.commit env L s).started =
        (g.started || decide (k.1 = s.id) && L.raises s.revision s k.2) := by
      change (g.started || g.call.any fun k => k.1 = s.id && L.raises s.revision s k.2) = _
      rw [hcall, Option.any_some]
    rw [hstarted]
    by_cases hraises : k.1 = s.id ∧ L.raises s.revision s k.2 = true
    · rw [if_pos hraises]
      split <;> omega
    · rw [if_neg hraises, Nat.zero_add]
      have hno : (decide (k.1 = s.id) && L.raises s.revision s k.2) = false := by
        rw [Bool.eq_false_iff]
        simpa using hraises
      rw [hno, Bool.or_false]
      exact Nat.le_refl _
  · rw [if_neg fun h => hcall h.1]
    exact Nat.zero_le _

theorem owed_transact (s : Session) (config event : Value) (r : TransactReply) :
    owed k (next env L g (.transact s config event) r) ≤
      raisedBy L k (.transact s config event) r + owed k g := by
  unfold next raisedBy
  dsimp only
  by_cases hstored : r.stored.isSome = true
  · rw [if_pos hstored]
    simp only [hstored, true_and]
    exact owed_commit s
  · rw [if_neg hstored]
    exact Nat.le_add_left _ _

/-- The dispatch that is made was owed. -/
theorem owed_made (h : g.started = true) :
    (if g.call = some k then 1 else 0) + owed k { g with started := false } ≤ owed k g := by
  unfold owed
  rw [h]
  by_cases hcall : g.call = some k
  · simp [hcall]
  · simp [hcall]

/-- An effect that meets its obligation. -/
theorem invoked_next {x : Eff} {r : Reply x} (h : (watch env L).must g x) :
    (if x.invokes ∧ g.call = some k then 1 else 0) + owed k (next env L g x r) ≤
      raisedBy L k x r + owed k g := by
  have hquiet : ∀ g' : Worker, owed k g' ≤ owed k g →
      (if false = true ∧ g.call = some k then 1 else 0) + owed k g' ≤ 0 + owed k g := fun g' hg' => by
    rw [if_neg fun h => Bool.false_ne_true h.1]
    exact Nat.add_le_add_left hg' 0
  have hmade : g.started = true → (if true = true ∧ g.call = some k then 1 else 0) +
      owed k { g with started := false } ≤ 0 + owed k g := fun hstarted => by
    simpa using owed_made hstarted
  cases x with
  | transact s config event =>
    rw [if_neg fun h => Bool.false_ne_true h.1, Nat.zero_add]
    exact owed_transact s config event r
  | mark m =>
    cases m with
    | dispatch s call id name args =>
      refine hquiet _ ?_
      unfold owed
      rw [if_neg fun h => Bool.false_ne_true h.2]
      exact Nat.zero_le _
    | _ => exact hquiet _ (Nat.le_refl _)
  | execute tool args => exact hmade h
  | recipient deployment key args => exact hmade h
  | _ => exact hquiet _ (Nat.le_refl _)

/-- What is invoked has been committed. -/
theorem invocations_raised (h : (watch env L).Kept g es) :
    invocations k g.call es ≤ raised L k es + owed k g := by
  induction es generalizing g with
  | nil => exact Nat.zero_le _
  | cons x es ih =>
    have hnext := invoked_next (k := k) (r := x.2) h.1
    have hrest := ih h.2
    rw [show ((watch env L).next g x.1 x.2).call = _ from next_call g x.1 x.2] at hrest
    change _ + invocations k (x.1.dispatched.or g.call) es ≤
      (raisedBy L k x.1 x.2 + raised L k es) + owed k g
    change _ ≤ raised L k es + owed k (next env L g x.1 x.2) at hrest
    omega

end Worker

/-! ## The tables -/

namespace Storage

variable {env : Deployment} {L : Annals} {db db' : Db} {id call : String}

/-- The execution of a call is the only one. -/
theorem find_call {rows : List ExecutionRow} (hs : SoundExecutions env rows) {r : ExecutionRow}
    (hr : r ∈ rows) (hcall : r.call = call) : rows.find? (fun r => r.call = call) = some r := by
  cases hfind : rows.find? fun r => r.call = call with
  | none => exact absurd (decide_eq_true hcall) (List.find?_eq_none.1 hfind r hr)
  | some row =>
    have hrow := List.find?_some hfind
    have hmem := List.mem_of_find?_eq_some hfind
    exact congrArg some
      (List.inj_on_of_nodup_map hs.calls hmem hr ((of_decide_eq_true hrow).trans hcall.symm))

theorem dispatchesOf_eq {t : Tables} (hs : SoundActions env t) {r : ExecutionRow}
    (hr : r ∈ t.executions) (hcall : r.call = call) :
    dispatchesOf t call = r.execution.attempts.toNat := by
  unfold dispatchesOf
  rw [find_call hs.executions hr hcall]
  rfl

/-- A call that has dispatches has an execution. -/
theorem exists_of_dispatchesOf {t : Tables} (h : dispatchesOf t call ≠ 0) :
    ∃ r ∈ t.executions, r.call = call := by
  unfold dispatchesOf at h
  cases hfind : t.executions.find? fun r => r.call = call with
  | none =>
    rw [hfind] at h
    exact absurd rfl h
  | some r =>
    have hcall := List.find?_some hfind
    exact ⟨r, List.mem_of_find?_eq_some hfind, of_decide_eq_true hcall⟩

/-- Dispatches are not counted back. -/
theorem dispatchesOf_moved (hm : Moved env db db') (hl : Lawful env db) :
    dispatchesOf (db.tables id) call ≤ dispatchesOf (db'.tables id) call := by
  by_cases h : dispatchesOf (db.tables id) call = 0
  · rw [h]
    exact Nat.zero_le _
  · obtain ⟨r, hr, hcall⟩ := exists_of_dispatchesOf h
    obtain ⟨hs', hfollow⟩ := moved_follows hm hl.sane.inv id (hl.actions id)
    obtain ⟨r', hr', hrr⟩ := hfollow.executions.mem hr
    rw [dispatchesOf_eq (hl.actions id) hr hcall, dispatchesOf_eq hs' hr' (hrr.call.trans hcall)]
    exact Int.toNat_le_toNat hrr.attempts

/-- A commit that counts another dispatch. -/
theorem dispatchesOf_raised {s : Session} {t' : Tables} {config event : Value}
    (h : Committed env db s.id t' (.transact s config event)) (hl : Lawful env db)
    (hs' : SoundActions env t') (hold : (db.tables s.id).executions = L s.id s.revision)
    (hnew : t'.executions = L s.id (s.revision + 1)) (hraises : L.raises s.revision s call = true) :
    dispatchesOf (db.tables s.id) call < dispatchesOf t' call := by
  unfold Annals.raises at hraises
  obtain ⟨hnodup, hany⟩ := Bool.and_eq_true_iff.1 hraises
  obtain ⟨x, hx, hany⟩ := List.any_eq_true.1 hany
  obtain ⟨hcall, hany⟩ := Bool.and_eq_true_iff.1 hany
  obtain ⟨r, hr, hrow⟩ := List.any_eq_true.1 hany
  obtain ⟨hrow, hmore⟩ := Bool.and_eq_true_iff.1 hrow
  have hrcall := of_decide_eq_true (Bool.and_eq_true_iff.1 hrow).2
  obtain ⟨r', hr', -, hrcall', hattempts⟩ :=
    h.due (hl.sane.booked s.id).keys hold hnew (of_decide_eq_true hnodup) (.inl hx)
  rw [← hold] at hr
  rw [← hnew] at hr'
  rw [dispatchesOf_eq (hl.actions s.id) hr hrcall,
    dispatchesOf_eq hs' hr' (hrcall'.trans (of_decide_eq_true hcall)), hattempts]
  have hpos := ((hl.actions s.id).executions.bounded r hr).1
  have hlt := of_decide_eq_true hmore
  omega

/-- An effect counts the dispatches it raises. -/
theorem dispatchesOf_exec {e : Eff} {r : Reply e} (h : exec env e db r db') (hl : Lawful env db)
    (hl' : Lawful env db') (ht : Tells L db) (ht' : Tells L db') :
    dispatchesOf (db.tables id) call + Worker.raisedBy L (id, call) e r ≤
      dispatchesOf (db'.tables id) call := by
  have hmono : dispatchesOf (db.tables id) call ≤ dispatchesOf (db'.tables id) call :=
    dispatchesOf_moved (.effect h) hl
  cases e with
  | transact s config event =>
    unfold Worker.raisedBy
    dsimp only
    split
    next hraises =>
      obtain ⟨hsome, hid, hraises⟩ := hraises
      obtain rfl := hid
      rcases exec_transact h (hl.sane.booked s.id) with ⟨hnone, -, -⟩ | ⟨-, hcommitted, -, -⟩
      · rw [hnone] at hsome
        cases hsome
      · obtain ⟨-, hold, hnew⟩ := hcommitted.revision
        exact dispatchesOf_raised hcommitted hl (hl'.actions s.id) (hold ▸ ht s.id)
          (hnew ▸ ht' s.id) hraises
    · exact hmono
  | _ => exact hmono

/-! ## The pool -/

/-- A commit of a run was made by one of its workers. -/
theorem receipts_of_exec {e : Eff} {r : Reply e} (h : exec env e db r db') (hs : Sane db)
    {receipt : Receipt} (hmem : receipt ∈ (db'.tables id).receipts) :
    receipt ∈ (db.tables id).receipts ∨
      (receipt.commitId, receipt.committedRevision) ∈ committedBy env e r := by
  rcases (exec_cases h hs.inv.commands).2.2 id with hkept | ⟨hcommitted, -⟩
  · exact .inl (hkept.receipts ▸ hmem)
  · cases e with
    | transact s config event =>
      rcases exec_transact h (hs.booked s.id) with ⟨-, rfl, -⟩ | ⟨hsome, -, -, -⟩
      · exact .inl hmem
      · obtain ⟨-, -, -, hcommit, -, -, happlied, -⟩ := hcommitted
        rw [happlied.receipts] at hmem
        rcases List.mem_append.1 hmem with hold | hnew
        · exact .inl hold
        · refine .inr ?_
          obtain rfl := List.mem_singleton.1 hnew
          unfold committedBy Worker.commitId
          dsimp only
          rw [if_pos hsome, hcommit]
          exact List.mem_singleton_self _
    | _ => cases hcommitted

/-- Every receipt is of a commit some worker has made. -/
def Traced (env : Deployment) (w : Pool Eff Reply Db Unit) : Prop :=
  ∀ id, ∀ receipt ∈ (w.shared.tables id).receipts, ∃ t ∈ w.threads,
    (receipt.commitId, receipt.committedRevision) ∈ committedAlong env t.events

theorem Traced.step {w w' : Pool Eff Reply Db Unit} (hw : Traced env w) (hs : Sane w.shared)
    (h : Pool.Step (serving env) w w') : Traced env w' := by
  cases h with
  | act h =>
    obtain ⟨ht, hrest, hexec⟩ := h
    rename_i i e t next r db'
    intro id receipt hmem
    rcases receipts_of_exec hexec hs hmem with hold | hnew
    · obtain ⟨t₀, ht₀, hcommit⟩ := hw id receipt hold
      rcases Pool.mem_acted ht ht₀ e r next db' with ht₀ | rfl
      · exact ⟨t₀, ht₀, hcommit⟩
      · refine ⟨_, Pool.self_mem_acted ht e r next db', ?_⟩
        rw [committedAlong_append]
        exact List.mem_append_left _ hcommit
    · refine ⟨_, Pool.self_mem_acted ht e r next db', ?_⟩
      rw [committedAlong_append]
      exact List.mem_append_right _ hnew
  | spawn hp =>
    intro id receipt hmem
    obtain ⟨t, ht, hcommit⟩ := hw id receipt hmem
    exact ⟨t, List.mem_append_left _ ht, hcommit⟩
  | drift hd =>
    intro id receipt hmem
    exact hw id receipt ((kept_drift hd id).receipts ▸ hmem)

/-- The machine, as far as its states are lawful and the annals tell them. -/
def told (env : Deployment) (L : Annals) : Machine Eff Reply Db Unit :=
  (serving env).within fun db => Lawful env db ∧ Tells L db

theorem serving_lawful : (serving env).Preserves (Lawful env) where
  exec hl hexec := (preserves_lawful (α := Unit)).exec hl hexec
  drift hl hd := (preserves_lawful (α := Unit)).drift hl hd

/-- A run has annals. -/
theorem exists_annals {w : Pool Eff Reply Db Unit} (h : Pool.Run (serving env) ⟨{}, []⟩ w) :
    ∃ L, Pool.Run (told env L) ⟨{}, []⟩ w :=
  Pool.Run.exists_chronicle serving_lawful (fun hl hexec => versioned_of_moved (.effect hexec) hl)
    (fun hl hd => versioned_of_moved (.drift hd) hl) (.empty env) h

theorem traced_of_run {w : Pool Eff Reply Db Unit} (h : Pool.Run (told env L) ⟨{}, []⟩ w) :
    Traced env w := by
  have hrun : Pool.Run (serving env) ⟨{}, []⟩ w := h.of_within
  clear h
  induction hrun with
  | refl =>
    intro id receipt hmem
    cases hmem
  | tail hrun hstep ih => exact ih.step (Pool.Run.inv serving_lawful hrun (.empty env)).sane hstep

/-- The commits of a worker are under identities it has drawn. -/
theorem committed_drawn {g : Worker} {es : List (Event Eff Reply)}
    (h : (Worker.watch env L).Kept g es) {c : String}
    (hc : c ∈ (committedAlong env es).map Prod.fst) :
    c ∈ g.drawn.filterMap env.parseUuid ++ uuidsAlong env es := by
  induction es generalizing g with
  | nil => cases hc
  | cons x es ih =>
    obtain ⟨e, r⟩ := x
    have hsplit : uuidsAlong env (⟨e, r⟩ :: es) =
        (drawnBy e r).filterMap env.parseUuid ++ uuidsAlong env es := by
      unfold uuidsAlong drawnAlong
      rw [List.flatMap_cons, List.filterMap_append]
    rw [hsplit]
    unfold committedAlong at hc
    rw [List.flatMap_cons, List.map_append] at hc
    rcases List.mem_append.1 hc with hnow | hlater
    · refine List.mem_append_left _ ?_
      cases e with
      | transact s config event =>
        obtain ⟨id, hid, hpending⟩ := h.1
        obtain ⟨commit, hcommit, rfl⟩ := List.mem_map.1 hnow
        unfold committedBy at hcommit
        dsimp only at hcommit
        split at hcommit
        · obtain ⟨c, hparsed, rfl⟩ := List.mem_map.1 hcommit
          refine List.mem_filterMap.2 ⟨id, hid, ?_⟩
          have hparsed := Option.mem_toList.1 hparsed
          unfold Worker.commitId at hparsed
          rwa [hpending, Option.bind_some] at hparsed
        · cases hcommit
      | _ => cases hnow
    · have hrest := ih h.2 hlater
      rw [show ((Worker.watch env L).next g e r).drawn = _ from Worker.next_drawn g e r,
        List.filterMap_append, List.append_assoc] at hrest
      exact hrest

theorem drawnOnce_of_step {w w' : Pool Eff Reply Db Unit} (h : Pool.Step (told env L) w w')
    (hw' : DrawnOnce env w') : DrawnOnce env w := by
  refine hw'.sublist (h.collected fun es x => ?_)
  rw [uuidsAlong_append]
  exact List.sublist_append_left _ _

theorem told_owes {p : Prog Unit} (h : (told env L).client p) :
    p.Sat (Worker.watch env L) {} fun _ _ => True := by
  obtain ⟨config, request, rfl⟩ := h
  exact program_owes config request {}

/-- Every worker of a run is watched with its annals. -/
theorem watched_of_run {w : Pool Eff Reply Db Unit} (h : Pool.Run (told env L) ⟨{}, []⟩ w)
    (hdrawn : DrawnOnce env w) :
    ∀ t ∈ w.threads, Pool.Watched (told env L) (Worker.watch env L) {} t := by
  refine Pool.Run.watched (Q := DrawnOnce env) drawnOnce_of_step ?_ rfl h hdrawn
  intro w i t e next r db' hrun ih ht hrest hexec hdrawn
  have hbefore : DrawnOnce env w := drawnOnce_of_step (.act (.mk ht hrest hexec)) hdrawn
  have hmem := List.mem_of_getElem? ht
  -- the commits of a worker are under identities it has drawn
  have hcommits : ∀ t ∈ w.threads, ∀ c ∈ (committedAlong env t.events).map Prod.fst,
      c ∈ uuidsAlong env t.events := fun t ht c hc =>
    committed_drawn ((ih t ht).kept fun _ => told_owes) hc
  obtain ⟨⟨hl, ht₀⟩, hexec, hl', ht₁⟩ := hexec
  cases e with
  | uuid among =>
    intro c hc hcommitted
    rw [Worker.after_commits] at hcommitted
    have hold := hcommits t hmem c hcommitted
    have hnew := (List.nodup_flatMap.1 hdrawn).1 _ (Pool.self_mem_acted ht (.uuid among) r next db')
    have hone : (drawnBy (.uuid among) r).filterMap env.parseUuid = [c] := List.filterMap_cons_some hc
    rw [uuidsAlong_append, hone] at hnew
    exact List.disjoint_of_nodup_append hnew hold (List.mem_singleton_self c)
  | transact s config event =>
    refine transact_answers hexec hl ht₀ ht₁ fun receipt hreceipt hid => ?_
    obtain ⟨t', ht', hcommit⟩ := traced_of_run hrun s.id receipt hreceipt
    obtain ⟨id, hdraw, hpending⟩ := (ih t hmem).must (fun _ => told_owes) hrest
    have hmine : receipt.commitId ∈ uuidsAlong env t.events := by
      refine List.mem_filterMap.2 ⟨id, ?_, ?_⟩
      · rwa [Worker.after_drawn] at hdraw
      · unfold Worker.commitId at hid
        rwa [hpending, Option.bind_some] at hid
    obtain rfl := Pool.eq_of_collected hbefore hmem ht' hmine
      (hcommits t' ht' _ (List.mem_map_of_mem hcommit))
    rw [Worker.after_commits]
    exact List.mem_append_right _ hcommit
  | load id =>
    intro s value hr
    obtain ⟨-, hnone | hload⟩ := hexec
    · rw [hnone] at hr
      cases hr
    · exact load_loads ht₀ hl.named (hload.symm.trans hr)
  | _ => trivial

/-- The dispatches the commits of all workers have counted are in the tables. -/
theorem total_raised {w : Pool Eff Reply Db Unit} (h : Pool.Run (told env L) ⟨{}, []⟩ w)
    (id call : String) :
    Pool.total (Worker.raised L (id, call)) w ≤ dispatchesOf (w.shared.tables id) call := by
  induction h with
  | refl => exact Nat.zero_le _
  | tail hrun hstep ih =>
    cases hstep with
    | act h =>
      obtain ⟨ht, hrest, hexec⟩ := h
      rename_i i e t next r db'
      obtain ⟨⟨hl, ht₀⟩, hexec, hl', ht₁⟩ := hexec
      have hmore : dispatchesOf (Db.tables _ id) call + Worker.raisedBy L (id, call) e r ≤
          dispatchesOf (db'.tables id) call := dispatchesOf_exec hexec hl hl' ht₀ ht₁
      have hsum := Pool.total_acted (f := Worker.raised L (id, call)) ht e r next db'
      have happend : Worker.raised L (id, call) (t.events ++ [⟨e, r⟩]) =
          Worker.raised L (id, call) t.events + Worker.raisedBy L (id, call) e r := by
        unfold Worker.raised
        rw [List.map_append, List.sum_append, List.map_singleton, List.sum_singleton]
      change Pool.total (Worker.raised L (id, call)) (Pool.acted _ i t e r next db') ≤
        dispatchesOf (db'.tables id) call
      omega
    | spawn hp =>
      rw [Pool.total_spawn rfl]
      exact ih
    | drift hd =>
      obtain ⟨⟨hl, -⟩, hd, -⟩ := hd
      exact ih.trans (dispatchesOf_moved (.drift hd) hl)

/-- A call that is invoked has an execution, which counts as many dispatches at least, and no more than
a policy that was proposed for it allows: in every run of any number of workers that serve requests,
each of which may stop anywhere, if no UUID is drawn twice. -/
theorem invocations_recorded (env : Deployment) (w : Pool Eff Reply Db Unit)
    (h : Pool.Run (serving env) ⟨{}, []⟩ w) (hdrawn : DrawnOnce env w) (id call : String) :
    Pool.total (invocations (id, call) none) w = 0 ∨
      ∃ row ∈ (w.shared.tables id).executions, row.call = call ∧ row.Bounded env ∧
        (Pool.total (invocations (id, call) none) w : Int) ≤ row.execution.attempts := by
  obtain ⟨L, hrun⟩ := exists_annals h
  have hwatched := watched_of_run hrun hdrawn
  have hraised : Pool.total (invocations (id, call) none) w ≤
      Pool.total (Worker.raised L (id, call)) w :=
    Pool.total_le fun t ht =>
      Worker.invocations_raised (g := {}) ((hwatched t ht).kept fun _ => told_owes)
  have htotal := hraised.trans (total_raised hrun id call)
  by_cases hnone : dispatchesOf (w.shared.tables id) call = 0
  · exact .inl (Nat.le_zero.1 (hnone ▸ htotal))
  · obtain ⟨row, hrow, hcall⟩ := exists_of_dispatchesOf hnone
    have hactions := (Pool.Run.inv serving_lawful h (.empty env)).actions id
    have hbounded := hactions.executions.bounded row hrow
    refine .inr ⟨row, hrow, hcall, hbounded, ?_⟩
    rw [dispatchesOf_eq hactions hrow hcall] at htotal
    have hpos := hbounded.1
    omega

section Sample

/-- The tables answer, and nothing is lost. -/
def responds (env : Deployment) (reply : HttpReply) :
    Nat → (e : Eff) → Db → Option (Reply e × Db)
  | n, .uuid _, db => some (.ofList (List.replicate (n + 1) 'u'), db)
  | _, .now, db => some ("now", db)
  | _, .transact s config event, db =>
    let c := saveInner env "now" s config event db
    some (⟨c.stored, c.result, c.session⟩, c.db)
  | _, .cancelRequested session run, db =>
    some (.ok ((findRun (db.tables session) run).map (·.cancelRequested)), db)
  | _, .historicalCallIds session ids, db =>
    some (.ok (((db.tables session).calls.map CallRow.callId).filter ids.contains), db)
  | _, .eventId .., db => some (none, db)
  | _, .httpPost .., db => some (reply, db)
  | _, .execute .., db => some ("output", db)
  | _, .lockSession _, db => some (true, db)
  | _, .load id, db => some (load env db id, db)
  | _, .acquireLease id, db => some (acquireLease db id "owner")
  | _, .mark _, db => some ((), db)
  | _, _, _ => none

theorem responds_exec {env : Deployment} (howner : env.parseUuid "owner" = some "owner")
    {reply : HttpReply} {n : Nat} {e : Eff} {db db' : Db} {r : Reply e}
    (h : responds env reply n e db = some (r, db')) : exec env e db r db' := by
  cases e with
  | transact s config event =>
    obtain ⟨rfl, rfl⟩ := Prod.mk.inj (Option.some.inj h)
    exact ⟨"now", .inl ⟨rfl, rfl⟩⟩
  | cancelRequested | historicalCallIds | load =>
    obtain ⟨rfl, rfl⟩ := Prod.mk.inj (Option.some.inj h)
    exact ⟨rfl, .inr rfl⟩
  | acquireLease id =>
    have hpair := Option.some.inj h
    exact ⟨"owner", howner,
      .inl ⟨(congrArg Prod.fst hpair).symm, (congrArg Prod.snd hpair).symm⟩⟩
  | uuid | now | eventId | httpPost | execute | lockSession | mark =>
    obtain ⟨-, rfl⟩ := Prod.mk.inj (Option.some.inj h)
    rfl
  | _ => cases h

/-- A deployment of the configuration with one tool, whose digests are all alike. -/
def inspectingAgent : Deployment :=
  plainAgent { exactHost with sha256 := fun _ => "digest" } inspectingConfig

def requestOf (command : String) : Value :=
  .obj [("_command", .obj [("id", .str command), ("owner", .str "operator"), ("fence", .int 1),
    ("admission", .obj [("session_id", .str "session")])])]

/-- The row of a second command. -/
def secondRow : Commands.CommandRow :=
  { Commands.sampleRow with commandId := "second", idempotencyKey := "second key" }

/-- The tables once both commands are held. -/
def commandedDb : Db :=
  { sampleDb with
    commands := (Commands.Query.run (.administrative secondRow "operator") sampleDb.commands).2 }

/-- One worker creates a session that another one runs. -/
def inspectingPool : Pool Eff Reply Db Unit :=
  ⟨commandedDb, [
    .fresh (Server.Request.program inspectingAgent inspectingConfig
      (.create (requestOf "command") "goal" .null "sha")),
    .fresh (Server.Request.program inspectingAgent inspectingConfig
      (.run "session" (requestOf "second")))]⟩

/-- They take turns until the call the model asks for is invoked. -/
def inspectedPool : Pool Eff Reply Db Unit :=
  Pool.play (responds inspectingAgent callReply) 0 (List.replicate 4 0 ++ List.replicate 46 1)
    inspectingPool

theorem inspectedPool_run : Pool.Run (serving inspectingAgent) ⟨{}, []⟩ inspectedPool := by
  have hfirst : Pool.Run (serving inspectingAgent) ⟨{}, []⟩ ⟨sampleDb, []⟩ :=
    .single (.drift (.command (e := .sql (.administrative Commands.sampleRow "operator"))
      (.inl ⟨rfl, rfl⟩)))
  have hsecond : Pool.Run (serving inspectingAgent) ⟨{}, []⟩ ⟨commandedDb, []⟩ :=
    hfirst.tail (.drift (.command (e := .sql (.administrative secondRow "operator"))
      (.inl ⟨rfl, rfl⟩)))
  have hspawn : Pool.Run (serving inspectingAgent) ⟨{}, []⟩ inspectingPool :=
    (hsecond.tail (.spawn ⟨_, _, rfl⟩)).tail (.spawn ⟨_, _, rfl⟩)
  exact hspawn.trans (Pool.play_run (responds_exec rfl) 0 _ _)

/-- The call is invoked once, and its execution counts a dispatch. -/
theorem invocations_recorded_inspected : ∃ w : Pool Eff Reply Db Unit,
    Pool.total (invocations ("session", "call") none) w = 1 ∧
      ∃ row ∈ (w.shared.tables "session").executions, row.call = "call" ∧
        row.Bounded inspectingAgent ∧ (1 : Int) ≤ row.execution.attempts := by
  have hplayed : Pool.total (invocations ("session", "call") none) inspectedPool = 1 ∧
      (inspectedPool.collected (uuidsAlong inspectingAgent)).Nodup := by decide +kernel
  obtain hnone | hrow := invocations_recorded inspectingAgent inspectedPool inspectedPool_run
    hplayed.2 "session" "call"
  · rw [hplayed.1] at hnone
    cases hnone
  · rw [hplayed.1] at hrow
    exact ⟨_, hplayed.1, hrow⟩

end Sample

end Storage

end StateDrivenAgent
