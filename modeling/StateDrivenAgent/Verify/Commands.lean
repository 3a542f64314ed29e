import StateDrivenAgent.Commands
import StateDrivenAgent.Interaction.Pool

/-!
# Command admission is exclusive and final

`Moves` says once what a query can do to the table: change rows one by one (`RowStep`), grant a
claim, or add a row. From it follow the invariant of the table (`TableInv`: one row for a key, fences
that only grow, the current owner is the last holder granted) and what a row keeps for ever
(`Persists`: its identity and a stored response).

The requests run as threads of a pool in which any other program over the table may run too; a
request that starts after a response is stored sees that response in every row it is shown.
-/

namespace StateDrivenAgent.Commands

open Interaction

/-! ## What a query does -/

/-- The holder a query acts for when it settles its command. -/
def Query.holder : Query → Option Grant
  | .finalize command owner fence _ _ => some ⟨command, owner, fence⟩
  | .guarded command owner fence _ _ _ => some ⟨command, owner, fence⟩
  | _ => none

/-- The command has an outcome its holder gave it. -/
def CommandRow.finalised (r : CommandRow) : Bool :=
  match r.status with
  | .succeeded | .failed | .blocked => true
  | _ => false

/-- `h` is the holder of the row, and its claim has not expired. -/
structure CommandRow.HeldNow (clock : Int) (r : CommandRow) (h : Grant) : Prop where
  command : h.commandId = r.commandId
  owner : r.owner = some h.owner
  fence : h.fence = r.fence
  started : r.status = .started
  live : r.live clock = true

/-- What a query of holder `h` can do to a row that stays. -/
inductive RowStep (h : Option Grant) (clock : Int) (r : CommandRow) : CommandRow → Prop
  | keep : RowStep h clock r r
  | renew (hr : r.status = .started) (t : Int) :
      RowStep h clock r { r with leaseExpiresAt := some t }
  | release (hr : r.status.unsettled = true) : RowStep h clock r (r.settle .uncertain)
  | outcome {g : Grant} (hg : h = some g) (hr : r.HeldNow clock g) (session : Option String)
      (o : Outcome) : RowStep h clock r (o.apply session r)

/-- What a query can do to the table. -/
inductive Moves (h : Option Grant) (db : CommandDb) : CommandDb → Prop
  | rows {f : CommandRow → CommandRow} (hf : ∀ r ∈ db.rows, RowStep h db.clock r (f r)) :
      Moves h db { db with rows := db.rows.map f }
  | claim {r : CommandRow} (hr : r ∈ db.rows) (hc : r.claimable db.clock = true) (owner : String) :
      Moves h db { db with
        rows := db.rows.map fun r' => if r'.commandId = r.commandId then
          { r' with owner := some owner, fence := r'.fence + 1,
                    leaseExpiresAt := some (db.clock + 30), status := .started } else r'
        grants := db.grants ++ [⟨r.commandId, owner, r.fence + 1⟩] }
  | insert {r : CommandRow} (hr : ∀ r' ∈ db.rows, r'.commandId ≠ r.commandId ∧ r'.key ≠ r.key)
      (hp : r.status = .pending) (ho : r.owner = none) (hres : r.response = none) :
      Moves h db { db with rows := db.rows ++ [r] }
  | create {r : CommandRow} {owner : String}
      (hr : ∀ r' ∈ db.rows, r'.commandId ≠ r.commandId ∧ r'.key ≠ r.key)
      (hs : r.status = .started) (ho : r.owner = some owner) (hres : r.response = none)
      (hf : r.fence = 1) :
      Moves h db { db with
        rows := db.rows ++ [r], grants := db.grants ++ [⟨r.commandId, owner, 1⟩] }

theorem Moves.same (h : Option Grant) (db : CommandDb) : Moves h db db := by
  have hm : Moves h db { db with rows := db.rows.map id } := .rows fun r _ => .keep
  simpa using hm

/-- An `UPDATE` moves the table if it moves the rows it selects. -/
theorem Moves.update {h : Option Grant} {db : CommandDb} {id : String} {p : CommandRow → Bool}
    {f : CommandRow → CommandRow}
    (hf : ∀ r ∈ db.rows, r.commandId = id → p r = true → RowStep h db.clock r (f r)) :
    Moves h db (db.update id p f) := by
  refine Moves.rows fun r hr => ?_
  split
  next hc =>
    obtain ⟨hid, hp⟩ := Bool.and_eq_true_iff.mp hc
    exact hf r hr (of_decide_eq_true hid) hp
  next => exact .keep

theorem CommandRow.heldBy_iff {owner : String} {fence : Int} {r : CommandRow} :
    r.heldBy owner fence = true ↔ r.owner = some owner ∧ r.fence = fence ∧ r.status = .started := by
  simp [CommandRow.heldBy, and_assoc]

theorem CommandRow.heldNow_of_heldBy {owner : String} {fence clock : Int} {r : CommandRow}
    (hr : r.heldBy owner fence = true) (hl : r.live clock = true) :
    r.HeldNow clock ⟨r.commandId, owner, fence⟩ := by
  obtain ⟨ho, hf, hs⟩ := CommandRow.heldBy_iff.mp hr
  exact ⟨rfl, ho, hf.symm, hs, hl⟩

theorem insert_cases {db db' : CommandDb} {r : CommandRow} (h : db.insert r = some db') :
    (∀ r' ∈ db.rows, r'.commandId ≠ r.commandId ∧ r'.key ≠ r.key) ∧
      db' = { db with rows := db.rows ++ [r] } := by
  unfold CommandDb.insert at h
  split at h
  · cases h
  · rename_i hn
    simp only [Option.some.injEq] at h
    refine ⟨fun r' hr' => ?_, h.symm⟩
    simp only [List.any_eq_true, Bool.or_eq_true, decide_eq_true_eq, not_exists, not_and,
      not_or] at hn
    exact hn r' hr'

/-- Rows with the same identity are the same row. -/
theorem row_eq_of_id {db : CommandDb} (hid : (db.rows.map CommandRow.commandId).Nodup)
    {r r' : CommandRow} (hr : r ∈ db.rows) (hr' : r' ∈ db.rows)
    (h : r.commandId = r'.commandId) : r = r' :=
  List.inj_on_of_nodup_map hid hr hr' h

theorem map_map_of_keeps {β : Type} {f : CommandRow → CommandRow} {k : CommandRow → β}
    {rows : List CommandRow} (h : ∀ r ∈ rows, k (f r) = k r) : (rows.map f).map k = rows.map k := by
  rw [List.map_map]
  exact List.map_congr_left h

theorem guard_iff {db : CommandDb} {command owner : String} {fence : Int} :
    db.guard command owner fence = true ↔
      ∃ r ∈ db.rows, r.commandId = command ∧ r.heldBy owner fence = true ∧
        r.live db.clock = true := by
  simp [CommandDb.guard, and_assoc]

/-- The guarded transaction: at most its own row and, once its claim has expired, the row of the
interrupted run's command. -/
theorem guarded_moves {db : CommandDb} (hid : (db.rows.map CommandRow.commandId).Nodup)
    (command owner : String) (fence : Int) (session origin : Option String) (outcome : Outcome) :
    Moves (some ⟨command, owner, fence⟩) db
      ((Query.guarded command owner fence session origin outcome).run db).2 := by
  simp only [Query.run]
  split
  swap
  · exact .same _ _
  rename_i hg
  obtain ⟨r₀, hr₀, hid₀, hheld₀, hlive₀⟩ := guard_iff.mp hg
  -- the row of the guard is the only one the last update selects
  have own : ∀ r ∈ db.rows, r.commandId = command → r.heldBy owner fence = true →
      RowStep (some ⟨command, owner, fence⟩) db.clock r (outcome.apply session r) := by
    intro r hr hrc hheld
    have heq : r = r₀ := row_eq_of_id hid hr hr₀ (hrc.trans hid₀.symm)
    have hnow := CommandRow.heldNow_of_heldBy hheld (heq ▸ hlive₀)
    rw [hrc] at hnow
    exact .outcome rfl hnow session outcome
  split
  · split
    · exact .update own
    · rename_i id hne
      show Moves _ _ { db with rows := List.map _ (List.map _ db.rows) }
      rw [List.map_map]
      refine Moves.rows fun r hr => ?_
      simp only [Function.comp]
      by_cases hrc : r.commandId = id
      · have hne' : r.commandId ≠ command := fun h => hne (hrc.symm.trans h)
        have hsettle : (r.settle CommandStatus.uncertain).commandId ≠ command := hne'
        split
        · rename_i hc
          simp only [hsettle, decide_false, Bool.false_and, Bool.false_eq_true, if_false]
          exact .release (Bool.and_eq_true_iff.mp (Bool.and_eq_true_iff.mp hc).2).1
        · simp only [hne', decide_false, Bool.false_and, Bool.false_eq_true, if_false]
          exact .keep
      · simp only [hrc, decide_false, Bool.false_and, Bool.false_eq_true, if_false]
        split
        · rename_i hc
          obtain ⟨hc, hheld⟩ := Bool.and_eq_true_iff.mp hc
          exact own r hr (of_decide_eq_true hc) hheld
        · exact .keep
  · exact .update own

/-- Every query moves the table, on behalf of its holder. -/
theorem Query.run_moves (q : Query) {db : CommandDb}
    (hid : (db.rows.map CommandRow.commandId).Nodup) : Moves q.holder db (q.run db).2 := by
  cases q with
  | find | sessionExists => exact .same _ _
  | fetch =>
    simp only [Query.run]
    split <;> exact .same _ _
  | insert row =>
    simp only [Query.run]
    split
    · exact .same _ _
    · split
      · rename_i db' h
        obtain ⟨hr, rfl⟩ := insert_cases h
        exact .insert hr rfl rfl rfl
      · exact .same _ _
  | takeOver command owner =>
    simp only [Query.run]
    split
    · exact .same _ _
    · rename_i r h
      have hr := List.mem_of_find?_eq_some h
      have hsel := List.find?_some h
      simp only [Bool.and_eq_true, decide_eq_true_eq] at hsel
      obtain ⟨hc, hcl⟩ := hsel
      have hm := Moves.claim (h := (none : Option Grant)) hr hcl owner
      rw [hc] at hm
      have hrows : (db.update command (CommandRow.claimable db.clock) fun r' =>
            { r' with owner := some owner, fence := r'.fence + 1,
                      leaseExpiresAt := some (db.clock + 30), status := .started }).rows =
          db.rows.map fun r' => if r'.commandId = command then
            { r' with owner := some owner, fence := r'.fence + 1,
                      leaseExpiresAt := some (db.clock + 30), status := .started } else r' :=
        List.map_congr_left fun r' hr' => ?_
      · show Moves _ _ { db.update _ _ _ with grants := _ }
        simp only [CommandDb.update] at hrows ⊢
        rw [hrows]
        exact hm
      by_cases hrc : r'.commandId = command
      · have heq : r' = r := row_eq_of_id hid hr' hr (hrc.trans hc.symm)
        simp [heq, hcl]
      · simp [hrc]
  | renew command owner fence =>
    refine .update fun r _ _ hp => ?_
    obtain ⟨hheld, -⟩ := Bool.and_eq_true_iff.mp hp
    exact .renew (CommandRow.heldBy_iff.mp hheld).2.2 _
  | markUncertain command owner fence =>
    refine .update fun r _ _ hp => ?_
    obtain ⟨hheld, -⟩ := Bool.and_eq_true_iff.mp hp
    refine .release ?_
    rw [(CommandRow.heldBy_iff.mp hheld).2.2]
    rfl
  | finalize command owner fence status body =>
    refine .update fun r _ hrc hp => ?_
    obtain ⟨hheld, hlive⟩ := Bool.and_eq_true_iff.mp hp
    have hnow := CommandRow.heldNow_of_heldBy hheld hlive
    rw [hrc] at hnow
    exact .outcome rfl hnow none (.finish status body)
  | guarded command owner fence session origin outcome =>
    exact guarded_moves hid command owner fence session origin outcome
  | abandon command owner fence =>
    refine .update fun r _ _ hheld => ?_
    refine .release ?_
    rw [(CommandRow.heldBy_iff.mp hheld).2.2]
    rfl
  | administrative row owner =>
    simp only [Query.run]
    split
    · rename_i db' h
      obtain ⟨hr, rfl⟩ := insert_cases h
      exact .create hr rfl rfl rfl rfl
    · exact .same _ _

/-! ## The invariant of the table -/

structure TableInv (db : CommandDb) : Prop where
  keys : (db.rows.map CommandRow.key).Nodup
  ids : (db.rows.map CommandRow.commandId).Nodup
  /-- Exactly the settled commands have a response. -/
  settled : ∀ r ∈ db.rows, r.response.isSome = true ↔ r.status = .succeeded ∨ r.status = .failed
  /-- A later grant of a command has a larger fence. -/
  increasing : db.grants.Pairwise fun a b => a.commandId = b.commandId → a.fence < b.fence
  /-- The owner of a row was granted the row's fence. -/
  owned : ∀ r ∈ db.rows, ∀ o, r.owner = some o → ⟨r.commandId, o, r.fence⟩ ∈ db.grants
  bounded : ∀ r ∈ db.rows, ∀ g ∈ db.grants, g.commandId = r.commandId → g.fence ≤ r.fence
  granted : ∀ g ∈ db.grants, ∃ r ∈ db.rows, r.commandId = g.commandId

theorem TableInv.empty : TableInv {} := by
  constructor <;> simp

/-- What a change of a row may not do: give it another identity, or move its fence. -/
structure SameRow (r r' : CommandRow) : Prop where
  commandId : r'.commandId = r.commandId
  key : r'.key = r.key
  hash : r'.requestSha256 = r.requestSha256
  route : r'.route = r.route

theorem Outcome.apply_same (session : Option String) (o : Outcome) (r : CommandRow) :
    SameRow r (o.apply session r) := by
  cases session <;> cases o <;> exact ⟨rfl, rfl, rfl, rfl⟩

theorem Outcome.apply_fence (session : Option String) (o : Outcome) (r : CommandRow) :
    (o.apply session r).fence = r.fence := by
  cases session <;> cases o <;> rfl

theorem Outcome.apply_owner (session : Option String) (o : Outcome) (r : CommandRow) :
    (o.apply session r).owner = Option.none ∨ (o.apply session r).owner = r.owner := by
  cases session <;> cases o <;> first | exact .inl rfl | exact .inr rfl

/-- A settled row has a response, before and after the outcome of its holder. -/
theorem Outcome.apply_settled (session : Option String) (o : Outcome) {r : CommandRow}
    (hr : r.response.isSome = true ↔ r.status = .succeeded ∨ r.status = .failed)
    (hs : r.status = .started) :
    (o.apply session r).response.isSome = true ↔
      (o.apply session r).status = .succeeded ∨ (o.apply session r).status = .failed := by
  have hnone : r.response.isSome = false := by
    rw [← Bool.not_eq_true, hr, hs]
    simp
  cases session <;> cases o <;> simp only [Outcome.apply, CommandRow.finish, CommandRow.settle]
  all_goals first
    | exact hr
    | (split <;> simp)
    | simp [hnone]

section RowStep

variable {h : Option Grant} {clock : Int} {r r' : CommandRow}

theorem RowStep.same (hs : RowStep h clock r r') : SameRow r r' := by
  cases hs with
  | outcome => exact Outcome.apply_same _ _ _
  | _ => exact ⟨rfl, rfl, rfl, rfl⟩

theorem RowStep.fence (hs : RowStep h clock r r') : r'.fence = r.fence := by
  cases hs with
  | outcome => exact Outcome.apply_fence _ _ _
  | _ => rfl

theorem RowStep.owner (hs : RowStep h clock r r') : r'.owner = none ∨ r'.owner = r.owner := by
  cases hs with
  | outcome => exact Outcome.apply_owner _ _ _
  | release => exact .inl rfl
  | _ => exact .inr rfl

theorem RowStep.settled (hs : RowStep h clock r r')
    (hr : r.response.isSome = true ↔ r.status = .succeeded ∨ r.status = .failed) :
    r'.response.isSome = true ↔ r'.status = .succeeded ∨ r'.status = .failed := by
  cases hs with
  | keep => exact hr
  | renew => exact hr
  | release hu =>
    have hne : r.response.isSome = false := by
      rw [← Bool.not_eq_true, hr]
      rintro (h | h) <;> simp [h, CommandStatus.unsettled] at hu
    simp [CommandRow.settle, hne]
  | outcome _ hnow => exact Outcome.apply_settled _ _ hr hnow.started

/-- A stored response stays, with the status. -/
theorem RowStep.response (hs : RowStep h clock r r')
    (hr : r.response.isSome = true ↔ r.status = .succeeded ∨ r.status = .failed)
    (hres : r.response.isSome = true) : r'.response = r.response ∧ r'.status = r.status := by
  have hst := hr.mp hres
  cases hs with
  | keep => exact ⟨rfl, rfl⟩
  | renew => exact ⟨rfl, rfl⟩
  | release hu => rcases hst with hst | hst <;> simp [hst, CommandStatus.unsettled] at hu
  | outcome _ hnow => rcases hst with hst | hst <;> simp [hnow.started] at hst

/-- Only its current holder gives a command an outcome. -/
theorem RowStep.finalised (hs : RowStep h clock r r') (hr : r.finalised = false)
    (hr' : r'.finalised = true) : ∃ g, h = some g ∧ r.HeldNow clock g := by
  cases hs with
  | keep => rw [hr] at hr'; cases hr'
  | renew => simp_all [CommandRow.finalised]
  | release => simp [CommandRow.finalised, CommandRow.settle] at hr'
  | outcome hg hnow => exact ⟨_, hg, hnow⟩

end RowStep

/-- Adding a row of a new command keeps the invariant, whether it is granted at once or not. -/
theorem TableInv.append {db : CommandDb} (hi : TableInv db) {r : CommandRow} {gs : List Grant}
    (hr : ∀ r' ∈ db.rows, r'.commandId ≠ r.commandId ∧ r'.key ≠ r.key)
    (hs : r.response.isSome = true ↔ r.status = .succeeded ∨ r.status = .failed)
    (ho : ∀ o, r.owner = some o → ⟨r.commandId, o, r.fence⟩ ∈ gs)
    (hg : ∀ g ∈ gs, g.commandId = r.commandId ∧ g.fence ≤ r.fence) (hgs : gs.length ≤ 1) :
    TableInv { db with rows := db.rows ++ [r], grants := db.grants ++ gs } where
  keys := by
    rw [List.map_append, List.nodup_append]
    refine ⟨hi.keys, by simp, ?_⟩
    rintro a ha b hb rfl
    obtain ⟨r', hr', rfl⟩ := List.mem_map.mp ha
    exact (hr r' hr').2 (by simpa using hb)
  ids := by
    rw [List.map_append, List.nodup_append]
    refine ⟨hi.ids, by simp, ?_⟩
    rintro a ha b hb rfl
    obtain ⟨r', hr', rfl⟩ := List.mem_map.mp ha
    exact (hr r' hr').1 (by simpa using hb)
  settled r' hr' := by
    rcases List.mem_append.mp hr' with hr' | hr'
    · exact hi.settled r' hr'
    · rw [List.mem_singleton.mp hr']
      exact hs
  increasing := by
    refine List.pairwise_append.mpr ⟨hi.increasing, ?_, fun a ha b hb hab => ?_⟩
    · match gs, hgs with
      | [], _ => exact .nil
      | [g], _ => exact List.pairwise_singleton _ g
    · obtain ⟨r', hr', hra⟩ := hi.granted a ha
      exact absurd (hra.trans (hab.trans (hg b hb).1)) (hr r' hr').1
  owned r' hr' o ho' := by
    rcases List.mem_append.mp hr' with hr' | hr'
    · exact List.mem_append_left _ (hi.owned r' hr' o ho')
    · rw [List.mem_singleton.mp hr'] at ho' ⊢
      exact List.mem_append_right _ (ho o ho')
  bounded r' hr' g hg' hgr := by
    rcases List.mem_append.mp hr' with hr' | hr' <;> rcases List.mem_append.mp hg' with hg' | hg'
    · exact hi.bounded r' hr' g hg' hgr
    · exact absurd (hgr.symm.trans (hg g hg').1) (hr r' hr').1
    · rw [List.mem_singleton.mp hr'] at hgr
      obtain ⟨r₀, hr₀, hid⟩ := hi.granted g hg'
      exact absurd (hid.trans hgr) (hr r₀ hr₀).1
    · rw [List.mem_singleton.mp hr']
      exact (hg g hg').2
  granted g hg' := by
    rcases List.mem_append.mp hg' with hg' | hg'
    · obtain ⟨r', hr', hid⟩ := hi.granted g hg'
      exact ⟨r', List.mem_append_left _ hr', hid⟩
    · exact ⟨r, by simp, (hg g hg').1.symm⟩

/-- Changing rows one by one keeps the invariant. -/
theorem TableInv.rows {h : Option Grant} {db : CommandDb} (hi : TableInv db)
    {f : CommandRow → CommandRow} (hf : ∀ r ∈ db.rows, RowStep h db.clock r (f r)) :
    TableInv { db with rows := db.rows.map f } where
  keys := by
    rw [map_map_of_keeps fun r hr => (hf r hr).same.key]
    exact hi.keys
  ids := by
    rw [map_map_of_keeps fun r hr => (hf r hr).same.commandId]
    exact hi.ids
  settled r' hr' := by
    obtain ⟨r, hr, rfl⟩ := List.mem_map.mp hr'
    exact (hf r hr).settled (hi.settled r hr)
  increasing := hi.increasing
  owned r' hr' o ho := by
    obtain ⟨r, hr, rfl⟩ := List.mem_map.mp hr'
    rw [(hf r hr).same.commandId, (hf r hr).fence]
    rcases (hf r hr).owner with hno | hsame
    · rw [hno] at ho
      cases ho
    · exact hi.owned r hr o (hsame.symm.trans ho)
  bounded r' hr' g hg hgr := by
    obtain ⟨r, hr, rfl⟩ := List.mem_map.mp hr'
    rw [(hf r hr).same.commandId] at hgr
    rw [(hf r hr).fence]
    exact hi.bounded r hr g hg hgr
  granted g hg := by
    obtain ⟨r, hr, hid⟩ := hi.granted g hg
    exact ⟨f r, List.mem_map_of_mem hr, (hf r hr).same.commandId.trans hid⟩

/-- A takeover grants the next fence of its command. -/
theorem TableInv.claim {db : CommandDb} (hi : TableInv db) {r : CommandRow} (hr : r ∈ db.rows)
    (hc : r.claimable db.clock = true) (owner : String) (expiry : Int) :
    TableInv { db with
      rows := db.rows.map fun r' => if r'.commandId = r.commandId then
        { r' with owner := some owner, fence := r'.fence + 1, leaseExpiresAt := some expiry,
                  status := .started } else r'
      grants := db.grants ++ [⟨r.commandId, owner, r.fence + 1⟩] } := by
  have hresp : ∀ r' ∈ db.rows, r'.commandId = r.commandId → r'.response.isSome = false := by
    intro r' hr' hid
    rw [row_eq_of_id hi.ids hr' hr hid, ← Bool.not_eq_true, hi.settled r hr]
    simp only [CommandRow.claimable, Bool.and_eq_true] at hc
    rintro (hs | hs) <;> simp [hs, CommandStatus.unsettled] at hc
  constructor
  · rw [map_map_of_keeps fun r' _ => by split <;> rfl]
    exact hi.keys
  · rw [map_map_of_keeps fun r' _ => by split <;> rfl]
    exact hi.ids
  · intro r' hr'
    obtain ⟨r₀, hr₀, rfl⟩ := List.mem_map.mp hr'
    split
    · rename_i hid
      simp [hresp r₀ hr₀ hid]
    · exact hi.settled r₀ hr₀
  · refine List.pairwise_append.mpr ⟨hi.increasing, List.pairwise_singleton _ _, ?_⟩
    intro a ha b hb hab
    rw [List.mem_singleton.mp hb] at hab ⊢
    have := hi.bounded r hr a ha hab
    simp only
    omega
  · intro r' hr' o ho
    obtain ⟨r₀, hr₀, rfl⟩ := List.mem_map.mp hr'
    split at ho
    · rename_i hid
      rw [if_pos hid, row_eq_of_id hi.ids hr₀ hr hid]
      simp only [Option.some.injEq] at ho
      subst ho
      exact List.mem_append_right _ (by simp)
    · rename_i hid
      rw [if_neg hid]
      exact List.mem_append_left _ (hi.owned r₀ hr₀ o ho)
  · intro r' hr' g hg hgr
    obtain ⟨r₀, hr₀, rfl⟩ := List.mem_map.mp hr'
    split at hgr <;> rename_i hid
    · rw [if_pos hid]
      rcases List.mem_append.mp hg with hg | hg
      · have := hi.bounded r₀ hr₀ g hg hgr
        simp only
        omega
      · rw [List.mem_singleton.mp hg, row_eq_of_id hi.ids hr₀ hr hid]
    · rw [if_neg hid]
      rcases List.mem_append.mp hg with hg | hg
      · exact hi.bounded r₀ hr₀ g hg hgr
      · rw [List.mem_singleton.mp hg] at hgr
        exact absurd hgr.symm hid
  · intro g hg
    have old : ∀ r₀ ∈ db.rows, ∃ r' ∈ db.rows.map (fun r' => if r'.commandId = r.commandId then
        { r' with owner := some owner, fence := r'.fence + 1, leaseExpiresAt := some expiry,
                  status := .started } else r'), r'.commandId = r₀.commandId := by
      intro r₀ hr₀
      refine ⟨_, List.mem_map_of_mem hr₀, ?_⟩
      split <;> rfl
    rcases List.mem_append.mp hg with hg | hg
    · obtain ⟨r₀, hr₀, hid⟩ := hi.granted g hg
      obtain ⟨r', hr', hid'⟩ := old r₀ hr₀
      exact ⟨r', hr', hid'.trans hid⟩
    · rw [List.mem_singleton.mp hg]
      exact old r hr

theorem Moves.inv {h : Option Grant} {db db' : CommandDb} (hm : Moves h db db')
    (hi : TableInv db) : TableInv db' := by
  cases hm with
  | rows hf => exact hi.rows hf
  | claim hr hc owner => exact hi.claim hr hc owner _
  | insert hr hp ho hres =>
    have happ : TableInv { db with rows := db.rows ++ [_], grants := db.grants ++ [] } :=
      hi.append hr (by simp [hres, hp]) (by simp [ho]) (by simp) (by simp)
    simpa using happ
  | create hr hs ho hres hf =>
    exact hi.append hr (by simp [hres, hs]) (by simp [ho, hf]) (by simp [hf]) (by simp)

/-! ## What a row keeps -/

/-- The table still has the row `r`, as the same command and with the response it had. -/
structure Shown (r : CommandRow) (db : CommandDb) : Prop where
  inv : TableInv db
  row : ∃ r' ∈ db.rows, SameRow r r' ∧
    (r.response.isSome = true → r'.response = r.response ∧ r'.status = r.status)

theorem SameRow.trans {r r' r'' : CommandRow} (h : SameRow r r') (h' : SameRow r' r'') :
    SameRow r r'' :=
  ⟨h'.commandId.trans h.commandId, h'.key.trans h.key, h'.hash.trans h.hash, h'.route.trans h.route⟩

theorem Shown.self {r : CommandRow} {db : CommandDb} (hi : TableInv db) (hr : r ∈ db.rows) :
    Shown r db := ⟨hi, r, hr, ⟨rfl, rfl, rfl, rfl⟩, fun _ => ⟨rfl, rfl⟩⟩

theorem Moves.shown {h : Option Grant} {db db' : CommandDb} (hm : Moves h db db')
    {r : CommandRow} (hs : Shown r db) : Shown r db' := by
  refine ⟨hm.inv hs.inv, ?_⟩
  obtain ⟨hi, r', hr', hsame, hresp⟩ := hs
  cases hm with
  | @rows f hf =>
    refine ⟨f r', List.mem_map_of_mem hr', hsame.trans (hf r' hr').same, fun hsome => ?_⟩
    obtain ⟨hre, hst⟩ := hresp hsome
    obtain ⟨hre', hst'⟩ := (hf r' hr').response (hi.settled r' hr') (hre ▸ hsome)
    exact ⟨hre'.trans hre, hst'.trans hst⟩
  | @claim r₀ hr₀ hc owner =>
    refine ⟨_, List.mem_map_of_mem hr', ?_, fun hsome => ?_⟩
    · split
      · exact hsame.trans ⟨rfl, rfl, rfl, rfl⟩
      · exact hsame
    · obtain ⟨hre, hst⟩ := hresp hsome
      -- a settled command cannot be claimed
      have hne : r'.commandId ≠ r₀.commandId := by
        intro hid
        rw [row_eq_of_id hi.ids hr' hr₀ hid] at hre
        have := (hi.settled r₀ hr₀).mp (hre ▸ hsome)
        simp only [CommandRow.claimable, Bool.and_eq_true] at hc
        rcases this with hs | hs <;> simp [hs, CommandStatus.unsettled] at hc
      rw [if_neg hne]
      exact ⟨hre, hst⟩
  | insert => exact ⟨r', List.mem_append_left _ hr', hsame, hresp⟩
  | create => exact ⟨r', List.mem_append_left _ hr', hsame, hresp⟩

/-! ## The requests in a pool -/

/-- The table with everything that works on it: requests, the renewal of their claims, other
holders' transactions, an operator's commands. Time passes and sessions come and go. -/
def machine : Machine CommandEff CommandReply CommandDb Response where
  exec := CommandEff.exec
  drift db db' := db'.rows = db.rows ∧ db'.grants = db.grants
  client _ := True

theorem exec_cases {e : CommandEff} {db db' : CommandDb} {r : CommandReply e}
    (h : e.exec db r db') : db' = db ∨ ∃ q, e = .sql q ∧ db' = (q.run db).2 := by
  cases e with
  | uuid => exact .inl h
  | config => exact .inl h
  | sql q =>
    rcases h with ⟨-, h⟩ | ⟨-, -, h | h⟩
    · exact .inr ⟨q, rfl, h⟩
    · exact .inl h
    · exact .inr ⟨q, rfl, h⟩

theorem TableInv.drift {db db' : CommandDb} (hi : TableInv db) (hr : db'.rows = db.rows)
    (hg : db'.grants = db.grants) : TableInv db' := by
  obtain ⟨keys, ids, settled, increasing, owned, bounded, granted⟩ := hi
  exact ⟨hr ▸ keys, hr ▸ ids, hr ▸ settled, hg ▸ increasing, by rw [hr, hg]; exact owned,
    by rw [hr, hg]; exact bounded, by rw [hr, hg]; exact granted⟩

theorem preserves_inv : machine.Preserves TableInv where
  exec hi h := by
    rcases exec_cases h with rfl | ⟨q, rfl, rfl⟩
    · exact hi
    · exact (q.run_moves hi.ids).inv hi
  drift hi h := hi.drift h.1 h.2

theorem preserves_shown (r : CommandRow) : machine.Preserves (Shown r) where
  exec hs h := by
    rcases exec_cases h with rfl | ⟨q, rfl, rfl⟩
    · exact hs
    · exact (q.run_moves hs.inv.ids).shown hs
  drift hs h := ⟨hs.inv.drift h.1 h.2, h.1.symm ▸ hs.row⟩

/-! ## A request for a command that exists -/

/-- The reply is not a failure of the database. -/
def Answered (e : CommandEff) (r : CommandReply e) : Prop :=
  match e, r with
  | .sql _, .error _ => False
  | _, _ => True

/-- The effect changes nothing while `I` holds. -/
def Harmless (I : CommandDb → Prop) (e : CommandEff) : Prop :=
  ∀ {s r s'}, I s → e.exec s r s' → s' = s

theorem harmless_of_run {I : CommandDb → Prop} {q : Query}
    (h : ∀ db, I db → (q.run db).2 = db) : Harmless I (.sql q) := by
  intro db r db' hi hex
  rcases hex with ⟨-, rfl⟩ | ⟨-, -, rfl | rfl⟩
  · exact h db hi
  · rfl
  · exact h db hi

section Existing

variable {sv : Server} {p : Prepared} {r : CommandRow} {P : (e : CommandEff) → CommandReply e → Prop}

/-- The row a request for `r` is shown. -/
theorem Shown.find {db : CommandDb} (hs : Shown r db) (hk : r.key = (p.deployment, "local", p.key)) :
    ∃ r', db.find p.deployment p.key = some r' ∧ SameRow r r' ∧
      (r.response.isSome = true → r'.response = r.response) := by
  obtain ⟨hi, r', hr', hsame, hresp⟩ := hs
  cases hf : db.find p.deployment p.key with
  | none =>
    have := List.find?_eq_none.mp hf r' hr'
    simp [hsame.key, hk] at this
  | some r₀ =>
    have hr₀ := List.mem_of_find?_eq_some hf
    have hkey := List.find?_some hf
    simp only [decide_eq_true_eq] at hkey
    have heq : r₀ = r' :=
      List.inj_on_of_nodup_map hi.keys hr₀ hr' (hkey.trans (hk.symm.trans hsame.key.symm))
    subst heq
    exact ⟨r₀, rfl, hsame, fun h => (hresp h).1⟩

theorem sat_sql {M : Monitor CommandEff CommandReply Unit} {q : Query} {g : Unit} {s : Unit}
    {post : Unit → Unit → q.Result → Prop} {err : Unit → Unit → SqlError ⊕ Response → Prop} :
    Proc.Sat M (AdmitM.sql q) g s post err ↔ M.must g (.sql q) ∧
      (∀ a : q.Result, M.may g (.sql q) (.ok a) → post () s a) ∧
      ∀ e, M.may g (.sql q) (.error e) → err () s (.inl e) := by
  refine and_congr_right fun _ => ⟨fun h => ⟨fun a ha => h (.ok a) ha, fun e he => h (.error e) he⟩,
    fun h r hr => ?_⟩
  match r with
  | .ok a => exact h.1 a hr
  | .error e => exact h.2 e hr

theorem sat_uuid {M : Monitor CommandEff CommandReply Unit} {g : Unit} {s : Unit}
    {post : Unit → Unit → String → Prop} {err : Unit → Unit → SqlError ⊕ Response → Prop} :
    Proc.Sat M AdmitM.uuid g s post err ↔
      M.must g .uuid ∧ ∀ id : String, M.may g .uuid id → post () s id := Iff.rfl

/-- What a query answers when it answers. -/
theorem run_of_answers {I : CommandDb → Prop} {q : Query} {a : q.Result}
    (h : machine.Answers I (.sql q) (.ok a : Except SqlError q.Result)) :
    ∃ db, I db ∧ (q.run db).1 = .ok a := by
  obtain ⟨db, db', hi, hex⟩ := h
  rcases hex with ⟨heq, -⟩ | ⟨e, heq, -⟩
  · exact ⟨db, hi, heq.symm⟩
  · cases heq

/-- A request for the command of `r` is answered from `r`, and changes nothing. -/
theorem admitPrepared_existing (hk : r.key = (p.deployment, "local", p.key)) {answer : Response}
    (hans : ((p.hash ≠ r.requestSha256 ∨ p.route ≠ r.route) ∧ answer = keyReused) ∨
      (p.hash = r.requestSha256 ∧ p.route = r.route ∧
        ∃ status body, r.response = some (status, body) ∧ answer = replay r status body)) :
    Proc.Sat (machine.rely (Shown r) P (Harmless (Shown r))) (admitPrepared sv p) () ()
      (fun _ _ a => a = answer)
      (fun _ _ e => ∃ q x, P (.sql q) (.error x : Except SqlError q.Result) ∧ e = .inl x) := by
  have herr : ∀ (q : Query) (e : SqlError),
      (machine.rely (Shown r) P (Harmless (Shown r))).may () (.sql q)
        (.error e : Except SqlError q.Result) →
      ∃ (q : Query) (x : SqlError), P (.sql q) (.error x : Except SqlError q.Result) ∧
        (.inl e : SqlError ⊕ Response) = .inl x := fun q e h => ⟨q, e, h.2, rfl⟩
  unfold admitPrepared
  rw [Proc.sat_bind, sat_sql]
  refine ⟨harmless_of_run fun _ _ => rfl, fun existing hex => ?_, herr _⟩
  obtain ⟨db, hs, hrun⟩ := run_of_answers hex.1
  obtain ⟨r', hfind, -, -⟩ := hs.find hk
  have hex' : existing = some r' := (Except.ok.inj hrun).symm.trans hfind
  subst hex'
  rw [Proc.sat_bind, show requireSession p (some r') = pure () by
    unfold requireSession; split <;> simp_all]
  rw [Proc.sat_pure, Proc.sat_bind, show admissionOf p (some r') =
    pure (.obj [("session_id", .ofStr? p.session)]) by simp [admissionOf]]
  rw [Proc.sat_pure, Proc.sat_bind, sat_uuid]
  refine ⟨fun {_ _ _} _ h => h, fun id _ => ?_⟩
  rw [Proc.sat_bind, sat_sql]
  refine ⟨harmless_of_run fun db hs => ?_, fun _ _ => ?_, herr _⟩
  · obtain ⟨r', hfind, -, -⟩ := hs.find hk
    have hmem := List.mem_of_find?_eq_some hfind
    have hkey := List.find?_some hfind
    simp only [decide_eq_true_eq] at hkey
    have hany : (db.rows.any fun r => decide (r.key = (newRow p id
        (.obj [("session_id", .ofStr? p.session)])).key)) = true :=
      List.any_eq_true.mpr ⟨r', hmem, by simpa [newRow, CommandRow.key] using hkey⟩
    simp only [Query.run, hany, if_true]
  rw [Proc.sat_bind, sat_sql]
  refine ⟨harmless_of_run fun db hs => ?_, fun row hrow => ?_, herr _⟩
  · simp only [Query.run]
    split <;> rfl
  obtain ⟨db, hs, hrun⟩ := run_of_answers hrow.1
  obtain ⟨r₀, hfind, hsame, hresp⟩ := hs.find hk
  simp only [Query.run, hfind, Except.ok.injEq] at hrun
  subst hrun
  rcases hans with ⟨hmis, rfl⟩ | ⟨hh, hr, status, body, hres, rfl⟩
  · have hcond : (decide (r₀.requestSha256 ≠ p.hash) || decide (r₀.route ≠ p.route)) = true := by
      rw [hsame.hash, hsame.route]
      rcases hmis with h | h <;> simp [Ne.symm h]
    rw [if_pos hcond, Proc.sat_pure]
  · have hcond : ¬(decide (r₀.requestSha256 ≠ p.hash) || decide (r₀.route ≠ p.route)) = true := by
      simp [hsame.hash, hsame.route, hh, hr]
    rw [if_neg hcond, (hresp (by simp [hres])).trans hres, Proc.sat_pure]
    simp [replay, hsame.commandId]

end Existing

section Requests

variable {sv : Server} {request : HttpRequest} {p : Prepared} {r : CommandRow}
  {P : (e : CommandEff) → CommandReply e → Prop} {answer : Response}

/-- The same for the request as the server answers it, from its first effect on. -/
theorem admission_existing (hp : prepare sv request = .ok p)
    (hk : r.key = (p.deployment, "local", p.key))
    (hans : ((p.hash ≠ r.requestSha256 ∨ p.route ≠ r.route) ∧ answer = keyReused) ∨
      (p.hash = r.requestSha256 ∧ p.route = r.route ∧
        ∃ status body, r.response = some (status, body) ∧ answer = replay r status body)) :
    (admission sv request).Sat (machine.rely (Shown r) P (Harmless (Shown r))) () fun _ a =>
      a = answer ∨ ∃ q x, P (.sql q) (.error x : Except SqlError q.Result) := by
  have hadmit : Proc.Sat (machine.rely (Shown r) P (Harmless (Shown r))) (admitCommand sv request)
      () () (fun _ _ a => a = answer)
      (fun _ _ e => ∃ q x, P (.sql q) (.error x : Except SqlError q.Result) ∧ e = .inl x) := by
    rw [admitCommand, hp, Proc.sat_bind, Proc.sat_ofExcept_ok]
    exact admitPrepared_existing hk hans
  show ((admitCommand sv request ()) >>= _).Sat _ _ _
  rw [Program.sat_bind]
  refine Program.Sat.mono hadmit fun _ out hout => ?_
  rcases out with ⟨out | out, _⟩
  · obtain ⟨q, x, hx, rfl⟩ := hout
    exact .inr ⟨q, x, hx⟩
  · exact .inl hout

/-- A row of a reachable table: the later requests for its command that are not answered by a
failure of the database get `answer`. -/
theorem answer_of_run {w w' : Pool CommandEff CommandReply CommandDb Response}
    (hw : TableInv w.shared) (hr : r ∈ w.shared.rows) (hrun : Pool.Run machine w w')
    {i : Nat} {t : Thread CommandEff CommandReply Response} (hi : w.threads.length ≤ i)
    (ht : w'.threads[i]? = some t) (hstart : t.start = admission sv request)
    (hp : prepare sv request = .ok p) (hk : r.key = (p.deployment, "local", p.key))
    (hans : ((p.hash ≠ r.requestSha256 ∨ p.route ≠ r.route) ∧ answer = keyReused) ∨
      (p.hash = r.requestSha256 ∧ p.route = r.route ∧
        ∃ status body, r.response = some (status, body) ∧ answer = replay r status body))
    (hok : ∀ ev ∈ t.events, Answered ev.1 ev.2) {a : Response} (ha : t.rest = .ret a) :
    a = answer := by
  have hf := hrun.follows (preserves_shown r) (.self hw hr) hi ht
  have hsat := admission_existing (P := Answered) hp hk hans
  rw [← hstart] at hsat
  rcases hf.post hok hsat ha with h | ⟨q, x, hx⟩
  · exact h
  · exact absurd hx id

/-- Such a request changes nothing, whatever the database answers it. -/
theorem unchanged_of_act {w w' w'' : Pool CommandEff CommandReply CommandDb Response}
    (hw : TableInv w.shared) (hr : r ∈ w.shared.rows) (hrun : Pool.Run machine w w')
    {i : Nat} {e : CommandEff} {t : Thread CommandEff CommandReply Response}
    (hi : w.threads.length ≤ i) (ht : w'.threads[i]? = some t)
    (hstart : t.start = admission sv request) (hact : Pool.Act machine i e w' w'')
    (hp : prepare sv request = .ok p) (hk : r.key = (p.deployment, "local", p.key))
    (hmis : p.hash ≠ r.requestSha256 ∨ p.route ≠ r.route) : w''.shared = w'.shared := by
  have hf := hrun.follows (preserves_shown r) (.self hw hr) hi ht
  have hsat := admission_existing (P := fun _ _ => True) hp hk (.inl ⟨hmis, rfl⟩)
  rw [← hstart] at hsat
  obtain ⟨ht', hrest, hexec⟩ := hact
  rename_i t' next rep s'
  have heq : t' = t := Option.some.inj (ht'.symm.trans ht)
  subst heq
  exact hf.must (fun _ _ => trivial) hsat hrest (hrun.inv (preserves_shown r) (.self hw hr)) hexec

end Requests

/-- The step of the pool that gives a command its outcome is one of the command's current holder,
whose claim has not expired. -/
theorem finalised_by_holder {w w' : Pool CommandEff CommandReply CommandDb Response}
    (hw : TableInv w.shared) (hstep : Pool.Step machine w w') {r r' : CommandRow}
    (hr : r ∈ w.shared.rows) (hr' : r' ∈ w'.shared.rows) (hid : r'.commandId = r.commandId)
    (hopen : r.finalised = false) (hfin : r'.finalised = true) :
    ∃ i q g, Pool.Act machine i (.sql q) w w' ∧ q.holder = some g ∧
      r.HeldNow w.shared.clock g := by
  have unchanged : w'.shared.rows = w.shared.rows → False := by
    intro h
    rw [h] at hr'
    rw [row_eq_of_id hw.ids hr' hr hid, hopen] at hfin
    cases hfin
  cases hstep with
  | spawn => exact (unchanged rfl).elim
  | drift hs => exact (unchanged hs.1).elim
  | @act i e _ _ h =>
    have hact := h
    obtain ⟨ht, hrest, hexec⟩ := h
    rename_i s'
    rcases exec_cases hexec with rfl | ⟨q, rfl, rfl⟩
    · exact (unchanged rfl).elim
    · suffices hsuff : ∃ g, q.holder = some g ∧ r.HeldNow w.shared.clock g by
        obtain ⟨g, hg, hnow⟩ := hsuff
        exact ⟨i, q, g, hact, hg, hnow⟩
      clear hact
      have hm := q.run_moves hw.ids
      have hids := (hm.inv hw).ids
      simp only at hr'
      generalize (q.run w.shared).2 = db' at hm hr' hids
      cases hm with
      | @rows f hf =>
        have heq : r' = f r := row_eq_of_id hids hr' (List.mem_map_of_mem hr)
          (hid.trans (hf r hr).same.commandId.symm)
        obtain ⟨g, hg, hnow⟩ := (hf r hr).finalised hopen (heq ▸ hfin)
        exact ⟨g, hg, hnow⟩
      | @claim r₀ _ _ _ =>
        exfalso
        obtain ⟨r₁, hr₁, rfl⟩ := List.mem_map.mp hr'
        split at hfin
        · simp [CommandRow.finalised] at hfin
        · rename_i hne
          rw [if_neg hne] at hid
          rw [row_eq_of_id hw.ids hr₁ hr hid, hopen] at hfin
          cases hfin
      | @insert r₀ hnew hp _ _ =>
        exfalso
        rcases List.mem_append.mp hr' with hr' | hr'
        · rw [row_eq_of_id hw.ids hr' hr hid, hopen] at hfin
          cases hfin
        · rw [List.mem_singleton.mp hr'] at hfin
          simp [CommandRow.finalised, hp] at hfin
      | @create r₀ _ hnew hs _ _ _ =>
        exfalso
        rcases List.mem_append.mp hr' with hr' | hr'
        · rw [row_eq_of_id hw.ids hr' hr hid, hopen] at hfin
          cases hfin
        · rw [List.mem_singleton.mp hr'] at hfin
          simp [CommandRow.finalised, hs] at hfin

/-- The promises of command admission in one state of the system. -/
structure Admits (sv : Server) (w : Pool CommandEff CommandReply CommandDb Response) : Prop where
  /-- One row for a key. -/
  one_row : (w.shared.rows.map CommandRow.key).Nodup
  /-- The fences of a command grow from holder to holder, so no two holders share one. -/
  fences : w.shared.grants.Pairwise fun a b => a.commandId = b.commandId → a.fence < b.fence
  /-- The owner of a command is its last holder. -/
  last_holder : ∀ r ∈ w.shared.rows, ∀ o, r.owner = some o →
    ⟨r.commandId, o, r.fence⟩ ∈ w.shared.grants ∧
      ∀ g ∈ w.shared.grants, g.commandId = r.commandId → g.fence ≤ r.fence
  /-- Only the current unexpired holder gives a command its outcome. -/
  holder_finalises : ∀ w', Pool.Step machine w w' → ∀ r ∈ w.shared.rows, ∀ r' ∈ w'.shared.rows,
    r'.commandId = r.commandId → r.finalised = false → r'.finalised = true →
      ∃ i q g, Pool.Act machine i (.sql q) w w' ∧ q.holder = some g ∧ r.HeldNow w.shared.clock g
  /-- A stored response never changes. -/
  response_final : ∀ w', Pool.Run machine w w' → ∀ r ∈ w.shared.rows, r.response.isSome = true →
    ∃ r' ∈ w'.shared.rows, SameRow r r' ∧ r'.response = r.response ∧ r'.status = r.status
  /-- A later request with the same fingerprint is answered with it. -/
  replayed : ∀ w', Pool.Run machine w w' → ∀ r ∈ w.shared.rows, ∀ status body,
    r.response = some (status, body) → ∀ i t, w.threads.length ≤ i → w'.threads[i]? = some t →
      ∀ request p, t.start = admission sv request → prepare sv request = .ok p →
        r.key = (p.deployment, "local", p.key) → p.hash = r.requestSha256 → p.route = r.route →
          (∀ ev ∈ t.events, Answered ev.1 ev.2) → ∀ a, t.rest = .ret a → a = replay r status body
  /-- A request with another fingerprint or route is refused and changes nothing. -/
  conflict : ∀ w', Pool.Run machine w w' → ∀ r ∈ w.shared.rows,
    ∀ i t, w.threads.length ≤ i → w'.threads[i]? = some t →
      ∀ request p, t.start = admission sv request → prepare sv request = .ok p →
        r.key = (p.deployment, "local", p.key) → p.hash ≠ r.requestSha256 ∨ p.route ≠ r.route →
          (∀ e w'', Pool.Act machine i e w' w'' → w''.shared = w'.shared) ∧
            ((∀ ev ∈ t.events, Answered ev.1 ev.2) → ∀ a, t.rest = .ret a → a = keyReused)

/-- A host that knows no regular expression and reads no JSON. -/
def sampleHost : Host where
  sha256 text := text
  floatText _ := "0.0"
  reader _ := .error "expected value"
  regex _ := .error "unsupported"
  regexEscape text := text
  lowercase text := text
  debugStr text := text
  parseUuid := some
  overflowChecks := true

/-- The row of an operator's command. -/
def sampleRow : CommandRow :=
  { commandId := "command", deployment := "test", clientScope := "local", idempotencyKey := "key"
    method := "POST", route := "/sessions", request := .null, requestSha256 := "", sessionId := none
    status := .pending }

end StateDrivenAgent.Commands
