import StateDrivenAgent.Spec.Groups
import StateDrivenAgent.Json.Reading

/-!
# Grouping a history

`interaction_groups` accepts a history exactly if it is made of complete exchanges, and the groups
it finds are these exchanges. `split_history` cuts the list of groups, never a group.
-/

namespace StateDrivenAgent

open Context Segments

variable {host : Host}

/-! ## The checks of a batch -/

theorem filter_ne_empty {o : Option String} {id : String} :
    o.filter (· ≠ "") = some id ↔ o = some id ∧ id ≠ "" := by
  rw [Option.filter_eq_some_iff]
  simp

theorem callIds_cons {index : Nat} {seen : List String} {call : Value} {calls : List Value}
    {ids : List String} : callIds index seen (call :: calls) = .ok ids ↔
      ∃ id ids', callId call = some id ∧ (id ≠ "" ∧ id ∉ seen) ∧
        callIds index (seen ++ [id]) calls = .ok ids' ∧ ids = id :: ids' := by
  rw [callIds]
  cases hid : (callId call).filter (· ≠ "") with
  | none =>
    simp only [reduceCtorEq, false_iff]
    rintro ⟨id, ids', hcall, ⟨hne, -⟩, -⟩
    rw [filter_ne_empty.mpr ⟨hcall, hne⟩] at hid
    cases hid
  | some id =>
    obtain ⟨hcall, hne⟩ := filter_ne_empty.mp hid
    by_cases hseen : id ∈ seen
    · simp only [if_pos hseen, reduceCtorEq, false_iff]
      rintro ⟨id', ids', hcall', ⟨-, hnew⟩, -⟩
      obtain rfl : id = id' := Option.some.inj (hcall.symm.trans hcall')
      exact hnew hseen
    · simp only [if_neg hseen]
      cases hrest : callIds index (seen ++ [id]) calls with
      | error e =>
        constructor
        · intro h
          cases h
        · rintro ⟨id', ids', hcall', -, hok, -⟩
          obtain rfl : id = id' := Option.some.inj (hcall.symm.trans hcall')
          rw [hrest] at hok
          cases hok
      | ok ids' =>
        constructor
        · intro h
          exact ⟨id, ids', hcall, ⟨hne, hseen⟩, hrest, (Except.ok.inj h).symm⟩
        · rintro ⟨id', ids'', hcall', -, hok, rfl⟩
          obtain rfl : id = id' := Option.some.inj (hcall.symm.trans hcall')
          rw [hrest] at hok
          rw [← Except.ok.inj hok]
          rfl

/-- The identities of the calls are accepted if none is missing and all differ. -/
theorem callIds_iff {index : Nat} {seen : List String} {calls : List Value} {ids : List String} :
    callIds index seen calls = .ok ids ↔ calls.map callId = ids.map some ∧ Fresh seen ids := by
  induction calls generalizing seen ids with
  | nil => cases ids <;> simp [callIds, fresh_nil]
  | cons call calls ih =>
    rw [callIds_cons]
    constructor
    · rintro ⟨id, ids', hcall, hnew, hrest, rfl⟩
      obtain ⟨hids, hfresh⟩ := ih.mp hrest
      exact ⟨by rw [List.map_cons, List.map_cons, hcall, hids], fresh_cons.mpr ⟨hnew, hfresh⟩⟩
    · rintro ⟨hids, hfresh⟩
      cases ids with
      | nil => cases hids
      | cons id ids =>
        obtain ⟨hnew, hrest⟩ := fresh_cons.mp hfresh
        rw [List.map_cons, List.map_cons, List.cons.injEq] at hids
        exact ⟨id, ids, hids.1, hnew, ih.mpr ⟨hids.2, hrest⟩, rfl⟩

theorem resultIds_cons {index : Nat} {seen out : List String} {result : Message}
    {results : List Message} : resultIds host index seen (result :: results) = .ok out ↔
      result.role = "tool" ∧ ∃ id, result.toolCallId = some id ∧ (id ≠ "" ∧ id ∉ seen) ∧
        resultIds host index (seen ++ [id]) results = .ok out := by
  rw [resultIds]
  by_cases hrole : result.role = "tool"
  · rw [if_neg (not_not.mpr hrole)]
    cases hid : result.toolCallId.filter (· ≠ "") with
    | none =>
      simp only [reduceCtorEq, false_iff]
      rintro ⟨-, id, hcall, ⟨hne, -⟩, -⟩
      rw [filter_ne_empty.mpr ⟨hcall, hne⟩] at hid
      cases hid
    | some id =>
      obtain ⟨hcall, hne⟩ := filter_ne_empty.mp hid
      by_cases hseen : id ∈ seen
      · simp only [if_pos hseen, reduceCtorEq, false_iff]
        rintro ⟨-, id', hcall', ⟨-, hnew⟩, -⟩
        obtain rfl : id = id' := Option.some.inj (hcall.symm.trans hcall')
        exact hnew hseen
      · simp only [if_neg hseen]
        constructor
        · intro h
          exact ⟨hrole, id, hcall, ⟨hne, hseen⟩, h⟩
        · rintro ⟨-, id', hcall', -, h⟩
          obtain rfl : id = id' := Option.some.inj (hcall.symm.trans hcall')
          exact h
  · simp [hrole]

/-- The results of a batch are accepted if none lacks its identity and all differ. -/
theorem resultIds_iff {index : Nat} {seen out : List String} {results : List Message} :
    resultIds host index seen results = .ok out ↔ (∀ r ∈ results, r.role = "tool") ∧
      ∃ ids, results.map (fun r => r.toolCallId) = ids.map some ∧ Fresh seen ids ∧
        out = seen ++ ids := by
  induction results generalizing seen with
  | nil =>
    rw [resultIds]
    constructor
    · intro h
      refine ⟨by simp, [], rfl, fresh_nil seen, ?_⟩
      rw [List.append_nil, Except.ok.inj h]
    · rintro ⟨-, ids, hids, -, rfl⟩
      rw [List.map_eq_nil_iff.mp hids.symm, List.append_nil]
  | cons result results ih =>
    rw [resultIds_cons]
    constructor
    · rintro ⟨hrole, id, hid, hnew, hrest⟩
      obtain ⟨hroles, ids, hids, hfresh, rfl⟩ := ih.mp hrest
      refine ⟨List.forall_mem_cons.mpr ⟨hrole, hroles⟩, id :: ids, ?_,
        fresh_cons.mpr ⟨hnew, hfresh⟩, by simp⟩
      rw [List.map_cons, List.map_cons, hid, hids]
    · rintro ⟨hroles, ids, hids, hfresh, rfl⟩
      cases ids with
      | nil => cases hids
      | cons id ids =>
        obtain ⟨hnew, hrest⟩ := fresh_cons.mp hfresh
        rw [List.map_cons, List.map_cons, List.cons.injEq] at hids
        refine ⟨hroles result (by simp), id, hids.1, hnew, ih.mpr ⟨?_, ids, hids.2, hrest, ?_⟩⟩
        · intro r hr
          exact hroles r (by simp [hr])
        · simp

/-- What makes the first group. -/
theorem firstGroup_iff {index : Nat} {m : Message} {rest : List Message} {n : Nat} :
    firstGroup host index m rest = .ok n ↔ ¬historyView.isResult m ∧
      ((historyView.calls m = none ∧ n = 1) ∨ ∃ calls ids, historyView.calls m = some calls ∧
        Identified calls ids ∧ Resolves historyView ids (rest.take ids.length) ∧
        n = 1 + ids.length) := by
  show _ ↔ ¬(m.role = "tool") ∧ ((batchCalls m.toMessageBody = none ∧ n = 1) ∨
    ∃ calls ids, batchCalls m.toMessageBody = some calls ∧ _)
  rw [firstGroup]
  by_cases hrole : m.role = "tool"
  · simp [hrole]
  · rw [if_neg hrole]
    cases hcalls : batchCalls m.toMessageBody with
    | none => simp [hrole, eq_comm]
    | some calls =>
      simp only [hrole, not_false_eq_true, reduceCtorEq, false_and, false_or, true_and,
        Option.some.injEq]
      constructor
      · intro h
        obtain ⟨ids, hids, h⟩ := bind_ok h
        obtain ⟨hids, hfresh⟩ := callIds_iff.mp hids
        split at h
        · cases h
        · obtain ⟨results, hresults, h⟩ := bind_ok h
          obtain ⟨hroles, found, hfound, hnew, rfl⟩ := resultIds_iff.mp hresults
          split at h
          · cases h
          · rename_i hsame
            simp only [Bool.or_eq_true, decide_eq_true_eq, List.any_eq_true, not_or, not_not,
              not_exists, not_and] at hsame
            have hresolves : Resolves historyView ids (rest.take ids.length) :=
              (resolves_iff hfresh).mpr ⟨hroles, _, hfound, hnew, hsame⟩
            exact ⟨calls, ids, rfl, ⟨hids, hfresh⟩, hresolves, (Except.ok.inj h).symm⟩
      · rintro ⟨calls', ids, rfl, ⟨hids, hfresh⟩, hresolves, rfl⟩
        have hlen := hresolves.length
        rw [List.length_take] at hlen
        obtain ⟨hroles, found, hfound, hnew, hsame, hall⟩ := (resolves_iff hfresh).mp hresolves
        have hok : resultIds host index [] (rest.take ids.length) = .ok ([] ++ found) :=
          resultIds_iff.mpr ⟨hroles, found, hfound, hnew, rfl⟩
        simp only [callIds_iff.mpr ⟨hids, hfresh⟩, bind, Except.bind]
        rw [if_neg (by omega), hok]
        simpa [hsame] using hall

/-! ## The groups -/

/-- Groups with the positions of their messages. -/
def indexed (index : Nat) : List (List Message) → List HistoryGroup
  | [] => []
  | g :: groups => ⟨g, List.range' index g.length⟩ :: indexed (index + g.length) groups

@[simp] theorem indexed_messages (index : Nat) (groups : List (List Message)) :
    (indexed index groups).map HistoryGroup.messages = groups := by
  induction groups generalizing index with
  | nil => rfl
  | cons g groups ih => rw [indexed, List.map_cons, ih]

theorem flatten_indexed (index : Nat) (groups : List (List Message)) :
    flatten (indexed index groups) = groups.flatten := by
  rw [flatten, List.flatMap_def, indexed_messages]

theorem indexed_indexes {index i : Nat} {groups : List (List Message)} {g : HistoryGroup}
    (h : (indexed index groups)[i]? = some g) :
    g.indexes = List.range' (index + (flatten ((indexed index groups).take i)).length)
      g.messages.length := by
  induction groups generalizing index i with
  | nil => simp [indexed] at h
  | cons g' groups ih =>
    cases i with
    | zero =>
      rw [indexed, List.getElem?_cons_zero, Option.some.injEq] at h
      rw [← h]
      rfl
    | succ i =>
      rw [indexed, List.getElem?_cons_succ] at h
      rw [ih h, indexed, List.take_succ_cons]
      simp only [flatten, List.flatMap_cons, List.length_append]
      rw [Nat.add_assoc]

theorem Exchange.length_pos {ms : List Message} (h : Exchange historyView ms) : 0 < ms.length :=
  List.length_pos_iff.mpr ((Exchange.prefixFree historyView).ne_nil h)

theorem groupsFrom_nil {fuel index : Nat} {found : List HistoryGroup} :
    groupsFrom host fuel index [] = .ok found ↔
      ∃ gs, Cut (Exchange historyView) gs [] ∧ found = indexed index gs := by
  rw [groupsFrom]
  constructor
  · intro h
    exact ⟨[], .nil, (Except.ok.inj h).symm⟩
  · rintro ⟨gs, hgs, rfl⟩
    rw [hgs.eq_nil (Exchange.prefixFree historyView)]
    rfl

theorem calls_ne_nil {m : Message} {calls : List Value} (h : historyView.calls m = some calls) :
    calls ≠ [] := by
  have hfilter := (Option.filter_eq_some_iff.mp h).2
  rintro rfl
  simp at hfilter

/-- The first group is an exchange. -/
theorem exchange_of_firstGroup {index : Nat} {m : Message} {rest : List Message} {n : Nat}
    (h : firstGroup host index m rest = .ok n) :
    ((m :: rest).take n).length = n ∧ Exchange historyView ((m :: rest).take n) := by
  obtain ⟨hm, ⟨hcalls, rfl⟩ | ⟨calls, ids, hcalls, hids, hresolves, rfl⟩⟩ := firstGroup_iff.mp h
  · exact ⟨by simp, .single hm hcalls⟩
  · rw [Nat.add_comm, List.take_succ_cons]
    refine ⟨by rw [List.length_cons, hresolves.length], ?_⟩
    exact .batch hm hcalls (calls_ne_nil hcalls) hids hresolves

/-- An exchange is the first group. -/
theorem firstGroup_of_exchange {index : Nat} {m : Message} {g tail : List Message}
    (h : Exchange historyView (m :: g)) :
    firstGroup host index m (g ++ tail) = .ok (m :: g).length := by
  rw [firstGroup_iff]
  cases h with
  | single hr hc => exact ⟨hr, .inl ⟨hc, rfl⟩⟩
  | @batch _ calls ids _ hm hc hne hi hr =>
    refine ⟨hm, .inr ⟨calls, ids, hc, hi, ?_, ?_⟩⟩
    · rw [← hr.length, List.take_left]
      exact hr
    · rw [List.length_cons, hr.length, Nat.add_comm]

/-- The loop finds exactly the exchanges the list is made of. -/
theorem groupsFrom_iff {fuel index : Nat} {ms : List Message} {found : List HistoryGroup}
    (hf : ms.length ≤ fuel) : groupsFrom host fuel index ms = .ok found ↔
      ∃ gs, Cut (Exchange historyView) gs ms ∧ found = indexed index gs := by
  induction fuel generalizing index ms found with
  | zero =>
    obtain rfl : ms = [] := List.length_eq_zero_iff.mp (by omega)
    exact groupsFrom_nil
  | succ fuel ih =>
    cases ms with
    | nil => exact groupsFrom_nil
    | cons m rest =>
      rw [groupsFrom]
      constructor
      · intro h
        obtain ⟨n, hn, h⟩ := bind_ok h
        obtain ⟨groups, hgroups, h⟩ := bind_ok h
        obtain ⟨hlen, hfirst⟩ := exchange_of_firstGroup hn
        have hpos : 0 < n := hlen ▸ hfirst.length_pos
        have hrest : ((m :: rest).drop n).length ≤ fuel := by
          rw [List.length_drop]
          omega
        obtain ⟨gs, hgs, rfl⟩ := (ih hrest).mp hgroups
        refine ⟨(m :: rest).take n :: gs, ?_, ?_⟩
        · have hcut := hgs.cons hfirst
          rwa [List.take_append_drop] at hcut
        · rw [indexed, hlen]
          exact (Except.ok.inj h).symm
      · rintro ⟨gs, hgs, rfl⟩
        cases gs with
        | nil => cases hgs.whole
        | cons g gs =>
          cases g with
          | nil => exact absurd rfl ((Exchange.prefixFree historyView).ne_nil hgs.head)
          | cons m' g =>
            have hwhole : m' = m ∧ g ++ gs.flatten = rest := by simpa using hgs.whole
            obtain ⟨rfl, rfl⟩ := hwhole
            have htail : Cut (Exchange historyView) gs gs.flatten :=
              ⟨rfl, fun g' hg' => hgs.each g' (by simp [hg'])⟩
            have hrest : gs.flatten.length ≤ fuel := by
              rw [List.length_cons, List.length_append] at hf
              omega
            have hnext := (@ih (index + (m' :: g).length) _ _ hrest).mpr ⟨gs, htail, rfl⟩
            rw [firstGroup_of_exchange hgs.head]
            show (groupsFrom host fuel _ (((m' :: g) ++ gs.flatten).drop (m' :: g).length) >>= _) = _
            rw [List.drop_left, hnext]
            show Except.ok (_ :: _) = _
            rw [indexed, ← List.cons_append, List.take_left]

theorem interactionGroups_iff {ms : List Message} {found : List HistoryGroup} :
    interactionGroups host ms = .ok found ↔
      ∃ gs, Cut (Exchange historyView) gs ms ∧ found = indexed 0 gs :=
  groupsFrom_iff (Nat.le_refl _)

theorem interactionGroups_ok_iff {ms : List Message} :
    (∃ found, interactionGroups host ms = .ok found) ↔ ∃ gs, Cut (Exchange historyView) gs ms := by
  constructor
  · rintro ⟨found, h⟩
    obtain ⟨gs, hgs, -⟩ := interactionGroups_iff.mp h
    exact ⟨gs, hgs⟩
  · rintro ⟨gs, hgs⟩
    exact ⟨indexed 0 gs, interactionGroups_iff.mpr ⟨gs, hgs, rfl⟩⟩

/-- A well-formed history is accepted, and what is left of its groups is well formed. -/
theorem interactionGroups_of_grouped (host : Host) {ms : List Message}
    (h : Grouped (ms.map Message.toMessageBody)) :
    ∃ found, interactionGroups host ms = .ok found ∧
      ∀ k, Grouped ((flatten (found.drop k)).map Message.toMessageBody) := by
  obtain ⟨groups, hgroups, hkind⟩ := h.cut
  obtain ⟨gs, hgs, rfl⟩ := hgroups.of_map fun _ => (Exchange.map_iff historyView_agrees).mp
  refine ⟨indexed 0 gs, interactionGroups_iff.mpr ⟨gs, hgs, rfl⟩, fun k =>
    ⟨(gs.drop k).map (List.map Message.toMessageBody), ?_, ?_⟩⟩
  · rw [flatten, List.flatMap_def, List.map_drop, indexed_messages, List.map_flatten]
  · intro g hg
    obtain ⟨g', hg', rfl⟩ := List.mem_map.mp hg
    exact hkind _ (List.mem_map_of_mem (List.drop_subset _ _ hg'))

/-! ## Splitting -/

/-- How many messages a group holds. -/
def groupSize (g : HistoryGroup) : Nat := g.messages.length

theorem sum_groupSize (groups : List HistoryGroup) :
    (groups.map groupSize).sum = (flatten groups).length := by
  induction groups with
  | nil => rfl
  | cons g groups ih =>
    rw [List.map_cons, List.sum_cons, ih]
    exact (List.length_append ..).symm

/-- The walk from the end stops at the shortest end that is large enough: before every step, the
groups already taken are too few and so is every shorter end. -/
theorem back_shortest {minimum : Nat} {groups : List HistoryGroup} {b count : Nat}
    (hb : b ≤ groups.length) (hcount : count = ((groups.drop b).map groupSize).sum)
    (hmin : ∀ short, short <:+ groups.drop b → short ≠ groups.drop b →
      (short.map groupSize).sum < minimum) :
    Shortest groupSize minimum (groups.take (boundary.back minimum groups b count))
      (groups.drop (boundary.back minimum groups b count)) := by
  induction b generalizing count with
  | zero => exact ⟨.inl (by rw [boundary.back, List.take_zero]), by simpa [boundary.back] using hmin⟩
  | succ b ih =>
    rw [boundary.back]
    split
    · rename_i hlack
      have hget : groups[b]? = some groups[b] := List.getElem?_eq_getElem (by omega)
      have hdrop : groups.drop b = groups[b] :: groups.drop (b + 1) :=
        List.drop_eq_getElem_cons (by omega)
      rw [hget]
      refine ih (by omega) ?_ ?_
      · rw [hdrop, List.map_cons, List.sum_cons, hcount, Nat.add_comm]
        rfl
      · rw [hdrop]
        exact Shortest.minimal_cons hmin (hcount ▸ hlack)
    · exact ⟨.inr (by omega), hmin⟩

theorem boundary_shortest (minimum : Nat) (groups : List HistoryGroup) :
    Shortest groupSize minimum (groups.take (boundary minimum groups))
      (groups.drop (boundary minimum groups)) := by
  refine back_shortest (Nat.le_refl _) (by rw [List.drop_length]; rfl) ?_
  intro short hshort hne
  rw [List.drop_length] at hshort hne
  exact absurd (List.suffix_nil.mp hshort) hne

/-- A history split in two: whole exchanges, indexed as they follow one another, and of those the
fewest in the second part that hold `minimum` messages. -/
structure HistorySplit (ms : List Message) (minimum : Nat) (old tail : List HistoryGroup) :
    Prop where
  whole : flatten old ++ flatten tail = ms
  exchanges : ∀ g ∈ old ++ tail, Exchange historyView g.messages
  indexes : ∀ i g, (old ++ tail)[i]? = some g →
    g.indexes = List.range' (flatten ((old ++ tail).take i)).length g.messages.length
  shortest : Shortest groupSize minimum old tail

theorem splitHistory_iff {ms : List Message} {minimum : Nat} {parts : _ × _} :
    splitHistory host ms minimum = .ok parts ↔ ∃ gs, Cut (Exchange historyView) gs ms ∧
      parts = ((indexed 0 gs).take (boundary minimum (indexed 0 gs)),
        (indexed 0 gs).drop (boundary minimum (indexed 0 gs))) := by
  constructor
  · intro h
    obtain ⟨found, hfound, h⟩ := bind_ok h
    obtain ⟨gs, hgs, rfl⟩ := interactionGroups_iff.mp hfound
    exact ⟨gs, hgs, (Except.ok.inj h).symm⟩
  · rintro ⟨gs, hgs, rfl⟩
    rw [splitHistory, interactionGroups_iff.mpr ⟨gs, hgs, rfl⟩]
    rfl

theorem numbered_split {ms : List Message} {gs : List (List Message)} (minimum : Nat)
    (h : Cut (Exchange historyView) gs ms) :
    HistorySplit ms minimum ((indexed 0 gs).take (boundary minimum (indexed 0 gs)))
      ((indexed 0 gs).drop (boundary minimum (indexed 0 gs))) := by
  have hall : ∀ b, (indexed 0 gs).take b ++ (indexed 0 gs).drop b = indexed 0 gs :=
    fun b => List.take_append_drop b _
  refine ⟨?_, ?_, ?_, boundary_shortest minimum _⟩
  · rw [flatten, flatten, ← List.flatMap_append, hall, ← flatten, flatten_indexed, h.whole]
  · intro g hg
    rw [hall] at hg
    have hmem : g.messages ∈ gs := by
      rw [← indexed_messages 0 gs]
      exact List.mem_map_of_mem hg
    exact h.each _ hmem
  · intro i g hg
    rw [hall] at hg ⊢
    rw [indexed_indexes hg, Nat.zero_add]

/-- Grouping and splitting are exact. A history is grouped if it is made of complete exchanges, in
the only way there is; it is split into whole exchanges, as few as possible in the second part. -/
theorem interactionGroups_splitHistory_exact (host : Host) (ms : List Message) :
    ((∃ found, interactionGroups host ms = .ok found) ↔ ∃ gs, Cut (Exchange historyView) gs ms) ∧
    (∀ gs gs', Cut (Exchange historyView) gs ms → Cut (Exchange historyView) gs' ms → gs = gs') ∧
    (∀ found, interactionGroups host ms = .ok found →
      Cut (Exchange historyView) (found.map HistoryGroup.messages) ms) ∧
    ∀ minimum, ((∃ parts, splitHistory host ms minimum = .ok parts) ↔
        ∃ gs, Cut (Exchange historyView) gs ms) ∧
      ∀ old tail, splitHistory host ms minimum = .ok (old, tail) →
        HistorySplit ms minimum old tail := by
  refine ⟨interactionGroups_ok_iff, ?_, ?_, fun minimum => ⟨?_, ?_⟩⟩
  · intro gs gs' h h'
    exact h.unique (Exchange.prefixFree historyView) h'
  · intro found h
    obtain ⟨gs, hgs, rfl⟩ := interactionGroups_iff.mp h
    rwa [indexed_messages]
  · constructor
    · rintro ⟨parts, h⟩
      obtain ⟨gs, hgs, -⟩ := splitHistory_iff.mp h
      exact ⟨gs, hgs⟩
    · rintro ⟨gs, hgs⟩
      exact ⟨_, splitHistory_iff.mpr ⟨gs, hgs, rfl⟩⟩
  · intro old tail h
    obtain ⟨gs, hgs, hparts⟩ := splitHistory_iff.mp h
    obtain ⟨rfl, rfl⟩ := Prod.mk.inj hparts
    exact numbered_split minimum hgs

/-- A batch of two calls. -/
def sampleBatch : Message where
  role := "assistant"
  content := some "Looking both up."
  toolCalls := some (.arr [.obj [("id", .str "a")], .obj [("id", .str "b")]])

/-- A question, a batch of two calls and their results, the last one first. -/
def sampleHistory : List Message :=
  [{ role := "user", content := some "Go on." }, sampleBatch,
    { role := "tool", content := some "2", toolCallId := some "b" },
    { role := "tool", content := some "1", toolCallId := some "a" }]

/-- One message would do, but the batch stays whole. -/
theorem splitHistory_sample : HistorySplit sampleHistory 1 [⟨sampleHistory.take 1, [0]⟩]
    [⟨sampleHistory.drop 1, [1, 2, 3]⟩] :=
  ((interactionGroups_splitHistory_exact exactHost sampleHistory).2.2.2 1).2 _ _ rfl

end StateDrivenAgent
