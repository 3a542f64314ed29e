import StateDrivenAgent.Verify.Grouping

/-!
# One call at a time

`single_call_wire` accepts what `interaction_groups` accepts and writes each batch as its calls one
after another, each followed by its result. Nothing is lost or doubled on the way, the text of the
batch stays with its first call, and a history that has this form already is left alone.
-/

namespace StateDrivenAgent

open Context Segments

/-! ## The checks of a batch -/

theorem getD_empty {o : Option String} (h : ¬o.getD "" = "") : o = some (o.getD "") := by
  cases o with
  | none => exact absurd rfl h
  | some id => rfl

theorem wireIds_iff {seen out : List String} {calls : List Value} :
    Engine.wireIds seen calls = .ok out ↔
      ∃ ids, calls.map callId = ids.map some ∧ Fresh seen ids ∧ out = seen ++ ids := by
  induction calls generalizing seen with
  | nil =>
    rw [Engine.wireIds]
    constructor
    · intro h
      exact ⟨[], rfl, fresh_nil seen, by rw [List.append_nil, Except.ok.inj h]⟩
    · rintro ⟨ids, hids, -, rfl⟩
      rw [List.map_eq_nil_iff.mp hids.symm, List.append_nil]
  | cons call calls ih =>
    rw [Engine.wireIds]
    constructor
    · intro h
      split at h
      · cases h
      · rename_i hnew
        rw [not_or] at hnew
        obtain ⟨ids, hids, hfresh, rfl⟩ := ih.mp h
        refine ⟨(callId call).getD "" :: ids, ?_, fresh_cons.mpr ⟨hnew, hfresh⟩, by simp⟩
        rw [List.map_cons, List.map_cons, hids, ← getD_empty hnew.1]
    · rintro ⟨ids, hids, hfresh, rfl⟩
      cases ids with
      | nil => cases hids
      | cons id ids =>
        obtain ⟨hnew, hrest⟩ := fresh_cons.mp hfresh
        rw [List.map_cons, List.map_cons, List.cons.injEq] at hids
        rw [hids.1, Option.getD_some, if_neg (not_or.mpr hnew)]
        exact ih.mpr ⟨ids, hids.2, hrest, by simp⟩

theorem wireResults_iff {found out : List (String × Value)} {results : List Value} :
    Engine.wireResults found results = .ok out ↔ (∀ r ∈ results, wireView.isResult r) ∧
      ∃ ids, results.map wireView.answers = ids.map some ∧ Fresh (found.map Prod.fst) ids ∧
        out = found ++ ids.zip results := by
  induction results generalizing found with
  | nil =>
    rw [Engine.wireResults]
    constructor
    · intro h
      refine ⟨by simp, [], rfl, fresh_nil _, ?_⟩
      rw [List.zip_nil_left, List.append_nil, Except.ok.inj h]
    · rintro ⟨-, ids, hids, -, rfl⟩
      rw [List.zip_nil_right, List.append_nil]
  | cons result results ih =>
    rw [Engine.wireResults]
    dsimp only
    constructor
    · intro h
      split at h
      · cases h
      · rename_i hrole
        split at h
        · cases h
        · rename_i hnew
          rw [not_or, lookup_isSome] at hnew
          obtain ⟨hroles, ids, hids, hfresh, rfl⟩ := ih.mp h
          rw [List.map_append] at hfresh
          refine ⟨List.forall_mem_cons.mpr ⟨not_not.mp hrole, hroles⟩,
            (Engine.setting result "tool_call_id").getD "" :: ids, ?_,
            fresh_cons.mpr ⟨hnew, hfresh⟩, by simp⟩
          rw [List.map_cons, List.map_cons, hids, ← getD_empty hnew.1]
          rfl
    · rintro ⟨hroles, ids, hids, hfresh, rfl⟩
      cases ids with
      | nil => cases hids
      | cons id ids =>
        obtain ⟨hnew, hrest⟩ := fresh_cons.mp hfresh
        rw [List.map_cons, List.map_cons, List.cons.injEq] at hids
        have hid : Engine.setting result "tool_call_id" = some id := hids.1
        have hrole : Engine.setting result "role" = some "tool" := hroles result (by simp)
        rw [if_neg (not_not.mpr hrole), hid, Option.getD_some,
          if_neg (by rw [not_or, lookup_isSome]; exact hnew)]
        refine ih.mpr ⟨fun r hr => hroles r (by simp [hr]), ids, hids.2, ?_, by simp⟩
        rw [List.map_append]
        exact hrest

/-! ## The rearrangement -/

/-- The batch `m` with this call alone; the text stays with the first call. -/
structure Carries (m call : Value) (first : Bool) (a : Value) : Prop where
  call : a.get "tool_calls" = some (.arr [call])
  text : a.get "content" = if first then m.get "content" else none
  rest : ∀ k, k ≠ "tool_calls" → k ≠ "content" → a.get k = m.get k

/-- The calls of the batch `m` in order, each with its result. -/
inductive Paired (m : Value) (results : List Value) : Bool → List Value → List Value → Prop
  | nil {first : Bool} : Paired m results first [] []
  | cons {first : Bool} {call a r : Value} {calls part : List Value}
      (ha : Carries m call first a) (hr : r ∈ results) (hid : wireView.answers r = callId call)
      (h : Paired m results false calls part) :
      Paired m results first (call :: calls) (a :: r :: part)

/-- An exchange and its form with one call at a time. -/
inductive Separated : List Value → List Value → Prop
  | single {m : Value} (hc : Engine.wireCalls m = none) : Separated [m] [m]
  | batch {m : Value} {calls results part : List Value} (hc : Engine.wireCalls m = some calls)
      (h : Paired m results true calls part) : Separated (m :: results) part

/-- Each property of a message on the wire is there once. -/
theorem wireMessage_keys (m : MessageBody) :
    ∃ fields, wireMessage m = .obj fields ∧ (fields.map Prod.fst).Nodup := by
  refine ⟨_, rfl, ?_⟩
  cases m.content <;> cases m.name <;> cases m.toolCallId <;>
    cases (m.toolCalls.filter fun v => !v.isNull && !v.asArray.any List.isEmpty) <;>
      simp

/-- A batch is an object that names its calls. -/
theorem get_toolCalls_of_wireCalls {m : Value} {calls : List Value}
    (h : Engine.wireCalls m = some calls) :
    Engine.setting m "role" = some "assistant" ∧ m.get "tool_calls" = some (.arr calls) ∧
      calls ≠ [] := by
  unfold Engine.wireCalls at h
  split at h
  · rename_i hrole
    obtain ⟨hcalls, hne⟩ := Option.filter_eq_some_iff.mp h
    obtain ⟨v, hv, harr⟩ := Option.bind_eq_some_iff.mp hcalls
    cases v with
    | arr items =>
      obtain rfl : items = calls := Option.some.inj harr
      exact ⟨hrole, hv, by simpa using hne⟩
    | _ => cases harr
  · cases h

/-- Writing a single call into a batch keeps everything but the calls, and the text if asked. -/
theorem singleCall_carries {fields : List (String × Value)} {calls : List Value} {call : Value}
    (hnodup : (fields.map Prod.fst).Nodup) (first : Bool)
    (hcalls : lookup "tool_calls" fields = some (.arr calls)) :
    Carries (.obj fields) call first (Engine.singleCall (.obj fields) call first) := by
  have hmem : "tool_calls" ∈ fields.map Prod.fst := by
    rw [← lookup_isSome_iff, hcalls]
    rfl
  have hkeys := keys_insertField (v := Value.arr [call]) hmem
  have hnodup' : ((insertField "tool_calls" (Value.arr [call]) fields).map Prod.fst).Nodup := by
    rw [hkeys]
    exact hnodup
  cases first with
  | true =>
    refine ⟨lookup_insertField_self .., ?_, fun k hk _ => ?_⟩
    · exact lookup_insertField_of_ne _ _ _ _ (by simp)
    · exact lookup_insertField_of_ne _ _ _ _ (Ne.symm hk)
  | false =>
    refine ⟨?_, lookup_removeField_self hnodup', fun k hk hk' => ?_⟩
    · exact (lookup_removeField hnodup' (by simp)).trans (lookup_insertField_self ..)
    · exact (lookup_removeField hnodup' (Ne.symm hk')).trans
        (lookup_insertField_of_ne _ _ _ _ (Ne.symm hk))

theorem lookup_zip {ids : List String} {results : List Value} {id : String}
    (hids : results.map wireView.answers = ids.map some) (hid : id ∈ ids) :
    ∃ r ∈ results, lookup id (ids.zip results) = some r ∧ wireView.answers r = some id := by
  induction ids generalizing results with
  | nil => cases hid
  | cons id' ids ih =>
    cases results with
    | nil => cases hids
    | cons r results =>
      rw [List.map_cons, List.map_cons, List.cons.injEq] at hids
      rw [List.zip_cons_cons, lookup_cons]
      by_cases heq : id' = id
      · exact ⟨r, by simp, by rw [if_pos heq], heq ▸ hids.1⟩
      · have hmem : id ∈ ids := by
          rcases List.mem_cons.mp hid with rfl | hmem
          · exact absurd rfl heq
          · exact hmem
        obtain ⟨r', hr', hlookup, hanswers⟩ := ih hids.2 hmem
        exact ⟨r', by simp [hr'], by rw [if_neg heq, hlookup], hanswers⟩

/-- The rearrangement of a batch whose calls all have a result. -/
theorem pairCalls_paired {fields : List (String × Value)} {all : List Value}
    (hnodup : (fields.map Prod.fst).Nodup)
    (hcalls : lookup "tool_calls" fields = some (.arr all))
    {found : List String} {results : List Value}
    (hfound : results.map wireView.answers = found.map some) {calls : List Value}
    {ids : List String} (hids : calls.map callId = ids.map some) (hall : ∀ id ∈ ids, id ∈ found)
    (first : Bool) : Paired (.obj fields) results first calls
      (Engine.pairCalls (.obj fields) (found.zip results) first calls) := by
  induction calls generalizing ids first with
  | nil => exact .nil
  | cons call calls ih =>
    cases ids with
    | nil => cases hids
    | cons id ids =>
      rw [List.map_cons, List.map_cons, List.cons.injEq] at hids
      obtain ⟨r, hr, hlookup, hanswers⟩ := lookup_zip hfound (hall id (by simp))
      have hrest := ih hids.2 (fun id' hid' => hall id' (by simp [hid'])) false
      rw [Engine.pairCalls, hids.1, Option.getD_some, hlookup, Option.getD_some]
      exact .cons (singleCall_carries hnodup first hcalls) hr (hanswers.trans hids.1.symm) hrest

/-! ## The loop -/

/-- What the loop writes for an exchange. -/
def separated : List Value → List Value
  | [] => []
  | m :: results => (Engine.wireCalls m).elim [m] fun calls =>
    Engine.pairCalls m (results.map fun r => ((wireView.answers r).getD "", r)) true calls

theorem zip_answers {ids : List String} {results : List Value}
    (h : results.map wireView.answers = ids.map some) :
    ids.zip results = results.map fun r => ((wireView.answers r).getD "", r) := by
  induction ids generalizing results with
  | nil => rw [List.map_eq_nil_iff.mp h]; rfl
  | cons id ids ih =>
    cases results with
    | nil => cases h
    | cons r results =>
      rw [List.map_cons, List.map_cons, List.cons.injEq] at h
      rw [List.zip_cons_cons, List.map_cons, ih h.2, h.1, Option.getD_some]

/-- The last check of a batch: as many results as calls, and one for each of them. -/
theorem mismatch_iff {found ids : List String} {results : List Value}
    (h : results.map wireView.answers = found.map some) :
    (decide ((found.zip results).length ≠ ids.length) ||
        ids.any fun id => (lookup id (found.zip results)).isNone) = true ↔
      ¬(found.length = ids.length ∧ ∀ id ∈ ids, id ∈ found) := by
  have hlen : found.length = results.length := by
    have hmaps := congrArg List.length h
    simpa using hmaps.symm
  have hkeys : (found.zip results).map Prod.fst = found := List.map_fst_zip (by omega)
  have hnone : ∀ id, (lookup id (found.zip results)).isNone = true ↔ id ∉ found := by
    intro id
    rw [Option.isNone_iff_eq_none, lookup_eq_none, hkeys]
  rw [← List.length_map (f := Prod.fst), hkeys, Bool.or_eq_true, List.any_eq_true,
    decide_eq_true_eq, not_and_or]
  refine or_congr Iff.rfl ?_
  constructor
  · rintro ⟨id, hid, hmissing⟩ hall
    exact (hnone id).mp hmissing (hall id hid)
  · intro hmissing
    rw [not_forall] at hmissing
    obtain ⟨id, hmissing⟩ := hmissing
    rw [Classical.not_imp] at hmissing
    exact ⟨id, hmissing.1, (hnone id).mpr hmissing.2⟩

/-- A round for a batch. -/
theorem singleCallWire_batch {fuel : Nat} {m : Value} {calls rest out : List Value}
    (hc : Engine.wireCalls m = some calls) :
    Engine.singleCallWire (fuel + 1) (m :: rest) = .ok out ↔
      ∃ ids, Identified calls ids ∧ Resolves wireView ids (rest.take ids.length) ∧
        ∃ output, Engine.singleCallWire fuel (rest.drop ids.length) = .ok output ∧
          out = separated (m :: rest.take ids.length) ++ output := by
  rw [Engine.singleCallWire, hc]
  dsimp only
  constructor
  · intro h
    obtain ⟨ids, hids, h⟩ := bind_ok h
    obtain ⟨_, hids, hfresh, rfl⟩ := wireIds_iff.mp hids
    have hi : Identified calls ids := ⟨hids, hfresh⟩
    rw [hi.length] at h
    split at h
    · cases h
    · obtain ⟨results, hresults, h⟩ := bind_ok h
      obtain ⟨hroles, found, hfound, hnew, rfl⟩ := wireResults_iff.mp hresults
      split at h
      · cases h
      · rename_i hlong hsame
        have hmatch := not_not.mp ((mismatch_iff hfound).not.mp hsame)
        obtain ⟨output, houtput, h⟩ := bind_ok h
        refine ⟨ids, hi, (resolves_iff hfresh).mpr ⟨hroles, found, hfound, hnew, hmatch⟩, output,
          houtput, ?_⟩
        rw [separated, hc, Option.elim_some, ← zip_answers hfound]
        exact (Except.ok.inj h).symm
  · rintro ⟨ids, hi, hresolves, output, houtput, rfl⟩
    have hlen := hresolves.length
    rw [List.length_take] at hlen
    obtain ⟨hroles, found, hfound, hnew, hmatch⟩ := (resolves_iff hi.fresh).mp hresolves
    have hids : Engine.wireIds [] calls = .ok ids := wireIds_iff.mpr ⟨ids, hi.calls, hi.fresh, rfl⟩
    have hresults : Engine.wireResults [] (rest.take ids.length) =
        .ok (found.zip (rest.take ids.length)) :=
      wireResults_iff.mpr ⟨hroles, found, hfound, hnew, rfl⟩
    rw [hids, hi.length]
    simp only [bind, Except.bind]
    rw [if_neg (by omega), hresults]
    dsimp only
    rw [if_neg ((mismatch_iff hfound).not.mpr (not_not.mpr hmatch)), houtput, separated, hc,
      Option.elim_some, ← zip_answers hfound]
    rfl

/-- A round for a message without calls. -/
theorem singleCallWire_single {fuel : Nat} {m : Value} {rest out : List Value}
    (hc : Engine.wireCalls m = none) :
    Engine.singleCallWire (fuel + 1) (m :: rest) = .ok out ↔ ¬wireView.isResult m ∧
      ∃ output, Engine.singleCallWire fuel rest = .ok output ∧ out = m :: output := by
  rw [Engine.singleCallWire, hc]
  dsimp only
  show _ ↔ ¬(Engine.setting m "role" = some "tool") ∧ _
  constructor
  · intro h
    split at h
    · cases h
    · rename_i hrole
      obtain ⟨output, houtput, h⟩ := bind_ok h
      exact ⟨hrole, output, houtput, (Except.ok.inj h).symm⟩
  · rintro ⟨hrole, output, houtput, rfl⟩
    rw [if_neg hrole, houtput]
    rfl

theorem not_isResult_of_wireCalls {m : Value} {calls : List Value}
    (h : Engine.wireCalls m = some calls) : ¬wireView.isResult m := by
  intro hrole
  have hassistant := (get_toolCalls_of_wireCalls h).1
  rw [show Engine.setting m "role" = some "tool" from hrole] at hassistant
  simp at hassistant

theorem singleCallWire_nil {fuel : Nat} {out : List Value} :
    Engine.singleCallWire fuel [] = .ok out ↔
      ∃ gs, Cut (Exchange wireView) gs [] ∧ out = gs.flatMap separated := by
  rw [Engine.singleCallWire]
  constructor
  · intro h
    exact ⟨[], .nil, (Except.ok.inj h).symm⟩
  · rintro ⟨gs, hgs, rfl⟩
    rw [hgs.eq_nil (Exchange.prefixFree wireView)]
    rfl

/-- The loop accepts exactly what is made of exchanges, and separates each of them. -/
theorem singleCallWire_iff {fuel : Nat} {ms out : List Value} (hf : ms.length ≤ fuel) :
    Engine.singleCallWire fuel ms = .ok out ↔
      ∃ gs, Cut (Exchange wireView) gs ms ∧ out = gs.flatMap separated := by
  induction fuel generalizing ms out with
  | zero =>
    obtain rfl : ms = [] := List.length_eq_zero_iff.mp (by omega)
    exact singleCallWire_nil
  | succ fuel ih =>
    cases ms with
    | nil => exact singleCallWire_nil
    | cons m rest =>
      rw [List.length_cons] at hf
      cases hc : Engine.wireCalls m with
      | none =>
        rw [singleCallWire_single hc]
        constructor
        · rintro ⟨hm, output, houtput, rfl⟩
          obtain ⟨gs, hgs, rfl⟩ := (ih (by omega)).mp houtput
          have hfirst : separated [m] = [m] := by rw [separated, hc, Option.elim_none]
          refine ⟨[m] :: gs, hgs.cons (.single hm hc), ?_⟩
          rw [List.flatMap_cons, hfirst]
          rfl
        · rintro ⟨gs, hgs, rfl⟩
          have hm : ¬wireView.isResult m := fun hr => not_cut_result hr ⟨gs, hgs⟩
          obtain ⟨gs', hgs'⟩ := (exists_cut_single hm hc).mp ⟨gs, hgs⟩
          have hall := hgs'.cons (Exchange.single hm hc)
          obtain rfl := hgs.unique (Exchange.prefixFree wireView) hall
          refine ⟨hm, gs'.flatMap separated, (ih (by omega)).mpr ⟨gs', hgs', rfl⟩, ?_⟩
          rw [List.flatMap_cons, separated, hc, Option.elim_none]
          rfl
      | some calls =>
        have hm := not_isResult_of_wireCalls hc
        have hne := (get_toolCalls_of_wireCalls hc).2.2
        have hrest : ∀ n, (rest.drop n).length ≤ fuel := by
          intro n
          rw [List.length_drop]
          omega
        rw [singleCallWire_batch hc]
        constructor
        · rintro ⟨ids, hi, hresolves, output, houtput, rfl⟩
          obtain ⟨gs, hgs, rfl⟩ := (ih (hrest _)).mp houtput
          refine ⟨(m :: rest.take ids.length) :: gs, ?_, rfl⟩
          have hcut := hgs.cons (.batch hm hc hne hi hresolves)
          rwa [List.cons_append, List.take_append_drop] at hcut
        · rintro ⟨gs, hgs, rfl⟩
          obtain ⟨ids, hi, hresolves, gs', hgs'⟩ := (exists_cut_batch hm hc hne).mp ⟨gs, hgs⟩
          have hcut := hgs'.cons (.batch hm hc hne hi hresolves)
          rw [List.cons_append, List.take_append_drop] at hcut
          obtain rfl := hgs.unique (Exchange.prefixFree wireView) hcut
          exact ⟨ids, hi, hresolves, _, (ih (hrest _)).mpr ⟨gs', hgs', rfl⟩, rfl⟩

/-- What the loop writes for an exchange on the wire is that exchange with one call at a time. -/
theorem separated_of_exchange {g : List Value} (hg : Exchange wireView g)
    (hkeys : ∀ m ∈ g, ∃ fields, m = .obj fields ∧ (fields.map Prod.fst).Nodup) :
    Separated g (separated g) := by
  cases hg with
  | @single m hr hc =>
    have hc' : Engine.wireCalls m = none := hc
    rw [separated, hc', Option.elim_none]
    exact .single hc
  | @batch m calls ids results hm hc hne hi hr =>
    have hc' : Engine.wireCalls m = some calls := hc
    obtain ⟨fields, rfl, hnodup⟩ := hkeys m (by simp)
    obtain ⟨-, found, hfound, -, -, hall⟩ := (resolves_iff hi.fresh).mp hr
    have hcalls := (get_toolCalls_of_wireCalls hc').2.1
    rw [separated, hc', Option.elim_some, ← zip_answers hfound]
    exact .batch hc (pairCalls_paired hnodup hcalls hfound hi.calls hall true)

/-- A well-formed history can be written with one call at a time. -/
theorem singleCallWire_of_grouped {ms : List MessageBody} (h : Grouped ms) :
    ∃ out, Engine.singleCallWire ms.length (ms.map wireMessage) = .ok out := by
  obtain ⟨groups, hgroups, -⟩ := h.cut
  obtain ⟨gs, hgs⟩ := (exists_cut_map_iff bodyView_agrees).mpr ⟨groups, hgroups⟩
  exact ⟨_, (singleCallWire_iff (List.length_map ..).le).mpr ⟨gs, hgs, rfl⟩⟩

/-! ## What the rearrangement keeps -/

/-- The calls a message of a request makes. -/
def callsOf (m : Value) : List Value := (Engine.wireCalls m).getD []

def opens (m : Value) : Bool := (Engine.wireCalls m).isSome

def resolves (m : Value) : Bool := Engine.setting m "role" = some "tool"

theorem resolves_eq_true {m : Value} : resolves m = true ↔ wireView.isResult m :=
  decide_eq_true_iff

/-- `out` has the messages of `ms` with one call at a time: each call alone and followed by its
result, calls and results in the order of the calls, none lost or doubled, every text of a batch
once, and every other message as it is and where it was among the others. -/
structure Faithful (ms out : List Value) : Prop where
  paired : ∀ (i : Nat) a calls, out[i]? = some a → Engine.wireCalls a = some calls →
    ∃ call r, calls = [call] ∧ out[i + 1]? = some r ∧ resolves r ∧
      wireView.answers r = callId call
  calls : out.flatMap callsOf = ms.flatMap callsOf
  order : (out.filter resolves).map wireView.answers = (out.flatMap callsOf).map callId
  results : (out.filter resolves).Perm (ms.filter resolves)
  text : (out.filter opens).filterMap (·.get "content") =
    (ms.filter opens).filterMap (·.get "content")
  others : (out.filter fun m => !resolves m && !opens m) =
    ms.filter fun m => !resolves m && !opens m

theorem Faithful.nil : Faithful [] [] := ⟨by simp, rfl, rfl, .refl _, rfl, rfl⟩

theorem Faithful.append {ms ms' out out' : List Value} (h : Faithful ms out)
    (h' : Faithful ms' out') : Faithful (ms ++ ms') (out ++ out') := by
  refine ⟨?_, ?_, ?_, ?_, ?_, ?_⟩
  · intro i a calls hi hc
    by_cases hlt : i < out.length
    · rw [List.getElem?_append_left hlt] at hi
      obtain ⟨call, r, hcall, hr, hrest⟩ := h.paired i a calls hi hc
      have hlt' : i + 1 < out.length := (List.getElem?_eq_some_iff.mp hr).1
      exact ⟨call, r, hcall, by rw [List.getElem?_append_left hlt', hr], hrest⟩
    · rw [List.getElem?_append_right (by omega)] at hi
      obtain ⟨call, r, hcall, hr, hrest⟩ := h'.paired _ a calls hi hc
      refine ⟨call, r, hcall, ?_, hrest⟩
      rw [List.getElem?_append_right (by omega), ← hr]
      congr 1
      omega
  · rw [List.flatMap_append, List.flatMap_append, h.calls, h'.calls]
  · rw [List.filter_append, List.map_append, List.flatMap_append, List.map_append, h.order,
      h'.order]
  · rw [List.filter_append, List.filter_append]
    exact h.results.append h'.results
  · simp only [List.filter_append, List.filterMap_append, h.text, h'.text]
  · simp only [List.filter_append, h.others, h'.others]

/-! ## One exchange -/

theorem opens_false_of_resolves {r : Value} (h : resolves r = true) : Engine.wireCalls r = none := by
  cases hc : Engine.wireCalls r with
  | none => rfl
  | some calls => exact absurd (resolves_eq_true.mp h) (not_isResult_of_wireCalls hc)

section Batch

variable {m : Value} {all results : List Value}

theorem Carries.calls_eq (hm : Engine.wireCalls m = some all) {call a : Value} {first : Bool}
    (h : Carries m call first a) : Engine.wireCalls a = some [call] := by
  obtain ⟨hrole, -, -⟩ := get_toolCalls_of_wireCalls hm
  have hrole' : Engine.setting a "role" = some "assistant" := by
    unfold Engine.setting at hrole ⊢
    rw [h.rest "role" (by simp) (by simp), hrole]
  unfold Engine.wireCalls
  rw [if_pos hrole', h.call]
  rfl

theorem Carries.kind (hm : Engine.wireCalls m = some all) {call a : Value} {first : Bool}
    (h : Carries m call first a) : opens a = true ∧ resolves a = false := by
  have hc := h.calls_eq hm
  refine ⟨by rw [opens, hc]; rfl, ?_⟩
  exact decide_eq_false (not_isResult_of_wireCalls hc)

/-- The calls one after another. -/
theorem Paired.faithful (hm : Engine.wireCalls m = some all) (hres : ∀ r ∈ results, resolves r = true)
    {first : Bool} {calls part : List Value} (h : Paired m results first calls part) :
    (∀ (i : Nat) a cs, part[i]? = some a → Engine.wireCalls a = some cs →
      ∃ call r, cs = [call] ∧ part[i + 1]? = some r ∧ resolves r ∧
        wireView.answers r = callId call) ∧
    part.flatMap callsOf = calls ∧
    (part.filter resolves).map wireView.answers = calls.map callId ∧
    part.filter resolves ⊆ results ∧
    (part.filter opens).filterMap (·.get "content") =
      (if first = true ∧ calls ≠ [] then (m.get "content").toList else []) ∧
    (part.filter fun m => !resolves m && !opens m) = [] := by
  induction h with
  | nil => simp
  | @cons first call a r calls part ha hr hid h ih =>
    obtain ⟨hpaired, hcalls, horder, hsub, htext, hothers⟩ := ih
    obtain ⟨hopens, hresolves⟩ := ha.kind hm
    have hr' := hres r hr
    have hnone := opens_false_of_resolves hr'
    have hopens' : opens r = false := by rw [opens, hnone]; rfl
    refine ⟨?_, ?_, ?_, ?_, ?_, ?_⟩
    · intro i b cs hi hc
      match i with
      | 0 =>
        obtain rfl : a = b := Option.some.inj hi
        obtain rfl : [call] = cs := Option.some.inj ((ha.calls_eq hm).symm.trans hc)
        exact ⟨call, r, rfl, rfl, hr', hid⟩
      | 1 =>
        obtain rfl : r = b := Option.some.inj hi
        rw [hnone] at hc
        cases hc
      | i + 2 => exact hpaired i b cs hi hc
    · rw [List.flatMap_cons, List.flatMap_cons, hcalls, callsOf, callsOf, ha.calls_eq hm, hnone]
      rfl
    · simp [hresolves, hr', horder, hid]
    · simp only [List.filter_cons, hresolves, hr', Bool.false_eq_true, if_false, if_true]
      exact List.cons_subset.mpr ⟨hr, hsub⟩
    · simp only [Bool.false_eq_true, false_and, if_false] at htext
      simp only [List.filter_cons, hopens, hopens', if_true, Bool.false_eq_true, if_false, ne_eq,
        reduceCtorEq, not_false_eq_true, and_true, List.filterMap_cons, htext, ha.text]
      cases first <;> cases m.get "content" <;> rfl
    · simp [hresolves, hr', hopens, hothers]

end Batch

/-- A message of an exchange that is no batch. -/
theorem not_opens {m : Value} (hc : Engine.wireCalls m = none) : opens m = false := by
  rw [opens, hc]
  rfl

/-- The results of a batch, and nothing else, follow it. -/
theorem resolves_batch {ids : List String} {results : List Value}
    (h : Resolves wireView ids results) :
    (∀ r ∈ results, resolves r = true) ∧ results.filter resolves = results ∧
      results.filter opens = [] ∧ results.flatMap callsOf = [] ∧
      (results.filter fun m => !resolves m && !opens m) = [] := by
  have hres : ∀ r ∈ results, resolves r = true := fun r hr => decide_eq_true (h.each r hr)
  refine ⟨hres, List.filter_eq_self.mpr hres, ?_, ?_, ?_⟩
  · rw [List.filter_eq_nil_iff]
    intro r hr
    rw [not_opens (opens_false_of_resolves (hres r hr))]
    simp
  · rw [List.flatMap_eq_nil_iff]
    intro r hr
    rw [callsOf, opens_false_of_resolves (hres r hr)]
    rfl
  · rw [List.filter_eq_nil_iff]
    intro r hr
    simp [hres r hr]

/-- The form with one call at a time is faithful to an exchange. -/
theorem Separated.faithful {g part : List Value} (hg : Exchange wireView g)
    (h : Separated g part) : Faithful g part := by
  cases h with
  | @single m hc =>
    have hopens := not_opens hc
    have hresolves : resolves m = false := by
      cases hg with
      | single hr _ => exact decide_eq_false hr
      | batch _ hc' _ _ _ => rw [show Engine.wireCalls m = some _ from hc'] at hc; cases hc
    refine ⟨?_, rfl, ?_, .refl _, rfl, rfl⟩
    · intro i a calls hi hc'
      obtain rfl : m = a := by
        have hmem := List.mem_of_getElem? hi
        exact (List.mem_singleton.mp hmem).symm
      rw [hc] at hc'
      cases hc'
    · simp [hresolves, callsOf, hc]
  | @batch m calls results part hc h =>
    cases hg with
    | single _ hc' => rw [show Engine.wireCalls m = none from hc'] at hc; cases hc
    | @batch _ calls' ids _ hm hc' hne hi hr =>
      obtain rfl : calls = calls' := Option.some.inj (hc.symm.trans hc')
      obtain ⟨hres, hresults, hnoOpens, hnoCalls, hnoOthers⟩ := resolves_batch hr
      obtain ⟨hpaired, hcalls, horder, hsub, htext, hothers⟩ := h.faithful hc hres
      have hopens : opens m = true := by rw [opens, hc]; rfl
      have hresolves : resolves m = false := decide_eq_false (not_isResult_of_wireCalls hc)
      have hids : (part.filter resolves).map wireView.answers = ids.map some :=
        horder.trans hi.calls
      have hnodup : (part.filter resolves).Nodup := by
        refine List.Nodup.of_map wireView.answers ?_
        rw [hids]
        exact hi.fresh.1.map (Option.some_injective _)
      have hlen : results.length = (part.filter resolves).length := by
        have hmaps := congrArg List.length hids
        rw [List.length_map, List.length_map] at hmaps
        rw [hmaps, hr.length]
      refine ⟨hpaired, ?_, ?_, ?_, ?_, ?_⟩
      · rw [hcalls, List.flatMap_cons, hnoCalls, callsOf, hc, List.append_nil]
        rfl
      · rw [horder, hcalls]
      · rw [List.filter_cons_of_neg (by simp [hresolves]), hresults]
        exact (perm_of_subset hnodup hlen hsub).symm
      · rw [htext, List.filter_cons_of_pos hopens, hnoOpens]
        simp only [hne, ne_eq, not_false_eq_true, and_self, if_true, List.filterMap_cons,
          List.filterMap_nil]
        cases m.get "content" <;> rfl
      · rw [hothers, List.filter_cons_of_neg (by simp [hopens]), hnoOthers]

/-- A single call with its result is an exchange, and stays as it is. -/
theorem Paired.exchange {m : Value} {all results : List Value} {ids : List String}
    (hm : Engine.wireCalls m = some all) (hres : ∀ r ∈ results, resolves r = true)
    {first : Bool} {calls part : List Value} (h : Paired m results first calls part)
    (hids : calls.map callId = ids.map some) (hne : ∀ id ∈ ids, id ≠ "") :
    ∃ gs, Cut (Exchange wireView) gs part ∧ gs.flatMap separated = part := by
  induction h generalizing ids with
  | nil => exact ⟨[], .nil, rfl⟩
  | @cons first call a r calls part ha hr hid h ih =>
    cases ids with
    | nil => cases hids
    | cons id ids =>
      rw [List.map_cons, List.map_cons, List.cons.injEq] at hids
      obtain ⟨gs, hgs, hsame⟩ := ih hids.2 fun id' hid' => hne id' (by simp [hid'])
      have hc := ha.calls_eq hm
      have hanswers : wireView.answers r = some id := hid.trans hids.1
      have hi : Identified [call] [id] := by
        refine ⟨by rw [List.map_singleton, hids.1]; rfl, List.nodup_singleton id, ?_⟩
        intro id' hid'
        rw [List.mem_singleton.mp hid']
        exact ⟨hne id (by simp), by simp⟩
      have hresolves : Resolves wireView [id] [r] := by
        refine ⟨fun r' hr' => ?_, ?_⟩
        · rw [List.mem_singleton.mp hr']
          exact resolves_eq_true.mp (hres r hr)
        · rw [List.map_singleton, hanswers]
          exact .refl _
      refine ⟨[a, r] :: gs, ?_, ?_⟩
      · exact hgs.cons (.batch (not_isResult_of_wireCalls hc) hc (by simp) hi hresolves)
      · have hkeep : Engine.singleCall a call true = a := by
          have hcall := ha.call
          cases a with
          | obj fields => exact congrArg Value.obj (insertField_of_lookup hcall)
          | _ => cases hcall
        rw [List.flatMap_cons, hsame, separated, hc, Option.elim_some, Engine.pairCalls, hids.1,
          hkeep, List.map_singleton, hanswers]
        simp [Engine.pairCalls]

theorem Separated.exchanges {g part : List Value} (hg : Exchange wireView g)
    (h : Separated g part) : ∃ gs, Cut (Exchange wireView) gs part ∧ gs.flatMap separated = part := by
  cases h with
  | @single m hc =>
    refine ⟨[[m]], Cut.nil.cons hg, ?_⟩
    rw [List.flatMap_singleton, separated, hc, Option.elim_none]
  | @batch m calls results part hc h =>
    cases hg with
    | single _ hc' => rw [show Engine.wireCalls m = none from hc'] at hc; cases hc
    | @batch _ calls' ids _ hm hc' hne hi hr =>
      obtain rfl : calls = calls' := Option.some.inj (hc.symm.trans hc')
      exact h.exchange hc (resolves_batch hr).1 hi.calls fun id hid => (hi.fresh.2 id hid).1

/-! ## The whole request -/

theorem separated_all {gs : List (List Value)} (hg : ∀ g ∈ gs, Exchange wireView g)
    (hkeys : ∀ m ∈ gs.flatten, ∃ fields, m = .obj fields ∧ (fields.map Prod.fst).Nodup) :
    List.Forall₂ (fun g part => Exchange wireView g ∧ Separated g part) gs (gs.map separated) := by
  rw [List.forall₂_map_right_iff, List.forall₂_same]
  intro g hmem
  refine ⟨hg g hmem, separated_of_exchange (hg g hmem) fun m hm => hkeys m ?_⟩
  exact List.mem_flatten.mpr ⟨g, hmem, hm⟩

/-- The form with one call at a time is a rearrangement. It is there exactly if the history can be
grouped; exchange by exchange it has each call with its result, it is faithful to the history as a
whole, and it is its own form with one call at a time. -/
theorem singleCallWire_faithful (host : Host) (history : List Message) :
    let ms := history.map fun m => wireMessage m.toMessageBody
    ((∃ out, Engine.singleCallWire ms.length ms = .ok out) ↔
      ∃ found, interactionGroups host history = .ok found) ∧
    ∀ out, Engine.singleCallWire ms.length ms = .ok out →
      (∃ gs parts, Cut (Exchange wireView) gs ms ∧ parts.flatten = out ∧
        List.Forall₂ Separated gs parts) ∧
      Faithful ms out ∧
      Engine.singleCallWire out.length out = .ok out := by
  intro ms
  have hms : ms = (history.map Message.toMessageBody).map wireMessage := by
    rw [List.map_map]
    rfl
  refine ⟨?_, ?_⟩
  · rw [interactionGroups_ok_iff, ← exists_cut_map_iff historyView_agrees,
      ← exists_cut_map_iff bodyView_agrees, ← hms]
    constructor
    · rintro ⟨out, h⟩
      obtain ⟨gs, hgs, -⟩ := (singleCallWire_iff (Nat.le_refl _)).mp h
      exact ⟨gs, hgs⟩
    · rintro ⟨gs, hgs⟩
      exact ⟨_, (singleCallWire_iff (Nat.le_refl _)).mpr ⟨gs, hgs, rfl⟩⟩
  · intro out h
    obtain ⟨gs, hgs, rfl⟩ := (singleCallWire_iff (Nat.le_refl _)).mp h
    have hkeys : ∀ m ∈ gs.flatten, ∃ fields, m = .obj fields ∧ (fields.map Prod.fst).Nodup := by
      rw [hgs.whole]
      intro m hm
      obtain ⟨m', -, rfl⟩ := List.mem_map.mp hm
      exact wireMessage_keys m'.toMessageBody
    have hparts := separated_all hgs.each hkeys
    have hflat : (gs.map separated).flatten = gs.flatMap separated := (List.flatMap_def ..).symm
    refine ⟨⟨gs, gs.map separated, hgs, hflat, hparts.imp fun _ _ h => h.2⟩, ?_, ?_⟩
    · rw [← hgs.whole, ← hflat]
      exact flatten_of_forall₂ .nil Faithful.append (hparts.imp fun _ _ h => h.2.faithful h.1)
    · have hagain : ∃ gs', Cut (Exchange wireView) gs' (gs.map separated).flatten ∧
          gs'.flatMap separated = (gs.map separated).flatten := by
        refine @flatten_of_forall₂ _ _ (fun _ part => ∃ gs', Cut (Exchange wireView) gs' part ∧
          gs'.flatMap separated = part) ⟨[], .nil, rfl⟩ ?_ _ _ (hparts.imp fun _ _ h => h.2.exchanges h.1)
        rintro _ _ b b' ⟨gs₁, h₁, hsame₁⟩ ⟨gs₂, h₂, hsame₂⟩
        exact ⟨gs₁ ++ gs₂, h₁.append h₂, by rw [List.flatMap_append, hsame₁, hsame₂]⟩
      obtain ⟨gs', hgs', hsame⟩ := hagain
      rw [hflat] at hgs' hsame
      exact (singleCallWire_iff (Nat.le_refl _)).mpr ⟨gs', hgs', hsame.symm⟩

/-- The batch of two calls, answered in the other order, becomes two single calls. -/
theorem singleCallWire_sample :
    let ms := sampleHistory.map fun m => wireMessage m.toMessageBody
    ∃ out, Engine.singleCallWire ms.length ms = .ok out ∧ Faithful ms out ∧ out.length = 5 := by
  intro ms
  have h : ∃ out, Engine.singleCallWire ms.length ms = .ok out ∧ out.length = 5 := ⟨_, rfl, rfl⟩
  obtain ⟨out, hout, hlen⟩ := h
  exact ⟨out, hout, ((singleCallWire_faithful exactHost sampleHistory).2 out hout).2.1, hlen⟩

end StateDrivenAgent
