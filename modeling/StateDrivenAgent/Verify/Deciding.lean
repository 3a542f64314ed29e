import StateDrivenAgent.Verify.Compacting

/-!
# What a decision is worth

The engine asks the model with the request it has measured, and what it makes of the reply is usable:
the calls of a batch have identities, all different, and a call without an error is a call of a
configured tool with arguments of its schema.
-/

namespace StateDrivenAgent

open Interaction Context

/-- What the engine relies on when it acts on a decision. -/
def Decision.Usable (e : Engine) : Decision → Prop
  | .tools _ calls => calls ≠ [] ∧ Distinct calls ∧ ∀ call ∈ calls, e.Readable call
  | _ => True

namespace Engine

variable {e : Engine}

/-- The call of `readCall` from the name and the raw arguments on. -/
theorem readCall_eq (id : String) (raw : Value) : ∃ name rawArguments error₀,
    e.readCall id raw =
      let tool := e.config.tools.find? fun tool => tool.name = name
      let read : List (String × Value) × Option String :=
        match parseStrictJson e.host rawArguments with
        | .ok (.obj fields) => match tool with
          | some tool => match Tools.validateArguments e.host tool.parameters (.obj fields) with
            | .ok () => (fields, error₀)
            | .error problem => ([], some ("invalid arguments: " ++ problem))
          | none => ([], some ("unknown tool '" ++ name ++ "'"))
        | .ok _ => ([], some "tool arguments must be a JSON object")
        | .error problem => ([], some ("malformed tool arguments: " ++ problem))
      let error := if name = "invalid_tool_call" then some "function name is missing" else read.2
      let error := if tool.isNone && error.isNone then some ("unknown tool '" ++ name ++ "'") else error
      { id, name := if name = "" then "invalid_tool_call" else name, rawArguments
        arguments := read.1, error } :=
  ⟨_, _, _, rfl⟩

theorem readCall_readable (hs : ∀ tool ∈ e.config.tools, tool.name ≠ "") {id : String}
    (hid : id ≠ "") (raw : Value) : e.Readable (e.readCall id raw) := by
  obtain ⟨name, rawArguments, error₀, heq⟩ := readCall_eq (e := e) id raw
  rw [heq]
  refine ⟨hid, fun herr => ?_⟩
  dsimp only at herr ⊢
  have hlast : ∀ {c : Bool} {x : String} {error : Option String},
      (if c && error.isNone then some x else error) = none → error = none := by
    intro c x error h
    cases error with
    | none => rfl
    | some y => simp at h
  have hnamed := hlast herr
  split at hnamed
  · cases hnamed
  · clear herr heq hlast
    cases hparse : parseStrictJson e.host rawArguments with
    | error problem =>
      rw [hparse] at hnamed
      cases hnamed
    | ok v =>
      rw [hparse] at hnamed
      cases v with
      | obj fields =>
        cases htool : e.config.tools.find? fun tool => tool.name = name with
        | none =>
          rw [htool] at hnamed
          cases hnamed
        | some tool =>
          rw [htool] at hnamed
          cases hvalid : Tools.validateArguments e.host tool.parameters (.obj fields) with
          | error problem =>
            simp only [hvalid] at hnamed
            cases hnamed
          | ok u =>
            have hmem : tool ∈ e.config.tools := List.mem_of_find?_eq_some htool
            have hname : tool.name = name := by simpa using List.find?_some htool
            have hne : name ≠ "" := hname ▸ hs tool hmem
            refine ⟨tool, hmem, ?_, fields, rfl, hvalid, ?_⟩
            · rw [if_neg hne, hname]
            · simp only [hvalid]
      | _ => cases hnamed

end Engine

namespace Upkeep

variable {env : Deployment} {e : Engine} {promise : Ghost → (x : Eff) → Reply x → Prop}
  {owes : Ghost → Eff → Prop} {g : Ghost} {s : Session}

/-! ## Identities -/

theorem freshCallId_sat (U : Upkeep env e promise owes) (used : List String) (fuel : Nat) :
    (Engine.freshCallId used fuel).Sat (watch env e.config promise owes) g
      fun g' id => g' = g ∧ id ∉ used ∧ id ≠ "" := by
  induction fuel with
  | zero => exact ⟨U.quiet rfl, fun r => nomatch r⟩
  | succ fuel ih =>
    refine ⟨U.quiet rfl, fun id _ => ?_⟩
    show Program.Sat _ (if used.contains ("call_" ++ id) then Engine.freshCallId used fuel
      else pure ("call_" ++ id)) (g.next (.uuid []) id) _
    rw [Ghost.next_inert id rfl]
    split
    · exact ih
    · next hnew =>
      refine ⟨rfl, by simpa using hnew, ?_⟩
      intro hempty
      have hlength := congrArg (fun x : String => x.toList.length) hempty
      simp at hlength

theorem callIdentity_sat (U : Upkeep env e promise owes) (used : List String) (raw : Value) :
    (Engine.callIdentity used raw).Sat (watch env e.config promise owes) g
      fun g' id => g' = g ∧ id ∉ used ∧ id ≠ "" := by
  unfold Engine.callIdentity
  split
  · next id hid =>
    split
    · exact freshCallId_sat U _ _
    · next hnew =>
      refine ⟨rfl, by simpa using hnew, ?_⟩
      rintro rfl
      have htrim := (Option.filter_eq_some_iff.mp hid).2
      revert htrim
      decide
  · exact freshCallId_sat U _ _

theorem readCalls_sat (U : Upkeep env e promise owes) (used : List String) (raws : List Value) :
    (e.readCalls used raws).Sat (watch env e.config promise owes) g fun g' calls => g' = g ∧
      calls.length = raws.length ∧ (∀ call ∈ calls, e.Readable call ∧ call.id ∉ used) ∧
        (calls.map Call.id).Nodup := by
  induction raws generalizing used with
  | nil => exact ⟨rfl, rfl, by simp, List.nodup_nil⟩
  | cons raw raws ih =>
    refine Program.sat_bind.mpr (Program.Sat.mono (callIdentity_sat U used raw) ?_)
    rintro _ id ⟨rfl, hnew, hid⟩
    refine Program.sat_bind.mpr (Program.Sat.mono (ih (used ++ [id])) ?_)
    rintro _ calls ⟨rfl, hlength, hcalls, hnodup⟩
    have hread : (e.readCall id raw).id = id := rfl
    refine ⟨rfl, by simp [hlength], ?_, ?_⟩
    · intro call hcall
      rcases List.mem_cons.mp hcall with rfl | hcall
      · exact ⟨Engine.readCall_readable U.supported hid raw, hnew⟩
      · obtain ⟨hr, hfresh⟩ := hcalls call hcall
        exact ⟨hr, fun hmem => hfresh (List.mem_append_left _ hmem)⟩
    · rw [List.map_cons, List.nodup_cons, hread]
      refine ⟨fun hmem => ?_, hnodup⟩
      obtain ⟨call, hcall, heq⟩ := List.mem_map.mp hmem
      exact (hcalls call hcall).2 (by rw [heq]; simp)

theorem parseDecision_sat (U : Upkeep env e promise owes) (body : Value) (s : Session) :
    (e.parseDecision body s).Sat (watch env e.config promise owes) g
      fun g' d => g' = g ∧ d.Usable e := by
  have hcontent : ∀ content, (Engine.readContent content).Usable e := by
    intro content
    unfold Engine.readContent
    split <;> trivial
  unfold Engine.parseDecision
  split
  · exact ⟨rfl, trivial⟩
  · exact ⟨rfl, trivial⟩
  · split
    · exact ⟨rfl, trivial⟩
    · dsimp only
      split
      · exact ⟨rfl, hcontent _⟩
      · exact ⟨rfl, hcontent _⟩
      · next raws hne _ =>
        refine Program.sat_bind.mpr (Program.Sat.mono (readCalls_sat U _ raws) ?_)
        rintro _ calls ⟨rfl, hlength, hcalls, hnodup⟩
        refine ⟨rfl, ?_, ⟨hnodup, fun call hcall => (hcalls call hcall).1.id⟩,
          fun call hcall => (hcalls call hcall).1⟩
        rintro rfl
        rw [List.length_nil, eq_comm, List.length_eq_zero_iff] at hlength
        exact hne hlength
      · exact ⟨rfl, trivial⟩

/-- The engine sends the request it has measured. -/
theorem decide_sat (U : Upkeep env e promise owes) (hr : e.Ready s) :
    (e.decide (e.payload s) s).Sat (watch env e.config promise owes) g
      fun g' out => g' = g ∧ ∀ d diagnostics, out = .ok (d, diagnostics) → d.Usable e := by
  obtain ⟨payload, hpayload, hfits⟩ := hr
  have hform : e.decisionPayload ((e.payload s).map wireMessage) s = .ok payload := hpayload
  unfold Engine.decide Engine.postChat
  rw [hform]
  refine Program.sat_bind.mpr (Program.Sat.mono (postTo_sat hfits U _ _) fun g' out hg => ?_)
  subst hg
  obtain ⟨reply, diagnostics⟩ := out
  cases reply with
  | ok body =>
    refine Program.sat_bind.mpr (Program.Sat.mono (parseDecision_sat U body s) ?_)
    rintro _ d ⟨rfl, hd⟩
    refine ⟨rfl, fun d' diagnostics' heq => ?_⟩
    cases heq
    exact hd
  | error problem =>
    refine ⟨rfl, fun d diagnostics' heq => ?_⟩
    cases heq
    trivial

end Upkeep

end StateDrivenAgent
