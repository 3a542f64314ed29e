import StateDrivenAgent.Spec.Exchanges

/-!
# Interaction groups

What a well-formed history is: a sequence of groups, each of them one message that neither calls
tools nor answers a call, or a batch with the results of all its calls in order. Such groups are
complete exchanges (`Group.exchange`), those with the results in the order of the calls.
-/

namespace StateDrivenAgent

open Context Segments

/-- The calls of a batch have identities, all different. -/
def Distinct (calls : List Call) : Prop :=
  (calls.map Call.id).Nodup ∧ ∀ call ∈ calls, call.id ≠ ""

/-- The results of these calls, in order. -/
def Answers (calls : List Call) (results : List MessageBody) : Prop :=
  List.Forall₂ (fun call r => r.role = "tool" ∧ r.toolCallId = some call.id) calls results

/-- One complete interaction. -/
inductive Group : List MessageBody → Prop
  | single {m : MessageBody} (hr : m.role ≠ "tool") (hb : batchCalls m = none) : Group [m]
  | batch {content : Option String} {calls : List Call} {results : List MessageBody}
      (hne : calls ≠ []) (hd : Distinct calls) (ha : Answers calls results) :
      Group (batchMessage content calls :: results)

/-- A history of complete interactions. -/
def Grouped (ms : List MessageBody) : Prop :=
  ∃ groups : List (List MessageBody), ms = groups.flatten ∧ ∀ g ∈ groups, Group g

theorem Grouped.nil : Grouped [] := ⟨[], rfl, by simp⟩

theorem Grouped.append {ms g : List MessageBody} (h : Grouped ms) (hg : Group g) :
    Grouped (ms ++ g) := by
  obtain ⟨groups, rfl, hgroups⟩ := h
  refine ⟨groups ++ [g], by simp, fun g' hg' => ?_⟩
  rcases List.mem_append.mp hg' with hg' | hg'
  · exact hgroups g' hg'
  · rw [List.mem_singleton.mp hg']
    exact hg

/-- A message of the user or of the assistant without calls. -/
theorem Group.msg {role : String} (text : String) (hr : role ≠ "tool") :
    Group [msg role text] := .single hr rfl

theorem Grouped.concat {ms ms' : List MessageBody} (h : Grouped ms) (h' : Grouped ms') :
    Grouped (ms ++ ms') := by
  obtain ⟨groups, rfl, hgroups⟩ := h
  obtain ⟨groups', rfl, hgroups'⟩ := h'
  refine ⟨groups ++ groups', by rw [List.flatten_append], fun g hg => ?_⟩
  rcases List.mem_append.mp hg with hg | hg
  · exact hgroups g hg
  · exact hgroups' g hg

/-- Messages of the user, the assistant or the system, without calls. -/
theorem Grouped.plain {ms : List MessageBody}
    (h : ∀ m ∈ ms, ∃ role text, m = StateDrivenAgent.msg role text ∧ role ≠ "tool") :
    Grouped ms := by
  refine ⟨ms.map fun m => [m], ?_, fun g hg => ?_⟩
  · induction ms with
    | nil => rfl
    | cons m ms ih => rw [List.map_cons, List.flatten_cons, ← ih fun m hm => h m (by simp [hm])]; rfl
  · obtain ⟨m, hm, rfl⟩ := List.mem_map.mp hg
    obtain ⟨role, text, rfl, hr⟩ := h m hm
    exact .msg text hr

/-! ## The checks of a batch -/

/-- The call of a batch on the wire. -/
def wireCall (call : Call) : Value :=
  .obj [("id", .str call.id), ("type", .str "function"),
    ("function", .obj [("name", .str call.name), ("arguments", .str call.rawArguments)])]

theorem wireBatch_eq (calls : List Call) : wireBatch calls = .arr (calls.map wireCall) := rfl

@[simp] theorem callId_wireCall (call : Call) : callId (wireCall call) = some call.id := rfl

theorem batchCalls_batchMessage {content : Option String} {calls : List Call} (h : calls ≠ []) :
    batchCalls (batchMessage content calls) = some (calls.map wireCall) := by
  have hne : (calls.map wireCall).isEmpty = false := by
    cases calls with
    | nil => exact absurd rfl h
    | cons call calls => rfl
  show Option.filter _ (some (calls.map wireCall)) = _
  simp [batchMessage, h]

theorem Answers.length {calls : List Call} {results : List MessageBody} (h : Answers calls results) :
    results.length = calls.length := h.length_eq.symm

theorem Distinct.identified {calls : List Call} (hd : Distinct calls) :
    Identified (calls.map wireCall) (calls.map Call.id) := by
  refine ⟨by simp, hd.1, fun id hid => ?_⟩
  obtain ⟨call, hcall, rfl⟩ := List.mem_map.mp hid
  exact ⟨hd.2 call hcall, by simp⟩

theorem Answers.resolves {calls : List Call} {results : List MessageBody}
    (h : Answers calls results) : Resolves bodyView (calls.map Call.id) results := by
  unfold Answers at h
  induction h with
  | nil => exact ⟨by simp, .refl _⟩
  | cons hr _ ih =>
    refine ⟨List.forall_mem_cons.mpr ⟨hr.1, ih.each⟩, ?_⟩
    have hid : bodyView.answers _ = some _ := hr.2
    rw [List.map_cons, List.map_cons, List.map_cons, hid]
    exact ih.perm.cons _

/-- What the agent appends is a complete exchange. -/
theorem Group.exchange {g : List MessageBody} (h : Group g) : Exchange bodyView g := by
  cases h with
  | single hr hb => exact .single hr hb
  | batch hne hd ha =>
    refine .batch ?_ (batchCalls_batchMessage hne) (by simpa using hne) hd.identified ha.resolves
    show ¬("assistant" = "tool")
    simp

theorem Grouped.cut {ms : List MessageBody} (h : Grouped ms) :
    ∃ groups, Cut (Exchange bodyView) groups ms ∧ ∀ g ∈ groups, Group g := by
  obtain ⟨groups, rfl, hgroups⟩ := h
  exact ⟨groups, ⟨rfl, fun g hg => (hgroups g hg).exchange⟩, hgroups⟩

end StateDrivenAgent
