import StateDrivenAgent.Verify.Integrity

/-!
# The calls that are dispatched

A call is read once, when the model decides on its batch, and from then on it is pending: the run may
be cut off before its turn, and a later run then reads it back from the store. Whatever happens in
between, a pending call is one that was read (`Read`), and the phase it was made in is the active
one, because a workflow advances only when nothing is pending (`Admissible`). So every call that is
dispatched, after every history, was admitted (`dispatched_admitted`).
-/

namespace StateDrivenAgent

open Interaction

/-! ## Pending calls -/

theorem Storage.get_jsonb_iterate (host : Host) (n : Nat) (v : Value) (k : String) :
    ((jsonb host)^[n] v).get k = (v.get k).map (jsonb host)^[n] := by
  induction n with
  | zero => simp
  | succ n ih => rw [Function.iterate_succ_apply', get_jsonb, ih, Option.map_map, Function.iterate_succ']

theorem Storage.exists_jsonb_iterate_obj (host : Host) (n : Nat) (fields : List (String × Value)) :
    ∃ fields', (jsonb host)^[n] (.obj fields) = .obj fields' := by
  induction n with
  | zero => exact ⟨fields, rfl⟩
  | succ n ih =>
    obtain ⟨fields', hfields⟩ := ih
    exact ⟨_, by rw [Function.iterate_succ_apply', hfields]; rfl⟩

/-- The arguments of a pending call are those of its reply, as the store gives them back. -/
theorem Engine.readScheduled_reread_args (host : Host) (n : Nat) (call : Call) :
    Value.obj (readScheduled (call.reread host n)).args =
      (Storage.jsonb host)^[n] (.obj call.arguments) := by
  obtain ⟨fields, hfields⟩ := Storage.exists_jsonb_iterate_obj host n call.arguments
  have harguments : call.toValue.get "arguments" = some (.obj call.arguments) := rfl
  unfold readScheduled Call.reread
  rw [Storage.get_jsonb_iterate, harguments, Option.map_some, hfields]
  rfl

theorem Engine.readScheduled_reread_error (host : Host) (n : Nat) (call : Call) :
    (readScheduled (call.reread host n)).error = call.error := by
  have herror : setting call.toValue "error" = call.error := by
    unfold setting Call.toValue
    cases call.error <;> rfl
  exact (setting_reread host n call "error").trans herror

namespace Engine

variable (e : Engine)

/-- A call of a reply that is usable, stored and read back any number of times. -/
def Pending (v : Value) : Prop := ∃ n call, v = Call.reread e.host n call ∧ e.Readable call

/-- Every pending call was read, and was made in the phase that is active. -/
structure Admissible (c : Core) : Prop where
  pending : ∀ v ∈ c.pendingToolCalls, e.Pending v
  phase : c.pendingToolCalls ≠ [] → c.pendingToolPhase = c.activePhase

variable {e} {c : Core}

theorem recordWorkflow_activePhase (w : Workflow) (name : String) (args : List (String × Value))
    (output : String) : (e.recordWorkflow w name args output).activePhase = w.activePhase := by
  unfold recordWorkflow
  split <;> rfl

theorem takeIn_activePhase (c : Core) (id name : String) (args : List (String × Value))
    (output : String) (step : Int) :
    (c.takeIn e id name args output step).activePhase = c.activePhase := by
  unfold Core.takeIn Core.activePhase
  cases c.workflow with
  | none => rfl
  | some w => exact recordWorkflow_activePhase w name args output

namespace Admissible

theorem of_idle (h : c.pendingToolCalls = []) : e.Admissible c :=
  ⟨by simp [h], fun hne => absurd h hne⟩

theorem of_same {c' : Core} (h : e.Admissible c) (hcalls : c'.pendingToolCalls = c.pendingToolCalls)
    (hphase : c'.pendingToolPhase = c.pendingToolPhase) (hactive : c'.activePhase = c.activePhase) :
    e.Admissible c' := by
  refine ⟨hcalls ▸ h.pending, fun hne => ?_⟩
  rw [hphase, hactive]
  exact h.phase (hcalls ▸ hne)

theorem schedule (content : Option String) {calls : List Call}
    (hr : ∀ call ∈ calls, e.Readable call) : e.Admissible (c.schedule content calls) := by
  refine ⟨fun v hv => ?_, fun _ => rfl⟩
  obtain ⟨call, hcall, rfl⟩ := List.mem_map.1 hv
  exact ⟨0, call, rfl, hr call hcall⟩

theorem settle (h : e.Admissible c) {call : Value} {rest : List Value} (output : String)
    (hp : c.pendingToolCalls = call :: rest) : e.Admissible (c.settle call rest output) := by
  have hne : c.pendingToolCalls ≠ [] := by simp [hp]
  refine ⟨fun v hv => h.pending v (by rw [hp]; exact List.mem_cons_of_mem _ hv), fun hrest => ?_⟩
  have hkept : (c.settle call rest output).pendingToolPhase = c.pendingToolPhase :=
    if_neg fun hempty => hrest (List.isEmpty_iff.1 hempty)
  exact hkept.trans (h.phase hne)

theorem move {p : Permits} {c' : Core} (h : e.Admissible c) (hm : Move e p c c') :
    e.Admissible c' := by
  cases hm with
  | schedule content hp _ _ _ hr => exact schedule content hr
  | settle output hp => exact h.settle output hp
  | advance hp _ => exact of_idle hp
  | takeIn => exact h.of_same rfl rfl (takeIn_activePhase _ _ _ _ _ _)
  | _ => exact h.of_same rfl rfl rfl

theorem reloaded {x : Session} (h : e.Admissible x.core) :
    e.Admissible (x.reloaded e.host).core := by
  refine ⟨fun v hv => ?_, fun hne => ?_⟩
  · obtain ⟨v', hv', rfl⟩ := List.mem_map.1 hv
    obtain ⟨n, call, rfl, hread⟩ := h.pending v' hv'
    exact ⟨n + 1, call, (Function.iterate_succ_apply' _ _ _).symm, hread⟩
  · exact h.phase fun hnil => hne (List.map_eq_nil_iff.2 hnil)

end Admissible

/-! ## Admission -/

variable (e)

/-- An argument that is bound to an executed result: the result is there, and the argument is equal
to it where the call has it. -/
def Bound (artifacts : Value) (args : List (String × Value)) (binding : Value) : Prop :=
  ∃ artifact expected,
    e.artifactForLabel artifacts ((setting binding "source_label").getD "") = some artifact ∧
    ((artifact.get "value").bind fun v => valueAtPath v (pathOf binding "path")) = some expected ∧
    ∀ actual, lookup ((setting binding "argument").getD "") args = some actual →
      typedEqual e.host actual expected = true

/-- A call of a configured tool, read without an error from arguments the schema of the tool
accepts; `args` is what the store has made of them. -/
structure Requested (call : Value) (id name : String) (args : List (String × Value)) : Prop where
  named : id ≠ ""
  read : ∃ (n : Nat) (c : Call) (tool : Tool) (fields : List (String × Value)),
    call = c.reread e.host n ∧ c.id = id ∧ c.name = name ∧ c.error = none ∧
    tool ∈ e.config.tools ∧ tool.name = name ∧
    parseStrictJson e.host c.rawArguments = .ok (.obj fields) ∧
    Tools.validateArguments e.host tool.parameters (.obj fields) = .ok () ∧
    Value.obj args = (Storage.jsonb e.host)^[n] (.obj fields)

/-- The call may be made: it is the first of its batch, tools are enabled, the phase in which the
batch was decided on is the active one and permits the tool, or there is no workflow, and its bound
arguments are executed results. -/
structure Admitted (s : Session) (call : Value) (id name : String)
    (args : List (String × Value)) : Prop where
  requested : e.Requested call id name args
  first : ∃ rest, s.pendingToolCalls = call :: rest
  active : s.status = .active
  enabled : e.toolsDisabled = false
  phase : s.pendingToolPhase = s.workflow.bind Workflow.activePhase
  permitted : (∃ phase, s.workflow.bind Workflow.activePhase = some phase ∧
      e.allowedInPhase phase name = true) ∨ e.config.workflow = none ∧ s.workflow = none
  bound : ∀ binding ∈ e.bindings, setting binding "tool" = some name →
    e.Bound s.completionArtifacts args binding

variable {e}

theorem boundArgument_eq_none {artifacts binding : Value} {name : String}
    {args : List (String × Value)} (h : e.boundArgument artifacts name args binding = none) :
    e.Bound artifacts args binding := by
  unfold boundArgument at h
  dsimp only at h
  split at h
  · cases h
  next artifact hartifact =>
    split at h
    · cases h
    next expected hexpected =>
      refine ⟨artifact, expected, hartifact, hexpected, fun actual hactual => ?_⟩
      rw [hactual] at h
      simpa using h

theorem bindingError_eq_none {artifacts : Value} {name : String} {args : List (String × Value)}
    (h : e.bindingError artifacts name args = none) :
    ∀ binding ∈ e.bindings, setting binding "tool" = some name → e.Bound artifacts args binding := by
  intro binding hbinding htool
  refine boundArgument_eq_none (List.findSome?_eq_none_iff.1 h binding ?_)
  exact List.mem_filter.2 ⟨hbinding, decide_eq_true htool⟩

theorem Pending.requested {v : Value} (h : e.Pending v) (herror : (readScheduled v).error = none) :
    e.Requested v (readScheduled v).id (readScheduled v).name (readScheduled v).args := by
  obtain ⟨n, call, rfl, hread⟩ := h
  obtain ⟨hid, hname⟩ := readScheduled_reread e.host n call
  rw [readScheduled_reread_error] at herror
  obtain ⟨tool, htool, hnamed, fields, hparse, hvalid, hargs⟩ := hread.admissible herror
  refine ⟨hid ▸ hread.id, n, call, tool, fields, rfl, hid.symm, hname.symm, herror, htool,
    hnamed.trans hname.symm, hparse, hvalid, ?_⟩
  rw [readScheduled_reread_args, hargs]

theorem permitted_of_allowed {s : Session} {phase : Option String} {name : String}
    (h : e.allowedInPhaseForSession s phase name = true) :
    e.toolsDisabled = false ∧ ((∃ p, phase = some p ∧ e.allowedInPhase p name = true) ∨
      phase = none ∧ e.config.workflow = none ∧ s.workflow = none) := by
  unfold allowedInPhaseForSession at h
  rw [Bool.and_eq_true, Bool.not_eq_true'] at h
  refine ⟨h.1, ?_⟩
  cases phase with
  | none =>
    have hnone := Bool.and_eq_true_iff.1 h.2
    exact .inr ⟨rfl, Option.isNone_iff_eq_none.1 hnone.1, Option.isNone_iff_eq_none.1 hnone.2⟩
  | some p => exact .inl ⟨p, rfl, h.2⟩

/-- What the engine checks makes the call of an admissible session an admitted one. -/
theorem admitted_of_dispatches {s : Session} {call : Value} {id name : String}
    {args : List (String × Value)} (h : e.Dispatches s call id name args)
    (hs : e.Admissible s.core) : e.Admitted s call id name args := by
  obtain ⟨rest, hpending⟩ := h.first
  have hcalls : s.core.pendingToolCalls = call :: rest := hpending
  have hphase : s.pendingToolPhase = s.workflow.bind Workflow.activePhase :=
    hs.phase (by rw [hcalls]; exact List.cons_ne_nil _ _)
  have hrejection := h.admitted
  unfold actionRejection at hrejection
  cases herror : (readScheduled call).error with
  | some problem =>
    rw [herror] at hrejection
    cases hrejection
  | none =>
    rw [herror] at hrejection
    dsimp only at hrejection
    split at hrejection
    · cases hrejection
    · split at hrejection
      · cases hrejection
      · have hrequested := (hs.pending call (hcalls ▸ List.mem_cons_self)).requested herror
        rw [h.read] at hrequested
        obtain ⟨henabled, hallowed⟩ := permitted_of_allowed h.allowed
        refine ⟨hrequested, h.first, h.active, henabled, hphase, ?_,
          bindingError_eq_none hrejection⟩
        rcases hallowed with ⟨p, hp, hallowed⟩ | ⟨-, hconfig, hworkflow⟩
        · exact .inl ⟨p, hphase.symm.trans hp, hallowed⟩
        · exact .inr ⟨hconfig, hworkflow⟩

end Engine

/-! ## Histories of requests -/

def admissible (env : Deployment) {config : Config} (h : ∀ tool ∈ config.tools, tool.name ≠ "") :
    Lasting env config where
  Inv _ c := Engine.Admissible ⟨env.toHost, config⟩ c
  Event _ := True
  content _ := True
  supported := h
  mono h := h
  move h hm := h.move hm
  start h := h.of_same rfl rfl rfl
  created := .of_idle rfl
  reloaded h := h.reloaded
  harmless _ := trivial
  grouped _ _ := .inr fun _ => trivial
  said _ _ := trivial

/-- Every call that is dispatched, by any request after any history, was admitted. -/
theorem dispatched_admitted (env : Deployment) (config : Config)
    (htools : ∀ tool ∈ config.tools, Commands.isSupported tool.name = true) {g : Ghost}
    {es : List (Event Eff Reply)} (hes : Server.Performs env config (fun _ _ => True) g es)
    {s : Session} {call : Value} {id name : String} {args : List (String × Value)}
    (hdispatch : ⟨.mark (.dispatch s call id name args), ()⟩ ∈ es) :
    Engine.Admitted ⟨env.toHost, config⟩ s call id name args := by
  have hnames : ∀ tool ∈ config.tools, tool.name ≠ "" :=
    fun tool ht => Commands.name_of_supported (htools tool ht)
  have hkept := (admissible env hnames).kept (hes.mono fun _ _ _ _ _ _ => trivial)
  obtain ⟨g', hinv, hchecked⟩ := hkept.mem hdispatch
  exact Engine.admitted_of_dispatches hchecked hinv

section Sample

/-- A configuration with one tool and no workflow. -/
def inspectingConfig : Config :=
  { Engine.limitsConfig 10 1024 256 with tools := [⟨"inspect_log", "", .obj [], none⟩] }

def replyOf (message : Value) : HttpReply :=
  .response 1 200 (some (.obj [("choices", .arr [.obj [("message", message)]])]))

/-- The model asks for the log. -/
def callReply : HttpReply :=
  replyOf (.obj [("content", .null), ("tool_calls", .arr [.obj [("id", .str "call"),
    ("type", .str "function"), ("function", .obj [("name", .str "inspect_log"),
      ("arguments", .str "\x7b\x7d")])]])])

/-- The event dispatches a call. -/
def dispatches (x : Event Eff Reply) : Bool :=
  match x.1 with
  | .mark (.dispatch ..) => true
  | _ => false

/-- The first call of a small session is admitted. -/
theorem dispatched_admitted_small : ∃ (g : Ghost) (es : List (Event Eff Reply)) (s : Session)
    (call : Value) (id name : String) (args : List (String × Value)),
    Server.Performs (plainAgent exactHost inspectingConfig) inspectingConfig (fun _ _ => True) g es ∧
      ⟨.mark (.dispatch s call id name args), ()⟩ ∈ es ∧
      Engine.Admitted ⟨exactHost, inspectingConfig⟩ s call id name args := by
  have hdispatched : (firstRun exactHost inspectingConfig (fun _ => callReply) 40).any dispatches =
      true := by decide +kernel
  obtain ⟨g, hperforms⟩ := firstRun_performs exactHost inspectingConfig (fun _ => callReply) 40
  obtain ⟨⟨x, r⟩, hx, hdispatch⟩ := List.any_eq_true.1 hdispatched
  cases x with
  | mark m =>
    cases m with
    | dispatch s call id name args =>
      exact ⟨g, _, s, call, id, name, args, hperforms, hx,
        dispatched_admitted (plainAgent exactHost inspectingConfig) inspectingConfig
          (by simp [inspectingConfig, Commands.isSupported]) hperforms hx⟩
    | _ => cases hdispatch
  | _ => cases hdispatch

end Sample

end StateDrivenAgent
