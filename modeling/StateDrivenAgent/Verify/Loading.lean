import Mathlib.Data.List.Nodup
import Mathlib.Tactic.Common
import StateDrivenAgent.Agent.Loading
import StateDrivenAgent.Json.Document
import StateDrivenAgent.Verify.Decimals

/-!
# Loading returns

A load returns (`Returns`) when it is a configuration or an error and not a panic. A chain of steps
returns when each step does that is reached, so every site of a panic gets the condition under which
it is not one. Three are never one: `unwrap` of the declaration of a bound tool, whose name was
looked up in the same tools; `expect` of the configuration itself; and the exponent of a double, as
`serde_json` prints it. Two are: the sum of the reserve and the margin, in a build that checks
overflow; and `expect` of the completed `execution` and `completion`, which stay as the document has
them when it has them, so that `execution: null` passes every check before.

`Acceptable` says what `validate_config` accepts, without the order of the checks.
-/

namespace StateDrivenAgent

namespace Config

/-! ## Steps -/

section steps

variable {ε α β : Type}

theorem bind_ok_iff {x : Except ε α} {f : α → Except ε β} {b : β} :
    x >>= f = .ok b ↔ ∃ a, x = .ok a ∧ f a = .ok b := by
  constructor
  · exact bind_ok
  · rintro ⟨a, rfl, h⟩
    exact h

theorem unit_bind_ok_iff {x : Except ε Unit} {f : Unit → Except ε β} {b : β} :
    x >>= f = .ok b ↔ x = .ok () ∧ f () = .ok b := by
  rw [bind_ok_iff]
  constructor
  · rintro ⟨⟨⟩, h⟩
    exact h
  · intro h
    exact ⟨(), h⟩

/-- What is loaded is there or an error is reported: the thread does not panic. -/
def Returns (x : Loading α) : Prop := ∀ site, x ≠ .error (.panic site)

theorem returns_ok (a : α) : Returns (.ok a : Loading α) := by
  intro site h
  cases h

theorem returns_error (message : String) : Returns (.error (.error message) : Loading α) := by
  intro site h
  cases h

theorem not_returns_panic (site : String) : ¬Returns (.error (.panic site) : Loading α) :=
  fun h => h site rfl

theorem returns_bind_iff {x : Loading α} {f : α → Loading β} :
    Returns (x >>= f) ↔ Returns x ∧ ∀ a, x = .ok a → Returns (f a) := by
  cases x with
  | ok a =>
    change Returns (f a) ↔ _
    constructor
    · intro h
      refine ⟨returns_ok a, ?_⟩
      rintro _ ⟨⟩
      exact h
    · intro h
      exact h.2 a rfl
  | error stop =>
    constructor
    · intro h
      refine ⟨fun site heq => h site ?_, ?_⟩
      · cases heq
        rfl
      · rintro a ⟨⟩
    · intro h site heq
      apply h.1 site
      cases heq
      rfl

theorem returns_check (x : Except String α) : Returns (check x) := by
  cases x with
  | ok a => exact returns_ok a
  | error e => exact returns_error e

theorem returns_check_bind_iff {x : Except String α} {f : α → Loading β} :
    Returns (check x >>= f) ↔ ∀ a, check x = .ok a → Returns (f a) := by
  rw [returns_bind_iff, and_iff_right (returns_check x)]

theorem returns_report_iff {x : Loading α} : Returns (x.mapError Stop.report) ↔ Returns x := by
  cases x with
  | ok a => exact iff_of_true (returns_ok a) (returns_ok a)
  | error stop =>
    cases stop with
    | error m => exact iff_of_true (returns_error _) (returns_error m)
    | panic site => exact iff_of_false (not_returns_panic site) (not_returns_panic site)

theorem report_ok_iff {x : Loading α} {a : α} : x.mapError Stop.report = .ok a ↔ x = .ok a := by
  cases x with
  | ok b => exact Iff.rfl
  | error stop => constructor <;> rintro ⟨⟩

@[simp] theorem check_ok_iff {x : Except String α} {a : α} : check x = .ok a ↔ x = .ok a := by
  cases x with
  | ok b =>
    change (Except.ok b : Loading α) = _ ↔ _
    simp
  | error e => constructor <;> rintro ⟨⟩

@[simp] theorem demand_ok_iff {p : Prop} [Decidable p] {message : String} :
    demand p message = .ok () ↔ p := by
  unfold demand
  by_cases h : p
  · rw [if_pos h]
    exact iff_of_true rfl h
  · rw [if_neg h]
    exact iff_of_false (fun heq => by cases heq) h

@[simp] theorem need_ok_iff {a : Option α} {message : String} {x : α} :
    need a message = .ok x ↔ a = some x := by
  cases a with
  | none => constructor <;> rintro ⟨⟩
  | some a =>
    change (Except.ok a : Except String α) = _ ↔ _
    simp

theorem checkAll_ok_iff {f : α → Except String Unit} {xs : List α} :
    checkAll f xs = .ok () ↔ ∀ x ∈ xs, f x = .ok () := by
  induction xs with
  | nil => simp [checkAll]
  | cons x xs ih => rw [checkAll, unit_bind_ok_iff, ih, List.forall_mem_cons]

end steps

/-! ## What `validate_config` accepts -/

/-- The modes and the number of attempts of a tool's recovery. -/
def Recoverable (t : Tool) : Prop :=
  ∀ recovery ∈ t.recovery,
    ((recovery.get "mode").bind Value.asStr).getD "reconcile" ∈ recoveryModes ∧
      ∀ n ∈ (recovery.get "max_attempts").bind Value.asI64, 1 ≤ n ∧ n ≤ 10

theorem checkRecovery_ok_iff {t : Tool} : checkRecovery t = .ok () ↔ Recoverable t := by
  unfold checkRecovery Recoverable
  cases t.recovery with
  | none => simp
  | some recovery =>
    change (demand _ _ >>= fun _ => demand _ _) = _ ↔ _
    rw [unit_bind_ok_iff, demand_ok_iff, demand_ok_iff]
    simp

theorem checkTools_ok_iff {host : Host} {seen : List String} {tools : List Tool} :
    checkTools host seen tools = .ok () ↔ (tools.map Tool.name).Nodup ∧
      (∀ t ∈ tools, t.name ∉ seen) ∧ ∀ t ∈ tools, Recoverable t ∧
        validateSchema host t.parameters ("tools." ++ t.name ++ ".parameters") = .ok () := by
  induction tools generalizing seen with
  | nil => simp [checkTools]
  | cons t tools ih =>
    rw [checkTools, unit_bind_ok_iff, unit_bind_ok_iff, unit_bind_ok_iff, demand_ok_iff,
      checkRecovery_ok_iff, ih, List.map_cons, List.nodup_cons, List.forall_mem_cons,
      List.forall_mem_cons]
    constructor
    · rintro ⟨hnew, hrecovery, hschema, hnodup, hseen, hrest⟩
      refine ⟨⟨?_, hnodup⟩, ⟨hnew, fun u hu hmem => ?_⟩, ⟨hrecovery, hschema⟩, hrest⟩
      · intro hmem
        obtain ⟨u, hu, heq⟩ := List.mem_map.1 hmem
        exact hseen u hu (heq ▸ List.mem_cons_self)
      · exact hseen u hu (List.mem_cons_of_mem _ hmem)
    · rintro ⟨⟨hfresh, hnodup⟩, ⟨hnew, hseen⟩, ⟨hrecovery, hschema⟩, hrest⟩
      refine ⟨hnew, hrecovery, hschema, hnodup, fun u hu hmem => ?_, hrest⟩
      rcases List.mem_cons.1 hmem with heq | hmem
      · exact hfresh (heq ▸ List.mem_map_of_mem hu)
      · exact hseen u hu hmem

/-- The settings of `execution` that are looked at. -/
structure Policies (execution : Value) : Prop where
  policy : ∀ p ∈ (execution.get "tool_policy").bind Value.asStr, p = "auto" ∨ p = "none"
  invalid : ∀ n ∈ (execution.get "max_consecutive_invalid_responses").bind Value.asI64,
    1 ≤ n ∧ n ≤ 50
  progress : ∀ v ∈ execution.get "max_no_progress_steps", v.isNull = true ∨ ∃ n ∈ v.asI64, 2 ≤ n

theorem checkPolicies_ok_iff {execution : Value} :
    checkPolicies execution = .ok () ↔ Policies execution := by
  unfold checkPolicies
  rw [unit_bind_ok_iff, unit_bind_ok_iff, demand_ok_iff, demand_ok_iff, demand_ok_iff]
  constructor
  · rintro ⟨h₁, h₂, h₃⟩
    exact ⟨h₁, h₂, h₃⟩
  · rintro ⟨h₁, h₂, h₃⟩
    exact ⟨h₁, h₂, h₃⟩

/-- A text property. -/
def textOf (v : Value) (k : String) : Option String := (v.get k).bind Value.asStr

/-- The labels of the result checks. -/
def labels (results : List Value) : List String := results.filterMap fun r => textOf r "label"

/-- The result checks name a tool and have labels of their own. -/
def Labelled (names : List String) (results : List Value) : Prop :=
  (∀ r ∈ results, (∃ tool ∈ textOf r "tool", tool ∈ names) ∧ (textOf r "label").isSome) ∧
    (labels results).Nodup

theorem labels_cons {r : Value} {results : List Value} {label : String}
    (h : textOf r "label" = some label) : labels (r :: results) = label :: labels results := by
  unfold labels
  rw [List.filterMap_cons, h]

/-- What one result check is asked. -/
theorem checkResults_cons_ok_iff {names seen found : List String} {r : Value}
    {results : List Value} : checkResults names seen (r :: results) = .ok found ↔
      ∃ tool, textOf r "tool" = some tool ∧ tool ∈ names ∧
        ∃ label, textOf r "label" = some label ∧ label ∉ seen ∧
          checkResults names (label :: seen) results = .ok found := by
  rw [checkResults, bind_ok_iff]
  constructor
  · rintro ⟨tool, htool, h⟩
    obtain ⟨hmem, h⟩ := unit_bind_ok_iff.1 h
    obtain ⟨label, hlabel, h⟩ := bind_ok_iff.1 h
    obtain ⟨hnew, h⟩ := unit_bind_ok_iff.1 h
    exact ⟨tool, need_ok_iff.1 htool, demand_ok_iff.1 hmem, label, need_ok_iff.1 hlabel,
      demand_ok_iff.1 hnew, h⟩
  · rintro ⟨tool, htool, hmem, label, hlabel, hnew, h⟩
    refine ⟨tool, need_ok_iff.2 htool, unit_bind_ok_iff.2 ⟨demand_ok_iff.2 hmem, ?_⟩⟩
    refine bind_ok_iff.2 ⟨label, need_ok_iff.2 hlabel, ?_⟩
    exact unit_bind_ok_iff.2 ⟨demand_ok_iff.2 hnew, h⟩

theorem checkResults_ok_iff {names seen found : List String} {results : List Value} :
    checkResults names seen results = .ok found ↔
      Labelled names results ∧ (∀ l ∈ labels results, l ∉ seen) ∧
        found = (labels results).reverse ++ seen := by
  induction results generalizing seen with
  | nil =>
    have hnil : Labelled names [] := ⟨by simp, by simp [labels]⟩
    rw [checkResults, and_iff_right hnil]
    simp [labels, eq_comm]
  | cons r results ih =>
    rw [checkResults_cons_ok_iff]
    constructor
    · rintro ⟨tool, htool, hmem, label, hlabel, hnew, h⟩
      obtain ⟨⟨hall, hnodup⟩, hseen, rfl⟩ := ih.1 h
      have hlabels := @labels_cons _ results _ hlabel
      refine ⟨⟨?_, ?_⟩, ?_, ?_⟩
      · rw [List.forall_mem_cons]
        exact ⟨⟨⟨tool, htool, hmem⟩, by rw [hlabel]; rfl⟩, hall⟩
      · rw [hlabels, List.nodup_cons]
        exact ⟨fun hin => hseen label hin List.mem_cons_self, hnodup⟩
      · rw [hlabels, List.forall_mem_cons]
        exact ⟨hnew, fun l hl hin => hseen l hl (List.mem_cons_of_mem _ hin)⟩
      · rw [hlabels, List.reverse_cons, List.append_assoc]
        rfl
    · rintro ⟨⟨hall, hnodup⟩, hseen, rfl⟩
      obtain ⟨⟨⟨tool, htool, hmem⟩, hsome⟩, hrest⟩ := List.forall_mem_cons.1 hall
      obtain ⟨label, hlabel⟩ := Option.isSome_iff_exists.1 hsome
      have hlabels := @labels_cons _ results _ hlabel
      rw [hlabels, List.nodup_cons] at hnodup
      rw [hlabels, List.forall_mem_cons] at hseen
      refine ⟨tool, htool, hmem, label, hlabel, hseen.1, ih.2 ⟨⟨hrest, hnodup.2⟩, ?_, ?_⟩⟩
      · intro l hl hin
        rcases List.mem_cons.1 hin with rfl | hin
        · exact hnodup.1 hl
        · exact hseen.2 l hl hin
      · rw [hlabels, List.reverse_cons, List.append_assoc]
        rfl

/-- The patterns compile, and the exact answer is not blank. -/
structure Answerable (host : Host) (completion : Value) : Prop where
  pattern : ∀ p ∈ textOf completion "pattern", ∃ regex, host.regex p = .ok regex
  forbidden : ∀ p ∈ elements completion "forbidden_patterns",
    ∃ text, p.asStr = some text ∧ ∃ regex, host.regex text = .ok regex
  exact : ∀ x ∈ textOf completion "exact", (Text.trim x).isEmpty = false

theorem checkRegex_ok_iff {host : Host} {message pattern : String} :
    checkRegex host message pattern = .ok () ↔ ∃ regex, host.regex pattern = .ok regex := by
  unfold checkRegex
  cases host.regex pattern with
  | ok regex => simp
  | error e => simp

theorem checkPattern_ok_iff {host : Host} {completion : Value} :
    checkPattern host completion = .ok () ↔
      ∀ p ∈ textOf completion "pattern", ∃ regex, host.regex p = .ok regex := by
  unfold checkPattern textOf
  cases (completion.get "pattern").bind Value.asStr with
  | none => simp
  | some p =>
    change checkRegex host _ p = .ok () ↔ _
    rw [checkRegex_ok_iff]
    simp

theorem checkForbidden_ok_iff {host : Host} {patterns : List Value} :
    checkForbidden host patterns = .ok () ↔
      ∀ p ∈ patterns, ∃ text, p.asStr = some text ∧ ∃ regex, host.regex text = .ok regex := by
  induction patterns with
  | nil => simp [checkForbidden]
  | cons p patterns ih =>
    rw [checkForbidden, bind_ok_iff, List.forall_mem_cons]
    simp only [need_ok_iff, unit_bind_ok_iff, checkRegex_ok_iff, ih]
    constructor
    · rintro ⟨text, htext, hregex, hrest⟩
      exact ⟨⟨text, htext, hregex⟩, hrest⟩
    · rintro ⟨⟨text, htext, hregex⟩, hrest⟩
      exact ⟨text, htext, hregex, hrest⟩

theorem checkAnswer_ok_iff {host : Host} {completion : Value} :
    checkAnswer host completion = .ok () ↔ Answerable host completion := by
  unfold checkAnswer
  rw [unit_bind_ok_iff, unit_bind_ok_iff, checkPattern_ok_iff, checkForbidden_ok_iff, demand_ok_iff]
  constructor
  · rintro ⟨h₁, h₂, h₃⟩
    exact ⟨h₁, h₂, h₃⟩
  · rintro ⟨h₁, h₂, h₃⟩
    exact ⟨h₁, h₂, h₃⟩

/-- The tool declares the argument. -/
def Declares (tools : List Tool) (tool argument : String) : Prop :=
  ∃ declaration, tools.find? (fun t => t.name = tool) = some declaration ∧
    (((declaration.parameters.get "properties").bind Value.asObject).any
      fun properties => (lookup argument properties).isSome) = true

/-- The tool and the argument a binding is for. -/
def target (binding : Value) : Option (String × String) :=
  (textOf binding "tool").bind fun tool => (textOf binding "argument").map fun argument =>
    (tool, argument)

/-- The binding is for a declared argument, and from a result check. -/
def Bound (tools : List Tool) (labels : List String) (binding : Value) : Prop :=
  ∃ tool argument label, textOf binding "tool" = some tool ∧
    textOf binding "argument" = some argument ∧ textOf binding "source_label" = some label ∧
    tool ∈ tools.map Tool.name ∧ label ∈ labels ∧ Declares tools tool argument

/-- What one binding is asked, and the rest of the bindings. -/
theorem checkBindings_cons_ok_iff {tools : List Tool} {labels : List String}
    {seen : List (String × String)} {binding : Value} {bindings : List Value} :
    checkBindings tools labels seen (binding :: bindings) = .ok () ↔
      Bound tools labels binding ∧ ∃ pair, target binding = some pair ∧ pair ∉ seen ∧
        checkBindings tools labels (pair :: seen) bindings = .ok () := by
  rw [checkBindings]
  constructor
  · intro h
    obtain ⟨tool, htool, h⟩ := bind_ok_iff.1 h
    obtain ⟨argument, hargument, h⟩ := bind_ok_iff.1 h
    obtain ⟨label, hlabel, h⟩ := bind_ok_iff.1 h
    obtain ⟨hmem, h⟩ := unit_bind_ok_iff.1 h
    obtain ⟨hlabelled, h⟩ := unit_bind_ok_iff.1 h
    obtain ⟨hnew, h⟩ := unit_bind_ok_iff.1 h
    rw [check_ok_iff, need_ok_iff] at htool hargument hlabel
    rw [check_ok_iff, demand_ok_iff] at hmem hlabelled hnew
    have hfresh : (tool, argument) ∉ seen := by simpa using hnew
    cases hfind : tools.find? (fun t => t.name = tool) with
    | none =>
      rw [hfind] at h
      cases h
    | some declaration =>
      rw [hfind] at h
      obtain ⟨hdeclared, h⟩ := unit_bind_ok_iff.1 h
      rw [check_ok_iff, demand_ok_iff] at hdeclared
      refine ⟨⟨tool, argument, label, htool, hargument, hlabel, hmem, hlabelled, declaration,
        hfind, hdeclared⟩, (tool, argument), ?_, hfresh, h⟩
      rw [target, textOf, htool, Option.bind_some, textOf, hargument, Option.map_some]
  · rintro ⟨⟨tool, argument, label, htool, hargument, hlabel, hmem, hlabelled, declaration, hfind,
      hdeclared⟩, pair, hpair, hnew, h⟩
    rw [target, htool, Option.bind_some, hargument, Option.map_some, Option.some.injEq] at hpair
    subst hpair
    have hcontains : seen.contains (tool, argument) = false := by simpa using hnew
    refine bind_ok_iff.2 ⟨tool, check_ok_iff.2 (need_ok_iff.2 htool), ?_⟩
    refine bind_ok_iff.2 ⟨argument, check_ok_iff.2 (need_ok_iff.2 hargument), ?_⟩
    refine bind_ok_iff.2 ⟨label, check_ok_iff.2 (need_ok_iff.2 hlabel), ?_⟩
    refine unit_bind_ok_iff.2 ⟨check_ok_iff.2 (demand_ok_iff.2 hmem), ?_⟩
    refine unit_bind_ok_iff.2 ⟨check_ok_iff.2 (demand_ok_iff.2 hlabelled), ?_⟩
    refine unit_bind_ok_iff.2 ⟨check_ok_iff.2 (demand_ok_iff.2 hcontains), ?_⟩
    rw [hfind]
    exact unit_bind_ok_iff.2 ⟨check_ok_iff.2 (demand_ok_iff.2 hdeclared), h⟩

theorem checkBindings_ok_iff {tools : List Tool} {labels : List String}
    {seen : List (String × String)} {bindings : List Value} :
    checkBindings tools labels seen bindings = .ok () ↔
      (∀ b ∈ bindings, Bound tools labels b) ∧ (bindings.filterMap target).Nodup ∧
        ∀ pair ∈ bindings.filterMap target, pair ∉ seen := by
  induction bindings generalizing seen with
  | nil => simp [checkBindings]
  | cons b bindings ih =>
    rw [checkBindings_cons_ok_iff, List.forall_mem_cons]
    constructor
    · rintro ⟨hbound, pair, hpair, hnew, h⟩
      obtain ⟨hall, hnodup, hseen⟩ := ih.1 h
      rw [List.filterMap_cons_some hpair, List.nodup_cons, List.forall_mem_cons]
      refine ⟨⟨hbound, hall⟩, ⟨fun hin => hseen pair hin List.mem_cons_self, hnodup⟩, hnew, ?_⟩
      exact fun other hin hmem => hseen other hin (List.mem_cons_of_mem _ hmem)
    · rintro ⟨⟨hbound, hall⟩, hnodup, hseen⟩
      have hpair : ∃ pair, target b = some pair := by
        obtain ⟨tool, argument, -, htool, hargument, -⟩ := hbound
        exact ⟨(tool, argument), by rw [target, htool, Option.bind_some, hargument]; rfl⟩
      obtain ⟨pair, hpair⟩ := hpair
      rw [List.filterMap_cons_some hpair, List.nodup_cons] at hnodup
      rw [List.filterMap_cons_some hpair, List.forall_mem_cons] at hseen
      refine ⟨hbound, pair, hpair, hseen.1, ih.2 ⟨hall, hnodup.2, fun other hin hmem => ?_⟩⟩
      rcases List.mem_cons.1 hmem with rfl | hmem
      · exact hnodup.1 hin
      · exact hseen.2 other hin hmem

/-- The declaration of a tool that is known is found. -/
theorem find_of_mem {tools : List Tool} {tool : String} (h : tool ∈ tools.map Tool.name) :
    ∃ declaration, tools.find? (fun t => t.name = tool) = some declaration := by
  obtain ⟨t, ht, rfl⟩ := List.mem_map.1 h
  rw [← Option.isSome_iff_exists, List.find?_isSome]
  exact ⟨t, ht, by simp⟩

theorem returns_checkBindings (tools : List Tool) (labels : List String)
    (seen : List (String × String)) (bindings : List Value) :
    Returns (checkBindings tools labels seen bindings) := by
  induction bindings generalizing seen with
  | nil => exact returns_ok ()
  | cons b bindings ih =>
    rw [checkBindings]
    refine returns_check_bind_iff.2 fun tool _ => ?_
    refine returns_check_bind_iff.2 fun argument _ => ?_
    refine returns_check_bind_iff.2 fun label _ => ?_
    refine returns_check_bind_iff.2 fun _ hmem => ?_
    refine returns_check_bind_iff.2 fun _ _ => ?_
    refine returns_check_bind_iff.2 fun _ _ => ?_
    rw [check_ok_iff, demand_ok_iff] at hmem
    obtain ⟨declaration, hfind⟩ := find_of_mem hmem
    rw [hfind]
    exact returns_check_bind_iff.2 fun _ _ => ih _

/-- The workflow's phases and tools are known. -/
structure Connected (names : List String) (w : WorkflowConfig) : Prop where
  ids : (w.phases.map Phase.id).Nodup
  entry : w.entryPhase ∈ w.phases.map Phase.id
  allowed : ∀ p ∈ w.phases, ∀ tool ∈ p.allowedTools.getD [], tool ∈ names
  completion : ∀ p ∈ w.phases, ∀ e ∈ p.completion, e.tool ∈ names
  targets : ∀ p ∈ w.phases, ∀ edge ∈ p.transitions,
    edge.to' = "complete" ∨ edge.to' ∈ w.phases.map Phase.id
  evidence : ∀ p ∈ w.phases, ∀ edge ∈ p.transitions, edge.when' = "evidence" → edge.evidence ≠ []
  kinds : ∀ p ∈ w.phases, ∀ edge ∈ p.transitions,
    edge.when' ∈ ["phase_complete", "always", "evidence"]
  sources : ∀ p ∈ w.phases, ∀ edge ∈ p.transitions, ∀ e ∈ edge.evidence, e.tool ∈ names

theorem checkEdge_ok_iff {names ids : List String} {phase : String} {e : Edge} :
    checkEdge names ids phase e = .ok () ↔ (e.to' = "complete" ∨ e.to' ∈ ids) ∧
      (e.when' = "evidence" → e.evidence ≠ []) ∧
      e.when' ∈ ["phase_complete", "always", "evidence"] ∧ ∀ x ∈ e.evidence, x.tool ∈ names := by
  unfold checkEdge
  rw [unit_bind_ok_iff, unit_bind_ok_iff, unit_bind_ok_iff, demand_ok_iff, demand_ok_iff,
    demand_ok_iff, checkAll_ok_iff]
  simp only [checkEvidence, demand_ok_iff]

theorem checkPhase_ok_iff {names ids : List String} {p : Phase} :
    checkPhase names ids p = .ok () ↔ (∀ tool ∈ p.allowedTools.getD [], tool ∈ names) ∧
      (∀ e ∈ p.completion, e.tool ∈ names) ∧
      ∀ edge ∈ p.transitions, checkEdge names ids p.id edge = .ok () := by
  unfold checkPhase
  rw [unit_bind_ok_iff, unit_bind_ok_iff, checkAll_ok_iff, checkAll_ok_iff, checkAll_ok_iff]
  simp only [checkEvidence, demand_ok_iff]

theorem checkWorkflow_ok_iff {names : List String} {workflow : Option WorkflowConfig} :
    checkWorkflow names workflow = .ok () ↔ ∀ w ∈ workflow, Connected names w := by
  cases workflow with
  | none => simp [checkWorkflow]
  | some w =>
    change (demand _ _ >>= fun _ => demand _ _ >>= fun _ => checkAll _ _) = _ ↔ _
    rw [unit_bind_ok_iff, unit_bind_ok_iff, demand_ok_iff, demand_ok_iff, checkAll_ok_iff]
    constructor
    · rintro ⟨hids, hentry, hphases⟩ _ ⟨⟩
      have hphase := fun p hp => checkPhase_ok_iff.1 (hphases p hp)
      have hedge := fun p hp e he => checkEdge_ok_iff.1 ((hphase p hp).2.2 e he)
      exact ⟨hids, hentry, fun p hp => (hphase p hp).1, fun p hp => (hphase p hp).2.1,
        fun p hp e he => (hedge p hp e he).1, fun p hp e he => (hedge p hp e he).2.1,
        fun p hp e he => (hedge p hp e he).2.2.1, fun p hp e he => (hedge p hp e he).2.2.2⟩
    · intro h
      obtain ⟨hids, hentry, hallowed, hcompletion, htargets, hevidence, hkinds, hsources⟩ := h w rfl
      refine ⟨hids, hentry, fun p hp => checkPhase_ok_iff.2 ⟨hallowed p hp, hcompletion p hp, ?_⟩⟩
      intro e he
      exact checkEdge_ok_iff.2 ⟨htargets p hp e he, hevidence p hp e he, hkinds p hp e he,
        hsources p hp e he⟩

/-- The configurations `validate_config` accepts. -/
structure Acceptable (host : Host) (c : Config) : Prop where
  thresholds : Thresholds c.memory
  llm : LlmSettings c.llm
  sized : Sized c.memory
  window : ∃ sum, host.i64 (c.memory.reservedOutputTokens + c.memory.safetyMarginTokens) = some sum ∧
    sum < c.memory.contextWindowTokens
  bounded : Bounded c.memory
  names : (c.tools.map Tool.name).Nodup
  tools : ∀ t ∈ c.tools, Recoverable t ∧
    validateSchema host t.parameters ("tools." ++ t.name ++ ".parameters") = .ok ()
  policies : Policies c.execution
  results : Labelled (c.tools.map Tool.name) (elements c.completion "result_checks")
  answer : Answerable host c.completion
  bindings : ∀ b ∈ elements c.execution "argument_bindings",
    Bound c.tools (labels (elements c.completion "result_checks")) b
  targets : ((elements c.execution "argument_bindings").filterMap target).Nodup
  workflow : ∀ w ∈ c.workflow, Connected (c.tools.map Tool.name) w

theorem checkBudget_ok_iff {host : Host} {m : MemoryPolicy} : checkBudget host m = .ok () ↔
    Sized m ∧ (∃ sum, host.i64 (m.reservedOutputTokens + m.safetyMarginTokens) = some sum ∧
      sum < m.contextWindowTokens) ∧ Bounded m := by
  unfold checkBudget
  by_cases hs : Sized m
  · rw [if_neg (not_not.2 hs), and_iff_right hs]
    cases host.i64 (m.reservedOutputTokens + m.safetyMarginTokens) with
    | none => constructor <;> simp
    | some sum =>
      change check (demand _ _) = _ ↔ _
      rw [check_ok_iff, demand_ok_iff]
      simp
  · rw [if_pos hs]
    exact iff_of_false (fun h => by cases h) fun h => hs h.1

theorem validateConfig_ok_iff {host : Host} {c : Config} :
    validateConfig host c = .ok () ↔ Acceptable host c := by
  have hlabels : ∀ found label, checkResults (c.tools.map Tool.name) []
      (elements c.completion "result_checks") = .ok found →
      (label ∈ found ↔ label ∈ labels (elements c.completion "result_checks")) := by
    intro found label h
    obtain ⟨-, -, rfl⟩ := checkResults_ok_iff.1 h
    simp
  unfold validateConfig
  constructor
  · intro h
    obtain ⟨hthresholds, h⟩ := unit_bind_ok_iff.1 h
    obtain ⟨hllm, h⟩ := unit_bind_ok_iff.1 h
    obtain ⟨hbudget, h⟩ := unit_bind_ok_iff.1 h
    obtain ⟨htools, h⟩ := unit_bind_ok_iff.1 h
    obtain ⟨hpolicies, h⟩ := unit_bind_ok_iff.1 h
    obtain ⟨found, hresults, h⟩ := bind_ok_iff.1 h
    obtain ⟨hanswer, h⟩ := unit_bind_ok_iff.1 h
    obtain ⟨hbindings, hworkflow⟩ := unit_bind_ok_iff.1 h
    rw [check_ok_iff] at hthresholds hllm htools hpolicies hresults hanswer hworkflow
    obtain ⟨hsized, hwindow, hbounded⟩ := checkBudget_ok_iff.1 hbudget
    obtain ⟨hnames, -, hdeclared⟩ := checkTools_ok_iff.1 htools
    obtain ⟨hbound, htargets, -⟩ := checkBindings_ok_iff.1 hbindings
    refine ⟨demand_ok_iff.1 hthresholds, demand_ok_iff.1 hllm, hsized, hwindow, hbounded, hnames,
      hdeclared, checkPolicies_ok_iff.1 hpolicies, (checkResults_ok_iff.1 hresults).1,
      checkAnswer_ok_iff.1 hanswer, ?_, htargets, checkWorkflow_ok_iff.1 hworkflow⟩
    intro b hb
    obtain ⟨tool, argument, label, h₁, h₂, h₃, h₄, hlabel, h₅⟩ := hbound b hb
    exact ⟨tool, argument, label, h₁, h₂, h₃, h₄, (hlabels _ _ hresults).1 hlabel, h₅⟩
  · intro h
    have hresults : checkResults (c.tools.map Tool.name) [] (elements c.completion "result_checks") =
        .ok ((labels (elements c.completion "result_checks")).reverse ++ []) :=
      checkResults_ok_iff.2 ⟨h.results, by simp, rfl⟩
    refine unit_bind_ok_iff.2 ⟨check_ok_iff.2 (demand_ok_iff.2 h.thresholds), ?_⟩
    refine unit_bind_ok_iff.2 ⟨check_ok_iff.2 (demand_ok_iff.2 h.llm), ?_⟩
    refine unit_bind_ok_iff.2 ⟨checkBudget_ok_iff.2 ⟨h.sized, h.window, h.bounded⟩, ?_⟩
    refine unit_bind_ok_iff.2 ⟨check_ok_iff.2 (checkTools_ok_iff.2 ⟨h.names, by simp, h.tools⟩), ?_⟩
    refine unit_bind_ok_iff.2 ⟨check_ok_iff.2 (checkPolicies_ok_iff.2 h.policies), ?_⟩
    refine bind_ok_iff.2 ⟨_, check_ok_iff.2 hresults, ?_⟩
    refine unit_bind_ok_iff.2 ⟨check_ok_iff.2 (checkAnswer_ok_iff.2 h.answer), ?_⟩
    refine unit_bind_ok_iff.2 ⟨checkBindings_ok_iff.2 ⟨fun b hb => ?_, h.targets, by simp⟩,
      check_ok_iff.2 (checkWorkflow_ok_iff.2 h.workflow)⟩
    obtain ⟨tool, argument, label, h₁, h₂, h₃, h₄, hlabel, h₅⟩ := h.bindings b hb
    exact ⟨tool, argument, label, h₁, h₂, h₃, h₄, (hlabels _ _ hresults).2 hlabel, h₅⟩

/-! ## Where loading returns -/

/-- The sum of the reserve and the margin overflows, when the checks before it are passed. -/
def Overflows (host : Host) (c : Config) : Prop :=
  Thresholds c.memory ∧ LlmSettings c.llm ∧ Sized c.memory ∧
    host.i64 (c.memory.reservedOutputTokens + c.memory.safetyMarginTokens) = none

theorem returns_checkBudget_iff {host : Host} {m : MemoryPolicy} :
    Returns (checkBudget host m) ↔
      (Sized m → host.i64 (m.reservedOutputTokens + m.safetyMarginTokens) ≠ none) := by
  unfold checkBudget
  by_cases hs : Sized m
  · rw [if_neg (not_not.2 hs), forall_prop_of_true hs]
    cases host.i64 (m.reservedOutputTokens + m.safetyMarginTokens) with
    | none => exact iff_of_false (not_returns_panic _) fun h => h rfl
    | some sum => exact iff_of_true (returns_check _) (by simp)
  · rw [if_pos hs]
    exact iff_of_true (returns_error _) fun h => absurd h hs

theorem returns_validateConfig_iff {host : Host} {c : Config} :
    Returns (validateConfig host c) ↔ ¬Overflows host c := by
  unfold validateConfig
  rw [returns_check_bind_iff]
  constructor
  · intro h hover
    obtain ⟨hthresholds, hllm, hsized, hnone⟩ := hover
    have h := returns_check_bind_iff.1 (h () (check_ok_iff.2 (demand_ok_iff.2 hthresholds)))
    have h := returns_bind_iff.1 (h () (check_ok_iff.2 (demand_ok_iff.2 hllm)))
    exact returns_checkBudget_iff.1 h.1 hsized hnone
  · intro hover _ hthresholds
    rw [returns_check_bind_iff]
    intro _ hllm
    rw [check_ok_iff, demand_ok_iff] at hthresholds hllm
    refine returns_bind_iff.2 ⟨returns_checkBudget_iff.2 fun hsized hnone => ?_, fun _ _ => ?_⟩
    · exact hover ⟨hthresholds, hllm, hsized, hnone⟩
    · refine returns_check_bind_iff.2 fun _ _ => ?_
      refine returns_check_bind_iff.2 fun _ _ => ?_
      refine returns_check_bind_iff.2 fun _ _ => ?_
      refine returns_check_bind_iff.2 fun _ _ => ?_
      refine returns_bind_iff.2 ⟨returns_checkBindings _ _ _ _, fun _ _ => ?_⟩
      exact returns_check _

theorem returns_expectObject_iff {v : Value} {site : String} :
    Returns (expectObject v site) ↔ v.isObject = true := by
  unfold expectObject
  by_cases h : v.isObject = true
  · rw [if_pos h]
    exact iff_of_true (returns_ok ()) h
  · rw [if_neg h]
    exact iff_of_false (not_returns_panic site) h

theorem expectObject_ok_iff {v : Value} {site : String} :
    expectObject v site = .ok () ↔ v.isObject = true := by
  unfold expectObject
  by_cases h : v.isObject = true
  · rw [if_pos h]
    exact iff_of_true rfl h
  · rw [if_neg h]
    exact iff_of_false (fun heq => by cases heq) h

theorem completed_execution (c : Config) :
    (ConfigHash.withDefault "execution" (.obj []) c.toValue).index "execution" = c.execution := by
  simp [ConfigHash.withDefault, Config.toValue]

theorem completed_completion (c : Config) :
    (ConfigHash.withDefault "completion" (.obj []) c.toValue).index "completion" = c.completion := by
  simp [ConfigHash.withDefault, Config.toValue]

theorem returns_completeConfigValue_iff {c : Config} : Returns (completeConfigValue c.toValue) ↔
    c.execution.isObject = true ∧ c.completion.isObject = true := by
  unfold completeConfigValue
  rw [completed_execution, completed_completion, returns_bind_iff, returns_expectObject_iff]
  constructor
  · intro h
    have h := returns_bind_iff.1 (h.2 () (expectObject_ok_iff.2 rfl))
    have hexecution := returns_expectObject_iff.1 h.1
    have h := returns_bind_iff.1 (h.2 () (expectObject_ok_iff.2 hexecution))
    exact ⟨hexecution, returns_expectObject_iff.1 h.1⟩
  · rintro ⟨hexecution, hcompletion⟩
    refine ⟨rfl, fun _ _ => ?_⟩
    refine returns_bind_iff.2 ⟨returns_expectObject_iff.2 hexecution, fun _ _ => ?_⟩
    exact returns_bind_iff.2 ⟨returns_expectObject_iff.2 hcompletion, fun _ _ => returns_ok _⟩

theorem completeConfigValue_ok_iff {c : Config} {v : Value} :
    completeConfigValue c.toValue = .ok v ↔
      (c.execution.isObject = true ∧ c.completion.isObject = true) ∧
        v = ConfigHash.completeConfigValue c.toValue := by
  unfold completeConfigValue
  rw [completed_execution, completed_completion, unit_bind_ok_iff, unit_bind_ok_iff,
    unit_bind_ok_iff, expectObject_ok_iff, expectObject_ok_iff, expectObject_ok_iff]
  constructor
  · rintro ⟨-, hexecution, hcompletion, ⟨⟩⟩
    exact ⟨⟨hexecution, hcompletion⟩, rfl⟩
  · rintro ⟨⟨hexecution, hcompletion⟩, rfl⟩
    exact ⟨rfl, hexecution, hcompletion, rfl⟩

/-- The exponents `serde_json` prints are read. -/
theorem readsExponent_numeral {n : Decimal.Numeral} (hlow : -2 ^ 31 ≤ n.exp)
    (hhigh : n.exp < 2 ^ 31) : readsExponent (.ofList n.text) = true := by
  have hrest : n.text.dropWhile (fun c => !(c = 'e' || c = 'E')) =
      Decimal.Numeral.exponentText n.exponent := Engine.dropWhile_text n
  unfold readsExponent
  rw [String.toList_ofList, hrest]
  cases he : n.exponent with
  | none => rfl
  | some e =>
    have hval : n.exp = e.2 := by rw [Decimal.Numeral.exp, he]; rfl
    have hparse := parseInt_exponent e.1 (hval ▸ hlow) (hval ▸ hhigh)
    rw [Bool.or_eq_true]
    right
    change (Text.parseInt 32 (.ofList ((if e.1 && decide (0 ≤ e.2) then ['+'] else []) ++
      (toString e.2).toList))).isSome = true
    rw [hparse]
    rfl

theorem exponentsReadItems_iff {host : Host} {items : List Value} :
    exponentsReadItems host items = true ↔ ∀ v ∈ items, exponentsRead host v = true := by
  induction items with
  | nil => simp [exponentsReadItems]
  | cons v items ih => rw [exponentsReadItems, Bool.and_eq_true, ih, List.forall_mem_cons]

theorem exponentsReadFields_iff {host : Host} {fields : List (String × Value)} :
    exponentsReadFields host fields = true ↔ ∀ f ∈ fields, exponentsRead host f.2 = true := by
  induction fields with
  | nil => simp [exponentsReadFields]
  | cons f fields ih => rw [exponentsReadFields, Bool.and_eq_true, ih, List.forall_mem_cons]

theorem exponentsRead_of_prints {host : Host} (hp : host.Prints) (v : Value) :
    exponentsRead host v = true := by
  induction v using Value.induct_mem with
  | null | bool | str => rfl
  | num n =>
    cases n with
    | int i => rfl
    | float f =>
      rw [exponentsRead]
      cases hzero : f.isZero with
      | true => rfl
      | false =>
        obtain ⟨n, htext, hlow, hhigh, -⟩ := hp f hzero
        rw [htext]
        exact readsExponent_numeral hlow hhigh
  | arr items ih =>
    rw [exponentsRead]
    exact exponentsReadItems_iff.2 ih
  | obj fields ih =>
    rw [exponentsRead]
    exact exponentsReadFields_iff.2 ih

theorem returns_canonicalJson {host : Host} (hp : host.Prints) (v : Value) :
    Returns (canonicalJson host v) := by
  unfold canonicalJson
  rw [if_pos (exponentsRead_of_prints hp v)]
  exact returns_ok _

theorem returns_resolvedConfigHash {host : Host} (hp : host.Prints) {c : Config}
    (hexecution : c.execution.isObject = true) (hcompletion : c.completion.isObject = true) :
    Returns (resolvedConfigHash host c) := by
  unfold resolvedConfigHash
  refine returns_bind_iff.2 ⟨returns_completeConfigValue_iff.2 ⟨hexecution, hcompletion⟩,
    fun _ _ => ?_⟩
  refine returns_check_bind_iff.2 fun _ _ => ?_
  refine returns_check_bind_iff.2 fun _ _ => ?_
  refine returns_check_bind_iff.2 fun _ _ => ?_
  refine returns_check_bind_iff.2 fun _ _ => ?_
  exact returns_bind_iff.2 ⟨returns_canonicalJson hp _, fun _ _ => returns_ok _⟩

theorem cfg_eq {loader : Loader} {document : Value} {c : Config}
    (hc : typed loader document = some c) : cfg loader document =
      ((validateConfig loader.toHost c).mapError Stop.report >>= fun _ =>
        completeConfigValue c.toValue >>= fun snapshot => .ok (c, snapshot)) := by
  obtain ⟨agent, hagent, hconfig⟩ := Option.bind_eq_some_iff.1 hc
  unfold cfg
  rw [hagent]
  change (check (need (Derived.config agent) _) >>= _) = _
  rw [hconfig]
  rfl

/-- A load returns when the sum of the budget does not overflow, and a configuration that passes
the checks has mappings for `execution` and `completion`. -/
theorem load_returns_iff {loader : Loader} (hp : loader.toHost.Prints) {document : Value}
    {c : Config} (hc : typed loader document = some c) :
    Returns (load loader document) ↔ ¬Overflows loader.toHost c ∧
      (Acceptable loader.toHost c →
        c.execution.isObject = true ∧ c.completion.isObject = true) := by
  unfold load
  rw [cfg_eq hc, returns_bind_iff, returns_bind_iff, returns_report_iff, returns_validateConfig_iff]
  constructor
  · rintro ⟨⟨hover, hcomplete⟩, -⟩
    refine ⟨hover, fun hok => ?_⟩
    have h := returns_bind_iff.1 (hcomplete () (report_ok_iff.2 (validateConfig_ok_iff.2 hok)))
    exact returns_completeConfigValue_iff.1 h.1
  · rintro ⟨hover, hmapped⟩
    refine ⟨⟨hover, fun _ hok => ?_⟩, ?_⟩
    · have hobjects := hmapped (validateConfig_ok_iff.1 (report_ok_iff.1 hok))
      exact returns_bind_iff.2 ⟨returns_completeConfigValue_iff.2 hobjects, fun _ _ => returns_ok _⟩
    · rintro ⟨c', snapshot⟩ h
      obtain ⟨hok, h⟩ := unit_bind_ok_iff.1 h
      obtain ⟨_, -, ⟨⟩⟩ := bind_ok_iff.1 h
      obtain ⟨hexecution, hcompletion⟩ := hmapped (validateConfig_ok_iff.1 (report_ok_iff.1 hok))
      exact returns_bind_iff.2 ⟨returns_resolvedConfigHash hp hexecution hcompletion,
        fun _ _ => returns_ok _⟩

/-- The libraries as documented, and no variables. -/
def plainLoader : Loader := { exactHost with env := fun _ => none, typeError := fun _ => "" }

/-- A small configuration with this `execution`. -/
def smallDocument (execution : Value) : Value :=
  .obj [("agent", .obj [("name", .str "a"), ("system_prompt", .str "s"), ("model", .str "m"),
    ("llm", .obj [("base_url", .str "u"), ("temperature", .int 0), ("timeout_seconds", .int 1)]),
    ("memory", .obj [("max_tokens", .int 1), ("max_steps", .int 1), ("raw_turns_to_keep", .int 1)]),
    ("tools", .arr []), ("execution", execution)])]

theorem load_returns_small : ∃ c, typed plainLoader (smallDocument (.obj [])) = some c ∧
    (Returns (load plainLoader (smallDocument (.obj []))) ↔ ¬Overflows plainLoader.toHost c ∧
      (Acceptable plainLoader.toHost c →
        c.execution.isObject = true ∧ c.completion.isObject = true)) := by
  have hsome : (typed plainLoader (smallDocument (.obj []))).isSome = true := by decide +kernel
  obtain ⟨c, hc⟩ := Option.isSome_iff_exists.1 hsome
  exact ⟨c, hc, load_returns_iff exactHost_prints hc⟩

/-- Why a load stops, if it does. -/
def stopOf {α : Type} : Loading α → Option Stop
  | .ok _ => none
  | .error stop => some stop

theorem eq_error_of_stopOf {α : Type} {x : Loading α} {stop : Stop} (h : stopOf x = some stop) :
    x = .error stop := by
  cases x with
  | ok a => cases h
  | error s =>
    cases h
    rfl

/-- The document writes `execution: null`. -/
theorem load_nullExecution : (typed plainLoader (smallDocument .null)).isSome = true ∧
    ¬Returns (load plainLoader (smallDocument .null)) := by
  have hstop : stopOf (load plainLoader (smallDocument .null)) = some (.panic "execution object") := by
    decide +kernel
  constructor
  · decide +kernel
  · intro h
    exact h "execution object" (eq_error_of_stopOf hstop)

end Config

end StateDrivenAgent
