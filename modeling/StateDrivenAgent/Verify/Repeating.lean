import StateDrivenAgent.Verify.Evidence
import StateDrivenAgent.Verify.Pacing

/-!
# Repeated work

What an executed call changes in what progress is measured by. The fingerprint is the digest of the
workflow, the captured artifacts and the seen outputs; a call that is made again supplies no evidence
and adds no output, but an artifact it captures is stored with the identity of the call and the step,
and the fingerprint covers both (`progressFingerprint_applyOutput_iff`).
-/

namespace StateDrivenAgent

open Interaction

/-! ## The text of a value -/

namespace Value

variable {host : Host}

mutual

/-- The tree of the text serde writes. -/
def tree (host : Host) : Value → Spelling
  | .null => .null
  | .bool b => .bool b
  | .num n => .num (n.text host).toList
  | .str s => .str s
  | .arr items => .arr (treeItems host items)
  | .obj fields => .obj (treeFields host fields)

def treeItems (host : Host) : List Value → List Spelling
  | [] => []
  | v :: vs => v.tree host :: treeItems host vs

def treeFields (host : Host) : List (String × Value) → List (String × Spelling)
  | [] => []
  | (k, v) :: rest => (k, v.tree host) :: treeFields host rest

end

theorem treeItems_eq (items : List Value) : treeItems host items = items.map (tree host) := by
  induction items with
  | nil => rfl
  | cons v items ih => rw [treeItems, ih, List.map_cons]

theorem lookup_treeFields (k : String) (fields : List (String × Value)) :
    lookup k (treeFields host fields) = (lookup k fields).map (tree host) := by
  induction fields with
  | nil => rfl
  | cons f fields ih =>
    rw [treeFields, lookup, lookup]
    split
    · rfl
    · exact ih

theorem stringText_eq (s : String) : Spelling.stringText s = (jsonString s).toList := by
  rw [jsonString, String.toList_ofList]
  rfl

theorem comma_toList : ",".toList = [','] := rfl

mutual

theorem tree_text (host : Host) : ∀ v : Value, (v.tree host).text = (v.text host).toList
  | .null => by
    rw [tree, Spelling.text, Value.text]
    rfl
  | .bool true => by
    rw [tree, Spelling.text, Value.text, if_pos rfl]
    rfl
  | .bool false => by
    rw [tree, Spelling.text, Value.text, if_neg Bool.false_ne_true]
    rfl
  | .num n => rfl
  | .str s => stringText_eq s
  | .arr items => by
    rw [tree, Spelling.text, treeItems_text host items, Value.text, String.toList_append,
      String.toList_append]
    rfl
  | .obj fields => by
    rw [tree, Spelling.text, treeFields_text host fields, Value.text, String.toList_append,
      String.toList_append]
    rfl

theorem treeItems_text (host : Host) : ∀ items : List Value,
    Spelling.textItems (treeItems host items) =
      (Text.joinWith "," (Value.textItems host items)).toList
  | [] => rfl
  | [v] => by
    rw [treeItems, treeItems, Spelling.textItems, tree_text host v]
    simp [Value.textItems, Text.joinWith]
  | v :: w :: rest => by
    rw [treeItems, treeItems, Spelling.textItems_cons_cons, tree_text host v, Value.textItems,
      Value.textItems, Text.joinWith_cons comma_toList, ← Value.textItems,
      ← treeItems_text host (w :: rest), treeItems]

theorem treeFields_text (host : Host) : ∀ fields : List (String × Value),
    Spelling.textFields (treeFields host fields) =
      (Text.joinWith "," (Value.textFields host fields)).toList
  | [] => rfl
  | [(k, v)] => by
    rw [treeFields, treeFields, Spelling.textFields, tree_text host v, stringText_eq]
    simp [Value.textFields, Text.joinWith]
  | (k, v) :: (l, w) :: rest => by
    rw [treeFields, treeFields, Spelling.textFields_cons_cons, tree_text host v, stringText_eq,
      Value.textFields, Value.textFields, Text.joinWith_cons comma_toList, ← Value.textFields,
      ← treeFields_text host ((l, w) :: rest), treeFields]
    simp

end

theorem number_tokens (hs : host.Shows) (n : Number) :
    (Spelling.num (n.text host).toList).Tokens := by
  have hnumeral : ∃ m : Decimal.Numeral, n.text host = .ofList m.text := by
    cases n with
    | int i => exact ⟨_, Number.toString_numeral i⟩
    | float f =>
      obtain ⟨m, hm, -⟩ := hs f
      exact ⟨m, hm⟩
  obtain ⟨m, hm⟩ := hnumeral
  obtain ⟨c, cs, hcs, -⟩ := m.unsigned_head
  rw [hm, String.toList_ofList]
  refine ⟨fun hnil => ?_, isNumberChar_text m⟩
  rw [Decimal.Numeral.text, hcs] at hnil
  simp at hnil

mutual

theorem tree_tokens (hs : host.Shows) : ∀ v : Value, (v.tree host).Tokens
  | .null => trivial
  | .bool _ => trivial
  | .num n => number_tokens hs n
  | .str _ => trivial
  | .arr items => treeItems_tokens hs items
  | .obj fields => treeFields_tokens hs fields

theorem treeItems_tokens (hs : host.Shows) : ∀ items : List Value,
    Spelling.TokensItems (treeItems host items)
  | [] => trivial
  | v :: rest => ⟨tree_tokens hs v, treeItems_tokens hs rest⟩

theorem treeFields_tokens (hs : host.Shows) : ∀ fields : List (String × Value),
    Spelling.TokensFields (treeFields host fields)
  | [] => trivial
  | (_, v) :: rest => ⟨tree_tokens hs v, treeFields_tokens hs rest⟩

end

/-- Two values with one text have one tree. -/
theorem tree_eq_of_text (hs : host.Shows) {v w : Value} (h : v.text host = w.text host) :
    v.tree host = w.tree host :=
  Spelling.text_injective (tree_tokens hs v) (tree_tokens hs w) (by rw [tree_text, tree_text, h])

theorem tree_str {v : Value} {s : String} (h : v.tree host = .str s) : v = .str s := by
  cases v with
  | str t => rw [Spelling.str.inj h]
  | _ => cases h

/-- Values with one tree have one text, so one tree in each property. -/
theorem get_of_tree_eq {v w a : Value} {k : String} (h : v.tree host = w.tree host)
    (hv : v.get k = some a) : ∃ b, w.get k = some b ∧ b.tree host = a.tree host := by
  cases v with
  | obj fs =>
    cases w with
    | obj gs =>
      have hv : lookup k fs = some a := hv
      have hlookup : lookup k (treeFields host gs) = (lookup k fs).map (tree host) := by
        rw [← Spelling.obj.inj h, lookup_treeFields]
      rw [lookup_treeFields, hv, Option.map_some, Option.map_eq_some_iff] at hlookup
      exact hlookup
    | _ => cases h
  | _ => cases hv

end Value

/-! ## What a call changes -/

namespace Engine

variable {e : Engine} {id name output : String} {args : List (String × Value)} {s : Session}

/-- A result check captures the call. -/
structure Captures (e : Engine) (check : Value) (name : String) (args : List (String × Value))
    (output : String) : Prop where
  tool : setting check "tool" = some name
  arguments : contains e.host (.obj args) ((check.get "arguments").getD (.obj [])) = true
  result : ∀ fields, check.get "result" = some (.obj fields) → fields ≠ [] →
    ∃ parsed, parseStrictJson e.host output = .ok parsed ∧
      contains e.host parsed (.obj fields) = true
  extracted : (extractResult e.host check output).isSome = true

/-- The result a check expects: an object without properties expects nothing. -/
theorem expected_iff {r : Option Value} {test : Value → Bool} :
    ((r.filter fun v => v.asObject.any fun fields => !fields.isEmpty).any fun v => !test v) = false ↔
      ∀ fields, r = some (.obj fields) → fields ≠ [] → test (.obj fields) = true := by
  cases r with
  | none => exact iff_of_true rfl nofun
  | some v =>
    cases v with
    | obj fields =>
      cases fields with
      | nil =>
        refine iff_of_true rfl fun fields h hne => ?_
        exact absurd (Value.obj.inj (Option.some.inj h)).symm hne
      | cons f fields =>
        have hany : ((some (Value.obj (f :: fields))).filter fun v =>
            v.asObject.any fun fields => !fields.isEmpty) = some (.obj (f :: fields)) := rfl
        rw [hany, Option.any_some, Bool.not_eq_false']
        exact ⟨fun h _ heq _ => Option.some.inj heq ▸ h, fun h => h _ rfl (List.cons_ne_nil _ _)⟩
    | _ => exact iff_of_true rfl fun _ h => nomatch h

theorem captured_isSome_iff {check : Value} :
    (e.captured check name args output).isSome = true ↔ e.Captures check name args output := by
  have hparsed : ∀ fields, ((parseStrictJson e.host output).toOption.any fun parsed =>
      contains e.host parsed (.obj fields)) = true ↔ ∃ parsed,
        parseStrictJson e.host output = .ok parsed ∧ contains e.host parsed (.obj fields) = true := by
    intro fields
    cases parseStrictJson e.host output with
    | error problem => exact ⟨fun h => (Bool.false_ne_true h).elim, fun ⟨_, h, _⟩ => nomatch h⟩
    | ok parsed => exact ⟨fun h => ⟨parsed, rfl, h⟩, fun ⟨_, h, hc⟩ => Except.ok.inj h ▸ hc⟩
  unfold captured
  dsimp only
  split
  next h =>
    refine ⟨fun hsome => (Bool.false_ne_true hsome).elim, fun hc => ?_⟩
    rw [hc.tool, hc.arguments] at h
    simp at h
  next h =>
    have h : setting check "tool" = some name ∧
        contains e.host (.obj args) ((check.get "arguments").getD (.obj [])) = true := by
      simpa using h
    split
    next hany =>
      refine ⟨fun hsome => (Bool.false_ne_true hsome).elim, fun hc => ?_⟩
      refine absurd (expected_iff.2 fun fields hget hne => ?_) (Bool.eq_false_iff.not.2 (not_not.2 hany))
      exact (hparsed fields).2 (hc.result fields hget hne)
    next hany =>
      refine ⟨fun hsome => ⟨h.1, h.2, fun fields hget hne => ?_, hsome⟩, fun hc => hc.extracted⟩
      exact (hparsed fields).1 (expected_iff.1 (Bool.eq_false_iff.2 hany) fields hget hne)

/-- The artifact under this key is of the call with this identity. -/
def Stamped (id k : String) (artifacts : Value) : Prop :=
  ∃ a, artifacts.get k = some a ∧ a.get "tool_call_id" = some (.str id)

/-- No artifact of the session is of the call with this identity. -/
def FreshCall (id : String) (s : Session) : Prop := ∀ k, ¬Stamped id k s.completionArtifacts

section artifacts

variable {step : Int} {artifacts : Value} {x : Value × Nat}

theorem captureOne_of_not_captures (h : ¬e.Captures x.1 name args output) :
    e.captureOne id name args output step artifacts x = artifacts := by
  have hnone : e.captured x.1 name args output = none := by
    rw [← Option.not_isSome_iff_eq_none]
    exact fun hsome => h (captured_isSome_iff.1 hsome)
  rw [captureOne, hnone]

/-- A capture sets the artifact of its check. -/
theorem captureOne_of_captures (id : String) (step : Int) (artifacts : Value)
    (h : e.Captures x.1 name args output) : ∃ fields a,
    e.captureOne id name args output step artifacts x =
      .obj (insertField (toString x.2) a fields) ∧
    (artifacts = .obj fields ∨ fields = [] ∧ artifacts.isObject = false) ∧
    a.get "tool_call_id" = some (.str id) := by
  obtain ⟨v, hv⟩ := Option.isSome_iff_exists.1 (captured_isSome_iff.2 h)
  rw [captureOne, hv]
  dsimp only
  cases artifacts with
  | obj fields => exact ⟨fields, _, rfl, .inl rfl, rfl⟩
  | _ => exact ⟨[], _, rfl, .inr ⟨rfl, rfl⟩, rfl⟩

theorem captureOne_stamps (h : e.Captures x.1 name args output) :
    Stamped id (toString x.2) (e.captureOne id name args output step artifacts x) := by
  obtain ⟨fields, a, hset, -, ha⟩ := captureOne_of_captures id step artifacts h
  exact ⟨a, by rw [hset]; exact lookup_insertField_self _ _ _, ha⟩

theorem captureOne_stamped {k : String} (h : Stamped id k artifacts) :
    Stamped id k (e.captureOne id name args output step artifacts x) := by
  by_cases hc : e.Captures x.1 name args output
  · obtain ⟨fields, a, hset, hfields, ha⟩ := captureOne_of_captures id step artifacts hc
    rw [hset]
    by_cases hk : k = toString x.2
    · rw [hk]
      exact ⟨a, lookup_insertField_self _ _ _, ha⟩
    · obtain ⟨b, hb, hid⟩ := h
      refine ⟨b, ?_, hid⟩
      rcases hfields with rfl | ⟨-, hno⟩
      · exact (lookup_insertField_of_ne _ _ _ _ (Ne.symm hk)).trans hb
      · cases artifacts with
        | obj fields => cases hno
        | _ => cases hb
  · rwa [captureOne_of_not_captures hc]

theorem foldl_captureOne_stamped {k : String} (xs : List (Value × Nat))
    (h : Stamped id k artifacts) :
    Stamped id k (xs.foldl (e.captureOne id name args output step) artifacts) := by
  induction xs generalizing artifacts with
  | nil => exact h
  | cons x xs ih => exact ih (captureOne_stamped h)

theorem foldl_captureOne_stamps {xs : List (Value × Nat)} (hmem : x ∈ xs)
    (h : e.Captures x.1 name args output) :
    Stamped id (toString x.2) (xs.foldl (e.captureOne id name args output step) artifacts) := by
  induction xs generalizing artifacts with
  | nil => cases hmem
  | cons y xs ih =>
    rcases List.mem_cons.1 hmem with rfl | hmem
    · exact foldl_captureOne_stamped xs (captureOne_stamps h)
    · exact ih hmem

theorem foldl_captureOne_of_none {xs : List (Value × Nat)}
    (h : ∀ x ∈ xs, ¬e.Captures x.1 name args output) :
    xs.foldl (e.captureOne id name args output step) artifacts = artifacts := by
  induction xs with
  | nil => rfl
  | cons x xs ih =>
    obtain ⟨hx, hxs⟩ := List.forall_mem_cons.1 h
    rw [List.foldl_cons, captureOne_of_not_captures hx]
    exact ih hxs

theorem artifactsAfter_of_none
    (h : failed output = true ∨ ∀ check ∈ e.resultChecks, ¬e.Captures check name args output) :
    e.artifactsAfter artifacts id name args output step = artifacts := by
  rw [artifactsAfter]
  split
  · rfl
  next hfailed =>
    refine foldl_captureOne_of_none fun x hx => ?_
    exact h.resolve_left hfailed x.1 (List.mem_of_getElem? (List.mem_zipIdx_iff_getElem?.1 hx))

/-- A fresh call leaves the artifacts as they are only where it captures none. -/
theorem artifactsAfter_iff (hfresh : ∀ k, ¬Stamped id k artifacts) :
    (e.artifactsAfter artifacts id name args output step).tree e.host = artifacts.tree e.host ↔
      failed output = true ∨ ∀ check ∈ e.resultChecks, ¬e.Captures check name args output := by
  refine ⟨fun h => or_iff_not_imp_left.2 fun hfailed check hcheck hc => ?_,
    fun h => by rw [artifactsAfter_of_none h]⟩
  rw [artifactsAfter, if_neg hfailed] at h
  obtain ⟨i, hi⟩ := List.mem_iff_getElem?.1 hcheck
  have hmem : (check, i) ∈ e.resultChecks.zipIdx := List.mem_zipIdx_iff_getElem?.2 hi
  have hstamped : Stamped id (toString i)
      (e.resultChecks.zipIdx.foldl (e.captureOne id name args output step) artifacts) :=
    foldl_captureOne_stamps hmem hc
  obtain ⟨a, ha, hid⟩ := hstamped
  -- the artifact would have been there before, with the identity of the call
  obtain ⟨b, hb, htree⟩ := Value.get_of_tree_eq h ha
  obtain ⟨v, hv, hvid⟩ := Value.get_of_tree_eq htree.symm hid
  exact hfresh _ ⟨b, hb, by rw [hv, Value.tree_str hvid]⟩

end artifacts

/-! ### Evidence -/

section evidence

variable {p : Phase}

theorem length_le_foldl_recordOne (xs : List (String × Nat × Evidence)) (observed : List String) :
    observed.length ≤ (xs.foldl (e.recordOne p name args output) observed).length := by
  induction xs generalizing observed with
  | nil => exact Nat.le_refl _
  | cons x xs ih =>
    refine Nat.le_trans ?_ (ih _)
    rw [recordOne]
    split
    · simp
    · exact Nat.le_refl _

/-- A call records no evidence exactly when all it supplies has been observed. -/
theorem foldl_recordOne_eq_iff (xs : List (String × Nat × Evidence)) (observed : List String) :
    xs.foldl (e.recordOne p name args output) observed = observed ↔ ∀ x ∈ xs,
      evidenceMatches e.host x.2.2 name args output = true → key p.id x.1 x.2.1 ∈ observed := by
  induction xs with
  | nil => exact iff_of_true rfl nofun
  | cons x xs ih =>
    rw [List.foldl_cons, List.forall_mem_cons]
    by_cases hx : evidenceMatches e.host x.2.2 name args output = true →
        key p.id x.1 x.2.1 ∈ observed
    · have hsame : e.recordOne p name args output observed x = observed := by
        rw [recordOne]
        rw [if_neg]
        intro hnew
        rw [Bool.and_eq_true, Bool.not_eq_true'] at hnew
        have hmem := List.contains_iff_mem.2 (hx hnew.2)
        rw [hnew.1] at hmem
        cases hmem
      rw [hsame, ih, and_iff_right hx]
    · refine iff_of_false (fun heq => ?_) fun h => hx h.1
      obtain ⟨hmatch, hnew⟩ := Classical.not_imp.1 hx
      have happend : e.recordOne p name args output observed x =
          observed ++ [key p.id x.1 x.2.1] := by
        rw [recordOne]
        rw [if_pos]
        rw [hmatch, Bool.and_true, Bool.not_eq_true', ← Bool.not_eq_true, List.contains_iff_mem]
        exact hnew
      have hlength := @length_le_foldl_recordOne e name output args p xs
        (observed ++ [key p.id x.1 x.2.1])
      rw [← happend, heq, happend, List.length_append, List.length_singleton] at hlength
      omega

end evidence

/-! ### The fingerprint -/

theorem tree_ofStrs {host : Host} {as bs : List String}
    (h : (Value.ofStrs as).tree host = (Value.ofStrs bs).tree host) : as = bs := by
  have hitems := Spelling.arr.inj h
  rw [Value.treeItems_eq, Value.treeItems_eq, List.map_map, List.map_map] at hitems
  exact List.map_injective_iff.2 (fun a b h => Spelling.str.inj h) hitems

/-- The workflow as the fingerprint covers it. -/
def coveredWorkflow (e : Engine) (s : Session) : Value :=
  if e.config.workflow.isSome then Value.ofOption Workflow.toValue s.workflow else .null

/-- The outputs the fingerprint covers. -/
def coveredOutputs (e : Engine) (s : Session) : List String :=
  if e.config.workflow.isNone then s.progressSeenOutputs else []

theorem progressFingerprint_eq_covered (e : Engine) (s : Session) : e.progressFingerprint s =
    e.host.sha256 ((Value.arr [e.coveredWorkflow s, s.completionArtifacts,
      Value.ofStrs (e.coveredOutputs s)]).text e.host) := by
  have houtputs : (if e.config.workflow.isNone then s.progressSeenOutputs.map Value.str else []) =
      (e.coveredOutputs s).map Value.str := by
    unfold coveredOutputs
    split <;> rfl
  rw [progressFingerprint, houtputs]
  rfl

theorem progressFingerprint_congr {s s' : Session}
    (hw : (e.coveredWorkflow s').tree e.host = (e.coveredWorkflow s).tree e.host)
    (ha : s'.completionArtifacts.tree e.host = s.completionArtifacts.tree e.host)
    (ho : e.coveredOutputs s' = e.coveredOutputs s) :
    e.progressFingerprint s' = e.progressFingerprint s := by
  have htree : (Value.arr [e.coveredWorkflow s', s'.completionArtifacts,
      Value.ofStrs (e.coveredOutputs s')]).tree e.host = (Value.arr [e.coveredWorkflow s,
        s.completionArtifacts, Value.ofStrs (e.coveredOutputs s)]).tree e.host := by
    simp only [Value.tree, Value.treeItems, hw, ha, ho]
  have htext := congrArg Spelling.text htree
  rw [Value.tree_text, Value.tree_text] at htext
  rw [progressFingerprint_eq_covered, progressFingerprint_eq_covered, String.toList_injective htext]

/-- Two sessions have one fingerprint exactly when it covers the same. -/
theorem progressFingerprint_eq_iff (hs : e.host.Shows) (hsha : Function.Injective e.host.sha256)
    {s s' : Session} : e.progressFingerprint s' = e.progressFingerprint s ↔
      (e.coveredWorkflow s').tree e.host = (e.coveredWorkflow s).tree e.host ∧
      s'.completionArtifacts.tree e.host = s.completionArtifacts.tree e.host ∧
      e.coveredOutputs s' = e.coveredOutputs s := by
  refine ⟨fun h => ?_, fun h => progressFingerprint_congr h.1 h.2.1 h.2.2⟩
  rw [progressFingerprint_eq_covered, progressFingerprint_eq_covered, hsha.eq_iff] at h
  have htree := Spelling.arr.inj (Value.tree_eq_of_text hs h)
  simp only [Value.treeItems, List.cons.injEq, and_true] at htree
  exact ⟨htree.1, htree.2.1, tree_ofStrs htree.2.2⟩

/-- What `record_progress_output` keeps of an output. -/
def outputHash (e : Engine) (name : String) (args : List (String × Value)) (output : String) :
    String := e.host.sha256 ((Value.arr [.str name, .obj args, .str output]).text e.host)

/-- The output is among those the session has seen and still retains. -/
def Recorded (e : Engine) (name : String) (args : List (String × Value)) (output : String)
    (s : Session) : Prop :=
  e.config.workflow = none → s.workflow = none → failed output = false →
    e.outputHash name args output ∈ s.progressSeenOutputs ∧ s.progressSeenOutputs.length ≤ 64

/-- The call supplies nothing progress is measured by: no result check captures it, and what it is
evidence of in the active phase has been observed. -/
structure Idle (e : Engine) (name : String) (args : List (String × Value)) (output : String)
    (s : Session) : Prop where
  artifacts : failed output = true ∨ ∀ check ∈ e.resultChecks, ¬e.Captures check name args output
  evidence : e.config.workflow.isSome = true → ∀ w p, s.workflow = some w →
    w.activePhase.bind e.phase = some p → ∀ x ∈ phaseEvidence p,
      evidenceMatches e.host x.2.2 name args output = true → key p.id x.1 x.2.1 ∈ w.observedEvidence

theorem recordWorkflow_tree_iff {w : Workflow} :
    (e.recordWorkflow w name args output).toValue.tree e.host = w.toValue.tree e.host ↔
      ∀ p, w.activePhase.bind e.phase = some p → ∀ x ∈ phaseEvidence p,
        evidenceMatches e.host x.2.2 name args output = true →
          key p.id x.1 x.2.1 ∈ w.observedEvidence := by
  unfold recordWorkflow
  cases hp : w.activePhase.bind e.phase with
  | none => exact iff_of_true rfl nofun
  | some p =>
    constructor
    · intro h p' hp'
      obtain rfl := Option.some.inj hp'
      obtain ⟨b, hb, htree⟩ := @Value.get_of_tree_eq _ _ _ _ "observed_evidence" h rfl
      obtain rfl := Option.some.inj hb
      exact (foldl_recordOne_eq_iff _ _).1 (tree_ofStrs htree).symm
    · intro h
      dsimp only
      rw [(foldl_recordOne_eq_iff _ _).2 (h p rfl)]

/-- The workflow after a call is the workflow before it, to the fingerprint. -/
theorem coveredWorkflow_applyOutput_iff :
    (e.coveredWorkflow (e.applyOutput id name args output s)).tree e.host =
      (e.coveredWorkflow s).tree e.host ↔
    (e.config.workflow.isSome = true → ∀ w p, s.workflow = some w →
      w.activePhase.bind e.phase = some p → ∀ x ∈ phaseEvidence p,
        evidenceMatches e.host x.2.2 name args output = true →
          key p.id x.1 x.2.1 ∈ w.observedEvidence) := by
  have hworkflow : (e.applyOutput id name args output s).workflow =
      s.workflow.map fun w => e.recordWorkflow w name args output := by
    unfold applyOutput
    dsimp only
    split <;> rfl
  unfold coveredWorkflow
  split
  next hsome =>
    rw [hworkflow, forall_prop_of_true hsome]
    cases s.workflow with
    | none => exact iff_of_true rfl nofun
    | some w =>
      refine recordWorkflow_tree_iff.trans ⟨fun h w' p hw => ?_, fun h p => h w p rfl⟩
      obtain rfl := Option.some.inj hw
      exact h p
  next hnone => exact iff_of_true rfl fun h => absurd h hnone

/-- An output that has been recorded is not recorded again. -/
theorem recordProgressOutput_of_mem (hmem : e.outputHash name args output ∈ s.progressSeenOutputs)
    (hlength : s.progressSeenOutputs.length ≤ 64) :
    (e.recordProgressOutput s name args output).progressSeenOutputs = s.progressSeenOutputs := by
  have hseen := List.contains_iff_mem.2 hmem
  rw [outputHash] at hseen
  unfold recordProgressOutput
  dsimp only
  rw [if_pos hseen, Nat.sub_eq_zero_of_le hlength, List.drop_zero]

theorem coveredOutputs_applyOutput (h : e.Recorded name args output s) :
    e.coveredOutputs (e.applyOutput id name args output s) = e.coveredOutputs s := by
  unfold coveredOutputs
  split
  next hnone =>
    have hnone := Option.isNone_iff_eq_none.1 hnone
    unfold applyOutput
    dsimp only
    split
    next hrecords =>
      rw [Bool.and_eq_true, Bool.not_eq_true', Option.isNone_iff_eq_none] at hrecords
      obtain ⟨hmem, hlength⟩ := h hnone hrecords.1 hrecords.2
      exact recordProgressOutput_of_mem hmem hlength
    · rfl
  · rfl

theorem applyOutput_completionArtifacts :
    (e.applyOutput id name args output s).completionArtifacts =
      e.artifactsAfter s.completionArtifacts id name args output s.stepCount := by
  unfold applyOutput
  dsimp only
  split <;> rfl

/-- A call that supplies nothing new leaves the fingerprint as it is. -/
theorem progressFingerprint_of_idle (h : e.Idle name args output s)
    (hrecorded : e.Recorded name args output s) :
    e.progressFingerprint (e.applyOutput id name args output s) = e.progressFingerprint s := by
  refine progressFingerprint_congr (coveredWorkflow_applyOutput_iff.2 h.evidence) ?_
    (coveredOutputs_applyOutput hrecorded)
  rw [applyOutput_completionArtifacts, artifactsAfter_of_none h.artifacts]

/-- A call with a fresh identity leaves the fingerprint as it is exactly when it supplies nothing that
progress is measured by. -/
theorem progressFingerprint_applyOutput_iff (hs : e.host.Shows)
    (hsha : Function.Injective e.host.sha256) (hfresh : FreshCall id s)
    (hrecorded : e.Recorded name args output s) :
    e.progressFingerprint (e.applyOutput id name args output s) = e.progressFingerprint s ↔
      e.Idle name args output s := by
  refine ⟨fun h => ?_, fun h => progressFingerprint_of_idle h hrecorded⟩
  obtain ⟨hw, ha, -⟩ := (progressFingerprint_eq_iff hs hsha).1 h
  rw [applyOutput_completionArtifacts] at ha
  exact ⟨(artifactsAfter_iff hfresh).1 ha, coveredWorkflow_applyOutput_iff.1 hw⟩

/-! ### Recorded calls -/

/-- A recorded output is retained. -/
theorem recordProgressOutput_retains (hwindow : s.progressSeenOutputs.length ≤ 64) :
    e.outputHash name args output ∈ (e.recordProgressOutput s name args output).progressSeenOutputs ∧
      (e.recordProgressOutput s name args output).progressSeenOutputs.length ≤ 64 := by
  by_cases hseen : e.outputHash name args output ∈ s.progressSeenOutputs
  · rw [recordProgressOutput_of_mem hseen hwindow]
    exact ⟨hseen, hwindow⟩
  · have happend : (e.recordProgressOutput s name args output).progressSeenOutputs =
        (s.progressSeenOutputs ++ [e.outputHash name args output]).drop
          (s.progressSeenOutputs.length + 1 - 64) := by
      have hnew : ¬s.progressSeenOutputs.contains (e.outputHash name args output) = true :=
        fun h => hseen (List.contains_iff_mem.1 h)
      rw [outputHash] at hnew
      unfold recordProgressOutput
      dsimp only
      rw [if_neg hnew, List.length_append, List.length_singleton]
      rfl
    have hkept : s.progressSeenOutputs.length + 1 - 64 ≤ s.progressSeenOutputs.length := by omega
    rw [happend, List.drop_append_of_le_length hkept]
    refine ⟨List.mem_append_right _ (List.mem_singleton_self _), ?_⟩
    rw [List.length_append, List.length_drop, List.length_singleton]
    omega

/-- An executed call is recorded. -/
theorem recorded_applyOutput (hwindow : s.progressSeenOutputs.length ≤ 64) :
    e.Recorded name args output (e.applyOutput id name args output s) := by
  intro _ hworkflow hfailed
  unfold applyOutput at hworkflow ⊢
  dsimp only at hworkflow ⊢
  split
  next h => exact recordProgressOutput_retains hwindow
  next h =>
    refine absurd ?_ h
    rw [hfailed, Bool.not_false, Bool.and_true, Option.isNone_iff_eq_none]
    rw [if_neg h] at hworkflow
    exact Option.map_eq_none_iff.1 hworkflow

theorem foldl_captureOne_unstamped {id' k : String} {step : Int} {artifacts : Value} (hne : id' ≠ id)
    (xs : List (Value × Nat)) (h : ¬Stamped id' k artifacts) :
    ¬Stamped id' k (xs.foldl (e.captureOne id name args output step) artifacts) := by
  induction xs generalizing artifacts with
  | nil => exact h
  | cons x xs ih =>
    refine ih ?_
    by_cases hc : e.Captures x.1 name args output
    · obtain ⟨fields, a, hset, hfields, ha⟩ := captureOne_of_captures id step artifacts hc
      rw [hset]
      rintro ⟨b, hb, hid⟩
      have hb : lookup k (insertField (toString x.2) a fields) = some b := hb
      by_cases hk : toString x.2 = k
      · rw [← hk, lookup_insertField_self, Option.some.injEq] at hb
        rw [← hb, ha, Option.some.injEq, Value.str.injEq] at hid
        exact hne hid.symm
      · rw [lookup_insertField_of_ne _ _ _ _ hk] at hb
        rcases hfields with rfl | ⟨rfl, -⟩
        · exact h ⟨b, hb, hid⟩
        · cases hb
    · rwa [captureOne_of_not_captures hc]

/-- An executed call is the only one whose identity its artifacts carry. -/
theorem freshCall_applyOutput {id' : String} (hne : id' ≠ id) (h : FreshCall id' s) :
    FreshCall id' (e.applyOutput id name args output s) := by
  intro k
  rw [applyOutput_completionArtifacts, artifactsAfter]
  split
  · exact h k
  · exact foldl_captureOne_unstamped hne _ (h k)

end Engine

end StateDrivenAgent
