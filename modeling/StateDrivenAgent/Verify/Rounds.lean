import StateDrivenAgent.Verify.Repeating

/-!
# The rounds of a run

What a run counts: the decisions it has asked for, those since the last executed call, and how often
it has observed its progress. At the head of the loop the counters of the session agree with these
counts (`Head`), from which follow the limits of a run: a request for a decision is made only below
all of them (`Paced`), and the loop is left decided (`run_paces`).
-/

namespace StateDrivenAgent

open Interaction

/-! ## The counts of a run -/

/-- What the rounds of a run have done. -/
structure Pace where
  /-- Decisions asked for. -/
  asked : Nat := 0
  /-- Decisions asked for since the last executed call. -/
  streak : Nat := 0
  /-- Observations of progress. -/
  observed : Nat := 0
  /-- The progress of the last decision has not been observed. -/
  unobserved : Bool := false
  /-- Every executed call has repeated what is recorded. -/
  repeats : Prop := True

namespace Pace

/-- A decision is asked for. -/
def ask (g : Pace) : Pace :=
  { g with asked := g.asked + 1, streak := g.streak + 1, unobserved := true }

/-- A call has been executed. -/
def execute (e : Engine) (s : Session) (name : String) (args : List (String × Value))
    (output : String) (g : Pace) : Pace :=
  { g with
    streak := 0
    repeats := g.repeats ∧ e.Recorded name args output s ∧ e.Idle name args output s }

/-- Progress is observed. -/
def observe (g : Pace) : Pace := { g with observed := g.observed + 1, unobserved := false }

def next (e : Engine) (g : Pace) (x : Eff) : Pace :=
  match x with
  | .httpPost url payload => if e.paces (.httpPost url payload) then g.ask else g
  | .mark (.executed s name args output) => g.execute e s name args output
  | .mark (.observing ..) => g.observe
  | _ => g

theorem next_of_calm {e : Engine} {g : Pace} {x : Eff} (hx : e.paces x = false) :
    g.next e x = g := by
  cases x with
  | httpPost url payload => exact if_neg (by rw [hx]; exact Bool.false_ne_true)
  | mark m => cases m <;> first | rfl | cases hx
  | _ => rfl

end Pace

namespace Engine

/-- The run counts its rounds, and owes this at each effect. -/
def pacing (e : Engine) (must : Pace → Eff → Prop) : Monitor Eff Reply Pace where
  may _ _ _ := True
  must := must
  next g x _ := g.next e x

/-- A run that owes more owes less. -/
theorem sat_pacing_mono {e : Engine} {must must' : Pace → Eff → Prop} {α : Type} {p : Prog α}
    {g : Pace} {post : Pace → α → Prop} (h : p.Sat (e.pacing must) g post)
    (hmust : ∀ g x, must g x → must' g x) : p.Sat (e.pacing must') g post := by
  induction p generalizing g with
  | ret a => exact h
  | perform x next ih => exact ⟨hmust g x h.1, fun r hr => ih r (h.2 r hr)⟩

/-- The callbacks of the server. -/
def Callback (emit : Emit) : Prop :=
  ∃ config, emit = Server.emitRun config ∨ emit = Server.emitStream config

theorem Callback.hushed {e : Engine} {G : Type} {M : Monitor Eff Reply G} {K : G → Prop}
    {emit : Emit} (h : Callback emit) (hK : Calm e M K) : Hushed M K emit := by
  obtain ⟨config, rfl | rfl⟩ := h
  · exact hushed_run hK config
  · exact hushed_stream hK config

/-- The session belongs to the configuration. -/
def Owns (e : Engine) (s : Session) : Prop := e.config.workflow = none → s.workflow = none

/-- The message of a run that the limit on steps without progress has ended. -/
def noProgressMessage (e : Engine) (s : Session) (limit : Nat) : String :=
  "No new task evidence in " ++ toString limit ++ " decisions. " ++
    (e.instruction s).getD "Obtain new tool evidence or return the verified final deliverables." ++
    " Resume after correcting the workflow or instructions."

/-- What a run that began with `s₀` owes: it asks for a decision below its limits, with the progress
of the last one observed, and observes no progress where work is repeated. -/
def Paced (e : Engine) (s₀ : Session) (limit : Int) (g : Pace) : Eff → Prop
  | .httpPost url payload => e.paces (.httpPost url payload) = true →
      g.asked < limit - s₀.stepCount ∧
      (0 < e.maxInvalid → e.Owns s₀ → g.streak < e.maxInvalid) ∧ g.unobserved = false ∧
      (g.repeats → ∀ n, e.progressLimit = some n → 0 < g.observed →
        s₀.noProgressSteps + g.observed < n)
  | .mark (.observing s before) => g.repeats →
      e.progressFingerprint s = before ∧ s.noProgressSteps = s₀.noProgressSteps + g.observed
  | _ => True

variable {e : Engine} {s₀ : Session} {limit : Int}

theorem calm_pacing (g₀ : Pace) : Calm e (e.pacing (e.Paced s₀ limit)) (· = g₀) where
  must g x _ hx := by
    cases x with
    | httpPost url payload =>
      intro hpaces
      rw [hx] at hpaces
      cases hpaces
    | mark m => cases m <;> first | exact trivial | cases hx
    | _ => exact trivial
  next g x r hg hx _ := (Pace.next_of_calm hx).trans hg

end Engine

/-- The fingerprint of progress: it depends on the standing alone. -/
def Standing.fingerprint (e : Engine) (x : Standing) : String :=
  let workflow := if e.config.workflow.isSome then Value.ofOption Workflow.toValue x.workflow else .null
  let outputs := if e.config.workflow.isNone then x.progressSeenOutputs.map Value.str else []
  e.host.sha256 ((Value.arr [workflow, x.completionArtifacts, .arr outputs]).text e.host)

theorem Engine.progressFingerprint_standing (e : Engine) (s : Session) :
    e.progressFingerprint s = s.standing.fingerprint e := rfl

/-- The run has been ended by the limit on steps without progress. -/
def Standing.Stopped (e : Engine) (n : Nat) (x : Standing) : Prop :=
  x.status = .failed ∧ ∃ s : Session, s.workflow = x.workflow ∧
    x.finalAnswer = some (e.noProgressMessage s n)

section heads

variable (e : Engine) (s₀ : Session)

/-- A run that began with `s₀`, at the head of its loop. -/
structure Head (g : Pace) (x : Standing) : Prop where
  asked : (g.asked : Int) = x.stepCount - s₀.stepCount
  streak : e.Owns s₀ → x.status = .active → g.streak = 0 ∨
    g.streak ≤ x.consecutiveInvalidResponses ∧ x.consecutiveInvalidResponses < e.maxInvalid
  settled : g.unobserved = true → x.status = .complete
  counted : g.repeats → g.unobserved = false → x.noProgressSteps = s₀.noProgressSteps + g.observed
  stopped : g.repeats → ∀ n, e.progressLimit = some n → 0 < g.observed →
    n ≤ s₀.noProgressSteps + g.observed → x.Stopped e n
  owned : e.Owns s₀ → e.config.workflow = none → x.workflow = none

/-- A decision has been made, and is not acted on. -/
structure Decided (before : String) (g : Pace) (x : Standing) : Prop where
  asked : (g.asked : Int) = x.stepCount - s₀.stepCount
  streak : e.Owns s₀ → g.streak ≤ x.consecutiveInvalidResponses + 1
  counted : g.repeats →
    x.fingerprint e = before ∧ x.noProgressSteps = s₀.noProgressSteps + g.observed
  below : g.repeats → ∀ n, e.progressLimit = some n → 0 < g.observed →
    s₀.noProgressSteps + g.observed < n
  owned : e.Owns s₀ → e.config.workflow = none → x.workflow = none

/-- A decision has been acted on, and its progress is not observed. -/
structure Acted (before : String) (g : Pace) (x : Standing) : Prop extends
    Decided e s₀ before g x where
  limited : e.Owns s₀ → x.status = .active → g.streak = 0 ∨
    g.streak ≤ x.consecutiveInvalidResponses ∧ x.consecutiveInvalidResponses < e.maxInvalid

/-- A decision that is rejected. -/
theorem Decided.rejects {e : Engine} {s₀ : Session} {before : String} {g : Pace} {x : Standing}
    (h : Decided e s₀ before g x) : Acted e s₀ before g { x with
      consecutiveInvalidResponses := x.consecutiveInvalidResponses + 1
      status := if x.consecutiveInvalidResponses + 1 < e.maxInvalid then x.status else .failed
      finalAnswer := if x.consecutiveInvalidResponses + 1 < e.maxInvalid then x.finalAnswer
        else some "Consecutive invalid-response limit reached. Resume to retry." } := by
  refine ⟨⟨h.asked, fun howned => Nat.le_succ_of_le (h.streak howned), h.counted, h.below, h.owned⟩,
    fun howned hactive => .inr ⟨h.streak howned, ?_⟩⟩
  by_contra hreached
  dsimp only at hactive
  rw [if_neg hreached] at hactive
  cases hactive

end heads

/-! ## Observing progress -/

namespace Engine

variable {e : Engine} {s₀ s : Session} {limit : Int} {emit : Emit} {g : Pace} {before : String}

section rests

variable {G : Type} {M : Monitor Eff Reply G} {K : G → Prop} (hK : Calm e M K)
  (hemit : Hushed M K emit)

include hK hemit

theorem warnProgress_rests (guidance : String) (n : Nat) :
    Rests M K (warnProgress emit guidance n) := by
  refine .bind .get fun s => ?_
  split
  · exact .bind (appendMessage_rests hK _) fun _ => checkpoint_rests hK hemit _
  · exact .pure _

theorem reportInvalidLimit_rests (reached : Bool) : Rests M K (reportInvalidLimit emit reached) := by
  unfold reportInvalidLimit
  split
  · exact .bind .get fun s => checkpoint_rests hK hemit _
  · exact .pure _

theorem reportDecision_rests (diagnostics : List Value) :
    Rests M K (reportDecision emit diagnostics) := by
  induction diagnostics with
  | nil => exact .pure _
  | cons diagnostic rest ih =>
    exact .bind (.modify fun _ => rfl) fun _ => .bind (checkpoint_rests hK hemit _) fun _ => ih

theorem reportDiagnostics_rests (diagnostics : List Value) :
    Rests M K (reportDiagnostics emit diagnostics) := by
  induction diagnostics with
  | nil => exact .pure _
  | cons diagnostic rest ih => exact .bind (checkpoint_rests hK hemit _) fun _ => ih

theorem reportAdvance_rests (t : Option Transition) : Rests M K (reportAdvance emit t) := by
  cases t with
  | none => exact .pure _
  | some t => exact checkpoint_rests hK hemit _

theorem compactAndReport_rests : Rests M K (e.compactAndReport emit) := by
  refine .bind (.attempt (compact_rests hK)) fun compacted => ?_
  cases compacted with
  | error message => exact .pure _
  | ok changed =>
    refine .bind ?_ fun _ => .pure _
    unfold reportCompaction
    split
    · exact .bind .get fun s => checkpoint_rests hK hemit _
    · exact .pure _

end rests

variable (hemit : ∀ g₀, Hushed (e.pacing (e.Paced s₀ limit)) (· = g₀) emit)

include hemit

theorem limitProgress_paces (guidance : String) (n : Nat) :
    Paces (e.pacing (e.Paced s₀ limit)) (limitProgress emit guidance n) g s fun g' s' _ =>
      g' = g ∧ (n ≤ s.noProgressSteps ∧ s'.standing = (failWith ("No new task evidence in " ++
          toString n ++ " decisions. " ++ guidance ++
          " Resume after correcting the workflow or instructions.") s).standing ∨
        ¬n ≤ s.noProgressSteps ∧ s'.standing = s.standing) := by
  refine Paces.get_bind ?_
  split
  next hn =>
    refine Paces.modify_bind ((Paces.rests fun g₀ => checkpoint_rests (calm_pacing g₀) (hemit g₀) _).mono ?_)
    rintro g' s' _ ⟨hg, hs⟩
    exact ⟨hg, .inl ⟨hn, hs⟩⟩
  next hn => exact Paces.pure ⟨rfl, .inr ⟨hn, rfl⟩⟩

/-- A decision without progress is counted, and the session fails at the limit. -/
theorem stalled_paces (h : Acted e s₀ before g s.standing) :
    Paces (e.pacing (e.Paced s₀ limit)) (e.stalled emit) g.observe s fun g' s' _ =>
      Head e s₀ g' s'.standing ∧ g'.asked = g.asked := by
  have hcounted : g.repeats → s.noProgressSteps + 1 = s₀.noProgressSteps + (g.observed + 1) :=
    fun hr => by
      have hcount : s.noProgressSteps = s₀.noProgressSteps + g.observed := (h.counted hr).2
      omega
  have hhead : ∀ s' : Session,
      s'.standing = { s.standing with noProgressSteps := s.noProgressSteps + 1 } →
      (g.repeats → ∀ n, e.progressLimit = some n → ¬n ≤ s.noProgressSteps + 1) →
      Head e s₀ g.observe s'.standing := by
    intro s' hs' hbelow
    rw [hs']
    refine ⟨h.asked, h.limited, nofun, fun hr _ => hcounted hr, fun hr n hn _ hle => ?_, h.owned⟩
    have hobserved : n ≤ s₀.noProgressSteps + (g.observed + 1) := hle
    exact absurd (hcounted hr ▸ hobserved) (hbelow hr n hn)
  refine Paces.modify_bind (Paces.get_bind ?_)
  cases hlimit : e.progressLimit with
  | none =>
    refine Paces.pure ⟨hhead _ rfl fun _ n hn => ?_, rfl⟩
    rw [hlimit] at hn
    cases hn
  | some n =>
    refine Paces.rests_bind (fun g₀ => warnProgress_rests (calm_pacing g₀) (hemit g₀) _ _)
      fun _ s₁ hs₁ => ?_
    have hsteps : s₁.noProgressSteps = s.noProgressSteps + 1 := congrArg (·.noProgressSteps) hs₁
    refine (limitProgress_paces hemit _ n).mono ?_
    rintro _ s₂ _ ⟨rfl, ⟨hn, hs₂⟩ | ⟨hn, hs₂⟩⟩
    · have hsame : s₂.standing = { s.standing with
          noProgressSteps := s.noProgressSteps + 1, status := .failed
          finalAnswer := some (e.noProgressMessage
            { s with noProgressSteps := s.noProgressSteps + 1 } n) } :=
        hs₂.trans (congrArg (fun x : Standing => { x with
          status := .failed
          finalAnswer := some (e.noProgressMessage
            { s with noProgressSteps := s.noProgressSteps + 1 } n) }) hs₁)
      rw [hsame]
      refine ⟨⟨h.asked, fun _ hactive => (nomatch hactive), nofun, fun hr _ => hcounted hr,
        fun _ m hm _ _ => ?_, h.owned⟩, rfl⟩
      obtain rfl := Option.some.inj (hlimit.symm.trans hm)
      exact ⟨rfl, { s with noProgressSteps := s.noProgressSteps + 1 }, rfl, rfl⟩
    · refine ⟨hhead s₂ (hs₂.trans hs₁) fun _ m hm => ?_, rfl⟩
      rw [hlimit] at hm
      rw [← Option.some.inj hm, ← hsteps]
      exact hn

theorem observeProgress_paces (h : Acted e s₀ before g s.standing) :
    Paces (e.pacing (e.Paced s₀ limit)) (e.observeProgress emit before) g s fun g' s' _ =>
      Head e s₀ g' s'.standing ∧ g'.asked = g.asked := by
  unfold observeProgress
  refine Paces.get_bind (Paces.mark_bind h.counted fun _ _ => Paces.modify_bind ?_)
  split
  next hne =>
    -- progress: no executed call so far has repeated the work
    refine Paces.modify ⟨⟨h.asked, h.limited, nofun, fun hr _ => ?_, fun hr => ?_, h.owned⟩, rfl⟩
    · exact absurd (h.counted hr).1 hne
    · exact absurd (h.counted hr).1 hne
  · exact stalled_paces hemit ⟨⟨h.asked, h.streak, h.counted, h.below, h.owned⟩, h.limited⟩

omit hemit

/-! ## The calls of a batch -/

/-- What the calls of a batch keep, from the counts `g₀` and the standing `x₀`. -/
structure Batch (e : Engine) (g₀ : Pace) (x₀ : Standing) (g : Pace) (x : Standing) : Prop where
  asked : g.asked = g₀.asked
  observed : g.observed = g₀.observed
  unobserved : g.unobserved = g₀.unobserved
  streak : g.streak = 0 ∨ g.streak = g₀.streak
  repeats : g.repeats → g₀.repeats ∧ x.fingerprint e = x₀.fingerprint e
  status : x.status = x₀.status
  steps : x.stepCount = x₀.stepCount
  invalid : x.consecutiveInvalidResponses = x₀.consecutiveInvalidResponses
  still : x.noProgressSteps = x₀.noProgressSteps
  owned : x₀.workflow = none → x.workflow = none

theorem Batch.refl (g : Pace) (x : Standing) : Batch e g x g x :=
  ⟨rfl, rfl, rfl, .inr rfl, fun h => ⟨h, rfl⟩, rfl, rfl, rfl, rfl, id⟩

theorem Batch.trans {g₀ g₁ g₂ : Pace} {x₀ x₁ x₂ : Standing} (h : Batch e g₀ x₀ g₁ x₁)
    (h' : Batch e g₁ x₁ g₂ x₂) : Batch e g₀ x₀ g₂ x₂ where
  asked := h'.asked.trans h.asked
  observed := h'.observed.trans h.observed
  unobserved := h'.unobserved.trans h.unobserved
  streak := h'.streak.elim .inl fun hs => h.streak.imp hs.trans hs.trans
  repeats hr :=
    have hr' := h'.repeats hr
    ⟨(h.repeats hr'.1).1, hr'.2.trans (h.repeats hr'.1).2⟩
  status := h'.status.trans h.status
  steps := h'.steps.trans h.steps
  invalid := h'.invalid.trans h.invalid
  still := h'.still.trans h.still
  owned hw := h'.owned (h.owned hw)

/-- A call that is not rejected is allowed. -/
theorem allowed_of_admitted {phase invalid : Option String} {name : String}
    {args : List (String × Value)} (h : e.actionRejection s phase name args invalid = none)
    (howned : e.config.workflow = none → s.workflow = none) :
    e.allowedInPhaseForSession s phase name = true := by
  cases invalid with
  | some error => cases h
  | none =>
    unfold actionRejection at h
    dsimp only at h
    split at h
    · cases h
    next htools =>
      split at h
      · cases h
      next hpermitted =>
        rw [Bool.not_eq_true] at htools
        rw [Bool.not_eq_true, Bool.not_eq_false'] at hpermitted
        unfold allowedInPhaseForSession
        rw [htools]
        cases phase with
        | some phase => exact hpermitted
        | none =>
          have hnone : e.config.workflow = none := Option.isNone_iff_eq_none.1 hpermitted
          simp [hnone, howned hnone]

/-- An executed call that repeats what is recorded leaves the fingerprint as it is. -/
theorem applyOutput_batch (id name : String) (args : List (String × Value)) (output : String)
    (s : Session) : Batch e g s.standing (g.execute e s name args output)
      (e.applyOutput id name args output s).standing := by
  have hsame : (e.applyOutput id name args output s).standing = { s.standing with
      workflow := (e.applyOutput id name args output s).workflow
      completionArtifacts := (e.applyOutput id name args output s).completionArtifacts
      progressSeenOutputs := (e.applyOutput id name args output s).progressSeenOutputs } := by
    unfold applyOutput
    dsimp only
    split <;> rfl
  refine ⟨rfl, rfl, rfl, .inl rfl, fun hr => ⟨hr.1, progressFingerprint_of_idle hr.2.2 hr.2.1⟩, ?_, ?_, ?_,
    ?_, fun hw => ?_⟩
  · rw [hsame]
  · rw [hsame]
  · rw [hsame]
  · rw [hsame]
  · have hmap : (e.applyOutput id name args output s).workflow =
        s.workflow.map fun w => e.recordWorkflow w name args output := by
      unfold applyOutput
      dsimp only
      split <;> rfl
    have hw : s.workflow = none := hw
    rw [hw] at hmap
    exact hmap

include hemit

theorem execute_paces {phase : Option String} {call : Value} {c : Scheduled}
    (hadmitted : e.actionRejection s phase c.name c.args c.error = none) :
    Paces (e.pacing (e.Paced s₀ limit)) (e.execute emit phase call c) g s fun g' s' _ =>
      Batch e g s.standing g' s'.standing ∧
        ((e.config.workflow = none → s.workflow = none) → g'.streak = 0) := by
  unfold execute
  refine Paces.get_bind ?_
  split
  · refine Paces.mark_bind trivial fun _ _ => ?_
    refine Paces.ends_bind (fun g₀ => dispatch_ends (calm_pacing g₀) (hemit g₀) _ _ _ _)
      fun output s' hs' => ?_
    refine Paces.get_bind (Paces.mark_bind trivial fun _ _ => Paces.modify_bind (Paces.pure ?_))
    have hbatch := applyOutput_batch (e := e) (g := g) c.id c.name c.args output s'
    rw [hs'] at hbatch
    exact ⟨hbatch, fun _ => rfl⟩
  next hforbidden =>
    exact Paces.pure ⟨.refl g s.standing, fun howned =>
      absurd (allowed_of_admitted hadmitted howned) hforbidden⟩

theorem settleCall_paces {phase : Option String} {call : Value} :
    Paces (e.pacing (e.Paced s₀ limit)) (e.settleCall emit phase call) g s fun g' s' r =>
      Batch e g s.standing g' s'.standing ∧
        ((e.config.workflow = none → s.workflow = none) → r = false → g'.streak = 0) := by
  have houtput : Paces (e.pacing (e.Paced s₀ limit)) (e.outputOf emit s phase call (readScheduled call)
      (e.actionRejection s phase (readScheduled call).name (readScheduled call).args
        (readScheduled call).error)) g s fun g' s' _ => Batch e g s.standing g' s'.standing ∧
      ((e.config.workflow = none → s.workflow = none) →
        (e.actionRejection s phase (readScheduled call).name (readScheduled call).args
          (readScheduled call).error).isSome = false → g'.streak = 0) := by
    cases hrejection : e.actionRejection s phase (readScheduled call).name (readScheduled call).args
        (readScheduled call).error with
    | some reason => exact Paces.pure ⟨.refl g s.standing, fun _ h => nomatch h⟩
    | none =>
      exact (execute_paces hemit hrejection).mono fun g' s' _ h => ⟨h.1, fun howned _ => h.2 howned⟩
  unfold settleCall
  refine Paces.get_bind ?_
  dsimp only
  refine Paces.bind houtput fun g₁ s₁ out h₁ => ?_
  refine Paces.rests_bind (fun g₀ => appendMessage_rests (calm_pacing g₀) _) fun _ s₂ hs₂ => ?_
  refine Paces.modify_bind ?_
  refine Paces.rests_bind (fun g₀ => checkpoint_rests (calm_pacing g₀) (hemit g₀) _)
    fun _ s₃ hs₃ => Paces.pure ?_
  -- the call is taken off the batch
  have hdrop : Batch e g₁ s₁.standing g₁ s₃.standing := by
    rw [← hs₂, hs₃]
    exact ⟨rfl, rfl, rfl, .inr rfl, fun h => ⟨h, rfl⟩, rfl, rfl, rfl, rfl, id⟩
  exact ⟨h₁.1.trans hdrop, h₁.2⟩

theorem settleCalls_paces {phase : Option String} (calls : List Value) (rejected : Bool) :
    Paces (e.pacing (e.Paced s₀ limit)) (e.settleCalls emit phase calls rejected) g s fun g' s' r =>
      Batch e g s.standing g' s'.standing ∧
        ((e.config.workflow = none → s.workflow = none) → r = false →
          rejected = false ∧ (calls ≠ [] ∨ g.streak = 0 → g'.streak = 0)) := by
  induction calls generalizing g s rejected with
  | nil =>
    exact Paces.pure ⟨.refl g s.standing, fun _ hr => ⟨hr, fun h => h.elim (absurd rfl) id⟩⟩
  | cons call calls ih =>
    refine Paces.bind (settleCall_paces hemit) fun g₁ s₁ r h₁ => ?_
    refine (ih (rejected || r)).mono fun g₂ s₂ r₂ h₂ => ⟨h₁.1.trans h₂.1, fun howned hr₂ => ?_⟩
    have howned₁ : e.config.workflow = none → s₁.workflow = none := fun hnone =>
      h₁.1.owned (howned hnone)
    obtain ⟨hrejected, hstreak⟩ := h₂.2 howned₁ hr₂
    rw [Bool.or_eq_false_iff] at hrejected
    exact ⟨hrejected.1, fun _ => hstreak (.inr (h₁.2 howned hrejected.2))⟩

/-! ## The end of a batch -/

omit hemit in
theorem incrementInvalid_bind {β : Type} {k : Bool → EngineM β} {post : Pace → Session → β → Prop}
    (h : Decided e s₀ before g s.standing)
    (hk : ∀ s' r, Acted e s₀ before g s'.standing →
      Paces (e.pacing (e.Paced s₀ limit)) (k r) g s' post) :
    Paces (e.pacing (e.Paced s₀ limit)) (e.incrementInvalid >>= k) g s post := by
  refine Paces.swap_bind ?_
  have hacted := h.rejects
  dsimp only
  split
  next hbelow =>
    have hbelow : s.standing.consecutiveInvalidResponses + 1 < e.maxInvalid := hbelow
    rw [if_pos hbelow, if_pos hbelow] at hacted
    exact hk _ _ hacted
  next hreached =>
    have hreached : ¬s.standing.consecutiveInvalidResponses + 1 < e.maxInvalid := hreached
    rw [if_neg hreached, if_neg hreached] at hacted
    exact hk _ _ hacted

theorem rejectBatch_paces (phase : Option String) (h : Decided e s₀ before g s.standing) :
    Paces (e.pacing (e.Paced s₀ limit)) (e.rejectBatch emit phase) g s fun g' s' _ =>
      Acted e s₀ before g' s'.standing ∧ g' = g := by
  unfold rejectBatch
  refine Paces.get_bind (incrementInvalid_bind h fun s₁ reached h₁ => Paces.get_bind ?_)
  refine Paces.rests_bind (fun g₀ => checkpoint_rests (calm_pacing g₀) (hemit g₀) _) fun _ s₂ hs₂ => ?_
  refine (Paces.rests fun g₀ => reportInvalidLimit_rests (calm_pacing g₀) (hemit g₀) _).mono ?_
  rintro g' s₃ _ ⟨rfl, hs₃⟩
  rw [hs₃, hs₂]
  exact ⟨h₁, rfl⟩

/-- The batch is settled: a rejected one is counted, and one without a rejected call has executed
a call. -/
theorem settlePending_paces (h : Decided e s₀ before g s.standing)
    (hcalls : s.pendingToolCalls ≠ [] ∨ g.streak = 0) :
    Paces (e.pacing (e.Paced s₀ limit)) (e.settlePending emit) g s fun g' s' _ =>
      Acted e s₀ before g' s'.standing ∧ g'.asked = g.asked := by
  unfold settlePending
  refine Paces.get_bind (Paces.bind (settleCalls_paces hemit _ _) fun g₁ s₁ rejected h₁ => ?_)
  obtain ⟨hbatch, hstreak⟩ := h₁
  have hdecided : Decided e s₀ before g₁ s₁.standing := by
    refine ⟨?_, fun howned => ?_, fun hr => ?_, fun hr => ?_, fun howned hnone =>
      hbatch.owned (h.owned howned hnone)⟩
    · rw [hbatch.asked, hbatch.steps]
      exact h.asked
    · have hdecided := h.streak howned
      have hkept := hbatch.streak
      rw [hbatch.invalid]
      omega
    · have hr' := hbatch.repeats hr
      rw [hr'.2, hbatch.still, hbatch.observed]
      exact h.counted hr'.1
    · rw [hbatch.observed]
      exact h.below (hbatch.repeats hr).1
  split
  · refine (rejectBatch_paces hemit _ hdecided).mono ?_
    rintro g₂ s₂ _ ⟨h₂, rfl⟩
    exact ⟨h₂, hbatch.asked⟩
  next hnone =>
    have hzero : e.Owns s₀ → g₁.streak = 0 := fun howned =>
      (hstreak (h.owned howned) (Bool.eq_false_iff.2 hnone)).2 hcalls
    refine Paces.modify ⟨⟨⟨hdecided.asked, fun howned => ?_, hdecided.counted, hdecided.below,
      hdecided.owned⟩, fun howned _ => .inl (hzero howned)⟩, hbatch.asked⟩
    rw [hzero howned]
    exact Nat.zero_le _

/-! ## Acting on a decision -/

theorem actInvalid_paces (code content : String) (h : Decided e s₀ before g s.standing) :
    Paces (e.pacing (e.Paced s₀ limit)) (e.actInvalid emit before code content) g s fun g' s' _ =>
      Head e s₀ g' s'.standing ∧ g'.asked = g.asked := by
  unfold actInvalid
  refine incrementInvalid_bind h fun s₁ reached h₁ => ?_
  refine Paces.rests_bind (fun g₀ => appendMessage_rests (calm_pacing g₀) _) fun _ s₂ hs₂ => ?_
  refine Paces.get_bind ?_
  refine Paces.rests_bind (fun g₀ => checkpoint_rests (calm_pacing g₀) (hemit g₀) _) fun _ s₃ hs₃ => ?_
  refine Paces.rests_bind (fun g₀ => reportInvalidLimit_rests (calm_pacing g₀) (hemit g₀) _)
    fun _ s₄ hs₄ => ?_
  refine observeProgress_paces hemit ?_
  rw [hs₄, hs₃, hs₂]
  exact h₁

theorem rejectAnswer_paces (answer : String) (errors : List String)
    (h : Decided e s₀ before g s.standing) :
    Paces (e.pacing (e.Paced s₀ limit)) (e.rejectAnswer emit before answer errors) g s fun g' s' _ =>
      Head e s₀ g' s'.standing ∧ g'.asked = g.asked := by
  unfold rejectAnswer
  refine Paces.get_bind ?_
  refine Paces.rests_bind (fun g₀ => appendMessage_rests (calm_pacing g₀) _) fun _ s₁ hs₁ => ?_
  refine Paces.rests_bind (fun g₀ => appendMessage_rests (calm_pacing g₀) _) fun _ s₂ hs₂ => ?_
  refine Paces.rests_bind (fun g₀ => checkpoint_rests (calm_pacing g₀) (hemit g₀) _) fun _ s₃ hs₃ => ?_
  rw [← hs₁, ← hs₂, ← hs₃] at h
  refine incrementInvalid_bind h fun s₄ reached h₄ => ?_
  refine Paces.rests_bind (fun g₀ => reportInvalidLimit_rests (calm_pacing g₀) (hemit g₀) _)
    fun _ s₅ hs₅ => observeProgress_paces hemit ?_
  rw [hs₅]
  exact h₄

omit hemit in
/-- An answer without an error is one of a session that is complete. -/
theorem complete_of_no_errors {answer : String}
    (h : (!(e.completionErrors s answer).isEmpty) = false) : e.complete s = true := by
  rw [Bool.not_eq_false'] at h
  have hnil := List.isEmpty_iff.1 h
  unfold completionErrors at hnil
  simp only [List.append_eq_nil_iff] at hnil
  obtain ⟨⟨⟨⟨⟨⟨-, hworkflow⟩, -⟩, -⟩, -⟩, -⟩, -⟩ := hnil
  split at hworkflow
  · cases hworkflow
  next hno =>
    cases hconfig : e.config.workflow with
    | none =>
      rw [complete, hconfig]
      rfl
    | some config =>
      rw [hconfig] at hno
      simpa using hno

theorem acceptAnswer_paces (answer : String) (h : Decided e s₀ before g s.standing)
    (hopen : g.unobserved = true) :
    Paces (e.pacing (e.Paced s₀ limit)) (acceptAnswer emit answer) g s fun g' s' _ =>
      Head e s₀ g' s'.standing ∧ g'.asked = g.asked := by
  unfold acceptAnswer
  refine Paces.modify_bind ?_
  refine Paces.rests_bind (fun g₀ => appendMessage_rests (calm_pacing g₀) _) fun _ s₁ hs₁ => ?_
  refine Paces.modify_bind ?_
  refine (Paces.rests fun g₀ => checkpoint_rests (calm_pacing g₀) (hemit g₀) _).mono ?_
  rintro g' s₂ _ ⟨rfl, hs₂⟩
  have hsame : s₂.standing = { (completeWith answer s).standing with noProgressSteps := 0 } :=
    hs₂.trans (congrArg (fun x : Standing => { x with noProgressSteps := 0 }) hs₁)
  rw [hsame]
  refine ⟨⟨h.asked, fun _ hactive => (nomatch hactive), fun _ => rfl, fun _ hclosed => ?_,
    fun hr n hn hpos hle => ?_, h.owned⟩, rfl⟩
  · rw [hopen] at hclosed
    cases hclosed
  · exact absurd (h.below hr n hn hpos) (Nat.not_lt.2 hle)

theorem actFinal_paces (answer : String) (h : Decided e s₀ before g s.standing)
    (hopen : g.unobserved = true) :
    Paces (e.pacing (e.Paced s₀ limit)) (e.actFinal emit before answer) g s fun g' s' _ =>
      Head e s₀ g' s'.standing ∧ g'.asked = g.asked := by
  unfold actFinal
  refine Paces.get_bind ?_
  dsimp only
  split
  · exact rejectAnswer_paces hemit _ _ h
  next hnone =>
    rw [if_pos (complete_of_no_errors (Bool.eq_false_iff.2 hnone))]
    exact acceptAnswer_paces hemit _ h hopen

omit hemit in
theorem renewIds_paces (historical : List String) (calls : List Call) (taken : List String) :
    Paces (e.pacing (e.Paced s₀ limit)) (renewIds historical calls taken) g s fun g' s' calls' =>
      g' = g ∧ s'.standing = s.standing ∧ calls'.length = calls.length := by
  induction calls generalizing s taken with
  | nil => exact Paces.pure ⟨rfl, rfl, rfl⟩
  | cons call calls ih =>
    unfold renewIds
    split
    · refine Paces.rests_bind (fun g₀ => .request (calm_pacing g₀) rfl) fun id s₁ hs₁ => ?_
      refine Paces.bind (ih _) ?_
      rintro g₂ s₂ calls' ⟨rfl, hs₂, hlength⟩
      exact Paces.pure ⟨rfl, hs₂.trans hs₁, congrArg Nat.succ hlength⟩
    · refine Paces.bind (ih _) ?_
      rintro g₂ s₂ calls' ⟨rfl, hs₂, hlength⟩
      exact Paces.pure ⟨rfl, hs₂, congrArg Nat.succ hlength⟩

theorem actTools_paces (content : Option String) (calls : List Call) (hcalls : calls ≠ [])
    (h : Decided e s₀ before g s.standing) :
    Paces (e.pacing (e.Paced s₀ limit)) (e.actTools emit before content calls) g s fun g' s' _ =>
      Head e s₀ g' s'.standing ∧ g'.asked = g.asked := by
  unfold actTools
  refine Paces.get_bind ?_
  refine Paces.rests_bind (fun g₀ => .request (calm_pacing g₀) rfl) fun historical s₁ hs₁ => ?_
  refine Paces.rests_bind (fun g₀ => .ofExcept _) fun ids s₂ hs₂ => ?_
  refine Paces.bind (renewIds_paces _ _ _) ?_
  rintro g₃ s₃ renewed ⟨rfl, hs₃, hlength⟩
  refine Paces.rests_bind (fun g₀ => appendMessage_rests (calm_pacing g₀) _) fun _ s₄ hs₄ => ?_
  refine Paces.modify_bind ?_
  refine Paces.rests_bind (fun g₀ => checkpoint_rests (calm_pacing g₀) (hemit g₀) _) fun _ s₅ hs₅ => ?_
  have hsame : s₅.standing = { s.standing with
      pendingToolPhase := s.standing.workflow.bind Workflow.activePhase
      pendingToolCalls := renewed.map Call.toValue } := by
    rw [hs₅, ← hs₁, ← hs₂, ← hs₃, ← hs₄]
    rfl
  have hpending : s₅.pendingToolCalls ≠ [] := by
    have hcalls₅ : s₅.pendingToolCalls = renewed.map Call.toValue :=
      congrArg (·.pendingToolCalls) hsame
    rw [hcalls₅, Ne, List.map_eq_nil_iff]
    rintro rfl
    exact hcalls (List.length_eq_zero_iff.1 hlength.symm)
  have hdecided : Decided e s₀ before g₃ s₅.standing := by
    rw [hsame]
    exact ⟨h.asked, h.streak, h.counted, h.below, h.owned⟩
  refine Paces.bind (settlePending_paces hemit hdecided (.inl hpending)) fun g₆ s₆ _ h₆ => ?_
  exact (observeProgress_paces hemit h₆.1).mono fun g₇ s₇ _ h₇ => ⟨h₇.1, h₇.2.trans h₆.2⟩

theorem act_paces (d : Decision) (hd : d.Filled) (h : Decided e s₀ before g s.standing)
    (hopen : g.unobserved = true) :
    Paces (e.pacing (e.Paced s₀ limit)) (e.act emit before d) g s fun g' s' _ =>
      Head e s₀ g' s'.standing ∧ g'.asked = g.asked := by
  unfold act
  cases d with
  | invalid code content => exact actInvalid_paces hemit _ _ h
  | final content => exact actFinal_paces hemit _ h hopen
  | tools content calls => exact actTools_paces hemit _ _ hd h

/-! ## The loop -/

omit hemit in
/-- At the head of the loop of an active session, a decision may be asked for. -/
theorem paced_of_head {x : Standing} (h : Head e s₀ g x) (hactive : x.status = .active)
    (hsteps : x.stepCount < limit) (url : String) (payload : Value) :
    e.Paced s₀ limit g (.httpPost url payload) := by
  have hasked := h.asked
  refine fun _ => ⟨by omega, fun hmax howned => ?_, ?_, fun hr n hn hpos => ?_⟩
  · have hstreak := h.streak howned hactive
    omega
  · by_contra hopen
    rw [h.settled (Bool.not_eq_false _ ▸ hopen)] at hactive
    cases hactive
  · by_contra hreached
    have hstopped := (h.stopped hr n hn hpos (Nat.not_lt.1 hreached)).1
    rw [hactive] at hstopped
    cases hstopped

omit hemit in
/-- A decision that is asked for, and counted as a step. -/
theorem decided_of_head {x : Standing} (h : Head e s₀ g x) (hactive : x.status = .active)
    (hopen : g.unobserved = false) :
    Decided e s₀ (x.fingerprint e) g.ask { x with stepCount := x.stepCount + 1 } := by
  have hasked := h.asked
  refine ⟨?_, fun howned => ?_, fun hr => ⟨rfl, h.counted hr hopen⟩, fun hr n hn hpos => ?_, h.owned⟩
  · show ((g.asked + 1 : Nat) : Int) = x.stepCount + 1 - s₀.stepCount
    omega
  · have hstreak := h.streak howned hactive
    show g.streak + 1 ≤ x.consecutiveInvalidResponses + 1
    omega
  · by_contra hreached
    have hstopped := (h.stopped hr n hn hpos (Nat.not_lt.1 hreached)).1
    rw [hactive] at hstopped
    cases hstopped

theorem decideAndAct_paces (h : Head e s₀ g s.standing) (hactive : s.status = .active)
    (hsteps : s.stepCount < limit) :
    Paces (e.pacing (e.Paced s₀ limit)) (e.decideAndAct emit) g s fun g' s' _ =>
      Head e s₀ g' s'.standing ∧ s'.stepCount = s.stepCount + 1 := by
  have hpaced := paced_of_head h hactive hsteps
  unfold decideAndAct
  refine Paces.get_bind ?_
  refine Paces.rests_bind (fun g₀ => checkpoint_rests (calm_pacing g₀) (hemit g₀) _) fun _ s₁ hs₁ => ?_
  refine Paces.get_bind (Paces.lift_bind (decide_paced calm_pacing fun url payload _ =>
    hpaced url payload) fun g₂ out h₂ => Paces.ofExcept_bind ?_)
  rintro ⟨d, diagnostics⟩ rfl
  obtain ⟨hd, url, payload, r, hpaces, -, rfl⟩ := h₂
  have hopen : g.unobserved = false := (hpaced url payload hpaces).2.2.1
  have hask : (e.pacing (e.Paced s₀ limit)).next g (.httpPost url payload) r = g.ask := if_pos hpaces
  rw [hask]
  refine Paces.rests_bind (fun g₀ => reportDecision_rests (calm_pacing g₀) (hemit g₀) _)
    fun _ s₃ hs₃ => Paces.modify_bind ?_
  refine Paces.rests_bind (fun g₀ => archiveRecord_rests (calm_pacing g₀) _ _) fun _ s₄ hs₄ => ?_
  have hsame : s₄.standing = { s.standing with stepCount := s.standing.stepCount + 1 } := by
    rw [hs₄, ← hs₁]
    exact congrArg (fun x : Standing => { x with stepCount := x.stepCount + 1 }) hs₃
  have hdecided : Decided e s₀ (e.progressFingerprint s₁) g.ask s₄.standing := by
    rw [hsame, progressFingerprint_standing, hs₁]
    exact decided_of_head h hactive hopen
  refine (act_paces hemit d hd hdecided rfl).mono fun g₅ s₅ _ h₅ => ⟨h₅.1, ?_⟩
  have hasked : (g₅.asked : Int) = s₅.stepCount - s₀.stepCount := h₅.1.asked
  have hcount : g₅.asked = g.asked + 1 := h₅.2
  have hbefore : (g.asked : Int) = s.stepCount - s₀.stepCount := h.asked
  omega

theorem failCompaction_paces (message : String) (h : Head e s₀ g s.standing)
    (hactive : s.status = .active) :
    Paces (e.pacing (e.Paced s₀ limit)) (failCompaction emit message) g s fun g' s' _ =>
      Head e s₀ g' s'.standing ∧ s'.status ≠ .active := by
  unfold failCompaction
  refine Paces.modify_bind ?_
  refine (Paces.rests fun g₀ => checkpoint_rests (calm_pacing g₀) (hemit g₀) _).mono ?_
  rintro g' s' _ ⟨rfl, hs'⟩
  have hstatus : s'.status = .failed := congrArg (·.status) hs'
  rw [hs', hstatus]
  refine ⟨⟨h.asked, fun _ hactive => (nomatch hactive), fun hopen => ?_, h.counted,
    fun hr n hn hpos hle => ?_, h.owned⟩, nofun⟩
  · have hcomplete : s.status = .complete := h.settled hopen
    rw [hactive] at hcomplete
    cases hcomplete
  · have hfailed : s.status = .failed := (h.stopped hr n hn hpos hle).1
    rw [hactive] at hfailed
    cases hfailed

/-- One round: it counts one step, or ends the session. -/
theorem round_paces (h : Head e s₀ g s.standing) (hactive : s.status = .active)
    (hsteps : s.stepCount < limit) :
    Paces (e.pacing (e.Paced s₀ limit)) (e.round emit) g s fun g' s' more =>
      Head e s₀ g' s'.standing ∧ (if more then s'.stepCount = s.stepCount + 1
        else s'.status ≠ .active) := by
  unfold round
  refine Paces.swap_bind ?_
  have hadvance : (e.advance s).2.standing =
      { s.standing with workflow := (e.advance s).2.workflow } := by
    unfold advance
    split <;> rfl
  have howned : e.config.workflow = none → (e.advance s).2.workflow = s.workflow := by
    intro hnone
    unfold advance
    rw [hnone]
  have hhead : Head e s₀ g (e.advance s).2.standing := by
    rw [hadvance]
    refine ⟨h.asked, h.streak, h.settled, h.counted, fun hr n hn hpos hle => ?_, fun ho hnone => ?_⟩
    · have hfailed : s.status = .failed := (h.stopped hr n hn hpos hle).1
      rw [hactive] at hfailed
      cases hfailed
    · exact (howned hnone).trans (h.owned ho hnone)
  have hstatus : (e.advance s).2.status = .active := (congrArg (·.status) hadvance).trans hactive
  have hcount : (e.advance s).2.stepCount = s.stepCount := congrArg (·.stepCount) hadvance
  refine Paces.rests_bind (fun g₀ => reportAdvance_rests (calm_pacing g₀) (hemit g₀) _)
    fun _ s₁ hs₁ => Paces.get_bind ?_
  refine Paces.rests_bind (fun g₀ => compactAndReport_rests (calm_pacing g₀) (hemit g₀))
    fun compacted s₂ hs₂ => Paces.get_bind ?_
  refine Paces.rests_bind (fun g₀ => reportDiagnostics_rests (calm_pacing g₀) (hemit g₀) _)
    fun _ s₃ hs₃ => ?_
  rw [← hs₁, ← hs₂, ← hs₃] at hhead
  have hsame : s₃.standing = (e.advance s).2.standing := hs₃.trans (hs₂.trans hs₁)
  have hstatus₃ : s₃.status = .active := (congrArg (·.status) hsame).trans hstatus
  have hcount₃ : s₃.stepCount = s.stepCount := (congrArg (·.stepCount) hsame).trans hcount
  cases compacted with
  | error message =>
    exact Paces.bind (failCompaction_paces hemit message hhead hstatus₃) fun _ _ _ h₄ =>
      Paces.pure h₄
  | ok _ =>
    refine Paces.bind (decideAndAct_paces hemit hhead hstatus₃ (hcount₃ ▸ hsteps))
      fun _ _ _ h₄ => Paces.pure ⟨h₄.1, ?_⟩
    rw [← hcount₃]
    exact h₄.2

/-- The loop ends at the latest with its last step. -/
theorem rounds_paces (fuel : Nat) (h : Head e s₀ g s.standing)
    (hfuel : limit - s.stepCount ≤ fuel) :
    Paces (e.pacing (e.Paced s₀ limit)) (e.rounds emit limit fuel) g s fun g' s' _ =>
      Head e s₀ g' s'.standing ∧ (s'.status = .active → limit ≤ s'.stepCount) := by
  induction fuel generalizing g s with
  | zero => exact Paces.pure ⟨h, fun _ => by omega⟩
  | succ fuel ih =>
    unfold rounds
    refine Paces.get_bind ?_
    split
    next hgo =>
      refine Paces.bind (round_paces hemit h hgo.1 hgo.2) fun g₁ s₁ more h₁ => ?_
      split
      next hmore =>
        obtain ⟨hhead, hcount⟩ := h₁
        rw [if_pos hmore] at hcount
        exact ih hhead (by omega)
      next hmore =>
        obtain ⟨hhead, hended⟩ := h₁
        rw [if_neg hmore] at hended
        exact Paces.pure ⟨hhead, fun hactive => absurd hactive hended⟩
    next hstop =>
      exact Paces.pure ⟨h, fun hactive => Int.not_lt.1 fun hlt => hstop ⟨hactive, hlt⟩⟩

/-! ## The run -/

omit hemit in
/-- A run that has ended. -/
structure Finished (e : Engine) (s₀ : Session) (g : Pace) (x : Standing) : Prop where
  ended : x.status ≠ .active
  settled : g.unobserved = true → x.status = .complete
  stopped : g.repeats → ∀ n, e.progressLimit = some n → 0 < g.observed →
    n ≤ s₀.noProgressSteps + g.observed → x.Stopped e n

theorem limitSteps_paces (cap : Int) (h : Head e s₀ g s.standing)
    (hlimit : s.status = .active → limit ≤ s.stepCount) :
    Paces (e.pacing (e.Paced s₀ limit)) (limitSteps emit cap limit) g s fun g' s' _ =>
      Finished e s₀ g' s'.standing := by
  unfold limitSteps
  refine Paces.get_bind ?_
  split
  next hactive =>
    refine Paces.modify_bind ?_
    refine (Paces.rests fun g₀ => checkpoint_rests (calm_pacing g₀) (hemit g₀) _).mono ?_
    rintro g' s' _ ⟨rfl, hs'⟩
    rw [hs']
    refine ⟨nofun, fun hopen => ?_, fun hr n hn hpos hle => ?_⟩
    · have hcomplete : s.status = .complete := h.settled hopen
      rw [hactive.1] at hcomplete
      cases hcomplete
    · have hfailed : s.status = .failed := (h.stopped hr n hn hpos hle).1
      rw [hactive.1] at hfailed
      cases hfailed
  next hended =>
    exact Paces.pure ⟨fun hactive => hended ⟨hactive, hlimit hactive⟩, h.settled, h.stopped⟩

omit hemit in
/-- A run begins at the head of its loop. -/
theorem head_start (e : Engine) (s₀ : Session) : Head e s₀ {} s₀.standing :=
  ⟨(Int.sub_self _).symm, fun _ _ => .inl rfl, nofun, fun _ _ => rfl,
    fun _ _ _ hpos => absurd hpos (Nat.lt_irrefl 0), id⟩

theorem settleLeft_paces (hs : s.standing = s₀.standing) :
    Paces (e.pacing (e.Paced s₀ limit)) (e.settleLeft emit) {} s fun g' s' _ =>
      Head e s₀ g' s'.standing ∧ s'.stepCount = s.stepCount := by
  have hcount : s.stepCount = s₀.stepCount := congrArg (·.stepCount) hs
  have hhead := head_start e s₀
  rw [← hs] at hhead
  unfold settleLeft
  refine Paces.get_bind ?_
  split
  · exact Paces.pure ⟨hhead, rfl⟩
  · have hdecided : Decided e s₀ (e.progressFingerprint s) {} s.standing :=
      ⟨hhead.asked, fun _ => Nat.zero_le _, fun hr => ⟨rfl, hhead.counted hr rfl⟩,
        fun _ _ _ hpos => absurd hpos (Nat.lt_irrefl 0), hhead.owned⟩
    refine Paces.bind (settlePending_paces hemit hdecided (.inr rfl)) fun g₁ s₁ _ h₁ => ?_
    refine (observeProgress_paces hemit h₁.1).mono fun g₂ s₂ _ h₂ => ⟨h₂.1, ?_⟩
    have hasked : (g₂.asked : Int) = s₂.stepCount - s₀.stepCount := h₂.1.asked
    have hnone : g₂.asked = 0 := h₂.2.trans h₁.2
    omega

omit hemit in
theorem instruction_congr {s' : Session} (h : s'.workflow = s.workflow) :
    e.instruction s' = e.instruction s := by
  have hmissing : e.missing s' = e.missing s := by
    funext p
    rw [missing, missing, h]
  have hallowed : e.allowedNames s' = e.allowedNames s := by
    unfold allowedNames
    rw [h]
  unfold instruction
  simp only [h, hmissing, hallowed]

omit hemit in
/-- A run that the limit has ended says so. -/
theorem stopped_message {n : Nat} (h : s.standing.Stopped e n) :
    s.status = .failed ∧ s.finalAnswer = some (e.noProgressMessage s n) := by
  have hmessage : ∀ s₁ : Session, s₁.workflow = s.workflow →
      e.noProgressMessage s₁ n = e.noProgressMessage s n := by
    intro s₁ hworkflow
    unfold noProgressMessage
    rw [instruction_congr hworkflow]
  obtain ⟨hfailed, s₁, hworkflow, hanswer⟩ := h
  exact ⟨hfailed, (hmessage s₁ hworkflow) ▸ hanswer⟩

omit hemit in
theorem finishRun_standing (now : String) (s : Session) : (finishRun now s).standing = s.standing := by
  have hended : (if s.status ≠ .active ∧ s.runStatus = .running then
      { s with runStatus := if s.status = .complete then .complete else .failed }
        else s).standing = s.standing := by
    by_cases h : s.status ≠ .active ∧ s.runStatus = .running
    · rw [if_pos h]
      rfl
    · rw [if_neg h]
  unfold finishRun
  generalize (if s.status ≠ .active ∧ s.runStatus = .running then
    { s with runStatus := if s.status = .complete then .complete else .failed } else s) = x at hended ⊢
  dsimp only
  rw [← hended]
  split <;> rfl

/-- The step at which a run ends. -/
def stepLimit (e : Engine) (max : Option Int) (s : Session) : Int :=
  (e.host.i64 (s.stepCount + e.runAllowance max)).getD 0

omit hemit in
/-- A run makes its requests and its observations as it owes, and ends decided. -/
theorem run_paces (s : Session) (max : Option Int)
    (hemit : ∀ g₀, Hushed (e.pacing (e.Paced s (e.stepLimit max s))) (· = g₀) emit) :
    Paces (e.pacing (e.Paced s (e.stepLimit max s))) (e.run emit max) {} s fun g' s' _ =>
      Finished e s g' s'.standing := by
  unfold run
  refine Paces.get_bind ?_
  cases hlimit : e.host.i64 (s.stepCount + e.runAllowance max) with
  | none => exact Paces.i64_bind_none.2 trivial
  | some limit =>
    have hstep : e.stepLimit max s = limit := by rw [stepLimit, hlimit, Option.getD_some]
    rw [hstep] at hemit ⊢
    refine Paces.i64_bind ?_
    refine Paces.rests_bind (fun g₀ => .request (calm_pacing g₀) rfl) fun runId s₁ hs₁ => ?_
    refine Paces.rests_bind (fun g₀ => .request (calm_pacing g₀) rfl) fun now s₂ hs₂ => ?_
    refine Paces.modify_bind ?_
    refine Paces.rests_bind (fun g₀ => archiveRecord_rests (calm_pacing g₀) _ _) fun _ s₃ hs₃ => ?_
    refine Paces.get_bind ?_
    refine Paces.rests_bind (fun g₀ => checkpoint_rests (calm_pacing g₀) (hemit g₀) _)
      fun _ s₄ hs₄ => ?_
    have hstart : s₃.standing = s.standing := hs₃.trans (hs₂.trans hs₁)
    refine Paces.bind (settleLeft_paces hemit (hs₄.trans hstart)) fun g₅ s₅ _ h₅ => ?_
    have hcount : s₃.stepCount = s.stepCount := congrArg (·.stepCount) hstart
    have hcount₄ : s₄.stepCount = s₃.stepCount := congrArg (·.stepCount) hs₄
    refine Paces.bind (rounds_paces hemit _ h₅.1 (by have := h₅.2; omega)) fun g₆ s₆ _ h₆ => ?_
    refine Paces.bind (limitSteps_paces hemit _ h₆.1 h₆.2) fun g₇ s₇ _ h₇ => ?_
    refine Paces.rests_bind (fun g₀ => .request (calm_pacing g₀) rfl) fun now s₈ hs₈ => ?_
    refine Paces.modify ?_
    rw [finishRun_standing, hs₈]
    exact h₇

end Engine

end StateDrivenAgent
