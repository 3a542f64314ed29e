import StateDrivenAgent.Verify.Budgets
import StateDrivenAgent.Verify.Rounds

/-!
# A model that repeats its calls

A call made again is no progress exactly when it supplies nothing that progress is measured by, and a
run that makes only such calls counts every decision until the limit ends it. A call that a result
check captures does not fall under this: its artifact carries the identity of the call.
-/

namespace StateDrivenAgent

open Interaction

namespace Engine

/-- What a run that began with `s₀` owes as to its progress: a decision is asked for with the progress
of the last one observed, and below the limit where all calls repeat; an observation finds none. -/
structure Stalls (e : Engine) (s₀ : Session) (g : Pace) (x : Eff) : Prop where
  asks : ∀ url payload, x = .httpPost url payload → e.paces x = true → g.unobserved = false ∧
    (g.repeats → ∀ n, e.progressLimit = some n → 0 < g.observed →
      s₀.noProgressSteps + g.observed < n)
  observes : ∀ s before, x = .mark (.observing s before) → g.repeats →
    e.progressFingerprint s = before ∧ s.noProgressSteps = s₀.noProgressSteps + g.observed

/-- The end of a run that began with `s₀`: its last decision was observed unless its answer was
accepted, and where all calls repeat the limit has ended it if it was reached. -/
structure Stalled (e : Engine) (s₀ : Session) (g : Pace) (s : Session) : Prop where
  settled : g.unobserved = true → s.status = .complete
  limited : g.repeats → ∀ n, e.progressLimit = some n → 0 < g.observed →
    n ≤ s₀.noProgressSteps + g.observed →
      s.status = .failed ∧ s.finalAnswer = some (e.noProgressMessage s n)

theorem run_stalls (e : Engine) {emit : Emit} (hemit : Callback emit) (max : Option Int)
    (s : Session) : Proc.Sat (e.pacing (e.Stalls s)) (e.run emit max) {} s
      (fun g s' _ => e.Stalled s g s') fun _ _ _ => True := by
  have hrun := run_paces s max fun g₀ => hemit.hushed (e := e) (calm_pacing g₀)
  have hsat := hrun.sat.mono_post fun g s' _ h =>
    (⟨h.settled, fun hr n hn hpos hle => stopped_message (h.stopped hr n hn hpos hle)⟩ :
      e.Stalled s g s')
  refine sat_pacing_mono hsat fun g x hx => ⟨?_, ?_⟩
  · rintro url payload rfl hpaces
    exact (hx hpaces).2.2
  · rintro s' before rfl
    exact hx

/-! ## A call that is captured, and one that is not -/

/-- A tool whose result the answer has to give. -/
def probeConfig : Config := { limitsConfig 10 1024 256 with
  tools := [{ name := "probe", description := "", parameters := .obj [("type", .str "object")] }]
  execution := .obj [("max_no_progress_steps", .int 2)]
  completion := .obj [("result_checks",
    .arr [.obj [("tool", .str "probe"), ("label", .str "reading")]])] }

def probeEngine : Engine := ⟨exactHost, probeConfig⟩

theorem accepts_probe : Config.validateConfig probeEngine.host probeEngine.config = .ok () :=
  eq_ok_of_stopOf (by decide +kernel)

theorem probe_captures : probeEngine.Captures
    (.obj [("tool", .str "probe"), ("label", .str "reading")]) "probe" [] "true" where
  tool := rfl
  arguments := rfl
  result := nofun
  extracted := by decide +kernel

theorem probe_shows : probeEngine.host.Shows := Value.exactHost_shows

theorem probe_injective : Function.Injective probeEngine.host.sha256 := Function.injective_id

theorem sample_fresh : FreshCall "call_2" Storage.sampleSession := by
  rintro k ⟨a, ha, -⟩
  cases ha

/-- The session after the call, one step later. -/
def probedSession : Session :=
  { probeEngine.applyOutput "call_1" "probe" [] "true" Storage.sampleSession with stepCount := 2 }

theorem probed_fresh : FreshCall "call_2" probedSession :=
  freshCall_applyOutput (by decide) sample_fresh

theorem probed_recorded : probeEngine.Recorded "probe" [] "true" probedSession :=
  @recorded_applyOutput probeEngine "call_1" "probe" "true" [] Storage.sampleSession (by decide)

theorem probed_not_idle : ¬probeEngine.Idle "probe" [] "true" probedSession := by
  intro h
  rcases h.artifacts with hfailed | hnone
  · revert hfailed
    decide +kernel
  · exact hnone _ List.mem_cons_self probe_captures

/-- The session after a call that no check captures, one step later. -/
def readSession : Session :=
  { probeEngine.applyOutput "call_1" "read" [] "true" Storage.sampleSession with stepCount := 2 }

theorem read_fresh : FreshCall "call_2" readSession :=
  freshCall_applyOutput (by decide) sample_fresh

theorem read_recorded : probeEngine.Recorded "read" [] "true" readSession :=
  @recorded_applyOutput probeEngine "call_1" "read" "true" [] Storage.sampleSession (by decide)

theorem read_idle : probeEngine.Idle "read" [] "true" readSession where
  artifacts := by
    refine .inr fun check hcheck hc => ?_
    obtain rfl := List.mem_singleton.1 hcheck
    exact absurd hc.tool (by decide)
  evidence := nofun

/-- Repeated work is no progress exactly when no result check captures it and the active phase has its
evidence; a run of such work is ended by the limit. -/
theorem repeats_no_progress_iff (e : Engine) (hs : e.host.Shows)
    (hsha : Function.Injective e.host.sha256) :
    (∀ (s : Session) (id name : String) (args : List (String × Value)) (output : String),
      FreshCall id s → e.Recorded name args output s →
        (e.progressFingerprint (e.applyOutput id name args output s) = e.progressFingerprint s ↔
          e.Idle name args output s)) ∧
    ∀ (emit : Emit) (max : Option Int) (s : Session), Callback emit →
      Proc.Sat (e.pacing (e.Stalls s)) (e.run emit max) {} s
        (fun g s' _ => e.Stalled s g s') fun _ _ _ => True :=
  ⟨fun _ _ _ _ _ hfresh hrecorded => progressFingerprint_applyOutput_iff hs hsha hfresh hrecorded,
    fun _ max s hemit => run_stalls e hemit max s⟩

theorem repeats_no_progress_read :
    probeEngine.progressFingerprint (probeEngine.applyOutput "call_2" "read" [] "true" readSession) =
        probeEngine.progressFingerprint readSession ∧
      Proc.Sat (probeEngine.pacing (probeEngine.Stalls readSession))
        (probeEngine.run (Server.emitRun .null) none) {} readSession
        (fun g s' _ => probeEngine.Stalled readSession g s') fun _ _ _ => True :=
  have h := repeats_no_progress_iff probeEngine probe_shows probe_injective
  ⟨(h.1 readSession "call_2" "read" [] "true" read_fresh read_recorded).2 read_idle,
    h.2 (Server.emitRun .null) none readSession ⟨.null, .inl rfl⟩⟩

/-- The same call with the same output at the next step counts as progress. -/
theorem recaptured_is_progress : Config.validateConfig probeEngine.host probeEngine.config = .ok () ∧
    probeEngine.host.Shows ∧ Function.Injective probeEngine.host.sha256 ∧
    FreshCall "call_2" probedSession ∧ probeEngine.Recorded "probe" [] "true" probedSession ∧
      probeEngine.progressFingerprint
          (probeEngine.applyOutput "call_2" "probe" [] "true" probedSession) ≠
        probeEngine.progressFingerprint probedSession := by
  refine ⟨accepts_probe, probe_shows, probe_injective, probed_fresh, probed_recorded, fun h => ?_⟩
  exact probed_not_idle
    ((progressFingerprint_applyOutput_iff probe_shows probe_injective probed_fresh probed_recorded).1 h)

end Engine

end StateDrivenAgent
