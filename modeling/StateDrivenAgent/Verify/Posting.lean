import StateDrivenAgent.Verify.Allowance
import StateDrivenAgent.Verify.Serving

/-!
# The requests that are posted

Every request to the model is measured as it is posted, and what is measured is within the window
unless the sum of the measurement is no `i64` (`within_iff_of_fits`). A round in which no decision is
asked for ends with an error (`round_asks`). So requests stay within the context budget, after
every history and with every reply, if and only if their sums stay below `2^63`
(`requests_within_iff`).
-/

namespace StateDrivenAgent

open Interaction

theorem Context.estimatePayload_eq (host : Host) (payload : Value) (m : MemoryPolicy) :
    estimatePayload host payload m = (host.i64 (estimateOf host payload)).bind fun estimate =>
      (host.i64 (estimate + reserveOf payload m)).bind fun total =>
        (host.i64 (total + m.safetyMarginTokens)).map fun total => {
          estimatedInputTokens := estimate, reservedOutputTokens := reserveOf payload m
          safetyMarginTokens := m.safetyMarginTokens, contextWindowTokens := m.contextWindowTokens
          fits := total ≤ m.contextWindowTokens, estimator } := by
  unfold estimatePayload
  simp only [Option.map_eq_bind]
  rfl

namespace Engine

/-- The request with all that is reserved is within the window. -/
def Within (e : Engine) (payload : Value) : Prop :=
  Context.estimateOf e.host payload + Context.reserveOf payload e.config.memory +
    e.config.memory.safetyMarginTokens ≤ e.config.memory.contextWindowTokens

/-- The sum of the budget does not leave `i64`. -/
def Summed (e : Engine) (payload : Value) : Prop :=
  Context.estimateOf e.host payload + Context.reserveOf payload e.config.memory +
    e.config.memory.safetyMarginTokens < 2 ^ 63

variable {e : Engine} {payload : Value}

/-- What is measured without an overflow is what it is. -/
theorem within_iff_of_fits (haccepted : Config.validateConfig e.host e.config = .ok ())
    (hwindow : e.config.memory.contextWindowTokens < 2 ^ 63) (h : e.Fits payload) :
    e.Within payload ↔ e.Summed payload := by
  obtain ⟨-, hreserved, -, -, hmargin⟩ := (Config.validateConfig_ok_iff.1 haccepted).sized
  unfold Within Summed
  refine ⟨fun hwithin => by omega, fun hsum => ?_⟩
  have hestimate := Context.estimateOf_nonneg e.host payload
  have hreserve : e.config.memory.reservedOutputTokens ≤ Context.reserveOf payload e.config.memory :=
    le_max_left _ _
  have hexact : ∀ i : Int, 0 ≤ i → i < 2 ^ 63 → e.host.i64 i = some i := fun i hlow hhigh =>
    Host.i64_of_inRange (inRange_iff.2 ⟨by omega, hhigh⟩)
  have hestimated := hexact (Context.estimateOf e.host payload) hestimate (by omega)
  have hreserved := hexact (Context.estimateOf e.host payload +
    Context.reserveOf payload e.config.memory) (by omega) (by omega)
  obtain ⟨b, hb, hfits⟩ := h
  rw [Context.estimatePayload_eq, hestimated, Option.bind_some, hreserved, Option.bind_some,
    hexact _ (by omega) hsum, Option.map_some] at hb
  obtain rfl := Option.some.inj hb
  exact of_decide_eq_true hfits

/-! ## Rounds without a request -/

/-- Whether a decision has been asked for. -/
def asking (e : Engine) : Monitor Eff Reply Bool where
  may _ _ _ := True
  must _ _ := True
  next asked x _ := asked || e.paces x

theorem calm_asking (asked : Bool) : Calm e e.asking (· = asked) where
  must _ _ _ _ := trivial
  next g x r hg hx _ := by
    show (g || e.paces x) = asked
    rw [hx, Bool.or_false, hg]

variable {s : Session} {emit : Emit}

theorem sat_asked {α : Type} (p : Prog α) : p.Sat e.asking true fun asked _ => asked = true := by
  induction p with
  | ret a => exact rfl
  | perform x next ih =>
    refine ⟨trivial, fun r _ => ?_⟩
    show (next r).Sat e.asking (true || e.paces x) _
    rw [Bool.true_or]
    exact ih r

theorem paces_asked {α : Type} (f : EngineM α) :
    Paces e.asking f true s fun asked _ _ => asked = true := by
  refine ⟨(sat_asked (f s)).mono ?_⟩
  rintro asked ⟨_ | a, s'⟩ h
  · trivial
  · exact h

theorem decideAndAct_asks (hemit : Callback emit) :
    Paces e.asking (e.decideAndAct emit) false s fun asked _ _ => asked = true := by
  have hhushed : ∀ g₀, Hushed e.asking (· = g₀) emit := fun g₀ => hemit.hushed (calm_asking g₀)
  unfold decideAndAct
  refine Paces.get_bind ?_
  refine Paces.rests_bind (fun g₀ => checkpoint_rests (calm_asking g₀) (hhushed g₀) _)
    fun _ s₁ _ => Paces.get_bind ?_
  refine ⟨Proc.sat_bind.2 (Proc.sat_lift.2 ((decide_paced calm_asking fun _ _ _ => trivial).mono ?_))⟩
  intro asked decided hdecided
  cases decided with
  | error m => trivial
  | ok out =>
    obtain ⟨d, diagnostics⟩ := out
    obtain ⟨-, url, payload, r, hpaces, -, rfl⟩ := hdecided
    rw [show e.asking.next false (.httpPost url payload) r = true from hpaces]
    exact (paces_asked _).sat

/-- A round that asks for no decision ends the run with an error. -/
theorem round_asks (hemit : Callback emit) :
    Paces e.asking (e.round emit) false s fun asked s' goes => asked = false →
      goes = false ∧ s'.status = .failed ∧ s'.finalAnswer.isSome = true := by
  have hhushed : ∀ g₀, Hushed e.asking (· = g₀) emit := fun g₀ => hemit.hushed (calm_asking g₀)
  unfold round
  refine Paces.swap_bind ?_
  refine Paces.rests_bind (fun g₀ => reportAdvance_rests (calm_asking g₀) (hhushed g₀) _)
    fun _ s₁ _ => Paces.get_bind ?_
  refine Paces.rests_bind (fun g₀ => compactAndReport_rests (calm_asking g₀) (hhushed g₀))
    fun compacted s₂ _ => Paces.get_bind ?_
  refine Paces.rests_bind (fun g₀ => reportDiagnostics_rests (calm_asking g₀) (hhushed g₀) _)
    fun _ s₃ _ => ?_
  cases compacted with
  | ok u =>
    refine Paces.bind (decideAndAct_asks hemit) fun asked s₄ _ hasked => Paces.pure fun hnot => ?_
    rw [hasked] at hnot
    cases hnot
  | error m =>
    have hfail : Paces e.asking (failCompaction emit m) false s₃ fun _ s' _ =>
        s'.standing = (failWith m s₃).standing :=
      Paces.modify_bind ((Paces.rests fun g₀ =>
        checkpoint_rests (calm_asking g₀) (hhushed g₀) _).mono fun _ _ _ h => h.2)
    refine Paces.bind hfail fun asked s₄ _ hs₄ => Paces.pure fun _ => ⟨rfl, ?_, ?_⟩
    · exact congrArg (·.status) hs₄
    · exact congrArg (fun x : Standing => x.finalAnswer.isSome) hs₄

end Engine

/-! ## Every history -/

theorem Commands.name_of_supported {name : String} (h : Commands.isSupported name = true) : name ≠ "" := by
  rintro rfl
  exact absurd h (by decide)

/-- Nothing but the configuration is needed for the requests to be measured. -/
def measured (env : Deployment) {config : Config} (h : ∀ tool ∈ config.tools, tool.name ≠ "") :
    Lasting env config where
  Inv _ _ := True
  Event _ := True
  content _ := True
  supported := h
  mono _ := trivial
  move _ _ := trivial
  start _ := trivial
  created := trivial
  reloaded _ := trivial
  harmless _ := trivial
  grouped _ _ := .inr fun _ => trivial
  said _ _ := trivial

/-- Every request that is posted fits, as the engine measures it. -/
theorem posts_fit {env : Deployment} {config : Config}
    (h : ∀ tool ∈ config.tools, tool.name ≠ "") {g : Ghost} {es : List (Event Eff Reply)}
    (hes : Server.Performs env config (fun _ _ => True) g es) {url : String} {payload : Value}
    {r : HttpReply} (hr : ⟨.httpPost url payload, r⟩ ∈ es) :
    Engine.Fits ⟨env.toHost, config⟩ payload := by
  have hkept := (measured env h).kept (hes.mono fun _ _ _ _ _ _ => trivial)
  obtain ⟨g', hmust⟩ := hkept.mem hr
  exact hmust

/-- After every history, the requests of every run are within the window if and only if their sums
are below `2^63`; and where no decision is asked for, the run ends with an error. -/
theorem requests_within_iff (env : Deployment) (config : Config)
    (haccepted : Config.validateConfig env.toHost config = .ok ())
    (htools : ∀ tool ∈ config.tools, Commands.isSupported tool.name = true)
    (hwindow : config.memory.contextWindowTokens < 2 ^ 63) :
    (∀ (g : Ghost) (es : List (Event Eff Reply)), Server.Performs env config (fun _ _ => True) g es →
      ∀ (url : String) (payload : Value) (r : HttpReply), ⟨.httpPost url payload, r⟩ ∈ es →
        (Engine.Within ⟨env.toHost, config⟩ payload ↔ Engine.Summed ⟨env.toHost, config⟩ payload)) ∧
    ∀ (emit : Emit) (s : Session), Engine.Callback emit →
      Proc.Sat (Engine.asking ⟨env.toHost, config⟩) (Engine.round ⟨env.toHost, config⟩ emit) false s
        (fun asked s' goes => asked = false →
          goes = false ∧ s'.status = .failed ∧ s'.finalAnswer.isSome = true) fun _ _ _ => True := by
  refine ⟨fun g es hes url payload r hr => ?_, fun emit s hemit => (Engine.round_asks hemit).sat⟩
  refine Engine.within_iff_of_fits haccepted hwindow (posts_fit (fun tool ht => ?_) hes hr)
  exact Commands.name_of_supported (htools tool ht)

/-! ## Sums beyond `i64` -/

section Sample

/-- The event posts such a payload. -/
def postsSuch (test : Value → Bool) (x : Event Eff Reply) : Bool :=
  match x.1 with
  | .httpPost _ payload => test payload
  | _ => false

theorem exists_post {test : Value → Bool} {es : List (Event Eff Reply)}
    (h : es.any (postsSuch test) = true) :
    ∃ url payload r, ⟨.httpPost url payload, r⟩ ∈ es ∧ test payload = true := by
  obtain ⟨⟨x, r⟩, hx, htest⟩ := List.any_eq_true.1 h
  cases x with
  | httpPost url payload => exact ⟨url, payload, r, hx, htest⟩
  | _ => cases htest

instance (e : Engine) (payload : Value) : Decidable (e.Within payload) := by
  unfold Engine.Within
  infer_instance

/-- A reserve that wraps is accepted, and the first request is posted beyond the window. -/
theorem exists_post_beyond_window : ∃ (config : Config) (g : Ghost) (es : List (Event Eff Reply))
    (url : String) (payload : Value) (r : HttpReply),
    Config.validateConfig Engine.releaseHost config = .ok () ∧
      (∀ tool ∈ config.tools, Commands.isSupported tool.name = true) ∧
      config.memory.contextWindowTokens < 2 ^ 63 ∧
      Server.Performs (plainAgent Engine.releaseHost config) config (fun _ _ => True) g es ∧
      ⟨.httpPost url payload, r⟩ ∈ es ∧ ¬Engine.Within ⟨Engine.releaseHost, config⟩ payload := by
  have hposted : (firstRun Engine.largeReserve.host Engine.largeReserve.config (fun _ => .timeout 1) 100).any
      (postsSuch fun payload => !decide (Engine.largeReserve.Within payload)) = true := by
    decide +kernel
  obtain ⟨url, payload, r, hmem, hbeyond⟩ := exists_post hposted
  obtain ⟨g, hperforms⟩ := firstRun_performs Engine.largeReserve.host Engine.largeReserve.config (fun _ => .timeout 1) 100
  refine ⟨_, g, _, url, payload, r, Engine.accepts_largeReserve, by simp [Engine.largeReserve,
    Engine.limitsConfig], by decide, hperforms, hmem, ?_⟩
  have hbeyond : ¬Engine.largeReserve.Within payload := by simpa using hbeyond
  exact hbeyond

/-- The first request of a small session is within its window. -/
theorem requests_within_small : (∃ (g : Ghost) (es : List (Event Eff Reply)) (url : String)
    (payload : Value) (r : HttpReply), Server.Performs (plainAgent exactHost Engine.smallLimits.config)
      Engine.smallLimits.config (fun _ _ => True) g es ∧ ⟨.httpPost url payload, r⟩ ∈ es ∧
      Engine.smallLimits.Within payload ∧ Engine.smallLimits.Summed payload) ∧
    Proc.Sat Engine.smallLimits.asking (Engine.smallLimits.round (Server.emitRun .null)) false
      Storage.sampleSession (fun asked s' goes => asked = false →
        goes = false ∧ s'.status = .failed ∧ s'.finalAnswer.isSome = true) fun _ _ _ => True := by
  have h := requests_within_iff (plainAgent exactHost Engine.smallLimits.config)
    Engine.smallLimits.config Engine.accepts_smallLimits (by simp [Engine.smallLimits,
      Engine.limitsConfig]) (by decide)
  have hposted : (firstRun Engine.smallLimits.host Engine.smallLimits.config (fun _ => .timeout 1) 100).any
      (postsSuch fun payload => decide (Engine.smallLimits.Within payload)) = true := by
    decide +kernel
  obtain ⟨url, payload, r, hmem, hwithin⟩ := exists_post hposted
  obtain ⟨g, hperforms⟩ := firstRun_performs Engine.smallLimits.host Engine.smallLimits.config (fun _ => .timeout 1) 100
  have hwithin := of_decide_eq_true hwithin
  exact ⟨⟨g, _, url, payload, r, hperforms, hmem, hwithin,
    (h.1 g _ hperforms url payload r hmem).1 hwithin⟩,
    h.2 (Server.emitRun .null) Storage.sampleSession ⟨.null, .inl rfl⟩⟩

end Sample

end StateDrivenAgent
