import StateDrivenAgent.Agent.Run
import StateDrivenAgent.Interaction.Invariant
import StateDrivenAgent.Verify.Loading
import StateDrivenAgent.Verify.Store

/-!
# Overflow of the budgets

The sums of the budget code are computed in `i64`. A build that checks overflow panics where a sum is
not an `i64` and any other build goes on with the wrapped sum, so an overflow is where the checking
build (`Engine.checked`) panics.

For an accepted configuration, counters of a session and a payload nothing overflows if and only if
three sums stay below `2^63`: the steps with the allowance of the run, the estimate of the last
compaction with the growth, and the estimate of the payload with the reserve and the margin
(`budgetsExact_iff`). `validate_config` bounds none of the three from above.
-/

namespace StateDrivenAgent

open Interaction

namespace Host

/-- The same libraries in a build that checks overflow. -/
def checked (host : Host) : Host := { host with overflowChecks := true }

theorem checked_i64 (host : Host) (i : Int) :
    (host.checked.i64 i).isSome = true ↔ -2 ^ 63 ≤ i ∧ i < 2 ^ 63 := by
  have hrange : I64.inRange i = true ↔ -2 ^ 63 ≤ i ∧ i < 2 ^ 63 := by simp [I64.inRange]
  rw [← hrange, Host.i64]
  cases I64.inRange i with
  | true => exact iff_of_true rfl rfl
  | false => exact iff_of_false (by simp [checked]) (by simp)

theorem checked_i64_eq_some {host : Host} {i j : Int} :
    host.checked.i64 i = some j ↔ i = j ∧ -2 ^ 63 ≤ i ∧ i < 2 ^ 63 := by
  have hrange : I64.inRange i = true ↔ -2 ^ 63 ≤ i ∧ i < 2 ^ 63 := by simp [I64.inRange]
  rw [← hrange, Host.i64]
  cases I64.inRange i with
  | true => simp
  | false => simp [checked]

end Host

mutual

theorem text_checked (host : Host) : ∀ v : Value, v.text host.checked = v.text host
  | .null | .bool _ | .str _ => rfl
  | .num n => by cases n <;> rfl
  | .arr items => by rw [Value.text, Value.text, textItems_checked host items]
  | .obj fields => by rw [Value.text, Value.text, textFields_checked host fields]

theorem textItems_checked (host : Host) : ∀ items : List Value,
    Value.textItems host.checked items = Value.textItems host items
  | [] => rfl
  | v :: vs => by
    rw [Value.textItems, Value.textItems, text_checked host v, textItems_checked host vs]

theorem textFields_checked (host : Host) : ∀ fields : List (String × Value),
    Value.textFields host.checked fields = Value.textFields host fields
  | [] => rfl
  | (k, v) :: rest => by
    rw [Value.textFields, Value.textFields, text_checked host v, textFields_checked host rest]

end

namespace Context

/-! ## The estimate of a payload -/

/-- `estimate_payload` counts this for the input. -/
def estimateOf (host : Host) (payload : Value) : Int :=
  payload.byteLength host + 32 * (((payload.get "messages").bind Value.asArray).elim 0 List.length : Nat)

/-- What it reserves for the output. -/
def reserveOf (payload : Value) (m : MemoryPolicy) : Int :=
  max m.reservedOutputTokens (((payload.get "max_tokens").bind Value.asI64).getD 0)

theorem estimateOf_nonneg (host : Host) (payload : Value) : 0 ≤ estimateOf host payload := by
  unfold estimateOf
  omega

theorem estimatePayload_checked {host : Host} {payload : Value} {m : MemoryPolicy} {b : RequestBudget} :
    estimatePayload host.checked payload m = some b ↔
      (estimateOf host payload < 2 ^ 63 ∧
        (-2 ^ 63 ≤ estimateOf host payload + reserveOf payload m ∧
          estimateOf host payload + reserveOf payload m < 2 ^ 63) ∧
        -2 ^ 63 ≤ estimateOf host payload + reserveOf payload m + m.safetyMarginTokens ∧
        estimateOf host payload + reserveOf payload m + m.safetyMarginTokens < 2 ^ 63) ∧
      b = {
        estimatedInputTokens := estimateOf host payload
        reservedOutputTokens := reserveOf payload m
        safetyMarginTokens := m.safetyMarginTokens
        contextWindowTokens := m.contextWindowTokens
        fits := estimateOf host payload + reserveOf payload m + m.safetyMarginTokens ≤
          m.contextWindowTokens
        estimator } := by
  have hbytes : payload.byteLength host.checked = payload.byteLength host := by
    rw [Value.byteLength, Value.byteLength, text_checked]
  unfold estimatePayload
  simp only [Option.bind_eq_bind, Option.bind_eq_some_iff, Host.checked_i64_eq_some, hbytes,
    Option.pure_def, Option.some.injEq]
  constructor
  · rintro ⟨_, ⟨rfl, -, hestimate⟩, _, ⟨rfl, hreserve⟩, _, ⟨rfl, htotal⟩, rfl⟩
    exact ⟨⟨hestimate, hreserve, htotal⟩, rfl⟩
  · rintro ⟨⟨hestimate, hreserve, htotal⟩, rfl⟩
    have hlow := estimateOf_nonneg host payload
    exact ⟨_, ⟨rfl, by unfold estimateOf at hlow; omega, hestimate⟩, _, ⟨rfl, hreserve⟩, _,
      ⟨rfl, htotal⟩, rfl⟩

end Context

namespace Engine

/-- The same engine in a build that checks overflow. -/
def checked (e : Engine) : Engine := { e with host := e.host.checked }

/-- What is left of the window for the input, as a pass computes it. -/
def inputLimit (e : Engine) (b : RequestBudget) : Option Int := do
  let limit ← e.host.i64 (e.config.memory.contextWindowTokens - b.reservedOutputTokens)
  e.host.i64 (limit - e.config.memory.safetyMarginTokens)

/-- What is left beside the estimate. -/
def headroom (e : Engine) (b : RequestBudget) : Option Int := do
  e.host.i64 ((← e.inputLimit b) - b.estimatedInputTokens)

theorem i64_bind_none {α β : Type} (k : α → EngineM β) (s : Session) :
    (EngineM.i64 none >>= k) s = (EngineM.panic : EngineM β) s := by
  show Program.perform _ _ = Program.perform _ _
  congr 1
  funext r
  cases r

theorem i64_bind_some {α β : Type} (a : α) (k : α → EngineM β) (s : Session) :
    (EngineM.i64 (some a) >>= k) s = k a s := rfl

/-- A pass panics where the room is no `i64`. -/
theorem duePass_of_headroom {e : Engine} {number used : Int} {b : RequestBudget} {grown : Bool}
    (h : e.headroom b = none) (s : Session) :
    e.duePass number b grown used s = (EngineM.panic : EngineM (Bool × PassEnd)) s := by
  unfold duePass
  rw [EngineM.get, Proc.state_bind_apply]
  unfold headroom inputLimit at h
  dsimp only
  cases hwindow : e.host.i64 (e.config.memory.contextWindowTokens - b.reservedOutputTokens) with
  | none => exact i64_bind_none _ s
  | some limit =>
    rw [hwindow] at h
    refine (i64_bind_some limit _ s).trans ?_
    cases hmargin : e.host.i64 (limit - e.config.memory.safetyMarginTokens) with
    | none => exact i64_bind_none _ s
    | some limit =>
      have h : e.host.i64 (limit - b.estimatedInputTokens) = none := by
        simpa [hmargin] using h
      refine (i64_bind_some limit _ s).trans ?_
      rw [h]
      exact i64_bind_none _ s

/-- The run panics where its limit is no `i64`. -/
theorem run_eq_panic_iff {e : Engine} {max : Option Int} {s : Session} {emit : Emit} :
    e.run emit max s = (EngineM.panic : EngineM Unit) s ↔
      e.host.i64 (s.stepCount + e.runAllowance max) = none := by
  unfold run
  rw [EngineM.get, Proc.state_bind_apply]
  cases h : e.host.i64 (s.stepCount + e.runAllowance max) with
  | none => exact iff_of_true (i64_bind_none _ s) rfl
  | some limit =>
    refine iff_of_false (fun heq => ?_) (by simp)
    have heq : Program.perform _ _ = Program.perform _ _ := heq
    injection heq with heff
    cases heff

/-- The counters of a session are `i64`s from zero on. -/
structure Measured (s : Session) : Prop where
  steps : 0 ≤ s.stepCount ∧ s.stepCount < 2 ^ 63
  compaction : 0 ≤ s.lastCompactionStep ∧ s.lastCompactionStep < 2 ^ 63
  attempt : ∀ last ∈ s.lastCompactionAttemptStep, 0 ≤ last ∧ last < 2 ^ 63
  estimate : ∀ last ∈ s.lastCompactionEstimatedTokens, 0 ≤ last ∧ last < 2 ^ 63

/-- Nothing overflows: the checking build loads the configuration, starts the run, measures the
payload and computes with the measured budget, and the differences of counters and of estimates are
`i64`s. -/
structure BudgetsExact (e : Engine) (s : Session) (max : Option Int) (payload : Value) : Prop where
  loaded : Config.Returns (Config.validateConfig e.checked.host e.config)
  started : ∀ emit, e.checked.run emit max s ≠ (EngineM.panic : EngineM Unit) s
  steps : I64.inRange (s.stepCount - s.lastCompactionStep) = true ∧
    ∀ last ∈ s.lastCompactionAttemptStep, I64.inRange (s.stepCount - last) = true
  measured : ∃ b, Context.estimatePayload e.checked.host payload e.config.memory = some b ∧
    (e.checked.grown s b.estimatedInputTokens).isSome = true ∧
    (e.checked.compactionDue s b.estimatedInputTokens).isSome = true ∧
    (e.checked.headroom b).isSome = true ∧
    ∀ payload' b', Context.estimatePayload e.checked.host payload' e.config.memory = some b' →
      I64.inRange (b.estimatedInputTokens - b'.estimatedInputTokens) = true

/-- The sums stay below `2^63`. -/
structure BudgetsFit (e : Engine) (s : Session) (max : Option Int) (payload : Value) : Prop where
  allowance : s.stepCount + e.runAllowance max < 2 ^ 63
  growth : ∀ last ∈ s.lastCompactionEstimatedTokens,
    last + e.config.memory.compactionMinGrowthTokens < 2 ^ 63
  payload : Context.estimateOf e.host payload + Context.reserveOf payload e.config.memory +
    e.config.memory.safetyMarginTokens < 2 ^ 63

section exact

variable {e : Engine} {s : Session} {max : Option Int} {payload : Value}

theorem inRange_iff {i : Int} : I64.inRange i = true ↔ -2 ^ 63 ≤ i ∧ i < 2 ^ 63 := by
  simp [I64.inRange]

theorem runAllowance_pos (h : 0 < e.config.memory.maxSteps) : 0 < e.runAllowance max := by
  unfold runAllowance
  cases hmax : max.filter (0 < ·) with
  | some n =>
    have hpos := (Option.filter_eq_some_iff.1 hmax).2
    simpa using hpos
  | none =>
    cases hrun : e.config.memory.runMaxSteps.filter (0 < ·) with
    | some n =>
      have hpos := (Option.filter_eq_some_iff.1 hrun).2
      simpa using hpos
    | none => exact h

theorem grown_isSome_iff {estimated : Int} (hs : Measured s)
    (hgrowth : 0 ≤ e.config.memory.compactionMinGrowthTokens) :
    (e.checked.grown s estimated).isSome = true ↔ ∀ last ∈ s.lastCompactionEstimatedTokens,
      last + e.config.memory.compactionMinGrowthTokens < 2 ^ 63 := by
  rw [grown]
  cases hlast : s.lastCompactionEstimatedTokens with
  | none => simp
  | some last =>
    obtain ⟨hlow, -⟩ := hs.estimate last hlast
    have hsum := Host.checked_i64 e.host (last + e.config.memory.compactionMinGrowthTokens)
    show ((e.host.checked.i64 _).map _).isSome = true ↔ _
    rw [Option.isSome_map]
    refine hsum.trans ?_
    constructor
    · rintro ⟨-, h⟩ _ ⟨⟩
      exact h
    · intro h
      exact ⟨by omega, h last rfl⟩

theorem compactionDue_isSome {estimated : Int} (h : (e.checked.grown s estimated).isSome = true) :
    (e.checked.compactionDue s estimated).isSome = true := by
  rw [compactionDue]
  split
  · rw [Option.isSome_map]
    exact h
  · rfl

/-- The room beside a payload that fits is an `i64`. -/
theorem headroom_isSome {b : RequestBudget} (hwindow : e.config.memory.contextWindowTokens < 2 ^ 63)
    (hpos : 0 < e.config.memory.contextWindowTokens) (hreserve : 0 ≤ b.reservedOutputTokens)
    (hmargin : 0 ≤ e.config.memory.safetyMarginTokens) (hestimate : 0 ≤ b.estimatedInputTokens)
    (h : b.estimatedInputTokens + b.reservedOutputTokens + e.config.memory.safetyMarginTokens <
      2 ^ 63) : (e.checked.headroom b).isSome = true := by
  have hsub : ∀ i : Int, -2 ^ 63 ≤ i → i < 2 ^ 63 → e.checked.host.i64 i = some i :=
    fun i hlow hhigh => Host.checked_i64_eq_some.2 ⟨rfl, hlow, hhigh⟩
  have hlimit : e.checked.inputLimit b = some (e.config.memory.contextWindowTokens -
      b.reservedOutputTokens - e.config.memory.safetyMarginTokens) := by
    show (e.checked.host.i64 (e.config.memory.contextWindowTokens - b.reservedOutputTokens)).bind
      (fun limit => e.checked.host.i64 (limit - e.config.memory.safetyMarginTokens)) = _
    rw [hsub _ (by omega) (by omega), Option.bind_some, hsub _ (by omega) (by omega)]
  show ((e.checked.inputLimit b).bind fun limit =>
    e.checked.host.i64 (limit - b.estimatedInputTokens)).isSome = true
  rw [hlimit, Option.bind_some, hsub _ (by omega) (by omega)]
  rfl

/-- Nothing overflows if and only if the sums fit. -/
theorem budgetsExact_iff (haccepted : Config.validateConfig e.host e.config = .ok ())
    (hwindow : e.config.memory.contextWindowTokens < 2 ^ 63) (hs : Measured s) :
    BudgetsExact e s max payload ↔ BudgetsFit e s max payload := by
  obtain ⟨⟨-, hsteps, -⟩, -, ⟨hpos, hreserved, -, -, hmargin⟩, -, hbounded⟩ :=
    Config.validateConfig_ok_iff.1 haccepted
  obtain ⟨-, -, hgrowth, -⟩ := hbounded
  have hestimate := Context.estimateOf_nonneg e.host payload
  have hreserve : e.config.memory.reservedOutputTokens ≤ Context.reserveOf payload e.config.memory :=
    le_max_left _ _
  constructor
  · rintro ⟨-, hstarted, -, b, hb, hgrown, -⟩
    obtain ⟨⟨-, -, -, htotal⟩, -⟩ := Context.estimatePayload_checked.1 hb
    refine ⟨?_, (grown_isSome_iff hs hgrowth).1 hgrown, htotal⟩
    by_contra hover
    have hnone : e.checked.host.i64 (s.stepCount + e.runAllowance max) = none := by
      rw [← Option.not_isSome_iff_eq_none]
      exact fun h => hover ((Host.checked_i64 e.host _).1 h).2
    exact hstarted (fun _ _ => .ret (.ok (), s)) (run_eq_panic_iff.2 hnone)
  · rintro ⟨hallowance, hgrowths, htotal⟩
    have hcap : 0 < e.runAllowance max := runAllowance_pos hsteps
    obtain ⟨hlow, hhigh⟩ := hs.steps
    refine ⟨?_, fun emit hpanic => ?_, ⟨?_, fun last hlast => ?_⟩, ?_⟩
    · rw [Config.returns_validateConfig_iff]
      rintro ⟨-, -, -, hnone⟩
      have hsome := (Host.checked_i64 e.host (e.config.memory.reservedOutputTokens +
        e.config.memory.safetyMarginTokens)).2 ⟨by omega, by omega⟩
      exact absurd hnone (Option.isSome_iff_ne_none.1 hsome)
    · have hnone := run_eq_panic_iff.1 hpanic
      have hsome := (Host.checked_i64 e.host (s.stepCount + e.runAllowance max)).2
        ⟨by omega, hallowance⟩
      exact absurd hnone (Option.isSome_iff_ne_none.1 hsome)
    · have hcompaction := hs.compaction
      rw [inRange_iff]
      omega
    · have hattempt := hs.attempt last hlast
      rw [inRange_iff]
      omega
    · refine ⟨_, Context.estimatePayload_checked.2 ⟨⟨by omega, by omega, by omega, htotal⟩, rfl⟩, ?_⟩
      have hgrown : (e.checked.grown s (Context.estimateOf e.host payload)).isSome = true :=
        (grown_isSome_iff hs hgrowth).2 hgrowths
      refine ⟨hgrown, compactionDue_isSome hgrown, ?_, ?_⟩
      · exact headroom_isSome hwindow hpos (le_trans hreserved.le hreserve) hmargin hestimate htotal
      · intro payload' b' hb'
        obtain ⟨⟨hsmall, -⟩, rfl⟩ := Context.estimatePayload_checked.1 hb'
        have hestimate' := Context.estimateOf_nonneg e.host payload'
        rw [inRange_iff]
        dsimp only
        omega

end exact

/-! ## Limits without a bound -/

/-- A small configuration with these limits. -/
def limitsConfig (maxSteps reserved margin : Int) : Config where
  name := "a"
  systemPrompt := "s"
  model := "m"
  llm := { baseUrl := "u", temperature := .zero, timeoutSeconds := .ofInt 1 }
  memory := {
    maxTokens := 1, maxSteps, rawTurnsToKeep := 1, reservedOutputTokens := reserved,
    safetyMarginTokens := margin }
  tools := []

/-- The libraries in a build that does not check overflow. -/
def releaseHost : Host := { exactHost with overflowChecks := false }

theorem eq_ok_of_stopOf {x : Loading Unit} (h : Config.stopOf x = none) : x = .ok () := by
  cases x with
  | ok a => rfl
  | error stop => cases h

def largeReserve : Engine := ⟨releaseHost, limitsConfig 1 (2 ^ 63 - 1) 1⟩

def largeAllowance : Engine := ⟨exactHost, limitsConfig (2 ^ 63 - 1) 1024 256⟩

def smallLimits : Engine := ⟨exactHost, limitsConfig 10 1024 256⟩

/-- A session after this many steps. -/
def steppedSession (steps : Int) : Session := { Storage.sampleSession with stepCount := steps }

theorem accepts_largeReserve :
    Config.validateConfig largeReserve.host largeReserve.config = .ok () :=
  eq_ok_of_stopOf (by decide +kernel)

theorem accepts_largeAllowance :
    Config.validateConfig largeAllowance.host largeAllowance.config = .ok () :=
  eq_ok_of_stopOf (by decide +kernel)

theorem accepts_smallLimits : Config.validateConfig smallLimits.host smallLimits.config = .ok () :=
  eq_ok_of_stopOf (by decide +kernel)

theorem counted_steppedSession {steps : Int} (h : 0 ≤ steps ∧ steps < 2 ^ 63) :
    Measured (steppedSession steps) :=
  ⟨h, (by decide : (0 : Int) ≤ 0 ∧ (0 : Int) < 2 ^ 63), by rintro _ ⟨⟩, by rintro _ ⟨⟩⟩

theorem budgetsExact_smallLimits :
    BudgetsExact smallLimits (steppedSession 1) none (.obj []) :=
  (budgetsExact_iff accepts_smallLimits (by decide) (counted_steppedSession (by decide))).2
    ⟨by decide, by rintro _ ⟨⟩, by decide⟩

/-- A reserve that is accepted because its sum with the margin wraps, and an allowance with which
the second run panics. -/
theorem exists_overflow :
    (Config.validateConfig largeReserve.host largeReserve.config = .ok () ∧
      largeReserve.host.i64 (largeReserve.config.memory.reservedOutputTokens +
        largeReserve.config.memory.safetyMarginTokens) = some (-2 ^ 63) ∧
      ∀ s max payload, ¬BudgetsExact largeReserve s max payload) ∧
    Config.validateConfig largeAllowance.host largeAllowance.config = .ok () ∧
      Measured (steppedSession 1) ∧
      ∀ emit, largeAllowance.run emit none (steppedSession 1) =
        (EngineM.panic : EngineM Unit) (steppedSession 1) := by
  refine ⟨⟨accepts_largeReserve, by decide, fun s max payload h => ?_⟩, accepts_largeAllowance,
    counted_steppedSession (by decide), fun emit => run_eq_panic_iff.2 (by decide)⟩
  have hsettings : Config.LlmSettings largeReserve.config.llm :=
    (Config.validateConfig_ok_iff.1 accepts_largeReserve).llm
  exact Config.returns_validateConfig_iff.1 h.loaded ⟨by decide, hsettings, by decide, by decide⟩

end Engine

end StateDrivenAgent
