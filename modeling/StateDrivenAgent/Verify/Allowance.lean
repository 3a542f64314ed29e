import StateDrivenAgent.Verify.Budgets
import StateDrivenAgent.Verify.Rounds

/-!
# The allowance of a run

A run asks for no more decisions than its allowance, and returns with a session that has an outcome:
each round counts one step or ends the session. No more decisions in a row than the configured limit
go without an executed call, and a fresh identity of a call is found as long as no two draws are
the same.
-/

namespace StateDrivenAgent

open Interaction

namespace Engine

variable {e : Engine} {s : Session} {max : Option Int} {emit : Emit}

/-- What a run that began with `s₀` owes as to its limits. -/
def WithinLimits (e : Engine) (max : Option Int) (s₀ : Session) (g : Pace) (x : Eff) : Prop :=
  ∀ url payload, x = .httpPost url payload → e.paces x = true →
    g.asked < e.runAllowance max ∧ (e.Owns s₀ → g.streak < e.maxInvalid)

theorem maxInvalid_pos (h : Config.Policies e.config.execution) : 0 < e.maxInvalid := by
  unfold maxInvalid
  cases hget : e.config.execution.get "max_consecutive_invalid_responses" with
  | none => exact Nat.succ_pos _
  | some v =>
    cases hu : v.asU64 with
    | none =>
      show 0 < (v.asU64).getD 3
      rw [hu]
      exact Nat.succ_pos _
    | some n =>
      show 0 < (v.asU64).getD 3
      rw [hu, Option.getD_some]
      have hpolicy := h.invalid
      rw [hget] at hpolicy
      cases v with
      | num k =>
        cases k with
        | int i =>
          unfold Value.asU64 at hu
          dsimp only at hu
          split at hu
          next hi =>
            obtain rfl := Option.some.inj hu
            by_cases hlow : i < 2 ^ 63
            · have hi64 : (Value.num (.int i)).asI64 = some i := if_pos ⟨by omega, hlow⟩
              have hone := (hpolicy i hi64).1
              omega
            · omega
          · cases hu
        | float f => cases hu
      | _ => cases hu

/-- The last step of a run is within its allowance. -/
theorem stepLimit_le {limit : Int} (hs : I64.inRange s.stepCount = true)
    (hcap : 0 < e.runAllowance max)
    (h : e.host.i64 (s.stepCount + e.runAllowance max) = some limit) :
    limit - s.stepCount ≤ e.runAllowance max := by
  rw [inRange_iff] at hs
  unfold Host.i64 at h
  split at h
  · rw [← Option.some.inj h]
    omega
  next hover =>
    split at h
    · cases h
    · -- the sum wraps, and what it wraps to is smaller
      rw [Bool.not_eq_true, ← Bool.not_eq_true, inRange_iff] at hover
      have hwrap : I64.wrap (s.stepCount + e.runAllowance max) < ((2 ^ 64 : Nat) + 1) / 2 :=
        Int.bmod_lt (by decide)
      rw [← Option.some.inj h]
      omega

theorem run_within_limits (haccepted : Config.validateConfig e.host e.config = .ok ())
    (hemit : Callback emit) (hs : I64.inRange s.stepCount = true) :
    Proc.Sat (e.pacing (e.WithinLimits max s)) (e.run emit max) {} s
      (fun _ s' _ => s'.status ≠ .active) fun _ _ _ => True := by
  have hacceptable := Config.validateConfig_ok_iff.1 haccepted
  have hmax := maxInvalid_pos hacceptable.policies
  have hcap : 0 < e.runAllowance max := runAllowance_pos hacceptable.thresholds.2.1
  cases hlimit : e.host.i64 (s.stepCount + e.runAllowance max) with
  | none =>
    unfold Proc.Sat
    rw [run_eq_panic_iff.2 hlimit]
    exact ⟨fun _ _ h => (nomatch h), fun r => nomatch r⟩
  | some limit =>
    have hle := stepLimit_le hs hcap hlimit
    have hstep : e.stepLimit max s = limit := by rw [stepLimit, hlimit, Option.getD_some]
    have hrun := run_paces s max fun g₀ => hemit.hushed (e := e) (calm_pacing g₀)
    rw [hstep] at hrun
    have hsat := hrun.sat.mono_post fun _ s' _ h => (h.ended : s'.status ≠ .active)
    refine sat_pacing_mono hsat fun g x hx => ?_
    rintro url payload rfl hpaces
    obtain ⟨hasked, hstreak, -⟩ := hx hpaces
    exact ⟨by omega, hstreak hmax⟩

/-! ## The draw of an identity -/

/-- As long as no two draws are the same, one of the first draws is not used. -/
theorem freshCallId_from (used : List String) {draws : Nat → String} (hdraws : draws.Injective)
    (fuel k : Nat) (hfuel : used.length < fuel + k) (hused : ∀ i < k, "call_" ++ draws i ∈ used) :
    ∃ n, k ≤ n ∧ "call_" ++ draws n ∉ used ∧ (freshCallId used fuel).Runs
      ((List.range' k (n + 1 - k)).map fun i => ⟨Eff.uuid [], draws i⟩)
      (.ret ("call_" ++ draws n)) := by
  induction fuel generalizing k with
  | zero =>
    -- there are more draws than used identities
    have hnodup : ((List.range k).map fun i => "call_" ++ draws i).Nodup :=
      List.nodup_range.map fun i j h => hdraws (String.append_right_inj _ |>.1 h)
    have hsubset : ((List.range k).map fun i => "call_" ++ draws i) ⊆ used := by
      intro id hid
      obtain ⟨i, hi, rfl⟩ := List.mem_map.1 hid
      exact hused i (List.mem_range.1 hi)
    have hlength := (List.subperm_of_subset hnodup hsubset).length_le
    rw [List.length_map, List.length_range] at hlength
    omega
  | succ fuel ih =>
    by_cases hk : "call_" ++ draws k ∈ used
    · obtain ⟨n, hn, hnew, hrun⟩ := ih (k + 1) (by omega) fun i hi => by
        rcases Nat.lt_succ_iff_lt_or_eq.1 hi with hlt | rfl
        · exact hused i hlt
        · exact hk
      refine ⟨n, by omega, hnew, ?_⟩
      have hrange : List.range' k (n + 1 - k) = k :: List.range' (k + 1) (n + 1 - (k + 1)) := by
        rw [show n + 1 - k = (n + 1 - (k + 1)) + 1 by omega, List.range'_succ]
      rw [hrange, List.map_cons]
      refine .cons ?_
      rw [if_pos (List.contains_iff_mem.2 hk)]
      exact hrun
    · refine ⟨k, Nat.le_refl k, hk, ?_⟩
      rw [show k + 1 - k = 1 by omega]
      refine .cons ?_
      rw [if_neg fun h => hk (List.contains_iff_mem.1 h)]
      exact .nil _

theorem freshCallId_returns (used : List String) {draws : Nat → String}
    (hdraws : draws.Injective) : ∃ n, "call_" ++ draws n ∉ used ∧
      (freshCallId used (used.length + 1)).Runs
        ((List.range' 0 (n + 1)).map fun i => ⟨Eff.uuid [], draws i⟩) (.ret ("call_" ++ draws n)) := by
  obtain ⟨n, -, hnew, hrun⟩ :=
    freshCallId_from used hdraws (used.length + 1) 0 (by omega) fun i hi => absurd hi (Nat.not_lt_zero i)
  exact ⟨n, hnew, hrun⟩

/-- A run asks for at most its allowance of decisions, with less than the configured number of them in
a row that execute no call, and returns only with an outcome; an identity is found for every call. -/
theorem run_ends_decided {e : Engine}
    (haccepted : Config.validateConfig e.host e.config = .ok ()) :
    (∀ (emit : Emit) (max : Option Int) (s : Session), Callback emit →
      I64.inRange s.stepCount = true →
        Proc.Sat (e.pacing (e.WithinLimits max s)) (e.run emit max) {} s
          (fun _ s' _ => s'.status ≠ .active) fun _ _ _ => True) ∧
    ∀ (used : List String) (draws : Nat → String), draws.Injective →
      ∃ n, "call_" ++ draws n ∉ used ∧ (freshCallId used (used.length + 1)).Runs
        ((List.range' 0 (n + 1)).map fun i => ⟨Eff.uuid [], draws i⟩) (.ret ("call_" ++ draws n)) :=
  ⟨fun _ _ _ hemit hs => run_within_limits haccepted hemit hs,
    fun used _ hdraws => freshCallId_returns used hdraws⟩

theorem repr_injective : Function.Injective Nat.repr := by
  intro m n h
  have hdigits := congrArg (fun text : String => Decimal.digits text.toList) h
  simp only [Nat.toList_repr, Decimal.digits_toDigits] at hdigits
  exact hdigits

theorem run_ends_decided_small :
    Proc.Sat (smallLimits.pacing (smallLimits.WithinLimits none Storage.sampleSession))
        (smallLimits.run (Server.emitRun .null) none) {} Storage.sampleSession
        (fun _ s' _ => s'.status ≠ .active) (fun _ _ _ => True) ∧
      ∃ n, "call_" ++ Nat.repr n ∉ ["call_0"] ∧ (freshCallId ["call_0"] 2).Runs
        ((List.range' 0 (n + 1)).map fun i => ⟨Eff.uuid [], Nat.repr i⟩)
        (.ret ("call_" ++ Nat.repr n)) :=
  have h := run_ends_decided accepts_smallLimits
  ⟨h.1 (Server.emitRun .null) none Storage.sampleSession ⟨.null, .inl rfl⟩ (by decide),
    h.2 ["call_0"] Nat.repr repr_injective⟩

end Engine

end StateDrivenAgent
