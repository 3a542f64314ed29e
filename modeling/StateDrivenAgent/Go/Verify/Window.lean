import Mathlib.Logic.Function.Basic
import Mathlib.Order.Monotone.Defs
import StateDrivenAgent.Go.Verify.Books

/-!
# The recipient's window

An adapter that honours the key does so for a time. `call` looks at the window when it admits an
execution, and then dispatches in a loop: no dispatch is late as long as no window ends between this
look, or a dispatch, and the dispatch after it. The observer reads a clock at every effect; an attempt
starts when the adapter is invoked.
-/

namespace StateDrivenAgent

open Interaction

namespace Go

/-! ## The observer -/

/-- The time at which each effect is performed, in nanoseconds, and what a timestamp stands for. -/
structure Clock where
  time : Nat → Nat
  mono : Monotone time
  instant : String → Nat

/-- A dispatch through an adapter that honours the key. -/
structure Start where
  call : String
  tool : String
  time : Nat

/-- The dispatches, latest first, and what is committed of each call. -/
structure Timeline where
  reads : Nat := 0
  current : String := ""
  /-- The last time that the window was looked at, or that an attempt started. -/
  gate : Nat := 0
  /-- The window was over, and nothing has been put in the outbox since. -/
  lapsed : Bool := false
  /-- There was a dispatch after that, or the execution was not blocked. -/
  ignored : Bool := false
  starts : List Start := []
  records : String → Option ExecutionRecord := fun _ => none

/-- How long the recipient remembers a key, in seconds. -/
def Engine.retention (e : Engine) (tool : String) : Option F64 :=
  (e.registry.capability tool).bind Capability.retentionSeconds

/-- The window that began at `start` is open. -/
def Engine.Within (e : Engine) (tool : String) (start now : Nat) : Prop :=
  ∀ limit, e.retention tool = some limit → (now : Rat) < start + limit.toRat * 10 ^ 9

/-- The call's execution is blocked. -/
def Session.blockedCall (s : Session) (id : String) : Bool :=
  s.executions.any fun x => x.callId = id && x.status = .blocked

/-- The records of a commit. -/
def post (records : String → Option ExecutionRecord) :
    List ExecutionRecord → String → Option ExecutionRecord
  | [] => records
  | r :: rs => post (Function.update records r.callId (some r)) rs

namespace Timeline

variable (c : Clock) (e : Engine)

/-- The time now. -/
def now (g : Timeline) : Nat := c.time g.reads

/-- The start of an execution is past, and the dispatches of the call came after it. -/
structure Dates (g : Timeline) (id : String) (startedAt : Option String) : Prop where
  past : ∀ at', startedAt = some at' → c.instant at' ≤ g.now c
  begun : ∀ p ∈ g.starts, p.call = id → ∃ at', startedAt = some at' ∧ c.instant at' ≤ p.time

def next (g : Timeline) : (a : Ask) → Answer a → Timeline
  | .commit s _, .ok _ => { g with
      reads := g.reads + 1, records := post g.records s.executionPending }
  | .mark (.stage s id), _ => { g with
      reads := g.reads + 1, current := id, lapsed := false
      ignored := g.ignored || g.lapsed && !s.blockedCall id }
  | .mark .request, _ => { g with reads := g.reads + 1, lapsed := false }
  | .elapsed .., expired => { g with
      reads := g.reads + 1, lapsed := expired, gate := if expired then g.gate else g.now c }
  | .idempotent tool .., _ => { g with
      reads := g.reads + 1, gate := g.now c, ignored := g.ignored || g.lapsed
      starts := ⟨g.current, tool, g.now c⟩ :: g.starts }
  | _, _ => { g with reads := g.reads + 1 }

/-- A timestamp is the time in microseconds; rounding apart, `time.Since` is exact, and it never
rounds below the limit. In a careful run no window ends between a look at it, or a dispatch, and the
dispatch after it. -/
def may (careful : Bool) (g : Timeline) : (a : Ask) → Answer a → Prop
  | .now, stamp => c.instant stamp ≤ g.now c ∧ g.now c < c.instant stamp + 1000
  | .elapsed since limit, expired =>
    expired = false → (g.now c : Rat) < c.instant since + limit.toRat * 10 ^ 9
  | .freshCallId used, id => id ≠ "" ∧ id ∉ used
  | .idempotent tool .., _ => careful = true → ∀ p ∈ g.starts, p.call = g.current →
      e.Within tool p.time g.gate → e.Within tool p.time (g.now c)
  | _, _ => True

/-- The windows were open at the gate; the start that a dispatch belongs to is committed; where a
window is over, the execution gets blocked. -/
def must (g : Timeline) : Ask → Prop
  | .commit s _ => ∀ r ∈ s.executionPending, g.Dates c r.callId r.startedAt
  | .mark (.stage s id) => g.lapsed = true → s.blockedCall id = true
  | .idempotent tool .. => g.lapsed = false ∧
      (∃ r, g.records g.current = some r ∧ r.startedAt.isSome = true) ∧
      ∀ p ∈ g.starts, p.call = g.current → e.Within tool p.time g.gate
  | _ => True

/-- No attempt started after the window of an earlier one of the same action, and an action whose
window was found over was blocked instead. -/
structure InWindow (g : Timeline) : Prop where
  starts : g.starts.Pairwise fun q p => q.call = p.call → e.Within q.tool p.time q.time
  heeded : g.ignored = false

end Timeline

/-- The observer of the dispatches. -/
def window (c : Clock) (e : Engine) (careful : Bool) : Monitor Ask Answer Timeline where
  may := Timeline.may c e careful
  must := Timeline.must c e
  next := Timeline.next c

/-! ## What is committed -/

section Records

variable {records : String → Option ExecutionRecord} {rs : List ExecutionRecord} {id : String}

theorem post_some {r : ExecutionRecord} (h : post records rs id = some r) :
    records id = some r ∨ r ∈ rs ∧ r.callId = id := by
  induction rs generalizing records with
  | nil => exact .inl h
  | cons x rs ih =>
    rcases ih h with h | ⟨hr, hid⟩
    · by_cases hx : id = x.callId
      · rw [hx, Function.update_self] at h
        rw [hx]
        exact .inr ⟨Option.some.inj h ▸ List.mem_cons_self, congrArg _ (Option.some.inj h).symm⟩
      · rw [Function.update_of_ne hx] at h
        exact .inl h
    · exact .inr ⟨List.mem_cons_of_mem x hr, hid⟩

theorem post_isSome (h : (records id).isSome = true) : (post records rs id).isSome = true := by
  induction rs generalizing records with
  | nil => exact h
  | cons x rs ih =>
    refine ih ?_
    by_cases hx : id = x.callId
    · rw [hx, Function.update_self]
      rfl
    · rwa [Function.update_of_ne hx]

end Records

namespace Timeline

variable {c : Clock} {e : Engine} {g : Timeline} {id tool : String} {startedAt : Option String}

theorem now_le (c : Clock) (g : Timeline) : g.now c ≤ c.time (g.reads + 1) := c.mono (Nat.le_succ _)

/-- Time passes. -/
theorem Dates.later {g' : Timeline} (h : g.Dates c id startedAt) (hs : g'.starts = g.starts)
    (hr : g.now c ≤ g'.now c) : g'.Dates c id startedAt where
  past at' hat := (h.past at' hat).trans hr
  begun p hp := h.begun p (hs ▸ hp)

/-- The call is dispatched; its start is past. -/
theorem Dates.dispatch {g' : Timeline} {tool : String} (h : g.Dates c id startedAt)
    (hs : g'.starts = ⟨g.current, tool, g.now c⟩ :: g.starts) (hr : g.now c ≤ g'.now c)
    (hc : id = g.current → startedAt.isSome = true) : g'.Dates c id startedAt where
  past at' hat := (h.past at' hat).trans hr
  begun p hp hid := by
    rw [hs] at hp
    rcases List.mem_cons.1 hp with rfl | hp
    · obtain ⟨at', hat⟩ := Option.isSome_iff_exists.1 (hc hid.symm)
      exact ⟨at', hat, h.past at' hat⟩
    · exact h.begun p hp hid

/-- What holds of the observer between the runs. -/
structure Sound (c : Clock) (e : Engine) (g : Timeline) : Prop where
  committed : ∀ id r, g.records id = some r → g.Dates c id r.startedAt
  kept : ∀ p ∈ g.starts, (g.records p.call).isSome = true
  window : g.InWindow e

theorem Sound.later {g' : Timeline} (h : Sound c e g) (hs : g'.starts = g.starts)
    (hr : g.now c ≤ g'.now c) (hrecords : g'.records = g.records)
    (hi : g'.ignored = g.ignored) : Sound c e g' where
  committed id r hid := (h.committed id r (hrecords ▸ hid)).later hs hr
  kept p hp := hrecords ▸ h.kept p (hs ▸ hp)
  window := ⟨hs ▸ h.window.starts, hi ▸ h.window.heeded⟩

theorem Sound.commit {rs : List ExecutionRecord} (h : Sound c e g)
    (hrs : ∀ r ∈ rs, g.Dates c r.callId r.startedAt) :
    Sound c e { g with reads := g.reads + 1, records := post g.records rs } where
  committed id r hid := by
    have hdates : g.Dates c id r.startedAt := by
      rcases post_some hid with hid | ⟨hr, rfl⟩
      · exact h.committed id r hid
      · exact hrs r hr
    exact hdates.later rfl (now_le c g)
  kept p hp := post_isSome (h.kept p hp)
  window := ⟨h.window.starts, h.window.heeded⟩

theorem Sound.dispatch (h : Sound c e g) (hlapsed : g.lapsed = false)
    (hstarted : ∃ r, g.records g.current = some r ∧ r.startedAt.isSome = true)
    (hwithin : ∀ p ∈ g.starts, p.call = g.current → e.Within tool p.time (g.now c)) :
    Sound c e { g with
      reads := g.reads + 1, gate := g.now c, ignored := g.ignored || g.lapsed
      starts := ⟨g.current, tool, g.now c⟩ :: g.starts } where
  committed id r hid := by
    refine (h.committed id r hid).dispatch rfl (now_le c g) fun hcurrent => ?_
    obtain ⟨x, hx, hstarted⟩ := hstarted
    rw [hcurrent, hx] at hid
    exact Option.some.inj hid ▸ hstarted
  kept p hp := by
    rcases List.mem_cons.1 hp with rfl | hp
    · obtain ⟨x, hx, -⟩ := hstarted
      exact Option.isSome_iff_exists.2 ⟨x, hx⟩
    · exact h.kept p hp
  window := by
    refine ⟨List.pairwise_cons.2 ⟨fun p hp hcall => hwithin p hp hcall.symm, h.window.starts⟩, ?_⟩
    show (g.ignored || g.lapsed) = false
    rw [h.window.heeded, hlapsed]
    rfl

theorem sound_stable : (window c e true).Stable (Sound c e) := by
  intro g a r h hmust hmay
  cases a with
  | commit s event =>
    cases r with
    | error err => exact h.later rfl (now_le c g) rfl rfl
    | ok revision => exact h.commit hmust
  | mark m =>
    cases m with
    | stage s id =>
      refine h.later rfl (now_le c g) rfl ?_
      show (g.ignored || g.lapsed && !s.blockedCall id) = g.ignored
      cases hl : g.lapsed with
      | false => rw [Bool.false_and, Bool.or_false]
      | true => rw [show s.blockedCall id = true from hmust hl, Bool.not_true, Bool.and_false,
          Bool.or_false]
    | _ => exact h.later rfl (now_le c g) rfl rfl
  | elapsed since limit => exact h.later rfl (now_le c g) rfl rfl
  | idempotent tool args key =>
    obtain ⟨hlapsed, hstarted, hgate⟩ := hmust
    exact h.dispatch hlapsed hstarted fun p hp hcall => hmay rfl p hp hcall (hgate p hp hcall)
  | _ => exact h.later rfl (now_le c g) rfl rfl

/-! ## Between the calls -/

/-- What holds while a run is at work on the session. -/
structure Timely (c : Clock) (e : Engine) (g : Timeline) (s : Session) : Prop
    extends Sound c e g where
  staged : s.Staged
  unique : (s.executions.map ToolExecution.callId).Nodup
  executions : ∀ x ∈ s.executions, g.Dates c x.callId x.startedAt
  outbox : ∀ r ∈ s.executionPending, g.Dates c r.callId r.startedAt
  loaded : ∀ p ∈ g.starts, ∃ x ∈ s.executions, x.callId = p.call

/-- The call `id` is performed on the execution `i`. -/
structure Handles (c : Clock) (e : Engine) (id : String) (i : Nat) (g : Timeline) (s : Session) : Prop
    extends Timely c e g s where
  bound : i < s.executions.length
  call : (s.execution i).callId = id

variable {s s' : Session} {i : Nat}

theorem Timely.later {g' : Timeline} (h : Timely c e g s) (hs : g'.starts = g.starts)
    (hr : g.now c ≤ g'.now c) (hrecords : g'.records = g.records) (hi : g'.ignored = g.ignored) :
    Timely c e g' s where
  toSound := h.toSound.later hs hr hrecords hi
  staged := h.staged
  unique := h.unique
  executions x hx := (h.executions x hx).later hs hr
  outbox r hr' := (h.outbox r hr').later hs hr
  loaded p hp := h.loaded p (hs ▸ hp)

theorem Timely.quiet (h : Timely c e g s) (hq : Quiet s s') : Timely c e g s' where
  toSound := h.toSound
  staged := hq.staged h.staged
  unique := hq.executions ▸ h.unique
  executions := hq.executions ▸ h.executions
  outbox := hq.outbox ▸ h.outbox
  loaded := hq.executions ▸ h.loaded

/-- A change that leaves calls and starts. -/
theorem Timely.change {f : ToolExecution → ToolExecution} (h : Timely c e g s)
    (hcall : ∀ x, (f x).callId = x.callId)
    (hf : s.executions[i]? = some (s.execution i) →
      g.Dates c (s.execution i).callId (f (s.execution i)).startedAt) :
    Timely c e g (s.setExecution i f) where
  toSound := h.toSound
  staged := h.staged
  unique := by
    rw [Session.setExecution, map_modify hcall]
    exact h.unique
  executions x hx := by
    rcases mem_modify hx with hx | ⟨y, hy, hi, rfl⟩
    · exact h.executions x hx
    · obtain rfl := execution_of_getElem? hi
      rw [hcall]
      exact hf hi
  outbox := h.outbox
  loaded p hp := by
    obtain ⟨x, hx, hid⟩ := h.loaded p hp
    have hmem : x.callId ∈ (s.executions.modify i f).map ToolExecution.callId := by
      rw [map_modify hcall]
      exact List.mem_map_of_mem hx
    obtain ⟨y, hy, hyx⟩ := List.mem_map.1 hmem
    exact ⟨y, hy, hyx.trans hid⟩

theorem execution_mem (h : i < s.executions.length) : s.execution i ∈ s.executions := by
  rw [Session.execution, List.getD_eq_getElem _ _ h]
  exact List.getElem_mem h

theorem Handles.dates (h : Handles c e id i g s) : g.Dates c id (s.execution i).startedAt :=
  h.call ▸ h.executions _ (execution_mem h.bound)

theorem Handles.change {f : ToolExecution → ToolExecution} (h : Handles c e id i g s)
    (hcall : ∀ x, (f x).callId = x.callId)
    (hf : g.Dates c id (f (s.execution i)).startedAt) : Handles c e id i g (s.setExecution i f) where
  toTimely := h.toTimely.change hcall fun _ => h.call ▸ hf
  bound := by
    rw [Session.setExecution, List.length_modify]
    exact h.bound
  call := by
    rw [execution_setExecution h.bound, hcall]
    exact h.call

theorem Handles.staging (h : Handles c e id i g s) : Handles c e id i g (s.staging i) where
  toSound := h.toSound
  staged := h.staged
  unique := h.unique
  executions := h.executions
  outbox r hr := by
    rw [List.mem_singleton.1 hr]
    exact h.executions _ (execution_mem h.bound)
  loaded := h.loaded
  bound := h.bound
  call := h.call

/-- Time passes, and nothing else. -/
theorem next_plain {a : Ask} (ha : a.plain = true) (r : Answer a) :
    (window c e true).next g a r = { g with reads := g.reads + 1 } := by
  cases a with
  | commit | transact | mark | elapsed | idempotent => cases ha
  | _ => rfl

theorem must_plain {a : Ask} (ha : a.plain = true) : (window c e true).must g a := by
  cases a with
  | commit | transact | mark | elapsed | idempotent => cases ha
  | _ => exact trivial

variable (c e)

/-- Between the calls: no window was found over. -/
structure Calm (g : Timeline) (s : Session) : Prop extends Timely c e g s where
  calm : g.lapsed = false

/-- During a call. The windows of the tool were open at the gate, if it is given; the execution has
its start, if it is begun. -/
structure Calling (id : String) (i : Nat) (tool : Option String) (begun : Prop) (g : Timeline)
    (s : Session) : Prop extends Handles c e id i g s where
  calm : g.lapsed = false
  gate : ∀ name, tool = some name → ∀ p ∈ g.starts, p.call = id → e.Within name p.time g.gate
  start : begun → (s.execution i).startedAt.isSome = true

variable {c e} {tool : Option String} {begun : Prop}

theorem Timely.tick (h : Timely c e g s) : Timely c e { g with reads := g.reads + 1 } s :=
  h.later rfl (now_le c g) rfl rfl

theorem Handles.later {g' : Timeline} (h : Handles c e id i g s) (hs : g'.starts = g.starts)
    (hr : g.now c ≤ g'.now c) (hrecords : g'.records = g.records) (hi : g'.ignored = g.ignored) :
    Handles c e id i g' s :=
  ⟨h.toTimely.later hs hr hrecords hi, h.bound, h.call⟩

theorem execution_congr (h : s'.executions = s.executions) : s'.execution i = s.execution i := by
  rw [Session.execution, h, Session.execution]

theorem Handles.quiet (h : Handles c e id i g s) (hq : Quiet s s') : Handles c e id i g s' where
  toTimely := h.toTimely.quiet hq
  bound := hq.executions ▸ h.bound
  call := execution_congr (i := i) hq.executions ▸ h.call

theorem Calling.tick (h : Calling c e id i tool begun g s) :
    Calling c e id i tool begun { g with reads := g.reads + 1 } s :=
  ⟨h.toHandles.later rfl (now_le c g) rfl rfl, h.calm, h.gate, h.start⟩

theorem Calling.closed (h : Calling c e id i tool begun g s) : Calm c e g s := ⟨h.toTimely, h.calm⟩

theorem calm_stands : Stands (window c e true) (Calm c e) where
  staged h := h.staged
  plain a ha h := ⟨must_plain ha, fun r _ => by
    rw [next_plain ha]
    exact ⟨h.tick, h.calm⟩⟩
  quiet hq h := ⟨h.toTimely.quiet hq, h.calm⟩
  entry x _ h := ⟨⟨h.toSound, h.staged, h.unique, h.executions, h.outbox, h.loaded⟩, h.calm⟩

theorem calling_stands (id : String) (i : Nat) (tool : Option String) (begun : Prop) :
    Stands (window c e true) (Calling c e id i tool begun) where
  staged h := h.staged
  plain a ha h := ⟨must_plain ha, fun r _ => by
    rw [next_plain ha]
    exact h.tick⟩
  quiet hq h := ⟨h.toHandles.quiet hq, h.calm, h.gate,
    execution_congr (i := i) hq.executions ▸ h.start⟩
  entry x _ h := ⟨⟨⟨h.toSound, h.staged, h.unique, h.executions, h.outbox, h.loaded⟩, h.bound, h.call⟩,
    h.calm, h.gate, h.start⟩

/-- The execution is put in the outbox; it is blocked, if its window was found over. -/
theorem Handles.stage (h : Handles c e id i g s) (hl : g.lapsed = true → s.blockedCall id = true) :
    (window c e true).must g (.mark (.stage s (s.execution i).callId)) ∧
      Handles c e id i ((window c e true).next g (.mark (.stage s (s.execution i).callId)) ⟨⟩)
        (s.staging i) := by
  have hignored : (g.ignored || g.lapsed && !s.blockedCall (s.execution i).callId) = g.ignored := by
    rw [h.call]
    cases hlapsed : g.lapsed with
    | false => rw [Bool.false_and, Bool.or_false]
    | true => rw [hl hlapsed, Bool.not_true, Bool.and_false, Bool.or_false]
  exact ⟨fun hlapsed => h.call ▸ hl hlapsed, h.staging.later rfl (now_le c g) rfl hignored⟩

theorem Calling.stage (h : Calling c e id i tool begun g s) :
    (window c e true).must g (.mark (.stage s (s.execution i).callId)) ∧
      Calling c e id i tool begun
        ((window c e true).next g (.mark (.stage s (s.execution i).callId)) ⟨⟩) (s.staging i) := by
  obtain ⟨hmust, hnext⟩ := h.toHandles.stage fun hlapsed =>
    absurd (h.calm.symm.trans hlapsed) Bool.false_ne_true
  exact ⟨hmust, hnext, rfl, h.gate, h.start⟩

theorem Calling.change {f : ToolExecution → ToolExecution} (h : Calling c e id i tool begun g s)
    (hcall : ∀ x, (f x).callId = x.callId) (hstart : ∀ x, (f x).startedAt = x.startedAt) :
    Calling c e id i tool begun g (s.setExecution i f) where
  toHandles := h.toHandles.change hcall ((hstart (s.execution i)).symm ▸ h.dates)
  calm := h.calm
  gate := h.gate
  start hbegun := by
    rw [execution_setExecution h.bound, hstart]
    exact h.start hbegun

theorem calling_bears (id : String) (i : Nat) (tool : Option String) (begun : Prop) :
    Bears (window c e true) (Calling c e id i tool begun) (fun _ _ _ => True) i where
  toStands := calling_stands id i tool begun
  change hf h := h.change hf.call hf.started
  rows rows h := ⟨⟨⟨h.toSound, h.staged, h.unique, h.executions, h.outbox, h.loaded⟩, h.bound, h.call⟩,
    h.calm, h.gate, h.start⟩
  stage h := ⟨h.stage.1, fun _ _ => h.stage.2⟩
  settle {g s} result finished h := by
    have hr : Calling c e id i tool begun g (s.resolved i result finished) :=
      h.change (fun _ => rfl) fun _ => rfl
    exact ⟨hr.stage.1, fun _ _ => ⟨hr.stage.2, trivial⟩⟩
  due _ := {
    staged := fun h => h.1.staged
    plain := fun a ha h => ⟨must_plain ha, fun r hr =>
      ⟨((calling_stands id i tool begun).plain a ha h.1).2 r hr, trivial⟩⟩
    quiet := fun hq h => ⟨(calling_stands id i tool begun).quiet hq h.1, trivial⟩
    entry := fun x hx h => ⟨(calling_stands id i tool begun).entry x hx h.1, trivial⟩ }
  terminal _ _ := trivial

/-- The execution of a call that has none. -/
theorem Timely.created {x : ToolExecution} (h : Timely c e g s)
    (hnone : s.executions.findIdx? (fun x => x.callId = id) = none) (hid : x.callId = id)
    (hstart : x.startedAt = none) :
    Handles c e id s.executions.length g { s with executions := s.executions ++ [x] } := by
  have hfresh : ∀ y ∈ s.executions, y.callId ≠ id := fun y hy =>
    of_decide_eq_false (List.findIdx?_eq_none_iff.1 hnone y hy)
  refine ⟨⟨h.toSound, h.staged, ?_, fun y hy => ?_, h.outbox, fun p hp => ?_⟩, ?_, ?_⟩
  · rw [List.map_append, List.nodup_append]
    refine ⟨h.unique, by simp, fun a ha b hb heq => ?_⟩
    obtain ⟨y, hy, rfl⟩ := List.mem_map.1 ha
    exact hfresh y hy (heq.trans ((List.mem_singleton.1 hb).trans hid))
  · rcases List.mem_append.1 hy with hy | hy
    · exact h.executions y hy
    · obtain rfl := List.mem_singleton.1 hy
      refine ⟨fun time ht => ?_, fun p hp hcall => ?_⟩
      · rw [hstart] at ht
        cases ht
      · obtain ⟨z, hz, hzp⟩ := h.loaded p hp
        exact absurd (hzp.trans (hcall.trans hid)) (hfresh z hz)
  · obtain ⟨y, hy, hyp⟩ := h.loaded p hp
    exact ⟨y, List.mem_append_left _ hy, hyp⟩
  · simp
  · simp [Session.execution, List.getD_eq_getElem?_getD, hid]

theorem calm_opens (id : String) : Opens (window c e true) id (Calm c e) (Calm c e)
    (fun i => Calling c e id i none False) fun _ _ _ => True where
  calm := calm_stands
  bears i := calling_bears id i none False
  found {g s i} h hi := by
    obtain ⟨hbound, hid, -⟩ := List.findIdx?_eq_some_iff_getElem.1 hi
    refine ⟨⟨h.toTimely, hbound, ?_⟩, h.calm, fun _ h => (by cases h), False.elim⟩
    rw [Session.execution, List.getD_eq_getElem _ _ hbound]
    exact of_decide_eq_true hid
  created h hnone hid _ hstart :=
    ⟨h.toTimely.created hnone hid hstart, h.calm, fun _ h => (by cases h), False.elim⟩
  closed h := h.closed
  kept h := h

/-! ## Commits -/

theorem Timely.commit (h : Timely c e g s) (revision : Int) (reload : Bool) :
    Timely c e { g with reads := g.reads + 1, records := post g.records s.executionPending }
      (s.committed revision reload) where
  toSound := h.toSound.commit h.outbox
  staged := h.staged
  unique := h.unique
  executions x hx := (h.executions x hx).later rfl (now_le c g)
  outbox _ hr := absurd hr List.not_mem_nil
  loaded := h.loaded

theorem Calling.commit (h : Calling c e id i tool begun g s) (revision : Int) (reload : Bool) :
    Calling c e id i tool begun
      { g with reads := g.reads + 1, records := post g.records s.executionPending }
      (s.committed revision reload) :=
  ⟨⟨h.toTimely.commit revision reload, h.bound, h.call⟩, h.calm, h.gate, h.start⟩

theorem commitEmit_calm (event : Value) :
    Proc.Keeps (window c e true) (Calm c e) (commitEmit event) := by
  refine fun g s h => Proc.sat_state_bind.2 (Proc.sat_bind.2 ((Proc.sat_request _).2
    ⟨h.outbox, fun r _ => ?_⟩))
  cases r with
  | error err => exact ⟨h.tick, h.calm⟩
  | ok revision => exact ⟨h.toTimely.commit revision false, h.calm⟩

theorem commitEmit_calling (event : Value) :
    Proc.Keeps (window c e true) (Calling c e id i tool begun) (commitEmit event) := by
  refine fun g s h => Proc.sat_state_bind.2 (Proc.sat_bind.2 ((Proc.sat_request _).2
    ⟨h.outbox, fun r _ => ?_⟩))
  cases r with
  | error err => exact h.tick
  | ok revision => exact h.commit revision false

/-! ## Dispatches -/

/-- The start of the attempt is committed. -/
structure Committed (c : Clock) (e : Engine) (id : String) (i : Nat) (tool : Option String)
    (g : Timeline) (s : Session) : Prop extends Calling c e id i tool True g s where
  outboxed : s.executionPending = []
  current : g.current = id
  recorded : g.records id = some (executionRecord (s.execution i))

theorem Calling.begin {started : String} (h : Calling c e id i tool begun g s)
    (hs : c.instant started ≤ g.now c) :
    Calling c e id i tool True g (s.setExecution i (ToolExecution.begun started)) where
  toHandles := by
    refine h.toHandles.change (fun _ => rfl) ⟨fun time ht => ?_, fun p hp hcall => ?_⟩
    · obtain rfl := Option.some.inj ht
      cases hx : (s.execution i).startedAt with
      | none => exact hs
      | some time => exact h.dates.past time hx
    · obtain ⟨time, ht, hle⟩ := h.dates.begun p hp hcall
      refine ⟨time, ?_, hle⟩
      show some ((s.execution i).startedAt.getD started) = some time
      rw [ht]
      rfl
  calm := h.calm
  gate := h.gate
  start _ := by
    rw [execution_setExecution h.bound]
    rfl

/-- The commit of the outbox with the execution alone. -/
theorem Calling.post (h : Calling c e id i tool True g s) (hc : g.current = id)
    (hs : s.executionPending = [executionRecord (s.execution i)]) (revision : Int) :
    Committed c e id i tool
      { g with reads := g.reads + 1, records := post g.records s.executionPending }
      (s.committed revision false) where
  toCalling := h.commit revision false
  outboxed := rfl
  current := hc
  recorded := by
    show Go.post g.records s.executionPending id = _
    rw [hs]
    show Function.update g.records (s.execution i).callId _ id = _
    rw [h.call, Function.update_self]
    rfl

theorem Committed.record (h : Committed c e id i tool g s) :
    ∃ r, g.records g.current = some r ∧ r.startedAt.isSome = true :=
  ⟨_, h.current.symm ▸ h.recorded, h.start trivial⟩

variable {name : String} (hpos : ∀ tool limit, e.retention tool = some limit → 0 < limit.toRat)

include hpos

/-- A dispatch, while no window ends on the way. -/
theorem Committed.dispatch (h : Committed c e id i (some name) g s)
    (hw : ∀ p ∈ g.starts, p.call = g.current → e.Within name p.time (g.now c)) :
    Calling c e id i (some name) True { g with
      reads := g.reads + 1, gate := g.now c, ignored := g.ignored || g.lapsed
      starts := ⟨g.current, name, g.now c⟩ :: g.starts } s where
  toSound := h.toSound.dispatch h.calm h.record hw
  staged := h.staged
  unique := h.unique
  executions x hx := by
    refine (h.executions x hx).dispatch rfl (now_le c g) fun hcurrent => ?_
    have hcall : x.callId = (s.execution i).callId := hcurrent.trans (h.current.trans h.call.symm)
    obtain rfl := List.inj_on_of_nodup_map h.unique hx (execution_mem h.bound) hcall
    exact h.start trivial
  outbox r hr := by
    rw [h.outboxed] at hr
    cases hr
  loaded p hp := by
    rcases List.mem_cons.1 hp with rfl | hp
    · exact ⟨_, execution_mem h.bound, h.call.trans h.current.symm⟩
    · exact h.loaded p hp
  bound := h.bound
  call := h.call
  calm := h.calm
  gate tool ht p hp hcall := by
    obtain rfl := Option.some.inj ht
    rcases List.mem_cons.1 hp with rfl | hp
    · intro limit hlimit
      have := hpos _ limit hlimit
      show (g.now c : Rat) < g.now c + limit.toRat * 10 ^ 9
      linarith
    · exact hw p hp (hcall.trans h.current.symm)
  start := h.start

/-- The tool whose window `call` looks at. -/
def checked (mode name : String) : Option String := if mode = "idempotent" then some name else none

theorem invoke_sat {mode : String} {args : Arguments} {key : String}
    (h : Committed c e id i (checked mode name) g s) :
    Proc.Sat (window c e true) (Engine.invoke mode name args key) g s
      (fun g' s' _ => Calling c e id i (checked mode name) True g' s') fun _ _ _ => False := by
  unfold Engine.invoke
  by_cases hmode : mode = "idempotent"
  · have htool : checked mode name = some name := if_pos hmode
    rw [if_pos hmode]
    rw [htool] at h ⊢
    have hgate : ∀ p ∈ g.starts, p.call = g.current → e.Within name p.time g.gate :=
      fun p hp hcall => h.gate name rfl p hp (hcall.trans h.current)
    exact (Proc.sat_request _).2 ⟨⟨h.calm, h.record, hgate⟩, fun r hr =>
      h.dispatch hpos fun p hp hcall => hr rfl p hp hcall (hgate p hp hcall)⟩
  · rw [if_neg hmode]
    exact (Proc.sat_request _).2 ⟨trivial, fun _ _ => h.toCalling.tick⟩

theorem dispatch_sat {mode : String} {args : Arguments} (maxAttempts : Int) (left : Nat)
    (h : Calling c e id i (checked mode name) begun g s) :
    Proc.Sat (window c e true) (Engine.dispatch commitEmit i name args mode maxAttempts left) g s
      (fun g' s' _ => Calm c e g' s') fun g' s' _ => Calm c e g' s' := by
  have hends : ∀ {begun : Prop} {f : GoM (String × Bool)},
      Proc.Yields (window c e true) (Calling c e id i (checked mode name) begun)
        (Due fun _ _ _ => True) f →
      ∀ {g s}, Calling c e id i (checked mode name) begun g s →
      Proc.Sat (window c e true) f g s (fun g' s' _ => Calm c e g' s') fun g' s' _ => Calm c e g' s' :=
    fun hf _ _ h => (hf _ _ h).mono (fun _ _ _ h => h.1.closed) fun _ _ _ h => h.closed
  induction left generalizing begun g s with
  | zero => exact hends (markUncertain_yields (calling_bears id i _ _) _) h
  | succ left ih =>
    have hI := calling_bears (c := c) (e := e) id i (checked mode name) True
    refine Proc.sat_bind.2 ((Proc.sat_request _).2 ⟨trivial, fun started hstarted => ?_⟩)
    have hbegun := h.tick.begin (hstarted.1.trans (now_le c g))
    refine Proc.sat_update_bind.2 (Proc.sat_bind.2 ((stageActionAttempt_keeps hI _ _ _ _ _
      hbegun).mono (fun g s _ h => ?_) fun _ _ _ h => h.closed))
    obtain ⟨hmust, hstaged⟩ := h.stage
    refine Proc.sat_bind.2 (Proc.sat_state_bind.2 (Proc.sat_bind.2 ((Proc.sat_request _).2
      ⟨hmust, fun _ _ => ?_⟩)))
    refine Proc.sat_state_bind.2 (Proc.sat_bind.2 (Proc.sat_attempt.2 (Proc.sat_state_bind.2
      (Proc.sat_bind.2 ((Proc.sat_request _).2 ⟨hstaged.outbox, fun r _ => ?_⟩)))))
    cases r with
    | error err => exact hends (markUncertain_yields hI _) hstaged.tick
    | ok revision =>
      refine Proc.sat_bind.2 ((invoke_sat hpos (hstaged.post h.call rfl revision)).mono
        (fun g s outcome h => ?_) fun _ _ _ => False.elim)
      cases outcome with
      | ok result => exact hends (finish_yields hI _) h
      | error err =>
        refine Proc.sat_bind.2 ((stageActionAttempt_keeps hI _ _ _ _ _ h).mono (fun g s _ h => ?_)
          fun _ _ _ h => h.closed)
        cases err with
        | transient m =>
          dsimp only
          split
          · exact hends (markUncertain_yields hI _) h
          · split
            · exact ih h
            · exact hends (finish_yields hI _) h
        | other m =>
          dsimp only
          split
          · exact hends (markUncertain_yields hI _) h
          · exact hends (finish_yields hI _) h

/-! ## Admission -/

omit hpos

/-- The window was found over: the execution is blocked. -/
theorem markBlocked_sat (h : Handles c e id i g s) (reason : String) :
    Proc.Sat (window c e true) (markBlocked i reason) g s (fun g' s' _ => Calm c e g' s')
      fun g' s' _ => Calm c e g' s' := by
  have hblocked : Handles c e id i g (s.setExecution i fun x => { x with status := .blocked }) :=
    h.change (fun _ => rfl) h.dates
  have hfound : (s.setExecution i fun x => { x with status := .blocked }).blockedCall id = true := by
    refine List.any_eq_true.2 ⟨_, execution_mem hblocked.bound, ?_⟩
    rw [hblocked.call, execution_setExecution h.bound, decide_eq_true rfl, decide_eq_true rfl]
    rfl
  obtain ⟨hmust, hstaged⟩ := hblocked.stage fun _ => hfound
  refine Proc.sat_update_bind.2 (Proc.sat_bind.2 (Proc.sat_state_bind.2 (Proc.sat_bind.2
    ((Proc.sat_request _).2 ⟨hmust, fun _ _ => ?_⟩))))
  have hcalm : Calm c e _ _ := ⟨hstaged.toTimely, rfl⟩
  refine Proc.keeps_bind Proc.keeps_state (fun _ => Proc.keeps_bind (calm_stands.archive (by decide) _)
    fun _ => Proc.keeps_bind (calm_stands.change ?_) fun _ => Proc.keeps_pure _) _ _ hcalm
  exact fun _ => .same rfl rfl

/-- The window was looked at. -/
theorem Calling.look {since : String} {limit : F64} (h : Calling c e id i none False g s)
    (hlimit : e.retention name = some limit) (hsince : (s.execution i).startedAt = some since)
    (hopen : (g.now c : Rat) < c.instant since + limit.toRat * 10 ^ 9) :
    Calling c e id i (some name) False { g with
      reads := g.reads + 1, lapsed := false, gate := g.now c } s where
  toHandles := h.toHandles.later rfl (now_le c g) rfl rfl
  calm := rfl
  gate tool ht p hp hcall limit' hlimit' := by
    obtain rfl := Option.some.inj ht
    obtain rfl := Option.some.inj (hlimit.symm.trans hlimit')
    obtain ⟨time, htime, hle⟩ := h.dates.begun p hp hcall
    obtain rfl := Option.some.inj (hsince.symm.trans htime)
    have hle' : (c.instant since : Rat) ≤ p.time := by exact_mod_cast hle
    show (g.now c : Rat) < _
    linarith
  start := False.elim

/-- Without a finite window, or before the first attempt, there is nothing to look at. -/
theorem Calling.unlimited (h : Calling c e id i none False g s)
    (hw : ∀ limit since, e.retention name = some limit →
      (s.execution i).startedAt = some since → False) :
    Calling c e id i (some name) False g s where
  toHandles := h.toHandles
  calm := h.calm
  gate tool ht p hp hcall limit hlimit := by
    obtain rfl := Option.some.inj ht
    obtain ⟨since, hsince, -⟩ := h.dates.begun p hp hcall
    exact (hw limit since hlimit hsince).elim
  start := False.elim

/-- The outcome of an admission. -/
def Admitted (c : Clock) (e : Engine) (id : String) (i : Nat) (tool : Option String) (g : Timeline)
    (s : Session) : Except (String × Bool) Unit → Prop
  | .ok () => Calling c e id i tool False g s
  | .error _ => Calm c e g s

theorem admitIdempotent_sat (h : Calling c e id i none False g s) (name : String) :
    Proc.Sat (window c e true) (e.admitIdempotent i name) g s (Admitted c e id i (some name))
      fun g' s' _ => Calm c e g' s' := by
  have hsettled : ∀ {g s} {f : GoM (String × Bool)},
      Proc.Sat (window c e true) f g s (fun g' s' _ => Calm c e g' s') (fun g' s' _ => Calm c e g' s') →
      Proc.Sat (window c e true) (do return .error (← f)) g s (Admitted c e id i (some name))
        fun g' s' _ => Calm c e g' s' :=
    fun hf => Proc.sat_bind.2 (hf.mono_post fun _ _ _ h => h)
  have hgo : ∀ {g s}, Calling c e id i (some name) False g s →
      Proc.Sat (window c e true) (if !e.registry.idempotent name then
        (do return .error (← markUncertain i "Idempotent adapter is not registered.") :
          GoM (Except (String × Bool) Unit)) else pure (.ok ())) g s (Admitted c e id i (some name))
        fun g' s' _ => Calm c e g' s' := by
    intro g s h
    split
    · exact hsettled ((markUncertain_yields (calling_bears id i _ _) _ g s h).mono
        (fun _ _ _ h => h.1.closed) fun _ _ _ h => h.closed)
    · exact h
  unfold Engine.admitIdempotent
  split
  · exact hsettled (markBlocked_sat h.toHandles _)
  next capability hcapability =>
    have hretention : e.retention name = capability.retentionSeconds := by
      rw [Engine.retention, hcapability, Option.bind_some]
    refine Proc.sat_state_bind.2 (Proc.sat_bind.2 ?_)
    unfold Engine.retentionExpired
    split
    next limit since hlimit hsince =>
      refine (Proc.sat_request _).2 ⟨trivial, fun expired hopen => ?_⟩
      cases expired with
      | true =>
        have hlapsed : Handles c e id i { g with reads := g.reads + 1, lapsed := true } s :=
          h.toHandles.later rfl (now_le c g) rfl rfl
        exact hsettled (markBlocked_sat hlapsed _)
      | false => exact hgo (h.look (hretention.trans hlimit) hsince (hopen rfl))
    next hnone =>
      refine hgo (h.unlimited fun limit since hlimit hsince => ?_)
      exact hnone limit since (hretention.symm.trans hlimit) hsince

theorem dispatches_calm (hpos : ∀ tool limit, e.retention tool = some limit → 0 < limit.toRat)
    (id name : String) (args : Arguments) :
    Dispatches (window c e true) e commitEmit name args (Calm c e)
      (fun i => Calling c e id i none False)
      (fun i => Calling c e id i (checked (e.policyOf name).mode name) False) fun _ _ _ => True where
  allow {i g s} h := by
    split
    next hmode =>
      refine (admitIdempotent_sat h name).mono_post fun g s r hr => ?_
      cases r with
      | error settled => exact ⟨hr, fun _ => trivial⟩
      | ok u =>
        show Calling c e id i (checked _ name) False g s
        rw [checked, if_pos hmode]
        exact hr
    next hmode =>
      show Calling c e id i (checked _ name) False g s
      rw [checked, if_neg hmode]
      exact h
  dispatch maxAttempts left h := (dispatch_sat hpos maxAttempts left h).mono_post
    fun _ _ _ h => ⟨h, fun _ => trivial⟩

/-! ## Runs -/

variable (c e)

/-- A session as it is fetched: nothing waits, and its executions are what is committed. -/
structure Fetched (g : Timeline) (s : Session) : Prop where
  staged : s.Staged
  outbox : s.executionPending = []
  unique : (s.executions.map ToolExecution.callId).Nodup
  ledger : ∀ x ∈ s.executions, g.records x.callId = some (executionRecord x)
  complete : ∀ id r, g.records id = some r → ∃ x ∈ s.executions, x.callId = id

/-- A run of the engine on such a session. -/
def Engaged (g : Timeline) (p : Program Ask Answer (Except Failure Unit × Session)) : Prop :=
  ∃ (max : Int) (s : Session), Fetched g s ∧ p = (do GoM.mark .request; e.run commitEmit max : GoM Unit) s

variable {c e}

theorem Fetched.timely (hs : Fetched g s) (hg : Sound c e g) : Timely c e g s where
  toSound := hg
  staged := hs.staged
  unique := hs.unique
  executions x hx := hg.committed _ _ (hs.ledger x hx)
  outbox r hr := by
    rw [hs.outbox] at hr
    cases hr
  loaded p hp := by
    obtain ⟨r, hr⟩ := Option.isSome_iff_exists.1 (hg.kept p hp)
    exact hs.complete _ r hr

theorem calm_settles (hpos : ∀ tool limit, e.retention tool = some limit → 0 < limit.toRat) :
    e.Settles (window c e true) (Calm c e) commitEmit where
  call id name args _ _ h := (call_sat (calm_opens id) e (fun _ => commitEmit_calling)
    (dispatches_calm hpos id name (args.getD [])) h).mono_post fun _ _ _ h => h.1
  executed _ _ := Proc.keeps_request fun _ _ h => ⟨trivial, fun _ _ => ⟨h.tick, h.calm⟩⟩
  pending _ h := ⟨⟨h.toSound, h.staged, h.unique, h.executions, h.outbox, h.loaded⟩, h.calm⟩

theorem window_fresh (careful : Bool) : FreshCallIds (window c e careful) := fun _ _ _ h => h

theorem engaged_sat (hpos : ∀ tool limit, e.retention tool = some limit → 0 < limit.toRat)
    {p : Program Ask Answer (Except Failure Unit × Session)} (hg : Sound c e g)
    (hp : Engaged e g p) : p.Sat (window c e true) g fun _ _ => True := by
  obtain ⟨max, s, hs, rfl⟩ := hp
  have hcalm : Calm c e { g with reads := g.reads + 1, lapsed := false } s :=
    ⟨(hs.timely hg).later rfl (now_le c g) rfl rfl, rfl⟩
  have hsat : Proc.Sat (window c e true) (do GoM.mark .request; e.run commitEmit max : GoM Unit) g s
      (fun _ _ _ => True) fun _ _ _ => True :=
    Proc.sat_bind.2 ((Proc.sat_request _).2 ⟨trivial, fun _ _ =>
      (run_keeps calm_stands commitEmit_calm e (calm_settles hpos) (fun _ h =>
        ⟨⟨h.toSound, h.staged, h.unique, h.executions, h.outbox, h.loaded⟩, h.calm⟩)
        (window_fresh true) max _ s hcalm).mono (fun _ _ _ _ => trivial) fun _ _ _ _ => trivial⟩)
  exact Program.Sat.mono hsat fun _ _ _ => trivial

theorem sound_start : Sound c e {} where
  committed _ _ h := by cases h
  kept _ hp := absurd hp List.not_mem_nil
  window := ⟨List.Pairwise.nil, rfl⟩

/-- What was late stays late. -/
theorem InWindow.before {careful : Bool} {a : Ask} {r : Answer a}
    (h : ((window c e careful).next g a r).InWindow e) : g.InWindow e := by
  cases a with
  | mark m =>
    cases m with
    | stage s id => exact ⟨h.starts, (Bool.or_eq_false_iff.1 h.heeded).1⟩
    | _ => exact ⟨h.starts, h.heeded⟩
  | commit s event =>
    cases r with
    | error err => exact ⟨h.starts, h.heeded⟩
    | ok revision => exact ⟨h.starts, h.heeded⟩
  | idempotent tool args key =>
    exact ⟨(List.pairwise_cons.1 h.starts).2, (Bool.or_eq_false_iff.1 h.heeded).1⟩
  | _ => exact ⟨h.starts, h.heeded⟩

theorem InWindow.careful {a : Ask} {r : Answer a} (h : ((window c e false).next g a r).InWindow e)
    (ha : (window c e false).may g a r) : (window c e true).may g a r := by
  cases a with
  | idempotent tool args key => exact fun _ p hp hcall _ =>
      (List.pairwise_cons.1 h.starts).1 p hp hcall.symm
  | _ => exact ha

theorem may_false {a : Ask} {r : Answer a} (h : (window c e true).may g a r) :
    (window c e false).may g a r := by
  cases a with
  | idempotent tool args key => exact fun h => absurd h Bool.false_ne_true
  | _ => exact h

theorem after_careful (g : Timeline) (es : List (Event Ask Answer)) :
    (window c e true).after g es = (window c e false).after g es := by
  induction es generalizing g with
  | nil => rfl
  | cons x es ih => exact ih _

theorem allowed_false {es : List (Event Ask Answer)} (h : (window c e true).Allowed g es) :
    (window c e false).Allowed g es := by
  induction es generalizing g with
  | nil => trivial
  | cons x es ih => exact ⟨may_false h.1, ih h.2⟩

theorem InWindow.allowed {es : List (Event Ask Answer)}
    (h : ((window c e false).after g es).InWindow e) (ha : (window c e false).Allowed g es) :
    g.InWindow e ∧ (window c e true).Allowed g es := by
  induction es generalizing g with
  | nil => exact ⟨h, trivial⟩
  | cons x es ih =>
    obtain ⟨hnext, hallowed⟩ := ih h ha.2
    exact ⟨hnext.before, hnext.careful ha.1, hallowed⟩

section Sample

instance decidableWithin (e : Engine) (tool : String) (start now : Nat) :
    Decidable (e.Within tool start now) :=
  match h : e.retention tool with
  | none => isTrue fun limit hlimit => by
    rw [h] at hlimit
    cases hlimit
  | some limit => decidable_of_iff ((now : Rat) < start + limit.toRat * 10 ^ 9)
    ⟨fun hw limit' hlimit => Option.some.inj (h.symm.trans hlimit) ▸ hw, fun hw => hw limit h⟩

instance decidableMay (c : Clock) (e : Engine) (careful : Bool) (g : Timeline) :
    (a : Ask) → (r : Answer a) → Decidable ((window c e careful).may g a r)
  | .now, stamp =>
    inferInstanceAs (Decidable (c.instant stamp ≤ g.now c ∧ g.now c < c.instant stamp + 1000))
  | .elapsed since limit, expired => inferInstanceAs (Decidable (expired = false →
      (g.now c : Rat) < c.instant since + limit.toRat * 10 ^ 9))
  | .freshCallId used, id => inferInstanceAs (Decidable (id ≠ "" ∧ id ∉ used))
  | .idempotent tool .., _ => inferInstanceAs (Decidable (careful = true → ∀ p ∈ g.starts,
      p.call = g.current → e.Within tool p.time g.gate → e.Within tool p.time (g.now c)))
  | .uuid, _ | .checkpoint _, _ | .requestDiagnostics, _ | .chat _, _ | .compact _, _ | .invoke .., _
  | .verify .., _ | .reconcile .., _ | .commit .., _ | .transact .., _ | .contextDone, _
  | .mark _, _ => isTrue trivial

/-- A tool that may be tried twice; its recipient remembers a key for a second. -/
def retryEngine : Engine := { toolEngine with
  config := { tools := [{
    name := "tool", parameters := .obj [], recovery := some { mode := "idempotent", maxAttempts := 2 } }] }
  registry := { toolEngine.registry with
    capability := fun _ => some { target := "tool://tool", retentionSeconds := some (.ofInt 1) }
    idempotent := fun _ => true } }

def retryReply : Spelling :=
  .obj [("choices", .arr [.obj [("message", .obj [("content", .null),
    ("tool_calls", .arr [toolSpelling "a"])])]])]

/-- The first dispatch is the 30th effect, and fails. -/
def retryAnswer (n : Nat) : (a : Ask) → Answer a
  | .now => if n ≤ 30 then "early" else "late"
  | .chat _ => .ok (some retryReply)
  | .idempotent .. => .error (.transient "busy")
  | a => toolAnswer (fun _ => .ok 1) n a

/-- The first dispatch takes `delay`, and all else no time. -/
def retryClock (delay : Nat) : Clock where
  time n := if n ≤ 30 then 0 else delay
  mono m n h := by
    dsimp only
    split
    · exact Nat.zero_le _
    next hm => rw [if_neg fun hn => hm (h.trans hn)]
  instant stamp := if stamp = "late" then delay else 0

def retryProgram : Program Ask Answer (Except Failure Unit × Session) :=
  (do GoM.mark .request; retryEngine.run commitEmit 1 : GoM Unit) { id := "session", goal := "goal" }

theorem retryProgram_engaged : Engaged retryEngine {} retryProgram :=
  ⟨1, { id := "session", goal := "goal" }, ⟨fun _ hm => absurd hm List.not_mem_nil, rfl,
    List.nodup_nil, fun _ hx => absurd hx List.not_mem_nil, fun _ _ h => by cases h⟩, rfl⟩

/-- Up to the second dispatch. -/
def retryRun : List (Event Ask Answer) × Program Ask Answer (Except Failure Unit × Session) :=
  Program.play retryAnswer 42 retryProgram 0

theorem retryEngine_retention (tool : String) : retryEngine.retention tool = some (.ofInt 1) := rfl

theorem retryEngine_positive (tool : String) (limit : F64)
    (h : retryEngine.retention tool = some limit) : 0 < limit.toRat := by
  rw [← Option.some.inj ((retryEngine_retention tool).symm.trans h)]
  decide +kernel

end Sample

end Timeline

end Go

end StateDrivenAgent
