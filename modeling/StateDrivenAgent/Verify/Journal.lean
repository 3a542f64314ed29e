import StateDrivenAgent.Verify.Store

/-!
# The diagnostics journal

Three pieces of code keep the journal: the recorder numbers records and trims the caches, the commit
stores and prunes the rows, and the loader fills the caches again. `Kept` below is the invariant they
share: with `done` the payloads committed in a family and `fresh` those recorded since, the stored
rows are a suffix of `done` under their numbers, the staged ones follow, and the cache is the end of
both.
-/

namespace StateDrivenAgent

open Diagnostics
open Storage hiding families

/-! ## Numbered records -/

/-- The payloads as records of `family`, numbered from `first`. -/
def numberFrom (family : String) (first : Int) : List Value → List DiagnosticRecord
  | [] => []
  | p :: ps => ⟨family, first, p⟩ :: numberFrom family (first + 1) ps

@[simp] theorem numberFrom_length (family : String) (first : Int) (ps : List Value) :
    (numberFrom family first ps).length = ps.length := by
  induction ps generalizing first with
  | nil => rfl
  | cons p ps ih => simp [numberFrom, ih]

@[simp] theorem numberFrom_payload (family : String) (first : Int) (ps : List Value) :
    (numberFrom family first ps).map DiagnosticRecord.payload = ps := by
  induction ps generalizing first with
  | nil => rfl
  | cons p ps ih => simp [numberFrom, ih]

theorem numberFrom_append (family : String) (first : Int) (ps qs : List Value) :
    numberFrom family first (ps ++ qs) =
      numberFrom family first ps ++ numberFrom family (first + ps.length) qs := by
  induction ps generalizing first with
  | nil => simp [numberFrom]
  | cons p ps ih =>
    have hfirst : first + 1 + (ps.length : Int) = first + ((p :: ps).length : Nat) := by
      simp only [List.length_cons]
      omega
    rw [List.cons_append, numberFrom, numberFrom, ih, hfirst, List.cons_append]

theorem numberFrom_drop (family : String) (first : Int) (ps : List Value) (k : Nat) :
    (numberFrom family first ps).drop k = numberFrom family (first + k) (ps.drop k) := by
  induction k generalizing first ps with
  | zero => simp
  | succ k ih =>
    cases ps with
    | nil => simp [numberFrom]
    | cons p ps =>
      have hfirst : first + 1 + (k : Int) = first + ((k + 1 : Nat) : Int) := by omega
      rw [numberFrom, List.drop_succ_cons, ih, hfirst, List.drop_succ_cons]

theorem mem_numberFrom {family : String} {first : Int} {ps : List Value} {r : DiagnosticRecord}
    (h : r ∈ numberFrom family first ps) :
    r.family = family ∧ first ≤ r.ordinal ∧ r.ordinal < first + ps.length := by
  induction ps generalizing first with
  | nil => cases h
  | cons p ps ih =>
    rcases List.mem_cons.mp h with rfl | h
    · refine ⟨rfl, Int.le_refl _, ?_⟩
      simp only [List.length_cons]
      omega
    · obtain ⟨hf, hl, hu⟩ := ih h
      refine ⟨hf, by omega, ?_⟩
      simp only [List.length_cons]
      omega

theorem numberFrom_increasing (family : String) (first : Int) (ps : List Value) :
    (numberFrom family first ps).Pairwise fun a b => a.ordinal ≤ b.ordinal := by
  induction ps generalizing first with
  | nil => exact List.Pairwise.nil
  | cons p ps ih =>
    refine List.pairwise_cons.mpr ⟨fun r hr => ?_, ih _⟩
    have hle := (mem_numberFrom hr).2.1
    show first ≤ r.ordinal
    omega

theorem consecutive_numberFrom (family : String) (first : Int) (ps : List Value) :
    consecutive first (numberFrom family first ps) = true := by
  induction ps generalizing first with
  | nil => rfl
  | cons p ps ih => simp [numberFrom, consecutive, ih]

/-- Dropping the numbers up to a bound drops a prefix. -/
theorem numberFrom_filter (family : String) (first bound : Int) (ps : List Value) :
    (numberFrom family first ps).filter (fun r => bound < r.ordinal) =
      numberFrom family (first + (bound + 1 - first).toNat)
        (ps.drop (bound + 1 - first).toNat) := by
  induction ps generalizing first with
  | nil => simp [numberFrom]
  | cons p ps ih =>
    rw [numberFrom, List.filter_cons, ih]
    by_cases hb : bound < first
    · have h0 : (bound + 1 - first).toNat = 0 := by omega
      have h1 : (bound + 1 - (first + 1)).toNat = 0 := by omega
      rw [if_pos (by simpa using hb), h0, h1]
      simp [numberFrom]
    · have hk : (bound + 1 - first).toNat = (bound + 1 - (first + 1)).toNat + 1 := by omega
      have hfirst : first + 1 + ((bound + 1 - (first + 1)).toNat : Int) =
          first + (((bound + 1 - (first + 1)).toNat + 1 : Nat) : Int) := by omega
      rw [if_neg (by simpa using hb), hk, List.drop_succ_cons, hfirst]

/-! ## Trimmed caches -/

theorem trim_eq_of_length_le {α : Type} {items : List α} (h : items.length ≤ recent) :
    trim items = items := by
  have h0 : items.length - recent = 0 := by omega
  rw [trim, h0, List.drop_zero]

theorem trim_length {α : Type} (items : List α) :
    (trim items).length = min items.length recent := by
  rw [trim, List.length_drop]
  omega

theorem trim_map {α β : Type} (f : α → β) (items : List α) : trim (items.map f) = (trim items).map f := by
  rw [trim, trim, List.length_map, List.map_drop]

/-- Trimming before an append changes nothing. -/
theorem trim_trim_append {α : Type} (items : List α) (a : α) :
    trim (trim items ++ [a]) = trim (items ++ [a]) := by
  by_cases hle : items.length ≤ recent
  · rw [trim_eq_of_length_le hle]
  · have hr : recent = 32 := rfl
    have hsplit : trim items ++ [a] = (items ++ [a]).drop (items.length - recent) := by
      rw [List.drop_append_of_le_length (by omega)]
      rfl
    rw [hsplit, trim, trim, List.drop_drop]
    congr 1
    simp only [List.length_drop, List.length_append, List.length_singleton]
    omega

/-! ## What a session keeps of the journal -/

/-- The cache of a family. -/
def cacheOf (s : Session) (family : String) : List Value :=
  if family = "compaction_events" then s.compactionEvents.map .str
  else if family = "compaction_attempts" then s.compactionAttempts
  else s.compactionDecisions

@[simp] theorem cacheOf_events (s : Session) :
    cacheOf s "compaction_events" = s.compactionEvents.map .str := if_pos rfl

@[simp] theorem cacheOf_attempts (s : Session) :
    cacheOf s "compaction_attempts" = s.compactionAttempts := by
  rw [cacheOf, if_neg (by decide), if_pos rfl]

@[simp] theorem cacheOf_decisions (s : Session) :
    cacheOf s "compaction_decisions" = s.compactionDecisions := by
  rw [cacheOf, if_neg (by decide), if_neg (by decide)]

/-- The journal with one more record. -/
def extend (log : String → List Value) (family : String) (payload : Value) : String → List Value :=
  Function.update log family (log family ++ [payload])

theorem extend_self (log : String → List Value) (family : String) (payload : Value) :
    extend log family payload family = log family ++ [payload] := by
  simp [extend]

theorem extend_of_ne {log : String → List Value} {family family' : String} (payload : Value)
    (h : family' ≠ family) : extend log family payload family' = log family' := by
  simp [extend, h]

/-- The counters and the caches of `s` are those of the journal `log`. -/
structure Recorded (log : String → List Value) (s : Session) : Prop where
  known : ∀ c ∈ s.diagnosticCounts, c.1 ∈ families
  count : ∀ f ∈ families, counted s f = (log f).length
  cache : ∀ f ∈ families, cacheOf s f = trim (log f)
  texts : ∀ p ∈ log "compaction_events", ∃ text, p = .str text
  complete : s.diagnosticsComplete = (refreshCompleteness s).diagnosticsComplete
  initial : s.diagnosticCounts = [] → s.diagnosticRejections = 0 ∧ s.compactionSavingsTotal = 0 ∧
    s.compactionSavingsKnown = true

variable {log : String → List Value} {s s' : Session}

theorem mem_families {f : String} : f ∈ families ↔
    f = "compaction_events" ∨ f = "compaction_attempts" ∨ f = "compaction_decisions" := by
  simp [families]

theorem Recorded.empty_of_counts (h : Recorded log s) (hc : s.diagnosticCounts = []) {f : String}
    (hf : f ∈ families) : log f = [] := by
  have hcount := h.count f hf
  rw [counted, hc] at hcount
  exact List.length_eq_zero_iff.mp (Int.ofNat.inj hcount.symm)

/-- A session without counters and without caches has nothing to number. -/
theorem stage_blank (hc : s.diagnosticCounts = []) (hevents : s.compactionEvents = [])
    (hattempts : s.compactionAttempts = []) (hdecisions : s.compactionDecisions = []) :
    stage s = (.ok (), { s with
      compactionEvents := [], compactionAttempts := [], compactionDecisions := []
      diagnosticRejections := 0, compactionSavingsTotal := 0, compactionSavingsKnown := true }) := by
  unfold stage
  rw [hc, hevents, hattempts, hdecisions]
  rfl

theorem stage_recorded (h : Recorded log s) :
    ∃ s', stage s = (.ok (), s') ∧ Recorded log s' ∧
      s'.diagnosticsPending = s.diagnosticsPending := by
  by_cases hc : s.diagnosticCounts = []
  · have hnil {f : String} (hf : f ∈ families) : cacheOf s f = [] := by
      rw [h.cache f hf, h.empty_of_counts hc hf]
      rfl
    have hevents : s.compactionEvents = [] :=
      List.map_eq_nil_iff.mp (cacheOf_events s ▸ hnil (by decide))
    have hattempts : s.compactionAttempts = [] := cacheOf_attempts s ▸ hnil (by decide)
    have hdecisions : s.compactionDecisions = [] := cacheOf_decisions s ▸ hnil (by decide)
    refine ⟨_, stage_blank hc hevents hattempts hdecisions,
      ⟨h.known, h.count, fun f hf => ?_, h.texts, ?_, fun _ => ⟨rfl, rfl, rfl⟩⟩, rfl⟩
    · rw [h.empty_of_counts hc hf]
      rcases mem_families.mp hf with rfl | rfl | rfl
      · rw [cacheOf_events]
        rfl
      · rw [cacheOf_attempts]
        rfl
      · rw [cacheOf_decisions]
        rfl
    · have hcomplete := h.complete
      simp only [refreshCompleteness, hevents, hattempts, hdecisions] at hcomplete
      exact hcomplete
  · have hstage : stage s = (.ok (), s) := by
      unfold stage
      rw [if_pos (by simpa using hc)]
    exact ⟨s, hstage, h, rfl⟩

theorem lookup_insertCount (family : String) (n : Int) (counts : List (String × Int)) (f : String) :
    lookup f (insertCount family n counts) = if f = family then some n else lookup f counts := by
  induction counts with
  | nil =>
    by_cases hf : f = family
    · simp [insertCount, hf]
    · simp [insertCount, hf, Ne.symm hf]
  | cons c counts ih =>
    obtain ⟨k, m⟩ := c
    rw [insertCount]
    split
    · by_cases hf : f = family
      · simp [hf]
      · rw [lookup_cons, if_neg (Ne.symm hf), if_neg hf]
    split
    · next hk =>
      subst hk
      by_cases hf : f = k
      · simp [hf]
      · simp [hf, Ne.symm hf]
    · next hk =>
      rw [lookup_cons, ih, lookup_cons]
      by_cases hf : f = family
      · rw [if_pos hf, if_neg (by rw [hf]; exact hk), if_pos hf]
      · rw [if_neg hf, if_neg hf]

theorem mem_insertCount {family : String} {n : Int} {counts : List (String × Int)} {c : String × Int}
    (h : c ∈ insertCount family n counts) : c.1 = family ∨ c ∈ counts := by
  induction counts with
  | nil =>
    rw [insertCount, List.mem_singleton] at h
    exact .inl (by rw [h])
  | cons d counts ih =>
    obtain ⟨k, m⟩ := d
    rw [insertCount] at h
    split at h
    · rcases List.mem_cons.mp h with rfl | h
      · exact .inl rfl
      · exact .inr h
    split at h
    · next hk =>
      rcases List.mem_cons.mp h with rfl | h
      · exact .inl rfl
      · exact .inr (List.mem_cons_of_mem _ h)
    · rcases List.mem_cons.mp h with rfl | h
      · exact .inr List.mem_cons_self
      · rcases ih h with hc | hc
        · exact .inl hc
        · exact .inr (List.mem_cons_of_mem _ hc)

/-- What `cache` does to the fields of the journal. -/
structure Cached (family : String) (payload : Value) (s s' : Session) : Prop where
  same : s'.diagnosticCounts = s.diagnosticCounts ∧ s'.diagnosticsPending = s.diagnosticsPending
  self : cacheOf s' family = trim (cacheOf s family ++ [payload])
  other : ∀ f ∈ families, f ≠ family → cacheOf s' f = cacheOf s f

/-- The totals are no part of the caches. -/
theorem tally_caches (payload : Value) (s : Session) :
    (tally payload s).diagnosticCounts = s.diagnosticCounts ∧
      (tally payload s).diagnosticsPending = s.diagnosticsPending ∧
      (tally payload s).compactionEvents = s.compactionEvents ∧
      (tally payload s).compactionAttempts = s.compactionAttempts ∧
      (tally payload s).compactionDecisions = s.compactionDecisions := by
  unfold tally
  split
  · exact ⟨rfl, rfl, rfl, rfl, rfl⟩
  split <;> exact ⟨rfl, rfl, rfl, rfl, rfl⟩

theorem cache_cached {family : String} (hf : family ∈ families) {payload : Value} {s s' : Session}
    (h : cache family payload s = .ok s') : Cached family payload s s' := by
  rcases mem_families.mp hf with rfl | rfl | rfl
  · rw [cache, if_pos rfl] at h
    cases hp : payload.asStr with
    | none =>
      rw [hp] at h
      cases h
    | some text =>
      simp only [hp, Except.ok.injEq] at h
      rw [← h]
      refine ⟨⟨rfl, rfl⟩, ?_, fun f hf' hne => ?_⟩
      · rw [Value.asStr_eq_some.mp hp, cacheOf_events, cacheOf_events, ← trim_map, List.map_append]
        rfl
      · rcases mem_families.mp hf' with rfl | rfl | rfl
        · exact absurd rfl hne
        · simp only [cacheOf_attempts]
        · simp only [cacheOf_decisions]
  · rw [cache, if_neg (by decide), if_pos rfl, Except.ok.injEq] at h
    obtain ⟨hcounts, hpending, hevents, hattempts, hdecisions⟩ := tally_caches payload s
    rw [← h]
    refine ⟨⟨hcounts, hpending⟩, ?_, fun f hf' hne => ?_⟩
    · simp only [cacheOf_attempts, hattempts]
    · rcases mem_families.mp hf' with rfl | rfl | rfl
      · simp only [cacheOf_events, hevents]
      · exact absurd rfl hne
      · simp only [cacheOf_decisions, hdecisions]
  · rw [cache, if_neg (by decide), if_neg (by decide), if_pos rfl, Except.ok.injEq] at h
    rw [← h]
    refine ⟨⟨rfl, rfl⟩, ?_, fun f hf' hne => ?_⟩
    · simp only [cacheOf_decisions]
    · rcases mem_families.mp hf' with rfl | rfl | rfl
      · simp only [cacheOf_events]
      · simp only [cacheOf_attempts]
      · exact absurd rfl hne

/-- A record is numbered next, staged and cached, or nothing happens. -/
theorem append_recorded (h : Recorded log s) {family : String} (hf : family ∈ families)
    {payload : Value} (ht : family = "compaction_events" → ∃ text, payload = .str text) :
    (∃ s', append family payload s = (.ok (), s') ∧ Recorded (extend log family payload) s' ∧
      s'.diagnosticsPending =
        s.diagnosticsPending ++ [⟨family, (log family).length + 1, payload⟩]) ∨
    ∃ e, append family payload s = (.error e, s) := by
  by_cases hr : I64.inRange (counted s family + 1) = true
  · cases hc : cache family payload s with
    | error e =>
      refine .inr ⟨e, ?_⟩
      unfold append
      simp only [hr, hc, Bool.not_true, Bool.false_eq_true, if_false]
    | ok s₁ =>
      obtain ⟨⟨hcounts, hpending⟩, hself, hother⟩ := cache_cached hf hc
      refine .inl ⟨refreshCompleteness { s₁ with
        diagnosticCounts := insertCount family (counted s family + 1) s₁.diagnosticCounts
        diagnosticsPending :=
          s₁.diagnosticsPending ++ [⟨family, counted s family + 1, payload⟩] }, ?_, ?_, ?_⟩
      · unfold append
        simp only [hr, hc, Bool.not_true, Bool.false_eq_true, if_false]
      · refine ⟨fun c hmem => ?_, fun f hf' => ?_, fun f hf' => ?_, ?_, rfl, fun hnil => ?_⟩
        · rcases mem_insertCount hmem with hfam | hmem
          · rw [hfam]
            exact hf
          · exact h.known c (hcounts ▸ hmem)
        · show (lookup f (insertCount family (counted s family + 1) s₁.diagnosticCounts)).getD 0 = _
          rw [lookup_insertCount, hcounts]
          by_cases heq : f = family
          · rw [if_pos heq, heq, extend_self, h.count family hf]
            simp
          · rw [if_neg heq, extend_of_ne payload heq]
            exact h.count f hf'
        · by_cases heq : f = family
          · rw [heq, extend_self]
            show cacheOf s₁ family = _
            rw [hself, h.cache family hf, trim_trim_append]
          · rw [extend_of_ne payload heq]
            show cacheOf s₁ f = _
            rw [hother f hf' heq]
            exact h.cache f hf'
        · intro p hp
          by_cases heq : "compaction_events" = family
          · rw [← heq, extend_self] at hp
            rcases List.mem_append.mp hp with hp | hp
            · exact h.texts p hp
            · rw [List.mem_singleton.mp hp]
              exact ht heq.symm
          · rw [extend_of_ne payload heq] at hp
            exact h.texts p hp
        · exact absurd hnil (insertCount_ne_nil _ _ _)
      · show s₁.diagnosticsPending ++ _ = _
        rw [hpending, h.count family hf]
  · refine .inr ⟨"diagnostic ordinal overflow", ?_⟩
    unfold append
    simp only [hr, Bool.not_false, if_true]

/-- The same for `record`. -/
theorem record_recorded (h : Recorded log s) (family : String) (payload : Value) :
    (family ∈ families ∧ ∃ s', record family payload s = (.ok (), s') ∧
      Recorded (extend log family payload) s' ∧ s'.diagnosticsPending =
        s.diagnosticsPending ++ [⟨family, (log family).length + 1, payload⟩]) ∨
    ∃ e s', record family payload s = (.error e, s') ∧ Recorded log s' ∧
      s'.diagnosticsPending = s.diagnosticsPending := by
  by_cases hf : family ∈ families
  · by_cases ht : family = "compaction_events" ∧ payload.asStr.isNone = true
    · refine .inr ⟨"compaction event must contain a summary string", s, ?_, h, rfl⟩
      unfold record
      rw [if_neg (by simpa using hf), if_pos (by simpa using ht)]
    · have hrecord : record family payload s = (stage.andThen (append family payload)) s := by
        unfold record
        rw [if_neg (by simpa using hf), if_neg (by simpa using ht)]
      have htext : family = "compaction_events" → ∃ text, payload = .str text := by
        intro heq
        have hsome : payload.asStr ≠ none := fun hn => ht ⟨heq, by rw [hn]; rfl⟩
        obtain ⟨text, htext⟩ := Option.ne_none_iff_exists'.mp hsome
        exact ⟨text, Value.asStr_eq_some.mp htext⟩
      obtain ⟨s₁, hstage, h₁, hpending⟩ := stage_recorded h
      rw [hrecord, StateOp.andThen, hstage, ← hpending]
      rcases append_recorded h₁ hf htext with ⟨s', happ, hrec, hp⟩ | ⟨e, happ⟩
      · exact .inl ⟨hf, s', happ, hrec, hp⟩
      · exact .inr ⟨e, s₁, happ, h₁, rfl⟩
  · refine .inr ⟨"unknown diagnostic family '" ++ family ++ "'", s, ?_, h, rfl⟩
    unfold record
    rw [if_pos (by simpa using hf)]

/-! ## The stored rows -/

/-- The stored rows are the journal `done`, but for a prefix of each family that was pruned; the last
`recent` records are never pruned. -/
structure Shelved (done : String → List Value) (rows : List DiagnosticRecord) : Prop where
  known : ∀ r ∈ rows, r.family ∈ families
  rows : ∀ f ∈ families, ∃ cut : Nat, (cut = 0 ∨ cut + recent ≤ (done f).length) ∧
    rows.filter (fun r => r.family = f) = numberFrom f (cut + 1) ((done f).drop cut)

variable {done fresh : String → List Value} {rows rows' : List DiagnosticRecord}

theorem Shelved.empty : Shelved (fun _ => []) [] := by
  refine ⟨fun r h => (List.not_mem_nil h).elim, fun f _ => ⟨0, .inl rfl, ?_⟩⟩
  simp [numberFrom]

/-- No stored row has a number beyond the journal. -/
theorem Shelved.ordinal_le (h : Shelved done rows) {r : DiagnosticRecord} (hr : r ∈ rows) :
    r.ordinal ≤ (done r.family).length := by
  obtain ⟨cut, hcut, hrows⟩ := h.rows r.family (h.known r hr)
  have hmem : r ∈ rows.filter fun r' => r'.family = r.family :=
    List.mem_filter.mpr ⟨hr, by simp⟩
  rw [hrows] at hmem
  obtain ⟨-, -, hlt⟩ := mem_numberFrom hmem
  rw [List.length_drop] at hlt
  omega

/-- The next record of a family becomes its last row. -/
theorem writeDiagnostic_shelved {env : Deployment} (h : Shelved done rows) {r : DiagnosticRecord}
    (hf : r.family ∈ families) (hn : r.ordinal = (done r.family).length + 1)
    (hp : jsonb env.toHost r.payload = r.payload) (hw : writeDiagnostic env rows r = .ok rows') :
    Shelved (extend done r.family r.payload) rows' := by
  have hnone : rows.find? (fun r' => r'.family = r.family && r'.ordinal = r.ordinal) = none := by
    rw [List.find?_eq_none]
    intro r' hr' hsame
    simp only [Bool.and_eq_true, decide_eq_true_eq] at hsame
    have hle := h.ordinal_le hr'
    rw [hsame.1] at hle
    omega
  unfold writeDiagnostic at hw
  obtain ⟨_, -, hw⟩ := bind_ok hw
  rw [hnone] at hw
  have hrows' : rows' = rows ++ [r] := by
    have hsame : ({ r with payload := jsonb env.toHost r.payload } : DiagnosticRecord) = r := by
      rw [hp]
    rw [← Except.ok.inj hw, hsame]
  rw [hrows']
  refine ⟨fun r' hr' => ?_, fun f hf' => ?_⟩
  · rcases List.mem_append.mp hr' with hr' | hr'
    · exact h.known r' hr'
    · rw [List.mem_singleton.mp hr']
      exact hf
  · obtain ⟨cut, hcut, hrows⟩ := h.rows f hf'
    by_cases heq : f = r.family
    · subst heq
      refine ⟨cut, ?_, ?_⟩
      · rw [extend_self, List.length_append]
        omega
      · have hle : cut ≤ (done r.family).length := by omega
        have hnum : (cut : Int) + 1 + ((done r.family).drop cut).length = r.ordinal := by
          rw [List.length_drop]
          omega
        rw [List.filter_append, hrows, extend_self, List.drop_append_of_le_length hle,
          numberFrom_append, hnum]
        simp [numberFrom]
    · refine ⟨cut, ?_, ?_⟩
      · rw [extend_of_ne _ heq]
        exact hcut
      · rw [List.filter_append, hrows, extend_of_ne _ heq,
          List.filter_cons, if_neg (by simpa using Ne.symm heq)]
        simp

/-- The staged records of each family are numbered after the journal. -/
structure Staged (done fresh : String → List Value) (pending : List DiagnosticRecord) : Prop where
  known : ∀ r ∈ pending, r.family ∈ families
  rows : ∀ f ∈ families, pending.filter (fun r => r.family = f) =
    numberFrom f ((done f).length + 1) (fresh f)

/-- Storing all staged records. -/
theorem writeAll_shelved {env : Deployment} {pending : List DiagnosticRecord}
    (h : Shelved done rows) (hs : Staged done fresh pending)
    (hp : ∀ f ∈ families, ∀ p ∈ fresh f, jsonb env.toHost p = p)
    (hw : pending.foldlM (writeDiagnostic env) rows = .ok rows') :
    Shelved (fun f => done f ++ fresh f) rows' := by
  induction pending generalizing rows done fresh with
  | nil =>
    have hsame : rows = rows' := Except.ok.inj hw
    subst hsame
    have hnil : ∀ f ∈ families, fresh f = [] := by
      intro f hf
      have hlength := congrArg List.length (hs.rows f hf)
      rw [numberFrom_length] at hlength
      exact List.length_eq_zero_iff.mp hlength.symm
    refine ⟨h.known, fun f hf => ?_⟩
    rw [hnil f hf, List.append_nil]
    exact h.rows f hf
  | cons r pending ih =>
    obtain ⟨mid, hmid, hw⟩ := bind_ok hw
    have hf : r.family ∈ families := hs.known r List.mem_cons_self
    have hown := hs.rows r.family hf
    rw [List.filter_cons, if_pos (by simp)] at hown
    -- the first staged record is the next one of its family
    cases hfresh : fresh r.family with
    | nil =>
      rw [hfresh] at hown
      cases hown
    | cons p ps =>
      rw [hfresh, numberFrom] at hown
      obtain ⟨hr, hrest⟩ := List.cons.inj hown
      have hpayload : r.payload = p := by rw [hr]
      have hordinal : r.ordinal = (done r.family).length + 1 := by
        have := congrArg DiagnosticRecord.ordinal hr
        exact this
      have hstable : jsonb env.toHost r.payload = r.payload := by
        rw [hpayload]
        exact hp _ hf p (by rw [hfresh]; exact List.mem_cons_self)
      have hshelved := writeDiagnostic_shelved h hf hordinal hstable hmid
      have hstaged : Staged (extend done r.family r.payload) (Function.update fresh r.family ps)
          pending := by
        refine ⟨fun r' hr' => hs.known r' (List.mem_cons_of_mem _ hr'), fun f hf' => ?_⟩
        by_cases heq : f = r.family
        · subst heq
          rw [hrest, extend_self, Function.update_self, List.length_append]
          congr 1
        · have hother := hs.rows f hf'
          rw [List.filter_cons, if_neg (by simpa using Ne.symm heq)] at hother
          rw [hother, extend_of_ne _ heq, Function.update_of_ne heq]
      have hall := ih hshelved hstaged (fun f hf' q hq => ?_) hw
      · have hsame : (fun f => extend done r.family r.payload f ++
            Function.update fresh r.family ps f) = fun f => done f ++ fresh f := by
          funext f
          by_cases heq : f = r.family
          · subst heq
            rw [extend_self, Function.update_self, hfresh, hpayload, List.append_assoc]
            rfl
          · rw [extend_of_ne _ heq, Function.update_of_ne heq]
        rw [hsame] at hall
        exact hall
      · by_cases heq : f = r.family
        · subst heq
          rw [Function.update_self] at hq
          exact hp _ hf' q (by rw [hfresh]; exact List.mem_cons_of_mem _ hq)
        · rw [Function.update_of_ne heq] at hq
          exact hp f hf' q hq

/-- Pruning what lies more than `recent` records back. -/
theorem Shelved.prune (h : Shelved done rows) (cutoff : String → Int)
    (hc : ∀ f ∈ families, cutoff f + recent ≤ (done f).length) :
    Shelved done (rows.filter fun r => cutoff r.family < r.ordinal) := by
  refine ⟨fun r hr => h.known r (List.mem_filter.mp hr).1, fun f hf => ?_⟩
  obtain ⟨cut, hcut, hrows⟩ := h.rows f hf
  have hcomm : (rows.filter fun r => cutoff r.family < r.ordinal).filter (fun r => r.family = f) =
      (rows.filter fun r => r.family = f).filter fun r => cutoff f < r.ordinal := by
    rw [List.filter_filter, List.filter_filter]
    refine List.filter_congr fun r _ => ?_
    by_cases heq : r.family = f
    · simp [heq]
    · simp [heq]
  refine ⟨cut + (cutoff f + 1 - (cut + 1)).toNat, ?_, ?_⟩
  · have := hc f hf
    omega
  · rw [hcomm, hrows, numberFrom_filter, List.drop_drop]
    congr 1
    omega

/-! ## Reading the journal back -/

theorem filter_recentDiagnostics {f : String} (hf : f ∈ families)
    (hsorted : (rows.filter fun r => r.family = f).Pairwise fun a b => a.ordinal ≤ b.ordinal)
    (legacy : Bool) : (recentDiagnostics rows legacy).filter (fun r => r.family = f) =
      if legacy then rows.filter fun r => r.family = f
      else trim (rows.filter fun r => r.family = f) := by
  let block (g : String) : List DiagnosticRecord :=
    let own := (rows.filter fun r => r.family = g).insertionSort fun a b => a.ordinal ≤ b.ordinal
    if legacy then own else own.drop (own.length - recent)
  have hown : ∀ g, ∀ r ∈ block g, r.family = g := by
    intro g r hr
    have hmem : r ∈ (rows.filter fun r => r.family = g).insertionSort
        fun a b => a.ordinal ≤ b.ordinal := by
      simp only [block] at hr
      split at hr
      · exact hr
      · exact List.mem_of_mem_drop hr
    rw [List.mem_insertionSort, List.mem_filter] at hmem
    exact of_decide_eq_true hmem.2
  have hself : (block f).filter (fun r => r.family = f) = block f :=
    List.filter_eq_self.mpr fun r hr => decide_eq_true (hown f r hr)
  have hother : ∀ g, g ≠ f → (block g).filter (fun r => r.family = f) = [] := by
    intro g hne
    rw [List.filter_eq_nil_iff]
    intro r hr heq
    rw [decide_eq_true_eq, hown g r hr] at heq
    exact hne heq
  have hblock : block f = if legacy then rows.filter fun r => r.family = f
      else trim (rows.filter fun r => r.family = f) := by
    simp only [block, hsorted.insertionSort_eq]
    rfl
  have hall : recentDiagnostics rows legacy = block "compaction_attempts" ++
      (block "compaction_decisions" ++ block "compaction_events") := by
    simp only [recentDiagnostics, List.flatMap_cons, List.flatMap_nil, List.append_nil]
    rfl
  rw [← hblock, hall, List.filter_append, List.filter_append]
  rcases mem_families.mp hf with rfl | rfl | rfl
  · rw [hself, hother _ (by decide), hother _ (by decide)]
    rfl
  · rw [hself, hother _ (by decide), hother _ (by decide), List.append_nil, List.append_nil]
  · rw [hself, hother _ (by decide), hother _ (by decide), List.append_nil]
    rfl

theorem foldl_max_numberFrom (family : String) (m first : Int) (ps : List Value) :
    (numberFrom family first ps).foldl (fun m r => max m r.ordinal) m =
      if ps = [] then m else max m (first + ps.length - 1) := by
  induction ps generalizing m first with
  | nil => rfl
  | cons p ps ih =>
    rw [numberFrom, List.foldl_cons, ih, if_neg (List.cons_ne_nil _ _)]
    split
    · next h =>
      subst h
      simp
    · simp only [List.length_cons]
      omega

/-- The last stored number of a family is the length of its journal. -/
theorem Shelved.maxOrdinal (h : Shelved done rows) {f : String} (hf : f ∈ families) :
    Storage.maxOrdinal rows f = (done f).length := by
  obtain ⟨cut, hcut, hrows⟩ := h.rows f hf
  have hr : recent = 32 := rfl
  rw [Storage.maxOrdinal, hrows, foldl_max_numberFrom]
  split
  · next hnil =>
    have hle := List.drop_eq_nil_iff.mp hnil
    omega
  · rw [List.length_drop]
    omega

/-- The rows `load` reads of a family are the end of its journal. -/
theorem Shelved.rows_recent (h : Shelved done rows) {f : String} (hf : f ∈ families) {legacy : Bool}
    (hl : legacy = true → done f = []) :
    (recentDiagnostics rows legacy).filter (fun r => r.family = f) =
      numberFrom f ((done f).length - (trim (done f)).length + 1) (trim (done f)) := by
  obtain ⟨cut, hcut, hrows⟩ := h.rows f hf
  have hr : recent = 32 := rfl
  have hsorted : (rows.filter fun r => r.family = f).Pairwise fun a b => a.ordinal ≤ b.ordinal := by
    rw [hrows]
    exact numberFrom_increasing _ _ _
  rw [filter_recentDiagnostics hf hsorted, hrows]
  cases legacy with
  | true =>
    have hnil := hl rfl
    simp [hnil, numberFrom, trim]
  | false =>
    have hcount : cut + ((numberFrom f (cut + 1) ((done f).drop cut)).length - recent) =
        (done f).length - recent := by
      rw [numberFrom_length, List.length_drop]
      omega
    rw [if_neg (by decide), trim, numberFrom_drop, List.drop_drop, trim, hcount]
    congr 1
    rw [numberFrom_length, List.length_drop, List.length_drop]
    omega

/-- The counters of the journal are the same. -/
structure SameTotals (s s' : Session) : Prop where
  counts : s'.diagnosticCounts = s.diagnosticCounts
  rejections : s'.diagnosticRejections = s.diagnosticRejections
  savings : s'.compactionSavingsTotal = s.compactionSavingsTotal
  known : s'.compactionSavingsKnown = s.compactionSavingsKnown

theorem SameTotals.refl (s : Session) : SameTotals s s := ⟨rfl, rfl, rfl, rfl⟩

theorem SameTotals.trans {s s' s'' : Session} (h : SameTotals s s') (h' : SameTotals s' s'') :
    SameTotals s s'' :=
  ⟨h'.counts.trans h.counts, h'.rejections.trans h.rejections, h'.savings.trans h.savings,
    h'.known.trans h.known⟩

/-- `ps` went to the end of the cache of one family. -/
structure Pushed (family : String) (ps : List Value) (s s' : Session) : Prop where
  totals : SameTotals s s'
  self : cacheOf s' family = cacheOf s family ++ ps
  other : ∀ f ∈ families, f ≠ family → cacheOf s' f = cacheOf s f

theorem push_pushed {family : String} (hf : family ∈ families) {p : Value} (s : Session)
    (ht : family = "compaction_events" → ∃ text, p = .str text) :
    ∃ s', push family s p = .ok s' ∧ Pushed family [p] s s' := by
  rcases mem_families.mp hf with rfl | rfl | rfl
  · obtain ⟨text, rfl⟩ := ht rfl
    refine ⟨{ s with compactionEvents := s.compactionEvents ++ [text] }, ?_, ⟨rfl, rfl, rfl, rfl⟩,
      ?_, fun f hf' hne => ?_⟩
    · rw [push, if_pos rfl, Value.asStr_str]
    · rw [cacheOf_events, cacheOf_events, List.map_append]
      rfl
    · rcases mem_families.mp hf' with rfl | rfl | rfl
      · exact absurd rfl hne
      · simp only [cacheOf_attempts]
      · simp only [cacheOf_decisions]
  · refine ⟨{ s with compactionAttempts := s.compactionAttempts ++ [p] }, ?_, ⟨rfl, rfl, rfl, rfl⟩,
      ?_, fun f hf' hne => ?_⟩
    · rw [push, if_neg (by decide), if_pos rfl]
    · simp only [cacheOf_attempts]
    · rcases mem_families.mp hf' with rfl | rfl | rfl
      · simp only [cacheOf_events]
      · exact absurd rfl hne
      · simp only [cacheOf_decisions]
  · refine ⟨{ s with compactionDecisions := s.compactionDecisions ++ [p] }, ?_,
      ⟨rfl, rfl, rfl, rfl⟩, ?_, fun f hf' hne => ?_⟩
    · rw [push, if_neg (by decide), if_neg (by decide)]
    · simp only [cacheOf_decisions]
    · rcases mem_families.mp hf' with rfl | rfl | rfl
      · simp only [cacheOf_events]
      · simp only [cacheOf_attempts]
      · exact absurd rfl hne

theorem pushAll_pushed {family : String} (hf : family ∈ families) (ps : List Value) (s : Session)
    (ht : family = "compaction_events" → ∀ p ∈ ps, ∃ text, p = .str text) :
    ∃ s', ps.foldlM (push family) s = .ok s' ∧ Pushed family ps s s' := by
  induction ps generalizing s with
  | nil => exact ⟨s, rfl, .refl s, by simp, fun _ _ _ => rfl⟩
  | cons p ps ih =>
    obtain ⟨s₁, hpush, h₁⟩ := push_pushed hf s fun heq => ht heq p List.mem_cons_self
    obtain ⟨s₂, hall, h₂⟩ := ih s₁ fun heq q hq => ht heq q (List.mem_cons_of_mem _ hq)
    refine ⟨s₂, ?_, h₁.totals.trans h₂.totals, ?_, fun f hf' hne => ?_⟩
    · rw [List.foldlM_cons, hpush]
      exact hall
    · rw [h₂.self, h₁.self, List.append_assoc]
      rfl
    · rw [h₂.other f hf' hne, h₁.other f hf' hne]

/-- What reading back one family needs of the rows and the counters it is given. -/
structure Readable (done : String → List Value) (legacy : Bool) (records : List DiagnosticRecord)
    (totals : List (String × Int)) (f : String) : Prop where
  rows : records.filter (fun r => r.family = f) =
    numberFrom f ((done f).length - (trim (done f)).length + 1) (trim (done f))
  total : lookup f totals = some ((done f).length : Int)
  legacy : legacy = true → done f = []
  texts : f = "compaction_events" → ∀ p ∈ done f, ∃ text, p = .str text

theorem restoreFamily_pushed {legacy : Bool} {records : List DiagnosticRecord}
    {totals : List (String × Int)} {f : String} (hf : f ∈ families)
    (h : Readable done legacy records totals f) (s : Session)
    (hc : counted s f = (done f).length) :
    ∃ s', restoreFamily legacy records totals s f = .ok s' ∧ Pushed f (trim (done f)) s s' := by
  have hr : recent = 32 := rfl
  have hlength : (trim (done f)).length = min (done f).length recent := trim_length _
  have hretained : (if legacy = true then ((done f).length : Int)
      else min ((done f).length : Int) recent) = (trim (done f)).length := by
    cases hl : legacy with
    | true => simp [h.legacy hl, trim]
    | false =>
      rw [if_neg (by decide), hlength]
      omega
  have hall : (trim (done f)).drop ((trim (done f)).length - recent) = trim (done f) := by
    have h0 : (trim (done f)).length - recent = 0 := by omega
    rw [h0, List.drop_zero]
  obtain ⟨s', hpush, hpushed⟩ := pushAll_pushed hf (trim (done f)) s fun heq p hp =>
    h.texts heq p (List.mem_of_mem_drop hp)
  refine ⟨s', ?_, hpushed⟩
  unfold restoreFamily
  simp only [hc, h.total, h.rows, Option.getD_some, hretained, numberFrom_length,
    consecutive_numberFrom, ne_eq, not_true_eq_false, or_false, Bool.not_true, Bool.false_eq_true]
  rw [if_neg (by omega), if_neg not_false, numberFrom_drop, numberFrom_payload, hall]
  exact hpush

/-- A session as the loader decodes it: the counters of the journal, and no caches yet. -/
structure Decoded (done : String → List Value) (s : Session) : Prop where
  known : ∀ c ∈ s.diagnosticCounts, c.1 ∈ families
  count : ∀ f ∈ families, counted s f = (done f).length
  pending : s.diagnosticsPending = []
  events : s.compactionEvents = []
  attempts : s.compactionAttempts = []
  decisions : s.compactionDecisions = []
  initial : s.diagnosticCounts = [] → s.diagnosticRejections = 0 ∧ s.compactionSavingsTotal = 0 ∧
    s.compactionSavingsKnown = true

theorem Decoded.empty_of_counts (h : Decoded done s) (hc : s.diagnosticCounts = []) {f : String}
    (hf : f ∈ families) : done f = [] := by
  have hcount := h.count f hf
  rw [counted, hc] at hcount
  exact List.length_eq_zero_iff.mp (Int.ofNat.inj hcount.symm)

theorem Shelved.eq_nil (h : Shelved done rows) (hd : ∀ f ∈ families, done f = []) : rows = [] := by
  refine List.eq_nil_iff_forall_not_mem.mpr fun r hr => ?_
  obtain ⟨cut, -, hrows⟩ := h.rows r.family (h.known r hr)
  have hmem : r ∈ rows.filter fun r' => r'.family = r.family :=
    List.mem_filter.mpr ⟨hr, by simp⟩
  rw [hrows, hd _ (h.known r hr)] at hmem
  simp [numberFrom] at hmem

theorem numbered_decoded (h : Decoded done s) (hrows : Shelved done rows) :
    ∃ s', numbered (recentDiagnostics rows s.diagnosticCounts.isEmpty) s = .ok s' ∧
      SameTotals s s' := by
  by_cases hc : s.diagnosticCounts = []
  · obtain ⟨hrejections, hsavings, hknown⟩ := h.initial hc
    have hnil : rows = [] := hrows.eq_nil fun f hf => h.empty_of_counts hc hf
    obtain ⟨s', hstage, hpending, hsame⟩ : ∃ s', stage s = (.ok (), s') ∧
        s'.diagnosticsPending = [] ∧ SameTotals s s' :=
      ⟨_, stage_blank hc h.events h.attempts h.decisions, h.pending,
        { counts := rfl, rejections := hrejections.symm, savings := hsavings.symm,
          known := hknown.symm }⟩
    refine ⟨s', ?_, hsame⟩
    unfold numbered
    rw [if_pos (by rw [hc]; rfl), hstage, hc, hnil]
    simp only [hpending]
    rfl
  · refine ⟨s, ?_, .refl s⟩
    unfold numbered
    rw [if_neg (by simpa using hc)]

/-- The loader reads the end of the journal back. -/
theorem hydrated_decoded {t : Tables} (h : Decoded done s) (hrows : Shelved done t.diagnostics)
    (ht : ∀ p ∈ done "compaction_events", ∃ text, p = .str text) :
    ∃ s', hydrated t s = .ok s' ∧ SameTotals s s' ∧
      (∀ f ∈ families, cacheOf s' f = trim (done f)) ∧ s'.diagnosticsPending = [] ∧
      s'.diagnosticsComplete = (refreshCompleteness s').diagnosticsComplete := by
  obtain ⟨s₀, hnumbered, htotals⟩ := numbered_decoded h hrows
  let records := recentDiagnostics t.diagnostics s.diagnosticCounts.isEmpty
  let totals := diagnosticTotals t.diagnostics
  have hread : ∀ f ∈ families,
      Readable done s.diagnosticCounts.isEmpty records totals f := by
    intro f hf
    have hlegacy : s.diagnosticCounts.isEmpty = true → done f = [] :=
      fun he => h.empty_of_counts (List.isEmpty_iff.mp he) hf
    refine ⟨hrows.rows_recent hf hlegacy, ?_, hlegacy, fun heq p hp => ht p (heq ▸ hp)⟩
    have hmax := hrows.maxOrdinal hf
    rcases mem_families.mp hf with rfl | rfl | rfl <;>
      simp [totals, diagnosticTotals, families, hmax]
  let s₁ : Session :=
    { s₀ with compactionEvents := [], compactionAttempts := [], compactionDecisions := [] }
  have hcount : ∀ s' : Session, s'.diagnosticCounts = s₀.diagnosticCounts → ∀ f ∈ families,
      counted s' f = (done f).length := by
    intro s' heq f hf
    rw [counted, heq, htotals.counts]
    exact h.count f hf
  have hblank : ∀ f ∈ families, cacheOf s₁ f = [] := by
    intro f hf
    rcases mem_families.mp hf with rfl | rfl | rfl
    · rw [cacheOf_events]
      rfl
    · rw [cacheOf_attempts]
    · rw [cacheOf_decisions]
  obtain ⟨s₂, h₂, hp₂⟩ := restoreFamily_pushed (f := "compaction_events") (by decide)
    (hread _ (by decide)) s₁ (hcount s₁ rfl _ (by decide))
  obtain ⟨s₃, h₃, hp₃⟩ := restoreFamily_pushed (f := "compaction_attempts") (by decide)
    (hread _ (by decide)) s₂ (hcount s₂ hp₂.totals.counts _ (by decide))
  have hcounts₃ : s₃.diagnosticCounts = s₀.diagnosticCounts :=
    hp₃.totals.counts.trans hp₂.totals.counts
  obtain ⟨s₄, h₄, hp₄⟩ := restoreFamily_pushed (f := "compaction_decisions") (by decide)
    (hread _ (by decide)) s₃ (hcount s₃ hcounts₃ _ (by decide))
  have hsame₁ : SameTotals s₀ s₁ := ⟨rfl, rfl, rfl, rfl⟩
  have hsame : SameTotals s s₄ :=
    (htotals.trans hsame₁).trans ((hp₂.totals.trans hp₃.totals).trans hp₄.totals)
  have hfold : families.foldlM (restoreFamily s.diagnosticCounts.isEmpty records totals) s₁ =
      .ok s₄ := by
    simp only [families, List.foldlM_cons, List.foldlM_nil, bind, Except.bind, h₂, h₃, h₄]
    rfl
  refine ⟨refreshCompleteness { s₄ with diagnosticsPending := [] }, ?_, ?_, fun f hf => ?_, rfl, rfl⟩
  · have hknown : (s₀.diagnosticCounts.any fun c => !families.contains c.1) = false := by
      rw [List.any_eq_false, htotals.counts]
      intro c hc
      simpa using h.known c hc
    unfold hydrated hydrate
    simp only [hnumbered, bind, Except.bind, hknown, Bool.false_eq_true, if_false]
    rw [hfold]
    rfl
  · exact ⟨hsame.counts, hsame.rejections, hsame.savings, hsame.known⟩
  · show cacheOf s₄ f = _
    rcases mem_families.mp hf with rfl | rfl | rfl
    · rw [hp₄.other _ hf (by decide), hp₃.other _ hf (by decide), hp₂.self, hblank _ hf,
        List.nil_append]
    · rw [hp₄.other _ hf (by decide), hp₃.self, hp₂.other _ hf (by decide), hblank _ hf,
        List.nil_append]
    · rw [hp₄.self, hp₃.other _ hf (by decide), hp₂.other _ hf (by decide), hblank _ hf,
        List.nil_append]

/-! ## The stored state -/

theorem bind_some {α β : Type} {x : Option α} {f : α → Option β} {b : β}
    (h : (x >>= f) = some b) : ∃ a, x = some a ∧ f a = some b := Option.bind_eq_some_iff.mp h

/-- What the decoder reads of the journal. -/
theorem decode_journal {v : Value} (h : Decode.session v = some s) :
    (Decode.defaulted (Decode.list Value.asStr) [] v "compaction_events" =
        some s.compactionEvents ∧
      Decode.defaulted (Decode.list some) [] v "compaction_attempts" = some s.compactionAttempts ∧
      Decode.defaulted (Decode.list some) [] v "compaction_decisions" =
        some s.compactionDecisions) ∧
    Decode.defaulted Decode.counts [] v "diagnostic_counts" = some s.diagnosticCounts ∧
    Decode.defaulted Value.asI64 0 v "diagnostic_rejections" = some s.diagnosticRejections ∧
    Decode.defaulted Value.asI64 0 v "compaction_savings_total" = some s.compactionSavingsTotal ∧
    Decode.defaulted Value.asBool true v "compaction_savings_known" =
      some s.compactionSavingsKnown ∧
    s.diagnosticsPending = [] := by
  unfold Decode.session at h
  iterate 13 obtain ⟨_, -, h⟩ := bind_some h
  obtain ⟨_, hevents, h⟩ := bind_some h
  obtain ⟨_, hattempts, h⟩ := bind_some h
  obtain ⟨_, hdecisions, h⟩ := bind_some h
  obtain ⟨_, hcounts, h⟩ := bind_some h
  iterate 2 obtain ⟨_, -, h⟩ := bind_some h
  obtain ⟨_, hrejections, h⟩ := bind_some h
  obtain ⟨_, hsavings, h⟩ := bind_some h
  obtain ⟨_, hknown, h⟩ := bind_some h
  iterate 25 obtain ⟨_, -, h⟩ := bind_some h
  cases h
  exact ⟨⟨hevents, hattempts, hdecisions⟩, hcounts, hrejections, hsavings, hknown, rfl⟩

theorem lookup_jsonbFields (host : Host) (k : String) (fields : List (String × Value)) :
    lookup k (jsonbFields host fields) = (lookup k fields).map (jsonb host) := by
  induction fields with
  | nil => rfl
  | cons field fields ih =>
    obtain ⟨k', v⟩ := field
    rw [jsonbFields, lookup_cons, lookup_cons, ih]
    split <;> rfl

theorem lookup_without (k : String) (keys : List String) (fields : List (String × Value)) :
    lookup k (fields.filter fun f => !keys.contains f.1) =
      if keys.contains k then none else lookup k fields := by
  induction fields with
  | nil => simp
  | cons field fields ih =>
    obtain ⟨k', v⟩ := field
    rw [List.filter_cons, lookup_cons]
    by_cases hc : keys.contains k' = true
    · rw [if_neg (by rw [hc]; decide), ih]
      by_cases hk : k' = k
      · rw [← hk, if_pos hc, if_pos hc]
      · rw [if_neg hk]
    · rw [if_pos (by rw [Bool.eq_false_iff.mpr hc]; rfl), lookup_cons, ih]
      by_cases hk : k' = k
      · rw [← hk, if_pos rfl, if_pos rfl, if_neg hc]
      · rw [if_neg hk, if_neg hk]

/-- A property of the stored state: that of the session, unless the snapshot leaves it out. -/
theorem snapshot_get (host : Host) (s : Session) {k : String} (hk : "_active_integrity" ≠ k) :
    (jsonb host (Integrity.snapshot host s)).get k =
      if Integrity.unbounded.contains k then none else (s.toValue.get k).map (jsonb host) := by
  unfold Integrity.snapshot Session.toValue
  simp only [Value.without, Value.set, jsonb, Value.get_obj]
  rw [lookup_jsonbFields, lookup_insertField_of_ne _ _ _ _ hk, lookup_without]
  split <;> rfl

theorem asI64_jsonb {host : Host} {i j : Int} (h : (jsonb host (.int i)).asI64 = some j) : j = i := by
  simp only [Value.int, jsonb, jsonbNumber, Value.asI64] at h
  split at h
  · exact (Option.some.inj h).symm
  · cases h

theorem counts_jsonb {host : Host} {cs cs' : List (String × Int)}
    (h : Decode.counts (jsonb host (.obj (cs.map fun c => (c.1, .int c.2)))) = some cs') :
    cs' = cs := by
  simp only [jsonb, Decode.counts, Value.asObject_obj, Option.bind_some] at h
  induction cs generalizing cs' with
  | nil =>
    cases h
    rfl
  | cons c cs ih =>
    rw [List.map_cons, jsonbFields, List.mapM_cons] at h
    obtain ⟨d, hd, h⟩ := bind_some h
    obtain ⟨ds, hds, h⟩ := bind_some h
    cases h
    obtain ⟨i, hi, hd⟩ := Option.map_eq_some_iff.mp hd
    rw [ih hds, ← hd, asI64_jsonb hi]

/-- The session the stored state is decoded to has the journal the session was stored with. -/
theorem decoded_restored {host : Host} {t : Tables} {state : Value} {saved : Session}
    (hstate : state = jsonb host (Integrity.snapshot host saved)) (hr : Recorded done saved)
    (h : restored t state = some s) : Decoded done s ∧ SameTotals saved s := by
  obtain ⟨context, -, h⟩ := bind_some h
  obtain ⟨⟨hevents, hattempts, hdecisions⟩, hcounts, hrejections, hsavings, hknown, hpending⟩ :=
    decode_journal h
  obtain ⟨fields, hfields⟩ : ∃ fields, state = .obj fields := by
    rw [hstate]
    exact ⟨_, rfl⟩
  -- the projected properties are none of the journal's
  have hget {k : String} {x y z : Value} (h₁ : "memory" ≠ k) (h₂ : "compacted_context" ≠ k)
      (h₃ : "ledger_state" ≠ k) (h₄ : "_active_integrity" ≠ k) :
      (((state.set "memory" x).set "compacted_context" y).set "ledger_state" z).get k =
        if Integrity.unbounded.contains k then none else (saved.toValue.get k).map (jsonb host) := by
    rw [← snapshot_get host saved h₄, ← hstate, hfields]
    show (((Value.obj _).set "compacted_context" y).set "ledger_state" z).get k = _
    rw [Value.set, Value.get_set_of_ne h₃, Value.get_obj, lookup_insertField_of_ne _ _ _ _ h₂,
      lookup_insertField_of_ne _ _ _ _ h₁]
    rfl
  simp only [Decode.defaulted] at hevents hattempts hdecisions hcounts hrejections hsavings hknown
  rw [hget (by decide) (by decide) (by decide) (by decide), if_pos (by decide)] at hevents
  rw [hget (by decide) (by decide) (by decide) (by decide), if_pos (by decide)] at hattempts
  rw [hget (by decide) (by decide) (by decide) (by decide), if_pos (by decide)] at hdecisions
  rw [hget (by decide) (by decide) (by decide) (by decide), if_neg (by decide)] at hcounts
  rw [hget (by decide) (by decide) (by decide) (by decide), if_neg (by decide)] at hrejections
  rw [hget (by decide) (by decide) (by decide) (by decide), if_neg (by decide)] at hsavings
  rw [hget (by decide) (by decide) (by decide) (by decide), if_neg (by decide)] at hknown
  have hc : saved.toValue.get "diagnostic_counts" =
      some (.obj (saved.diagnosticCounts.map fun c => (c.1, .int c.2))) := rfl
  have hj : saved.toValue.get "diagnostic_rejections" = some (.int saved.diagnosticRejections) := rfl
  have hv : saved.toValue.get "compaction_savings_total" =
      some (.int saved.compactionSavingsTotal) := rfl
  have hw : saved.toValue.get "compaction_savings_known" =
      some (.bool saved.compactionSavingsKnown) := rfl
  rw [hc] at hcounts
  rw [hj] at hrejections
  rw [hv] at hsavings
  rw [hw] at hknown
  have hsame : SameTotals saved s := by
    refine ⟨counts_jsonb hcounts, ?_, ?_, (Option.some.inj hknown).symm⟩
    · exact asI64_jsonb hrejections
    · exact asI64_jsonb hsavings
  have hcounted : ∀ f, counted s f = counted saved f := by
    intro f
    rw [counted, counted, hsame.counts]
  refine ⟨⟨fun c hc => hr.known c (hsame.counts ▸ hc), fun f hf => ?_, hpending,
    (Option.some.inj hevents).symm, (Option.some.inj hattempts).symm,
    (Option.some.inj hdecisions).symm, fun hn => ?_⟩, hsame⟩
  · rw [hcounted f]
    exact hr.count f hf
  · rw [hsame.rejections, hsame.savings, hsame.known]
    exact hr.initial (hsame.counts ▸ hn)

/-! ## The commit -/

theorem retentionWrite_diagnostics {env : Deployment} {t t' : Tables}
    (h : retentionWrite env s t = .ok t') :
    (s.retentionPending = none ∧ t'.diagnostics = t.diagnostics) ∨
    ∃ item, ∃ cutoff : String → Int, s.retentionPending = some item ∧
      t'.diagnostics = t.diagnostics.filter (fun r => cutoff r.family < r.ordinal) ∧
      ∀ f, cutoff f ≤ counted s f - ((item.index "keep_diagnostics").asI64).getD 0 := by
  unfold retentionWrite at h
  split at h
  · next hn =>
    cases h
    exact .inl ⟨hn, rfl⟩
  · next item hitem =>
    obtain ⟨_, -, h⟩ := bind_ok h
    obtain ⟨_, -, h⟩ := bind_ok h
    obtain ⟨_, -, h⟩ := bind_ok h
    cases h
    let cutoff (family : String) : Int :=
      min (((((item.index "watermarks").index "diagnostics").index family).asI64).getD 0)
        (counted s family - ((item.index "keep_diagnostics").asI64).getD 0)
    exact .inr ⟨item, cutoff, hitem, rfl, fun f => min_le_right _ _⟩

/-- What a commit makes of the journal: the staged records are stored, an archive may prune, and the
session is stored as it is. -/
theorem applyCommit_journal {env : Deployment} {clock : Int} {now : String} {command : Command}
    {commitId fingerprint : String} {eventId : Int} {t t' : Tables} {config event : Value}
    (h : applyCommit env clock now command commitId fingerprint eventId t s config event =
      .ok (t', s')) :
    ∃ rows revision next memory, writeDiagnostics env s t.diagnostics = .ok rows ∧
      s' = { s with revision, nextTranscriptSequence := next, memory } ∧
      (∃ row, t'.session = some row ∧ row.state = jsonb env.toHost (Integrity.snapshot env.toHost
        { s' with pendingTranscript := [], pendingCommitId := none })) ∧
      ((s.retentionPending = none ∧ t'.diagnostics = rows) ∨
        ∃ item, ∃ cutoff : String → Int, s.retentionPending = some item ∧
          t'.diagnostics = rows.filter (fun r => cutoff r.family < r.ordinal) ∧
          ∀ f, cutoff f ≤ counted s f - ((item.index "keep_diagnostics").asI64).getD 0) := by
  unfold applyCommit at h
  obtain ⟨_, -, h⟩ := bind_ok h
  obtain ⟨_, -, h⟩ := bind_ok h
  obtain ⟨_, -, h⟩ := bind_ok h
  obtain ⟨_, -, h⟩ := bind_ok h
  obtain ⟨⟨_, _⟩, -, h⟩ := bind_ok h
  obtain ⟨_, -, h⟩ := bind_ok h
  obtain ⟨rows, hrows, h⟩ := bind_ok h
  obtain ⟨_, -, h⟩ := bind_ok h
  obtain ⟨⟨_, _⟩, -, h⟩ := bind_ok h
  obtain ⟨_, -, h⟩ := bind_ok h
  obtain ⟨_, -, h⟩ := bind_ok h
  obtain ⟨t₁, hret, h⟩ := bind_ok h
  obtain ⟨_, -, h⟩ := bind_ok h
  obtain ⟨_, -, h⟩ := bind_ok h
  cases h
  exact ⟨rows, _, _, _, hrows, rfl, ⟨_, rfl, rfl⟩, retentionWrite_diagnostics hret⟩

/-! ## Histories -/

/-- The fields of the journal are the same. -/
structure SameDiagnostics (s s' : Session) : Prop where
  totals : SameTotals s s'
  caches : ∀ f ∈ families, cacheOf s' f = cacheOf s f
  complete : s'.diagnosticsComplete = s.diagnosticsComplete

theorem Recorded.cache_length (h : Recorded log s) :
    s.compactionEvents.length = (trim (log "compaction_events")).length ∧
      s.compactionAttempts.length = (trim (log "compaction_attempts")).length ∧
      s.compactionDecisions.length = (trim (log "compaction_decisions")).length := by
  have hevents := h.cache "compaction_events" (by decide)
  have hattempts := h.cache "compaction_attempts" (by decide)
  have hdecisions := h.cache "compaction_decisions" (by decide)
  rw [cacheOf_events] at hevents
  rw [cacheOf_attempts] at hattempts
  rw [cacheOf_decisions] at hdecisions
  exact ⟨by rw [← hevents, List.length_map], by rw [hattempts], by rw [hdecisions]⟩

/-- Two sessions with one journal are complete alike. -/
theorem Recorded.complete_eq (h : Recorded log s) (h' : Recorded log s')
    (hc : s'.diagnosticCounts = s.diagnosticCounts) :
    s'.diagnosticsComplete = s.diagnosticsComplete := by
  obtain ⟨he, ha, hd⟩ := h.cache_length
  obtain ⟨he', ha', hd'⟩ := h'.cache_length
  rw [h.complete, h'.complete]
  simp only [refreshCompleteness, counted, hc, he, ha, hd, he', ha', hd']

theorem Recorded.same (h : Recorded log s) (hs : SameDiagnostics s s') : Recorded log s' := by
  have hcounted (f : String) : counted s' f = counted s f := by
    rw [counted, counted, hs.totals.counts]
  have hevents := hs.caches "compaction_events" (by decide)
  have hattempts := hs.caches "compaction_attempts" (by decide)
  have hdecisions := hs.caches "compaction_decisions" (by decide)
  rw [cacheOf_events, cacheOf_events] at hevents
  rw [cacheOf_attempts, cacheOf_attempts] at hattempts
  rw [cacheOf_decisions, cacheOf_decisions] at hdecisions
  have hlength : s'.compactionEvents.length = s.compactionEvents.length := by
    have := congrArg List.length hevents
    rwa [List.length_map, List.length_map] at this
  refine ⟨fun c hc => h.known c (hs.totals.counts ▸ hc), fun f hf => ?_, fun f hf => ?_, h.texts,
    ?_, fun hn => ?_⟩
  · rw [hcounted]
    exact h.count f hf
  · rw [hs.caches f hf]
    exact h.cache f hf
  · rw [hs.complete, h.complete]
    simp only [refreshCompleteness, hcounted, hlength, hattempts, hdecisions]
  · rw [hs.totals.rejections, hs.totals.savings, hs.totals.known]
    exact h.initial (hs.totals.counts ▸ hn)

/-- A session's tables, the session in the hands of its worker, the session as it was last committed,
and what was committed and recorded in each family. -/
structure Journal where
  tables : Tables
  working : Session
  saved : Session
  done : String → List Value
  fresh : String → List Value

/-- A session nobody has recorded anything of. -/
structure Blank (s : Session) : Prop where
  counts : s.diagnosticCounts = []
  pending : s.diagnosticsPending = []
  caches : ∀ f ∈ families, cacheOf s f = []
  complete : s.diagnosticsComplete = true
  totals : s.diagnosticRejections = 0 ∧ s.compactionSavingsTotal = 0 ∧
    s.compactionSavingsKnown = true

namespace Journal

def start (s : Session) : Journal := ⟨{}, s, s, fun _ => [], fun _ => []⟩

/-- Everything ever recorded in a family. -/
def past (j : Journal) (family : String) : List Value := j.done family ++ j.fresh family

/-- What was recorded since, after `record`. -/
def recorded (j : Journal) (family : String) (payload : Value) : String → List Value :=
  match (record family payload j.working).1 with
  | .ok () => extend j.fresh family payload
  | .error _ => j.fresh

/-- One operation. The worker's other work does not touch the journal; an archive keeps at least
`recent` records of each family. -/
inductive Step (env : Deployment) : Journal → Journal → Prop
  | record (j : Journal) (family : String) (payload : Value) :
      Step env j { j with
        working := (Diagnostics.record family payload j.working).2
        fresh := j.recorded family payload }
  | work {j : Journal} {working : Session} (h : SameDiagnostics j.working working)
      (hp : working.diagnosticsPending = j.working.diagnosticsPending) :
      Step env j { j with working }
  | commit {j : Journal} {clock eventId : Int} {now commitId fingerprint : String}
      {command : Command} {config event : Value} {tables : Tables} {s : Session}
      (h : applyCommit env clock now command commitId fingerprint eventId j.tables j.working config
        event = .ok (tables, s))
      (hk : ∀ item, j.working.retentionPending = some item →
        (recent : Int) ≤ ((item.index "keep_diagnostics").asI64).getD 0) :
      Step env j ⟨tables, settled s, settled s, j.past, fun _ => []⟩
  | load {j : Journal} {row : SessionRow} {s s' : Session} (hrow : j.tables.session = some row)
      (hs : restored j.tables row.state = some s) (hh : hydrated j.tables s = .ok s') :
      Step env j { j with working := s', fresh := fun _ => [] }

/-- An operation whose payload comes back from a JSON column as it is. -/
def Calm (env : Deployment) (j j' : Journal) : Prop :=
  Step env j j' ∧ ∀ family, ∀ payload ∈ j'.fresh family, jsonb env.toHost payload = payload

/-- The journal is gapless and its caches are exact. -/
structure Exact (j : Journal) : Prop where
  /-- The stored and the staged records of a family are numbered on, after a pruned prefix. -/
  numbered : ∀ f ∈ families, ∃ cut : Nat, cut ≤ (j.done f).length ∧
    j.tables.diagnostics.filter (fun r => r.family = f) ++
      j.working.diagnosticsPending.filter (fun r => r.family = f) =
        numberFrom f (cut + 1) ((j.past f).drop cut)
  counted : ∀ f ∈ families, counted j.working f = (j.past f).length
  cached : ∀ f ∈ families, cacheOf j.working f =
    (j.past f).drop ((j.past f).length - min recent (j.past f).length)
  /-- The stored state is hydrated to what was committed. -/
  hydrates : ∀ row s, j.tables.session = some row → restored j.tables row.state = some s →
    ∃ s', hydrated j.tables s = .ok s' ∧ SameDiagnostics j.saved s'

structure Held (env : Deployment) (j : Journal) : Prop where
  working : Recorded j.past j.working
  saved : Recorded j.done j.saved
  rows : Shelved j.done j.tables.diagnostics
  staged : Staged j.done j.fresh j.working.diagnosticsPending
  stable : ∀ f, ∀ payload ∈ j.fresh f, jsonb env.toHost payload = payload
  stored : ∀ row, j.tables.session = some row → ∃ persisted,
    row.state = jsonb env.toHost (Integrity.snapshot env.toHost persisted) ∧
      Recorded j.done persisted ∧ SameTotals j.saved persisted

theorem Held.start {env : Deployment} {s : Session} (hb : Blank s) : Held env (start s) := by
  have hr : Recorded (fun _ => []) s := by
    refine ⟨?_, fun f _ => ?_, fun f hf => ?_, ?_, ?_, fun _ => hb.totals⟩
    · rw [hb.counts]
      intro c hc
      cases hc
    · rw [Diagnostics.counted, hb.counts]
      rfl
    · rw [hb.caches f hf]
      rfl
    · intro p hp
      cases hp
    · have hevents := hb.caches "compaction_events" (by decide)
      have hattempts := hb.caches "compaction_attempts" (by decide)
      have hdecisions := hb.caches "compaction_decisions" (by decide)
      rw [cacheOf_events] at hevents
      rw [cacheOf_attempts] at hattempts
      rw [cacheOf_decisions] at hdecisions
      simp only [refreshCompleteness, Diagnostics.counted, hb.counts, hb.complete, hattempts,
        hdecisions, List.map_eq_nil_iff.mp hevents]
      rfl
  refine ⟨hr, hr, .empty, ⟨?_, fun f _ => ?_⟩, ?_, ?_⟩
  · intro r h
    rw [show (Journal.start s).working.diagnosticsPending = [] from hb.pending] at h
    cases h
  · rw [show (Journal.start s).working.diagnosticsPending = [] from hb.pending]
    rfl
  · intro f p hp
    cases hp
  · intro row h
    cases h

theorem Held.record {env : Deployment} {j : Journal} (h : Held env j) (family : String)
    (payload : Value) (hp : ∀ f, ∀ p ∈ j.recorded family payload f, jsonb env.toHost p = p) :
    Held env { j with
      working := (Diagnostics.record family payload j.working).2
      fresh := j.recorded family payload } := by
  rcases record_recorded h.working family payload with
    ⟨hf, s', hrecord, hrec, hpending⟩ | ⟨e, s', hrecord, hrec, hpending⟩
  · have hfresh : j.recorded family payload = extend j.fresh family payload := by
      rw [Journal.recorded, hrecord]
    have hpast : extend j.past family payload =
        fun f => j.done f ++ extend j.fresh family payload f := by
      funext f
      by_cases heq : f = family
      · rw [heq, extend_self, extend_self, past, List.append_assoc]
      · rw [extend_of_ne _ heq, extend_of_ne _ heq]
        rfl
    rw [hrecord, hfresh]
    rw [hfresh] at hp
    refine ⟨?_, h.saved, h.rows, ⟨fun r hr => ?_, fun f hf' => ?_⟩, hp, h.stored⟩
    · rw [hpast] at hrec
      exact hrec
    · rw [hpending] at hr
      rcases List.mem_append.mp hr with hr | hr
      · exact h.staged.known r hr
      · rw [List.mem_singleton.mp hr]
        exact hf
    · show s'.diagnosticsPending.filter _ = numberFrom f _ (extend j.fresh family payload f)
      rw [hpending, List.filter_append, h.staged.rows f hf']
      by_cases heq : f = family
      · subst heq
        have hnum : ((j.done f).length : Int) + 1 + (j.fresh f).length = (j.past f).length + 1 := by
          rw [past, List.length_append]
          omega
        rw [extend_self, numberFrom_append, hnum]
        simp [numberFrom]
      · rw [extend_of_ne _ heq, List.filter_cons, if_neg (by simpa using Ne.symm heq)]
        simp
  · have hfresh : j.recorded family payload = j.fresh := by
      rw [Journal.recorded, hrecord]
    rw [hrecord, hfresh]
    refine ⟨hrec, h.saved, h.rows, ?_, h.stable, h.stored⟩
    show Staged j.done j.fresh s'.diagnosticsPending
    rw [hpending]
    exact h.staged

theorem Held.commit {env : Deployment} {j : Journal} (hj : Held env j) {clock eventId : Int}
    {now commitId fingerprint : String} {command : Command} {config event : Value}
    {tables : Tables} {s : Session}
    (h : applyCommit env clock now command commitId fingerprint eventId j.tables j.working config
      event = .ok (tables, s))
    (hk : ∀ item, j.working.retentionPending = some item →
      (recent : Int) ≤ ((item.index "keep_diagnostics").asI64).getD 0) :
    Held env ⟨tables, settled s, settled s, j.past, fun _ => []⟩ := by
  obtain ⟨rows, revision, next, memory, hwrite, hs, ⟨row, hrow, hstate⟩, hprune⟩ :=
    applyCommit_journal h
  obtain ⟨rows', hall, hwrite⟩ := bind_ok hwrite
  have hrows : rows' = rows := by
    obtain ⟨_, -, hwrite⟩ := bind_ok hwrite
    obtain ⟨_, -, hwrite⟩ := bind_ok hwrite
    exact Except.ok.inj hwrite
  rw [hrows] at hall
  have hshelved : Shelved j.past rows :=
    writeAll_shelved hj.rows hj.staged (fun f _ p hp => hj.stable f p hp) hall
  have hworking := hj.working
  have hrecorded : Recorded j.past s := by
    rw [hs]
    exact ⟨hworking.known, hworking.count, hworking.cache, hworking.texts, hworking.complete,
      hworking.initial⟩
  have hnone : ∀ f, j.past f ++ [] = j.past f := fun f => List.append_nil _
  have hsettled : Recorded j.past (settled s) :=
    ⟨hrecorded.known, hrecorded.count, hrecorded.cache, hrecorded.texts, hrecorded.complete,
      hrecorded.initial⟩
  refine ⟨?_, hsettled, ?_, ⟨?_, fun f _ => rfl⟩, ?_, fun row' hrow' => ?_⟩
  · show Recorded (fun f => j.past f ++ []) (settled s)
    simp only [List.append_nil]
    exact hsettled
  · rcases hprune with ⟨-, hd⟩ | ⟨item, cutoff, hitem, hd, hcut⟩
    · rw [hd]
      exact hshelved
    · rw [hd]
      refine hshelved.prune cutoff fun f hf => ?_
      have hkeep := hk item hitem
      have hle := hcut f
      have hcount := hworking.count f hf
      omega
  · intro r hr
    cases hr
  · intro f p hp
    cases hp
  · rw [hrow] at hrow'
    rw [← Option.some.inj hrow']
    exact ⟨_, hstate, ⟨hrecorded.known, hrecorded.count, hrecorded.cache, hrecorded.texts,
      hrecorded.complete, hrecorded.initial⟩, ⟨rfl, rfl, rfl, rfl⟩⟩

/-- What the stored state is hydrated to. -/
theorem Held.hydrates {env : Deployment} {j : Journal} (h : Held env j) {row : SessionRow}
    {s : Session} (hrow : j.tables.session = some row)
    (hs : restored j.tables row.state = some s) :
    ∃ s', hydrated j.tables s = .ok s' ∧ Recorded j.done s' ∧ SameTotals j.saved s' ∧
      s'.diagnosticsPending = [] := by
  obtain ⟨persisted, hstate, hrecorded, hsaved⟩ := h.stored row hrow
  obtain ⟨hdecoded, htotals⟩ := decoded_restored hstate hrecorded hs
  obtain ⟨s', hh, hsame, hcaches, hpending, hcomplete⟩ :=
    hydrated_decoded hdecoded h.rows hrecorded.texts
  have hall : SameTotals j.saved s' := (hsaved.trans htotals).trans hsame
  refine ⟨s', hh, ⟨fun c hc => ?_, fun f hf => ?_, hcaches, hrecorded.texts, hcomplete,
    fun hn => ?_⟩, hall, hpending⟩
  · exact h.saved.known c (hall.counts ▸ hc)
  · rw [Diagnostics.counted, hall.counts]
    exact h.saved.count f hf
  · rw [hall.rejections, hall.savings, hall.known]
    exact h.saved.initial (hall.counts ▸ hn)

theorem Held.step {env : Deployment} {j j' : Journal} (hj : Held env j) (h : Calm env j j') :
    Held env j' := by
  obtain ⟨hstep, hstable⟩ := h
  cases hstep with
  | record family payload => exact hj.record family payload hstable
  | work hsame hp =>
    refine ⟨hj.working.same hsame, hj.saved, hj.rows, ?_, hj.stable, hj.stored⟩
    show Staged j.done j.fresh _
    rw [hp]
    exact hj.staged
  | commit happly hk => exact hj.commit happly hk
  | load hrow hs hh =>
    obtain ⟨s', hh', hrecorded, -, hpending⟩ := hj.hydrates hrow hs
    rw [hh] at hh'
    rw [Except.ok.inj hh']
    refine ⟨?_, hj.saved, hj.rows, ⟨?_, fun f _ => ?_⟩, ?_, hj.stored⟩
    · show Recorded (fun f => j.done f ++ []) s'
      simp only [List.append_nil]
      exact hrecorded
    · intro r hr
      rw [hpending] at hr
      cases hr
    · rw [hpending]
      rfl
    · intro f p hp
      cases hp

theorem Held.exact {env : Deployment} {j : Journal} (h : Held env j) : Exact j := by
  have hr : recent = 32 := rfl
  refine ⟨fun f hf => ?_, h.working.count, fun f hf => ?_, fun row s hrow hs => ?_⟩
  · obtain ⟨cut, hcut, hrows⟩ := h.rows.rows f hf
    have hle : cut ≤ (j.done f).length := by omega
    have hnum : (cut : Int) + 1 + ((j.done f).drop cut).length = (j.done f).length + 1 := by
      rw [List.length_drop]
      omega
    refine ⟨cut, hle, ?_⟩
    rw [hrows, h.staged.rows f hf, past, List.drop_append_of_le_length hle, numberFrom_append, hnum]
  · have hdrop : (j.past f).length - min recent (j.past f).length =
        (j.past f).length - recent := by
      omega
    rw [h.working.cache f hf, trim, hdrop]
  · obtain ⟨s', hh, hrecorded, htotals, -⟩ := h.hydrates hrow hs
    refine ⟨s', hh, htotals, fun f hf => ?_, h.saved.complete_eq hrecorded htotals.counts⟩
    rw [hrecorded.cache f hf, h.saved.cache f hf]

end Journal

theorem sampleSession_blank : Blank sampleSession := by
  refine ⟨rfl, rfl, fun f hf => ?_, rfl, rfl, rfl, rfl⟩
  rcases mem_families.mp hf with rfl | rfl | rfl
  · rw [cacheOf_events]
    rfl
  · rw [cacheOf_attempts]
    rfl
  · rw [cacheOf_decisions]
    rfl

/-- The double 2^60. -/
def twoTo60 : F64 := ⟨false, 2 ^ 52, 8, by decide⟩

/-- The sample deployment with the texts of the doubles it meets. -/
def sampleNumbers : Deployment :=
  { sampleAgent with
    floatText := fun f =>
      if f = twoTo60 then "1.152921504606847e18" else if f.isZero then "0.0" else "30.0" }

def samplePayload : Value := .obj [("estimate", .num (.float twoTo60))]

/-- The cached decision has an integer token. -/
def integral (s : Session) : Bool :=
  s.compactionDecisions.any fun v => (v.index "estimate").asI64.isSome

end StateDrivenAgent
