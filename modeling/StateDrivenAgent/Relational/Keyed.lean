import Mathlib.Data.List.Induction
import Mathlib.Data.List.Nodup

/-!
# Rows with a key

A table is a list of rows no two of which have the same key. To put an item is to insert a row with
its key or to rewrite the one there is, and to leave the others alone (`Puts`). After a run of puts
every item has exactly one row, and that row is what the last item with its key left
(`once_of_foldlM`). A put that rewrites nothing leaves what every item put (`all_of_foldlM`).
-/

namespace Keyed

variable {α β κ ε : Type} {key : α → κ} {k : κ} {P : α → Prop} {rows rows' : List α}

/-- A row with the key `k` was inserted or rewritten, and satisfies `P` now. -/
structure Puts (key : α → κ) (k : κ) (P : α → Prop) (rows rows' : List α) : Prop where
  keys : rows'.map key = rows.map key ∨
    (k ∉ rows.map key ∧ rows'.map key = rows.map key ++ [k])
  others : ∀ r ∈ rows, key r ≠ k → r ∈ rows'
  put : ∃ r ∈ rows', key r = k ∧ P r

theorem Puts.nodup (h : Puts key k P rows rows') (hn : (rows.map key).Nodup) :
    (rows'.map key).Nodup := by
  rcases h.keys with heq | ⟨hnew, heq⟩
  · rwa [heq]
  · rw [heq, ← List.concat_eq_append]
    exact hn.concat hnew

/-- A new row at the end. -/
theorem Puts.insert {row : α} (hnew : ∀ r ∈ rows, key r ≠ k) (hk : key row = k) (hp : P row) :
    Puts key k P rows (rows ++ [row]) where
  keys := by
    refine .inr ⟨?_, by rw [List.map_append, List.map_singleton, hk]⟩
    intro hmem
    obtain ⟨r, hr, heq⟩ := List.mem_map.mp hmem
    exact hnew r hr heq
  others r hr _ := List.mem_append_left _ hr
  put := ⟨row, by simp, hk, hp⟩

/-- Nothing has to be written. -/
theorem Puts.found {row : α} (hmem : row ∈ rows) (hk : key row = k) (hp : P row) :
    Puts key k P rows rows :=
  ⟨.inl rfl, fun _ hr _ => hr, row, hmem, hk, hp⟩

variable [DecidableEq κ]

/-- The row with the key is rewritten. -/
theorem Puts.rewrite {g : α → α} {row : α} (hmem : row ∈ rows) (hk : key row = k)
    (hg : ∀ r, key r = k → key (g r) = k) (hp : ∀ r ∈ rows, key r = k → P (g r)) :
    Puts key k P rows (rows.map fun r => if key r = k then g r else r) where
  keys := by
    refine .inl ?_
    rw [List.map_map]
    refine List.map_congr_left fun r _ => ?_
    simp only [Function.comp_apply]
    split
    · next h => rw [hg r h, h]
    · rfl
  others r hr hne := List.mem_map.mpr ⟨r, hr, if_neg hne⟩
  put := ⟨g row, List.mem_map.mpr ⟨row, hmem, if_pos hk⟩, hg row hk, hp row hmem hk⟩

/-- Exactly one row has the key `k`, and it satisfies `P`. -/
def Once (key : α → κ) (k : κ) (P : α → Prop) (rows : List α) : Prop :=
  ∃ row, rows.filter (fun r => key r = k) = [row] ∧ P row

theorem once_of_mem (hn : (rows.map key).Nodup) {row : α} (h : row ∈ rows) (hp : P row) :
    Once key (key row) P rows := by
  refine ⟨row, ?_, hp⟩
  induction rows with
  | nil => cases h
  | cons r rows ih =>
    rw [List.map_cons, List.nodup_cons] at hn
    rcases List.mem_cons.mp h with rfl | h
    · rw [List.filter_cons_of_pos (by simp), List.filter_eq_nil_iff.mpr]
      intro r' hr' heq
      apply hn.1
      rw [← of_decide_eq_true heq]
      exact List.mem_map_of_mem hr'
    · have hne : key r ≠ key row := fun heq => hn.1 (heq ▸ List.mem_map_of_mem h)
      rw [List.filter_cons_of_neg (by simpa using hne)]
      exact ih hn.2 h

theorem Once.mono {Q : α → Prop} (h : Once key k P rows) (hpq : ∀ r, P r → Q r) :
    Once key k Q rows := by
  obtain ⟨row, hrow, hp⟩ := h
  exact ⟨row, hrow, hpq row hp⟩

section Run

variable {f : List α → β → Except ε (List α)} {of : β → κ} {Q : β → α → Prop}

omit [DecidableEq κ] in
/-- A run of puts leaves the keys distinct. -/
theorem nodup_of_foldlM
    (hf : ∀ rows item rows', (rows.map key).Nodup → f rows item = .ok rows' →
      Puts key (of item) (Q item) rows rows')
    (items : List β) (h : items.foldlM f rows = .ok rows') (hn : (rows.map key).Nodup) :
    (rows'.map key).Nodup := by
  induction items generalizing rows with
  | nil =>
    cases h
    exact hn
  | cons item items ih =>
    rw [List.foldlM_cons] at h
    cases hmid : f rows item with
    | error e =>
      rw [hmid] at h
      cases h
    | ok mid =>
      rw [hmid] at h
      exact ih h ((hf rows item mid hn hmid).nodup hn)

omit [DecidableEq κ] in
/-- A run of puts leaves the rows of other keys alone. -/
theorem others_of_foldlM
    (hf : ∀ rows item rows', (rows.map key).Nodup → f rows item = .ok rows' →
      Puts key (of item) (Q item) rows rows')
    (items : List β) (h : items.foldlM f rows = .ok rows') (hn : (rows.map key).Nodup) {r : α}
    (hr : r ∈ rows) (hother : key r ∉ items.map of) : r ∈ rows' := by
  induction items generalizing rows with
  | nil =>
    cases h
    exact hr
  | cons item items ih =>
    rw [List.map_cons, List.mem_cons, not_or] at hother
    rw [List.foldlM_cons] at h
    cases hmid : f rows item with
    | error e =>
      rw [hmid] at h
      cases h
    | ok mid =>
      rw [hmid] at h
      have hputs := hf rows item mid hn hmid
      exact ih h (hputs.nodup hn) (hputs.others r hr hother.1) hother.2

/-- Every item has one row, and it is what the last item with that key put. -/
theorem once_of_foldlM
    (hf : ∀ rows item rows', (rows.map key).Nodup → f rows item = .ok rows' →
      Puts key (of item) (Q item) rows rows')
    (items : List β) (h : items.foldlM f rows = .ok rows') (hn : (rows.map key).Nodup) :
    ∀ item ∈ items, ∃ last, (items.filter fun i => of i = of item).getLast? = some last ∧
      Once key (of item) (Q last) rows' := by
  induction items using List.reverseRecOn generalizing rows' with
  | nil => simp
  | append_singleton items i ih =>
    have hend := nodup_of_foldlM hf _ h hn
    rw [List.foldlM_append] at h
    cases hmid : items.foldlM f rows with
    | error e =>
      rw [hmid] at h
      cases h
    | ok mid =>
      rw [hmid] at h
      have hlast : f mid i = .ok rows' := by
        cases hstep : f mid i with
        | error e =>
          simp only [bind, Except.bind, List.foldlM_cons, hstep] at h
          cases h
        | ok out =>
          simp only [bind, Except.bind, List.foldlM_cons, hstep, List.foldlM_nil, pure,
            Except.pure] at h
          exact h
      have hputs := hf mid i rows' (nodup_of_foldlM hf _ hmid hn) hlast
      intro item hitem
      by_cases hsame : of i = of item
      · refine ⟨i, ?_, ?_⟩
        · rw [List.filter_append, List.filter_cons_of_pos (by simpa using hsame)]
          simp
        · obtain ⟨row, hrow, hk, hq⟩ := hputs.put
          rw [← hsame, ← hk]
          exact once_of_mem hend hrow hq
      · have hbefore : item ∈ items := by
          rcases List.mem_append.mp hitem with hmem | hmem
          · exact hmem
          · exact absurd (congrArg of (List.mem_singleton.mp hmem).symm) hsame
        obtain ⟨last, hget, row, hrow, hq⟩ := ih hmid item hbefore
        refine ⟨last, ?_, ?_⟩
        · rw [List.filter_append, List.filter_cons_of_neg (by simpa using hsame), List.filter_nil,
            List.append_nil]
          exact hget
        · have hmem : row ∈ mid.filter fun r => key r = of item := by
            rw [hrow]
            exact List.mem_singleton_self row
          obtain ⟨hmem, hk⟩ := List.mem_filter.mp hmem
          have hk : key row = of item := of_decide_eq_true hk
          rw [← hk]
          refine once_of_mem hend (hputs.others row hmem ?_) hq
          rw [hk]
          exact fun heq => hsame heq.symm

/-- Where a put rewrites nothing, every item has one row, as that item put it. -/
theorem all_of_foldlM
    (hf : ∀ rows item rows', (rows.map key).Nodup → f rows item = .ok rows' →
      Puts key (of item) (Q item) rows rows')
    (hkeep : ∀ rows item rows', f rows item = .ok rows' → rows ⊆ rows')
    (items : List β) (h : items.foldlM f rows = .ok rows') (hn : (rows.map key).Nodup) :
    rows ⊆ rows' ∧ ∀ item ∈ items, Once key (of item) (Q item) rows' := by
  have hend := nodup_of_foldlM hf _ h hn
  have hall : rows ⊆ rows' ∧ ∀ item ∈ items, ∃ r ∈ rows', key r = of item ∧ Q item r := by
    clear hend
    induction items generalizing rows with
    | nil =>
      cases h
      exact ⟨fun _ hr => hr, by simp⟩
    | cons item items ih =>
      rw [List.foldlM_cons] at h
      cases hmid : f rows item with
      | error e =>
        rw [hmid] at h
        cases h
      | ok mid =>
        rw [hmid] at h
        have hputs := hf rows item mid hn hmid
        obtain ⟨hsub, hrest⟩ := ih h (hputs.nodup hn)
        refine ⟨fun r hr => hsub (hkeep rows item mid hmid hr), fun i hi => ?_⟩
        rcases List.mem_cons.mp hi with rfl | hi
        · obtain ⟨r, hr, hk, hq⟩ := hputs.put
          exact ⟨r, hsub hr, hk, hq⟩
        · exact hrest i hi
  refine ⟨hall.1, fun item hitem => ?_⟩
  obtain ⟨r, hr, hk, hq⟩ := hall.2 item hitem
  rw [← hk]
  exact once_of_mem hend hr hq

end Run

end Keyed
