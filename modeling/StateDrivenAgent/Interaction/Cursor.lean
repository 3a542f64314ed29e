import Mathlib.Data.List.Basic

/-!
# Reading a log with a cursor

A log is a list of entries with strictly increasing keys. A reader keeps the key of the last entry it
took; what it still has to take are the entries beyond that key. Writers append entries whose key is
larger than all others.
-/

namespace Interaction

variable {β : Type} {key : β → Int}

/-- The keys increase strictly. -/
def Increasing (key : β → Int) (log : List β) : Prop := log.Pairwise fun a b => key a < key b

/-- The entries after `cursor`. -/
def beyond (key : β → Int) (cursor : Int) (log : List β) : List β :=
  log.filter fun e => cursor < key e

/-- The entries after `start`, up to `cursor`. -/
def between (key : β → Int) (start cursor : Int) (log : List β) : List β :=
  log.filter fun e => start < key e && key e ≤ cursor

theorem mem_beyond {cursor : Int} {log : List β} {e : β} :
    e ∈ beyond key cursor log ↔ e ∈ log ∧ cursor < key e := by
  simp [beyond]

theorem mem_between {start cursor : Int} {log : List β} {e : β} :
    e ∈ between key start cursor log ↔ e ∈ log ∧ start < key e ∧ key e ≤ cursor := by
  simp [between]

@[simp] theorem between_self (start : Int) (log : List β) : between key start start log = [] := by
  rw [between, List.filter_eq_nil_iff]
  intro e _ h
  simp only [Bool.and_eq_true, decide_eq_true_eq] at h
  omega

theorem Increasing.concat {log : List β} (h : Increasing key log) {e : β}
    (he : ∀ a ∈ log, key a < key e) : Increasing key (log ++ [e]) := by
  refine List.pairwise_append.mpr ⟨h, List.pairwise_singleton _ _, fun a ha b hb => ?_⟩
  rw [List.mem_singleton.mp hb]
  exact he a ha

/-- What is beyond the cursor stays so while the log grows. -/
theorem beyond_append (cursor : Int) (log new : List β) :
    beyond key cursor log <+: beyond key cursor (log ++ new) := by
  rw [beyond, beyond, List.filter_append]
  exact List.prefix_append _ _

/-- New entries come after the cursor of a reader that has taken nothing yet, or that is at an
entry. -/
theorem between_concat {start cursor : Int} {log : List β} {e : β}
    (h : cursor = start ∨ ∃ a ∈ log, key a = cursor) (he : ∀ a ∈ log, key a < key e) :
    between key start cursor (log ++ [e]) = between key start cursor log := by
  have hnone : between key start cursor [e] = [] := by
    rw [between, List.filter_eq_nil_iff]
    intro b hb hin
    rw [List.mem_singleton.mp hb] at hin
    simp only [Bool.and_eq_true, decide_eq_true_eq] at hin
    rcases h with rfl | ⟨a, ha, rfl⟩
    · omega
    · have hlt := he a ha
      omega
  rw [between, List.filter_append, ← between, ← between, hnone, List.append_nil]

/-- Taking the first entry beyond the cursor. -/
theorem Increasing.take {log : List β} (h : Increasing key log) {start cursor : Int} {e : β}
    {rest : List β} (hs : start ≤ cursor) (hb : beyond key cursor log = e :: rest) :
    between key start (key e) log = between key start cursor log ++ [e] ∧
      beyond key (key e) log = rest := by
  have hinc : Increasing key (e :: rest) := hb ▸ List.Pairwise.sublist List.filter_sublist h
  have hlt : ∀ a ∈ rest, key e < key a := (List.pairwise_cons.mp hinc).1
  have he : e ∈ log ∧ cursor < key e := mem_beyond.mp (hb ▸ List.mem_cons_self)
  clear hinc
  induction log with
  | nil => cases he.1
  | cons a log ih =>
    obtain ⟨hhead, htail⟩ := List.pairwise_cons.mp h
    rw [beyond, List.filter_cons] at hb
    by_cases ha : cursor < key a
    · -- the first entry beyond the cursor is the head: nothing before it was taken
      rw [if_pos (by simpa using ha)] at hb
      obtain ⟨rfl, hrest⟩ := List.cons.inj hb
      have hnone : between key start cursor log = [] := by
        rw [between, List.filter_eq_nil_iff]
        intro b hb' hin
        have hab := hhead b hb'
        simp only [Bool.and_eq_true, decide_eq_true_eq] at hin
        omega
      have hupto : between key start (key a) log = [] := by
        rw [between, List.filter_eq_nil_iff]
        intro b hb' hin
        have hab := hhead b hb'
        simp only [Bool.and_eq_true, decide_eq_true_eq] at hin
        omega
      have hall : beyond key (key a) log = log.filter fun b => cursor < key b := by
        refine List.filter_congr fun b hb' => ?_
        have hab := hhead b hb'
        simp only [decide_eq_decide]
        omega
      constructor
      · rw [between, List.filter_cons, if_pos (by simp; omega), ← between, hupto,
          between, List.filter_cons, if_neg (by simp; omega), ← between, hnone]
        rfl
      · rw [beyond, List.filter_cons, if_neg (by simp), ← beyond, hall, hrest]
    · rw [if_neg (by simpa using ha)] at hb
      have hmem : e ∈ log := by
        rcases List.mem_cons.mp he.1 with rfl | hmem
        · exact absurd he.2 ha
        · exact hmem
      obtain ⟨htaken, hleft⟩ := ih htail hb ⟨hmem, he.2⟩
      have hae := hhead e hmem
      constructor
      · rw [between, List.filter_cons, between, List.filter_cons]
        by_cases hsa : start < key a
        · rw [if_pos (by simp; omega), if_pos (by simp; omega), List.cons_append]
          exact congrArg (a :: ·) htaken
        · rw [if_neg (by simp; omega), if_neg (by simp; omega)]
          exact htaken
      · rw [beyond, List.filter_cons, if_neg (by simp; omega)]
        exact hleft

end Interaction
