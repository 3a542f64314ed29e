import Mathlib.Data.List.SplitBy
import Mathlib.Data.List.TakeWhile
import StateDrivenAgent.Json.Text

/-!
# Trimmed texts

A text is white space, a trimmed text and white space again, and the trimmed text is unique.
-/

namespace StateDrivenAgent.Text

def Spacing (cs : List Char) : Prop := ∀ c ∈ cs, isWhitespace c = true

/-- Neither the first nor the last character is white space. -/
structure Trimmed (cs : List Char) : Prop where
  head : ∀ c, cs.head? = some c → isWhitespace c = false
  last : ∀ c, cs.getLast? = some c → isWhitespace c = false

theorem Spacing.nil : Spacing [] := by intro c hc; cases hc

theorem Spacing.append {a b : List Char} (ha : Spacing a) (hb : Spacing b) : Spacing (a ++ b) := by
  intro c hc
  exact (List.mem_append.1 hc).elim (ha c) (hb c)

theorem Spacing.reverse {a : List Char} (ha : Spacing a) : Spacing a.reverse := by
  intro c hc
  exact ha c (List.mem_reverse.1 hc)

theorem blank_takeWhile (cs : List Char) : Spacing (cs.takeWhile isWhitespace) := by
  intro c hc
  exact (List.mem_takeWhile_imp hc)

theorem head_dropWhile {cs : List Char} {c : Char} (h : (cs.dropWhile isWhitespace).head? = some c) :
    isWhitespace c = false := by
  have := List.head?_dropWhile_not isWhitespace cs
  rw [h] at this
  simpa using this

theorem dropWhile_of_head {cs : List Char} (h : ∀ c, cs.head? = some c → isWhitespace c = false) :
    cs.dropWhile isWhitespace = cs := by
  cases cs with
  | nil => rfl
  | cons c cs =>
    have hc := h c rfl
    simp [hc]

theorem Spacing.dropWhile_append {b : List Char} (hb : Spacing b) (cs : List Char) :
    (b ++ cs).dropWhile isWhitespace = cs.dropWhile isWhitespace :=
  List.dropWhile_append_of_pos hb

theorem Trimmed.reverse {cs : List Char} (h : Trimmed cs) : Trimmed cs.reverse where
  head c hc := h.last c (by simpa using hc)
  last c hc := h.head c (by simpa using hc)

theorem Trimmed.dropWhile_append {cs : List Char} (h : Trimmed cs) (b : List Char)
    (hne : cs ≠ []) : (cs ++ b).dropWhile isWhitespace = cs ++ b := by
  apply dropWhile_of_head
  intro c hc
  cases cs with
  | nil => exact absurd rfl hne
  | cons d ds => exact h.head c (by simpa using hc)

/-- White space around a trimmed text is what `trim` takes off. -/
theorem trim_eq {b cs b' : List Char} (hb : Spacing b) (h : Trimmed cs) (hb' : Spacing b') :
    trim (.ofList (b ++ (cs ++ b'))) = .ofList cs := by
  unfold trim
  rw [String.toList_ofList, hb.dropWhile_append]
  by_cases hne : cs = []
  · subst hne
    have hnil : b'.dropWhile isWhitespace = [] := List.dropWhile_eq_nil_iff.2 hb'
    simp [hnil]
  · rw [h.dropWhile_append b' hne, List.reverse_append, hb'.reverse.dropWhile_append,
      dropWhile_of_head h.reverse.head, List.reverse_reverse]

theorem trim_ofList {cs : List Char} (h : Trimmed cs) : trim (.ofList cs) = .ofList cs := by
  have := trim_eq .nil h .nil
  simpa using this

/-- What `trim` leaves is trimmed, and white space stands around it. -/
theorem trim_spec (cs : List Char) : ∃ b b', Spacing b ∧ Spacing b' ∧
    cs = b ++ ((trim (.ofList cs)).toList ++ b') ∧ Trimmed (trim (.ofList cs)).toList := by
  let rest := cs.dropWhile isWhitespace
  refine ⟨cs.takeWhile isWhitespace, (rest.reverse.takeWhile isWhitespace).reverse,
    blank_takeWhile cs, (blank_takeWhile _).reverse, ?_, ?_⟩
  · unfold trim
    rw [String.toList_ofList, String.toList_ofList, ← List.reverse_append,
      List.takeWhile_append_dropWhile, List.reverse_reverse, List.takeWhile_append_dropWhile]
  · unfold trim
    rw [String.toList_ofList, String.toList_ofList]
    constructor
    · intro c hc
      -- the first character that stays is the first of `rest`
      have hsplit : rest = (rest.reverse.dropWhile isWhitespace).reverse ++
          (rest.reverse.takeWhile isWhitespace).reverse := by
        rw [← List.reverse_append, List.takeWhile_append_dropWhile, List.reverse_reverse]
      apply @head_dropWhile cs
      change rest.head? = some c
      rw [hsplit, List.head?_append, hc]
      rfl
    · intro c hc
      rw [List.getLast?_reverse] at hc
      exact head_dropWhile hc

theorem trimmed_trim (s : String) : Trimmed (trim s).toList := by
  obtain ⟨_, _, _, _, _, h⟩ := trim_spec s.toList
  simpa using h

theorem trim_trim (s : String) : trim (trim s) = trim s := by
  have h := trim_ofList (trimmed_trim s)
  rwa [String.ofList_toList] at h

theorem trim_blank {b : List Char} (hb : Spacing b) : trim (.ofList b) = "" := by
  have := @trim_eq _ [] _ hb ⟨by simp, by simp⟩ .nil
  simpa using this

theorem trim_isEmpty_iff {cs : List Char} : (trim (.ofList cs)).isEmpty = true ↔ Spacing cs := by
  rw [String.isEmpty_iff]
  constructor
  · intro h
    obtain ⟨b, b', hb, hb', hcs, -⟩ := trim_spec cs
    rw [h] at hcs
    rw [hcs]
    exact hb.append (Spacing.append (by intro c hc; cases hc) hb')
  · exact trim_blank

theorem trim_blank_append {b : List Char} (hb : Spacing b) (cs : List Char) :
    trim (.ofList (b ++ cs)) = trim (.ofList cs) := by
  unfold trim
  rw [String.toList_ofList, String.toList_ofList, hb.dropWhile_append]

/-- `trim_end` takes the white space at the end. -/
theorem trimEnd_eq {cs b : List Char} (hcs : ∀ c, cs.getLast? = some c → isWhitespace c = false)
    (hb : Spacing b) : trimEnd (.ofList (cs ++ b)) = .ofList cs := by
  unfold trimEnd
  rw [String.toList_ofList, List.reverse_append, hb.reverse.dropWhile_append, dropWhile_of_head,
    List.reverse_reverse]
  intro c hc
  exact hcs c (by simpa using hc)

theorem trimEnd_spec (cs : List Char) : ∃ b, Spacing b ∧ cs = (trimEnd (.ofList cs)).toList ++ b ∧
    ∀ c, (trimEnd (.ofList cs)).toList.getLast? = some c → isWhitespace c = false := by
  refine ⟨(cs.reverse.takeWhile isWhitespace).reverse, (blank_takeWhile _).reverse, ?_, ?_⟩
  · unfold trimEnd
    rw [String.toList_ofList, String.toList_ofList, ← List.reverse_append,
      List.takeWhile_append_dropWhile, List.reverse_reverse]
  · intro c hc
    unfold trimEnd at hc
    rw [String.toList_ofList, String.toList_ofList, List.getLast?_reverse] at hc
    exact head_dropWhile hc

end StateDrivenAgent.Text
