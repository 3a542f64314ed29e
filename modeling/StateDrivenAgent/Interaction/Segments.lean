import Mathlib

/-!
# Lists cut into segments

A kind of segment none of which begins another can be recognised from the left: a list is cut into
such segments in one way at most (`Cut.unique`), and the first segment of a cut is the only one the
list begins with (`Cut.first`).

`Shortest` describes the end of a list that is just heavy enough.
-/

namespace Segments

variable {α β : Type} {P : List α → Prop}

/-- `segments` cuts `l` into segments of the kind `P`. -/
structure Cut (P : List α → Prop) (segments : List (List α)) (l : List α) : Prop where
  whole : segments.flatten = l
  each : ∀ g ∈ segments, P g

/-- No segment is empty and none is the beginning of another one. -/
structure PrefixFree (P : List α → Prop) : Prop where
  ne_nil : ∀ {g}, P g → g ≠ []
  eq_of_prefix : ∀ {g g'}, P g → P g' → g <+: g' → g = g'

namespace Cut

variable {g : List α} {segments segments' : List (List α)} {l : List α}

theorem nil : Cut P [] [] := ⟨rfl, by simp⟩

theorem cons (hg : P g) (h : Cut P segments l) : Cut P (g :: segments) (g ++ l) := by
  refine ⟨by rw [List.flatten_cons, h.whole], ?_⟩
  intro g' hg'
  rcases List.mem_cons.mp hg' with rfl | hg'
  · exact hg
  · exact h.each g' hg'

theorem append {l' : List α} (h : Cut P segments l) (h' : Cut P segments' l') :
    Cut P (segments ++ segments') (l ++ l') := by
  refine ⟨by rw [List.flatten_append, h.whole, h'.whole], ?_⟩
  intro g hg
  rcases List.mem_append.mp hg with hg | hg
  · exact h.each g hg
  · exact h'.each g hg

theorem head (h : Cut P (g :: segments) l) : P g := h.each g (by simp)

theorem tail (h : Cut P (g :: segments) l) : Cut P segments (l.drop g.length) := by
  refine ⟨?_, fun g' hg' => h.each g' (by simp [hg'])⟩
  rw [← h.whole, List.flatten_cons, List.drop_left]

theorem eq_append (h : Cut P (g :: segments) l) : l = g ++ l.drop g.length := by
  rw [← h.tail.whole, ← h.whole, List.flatten_cons]

/-- The empty list is cut into nothing. -/
theorem eq_nil (hP : PrefixFree P) (h : Cut P segments []) : segments = [] := by
  cases segments with
  | nil => rfl
  | cons g segments =>
    have hflat := h.whole
    rw [List.flatten_cons, List.append_eq_nil_iff] at hflat
    exact absurd hflat.1 (hP.ne_nil h.head)

/-- Two segments a list begins with are the same. -/
theorem first (hP : PrefixFree P) {g' : List α} (hg : P g) (hg' : P g') (hl : g <+: l)
    (hl' : g' <+: l) : g = g' := by
  rcases List.prefix_or_prefix_of_prefix hl hl' with h | h
  · exact hP.eq_of_prefix hg hg' h
  · exact (hP.eq_of_prefix hg' hg h).symm

/-- A list is cut in one way at most. -/
theorem unique (hP : PrefixFree P) (h : Cut P segments l) (h' : Cut P segments' l) :
    segments = segments' := by
  induction segments generalizing segments' l with
  | nil =>
    obtain rfl : [] = l := h.whole
    exact (h'.eq_nil hP).symm
  | cons g segments ih =>
    cases segments' with
    | nil =>
      obtain rfl : [] = l := h'.whole
      exact absurd (h.eq_nil hP) (by simp)
    | cons g' segments' =>
      have hg : g = g' := first hP h.head h'.head ⟨_, h.eq_append.symm⟩ ⟨_, h'.eq_append.symm⟩
      subst hg
      rw [ih h.tail h'.tail]

/-- A list that begins with a segment can be cut exactly if the rest can. -/
theorem exists_append_iff (hP : PrefixFree P) (hg : P g) :
    (∃ segments, Cut P segments (g ++ l)) ↔ ∃ segments, Cut P segments l := by
  constructor
  · rintro ⟨segments, h⟩
    cases segments with
    | nil =>
      have hnil := h.whole
      rw [List.flatten_nil] at hnil
      exact absurd (List.append_eq_nil_iff.mp hnil.symm).1 (hP.ne_nil hg)
    | cons g' segments =>
      have hsame : g = g' :=
        first hP hg h.head (List.prefix_append g l) ⟨_, h.eq_append.symm⟩
      subst hsame
      refine ⟨segments, ?_⟩
      have htail := h.tail
      rwa [List.drop_left] at htail
  · rintro ⟨segments, h⟩
    exact ⟨g :: segments, h.cons hg⟩

/-- A list that can be cut begins with a segment. -/
theorem exists_head {x : α} (h : ∃ segments, Cut P segments (x :: l)) :
    ∃ g, P g ∧ g <+: x :: l := by
  obtain ⟨segments, h⟩ := h
  cases segments with
  | nil => cases h.whole
  | cons g segments => exact ⟨g, h.head, _, h.eq_append.symm⟩

/-- Cutting commutes with a map that keeps the kind of the segments. -/
theorem map {Q : List β → Prop} {f : α → β} (hf : ∀ g, P g → Q (g.map f))
    (h : Cut P segments l) : Cut Q (segments.map (List.map f)) (l.map f) := by
  refine ⟨by rw [← List.map_flatten, h.whole], ?_⟩
  intro g' hg'
  obtain ⟨g, hg, rfl⟩ := List.mem_map.mp hg'
  exact hf g (h.each g hg)

/-- A cut of the image is the image of a cut. -/
theorem of_map {Q : List β → Prop} {f : α → β} (hf : ∀ g, Q (g.map f) → P g)
    {images : List (List β)} (h : Cut Q images (l.map f)) :
    ∃ segments, Cut P segments l ∧ segments.map (List.map f) = images := by
  induction images generalizing l with
  | nil =>
    obtain rfl : l = [] := List.map_eq_nil_iff.mp h.whole.symm
    exact ⟨[], nil, rfl⟩
  | cons g images ih =>
    obtain ⟨front, back, rfl, hfront, hback⟩ := List.map_eq_append_iff.mp h.eq_append
    have htail : Cut Q images (back.map f) := by
      rw [hback]
      exact h.tail
    obtain ⟨segments, hsegments, himages⟩ := ih htail
    refine ⟨front :: segments, hsegments.cons (hf front ?_), by rw [List.map_cons, hfront, himages]⟩
    rw [hfront]
    exact h.head

end Cut

/-- What holds of corresponding segments, and of two lists put together, holds of the lists. -/
theorem flatten_of_forall₂ {Q : List α → List β → Prop} (hnil : Q [] [])
    (happend : ∀ {a a' b b'}, Q a b → Q a' b' → Q (a ++ a') (b ++ b'))
    {segments : List (List α)} {segments' : List (List β)} (h : List.Forall₂ Q segments segments') :
    Q segments.flatten segments'.flatten := by
  induction h with
  | nil => exact hnil
  | cons hg _ ih => exact happend hg ih

/-! ## The shortest end that is heavy enough -/

/-- `rest` is the shortest end of `front ++ rest` that weighs `least`, or the whole list when that
weighs less. -/
structure Shortest (weight : β → Nat) (least : Nat) (front rest : List β) : Prop where
  enough : front = [] ∨ least ≤ (rest.map weight).sum
  minimal : ∀ short, short <:+ rest → short ≠ rest → (short.map weight).sum < least

namespace Shortest

variable {weight : β → Nat} {least : Nat} {front rest : List β} {b : β}

/-- An end that still lacks something may take one more. -/
theorem minimal_cons (h : ∀ short, short <:+ rest → short ≠ rest → (short.map weight).sum < least)
    (hlack : (rest.map weight).sum < least) :
    ∀ short, short <:+ b :: rest → short ≠ b :: rest → (short.map weight).sum < least := by
  intro short hshort hne
  rcases List.suffix_cons_iff.mp hshort with rfl | hshort
  · exact absurd rfl hne
  · by_cases heq : short = rest
    · rw [heq]
      exact hlack
    · exact h short hshort heq

end Shortest

end Segments
