import Mathlib.Data.List.Basic

/-!
# Lists that only grow

A list of rows is continued by another if every row of it is still there, at its place, and the row
that is there now is related to it (`Continues`). To rewrite rows and to append rows continues a list,
and so does what a run of such steps leaves (`foldlM_trans`).
-/

namespace Growing

variable {α β ε : Type} {R : α → α → Prop} {xs ys zs : List α}

/-- Every row of `xs` is continued in `ys`, at its place. -/
def Continues (R : α → α → Prop) (xs ys : List α) : Prop :=
  ∀ (i : Nat) x, xs[i]? = some x → ∃ y, ys[i]? = some y ∧ R x y

namespace Continues

theorem refl (hR : ∀ x, R x x) (xs : List α) : Continues R xs xs :=
  fun _ x hx => ⟨x, hx, hR x⟩

theorem trans (hR : ∀ {x y z}, R x y → R y z → R x z) (h : Continues R xs ys)
    (h' : Continues R ys zs) : Continues R xs zs := by
  intro i x hx
  obtain ⟨y, hy, hxy⟩ := h i x hx
  obtain ⟨z, hz, hyz⟩ := h' i y hy
  exact ⟨z, hz, hR hxy hyz⟩

/-- Rows are rewritten. -/
theorem map {f : α → α} (h : ∀ x ∈ xs, R x (f x)) : Continues R xs (xs.map f) := by
  intro i x hx
  refine ⟨f x, ?_, h x (List.mem_of_getElem? hx)⟩
  rw [List.getElem?_map, hx, Option.map_some]

/-- Rows are appended. -/
theorem append (hR : ∀ x, R x x) (xs ys : List α) : Continues R xs (xs ++ ys) := by
  intro i x hx
  refine ⟨x, ?_, hR x⟩
  have hlt := (List.getElem?_eq_some_iff.1 hx).1
  rwa [List.getElem?_append_left hlt]

theorem mem (h : Continues R xs ys) {x : α} (hx : x ∈ xs) : ∃ y ∈ ys, R x y := by
  obtain ⟨i, hi, rfl⟩ := List.getElem_of_mem hx
  obtain ⟨y, hy, hxy⟩ := h i _ (List.getElem?_eq_getElem hi)
  exact ⟨y, List.mem_of_getElem? hy, hxy⟩

end Continues

/-- Rewriting that leaves the keys alone. -/
theorem map_key {key : α → β} {f : α → α} (h : ∀ x, key (f x) = key x) (xs : List α) :
    (xs.map f).map key = xs.map key := by
  rw [List.map_map]
  exact List.map_congr_left fun x _ => h x

/-- What every step of a fold keeps, the fold keeps. -/
theorem foldlM_trans {S : β → β → Prop} (hrefl : ∀ b, S b b)
    (htrans : ∀ {a b c}, S a b → S b c → S a c) {f : β → α → Except ε β} {items : List α}
    (hf : ∀ b item b', item ∈ items → f b item = .ok b' → S b b') {b b' : β}
    (h : items.foldlM f b = .ok b') : S b b' := by
  induction items generalizing b with
  | nil =>
    cases h
    exact hrefl _
  | cons item items ih =>
    rw [List.foldlM_cons] at h
    cases hstep : f b item with
    | error e =>
      rw [hstep] at h
      cases h
    | ok c =>
      rw [hstep] at h
      exact htrans (hf b item c List.mem_cons_self hstep)
        (ih (fun b item b' hi => hf b item b' (List.mem_cons_of_mem _ hi)) h)

end Growing
