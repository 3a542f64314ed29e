import StateDrivenAgent.Interaction.Invariant

/-!
# Taking a run apart

A run of one program after another is a run of the first and one of the second (`Runs.of_bind`,
`Proc.runs_bind`). The monitor `history` observes a run by writing it down, so that a postcondition
can speak about the events of every part of a program.
-/

namespace Interaction

variable {E : Type} {R : E → Type}

namespace Program

variable {α β : Type}

theorem Runs.of_bind {p : Program E R α} {k : α → Program E R β} {es : List (Event E R)} {b : β}
    (h : (p >>= k).Runs es (ret b)) : ∃ es₁ a es₂, es = es₁ ++ es₂ ∧ p.Runs es₁ (ret a) ∧
      (k a).Runs es₂ (ret b) := by
  induction p generalizing es with
  | ret a => exact ⟨[], a, es, rfl, .nil _, h⟩
  | perform e next ih =>
    rw [perform_bind] at h
    cases h with
    | @cons _ r _ fs _ h =>
      obtain ⟨es₁, a, es₂, rfl, h₁, h₂⟩ := ih r h
      exact ⟨⟨e, r⟩ :: es₁, a, es₂, rfl, .cons h₁, h₂⟩

/-- The program performs nothing any more. -/
def ended : Program E R α → Bool
  | ret _ => true
  | perform .. => false

theorem runs_of_ended {p : Program E R α} (h : p.ended = true) : ∃ a, p.Runs [] (ret a) := by
  cases p with
  | ret a => exact ⟨a, .nil _⟩
  | perform e next => cases h

end Program

/-! ## Writing the run down -/

/-- Whatever happens is written down. -/
def history : Monitor E R (List (Event E R)) where
  may _ _ _ := True
  must _ _ := True
  next h e r := h ++ [⟨e, r⟩]

theorem history_after (h es : List (Event E R)) : history.after h es = h ++ es := by
  induction es generalizing h with
  | nil => rw [Monitor.after_nil, List.append_nil]
  | cons x es ih =>
    rw [Monitor.after_cons, ih]
    exact List.append_assoc h [x] es

theorem history_allowed (h es : List (Event E R)) : history.Allowed h es := by
  induction es generalizing h with
  | nil => trivial
  | cons x es ih => exact ⟨trivial, ih _⟩

/-- What is written down of a program is a run of it. -/
theorem Program.sat_history {α : Type} (p : Program E R α) (h : List (Event E R)) :
    p.Sat history h fun h' a => ∃ es, h' = h ++ es ∧ p.Runs es (.ret a) := by
  induction p generalizing h with
  | ret a => exact ⟨[], (List.append_nil h).symm, .nil _⟩
  | perform e next ih =>
    refine ⟨trivial, fun r _ => (ih r (h ++ [⟨e, r⟩])).mono fun h' a => ?_⟩
    rintro ⟨es, rfl, hr⟩
    exact ⟨⟨e, r⟩ :: es, List.append_assoc h [⟨e, r⟩] es, .cons hr⟩

namespace Proc

variable {σ ε α β : Type}

/-- A run of two programs: the first one fails, or the second one follows. -/
theorem runs_bind {f : Proc E R σ ε α} {k : α → Proc E R σ ε β} {s s' : σ} {es : List (Event E R)}
    {out : Except ε β} (h : ((f >>= k) s).Runs es (.ret (out, s'))) :
    (∃ x, out = .error x ∧ (f s).Runs es (.ret (.error x, s'))) ∨
      ∃ a s₁ es₁ es₂, es = es₁ ++ es₂ ∧ (f s).Runs es₁ (.ret (.ok a, s₁)) ∧
        (k a s₁).Runs es₂ (.ret (out, s')) := by
  obtain ⟨es₁, ⟨first, s₁⟩, es₂, rfl, h₁, h₂⟩ := Program.Runs.of_bind (p := f s) h
  cases first with
  | error x =>
    cases h₂
    exact .inl ⟨x, rfl, by rwa [List.append_nil]⟩
  | ok a => exact .inr ⟨a, s₁, es₁, es₂, rfl, h₁, h₂⟩

variable {f : Proc E R σ ε α} {s s' : σ} {h es : List (Event E R)}
  {post : List (Event E R) → σ → α → Prop} {err : List (Event E R) → σ → ε → Prop}

/-- A run that succeeds. -/
theorem Sat.ok_of_run (hs : Sat history f h s post err) {a : α}
    (hr : (f s).Runs es (.ret (.ok a, s'))) : post (h ++ es) s' a := by
  have hpost := Program.Sat.post_of_run hs hr (history_allowed h es)
  rwa [history_after] at hpost

/-- A run that fails. -/
theorem Sat.error_of_run (hs : Sat history f h s post err) {x : ε}
    (hr : (f s).Runs es (.ret (.error x, s'))) : err (h ++ es) s' x := by
  have hpost := Program.Sat.post_of_run hs hr (history_allowed h es)
  rwa [history_after] at hpost

end Proc

end Interaction
