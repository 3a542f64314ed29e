import StateDrivenAgent.Interaction.Program

/-!
# Answering a program

`Monitor.follow` runs a program against answers that may depend on the ghost state and on the number
of effects before; an effect without an answer stops it. Where every answer is one the environment
may give, the run is allowed, so that a history is found by computing it.

What a program owes does not change which histories there are (`Serves.owing`), so a history can be
taken from one monitor to another with other obligations.
-/

namespace Interaction

namespace Monitor

variable {E : Type} {R : E → Type} {G α : Type} {M : Monitor E R G}

/-- The run with the given answers: its events and what is left when `fuel` effects are over. -/
def follow (M : Monitor E R G) (answer : Nat → G → (e : E) → Option (R e)) :
    Nat → Nat → G → Program E R α → List (Event E R) × Program E R α
  | _, _, _, .ret a => ([], .ret a)
  | 0, _, _, .perform e next => ([], .perform e next)
  | fuel + 1, n, g, .perform e next =>
    match answer n g e with
    | none => ([], .perform e next)
    | some r =>
      let rest := follow M answer fuel (n + 1) (M.next g e r) (next r)
      (⟨e, r⟩ :: rest.1, rest.2)

variable {answer : Nat → G → (e : E) → Option (R e)}

theorem follow_runs (fuel n : Nat) (g : G) (p : Program E R α) :
    p.Runs (M.follow answer fuel n g p).1 (M.follow answer fuel n g p).2 := by
  induction fuel generalizing n g p with
  | zero => cases p <;> exact .nil _
  | succ fuel ih =>
    cases p with
    | ret a => exact .nil _
    | perform e next =>
      unfold follow
      cases answer n g e with
      | none => exact .nil _
      | some r => exact .cons (ih _ _ _)

theorem follow_allowed (h : ∀ n g e r, answer n g e = some r → M.may g e r) (fuel n : Nat) (g : G)
    (p : Program E R α) : M.Allowed g (M.follow answer fuel n g p).1 := by
  induction fuel generalizing n g p with
  | zero => cases p <;> exact trivial
  | succ fuel ih =>
    cases p with
    | ret a => exact trivial
    | perform e next =>
      unfold follow
      cases hr : answer n g e with
      | none => exact trivial
      | some r => exact ⟨h n g e r hr, ih _ _ _⟩

/-! ## Other obligations -/

/-- The monitor with other obligations. -/
def owing (M : Monitor E R G) (must : G → E → Prop) : Monitor E R G := { M with must }

variable {must : G → E → Prop}

theorem after_owing (g : G) (es : List (Event E R)) : (M.owing must).after g es = M.after g es := by
  induction es generalizing g with
  | nil => rfl
  | cons x es ih => exact ih _

theorem allowed_owing (g : G) (es : List (Event E R)) :
    (M.owing must).Allowed g es ↔ M.Allowed g es := by
  induction es generalizing g with
  | nil => rfl
  | cons x es ih => exact and_congr_right fun _ => ih _

theorem Serves.owing {client : G → Program E R α → Prop} {start g : G}
    (h : M.Serves client start g) : (M.owing must).Serves client start g := by
  induction h with
  | start => exact .start
  | @serve g p q es _ hp hr ha ih =>
    have hserve := ih.serve hp hr ((allowed_owing _ _).2 ha)
    rwa [after_owing] at hserve

/-- More requests have more histories. -/
theorem Serves.mono {client client' : G → Program E R α → Prop} {start g : G}
    (h : M.Serves client start g) (hc : ∀ g p, client g p → client' g p) :
    M.Serves client' start g := by
  induction h with
  | start => exact .start
  | serve _ hp hr ha ih => exact ih.serve (hc _ _ hp) hr ha

end Monitor

end Interaction
