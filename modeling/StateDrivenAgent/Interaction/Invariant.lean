import StateDrivenAgent.Interaction.Program

/-!
# Programs that keep an invariant

`Keeps M I f`: `f` meets its obligations from every state with `I`, and reaches only states with `I`,
also when it fails; `Leads M I J f`: it reaches states with `J` when it fails. The rules follow the constructions of a `Proc`, so that a program whose steps keep
an invariant keeps it.
-/

namespace Interaction

namespace Proc

variable {E : Type} {R : E → Type} {G σ ε α β : Type} {M : Monitor E R G} {I J : G → σ → Prop}

theorem state_bind_apply (k : σ → Proc E R σ ε β) (s : σ) : (state >>= k) s = k s s := rfl

theorem sat_state_bind {k : σ → Proc E R σ ε β} {g : G} {s : σ} {post : G → σ → β → Prop}
    {err : G → σ → ε → Prop} :
    Sat M (state >>= k) g s post err ↔ Sat M (k s) g s post err := Iff.rfl

theorem sat_update_bind {f : σ → σ} {k : Unit → Proc E R σ ε β} {g : G} {s : σ}
    {post : G → σ → β → Prop} {err : G → σ → ε → Prop} :
    Sat M (update f >>= k) g s post err ↔ Sat M (k ()) g (f s) post err := Iff.rfl

/-- The program keeps `I`. -/
def Keeps (M : Monitor E R G) (I : G → σ → Prop) (f : Proc E R σ ε α) : Prop :=
  ∀ g s, I g s → Sat M f g s (fun g' s' _ => I g' s') fun g' s' _ => I g' s'

theorem keeps_pure (a : α) : Keeps M I (pure a : Proc E R σ ε α) := fun _ _ h => h

theorem keeps_fail (x : ε) : Keeps M I (fail x : Proc E R σ ε α) := fun _ _ h => h

theorem keeps_state : Keeps M I (state : Proc E R σ ε σ) := fun _ _ h => h

theorem keeps_update {f : σ → σ} (hf : ∀ g s, I g s → I g (f s)) :
    Keeps M I (update f : Proc E R σ ε Unit) := fun g s h => hf g s h

theorem keeps_swap {f : σ → α × σ} (hf : ∀ g s, I g s → I g (f s).2) :
    Keeps M I (swap f : Proc E R σ ε α) := fun g s h => hf g s h

theorem keeps_request {e : E}
    (he : ∀ g s, I g s → M.must g e ∧ ∀ r, M.may g e r → I (M.next g e r) s) :
    Keeps M I (request e : Proc E R σ ε (R e)) := fun g s h => (sat_request e).2 (he g s h)

theorem keeps_ofExcept (x : Except ε α) : Keeps M I (ofExcept x : Proc E R σ ε α) := by
  cases x with
  | ok a => exact keeps_pure a
  | error x => exact keeps_fail x

theorem keeps_bind {f : Proc E R σ ε α} {k : α → Proc E R σ ε β} (hf : Keeps M I f)
    (hk : ∀ a, Keeps M I (k a)) : Keeps M I (f >>= k) := fun g s h =>
  sat_bind.2 ((hf g s h).mono_post fun g' s' a h' => hk a g' s' h')

/-- A program that keeps `I`, before one with other ends. -/
theorem Keeps.sat_bind {f : Proc E R σ ε α} {k : α → Proc E R σ ε β} (hf : Keeps M I f) {g : G} {s : σ}
    (h : I g s) {post : G → σ → β → Prop} {err : G → σ → ε → Prop}
    (herr : ∀ g s x, I g s → err g s x) (hk : ∀ a g s, I g s → Sat M (k a) g s post err) :
    Sat M (f >>= k) g s post err :=
  Proc.sat_bind.2 ((hf g s h).mono (fun g s a h => hk a g s h) fun g s x h => herr g s x h)

theorem keeps_attempt {f : Proc E R σ ε α} (hf : Keeps M I f) : Keeps M I (attempt f) :=
  fun g s h => sat_attempt.2 (hf g s h)

theorem keeps_ofExcept_bind {x : Except ε α} {k : α → Proc E R σ ε β}
    (hk : ∀ a, x = .ok a → Keeps M I (k a)) : Keeps M I (ofExcept x >>= k) := by
  cases x with
  | ok a => exact hk a rfl
  | error x => exact keeps_fail x

/-! ## Two exits -/

/-- The program keeps `I` when it succeeds, and leaves `J` when it fails. -/
def Leads (M : Monitor E R G) (I J : G → σ → Prop) (f : Proc E R σ ε α) : Prop :=
  ∀ g s, I g s → Sat M f g s (fun g' s' _ => I g' s') fun g' s' _ => J g' s'

theorem Keeps.leads {f : Proc E R σ ε α} (hf : Keeps M I f) (h : ∀ g s, I g s → J g s) :
    Leads M I J f := fun g s hg => (hf g s hg).mono (fun _ _ _ => id) fun g s _ => h g s

theorem leads_bind {f : Proc E R σ ε α} {k : α → Proc E R σ ε β} (hf : Leads M I J f)
    (hk : ∀ a, Leads M I J (k a)) : Leads M I J (f >>= k) := fun g s h =>
  sat_bind.2 ((hf g s h).mono_post fun g' s' a h' => hk a g' s' h')

theorem leads_ofExcept_bind {x : Except ε α} {k : α → Proc E R σ ε β} (h : ∀ g s, I g s → J g s)
    (hk : ∀ a, x = .ok a → Leads M I J (k a)) : Leads M I J (ofExcept x >>= k) := by
  cases x with
  | ok a => exact hk a rfl
  | error x => exact (keeps_fail x).leads h

/-! ## Values -/

/-- The program keeps `I`, and its value satisfies `P`. -/
def Yields (M : Monitor E R G) (I : G → σ → Prop) (P : G → σ → α → Prop) (f : Proc E R σ ε α) :
    Prop :=
  ∀ g s, I g s → Sat M f g s (fun g' s' a => I g' s' ∧ P g' s' a) fun g' s' _ => I g' s'

variable {P : G → σ → β → Prop}

theorem yields_pure {b : β} (h : ∀ g s, I g s → P g s b) :
    Yields M I P (pure b : Proc E R σ ε β) := fun g s hg => ⟨hg, h g s hg⟩

theorem yields_bind {f : Proc E R σ ε α} {k : α → Proc E R σ ε β} (hf : Keeps M I f)
    (hk : ∀ a, Yields M I P (k a)) : Yields M I P (f >>= k) := fun g s h =>
  sat_bind.2 ((hf g s h).mono_post fun g' s' a h' => hk a g' s' h')

end Proc

end Interaction
