import Mathlib.Data.Sigma.Basic

/-!
# Programs that interact with an environment

A `Program E R α` performs effects `e : E`, is answered with a reply of type `R e`, and ends with a
value of type `α`. It is a finite tree: what the program does next depends on the replies, and a run
of it (`Runs`) picks one reply after another. A run may stop anywhere, so a property of every run is
a property of every point at which the program can be cut off.

A `Monitor` watches a program through a ghost state: it says which replies the environment promises
(`may`), what the program owes when it performs an effect (`must`), and how the ghost state moves
(`next`). `Program.Sat` is the weakest precondition of a program under a monitor, by recursion on
the tree; it composes (`sat_bind`) and is sound for every run (`Sat.run`).

`Proc` adds a state the program updates and that survives a failure, with the same rules.
-/

namespace Interaction

/-- A program over effects `E` with replies `R`. -/
inductive Program (E : Type) (R : E → Type) (α : Type) : Type
  | ret (a : α)
  | perform (e : E) (next : R e → Program E R α)

/-- One performed effect with the reply it got. -/
abbrev Event (E : Type) (R : E → Type) : Type := Σ e : E, R e

variable {E : Type} {R : E → Type} {G : Type}

namespace Program

variable {α β γ : Type}

/-- Sequencing: the second program starts from the value the first one ends with. -/
def bind : Program E R α → (α → Program E R β) → Program E R β
  | ret a, k => k a
  | perform e next, k => perform e fun r => (next r).bind k

instance : Monad (Program E R) where
  pure := ret
  bind := bind

/-- The program that performs one effect and returns its reply. -/
def request (e : E) : Program E R (R e) := perform e ret

@[simp] theorem pure_eq (a : α) : (Pure.pure a : Program E R α) = ret a := rfl

@[simp] theorem ret_bind (a : α) (k : α → Program E R β) : (ret a >>= k) = k a := rfl

@[simp] theorem perform_bind (e : E) (next : R e → Program E R α) (k : α → Program E R β) :
    (perform e next >>= k) = perform e fun r => next r >>= k := rfl

@[simp] theorem request_bind (e : E) (k : R e → Program E R β) :
    (request e >>= k) = perform e k := rfl

theorem bind_assoc (p : Program E R α) (k : α → Program E R β) (l : β → Program E R γ) :
    (p >>= k) >>= l = p >>= fun a => k a >>= l := by
  induction p with
  | ret a => rfl
  | perform e next ih =>
    simp only [perform_bind]
    congr 1
    funext r
    exact ih r

/-- `p.Runs es q`: `p` can perform the effects `es` with these replies and is then at `q`. -/
inductive Runs : Program E R α → List (Event E R) → Program E R α → Prop
  | nil (p : Program E R α) : Runs p [] p
  | cons {e : E} {r : R e} {next : R e → Program E R α} {es : List (Event E R)}
      {q : Program E R α} : Runs (next r) es q → Runs (perform e next) (⟨e, r⟩ :: es) q

namespace Runs

theorem append {p q s : Program E R α} {es fs : List (Event E R)} (h : Runs p es q)
    (h' : Runs q fs s) : Runs p (es ++ fs) s := by
  induction h with
  | nil p => exact h'
  | cons _ ih => exact .cons (ih h')

theorem single {e : E} (r : R e) (next : R e → Program E R α) :
    Runs (perform e next) [⟨e, r⟩] (next r) := .cons (.nil _)

end Runs

/-- Plays a program against an oracle that answers the `n`-th effect; returns the events and what
is left of the program when `fuel` effects are over. -/
def play (oracle : Nat → (e : E) → R e) : Nat → Program E R α → Nat →
    List (Event E R) × Program E R α
  | _, ret a, _ => ([], ret a)
  | 0, p, _ => ([], p)
  | fuel + 1, perform e next, n =>
    let rest := play oracle fuel (next (oracle n e)) (n + 1)
    (⟨e, oracle n e⟩ :: rest.1, rest.2)

/-- Playing a program is one of its runs. -/
theorem runs_play (oracle : Nat → (e : E) → R e) (fuel : Nat) (p : Program E R α) (n : Nat) :
    Runs p (play oracle fuel p n).1 (play oracle fuel p n).2 := by
  induction fuel generalizing p n with
  | zero => cases p <;> exact .nil _
  | succ fuel ih =>
    cases p with
    | ret a => exact .nil _
    | perform e next => exact .cons (ih _ _)

end Program

/-- A ghost observer of a program: what the environment promises about its replies, what the
program owes at each effect, and how the ghost state moves. -/
structure Monitor (E : Type) (R : E → Type) (G : Type) where
  may : G → (e : E) → R e → Prop
  must : G → E → Prop
  next : G → (e : E) → R e → G

namespace Monitor

variable (M : Monitor E R G)

/-- The ghost state after the events `es`. -/
def after (g : G) : List (Event E R) → G
  | [] => g
  | ⟨e, r⟩ :: es => after (M.next g e r) es

/-- Every reply of `es` is one the environment may give. -/
def Allowed (g : G) : List (Event E R) → Prop
  | [] => True
  | ⟨e, r⟩ :: es => M.may g e r ∧ Allowed (M.next g e r) es

/-- Every effect of `es` met its obligation when it was performed. -/
def Kept (g : G) : List (Event E R) → Prop
  | [] => True
  | ⟨e, r⟩ :: es => M.must g e ∧ Kept (M.next g e r) es

instance decidableAllowed [∀ g e r, Decidable (M.may g e r)] :
    ∀ (g : G) (es : List (Event E R)), Decidable (M.Allowed g es)
  | _, [] => isTrue trivial
  | g, ⟨e, r⟩ :: es =>
    let _ := decidableAllowed (M.next g e r) es
    inferInstanceAs (Decidable (M.may g e r ∧ M.Allowed (M.next g e r) es))

@[simp] theorem after_nil (g : G) : M.after g [] = g := rfl

@[simp] theorem after_cons (g : G) (e : E) (r : R e) (es : List (Event E R)) :
    M.after g (⟨e, r⟩ :: es) = M.after (M.next g e r) es := rfl

theorem after_append (g : G) (es fs : List (Event E R)) :
    M.after g (es ++ fs) = M.after (M.after g es) fs := by
  induction es generalizing g with
  | nil => rfl
  | cons x es ih => exact ih _

theorem allowed_append (g : G) (es fs : List (Event E R)) :
    M.Allowed g (es ++ fs) ↔ M.Allowed g es ∧ M.Allowed (M.after g es) fs := by
  induction es generalizing g with
  | nil => simp [Allowed]
  | cons x es ih => simp only [List.cons_append, Allowed, after, ih, and_assoc]

theorem kept_append (g : G) (es fs : List (Event E R)) :
    M.Kept g (es ++ fs) ↔ M.Kept g es ∧ M.Kept (M.after g es) fs := by
  induction es generalizing g with
  | nil => simp [Kept]
  | cons x es ih => simp only [List.cons_append, Kept, after, ih, and_assoc]

end Monitor

namespace Program

variable {α β : Type} {M : Monitor E R G}

/-- The weakest precondition of a program: every effect it performs meets its obligation, whatever
the environment may reply, and it ends in `post`. -/
def Sat (M : Monitor E R G) : Program E R α → G → (G → α → Prop) → Prop
  | ret a, g, post => post g a
  | perform e next, g, post =>
    M.must g e ∧ ∀ r, M.may g e r → (next r).Sat M (M.next g e r) post

@[simp] theorem sat_ret (a : α) (g : G) (post : G → α → Prop) :
    (ret a : Program E R α).Sat M g post ↔ post g a := Iff.rfl

@[simp] theorem sat_perform (e : E) (next : R e → Program E R α) (g : G) (post : G → α → Prop) :
    (perform e next).Sat M g post ↔
      M.must g e ∧ ∀ r, M.may g e r → (next r).Sat M (M.next g e r) post := Iff.rfl

theorem Sat.mono {p : Program E R α} {g : G} {post post' : G → α → Prop} (h : p.Sat M g post)
    (hp : ∀ g a, post g a → post' g a) : p.Sat M g post' := by
  induction p generalizing g with
  | ret a => exact hp _ _ h
  | perform e next ih => exact ⟨h.1, fun r hr => ih r (h.2 r hr)⟩

theorem sat_bind {p : Program E R α} {k : α → Program E R β} {g : G} {post : G → β → Prop} :
    (p >>= k).Sat M g post ↔ p.Sat M g fun g' a => (k a).Sat M g' post := by
  induction p generalizing g with
  | ret a => rfl
  | perform e next ih =>
    simp only [perform_bind, sat_perform]
    exact and_congr_right fun _ => forall_congr' fun r => imp_congr_right fun _ => ih r

/-- A program meets its obligations along every run, and what is left of it still does. -/
theorem Sat.run {p q : Program E R α} {g : G} {post : G → α → Prop} {es : List (Event E R)}
    (h : p.Sat M g post) (hr : p.Runs es q) (ha : M.Allowed g es) :
    M.Kept g es ∧ q.Sat M (M.after g es) post := by
  induction hr generalizing g with
  | nil p => exact ⟨trivial, h⟩
  | cons _ ih =>
    obtain ⟨hk, hq⟩ := ih (h.2 _ ha.1) ha.2
    exact ⟨⟨h.1, hk⟩, hq⟩

/-- A run that ends delivers the postcondition. -/
theorem Sat.post_of_run {p : Program E R α} {a : α} {g : G} {post : G → α → Prop}
    {es : List (Event E R)} (h : p.Sat M g post) (hr : p.Runs es (ret a)) (ha : M.Allowed g es) :
    post (M.after g es) a := (h.run hr ha).2

end Program

/-! ## Programs one after another -/

namespace Monitor

variable {α : Type} {M : Monitor E R G}

/-- What every reply the environment may give to a permitted effect keeps. -/
def Stable (M : Monitor E R G) (S : G → Prop) : Prop :=
  ∀ g e r, S g → M.must g e → M.may g e r → S (M.next g e r)

theorem Stable.after {S : G → Prop} (hS : M.Stable S) {g : G} {es : List (Event E R)} (hg : S g)
    (hk : M.Kept g es) (ha : M.Allowed g es) : S (M.after g es) := by
  induction es generalizing g with
  | nil => exact hg
  | cons x es ih => exact ih (hS _ _ _ hg hk.1 ha.1) hk.2 ha.2

/-- An event that was kept met its obligation in some ghost state. -/
theorem Kept.mem {g : G} {es : List (Event E R)} (hk : M.Kept g es) {e : E} {r : R e}
    (h : ⟨e, r⟩ ∈ es) : ∃ g', M.must g' e := by
  induction es generalizing g with
  | nil => cases h
  | cons x es ih =>
    rcases List.mem_cons.mp h with rfl | h
    · exact ⟨g, hk.1⟩
    · exact ih hk.2 h

/-- An event that is allowed was allowed in some ghost state. -/
theorem Allowed.mem {g : G} {es : List (Event E R)} (ha : M.Allowed g es) {e : E} {r : R e}
    (h : ⟨e, r⟩ ∈ es) : ∃ g', M.may g' e r := by
  induction es generalizing g with
  | nil => cases h
  | cons x es ih =>
    rcases List.mem_cons.mp h with rfl | h
    · exact ⟨g, ha.1⟩
    · exact ih ha.2 h

/-- Programs are served one after another, and each of them may be cut off anywhere. Which ones may
come next depends on the ghost state. -/
inductive Serves (M : Monitor E R G) (client : G → Program E R α → Prop) (start : G) : G → Prop
  | start : Serves M client start start
  | serve {g : G} {p q : Program E R α} {es : List (Event E R)} (h : Serves M client start g)
      (hp : client g p) (hr : p.Runs es q) (ha : M.Allowed g es) :
      Serves M client start (M.after g es)

section Serves

variable {client : G → Program E R α → Prop} {start g : G} {S : G → Prop}

/-- A stable property under which every client meets its obligations holds throughout. -/
theorem Serves.stable (hS : M.Stable S)
    (hc : ∀ g p, S g → client g p → p.Sat M g fun _ _ => True) (h₀ : S start)
    (h : M.Serves client start g) : S g := by
  induction h with
  | start => exact h₀
  | serve _ hp hr ha ih => exact hS.after ih ((hc _ _ ih hp).run hr ha).1 ha

/-- And every client that is served then meets its obligations. -/
theorem Serves.kept (hS : M.Stable S)
    (hc : ∀ g p, S g → client g p → p.Sat M g fun _ _ => True) (h₀ : S start)
    (h : M.Serves client start g) {p q : Program E R α} {es : List (Event E R)}
    (hp : client g p) (hr : p.Runs es q) (ha : M.Allowed g es) : M.Kept g es :=
  ((hc _ _ (h.stable hS hc h₀) hp).run hr ha).1

end Serves

end Monitor

/-! ## Programs over a state that survives failure -/

/-- A program over a mutable state `σ` that can fail with `ε`; the state reached at a failure is
kept, as with a Rust function that takes `&mut σ` and returns a `Result`. -/
def Proc (E : Type) (R : E → Type) (σ ε : Type) (α : Type) : Type :=
  σ → Program E R (Except ε α × σ)

namespace Proc

variable {σ ε : Type} {α β : Type}

protected def pure (a : α) : Proc E R σ ε α := fun s => .ret (.ok a, s)

protected def bind (f : Proc E R σ ε α) (k : α → Proc E R σ ε β) : Proc E R σ ε β := fun s =>
  (f s).bind fun out => match out with
    | (.ok a, s') => k a s'
    | (.error x, s') => .ret (.error x, s')

instance : Monad (Proc E R σ ε) where
  pure := Proc.pure
  bind := Proc.bind

/-- Fail with `x`, as `return Err(x)`. -/
def fail (x : ε) : Proc E R σ ε α := fun s => .ret (.error x, s)

/-- Read the state. -/
def state : Proc E R σ ε σ := fun s => .ret (.ok s, s)

/-- Update the state. -/
def update (f : σ → σ) : Proc E R σ ε Unit := fun s => .ret (.ok ⟨⟩, f s)

/-- Update the state and return a value computed from the old one. -/
def swap (f : σ → α × σ) : Proc E R σ ε α := fun s => .ret (.ok (f s).1, (f s).2)

/-- Update the state and succeed or fail. -/
def step (f : σ → Except ε α × σ) : Proc E R σ ε α := fun s => .ret (f s)

/-- Perform one effect. -/
def request {E : Type} {R : E → Type} {σ ε : Type} (e : E) : Proc E R σ ε (R e) :=
  fun s => .perform e fun r => .ret (.ok r, s)

/-- Run a program that does not touch the state. -/
def lift (p : Program E R α) : Proc E R σ ε α := fun s => p.bind fun a => .ret (.ok a, s)

/-- The value of an `Except`, or its failure. -/
def ofExcept (x : Except ε α) : Proc E R σ ε α := fun s => .ret (x, s)

/-- Run `f` and return its outcome instead of failing, as a `match` on the `Result`. -/
def attempt (f : Proc E R σ ε α) : Proc E R σ ε (Except ε α) := fun s =>
  (f s).bind fun out => .ret (.ok out.1, out.2)

/-- Weakest precondition of a `Proc`: `post` on success, `err` on failure. -/
def Sat (M : Monitor E R G) (f : Proc E R σ ε α) (g : G) (s : σ) (post : G → σ → α → Prop)
    (err : G → σ → ε → Prop) : Prop :=
  (f s).Sat M g fun g' out => match out with
    | (.ok a, s') => post g' s' a
    | (.error x, s') => err g' s' x

variable {M : Monitor E R G} {g : G} {s : σ} {post : G → σ → α → Prop} {err : G → σ → ε → Prop}

@[simp] theorem sat_pure (a : α) :
    Sat M (Pure.pure a : Proc E R σ ε α) g s post err ↔ post g s a := Iff.rfl

@[simp] theorem sat_fail (x : ε) :
    Sat M (fail x : Proc E R σ ε α) g s post err ↔ err g s x := Iff.rfl

@[simp] theorem sat_state {post : G → σ → σ → Prop} :
    Sat M (state : Proc E R σ ε σ) g s post err ↔ post g s s := Iff.rfl

@[simp] theorem sat_update (f : σ → σ) {post : G → σ → Unit → Prop} :
    Sat M (update f : Proc E R σ ε Unit) g s post err ↔ post g (f s) ⟨⟩ := Iff.rfl

@[simp] theorem sat_swap (f : σ → α × σ) :
    Sat M (swap f : Proc E R σ ε α) g s post err ↔ post g (f s).2 (f s).1 := Iff.rfl

theorem sat_step {f : σ → Except ε α × σ}
    (hp : ∀ a, (f s).1 = .ok a → post g (f s).2 a)
    (he : ∀ x, (f s).1 = .error x → err g (f s).2 x) :
    Sat M (step f : Proc E R σ ε α) g s post err := by
  show match f s with
    | (.ok a, s') => post g s' a
    | (.error x, s') => err g s' x
  split
  next a s' h => simpa [h] using hp a (by rw [h])
  next x s' h => simpa [h] using he x (by rw [h])

@[simp] theorem sat_request (e : E) {post : G → σ → R e → Prop} :
    Sat M (request e : Proc E R σ ε (R e)) g s post err ↔
      M.must g e ∧ ∀ r, M.may g e r → post (M.next g e r) s r := Iff.rfl

@[simp] theorem sat_ofExcept_ok (a : α) :
    Sat M (ofExcept (.ok a) : Proc E R σ ε α) g s post err ↔ post g s a := Iff.rfl

@[simp] theorem sat_ofExcept_error (x : ε) :
    Sat M (ofExcept (.error x) : Proc E R σ ε α) g s post err ↔ err g s x := Iff.rfl

theorem sat_bind {f : Proc E R σ ε α} {k : α → Proc E R σ ε β} {post : G → σ → β → Prop} :
    Sat M (f >>= k) g s post err ↔ Sat M f g s (fun g' s' a => Sat M (k a) g' s' post err) err := by
  show ((f s) >>= _).Sat M g _ ↔ _
  rw [Program.sat_bind]
  refine ⟨fun h => h.mono ?_, fun h => h.mono ?_⟩
  all_goals rintro g' ⟨_ | a, s'⟩ h' <;> exact h'

theorem sat_lift {p : Program E R α} :
    Sat M (lift p : Proc E R σ ε α) g s post err ↔ p.Sat M g fun g' a => post g' s a := by
  show (p >>= _).Sat M g _ ↔ _
  rw [Program.sat_bind]
  rfl

theorem sat_attempt {f : Proc E R σ ε α} {post : G → σ → Except ε α → Prop} :
    Sat M (attempt f) g s post err ↔
      Sat M f g s (fun g' s' a => post g' s' (.ok a)) (fun g' s' x => post g' s' (.error x)) := by
  show ((f s) >>= _).Sat M g _ ↔ _
  rw [Program.sat_bind]
  refine ⟨fun h => h.mono ?_, fun h => h.mono ?_⟩
  all_goals rintro g' ⟨_ | a, s'⟩ h' <;> exact h'

/-- Consequence rule. -/
theorem Sat.mono {f : Proc E R σ ε α} {post' : G → σ → α → Prop} {err' : G → σ → ε → Prop}
    (h : Sat M f g s post err) (hp : ∀ g s a, post g s a → post' g s a)
    (he : ∀ g s x, err g s x → err' g s x) : Sat M f g s post' err' :=
  Program.Sat.mono h fun
    | _, (.ok _, _), h' => hp _ _ _ h'
    | _, (.error _, _), h' => he _ _ _ h'

/-- The failure postcondition alone can be weakened. -/
theorem Sat.mono_post {f : Proc E R σ ε α} {post' : G → σ → α → Prop}
    (h : Sat M f g s post err) (hp : ∀ g s a, post g s a → post' g s a) :
    Sat M f g s post' err := h.mono hp fun _ _ _ => id

end Proc

end Interaction
