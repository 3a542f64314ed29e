import Mathlib.Logic.Relation
import StateDrivenAgent.Interaction.Program

/-!
# Threads over a shared state

A pool is a shared state with the threads that work on it. A thread is a program with what it has
done so far; a step lets one thread perform its next effect atomically, lets a new thread start, or
lets the shared state drift by itself. An effect is a relation, so that it may fail, or succeed and
have its answer lost. A thread that is never scheduled again has crashed.

The rules reduce a property of every run of a pool to one effect at a time: an invariant of the
shared state is preserved by a run if every effect and the drift preserve it (`Run.inv`), and under
such an invariant a thread that starts later satisfies what its program satisfies under the replies
states of the invariant can give (`Run.sat`).
-/

namespace Interaction

variable {E : Type} {R : E → Type} {S α : Type}

/-- A thread: where it started, what it did, and what is left of it. -/
structure Thread (E : Type) (R : E → Type) (α : Type) where
  start : Program E R α
  events : List (Event E R)
  rest : Program E R α

/-- A thread that has done nothing yet. -/
def Thread.fresh (p : Program E R α) : Thread E R α := ⟨p, [], p⟩

structure Pool (E : Type) (R : E → Type) (S α : Type) where
  shared : S
  threads : List (Thread E R α)

/-- What a pool runs on: the meaning of an effect, the moves of the shared state that no thread
makes, and the programs that may start. -/
structure Machine (E : Type) (R : E → Type) (S α : Type) where
  exec : (e : E) → S → R e → S → Prop
  drift : S → S → Prop
  client : Program E R α → Prop

variable {K : Machine E R S α}

/-- Thread `i` performs the effect `e`. -/
inductive Pool.Act (K : Machine E R S α) (i : Nat) (e : E) : Pool E R S α → Pool E R S α → Prop
  | mk {w : Pool E R S α} {t : Thread E R α} {next : R e → Program E R α} {r : R e} {s' : S}
      (ht : w.threads[i]? = some t) (hrest : t.rest = .perform e next)
      (hexec : K.exec e w.shared r s') :
      Act K i e w ⟨s', w.threads.set i ⟨t.start, t.events ++ [⟨e, r⟩], next r⟩⟩

inductive Pool.Step (K : Machine E R S α) : Pool E R S α → Pool E R S α → Prop
  | act {i : Nat} {e : E} {w w' : Pool E R S α} (h : Pool.Act K i e w w') : Step K w w'
  | spawn {w : Pool E R S α} {p : Program E R α} (hp : K.client p) :
      Step K w ⟨w.shared, w.threads ++ [.fresh p]⟩
  | drift {w : Pool E R S α} {s' : S} (hs : K.drift w.shared s') : Step K w ⟨s', w.threads⟩

/-- Any number of steps. -/
abbrev Pool.Run (K : Machine E R S α) : Pool E R S α → Pool E R S α → Prop :=
  Relation.ReflTransGen (Pool.Step K)

/-- Every effect and the drift preserve `I`. -/
structure Machine.Preserves (K : Machine E R S α) (I : S → Prop) : Prop where
  exec : ∀ {e s r s'}, I s → K.exec e s r s' → I s'
  drift : ∀ {s s'}, I s → K.drift s s' → I s'

/-- `r` is a reply that some state of `I` can give to `e`. -/
def Machine.Answers (K : Machine E R S α) (I : S → Prop) (e : E) (r : R e) : Prop :=
  ∃ s s', I s ∧ K.exec e s r s'

/-- The monitor of a thread that runs while `I` holds: the replies are those of states in `I`, as far
as they satisfy `P`; the thread owes `Q` of its effects. -/
def Machine.rely (K : Machine E R S α) (I : S → Prop) (P : (e : E) → R e → Prop) (Q : E → Prop) :
    Monitor E R Unit where
  may _ e r := K.Answers I e r ∧ P e r
  must _ e := Q e
  next _ _ _ := ()

namespace Pool

theorem Step.inv {I : S → Prop} (hI : K.Preserves I) {w w' : Pool E R S α} (h : Step K w w')
    (hw : I w.shared) : I w'.shared := by
  cases h with
  | act h =>
    obtain ⟨-, -, hexec⟩ := h
    exact hI.exec hw hexec
  | spawn _ => exact hw
  | drift hs => exact hI.drift hw hs

/-- An invariant of every effect and of the drift is an invariant of every run. -/
theorem Run.inv {I : S → Prop} (hI : K.Preserves I) {w w' : Pool E R S α} (h : Run K w w')
    (hw : I w.shared) : I w'.shared := by
  induction h with
  | refl => exact hw
  | tail _ hstep ih => exact hstep.inv hI ih

/-- What is known of a thread that started while `I` held. -/
structure Follows (K : Machine E R S α) (I : S → Prop) (t : Thread E R α) : Prop where
  client : K.client t.start
  runs : t.start.Runs t.events t.rest
  answers : ∀ ev ∈ t.events, K.Answers I ev.1 ev.2

theorem Follows.fresh {I : S → Prop} {p : Program E R α} (hp : K.client p) :
    Follows K I (.fresh p) := ⟨hp, .nil p, by simp [Thread.fresh]⟩

theorem Follows.act {I : S → Prop} {t : Thread E R α} {e : E} {next : R e → Program E R α}
    {r : R e} {s s' : S} (h : Follows K I t) (hrest : t.rest = .perform e next) (hs : I s)
    (hexec : K.exec e s r s') : Follows K I ⟨t.start, t.events ++ [⟨e, r⟩], next r⟩ := by
  refine ⟨h.client, h.runs.append (hrest ▸ .single r next), fun ev hev => ?_⟩
  rcases List.mem_append.mp hev with hev | hev
  · exact h.answers ev hev
  · rw [List.mem_singleton.mp hev]
    exact ⟨s, s', hs, hexec⟩

/-- A step leaves the threads that follow `I` from index `n` on such threads. -/
theorem Step.follows {I : S → Prop} {n : Nat} {w w' : Pool E R S α} (h : Step K w w')
    (hw : I w.shared) (hn : n ≤ w.threads.length)
    (ht : ∀ i t, n ≤ i → w.threads[i]? = some t → Follows K I t) :
    n ≤ w'.threads.length ∧ ∀ i t, n ≤ i → w'.threads[i]? = some t → Follows K I t := by
  cases h with
  | @act i₀ e _ _ h =>
    obtain ⟨ht₀, hrest, hexec⟩ := h
    rename_i t₀ next r s'
    refine ⟨by simpa using hn, fun i t hi hit => ?_⟩
    rw [List.getElem?_set] at hit
    by_cases heq : i₀ = i
    · subst heq
      have hlt : i₀ < w.threads.length := (List.getElem?_eq_some_iff.mp ht₀).1
      simp only [if_pos, hlt, Option.some.injEq] at hit
      subst hit
      exact (ht i₀ t₀ hi ht₀).act hrest hw hexec
    · rw [if_neg heq] at hit
      exact ht i t hi hit
  | @spawn _ p hp =>
    refine ⟨by simpa using Nat.le_succ_of_le hn, fun i t hi hit => ?_⟩
    rw [List.getElem?_append] at hit
    split at hit
    · exact ht i t hi hit
    · rw [List.getElem?_singleton] at hit
      split at hit
      · cases hit
        exact .fresh hp
      · cases hit
  | drift hs => exact ⟨hn, ht⟩

/-- A thread that starts in a state of `I` or later runs its program, and is only ever answered from
states of `I`. -/
theorem Run.follows {I : S → Prop} (hI : K.Preserves I) {w w' : Pool E R S α} (h : Run K w w')
    (hw : I w.shared) {i : Nat} {t : Thread E R α} (hi : w.threads.length ≤ i)
    (ht : w'.threads[i]? = some t) : Follows K I t := by
  have key : w.threads.length ≤ w'.threads.length ∧
      ∀ i t, w.threads.length ≤ i → w'.threads[i]? = some t → Follows K I t := by
    clear ht hi
    induction h with
    | refl =>
      refine ⟨Nat.le_refl _, fun i t hi ht => ?_⟩
      rw [List.getElem?_eq_none hi] at ht
      cases ht
    | tail hrun hstep ih => exact hstep.follows (Run.inv hI hrun hw) ih.1 ih.2
  exact key.2 i t hi ht

/-- Along events answered from states of `I`, the monitor that relies on `I` is satisfied. -/
theorem allowed_rely {I : S → Prop} {P : (e : E) → R e → Prop} {Q : E → Prop}
    {es : List (Event E R)} (h : ∀ ev ∈ es, K.Answers I ev.1 ev.2) (hP : ∀ ev ∈ es, P ev.1 ev.2) :
    (K.rely I P Q).Allowed () es := by
  induction es with
  | nil => trivial
  | cons ev es ih =>
    exact ⟨⟨h ev (by simp), hP ev (by simp)⟩,
      ih (fun ev' hev' => h ev' (by simp [hev'])) fun ev' hev' => hP ev' (by simp [hev'])⟩

section Follows

variable {I : S → Prop} {P : (e : E) → R e → Prop} {Q : E → Prop} {t : Thread E R α}
  {goal : α → Prop}

/-- A thread that starts in a state of `I` or later and ends delivers what its program guarantees
under replies from states of `I`. -/
theorem Follows.post (ht : Follows K I t) (hP : ∀ ev ∈ t.events, P ev.1 ev.2)
    (hp : t.start.Sat (K.rely I P Q) () fun _ a => goal a) {a : α} (ha : t.rest = .ret a) :
    goal a :=
  hp.post_of_run (ha ▸ ht.runs) (allowed_rely ht.answers hP)

/-- The next effect of such a thread meets its obligation. -/
theorem Follows.must (ht : Follows K I t) (hP : ∀ ev ∈ t.events, P ev.1 ev.2)
    (hp : t.start.Sat (K.rely I P Q) () fun _ a => goal a) {e : E} {next : R e → Program E R α}
    (he : t.rest = .perform e next) : Q e := by
  have h := (hp.run ht.runs (allowed_rely ht.answers hP)).2
  rw [he] at h
  exact h.1

end Follows

end Pool

/-! ## A ghost as the shared state -/

/-- The machine whose shared state is the ghost of a monitor: the threads are observed together, and
answered as the monitor says. -/
def Monitor.machine {G : Type} (M : Monitor E R G) (client : Program E R α → Prop) :
    Machine E R G α where
  exec e g r g' := M.may g e r ∧ g' = M.next g e r
  drift _ _ := False
  client := client

namespace Pool

variable {G : Type} {M : Monitor E R G} {client : Program E R α → Prop}

theorem run_solo_from {p q : Program E R α} {es : List (Event E R)} (hr : p.Runs es q) {g : G}
    (ha : M.Allowed g es) (start : Program E R α) (done : List (Event E R)) :
    Run (M.machine client) ⟨g, [⟨start, done, p⟩]⟩ ⟨M.after g es, [⟨start, done ++ es, q⟩]⟩ := by
  induction hr generalizing g done with
  | nil p =>
    rw [List.append_nil]
    exact .refl
  | @cons e r next es q hr ih =>
    have hact : Act (M.machine client) 0 e ⟨g, [⟨start, done, .perform e next⟩]⟩
        ⟨M.next g e r, [⟨start, done ++ [⟨e, r⟩], next r⟩]⟩ :=
      .mk (t := ⟨start, done, .perform e next⟩) rfl rfl ⟨ha.1, rfl⟩
    have := ih ha.2 (done ++ [⟨e, r⟩])
    rw [List.append_assoc] at this
    exact .head (.act hact) this

/-- A run of one program is a run of the pool it is alone in. -/
theorem run_solo {p q : Program E R α} {es : List (Event E R)} (hr : p.Runs es q) {g : G}
    (ha : M.Allowed g es) (hp : client p) :
    Run (M.machine client) ⟨g, []⟩ ⟨M.after g es, [⟨p, es, q⟩]⟩ :=
  .head (.spawn hp) (run_solo_from hr ha p [])

end Pool

end Interaction
