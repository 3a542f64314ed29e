import Mathlib
import StateDrivenAgent.Interaction.Pool

/-!
# Runs of a pool as a whole

Where every move of the shared state raises the version of what it changes, a run has a chronicle:
what a version held is a fact of the run that does not change any more (`Run.exists_chronicle`). A
thread that has seen a version knows what it holds, whatever the other threads do.

With that, and with what can be said of all threads together, a monitor watches every thread of a run
by itself (`Run.watched`), and what is counted along each thread can be compared with the shared state
(`total`).
-/

namespace Interaction

variable {E : Type} {R : E → Type} {S α : Type} {K : Machine E R S α}

/-- The machine, as far as its moves lead from states of `I` to states of `I`. -/
def Machine.within (K : Machine E R S α) (I : S → Prop) : Machine E R S α where
  exec e s r s' := I s ∧ K.exec e s r s' ∧ I s'
  drift s s' := I s ∧ K.drift s s' ∧ I s'
  client := K.client

/-- What every event only appends to. -/
theorem Monitor.after_appends {G β : Type} {M : Monitor E R G} {part : G → List β}
    {adds : (e : E) → R e → List β} (h : ∀ g e r, part (M.next g e r) = part g ++ adds e r) (g : G)
    (es : List (Event E R)) : part (M.after g es) = part g ++ es.flatMap fun x => adds x.1 x.2 := by
  induction es generalizing g with
  | nil => exact (List.append_nil _).symm
  | cons x es ih =>
    obtain ⟨e, r⟩ := x
    rw [Monitor.after_cons, ih, h, List.append_assoc, List.flatMap_cons]

namespace Pool

/-- A pool with weaker moves and more clients has more runs. -/
theorem Run.mono {M : Machine E R S α}
    (hexec : ∀ {e s r s'}, K.exec e s r s' → M.exec e s r s')
    (hdrift : ∀ {s s'}, K.drift s s' → M.drift s s') (hclient : ∀ {p}, K.client p → M.client p)
    {w w' : Pool E R S α} (h : Run K w w') : Run M w w' := by
  refine Relation.ReflTransGen.mono (fun w w' hstep => ?_) _ _ h
  cases hstep with
  | act h =>
    obtain ⟨ht, hrest, hexec'⟩ := h
    exact .act (.mk ht hrest (hexec hexec'))
  | spawn hp => exact .spawn (hclient hp)
  | drift hs => exact .drift (hdrift hs)

variable {I J : S → Prop} {w w' : Pool E R S α}

theorem Run.within_mono (hIJ : ∀ s, I s → J s) (h : Run (K.within I) w w') :
    Run (K.within J) w w' :=
  Run.mono (K := K.within I) (M := K.within J) (fun h => ⟨hIJ _ h.1, h.2.1, hIJ _ h.2.2⟩)
    (fun h => ⟨hIJ _ h.1, h.2.1, hIJ _ h.2.2⟩) id h

theorem Run.of_within (h : Run (K.within I) w w') : Run K w w' :=
  Run.mono (K := K.within I) (fun h => h.2.1) (fun h => h.2.1) id h

/-! ## Chronicles -/

section chronicle

variable {ι V β : Type} [LinearOrder V] {version : S → ι → V} {value : S → ι → β}

/-- A move leaves what it does not give a new version as it is. -/
def Versioned (version : S → ι → V) (value : S → ι → β) (s s' : S) : Prop :=
  ∀ i, (version s' i = version s i ∧ value s' i = value s i) ∨ version s i < version s' i

/-- The states of a run up to `s`, by a chronicle of it. -/
structure Told (I : S → Prop) (version : S → ι → V) (value : S → ι → β) (L : ι → V → β)
    (last s : S) : Prop where
  inv : I s
  value : ∀ i, value s i = L i (version s i)
  passed : ∀ i, version s i ≤ version last i

open Classical in
/-- One more move of the shared state. -/
theorem Told.extend {L : ι → V → β} {last last' : S} (hlast : Told I version value L last last)
    (hI : I last') (hv : Versioned version value last last') :
    ∃ L' : ι → V → β, Told I version value L' last' last' ∧
      ∀ s, Told I version value L last s → Told I version value L' last' s := by
  refine ⟨fun i n => if n = version last' i then value last' i else L i n,
    ⟨hI, fun i => (if_pos rfl).symm, fun i => le_refl _⟩,
    fun s hs => ⟨hs.inv, fun i => ?_, fun i => ?_⟩⟩
  · by_cases hsame : version s i = version last' i
    · rw [if_pos hsame]
      rcases hv i with ⟨hversion, hvalue⟩ | hlt
      · rw [hvalue, hs.value i, hlast.value i, hsame, hversion]
      · exact absurd (hsame ▸ hs.passed i) (not_le_of_gt hlt)
    · rw [if_neg hsame]
      exact hs.value i
  · rcases hv i with ⟨hversion, -⟩ | hlt
    · exact hversion ▸ hs.passed i
    · exact (hs.passed i).trans (le_of_lt hlt)

/-- A run has a chronicle: in every state of it, what has a version holds what the chronicle says. -/
theorem Run.exists_chronicle (hI : K.Preserves I)
    (hexec : ∀ {e s r s'}, I s → K.exec e s r s' → Versioned version value s s')
    (hdrift : ∀ {s s'}, I s → K.drift s s' → Versioned version value s s')
    (hw : I w.shared) (h : Run K w w') :
    ∃ L : ι → V → β, Run (K.within fun s => I s ∧ ∀ i, value s i = L i (version s i)) w w' := by
  suffices hsuff : ∃ L : ι → V → β, Told I version value L w'.shared w'.shared ∧
      Run (K.within (Told I version value L w'.shared)) w w' by
    obtain ⟨L, -, hrun⟩ := hsuff
    exact ⟨L, hrun.within_mono fun s hs => ⟨hs.inv, hs.value⟩⟩
  induction h with
  | refl => exact ⟨fun i _ => value w.shared i, ⟨hw, fun _ => rfl, fun _ => le_refl _⟩, .refl⟩
  | tail _ hstep ih =>
    obtain ⟨L, hlast, hrun⟩ := ih
    cases hstep with
    | act h =>
      obtain ⟨ht, hrest, hexec'⟩ := h
      obtain ⟨L', hlast', htold⟩ := hlast.extend (hI.exec hlast.inv hexec') (hexec hlast.inv hexec')
      exact ⟨L', hlast', (hrun.within_mono htold).tail
        (.act (.mk ht hrest ⟨htold _ hlast, hexec', hlast'⟩))⟩
    | spawn hp => exact ⟨L, hlast, hrun.tail (.spawn hp)⟩
    | drift hs =>
      obtain ⟨L', hlast', htold⟩ := hlast.extend (hI.drift hlast.inv hs) (hdrift hlast.inv hs)
      exact ⟨L', hlast', (hrun.within_mono htold).tail (.drift ⟨htold _ hlast, hs, hlast'⟩)⟩

end chronicle

/-! ## Watching every thread -/

section watched

variable {G : Type} {M : Monitor E R G} {g₀ : G} {start : Pool E R S α}

/-- A thread that has only had replies the monitor allows. -/
structure Watched (K : Machine E R S α) (M : Monitor E R G) (g₀ : G) (t : Thread E R α) : Prop where
  client : K.client t.start
  runs : t.start.Runs t.events t.rest
  allowed : M.Allowed g₀ t.events

/-- It has met its obligations. -/
theorem Watched.kept {t : Thread E R α} (h : Watched K M g₀ t)
    (hsat : ∀ p, K.client p → p.Sat M g₀ fun _ _ => True) : M.Kept g₀ t.events :=
  ((hsat _ h.client).run h.runs h.allowed).1

/-- So does its next effect. -/
theorem Watched.must {t : Thread E R α} (h : Watched K M g₀ t)
    (hsat : ∀ p, K.client p → p.Sat M g₀ fun _ _ => True) {e : E} {next : R e → Program E R α}
    (he : t.rest = .perform e next) : M.must (M.after g₀ t.events) e := by
  have hrest := ((hsat _ h.client).run h.runs h.allowed).2
  rw [he] at hrest
  exact hrest.1

/-- The pool after thread `i` has performed `e`. -/
def acted (w : Pool E R S α) (i : Nat) (t : Thread E R α) (e : E) (r : R e)
    (next : R e → Program E R α) (s' : S) : Pool E R S α :=
  ⟨s', w.threads.set i ⟨t.start, t.events ++ [⟨e, r⟩], next r⟩⟩

/-- The threads of a run are watched, if each reply is allowed where all threads have been watched
so far. `Q` is what is assumed of the run as a whole. -/
theorem Run.watched {Q : Pool E R S α → Prop} (hQ : ∀ {w w'}, Step K w w' → Q w' → Q w)
    (hmay : ∀ {w : Pool E R S α} {i t e next r s'}, Run K start w →
      (∀ t ∈ w.threads, Watched K M g₀ t) → w.threads[i]? = some t → t.rest = .perform e next →
        K.exec e w.shared r s' → Q (w.acted i t e r next s') → M.may (M.after g₀ t.events) e r)
    (hstart : start.threads = []) (h : Run K start w) (hw : Q w) :
    ∀ t ∈ w.threads, Watched K M g₀ t := by
  induction h with
  | refl =>
    rw [hstart]
    exact fun t ht => absurd ht List.not_mem_nil
  | tail hrun hstep ih =>
    have ih := ih (hQ hstep hw)
    cases hstep with
    | act h =>
      obtain ⟨ht, hrest, hexec⟩ := h
      have hmem := List.mem_of_getElem? ht
      have hreply := hmay hrun ih ht hrest hexec hw
      intro t' ht'
      rcases List.mem_or_eq_of_mem_set ht' with ht' | rfl
      · exact ih t' ht'
      · have hthread := ih _ hmem
        exact ⟨hthread.client, hthread.runs.append (hrest ▸ .single _ _),
          (M.allowed_append _ _ _).2 ⟨hthread.allowed, hreply, trivial⟩⟩
    | spawn hp =>
      intro t ht
      rcases List.mem_append.1 ht with ht | ht
      · exact ih t ht
      · obtain rfl := List.mem_singleton.1 ht
        exact ⟨hp, .nil _, trivial⟩
    | drift _ => exact ih

end watched

/-- A thread is still there after another one has acted. -/
theorem mem_acted {i : Nat} {t t₀ : Thread E R α} (ht : w.threads[i]? = some t)
    (h₀ : t₀ ∈ w.threads) (e : E) (r : R e) (next : R e → Program E R α) (s' : S) :
    t₀ ∈ (w.acted i t e r next s').threads ∨ t₀ = t := by
  obtain ⟨j, hj, rfl⟩ := List.getElem_of_mem h₀
  by_cases hij : i = j
  · subst hij
    rw [List.getElem?_eq_getElem hj] at ht
    exact .inr (Option.some.inj ht)
  · refine .inl (List.mem_iff_getElem?.2 ⟨j, ?_⟩)
    change (w.threads.set i _)[j]? = _
    rw [List.getElem?_set_ne hij, List.getElem?_eq_getElem hj]

/-- The thread that has acted is there. -/
theorem self_mem_acted {i : Nat} {t : Thread E R α} (ht : w.threads[i]? = some t) (e : E) (r : R e)
    (next : R e → Program E R α) (s' : S) :
    ⟨t.start, t.events ++ [⟨e, r⟩], next r⟩ ∈ (w.acted i t e r next s').threads :=
  List.mem_set (List.getElem?_eq_some_iff.1 ht).1 _

/-! ## Collecting along the threads -/

section collected

variable {β : Type} {f : List (Event E R) → List β}

/-- What is collected along all threads. -/
def collected (f : List (Event E R) → List β) (w : Pool E R S α) : List β :=
  w.threads.flatMap fun t => f t.events

theorem flatMap_set_sublist {γ : Type} {g : γ → List β} {l : List γ} {i : Nat} {a b : γ}
    (h : l[i]? = some a) (hab : (g a).Sublist (g b)) :
    (l.flatMap g).Sublist ((l.set i b).flatMap g) := by
  induction l generalizing i with
  | nil => cases h
  | cons c l ih =>
    cases i with
    | zero =>
      obtain rfl := Option.some.inj h
      exact hab.append (.refl _)
    | succ i => exact (List.Sublist.refl (g c)).append (ih h)

/-- Where a thread only adds to what it has collected, so does the pool. -/
theorem Step.collected (hf : ∀ es x, (f es).Sublist (f (es ++ [x]))) (h : Step K w w') :
    (w.collected f).Sublist (w'.collected f) := by
  cases h with
  | act h =>
    obtain ⟨ht, -, -⟩ := h
    exact flatMap_set_sublist (g := fun t : Thread E R α => f t.events) ht (hf _ _)
  | spawn hp =>
    change List.Sublist _ ((w.threads ++ _).flatMap _)
    rw [List.flatMap_append]
    exact List.sublist_append_left _ _
  | drift _ => exact .refl _

/-- What is collected once is collected by one thread. -/
theorem eq_of_collected (h : (w.collected f).Nodup) {t t' : Thread E R α} (ht : t ∈ w.threads)
    (ht' : t' ∈ w.threads) {c : β} (hc : c ∈ f t.events) (hc' : c ∈ f t'.events) : t = t' := by
  by_contra hne
  have hpairs := (List.nodup_flatMap.1 h).2
  have : Std.Symm (Function.onFun List.Disjoint fun t : Thread E R α => f t.events) :=
    ⟨fun _ _ hd _ ha hb => hd hb ha⟩
  exact hpairs.forall ht ht' hne hc hc'

end collected

/-! ## Counting along the threads -/

/-- The sum over all threads. -/
def total (f : List (Event E R) → Nat) (w : Pool E R S α) : Nat :=
  (w.threads.map fun t => f t.events).sum

theorem sum_set {β : Type} {g : β → Nat} {l : List β} {i : Nat} {a : β} (b : β)
    (h : l[i]? = some a) : ((l.set i b).map g).sum + g a = (l.map g).sum + g b := by
  induction l generalizing i with
  | nil => cases h
  | cons c l ih =>
    cases i with
    | zero =>
      obtain rfl := Option.some.inj h
      simp only [List.set_cons_zero, List.map_cons, List.sum_cons]
      omega
    | succ i =>
      have hrest := ih h
      simp only [List.set_cons_succ, List.map_cons, List.sum_cons]
      omega

theorem total_acted {f : List (Event E R) → Nat} {i : Nat} {t : Thread E R α}
    (ht : w.threads[i]? = some t) (e : E) (r : R e) (next : R e → Program E R α) (s' : S) :
    total f (w.acted i t e r next s') + f t.events =
      total f w + f (t.events ++ [⟨e, r⟩]) :=
  sum_set _ ht

theorem total_spawn {f : List (Event E R) → Nat} (hf : f [] = 0) (s : S)
    (threads : List (Thread E R α)) (p : Program E R α) : total f ⟨s, threads ++ [.fresh p]⟩ = total f ⟨s, threads⟩ := by
  unfold total
  rw [List.map_append, List.sum_append, List.map_singleton, List.sum_singleton, Thread.fresh, hf]
  rfl

/-- What holds along each thread holds of the sums. -/
theorem total_le {f f' : List (Event E R) → Nat} (h : ∀ t ∈ w.threads, f t.events ≤ f' t.events) :
    total f w ≤ total f' w := by
  unfold total
  exact List.sum_le_sum h

/-! ## Schedules -/

/-- Threads take turns as the schedule says; the shared state decides the answers. `n` is the number
of the turn. -/
def play (answer : Nat → (e : E) → S → Option (R e × S)) :
    Nat → List Nat → Pool E R S α → Pool E R S α
  | _, [], w => w
  | n, i :: schedule, w => match w.threads[i]? with
    | none => w
    | some t => match t.rest with
      | .ret _ => play answer (n + 1) schedule w
      | .perform e next => match answer n e w.shared with
        | none => w
        | some (r, s') => play answer (n + 1) schedule (w.acted i t e r next s')

/-- A schedule that is played is a run. -/
theorem play_run {answer : Nat → (e : E) → S → Option (R e × S)}
    (h : ∀ {n e s r s'}, answer n e s = some (r, s') → K.exec e s r s') (n : Nat)
    (schedule : List Nat) (w : Pool E R S α) : Run K w (play answer n schedule w) := by
  induction schedule generalizing n w with
  | nil => exact .refl
  | cons i schedule ih =>
    unfold play
    split
    · exact .refl
    next t ht =>
    split
    · exact ih _ _
    next e next hrest =>
    split
    · exact .refl
    next r s' hanswer =>
    exact .head (.act (.mk ht hrest (h hanswer))) (ih _ _)

end Pool

end Interaction
