import Mathlib.Data.List.Basic
import Mathlib.Data.List.Infix
import Mathlib.Tactic.Common

/-!
# Patterns a matcher tries in order

A backtracking matcher tries the ways a pattern can match the beginning of a text in an order of its
own, the longer repetition first, and takes the first way that passes a test of what follows. It
looks for a match from the left and goes on behind the match it found (`Search.findAll`).

A pattern also has its words, without any order (`Pattern.Matches`), and a search its occurrences: a
word of the pattern with what the tests ask before and after it (`Search.Occurs`). When two
occurrences in a text never overlap and no word is empty, the order does not matter: the search
finds every occurrence and nothing else (`Search.mem_findAll_iff`).
-/

namespace Matching

variable {α : Type}

inductive Pattern (α : Type) where
  | one (p : α → Bool)
  | seq (a b : Pattern α)
  | opt (a : Pattern α)
  | many (a : Pattern α)

namespace Pattern

/-- The words of a pattern; a repetition takes no empty word. -/
inductive Matches : Pattern α → List α → Prop
  | one {p : α → Bool} {c : α} (h : p c = true) : Matches (.one p) [c]
  | seq {a b : Pattern α} {u v : List α} (ha : Matches a u) (hb : Matches b v) :
      Matches (.seq a b) (u ++ v)
  | none {a : Pattern α} : Matches (.opt a) []
  | some {a : Pattern α} {u : List α} (h : Matches a u) : Matches (.opt a) u
  | nil {a : Pattern α} : Matches (.many a) []
  | cons {a : Pattern α} {u v : List α} (ha : Matches a u) (hne : u ≠ []) (h : Matches (.many a) v) :
      Matches (.many a) (u ++ v)

/-- A repetition of a matcher: first one more word, then none. -/
def repeats (f : List α → List (List α)) : Nat → List α → List (List α)
  | 0, cs => [cs]
  | fuel + 1, cs =>
    ((f cs).filter fun rest => rest.length < cs.length).flatMap (repeats f fuel) ++ [cs]

/-- What can be left of a text behind a match at its beginning, in the order of the trials. -/
def rests : Pattern α → List α → List (List α)
  | .one _, [] => []
  | .one p, c :: cs => if p c then [cs] else []
  | .seq a b, cs => (a.rests cs).flatMap b.rests
  | .opt a, cs => a.rests cs ++ [cs]
  | .many a, cs => repeats a.rests cs.length cs

section equations
variable {a b : Pattern α} {cs : List α}

theorem repeats_succ {f : List α → List (List α)} {fuel : Nat} : repeats f (fuel + 1) cs =
    ((f cs).filter fun rest => rest.length < cs.length).flatMap (repeats f fuel) ++ [cs] := rfl

theorem rests_one_cons {p : α → Bool} {c : α} :
    (one p).rests (c :: cs) = if p c then [cs] else [] := rfl

theorem rests_seq : (seq a b).rests cs = (a.rests cs).flatMap b.rests := rfl

theorem rests_opt : (opt a).rests cs = a.rests cs ++ [cs] := rfl

theorem rests_many : (many a).rests cs = repeats a.rests cs.length cs := rfl

end equations

/-! ## The matcher and the words -/

theorem matches_many_of_mem_repeats {a : Pattern α}
    (ih : ∀ {cs rest : List α}, rest ∈ a.rests cs ↔ ∃ u, cs = u ++ rest ∧ a.Matches u) :
    ∀ {fuel : Nat} {cs rest : List α}, rest ∈ repeats a.rests fuel cs →
      ∃ u, cs = u ++ rest ∧ (many a).Matches u := by
  intro fuel
  induction fuel with
  | zero =>
    intro cs rest h
    have hrest : rest = cs := List.mem_singleton.1 h
    exact ⟨[], by rw [hrest, List.nil_append], .nil⟩
  | succ fuel ihf =>
    intro cs rest h
    rw [repeats_succ, List.mem_append, List.mem_flatMap, List.mem_singleton] at h
    rcases h with ⟨mid, hmid, hrest⟩ | rfl
    · obtain ⟨hmem, hlt⟩ := List.mem_filter.1 hmid
      obtain ⟨u, rfl, hu⟩ := ih.1 hmem
      obtain ⟨v, rfl, hv⟩ := ihf hrest
      have hne : u ≠ [] := by
        rintro rfl
        simp at hlt
      exact ⟨u ++ v, (List.append_assoc _ _ _).symm, .cons hu hne hv⟩
    · exact ⟨[], rfl, .nil⟩

theorem mem_repeats_of_matches {a : Pattern α}
    (ih : ∀ {cs rest : List α}, rest ∈ a.rests cs ↔ ∃ u, cs = u ++ rest ∧ a.Matches u)
    {p : Pattern α} {w : List α} (h : p.Matches w) : p = many a →
      ∀ {fuel : Nat} {rest : List α}, (w ++ rest).length ≤ fuel →
        rest ∈ repeats a.rests fuel (w ++ rest) := by
  induction h with
  | one | seq | none | some => rintro ⟨⟩
  | nil =>
    intro _ fuel rest _
    cases fuel with
    | zero => exact List.mem_singleton_self _
    | succ fuel => exact List.mem_append_right _ (List.mem_singleton_self _)
  | @cons a' u v hu hne hv _ ihv =>
    rintro ⟨⟩ fuel rest hfuel
    have hpos : 0 < u.length := List.length_pos_iff.2 hne
    cases fuel with
    | zero =>
      simp only [List.length_append] at hfuel
      omega
    | succ fuel =>
      simp only [List.length_append] at hfuel
      rw [repeats_succ, List.mem_append, List.mem_flatMap]
      refine .inl ⟨v ++ rest, List.mem_filter.2 ⟨ih.2 ⟨u, List.append_assoc _ _ _, hu⟩, ?_⟩, ?_⟩
      · simp only [List.length_append, decide_eq_true_eq]
        omega
      · apply ihv rfl
        simp only [List.length_append]
        omega

/-- The matcher tries exactly the words of the pattern. -/
theorem mem_rests_iff {p : Pattern α} : ∀ {cs rest : List α},
    rest ∈ p.rests cs ↔ ∃ u, cs = u ++ rest ∧ p.Matches u := by
  induction p with
  | one p =>
    intro cs rest
    constructor
    · intro h
      cases cs with
      | nil => cases h
      | cons c cs =>
        rw [rests_one_cons] at h
        split at h
        next hp =>
          obtain rfl := List.mem_singleton.1 h
          exact ⟨[c], rfl, .one hp⟩
        · cases h
    · rintro ⟨u, rfl, h⟩
      cases h with
      | one hp =>
        rw [List.singleton_append, rests_one_cons, if_pos hp]
        exact List.mem_singleton_self _
  | seq a b iha ihb =>
    intro cs rest
    rw [rests_seq, List.mem_flatMap]
    constructor
    · rintro ⟨mid, hmid, hrest⟩
      obtain ⟨u, rfl, hu⟩ := iha.1 hmid
      obtain ⟨v, rfl, hv⟩ := ihb.1 hrest
      exact ⟨u ++ v, (List.append_assoc _ _ _).symm, .seq hu hv⟩
    · rintro ⟨w, rfl, h⟩
      cases h with
      | @seq _ _ u v hu hv =>
        exact ⟨v ++ rest, iha.2 ⟨u, List.append_assoc _ _ _, hu⟩, ihb.2 ⟨v, rfl, hv⟩⟩
  | opt a ih =>
    intro cs rest
    rw [rests_opt, List.mem_append, List.mem_singleton, ih]
    constructor
    · rintro (⟨u, hu, h⟩ | rfl)
      · exact ⟨u, hu, .some h⟩
      · exact ⟨[], rfl, .none⟩
    · rintro ⟨w, rfl, h⟩
      cases h with
      | none => exact .inr rfl
      | some h => exact .inl ⟨w, rfl, h⟩
  | many a ih =>
    intro cs rest
    rw [rests_many]
    constructor
    · exact matches_many_of_mem_repeats ih
    · rintro ⟨w, rfl, h⟩
      exact mem_repeats_of_matches ih h rfl le_rfl

/-! ## The first trial -/

/-- The first way to match here leaves `rest`. -/
def Takes (p : Pattern α) (cs rest : List α) : Prop := (p.rests cs).head? = some rest

theorem head?_flatMap {β : Type} {f : α → List β} {l : List α} {a : α} {b : β}
    (ha : l.head? = some a) (hb : (f a).head? = some b) : (l.flatMap f).head? = some b := by
  cases l with
  | nil => cases ha
  | cons x l =>
    obtain rfl : x = a := Option.some.inj ha
    rw [List.flatMap_cons, List.head?_append, hb, Option.some_or]

theorem rests_one_of_pos {p : α → Bool} {c : α} {cs : List α} (h : p c = true) :
    (one p).rests (c :: cs) = [cs] := by rw [rests_one_cons, if_pos h]

/-- Nothing matches here. -/
theorem rests_one_of_not {p : α → Bool} {cs : List α} (h : ∀ c ∈ cs.head?, p c = false) :
    (one p).rests cs = [] := by
  cases cs with
  | nil => rfl
  | cons c cs => rw [rests_one_cons, h c rfl, if_neg Bool.false_ne_true]

theorem takes_one {p : α → Bool} {c : α} {cs : List α} (h : p c = true) :
    (one p).Takes (c :: cs) cs := by
  rw [Takes, rests_one_of_pos h]
  rfl

theorem Takes.seq {a b : Pattern α} {cs mid rest : List α} (ha : a.Takes cs mid)
    (hb : b.Takes mid rest) : (seq a b).Takes cs rest := head?_flatMap ha hb

theorem Takes.opt {a : Pattern α} {cs rest : List α} (h : a.Takes cs rest) :
    (opt a).Takes cs rest := by
  have hsome : (a.rests cs).head? = some rest := h
  rw [Takes, rests_opt, List.head?_append, hsome, Option.some_or]

theorem rests_seq_of_not {a b : Pattern α} {cs : List α} (h : a.rests cs = []) :
    (seq a b).rests cs = [] := by
  rw [rests_seq, h, List.flatMap_nil]

theorem rests_opt_of_not {a : Pattern α} {cs : List α} (h : a.rests cs = []) :
    (opt a).rests cs = [cs] := by
  rw [rests_opt, h, List.nil_append]

theorem rests_many_of_not {a : Pattern α} {cs : List α} (h : a.rests cs = []) :
    (many a).rests cs = [cs] := by
  rw [rests_many]
  cases cs with
  | nil => rfl
  | cons c cs => rw [List.length_cons, repeats_succ, h, List.filter_nil, List.flatMap_nil, List.nil_append]

theorem takes_opt_of_not {a : Pattern α} {cs : List α} (h : a.rests cs = []) :
    (opt a).Takes cs cs := by
  rw [Takes, rests_opt_of_not h]
  rfl

/-- A repetition takes every element it can. -/
theorem takes_many {p : α → Bool} {ds u : List α} (hall : ∀ d ∈ ds, p d = true)
    (hu : ∀ c ∈ u.head?, p c = false) : (many (one p)).Takes (ds ++ u) u := by
  have hfuel : ∀ fuel, ds.length ≤ fuel → (repeats (one p).rests fuel (ds ++ u)).head? = some u := by
    induction ds with
    | nil =>
      intro fuel _
      cases fuel with
      | zero => rfl
      | succ fuel =>
        rw [List.nil_append, repeats_succ, rests_one_of_not hu]
        rfl
    | cons d ds ih =>
      intro fuel hfuel
      obtain ⟨fuel, rfl⟩ := Nat.exists_eq_succ_of_ne_zero (Nat.ne_of_gt (Nat.lt_of_lt_of_le
        (List.length_pos_of_ne_nil (List.cons_ne_nil d ds)) hfuel))
      have hrest := ih (fun x hx => hall x (List.mem_cons_of_mem _ hx)) fuel
        (Nat.le_of_succ_le_succ hfuel)
      have hless : [ds ++ u].filter (fun rest => rest.length < (d :: (ds ++ u)).length) = [ds ++ u] :=
        List.filter_eq_self.2 (by simp)
      rw [List.cons_append, repeats_succ, rests_one_of_pos (hall d List.mem_cons_self), hless,
        List.flatMap_singleton, List.head?_append, hrest, Option.some_or]
  refine hfuel _ ?_
  rw [List.length_append]
  exact Nat.le_add_right _ _

end Pattern

/-! ## Searching -/

/-- A place in a text: what is before, the word, and what is after. -/
structure Place (α : Type) where
  before : List α
  word : List α
  after : List α

namespace Place

/-- The text the place is in. -/
def text (f : Place α) : List α := f.before ++ (f.word ++ f.after)

/-- Where the word ends. -/
def stop (f : Place α) : Nat := f.before.length + f.word.length

end Place

/-- A pattern with a test of the element before and one of the text after. -/
structure Search (α : Type) where
  pattern : Pattern α
  behind : Option α → Bool
  ahead : List α → Bool

namespace Search

variable (s : Search α)

/-- The first way to match here, by what it leaves. -/
def first (previous : Option α) (cs : List α) : Option (List α) :=
  if s.behind previous then (s.pattern.rests cs).find? s.ahead else none

/-- The matches from here on; one without an element is passed over. -/
def findFrom : Nat → List α → List α → List (Place α)
  | 0, _, _ => []
  | _ + 1, _, [] => []
  | fuel + 1, before, c :: cs =>
    match (s.first before.getLast? (c :: cs)).filter fun rest => rest.length ≤ cs.length with
    | some rest =>
      let word := (c :: cs).take ((c :: cs).length - rest.length)
      ⟨before, word, rest⟩ :: findFrom fuel (before ++ word) rest
    | none => findFrom fuel (before ++ [c]) cs

def findAll (text : List α) : List (Place α) := s.findFrom text.length [] text

/-- The rest of a text with `f` of each match in its place. -/
def replaceFrom (f : List α → List α) : Nat → List α → List α → List α
  | 0, _, cs => cs
  | _ + 1, _, [] => []
  | fuel + 1, before, c :: cs =>
    match (s.first before.getLast? (c :: cs)).filter fun rest => rest.length ≤ cs.length with
    | some rest =>
      let word := (c :: cs).take ((c :: cs).length - rest.length)
      f word ++ replaceFrom f fuel (before ++ word) rest
    | none => c :: replaceFrom f fuel (before ++ [c]) cs

def replaceAll (f : List α → List α) (text : List α) : List α :=
  s.replaceFrom f text.length [] text

/-- A place with a word of the pattern that passes the tests. -/
structure Occurs (f : Place α) : Prop where
  word : s.pattern.Matches f.word
  behind : s.behind f.before.getLast? = true
  ahead : s.ahead f.after = true

/-- No word is empty, and two occurrences in a text are the same or do not overlap. -/
structure Apart : Prop where
  nonempty : ¬s.pattern.Matches []
  apart : ∀ f g, s.Occurs f → s.Occurs g → f.text = g.text → f.before.length ≤ g.before.length →
    f = g ∨ f.stop ≤ g.before.length

variable {s}

theorem Occurs.word_ne {f : Place α} (hs : s.Apart) (hf : s.Occurs f) : f.word ≠ [] := by
  intro h
  exact hs.nonempty (h ▸ hf.word)

/-- What is found here occurs here. -/
theorem occurs_of_first {before cs rest : List α} (h : s.first before.getLast? cs = some rest) :
    ∃ word, cs = word ++ rest ∧ s.Occurs ⟨before, word, rest⟩ := by
  unfold first at h
  split at h
  next hbehind =>
    obtain ⟨word, hcs, hword⟩ := Pattern.mem_rests_iff.1 (List.mem_of_find?_eq_some h)
    exact ⟨word, hcs, hword, hbehind, List.find?_some h⟩
  · cases h

/-- What occurs here is found here. -/
theorem first_of_occurs {f : Place α} (hf : s.Occurs f) :
    (s.first f.before.getLast? (f.word ++ f.after)).isSome = true := by
  unfold first
  rw [if_pos hf.behind, List.find?_isSome]
  exact ⟨f.after, Pattern.mem_rests_iff.2 ⟨f.word, rfl, hf.word⟩, hf.ahead⟩

/-- Nothing matches here. -/
theorem findFrom_none {before cs : List α} {c : α} {fuel : Nat}
    (h : s.first before.getLast? (c :: cs) = none) :
    s.findFrom (fuel + 1) before (c :: cs) = s.findFrom fuel (before ++ [c]) cs := by
  rw [findFrom, h]
  rfl

theorem replaceFrom_none {f : List α → List α} {before cs : List α} {c : α} {fuel : Nat}
    (h : s.first before.getLast? (c :: cs) = none) :
    s.replaceFrom f (fuel + 1) before (c :: cs) = c :: s.replaceFrom f fuel (before ++ [c]) cs := by
  rw [replaceFrom, h]
  rfl

theorem take_word (word rest : List α) :
    (word ++ rest).take ((word ++ rest).length - rest.length) = word := by
  rw [List.length_append, Nat.add_sub_cancel, List.take_left]

/-- A word matches here. -/
theorem findFrom_some {before word rest : List α} {fuel : Nat} (hne : word ≠ [])
    (h : s.first before.getLast? (word ++ rest) = some rest) :
    s.findFrom (fuel + 1) before (word ++ rest) =
      ⟨before, word, rest⟩ :: s.findFrom fuel (before ++ word) rest := by
  obtain ⟨c, cs, rfl⟩ := List.exists_cons_of_ne_nil hne
  have hlen : rest.length ≤ (cs ++ rest).length := by simp
  have htake := take_word (c :: cs) rest
  rw [List.cons_append] at h htake ⊢
  rw [findFrom, h, Option.filter_some, if_pos (decide_eq_true hlen)]
  dsimp only
  rw [htake]

theorem replaceFrom_some {f : List α → List α} {before word rest : List α} {fuel : Nat}
    (hne : word ≠ []) (h : s.first before.getLast? (word ++ rest) = some rest) :
    s.replaceFrom f (fuel + 1) before (word ++ rest) =
      f word ++ s.replaceFrom f fuel (before ++ word) rest := by
  obtain ⟨c, cs, rfl⟩ := List.exists_cons_of_ne_nil hne
  have hlen : rest.length ≤ (cs ++ rest).length := by simp
  have htake := take_word (c :: cs) rest
  rw [List.cons_append] at h htake ⊢
  rw [replaceFrom, h, Option.filter_some, if_pos (decide_eq_true hlen)]
  dsimp only
  rw [htake]

theorem mem_findFrom_iff (hs : s.Apart) {f : Place α} : ∀ {fuel : Nat} {before cs : List α},
    cs.length ≤ fuel → (f ∈ s.findFrom fuel before cs ↔
      s.Occurs f ∧ f.text = before ++ cs ∧ before.length ≤ f.before.length) := by
  intro fuel
  have hnil : ∀ {before : List α}, s.Occurs f → f.text = before ++ [] →
      before.length ≤ f.before.length → False := by
    intro before hf htext hle
    have hlen := congrArg List.length htext
    have hpos := List.length_pos_iff.2 (hf.word_ne hs)
    simp only [Place.text, List.length_append, List.length_nil] at hlen
    omega
  induction fuel with
  | zero =>
    intro before cs hfuel
    obtain rfl := List.length_eq_zero_iff.1 (Nat.le_zero.1 hfuel)
    exact iff_of_false (by simp [findFrom]) fun h => hnil h.1 h.2.1 h.2.2
  | succ fuel ih =>
    intro before cs hfuel
    cases cs with
    | nil => exact iff_of_false (by simp [findFrom]) fun h => hnil h.1 h.2.1 h.2.2
    | cons c cs =>
      rw [findFrom]
      cases hfirst : s.first before.getLast? (c :: cs) with
      | none =>
        rw [Option.filter_none]
        rw [List.length_cons] at hfuel
        change f ∈ s.findFrom fuel (before ++ [c]) cs ↔ _
        rw [ih (by omega), List.append_assoc, List.singleton_append, List.length_append]
        refine and_congr_right fun hf => and_congr_right fun htext => ?_
        rw [List.length_singleton]
        refine ⟨fun h => by omega, fun hle => Nat.lt_of_le_of_ne hle fun heq => ?_⟩
        -- a place that begins here would have been found here
        have hsame := List.append_inj htext heq.symm
        have hsome := first_of_occurs hf
        rw [hsame.1, hsame.2, hfirst] at hsome
        cases hsome
      | some rest =>
        obtain ⟨word, hcs, hg⟩ := occurs_of_first hfirst
        have hpos := List.length_pos_iff.2 (hg.word_ne hs)
        have hlen := congrArg List.length hcs
        simp only [List.length_append, List.length_cons] at hlen hfuel
        dsimp only at hpos
        have hguard : (some rest).filter (fun rest => decide (rest.length ≤ cs.length)) = some rest := by
          rw [Option.filter_some, if_pos]
          exact decide_eq_true (by omega)
        have htake : (c :: cs).take ((c :: cs).length - rest.length) = word := by
          rw [hcs, take_word]
        rw [hguard]
        change f ∈ ⟨before, (c :: cs).take ((c :: cs).length - rest.length), rest⟩ ::
          s.findFrom fuel (before ++ (c :: cs).take ((c :: cs).length - rest.length)) rest ↔ _
        rw [htake, List.mem_cons, ih (by omega), List.append_assoc, ← hcs, List.length_append]
        constructor
        · rintro (rfl | ⟨hf, htext, hle⟩)
          · exact ⟨hg, by rw [Place.text, ← hcs], le_rfl⟩
          · exact ⟨hf, htext, by omega⟩
        · rintro ⟨hf, htext, hle⟩
          rcases hs.apart _ f hg hf (by rw [htext, Place.text, ← hcs]) hle with rfl | hstop
          · exact .inl rfl
          · exact .inr ⟨hf, htext, hstop⟩

/-- The search finds every occurrence in the text, and nothing else. -/
theorem mem_findAll_iff (hs : s.Apart) {f : Place α} {text : List α} :
    f ∈ s.findAll text ↔ s.Occurs f ∧ f.text = text := by
  rw [findAll, mem_findFrom_iff hs le_rfl]
  simp

end Search

end Matching
