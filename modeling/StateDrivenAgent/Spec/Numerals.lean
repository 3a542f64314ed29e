import StateDrivenAgent.Matching.Pattern
import Mathlib.Data.List.TakeDrop

/-!
# Numerals in a text

The words of the pattern for numbers, over any class of digits: a sign, digits, groups of three
digits after commas, a fraction and an exponent. Two neighbours in a numeral are constrained
(`Next`): after a comma, a point or a sign comes a digit, and a sign after the first place stands
after the mark of the exponent. So a numeral that goes on behind another one begins there with a
digit, with the mark of the exponent, or with a comma or a point before a digit
(`Numerals.beyond`).
-/

namespace StateDrivenAgent

open Matching

namespace Numerals

def isSign (c : Char) : Bool := c = '-' || c = '+'

def isMark (c : Char) : Bool := c = 'e' || c = 'E'

def isComma (c : Char) : Bool := c = ','

def isPoint (c : Char) : Bool := c = '.'

section pattern

variable (digit : Char → Bool)

/-- `\d+`. -/
def someDigits : Pattern Char := .seq (.one digit) (.many (.one digit))

/-- `(?:,\d{3})*`. -/
def groups : Pattern Char :=
  .many (.seq (.one isComma) (.seq (.one digit) (.seq (.one digit) (.one digit))))

/-- `(?:\.\d+)?`. -/
def fraction : Pattern Char := .opt (.seq (.one isPoint) (someDigits digit))

/-- `(?:[eE][-+]?\d+)?`. -/
def exponent : Pattern Char :=
  .opt (.seq (.one isMark) (.seq (.opt (.one isSign)) (someDigits digit)))

/-- `[-+]?\d+(?:,\d{3})*(?:\.\d+)?(?:[eE][-+]?\d+)?`. -/
def pattern : Pattern Char :=
  .seq (.opt (.one isSign)) (.seq (someDigits digit)
    (.seq (groups digit) (.seq (fraction digit) (exponent digit))))

/-- No digit is a mark of the pattern. -/
structure Digits : Prop where
  sign : ∀ c, digit c = true → isSign c = false
  mark : ∀ c, digit c = true → isMark c = false
  comma : digit ',' = false
  point : digit '.' = false

end pattern

/-! ## The parts of a numeral -/

section parts

variable {digit : Char → Bool}

variable (digit) in
def AllOf (ds : List Char) : Prop := ∀ c ∈ ds, digit c = true

/-- At most one sign. -/
def Signs (s : List Char) : Prop := s = [] ∨ ∃ c, isSign c = true ∧ s = [c]

variable (digit) in
inductive Groups : List Char → Prop
  | nil : Groups []
  | cons {a b c : Char} {g : List Char} (ha : digit a = true) (hb : digit b = true)
      (hc : digit c = true) (h : Groups g) : Groups (',' :: a :: b :: c :: g)

variable (digit) in
def Fraction (f : List Char) : Prop := f = [] ∨ ∃ ds, f = '.' :: ds ∧ ds ≠ [] ∧ AllOf digit ds

variable (digit) in
def Exponent (e : List Char) : Prop :=
  e = [] ∨ ∃ m s ds, e = m :: (s ++ ds) ∧ isMark m = true ∧ Signs s ∧ ds ≠ [] ∧ AllOf digit ds

variable (digit) in
/-- A numeral in its parts. -/
structure Parts (w s ds g f e : List Char) : Prop where
  eq : w = s ++ (ds ++ (g ++ (f ++ e)))
  sign : Signs s
  whole_ne : ds ≠ []
  whole : AllOf digit ds
  groups : Groups digit g
  fraction : Fraction digit f
  exponent : Exponent digit e

theorem matches_one_iff {p : Char → Bool} {w : List Char} :
    (Pattern.one p).Matches w ↔ ∃ c, p c = true ∧ w = [c] := by
  constructor
  · rintro ⟨h⟩
    exact ⟨_, h, rfl⟩
  · rintro ⟨c, h, rfl⟩
    exact .one h

theorem matches_seq_iff {a b : Pattern Char} {w : List Char} :
    (Pattern.seq a b).Matches w ↔ ∃ u v, a.Matches u ∧ b.Matches v ∧ w = u ++ v := by
  constructor
  · rintro ⟨⟩
    exact ⟨_, _, ‹_›, ‹_›, rfl⟩
  · rintro ⟨u, v, hu, hv, rfl⟩
    exact .seq hu hv

theorem matches_opt_iff {a : Pattern Char} {w : List Char} :
    (Pattern.opt a).Matches w ↔ w = [] ∨ a.Matches w := by
  constructor
  · intro h
    cases h with
    | none => exact .inl rfl
    | some h => exact .inr h
  · rintro (rfl | h)
    · exact .none
    · exact .some h

theorem matches_signs_iff {s : List Char} : (Pattern.opt (.one isSign)).Matches s ↔ Signs s := by
  rw [matches_opt_iff, matches_one_iff]
  exact Iff.rfl

theorem allOf_of_matches {p : Pattern Char} {w : List Char} (h : p.Matches w) :
    p = .many (.one digit) → AllOf digit w := by
  induction h with
  | one | seq | none | some => rintro ⟨⟩
  | nil =>
    intro _ c hc
    cases hc
  | cons ha _ _ _ ih =>
    rintro ⟨⟩
    obtain ⟨c, hc, rfl⟩ := matches_one_iff.1 ha
    intro d hd
    rcases List.mem_cons.1 hd with rfl | hd
    · exact hc
    · exact ih rfl d hd

theorem matches_of_allOf {ds : List Char} (h : AllOf digit ds) :
    (Pattern.many (.one digit)).Matches ds := by
  induction ds with
  | nil => exact .nil
  | cons c ds ih =>
    rw [← List.singleton_append]
    exact .cons (.one (h c List.mem_cons_self)) (by simp)
      (ih fun d hd => h d (List.mem_cons_of_mem _ hd))

theorem matches_someDigits_iff {ds : List Char} :
    (someDigits digit).Matches ds ↔ ds ≠ [] ∧ AllOf digit ds := by
  rw [someDigits, matches_seq_iff]
  constructor
  · rintro ⟨u, v, hu, hv, rfl⟩
    obtain ⟨c, hc, rfl⟩ := matches_one_iff.1 hu
    refine ⟨by simp, fun d hd => ?_⟩
    rcases List.mem_cons.1 hd with rfl | hd
    · exact hc
    · exact allOf_of_matches hv rfl d hd
  · rintro ⟨hne, hall⟩
    obtain ⟨c, ds, rfl⟩ := List.exists_cons_of_ne_nil hne
    exact ⟨[c], ds, .one (hall c List.mem_cons_self),
      matches_of_allOf fun d hd => hall d (List.mem_cons_of_mem _ hd), rfl⟩

theorem groups_of_matches {p : Pattern Char} {w : List Char} (h : p.Matches w) :
    p = Numerals.groups digit → Groups digit w := by
  induction h with
  | one | seq | none | some => rintro ⟨⟩
  | nil =>
    intro _
    exact .nil
  | cons ha _ _ _ ih =>
    rintro ⟨⟩
    simp only [matches_seq_iff, matches_one_iff] at ha
    obtain ⟨_, _, ⟨m, hm, rfl⟩, ⟨_, _, ⟨a, ha, rfl⟩, ⟨_, _, ⟨b, hb, rfl⟩, ⟨c, hc, rfl⟩, rfl⟩, rfl⟩,
      rfl⟩ := ha
    obtain rfl : m = ',' := by simpa [isComma] using hm
    exact .cons ha hb hc (ih rfl)

theorem matches_of_groups {g : List Char} (h : Groups digit g) :
    (Numerals.groups digit).Matches g := by
  induction h with
  | nil => exact .nil
  | @cons a b c g ha hb hc _ ih =>
    have hgroup : [',', a, b, c] ++ g = ',' :: a :: b :: c :: g := rfl
    rw [← hgroup]
    refine .cons ?_ (by simp) ih
    exact .seq (.one (by simp [isComma])) (.seq (.one ha) (.seq (.one hb) (.one hc)))

theorem matches_fraction_iff {f : List Char} :
    (Numerals.fraction digit).Matches f ↔ Fraction digit f := by
  unfold Numerals.fraction Fraction
  simp only [matches_opt_iff, matches_seq_iff, matches_one_iff, matches_someDigits_iff]
  refine or_congr_right ⟨?_, ?_⟩
  · rintro ⟨_, ds, ⟨m, hm, rfl⟩, ⟨hne, hall⟩, rfl⟩
    obtain rfl : m = '.' := by simpa [isPoint] using hm
    exact ⟨ds, rfl, hne, hall⟩
  · rintro ⟨ds, rfl, hne, hall⟩
    exact ⟨['.'], ds, ⟨'.', by simp [isPoint], rfl⟩, ⟨hne, hall⟩, rfl⟩

theorem matches_exponent_iff {e : List Char} :
    (Numerals.exponent digit).Matches e ↔ Exponent digit e := by
  unfold Numerals.exponent Exponent
  simp only [matches_opt_iff, matches_seq_iff, matches_one_iff, matches_someDigits_iff]
  refine or_congr_right ⟨?_, ?_⟩
  · rintro ⟨_, _, ⟨m, hm, rfl⟩, ⟨s, ds, hs, ⟨hne, hall⟩, rfl⟩, rfl⟩
    exact ⟨m, s, ds, rfl, hm, hs, hne, hall⟩
  · rintro ⟨m, s, ds, rfl, hm, hs, hne, hall⟩
    exact ⟨[m], s ++ ds, ⟨m, hm, rfl⟩, ⟨s, ds, hs, ⟨hne, hall⟩, rfl⟩, rfl⟩

/-- The words of the pattern are what has the parts. -/
theorem matches_pattern_iff {w : List Char} : (pattern digit).Matches w ↔
    ∃ s ds g f e, Parts digit w s ds g f e := by
  unfold pattern
  constructor
  · intro h
    obtain ⟨s, _, hs, htail, rfl⟩ := matches_seq_iff.1 h
    obtain ⟨ds, _, hds, hrest, rfl⟩ := matches_seq_iff.1 htail
    obtain ⟨g, _, hg, hend, rfl⟩ := matches_seq_iff.1 hrest
    obtain ⟨f, e, hf, he, rfl⟩ := matches_seq_iff.1 hend
    obtain ⟨hne, hall⟩ := matches_someDigits_iff.1 hds
    exact ⟨s, ds, g, f, e, rfl, matches_signs_iff.1 hs, hne, hall, groups_of_matches hg rfl,
      matches_fraction_iff.1 hf, matches_exponent_iff.1 he⟩
  · rintro ⟨s, ds, g, f, e, rfl, hs, hne, hall, hg, hf, he⟩
    exact .seq (matches_signs_iff.2 hs) (.seq (matches_someDigits_iff.2 ⟨hne, hall⟩)
      (.seq (matches_of_groups hg) (.seq (matches_fraction_iff.2 hf) (matches_exponent_iff.2 he))))

section mono

variable {digit' : Char → Bool} {w : List Char}

theorem Groups.mono (hg : Groups digit w) (h : ∀ c ∈ w, digit c = true → digit' c = true) :
    Groups digit' w := by
  induction hg with
  | nil => exact .nil
  | cons ha hb hc _ ih =>
    exact .cons (h _ (by simp) ha) (h _ (by simp) hb) (h _ (by simp) hc)
      (ih fun c hm => h c (by simp [hm]))

/-- A numeral whose digits are digits of another class. -/
theorem matches_mono (hw : (pattern digit).Matches w)
    (h : ∀ c ∈ w, digit c = true → digit' c = true) : (pattern digit').Matches w := by
  obtain ⟨s, ds, g, f, e, rfl, hs, hne, hall, hg, hf, he⟩ := matches_pattern_iff.1 hw
  refine matches_pattern_iff.2 ⟨s, ds, g, f, e, rfl, hs, hne, ?_, ?_, ?_, ?_⟩
  · exact fun c hc => h c (by simp [hc]) (hall c hc)
  · exact hg.mono fun c hc => h c (by simp [hc])
  · refine hf.imp id ?_
    rintro ⟨fs, rfl, hfne, hfs⟩
    exact ⟨fs, rfl, hfne, fun c hc => h c (by simp [hc]) (hfs c hc)⟩
  · refine he.imp id ?_
    rintro ⟨m, s', es, rfl, hm, hs', hene, hes⟩
    exact ⟨m, s', es, rfl, hm, hs', hene, fun c hc => h c (by simp [hc]) (hes c hc)⟩

end mono

/-! ## Neighbours in a numeral -/

variable (digit) in
/-- What may stand behind a character of a numeral. -/
structure Next (c d : Char) : Prop where
  kind : digit d = true ∨ d = ',' ∨ d = '.' ∨ isMark d = true ∨ isSign d = true
  wants : (c = ',' ∨ c = '.' ∨ isSign c = true) → digit d = true
  sign : isSign d = true → isMark c = true

variable (digit) in
/-- The characters that may stand behind `c` up to the end of a numeral; the last is a digit. -/
def Follows : Char → List Char → Prop
  | c, [] => digit c = true
  | c, d :: u => Next digit c d ∧ Follows d u

variable (digit) in
/-- What may stand behind a digit. -/
def Tail (u : List Char) : Prop := ∀ c, digit c = true → Follows digit c u

theorem next_digit {c d : Char} (hd : Digits digit) (h : digit d = true) : Next digit c d :=
  ⟨.inl h, fun _ => h, fun hs => by simp [hd.sign d h] at hs⟩

theorem tail_nil : Tail digit [] := fun _ h => h

/-- Digits may stand behind anything. -/
theorem follows_digits (hd : Digits digit) {ds u : List Char} (hne : ds ≠ [])
    (hall : AllOf digit ds) (hu : Tail digit u) (c : Char) : Follows digit c (ds ++ u) := by
  induction ds generalizing c with
  | nil => exact absurd rfl hne
  | cons d ds ih =>
    have hdigit := hall d List.mem_cons_self
    refine ⟨next_digit hd hdigit, ?_⟩
    by_cases hds : ds = []
    · subst hds
      exact hu d hdigit
    · exact ih hds (fun x hx => hall x (List.mem_cons_of_mem _ hx)) d

/-- A mark that wants no digit behind a digit. -/
theorem next_of_digit (hd : Digits digit) {c d : Char} (hc : digit c = true)
    (hkind : d = ',' ∨ d = '.' ∨ isMark d = true) (hs : isSign d = false) : Next digit c d := by
  refine ⟨.inr (hkind.imp id (Or.imp id .inl)), ?_, fun h => by simp [hs] at h⟩
  rintro (rfl | rfl | hsign)
  · simp [hd.comma] at hc
  · simp [hd.point] at hc
  · simp [hd.sign c hc] at hsign

theorem tail_exponent (hd : Digits digit) {e : List Char} (he : Exponent digit e) :
    Tail digit e := by
  rcases he with rfl | ⟨m, s, ds, rfl, hm, hs, hne, hall⟩
  · exact tail_nil
  · intro c hc
    have hsign : isSign m = false := by
      simp only [isMark, Bool.or_eq_true, decide_eq_true_eq] at hm
      rcases hm with rfl | rfl <;> rfl
    have hdigits : ∀ x, Follows digit x (ds ++ []) :=
      follows_digits hd hne hall tail_nil
    simp only [List.append_nil] at hdigits
    refine ⟨next_of_digit hd hc (.inr (.inr hm)) hsign, ?_⟩
    rcases hs with rfl | ⟨x, hx, rfl⟩
    · exact hdigits m
    · refine ⟨⟨.inr (.inr (.inr (.inr hx))), ?_, fun _ => hm⟩, hdigits x⟩
      rintro (rfl | rfl | h)
      · cases hm
      · cases hm
      · simp [hsign] at h

theorem tail_fraction (hd : Digits digit) {f u : List Char} (hf : Fraction digit f)
    (hu : Tail digit u) : Tail digit (f ++ u) := by
  rcases hf with rfl | ⟨ds, rfl, hne, hall⟩
  · exact hu
  · intro c hc
    exact ⟨next_of_digit hd hc (.inr (.inl rfl)) rfl, follows_digits hd hne hall hu '.'⟩

theorem tail_groups (hd : Digits digit) {g u : List Char} (hg : Groups digit g)
    (hu : Tail digit u) : Tail digit (g ++ u) := by
  induction hg with
  | nil => exact hu
  | @cons a b c g ha hb hc _ ih =>
    intro x hx
    exact ⟨next_of_digit hd hx (.inl rfl) rfl, next_digit hd ha, next_digit hd hb,
      next_digit hd hc, ih c hc⟩

/-- A numeral begins with a digit or a sign, and its characters may follow each other. -/
theorem follows_of_matches (hd : Digits digit) {w : List Char} (h : (pattern digit).Matches w) :
    ∃ c u, w = c :: u ∧ (digit c = true ∨ isSign c = true) ∧ Follows digit c u := by
  obtain ⟨s, ds, g, f, e, rfl, hs, hne, hall, hg, hf, he⟩ := matches_pattern_iff.1 h
  have htail : Tail digit (g ++ (f ++ e)) :=
    tail_groups hd hg (tail_fraction hd hf (tail_exponent hd he))
  rcases hs with rfl | ⟨x, hx, rfl⟩
  · obtain ⟨d, ds, rfl⟩ := List.exists_cons_of_ne_nil hne
    have hdigit := hall d List.mem_cons_self
    refine ⟨d, ds ++ (g ++ (f ++ e)), rfl, .inl hdigit, ?_⟩
    exact (follows_digits hd hne hall htail d).2
  · exact ⟨x, ds ++ (g ++ (f ++ e)), rfl, .inr hx, follows_digits hd hne hall htail x⟩

/-- What stands in the middle of a numeral stands behind its neighbour. -/
theorem Follows.split {c d : Char} {a b : List Char} (h : Follows digit c (a ++ d :: b)) :
    ∃ l, (c :: a).getLast? = some l ∧ Next digit l d ∧ Follows digit d b := by
  induction a generalizing c with
  | nil => exact ⟨c, rfl, h.1, h.2⟩
  | cons x a ih =>
    obtain ⟨l, hl, hnext⟩ := ih h.2
    exact ⟨l, by rw [List.getLast?_cons_cons]; exact hl, hnext⟩

theorem Follows.last {c : Char} {u : List Char} (h : Follows digit c u) :
    ∃ l, (c :: u).getLast? = some l ∧ digit l = true := by
  induction u generalizing c with
  | nil => exact ⟨c, rfl, h⟩
  | cons x u ih =>
    obtain ⟨l, hl, hdigit⟩ := ih h.2
    exact ⟨l, by rw [List.getLast?_cons_cons]; exact hl, hdigit⟩

theorem not_matches_nil (hd : Digits digit) : ¬(pattern digit).Matches [] := by
  intro h
  obtain ⟨c, u, hw, -⟩ := follows_of_matches hd h
  cases hw

/-- A numeral ends with a digit. -/
theorem last_of_matches (hd : Digits digit) {w : List Char} (h : (pattern digit).Matches w) :
    ∃ l, w.getLast? = some l ∧ digit l = true := by
  obtain ⟨c, u, rfl, -, hfollows⟩ := follows_of_matches hd h
  exact hfollows.last

/-- The neighbours in a numeral. -/
theorem next_of_matches (hd : Digits digit) {a b : List Char} {l d : Char}
    (h : (pattern digit).Matches (a ++ d :: b)) (hl : a.getLast? = some l) :
    Next digit l d ∧ Follows digit d b := by
  obtain ⟨c, u, hw, -, hfollows⟩ := follows_of_matches hd h
  cases a with
  | nil => cases hl
  | cons x a =>
    rw [List.cons_append] at hw
    injection hw with hx hu
    subst hx
    rw [← hu] at hfollows
    obtain ⟨l', hl', hnext⟩ := hfollows.split
    rw [hl] at hl'
    cases hl'
    exact hnext

/-- The characters of a numeral. -/
theorem kind_of_matches (hd : Digits digit) {w : List Char} (h : (pattern digit).Matches w) {d : Char}
    (hmem : d ∈ w) : digit d = true ∨ d = ',' ∨ d = '.' ∨ isMark d = true ∨ isSign d = true := by
  obtain ⟨c, u, rfl, hc, hfollows⟩ := follows_of_matches hd h
  rcases List.mem_cons.1 hmem with rfl | hmem
  · exact hc.imp id fun hs => .inr (.inr (.inr hs))
  · obtain ⟨a, b, rfl⟩ := List.append_of_mem hmem
    obtain ⟨l, -, hnext, -⟩ := hfollows.split
    exact hnext.kind

/-- Where a numeral goes on behind another one. -/
theorem beyond (hd : Digits digit) {u b : List Char} {d : Char} (hu : (pattern digit).Matches u)
    (h : (pattern digit).Matches (u ++ d :: b)) : digit d = true ∨ isMark d = true ∨
      ((d = '.' ∨ d = ',') ∧ ∃ x y, b = x :: y ∧ digit x = true) := by
  obtain ⟨l, hl, hdigit⟩ := last_of_matches hd hu
  obtain ⟨hnext, hfollows⟩ := next_of_matches hd h hl
  have hwants : d = ',' ∨ d = '.' → ∃ x y, b = x :: y ∧ digit x = true := by
    intro hdot
    cases b with
    | nil =>
      have hdig : digit d = true := hfollows
      rcases hdot with rfl | rfl
      · simp [hd.comma] at hdig
      · simp [hd.point] at hdig
    | cons x y => exact ⟨x, y, rfl, hfollows.1.wants (hdot.imp id .inl)⟩
  rcases hnext.kind with h | rfl | rfl | h | h
  · exact .inl h
  · exact .inr (.inr ⟨.inr rfl, hwants (.inl rfl)⟩)
  · exact .inr (.inr ⟨.inl rfl, hwants (.inr rfl)⟩)
  · exact .inr (.inl h)
  · have hm := hnext.sign h
    simp [hd.mark l hdigit] at hm

end parts

end Numerals

end StateDrivenAgent
