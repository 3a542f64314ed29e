import StateDrivenAgent.Json.Text
import StateDrivenAgent.Spec.Numerals

/-!
# Numbers behind a label

What the pattern of a labelled number finds in a text, over any class of digits: the label as it
stands, white space with at most one dollar sign, and the number, whose digits are grouped in threes
if they can be. A number that is written without groups is found as a whole up to its exponent
(`captureAt_plain`), so that a text that ends with it has it as its only number (`found_plain`).
-/

namespace StateDrivenAgent

open Matching Numerals

namespace Labels

def isDollar (c : Char) : Bool := c = '$'

/-- `\s*\$?\s*`. -/
def gap : Pattern Char :=
  .seq (.many (.one Text.isWhitespace))
    (.seq (.opt (.one isDollar)) (.many (.one Text.isWhitespace)))

section pattern

variable (digit : Char → Bool)

/-- `\d{1,3}`. -/
def upToThree : Pattern Char :=
  .seq (.one digit) (.opt (.seq (.one digit) (.opt (.one digit))))

/-- `\d{1,3}(?:,\d{3})+`. -/
def grouped : Pattern Char :=
  .seq (upToThree digit) (.seq
    (.seq (.one isComma) (.seq (.one digit) (.seq (.one digit) (.one digit)))) (groups digit))

/-- What can be left behind `[-+]?(?:\d{1,3}(?:,\d{3})+|\d+)(?:\.\d+)?`, in the order of the
trials. -/
def numberRests (cs : List Char) : List (List Char) :=
  ((Pattern.opt (.one isSign)).rests cs).flatMap fun mid =>
    ((grouped digit).rests mid ++ (someDigits digit).rests mid).flatMap (fraction digit).rests

/-- The number behind a label here, and the text behind the number. -/
def captureAt (label cs : List Char) : Option (List Char × List Char) :=
  if label.isPrefixOf cs then
    ((gap.rests (cs.drop label.length)).flatMap fun mid =>
      (numberRests digit mid).map fun rest => (mid.take (mid.length - rest.length), rest)).head?
  else none

/-- The numbers from the offset on, each with the offset behind it. -/
def captures (label : List Char) : Nat → Nat → List Char → List (Nat × List Char)
  | 0, _, _ => []
  | fuel + 1, offset, cs =>
    match captureAt digit label cs with
    | some (number, rest) =>
      let stop := offset + (cs.length - rest.length)
      (stop, number) :: captures label fuel stop rest
    | none => captures label fuel (offset + 1) cs.tail

/-- The numbers behind the label in a text. -/
def found (label text : List Char) : List (Nat × List Char) :=
  captures digit label (text.length + 1) 0 text

/-- Of the ASCII characters the class has the ASCII digits. -/
def AsciiDigits : Prop := ∀ c : Char, c.toNat < 128 → digit c = Text.isAsciiDigit c

end pattern

/-! ## A number without groups -/

/-- A sign, digits and a fraction. -/
structure Ungrouped (m s ds f : List Char) : Prop where
  eq : m = s ++ (ds ++ f)
  sign : Signs s
  whole_ne : ds ≠ []
  whole : AllOf Text.isAsciiDigit ds
  fraction : Fraction Text.isAsciiDigit f

/-- No number without an exponent goes on here. -/
def Stops (digit : Char → Bool) (u : List Char) : Prop :=
  ∀ c ∈ u.head?, digit c = false ∧ isComma c = false ∧ isPoint c = false

theorem ascii_of_digit {c : Char} (h : Text.isAsciiDigit c = true) :
    48 ≤ c.toNat ∧ c.toNat ≤ 57 := by
  rw [Text.isAsciiDigit, Bool.and_eq_true, decide_eq_true_eq, decide_eq_true_eq] at h
  exact h

theorem not_sign_of_digit {c : Char} (h : Text.isAsciiDigit c = true) : isSign c = false := by
  rw [isSign, Bool.or_eq_false_iff, decide_eq_false_iff_not, decide_eq_false_iff_not]
  constructor
  · rintro rfl
    cases h
  · rintro rfl
    cases h

/-- What a number begins with is no part of the gap before it. -/
theorem solid_of_range {c : Char} (h : 43 ≤ c.toNat) (h' : c.toNat ≤ 57) :
    Text.isWhitespace c = false ∧ isDollar c = false := by
  constructor
  · simp only [Text.isWhitespace, Bool.or_eq_false_iff, Bool.and_eq_false_imp, beq_eq_false_iff_ne,
      decide_eq_true_eq, decide_eq_false_iff_not]
    omega
  · rw [isDollar, decide_eq_false_iff_not]
    rintro rfl
    exact absurd h (by decide)

variable {digit : Char → Bool}

theorem AsciiDigits.of_digit (ha : AsciiDigits digit) {c : Char}
    (h : Text.isAsciiDigit c = true) : digit c = true := by
  have hrange := ascii_of_digit h
  rw [ha c (by omega), h]

theorem AsciiDigits.allOf (ha : AsciiDigits digit) {ds : List Char}
    (h : AllOf Text.isAsciiDigit ds) : AllOf digit ds := fun c hc => ha.of_digit (h c hc)

theorem takes_someDigits (ha : AsciiDigits digit) {ds u : List Char} (hne : ds ≠ [])
    (hds : AllOf Text.isAsciiDigit ds) (hu : ∀ c ∈ u.head?, digit c = false) :
    (someDigits digit).Takes (ds ++ u) u := by
  obtain ⟨d, ds, rfl⟩ := List.exists_cons_of_ne_nil hne
  have hall := ha.allOf hds
  exact .seq (Pattern.takes_one (hall d List.mem_cons_self))
    (Pattern.takes_many (fun c hc => hall c (List.mem_cons_of_mem _ hc)) hu)

theorem takes_fraction (ha : AsciiDigits digit) {f u : List Char}
    (hf : Fraction Text.isAsciiDigit f) (hu : Stops digit u) :
    (fraction digit).Takes (f ++ u) u := by
  rcases hf with rfl | ⟨ds, rfl, hne, hds⟩
  · apply Pattern.takes_opt_of_not
    exact Pattern.rests_seq_of_not (Pattern.rests_one_of_not fun c hc => (hu c hc).2.2)
  · exact .opt (.seq (Pattern.takes_one rfl)
      (takes_someDigits ha hne hds fun c hc => (hu c hc).1))

/-- Digits with no comma behind them are no grouped number. -/
theorem rests_grouped (ha : AsciiDigits digit) {ds v : List Char}
    (hds : AllOf Text.isAsciiDigit ds) (hv : ∀ c ∈ v.head?, digit c = false ∧ isComma c = false) :
    (grouped digit).rests (ds ++ v) = [] := by
  apply List.eq_nil_iff_forall_not_mem.2
  intro rest hrest
  obtain ⟨w, hw, hmatch⟩ := Pattern.mem_rests_iff.1 hrest
  simp only [grouped, upToThree, matches_seq_iff, matches_one_iff, matches_opt_iff] at hmatch
  obtain ⟨es, _, hes, ⟨_, g, ⟨_, _, ⟨m, hm, rfl⟩, -, rfl⟩, -, rfl⟩, rfl⟩ := hmatch
  have hcomma : digit m = false := by
    obtain rfl : m = ',' := by simpa [isComma] using hm
    exact ha ',' (by decide)
  have hall : ∀ c ∈ es, digit c = true := by
    obtain ⟨_, _, ⟨a, ha, rfl⟩, rfl | ⟨_, _, ⟨b, hb, rfl⟩, rfl | ⟨c, hc, rfl⟩, rfl⟩, rfl⟩ := hes
    all_goals simp_all
  -- both ways to take the text apart end the digits at the same place
  have hdrop := congrArg (List.dropWhile digit) hw
  simp only [List.append_assoc] at hdrop
  rw [List.dropWhile_append_of_pos (ha.allOf hds), List.dropWhile_append_of_pos hall,
    List.singleton_append, List.dropWhile_cons_of_neg (by simp [hcomma])] at hdrop
  cases v with
  | nil => cases hdrop
  | cons c v =>
    rw [List.dropWhile_cons_of_neg (by simp [(hv c rfl).1])] at hdrop
    have hc := (hv c rfl).2
    rw [(List.cons.inj hdrop).1, hm] at hc
    cases hc

/-- The number is taken as a whole. -/
theorem takes_number (ha : AsciiDigits digit) {m s ds f u : List Char} (hm : Ungrouped m s ds f)
    (hu : Stops digit u) : (numberRests digit (m ++ u)).head? = some u := by
  have hstop : ∀ c ∈ (f ++ u).head?, digit c = false ∧ isComma c = false := by
    rcases hm.fraction with hf | ⟨es, hf, -, -⟩
    · rw [hf]
      exact fun c hc => ⟨(hu c hc).1, (hu c hc).2.1⟩
    · rw [hf]
      rintro c ⟨⟩
      exact ⟨ha '.' (by decide), rfl⟩
  have hsign : (Pattern.opt (.one isSign)).Takes (s ++ (ds ++ (f ++ u))) (ds ++ (f ++ u)) := by
    rcases hm.sign with rfl | ⟨c, hc, rfl⟩
    · apply Pattern.takes_opt_of_not
      refine Pattern.rests_one_of_not fun c hc => ?_
      obtain ⟨d, ds', hds⟩ := List.exists_cons_of_ne_nil hm.whole_ne
      rw [hds] at hc
      cases hc
      exact not_sign_of_digit (hm.whole c (by rw [hds]; exact List.mem_cons_self))
    · exact .opt (Pattern.takes_one hc)
  rw [numberRests, hm.eq, List.append_assoc, List.append_assoc]
  refine Pattern.head?_flatMap hsign ?_
  rw [rests_grouped ha hm.whole hstop, List.nil_append]
  exact Pattern.head?_flatMap (takes_someDigits ha hm.whole_ne hm.whole fun c hc => (hstop c hc).1)
    (takes_fraction ha hm.fraction hu)

/-- What a number begins with. -/
theorem Ungrouped.head {m s ds f : List Char} (hm : Ungrouped m s ds f) (u : List Char) :
    ∀ c ∈ (m ++ u).head?, Text.isWhitespace c = false ∧ isDollar c = false := by
  intro c hc
  rw [hm.eq] at hc
  rcases hm.sign with rfl | ⟨x, hx, rfl⟩
  · obtain ⟨d, ds', hds⟩ := List.exists_cons_of_ne_nil hm.whole_ne
    rw [hds] at hc
    cases hc
    have hrange := ascii_of_digit (hm.whole c (by rw [hds]; exact List.mem_cons_self))
    exact solid_of_range (by omega) hrange.2
  · cases hc
    simp only [isSign, Bool.or_eq_true, decide_eq_true_eq] at hx
    rcases hx with rfl | rfl
    · exact solid_of_range (by decide) (by decide)
    · exact solid_of_range (by decide) (by decide)

theorem takes_gap {v : List Char}
    (hv : ∀ c ∈ v.head?, Text.isWhitespace c = false ∧ isDollar c = false) :
    gap.Takes (' ' :: v) v := by
  have hspace : ∀ c ∈ v.head?, Text.isWhitespace c = false := fun c hc => (hv c hc).1
  have hdollar : ∀ c ∈ v.head?, isDollar c = false := fun c hc => (hv c hc).2
  have hblank : ∀ c ∈ [' '], Text.isWhitespace c = true := by
    intro c hc
    rw [List.mem_singleton.1 hc]
    rfl
  have htail : (Pattern.many (.one Text.isWhitespace)).Takes ([] ++ v) v :=
    Pattern.takes_many (fun _ h => nomatch h) hspace
  have hopt : (Pattern.opt (.one isDollar)).Takes v v :=
    Pattern.takes_opt_of_not (Pattern.rests_one_of_not hdollar)
  exact .seq (Pattern.takes_many hblank hspace) (hopt.seq htail)

/-! ## The numbers of a text -/

/-- A number behind its label and a blank is taken as a whole. -/
theorem captureAt_plain (ha : AsciiDigits digit) {label m s ds f u : List Char}
    (hm : Ungrouped m s ds f) (hu : Stops digit u) :
    captureAt digit label (label ++ ' ' :: (m ++ u)) = some (m, u) := by
  rw [captureAt, if_pos (List.isPrefixOf_iff_prefix.2 (List.prefix_append _ _)),
    List.drop_left]
  refine Pattern.head?_flatMap (takes_gap (hm.head u)) ?_
  rw [List.head?_map, takes_number ha hm hu, Option.map_some, Search.take_word]

/-- A character that no number and no gap begins with. -/
structure Inert (digit : Char → Bool) (c : Char) : Prop where
  space : Text.isWhitespace c = false
  dollar : isDollar c = false
  sign : isSign c = false
  digit : digit c = false

/-- Nothing is found where neither a gap nor a number begins. -/
theorem captureAt_none {cs : List Char} (h : ∀ c ∈ cs.head?, Inert digit c) :
    captureAt digit [] cs = none := by
  have hnumber : numberRests digit cs = [] := by
    have hdigit : (Pattern.one digit).rests cs = [] :=
      Pattern.rests_one_of_not fun c hc => (h c hc).digit
    rw [numberRests, Pattern.rests_opt_of_not (Pattern.rests_one_of_not fun c hc => (h c hc).sign),
      List.flatMap_singleton, grouped, upToThree, someDigits,
      Pattern.rests_seq_of_not (Pattern.rests_seq_of_not hdigit), Pattern.rests_seq_of_not hdigit]
    rfl
  have hspaces : (Pattern.many (.one Text.isWhitespace)).rests cs = [cs] :=
    Pattern.rests_many_of_not (Pattern.rests_one_of_not fun c hc => (h c hc).space)
  have hgap : gap.rests cs = [cs] := by
    rw [gap, Pattern.rests_seq, hspaces, List.flatMap_singleton, Pattern.rests_seq,
      Pattern.rests_opt_of_not (Pattern.rests_one_of_not fun c hc => (h c hc).dollar),
      List.flatMap_singleton, hspaces]
  rw [captureAt, if_pos List.isPrefixOf_nil_left, List.length_nil, List.drop_zero, hgap,
    List.flatMap_singleton, hnumber]
  rfl

theorem captureAt_nil (label : List Char) : captureAt digit label [] = none := by
  cases label with
  | nil => exact captureAt_none fun c hc => nomatch hc
  | cons c label => rfl

theorem captures_nil (label : List Char) (fuel offset : Nat) :
    captures digit label fuel offset [] = [] := by
  induction fuel generalizing offset with
  | zero => rfl
  | succ fuel ih =>
    rw [captures, captureAt_nil]
    exact ih _

/-- Without a label, what no number begins with is passed over. -/
theorem captures_skip {skipped cs : List Char} (h : ∀ c ∈ skipped, Inert digit c) {fuel offset : Nat} :
    captures digit [] (skipped.length + fuel) offset (skipped ++ cs) =
      captures digit [] fuel (offset + skipped.length) cs := by
  induction skipped generalizing offset with
  | nil => rw [List.length_nil, Nat.zero_add, List.nil_append, Nat.add_zero]
  | cons c skipped ih =>
    have hnone : captureAt digit [] (c :: (skipped ++ cs)) = none := by
      apply captureAt_none
      rintro x ⟨⟩
      exact h c List.mem_cons_self
    rw [List.length_cons, Nat.add_right_comm, List.cons_append, captures, hnone]
    refine (ih fun x hx => h x (List.mem_cons_of_mem _ hx)).trans ?_
    rw [Nat.add_assoc, Nat.add_comm 1]

/-- The first number behind the label is the one that is written, and it is the only one when the
text ends with it. -/
theorem found_plain (ha : AsciiDigits digit) {skipped label m s ds f u : List Char}
    (hm : Ungrouped m s ds f) (hu : Stops digit u) (hskip : ∀ c ∈ skipped, Inert digit c)
    (hlabel : skipped = [] ∨ label = []) :
    ∃ tail, found digit label (skipped ++ (label ++ ' ' :: (m ++ u))) =
      ((skipped ++ (label ++ ' ' :: m)).length, m) :: tail ∧ (u = [] → tail = []) := by
  have hrun : found digit label (skipped ++ (label ++ ' ' :: (m ++ u))) =
      captures digit label ((label ++ ' ' :: (m ++ u)).length + 1) skipped.length
        (label ++ ' ' :: (m ++ u)) := by
    rw [found]
    rcases hlabel with rfl | rfl
    · rfl
    · rw [List.length_append, Nat.add_assoc, captures_skip hskip, Nat.zero_add]
  have hstop : skipped.length + ((label ++ ' ' :: (m ++ u)).length - u.length) =
      (skipped ++ (label ++ ' ' :: m)).length := by
    simp only [List.length_append, List.length_cons]
    omega
  rw [hrun, captures, captureAt_plain ha hm hu]
  dsimp only
  rw [hstop]
  refine ⟨_, rfl, ?_⟩
  rintro rfl
  exact captures_nil _ _ _

end Labels

end StateDrivenAgent
