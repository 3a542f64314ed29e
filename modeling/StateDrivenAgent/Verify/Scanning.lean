import StateDrivenAgent.Agent.Ledger
import StateDrivenAgent.Spec.Numerals
import Mathlib.Data.List.TakeWhile

/-!
# The numerals `number_set` takes

A match of the expression is a numeral (`matches_take`), and a numeral that is not followed by a
character of a word is matched as a whole (`numeralLength_append`). The scan therefore takes the
numerals that stand between characters that are none of `[0-9A-Za-z_.,]`, whatever it met before
(`mem_numberSet_iff`).
-/

namespace StateDrivenAgent

namespace Context

open Matching Numerals Text

/-! ## The length of a numeral -/

section length

theorem asciiDigits : Digits isAsciiDigit := by
  refine ⟨fun c hc => ?_, fun c hc => ?_, rfl, rfl⟩
  · cases hs : isSign c with
    | false => rfl
    | true =>
      simp only [isSign, Bool.or_eq_true, decide_eq_true_eq] at hs
      rcases hs with rfl | rfl <;> cases hc
  · cases hm : isMark c with
    | false => rfl
    | true =>
      simp only [isMark, Bool.or_eq_true, decide_eq_true_eq] at hm
      rcases hm with rfl | rfl <;> cases hc

/-- The text does not begin with a character of a word. -/
def Clear (rest : List Char) : Prop := rest.head?.any wordChar = false

/-- The text does not begin with a digit. -/
def NoDigit (rest : List Char) : Prop := rest.head?.any isAsciiDigit = false

theorem wordChar_of_digit {c : Char} (h : isAsciiDigit c = true) : wordChar c = true := by
  simp [wordChar, h]

theorem wordChar_of_mark {c : Char} (h : isMark c = true) : wordChar c = true := by
  simp only [isMark, Bool.or_eq_true, decide_eq_true_eq] at h
  rcases h with rfl | rfl <;> rfl

theorem Clear.noDigit {rest : List Char} (h : Clear rest) : NoDigit rest := by
  unfold Clear NoDigit at *
  cases rest with
  | nil => rfl
  | cons c cs =>
    rw [List.head?_cons, Option.any_some] at h ⊢
    cases hc : isAsciiDigit c with
    | false => rfl
    | true =>
      rw [wordChar_of_digit hc] at h
      cases h

theorem digitCount_append {ds rest : List Char} (hall : AllOf isAsciiDigit ds) (hrest : NoDigit rest) :
    digitCount (ds ++ rest) = ds.length := by
  unfold digitCount
  rw [List.takeWhile_append_of_pos hall]
  have hnil : rest.takeWhile isAsciiDigit = [] := by
    cases rest with
    | nil => rfl
    | cons c cs =>
      have hc : isAsciiDigit c = false := hrest
      rw [List.takeWhile_cons, hc]
      rfl
  rw [hnil, List.append_nil]

theorem signLength_append {s rest : List Char} (hs : Signs s) (hrest : ∀ c ∈ rest.head?, isSign c = false) :
    signLength (s ++ rest) = s.length := by
  rcases hs with rfl | ⟨c, hc, rfl⟩
  · cases rest with
    | nil => rfl
    | cons c cs =>
      have hc := hrest c rfl
      simp only [isSign, Bool.or_eq_false_iff, decide_eq_false_iff_not] at hc
      simp [signLength, hc.1, hc.2]
  · simp only [isSign, Bool.or_eq_true, decide_eq_true_eq] at hc
    rcases hc with rfl | rfl <;> rfl

theorem thousands_append {g rest : List Char} (hg : Groups isAsciiDigit g)
    (hrest : ∀ c ∈ rest.head?, c ≠ ',') : thousands (g ++ rest) = g.length := by
  induction hg with
  | nil =>
    cases rest with
    | nil => rfl
    | cons c cs =>
      have hc : c ≠ ',' := hrest c rfl
      rw [List.nil_append, thousands]
      · rfl
      · intro a b d u heq
        exact hc (List.cons.inj heq).1
  | @cons a b c g ha hb hc _ ih =>
    simp only [List.cons_append, thousands, ha, hb, hc, Bool.and_self, if_true, ih,
      List.length_cons]
    omega

theorem fractionLength_append {f rest : List Char} (hf : Fraction isAsciiDigit f)
    (hrest : NoDigit rest) (hpoint : ∀ c ∈ rest.head?, c ≠ '.') :
    fractionLength (f ++ rest) = f.length := by
  rcases hf with rfl | ⟨ds, rfl, hne, hall⟩
  · cases rest with
    | nil => rfl
    | cons c cs =>
      have hc : c ≠ '.' := hpoint c rfl
      rw [List.nil_append, fractionLength]
      · rfl
      · intro u heq
        exact hc (List.cons.inj heq).1
  · have hlen : ds.length ≠ 0 := fun h => hne (List.length_eq_zero_iff.1 h)
    rw [List.cons_append, fractionLength, digitCount_append hall hrest, if_neg hlen, List.length_cons]
    omega

theorem noSign_of_digits {ds rest : List Char} (hne : ds ≠ []) (hall : AllOf isAsciiDigit ds) :
    ∀ c ∈ (ds ++ rest).head?, isSign c = false := by
  obtain ⟨d, ds, rfl⟩ := List.exists_cons_of_ne_nil hne
  intro c hc
  cases hc
  exact asciiDigits.sign d (hall d List.mem_cons_self)

theorem exponentLength_append {e rest : List Char} (he : Exponent isAsciiDigit e)
    (hrest : Clear rest) : exponentLength (e ++ rest) = e.length := by
  rcases he with rfl | ⟨m, s, ds, rfl, hm, hs, hne, hall⟩
  · cases rest with
    | nil => rfl
    | cons c cs =>
      have hc : wordChar c = false := hrest
      have hmark : ¬(c = 'e' ∨ c = 'E') := by
        rintro (rfl | rfl) <;> cases hc
      simp [exponentLength, hmark]
  · have hlen : ds.length ≠ 0 := fun h => hne (List.length_eq_zero_iff.1 h)
    have hsign : signLength (s ++ (ds ++ rest)) = s.length :=
      signLength_append hs (noSign_of_digits hne hall)
    have hmark : m = 'e' ∨ m = 'E' := by simpa [isMark] using hm
    rw [List.cons_append, List.append_assoc, exponentLength, hsign, List.drop_left,
      digitCount_append hall hrest.noDigit]
    simp only [hmark, hlen, ne_eq, not_false_eq_true, and_self, if_true, List.length_cons,
      List.length_append]
    omega

/-- What a numeral goes on with does not begin with one of these. -/
theorem head_of_tail {f e rest : List Char} (hf : Fraction isAsciiDigit f)
    (he : Exponent isAsciiDigit e) (hrest : Clear rest) {c : Char}
    (hc : c ∈ (f ++ (e ++ rest)).head?) : isAsciiDigit c = false ∧ c ≠ ',' := by
  rcases hf with rfl | ⟨ds, rfl, -, -⟩
  · rcases he with rfl | ⟨m, s, ds, rfl, hm, -, -, -⟩
    · cases rest with
      | nil => cases hc
      | cons x xs =>
        cases hc
        have hx : wordChar c = false := hrest
        refine ⟨?_, ?_⟩
        · cases hd : isAsciiDigit c with
          | false => rfl
          | true =>
            rw [wordChar_of_digit hd] at hx
            cases hx
        · rintro rfl
          cases hx
    · cases hc
      simp only [isMark, Bool.or_eq_true, decide_eq_true_eq] at hm
      rcases hm with rfl | rfl <;> exact ⟨rfl, by simp⟩
  · cases hc
    exact ⟨rfl, by simp⟩

/-- A numeral that is not followed by a character of a word is matched as a whole. -/
theorem numeralLength_append {w rest : List Char} (hw : (pattern isAsciiDigit).Matches w)
    (hrest : Clear rest) : numeralLength (w ++ rest) = w.length := by
  obtain ⟨s, ds, g, f, e, rfl, hs, hne, hall, hg, hf, he⟩ := matches_pattern_iff.1 hw
  have hlen : ds.length ≠ 0 := fun h => hne (List.length_eq_zero_iff.1 h)
  have htail : ∀ c ∈ (f ++ (e ++ rest)).head?, isAsciiDigit c = false ∧ c ≠ ',' :=
    fun c hc => head_of_tail hf he hrest hc
  have hgroups : NoDigit (g ++ (f ++ (e ++ rest))) := by
    unfold NoDigit
    cases hg with
    | nil =>
      cases hcons : f ++ (e ++ rest) with
      | nil => rfl
      | cons c cs => exact (htail c (by rw [hcons]; rfl)).1
    | cons => rfl
  have hexponent : NoDigit (e ++ rest) ∧ ∀ c ∈ (e ++ rest).head?, c ≠ '.' := by
    rcases he with rfl | ⟨m, s', ds', rfl, hm, -, -, -⟩
    · refine ⟨hrest.noDigit, fun c hc => ?_⟩
      rintro rfl
      have hclear := hrest
      rw [List.nil_append] at hc
      rw [Clear, hc] at hclear
      cases hclear
    · simp only [isMark, Bool.or_eq_true, decide_eq_true_eq] at hm
      refine ⟨?_, fun c hc => ?_⟩
      · rcases hm with rfl | rfl <;> rfl
      · cases hc
        rcases hm with rfl | rfl <;> simp
  have hsign : signLength (s ++ (ds ++ (g ++ (f ++ (e ++ rest))))) = s.length :=
    signLength_append hs (noSign_of_digits hne hall)
  have hthousands := thousands_append hg fun c hc => (htail c hc).2
  have hfraction := fractionLength_append hf hexponent.1 hexponent.2
  have hdrop₂ : (s ++ (ds ++ (g ++ (f ++ (e ++ rest))))).drop (s.length + ds.length) =
      g ++ (f ++ (e ++ rest)) := by
    rw [← List.append_assoc, ← List.length_append, List.drop_left]
  have hdrop₃ : (s ++ (ds ++ (g ++ (f ++ (e ++ rest))))).drop (s.length + ds.length + g.length) =
      f ++ (e ++ rest) := by
    rw [← List.drop_drop, hdrop₂, List.drop_left]
  have hdrop₄ : (s ++ (ds ++ (g ++ (f ++ (e ++ rest))))).drop
      (s.length + ds.length + g.length + f.length) = e ++ rest := by
    rw [← List.drop_drop, hdrop₃, List.drop_left]
  simp only [List.append_assoc, List.length_append]
  unfold numeralLength
  simp only [hsign, List.drop_left, digitCount_append hall hgroups, hlen, if_false, hdrop₂,
    hthousands, hdrop₃, hfraction, hdrop₄, exponentLength_append he hrest]
  omega

theorem allOf_takeWhile (cs : List Char) : AllOf isAsciiDigit (cs.takeWhile isAsciiDigit) :=
  fun _ h => List.mem_takeWhile_imp h

theorem take_digitCount (cs : List Char) : cs.take (digitCount cs) = cs.takeWhile isAsciiDigit := by
  unfold digitCount
  have h := List.takeWhile_append_dropWhile (p := isAsciiDigit) (l := cs)
  conv_lhs => rw [← h]
  rw [List.take_left']
  rw [h]

theorem signs_take (cs : List Char) : Signs (cs.take (signLength cs)) := by
  cases cs with
  | nil => exact .inl rfl
  | cons c cs =>
    by_cases hminus : c = '-'
    · subst hminus
      exact .inr ⟨'-', rfl, rfl⟩
    · by_cases hplus : c = '+'
      · subst hplus
        exact .inr ⟨'+', rfl, rfl⟩
      · left
        simp [signLength, hminus, hplus]

theorem groups_take (cs : List Char) : Groups isAsciiDigit (cs.take (thousands cs)) := by
  induction cs using thousands.induct with
  | case1 a b c cs h ih =>
    have hdigits : (isAsciiDigit a = true ∧ isAsciiDigit b = true) ∧ isAsciiDigit c = true := by
      simpa using h
    rw [thousands, if_pos h, Nat.add_comm]
    exact .cons hdigits.1.1 hdigits.1.2 hdigits.2 ih
  | case2 a b c cs h =>
    rw [thousands, if_neg h]
    exact .nil
  | case3 cs h =>
    rw [thousands]
    · exact .nil
    · exact h

theorem fraction_take (cs : List Char) : Fraction isAsciiDigit (cs.take (fractionLength cs)) := by
  cases cs with
  | nil => exact .inl rfl
  | cons c cs =>
    by_cases hc : c = '.'
    · subst hc
      rw [fractionLength]
      by_cases hn : digitCount cs = 0
      · rw [if_pos hn]
        exact .inl rfl
      · rw [if_neg hn, Nat.add_comm, List.take_succ_cons, take_digitCount]
        refine .inr ⟨_, rfl, fun h => hn ?_, allOf_takeWhile cs⟩
        rw [digitCount, h]
        rfl
    · left
      simp [fractionLength, hc]

theorem exponent_take (cs : List Char) : Exponent isAsciiDigit (cs.take (exponentLength cs)) := by
  cases cs with
  | nil => exact .inl rfl
  | cons c cs =>
    rw [exponentLength]
    by_cases h : (c = 'e' ∨ c = 'E') ∧ digitCount (cs.drop (signLength cs)) ≠ 0
    · rw [if_pos h]
      refine .inr ⟨c, cs.take (signLength cs), (cs.drop (signLength cs)).takeWhile isAsciiDigit, ?_,
        by simpa [isMark] using h.1, signs_take cs, fun hnil => h.2 ?_, allOf_takeWhile _⟩
      · rw [Nat.add_assoc, Nat.add_comm, List.take_succ_cons, List.take_add, take_digitCount]
      · rw [digitCount, hnil]
        rfl
    · rw [if_neg h]
      exact .inl rfl

/-- What is matched is a numeral. -/
theorem matches_take {cs : List Char} (h : numeralLength cs ≠ 0) :
    (pattern isAsciiDigit).Matches (cs.take (numeralLength cs)) := by
  unfold numeralLength at h ⊢
  simp only at h ⊢
  by_cases hwhole : digitCount (cs.drop (signLength cs)) = 0
  · rw [if_pos hwhole] at h
    exact absurd rfl h
  · rw [if_neg hwhole, List.take_add, List.take_add, List.take_add, List.take_add, take_digitCount]
    simp only [List.append_assoc]
    refine matches_pattern_iff.2 ⟨_, _, _, _, _, rfl, signs_take cs, fun hnil => hwhole ?_,
      allOf_takeWhile _, groups_take _, fraction_take _, exponent_take _⟩
    rw [digitCount, hnil]
    rfl

end length

/-! ## The places of the numerals -/

/-- A place where `number_set` takes a numeral, when its exponent fits. -/
structure Stands (f : Place Char) : Prop where
  word : (pattern isAsciiDigit).Matches f.word
  before : f.before.getLast?.any wordChar = false
  after : Clear f.after
  /-- A sign before it is part of it. -/
  whole : f.before.getLast?.any isSign = true → f.word.head?.any isSign = true

/-- `decimal_canonical` of a numeral, without its commas. -/
def canonicalWord (w : List Char) : Option String := decimalCanonical (.ofList (w.filter (· ≠ ',')))

section scan

/-- A character of a numeral is one of a word, or a sign. -/
theorem wordChar_of_mem {w : List Char} (hw : (pattern isAsciiDigit).Matches w) {c : Char}
    (hc : c ∈ w) : wordChar c = true ∨ isSign c = true := by
  rcases kind_of_matches asciiDigits hw hc with h | rfl | rfl | h | h
  · exact .inl (wordChar_of_digit h)
  · exact .inl rfl
  · exact .inl rfl
  · exact .inl (wordChar_of_mark h)
  · exact .inr h

theorem word_head {w : List Char} (hw : (pattern isAsciiDigit).Matches w) :
    ∃ c u, w = c :: u ∧ (isAsciiDigit c = true ∨ isSign c = true) := by
  obtain ⟨c, u, rfl, hc, -⟩ := follows_of_matches asciiDigits hw
  exact ⟨c, u, rfl, hc⟩

/-- No numeral stands inside a match. -/
theorem Stands.not_inside {f : Place Char} (hf : Stands f) {before found rest : List Char}
    (hfound : (pattern isAsciiDigit).Matches found) (htext : f.text = before ++ (found ++ rest))
    (hlt : before.length < f.before.length) : before.length + found.length ≤ f.before.length := by
  by_contra hstop
  have hne : f.before ≠ [] := by
    intro h
    rw [h] at hlt
    cases hlt
  obtain ⟨front, c, hfront⟩ := (List.eq_nil_or_concat f.before).resolve_left hne
  rw [List.concat_eq_append] at hfront
  have hlen : f.before.length = front.length + 1 := by rw [hfront]; simp
  obtain ⟨k, hk⟩ : ∃ k, front.length = before.length + k := ⟨front.length - before.length, by omega⟩
  have hget : found[k]? = some c := by
    have h : f.text[front.length]? = some c := by
      rw [Place.text, hfront]
      simp
    rwa [htext, hk, List.getElem?_append_right (by omega), Nat.add_sub_cancel_left,
      List.getElem?_append_left (by omega)] at h
  have hlast : f.before.getLast? = some c := by rw [hfront]; simp
  rcases wordChar_of_mem hfound (List.mem_of_getElem? hget) with hword | hsign
  · have hbefore := hf.before
    rw [hlast, Option.any_some, hword] at hbefore
    cases hbefore
  · -- the numeral has its own sign, which would stand behind a sign inside the match
    have hwhole := hf.whole (by rw [hlast]; exact hsign)
    obtain ⟨d, u, hword, -⟩ := word_head hf.word
    rw [hword, List.head?_cons, Option.any_some] at hwhole
    have hget' : found[k + 1]? = some d := by
      have h : f.text[front.length + 1]? = some d := by
        rw [Place.text, hword, ← hlen]
        simp
      rwa [htext, hk, List.getElem?_append_right (by omega),
        show before.length + k + 1 - before.length = k + 1 by omega,
        List.getElem?_append_left (by omega)] at h
    have hsplit : found = found.take (k + 1) ++ d :: found.drop (k + 2) := by
      conv_lhs => rw [← List.take_append_drop (k + 1) found]
      rw [List.drop_eq_getElem_cons (List.getElem?_eq_some_iff.1 hget').1,
        (List.getElem?_eq_some_iff.1 hget').2]
    have hpos : (found.take (k + 1)).getLast? = some c := by
      rw [List.getLast?_take]
      simp [hget]
    rw [hsplit] at hfound
    have hdigit := (next_of_matches asciiDigits hfound hpos).1.wants (.inr (.inr hsign))
    rw [asciiDigits.sign d hdigit] at hwhole
    cases hwhole

theorem Stands.word_pos {f : Place Char} (hf : Stands f) : 0 < f.word.length := by
  obtain ⟨c, u, hword, -⟩ := word_head hf.word
  rw [hword]
  exact Nat.succ_pos _

/-- A numeral that stands here is what is matched here. -/
theorem Stands.numeralLength_eq {f : Place Char} (hf : Stands f) :
    numeralLength (f.word ++ f.after) = f.word.length :=
  numeralLength_append hf.word hf.after

/-- A sign without a match here is not followed by a digit. -/
theorem noDigit_of_sign {c : Char} {cs : List Char} (hc : isSign c = true)
    (h : numeralLength (c :: cs) = 0) : NoDigit cs := by
  have hsign : signLength (c :: cs) = 1 := by
    simp only [isSign, Bool.or_eq_true, decide_eq_true_eq] at hc
    rcases hc with rfl | rfl <;> rfl
  unfold numeralLength at h
  simp only [hsign, List.drop_one, List.tail_cons] at h
  split at h
  next hcount =>
    cases cs with
    | nil => rfl
    | cons d cs =>
      cases hd : isAsciiDigit d with
      | false => exact hd
      | true => simp [digitCount, hd] at hcount
  next => omega

/-- The scan from here on takes what stands in the text from here on. A sign just before is not
followed by a digit, since it would have been matched. -/
theorem mem_numbersFrom_iff {s : String} : ∀ {fuel : Nat} {before cs : List Char},
    cs.length ≤ fuel → (before.getLast?.any isSign = true → NoDigit cs) →
    (s ∈ numbersFrom fuel before.getLast? cs ↔ ∃ f, Stands f ∧ f.text = before ++ cs ∧
      before.length ≤ f.before.length ∧ canonicalWord f.word = some s) := by
  intro fuel
  have hnil : ∀ {before : List Char} {f : Place Char}, Stands f → f.text = before ++ [] →
      before.length ≤ f.before.length → False := by
    intro before f hf htext hle
    have hlen := congrArg List.length htext
    have hpos := hf.word_pos
    simp only [Place.text, List.length_append, List.length_nil] at hlen
    omega
  induction fuel with
  | zero =>
    intro before cs hfuel _
    obtain rfl := List.length_eq_zero_iff.1 (Nat.le_zero.1 hfuel)
    refine iff_of_false (by simp [numbersFrom]) ?_
    rintro ⟨f, hf, htext, hle, -⟩
    exact hnil hf htext hle
  | succ fuel ih =>
    intro before cs hfuel hbefore
    cases cs with
    | nil =>
      refine iff_of_false (by simp [numbersFrom]) ?_
      rintro ⟨f, hf, htext, hle, -⟩
      exact hnil hf htext hle
    | cons c cs =>
      have hhere : ∀ {f : Place Char}, Stands f → f.text = before ++ c :: cs →
          before.length = f.before.length → f.before = before ∧ f.word ++ f.after = c :: cs ∧
            numeralLength (c :: cs) = f.word.length := by
        intro f hf htext heq
        obtain ⟨h₁, h₂⟩ := List.append_inj htext heq.symm
        exact ⟨h₁, h₂, h₂ ▸ hf.numeralLength_eq⟩
      rw [List.length_cons] at hfuel
      rw [numbersFrom]
      by_cases hn : numeralLength (c :: cs) = 0
      · have hlast : some c = (before ++ [c]).getLast? := by simp
        have hnext : (before ++ [c]).getLast?.any isSign = true → NoDigit cs := by
          rw [← hlast]
          exact fun hc => noDigit_of_sign hc hn
        rw [if_pos hn, hlast, ih (by omega) hnext]
        refine exists_congr fun f => and_congr_right fun hf => ?_
        rw [List.append_assoc, List.singleton_append]
        refine and_congr_right fun htext => and_congr_left fun _ => ?_
        rw [List.length_append, List.length_singleton]
        refine ⟨fun h => by omega, fun hle => Nat.lt_of_le_of_ne hle fun heq => ?_⟩
        have hlen := (hhere hf htext heq).2.2
        have hpos := hf.word_pos
        omega
      · have hfound := matches_take hn
        obtain ⟨l, hl, hdigit⟩ := last_of_matches asciiDigits hfound
        have hcs : (c :: cs).take (numeralLength (c :: cs)) ++
            (c :: cs).drop (numeralLength (c :: cs)) = c :: cs := List.take_append_drop _ _
        rw [if_neg hn]
        have hword : ∀ {f : Place Char}, Stands f → f.text = before ++ c :: cs →
            before.length = f.before.length →
            f = ⟨before, (c :: cs).take (numeralLength (c :: cs)),
              (c :: cs).drop (numeralLength (c :: cs))⟩ := by
          intro f hf htext heq
          obtain ⟨h₁, h₂, hlen⟩ := hhere hf htext heq
          rw [hlen, ← h₁, ← h₂, List.take_left, List.drop_left]
        generalize (c :: cs).take (numeralLength (c :: cs)) = found at *
        generalize (c :: cs).drop (numeralLength (c :: cs)) = rest at *
        have hfne : 0 < found.length := by
          cases found with
          | nil => cases hl
          | cons => exact Nat.succ_pos _
        have hlen := congrArg List.length hcs
        simp only [List.length_append, List.length_cons] at hlen
        have hlast : (before ++ found).getLast? = some l := by
          rw [List.getLast?_append, hl]
          rfl
        have hlater := @ih (before ++ found) rest (by omega) fun hsign => by
          rw [hlast, Option.any_some, asciiDigits.sign l hdigit] at hsign
          cases hsign
        rw [hlast, List.append_assoc, hcs, List.length_append] at hlater
        -- behind this match, or here
        have hsplit : (∃ f, Stands f ∧ f.text = before ++ c :: cs ∧
            before.length ≤ f.before.length ∧ canonicalWord f.word = some s) ↔
            (Stands ⟨before, found, rest⟩ ∧ canonicalWord found = some s) ∨
              ∃ f, Stands f ∧ f.text = before ++ c :: cs ∧
                before.length + found.length ≤ f.before.length ∧ canonicalWord f.word = some s := by
          constructor
          · rintro ⟨f, hf, htext, hle, hs⟩
            rcases Nat.eq_or_lt_of_le hle with heq | hlt
            · obtain rfl := hword hf htext heq
              exact .inl ⟨hf, hs⟩
            · exact .inr ⟨f, hf, htext, hf.not_inside hfound (by rw [htext, hcs]) hlt, hs⟩
          · rintro (⟨hf, hs⟩ | ⟨f, hf, htext, hle, hs⟩)
            · exact ⟨_, hf, by rw [Place.text, hcs], le_rfl, hs⟩
            · exact ⟨f, hf, htext, by omega, hs⟩
        have hstands : Stands ⟨before, found, rest⟩ ↔
            (before.getLast?.any wordChar || rest.head?.any wordChar) = false := by
          rw [Bool.or_eq_false_iff]
          refine ⟨fun h => ⟨h.before, h.after⟩, fun h => ⟨hfound, h.1, h.2, fun hsign => ?_⟩⟩
          obtain ⟨d, u, hd, hhead⟩ := word_head hfound
          dsimp only
          rw [hd, List.head?_cons, Option.any_some]
          refine hhead.resolve_left fun hdig => ?_
          have hno := hbefore hsign
          rw [← hcs, hd] at hno
          exact absurd hno (by simp [NoDigit, hdig])
        rw [hsplit, ← hlater, hstands]
        dsimp only
        rw [hl]
        by_cases htest : (before.getLast?.any wordChar || rest.head?.any wordChar) = true
        · rw [if_pos htest, htest]
          simp
        · rw [if_neg htest, Bool.eq_false_iff.2 htest, show decimalCanonical _ = canonicalWord found from rfl]
          cases canonicalWord found with
          | none => simp
          | some t => simp [eq_comm]

/-- `number_set` is what the numerals that stand in the text have for canonical texts. -/
theorem mem_numberSet_iff {s text : String} : s ∈ numberSet text ↔
    ∃ f, Stands f ∧ f.text = text.toList ∧ canonicalWord f.word = some s := by
  have h := @mem_numbersFrom_iff s text.toList.length [] text.toList le_rfl fun h => by cases h
  simpa [numberSet] using h

end scan

end Context

end StateDrivenAgent
