import StateDrivenAgent.Json.Trimming
import StateDrivenAgent.Python.Numerals
import StateDrivenAgent.Verify.Decimals
import StateDrivenAgent.Verify.Scanning

/-!
# The numbers of a ledger

`decimal_canonical` of a numeral is a text of the same value, when there is one
(`read_canonicalWord`), and there is one when the exponent fits 32 bits (`canonicalWord_isSome_iff`).
-/

namespace StateDrivenAgent

namespace Context

open Matching Numerals Text Decimal

/-! ## The value of a numeral -/

/-- The exponent as it is written. -/
def wordExponent (w : List Char) : Int := readExponent ((w.dropWhile notExponent).drop 1)

/-- The digits behind the point. -/
def wordFraction (w : List Char) : List Char :=
  ((w.takeWhile notExponent).dropWhile (· ≠ '.')).drop 1

/-- The digits before and behind the point without the zeros in front. -/
def wordDigits (w : List Char) : List Char :=
  stripFront ((w.takeWhile notExponent).filter isAsciiDigit)

/-- The exact value, when the digits are ASCII. -/
def wordValue (w : List Char) : Rat := Decimal.read ((w.filter (· ≠ ',')).dropWhile (· = '+'))

/-- The exponent fits 32 bits, as it is written and after the point and the zeros at the end are taken
into it. -/
structure Fits (w : List Char) : Prop where
  low : -2 ^ 31 ≤ wordExponent w
  high : wordExponent w < 2 ^ 31
  power : wordDigits w ≠ [] → -2 ^ 31 ≤ wordExponent w - (wordFraction w).length ∧
    wordExponent w - (wordFraction w).length +
      ((wordDigits w).length - (stripBack (wordDigits w)).length : Nat) < 2 ^ 31

/-- A numeral without commas. -/
structure Bald (t s whole f fraction e : List Char) : Prop where
  eq : t = s ++ (whole ++ (f ++ e))
  sign : Signs s
  whole_ne : whole ≠ []
  whole : AllDigits whole
  point : f = [] ∧ fraction = [] ∨ f = '.' :: fraction
  fraction : AllDigits fraction
  exponent : Exponent isAsciiDigit e

section word

variable {w t s whole f fraction e : List Char}

theorem filter_comma_eq {ds : List Char} (h : ∀ c ∈ ds, c ≠ ',') : ds.filter (· ≠ ',') = ds :=
  List.filter_eq_self.2 fun c hc => decide_eq_true (h c hc)

theorem digit_ne_comma {ds : List Char} (h : AllDigits ds) : ∀ c ∈ ds, c ≠ ',' :=
  fun c hc => isDigit_ne (h c hc) rfl

theorem signs_kind (h : Signs s) : ∀ c ∈ s, c = '-' ∨ c = '+' := by
  intro c hc
  rcases h with rfl | ⟨d, hd, rfl⟩
  · cases hc
  · obtain rfl := List.mem_singleton.1 hc
    simpa [isSign] using hd

theorem signs_ne_comma (h : Signs s) : ∀ c ∈ s, c ≠ ',' := by
  rintro c hc rfl
  have hkind := signs_kind h ',' hc
  simp at hkind

theorem exponent_ne_comma (h : Exponent isAsciiDigit e) : ∀ c ∈ e, c ≠ ',' := by
  rcases h with rfl | ⟨m, s, ds, rfl, hm, hs, -, hall⟩
  · intro c hc
    cases hc
  · intro c hc
    rcases List.mem_cons.1 hc with rfl | hc
    · rintro rfl
      cases hm
    · rcases List.mem_append.1 hc with hc | hc
      · exact signs_ne_comma hs c hc
      · exact digit_ne_comma hall c hc

theorem filter_groups {g : List Char} (h : Groups isAsciiDigit g) :
    g.filter (· ≠ ',') = g.filter isAsciiDigit := by
  induction h with
  | nil => rfl
  | @cons a b c g ha hb hc _ ih =>
    have ha' : a ≠ ',' := isDigit_ne ha rfl
    have hb' : b ≠ ',' := isDigit_ne hb rfl
    have hc' : c ≠ ',' := isDigit_ne hc rfl
    have hcomma : isAsciiDigit ',' = false := rfl
    simp only [List.filter_cons, ha, hb, hc, ha', hb', hc', hcomma, ih, ne_eq, not_true_eq_false,
      not_false_eq_true, decide_true, decide_false, if_true, Bool.false_eq_true, if_false]

theorem groups_kind {g : List Char} (h : Groups isAsciiDigit g) :
    ∀ c ∈ g, isAsciiDigit c = true ∨ c = ',' := by
  induction h with
  | nil =>
    intro c hc
    cases hc
  | cons ha hb hc _ ih =>
    intro d hd
    simp only [List.mem_cons] at hd
    rcases hd with rfl | rfl | rfl | rfl | hd
    · exact .inr rfl
    · exact .inl ha
    · exact .inl hb
    · exact .inl hc
    · exact ih d hd

theorem signs_notExponent (h : Signs s) : ∀ c ∈ s, notExponent c = true := by
  intro c hc
  rcases signs_kind h c hc with rfl | rfl <;> rfl

theorem groups_notExponent {g : List Char} (h : Groups isAsciiDigit g) :
    ∀ c ∈ g, notExponent c = true := by
  intro c hc
  rcases groups_kind h c hc with hd | rfl
  · have hdigit : AllDigits [c] := by
      intro d h
      rw [List.mem_singleton.1 h]
      exact hd
    exact hdigit.notExponent c (List.mem_singleton_self c)
  · rfl

theorem notExponent_append {u v : List Char} (hu : ∀ c ∈ u, notExponent c = true)
    (hv : ∀ c ∈ v, notExponent c = true) : ∀ c ∈ u ++ v, notExponent c = true := by
  intro c hc
  rcases List.mem_append.1 hc with hc | hc
  · exact hu c hc
  · exact hv c hc

/-- The text up to the mark of the exponent, and from it on. -/
theorem split_exponent {front : List Char} (hfront : ∀ c ∈ front, notExponent c = true)
    (he : Exponent isAsciiDigit e) :
    (front ++ e).takeWhile notExponent = front ∧ (front ++ e).dropWhile notExponent = e := by
  rw [List.takeWhile_append_of_pos hfront, List.dropWhile_append_of_pos hfront]
  rcases he with rfl | ⟨m, s, ds, rfl, hm, -, -, -⟩
  · exact ⟨List.append_nil _, rfl⟩
  · have hnot : ¬notExponent m = true := by
      simp only [isMark] at hm
      simp only [notExponent, hm, Bool.not_true, Bool.false_eq_true, not_false_eq_true]
    rw [List.takeWhile_cons_of_neg hnot, List.dropWhile_cons_of_neg hnot]
    exact ⟨List.append_nil _, rfl⟩

/-- The text up to the point, and behind it. -/
theorem split_point {front : List Char} (hfront : ∀ c ∈ front, c ≠ '.')
    (hpoint : f = [] ∧ fraction = [] ∨ f = '.' :: fraction) :
    (front ++ f).takeWhile (· ≠ '.') = front ∧
      ((front ++ f).dropWhile (· ≠ '.')).drop 1 = fraction := by
  have hall : ∀ c ∈ front, decide (c ≠ '.') = true := fun c hc => decide_eq_true (hfront c hc)
  rw [List.takeWhile_append_of_pos hall, List.dropWhile_append_of_pos hall]
  rcases hpoint with ⟨rfl, rfl⟩ | rfl
  · exact ⟨List.append_nil _, rfl⟩
  · simp

/-- A numeral without its commas. -/
theorem bald_of_matches (hw : (pattern isAsciiDigit).Matches w) : ∃ s whole f fraction e,
    Bald (w.filter (· ≠ ',')) s whole f fraction e ∧ wordExponent w = readExponent (e.drop 1) ∧
      wordFraction w = fraction ∧ wordDigits w = stripFront (whole ++ fraction) := by
  obtain ⟨s, ds, g, f, e, rfl, hs, hne, hall, hg, hf, he⟩ := matches_pattern_iff.1 hw
  have hwhole : AllDigits ds := hall
  obtain ⟨fraction, hpoint, hfraction⟩ : ∃ fraction, (f = [] ∧ fraction = [] ∨ f = '.' :: fraction) ∧
      AllDigits fraction := by
    rcases hf with rfl | ⟨fs, rfl, -, hfs⟩
    · exact ⟨[], .inl ⟨rfl, rfl⟩, allDigits_nil⟩
    · exact ⟨fs, .inr rfl, hfs⟩
  have hgroups : AllDigits (g.filter isAsciiDigit) := fun c hc => (List.mem_filter.1 hc).2
  have hf_not : ∀ c ∈ f, notExponent c = true := by
    rcases hpoint with ⟨rfl, rfl⟩ | rfl
    · intro c hc
      cases hc
    · intro c hc
      rcases List.mem_cons.1 hc with rfl | hc
      · rfl
      · exact hfraction.notExponent c hc
  have hfront := notExponent_append (signs_notExponent hs) (notExponent_append
    (AllDigits.notExponent hall) (notExponent_append (groups_notExponent hg) hf_not))
  obtain ⟨htake, hdrop⟩ := split_exponent hfront he
  have hpoints : ∀ c ∈ s ++ (ds ++ g), c ≠ '.' := by
    rintro c hc rfl
    rcases List.mem_append.1 hc with hc | hc
    · have hkind := signs_kind hs _ hc
      simp at hkind
    · rcases List.mem_append.1 hc with hc | hc
      · cases hall _ hc
      · rcases groups_kind hg _ hc with hd | hcomma
        · cases hd
        · simp at hcomma
  have hsign : s.filter isAsciiDigit = [] := by
    rw [List.filter_eq_nil_iff]
    intro c hc
    rcases signs_kind hs c hc with rfl | rfl <;> simp [isAsciiDigit]
  have hdigits : f.filter isAsciiDigit = fraction := by
    rcases hpoint with ⟨rfl, rfl⟩ | rfl
    · rfl
    · rw [List.filter_cons_of_neg (by simp [isAsciiDigit])]
      exact List.filter_eq_self.2 hfraction
  have hf_comma : ∀ c ∈ f, c ≠ ',' := by
    rcases hpoint with ⟨rfl, rfl⟩ | rfl
    · intro c hc
      cases hc
    · intro c hc
      rcases List.mem_cons.1 hc with rfl | hc
      · simp
      · exact digit_ne_comma hfraction c hc
  simp only [List.append_assoc] at htake hdrop
  refine ⟨s, ds ++ g.filter isAsciiDigit, f, fraction, e, ⟨?_, hs, ?_, hwhole.append hgroups, hpoint,
    hfraction, he⟩, ?_, ?_, ?_⟩
  · simp only [List.filter_append, filter_groups hg, filter_comma_eq (signs_ne_comma hs),
      filter_comma_eq (digit_ne_comma hall), filter_comma_eq hf_comma,
      filter_comma_eq (exponent_ne_comma he), List.append_assoc]
  · simp [hne]
  · rw [wordExponent, hdrop]
  · rw [wordFraction, htake]
    have h := (split_point hpoints hpoint).2
    simpa only [List.append_assoc] using h
  · rw [wordDigits, htake]
    simp only [List.filter_append, hsign, hdigits, List.nil_append, List.append_assoc]
    rw [List.filter_eq_self.2 hall]

/-! ## `decimal_canonical` -/

/-- What `decimal_canonical` makes of the sign, the digits with their point and the exponent. -/
def settle (x : Bool × List Char) (exponent : Int) : Option String :=
  let whole := x.2.takeWhile (· ≠ '.')
  let fraction := (x.2.dropWhile (· ≠ '.')).drop 1
  if !(whole ++ fraction).all isAsciiDigit then none
  else
    let ds := stripFront (whole ++ fraction)
    if ds = [] then some "0"
    else
      let kept := stripBack ds
      let power := exponent - fraction.length + (ds.length - kept.length : Nat)
      if exponent - fraction.length < -2 ^ 31 ∨ 2 ^ 31 ≤ power then none
      else some ((if x.1 then "-" else "") ++ .ofList kept ++ "e" ++ toString power)

theorem decimalCanonical_eq_settle (value : String) :
    decimalCanonical value =
      (if (trim value).toList.any (fun c => c = 'e' || c = 'E') then
        parseInt 32 (.ofList (((trim value).toList.dropWhile notExponent).drop 1)) else some 0).bind
          (settle (Engine.signed ((trim value).toList.takeWhile notExponent))) := by
  have hL : (fun c => !(c = 'e' || c = 'E')) = notExponent := rfl
  simp only [decimalCanonical, settle, stripFront, stripBack, hL]
  generalize (trim value).toList.takeWhile notExponent = L
  rcases L with _ | ⟨c, cs⟩
  · split <;> rfl
  · by_cases hminus : c = '-'
    · subst hminus
      split <;> rfl
    · by_cases hplus : c = '+'
      · subst hplus
        split <;> rfl
      · have hsigned : Engine.signed (c :: cs) = (false, c :: cs) := by
          simp [Engine.signed, hminus, hplus]
        simp only [hsigned, List.cons.injEq, hminus, hplus, false_and, imp_self, implies_true]
        split <;> rfl

theorem parseInt_signs (bits : Nat) {s ds : List Char} (hs : Signs s) (hne : ds ≠ [])
    (hall : AllDigits ds) : parseInt bits (.ofList (s ++ ds)) =
      if -2 ^ (bits - 1) ≤ readExponent (s ++ ds) ∧ readExponent (s ++ ds) < 2 ^ (bits - 1) then
        some (readExponent (s ++ ds)) else none := by
  have hparse := parseDigits_eq hall hne
  have hfilter : ∀ i : Int, (some i).filter
      (fun i => decide (-2 ^ (bits - 1) ≤ i) && decide (i < 2 ^ (bits - 1))) =
        if -2 ^ (bits - 1) ≤ i ∧ i < 2 ^ (bits - 1) then some i else none := by
    intro i
    simp [Option.filter_some]
  rw [parseInt, String.toList_ofList]
  rcases hs with rfl | ⟨c, hc, rfl⟩
  · obtain ⟨d, ds, rfl⟩ := List.exists_cons_of_ne_nil hne
    have hd := hall d List.mem_cons_self
    have hminus : d ≠ '-' := isDigit_ne hd rfl
    have hplus : d ≠ '+' := isDigit_ne hd rfl
    rw [List.nil_append, readExponent_of_digits hall, ← hfilter]
    simp [hminus, hplus, hparse]
  · simp only [isSign, Bool.or_eq_true, decide_eq_true_eq] at hc
    rcases hc with rfl | rfl
    · rw [List.singleton_append, readExponent, ← hfilter]
      simp [hparse]
    · rw [List.singleton_append, readExponent, ← hfilter]
      simp [hparse]

section bald

variable (h : Bald t s whole f fraction e)

include h

theorem Bald.front_notExponent : ∀ c ∈ s ++ (whole ++ f), notExponent c = true := by
  refine notExponent_append (signs_notExponent h.sign) (notExponent_append h.whole.notExponent ?_)
  rcases h.point with ⟨rfl, rfl⟩ | rfl
  · intro c hc
    cases hc
  · intro c hc
    rcases List.mem_cons.1 hc with rfl | hc
    · rfl
    · exact h.fraction.notExponent c hc

theorem Bald.split : t.takeWhile notExponent = s ++ (whole ++ f) ∧ t.dropWhile notExponent = e := by
  have hsplit := split_exponent h.front_notExponent h.exponent
  rwa [List.append_assoc, List.append_assoc, ← h.eq] at hsplit

theorem Bald.point_split : (whole ++ f).takeWhile (· ≠ '.') = whole ∧
    ((whole ++ f).dropWhile (· ≠ '.')).drop 1 = fraction :=
  split_point (fun c hc => isDigit_ne (h.whole c hc) rfl) h.point

theorem Bald.numberChars : ∀ c ∈ t, isNumberChar c = true := by
  have hsigns : ∀ {s : List Char}, Signs s → ∀ c ∈ s, isNumberChar c = true := by
    intro s hs c hc
    rcases signs_kind hs c hc with rfl | rfl <;> rfl
  have hdigits : ∀ {ds : List Char}, AllDigits ds → ∀ c ∈ ds, isNumberChar c = true :=
    fun hds c hc => isNumberChar_of_isDigit (hds c hc)
  intro c hc
  rw [h.eq] at hc
  rcases List.mem_append.1 hc with hc | hc
  · exact hsigns h.sign c hc
  rcases List.mem_append.1 hc with hc | hc
  · exact hdigits h.whole c hc
  rcases List.mem_append.1 hc with hc | hc
  · rcases h.point with ⟨rfl, rfl⟩ | rfl
    · cases hc
    · rcases List.mem_cons.1 hc with rfl | hc
      · rfl
      · exact hdigits h.fraction c hc
  · rcases h.exponent with rfl | ⟨m, s', ds, rfl, hm, hs, -, hall⟩
    · cases hc
    · rcases List.mem_cons.1 hc with rfl | hc
      · simp only [isMark, Bool.or_eq_true, decide_eq_true_eq] at hm
        rcases hm with rfl | rfl <;> rfl
      · rcases List.mem_append.1 hc with hc | hc
        · exact hsigns hs c hc
        · exact hdigits hall c hc

theorem Bald.trim_eq : trim (.ofList t) = .ofList t := by
  have hchars : ∀ c ∈ t, isWhitespace c = false :=
    fun c hc => Engine.not_isWhitespace (h.numberChars c hc)
  rw [trim, String.toList_ofList, Engine.dropWhile_eq_self hchars,
    Engine.dropWhile_eq_self fun c hc => hchars c (List.mem_reverse.1 hc), List.reverse_reverse]

theorem Bald.signed_eq : Engine.signed (s ++ (whole ++ f)) = (decide (s = ['-']), whole ++ f) := by
  rcases h.sign with rfl | ⟨c, hc, rfl⟩
  · obtain ⟨d, ds, hds⟩ := List.exists_cons_of_ne_nil h.whole_ne
    have hd := h.whole d (hds ▸ List.mem_cons_self)
    have hminus : d ≠ '-' := isDigit_ne hd rfl
    have hplus : d ≠ '+' := isDigit_ne hd rfl
    rw [hds]
    simp [Engine.signed, hminus, hplus]
  · simp only [isSign, Bool.or_eq_true, decide_eq_true_eq] at hc
    rcases hc with rfl | rfl <;> rfl

/-- The exponent that is read into so many bits. -/
theorem Bald.exponent_eq (bits : Nat) :
    (if t.any (fun c => c = 'e' || c = 'E') then
      parseInt bits (.ofList ((t.dropWhile notExponent).drop 1)) else some 0) =
      if -2 ^ (bits - 1) ≤ readExponent (e.drop 1) ∧ readExponent (e.drop 1) < 2 ^ (bits - 1) then
        some (readExponent (e.drop 1)) else none := by
  have hfront : (s ++ (whole ++ f)).any (fun c => c = 'e' || c = 'E') = false := by
    rw [List.any_eq_false]
    intro c hc
    have hnot := h.front_notExponent c hc
    rw [notExponent, Bool.not_eq_true'] at hnot
    simpa using hnot
  have hsplit : t = (s ++ (whole ++ f)) ++ e := by
    rw [h.eq, List.append_assoc, List.append_assoc]
  rw [h.split.2]
  conv_lhs => rw [hsplit]
  rw [List.any_append, hfront, Bool.false_or]
  rcases h.exponent with rfl | ⟨m, s', ds, rfl, hm, hs, hne, hall⟩
  · have hpos : (0 : Int) < 2 ^ (bits - 1) := by positivity
    have hzero : readExponent (List.drop 1 []) = 0 := rfl
    have hrange : -2 ^ (bits - 1) ≤ (0 : Int) ∧ (0 : Int) < 2 ^ (bits - 1) := ⟨by omega, hpos⟩
    rw [hzero, if_pos hrange]
    rfl
  · have hmark : (m :: (s' ++ ds)).any (fun c => c = 'e' || c = 'E') = true := by
      rw [List.any_cons]
      exact Bool.or_eq_true_iff.2 (.inl hm)
    rw [if_pos hmark, List.drop_one, List.tail_cons]
    exact parseInt_signs bits hs hne hall

/-- `decimal_canonical` of a numeral without commas. -/
theorem Bald.canonical : decimalCanonical (.ofList t) =
    if -2 ^ 31 ≤ readExponent (e.drop 1) ∧ readExponent (e.drop 1) < 2 ^ 31 then
      if stripFront (whole ++ fraction) = [] then some "0"
      else if readExponent (e.drop 1) - fraction.length < -2 ^ 31 ∨
          2 ^ 31 ≤ readExponent (e.drop 1) - fraction.length +
            ((stripFront (whole ++ fraction)).length -
              (stripBack (stripFront (whole ++ fraction))).length : Nat) then none
      else some ((if decide (s = ['-']) then "-" else "") ++
        .ofList (stripBack (stripFront (whole ++ fraction))) ++ "e" ++
          toString (readExponent (e.drop 1) - fraction.length +
            ((stripFront (whole ++ fraction)).length -
              (stripBack (stripFront (whole ++ fraction))).length : Nat)))
    else none := by
  have hall : (whole ++ fraction).all isAsciiDigit = true :=
    List.all_eq_true.2 (h.whole.append h.fraction)
  rw [decimalCanonical_eq_settle, h.trim_eq, String.toList_ofList, h.exponent_eq 32, h.split.1,
    h.signed_eq]
  by_cases hfits : -2 ^ 31 ≤ readExponent (e.drop 1) ∧ readExponent (e.drop 1) < 2 ^ 31
  · rw [if_pos hfits, if_pos hfits, Option.bind_some, settle]
    simp only [h.point_split.1, h.point_split.2, hall, Bool.not_true, Bool.false_eq_true, if_false]
  · rw [if_neg hfits, if_neg hfits, Option.bind_none]

end bald

/-- A numeral has a canonical text when its exponent fits. -/
theorem canonicalWord_isSome_iff (hw : (pattern isAsciiDigit).Matches w) :
    (canonicalWord w).isSome = true ↔ Fits w := by
  obtain ⟨s, whole, f, fraction, e, hbald, hexponent, hfraction, hdigits⟩ := bald_of_matches hw
  rw [canonicalWord, hbald.canonical, ← hexponent, ← hdigits, ← hfraction]
  by_cases hrange : -2 ^ 31 ≤ wordExponent w ∧ wordExponent w < 2 ^ 31
  · rw [if_pos hrange]
    by_cases hzero : wordDigits w = []
    · rw [if_pos hzero]
      exact iff_of_true rfl ⟨hrange.1, hrange.2, fun hne => absurd hzero hne⟩
    · rw [if_neg hzero]
      split
      next hout => exact iff_of_false (by simp) fun hfits => by have := hfits.power hzero; omega
      next hin => exact iff_of_true rfl ⟨hrange.1, hrange.2, fun _ => by omega⟩
  · rw [if_neg hrange]
    exact iff_of_false (by simp) fun hfits => hrange ⟨hfits.low, hfits.high⟩

/-- The value of a numeral without commas. -/
theorem Bald.read_eq (h : Bald t s whole f fraction e) : Decimal.read (t.dropWhile (· = '+')) =
    (if s = ['-'] then -1 else 1) *
      (digits (whole ++ fraction) * 10 ^ (readExponent (e.drop 1) - fraction.length) : Rat) := by
  obtain ⟨d, ds, hds⟩ := List.exists_cons_of_ne_nil h.whole_ne
  have hd := h.whole d (hds ▸ List.mem_cons_self)
  have hminus : d ≠ '-' := isDigit_ne hd rfl
  have hplus : d ≠ '+' := isDigit_ne hd rfl
  -- without a sign
  have hdrop : (whole ++ (f ++ e)).dropWhile (· = '-') = whole ++ (f ++ e) := by
    rw [hds, List.cons_append, List.dropWhile_cons_of_neg (by simpa using hminus)]
  have hfront : ∀ c ∈ whole ++ f, notExponent c = true :=
    fun c hc => h.front_notExponent c (List.mem_append_right _ hc)
  obtain ⟨htake, hrest⟩ := split_exponent hfront h.exponent
  rw [List.append_assoc] at htake hrest
  have hhead : (whole ++ (f ++ e)).head? ≠ some '-' := by
    rw [hds]
    simpa using hminus
  rcases h.sign with hs | ⟨c, hc, hs⟩
  · have hplusdrop : t.dropWhile (· = '+') = whole ++ (f ++ e) := by
      rw [h.eq, hs, List.nil_append, hds, List.cons_append,
        List.dropWhile_cons_of_neg (by simpa using hplus)]
    rw [hplusdrop, Decimal.read]
    simp only [hdrop, htake, hrest, h.point_split.1, h.point_split.2, hhead, hs]
    simp
  · simp only [isSign, Bool.or_eq_true, decide_eq_true_eq] at hc
    rcases hc with rfl | rfl
    · have hplusdrop : t.dropWhile (· = '+') = '-' :: (whole ++ (f ++ e)) := by
        rw [h.eq, hs, List.singleton_append, List.dropWhile_cons_of_neg (by simp)]
      have hneg : ('-' :: (whole ++ (f ++ e))).dropWhile (· = '-') = whole ++ (f ++ e) := by
        rw [List.dropWhile_cons_of_pos (by simp), hdrop]
      rw [hplusdrop, Decimal.read]
      simp only [hneg, htake, hrest, h.point_split.1, h.point_split.2, hs, List.head?_cons]
      simp
    · have hplusdrop : t.dropWhile (· = '+') = whole ++ (f ++ e) := by
        rw [h.eq, hs, List.singleton_append, List.dropWhile_cons_of_pos (by simp), hds,
          List.cons_append, List.dropWhile_cons_of_neg (by simpa using hplus)]
      rw [hplusdrop, Decimal.read]
      simp only [hdrop, htake, hrest, h.point_split.1, h.point_split.2, hhead, hs]
      simp

/-- The numeral that `decimal_canonical` spells. -/
def spelled (negative : Bool) (kept : List Char) (h : Bare kept) (power : Int) : Numeral where
  negative
  whole := kept
  fraction := []
  exponent := some (false, power)
  whole_ne := h.ne
  whole_digits := h.all
  whole_lead := fun hhead => absurd hhead h.head
  fraction_digits := allDigits_nil

theorem toList_spelled (negative : Bool) {kept : List Char} (h : Bare kept) (power : Int) :
    ((if negative then "-" else "") ++ .ofList kept ++ "e" ++ toString power).toList =
      (spelled negative kept h power).text := by
  cases negative <;>
    simp [spelled, Numeral.text, Numeral.unsigned, Numeral.fractionText, Numeral.exponentText]

/-- The text that `decimal_canonical` makes has the value of the numeral. -/
theorem Bald.read_canonical (h : Bald t s whole f fraction e) {text : String}
    (htext : decimalCanonical (.ofList t) = some text) :
    Decimal.read text.toList = (if s = ['-'] then -1 else 1) *
      (digits (whole ++ fraction) * 10 ^ (readExponent (e.drop 1) - fraction.length) : Rat) := by
  have hall : AllDigits (whole ++ fraction) := h.whole.append h.fraction
  rw [h.canonical] at htext
  split at htext
  · split at htext
    next hzero =>
      cases htext
      have hdigits : digits (whole ++ fraction) = 0 := by
        rw [← digits_stripFront, hzero]
        rfl
      rw [hdigits, show "0".toList = ['0'] from rfl, read_zero]
      simp
    next hne =>
      split at htext
      · cases htext
      · cases htext
        have hback := digits_stripBack (stripFront (whole ++ fraction))
        rw [toList_spelled _ (bare_strip hall hne), Numeral.read_text, Numeral.value,
          Numeral.magnitude, ← digits_stripFront (whole ++ fraction), hback]
        simp only [spelled, Numeral.exp, Option.map_some, Option.getD_some, List.append_nil,
          List.length_nil, decide_eq_true_eq]
        rw [Int.natCast_zero, sub_zero, zpow_add₀ (by norm_num), zpow_natCast]
        push_cast
        split <;> ring
  · cases htext

/-- The canonical text of a numeral has its value. -/
theorem read_canonicalWord (hw : (pattern isAsciiDigit).Matches w) {text : String}
    (h : canonicalWord w = some text) : Decimal.read text.toList = wordValue w := by
  obtain ⟨s, whole, f, fraction, e, hbald, -, -, -⟩ := bald_of_matches hw
  rw [wordValue, hbald.read_eq, hbald.read_canonical h]

end word

/-! ## The numbers of the reference agent -/

/-- A place where `number_set` takes a numeral. -/
structure Taken (f : Place Char) : Prop where
  stands : Stands f
  fits : Fits f.word

theorem exists_numberSet_iff {text : String} {q : Rat} :
    (∃ n ∈ numberSet text, Decimal.read n.toList = q) ↔
      ∃ f, Taken f ∧ f.text = text.toList ∧ wordValue f.word = q := by
  constructor
  · rintro ⟨n, hn, rfl⟩
    obtain ⟨f, hf, htext, hcanonical⟩ := mem_numberSet_iff.1 hn
    refine ⟨f, ⟨hf, (canonicalWord_isSome_iff hf.word).1 ?_⟩, htext,
      (read_canonicalWord hf.word hcanonical).symm⟩
    rw [hcanonical]
    rfl
  · rintro ⟨f, hf, htext, rfl⟩
    obtain ⟨n, hn⟩ := Option.isSome_iff_exists.1 ((canonicalWord_isSome_iff hf.stands.word).2 hf.fits)
    exact ⟨n, mem_numberSet_iff.2 ⟨f, hf.stands, htext, hn⟩, read_canonicalWord hf.stands.word hn⟩

section reference

variable (u : Python.Unicode)

/-- A number of the reference agent that `number_set` does not take: it ends a clause, its exponent
does not fit, or it has a digit that is not ASCII. -/
def Missed (f : Place Char) : Prop :=
  f.after.head?.any (fun c => c = '.' || c = ',') = true ∨ ¬Fits f.word ∨
    ∃ c ∈ f.word, u.digit c = true ∧ isAsciiDigit c = false

/-- A numeral that the looks of the reference agent do not let pass: it stands behind a sign, or next to
a letter or a digit that is not ASCII. -/
def Stray (f : Place Char) : Prop :=
  f.before.getLast?.any (fun c => isSign c || u.word c) = true ∨ f.after.head?.any u.word = true

/-- The two agents differ on no number of this text. -/
structure Twinned (text : String) : Prop where
  missed : ∀ f, (Python.numbersSearch u).Occurs f → f.text = text.toList → Missed u f →
    ∃ g, Taken g ∧ g.text = text.toList ∧ wordValue g.word = u.value f.word
  stray : ∀ g, Taken g → g.text = text.toList → Stray u g →
    ∃ f, (Python.numbersSearch u).Occurs f ∧ f.text = text.toList ∧ u.value f.word = wordValue g.word

variable {u}

theorem ascii_of_wordChar {c : Char} (h : wordChar c = true) : c.toNat < 128 := by
  simp only [wordChar, isAsciiDigit, Bool.or_eq_true, Bool.and_eq_true, decide_eq_true_eq,
    Char.le_def, UInt32.le_iff_toNat_le] at h
  rcases h with ((((⟨-, h⟩ | ⟨-, h⟩) | ⟨-, h⟩) | rfl) | rfl) | rfl
  · exact Nat.lt_of_le_of_lt h (by decide)
  · exact Nat.lt_of_le_of_lt h (by decide)
  · exact Nat.lt_of_le_of_lt h (by decide)
  all_goals decide

/-- A character of a word is one for the reference agent, or a point or a comma. -/
theorem wordChar_iff {c : Char} (hc : c.toNat < 128) :
    wordChar c = (u.word c || c = '.' || c = ',') := by
  rw [u.ascii_word c hc, wordChar]

theorem wordChar_eq_false {c : Char} (hword : u.word c = false) (hpoint : c ≠ '.') (hcomma : c ≠ ',') :
    wordChar c = false := by
  cases h : wordChar c with
  | false => rfl
  | true =>
    rw [wordChar_iff (u := u) (ascii_of_wordChar h)] at h
    simp [hword, hpoint, hcomma] at h

theorem decimal_of_digit {c : Char} (h : isAsciiDigit c = true) :
    u.decimal c = some (c.toNat - 48) := by
  rw [u.ascii_decimal c (ascii_of_wordChar (wordChar_of_digit h)), if_pos h]

theorem digit_of_ascii {c : Char} (h : isAsciiDigit c = true) : u.digit c = true := by
  rw [Python.Unicode.digit, decimal_of_digit h]
  rfl

theorem ascii_eq {w : List Char} (hw : (pattern isAsciiDigit).Matches w) {c : Char} (hc : c ∈ w) :
    u.ascii c = c := by
  have hnone : ∀ {c : Char}, c.toNat < 128 → isAsciiDigit c = false → u.ascii c = c := by
    intro c hlt hdigit
    rw [Python.Unicode.ascii, u.ascii_decimal c hlt, hdigit]
    rfl
  rcases kind_of_matches asciiDigits hw hc with h | rfl | rfl | h | h
  · obtain ⟨d, hd, rfl⟩ := digitChar_of_isDigit h
    rw [Python.Unicode.ascii, decimal_of_digit h]
    exact congrArg Nat.digitChar (Nat.toNat_digitChar_sub_48_of_lt_ten hd)
  · exact hnone (by decide) rfl
  · exact hnone (by decide) rfl
  · simp only [isMark, Bool.or_eq_true, decide_eq_true_eq] at h
    rcases h with rfl | rfl <;> exact hnone (by decide) rfl
  · simp only [isSign, Bool.or_eq_true, decide_eq_true_eq] at h
    rcases h with rfl | rfl <;> exact hnone (by decide) rfl

/-- The two agents read a numeral with ASCII digits alike. -/
theorem value_eq {w : List Char} (hw : (pattern isAsciiDigit).Matches w) :
    u.value w = wordValue w := by
  have hmap : (w.filter (· ≠ ',')).map u.ascii = w.filter (· ≠ ',') := by
    conv_rhs => rw [← List.map_id (w.filter (· ≠ ','))]
    exact List.map_congr_left fun c hc => ascii_eq hw (List.mem_of_mem_filter hc)
  rw [Python.Unicode.value, wordValue, hmap]

/-- A number of the reference agent that is not missed is taken. -/
theorem taken_of_occurs {f : Place Char} (hf : (Python.numbersSearch u).Occurs f)
    (hmissed : ¬Missed u f) : Taken f := by
  obtain ⟨hafter, hfits, hdigits⟩ : f.after.head?.any (fun c => c = '.' || c = ',') = false ∧
      Fits f.word ∧ ∀ c ∈ f.word, u.digit c = true → isAsciiDigit c = true := by
    unfold Missed at hmissed
    push Not at hmissed
    refine ⟨by simpa using hmissed.1, hmissed.2.1, fun c hc hd => ?_⟩
    simpa using hmissed.2.2 c hc hd
  have hjoins : f.before.getLast?.any u.joins = false := by
    have h := hf.behind
    rwa [Python.numbersSearch, Bool.not_eq_true'] at h
  have hends : u.ends f.after = true := hf.ahead
  refine ⟨⟨matches_mono hf.word hdigits, ?_, ?_, ?_⟩, hfits⟩
  · cases hlast : f.before.getLast? with
    | none => rfl
    | some c =>
      rw [hlast, Option.any_some] at hjoins
      simp only [Python.Unicode.joins, Bool.or_eq_false_iff, decide_eq_false_iff_not] at hjoins
      exact wordChar_eq_false hjoins.1.1.1.1 hjoins.1.1.1.2 hjoins.1.1.2
  · unfold Clear
    cases hcs : f.after with
    | nil => rfl
    | cons c cs =>
      rw [hcs, List.head?_cons, Option.any_some] at hafter
      simp only [Bool.or_eq_false_iff, decide_eq_false_iff_not] at hafter
      rw [hcs] at hends
      refine wordChar_eq_false (u := u) ?_ hafter.1 hafter.2
      cases cs with
      | nil => simpa [Python.Unicode.ends] using hends
      | cons d cs =>
        simp only [Python.Unicode.ends, Bool.not_eq_true', Bool.or_eq_false_iff] at hends
        exact hends.1
  · intro hsign
    cases hlast : f.before.getLast? with
    | none =>
      rw [hlast] at hsign
      cases hsign
    | some c =>
      rw [hlast, Option.any_some] at hjoins hsign
      simp only [Python.Unicode.joins, Bool.or_eq_false_iff, decide_eq_false_iff_not] at hjoins
      simp [isSign, hjoins.1.2, hjoins.2] at hsign

/-- A numeral that is taken and does not stray is a number of the reference agent. -/
theorem occurs_of_taken {f : Place Char} (hf : Taken f) (hstray : ¬Stray u f) :
    (Python.numbersSearch u).Occurs f := by
  obtain ⟨hbefore, hafter⟩ : f.before.getLast?.any (fun c => isSign c || u.word c) = false ∧
      f.after.head?.any u.word = false := by
    unfold Stray at hstray
    push Not at hstray
    simpa using hstray
  have hword := hf.stands.before
  have hclear := hf.stands.after
  unfold Clear at hclear
  refine ⟨matches_mono hf.stands.word fun c _ hd => digit_of_ascii hd, ?_, ?_⟩
  · rw [Python.numbersSearch, Bool.not_eq_true']
    cases hlast : f.before.getLast? with
    | none => rfl
    | some c =>
      rw [hlast, Option.any_some] at hbefore
      rw [hlast, Option.any_some] at hword
      have hpoint : c ≠ '.' := by
        rintro rfl
        cases hword
      have hcomma : c ≠ ',' := by
        rintro rfl
        cases hword
      simp only [isSign, Bool.or_eq_false_iff, decide_eq_false_iff_not] at hbefore
      simp [Python.Unicode.joins, hbefore.1.1, hbefore.1.2, hbefore.2, hpoint, hcomma]
  · change u.ends f.after = true
    cases hcs : f.after with
    | nil => rfl
    | cons c cs =>
      rw [hcs, List.head?_cons, Option.any_some] at hafter
      rw [hcs, List.head?_cons, Option.any_some] at hclear
      have hpoint : c ≠ '.' := by
        rintro rfl
        cases hclear
      have hcomma : c ≠ ',' := by
        rintro rfl
        cases hclear
      cases cs <;> simp [Python.Unicode.ends, hafter, hpoint, hcomma]

theorem numbers_eq_iff {text : String} : (∀ q, (∃ n ∈ numberSet text, Decimal.read n.toList = q) ↔
    q ∈ Python.numbers u text) ↔ Twinned u text := by
  simp only [exists_numberSet_iff, Python.mem_numbers_iff]
  constructor
  · intro h
    refine ⟨fun f hf htext _ => (h _).2 ⟨f, hf, htext, rfl⟩, fun g hg htext _ => ?_⟩
    exact (h _).1 ⟨g, hg, htext, rfl⟩
  · intro h q
    constructor
    · rintro ⟨g, hg, htext, rfl⟩
      by_cases hstray : Stray u g
      · exact h.stray g hg htext hstray
      · exact ⟨g, occurs_of_taken hg hstray, htext, value_eq hg.stands.word⟩
    · rintro ⟨f, hf, htext, rfl⟩
      by_cases hmissed : Missed u f
      · exact h.missed f hf htext hmissed
      · have htaken := taken_of_occurs hf hmissed
        exact ⟨f, htaken, htext, (value_eq htaken.stands.word).symm⟩

end reference

/-! ## Accepted ledgers -/

/-- The sections `validate_ledger` looks at: the goal of the session and three of the proposal. -/
def ledgerSections (proposal goal : String) (hybrid : Bool) : List String :=
  match if hybrid then parseXmlSections (stripFence proposal)
    else parseHeadingSections (stripFence proposal) with
  | .ok [_, claims, deadEnds, hypothesis] => [trim goal, claims, deadEnds, hypothesis]
  | _ => []

section accepted

variable {host : Host} {proposal goal source rendered : String} {maxBytes : Nat} {hybrid : Bool}
  {ledger : Ledger}

/-- What an accepted proposal was read as, and what was found of its numerals. -/
theorem read_of_ok
    (h : validateLedger host proposal goal source maxBytes hybrid = .ok (ledger, rendered)) :
    ∃ first claims deadEnds hypothesis, (if hybrid then parseXmlSections (stripFence proposal)
        else parseHeadingSections (stripFence proposal)) = .ok [first, claims, deadEnds, hypothesis] ∧
      (numberSet (joinWith "\n" [trim goal, claims, deadEnds, hypothesis])).find?
        (fun n => !(numberSet source).contains n) = none ∧
      ledger.goal = goal ∧ ledger.modelClaims = lines claims ∧ ledger.deadEnds = lines deadEnds ∧
        ledger.hypothesis = hypothesis := by
  unfold validateLedger at h
  by_cases hempty : (trim proposal).isEmpty = true
  · rw [if_pos hempty] at h
    cases h
  rw [if_neg hempty] at h
  by_cases hlong : proposal.utf8ByteSize > maxBytes
  · rw [if_pos hlong] at h
    cases h
  rw [if_neg hlong] at h
  cases hybrid <;>
  · simp only [Bool.false_eq_true, if_false, if_true] at h ⊢
    obtain ⟨sections, hp, h⟩ := bind_ok h
    rcases sections with _ | ⟨first, _ | ⟨claims, _ | ⟨deadEnds, _ | ⟨hypothesis, _ | ⟨e, l⟩⟩⟩⟩⟩
    iterate 4 cases h
    · refine ⟨first, claims, deadEnds, hypothesis, hp, ?_⟩
      dsimp only at h
      cases hfind : (numberSet (joinWith "\n" [trim goal, claims, deadEnds, hypothesis])).find?
          fun n => !(numberSet source).contains n with
      | some n =>
        rw [hfind] at h
        split_ifs at h
      | none =>
        rw [hfind] at h
        split_ifs at h
        cases h
        exact ⟨rfl, rfl, rfl, rfl, rfl⟩
    · cases h

/-- The sections are those of the ledger, and each of their numerals is one of the source. -/
theorem sections_of_ok
    (h : validateLedger host proposal goal source maxBytes hybrid = .ok (ledger, rendered)) :
    (∃ claims deadEnds, ledgerSections proposal goal hybrid =
      [trim ledger.goal, claims, deadEnds, ledger.hypothesis] ∧ lines claims = ledger.modelClaims ∧
        lines deadEnds = ledger.deadEnds) ∧
      ∀ n ∈ numberSet (joinWith "\n" (ledgerSections proposal goal hybrid)), n ∈ numberSet source := by
  obtain ⟨first, claims, deadEnds, hypothesis, hparsed, hfind, hgoal, hclaims, hdead, hhyp⟩ :=
    read_of_ok h
  have hsections : ledgerSections proposal goal hybrid = [trim goal, claims, deadEnds, hypothesis] := by
    rw [ledgerSections, hparsed]
  rw [hsections]
  refine ⟨⟨claims, deadEnds, by rw [hgoal, hhyp], hclaims.symm, hdead.symm⟩, fun n hn => ?_⟩
  have hnone := List.find?_eq_none.1 hfind n hn
  simpa using hnone

/-- What the reference agent would find in the sections of an accepted ledger is in the source: what the
other agent misses there, and what it takes from the source although the reference agent does not. -/
structure Grounded (u : Python.Unicode) (sections source : String) : Prop where
  missed : ∀ f, (Python.numbersSearch u).Occurs f → f.text = sections.toList → Missed u f →
    u.value f.word ∈ Python.numbers u source
  stray : ∀ g, Taken g → g.text = source.toList → Stray u g →
    wordValue g.word ∈ Python.numbers u sections → wordValue g.word ∈ Python.numbers u source

theorem complete_iff_grounded (u : Python.Unicode)
    (h : validateLedger host proposal goal source maxBytes hybrid = .ok (ledger, rendered)) :
    (∀ q ∈ Python.numbers u (joinWith "\n" (ledgerSections proposal goal hybrid)),
      q ∈ Python.numbers u source) ↔
        Grounded u (joinWith "\n" (ledgerSections proposal goal hybrid)) source := by
  constructor
  · intro hall
    refine ⟨fun f hf htext _ => ?_, fun g _ _ _ hq => hall _ hq⟩
    exact hall _ (Python.mem_numbers_iff.2 ⟨f, hf, htext, rfl⟩)
  · intro hgrounded q hq
    obtain ⟨f, hf, htext, rfl⟩ := Python.mem_numbers_iff.1 hq
    by_cases hmissed : Missed u f
    · exact hgrounded.missed f hf htext hmissed
    · have htaken := taken_of_occurs hf hmissed
      obtain ⟨n, hn, hval⟩ := exists_numberSet_iff.2 ⟨f, htaken, htext, rfl⟩
      obtain ⟨g, hg, hgtext, hgval⟩ :=
        exists_numberSet_iff.1 ⟨n, (sections_of_ok h).2 n hn, rfl⟩
      have heq : wordValue g.word = u.value f.word := by
        rw [hgval, hval, value_eq htaken.stands.word]
      by_cases hstray : Stray u g
      · rw [← heq] at hq ⊢
        exact hgrounded.stray g hg hgtext hstray hq
      · rw [← heq]
        exact Python.mem_numbers_iff.2
          ⟨g, occurs_of_taken hg hstray, hgtext, value_eq hg.stands.word⟩

end accepted

/-- `number_set` finds the numbers of the reference agent in exactly the texts on which the two do not
differ, and the numbers of an accepted ledger are all in the source exactly when those are that
`number_set` misses, or takes from the source alone. -/
theorem numbers_grounded_iff (u : Python.Unicode) :
    (∀ text, (∀ q, (∃ n ∈ numberSet text, Decimal.read n.toList = q) ↔ q ∈ Python.numbers u text) ↔
      Twinned u text) ∧
    ∀ (host : Host) (proposal goal source : String) (maxBytes : Nat) (hybrid : Bool) (ledger : Ledger)
      (rendered : String),
      validateLedger host proposal goal source maxBytes hybrid = .ok (ledger, rendered) →
      ((∀ q ∈ Python.numbers u (joinWith "\n" (ledgerSections proposal goal hybrid)),
        q ∈ Python.numbers u source) ↔
          Grounded u (joinWith "\n" (ledgerSections proposal goal hybrid)) source) :=
  ⟨fun _ => numbers_eq_iff, fun _ _ _ _ _ _ _ _ h => complete_iff_grounded u h⟩

/-! ## A number before a full stop -/

def asciiWord (c : Char) : Bool :=
  isAsciiDigit c || ('a' ≤ c && c ≤ 'z') || ('A' ≤ c && c ≤ 'Z') || c = '_'

def asciiDecimal (c : Char) : Option Nat := if isAsciiDigit c then some (c.toNat - 48) else none

theorem asciiDecimal_lt (c : Char) (d : Nat) (h : asciiDecimal c = some d) : d < 10 := by
  unfold asciiDecimal at h
  split at h
  next hc =>
    obtain ⟨k, hk, rfl⟩ := digitChar_of_isDigit hc
    rw [Nat.toNat_digitChar_sub_48_of_lt_ten hk] at h
    cases h
    exact hk
  · cases h

theorem asciiWord_of_decimal (c : Char) (h : (asciiDecimal c).isSome = true) :
    asciiWord c = true := by
  unfold asciiDecimal at h
  split at h
  next hc => simp [asciiWord, hc]
  · cases h

theorem asciiWord_eq (c : Char) (_ : c.toNat < 128) : asciiWord c =
    (isAsciiDigit c || ('a' ≤ c && c ≤ 'z') || ('A' ≤ c && c ≤ 'Z') || c = '_') := rfl

theorem asciiDecimal_eq (c : Char) (_ : c.toNat < 128) :
    asciiDecimal c = if isAsciiDigit c then some (c.toNat - 48) else none := rfl

/-- Tables without characters beyond ASCII. -/
def asciiTables : Python.Unicode where
  word := asciiWord
  decimal := asciiDecimal
  decimal_lt := asciiDecimal_lt
  word_of_decimal := asciiWord_of_decimal
  ascii_word := asciiWord_eq
  ascii_decimal := asciiDecimal_eq

/-- A proposal whose last section is a number and a full stop. -/
def stoppedProposal : String :=
  "- Core Objective:\ng\n- Universal Truths Discovered:\na\n- Dead Ends:\nb\n- Current Local Pivot:\n9001."

theorem stoppedProposal_ok : ∃ ledger rendered,
    validateLedger exactHost stoppedProposal "g" "s" 1000 false = .ok (ledger, rendered) := by
  have hsome :
      (validateLedger exactHost stoppedProposal "g" "s" 1000 false).toOption.isSome = true := by
    decide +kernel
  cases h : validateLedger exactHost stoppedProposal "g" "s" 1000 false with
  | error e =>
    rw [h] at hsome
    cases hsome
  | ok x => exact ⟨x.1, x.2, rfl⟩

theorem stoppedProposal_sections :
    ledgerSections stoppedProposal "g" false = ["g", "a", "b", "9001."] := by
  decide +kernel

theorem numbers_grounded_stopped : ∃ ledger rendered,
    validateLedger exactHost stoppedProposal "g" "s" 1000 false = .ok (ledger, rendered) ∧
      ((∀ q ∈ Python.numbers asciiTables (joinWith "\n" (ledgerSections stoppedProposal "g" false)),
        q ∈ Python.numbers asciiTables "s") ↔
          Grounded asciiTables (joinWith "\n" (ledgerSections stoppedProposal "g" false)) "s") := by
  obtain ⟨ledger, rendered, hok⟩ := stoppedProposal_ok
  exact ⟨ledger, rendered, hok,
    (numbers_grounded_iff asciiTables).2 exactHost stoppedProposal "g" "s" 1000 false ledger rendered hok⟩

/-- A number before a full stop passes the check although the source has no number. -/
theorem numbers_ungrounded :
    (∃ ledger rendered,
      validateLedger exactHost stoppedProposal "g" "s" 1000 false = .ok (ledger, rendered)) ∧
    (9001 : Rat) ∈ Python.numbers asciiTables
      (joinWith "\n" (ledgerSections stoppedProposal "g" false)) ∧
    Python.numbers asciiTables "s" = [] := by
  refine ⟨stoppedProposal_ok, ?_, by decide +kernel⟩
  rw [stoppedProposal_sections]
  decide +kernel

end Context

end StateDrivenAgent
