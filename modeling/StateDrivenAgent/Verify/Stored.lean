import StateDrivenAgent.Storage.Jsonb
import StateDrivenAgent.Verify.Decimals
import StateDrivenAgent.Verify.Encodings

/-!
# Tokens after a `JSONB` column

On the text of a numeral, `numericText` gives a numeral of the same value without an exponent
(`numericText_value`), which is the same text if there was no exponent and the value is not zero
(`numericText_of_none`). Storing a document twice is therefore storing it once.
-/

namespace Decimal

open StateDrivenAgent Text StateDrivenAgent.Engine

namespace Numeral

variable (n : Numeral)

/-- How many digits the `numeric` has after the point, if positive. -/
def scale : Int := n.fraction.length - n.exp

theorem numericText_text : numericText n.text =
    if n.ds = [] then '0' :: (if 0 < n.scale then '.' :: List.replicate n.scale.toNat '0' else [])
    else (if n.negative then ['-'] else []) ++ placePoint n.ds (n.ds.length - n.scale) [] := by
  simp only [numericText]
  rw [n.dropWhile_minus_text, n.takeWhile_unsigned, n.dropWhile_unsigned, n.takeWhile_mantissa,
    n.dropWhile_mantissa, n.readExponent_exponentText]
  simp only [n.head?_text]
  rfl

variable {n}

theorem ds_ne_nil (hn : n.value ≠ 0) : n.ds ≠ [] := fun h => hn (value_eq_zero_iff.2 h)

theorem ds_allDigits : AllDigits n.ds := by
  have hall : AllDigits (n.whole ++ n.fraction) := n.whole_digits.append n.fraction_digits
  exact fun c hc => hall c ((List.dropWhile_sublist _).subset hc)

theorem magnitude_ds : n.magnitude = digits n.ds * 10 ^ (-n.scale) := by
  rw [magnitude, ← digits_stripFront (n.whole ++ n.fraction), scale, neg_sub]
  rfl

/-- The `numeric` of a numeral has its value and no exponent. -/
theorem numericText_value (hn : n.value ≠ 0) :
    ∃ m : Numeral, m.exponent = none ∧ m.text = numericText n.text ∧ m.value = n.value := by
  obtain ⟨m, hneg, hunsigned, hmag, -, hexp⟩ := placePoint_digits n.negative (ds_ne_nil hn)
    ds_allDigits (head?_stripFront _) (n.ds.length - n.scale)
  have hmagnitude : m.magnitude = n.magnitude := by
    rw [hmag, magnitude_ds]
    congr 2
    omega
  refine ⟨m, hexp, ?_, ?_⟩
  · rw [numericText_text, if_neg (ds_ne_nil hn), text, hneg, hunsigned]
  · rw [value, value, hneg, hmagnitude]

/-- A numeral without an exponent is the text of its `numeric`. -/
theorem numericText_of_none (hn : n.value ≠ 0) (he : n.exponent = none) :
    numericText n.text = n.text := by
  have hne := ds_ne_nil hn
  have hexp : n.exp = 0 := by
    rw [exp, he]
    rfl
  have hscale : n.scale = n.fraction.length := by
    rw [scale, hexp, sub_zero]
  rw [numericText_text, if_neg hne, text, unsigned, he, exponentText, List.append_nil, hscale]
  congr 1
  obtain ⟨c, cs, hcs⟩ := List.exists_cons_of_ne_nil n.whole_ne
  by_cases hc : c = '0'
  · -- the whole part is a single zero
    obtain rfl : cs = [] := by
      have hlen := n.whole_lead (by rw [hcs, hc]; rfl)
      rw [hcs, List.length_cons] at hlen
      exact List.length_eq_zero_iff.1 (by omega)
    have hds : n.ds = stripFront n.fraction := by
      rw [ds, hcs, hc]
      rfl
    obtain ⟨k, hk⟩ : ∃ k, n.fraction = List.replicate k '0' ++ n.ds := by
      refine ⟨(n.fraction.takeWhile (· = '0')).length, ?_⟩
      have htake : n.fraction.takeWhile (· = '0') =
          List.replicate (n.fraction.takeWhile (· = '0')).length '0' :=
        List.eq_replicate_iff.2 ⟨rfl, fun d hd => by simpa using List.mem_takeWhile_imp hd⟩
      rw [← htake, hds, stripFront, List.takeWhile_append_dropWhile]
    have hlen : n.fraction.length = k + n.ds.length := by
      rw [hk, List.length_append, List.length_replicate]
    have hfraction : n.fraction ≠ [] := by
      rw [hk]
      exact List.append_ne_nil_of_right_ne_nil _ hne
    have hzeros : (-((n.ds.length : Int) - n.fraction.length)).toNat = k := by omega
    rw [placePoint, if_pos (by omega), hzeros, fractionText, if_neg hfraction, hcs, hc]
    show '0' :: '.' :: (List.replicate k '0' ++ n.ds) = '0' :: '.' :: n.fraction
    rw [← hk]
  · have hds : n.ds = n.whole ++ n.fraction := by
      rw [ds, hcs, List.cons_append, stripFront, List.dropWhile_cons_of_neg (by simpa using hc)]
    have hpoint : (n.ds.length : Int) - n.fraction.length = n.whole.length := by
      rw [hds, List.length_append]
      omega
    have hpos : 0 < n.whole.length := List.length_pos_iff.2 n.whole_ne
    rw [hpoint, placePoint, if_neg (by omega), Int.toNat_natCast, fractionText]
    by_cases hfraction : n.fraction = []
    · rw [hds, hfraction, List.append_nil, if_pos (Nat.le_refl _), if_pos rfl, Nat.sub_self]
      simp
    · have hfpos : 0 < n.fraction.length := List.length_pos_iff.2 hfraction
      rw [if_neg (by rw [hds, List.length_append]; omega), if_neg hfraction, hds, List.take_left,
        List.drop_left]

end Numeral

end Decimal

namespace StateDrivenAgent

namespace Spelling

/-! ## The tokens of a document -/

/-- A number token somewhere in a document. -/
inductive HasToken (token : List Char) : Spelling → Prop where
  | num : HasToken token (num token)
  | item {items : List Spelling} {x : Spelling} (hx : x ∈ items) (h : HasToken token x) :
      HasToken token (arr items)
  | field {fields : List (String × Spelling)} {f : String × Spelling} (hf : f ∈ fields)
      (h : HasToken token f.2) : HasToken token (obj fields)

theorem hasToken_num {t u : List Char} : HasToken t (num u) ↔ t = u := by
  constructor
  · intro h
    cases h
    rfl
  · rintro rfl
    exact .num

theorem hasToken_arr {t : List Char} {items : List Spelling} :
    HasToken t (arr items) ↔ ∃ x ∈ items, HasToken t x := by
  constructor
  · intro h
    cases h with
    | item hx h => exact ⟨_, hx, h⟩
  · rintro ⟨x, hx, h⟩
    exact .item hx h

theorem hasToken_obj {t : List Char} {fields : List (String × Spelling)} :
    HasToken t (obj fields) ↔ ∃ f ∈ fields, HasToken t f.2 := by
  constructor
  · intro h
    cases h with
    | field hf h => exact ⟨_, hf, h⟩
  · rintro ⟨f, hf, h⟩
    exact .field hf h

/-! ## Other tokens in the same places -/

variable {g h : List Char → List Char}

theorem mapItems_eq (xs : List Spelling) : mapItems g xs = xs.map (mapTokens g) := by
  induction xs with
  | nil => rfl
  | cons x xs ih => rw [mapItems, ih, List.map_cons]

theorem mapFields_eq (xs : List (String × Spelling)) :
    mapFields g xs = xs.map fun f => (f.1, f.2.mapTokens g) := by
  induction xs with
  | nil => rfl
  | cons f xs ih => rw [mapFields, ih, List.map_cons]

theorem mapTokens_congr {x : Spelling} (hgh : ∀ t, x.HasToken t → g t = h t) :
    x.mapTokens g = x.mapTokens h := by
  induction x using Go.spelling_induct with
  | null => rfl
  | bool b => rfl
  | num token => rw [mapTokens, mapTokens, hgh token .num]
  | str s => rfl
  | arr items ih =>
    rw [mapTokens, mapTokens, mapItems_eq, mapItems_eq]
    congr 1
    exact List.map_congr_left fun x hx => ih x hx fun t ht => hgh t (.item hx ht)
  | obj fields ih =>
    rw [mapTokens, mapTokens, mapFields_eq, mapFields_eq]
    congr 1
    exact List.map_congr_left fun f hf =>
      congrArg (Prod.mk f.1) (ih f hf fun t ht => hgh t (.field hf ht))

theorem mapTokens_mapTokens (x : Spelling) :
    (x.mapTokens g).mapTokens h = x.mapTokens (h ∘ g) := by
  induction x using Go.spelling_induct with
  | null => rfl
  | bool b => rfl
  | num token => rfl
  | str s => rfl
  | arr items ih =>
    rw [mapTokens, mapTokens, mapTokens, mapItems_eq, mapItems_eq, mapItems_eq, List.map_map]
    congr 1
    exact List.map_congr_left ih
  | obj fields ih =>
    rw [mapTokens, mapTokens, mapTokens, mapFields_eq, mapFields_eq, mapFields_eq, List.map_map]
    congr 1
    exact List.map_congr_left fun f hf => congrArg (Prod.mk f.1) (ih f hf)

theorem mapTokens_id (x : Spelling) : x.mapTokens id = x := by
  induction x using Go.spelling_induct with
  | null => rfl
  | bool b => rfl
  | num token => rfl
  | str s => rfl
  | arr items ih =>
    rw [mapTokens, mapItems_eq]
    congr 1
    exact (List.map_congr_left ih).trans (List.map_id _)
  | obj fields ih =>
    rw [mapTokens, mapFields_eq]
    congr 1
    exact (List.map_congr_left fun f hf => congrArg (Prod.mk f.1) (ih f hf)).trans (List.map_id _)

theorem hasToken_mapTokens {x : Spelling} {u : List Char} :
    (x.mapTokens g).HasToken u ↔ ∃ t, x.HasToken t ∧ u = g t := by
  induction x using Go.spelling_induct with
  | null => exact iff_of_false (by rintro ⟨⟩) (by rintro ⟨t, ⟨⟩, -⟩)
  | bool b => exact iff_of_false (by rintro ⟨⟩) (by rintro ⟨t, ⟨⟩, -⟩)
  | num token => simp [mapTokens, hasToken_num]
  | str s => exact iff_of_false (by rintro ⟨⟩) (by rintro ⟨t, ⟨⟩, -⟩)
  | arr items ih =>
    rw [mapTokens, mapItems_eq, hasToken_arr]
    simp only [List.mem_map, hasToken_arr]
    constructor
    · rintro ⟨-, ⟨x, hx, rfl⟩, hu⟩
      obtain ⟨t, ht, rfl⟩ := (ih x hx).1 hu
      exact ⟨t, ⟨x, hx, ht⟩, rfl⟩
    · rintro ⟨t, ⟨x, hx, ht⟩, rfl⟩
      exact ⟨_, ⟨x, hx, rfl⟩, (ih x hx).2 ⟨t, ht, rfl⟩⟩
  | obj fields ih =>
    rw [mapTokens, mapFields_eq, hasToken_obj]
    simp only [List.mem_map, hasToken_obj]
    constructor
    · rintro ⟨-, ⟨f, hf, rfl⟩, hu⟩
      obtain ⟨t, ht, rfl⟩ := (ih f hf).1 hu
      exact ⟨t, ⟨f, hf, ht⟩, rfl⟩
    · rintro ⟨t, ⟨f, hf, ht⟩, rfl⟩
      exact ⟨_, ⟨f, hf, rfl⟩, (ih f hf).2 ⟨t, ht, rfl⟩⟩

theorem hasNulItems_iff {xs : List Spelling} :
    hasNulItems xs = true ↔ ∃ x ∈ xs, x.hasNul = true := by
  induction xs with
  | nil => simp [hasNulItems]
  | cons x xs ih => simp [hasNulItems, ih]

theorem hasNulFields_iff {xs : List (String × Spelling)} :
    hasNulFields xs = true ↔ ∃ f ∈ xs, f.1.toList.contains '\x00' = true ∨ f.2.hasNul = true := by
  induction xs with
  | nil => simp [hasNulFields]
  | cons f xs ih => simp [hasNulFields, ih]

theorem hasNul_mapTokens (x : Spelling) : (x.mapTokens g).hasNul = x.hasNul := by
  induction x using Go.spelling_induct with
  | null => rfl
  | bool b => rfl
  | num token => rfl
  | str s => rfl
  | arr items ih =>
    rw [mapTokens, mapItems_eq, Bool.eq_iff_iff, hasNul, hasNul, hasNulItems_iff, hasNulItems_iff]
    simp only [List.mem_map, exists_exists_and_eq_and]
    exact exists_congr fun x => and_congr_right fun hx => by rw [ih x hx]
  | obj fields ih =>
    rw [mapTokens, mapFields_eq, Bool.eq_iff_iff, hasNul, hasNul, hasNulFields_iff, hasNulFields_iff]
    simp only [List.mem_map, exists_exists_and_eq_and]
    exact exists_congr fun f => and_congr_right fun hf => by rw [ih f hf]

/-- What a column returns is the document with the texts of the `numeric`s. -/
theorem stored_eq_some {x y : Spelling} (h : x.stored = some y) :
    x.hasNul = false ∧ y = x.mapTokens numericText := by
  rw [stored] at h
  split at h
  · cases h
  next hnul => exact ⟨Bool.eq_false_iff.2 hnul, (Option.some.inj h).symm⟩

end Spelling

end StateDrivenAgent
