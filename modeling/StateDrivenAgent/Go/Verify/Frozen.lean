import StateDrivenAgent.Go.Reload
import StateDrivenAgent.Go.Verify.Books
import StateDrivenAgent.Spec.Evidence
import StateDrivenAgent.Verify.Evidence
import StateDrivenAgent.Verify.Stored

/-!
# Recognizing a frozen execution

A document marshalled from reloaded arguments has the strings and the shape of the one that was
frozen, with other tokens in the same places, so the comparisons of `Engine.call` come down to single
tokens. The canonical encoding reads every token as its double, and the payload digest survives a
restart. `equalJSON` compares the tokens as written: the column gives back the text of the `float64`,
the session the text of the `numeric`, and these differ exactly for the numbers `encoding/json`
writes with an exponent (`recognize_iff_fixed`).
-/

namespace StateDrivenAgent

namespace Go

open Decimal Text Identity Spelling

variable {host : Host} {g h : List Char → List Char}

/-! ## Sorted keys -/

theorem sortKeysItems_eq (xs : List Spelling) : sortKeysItems xs = xs.map sortKeys := by
  induction xs with
  | nil => rfl
  | cons x xs ih => rw [sortKeysItems, ih, List.map_cons]

theorem sortKeysFields_eq (xs : List (String × Spelling)) :
    sortKeysFields xs = xs.map fun f => (f.1, sortKeys f.2) := by
  induction xs with
  | nil => rfl
  | cons f xs ih => rw [sortKeysFields, ih, List.map_cons]

/-- The order of the properties of a map. -/
abbrev NameLe (a b : String × Spelling) : Prop := a.1 ≤ b.1

/-- Sorting looks at the names only. -/
theorem map_sorted (k : Spelling → Spelling) (xs : List (String × Spelling)) :
    (xs.map fun f => (f.1, k f.2)).insertionSort NameLe =
      (xs.insertionSort NameLe).map fun f => (f.1, k f.2) :=
  (List.map_insertionSort NameLe NameLe (fun f => (f.1, k f.2)) xs fun _ _ _ _ => Iff.rfl).symm

theorem sortKeys_obj (fields : List (String × Spelling)) :
    sortKeys (.obj fields) =
      .obj ((fields.insertionSort NameLe).map fun f => (f.1, sortKeys f.2)) := by
  rw [sortKeys, sortKeysFields_eq, ← map_sorted]

theorem sortKeys_mapTokens (x : Spelling) : sortKeys (x.mapTokens g) = (sortKeys x).mapTokens g := by
  induction x using spelling_induct with
  | null => rfl
  | bool b => rfl
  | num token => rfl
  | str s => rfl
  | arr items ih =>
    rw [mapTokens, sortKeys, sortKeys, mapTokens, mapItems_eq, sortKeysItems_eq, sortKeysItems_eq,
      mapItems_eq, List.map_map, List.map_map]
    exact congrArg Spelling.arr (List.map_congr_left ih)
  | obj fields ih =>
    rw [mapTokens, sortKeys_obj, sortKeys_obj, mapTokens, mapFields_eq, mapFields_eq, map_sorted,
      List.map_map, List.map_map]
    refine congrArg Spelling.obj (List.map_congr_left fun f hf => congrArg (Prod.mk f.1) ?_)
    exact ih f ((List.perm_insertionSort _ _).mem_iff.1 hf)

theorem sortKeys_sortKeys (x : Spelling) : sortKeys (sortKeys x) = sortKeys x := by
  induction x using spelling_induct with
  | null => rfl
  | bool b => rfl
  | num token => rfl
  | str s => rfl
  | arr items ih =>
    rw [sortKeys, sortKeys, sortKeysItems_eq, sortKeysItems_eq, List.map_map]
    exact congrArg Spelling.arr (List.map_congr_left ih)
  | obj fields ih =>
    have hsorted : ((fields.insertionSort NameLe).insertionSort NameLe) =
        fields.insertionSort NameLe :=
      List.Pairwise.insertionSort_eq (List.pairwise_insertionSort NameLe fields)
    rw [sortKeys_obj, sortKeys_obj, map_sorted, hsorted, List.map_map]
    refine congrArg Spelling.obj (List.map_congr_left fun f hf => congrArg (Prod.mk f.1) ?_)
    exact ih f ((List.perm_insertionSort _ _).mem_iff.1 hf)

theorem hasToken_sortKeys {t : List Char} (x : Spelling) : (sortKeys x).HasToken t ↔ x.HasToken t := by
  induction x using spelling_induct with
  | null => exact Iff.rfl
  | bool b => exact Iff.rfl
  | num token => exact Iff.rfl
  | str s => exact Iff.rfl
  | arr items ih =>
    rw [sortKeys, sortKeysItems_eq, hasToken_arr, hasToken_arr]
    simp only [List.mem_map, exists_exists_and_eq_and]
    exact exists_congr fun x => and_congr_right fun hx => ih x hx
  | obj fields ih =>
    rw [sortKeys_obj, hasToken_obj, hasToken_obj]
    simp only [List.mem_map, exists_exists_and_eq_and, (List.perm_insertionSort _ fields).mem_iff]
    exact exists_congr fun f => and_congr_right fun hf => ih f hf

/-! ## Marshalling and unmarshalling -/

theorem marshalItems_eq (vs : List Value) : marshalItems host vs = vs.map (marshalTree host) := by
  induction vs with
  | nil => rfl
  | cons v vs ih => rw [marshalItems, ih, List.map_cons]

theorem marshalFields_eq (fields : List (String × Value)) :
    marshalFields host fields = fields.map fun f => (f.1, marshalTree host f.2) := by
  induction fields with
  | nil => rfl
  | cons f fields ih => rw [marshalFields, ih, List.map_cons]

/-- The text of the `float64` a token is read as. -/
def refloat (host : Host) (token : List Char) : List Char :=
  (unmarshalFloat token).elim token (marshalFloat host)

theorem unmarshalItems_tree {xs : List Spelling} (ih : ∀ x ∈ xs, ∀ v, unmarshal x = some v →
    marshalTree host v = x.mapTokens (refloat host)) {vs : List Value}
    (hv : unmarshalItems xs = some vs) : vs.map (marshalTree host) = xs.map (mapTokens (refloat host)) := by
  induction xs generalizing vs with
  | nil =>
    rw [unmarshalItems, Option.some.injEq] at hv
    rw [← hv]
    rfl
  | cons x xs ihxs =>
    obtain ⟨hx, hxs⟩ := List.forall_mem_cons.1 ih
    rw [unmarshalItems] at hv
    obtain ⟨v, hxv, hv⟩ := Option.bind_eq_some_iff.1 hv
    obtain ⟨rest, hrest, hv⟩ := Option.bind_eq_some_iff.1 hv
    rw [← Option.some.inj hv, List.map_cons, List.map_cons, hx v hxv, ihxs hxs hrest]

theorem unmarshalFields_tree {xs : List (String × Spelling)} (ih : ∀ f ∈ xs, ∀ v,
    unmarshal f.2 = some v → marshalTree host v = f.2.mapTokens (refloat host))
    {fields : List (String × Value)} (hv : unmarshalFields xs = some fields) :
    (fields.map fun f => (f.1, marshalTree host f.2)) =
      xs.map fun f => (f.1, f.2.mapTokens (refloat host)) := by
  induction xs generalizing fields with
  | nil =>
    rw [unmarshalFields, Option.some.injEq] at hv
    rw [← hv]
    rfl
  | cons f xs ihxs =>
    obtain ⟨k, x⟩ := f
    obtain ⟨hx, hxs⟩ := List.forall_mem_cons.1 ih
    rw [unmarshalFields] at hv
    obtain ⟨v, hxv, hv⟩ := Option.bind_eq_some_iff.1 hv
    obtain ⟨rest, hrest, hv⟩ := Option.bind_eq_some_iff.1 hv
    rw [← Option.some.inj hv, List.map_cons, List.map_cons, hx v hxv, ihxs hxs hrest]

/-- Reading a document into `float64`s and writing it again replaces its tokens. -/
theorem marshalTree_unmarshal {x : Spelling} {v : Value} (hv : unmarshal x = some v) :
    marshalTree host v = x.mapTokens (refloat host) := by
  induction x using spelling_induct generalizing v with
  | null =>
    rw [unmarshal, Option.some.injEq] at hv
    rw [← hv]
    rfl
  | bool b =>
    rw [unmarshal, Option.some.injEq] at hv
    rw [← hv]
    rfl
  | num token =>
    rw [unmarshal, Option.map_eq_some_iff] at hv
    obtain ⟨f, hf, rfl⟩ := hv
    rw [mapTokens, refloat, hf]
    rfl
  | str s =>
    rw [unmarshal, Option.some.injEq] at hv
    rw [← hv]
    rfl
  | arr items ih =>
    rw [unmarshal, Option.map_eq_some_iff] at hv
    obtain ⟨vs, hvs, rfl⟩ := hv
    rw [marshalTree, marshalItems_eq, mapTokens, mapItems_eq]
    exact congrArg Spelling.arr (unmarshalItems_tree (fun x hx v hv => ih x hx hv) hvs)
  | obj fields ih =>
    rw [unmarshal, Option.map_eq_some_iff] at hv
    obtain ⟨vs, hvs, rfl⟩ := hv
    rw [marshalTree, marshalFields_eq, mapTokens, mapFields_eq]
    exact congrArg Spelling.obj (unmarshalFields_tree (fun f hf v hv => ih f hf hv) hvs)

/-- The tokens of a marshalled value are those of its numbers. -/
theorem hasToken_marshalTree {t : List Char} (v : Value) : (marshalTree host v).HasToken t ↔
    ∃ n, Value.Within (.num n) v ∧ t = marshalNumber host n := by
  have hleaf : ∀ {v : Value}, v.isLeaf = true → (∀ n, v ≠ .num n) →
      ¬ ∃ n, Value.Within (.num n) v ∧ t = marshalNumber host n := by
    rintro v hleaf hnum ⟨n, hn, -⟩
    exact hnum n (hn.of_leaf hleaf).symm
  induction v using Value.induct_mem with
  | null => exact iff_of_false (by rintro ⟨⟩) (hleaf (v := .null) rfl (by simp))
  | bool b => exact iff_of_false (by rintro ⟨⟩) (hleaf (v := .bool b) rfl (by simp))
  | num n =>
    rw [marshalTree, hasToken_num]
    constructor
    · rintro rfl
      exact ⟨n, .refl, rfl⟩
    · rintro ⟨m, hm, rfl⟩
      rw [Value.num.inj (hm.of_leaf rfl)]
  | str s => exact iff_of_false (by rintro ⟨⟩) (hleaf (v := .str s) rfl (by simp))
  | arr items ih =>
    rw [marshalTree, marshalItems_eq, hasToken_arr]
    simp only [List.mem_map, exists_exists_and_eq_and]
    constructor
    · rintro ⟨v, hv, ht⟩
      obtain ⟨n, hn, rfl⟩ := (ih v hv).1 ht
      exact ⟨n, .item hv hn, rfl⟩
    · rintro ⟨n, hn, rfl⟩
      obtain hn | ⟨v, hv, hn⟩ := hn.of_arr
      · cases hn
      · exact ⟨v, hv, (ih v hv).2 ⟨n, hn, rfl⟩⟩
  | obj fields ih =>
    rw [marshalTree, marshalFields_eq, hasToken_obj]
    simp only [List.mem_map, exists_exists_and_eq_and]
    constructor
    · rintro ⟨f, hf, ht⟩
      obtain ⟨n, hn, rfl⟩ := (ih f hf).1 ht
      exact ⟨n, .field hf hn, rfl⟩
    · rintro ⟨n, hn, rfl⟩
      obtain hn | ⟨f, hf, hn⟩ := hn.of_obj
      · cases hn
      · exact ⟨f, hf, (ih f hf).2 ⟨n, hn, rfl⟩⟩

/-! ## Comparing texts -/

/-- A token of the characters of a number. -/
def NumberText (t : List Char) : Prop := ∀ c ∈ t, isNumberChar c = true

/-- Two texts of one shape, continued alike up to a character that is of no number, are equal only if
their tokens are. -/
def Cancels (g h : List Char → List Char) (x : Spelling) : Prop :=
  ∀ r r', Spelling.Ends r → Spelling.Ends r' → encoded (x.mapTokens g) ++ r = encoded (x.mapTokens h) ++ r' →
    (∀ t, x.HasToken t → g t = h t) ∧ r = r'

theorem takeWhile_token {t r : List Char} (ht : NumberText t) (hr : Spelling.Ends r) :
    (t ++ r).takeWhile isNumberChar = t := by
  rw [List.takeWhile_append_of_pos ht]
  cases r with
  | nil => rw [List.takeWhile_nil, List.append_nil]
  | cons c cs => rw [List.takeWhile_cons_of_neg (by simp [hr c cs rfl]), List.append_nil]

theorem cancels_num {t : List Char} (hg : NumberText (g t)) (hh : NumberText (h t)) : Cancels g h (.num t) := by
  intro r r' hr hr' heq
  have htoken : g t = h t := by
    have htake := congrArg (List.takeWhile isNumberChar) heq
    rwa [mapTokens, mapTokens, encoded, encoded, takeWhile_token hg hr, takeWhile_token hh hr'] at htake
  refine ⟨fun u hu => ?_, ?_⟩
  · rw [hasToken_num.1 hu]
    exact htoken
  · rw [mapTokens, mapTokens, encoded, encoded, htoken] at heq
    exact List.append_cancel_left heq

theorem encodedItems_cons (x : Spelling) (xs : List Spelling) : encodedItems (x :: xs) =
    encoded x ++ (if xs = [] then [] else ',' :: encodedItems xs) := by
  cases xs with
  | nil =>
    rw [if_pos rfl, List.append_nil]
    rfl
  | cons y ys =>
    rw [encodedItems, if_neg (List.cons_ne_nil _ _)]
    exact List.cons_ne_nil _ _

theorem encodedFields_cons (k : String) (x : Spelling) (xs : List (String × Spelling)) :
    encodedFields ((k, x) :: xs) = marshalString k ++ ':' ::
      (encoded x ++ (if xs = [] then [] else ',' :: encodedFields xs)) := by
  cases xs with
  | nil =>
    rw [if_pos rfl, List.append_nil]
    rfl
  | cons y ys =>
    rw [encodedFields, if_neg (List.cons_ne_nil _ _)]
    exact List.cons_ne_nil _ _

theorem cancels_items {xs : List Spelling} (ih : ∀ x ∈ xs, Cancels g h x) {c : Char}
    (hc : isNumberChar c = false) (r r' : List Char)
    (heq : encodedItems (xs.map (mapTokens g)) ++ c :: r =
      encodedItems (xs.map (mapTokens h)) ++ c :: r') :
    (∀ x ∈ xs, ∀ t, x.HasToken t → g t = h t) ∧ r = r' := by
  induction xs with
  | nil => exact ⟨nofun, (List.cons.inj heq).2⟩
  | cons x xs ihxs =>
    obtain ⟨hx, hxs⟩ := List.forall_mem_cons.1 ih
    rw [List.map_cons, List.map_cons, encodedItems_cons, encodedItems_cons, List.append_assoc,
      List.append_assoc] at heq
    simp only [List.map_eq_nil_iff] at heq
    by_cases hnil : xs = []
    · rw [if_pos hnil, if_pos hnil, List.nil_append, List.nil_append] at heq
      obtain ⟨htokens, hrest⟩ := hx _ _ (ends_cons hc) (ends_cons hc) heq
      refine ⟨?_, (List.cons.inj hrest).2⟩
      rw [hnil]
      exact List.forall_mem_singleton.2 htokens
    · have hcomma : isNumberChar ',' = false := by decide
      rw [if_neg hnil, if_neg hnil, List.cons_append, List.cons_append] at heq
      obtain ⟨htokens, hrest⟩ := hx _ _ (ends_cons hcomma) (ends_cons hcomma) heq
      obtain ⟨hall, hr⟩ := ihxs hxs (List.cons.inj hrest).2
      exact ⟨List.forall_mem_cons.2 ⟨htokens, hall⟩, hr⟩

theorem cancels_fields {xs : List (String × Spelling)} (ih : ∀ f ∈ xs, Cancels g h f.2) {c : Char}
    (hc : isNumberChar c = false) (r r' : List Char)
    (heq : encodedFields (xs.map fun f => (f.1, f.2.mapTokens g)) ++ c :: r =
      encodedFields (xs.map fun f => (f.1, f.2.mapTokens h)) ++ c :: r') :
    (∀ f ∈ xs, ∀ t, f.2.HasToken t → g t = h t) ∧ r = r' := by
  induction xs with
  | nil => exact ⟨nofun, (List.cons.inj heq).2⟩
  | cons f xs ihxs =>
    obtain ⟨hx, hxs⟩ := List.forall_mem_cons.1 ih
    rw [List.map_cons, List.map_cons, encodedFields_cons, encodedFields_cons, List.append_assoc,
      List.append_assoc, List.append_cancel_left_eq, List.cons_append, List.cons_append,
      List.cons_inj_right, List.append_assoc, List.append_assoc] at heq
    simp only [List.map_eq_nil_iff] at heq
    by_cases hnil : xs = []
    · rw [if_pos hnil, if_pos hnil, List.nil_append, List.nil_append] at heq
      obtain ⟨htokens, hrest⟩ := hx _ _ (ends_cons hc) (ends_cons hc) heq
      refine ⟨?_, (List.cons.inj hrest).2⟩
      rw [hnil]
      exact List.forall_mem_singleton.2 htokens
    · have hcomma : isNumberChar ',' = false := by decide
      rw [if_neg hnil, if_neg hnil, List.cons_append, List.cons_append] at heq
      obtain ⟨htokens, hrest⟩ := hx _ _ (ends_cons hcomma) (ends_cons hcomma) heq
      obtain ⟨hall, hr⟩ := ihxs hxs (List.cons.inj hrest).2
      exact ⟨List.forall_mem_cons.2 ⟨htokens, hall⟩, hr⟩

theorem cancels {x : Spelling} (hg : ∀ t, x.HasToken t → NumberText (g t))
    (hh : ∀ t, x.HasToken t → NumberText (h t)) : Cancels g h x := by
  induction x using spelling_induct with
  | null => exact fun r r' _ _ heq => ⟨(by rintro t ⟨⟩), List.append_cancel_left heq⟩
  | bool b => exact fun r r' _ _ heq => ⟨(by rintro t ⟨⟩), List.append_cancel_left heq⟩
  | num token => exact cancels_num (hg token .num) (hh token .num)
  | str s => exact fun r r' _ _ heq => ⟨(by rintro t ⟨⟩), List.append_cancel_left heq⟩
  | arr items ih =>
    intro r r' _ _ heq
    have hall : ∀ x ∈ items, Cancels g h x := fun x hx =>
      ih x hx (fun t ht => hg t (.item hx ht)) fun t ht => hh t (.item hx ht)
    rw [mapTokens, mapTokens, mapItems_eq, mapItems_eq, encoded, encoded, List.cons_append,
      List.cons_append, List.cons_inj_right, List.append_assoc, List.append_assoc] at heq
    obtain ⟨htokens, hr⟩ := cancels_items hall (by decide) _ _ heq
    refine ⟨fun t ht => ?_, hr⟩
    obtain ⟨x, hx, ht⟩ := hasToken_arr.1 ht
    exact htokens x hx t ht
  | obj fields ih =>
    intro r r' _ _ heq
    have hall : ∀ f ∈ fields, Cancels g h f.2 := fun f hf =>
      ih f hf (fun t ht => hg t (.field hf ht)) fun t ht => hh t (.field hf ht)
    rw [mapTokens, mapTokens, mapFields_eq, mapFields_eq, encoded, encoded, List.cons_append,
      List.cons_append, List.cons_inj_right, List.append_assoc, List.append_assoc] at heq
    obtain ⟨htokens, hr⟩ := cancels_fields hall (by decide) _ _ heq
    refine ⟨fun t ht => ?_, hr⟩
    obtain ⟨f, hf, ht⟩ := hasToken_obj.1 ht
    exact htokens f hf t ht

/-- Two documents of one shape are marshalled alike exactly when their tokens are equal. -/
theorem encoded_mapTokens_iff {x : Spelling} (hg : ∀ t, x.HasToken t → NumberText (g t))
    (hh : ∀ t, x.HasToken t → NumberText (h t)) :
    encoded (x.mapTokens g) = encoded (x.mapTokens h) ↔ ∀ t, x.HasToken t → g t = h t := by
  constructor
  · intro heq
    exact (cancels hg hh [] [] ends_nil ends_nil (by rw [heq])).1
  · intro hgh
    rw [mapTokens_congr hgh]

/-! ## The canonical encoding -/

theorem writeItems_congr {xs : List Spelling} {k : Spelling → Spelling}
    (hk : ∀ x ∈ xs, write host (k x) = write host x) :
    writeItems host (xs.map k) = writeItems host xs := by
  induction xs with
  | nil => rfl
  | cons x xs ih =>
    obtain ⟨hx, hxs⟩ := List.forall_mem_cons.1 hk
    rw [List.map_cons, writeItems, writeItems, hx, ih hxs]

theorem writeFields_eq (xs : List (String × Spelling)) :
    writeFields host xs = xs.map fun f => (f.1, write host f.2) := by
  induction xs with
  | nil => rfl
  | cons f xs ih => rw [writeFields, ih, List.map_cons]

/-- The encoding depends on what is written for each token. -/
theorem write_mapTokens {x : Spelling}
    (hg : ∀ t, x.HasToken t → writeNumber host (g t) = writeNumber host t) :
    write host (x.mapTokens g) = write host x := by
  induction x using spelling_induct with
  | null => rfl
  | bool b => rfl
  | num token => exact hg token .num
  | str s => rfl
  | arr items ih =>
    rw [mapTokens, mapItems_eq, write, write,
      writeItems_congr fun x hx => ih x hx fun t ht => hg t (.item hx ht)]
  | obj fields ih =>
    have hfields : writeFields host (fields.map fun f => (f.1, f.2.mapTokens g)) =
        writeFields host fields := by
      rw [writeFields_eq, writeFields_eq, List.map_map]
      exact List.map_congr_left fun f hf =>
        congrArg (Prod.mk f.1) (ih f hf fun t ht => hg t (.field hf ht))
    rw [mapTokens, mapFields_eq, write, write, hfields]

theorem writeItems_ok {xs : List Spelling} {ts : List String} (h : writeItems host xs = .ok ts) :
    ∀ x ∈ xs, ∃ t, write host x = .ok t := by
  induction xs generalizing ts with
  | nil => exact nofun
  | cons x xs ih =>
    rw [writeItems] at h
    obtain ⟨t, ht, h⟩ := bind_ok h
    obtain ⟨rest, hrest, -⟩ := bind_ok h
    exact List.forall_mem_cons.2 ⟨⟨t, ht⟩, ih hrest⟩

/-- A document is encoded only if all its tokens are. -/
theorem write_token {x : Spelling} {u : String} (h : write host x = .ok u) {t : List Char}
    (ht : x.HasToken t) : ∃ w, writeNumber host t = .ok w := by
  induction ht generalizing u with
  | num => exact ⟨u, h⟩
  | item hx _ ih =>
    rw [write] at h
    obtain ⟨ts, hts, -⟩ := bind_ok h
    obtain ⟨w, hw⟩ := writeItems_ok hts _ hx
    exact ih hw
  | @field fields f hf _ ih =>
    rw [write] at h
    obtain ⟨ts, hts, -⟩ := bind_ok h
    have hmem : (f.1, write host f.2) ∈ writeFields host fields := by
      rw [writeFields_eq]
      exact List.mem_map_of_mem hf
    obtain ⟨text, htext⟩ := mapM_ok hts _ ((List.perm_insertionSort _ _).mem_iff.2 hmem)
    obtain ⟨w, hw, -⟩ := bind_ok htext
    exact ih hw

theorem depth_mapTokens (x : Spelling) : (x.mapTokens g).depth = x.depth := by
  induction x using spelling_induct with
  | null => rfl
  | bool b => rfl
  | num token => rfl
  | str s => rfl
  | arr items ih =>
    have hle : ∀ n, depthItems (items.map (mapTokens g)) ≤ n ↔ depthItems items ≤ n := by
      intro n
      rw [depthItems_le_iff, depthItems_le_iff, List.forall_mem_map]
      exact forall₂_congr fun x hx => by rw [ih x hx]
    rw [mapTokens, mapItems_eq, depth, depth,
      le_antisymm ((hle _).2 (Nat.le_refl _)) ((hle _).1 (Nat.le_refl _))]
  | obj fields ih =>
    have hle : ∀ n, depthFields (fields.map fun f => (f.1, f.2.mapTokens g)) ≤ n ↔
        depthFields fields ≤ n := by
      intro n
      rw [depthFields_le_iff, depthFields_le_iff, List.forall_mem_map]
      exact forall₂_congr fun f hf => by rw [ih f hf]
    rw [mapTokens, mapFields_eq, depth, depth,
      le_antisymm ((hle _).2 (Nat.le_refl _)) ((hle _).1 (Nat.le_refl _))]

theorem canonicalV2_mapTokens {x : Spelling}
    (hg : ∀ t, x.HasToken t → writeNumber host (g t) = writeNumber host t) :
    canonicalV2 host (x.mapTokens g) = canonicalV2 host x := by
  rw [canonicalV2, canonicalV2, depth_mapTokens, write_mapTokens hg]

theorem canonicalV2_token {x : Spelling} {u : String} (h : canonicalV2 host x = .ok u)
    {t : List Char} (ht : x.HasToken t) : ∃ w, writeNumber host t = .ok w := by
  rw [canonicalV2] at h
  split at h
  · cases h
  · exact write_token h ht

/-! ## Numbers -/

/-- A whole number below `2 ^ 53` is printed exactly. -/
def PrintsWhole (host : Host) : Prop :=
  ∀ i : Int, i ≠ 0 → i.natAbs < 2 ^ 53 → ∃ n : Numeral, host.floatText (F64.ofInt i) = .ofList n.text ∧
    n.value = i

/-- `encoding/json` writes the number without an exponent. -/
def Fixed : Number → Prop
  | .int _ => True
  | .float f => f.isZero = true ∨ Placed f

/-- The text of a nonzero double: a numeral of the value printed. -/
theorem marshalFloat_numeral (hp : host.Prints) {f : F64} (hf : f.isZero = false) :
    ∃ p m : Numeral, Printed host f (.ofList (marshalFloat host f)) p m ∧
      marshalFloat host f = m.text := by
  have hfloat : marshalFloat host f = floatText host f := by
    rw [marshalFloat, if_neg (Bool.eq_false_iff.1 hf)]
    rfl
  obtain ⟨p, m, hprinted⟩ := exists_printed hp hf (canonicalNumber_eq_floatText hp hf)
  rw [hfloat]
  exact ⟨p, m, hprinted, String.ofList_inj.1 hprinted.canonical⟩

/-- A whole numeral without an exponent is the text of the integer. -/
theorem text_of_plain {m : Numeral} (hm : m.plain = true) {i : Int} (hi : m.value = i) (h0 : i ≠ 0) :
    m.text = (toString i).toList := by
  have hne : m.ds ≠ [] := Numeral.ds_ne_nil (by rw [hi]; exact_mod_cast h0)
  have hmag : (digits m.whole : Rat) = i.natAbs := by
    rw [← Numeral.magnitude_of_plain hm, ← m.abs_value, hi, Nat.cast_natAbs, Int.cast_abs]
  have hdigits : digits m.whole = i.natAbs := by exact_mod_cast hmag
  have hhead : m.whole.head? ≠ some '0' := by
    intro hhead
    obtain ⟨c, hc⟩ := List.length_eq_one_iff.1 (m.whole_lead hhead)
    rw [hc, List.head?_cons, Option.some.injEq] at hhead
    rw [hc, hhead] at hdigits
    exact h0 (Int.natAbs_eq_zero.1 hdigits.symm)
  have hneg : m.negative = true ↔ i < 0 := by
    rw [Numeral.negative_iff hne, hi]
    exact_mod_cast Iff.rfl
  rw [toString_int_toList, Numeral.text, Numeral.unsigned_of_plain hm, ← hdigits,
    toDigits_digits m.whole_digits m.whole_ne hhead]
  simp only [hneg]

theorem placed_ofInt {i : Int} (h0 : i ≠ 0) (hi : i.natAbs < 2 ^ 53) : Placed (F64.ofInt i) := by
  have habs : (F64.ofInt i).abs = |(i : Rat)| := by
    rw [← F64.abs_toRat, F64.toRat_ofInt hi]
  have hone : (1 : Rat) ≤ |(i : Rat)| := by
    rw [← Int.cast_abs]
    exact_mod_cast Int.one_le_abs h0
  have hlt : |(i : Rat)| < 2 ^ 53 := by
    rw [← Int.cast_abs, Int.abs_eq_natAbs]
    exact_mod_cast hi
  rw [Placed, habs]
  refine ⟨?_, hlt.trans (by norm_num)⟩
  calc (F64.ofRat (1 / 10 ^ 6)).abs ≤ 1 := by decide +kernel
    _ ≤ |(i : Rat)| := hone

/-- A whole double below `2 ^ 53` is written as the integer. -/
theorem marshalFloat_ofInt (hp : host.Prints) (hw : PrintsWhole host) {i : Int} (h0 : i ≠ 0)
    (hi : i.natAbs < 2 ^ 53) : marshalFloat host (F64.ofInt i) = (toString i).toList := by
  have hf : (F64.ofInt i).isZero = false := by
    rw [Bool.eq_false_iff, ne_eq, isZero_iff, F64.toRat_ofInt hi]
    exact_mod_cast h0
  obtain ⟨p, m, hprinted, htext⟩ := marshalFloat_numeral hp hf
  obtain ⟨n, hn, hvalue⟩ := hw i h0 hi
  have hpn : p.value = i := by
    have hpt : p.text = n.text := String.ofList_inj.1 (hprinted.text.symm.trans hn)
    rw [← p.read_text, hpt, n.read_text, hvalue]
  have hmag : p.magnitude = i.natAbs := by
    rw [← p.abs_value, hpn, Nat.cast_natAbs, Int.cast_abs]
  obtain ⟨ds, point, hd, hplain⟩ := hprinted.plain
  have hpoint := (hd.integral_iff hprinted.magnitude).1 ⟨_, hmag⟩
  rw [htext]
  exact text_of_plain (hplain.2 ⟨placed_ofInt h0 hi, hpoint⟩) (hprinted.value.trans hpn) h0

/-- The text of a nonzero number is a numeral, and it is the text of every `float64` read from a
token of its value. -/
structure Spelled (host : Host) (n : Number) (m : Numeral) : Prop where
  text : marshalNumber host n = m.text
  value : m.value ≠ 0
  exponent : m.exponent = none ↔ Fixed n
  reread : ∀ u, read u = m.value → parseFloat u = some (F64.ofRat m.value) →
    (∀ i, n = .int i → i.natAbs < 2 ^ 53) → refloat host u = m.text

theorem spelled_int (hp : host.Prints) (hw : PrintsWhole host) {i : Int} (h0 : i ≠ 0) :
    Spelled host (.int i) (Number.numeral i) where
  text := by
    rw [marshalNumber, Number.toString_numeral, String.toList_ofList]
  value := by
    rw [Number.value_numeral]
    exact_mod_cast h0
  exponent := iff_of_true rfl trivial
  reread u _ hparse hi := by
    have hi := hi i rfl
    have hf : (F64.ofInt i).isZero = false := by
      rw [Bool.eq_false_iff, ne_eq, isZero_iff, F64.toRat_ofInt hi]
      exact_mod_cast h0
    rw [Number.value_numeral, F64.ofRat_intCast] at hparse
    rw [refloat, unmarshalFloat, hparse, Option.map_some, Option.elim_some, hf,
      if_neg Bool.false_ne_true, marshalFloat_ofInt hp hw h0 hi, Number.toString_numeral,
      String.toList_ofList]

theorem spelled_float (hp : host.Prints) {f : F64} (hf : f.isZero = false) :
    ∃ m, Spelled host (.float f) m := by
  obtain ⟨p, m, hprinted, htext⟩ := marshalFloat_numeral hp hf
  have hdouble : F64.ofRat m.value = f := by rw [hprinted.value, hprinted.double]
  refine ⟨m, htext, ?_, ?_, fun u _ hparse _ => ?_⟩
  · intro h0
    rw [h0] at hdouble
    rw [← hdouble, ofRat_zero] at hf
    cases hf
  · rw [hprinted.exponent, Fixed, hf]
    simp
  · rw [refloat, unmarshalFloat, hparse, hdouble, Option.map_some, Option.elim_some, hf,
      if_neg Bool.false_ne_true, htext]

/-- The text of a zero. -/
def IsZeroText (t : List Char) : Prop := t = ['0'] ∨ t = ['-', '0']

theorem marshalNumber_cases (hp : host.Prints) (hw : PrintsWhole host) (n : Number) :
    (IsZeroText (marshalNumber host n) ∧ Fixed n) ∨ ∃ m, Spelled host n m := by
  cases n with
  | int i =>
    by_cases h0 : i = 0
    · rw [h0]
      exact .inl ⟨.inl rfl, trivial⟩
    · exact .inr ⟨_, spelled_int hp hw h0⟩
  | float f =>
    cases hf : f.isZero with
    | true =>
      refine .inl ⟨?_, .inl hf⟩
      rw [marshalNumber, marshalFloat, if_pos hf]
      cases f.negative with
      | true => exact .inr rfl
      | false => exact .inl rfl
    | false => exact .inr (spelled_float hp hf)

/-! ## A token in the database -/

/-- A token of the arguments after the column of an execution. -/
def columnText (host : Host) (t : List Char) : List Char :=
  refloat host (numericText (refloat host t))

theorem numericText_zero {t : List Char} (ht : IsZeroText t) : numericText t = ['0'] := by
  rcases ht with rfl | rfl <;> rfl

theorem refloat_zero {t : List Char} (ht : IsZeroText t) : IsZeroText (refloat host t) := by
  rcases ht with rfl | rfl
  · have hzero : unmarshalFloat ['0'] = some ⟨false, 0, -1074, by decide⟩ := by decide +kernel
    rw [refloat, hzero]
    exact .inl rfl
  · have hzero : unmarshalFloat ['-', '0'] = some ⟨true, 0, -1074, by decide⟩ := by decide +kernel
    rw [refloat, hzero]
    exact .inr rfl

theorem columnText_zero {t : List Char} (ht : IsZeroText t) : columnText host t = ['0'] := by
  have hzero : unmarshalFloat ['0'] = some ⟨false, 0, -1074, by decide⟩ := by decide +kernel
  rw [columnText, numericText_zero (refloat_zero ht), refloat, hzero]
  rfl

theorem writeNumber_zero {t : List Char} (ht : IsZeroText t) : writeNumber host t = .ok "0" := by
  have hwrite : ∀ {t i f}, parseInt64 t = some i → i = 0 → parseFloat t = some f → f.isZero = true →
      writeNumber host t = .ok "0" := by
    rintro t i f hi rfl hf hzero
    rw [writeNumber, hi, hf]
    simp [hzero]
  rcases ht with rfl | rfl
  · exact hwrite (f := .zero) rfl rfl (by decide +kernel) rfl
  · exact hwrite (f := .zero) rfl rfl (by decide +kernel) rfl

theorem parseFloat_congr {t u : List Char} (h : read t = read u) : parseFloat t = parseFloat u := by
  rw [parseFloat, parseFloat, h]

theorem writeNumber_parse {t : List Char} {w : String} (h : writeNumber host t = .ok w) :
    parseFloat t = some (F64.ofRat (read t)) := by
  rw [writeNumber] at h
  split at h
  · cases h
  · rw [parseFloat] at h ⊢
    by_cases hrange : 2 ^ 1024 - 2 ^ 970 ≤ |read t|
    · rw [if_pos hrange] at h
      cases h
    · rw [if_neg hrange]

theorem numberText (m : Numeral) : NumberText m.text := isNumberChar_text m

/-- The texts of a nonzero number on its way: as it was marshalled, or as a `numeric`. -/
theorem Spelled.numeric {n : Number} {m : Numeral} (h : Spelled host n m) :
    ∃ m' : Numeral, m'.exponent = none ∧ m'.text = numericText m.text ∧ m'.value = m.value ∧
      numericText m'.text = m'.text := by
  obtain ⟨m', hexp, htext, hvalue⟩ := Numeral.numericText_value h.value
  exact ⟨m', hexp, htext, hvalue, Numeral.numericText_of_none (by rw [hvalue]; exact h.value) hexp⟩

theorem numericText_numericText (hp : host.Prints) (hw : PrintsWhole host) (n : Number) :
    numericText (numericText (marshalNumber host n)) = numericText (marshalNumber host n) := by
  rcases marshalNumber_cases hp hw n with ⟨hzero, -⟩ | ⟨m, hm⟩
  · rw [numericText_zero hzero]
    rfl
  · obtain ⟨m', -, htext, -, hidem⟩ := hm.numeric
    rw [hm.text, ← htext, hidem]

theorem numberText_numeric (hp : host.Prints) (hw : PrintsWhole host) (n : Number) :
    NumberText (numericText (marshalNumber host n)) := by
  rcases marshalNumber_cases hp hw n with ⟨hzero, -⟩ | ⟨m, hm⟩
  · rw [numericText_zero hzero]
    exact fun c hc => by rw [List.mem_singleton.1 hc]; rfl
  · obtain ⟨m', -, htext, -⟩ := hm.numeric
    rw [hm.text, ← htext]
    exact numberText m'

theorem exponent_mem {m : Numeral} : 'e' ∈ m.text ↔ m.exponent ≠ none := by
  have hmantissa : 'e' ∉ (if m.negative = true then ['-'] else []) ++ (m.whole ++ m.fractionText) := by
    rw [List.mem_append, not_or]
    refine ⟨by split <;> simp, fun hmem => ?_⟩
    have hnot := m.mantissa_notExponent 'e' hmem
    revert hnot
    decide
  rw [Numeral.text, Numeral.unsigned, ← List.append_assoc, List.mem_append, or_iff_right hmantissa]
  cases m.exponent with
  | none => simp [Numeral.exponentText]
  | some e => simp [Numeral.exponentText]

theorem isInteger_of_exponent {m : Numeral} (hm : m.exponent ≠ none) : isInteger m.text = false := by
  rw [isInteger, Bool.not_eq_false', List.any_eq_true]
  exact ⟨'e', exponent_mem.2 hm, rfl⟩

theorem parseInt64_numeral (i : Int) : parseInt64 (Number.numeral i).text =
    if I64.inRange i then some i else none := by
  have hdigits : digits (Nat.toDigits 10 i.natAbs) = i.natAbs := digits_toDigits _
  have hvalue : (if (Number.numeral i).text.head? = some '-' then
      -(digits ((Number.numeral i).text.dropWhile (· = '-')) : Int)
      else (digits ((Number.numeral i).text.dropWhile (· = '-')) : Int)) = i := by
    rw [Numeral.dropWhile_minus_text, Numeral.unsigned_of_plain rfl]
    simp only [Numeral.head?_text]
    show (if decide (i < 0) = true then -(digits (Nat.toDigits 10 i.natAbs) : Int)
      else (digits (Nat.toDigits 10 i.natAbs) : Int)) = i
    rw [hdigits]
    split
    next hneg =>
      have hneg := of_decide_eq_true hneg
      omega
    next hpos =>
      have hpos := of_decide_eq_false (Bool.eq_false_iff.2 hpos)
      omega
  simp only [parseInt64]
  rw [hvalue]

theorem isInteger_numeral (i : Int) : isInteger (Number.numeral i).text = true := by
  rw [isInteger, Bool.not_eq_true', Bool.eq_false_iff, ne_eq, List.any_eq_true]
  rintro ⟨c, hc, hpunct⟩
  rw [Numeral.text, Numeral.unsigned_of_plain rfl, List.mem_append] at hc
  have hpunct : c = '.' ∨ c = 'e' ∨ c = 'E' := by simpa [or_assoc] using hpunct
  rcases hc with hc | hc
  · have hminus : c = '-' := by
      split at hc
      · exact List.mem_singleton.1 hc
      · cases hc
    rw [hminus] at hpunct
    revert hpunct
    decide
  · have hdigit := (Number.numeral i).whole_digits c hc
    rcases hpunct with rfl | rfl | rfl <;> cases hdigit

/-- An integer that is encoded is below `2 ^ 53`. -/
theorem natAbs_lt_of_written (hp : host.Prints) {i : Int} {w : String}
    (h : writeNumber host (Number.numeral i).text = .ok w) : i.natAbs < 2 ^ 53 := by
  obtain ⟨j, hj, hlt⟩ := (writeNumber_ok hp h).1 (isInteger_numeral i)
  rw [parseInt64_numeral] at hj
  split at hj
  · rwa [Option.some.inj hj]
  · cases hj

/-- What becomes of a token of the arguments that was encoded: what `Engine.call` compares. -/
structure Survives (host : Host) (n : Number) (t : List Char) : Prop where
  written : writeNumber host (columnText host t) = writeNumber host t
  equal : columnText host t = numericText t ↔ Fixed n
  plain : NumberText (columnText host t)

theorem Spelled.survives (hp : host.Prints) {n : Number} {m : Numeral} (hm : Spelled host n m)
    {t : List Char} (ht : t = m.text ∨ t = numericText m.text) {w : String}
    (hw : writeNumber host t = .ok w) : Survives host n t := by
  obtain ⟨m', hexp, htext, hvalue, hidem⟩ := hm.numeric
  have hread : read t = m.value := by
    rcases ht with rfl | rfl
    · exact m.read_text
    · rw [← htext, m'.read_text, hvalue]
  have hparse : parseFloat t = some (F64.ofRat m.value) := by
    rw [writeNumber_parse hw, hread]
  have hint : ∀ i, n = .int i → i.natAbs < 2 ^ 53 := by
    rintro i rfl
    have hmt : m.text = (Number.numeral i).text := by
      rw [← hm.text, marshalNumber, Number.toString_numeral, String.toList_ofList]
    have hnone : m.exponent = none := hm.exponent.2 trivial
    have htm : t = m.text := by
      rcases ht with rfl | rfl
      · rfl
      · exact Numeral.numericText_of_none hm.value hnone
    rw [htm, hmt] at hw
    exact natAbs_lt_of_written hp hw
  have hstored : read (numericText m.text) = m.value := by rw [← htext, m'.read_text, hvalue]
  have hcolumn : columnText host t = m.text := by
    rw [columnText, hm.reread t hread hparse hint]
    exact hm.reread _ hstored ((parseFloat_congr (hstored.trans hread.symm)).trans hparse) hint
  have hnumeric : numericText t = m'.text := by
    rcases ht with rfl | rfl
    · exact htext.symm
    · rw [← htext, hidem]
  refine ⟨?_, ?_, ?_⟩
  · rw [hcolumn]
    rcases ht with rfl | rfl
    · rfl
    by_cases he : m.exponent = none
    · rw [Numeral.numericText_of_none hm.value he]
    · -- the token has an exponent, so neither text is taken for an integer out of range
      have hsame : parseFloat m.text = parseFloat (numericText m.text) :=
        parseFloat_congr (m.read_text.trans hread.symm)
      rw [writeNumber] at hw ⊢
      rw [writeNumber, isInteger_of_exponent he, hsame]
      split at hw
      · cases hw
      next hguard => rw [if_neg hguard, if_neg (by simp)]
  · rw [hcolumn, hnumeric, ← hm.exponent]
    constructor
    · intro heq
      by_contra he
      have hmem := exponent_mem.2 he
      rw [heq, exponent_mem] at hmem
      exact hmem hexp
    · intro he
      rw [htext, Numeral.numericText_of_none hm.value he]
  · rw [hcolumn]
    exact numberText m

/-- A token of the arguments, marshalled as it is or reloaded before. -/
theorem survives (hp : host.Prints) (hwhole : PrintsWhole host) {n : Number} {t : List Char}
    (ht : t = marshalNumber host n ∨ t = numericText (marshalNumber host n)) {w : String}
    (hw : writeNumber host t = .ok w) : Survives host n t := by
  rcases marshalNumber_cases hp hwhole n with ⟨hzero, hfixed⟩ | ⟨m, hm⟩
  · have htzero : IsZeroText t := by
      rcases ht with rfl | rfl
      · exact hzero
      · exact .inl (numericText_zero hzero)
    refine ⟨?_, iff_of_true ?_ hfixed, ?_⟩
    · rw [columnText_zero htzero, writeNumber_zero (.inl rfl), writeNumber_zero htzero]
    · rw [columnText_zero htzero, numericText_zero htzero]
    · rw [columnText_zero htzero]
      exact fun c hc => by rw [List.mem_singleton.1 hc]; rfl
  · rw [hm.text] at ht
    exact hm.survives hp ht hw

theorem numberText_int (i : Int) : NumberText (marshalNumber host (.int i)) := by
  rw [marshalNumber, Number.toString_numeral, String.toList_ofList]
  exact numberText _

/-- A small integer is written alike before and after. -/
theorem columnText_int (hp : host.Prints) (hw : PrintsWhole host) {i : Int} (h0 : i ≠ 0)
    (hi : i.natAbs < 2 ^ 53) :
    columnText host (marshalNumber host (.int i)) = marshalNumber host (.int i) := by
  have hm := spelled_int hp hw h0
  have hread : read (Number.numeral i).text = i := by
    rw [Numeral.read_text, Number.value_numeral]
  have hparse : parseFloat (Number.numeral i).text = some (F64.ofRat (Number.numeral i).value) := by
    have hsmall : |(i : Rat)| < 2 ^ 53 := by
      rw [← Int.cast_abs, Int.abs_eq_natAbs]
      exact_mod_cast hi
    have hpow : (2 : Rat) ^ 53 ≤ 2 ^ 970 := pow_le_pow_right₀ (by norm_num) (by norm_num)
    have hdouble : (2 : Rat) ^ 970 + 2 ^ 970 ≤ 2 ^ 1024 := by
      rw [← two_mul, ← pow_succ']
      exact pow_le_pow_right₀ (by norm_num) (by norm_num)
    rw [parseFloat, hread, Number.value_numeral, if_neg]
    exact not_le.2 (hsmall.trans_le (hpow.trans (le_sub_iff_add_le.2 hdouble)))
  have hre : refloat host (Number.numeral i).text = (Number.numeral i).text :=
    hm.reread _ (Numeral.read_text _) hparse fun j hj => by rwa [← Number.int.inj hj]
  rw [hm.text, columnText, hre, Numeral.numericText_of_none hm.value rfl, hre]

/-! ## The call and its execution after restarts -/

namespace Dynamic

/-- The document of the arguments a call was accepted with. -/
def root (host : Host) (v : Value) : Spelling := sortKeys (marshalTree host v)

theorem hasToken_root {v : Value} {t : List Char} :
    (root host v).HasToken t ↔ ∃ n, Value.Within (.num n) v ∧ t = marshalNumber host n :=
  (hasToken_sortKeys _).trans (hasToken_marshalTree v)

/-- One restart after another, with the arguments in the pending call. -/
abbrev Reloads (host : Host) : Dynamic → Dynamic → Prop :=
  Relation.TransGen fun a b => a.reload host = some b

/-- A restart loses the Go types and leaves the texts of the `numeric`s; more restarts change
nothing. -/
theorem tree_of_reloads (hp : host.Prints) (hw : PrintsWhole host) {v : Value} {d : Dynamic}
    (h : Reloads host (.typed v) d) : d.tree host = (root host v).mapTokens numericText := by
  have hstep : ∀ {a b : Dynamic} {k : List Char → List Char},
      a.tree host = (root host v).mapTokens k →
      (∀ t, (root host v).HasToken t → numericText (k t) = numericText t) →
      a.reload host = some b → b.tree host = (root host v).mapTokens numericText := by
    intro a b k ha hk hab
    rw [reload, Option.map_eq_some_iff] at hab
    obtain ⟨x, hx, rfl⟩ := hab
    rw [tree, (stored_eq_some hx).2, ha, mapTokens_mapTokens, sortKeys_mapTokens, root,
      sortKeys_sortKeys]
    exact mapTokens_congr hk
  induction h with
  | single h => exact hstep (k := id) (mapTokens_id _).symm (fun _ _ => rfl) h
  | tail _ h ih =>
    refine hstep ih (fun t ht => ?_) h
    obtain ⟨n, -, rfl⟩ := hasToken_root.1 ht
    exact numericText_numericText hp hw n

/-- The arguments as they come back from the column of the execution. -/
theorem tree_of_column {d d' : Dynamic} {x : Spelling} {k : List Char → List Char}
    (hd : d.tree host = (sortKeys x).mapTokens k) (h : d.column host = some d') :
    d'.tree host = (sortKeys x).mapTokens (columnText host ∘ k) := by
  rw [column] at h
  obtain ⟨v₁, hv₁, h⟩ := Option.bind_eq_some_iff.1 h
  obtain ⟨y, hy, h⟩ := Option.bind_eq_some_iff.1 h
  obtain ⟨v₂, hv₂, h⟩ := Option.bind_eq_some_iff.1 h
  rw [← Option.some.inj h, tree, marshalTree_unmarshal hv₂, (stored_eq_some hy).2, tree,
    marshalTree_unmarshal hv₁, hd]
  simp only [mapTokens_mapTokens, sortKeys_mapTokens, sortKeys_sortKeys]
  rfl

theorem equal_iff {a b : Dynamic} {x : Spelling} {k : List Char → List Char}
    (ha : a.tree host = x.mapTokens k) (hb : b.tree host = x.mapTokens h)
    (hk : ∀ t, x.HasToken t → NumberText (k t)) (hh : ∀ t, x.HasToken t → NumberText (h t)) :
    a.equal host b = true ↔ ∀ t, x.HasToken t → k t = h t := by
  rw [equal, decide_eq_true_eq, marshal, marshal, String.ofList_inj, ha, hb]
  exact encoded_mapTokens_iff hk hh

end Dynamic

/-- The payload of an execution as a document. -/
theorem payload_token {tool target : String} {x : Spelling} {t : List Char} :
    (Spelling.arr [.str "agent-payload-v1", .str tool, .str target, x]).HasToken t ↔
      x.HasToken t := by
  have hstr : ∀ s, ¬ (Spelling.str s).HasToken t := by rintro s ⟨⟩
  simp [hasToken_arr, hstr]

/-- The payload digest of the reloaded arguments. -/
theorem payloadIdentity_column {tool target fingerprint : String} {a b : Dynamic} {x : Spelling}
    {k l : List Char → List Char} (ha : a.tree host = x.mapTokens k)
    (hb : b.tree host = x.mapTokens (l ∘ k))
    (hl : ∀ t, x.HasToken t → ∀ w, writeNumber host (k t) = .ok w →
      writeNumber host (l (k t)) = writeNumber host (k t))
    (h : payloadIdentity host tool target a = .ok fingerprint) :
    payloadIdentity host tool target b = .ok fingerprint := by
  rw [payloadIdentity, digestTree] at h ⊢
  obtain ⟨u, hu, h⟩ := bind_ok h
  have hmap : Spelling.arr [.str "agent-payload-v1", .str tool, .str target, b.tree host] =
      (Spelling.arr [.str "agent-payload-v1", .str tool, .str target, a.tree host]).mapTokens l := by
    rw [hb, ha, ← mapTokens_mapTokens]
    rfl
  rw [hmap, canonicalV2_mapTokens, hu]
  · exact h
  · intro t ht
    obtain ⟨w, hw⟩ := canonicalV2_token hu ht
    rw [payload_token, ha, hasToken_mapTokens] at ht
    obtain ⟨t, ht, rfl⟩ := ht
    exact hl t ht w hw

namespace Engine

variable (e : Engine)

/-- The policy map comes back from its column unchanged. -/
theorem policy_column (hp : e.platform.host.Prints) (hw : PrintsWhole e.platform.host) {name : String}
    (hrange : 1 ≤ (e.policyOf name).maxAttempts ∧ (e.policyOf name).maxAttempts ≤ 10) {d : Dynamic}
    (h : (e.policyMap name).column e.platform.host = some d) :
    d.equal e.platform.host (e.policyMap name) = true := by
  set host := e.platform.host with hhost
  set v := (e.policyOf name).json with hv
  have hroot : (e.policyMap name).tree host = (sortKeys (marshalTree host v)).mapTokens id :=
    (mapTokens_id _).symm
  have htoken : ∀ t, (sortKeys (marshalTree host v)).HasToken t →
      t = marshalNumber host (.int (e.policyOf name).maxAttempts) := by
    intro t ht
    obtain ⟨n, hn, rfl⟩ := Dynamic.hasToken_root.1 ht
    have hstr : ∀ s, ¬ Value.Within (.num n) (.str s) := by rintro s ⟨⟩
    obtain hn | ⟨f, hf, hn⟩ := hn.of_obj
    · cases hn
    · rcases List.mem_cons.1 hf with rfl | hf
      · exact absurd hn (hstr _)
      · rw [List.mem_singleton.1 hf] at hn
        rw [Value.num.inj (hn.of_leaf rfl)]
  have hkept := columnText_int hp hw (i := (e.policyOf name).maxAttempts) (by omega) (by omega)
  have hplain : NumberText (marshalNumber host (.int (e.policyOf name).maxAttempts)) := numberText_int _
  rw [Dynamic.equal_iff (Dynamic.tree_of_column hroot h) hroot]
  · intro t ht
    rw [htoken t ht]
    exact hkept
  · intro t ht
    rw [htoken t ht]
    show NumberText (columnText host (marshalNumber host (.int _)))
    rw [hkept]
    exact hplain
  · intro t ht
    rw [htoken t ht]
    exact hplain

/-- After restarts a call is recognized exactly when none of its numbers is written with an
exponent. -/
theorem recognize_iff_fixed (hp : e.platform.host.Prints) (hw : PrintsWhole e.platform.host)
    {session namespaceId executionId name : String}
    (hpolicy : 1 ≤ (e.policyOf name).maxAttempts ∧ (e.policyOf name).maxAttempts ≤ 10)
    {v : Value} {args args' : Dynamic} {x x' : Frozen}
    (hargs : args = .typed v ∨ Dynamic.Reloads e.platform.host (.typed v) args)
    (hfreeze : e.freeze namespaceId session executionId name args = .ok x)
    (hrow : x.reload e.platform.host = some x')
    (hcall : Dynamic.Reloads e.platform.host args args') :
    e.recognize session name args' x' = .recognized ↔
      ∀ n, Value.Within (.num n) v → Fixed n := by
  rw [freeze] at hfreeze
  obtain ⟨fingerprint, hpayload, hfreeze⟩ := bind_ok hfreeze
  obtain rfl := Except.ok.inj hfreeze
  rw [Frozen.reload] at hrow
  obtain ⟨arguments, harguments, hrow⟩ := Option.bind_eq_some_iff.1 hrow
  obtain ⟨policy, hpol, hrow⟩ := Option.bind_eq_some_iff.1 hrow
  obtain rfl := Option.some.inj hrow
  have hsamePolicy := e.policy_column hp hw hpolicy hpol
  set host := e.platform.host with hhost
  set target := ((e.registry.capability name).map Capability.target).getD ("tool://" ++ name) with htarget
  -- the document at the intent, in the row and in the session
  obtain ⟨k, hk, htree⟩ : ∃ k : List Char → List Char, (∀ n, (k (marshalNumber host n) =
      marshalNumber host n ∨ k (marshalNumber host n) = numericText (marshalNumber host n)) ∧
      numericText (k (marshalNumber host n)) = numericText (marshalNumber host n)) ∧
      args.tree host = (Dynamic.root host v).mapTokens k := by
    rcases hargs with rfl | hreloads
    · exact ⟨id, fun n => ⟨.inl rfl, rfl⟩, (mapTokens_id _).symm⟩
    · exact ⟨numericText, fun n => ⟨.inr rfl, numericText_numericText hp hw n⟩,
        Dynamic.tree_of_reloads hp hw hreloads⟩
  have hcolumn := Dynamic.tree_of_column htree harguments
  have hsession : args'.tree host = (Dynamic.root host v).mapTokens numericText := by
    rcases hargs with rfl | hreloads
    · exact Dynamic.tree_of_reloads hp hw hcall
    · exact Dynamic.tree_of_reloads hp hw (hreloads.trans hcall)
  have hsurvives : ∀ n, Value.Within (.num n) v → Survives host n (k (marshalNumber host n)) := by
    intro n hn
    obtain ⟨u, hu, -⟩ := bind_ok hpayload
    obtain ⟨w, hw'⟩ := canonicalV2_token hu (payload_token.2 (htree ▸ hasToken_mapTokens.2
      ⟨_, Dynamic.hasToken_root.2 ⟨n, hn, rfl⟩, rfl⟩))
    exact survives hp hw (hk n).1 hw'
  have hidentity : payloadIdentity host name target arguments = .ok fingerprint := by
    refine payloadIdentity_column htree hcolumn (fun t ht w _ => ?_) hpayload
    obtain ⟨n, hn, rfl⟩ := Dynamic.hasToken_root.1 ht
    exact (hsurvives n hn).written
  have hsame : (e.registry.capability name).any (fun c => decide (target ≠ c.target)) = false := by
    rw [htarget]
    cases e.registry.capability name with
    | none => rfl
    | some c => simp
  have hequal : arguments.equal host args' = true ↔ ∀ n, Value.Within (.num n) v → Fixed n := by
    rw [Dynamic.equal_iff hcolumn hsession]
    · constructor
      · intro hall n hn
        have htexts := hall _ (Dynamic.hasToken_root.2 ⟨n, hn, rfl⟩)
        rw [← (hk n).2] at htexts
        exact (hsurvives n hn).equal.1 htexts
      · intro hall t ht
        obtain ⟨n, hn, rfl⟩ := Dynamic.hasToken_root.1 ht
        rw [← (hk n).2]
        exact (hsurvives n hn).equal.2 (hall n hn)
    · intro t ht
      obtain ⟨n, hn, rfl⟩ := Dynamic.hasToken_root.1 ht
      exact (hsurvives n hn).plain
    · intro t ht
      obtain ⟨n, hn, rfl⟩ := Dynamic.hasToken_root.1 ht
      exact numberText_numeric hp hw n
  rw [← hequal, recognize]
  dsimp only
  rw [← hhost, hidentity, hsame, hsamePolicy]
  cases arguments.equal host args' <;> simp [Except.toOption]

/-! ### The comparison before a restart -/

/-- The libraries write and read the documents of `Dynamic`. -/
structure Marshals : Prop where
  marshal : ∀ v, e.platform.marshal v = some ((Dynamic.typed v).marshal e.platform.host)
  decoder : ∀ v, e.platform.decoder ((Dynamic.typed v).marshal e.platform.host) =
    .ok ((Dynamic.typed v).tree e.platform.host)

variable {e}

theorem Marshals.digestV2 (hm : e.Marshals) (v : Value) :
    e.digestV2 v = digestTree e.platform.host ((Dynamic.typed v).tree e.platform.host) := by
  rw [Engine.digestV2, hm.marshal]
  dsimp only
  rw [hm.decoder]
  rfl

theorem Marshals.equalJSON (hm : e.Marshals) (a b : Value) :
    e.equalJSON a b = (Dynamic.typed a).equal e.platform.host (.typed b) := by
  rw [Engine.equalJSON, hm.marshal, hm.marshal, Dynamic.equal]

/-- What is frozen of an execution that was not reloaded. -/
def frozen (x : ToolExecution) : Frozen where
  namespaceId := x.namespaceId
  executionId := x.executionId
  tool := x.tool
  target := x.target
  payloadSha256 := x.payloadSha256
  idempotencyKey := x.idempotencyKey
  arguments := .typed (.obj x.arguments)
  policy := .typed x.policy.json

/-- As long as nothing is reloaded, the comparison is the one of `resumeExecution`. -/
theorem recognize_typed (hm : e.Marshals) (session name : String) (args : Arguments)
    (x : ToolExecution) : e.recognize session name (.typed (.obj args)) (frozen x) =
      if (e.payloadDigest x.tool x.target x.arguments).toOption.getD "" ≠ x.payloadSha256 ∨
          e.actionKey x.namespaceId session x.executionId ≠ x.idempotencyKey ∨
          (e.registry.capability name).any fun c => x.target ≠ c.target then .identityChanged
      else if x.tool ≠ name || !e.equalJSON (.obj x.arguments) (.obj args) ||
          !e.equalJSON x.policy.json (e.policyOf name).json then .policyChanged
      else .recognized := by
  rw [payloadDigest, actionKey, hm.digestV2, hm.digestV2, hm.equalJSON, hm.equalJSON]
  rfl

variable (e)

/-- An intent, and after one restart its row and the pending call. -/
def restart (namespaceId session executionId name : String) (v : Value) :
    Option (Frozen × Frozen × Dynamic) := do
  let x ← (e.freeze namespaceId session executionId name (.typed v)).toOption
  let x' ← x.reload e.platform.host
  let args ← (Dynamic.typed v).reload e.platform.host
  return (x, x', args)

variable {e}

theorem restart_eq_some {namespaceId session executionId name : String} {v : Value}
    {x x' : Frozen} {args : Dynamic}
    (h : e.restart namespaceId session executionId name v = some (x, x', args)) :
    e.freeze namespaceId session executionId name (.typed v) = .ok x ∧
      x.reload e.platform.host = some x' ∧ (Dynamic.typed v).reload e.platform.host = some args := by
  rw [restart] at h
  obtain ⟨y, hy, h⟩ := Option.bind_eq_some_iff.1 h
  obtain ⟨y', hy', h⟩ := Option.bind_eq_some_iff.1 h
  obtain ⟨d, hd, h⟩ := Option.bind_eq_some_iff.1 h
  obtain ⟨rfl, rfl, rfl⟩ : y = x ∧ y' = x' ∧ d = args := by simpa using h
  refine ⟨?_, hy', hd⟩
  cases hfreeze : e.freeze namespaceId session executionId name (.typed v) with
  | ok z =>
    rw [hfreeze] at hy
    rw [Option.some.inj hy]
  | error m =>
    rw [hfreeze] at hy
    cases hy

end Engine

theorem exactHost_printsWhole : PrintsWhole exactHost := fun i _ hi =>
  ⟨exactNumeral (F64.ofInt i), rfl, by rw [exactNumeral_value, F64.toRat_ofInt hi]⟩

/-- The arguments of a call with one count. -/
def countArguments (n : Number) : Value := .obj [("count", .num n)]

theorem recognize_iff_fixed_count : ∃ x x' args,
    toolEngine.freeze "namespace" "session" "execution" "tool" (.typed (countArguments (.int 3))) =
      .ok x ∧
    x.reload exactHost = some x' ∧
    (toolEngine.recognize "session" "tool" args x' = .recognized ↔
      ∀ n, Value.Within (.num n) (countArguments (.int 3)) → Fixed n) := by
  have hsome : (toolEngine.restart "namespace" "session" "execution" "tool"
      (countArguments (.int 3))).isSome = true := by decide +kernel
  obtain ⟨⟨x, x', args⟩, hrestart⟩ := Option.isSome_iff_exists.1 hsome
  obtain ⟨hfreeze, hrow, hcall⟩ := Engine.restart_eq_some hrestart
  exact ⟨x, x', args, hfreeze, hrow, toolEngine.recognize_iff_fixed exactHost_prints
    exactHost_printsWhole (by decide) (.inl rfl) hfreeze hrow (.single hcall)⟩

/-- A count of `1e21` is not recognized after a restart. -/
theorem recognize_count_differs : ¬ ∀ (e : Engine) (namespaceId session executionId name : String)
    (v : Value) (x x' : Frozen) (args : Dynamic), e.platform.host.Prints →
    PrintsWhole e.platform.host → e.freeze namespaceId session executionId name (.typed v) = .ok x →
    x.reload e.platform.host = some x' → (Dynamic.typed v).reload e.platform.host = some args →
    e.recognize session name args x' = .recognized := by
  intro h
  have hmap : (toolEngine.restart "namespace" "session" "execution" "tool"
      (countArguments (.float (F64.ofInt (10 ^ 21))))).map (fun r =>
        toolEngine.recognize "session" "tool" r.2.2 r.2.1) = some .policyChanged := by decide +kernel
  obtain ⟨⟨x, x', args⟩, hrestart, hchanged⟩ := Option.map_eq_some_iff.1 hmap
  obtain ⟨hfreeze, hrow, hcall⟩ := Engine.restart_eq_some hrestart
  have hrecognized := h toolEngine _ _ _ _ _ x x' args exactHost_prints exactHost_printsWhole hfreeze
    hrow hcall
  rw [hrecognized] at hchanged
  cases hchanged

end Go

end StateDrivenAgent
