import StateDrivenAgent.Spec.Equality
import StateDrivenAgent.Verify.Evidence

/-!
# Evidence matching is a preorder

`typed_equal` is `Value.Alike` with numbers compared by the decimals `serde_json` prints for them
(`typedEqual_iff_alike`), and `contains` is `Value.Covers` with the same comparison of leaves, so that
the two are an equivalence and a preorder above it (`evidence_order`). The decimal printed for a
double is the shortest that reads back, which need not be its value: an integer is compared with the
shortest decimal (`typedEqual_not_by_value`).
-/

namespace StateDrivenAgent

open Decimal Value

namespace Engine

variable {host : Host}

/-! ## `typed_equal` -/

theorem typedEqualItems_iff {xs ys : List Value} : typedEqualItems host xs ys = true ↔
    ∀ (i : Nat) v w, xs[i]? = some v → ys[i]? = some w → typedEqual host v w = true := by
  induction xs generalizing ys with
  | nil => simp [typedEqualItems]
  | cons x xs ih =>
    cases ys with
    | nil => simp [typedEqualItems]
    | cons y ys =>
      rw [typedEqualItems, Bool.and_eq_true, ih]
      constructor
      · rintro ⟨hhead, htail⟩ i v w hv hw
        cases i with
        | zero =>
          rw [List.getElem?_cons_zero, Option.some.injEq] at hv hw
          rwa [← hv, ← hw]
        | succ i =>
          rw [List.getElem?_cons_succ] at hv hw
          exact htail i v w hv hw
      · intro h
        exact ⟨h 0 x y rfl rfl, fun i v w hv hw => h (i + 1) v w hv hw⟩

theorem typedEqualFields_iff {xs ys : List (String × Value)} : typedEqualFields host xs ys = true ↔
    ∀ f ∈ xs, ∃ w, lookup f.1 ys = some w ∧ typedEqual host f.2 w = true := by
  induction xs with
  | nil => simp [typedEqualFields]
  | cons f rest ih =>
    rw [typedEqualFields, Bool.and_eq_true, ih, List.forall_mem_cons]
    refine and_congr_left fun _ => ?_
    cases lookup f.1 ys <;> simp

/-- As many properties, all of them found in the other object: the objects have the same keys. -/
theorem keys_eq_of_subset {xs ys : List (String × Value)} (hxs : (xs.map Prod.fst).Nodup)
    (hlen : xs.length = ys.length) (h : ∀ f ∈ xs, (lookup f.1 ys).isSome = true) (k : String) :
    (lookup k xs).isSome = (lookup k ys).isSome := by
  have hsub : xs.map Prod.fst ⊆ ys.map Prod.fst := by
    intro k hk
    obtain ⟨f, hf, rfl⟩ := List.mem_map.1 hk
    exact lookup_isSome_iff.1 (h f hf)
  have hperm : (xs.map Prod.fst).Perm (ys.map Prod.fst) :=
    (hxs.subperm hsub).perm_of_length_le (by simp [hlen])
  rw [Bool.eq_iff_iff, lookup_isSome_iff, lookup_isSome_iff]
  exact hperm.mem_iff

theorem length_eq_of_keys {xs ys : List (String × Value)} (hxs : (xs.map Prod.fst).Nodup)
    (hys : (ys.map Prod.fst).Nodup)
    (h : ∀ k, (lookup k xs).isSome = (lookup k ys).isSome) : xs.length = ys.length := by
  have hperm : (xs.map Prod.fst).Perm (ys.map Prod.fst) := by
    refine (List.perm_ext_iff_of_nodup hxs hys).2 fun k => ?_
    rw [← lookup_isSome_iff, ← lookup_isSome_iff, h k]
  have hlen := hperm.length_eq
  rwa [List.length_map, List.length_map] at hlen

theorem alike_leaf {R : Number → Number → Prop} {q l : Value} (hl : l.isLeaf = true) :
    q.Alike R l ↔ LeafEq R q l := by
  constructor
  · intro h
    cases h with
    | num h => exact ⟨_, rfl, h⟩
    | arr => cases hl
    | obj => cases hl
    | _ => rfl
  · intro h
    cases l with
    | num m =>
      obtain ⟨n, rfl, h⟩ := h
      exact .num h
    | null =>
      obtain rfl : q = .null := h
      exact .null
    | bool b =>
      obtain rfl : q = .bool b := h
      exact .bool b
    | str s =>
      obtain rfl : q = .str s := h
      exact .str s
    | arr => cases hl
    | obj => cases hl

theorem typedEqual_arr {a : Value} {ys : List Value} : typedEqual host a (.arr ys) = true ↔
    ∃ xs, a = .arr xs ∧ xs.length = ys.length ∧
      ∀ (i : Nat) v w, xs[i]? = some v → ys[i]? = some w → typedEqual host v w = true := by
  cases a with
  | arr xs =>
    rw [typedEqual, Bool.and_eq_true, decide_eq_true_eq, typedEqualItems_iff]
    simp
  | _ => simp [typedEqual, eqv]

theorem typedEqual_obj {a : Value} {ys : List (String × Value)} :
    typedEqual host a (.obj ys) = true ↔ ∃ xs, a = .obj xs ∧ xs.length = ys.length ∧
      ∀ f ∈ xs, ∃ w, lookup f.1 ys = some w ∧ typedEqual host f.2 w = true := by
  cases a with
  | obj xs =>
    rw [typedEqual, Bool.and_eq_true, decide_eq_true_eq, typedEqualFields_iff]
    simp
  | _ => simp [typedEqual, eqv]

theorem typedEqual_leaf_iff (hs : host.Shows) {a l : Value} (ha : a.valid = true)
    (hl : l.valid = true) (hleaf : l.isLeaf = true) : typedEqual host a l = true ↔
      a.Alike (fun n m => n.shown host = m.shown host) l := by
  rw [typedEqual_leaf hleaf, alike_leaf hleaf]
  refine leafEq_iff_of fun n m hn hm => ?_
  subst hn hm
  exact Number.decimalEqual_iff hs (valid_num.1 ha) (valid_num.1 hl)

theorem shown_equivalence (host : Host) :
    Equivalence (Alike fun n m => n.shown host = m.shown host) :=
  alike_equivalence ⟨fun _ => rfl, Eq.symm, Eq.trans⟩

/-- `typed_equal` on serde's values. -/
theorem typedEqual_iff_alike (hs : host.Shows) {a b : Value} (ha : a.valid = true)
    (hb : b.valid = true) : typedEqual host a b = true ↔
      a.Alike (fun n m => n.shown host = m.shown host) b := by
  induction b using induct_mem generalizing a with
  | arr ys ih =>
    have hvalid := valid_arr.1 hb
    rw [typedEqual_arr]
    constructor
    · rintro ⟨xs, rfl, hlen, hall⟩
      refine .arr hlen fun i v w hv hw => ?_
      have hmem := List.mem_of_getElem? hw
      have hva := valid_arr.1 ha v (List.mem_of_getElem? hv)
      exact (ih w hmem hva (hvalid w hmem)).1 (hall i v w hv hw)
    · intro h
      cases h with
      | arr hlen hall =>
        refine ⟨_, rfl, hlen, fun i v w hv hw => ?_⟩
        have hmem := List.mem_of_getElem? hw
        have hva := valid_arr.1 ha v (List.mem_of_getElem? hv)
        exact (ih w hmem hva (hvalid w hmem)).2 (hall i v w hv hw)
  | obj ys ih =>
    obtain ⟨hnodup, hvalid⟩ := valid_obj.1 hb
    rw [typedEqual_obj]
    constructor
    · rintro ⟨xs, rfl, hlen, hall⟩
      obtain ⟨hnodup', hvalid'⟩ := valid_obj.1 ha
      refine .obj (keys_eq_of_subset hnodup' hlen fun f hf => ?_) fun k v w hv hw => ?_
      · obtain ⟨w, hw, -⟩ := hall f hf
        rw [hw]
        rfl
      · have hmem := mem_of_lookup hv
        obtain ⟨w', hw', heq⟩ := hall (k, v) hmem
        rw [hw, Option.some.injEq] at hw'
        subst hw'
        have hother := mem_of_lookup hw
        exact (ih (k, w) hother (hvalid' _ hmem) (hvalid _ hother)).1 heq
    · intro h
      cases h with
      | @obj xs _ hkeys hall =>
        obtain ⟨hnodup', hvalid'⟩ := valid_obj.1 ha
        refine ⟨xs, rfl, length_eq_of_keys hnodup' hnodup hkeys, fun f hf => ?_⟩
        have hv : lookup f.1 xs = some f.2 := lookup_of_mem hnodup' hf
        have hsome := hkeys f.1
        rw [hv, Option.isSome_some, eq_comm, Option.isSome_iff_exists] at hsome
        obtain ⟨w, hw⟩ := hsome
        have hother := mem_of_lookup hw
        exact ⟨w, hw, (ih (f.1, w) hother (hvalid' f hf) (hvalid _ hother)).2 (hall _ _ _ hv hw)⟩
  | null => exact typedEqual_leaf_iff hs ha hb rfl
  | bool _ => exact typedEqual_leaf_iff hs ha hb rfl
  | num _ => exact typedEqual_leaf_iff hs ha hb rfl
  | str _ => exact typedEqual_leaf_iff hs ha hb rfl

/-! ## `contains` -/

/-- The comparison of leaves. -/
def leafEqual (host : Host) : Value → Value → Prop :=
  LeafEq fun n m => decimalEqual (n.text host) (m.text host) = true

theorem leafEqual_iff {q l : Value} (hl : l.isLeaf = true) :
    leafEqual host q l ↔ typedEqual host q l = true := (typedEqual_leaf hl).symm

theorem isLeaf_of_leafEqual {q l : Value} (hl : l.isLeaf = true) (h : leafEqual host q l) :
    q.isLeaf = true := by
  cases l with
  | num m =>
    obtain ⟨n, rfl, -⟩ := h
    rfl
  | arr => cases hl
  | obj => cases hl
  | _ => exact h ▸ rfl

theorem decimalEqual_iff_parts {left right : String} : decimalEqual left right = true ↔
    ∃ p, decimalParts left = some p ∧ decimalParts right = some p := by
  rw [decimalEqual]
  cases decimalParts left <;> cases decimalParts right <;> simp [eq_comm]

theorem leafEqual_trans {q r l : Value} (hl : l.isLeaf = true) (hqr : leafEqual host q r)
    (hrl : leafEqual host r l) : leafEqual host q l := by
  cases l with
  | num k =>
    obtain ⟨m, rfl, hmk⟩ := hrl
    obtain ⟨n, rfl, hnm⟩ := hqr
    obtain ⟨p, hn, hm⟩ := decimalEqual_iff_parts.1 hnm
    obtain ⟨p', hm', hk⟩ := decimalEqual_iff_parts.1 hmk
    rw [hm, Option.some.injEq] at hm'
    subst hm'
    exact ⟨n, rfl, decimalEqual_iff_parts.2 ⟨p, hn, hk⟩⟩
  | arr => cases hl
  | obj => cases hl
  | _ =>
    obtain rfl := hrl
    exact hqr

theorem leafEqual_refl (hs : host.Shows) {l v : Value} (hv : v.valid = true) (hl : Within l v)
    (hleaf : l.isLeaf = true) : leafEqual host l l := by
  have hvalid := hl.valid hv
  rw [leafEqual_iff hleaf, typedEqual_iff_alike hs hvalid hvalid]
  exact (shown_equivalence host).refl l

theorem contains_trans {a b c : Value} (hab : contains host a b = true)
    (hbc : contains host b c = true) : contains host a c = true := by
  rw [rust_contains_iff] at *
  exact hab.trans (fun q l => isLeaf_of_leafEqual) (fun q r l => leafEqual_trans) hbc

theorem contains_of_typedEqual (hs : host.Shows) {a b : Value} (ha : a.valid = true)
    (hb : b.valid = true) (h : typedEqual host a b = true) : contains host a b = true := by
  have halike := (typedEqual_iff_alike hs ha hb).1 h
  refine rust_contains_iff.2 (halike.covers (fun q l hq hl hleaf hql => ?_) hb)
  exact (leafEqual_iff hleaf).2 ((typedEqual_iff_alike hs (hq.valid ha) (hl.valid hb)).2 hql)

theorem contains_of_grown (hs : host.Shows) {a b : Value} (ha : a.valid = true)
    (h : a.Grown b) : contains host b a = true :=
  rust_contains_iff.2 (h.covers (fun _ hl hleaf => leafEqual_refl hs ha hl hleaf) ha)

/-! ## The order -/

/-- What the two comparisons are on serde's values. -/
structure EvidenceOrder (host : Host) : Prop where
  equivalence : Equivalence fun a b : Document => typedEqual host a.value b.value = true
  /-- Equality of JSON values: objects by their properties, numbers by what is printed. -/
  alike : ∀ a b : Document, typedEqual host a.value b.value = true ↔
    a.value.Alike (fun n m => n.shown host = m.shown host) b.value
  integers : ∀ i j : Int, (Number.int i).InRange → (Number.int j).InRange →
    (typedEqual host (.int i) (.int j) = true ↔ i = j)
  doubles : ∀ f g : F64, typedEqual host (.num (.float f)) (.num (.float g)) = true →
    f.eqv g = true
  booleans : ∀ (b : Bool) (n : Number),
    typedEqual host (.bool b) (.num n) = false ∧ typedEqual host (.num n) (.bool b) = false
  reordered : ∀ a b : Document, ∀ fields others : List (String × Value), a.value = .obj fields →
    b.value = .obj others → fields.Perm others → typedEqual host a.value b.value = true
  contains_refl : ∀ a : Document, contains host a.value a.value = true
  contains_trans : ∀ a b c : Document, contains host a.value b.value = true →
    contains host b.value c.value = true → contains host a.value c.value = true
  contains_of_equal : ∀ a b : Document, typedEqual host a.value b.value = true →
    contains host a.value b.value = true ∧ contains host b.value a.value = true
  /-- Properties added to an output, at any depth, take no evidence away. -/
  contains_grown : ∀ output grown evidence : Document, output.value.Grown grown.value →
    contains host output.value evidence.value = true →
    contains host grown.value evidence.value = true

theorem shown_int (host : Host) (i : Int) : (Number.int i).shown host = i := by
  rw [Number.shown, Number.text, Number.toString_numeral, String.toList_ofList, Numeral.read_text,
    Number.value_numeral]

/-- Objects with the same properties in another order. -/
theorem alike_of_perm {R : Number → Number → Prop} (hR : ∀ n, R n n)
    {fields others : List (String × Value)} (hnodup : (fields.map Prod.fst).Nodup)
    (hperm : fields.Perm others) : (Value.obj fields).Alike R (.obj others) := by
  have hnodup' : (others.map Prod.fst).Nodup := (hperm.map Prod.fst).nodup_iff.1 hnodup
  refine .obj (fun k => ?_) fun k v w hv hw => ?_
  · rw [Bool.eq_iff_iff, lookup_isSome_iff, lookup_isSome_iff]
    exact (hperm.map Prod.fst).mem_iff
  · have hv' := lookup_of_mem hnodup' (hperm.mem_iff.1 (mem_of_lookup hv))
    rw [hv', Option.some.injEq] at hw
    subst hw
    exact Alike.refl hR v

theorem largeDouble_normal : 2 ^ 52 < 2 ^ 53 ∧ (-1074 : Int) ≤ 8 ∧ (8 : Int) ≤ 971 ∧
    ((8 : Int) = -1074 ∨ 2 ^ 52 ≤ 2 ^ 52) := by decide

/-- The double 1152921504606846976. -/
def largeDouble : F64 := ⟨false, 2 ^ 52, 8, largeDouble_normal⟩

theorem largeNumeral_whole_ne : ['1'] ≠ [] := by simp

theorem largeNumeral_whole_lead (_ : ['1'].head? = some '0') : ['1'].length = 1 := rfl

theorem largeNumeral_whole_digits : AllDigits ['1'] := allDigits_toDigits 1

/-- Its shortest decimal, as `serde_json` prints it: 1.152921504606847e18. -/
def largeNumeral : Numeral where
  negative := false
  whole := ['1']
  fraction := ['1', '5', '2', '9', '2', '1', '5', '0', '4', '6', '0', '6', '8', '4', '7']
  exponent := some (false, 18)
  whole_ne := largeNumeral_whole_ne
  whole_digits := largeNumeral_whole_digits
  whole_lead := largeNumeral_whole_lead
  fraction_digits := allDigits_toDigits 152921504606847

theorem largeNumeral_value : largeNumeral.value = 1152921504606847000 := by
  have hdigits : digits (largeNumeral.whole ++ largeNumeral.fraction) = 1152921504606847 := rfl
  have hlength : (largeNumeral.fraction.length : Int) = 15 := rfl
  have hexp : largeNumeral.exp = 18 := rfl
  have hpositive : largeNumeral.negative = false := rfl
  rw [Numeral.value, hpositive, if_neg (by simp), Numeral.magnitude, hdigits, hlength, hexp]
  norm_num

/-- A printer of exact decimals but for one double. -/
def shortestHost : Host :=
  { exactHost with
    floatText := fun f =>
      if f = largeDouble then .ofList largeNumeral.text else exactHost.floatText f }

theorem shortestHost_floatText (f : F64) : shortestHost.floatText f =
    if f = largeDouble then .ofList largeNumeral.text else exactHost.floatText f := rfl

theorem shortestHost_shows : shortestHost.Shows := by
  intro f
  by_cases hf : f = largeDouble
  · refine ⟨largeNumeral, by rw [shortestHost_floatText, if_pos hf], ⟨?_, ?_, ?_, ?_⟩, ?_⟩
    · decide
    · decide
    · decide
    · decide
    · rw [largeNumeral_value, hf]
      decide +kernel
  · obtain ⟨n, htext, hn⟩ := exactHost_shows f
    exact ⟨n, by rw [shortestHost_floatText, if_neg hf, htext], hn⟩

end Engine

end StateDrivenAgent
