import StateDrivenAgent.Spec.Evidence

/-!
# Equal values, and values with more in them

`Alike` is equality of JSON values for a comparison of numbers: arrays element by element, objects
property by property in any order. Over an equivalence of numbers it is an equivalence
(`alike_equivalence`). `Grown` adds properties to the objects of a value, at any depth. A value covers
what it is alike to and what it has grown from (`Alike.covers`, `Grown.covers`), and covering is a
preorder (`covers_refl`, `Covers.trans`), so that a grown value covers every pattern the value covers.
-/

namespace StateDrivenAgent

namespace Value

/-- Equality of JSON values, with `R` between numbers. -/
inductive Alike (R : Number → Number → Prop) : Value → Value → Prop where
  | null : Alike R null null
  | bool (b : Bool) : Alike R (bool b) (bool b)
  | num {n m : Number} (h : R n m) : Alike R (num n) (num m)
  | str (s : String) : Alike R (str s) (str s)
  | arr {xs ys : List Value} (hlen : xs.length = ys.length)
      (h : ∀ (i : Nat) v w, xs[i]? = some v → ys[i]? = some w → Alike R v w) : Alike R (arr xs) (arr ys)
  | obj {xs ys : List (String × Value)}
      (hkeys : ∀ k, (lookup k xs).isSome = (lookup k ys).isSome)
      (h : ∀ k v w, lookup k xs = some v → lookup k ys = some w → Alike R v w) :
      Alike R (obj xs) (obj ys)

/-- The second value is the first one with properties added to its objects. -/
inductive Grown : Value → Value → Prop where
  | refl (v : Value) : Grown v v
  | arr {xs ys : List Value} (hlen : xs.length = ys.length)
      (h : ∀ (i : Nat) v w, xs[i]? = some v → ys[i]? = some w → Grown v w) : Grown (arr xs) (arr ys)
  | obj {xs ys : List (String × Value)}
      (hkeys : ∀ k, (lookup k xs).isSome = true → (lookup k ys).isSome = true)
      (h : ∀ k v w, lookup k xs = some v → lookup k ys = some w → Grown v w) :
      Grown (obj xs) (obj ys)

section alike
variable {R : Number → Number → Prop}

theorem Alike.refl (hR : ∀ n, R n n) (a : Value) : Alike R a a := by
  induction a using induct_mem with
  | null => exact .null
  | bool b => exact .bool b
  | num n => exact .num (hR n)
  | str s => exact .str s
  | arr items ih =>
    refine .arr rfl fun i v w hv hw => ?_
    rw [hv, Option.some.injEq] at hw
    subst hw
    exact ih v (List.mem_of_getElem? hv)
  | obj fields ih =>
    refine .obj (fun k => rfl) fun k v w hv hw => ?_
    rw [hv, Option.some.injEq] at hw
    subst hw
    exact ih (k, v) (mem_of_lookup hv)

theorem Alike.symm (hR : ∀ n m, R n m → R m n) {a b : Value} (h : Alike R a b) : Alike R b a := by
  induction h with
  | null => exact .null
  | bool b => exact .bool b
  | num h => exact .num (hR _ _ h)
  | str s => exact .str s
  | arr hlen _ ih => exact .arr hlen.symm fun i v w hv hw => ih i w v hw hv
  | obj hkeys _ ih => exact .obj (fun k => (hkeys k).symm) fun k v w hv hw => ih k w v hw hv

theorem Alike.trans (hR : ∀ n m k, R n m → R m k → R n k) {a b c : Value} (hab : Alike R a b)
    (hbc : Alike R b c) : Alike R a c := by
  induction hab generalizing c with
  | null => exact hbc
  | bool b => exact hbc
  | str s => exact hbc
  | num h =>
    cases hbc with
    | num h' => exact .num (hR _ _ _ h h')
  | @arr xs ys hlen _ ih =>
    cases hbc with
    | @arr _ zs hlen' h' =>
      refine .arr (hlen.trans hlen') fun i v w hv hw => ?_
      -- the element between
      obtain ⟨hi, -⟩ := List.getElem?_eq_some_iff.1 hv
      have hu : ys[i]? = some (ys.get ⟨i, hlen ▸ hi⟩) := List.getElem?_eq_getElem _
      exact ih i v _ hv hu (h' i _ w hu hw)
  | @obj xs ys hkeys _ ih =>
    cases hbc with
    | @obj _ zs hkeys' h' =>
      refine .obj (fun k => (hkeys k).trans (hkeys' k)) fun k v w hv hw => ?_
      -- the property between
      have hsome := hkeys k
      rw [hv, Option.isSome_some, eq_comm, Option.isSome_iff_exists] at hsome
      obtain ⟨u, hu⟩ := hsome
      exact ih k v u hv hu (h' k u w hu hw)

theorem alike_equivalence (hR : Equivalence R) : Equivalence (Alike R) where
  refl := Alike.refl hR.refl
  symm hab := hab.symm fun _ _ => hR.symm
  trans hab hbc := hab.trans (fun n m k (h : R n m) (h' : R m k) => hR.trans h h') hbc

end alike

/-! ## Covering is a preorder -/

section covers
variable {leaf : Value → Value → Prop}

theorem covers_refl {b : Value} (hleaf : ∀ l, Within l b → l.isLeaf = true → leaf l l)
    (hb : b.valid = true) : Covers leaf b b := by
  induction b using induct_mem with
  | arr items ih =>
    refine covers_arr.2 ⟨items, rfl, fun v hv => ⟨v, hv, ?_⟩⟩
    exact ih v hv (fun l hl => hleaf l (.item hv hl)) (valid_arr.1 hb v hv)
  | obj fields ih =>
    obtain ⟨hnodup, hvalid⟩ := valid_obj.1 hb
    refine covers_obj.2 ⟨fields, rfl, fun f hf => ⟨f.2, lookup_of_mem hnodup hf, ?_⟩⟩
    exact ih f hf (fun l hl => hleaf l (.field hf hl)) (hvalid f hf)
  | null => exact hleaf _ .refl rfl
  | bool _ => exact hleaf _ .refl rfl
  | num _ => exact hleaf _ .refl rfl
  | str _ => exact hleaf _ .refl rfl

/-- Covering composes when comparisons of leaves do, and a leaf is compared with leaves only. -/
theorem Covers.trans (hkind : ∀ q l, l.isLeaf = true → leaf q l → q.isLeaf = true)
    (hleaf : ∀ q r l, l.isLeaf = true → leaf q r → leaf r l → leaf q l) {a b c : Value}
    (hab : Covers leaf a b) (hbc : Covers leaf b c) : Covers leaf a c := by
  have hend : ∀ {a b l : Value}, l.isLeaf = true → Covers leaf a b → Covers leaf b l →
      Covers leaf a l := by
    intro a b l hl hab hbl
    rw [covers_leaf hl] at hbl ⊢
    rw [covers_leaf (hkind b l hl hbl)] at hab
    exact hleaf a b l hl hab hbl
  induction c using induct_mem generalizing a b with
  | arr items ih =>
    obtain ⟨x, rfl, hx⟩ := covers_arr.1 hbc
    obtain ⟨y, rfl, hy⟩ := covers_arr.1 hab
    refine covers_arr.2 ⟨y, rfl, fun v hv => ?_⟩
    obtain ⟨q, hq, hqv⟩ := hx v hv
    obtain ⟨r, hr, hrq⟩ := hy q hq
    exact ⟨r, hr, ih v hv hrq hqv⟩
  | obj fields ih =>
    obtain ⟨x, rfl, hx⟩ := covers_obj.1 hbc
    obtain ⟨y, rfl, hy⟩ := covers_obj.1 hab
    refine covers_obj.2 ⟨y, rfl, fun f hf => ?_⟩
    obtain ⟨q, hq, hqv⟩ := hx f hf
    obtain ⟨r, hr, hrq⟩ := hy (f.1, q) (mem_of_lookup hq)
    exact ⟨r, hr, ih f hf hrq hqv⟩
  | null => exact hend rfl hab hbc
  | bool _ => exact hend rfl hab hbc
  | num _ => exact hend rfl hab hbc
  | str _ => exact hend rfl hab hbc

theorem Alike.covers {R : Number → Number → Prop} {a b : Value} (h : Alike R a b)
    (hleaf : ∀ q l, Within q a → Within l b → l.isLeaf = true → Alike R q l → leaf q l)
    (hb : b.valid = true) : Covers leaf a b := by
  induction h with
  | null => exact hleaf _ _ .refl .refl rfl .null
  | bool b => exact hleaf _ _ .refl .refl rfl (.bool b)
  | num h => exact hleaf _ _ .refl .refl rfl (.num h)
  | str s => exact hleaf _ _ .refl .refl rfl (.str s)
  | @arr xs ys hlen _ ih =>
    refine covers_arr.2 ⟨xs, rfl, fun w hw => ?_⟩
    obtain ⟨i, hi⟩ := List.getElem?_of_mem hw
    obtain ⟨hlt, -⟩ := List.getElem?_eq_some_iff.1 hi
    have hv : xs[i]? = some (xs.get ⟨i, hlen ▸ hlt⟩) := List.getElem?_eq_getElem _
    have hmem := List.mem_of_getElem? hv
    refine ⟨_, hmem, ih i _ w hv hi (fun q l hq hl => ?_) (valid_arr.1 hb w hw)⟩
    exact hleaf q l (.item hmem hq) (.item hw hl)
  | @obj xs ys hkeys _ ih =>
    obtain ⟨hnodup, hvalid⟩ := valid_obj.1 hb
    refine covers_obj.2 ⟨xs, rfl, fun f hf => ?_⟩
    have hw : lookup f.1 ys = some f.2 := lookup_of_mem hnodup hf
    have hsome := hkeys f.1
    rw [hw, Option.isSome_some, Option.isSome_iff_exists] at hsome
    obtain ⟨v, hv⟩ := hsome
    refine ⟨v, hv, ih f.1 v f.2 hv hw (fun q l hq hl => ?_) (hvalid f hf)⟩
    exact hleaf q l (.field (mem_of_lookup hv) hq) (.field hf hl)

theorem Grown.covers {a b : Value} (h : Grown a b)
    (hleaf : ∀ l, Within l a → l.isLeaf = true → leaf l l) (ha : a.valid = true) :
    Covers leaf b a := by
  induction h with
  | refl v => exact covers_refl hleaf ha
  | @arr xs ys hlen _ ih =>
    refine covers_arr.2 ⟨ys, rfl, fun v hv => ?_⟩
    obtain ⟨i, hi⟩ := List.getElem?_of_mem hv
    obtain ⟨hlt, -⟩ := List.getElem?_eq_some_iff.1 hi
    have hw : ys[i]? = some (ys.get ⟨i, hlen ▸ hlt⟩) := List.getElem?_eq_getElem _
    refine ⟨_, List.mem_of_getElem? hw, ?_⟩
    exact ih i v _ hi hw (fun l hl => hleaf l (.item hv hl)) (valid_arr.1 ha v hv)
  | @obj xs ys hkeys _ ih =>
    obtain ⟨hnodup, hvalid⟩ := valid_obj.1 ha
    refine covers_obj.2 ⟨ys, rfl, fun f hf => ?_⟩
    have hv : lookup f.1 xs = some f.2 := lookup_of_mem hnodup hf
    have hsome := hkeys f.1 (by rw [hv]; rfl)
    rw [Option.isSome_iff_exists] at hsome
    obtain ⟨w, hw⟩ := hsome
    exact ⟨w, hw, ih f.1 f.2 w hv hw (fun l hl => hleaf l (.field hf hl)) (hvalid f hf)⟩

end covers

/-- A new property. -/
theorem grown_append {fields : List (String × Value)} {k : String} {v : Value} :
    Grown (obj fields) (obj (fields ++ [(k, v)])) := by
  refine .obj (fun k' hk => ?_) fun k' v' w hv hw => ?_
  · rw [lookup_append]
    cases hl : lookup k' fields with
    | none => rw [hl] at hk; cases hk
    | some u => rfl
  · rw [lookup_append, hv] at hw
    cases hw
    exact .refl _

end Value

end StateDrivenAgent
