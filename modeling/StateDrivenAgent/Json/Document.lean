import StateDrivenAgent.Json.Double
import StateDrivenAgent.Host

/-!
# Documents

A `serde_json::Value` is more than a tree: a `Map` holds each property once, and an integer token is
an `i64` or a `u64`. `Document` carries both facts at every depth. What the strict reader returns is
a document (`strict_valid`).

`Value.same` is equality of JSON values: properties in any order, numbers by their mathematical
value. serde's `==` (`Value.eqv`) is finer, since it tells `1` from `1.0`.
-/

namespace StateDrivenAgent

theorem lookup_of_mem {α : Type} {fields : List (String × α)} (hn : (fields.map Prod.fst).Nodup)
    {k : String} {v : α} (h : (k, v) ∈ fields) : lookup k fields = some v := by
  induction fields with
  | nil => cases h
  | cons f rest ih =>
    rw [List.map_cons, List.nodup_cons] at hn
    rw [lookup_cons]
    rcases List.mem_cons.1 h with rfl | h
    · rw [if_pos rfl]
    · have hne : f.1 ≠ k := by
        rintro rfl
        exact hn.1 (List.mem_map.2 ⟨(f.1, v), h, rfl⟩)
      rw [if_neg hne]
      exact ih hn.2 h

namespace Value

mutual

/-- Each property once and every integer in range, at every depth. -/
def valid : Value → Bool
  | num n => decide n.InRange
  | arr items => validItems items
  | obj fields => decide (fields.map Prod.fst).Nodup && validFields fields
  | _ => true

def validItems : List Value → Bool
  | [] => true
  | v :: vs => v.valid && validItems vs

def validFields : List (String × Value) → Bool
  | [] => true
  | (_, v) :: rest => v.valid && validFields rest

end

mutual

/-- Equality of JSON values. -/
def same : Value → Value → Bool
  | null, null => true
  | bool a, bool b => a = b
  | num a, num b => a.toRat = b.toRat
  | str a, str b => a = b
  | arr a, arr b => sameItems a b
  | obj a, obj b => a.length = b.length && sameFields a b
  | _, _ => false

def sameItems : List Value → List Value → Bool
  | [], [] => true
  | a :: as, b :: bs => a.same b && sameItems as bs
  | _, _ => false

def sameFields : List (String × Value) → List (String × Value) → Bool
  | [], _ => true
  | (k, a) :: rest, other =>
    (match lookup k other with
      | some b => a.same b
      | none => false) && sameFields rest other

end

mutual

/-- The number of arrays and objects around the innermost value. -/
def depth : Value → Nat
  | arr items => depthItems items + 1
  | obj fields => depthFields fields + 1
  | _ => 0

def depthItems : List Value → Nat
  | [] => 0
  | v :: vs => max v.depth (depthItems vs)

def depthFields : List (String × Value) → Nat
  | [] => 0
  | (_, v) :: rest => max v.depth (depthFields rest)

end

mutual

/-- Every number of the value has the property. -/
def EveryNumber (P : Number → Prop) : Value → Prop
  | num n => P n
  | arr items => EveryNumberItems P items
  | obj fields => EveryNumberFields P fields
  | _ => True

def EveryNumberItems (P : Number → Prop) : List Value → Prop
  | [] => True
  | v :: vs => v.EveryNumber P ∧ EveryNumberItems P vs

def EveryNumberFields (P : Number → Prop) : List (String × Value) → Prop
  | [] => True
  | (_, v) :: rest => v.EveryNumber P ∧ EveryNumberFields P rest

end

mutual

/-- Every string and property name of the value has the property. -/
def EveryText (P : String → Prop) : Value → Prop
  | str s => P s
  | arr items => EveryTextItems P items
  | obj fields => EveryTextFields P fields
  | _ => True

def EveryTextItems (P : String → Prop) : List Value → Prop
  | [] => True
  | v :: vs => v.EveryText P ∧ EveryTextItems P vs

def EveryTextFields (P : String → Prop) : List (String × Value) → Prop
  | [] => True
  | (k, v) :: rest => (P k ∧ v.EveryText P) ∧ EveryTextFields P rest

end

/-- Induction with the elements and properties of a value as members. -/
theorem induct_mem {P : Value → Prop} (null : P .null) (bool : ∀ b, P (.bool b))
    (num : ∀ n, P (.num n)) (str : ∀ s, P (.str s))
    (arr : ∀ items, (∀ v ∈ items, P v) → P (.arr items))
    (obj : ∀ fields, (∀ f ∈ fields, P f.2) → P (.obj fields)) : ∀ v : Value, P v
  | .null => null
  | .bool b => bool b
  | .num n => num n
  | .str s => str s
  | .arr items => arr items fun v _ => induct_mem null bool num str arr obj v
  | .obj fields => obj fields fun f _ => induct_mem null bool num str arr obj f.2
termination_by v => sizeOf v
decreasing_by
  · rename_i hv
    have hlt := List.sizeOf_lt_of_mem hv
    simp only [Value.arr.sizeOf_spec]
    omega
  · rename_i hf
    have hlt := List.sizeOf_lt_of_mem hf
    obtain ⟨k, v⟩ := f
    simp only [Prod.mk.sizeOf_spec] at hlt
    simp only [Value.obj.sizeOf_spec]
    omega

theorem depthItems_le_iff {items : List Value} {n : Nat} :
    depthItems items ≤ n ↔ ∀ v ∈ items, v.depth ≤ n := by
  induction items with
  | nil => simp [depthItems]
  | cons v vs ih => simp [depthItems, ih]

theorem depthFields_le_iff {fields : List (String × Value)} {n : Nat} :
    depthFields fields ≤ n ↔ ∀ f ∈ fields, f.2.depth ≤ n := by
  induction fields with
  | nil => simp [depthFields]
  | cons f rest ih => simp [depthFields, ih]

theorem everyNumberItems_iff {P : Number → Prop} {items : List Value} :
    EveryNumberItems P items ↔ ∀ v ∈ items, v.EveryNumber P := by
  induction items with
  | nil => simp [EveryNumberItems]
  | cons v vs ih => simp [EveryNumberItems, ih]

theorem everyNumberFields_iff {P : Number → Prop} {fields : List (String × Value)} :
    EveryNumberFields P fields ↔ ∀ f ∈ fields, f.2.EveryNumber P := by
  induction fields with
  | nil => simp [EveryNumberFields]
  | cons f rest ih => simp [EveryNumberFields, ih]

theorem everyTextItems_iff {P : String → Prop} {items : List Value} :
    EveryTextItems P items ↔ ∀ v ∈ items, v.EveryText P := by
  induction items with
  | nil => simp [EveryTextItems]
  | cons v vs ih => simp [EveryTextItems, ih]

theorem everyTextFields_iff {P : String → Prop} {fields : List (String × Value)} :
    EveryTextFields P fields ↔ ∀ f ∈ fields, P f.1 ∧ f.2.EveryText P := by
  induction fields with
  | nil => simp [EveryTextFields]
  | cons f rest ih => simp [EveryTextFields, ih]

theorem validItems_iff {items : List Value} :
    validItems items = true ↔ ∀ v ∈ items, v.valid = true := by
  induction items with
  | nil => simp [validItems]
  | cons v vs ih => simp [validItems, ih]

theorem validFields_iff {fields : List (String × Value)} :
    validFields fields = true ↔ ∀ f ∈ fields, f.2.valid = true := by
  induction fields with
  | nil => simp [validFields]
  | cons f rest ih => simp [validFields, ih]

theorem valid_arr {items : List Value} : (arr items).valid = true ↔ ∀ v ∈ items, v.valid = true :=
  validItems_iff

theorem valid_obj {fields : List (String × Value)} : (obj fields).valid = true ↔
    (fields.map Prod.fst).Nodup ∧ ∀ f ∈ fields, f.2.valid = true := by
  rw [valid, Bool.and_eq_true, decide_eq_true_eq, validFields_iff]

theorem valid_num {n : Number} : (num n).valid = true ↔ n.InRange := decide_eq_true_iff

end Value

/-- A value as `serde_json` holds it. -/
structure Document where
  value : Value
  valid : value.valid = true

/-! ## serde's equality is finer -/

theorem Number.toRat_eq_of_eqv {a b : Number} (h : a.eqv b = true) : a.toRat = b.toRat := by
  cases a with
  | int i =>
    cases b with
    | int j =>
      have hij : i = j := by simpa [Number.eqv] using h
      rw [hij]
    | float g => cases h
  | float f =>
    cases b with
    | int j => cases h
    | float g =>
      simp only [Number.eqv, F64.eqv, Bool.or_eq_true, Bool.and_eq_true, decide_eq_true_eq] at h
      show f.toRat = g.toRat
      rcases h with rfl | ⟨hf, hg⟩
      · rfl
      · rw [F64.toRat_of_isZero hf, F64.toRat_of_isZero hg]

namespace Value

mutual

theorem same_of_eqv : ∀ {a b : Value}, a.eqv b = true → a.same b = true
  | null, b, h => by cases b <;> simp_all [eqv, same]
  | bool _, b, h => by cases b <;> simp_all [eqv, same]
  | str _, b, h => by cases b <;> simp_all [eqv, same]
  | num n, b, h => by
    cases b with
    | num m =>
      have hnm : n.eqv m = true := by simpa [eqv] using h
      simpa [same] using Number.toRat_eq_of_eqv hnm
    | _ => simp [eqv] at h
  | arr items, b, h => by
    cases b with
    | arr others =>
      rw [eqv] at h
      rw [same]
      exact sameItems_of_eqvItems h
    | _ => simp [eqv] at h
  | obj fields, b, h => by
    cases b with
    | obj others =>
      rw [eqv, Bool.and_eq_true] at h
      rw [same, Bool.and_eq_true]
      exact ⟨h.1, sameFields_of_eqvFields h.2⟩
    | _ => simp [eqv] at h

theorem sameItems_of_eqvItems : ∀ {as bs : List Value}, eqvItems as bs = true →
    sameItems as bs = true
  | [], bs, h => by cases bs <;> simp_all [eqvItems, sameItems]
  | a :: as, bs, h => by
    cases bs with
    | nil => simp [eqvItems] at h
    | cons b bs =>
      rw [eqvItems, Bool.and_eq_true] at h
      rw [sameItems, Bool.and_eq_true]
      exact ⟨same_of_eqv h.1, sameItems_of_eqvItems h.2⟩

theorem sameFields_of_eqvFields : ∀ {as bs : List (String × Value)}, eqvFields as bs = true →
    sameFields as bs = true
  | [], _, _ => rfl
  | (k, a) :: rest, bs, h => by
    rw [eqvFields, Bool.and_eq_true] at h
    rw [sameFields, Bool.and_eq_true]
    refine ⟨?_, sameFields_of_eqvFields h.2⟩
    cases hk : lookup k bs with
    | none => simp [hk] at h
    | some b =>
      have hab : a.eqv b = true := by simpa [hk] using h.1
      exact same_of_eqv hab

end

end Value

/-! ## The strict reader returns documents -/

mutual

/-- What serde reports of a token is in the range of its type. -/
def Raw.InRange : Raw → Prop
  | .i64 i => -2 ^ 63 ≤ i ∧ i < 2 ^ 63
  | .u64 n => n < 2 ^ 64
  | .seq items => Raw.InRangeItems items
  | .map fields => Raw.InRangeFields fields
  | _ => True

def Raw.InRangeItems : List Raw → Prop
  | [] => True
  | x :: xs => x.InRange ∧ Raw.InRangeItems xs

def Raw.InRangeFields : List (String × Raw) → Prop
  | [] => True
  | (_, x) :: xs => x.InRange ∧ Raw.InRangeFields xs

end

mutual

theorem strict_valid : ∀ {x : Raw} {v : Value}, x.InRange → strict x = .ok v → v.valid = true
  | .null, v, _, h | .bool _, v, _, h | .str _, v, _, h => by
    simp only [strict, Except.ok.injEq] at h
    rw [← h]
    rfl
  | .f64 f, v, _, h => by
    simp only [strict, Except.ok.injEq] at h
    rw [← h, Value.valid_num]
    trivial
  | .i64 i, v, hr, h => by
    simp only [Raw.InRange] at hr
    simp only [strict, Except.ok.injEq] at h
    rw [← h, Value.int, Value.valid_num]
    exact ⟨hr.1, by omega⟩
  | .u64 n, v, hr, h => by
    simp only [strict] at h
    split at h
    · cases h
    · simp only [Except.ok.injEq] at h
      rw [← h, Value.int, Value.valid_num]
      constructor <;> omega
  | .seq items, v, hr, h => by
    rw [strict] at h
    obtain ⟨vs, hv, h⟩ := bind_ok h
    obtain rfl : Value.arr vs = v := Except.ok.inj h
    rw [Value.valid_arr]
    exact strictItems_valid hr hv
  | .map fields, v, hr, h => by
    rw [strict] at h
    obtain ⟨vs, hv, h⟩ := bind_ok h
    obtain rfl : Value.obj vs = v := Except.ok.inj h
    exact strictFields_valid (by simp [Value.valid, Value.validFields]) hr hv

theorem strictItems_valid : ∀ {xs : List Raw} {vs : List Value}, Raw.InRangeItems xs →
    strictItems xs = .ok vs → ∀ v ∈ vs, v.valid = true
  | [], vs, _, h => by
    simp only [strictItems, Except.ok.injEq] at h
    simp [← h]
  | x :: xs, vs, hr, h => by
    rw [strictItems] at h
    obtain ⟨v, hv, h⟩ := bind_ok h
    obtain ⟨rest, hrest, h⟩ := bind_ok h
    obtain rfl : v :: rest = vs := Except.ok.inj h
    intro w hw
    rcases List.mem_cons.1 hw with rfl | hw
    · exact strict_valid hr.1 hv
    · exact strictItems_valid hr.2 hrest w hw

theorem strictFields_valid : ∀ {xs : List (String × Raw)} {out fields : List (String × Value)},
    (Value.obj out).valid = true → Raw.InRangeFields xs → strictFields out xs = .ok fields →
    (Value.obj fields).valid = true
  | [], out, fields, ho, _, h => by
    simp only [strictFields, Except.ok.injEq] at h
    rwa [← h]
  | (k, x) :: xs, out, fields, ho, hr, h => by
    rw [strictFields] at h
    split at h
    · cases h
    next hk =>
    obtain ⟨v, hv, h⟩ := bind_ok h
    have hnew : k ∉ out.map Prod.fst := fun hm => hk (lookup_isSome_iff.2 hm)
    obtain ⟨hnodup, hall⟩ := Value.valid_obj.1 ho
    refine strictFields_valid (Value.valid_obj.2 ⟨?_, ?_⟩) hr.2 h
    · rw [List.map_append, List.map_cons, List.map_nil]
      refine List.nodup_append.2 ⟨hnodup, by simp, fun a ha b hb hab => ?_⟩
      rw [List.mem_singleton] at hb
      rw [hab, hb] at ha
      exact hnew ha
    · intro f hf
      rcases List.mem_append.1 hf with hf | hf
      · exact hall f hf
      · rw [List.mem_singleton] at hf
        rw [hf]
        exact strict_valid hr.1 hv

end

end StateDrivenAgent
