import Mathlib.Algebra.Order.Ring.Rat
import Mathlib.Data.Rat.Floor

/-!
# JSON values

The values of `serde_json` as the agent uses it: objects keep their insertion order
(`preserve_order`), an integer token is kept apart from a floating-point token, and a
floating-point number is always finite. A finite double is the pair of its bits' meaning: a
mantissa and a binary exponent in normal form, so that one double has one representation.

`Value.eqv` is serde's `==`: objects compare without regard to property order, an integer is never
equal to a float.
-/

namespace StateDrivenAgent

/-- A finite IEEE-754 binary64 number, `± mantissa * 2 ^ exponent` in normal form. -/
structure F64 where
  negative : Bool
  mantissa : Nat
  exponent : Int
  normal : mantissa < 2 ^ 53 ∧ -1074 ≤ exponent ∧ exponent ≤ 971 ∧
    (exponent = -1074 ∨ 2 ^ 52 ≤ mantissa)
deriving DecidableEq, Repr

namespace F64

/-- The magnitude as a rational. -/
def abs (f : F64) : Rat := f.mantissa * (2 : Rat) ^ f.exponent

/-- The value as a rational; both zeros are `0`. -/
def toRat (f : F64) : Rat := if f.negative then -f.abs else f.abs

def isZero (f : F64) : Bool := f.mantissa = 0

/-- `==` on doubles: the two zeros are equal. -/
def eqv (f g : F64) : Bool := f = g || (f.isZero && g.isZero)

/-- The positive zero. -/
def zero : F64 := ⟨false, 0, -1074, by decide⟩

/-- `f64::fract(x) == 0`. -/
def isIntegral (f : F64) : Bool := f.toRat.den = 1

/-- The double with these parts, which have to be in normal form. -/
def build (negative : Bool) (mantissa : Nat) (exponent : Int) : F64 :=
  if h : mantissa < 2 ^ 53 ∧ -1074 ≤ exponent ∧ exponent ≤ 971 ∧
      (exponent = -1074 ∨ 2 ^ 52 ≤ mantissa) then
    ⟨negative, mantissa, exponent, h⟩
  else zero

/-- `n / d` to the nearest integer, ties to even. -/
def roundHalfEven (n d : Nat) : Nat :=
  let q := n / d
  let r := n % d
  if 2 * r < d then q else if d < 2 * r then q + 1 else if q % 2 = 0 then q else q + 1

/-- The double nearest to `± n / d`, ties to even. The arguments of the agent's own arithmetic stay
far from overflow. -/
def nearest (negative : Bool) (n d : Nat) : F64 :=
  if n = 0 then build negative 0 (-1074)
  else
    let scaled (e : Int) : Nat × Nat :=
      if 0 ≤ e then (n, d * 2 ^ e.toNat) else (n * 2 ^ (-e).toNat, d)
    -- the quotient of the two leading bits is off by at most one binary place
    let e₀ : Int := Nat.log2 n - Nat.log2 d - 52
    let e₁ := if (scaled e₀).1 < 2 ^ 52 * (scaled e₀).2 then e₀ - 1 else e₀
    let e := max e₁ (-1074)
    let m := roundHalfEven (scaled e).1 (scaled e).2
    if m = 2 ^ 53 then build negative (2 ^ 52) (e + 1) else build negative m e

/-- The double nearest to a rational, as a decimal literal is read. -/
def ofRat (q : Rat) : F64 := nearest (q.num < 0) q.num.natAbs q.den

/-- `as f64` from an integer. -/
def ofInt (i : Int) : F64 := nearest (i < 0) i.natAbs 1

/-- `*` on doubles. -/
def mul (f g : F64) : F64 :=
  nearest (f.negative != g.negative) (f.toRat * g.toRat).num.natAbs (f.toRat * g.toRat).den

/-- `/` on doubles, for a nonzero divisor. -/
def div (f g : F64) : F64 :=
  nearest (f.negative != g.negative) (f.toRat / g.toRat).num.natAbs (f.toRat / g.toRat).den

/-- `<` on doubles. -/
def lt (f g : F64) : Bool := f.toRat < g.toRat

/-- `f64::ceil(x) as i64`. -/
def ceil (f : F64) : Int := ⌈f.toRat⌉

end F64

/-- `serde_json::Number`: an integer token or a floating-point token. -/
inductive Number where
  | int (i : Int)
  | float (f : F64)
deriving DecidableEq, Repr

namespace Number

/-- The mathematical value. -/
def toRat : Number → Rat
  | int i => i
  | float f => f.toRat

/-- `Number::as_f64`. -/
def asF64 : Number → F64
  | int i => .ofInt i
  | float f => f

def isInt : Number → Bool
  | int _ => true
  | float _ => false

/-- `==` of `serde_json::Number`: tokens of different kinds differ. -/
def eqv : Number → Number → Bool
  | int i, int j => i = j
  | float f, float g => f.eqv g
  | _, _ => false

/-- The integers `serde_json` keeps as integers: `i64` below zero, `u64` above. -/
def InRange : Number → Prop
  | int i => -2 ^ 63 ≤ i ∧ i < 2 ^ 64
  | float _ => True

instance : DecidablePred InRange := fun n => by cases n <;> unfold InRange <;> infer_instance

end Number

/-- A JSON value; an object is the list of its properties in insertion order. -/
inductive Value where
  | null
  | bool (b : Bool)
  | num (n : Number)
  | str (s : String)
  | arr (items : List Value)
  | obj (fields : List (String × Value))
deriving Repr

instance : Inhabited Value := ⟨.null⟩

/-- The value of property `k`. -/
def lookup {α : Type} (k : String) : List (String × α) → Option α
  | [] => none
  | (k', v) :: rest => if k' = k then some v else lookup k rest

/-- `Map::insert`: replaces the value in place, or appends a new property. -/
def insertField {α : Type} (k : String) (v : α) : List (String × α) → List (String × α)
  | [] => [(k, v)]
  | (k', v') :: rest => if k' = k then (k', v) :: rest else (k', v') :: insertField k v rest

/-- `Map::remove`, with insertion order a `swap_remove`: the last property takes the place. -/
def removeField {α : Type} (k : String) : List (String × α) → List (String × α)
  | [] => []
  | (k', v') :: rest =>
    if k' = k then rest.getLast?.toList ++ rest.dropLast else (k', v') :: removeField k rest

section fields
variable {α : Type} (k k' : String) (v : α) (fields : List (String × α))

@[simp] theorem lookup_nil : lookup k ([] : List (String × α)) = none := rfl

@[simp] theorem lookup_cons : lookup k ((k', v) :: fields) =
    if k' = k then some v else lookup k fields := rfl

theorem insertField_cons (v' : α) : insertField k v ((k', v') :: fields) =
    if k' = k then (k', v) :: fields else (k', v') :: insertField k v fields := rfl

theorem removeField_cons : removeField k ((k', v) :: fields) =
    if k' = k then fields.getLast?.toList ++ fields.dropLast
    else (k', v) :: removeField k fields := rfl

@[simp] theorem lookup_insertField_self : lookup k (insertField k v fields) = some v := by
  induction fields with
  | nil => exact if_pos rfl
  | cons f rest ih =>
    obtain ⟨k', v'⟩ := f
    rw [insertField_cons]
    by_cases h : k' = k
    · rw [if_pos h, lookup_cons, if_pos h]
    · rw [if_neg h, lookup_cons, if_neg h, ih]

theorem lookup_append (fields rest : List (String × α)) :
    lookup k (fields ++ rest) = (lookup k fields <|> lookup k rest) := by
  induction fields with
  | nil => rfl
  | cons field fields ih =>
    obtain ⟨k₀, v₀⟩ := field
    rw [List.cons_append, lookup_cons, lookup_cons]
    split
    · rfl
    · exact ih

theorem mem_of_lookup {k : String} {v : α} {fields : List (String × α)}
    (h : lookup k fields = some v) : (k, v) ∈ fields := by
  induction fields with
  | nil => cases h
  | cons field fields ih =>
    obtain ⟨k₀, v₀⟩ := field
    rw [lookup_cons] at h
    split at h
    · next hk =>
      cases h
      rw [← hk]
      exact List.mem_cons_self
    · exact List.mem_cons_of_mem _ (ih h)

theorem lookup_isSome_iff {k : String} {fields : List (String × α)} :
    (lookup k fields).isSome = true ↔ k ∈ fields.map Prod.fst := by
  induction fields with
  | nil => simp
  | cons field fields ih =>
    obtain ⟨k₀, v₀⟩ := field
    rw [lookup_cons, List.map_cons, List.mem_cons, ← ih]
    by_cases hk : k₀ = k
    · simp [hk]
    · simp [hk, Ne.symm hk]

theorem lookup_insertField_of_ne (h : k' ≠ k) :
    lookup k (insertField k' v fields) = lookup k fields := by
  induction fields with
  | nil => exact if_neg h
  | cons f rest ih =>
    obtain ⟨k₀, v₀⟩ := f
    rw [insertField_cons]
    by_cases h₀ : k₀ = k'
    · rw [if_pos h₀, lookup_cons, lookup_cons, if_neg (h₀ ▸ h), if_neg (h₀ ▸ h)]
    · rw [if_neg h₀, lookup_cons, lookup_cons, ih]

end fields

section removal

variable {α : Type} {k k' : String} {fields : List (String × α)}

theorem lookup_isSome : ¬(lookup k fields).isSome = true ↔ k ∉ fields.map Prod.fst :=
  lookup_isSome_iff.not

theorem lookup_eq_none : lookup k fields = none ↔ k ∉ fields.map Prod.fst := by
  rw [← lookup_isSome, Option.not_isSome_iff_eq_none]

/-- The last property may come first. -/
theorem lookup_last_first (hnodup : (fields.map Prod.fst).Nodup) :
    lookup k (fields.getLast?.toList ++ fields.dropLast) = lookup k fields := by
  rcases List.eq_nil_or_concat fields with rfl | ⟨front, last, rfl⟩
  · rfl
  · rw [List.concat_eq_append] at hnodup ⊢
    rw [List.getLast?_append, List.dropLast_concat]
    rw [List.map_append, List.nodup_append] at hnodup
    simp only [List.getLast?_singleton, Option.some_or, Option.toList_some, lookup_append]
    by_cases hk : last.1 = k
    · have hfront : lookup k front = none := by
        rw [lookup_eq_none]
        intro hmem
        exact hnodup.2.2 k hmem last.1 (by simp) hk.symm
      rw [hfront]
      cases lookup k [last] <;> rfl
    · have hlast : lookup k [last] = none := if_neg hk
      rw [hlast]
      cases lookup k front <;> rfl

theorem lookup_removeField (hnodup : (fields.map Prod.fst).Nodup) (hk : k ≠ k') :
    lookup k' (removeField k fields) = lookup k' fields := by
  induction fields with
  | nil => rfl
  | cons field fields ih =>
    obtain ⟨k₀, v⟩ := field
    rw [List.map_cons, List.nodup_cons] at hnodup
    rw [removeField_cons]
    by_cases h : k₀ = k
    · rw [if_pos h, lookup_last_first hnodup.2, lookup_cons, if_neg (h ▸ hk)]
    · rw [if_neg h, lookup_cons, lookup_cons, ih hnodup.2]

theorem lookup_removeField_self (hnodup : (fields.map Prod.fst).Nodup) :
    lookup k (removeField k fields) = none := by
  induction fields with
  | nil => rfl
  | cons field fields ih =>
    obtain ⟨k₀, v⟩ := field
    rw [List.map_cons, List.nodup_cons] at hnodup
    rw [removeField_cons]
    by_cases h : k₀ = k
    · rw [if_pos h, lookup_last_first hnodup.2, lookup_eq_none]
      exact h ▸ hnodup.1
    · rw [if_neg h, lookup_cons, if_neg h, ih hnodup.2]

theorem insertField_of_lookup {v : α} (h : lookup k fields = some v) :
    insertField k v fields = fields := by
  induction fields with
  | nil => cases h
  | cons field fields ih =>
    obtain ⟨k₀, v₀⟩ := field
    rw [lookup_cons] at h
    rw [insertField_cons]
    by_cases hk : k₀ = k
    · rw [if_pos hk] at h ⊢
      rw [Option.some.inj h]
    · rw [if_neg hk] at h ⊢
      rw [ih h]

theorem keys_insertField {v : α} (hk : k ∈ fields.map Prod.fst) :
    (insertField k v fields).map Prod.fst = fields.map Prod.fst := by
  induction fields with
  | nil => cases hk
  | cons field fields ih =>
    obtain ⟨k₀, v₀⟩ := field
    rw [insertField_cons]
    by_cases h : k₀ = k
    · rw [if_pos h]
      rfl
    · rw [if_neg h, List.map_cons, List.map_cons, ih]
      rcases List.mem_cons.mp hk with heq | hmem
      · exact absurd heq.symm h
      · exact hmem

end removal

namespace Value

/-- The string as a JSON value, absent as `null`. -/
def ofStr? : Option String → Value
  | some s => str s
  | none => null

/-- An integer counter as a JSON value. -/
def int (i : Int) : Value := num (.int i)

/-- An optional integer, absent as `null`. -/
def ofInt? : Option Int → Value
  | some i => int i
  | none => null

/-- `Value::get` with a property name. -/
def get (v : Value) (k : String) : Option Value :=
  match v with
  | obj fields => lookup k fields
  | _ => none

/-- `Value::get` with an array index. -/
def at? (v : Value) (i : Nat) : Option Value :=
  match v with
  | arr items => items[i]?
  | _ => none

/-- `v[k]`: a missing property reads as `null`. -/
def index (v : Value) (k : String) : Value := (v.get k).getD null

/-- `v[k] = x`: writing through `null` makes an object; another non-object panics in the source
and is left as it is here. -/
def set (v : Value) (k : String) (x : Value) : Value :=
  match v with
  | obj fields => obj (insertField k x fields)
  | null => obj [(k, x)]
  | v => v

def isNull : Value → Bool
  | null => true
  | _ => false

def isObject : Value → Bool
  | obj _ => true
  | _ => false

def isNumber : Value → Bool
  | num _ => true
  | _ => false

def asStr : Value → Option String
  | str s => some s
  | _ => none

def asArray : Value → Option (List Value)
  | arr items => some items
  | _ => none

def asObject : Value → Option (List (String × Value))
  | obj fields => some fields
  | _ => none

def asBool : Value → Option Bool
  | bool b => some b
  | _ => none

/-- `Value::as_i64`. -/
def asI64 : Value → Option Int
  | num (.int i) => if -2 ^ 63 ≤ i ∧ i < 2 ^ 63 then some i else none
  | _ => none

/-- `Value::as_u64`. -/
def asU64 : Value → Option Nat
  | num (.int i) => if 0 ≤ i ∧ i < 2 ^ 64 then some i.toNat else none
  | _ => none

def asNumber : Value → Option Number
  | num n => some n
  | _ => none

/-- `Value::as_f64`. -/
def asF64 : Value → Option F64
  | num n => some n.asF64
  | _ => none

mutual

/-- serde's `==` on values. -/
def eqv : Value → Value → Bool
  | null, null => true
  | bool a, bool b => a = b
  | num a, num b => a.eqv b
  | str a, str b => a = b
  | arr a, arr b => eqvItems a b
  | obj a, obj b => a.length = b.length && eqvFields a b
  | _, _ => false

def eqvItems : List Value → List Value → Bool
  | [], [] => true
  | a :: as, b :: bs => a.eqv b && eqvItems as bs
  | _, _ => false

def eqvFields : List (String × Value) → List (String × Value) → Bool
  | [], _ => true
  | (k, a) :: rest, other =>
    (match lookup k other with
      | some b => a.eqv b
      | none => false) && eqvFields rest other

end

@[simp] theorem get_obj (fields : List (String × Value)) (k : String) :
    (obj fields).get k = lookup k fields := rfl

@[simp] theorem index_obj (fields : List (String × Value)) (k : String) :
    (obj fields).index k = (lookup k fields).getD null := rfl

@[simp] theorem asStr_str (s : String) : (str s).asStr = some s := rfl

@[simp] theorem asStr_null : null.asStr = none := rfl

@[simp] theorem asArray_arr (items : List Value) : (arr items).asArray = some items := rfl

@[simp] theorem asObject_obj (fields : List (String × Value)) :
    (obj fields).asObject = some fields := rfl

theorem asStr_eq_some {v : Value} {s : String} : v.asStr = some s ↔ v = str s := by
  cases v <;> simp [asStr]

theorem asArray_eq_some {v : Value} {items : List Value} :
    v.asArray = some items ↔ v = arr items := by
  cases v <;> simp [asArray]

theorem asObject_eq_some {v : Value} {fields : List (String × Value)} :
    v.asObject = some fields ↔ v = obj fields := by
  cases v <;> simp [asObject]

theorem isObject_iff {v : Value} : v.isObject = true ↔ ∃ fields, v = obj fields := by
  cases v <;> simp [isObject]

@[simp] theorem get_set_self (fields : List (String × Value)) (k : String) (x : Value) :
    ((obj fields).set k x).get k = some x := lookup_insertField_self k x fields

theorem get_set_of_ne {k k' : String} (h : k' ≠ k) (fields : List (String × Value)) (x : Value) :
    ((obj fields).set k' x).get k = (obj fields).get k :=
  lookup_insertField_of_ne k k' x fields h

end Value

end StateDrivenAgent
