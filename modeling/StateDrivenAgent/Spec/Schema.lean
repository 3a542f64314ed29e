import StateDrivenAgent.Json.Document
import StateDrivenAgent.Agent.Tools

/-!
# What a schema says of a value

The reference semantics of the JSON-Schema keywords a configuration may use, keyword by keyword
(`Keyword.Met`), and of a schema as a whole (`Satisfies`): every keyword is met at every subschema
by the part of the value it is about (`Visits`). Numbers are compared by mathematical value.

A `type` that is an array asks for one of its types. A `type` or `properties` of any other shape
names no type and declares no property, so that no value (no object) meets it.

`Keyword.Lenient` and `Keyword.Strict` say on which inputs the comparisons of `validate_value`
accept what the keyword forbids and refuse what it allows.
-/

namespace StateDrivenAgent

namespace JsonSchema

inductive Bound where
  | minimum
  | maximum
  | exclusiveMinimum
  | exclusiveMaximum
deriving DecidableEq

inductive Size where
  | minLength
  | maxLength
  | minItems
  | maxItems
deriving DecidableEq

/-- The assertions; `items` only says where to descend. -/
inductive Keyword where
  | type
  | enum
  | const
  | required
  | properties
  | additionalProperties
  | pattern
  | bound (b : Bound)
  | size (k : Size)
deriving DecidableEq

def Bound.name : Bound → String
  | minimum => "minimum"
  | maximum => "maximum"
  | exclusiveMinimum => "exclusiveMinimum"
  | exclusiveMaximum => "exclusiveMaximum"

def Bound.Within (bound n : Rat) : Bound → Prop
  | minimum => bound ≤ n
  | maximum => n ≤ bound
  | exclusiveMinimum => bound < n
  | exclusiveMaximum => n < bound

def Size.name : Size → String
  | minLength => "minLength"
  | maxLength => "maxLength"
  | minItems => "minItems"
  | maxItems => "maxItems"

def Size.Within (bound n : Rat) : Size → Prop
  | minLength | minItems => bound ≤ n
  | maxLength | maxItems => n ≤ bound

/-- The length in code points of a string, the number of items of an array. -/
def Size.measure : Size → Value → Option Nat
  | minLength, .str s | maxLength, .str s => some s.length
  | minItems, .arr items | maxItems, .arr items => some items.length
  | _, _ => none

/-- The value has the type of this name; an integer is a number without a fraction. -/
def OfType (kind : String) : Value → Prop
  | .null => kind = "null"
  | .bool _ => kind = "boolean"
  | .num n => kind = "number" ∨ (kind = "integer" ∧ n.toRat.den = 1)
  | .str _ => kind = "string"
  | .arr _ => kind = "array"
  | .obj _ => kind = "object"

def Typed (v : Value) : Value → Prop
  | .str kind => OfType kind v
  | .arr kinds => ∃ kind, .str kind ∈ kinds ∧ OfType kind v
  | _ => False

/-- The schema of a property under `properties`. -/
def declared (schema : Value) (key : String) : Option Value :=
  ((schema.get "properties").bind Value.asObject).bind (lookup key)

/-- The schema a property has to meet. -/
def subschema (schema : Value) (key : String) : Option Value :=
  match declared schema key with
  | some sub => some sub
  | none => (schema.get "additionalProperties").filter Value.isObject

/-- The subschemas of a schema with the parts of the value they are about. -/
def children (schema : Value) : Value → List (Value × Value)
  | .obj fields => fields.filterMap fun f => (subschema schema f.1).map fun sub => (sub, f.2)
  | .arr items => match schema.get "items" with
    | some sub => items.map fun item => (sub, item)
    | none => []
  | _ => []

/-- A value meets one keyword of a schema. -/
def Keyword.Met (host : Host) (schema value : Value) : Keyword → Prop
  | type => ∀ t, schema.get "type" = some t → Typed value t
  | enum => ∀ allowed, schema.get "enum" = some (.arr allowed) →
      ∃ x ∈ allowed, x.same value = true
  | const => ∀ x, schema.get "const" = some x → x.same value = true
  | required => ∀ keys fields, schema.get "required" = some (.arr keys) → value = .obj fields →
      ∀ key, .str key ∈ keys → (lookup key fields).isSome = true
  | properties => ∀ props, schema.get "properties" = some props → value.isObject = true →
      props.isObject = true
  | additionalProperties => ∀ fields, schema.get "additionalProperties" = some (.bool false) →
      value = .obj fields → ∀ f ∈ fields, (declared schema f.1).isSome = true
  | pattern => ∀ p text, schema.get "pattern" = some (.str p) → value = .str text →
      host.isMatch p text = true
  | bound b => ∀ x n, schema.get b.name = some (.num x) → value = .num n →
      b.Within x.toRat n.toRat
  | size k => ∀ x n, schema.get k.name = some (.num x) → k.measure value = some n →
      k.Within x.toRat n

/-- A value satisfies a schema. -/
inductive Satisfies (host : Host) : Value → Value → Prop
  | intro {schema value : Value} (here : ∀ k : Keyword, k.Met host schema value)
      (below : ∀ c ∈ children schema value, Satisfies host c.1 c.2) : Satisfies host schema value

/-- Validating `value` against `schema` comes to `value'` and its `schema'`. -/
inductive Visits : Value → Value → Value → Value → Prop
  | here {schema value : Value} : Visits schema value schema value
  | child {schema value schema' value' : Value} {c : Value × Value}
      (hc : c ∈ children schema value) (h : Visits c.1 c.2 schema' value') :
      Visits schema value schema' value'

/-! ## Where the validator reads a keyword otherwise -/

/-- The validator takes the keyword as met: it does not look at a `type` that is no string or at
`properties` that are no object, and it compares numbers as doubles. -/
def Keyword.Lenient (schema value : Value) : Keyword → Prop
  | type => ∃ t, schema.get "type" = some t ∧ t.asStr = none
  | properties => ∃ props, schema.get "properties" = some props ∧ props.isObject = false
  | bound b => ∃ x n, schema.get b.name = some (.num x) ∧ value = .num n ∧
      b.Within x.asF64.toRat n.asF64.toRat
  | _ => False

/-- The validator takes the keyword as missed: no listed value has the same number tokens, or the
doubles are out of bounds. -/
def Keyword.Strict (schema value : Value) : Keyword → Prop
  | enum => ∃ allowed, schema.get "enum" = some (.arr allowed) ∧ ∀ x ∈ allowed, x.eqv value = false
  | const => ∃ x, schema.get "const" = some x ∧ x.eqv value = false
  | bound b => ∃ x n, schema.get b.name = some (.num x) ∧ value = .num n ∧
      ¬ b.Within x.asF64.toRat n.asF64.toRat
  | _ => False

/-- Somewhere in the value a keyword is missed, and taken as missed. -/
def Refused (host : Host) (schema value : Value) : Prop :=
  ∃ s v, Visits schema value s v ∧ ∃ k : Keyword, ¬ k.Met host s v ∧ ¬ k.Lenient s v

/-- Somewhere in the value a keyword is missed but taken as met. -/
def Disabled (host : Host) (schema value : Value) : Prop :=
  ∃ s v, Visits schema value s v ∧ ∃ k : Keyword, ¬ k.Met host s v ∧ k.Lenient s v

/-- Somewhere in the value a keyword is met but taken as missed. -/
def Overstrict (host : Host) (schema value : Value) : Prop :=
  ∃ s v, Visits schema value s v ∧ ∃ k : Keyword, k.Met host s v ∧ k.Strict s v

/-! ## Descending -/

theorem mem_children_obj {schema : Value} {fields : List (String × Value)} {c : Value × Value} :
    c ∈ children schema (.obj fields) ↔
      ∃ f ∈ fields, subschema schema f.1 = some c.1 ∧ f.2 = c.2 := by
  rw [children, List.mem_filterMap]
  constructor
  · rintro ⟨f, hf, h⟩
    rw [Option.map_eq_some_iff] at h
    obtain ⟨sub, hsub, rfl⟩ := h
    exact ⟨f, hf, hsub, rfl⟩
  · rintro ⟨f, hf, hsub, hv⟩
    refine ⟨f, hf, ?_⟩
    rw [hsub, hv]
    rfl

theorem mem_children_arr {schema : Value} {items : List Value} {c : Value × Value} :
    c ∈ children schema (.arr items) ↔ schema.get "items" = some c.1 ∧ c.2 ∈ items := by
  rw [children]
  cases h : schema.get "items" with
  | none => simp
  | some sub =>
    rw [List.mem_map]
    constructor
    · rintro ⟨item, hitem, rfl⟩
      exact ⟨rfl, hitem⟩
    · rintro ⟨hsub, hmem⟩
      rw [Option.some.injEq] at hsub
      exact ⟨c.2, hmem, by rw [hsub]⟩

theorem sizeOf_of_mem_children {schema value : Value} {c : Value × Value}
    (h : c ∈ children schema value) : sizeOf c.2 < sizeOf value := by
  cases value with
  | obj fields =>
    obtain ⟨f, hf, -, hv⟩ := mem_children_obj.1 h
    have hmem := List.sizeOf_lt_of_mem hf
    have hpair : sizeOf f.2 < sizeOf f := by
      obtain ⟨k, v⟩ := f
      simp
    rw [← hv, Value.obj.sizeOf_spec]
    omega
  | arr items =>
    obtain ⟨-, hmem⟩ := mem_children_arr.1 h
    have hlt := List.sizeOf_lt_of_mem hmem
    rw [Value.arr.sizeOf_spec]
    omega
  | _ => simp [children] at h

/-- A predicate that a value passes with its children holds wherever validation comes. -/
theorem forall_visits {P : Value → Value → Prop} {schema value : Value} :
    (∀ s v, Visits schema value s v → P s v) ↔
      P schema value ∧ ∀ c ∈ children schema value, ∀ s v, Visits c.1 c.2 s v → P s v := by
  constructor
  · intro h
    exact ⟨h _ _ .here, fun c hc s v hv => h s v (.child hc hv)⟩
  · rintro ⟨hhere, hbelow⟩ s v hv
    cases hv with
    | here => exact hhere
    | child hc hv => exact hbelow _ hc s v hv

theorem satisfies_iff {host : Host} {schema value : Value} : Satisfies host schema value ↔
    ∀ s v, Visits schema value s v → ∀ k : Keyword, k.Met host s v := by
  constructor
  · intro h s v hv
    induction hv with
    | here =>
      cases h with
      | intro here _ => exact here
    | child hc _ ih =>
      cases h with
      | intro _ below => exact ih (below _ hc)
  · induction hn : sizeOf value using Nat.strong_induction_on generalizing schema value with
    | _ n ih =>
      intro h
      obtain ⟨hhere, hbelow⟩ := forall_visits.1 h
      refine .intro hhere fun c hc => ?_
      have hlt := sizeOf_of_mem_children hc
      exact ih _ (by omega) rfl (hbelow c hc)

theorem valid_of_mem_children {schema value : Value} {c : Value × Value}
    (h : c ∈ children schema value) (hv : value.valid = true) : c.2.valid = true := by
  cases value with
  | obj fields =>
    obtain ⟨f, hf, -, hfv⟩ := mem_children_obj.1 h
    rw [← hfv]
    exact (Value.valid_obj.1 hv).2 f hf
  | arr items =>
    obtain ⟨-, hmem⟩ := mem_children_arr.1 h
    exact Value.valid_arr.1 hv _ hmem
  | _ => simp [children] at h

end JsonSchema

end StateDrivenAgent
