import StateDrivenAgent.Json.Reading
import StateDrivenAgent.Agent.Schema
import StateDrivenAgent.Spec.Schema
import StateDrivenAgent.Verify.Commands

/-!
# Validation against the reference semantics

`validate_value` accepts a value exactly when every keyword passes its check wherever validation
comes (`validateValue_ok_iff`), by induction on the value. A keyword of an accepted schema passes its
check when the value meets it and the check is not too strict, or misses it and the check is too
lenient (`Keyword.passes_iff`). What is left is when the two kinds of misreading show
(`validate_arguments_exact`).
-/

namespace StateDrivenAgent

namespace JsonSchema

open Tools Config

/-- The value passes the check `validate_value` makes of the keyword. -/
def Keyword.Passes (host : Host) (schema value : Value) : Keyword → Prop
  | type => hasType (((schema.get "type").bind Value.asStr).getD "") value = true
  | enum => (((schema.get "enum").bind Value.asArray).any
      fun allowed => !allowed.any (·.eqv value)) = false
  | const => ((schema.get "const").any fun x => !x.eqv value) = false
  | required => ∀ fields keys, value = .obj fields →
      (schema.get "required").bind Value.asArray = some keys →
      ∀ key ∈ keys.filterMap Value.asStr, (lookup key fields).isSome = true
  | properties => True
  | additionalProperties => ∀ fields, value = .obj fields → ∀ f ∈ fields,
      declared schema f.1 = none →
      (schema.get "additionalProperties").any (·.eqv (.bool false)) = false
  | pattern => ∀ p text, (schema.get "pattern").bind Value.asStr = some p → value = .str text →
      host.isMatch p text = true
  | bound b => ∀ x n, (schema.get b.name).bind Value.asF64 = some x → value = .num n →
      b.Within x.toRat n.asF64.toRat
  | size k => ∀ x n, (schema.get k.name).bind Value.asU64 = some x → k.measure value = some n →
      k.Within x n

/-- Every keyword passes its check. -/
def PassesHere (host : Host) (schema value : Value) : Prop :=
  ∀ k : Keyword, k.Passes host schema value

/-- Every keyword passes its check wherever validation comes. -/
def PassesBelow (host : Host) (schema value : Value) : Prop :=
  ∀ s v, Visits schema value s v → PassesHere host s v

/-! ## The checks of one value -/

section checks
variable {host : Host} {schema : Value} {path : String}

variable (host) in
theorem checkRequired_ok_iff {fields : List (String × Value)} :
    checkRequired path fields schema = .ok () ↔
      Keyword.required.Passes host schema (.obj fields) := by
  unfold checkRequired
  split
  next key hfind =>
    have hmem := List.mem_of_find?_eq_some hfind
    have hnone := List.find?_some hfind
    refine ⟨fun h => (by cases h), fun h => ?_⟩
    cases hreq : (schema.get "required").bind Value.asArray with
    | none => simp [hreq] at hmem
    | some keys =>
      rw [hreq, Option.getD_some] at hmem
      have hsome := h fields keys rfl hreq key hmem
      simp_all
  next hfind =>
    refine ⟨fun _ fields' keys hf hkeys key hkey => ?_, fun _ => rfl⟩
    obtain rfl : fields = fields' := Value.obj.inj hf
    have hnone := List.find?_eq_none.1 hfind key (by simpa [hkeys] using hkey)
    cases hlook : lookup key fields with
    | none => simp [hlook] at hnone
    | some v => rfl

theorem any_eq_false_iff {α : Type} {o : Option α} {p : α → Bool} :
    o.any p = false ↔ ∀ x, o = some x → p x = false := by
  cases o <;> simp

theorem size_passes_iff {k : Size} {value : Value} {n : Nat} (hn : k.measure value = some n) :
    (Keyword.size k).Passes host schema value ↔
      ∀ x, (schema.get k.name).bind Value.asU64 = some x → k.Within x n := by
  constructor
  · intro h x hx
    exact h x n hx hn
  · intro h x m hx hm
    rw [hn, Option.some.injEq] at hm
    rw [← hm]
    exact h x hx

theorem bound_passes_iff {b : Bound} {n : Number} :
    (Keyword.bound b).Passes host schema (.num n) ↔
      ∀ x, (schema.get b.name).bind Value.asF64 = some x → b.Within x.toRat n.asF64.toRat := by
  constructor
  · intro h x hx
    exact h x n hx rfl
  · intro h x m hx hm
    obtain rfl : n = m := Value.num.inj hm
    exact h x hx

theorem ite_error_ok_iff {c : Bool} {e : String} {x : Except String Unit} :
    (if c then .error e else x) = .ok () ↔ c = false ∧ x = .ok () := by
  cases c <;> simp

theorem size_check_iff {k : Size} {value : Value} {n : Nat} (hn : k.measure value = some n)
    {failed : Nat → Bool} (hf : ∀ x : Nat, failed x = false ↔ k.Within x n) :
    ((schema.get k.name).bind Value.asU64).any failed = false ↔
      (Keyword.size k).Passes host schema value := by
  rw [size_passes_iff hn, any_eq_false_iff]
  simp only [hf]

variable (host schema) in
theorem bound_check_iff (b : Bound) (n : Number) (failed : Rat → Bool)
    (hf : ∀ x : Rat, failed x = false ↔ b.Within x n.asF64.toRat) :
    ((schema.get b.name).bind Value.asF64).any (fun x => failed x.toRat) = false ↔
      (Keyword.bound b).Passes host schema (.num n) := by
  rw [bound_passes_iff, any_eq_false_iff]
  simp only [hf]

theorem pattern_passes_iff {p text : String}
    (hp : (schema.get "pattern").bind Value.asStr = some p) :
    Keyword.pattern.Passes host schema (.str text) ↔ host.isMatch p text = true := by
  constructor
  · intro h
    exact h p text hp rfl
  · intro h p' text' hp' ht
    rw [hp, Option.some.injEq] at hp'
    obtain rfl : text = text' := Value.str.inj ht
    rwa [← hp']

theorem checkText_ok_iff {text : String} : checkText host schema text path = .ok () ↔
    (Keyword.size .minLength).Passes host schema (.str text) ∧
    (Keyword.size .maxLength).Passes host schema (.str text) ∧
    Keyword.pattern.Passes host schema (.str text) := by
  unfold checkText
  rw [ite_error_ok_iff, ite_error_ok_iff]
  refine and_congr (size_check_iff (k := .minLength) rfl fun x => by simp [Size.Within])
    (and_congr (size_check_iff (k := .maxLength) rfl fun x => by simp [Size.Within]) ?_)
  cases hp : (schema.get "pattern").bind Value.asStr with
  | none =>
    refine ⟨fun _ p text' h => ?_, fun _ => rfl⟩
    rw [hp] at h
    cases h
  | some pattern =>
    rw [pattern_passes_iff hp, Host.isMatch]
    cases hre : host.regex pattern with
    | error e => simp [hre]
    | ok re => by_cases hm : re.isMatch text = true <;> simp [hre, hm]

variable (host) in
theorem checkNumber_ok_iff {n : Number} : checkNumber schema n.asF64 path = .ok () ↔
    ∀ b : Bound, (Keyword.bound b).Passes host schema (.num n) := by
  have hmin := bound_check_iff host schema .minimum n (n.asF64.toRat < ·)
    fun x => by simp [Bound.Within]
  have hmax := bound_check_iff host schema .maximum n (· < n.asF64.toRat)
    fun x => by simp [Bound.Within]
  have hexmin := bound_check_iff host schema .exclusiveMinimum n (n.asF64.toRat ≤ ·)
    fun x => by simp [Bound.Within]
  have hexmax := bound_check_iff host schema .exclusiveMaximum n (· ≤ n.asF64.toRat)
    fun x => by simp [Bound.Within]
  unfold checkNumber
  rw [ite_error_ok_iff, ite_error_ok_iff, ite_error_ok_iff, ite_error_ok_iff]
  constructor
  · rintro ⟨h₁, h₂, h₃, h₄, -⟩ b
    cases b with
    | minimum => exact hmin.1 h₁
    | maximum => exact hmax.1 h₂
    | exclusiveMinimum => exact hexmin.1 h₃
    | exclusiveMaximum => exact hexmax.1 h₄
  · intro h
    exact ⟨hmin.2 (h _), hmax.2 (h _), hexmin.2 (h _), hexmax.2 (h _), rfl⟩

variable (host) in
theorem checkLength_ok_iff {items : List Value} : checkLength schema items.length path = .ok () ↔
    (Keyword.size .minItems).Passes host schema (.arr items) ∧
    (Keyword.size .maxItems).Passes host schema (.arr items) := by
  unfold checkLength
  rw [ite_error_ok_iff, ite_error_ok_iff]
  exact and_congr (size_check_iff (k := .minItems) rfl fun x => by simp [Size.Within])
    ((and_iff_left rfl).trans (size_check_iff (k := .maxItems) rfl fun x => by simp [Size.Within]))

end checks

/-! ## The whole value -/

theorem passesBelow_iff {host : Host} {schema value : Value} : PassesBelow host schema value ↔
    PassesHere host schema value ∧
      ∀ c ∈ children schema value, PassesBelow host c.1 c.2 :=
  forall_visits

/-- The keyword is one of those about values of this shape only. -/
def Keyword.about : Keyword → Value → Bool
  | required, .obj _ | additionalProperties, .obj _ | pattern, .str _ | bound _, .num _ => true
  | size k, value => (k.measure value).isSome
  | _, _ => false

theorem passes_of_not_about {host : Host} {schema value : Value} {k : Keyword}
    (h : k.about value = false) (h₁ : k ≠ .type) (h₂ : k ≠ .enum) (h₃ : k ≠ .const) :
    k.Passes host schema value := by
  cases k with
  | type | enum | const => contradiction
  | properties => trivial
  | required =>
    rintro fields keys rfl
    cases h
  | additionalProperties =>
    rintro fields rfl
    cases h
  | pattern =>
    rintro p text _ rfl
    cases h
  | bound b =>
    rintro x n _ rfl
    cases h
  | size k =>
    intro x n _ hn
    simp [Keyword.about, hn] at h

theorem passesHere_iff {host : Host} {schema value : Value} {rest : Prop}
    (h : rest ↔ ∀ k : Keyword, k.about value = true → k.Passes host schema value) :
    PassesHere host schema value ↔ Keyword.type.Passes host schema value ∧
      Keyword.enum.Passes host schema value ∧ Keyword.const.Passes host schema value ∧ rest := by
  rw [h]
  constructor
  · intro hall
    exact ⟨hall _, hall _, hall _, fun k _ => hall k⟩
  · rintro ⟨htype, henum, hconst, hrest⟩ k
    by_cases h₁ : k = .type
    · rwa [h₁]
    by_cases h₂ : k = .enum
    · rwa [h₂]
    by_cases h₃ : k = .const
    · rwa [h₃]
    cases hk : k.about value with
    | true => exact hrest k hk
    | false => exact passes_of_not_about hk h₁ h₂ h₃

theorem passesHere_leaf {host : Host} {schema value : Value}
    (h : ∀ k : Keyword, k.about value = false) :
    PassesHere host schema value ↔ Keyword.type.Passes host schema value ∧
      Keyword.enum.Passes host schema value ∧ Keyword.const.Passes host schema value ∧ True := by
  refine passesHere_iff ⟨fun _ k hk => ?_, fun _ => trivial⟩
  rw [h k] at hk
  cases hk

theorem passesHere_obj {host : Host} {schema : Value} {fields : List (String × Value)} :
    PassesHere host schema (.obj fields) ↔ Keyword.type.Passes host schema (.obj fields) ∧
      Keyword.enum.Passes host schema (.obj fields) ∧
      Keyword.const.Passes host schema (.obj fields) ∧
      Keyword.required.Passes host schema (.obj fields) ∧
      Keyword.additionalProperties.Passes host schema (.obj fields) := by
  refine passesHere_iff ⟨fun h k hk => ?_, fun h => ⟨h _ rfl, h _ rfl⟩⟩
  cases k with
  | required => exact h.1
  | additionalProperties => exact h.2
  | size k => cases k <;> cases hk
  | _ => cases hk

theorem passesHere_arr {host : Host} {schema : Value} {items : List Value} :
    PassesHere host schema (.arr items) ↔ Keyword.type.Passes host schema (.arr items) ∧
      Keyword.enum.Passes host schema (.arr items) ∧
      Keyword.const.Passes host schema (.arr items) ∧
      (Keyword.size .minItems).Passes host schema (.arr items) ∧
      (Keyword.size .maxItems).Passes host schema (.arr items) := by
  refine passesHere_iff ⟨fun h k hk => ?_, fun h => ⟨h _ rfl, h _ rfl⟩⟩
  cases k with
  | size k =>
    cases k with
    | minItems => exact h.1
    | maxItems => exact h.2
    | _ => cases hk
  | _ => cases hk

theorem passesHere_str {host : Host} {schema : Value} {text : String} :
    PassesHere host schema (.str text) ↔ Keyword.type.Passes host schema (.str text) ∧
      Keyword.enum.Passes host schema (.str text) ∧
      Keyword.const.Passes host schema (.str text) ∧
      (Keyword.size .minLength).Passes host schema (.str text) ∧
      (Keyword.size .maxLength).Passes host schema (.str text) ∧
      Keyword.pattern.Passes host schema (.str text) := by
  refine passesHere_iff ⟨fun h k hk => ?_, fun h => ⟨h _ rfl, h _ rfl, h _ rfl⟩⟩
  cases k with
  | pattern => exact h.2.2
  | size k =>
    cases k with
    | minLength => exact h.1
    | maxLength => exact h.2.1
    | _ => cases hk
  | _ => cases hk

theorem passesHere_num {host : Host} {schema : Value} {n : Number} :
    PassesHere host schema (.num n) ↔ Keyword.type.Passes host schema (.num n) ∧
      Keyword.enum.Passes host schema (.num n) ∧ Keyword.const.Passes host schema (.num n) ∧
      ∀ b : Bound, (Keyword.bound b).Passes host schema (.num n) := by
  refine passesHere_iff ⟨fun h k hk => ?_, fun h b => h _ rfl⟩
  cases k with
  | bound b => exact h b
  | size k => cases k <;> cases hk
  | _ => cases hk

theorem seq_ok_iff {x : Except String Unit} {f : Unit → Except String Unit} :
    (x >>= f) = .ok () ↔ x = .ok () ∧ f () = .ok () := by
  cases x with
  | error e => simp [bind, Except.bind]
  | ok u => simp [bind, Except.bind]

theorem validateValue_shape {host : Host} {schema value : Value} {path : String}
    (rest : Except String Unit)
    (h : validateValue host schema value path =
      let kind := ((schema.get "type").bind Value.asStr).getD ""
      if !hasType kind value then .error (path ++ " must be " ++ kind)
      else if ((schema.get "enum").bind Value.asArray).any
          fun allowed => !allowed.any (·.eqv value) then
        .error (path ++ " is not an allowed value")
      else if (schema.get "const").any fun x => !x.eqv value then
        .error (path ++ " must equal the configured constant")
      else rest) :
    validateValue host schema value path = .ok () ↔ Keyword.type.Passes host schema value ∧
      Keyword.enum.Passes host schema value ∧ Keyword.const.Passes host schema value ∧
      rest = .ok () := by
  rw [h]
  dsimp only
  rw [ite_error_ok_iff, ite_error_ok_iff, ite_error_ok_iff, Bool.not_eq_false']
  rfl

/-- What `validate_value` asks of a property. -/
def FieldPasses (host : Host) (schema : Value) (f : String × Value) : Prop :=
  (declared schema f.1 = none →
    (schema.get "additionalProperties").any (·.eqv (.bool false)) = false) ∧
  ∀ sub, subschema schema f.1 = some sub → PassesBelow host sub f.2

theorem forall_fieldPasses_iff {host : Host} {schema : Value} {fields : List (String × Value)} :
    (∀ f ∈ fields, FieldPasses host schema f) ↔
      Keyword.additionalProperties.Passes host schema (.obj fields) ∧
        ∀ c ∈ children schema (.obj fields), PassesBelow host c.1 c.2 := by
  constructor
  · intro h
    refine ⟨fun fields' hf f hmem => ?_, fun c hc => ?_⟩
    · obtain rfl : fields = fields' := Value.obj.inj hf
      exact (h f hmem).1
    · obtain ⟨f, hf, hsub, hv⟩ := mem_children_obj.1 hc
      rw [← hv]
      exact (h f hf).2 c.1 hsub
  · rintro ⟨hadd, hchildren⟩ f hf
    refine ⟨hadd fields rfl f hf, fun sub hsub => ?_⟩
    exact hchildren (sub, f.2) (mem_children_obj.2 ⟨f, hf, hsub, rfl⟩)

theorem forall_children_arr {P : Value → Value → Prop} {schema : Value} {items : List Value} :
    (∀ c ∈ children schema (.arr items), P c.1 c.2) ↔
      ∀ sub, schema.get "items" = some sub → ∀ item ∈ items, P sub item := by
  constructor
  · intro h sub hsub item hitem
    exact h (sub, item) (mem_children_arr.2 ⟨hsub, hitem⟩)
  · intro h c hc
    obtain ⟨hsub, hmem⟩ := mem_children_arr.1 hc
    exact h c.1 hsub c.2 hmem

mutual

theorem validateValue_ok_iff {host : Host} : ∀ {value schema : Value} {path : String},
    validateValue host schema value path = .ok () ↔ PassesBelow host schema value
  | .obj fields, schema, path => by
    rw [validateValue_shape _ (by rw [validateValue]), seq_ok_iff, checkRequired_ok_iff host,
      validateFields_ok_iff, forall_fieldPasses_iff, passesBelow_iff, passesHere_obj]
    tauto
  | .arr items, schema, path => by
    rw [validateValue_shape _ (by rw [validateValue]), passesBelow_iff, passesHere_arr,
      forall_children_arr]
    cases hitems : schema.get "items" with
    | none =>
      dsimp only
      rw [seq_ok_iff, checkLength_ok_iff host]
      simp
    | some sub =>
      dsimp only
      rw [seq_ok_iff, checkLength_ok_iff host, validateItems_ok_iff]
      simp only [Option.some.injEq, forall_eq']
      tauto
  | .str text, schema, path => by
    rw [validateValue_shape _ (by rw [validateValue]), passesBelow_iff, passesHere_str,
      checkText_ok_iff]
    simp [children]
  | .num n, schema, path => by
    rw [validateValue_shape _ (by rw [validateValue]), passesBelow_iff, passesHere_num,
      checkNumber_ok_iff host]
    simp [children]
  | .null, schema, path => by
    rw [validateValue_shape (.ok ()) (by simp only [validateValue]), passesBelow_iff,
      passesHere_leaf (by intro k; cases k <;> first | rfl | (rename_i k; cases k <;> rfl))]
    simp [children]
  | .bool b, schema, path => by
    rw [validateValue_shape (.ok ()) (by simp only [validateValue]), passesBelow_iff,
      passesHere_leaf (by intro k; cases k <;> first | rfl | (rename_i k; cases k <;> rfl))]
    simp [children]

theorem validateFields_ok_iff {host : Host} : ∀ {fields : List (String × Value)} {schema : Value}
    {path : String}, validateFields host schema fields path = .ok () ↔
      ∀ f ∈ fields, FieldPasses host schema f
  | [], schema, path => by simp [validateFields]
  | (key, item) :: rest, schema, path => by
    have hrest : validateFields host schema rest path = .ok () ↔
        ∀ f ∈ rest, FieldPasses host schema f := validateFields_ok_iff
    rw [validateFields, List.forall_mem_cons, ← hrest, FieldPasses, subschema]
    dsimp only
    rw [← declared]
    cases hdecl : declared schema key with
    | some sub =>
      dsimp only
      rw [seq_ok_iff, validateValue_ok_iff]
      simp
    | none =>
      dsimp only
      cases hfalse : (schema.get "additionalProperties").any (·.eqv (.bool false)) with
      | true => simp [bind, Except.bind]
      | false =>
        cases hsub : (schema.get "additionalProperties").filter Value.isObject with
        | none => simp [bind, Except.bind]
        | some sub =>
          simp only [Bool.false_eq_true, if_false]
          rw [seq_ok_iff, validateValue_ok_iff]
          simp

theorem validateItems_ok_iff {host : Host} : ∀ {items : List Value} {schema : Value} {i : Nat}
    {path : String}, validateItems host schema items i path = .ok () ↔
      ∀ item ∈ items, PassesBelow host schema item
  | [], schema, i, path => by simp [validateItems]
  | item :: rest, schema, i, path => by
    rw [validateItems, seq_ok_iff, validateValue_ok_iff, validateItems_ok_iff]
    simp

end

/-! ## The two readings of a keyword -/

theorem hasType_iff {t : String} (ht : t ∈ schemaTypes) {value : Value}
    (hv : value.valid = true) : hasType t value = true ↔ OfType t value := by
  have hint : ∀ i : Int, (Number.int i).InRange →
      (Value.asI64 (.num (.int i))).isSome = true ∨ (Value.asU64 (.num (.int i))).isSome = true := by
    intro i hi
    simp only [Number.InRange] at hi
    by_cases hneg : i < 0
    · left
      simp only [Value.asI64]
      rw [if_pos (by omega)]
      rfl
    · right
      simp only [Value.asU64]
      rw [if_pos (by omega)]
      rfl
  simp only [schemaTypes, List.mem_cons, List.not_mem_nil, or_false] at ht
  cases value with
  | num n =>
    cases n with
    | int i =>
      have hsome := hint i (Value.valid_num.1 hv)
      rcases ht with rfl | rfl | rfl | rfl | rfl | rfl | rfl <;>
        simp [hasType, OfType, Value.isObject, Value.asArray, Value.asStr, Value.asBool,
          Value.isNull, Value.asF64, Number.toRat]
      rcases hsome with h | h <;> simp [h]
    | float f =>
      rcases ht with rfl | rfl | rfl | rfl | rfl | rfl | rfl <;>
        simp [hasType, OfType, Value.isObject, Value.asArray, Value.asStr, Value.asBool,
          Value.isNull, Value.asF64, Value.asI64, Value.asU64, Number.toRat, Number.asF64,
          F64.isIntegral]
  | _ =>
    rcases ht with rfl | rfl | rfl | rfl | rfl | rfl | rfl <;>
      simp [hasType, OfType, Value.isObject, Value.asArray, Value.asStr, Value.asBool,
        Value.isNull, Value.asF64, Value.asI64, Value.asU64]

/-- The check of a keyword of an accepted schema: passed when the keyword is met, but for a strict
reading, or missed under a lenient one. -/
def Keyword.ReadAs (host : Host) (schema value : Value) (k : Keyword) : Prop :=
  k.Passes host schema value ↔ (k.Met host schema value ∧ ¬ k.Strict schema value) ∨
    (¬ k.Met host schema value ∧ k.Lenient schema value)

section reading
variable {host : Host} {fields : List (String × Value)} {value : Value}

theorem readAs_of_iff {schema : Value} {k : Keyword} (hs : ¬ k.Strict schema value)
    (hl : ¬ k.Lenient schema value)
    (h : k.Passes host schema value ↔ k.Met host schema value) : k.ReadAs host schema value := by
  unfold Keyword.ReadAs
  tauto

theorem type_readAs (ha : Accepted host fields) (hv : value.valid = true) :
    Keyword.type.ReadAs host (.obj fields) value := by
  unfold Keyword.ReadAs
  simp only [Keyword.Passes, Keyword.Met, Keyword.Strict, Keyword.Lenient, Value.get_obj,
    not_false_eq_true, and_true]
  cases ht : lookup "type" fields with
  | none => simp [hasType]
  | some t =>
    cases t with
    | str kind =>
      have hmem := ha.type ht
      simp [hasType_iff hmem hv, Typed, Value.asStr]
    | _ => simp [hasType, Value.asStr, em]

theorem enum_readAs (ha : Accepted host fields) :
    Keyword.enum.ReadAs host (.obj fields) value := by
  unfold Keyword.ReadAs
  simp only [Keyword.Passes, Keyword.Met, Keyword.Strict, Keyword.Lenient, Value.get_obj, and_false,
    or_false]
  cases hget : lookup "enum" fields with
  | none => simp
  | some v =>
    obtain ⟨allowed, rfl⟩ := ha.enumeration hget
    simp only [Option.bind_some, Value.asArray_arr, Option.any_some, Bool.not_eq_false',
      List.any_eq_true, Option.some.injEq, Value.arr.injEq, forall_eq', exists_eq_left',
      not_forall, Bool.not_eq_false, exists_prop]
    constructor
    · rintro ⟨x, hx, heq⟩
      exact ⟨⟨x, hx, Value.same_of_eqv heq⟩, x, hx, heq⟩
    · rintro ⟨-, x, hx, heq⟩
      exact ⟨x, hx, heq⟩

theorem const_readAs : Keyword.const.ReadAs host (.obj fields) value := by
  unfold Keyword.ReadAs
  simp only [Keyword.Passes, Keyword.Met, Keyword.Strict, Keyword.Lenient, Value.get_obj, and_false,
    or_false]
  cases hget : lookup "const" fields with
  | none => simp
  | some x =>
    simp only [Option.any_some, Bool.not_eq_false', Option.some.injEq, forall_eq', exists_eq_left',
      Bool.not_eq_false]
    exact ⟨fun h => ⟨Value.same_of_eqv h, h⟩, fun h => h.2⟩

theorem required_readAs (ha : Accepted host fields) :
    Keyword.required.ReadAs host (.obj fields) value := by
  refine readAs_of_iff not_false not_false ?_
  simp only [Keyword.Passes, Keyword.Met, Value.get_obj]
  cases hget : lookup "required" fields with
  | none => simp
  | some v =>
    obtain ⟨keys, rfl, hall⟩ := ha.required hget
    have hmem : ∀ key, key ∈ keys.filterMap Value.asStr ↔ .str key ∈ keys := by
      intro key
      simp only [List.mem_filterMap, Value.asStr_eq_some, exists_eq_right]
    simp only [Option.bind_some, Value.asArray_arr, Option.some.injEq, Value.arr.injEq]
    constructor
    · rintro h _ obj rfl hobj key hkey
      exact h obj keys hobj rfl key ((hmem key).2 hkey)
    · rintro h obj _ hobj rfl key hkey
      exact h keys obj rfl hobj key ((hmem key).1 hkey)

theorem properties_readAs : Keyword.properties.ReadAs host (.obj fields) value := by
  unfold Keyword.ReadAs
  simp only [Keyword.Passes, Keyword.Met, Keyword.Strict, Keyword.Lenient, Value.get_obj,
    not_false_eq_true, and_true, true_iff]
  by_cases hmet : ∀ props, lookup "properties" fields = some props → value.isObject = true →
      props.isObject = true
  · exact .inl hmet
  · refine .inr ⟨hmet, ?_⟩
    push Not at hmet
    obtain ⟨props, hget, -, hobj⟩ := hmet
    exact ⟨props, hget, Bool.eq_false_iff.2 hobj⟩

theorem additionalProperties_readAs :
    Keyword.additionalProperties.ReadAs host (.obj fields) value := by
  have hfalse : ∀ v : Value, v.eqv (.bool false) = true ↔ v = .bool false := by
    intro v
    cases v <;> simp [Value.eqv]
  refine readAs_of_iff not_false not_false ?_
  simp only [Keyword.Passes, Keyword.Met, Value.get_obj]
  constructor
  · rintro h obj hget hobj f hf
    cases hdecl : declared (.obj fields) f.1 with
    | some sub => rfl
    | none =>
      have hany := h obj hobj f hf hdecl
      simp [hget, Value.eqv] at hany
  · rintro h obj hobj f hf hdecl
    rw [any_eq_false_iff]
    intro v hget
    by_contra hv
    have hv : v = .bool false := (hfalse v).1 (by simpa using hv)
    have hsome := h obj (hv ▸ hget) hobj f hf
    rw [hdecl] at hsome
    cases hsome

theorem pattern_readAs (ha : Accepted host fields) :
    Keyword.pattern.ReadAs host (.obj fields) value := by
  refine readAs_of_iff not_false not_false ?_
  simp only [Keyword.Passes, Keyword.Met, Value.get_obj]
  cases hget : lookup "pattern" fields with
  | none => simp
  | some v =>
    obtain ⟨p, re, rfl, -⟩ := ha.pattern hget
    simp

theorem bound_readAs (ha : Accepted host fields) (b : Bound) :
    (Keyword.bound b).ReadAs host (.obj fields) value := by
  have hmem : b.name ∈ boundKeywords := by cases b <;> decide
  unfold Keyword.ReadAs
  simp only [Keyword.Passes, Keyword.Met, Keyword.Strict, Keyword.Lenient, Value.get_obj]
  cases hget : lookup b.name fields with
  | none => simp
  | some v =>
    have hnumber := ha.bound hmem hget
    cases v with
    | num x =>
      cases value with
      | num n =>
        simp only [Option.bind_some, Value.asF64, Option.some.injEq, Value.num.injEq]
        by_cases hw : b.Within x.asF64.toRat n.asF64.toRat <;> simp [hw, em]
      | _ => simp
    | _ => cases hnumber

theorem asU64_eq_some {v : Value} {x : Nat} : v.asU64 = some x → v = .int x := by
  cases v with
  | num n =>
    cases n with
    | int i =>
      rw [Value.asU64]
      intro h
      split at h
      · rw [Option.some.injEq] at h
        rw [Value.int, ← h, Int.toNat_of_nonneg (by omega)]
      · cases h
    | float f => intro h; cases h
  | _ => intro h; cases h

theorem size_readAs (ha : Accepted host fields) (k : Size) :
    (Keyword.size k).ReadAs host (.obj fields) value := by
  have hmem : k.name ∈ lengthKeywords := by cases k <;> decide
  refine readAs_of_iff not_false not_false ?_
  simp only [Keyword.Passes, Keyword.Met, Value.get_obj]
  cases hget : lookup k.name fields with
  | none => simp
  | some v =>
    obtain ⟨x, hx⟩ := Option.isSome_iff_exists.1 (ha.length hmem hget)
    have hv := asU64_eq_some hx
    have hcast : (Number.int x).toRat = x := Int.cast_natCast x
    rw [Option.bind_some, hx]
    constructor
    · intro h y n hy hn
      obtain rfl : Number.int x = y := Value.num.inj (hv.symm.trans (Option.some.inj hy))
      rw [hcast]
      exact h x n rfl hn
    · intro h y n hy hn
      obtain rfl : x = y := Option.some.inj hy
      rw [← hcast]
      exact h (.int x) n (congrArg some hv) hn

theorem readAs_of_accepted (ha : Accepted host fields) (hv : value.valid = true) (k : Keyword) :
    k.ReadAs host (.obj fields) value := by
  cases k with
  | type => exact type_readAs ha hv
  | enum => exact enum_readAs ha
  | const => exact const_readAs
  | required => exact required_readAs ha
  | properties => exact properties_readAs
  | additionalProperties => exact additionalProperties_readAs
  | pattern => exact pattern_readAs ha
  | bound b => exact bound_readAs ha b
  | size k => exact size_readAs ha k

end reading

/-! ## Every subschema is accepted with the schema -/

theorem accepted_of_mem_children {host : Host} {fields : List (String × Value)}
    (ha : Accepted host fields) {value : Value} {c : Value × Value}
    (hc : c ∈ children (.obj fields) value) : ∃ path, validateSchema host c.1 path = .ok () := by
  cases value with
  | obj props =>
    obtain ⟨f, -, hsub, -⟩ := mem_children_obj.1 hc
    rw [subschema] at hsub
    cases hdecl : declared (.obj fields) f.1 with
    | some sub =>
      rw [hdecl, Option.some.injEq] at hsub
      rw [declared, Option.bind_eq_some_iff] at hdecl
      obtain ⟨declarations, hprops, hlook⟩ := hdecl
      rw [Option.bind_eq_some_iff] at hprops
      obtain ⟨v, hget, hobj⟩ := hprops
      rw [Value.asObject_eq_some] at hobj
      have hlookup : lookup "properties" fields = some (.obj declarations) := hobj ▸ hget
      rw [← hsub]
      exact ha.properties hlookup _ (mem_of_lookup hlook)
    | none =>
      rw [hdecl] at hsub
      obtain ⟨hget, hobj⟩ := Option.filter_eq_some_iff.1 hsub
      rcases ha.additional hget with haccepted | ⟨b, hb⟩
      · exact haccepted
      · rw [hb] at hobj
        cases hobj
  | arr items =>
    obtain ⟨hitems, -⟩ := mem_children_arr.1 hc
    exact ha.items hitems
  | _ => simp [children] at hc

theorem readAs_of_visits {host : Host} {schema value s v : Value} {path : String}
    (h : validateSchema host schema path = .ok ()) (hv : value.valid = true)
    (hvisit : Visits schema value s v) (k : Keyword) : k.ReadAs host s v := by
  induction hvisit generalizing path with
  | here =>
    obtain ⟨fields, rfl, ha⟩ := accepted_of_validateSchema h
    exact readAs_of_accepted ha hv k
  | child hc _ ih =>
    obtain ⟨fields, rfl, ha⟩ := accepted_of_validateSchema h
    obtain ⟨path', hsub⟩ := accepted_of_mem_children ha hc
    exact ih hsub (valid_of_mem_children hc hv)

/-! ## When validation is exact -/

theorem satisfies_iff_not {host : Host} {schema value : Value} :
    Satisfies host schema value ↔ ¬ Refused host schema value ∧ ¬ Disabled host schema value := by
  rw [satisfies_iff]
  constructor
  · intro h
    refine ⟨?_, ?_⟩
    · rintro ⟨s, v, hvisit, k, hmet, -⟩
      exact hmet (h s v hvisit k)
    · rintro ⟨s, v, hvisit, k, hmet, -⟩
      exact hmet (h s v hvisit k)
  · rintro ⟨hrefused, hdisabled⟩ s v hvisit k
    by_contra hmet
    by_cases hl : k.Lenient s v
    · exact hdisabled ⟨s, v, hvisit, k, hmet, hl⟩
    · exact hrefused ⟨s, v, hvisit, k, hmet, hl⟩

theorem passesBelow_iff_not {host : Host} {schema value : Value}
    (hread : ∀ s v, Visits schema value s v → ∀ k : Keyword, k.ReadAs host s v) :
    PassesBelow host schema value ↔
      ¬ Refused host schema value ∧ ¬ Overstrict host schema value := by
  constructor
  · intro h
    refine ⟨?_, ?_⟩
    · rintro ⟨s, v, hvisit, k, hmet, hl⟩
      rcases (hread s v hvisit k).1 (h s v hvisit k) with hm | hm
      · exact hmet hm.1
      · exact hl hm.2
    · rintro ⟨s, v, hvisit, k, hmet, hstrict⟩
      rcases (hread s v hvisit k).1 (h s v hvisit k) with hm | hm
      · exact hm.2 hstrict
      · exact hm.1 hmet
  · rintro ⟨hrefused, hstrict⟩ s v hvisit k
    refine (hread s v hvisit k).2 ?_
    by_cases hmet : k.Met host s v
    · exact .inl ⟨hmet, fun hs => hstrict ⟨s, v, hvisit, k, hmet, hs⟩⟩
    · refine .inr ⟨hmet, ?_⟩
      by_contra hl
      exact hrefused ⟨s, v, hvisit, k, hmet, hl⟩

/-- Validation agrees with the reference semantics exactly when a keyword is missed that both read
alike, or the misreadings of the two kinds show together or not at all. -/
theorem validate_arguments_exact (host : Host) (schema value : Document) (path : String)
    (h : validateSchema host schema.value path = .ok ()) :
    (validateArguments host schema.value value.value = .ok () ↔
        Satisfies host schema.value value.value) ↔
      Refused host schema.value value.value ∨
        (Disabled host schema.value value.value ↔ Overstrict host schema.value value.value) := by
  have hread : ∀ s v, Visits schema.value value.value s v → ∀ k : Keyword, k.ReadAs host s v :=
    fun s v hvisit k => readAs_of_visits h value.valid hvisit k
  rw [validateArguments, validateValue_ok_iff, passesBelow_iff_not hread, satisfies_iff_not]
  tauto

/-- A nullable object: `type` is an array. -/
def nullableSchema : Document :=
  ⟨.obj [("type", .arr [.str "object", .str "null"])], by decide⟩

theorem validate_arguments_exact_nullable :
    (validateArguments exactHost nullableSchema.value (.obj []) = .ok () ↔
        Satisfies exactHost nullableSchema.value (.obj [])) ↔
      Refused exactHost nullableSchema.value (.obj []) ∨
        (Disabled exactHost nullableSchema.value (.obj []) ↔
          Overstrict exactHost nullableSchema.value (.obj [])) :=
  validate_arguments_exact exactHost nullableSchema ⟨.obj [], by decide⟩ "parameters" (by rfl)

/-- The number `5` passes as a nullable object. -/
theorem validate_arguments_ignores_type_array :
    validateSchema exactHost nullableSchema.value "parameters" = .ok () ∧
      validateArguments exactHost nullableSchema.value (.int 5) = .ok () ∧
      ¬ Satisfies exactHost nullableSchema.value (.int 5) := by
  refine ⟨by rfl, by rfl, fun h => ?_⟩
  have htyped := satisfies_iff.1 h _ _ .here .type _ rfl
  simp [Typed, OfType, Value.int] at htyped

end JsonSchema

end StateDrivenAgent
