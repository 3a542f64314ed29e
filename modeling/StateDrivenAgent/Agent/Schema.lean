import StateDrivenAgent.Host

/-!
# The schemas a configuration may use

`validate_schema` of `main.rs`: what the acceptor of schemas asks of every keyword, at every
subschema it descends into (`properties` when it is an object, `items`, `additionalProperties` when
it is an object).
-/

namespace StateDrivenAgent

namespace Config

/-- The keywords `validate_schema` knows. -/
def allowedKeywords : List String :=
  ["type", "properties", "required", "additionalProperties", "items", "enum", "const", "minimum",
    "maximum", "exclusiveMinimum", "exclusiveMaximum", "minLength", "maxLength", "pattern",
    "minItems", "maxItems", "description", "title", "default", "examples", "$schema"]

def boundKeywords : List String := ["minimum", "maximum", "exclusiveMinimum", "exclusiveMaximum"]

def lengthKeywords : List String := ["minLength", "maxLength", "minItems", "maxItems"]

def schemaTypes : List String :=
  ["object", "array", "string", "number", "integer", "boolean", "null"]

def checkKnown (fields : List (String × Value)) (path : String) : Except String Unit :=
  match fields.find? fun f => f.1 ∉ allowedKeywords with
  | some f => .error ("unsupported schema assertion '" ++ f.1 ++ "' at " ++ path)
  | none => .ok ()

def checkRequiredKeyword (fields : List (String × Value)) (path : String) : Except String Unit :=
  match lookup "required" fields with
  | none => .ok ()
  | some required =>
    if required.asArray.any fun items => items.all fun v => v.asStr.isSome then .ok ()
    else .error (path ++ ".required must be an array of strings")

def checkEnumKeyword (fields : List (String × Value)) (path : String) : Except String Unit :=
  match lookup "enum" fields with
  | none => .ok ()
  | some enumeration =>
    if enumeration.asArray.any fun items => !items.isEmpty then .ok ()
    else .error (path ++ ".enum must be a nonempty array")

/-- The first keyword of the list with a value that fails the test is an error. -/
def checkEach (fields : List (String × Value)) (path problem : String) (test : Value → Bool) :
    List String → Except String Unit
  | [] => .ok ()
  | key :: keys =>
    if (lookup key fields).all test then checkEach fields path problem test keys
    else .error (path ++ "." ++ key ++ problem)

def checkPatternKeyword (host : Host) (fields : List (String × Value)) (path : String) :
    Except String Unit :=
  match lookup "pattern" fields with
  | none => .ok ()
  | some (.str pattern) =>
    match host.regex pattern with
    | .ok _ => .ok ()
    | .error e => .error ("invalid pattern at " ++ path ++ ": " ++ e)
  | some _ => .error (path ++ ".pattern must be a string")

/-- Only a `type` that is a string is looked at. -/
def checkTypeKeyword (fields : List (String × Value)) (path : String) : Except String Unit :=
  match (lookup "type" fields).bind Value.asStr with
  | none => .ok ()
  | some t =>
    if t ∈ schemaTypes then .ok ()
    else .error ("invalid schema type '" ++ t ++ "' at " ++ path)

/-- What `validate_schema` asks of the keywords of one schema after its subschemas. -/
def checkKeywords (host : Host) (fields : List (String × Value)) (path : String) :
    Except String Unit := do
  checkRequiredKeyword fields path
  checkEnumKeyword fields path
  checkEach fields path " must be a finite number" Value.isNumber boundKeywords
  checkEach fields path " must be a nonnegative integer" (fun v => v.asU64.isSome) lengthKeywords
  checkPatternKeyword host fields path
  checkTypeKeyword fields path

mutual

/-- `validate_schema`. -/
def validateSchema (host : Host) : Value → String → Except String Unit
  | .obj fields, path => do
    checkKnown fields path
    validateProperties host fields path
    validateItemsKeyword host fields path
    validateAdditional host fields path
    checkKeywords host fields path
  | _, path => .error (path ++ " must be an object schema")

/-- `properties`, when it is an object. -/
def validateProperties (host : Host) : List (String × Value) → String → Except String Unit
  | [], _ => .ok ()
  | (key, .obj props) :: rest, path =>
    if key = "properties" then validateEach host props path else validateProperties host rest path
  | (key, _) :: rest, path =>
    if key = "properties" then .ok () else validateProperties host rest path

def validateEach (host : Host) : List (String × Value) → String → Except String Unit
  | [], _ => .ok ()
  | (key, schema) :: rest, path => do
    validateSchema host schema (path ++ ".properties." ++ key)
    validateEach host rest path

/-- `items`. -/
def validateItemsKeyword (host : Host) : List (String × Value) → String → Except String Unit
  | [], _ => .ok ()
  | (key, items) :: rest, path =>
    if key = "items" then validateSchema host items (path ++ ".items")
    else validateItemsKeyword host rest path

/-- `additionalProperties`: a schema or a boolean. -/
def validateAdditional (host : Host) : List (String × Value) → String → Except String Unit
  | [], _ => .ok ()
  | (key, extra) :: rest, path =>
    if key = "additionalProperties" then
      if extra.isObject then validateSchema host extra (path ++ ".additionalProperties")
      else if extra.asBool.isSome then .ok ()
      else .error (path ++ ".additionalProperties must be boolean or schema")
    else validateAdditional host rest path

end

/-! ## What an accepted schema looks like -/

section accepted
variable {host : Host} {fields : List (String × Value)} {path : String}

theorem checkEach_ok {problem : String} {test : Value → Bool} {keys : List String}
    (h : checkEach fields path problem test keys = .ok ()) {key : String} (hk : key ∈ keys)
    {v : Value} (hv : lookup key fields = some v) : test v = true := by
  induction keys with
  | nil => cases hk
  | cons k keys ih =>
    rw [checkEach] at h
    split at h
    next ht =>
      rcases List.mem_cons.1 hk with rfl | hk
      · simpa [hv] using ht
      · exact ih h hk
    next => cases h

theorem checkRequiredKeyword_ok (h : checkRequiredKeyword fields path = .ok ()) {v : Value}
    (hv : lookup "required" fields = some v) :
    ∃ items, v = .arr items ∧ ∀ x ∈ items, ∃ s, x = .str s := by
  simp only [checkRequiredKeyword, hv] at h
  split at h
  next ht =>
    obtain ⟨items, hitems, hall⟩ := (Option.any_eq_true _ _).1 ht
    rw [Value.asArray_eq_some] at hitems
    refine ⟨items, hitems, fun x hx => ?_⟩
    have hsome := List.all_eq_true.1 hall x hx
    obtain ⟨s, hs⟩ := Option.isSome_iff_exists.1 hsome
    exact ⟨s, Value.asStr_eq_some.1 hs⟩
  next => cases h

theorem checkEnumKeyword_ok (h : checkEnumKeyword fields path = .ok ()) {v : Value}
    (hv : lookup "enum" fields = some v) : ∃ items, v = .arr items := by
  simp only [checkEnumKeyword, hv] at h
  split at h
  next ht =>
    obtain ⟨items, hitems, -⟩ := (Option.any_eq_true _ _).1 ht
    exact ⟨items, Value.asArray_eq_some.1 hitems⟩
  next => cases h

theorem checkPatternKeyword_ok (h : checkPatternKeyword host fields path = .ok ()) {v : Value}
    (hv : lookup "pattern" fields = some v) :
    ∃ pattern re, v = .str pattern ∧ host.regex pattern = .ok re := by
  cases v with
  | str pattern =>
    simp only [checkPatternKeyword, hv] at h
    cases hre : host.regex pattern with
    | ok re => exact ⟨pattern, re, rfl, hre⟩
    | error e =>
      rw [hre] at h
      cases h
  | _ =>
    simp only [checkPatternKeyword, hv] at h
    cases h

theorem checkTypeKeyword_ok (h : checkTypeKeyword fields path = .ok ()) {t : String}
    (hv : lookup "type" fields = some (.str t)) : t ∈ schemaTypes := by
  simp only [checkTypeKeyword, hv, Option.bind_some, Value.asStr_str] at h
  split at h
  next ht => exact ht
  next => cases h

theorem validateEach_ok {props : List (String × Value)} (h : validateEach host props path = .ok ())
    {f : String × Value} (hf : f ∈ props) : ∃ path', validateSchema host f.2 path' = .ok () := by
  induction props with
  | nil => cases hf
  | cons g rest ih =>
    obtain ⟨key, schema⟩ := g
    rw [validateEach] at h
    obtain ⟨u, hu, h⟩ := bind_ok h
    rcases List.mem_cons.1 hf with rfl | hf
    · exact ⟨_, hu⟩
    · exact ih h hf

theorem validateProperties_ok (h : validateProperties host fields path = .ok ())
    {props : List (String × Value)} (hv : lookup "properties" fields = some (.obj props))
    {f : String × Value} (hf : f ∈ props) : ∃ path', validateSchema host f.2 path' = .ok () := by
  induction fields with
  | nil => cases hv
  | cons g rest ih =>
    obtain ⟨key, v⟩ := g
    rw [lookup_cons] at hv
    by_cases hkey : key = "properties"
    · rw [if_pos hkey, Option.some.injEq] at hv
      rw [hv, validateProperties, if_pos hkey] at h
      exact validateEach_ok h hf
    · rw [if_neg hkey] at hv
      refine ih ?_ hv
      cases v <;> simpa only [validateProperties, if_neg hkey] using h

theorem validateItemsKeyword_ok (h : validateItemsKeyword host fields path = .ok ()) {v : Value}
    (hv : lookup "items" fields = some v) : ∃ path', validateSchema host v path' = .ok () := by
  induction fields with
  | nil => cases hv
  | cons g rest ih =>
    obtain ⟨key, w⟩ := g
    rw [lookup_cons] at hv
    rw [validateItemsKeyword] at h
    by_cases hkey : key = "items"
    · rw [if_pos hkey, Option.some.injEq] at hv
      rw [if_pos hkey, hv] at h
      exact ⟨_, h⟩
    · rw [if_neg hkey] at hv h
      exact ih h hv

theorem validateAdditional_ok (h : validateAdditional host fields path = .ok ()) {v : Value}
    (hv : lookup "additionalProperties" fields = some v) :
    (∃ path', validateSchema host v path' = .ok ()) ∨ ∃ b, v = .bool b := by
  induction fields with
  | nil => cases hv
  | cons g rest ih =>
    obtain ⟨key, w⟩ := g
    rw [lookup_cons] at hv
    rw [validateAdditional] at h
    by_cases hkey : key = "additionalProperties"
    · rw [if_pos hkey, Option.some.injEq] at hv
      rw [if_pos hkey, hv] at h
      split at h
      next => exact .inl ⟨_, h⟩
      next =>
        cases v <;> simp_all [Value.asBool]
    · rw [if_neg hkey] at hv h
      exact ih h hv

end accepted

/-- What `validate_schema` has found out about a schema it accepts. -/
structure Accepted (host : Host) (fields : List (String × Value)) : Prop where
  properties : ∀ {props}, lookup "properties" fields = some (.obj props) → ∀ f ∈ props,
    ∃ path, validateSchema host f.2 path = .ok ()
  items : ∀ {v}, lookup "items" fields = some v → ∃ path, validateSchema host v path = .ok ()
  additional : ∀ {v}, lookup "additionalProperties" fields = some v →
    (∃ path, validateSchema host v path = .ok ()) ∨ ∃ b, v = .bool b
  required : ∀ {v}, lookup "required" fields = some v →
    ∃ keys, v = .arr keys ∧ ∀ x ∈ keys, ∃ s, x = .str s
  enumeration : ∀ {v}, lookup "enum" fields = some v → ∃ allowed, v = .arr allowed
  bound : ∀ {key v}, key ∈ boundKeywords → lookup key fields = some v → v.isNumber = true
  length : ∀ {key v}, key ∈ lengthKeywords → lookup key fields = some v → v.asU64.isSome = true
  pattern : ∀ {v}, lookup "pattern" fields = some v →
    ∃ pattern re, v = .str pattern ∧ host.regex pattern = .ok re
  type : ∀ {t}, lookup "type" fields = some (.str t) → t ∈ schemaTypes

theorem accepted_of_validateSchema {host : Host} {schema : Value} {path : String}
    (h : validateSchema host schema path = .ok ()) :
    ∃ fields, schema = .obj fields ∧ Accepted host fields := by
  cases schema with
  | obj fields =>
    rw [validateSchema] at h
    obtain ⟨_, -, h⟩ := bind_ok h
    obtain ⟨_, hprops, h⟩ := bind_ok h
    obtain ⟨_, hitems, h⟩ := bind_ok h
    obtain ⟨_, hextra, h⟩ := bind_ok h
    rw [checkKeywords] at h
    obtain ⟨_, hrequired, h⟩ := bind_ok h
    obtain ⟨_, henum, h⟩ := bind_ok h
    obtain ⟨_, hbound, h⟩ := bind_ok h
    obtain ⟨_, hlength, h⟩ := bind_ok h
    obtain ⟨_, hpattern, htype⟩ := bind_ok h
    exact ⟨fields, rfl, {
      properties := fun hv _ hf => validateProperties_ok hprops hv hf
      items := validateItemsKeyword_ok hitems
      additional := validateAdditional_ok hextra
      required := checkRequiredKeyword_ok hrequired
      enumeration := checkEnumKeyword_ok henum
      bound := fun hk hv => checkEach_ok hbound hk hv
      length := fun hk hv => checkEach_ok hlength hk hv
      pattern := checkPatternKeyword_ok hpattern
      type := checkTypeKeyword_ok htype }⟩
  | _ => cases h

end Config

end StateDrivenAgent
