import StateDrivenAgent.Json.Document

/-!
# What evidence a value covers

A pattern is a JSON value. An object pattern asks for its properties, an array pattern for an element
for each of its elements, at every depth (`Covers`); what is left, the leaves, is compared. The
comparison is a parameter: `Value.Matches` compares leaves as JSON values, so that a null asks for a
null, a boolean is no number and numbers are compared by their value.

`rebuild` replaces the leaves of a value and adds elements and properties to its arrays and objects.
A value rebuilt from a pattern covers the pattern whenever its new leaves match (`covers_rebuild`),
and cannot cover it when no leaf of it matches some leaf of the pattern (`not_covers`).
-/

namespace StateDrivenAgent

namespace Value

/-- Neither an array nor an object. -/
def isLeaf : Value → Bool
  | arr _ | obj _ => false
  | _ => true

/-- The value itself, an element or a property of it, and so on down. -/
inductive Within (v : Value) : Value → Prop where
  | refl : Within v v
  | item {items : List Value} {w : Value} (hw : w ∈ items) (h : Within v w) : Within v (arr items)
  | field {fields : List (String × Value)} {f : String × Value} (hf : f ∈ fields)
      (h : Within v f.2) : Within v (obj fields)

theorem Within.of_arr {v : Value} {items : List Value} (h : Within v (arr items)) :
    v = arr items ∨ ∃ w ∈ items, Within v w := by
  cases h with
  | refl => exact .inl rfl
  | item hw h => exact .inr ⟨_, hw, h⟩

theorem Within.of_obj {v : Value} {fields : List (String × Value)} (h : Within v (obj fields)) :
    v = obj fields ∨ ∃ f ∈ fields, Within v f.2 := by
  cases h with
  | refl => exact .inl rfl
  | field hf h => exact .inr ⟨_, hf, h⟩

theorem Within.of_leaf {v w : Value} (hw : w.isLeaf = true) (h : Within v w) : v = w := by
  cases h with
  | refl => rfl
  | item => cases hw
  | field => cases hw

theorem Within.trans {u v w : Value} (huv : Within u v) (hvw : Within v w) : Within u w := by
  induction hvw with
  | refl => exact huv
  | item hw _ ih => exact .item hw ih
  | field hf _ ih => exact .field hf ih

theorem Within.valid {v w : Value} (h : Within v w) (hw : w.valid = true) : v.valid = true := by
  induction h with
  | refl => exact hw
  | item hmem _ ih => exact ih (valid_arr.1 hw _ hmem)
  | field hmem _ ih => exact ih ((valid_obj.1 hw).2 _ hmem)

/-! ## Covering a pattern -/

mutual

def Covers (leaf : Value → Value → Prop) (a : Value) : Value → Prop
  | .obj fields => ∃ x, a = .obj x ∧ CoversFields leaf x fields
  | .arr items => ∃ x, a = .arr x ∧ CoversItems leaf x items
  | b => leaf a b

def CoversFields (leaf : Value → Value → Prop) (x : List (String × Value)) :
    List (String × Value) → Prop
  | [] => True
  | (k, v) :: rest => (∃ q, lookup k x = some q ∧ Covers leaf q v) ∧ CoversFields leaf x rest

def CoversItems (leaf : Value → Value → Prop) (x : List Value) : List Value → Prop
  | [] => True
  | v :: rest => (∃ q ∈ x, Covers leaf q v) ∧ CoversItems leaf x rest

end

/-- A value has what a pattern asks for. -/
def Matches (a b : Value) : Prop := Covers (fun q l => q.same l = true) a b

section covers
variable {leaf P Q : Value → Value → Prop} {a b : Value}

theorem coversFields_iff {x fields : List (String × Value)} : CoversFields leaf x fields ↔
    ∀ f ∈ fields, ∃ q, lookup f.1 x = some q ∧ Covers leaf q f.2 := by
  induction fields with
  | nil => simp [CoversFields]
  | cons f rest ih => simp [CoversFields, ih]

theorem coversItems_iff {x items : List Value} : CoversItems leaf x items ↔
    ∀ v ∈ items, ∃ q ∈ x, Covers leaf q v := by
  induction items with
  | nil => simp [CoversItems]
  | cons v rest ih => simp [CoversItems, ih]

theorem covers_obj {fields : List (String × Value)} : Covers leaf a (obj fields) ↔
    ∃ x, a = obj x ∧ ∀ f ∈ fields, ∃ q, lookup f.1 x = some q ∧ Covers leaf q f.2 := by
  simp only [Covers, coversFields_iff]

theorem covers_arr {items : List Value} : Covers leaf a (arr items) ↔
    ∃ x, a = arr x ∧ ∀ v ∈ items, ∃ q ∈ x, Covers leaf q v := by
  simp only [Covers, coversItems_iff]

theorem covers_leaf (hb : b.isLeaf = true) : Covers leaf a b ↔ leaf a b := by
  cases b with
  | arr => cases hb
  | obj => cases hb
  | _ => rfl

/-- A weaker comparison on the parts of a value and the leaves of a pattern. -/
theorem Covers.mono (hc : Covers P a b)
    (h : ∀ q l, Within q a → Within l b → l.isLeaf = true → P q l → Q q l) : Covers Q a b := by
  induction b using induct_mem generalizing a with
  | arr items ih =>
    obtain ⟨x, rfl, hall⟩ := covers_arr.1 hc
    refine covers_arr.2 ⟨x, rfl, fun v hv => ?_⟩
    obtain ⟨q, hq, hc⟩ := hall v hv
    exact ⟨q, hq, ih v hv hc fun q' l hq' hl => h q' l (.item hq hq') (.item hv hl)⟩
  | obj fields ih =>
    obtain ⟨x, rfl, hall⟩ := covers_obj.1 hc
    refine covers_obj.2 ⟨x, rfl, fun f hf => ?_⟩
    obtain ⟨q, hq, hc⟩ := hall f hf
    exact ⟨q, hq, ih f hf hc fun q' l hq' hl => h q' l (.field (mem_of_lookup hq) hq') (.field hf hl)⟩
  | null => exact h _ _ .refl .refl rfl hc
  | bool _ => exact h _ _ .refl .refl rfl hc
  | num _ => exact h _ _ .refl .refl rfl hc
  | str _ => exact h _ _ .refl .refl rfl hc

/-- Two comparisons that agree on the parts of a value and the leaves of a pattern. -/
theorem covers_congr (h : ∀ q l, Within q a → Within l b → l.isLeaf = true → (P q l ↔ Q q l)) :
    Covers P a b ↔ Covers Q a b :=
  ⟨fun hc => hc.mono fun q l hq hl hleaf => (h q l hq hl hleaf).1,
    fun hc => hc.mono fun q l hq hl hleaf => (h q l hq hl hleaf).2⟩

/-- A leaf of the pattern that no part of the value matches. -/
theorem not_covers {l : Value} (hl : l.isLeaf = true) (hb : Within l b)
    (h : ∀ q, Within q a → ¬ leaf q l) : ¬ Covers leaf a b := by
  induction hb generalizing a with
  | refl => exact fun hc => h a .refl ((covers_leaf hl).1 hc)
  | item hw _ ih =>
    intro hc
    obtain ⟨x, rfl, hall⟩ := covers_arr.1 hc
    obtain ⟨q, hq, hc⟩ := hall _ hw
    exact ih (fun q' hq' => h q' (.item hq hq')) hc
  | field hf _ ih =>
    intro hc
    obtain ⟨x, rfl, hall⟩ := covers_obj.1 hc
    obtain ⟨q, hq, hc⟩ := hall _ hf
    exact ih (fun q' hq' => h q' (.field (mem_of_lookup hq) hq')) hc

end covers

/-! ## Rebuilding a value -/

section rebuild
variable (σ : Value → Value) (items : List Value) (fields : List (String × Value))

mutual

/-- The leaves replaced, the items put in front of every array and the fields of every object. -/
def rebuild : Value → Value
  | arr xs => arr (items ++ rebuildItems xs)
  | obj xs => obj (fields ++ rebuildFields xs)
  | v => σ v

def rebuildItems : List Value → List Value
  | [] => []
  | v :: rest => rebuild v :: rebuildItems rest

def rebuildFields : List (String × Value) → List (String × Value)
  | [] => []
  | (k, v) :: rest => (k, rebuild v) :: rebuildFields rest

end

theorem rebuildItems_eq (xs : List Value) :
    rebuildItems σ items fields xs = xs.map (rebuild σ items fields) := by
  induction xs with
  | nil => rfl
  | cons v rest ih => rw [rebuildItems, ih, List.map_cons]

theorem rebuildFields_eq (xs : List (String × Value)) : rebuildFields σ items fields xs =
    xs.map fun f => (f.1, rebuild σ items fields f.2) := by
  induction xs with
  | nil => rfl
  | cons f rest ih => rw [rebuildFields, ih, List.map_cons]

theorem rebuild_arr (xs : List Value) : rebuild σ items fields (arr xs) =
    arr (items ++ xs.map (rebuild σ items fields)) := by
  rw [rebuild, rebuildItems_eq]

theorem rebuild_obj (xs : List (String × Value)) : rebuild σ items fields (obj xs) =
    obj (fields ++ xs.map fun f => (f.1, rebuild σ items fields f.2)) := by
  rw [rebuild, rebuildFields_eq]

theorem rebuild_leaf {v : Value} (h : v.isLeaf = true) : rebuild σ items fields v = σ v := by
  cases v with
  | arr => cases h
  | obj => cases h
  | _ => rw [rebuild] <;> simp

variable {σ items fields}

/-- The keys of the new fields are new. -/
def Apart (fields : List (String × Value)) (v : Value) : Prop :=
  ∀ f ∈ fields, v.EveryText (· ≠ f.1)

theorem Apart.item {xs : List Value} (h : Apart fields (arr xs)) : ∀ v ∈ xs, Apart fields v :=
  fun v hv f hf => everyTextItems_iff.1 (h f hf) v hv

theorem Apart.field {xs : List (String × Value)} (h : Apart fields (obj xs)) :
    ∀ g ∈ xs, Apart fields g.2 := fun g hg f hf => (everyTextFields_iff.1 (h f hf) g hg).2

theorem Apart.key {xs : List (String × Value)} (h : Apart fields (obj xs)) :
    ∀ f ∈ fields, ∀ g ∈ xs, g.1 ≠ f.1 := fun f hf g hg => (everyTextFields_iff.1 (h f hf) g hg).1

theorem lookup_rebuild {xs : List (String × Value)} (hvalid : (obj xs).valid = true)
    (hapart : Apart fields (obj xs)) {f : String × Value} (hf : f ∈ xs) :
    lookup f.1 (fields ++ xs.map fun f => (f.1, rebuild σ items fields f.2)) =
      some (rebuild σ items fields f.2) := by
  have hnone : lookup f.1 fields = none := by
    rw [Option.eq_none_iff_forall_not_mem]
    intro v hv
    exact hapart.key _ (mem_of_lookup hv) f hf rfl
  have hkeys : (xs.map fun f => (f.1, rebuild σ items fields f.2)).map Prod.fst =
      xs.map Prod.fst := by rw [List.map_map]; rfl
  rw [lookup_append, hnone]
  refine lookup_of_mem ?_ (List.mem_map.2 ⟨f, hf, rfl⟩)
  rw [hkeys]
  exact (valid_obj.1 hvalid).1

theorem covers_rebuild {leaf : Value → Value → Prop} {b : Value} (hvalid : b.valid = true)
    (hapart : Apart fields b) (h : ∀ l, Within l b → l.isLeaf = true → leaf (σ l) l) :
    Covers leaf (rebuild σ items fields b) b := by
  induction b using induct_mem with
  | arr xs ih =>
    rw [rebuild_arr, covers_arr]
    refine ⟨_, rfl, fun v hv => ⟨rebuild σ items fields v, ?_, ?_⟩⟩
    · exact List.mem_append_right _ (List.mem_map_of_mem hv)
    · exact ih v hv (valid_arr.1 hvalid v hv) (hapart.item v hv) fun l hl => h l (.item hv hl)
  | obj xs ih =>
    rw [rebuild_obj, covers_obj]
    refine ⟨_, rfl, fun f hf => ⟨_, lookup_rebuild hvalid hapart hf, ?_⟩⟩
    exact ih f hf ((valid_obj.1 hvalid).2 f hf) (hapart.field f hf) fun l hl => h l (.field hf hl)
  | null => exact h _ .refl rfl
  | bool _ => exact h _ .refl rfl
  | num _ => exact h _ .refl rfl
  | str _ => exact h _ .refl rfl

/-- A part of a rebuilt value is a rebuilt part or came with the new items and fields. -/
theorem within_rebuild (hσ : ∀ l, l.isLeaf = true → (σ l).isLeaf = true) {q b : Value}
    (h : Within q (rebuild σ items fields b)) : (∃ v, Within v b ∧ q = rebuild σ items fields v) ∨
      (∃ v ∈ items, Within q v) ∨ ∃ f ∈ fields, Within q f.2 := by
  induction b using induct_mem with
  | arr xs ih =>
    rw [rebuild_arr] at h
    rcases h.of_arr with rfl | ⟨w, hw, h⟩
    · exact .inl ⟨arr xs, .refl, (rebuild_arr ..).symm⟩
    · rcases List.mem_append.1 hw with hw | hw
      · exact .inr (.inl ⟨w, hw, h⟩)
      · obtain ⟨v, hv, rfl⟩ := List.mem_map.1 hw
        rcases ih v hv h with ⟨u, hu, hq⟩ | hnew
        · exact .inl ⟨u, .item hv hu, hq⟩
        · exact .inr hnew
  | obj xs ih =>
    rw [rebuild_obj] at h
    rcases h.of_obj with rfl | ⟨w, hw, h⟩
    · exact .inl ⟨obj xs, .refl, (rebuild_obj ..).symm⟩
    · rcases List.mem_append.1 hw with hw | hw
      · exact .inr (.inr ⟨w, hw, h⟩)
      · obtain ⟨f, hf, rfl⟩ := List.mem_map.1 hw
        rcases ih f hf h with ⟨u, hu, hq⟩ | hnew
        · exact .inl ⟨u, .field hf hu, hq⟩
        · exact .inr hnew
  | null => exact .inl ⟨_, .refl, h.of_leaf (hσ _ rfl)⟩
  | bool b => exact .inl ⟨_, .refl, h.of_leaf (hσ (.bool b) rfl)⟩
  | num n => exact .inl ⟨_, .refl, h.of_leaf (hσ (.num n) rfl)⟩
  | str s => exact .inl ⟨_, .refl, h.of_leaf (hσ (.str s) rfl)⟩

theorem rebuild_valid {b : Value} (hvalid : b.valid = true) (hapart : Apart fields b)
    (hσ : ∀ l, Within l b → l.isLeaf = true → (σ l).valid = true)
    (hitems : (arr items).valid = true) (hfields : (obj fields).valid = true) :
    (rebuild σ items fields b).valid = true := by
  induction b using induct_mem with
  | arr xs ih =>
    rw [rebuild_arr, valid_arr]
    intro v hv
    rcases List.mem_append.1 hv with hv | hv
    · exact valid_arr.1 hitems v hv
    · obtain ⟨u, hu, rfl⟩ := List.mem_map.1 hv
      exact ih u hu (valid_arr.1 hvalid u hu) (hapart.item u hu) fun l hl => hσ l (.item hu hl)
  | obj xs ih =>
    obtain ⟨hnodup, hall⟩ := valid_obj.1 hvalid
    obtain ⟨hnodup', hall'⟩ := valid_obj.1 hfields
    rw [rebuild_obj, valid_obj, List.map_append, List.map_map]
    refine ⟨hnodup'.append hnodup ?_, ?_⟩
    · intro k hk hk'
      obtain ⟨f, hf, rfl⟩ := List.mem_map.1 hk
      obtain ⟨g, hg, hkey⟩ := List.mem_map.1 hk'
      exact hapart.key f hf g hg hkey
    · intro f hf
      rcases List.mem_append.1 hf with hf | hf
      · exact hall' f hf
      · obtain ⟨g, hg, rfl⟩ := List.mem_map.1 hf
        exact ih g hg (hall g hg) (hapart.field g hg) fun l hl => hσ l (.field hg hl)
  | null => exact hσ _ .refl rfl
  | bool _ => exact hσ _ .refl rfl
  | num _ => exact hσ _ .refl rfl
  | str _ => exact hσ _ .refl rfl

end rebuild

/-! ## A new text -/

/-- A bound for each member of a list gives one for all of them. -/
theorem exists_uniform {α : Type} {P : Nat → α → Prop} (hmono : ∀ {n m x}, n ≤ m → P n x → P m x)
    {l : List α} (h : ∀ x ∈ l, ∃ n, P n x) : ∃ n, ∀ x ∈ l, P n x := by
  induction l with
  | nil => exact ⟨0, by simp⟩
  | cons x rest ih =>
    obtain ⟨n, hn⟩ := h x List.mem_cons_self
    obtain ⟨m, hm⟩ := ih fun y hy => h y (List.mem_cons_of_mem _ hy)
    refine ⟨max n m, List.forall_mem_cons.2 ⟨hmono (le_max_left _ _) hn, fun y hy => ?_⟩⟩
    exact hmono (le_max_right _ _) (hm y hy)

theorem EveryText.mono {P Q : String → Prop} (h : ∀ s, P s → Q s) {v : Value} :
    v.EveryText P → v.EveryText Q := by
  induction v using induct_mem with
  | arr items ih =>
    exact fun hP => everyTextItems_iff.2 fun v hv => ih v hv (everyTextItems_iff.1 hP v hv)
  | obj fields ih =>
    refine fun hP => everyTextFields_iff.2 fun f hf => ?_
    obtain ⟨hkey, hval⟩ := everyTextFields_iff.1 hP f hf
    exact ⟨h _ hkey, ih f hf hval⟩
  | str s => exact h s
  | _ => exact id

theorem exists_length_bound (v : Value) : ∃ n : Nat, v.EveryText (·.length < n) := by
  have hmono : ∀ {n m : Nat} {v : Value}, n ≤ m → v.EveryText (·.length < n) →
      v.EveryText (·.length < m) := fun hle => .mono fun _ hs => hs.trans_le hle
  induction v using induct_mem with
  | arr items ih =>
    obtain ⟨n, hn⟩ := exists_uniform (P := fun n (v : Value) => v.EveryText (·.length < n)) hmono ih
    exact ⟨n, everyTextItems_iff.2 hn⟩
  | obj fields ih =>
    obtain ⟨n, hn⟩ := exists_uniform (P := fun n f => f.1.length < n ∧ f.2.EveryText (·.length < n))
      (fun hle h => ⟨h.1.trans_le hle, hmono hle h.2⟩) (l := fields) fun f hf => by
        obtain ⟨n, hn⟩ := ih f hf
        exact ⟨max n (f.1.length + 1), by omega, hmono (le_max_left _ _) hn⟩
    exact ⟨n, everyTextFields_iff.2 hn⟩
  | str s => exact ⟨s.length + 1, Nat.lt_succ_self _⟩
  | _ => exact ⟨0, trivial⟩

/-- Some text is no string and no property name of a value. -/
theorem exists_new_text (v : Value) : ∃ s : String, v.EveryText (· ≠ s) := by
  obtain ⟨n, hn⟩ := exists_length_bound v
  refine ⟨.ofList (List.replicate n 'x'), ?_⟩
  refine hn.mono ?_
  rintro _ hlt rfl
  simp at hlt

end Value

end StateDrivenAgent
