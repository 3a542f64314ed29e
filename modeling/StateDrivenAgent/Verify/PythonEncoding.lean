import StateDrivenAgent.Verify.Canonical
import StateDrivenAgent.Verify.StrictJson

/-!
# The older encoding

`python_encoded` writes a value with the properties of every object in the order of their names.
What it writes is the text of the sorted value (`Value.sorted`, `pythonEncoded_toList`), so the
strict reader takes the sorted value back (`parseStrictJson_pythonEncoded`), and two values with
`i64` integers have one encoding if and only if they are the same up to the order of properties
(`pythonEncoded_eq_iff`).
-/

namespace StateDrivenAgent

open Text

/-- The properties in the order of their names. -/
def sortByName {α : Type} (fields : List (String × α)) : List (String × α) :=
  fields.insertionSort fun a b => a.1 ≤ b.1

section sortByName

variable {α β : Type}

theorem sortByName_perm (fields : List (String × α)) : (sortByName fields).Perm fields :=
  List.perm_insertionSort _ _

theorem mem_sortByName {fields : List (String × α)} {f : String × α} :
    f ∈ sortByName fields ↔ f ∈ fields := (sortByName_perm fields).mem_iff

theorem nodup_sortByName {fields : List (String × α)} :
    ((sortByName fields).map Prod.fst).Nodup ↔ (fields.map Prod.fst).Nodup :=
  ((sortByName_perm fields).map Prod.fst).nodup_iff

theorem map_sortByName (g : α → β) (fields : List (String × α)) :
    (sortByName fields).map (fun f => (f.1, g f.2)) =
      sortByName (fields.map fun f => (f.1, g f.2)) :=
  List.map_insertionSort _ _ _ fields fun _ _ _ _ => Iff.rfl

/-- Sorted properties stay as they are. -/
theorem sortByName_sortByName (fields : List (String × α)) :
    sortByName (sortByName fields) = sortByName fields :=
  List.Pairwise.insertionSort_eq (List.pairwise_insertionSort _ _)

/-- Of properties with different names, only the set counts. -/
theorem sortByName_eq_of_perm {as bs : List (String × α)} (hp : as.Perm bs)
    (hnodup : (as.map Prod.fst).Nodup) : sortByName as = sortByName bs := by
  have hperm : (sortByName as).Perm (sortByName bs) :=
    (sortByName_perm as).trans (hp.trans (sortByName_perm bs).symm)
  refine hperm.eq_of_pairwise ?_ (List.pairwise_insertionSort _ _) (List.pairwise_insertionSort _ _)
  intro a b ha hb hab hba
  have hmema : a ∈ as := mem_sortByName.1 ha
  have hmemb : b ∈ as := hp.mem_iff.2 (mem_sortByName.1 hb)
  exact List.inj_on_of_nodup_map hnodup hmema hmemb (le_antisymm hab hba)

theorem lookup_sortByName {fields : List (String × α)} (hn : (fields.map Prod.fst).Nodup)
    (k : String) : lookup k (sortByName fields) = lookup k fields := by
  cases hk : lookup k fields with
  | none =>
    rw [lookup_eq_none] at hk ⊢
    rwa [((sortByName_perm fields).map Prod.fst).mem_iff]
  | some v => exact lookup_of_mem (nodup_sortByName.2 hn) (mem_sortByName.2 (mem_of_lookup hk))

end sortByName

namespace Value

mutual

/-- The value with the properties of every object in the order of their names. -/
def sorted : Value → Value
  | arr items => arr (sortedItems items)
  | obj fields => obj (sortByName (sortedFields fields))
  | v => v

def sortedItems : List Value → List Value
  | [] => []
  | v :: vs => v.sorted :: sortedItems vs

def sortedFields : List (String × Value) → List (String × Value)
  | [] => []
  | (k, v) :: rest => (k, v.sorted) :: sortedFields rest

end

theorem sortedItems_eq (items : List Value) : sortedItems items = items.map sorted := by
  induction items with
  | nil => rfl
  | cons v vs ih => rw [sortedItems, ih, List.map_cons]

theorem sortedFields_eq (fields : List (String × Value)) :
    sortedFields fields = fields.map fun f => (f.1, f.2.sorted) := by
  induction fields with
  | nil => rfl
  | cons f rest ih =>
    obtain ⟨k, v⟩ := f
    rw [sortedFields, ih, List.map_cons]

theorem sorted_arr (items : List Value) : (arr items).sorted = arr (items.map sorted) := by
  rw [sorted, sortedItems_eq]

theorem sorted_obj (fields : List (String × Value)) :
    (obj fields).sorted = obj (sortByName (fields.map fun f => (f.1, f.2.sorted))) := by
  rw [sorted, sortedFields_eq]

theorem keys_map_sorted (fields : List (String × Value)) :
    (fields.map fun f => (f.1, f.2.sorted)).map Prod.fst = fields.map Prod.fst := by
  rw [List.map_map]
  rfl

theorem sorted_valid : ∀ {v : Value}, v.valid = true → v.sorted.valid = true := by
  intro v
  induction v using Value.induct_mem with
  | null | bool | num | str => exact id
  | arr items ih =>
    intro h
    rw [sorted_arr, valid_arr] at *
    intro w hw
    obtain ⟨v, hv, rfl⟩ := List.mem_map.1 hw
    exact ih v hv (h v hv)
  | obj fields ih =>
    intro h
    rw [sorted_obj, valid_obj] at *
    refine ⟨nodup_sortByName.2 (by rw [keys_map_sorted]; exact h.1), fun f hf => ?_⟩
    obtain ⟨g, hg, rfl⟩ := List.mem_map.1 (mem_sortByName.1 hf)
    exact ih g hg (h.2 g hg)

theorem sorted_everyNumber_iff {P : Number → Prop} :
    ∀ {v : Value}, v.sorted.EveryNumber P ↔ v.EveryNumber P := by
  intro v
  induction v using Value.induct_mem with
  | null | bool | num | str => exact Iff.rfl
  | arr items ih =>
    rw [sorted_arr, EveryNumber, EveryNumber, everyNumberItems_iff, everyNumberItems_iff,
      List.forall_mem_map]
    exact forall₂_congr ih
  | obj fields ih =>
    rw [sorted_obj, EveryNumber, EveryNumber, everyNumberFields_iff, everyNumberFields_iff]
    simp only [mem_sortByName, List.forall_mem_map]
    exact forall₂_congr ih

theorem sorted_sorted : ∀ v : Value, v.sorted.sorted = v.sorted := by
  intro v
  induction v using Value.induct_mem with
  | null | bool | num | str => rfl
  | arr items ih =>
    rw [sorted_arr, sorted_arr, List.map_map]
    exact congrArg arr (List.map_congr_left fun v hv => ih v hv)
  | obj fields ih =>
    rw [sorted_obj, sorted_obj, map_sortByName, sortByName_sortByName, List.map_map]
    have hmap : fields.map ((fun f => (f.1, f.2.sorted)) ∘ fun f => (f.1, f.2.sorted)) =
        fields.map fun f => (f.1, f.2.sorted) :=
      List.map_congr_left fun f hf => congrArg (Prod.mk f.1) (ih f hf)
    rw [hmap]

theorem depth_sorted : ∀ v : Value, v.sorted.depth = v.depth := by
  intro v
  induction v using Value.induct_mem with
  | null | bool | num | str => rfl
  | arr items ih =>
    rw [sorted_arr, depth, depth]
    refine congrArg (· + 1) (eq_of_forall_ge_iff fun n => ?_)
    rw [depthItems_le_iff, depthItems_le_iff, List.forall_mem_map]
    exact forall₂_congr fun v hv => by rw [ih v hv]
  | obj fields ih =>
    rw [sorted_obj, depth, depth]
    refine congrArg (· + 1) (eq_of_forall_ge_iff fun n => ?_)
    rw [depthFields_le_iff, depthFields_le_iff]
    simp only [mem_sortByName, List.forall_mem_map]
    exact forall₂_congr fun f hf => by rw [ih f hf]

theorem get_sorted {v : Value} (hv : v.valid = true) (k : String) :
    v.sorted.get k = (v.get k).map sorted := by
  cases v with
  | obj fields =>
    rw [sorted_obj, get_obj, get_obj]
    have hn : ((fields.map fun f => (f.1, f.2.sorted)).map Prod.fst).Nodup := by
      rw [keys_map_sorted]
      exact (valid_obj.1 hv).1
    rw [lookup_sortByName hn]
    clear hn hv
    induction fields with
    | nil => rfl
    | cons f rest ih =>
      rw [List.map_cons, lookup_cons, lookup_cons, ih]
      split <;> rfl
  | null | bool | num | str | arr => rfl

theorem index_sorted {v : Value} (hv : v.valid = true) (k : String) :
    v.sorted.index k = (v.index k).sorted := by
  rw [index, index, get_sorted hv]
  cases v.get k <;> rfl

theorem get_valid {v w : Value} {k : String} (hv : v.valid = true) (h : v.get k = some w) :
    w.valid = true := by
  cases v with
  | obj fields => exact (valid_obj.1 hv).2 _ (mem_of_lookup h)
  | null | bool | num | str | arr => cases h

theorem index_valid {v : Value} (hv : v.valid = true) (k : String) : (v.index k).valid = true := by
  rw [index]
  cases h : v.get k with
  | none => rfl
  | some w => exact get_valid hv h

theorem mem_insertField {k : String} {v : Value} {fields : List (String × Value)}
    {f : String × Value} (h : f ∈ insertField k v fields) : f ∈ fields ∨ f = (k, v) := by
  induction fields with
  | nil => exact .inr (List.mem_singleton.1 h)
  | cons g rest ih =>
    obtain ⟨k', w⟩ := g
    rw [insertField] at h
    split_ifs at h with hk
    · rcases List.mem_cons.1 h with rfl | h
      · exact .inr (by rw [hk])
      · exact .inl (List.mem_cons_of_mem _ h)
    · rcases List.mem_cons.1 h with rfl | h
      · exact .inl List.mem_cons_self
      · exact (ih h).imp (List.mem_cons_of_mem _) id

theorem valid_insertField {k : String} {v : Value} {fields : List (String × Value)}
    (h : (obj fields).valid = true) (hv : v.valid = true) :
    (obj (insertField k v fields)).valid = true := by
  obtain ⟨hnodup, hfields⟩ := valid_obj.1 h
  refine valid_obj.2 ⟨?_, fun f hf => ?_⟩
  · clear h hfields
    induction fields with
    | nil => exact List.nodup_singleton _
    | cons g rest ih =>
      obtain ⟨k', w⟩ := g
      rw [List.map_cons, List.nodup_cons] at hnodup
      rw [insertField]
      split_ifs with hk
      · exact List.nodup_cons.2 hnodup
      · refine List.nodup_cons.2 ⟨fun hmem => ?_, ih hnodup.2⟩
        obtain ⟨f, hf, hname⟩ := List.mem_map.1 hmem
        rcases mem_insertField hf with hf | rfl
        · exact hnodup.1 (List.mem_map.2 ⟨f, hf, hname⟩)
        · exact hk hname.symm
  · rcases mem_insertField hf with hf | rfl
    · exact hfields f hf
    · exact hv

theorem asStr_sorted (v : Value) : v.sorted.asStr = v.asStr := by cases v <;> rfl

theorem asI64_sorted (v : Value) : v.sorted.asI64 = v.asI64 := by cases v <;> rfl

theorem sorted_eq_str {v : Value} {s : String} : v.sorted = .str s ↔ v = .str s := by
  cases v <;> simp [sorted]

theorem get_sorted_str {v : Value} (hv : v.valid = true) {k s : String} :
    v.sorted.get k = some (.str s) ↔ v.get k = some (.str s) := by
  rw [get_sorted hv]
  cases v.get k with
  | none => simp
  | some w => simp [sorted_eq_str]

theorem asObject_length_sorted (v : Value) :
    v.sorted.asObject.map List.length = v.asObject.map List.length := by
  cases v with
  | obj fields =>
    rw [sorted_obj, asObject_obj, asObject_obj, Option.map_some, Option.map_some,
      (sortByName_perm _).length_eq, List.length_map]
  | null | bool | num | str | arr => rfl

theorem eqvItems_map {f : Value → Value} {as : List Value}
    (h : ∀ a ∈ as, ∀ b, (f a).eqv b = a.eqv b) (bs : List Value) :
    eqvItems (as.map f) bs = eqvItems as bs := by
  induction as generalizing bs with
  | nil => rfl
  | cons a as ih =>
    obtain ⟨ha, has⟩ := List.forall_mem_cons.1 h
    cases bs with
    | nil => rfl
    | cons b bs => rw [List.map_cons, eqvItems, eqvItems, ha, ih has]

theorem eqvFields_iff {as bs : List (String × Value)} :
    eqvFields as bs = true ↔ ∀ f ∈ as, ∃ b, lookup f.1 bs = some b ∧ f.2.eqv b = true := by
  induction as with
  | nil => simp [eqvFields]
  | cons f as ih =>
    obtain ⟨k, a⟩ := f
    rw [eqvFields, Bool.and_eq_true, ih, List.forall_mem_cons]
    refine and_congr_left fun _ => ?_
    cases lookup k bs <;> simp

theorem eqv_self : ∀ {v : Value}, v.valid = true → v.eqv v = true := by
  intro v
  induction v using Value.induct_mem with
  | null => exact fun _ => rfl
  | bool b => simp [eqv]
  | num n => cases n <;> simp [eqv, Number.eqv, F64.eqv]
  | str s => simp [eqv]
  | arr items ih =>
    intro h
    rw [valid_arr] at h
    rw [eqv]
    induction items with
    | nil => rfl
    | cons v vs ihvs =>
      obtain ⟨hv, hvs⟩ := List.forall_mem_cons.1 h
      obtain ⟨ihv, ihs⟩ := List.forall_mem_cons.1 ih
      rw [eqvItems, ihv hv, ihvs ihs hvs]
      rfl
  | obj fields ih =>
    intro h
    obtain ⟨hnodup, hfields⟩ := valid_obj.1 h
    rw [eqv, decide_eq_true rfl, Bool.true_and, eqvFields_iff]
    exact fun f hf => ⟨f.2, lookup_of_mem hnodup hf, ih f hf (hfields f hf)⟩

/-- serde's `==` does not look at the order of properties. -/
theorem sorted_eqv : ∀ a b : Value, a.sorted.eqv b = a.eqv b := by
  intro a
  induction a using Value.induct_mem with
  | null | bool | num | str => exact fun _ => rfl
  | arr items ih =>
    intro b
    rw [sorted_arr]
    cases b with
    | arr others =>
      rw [eqv, eqv]
      exact eqvItems_map ih others
    | null | bool | num | str | obj => rfl
  | obj fields ih =>
    intro b
    rw [sorted_obj]
    cases b with
    | obj others =>
      rw [eqv, eqv, (sortByName_perm _).length_eq, List.length_map]
      refine congrArg _ ?_
      rw [Bool.eq_iff_iff, eqvFields_iff, eqvFields_iff]
      simp only [mem_sortByName, List.forall_mem_map]
      exact forall₂_congr fun f hf => by simp only [ih f hf]
    | null | bool | num | str | arr => rfl

end Value

/-! ## What is written -/

namespace Identity

variable {host : Host}

theorem pythonItems_eq (items : List Value) :
    pythonItems host items = items.map (pythonEncoded host) := by
  induction items with
  | nil => rfl
  | cons v vs ih => rw [pythonItems, ih, List.map_cons]

theorem pythonFields_eq (fields : List (String × Value)) :
    pythonFields host fields = fields.map fun f => (f.1, pythonEncoded host f.2) := by
  induction fields with
  | nil => rfl
  | cons f rest ih =>
    obtain ⟨k, v⟩ := f
    rw [pythonFields, ih, List.map_cons]

theorem spelledItems_map (items : List Value) :
    spelledItems host items = items.map (spelled host) := by
  induction items with
  | nil => rfl
  | cons v vs ih => rw [spelledItems, ih, List.map_cons]

theorem spelledFields_map (fields : List (String × Value)) :
    spelledFields host fields = fields.map fun f => (f.1, spelled host f.2) := by
  induction fields with
  | nil => rfl
  | cons f rest ih =>
    obtain ⟨k, v⟩ := f
    rw [spelledFields, ih, List.map_cons]

/-- The encoding is the text of the sorted value. -/
theorem pythonEncoded_eq (v : Value) :
    pythonEncoded host v = .ofList (spelled host v.sorted).text := by
  induction v using Value.induct_mem with
  | null => rfl
  | bool b => cases b <;> rfl
  | num n => exact String.ofList_toList.symm
  | str s => rfl
  | arr items ih =>
    have hitems : items.map (pythonEncoded host) =
        (spelledItems host (items.map Value.sorted)).map fun x => .ofList x.text := by
      rw [spelledItems_map, List.map_map, List.map_map]
      exact List.map_congr_left ih
    rw [pythonEncoded, pythonItems_eq, hitems, joinWith_items, Value.sorted_arr, spelled]
    apply String.toList_injective
    simp [Spelling.text]
  | obj fields ih =>
    have hfields : (fields.map fun f => (f.1, pythonEncoded host f.2)) =
        (spelledFields host (fields.map fun f => (f.1, f.2.sorted))).map
          fun f => (f.1, String.ofList f.2.text) := by
      rw [spelledFields_map, List.map_map, List.map_map]
      exact List.map_congr_left fun f hf => congrArg (Prod.mk f.1) (ih f hf)
    have hsorted : spelledFields host (sortByName (fields.map fun f => (f.1, f.2.sorted))) =
        sortByName (spelledFields host (fields.map fun f => (f.1, f.2.sorted))) := by
      rw [spelledFields_map, spelledFields_map, map_sortByName]
    have hjoin := joinWith_fields
      (sortByName (spelledFields host (fields.map fun f => (f.1, f.2.sorted))))
    rw [pythonEncoded, pythonFields_eq, hfields, Value.sorted_obj, spelled, hsorted]
    have hmap := map_sortByName (fun x : Spelling => String.ofList x.text)
      (spelledFields host (fields.map fun f => (f.1, f.2.sorted)))
    unfold sortByName at hmap hjoin ⊢
    simp only [← hmap, List.map_map, Function.comp_def, hjoin]
    apply String.toList_injective
    simp [Spelling.text]

/-- A value the strict reader takes back from its text, with a bound on its depth. -/
structure Portable (limit : Nat) (v : Value) : Prop where
  valid : v.valid = true
  signed : v.EveryNumber Signed
  shallow : v.depth ≤ limit

theorem Portable.mono {v : Value} {limit limit' : Nat} (hle : limit ≤ limit') (h : Portable limit v) :
    Portable limit' v := ⟨h.valid, h.signed, h.shallow.trans hle⟩

theorem portable_str (limit : Nat) (s : String) : Portable limit (.str s) :=
  ⟨rfl, trivial, Nat.zero_le _⟩

theorem portable_int {limit : Nat} {i : Int} : Portable limit (.int i) ↔ I64.inRange i = true := by
  constructor
  · intro h
    exact h.signed i rfl
  · intro h
    have hrange := h
    simp only [I64.inRange, Bool.and_eq_true, decide_eq_true_eq] at hrange
    refine ⟨?_, ?_, Nat.zero_le _⟩
    · rw [Value.int, Value.valid_num]
      exact ⟨hrange.1, by omega⟩
    · rintro _ ⟨⟩
      exact h

theorem portable_obj {limit : Nat} {fields : List (String × Value)} :
    Portable (limit + 1) (.obj fields) ↔
      (fields.map Prod.fst).Nodup ∧ ∀ f ∈ fields, Portable limit f.2 := by
  have hdepth : (Value.obj fields).depth ≤ limit + 1 ↔ ∀ f ∈ fields, f.2.depth ≤ limit := by
    rw [Value.depth, Nat.add_le_add_iff_right, Value.depthFields_le_iff]
  constructor
  · rintro ⟨hvalid, hsigned, hshallow⟩
    rw [Value.EveryNumber, Value.everyNumberFields_iff] at hsigned
    obtain ⟨hnodup, hvalid⟩ := Value.valid_obj.1 hvalid
    exact ⟨hnodup, fun f hf => ⟨hvalid f hf, hsigned f hf, hdepth.1 hshallow f hf⟩⟩
  · rintro ⟨hnodup, h⟩
    refine ⟨Value.valid_obj.2 ⟨hnodup, fun f hf => (h f hf).valid⟩, ?_,
      hdepth.2 fun f hf => (h f hf).shallow⟩
    rw [Value.EveryNumber, Value.everyNumberFields_iff]
    exact fun f hf => (h f hf).signed

section reading

variable {v w : Value}

theorem tokens_spelled (hp : host.Prints) (hv : v.valid = true) :
    (spelled host v.sorted).Tokens :=
  (spelled_readable hp (Value.sorted_valid hv)).1

/-- The encoding is one line. -/
theorem pythonEncoded_no_control (hp : host.Prints) (hv : v.valid = true) :
    ∀ c ∈ (pythonEncoded host v).toList, 32 ≤ c.toNat := by
  rw [pythonEncoded_eq, String.toList_ofList]
  exact Spelling.text_no_control (tokens_spelled hp hv)

theorem ofText_pythonEncoded (hp : host.Prints) (hv : v.valid = true) :
    Spelling.ofText (pythonEncoded host v).toList = some (spelled host v.sorted) := by
  rw [pythonEncoded_eq, String.toList_ofList, ofText_text (tokens_spelled hp hv)]

/-- The strict reader takes the sorted value back. -/
theorem parseStrictJson_pythonEncoded (hp : host.Prints) (hr : host.ReadsText) (hv : Portable 127 v) :
    parseStrictJson host (pythonEncoded host v) = .ok v.sorted := by
  have hvalid := Value.sorted_valid hv.valid
  have hraw := hr.reads (ofText_pythonEncoded hp hv.valid) (spelled_readable hp hvalid).2
    (by rw [spelled_depth, Value.depth_sorted]; exact hv.shallow)
  rw [parseStrictJson, hraw]
  exact strict_spelled hp hvalid (Value.sorted_everyNumber_iff.2 hv.signed)

/-- Nothing else is read from the text of a document. -/
theorem portable_of_parseStrictJson (hp : host.Prints) (hr : host.ReadsBounded)
    (hv : v.valid = true) (h : parseStrictJson host (pythonEncoded host v) = .ok w) :
    Portable 127 v := by
  have hvalid := Value.sorted_valid hv
  have hread := ofText_pythonEncoded hp hv
  obtain ⟨x, hx, hstrict⟩ := bind_ok h
  have hshallow : v.depth ≤ 127 := by
    by_contra hdeep
    obtain ⟨e, he⟩ := hr.limit hread (by rw [spelled_depth, Value.depth_sorted]; omega)
    rw [he] at hx
    cases hx
  have hraw := hr.reads hread (spelled_readable hp hvalid).2
    (by rw [spelled_depth, Value.depth_sorted]; exact hshallow)
  obtain rfl : _ = x := Except.ok.inj (hraw.symm.trans hx)
  exact ⟨hv, Value.sorted_everyNumber_iff.1 (signed_of_spelled hp hvalid hstrict), hshallow⟩

/-- The encoding keeps everything but the order of properties. -/
theorem pythonEncoded_eq_iff (hp : host.Prints) (hv : v.valid = true) (hw : w.valid = true)
    (h : v.EveryNumber Signed) (h' : w.EveryNumber Signed) :
    pythonEncoded host v = pythonEncoded host w ↔ v.sorted = w.sorted := by
  rw [pythonEncoded_eq, pythonEncoded_eq]
  constructor
  · intro heq
    have hspelled := Spelling.text_injective (tokens_spelled hp hv) (tokens_spelled hp hw)
      (String.ofList_injective heq)
    have hstrict := strict_spelled hp (Value.sorted_valid hv) (Value.sorted_everyNumber_iff.2 h)
    rw [hspelled, strict_spelled hp (Value.sorted_valid hw) (Value.sorted_everyNumber_iff.2 h')] at hstrict
    exact (Except.ok.inj hstrict).symm
  · intro heq
    rw [heq]

theorem pythonEncoded_sorted (v : Value) :
    pythonEncoded host v.sorted = pythonEncoded host v := by
  rw [pythonEncoded_eq, pythonEncoded_eq, Value.sorted_sorted]

end reading

end Identity

end StateDrivenAgent
