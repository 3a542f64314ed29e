import StateDrivenAgent.Json.Document
import StateDrivenAgent.Verify.Numbers

/-!
# The canonical encoding

`canonical` writes the text of one spelled document (`canonical_eq`), the one with its properties
sorted by UTF-16 code units. Two values have one spelling exactly when they are equal as JSON values
(`spell_eq_iff`), and a text has one tree, so that the encoding identifies JSON values
(`canonical_eq_iff_same`). Reading the text again gives back the value it was written from, number by
number (`canonical_rereads_iff`).
-/

namespace StateDrivenAgent

open Text

/-! ## UTF-16 order -/

def utf16Units (c : Char) : List Nat :=
  if c.toNat < 0x10000 then [c.toNat]
  else [0xd800 + (c.toNat - 0x10000) / 0x400, 0xdc00 + (c.toNat - 0x10000) % 0x400]

theorem utf16_eq (s : String) : utf16 s = s.toList.flatMap utf16Units := rfl

theorem utf16Units_cancel {c d : Char} {as bs : List Nat}
    (h : utf16Units c ++ as = utf16Units d ++ bs) : c = d ∧ as = bs := by
  have hc : c.toNat < 0xd800 ∨ (0xdfff < c.toNat ∧ c.toNat < 0x110000) := c.valid
  have hd : d.toNat < 0xd800 ∨ (0xdfff < d.toNat ∧ d.toNat < 0x110000) := d.valid
  have hchar : c.toNat = d.toNat → c = d := by
    intro hnat
    rw [← Char.ofNat_toNat c, ← Char.ofNat_toNat d, hnat]
  rw [utf16Units, utf16Units] at h
  split at h <;> split at h <;>
    simp only [List.cons_append, List.nil_append, List.cons.injEq] at h
  · exact ⟨hchar h.1, h.2⟩
  · omega
  · omega
  · exact ⟨hchar (by omega), h.2.2⟩

theorem utf16_injective {s t : String} (h : utf16 s = utf16 t) : s = t := by
  have hlist : ∀ cs ds : List Char, cs.flatMap utf16Units = ds.flatMap utf16Units → cs = ds := by
    intro cs
    induction cs with
    | nil =>
      intro ds h
      cases ds with
      | nil => rfl
      | cons d ds =>
        rw [List.flatMap_cons, utf16Units] at h
        split at h <;> cases h
    | cons c cs ih =>
      intro ds h
      cases ds with
      | nil =>
        rw [List.flatMap_cons, utf16Units] at h
        split at h <;> cases h
      | cons d ds =>
        rw [List.flatMap_cons, List.flatMap_cons] at h
        obtain ⟨hcd, hrest⟩ := utf16Units_cancel h
        rw [hcd, ih ds hrest]
  rw [utf16_eq, utf16_eq] at h
  exact String.toList_injective (hlist _ _ h)

/-- The order in which `canonical` writes properties. -/
def KeyLe {α : Type} (a b : String × α) : Prop := utf16 a.1 ≤ utf16 b.1

instance {α : Type} : DecidableRel (@KeyLe α) :=
  fun a b => inferInstanceAs (Decidable (utf16 a.1 ≤ utf16 b.1))

section order
variable {α : Type}

instance : Std.Total (@KeyLe α) := ⟨fun a b => le_total (utf16 a.1) (utf16 b.1)⟩

instance : IsTrans (String × α) KeyLe :=
  ⟨fun _ b _ hab hbc => le_trans (b := utf16 b.1) hab hbc⟩

theorem eq_of_keyLe {a b : String × α} (hab : KeyLe a b) (hba : KeyLe b a) : a.1 = b.1 :=
  utf16_injective (le_antisymm hab hba)

/-- The properties sorted. -/
def sortFields (fields : List (String × α)) : List (String × α) := fields.insertionSort KeyLe

theorem sortFields_perm (fields : List (String × α)) : (sortFields fields).Perm fields :=
  List.perm_insertionSort _ _

theorem sortFields_sorted (fields : List (String × α)) : (sortFields fields).Pairwise KeyLe :=
  List.pairwise_insertionSort _ _

/-- Of properties with different names, only the set counts. -/
theorem sortFields_eq_of_perm {as bs : List (String × α)} (hp : as.Perm bs)
    (hnodup : (as.map Prod.fst).Nodup) : sortFields as = sortFields bs := by
  have hperm : (sortFields as).Perm (sortFields bs) :=
    (sortFields_perm as).trans (hp.trans (sortFields_perm bs).symm)
  refine hperm.eq_of_pairwise ?_ (sortFields_sorted as) (sortFields_sorted bs)
  intro a b ha hb hab hba
  have hmema : a ∈ as := (sortFields_perm as).mem_iff.1 ha
  have hmemb : b ∈ as := hp.mem_iff.2 ((sortFields_perm bs).mem_iff.1 hb)
  exact List.inj_on_of_nodup_map hnodup hmema hmemb (eq_of_keyLe hab hba)

end order

/-! ## The spelled document `canonical` writes -/

namespace Identity

mutual

def spell (host : Host) : Value → Except String Spelling
  | .null => .ok .null
  | .bool b => .ok (.bool b)
  | .str s => .ok (.str s)
  | .num n => do return .num (← canonicalNumber host n).toList
  | .arr items => do return .arr (← spellItems host items)
  | .obj fields => do return .obj (sortFields (← spellFields host fields))

def spellItems (host : Host) : List Value → Except String (List Spelling)
  | [] => .ok []
  | v :: vs => do
    let x ← spell host v
    return x :: (← spellItems host vs)

def spellFields (host : Host) : List (String × Value) → Except String (List (String × Spelling))
  | [] => .ok []
  | (k, v) :: rest => do
    let x ← spell host v
    return (k, x) :: (← spellFields host rest)

end

theorem jsonString_eq (s : String) : jsonString s = .ofList (Spelling.stringText s) := rfl

theorem joinWith_items (xs : List Spelling) :
    joinWith "," (xs.map fun x => .ofList x.text) = .ofList (Spelling.textItems xs) := by
  induction xs with
  | nil => rfl
  | cons x xs ih =>
    cases xs with
    | nil => rfl
    | cons y ys =>
      rw [List.map_cons, joinWith] at ih
      rw [List.map_cons, List.map_cons, joinWith, String.intercalate_cons_cons, ih,
        Spelling.textItems_cons_cons]
      apply String.toList_injective
      simp

theorem joinWith_fields (xs : List (String × Spelling)) :
    joinWith "," (xs.map fun f => jsonString f.1 ++ ":" ++ .ofList f.2.text) =
      .ofList (Spelling.textFields xs) := by
  induction xs with
  | nil => rfl
  | cons f xs ih =>
    obtain ⟨k, x⟩ := f
    cases xs with
    | nil =>
      apply String.toList_injective
      simp [joinWith, Spelling.textFields, jsonString_eq]
    | cons y ys =>
      rw [List.map_cons, joinWith] at ih
      rw [List.map_cons, List.map_cons, joinWith, String.intercalate_cons_cons, ih,
        Spelling.textFields_cons_cons]
      apply String.toList_injective
      simp [jsonString_eq]

mutual

/-- `canonical` writes the text of the spelled document. -/
theorem canonical_eq (host : Host) : ∀ v : Value,
    canonical host v = (spell host v).map fun x => .ofList x.text
  | .null | .str _ => rfl
  | .bool b => by cases b <;> rfl
  | .num n => by
    rw [canonical, spell]
    cases canonicalNumber host n with
    | error e => rfl
    | ok t =>
      show Except.ok t = Except.ok (.ofList (Spelling.num t.toList).text)
      rw [Spelling.text, String.ofList_toList]
  | .arr items => by
    rw [canonical, spell, canonicalItems_eq host items]
    cases spellItems host items with
    | error e => rfl
    | ok xs =>
      show Except.ok ("[" ++ joinWith "," (xs.map fun x => .ofList x.text) ++ "]") = _
      rw [joinWith_items]
      apply congrArg Except.ok
      apply String.toList_injective
      simp [Spelling.text]
  | .obj fields => by
    rw [canonical, spell, canonicalFields_eq host fields]
    cases spellFields host fields with
    | error e => rfl
    | ok xs =>
      have hsort : (xs.map fun f => (f.1, String.ofList f.2.text)).insertionSort
          (fun a b => utf16 a.1 ≤ utf16 b.1) =
            (sortFields xs).map fun f => (f.1, .ofList f.2.text) :=
        (List.map_insertionSort KeyLe _ (fun f => (f.1, String.ofList f.2.text)) xs
          fun _ _ _ _ => Iff.rfl).symm
      show Except.ok ("\x7b" ++ joinWith "," (((xs.map fun f => (f.1, String.ofList f.2.text)).insertionSort
        (fun a b => utf16 a.1 ≤ utf16 b.1)).map fun f => jsonString f.1 ++ ":" ++ f.2) ++ "\x7d") = _
      rw [hsort, List.map_map]
      show Except.ok ("\x7b" ++ joinWith "," ((sortFields xs).map fun f =>
        jsonString f.1 ++ ":" ++ .ofList f.2.text) ++ "\x7d") = _
      rw [joinWith_fields]
      apply congrArg Except.ok
      apply String.toList_injective
      simp [Spelling.text]

theorem canonicalItems_eq (host : Host) : ∀ items : List Value,
    canonicalItems host items =
      (spellItems host items).map fun xs => xs.map fun x => .ofList x.text
  | [] => rfl
  | v :: vs => by
    rw [canonicalItems, spellItems, canonical_eq host v, canonicalItems_eq host vs]
    cases spell host v with
    | error e => rfl
    | ok x => cases spellItems host vs <;> rfl

theorem canonicalFields_eq (host : Host) : ∀ fields : List (String × Value),
    canonicalFields host fields =
      (spellFields host fields).map fun xs => xs.map fun f => (f.1, .ofList f.2.text)
  | [] => rfl
  | (k, v) :: rest => by
    rw [canonicalFields, spellFields, canonical_eq host v, canonicalFields_eq host rest]
    cases spell host v with
    | error e => rfl
    | ok x => cases spellFields host rest <;> rfl

end

/-! ## One spelling for each JSON value -/

section same
variable {host : Host}

theorem spellItems_ok_iff {items : List Value} {xs : List Spelling} :
    spellItems host items = .ok xs ↔ List.Forall₂ (fun v x => spell host v = .ok x) items xs := by
  induction items generalizing xs with
  | nil => simp [spellItems, eq_comm]
  | cons v vs ih =>
    rw [spellItems]
    constructor
    · intro h
      obtain ⟨x, hx, h⟩ := bind_ok h
      obtain ⟨rest, hrest, h⟩ := bind_ok h
      rw [← Except.ok.inj h]
      exact .cons hx (ih.1 hrest)
    · rintro (_ | ⟨hx, hrest⟩)
      rw [hx, ih.2 hrest]
      rfl

theorem spellFields_ok_iff {fields : List (String × Value)} {xs : List (String × Spelling)} :
    spellFields host fields = .ok xs ↔
      List.Forall₂ (fun f g => f.1 = g.1 ∧ spell host f.2 = .ok g.2) fields xs := by
  induction fields generalizing xs with
  | nil => simp [spellFields, eq_comm]
  | cons f rest ih =>
    obtain ⟨k, v⟩ := f
    rw [spellFields]
    constructor
    · intro h
      obtain ⟨x, hx, h⟩ := bind_ok h
      obtain ⟨xs', hrest, h⟩ := bind_ok h
      rw [← Except.ok.inj h]
      exact .cons ⟨rfl, hx⟩ (ih.1 hrest)
    · intro h
      cases h with
      | @cons _ g _ xs' hf hrest =>
        obtain ⟨k', x⟩ := g
        obtain ⟨hk, hx⟩ := hf
        have hk : k = k' := hk
        have hx : spell host v = .ok x := hx
        rw [hx, ih.2 hrest, hk]
        rfl

theorem keys_of_spellFields {fields : List (String × Value)} {xs : List (String × Spelling)}
    (h : spellFields host fields = .ok xs) : fields.map Prod.fst = xs.map Prod.fst := by
  have hall := spellFields_ok_iff.1 h
  clear h
  induction hall with
  | nil => rfl
  | cons hf _ ih => rw [List.map_cons, List.map_cons, hf.1, ih]

theorem exists_spelled {fields : List (String × Value)} {xs : List (String × Spelling)}
    (h : spellFields host fields = .ok xs) {f : String × Value} (hf : f ∈ fields) :
    ∃ x, (f.1, x) ∈ xs ∧ spell host f.2 = .ok x := by
  have hall := spellFields_ok_iff.1 h
  clear h
  induction hall with
  | nil => cases hf
  | @cons f' g _ _ hfg _ ih =>
    rcases List.mem_cons.1 hf with rfl | hf
    · exact ⟨g.2, by rw [hfg.1]; exact List.mem_cons_self, hfg.2⟩
    · obtain ⟨x, hmem, hx⟩ := ih hf
      exact ⟨x, List.mem_cons_of_mem _ hmem, hx⟩

theorem exists_value {fields : List (String × Value)} {xs : List (String × Spelling)}
    (h : spellFields host fields = .ok xs) {g : String × Spelling} (hg : g ∈ xs) :
    ∃ v, (g.1, v) ∈ fields ∧ spell host v = .ok g.2 := by
  have hall := spellFields_ok_iff.1 h
  clear h
  induction hall with
  | nil => cases hg
  | @cons f g' _ _ hfg _ ih =>
    rcases List.mem_cons.1 hg with rfl | hg
    · exact ⟨f.2, by rw [← hfg.1]; exact List.mem_cons_self, hfg.2⟩
    · obtain ⟨v, hmem, hv⟩ := ih hg
      exact ⟨v, List.mem_cons_of_mem _ hmem, hv⟩

theorem sort_eq_iff {xs ys : List (String × Spelling)} (hx : (xs.map Prod.fst).Nodup) :
    sortFields xs = sortFields ys ↔ xs.length = ys.length ∧ ∀ f ∈ xs, f ∈ ys := by
  constructor
  · intro h
    have hp : xs.Perm ys := (sortFields_perm xs).symm.trans (h ▸ sortFields_perm ys)
    exact ⟨hp.length_eq, fun f hf => hp.mem_iff.1 hf⟩
  · rintro ⟨hlen, hsub⟩
    have hp : xs.Perm ys :=
      (List.subperm_of_subset (List.Nodup.of_map _ hx) hsub).perm_of_length_le (by omega)
    exact sortFields_eq_of_perm hp hx

theorem spell_num {n : Number} {x : Spelling} (h : spell host (.num n) = .ok x) :
    ∃ t, canonicalNumber host n = .ok t ∧ x = .num t.toList := by
  rw [spell] at h
  obtain ⟨t, ht, h⟩ := bind_ok h
  exact ⟨t, ht, (Except.ok.inj h).symm⟩

theorem spell_arr {items : List Value} {x : Spelling} (h : spell host (.arr items) = .ok x) :
    ∃ xs, spellItems host items = .ok xs ∧ x = .arr xs := by
  rw [spell] at h
  obtain ⟨xs, hxs, h⟩ := bind_ok h
  exact ⟨xs, hxs, (Except.ok.inj h).symm⟩

theorem spell_obj {fields : List (String × Value)} {x : Spelling}
    (h : spell host (.obj fields) = .ok x) :
    ∃ xs, spellFields host fields = .ok xs ∧ x = .obj (sortFields xs) := by
  rw [spell] at h
  obtain ⟨xs, hxs, h⟩ := bind_ok h
  exact ⟨xs, hxs, (Except.ok.inj h).symm⟩

/-- The constructor a value is made with. -/
def kind : Value → Nat
  | .null => 0
  | .bool _ => 1
  | .num _ => 2
  | .str _ => 3
  | .arr _ => 4
  | .obj _ => 5

def spelledKind : Spelling → Nat
  | .null => 0
  | .bool _ => 1
  | .num _ => 2
  | .str _ => 3
  | .arr _ => 4
  | .obj _ => 5

theorem spelledKind_eq {v : Value} {x : Spelling} (h : spell host v = .ok x) :
    spelledKind x = kind v := by
  cases v with
  | num n =>
    obtain ⟨t, -, rfl⟩ := spell_num h
    rfl
  | arr items =>
    obtain ⟨xs, -, rfl⟩ := spell_arr h
    rfl
  | obj fields =>
    obtain ⟨xs, -, rfl⟩ := spell_obj h
    rfl
  | _ =>
    rw [spell, Except.ok.injEq] at h
    rw [← h]
    rfl

theorem kind_eq_of_same {v w : Value} (h : v.same w = true) : kind v = kind w := by
  cases v <;> cases w <;> first | rfl | simp [Value.same] at h

mutual

/-- Two values have one spelling exactly when they are equal as JSON values. -/
theorem spell_eq_iff (hp : host.Prints) : ∀ {v w : Value} {x y : Spelling}, v.valid = true →
    w.valid = true → spell host v = .ok x → spell host w = .ok y → (x = y ↔ v.same w = true) := by
  intro v w x y hv hw hx hy
  by_cases hkind : kind v = kind w
  · cases v with
    | null =>
      cases w with
      | null =>
        rw [spell, Except.ok.injEq] at hx hy
        rw [← hx, ← hy]
        simp [Value.same]
      | _ => cases hkind
    | bool a =>
      cases w with
      | bool b =>
        rw [spell, Except.ok.injEq] at hx hy
        rw [← hx, ← hy]
        simp [Value.same]
      | _ => cases hkind
    | num n =>
      cases w with
      | num m =>
        obtain ⟨t, ht, rfl⟩ := spell_num hx
        obtain ⟨u, hu, rfl⟩ := spell_num hy
        rw [Spelling.num.injEq, Value.same, decide_eq_true_eq,
          ← canonicalNumber_eq_iff hp (Value.valid_num.1 hv) (Value.valid_num.1 hw) ht hu]
        exact ⟨fun h => String.toList_injective h, fun h => by rw [h]⟩
      | _ => cases hkind
    | str a =>
      cases w with
      | str b =>
        rw [spell, Except.ok.injEq] at hx hy
        rw [← hx, ← hy]
        simp [Value.same]
      | _ => cases hkind
    | arr as =>
      cases w with
      | arr bs =>
        obtain ⟨xs, hxs, rfl⟩ := spell_arr hx
        obtain ⟨ys, hys, rfl⟩ := spell_arr hy
        rw [Spelling.arr.injEq, Value.same]
        exact spellItems_eq_iff hp (Value.valid_arr.1 hv) (Value.valid_arr.1 hw) hxs hys
      | _ => cases hkind
    | obj as =>
      cases w with
      | obj bs =>
        obtain ⟨xs, hxs, rfl⟩ := spell_obj hx
        obtain ⟨ys, hys, rfl⟩ := spell_obj hy
        obtain ⟨hnodup, hall⟩ := Value.valid_obj.1 hv
        have hlen : xs.length = as.length := by
          have h := congrArg List.length (keys_of_spellFields hxs)
          simpa using h.symm
        have hlen' : ys.length = bs.length := by
          have h := congrArg List.length (keys_of_spellFields hys)
          simpa using h.symm
        rw [Spelling.obj.injEq, sort_eq_iff (keys_of_spellFields hxs ▸ hnodup), Value.same,
          Bool.and_eq_true, decide_eq_true_eq, hlen, hlen',
          spellFields_sub_iff hp hall hw hxs hys]
      | _ => cases hkind
  · refine iff_of_false ?_ fun h => hkind (kind_eq_of_same h)
    rintro rfl
    exact hkind ((spelledKind_eq hx).symm.trans (spelledKind_eq hy))

theorem spellItems_eq_iff (hp : host.Prints) : ∀ {as bs : List Value} {xs ys : List Spelling},
    (∀ v ∈ as, v.valid = true) → (∀ v ∈ bs, v.valid = true) → spellItems host as = .ok xs →
    spellItems host bs = .ok ys → (xs = ys ↔ Value.sameItems as bs = true)
  | [], bs, xs, ys, _, _, hx, hy => by
    rw [spellItems, Except.ok.injEq] at hx
    cases bs with
    | nil =>
      rw [spellItems, Except.ok.injEq] at hy
      rw [← hx, ← hy]
      simp [Value.sameItems]
    | cons b bs =>
      cases spellItems_ok_iff.1 hy
      rw [← hx]
      simp [Value.sameItems]
  | a :: as, bs, xs, ys, ha, hb, hx, hy => by
    cases spellItems_ok_iff.1 hx with
    | @cons _ x _ xs' hax hxs =>
      cases bs with
      | nil =>
        rw [spellItems, Except.ok.injEq] at hy
        rw [← hy]
        simp [Value.sameItems]
      | cons b bs =>
        cases spellItems_ok_iff.1 hy with
        | @cons _ y _ ys' hby hys =>
          obtain ⟨ha₁, ha₂⟩ := List.forall_mem_cons.1 ha
          obtain ⟨hb₁, hb₂⟩ := List.forall_mem_cons.1 hb
          rw [List.cons.injEq, spell_eq_iff hp ha₁ hb₁ hax hby, spellItems_eq_iff hp ha₂ hb₂
            (spellItems_ok_iff.2 hxs) (spellItems_ok_iff.2 hys), Value.sameItems, Bool.and_eq_true]

theorem spellFields_sub_iff (hp : host.Prints) : ∀ {as bs : List (String × Value)}
    {xs ys : List (String × Spelling)}, (∀ f ∈ as, f.2.valid = true) → (Value.obj bs).valid = true →
    spellFields host as = .ok xs → spellFields host bs = .ok ys →
    ((∀ f ∈ xs, f ∈ ys) ↔ Value.sameFields as bs = true)
  | [], bs, xs, ys, _, _, hx, hy => by
    rw [spellFields, Except.ok.injEq] at hx
    rw [← hx]
    simp [Value.sameFields]
  | (k, a) :: as, bs, xs, ys, ha, hb, hx, hy => by
    cases spellFields_ok_iff.1 hx with
    | @cons _ g _ xs' hag hxs =>
      obtain ⟨k', x⟩ := g
      obtain ⟨rfl, hax⟩ : k = k' ∧ spell host a = .ok x := hag
      obtain ⟨ha₁, ha₂⟩ := List.forall_mem_cons.1 ha
      obtain ⟨hnodup, hball⟩ := Value.valid_obj.1 hb
      rw [List.forall_mem_cons, spellFields_sub_iff hp ha₂ hb (spellFields_ok_iff.2 hxs) hy,
        Value.sameFields, Bool.and_eq_true]
      refine and_congr_left' ?_
      constructor
      · intro hmem
        obtain ⟨b, hkb, hbx⟩ := exists_value hy hmem
        rw [lookup_of_mem hnodup hkb]
        exact (spell_eq_iff hp ha₁ (hball _ hkb) hax hbx).1 rfl
      · intro hsame
        cases hlook : lookup k bs with
        | none => simp [hlook] at hsame
        | some b =>
          have hkb := mem_of_lookup hlook
          obtain ⟨y, hky, hby⟩ := exists_spelled hy hkb
          have hab : a.same b = true := by simpa [hlook] using hsame
          rw [(spell_eq_iff hp ha₁ (hball _ hkb) hax hby).2 hab]
          exact hky

end

theorem spell_of_canonical {v : Value} {t : String} (h : canonical host v = .ok t) :
    ∃ x, spell host v = .ok x ∧ t = .ofList x.text := by
  rw [canonical_eq] at h
  cases hx : spell host v with
  | error e =>
    rw [hx] at h
    cases h
  | ok x =>
    rw [hx] at h
    exact ⟨x, rfl, (Except.ok.inj h).symm⟩

mutual

theorem spell_grammatical (hp : host.Prints) : ∀ {v : Value} {x : Spelling},
    spell host v = .ok x → x.Grammatical
  | .null, x, h | .bool _, x, h | .str _, x, h => by
    rw [spell, Except.ok.injEq] at h
    rw [← h]
    trivial
  | .num n, x, h => by
    obtain ⟨t, ht, rfl⟩ := spell_num h
    exact canonicalNumber_grammatical hp ht
  | .arr items, x, h => by
    obtain ⟨xs, hxs, rfl⟩ := spell_arr h
    exact Spelling.grammaticalItems_iff.2 (spellItems_grammatical hp hxs)
  | .obj fields, x, h => by
    obtain ⟨xs, hxs, rfl⟩ := spell_obj h
    refine Spelling.grammaticalFields_iff.2 fun f hf => ?_
    exact spellFields_grammatical hp hxs f ((sortFields_perm xs).mem_iff.1 hf)

theorem spellItems_grammatical (hp : host.Prints) : ∀ {vs : List Value} {xs : List Spelling},
    spellItems host vs = .ok xs → ∀ x ∈ xs, x.Grammatical
  | [], xs, h => by
    rw [spellItems, Except.ok.injEq] at h
    simp [← h]
  | v :: vs, xs, h => by
    cases spellItems_ok_iff.1 h with
    | cons hx hxs =>
      exact List.forall_mem_cons.2
        ⟨spell_grammatical hp hx, spellItems_grammatical hp (spellItems_ok_iff.2 hxs)⟩

theorem spellFields_grammatical (hp : host.Prints) : ∀ {fields : List (String × Value)}
    {xs : List (String × Spelling)}, spellFields host fields = .ok xs → ∀ f ∈ xs, f.2.Grammatical
  | [], xs, h => by
    rw [spellFields, Except.ok.injEq] at h
    simp [← h]
  | (k, v) :: rest, xs, h => by
    cases spellFields_ok_iff.1 h with
    | cons hx hxs =>
      exact List.forall_mem_cons.2
        ⟨spell_grammatical hp hx.2, spellFields_grammatical hp (spellFields_ok_iff.2 hxs)⟩

end

/-- The canonical encoding identifies JSON values. -/
theorem canonical_eq_iff_same (hp : host.Prints) (v w : Document) {t u : String}
    (hv : canonical host v.value = .ok t) (hw : canonical host w.value = .ok u) :
    t = u ↔ v.value.same w.value = true := by
  obtain ⟨x, hx, rfl⟩ := spell_of_canonical hv
  obtain ⟨y, hy, rfl⟩ := spell_of_canonical hw
  rw [← spell_eq_iff hp v.valid w.valid hx hy]
  constructor
  · intro h
    exact Spelling.text_injective (spell_grammatical hp hx).tokens (spell_grammatical hp hy).tokens
      (String.ofList_injective h)
  · intro h
    rw [h]

/-- `1` and `1.0`, with the properties in another order, have one encoding. -/
theorem canonical_integer_double :
    "\x7b\"a\":1,\"b\":[0]\x7d" = "\x7b\"a\":1,\"b\":[0]\x7d" ↔
      (Value.obj [("b", .arr [.num (.float (F64.build true 0 (-1074)))]), ("a", .num (.int 1))]).same
        (.obj [("a", .num (.float (F64.ofInt 1))), ("b", .arr [.int 0])]) = true :=
  canonical_eq_iff_same exactHost_prints ⟨_, by decide +kernel⟩ ⟨_, by decide +kernel⟩
    (by decide +kernel) (by decide +kernel)

/-! ## Reading the encoding again -/

mutual

/-- Every token reads as a number with the same text, and the properties stand in order. -/
def Stable (host : Host) : Spelling → Prop
  | .num token => Rereads host (.ofList token)
  | .arr items => StableItems host items
  | .obj fields => StableFields host fields
  | _ => True

def StableItems (host : Host) : List Spelling → Prop
  | [] => True
  | x :: xs => Stable host x ∧ StableItems host xs

def StableFields (host : Host) : List (String × Spelling) → Prop
  | [] => True
  | (_, x) :: xs => Stable host x ∧ StableFields host xs

end

mutual

/-- Properties with different names in the order of `canonical`, at every depth. -/
def Ordered : Spelling → Prop
  | .arr items => OrderedItems items
  | .obj fields => (fields.map Prod.fst).Nodup ∧ fields.Pairwise KeyLe ∧ OrderedFields fields
  | _ => True

def OrderedItems : List Spelling → Prop
  | [] => True
  | x :: xs => Ordered x ∧ OrderedItems xs

def OrderedFields : List (String × Spelling) → Prop
  | [] => True
  | (_, x) :: xs => Ordered x ∧ OrderedFields xs

end

/-- Reading the spelled document gives a value that is spelled so. -/
def Returns (host : Host) (x : Spelling) : Prop :=
  ∃ w, strict x.raw = .ok w ∧ spell host w = .ok x

theorem strictFields_extends {xs : List (String × Raw)} {out fields : List (String × Value)}
    (h : strictFields out xs = .ok fields) :
    ∃ gs, fields = out ++ gs ∧ gs.map Prod.fst = xs.map Prod.fst := by
  induction xs generalizing out with
  | nil =>
    rw [strictFields, Except.ok.injEq] at h
    exact ⟨[], by rw [← h, List.append_nil], rfl⟩
  | cons x xs ih =>
    obtain ⟨k, x⟩ := x
    rw [strictFields] at h
    split at h
    · cases h
    next =>
      obtain ⟨v, -, h⟩ := bind_ok h
      obtain ⟨gs, rfl, hgs⟩ := ih h
      exact ⟨(k, v) :: gs, by simp, by rw [List.map_cons, List.map_cons, hgs]⟩

theorem keys_rawFields (xs : List (String × Spelling)) :
    (Spelling.rawFields xs).map Prod.fst = xs.map Prod.fst := by
  induction xs with
  | nil => rfl
  | cons x xs ih => rw [Spelling.rawFields, List.map_cons, List.map_cons, ih]

/-- Sorting keeps the properties of an ordered object, whatever their values. -/
theorem sortFields_of_keys {xs ys : List (String × Spelling)} (hs : ys.Pairwise KeyLe)
    (hk : xs.map Prod.fst = ys.map Prod.fst) : sortFields xs = xs := by
  refine List.Pairwise.insertionSort_eq ?_
  have hpair : ∀ zs : List (String × Spelling), zs.Pairwise KeyLe ↔
      (zs.map Prod.fst).Pairwise fun a b => utf16 a ≤ utf16 b := by
    intro zs
    rw [List.pairwise_map]
    rfl
  rw [hpair, hk, ← hpair]
  exact hs

mutual

theorem returns_iff : ∀ {x : Spelling}, Ordered x → (Returns host x ↔ Stable host x)
  | .null, _ => ⟨fun _ => trivial, fun _ => ⟨.null, rfl, rfl⟩⟩
  | .bool b, _ => ⟨fun _ => trivial, fun _ => ⟨.bool b, rfl, rfl⟩⟩
  | .str s, _ => ⟨fun _ => trivial, fun _ => ⟨.str s, rfl, rfl⟩⟩
  | .num token, _ => by
    rw [Stable, Rereads, String.toList_ofList]
    constructor
    · rintro ⟨w, hw, hx⟩
      have hkind := spelledKind_eq hx
      cases w with
      | num n =>
        obtain ⟨t, ht, htoken⟩ := spell_num hx
        refine ⟨n, hw, ?_⟩
        rw [Spelling.num.inj htoken, String.ofList_toList, ht]
      | _ => cases hkind
    · rintro ⟨n, hn, ht⟩
      refine ⟨.num n, hn, ?_⟩
      rw [spell, ht]
      show Except.ok (Spelling.num (String.ofList token).toList) = _
      rw [String.toList_ofList]
  | .arr items, h => by
    rw [Stable, ← returnsItems_iff h]
    constructor
    · rintro ⟨w, hw, hx⟩
      rw [Spelling.raw, strict] at hw
      obtain ⟨ws, hws, hw⟩ := bind_ok hw
      rw [← Except.ok.inj hw] at hx
      obtain ⟨xs, hxs, heq⟩ := spell_arr hx
      refine ⟨ws, hws, ?_⟩
      rw [Spelling.arr.inj heq, hxs]
    · rintro ⟨ws, hws, hxs⟩
      refine ⟨.arr ws, ?_, ?_⟩
      · rw [Spelling.raw, strict, hws]
        rfl
      · rw [spell, hxs]
        rfl
  | .obj fields, h => by
    obtain ⟨hnodup, hsorted, hfields⟩ := h
    have hiff : (∃ gs, strictFields [] (Spelling.rawFields fields) = .ok ([] ++ gs) ∧
        spellFields host gs = .ok fields) ↔ StableFields host fields :=
      returnsFields_iff hfields (by simpa using hnodup)
    rw [Stable, ← hiff]
    constructor
    · rintro ⟨w, hw, hx⟩
      rw [Spelling.raw, strict] at hw
      obtain ⟨ws, hws, hw⟩ := bind_ok hw
      rw [← Except.ok.inj hw] at hx
      obtain ⟨xs, hxs, heq⟩ := spell_obj hx
      obtain ⟨gs, hgs, hkeys⟩ := strictFields_extends hws
      rw [keys_rawFields] at hkeys
      rw [List.nil_append] at hgs
      have hsort : sortFields xs = xs :=
        sortFields_of_keys hsorted (by rw [← keys_of_spellFields hxs, hgs, hkeys])
      rw [hsort] at heq
      refine ⟨ws, hws, ?_⟩
      rw [hxs, Spelling.obj.inj heq]
    · rintro ⟨gs, hgs, hxs⟩
      refine ⟨.obj gs, ?_, ?_⟩
      · rw [Spelling.raw, strict, hgs]
        rfl
      · rw [spell, hxs]
        show Except.ok (Spelling.obj (sortFields fields)) = _
        rw [sortFields_of_keys hsorted rfl]

theorem returnsItems_iff : ∀ {xs : List Spelling}, OrderedItems xs →
    ((∃ ws, strictItems (Spelling.rawItems xs) = .ok ws ∧ spellItems host ws = .ok xs) ↔
      StableItems host xs)
  | [], _ => ⟨fun _ => trivial, fun _ => ⟨[], rfl, rfl⟩⟩
  | x :: xs, h => by
    rw [StableItems, ← returns_iff h.1, ← returnsItems_iff h.2]
    constructor
    · rintro ⟨ws, hws, hxs⟩
      rw [Spelling.rawItems, strictItems] at hws
      obtain ⟨w, hw, hws⟩ := bind_ok hws
      obtain ⟨rest, hrest, hws⟩ := bind_ok hws
      rw [← Except.ok.inj hws] at hxs
      cases spellItems_ok_iff.1 hxs with
      | cons hx hxs => exact ⟨⟨w, hw, hx⟩, rest, hrest, spellItems_ok_iff.2 hxs⟩
    · rintro ⟨⟨w, hw, hx⟩, ws, hws, hxs⟩
      refine ⟨w :: ws, ?_, spellItems_ok_iff.2 (.cons hx (spellItems_ok_iff.1 hxs))⟩
      rw [Spelling.rawItems, strictItems, hw, hws]
      rfl

theorem returnsFields_iff : ∀ {xs : List (String × Spelling)} {out : List (String × Value)},
    OrderedFields xs → (out.map Prod.fst ++ xs.map Prod.fst).Nodup →
    ((∃ gs, strictFields out (Spelling.rawFields xs) = .ok (out ++ gs) ∧
      spellFields host gs = .ok xs) ↔ StableFields host xs)
  | [], out, _, _ =>
    ⟨fun _ => trivial, fun _ => ⟨[], by simp [Spelling.rawFields, strictFields], rfl⟩⟩
  | (k, x) :: xs, out, h, hn => by
    have hnew : ¬ (lookup k out).isSome = true := by
      intro hsome
      rw [lookup_isSome_iff] at hsome
      exact (List.nodup_append.1 hn).2.2 k hsome k (by simp) rfl
    have hnext : ∀ v : Value, ((out ++ [(k, v)]).map Prod.fst ++ xs.map Prod.fst).Nodup := by
      intro v
      rw [List.map_append, List.append_assoc]
      exact hn
    rw [StableFields, ← returns_iff h.1]
    constructor
    · rintro ⟨gs, hgs, hxs⟩
      rw [Spelling.rawFields, strictFields, if_neg hnew] at hgs
      obtain ⟨v, hv, hgs⟩ := bind_ok hgs
      obtain ⟨rest, hrest, -⟩ := strictFields_extends hgs
      rw [List.append_assoc, List.append_cancel_left_eq] at hrest
      rw [hrest] at hxs hgs
      cases spellFields_ok_iff.1 hxs with
      | cons hx hxs =>
        refine ⟨⟨v, hv, hx.2⟩, (returnsFields_iff h.2 (hnext v)).1
          ⟨rest, ?_, spellFields_ok_iff.2 hxs⟩⟩
        rw [hgs]
        simp
    · rintro ⟨⟨v, hv, hx⟩, hstable⟩
      obtain ⟨gs, hgs, hxs⟩ := (returnsFields_iff h.2 (hnext v)).2 hstable
      refine ⟨(k, v) :: gs, ?_, spellFields_ok_iff.2 (.cons ⟨rfl, hx⟩ (spellFields_ok_iff.1 hxs))⟩
      rw [Spelling.rawFields, strictFields, if_neg hnew, hv]
      show strictFields (out ++ [(k, v)]) (Spelling.rawFields xs) = _
      rw [hgs]
      simp

end

theorem orderedItems_iff {xs : List Spelling} : OrderedItems xs ↔ ∀ x ∈ xs, Ordered x := by
  induction xs with
  | nil => simp [OrderedItems]
  | cons x xs ih => simp [OrderedItems, ih]

theorem orderedFields_iff {xs : List (String × Spelling)} :
    OrderedFields xs ↔ ∀ f ∈ xs, Ordered f.2 := by
  induction xs with
  | nil => simp [OrderedFields]
  | cons f xs ih => simp [OrderedFields, ih]

theorem stableItems_iff {xs : List Spelling} : StableItems host xs ↔ ∀ x ∈ xs, Stable host x := by
  induction xs with
  | nil => simp [StableItems]
  | cons x xs ih => simp [StableItems, ih]

theorem stableFields_iff {xs : List (String × Spelling)} :
    StableFields host xs ↔ ∀ f ∈ xs, Stable host f.2 := by
  induction xs with
  | nil => simp [StableFields]
  | cons f xs ih => simp [StableFields, ih]

/-- A property of all elements of an array carries over to their spellings. -/
theorem forall_spelledItems {P : Value → Prop} {Q : Spelling → Prop} {items : List Value}
    {xs : List Spelling} (h : spellItems host items = .ok xs)
    (hPQ : ∀ v ∈ items, ∀ x, spell host v = .ok x → (Q x ↔ P v)) :
    (∀ x ∈ xs, Q x) ↔ ∀ v ∈ items, P v := by
  have hall := spellItems_ok_iff.1 h
  clear h
  induction hall with
  | nil => simp
  | cons hx _ ih =>
    obtain ⟨hhead, htail⟩ := List.forall_mem_cons.1 hPQ
    rw [List.forall_mem_cons, List.forall_mem_cons]
    exact and_congr (hhead _ hx) (ih htail)

theorem forall_spelledFields {P : Value → Prop} {Q : Spelling → Prop}
    {fields : List (String × Value)} {xs : List (String × Spelling)}
    (h : spellFields host fields = .ok xs)
    (hPQ : ∀ f ∈ fields, ∀ x, spell host f.2 = .ok x → (Q x ↔ P f.2)) :
    (∀ g ∈ sortFields xs, Q g.2) ↔ ∀ f ∈ fields, P f.2 := by
  have hperm : (∀ g ∈ sortFields xs, Q g.2) ↔ ∀ g ∈ xs, Q g.2 :=
    forall_congr' fun g => imp_congr_left (sortFields_perm xs).mem_iff
  rw [hperm]
  constructor
  · intro hx f hf
    obtain ⟨x, hmem, hspell⟩ := exists_spelled h hf
    exact (hPQ f hf x hspell).1 (hx _ hmem)
  · intro hv g hg
    obtain ⟨v, hmem, hspell⟩ := exists_value h hg
    exact (hPQ _ hmem g.2 hspell).2 (hv _ hmem)

/-- Of a document the spelling is in order. -/
theorem spell_ordered : ∀ v : Value, v.valid = true → ∀ x, spell host v = .ok x → Ordered x := by
  intro v
  induction v using Value.induct_mem with
  | arr items ih =>
    intro hv x hx
    obtain ⟨xs, hxs, rfl⟩ := spell_arr hx
    rw [Value.valid_arr] at hv
    refine orderedItems_iff.2 ((forall_spelledItems (P := fun _ => True) hxs ?_).2 fun _ _ => trivial)
    exact fun v hmem x hx => iff_of_true (ih v hmem (hv v hmem) x hx) trivial
  | obj fields ih =>
    intro hv x hx
    obtain ⟨xs, hxs, rfl⟩ := spell_obj hx
    obtain ⟨hnodup, hall⟩ := Value.valid_obj.1 hv
    rw [keys_of_spellFields hxs] at hnodup
    refine ⟨((sortFields_perm xs).map Prod.fst).nodup_iff.2 hnodup, sortFields_sorted xs, ?_⟩
    refine orderedFields_iff.2
      ((forall_spelledFields (P := fun _ => True) hxs ?_).2 fun _ _ => trivial)
    exact fun f hmem x hx => iff_of_true (ih f hmem (hall f hmem) x hx) trivial
  | _ =>
    intro _ x hx
    have hkind := spelledKind_eq hx
    cases x with
    | arr _ => cases hkind
    | obj _ => cases hkind
    | _ => trivial

theorem spell_depth : ∀ v : Value, ∀ x, spell host v = .ok x → x.depth = v.depth := by
  intro v
  induction v using Value.induct_mem with
  | arr items ih =>
    intro x hx
    obtain ⟨xs, hxs, rfl⟩ := spell_arr hx
    have hdepth : Spelling.depthItems xs = Value.depthItems items := by
      refine eq_of_forall_ge_iff fun n => ?_
      rw [Spelling.depthItems_le_iff, Value.depthItems_le_iff]
      exact forall_spelledItems (P := fun v => v.depth ≤ n) (Q := fun x => x.depth ≤ n) hxs
        fun v hmem x hx => by rw [ih v hmem x hx]
    rw [Spelling.depth, Value.depth, hdepth]
  | obj fields ih =>
    intro x hx
    obtain ⟨xs, hxs, rfl⟩ := spell_obj hx
    have hdepth : Spelling.depthFields (sortFields xs) = Value.depthFields fields := by
      refine eq_of_forall_ge_iff fun n => ?_
      rw [Spelling.depthFields_le_iff, Value.depthFields_le_iff]
      exact forall_spelledFields (P := fun v => v.depth ≤ n) (Q := fun x => x.depth ≤ n) hxs
        fun f hmem x hx => by rw [ih f hmem x hx]
    rw [Spelling.depth, Value.depth, hdepth]
  | _ =>
    intro x hx
    have hkind := spelledKind_eq hx
    cases x with
    | arr _ => cases hkind
    | obj _ => cases hkind
    | _ => rfl

theorem spell_stable_iff (hp : host.Prints) : ∀ v : Value, ∀ x, spell host v = .ok x →
    (Stable host x ↔ v.EveryNumber (Rereadable host)) := by
  intro v
  induction v using Value.induct_mem with
  | num n =>
    intro x hx
    obtain ⟨t, ht, rfl⟩ := spell_num hx
    rw [Stable, String.ofList_toList]
    exact rereads_iff hp (canonicalNumber_of_ok ht)
  | arr items ih =>
    intro x hx
    obtain ⟨xs, hxs, rfl⟩ := spell_arr hx
    rw [Stable, stableItems_iff, Value.EveryNumber, Value.everyNumberItems_iff]
    exact forall_spelledItems hxs ih
  | obj fields ih =>
    intro x hx
    obtain ⟨xs, hxs, rfl⟩ := spell_obj hx
    rw [Stable, stableFields_iff, Value.EveryNumber, Value.everyNumberFields_iff]
    exact forall_spelledFields hxs ih
  | _ =>
    intro x hx
    have hkind := spelledKind_eq hx
    cases x with
    | arr _ => cases hkind
    | obj _ => cases hkind
    | num _ => cases hkind
    | _ => exact iff_of_true trivial trivial

/-- Exactly when a canonical text can be read and encoded again to the same text. -/
theorem canonical_rereads_iff (hp : host.Prints) (hr : host.Reads) (v : Document) {t : String}
    (h : canonical host v.value = .ok t) :
    (∃ w, parseStrictJson host t = .ok w ∧ canonical host w = .ok t) ↔
      v.value.depth ≤ 127 ∧ v.value.EveryNumber (Rereadable host) := by
  obtain ⟨x, hx, rfl⟩ := spell_of_canonical h
  have hgrammatical := spell_grammatical hp hx
  rw [← spell_depth v.value x hx, ← spell_stable_iff hp v.value x hx,
    ← returns_iff (spell_ordered v.value v.valid x hx)]
  by_cases hdepth : x.depth ≤ 127
  · have hread := hr.reads x hgrammatical hdepth
    rw [and_iff_right hdepth, Returns, parseStrictJson, hread]
    refine exists_congr fun w => and_congr_right fun _ => ?_
    constructor
    · intro hw
      obtain ⟨y, hy, htext⟩ := spell_of_canonical hw
      rw [hy, Spelling.text_injective (spell_grammatical hp hy).tokens hgrammatical.tokens
        (String.ofList_injective htext.symm)]
    · intro hw
      rw [canonical_eq, hw]
      rfl
  · obtain ⟨e, he⟩ := hr.limit x hgrammatical (by omega)
    refine iff_of_false ?_ fun hc => hdepth hc.1
    rintro ⟨w, hw, -⟩
    rw [parseStrictJson, he] at hw
    cases hw

theorem canonical_rereads_half : ∃ w, parseStrictJson exactHost "[0.5,0]" = .ok w ∧
    canonical exactHost w = .ok "[0.5,0]" :=
  (canonical_rereads_iff exactHost_prints exactHost_reads
    ⟨.arr [.num (.float (F64.ofRat (1 / 2))), .int 0], by decide +kernel⟩ (by decide +kernel)).2
    ⟨by decide, .inr (by decide +kernel), .inl (by decide +kernel), trivial⟩

/-- A double of `2 ^ 53` is written as an integer, and that integer has no encoding. -/
theorem canonical_not_reread : ¬ ∀ (host : Host) (v : Document) (t : String), host.Prints →
    host.Reads → canonical host v.value = .ok t →
    ∃ w, parseStrictJson host t = .ok w ∧ canonical host w = .ok t := by
  intro h
  obtain ⟨w, hw, hcanonical⟩ := h exactHost ⟨.num (.float (F64.ofInt (2 ^ 53))), by decide +kernel⟩
    "9007199254740992" exactHost_prints exactHost_reads (by decide +kernel)
  have hfail : (parseStrictJson exactHost "9007199254740992" >>= canonical exactHost) =
      .error "number outside I-JSON domain; use a string" := by decide +kernel
  rw [hw] at hfail
  have hfail : canonical exactHost w = .error "number outside I-JSON domain; use a string" := hfail
  rw [hfail] at hcanonical
  cases hcanonical

end same

end Identity

end StateDrivenAgent
