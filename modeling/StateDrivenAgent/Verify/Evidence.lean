import StateDrivenAgent.Go.Schema
import StateDrivenAgent.Java.Json
import StateDrivenAgent.Spec.Evidence
import StateDrivenAgent.Verify.Canonical
import StateDrivenAgent.Verify.Decimals

/-!
# Evidence matching in the three runtimes

Each runtime's `contains` is `Value.Covers` with the runtime's own comparison of leaves
(`go_contains_iff`, `rust_contains_iff`), Java's only on patterns without arrays or objects inside
arrays (`java_contains_iff`). The comparisons differ from equality of JSON values in Go's null, which
accepts everything, and on numbers: Go compares doubles, Rust and Java printed decimals. So a pattern
means the same in the three runtimes when it has no null, no array or object inside an array and no
number that one of the comparisons takes for another one (`evidence_agrees`).
-/

namespace StateDrivenAgent

open Decimal

/-- An integer that every runtime accepts is an `i64`. -/
def Number.Shared : Number → Prop
  | .int i => I64.inRange i = true
  | .float _ => True

/-- A value that every runtime accepts. -/
structure Value.Shared (v : Value) : Prop where
  valid : v.valid = true
  numbers : ∀ n, Within (.num n) v → n.Shared

/-- What `serde_json` prints for a double is a short numeral that reads back as the double. -/
def Host.Shows (host : Host) : Prop :=
  ∀ f : F64, ∃ n : Numeral, host.floatText f = .ofList n.text ∧ n.Brief ∧
    (F64.ofRat n.value).eqv f = true

/-- The decimal that `Double.toString` prints reads back as the double. -/
def Java.Platform.Shows (p : Java.Platform) : Prop :=
  ∀ f : F64, (F64.ofRat (p.decimal f)).eqv f = true

/-- The number a printed number stands for. -/
def Number.shown (host : Host) (n : Number) : Rat := read (n.text host).toList

/-- No other number that every runtime accepts is the same double, and the number is printed alike
whether it is an integer or a double. -/
def Number.Distinct (p : Java.Platform) (n : Number) : Prop :=
  ∀ m : Number, m.Shared → m.asF64.eqv n.asF64 = true →
    m.toRat = n.toRat ∧ m.shown p.host = n.shown p.host ∧ p.decimalValue m = p.decimalValue n

/-- A pattern with one meaning in the three runtimes. -/
structure Plain (p : Java.Platform) (b : Value) : Prop where
  null : ¬ Value.Within .null b
  flat : ∀ items, Value.Within (.arr items) b → ∀ v ∈ items, v.isLeaf = true
  numbers : ∀ n, Value.Within (.num n) b → n.Distinct p

/-- The three runtimes find a pattern in a value exactly when the value has it. -/
structure MatchesAlike (p : Java.Platform) (a b : Value) : Prop where
  go : Go.contains a b = true ↔ a.Matches b
  rust : Engine.contains p.host a b = true ↔ a.Matches b
  java : p.contains a b = true ↔ a.Matches b

/-! ## Numbers -/

namespace F64

theorem eqv_iff {f g : F64} : f.eqv g = true ↔ f = g ∨ (f.isZero = true ∧ g.isZero = true) := by
  simp [eqv]

theorem eqv_symm {f g : F64} (h : f.eqv g = true) : g.eqv f = true := by
  rw [eqv_iff] at *
  rcases h with rfl | ⟨hf, hg⟩
  · exact .inl rfl
  · exact .inr ⟨hg, hf⟩

theorem eqv_trans {f g h : F64} (hfg : f.eqv g = true) (hgh : g.eqv h = true) :
    f.eqv h = true := by
  rw [eqv_iff] at *
  rcases hfg with rfl | ⟨hf, hg⟩
  · exact hgh
  · rcases hgh with rfl | ⟨-, hh⟩
    · exact .inr ⟨hf, hg⟩
    · exact .inr ⟨hf, hh⟩

theorem eqv_refl (f : F64) : f.eqv f = true := eqv_iff.2 (.inl rfl)

end F64

namespace Number

/-- A number's double is the double nearest to its value. -/
theorem ofRat_toRat (n : Number) : (F64.ofRat n.toRat).eqv n.asF64 = true := by
  cases n with
  | int i =>
    show (F64.ofRat i).eqv (F64.ofInt i) = true
    rw [F64.ofRat_intCast]
    exact F64.eqv_refl _
  | float f =>
    by_cases hf : f.isZero = true
    · show (F64.ofRat f.toRat).eqv f = true
      rw [F64.toRat_of_isZero hf]
      exact F64.eqv_iff.2 (.inr ⟨Identity.ofRat_zero, hf⟩)
    · show (F64.ofRat f.toRat).eqv f = true
      rw [F64.ofRat_toRat (Bool.eq_false_iff.2 hf)]
      exact F64.eqv_refl _

/-- A decimal that both numbers' doubles are nearest to. -/
theorem eqv_of_nearest {n m : Number} {q : Rat} (hn : (F64.ofRat q).eqv n.asF64 = true)
    (hm : (F64.ofRat q).eqv m.asF64 = true) : n.asF64.eqv m.asF64 = true :=
  F64.eqv_trans (F64.eqv_symm hn) hm

theorem eqv_of_toRat_eq {n m : Number} (h : n.toRat = m.toRat) : n.asF64.eqv m.asF64 = true :=
  eqv_of_nearest n.ofRat_toRat (h ▸ m.ofRat_toRat)

/-- The numeral of an integer. -/
def numeral (i : Int) : Numeral where
  negative := decide (i < 0)
  whole := Nat.toDigits 10 i.natAbs
  fraction := []
  exponent := none
  whole_ne := Nat.toDigits_ne_nil
  whole_digits := allDigits_toDigits _
  whole_lead := toDigits_lead
  fraction_digits := allDigits_nil

theorem toString_numeral (i : Int) : toString i = .ofList (numeral i).text := by
  rw [← String.toList_inj, String.toList_ofList, toString_int_toList]
  simp [numeral, Numeral.text, Numeral.unsigned, Numeral.fractionText, Numeral.exponentText]

theorem value_numeral (i : Int) : (numeral i).value = i := by
  have hmag : (numeral i).magnitude = i.natAbs := by
    rw [Numeral.magnitude_of_plain rfl]
    exact_mod_cast digits_toDigits i.natAbs
  rw [Numeral.value, hmag, Nat.cast_natAbs]
  show (if decide (i < 0) = true then _ else _) = _
  by_cases h : i < 0
  · simp [h, abs_of_neg h]
  · simp [h, abs_of_nonneg (not_lt.1 h)]

theorem Shared.inRange {n : Number} (h : n.Shared) : n.InRange := by
  cases n with
  | int i =>
    simp only [Shared, I64.inRange, Bool.and_eq_true, decide_eq_true_eq] at h
    simp only [InRange]
    omega
  | float f => trivial

theorem brief_numeral {i : Int} (h : (int i).InRange) : (numeral i).Brief := by
  simp only [InRange] at h
  have hlen : (Nat.toDigits 10 i.natAbs).length ≤ 20 :=
    (Nat.length_toDigits_le_iff (by norm_num) (by norm_num)).2 (by norm_num; omega)
  refine ⟨?_, ?_, ?_, ?_⟩
  · show -2 ^ 31 ≤ (0 : Int)
    norm_num
  · show (0 : Int) < 2 ^ 31
    norm_num
  · show (Nat.toDigits 10 i.natAbs).length < 2 ^ 31
    omega
  · show 0 < 2 ^ 31
    norm_num

variable {host : Host}

/-- A printed number is a short numeral that reads back as the number's double. -/
theorem exists_numeral (hs : host.Shows) {n : Number} (hn : n.InRange) : ∃ p : Numeral,
    n.text host = .ofList p.text ∧ p.Brief ∧ (F64.ofRat p.value).eqv n.asF64 = true := by
  cases n with
  | int i =>
    refine ⟨numeral i, toString_numeral i, brief_numeral hn, ?_⟩
    rw [value_numeral]
    exact (Number.int i).ofRat_toRat
  | float f => exact hs f

theorem eqv_of_shown_eq (hs : host.Shows) {n m : Number} (hn : n.InRange) (hm : m.InRange)
    (h : n.shown host = m.shown host) : n.asF64.eqv m.asF64 = true := by
  obtain ⟨p, hp, -, hpn⟩ := exists_numeral hs hn
  obtain ⟨q, hq, -, hqm⟩ := exists_numeral hs hm
  rw [shown, shown, hp, hq, String.toList_ofList, String.toList_ofList, p.read_text,
    q.read_text] at h
  exact eqv_of_nearest hpn (h ▸ hqm)

/-- `decimal_equal` on printed numbers. -/
theorem decimalEqual_iff (hs : host.Shows) {n m : Number} (hn : n.InRange) (hm : m.InRange) :
    Engine.decimalEqual (n.text host) (m.text host) = true ↔ n.shown host = m.shown host := by
  obtain ⟨p, hp, hbp, -⟩ := exists_numeral hs hn
  obtain ⟨q, hq, hbq, -⟩ := exists_numeral hs hm
  rw [shown, shown, hp, hq, String.toList_ofList, String.toList_ofList, p.read_text, q.read_text,
    Engine.decimalEqual_text_iff hbp hbq]

theorem eqv_of_decimalValue_eq {p : Java.Platform} (hp : p.Shows) {n m : Number}
    (h : p.decimalValue n = p.decimalValue m) : n.asF64.eqv m.asF64 = true := by
  have hnear : ∀ n : Number, (F64.ofRat (p.decimalValue n)).eqv n.asF64 = true := by
    intro n
    cases n with
    | int i => exact (Number.int i).ofRat_toRat
    | float f => exact hp f
  exact eqv_of_nearest (hnear n) (h ▸ hnear m)

end Number

/-! ## Each runtime compares leaves -/

namespace Value

/-- Equal leaves that are no numbers, or numbers in a relation. -/
def LeafEq (R : Number → Number → Prop) (q l : Value) : Prop :=
  match l with
  | num m => ∃ n, q = num n ∧ R n m
  | l => q = l

theorem leafEq_iff_of {R S : Number → Number → Prop} {q l : Value}
    (h : ∀ n m, q = num n → l = num m → (R n m ↔ S n m)) : LeafEq R q l ↔ LeafEq S q l := by
  cases l with
  | num m =>
    constructor <;> rintro ⟨n, hq, hr⟩ <;> refine ⟨n, hq, ?_⟩
    · exact (h n m hq rfl).1 hr
    · exact (h n m hq rfl).2 hr
  | _ => rfl

/-- Equality of JSON values on leaves. -/
theorem same_leaf {q l : Value} (hl : l.isLeaf = true) :
    q.same l = true ↔ LeafEq (fun n m => n.toRat = m.toRat) q l := by
  cases l <;> cases q <;> simp_all [LeafEq, same, isLeaf]

theorem jsonEqual_leaf {q l : Value} (hl : l.isLeaf = true) :
    Go.jsonEqual q l = true ↔ LeafEq (fun n m => n.asF64.eqv m.asF64 = true) q l := by
  cases l with
  | bool b =>
    cases q with
    | bool a => simp [LeafEq, Go.jsonEqual, asBool, eq_comm (a := b)]
    | _ => simp [LeafEq, Go.jsonEqual]
  | _ => cases q <;> simp_all [LeafEq, Go.jsonEqual, isLeaf, asBool]

theorem typedEqual_leaf {host : Host} {q l : Value} (hl : l.isLeaf = true) :
    Engine.typedEqual host q l = true ↔
      LeafEq (fun n m => Engine.decimalEqual (n.text host) (m.text host) = true) q l := by
  cases l <;> cases q <;> simp_all [LeafEq, Engine.typedEqual, isLeaf, eqv]

theorem equal_leaf {p : Java.Platform} {q l : Value} (hl : l.isLeaf = true) :
    p.equal q l = true ↔ LeafEq (fun n m => p.decimalValue n = p.decimalValue m) q l := by
  cases l <;> cases q <;> simp_all [LeafEq, Java.Platform.equal, isLeaf]

/-! ## The runtimes' recursion -/

/-- A matcher that descends as `Covers` does, at least along one pattern. -/
theorem covers_of_descends {c : Value → Value → Bool} {leaf : Value → Value → Prop} {b : Value}
    (hobj : ∀ a fields, c a (obj fields) = true ↔ ∃ x, a = obj x ∧ ∀ f ∈ fields, ∃ q,
      lookup f.1 x = some q ∧ c q f.2 = true)
    (harr : ∀ a items, Within (arr items) b → (c a (arr items) = true ↔ ∃ x, a = arr x ∧
      ∀ v ∈ items, ∃ q ∈ x, c q v = true))
    (hleaf : ∀ a l, l.isLeaf = true → (c a l = true ↔ leaf a l)) (a : Value) :
    c a b = true ↔ Covers leaf a b := by
  induction b using induct_mem generalizing a with
  | arr items ih =>
    have hih := fun v hv => ih v hv fun a items' hw => harr a items' (.item hv hw)
    rw [harr a items .refl, covers_arr]
    constructor <;> rintro ⟨x, hx, hall⟩ <;> refine ⟨x, hx, fun v hv => ?_⟩ <;>
      obtain ⟨q, hq, hc⟩ := hall v hv
    · exact ⟨q, hq, (hih v hv q).1 hc⟩
    · exact ⟨q, hq, (hih v hv q).2 hc⟩
  | obj fields ih =>
    have hih := fun f hf => ih f hf fun a items' hw => harr a items' (.field hf hw)
    rw [hobj, covers_obj]
    constructor <;> rintro ⟨x, hx, hall⟩ <;> refine ⟨x, hx, fun f hf => ?_⟩ <;>
      obtain ⟨q, hq, hc⟩ := hall f hf
    · exact ⟨q, hq, (hih f hf q).1 hc⟩
    · exact ⟨q, hq, (hih f hf q).2 hc⟩
  | null => exact hleaf a _ rfl
  | bool _ => exact hleaf a _ rfl
  | num _ => exact hleaf a _ rfl
  | str _ => exact hleaf a _ rfl

theorem go_containsFields {x fields : List (String × Value)} :
    Go.containsFields x fields = true ↔
      ∀ f ∈ fields, ∃ q, lookup f.1 x = some q ∧ Go.contains q f.2 = true := by
  induction fields with
  | nil => simp [Go.containsFields]
  | cons f rest ih => simp [Go.containsFields, ih, Option.any_eq_true]

theorem go_containsItems {x items : List Value} : Go.containsItems x items = true ↔
    ∀ v ∈ items, ∃ q ∈ x, Go.contains q v = true := by
  induction items with
  | nil => simp [Go.containsItems]
  | cons v rest ih => simp [Go.containsItems, ih]

/-- `contains` in Go: a null of the pattern accepts everything. -/
theorem go_contains_iff {a b : Value} : Go.contains a b = true ↔
    Covers (fun q l => l = null ∨ LeafEq (fun n m => n.asF64.eqv m.asF64 = true) q l) a b := by
  refine covers_of_descends (fun a fields => ?_) (fun a items _ => ?_) (fun a l hl => ?_) a
  · cases a <;> simp [Go.contains, go_containsFields]
  · cases a <;> simp [Go.contains, go_containsItems]
  · cases l with
    | null => simp [Go.contains]
    | arr => cases hl
    | obj => cases hl
    | _ => rw [Go.contains, jsonEqual_leaf hl] <;> simp

section rust
variable {host : Host}

theorem rust_containsFields {x fields : List (String × Value)} :
    Engine.containsFields host x fields = true ↔
      ∀ f ∈ fields, ∃ q, lookup f.1 x = some q ∧ Engine.contains host q f.2 = true := by
  induction fields with
  | nil => simp [Engine.containsFields]
  | cons f rest ih =>
    rw [Engine.containsFields, Bool.and_eq_true, ih, List.forall_mem_cons]
    refine and_congr_left fun _ => ?_
    cases lookup f.1 x <;> simp

theorem rust_containsItems {x items : List Value} : Engine.containsItems host x items = true ↔
    ∀ v ∈ items, ∃ q ∈ x, Engine.contains host q v = true := by
  induction items with
  | nil => simp [Engine.containsItems]
  | cons v rest ih => simp [Engine.containsItems, ih]

/-- `contains` in Rust. -/
theorem rust_contains_iff {a b : Value} : Engine.contains host a b = true ↔
    Covers (LeafEq fun n m => Engine.decimalEqual (n.text host) (m.text host) = true) a b := by
  refine covers_of_descends (fun a fields => ?_) (fun a items _ => ?_) (fun a l hl => ?_) a
  · cases a <;> simp [Engine.contains, rust_containsFields]
  · cases a <;> simp [Engine.contains, rust_containsItems]
  · cases l with
    | arr => cases hl
    | obj => cases hl
    | _ => rw [Engine.contains, typedEqual_leaf hl] <;> simp

end rust

section java
variable {p : Java.Platform}

theorem java_containsFields {x fields : List (String × Value)} :
    p.containsFields x fields = true ↔
      ∀ f ∈ fields, ∃ q, lookup f.1 x = some q ∧ p.contains q f.2 = true := by
  induction fields with
  | nil => simp [Java.Platform.containsFields]
  | cons f rest ih => simp [Java.Platform.containsFields, ih, Option.any_eq_true]

theorem java_contains_leaf {a l : Value} (hl : l.isLeaf = true) : p.contains a l = p.equal a l := by
  cases l with
  | arr => cases hl
  | obj => cases hl
  | _ => rw [Java.Platform.contains] <;> simp

/-- `contains` in Java, on a pattern without arrays and objects inside its arrays. -/
theorem java_contains_iff {a b : Value}
    (hflat : ∀ items, Within (arr items) b → ∀ v ∈ items, v.isLeaf = true) :
    p.contains a b = true ↔
      Covers (LeafEq fun n m => p.decimalValue n = p.decimalValue m) a b := by
  refine covers_of_descends (fun a fields => ?_) (fun a items hw => ?_) (fun a l hl => ?_) a
  · cases a <;> simp [Java.Platform.contains, java_containsFields]
  · have hitems : ∀ v ∈ items, ∀ q, p.contains q v = p.equal q v :=
      fun v hv q => java_contains_leaf (hflat items hw v hv)
    cases a with
    | arr x =>
      simp only [Java.Platform.contains, List.all_eq_true, List.any_eq_true, arr.injEq,
        exists_eq_left']
      exact forall₂_congr fun v hv => exists_congr fun q => by rw [hitems v hv q]
    | _ => simp [Java.Platform.contains]
  · rw [java_contains_leaf hl, equal_leaf hl]

end java

/-! ## Patterns with one meaning -/

theorem Shared.within {q v : Value} (hv : v.Shared) (h : Within q v) : q.Shared :=
  ⟨h.valid hv.valid, fun n hn => hv.numbers n (hn.trans h)⟩

theorem Shared.num {n : Number} (h : (num n).Shared) : n.Shared := h.numbers n .refl

/-- A comparison of leaves that is equality of JSON values wherever a pattern needs it. -/
theorem covers_iff_matches {leaf : Value → Value → Prop} {a b : Value} (ha : a.Shared)
    (h : ∀ q l, q.Shared → Within l b → l.isLeaf = true → (leaf q l ↔ q.same l = true)) :
    Covers leaf a b ↔ a.Matches b :=
  covers_congr fun q l hq hl hleaf => h q l (ha.within hq) hl hleaf

section plain
variable {p : Java.Platform} {b : Value}

/-- Numbers compared by something that separates values and determines the double. -/
theorem leafEq_iff_same {R : Number → Number → Prop} {q l : Value} (hl : l.isLeaf = true)
    (hR : ∀ n m, q = num n → l = num m → (R n m ↔ n.toRat = m.toRat)) :
    LeafEq R q l ↔ q.same l = true := by
  rw [same_leaf hl]
  exact leafEq_iff_of hR

theorem matchesAlike_of_plain (hs : p.host.Shows) (hp : p.Shows) (hb : b.Shared)
    (hplain : Plain p b) {a : Value} (ha : a.Shared) : MatchesAlike p a b where
  go := by
    rw [go_contains_iff]
    refine covers_iff_matches ha fun q l hq hl hleaf => ?_
    have hnull : l ≠ null := by
      rintro rfl
      exact hplain.null hl
    rw [or_iff_right hnull]
    refine leafEq_iff_same hleaf fun n m hn hm => ?_
    subst hn hm
    exact ⟨fun h => (hplain.numbers m hl n hq.num h).1, Number.eqv_of_toRat_eq⟩
  rust := by
    rw [rust_contains_iff]
    refine covers_iff_matches ha fun q l hq hl hleaf => leafEq_iff_same hleaf fun n m hn hm => ?_
    subst hn hm
    have hm := (hb.within hl).num
    rw [Number.decimalEqual_iff hs hq.num.inRange hm.inRange]
    constructor
    · exact fun h => (hplain.numbers m hl n hq.num
        (Number.eqv_of_shown_eq hs hq.num.inRange hm.inRange h)).1
    · exact fun h => (hplain.numbers m hl n hq.num (Number.eqv_of_toRat_eq h)).2.1
  java := by
    rw [java_contains_iff hplain.flat]
    refine covers_iff_matches ha fun q l hq hl hleaf => leafEq_iff_same hleaf fun n m hn hm => ?_
    subst hn hm
    constructor
    · exact fun h => (hplain.numbers m hl n hq.num (Number.eqv_of_decimalValue_eq hp h)).1
    · exact fun h => (hplain.numbers m hl n hq.num (Number.eqv_of_toRat_eq h)).2.2

end plain

/-! ## Values on which the runtimes differ -/

theorem leafEq_refl {R : Number → Number → Prop} (hR : ∀ n, R n n) (l : Value) : LeafEq R l l := by
  cases l with
  | num n => exact ⟨n, rfl, hR n⟩
  | _ => rfl

theorem rebuild_shared {σ : Value → Value} {items : List Value} {fields : List (String × Value)}
    {b : Value} (hb : b.Shared) (hapart : Apart fields b)
    (hleaf : ∀ l, l.isLeaf = true → (σ l).isLeaf = true)
    (hσ : ∀ l, Within l b → l.isLeaf = true → (σ l).Shared) (hitems : (arr items).Shared)
    (hfields : (obj fields).Shared) : (rebuild σ items fields b).Shared := by
  refine ⟨rebuild_valid hb.valid hapart (fun l hl h => (hσ l hl h).valid) hitems.valid
    hfields.valid, fun n hn => ?_⟩
  rcases within_rebuild hleaf hn with ⟨v, hv, hq⟩ | ⟨v, hv, hq⟩ | ⟨f, hf, hq⟩
  · by_cases hl : v.isLeaf = true
    · rw [rebuild_leaf _ _ _ hl] at hq
      exact (hσ v hv hl).numbers n (hq ▸ .refl)
    · cases v with
      | arr => simp [rebuild] at hq
      | obj => simp [rebuild] at hq
      | _ => exact absurd rfl hl
  · exact hitems.numbers n (.item hv hq)
  · exact hfields.numbers n (.field hf hq)

/-- The pattern itself with other leaves. -/
theorem within_relabel {σ : Value → Value} (hleaf : ∀ l, l.isLeaf = true → (σ l).isLeaf = true)
    {q b : Value} (hq : q.isLeaf = true) (h : Within q (rebuild σ [] [] b)) :
    ∃ l, Within l b ∧ l.isLeaf = true ∧ q = σ l := by
  rcases within_rebuild hleaf h with ⟨v, hv, rfl⟩ | ⟨v, hv, -⟩ | ⟨f, hf, -⟩
  · by_cases hl : v.isLeaf = true
    · exact ⟨v, hv, hl, rebuild_leaf _ _ _ hl⟩
    · cases v with
      | arr => rw [rebuild_arr] at hq; cases hq
      | obj => rw [rebuild_obj] at hq; cases hq
      | _ => exact absurd rfl hl
  · cases hv
  · cases hf

theorem shared_nil : (arr []).Shared ∧ (obj []).Shared := by
  refine ⟨⟨rfl, fun n hn => ?_⟩, ⟨rfl, fun n hn => ?_⟩⟩
  · obtain h | ⟨w, hw, -⟩ := hn.of_arr
    · cases h
    · cases hw
  · obtain h | ⟨f, hf, -⟩ := hn.of_obj
    · cases h
    · cases hf

theorem relabel_shared {σ : Value → Value} {b : Value} (hb : b.Shared)
    (hleaf : ∀ l, l.isLeaf = true → (σ l).isLeaf = true)
    (hσ : ∀ l, Within l b → l.isLeaf = true → (σ l).Shared) : (rebuild σ [] [] b).Shared :=
  rebuild_shared hb (fun _ hf => by cases hf) hleaf hσ shared_nil.1 shared_nil.2

theorem covers_relabel {σ : Value → Value} {leaf : Value → Value → Prop} {b : Value}
    (hb : b.Shared) (h : ∀ l, Within l b → l.isLeaf = true → leaf (σ l) l) :
    Covers leaf (rebuild σ [] [] b) b :=
  covers_rebuild hb.valid (fun _ hf => by cases hf) h

/-- A text in the place of each null. -/
def fillNull : Value → Value
  | null => str ""
  | v => v

/-- A number in the place of each number of one value. -/
def swapNumber (n m : Number) : Value → Value
  | num k => if k.toRat = n.toRat then num m else num k
  | v => v

theorem fillNull_leaf (l : Value) (h : l.isLeaf = true) : l.fillNull.isLeaf = true := by
  cases l with
  | null => rfl
  | _ => exact h

theorem swapNumber_leaf (n m : Number) (l : Value) (h : l.isLeaf = true) :
    (l.swapNumber n m).isLeaf = true := by
  cases l with
  | num k =>
    rw [swapNumber]
    split <;> rfl
  | _ => exact h

theorem shared_num {n : Number} (h : n.Shared) : (num n).Shared where
  valid := valid_num.2 h.inRange
  numbers k hk := by
    cases hk.of_leaf rfl
    exact h

/-- Go's null. -/
theorem exists_null {p : Java.Platform} {b : Value} (hb : b.Shared) (hnull : Within null b) :
    ∃ a : Value, a.Shared ∧ ¬ MatchesAlike p a b := by
  refine ⟨rebuild fillNull [] [] b, relabel_shared hb fillNull_leaf fun l hl hleaf => ?_, ?_⟩
  · cases l with
    | null => exact ⟨rfl, fun n hn => by cases hn⟩
    | _ => exact hb.within hl
  · intro halike
    have hgo : Go.contains (rebuild fillNull [] [] b) b = true := by
      rw [go_contains_iff]
      refine covers_relabel hb fun l hl hleaf => ?_
      cases l with
      | null => exact .inl rfl
      | _ => exact .inr (leafEq_refl (fun n => F64.eqv_refl _) _)
    refine not_covers rfl hnull (fun q hq hsame => ?_) (halike.go.1 hgo)
    rw [same_leaf rfl] at hsame
    obtain rfl : q = null := hsame
    obtain ⟨l, -, -, hl⟩ := within_relabel fillNull_leaf rfl hq
    cases l <;> cases hl

section numbers
variable {p : Java.Platform} {b : Value} {n m : Number}

theorem swap_shared (hb : b.Shared) (hm : m.Shared) :
    (rebuild (swapNumber n m) [] [] b).Shared := by
  refine relabel_shared hb (swapNumber_leaf n m) fun l hl hleaf => ?_
  cases l with
  | num k =>
    rw [swapNumber]
    split
    · exact shared_num hm
    · exact hb.within hl
  | _ => exact hb.within hl

theorem covers_swap {R : Number → Number → Prop} (hb : b.Shared) (hrefl : ∀ k, R k k)
    (hR : ∀ k, k.toRat = n.toRat → R m k) :
    Covers (LeafEq R) (rebuild (swapNumber n m) [] [] b) b := by
  refine covers_relabel hb fun l hl hleaf => ?_
  cases l with
  | num k =>
    rw [swapNumber]
    split
    next h => exact ⟨m, rfl, hR k h⟩
    next h => exact ⟨k, rfl, hrefl k⟩
  | _ => exact leafEq_refl hrefl _

/-- No number of the value with the numbers swapped is related to the number swapped away. -/
theorem not_covers_swap {R : Number → Number → Prop} (hn : Within (num n) b) (hm : ¬ R m n)
    (hR : ∀ k, Within (num k) b → k.toRat ≠ n.toRat → ¬ R k n) :
    ¬ Covers (LeafEq R) (rebuild (swapNumber n m) [] [] b) b := by
  refine not_covers rfl hn fun q hq hleaf => ?_
  obtain ⟨k, rfl, hk⟩ := hleaf
  obtain ⟨l, hl, hisLeaf, hnum⟩ := within_relabel (swapNumber_leaf n m) rfl hq
  cases l with
  | num j =>
    rw [swapNumber] at hnum
    split at hnum
    · cases hnum
      exact hm hk
    next hj =>
      obtain rfl := num.inj hnum
      exact hR _ hl hj hk
  | _ => cases hnum

theorem matches_iff_covers {a b : Value} :
    a.Matches b ↔ Covers (LeafEq fun n m => n.toRat = m.toRat) a b :=
  covers_congr fun _ _ _ _ hl => same_leaf hl

/-- Go takes no other number for a number of the pattern. -/
theorem toRat_eq_of_alike (hb : b.Shared) (hn : Within (num n) b)
    (halike : ∀ a : Value, a.Shared → MatchesAlike p a b) (hm : m.Shared)
    (hdouble : m.asF64.eqv n.asF64 = true) : m.toRat = n.toRat := by
  by_contra hne
  have hgo : Go.contains (rebuild (swapNumber n m) [] [] b) b = true := by
    rw [go_contains_iff]
    refine Covers.mono (covers_swap hb (fun k => F64.eqv_refl k.asF64) fun k hk => ?_)
      fun q l _ _ _ => .inr
    exact F64.eqv_trans hdouble (Number.eqv_of_toRat_eq hk.symm)
  have hmatches := (halike _ (swap_shared hb hm)).go.1 hgo
  exact not_covers_swap hn hne (fun k _ hk => hk) (matches_iff_covers.1 hmatches)

/-- A runtime that compares numbers by something that tells different doubles apart finds a number
of the pattern however it is written. -/
theorem related_of_alike {R : Number → Number → Prop} (hb : b.Shared) (hn : Within (num n) b)
    (halike : ∀ a : Value, a.Shared → MatchesAlike p a b) (hm : m.Shared)
    (hdouble : m.asF64.eqv n.asF64 = true)
    (hR : ∀ k, k.Shared → R k n → k.asF64.eqv n.asF64 = true)
    (hc : Matches (rebuild (swapNumber n m) [] [] b) b →
      Covers (LeafEq R) (rebuild (swapNumber n m) [] [] b) b) : R m n := by
  by_contra hne
  have hvalue := toRat_eq_of_alike hb hn halike hm hdouble
  have hmatches : Matches (rebuild (swapNumber n m) [] [] b) b :=
    matches_iff_covers.2 (covers_swap hb (fun _ => rfl) fun k hk => hvalue.trans hk.symm)
  refine not_covers_swap hn hne (fun k hk hne hkn => hne ?_) (hc hmatches)
  have hk := (hb.within hk).num
  exact toRat_eq_of_alike hb hn halike hk (hR k hk hkn)

theorem distinct_of_alike (hs : p.host.Shows) (hp : p.Shows) (hb : b.Shared)
    (hflat : ∀ items, Within (arr items) b → ∀ v ∈ items, v.isLeaf = true)
    (hn : Within (num n) b) (halike : ∀ a : Value, a.Shared → MatchesAlike p a b) :
    n.Distinct p := by
  intro m hm hdouble
  have hnShared := (hb.within hn).num
  refine ⟨toRat_eq_of_alike hb hn halike hm hdouble, ?_, ?_⟩
  · refine related_of_alike (R := fun k n => k.shown p.host = n.shown p.host) hb hn halike hm hdouble
      (fun k hk h => Number.eqv_of_shown_eq hs hk.inRange hnShared.inRange h) fun hmatches => ?_
    have hrust := (halike _ (swap_shared hb hm)).rust.2 hmatches
    rw [rust_contains_iff] at hrust
    refine hrust.mono fun q l hq hl _ => (leafEq_iff_of fun j k hj hk => ?_).1
    subst hj hk
    exact Number.decimalEqual_iff hs ((swap_shared hb hm).within hq).num.inRange
      (hb.within hl).num.inRange
  · refine related_of_alike (R := fun k n => p.decimalValue k = p.decimalValue n) hb hn halike hm
      hdouble (fun k _ h => Number.eqv_of_decimalValue_eq hp h) fun hmatches => ?_
    exact (java_contains_iff hflat).1 ((halike _ (swap_shared hb hm)).java.2 hmatches)

end numbers

/-! ### Java's arrays -/

section arrays
variable {p : Java.Platform} {s : String}

/-- A text in front of every array, and a property of that name in every object. -/
def grow (s : String) : Value → Value := rebuild id [str s] [(s, null)]

theorem equal_grow {u v : Value} (hv : v.isLeaf = false) (hnew : v.EveryText (· ≠ s)) :
    p.equal (grow s u) v = false := by
  rw [Bool.eq_false_iff]
  intro h
  cases v with
  | arr ys =>
    cases u with
    | arr xs =>
      rw [grow, rebuild_arr, Java.Platform.equal] at h
      cases ys with
      | nil => simp at h
      | cons y ys =>
        have hhead : p.equal (str s) y = true := by
          simp only [List.singleton_append, Java.Platform.equalItems, Bool.and_eq_true] at h
          exact h.2.1
        cases y with
        | str t =>
          have ht : s = t := by simpa [Java.Platform.equal] using hhead
          exact everyTextItems_iff.1 hnew _ List.mem_cons_self ht.symm
        | _ => simp [Java.Platform.equal] at hhead
    | obj xs => simp [grow, rebuild_obj, Java.Platform.equal] at h
    | _ => simp [grow, rebuild, Java.Platform.equal] at h
  | obj ys =>
    cases u with
    | obj xs =>
      rw [grow, rebuild_obj, Java.Platform.equal] at h
      simp only [List.singleton_append, Java.Platform.equalFields, Bool.and_eq_true,
        Option.any_eq_true] at h
      obtain ⟨-, ⟨w, hw, -⟩, -⟩ := h
      exact (everyTextFields_iff.1 hnew _ (mem_of_lookup hw)).1 rfl
    | arr xs => simp [grow, rebuild_arr, Java.Platform.equal] at h
    | _ => simp [grow, rebuild, Java.Platform.equal] at h
  | _ => cases hv

theorem contains_grow_arr {items : List Value} {v : Value} (hv : v ∈ items)
    (hleaf : v.isLeaf = false) (hnew : (arr items).EveryText (· ≠ s)) :
    p.contains (grow s (arr items)) (arr items) = false := by
  have hv' := everyTextItems_iff.1 hnew v hv
  rw [Bool.eq_false_iff]
  intro h
  rw [grow, rebuild_arr, Java.Platform.contains, List.all_eq_true] at h
  obtain ⟨q, hq, heq⟩ := List.any_eq_true.1 (h v hv)
  rcases List.mem_append.1 hq with hq | hq
  · rw [List.mem_singleton.1 hq] at heq
    cases v with
    | arr => simp [Java.Platform.equal] at heq
    | obj => simp [Java.Platform.equal] at heq
    | _ => cases hleaf
  · obtain ⟨u, -, rfl⟩ := List.mem_map.1 hq
    have hfalse : p.equal (grow s u) v = false := equal_grow hleaf hv'
    rw [grow] at hfalse
    rw [hfalse] at heq
    cases heq

theorem apart_of_new {b : Value} (hnew : b.EveryText (· ≠ s)) : Apart [(s, null)] b := by
  intro f hf
  rw [List.mem_singleton.1 hf]
  exact hnew

theorem contains_grow {b : Value} (hvalid : b.valid = true) (hnew : b.EveryText (· ≠ s))
    {items : List Value} (hw : Within (arr items) b) {v : Value} (hv : v ∈ items)
    (hleaf : v.isLeaf = false) : p.contains (grow s b) b = false := by
  induction hw with
  | refl => exact contains_grow_arr hv hleaf hnew
  | @item items' w hmem hw ih =>
    refine contains_grow_arr hmem ?_ hnew
    cases w with
    | arr => rfl
    | obj => rfl
    | _ => cases hw
  | @field fields f hmem hw ih =>
    have hih := ih ((valid_obj.1 hvalid).2 f hmem) (everyTextFields_iff.1 hnew f hmem).2
    rw [Bool.eq_false_iff]
    intro h
    rw [grow, rebuild_obj, Java.Platform.contains, java_containsFields] at h
    obtain ⟨q, hq, hc⟩ := h f hmem
    rw [lookup_rebuild hvalid (apart_of_new hnew) hmem, Option.some.injEq] at hq
    rw [grow, hq, hc] at hih
    cases hih

/-- Java's arrays. -/
theorem exists_nested {b : Value} (hb : b.Shared) {items : List Value}
    (hw : Within (arr items) b) {v : Value} (hv : v ∈ items) (hleaf : v.isLeaf = false) :
    ∃ a : Value, a.Shared ∧ ¬ MatchesAlike p a b := by
  obtain ⟨s, hnew⟩ := exists_new_text b
  have hnull : (obj [(s, null)]).Shared := by
    refine ⟨valid_obj.2 ⟨List.nodup_singleton _, fun f hf => ?_⟩, fun n hn => ?_⟩
    · rw [List.mem_singleton.1 hf]
      rfl
    obtain h | ⟨f, hf, h⟩ := hn.of_obj
    · cases h
    · rw [List.mem_singleton.1 hf] at h
      cases h
  have hstr : (arr [str s]).Shared := by
    refine ⟨valid_arr.2 fun w hw => ?_, fun n hn => ?_⟩
    · rw [List.mem_singleton.1 hw]
      rfl
    obtain h | ⟨w, hw, h⟩ := hn.of_arr
    · cases h
    · rw [List.mem_singleton.1 hw] at h
      cases h
  refine ⟨grow s b, ?_, fun halike => ?_⟩
  · exact rebuild_shared hb (apart_of_new hnew) (fun l hl => hl) (fun l hl _ => hb.within hl) hstr
      hnull
  · have hmatches : (grow s b).Matches b := by
      rw [matches_iff_covers]
      exact covers_rebuild hb.valid (apart_of_new hnew) fun l _ _ => leafEq_refl
        (R := fun n m => n.toRat = m.toRat) (fun _ => rfl) l
    have hjava := halike.java.2 hmatches
    rw [contains_grow hb.valid hnew hw hv hleaf] at hjava
    cases hjava

end arrays

/-- The runtimes agree on what a pattern asks of every value exactly when it has no null, no array
or object inside an array, and no number one of them takes for another. -/
theorem evidence_agrees {p : Java.Platform} (hs : p.host.Shows) (hp : p.Shows) {b : Value}
    (hb : b.Shared) : (∀ a : Value, a.Shared → MatchesAlike p a b) ↔ Plain p b := by
  refine ⟨fun halike => ?_, fun hplain a ha => matchesAlike_of_plain hs hp hb hplain ha⟩
  have hflat : ∀ items, Within (arr items) b → ∀ v ∈ items, v.isLeaf = true := by
    intro items hw v hv
    by_contra hleaf
    obtain ⟨a, ha, hnot⟩ := exists_nested (p := p) hb hw hv (Bool.eq_false_iff.2 hleaf)
    exact hnot (halike a ha)
  refine ⟨fun hnull => ?_, hflat, fun n hn => distinct_of_alike hs hp hb hflat hn halike⟩
  obtain ⟨a, ha, hnot⟩ := exists_null (p := p) hb hnull
  exact hnot (halike a ha)

/-! ### A printer of exact decimals -/

theorem exactNumeral_brief (f : F64) : (exactNumeral f).Brief := by
  obtain ⟨hmant, hlow, hhigh, -⟩ := f.normal
  -- both kinds of digits are a product of two such factors
  have hdigits : ∀ {n a b : Nat}, n ≤ a ^ 53 * b ^ 1074 → a ≤ 10 → b ≤ 10 →
      (Nat.toDigits 10 n).length < 2 ^ 31 := by
    intro n a b hn ha hb
    have hle : n ≤ 10 ^ (53 + 1074) := by
      rw [pow_add]
      exact hn.trans (Nat.mul_le_mul (Nat.pow_le_pow_left ha _) (Nat.pow_le_pow_left hb _))
    have hlt : n < 10 ^ 1200 := hle.trans_lt (Nat.pow_lt_pow_right (by norm_num) (by norm_num))
    have hlen := (Nat.length_toDigits_le_iff (by norm_num) (by norm_num)).2 hlt
    omega
  rw [exactNumeral]
  split
  next hden =>
    refine ⟨by show (-2 ^ 31 : Int) ≤ 0; norm_num, by show (0 : Int) < 2 ^ 31; norm_num, ?_,
      by show 1 < 2 ^ 31; norm_num⟩
    refine hdigits (a := 2) (b := 2) ?_ (by norm_num) (by norm_num)
    have hnum := F64.natAbs_div_den f.toRat
    rw [hden, Nat.cast_one, div_one, F64.abs_toRat] at hnum
    have hle : (f.toRat.num.natAbs : Rat) ≤ 2 ^ 53 * 2 ^ 1074 := by
      rw [hnum, F64.abs]
      have hpow : (2 : Rat) ^ f.exponent ≤ 2 ^ (1074 : Int) :=
        zpow_le_zpow_right₀ (by norm_num) (by omega)
      have hmant' : (f.mantissa : Rat) ≤ 2 ^ 53 := by exact_mod_cast hmant.le
      exact mul_le_mul hmant' hpow (by positivity) (by positivity)
    exact_mod_cast hle
  next hden =>
    refine ⟨?_, ?_, hdigits (a := 2) (b := 5) ?_ (by norm_num) (by norm_num),
      by show 0 < 2 ^ 31; norm_num⟩
    · show -2 ^ 31 ≤ -((-f.exponent).toNat : Int)
      omega
    · show -((-f.exponent).toNat : Int) < 2 ^ 31
      omega
    · exact Nat.mul_le_mul hmant.le (Nat.pow_le_pow_right (by norm_num) (by omega))

theorem exactHost_shows : exactHost.Shows := fun f =>
  ⟨exactNumeral f, rfl, exactNumeral_brief f, by
    rw [exactNumeral_value]
    exact (Number.float f).ofRat_toRat⟩

/-- A Java runtime that prints doubles exactly. -/
def exactPlatform : Java.Platform := ⟨exactHost, F64.toRat⟩

theorem exactPlatform_shows : exactPlatform.Shows := fun f => (Number.float f).ofRat_toRat

theorem evidence_agrees_validated :
    (∀ a : Value, a.Shared → MatchesAlike exactPlatform a (.obj [("valid", .bool true)])) ↔
      Plain exactPlatform (.obj [("valid", .bool true)]) :=
  evidence_agrees exactHost_shows exactPlatform_shows
    ⟨by decide, fun n hn => by
      obtain h | ⟨f, hf, h⟩ := hn.of_obj
      · cases h
      · rw [List.mem_singleton.1 hf] at h
        cases h⟩

/-- Go finds a null in a property that holds a number. -/
theorem evidence_null_differs : ¬ ∀ (p : Java.Platform) (a b : Value), p.host.Shows → p.Shows →
    a.Shared → b.Shared → MatchesAlike p a b := by
  intro h
  have hshared : ∀ v : Value, v.isLeaf = true → (∀ n, v = .num n → n.Shared) → v.valid = true →
      (Value.obj [("count", v)]).Shared := by
    intro v hleaf hnum hvalid
    refine ⟨valid_obj.2 ⟨List.nodup_singleton _, fun f hf => ?_⟩, fun n hn => ?_⟩
    · rw [List.mem_singleton.1 hf]
      exact hvalid
    · obtain h | ⟨f, hf, h⟩ := hn.of_obj
      · cases h
      · rw [List.mem_singleton.1 hf] at h
        exact hnum n (h.of_leaf hleaf).symm
  have halike := h exactPlatform (.obj [("count", .int 5)]) (.obj [("count", .null)])
    exactHost_shows exactPlatform_shows
    (hshared _ rfl (fun n hn => by cases hn; rfl) rfl) (hshared _ rfl (fun n hn => by cases hn) rfl)
  obtain ⟨x, hx, hall⟩ := covers_obj.1 (halike.go.1 (by decide))
  obtain ⟨q, hq, hc⟩ := hall _ List.mem_cons_self
  cases hx
  cases hq
  cases hc

end Value

end StateDrivenAgent
