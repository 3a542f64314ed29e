import StateDrivenAgent.Calendar.Gregorian

/-!
# Moments as texts

ISO 8601 with a fixed number of digits for each field. Texts whose fields have the same width compare
field by field (`append_lt_append`) and numbers written with the same number of digits compare as
they are (`fixed_lt_iff`), so that the texts of moments compare as the moments (`text_lt_iff`).
-/

namespace Calendar

/-! ## Numbers of fixed width -/

/-- The last `width` decimal digits of a number. -/
def fixed : Nat → Nat → List Char
  | 0, _ => []
  | width + 1, n => fixed width (n / 10) ++ [(n % 10).digitChar]

@[simp] theorem length_fixed (width n : Nat) : (fixed width n).length = width := by
  induction width generalizing n with
  | zero => rfl
  | succ width ih => rw [fixed, List.length_append, ih, List.length_singleton]

theorem digitChar_lt_iff {a b : Nat} (ha : a < 10) (hb : b < 10) :
    a.digitChar < b.digitChar ↔ a < b := by
  have hlt : a.digitChar < b.digitChar ↔ a.digitChar.toNat < b.digitChar.toNat := by
    rw [Char.lt_def, UInt32.lt_iff_toNat_lt]
    rfl
  rw [hlt, Nat.toNat_digitChar_of_lt_ten ha, Nat.toNat_digitChar_of_lt_ten hb]
  omega

section Order

variable {α : Type} [LT α] [Std.Irrefl (· < · : α → α → Prop)]

/-- Texts whose first fields have the same width. -/
theorem append_lt_append {as bs cs ds : List α} (h : as.length = bs.length) :
    as ++ cs < bs ++ ds ↔ as < bs ∨ as = bs ∧ cs < ds := by
  induction as generalizing bs with
  | nil =>
    rw [List.length_nil, eq_comm, List.length_eq_zero_iff] at h
    subst h
    simp [List.lt_irrefl]
  | cons a as ih =>
    cases bs with
    | nil => cases h
    | cons b bs =>
      rw [List.cons_append, List.cons_append, List.cons_lt_cons_iff, List.cons_lt_cons_iff,
        ih (Nat.succ.inj h), List.cons.injEq]
      tauto

end Order

theorem fixed_inj {width a b : Nat} (ha : a < 10 ^ width) (hb : b < 10 ^ width)
    (h : fixed width a = fixed width b) : a = b := by
  induction width generalizing a b with
  | zero =>
    rw [pow_zero] at ha hb
    omega
  | succ width ih =>
    rw [pow_succ] at ha hb
    rw [fixed, fixed] at h
    obtain ⟨hinit, hlast⟩ := List.append_inj h (by simp)
    have htens : a / 10 = b / 10 := ih (by omega) (by omega) hinit
    have hunits : a % 10 = b % 10 := by
      have hdigit := congrArg Char.toNat (List.cons.inj hlast).1
      rw [Nat.toNat_digitChar_of_lt_ten (by omega), Nat.toNat_digitChar_of_lt_ten (by omega)]
        at hdigit
      omega
    omega

/-- Numbers written with as many digits compare as their texts. -/
theorem fixed_lt_iff {width a b : Nat} (ha : a < 10 ^ width) (hb : b < 10 ^ width) :
    fixed width a < fixed width b ↔ a < b := by
  induction width generalizing a b with
  | zero =>
    rw [pow_zero] at ha hb
    have hle : ¬ a < b := by omega
    simp [fixed, hle]
  | succ width ih =>
    rw [pow_succ] at ha hb
    rw [fixed, fixed, append_lt_append (by simp), ih (by omega) (by omega), List.cons_lt_cons_iff,
      digitChar_lt_iff (by omega) (by omega)]
    constructor
    · rintro (hlt | ⟨heq, hlt | ⟨-, hnil⟩⟩)
      · omega
      · have htens : a / 10 = b / 10 := fixed_inj (by omega) (by omega) heq
        omega
      · exact absurd hnil (List.lt_irrefl _)
    · intro hlt
      rcases Nat.lt_or_ge (a / 10) (b / 10) with htens | htens
      · exact Or.inl htens
      · have heq : a / 10 = b / 10 := by omega
        exact Or.inr ⟨by rw [heq], Or.inl (by omega)⟩

/-- A number that fits is written with zeros in front. -/
theorem fixed_eq_replicate {width n : Nat} (hwidth : 1 ≤ width) (h : n < 10 ^ width) :
    fixed width n =
      List.replicate (width - (Nat.toDigits 10 n).length) '0' ++ Nat.toDigits 10 n := by
  induction width, hwidth using Nat.le_induction generalizing n with
  | base =>
    rw [pow_one] at h
    rw [Nat.toDigits_of_lt_base h, fixed, fixed, Nat.mod_eq_of_lt h]
    rfl
  | succ width hwidth ih =>
    rw [pow_succ] at h
    rw [fixed, ih (by omega)]
    rcases Nat.lt_or_ge n 10 with hsmall | hlarge
    · rw [Nat.div_eq_of_lt hsmall, Nat.mod_eq_of_lt hsmall, Nat.toDigits_of_lt_base hsmall,
        Nat.toDigits_of_lt_base (by norm_num : (0 : Nat) < 10)]
      have hzeros : width - 1 + 1 = width + 1 - 1 := by omega
      rw [List.length_singleton, List.length_singleton, ← hzeros, List.replicate_succ']
      rfl
    · rw [Nat.toDigits_of_base_le (by norm_num) hlarge, List.length_append, List.length_singleton,
        Nat.add_sub_add_right, List.append_assoc]

/-! ## Moments -/

namespace Moment

/-- The calendar date and the time of day of ISO 8601, in UTC. -/
def text (m : Moment) : List Char :=
  fixed 4 m.date.year.toNat ++ '-' :: (fixed 2 m.date.month ++ '-' :: (fixed 2 m.date.day ++
    'T' :: (fixed 2 m.hour ++ ':' :: (fixed 2 m.minute ++ ':' :: (fixed 2 m.second ++ ['Z'])))))

/-- A year of four digits. -/
def FourDigits (m : Moment) : Prop := 0 ≤ m.date.year ∧ m.date.year < 10000

/-- A field before the rest of a text. -/
theorem field_lt {width a b : Nat} {c : Char} {rest rest' : List Char} (ha : a < 10 ^ width)
    (hb : b < 10 ^ width) :
    fixed width a ++ c :: rest < fixed width b ++ c :: rest' ↔ a < b ∨ a = b ∧ rest < rest' := by
  have heq : fixed width a = fixed width b ↔ a = b :=
    ⟨fixed_inj ha hb, fun h => by rw [h]⟩
  rw [append_lt_append (by simp), fixed_lt_iff ha hb, heq, List.cons_lt_cons_self]

/-- The texts of moments compare as the moments. -/
theorem text_lt_iff {a b : Moment} (ha : a.FourDigits) (hb : b.FourDigits) :
    a.text < b.text ↔ a.key < b.key := by
  have hwithin : ∀ m : Moment, m.FourDigits → m.date.year.toNat < 10 ^ 4 ∧ m.date.month < 10 ^ 2 ∧
      m.date.day < 10 ^ 2 ∧ m.hour < 10 ^ 2 ∧ m.minute < 10 ^ 2 ∧ m.second < 10 ^ 2 := by
    intro m hm
    have hmonth := m.date.month_le
    have hday := m.date.day_lt
    have hhour := m.hour_lt
    have hminute := m.minute_lt
    have hsecond := m.second_lt
    obtain ⟨hlow, hhigh⟩ := hm
    omega
  obtain ⟨hy, hmo, hd, hh, hmi, hs⟩ := hwithin a ha
  obtain ⟨hy', hmo', hd', hh', hmi', hs'⟩ := hwithin b hb
  have hyears : a.date.year.toNat < b.date.year.toNat ↔ a.date.year < b.date.year := by
    have := ha.1
    have := hb.1
    omega
  have hyear : a.date.year.toNat = b.date.year.toNat ↔ a.date.year = b.date.year := by
    have := ha.1
    have := hb.1
    omega
  rw [text, text, field_lt hy hy', field_lt hmo hmo', field_lt hd hd', field_lt hh hh',
    field_lt hmi hmi', field_lt hs hs', hyears, hyear, key, key]
  simp only [Date.key, Prod.Lex.toLex_lt_toLex, toLex_inj, Prod.mk.injEq, List.lt_irrefl,
    and_false, or_false]
  tauto

end Moment

end Calendar
