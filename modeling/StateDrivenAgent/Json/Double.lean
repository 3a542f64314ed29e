import Mathlib.Data.Rat.Lemmas
import Mathlib.Algebra.Order.Field.Power
import Mathlib.Tactic.FieldSimp
import Mathlib.Tactic.Linarith
import Mathlib.Tactic.Positivity
import Mathlib.Tactic.Ring
import StateDrivenAgent.Json.Value

/-!
# Rounding to a double

`F64.nearest` scales the quotient `n / d` so that its integral part has 53 bits (`leading_bounds`)
and rounds once. A double is therefore the nearest double of its own value (`ofRat_toRat`), so that
a nonzero double is determined by its value (`eq_of_toRat_eq`), and an integer of at most 53 bits is
exactly a double (`toRat_ofInt`).
-/

namespace StateDrivenAgent

namespace F64

theorem toRat_of_isZero {f : F64} (h : f.isZero = true) : f.toRat = 0 := by
  have hm : f.mantissa = 0 := by simpa [isZero] using h
  simp [toRat, abs, hm]

/-- Numerator and denominator of `n / d * 2 ^ (-e)`. -/
def scaled (n d : Nat) (e : Int) : Nat × Nat :=
  if 0 ≤ e then (n, d * 2 ^ e.toNat) else (n * 2 ^ (-e).toNat, d)

/-- The exponent at which `n / d` has an integral part of 53 bits. -/
def leading (n d : Nat) : Int :=
  let e : Int := Nat.log2 n - Nat.log2 d - 52
  if (scaled n d e).1 < 2 ^ 52 * (scaled n d e).2 then e - 1 else e

theorem nearest_eq {negative : Bool} {n d : Nat} (hn : n ≠ 0) : nearest negative n d =
    let e := max (leading n d) (-1074)
    let m := roundHalfEven (scaled n d e).1 (scaled n d e).2
    if m = 2 ^ 53 then build negative (2 ^ 52) (e + 1) else build negative m e := by
  rw [nearest, if_neg hn]
  rfl

theorem scaled_snd_pos {n d : Nat} (hd : 0 < d) (e : Int) : 0 < (scaled n d e).2 := by
  rw [scaled]
  split
  · positivity
  · exact hd

theorem scaled_fst {n d : Nat} (hd : 0 < d) (e : Int) :
    ((scaled n d e).1 : Rat) = n / d * 2 ^ (-e) * (scaled n d e).2 := by
  have hd' : (d : Rat) ≠ 0 := by positivity
  rw [scaled]
  split
  next h =>
    have he : (2 : Rat) ^ (-e) * 2 ^ e.toNat = 1 := by
      rw [← zpow_natCast, Int.toNat_of_nonneg h, ← zpow_add₀ (by norm_num)]
      simp
    push_cast
    calc (n : Rat) = n / d * d * 1 := by field_simp
      _ = n / d * 2 ^ (-e) * (d * 2 ^ e.toNat) := by rw [← he]; ring
  next h =>
    have he : (2 : Rat) ^ (-e).toNat = 2 ^ (-e) := by
      rw [← zpow_natCast, Int.toNat_of_nonneg (by omega)]
    push_cast
    rw [he]
    field_simp

theorem log2_bounds {n : Nat} (hn : n ≠ 0) :
    (2 : Rat) ^ (Nat.log2 n : Int) ≤ n ∧ (n : Rat) < 2 ^ ((Nat.log2 n : Int) + 1) := by
  have hle : 2 ^ Nat.log2 n ≤ n := Nat.log2_self_le hn
  have hlt : n < 2 ^ (Nat.log2 n + 1) := Nat.lt_log2_self
  constructor
  · rw [zpow_natCast]
    exact_mod_cast hle
  · rw [show (Nat.log2 n : Int) + 1 = ((Nat.log2 n + 1 : Nat) : Int) by push_cast; rfl,
      zpow_natCast]
    exact_mod_cast hlt

/-- The integral part of the scaled quotient has 53 bits. -/
theorem leading_bounds {n d : Nat} (hn : n ≠ 0) (hd : d ≠ 0) :
    (2 : Rat) ^ (52 : Int) ≤ n / d * 2 ^ (-leading n d) ∧
      (n : Rat) / d * 2 ^ (-leading n d) < 2 ^ (53 : Int) := by
  obtain ⟨hn₁, hn₂⟩ := log2_bounds hn
  obtain ⟨hd₁, hd₂⟩ := log2_bounds hd
  have hd₀ : (0 : Rat) < d := by positivity
  have hpos := scaled_snd_pos (n := n) (Nat.pos_of_ne_zero hd) (Nat.log2 n - Nat.log2 d - 52 : Int)
  have hfst := scaled_fst (n := n) (Nat.pos_of_ne_zero hd) (Nat.log2 n - Nat.log2 d - 52 : Int)
  have hupper : (n : Rat) / d < 2 ^ ((Nat.log2 n : Int) + 1 - Nat.log2 d) := by
    rw [div_lt_iff₀ hd₀]
    refine hn₂.trans_le ?_
    rw [zpow_sub₀ (by norm_num), div_mul_eq_mul_div, le_div_iff₀ (by positivity)]
    exact mul_le_mul_of_nonneg_left hd₁ (by positivity)
  have hlower : (2 : Rat) ^ ((Nat.log2 n : Int) - Nat.log2 d - 1) < n / d := by
    rw [lt_div_iff₀ hd₀]
    refine lt_of_lt_of_le ?_ hn₁
    rw [sub_sub, zpow_sub₀ (by norm_num), div_mul_eq_mul_div, div_lt_iff₀ (by positivity)]
    exact mul_lt_mul_of_pos_left hd₂ (by positivity)
  have hscale : ∀ e k : Int, (2 : Rat) ^ k * 2 ^ (-e) = 2 ^ (k - e) := by
    intro e k
    rw [← zpow_add₀ (by norm_num), sub_eq_add_neg]
  rw [leading]
  set e : Int := Nat.log2 n - Nat.log2 d - 52 with he
  have hpow : (0 : Rat) < 2 ^ (-e) := by positivity
  have htest : (scaled n d e).1 < 2 ^ 52 * (scaled n d e).2 ↔
      (n : Rat) / d * 2 ^ (-e) < 2 ^ (52 : Int) := by
    have hD : (0 : Rat) < (scaled n d e).2 := by exact_mod_cast hpos
    rw [← mul_lt_mul_iff_left₀ hD, ← hfst]
    constructor
    · intro h
      have h' : ((scaled n d e).1 : Rat) < ((2 ^ 52 * (scaled n d e).2 : Nat) : Rat) :=
        Nat.cast_lt.2 h
      exact_mod_cast h'
    · intro h
      exact_mod_cast h
  split
  next h =>
    have hlt := htest.1 h
    have hstep : (2 : Rat) ^ (-(e - 1)) = 2 ^ (-e) * 2 := by
      rw [show -(e - 1) = -e + 1 by ring, zpow_add₀ (by norm_num), zpow_one]
    rw [hstep]
    constructor
    · have hmul := mul_lt_mul_of_pos_right hlower hpow
      rw [hscale, show (Nat.log2 n : Int) - Nat.log2 d - 1 - e = 51 by omega] at hmul
      norm_num at hmul ⊢
      linarith
    · norm_num at hlt ⊢
      linarith
  next h =>
    refine ⟨not_lt.1 (mt htest.2 h), ?_⟩
    have hmul := mul_lt_mul_of_pos_right hupper hpow
    rwa [hscale, show (Nat.log2 n : Int) + 1 - Nat.log2 d - e = 53 by omega] at hmul

theorem roundHalfEven_mul {m d : Nat} (hd : 0 < d) : roundHalfEven (m * d) d = m := by
  simp [roundHalfEven, Nat.mul_div_cancel m hd, hd]

theorem build_self (f : F64) : build f.negative f.mantissa f.exponent = f := by
  rw [build, dif_pos f.normal]

theorem lt_of_zpow_lt {a b : Int} (h : (2 : Rat) ^ a < 2 ^ b) : a < b :=
  (zpow_lt_zpow_iff_right₀ (by norm_num)).1 h

/-- A quotient that is a double is its own nearest double. -/
theorem nearest_of_abs {f : F64} (hf : f.isZero = false) {n d : Nat} (hd : d ≠ 0)
    (h : (n : Rat) / d = f.abs) : nearest f.negative n d = f := by
  have hm : f.mantissa ≠ 0 := by simpa [isZero] using hf
  have hm₀ : (0 : Rat) < f.mantissa := by exact_mod_cast Nat.pos_of_ne_zero hm
  have hn : n ≠ 0 := by
    rintro rfl
    rw [abs, Nat.cast_zero, zero_div] at h
    have : (0 : Rat) < f.mantissa * 2 ^ f.exponent := by positivity
    linarith
  obtain ⟨hlow, hhigh⟩ := leading_bounds hn hd
  obtain ⟨hm₁, he₁, -, hnormal⟩ := f.normal
  have hq : (n : Rat) / d * 2 ^ (-leading n d) = f.mantissa * 2 ^ (f.exponent - leading n d) := by
    rw [h, abs, mul_assoc, ← zpow_add₀ (by norm_num), sub_eq_add_neg]
  have hmlt : (f.mantissa : Rat) < 2 ^ (53 : Int) := by
    norm_num
    exact_mod_cast hm₁
  rw [hq] at hlow hhigh
  have hle : leading n d ≤ f.exponent := by
    have h₁ : (2 : Rat) ^ (52 : Int) < 2 ^ ((53 : Int) + (f.exponent - leading n d)) := by
      rw [zpow_add₀ (by norm_num)]
      exact hlow.trans_lt (mul_lt_mul_of_pos_right hmlt (by positivity))
    have h₂ := lt_of_zpow_lt h₁
    omega
  have hmax : max (leading n d) (-1074) = f.exponent := by
    rcases hnormal with heq | hge
    · omega
    · have h₁ : (2 : Rat) ^ ((52 : Int) + (f.exponent - leading n d)) < 2 ^ (53 : Int) := by
        refine lt_of_le_of_lt ?_ hhigh
        rw [zpow_add₀ (by norm_num)]
        refine mul_le_mul_of_nonneg_right ?_ (by positivity)
        norm_num
        exact_mod_cast hge
      have h₂ := lt_of_zpow_lt h₁
      omega
  have hscaled : (scaled n d f.exponent).1 = f.mantissa * (scaled n d f.exponent).2 := by
    have hfst := scaled_fst (n := n) (Nat.pos_of_ne_zero hd) f.exponent
    rw [h, abs, mul_assoc (f.mantissa : Rat), ← zpow_add₀ (by norm_num), add_neg_cancel, zpow_zero,
      mul_one] at hfst
    exact_mod_cast hfst
  rw [nearest_eq hn]
  dsimp only
  rw [hmax, hscaled, roundHalfEven_mul (scaled_snd_pos (Nat.pos_of_ne_zero hd) _),
    if_neg (by omega), build_self]

theorem abs_nonneg (f : F64) : 0 ≤ f.abs := by
  rw [abs]
  positivity

theorem abs_pos {f : F64} (hf : f.isZero = false) : 0 < f.abs := by
  have hm : f.mantissa ≠ 0 := by simpa [isZero] using hf
  have hm₀ : (0 : Rat) < f.mantissa := by exact_mod_cast Nat.pos_of_ne_zero hm
  rw [abs]
  positivity

theorem abs_toRat (f : F64) : |f.toRat| = f.abs := by
  rw [toRat]
  split
  · rw [abs_neg, abs_of_nonneg f.abs_nonneg]
  · rw [abs_of_nonneg f.abs_nonneg]

theorem toRat_neg_iff {f : F64} (hf : f.isZero = false) : f.toRat < 0 ↔ f.negative = true := by
  have hpos := abs_pos hf
  rw [toRat]
  cases f.negative <;> simp <;> linarith

theorem natAbs_div_den (q : Rat) : (q.num.natAbs : Rat) / q.den = |q| := by
  rw [Rat.abs_def, Rat.divInt_eq_div, Int.cast_natCast, Int.cast_natCast]

theorem ofRat_toRat {f : F64} (hf : f.isZero = false) : ofRat f.toRat = f := by
  have hneg : decide (f.toRat.num < 0) = f.negative := by
    rw [Bool.eq_iff_iff, decide_eq_true_eq, Rat.num_neg, toRat_neg_iff hf]
  rw [ofRat, hneg]
  refine nearest_of_abs hf f.toRat.den_ne_zero ?_
  rw [natAbs_div_den, abs_toRat]

/-- Both zeros have the value `0`; any other value is that of one double. -/
theorem eq_of_toRat_eq {f g : F64} (hf : f.isZero = false) (h : f.toRat = g.toRat) : f = g := by
  have hg : g.isZero = false := by
    by_contra hg
    have hzero := toRat_of_isZero (Bool.not_eq_false _ ▸ hg)
    have hpos := abs_pos hf
    rw [← abs_toRat, h, hzero, abs_zero] at hpos
    exact lt_irrefl _ hpos
  rw [← ofRat_toRat hf, h, ofRat_toRat hg]

theorem ofRat_intCast (i : Int) : ofRat i = ofInt i := by
  rw [ofRat, ofInt, Rat.num_intCast, Rat.den_intCast]

theorem ofInt_zero : ofInt 0 = zero := by decide

/-- An integer of at most 53 bits is a double. -/
theorem toRat_ofInt {i : Int} (h : i.natAbs < 2 ^ 53) : (ofInt i).toRat = i := by
  by_cases hi : i = 0
  · simp [hi, ofInt_zero, zero, toRat, abs]
  have hn : i.natAbs ≠ 0 := Int.natAbs_ne_zero.2 hi
  have hle : 2 ^ Nat.log2 i.natAbs ≤ i.natAbs := Nat.log2_self_le hn
  have hlt : i.natAbs < 2 ^ (Nat.log2 i.natAbs + 1) := Nat.lt_log2_self
  have hlog : Nat.log2 i.natAbs < 53 := (Nat.log2_lt hn).2 h
  set k := Nat.log2 i.natAbs with hk
  have hm₁ : i.natAbs * 2 ^ (52 - k) < 2 ^ 53 := by
    calc i.natAbs * 2 ^ (52 - k) < 2 ^ (k + 1) * 2 ^ (52 - k) :=
          Nat.mul_lt_mul_of_pos_right hlt (by positivity)
      _ = 2 ^ 53 := by rw [← pow_add]; congr 1; omega
  have hm₂ : 2 ^ 52 ≤ i.natAbs * 2 ^ (52 - k) := by
    calc 2 ^ 52 = 2 ^ k * 2 ^ (52 - k) := by rw [← pow_add]; congr 1; omega
      _ ≤ i.natAbs * 2 ^ (52 - k) := Nat.mul_le_mul_right _ hle
  let f : F64 := ⟨decide (i < 0), i.natAbs * 2 ^ (52 - k), -((52 - k : Nat) : Int),
    hm₁, by omega, by omega, .inr hm₂⟩
  have habs : f.abs = (i.natAbs : Rat) := by
    show ((i.natAbs * 2 ^ (52 - k) : Nat) : Rat) * 2 ^ (-((52 - k : Nat) : Int)) = i.natAbs
    rw [zpow_neg, zpow_natCast]
    push_cast
    field_simp
  have hval : f.toRat = i := by
    rw [toRat, habs]
    show (if decide (i < 0) = true then _ else _) = _
    by_cases hneg : i < 0
    · rw [if_pos (by simpa using hneg), ← Int.cast_natCast, ← Int.cast_neg]
      congr 1
      omega
    · rw [if_neg (by simpa using hneg), ← Int.cast_natCast]
      congr 1
      omega
  have hzero : f.isZero = false := by
    have : i.natAbs * 2 ^ (52 - k) ≠ 0 := by positivity
    simpa [isZero, f] using hi
  rw [← ofRat_intCast, ← hval, ofRat_toRat hzero]

/-! ## Rounding does not cross a power of two -/

theorem roundHalfEven_bounds (n : Nat) {d : Nat} (hd : 0 < d) :
    n / d ≤ roundHalfEven n d ∧ roundHalfEven n d * d ≤ n + d := by
  have hdiv : n / d * d ≤ n := Nat.div_mul_le_self n d
  have hsucc : (n / d + 1) * d = n / d * d + d := by ring
  rw [roundHalfEven]
  split_ifs <;> constructor <;> omega

theorem two_pow_le_rounded {n d : Nat} (hd : 0 < d) (h : (2 : Rat) ^ (52 : Int) * d ≤ n) :
    2 ^ 52 ≤ roundHalfEven n d := by
  refine le_trans ?_ (roundHalfEven_bounds n hd).1
  rw [Nat.le_div_iff_mul_le hd]
  exact_mod_cast h

theorem rounded_le_two_pow {n d : Nat} (hd : 0 < d) (h : (n : Rat) < 2 ^ (53 : Int) * d) :
    roundHalfEven n d ≤ 2 ^ 53 := by
  have hbound := (roundHalfEven_bounds n hd).2
  have hlt : n < 2 ^ 53 * d := by exact_mod_cast h
  have hmul : roundHalfEven n d * d < (2 ^ 53 + 1) * d := by
    rw [Nat.add_mul, Nat.one_mul]
    omega
  exact Nat.lt_succ_iff.1 (Nat.lt_of_mul_lt_mul_right hmul)

theorem build_of_isZero {negative : Bool} {m : Nat} {e : Int}
    (h : (build negative m e).isZero = false) :
    (build negative m e).negative = negative ∧ (build negative m e).abs = m * 2 ^ e := by
  rw [build] at h ⊢
  split at h
  next hn =>
    rw [dif_pos hn]
    exact ⟨rfl, rfl⟩
  next => cases h

/-- What the nearest double of a quotient is made of, unless it is zero. -/
theorem nearest_parts {negative : Bool} {n d : Nat} (hn : n ≠ 0)
    (h : (nearest negative n d).isZero = false) :
    (nearest negative n d).negative = negative ∧ (nearest negative n d).abs =
      (roundHalfEven (scaled n d (max (leading n d) (-1074))).1
        (scaled n d (max (leading n d) (-1074))).2 : Nat) *
        (2 : Rat) ^ max (leading n d) (-1074) := by
  rw [nearest_eq hn] at h ⊢
  dsimp only at h ⊢
  split at h
  next hm =>
    rw [if_pos hm]
    obtain ⟨hneg, habs⟩ := build_of_isZero h
    refine ⟨hneg, habs.trans ?_⟩
    rw [hm, zpow_add₀ (by norm_num)]
    push_cast
    ring
  next hm =>
    rw [if_neg hm]
    exact build_of_isZero h

theorem two_pow_le_abs {negative : Bool} {n d : Nat} {k : Nat} (hd : d ≠ 0)
    (h : (nearest negative n d).isZero = false) (hk : (2 : Rat) ^ k ≤ n / d) :
    2 ^ k ≤ (nearest negative n d).abs := by
  have hn : n ≠ 0 := by
    rintro rfl
    rw [Nat.cast_zero, zero_div] at hk
    have : (0 : Rat) < 2 ^ k := by positivity
    linarith
  obtain ⟨hlow, hhigh⟩ := leading_bounds hn hd
  have hpos := scaled_snd_pos (n := n) (Nat.pos_of_ne_zero hd) (leading n d)
  have hfst := scaled_fst (n := n) (Nat.pos_of_ne_zero hd) (leading n d)
  have hlead : (k : Int) - 52 ≤ leading n d := by
    have h₁ : (2 : Rat) ^ ((k : Int) + -leading n d) < 2 ^ (53 : Int) := by
      rw [zpow_add₀ (by norm_num), zpow_natCast]
      exact (mul_le_mul_of_nonneg_right hk (by positivity)).trans_lt hhigh
    have h₂ := lt_of_zpow_lt h₁
    omega
  have hmax : max (leading n d) (-1074) = leading n d := by omega
  have hm := two_pow_le_rounded hpos (hfst ▸ mul_le_mul_of_nonneg_right hlow (by positivity))
  rw [(nearest_parts hn h).2, hmax]
  calc (2 : Rat) ^ k = 2 ^ (52 : Int) * 2 ^ ((k : Int) - 52) := by
        rw [← zpow_add₀ (by norm_num), ← zpow_natCast]
        congr 1
        omega
    _ ≤ (roundHalfEven (scaled n d (leading n d)).1 (scaled n d (leading n d)).2 : Nat) *
        2 ^ leading n d := by
      refine mul_le_mul ?_ (zpow_le_zpow_right₀ (by norm_num) hlead) (by positivity) (by positivity)
      exact_mod_cast hm

theorem nearest_zero (negative : Bool) (d : Nat) : (nearest negative 0 d).isZero = true := by
  rw [nearest, if_pos rfl, build]
  split <;> rfl

theorem abs_le_two_pow {negative : Bool} {n d : Nat} {k : Nat} (hd : d ≠ 0)
    (h : (nearest negative n d).isZero = false) (hk : (n : Rat) / d < 2 ^ k) :
    (nearest negative n d).abs ≤ 2 ^ k := by
  have hn : n ≠ 0 := by
    rintro rfl
    rw [nearest_zero] at h
    cases h
  obtain ⟨hlow, hhigh⟩ := leading_bounds hn hd
  set e := max (leading n d) (-1074) with he
  have hpos := scaled_snd_pos (n := n) (Nat.pos_of_ne_zero hd) e
  have hfst := scaled_fst (n := n) (Nat.pos_of_ne_zero hd) e
  have hlead : leading n d ≤ (k : Int) - 53 := by
    have h₁ : (2 : Rat) ^ (52 : Int) < 2 ^ ((k : Int) + -leading n d) := by
      rw [zpow_add₀ (by norm_num), zpow_natCast]
      exact hlow.trans_lt (mul_lt_mul_of_pos_right hk (by positivity))
    have h₂ := lt_of_zpow_lt h₁
    omega
  have hratio : (n : Rat) / d * 2 ^ (-e) < 2 ^ (53 : Int) := by
    refine lt_of_le_of_lt (mul_le_mul_of_nonneg_left ?_ (by positivity)) hhigh
    exact zpow_le_zpow_right₀ (by norm_num) (by omega)
  have hm := rounded_le_two_pow hpos
    (hfst ▸ mul_lt_mul_of_pos_right hratio (by exact_mod_cast hpos))
  rw [(nearest_parts hn h).2, ← he]
  calc (roundHalfEven (scaled n d e).1 (scaled n d e).2 : Rat) * 2 ^ e
      ≤ 2 ^ (53 : Int) * 2 ^ ((k : Int) - 53) := by
        refine mul_le_mul ?_ (zpow_le_zpow_right₀ (by norm_num) (by omega)) (by positivity)
          (by positivity)
        exact_mod_cast hm
    _ = 2 ^ k := by
        rw [← zpow_add₀ (by norm_num), ← zpow_natCast]
        congr 1
        omega

/-! ## Rounding is monotone -/

theorem roundHalfEven_mono {n d n' d' : Nat} (hd : 0 < d) (hd' : 0 < d')
    (h : n * d' ≤ n' * d) : roundHalfEven n d ≤ roundHalfEven n' d' := by
  obtain ⟨hlow, -⟩ := roundHalfEven_bounds n' hd'
  have hsucc : roundHalfEven n d ≤ n / d + 1 := by
    rw [roundHalfEven]
    split_ifs <;> omega
  have hq : n / d ≤ n' / d' := by
    rw [Nat.le_div_iff_mul_le hd']
    have hmul : n / d * d' * d ≤ n' * d := by
      calc n / d * d' * d = n / d * d * d' := by ring
        _ ≤ n * d' := Nat.mul_le_mul_right _ (Nat.div_mul_le_self n d)
        _ ≤ n' * d := h
    exact Nat.le_of_mul_le_mul_right hmul hd
  rcases hq.lt_or_eq with hlt | heq
  · omega
  -- the remainders are compared where the integral parts agree
  have hn : n / d * d + n % d = n := Nat.div_add_mod' n d
  have hn' : n' / d' * d' + n' % d' = n' := Nat.div_add_mod' n' d'
  have hr : n % d * d' ≤ n' % d' * d := by
    have hsum : n / d * d * d' + n % d * d' ≤ n / d * d * d' + n' % d' * d := by
      calc n / d * d * d' + n % d * d' = n * d' := by rw [← Nat.add_mul, hn]
        _ ≤ n' * d := h
        _ = n / d * d * d' + n' % d' * d := by
          rw [heq]
          nth_rewrite 1 [← hn']
          ring
    omega
  rw [roundHalfEven, roundHalfEven]
  by_cases hsmall : 2 * (n' % d') < d'
  · have hlt : 2 * (n % d) < d := by
      have hmul : 2 * (n % d) * d' < d * d' := by
        calc 2 * (n % d) * d' = 2 * (n % d * d') := by ring
          _ ≤ 2 * (n' % d' * d) := by omega
          _ = 2 * (n' % d') * d := by ring
          _ < d' * d := Nat.mul_lt_mul_of_pos_right hsmall hd
          _ = d * d' := Nat.mul_comm _ _
      exact Nat.lt_of_mul_lt_mul_right hmul
    rw [if_pos hsmall, if_pos hlt, heq]
  by_cases hlarge : d' < 2 * (n' % d')
  · rw [if_neg hsmall, if_pos hlarge]
    split_ifs <;> omega
  have hle : ¬ d < 2 * (n % d) := by
    have hmul : 2 * (n % d) * d' ≤ d * d' := by
      calc 2 * (n % d) * d' = 2 * (n % d * d') := by ring
        _ ≤ 2 * (n' % d' * d) := by omega
        _ = 2 * (n' % d') * d := by ring
        _ = d' * d := by rw [show 2 * (n' % d') = d' by omega]
        _ = d * d' := Nat.mul_comm _ _
    have := Nat.le_of_mul_le_mul_right hmul hd'
    omega
  rw [if_neg hsmall, if_neg hlarge, if_neg hle, heq]
  split_ifs <;> omega

theorem scaled_mono {n d n' d' : Nat} (hd : 0 < d) (hd' : 0 < d') (h : (n : Rat) / d ≤ n' / d')
    (e : Int) : (scaled n d e).1 * (scaled n' d' e).2 ≤ (scaled n' d' e).1 * (scaled n d e).2 := by
  have hfst := scaled_fst (n := n) hd e
  have hfst' := scaled_fst (n := n') hd' e
  have hmul : (n : Rat) / d * 2 ^ (-e) * (scaled n d e).2 * (scaled n' d' e).2 ≤
      n' / d' * 2 ^ (-e) * (scaled n' d' e).2 * (scaled n d e).2 := by
    rw [mul_right_comm (n' / d' * 2 ^ (-e) : Rat)]
    gcongr
  rw [← hfst, ← hfst'] at hmul
  exact_mod_cast hmul

theorem leading_mono {n d n' d' : Nat} (hn : n ≠ 0) (hn' : n' ≠ 0) (hd : d ≠ 0) (hd' : d' ≠ 0)
    (h : (n : Rat) / d ≤ n' / d') : leading n d ≤ leading n' d' := by
  obtain ⟨hlow, -⟩ := leading_bounds hn hd
  obtain ⟨-, hhigh⟩ := leading_bounds hn' hd'
  by_contra hlt
  have hstep : (2 : Rat) ^ (-leading n d) ≤ 2 ^ (-leading n' d' - 1) :=
    zpow_le_zpow_right₀ (by norm_num) (by omega)
  have hmul : (n : Rat) / d * 2 ^ (-leading n d) ≤ n' / d' * 2 ^ (-leading n' d' - 1) :=
    mul_le_mul h hstep (by positivity) (by positivity)
  rw [sub_eq_add_neg, zpow_add₀ (by norm_num)] at hmul
  norm_num at hlow hhigh hmul
  linarith

/-- The nearest doubles of two quotients are in their order. -/
theorem abs_nearest_mono {negative negative' : Bool} {n d n' d' : Nat} (hd : d ≠ 0) (hd' : d' ≠ 0)
    (h : (n : Rat) / d ≤ n' / d') (hf' : (nearest negative' n' d').isZero = false) :
    (nearest negative n d).abs ≤ (nearest negative' n' d').abs := by
  cases hf : (nearest negative n d).isZero with
  | true =>
    rw [← abs_toRat (nearest negative n d), toRat_of_isZero hf, abs_zero]
    exact abs_nonneg _
  | false =>
    have hn : n ≠ 0 := by
      rintro rfl
      rw [nearest_zero] at hf
      cases hf
    have hn' : n' ≠ 0 := by
      rintro rfl
      rw [nearest_zero] at hf'
      cases hf'
    have hlead := leading_mono hn hn' hd hd' h
    rw [(nearest_parts hn hf).2, (nearest_parts hn' hf').2]
    set e := max (leading n d) (-1074) with he
    set e' := max (leading n' d') (-1074) with he'
    have hpos := scaled_snd_pos (n := n) (Nat.pos_of_ne_zero hd) e
    have hpos' := scaled_snd_pos (n := n') (Nat.pos_of_ne_zero hd') e'
    rcases (show e ≤ e' by omega).lt_or_eq with hlt | heq
    · -- a higher exponent: the significands lie on either side of a power of two
      have hfst := scaled_fst (n := n) (Nat.pos_of_ne_zero hd) e
      have hfst' := scaled_fst (n := n') (Nat.pos_of_ne_zero hd') e'
      have hratio : (n : Rat) / d * 2 ^ (-e) < 2 ^ (53 : Int) := by
        refine lt_of_le_of_lt (mul_le_mul_of_nonneg_left ?_ (by positivity)) (leading_bounds hn hd).2
        exact zpow_le_zpow_right₀ (by norm_num) (by omega)
      have hratio' : (2 : Rat) ^ (52 : Int) ≤ n' / d' * 2 ^ (-e') := by
        rw [show e' = leading n' d' by omega]
        exact (leading_bounds hn' hd').1
      have hm := rounded_le_two_pow hpos
        (hfst ▸ mul_lt_mul_of_pos_right hratio (by exact_mod_cast hpos))
      have hm' := two_pow_le_rounded hpos'
        (hfst' ▸ mul_le_mul_of_nonneg_right hratio' (by positivity))
      calc (roundHalfEven (scaled n d e).1 (scaled n d e).2 : Rat) * 2 ^ e
          ≤ 2 ^ (53 : Int) * 2 ^ e := by
            refine mul_le_mul_of_nonneg_right ?_ (by positivity)
            exact_mod_cast hm
        _ = 2 ^ (52 : Int) * 2 ^ (e + 1) := by
            rw [← zpow_add₀ (by norm_num), ← zpow_add₀ (by norm_num)]
            congr 1
            omega
        _ ≤ (roundHalfEven (scaled n' d' e').1 (scaled n' d' e').2 : Rat) * 2 ^ e' := by
            refine mul_le_mul ?_ (zpow_le_zpow_right₀ (by norm_num) hlt) (by positivity)
              (by positivity)
            exact_mod_cast hm'
    · rw [← heq] at hpos' ⊢
      refine mul_le_mul_of_nonneg_right ?_ (by positivity)
      exact_mod_cast roundHalfEven_mono hpos hpos'
        (scaled_mono (Nat.pos_of_ne_zero hd) (Nat.pos_of_ne_zero hd') h e)

/-- A quotient between `1` and `2 ^ 100` has a nonzero nearest double. -/
theorem nearest_isZero {negative : Bool} {n d : Nat} (hd : d ≠ 0) (h₁ : (1 : Rat) ≤ n / d)
    (h₂ : (n : Rat) / d < 2 ^ 100) : (nearest negative n d).isZero = false := by
  have hn : n ≠ 0 := by
    rintro rfl
    rw [Nat.cast_zero, zero_div] at h₁
    linarith
  obtain ⟨hlow, hhigh⟩ := leading_bounds hn hd
  have hpos := scaled_snd_pos (n := n) (Nat.pos_of_ne_zero hd) (leading n d)
  have hfst := scaled_fst (n := n) (Nat.pos_of_ne_zero hd) (leading n d)
  have hlow' : -53 < leading n d := by
    have h : (2 : Rat) ^ (-leading n d) < 2 ^ (53 : Int) := by
      refine lt_of_le_of_lt ?_ hhigh
      exact le_mul_of_one_le_left (by positivity) h₁
    have := lt_of_zpow_lt h
    omega
  have hhigh' : leading n d < 48 := by
    have h : (2 : Rat) ^ (52 : Int) < 2 ^ ((100 : Int) + -leading n d) := by
      rw [zpow_add₀ (by norm_num)]
      refine hlow.trans_lt (mul_lt_mul_of_pos_right ?_ (by positivity))
      exact_mod_cast h₂
    have := lt_of_zpow_lt h
    omega
  have hmax : max (leading n d) (-1074) = leading n d := by omega
  have hm₁ := two_pow_le_rounded hpos (hfst ▸ mul_le_mul_of_nonneg_right hlow (by positivity))
  have hm₂ := rounded_le_two_pow hpos (hfst ▸ mul_lt_mul_of_pos_right hhigh (by exact_mod_cast hpos))
  rw [nearest_eq hn]
  dsimp only
  rw [hmax]
  split
  next => rw [build, dif_pos (by omega)]; simp [isZero]
  next hne => rw [build, dif_pos (by omega)]; simp [isZero]; omega

theorem abs_ofRat_mono {p q : Rat} (h : |p| ≤ |q|) (hq : (ofRat q).isZero = false) :
    (ofRat p).abs ≤ (ofRat q).abs :=
  abs_nearest_mono p.den_ne_zero q.den_ne_zero (by rwa [natAbs_div_den, natAbs_div_den]) hq

theorem build_abs (negative negative' : Bool) (m : Nat) (e : Int) :
    (build negative m e).abs = (build negative' m e).abs := by
  rw [build, build]
  split <;> rfl

/-- The magnitude of a nearest double does not depend on the sign. -/
theorem nearest_abs (negative negative' : Bool) (n d : Nat) :
    (nearest negative n d).abs = (nearest negative' n d).abs := by
  by_cases hn : n = 0
  · rw [nearest, nearest, if_pos hn, if_pos hn]
    exact build_abs _ _ _ _
  · rw [nearest_eq hn, nearest_eq hn]
    dsimp only
    split <;> exact build_abs _ _ _ _

theorem abs_ofRat_neg (q : Rat) : (ofRat (-q)).abs = (ofRat q).abs := by
  rw [ofRat, ofRat, Rat.num_neg_eq_neg_num, Int.natAbs_neg, Rat.den_neg_eq_den]
  exact nearest_abs _ _ _ _

/-- The nearest double of a number has its sign. -/
theorem negative_ofRat {q : Rat} (h : (ofRat q).isZero = false) :
    (ofRat q).negative = decide (q < 0) := by
  rw [ofRat] at h ⊢
  have hn : q.num.natAbs ≠ 0 := by
    intro hn
    rw [hn, nearest_zero] at h
    cases h
  rw [(nearest_parts hn h).1]
  exact decide_eq_decide.2 Rat.num_neg

theorem two_pow_le_abs_ofRat {q : Rat} {k : Nat} (h : (ofRat q).isZero = false)
    (hk : 2 ^ k ≤ |q|) : 2 ^ k ≤ (ofRat q).abs :=
  two_pow_le_abs q.den_ne_zero h (by rwa [natAbs_div_den])

theorem ofRat_isZero {q : Rat} (h₁ : 1 ≤ |q|) (h₂ : |q| < 2 ^ 100) : (ofRat q).isZero = false :=
  nearest_isZero q.den_ne_zero (by rwa [natAbs_div_den]) (by rwa [natAbs_div_den])

theorem abs_ofRat_le_two_pow {q : Rat} {k : Nat} (h : (ofRat q).isZero = false)
    (hk : |q| < 2 ^ k) : (ofRat q).abs ≤ 2 ^ k :=
  abs_le_two_pow q.den_ne_zero h (by rwa [natAbs_div_den])

end F64

end StateDrivenAgent
