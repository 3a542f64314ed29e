import Mathlib.Data.Prod.Lex
import Mathlib.Order.Basic
import Mathlib.Tactic.IntervalCases

/-!
# The Gregorian calendar

Dates and the days they stand for. A date carries that its month and its day exist; the calendar
itself is what the next date is. Numbering the days from 1 January of the year 1 on (`Date.ordinal`)
turns the calendar into arithmetic: the next date has the next number, and dates compare as their
numbers do, so that a computed date is right once its number is.

A moment is a date with a time of day, counted on second by second, without leap seconds.
-/

namespace Calendar

def leap (year : Int) : Bool :=
  decide (year % 4 = 0) && (decide (year % 100 ≠ 0) || decide (year % 400 = 0))

/-- The days of a month, January being 1. -/
def monthLength (year : Int) (month : Nat) : Nat :=
  match month with
  | 2 => if leap year then 29 else 28
  | 4 | 6 | 9 | 11 => 30
  | _ => 31

/-- Every month has a first day. -/
theorem monthLength_pos (year : Int) (month : Nat) : 1 ≤ monthLength year month := by
  unfold monthLength
  split <;> (try split) <;> omega

structure Date where
  year : Int
  month : Nat
  day : Nat
  month_pos : 1 ≤ month
  month_le : month ≤ 12
  day_pos : 1 ≤ day
  day_le : day ≤ monthLength year month

namespace Date

variable (d : Date)

/-- The date of the day after. -/
def next : Date :=
  if hday : d.day + 1 ≤ monthLength d.year d.month then
    { d with day := d.day + 1, day_pos := Nat.le_add_left 1 d.day, day_le := hday }
  else if hmonth : d.month + 1 ≤ 12 then
    { d with
      month := d.month + 1, day := 1, month_pos := Nat.le_add_left 1 d.month, month_le := hmonth,
      day_pos := Nat.le_refl 1, day_le := monthLength_pos d.year (d.month + 1) }
  else
    { year := d.year + 1, month := 1, day := 1, month_pos := Nat.le_refl 1,
      month_le := Nat.le_add_left 1 11, day_pos := Nat.le_refl 1,
      day_le := monthLength_pos (d.year + 1) 1 }

theorem day_lt : d.day < 32 := by
  have hle := d.day_le
  have hlength : monthLength d.year d.month ≤ 31 := by
    unfold monthLength
    split <;> (try split) <;> omega
  omega

/-- Year, month and day, which order the dates. -/
def key : ℤ ×ₗ ℕ ×ₗ ℕ := toLex (d.year, toLex (d.month, d.day))

end Date

/-! ## Numbering the days -/

/-- The days before a year, from the year 1 on. -/
def yearStart (year : Int) : Int :=
  365 * (year - 1) + (year - 1) / 4 - (year - 1) / 100 + (year - 1) / 400

/-- The days of a year before a month. -/
def monthStart (year : Int) (month : Nat) : Nat :=
  ((List.range' 1 (month - 1)).map (monthLength year)).sum

theorem monthStart_succ (year : Int) {month : Nat} (h : 1 ≤ month) :
    monthStart year (month + 1) = monthStart year month + monthLength year month := by
  obtain ⟨n, rfl⟩ := Nat.exists_eq_add_of_le' h
  rw [monthStart, monthStart, Nat.add_sub_cancel, Nat.add_sub_cancel, List.range'_1_concat,
    List.map_append, List.sum_append]
  simp [Nat.add_comm]

/-- The days before a year and the days of its months are the days before the next. -/
theorem yearStart_succ (year : Int) :
    yearStart (year + 1) = yearStart year + monthStart year 13 := by
  have hdays : (monthStart year 13 : Int) = 365 + if leap year then 1 else 0 := by
    simp only [monthStart, monthLength, List.range', List.map, List.sum_cons, List.sum_nil]
    split <;> rfl
  rw [hdays, yearStart, yearStart]
  simp only [leap, Bool.and_eq_true, Bool.or_eq_true, decide_eq_true_eq]
  split <;> omega

theorem monthStart_mono (year : Int) {m n : Nat} (hm : 1 ≤ m) (h : m ≤ n) :
    monthStart year m ≤ monthStart year n := by
  induction h with
  | refl => exact Nat.le_refl _
  | step hle ih =>
    rw [monthStart_succ year (Nat.le_trans hm hle)]
    exact Nat.le_trans ih (Nat.le_add_right _ _)

theorem yearStart_mono {y z : Int} (h : y ≤ z) : yearStart y ≤ yearStart z := by
  unfold yearStart
  omega

namespace Date

variable (d : Date)

/-- The number of a day. -/
def ordinal : Int := yearStart d.year + monthStart d.year d.month + d.day

theorem ordinal_next : d.next.ordinal = d.ordinal + 1 := by
  have hpos := d.month_pos
  have hmonth := d.month_le
  have hday := d.day_le
  unfold next
  split
  · simp only [ordinal]
    push_cast
    omega
  next hlast =>
    have hstart := monthStart_succ d.year hpos
    split
    · simp only [ordinal, hstart]
      push_cast
      omega
    next hdecember =>
      -- the year ends with its last month
      have hyear := yearStart_succ d.year
      have hm : d.month + 1 = 13 := by omega
      rw [hm] at hstart
      simp only [ordinal, hyear, hstart]
      push_cast
      have hfirst : monthStart (d.year + 1) 1 = 0 := rfl
      omega

/-- A day comes behind the days before its month, and before those of the next. -/
theorem lt_of_month_lt {a b : Date} (hyear : a.year = b.year) (h : a.month < b.month) :
    a.ordinal < b.ordinal := by
  have hmono := monthStart_mono b.year (Nat.le_add_left 1 a.month) h
  have hstart := monthStart_succ b.year a.month_pos
  have hle := a.day_le
  have hpos := b.day_pos
  rw [hyear] at hle
  simp only [ordinal, hyear]
  omega

/-- A day comes before the next year. -/
theorem ordinal_le_yearStart : d.ordinal ≤ yearStart (d.year + 1) := by
  have hmonth : monthStart d.year (d.month + 1) ≤ monthStart d.year 13 :=
    monthStart_mono d.year (Nat.le_add_left 1 d.month) (Nat.succ_le_succ d.month_le)
  rw [monthStart_succ d.year d.month_pos] at hmonth
  have hle := d.day_le
  rw [yearStart_succ, ordinal]
  omega

theorem lt_of_year_lt {a b : Date} (h : a.year < b.year) : a.ordinal < b.ordinal := by
  have hmono := yearStart_mono (Int.add_one_le_iff.2 h)
  have hstart := a.ordinal_le_yearStart
  have hpos := b.day_pos
  have hordinal : b.ordinal = yearStart b.year + monthStart b.year b.month + b.day := rfl
  omega

theorem lt_of_key_lt {a b : Date} (h : a.key < b.key) : a.ordinal < b.ordinal := by
  rw [key, key, Prod.Lex.toLex_lt_toLex, Prod.Lex.toLex_lt_toLex] at h
  rcases h with hyear | ⟨hyear, hmonth | ⟨hmonth, hday⟩⟩
  · exact lt_of_year_lt hyear
  · exact lt_of_month_lt hyear hmonth
  · simp only at hyear hmonth hday
    simp only [ordinal, hyear, hmonth]
    omega

theorem eq_of_key_eq {a b : Date} (h : a.key = b.key) : a = b := by
  simp only [key, toLex_inj, Prod.mk.injEq] at h
  obtain ⟨hyear, hmonth, hday⟩ := h
  cases a
  cases b
  simp only at hyear hmonth hday
  subst hyear hmonth hday
  rfl

/-- Dates compare as the numbers of their days. -/
theorem ordinal_lt_iff {a b : Date} : a.ordinal < b.ordinal ↔ a.key < b.key := by
  refine ⟨fun h => ?_, lt_of_key_lt⟩
  rcases lt_trichotomy a.key b.key with hlt | heq | hgt
  · exact hlt
  · rw [eq_of_key_eq heq] at h
    exact absurd h (lt_irrefl _)
  · exact absurd h (not_lt_of_gt (lt_of_key_lt hgt))

/-- The number of a day determines its date. -/
theorem ordinal_injective {a b : Date} (h : a.ordinal = b.ordinal) : a = b := by
  apply eq_of_key_eq
  rcases lt_trichotomy a.key b.key with hlt | heq | hgt
  · exact absurd (lt_of_key_lt hlt) (by omega)
  · exact heq
  · exact absurd (lt_of_key_lt hgt) (by omega)

end Date

/-! ## Moments -/

structure Moment where
  date : Date
  hour : Nat
  minute : Nat
  second : Nat
  hour_lt : hour < 24
  minute_lt : minute < 60
  second_lt : second < 60

namespace Moment

variable (m : Moment)

/-- The moment a second later. -/
def tick : Moment :=
  if hsecond : m.second + 1 < 60 then { m with second := m.second + 1, second_lt := hsecond }
  else if hminute : m.minute + 1 < 60 then
    { m with
      minute := m.minute + 1, second := 0, minute_lt := hminute, second_lt := Nat.zero_lt_succ 59 }
  else if hhour : m.hour + 1 < 24 then
    { m with
      hour := m.hour + 1, minute := 0, second := 0, hour_lt := hhour,
      minute_lt := Nat.zero_lt_succ 59, second_lt := Nat.zero_lt_succ 59 }
  else
    { date := m.date.next, hour := 0, minute := 0, second := 0, hour_lt := Nat.zero_lt_succ 23,
      minute_lt := Nat.zero_lt_succ 59, second_lt := Nat.zero_lt_succ 59 }

/-- The moment some seconds later. -/
def after (seconds : Nat) : Moment := tick^[seconds] m

/-- The seconds of the day. -/
def clock : Nat := 3600 * m.hour + 60 * m.minute + m.second

/-- The moment of a day whose clock has counted so many seconds. -/
def onDay (d : Date) (seconds : Nat) (h : seconds < 86400) : Moment where
  date := d
  hour := seconds / 3600
  minute := seconds % 3600 / 60
  second := seconds % 60
  hour_lt := Nat.div_lt_of_lt_mul h
  minute_lt := Nat.div_lt_of_lt_mul (Nat.mod_lt seconds (Nat.zero_lt_succ 3599))
  second_lt := Nat.mod_lt seconds (Nat.zero_lt_succ 59)

theorem clock_onDay {d : Date} {seconds : Nat} (h : seconds < 86400) :
    (onDay d seconds h).clock = seconds := by
  simp only [clock, onDay]
  omega

/-- The number of a second. -/
def count : Int := 86400 * m.date.ordinal + m.clock

/-- Date and time of day, which order the moments. -/
def key : (ℤ ×ₗ ℕ ×ₗ ℕ) ×ₗ ℕ ×ₗ ℕ ×ₗ ℕ :=
  toLex (m.date.key, toLex (m.hour, toLex (m.minute, m.second)))

theorem clock_lt : m.clock < 86400 := by
  have hhour := m.hour_lt
  have hminute := m.minute_lt
  have hsecond := m.second_lt
  rw [clock]
  omega

theorem count_tick : m.tick.count = m.count + 1 := by
  have hhour := m.hour_lt
  have hminute := m.minute_lt
  have hsecond := m.second_lt
  unfold tick
  split
  · simp only [count, clock]
    omega
  split
  · simp only [count, clock]
    omega
  split
  · simp only [count, clock]
    omega
  · simp only [count, clock, Date.ordinal_next]
    omega

theorem count_after (seconds : Nat) : (m.after seconds).count = m.count + seconds := by
  induction seconds generalizing m with
  | zero => simp [after]
  | succ n ih =>
    have hstep : m.after (n + 1) = m.tick.after n := Function.iterate_succ_apply tick n m
    rw [hstep, ih, count_tick]
    push_cast
    omega

theorem clock_lt_iff {a b : Moment} : a.clock < b.clock ↔
    toLex (a.hour, toLex (a.minute, a.second)) < toLex (b.hour, toLex (b.minute, b.second)) := by
  have hminute := a.minute_lt
  have hsecond := a.second_lt
  have hminute' := b.minute_lt
  have hsecond' := b.second_lt
  rw [Prod.Lex.toLex_lt_toLex, Prod.Lex.toLex_lt_toLex, clock, clock]
  omega

/-- Moments compare as the numbers of their seconds. -/
theorem count_lt_iff {a b : Moment} : a.count < b.count ↔ a.key < b.key := by
  have ha := a.clock_lt
  have hb := b.clock_lt
  rw [key, key, Prod.Lex.toLex_lt_toLex, ← clock_lt_iff, ← Date.ordinal_lt_iff, count, count]
  constructor
  · intro h
    rcases lt_trichotomy a.date.ordinal b.date.ordinal with hlt | heq | hgt
    · exact Or.inl hlt
    · rw [Date.ordinal_injective heq] at h ⊢
      exact Or.inr ⟨rfl, by omega⟩
    · omega
  · rintro (hlt | ⟨heq, hlt⟩)
    · omega
    · rw [Date.eq_of_key_eq heq]
      omega

/-- The number of a second determines its moment. -/
theorem count_injective {a b : Moment} (h : a.count = b.count) : a = b := by
  have ha := a.clock_lt
  have hb := b.clock_lt
  rw [count, count] at h
  have hdate : a.date = b.date := Date.ordinal_injective (by omega)
  rw [hdate] at h
  have hminute := a.minute_lt
  have hsecond := a.second_lt
  have hminute' := b.minute_lt
  have hsecond' := b.second_lt
  have hclock : a.clock = b.clock := by omega
  rw [clock, clock] at hclock
  have hhours : a.hour = b.hour := by omega
  have hminutes : a.minute = b.minute := by omega
  have hseconds : a.second = b.second := by omega
  cases a
  cases b
  simp only at hdate hhours hminutes hseconds
  subst hdate hhours hminutes hseconds
  rfl

end Moment

end Calendar
