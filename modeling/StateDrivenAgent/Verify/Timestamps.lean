import Mathlib.Tactic.IntervalCases
import StateDrivenAgent.Calendar.Iso
import StateDrivenAgent.Server.Timestamp

/-!
# Transcript timestamps are right

`transcript_timestamp` counts days from 1 March of the year 0, in eras of 400 years, so that the leap
day ends a year. `EraDay` is the place of a day in its era; the divisions of the source find it
(`EraDay.yearOfEra`), and the months from March on give its date (`exists_date`). The text is then the
one of the moment that many seconds after the epoch, and texts compare as their moments
(`transcriptTimestamp_correct`).
-/

namespace StateDrivenAgent

open Calendar Text

namespace Server

/-! ## Years that begin in March -/

/-- The days before 1 March of a year. -/
def marchStart (year : Int) : Int := 365 * year + year / 4 - year / 100 + year / 400 - 306

theorem monthStart_march (year : Int) : monthStart year 3 = 59 + if leap year then 1 else 0 := by
  simp only [monthStart, monthLength, List.range', List.map, List.sum_cons, List.sum_nil]
  split <;> rfl

theorem marchStart_eq (year : Int) : marchStart year = yearStart year + monthStart year 3 := by
  rw [monthStart_march, marchStart, yearStart]
  simp only [leap, Bool.and_eq_true, Bool.or_eq_true, decide_eq_true_eq]
  split <;> omega

/-- The days from March to a month of the year, as the source computes them. -/
theorem monthStart_from_march (year : Int) {mp : Nat} (h : mp ≤ 10) :
    monthStart year (mp + 3) = monthStart year 3 + (153 * mp + 2) / 5 := by
  induction mp with
  | zero => rfl
  | succ mp ih =>
    have hlt : mp < 10 := h
    rw [monthStart_succ year (Nat.le_add_left 1 (mp + 2)), ih (Nat.le_of_lt hlt)]
    have hlength : monthLength year (mp + 3) = (153 * (mp + 1) + 2) / 5 - (153 * mp + 2) / 5 := by
      interval_cases mp <;> rfl
    have hassoc : monthLength year (mp + 2 + 1) = monthLength year (mp + 3) := rfl
    omega

/-- The place of a day in an era of 400 years from 1 March on: the century, the cycle of four years,
the year of the cycle and the day. Only the last year of a cycle has a last day 365, and in the last
cycle of a century only the one that ends the era. -/
structure EraDay where
  century : Int
  cycle : Int
  year : Int
  day : Int
  century_range : 0 ≤ century ∧ century ≤ 3
  cycle_range : 0 ≤ cycle ∧ cycle ≤ 24
  year_range : 0 ≤ year ∧ year ≤ 3
  day_range : 0 ≤ day ∧ day ≤ 365
  leap_day : day = 365 → year = 3 ∧ (cycle = 24 → century = 3)

namespace EraDay

variable (p : EraDay)

/-- The day of the era. -/
def number : Int := 36524 * p.century + 1461 * p.cycle + 365 * p.year + p.day

/-- The year of the era. -/
def years : Int := 100 * p.century + 4 * p.cycle + p.year

theorem exists_place {doe : Int} (hlow : 0 ≤ doe) (hhigh : doe < 146097) :
    ∃ p : EraDay, p.number = doe := by
  obtain ⟨c, r, hdoe, hc, hr, hlast⟩ : ∃ c r : Int, doe = 36524 * c + r ∧ (0 ≤ c ∧ c ≤ 3) ∧
      (0 ≤ r ∧ r ≤ 36524) ∧ (r = 36524 → c = 3) :=
    ⟨min (doe / 36524) 3, doe - 36524 * min (doe / 36524) 3, by omega⟩
  obtain ⟨a, t, hrest, ha, ht, hleap⟩ : ∃ a t : Int, r % 1461 = 365 * a + t ∧ (0 ≤ a ∧ a ≤ 3) ∧
      (0 ≤ t ∧ t ≤ 365) ∧ (t = 365 → a = 3) :=
    ⟨min (r % 1461 / 365) 3, r % 1461 - 365 * min (r % 1461 / 365) 3, by omega⟩
  have hcycle : 0 ≤ r / 1461 ∧ r / 1461 ≤ 24 := by omega
  have hend : t = 365 → a = 3 ∧ (r / 1461 = 24 → c = 3) := by omega
  refine ⟨⟨c, r / 1461, a, t, hc, hcycle, ha, ht, hend⟩, ?_⟩
  show 36524 * c + 1461 * (r / 1461) + 365 * a + t = doe
  omega

/-- The source's divisions find the year of the era. -/
theorem yearOfEra : (p.number - p.number / 1460 + p.number / 36524 - p.number / 146096) / 365 =
    p.years := by
  obtain ⟨c, q, a, t, hc, hq, ha, ht, hleap⟩ := p
  simp only [number, years]
  generalize hdoe : 36524 * c + 1461 * q + 365 * a + t = doe
  have hcentury : doe - 36524 * c ≤ 36524 := by omega
  have hend : doe - 36524 * c = 36524 → c = 3 := by omega
  -- the era's last day alone is counted to a fifth century
  have hcenturies : doe / 36524 - doe / 146096 = c := by
    rcases lt_or_ge (doe - 36524 * c) 36524 with hlt | hge
    · have hfull : doe / 36524 = c := by omega
      omega
    · omega
  have hdays : doe - (25 * c + q) + c = 365 * (100 * c + 4 * q + a) + t := by omega
  -- the leap days are counted in steps of 1460 days, one too many late in a cycle
  rcases lt_or_ge (24 * c + q + 365 * a + t) 1460 with hlt | hge
  · have hcycles : doe / 1460 = 25 * c + q := by omega
    have hshort : t ≤ 364 := by omega
    omega
  · have hcycles : doe / 1460 = 25 * c + q + 1 := by omega
    have hlong : 1 ≤ t := by omega
    omega

theorem dayOfYear : p.number - (365 * p.years + p.years / 4 - p.years / 100) = p.day := by
  have hc := p.century_range
  have hq := p.cycle_range
  have ha := p.year_range
  rw [number, years]
  omega

/-- The day in the count of all days. -/
theorem marchStart_add (era : Int) :
    marchStart (p.years + era * 400) + p.day = era * 146097 + p.number - 306 := by
  have hc := p.century_range
  have hq := p.cycle_range
  have ha := p.year_range
  rw [marchStart, number, years]
  omega

/-- A last day 365 is 29 February of a leap year. -/
theorem leap_of_day (era : Int) (h : p.day = 365) : leap (p.years + era * 400 + 1) = true := by
  obtain ⟨hyear, hcycle⟩ := p.leap_day h
  have hc := p.century_range
  have hq := p.cycle_range
  rw [leap, Bool.and_eq_true, Bool.or_eq_true, decide_eq_true_iff, decide_eq_true_iff,
    decide_eq_true_iff, years, hyear]
  rcases lt_or_ge p.cycle 24 with hlt | hge
  · omega
  · have hcentury := hcycle (by omega)
    omega

end EraDay

/-! ## The date of a day -/

/-- The month that comes some months after March, and the year it is in. -/
def monthOf (mp : Int) : Int := mp + if mp < 10 then 3 else -9

def yearOf (march mp : Int) : Int := march + if monthOf mp ≤ 2 then 1 else 0

/-- The date of a day of a year that begins in March. -/
theorem exists_date {march doy : Int} (hlow : 0 ≤ doy) (hhigh : doy ≤ 365)
    (hleap : doy = 365 → leap (march + 1) = true) :
    ∃ d : Date, d.ordinal = marchStart march + doy + 1 ∧
      d.year = yearOf march ((5 * doy + 2) / 153) ∧ (d.month : Int) = monthOf ((5 * doy + 2) / 153) ∧
      (d.day : Int) = doy - (153 * ((5 * doy + 2) / 153) + 2) / 5 + 1 := by
  obtain ⟨mp, hmp⟩ : ∃ mp : Nat, (5 * doy + 2) / 153 = mp := ⟨((5 * doy + 2) / 153).toNat, by omega⟩
  obtain ⟨day, hday⟩ : ∃ day : Nat, doy - (153 * (mp : Int) + 2) / 5 + 1 = day :=
    ⟨(doy - (153 * (mp : Int) + 2) / 5 + 1).toNat, by omega⟩
  have hmax : mp ≤ 11 := by omega
  rw [hmp, hday]
  rcases Nat.lt_or_ge mp 10 with hmarch | hjanuary
  · -- from March to December
    have hlength : day ≤ monthLength march (mp + 3) := by
      interval_cases mp <;> simp only [monthLength] <;> omega
    refine ⟨⟨march, mp + 3, day, by omega, by omega, by omega, hlength⟩, ?_, ?_, ?_, rfl⟩
    · have hstart := marchStart_eq march
      have hmonths := monthStart_from_march march (Nat.le_of_lt hmarch)
      simp only [Date.ordinal, hmonths]
      push_cast
      omega
    · simp only [yearOf, monthOf]
      split <;> split <;> omega
    · simp only [monthOf]
      split <;> omega
  · -- January and February of the next year
    have hdays : yearStart (march + 1) = marchStart march + 306 := by
      have hmonths : monthStart march 13 = monthStart march 3 + 306 :=
        monthStart_from_march march (Nat.le_refl 10)
      rw [yearStart_succ, marchStart_eq, hmonths]
      push_cast
      omega
    have hlength : day ≤ monthLength (march + 1) (mp - 9) := by
      interval_cases mp
      · simp only [monthLength]
        omega
      · simp only [monthLength]
        by_cases hlast : doy = 365
        · rw [if_pos (hleap hlast)]
          omega
        · split <;> omega
    refine ⟨⟨march + 1, mp - 9, day, by omega, by omega, by omega, hlength⟩, ?_, ?_, ?_, rfl⟩
    · have hmonths : (monthStart (march + 1) (mp - 9) : Int) = 31 * (mp - 10) := by
        interval_cases mp <;> rfl
      simp only [Date.ordinal, hdays, hmonths]
      omega
    · simp only [yearOf, monthOf]
      split <;> split <;> omega
    · simp only [monthOf]
      split <;> omega

/-! ## The text -/

theorem epoch_one : 1 ≤ 1 := by decide

theorem epoch_month : 1 ≤ 12 := by decide

theorem epoch_day : 1 ≤ monthLength 1970 1 := by decide

theorem epoch_hour : 0 < 24 := by decide

theorem epoch_minute : 0 < 60 := by decide

/-- The Unix epoch, 1970-01-01T00:00:00Z. -/
def epoch : Moment where
  date := ⟨1970, 1, 1, epoch_one, epoch_month, epoch_one, epoch_day⟩
  hour := 0
  minute := 0
  second := 0
  hour_lt := epoch_hour
  minute_lt := epoch_minute
  second_lt := epoch_minute

theorem epoch_count : epoch.count = 86400 * 719163 := rfl

theorem zeroPadded_eq_fixed {width n : Nat} (hwidth : 1 ≤ width) (h : n < 10 ^ width) :
    zeroPadded width n = .ofList (fixed width n) := by
  have hsign : ¬ (n : Int) < 0 := by omega
  simp only [zeroPadded, if_neg hsign, List.nil_append, List.length_nil, Nat.zero_add,
    Int.natAbs_natCast]
  rw [fixed_eq_replicate hwidth h]

/-- The years that are written with four digits end with 9999. -/
theorem fourDigits_after_iff (seconds : Nat) :
    (epoch.after seconds).FourDigits ↔ (epoch.after seconds).date.year ≤ 9999 := by
  refine ⟨fun h => Int.lt_add_one_iff.1 h.2, fun h => ⟨?_, Int.lt_add_one_iff.2 h⟩⟩
  by_contra hneg
  have hkey : (epoch.after seconds).date.ordinal < epoch.date.ordinal :=
    Date.lt_of_year_lt (by
      have hepoch : epoch.date.year = 1970 := rfl
      omega)
  have hcount := epoch.count_after seconds
  have hclock := (epoch.after seconds).clock_lt
  rw [epoch_count, Moment.count] at hcount
  have hordinal : epoch.date.ordinal = 719163 := rfl
  omega

/-- `transcript_timestamp` writes a moment whose second is the one it was given. -/
theorem exists_moment (seconds : Nat) : ∃ m : Moment, m.count = epoch.count + seconds ∧
    transcriptTimestamp seconds = zeroPadded 4 m.date.year ++ "-" ++ zeroPadded 2 m.date.month ++
      "-" ++ zeroPadded 2 m.date.day ++ "T" ++ zeroPadded 2 m.hour ++ ":" ++ zeroPadded 2 m.minute ++
      ":" ++ zeroPadded 2 m.second ++ "Z" := by
  obtain ⟨z, hz⟩ : ∃ z : Int, ((seconds / 86400 : Nat) : Int) + 719468 = z := ⟨_, rfl⟩
  have hpos : 0 ≤ z := by omega
  obtain ⟨p, hp⟩ := @EraDay.exists_place (z - z / 146097 * 146097) (by omega) (by omega)
  have hday := p.day_range
  obtain ⟨d, hordinal, hyear, hmonth, hdate⟩ :=
    exists_date hday.1 hday.2 (p.leap_of_day (z / 146097))
  refine ⟨Moment.onDay d (seconds % 86400) (Nat.mod_lt _ (by norm_num)), ?_, ?_⟩
  · have hmarch := p.marchStart_add (z / 146097)
    have hdate : (Moment.onDay d (seconds % 86400) (Nat.mod_lt _ (by norm_num))).date = d := rfl
    rw [Moment.count, Moment.clock_onDay, hdate, hordinal, epoch_count]
    omega
  · -- the source divides numbers that are not negative only
    have hquot : ∀ {a b : Int}, 0 ≤ a → a.tdiv b = a / b := Int.tdiv_eq_ediv_of_nonneg
    have hdoe : 0 ≤ p.number := by omega
    have hyoe : (p.number - p.number.tdiv 1460 + p.number.tdiv 36524 -
        p.number.tdiv 146096).tdiv 365 = p.years := by
      rw [hquot hdoe, hquot hdoe, hquot hdoe, hquot (by omega), p.yearOfEra]
    have hyears : 0 ≤ p.years := by
      have hc := p.century_range
      have hq := p.cycle_range
      have ha := p.year_range
      rw [EraDay.years]
      omega
    have hdoy : p.number - (365 * p.years + p.years.tdiv 4 - p.years.tdiv 100) = p.day := by
      rw [hquot hyears, hquot hyears, p.dayOfYear]
    have hmp : (5 * p.day + 2).tdiv 153 = (5 * p.day + 2) / 153 := hquot (by omega)
    have hpast : (153 * ((5 * p.day + 2) / 153) + 2).tdiv 5 =
        (153 * ((5 * p.day + 2) / 153) + 2) / 5 := hquot (by omega)
    simp only [transcriptTimestamp, hz, if_pos hpos, hquot hpos, ← hp, hyoe, hdoy, hmp, hpast,
      Moment.onDay, hyear, hmonth, hdate, yearOf, monthOf]
    rfl

/-- `transcript_timestamp` writes the moment that many seconds after the epoch. -/
theorem toList_transcriptTimestamp {seconds : Nat} (h : (epoch.after seconds).date.year ≤ 9999) :
    (transcriptTimestamp seconds).toList = (epoch.after seconds).text := by
  obtain ⟨m, hcount, htext⟩ := exists_moment seconds
  have hm : m = epoch.after seconds := Moment.count_injective (hcount.trans (epoch.count_after _).symm)
  subst hm
  obtain ⟨hlow, hhigh⟩ := (fourDigits_after_iff seconds).2 h
  have hmonth := (epoch.after seconds).date.month_le
  have hday := (epoch.after seconds).date.day_lt
  have hhour := (epoch.after seconds).hour_lt
  have hminute := (epoch.after seconds).minute_lt
  have hsecond := (epoch.after seconds).second_lt
  have hyear : ((epoch.after seconds).date.year.toNat : Int) = (epoch.after seconds).date.year :=
    Int.toNat_of_nonneg hlow
  rw [htext, ← hyear, zeroPadded_eq_fixed (by norm_num) (by norm_num; omega),
    zeroPadded_eq_fixed (by norm_num) (by norm_num; omega),
    zeroPadded_eq_fixed (by norm_num) (by norm_num; omega),
    zeroPadded_eq_fixed (by norm_num) (by norm_num; omega),
    zeroPadded_eq_fixed (by norm_num) (by norm_num; omega),
    zeroPadded_eq_fixed (by norm_num) (by norm_num; omega)]
  simp only [String.toList_append, String.toList_ofList, Moment.text, List.append_assoc]
  rfl

/-- A timestamp is the UTC date and time of its second in the Gregorian calendar, and timestamps
compare as texts the way their seconds compare, up to the end of the year 9999. -/
theorem transcriptTimestamp_correct {s t : Nat} (hs : (epoch.after s).date.year ≤ 9999)
    (ht : (epoch.after t).date.year ≤ 9999) :
    (transcriptTimestamp s).toList = (epoch.after s).text ∧
      (transcriptTimestamp s < transcriptTimestamp t ↔ s < t) := by
  refine ⟨toList_transcriptTimestamp hs, ?_⟩
  rw [String.lt_iff, toList_transcriptTimestamp hs, toList_transcriptTimestamp ht,
    Moment.text_lt_iff ((fourDigits_after_iff s).2 hs) ((fourDigits_after_iff t).2 ht),
    ← Moment.count_lt_iff, Moment.count_after, Moment.count_after]
  omega

/-- The years up to 9999 end with second 253402300799. -/
theorem year_after_le_iff (seconds : Nat) :
    (epoch.after seconds).date.year ≤ 9999 ↔ seconds < 253402300800 := by
  have hcount := epoch.count_after seconds
  have hclock := (epoch.after seconds).clock_lt
  have hlast : yearStart 10000 = 3652059 := rfl
  rw [epoch_count, Moment.count] at hcount
  constructor
  · intro hyear
    have hle := (epoch.after seconds).date.ordinal_le_yearStart
    have hmono := yearStart_mono (Int.add_one_le_iff.2 (Int.lt_add_one_iff.2 hyear))
    have hend : yearStart (9999 + 1) = yearStart 10000 := rfl
    omega
  · intro hlt
    by_contra hyear
    have hmono := yearStart_mono (Int.add_one_le_iff.2 (not_le.1 hyear))
    have hordinal : (epoch.after seconds).date.ordinal = yearStart (epoch.after seconds).date.year +
      monthStart (epoch.after seconds).date.year (epoch.after seconds).date.month +
      (epoch.after seconds).date.day := rfl
    have hday := (epoch.after seconds).date.day_pos
    have hend : yearStart (9999 + 1) = yearStart 10000 := rfl
    omega

/-- The leap day of the year 2000, and the day after. -/
theorem transcriptTimestamp_leap_day :
    (transcriptTimestamp 951782400).toList = (epoch.after 951782400).text ∧
      (transcriptTimestamp 951782400 < transcriptTimestamp 951868800 ↔
        (951782400 : Nat) < 951868800) :=
  transcriptTimestamp_correct ((year_after_le_iff 951782400).2 (by norm_num))
    ((year_after_le_iff 951868800).2 (by norm_num))

end Server

end StateDrivenAgent
