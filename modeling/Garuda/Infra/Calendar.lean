import Mathlib

/-!
# The proleptic Gregorian calendar

* `monthLength` and `yearLength` are the calendar's rules, with leap years by the 4/100/400 rule.
* `Date` is a day of the calendar, valid by construction.
* `Date.dayNumber` counts the days since 0000-01-01, and `Date.dayNumber_injective` says that it
  tells days apart.
* `marchStart` counts the days of years that begin in March, where the leap day is the last, and
  `marchDate` is a day of such a year.
* `CycleDay` is a day of the cycle of 400 years, and `CycleDay.yoe_eq` finds its year by division.

`Date.daysFromCivil_eq` is the closed form of the count, with 1970-01-01 as day 0.
-/

namespace Infra

/-! ## Rules -/

/-- Every fourth year, but of the centuries only every fourth. -/
def isLeap (y : Nat) : Bool := (y % 4 = 0 && y % 100 ≠ 0) || y % 400 = 0

def monthLength (y : Nat) : Nat → Nat
  | 2 => if isLeap y then 29 else 28
  | 4 | 6 | 9 | 11 => 30
  | 1 | 3 | 5 | 7 | 8 | 10 | 12 => 31
  | _ => 0

def yearLength (y : Nat) : Nat := if isLeap y then 366 else 365

theorem doy_le {y doy : Nat} (h : doy < yearLength y) : doy ≤ 365 := by
  rw [yearLength] at h
  split at h <;> omega

/-- The days of a year before a month. -/
def monthStart (y : Nat) : Nat → Nat
  | 0 => 0
  | m + 1 => monthStart y m + monthLength y m

/-- The days before a year, from 0000-01-01. -/
def yearStart : Nat → Nat
  | 0 => 0
  | y + 1 => yearStart y + yearLength y

/-- A day of the calendar. -/
structure Date where
  year : Nat
  month : Nat
  day : Nat
  month_pos : 1 ≤ month
  month_le : month ≤ 12
  day_pos : 1 ≤ day
  day_le : day ≤ monthLength year month

/-- The days from 0000-01-01. -/
def Date.dayNumber (D : Date) : Nat := yearStart D.year + monthStart D.year D.month + (D.day - 1)

/-! ## Order -/

theorem monthStart_mono (y : Nat) : Monotone (monthStart y) :=
  monotone_nat_of_le_succ fun _ => Nat.le_add_right _ _

theorem yearStart_mono : Monotone yearStart := monotone_nat_of_le_succ fun _ => Nat.le_add_right _ _

/-- The months make up the year. -/
theorem monthStart_thirteen (y : Nat) : monthStart y 13 = yearLength y := by
  rw [yearLength]
  simp only [monthStart, monthLength]
  split <;> rfl

namespace Date

/-- A day is one of its month. -/
theorem lt_monthStart_succ (D : Date) :
    monthStart D.year D.month + (D.day - 1) < monthStart D.year (D.month + 1) := by
  have hpos := D.day_pos
  have hle := D.day_le
  rw [monthStart]
  omega

/-- A day is one of its year. -/
theorem lt_yearStart_succ (D : Date) : D.dayNumber < yearStart (D.year + 1) := by
  have hday := D.lt_monthStart_succ
  have hmonth : monthStart D.year (D.month + 1) ≤ monthStart D.year 13 :=
    monthStart_mono D.year (Nat.succ_le_succ D.month_le)
  rw [monthStart_thirteen] at hmonth
  rw [dayNumber, yearStart]
  omega

theorem year_le {D E : Date} (h : D.dayNumber ≤ E.dayNumber) : D.year ≤ E.year := by
  by_contra hlt
  have hstart : yearStart (E.year + 1) ≤ yearStart D.year := yearStart_mono (Nat.not_le.mp hlt)
  have hE := E.lt_yearStart_succ
  have hD : yearStart D.year ≤ D.dayNumber := by
    rw [dayNumber]
    omega
  omega

theorem month_le_month {D E : Date} (hyear : D.year = E.year)
    (h : D.dayNumber ≤ E.dayNumber) : D.month ≤ E.month := by
  by_contra hlt
  have hstart : monthStart E.year (E.month + 1) ≤ monthStart E.year D.month :=
    monthStart_mono E.year (Nat.not_le.mp hlt)
  have hE := E.lt_monthStart_succ
  rw [dayNumber, dayNumber, hyear] at h
  omega

/-- **No two days have the same number.** -/
theorem dayNumber_injective : Function.Injective dayNumber := by
  intro D E heq
  have hyear : D.year = E.year := Nat.le_antisymm (year_le heq.le) (year_le heq.ge)
  have hmonth : D.month = E.month :=
    Nat.le_antisymm (month_le_month hyear heq.le) (month_le_month hyear.symm heq.ge)
  have hday : D.day = E.day := by
    have hD := D.day_pos
    have hE := E.day_pos
    rw [dayNumber, dayNumber, hyear, hmonth] at heq
    omega
  cases D
  cases E
  cases hyear
  cases hmonth
  cases hday
  rfl

end Date

/-! ## Years from March -/

/-- Days since 0000-03-01 of the first of March of year `y`. -/
def marchStart (y : Nat) : Nat := 365 * y + y / 4 - y / 100 + y / 400

theorem isLeap_iff (y : Nat) : isLeap y = true ↔ y % 4 = 0 ∧ y % 100 ≠ 0 ∨ y % 400 = 0 := by
  simp [isLeap]

/-- A year from March has the leap day of the year it ends in. -/
theorem marchStart_succ (y : Nat) : marchStart (y + 1) = marchStart y + yearLength (y + 1) := by
  rw [yearLength, marchStart, marchStart]
  split
  · rename_i hleap
    rcases (isLeap_iff _).mp hleap with ⟨h4, h100⟩ | h400
    · omega
    · omega
  · rename_i hcommon
    have hcommon := mt (isLeap_iff _).mpr hcommon
    have h400 : (y + 1) % 400 ≠ 0 := fun h => hcommon (.inr h)
    by_cases h4 : (y + 1) % 4 = 0
    · have h100 : (y + 1) % 100 = 0 := by_contra fun h => hcommon (.inl ⟨h4, h⟩)
      clear hcommon
      omega
    · clear hcommon h400
      have h4' : (y + 1) / 4 = y / 4 := by omega
      have h100' : (y + 1) / 100 = y / 100 := by omega
      have h400' : (y + 1) / 400 = y / 400 := by omega
      rw [h4', h100', h400']
      omega

/-- January and February. -/
theorem monthStart_three (y : Nat) : monthStart y 3 + 306 = yearLength y := by
  rw [yearLength]
  simp only [monthStart, monthLength]
  split <;> rfl

/-- The days before March, by years from January and by years from March. -/
theorem yearStart_march (y : Nat) : yearStart y + monthStart y 3 = marchStart y + 60 := by
  induction y with
  | zero => rfl
  | succ y ih =>
    have hthis := monthStart_three y
    have hnext := monthStart_three (y + 1)
    rw [yearStart, marchStart_succ]
    omega

/-- The days before a month, by months from March. -/
theorem monthStart_march (y : Nat) {mp : Nat} (h : mp < 10) :
    monthStart y (mp + 3) = monthStart y 3 + (153 * mp + 2) / 5 := by
  interval_cases mp <;> rfl

theorem monthStart_next (y : Nat) {mp : Nat} (hlo : 10 ≤ mp) (h : mp ≤ 11) :
    monthStart y (mp - 9) + 306 = (153 * mp + 2) / 5 := by
  interval_cases mp <;> rfl

/-- A day of a year from March is a day of its month. -/
theorem marchMonth_spec {doy : Nat} (h : doy ≤ 365) :
    (5 * doy + 2) / 153 ≤ 11 ∧ (153 * ((5 * doy + 2) / 153) + 2) / 5 ≤ doy ∧
      doy < (153 * ((5 * doy + 2) / 153 + 1) + 2) / 5 := by
  omega

/-- Month `mp` from March, as a month from January. -/
def civilMonth (mp : Nat) : Nat := if mp < 10 then mp + 3 else mp - 9

theorem civilMonth_range {mp : Nat} (h : mp ≤ 11) : 1 ≤ civilMonth mp ∧ civilMonth mp ≤ 12 := by
  rw [civilMonth]
  split <;> omega

theorem monthLength_march (y : Nat) {mp : Nat} (h : mp < 11) :
    monthLength y (civilMonth mp) = (153 * (mp + 1) + 2) / 5 - (153 * mp + 2) / 5 := by
  interval_cases mp <;> rfl

theorem monthLength_february (y : Nat) : monthLength y 2 + 337 = yearLength y := by
  rw [yearLength, monthLength]
  split <;> rfl

/-- Day `doy` of the year from March of year `y`. -/
def marchDate (y doy : Nat) (h : doy < yearLength (y + 1)) : Date where
  year := if civilMonth ((5 * doy + 2) / 153) ≤ 2 then y + 1 else y
  month := civilMonth ((5 * doy + 2) / 153)
  day := doy - (153 * ((5 * doy + 2) / 153) + 2) / 5 + 1
  month_pos := (civilMonth_range (marchMonth_spec (doy_le h)).1).1
  month_le := (civilMonth_range (marchMonth_spec (doy_le h)).1).2
  day_pos := Nat.le_add_left 1 _
  day_le := by
    obtain ⟨hmp, hlo, hhi⟩ := marchMonth_spec (doy_le h)
    rcases hmp.lt_or_eq with hlt | heq
    · rw [monthLength_march _ hlt]
      omega
    · -- the last month is a February, and the rest of its year
      have hfebruary := monthLength_february (y + 1)
      rw [heq]
      show doy - 337 + 1 ≤ monthLength (y + 1) 2
      rw [heq] at hlo
      omega

theorem marchDate_dayNumber (y doy : Nat) (h : doy < yearLength (y + 1)) :
    (marchDate y doy h).dayNumber = marchStart y + 60 + doy := by
  have hmarch := yearStart_march y
  obtain ⟨hmp, hlo, -⟩ := marchMonth_spec (doy_le h)
  rw [Date.dayNumber, marchDate]
  dsimp only
  rcases Nat.lt_or_ge ((5 * doy + 2) / 153) 10 with hlt | hge
  · have hmonth : civilMonth ((5 * doy + 2) / 153) = (5 * doy + 2) / 153 + 3 := if_pos hlt
    rw [hmonth, if_neg (by omega), monthStart_march y hlt]
    omega
  · have hmonth : civilMonth ((5 * doy + 2) / 153) = (5 * doy + 2) / 153 - 9 :=
      if_neg (Nat.not_lt.mpr hge)
    have hnext := monthStart_next (y + 1) hge hmp
    have hthree := monthStart_three y
    rw [hmonth, if_pos (by omega), yearStart]
    omega

/-! ## Cycles of 400 years -/

/-- A day of the cycle: its century, the four years of the century, the year of the four, and the
day of the year. Only the last year of four has a leap day, and of a century's last four years only
the last century's. -/
structure CycleDay where
  century : Nat
  quad : Nat
  single : Nat
  doy : Nat
  century_le : century ≤ 3
  quad_le : quad ≤ 24
  single_le : single ≤ 3
  doy_le : doy ≤ 365
  leap_single : doy = 365 → single = 3
  leap_century : doy = 365 → quad = 24 → century = 3

namespace CycleDay

variable (D : CycleDay)

/-- The day of the cycle. -/
def doe : Nat := 36524 * D.century + (1461 * D.quad + 365 * D.single + D.doy)

/-- The year of the cycle. -/
def yoe : Nat := 100 * D.century + 4 * D.quad + D.single

theorem yoe_lt : D.yoe < 400 := by
  have hcentury := D.century_le
  have hquad := D.quad_le
  have hsingle := D.single_le
  rw [yoe]
  omega

theorem doe_lt : D.doe < 146097 := by
  have hcentury := D.century_le
  have hquad := D.quad_le
  have hsingle := D.single_le
  have hdoy := D.doy_le
  have hleap := D.leap_single
  have hlast := D.leap_century
  rw [doe]
  omega

theorem doe_eq : D.doe = 365 * D.yoe + D.yoe / 4 - D.yoe / 100 + D.doy := by
  have hcentury := D.century_le
  have hquad := D.quad_le
  have hsingle := D.single_le
  have h4 : D.yoe / 4 = 25 * D.century + D.quad := by
    rw [yoe]
    omega
  have h100 : D.yoe / 100 = D.century := by
    rw [yoe]
    omega
  rw [h4, h100, doe, yoe]
  omega

/-- How many leap days `doe / 1460` counts too many, or too few. -/
theorem quads : ∃ e, D.doe / 1460 = 25 * D.century + D.quad + e ∧ e ≤ D.doy ∧ D.doy < 365 + e := by
  have hcentury := D.century_le
  have hquad := D.quad_le
  have hsingle := D.single_le
  have hdoy := D.doy_le
  have hleap := D.leap_single
  refine ⟨(24 * D.century + D.quad + 365 * D.single + D.doy) / 1460, ?_, ?_⟩
  · rw [doe]
    omega
  · generalize D.single = j at *
    interval_cases j <;> omega

/-- The last day of the cycle is one of a fifth century by division, of which none is counted. -/
theorem centuries : D.doe / 36524 = D.century + D.doe / 146096 ∧ D.doe / 146096 ≤ 1 := by
  have hcentury := D.century_le
  have hquad := D.quad_le
  have hsingle := D.single_le
  have hdoy := D.doy_le
  have hleap := D.leap_single
  have hlast := D.leap_century
  obtain ⟨r, hr⟩ : ∃ r, r = 1461 * D.quad + 365 * D.single + D.doy := ⟨_, rfl⟩
  have hrest : r ≤ 36524 := by omega
  rw [doe, ← hr]
  rcases hrest.eq_or_lt with heq | hlt
  · have hfour : D.century = 3 := by omega
    rw [heq, hfour]
    exact ⟨rfl, le_rfl⟩
  · clear hr hleap hlast
    have h36524 : (36524 * D.century + r) / 36524 = D.century := by omega
    have h146096 : (36524 * D.century + r) / 146096 = 0 := by omega
    rw [h36524, h146096]
    exact ⟨rfl, Nat.zero_le 1⟩

/-- **The year of a day**, by division. -/
theorem yoe_eq : (D.doe - D.doe / 1460 + D.doe / 36524 - D.doe / 146096) / 365 = D.yoe := by
  obtain ⟨hcenturies, -⟩ := D.centuries
  obtain ⟨e, hquads, hlo, hhi⟩ := D.quads
  have hsum : D.doe - D.doe / 1460 + D.doe / 36524 - D.doe / 146096
      = 365 * D.yoe + (D.doy - e) := by
    rw [hquads, hcenturies, yoe]
    generalize D.doe / 146096 = c
    rw [doe]
    omega
  have hrest : D.doy - e < 365 := by omega
  rw [hsum, Nat.mul_add_div (by decide), Nat.div_eq_of_lt hrest, Nat.add_zero]

/-- A day of a year is a day of one of the cycle's. -/
theorem doy_lt (era : Nat) : D.doy < yearLength (D.yoe + 400 * era + 1) := by
  have hdoy := D.doy_le
  rw [yearLength]
  split
  · omega
  · rename_i hcommon
    refine hdoy.lt_of_ne fun hleap => hcommon ((isLeap_iff _).mpr ?_)
    have hsingle := D.leap_single hleap
    have hquad := D.quad_le
    have hcentury := D.century_le
    by_cases hlast : D.quad = 24
    · have hfour := D.leap_century hleap hlast
      right
      rw [yoe, hsingle, hlast, hfour]
      omega
    · left
      rw [yoe, hsingle]
      omega

theorem marchStart_add (era : Nat) :
    marchStart (D.yoe + 400 * era) + D.doy = 146097 * era + D.doe := by
  have hyoe := D.yoe_lt
  rw [doe_eq, marchStart]
  omega

/-- Cutting days into periods of `w`, the last of which may be a day longer. -/
theorem exists_period {w n d : Nat} (hw : 0 < w) (h : d ≤ w * (n + 1)) :
    ∃ b r, b ≤ n ∧ r ≤ w ∧ (r = w → b = n) ∧ d = w * b + r := by
  rcases h.eq_or_lt with rfl | hlt
  · exact ⟨n, w, le_rfl, le_rfl, fun _ => rfl, Nat.mul_succ w n⟩
  · have hr : d % w < w := Nat.mod_lt d hw
    exact ⟨d / w, d % w, Nat.lt_succ_iff.mp (Nat.div_lt_of_lt_mul hlt), hr.le,
      fun h => absurd h hr.ne, (Nat.div_add_mod d w).symm⟩

/-- Every day of the cycle is one. -/
theorem exists_eq {doe : Nat} (h : doe < 146097) : ∃ D : CycleDay, D.doe = doe := by
  obtain ⟨b, r, hb, hr, hlast, hdoe⟩ := exists_period (w := 36524) (n := 3) (d := doe) (by decide)
    (by omega)
  have hq : r / 1461 ≤ 24 := by omega
  obtain ⟨j, s, hj, hs, hlong, hrest⟩ := exists_period (w := 365) (n := 3) (d := r % 1461)
    (by decide) (by omega)
  refine ⟨⟨b, r / 1461, j, s, hb, hq, hj, hs, hlong, fun _ _ => hlast ?_⟩, ?_⟩
  · omega
  · show 36524 * b + (1461 * (r / 1461) + 365 * j + s) = doe
    omega

end CycleDay

/-! ## Days from a date -/

/-- The days from 1970-01-01, in closed form. -/
def daysFromCivil (y m d : Nat) : Int :=
  let y : Int := if m ≤ 2 then y - 1 else y
  let era := y / 400
  let yoe := y - era * 400
  let mp := if 2 < m then m - 3 else m + 9
  let doy := (153 * mp + 2) / 5 + d - 1
  era * 146097 + (yoe * 365 + yoe / 4 - yoe / 100 + (doy : Nat)) - 719468

/-- The years before a year from March, in cycles. -/
theorem marchStart_cycles (y : Nat) :
    (y : Int) / 400 * 146097 + ((y - (y : Int) / 400 * 400) * 365 + (y - (y : Int) / 400 * 400) / 4
      - (y - (y : Int) / 400 * 400) / 100) = marchStart y := by
  rw [marchStart]
  omega

/-- **The closed form counts the days of the calendar.** -/
theorem Date.daysFromCivil_eq (D : Date) :
    daysFromCivil D.year D.month D.day = (D.dayNumber : Int) - 719528 := by
  have hmonth := D.month_le
  have hmonth' := D.month_pos
  have hday := D.day_pos
  rw [daysFromCivil, Date.dayNumber]
  rcases Nat.lt_or_ge 2 D.month with hlate | hearly
  · have hmarch := yearStart_march D.year
    have hmonths : monthStart D.year (D.month - 3 + 3) = _ := monthStart_march D.year (by omega)
    rw [Nat.sub_add_cancel hlate] at hmonths
    have hcycles := marchStart_cycles D.year
    rw [if_neg (by omega), if_pos hlate, hmonths]
    omega
  · have hmonths : monthStart D.year (D.month + 9 - 9) + 306 = _ :=
      monthStart_next D.year (by omega) (by omega)
    rw [Nat.add_sub_cancel] at hmonths
    rw [if_pos hearly, if_neg (by omega)]
    cases hyear : D.year with
    | zero =>
      rw [hyear] at hmonths
      rw [yearStart]
      omega
    | succ y =>
      have hmarch := yearStart_march y
      have hthree := monthStart_three y
      have hcycles := marchStart_cycles y
      rw [hyear] at hmonths
      rw [yearStart, Nat.cast_succ, Int.add_sub_cancel]
      omega

end Infra
