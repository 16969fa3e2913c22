import Garuda.Infra.Build
import Garuda.Infra.Calendar

/-!
# Timestamps

`rfc3339` computes the date of a number of seconds since 1970 with 64-bit integers. Every sum,
difference and product of it is checked, and a quotient is truncated.

* `yearOfEra`, `dayOfYear`, `monthFromMarch`, `dayOfMonth`, `monthOfYear` and `yearOfMonth` are its
  lines, and each is natural arithmetic in range.
* `rfc3339_eq` puts them together, as a day of a cycle of 400 years.

`rfc3339_calendar` says that the date is the calendar's, and that nothing overflows.
-/

namespace Garuda

open Infra

/-! ## The function -/

/-- `(doe - doe / 1460 + doe / 36_524 - doe / 146_096) / 365` -/
def yearOfEra (b : Build) (doe : Int) : Checked Unit Int := do
  let quads ← b.fitI64 (doe - doe.tdiv 1460)
  let centuries ← b.fitI64 (quads + doe.tdiv 36524)
  let eras ← b.fitI64 (centuries - doe.tdiv 146096)
  .ok (eras.tdiv 365)

/-- `doe - (365 * yoe + yoe / 4 - yoe / 100)` -/
def dayOfYear (b : Build) (doe yoe : Int) : Checked Unit Int := do
  let days ← b.fitI64 (365 * yoe)
  let quads ← b.fitI64 (days + yoe.tdiv 4)
  let centuries ← b.fitI64 (quads - yoe.tdiv 100)
  b.fitI64 (doe - centuries)

/-- `(5 * doy + 2) / 153` -/
def monthFromMarch (b : Build) (doy : Int) : Checked Unit Int := do
  let fives ← b.fitI64 (5 * doy)
  let sum ← b.fitI64 (fives + 2)
  .ok (sum.tdiv 153)

/-- `doy - (153 * mp + 2) / 5 + 1` -/
def dayOfMonth (b : Build) (doy mp : Int) : Checked Unit Int := do
  let months ← b.fitI64 (153 * mp)
  let sum ← b.fitI64 (months + 2)
  let rest ← b.fitI64 (doy - sum.tdiv 5)
  b.fitI64 (rest + 1)

/-- `if mp < 10 { mp + 3 } else { mp - 9 }` -/
def monthOfYear (b : Build) (mp : Int) : Checked Unit Int :=
  if mp < 10 then b.fitI64 (mp + 3) else b.fitI64 (mp - 9)

/-- `if m <= 2 { y + 1 } else { y }` -/
def yearOfMonth (b : Build) (y m : Int) : Checked Unit Int :=
  if m ≤ 2 then b.fitI64 (y + 1) else .ok y

/-- `{n:0w}`: the sign first, then zeros up to the width. -/
def zeroPadded (w : Nat) (n : Int) : String :=
  let digits := toString n.natAbs
  let sign := if n < 0 then "-" else ""
  sign ++ String.ofList (List.replicate (w - sign.length - digits.length) '0') ++ digits

/-- `{y:04}-{m:02}-{d:02}T{h:02}:{mi:02}:{s:02}Z` -/
def stamp (y m d : Int) (h mi s : Nat) : String :=
  zeroPadded 4 y ++ "-" ++ zeroPadded 2 m ++ "-" ++ zeroPadded 2 d ++ "T" ++ zeroPadded 2 h ++ ":"
    ++ zeroPadded 2 mi ++ ":" ++ zeroPadded 2 s ++ "Z"

/-- `rfc3339` -/
def rfc3339 (b : Build) (secs : UInt64) : Checked Unit String := do
  let days := secs / 86400
  let rem := secs % 86400
  let h := rem / 3600
  let mi := rem % 3600 / 60
  let s := rem % 60
  let z ← b.fitI64 (days.toInt64.toInt + 719468)
  let era := z.tdiv 146097
  let eraDays ← b.fitI64 (era * 146097)
  let doe ← b.fitI64 (z - eraDays)
  let yoe ← yearOfEra b doe
  let eraYears ← b.fitI64 (era * 400)
  let y ← b.fitI64 (yoe + eraYears)
  let doy ← dayOfYear b doe yoe
  let mp ← monthFromMarch b doy
  let d ← dayOfMonth b doy mp
  let m ← monthOfYear b mp
  let y ← yearOfMonth b y m
  .ok (stamp y m d h.toNat mi.toNat s.toNat)

/-! ## In range -/

section Lines

variable (b : Build)

theorem yearOfEra_eq (D : CycleDay) : yearOfEra b D.doe = .ok (D.yoe : Int) := by
  have hlt := D.doe_lt
  obtain ⟨hcenturies, hle⟩ := D.centuries
  have hyoe := D.yoe_eq
  rw [yearOfEra]
  simp only [Int.tdiv_eq_ediv_of_nonneg (Int.natCast_nonneg D.doe)]
  rw [Build.fitI64_bind b (D.doe - D.doe / 1460) (by omega) (by omega),
    Build.fitI64_bind b (D.doe - D.doe / 1460 + D.doe / 36524) (by omega) (by omega),
    Build.fitI64_bind b (D.doe - D.doe / 1460 + D.doe / 36524 - D.doe / 146096) (by omega)
      (by omega),
    Int.tdiv_eq_ediv_of_nonneg (Int.natCast_nonneg _)]
  exact congrArg _ (congrArg _ hyoe)

theorem dayOfYear_eq (D : CycleDay) : dayOfYear b D.doe D.yoe = .ok (D.doy : Int) := by
  have hlt := D.doe_lt
  have hdoe := D.doe_eq
  rw [dayOfYear]
  simp only [Int.tdiv_eq_ediv_of_nonneg (Int.natCast_nonneg D.yoe)]
  rw [Build.fitI64_bind b (365 * D.yoe) (by omega) (by omega),
    Build.fitI64_bind b (365 * D.yoe + D.yoe / 4) (by omega) (by omega),
    Build.fitI64_bind b (365 * D.yoe + D.yoe / 4 - D.yoe / 100) (by omega) (by omega),
    Build.fitI64_natCast b D.doy (by omega) (by omega)]

theorem monthFromMarch_eq {doy : Nat} (h : doy ≤ 365) :
    monthFromMarch b doy = .ok (((5 * doy + 2) / 153 : Nat) : Int) := by
  rw [monthFromMarch, Build.fitI64_bind b (5 * doy) (by omega) (by omega),
    Build.fitI64_bind b (5 * doy + 2) (by omega) (by omega), Int.tdiv_eq_ediv_of_nonneg (Int.natCast_nonneg _)]
  rfl

theorem dayOfMonth_eq {doy mp : Nat} (hdoy : doy ≤ 365) (h : (153 * mp + 2) / 5 ≤ doy) :
    dayOfMonth b doy mp = .ok ((doy - (153 * mp + 2) / 5 + 1 : Nat) : Int) := by
  rw [dayOfMonth, Build.fitI64_bind b (153 * mp) (by omega) (by omega),
    Build.fitI64_bind b (153 * mp + 2) (by omega) (by omega),
    Int.tdiv_eq_ediv_of_nonneg (Int.natCast_nonneg _),
    Build.fitI64_bind b (doy - (153 * mp + 2) / 5) (by omega) (by omega),
    Build.fitI64_natCast b (doy - (153 * mp + 2) / 5 + 1) (by omega) (by omega)]

theorem monthOfYear_eq {mp : Nat} (h : mp ≤ 11) :
    monthOfYear b mp = .ok (civilMonth mp : Int) := by
  rw [monthOfYear, civilMonth]
  rcases Nat.lt_or_ge mp 10 with hlt | hge
  · rw [if_pos (by omega), if_pos hlt]
    exact Build.fitI64_natCast b (mp + 3) (by omega) (by omega)
  · rw [if_neg (by omega), if_neg (by omega)]
    exact Build.fitI64_natCast b (mp - 9) (by omega) (by omega)

theorem yearOfMonth_eq {y m : Nat} (h : y + 1 < 2 ^ 63) :
    yearOfMonth b y m = .ok ((if m ≤ 2 then y + 1 else y : Nat) : Int) := by
  rw [yearOfMonth]
  split
  · rw [if_pos (by omega), Build.fitI64_natCast b (y + 1) (by omega) h]
  · rw [if_neg (by omega)]

/-- The days, as a signed number. -/
theorem toInt_days (secs : UInt64) : (secs / 86400).toInt64.toInt = (secs.toNat / 86400 : Nat) := by
  have hdays : (secs / 86400).toNat = secs.toNat / 86400 := UInt64.toNat_div secs 86400
  have hlt := UInt64.toNat_lt secs
  rw [← hdays]
  exact BitVec.toInt_eq_toNat_of_lt (show 2 * (secs / 86400).toNat < 2 ^ 64 by omega)

/-- The date of a day of a cycle, and the time of the day. -/
theorem rfc3339_eq {secs : UInt64} {D : CycleDay} {era : Nat}
    (h : secs.toNat / 86400 + 719468 = 146097 * era + D.doe) :
    rfc3339 b secs = .ok
      (stamp (marchDate (D.yoe + 400 * era) D.doy (D.doy_lt era)).year
        (marchDate (D.yoe + 400 * era) D.doy (D.doy_lt era)).month
        (marchDate (D.yoe + 400 * era) D.doy (D.doy_lt era)).day
        (secs.toNat % 86400 / 3600) (secs.toNat % 86400 % 3600 / 60)
        (secs.toNat % 86400 % 60)) := by
  have hsecs := UInt64.toNat_lt secs
  have hdoe := D.doe_lt
  have hyoe := D.yoe_lt
  obtain ⟨hmp, hlo, -⟩ := marchMonth_spec D.doy_le
  have hera : ((secs.toNat / 86400 + 719468 : Nat) : Int) / 146097 = era := by omega
  have hh : (secs % 86400 / 3600).toNat = secs.toNat % 86400 / 3600 := by
    rw [UInt64.toNat_div, UInt64.toNat_mod]
    rfl
  have hmi : (secs % 86400 % 3600 / 60).toNat = secs.toNat % 86400 % 3600 / 60 := by
    rw [UInt64.toNat_div, UInt64.toNat_mod, UInt64.toNat_mod]
    rfl
  have hs : (secs % 86400 % 60).toNat = secs.toNat % 86400 % 60 := by
    rw [UInt64.toNat_mod, UInt64.toNat_mod]
    rfl
  rw [rfc3339, toInt_days, hh, hmi, hs,
    Build.fitI64_bind b (secs.toNat / 86400 + 719468) (by omega) (by omega),
    Int.tdiv_eq_ediv_of_nonneg (Int.natCast_nonneg _), hera]
  dsimp only
  rw [Build.fitI64_bind b (era * 146097) (by omega) (by omega),
    Build.fitI64_bind b D.doe (by omega) (by omega), yearOfEra_eq, Checked.ok_bind,
    Build.fitI64_bind b (era * 400) (by omega) (by omega),
    Build.fitI64_bind b (D.yoe + 400 * era) (by omega) (by omega), dayOfYear_eq, Checked.ok_bind, monthFromMarch_eq b D.doy_le, Checked.ok_bind,
    dayOfMonth_eq b D.doy_le hlo, Checked.ok_bind, monthOfYear_eq b hmp, Checked.ok_bind,
    yearOfMonth_eq b (by omega), Checked.ok_bind]
  rfl

end Lines

/-! ## The calendar -/

/-- 1970-01-01. -/
def epoch : Date := ⟨1970, 1, 1, by decide, by decide, by decide, by decide⟩

theorem epoch_dayNumber : epoch.dayNumber = 719528 := by
  have hmarch := yearStart_march 1970
  have hmonths : monthStart 1970 3 = 59 := by decide
  have hfirst : monthStart 1970 1 = 0 := by decide
  rw [hmonths, marchStart] at hmarch
  rw [Date.dayNumber, epoch, hfirst]
  dsimp only
  omega

/--
**The timestamp is the calendar's.**

In either build, for every number of seconds, it is that of the one day that many days after
1970-01-01, and of the time of day that is left.
-/
theorem rfc3339_calendar (b : Build) (secs : UInt64) :
    ∃ (D : Date) (h mi s : Nat),
      rfc3339 b secs = .ok (stamp D.year D.month D.day h mi s) ∧
      daysFromCivil D.year D.month D.day = (secs.toNat / 86400 : Nat) ∧
      (∀ E : Date, E.dayNumber = epoch.dayNumber + secs.toNat / 86400 ↔ E = D) ∧
      h < 24 ∧ mi < 60 ∧ s < 60 ∧ h * 3600 + mi * 60 + s = secs.toNat % 86400 := by
  obtain ⟨C, hC⟩ : ∃ C : CycleDay, C.doe = (secs.toNat / 86400 + 719468) % 146097 :=
    CycleDay.exists_eq (Nat.mod_lt _ (by decide))
  have hera : secs.toNat / 86400 + 719468
      = 146097 * ((secs.toNat / 86400 + 719468) / 146097) + C.doe := by
    rw [hC, Nat.div_add_mod]
  have hnumber := marchDate_dayNumber _ _
    (C.doy_lt ((secs.toNat / 86400 + 719468) / 146097))
  have hmarch := C.marchStart_add ((secs.toNat / 86400 + 719468) / 146097)
  refine ⟨_, _, _, _, rfc3339_eq b hera, ?_, fun E => ⟨fun hE => ?_, fun hE => ?_⟩, by omega,
    by omega, by omega, by omega⟩
  · rw [Date.daysFromCivil_eq, hnumber]
    omega
  · refine Date.dayNumber_injective (hE.trans ?_)
    rw [epoch_dayNumber, hnumber]
    omega
  · rw [hE, epoch_dayNumber, hnumber]
    omega

example : rfc3339 .debug 951826123 = .ok "2000-02-29T12:08:43Z" := by decide +kernel

end Garuda
