import Veldb.Eval
import Veldb.Library.Gregorian

/-! The calendar functions: the division formula for the date of a day is right on every day. -/

namespace Veldb

open Attempts Gregorian

/-- A day of a 400-year era by its century, its four years, its year and what is left; the last
day of a leap year is the only 366th. -/
structure EraDay (doe c q k r : Int) : Prop where
  century : 0 ≤ c ∧ c ≤ 3
  fours : 0 ≤ q ∧ q ≤ 24
  year : 0 ≤ k ∧ k ≤ 3
  day : 0 ≤ r ∧ r ≤ 365
  sum : doe = 36524 * c + 1461 * q + 365 * k + r
  leap : r = 365 → k = 3 ∧ (q = 24 → c = 3)

theorem eraDay_exists {doe : Int} (h0 : 0 ≤ doe) (h1 : doe < 146097) :
    ∃ c q k r, EraDay doe c q k r := by
  obtain ⟨c, hc, hn, hlast⟩ : ∃ c, (0 ≤ c ∧ c ≤ 3) ∧
      (0 ≤ doe - 36524 * c ∧ doe - 36524 * c ≤ 36524) ∧ (doe - 36524 * c = 36524 → c = 3) := by
    by_cases h : doe = 146096
    · exact ⟨3, by omega, by omega, by omega⟩
    · exact ⟨doe / 36524, by omega, by omega, by omega⟩
  have hq : 0 ≤ (doe - 36524 * c) / 1461 ∧ (doe - 36524 * c) / 1461 ≤ 24 := by omega
  by_cases h : (doe - 36524 * c) % 1461 = 1460
  · exact ⟨c, _, 3, 365, hc, hq, by omega, by omega, by omega, by omega⟩
  · refine ⟨c, _, (doe - 36524 * c) % 1461 / 365, (doe - 36524 * c) % 1461 % 365, hc, hq, ?_, ?_,
      ?_, ?_⟩
    · omega
    · omega
    · omega
    · omega

theorem yearOfEra {doe c q k r : Int} (h : EraDay doe c q k r) :
    (doe - doe / 1460 + doe / 36524 - doe / 146096) / 365 = 100 * c + 4 * q + k := by
  obtain ⟨hc, hq, hk, hr, hsum, hleap⟩ := h
  -- a 1460th day is counted for every four years before, and once more late in the last year
  have hfours : doe / 1460 = 25 * c + q ∨ (doe / 1460 = 25 * c + q + 1 ∧ 1 ≤ r) := by omega
  have hlong : r = 365 → doe / 1460 = 25 * c + q + 1 := by omega
  have hin : 1461 * q + 365 * k + r ≤ 36524 := by omega
  have hend : 1461 * q + 365 * k + r = 36524 → c = 3 := by omega
  have hcentury : doe / 36524 - doe / 146096 = c := by
    by_cases hlast : 1461 * q + 365 * k + r = 36524
    · have hc3 := hend hlast
      omega
    · have hdiv : doe / 36524 = c := by omega
      have hnone : doe / 146096 = 0 := by omega
      omega
  omega

theorem dayOfYear {doe c q k r : Int} (h : EraDay doe c q k r) :
    doe - (365 * (100 * c + 4 * q + k) + (100 * c + 4 * q + k) / 4 - (100 * c + 4 * q + k) / 100) =
      r := by
  obtain ⟨hc, hq, hk, hr, hsum, hleap⟩ := h
  have hfour : (100 * c + 4 * q + k) / 4 = 25 * c + q := by omega
  have hcentury : (100 * c + 4 * q + k) / 100 = c := by omega
  omega

theorem leap_of_last {doe c q k : Int} (h : EraDay doe c q k 365) (era : Int) :
    Leap (100 * c + 4 * q + k + era * 400 + 1) := by
  obtain ⟨hc, hq, hk, hr, hsum, hleap⟩ := h
  have hlast := hleap rfl
  unfold Leap
  omega

/-- The date of a day of the year that begins in March. -/
def marchDate (y doy : Int) : Date :=
  let mp := (5 * doy + 2) / 153
  ⟨marchYear y mp, marchMonth mp, doy - (153 * mp + 2) / 5 + 1⟩

theorem civilFromDays_eq {z c q k r : Int} (h : EraDay ((z + 719468) % 146097) c q k r) :
    civilFromDays z =
      ((marchDate (100 * c + 4 * q + k + (z + 719468) / 146097 * 400) r).year,
        (marchDate (100 * c + 4 * q + k + (z + 719468) / 146097 * 400) r).month,
        (marchDate (100 * c + 4 * q + k + (z + 719468) / 146097 * 400) r).day) := by
  simp only [civilFromDays, yearOfEra h, dayOfYear h]
  rfl

theorem marchDate_valid {y doy : Int} (h0 : 0 ≤ doy) (h1 : doy ≤ 365)
    (hleap : doy = 365 → Leap (y + 1)) : (marchDate y doy).Valid := by
  have hmp : 0 ≤ (5 * doy + 2) / 153 ∧ (5 * doy + 2) / 153 ≤ 11 := by omega
  have hmonth : 1 ≤ marchMonth ((5 * doy + 2) / 153) ∧ marchMonth ((5 * doy + 2) / 153) ≤ 12 := by
    unfold marchMonth
    split_ifs <;> omega
  refine ⟨hmonth.1, hmonth.2, ?_, ?_⟩
  · simp only [marchDate]
    omega
  · simp only [marchDate]
    by_cases hlast : (5 * doy + 2) / 153 = 11
    · rw [hlast, monthLength_february]
      by_cases hday : doy = 365
      · rw [if_pos (hleap hday)]
        omega
      · split_ifs <;> omega
    · rw [monthLength_march y _ hmp.1 (by omega)]
      omega

theorem days_marchDate {y doy : Int} (h0 : 0 ≤ doy) (h1 : doy ≤ 365) :
    days (marchDate y doy) = 365 * y + leapsUpTo y + doy - 719468 := by
  have hmp : 0 ≤ (5 * doy + 2) / 153 ∧ (5 * doy + 2) / 153 ≤ 11 := by omega
  simp only [marchDate]
  rw [days_march y _ _ hmp.1 hmp.2]
  omega

/-- Every day gets the date that stands so many days from the epoch. -/
theorem civilFromDays_spec (z : Int) : ∃ t : Date,
    civilFromDays z = (t.year, t.month, t.day) ∧ t.Valid ∧ days t = z := by
  have hdoe : 0 ≤ (z + 719468) % 146097 ∧ (z + 719468) % 146097 < 146097 := by omega
  obtain ⟨c, q, k, r, h⟩ := eraDay_exists hdoe.1 hdoe.2
  refine ⟨_, civilFromDays_eq h, ?_, ?_⟩
  · refine marchDate_valid h.day.1 h.day.2 fun hr => ?_
    subst hr
    exact leap_of_last h _
  · rw [days_marchDate h.day.1 h.day.2]
    obtain ⟨hc, hq, hk, hr, hsum, -⟩ := h
    have hleaps : ∀ era : Int, leapsUpTo (100 * c + 4 * q + k + era * 400) =
        24 * c + q + 97 * era := by
      intro era
      have hfour : (100 * c + 4 * q + k + era * 400) / 4 = 25 * c + q + 100 * era := by omega
      have hcentury : (100 * c + 4 * q + k + era * 400) / 100 = c + 4 * era := by omega
      have hera : (100 * c + 4 * q + k + era * 400) / 400 = era := by omega
      unfold leapsUpTo
      omega
    rw [hleaps]
    omega

section Fields

variable {ts : Int64}

/-- The date that the extracted fields make up. -/
def extractDate (ts : Int64) : Date :=
  ⟨(extractPart .extractYear ts).toInt, (extractPart .extractMonth ts).toInt,
    (extractPart .extractDay ts).toInt⟩

theorem toInt_day (ts : Int64) :
    -106751991167301 ≤ ts.toInt / 86400 ∧ ts.toInt / 86400 ≤ 106751991167301 := by
  have hlo := ts.le_toInt
  have hhi := ts.toInt_lt
  omega

theorem extractPart_year (ts : Int64) :
    extractPart .extractYear ts = Int64.ofInt (civilFromDays (ts.toInt / 86400)).1 := rfl

theorem extractPart_month (ts : Int64) :
    extractPart .extractMonth ts = Int64.ofInt (civilFromDays (ts.toInt / 86400)).2.1 := rfl

theorem extractPart_day (ts : Int64) :
    extractPart .extractDay ts = Int64.ofInt (civilFromDays (ts.toInt / 86400)).2.2 := rfl

theorem extractPart_hour (ts : Int64) :
    extractPart .extractHour ts = Int64.ofInt (ts.toInt % 86400 / 3600) := rfl

theorem extractPart_minute (ts : Int64) :
    extractPart .extractMinute ts = Int64.ofInt (ts.toInt % 86400 % 3600 / 60) := rfl

theorem extractDate_spec (ts : Int64) :
    (extractDate ts).Valid ∧ days (extractDate ts) = ts.toInt / 86400 := by
  obtain ⟨t, hcivil, hvalid, hdays⟩ := civilFromDays_spec (ts.toInt / 86400)
  have hrange := toInt_day ts
  have hyear := year_near hvalid
  have hday : t.day ≤ 31 := by
    have hle := hvalid.day_le
    have hlength := monthLength_le t.year t.month
    omega
  have hkeep : ∀ n : Int, n.natAbs < 4611686018427387904 → (Int64.ofInt n).toInt = n := by
    intro n hn
    exact Int64.toInt_ofInt_of_le (by omega) (by omega)
  have hdate : extractDate ts = t := by
    have hvals := hvalid.month_pos
    have hvals' := hvalid.month_le
    have hpos := hvalid.day_pos
    have hfar : (t.year - 1970).natAbs ≤ 106751991167302 := by
      rw [hdays] at hyear
      omega
    have hparts : extractDate ts = ⟨(Int64.ofInt t.year).toInt, (Int64.ofInt t.month).toInt,
        (Int64.ofInt t.day).toInt⟩ := by
      rw [extractDate, extractPart_year, extractPart_month, extractPart_day, hcivil]
    have hy := hkeep t.year (by omega)
    have hm := hkeep t.month (by omega)
    have hd := hkeep t.day (by omega)
    rw [hparts, hy, hm, hd]
  rw [hdate]
  exact ⟨hvalid, hdays⟩

/-- The fields that are extracted. -/
def extracts : List ScalarFunc :=
  [.extractYear, .extractMonth, .extractDay, .extractHour, .extractMinute]

/-- The seconds after which a field changes at the soonest. -/
def fieldUnit : ScalarFunc → Int
  | .extractMinute => 60
  | .extractHour => 3600
  | _ => 86400

theorem extractPart_time (ts : Int64) :
    (0 ≤ (extractPart .extractHour ts).toInt ∧ (extractPart .extractHour ts).toInt < 24) ∧
    (0 ≤ (extractPart .extractMinute ts).toInt ∧ (extractPart .extractMinute ts).toInt < 60) ∧
    ∃ s, 0 ≤ s ∧ s < 60 ∧ ts.toInt = 86400 * (ts.toInt / 86400) +
      3600 * (extractPart .extractHour ts).toInt + 60 * (extractPart .extractMinute ts).toInt + s := by
  have hhour : (extractPart .extractHour ts).toInt = ts.toInt % 86400 / 3600 := by
    rw [extractPart_hour]
    exact Int64.toInt_ofInt_of_le (by omega) (by omega)
  have hminute : (extractPart .extractMinute ts).toInt = ts.toInt % 86400 % 3600 / 60 := by
    rw [extractPart_minute]
    exact Int64.toInt_ofInt_of_le (by omega) (by omega)
  rw [hhour, hminute]
  refine ⟨by omega, by omega, ts.toInt % 60, by omega, by omega, by omega⟩

theorem dateStep_eq_ok {unit : String} {step : Int} (h : dateStep unit = .ok step) :
    step = 1 ∨ step = 60 ∨ step = 3600 ∨ step = 86400 := by
  unfold dateStep at h
  split_ifs at h with hsecond hminute hhour hday
  · exact Or.inl (Except.ok.inj h).symm
  · exact Or.inr (Or.inl (Except.ok.inj h).symm)
  · exact Or.inr (Or.inr (Or.inl (Except.ok.inj h).symm))
  · exact Or.inr (Or.inr (Or.inr (Except.ok.inj h).symm))
  · exact absurd h (bail_ne_ok _ _)

/-- Cutting a time to a unit leaves the fields alone that change no faster. -/
theorem extractPart_cut {t : Int64} {step : Int}
    (hstep : step = 1 ∨ step = 60 ∨ step = 3600 ∨ step = 86400)
    (ht : t.toInt = ts.toInt / step * step) {func : ScalarFunc} (hfunc : func ∈ extracts)
    (hunit : step ≤ fieldUnit func) : extractPart func t = extractPart func ts := by
  have hday : t.toInt / 86400 = ts.toInt / 86400 := by
    rcases hstep with rfl | rfl | rfl | rfl <;> omega
  simp only [extracts, List.mem_cons, List.not_mem_nil, or_false] at hfunc
  rcases hfunc with rfl | rfl | rfl | rfl | rfl
  · rw [extractPart_year, extractPart_year, hday]
  · rw [extractPart_month, extractPart_month, hday]
  · rw [extractPart_day, extractPart_day, hday]
  · have hhour : t.toInt % 86400 / 3600 = ts.toInt % 86400 / 3600 := by
      have hle : step ≤ 3600 := hunit
      rcases hstep with rfl | rfl | rfl | rfl <;> omega
    rw [extractPart_hour, extractPart_hour, hhour]
  · have hminute : t.toInt % 86400 % 3600 / 60 = ts.toInt % 86400 % 3600 / 60 := by
      have hle : step ≤ 60 := hunit
      rcases hstep with rfl | rfl | rfl | rfl <;> omega
    rw [extractPart_minute, extractPart_minute, hminute]

/-- The time `t` is `ts` cut to a unit of so many seconds. -/
structure CutTo (step : Int) (ts t : Int64) : Prop where
  greatest : IsGreatest {m : Int | step ∣ m ∧ m ≤ ts.toInt} t.toInt
  fields : ∀ func ∈ extracts, step ≤ fieldUnit func → extractPart func t = extractPart func ts

theorem isGreatest_cut {step : Int} (h : 0 < step) (n : Int) :
    IsGreatest {m : Int | step ∣ m ∧ m ≤ n} (n / step * step) := by
  refine ⟨⟨Int.dvd_mul_left _ _, Int.ediv_mul_le n h.ne'⟩, ?_⟩
  rintro m ⟨⟨k, rfl⟩, hm⟩
  have hk : k ≤ n / step := (Int.le_ediv_iff_mul_le h).mpr (by rwa [Int.mul_comm])
  rw [Int.mul_comm]
  exact Int.mul_le_mul_of_nonneg_right hk h.le

theorem checkedI64_cut {step : Int} (hstep : step = 1 ∨ step = 60 ∨ step = 3600 ∨ step = 86400)
    (hts : ts.toInt.natAbs ≤ 2 ^ 53) :
    ∃ t, checkedI64 ((F64.ofI64 ts).toI64.toInt / step * step) = .ok t ∧ CutTo step ts t := by
  have hpos : 0 < step := by omega
  have hrange : -2 ^ 63 ≤ ts.toInt / step * step ∧ ts.toInt / step * step < 2 ^ 63 := by
    rcases hstep with rfl | rfl | rfl | rfl <;> omega
  have ht : (Int64.ofInt (ts.toInt / step * step)).toInt = ts.toInt / step * step :=
    Int64.toInt_ofInt_of_le hrange.1 hrange.2
  rw [F64.toI64_ofI64 hts, checkedI64, if_pos hrange]
  refine ⟨_, rfl, ?_, fun func hfunc hunit => extractPart_cut hstep ht hfunc hunit⟩
  rw [ht]
  exact isGreatest_cut hpos _

theorem dateTrunc_cuts {rt : Runtime} {unit : String} {units : List String} {v : List Int64}
    {step : Int} (hstep : dateStep (rt.toLowercase unit) = .ok step)
    (hv : ∀ ts ∈ v, ts.toInt.natAbs ≤ 2 ^ 53) :
    ∃ w, scalarFunc rt .dateTrunc [.str (unit :: units), .i64 v] = .ok (.i64 w) ∧
      List.Forall₂ (CutTo step) v w := by
  have hunit := dateStep_eq_ok hstep
  obtain ⟨w, hw⟩ := mapM_total (l := v.map F64.ofI64)
      (f := fun x => checkedI64 (x.toI64.toInt / step * step)) (by
    intro x hx
    obtain ⟨ts, hts, rfl⟩ := List.mem_map.mp hx
    obtain ⟨t, ht, -⟩ := checkedI64_cut hunit (hv ts hts)
    exact ⟨t, ht⟩)
  refine ⟨w, ?_, ?_⟩
  · change (dateStep (rt.toLowercase unit) >>= fun step => _) = _
    rw [hstep, ok_bind]
    exact bind_pure_eq_ok.mpr ⟨w, hw, rfl⟩
  · have hrel := List.forall₂_map_left_iff.mp (mapM_eq_ok.mp hw)
    refine List.forall₂_iff_get.mpr ⟨hrel.length_eq, fun i hi hj => ?_⟩
    obtain ⟨t, ht, hcut⟩ := checkedI64_cut hunit (hv _ (List.get_mem v ⟨i, hi⟩))
    obtain rfl := Except.ok.inj (ht.symm.trans (hrel.get hi hj))
    exact hcut

/-- For every time the extracted fields are a date and a time of day that stand for it, and up
to 2^53 seconds from the epoch `date_trunc` cuts it to the unit. -/
theorem calendar_correct :
    (∀ ts : Int64, (extractDate ts).Valid ∧
      (0 ≤ (extractPart .extractHour ts).toInt ∧ (extractPart .extractHour ts).toInt < 24) ∧
      (0 ≤ (extractPart .extractMinute ts).toInt ∧ (extractPart .extractMinute ts).toInt < 60) ∧
      ∃ s, 0 ≤ s ∧ s < 60 ∧ ts.toInt = 86400 * days (extractDate ts) +
        3600 * (extractPart .extractHour ts).toInt + 60 * (extractPart .extractMinute ts).toInt + s) ∧
    ∀ (rt : Runtime) (unit : String) (units : List String) (v : List Int64) (step : Int),
      dateStep (rt.toLowercase unit) = .ok step → (∀ ts ∈ v, ts.toInt.natAbs ≤ 2 ^ 53) →
      ∃ w, scalarFunc rt .dateTrunc [.str (unit :: units), .i64 v] = .ok (.i64 w) ∧
        List.Forall₂ (CutTo step) v w := by
  refine ⟨fun ts => ?_, fun rt unit units v step hstep hv => dateTrunc_cuts hstep hv⟩
  obtain ⟨hvalid, hdays⟩ := extractDate_spec ts
  rw [hdays]
  exact ⟨hvalid, extractPart_time ts⟩

theorem calendar_correct_hour :
    ∃ w, scalarFunc plainRuntime .dateTrunc [.str ["HOUR"], .i64 [1700000000, -1]] = .ok (.i64 w) ∧
      List.Forall₂ (CutTo 3600) [1700000000, -1] w := by
  have hlate : (1700000000 : Int64).toInt = 1700000000 := by decide +kernel
  have hearly : (-1 : Int64).toInt = -1 := by decide +kernel
  have hsmall : ∀ ts ∈ [(1700000000 : Int64), -1], ts.toInt.natAbs ≤ 2 ^ 53 := by
    intro ts hts
    rcases List.mem_cons.mp hts with rfl | hts
    · omega
    · rw [List.mem_singleton.mp hts]
      omega
  exact calendar_correct.2 plainRuntime "HOUR" [] [1700000000, -1] 3600 (by decide +kernel) hsmall

end Fields

end Veldb
