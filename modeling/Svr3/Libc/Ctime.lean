import Mathlib.Algebra.BigOperators.Group.List.Basic
import Mathlib.Data.BitVec
import Mathlib.Tactic.Ring

/-!
# `gmtime` of `libc/port/gen/ctime.c`

A time of 32 bits is broken down into a date of the Gregorian calendar and the time of day.
-/

namespace Svr3.Ctime

/-- `struct tm` -/
structure Tm where
  sec : ℤ
  min : ℤ
  hour : ℤ
  mday : ℤ
  mon : ℤ
  year : ℤ
  wday : ℤ
  yday : ℤ
  isdst : ℤ

def dysize (A : ℤ) : ℤ := if A.tmod 4 ≠ 0 then 365 else 366

/-- `dmsize` as it is initialized -/
def dmsize : List ℤ := [31, 28, 31, 30, 31, 30, 31, 31, 30, 31, 30, 31]

theorem dysize_pos (A : ℤ) : 0 < dysize A := by
  rw [dysize]
  split
  · decide
  · decide

/-- `for(d1=70; day >= dysize(d1); d1++)`, with `d1` and `day` -/
def forward (d1 day : ℤ) : ℤ × ℤ :=
  if day ≥ dysize d1 then forward (d1 + 1) (day - dysize d1) else (d1, day)
termination_by day.toNat
decreasing_by
  have hpos := dysize_pos d1
  omega

/-- `for(d1=70; day < 0; d1--)`, with `d1` and `day` -/
def backward (d1 day : ℤ) : ℤ × ℤ :=
  if day < 0 then backward (d1 - 1) (day + dysize (d1 - 1)) else (d1, day)
termination_by (-day).toNat
decreasing_by
  have hpos := dysize_pos (d1 - 1)
  omega

/-- `for(d1=0; d0 >= dmsize[d1]; d1++)`, with `d1` and `d0`, or `none` behind the table -/
def monthLoop (d1 d0 : ℤ) : List ℤ → Option (ℤ × ℤ)
  | [] => none
  | size :: sizes => if d0 ≥ size then monthLoop (d1 + 1) (d0 - size) sizes else some (d1, d0)

/-- `gmtime`, with the table `dmsize` before and after -/
def gmtime (dmsize : List ℤ) (tim : BitVec 32) : Option (Tm × List ℤ) :=
  let hms := tim.toInt.tmod 86400
  let day := tim.toInt.tdiv 86400
  let day := if hms < 0 then day - 1 else day
  let hms := if hms < 0 then hms + 86400 else hms
  let d1 := hms.tdiv 60
  let year := if day ≥ 0 then forward 70 day else backward 70 day
  let dmsize := if dysize year.1 = 366 then dmsize.set 1 29 else dmsize
  (monthLoop 0 year.2 dmsize).map fun month =>
    ({ sec := hms.tmod 60
       min := d1.tmod 60
       hour := d1.tdiv 60
       mday := month.2 + 1
       mon := month.1
       year := year.1
       wday := (day + 7340036).tmod 7
       yday := year.2
       isdst := 0 }, dmsize.set 1 28)

/-! ## The calendar -/

/-- A leap year of the Gregorian calendar -/
def Leap (y : ℤ) : Prop := y % 4 = 0 ∧ (y % 100 ≠ 0 ∨ y % 400 = 0)

instance : DecidablePred Leap := fun _ => inferInstanceAs (Decidable (_ ∧ _))

def yearLength (y : ℤ) : ℤ := if Leap y then 366 else 365

def monthLengths (y : ℤ) : List ℤ :=
  [31, if Leap y then 29 else 28, 31, 30, 31, 30, 31, 31, 30, 31, 30, 31]

/-- The leap years before the year `y` -/
def leaps (y : ℤ) : ℤ := (y - 1) / 4 - (y - 1) / 100 + (y - 1) / 400

/-- The number of the first day of a year, counted from the first day of 1970 -/
def newYear (y : ℤ) : ℤ := 365 * (y - 1970) + (leaps y - leaps 1970)

theorem newYear_succ (y : ℤ) : newYear (y + 1) = newYear y + yearLength y := by
  simp only [newYear, leaps, yearLength]
  split
  next h =>
    rw [Leap] at h
    omega
  next h =>
    rw [Leap] at h
    omega

theorem newYear_1970 : newYear 1970 = 0 := rfl

/-- A date of the calendar and a time of day, which are the time `t` -/
structure Broken (t : ℤ) (tm : Tm) : Prop where
  sec : 0 ≤ tm.sec ∧ tm.sec < 60
  min : 0 ≤ tm.min ∧ tm.min < 60
  hour : 0 ≤ tm.hour ∧ tm.hour < 24
  mon : 0 ≤ tm.mon ∧ tm.mon < 12
  mday : 1 ≤ tm.mday ∧ tm.mday ≤ (monthLengths (1900 + tm.year)).getD tm.mon.toNat 0
  yday : 0 ≤ tm.yday ∧ tm.yday < yearLength (1900 + tm.year)
  date : tm.yday = ((monthLengths (1900 + tm.year)).take tm.mon.toNat).sum + tm.mday - 1
  wday : 0 ≤ tm.wday ∧ tm.wday < 7 ∧ tm.wday = (newYear (1900 + tm.year) + tm.yday + 4) % 7
  time : 86400 * (newYear (1900 + tm.year) + tm.yday) + 3600 * tm.hour + 60 * tm.min + tm.sec = t

/-! ## The loops -/

/-- Only a year that is a multiple of 4 is a leap year, from 1901 up to 2099. -/
theorem dysize_eq {d1 : ℤ} (h1 : 1 ≤ d1) (h2 : d1 < 200) : dysize d1 = yearLength (1900 + d1) := by
  have hmod : d1.tmod 4 = d1 % 4 := Int.tmod_eq_emod_of_nonneg (by omega)
  rw [dysize, yearLength, hmod]
  by_cases h4 : d1 % 4 = 0
  · have hleap : Leap (1900 + d1) := by
      rw [Leap]
      omega
    rw [if_neg (not_not.mpr h4), if_pos hleap]
  · have hleap : ¬Leap (1900 + d1) := by
      rw [Leap]
      omega
    rw [if_pos h4, if_neg hleap]

theorem yearLength_range (y : ℤ) : 365 ≤ yearLength y ∧ yearLength y ≤ 366 := by
  rw [yearLength]
  split
  · decide
  · decide

/-- The year and the day of the year of the day `D` -/
structure InYear (D : ℤ) (r : ℤ × ℤ) : Prop where
  year : 1 ≤ r.1 ∧ r.1 < 200
  yday : 0 ≤ r.2 ∧ r.2 < yearLength (1900 + r.1)
  day : newYear (1900 + r.1) + r.2 = D

theorem forward_spec {D d1 day : ℤ} (hD : D < 2 ^ 15) (hd1 : 1 ≤ d1) (hday : 0 ≤ day)
    (h : newYear (1900 + d1) + day = D) : InYear D (forward d1 day) := by
  induction d1, day using forward.induct with
  | case1 d1 day hge ih =>
    have hlt : d1 < 200 := by
      rw [newYear, leaps, leaps] at h
      omega
    have hnext := newYear_succ (1900 + d1)
    rw [dysize_eq hd1 hlt] at hge ih
    have harg : 1900 + (d1 + 1) = 1900 + d1 + 1 := by omega
    rw [forward, if_pos (by rwa [dysize_eq hd1 hlt]), dysize_eq hd1 hlt]
    apply ih (by omega) (by omega)
    rw [harg]
    omega
  | case2 d1 day hlt' =>
    have hlt : d1 < 200 := by
      rw [newYear, leaps, leaps] at h
      omega
    rw [forward, if_neg hlt']
    rw [dysize_eq hd1 hlt] at hlt'
    exact ⟨⟨hd1, hlt⟩, ⟨hday, Int.lt_of_not_ge hlt'⟩, h⟩

theorem backward_spec {D d1 day : ℤ} (hD : -25000 < D) (hd1 : 1 ≤ d1 ∧ d1 < 200)
    (hday : day < yearLength (1900 + d1)) (h : newYear (1900 + d1) + day = D) :
    InYear D (backward d1 day) := by
  induction d1, day using backward.induct with
  | case1 d1 day hneg ih =>
    have hlow : 1 ≤ d1 - 1 := by
      rw [newYear, leaps, leaps] at h
      omega
    have hprev := newYear_succ (1900 + (d1 - 1))
    have harg : 1900 + (d1 - 1) + 1 = 1900 + d1 := by omega
    rw [harg] at hprev
    have hsize := dysize_eq hlow (by omega)
    rw [hsize] at ih
    rw [backward, if_pos hneg, hsize]
    exact ih ⟨hlow, by omega⟩ (by omega) (by omega)
  | case2 d1 day hge =>
    rw [backward, if_neg hge]
    exact ⟨hd1, ⟨by omega, hday⟩, h⟩

theorem monthLoop_spec {sizes : List ℤ} (d1 : ℤ) {d0 : ℤ} (h0 : 0 ≤ d0) (h : d0 < sizes.sum) :
    ∃ k : ℕ, ∃ r, monthLoop d1 d0 sizes = some (d1 + k, r) ∧ k < sizes.length ∧ 0 ≤ r ∧
      r < sizes.getD k 0 ∧ (sizes.take k).sum + r = d0 := by
  induction sizes generalizing d1 d0 with
  | nil =>
    rw [List.sum_nil] at h
    omega
  | cons size sizes ih =>
    rw [monthLoop]
    by_cases hge : d0 ≥ size
    · rw [List.sum_cons] at h
      have h0' : 0 ≤ d0 - size := by omega
      obtain ⟨k, r, heq, hk, hr0, hr, hsum⟩ := ih (d1 + 1) h0' (by omega)
      refine ⟨k + 1, r, ?_, Nat.succ_lt_succ hk, hr0, hr, ?_⟩
      · rw [if_pos hge, heq]
        push_cast
        rw [Int.add_assoc, Int.add_comm 1]
      · rw [List.take_succ_cons, List.sum_cons]
        omega
    · refine ⟨0, d0, ?_, Nat.succ_pos _, h0, ?_, ?_⟩
      · rw [if_neg hge, Nat.cast_zero, Int.add_zero]
      · exact Int.lt_of_not_ge hge
      · rw [List.take_zero, List.sum_nil, Int.zero_add]

/-! ## The date -/

/-- The patched table is that of the year. -/
theorem patched_eq {y : ℤ} (h1 : 1 ≤ y) (h2 : y < 200) :
    (if dysize y = 366 then dmsize.set 1 29 else dmsize) = monthLengths (1900 + y) := by
  rw [dysize_eq h1 h2, yearLength, monthLengths]
  by_cases h : Leap (1900 + y)
  · rw [if_pos h, if_pos h]
    rfl
  · rw [if_neg h, if_neg h]
    rfl

theorem monthLengths_sum (y : ℤ) : (monthLengths y).sum = yearLength y := by
  rw [monthLengths, yearLength]
  split
  · rfl
  · rfl

/-- The corrections make a division that rounds down. -/
theorem floor_spec (t : ℤ) :
    (if t.tmod 86400 < 0 then t.tdiv 86400 - 1 else t.tdiv 86400) = t / 86400 ∧
      (if t.tmod 86400 < 0 then t.tmod 86400 + 86400 else t.tmod 86400) = t % 86400 := by
  have hsum := Int.mul_tdiv_add_tmod t 86400
  have hle := Int.tmod_lt_of_pos t (show (0 : ℤ) < 86400 by decide)
  have hge := Int.lt_tmod_of_pos t (show (0 : ℤ) < 86400 by decide)
  split
  · omega
  · omega

/-- The year of each day of a time of 32 bits -/
theorem year_spec {D : ℤ} (h1 : -25000 < D) (h2 : D < 2 ^ 15) :
    InYear D (if D ≥ 0 then forward 70 D else backward 70 D) := by
  have hstart : newYear (1900 + 70) + D = D := by
    rw [show (1900 + 70 : ℤ) = 1970 from rfl, newYear_1970, Int.zero_add]
  split
  next hpos => exact forward_spec h2 (by decide) hpos hstart
  next hneg =>
    have hlen := yearLength_range (1900 + 70)
    exact backward_spec h1 (by decide) (by omega) hstart

/-- The date that `gmtime` finds is one of the calendar. -/
theorem gmtime_broken (tim : BitVec 32) :
    ∃ tm, gmtime dmsize tim = some (tm, dmsize) ∧ Broken tim.toInt tm := by
  have hlow := BitVec.le_toInt tim
  have hhigh := BitVec.toInt_lt (x := tim)
  obtain ⟨hday, hhms⟩ := floor_spec tim.toInt
  obtain ⟨t, ht⟩ : ∃ t, t = tim.toInt := ⟨_, rfl⟩
  rw [← ht] at hlow hhigh hday hhms ⊢
  have hyear := year_spec (D := t / 86400) (by omega) (by omega)
  obtain ⟨⟨y, d⟩, hy⟩ : ∃ r, r = if t / 86400 ≥ 0 then forward 70 (t / 86400) else backward 70 (t / 86400) :=
    ⟨_, rfl⟩
  rw [← hy] at hyear
  obtain ⟨hy1, hd, hD⟩ := hyear
  have hsizes := monthLengths_sum (1900 + y)
  obtain ⟨k, r, hloop, hk, hr0, hr, hsum⟩ := monthLoop_spec 0 hd.1 (hsizes ▸ hd.2)
  have htable : (monthLengths (1900 + y)).set 1 28 = dmsize := by
    rw [monthLengths, dmsize]
    rfl
  have heq : gmtime dmsize tim = some
      ({ sec := (t % 86400).tmod 60
         min := ((t % 86400).tdiv 60).tmod 60
         hour := ((t % 86400).tdiv 60).tdiv 60
         mday := r + 1
         mon := k
         year := y
         wday := (t / 86400 + 7340036).tmod 7
         yday := d
         isdst := 0 }, dmsize) := by
    simp only [gmtime, ← ht, hday, hhms, ← hy, patched_eq hy1.1 hy1.2, hloop, htable, Int.zero_add,
      Option.map_some]
  have hpos : 0 ≤ t % 86400 := Int.emod_nonneg t (by decide)
  have hmin : (t % 86400).tdiv 60 = t % 86400 / 60 := Int.tdiv_eq_ediv_of_nonneg hpos
  have hmin0 : 0 ≤ t % 86400 / 60 := Int.ediv_nonneg hpos (by decide)
  rw [hmin, Int.tmod_eq_emod_of_nonneg hpos, Int.tmod_eq_emod_of_nonneg hmin0,
    Int.tdiv_eq_ediv_of_nonneg hmin0, Int.tmod_eq_emod_of_nonneg (by omega)] at heq
  refine ⟨_, heq, ?_⟩
  have hlen : (monthLengths (1900 + y)).length = 12 := rfl
  rw [hlen] at hk
  constructor
  · dsimp only
    omega
  · dsimp only
    omega
  · dsimp only
    omega
  · dsimp only
    omega
  · dsimp only
    rw [Int.toNat_natCast]
    omega
  · exact hd
  · dsimp only
    rw [Int.toNat_natCast]
    omega
  · dsimp only
    rw [hD]
    omega
  · dsimp only
    rw [hD]
    omega

/-- The table is as it was, and the date is the one of the calendar. -/
theorem gmtime_calendar (tim : BitVec 32) :
    ∃ tm, gmtime dmsize tim = some (tm, dmsize) ∧ Broken tim.toInt tm :=
  gmtime_broken tim

end Svr3.Ctime
