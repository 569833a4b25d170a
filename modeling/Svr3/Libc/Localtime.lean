import Svr3.Libc.Ctime

/-!
# `localtime` of `libc/port/gen/ctime.c`

The time of the zone is broken down by `gmtime`; in summer an hour is added before.
-/

namespace Svr3.Ctime

/-- `timezone` and `daylight`, as `tzset` leaves them -/
structure Local where
  timezone : BitVec 32
  daylight : Bool

/-- The first Sunday on or after the day -/
def sunday (t : Tm) (d : ℤ) : ℤ :=
  let d := if d ≥ 58 then d + (dysize t.year - 365) else d
  d - (d - t.yday + t.wday + 700).tmod 7

/-- Where daylight saving time begins and ends: `daytab` is for 1974 and 1975. -/
def daylb (year : ℤ) : ℤ × ℤ :=
  if year = 74 then (5, 333) else if year = 75 then (58, 303) else (119, 303)

/-- Whether a date has daylight saving time -/
def daylightAt (daylight : Bool) (ct : Tm) : Bool :=
  let dayno := ct.yday
  let daylbegin := sunday ct (daylb ct.year).1
  let daylend := sunday ct (daylb ct.year).2
  daylight && decide ((dayno > daylbegin ∨ (dayno = daylbegin ∧ ct.hour ≥ 2)) ∧
    (dayno < daylend ∨ (dayno = daylend ∧ ct.hour < 1)))

def localtime (z : Local) (tim : BitVec 32) : Option Tm := do
  let copyt := tim - z.timezone
  let ct ← gmtime dmsize copyt
  if daylightAt z.daylight ct.1 then
    let ct ← gmtime ct.2 (copyt + 3600)
    pure { ct.1 with isdst := ct.1.isdst + 1 }
  else pure ct.1

/-- `tm_isdst` of a time -/
def isdst (z : Local) (tim : BitVec 32) : Bool := (localtime z tim).any fun tm => tm.isdst ≠ 0

/-- The time that is broken down -/
def shifted (z : Local) (tim : BitVec 32) : BitVec 32 :=
  if isdst z tim then tim - z.timezone + 3600 else tim - z.timezone

theorem gmtime_isdst {sizes : List ℤ} {tim : BitVec 32} {r : Tm × List ℤ} (h : gmtime sizes tim = some r) :
    r.1.isdst = 0 := by
  unfold gmtime at h
  obtain ⟨month, -, rfl⟩ := Option.map_eq_some_iff.mp h
  rfl

theorem localtime_broken (z : Local) (tim : BitVec 32) :
    ∃ tm, localtime z tim = some tm ∧ Broken (shifted z tim).toInt tm := by
  obtain ⟨ct, hct, hbroken⟩ := gmtime_broken (tim - z.timezone)
  have hzero : ct.isdst = 0 := gmtime_isdst hct
  by_cases hday : daylightAt z.daylight ct = true
  · obtain ⟨cs, hcs, hbroken'⟩ := gmtime_broken (tim - z.timezone + 3600)
    have hzero' : cs.isdst = 0 := gmtime_isdst hcs
    have hlocal : localtime z tim = some { cs with isdst := cs.isdst + 1 } := by
      simp only [localtime, hct, Option.bind_eq_bind, Option.bind_some, if_pos hday, hcs]
      rfl
    have hdst : isdst z tim = true := by
      rw [isdst, hlocal]
      simp [hzero']
    refine ⟨_, hlocal, ?_⟩
    rw [shifted, if_pos hdst]
    exact ⟨hbroken'.sec, hbroken'.min, hbroken'.hour, hbroken'.mon, hbroken'.mday, hbroken'.yday, hbroken'.date,
      hbroken'.wday, hbroken'.time⟩
  · have hlocal : localtime z tim = some ct := by
      simp only [localtime, hct, Option.bind_eq_bind, Option.bind_some, if_neg hday]
      rfl
    have hdst : ¬isdst z tim = true := by
      rw [isdst, hlocal]
      simp [hzero]
    refine ⟨ct, hlocal, ?_⟩
    rw [shifted, if_neg hdst]
    exact hbroken

end Svr3.Ctime
