import Svr3.Cmd.CronDay

/-!
# The next day that matches

The day that `nextDate` gives is the next one that matches, but for two cases: a day that is behind the end of
this month, and a next month that has no matching day.
-/

namespace Svr3.Crontab

/-! ## The day of the next occurrence -/

section day

variable {e : Ct} {tm : Tm} {j d D : ℕ}

/-- A day of the month is left -/
def Ct.DayLeft (e : Ct) (j mday : ℕ) : Prop := ∃ d, mday < d ∧ d ≤ monthLen j ∧ e.DayOf j d

/-- The next number of the list is behind the end of the month -/
structure Ct.Over (e : Ct) (j mday x : ℕ) : Prop where
  past : monthLen j < x
  has : Has e.daymon.1 x
  first : ∀ n, mday < n → n < x → ¬Has e.daymon.1 n
  turn : mday = monthLen j → ∀ n, 1 ≤ n → n < x → ¬Has e.daymon.1 n

/-- When nothing is left of the day `mday` of month `j`: a day of this month is next, or one behind its end
that matches as a day of the next month and is the first one there, or the next matching month has a matching
day. -/
inductive Ct.Turn (e : Ct) (j mday : ℕ) : Prop
  | day (hm : e.MonthOf j) (hd : e.DayLeft j mday)
  | beyond (x : ℕ) (hm : e.MonthOf j) (hnone : ¬e.DayLeft j mday) (hx : e.Over j mday x) (hnext : e.MonthOf (j + 1))
      (hday : e.DayOf (j + 1) (x - monthLen j)) (hfirst : ∀ c, 1 ≤ c → c < x - monthLen j → ¬e.DayOf (j + 1) c)
  | month (j' d : ℕ) (hnone : e.MonthOf j → ¬e.DayLeft j mday ∧ ∀ x, ¬e.Over j mday x) (hlt : j < j')
      (hm : e.MonthOf j') (hfirst : ∀ i, j < i → i < j' → ¬e.MonthOf i) (hd1 : 1 ≤ d) (hd2 : d ≤ monthLen j')
      (hd : e.DayOf j' d)

/-- The days that `nextDate` compares -/
def thisMonth (tm : Tm) (e : Ct) : (ℕ × Bool) × (ℕ × Bool) := restrict e (monthDay tm e) (weekDay tm e)

def thisDay (tm : Tm) (e : Ct) : ℕ := earlier (thisMonth tm e).1 (thisMonth tm e).2

def thisCarry (tm : Tm) (e : Ct) : Bool := (thisMonth tm e).1.2 && (thisMonth tm e).2.2

theorem Ct.Over.unique {x y mday : ℕ} (hx : e.Over j mday x) (hy : e.Over j mday y) (hle : mday ≤ monthLen j) :
    x = y := by
  have h1 := hx.past
  have h2 := hy.past
  rcases Nat.lt_trichotomy x y with h | h | h
  · exact absurd hx.has (hy.first x (by omega) h)
  · exact h
  · exact absurd hy.has (hx.first y (by omega) h)

/-- The first day of the next month that matches, which may be behind the end of that month -/
structure Other (e : Ct) (j j' d : ℕ) : Prop where
  lt : j < j'
  le : j' ≤ j + 12
  month : e.MonthOf j'
  first : ∀ i, j < i → i < j' → ¬e.MonthOf i
  pos : 1 ≤ d
  bound : d ≤ 31
  day : e.DayOf j' d
  least : ∀ n, 1 ≤ n → e.DayOf j' n → d ≤ n
  week : ∃ w, 1 ≤ w ∧ w ≤ 7 ∧ Has e.dayweek.1 ((monthStart j' + w) % 7)

theorem Other.last {j' : ℕ} (h : Other e j j' d) (hat : tm.At j) (he : e.NoPoint) (hcarry : thisCarry tm e = true) :
    d ≤ tm.mday := by
  obtain ⟨w, hw1, hw7, hw⟩ := h.week
  have h1 := (Bool.and_eq_true_iff.mp hcarry).1
  have hday (hstar : e.daymon.1 ≠ ['*']) (htrue : (monthDay tm e).2 = true) : d ≤ tm.mday := by
    obtain ⟨z, hz, hz1, hz2⟩ := (monthDay_spec hat he).carry htrue
    have hle : d ≤ z := by
      apply h.least z hz1
      rw [Ct.DayOf, Ct.Day, if_neg hstar]
      split
      · exact hz
      · exact .inl hz
    omega
  rw [thisMonth, restrict] at h1
  by_cases hm : e.daymon.1 = ['*']
  · by_cases hdw : e.dayweek.1 = ['*']
    · have hone : d ≤ 1 := h.least 1 (Nat.le_refl _) (by rw [Ct.DayOf, Ct.Day, if_pos hm]; exact .inl hdw)
      have hpos := hat.mday_pos
      omega
    · have hws : star e.dayweek.1 = false := by simpa [star] using hdw
      have hms : star e.daymon.1 = true := by simpa [star] using hm
      have hle : d ≤ w := h.least w hw1 (by rw [Ct.DayOf, Ct.Day, if_pos hm]; exact hw)
      rw [hms, hws] at h1
      have hlast := (weekDay_spec hat he).carry h1
      omega
  · have hms : star e.daymon.1 = false := by simpa [star] using hm
    rw [hms] at h1
    exact hday hm h1

/-- The month and the day that `nextDate` gives -/
inductive Chosen (e : Ct) (tm : Tm) (j : ℕ) : ℕ → ℕ → Prop
  | this (hm : e.MonthOf j) (hcarry : thisCarry tm e = false) : Chosen e tm j j (thisDay tm e)
  | other (j' d : ℕ) (hnone : e.MonthOf j → thisCarry tm e = true) (h : Other e j j' d) : Chosen e tm j j' d

end day

end Svr3.Crontab
