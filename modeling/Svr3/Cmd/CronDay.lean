import Mathlib.Order.Bounds.Basic
import Svr3.Cmd.CronField

/-!
# The day of the next occurrence

Days and months are counted from January 1968. `nextDate` finds the first day that the lists give, in this month
or in the next one that matches; the day may be behind the end of that month.
-/

namespace Svr3.Crontab

/-! ## Months -/

section months

variable {i j k d D : ℕ}

/-- The days before a month -/
def monthStart : ℕ → ℕ
  | 0 => 0
  | j + 1 => monthStart j + monthLen j

theorem monthLen_bounds (j : ℕ) : 28 ≤ monthLen j ∧ monthLen j ≤ 31 := by
  have htable : ∀ m < 12, 28 ≤ dom.getD m 0 ∧ dom.getD m 0 ≤ 31 ∧ (m = 1 → dom.getD m 0 = 28) := by decide
  obtain ⟨hlo, hhi, hfeb⟩ := htable (j % 12) (Nat.mod_lt _ (by decide))
  rw [monthLen, days_in_mon]
  split
  next h =>
    have hm := hfeb h.1
    omega
  next => omega

/-- The month of a day, and the days of the month before it -/
def dayOf (D : ℕ) : ℕ × ℕ := monthOf (D + 1) 0 D

end months

/-! ## Days between -/

section between

variable {a j j' k mday d D : ℕ}

end between

/-! ## The first day by a list -/

section first

variable {A B : ℕ → Prop} {lo len : ℕ} {x y : ℕ × Bool}

/-- A day from `lo` on, which may be behind the end of the month, or a carry -/
structure First (A : ℕ → Prop) (lo len : ℕ) (x : ℕ × Bool) : Prop where
  found : x.2 = false → lo ≤ x.1 ∧ A x.1 ∧ ∀ d, lo ≤ d → d < x.1 → d ≤ len → ¬A d
  carry : x.2 = true → ∀ d, lo ≤ d → d ≤ len → ¬A d

/-- The earlier one of two days -/
def earlier (x y : ℕ × Bool) : ℕ :=
  if !x.2 && !y.2 then if x.1 < y.1 then x.1 else y.1
  else if !x.2 then x.1
  else y.1

theorem First.congr (h : First A lo len x) (hAB : ∀ d, lo ≤ d → (A d ↔ B d)) : First B lo len x := by
  refine ⟨fun hx => ?_, fun hx d hlo hle hB => h.carry hx d hlo hle ((hAB d hlo).mpr hB)⟩
  obtain ⟨hge, hA, hfirst⟩ := h.found hx
  exact ⟨hge, (hAB _ hge).mp hA, fun d hlo hlt hle hB => hfirst d hlo hlt hle ((hAB d hlo).mpr hB)⟩

theorem First.or (hx : First A lo len x) (hy : First B lo len y) :
    First (fun d => A d ∨ B d) lo len (earlier x y, x.2 && y.2) := by
  obtain ⟨a, c⟩ := x
  obtain ⟨b, d⟩ := y
  refine ⟨fun hcarry => ?_, fun hcarry n hlo hle => ?_⟩
  · cases c with
    | true =>
      cases d with
      | true => exact absurd hcarry nofun
      | false =>
        obtain ⟨hge, hB, hfirst⟩ := hy.found rfl
        refine ⟨hge, .inr hB, fun n hlo hlt hle => not_or.mpr ⟨hx.carry rfl n hlo hle, hfirst n hlo hlt hle⟩⟩
    | false =>
      obtain ⟨hge, hA, hfirst⟩ := hx.found rfl
      cases d with
      | true => exact ⟨hge, .inl hA, fun n hlo hlt hle => not_or.mpr ⟨hfirst n hlo hlt hle, hy.carry rfl n hlo hle⟩⟩
      | false =>
        obtain ⟨hge', hB, hfirst'⟩ := hy.found rfl
        change lo ≤ (if a < b then a else b) ∧ (A (if a < b then a else b) ∨ B (if a < b then a else b)) ∧
          ∀ n, lo ≤ n → n < (if a < b then a else b) → n ≤ len → ¬(A n ∨ B n)
        dsimp only at hge hA hfirst hge' hB hfirst'
        split
        next hlt =>
          exact ⟨hge, .inl hA, fun n hlo hn hle => not_or.mpr ⟨hfirst n hlo hn hle, hfirst' n hlo (by omega) hle⟩⟩
        next hlt =>
          exact ⟨hge', .inr hB, fun n hlo hn hle => not_or.mpr ⟨hfirst n hlo (by omega) hle, hfirst' n hlo hn hle⟩⟩
  · obtain ⟨hc, hd⟩ := Bool.and_eq_true_iff.mp hcarry
    exact not_or.mpr ⟨hx.carry hc n hlo hle, hy.carry hd n hlo hle⟩

end first

/-! ## Fields of an event -/

/-- No field has a range with the same number at both ends. -/
structure Ct.NoPoint (e : Ct) : Prop where
  minute : Crontab.NoPoint e.minute.1
  hour : Crontab.NoPoint e.hour.1
  daymon : Crontab.NoPoint e.daymon.1
  month : Crontab.NoPoint e.month.1
  dayweek : Crontab.NoPoint e.dayweek.1

/-- The time is in month `j`. -/
structure Tm.At (tm : Tm) (j : ℕ) : Prop where
  mon : tm.mon = j % 12
  year : tm.year = 68 + j / 12
  mday_pos : 1 ≤ tm.mday
  mday_le : tm.mday ≤ monthLen j
  wday : tm.wday = (monthStart j + tm.mday) % 7
  hour : tm.hour < 24
  min : tm.min < 60
  sec : tm.sec < 60

/-- The day of month `j`, by its number, matches. -/
def Ct.DayOf (e : Ct) (j d : ℕ) : Prop := e.Day d ((monthStart j + d) % 7)

/-- Month `j` matches. -/
def Ct.MonthOf (e : Ct) (j : ℕ) : Prop := Has e.month.1 (j % 12 + 1)

/-- The day matches. -/
def Ct.Matches (e : Ct) (D : ℕ) : Prop := e.MonthOf (dayOf D).1 ∧ e.DayOf (dayOf D).1 ((dayOf D).2 + 1)

section fields

variable {e : Ct} {tm : Tm} {j d : ℕ}

theorem at_len (h : tm.At j) : days_in_mon tm.mon tm.year = monthLen j := by
  rw [h.mon, h.year]
  rfl

/-- The days to the next day of the week -/
def ahead (d w : ℕ) : ℕ := if w < d then 7 - d + w else w - d

theorem ahead_spec {S : ℕ → Prop} {d w : ℕ} (hd : d ≤ 7) (hw : w ≤ 6) (h : Next S (d % 7) w) :
    ahead d w ≤ 6 ∧ S ((d + ahead d w) % 7) ∧ ∀ z < ahead d w, ¬S ((d + z) % 7) := by
  have hsum : (d + ahead d w) % 7 = w := by
    rw [ahead]
    split <;> omega
  have hle : ahead d w ≤ 6 := by
    rw [ahead]
    split <;> omega
  refine ⟨hle, hsum.symm ▸ h.mem, fun z hz hS => ?_⟩
  rw [ahead] at hz
  rcases h.least with ⟨hxw, hleast⟩ | ⟨hlast, hleast⟩
  · by_cases hv : d % 7 ≤ (d + z) % 7
    · have hwv := hleast _ hS hv
      split at hz <;> omega
    · split at hz <;> omega
  · have hlt := hlast _ hS
    have hwv := hleast _ hS
    have hwx := hlast _ h.mem
    split at hz <;> omega

/-- There is a number left in the list, in the month or behind its end. -/
def Ct.NumLeft (e : Ct) (j mday : ℕ) : Prop :=
  (∃ d, mday < d ∧ d ≤ monthLen j ∧ Has e.daymon.1 d) ∨
    (∃ x, monthLen j < x ∧ Has e.daymon.1 x) ∧ (mday = monthLen j → ∀ x, 1 ≤ x → Has e.daymon.1 x → monthLen j < x)

/-- `day1` and `carry1` -/
structure MonthDay (e : Ct) (j mday : ℕ) (x : ℕ × Bool) : Prop where
  first : First (Has e.daymon.1) (mday + 1) (monthLen j) x
  next : x.2 = false → ∀ d, mday < d → d < x.1 → ¬Has e.daymon.1 d
  carry : x.2 = true → ∃ z, Has e.daymon.1 z ∧ 1 ≤ z ∧ z ≤ mday
  left : x.2 = false ↔ e.NumLeft j mday

theorem monthDay_spec (hat : tm.At j) (he : e.NoPoint) : MonthDay e j tm.mday (monthDay tm e) := by
  have hpos := hat.mday_pos
  have hle := hat.mday_le
  have hlen := monthLen_bounds j
  have hd1 : tm.mday + 1 - 1 = tm.mday := rfl
  have hmod : tm.mday % monthLen j + 1 = if tm.mday = monthLen j then 1 else tm.mday + 1 := by
    split
    next h => rw [h, Nat.mod_self]
    next h => rw [Nat.mod_eq_of_lt (Nat.lt_of_le_of_ne hle h)]
  have hnext := next_ge_next (f := e.daymon) (x := tm.mday % monthLen j + 1) (by decide) he.daymon
  have hbounds := next_ge_bounds (f := e.daymon) (x := tm.mday % monthLen j + 1) (by decide) he.daymon
    (by rw [hmod]; split <;> omega)
  have heq : monthDay tm e = (next_ge (tm.mday % monthLen j + 1) e.daymon.1,
      decide (next_ge (tm.mday % monthLen j + 1) e.daymon.1 < tm.mday + 1)) := by
    rw [monthDay, at_len hat]
    rfl
  rw [heq]
  generalize next_ge (tm.mday % monthLen j + 1) e.daymon.1 = day1 at *
  have hnone (hge : tm.mday + 1 ≤ day1) (d : ℕ) (hlo : tm.mday < d) (hd : d < day1) : ¬Has e.daymon.1 d := by
    intro hA
    rcases hnext.least with ⟨-, hleast⟩ | ⟨hlast, hleast⟩
    · have hle' : tm.mday % monthLen j + 1 ≤ d := by
        rw [hmod]
        split <;> omega
      exact absurd (hleast d hA hle') (by omega)
    · exact absurd (hleast d hA) (by omega)
  have hless (hlt : day1 < tm.mday + 1) (d : ℕ) (hlo : tm.mday < d) : ¬(tm.mday < monthLen j ∧ Has e.daymon.1 d) := by
    rintro ⟨hmon, hA⟩
    rw [hmod, if_neg (by omega)] at hnext
    rcases hnext.least with ⟨hx, -⟩ | ⟨hlast, -⟩
    · omega
    · exact absurd (hlast d hA) (by omega)
  refine ⟨⟨fun hcarry => ?_, fun hcarry d hlo hd hA => ?_⟩, fun hcarry => ?_, fun hcarry => ?_, ?_⟩
  · have hge : tm.mday + 1 ≤ day1 := Nat.not_lt.mp (of_decide_eq_false hcarry)
    exact ⟨hge, hnext.mem, fun d hlo hd _ => hnone hge d hlo hd⟩
  · exact hless (of_decide_eq_true hcarry) d hlo ⟨by omega, hA⟩
  · exact hnone (Nat.not_lt.mp (of_decide_eq_false hcarry))
  · have hlt : day1 < tm.mday + 1 := of_decide_eq_true hcarry
    exact ⟨day1, hnext.mem, hbounds.1, Nat.lt_succ_iff.mp hlt⟩
  · constructor
    · intro hcarry
      have hge : tm.mday + 1 ≤ day1 := Nat.not_lt.mp (of_decide_eq_false hcarry)
      rcases Nat.lt_or_ge (monthLen j) day1 with hover | hin
      · refine .inr ⟨⟨day1, hover, hnext.mem⟩, fun hlast x hx hA => ?_⟩
        rw [hmod, if_pos hlast] at hnext
        rcases hnext.least with ⟨-, hleast⟩ | ⟨hfirst, -⟩
        · exact Nat.lt_of_lt_of_le hover (hleast x hA hx)
        · exact absurd (hfirst x hA) (by omega)
      · exact .inl ⟨day1, hge, hin, hnext.mem⟩
    · intro hleft
      apply decide_eq_false
      intro hlt
      rcases hleft with ⟨d, hlo, hd, hA⟩ | ⟨⟨x, hx, hA⟩, hlast⟩
      · exact hless hlt d hlo ⟨by omega, hA⟩
      · rcases Nat.lt_or_eq_of_le hle with hmon | hmon
        · exact hless hlt x (by omega) ⟨hmon, hA⟩
        · exact absurd (hlast hmon day1 hbounds.1 hnext.mem) (by omega)

/-- `day2` and `carry2` -/
structure WeekDay (e : Ct) (j mday : ℕ) (y : ℕ × Bool) : Prop where
  first : First (fun d => Has e.dayweek.1 ((monthStart j + d) % 7)) (mday + 1) (monthLen j) y
  inside : y.2 = false → y.1 ≤ monthLen j
  carry : y.2 = true → 22 ≤ mday

theorem weekDay_spec (hat : tm.At j) (he : e.NoPoint) : WeekDay e j tm.mday (weekDay tm e) := by
  have hpos := hat.mday_pos
  have hle := hat.mday_le
  have hlen := monthLen_bounds j
  have hwday := hat.wday
  have hnext := next_ge_next (f := e.dayweek) (x := (tm.wday + 1) % 7) (by decide) he.dayweek
  have hbounds := next_ge_bounds (f := e.dayweek) (x := (tm.wday + 1) % 7) (by decide) he.dayweek (by omega)
  have heq : weekDay tm e =
      ((tm.mday + 1 + ahead (tm.wday + 1) (next_ge ((tm.wday + 1) % 7) e.dayweek.1) - 1) % monthLen j + 1,
        decide ((tm.mday + 1 + ahead (tm.wday + 1) (next_ge ((tm.wday + 1) % 7) e.dayweek.1) - 1) % monthLen j + 1 <
          tm.mday + 1)) := by
    rw [weekDay, at_len hat]
    rfl
  rw [heq]
  obtain ⟨hsix, hmem, hfirst⟩ := ahead_spec (d := tm.wday + 1) (by omega) hbounds.2 hnext
  generalize ahead (tm.wday + 1) (next_ge ((tm.wday + 1) % 7) e.dayweek.1) = a at *
  have hday (z : ℕ) : (tm.wday + 1 + z) % 7 = (monthStart j + (tm.mday + 1 + z)) % 7 := by omega
  have hnot (d : ℕ) (hlo : tm.mday + 1 ≤ d) (hd : d < tm.mday + 1 + a) :
      ¬Has e.dayweek.1 ((monthStart j + d) % 7) := by
    have hz := hfirst (d - (tm.mday + 1)) (by omega)
    rw [hday, Nat.add_sub_cancel' hlo] at hz
    exact hz
  rw [hday] at hmem
  -- the day is in this month, or it wraps around to one before this day
  have hmod : (tm.mday + 1 + a - 1) % monthLen j + 1 =
      if tm.mday + 1 + a ≤ monthLen j then tm.mday + 1 + a else tm.mday + 1 + a - monthLen j := by
    split
    next h =>
      rw [Nat.mod_eq_of_lt (by omega)]
      omega
    next h =>
      rw [Nat.mod_eq_sub_mod (by omega), Nat.mod_eq_of_lt (by omega)]
      omega
  rw [hmod]
  by_cases hin : tm.mday + 1 + a ≤ monthLen j
  · rw [if_pos hin]
    refine ⟨⟨fun _ => ⟨Nat.le_add_right _ _, hmem, fun d hlo hd _ => hnot d hlo hd⟩, fun hcarry => ?_⟩, fun _ => hin,
      fun hcarry => ?_⟩
    · exact absurd (of_decide_eq_true hcarry) (by omega)
    · exact absurd (of_decide_eq_true hcarry) (by omega)
  · rw [if_neg hin]
    refine ⟨⟨fun hcarry => ?_, fun _ d hlo hd => hnot d hlo (by omega)⟩, fun hcarry => ?_, fun _ => by omega⟩
    · exact absurd (of_decide_eq_false hcarry) (by omega)
    · exact absurd (of_decide_eq_false hcarry) (by omega)

end fields

end Svr3.Crontab
