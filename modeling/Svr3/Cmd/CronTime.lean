import Mathlib.Data.BitVec
import Svr3.Lib.Decimal

/-!
# The next time of a crontab event

`next_field`, `next_time` and `next_ge` of `cron/cron.c` and the functions about days of `cron/funcs.c`, in a zone
without daylight saving time. A string is the list of its characters before the null character.
-/

namespace Svr3.Crontab

/-! ## Fields -/

def blank (c : Char) : Bool := c == ' ' || c == '\t'

def num (p : List Char) : ℕ × List Char :=
  let r := number (0 : BitVec 32) p
  (r.1.toNat, r.2)

/-- A number within the bounds, and what is behind it -/
def fieldNum (lower upper : ℕ) (p : List Char) : Option (List Char) :=
  if (p.head?.map Char.isDigit).getD false then
    if (num p).1 < lower ∨ upper < (num p).1 then none else some (num p).2
  else none

/-- A number or a range -/
def fieldItem (lower upper : ℕ) (p : List Char) : Option (List Char) :=
  (fieldNum lower upper p).bind fun q =>
    match q with
    | '-' :: q => fieldNum lower upper q
    | q => some q

/-- What is behind the list, if a blank follows it -/
def fieldItems (lower upper : ℕ) : ℕ → List Char → Option (List Char)
  | 0, _ => none
  | k + 1, p => (fieldItem lower upper p).bind fun q =>
    match q with
    | [] => none
    | c :: q => if blank c then some (c :: q) else if c = ',' then fieldItems lower upper k q else none

/-- The field, and what is behind it on the line -/
def next_field (lower upper : ℕ) (line : List Char) : Option (List Char × List Char) :=
  let p := line.dropWhile blank
  if p.head? = some '*' then
    if (p.tail.head?.map blank).getD false then some (['*'], p.tail) else none
  else (fieldItems lower upper p.length p).map fun q => (p.take (p.length - q.length), q)

/-- A field that `next_field` takes -/
abbrev Field (lower upper : ℕ) := { l : List Char // ∃ line rest, next_field lower upper line = some (l, rest) }

/-- `of.ct` -/
structure Ct where
  minute : Field 0 59
  hour : Field 0 23
  daymon : Field 1 31
  month : Field 1 12
  dayweek : Field 0 6

/-! ## Numbers of a list -/

def DUMMY : ℕ := 100

/-- A range behind its first number `n`: the current number if the range has it, or the rest of the list -/
def inRange (current n : ℕ) (p : List Char) : Option ℕ × List Char :=
  match p with
  | '-' :: p =>
    let n2 := (num p).1
    let found := if n < n2 then n < current ∧ current ≤ n2 else n < current ∨ current ≤ n2
    (if found then some current else none, (num p).2)
  | p => (none, p)

/-- The loop, with the least number so far and the least one above the current number -/
def next_geLoop (current : ℕ) : ℕ → List Char → ℕ → ℕ → ℕ
  | 0, _, _, _ => DUMMY
  | k + 1, p, min, min_gt =>
    let n := (num p).1
    if n = current then current
    else
      let min := if n < min then n else min
      let min_gt := if current < n ∧ n < min_gt then n else min_gt
      match inRange current n (num p).2 with
      | (some c, _) => c
      | (none, []) => if min_gt ≠ DUMMY then min_gt else min
      | (none, _ :: p) => next_geLoop current k p min min_gt

def next_ge (current : ℕ) (list : List Char) : ℕ :=
  if list = ['*'] then current else next_geLoop current (list.length + 1) list DUMMY DUMMY

/-! ## Days -/

def dom : List ℕ := [31, 28, 31, 30, 31, 30, 31, 31, 30, 31, 30, 31]

def days_in_mon (m y : ℕ) : ℕ := dom.getD m 0 + if m = 1 ∧ y % 4 = 0 then 1 else 0

/-- The days of the months from `m` up to `m2`. There are less than 12 of them. -/
def monthsBtwn (m2 : ℕ) : ℕ → ℕ → ℕ → ℕ
  | 0, _, _ => 0
  | k + 1, m, y =>
    if m = m2 then 0
    else
      let y := if m = 0 then y + 1 else y
      days_in_mon m y + monthsBtwn m2 k ((m + 1) % 12) y

def days_btwn (m1 d1 y1 m2 d2 y2 : ℕ) : ℕ :=
  if m1 = m2 ∧ d1 = d2 ∧ y1 = y2 then 0
  else if m1 = m2 ∧ d1 < d2 then d2 - d1 - 1
  else (days_in_mon m1 y1 - d1) + (d2 - 1) + monthsBtwn m2 12 ((m1 + 1) % 12) y1

/-! ## Local time -/

def MINUTE : ℤ := 60

def HOUR : ℤ := 60 * 60

def DAY : ℤ := 24 * 60 * 60

/-- `struct tm` -/
structure Tm where
  sec : ℕ
  min : ℕ
  hour : ℕ
  mday : ℕ
  mon : ℕ
  year : ℕ
  wday : ℕ

/-- The length of a month, counted from January 1968 -/
def monthLen (j : ℕ) : ℕ := days_in_mon (j % 12) (68 + j / 12)

/-- The month of a day, and the days of the month before it -/
def monthOf : ℕ → ℕ → ℕ → ℕ × ℕ
  | 0, j, d => (j, d)
  | k + 1, j, d => if d < monthLen j then (j, d) else monthOf k (j + 1) (d - monthLen j)

/-- The seconds of the local clock since January 1968, which began on a Monday -/
def localSeconds (timezone t : ℤ) : ℕ := (t - timezone + 731 * DAY).toNat

def localtime (timezone t : ℤ) : Tm :=
  let s := localSeconds timezone t
  let day := s / 86400
  let j := (monthOf (day + 1) 0 day).1
  { sec := s % 60
    min := s / 60 % 60
    hour := s / 3600 % 24
    mday := (monthOf (day + 1) 0 day).2 + 1
    mon := j % 12
    year := 68 + j / 12
    wday := (day + 1) % 7 }

/-! ## The next time -/

def star (l : List Char) : Bool := l == ['*']

/-- `today` -/
def today (tm : Tm) (e : Ct) : Bool :=
  let tm_mon := next_ge (tm.mon + 1) e.month.1 - 1
  let tm_mday := next_ge tm.mday e.daymon.1
  let tm_wday := next_ge tm.wday e.dayweek.1
  !((star e.daymon.1 && tm.wday != tm_wday) || (star e.dayweek.1 && tm.mday != tm_mday) ||
    (tm.mday != tm_mday && tm.wday != tm_wday) || tm.mon != tm_mon)

/-- `hr` and `min` for this day, and whether they carry -/
def clock (tm : Tm) (e : Ct) : ℕ × ℕ × Bool :=
  let m := tm.min + 1
  let min := next_ge (m % 60) e.minute.1
  let h := tm.hour + if min < m then 1 else 0
  let hr := next_ge (h % 24) e.hour.1
  (hr, min, decide (hr < h))

/-- `day1` and `carry1` -/
def monthDay (tm : Tm) (e : Ct) : ℕ × Bool :=
  let d1 := tm.mday + 1
  let day1 := next_ge ((d1 - 1) % days_in_mon tm.mon tm.year + 1) e.daymon.1
  (day1, decide (day1 < d1))

/-- `day2` and `carry2` -/
def weekDay (tm : Tm) (e : Ct) : ℕ × Bool :=
  let d1 := tm.mday + 1
  let d2 := tm.wday + 1
  let wday := next_ge (d2 % 7) e.dayweek.1
  let daysahead := if wday < d2 then 7 - d2 + wday else wday - d2
  let day2 := (d1 + daysahead - 1) % days_in_mon tm.mon tm.year + 1
  (day2, decide (day2 < d1))

/-- The two specifications: one that is not restricted takes the day of the other. -/
def restrict {α : Type*} (e : Ct) (x y : α) : α × α :=
  (if star e.daymon.1 && !star e.dayweek.1 then y else x, if !star e.daymon.1 && star e.dayweek.1 then x else y)

/-- The day, the month and the year, when the event does not occur in this month -/
def otherMonth (tm : Tm) (e : Ct) : ℕ × ℕ × ℕ :=
  let m := tm.mon + 1
  let mon := next_ge (m % 12 + 1) e.month.1 - 1
  let yr := tm.year + if mon < m then 1 else 0
  let db := days_btwn tm.mon tm.mday tm.year mon 1 yr + 1
  let wd := (tm.wday + db) % 7
  let wday := next_ge wd e.dayweek.1
  let days := restrict e (next_ge 1 e.daymon.1) (if wday < wd then 1 + 7 - wd + wday else 1 + wday - wd)
  (if days.1 < days.2 then days.1 else days.2, mon, yr)

/-- The day of the next occurrence that is not this day -/
def nextDate (tm : Tm) (e : Ct) : ℕ × ℕ × ℕ :=
  let days := restrict e (monthDay tm e) (weekDay tm e)
  if (days.1.2 && days.2.2) || tm.mon != next_ge (tm.mon + 1) e.month.1 - 1 then otherMonth tm e
  else
    let day :=
      if !days.1.2 && !days.2.2 then if days.1.1 < days.2.1 then days.1.1 else days.2.1
      else if !days.1.2 then days.1.1
      else days.2.1
    (day, tm.mon, tm.year)

def next_time (timezone t : ℤ) (e : Ct) : ℤ :=
  let tm := localtime timezone t
  let c := clock tm e
  if !c.2.2 && today tm e then
    let hr : ℤ := c.1
    let min : ℤ := c.2.1
    if min < tm.min then t + (hr - tm.hour - 1) * HOUR + (60 - tm.min + min) * MINUTE - tm.sec
    else t + (hr - tm.hour) * HOUR + (min - tm.min) * MINUTE - tm.sec
  else
    let min : ℤ := next_ge 0 e.minute.1
    let hr : ℤ := next_ge 0 e.hour.1
    let d := nextDate tm e
    let days : ℤ := days_btwn tm.mon tm.mday tm.year d.2.1 d.1 d.2.2
    t + (23 - tm.hour) * HOUR + (60 - tm.min) * MINUTE + hr * HOUR + min * MINUTE + days * DAY - tm.sec

/-! ## When an event occurs -/

/-- A number or a range of a list. A range whose first number is the greater one wraps around. -/
def covers (item : List Char) (x : ℕ) : Prop :=
  match item.splitOn '-' with
  | [a] => x = (num a).1
  | [a, b] => if (num a).1 ≤ (num b).1 then (num a).1 ≤ x ∧ x ≤ (num b).1 else (num a).1 ≤ x ∨ x ≤ (num b).1
  | _ => False

def Has (list : List Char) (x : ℕ) : Prop := list = ['*'] ∨ ∃ item ∈ list.splitOn ',', covers item x

/-- The day of the month or the day of the week, if both are restricted; else the one that is -/
def Ct.Day (e : Ct) (mday wday : ℕ) : Prop :=
  if e.daymon.1 = ['*'] then Has e.dayweek.1 wday
  else if e.dayweek.1 = ['*'] then Has e.daymon.1 mday
  else Has e.daymon.1 mday ∨ Has e.dayweek.1 wday

end Svr3.Crontab
