import Svr3.Libc.Localtime
import Svr3.Sccs.Mkixg
import Svr3.Sccs.PfileRead

/-!
# Entries of the delta table

`del_ba` prints the first line of an entry, with the date in local time and a year of two digits; `del_ab` reads it.
-/

namespace Svr3.Sccs.Del

open List

/-! ## The model -/

def BDELTAB : Char := 'd'

/-- `struct deltab` -/
structure Deltab where
  sid : Sid
  serial : BitVec 32
  pred : BitVec 32
  datetime : BitVec 32
  pgmr : List Char
  type : Char

/-- `date_ba`, with `localtime` -/
def date_ba (z : Ctime.Local) (bdt : BitVec 32) : Option (List Char) :=
  (Ctime.localtime z bdt).map fun lcltm =>
    do2 lcltm.year.toNat ('/' :: do2 (lcltm.mon + 1).toNat ('/' :: do2 lcltm.mday.toNat (' ' :: do2 lcltm.hour.toNat
      (':' :: do2 lcltm.min.toNat (':' :: do2 lcltm.sec.toNat [])))))

def del_ba (z : Ctime.Local) (dt : Deltab) : Option (List Char) :=
  (date_ba z dt.datetime).map fun date =>
    CTLCHAR :: BDELTAB :: ' ' :: dt.type :: ' ' :: (sid_ba dt.sid ++ ' ' :: (date ++ ' ' :: (dt.pgmr ++
      ' ' :: (digits dt.serial.toNat ++ ' ' :: (digits dt.pred.toNat ++ ['\n'])))))

/-- The zone of `date_ab` -/
def zone (z : Ctime.Local) : Zone where
  timezone := z.timezone.toInt
  isdst t := Ctime.isdst z (BitVec.ofInt 32 t)

/-- The end of `del_ab`, behind the date. `d_pgmr` holds 16 characters. -/
def del_abEnd (slnno : ℕ) (p : List Char) (dt : Deltab) : Except Fault (Char × Deltab) :=
  let p := nonblank p
  let n := p.findIdx (· == ' ')
  if ¬n < p.length then .error (formatError slnno)
  else if ¬n < LOGSIZE then .error .wild
  else
    let (serial, q) := satoi (nonblank (p.drop (n + 1)))
    let (pred, q) := satoi (nonblank q)
    if q.head? ≠ some '\n' then .error (formatError slnno)
    else .ok (BDELTAB, { dt with pgmr := p.take n, serial := serial, pred := pred })

/-- What is returned, and the new `dt`. A date that is not taken leaves the time as it is. -/
def del_ab (z : Ctime.Local) (slnno : ℕ) (p : List Char) (dt : Deltab) : Except Fault (Char × Deltab) :=
  if p.head? ≠ some CTLCHAR then .error (formatError slnno)
  else if p.tail.head? ≠ some BDELTAB then .ok (p.tail.headD '\x00', dt)
  else
    match nonblank p.tail.tail with
    | [] => .error .wild
    | type :: p =>
      let (sid, p) := sid_ab (nonblank p)
      let (date, p) := date_ab (zone z) (nonblank p)
      let datetime := match date with
        | some t => BitVec.ofInt 32 t
        | none => dt.datetime
      del_abEnd slnno p { dt with type := type, sid := sid, datetime := datetime }

/-- A login name, in which a tab is a blank too -/
structure Name extends Login where
  tab : '\t' ∉ chars

/-- An entry as `mkdelt` and `rmdel` write it -/
structure Entry where
  sid : { s : Sid // s.Ok }
  serial : BitVec 32
  pred : BitVec 32
  datetime : BitVec 32
  pgmr : Name
  type : { c : Char // c ≠ ' ' ∧ c ≠ '\t' }

def Entry.deltab (e : Entry) : Deltab := ⟨e.sid.1, e.serial, e.pred, e.datetime, e.pgmr.chars, e.type.1⟩

/-- The entry is printed, and it is read, whatever the record held before. -/
def ReadsBack (z : Ctime.Local) (dt : Deltab) : Prop :=
  ∀ slnno old, ∃ line, del_ba z dt = some line ∧ del_ab z slnno line old = .ok (BDELTAB, dt)

/-! ## The date -/

section date

variable {t : BitVec 32} {tm : Ctime.Tm}

/-- The days before a year -/
theorem years_sum {y : ℕ} (hlo : 70 ≤ y) (hhi : y ≤ 99) :
    (((List.range' 1970 (1900 + y - 1970)).map dysize).sum : ℤ) = Ctime.newYear (1900 + y) := by
  have hall : ∀ i < 30, (((List.range' 1970 i).map dysize).sum : ℤ) = Ctime.newYear (1970 + i) := by decide
  have hi := hall (y - 70) (by omega)
  have hsub : 1900 + y - 1970 = y - 70 := by omega
  have hadd : (1970 : ℤ) + (y - 70 : ℕ) = 1900 + y := by omega
  rw [hsub, hi, hadd]

theorem dysize_leap {y : ℕ} (hy : 1 ≤ y) (hy' : y < 200) : dysize y = 366 ↔ Ctime.Leap (1900 + y) := by
  unfold dysize Ctime.Leap
  split_ifs with h4
  · omega
  · omega

/-- The length of a month -/
theorem mosize_eq {y m : ℕ} (hy : 1 ≤ y) (hy' : y < 200) (hm : m < 12) :
    (mosize y (m + 1) : ℤ) = (Ctime.monthLengths (1900 + y)).getD m 0 := by
  have hleap := dysize_leap hy hy'
  unfold mosize Ctime.monthLengths
  by_cases hl : Ctime.Leap (1900 + y)
  · have hall : ∀ m < 12, ((if m + 1 = 2 ∧ True then 29 else dmsize (m + 1) : ℕ) : ℤ) =
        [31, 29, 31, 30, 31, 30, 31, 31, 30, 31, 30, 31].getD m 0 := by decide
    simp only [hleap, hl, if_true]
    exact hall m hm
  · have hall : ∀ m < 12, ((if m + 1 = 2 ∧ False then 29 else dmsize (m + 1) : ℕ) : ℤ) =
        [31, 28, 31, 30, 31, 30, 31, 31, 30, 31, 30, 31].getD m 0 := by decide
    simp only [hleap, hl, if_false]
    exact hall m hm

/-- The days before a month -/
theorem months_sum {y m : ℕ} (hy : 1 ≤ y) (hy' : y < 200) (hm : m < 12) :
    (((List.range' 1 m).map (mosize (1900 + y))).sum : ℤ) = ((Ctime.monthLengths (1900 + y)).take m).sum := by
  have hsame : dysize (1900 + y) = dysize y := by
    unfold dysize
    split_ifs
    all_goals omega
  have hleap := dysize_leap hy hy'
  rw [← hsame] at hleap
  unfold mosize Ctime.monthLengths
  by_cases hl : Ctime.Leap (1900 + y)
  · have hall : ∀ m < 12, (((List.range' 1 m).map fun t => if t = 2 ∧ True then 29 else dmsize t).sum : ℤ) =
        ([31, 29, 31, 30, 31, 30, 31, 31, 30, 31, 30, 31].take m).sum := by decide
    simp only [hleap, hl, if_true]
    exact hall m hm
  · have hall : ∀ m < 12, (((List.range' 1 m).map fun t => if t = 2 ∧ False then 29 else dmsize t).sum : ℤ) =
        ([31, 28, 31, 30, 31, 30, 31, 31, 30, 31, 30, 31].take m).sum := by decide
    simp only [hleap, hl, if_false]
    exact hall m hm

/-- The years of a time of 32 bits -/
theorem year_range (h : Ctime.Broken t.toInt tm) : 1 ≤ tm.year ∧ tm.year ≤ 138 := by
  have hlow := BitVec.le_toInt t
  have hhigh := BitVec.toInt_lt (x := t)
  obtain ⟨hs, hs'⟩ := h.sec
  obtain ⟨hm, hm'⟩ := h.min
  obtain ⟨hh, hh'⟩ := h.hour
  obtain ⟨hd, hd'⟩ := h.yday
  have htime := h.time
  have hlen := Ctime.yearLength_range (1900 + tm.year)
  unfold Ctime.newYear Ctime.leaps at htime
  omega

/-- The date as `date_ba` prints it -/
def toTm (h : Ctime.Broken t.toInt tm) : Tm where
  year := tm.year.toNat
  mon := tm.mon.toNat
  mday := tm.mday.toNat
  hour := tm.hour.toNat
  min := tm.min.toNat
  sec := tm.sec.toNat
  year_le := by
    have hyear := year_range h
    omega
  mon_lt := by
    have hmon := h.mon
    omega
  mday_pos := by
    have hmday := h.mday
    omega
  mday_le := by
    obtain ⟨hlo, hhi⟩ := year_range h
    have hmon := h.mon
    have hmday := h.mday.2
    have hsize := mosize_eq (y := tm.year.toNat) (m := tm.mon.toNat) (by omega) (by omega) (by omega)
    rw [Int.toNat_of_nonneg (by omega)] at hsize
    omega
  hour_lt := by
    have hhour := h.hour
    omega
  min_lt := by
    have hmin := h.min
    omega
  sec_le := by
    have hsec := h.sec
    omega

theorem date_ba_eq {z : Ctime.Local} {bdt : BitVec 32} (htm : Ctime.localtime z bdt = some tm)
    (h : Ctime.Broken t.toInt tm) : date_ba z bdt = some (Sccs.date_ba (toTm h)) := by
  have hmon : (tm.mon + 1).toNat = tm.mon.toNat + 1 := Int.toNat_add_nat h.mon.1 1
  rw [date_ba, htm, Option.map_some, hmon]
  rfl

/-- The time of a date is found from it, with the hour of summer added to it if there is one. -/
theorem dateTime_eq (h : Ctime.Broken t.toInt tm) (hlo : 70 ≤ tm.year) (hhi : tm.year ≤ 99) (z : Zone) :
    dateTime z (toTm h).year ((toTm h).mon + 1) (toTm h).mday (toTm h).hour (toTm h).min (toTm h).sec =
      if z.isdst (t.toInt + z.timezone) then t.toInt + z.timezone - 60 * 60 else t.toInt + z.timezone := by
  obtain ⟨hs, -⟩ := h.sec
  obtain ⟨hm, -⟩ := h.min
  obtain ⟨hh, -⟩ := h.hour
  obtain ⟨hmon, hmon'⟩ := h.mon
  obtain ⟨hd, -⟩ := h.mday
  have hyears := years_sum (y := tm.year.toNat) (by omega) (by omega)
  have hmonths := months_sum (y := tm.year.toNat) (m := tm.mon.toNat) (by omega) (by omega) (by omega)
  rw [Int.toNat_of_nonneg (by omega)] at hyears hmonths
  have hdate := h.date
  have htime := h.time
  have htim : (((((List.range' 1970 (1900 + tm.year.toNat - 1970)).map dysize).sum +
      ((List.range' 1 (tm.mon.toNat + 1 - 1)).map (mosize (1900 + tm.year.toNat))).sum + (tm.mday.toNat - 1) : ℕ) *
        24 + tm.hour.toNat) * 60 + tm.min.toNat) * 60 + tm.sec.toNat + z.timezone = t.toInt + z.timezone := by
    rw [Nat.add_sub_cancel]
    push_cast [hyears, hmonths]
    omega
  unfold dateTime
  dsimp only [toTm]
  rw [htim]

end date

/-! ## The other fields -/

section fields

variable {z : Ctime.Local} {dt old : Deltab} {e : Entry} {p q r : List Char} {slnno : ℕ}

/-- What is behind the date -/
def behind (dt : Deltab) : List Char :=
  ' ' :: (dt.pgmr ++ ' ' :: (digits dt.serial.toNat ++ ' ' :: (digits dt.pred.toNat ++ ['\n'])))

theorem Name.findIdx (w : Name) (d : List Char) : (w.chars ++ ' ' :: d).findIdx (· == ' ') = w.chars.length :=
  findIdx_blank w.toWord

theorem Name.nonblank (w : Name) (d : List Char) : Sccs.nonblank (w.chars ++ d) = w.chars ++ d := by
  cases hw : w.chars with
  | nil => exact absurd hw w.ne
  | cons c cs =>
    have hc : c ∈ w.chars := by
      rw [hw]
      exact mem_cons_self
    have hblank := (w.ok c hc).1
    have htab : c ≠ '\t' := fun h => w.tab (h ▸ hc)
    rw [cons_append]
    apply nonblank_of_not
    simp [hblank, htab]

/-- The name and the serial numbers are read as they were printed. -/
theorem del_abEnd_behind (e : Entry) (d : Deltab) : del_abEnd slnno (behind e.deltab) d =
    .ok (BDELTAB, { d with pgmr := e.pgmr.chars, serial := e.serial, pred := e.pred }) := by
  have hlt : e.pgmr.chars.length < (e.pgmr.chars ++
      ' ' :: (digits e.serial.toNat ++ ' ' :: (digits e.pred.toNat ++ ['\n']))).length := by
    rw [length_append, length_cons]
    omega
  have hdrop : (e.pgmr.chars ++ ' ' :: (digits e.serial.toNat ++ ' ' :: (digits e.pred.toNat ++ ['\n']))).drop
      (e.pgmr.chars.length + 1) = digits e.serial.toNat ++ ' ' :: (digits e.pred.toNat ++ ['\n']) := by
    rw [drop_append, drop_eq_nil_of_le (Nat.le_succ _), Nat.add_sub_cancel_left]
    rfl
  unfold del_abEnd behind
  dsimp only [Entry.deltab]
  rw [nonblank_blank, e.pgmr.nonblank, e.pgmr.findIdx, if_neg (not_not.mpr hlt), if_neg (not_not.mpr e.pgmr.short),
    hdrop, nonblank_digits, satoi_digits e.serial noDigit_blank]
  dsimp only
  rw [nonblank_blank, nonblank_digits, satoi_digits e.pred (noDigit_cons (by decide))]
  dsimp only
  rw [if_neg (by simp), take_left]

theorem nonblank_sid (s : Sid) (r : List Char) : nonblank (sid_ba s ++ r) = sid_ba s ++ r := by
  rw [sid_ba, append_assoc, append_assoc]
  exact nonblank_digits _ _

/-- The line up to the date -/
theorem del_ab_line (e : Entry) (date : List Char) (hdate : nonblank (date ++ r) = date ++ r) :
    del_ab z slnno (CTLCHAR :: BDELTAB :: ' ' :: e.type.1 :: ' ' :: (sid_ba e.sid.1 ++ ' ' :: (date ++ r))) old =
      del_abEnd slnno (date_ab (zone z) (date ++ r)).2 { old with
        type := e.type.1
        sid := e.sid.1
        datetime := match (date_ab (zone z) (date ++ r)).1 with
          | some t => BitVec.ofInt 32 t
          | none => old.datetime } := by
  obtain ⟨type, hblank, htab⟩ := e.type
  have htype : nonblank (type :: ' ' :: (sid_ba e.sid.1 ++ ' ' :: (date ++ r))) =
      type :: ' ' :: (sid_ba e.sid.1 ++ ' ' :: (date ++ r)) := by
    apply nonblank_of_not
    simp [hblank, htab]
  unfold del_ab
  rw [if_neg (by simp), if_neg (by simp)]
  dsimp only [tail_cons]
  rw [nonblank_blank, htype]
  dsimp only
  rw [nonblank_blank, nonblank_sid, sid_ab_ba e.sid.2]
  dsimp only
  rw [nonblank_blank, hdate]

theorem digit_ne {c x : Char} (hc : c.isDigit = true) (hx : x.isDigit = false) : (c == x) = false := by
  rw [beq_eq_false_iff_ne]
  rintro rfl
  rw [hx] at hc
  exact absurd hc nofun

/-- The name is `/mm/dd`, the serial number is the hour, and a colon stands where the line should end. -/
theorem del_abEnd_bad {m m' d d' h h' : Char} (hm : m.isDigit = true) (hm' : m'.isDigit = true) (hd : d.isDigit = true)
    (hd' : d'.isDigit = true) (hh : h.isDigit = true) (hh' : h'.isDigit = true) (p : List Char) (dt : Deltab) :
    del_abEnd slnno ('/' :: m :: m' :: '/' :: d :: d' :: ' ' :: h :: h' :: ':' :: p) dt =
      .error (formatError slnno) := by
  have hslash (p : List Char) : nonblank ('/' :: p) = '/' :: p := nonblank_of_not (by decide)
  have hcolon (p : List Char) : nonblank (':' :: p) = ':' :: p := nonblank_of_not (by decide)
  have hfind : ('/' :: m :: m' :: '/' :: d :: d' :: ' ' :: h :: h' :: ':' :: p).findIdx (· == ' ') = 6 := by
    simp [findIdx_cons, digit_ne hm, digit_ne hm', digit_ne hd, digit_ne hd']
  have hhour : nonblank (h :: h' :: ':' :: p) = h :: h' :: ':' :: p := by
    apply nonblank_of_not
    simp [digit_ne hh]
  have hdigits : ∀ x ∈ [h, h'], x.isDigit = true := by
    simp [hh, hh']
  have hno : NoDigit (':' :: p) := noDigit_cons (by decide)
  have hnum : (satoi (h :: h' :: ':' :: p)).2 = ':' :: p :=
    congrArg Prod.snd (number_append (R := BitVec 32) hno hdigits 0)
  unfold del_abEnd
  dsimp only
  rw [hslash, hfind, if_neg (by simp), if_neg (by decide)]
  change (if (satoi (nonblank (satoi (nonblank (h :: h' :: ':' :: p))).2)).2.head? ≠ some '\n' then _ else _) = _
  rw [hhour, hnum, hcolon, satoi_noDigit hno, if_pos]
  simp

/-- What is behind the year is no end of an entry. -/
theorem del_abEnd_afterYear (tm : Tm) (dt : Deltab) :
    del_abEnd slnno (afterYear tm r) dt = .error (formatError slnno) := by
  have hmday := tm.mday_lt
  have hmon := tm.mon_lt
  have hhour := tm.hour_lt
  have htens {n : ℕ} (hn : n < 100) : (Char.ofNat (n / 10 + 48)).isDigit = true := (digit_all (n / 10) (by omega)).1
  have hones (n : ℕ) : (Char.ofNat (n % 10 + 48)).isDigit = true := (digit_all (n % 10) (by omega)).1
  exact del_abEnd_bad (htens (by omega)) (hones _) (htens (by omega)) (hones _) (htens (by omega)) (hones _) _ dt

/-- The time that `date_ab` finds for the date of a time -/
theorem datetime_read {t : BitVec 32} {tm : Ctime.Tm} (h : Ctime.Broken (Ctime.shifted z t).toInt tm)
    (hlo : 70 ≤ tm.year) (hhi : tm.year ≤ 99) (r : List Char) :
    date_ab (zone z) (Sccs.date_ba (toTm h) ++ r) = (some (if Ctime.isdst z (Ctime.shifted z t + z.timezone) then
      (Ctime.shifted z t).toInt + z.timezone.toInt - 60 * 60
      else (Ctime.shifted z t).toInt + z.timezone.toInt), r) := by
  have hsec : ¬(toTm h).sec > 59 := by
    have hsec := h.sec.2
    change ¬tm.sec.toNat > 59
    omega
  have hlo' : 70 ≤ (toTm h).year := by
    change 70 ≤ tm.year.toNat
    omega
  have hhi' : (toTm h).year ≤ 99 := by
    change tm.year.toNat ≤ 99
    omega
  have hsum : (zone z).isdst ((Ctime.shifted z t).toInt + (zone z).timezone) =
      Ctime.isdst z (Ctime.shifted z t + z.timezone) := by
    change Ctime.isdst z (BitVec.ofInt 32 ((Ctime.shifted z t).toInt + z.timezone.toInt)) = _
    rw [BitVec.ofInt_add, BitVec.ofInt_toInt, BitVec.ofInt_toInt]
  rw [date_ab_year_ok hlo' hhi', if_neg hsec, dateTime_eq h hlo hhi (zone z), hsum]
  rfl

end fields

/-- The time that is read: an hour is taken back if it is summer there, too. -/
def readTime (z : Ctime.Local) (t : BitVec 32) : BitVec 32 :=
  if Ctime.isdst z (Ctime.shifted z t + z.timezone) then Ctime.shifted z t + z.timezone - 3600
  else Ctime.shifted z t + z.timezone

theorem readTime_eq (z : Ctime.Local) (t : BitVec 32) :
    readTime z t = t ↔ (Ctime.isdst z t = true → Ctime.isdst z (t + 3600) = true) := by
  unfold readTime Ctime.shifted
  by_cases hdst : Ctime.isdst z t = true
  · have hback : t - z.timezone + 3600 + z.timezone = t + 3600 := by
      rw [add_right_comm, BitVec.sub_add_cancel]
    rw [if_pos hdst, hback]
    by_cases hlater : Ctime.isdst z (t + 3600) = true
    · rw [if_pos hlater, BitVec.add_sub_cancel]
      exact ⟨fun _ _ => hlater, fun _ => rfl⟩
    · rw [if_neg hlater]
      have hne : t + 3600 ≠ t := by
        intro h
        exact absurd (BitVec.add_right_eq_self.mp h) (by decide)
      exact ⟨fun h => absurd h hne, fun h => absurd (h hdst) hlater⟩
  · rw [if_neg hdst, BitVec.sub_add_cancel, if_neg hdst]
    exact ⟨fun _ h => absurd h hdst, fun _ => rfl⟩

theorem nonblank_date (tm : Tm) (r : List Char) : nonblank (Sccs.date_ba tm ++ r) = Sccs.date_ba tm ++ r := by
  have hyear := tm.year_le
  have htens : ∀ d < 14, ¬(Char.ofNat (d + 48) == ' ' || Char.ofNat (d + 48) == '\t') = true := by decide
  exact nonblank_of_not (htens (tm.year / 10) (by omega))

section reading

variable {z : Ctime.Local} {e : Entry} {tm : Ctime.Tm}

theorem del_ba_line (htm : Ctime.localtime z e.datetime = some tm)
    (h : Ctime.Broken (Ctime.shifted z e.datetime).toInt tm) :
    del_ba z e.deltab = some (CTLCHAR :: BDELTAB :: ' ' :: e.type.1 :: ' ' :: (sid_ba e.sid.1 ++ ' ' ::
      (Sccs.date_ba (toTm h) ++ behind e.deltab))) := by
  have hdate : date_ba z e.deltab.datetime = some (Sccs.date_ba (toTm h)) := date_ba_eq htm h
  rw [del_ba, hdate]
  rfl

/-- With a year of two digits all but the time is read back. -/
theorem del_ab_good (h : Ctime.Broken (Ctime.shifted z e.datetime).toInt tm) (hlo : 70 ≤ tm.year) (hhi : tm.year ≤ 99)
    (slnno : ℕ) (old : Deltab) :
    del_ab z slnno (CTLCHAR :: BDELTAB :: ' ' :: e.type.1 :: ' ' :: (sid_ba e.sid.1 ++ ' ' ::
      (Sccs.date_ba (toTm h) ++ behind e.deltab))) old =
      .ok (BDELTAB, { e.deltab with datetime := readTime z e.datetime }) := by
  have htime : BitVec.ofInt 32 (if Ctime.isdst z (Ctime.shifted z e.datetime + z.timezone) then
      (Ctime.shifted z e.datetime).toInt + z.timezone.toInt - 60 * 60
      else (Ctime.shifted z e.datetime).toInt + z.timezone.toInt) = readTime z e.datetime := by
    unfold readTime
    split_ifs
    · rw [sub_eq_add_neg, BitVec.ofInt_add, BitVec.ofInt_add, BitVec.ofInt_toInt, BitVec.ofInt_toInt, sub_eq_add_neg]
      rfl
    · rw [BitVec.ofInt_add, BitVec.ofInt_toInt, BitVec.ofInt_toInt]
  rw [del_ab_line e _ (nonblank_date _ _), datetime_read h hlo hhi, del_abEnd_behind]
  dsimp only
  rw [htime]
  rfl

/-- With another year the line is no entry. -/
theorem del_ab_bad (h : Ctime.Broken (Ctime.shifted z e.datetime).toInt tm) (hyear : tm.year < 70 ∨ 100 ≤ tm.year)
    (slnno : ℕ) (old : Deltab) :
    del_ab z slnno (CTLCHAR :: BDELTAB :: ' ' :: e.type.1 :: ' ' :: (sid_ba e.sid.1 ++ ' ' ::
      (Sccs.date_ba (toTm h) ++ behind e.deltab))) old = .error (formatError slnno) := by
  have hyear' : (toTm h).year < 70 ∨ 100 ≤ (toTm h).year := by
    have hrange := year_range h
    change tm.year.toNat < 70 ∨ 100 ≤ tm.year.toNat
    omega
  rw [del_ab_line e _ (nonblank_date _ _), date_ab_year hyear', del_abEnd_afterYear]

end reading

/-- An entry is read back if and only if its year has two digits, from 1970 on, and its time is not in the last hour
of summer. -/
theorem del_ab_ba_iff (z : Ctime.Local) (e : Entry) : ReadsBack z e.deltab ↔
    (∃ tm, Ctime.localtime z e.datetime = some tm ∧ 70 ≤ tm.year ∧ tm.year ≤ 99) ∧
      (Ctime.isdst z e.datetime = true → Ctime.isdst z (e.datetime + 3600) = true) := by
  obtain ⟨tm, htm, h⟩ := Ctime.localtime_broken z e.datetime
  have hline := del_ba_line htm h
  rw [← readTime_eq]
  constructor
  · intro hback
    obtain ⟨line, hprinted, hread⟩ := hback 0 e.deltab
    obtain rfl := Option.some.inj (hline.symm.trans hprinted)
    by_cases hyear : 70 ≤ tm.year ∧ tm.year ≤ 99
    · rw [del_ab_good h hyear.1 hyear.2] at hread
      have heq := congrArg Deltab.datetime (Prod.mk.inj (Except.ok.inj hread)).2
      exact ⟨⟨tm, htm, hyear⟩, heq⟩
    · rw [del_ab_bad h (by omega)] at hread
      exact absurd hread nofun
  · rintro ⟨⟨tm', htm', hlo, hhi⟩, htime⟩ slnno old
    obtain rfl := Option.some.inj (htm.symm.trans htm')
    refine ⟨_, hline, ?_⟩
    rw [del_ab_good h hlo hhi, htime]
    rfl

/-- Greenwich -/
def gmt : Ctime.Local := ⟨0, false⟩

/-- The first delta of `joe`, at a time -/
def byJoe (t : BitVec 32) : Entry where
  sid := ⟨⟨1, 1, 0, 0⟩, fun _ => rfl⟩
  serial := 1
  pred := 0
  datetime := t
  pgmr := ⟨⟨⟨['j', 'o', 'e'], nofun, by simp⟩, by decide⟩, by simp⟩
  type := ⟨'D', by decide⟩

/-- An entry of the year 2000 is not read back. -/
theorem del_ab_2000 : ¬ReadsBack gmt (byJoe 949363200).deltab := by
  obtain ⟨tm, htm, h⟩ := Ctime.localtime_broken gmt (byJoe 949363200).datetime
  have hlate : 949363200 ≤ (Ctime.shifted gmt (byJoe 949363200).datetime).toInt := by
    unfold Ctime.shifted
    split_ifs
    · decide
    · decide
  have hyear : 100 ≤ tm.year := by
    obtain ⟨-, hs⟩ := h.sec
    obtain ⟨-, hm⟩ := h.min
    obtain ⟨-, hh⟩ := h.hour
    obtain ⟨-, hd⟩ := h.yday
    have htime := h.time
    have hlen := (Ctime.yearLength_range (1900 + tm.year)).2
    unfold Ctime.newYear Ctime.leaps at htime
    omega
  intro hback
  obtain ⟨line, hprinted, hread⟩ := hback 0 (byJoe 949363200).deltab
  obtain rfl := Option.some.inj ((del_ba_line htm h).symm.trans hprinted)
  rw [del_ab_bad h (.inr hyear)] at hread
  exact absurd hread nofun

end Svr3.Sccs.Del
