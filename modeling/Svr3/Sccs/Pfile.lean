import Mathlib.Data.BitVec
import Svr3.Lib.Decimal

/-!
# The p-file

`wrtpfile` of `get.c` prints an entry; `pf_ab` of the library `comobj` reads it. A string is the list of its
characters before the null character; a pointer into it is what is left of the string there.
-/

namespace Svr3.Sccs

def LOGSIZE : ℕ := 16

def MAXLINE : ℕ := 512

/-- `struct sid`. Without a branch there is no sequence number. -/
structure Sid where
  rel : BitVec 32
  lev : BitVec 32
  br : BitVec 32
  seq : BitVec 32
  deriving DecidableEq

/-- What `chksid` wants -/
def Sid.Ok (s : Sid) : Prop := s.br = 0 → s.seq = 0

/-! ## Reading and printing -/

def satoi (p : List Char) : BitVec 32 × List Char := number 0 p

/-- `if (*p == '.') p++` -/
def skipDot (p : List Char) : List Char :=
  match p with
  | '.' :: q => q
  | _ => p

def sid_ab (p : List Char) : Sid × List Char :=
  let (rel, p) := satoi p
  let (lev, p) := satoi (skipDot p)
  let (br, p) := satoi (skipDot p)
  let (seq, p) := satoi (skipDot p)
  (⟨rel, lev, br, seq⟩, p)

def sid_ba (s : Sid) : List Char :=
  digits s.rel.toNat ++ '.' :: digits s.lev.toNat ++
    if s.br = 0 then [] else '.' :: digits s.br.toNat ++ '.' :: digits s.seq.toNat

/-! ## Dates -/

def dysize (a : ℕ) : ℕ := if a % 4 = 0 then 366 else 365

def dmsize (t : ℕ) : ℕ :=
  match t with
  | 2 => 28
  | 4 | 6 | 9 | 11 => 30
  | _ => 31

def mosize (y t : ℕ) : ℕ := if t = 2 ∧ dysize y = 366 then 29 else dmsize t

/-- `struct tm`, for a time of 32 bits. The year is counted from 1900, the month from 0. -/
structure Tm where
  year : ℕ
  mon : ℕ
  mday : ℕ
  hour : ℕ
  min : ℕ
  sec : ℕ
  year_le : year ≤ 138
  mon_lt : mon < 12
  mday_pos : 0 < mday
  mday_le : mday ≤ mosize year (mon + 1)
  hour_lt : hour < 24
  min_lt : min < 60
  sec_le : sec ≤ 61

/-- `DO2` -/
def do2 (n : ℕ) (c : List Char) : List Char := Char.ofNat (n / 10 + 48) :: Char.ofNat (n % 10 + 48) :: c

def date_ba (tm : Tm) : List Char :=
  do2 tm.year ('/' :: do2 (tm.mon + 1) ('/' :: do2 tm.mday (' ' :: do2 tm.hour (':' :: do2 tm.min
    (':' :: do2 tm.sec [])))))

/-- A number of two digits, or `none` at the end of the string, and the new `Datep` -/
def g2 (p : List Char) : Option ℕ × List Char :=
  match p.dropWhile fun c => !c.isDigit with
  | [] => (none, [])
  | c :: q =>
    match q with
    | [] => (some (c.toNat - 48), [])
    | d :: r => if d.isDigit then (some ((c.toNat - 48) * 10 + (d.toNat - 48)), r) else (some (c.toNat - 48), d :: r)

/-- The zone of the system: `timezone`, and where `localtime` has daylight saving time -/
structure Zone where
  timezone : ℤ
  isdst : ℤ → Bool

/-- The time of a date, with the year counted from 1900 -/
def dateTime (z : Zone) (y t d h m s : ℕ) : ℤ :=
  let days := ((List.range' 1970 (1900 + y - 1970)).map dysize).sum +
    ((List.range' 1 (t - 1)).map (mosize (1900 + y))).sum + (d - 1)
  let tim : ℤ := ((days * 24 + h) * 60 + m) * 60 + s + z.timezone
  if z.isdst tim then tim - 60 * 60 else tim

/-- The time, if the date is good, and `Datep` -/
def date_ab (z : Zone) (adt : List Char) : Option ℤ × List Char :=
  let (y, p) := g2 adt
  let y := y.getD 99
  if y < 70 ∨ y > 99 then (none, p) else
  let (t, p) := g2 p
  let t := t.getD 12
  if t < 1 ∨ t > 12 then (none, p) else
  let (d, p) := g2 p
  let d := d.getD (mosize y t)
  if d < 1 ∨ d > mosize y t then (none, p) else
  let (h, p) := g2 p
  let h := h.getD 23
  if h > 23 then (none, p) else
  let (m, p) := g2 p
  let m := m.getD 59
  if m > 59 then (none, p) else
  let (s, p) := g2 p
  let s := s.getD 59
  if s > 59 then (none, p) else
  (some (dateTime z y t d h m s), p)

/-! ## The entry -/

/-- `struct pfile`. The date is what `date_ab` stores, if it stores one. -/
structure Pfile where
  gsid : Sid
  nsid : Sid
  user : List Char
  date : Option ℤ
  ilist : Option (List Char)
  elist : Option (List Char)
  cmrlist : Option (List Char)

/-- `fatal`, or memory outside of a string is used. -/
inductive Fault
  | fatal (message : String)
  | wild
  deriving DecidableEq

/-- `p += n` -/
def skip (n : ℕ) (p : List Char) : Except Fault (List Char) :=
  if n ≤ p.length then .ok (p.drop n) else .error .wild

/-- The list of the `i` flag is cut at a blank. -/
def ilistAb (p : List Char) : Except Fault (Option (List Char) × List Char) :=
  match p with
  | 'i' :: p =>
    match p.dropWhile (· != ' ') with
    | [] => .ok (some p, [])
    | _ :: q => do
      let q ← skip 1 q
      pure (some (p.takeWhile (· != ' ')), q)
  | _ => .ok (none, p)

/-- The list of the `x` flag: `*p = ' '` is an assignment, and `*p++ == 0` is none. -/
def elistAb (p : List Char) : Except Fault (Option (List Char) × List Char) :=
  match p with
  | 'x' :: p =>
    match p with
    | [] => .ok (some [], [])
    | _ :: q => do
      let r ← skip 1 q
      pure (some (' ' :: q), r)
  | _ => .ok (none, p)

def cmrlistAb (p : List Char) : Option (List Char) :=
  match p with
  | 'z' :: p => some p
  | _ => none

/-- The three lists behind the date -/
def listsAb (all : Bool) (q : List Char) :
    Except Fault (Option (List Char) × Option (List Char) × Option (List Char)) :=
  if !all || q.isEmpty then .ok (none, none, none)
  else do
    let q ← skip 2 q
    let i ← ilistAb q
    let x ← elistAb i.2
    pure (i.1, x.1, cmrlistAb x.2)

def pf_ab (z : Zone) (s : List Char) (all : Bool) : Except Fault Pfile :=
  if s.length < MAXLINE then do
    let g := sid_ab (s.takeWhile (· != '\n'))
    let p ← skip 1 g.2
    let n := sid_ab p
    let p ← skip 1 n.2
    let i := p.findIdx (· == ' ')
    if i < p.length ∧ i < LOGSIZE then do
      let d := date_ab z (p.drop (i + 1))
      let l ← listsAb all d.2
      pure ⟨g.1, n.1, p.take i, d.1, l.1, l.2.1, l.2.2⟩
    else .error (.fatal "bad p-file format (co17)")
  else .error .wild

/-- ` -i`, ` -x` or ` -z` with its list, if there is one -/
def flag (c : Char) (arg : Option (List Char)) : List Char :=
  match arg with
  | none => []
  | some arg => ' ' :: '-' :: c :: arg

/-- The printed entry. `str1` and `str2` hold 32 characters. -/
def wrtpfile (gotsid reqsid : Sid) (user : List Char) (now : Tm) (inc exc cmr : Option (List Char)) :
    Option (List Char) :=
  if (sid_ba gotsid).length < 32 ∧ (sid_ba reqsid).length < 32 then
    some (sid_ba gotsid ++ ' ' :: (sid_ba reqsid ++ ' ' :: (user ++ ' ' :: (date_ba now ++ (flag 'i' inc ++
      (flag 'x' exc ++ (flag 'z' cmr ++ ['\n'])))))))
  else none

end Svr3.Sccs
