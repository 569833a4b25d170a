import Mathlib.Data.Int.Notation
import Mathlib.Tactic.Common

/-!
# Record locks of `os/flock.c`

The locks of an inode are a list ordered by start. `flckadj` lays a request over the locks that its
process holds: what it overlays of another type is released, what it overlays or adjoins of the
same type is made part of it. As everywhere in the source, `l_end` stands in the place of `l_len`.
-/

namespace Svr3.Rlock

inductive LType
  | F_RDLCK
  | F_WRLCK
  | F_UNLCK
  | other (n : Int16)
deriving DecidableEq

def MAXEND : ℤ := 0o17777777777

/-- `struct flock` -/
structure Flock where
  l_type : LType
  l_whence : Int16
  l_start : ℤ
  l_end : ℤ
  l_pid : Int16
  l_sysid : Int16

/-- The union `stat`, as its member `blk`. -/
structure Stat where
  pid : Int16
  sysid : Int16
deriving DecidableEq

/-- `stat.wakeflg` is 0. -/
def Stat.zero : Stat := ⟨0, 0⟩

/-- `stat.wakeflg++`: `sysid` is the low half of the word. -/
def Stat.incr (s : Stat) : Stat := ⟨if s.sysid = -1 then s.pid + 1 else s.pid, s.sysid + 1⟩

/-- `struct filock`, with its address, on which processes sleep. -/
structure Filock where
  addr : ℕ
  set : Flock
  stat : Stat

/-- The current process: `p_epid` and `p_sysid` of `u.u_procp`. -/
structure Owner where
  p_epid : Int16
  p_sysid : Int16
deriving DecidableEq

/-- The lock is owned by the process. -/
def Filock.own (u : Owner) (f : Filock) : Bool :=
  f.set.l_pid = u.p_epid && f.set.l_sysid = u.p_sysid

/-- The free list and the counts of `flckinfo`, and the calls of `wakeup`, the last one first. -/
structure Krnl where
  frlock : List ℕ
  reccnt : ℤ
  recovf : ℤ
  rectot : ℤ
  woken : List ℕ

inductive Errno
  | EAGAIN
  | EBADF
  | EBUSY
  | EDEADLK
  | EINTR
  | EINVAL
  | ENOLCK
deriving DecidableEq

/-! A pointer into a lock list is the number of locks up to the one it points to; NULL is 0. -/

/-- The structure at `a`, taken from the free list for a lock of the process. -/
def newlck (u : Owner) (a : ℕ) (lckdat : Flock) : Filock :=
  ⟨a, { lckdat with l_pid := u.p_epid, l_sysid := u.p_sysid }, .zero⟩

/-- `insflck(lck_list, lckdat, fl)`: the new lock or NULL, and the list. -/
def insflck (u : Owner) (lst : List Filock) (lckdat : Flock) (fl : ℕ) (k : Krnl) :
    Option Filock × List Filock × Krnl :=
  match k.frlock with
  | a :: rest =>
    (some (newlck u a lckdat), lst.take fl ++ newlck u a lckdat :: lst.drop fl,
      { k with frlock := rest, reccnt := k.reccnt + 1, rectot := k.rectot + 1 })
  | [] => (none, lst, { k with recovf := k.recovf + 1 })

/-- `WAKEUP(ptr)` -/
def WAKEUP (f : Filock) (k : Krnl) : Filock × Krnl :=
  if f.stat = .zero then (f, k)
  else ({ f with stat := .zero }, { k with woken := f.addr :: k.woken })

/-- `delflck(lck_list, fl)`, apart from the list that `fl` is taken out of. -/
def delflck (fl : Filock) (k : Krnl) : Krnl :=
  let k := (WAKEUP fl k).2
  { k with reccnt := k.reccnt - 1, frlock := fl.addr :: k.frlock }

inductive StartRegion
  | S_BEFORE
  | S_START
  | S_MIDDLE
  | S_END
  | S_AFTER

inductive EndRegion
  | E_BEFORE
  | E_START
  | E_MIDDLE
  | E_END
  | E_AFTER

open StartRegion EndRegion

/-- The end type of `regflck`. -/
def regend (ld flp : Flock) : EndRegion :=
  if ld.l_end < flp.l_end then
    if ld.l_end = flp.l_start - 1 then E_START
    else if ld.l_end < flp.l_start then E_BEFORE
    else E_MIDDLE
  else if ld.l_end = flp.l_end then E_END
  else E_AFTER

/-- `regflck(ld, flp)` -/
def regflck (ld flp : Flock) : StartRegion × EndRegion :=
  if flp.l_start < ld.l_start then
    if ld.l_start - 1 = flp.l_end then (S_END, E_AFTER)
    else if flp.l_end < ld.l_start then (S_AFTER, E_AFTER)
    else (S_MIDDLE, regend ld flp)
  else if ld.l_start = flp.l_start then (S_START, regend ld flp)
  else (S_BEFORE, regend ld flp)

/-- The do-while loops of `flckadj`, from the first lock of `lst` on: the pointer to the last of the
leading locks that start before `start`, or to the first lock of all. -/
def seek (start : ℤ) (lst : List Filock) : ℕ :=
  max 1 (lst.takeWhile fun f => f.set.l_start < start).length

/-- How a turn of the loop of `flckadj` ends: the loop goes on, `nflp = NULL` ends it, or the
routine returns 0 or ENOLCK. -/
inductive Go
  | next
  | stop
  | ret
  | enolck

/-- The variables after a turn of the loop: what is left of `flp`, and the locks behind it. -/
structure Turn where
  stay : List Filock
  behind : List Filock
  insrtp : ℕ
  ld : Flock
  k : Krnl
  go : Go

/-- `flp->set.l_end = ld->l_start - 1; WAKEUP(flp); insrtp = flp;` -/
def Turn.cut (t : Turn) (pos : ℕ) (flp : Filock) : Turn :=
  let r := WAKEUP { flp with set := { flp.set with l_end := t.ld.l_start - 1 } } t.k
  { t with stay := [r.1], insrtp := pos + 1, k := r.2 }

/-- `delflck(lck_list, flp)` -/
def Turn.del (t : Turn) (flp : Filock) : Turn := { t with stay := [], k := delflck flp t.k }

/-- "setup piece after end of (un)lock" -/
def Turn.piece (u : Owner) (t : Turn) (flp : Filock) : Turn :=
  let td := { flp.set with l_start := t.ld.l_end + 1 }
  match insflck u (flp :: t.behind) td (seek td.l_start (flp :: t.behind)) t.k with
  | (none, _, k) => { t with k := k, go := .enolck }
  | (some _, lst, k) => { t with behind := lst.tail, k := k, go := .stop }

/-- The body of the loop of `flckadj` for a lock `flp` of the process, with `pos` locks before it. -/
def turn (u : Owner) (pos insrtp : ℕ) (ld : Flock) (k : Krnl) (flp : Filock)
    (behind : List Filock) : Turn :=
  let t : Turn := ⟨[flp], behind, insrtp, ld, k, .next⟩
  let same := ld.l_type = flp.set.l_type
  match regflck ld flp.set with
  | (S_BEFORE, E_BEFORE) => { t with go := .stop }
  | (S_BEFORE, E_START) =>
    if same then { t.del flp with ld := { ld with l_end := flp.set.l_end }, go := .stop }
    else { t with go := .stop }
  | (S_START, E_END) =>
    if same then { t with go := .ret } else { t.del flp with insrtp := pos }
  | (S_START, E_AFTER) => { t.del flp with insrtp := pos }
  | (S_BEFORE, E_END) => { t.del flp with go := if same then .stop else .next }
  | (S_BEFORE, E_AFTER) => t.del flp
  | (S_START, E_MIDDLE) =>
    if same then { t with insrtp := pos, go := .ret }
    else
      let p := { t with insrtp := pos }.piece u flp
      match p.go with
      | .enolck => p
      | _ => p.del flp
  | (S_MIDDLE, E_MIDDLE) =>
    if same then { t with go := .ret }
    else
      let p := t.piece u flp
      match p.go with
      | .enolck => p
      | _ => p.cut pos flp
  | (S_BEFORE, E_MIDDLE) =>
    if same then { t.del flp with ld := { ld with l_end := flp.set.l_end }, go := .stop }
    else
      let p := t.piece u flp
      match p.go with
      | .enolck => p
      | _ => p.del flp
  | (S_MIDDLE, E_END) => if same then { t with go := .ret } else t.cut pos flp
  | (S_MIDDLE, E_AFTER) =>
    if same then { t.del flp with ld := { ld with l_start := flp.set.l_start }, insrtp := pos }
    else t.cut pos flp
  | (S_END, E_AFTER) =>
    if same then { t.del flp with ld := { ld with l_start := flp.set.l_start }, insrtp := pos }
    else t
  | (S_AFTER, E_AFTER) => { t with insrtp := pos + 1 }
  | _ => t

/-- The variables of `flckadj` after the loop, and how it ended. -/
structure Scanned where
  lst : List Filock
  insrtp : ℕ
  ld : Flock
  k : Krnl
  go : Go

/-- The loop of `flckadj`: `before` are the locks before `flp`. -/
def scan (u : Owner) (before : List Filock) (insrtp : ℕ) (ld : Flock) (k : Krnl) :
    List Filock → Scanned
  | [] => ⟨before, insrtp, ld, k, .stop⟩
  | flp :: behind =>
    if flp.own u then
      let t := turn u before.length insrtp ld k flp behind
      match t.go with
      | .next => scan u (before ++ t.stay) t.insrtp t.ld t.k behind
      | _ => ⟨before ++ t.stay ++ t.behind, t.insrtp, t.ld, t.k, t.go⟩
    else scan u (before ++ [flp]) insrtp ld k behind

/-- What `flckadj` returns, and what it leaves. -/
structure Adjusted where
  ret : Option Errno
  lst : List Filock
  ld : Flock
  k : Krnl

/-- The pointer after which the new lock goes into the list. -/
def place (insrtp : ℕ) (ld : Flock) (lst : List Filock) : ℕ :=
  if insrtp = 0 then 0 else insrtp - 1 + seek ld.l_start (lst.drop (insrtp - 1))

/-- The end of `flckadj`, which enters the lock. -/
def Scanned.enter (u : Owner) (s : Scanned) : Adjusted :=
  if s.ld.l_type = .F_UNLCK then ⟨none, s.lst, s.ld, s.k⟩
  else
    match insflck u s.lst s.ld (place s.insrtp s.ld s.lst) s.k with
    | (none, lst, k) => ⟨some .ENOLCK, lst, s.ld, k⟩
    | (some _, lst, k) => ⟨none, lst, s.ld, k⟩

/-- `flckadj(lck_list, insrtp, ld)` -/
def flckadj (u : Owner) (lst : List Filock) (insrtp : ℕ) (ld : Flock) (k : Krnl) : Adjusted :=
  let s := scan u (lst.take (insrtp - 1)) insrtp ld k (lst.drop (insrtp - 1))
  match s.go with
  | .ret => ⟨none, s.lst, s.ld, s.k⟩
  | .enolck => ⟨some .ENOLCK, s.lst, s.ld, s.k⟩
  | _ => s.enter u

/-- The types conflict: `f->set.l_type == F_WRLCK || (f->set.l_type == F_RDLCK &&
lckdat->l_type == F_WRLCK)`. -/
def conflict (f lckdat : Flock) : Bool :=
  f.l_type = .F_WRLCK || (f.l_type = .F_RDLCK && lckdat.l_type = .F_WRLCK)

/-- The second loop of `blocked`. -/
def blockedFrom (u : Owner) (lckdat : Flock) : List Filock → Option Filock
  | [] => none
  | f :: fs =>
    if lckdat.l_end < f.set.l_start then none
    else if lckdat.l_start ≤ f.set.l_end && !f.own u && conflict f.set lckdat then some f
    else blockedFrom u lckdat fs

/-- `blocked(flp, lckdat, insrt)`, with `pos` locks before those still to come: the lock, and
`*insrt`. -/
def blockedAt (u : Owner) (lckdat : Flock) (pos : ℕ) : List Filock → Option Filock × ℕ
  | [] => (none, pos)
  | f :: fs =>
    if f.set.l_start < lckdat.l_start then
      if f.own u then
        if lckdat.l_start - 1 ≤ f.set.l_end then (blockedFrom u lckdat (f :: fs), pos + 1)
        else blockedAt u lckdat (pos + 1) fs
      else if lckdat.l_start ≤ f.set.l_end && conflict f.set lckdat then (some f, pos + 1)
      else blockedAt u lckdat (pos + 1) fs
    else (blockedFrom u lckdat (f :: fs), pos)

def blocked (u : Owner) (lst : List Filock) (lckdat : Flock) : Option Filock × ℕ :=
  blockedAt u lckdat 0 lst

end Svr3.Rlock
