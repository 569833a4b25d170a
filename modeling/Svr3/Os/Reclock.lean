import Svr3.Os.Flock
import Mathlib.Algebra.Group.Nat.Defs

/-!
# Waiting for record locks

`reclock` tries a request on the lock list of an inode and, if the caller may wait, sleeps on the
lock that is in the way and tries again. While it sleeps, `sleeplcks` has an entry for it, which
records the owner of that lock; `deadflck` follows these entries before anyone goes to sleep. The
kernel is not preempted: between two sleeps a process runs alone.
-/

namespace Svr3.Rlock

/-- An `off_t`, of 32 bits. -/
def offT (z : ℤ) : ℤ := z.bmod (2 ^ 32)

/-- The bits of `cmd` -/
structure Cmd where
  SETFLCK : Bool
  SLPFLCK : Bool

/-- The bits of `flag` -/
structure Flag where
  FREAD : Bool
  FWRITE : Bool

/-- `convoff(ip, lckdat, whence, offset)`, with `ip->i_size`. -/
def convoff (i_size : ℤ) (lckdat : Flock) (whence : Int16) (offset : ℤ) : Option Errno × Flock :=
  let fromStart (start : ℤ) : Option Errno × Flock :=
    let lckdat := { lckdat with l_start := start }
    if start < 0 then (some .EINVAL, lckdat)
    else if whence = 1 then
      (none, { lckdat with l_start := offT (start - offset), l_whence := whence })
    else if whence = 2 then
      (none, { lckdat with l_start := offT (start - i_size), l_whence := whence })
    else if whence = 0 then (none, { lckdat with l_whence := whence })
    else (some .EINVAL, lckdat)
  if lckdat.l_whence = 1 then fromStart (offT (lckdat.l_start + offset))
  else if lckdat.l_whence = 2 then fromStart (offT (lckdat.l_start + i_size))
  else if lckdat.l_whence = 0 then fromStart lckdat.l_start
  else (some .EINVAL, lckdat)

/-- `server()` -/
def Owner.server (u : Owner) : Bool := u.p_sysid ≠ 0

/-- The owner of a lock, or of an entry of `sleeplcks`. -/
def Filock.owner (f : Filock) : Owner := ⟨f.set.l_pid, f.set.l_sysid⟩

/-- The owner in `stat.blk` -/
def Filock.blk (f : Filock) : Owner := ⟨f.stat.pid, f.stat.sysid⟩

/-- The arguments of a call of `reclock`, after the checks at its start. -/
structure Call where
  ip : ℕ
  lckdat : Flock
  cmd : Cmd
  whence : Int16
  offset : ℤ

/-- Where a process is with respect to `reclock`: outside, with what its last call returned and
left in `lckdat`; asleep on the lock `found`, with its entry `sf` in `sleeplcks`; or on its way from
there to the next turn of the loop. -/
inductive Proc
  | user (last : Option (Option Errno × Flock))
  | asleep (c : Call) (sf : ℕ) (found : Filock)
  | again (c : Call)

structure Sys where
  i_filocks : ℕ → List Filock
  i_size : ℕ → ℤ
  sleeplcks : List Filock
  k : Krnl
  proc : Owner → Proc

/-- The do-while loop of `deadflck`, for so many turns at most. -/
def deadfrom (sleeplcks : List Filock) (u : Owner) : ℕ → Owner → Option Bool
  | 0, _ => none
  | n + 1, blck =>
    if blck = u then some true
    else
      match sleeplcks.find? fun sf => sf.owner = blck with
      | some sf => deadfrom sleeplcks u n sf.blk
      | none => some false

/-- `deadflck(flp)` -/
def deadflck (n : ℕ) (sleeplcks : List Filock) (u : Owner) (flp : Filock) : Option Bool :=
  deadfrom sleeplcks u n flp.owner

/-- `found->stat.wakeflg++` -/
def wakeflgIncr (found : ℕ) (lst : List Filock) : List Filock :=
  lst.map fun f => if f.addr = found then { f with stat := f.stat.incr } else f

/-- The entry at `sf` with `blk` in its `stat.blk`. -/
def setblk (sf : ℕ) (blk : Stat) (lst : List Filock) : List Filock :=
  lst.map fun f => if f.addr = sf then { f with stat := blk } else f

/-- The list without the structure at `sf`. -/
def unlink (sf : ℕ) (lst : List Filock) : List Filock := lst.filter fun f => f.addr ≠ sf

/-- The checks at the start of `reclock`, and the request with `l_end`; or what it returns, and
`lckdat`. -/
def checks (i_size : ℤ) (lckdat : Flock) (cmd : Cmd) (flag : Flag) (offset : ℤ) :
    Except (Errno × Flock) Flock :=
  if cmd.SETFLCK && (lckdat.l_type = .F_RDLCK && !flag.FREAD ||
      lckdat.l_type = .F_WRLCK && !flag.FWRITE) then .error (.EBADF, lckdat)
  else
    match convoff i_size lckdat 0 offset with
    | (some e, lckdat) => .error (e, lckdat)
    | (none, lckdat) =>
      if lckdat.l_end < 0 then .error (.EINVAL, lckdat)
      else
        let lckdat :=
          if lckdat.l_end = 0 then { lckdat with l_end := MAXEND }
          else { lckdat with l_end := offT (lckdat.l_end + (lckdat.l_start - 1)) }
        if lckdat.l_end < lckdat.l_start then .error (.EINVAL, lckdat) else .ok lckdat

/-- The end of `reclock`: `l_len` and `l_start` as the caller gave them. -/
def restore (i_size : ℤ) (c : Call) (lckdat : Flock) : Flock :=
  let lckdat :=
    if lckdat.l_end = MAXEND then { lckdat with l_end := 0 }
    else { lckdat with l_end := offT (lckdat.l_end - (lckdat.l_start - 1)) }
  (convoff i_size lckdat c.whence c.offset).2

/-- How a turn of the loop of `reclock` ends: the loop ends with `retval`, or the process sleeps
on `found`. -/
inductive Pass
  | fin (retval : Option Errno) (lckdat : Flock)
  | sleep (sf : ℕ) (found : Filock)

/-- The locks of the inode are `lst`. -/
def Sys.setLocks (s : Sys) (ip : ℕ) (lst : List Filock) (k : Krnl) : Sys :=
  { s with i_filocks := Function.update s.i_filocks ip lst, k := k }

/-- The request waits for `found`: deadlock detection, and the entry in `sleeplcks`. -/
def wait (n : ℕ) (u : Owner) (c : Call) (found : Filock) (s : Sys) : Option (Sys × Pass) :=
  match deadflck n s.sleeplcks u found with
  | none => none
  | some true => some (s, .fin (some .EDEADLK) c.lckdat)
  | some false =>
    match insflck u s.sleeplcks c.lckdat 0 s.k with
    | (none, _, k) => some ({ s with k := k }, .fin (some .ENOLCK) c.lckdat)
    | (some sf, lst, k) =>
      if u.server then
        some ({ s with sleeplcks := unlink sf.addr lst, k := delflck sf k },
          .fin (some .EBUSY) c.lckdat)
      else
        let t := s.setLocks c.ip (wakeflgIncr found.addr (s.i_filocks c.ip)) k
        some ({ t with
          sleeplcks := setblk sf.addr ⟨found.set.l_pid, found.set.l_sysid⟩ lst },
          .sleep sf.addr found)

/-- The result of `flckadj` on the locks of the inode. -/
def adjusted (u : Owner) (c : Call) (insrtp : ℕ) (s : Sys) : Sys × Pass :=
  let r := flckadj u (s.i_filocks c.ip) insrtp c.lckdat s.k
  (s.setLocks c.ip r.lst r.k, .fin r.ret r.ld)

/-- A request for a lock. -/
def request (n : ℕ) (u : Owner) (c : Call) (s : Sys) : Option (Sys × Pass) :=
  match blocked u (s.i_filocks c.ip) c.lckdat with
  | (none, insrt) =>
    if c.cmd.SETFLCK then some (adjusted u c insrt s)
    else some (s, .fin none { c.lckdat with l_type := .F_UNLCK })
  | (some found, _) =>
    if c.cmd.SLPFLCK then wait n u c found s
    else if c.cmd.SETFLCK then some (s, .fin (some .EAGAIN) c.lckdat)
    else some (s, .fin none found.set)

/-- A turn of the loop of `reclock`, with at most `n` turns of the loop of `deadflck`. -/
def turnOfLoop (n : ℕ) (u : Owner) (c : Call) (s : Sys) : Option (Sys × Pass) :=
  match c.lckdat.l_type with
  | .F_RDLCK => request n u c s
  | .F_WRLCK => request n u c s
  | .F_UNLCK =>
    if c.cmd.SETFLCK then some (adjusted u c (min 1 (s.i_filocks c.ip).length) s)
    else some (s, .fin none c.lckdat)
  | .other _ => some (s, .fin (some .EINVAL) c.lckdat)

def Sys.setProc (s : Sys) (u : Owner) (p : Proc) : Sys :=
  { s with proc := Function.update s.proc u p }

/-- The process goes to sleep, or `reclock` returns. -/
def leave (u : Owner) (c : Call) : Sys × Pass → Sys
  | (s, .fin retval lckdat) =>
    s.setProc u (.user (some (retval, restore (s.i_size c.ip) c lckdat)))
  | (s, .sleep sf found) => s.setProc u (.asleep c sf found)

/-- `USE_PID` and `IGN_PID` -/
inductive CleanFlag
  | USE_PID
  | IGN_PID
deriving DecidableEq

/-- `cleanlocks(ip, flag)` -/
def cleanlocks (u : Owner) (flag : CleanFlag) : List Filock → Krnl → List Filock × Krnl
  | [], k => ([], k)
  | flp :: fs, k =>
    if (flp.set.l_pid = u.p_epid || flag = .IGN_PID) && flp.set.l_sysid = u.p_sysid then
      cleanlocks u flag fs (delflck flp k)
    else
      let r := cleanlocks u flag fs k
      (flp :: r.1, r.2)

/-- What is done between two sleeps. With `wakes` the sleep on a lock is over, by a signal or not;
with `again` the process goes on from there, after it may have waited for the inode (`INOFLCK`). -/
inductive Act
  | reclock (u : Owner) (ip : ℕ) (lckdat : Flock) (cmd : Cmd) (flag : Flag) (offset : ℤ)
  | wakes (u : Owner) (signal : Bool)
  | again (u : Owner)
  | cleanlocks (u : Owner) (ip : ℕ) (flag : CleanFlag)
  | resize (ip : ℕ) (size : ℤ)

/-- The state after `a`, if its process is where it can do this. -/
def exec (n : ℕ) (s : Sys) : Act → Option Sys
  | .reclock u ip lckdat cmd flag offset =>
    match s.proc u with
    | .user _ =>
      match checks (s.i_size ip) lckdat cmd flag offset with
      | .error (e, ld) => some (s.setProc u (.user (some (some e, ld))))
      | .ok ld =>
        let c : Call := ⟨ip, ld, cmd, lckdat.l_whence, offset⟩
        (turnOfLoop n u c s).map (leave u c)
    | _ => none
  | .wakes u signal =>
    match s.proc u with
    | .asleep c sf _ =>
      -- the entry at `sf`, its `stat.blk` cleared
      let t := { s with
        sleeplcks := unlink sf s.sleeplcks
        k := delflck (newlck u sf c.lckdat) s.k }
      if signal then some (leave u c (t, .fin (some .EINTR) c.lckdat))
      else some (t.setProc u (.again c))
    | _ => none
  | .again u =>
    match s.proc u with
    | .again c => (turnOfLoop n u c s).map (leave u c)
    | _ => none
  | .cleanlocks u ip flag =>
    let r := cleanlocks u flag (s.i_filocks ip) s.k
    some (s.setLocks ip r.1 r.2)
  | .resize ip size => some { s with i_size := Function.update s.i_size ip size }

/-- A step of the system, in which a call of `deadflck` takes as long as it takes. -/
def Step (s : Sys) (a : Act) (t : Sys) : Prop := ∃ n, exec n s a = some t

/-- After `flckinit`. -/
structure Sys.Init (s : Sys) : Prop where
  locks : ∀ ip, s.i_filocks ip = []
  free : s.k.frlock.Nodup
  sleeplcks : s.sleeplcks = []
  user : ∀ u, ∃ last, s.proc u = .user last

end Svr3.Rlock
