import Svr3.Fs.S5Macros
import Svr3.Lib.Circular
import Svr3.Lib.Run
import Mathlib.Algebra.Group.Nat.Defs

/-!
# Named pipes

The branches for `IFIFO` of `s5readi` and `s5writei` in `fs/s5/s5rdwri.c`, with what `rdwr` returns. A
process holds the inode from one sleep to the next, and takes one turn of a loop in a step.
-/

namespace Svr3.S5.Fifo

def NFADDR : ℕ := 10

/-- `BSIZE` for `FsTYPE == 3` -/
def BSIZE : ℕ := 512

def PIPSIZ : ℕ := NFADDR * BSIZE

inductive Errno
  /-- `EIO` -/
  | ioErr
  | EFAULT
  | ENOSPC
  | EPIPE
deriving DecidableEq

/-- Where a process is. A sleeper is awake once its channel was woken up. -/
inductive Pc
  | idle
  | floop
  | writing (usave n : ℕ)
  | written (usave : ℕ)
  | fwcnt (awake : Bool)
  | empty
  | reading
  | taken
  | frcnt (awake : Bool)
deriving DecidableEq

/-- A process with its user area. The bytes of a write are at `u_base` of the memory of `call`. -/
structure Proc where
  pc : Pc
  call : ℕ
  ndelay : Bool
  u_count : ℕ
  u_base : ℕ
  u_offset : ℕ
  u_error : Option Errno

/-- What a caller asked to write -/
structure Write where
  core : ℕ → UInt8
  count : ℕ

/-- The inode with the bytes of its blocks, the processes, and the history: the writes so far and what
they returned, the bytes that were stored for each, and the bytes that readers got. -/
structure Sys where
  i_size : ℕ
  frptr : ℕ
  fwptr : ℕ
  frcnt : ℕ
  fwcnt : ℕ
  ifir : Bool
  ifiw : Bool
  data : ℕ → UInt8
  lock : Option ℕ
  procs : ℕ → Proc
  calls : ℕ
  writes : ℕ → Write
  result : ℕ → Option ℕ
  accepted : List (ℕ × UInt8)
  delivered : List UInt8

/-- What happens to one block: `s5alloc`, `bread` and the copy succeed or fail; what is in a buffer that
was not read. -/
structure Env where
  alloc : Bool
  io : Bool
  copy : Bool
  junk : ℕ → UInt8

/-- The bytes of `f` in the `k` places from `a` on -/
def overlay (data : ℕ → UInt8) (a k : ℕ) (f : ℕ → UInt8) : ℕ → UInt8 :=
  fun x => if a ≤ x ∧ x < a + k then f x else data x

/-- `wakeup(&s5i_frcnt)` and `wakeup(&s5i_fwcnt)` -/
def Proc.wakeFrcnt (q : Proc) : Proc := if q.pc = .frcnt false then { q with pc := .frcnt true } else q

def Proc.wakeFwcnt (q : Proc) : Proc := if q.pc = .fwcnt false then { q with pc := .fwcnt true } else q

namespace Sys

/-- The process `p` with the inode as it is -/
def put (p : ℕ) (q : Proc) (s : Sys) : Sys := { s with procs := Function.update s.procs p q }

/-- The process `p` lets go of the inode. -/
def leave (p : ℕ) (q : Proc) (s : Sys) : Sys := { s.put p q with lock := none }

/-- `rdwr` returns the bytes that were written, unless there is an error. -/
def finish (p : ℕ) (q : Proc) (s : Sys) : Sys :=
  { s.leave p { q with pc := .idle } with
    result := if q.u_error = none then
      Function.update s.result q.call (some ((s.writes q.call).count - q.u_count)) else s.result }

end Sys

/-- `floop`, up to a sleep or to the first block -/
def floop (p : ℕ) (q : Proc) (s : Sys) : Sys :=
  let broken := s.finish p { q with u_error := some .EPIPE }
  let start (q : Proc) (usave : ℕ) := s.put p { q with pc := .writing usave 0, u_offset := s.fwptr }
  if (q.u_count + s.i_size) % 2 ^ 32 > PIPSIZ then
    if s.frcnt = 0 then broken
    else if q.u_count > PIPSIZ ∧ s.i_size < PIPSIZ then
      start { q with u_count := PIPSIZ - s.i_size } (q.u_count - (PIPSIZ - s.i_size))
    else if q.ndelay then s.finish p q
    else { s.leave p { q with pc := .fwcnt false } with ifiw := true }
  else if s.frcnt = 0 then broken
  else start q 0

/-- `u_pbsize` for a write -/
def pbsize (bsize : ℕ) (q : Proc) : ℕ := min q.u_count (bsize - q.u_offset % bsize)

/-- A buffer that is got without a read -/
def unread (bsize : ℕ) (q : Proc) (s : Sys) : Bool :=
  pbsize bsize q = bsize ∨ q.u_offset % bsize = 0 ∧ s.i_size < PIPSIZ - bsize

/-- A turn of `while (u.u_error == 0 && u.u_count != 0)` -/
def writeBlock (bsize : ℕ) (e : Env) (p usave n : ℕ) (q : Proc) (s : Sys) : Sys :=
  if q.u_error ≠ none ∨ q.u_count = 0 then s.put p { q with pc := .written usave }
  else if e.alloc = false then
    s.put p { q with pc := .written usave, u_error := if n ≠ 0 then none else some .ENOSPC }
  else
    let on := q.u_offset % bsize
    let n := pbsize bsize q
    let data := if unread bsize q s then overlay s.data (q.u_offset - on) bsize e.junk else s.data
    let around (off : ℕ) := if off = PIPSIZ then 0 else off
    let moved := { q with
      pc := .writing usave n
      u_count := q.u_count - n
      u_base := q.u_base + n
      u_offset := around (q.u_offset + n) }
    if e.copy = false then
      { s.put p { q with pc := .writing usave n, u_offset := around q.u_offset, u_error := some .EFAULT }
        with data := overlay data q.u_offset n e.junk, i_size := s.i_size + n }
    else if unread bsize q s = false ∧ e.io = false then
      { s.put p { moved with u_error := some .ioErr } with i_size := s.i_size + n }
    else
      { s.put p moved with
        data := overlay data q.u_offset n
          fun x => (s.writes q.call).core (q.u_base + (x - q.u_offset))
        i_size := s.i_size + n
        accepted := s.accepted ++ (List.range n).map fun i =>
          (q.call, (s.writes q.call).core (q.u_base + i)) }

/-- What follows the loop over the blocks of a write -/
def endWrite (p usave : ℕ) (q : Proc) (s : Sys) : Sys :=
  let s := { s with fwptr := q.u_offset }
  let s := if s.ifir then { s with ifir := false, procs := fun r => (s.procs r).wakeFrcnt } else s
  if q.u_error = none ∧ usave ≠ 0 then s.put p { q with pc := .floop, u_count := usave }
  else s.finish p q

/-- `while (ip->i_size == 0)` -/
def whileEmpty (p : ℕ) (q : Proc) (s : Sys) : Sys :=
  if s.i_size = 0 then
    if s.fwcnt = 0 ∨ q.ndelay then s.leave p { q with pc := .idle }
    else { s.leave p { q with pc := .frcnt false } with ifir := true }
  else s.put p { q with pc := .reading, u_offset := s.frptr }

/-- A turn of the loop over the blocks of a read -/
def readBlock (bsize : ℕ) (e : Env) (p : ℕ) (q : Proc) (s : Sys) : Sys :=
  let on := q.u_offset % bsize
  let n := min (pbsize bsize q) s.i_size
  let around (off : ℕ) := if PIPSIZ ≤ off then 0 else off
  if n = 0 then s.put p { q with pc := .taken }
  else if e.io = false then s.put p { q with pc := .taken, u_offset := around q.u_offset, u_error := some .ioErr }
  else
    let i_size := s.i_size - n
    -- the block need not be written any more
    let data := if on + n = bsize ∧ i_size < PIPSIZ - bsize then
      overlay s.data (q.u_offset - on) bsize e.junk else s.data
    if e.copy = false then
      { s.put p { q with pc := .taken, u_offset := around q.u_offset, u_error := some .EFAULT } with
        data := data, i_size := i_size }
    else
      { s.put p { q with
          pc := if q.u_count - n ≠ 0 then .reading else .taken
          u_count := q.u_count - n
          u_base := q.u_base + n
          u_offset := around (q.u_offset + n) } with
        data := data
        i_size := i_size
        delivered := s.delivered ++ (List.range n).map fun i => s.data (q.u_offset + i) }

/-- What follows the loop over the blocks of a read -/
def endRead (p : ℕ) (q : Proc) (s : Sys) : Sys :=
  let s := if s.i_size ≠ 0 then { s with frptr := q.u_offset } else { s with frptr := 0, fwptr := 0 }
  let s := if s.ifiw then { s with ifiw := false, procs := fun r => (s.procs r).wakeFwcnt } else s
  s.leave p { q with pc := .idle }

/-- The next step of a process that holds the inode -/
def go (bsize : ℕ) (e : Env) (p : ℕ) (s : Sys) : Option Sys :=
  let q := s.procs p
  match q.pc with
  | .floop => some (floop p q s)
  | .writing usave n => some (writeBlock bsize e p usave n q s)
  | .written usave => some (endWrite p usave q s)
  | .empty => some (whileEmpty p q s)
  | .reading => some (readBlock bsize e p q s)
  | .taken => some (endRead p q s)
  | .idle | .fwcnt _ | .frcnt _ => none

inductive Act
  | write (p : ℕ) (w : Write) (ndelay : Bool)
  | read (p count : ℕ) (ndelay : Bool)
  | go (p : ℕ) (e : Env)
  | wake (p : ℕ)
  | signal (p : ℕ)
  | counts (frcnt fwcnt : ℕ)

/-- The steps. Other opens and closes leave a reader or a writer, and wake up both channels. -/
def next (bsize : ℕ) (s : Sys) : Act → Option Sys
  | .write p w ndelay =>
    if (s.procs p).pc = .idle ∧ s.lock = none ∧ w.count < 2 ^ 32 then
      some { s.put p ⟨.floop, s.calls, ndelay, w.count, 0, 0, none⟩ with
        lock := some p
        calls := s.calls + 1
        writes := Function.update s.writes s.calls w }
    else none
  | .read p count ndelay =>
    if (s.procs p).pc = .idle ∧ s.lock = none ∧ count < 2 ^ 32 then
      if count = 0 then some s
      else some { s.put p ⟨.empty, 0, ndelay, count, 0, 0, none⟩ with lock := some p }
    else none
  | .go p e => if s.lock = some p then go bsize e p s else none
  | .wake p =>
    if s.lock = none then
      match (s.procs p).pc with
      | .fwcnt true => some { s.put p { s.procs p with pc := .floop } with lock := some p }
      | .frcnt true => some { s.put p { s.procs p with pc := .empty } with lock := some p }
      | _ => none
    else none
  | .signal p =>
    match (s.procs p).pc with
    | .fwcnt _ => some (s.put p { s.procs p with pc := .idle })
    | .frcnt _ => some (s.put p { s.procs p with pc := .idle })
    | _ => none
  | .counts frcnt fwcnt =>
    if frcnt ≠ 0 ∨ fwcnt ≠ 0 then
      some { s with frcnt := frcnt, fwcnt := fwcnt, procs := fun r => (s.procs r).wakeFrcnt.wakeFwcnt }
    else none

/-- A pipe that was just opened -/
def Sys.init (frcnt fwcnt : ℕ) (data : ℕ → UInt8) : Sys :=
  ⟨0, 0, 0, frcnt, fwcnt, false, false, data, none, fun _ => ⟨.idle, 0, false, 0, 0, 0, none⟩, 0,
    fun _ => ⟨fun _ => 0, 0⟩, fun _ => none, [], []⟩

end Svr3.S5.Fifo
