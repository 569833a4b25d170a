import Svr3.Lib.Chains
import Mathlib.Data.Fintype.Basic

/-!
# The buffer cache of `os/bio.c`

`getblk` looks for a block on its hash chain, and gives the first available buffer to it when it
finds none. A buffer that waits for a delayed write is written first. Processes sleep on a buffer or
on `bfreelist`, and the driver completes in `iodone` what a strategy routine was given.
-/

namespace Svr3.Bio

open Function

/-- A buffer: the bits of `b_flags`, its device and its block. -/
structure Buf where
  b_read : Bool
  b_done : Bool
  b_error : Bool
  b_busy : Bool
  b_wanted : Bool
  b_age : Bool
  b_async : Bool
  b_delwri : Bool
  b_stale : Bool
  b_dev : Int16
  b_blkno : Int32

/-- The device of buffers that are assigned to none. -/
def nodev : Int16 := -1

/-- `MAJOR[]` -/
def majors : List ℕ := List.range 31

def bdevcnt : ℕ := 8

/-- `bmajor(x)`, where `MAJOR[]` has an entry. -/
def bmajor (x : Int16) : Option ℕ := majors[((x.toInt32 >>> 8).toUInt32 &&& 0x7F).toNat]?

/-- `LTOPBLK(blkno, bsize)` -/
def ltopblk (blkno bsize : Int32) : Int32 := blkno * (bsize >>> 9)

/-- `v.v_hmask` -/
def hmask : Int32 := 63

/-- `bhash(d,b)`, as an index of `hbuf[]` -/
def bhash (d : Int16) (b : Int32) : Int32 := (d.toInt32 + b) &&& hmask

/-- Where processes sleep. -/
inductive Chan (n : ℕ)
  | buf (bp : Fin n)
  | bfreelist
deriving DecidableEq

/-- The buffers, the hash chains with that of `bfreelist` as `none`, the available list from the
front with its `b_bcount`, and its bit `B_WANTED`. -/
structure Sys (n : ℕ) where
  buf : Fin n → Buf
  hbuf : Chains (Option Int32) (Fin n)
  av : List (Fin n)
  b_bcount : ℤ
  b_wanted : Bool

variable {n : ℕ}

def Sys.set (s : Sys n) (bp : Fin n) (b : Buf) : Sys n :=
  { s with buf := update s.buf bp b }

def notavail (bp : Fin n) (s : Sys n) : Sys n :=
  { s.set bp { s.buf bp with b_busy := true } with
    av := s.av.erase bp
    b_bcount := s.b_bcount - 1 }

/-- `bp->b_blkno==blkno && bp->b_dev==dev && (bp->b_flags&B_STALE)==0` -/
def Sys.is (s : Sys n) (dev : Int16) (blkno : Int32) (bp : Fin n) : Bool :=
  (s.buf bp).b_blkno = blkno && (s.buf bp).b_dev = dev && !(s.buf bp).b_stale

/-- `bwrite` clears these flags. -/
def Buf.write (b : Buf) : Buf :=
  { b with b_read := false, b_done := false, b_error := false, b_delwri := false }

/-- The flags are those given, and the buffer goes to the front of chain `dp`. -/
def assign (bp : Fin n) (dp : Option Int32) (age : Bool) (dev : Int16) (blkno : Int32)
    (s : Sys n) : Sys n :=
  { s.set bp ⟨false, false, false, true, false, age, false, false, false, dev, blkno⟩ with
    hbuf := (s.hbuf.remove bp).insert bp dp }

/-- Where a turn through the loop of `getblk` or `geteblk` ends: asleep, back at the label after a
write has been started, or with a buffer. -/
inductive Turn (n : ℕ)
  | sleep (ch : Chan n)
  | wrote (bp : Fin n)
  | got (bp : Fin n)

/-- The first available buffer is taken, or written when it has a delayed write. -/
def take (s : Sys n) (fresh : Fin n → Sys n → Sys n) : Turn n × Sys n :=
  match s.av with
  | [] => (.sleep .bfreelist, { s with b_wanted := true })
  | bp :: _ =>
    let s := notavail bp s
    if (s.buf bp).b_delwri then (.wrote bp, s.set bp { (s.buf bp).write with b_async := true })
    else (.got bp, fresh bp s)

/-- `getblk` from the label `loop` on. -/
def getblk (dev : Int16) (blkno : Int32) (s : Sys n) : Turn n × Sys n :=
  match (s.hbuf (some (bhash dev blkno))).find? (s.is dev blkno) with
  | some bp =>
    if (s.buf bp).b_busy then (.sleep (.buf bp), s.set bp { s.buf bp with b_wanted := true })
    else (.got bp, notavail bp s)
  | none => take s fun bp => assign bp (some (bhash dev blkno)) false dev blkno

/-- `geteblk` from the label `loop` on. -/
def geteblk (s : Sys n) : Turn n × Sys n :=
  take s fun bp s => assign bp none true nodev (s.buf bp).b_blkno s

/-- Where `brelse(bp)` calls `wakeup`. -/
def brelseWakes (bp : Fin n) (s : Sys n) : Option (Chan n) :=
  if (s.buf bp).b_wanted then some (.buf bp) else if s.b_wanted then some .bfreelist else none

/-- `brelse(bp)`, apart from the calls of `wakeup` -/
def brelse (bp : Fin n) (s : Sys n) : Sys n :=
  let b := s.buf bp
  let s := if b.b_wanted then s else { s with b_wanted := false }
  let b :=
    if b.b_error then { b with b_stale := true, b_age := true, b_error := false, b_delwri := false }
    else b
  { s.set bp { b with b_wanted := false, b_busy := false, b_async := false, b_age := false } with
    av := if b.b_age then bp :: s.av else s.av ++ [bp]
    b_bcount := s.b_bcount + 1 }

def binval (dev : Int16) (s : Sys n) : Sys n :=
  { s with buf := fun bp =>
      let b := s.buf bp
      if b.b_dev = dev && (List.range 64).any fun i => bp ∈ s.hbuf (some (Int32.ofNat i)) then
        { b with b_stale := true, b_age := true }
      else b }

/-! ## Processes -/

/-- What a process is in: the loop of `getblk`, which `bread` may have called, or of `geteblk`, or
`iowait`, which `bwrite` or `bread` has called. -/
inductive Call (n : ℕ)
  | getblk (dev : Int16) (blkno : Int32) (bread : Bool)
  | geteblk
  | iowait (bp : Fin n) (bwrite : Bool)

inductive Pc (n : ℕ)
  | out
  | run (c : Call n)
  | asleep (ch : Chan n) (c : Call n)

/-- Who has a buffer: nobody, code that got it from `getblk` or `geteblk`, a process that waits for
it in `iowait`, or the driver alone. -/
inductive Use
  | free
  | held
  | waited (p : ℕ)
  | async

structure State (n : ℕ) where
  sys : Sys n
  use : Fin n → Use
  pc : ℕ → Pc n

/-- Whoever sleeps on `ch` goes on. -/
def Pc.wake (ch : Option (Chan n)) : Pc n → Pc n
  | .asleep ch' c => if ch = some ch' then .run c else .asleep ch' c
  | pc => pc

def State.brelse (s : State n) (bp : Fin n) : State n where
  sys := Bio.brelse bp s.sys
  use := update s.use bp .free
  pc q := (s.pc q).wake (brelseWakes bp s.sys)

/-- Process `p` has come to the end of a turn; `bread` is whether it is to read. -/
def State.turn (s : State n) (p : ℕ) (c : Call n) (bread : Bool) : Turn n × Sys n → State n
  | (.sleep ch, sys) => ⟨sys, s.use, update s.pc p (.asleep ch c)⟩
  | (.wrote bp, sys) => ⟨sys, update s.use bp .async, update s.pc p (.run c)⟩
  | (.got bp, sys) =>
    if bread && !(sys.buf bp).b_done then
      ⟨sys.set bp { sys.buf bp with b_read := true }, update s.use bp (.waited p),
        update s.pc p (.run (.iowait bp false))⟩
    else ⟨sys, update s.use bp .held, update s.pc p .out⟩

/-- `bwrite(bp)` by process `p` -/
def State.bwrite (s : State n) (p : ℕ) (bp : Fin n) : State n :=
  let b := s.sys.buf bp
  if b.b_async then ⟨s.sys.set bp b.write, update s.use bp .async, s.pc⟩
  else
    ⟨s.sys.set bp b.write, update s.use bp (.waited p),
      update s.pc p (.run (.iowait bp true))⟩

/-- `run` is what a process does next inside of a call. The driver completes in `iodone` a transfer
that is not done, with or without an error. -/
inductive Act (n : ℕ)
  | getblk (p : ℕ) (dev : Int16) (blkno bsize : Int32) (bread : Bool)
  | geteblk (p : ℕ)
  | run (p : ℕ)
  | bwrite (p : ℕ) (bp : Fin n)
  | bdwrite (p : ℕ) (bp : Fin n)
  | bawrite (p : ℕ) (bp : Fin n)
  | brelse (p : ℕ) (bp : Fin n)
  | iodone (bp : Fin n) (err : Bool)
  | binval (dev : Int16)

/-- What a step leads to; a panic leads nowhere. -/
def next (s : State n) : Act n → Option (State n)
  | .getblk p dev blkno bsize bread =>
    match s.pc p, bmajor dev with
    | .out, some major =>
      if major ≥ bdevcnt then none
      else
        some { s with
          pc := update s.pc p (.run (.getblk dev (ltopblk blkno bsize) bread)) }
    | _, _ => none
  | .geteblk p =>
    match s.pc p with
    | .out => some { s with pc := update s.pc p (.run .geteblk) }
    | _ => none
  | .run p =>
    match s.pc p with
    | .run (.getblk dev blkno bread) =>
      some (s.turn p (.getblk dev blkno bread) bread (getblk dev blkno s.sys))
    | .run .geteblk => some (s.turn p .geteblk false (geteblk s.sys))
    | .run (.iowait bp bwrite) =>
      if (s.sys.buf bp).b_done then
        let s := { s with pc := update s.pc p .out }
        some (if bwrite then s.brelse bp else { s with use := update s.use bp .held })
      else some { s with pc := update s.pc p (.asleep (.buf bp) (.iowait bp bwrite)) }
    | _ => none
  | .bwrite p bp =>
    match s.pc p, s.use bp with
    | .out, .held => some (s.bwrite p bp)
    | _, _ => none
  | .bdwrite p bp =>
    match s.pc p, s.use bp with
    | .out, .held =>
      let b := { s.sys.buf bp with b_delwri := true, b_done := true }
      some ({ s with sys := s.sys.set bp b }.brelse bp)
    | _, _ => none
  | .bawrite p bp =>
    match s.pc p, s.use bp with
    | .out, .held =>
      let b := s.sys.buf bp
      let b := if s.sys.b_bcount > 4 then { b with b_async := true } else b
      some ({ s with sys := s.sys.set bp b }.bwrite p bp)
    | _, _ => none
  | .brelse p bp =>
    match s.pc p, s.use bp with
    | .out, .held => some (s.brelse bp)
    | _, _ => none
  | .iodone bp err =>
    let b := s.sys.buf bp
    let b := { b with b_done := true, b_error := b.b_error || err }
    match s.use bp, (s.sys.buf bp).b_done with
    | .waited _, false | .async, _ =>
      if b.b_async then some ({ s with sys := s.sys.set bp b }.brelse bp)
      else
        some { s with
          sys := s.sys.set bp { b with b_wanted := false }
          pc := fun q => (s.pc q).wake (some (.buf bp)) }
    | _, _ => none
  | .binval dev => some { s with sys := binval dev s.sys }

def Bstep (s : State n) (a : Act n) (t : State n) : Prop := next s a = some t

/-- After `binit`: all buffers are available and on the chain of `bfreelist`. -/
def binit (n : ℕ) : State n where
  sys := {
    buf := fun _ =>
      ⟨false, false, false, false, false, false, false, false, false, nodev, 0⟩
    hbuf := fun dp => if dp = none then (List.finRange n).reverse else []
    av := List.finRange n
    b_bcount := n
    b_wanted := false }
  use := fun _ => .free
  pc := fun _ => .out

end Svr3.Bio
