import Mathlib.Logic.Function.Iterate
import Mathlib.Data.Int.Notation

/-!
# Message blocks and data blocks of `io/stream.c`

A message is a chain of message blocks along `b_cont`; each has a data block, which it may share
with others. Pointers are addresses, `none` the null pointer. A routine that follows a null pointer,
or whose loops take more than `n` turns, gives `none`. The statistics in `strst` are left out.
-/

namespace Svr3.Str

open Function

/-- `mblk_t` -/
structure Mblk where
  b_next : Option ℕ
  b_prev : Option ℕ
  b_cont : Option ℕ
  b_rptr : ℕ
  b_wptr : ℕ
  b_datap : Option ℕ

/-- `dblk_t` -/
structure Dblk where
  db_freep : Option ℕ
  db_base : ℕ
  db_lim : ℕ
  db_ref : UInt8
  db_type : UInt8
  db_class : ℕ

/-- A request of `bufcall` that waits. -/
structure Strevent where
  se_func : ℕ
  se_arg : ℕ

structure Dbalcst where
  dba_cnt : ℤ
  dba_lo : ℤ
  dba_med : ℤ
  dba_lop : List Strevent
  dba_medp : List Strevent
  dba_hip : List Strevent

def NCLASS : ℕ := 9

def rbsize : List ℕ := [4, 16, 64, 128, 256, 512, 1024, 2048, 4096]

def M_DATA : UInt8 := 0

structure Heap where
  mblk : ℕ → Mblk
  dblk : ℕ → Dblk
  mem : ℕ → UInt8
  mbfreelist : Option ℕ
  dbfreelist : ℕ → Option ℕ
  dballoc : ℕ → Dbalcst
  nmblock : ℤ
  strbcflag : Bool
  qrunflag : Bool

namespace Heap

variable (h : Heap)

def setM (b : ℕ) (m : Mblk) : Heap := { h with mblk := update h.mblk b m }

def setD (d : ℕ) (m : Dblk) : Heap := { h with dblk := update h.dblk d m }

def b_next (b : ℕ) : Option ℕ := (h.mblk b).b_next

def b_prev (b : ℕ) : Option ℕ := (h.mblk b).b_prev

def b_cont (b : ℕ) : Option ℕ := (h.mblk b).b_cont

def b_datap (b : ℕ) : Option ℕ := (h.mblk b).b_datap

def db_freep (d : ℕ) : Option ℕ := (h.dblk d).db_freep

/-- `mp->b_cont = p` -/
def setCont (mp : ℕ) (p : Option ℕ) : Heap := h.setM mp { h.mblk mp with b_cont := p }

/-- `bp->b_next = mbfreelist; mbfreelist = bp;` -/
def pushM (bp : ℕ) : Heap :=
  { h.setM bp { h.mblk bp with b_next := h.mbfreelist } with mbfreelist := some bp }

/-- `mbfreelist = bp->b_next` -/
def popM (bp : ℕ) : Heap := { h with mbfreelist := h.b_next bp }

end Heap

/-! ## Allocation -/

inductive Pri
  | BPRI_LO
  | BPRI_MED
  | BPRI_HI
  deriving DecidableEq

/-- `bcmax(class, pri)` -/
def bcmax (h : Heap) (c : ℕ) : Pri → ℤ
  | .BPRI_LO => (h.dballoc c).dba_lo
  | .BPRI_HI => h.nmblock
  | .BPRI_MED => (h.dballoc c).dba_med

/-- `getclass(size)` -/
def getclass (size : ℤ) : ℕ := (rbsize.takeWhile fun r : ℕ => (r : ℤ) < size).length

/-- The data block that `allocb` takes out of a class, if it may and there is one. -/
def classBlock (h : Heap) (c : ℕ) (pri : Pri) : Option ℕ :=
  if (h.dballoc c).dba_cnt < bcmax h c pri then h.dbfreelist c else none

/-- `allocb` from `gotdp` on. -/
def gotdp (h : Heap) (c databp : ℕ) : Option ℕ × Heap :=
  match h.mbfreelist with
  | none => (none, h)
  | some bp =>
    let d := h.dblk databp
    let a := h.dballoc c
    let m : Mblk := ⟨none, none, none, d.db_base, d.db_base, some databp⟩
    let h := h.popM bp
    let h := { h with
      dbfreelist := update h.dbfreelist c d.db_freep
      dballoc := update h.dballoc c { a with dba_cnt := a.dba_cnt + 1 } }
    let h := h.setD databp { d with db_freep := none, db_type := M_DATA, db_ref := 1 }
    (some bp, h.setM bp m)

/-- `allocb(size, pri)` -/
def allocb (h : Heap) (size : ℤ) (pri : Pri) : Option ℕ × Heap :=
  let c := getclass size
  if NCLASS ≤ c then (none, h)
  else
    match classBlock h c pri with
    | some databp => gotdp h c databp
    | none =>
      if c = NCLASS - 1 then (none, h)
      else
        match classBlock h (c + 1) pri with
        | some databp => gotdp h (c + 1) databp
        | none => (none, h)

/-- The data block goes back to the free list of its class, and `bufcall` requests may be due. -/
def freed (h : Heap) (c d : ℕ) : Heap :=
  let a := h.dballoc c
  let cnt := a.dba_cnt - 1
  let h := h.setD d { h.dblk d with db_freep := h.dbfreelist c }
  let h := { h with
    dbfreelist := update h.dbfreelist c (some d)
    dballoc := update h.dballoc c { a with dba_cnt := cnt } }
  if !h.strbcflag && (!a.dba_hip.isEmpty || !a.dba_medp.isEmpty && cnt < a.dba_med ||
      !a.dba_lop.isEmpty && cnt < a.dba_lo) then
    { h with qrunflag := true, strbcflag := true }
  else h

/-- `freeb(bp)` -/
def freeb (h : Heap) (bp : ℕ) : Option Heap :=
  match h.b_datap bp with
  | none => none
  | some d =>
    let r := (h.dblk d).db_ref - 1
    let h := h.setD d { h.dblk d with db_ref := r }
    let h := if r = 0 then freed h (h.dblk d).db_class d else h
    some ((h.setM bp { h.mblk bp with b_datap := none }).pushM bp)

/-- `freemsg(bp)` -/
def freemsg : ℕ → Heap → Option ℕ → Option Heap
  | _, h, none => some h
  | 0, _, some _ => none
  | n + 1, h, some bp =>
    let tp := h.b_cont bp
    match freeb h bp with
    | none => none
    | some h => freemsg n h tp

/-- `dupb(bp)`: the new message block or NULL. -/
def dupb (h : Heap) (bp : ℕ) : Option (Option ℕ × Heap) :=
  match h.mbfreelist, h.b_datap bp with
  | none, _ => some (none, h)
  | some _, none => none
  | some nbp, some d =>
    let m : Mblk := ⟨none, none, none, (h.mblk bp).b_rptr, (h.mblk bp).b_wptr, some d⟩
    let h := (h.popM nbp).setM nbp m
    some (some nbp, h.setD d { h.dblk d with db_ref := (h.dblk d).db_ref + 1 })

/-- The loop of `dupmsg`, from the last block that was duplicated. -/
def dupLoop : ℕ → Heap → ℕ → ℕ → ℕ → Option (Option ℕ × Heap)
  | 0, _, _, _, _ => none
  | n + 1, h, head, nbp, bp =>
    match h.b_cont bp with
    | none => some (some head, h)
    | some c =>
      match dupb h c with
      | none => none
      | some (p, h) =>
        let h := h.setCont nbp p
        match p with
        | none => (freemsg n h (some head)).map fun h => (none, h)
        | some nbp => dupLoop n h head nbp c

/-- `dupmsg(bp)` -/
def dupmsg (n : ℕ) (h : Heap) (bp : Option ℕ) : Option (Option ℕ × Heap) :=
  match bp with
  | none => some (none, h)
  | some bp =>
    match dupb h bp with
    | none => none
    | some (none, h) => some (none, h)
    | some (some head, h) => dupLoop n h head head bp

/-! ## Messages -/

/-- `linkb(mp, bp)` -/
def linkb : ℕ → Heap → ℕ → ℕ → Option Heap
  | 0, _, _, _ => none
  | n + 1, h, mp, bp =>
    match h.b_cont mp with
    | none => some (h.setCont mp (some bp))
    | some c => linkb n h c bp

/-- `unlinkb(bp)` -/
def unlinkb (h : Heap) (bp : ℕ) : Option ℕ × Heap := (h.b_cont bp, h.setCont bp none)

/-- The loop of `rmvb`, at `tmp`: the pointer that `rmvb` returns, where `none` is -1. -/
def rmvbLoop (mp bp : ℕ) : ℕ → Heap → Option ℕ → Option ℕ → Option (Option (Option ℕ) × Heap)
  | _, h, _, none => some (none, h)
  | 0, _, _, some _ => none
  | n + 1, h, lastp, some tmp =>
    if tmp = bp then
      match lastp with
      | some l => some (some (some mp), (h.setCont l (h.b_cont tmp)).setCont tmp none)
      | none => some (some (h.b_cont tmp), h.setCont tmp none)
    else rmvbLoop mp bp n h (some tmp) (h.b_cont tmp)

/-- `rmvb(mp, bp)` -/
def rmvb (n : ℕ) (h : Heap) (mp bp : ℕ) : Option (Option (Option ℕ) × Heap) :=
  rmvbLoop mp bp n h none (some mp)

/-- The type of the data block of `bp`. -/
def dbType (h : Heap) (bp : ℕ) : Option UInt8 := (h.b_datap bp).map fun d => (h.dblk d).db_type

/-- `bp->b_wptr - bp->b_rptr` -/
def bsz (h : Heap) (bp : ℕ) : ℤ := (h.mblk bp).b_wptr - (h.mblk bp).b_rptr

/-- The loop of `xmsgsize`. -/
def xmsgsizeLoop (h : Heap) (type : UInt8) : ℕ → Option ℕ → ℤ → Option ℤ
  | _, none, count => some count
  | 0, some _, _ => none
  | n + 1, some bp, count =>
    match dbType h bp with
    | none => none
    | some t => if t = type then xmsgsizeLoop h type n (h.b_cont bp) (count + bsz h bp) else some count

/-- `xmsgsize(bp)` -/
def xmsgsize (n : ℕ) (h : Heap) (bp : ℕ) : Option ℤ :=
  match dbType h bp with
  | none => none
  | some type => xmsgsizeLoop h type n (some bp) 0

/-- `bcopy(from, to, n)` -/
def bcopy (mem : ℕ → UInt8) (src dst n : ℕ) : ℕ → UInt8 :=
  fun a => if dst ≤ a ∧ a < dst + n then mem (src + (a - dst)) else mem a

/-- `str_aligned(X)` -/
def str_aligned (a : ℕ) : Bool := a % 4 = 0

/-- The `n` bytes at the read pointer of `bp` go to the end of `new_bp`. -/
def pullBytes (h : Heap) (new_bp bp n : ℕ) : Heap :=
  let h := { h with mem := bcopy h.mem (h.mblk bp).b_rptr (h.mblk new_bp).b_wptr n }
  let h := h.setM new_bp { h.mblk new_bp with b_wptr := (h.mblk new_bp).b_wptr + n }
  h.setM bp { h.mblk bp with b_rptr := (h.mblk bp).b_rptr + n }

/-- The loop of `pullupmsg`: the heap, and `bp` behind the loop. -/
def pullLoop (mp new_bp : ℕ) : ℕ → Heap → Option ℕ → ℤ → Option (Heap × Option ℕ)
  | 0, _, _, _ => none
  | n + 1, h, bp, len =>
    if len = 0 then some (h, bp)
    else
      match bp with
      | none => none
      | some bp =>
        let c := min (bsz h bp) len
        let h := pullBytes h new_bp bp c.toNat
        if (h.mblk bp).b_rptr ≠ (h.mblk bp).b_wptr then some (h, some bp)
        else
          let cont := h.b_cont bp
          match if bp = mp then some h else freeb h bp with
          | none => none
          | some h => pullLoop mp new_bp n h cont (len - c)

/-- `*tmp = *mp; *mp = *new_bp; new_bp->b_datap = NULL;` -/
def swapHeaders (h : Heap) (mp tmp new_bp : ℕ) : Heap :=
  let h := h.setM tmp (h.mblk mp)
  let h := h.setM mp (h.mblk new_bp)
  h.setM new_bp { h.mblk new_bp with b_datap := none }

/-- The end of `pullupmsg`, which interchanges the headers. -/
def interchange (h : Heap) (mp tmp new_bp : ℕ) (bp : Option ℕ) : Option Heap :=
  let h := swapHeaders h mp tmp new_bp
  let r :=
    if (h.mblk tmp).b_rptr ≠ (h.mblk tmp).b_wptr then some (h.setCont mp (some tmp))
    else freeb (h.setCont mp bp) tmp
  r.map fun h => h.pushM new_bp

/-- `pullupmsg` behind its quick checks. -/
def pullup (n : ℕ) (h : Heap) (mp : ℕ) (len : ℤ) : Option (Bool × Heap) :=
  match h.mbfreelist with
  | none => some (false, h)
  | some tmp =>
    match allocb (h.popM tmp) len .BPRI_MED with
    | (none, h) => some (false, h.pushM tmp)
    | (some new_bp, h) =>
      match h.b_datap mp, h.b_datap new_bp with
      | some d, some nd =>
        let h := h.setD nd { h.dblk nd with db_type := (h.dblk d).db_type }
        match pullLoop mp new_bp n h (some mp) len with
        | none => none
        | some (h, bp) => (interchange h mp tmp new_bp bp).map fun h => (true, h)
      | _, _ => none

/-- `pullupmsg(mp, len)` -/
def pullupmsg (n : ℕ) (h : Heap) (mp : ℕ) (len : ℤ) : Option (Bool × Heap) :=
  if len = -1 then
    if h.b_cont mp = none && str_aligned (h.mblk mp).b_rptr then some (true, h)
    else
      match xmsgsize n h mp with
      | none => none
      | some len => pullup n h mp len
  else if len ≤ bsz h mp && str_aligned (h.mblk mp).b_rptr then some (true, h)
  else
    match xmsgsize n h mp with
    | none => none
    | some size => if size < len then some (false, h) else pullup n h mp len

/-! ## Boot -/

/-- Memory before boot, for `n` message blocks. -/
def bss (n : ℤ) : Heap where
  mblk _ := ⟨none, none, none, 0, 0, none⟩
  dblk _ := ⟨none, 0, 0, 0, 0, 0⟩
  mem _ := 0
  mbfreelist := none
  dbfreelist _ := none
  dballoc _ := ⟨0, 0, 0, [], [], []⟩
  nmblock := n
  strbcflag := false
  qrunflag := false

/-- The next data block of `strinit`, and where its buffer starts. -/
structure Boot where
  heap : Heap
  databp : ℕ
  base : ℕ

/-- One turn of the inner loop of `strinit`. -/
def layBlock (c : ℕ) (s : Boot) : Boot :=
  let lim := s.base + rbsize.getD c 0
  let h := s.heap.setD s.databp { s.heap.dblk s.databp with
    db_class := c, db_base := s.base, db_lim := lim, db_freep := s.heap.dbfreelist c }
  ⟨{ h with dbfreelist := update h.dbfreelist c (some s.databp) }, s.databp + 1, lim⟩

/-- One turn of the loop over the classes of `strinit`. -/
def layClass (nblk : ℕ → ℕ) (strlofrac strmedfrac : ℕ) (s : Boot) (c : ℕ) : Boot :=
  let a := { s.heap.dballoc c with
    dba_lo := (nblk c * strlofrac / 100 : ℕ), dba_med := (nblk c * strmedfrac / 100 : ℕ) }
  let h := { s.heap with
    dbfreelist := update s.heap.dbfreelist c none
    dballoc := update s.heap.dballoc c a }
  (layBlock c)^[nblk c] ⟨h, s.databp, s.base⟩

/-- The classes in the order of `strinit`. -/
def classes : List ℕ := (List.range NCLASS).reverse

/-- Where the buffers start, if there are any and `sptalloc` gives memory for them. -/
def buffers (nblk : ℕ → ℕ) (base : Option ℕ) : Option ℕ :=
  if classes.all fun c => nblk c = 0 then none else base

/-- `strinit()` with `nblk c` data blocks of class `c`; `sptalloc` gives `base` or fails. -/
def strinit (nblk : ℕ → ℕ) (strlofrac strmedfrac : ℕ) (base : Option ℕ) (h : Heap) : Heap :=
  match buffers nblk base with
  | none => { h with
      dbfreelist := fun c => if c < NCLASS then none else h.dbfreelist c, mbfreelist := none }
  | some base =>
    let s := classes.foldl (layClass nblk strlofrac strmedfrac) ⟨h, 0, base⟩
    (List.range h.nmblock.toNat).foldl Heap.pushM { s.heap with mbfreelist := none }

end Svr3.Str
