import Mathlib.Data.Int.Notation
import Mathlib.Tactic.Common
import Mathlib.Algebra.Group.Int.Defs

/-!
# Swap files of `os/swapalloc.c`

Each swap file has a use count for each of its pages. `swalloc` takes pages with count 0 that lie
side by side in one file, and leaves their place in disk block descriptors, by the number of the
first of their two blocks.
-/

namespace Svr3.Swap

/-- `MSFILES` -/
def msfiles : ℕ := 16

/-- `MAXSUSE` -/
def maxsuse : UInt8 := 255

/-- `DPPSHFT` -/
def dppshft : ℕ := 1

inductive Errno
  | EEXIST
  | EINVAL
  | ENOMEM
  | ENOSPC
  | open (e : ℕ)
deriving DecidableEq

/-- `struct dbd` of type `DBD_SWAP` -/
structure Dbd where
  dbd_swpi : BitVec 4
  dbd_blkno : BitVec 24
deriving DecidableEq

/-- `struct swaptab`, with the bit `ST_INDEL` of `st_flags`, the counts by their distance from
`st_ucnt`, and the distance of `st_next`. -/
structure Swpt where
  st_dev : ℕ
  st_indel : Bool
  st_ucnt : Option (ℤ → UInt8)
  st_next : ℕ
  st_swplo : ℤ
  st_npgs : ℤ
  st_nfpgs : ℤ

/-- The table, and the processes that wait for swap space with their `p_mpgneed`, the oldest first. -/
structure Sys where
  swaptab : ℕ → Swpt
  nextswap : ℕ
  availsmem : ℤ
  swapwold : List (ℕ × ℤ)

def Sys.setSt (s : Sys) (smi : ℕ) (st : Swpt) : Sys :=
  { s with swaptab := Function.update s.swaptab smi st }

/-! ## Use counts -/

/-- `(dbd->dbd_blkno - st->st_swplo) >> DPPSHFT` -/
def pgnbr (st : Swpt) (dbd : Dbd) : ℤ := ((dbd.dbd_blkno.toNat : ℤ) - st.st_swplo) >>> dppshft

/-- `swfree1(dbd)`. It gives the count that is left. -/
def swfree1 (dbd : Dbd) (s : Sys) : UInt8 × Sys :=
  let smi := dbd.dbd_swpi.toNat
  let st := s.swaptab smi
  match st.st_ucnt with
  | none => (0, s)
  | some u =>
    let retval := u (pgnbr st dbd) - 1
    let st := { st with st_ucnt := some (Function.update u (pgnbr st dbd) retval) }
    if retval = 0 then
      let st := { st with st_nfpgs := st.st_nfpgs + 1 }
      let s := s.setSt smi st
      match s.swapwold with
      | [] => (retval, s)
      | (_, need) :: rest =>
        (retval, if need ≤ st.st_nfpgs then { s with swapwold := rest } else s)
    else (retval, s.setSt smi st)

/-- `swpinc(dbd, nm)` -/
def swpinc (dbd : Dbd) (s : Sys) : Bool × Sys :=
  let smi := dbd.dbd_swpi.toNat
  let st := s.swaptab smi
  match st.st_ucnt with
  | none => (false, s)
  | some u =>
    let pg := pgnbr st dbd
    if maxsuse ≤ u pg then (false, s)
    else (true, s.setSt smi { st with st_ucnt := some (Function.update u pg (u pg + 1)) })

/-! ## Allocation -/

/-- The inner loop of `swapfind` with `n` turns left: whether it comes to its end, and `p`. -/
def zeros (u : ℤ → UInt8) : ℕ → ℕ → Bool × ℕ
  | 0, p => (true, p)
  | n + 1, p => if u p ≠ 0 then (false, p) else zeros u n (p + 1)

/-- One of the two outer loops, as many turns as there are places up to `e`: the place found, and
`p`. -/
def scan (u : ℤ → UInt8) (size : ℕ) (e : ℤ) : ℕ → ℕ → Option (ℕ × ℕ)
  | 0, _ => none
  | n + 1, p =>
    if e < p then none
    else if u p = 0 then
      match zeros u (size - 1) (p + 1) with
      | (true, q) => some (p, q)
      | (false, q) => scan u size e n (q + 1)
    else scan u size e n (p + 1)

/-- `swapfind(st, size)` -/
def swapfind (st : Swpt) (size : ℕ) : ℤ × Swpt :=
  match st.st_ucnt with
  | none => (-1, st)
  | some u =>
    let e := st.st_npgs - size
    match scan u size e (e + 1 - st.st_next).toNat st.st_next with
    | some (b, p) => (b, { st with st_next := p })
    | none =>
      let e : ℤ := st.st_next - size
      match scan u size e (e + 1).toNat 0 with
      | some (b, p) => (b, { st with st_next := p })
      | none => (-1, { st with st_next := 0 })

/-- In use, and not in the process of being deleted. -/
def Swpt.usable (st : Swpt) : Bool := st.st_ucnt.isSome && !st.st_indel

/-- The `do` loop of `swalloc` with `n` turns left: `smi` and `swappg` after it. -/
def search (size : ℕ) : ℕ → ℕ → ℤ → Sys → (ℕ × ℤ) × Sys
  | 0, smi, swappg, s => ((smi, swappg), s)
  | n + 1, smi, swappg, s =>
    let st := s.swaptab smi
    if st.usable then
      let r := swapfind st size
      let s := s.setSt smi r.2
      if 0 ≤ r.1 then ((smi, r.1), s) else search size n ((smi + 1) % msfiles) r.1 s
    else search size n ((smi + 1) % msfiles) swappg s

/-- The end of `swalloc`: the counts and the descriptors. -/
def grant (size : ℕ) (smi : ℕ) (swappg : ℤ) (s : Sys) : List Dbd × Sys :=
  let st := s.swaptab smi
  let blk := st.st_swplo + swappg * 2 ^ dppshft
  let dbds := (List.range size).map fun i : ℕ =>
    ⟨BitVec.ofNat 4 smi, BitVec.ofInt 24 (blk + i * 2 ^ dppshft)⟩
  let ucnt := st.st_ucnt.map fun u j => if swappg ≤ j ∧ j < swappg + size then 1 else u j
  (dbds, { s.setSt smi { st with st_nfpgs := st.st_nfpgs - size, st_ucnt := ucnt } with
    nextswap := (smi + 1) % msfiles })

/-- One turn of the outer loop of `swalloc`, which is entered with `swappg`: the place of the pages
and their descriptors, if it comes to the end. -/
def swalloc (size : ℕ) (swappg : ℤ) (s : Sys) : Option (ℕ × ℤ × List Dbd) × Sys :=
  match search size msfiles s.nextswap swappg s with
  | ((smi, swappg), s) =>
    if 0 ≤ swappg then
      let r := grant size smi swappg s
      (some (smi, swappg, r.1), r.2)
    else (none, s)

/-! ## Swap files that come and go -/

/-- What the loop of `swapadd` comes to. -/
inductive Add
  | free (smi : ℕ)
  | full
  | dup (i : ℕ) (smi : Option ℕ)

/-- The loop of `swapadd` over the indices. -/
def addLoop (dev : ℕ) (lowblk : ℤ) (tab : ℕ → Swpt) : List ℕ → Option ℕ → Add
  | [], none => .full
  | [], some smi => .free smi
  | i :: is, smi =>
    if (tab i).st_ucnt.isNone then addLoop dev lowblk tab is (smi.or (some i))
    else if (tab i).st_dev = dev ∧ (tab i).st_swplo = lowblk then .dup i smi
    else addLoop dev lowblk tab is smi

/-- `swapadd(dev, lowblk, nblks)`, where `d_open` may fail, and `sptalloc` may have no room; for a
size that is not positive it has none. A file that is revived gives the free index found so far. -/
def swapadd (dev : ℕ) (lowblk nblks : ℤ) (opened : Option ℕ) (room : Bool) (s : Sys) :
    (Option ℕ × Option Errno) × Sys :=
  match addLoop dev lowblk s.swaptab (List.range msfiles) none with
  | .dup i smi =>
    let st := s.swaptab i
    if st.st_indel && st.st_npgs = nblks >>> dppshft then
      ((smi, none),
        { s.setSt i { st with st_indel := false } with availsmem := s.availsmem + st.st_npgs })
    else ((none, some .EEXIST), s)
  | .full => ((none, some .ENOSPC), s)
  | .free smi =>
    let st := s.swaptab smi
    match opened with
    | some e => ((none, some (.open e)), s.setSt smi { st with st_ucnt := none, st_indel := false })
    | none =>
      let npgs := nblks >>> dppshft
      let st := { st with
        st_dev := dev, st_swplo := lowblk, st_npgs := npgs, st_nfpgs := npgs, st_ucnt := none }
      let pgs := (npgs + 1023).tdiv 1024
      if !room || pgs ≤ 0 then ((none, none), s.setSt smi st)
      else
        let st := { st with st_ucnt := some fun _ => 0, st_next := 0, st_indel := false }
        ((some smi, none),
          { s.setSt smi st with availsmem := s.availsmem + npgs, swapwold := [] })

/-- The loop of `swapdel` over the indices: `smi` and `ok`. -/
def delLoop (dev : ℕ) (lowblk : ℤ) (tab : ℕ → Swpt) : List ℕ → Option ℕ × ℕ → Option ℕ × ℕ
  | [], r => r
  | i :: is, (smi, ok) =>
    if (tab i).st_ucnt.isNone then delLoop dev lowblk tab is (smi, ok)
    else if (tab i).st_dev = dev ∧ (tab i).st_swplo = lowblk then
      delLoop dev lowblk tab is (some i, ok)
    else delLoop dev lowblk tab is (smi, if (tab i).st_indel then ok else ok + 1)

/-- `swapdel(dev, lowblk)` up to its loop that waits for the pages: the index, or the error. -/
def swapdel (minasmem : ℤ) (dev : ℕ) (lowblk : ℤ) (s : Sys) : Except Errno ℕ × Sys :=
  match delLoop dev lowblk s.swaptab (List.range msfiles) (none, 0) with
  | (none, _) => (.error .EINVAL, s)
  | (some smi, ok) =>
    if ok = 0 then (.error .ENOMEM, s)
    else
      let st := s.swaptab smi
      if st.st_indel then (.ok smi, s)
      else if s.availsmem - st.st_npgs < minasmem then (.error .ENOMEM, s)
      else
        (.ok smi, { s.setSt smi { st with st_indel := true } with
          availsmem := s.availsmem - st.st_npgs })

/-- `(st->st_nfpgs < st->st_npgs) && (st->st_flags & ST_INDEL)` -/
def Swpt.busy (st : Swpt) : Bool := st.st_nfpgs < st.st_npgs && st.st_indel

/-- The end of `swapdel`, with `swaprem`. -/
def swapdelEnd (smi : ℕ) (s : Sys) : Sys :=
  let st := s.swaptab smi
  if st.st_nfpgs = st.st_npgs ∧ st.st_indel then s.setSt smi { st with st_ucnt := none } else s

end Svr3.Swap
