import Mathlib.Data.Int.Bitwise
import Svr3.Fs.S5Macros

/-!
# The block map of a file

`s5bmap` of `fs/s5/s5subr.c` and `s5itrunc` of `fs/s5/s5iget.c` for a regular file, with `FSMK` defined.
A block of `m_bsize` bytes is read in chunks of 1024 bytes. The disk is the one that the buffer cache
shows. The read-ahead that `s5bmap` leaves in `u_rablock` is left out.
-/

namespace Svr3.S5.Map

open Function

def NADDR : ℕ := 13

inductive Errno
  | EFBIG
  | ENOSPC
deriving DecidableEq

/-- What a `long` holds of `x` -/
def long (x : ℤ) : ℤ := Int.bmod x (2 ^ 32)

/-- The addresses in each chunk of 1024 bytes -/
abbrev Disk := ℤ → ℕ → ℕ

/-- The inode, the disk, and the blocks that `s5alloc` will return -/
structure File where
  s5i_addr : ℕ → ℕ
  s5i_lastr : ℤ
  i_size : ℤ
  disk : Disk
  free : List ℕ

/-- The arguments in the user area -/
structure Io where
  u_offset : ℤ
  u_count : ℕ
  u_limit : ℤ
  off_t : -2 ^ 31 ≤ u_offset ∧ u_offset < 2 ^ 31

/-- The address, `none` for -1, with `u_error` and the file after the call -/
structure Bmap where
  ret : Option ℕ
  u_error : Option Errno
  file : File

/-! ## Blocks -/

def clrbuf (disk : Disk) (blkno : ℤ) : Disk := update disk blkno fun _ => 0

/-- The first chunk of a new block, cleared -/
def s5alloc (bsize : ℕ) (s : File) : Option (ℕ × File) :=
  match s.free with
  | [] => none
  | bno :: free =>
    some (LTOPBLK (bno * (bsize / 1024)) (FsBSIZE bsize),
      { s with free := free, disk := clrbuf s.disk (bno * (bsize / 1024) : ℕ) })

/-- The loop over `mblks` -/
def clear (disk : Disk) (clrblk : ℤ) : ℕ → Disk
  | 0 => disk
  | mblks + 1 => clear (clrbuf disk clrblk) (clrblk + 1) mblks

/-- A new block `nb`. Its other chunks are cleared from `nb * mp->m_bsize/1024` on, where the product is
a `long`. -/
def newBlock (bsize : ℕ) (s : File) : Option (ℕ × File) :=
  match s5alloc bsize s with
  | none => none
  | some (b_blkno, s) =>
    let nb := if bsize > 1024 then FsPTOL bsize (b_blkno / (bsize / 1024)) else FsPTOL bsize b_blkno
    let clrblk := (long (nb * bsize)).tdiv 1024
    some (nb, { s with disk := clear s.disk (clrblk + 1) (bsize / 1024 - 1) })

/-! ## The map -/

/-- How many levels of indirection: `j`, with `sh` and `bn` after the loop -/
def levels (nshift : ℕ) : ℕ → ℕ → ℤ → ℤ → Option (ℕ × ℕ × ℤ)
  | 0, _, _, _ => none
  | j + 1, sh, nb, bn =>
    let sh := sh + nshift
    let nb := long (nb * 2 ^ nshift)
    if bn < nb then some (j + 1, sh, bn) else levels nshift j sh nb (bn - nb)

/-- Fetch through the indirect blocks, `4 - j` of them -/
def fetch (bsize : ℕ) (readflg : Bool) (bn : ℤ) : ℕ → ℕ → ℕ → File → Bmap
  | 0, _, nb, s => ⟨some nb, none, s⟩
  | n + 1, sh, nb, s =>
    let sh := sh - FsNSHIFT bsize
    let i := (bn >>> sh).toNat &&& FsNMASK bsize
    let blk := nb * (bsize / 1024) + (i >>> FsNSHIFT 1024)
    let i := i &&& FsNMASK 1024
    let nb := s.disk blk i
    if nb = 0 then
      if readflg then ⟨none, none, s⟩
      else
        match newBlock bsize s with
        | none => ⟨none, some .ENOSPC, s⟩
        | some (nb, s) =>
          fetch bsize readflg bn n sh nb
            { s with disk := update s.disk blk (update (s.disk blk) i nb) }
    else fetch bsize readflg bn n sh nb s

/-- The address in the inode, `then` what follows. -/
def slot (bsize : ℕ) (readflg : Bool) (i : ℕ) (s : File) (next : ℕ → File → Bmap) : Bmap :=
  let nb := s.s5i_addr i
  if nb = 0 then
    if readflg then ⟨none, none, s⟩
    else
      match newBlock bsize s with
      | none => ⟨none, some .ENOSPC, s⟩
      | some (nb, s) => next nb { s with s5i_addr := update s.s5i_addr i nb }
  else next nb s

/-- The block of the logical block `bn` -/
def block (bsize : ℕ) (readflg : Bool) (bn : ℤ) (s : File) : Bmap :=
  if bn < (NADDR - 3 : ℕ) then slot bsize readflg bn.toNat s fun nb s => ⟨some nb, none, s⟩
  else
    match levels (FsNSHIFT bsize) 3 0 1 (bn - (NADDR - 3 : ℕ)) with
    | none => ⟨none, some .EFBIG, s⟩
    | some (j, sh, bn) =>
      slot bsize readflg (NADDR - j) s fun nb s => fetch bsize readflg bn (4 - j) sh nb s

/-- The chunk of the block that holds the offset -/
def chunk (bsize : ℕ) (u_offset : ℤ) (nb : ℕ) : ℕ :=
  if bsize > 1024 then nb * (bsize / 1024) + ((u_offset >>> 10).toNat &&& (bsize / 1024 - 1)) else nb

def s5bmap (bsize : ℕ) (readflg : Bool) (io : Io) (s : File) : Bmap :=
  let bn := io.u_offset >>> FsBSHIFT bsize
  if bn < 0 then ⟨none, some .EFBIG, s⟩
  else
    let sz : ℤ := FsBSIZE bsize - io.u_offset % FsBSIZE bsize
    let s := if io.u_count < sz then s else { s with s5i_lastr := bn }
    let sz := if io.u_count < sz then (io.u_count : ℤ) else sz
    let r :=
      if readflg = false then
        if io.u_offset ≥ (io.u_limit * 2 ^ 9) % 2 ^ 32 then ⟨none, some .EFBIG, s⟩
        else block bsize readflg bn s
      else
        let rem := if s.i_size - io.u_offset < 0 then 0 else s.i_size - io.u_offset
        if (if rem < sz then rem else sz) = 0 then ⟨none, none, s⟩
        else block bsize readflg bn s
    { r with ret := r.ret.map (chunk bsize io.u_offset) }

/-! ## Truncation -/

/-- The disk, and the calls of `s5free` so far -/
structure Trunc where
  disk : Disk
  freed : List ℕ

/-- `s5free`, after which the first chunk of the block may hold a part of the free list: `spill` gives
its contents, if it does. -/
def s5free (bsize : ℕ) (spill : List ℕ → Option (ℕ → ℕ)) (bno : ℕ) (s : Trunc) : Trunc :=
  { disk := (spill s.freed).elim s.disk fun blk => update s.disk (bno * (bsize / 1024) : ℕ) blk
    freed := s.freed ++ [bno] }

/-- The loop of `s5tloop` over the entries below `i`, with the chunk that `bp` holds. The parentheses
that are missing from `i & FsNMASK(1024) == FsNMASK(1024)` make it a test of the lowest bit. -/
def entries (bsize : ℕ) (bn : ℕ) (next : ℕ → Trunc → Trunc) : ℕ → Option ℕ → Trunc → Trunc
  | 0, _, s => s
  | i + 1, bp, s =>
    let bp := if bp ≠ none ∧ i &&& (if FsNMASK 1024 = FsNMASK 1024 then 1 else 0) ≠ 0 then none else bp
    let bp := bp.getD (bn * (bsize / 1024) + (i >>> FsNSHIFT 1024))
    let nb := s.disk bp (i &&& FsNMASK 1024)
    if nb = 0 then entries bsize bn next i (some bp) s
    else entries bsize bn next i none (next nb s)

/-- `s5tloop` for the flags `f1` and `f2`. In the calls inside of it `f2` and 0 are the flags. -/
def s5tloop (bsize : ℕ) (spill : List ℕ → Option (ℕ → ℕ)) : Bool → Bool → ℕ → Trunc → Trunc :=
  let loop := fun next bn s =>
    s5free bsize spill bn (entries bsize bn next (FsNINDIR bsize) none s)
  let flags00 := loop (s5free bsize spill)
  let flags10 := loop flags00
  let flags11 := loop flags10
  fun f1 f2 => if f1 then if f2 then flags11 else flags10 else flags00

/-- The loop over the saved addresses from the index below `i` on -/
def addresses (bsize : ℕ) (spill : List ℕ → Option (ℕ → ℕ)) (save : ℕ → ℕ) : ℕ → Trunc → Trunc
  | 0, s => s
  | i + 1, s =>
    let bn := save i
    let s :=
      if bn = 0 then s
      else if i = NADDR - 3 then s5tloop bsize spill false false bn s
      else if i = NADDR - 2 then s5tloop bsize spill true false bn s
      else if i = NADDR - 1 then s5tloop bsize spill true true bn s
      else s5free bsize spill bn s
    addresses bsize spill save i s

/-- The file after `s5itrunc`, and the blocks that were given to `s5free`, in order -/
def s5itrunc (bsize : ℕ) (spill : List ℕ → Option (ℕ → ℕ)) (s : File) : File × List ℕ :=
  let save := s.s5i_addr
  let t := addresses bsize spill save NADDR ⟨s.disk, []⟩
  ({ s with i_size := 0, s5i_addr := fun i => if i < NADDR then 0 else s.s5i_addr i, disk := t.disk },
    t.freed)

end Svr3.S5.Map
