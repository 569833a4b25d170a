import Svr3.Fs.S5Macros
import Svr3.Lib.Run
import Mathlib.Data.List.Nodup

/-!
# The free block list of `fs/s5/s5alloc.c`

The super block keeps up to `NICFREE` free blocks in an array. When the array is full it is
written into the block that is freed next, which then becomes the bottom of the new array.
-/

namespace Svr3.S5

open Function

/-- `struct fblk`: the part of a free block that continues the list. -/
structure Fblk where
  df_nfree : ℕ
  df_free : ℕ → ℕ

/-- The free block part of `struct filsys`. -/
structure Filsys where
  s_isize : ℕ
  s_fsize : ℕ
  s_nfree : ℕ
  s_free : ℕ → ℕ
  s_tfree : ℕ
  s_fmod : Bool

/-- A mounted file system: its super block, and the contents of the buffers by `b_blkno`, whether
in core or on the disk. -/
structure Vol where
  fp : Filsys
  buf : ℕ → Fblk

/-- A buffer that `clrbuf` has zeroed. -/
def clrbuf : Fblk := ⟨0, fun _ => 0⟩

/-- `s5badblock(fp, bn, dev)` -/
def s5badblock (fp : Filsys) (bn : ℕ) : Bool := bn < fp.s_isize || fp.s_fsize ≤ bn

/-- The do-while loop of `s5alloc`, with `s_nfree` as the loop variable: the block and the
`s_nfree` it leaves, or `none` for `goto nospace`. -/
def takeFree (fp : Filsys) : ℕ → Option (ℕ × ℕ)
  | 0 => none
  | n + 1 =>
    if fp.s_free n = 0 then none
    else if s5badblock fp (fp.s_free n) then takeFree fp n
    else some (fp.s_free n, n)

/-- The `b_blkno` of the buffer through which `s5alloc` and `s5free` read and write the list part
of block `bno`. -/
def listBlkno (bsize bno : ℕ) : ℕ :=
  if 1024 < bsize then LTOPBLK (bno * (bsize / 1024)) (FsBSIZE bsize)
  else LTOPBLK bno (FsBSIZE bsize)

/-- The `b_blkno` of the buffer that `s5alloc` returns for block `bno`. -/
def allocBlkno (bsize bno : ℕ) : ℕ := LTOPBLK (bno * (bsize / 1024)) (FsBSIZE bsize)

/-- The label `nospace` of `s5alloc`. -/
def nospace (v : Vol) : Option ℕ × Vol :=
  (none, { v with fp := { v.fp with s_nfree := 0, s_tfree := 0 } })

/-- `s5alloc(mp)` without I/O errors: the `b_blkno` of the buffer it returns, or `none` for NULL
with `u_error` set to ENOSPC. -/
def s5alloc (bsize : ℕ) (v : Vol) : Option ℕ × Vol :=
  match takeFree v.fp v.fp.s_nfree with
  | none => nospace v
  | some (bno, n) =>
    let fp : Filsys :=
      if n = 0 then
        let b := v.buf (listBlkno bsize bno)
        { v.fp with s_nfree := b.df_nfree, s_free := b.df_free }
      else { v.fp with s_nfree := n }
    -- "Bad free count"
    if fp.s_nfree = 0 ∨ NICFREE < fp.s_nfree then nospace { v with fp := fp }
    else
      let bp := allocBlkno bsize bno
      (some bp, ⟨{ fp with s_tfree := fp.s_tfree - 1, s_fmod := true },
        update v.buf bp clrbuf⟩)

/-- An emptied array gets back the 0 that ends the list. -/
def startFree (fp : Filsys) : Filsys :=
  if fp.s_nfree = 0 then { fp with s_nfree := 1, s_free := update fp.s_free 0 0 } else fp

/-- A full array is written into the block that is freed. When it is not full a delayed write of
the block's buffer is cancelled: the block is then as it was on the disk, `stale`. -/
def spillFree (bsize : ℕ) (v : Vol) (bno : ℕ) (stale : Fblk) : Vol :=
  if NICFREE ≤ v.fp.s_nfree then
    ⟨{ v.fp with s_nfree := 0 },
      update v.buf (listBlkno bsize bno) ⟨v.fp.s_nfree, v.fp.s_free⟩⟩
  else { v with buf := update v.buf (allocBlkno bsize bno) stale }

/-- `fp->s_free[fp->s_nfree++] = bno; fp->s_tfree++; fp->s_fmod = 1;` -/
def putFree (fp : Filsys) (bno : ℕ) : Filsys :=
  { fp with s_nfree := fp.s_nfree + 1, s_free := update fp.s_free fp.s_nfree bno,
            s_tfree := fp.s_tfree + 1, s_fmod := true }

/-- `s5free(mp, bno)` -/
def s5free (bsize : ℕ) (v : Vol) (bno : ℕ) (stale : Fblk) : Vol :=
  let v := { v with fp := { v.fp with s_fmod := true } }
  if s5badblock v.fp bno then v
  else
    let w := spillFree bsize { v with fp := startFree v.fp } bno stale
    { w with fp := putFree w.fp bno }

/-- The block number that `s5bmap` makes of the buffer it gets from `s5alloc`. -/
def blockOf (bsize blkno : ℕ) : ℕ :=
  if 1024 < bsize then FsPTOL bsize (blkno / (bsize / 1024)) else FsPTOL bsize blkno

/-! ## Addresses -/

section Address

variable (t : FsType)

theorem listBlkno_inj {b c : ℕ} (h : listBlkno t.m_bsize b = listBlkno t.m_bsize c) : b = c := by
  cases t <;> simp [listBlkno, LTOPBLK, FsBSIZE, FsType.m_bsize] at h <;> omega

theorem allocBlkno_eq (ht : t ≠ .Fs1b) (b : ℕ) :
    allocBlkno t.m_bsize b = listBlkno t.m_bsize b := by
  cases t <;> simp_all [allocBlkno, listBlkno, FsType.m_bsize]

theorem blockOf_allocBlkno (ht : t ≠ .Fs1b) (b : ℕ) :
    blockOf t.m_bsize (allocBlkno t.m_bsize b) = b := by
  cases t with
  | Fs1b => exact absurd rfl ht
  | Fs2b | Fs4b | Fs8b | Fs16b =>
    simp [blockOf, allocBlkno, LTOPBLK, FsBSIZE, FsPTOL, FsLRG, FsType.m_bsize,
      Nat.shiftRight_eq_div_pow]
    try omega

/-- On 512-byte blocks `m_bsize/1024` is 0, so every buffer is that of block 0. -/
theorem allocBlkno_Fs1b (b : ℕ) : allocBlkno (FsType.m_bsize .Fs1b) b = 0 := by
  simp [allocBlkno, LTOPBLK, FsType.m_bsize]

end Address

end Svr3.S5
