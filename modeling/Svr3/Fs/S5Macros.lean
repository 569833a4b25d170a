import Mathlib.Tactic.Common

/-!
# Sizes and addresses of the System V file system

The macros of `sys/fs/s5macros.h` for `FsTYPE == 3`, the constants of `sys/fs/s5param.h`, and the
file system types that `s5mount` accepts with the block size it gives each (`FSMK` is defined).
-/

namespace Svr3.S5

/-- The values of `s_type`. -/
inductive FsType
  | Fs1b
  | Fs2b
  | Fs4b
  | Fs8b
  | Fs16b
deriving DecidableEq, Repr

/-- The `m_bsize` of a mounted file system. -/
def FsType.m_bsize : FsType → ℕ
  | .Fs1b => 512
  | .Fs2b => 1024
  | .Fs4b => 2048
  | .Fs8b => 4096
  | .Fs16b => 8192

/-- Number of super block inodes. -/
def NICINOD : ℕ := 100

/-- Number of super block free blocks. -/
def NICFREE : ℕ := 50

def FsLRG (bsize : ℕ) : Bool := 1024 ≤ bsize

def FsBSIZE (bsize : ℕ) : ℕ := if bsize < 1024 then bsize else 1024

def FsINOPB (bsize : ℕ) : ℕ := FsBSIZE bsize / 64

def FsPTOL (bsize b : ℕ) : ℕ := if FsLRG bsize then b >>> 1 else b

/-- The disk block of inode `x`. -/
def FsITOD (bsize x : ℕ) : ℕ :=
  if FsLRG bsize then ((x + 31) >>> 4) + 2 * (bsize / 1024 - 1) else (x + 15) >>> 3

/-- The slot of inode `x` in its disk block. -/
def FsITOO (bsize x : ℕ) : ℕ := if FsLRG bsize then (x + 31) % 16 else (x + 15) % 8

/-- The inode a search that remembers inode `x` starts from: `(x & ~017) + 1`, or `(x & ~07) + 1`
for small blocks. -/
def FsINOS (bsize x : ℕ) : ℕ := if FsLRG bsize then x / 16 * 16 + 1 else x / 8 * 8 + 1

/-- `LTOPBLK` of `os/bio.c`: the 512-byte sector of a block of `bsize` bytes. -/
def LTOPBLK (blkno bsize : ℕ) : ℕ := blkno * (bsize >>> 9)

def FsBSHIFT (bsize : ℕ) : ℕ := Nat.log2 bsize

/-- Number of addresses in a block. -/
def FsNINDIR (bsize : ℕ) : ℕ := bsize / 4

def FsNMASK (bsize : ℕ) : ℕ := bsize / 4 - 1

def FsNSHIFT (bsize : ℕ) : ℕ := Nat.log2 (bsize / 4)

end Svr3.S5
