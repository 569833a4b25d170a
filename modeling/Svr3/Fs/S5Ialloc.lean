import Svr3.Fs.S5Macros
import Svr3.Lib.Run
import Mathlib.Data.List.Range
import Mathlib.Algebra.Group.Nat.Defs

/-!
# The inode cache of `fs/s5/s5alloc.c`

The super block keeps up to `NICINOD` numbers of free inodes. When they run out, a linear search
of the inode list fills the array again from the top down; it starts at the block of `s_inode[0]`.
-/

namespace Svr3.S5

open Function

/-- The inode part of a mounted file system: the super block, and `di_mode` by inode number. -/
structure Ivol where
  s_isize : ℕ
  s_ninode : ℕ
  s_inode : ℕ → ℕ
  s_tinode : ℕ
  s_fmod : Bool
  di_mode : ℕ → ℕ

/-- How many inodes the blocks between the super block and `s_isize` hold. -/
def numInodes (bsize isize : ℕ) : ℕ := (isize - 2) * (bsize / 64)

/-- The inode in slot `i` of disk block `adr`. -/
def inoAt (bsize adr i : ℕ) : ℕ := (adr - FsITOD bsize 1) * FsINOPB bsize + i + 1

/-- The variables of the search. -/
structure Scan where
  ino : ℕ
  s_ninode : ℕ
  s_inode : ℕ → ℕ

/-- `if (dp->di_mode == 0) fp->s_inode[--fp->s_ninode] = ino;` -/
def Scan.visit (s : Scan) (di_mode : ℕ) : Scan :=
  if di_mode = 0 then
    { s with s_ninode := s.s_ninode - 1, s_inode := update s.s_inode (s.s_ninode - 1) s.ino }
  else s

/-- The loop over the inodes of block `adr`, with `k` to go from slot `i` on. -/
def scanBlock (di_mode : ℕ → ℕ) (bsize adr : ℕ) : ℕ → ℕ → Scan → Scan
  | 0, _, s => s
  | k + 1, i, s =>
    if s.s_ninode = 0 then s
    else
      let s := s.visit (di_mode (inoAt bsize adr i))
      scanBlock di_mode bsize adr k (i + 1) { s with ino := (s.ino + 1) % 2 ^ 16 }

/-- The loop over the blocks of the inode list, with `n` to go from `adr` on. -/
def scanBlocks (di_mode : ℕ → ℕ) (bsize : ℕ) : ℕ → ℕ → Scan → Scan
  | 0, _, s => s
  | n + 1, adr, s =>
    let s := scanBlock di_mode bsize adr (FsINOPB bsize) 0 s
    if s.s_ninode = 0 then s else scanBlocks di_mode bsize n (adr + 1) s

/-- The search of `s5ialloc`. -/
def search (bsize : ℕ) (fp : Ivol) : Scan :=
  let ino := FsINOS bsize (fp.s_inode 0)
  let adr := FsITOD bsize ino
  scanBlocks fp.di_mode bsize (fp.s_isize * (bsize / 1024) - adr) adr ⟨ino, NICINOD, fp.s_inode⟩

/-- `if (fp->s_ninode > 0) { fp->s_inode[fp->s_ninode-1] = 0; fp->s_inode[0] = 0; }` -/
def Scan.markEnd (s : Scan) : ℕ → ℕ :=
  if 0 < s.s_ninode then update (update s.s_inode (s.s_ninode - 1) 0) 0 0
  else s.s_inode

/-- The array after the search, and whether it holds an inode. -/
def rebuild (bsize : ℕ) (fp : Ivol) : Bool × Ivol :=
  ((search bsize fp).s_ninode ≠ NICINOD,
    { fp with s_ninode := NICINOD, s_inode := (search bsize fp).markEnd })

/-- What `s5ialloc` returns: an inode, NULL from `iget`, or NULL with ENOSPC. -/
inductive Ret
  | ip (ino : ℕ)
  | noInode
  | nospc
deriving DecidableEq, Repr

/-- `fp->s_ninode > 0 && (ino = fp->s_inode[--fp->s_ninode])` -/
def popIno (fp : Ivol) : Option ℕ × Ivol :=
  match fp.s_ninode with
  | 0 => (none, fp)
  | n + 1 => (if fp.s_inode n = 0 then none else some (fp.s_inode n), { fp with s_ninode := n })

/-- A free inode is made an allocated one. -/
def takeIno (fp : Ivol) (ino mode : ℕ) : Ivol :=
  { fp with di_mode := update fp.di_mode ino mode, s_tinode := fp.s_tinode - 1,
            s_fmod := true }

/-- "Out of inodes" -/
def outOfInodes (fp : Ivol) : Ivol := { fp with s_ninode := 0, s_tinode := 0 }

/-- The label `loop` of `s5ialloc`, to which control comes back at most `fuel` times. Whether `iget`
finds room for an inode in core is up to the inode table, `iget`. -/
def ialloc (bsize : ℕ) (iget : ℕ → Bool) (mode : ℕ) : ℕ → Ivol → Option (Ret × Ivol)
  | 0, _ => none
  | fuel + 1, fp =>
    match popIno fp with
    | (some ino, fp) =>
      if iget ino = false then some (.noInode, fp)
      else if fp.di_mode ino = 0 then some (.ip ino, takeIno fp ino mode)
      -- "inode was already allocated"
      else ialloc bsize iget mode fuel fp
    | (none, fp) =>
      if 0 < fp.s_tinode then
        match rebuild bsize fp with
        | (true, fp) => ialloc bsize iget mode fuel fp
        | (false, fp) => some (.nospc, outOfInodes fp)
      else some (.nospc, outOfInodes fp)

/-- `s5ialloc(mp, mode, nlink, rdev)` without I/O errors. -/
def s5ialloc (bsize : ℕ) (iget : ℕ → Bool) (mode : ℕ) (fp : Ivol) : Option (Ret × Ivol) :=
  ialloc bsize iget mode (fp.s_ninode + 2) fp

/-- An allocated inode is made a free one. -/
def freeIno (fp : Ivol) (ino : ℕ) : Ivol :=
  { fp with di_mode := update fp.di_mode ino 0, s_tinode := (fp.s_tinode + 1) % 2 ^ 16,
            s_fmod := true }

/-- `s5ifree(ip)` -/
def s5ifree (fp : Ivol) (ino : ℕ) : Ivol :=
  if fp.di_mode ino = 0 then fp
  else if NICINOD ≤ fp.s_ninode then
    if ino < fp.s_inode 0 then
      { freeIno fp ino with s_inode := update fp.s_inode 0 ino }
    else freeIno fp ino
  else
    { freeIno fp ino with s_inode := update fp.s_inode fp.s_ninode ino,
                          s_ninode := fp.s_ninode + 1 }

/-! ## The search collects the free inodes in order -/

/-- Entries go into the array from `n` down. -/
def fill (f : ℕ → ℕ) : ℕ → List ℕ → ℕ × (ℕ → ℕ)
  | n, [] => (n, f)
  | 0, _ :: _ => (0, f)
  | n + 1, x :: xs => fill (update f n x) n xs

theorem fill_zero (f : ℕ → ℕ) (xs : List ℕ) : fill f 0 xs = (0, f) := by
  cases xs <;> rfl

theorem fill_append (f : ℕ → ℕ) (n : ℕ) (xs ys : List ℕ) :
    fill f n (xs ++ ys) = fill (fill f n xs).2 (fill f n xs).1 ys := by
  induction xs generalizing f n with
  | nil => cases n <;> rfl
  | cons x xs ih =>
    cases n with
    | zero => simp [fill_zero]
    | succ n => exact ih _ n

theorem fill_fst (f : ℕ → ℕ) (n : ℕ) (xs : List ℕ) : (fill f n xs).1 = n - xs.length := by
  induction xs generalizing f n with
  | nil => cases n <;> rfl
  | cons x xs ih =>
    cases n with
    | zero => simp [fill_zero]
    | succ n =>
      rw [fill, ih, List.length_cons]
      omega

/-- Entries from `n` on, and those that the list does not reach, stay. -/
theorem fill_snd_of_ne (f : ℕ → ℕ) {n i : ℕ} {xs : List ℕ} (h : n ≤ i ∨ i + xs.length < n) :
    (fill f n xs).2 i = f i := by
  induction xs generalizing f n with
  | nil => cases n <;> rfl
  | cons x xs ih =>
    cases n with
    | zero => simp [fill_zero]
    | succ n =>
      rw [List.length_cons] at h
      rw [fill, ih _ (by omega), update_of_ne (by omega)]

/-- The list stands in the array from the top down. -/
theorem fill_snd (f : ℕ → ℕ) {n i : ℕ} {xs : List ℕ} {x : ℕ} (hi : i < n)
    (hx : xs[n - 1 - i]? = some x) : (fill f n xs).2 i = x := by
  induction xs generalizing f n with
  | nil => simp at hx
  | cons y xs ih =>
    cases n with
    | zero => omega
    | succ n =>
      rw [fill]
      by_cases hin : i = n
      · subst hin
        rw [fill_snd_of_ne _ (.inl (Nat.le_refl _)), update_self]
        simpa using hx
      · apply ih _ (by omega)
        rw [← hx, show n + 1 - 1 - i = (n - 1 - i) + 1 by omega, List.getElem?_cons_succ]

/-- The free inodes from `start` on. -/
def Ivol.freeFrom (bsize : ℕ) (fp : Ivol) (start : ℕ) : List ℕ :=
  (List.range' start (numInodes bsize fp.s_isize + 1 - start)).filter fun x => fp.di_mode x = 0

section Search

variable {di_mode : ℕ → ℕ} {bsize : ℕ}

theorem inoAt_succ (adr i : ℕ) : inoAt bsize adr (i + 1) = inoAt bsize adr i + 1 := by
  unfold inoAt
  omega

/-- The loop over a block enters the free ones of the next `k` inodes. -/
theorem scanBlock_eq (di_mode : ℕ → ℕ) (adr : ℕ) {k i : ℕ} {s : Scan}
    (hino : s.ino = inoAt bsize adr i) (hk : s.ino + k < 2 ^ 16) :
    ((scanBlock di_mode bsize adr k i s).s_ninode, (scanBlock di_mode bsize adr k i s).s_inode) =
        fill s.s_inode s.s_ninode ((List.range' s.ino k).filter fun x => di_mode x = 0) ∧
      ((scanBlock di_mode bsize adr k i s).s_ninode ≠ 0 →
        (scanBlock di_mode bsize adr k i s).ino = s.ino + k) := by
  induction k generalizing i s with
  | zero =>
    refine ⟨?_, fun _ => rfl⟩
    show (s.s_ninode, s.s_inode) = fill s.s_inode s.s_ninode []
    cases s.s_ninode <;> rfl
  | succ k ih =>
    by_cases hz : s.s_ninode = 0
    · simp [scanBlock, hz, fill_zero]
    · have hvisit : (s.visit (di_mode s.ino)).ino = s.ino := by
        unfold Scan.visit
        split <;> rfl
      have hmod : (s.ino + 1) % 2 ^ 16 = s.ino + 1 := Nat.mod_eq_of_lt (by omega)
      have hunfold : scanBlock di_mode bsize adr (k + 1) i s = scanBlock di_mode bsize adr k (i + 1)
          { s.visit (di_mode s.ino) with ino := s.ino + 1 } := by
        rw [scanBlock, if_neg hz, ← hino]
        simp only [hvisit, hmod]
      rw [hunfold]
      obtain ⟨hfill, hnext⟩ := ih (i := i + 1)
        (s := { s.visit (di_mode s.ino) with ino := s.ino + 1 })
        (by rw [inoAt_succ, hino]) (by show s.ino + 1 + k < _; omega)
      refine ⟨hfill.trans ?_, fun h => (hnext h).trans (by show s.ino + 1 + k = _; omega)⟩
      obtain ⟨n, hn⟩ := Nat.exists_eq_succ_of_ne_zero hz
      rw [List.range'_succ, List.filter_cons, Scan.visit]
      by_cases hfree : di_mode s.ino = 0
      · simp [hfree, hn, fill]
      · simp [hfree]

/-- The loop over the blocks enters the free ones of all their inodes. -/
theorem scanBlocks_eq (di_mode : ℕ → ℕ) (t : FsType) {n adr : ℕ} {s : Scan}
    (hadr : FsITOD t.m_bsize 1 ≤ adr)
    (hino : s.ino = inoAt t.m_bsize adr 0) (hn : s.ino + n * FsINOPB t.m_bsize < 2 ^ 16) :
    ((scanBlocks di_mode t.m_bsize n adr s).s_ninode,
      (scanBlocks di_mode t.m_bsize n adr s).s_inode) =
    fill s.s_inode s.s_ninode
      ((List.range' s.ino (n * FsINOPB t.m_bsize)).filter fun x => di_mode x = 0) := by
  induction n generalizing adr s with
  | zero =>
    simp only [scanBlocks, Nat.zero_mul, List.range'_zero, List.filter_nil]
    cases s.s_ninode <;> rfl
  | succ n ih =>
    rw [Nat.add_mul, Nat.one_mul] at hn
    obtain ⟨hblock, hnext⟩ := scanBlock_eq di_mode adr (k := FsINOPB t.m_bsize) hino
      (by omega)
    have hsplit : List.range' s.ino ((n + 1) * FsINOPB t.m_bsize) =
        List.range' s.ino (FsINOPB t.m_bsize) ++
          List.range' (s.ino + FsINOPB t.m_bsize) (n * FsINOPB t.m_bsize) := by
      rw [List.range'_append_1, Nat.add_mul, Nat.one_mul, Nat.add_comm]
    rw [hsplit, List.filter_append, fill_append, ← hblock, scanBlocks]
    generalize scanBlock di_mode t.m_bsize adr (FsINOPB t.m_bsize) 0 s = r at hnext ⊢
    by_cases hz : r.s_ninode = 0
    · simp [hz, fill_zero]
    · rw [if_neg hz, ← hnext hz]
      apply ih (by omega)
      · rw [hnext hz, hino]
        unfold inoAt
        rw [Nat.sub_add_comm hadr, Nat.add_mul, Nat.one_mul]
        omega
      · rw [hnext hz]
        omega

end Search

/-! ## Inode numbers and disk addresses -/

section Address

variable (t : FsType)

theorem FsINOS_pos (x : ℕ) : 1 ≤ FsINOS t.m_bsize x := by
  unfold FsINOS
  split <;> omega

theorem FsINOS_le (x : ℕ) : FsINOS t.m_bsize x ≤ x + 1 := by
  unfold FsINOS
  split <;> omega

theorem FsINOS_mono {x y : ℕ} (h : x ≤ y) : FsINOS t.m_bsize x ≤ FsINOS t.m_bsize y := by
  unfold FsINOS
  split <;> omega

theorem FsINOS_zero : FsINOS t.m_bsize 0 = 1 := by
  cases t <;> rfl

/-- The search starts at the first slot of a block. -/
theorem inoAt_FsINOS (x : ℕ) :
    inoAt t.m_bsize (FsITOD t.m_bsize (FsINOS t.m_bsize x)) 0 = FsINOS t.m_bsize x := by
  cases t <;> simp [inoAt, FsITOD, FsINOS, FsINOPB, FsBSIZE, FsLRG, FsType.m_bsize,
    Nat.shiftRight_eq_div_pow] <;> omega

theorem FsITOD_one_le {x : ℕ} (hx : 1 ≤ x) : FsITOD t.m_bsize 1 ≤ FsITOD t.m_bsize x := by
  cases t <;> simp [FsITOD, FsLRG, FsType.m_bsize, Nat.shiftRight_eq_div_pow] <;> omega

/-- The blocks that the search visits hold the inodes from its start to the last one. -/
theorem search_length (ht : t ≠ .Fs1b) (isize x : ℕ) :
    (isize * (t.m_bsize / 1024) - FsITOD t.m_bsize (FsINOS t.m_bsize x)) * FsINOPB t.m_bsize =
      numInodes t.m_bsize isize + 1 - FsINOS t.m_bsize x := by
  cases t with
  | Fs1b => exact absurd rfl ht
  | Fs2b | Fs4b | Fs8b | Fs16b =>
    simp [numInodes, FsITOD, FsINOS, FsINOPB, FsBSIZE, FsLRG, FsType.m_bsize,
      Nat.shiftRight_eq_div_pow]
    omega

end Address

end Svr3.S5
