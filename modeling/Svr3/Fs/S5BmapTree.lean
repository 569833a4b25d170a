import Svr3.Fs.S5Bmap
import Svr3.Lib.Tries
import Mathlib.Algebra.Order.Ring.Int

/-!
# The tree of a file's blocks

The chunks of a block taken together are a block of `FsNINDIR` addresses. With them the addresses in the
inode are the roots of a forest in the sense of `Svr3.Shape`, and a new block that `s5bmap` links in is
a block that the forest grows by.
-/

namespace Svr3.S5.Map

open Function List

/-- The block sizes from 1024 on -/
inductive Size : ℕ → Prop
  | s1024 : Size 1024
  | s2048 : Size 2048
  | s4096 : Size 4096
  | s8192 : Size 8192

namespace Size

variable {bsize : ℕ}

theorem eq (h : Size bsize) : bsize = 1024 * (bsize / 1024) ∧ 0 < bsize / 1024 := by
  cases h <;> decide

theorem nindir (h : Size bsize) : FsNINDIR bsize = 256 * (bsize / 1024) := by
  cases h <;> decide

theorem nshift (h : Size bsize) : 2 ^ FsNSHIFT bsize = FsNINDIR bsize := by
  cases h <;> decide

theorem bshift (h : Size bsize) : 2 ^ FsBSHIFT bsize = bsize := by
  cases h <;> decide

theorem large (h : Size bsize) : FsBSIZE bsize = 1024 := by
  cases h <;> decide

theorem nmask (h : Size bsize) (i : ℕ) : i &&& FsNMASK bsize = i % FsNINDIR bsize := by
  rw [← h.nshift]
  have hmask : FsNMASK bsize = 2 ^ FsNSHIFT bsize - 1 := by
    rw [h.nshift]
    rfl
  rw [hmask]
  exact Nat.and_two_pow_sub_one_eq_mod i _

end Size

/-! ## The entries of a block -/

/-- The entry `i` of a block -/
def cell (bsize : ℕ) (disk : Disk) (b i : ℕ) : ℕ := disk (b * (bsize / 1024) + i / 256 : ℕ) (i % 256)

theorem entry_eq (bsize : ℕ) (disk : Disk) (b i : ℕ) :
    disk (b * (bsize / 1024) + (i >>> FsNSHIFT 1024) : ℕ) (i &&& FsNMASK 1024) = cell bsize disk b i := by
  have hshift : i >>> FsNSHIFT 1024 = i / 256 := Nat.shiftRight_eq_div_pow i 8
  have hmask : i &&& FsNMASK 1024 = i % 256 := Nat.and_two_pow_sub_one_eq_mod i 8
  rw [hshift, hmask]
  rfl

theorem chunk_apart {c b b' q q' : ℕ} (hq : q < c) (hq' : q' < c) (h : b * c + q = b' * c + q') :
    b = b' ∧ q = q' := by
  have hc : 0 < c := by omega
  have hb : b = (b * c + q) / c := by
    rw [Nat.mul_comm, Nat.mul_add_div hc, Nat.div_eq_of_lt hq, Nat.add_zero]
  have hb' : b' = (b' * c + q') / c := by
    rw [Nat.mul_comm, Nat.mul_add_div hc, Nat.div_eq_of_lt hq', Nat.add_zero]
  have heq : b = b' := by rw [hb, h, ← hb']
  refine ⟨heq, ?_⟩
  rw [heq] at h
  omega

variable {bsize : ℕ} {disk disk' : Disk} {b b' i i' nb : ℕ}

theorem Size.index (h : Size bsize) (hi : i < FsNINDIR bsize) : i / 256 < bsize / 1024 := by
  rw [h.nindir] at hi
  omega

theorem cell_update (h : Size bsize) (hi : i < FsNINDIR bsize) (hi' : i' < FsNINDIR bsize) :
    cell bsize (update disk (b * (bsize / 1024) + (i >>> FsNSHIFT 1024) : ℕ)
      (update (disk (b * (bsize / 1024) + (i >>> FsNSHIFT 1024) : ℕ)) (i &&& FsNMASK 1024) nb))
      b' i' = if b' = b ∧ i' = i then nb else cell bsize disk b' i' := by
  have hshift : i >>> FsNSHIFT 1024 = i / 256 := Nat.shiftRight_eq_div_pow i 8
  have hmask : i &&& FsNMASK 1024 = i % 256 := Nat.and_two_pow_sub_one_eq_mod i 8
  rw [hshift, hmask, cell, cell]
  by_cases hchunk : b' * (bsize / 1024) + i' / 256 = b * (bsize / 1024) + i / 256
  · obtain ⟨hb, hq⟩ := chunk_apart (h.index hi') (h.index hi) hchunk
    rw [hb, hq, update_self, update_apply]
    by_cases hlow : i' % 256 = i % 256
    · rw [if_pos hlow, if_pos ⟨rfl, by omega⟩]
    · rw [if_neg hlow, if_neg fun heq => hlow (by rw [heq.2])]
  · rw [update_of_ne (fun heq => hchunk (by exact_mod_cast heq)), if_neg]
    rintro ⟨rfl, rfl⟩
    exact hchunk rfl

/-! ## New blocks -/

theorem clear_eq (clrblk : ℤ) (n : ℕ) (disk : Disk) (blk : ℤ) :
    clear disk clrblk n blk = if clrblk ≤ blk ∧ blk < clrblk + n then fun _ => 0 else disk blk := by
  induction n generalizing disk clrblk with
  | zero =>
    rw [clear, if_neg]
    rintro ⟨hle, hlt⟩
    rw [Nat.cast_zero] at hlt
    omega
  | succ n ih =>
    rw [clear, ih, clrbuf]
    push_cast
    by_cases hblk : blk = clrblk
    · rw [hblk, update_self, ite_self, if_pos (by omega)]
    · rw [update_of_ne hblk]
      by_cases hin : clrblk + 1 ≤ blk ∧ blk < clrblk + 1 + n
      · rw [if_pos hin, if_pos (by omega)]
      · rw [if_neg hin, if_neg (by omega)]

/-- The product in `newBlock` fits into a `long`, or there are no other chunks to clear. -/
def Narrow (bsize b : ℕ) : Prop := bsize = 1024 ∨ b * bsize < 2 ^ 31

instance (bsize b : ℕ) : Decidable (Narrow bsize b) := inferInstanceAs (Decidable (_ ∨ _))

theorem newBlock_nil {s : File} (h : s.free = []) : newBlock bsize s = none := by
  rw [newBlock, s5alloc, h]

/-- The cells of a disk on which a new block was cleared -/
def Cleared (bsize b : ℕ) (disk disk' : Disk) : Prop :=
  ∀ b' i, i < FsNINDIR bsize → cell bsize disk' b' i = if b' = b then 0 else cell bsize disk b' i

/-- The product does not wrap. -/
theorem clrblk_eq (h : Size bsize) (hb : b * bsize < 2 ^ 31) :
    (long (b * bsize)).tdiv 1024 = (b * (bsize / 1024) : ℕ) := by
  have hmul : b * bsize = 1024 * (b * (bsize / 1024)) := by
    rw [Nat.mul_left_comm, ← h.eq.1]
  have hcast : (b : ℤ) * (bsize : ℤ) = 1024 * (b * (bsize / 1024) : ℕ) := by
    exact_mod_cast hmul
  have hrange : long (1024 * (b * (bsize / 1024) : ℕ)) = 1024 * (b * (bsize / 1024) : ℕ) :=
    Int.bmod_eq_of_le (by omega) (by omega)
  rw [hcast, hrange]
  exact Int.mul_tdiv_cancel_left _ (by decide)

/-- A new block is the next free one, and it is empty. -/
theorem newBlock_cons {s : File} {free : List ℕ} (h : Size bsize) (hb : Narrow bsize b)
    (hfree : s.free = b :: free) :
    ∃ disk, newBlock bsize s = some (b, { s with free := free, disk := disk }) ∧
      Cleared bsize b s.disk disk := by
  have hnb : (if bsize > 1024 then FsPTOL bsize (LTOPBLK (b * (bsize / 1024)) (FsBSIZE bsize) / (bsize / 1024))
      else FsPTOL bsize (LTOPBLK (b * (bsize / 1024)) (FsBSIZE bsize))) = b := by
    cases h <;> simp [FsPTOL, FsLRG, LTOPBLK, FsBSIZE, Nat.shiftRight_eq_div_pow] <;> omega
  refine ⟨_, by rw [newBlock, s5alloc, hfree]; dsimp only; rw [hnb], fun b' i hi => ?_⟩
  have hi' := h.index hi
  rw [cell, clear_eq, cell]
  by_cases hbb : b' = b
  · rw [if_pos hbb, hbb]
    by_cases hzero : i / 256 = 0
    · -- the first chunk
      rw [hzero, Nat.add_zero, clrbuf, update_self, ite_self]
    · rw [if_pos]
      -- the product does not wrap
      rcases hb with hone | hlong
      · rw [hone] at hi'
        omega
      · rw [clrblk_eq h hlong]
        omega
  · rw [if_neg hbb, clrbuf]
    have hother : ∀ q : ℕ, q < bsize / 1024 →
        ((b' * (bsize / 1024) + i / 256 : ℕ) : ℤ) ≠ (b * (bsize / 1024) + q : ℕ) := by
      intro q hq heq
      exact hbb (chunk_apart hi' hq (by exact_mod_cast heq)).1
    have hfirst := hother 0 h.eq.2
    rw [Nat.add_zero] at hfirst
    rw [if_neg, update_of_ne hfirst]
    rintro ⟨hle, hlt⟩
    rcases hb with hone | hlong
    · rw [hone] at hlt hle
      change _ < _ + ((0 : ℕ) : ℤ) at hlt
      omega
    · rw [clrblk_eq h hlong] at hle hlt
      have hq : b' * (bsize / 1024) + i / 256 - b * (bsize / 1024) < bsize / 1024 := by omega
      exact hother _ hq (by omega)

/-! ## The forest -/

/-- The addresses in the inode, the last three with one, two and three levels of indirection -/
def shape (bsize : ℕ) : Shape := ⟨NADDR, fun i => i - (NADDR - 4), FsNINDIR bsize⟩

/-- The block at the end of a path from the address `i` in the inode, 0 if there is none -/
def look (bsize : ℕ) (s : File) (i : ℕ) (p : List ℕ) : ℕ := walk (cell bsize s.disk) (s.s5i_addr i) p

/-- The blocks of the file are apart from each other, and the ones that `s5alloc` returns are not in use. -/
structure Inv (bsize : ℕ) (s : File) : Prop where
  sound : (shape bsize).Sound s.s5i_addr (cell bsize s.disk)
  nodup : s.free.Nodup
  fresh : ∀ b ∈ s.free, b ≠ 0 ∧ ¬(shape bsize).Used s.s5i_addr (cell bsize s.disk) b
  narrow : ∀ b ∈ s.free, Narrow bsize b

/-- Every block stays at its path. -/
def Keeps (bsize : ℕ) (s s' : File) : Prop :=
  ∀ i p, (shape bsize).Path i p → look bsize s i p ≠ 0 → look bsize s' i p = look bsize s i p

theorem Keeps.refl (s : File) : Keeps bsize s s := fun _ _ _ _ => rfl

theorem Keeps.trans {s s' s'' : File} (h : Keeps bsize s s') (h' : Keeps bsize s' s'') :
    Keeps bsize s s'' := by
  intro i p hp hne
  have heq := h i p hp hne
  rw [h' i p hp (by rw [heq]; exact hne), heq]

variable {s s' : File} {free : List ℕ} {p : List ℕ}

theorem Inv.grow (h : Inv bsize s) (hfree : s.free = b :: free) (hfree' : s'.free = free)
    (hg : (shape bsize).Grown s.s5i_addr s'.s5i_addr (cell bsize s.disk) (cell bsize s'.disk) i p b) :
    Inv bsize s' ∧ Keeps bsize s s' ∧ look bsize s' i p = b := by
  have hnodup := h.nodup
  rw [hfree] at hnodup
  refine ⟨⟨hg.sound h.sound, ?_, fun c hc => ?_, fun c hc => ?_⟩, fun _ _ hp hne => hg.keeps hp hne, ?_⟩
  · rw [hfree']
    exact (nodup_cons.mp hnodup).2
  · rw [hfree'] at hc
    have hc' := h.fresh c (by rw [hfree]; exact mem_cons_of_mem _ hc)
    refine ⟨hc'.1, fun hused => ?_⟩
    rcases hg.used hused with heq | hold
    · rw [heq] at hc
      exact (nodup_cons.mp hnodup).1 hc
    · exact hc'.2 hold
  · rw [hfree'] at hc
    exact h.narrow c (by rw [hfree]; exact mem_cons_of_mem _ hc)
  · rw [look, hg.walk hg.path, if_pos ⟨rfl, rfl⟩]

/-- A new block for an address in the inode -/
theorem Inv.slot (h : Inv bsize s) (hi : i < NADDR) (hzero : s.s5i_addr i = 0) (hfree : s.free = b :: free)
    (hcell : Cleared bsize b s.disk disk') :
    Inv bsize { s with free := free, disk := disk', s5i_addr := update s.s5i_addr i b } ∧
      Keeps bsize s { s with free := free, disk := disk', s5i_addr := update s.s5i_addr i b } ∧
      look bsize { s with free := free, disk := disk', s5i_addr := update s.s5i_addr i b } i [] =
        b := by
  have hb := h.fresh b (by rw [hfree]; exact mem_cons_self)
  refine h.grow hfree rfl ⟨⟨hi, Nat.zero_le _, nofun⟩, hzero,
    fun q j hq => absurd hq.symm (concat_ne_nil j q), hb.2, hb.1, ?_, ?_, ?_⟩
  · intro j hj
    change update s.s5i_addr i b j = _
    rw [update_apply]
    simp only [and_true]
  · intro j q x hq hne
    have hnot : ¬(j = i ∧ q ++ [x] = []) := fun hcat => concat_ne_nil x q hcat.2
    have hne' : walk (cell bsize s.disk) (s.s5i_addr j) q ≠ b := fun heq =>
      hb.2 ⟨hb.1, j, q, hq.parent, heq⟩
    rw [if_neg hnot, hcell _ _ hq.last.1, if_neg hne']
  · intro x hx
    rw [hcell _ _ hx, if_pos rfl]

/-- A new block for an entry of the block at the path `p` -/
theorem Inv.entry (h : Inv bsize s) (hp : (shape bsize).Path i (p ++ [i']))
    (hne : look bsize s i p ≠ 0) (hzero : cell bsize s.disk (look bsize s i p) i' = 0)
    (hfree : s.free = b :: free) (hcell : Cleared bsize b s.disk disk)
    (hdisk : ∀ b' x, x < FsNINDIR bsize → cell bsize disk' b' x =
      if b' = look bsize s i p ∧ x = i' then b else cell bsize disk b' x) :
    Inv bsize { s with free := free, disk := disk' } ∧ Keeps bsize s { s with free := free, disk := disk' } ∧
      look bsize { s with free := free, disk := disk' } i (p ++ [i']) = b := by
  have hb := h.fresh b (by rw [hfree]; exact mem_cons_self)
  have hparent : look bsize s i p ≠ b := fun heq => hb.2 ⟨hb.1, i, p, hp.parent, heq⟩
  refine h.grow hfree rfl ⟨hp, ?_, ?_, hb.2, hb.1, ?_, ?_, ?_⟩
  · rw [walk_concat]
    split
    · rfl
    · exact hzero
  · intro q j hq
    obtain ⟨rfl, -⟩ := append_inj' hq rfl
    exact hne
  · intro j hj
    rw [if_neg]
    exact fun heq => concat_ne_nil i' p heq.2
  · intro j q x hq hne'
    have hold : walk (cell bsize s.disk) (s.s5i_addr j) q ≠ b := fun heq =>
      hb.2 ⟨hb.1, j, q, hq.parent, heq⟩
    rw [hdisk _ _ hq.last.1, hcell _ _ hq.last.1, if_neg hold]
    by_cases hat : j = i ∧ q ++ [x] = p ++ [i']
    · obtain ⟨rfl, hcat⟩ := hat
      obtain ⟨rfl, hx⟩ := append_inj' hcat rfl
      obtain rfl := (List.cons.inj hx).1
      rw [if_pos ⟨rfl, rfl⟩, if_pos ⟨rfl, rfl⟩]
    · rw [if_neg hat, if_neg]
      rintro ⟨hwalk, rfl⟩
      obtain ⟨rfl, rfl⟩ := h.sound j q i p hq.parent hp.parent hne' hwalk
      exact hat ⟨rfl, rfl⟩
  · intro x hx
    rw [hdisk _ _ hx, if_neg fun heq => hparent heq.1.symm, hcell _ _ hx, if_pos rfl]

end Svr3.S5.Map
