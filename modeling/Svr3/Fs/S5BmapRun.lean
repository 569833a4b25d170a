import Svr3.Fs.S5BmapTree
import Svr3.Lib.Run
import Mathlib.Data.Nat.ModEq

/-!
# The block map over runs

Over any run of `s5bmap` in which the block numbers of the file system are below 2^31 bytes, or its
blocks are of 1024 bytes, the blocks of a file stay apart, and a chunk that has an address keeps it.
-/

namespace Svr3.S5.Map

variable {bsize : ℕ} {s s' : File}

/-! ## The path of a logical block -/

/-- The highest `r` digits of a block number, each an index -/
def indices (fan : ℕ) : ℕ → ℕ → List ℕ
  | 0, _ => []
  | r + 1, m => m / fan ^ r % fan :: indices fan r m

theorem length_indices (fan r m : ℕ) : (indices fan r m).length = r := by
  induction r with
  | zero => rfl
  | succ r ih => exact congrArg Nat.succ ih

theorem indices_lt {fan : ℕ} (hfan : 0 < fan) (r m : ℕ) : ∀ i ∈ indices fan r m, i < fan := by
  induction r with
  | zero => exact nofun
  | succ r ih =>
    intro i hi
    rcases List.mem_cons.mp hi with rfl | hi
    · exact Nat.mod_lt _ hfan
    · exact ih i hi

theorem indices_inj {fan r m m' : ℕ} (h : indices fan r m = indices fan r m') :
    m % fan ^ r = m' % fan ^ r := by
  induction r with
  | zero => rw [pow_zero, Nat.mod_one, Nat.mod_one]
  | succ r ih =>
    obtain ⟨hhead, htail⟩ := List.cons.inj h
    rw [Nat.mod_pow_succ, Nat.mod_pow_succ, hhead, ih htail]

/-- The address in the inode and the path from there that the block `n` of the file has -/
def place (bsize n : ℕ) : ℕ × List ℕ :=
  let fan := FsNINDIR bsize
  if n < NADDR - 3 then (n, [])
  else if n - 10 < fan then (10, indices fan 1 (n - 10))
  else if n - 10 - fan < fan ^ 2 then (11, indices fan 2 (n - 10 - fan))
  else (12, indices fan 3 (n - 10 - fan - fan ^ 2))

/-- The number of blocks that have a path -/
def limit (bsize : ℕ) : ℕ := 10 + FsNINDIR bsize + FsNINDIR bsize ^ 2 + FsNINDIR bsize ^ 3

theorem place_path (h : Size bsize) (n : ℕ) :
    (shape bsize).Path (place bsize n).1 (place bsize n).2 ∧
      (place bsize n).2.length = (shape bsize).depth (place bsize n).1 := by
  have hfan : 0 < FsNINDIR bsize := by
    rw [h.nindir]
    have hpos := h.eq.2
    omega
  rw [place]
  split
  next hn =>
    have hdepth : (shape bsize).depth n = 0 := by
      change n - 9 = 0
      rw [NADDR] at hn
      omega
    exact ⟨⟨by change n < 13; rw [NADDR] at hn; omega, Nat.zero_le _, nofun⟩, hdepth.symm⟩
  next =>
    split
    · exact ⟨⟨show 10 < NADDR by decide, (length_indices _ _ _).le, indices_lt hfan _ _⟩, length_indices _ _ _⟩
    · split
      · exact ⟨⟨show 11 < NADDR by decide, (length_indices _ _ _).le, indices_lt hfan _ _⟩, length_indices _ _ _⟩
      · exact ⟨⟨show 12 < NADDR by decide, (length_indices _ _ _).le, indices_lt hfan _ _⟩, length_indices _ _ _⟩

theorem place_inj {n n' : ℕ} (hn : n < limit bsize) (hn' : n' < limit bsize)
    (h : place bsize n = place bsize n') : n = n' := by
  rw [limit] at hn hn'
  rw [place, place] at h
  have hdigits : ∀ r m m', m < FsNINDIR bsize ^ r → m' < FsNINDIR bsize ^ r →
      indices (FsNINDIR bsize) r m = indices (FsNINDIR bsize) r m' → m = m' := by
    intro r m m' hm hm' heq
    have hmod := indices_inj heq
    rwa [Nat.mod_eq_of_lt hm, Nat.mod_eq_of_lt hm'] at hmod
  generalize FsNINDIR bsize = fan at *
  have hten : NADDR - 3 = 10 := rfl
  rw [hten] at h
  split at h
  · split at h
    · exact (Prod.mk.inj h).1
    · split at h
      · have h1 := (Prod.mk.inj h).1
        omega
      · split at h <;> have h1 := (Prod.mk.inj h).1 <;> omega
  · split at h
    · split at h
      · have h1 := (Prod.mk.inj h).1
        omega
      · split at h
        · have h2 := hdigits 1 _ _ (by rwa [pow_one]) (by rwa [pow_one]) (Prod.mk.inj h).2
          omega
        · split at h <;> exact absurd (Prod.mk.inj h).1 (by decide)
    · split at h
      · split at h
        · have h1 := (Prod.mk.inj h).1
          omega
        · split at h
          · exact absurd (Prod.mk.inj h).1 (by decide)
          · split at h
            · have h2 := hdigits 2 _ _ ‹_› ‹_› (Prod.mk.inj h).2
              omega
            · exact absurd (Prod.mk.inj h).1 (by decide)
      · split at h
        · have h1 := (Prod.mk.inj h).1
          omega
        · split at h
          · exact absurd (Prod.mk.inj h).1 (by decide)
          · split at h
            · exact absurd (Prod.mk.inj h).1 (by decide)
            · have h2 := hdigits 3 _ _ (by omega) (by omega) (Prod.mk.inj h).2
              omega

theorem levels_three {k n f1 f2 f3 : ℕ} (h1 : long (1 * 2 ^ k) = f1) (h2 : long (f1 * 2 ^ k) = f2)
    (h3 : n < f1 + f2 ∨ long (f2 * 2 ^ k) = f3 ∧ n < f1 + f2 + f3) :
    levels k 3 0 1 n =
      if n < f1 then some (3, k, (n : ℤ))
      else if n - f1 < f2 then some (2, 2 * k, ((n - f1 : ℕ) : ℤ))
      else some (1, 3 * k, ((n - f1 - f2 : ℕ) : ℤ)) := by
  rw [levels, h1]
  by_cases hn1 : n < f1
  · rw [if_pos (by omega), if_pos hn1, Nat.zero_add]
  · have hsub1 : (n : ℤ) - f1 = (n - f1 : ℕ) := by omega
    rw [if_neg (by omega), if_neg hn1, levels, h2, hsub1]
    by_cases hn2 : n - f1 < f2
    · rw [if_pos (by omega), if_pos hn2, Nat.zero_add k, Nat.two_mul]
    · have hsub2 : ((n - f1 : ℕ) : ℤ) - f2 = (n - f1 - f2 : ℕ) := by omega
      have hshift : 3 * k = k + k + k := by omega
      rw [if_neg (by omega), if_neg hn2, levels, hsub2, hshift]
      rcases h3 with hshort | ⟨h3, hlong⟩
      · omega
      · rw [h3, if_pos (by omega), Nat.zero_add k]

/-- The loop over the levels, for any offset that an `off_t` holds -/
theorem levels_eq (h : Size bsize) {n : ℕ} (hn : n * bsize < 2 ^ 31) :
    levels (FsNSHIFT bsize) 3 0 1 n =
      if n < FsNINDIR bsize then some (3, FsNSHIFT bsize, (n : ℤ))
      else if n - FsNINDIR bsize < FsNINDIR bsize ^ 2 then
        some (2, 2 * FsNSHIFT bsize, ((n - FsNINDIR bsize : ℕ) : ℤ))
      else some (1, 3 * FsNSHIFT bsize, ((n - FsNINDIR bsize - FsNINDIR bsize ^ 2 : ℕ) : ℤ)) := by
  cases h with
  | s1024 =>
    exact @levels_three _ n 256 65536 16777216 (by decide) (by decide) (.inr ⟨by decide, by omega⟩)
  | s2048 =>
    exact @levels_three _ n 512 262144 134217728 (by decide) (by decide) (.inr ⟨by decide, by omega⟩)
  | s4096 =>
    exact @levels_three _ n 1024 1048576 1073741824 (by decide) (by decide) (.inr ⟨by decide, by omega⟩)
  | s8192 =>
    -- the third shift leaves 0, but no offset is that large
    exact @levels_three _ n 2048 4194304 0 (by decide) (by decide) (.inl (by omega))

theorem levels_place (h : Size bsize) {n : ℕ} (h10 : 10 ≤ n) (hn : n * bsize < 2 ^ 31) :
    ∃ r m, 1 ≤ r ∧ r ≤ 3 ∧
      levels (FsNSHIFT bsize) 3 0 1 ((n : ℤ) - (NADDR - 3 : ℕ)) =
        some (4 - r, r * FsNSHIFT bsize, ((m : ℕ) : ℤ)) ∧
      place bsize n = (9 + r, indices (FsNINDIR bsize) r m) := by
  have hten : NADDR - 3 = 10 := rfl
  have hcast : (n : ℤ) - (10 : ℕ) = (n - 10 : ℕ) := by omega
  have hsmall : (n - 10) * bsize < 2 ^ 31 :=
    lt_of_le_of_lt (Nat.mul_le_mul_right _ (Nat.sub_le _ _)) hn
  have hplace : place bsize n = if n - 10 < FsNINDIR bsize then (10, indices (FsNINDIR bsize) 1 (n - 10))
      else if n - 10 - FsNINDIR bsize < FsNINDIR bsize ^ 2 then
        (11, indices (FsNINDIR bsize) 2 (n - 10 - FsNINDIR bsize))
      else (12, indices (FsNINDIR bsize) 3 (n - 10 - FsNINDIR bsize - FsNINDIR bsize ^ 2)) := by
    rw [place, if_neg (by omega)]
  rw [hten, hcast, levels_eq h hsmall, hplace]
  by_cases h1 : n - 10 < FsNINDIR bsize
  · rw [if_pos h1, if_pos h1]
    exact ⟨1, n - 10, le_refl 1, by decide, by rw [Nat.one_mul], rfl⟩
  · rw [if_neg h1, if_neg h1]
    by_cases h2 : n - 10 - FsNINDIR bsize < FsNINDIR bsize ^ 2
    · rw [if_pos h2, if_pos h2]
      exact ⟨2, _, by decide, by decide, rfl, rfl⟩
    · rw [if_neg h2, if_neg h2]
      exact ⟨3, _, by decide, by decide, rfl, rfl⟩

/-! ## Fetching through the indirect blocks -/

/-- An address, unless it is 0 -/
def found (b : ℕ) : Option ℕ := if b = 0 then none else some b

/-- The disk with the block `b` in the entry `i` of the block `nb` -/
def link (bsize : ℕ) (disk : Disk) (nb i b : ℕ) : Disk :=
  Function.update disk (nb * (bsize / 1024) + (i >>> FsNSHIFT 1024) : ℕ)
    (Function.update (disk (nb * (bsize / 1024) + (i >>> FsNSHIFT 1024) : ℕ)) (i &&& FsNMASK 1024) b)

theorem index_eq (h : Size bsize) (m n : ℕ) :
    ((m : ℤ) >>> ((n + 1) * FsNSHIFT bsize - FsNSHIFT bsize)).toNat &&& FsNMASK bsize =
      m / FsNINDIR bsize ^ n % FsNINDIR bsize := by
  have hsh : (n + 1) * FsNSHIFT bsize - FsNSHIFT bsize = FsNSHIFT bsize * n := by
    rw [Nat.succ_mul, Nat.add_sub_cancel, Nat.mul_comm]
  have hdiv : ((m : ℤ) >>> (FsNSHIFT bsize * n)).toNat = m >>> (FsNSHIFT bsize * n) := rfl
  rw [hsh, hdiv, h.nmask, Nat.shiftRight_eq_div_pow, pow_mul, h.nshift]

theorem fetch_succ (h : Size bsize) (readflg : Bool) (m n nb : ℕ) (s : File) :
    fetch bsize readflg m (n + 1) ((n + 1) * FsNSHIFT bsize) nb s =
      if cell bsize s.disk nb (m / FsNINDIR bsize ^ n % FsNINDIR bsize) = 0 then
        if readflg then ⟨none, none, s⟩
        else
          match newBlock bsize s with
          | none => ⟨none, some .ENOSPC, s⟩
          | some (b, s) =>
            fetch bsize readflg m n (n * FsNSHIFT bsize) b
              { s with disk := link bsize s.disk nb (m / FsNINDIR bsize ^ n % FsNINDIR bsize) b }
      else
        fetch bsize readflg m n (n * FsNSHIFT bsize)
          (cell bsize s.disk nb (m / FsNINDIR bsize ^ n % FsNINDIR bsize)) s := by
  have hsh : (n + 1) * FsNSHIFT bsize - FsNSHIFT bsize = n * FsNSHIFT bsize := by
    rw [Nat.succ_mul, Nat.add_sub_cancel]
  rw [fetch]
  simp only [index_eq h]
  rw [entry_eq bsize s.disk nb, hsh]
  rfl

/-- A call that reads follows the path. -/
theorem fetch_read (h : Size bsize) (m n : ℕ) {nb : ℕ} (hnb : nb ≠ 0) :
    fetch bsize true m n (n * FsNSHIFT bsize) nb s =
      ⟨found (walk (cell bsize s.disk) nb (indices (FsNINDIR bsize) n m)), none, s⟩ := by
  induction n generalizing nb with
  | zero =>
    rw [indices, walk_nil, found, if_neg hnb]
    rfl
  | succ n ih =>
    rw [fetch_succ h, indices, walk_cons hnb]
    split
    next hzero =>
      rw [hzero, walk_zero]
      rfl
    next hne => exact ih hne

/-- A call that writes fills the path. -/
theorem fetch_write (h : Size bsize) {i m n nb : ℕ} {p : List ℕ} (hinv : Inv bsize s)
    (hnb : look bsize s i p = nb) (hne : nb ≠ 0)
    (hpath : (shape bsize).Path i (p ++ indices (FsNINDIR bsize) n m)) :
    Inv bsize (fetch bsize false m n (n * FsNSHIFT bsize) nb s).file ∧
      Keeps bsize s (fetch bsize false m n (n * FsNSHIFT bsize) nb s).file ∧
      ∀ v, (fetch bsize false m n (n * FsNSHIFT bsize) nb s).ret = some v →
        v ≠ 0 ∧ look bsize (fetch bsize false m n (n * FsNSHIFT bsize) nb s).file i
          (p ++ indices (FsNINDIR bsize) n m) = v := by
  induction n generalizing p nb s with
  | zero =>
    refine ⟨hinv, Keeps.refl s, fun v hv => ?_⟩
    rw [← Option.some.inj hv, indices, List.append_nil]
    exact ⟨hne, hnb⟩
  | succ n ih =>
    rw [indices, List.append_cons] at hpath ⊢
    have hstep := hpath.left
    rw [fetch_succ h]
    generalize m / FsNINDIR bsize ^ n % FsNINDIR bsize = x at *
    split
    next hzero =>
      rw [if_neg Bool.false_ne_true]
      rcases hfree : s.free with _ | ⟨b, free⟩
      · rw [newBlock_nil hfree]
        exact ⟨hinv, Keeps.refl s, nofun⟩
      · have hmem : b ∈ s.free := by
          rw [hfree]
          exact List.mem_cons_self
        obtain ⟨disk, hnew, hcleared⟩ := newBlock_cons h (hinv.narrow b hmem) hfree
        rw [hnew]
        -- the entry leads to the new block
        have hlink : ∀ b' y, y < FsNINDIR bsize → cell bsize (link bsize disk nb x b) b' y =
            if b' = look bsize s i p ∧ y = x then b else cell bsize disk b' y := by
          intro b' y hy
          rw [hnb]
          exact cell_update h hstep.last.1 hy
        obtain ⟨hinv', hkeeps, hlook⟩ := hinv.entry hstep (by rw [hnb]; exact hne)
          (by rw [hnb]; exact hzero) hfree hcleared hlink
        obtain ⟨hinv'', hkeeps', hret⟩ := ih hinv' hlook (hinv.fresh b hmem).1 hpath
        exact ⟨hinv'', hkeeps.trans hkeeps', hret⟩
    next hne' =>
      have hlook : look bsize s i (p ++ [x]) = cell bsize s.disk nb x := by
        rw [look, walk_concat]
        rw [look] at hnb
        rw [hnb, if_neg hne]
      exact ih hinv hlook hne' hpath

/-! ## The block of a logical block -/

theorem block_read (h : Size bsize) {n : ℕ} (hn : n * bsize < 2 ^ 31) :
    block bsize true n s = ⟨found (look bsize s (place bsize n).1 (place bsize n).2), none, s⟩ := by
  rw [block]
  by_cases h10 : n < 10
  · have hplace : place bsize n = (n, []) := if_pos h10
    have hnat : (n : ℤ).toNat = n := rfl
    rw [if_pos (by change (n : ℤ) < (10 : ℕ); omega), hplace, slot, hnat, look, walk_nil, found]
    by_cases hzero : s.s5i_addr n = 0
    · rw [if_pos hzero, if_pos hzero]
      rfl
    · rw [if_neg hzero, if_neg hzero]
  · rw [if_neg (by change ¬(n : ℤ) < (10 : ℕ); omega)]
    obtain ⟨r, m, hr1, hr3, hlevels, hplace⟩ := levels_place h (Nat.le_of_not_lt h10) hn
    have hslot : NADDR - (4 - r) = 9 + r := by
      change 13 - (4 - r) = 9 + r
      omega
    have hcount : 4 - (4 - r) = r := by omega
    rw [hlevels, hplace]
    dsimp only
    rw [hslot, hcount, slot]
    split
    next hzero =>
      rw [look, hzero, walk_zero]
      rfl
    next hne => exact fetch_read h m r hne

theorem block_write (h : Size bsize) {n : ℕ} (hn : n * bsize < 2 ^ 31) (hinv : Inv bsize s) :
    Inv bsize (block bsize false n s).file ∧ Keeps bsize s (block bsize false n s).file ∧
      ∀ v, (block bsize false n s).ret = some v →
        v ≠ 0 ∧ look bsize (block bsize false n s).file (place bsize n).1 (place bsize n).2 = v := by
  -- an address in the inode, and what is done with it
  have hslot : ∀ i (next : ℕ → File → Bmap) p, i < NADDR →
      (∀ nb t, Inv bsize t → look bsize t i [] = nb → nb ≠ 0 →
        Inv bsize (next nb t).file ∧ Keeps bsize t (next nb t).file ∧
          ∀ v, (next nb t).ret = some v → v ≠ 0 ∧ look bsize (next nb t).file i p = v) →
      Inv bsize (slot bsize false i s next).file ∧ Keeps bsize s (slot bsize false i s next).file ∧
        ∀ v, (slot bsize false i s next).ret = some v →
          v ≠ 0 ∧ look bsize (slot bsize false i s next).file i p = v := by
    intro i next p hi hnext
    rw [slot]
    split
    next hzero =>
      rw [if_neg Bool.false_ne_true]
      rcases hfree : s.free with _ | ⟨b, free⟩
      · rw [newBlock_nil hfree]
        exact ⟨hinv, Keeps.refl s, nofun⟩
      · have hmem : b ∈ s.free := by
          rw [hfree]
          exact List.mem_cons_self
        obtain ⟨disk, hnew, hcleared⟩ := newBlock_cons h (hinv.narrow b hmem) hfree
        rw [hnew]
        obtain ⟨hinv', hkeeps, hlook⟩ := hinv.slot hi hzero hfree hcleared
        obtain ⟨hinv'', hkeeps', hret⟩ := hnext b _ hinv' hlook (hinv.fresh b hmem).1
        exact ⟨hinv'', hkeeps.trans hkeeps', hret⟩
    next hne => exact hnext _ s hinv rfl hne
  obtain ⟨hpath, hdepth⟩ := place_path h n
  rw [block]
  by_cases h10 : n < 10
  · have hplace : place bsize n = (n, []) := if_pos h10
    rw [hplace] at hpath ⊢
    rw [if_pos (by change (n : ℤ) < (10 : ℕ); omega)]
    apply hslot n _ [] hpath.root
    intro nb t ht hlook hne
    refine ⟨ht, Keeps.refl t, fun v hv => ?_⟩
    rw [← Option.some.inj hv]
    exact ⟨hne, hlook⟩
  · rw [if_neg (by change ¬(n : ℤ) < (10 : ℕ); omega)]
    obtain ⟨r, m, hr1, hr3, hlevels, hplace⟩ := levels_place h (Nat.le_of_not_lt h10) hn
    have hindex : NADDR - (4 - r) = 9 + r := by
      change 13 - (4 - r) = 9 + r
      omega
    have hcount : 4 - (4 - r) = r := by omega
    rw [hplace] at hpath ⊢
    rw [hlevels]
    dsimp only
    rw [hindex, hcount]
    apply hslot (9 + r) _ _ hpath.root
    intro nb t ht hlook hne
    exact fetch_write h (p := []) ht hlook hne hpath

/-! ## The calls -/

/-- The address of a chunk of the file -/
def mapped (bsize : ℕ) (s : File) (q : ℕ) : Option ℕ :=
  (found (look bsize s (place bsize (q / (bsize / 1024))).1 (place bsize (q / (bsize / 1024))).2)).map
    fun b => b * (bsize / 1024) + q % (bsize / 1024)

theorem bn_eq (h : Size bsize) (q : ℕ) : (q : ℤ) >>> FsBSHIFT bsize = (q / bsize : ℕ) := by
  have hshift : (q : ℤ) >>> FsBSHIFT bsize = (q >>> FsBSHIFT bsize : ℕ) := rfl
  rw [hshift, Nat.shiftRight_eq_div_pow, h.bshift]

theorem chunk_eq (h : Size bsize) (q nb : ℕ) :
    chunk bsize q nb = nb * (bsize / 1024) + q / 1024 % (bsize / 1024) := by
  have hshift : ((q : ℤ) >>> 10).toNat = q / 1024 := Nat.shiftRight_eq_div_pow q 10
  rw [chunk, hshift]
  cases h with
  | s1024 => rw [if_neg (by decide), Nat.div_self (by decide), Nat.mod_one, Nat.mul_one, Nat.add_zero]
  | s2048 => exact congrArg (nb * 2 + ·) (Nat.and_two_pow_sub_one_eq_mod _ 1)
  | s4096 => exact congrArg (nb * 4 + ·) (Nat.and_two_pow_sub_one_eq_mod _ 2)
  | s8192 => exact congrArg (nb * 8 + ·) (Nat.and_two_pow_sub_one_eq_mod _ 3)

theorem Size.div (h : Size bsize) (q : ℕ) : q / 1024 / (bsize / 1024) = q / bsize := by
  rw [Nat.div_div_eq_div_mul, ← h.eq.1]

theorem s5bmap_negative (readflg : Bool) (io : Io) (hneg : io.u_offset < 0) :
    s5bmap bsize readflg io s = ⟨none, some .EFBIG, s⟩ := by
  have hbn : io.u_offset >>> FsBSHIFT bsize < 0 := by
    rw [Int.shiftRight_eq_div_pow]
    exact Int.ediv_neg_of_neg_of_pos hneg (Int.natCast_pos.mpr (Nat.two_pow_pos _))
  rw [s5bmap, if_pos hbn]

/-- The call for an offset that is not negative -/
theorem s5bmap_eq (h : Size bsize) (readflg : Bool) (io : Io) {q : ℕ} (hq : io.u_offset = q) (s : File) :
    ∃ l, s5bmap bsize readflg io s =
      if readflg = false ∧ io.u_offset ≥ io.u_limit * 2 ^ 9 % 2 ^ 32 then
        ⟨none, some .EFBIG, { s with s5i_lastr := l }⟩
      else if readflg = true ∧ ¬(0 < io.u_count ∧ (q : ℤ) < s.i_size) then
        ⟨none, none, { s with s5i_lastr := l }⟩
      else
        { block bsize readflg (q / bsize : ℕ) { s with s5i_lastr := l } with
          ret := (block bsize readflg (q / bsize : ℕ) { s with s5i_lastr := l }).ret.map fun b =>
            b * (bsize / 1024) + q / 1024 % (bsize / 1024) } := by
  obtain ⟨l, hl⟩ : ∃ l, (if (io.u_count : ℤ) < FsBSIZE bsize - io.u_offset % FsBSIZE bsize then s
      else { s with s5i_lastr := io.u_offset >>> FsBSHIFT bsize }) = { s with s5i_lastr := l } := by
    split
    · exact ⟨s.s5i_lastr, rfl⟩
    · exact ⟨_, rfl⟩
  have hchunk : chunk bsize io.u_offset = fun b => b * (bsize / 1024) + q / 1024 % (bsize / 1024) := by
    funext b
    rw [hq]
    exact chunk_eq h q b
  have hbn : ¬io.u_offset >>> FsBSHIFT bsize < 0 := by
    rw [hq, bn_eq h]
    exact Int.not_lt.mpr (Int.natCast_nonneg _)
  refine ⟨l, ?_⟩
  rw [s5bmap, if_neg hbn]
  dsimp only
  rw [hl, hchunk]
  cases readflg with
  | false =>
    by_cases hlimit : io.u_offset ≥ io.u_limit * 2 ^ 9 % 2 ^ 32
    · rw [if_pos rfl, if_pos hlimit, if_pos ⟨rfl, hlimit⟩]
      rfl
    · rw [if_pos rfl, if_neg hlimit, if_neg fun hand => hlimit hand.2,
        if_neg fun hand => Bool.false_ne_true hand.1, hq, bn_eq h]
  | true =>
    have hrem : (if (if s.i_size - (q : ℤ) < 0 then 0 else s.i_size - (q : ℤ)) <
          (if (io.u_count : ℤ) < (1024 : ℕ) - (q : ℤ) % (1024 : ℕ) then (io.u_count : ℤ)
            else (1024 : ℕ) - (q : ℤ) % (1024 : ℕ)) then
          (if s.i_size - (q : ℤ) < 0 then 0 else s.i_size - (q : ℤ))
        else (if (io.u_count : ℤ) < (1024 : ℕ) - (q : ℤ) % (1024 : ℕ) then (io.u_count : ℤ)
            else (1024 : ℕ) - (q : ℤ) % (1024 : ℕ))) = 0 ↔
        ¬(0 < io.u_count ∧ (q : ℤ) < s.i_size) := by
      split <;> split <;> omega
    rw [if_neg (show ¬true = false by decide), h.large, hq, bn_eq h,
      if_neg (fun hand => absurd hand.1 (by decide) : ¬(true = false ∧ _))]
    simp only [hrem, true_and]
    split
    · rfl
    · rfl

theorem s5bmap_read (h : Size bsize) {io : Io} {q : ℕ} (hq : io.u_offset = q) (s : File) :
    (s5bmap bsize true io s).ret =
        (if 0 < io.u_count ∧ (q : ℤ) < s.i_size then mapped bsize s (q / 1024) else none) ∧
      ∃ l, (s5bmap bsize true io s).file = { s with s5i_lastr := l } := by
  obtain ⟨l, heq⟩ := s5bmap_eq h true io hq s
  have hlt : q / bsize * bsize < 2 ^ 31 := by
    have hle := Nat.div_mul_le_self q bsize
    have hoff := io.off_t.2
    omega
  rw [heq, if_neg fun hand => Bool.false_ne_true hand.1.symm]
  by_cases hin : 0 < io.u_count ∧ (q : ℤ) < s.i_size
  · rw [if_neg fun hand => hand.2 hin, block_read h hlt, if_pos hin, mapped, h.div]
    exact ⟨rfl, l, rfl⟩
  · rw [if_pos ⟨rfl, hin⟩, if_neg hin]
    exact ⟨rfl, l, rfl⟩

theorem s5bmap_write (h : Size bsize) {io : Io} {q : ℕ} (hq : io.u_offset = q) (hinv : Inv bsize s) :
    Inv bsize (s5bmap bsize false io s).file ∧ Keeps bsize s (s5bmap bsize false io s).file ∧
      ∀ a, (s5bmap bsize false io s).ret = some a →
        mapped bsize (s5bmap bsize false io s).file (q / 1024) = some a := by
  obtain ⟨l, heq⟩ := s5bmap_eq h false io hq s
  have hlt : q / bsize * bsize < 2 ^ 31 := by
    have hle := Nat.div_mul_le_self q bsize
    have hoff := io.off_t.2
    omega
  have hinv' : Inv bsize { s with s5i_lastr := l } := ⟨hinv.sound, hinv.nodup, hinv.fresh, hinv.narrow⟩
  rw [heq, if_neg (fun hand => Bool.false_ne_true hand.1 : ¬(false = true ∧ _))]
  split
  · exact ⟨hinv', fun _ _ _ _ => rfl, nofun⟩
  · obtain ⟨hnext, hkeeps, hret⟩ := block_write h hlt hinv'
    refine ⟨hnext, hkeeps, fun a ha => ?_⟩
    obtain ⟨v, hv, rfl⟩ := Option.map_eq_some_iff.mp ha
    obtain ⟨hne, hlook⟩ := hret v hv
    rw [mapped, h.div]
    dsimp only
    rw [hlook, found, if_neg hne]
    rfl

/-! ## Runs -/

/-- Blocks that are not in use, for `s5alloc` to return -/
def Fresh (bsize : ℕ) (s : File) (free : List ℕ) : Prop :=
  free.Nodup ∧ ∀ b ∈ free, b ≠ 0 ∧ ¬(shape bsize).Used s.s5i_addr (cell bsize s.disk) b

/-- A call of `s5bmap`, with the blocks that `s5alloc` returns in it, or what the users of the file and of
other files do in between: they change the size and the blocks without entries of this file. -/
inductive Act
  | bmap (readflg : Bool) (io : Io) (free : List ℕ)
  | other (i_size : ℤ) (disk : Disk)

/-- What a call returns and leaves -/
def call (bsize : ℕ) (s : File) (readflg : Bool) (io : Io) (free : List ℕ) : Bmap :=
  s5bmap bsize readflg io { s with free := free }

inductive Step (bsize : ℕ) : File → Act → File → Prop
  | bmap {s : File} (readflg : Bool) (io : Io) (free : List ℕ) (h : Fresh bsize s free) :
      Step bsize s (.bmap readflg io free) (call bsize s readflg io free).file
  | other {s : File} (i_size : ℤ) (disk : Disk)
      (h : ∀ b i, (shape bsize).Inner s.s5i_addr (cell bsize s.disk) b → i < FsNINDIR bsize →
        cell bsize disk b i = cell bsize s.disk b i) :
      Step bsize s (.other i_size disk) { s with i_size := i_size, disk := disk }

/-- The blocks that `s5alloc` returns have byte addresses that fit into a `long`, or one chunk. -/
def Act.Narrow (bsize : ℕ) : Act → Prop
  | .bmap _ _ free => ∀ b ∈ free, Map.Narrow bsize b
  | .other _ _ => True

/-- A step in which the block numbers are narrow -/
def NarrowStep (bsize : ℕ) (s : File) (a : Act) (t : File) : Prop := Step bsize s a t ∧ a.Narrow bsize

/-- The blocks of the file are apart. -/
def Apart (bsize : ℕ) (s : File) : Prop := (shape bsize).Sound s.s5i_addr (cell bsize s.disk)

theorem call_spec (h : Size bsize) (hs : Apart bsize s) (readflg : Bool) (io : Io) {free : List ℕ}
    (hfresh : Fresh bsize s free) (hnarrow : ∀ b ∈ free, Narrow bsize b) :
    Apart bsize (call bsize s readflg io free).file ∧
      Keeps bsize s (call bsize s readflg io free).file ∧
      ∀ a, (call bsize s readflg io free).ret = some a → ∃ q : ℕ, io.u_offset = q ∧
        mapped bsize (call bsize s readflg io free).file (q / 1024) = some a := by
  have hinv : Inv bsize { s with free := free } := ⟨hs, hfresh.1, hfresh.2, hnarrow⟩
  by_cases hneg : io.u_offset < 0
  · rw [call, s5bmap_negative readflg io hneg]
    exact ⟨hs, Keeps.refl s, nofun⟩
  · obtain ⟨q, hq⟩ : ∃ q : ℕ, io.u_offset = q := ⟨io.u_offset.toNat, by omega⟩
    cases readflg with
    | false =>
      obtain ⟨hinv', hkeeps, hret⟩ := s5bmap_write h hq hinv
      exact ⟨hinv'.sound, hkeeps, fun a ha => ⟨q, hq, hret a ha⟩⟩
    | true =>
      obtain ⟨hret, l, hfile⟩ := s5bmap_read h hq { s with free := free }
      rw [call, hfile, hret]
      refine ⟨hs, fun _ _ _ _ => rfl, fun a ha => ⟨q, hq, ?_⟩⟩
      split at ha
      · exact ha
      · exact absurd ha nofun

theorem step_apart (h : Size bsize) {a : Act} (hs : Apart bsize s) (hstep : NarrowStep bsize s a s') :
    Apart bsize s' ∧ Keeps bsize s s' := by
  obtain ⟨hstep, hnarrow⟩ := hstep
  cases hstep with
  | bmap readflg io free hfresh =>
    obtain ⟨happ, hkeeps, -⟩ := call_spec h hs readflg io hfresh hnarrow
    exact ⟨happ, hkeeps⟩
  | other i_size disk hdisk =>
    exact ⟨hs.congr (fun _ _ => rfl) hdisk, fun i p hp _ => Shape.walk_congr (fun _ _ => rfl) hdisk hp⟩

theorem run_apart (h : Size bsize) {as : List Act} (hs : Apart bsize s)
    (hrun : Run (NarrowStep bsize) s as s') : Apart bsize s' ∧ Keeps bsize s s' := by
  induction hrun with
  | nil s => exact ⟨hs, Keeps.refl s⟩
  | cons hstep _ ih =>
    obtain ⟨hs', hkeeps⟩ := step_apart h hs hstep
    obtain ⟨hs'', hkeeps'⟩ := ih hs'
    exact ⟨hs'', hkeeps.trans hkeeps'⟩

theorem mapped_keeps (h : Keeps bsize s s') (hsize : Size bsize) {q a : ℕ} (ha : mapped bsize s q = some a) :
    mapped bsize s' q = some a := by
  rw [mapped] at ha ⊢
  obtain ⟨v, hv, rfl⟩ := Option.map_eq_some_iff.mp ha
  rw [found] at hv
  split at hv
  · exact absurd hv nofun
  next hne =>
    rw [h _ _ (place_path hsize _).1 hne, found, if_neg hne, hv]
    rfl

/-- A chunk with an address is part of a block at the end of a full path. -/
theorem mapped_block (hsize : Size bsize) {q a : ℕ} (ha : mapped bsize s q = some a) :
    look bsize s (place bsize (q / (bsize / 1024))).1 (place bsize (q / (bsize / 1024))).2 ≠ 0 ∧
      a / (bsize / 1024) =
        look bsize s (place bsize (q / (bsize / 1024))).1 (place bsize (q / (bsize / 1024))).2 ∧
      a % (bsize / 1024) = q % (bsize / 1024) := by
  have hpos := hsize.eq.2
  rw [mapped] at ha
  obtain ⟨v, hv, rfl⟩ := Option.map_eq_some_iff.mp ha
  rw [found] at hv
  split at hv
  · exact absurd hv nofun
  next hne =>
    have hlt := Nat.mod_lt q hpos
    rw [← Option.some.inj hv, Nat.mul_comm, Nat.mul_add_div hpos, Nat.div_eq_of_lt hlt, Nat.add_zero,
      Nat.mul_add_mod, Nat.mod_mod]
    exact ⟨hne, rfl, rfl⟩

theorem mapped_inj (hsize : Size bsize) (hs : Apart bsize s) {q q' a : ℕ}
    (hq : q / (bsize / 1024) < limit bsize) (hq' : q' / (bsize / 1024) < limit bsize)
    (ha : mapped bsize s q = some a) (ha' : mapped bsize s q' = some a) : q = q' := by
  obtain ⟨hne, hdiv, hmod⟩ := mapped_block hsize ha
  obtain ⟨-, hdiv', hmod'⟩ := mapped_block hsize ha'
  obtain ⟨h1, h2⟩ := hs _ _ _ _ (place_path hsize _).1 (place_path hsize _).1 hne (hdiv.symm.trans hdiv')
  have heq := place_inj hq hq' (Prod.ext h1 h2)
  rw [← Nat.div_add_mod q (bsize / 1024), ← Nat.div_add_mod q' (bsize / 1024), heq, ← hmod, hmod']

theorem mapped_outside (hsize : Size bsize) (hs : Apart bsize s) {q a b : ℕ}
    (ha : mapped bsize s q = some a) (hb : (shape bsize).Inner s.s5i_addr (cell bsize s.disk) b) :
    a / (bsize / 1024) ≠ b := by
  obtain ⟨hne, hdiv, -⟩ := mapped_block hsize ha
  obtain ⟨hb0, i, p, hp, hlen, rfl⟩ := hb
  intro heq
  obtain ⟨rfl, rfl⟩ := hs _ _ _ _ hp (place_path hsize _).1 hb0 (heq.symm.trans hdiv)
  exact absurd (place_path hsize _).2 (Nat.ne_of_lt hlen)

/-- No offset that an `off_t` holds is beyond the limit. -/
theorem off_t_limit (hsize : Size bsize) {q : ℕ} (hq : q < 2 ^ 31) : q / bsize < limit bsize := by
  cases hsize with
  | s1024 =>
    have hlimit : limit 1024 = 10 + 256 + 65536 + 16777216 := by decide
    omega
  | s2048 =>
    have hlimit : limit 2048 = 10 + 512 + 262144 + 134217728 := by decide
    omega
  | s4096 =>
    have hlimit : limit 4096 = 10 + 1024 + 1048576 + 1073741824 := by decide
    omega
  | s8192 =>
    have hlimit : limit 8192 = 10 + 2048 + 4194304 + 8589934592 := by decide
    omega

/-- What holds of the calls for a file -/
structure Maps (bsize : ℕ) (step : File → Act → File → Prop) (s : File) : Prop where
  /-- An address that a call returns is the one that later calls return for the chunk. -/
  stays : ∀ readflg io free as t io' free' a, step s (.bmap readflg io free) (call bsize s readflg io free).file →
    (call bsize s readflg io free).ret = some a → Run step (call bsize s readflg io free).file as t →
    0 ≤ io'.u_offset → io'.u_offset / 1024 = io.u_offset / 1024 → 0 < io'.u_count →
    io'.u_offset < t.i_size → (call bsize t true io' free').ret = some a
  /-- Different chunks have different addresses. -/
  apart : ∀ readflg io free as t readflg' io' free' a a',
    step s (.bmap readflg io free) (call bsize s readflg io free).file →
    (call bsize s readflg io free).ret = some a → Run step (call bsize s readflg io free).file as t →
    step t (.bmap readflg' io' free') (call bsize t readflg' io' free').file →
    (call bsize t readflg' io' free').ret = some a' → io'.u_offset / 1024 ≠ io.u_offset / 1024 → a ≠ a'
  /-- The addresses are outside of the indirect blocks. -/
  outside : ∀ readflg io free as t a b, step s (.bmap readflg io free) (call bsize s readflg io free).file →
    (call bsize s readflg io free).ret = some a → Run step (call bsize s readflg io free).file as t →
    (shape bsize).Inner t.s5i_addr (cell bsize t.disk) b → a / (bsize / 1024) ≠ b
  /-- Offsets that no path is for -/
  beyond : ∀ readflg io, io.u_offset < 0 ∨ ((limit bsize * bsize : ℕ) : ℤ) ≤ io.u_offset →
    s5bmap bsize readflg io s = ⟨none, some .EFBIG, s⟩

theorem maps_of_apart (h : Size bsize) (hs : Apart bsize s) : Maps bsize (NarrowStep bsize) s := by
  have hcall : ∀ {s : File} {readflg io free}, Apart bsize s →
      NarrowStep bsize s (.bmap readflg io free) (call bsize s readflg io free).file →
      Apart bsize (call bsize s readflg io free).file ∧
        ∀ a, (call bsize s readflg io free).ret = some a → ∃ q : ℕ, io.u_offset = q ∧
          mapped bsize (call bsize s readflg io free).file (q / 1024) = some a := by
    rintro s readflg io free hs ⟨hstep, hnarrow⟩
    have hfresh : Fresh bsize s free := by
      generalize (call bsize s readflg io free).file = t at hstep
      cases hstep with
      | bmap _ _ _ hfresh => exact hfresh
    obtain ⟨happ, -, hret⟩ := call_spec h hs readflg io hfresh hnarrow
    exact ⟨happ, hret⟩
  refine ⟨?_, ?_, ?_, ?_⟩
  · intro readflg io free as t io' free' a hstep ha hrun h0 hchunk hcount hsize
    obtain ⟨happ, hret⟩ := hcall hs hstep
    obtain ⟨q, hq, hmap⟩ := hret a ha
    obtain ⟨-, hkeeps⟩ := run_apart h happ hrun
    obtain ⟨q', hq'⟩ : ∃ q' : ℕ, io'.u_offset = q' := ⟨io'.u_offset.toNat, by omega⟩
    have hsame : q' / 1024 = q / 1024 := by omega
    rw [call, (s5bmap_read h hq' _).1, if_pos ⟨hcount, by rw [← hq']; exact hsize⟩, hsame]
    exact mapped_keeps hkeeps h hmap
  · intro readflg io free as t readflg' io' free' a a' hstep ha hrun hstep' ha' hchunk heq
    obtain ⟨happ, hret⟩ := hcall hs hstep
    obtain ⟨q, hq, hmap⟩ := hret a ha
    obtain ⟨happ', hkeeps⟩ := run_apart h happ hrun
    obtain ⟨happ'', hret'⟩ := hcall happ' hstep'
    obtain ⟨q', hq', hmap'⟩ := hret' a' ha'
    obtain ⟨-, hkeeps'⟩ := step_apart h happ' hstep'
    have hkept := mapped_keeps hkeeps' h (mapped_keeps hkeeps h hmap)
    have hoff := io.off_t.2
    have hoff' := io'.off_t.2
    rw [← heq] at hmap'
    have hq1 : q / 1024 / (bsize / 1024) < limit bsize := by
      rw [h.div]
      exact off_t_limit h (by omega)
    have hq2 : q' / 1024 / (bsize / 1024) < limit bsize := by
      rw [h.div]
      exact off_t_limit h (by omega)
    have hsame := mapped_inj h happ'' hq1 hq2 hkept hmap'
    omega
  · intro readflg io free as t a b hstep ha hrun hb
    obtain ⟨happ, hret⟩ := hcall hs hstep
    obtain ⟨q, -, hmap⟩ := hret a ha
    obtain ⟨happ', hkeeps⟩ := run_apart h happ hrun
    exact mapped_outside h happ' (mapped_keeps hkeeps h hmap) hb
  · intro readflg io hbeyond
    rcases hbeyond with hneg | hlarge
    · exact s5bmap_negative readflg io hneg
    · obtain ⟨q, hq⟩ : ∃ q : ℕ, io.u_offset = q := ⟨io.u_offset.toNat, by omega⟩
      have hoff := io.off_t.2
      have hlt := off_t_limit h (show q < 2 ^ 31 by omega)
      have hle : limit bsize * bsize ≤ q := by
        rw [hq] at hlarge
        exact Int.ofNat_le.mp hlarge
      have hpos : 0 < bsize := by
        rw [← h.bshift]
        exact Nat.two_pow_pos _
      exact absurd ((Nat.le_div_iff_mul_le hpos).mpr hle) (Nat.not_le_of_lt hlt)

/-- An empty file, on a disk with any contents -/
def File.empty (s : File) : Prop := ∀ i, s.s5i_addr i = 0

/-- As long as the blocks that `s5alloc` returns have byte addresses below 2^31, or the block size is
1024, `s5bmap` maps the chunks of a file one to one, and for good. -/
theorem s5bmap_maps {as : List Act} (h : Size bsize) (hempty : s.empty)
    (hrun : Run (NarrowStep bsize) s as s') : Maps bsize (NarrowStep bsize) s' :=
  maps_of_apart h (run_apart h (Shape.sound_empty fun i _ => hempty i) hrun).1

theorem fresh_empty {free : List ℕ} (h : s.empty) (hnodup : free.Nodup) (h0 : 0 ∉ free) :
    Fresh bsize s free := by
  refine ⟨hnodup, fun b hb => ⟨fun heq => h0 (heq ▸ hb), ?_⟩⟩
  rintro ⟨hne, i, p, -, hwalk⟩
  rw [h i, walk_zero] at hwalk
  exact hne hwalk.symm

/-- An empty file on a disk with the address 5 in every entry -/
def stale : File := ⟨fun _ => 0, 0, 3000000, fun _ _ => 5, []⟩

/-- The blocks 310 and 311 of 8192 bytes -/
def io310 : Io := ⟨310 * 8192, 8192, 100000, by decide⟩

def io311 : Io := ⟨311 * 8192, 8192, 100000, by decide⟩

/-- A call that allocates the blocks 100 and 101 -/
theorem s5bmap_maps_one :
    Maps 8192 (NarrowStep 8192) (call 8192 stale false io310 [100, 101]).file :=
  s5bmap_maps .s8192 (fun _ => rfl)
    (.single ⟨.bmap false io310 [100, 101] (fresh_empty (fun _ => rfl) (by decide) (by decide)),
      show ∀ b ∈ [100, 101], Narrow 8192 b by decide⟩)

/-- The indirect block 262144 begins 2^31 bytes from the start of the disk. Only its first chunk is
cleared. -/
theorem stale_entries :
    ¬∀ bsize (s s' : File) as, Size bsize → s.empty → Run (Step bsize) s as s' →
      Maps bsize (Step bsize) s' := by
  intro h
  have hmaps := h 8192 stale stale [] .s8192 (fun _ => rfl) (.nil stale)
  have hstep : Step 8192 stale (.bmap false io310 [262144]) (call 8192 stale false io310 [262144]).file :=
    .bmap false io310 [262144] (fresh_empty (fun _ => rfl) (by decide) (by decide))
  refine hmaps.apart false io310 [262144] [] _ false io311 [] 40 40 hstep (by decide) (.nil _)
    (.bmap false io311 [] ⟨List.nodup_nil, nofun⟩) (by decide) (by decide) rfl

end Svr3.S5.Map
