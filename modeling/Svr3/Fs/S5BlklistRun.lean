import Svr3.Fs.S5Blklist
import Svr3.Fs.S5BmapRun
import Mathlib.Tactic.Ring

/-!
# The block list against the block map

The list holds for each block what the words lead to that are read along its path, in block 0 of the disk too
when an indirect block is missing. Where nothing is missing that is the block `s5bmap` finds.
-/

namespace Svr3.S5.Map

open List

variable {bsize : ℕ}

/-! ## The entries of a list -/

/-- Where the words along a path lead to, which a missing block does not end -/
def stray (cell : ℕ → ℕ → ℕ) : ℕ → List ℕ → ℕ
  | b, [] => b
  | b, i :: p => stray cell (cell b i) p

theorem range_min_add (r s t : ℕ) (f : ℕ → ℕ) :
    (List.range (min r (s + t))).map f =
      (List.range (min r s)).map f ++ (List.range (min (r - min r s) t)).map fun m => f (s + m) := by
  by_cases h : r ≤ s
  · rw [min_eq_left h, min_eq_left (h.trans (Nat.le_add_right s t)), Nat.sub_self, Nat.zero_min,
      range_zero, map_nil, append_nil]
  · have hs : min r s = s := min_eq_right (Nat.le_of_not_le h)
    have hsum : min r (s + t) = s + min (r - s) t := by omega
    rw [hs, hsum, range_add, map_append, map_map]
    rfl

/-- Each word fills `size` entries, or what room there is -/
theorem bldwords_eq {eptr size : ℕ} {next : ℕ → List ℕ → List ℕ} {g : ℕ → ℕ → ℕ} (hsize : 0 < size)
    (hnext : ∀ b lp, lp.length < eptr →
      next b lp = lp ++ (List.range (min (eptr - lp.length) size)).map (g b))
    (words : ℕ → ℕ) (cnt bnptr : ℕ) (lp : List ℕ) :
    bldwords eptr next words cnt bnptr lp =
      lp ++ (List.range (min (eptr - lp.length) (cnt * size))).map fun m =>
        g (words (bnptr + m / size)) (m % size) := by
  induction cnt generalizing bnptr lp with
  | zero => simp [bldwords]
  | succ cnt ih =>
    rw [bldwords]
    split
    next hroom =>
      have hlen : (next (words bnptr) lp).length = lp.length + min (eptr - lp.length) size := by
        rw [hnext _ _ hroom, length_append, length_map, length_range]
      rw [ih, hlen, hnext _ _ hroom, Nat.succ_mul, Nat.add_comm (cnt * size), range_min_add,
        ← append_assoc, Nat.sub_add_eq]
      congr 1
      · congr 1
        refine map_congr_left fun m hm => ?_
        have hm := mem_range.mp hm
        have hlt : m < size := by omega
        rw [Nat.div_eq_of_lt hlt, Nat.mod_eq_of_lt hlt, Nat.add_zero]
      · refine map_congr_left fun m _ => ?_
        rw [Nat.add_div_left _ hsize, Nat.add_mod_left, Nat.add_assoc, Nat.add_comm 1]
    next hfull =>
      rw [Nat.sub_eq_zero_of_le (Nat.le_of_not_lt hfull), Nat.zero_min]
      simp

theorem bldbufs_words (eptr : ℕ) (next : ℕ → List ℕ → List ℕ) (disk : Disk) (n blknbr : ℕ)
    (lp : List ℕ) :
    bldbufs eptr next disk n blknbr lp =
      bldwords eptr (fun b lp => bldwords eptr next (disk b) (FsNINDIR 1024) 0 lp) id n blknbr lp := by
  induction n generalizing blknbr lp with
  | zero => rfl
  | succ n ih =>
    rw [bldbufs, bldwords]
    split
    · exact ih _ _
    · rfl

theorem div_div_mod (m s : ℕ) :
    m / (256 * s) = m / s / 256 ∧ m % (256 * s) / s = m / s % 256 ∧ m % (256 * s) % s = m % s := by
  refine ⟨?_, ?_, ?_⟩
  · rw [Nat.mul_comm, Nat.div_div_eq_div_mul]
  · rw [Nat.mul_comm, Nat.mod_mul_right_div_self]
  · exact Nat.mod_mul_left_mod m 256 s

/-- Each address of a block fills `size` entries -/
theorem bldbufs_eq (h : Size bsize) {eptr size : ℕ} {next : ℕ → List ℕ → List ℕ} {g : ℕ → ℕ → ℕ}
    (hsize : 0 < size)
    (hnext : ∀ b lp, lp.length < eptr →
      next b lp = lp ++ (List.range (min (eptr - lp.length) size)).map (g b))
    (disk : Disk) (b : ℕ) (lp : List ℕ) :
    bldbufs eptr next disk (bsize / 1024) (b * (bsize / 1024)) lp =
      lp ++ (List.range (min (eptr - lp.length) (FsNINDIR bsize * size))).map fun m =>
        g (cell bsize disk b (m / size)) (m % size) := by
  have hfan : FsNINDIR bsize * size = bsize / 1024 * (256 * size) := by
    rw [h.nindir]
    ring
  have hpos : 0 < 256 * size := by omega
  rw [bldbufs_words, hfan, bldwords_eq (g := fun b m => g (disk b (m / size)) (m % size)) hpos]
  · congr 1
    refine map_congr_left fun m _ => ?_
    obtain ⟨h1, h2, h3⟩ := div_div_mod m size
    simp only [id, h1, h2, h3, cell]
  · intro b lp _
    rw [bldwords_eq hsize hnext]
    simp only [Nat.zero_add]
    rfl

theorem indices_mod (fan r k m : ℕ) (h : r ≤ k) :
    indices fan r (m % fan ^ k) = indices fan r m := by
  induction r with
  | zero => rfl
  | succ r ih =>
    rw [indices, indices, ih (by omega)]
    congr 1
    obtain ⟨d, rfl⟩ := Nat.exists_eq_add_of_lt h
    have hpow : fan ^ (r + d + 1) = fan ^ r * (fan * fan ^ d) := by ring
    rw [hpow, Nat.mod_mul_right_div_self, Nat.mod_mul_right_mod]

theorem s5bldindr_eq (h : Size bsize) (eptr : ℕ) (disk : Disk) (indlvl b : ℕ) (lp : List ℕ)
    (hlp : lp.length < eptr) :
    s5bldindr bsize eptr disk indlvl b lp =
      lp ++ (List.range (min (eptr - lp.length) (FsNINDIR bsize ^ (indlvl + 1)))).map fun m =>
        stray (cell bsize disk) b (indices (FsNINDIR bsize) (indlvl + 1) m) := by
  have hfan : 0 < FsNINDIR bsize := by
    rw [h.nindir]
    have hpos := h.eq.2
    omega
  induction indlvl generalizing b lp with
  | zero =>
    rw [s5bldindr, bldbufs_eq h (g := fun b _ => b) Nat.one_pos]
    · congr 1
      rw [Nat.mul_one, Nat.zero_add, pow_one]
      refine map_congr_left fun m hm => ?_
      have hm := mem_range.mp hm
      rw [indices, indices, stray, stray, Nat.div_one, pow_zero, Nat.div_one,
        Nat.mod_eq_of_lt (by omega)]
    · intro b lp hlp
      rw [min_eq_right (by omega)]
      rfl
  | succ indlvl ih =>
    rw [s5bldindr, bldbufs_eq h (Nat.pow_pos hfan) fun b lp hlp => ih b lp hlp]
    have hpow : FsNINDIR bsize * FsNINDIR bsize ^ (indlvl + 1) = FsNINDIR bsize ^ (indlvl + 1 + 1) := by
      ring
    rw [hpow]
    congr 1
    refine map_congr_left fun m hm => ?_
    have hm := mem_range.mp hm
    have hlt : m / FsNINDIR bsize ^ (indlvl + 1) < FsNINDIR bsize := by
      rw [Nat.div_lt_iff_lt_mul (Nat.pow_pos hfan), hpow]
      omega
    have hidx : indices (FsNINDIR bsize) (indlvl + 1 + 1) m =
        m / FsNINDIR bsize ^ (indlvl + 1) % FsNINDIR bsize ::
          indices (FsNINDIR bsize) (indlvl + 1) m := rfl
    rw [indices_mod _ _ _ _ (le_refl _), hidx, stray, Nat.mod_eq_of_lt hlt]

/-- The entry of the list for the block `n` -/
def listed (bsize : ℕ) (s : File) (n : ℕ) : ℕ :=
  stray (cell bsize s.disk) (s.s5i_addr (place bsize n).1) (place bsize n).2

/-- An address of the inode fills the list up to where the next one begins -/
theorem bldrest_step (h : Size bsize) {eptr k i r : ℕ} {s : File} (hi : i = 9 + r) (hr : 1 ≤ r)
    (hk : k < eptr)
    (hf : ∀ m, m < FsNINDIR bsize ^ r → k + m < eptr →
      place bsize (k + m) = (i, indices (FsNINDIR bsize) r m)) (n : ℕ) :
    bldrest bsize eptr s (n + 1) i ((List.range k).map (listed bsize s)) =
      bldrest bsize eptr s n (i + 1)
        ((List.range (k + min (eptr - k) (FsNINDIR bsize ^ r))).map (listed bsize s)) := by
  obtain ⟨r, rfl⟩ := Nat.exists_eq_add_of_le' hr
  have hlen : ((List.range k).map (listed bsize s)).length = k := by
    rw [length_map, length_range]
  have hlvl : i - 10 = r := by omega
  rw [bldrest, hlen, if_pos hk, s5bldindr_eq h _ _ _ _ _ (by rwa [hlen]), hlen, hlvl, range_add,
    map_append, map_map]
  congr 2
  refine map_congr_left fun m hm => ?_
  have hm := mem_range.mp hm
  rw [Function.comp_apply, listed, hf m (by omega) (by omega)]

theorem bldrest_full (eptr i n : ℕ) (s : File) (lp : List ℕ) (h : eptr ≤ lp.length) :
    bldrest bsize eptr s n i lp = lp := by
  cases n with
  | zero => rfl
  | succ n => rw [bldrest, if_neg (Nat.not_lt_of_le h)]

theorem s5bldblklst_eq (h : Size bsize) (s : File) {nblks : ℕ} (hn : nblks ≤ limit bsize) :
    s5bldblklst bsize s nblks = (List.range nblks).map (listed bsize s) := by
  have hdirect {k : ℕ} (hk : k ≤ 10) :
      (List.range k).map s.s5i_addr = (List.range k).map (listed bsize s) :=
    map_congr_left fun m hm => by
      have hm := mem_range.mp hm
      have hplace : place bsize m = (m, []) := if_pos (by change m < 10; omega)
      rw [listed, hplace, stray]
  rw [s5bldblklst]
  split
  next hlt =>
    rw [hdirect (by omega), bldrest_full _ _ _ _ _ (by simp)]
  next hge =>
    rw [hdirect (le_refl 10)]
    rw [limit] at hn
    have hten : NADDR - 3 = 10 := rfl
    generalize hfan : FsNINDIR bsize = fan at hn
    -- each address of the inode in turn, till the list is full
    have hfull {k i n : ℕ} (hk : k = nblks) :
        bldrest bsize nblks s n i ((List.range k).map (listed bsize s)) =
          (List.range nblks).map (listed bsize s) := by
      rw [hk]
      exact bldrest_full _ _ _ _ _ (by simp)
    by_cases h10 : nblks = 10
    · exact hfull h10.symm
    obtain ⟨n, hn'⟩ : ∃ n, nblks = n + 3 := ⟨nblks - 3, by omega⟩
    have hfuel (lp : List ℕ) : bldrest bsize nblks s nblks 10 lp = bldrest bsize nblks s (n + 3) 10 lp := by
      rw [← hn']
    rw [hfuel, bldrest_step h (r := 1) rfl (le_refl 1) (by omega) fun m hm _ => by
      rw [pow_one] at hm
      rw [place, hten, if_neg (by omega), if_pos (by omega), Nat.add_sub_cancel_left]]
    rw [hfan, pow_one]
    by_cases h11 : nblks ≤ 10 + fan
    · exact hfull (by omega)
    have hmin : min (nblks - 10) fan = fan := by omega
    rw [hmin, bldrest_step h (r := 2) rfl (by decide) (by omega) fun m hm _ => by
      have hsub : 10 + fan + m - 10 - fan = m := by omega
      rw [place, hten, hfan, if_neg (by omega), if_neg (by omega), hsub, if_pos (by rwa [hfan] at hm)]]
    rw [hfan]
    by_cases h12 : nblks ≤ 10 + fan + fan ^ 2
    · exact hfull (by omega)
    have hmin : min (nblks - (10 + fan)) (fan ^ 2) = fan ^ 2 := by omega
    rw [hmin, bldrest_step h (r := 3) rfl (by decide) (by omega) fun m hm _ => by
      have hsub : 10 + fan + fan ^ 2 + m - 10 - fan - fan ^ 2 = m := by omega
      rw [place, hten, hfan, if_neg (by omega), if_neg (by omega), if_neg (by omega), hsub]]
    exact hfull (by rw [hfan]; omega)

/-! ## The map -/

theorem lt_nblks (h : Size bsize) (s : File) (n : ℕ) :
    n < nblks bsize s ↔ (n * bsize : ℕ) < s.i_size := by
  unfold nblks
  cases h <;> omega

theorem nblks_limit (h : Size bsize) {s : File} (hsize : s.i_size < 2 ^ 31) :
    nblks bsize s ≤ limit bsize := by
  by_contra hlt
  have hin := (lt_nblks h s (limit bsize)).mp (Nat.lt_of_not_le hlt)
  have hpos : 0 < bsize := by
    rw [← h.bshift]
    exact Nat.two_pow_pos _
  have hlim := off_t_limit h (show limit bsize * bsize < 2 ^ 31 by omega)
  rw [Nat.mul_div_cancel _ hpos] at hlim
  exact absurd hlim (lt_irrefl _)

/-- A page has one block at most, so nothing is rounded. -/
theorem blkspp_eq (h : Size bsize) : blkspp bsize = 1 := by
  cases h <;> decide

theorem rounded_eq (h : Size bsize) (s : File) : rounded bsize s = nblks bsize s := by
  rw [rounded, blkspp_eq h, Nat.add_sub_cancel, Nat.div_one, Nat.mul_one]

theorem pad_one (n bnptr i : ℕ) (map : ℕ → ℤ) : pad 1 n bnptr i map = map := by
  cases n with
  | zero => rfl
  | succ n => rw [pad, if_neg (by rw [Nat.mod_one]; exact not_not.mpr rfl)]

theorem s5allocmap_listed (h : Size bsize) {s : File} {core map : ℕ → ℤ}
    (hsize : s.i_size < 2 ^ 31) (hmap : s5allocmap bsize s none (some core) = some map) {n : ℕ}
    (hn : n < nblks bsize s) : map n = listed bsize s n := by
  rw [s5allocmap, Option.map_some, blkspp_eq h, pad_one, Option.some.injEq,
    s5bldblklst_eq h s (nblks_limit h hsize)] at hmap
  have hget : ((List.range (nblks bsize s)).map (listed bsize s))[n]? = some (listed bsize s n) := by
    rw [List.getElem?_map, List.getElem?_range hn]
    rfl
  rw [← hmap]
  simp only [hget]

/-- Block 0 of the disk leads to 0 where an indirect block on the path is missing. -/
def Harmless (cell : ℕ → ℕ → ℕ) : ℕ → List ℕ → Prop
  | _, [] => True
  | b, i :: p => if b = 0 then stray cell 0 (i :: p) = 0 else Harmless cell (cell b i) p

theorem stray_eq_walk_iff (cell : ℕ → ℕ → ℕ) (b : ℕ) (p : List ℕ) :
    stray cell b p = walk cell b p ↔ Harmless cell b p := by
  induction p generalizing b with
  | nil => exact iff_of_true rfl trivial
  | cons i p ih =>
    rw [Harmless]
    split
    next hz => rw [hz, walk_zero]
    next hne =>
      rw [walk_cons hne]
      exact ih _

instance decidableHarmless (cell : ℕ → ℕ → ℕ) : ∀ b p, Decidable (Harmless cell b p)
  | _, [] => inferInstanceAs (Decidable True)
  | b, i :: p =>
    have := decidableHarmless cell (cell b i) p
    inferInstanceAs (Decidable (if b = 0 then stray cell 0 (i :: p) = 0 else Harmless cell (cell b i) p))

/-! ## Reading -/

/-- A byte of the file, 0 in a hole -/
def fileByte (bsize : ℕ) (s : File) (q : ℕ) : ℕ :=
  match mapped bsize s (q / 1024) with
  | none => 0
  | some a => byte s.disk a (q % 1024)

theorem bytes_mapped (s : File) {q n : ℕ} (hn : n ≤ 1024 - q % 1024) :
    bytes s.disk ((mapped bsize s (q / 1024)).map fun a : ℕ => (a : ℤ)) (q % 1024) n =
      (List.range n).map fun i => fileByte bsize s (q + i) := by
  refine map_congr_left fun i hi => ?_
  have hi := mem_range.mp hi
  have hdiv : (q + i) / 1024 = q / 1024 := by omega
  have hmod : (q + i) % 1024 = q % 1024 + i := by omega
  rw [fileByte, hdiv, hmod]
  cases mapped bsize s (q / 1024) <;> rfl

theorem range_take_add (out : List ℕ) (f : ℕ → ℕ) (q : ℕ) {n size : ℕ} (hn : n ≤ size) :
    out ++ ((List.range n).map fun i => f (q + i)) ++ ((List.range (size - n)).map fun i => f (q + n + i)) =
      out ++ (List.range size).map fun i => f (q + i) := by
  obtain ⟨d, rfl⟩ := Nat.exists_eq_add_of_le hn
  rw [Nat.add_sub_cancel_left, range_add, map_append, map_map, append_assoc]
  simp only [Function.comp_def, Nat.add_assoc]

/-- The buffer that `s5readmap` reads -/
theorem buffer_mapped (h : Size bsize) (s : File) {bmap : ℕ → ℤ} {q : ℕ}
    (hmap : bmap (q / bsize) = look bsize s (place bsize (q / bsize)).1 (place bsize (q / bsize)).2) :
    0 ≤ bmap (q / bsize) * (bsize / 1024 : ℕ) ∧
      (if bmap (q / bsize) * (bsize / 1024 : ℕ) ≠ 0 then
        some (bmap (q / bsize) * (bsize / 1024 : ℕ) + ((q >>> 10) &&& (bsize / 1024 - 1) : ℕ))
      else none) = (mapped bsize s (q / 1024)).map fun a : ℕ => (a : ℤ) := by
  have hpos := h.eq.2
  have hand : (q >>> 10) &&& (bsize / 1024 - 1) = q / 1024 % (bsize / 1024) := by
    rw [Nat.shiftRight_eq_div_pow]
    cases h with
    | s1024 => exact (Nat.and_two_pow_sub_one_eq_mod _ 0)
    | s2048 => exact (Nat.and_two_pow_sub_one_eq_mod _ 1)
    | s4096 => exact (Nat.and_two_pow_sub_one_eq_mod _ 2)
    | s8192 => exact (Nat.and_two_pow_sub_one_eq_mod _ 3)
  rw [hmap, hand, mapped, h.div, found]
  refine ⟨Int.mul_nonneg (Int.natCast_nonneg _) (Int.natCast_nonneg _), ?_⟩
  split
  next hne =>
    rw [if_neg fun hz => hne (by rw [hz]; simp)]
    push_cast
    rfl
  next hz =>
    have hz' : look bsize s (place bsize (q / bsize)).1 (place bsize (q / bsize)).2 = 0 := by
      rcases Int.mul_eq_zero.mp (not_not.mp hz) with hl | hb <;> omega
    rw [if_pos hz']
    rfl

theorem readmap_eq (h : Size bsize) {s : File} {bmap : ℕ → ℤ}
    (hmap : ∀ n < nblks bsize s, bmap n = look bsize s (place bsize n).1 (place bsize n).2)
    (fuel offset size : ℕ) (out : List ℕ) (hin : (offset + size : ℤ) ≤ s.i_size) (hf : size ≤ fuel) :
    readmap bsize s.disk bmap fuel offset size out =
      out ++ (List.range size).map fun i => fileByte bsize s (offset + i) := by
  induction fuel generalizing offset size out with
  | zero =>
    rw [Nat.le_zero.mp hf]
    simp [readmap]
  | succ fuel ih =>
    rw [readmap]
    split
    next hpos =>
      have hle := Nat.div_mul_le_self offset bsize
      have hblk : offset / bsize < nblks bsize s := (lt_nblks h s _).mpr (by omega)
      have hon : offset &&& (1024 - 1) = offset % 1024 := Nat.and_two_pow_sub_one_eq_mod offset 10
      obtain ⟨hnonneg, hbuf⟩ := buffer_mapped h s (hmap _ hblk)
      have hmin : (if 1024 - offset % 1024 > size then size else 1024 - offset % 1024) =
          min (1024 - offset % 1024) size := by
        split <;> omega
      simp only [h.large, hon, hmin]
      rw [if_neg (Int.not_lt.mpr hnonneg), hbuf, bytes_mapped s (Nat.min_le_left _ _),
        ih _ _ _ (by push_cast; omega) (by omega)]
      exact range_take_add out (fileByte bsize s) offset (Nat.min_le_right _ _)
    next hz =>
      have hzero : size = 0 := by omega
      rw [hzero]
      simp

theorem s5bmap_read_error (h : Size bsize) {io : Io} {q : ℕ} (hq : io.u_offset = q) (s : File) :
    (s5bmap bsize true io s).u_error = none := by
  obtain ⟨l, heq⟩ := s5bmap_eq h true io hq s
  have hlt : q / bsize * bsize < 2 ^ 31 := by
    have hle := Nat.div_mul_le_self q bsize
    have hoff := io.off_t.2
    omega
  rw [heq, if_neg fun hand => Bool.false_ne_true hand.1.symm]
  split
  · rfl
  · rw [block_read h hlt]

theorem pbsize_eq (h : Size bsize) {io : Io} {q : ℕ} (hq : io.u_offset = q) {s : File}
    (hin : (q + io.u_count : ℤ) ≤ s.i_size) :
    pbsize bsize io s = min (1024 - q % 1024) io.u_count := by
  rw [pbsize, h.large, hq]
  split <;> split <;> split <;> omega

theorem readi_eq (h : Size bsize) (fuel : ℕ) {io : Io} {q : ℕ} {s : File} (out : List ℕ)
    (hq : io.u_offset = q) (hin : (q + io.u_count : ℤ) ≤ s.i_size) (hsize : s.i_size < 2 ^ 31)
    (hpos : 0 < io.u_count) (hf : io.u_count ≤ fuel) :
    readi bsize fuel io s out =
      out ++ (List.range io.u_count).map fun i => fileByte bsize s (q + i) := by
  induction fuel generalizing io q s out with
  | zero => omega
  | succ fuel ih =>
    have hn := pbsize_eq h hq hin
    obtain ⟨hret, l, hfile⟩ := s5bmap_read h hq s
    have hon : (io.u_offset % FsBSIZE bsize).toNat = q % 1024 := by
      rw [h.large, hq]
      rfl
    rw [readi]
    dsimp only
    have hgo : ¬((s5bmap bsize true io s).u_error ≠ none ∨ pbsize bsize io s = 0) := by
      rw [s5bmap_read_error h hq, hn]
      rintro (he | hz)
      · exact he rfl
      · omega
    have hlt : 0 < io.u_count ∧ (q : ℤ) < s.i_size := ⟨hpos, by omega⟩
    rw [if_neg hgo, hret, if_pos hlt, hfile, hon, hn, bytes_mapped s (Nat.min_le_left _ _)]
    split
    next hmore =>
      have hcount : (io.advance (min (1024 - q % 1024) io.u_count)).u_count =
          io.u_count - min (1024 - q % 1024) io.u_count := rfl
      have hoff : (io.advance (min (1024 - q % 1024) io.u_count)).u_offset =
          (q + min (1024 - q % 1024) io.u_count : ℕ) := by
        change long (io.u_offset + (min (1024 - q % 1024) io.u_count : ℕ)) = _
        rw [hq]
        push_cast
        exact Int.bmod_eq_of_le (by omega) (by omega)
      rw [hcount] at hmore
      rw [ih (s := { s with s5i_lastr := l }) _ hoff (by push_cast; rw [hcount]; omega) hsize
        (by rw [hcount]; omega) (by rw [hcount]; omega), hcount]
      exact range_take_add out (fileByte bsize s) q (Nat.min_le_right _ _)
    next hdone =>
      have hall : min (1024 - q % 1024) io.u_count = io.u_count := by
        have hcount : (io.advance (min (1024 - q % 1024) io.u_count)).u_count =
          io.u_count - min (1024 - q % 1024) io.u_count := rfl
        omega
      rw [hall]

/-- What demand paging is to see of a file -/
structure Sees (bsize : ℕ) (s : File) (map : ℕ → ℤ) : Prop where
  /-- each entry below the size is the block that `s5bmap` finds, 0 in a hole -/
  blocks : ∀ (io : Io) (q : ℕ), io.u_offset = q → 0 < io.u_count → (q : ℤ) < s.i_size →
    (s5bmap bsize true io s).ret =
      if map (q / bsize) = 0 then none
      else some ((map (q / bsize)).toNat * (bsize / 1024) + q / 1024 % (bsize / 1024))
  /-- the entries beyond the size, up to the end of the page, are negative -/
  pad : ∀ n, nblks bsize s ≤ n → n < rounded bsize s → map n < 0
  /-- what is read through the list is what is read from the file -/
  bytes : ∀ (io : Io) (q : ℕ), io.u_offset = q → (q + io.u_count : ℤ) ≤ s.i_size →
    s5readmap bsize s map q io.u_count = some (io.u_count, s5readi bsize io s)

theorem Sees.of_map (h : Size bsize) {s : File} (hsize : s.i_size < 2 ^ 31)
    {map : ℕ → ℤ}
    (hmap : ∀ n < nblks bsize s, map n = look bsize s (place bsize n).1 (place bsize n).2) :
    Sees bsize s map := by
  refine ⟨fun io q hq hpos hin => ?_, fun n hn hr => ?_, fun io q hq hin => ?_⟩
  · have hle := Nat.div_mul_le_self q bsize
    have hblk : q / bsize < nblks bsize s := (lt_nblks h s _).mpr (by omega)
    rw [(s5bmap_read h hq s).1, if_pos ⟨hpos, hin⟩, mapped, h.div, hmap _ hblk, found]
    split
    next hz =>
      rw [hz, if_pos Int.natCast_zero]
      rfl
    next hne =>
      rw [if_neg (by exact_mod_cast hne)]
      rfl
  · rw [rounded_eq h] at hr
    exact absurd hr (Nat.not_lt_of_le hn)
  · have hall : (if (q + io.u_count : ℤ) > s.i_size then (s.i_size - q).toNat else io.u_count) =
        io.u_count := if_neg (Int.not_lt.mpr hin)
    rw [s5readmap, if_neg (by omega)]
    dsimp only
    rw [hall, readmap_eq h hmap _ _ _ _ hin (le_refl _), s5readi]
    split
    next hz =>
      have hz' : io.u_count = 0 := by omega
      rw [hz']
      rfl
    next hnz => rw [readi_eq h _ _ hq hin hsize (by omega) (le_refl _)]

/-- No path of the file leads over a missing block into words of block 0 that lead to anything. -/
def Clean (bsize : ℕ) (s : File) : Prop :=
  ∀ n < nblks bsize s, Harmless (cell bsize s.disk) (s.s5i_addr (place bsize n).1) (place bsize n).2

/-- Demand paging sees the file if, and only if, no words of block 0 are taken for the addresses of an
indirect block that is missing. -/
theorem s5allocmap_sees {s : File} {core map : ℕ → ℤ} (h : Size bsize)
    (hsize : s.i_size < 2 ^ 31) (hmap : s5allocmap bsize s none (some core) = some map) :
    Sees bsize s map ↔ Clean bsize s := by
  have hlisted {n : ℕ} (hn : n < nblks bsize s) := s5allocmap_listed h hsize hmap hn
  constructor
  · intro hs n hn
    have hin := (lt_nblks h s n).mp hn
    have hpos : 0 < bsize := by
      rw [← h.bshift]
      exact Nat.two_pow_pos _
    have hblk := hs.blocks ⟨(n * bsize : ℕ), 1, 0, by omega⟩ (n * bsize) rfl Nat.one_pos hin
    rw [(s5bmap_read h rfl s).1, if_pos ⟨Nat.one_pos, hin⟩, mapped, h.div, Nat.mul_div_cancel _ hpos,
      hlisted hn] at hblk
    rw [← stray_eq_walk_iff]
    change listed bsize s n = look bsize s (place bsize n).1 (place bsize n).2
    generalize look bsize s (place bsize n).1 (place bsize n).2 = b at hblk
    generalize listed bsize s n = b' at hblk
    have hf := h.eq.2
    unfold found at hblk
    by_cases hb : b = 0
    · by_cases hb' : b' = 0
      · rw [hb, hb']
      · simp [hb, hb'] at hblk
    · by_cases hb' : b' = 0
      · simp [hb, hb'] at hblk
      · simp only [hb, if_false, Option.map_some, Int.natCast_eq_zero, hb', Int.toNat_natCast,
          Option.some.injEq, Nat.add_right_cancel_iff] at hblk
        exact (Nat.eq_of_mul_eq_mul_right hf hblk).symm
  · intro hc
    refine Sees.of_map h hsize fun n hn => ?_
    rw [hlisted hn]
    exact congrArg _ ((stray_eq_walk_iff _ _ _).mpr (hc n hn))

/-- A file of 12 blocks, the indirect block at 200 -/
def whole : File :=
  ⟨fun i => if i = 10 then 200 else 100 + i, 0, 12000, fun b i => if b = 200 then 300 + i else 7, []⟩

theorem s5allocmap_sees_whole :
    ∃ map, s5allocmap 1024 whole none (some fun _ => 0) = some map ∧ Sees 1024 whole map :=
  ⟨_, rfl, (s5allocmap_sees .s1024 (by decide) rfl).mpr (by
    change ∀ n < 12, _
    decide +kernel)⟩

/-- An empty file on a disk whose block 0 has the address 7 in every entry -/
def boot : File := ⟨fun _ => 0, 0, 267 * 1024, fun b _ => if b = 0 then 7 else 0, []⟩

/-- The block 266, the first under two levels of indirection -/
def io266 : Io := ⟨266 * 1024, 1024, 100000, by decide⟩

/-- The block 10 -/
def io10 : Io := ⟨10 * 1024, 1024, 0, by decide⟩

/-- A call that writes block 266 leaves the blocks from 10 on a hole. The list has block 7 for them. -/
theorem hole_mapped :
    ¬∀ bsize (s s' : File) as core map, Size bsize → s.empty → Run (NarrowStep bsize) s as s' →
      s'.i_size < 2 ^ 31 → s5allocmap bsize s' none (some core) = some map → Sees bsize s' map := by
  intro h
  have hrun : Run (NarrowStep 1024) boot [.bmap false io266 [100, 101, 102]]
      (call 1024 boot false io266 [100, 101, 102]).file :=
    .single ⟨.bmap false io266 [100, 101, 102] (fresh_empty (fun _ => rfl) (by decide) (by decide)),
      show ∀ b ∈ [100, 101, 102], Narrow 1024 b by decide⟩
  obtain ⟨map, hmap⟩ : ∃ map,
      s5allocmap 1024 (call 1024 boot false io266 [100, 101, 102]).file none (some fun _ => 0) = some map :=
    ⟨_, rfl⟩
  have hs := h 1024 boot _ _ (fun _ => 0) map .s1024 (fun _ => rfl) hrun (by decide) hmap
  have hblk := hs.blocks io10 (10 * 1024) rfl (by decide) (by decide)
  have hret : (s5bmap 1024 true io10 (call 1024 boot false io266 [100, 101, 102]).file).ret = none := by
    decide +kernel
  have hseven : map 10 = 7 :=
    (s5allocmap_listed .s1024 (by decide) hmap (by decide +kernel)).trans (by decide +kernel)
  rw [hret, show 10 * 1024 / 1024 = 10 from rfl, hseven] at hblk
  exact absurd hblk (by decide)

end Svr3.S5.Map
