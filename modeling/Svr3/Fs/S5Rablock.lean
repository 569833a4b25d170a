import Svr3.Fs.S5BmapRun
import Mathlib.Data.Fintype.Card

/-!
# Read-ahead of `s5bmap`

A call of `s5bmap` that reads a regular file, with what it leaves in `u_rablock`: 0, the disk address to
read ahead, or with the highest bit set the number of chunks to read ahead after the one it returns. `COALES`
and `FSMK` are defined.
-/

namespace Svr3.S5.Map

open List

/-! ## Tuning -/

/-- `coal_enb`, `tune.t_maxrdahead`, and the device of the inode, to which `FsNINDIR` is applied -/
structure Tune where
  coal_enb : Bool
  t_maxrdahead : ℕ
  dev : ℤ
  maxrdahead_lt : t_maxrdahead < 2 ^ 31

/-- The 32 bits of an integer -/
def bits (x : ℤ) : ℕ := (x % 2 ^ 32).toNat

/-- `u_rablock`, with the indices of `s5i_addr` and of the indirect block that it was computed from -/
structure Ahead where
  u_rablock : ℕ
  direct : List ℕ
  indir : List ℕ

def Ahead.none : Ahead := ⟨0, [], []⟩

/-! ## The runs of addresses -/

/-- The loop over `n`, `left` turns at most: the number of entries after the entry `i` that continue the
run of addresses from `nb` on, and the indices that were used. `stop` is the test of `racount++`. -/
def scan (bap : ℕ → ℕ) (nb i : ℕ) (stop : ℕ → Bool) : ℕ → ℕ → ℕ → ℕ × List ℕ
  | 0, _, racount => (racount, [])
  | left + 1, n, racount =>
    if bap (i + n) = nb + n then
      if stop racount then (racount + 1, [i + n])
      else
        match scan bap nb i stop left (n + 1) (racount + 1) with
        | (racount, used) => (racount, (i + n) :: used)
    else (racount, [i + n])

/-- What follows the loop. The chunks of the run, and those left of the block, come to at most
`tune.t_maxrdahead`. -/
def hint (c : Tune) (bsize : ℕ) (u_offset : ℤ) (bap : ℕ → ℕ) (i : ℕ) (run : ℕ × List ℕ) :
    ℕ × List ℕ :=
  let k : ℤ := (bsize / 1024 : ℕ)
  let mask : ℤ := k - 1
  if c.coal_enb then
    let racount : ℤ := run.1 * k + (mask - Int.land (u_offset >>> 10) mask)
    if racount ≠ 0 then
      (2 ^ 31 ||| bits (if racount > c.t_maxrdahead then c.t_maxrdahead else racount), run.2)
    else (bits (bap (i + 1) * k), run.2 ++ [i + 1])
  else (bits (bap (i + 1) * k), [i + 1])

/-! ## A call that reads -/

/-- The entries of a buffer, and the words of memory after it -/
def buffer (bsize : ℕ) (past : ℕ → ℕ) (data : ℕ → ℕ) (i : ℕ) : ℕ :=
  if i < FsBSIZE bsize / 4 then data i else past (i - FsBSIZE bsize / 4)

/-- The read-ahead in the last of the indirect blocks, from the entry `i` on -/
def aheadIndir (c : Tune) (bsize : ℕ) (raflag : Bool) (u_offset : ℤ) (bap : ℕ → ℕ) (i : ℕ) : Ahead :=
  if i < FsNINDIR bsize - 1 && raflag then
    let left := (c.dev.tdiv 4 - 1 - i).toNat
    let run := scan bap (bap i) i (fun racount => racount ≥ c.t_maxrdahead) left 1 0
    let r := hint c bsize u_offset bap i run
    ⟨r.1, [], r.2⟩
  else .none

/-- The read-ahead in the inode, from the address `i` on -/
def aheadDirect (c : Tune) (bsize : ℕ) (raflag : Bool) (u_offset : ℤ) (s5i_addr : ℕ → ℕ) (i : ℕ) :
    Ahead :=
  if i < NADDR - 4 && raflag then
    let run := scan s5i_addr (s5i_addr i) i (fun _ => false) (NADDR - 3 - i) 1 0
    let r := hint c bsize u_offset s5i_addr i run
    ⟨r.1, r.2, []⟩
  else .none

/-- Fetch through the indirect blocks, the last of them with the read-ahead -/
def fetchAhead (c : Tune) (bsize : ℕ) (raflag : Bool) (u_offset : ℤ) (past : ℕ → ℕ) (disk : Disk)
    (bn : ℤ) : ℕ → ℕ → ℕ → Option ℕ × Ahead
  | 0, _, nb => (some nb, .none)
  | n + 1, sh, nb =>
    let sh := sh - FsNSHIFT bsize
    let i := (bn >>> sh).toNat &&& FsNMASK bsize
    let blk := nb * (bsize / 1024) + (i >>> FsNSHIFT 1024)
    let i := i &&& FsNMASK 1024
    let bap := buffer bsize past (disk blk)
    let nb := bap i
    if n = 0 then (found nb, aheadIndir c bsize raflag u_offset bap i)
    else if nb = 0 then (none, .none)
    else fetchAhead c bsize raflag u_offset past disk bn n sh nb

/-- The block of the logical block `bn`, for a call that reads -/
def blockAhead (c : Tune) (bsize : ℕ) (raflag : Bool) (u_offset : ℤ) (past : ℕ → ℕ) (bn : ℤ)
    (s5i_addr : ℕ → ℕ) (disk : Disk) : Option ℕ × Ahead :=
  if bn < (NADDR - 3 : ℕ) then
    let nb := s5i_addr bn.toNat
    if nb = 0 then (none, .none)
    else (some nb, aheadDirect c bsize raflag u_offset s5i_addr bn.toNat)
  else
    match levels (FsNSHIFT bsize) 3 0 1 (bn - (NADDR - 3 : ℕ)) with
    | none => (none, .none)
    | some (j, sh, bn) =>
      let nb := s5i_addr (NADDR - j)
      if nb = 0 then (none, .none)
      else fetchAhead c bsize raflag u_offset past disk bn (4 - j) sh nb

/-- `raflag`, when the size of the file has not been looked at -/
def sequential (bsize : ℕ) (io : Io) (s : File) : Bool :=
  s.s5i_lastr + 1 = io.u_offset >>> FsBSHIFT bsize &&
    !((io.u_count : ℤ) < FsBSIZE bsize - io.u_offset % FsBSIZE bsize)

/-- `s5bmap(ip, B_READ)`: the address it returns, and the read-ahead -/
def s5bread (c : Tune) (bsize : ℕ) (past : ℕ → ℕ) (io : Io) (s : File) : Option ℕ × Ahead :=
  let bn := io.u_offset >>> FsBSHIFT bsize
  if bn < 0 then (none, .none)
  else
    let sz : ℤ := FsBSIZE bsize - io.u_offset % FsBSIZE bsize
    let sz := if io.u_count < sz then (io.u_count : ℤ) else sz
    let rem := if s.i_size - io.u_offset < 0 then 0 else s.i_size - io.u_offset
    if (if rem < sz then rem else sz) = 0 then (none, .none)
    else
      match blockAhead c bsize (sequential bsize io s) io.u_offset past bn s.s5i_addr s.disk with
      | (ret, ahead) => (ret.map (chunk bsize io.u_offset), ahead)

/-! ## What is read ahead -/

/-- The blocks that are read ahead after the address `ret` -/
def Asks (ret : Option ℕ) (u_rablock blk : ℕ) : Prop :=
  if u_rablock &&& 2 ^ 31 ≠ 0 then
    ∃ b, ret = some b ∧ b < blk ∧ blk ≤ b + (u_rablock &&& (2 ^ 31 - 1))
  else blk = u_rablock

/-- The chunks of a block -/
def per (bsize : ℕ) : ℕ := bsize / FsBSIZE bsize

/-- The block at the end of the path of a logical block -/
def data (bsize : ℕ) (s : File) (n : ℕ) : ℕ := look bsize s (place bsize n).1 (place bsize n).2

/-- The address of a logical chunk -/
def logical (bsize : ℕ) (s : File) (q : ℕ) : Option ℕ :=
  (found (data bsize s (q / per bsize))).map fun b => b * per bsize + q % per bsize

/-- What is read ahead are chunks of the file that follow, and the indices are of addresses of blocks in
the inode, and of entries of the buffer. -/
def Honest (bsize : ℕ) (io : Io) (s : File) (r : Option ℕ × Ahead) : Prop :=
  r.2.u_rablock ≠ 0 →
    (∀ blk, Asks r.1 r.2.u_rablock blk → ∃ q : ℕ, io.u_offset / FsBSIZE bsize < q ∧
      q / per bsize < limit bsize ∧ logical bsize s q = some blk) ∧
    (∀ i ∈ r.2.direct, i < NADDR - 3) ∧ ∀ i ∈ r.2.indir, i < FsBSIZE bsize / 4

/-! ## Sizes -/

/-- The block sizes of `s5mount` -/
inductive AnySize : ℕ → Prop
  | small : AnySize 512
  | large {bsize : ℕ} (h : Size bsize) : AnySize bsize

variable {c : Tune} {bsize : ℕ} {past : ℕ → ℕ} {io : Io} {s : File} {n : ℕ}

namespace AnySize

theorem nshift (h : AnySize bsize) : 2 ^ FsNSHIFT bsize = FsNINDIR bsize := by
  cases h with
  | small => decide
  | large h => exact h.nshift

theorem bshift (h : AnySize bsize) : 2 ^ FsBSHIFT bsize = bsize := by
  cases h with
  | small => decide
  | large h => exact h.bshift

theorem nmask (h : AnySize bsize) (i : ℕ) : i &&& FsNMASK bsize = i % FsNINDIR bsize := by
  cases h with
  | small => exact Nat.and_two_pow_sub_one_eq_mod i 7
  | large h => exact h.nmask i

theorem nindir_pos (h : AnySize bsize) : 0 < FsNINDIR bsize := by
  rw [← h.nshift]
  exact Nat.two_pow_pos _

/-- An index of a buffer is one of its entries. -/
theorem entry_lt (h : AnySize bsize) (i : ℕ) : i % FsNINDIR bsize % 256 < FsBSIZE bsize / 4 := by
  cases h with
  | small =>
    change i % 128 % 256 < 128
    omega
  | large h =>
    rw [h.large]
    change i % FsNINDIR bsize % 256 < 256
    omega

/-- The entries after an index, up to the end of the buffer, are of the same block. -/
theorem entry_add (h : AnySize bsize) {i x : ℕ} (hi : i < FsNINDIR bsize)
    (hx : i % 256 + x < FsBSIZE bsize / 4) :
    i + x < FsNINDIR bsize ∧ (i + x) / 256 = i / 256 ∧ (i + x) % 256 = i % 256 + x := by
  cases h with
  | small =>
    change i < 128 at hi
    change i % 256 + x < 128 at hx
    change i + x < 128 ∧ _
    omega
  | large h =>
    rw [h.large] at hx
    change i % 256 + x < 256 at hx
    rw [h.nindir] at hi ⊢
    omega

theorem index_eq (h : AnySize bsize) (m n : ℕ) :
    ((m : ℤ) >>> ((n + 1) * FsNSHIFT bsize - FsNSHIFT bsize)).toNat &&& FsNMASK bsize =
      m / FsNINDIR bsize ^ n % FsNINDIR bsize := by
  have hsh : (n + 1) * FsNSHIFT bsize - FsNSHIFT bsize = FsNSHIFT bsize * n := by
    rw [Nat.succ_mul, Nat.add_sub_cancel, Nat.mul_comm]
  have hdiv : ((m : ℤ) >>> (FsNSHIFT bsize * n)).toNat = m >>> (FsNSHIFT bsize * n) := rfl
  rw [hsh, hdiv, h.nmask, Nat.shiftRight_eq_div_pow, pow_mul, h.nshift]

end AnySize

theorem low_bits (i : ℕ) : i &&& FsNMASK 1024 = i % 256 := Nat.and_two_pow_sub_one_eq_mod i 8

theorem high_bits (i : ℕ) : i >>> FsNSHIFT 1024 = i / 256 := Nat.shiftRight_eq_div_pow i 8

/-! ## The address that is returned -/

/-! ## The last indirect block -/

theorem indices_concat (fan r m : ℕ) :
    indices fan (r + 1) m = indices fan r (m / fan) ++ [m % fan] := by
  induction r with
  | zero =>
    unfold indices indices
    rw [pow_zero, Nat.div_one, nil_append]
  | succ r ih =>
    have hdiv : m / fan ^ (r + 1) = m / fan / fan ^ r := by
      rw [Nat.div_div_eq_div_mul, pow_succ']
    have hhead : indices fan (r + 2) m = m / fan ^ (r + 1) % fan :: indices fan (r + 1) m := rfl
    have hhead' : indices fan (r + 1) (m / fan) = m / fan / fan ^ r % fan :: indices fan r (m / fan) :=
      rfl
    rw [hhead, ih, hhead', hdiv, cons_append]

/-- The path of a logical block that is not in the inode, and those of the blocks after it that have the
same number of levels -/
theorem place_far (h10 : 10 ≤ n) (hn : n < limit bsize) :
    ∃ r m, r < 3 ∧ m < FsNINDIR bsize ^ (r + 1) ∧
      (r = 0 ∧ m = n - 10 ∨ r = 1 ∧ FsNINDIR bsize ≤ n - 10 ∧ m = n - 10 - FsNINDIR bsize ∨
        r = 2 ∧ FsNINDIR bsize ^ 2 ≤ n - 10 - FsNINDIR bsize ∧ FsNINDIR bsize ≤ n - 10 ∧
          m = n - 10 - FsNINDIR bsize - FsNINDIR bsize ^ 2) ∧
      ∀ x, m + x < FsNINDIR bsize ^ (r + 1) →
        n + x < limit bsize ∧ place bsize (n + x) = (10 + r, indices (FsNINDIR bsize) (r + 1) (m + x)) := by
  have hten : NADDR - 3 = 10 := rfl
  unfold limit at hn ⊢
  unfold place
  generalize FsNINDIR bsize = fan at *
  rw [hten]
  by_cases h1 : n - 10 < fan
  · refine ⟨0, n - 10, by omega, by rwa [pow_one], .inl ⟨rfl, rfl⟩, fun x hx => ?_⟩
    rw [pow_one] at hx
    have hsub : n + x - 10 = n - 10 + x := by omega
    refine ⟨by omega, ?_⟩
    rw [if_neg (by omega), if_pos (by omega), hsub]
  · by_cases h2 : n - 10 - fan < fan ^ 2
    · refine ⟨1, n - 10 - fan, by omega, h2, .inr (.inl ⟨rfl, by omega, rfl⟩), fun x hx => ?_⟩
      have hx' : n - 10 - fan + x < fan ^ 2 := hx
      have hsub : n + x - 10 - fan = n - 10 - fan + x := by omega
      refine ⟨by omega, ?_⟩
      rw [if_neg (by omega), if_neg (by omega), if_pos (by omega), hsub]
    · have hm : n - 10 - fan - fan ^ 2 < fan ^ 3 := by omega
      refine ⟨2, n - 10 - fan - fan ^ 2, by omega, hm,
        .inr (.inr ⟨rfl, by omega, by omega, rfl⟩), fun x hx => ?_⟩
      have hx' : n - 10 - fan - fan ^ 2 + x < fan ^ 3 := hx
      have hsub : n + x - 10 - fan - fan ^ 2 = n - 10 - fan - fan ^ 2 + x := by omega
      refine ⟨by omega, ?_⟩
      rw [if_neg (by omega), if_neg (by omega), if_neg (by omega), hsub]

/-- The last of the indirect blocks on the path of a logical block -/
def parent (bsize : ℕ) (s : File) (n : ℕ) : ℕ :=
  look bsize s (place bsize n).1 (place bsize n).2.dropLast

/-- Its entry there -/
def index (bsize n : ℕ) : ℕ := (place bsize n).2.getLastD 0

/-- The buffer of the chunk of the indirect block that has the entry -/
def window (bsize : ℕ) (past : ℕ → ℕ) (s : File) (n : ℕ) : ℕ → ℕ :=
  buffer bsize past (s.disk (parent bsize s n * (bsize / 1024) + index bsize n / 256 : ℕ))

theorem index_lt (h : AnySize bsize) (h10 : 10 ≤ n) (hn : n < limit bsize) :
    index bsize n < FsNINDIR bsize := by
  obtain ⟨r, m, -, hm, -, hplace⟩ := place_far h10 hn
  have hp := (hplace 0 hm).2
  simp only [Nat.add_zero, indices_concat] at hp
  unfold index
  rw [hp, getLastD_concat]
  exact Nat.mod_lt _ h.nindir_pos

/-- The block of a logical block is in an entry of the last indirect block. -/
theorem data_far (h10 : 10 ≤ n) (hn : n < limit bsize) :
    data bsize s n = if parent bsize s n = 0 then 0
      else cell bsize s.disk (parent bsize s n) (index bsize n) := by
  obtain ⟨r, m, -, hm, -, hplace⟩ := place_far h10 hn
  have hp := (hplace 0 hm).2
  simp only [Nat.add_zero, indices_concat] at hp
  unfold data parent index look
  rw [hp, dropLast_concat, getLastD_concat, walk_concat]

/-- The entries after it are of the blocks that follow. -/
theorem next_far (h : AnySize bsize) (h10 : 10 ≤ n) (hn : n < limit bsize) {x : ℕ}
    (hx : index bsize n + x < FsNINDIR bsize) :
    n + x < limit bsize ∧ parent bsize s (n + x) = parent bsize s n ∧
      index bsize (n + x) = index bsize n + x := by
  obtain ⟨r, m, -, hm, -, hplace⟩ := place_far h10 hn
  have hp := (hplace 0 hm).2
  simp only [Nat.add_zero, indices_concat] at hp
  have hindex : index bsize n = m % FsNINDIR bsize := by
    unfold index
    rw [hp, getLastD_concat]
  rw [hindex] at hx
  have hpos := h.nindir_pos
  have hdm := Nat.div_add_mod m (FsNINDIR bsize)
  have hmod : (m + x) % FsNINDIR bsize = m % FsNINDIR bsize + x := by
    rw [← hdm, Nat.add_assoc, Nat.mul_add_mod, Nat.mul_add_mod, Nat.mod_mod, Nat.mod_eq_of_lt hx]
  have hdiv : (m + x) / FsNINDIR bsize = m / FsNINDIR bsize := by
    rw [← hdm, Nat.add_assoc, Nat.mul_add_div hpos, Nat.mul_add_div hpos, Nat.div_eq_of_lt hx,
      Nat.div_eq_of_lt (Nat.mod_lt _ hpos)]
  have hmx : m + x < FsNINDIR bsize ^ (r + 1) := by
    rw [pow_succ]
    rw [pow_succ] at hm
    have hq := Nat.div_lt_of_lt_mul (Nat.mul_comm _ _ ▸ hm)
    have hle := Nat.mul_le_mul_left (FsNINDIR bsize) (Nat.succ_le_of_lt hq)
    rw [Nat.mul_succ] at hle
    rw [Nat.mul_comm]
    omega
  obtain ⟨hlim, hp'⟩ := hplace x hmx
  rw [indices_concat, hdiv, hmod] at hp'
  refine ⟨hlim, ?_, ?_⟩
  · unfold parent
    rw [hp, hp', dropLast_concat, dropLast_concat]
  · rw [hindex]
    unfold index
    rw [hp', getLastD_concat]

/-- The window shows the blocks that follow, up to the end of the buffer. -/
theorem window_data (h : AnySize bsize) (h10 : 10 ≤ n) (hn : n < limit bsize)
    (hparent : parent bsize s n ≠ 0) {x : ℕ} (hx : index bsize n % 256 + x < FsBSIZE bsize / 4) :
    n + x < limit bsize ∧ window bsize past s n (index bsize n % 256 + x) = data bsize s (n + x) := by
  obtain ⟨hfan, hdiv, hmod⟩ := h.entry_add (index_lt h h10 hn) hx
  obtain ⟨hlim, hpar, hidx⟩ := next_far (s := s) h h10 hn hfan
  refine ⟨hlim, ?_⟩
  rw [data_far (Nat.le_add_right_of_le h10) hlim, hpar, hidx, if_neg hparent]
  unfold window buffer cell
  rw [if_pos hx, hdiv, hmod]

/-! ## The read-ahead of a call -/

/-- The loop over the levels, for a block that has a path -/
theorem levels_any (h : AnySize bsize) {k : ℕ}
    (hk : k < FsNINDIR bsize + FsNINDIR bsize ^ 2 + FsNINDIR bsize ^ 3) (hoff : k * bsize < 2 ^ 31) :
    levels (FsNSHIFT bsize) 3 0 1 k =
      if k < FsNINDIR bsize then some (3, FsNSHIFT bsize, (k : ℤ))
      else if k - FsNINDIR bsize < FsNINDIR bsize ^ 2 then
        some (2, 2 * FsNSHIFT bsize, ((k - FsNINDIR bsize : ℕ) : ℤ))
      else some (1, 3 * FsNSHIFT bsize, ((k - FsNINDIR bsize - FsNINDIR bsize ^ 2 : ℕ) : ℤ)) := by
  cases h with
  | small =>
    have hk' : k < 128 + 16384 + 2097152 := hk
    exact @levels_three _ k 128 16384 2097152 (by decide) (by decide) (.inr ⟨by decide, hk'⟩)
  | large h => exact levels_eq h hoff

/-- A block that has no path: there is one among the offsets of a file with blocks of 512 bytes only. -/
theorem levels_none (h : AnySize bsize) (hoff : n * bsize < 2 ^ 31) (hn : limit bsize ≤ n) :
    levels (FsNSHIFT bsize) 3 0 1 ((n : ℤ) - (NADDR - 3 : ℕ)) = none := by
  cases h with
  | small =>
    have hn' : 10 + 128 + 16384 + 2097152 ≤ n := hn
    have h1 : long (1 * 2 ^ FsNSHIFT 512) = 128 := by decide
    have h2 : long (128 * 2 ^ FsNSHIFT 512) = 16384 := by decide
    have h3 : long (16384 * 2 ^ FsNSHIFT 512) = 2097152 := by decide
    have hten : ((NADDR - 3 : ℕ) : ℤ) = 10 := rfl
    rw [hten, levels, h1, if_neg (by omega), levels, h2, if_neg (by omega), levels, h3,
      if_neg (by omega), levels]
  | large h =>
    have hq : n * bsize / bsize < limit bsize := off_t_limit h hoff
    have hpos : 0 < bsize := by
      rw [h.eq.1]
      have := h.eq.2
      omega
    rw [Nat.mul_div_cancel _ hpos] at hq
    omega

/-- A call that reads follows the path to the last of the indirect blocks. -/
theorem fetchAhead_read (h : AnySize bsize) (raflag : Bool) (u_offset : ℤ) (disk : Disk) (m r : ℕ)
    {nb : ℕ} (hnb : nb ≠ 0) :
    fetchAhead c bsize raflag u_offset past disk m (r + 1) ((r + 1) * FsNSHIFT bsize) nb =
      if walk (cell bsize disk) nb (indices (FsNINDIR bsize) r (m / FsNINDIR bsize)) = 0 then
        (none, .none)
      else
        (found (cell bsize disk (walk (cell bsize disk) nb
            (indices (FsNINDIR bsize) r (m / FsNINDIR bsize))) (m % FsNINDIR bsize)),
          aheadIndir c bsize raflag u_offset
            (buffer bsize past (disk (walk (cell bsize disk) nb
              (indices (FsNINDIR bsize) r (m / FsNINDIR bsize)) * (bsize / 1024) +
                m % FsNINDIR bsize / 256 : ℕ)))
            (m % FsNINDIR bsize % 256)) := by
  induction r generalizing nb with
  | zero =>
    have hpath : walk (cell bsize disk) nb (indices (FsNINDIR bsize) 0 (m / FsNINDIR bsize)) = nb :=
      walk_nil _
    rw [hpath, if_neg hnb]
    unfold fetchAhead
    simp only [h.index_eq, pow_zero, Nat.div_one, high_bits, low_bits, if_true]
    have hentry : buffer bsize past
        (disk (nb * (bsize / 1024) + m % FsNINDIR bsize / 256 : ℕ)) (m % FsNINDIR bsize % 256) =
          cell bsize disk nb (m % FsNINDIR bsize) := if_pos (h.entry_lt m)
    rw [hentry]
  | succ r ih =>
    have hpath : indices (FsNINDIR bsize) (r + 1) (m / FsNINDIR bsize) =
        m / FsNINDIR bsize ^ (r + 1) % FsNINDIR bsize ::
          indices (FsNINDIR bsize) r (m / FsNINDIR bsize) := by
      have hhead : indices (FsNINDIR bsize) (r + 1) (m / FsNINDIR bsize) =
          m / FsNINDIR bsize / FsNINDIR bsize ^ r % FsNINDIR bsize ::
            indices (FsNINDIR bsize) r (m / FsNINDIR bsize) := rfl
      rw [hhead, Nat.div_div_eq_div_mul, ← pow_succ']
    have hsh : (r + 1 + 1) * FsNSHIFT bsize - FsNSHIFT bsize = (r + 1) * FsNSHIFT bsize := by
      rw [Nat.succ_mul, Nat.add_sub_cancel]
    have hentry : buffer bsize past (disk (nb * (bsize / 1024) +
        m / FsNINDIR bsize ^ (r + 1) % FsNINDIR bsize / 256 : ℕ))
          (m / FsNINDIR bsize ^ (r + 1) % FsNINDIR bsize % 256) =
        cell bsize disk nb (m / FsNINDIR bsize ^ (r + 1) % FsNINDIR bsize) :=
      if_pos (h.entry_lt _)
    rw [hpath, walk_cons hnb, fetchAhead]
    simp only [h.index_eq, high_bits, low_bits]
    rw [hentry, if_neg (Nat.succ_ne_zero r), hsh]
    generalize cell bsize disk nb (m / FsNINDIR bsize ^ (r + 1) % FsNINDIR bsize) = nb'
    by_cases hzero : nb' = 0
    · rw [if_pos hzero, hzero, walk_zero, if_pos rfl]
    · rw [if_neg hzero]
      exact ih hzero

/-- The read-ahead of a block that is not in the inode -/
theorem blockAhead_far (h : AnySize bsize) (raflag : Bool) (u_offset : ℤ) (h10 : 10 ≤ n)
    (hn : n < limit bsize) (hoff : n * bsize < 2 ^ 31) (s : File) :
    blockAhead c bsize raflag u_offset past n s.s5i_addr s.disk =
      if parent bsize s n = 0 then (none, .none)
      else (found (data bsize s n),
        aheadIndir c bsize raflag u_offset (window bsize past s n) (index bsize n % 256)) := by
  obtain ⟨r, m, hr, hm, hrm, hplace⟩ := place_far h10 hn
  have hp := (hplace 0 hm).2
  simp only [Nat.add_zero, indices_concat] at hp
  have hten : NADDR - 3 = 10 := rfl
  have hcast : (n : ℤ) - (10 : ℕ) = (n - 10 : ℕ) := by omega
  have hlevels : levels (FsNSHIFT bsize) 3 0 1 (n - 10 : ℕ) =
      some (3 - r, (r + 1) * FsNSHIFT bsize, (m : ℤ)) := by
    have hsmall : (n - 10) * bsize < 2 ^ 31 :=
      lt_of_le_of_lt (Nat.mul_le_mul_right _ (Nat.sub_le _ _)) hoff
    rw [levels_any h (by unfold limit at hn; omega) hsmall]
    rcases hrm with ⟨rfl, rfl⟩ | ⟨rfl, hge, rfl⟩ | ⟨rfl, hge2, hge, rfl⟩
    · rw [pow_one] at hm
      rw [if_pos hm, Nat.one_mul]
    · rw [if_neg (by omega), if_pos hm]
    · rw [if_neg (by omega), if_neg (by omega)]
  unfold blockAhead
  rw [if_neg (by change ¬(n : ℤ) < (10 : ℕ); omega), hten, hcast, hlevels]
  simp only
  have hslot : NADDR - (3 - r) = 10 + r := by
    change 13 - (3 - r) = 10 + r
    omega
  have hcount : 4 - (3 - r) = r + 1 := by omega
  have hparent : parent bsize s n = walk (cell bsize s.disk) (s.s5i_addr (10 + r))
      (indices (FsNINDIR bsize) r (m / FsNINDIR bsize)) := by
    unfold parent look
    rw [hp, dropLast_concat]
  have hindex : index bsize n = m % FsNINDIR bsize := by
    unfold index
    rw [hp, getLastD_concat]
  rw [hslot, hcount]
  by_cases hzero : s.s5i_addr (10 + r) = 0
  · rw [if_pos hzero, hparent, hzero, walk_zero, if_pos rfl]
  · rw [if_neg hzero, fetchAhead_read h raflag u_offset s.disk m r hzero, ← hparent, ← hindex]
    by_cases hpar : parent bsize s n = 0
    · rw [if_pos hpar, if_pos hpar]
    · rw [if_neg hpar, if_neg hpar, data_far h10 hn, if_neg hpar]
      rfl

/-! ## The loops -/

section Scan

variable (bap : ℕ → ℕ) (nb i : ℕ) (stop : ℕ → Bool)

theorem scan_succ (left n racount : ℕ) :
    scan bap nb i stop (left + 1) n racount =
      if bap (i + n) = nb + n then
        if stop racount then (racount + 1, [i + n])
        else
          ((scan bap nb i stop left (n + 1) (racount + 1)).1,
            (i + n) :: (scan bap nb i stop left (n + 1) (racount + 1)).2)
      else (racount, [i + n]) := rfl

/-- The indices that are used come one after the other. -/
theorem scan_used (left n racount : ℕ) :
    ∀ y ∈ (scan bap nb i stop left n racount).2, ∃ d, d < left ∧ y = i + n + d := by
  induction left generalizing n racount with
  | zero => exact fun y hy => absurd hy not_mem_nil
  | succ left ih =>
    have hone : ∀ y ∈ [i + n], ∃ d, d < left + 1 ∧ y = i + n + d := fun y hy =>
      ⟨0, Nat.succ_pos left, mem_singleton.mp hy⟩
    rw [scan_succ]
    by_cases hrun : bap (i + n) = nb + n
    · rw [if_pos hrun]
      by_cases hstop : stop racount = true
      · rw [if_pos hstop]
        exact hone
      · rw [if_neg hstop]
        intro y hy
        rcases mem_cons.mp hy with rfl | hy
        · exact ⟨0, Nat.succ_pos left, rfl⟩
        · obtain ⟨d, hd, rfl⟩ := ih (n + 1) (racount + 1) y hy
          exact ⟨d + 1, Nat.succ_lt_succ hd, by omega⟩
    · rw [if_neg hrun]
      exact hone

/-- The loop comes to an entry when the run comes up to it. -/
theorem mem_scan (left n racount d : ℕ) :
    i + n + d ∈ (scan bap nb i stop left n racount).2 ↔
      d < left ∧ ∀ x, x < d → bap (i + n + x) = nb + n + x ∧ stop (racount + x) = false := by
  induction left generalizing n racount d with
  | zero => exact iff_of_false not_mem_nil fun h => absurd h.1 (Nat.not_lt_zero d)
  | succ left ih =>
    rw [scan_succ]
    -- the first entry is always used, and it is the only one when the loop ends there
    have hlast (h : ¬(bap (i + n) = nb + n ∧ stop racount = false)) : i + n + d ∈ [i + n] ↔
        d < left + 1 ∧ ∀ x, x < d → bap (i + n + x) = nb + n + x ∧ stop (racount + x) = false := by
      rw [mem_singleton]
      constructor
      · intro hd
        have hzero : d = 0 := by omega
        rw [hzero]
        exact ⟨Nat.succ_pos left, fun x hx => absurd hx (Nat.not_lt_zero x)⟩
      · rintro ⟨-, hall⟩
        by_contra hd
        exact h (hall 0 (by omega))
    by_cases hrun : bap (i + n) = nb + n
    · rw [if_pos hrun]
      by_cases hstop : stop racount = true
      · rw [if_pos hstop]
        exact hlast fun h => absurd (hstop.symm.trans h.2) (by decide)
      · rw [if_neg hstop]
        have hstop' : stop racount = false := Bool.eq_false_iff.mpr hstop
        cases d with
        | zero =>
          exact iff_of_true mem_cons_self
            ⟨Nat.succ_pos left, fun x hx => absurd hx (Nat.not_lt_zero x)⟩
        | succ d =>
          have hne : i + n + (d + 1) ≠ i + n := by omega
          have hnext : i + n + (d + 1) = i + (n + 1) + d := by omega
          rw [mem_cons, or_iff_right hne, hnext, ih (n + 1) (racount + 1) d]
          constructor
          · rintro ⟨hd, hall⟩
            refine ⟨Nat.succ_lt_succ hd, fun x hx => ?_⟩
            cases x with
            | zero => exact ⟨hrun, hstop'⟩
            | succ x =>
              have hx' := hall x (Nat.lt_of_succ_lt_succ hx)
              have h1 : i + n + (x + 1) = i + (n + 1) + x := by omega
              have h2 : nb + n + (x + 1) = nb + (n + 1) + x := by omega
              have h3 : racount + (x + 1) = racount + 1 + x := by omega
              rw [h1, h2, h3]
              exact hx'
          · rintro ⟨hd, hall⟩
            refine ⟨Nat.lt_of_succ_lt_succ hd, fun x hx => ?_⟩
            have hx' := hall (x + 1) (Nat.succ_lt_succ hx)
            have h1 : i + n + (x + 1) = i + (n + 1) + x := by omega
            have h2 : nb + n + (x + 1) = nb + (n + 1) + x := by omega
            have h3 : racount + (x + 1) = racount + 1 + x := by omega
            rw [h1, h2, h3] at hx'
            exact hx'
    · rw [if_neg hrun]
      exact hlast fun h => hrun h.1

/-- The entries that are counted continue the run, and have been used; an entry is used when all
before it have been counted. -/
theorem scan_count (left n racount : ℕ) :
    ∃ k, (scan bap nb i stop left n racount).1 = racount + k ∧
      (∀ x, x < k → bap (i + n + x) = nb + n + x ∧
        i + n + x ∈ (scan bap nb i stop left n racount).2) ∧
      ∀ d, i + n + d ∈ (scan bap nb i stop left n racount).2 → d ≤ k := by
  induction left generalizing n racount with
  | zero =>
    exact ⟨0, rfl, fun x hx => absurd hx (Nat.not_lt_zero x), fun d hd => absurd hd not_mem_nil⟩
  | succ left ih =>
    rw [scan_succ]
    by_cases hrun : bap (i + n) = nb + n
    · rw [if_pos hrun]
      by_cases hstop : stop racount = true
      · rw [if_pos hstop]
        refine ⟨1, rfl, fun x hx => ?_, fun d hd => ?_⟩
        · obtain rfl : x = 0 := by omega
          exact ⟨hrun, mem_singleton_self _⟩
        · have hd' := mem_singleton.mp hd
          omega
      · rw [if_neg hstop]
        obtain ⟨k, hk, hall, hle⟩ := ih (n + 1) (racount + 1)
        refine ⟨k + 1, ?_, fun x hx => ?_, fun d hd => ?_⟩
        · rw [hk]
          omega
        · cases x with
          | zero => exact ⟨hrun, mem_cons_self⟩
          | succ x =>
            obtain ⟨hx1, hx2⟩ := hall x (by omega)
            have h1 : i + n + (x + 1) = i + (n + 1) + x := by omega
            have h2 : nb + n + (x + 1) = nb + (n + 1) + x := by omega
            rw [h1, h2]
            exact ⟨hx1, mem_cons_of_mem _ hx2⟩
        · cases d with
          | zero => exact Nat.zero_le _
          | succ d =>
            have h1 : i + n + (d + 1) = i + (n + 1) + d := by omega
            have hne : i + (n + 1) + d ≠ i + n := by omega
            rw [h1, mem_cons, or_iff_right hne] at hd
            exact Nat.succ_le_succ (hle d hd)
    · rw [if_neg hrun]
      refine ⟨0, rfl, fun x hx => absurd hx (Nat.not_lt_zero x), fun d hd => ?_⟩
      have hd' := mem_singleton.mp hd
      omega

end Scan

/-! ## The word `u_rablock` -/

theorem bits_nat {x : ℕ} (hx : x < 2 ^ 32) : bits x = x := by
  unfold bits
  omega

/-- The mark and the count -/
theorem marked (x : ℤ) :
    2 ^ 31 ||| bits x ≠ 0 ∧ (2 ^ 31 ||| bits x) &&& 2 ^ 31 ≠ 0 ∧
      (2 ^ 31 ||| bits x) &&& (2 ^ 31 - 1) = (x % 2 ^ 31).toNat := by
  have hbit : (2 ^ 31 ||| bits x).testBit 31 = true := by
    rw [Nat.testBit_or, Nat.testBit_two_pow_self, Bool.true_or]
  have hand : (2 ^ 31 ||| bits x) &&& 2 ^ 31 ≠ 0 := by
    intro h
    have hzero := congrArg (fun y => y.testBit 31) h
    simp only [Nat.testBit_and, hbit, Nat.testBit_two_pow_self, Nat.zero_testBit, Bool.and_self] at hzero
    exact absurd hzero (by decide)
  refine ⟨fun h => hand (by rw [h, Nat.zero_and]), hand, ?_⟩
  rw [Nat.and_two_pow_sub_one_eq_mod, Nat.or_mod_two_pow, Nat.mod_self, Nat.zero_or]
  unfold bits
  omega

theorem unmarked {x : ℕ} (hx : x < 2 ^ 31) : x &&& 2 ^ 31 = 0 := by
  rw [Nat.and_two_pow, Nat.testBit_lt_two_pow hx]
  rfl

theorem asks_count {ret : Option ℕ} {x blk : ℕ} (hx : x < 2 ^ 31) :
    Asks ret (2 ^ 31 ||| bits x) blk ↔ ∃ b, ret = some b ∧ b < blk ∧ blk ≤ b + x := by
  obtain ⟨-, hmark, hcount⟩ := marked x
  have hnat : ((x : ℤ) % 2 ^ 31).toNat = x := by omega
  unfold Asks
  rw [if_pos hmark, hcount, hnat]

theorem asks_single {ret : Option ℕ} {x blk : ℕ} (hx : x < 2 ^ 31) : Asks ret x blk ↔ blk = x := by
  unfold Asks
  rw [if_neg (not_not.mpr (unmarked hx))]

/-- The chunk of a block that an offset is in -/
theorem land_large (h : Size bsize) (q : ℕ) :
    Int.land ((q : ℤ) >>> 10) (((bsize / 1024 : ℕ) : ℤ) - 1) = (q / 1024 % (bsize / 1024) : ℕ) := by
  have hshift : q >>> 10 = q / 1024 := Nat.shiftRight_eq_div_pow q 10
  rw [← hshift]
  cases h with
  | s1024 => exact congrArg Int.ofNat (Nat.and_two_pow_sub_one_eq_mod (q >>> 10) 0)
  | s2048 => exact congrArg Int.ofNat (Nat.and_two_pow_sub_one_eq_mod (q >>> 10) 1)
  | s4096 => exact congrArg Int.ofNat (Nat.and_two_pow_sub_one_eq_mod (q >>> 10) 2)
  | s8192 => exact congrArg Int.ofNat (Nat.and_two_pow_sub_one_eq_mod (q >>> 10) 3)

/-- With blocks of 512 bytes the mask is -1. -/
theorem land_small (q : ℕ) : Int.land ((q : ℤ) >>> 10) (((512 / 1024 : ℕ) : ℤ) - 1) = (q / 1024 : ℕ) := by
  have hshift : q >>> 10 = q / 1024 := Nat.shiftRight_eq_div_pow q 10
  have hdiff : Nat.ldiff (q >>> 10) 0 = q >>> 10 := by
    apply Nat.eq_of_testBit_eq
    intro j
    simp [Nat.testBit_ldiff]
  rw [← hshift]
  exact congrArg Int.ofNat hdiff

/-- The chunks that a run comes to, with those that are left of the block -/
def reach (bsize q racount : ℕ) : ℕ :=
  racount * (bsize / 1024) + (bsize / 1024 - 1 - q / 1024 % (bsize / 1024))

theorem hint_large (h : Size bsize) (hc : c.coal_enb = true) (q : ℕ) (bap : ℕ → ℕ) (i : ℕ)
    (run : ℕ × List ℕ) :
    hint c bsize q bap i run =
      if reach bsize q run.1 ≠ 0 then (2 ^ 31 ||| bits (min (reach bsize q run.1) c.t_maxrdahead : ℕ), run.2)
      else (bits (bap (i + 1) * (bsize / 1024) : ℕ), run.2 ++ [i + 1]) := by
  have hpos := h.eq.2
  have hlow := Nat.mod_lt (q / 1024) hpos
  have hreach : (run.1 : ℤ) * (bsize / 1024 : ℕ) +
      (((bsize / 1024 : ℕ) : ℤ) - 1 - (q / 1024 % (bsize / 1024) : ℕ)) = (reach bsize q run.1 : ℕ) := by
    unfold reach
    rw [Nat.cast_add, Nat.cast_mul]
    omega
  unfold hint
  simp only [hc, if_true]
  rw [land_large h, hreach]
  by_cases hzero : reach bsize q run.1 = 0
  · rw [if_neg (by omega), if_neg (by omega), Nat.cast_mul]
  · rw [if_pos (by omega), if_pos hzero]
    by_cases hmax : ((reach bsize q run.1 : ℕ) : ℤ) > c.t_maxrdahead
    · rw [if_pos hmax, Nat.min_eq_right (by omega)]
    · rw [if_neg hmax, Nat.min_eq_left (by omega)]

theorem hint_single (hc : c.coal_enb = false) (q : ℕ) (bap : ℕ → ℕ) (i : ℕ) (run : ℕ × List ℕ) :
    hint c bsize q bap i run = (bits (bap (i + 1) * (bsize / 1024) : ℕ), [i + 1]) := by
  unfold hint
  simp only [hc, Nat.cast_mul]
  rfl

/-- With blocks of 512 bytes, the count is negative. -/
theorem hint_small (hc : c.coal_enb = true) (q : ℕ) (bap : ℕ → ℕ) (i : ℕ) (run : ℕ × List ℕ) :
    hint c 512 q bap i run = (2 ^ 31 ||| bits (-1 - (q / 1024 : ℕ)), run.2) := by
  have hk : ((512 / 1024 : ℕ) : ℤ) = 0 := by decide
  have hland := land_small q
  rw [hk] at hland
  unfold hint
  simp only [hc, if_true]
  rw [hk, hland, Int.mul_zero, if_pos (by omega), if_neg (by omega)]
  have hsum : (0 : ℤ) + (0 - 1 - (q / 1024 : ℕ)) = -1 - (q / 1024 : ℕ) := by omega
  rw [hsum]

/-! ## The chunks that are read ahead -/

/-- The disk addresses of the file's blocks fit into a `daddr_t`, in chunks. -/
def Fits (bsize : ℕ) (s : File) : Prop := ∀ n, n < limit bsize → data bsize s n * per bsize < 2 ^ 31

/-- The entries from `i` up to `top` are the addresses of the blocks from `n` on. -/
structure Shown (bsize : ℕ) (s : File) (n top i : ℕ) (bap : ℕ → ℕ) : Prop where
  lt : i < top
  data : ∀ x, i + x < top → n + x < limit bsize ∧ bap (i + x) = data bsize s (n + x)

theorem Shown.here {top i : ℕ} {bap : ℕ → ℕ} (hs : Shown bsize s n top i bap) :
    n < limit bsize ∧ bap i = Map.data bsize s n := hs.data 0 hs.lt

theorem Size.per (h : Size bsize) : per bsize = bsize / 1024 := by
  unfold Map.per
  rw [h.large]

/-- The chunks of a run follow. -/
theorem follows_count (h : Size bsize) {top i q k x : ℕ} {bap : ℕ → ℕ}
    (hs : Shown bsize s (q / bsize) top i bap)
    (hrun : ∀ y, y < k → bap (i + 1 + y) = bap i + 1 + y ∧ i + 1 + y < top)
    (hx : x ≤ reach bsize q k) (hx' : x < 2 ^ 31) {blk : ℕ}
    (hblk : Asks ((found (data bsize s (q / bsize))).map (chunk bsize q)) (2 ^ 31 ||| bits x) blk) :
    ∃ q', q / 1024 < q' ∧ q' / per bsize < limit bsize ∧ logical bsize s q' = some blk := by
  have hpos := h.eq.2
  have hdiv := h.div q
  have hdm := Nat.div_add_mod (q / 1024) (bsize / 1024)
  have hlow := Nat.mod_lt (q / 1024) hpos
  rw [hdiv] at hdm
  rw [asks_count hx'] at hblk
  obtain ⟨b, hb, hlt, hle⟩ := hblk
  obtain ⟨nb, hnb, rfl⟩ := Option.map_eq_some_iff.mp hb
  rw [chunk_eq h] at hlt hle
  unfold found at hnb
  by_cases hzero : data bsize s (q / bsize) = 0
  · rw [if_pos hzero] at hnb
    exact absurd hnb nofun
  rw [if_neg hzero] at hnb
  obtain rfl := Option.some.inj hnb
  unfold reach at hx
  generalize hK : bsize / 1024 = K at *
  generalize hoff : q / 1024 % K = off at *
  generalize hn : q / bsize = n at *
  obtain ⟨j, rfl⟩ : ∃ j, blk = data bsize s n * K + off + j := ⟨blk - (data bsize s n * K + off), by omega⟩
  -- the block of the run that the chunk is in
  have hjdm := Nat.div_add_mod (off + j) K
  have hjlow := Nat.mod_lt (off + j) hpos
  have hstep : (off + j) / K ≤ k := by
    refine Nat.le_of_lt_succ (Nat.div_lt_of_lt_mul ?_)
    rw [Nat.mul_succ, Nat.mul_comm]
    omega
  have hin : i + (off + j) / K < top := by
    cases hcase : (off + j) / K with
    | zero => exact hs.lt
    | succ y =>
      have hy := (hrun y (by omega)).2
      omega
  obtain ⟨hlim, hdata⟩ := hs.data _ hin
  have hval : data bsize s (n + (off + j) / K) = data bsize s n + (off + j) / K := by
    rw [← hdata]
    cases hcase : (off + j) / K with
    | zero => exact hs.here.2
    | succ y =>
      have hy := (hrun y (by omega)).1
      rw [hs.here.2] at hy
      have heq : i + (y + 1) = i + 1 + y := by omega
      rw [heq, hy]
      omega
  have hchunk : (n * K + (off + j)) / K = n + (off + j) / K := by
    rw [Nat.mul_comm, Nat.mul_add_div hpos]
  have hmod : (n * K + (off + j)) % K = (off + j) % K := by
    rw [Nat.mul_comm, Nat.mul_add_mod]
  refine ⟨n * K + (off + j), ?_, ?_, ?_⟩
  · rw [Nat.mul_comm] at hdm
    omega
  · rw [h.per, hK, hchunk]
    exact hlim
  · have hne : data bsize s n + (off + j) / K ≠ 0 := fun heq =>
      hzero (Nat.eq_zero_of_add_eq_zero_right heq)
    unfold logical
    rw [h.per, hK, hchunk, hval, found, if_neg hne, hmod]
    refine congrArg some ?_
    show (data bsize s n + (off + j) / K) * K + (off + j) % K = data bsize s n * K + off + j
    rw [Nat.add_mul]
    rw [Nat.mul_comm] at hjdm
    omega

/-- So does the first chunk of the next block. -/
theorem follows_single (h : Size bsize) (hfits : Fits bsize s) {top i q : ℕ} {bap : ℕ → ℕ}
    (hs : Shown bsize s (q / bsize) top i bap) (hin : i + 1 < top)
    (hne : bits (bap (i + 1) * (bsize / 1024) : ℕ) ≠ 0) {ret : Option ℕ} {blk : ℕ}
    (hblk : Asks ret (bits (bap (i + 1) * (bsize / 1024) : ℕ)) blk) :
    ∃ q', q / 1024 < q' ∧ q' / per bsize < limit bsize ∧ logical bsize s q' = some blk := by
  have hpos := h.eq.2
  have hdiv := h.div q
  have hdm := Nat.div_add_mod (q / 1024) (bsize / 1024)
  have hlow := Nat.mod_lt (q / 1024) hpos
  obtain ⟨hlim, hdata⟩ := hs.data 1 hin
  have hlt := hfits _ hlim
  rw [h.per, ← hdata] at hlt
  rw [bits_nat (by omega)] at hne hblk
  rw [asks_single hlt] at hblk
  rw [hdiv] at hdm
  have hzero : bap (i + 1) ≠ 0 := by
    intro h0
    rw [h0, Nat.zero_mul] at hne
    exact hne rfl
  refine ⟨(q / bsize + 1) * (bsize / 1024), ?_, ?_, ?_⟩
  · rw [Nat.add_mul, Nat.mul_comm]
    omega
  · rw [h.per, Nat.mul_div_cancel _ hpos]
    exact hlim
  · unfold logical
    rw [h.per, Nat.mul_div_cancel _ hpos, ← hdata, Nat.mul_mod_left, found, if_neg hzero, hblk]
    rfl

/-- With blocks of 512 bytes more blocks are to be read ahead than a file has. -/
theorem count_small {q b : ℕ} (hq : q < 2 ^ 31)
    (hall : ∀ blk, Asks (some b) (2 ^ 31 ||| bits (-1 - (q / 1024 : ℕ))) blk →
      ∃ q', q' / per 512 < limit 512 ∧ logical 512 s q' = some blk) : False := by
  obtain ⟨-, hmark, hcount⟩ := marked (-1 - (q / 1024 : ℕ))
  have hper : per 512 = 1 := by decide
  have hlimit : limit 512 = 2113674 := by decide
  have hmany : ((-1 - ((q / 1024 : ℕ) : ℤ)) % 2 ^ 31).toNat = 2 ^ 31 - 1 - q / 1024 := by omega
  have hblocks : ∀ j : Fin (2113674 + 1), ∃ q', q' < 2113674 ∧ logical 512 s q' = some (b + 1 + j) := by
    intro j
    have hasked : Asks (some b) (2 ^ 31 ||| bits (-1 - (q / 1024 : ℕ))) (b + 1 + j) := by
      unfold Asks
      rw [if_pos hmark, hcount, hmany]
      have hj := j.isLt
      exact ⟨b, rfl, by omega, by omega⟩
    obtain ⟨q', hlt, hq'⟩ := hall _ hasked
    rw [hper, hlimit, Nat.div_one] at hlt
    exact ⟨q', hlt, hq'⟩
  choose f hlt hf using hblocks
  have hinj : Function.Injective fun j => (⟨f j, hlt j⟩ : Fin 2113674) := by
    intro j j' heq
    have hfj : f j = f j' := congrArg Fin.val heq
    have hb := hf j
    rw [hfj, hf j'] at hb
    have hval := Option.some.inj hb
    exact Fin.ext (by omega)
  have hcard := Fintype.card_le_of_injective _ hinj
  rw [Fintype.card_fin, Fintype.card_fin] at hcard
  omega

/-! ## Past the end -/

/-- The loop comes to the entry `top`: the run goes on up to the entry before, and neither the bound nor
`stop` ends it. -/
def Comes (bap : ℕ → ℕ) (top i : ℕ) (stop : ℕ → Bool) (left : ℕ) : Prop :=
  top - i - 1 < left ∧
    ∀ x, x < top - i - 1 → bap (i + 1 + x) = bap i + 1 + x ∧ stop x = false

/-- The read-ahead uses the entry `top`: in the loop, or as the next entry, when that is not NULL. -/
def Past (c : Tune) (bsize q : ℕ) (bap : ℕ → ℕ) (top i : ℕ) (stop : ℕ → Bool) (left : ℕ) : Prop :=
  c.coal_enb = true ∧ Comes bap top i stop left ∧
      (i + 1 < top ∨ q / 1024 % (bsize / 1024) + 1 ≠ bsize / 1024) ∨
    i + 1 = top ∧ (c.coal_enb = false ∨ q / 1024 % (bsize / 1024) + 1 = bsize / 1024) ∧
      bits (bap top * (bsize / 1024) : ℕ) ≠ 0

section Window

variable {top i q left : ℕ} {bap : ℕ → ℕ} {stop : ℕ → Bool}

theorem comes_iff (hi : i < top) :
    Comes bap top i stop left ↔ top ∈ (scan bap (bap i) i stop left 1 0).2 := by
  have hmem := mem_scan bap (bap i) i stop left 1 0 (top - i - 1)
  have htop : i + 1 + (top - i - 1) = top := by omega
  simp only [htop, Nat.zero_add] at hmem
  exact hmem.symm

/-- The indices stay below `top` when the loop does not come there. -/
theorem used_lt (hi : i < top) (h : ¬Comes bap top i stop left) :
    ∀ y ∈ (scan bap (bap i) i stop left 1 0).2, y < top := by
  intro y hy
  by_contra hge
  obtain ⟨d, -, rfl⟩ := scan_used bap (bap i) i stop left 1 0 y hy
  obtain ⟨hd, hall⟩ := (mem_scan bap (bap i) i stop left 1 0 d).mp hy
  refine h ⟨by omega, fun x hx => ?_⟩
  have hx' := hall x (by omega)
  rw [Nat.zero_add] at hx'
  exact hx'

/-- What the read-ahead of a window has to keep to -/
def Kept (bsize : ℕ) (s : File) (q top : ℕ) (ret : Option ℕ) (r : ℕ × List ℕ) : Prop :=
  r.1 ≠ 0 →
    (∀ blk, Asks ret r.1 blk →
      ∃ q', q / 1024 < q' ∧ q' / per bsize < limit bsize ∧ logical bsize s q' = some blk) ∧
    ∀ y ∈ r.2, y < top

/-- The address of the next block, when it is one of the entries -/
theorem kept_single (h : Size bsize) (hfits : Fits bsize s) (hs : Shown bsize s (q / bsize) top i bap)
    {used : List ℕ} (hused : ∀ y ∈ used, y < top) (ret : Option ℕ) :
    Kept bsize s q top ret (bits (bap (i + 1) * (bsize / 1024) : ℕ), used ++ [i + 1]) ↔
      ¬(i + 1 = top ∧ bits (bap top * (bsize / 1024) : ℕ) ≠ 0) := by
  by_cases hlast : i + 1 = top
  · rw [← hlast]
    constructor
    · rintro hkept ⟨-, hne⟩
      exact absurd ((hkept hne).2 (i + 1) (mem_append_right _ mem_cons_self)) (by omega)
    · intro hno hne
      exact absurd ⟨rfl, hne⟩ hno
  · have hlt : i + 1 < top := by
      have := hs.lt
      omega
    refine iff_of_true (fun hne => ⟨fun blk => follows_single h hfits hs hlt hne, fun y hy => ?_⟩)
      fun hno => hlast hno.1
    rcases mem_append.mp hy with hy | hy
    · exact hused y hy
    · rw [mem_singleton.mp hy]
      exact hlt

theorem kept_iff (h : Size bsize) (hfits : Fits bsize s) (hs : Shown bsize s (q / bsize) top i bap) :
    Kept bsize s q top ((found (data bsize s (q / bsize))).map (chunk bsize q))
        (hint c bsize q bap i (scan bap (bap i) i stop left 1 0)) ↔
      ¬Past c bsize q bap top i stop left := by
  have hpos := h.eq.2
  have hlow := Nat.mod_lt (q / 1024) hpos
  have hi := hs.lt
  unfold Past
  cases hc : c.coal_enb with
  | false =>
    rw [hint_single hc]
    have hnone : ∀ y ∈ ([] : List ℕ), y < top := fun y hy => absurd hy not_mem_nil
    have hkept := kept_single h hfits hs hnone ((found (data bsize s (q / bsize))).map (chunk bsize q))
    rw [nil_append] at hkept
    rw [hkept]
    simp
  | true =>
    obtain ⟨k, hk, hrun, hle⟩ := scan_count bap (bap i) i stop left 1 0
    rw [Nat.zero_add] at hk
    rw [hint_large h hc, hk]
    by_cases hcomes : Comes bap top i stop left
    · have hmem := (comes_iff hi).mp hcomes
      have hge : top - i - 1 ≤ k := by
        refine hle (top - i - 1) ?_
        have htop : i + 1 + (top - i - 1) = top := by omega
        rw [htop]
        exact hmem
      by_cases hzero : reach bsize q k = 0
      · -- the run is empty, at the end of the block and of the entries
        have hrest : q / 1024 % (bsize / 1024) + 1 = bsize / 1024 := by
          unfold reach at hzero
          omega
        have hk0 : k = 0 := by
          unfold reach at hzero
          rcases Nat.mul_eq_zero.mp (Nat.eq_zero_of_add_eq_zero_right hzero) with h0 | h0
          · exact h0
          · omega
        have hlast : i + 1 = top := by omega
        rw [if_neg (not_not.mpr hzero), hlast]
        constructor
        · rintro hkept (⟨-, -, hlt | hne⟩ | ⟨-, -, hne⟩)
          · exact absurd hlt (Nat.lt_irrefl _)
          · exact hne hrest
          · exact absurd ((hkept hne).2 top (mem_append_left _ hmem)) (Nat.lt_irrefl _)
        · intro hno hne
          exact absurd (.inr ⟨rfl, .inr hrest, hne⟩) hno
      · rw [if_pos hzero]
        refine iff_of_false (fun hkept => ?_) (not_not.mpr ?_)
        · exact absurd ((hkept (marked _).1).2 top hmem) (Nat.lt_irrefl _)
        · by_cases hedge : i + 1 < top ∨ q / 1024 % (bsize / 1024) + 1 ≠ bsize / 1024
          · exact .inl ⟨rfl, hcomes, hedge⟩
          · have hlast : i + 1 = top := by omega
            have hrest : q / 1024 % (bsize / 1024) + 1 = bsize / 1024 := by omega
            have hk1 : 0 < k := by
              rcases Nat.eq_zero_or_pos k with h0 | h0
              · unfold reach at hzero
                rw [h0, Nat.zero_mul] at hzero
                omega
              · exact h0
            have hnext := (hrun 0 hk1).1
            rw [Nat.add_zero, Nat.add_zero, hlast, hs.here.2] at hnext
            have hlt := hfits _ hs.here.1
            rw [h.per] at hlt
            refine .inr ⟨hlast, .inr hrest, ?_⟩
            rw [hnext]
            have hsmall : bsize / 1024 ≤ 8 := by
              cases h <;> decide
            have hsum : (data bsize s (q / bsize) + 1) * (bsize / 1024) =
                data bsize s (q / bsize) * (bsize / 1024) + bsize / 1024 := Nat.succ_mul _ _
            have hword : data bsize s (q / bsize) * (bsize / 1024) + bsize / 1024 < 2 ^ 32 := by omega
            rw [hsum, bits_nat hword]
            omega
    · have hused := used_lt hi hcomes
      by_cases hzero : reach bsize q k = 0
      · have hrest : q / 1024 % (bsize / 1024) + 1 = bsize / 1024 := by
          unfold reach at hzero
          omega
        rw [if_neg (not_not.mpr hzero), kept_single h hfits hs hused]
        constructor
        · rintro hno (⟨-, hc', -⟩ | ⟨hlast, -, hne⟩)
          · exact hcomes hc'
          · exact hno ⟨hlast, hne⟩
        · rintro hno ⟨hlast, hne⟩
          exact hno (.inr ⟨hlast, .inr hrest, hne⟩)
      · rw [if_pos hzero]
        refine iff_of_true (fun _ => ⟨fun blk hblk => ?_, hused⟩) ?_
        · have hmax := c.maxrdahead_lt
          exact follows_count h hs (fun y hy => ⟨(hrun y hy).1, hused _ (hrun y hy).2⟩)
            (Nat.min_le_left _ _) (Nat.lt_of_le_of_lt (Nat.min_le_right _ _) hmax) hblk
        · rintro (⟨-, hc', -⟩ | ⟨hlast, hrest, -⟩)
          · exact hcomes hc'
          · have hrest' := hrest.resolve_left (by decide)
            have hk1 : 0 < k := by
              rcases Nat.eq_zero_or_pos k with h0 | h0
              · unfold reach at hzero
                rw [h0, Nat.zero_mul] at hzero
                omega
              · exact h0
            have hlt := hused _ (hrun 0 hk1).2
            omega

end Window

/-! ## When a hint strays -/

/-- A call that reads inside of the file, after the block before, up to the end of the buffer -/
structure Reads (bsize : ℕ) (io : Io) (s : File) (q : ℕ) : Prop where
  offset : io.u_offset = q
  sequential : sequential bsize io s = true
  inside : (q : ℤ) < s.i_size

/-- The read-ahead in the inode comes to the address of the single indirect block, or, with blocks of
512 bytes, has a negative count. -/
def StraysDirect (c : Tune) (bsize : ℕ) (s : File) (n : ℕ) : Prop :=
  n < 9 ∧ s.s5i_addr n ≠ 0 ∧ c.coal_enb = true ∧
    (bsize = 512 ∨ ∀ m, n < m → m < 10 → s.s5i_addr m = s.s5i_addr n + (m - n))

/-- The read-ahead in an indirect block comes past the end of the buffer, or, with blocks of 512 bytes,
has a negative count. -/
def StraysIndir (c : Tune) (bsize : ℕ) (past : ℕ → ℕ) (s : File) (q : ℕ) : Prop :=
  let n := q / bsize
  let i := index bsize n % 256
  let top := FsBSIZE bsize / 4
  let stop := fun racount => decide (racount ≥ c.t_maxrdahead)
  let left := (c.dev.tdiv 4 - 1 - i).toNat
  10 ≤ n ∧ n < limit bsize ∧ parent bsize s n ≠ 0 ∧ i < FsNINDIR bsize - 1 ∧
    if bsize = 512 then
      c.coal_enb = true ∧ (data bsize s n ≠ 0 ∨ Comes (window bsize past s n) top i stop left)
    else Past c bsize q (window bsize past s n) top i stop left

def Strays (c : Tune) (bsize : ℕ) (past : ℕ → ℕ) (io : Io) (s : File) : Prop :=
  ∃ q, Reads bsize io s q ∧ (StraysDirect c bsize s (q / bsize) ∨ StraysIndir c bsize past s q)

theorem AnySize.bn_eq (h : AnySize bsize) (q : ℕ) : (q : ℤ) >>> FsBSHIFT bsize = (q / bsize : ℕ) := by
  have hshift : (q : ℤ) >>> FsBSHIFT bsize = (q >>> FsBSHIFT bsize : ℕ) := rfl
  rw [hshift, Nat.shiftRight_eq_div_pow, h.bshift]

theorem AnySize.fsbsize_pos (h : AnySize bsize) : 0 < FsBSIZE bsize := by
  cases h with
  | small => decide
  | large h =>
    rw [h.large]
    decide

theorem honest_none (io : Io) (s : File) (ret : Option ℕ) : Honest bsize io s (ret, .none) :=
  fun h => absurd rfl h

/-- A call for an offset that is not negative -/
theorem s5bread_eq (h : AnySize bsize) {q : ℕ} (hq : io.u_offset = q) :
    s5bread c bsize past io s =
      if 0 < io.u_count ∧ (q : ℤ) < s.i_size then
        ((blockAhead c bsize (sequential bsize io s) q past (q / bsize : ℕ) s.s5i_addr s.disk).1.map
            (chunk bsize q),
          (blockAhead c bsize (sequential bsize io s) q past (q / bsize : ℕ) s.s5i_addr s.disk).2)
      else (none, .none) := by
  have hlow := Int.emod_lt_of_pos (q : ℤ) (Int.natCast_pos.mpr h.fsbsize_pos)
  have hbn : ¬((q / bsize : ℕ) : ℤ) < 0 := Int.not_lt.mpr (Int.natCast_nonneg _)
  unfold s5bread
  rw [hq, h.bn_eq, if_neg hbn]
  simp only
  have hrem : (if (if s.i_size - (q : ℤ) < 0 then 0 else s.i_size - (q : ℤ)) <
        (if (io.u_count : ℤ) < FsBSIZE bsize - (q : ℤ) % FsBSIZE bsize then (io.u_count : ℤ)
          else FsBSIZE bsize - (q : ℤ) % FsBSIZE bsize) then
        (if s.i_size - (q : ℤ) < 0 then 0 else s.i_size - (q : ℤ))
      else (if (io.u_count : ℤ) < FsBSIZE bsize - (q : ℤ) % FsBSIZE bsize then (io.u_count : ℤ)
          else FsBSIZE bsize - (q : ℤ) % FsBSIZE bsize)) = 0 ↔
      ¬(0 < io.u_count ∧ (q : ℤ) < s.i_size) := by
    have hsz : 0 < (FsBSIZE bsize : ℤ) - (q : ℤ) % FsBSIZE bsize := by omega
    generalize (FsBSIZE bsize : ℤ) - (q : ℤ) % FsBSIZE bsize = sz at *
    by_cases hend : s.i_size - (q : ℤ) < 0
    · simp only [if_pos hend]
      split <;> (try split) <;> omega
    · simp only [if_neg hend]
      split <;> split <;> omega
  by_cases hin : 0 < io.u_count ∧ (q : ℤ) < s.i_size
  · rw [if_neg (fun hz => hrem.mp hz hin), if_pos hin]
  · rw [if_pos (hrem.mpr hin), if_neg hin]

/-- The read-ahead keeps to the window, in the terms of `Honest`. -/
theorem honest_large (h : Size bsize) {q : ℕ} (hq : io.u_offset = q) (ret : Option ℕ) (r : ℕ × List ℕ) :
    (Honest bsize io s (ret, ⟨r.1, r.2, []⟩) ↔ Kept bsize s q (NADDR - 3) ret r) ∧
      (Honest bsize io s (ret, ⟨r.1, [], r.2⟩) ↔ Kept bsize s q (FsBSIZE bsize / 4) ret r) := by
  have hchunk (q' : ℕ) : io.u_offset / FsBSIZE bsize < q' ↔ q / 1024 < q' := by
    rw [hq, h.large]
    omega
  unfold Honest Kept
  simp only [hchunk]
  constructor
  · simp
  · simp

/-- With blocks of 512 bytes, a count is right only when there is no block. -/
theorem honest_small {q : ℕ} (hq : io.u_offset = q) {ret : Option ℕ} {direct indir : List ℕ}
    (hh : Honest 512 io s (ret, ⟨2 ^ 31 ||| bits (-1 - (q / 1024 : ℕ)), direct, indir⟩)) :
    ret = none ∧ ∀ y ∈ indir, y < 128 := by
  have hlt : q < 2 ^ 31 := by
    have hoff := io.off_t.2
    omega
  obtain ⟨hall, -, hind⟩ := hh (marked _).1
  refine ⟨?_, hind⟩
  cases ret with
  | none => rfl
  | some b =>
    refine absurd ?_ (count_small (s := s) (b := b) hlt)
    intro blk hblk
    obtain ⟨q', -, hlim, hlog⟩ := hall blk hblk
    exact ⟨q', hlim, hlog⟩

theorem honest_hole (io : Io) (s : File) (x : ℤ) {indir : List ℕ} (hind : ∀ y ∈ indir, y < 128) :
    Honest 512 io s (none, ⟨2 ^ 31 ||| bits x, [], indir⟩) := by
  refine fun _ => ⟨fun blk hblk => ?_, fun y hy => absurd hy not_mem_nil, hind⟩
  unfold Asks at hblk
  rw [if_pos (marked x).2.1] at hblk
  obtain ⟨b, hb, -⟩ := hblk
  exact absurd hb nofun

/-- The direct addresses are a window of their own. -/
theorem shown_direct (bsize : ℕ) (hn : n < 10) (s : File) : Shown bsize s n (NADDR - 3) n s.s5i_addr := by
  refine ⟨hn, fun x hx => ?_⟩
  have hx' : n + x < 10 := hx
  refine ⟨?_, ?_⟩
  · unfold limit
    omega
  · have hplace : place bsize (n + x) = (n + x, []) := if_pos hx'
    unfold data look
    rw [hplace, walk_nil]

theorem shown_far (h : AnySize bsize) (past : ℕ → ℕ) (h10 : 10 ≤ n) (hn : n < limit bsize)
    (hparent : parent bsize s n ≠ 0) :
    Shown bsize s n (FsBSIZE bsize / 4) (index bsize n % 256) (window bsize past s n) := by
  refine ⟨?_, fun x hx => window_data h h10 hn hparent hx⟩
  have hlt := h.entry_lt (index bsize n)
  rwa [Nat.mod_eq_of_lt (index_lt h h10 hn)] at hlt

/-- The loop over the direct addresses comes to their end when they are all one run. -/
theorem comes_direct (hn : n < 9) (addr : ℕ → ℕ) :
    Comes addr (NADDR - 3) n (fun _ => false) (NADDR - 3 - n) ↔
      ∀ m, n < m → m < 10 → addr m = addr n + (m - n) := by
  have hten : NADDR - 3 = 10 := rfl
  unfold Comes
  rw [hten]
  constructor
  · rintro ⟨-, hall⟩ m hm hm'
    have hx := (hall (m - n - 1) (by omega)).1
    have heq : n + 1 + (m - n - 1) = m := by omega
    rw [heq] at hx
    omega
  · intro hall
    refine ⟨by omega, fun x hx => ⟨?_, rfl⟩⟩
    rw [hall (n + 1 + x) (by omega) (by omega)]
    omega

theorem blockAhead_near (hn : n < 10) (raflag : Bool) (u_offset : ℤ) (s : File) :
    blockAhead c bsize raflag u_offset past n s.s5i_addr s.disk =
      if s.s5i_addr n = 0 then (none, .none)
      else (some (s.s5i_addr n), aheadDirect c bsize raflag u_offset s.s5i_addr n) := by
  have hten : ((NADDR - 3 : ℕ) : ℤ) = 10 := rfl
  have hnat : (n : ℤ).toNat = n := rfl
  unfold blockAhead
  rw [hten, if_pos (by omega), hnat]

theorem aheadDirect_some (hn : n < 9) (u_offset : ℤ) (addr : ℕ → ℕ) :
    aheadDirect c bsize true u_offset addr n =
      ⟨(hint c bsize u_offset addr n (scan addr (addr n) n (fun _ => false) (NADDR - 3 - n) 1 0)).1,
        (hint c bsize u_offset addr n (scan addr (addr n) n (fun _ => false) (NADDR - 3 - n) 1 0)).2, []⟩ := by
  have hin : (decide (n < NADDR - 4) && true) = true := by
    rw [Bool.and_true]
    exact decide_eq_true hn
  unfold aheadDirect
  rw [if_pos hin]

/-- Blocks in the inode -/
theorem honest_direct (h : AnySize bsize) (hfits : Fits bsize s) {q : ℕ} (hq : io.u_offset = q)
    (hn : q / bsize < 10) :
    Honest bsize io s
        ((blockAhead c bsize true q past (q / bsize : ℕ) s.s5i_addr s.disk).1.map (chunk bsize q),
          (blockAhead c bsize true q past (q / bsize : ℕ) s.s5i_addr s.disk).2) ↔
      ¬StraysDirect c bsize s (q / bsize) := by
  have hs := shown_direct bsize hn s
  have hdata : data bsize s (q / bsize) = s.s5i_addr (q / bsize) := hs.here.2.symm
  rw [blockAhead_near hn]
  by_cases hzero : s.s5i_addr (q / bsize) = 0
  · rw [if_pos hzero]
    exact iff_of_true (honest_none io s _) fun hstray => hstray.2.1 hzero
  · rw [if_neg hzero]
    by_cases hnine : q / bsize < 9
    · simp only [aheadDirect_some hnine]
      unfold StraysDirect
      rw [← comes_direct hnine]
      cases h with
      | small =>
        cases hc : c.coal_enb with
        | false =>
          rw [hint_single hc]
          refine iff_of_true (fun hne => absurd ?_ hne) fun hstray => absurd hstray.2.2.1 (by decide)
          show bits (s.s5i_addr (q / 512 + 1) * (512 / 1024) : ℕ) = 0
          rfl
        | true =>
          rw [hint_small hc]
          exact iff_of_false (fun hh => absurd (honest_small hq hh).1 nofun)
            (not_not.mpr ⟨hnine, hzero, rfl, .inl rfl⟩)
      | large h =>
        have hne : bsize ≠ 512 := by
          cases h <;> decide
        have hsome : (some (s.s5i_addr (q / bsize))).map (chunk bsize q) =
            (found (data bsize s (q / bsize))).map (chunk bsize q) := by
          rw [hdata, found, if_neg hzero]
        rw [hsome, (honest_large h hq _ _).1, kept_iff h hfits hs]
        unfold Past
        have htop : NADDR - 3 = 10 := rfl
        constructor
        · rintro hno ⟨-, -, hcoal, hcomes⟩
          exact hno (.inl ⟨hcoal, hcomes.resolve_left hne, .inl (by omega)⟩)
        · rintro hno (⟨hcoal, hcomes, -⟩ | ⟨hlast, -⟩)
          · exact hno ⟨hnine, hzero, hcoal, .inr hcomes⟩
          · omega
    · have hidle : aheadDirect c bsize true q s.s5i_addr (q / bsize) = .none := by
        have hout : ¬(decide (q / bsize < NADDR - 4) && true) = true := by
          rw [Bool.and_true]
          exact fun hd => hnine (of_decide_eq_true hd)
        unfold aheadDirect
        rw [if_neg hout]
      simp only [hidle]
      exact iff_of_true (honest_none io s _) fun hstray => hnine hstray.1

/-- Blocks of an indirect block -/
theorem honest_indir (h : AnySize bsize) (hfits : Fits bsize s) {q : ℕ} (hq : io.u_offset = q)
    (h10 : 10 ≤ q / bsize) (hn : q / bsize < limit bsize) (hoff : q / bsize * bsize < 2 ^ 31) :
    Honest bsize io s
        ((blockAhead c bsize true q past (q / bsize : ℕ) s.s5i_addr s.disk).1.map (chunk bsize q),
          (blockAhead c bsize true q past (q / bsize : ℕ) s.s5i_addr s.disk).2) ↔
      ¬StraysIndir c bsize past s q := by
  rw [blockAhead_far h true q h10 hn hoff]
  by_cases hparent : parent bsize s (q / bsize) = 0
  · rw [if_pos hparent]
    exact iff_of_true (honest_none io s _) fun hstray => hstray.2.2.1 hparent
  · rw [if_neg hparent]
    have hs := shown_far h past h10 hn hparent
    by_cases hin : index bsize (q / bsize) % 256 < FsNINDIR bsize - 1
    · have hgo : (decide (index bsize (q / bsize) % 256 < FsNINDIR bsize - 1) && true) = true := by
        rw [Bool.and_true]
        exact decide_eq_true hin
      unfold StraysIndir aheadIndir
      simp only [if_pos hgo]
      cases h with
      | small =>
        rw [if_pos rfl]
        cases hc : c.coal_enb with
        | false =>
          rw [hint_single hc]
          refine iff_of_true (fun hne => absurd ?_ hne) fun hstray =>
            absurd hstray.2.2.2.2.1 (by decide)
          exact congrArg (fun x : ℕ => bits x) (Nat.mul_zero _)
        | true =>
          rw [hint_small hc]
          by_cases hdata : data 512 s (q / 512) = 0
          · have hret : (found (data 512 s (q / 512))).map (chunk 512 q) = none := by
              rw [hdata]
              rfl
            rw [hret]
            by_cases hcomes : Comes (window 512 past s (q / 512)) (FsBSIZE 512 / 4)
                (index 512 (q / 512) % 256) (fun racount => decide (racount ≥ c.t_maxrdahead))
                (c.dev.tdiv 4 - 1 - (index 512 (q / 512) % 256 : ℕ)).toNat
            · refine iff_of_false (fun hh => ?_) (not_not.mpr ⟨h10, hn, hparent, hin, rfl, .inr hcomes⟩)
              exact absurd ((honest_small hq hh).2 _ ((comes_iff hs.lt).mp hcomes)) (Nat.lt_irrefl _)
            · refine iff_of_true (honest_hole io s _ (used_lt hs.lt hcomes)) ?_
              rintro ⟨-, -, -, -, -, hblock | hc'⟩
              · exact hblock hdata
              · exact hcomes hc'
          · refine iff_of_false (fun hh => ?_) (not_not.mpr ⟨h10, hn, hparent, hin, rfl, .inl hdata⟩)
            have hret := (honest_small hq hh).1
            unfold found at hret
            rw [if_neg hdata] at hret
            exact absurd hret nofun
      | large h =>
        have hne : bsize ≠ 512 := by
          cases h <;> decide
        rw [(honest_large h hq _ _).2, kept_iff h hfits hs, if_neg hne]
        exact not_congr ⟨fun hp => ⟨h10, hn, hparent, hin, hp⟩, fun hstray => hstray.2.2.2.2⟩
    · have hidle (bap : ℕ → ℕ) :
          aheadIndir c bsize true q bap (index bsize (q / bsize) % 256) = .none := by
        have hout : ¬(decide (index bsize (q / bsize) % 256 < FsNINDIR bsize - 1) && true) = true := by
          rw [Bool.and_true]
          exact fun hd => hin (of_decide_eq_true hd)
        unfold aheadIndir
        rw [if_neg hout]
      simp only [hidle]
      exact iff_of_true (honest_none io s _) fun hstray => hin hstray.2.2.2.1

theorem blockAhead_idle (h : AnySize bsize) (u_offset : ℤ) (hoff : n * bsize < 2 ^ 31) (s : File) :
    (blockAhead c bsize false u_offset past n s.s5i_addr s.disk).2 = .none := by
  by_cases hn : n < 10
  · rw [blockAhead_near hn]
    split
    · rfl
    · unfold aheadDirect
      rw [Bool.and_false]
      rfl
  · by_cases hlim : n < limit bsize
    · rw [blockAhead_far h false u_offset (Nat.le_of_not_lt hn) hlim hoff]
      split
      · rfl
      · unfold aheadIndir
        rw [Bool.and_false]
        rfl
    · have hten : ((NADDR - 3 : ℕ) : ℤ) = 10 := rfl
      have hout : ¬(n : ℤ) < (NADDR - 3 : ℕ) := by
        rw [hten]
        omega
      unfold blockAhead
      rw [if_neg hout, levels_none h hoff (Nat.le_of_not_lt hlim)]

/-- A call that reads leaves hints of the chunks of the file that follow, and computes them from its
addresses alone, exactly when they do not stray. -/
theorem s5bread_honest_iff (h : AnySize bsize) (c : Tune) (past : ℕ → ℕ) (io : Io) (s : File)
    (hfits : Fits bsize s) : Honest bsize io s (s5bread c bsize past io s) ↔ ¬Strays c bsize past io s := by
  by_cases hneg : io.u_offset < 0
  · have hbn : io.u_offset >>> FsBSHIFT bsize < 0 := by
      rw [Int.shiftRight_eq_div_pow]
      exact Int.ediv_neg_of_neg_of_pos hneg (Int.natCast_pos.mpr (Nat.two_pow_pos _))
    have hcall : s5bread c bsize past io s = (none, .none) := if_pos hbn
    rw [hcall]
    refine iff_of_true (honest_none io s _) ?_
    rintro ⟨q, hr, -⟩
    have hq := hr.offset
    omega
  · obtain ⟨q, hq⟩ : ∃ q : ℕ, io.u_offset = q := ⟨io.u_offset.toNat, by omega⟩
    have hoff : q / bsize * bsize < 2 ^ 31 := by
      have hle := Nat.div_mul_le_self q bsize
      have hlt := io.off_t.2
      omega
    have huniq {q' : ℕ} (hr : Reads bsize io s q') : q' = q := by
      have hq' := hr.offset
      omega
    rw [s5bread_eq h hq]
    by_cases hin : 0 < io.u_count ∧ (q : ℤ) < s.i_size
    · rw [if_pos hin]
      cases hseq : sequential bsize io s with
      | false =>
        rw [blockAhead_idle h q hoff]
        refine iff_of_true (honest_none io s _) ?_
        rintro ⟨q', hr, -⟩
        exact absurd (hseq.symm.trans hr.sequential) (by decide)
      | true =>
        have hreads : Reads bsize io s q := ⟨hq, hseq, hin.2⟩
        have hstrays : Strays c bsize past io s ↔
            StraysDirect c bsize s (q / bsize) ∨ StraysIndir c bsize past s q := by
          constructor
          · rintro ⟨q', hr, hstray⟩
            rw [huniq hr] at hstray
            exact hstray
          · exact fun hstray => ⟨q, hreads, hstray⟩
        rw [hstrays]
        by_cases hn : q / bsize < 10
        · rw [honest_direct h hfits hq hn]
          exact not_congr ⟨.inl, fun hstray => hstray.resolve_right fun hi => absurd hn (Nat.not_lt.mpr hi.1)⟩
        · have h10 := Nat.le_of_not_lt hn
          by_cases hlim : q / bsize < limit bsize
          · rw [honest_indir h hfits hq h10 hlim hoff]
            exact not_congr ⟨.inr, fun hstray => hstray.resolve_left fun hd => hn (Nat.lt_succ_of_lt hd.1)⟩
          · have hten : ((NADDR - 3 : ℕ) : ℤ) = 10 := rfl
            have hout : ¬((q / bsize : ℕ) : ℤ) < (NADDR - 3 : ℕ) := by
              rw [hten]
              omega
            unfold blockAhead
            rw [if_neg hout, levels_none h hoff (Nat.le_of_not_lt hlim)]
            refine iff_of_true (honest_none io s _) ?_
            rintro (hd | hi)
            · exact hn (Nat.lt_succ_of_lt hd.1)
            · exact hlim hi.2.1
    · rw [if_neg hin]
      refine iff_of_true (honest_none io s _) ?_
      rintro ⟨q', hr, -⟩
      refine hin ⟨?_, ?_⟩
      · have hseq := hr.sequential
        have hlow := Int.emod_lt_of_pos io.u_offset (Int.natCast_pos.mpr h.fsbsize_pos)
        unfold sequential at hseq
        rw [Bool.and_eq_true, Bool.not_eq_true', decide_eq_false_iff_not] at hseq
        have hcount := hseq.2
        omega
      · rw [← huniq hr]
        exact hr.inside

/-! ## The single indirect block after the last direct one -/

/-- Direct blocks in a row, and no other -/
def line : File := ⟨fun i => if i < 10 then 100 + i else 0, 7, 11264, fun _ _ => 0, []⟩

def tune : Tune := ⟨true, 8, 0, by decide⟩

/-- Block 8 is read. -/
def read8 : Io := ⟨8192, 1024, 100000, by decide⟩

theorem line_fits : Fits 1024 line := by
  intro n hn
  have hper : per 1024 = 1 := by decide
  rw [hper, Nat.mul_one]
  by_cases h10 : n < 10
  · have hdata : data 1024 line n = if n < 10 then 100 + n else 0 :=
      (shown_direct 1024 h10 line).here.2.symm
    rw [hdata, if_pos h10]
    omega
  · rw [data_far (Nat.le_of_not_lt h10) hn]
    obtain ⟨r, m, hr, hm, -, hplace⟩ := place_far (Nat.le_of_not_lt h10) hn
    have hp := (hplace 0 hm).2
    rw [Nat.add_zero] at hp
    have hzero : parent 1024 line n = 0 := by
      have hroot : line.s5i_addr (10 + r) = 0 := if_neg (by omega)
      unfold parent look
      rw [hp, hroot, walk_zero]
    rw [if_pos hzero]
    decide

theorem s5bread_honest_iff_line : Honest 1024 read8 line (s5bread tune 1024 (fun _ => 0) read8 line) ↔
    ¬Strays tune 1024 (fun _ => 0) read8 line :=
  s5bread_honest_iff (.large .s1024) tune _ read8 line line_fits

/-- An empty file, of which block 7 was read -/
def blank : File := ⟨fun _ => 0, 7, 11264, fun _ _ => 0, []⟩

/-- A byte of block `n` is written. -/
def write (n : ℕ) (h : n < 100) : Io := ⟨n * 1024, 1, 100000, by omega⟩

/-- Blocks 8, 9 and 10 of the file -/
def three : File :=
  (call 1024 (call 1024 (call 1024 blank false (write 8 (by decide)) [100, 101, 102, 103]).file false
    (write 9 (by decide)) [101, 102, 103]).file false (write 10 (by decide)) [102, 103]).file

/-- The blocks that a call has left free are free for the next. -/
theorem write_fresh {free free' : List ℕ} {io : Io} {s : File} (h : Size 1024) {q : ℕ} (hq : io.u_offset = q)
    (hs : Apart 1024 s) (hfresh : Fresh 1024 s free)
    (hfree : (call 1024 s false io free).file.free = free') :
    Apart 1024 (call 1024 s false io free).file ∧ Fresh 1024 (call 1024 s false io free).file free' := by
  have hinv : Inv 1024 { s with free := free } := ⟨hs, hfresh.1, hfresh.2, fun _ _ => .inl rfl⟩
  have hinv' := (s5bmap_write h hq hinv).1
  rw [← hfree]
  exact ⟨hinv'.sound, hinv'.nodup, hinv'.fresh⟩

/-- The block after the last direct one is the indirect block: it is read ahead as if it were a block of
the file. -/
theorem indirect_ahead : ∃ as, Run (NarrowStep 1024) blank as three ∧
    ¬Honest 1024 read8 three (s5bread tune 1024 (fun _ => 0) read8 three) := by
  have hempty : blank.empty := fun _ => rfl
  have hapart : Apart 1024 blank := Shape.sound_empty fun i _ => hempty i
  have hfresh : Fresh 1024 blank [100, 101, 102, 103] :=
    fresh_empty hempty (by decide) (by decide)
  have hfree8 : (call 1024 blank false (write 8 (by decide)) [100, 101, 102, 103]).file.free =
      [101, 102, 103] := by decide
  obtain ⟨hapart8, hfresh8⟩ := write_fresh .s1024 (q := 8192) rfl hapart hfresh hfree8
  have hfree9 : (call 1024 (call 1024 blank false (write 8 (by decide)) [100, 101, 102, 103]).file false
      (write 9 (by decide)) [101, 102, 103]).file.free = [102, 103] := by decide
  obtain ⟨hapart9, hfresh9⟩ := write_fresh .s1024 (q := 9216) rfl hapart8 hfresh8 hfree9
  have hnarrow {io : Io} {free : List ℕ} : (Act.bmap false io free).Narrow 1024 := fun _ _ => .inl rfl
  refine ⟨_, .cons ⟨.bmap false _ _ hfresh, hnarrow⟩ (.cons ⟨.bmap false _ _ hfresh8, hnarrow⟩
    (.single ⟨.bmap false _ _ hfresh9, hnarrow⟩)), fun hh => ?_⟩
  have hdirect := (hh (by decide)).2.1 10 (by decide)
  exact absurd hdirect (by decide)

end Svr3.S5.Map
