import Svr3.Fs.S5Ialloc

/-!
# When `s5ialloc` reports that it is out of inodes

The law of the cache: a free inode that is not in the array is found by the next search. Every
step keeps it but three: `s5ifree` into an emptied array makes the freed inode the start of the
next search, whatever lies before it; an inode that `iget` has no room for has left the array; and
with 512-byte blocks the search visits no block at all.
-/

namespace Svr3.S5

open Function List

/-- Every free inode is in the array, or not below the start of the next search. -/
def CacheLaw (t : FsType) (fp : Ivol) : Prop :=
  ∀ x ∈ fp.freeFrom t.m_bsize 1,
    (∃ i < fp.s_ninode, fp.s_inode i = x) ∨ FsINOS t.m_bsize (fp.s_inode 0) ≤ x

/-- The invariant of the inode part of the super block. -/
structure Ivol.Inv (t : FsType) (fp : Ivol) : Prop where
  law : CacheLaw t fp
  /-- A 0 in the array comes with a search from the front. -/
  zero : ∀ i < fp.s_ninode, fp.s_inode i = 0 → fp.s_inode 0 = 0
  /-- Entries above the last 0 are numbers of inodes. -/
  valid : ∀ i < fp.s_ninode, (∀ j, i ≤ j → j < fp.s_ninode → fp.s_inode j ≠ 0) →
    fp.s_inode i ≤ numInodes t.m_bsize fp.s_isize
  tinode : fp.s_tinode = (fp.freeFrom t.m_bsize 1).length
  /-- Inode numbers are 16 bits wide. -/
  small : numInodes t.m_bsize fp.s_isize + 1 < 2 ^ 16

/-- The entry at which `s5ialloc` stops taking numbers off the array: the entries above it are
neither 0 nor free, and `iget` has room for them. -/
structure Ends (iget : ℕ → Bool) (fp : Ivol) (i : ℕ) : Prop where
  lt : i < fp.s_ninode
  nonzero : fp.s_inode i ≠ 0
  ends : iget (fp.s_inode i) = false ∨ fp.di_mode (fp.s_inode i) = 0
  above : ∀ j, i < j → j < fp.s_ninode →
    fp.s_inode j ≠ 0 ∧ iget (fp.s_inode j) = true ∧ fp.di_mode (fp.s_inode j) ≠ 0

/-- The condition on a call of `s5ialloc`. -/
structure Keeps (t : FsType) (iget : ℕ → Bool) (fp : Ivol) : Prop where
  /-- `iget` has room for a free inode of the array that the next search would miss. -/
  cached : ∀ i, Ends iget fp i → iget (fp.s_inode i) = false → fp.di_mode (fp.s_inode i) = 0 →
    FsINOS t.m_bsize (fp.s_inode 0) ≤ fp.s_inode i
  /-- When the array does not do, the blocks are large enough for a search, -/
  search : (¬ ∃ i, Ends iget fp i) → t = .Fs1b → fp.freeFrom t.m_bsize 1 = []
  /-- and `iget` has room for the first inode that a search finds when it fills the array. -/
  found : (¬ ∃ i, Ends iget fp i) → ∀ x,
    (fp.freeFrom t.m_bsize (FsINOS t.m_bsize (fp.s_inode 0))).head? = some x → iget x = false →
    (fp.freeFrom t.m_bsize (FsINOS t.m_bsize (fp.s_inode 0))).length < NICINOD

/-- The condition on a call of `s5ifree`: into an emptied array goes no inode with a free one below
its block. -/
def FreeKeeps (t : FsType) (fp : Ivol) (ino : ℕ) : Prop :=
  fp.s_ninode = 0 → fp.di_mode ino ≠ 0 →
    ∀ x ∈ fp.freeFrom t.m_bsize 1, FsINOS t.m_bsize ino ≤ x

/-! ## The free inodes -/

section Free

variable {bsize start x : ℕ} {fp w : Ivol}

theorem mem_freeFrom : x ∈ fp.freeFrom bsize start ↔
    start ≤ x ∧ x ≤ numInodes bsize fp.s_isize ∧ fp.di_mode x = 0 := by
  simp only [Ivol.freeFrom, mem_filter, mem_range'_1, decide_eq_true_eq]
  omega

theorem freeFrom_congr (hs : w.s_isize = fp.s_isize) (hm : w.di_mode = fp.di_mode) :
    w.freeFrom bsize start = fp.freeFrom bsize start := by
  unfold Ivol.freeFrom
  rw [hs, hm]

theorem freeFrom_pairwise : (fp.freeFrom bsize start).Pairwise (· < ·) :=
  List.Pairwise.sublist filter_sublist pairwise_lt_range'

/-- One inode more is in use. -/
theorem freeFrom_length (hx : x ∈ fp.freeFrom bsize start) (hs : w.s_isize = fp.s_isize)
    (hused : w.di_mode x ≠ 0) (hm : ∀ y ≠ x, w.di_mode y = fp.di_mode y) :
    (fp.freeFrom bsize start).length = (w.freeFrom bsize start).length + 1 := by
  have herase : w.freeFrom bsize start = (fp.freeFrom bsize start).erase x := by
    have hnodup : (fp.freeFrom bsize start).Nodup := freeFrom_pairwise.imp Nat.ne_of_lt
    rw [hnodup.erase_eq_filter]
    unfold Ivol.freeFrom
    rw [filter_filter, hs]
    apply filter_congr
    intro y _
    by_cases hyx : y = x
    · simp [hyx, hused]
    · simp [hyx, hm y hyx]
  have hpos := length_pos_of_mem hx
  rw [herase, length_erase_of_mem hx]
  omega

theorem freeFrom_length_le (bsize : ℕ) (fp : Ivol) :
    (fp.freeFrom bsize 1).length ≤ numInodes bsize fp.s_isize := by
  unfold Ivol.freeFrom
  apply (length_filter_le _ _).trans
  rw [length_range']
  omega

end Free

/-! ## The search -/

section Search

variable {t : FsType} {fp : Ivol}

/-- What the search leaves in the array, for the free inodes `fl` from its start on. -/
structure Searched (t : FsType) (fp w : Ivol) (fl : List ℕ) : Prop where
  isize : w.s_isize = fp.s_isize
  mode : w.di_mode = fp.di_mode
  tinode : w.s_tinode = fp.s_tinode
  ninode : w.s_ninode = NICINOD
  entry : ∀ i < NICINOD, ∀ x, fl[NICINOD - 1 - i]? = some x → (i = 0 → NICINOD ≤ fl.length) →
    w.s_inode i = x
  bottom : fl.length < NICINOD → w.s_inode 0 = 0 ∧ w.s_inode (NICINOD - 1 - fl.length) = 0

/-- The search enters the free inodes from its start on into the array. -/
theorem search_eq (ht : t ≠ .Fs1b) (hsmall : numInodes t.m_bsize fp.s_isize + 1 < 2 ^ 16)
    (hfree : fp.freeFrom t.m_bsize (FsINOS t.m_bsize (fp.s_inode 0)) ≠ []) :
    ((search t.m_bsize fp).s_ninode, (search t.m_bsize fp).s_inode) =
      fill fp.s_inode NICINOD (fp.freeFrom t.m_bsize (FsINOS t.m_bsize (fp.s_inode 0))) := by
  have hlen := search_length t ht fp.s_isize (fp.s_inode 0)
  have hpos := FsINOS_pos t (fp.s_inode 0)
  obtain ⟨x, hx⟩ := exists_mem_of_ne_nil _ hfree
  obtain ⟨hx1, hx2, -⟩ := mem_freeFrom.mp hx
  have hroom : FsINOS t.m_bsize (fp.s_inode 0) + (fp.s_isize * (t.m_bsize / 1024) -
      FsITOD t.m_bsize (FsINOS t.m_bsize (fp.s_inode 0))) * FsINOPB t.m_bsize < 2 ^ 16 := by
    omega
  have hscan := scanBlocks_eq fp.di_mode t
    (s := ⟨FsINOS t.m_bsize (fp.s_inode 0), NICINOD, fp.s_inode⟩) (FsITOD_one_le t hpos)
    (inoAt_FsINOS t _).symm hroom
  rw [hlen] at hscan
  exact hscan

theorem rebuild_spec (ht : t ≠ .Fs1b) (hsmall : numInodes t.m_bsize fp.s_isize + 1 < 2 ^ 16)
    (hfree : fp.freeFrom t.m_bsize (FsINOS t.m_bsize (fp.s_inode 0)) ≠ []) :
    (rebuild t.m_bsize fp).1 = true ∧ Searched t fp (rebuild t.m_bsize fp).2
      (fp.freeFrom t.m_bsize (FsINOS t.m_bsize (fp.s_inode 0))) := by
  have hscan := search_eq ht hsmall hfree
  unfold rebuild
  generalize search t.m_bsize fp = r at hscan ⊢
  generalize fp.freeFrom t.m_bsize (FsINOS t.m_bsize (fp.s_inode 0)) = fl at hscan hfree ⊢
  obtain ⟨hfst, hsnd⟩ := Prod.mk.inj hscan
  have hn : r.s_ninode = NICINOD - fl.length := hfst.trans (fill_fst _ _ _)
  have hflpos : 0 < fl.length := length_pos_of_ne_nil hfree
  have hmax : NICINOD = 100 := rfl
  refine ⟨decide_eq_true (by omega), rfl, rfl, rfl, rfl, ?_, ?_⟩
  · intro i hi x hx hi0
    have hentry : r.s_inode i = x := by
      rw [hsnd]
      exact fill_snd _ hi hx
    obtain ⟨hlt, -⟩ := List.getElem?_eq_some_iff.mp hx
    show r.markEnd i = x
    unfold Scan.markEnd
    split
    · rw [update_of_ne (by omega), update_of_ne (by omega), hentry]
    · exact hentry
  · intro hlt
    have hmark : r.markEnd = update (update r.s_inode (r.s_ninode - 1) 0) 0 0 :=
      if_pos (by omega)
    show r.markEnd 0 = 0 ∧ r.markEnd (NICINOD - 1 - fl.length) = 0
    rw [hmark]
    refine ⟨update_self _ _ _, ?_⟩
    by_cases hz : NICINOD - 1 - fl.length = 0
    · rw [hz]
      exact update_self _ _ _
    · rw [update_of_ne hz, show NICINOD - 1 - fl.length = r.s_ninode - 1 by omega]
      exact update_self _ _ _

/-- After a search that found something, the array keeps the law. -/
theorem Searched.inv {w : Ivol} {fl : List ℕ}
    (h : Searched t fp w fl) (hfl : fl = fp.freeFrom t.m_bsize (FsINOS t.m_bsize (fp.s_inode 0)))
    (hall : ∀ x ∈ fp.freeFrom t.m_bsize 1, FsINOS t.m_bsize (fp.s_inode 0) ≤ x)
    (htinode : fp.s_tinode = (fp.freeFrom t.m_bsize 1).length)
    (hsmall : numInodes t.m_bsize fp.s_isize + 1 < 2 ^ 16) : w.Inv t := by
  have hmax : NICINOD = 100 := rfl
  have hcongr : w.freeFrom t.m_bsize 1 = fp.freeFrom t.m_bsize 1 := freeFrom_congr h.isize h.mode
  have hmem : ∀ x ∈ fl, 1 ≤ x ∧ x ≤ numInodes t.m_bsize fp.s_isize := by
    intro x hx
    obtain ⟨h1, h2, -⟩ := mem_freeFrom.mp (hfl ▸ hx)
    exact ⟨(FsINOS_pos t _).trans h1, h2⟩
  -- entries that the free inodes reach are free inodes
  have hreach : ∀ i < NICINOD, NICINOD ≤ i + fl.length → (i = 0 → NICINOD ≤ fl.length) →
      w.s_inode i ∈ fl := by
    intro i hi hlen hi0
    have hget := List.getElem?_eq_getElem (l := fl) (i := NICINOD - 1 - i) (by omega)
    rw [h.entry i hi _ hget hi0]
    exact getElem_mem _
  refine ⟨?_, ?_, ?_, ?_, ?_⟩
  · intro x hx
    rw [hcongr] at hx
    have hxfl : x ∈ fl := by
      rw [hfl, mem_freeFrom]
      exact ⟨hall x hx, (mem_freeFrom.mp hx).2⟩
    rcases Nat.lt_or_ge fl.length NICINOD with hlt | hge
    · right
      rw [(h.bottom hlt).1, FsINOS_zero]
      exact (hmem x hxfl).1
    · obtain ⟨k, hk, rfl⟩ := mem_iff_getElem.mp hxfl
      rcases Nat.lt_or_ge k NICINOD with hk' | hk'
      · left
        refine ⟨NICINOD - 1 - k, by rw [h.ninode]; omega, ?_⟩
        apply h.entry _ (by omega) _ _ fun _ => hge
        rw [show NICINOD - 1 - (NICINOD - 1 - k) = k by omega, List.getElem?_eq_getElem hk]
      · right
        have hbot : w.s_inode 0 = fl[NICINOD - 1] := by
          apply h.entry 0 (by omega) _ _ fun _ => hge
          exact List.getElem?_eq_getElem (by omega)
        have hsorted : fl.Pairwise (· < ·) := hfl ▸ freeFrom_pairwise
        have hlt : fl[NICINOD - 1] < fl[k] :=
          pairwise_iff_getElem.mp hsorted _ _ _ _ (by omega)
        have := FsINOS_le t (w.s_inode 0)
        omega
  · intro i hi h0
    rw [h.ninode] at hi
    rcases Nat.lt_or_ge fl.length NICINOD with hlt | hge
    · exact (h.bottom hlt).1
    · have := (hmem _ (hreach i hi (by omega) fun _ => hge)).1
      omega
  · intro i hi hnz
    rw [h.ninode] at hi hnz
    rw [h.isize]
    rcases Nat.lt_or_ge fl.length NICINOD with hlt | hge
    · apply (hmem _ (hreach i hi _ _)).2
      · -- an entry below the search's would lie below its 0
        by_contra! hlow
        exact hnz (NICINOD - 1 - fl.length) (by omega) (by omega) (h.bottom hlt).2
      · rintro rfl
        exact absurd (h.bottom hlt).1 (hnz 0 (Nat.le_refl _) hi)
    · exact (hmem _ (hreach i hi (by omega) fun _ => hge)).2
  · rw [h.tinode, hcongr, htinode]
  · rwa [h.isize]

end Search

/-! ## The two routines -/

section Ops

variable {t : FsType} {iget : ℕ → Bool} {mode : ℕ} {fp : Ivol}

theorem Ivol.Inv.valid_pop (h : fp.Inv t) {n : ℕ} (hn : fp.s_ninode = n + 1)
    (hnz : fp.s_inode n ≠ 0) {i : ℕ} (hi : i < n)
    (hi' : ∀ j, i ≤ j → j < n → fp.s_inode j ≠ 0) :
    fp.s_inode i ≤ numInodes t.m_bsize fp.s_isize := by
  apply h.valid i (by omega)
  intro j hij hj
  rcases Nat.lt_succ_iff_lt_or_eq.mp (hn ▸ hj) with hlt | rfl
  · exact hi' j hij hlt
  · exact hnz

/-- The top entry of the array is taken off for good: it is in use, or not below the start of the
next search. -/
theorem Ivol.Inv.pop (h : fp.Inv t) {n : ℕ} (hn : fp.s_ninode = n + 1)
    (htop : fp.di_mode (fp.s_inode n) = 0 → FsINOS t.m_bsize (fp.s_inode 0) ≤ fp.s_inode n)
    (hnz : fp.s_inode n ≠ 0) : Ivol.Inv t { fp with s_ninode := n } := by
  refine ⟨?_, fun i hi => h.zero i (by rw [hn]; exact Nat.lt_succ_of_lt hi),
    fun i hi hi' => h.valid_pop hn hnz hi hi', h.tinode, h.small⟩
  intro x hx
  rcases h.law x hx with ⟨i, hi, rfl⟩ | hge
  · rw [hn] at hi
    rcases Nat.lt_succ_iff_lt_or_eq.mp hi with hlt | rfl
    · exact .inl ⟨i, hlt, rfl⟩
    · exact .inr (htop (mem_freeFrom.mp hx).2.2)
  · exact .inr hge

/-- The inode on top of the array is allocated. -/
theorem Ivol.Inv.take (h : fp.Inv t) {n : ℕ} (hn : fp.s_ninode = n + 1)
    (hnz : fp.s_inode n ≠ 0) (hfree : fp.di_mode (fp.s_inode n) = 0) (hmode : mode ≠ 0) :
    (takeIno { fp with s_ninode := n } (fp.s_inode n) mode).Inv t := by
  have hx : fp.s_inode n ∈ fp.freeFrom t.m_bsize 1 := by
    apply mem_freeFrom.mpr
    refine ⟨Nat.pos_of_ne_zero hnz, h.valid n (by omega) fun j hj hj' => ?_, hfree⟩
    rwa [show j = n by omega]
  have hself : update fp.di_mode (fp.s_inode n) mode (fp.s_inode n) = mode :=
    update_self _ _ _
  have hother : ∀ y ≠ fp.s_inode n,
      update fp.di_mode (fp.s_inode n) mode y = fp.di_mode y := fun y hy =>
    update_of_ne hy _ _
  have hlen := freeFrom_length (w := takeIno { fp with s_ninode := n } (fp.s_inode n) mode) hx rfl
    (fun h0 => hmode (hself.symm.trans h0)) hother
  refine ⟨?_, fun i hi => h.zero i (by rw [hn]; exact Nat.lt_succ_of_lt hi),
    fun i hi hi' => h.valid_pop hn hnz hi hi', ?_, h.small⟩
  · intro y hy
    obtain ⟨h1, h2, h3⟩ := mem_freeFrom.mp hy
    have hne : y ≠ fp.s_inode n := by
      rintro rfl
      exact hmode (hself.symm.trans h3)
    rcases h.law y (mem_freeFrom.mpr ⟨h1, h2, (hother y hne).symm.trans h3⟩) with ⟨i, hi, rfl⟩ | hge
    · rw [hn] at hi
      rcases Nat.lt_succ_iff_lt_or_eq.mp hi with hlt | rfl
      · exact .inl ⟨i, hlt, rfl⟩
      · exact absurd rfl hne
    · exact .inr hge
  · show fp.s_tinode - 1 = _
    rw [h.tinode, hlen]
    rfl

/-- The turn of the loop in which the top entry of the array ends the call. -/
theorem ialloc_top (iget : ℕ → Bool) (h : fp.Inv t) (hmode : mode ≠ 0) {n : ℕ} (hn : fp.s_ninode = n + 1)
    (hnz : fp.s_inode n ≠ 0) (hend : iget (fp.s_inode n) = false ∨ fp.di_mode (fp.s_inode n) = 0)
    (hmiss : iget (fp.s_inode n) = false → fp.di_mode (fp.s_inode n) = 0 →
      FsINOS t.m_bsize (fp.s_inode 0) ≤ fp.s_inode n) (fuel : ℕ) :
    ∃ r w, ialloc t.m_bsize iget mode (fuel + 1) fp = some (r, w) ∧ w.Inv t ∧ r ≠ .nospc := by
  have hpop : popIno fp = (some (fp.s_inode n), { fp with s_ninode := n }) := by
    unfold popIno
    rw [hn]
    simp [hnz]
  unfold ialloc
  rw [hpop]
  by_cases hroom : iget (fp.s_inode n) = false
  · exact ⟨.noInode, _, if_pos hroom, h.pop hn (hmiss hroom) hnz, by simp⟩
  · have hfree := hend.resolve_left hroom
    refine ⟨.ip (fp.s_inode n), _, ?_, h.take hn hnz hfree hmode, by simp⟩
    show (if iget (fp.s_inode n) = false then _ else _) = _
    rw [if_neg hroom, if_pos hfree]

/-- When the array gives no number, every free inode is where the search goes. -/
theorem popIno_none {w : Ivol} (hpop : popIno fp = (none, w)) (h : fp.Inv t) :
    w = { fp with s_ninode := w.s_ninode } ∧
      ∀ x ∈ fp.freeFrom t.m_bsize 1, FsINOS t.m_bsize (fp.s_inode 0) ≤ x := by
  unfold popIno at hpop
  cases hn : fp.s_ninode with
  | zero =>
    rw [hn] at hpop
    obtain ⟨-, rfl⟩ := Prod.mk.inj hpop
    refine ⟨rfl, fun x hx => ?_⟩
    rcases h.law x hx with ⟨i, hi, -⟩ | hge
    · omega
    · exact hge
  | succ n =>
    rw [hn] at hpop
    obtain ⟨h0, rfl⟩ := Prod.mk.inj hpop
    refine ⟨rfl, fun x hx => ?_⟩
    have hz : fp.s_inode n = 0 := by simpa using h0
    rw [h.zero n (by omega) hz, FsINOS_zero]
    exact (mem_freeFrom.mp hx).1

/-- Nothing is left in the array: either no inode is free, or the search finds the first one. -/
theorem ialloc_search {w : Ivol} (hpop : popIno fp = (none, w)) (h : fp.Inv t) (hmode : mode ≠ 0)
    (hk : Keeps t iget fp) (hnone : ¬ ∃ i, Ends iget fp i) (fuel : ℕ) :
    ∃ r u, ialloc t.m_bsize iget mode (fuel + 2) fp = some (r, u) ∧ u.Inv t ∧
      (r = .nospc → fp.freeFrom t.m_bsize 1 = []) := by
  obtain ⟨hw, hall⟩ := popIno_none hpop h
  have hfree : w.freeFrom t.m_bsize 1 = fp.freeFrom t.m_bsize 1 :=
    freeFrom_congr (by rw [hw]) (by rw [hw])
  have htinode : w.s_tinode = (w.freeFrom t.m_bsize 1).length := by
    rw [hfree, hw]
    exact h.tinode
  have hsmall : numInodes t.m_bsize w.s_isize + 1 < 2 ^ 16 := by
    rw [hw]
    exact h.small
  have hstart : w.s_inode = fp.s_inode := by rw [hw]
  have hfrom : w.freeFrom t.m_bsize (FsINOS t.m_bsize (w.s_inode 0)) =
      fp.freeFrom t.m_bsize (FsINOS t.m_bsize (fp.s_inode 0)) := by
    rw [hstart]
    exact freeFrom_congr (by rw [hw]) (by rw [hw])
  by_cases hnil : fp.freeFrom t.m_bsize 1 = []
  · have hzero : ¬ 0 < w.s_tinode := by
      rw [htinode, hfree, hnil]
      exact Nat.lt_irrefl 0
    refine ⟨.nospc, outOfInodes w, ?_, ?_, fun _ => hnil⟩
    · rw [ialloc, hpop]
      exact if_neg hzero
    · have hout : (outOfInodes w).freeFrom t.m_bsize 1 = [] :=
        hfree.trans hnil
      refine ⟨fun x hx => ?_, fun i hi => absurd hi (Nat.not_lt_zero i),
        fun i hi => absurd hi (Nat.not_lt_zero i), by rw [hout]; rfl, hsmall⟩
      rw [hout] at hx
      exact absurd hx not_mem_nil
  · have ht : t ≠ .Fs1b := fun ht => hnil (hk.search hnone ht)
    have hpos : 0 < w.s_tinode := by
      rw [htinode, hfree]
      exact length_pos_of_ne_nil hnil
    have hne : w.freeFrom t.m_bsize (FsINOS t.m_bsize (w.s_inode 0)) ≠ [] := by
      obtain ⟨x, hx⟩ := exists_mem_of_ne_nil _ hnil
      rw [hfrom]
      exact ne_nil_of_mem (mem_freeFrom.mpr ⟨hall x hx, (mem_freeFrom.mp hx).2⟩)
    obtain ⟨htrue, hsearched⟩ := rebuild_spec ht hsmall hne
    have hinv := hsearched.inv rfl (by rw [hfree, hstart]; exact hall) htinode hsmall
    rw [ialloc, hpop]
    dsimp only
    rw [if_pos hpos, show rebuild t.m_bsize w = (true, (rebuild t.m_bsize w).2) from
      Prod.ext htrue rfl]
    generalize (rebuild t.m_bsize w).2 = u at hsearched hinv
    dsimp only
    -- the first inode found is the top entry of the array
    obtain ⟨x, xs, hxs⟩ := exists_cons_of_ne_nil hne
    have hx : x ∈ w.freeFrom t.m_bsize (FsINOS t.m_bsize (w.s_inode 0)) := by simp [hxs]
    obtain ⟨hx1, -, hx3⟩ := mem_freeFrom.mp hx
    have hxpos : 1 ≤ x := (FsINOS_pos t _).trans hx1
    have htop : u.s_inode 99 = x :=
      hsearched.entry 99 (by decide) x (by rw [hxs]; rfl) (by simp)
    have hend := ialloc_top iget hinv hmode (n := 99) hsearched.ninode
      (by omega) (.inr (by rw [htop, hsearched.mode]; exact hx3)) ?_ fuel
    · obtain ⟨r, v, h1, h2, h3⟩ := hend
      exact ⟨r, v, h1, h2, fun hr => absurd hr h3⟩
    · intro hroom _
      have hlt := hk.found hnone x (by rw [← hfrom, hxs]; rfl) (by rw [← htop]; exact hroom)
      rw [(hsearched.bottom (by rw [hfrom]; exact hlt)).1, FsINOS_zero, htop]
      exact hxpos

theorem Keeps.pop (hk : Keeps t iget fp) {n : ℕ} (hn : fp.s_ninode = n + 1)
    (hnz : fp.s_inode n ≠ 0) (hroom : iget (fp.s_inode n) = true)
    (hused : fp.di_mode (fp.s_inode n) ≠ 0) : Keeps t iget { fp with s_ninode := n } := by
  have hends : ∀ i, Ends iget { fp with s_ninode := n } i → Ends iget fp i := by
    intro i hi
    have hlt : i < n := hi.lt
    refine ⟨by omega, hi.nonzero, hi.ends, fun j hij hj => ?_⟩
    rcases Nat.lt_succ_iff_lt_or_eq.mp (hn ▸ hj) with hlt | rfl
    · exact hi.above j hij hlt
    · exact ⟨hnz, hroom, hused⟩
  have hends' : ∀ i, Ends iget fp i → Ends iget { fp with s_ninode := n } i := by
    intro i hi
    have hlt := hi.lt
    have hne : i ≠ n := by
      rintro rfl
      rcases hi.ends with h | h
      · simp [hroom] at h
      · exact hused h
    exact ⟨show i < n by omega, hi.nonzero, hi.ends, fun j hij hj =>
      hi.above j hij (by rw [hn]; exact Nat.lt_succ_of_lt hj)⟩
  have hnone : (¬ ∃ i, Ends iget { fp with s_ninode := n } i) → ¬ ∃ i, Ends iget fp i :=
    fun h hex => h (hex.imp hends')
  exact ⟨fun i hi => hk.cached i (hends i hi), fun h => hk.search (hnone h),
    fun h => hk.found (hnone h)⟩

/-- A call that meets the condition returns, keeps the law, and reports ENOSPC only when no inode
is free. -/
theorem s5ialloc_spec (h : fp.Inv t) (hmode : mode ≠ 0) (hk : Keeps t iget fp) :
    ∃ r w, s5ialloc t.m_bsize iget mode fp = some (r, w) ∧ w.Inv t ∧
      (r = .nospc → fp.freeFrom t.m_bsize 1 = []) := by
  unfold s5ialloc
  obtain ⟨n, hn⟩ : ∃ n, fp.s_ninode = n := ⟨_, rfl⟩
  rw [hn]
  induction n generalizing fp with
  | zero =>
    have hpop : popIno fp = (none, fp) := by
      unfold popIno
      rw [hn]
    apply ialloc_search hpop h hmode hk
    rintro ⟨i, hi⟩
    have := hi.lt
    omega
  | succ n ih =>
    by_cases hz : fp.s_inode n = 0
    · have hpop : popIno fp = (none, { fp with s_ninode := n }) := by
        unfold popIno
        rw [hn]
        simp [hz]
      apply ialloc_search hpop h hmode hk
      rintro ⟨i, hi⟩
      have hlt := hi.lt
      rcases Nat.lt_succ_iff_lt_or_eq.mp (hn ▸ hlt) with hlt' | rfl
      · exact (hi.above n hlt' (by omega)).1 hz
      · exact hi.nonzero hz
    · by_cases hend : iget (fp.s_inode n) = false ∨ fp.di_mode (fp.s_inode n) = 0
      · have hE : Ends iget fp n :=
          ⟨by omega, hz, hend, fun j hj hj' => by omega⟩
        obtain ⟨r, w, h1, h2, h3⟩ := ialloc_top iget h hmode hn hz hend (hk.cached n hE) (n + 2)
        exact ⟨r, w, h1, h2, fun hr => absurd hr h3⟩
      · -- the inode was already allocated: look some more
        rw [not_or, Bool.not_eq_false] at hend
        obtain ⟨r, w, h1, h2, h3⟩ :=
          ih (h.pop hn (fun h0 => absurd h0 hend.2) hz) (hk.pop hn hz hend.1 hend.2) rfl
        refine ⟨r, w, ?_, h2, h3⟩
        rw [ialloc, popIno, hn]
        simpa [hz, hend.1, hend.2] using h1

/-- What is free after `ino` was freed. -/
theorem freed_spec (h : fp.Inv t) {ino : ℕ} (h1 : 1 ≤ ino)
    (h2 : ino ≤ numInodes t.m_bsize fp.s_isize) (hused : fp.di_mode ino ≠ 0) {w : Ivol}
    (hs : w.s_isize = fp.s_isize) (hm : w.di_mode = update fp.di_mode ino 0) :
    (∀ x ∈ w.freeFrom t.m_bsize 1, x = ino ∨ x ∈ fp.freeFrom t.m_bsize 1) ∧
      (fp.s_tinode + 1) % 2 ^ 16 = (w.freeFrom t.m_bsize 1).length := by
  have hself : w.di_mode ino = 0 := by rw [hm, update_self]
  have hother : ∀ y ≠ ino, fp.di_mode y = w.di_mode y := by
    intro y hy
    rw [hm, update_of_ne hy]
  have hino : ino ∈ w.freeFrom t.m_bsize 1 := mem_freeFrom.mpr ⟨h1, hs ▸ h2, hself⟩
  constructor
  · intro x hx
    obtain ⟨hx1, hx2, hx3⟩ := mem_freeFrom.mp hx
    by_cases hxi : x = ino
    · exact .inl hxi
    · exact .inr (mem_freeFrom.mpr ⟨hx1, hs ▸ hx2, (hother x hxi).trans hx3⟩)
  · have hlen := freeFrom_length hino hs.symm hused hother
    have hle := freeFrom_length_le t.m_bsize w
    have hsmall := h.small
    rw [hs] at hle
    rw [h.tinode, hlen, Nat.mod_eq_of_lt (by omega)]

/-- The bottom entry gives way to a smaller number. -/
theorem Ivol.Inv.replace (h : fp.Inv t) {ino : ℕ} (h1 : 1 ≤ ino)
    (h2 : ino ≤ numInodes t.m_bsize fp.s_isize) (hused : fp.di_mode ino ≠ 0)
    (hpos : 0 < fp.s_ninode) (hlt : ino < fp.s_inode 0) :
    Ivol.Inv t { freeIno fp ino with s_inode := update fp.s_inode 0 ino } := by
  obtain ⟨hfree, htinode⟩ := freed_spec h h1 h2 hused
    (w := { freeIno fp ino with s_inode := update fp.s_inode 0 ino }) rfl rfl
  have hbot : update fp.s_inode 0 ino 0 = ino := update_self _ _ _
  have hrest : ∀ i ≠ 0, update fp.s_inode 0 ino i = fp.s_inode i := fun i hi =>
    update_of_ne hi _ _
  refine ⟨?_, ?_, ?_, htinode, h.small⟩
  · intro x hx
    show (∃ i < fp.s_ninode, update fp.s_inode 0 ino i = x) ∨
      FsINOS t.m_bsize (update fp.s_inode 0 ino 0) ≤ x
    rw [hbot]
    rcases hfree x hx with rfl | hx
    · exact .inl ⟨0, hpos, hbot⟩
    · have hstart := FsINOS_mono t (Nat.le_of_lt hlt)
      have hino := FsINOS_le t ino
      rcases h.law x hx with ⟨i, hi, rfl⟩ | hge
      · by_cases hi0 : i = 0
        · subst hi0
          exact .inr (by omega)
        · exact .inl ⟨i, hi, hrest i hi0⟩
      · exact .inr (by omega)
  · intro i hi hz
    by_cases hi0 : i = 0
    · rwa [hi0] at hz
    · have h0 := h.zero i hi ((hrest i hi0).symm.trans hz)
      omega
  · intro i hi hnz
    show update fp.s_inode 0 ino i ≤ numInodes t.m_bsize fp.s_isize
    by_cases hi0 : i = 0
    · rwa [hi0, hbot]
    · rw [hrest i hi0]
      apply h.valid i hi
      intro j hij hj
      rw [← hrest j (by omega)]
      exact hnz j hij hj

/-- The array is full, and the number is not below its bottom entry. -/
theorem Ivol.Inv.drop (h : fp.Inv t) {ino : ℕ} (h1 : 1 ≤ ino)
    (h2 : ino ≤ numInodes t.m_bsize fp.s_isize) (hused : fp.di_mode ino ≠ 0)
    (hpos : 0 < fp.s_ninode) (hge : fp.s_inode 0 ≤ ino) : (freeIno fp ino).Inv t := by
  obtain ⟨hfree, htinode⟩ := freed_spec h h1 h2 hused (w := freeIno fp ino) rfl rfl
  refine ⟨?_, h.zero, h.valid, htinode, h.small⟩
  intro x hx
  rcases hfree x hx with rfl | hx
  · rcases Nat.lt_or_eq_of_le hge with hgt | heq
    · have hstart := FsINOS_le t (fp.s_inode 0)
      exact .inr (hstart.trans hgt)
    · exact .inl ⟨0, hpos, heq⟩
  · exact h.law x hx

/-- The number goes on top of the array. -/
theorem Ivol.Inv.push (h : fp.Inv t) {ino : ℕ} (h1 : 1 ≤ ino)
    (h2 : ino ≤ numInodes t.m_bsize fp.s_isize) (hused : fp.di_mode ino ≠ 0)
    (hk : FreeKeeps t fp ino) :
    Ivol.Inv t { freeIno fp ino with s_inode := update fp.s_inode fp.s_ninode ino,
                                     s_ninode := fp.s_ninode + 1 } := by
  obtain ⟨hfree, htinode⟩ := freed_spec h h1 h2 hused
    (w := { freeIno fp ino with s_inode := update fp.s_inode fp.s_ninode ino,
                                s_ninode := fp.s_ninode + 1 }) rfl rfl
  have htop : update fp.s_inode fp.s_ninode ino fp.s_ninode = ino :=
    update_self _ _ _
  have hbelow : ∀ i < fp.s_ninode,
      update fp.s_inode fp.s_ninode ino i = fp.s_inode i := fun i hi =>
    update_of_ne (Nat.ne_of_lt hi) _ _
  refine ⟨?_, ?_, ?_, htinode, h.small⟩
  · intro x hx
    show (∃ i < fp.s_ninode + 1, update fp.s_inode fp.s_ninode ino i = x) ∨
      FsINOS t.m_bsize (update fp.s_inode fp.s_ninode ino 0) ≤ x
    rcases hfree x hx with rfl | hx
    · exact .inl ⟨fp.s_ninode, Nat.lt_succ_self _, htop⟩
    · rcases Nat.eq_zero_or_pos fp.s_ninode with hz | hpos
      · right
        rw [hz, update_self]
        exact hk hz hused x hx
      · rcases h.law x hx with ⟨i, hi, rfl⟩ | hge
        · exact .inl ⟨i, Nat.lt_succ_of_lt hi, hbelow i hi⟩
        · exact .inr (by rwa [hbelow 0 hpos])
  · intro i hi hz
    rcases Nat.lt_succ_iff_lt_or_eq.mp hi with hlt | rfl
    · show update fp.s_inode fp.s_ninode ino 0 = 0
      rw [hbelow 0 (Nat.zero_lt_of_lt hlt)]
      exact h.zero i hlt ((hbelow i hlt).symm.trans hz)
    · have := htop.symm.trans hz
      omega
  · intro i hi hnz
    show update fp.s_inode fp.s_ninode ino i ≤ numInodes t.m_bsize fp.s_isize
    rcases Nat.lt_succ_iff_lt_or_eq.mp hi with hlt | rfl
    · rw [hbelow i hlt]
      apply h.valid i hlt
      intro j hij hj
      rw [← hbelow j hj]
      exact hnz j hij (Nat.lt_succ_of_lt hj)
    · rwa [htop]

/-- A call of `s5ifree` that meets the condition keeps the law. -/
theorem s5ifree_spec (h : fp.Inv t) {ino : ℕ} (h1 : 1 ≤ ino)
    (h2 : ino ≤ numInodes t.m_bsize fp.s_isize) (hk : FreeKeeps t fp ino) :
    (s5ifree fp ino).Inv t := by
  unfold s5ifree
  by_cases hused : fp.di_mode ino = 0
  · rwa [if_pos hused]
  rw [if_neg hused]
  by_cases hfull : NICINOD ≤ fp.s_ninode
  · have hpos : 0 < fp.s_ninode := Nat.lt_of_lt_of_le (by decide) hfull
    rw [if_pos hfull]
    by_cases hlt : ino < fp.s_inode 0
    · rw [if_pos hlt]
      exact h.replace h1 h2 hused hpos hlt
    · rw [if_neg hlt]
      exact h.drop h1 h2 hused hpos (Nat.le_of_not_lt hlt)
  · rw [if_neg hfull]
    exact h.push h1 h2 hused hk

end Ops

/-! ## Histories -/

inductive IAct
  /-- A call of `s5ialloc`, with the inodes that `iget` has room for. -/
  | ialloc (iget : ℕ → Bool) (mode : ℕ) (r : Ret)
  | ifree (ino : ℕ)

/-- One call. New inodes have a mode, and the number of a freed one is that of an inode. -/
inductive IStep (t : FsType) : Ivol → IAct → Ivol → Prop
  | ialloc {fp w : Ivol} {iget : ℕ → Bool} {mode : ℕ} {r : Ret} : mode ≠ 0 →
      s5ialloc t.m_bsize iget mode fp = some (r, w) → IStep t fp (.ialloc iget mode r) w
  | ifree {fp : Ivol} {ino : ℕ} : 1 ≤ ino → ino ≤ numInodes t.m_bsize fp.s_isize →
      IStep t fp (.ifree ino) (s5ifree fp ino)

/-- The condition on a call. -/
def Meets (t : FsType) (fp : Ivol) : IAct → Prop
  | .ialloc iget _ _ => Keeps t iget fp
  | .ifree ino => FreeKeeps t fp ino

theorem istep_inv {t : FsType} {fp w : Ivol} {a : IAct} (h : fp.Inv t) (hk : Meets t fp a)
    (hs : IStep t fp a w) : w.Inv t := by
  cases hs with
  | ialloc hmode heq =>
    obtain ⟨r', w', heq', hw, -⟩ := s5ialloc_spec h hmode hk
    obtain ⟨-, rfl⟩ := Prod.mk.inj (Option.some.inj (heq.symm.trans heq'))
    exact hw
  | ifree h1 h2 => exact s5ifree_spec h h1 h2 hk

/-- A consistent file system, as `s5mount` finds it. -/
structure Mounted (t : FsType) (fp : Ivol) : Prop where
  ninode : fp.s_ninode = 0
  start : fp.s_inode 0 = 0
  tinode : fp.s_tinode = (fp.freeFrom t.m_bsize 1).length
  small : numInodes t.m_bsize fp.s_isize + 1 < 2 ^ 16

theorem Mounted.inv {t : FsType} {fp : Ivol} (h : Mounted t fp) : fp.Inv t := by
  refine ⟨fun x hx => .inr ?_, fun i hi => ?_, fun i hi => ?_, h.tinode, h.small⟩
  · rw [h.start, FsINOS_zero]
    exact (mem_freeFrom.mp hx).1
  · rw [h.ninode] at hi
    omega
  · rw [h.ninode] at hi
    omega

/-- After a history in which every call meets its condition, the law holds, and a call that meets
its condition returns and reports ENOSPC only when no inode is free. -/
theorem out_of_inodes {t : FsType} {fp w : Ivol} {acts : List IAct} (h : Mounted t fp)
    (hrun : Run (fun a c b => Meets t a c ∧ IStep t a c b) fp acts w) :
    CacheLaw t w ∧ ∀ iget mode, mode ≠ 0 → Keeps t iget w →
      ∃ r u, s5ialloc t.m_bsize iget mode w = some (r, u) ∧
        (r = .nospc → ∀ ino, 1 ≤ ino → ino ≤ numInodes t.m_bsize w.s_isize → w.di_mode ino ≠ 0) := by
  have hw : w.Inv t :=
    hrun.invariant (fun _ _ _ hi hs => istep_inv hi hs.1 hs.2) h.inv
  refine ⟨hw.law, fun iget mode hmode hk => ?_⟩
  obtain ⟨r, u, heq, -, hnone⟩ := s5ialloc_spec hw hmode hk
  refine ⟨r, u, heq, fun hr ino h1 h2 h0 => ?_⟩
  have hmem := mem_freeFrom.mpr ⟨h1, h2, h0⟩
  rw [hnone hr] at hmem
  exact not_mem_nil hmem

/-- Two blocks of inodes, of which only `x` is free. -/
def oneFreeInode (x : ℕ) : Ivol := ⟨4, 0, fun _ => 0, 1, false, fun y => if y = x then 0 else 1⟩

theorem oneFreeInode_mounted {x : ℕ} (hx : (oneFreeInode x).freeFrom 1024 1 = [x]) :
    Mounted .Fs2b (oneFreeInode x) :=
  ⟨rfl, rfl, (congrArg List.length hx).symm, (by decide : 32 + 1 < 2 ^ 16)⟩

/-- Inode 20 is freed while 18, in the same block, is free. -/
theorem out_of_inodes_small :
    CacheLaw .Fs2b (s5ifree (oneFreeInode 18) 20) ∧ ∀ iget mode, mode ≠ 0 →
      Keeps .Fs2b iget (s5ifree (oneFreeInode 18) 20) →
      ∃ r u, s5ialloc 1024 iget mode (s5ifree (oneFreeInode 18) 20) = some (r, u) ∧
        (r = .nospc → ∀ ino, 1 ≤ ino → ino ≤ 32 →
          (s5ifree (oneFreeInode 18) 20).di_mode ino ≠ 0) := by
  have hfree : (oneFreeInode 18).freeFrom 1024 1 = [18] := by decide
  have hmeets : Meets .Fs2b (oneFreeInode 18) (.ifree 20) := by
    intro _ _ x hx
    obtain rfl : x = 18 := mem_singleton.mp (hfree ▸ hx)
    decide
  exact out_of_inodes (oneFreeInode_mounted hfree)
    (.single ⟨hmeets, .ifree (by decide) (by decide)⟩)

/-- Inode 3 is free. Inode 20 is freed and allocated again, and the search that starts at its
block misses 3. -/
theorem out_of_inodes_early :
    ¬ ∀ (t : FsType) (fp w : Ivol) (acts : List IAct) (iget : ℕ → Bool) (mode : ℕ),
      Mounted t fp → Run (IStep t) fp acts w → mode ≠ 0 →
      (s5ialloc t.m_bsize iget mode w).map Prod.fst = some .nospc →
      ∀ ino, 1 ≤ ino → ino ≤ numInodes t.m_bsize w.s_isize → w.di_mode ino ≠ 0 := by
  intro h
  have hfree : (oneFreeInode 3).freeFrom 1024 1 = [3] := by decide
  let w : Ivol := takeIno { s5ifree (oneFreeInode 3) 20 with s_ninode := 0 } 20 1
  have h1 : IStep .Fs2b (oneFreeInode 3) (.ifree 20) (s5ifree (oneFreeInode 3) 20) :=
    .ifree (by decide) (by decide)
  have h2 : IStep .Fs2b (s5ifree (oneFreeInode 3) 20) (.ialloc (fun _ => true) 1 (.ip 20)) w :=
    .ialloc (by decide) rfl
  exact h .Fs2b (oneFreeInode 3) w _ (fun _ => true) 1 (oneFreeInode_mounted hfree)
    (.cons h1 (.single h2)) (by decide) (by decide) 3 (by decide) (by decide) rfl

end Svr3.S5
