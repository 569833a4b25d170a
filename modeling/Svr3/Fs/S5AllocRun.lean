import Svr3.Fs.S5Alloc

/-!
# The free block list is a stack

The list that the super block and the chain of free blocks stand for, read from the array down.
`s5alloc` pops it and `s5free` pushes onto it, across every spill of the array into a freed block
and every reload from one. The buffer that `s5alloc` hands out is that of the popped block on file
systems with blocks of 1024 bytes and more; on 512-byte blocks it is always that of block 0.
-/

namespace Svr3.S5

open Function

/-- The blocks of the array above its bottom entry, the last one first. -/
def above (f : ℕ → ℕ) : ℕ → List ℕ
  | 0 => []
  | n + 1 => f (n + 1) :: above f n

/-- `Chain bsize buf n f l`: an array `f` of `n` entries, continued in the buffers, stands for the
list `l`. -/
inductive Chain (bsize : ℕ) (buf : ℕ → Fblk) : ℕ → (ℕ → ℕ) → List ℕ → Prop
  | empty (f : ℕ → ℕ) : Chain bsize buf 0 f []
  /-- The bottom entry is the 0 that ends the list. -/
  | last {n : ℕ} {f : ℕ → ℕ} : f 0 = 0 → n < NICFREE → Chain bsize buf (n + 1) f (above f n)
  /-- The block of the bottom entry holds the next part of the list. -/
  | more {n : ℕ} {f : ℕ → ℕ} {l : List ℕ} : f 0 ≠ 0 → n < NICFREE →
      0 < (buf (listBlkno bsize (f 0))).df_nfree →
      Chain bsize buf (buf (listBlkno bsize (f 0))).df_nfree
        (buf (listBlkno bsize (f 0))).df_free l →
      Chain bsize buf (n + 1) f (above f n ++ f 0 :: l)

/-- The super block and the buffers stand for the free list `l`. -/
structure Consistent (t : FsType) (v : Vol) (l : List ℕ) : Prop where
  isize : 0 < v.fp.s_isize
  chain : Chain t.m_bsize v.buf v.fp.s_nfree v.fp.s_free l
  inRange : ∀ b ∈ l, s5badblock v.fp b = false
  nodup : l.Nodup
  tfree : v.fp.s_tfree = l.length

section Chain

variable {bsize n : ℕ} {buf buf' : ℕ → Fblk} {f g : ℕ → ℕ} {l : List ℕ}

theorem above_congr (h : ∀ i ≤ n, f i = g i) : above f n = above g n := by
  induction n with
  | zero => rfl
  | succ n ih =>
    unfold above
    rw [h (n + 1) (Nat.le_refl _), ih fun i hi => h i (by omega)]

theorem Chain.le (h : Chain bsize buf n f l) : n ≤ NICFREE := by
  cases h with
  | empty => exact Nat.zero_le _
  | last _ hn => exact hn
  | more _ hn => exact hn

/-- Only the buffers of the blocks on the list count. -/
theorem Chain.congr_buf (h : Chain bsize buf n f l)
    (hbuf : ∀ b ∈ l, buf' (listBlkno bsize b) = buf (listBlkno bsize b)) :
    Chain bsize buf' n f l := by
  induction h with
  | empty f => exact .empty f
  | last h0 hn => exact .last h0 hn
  | @more n f l h0 hn hpos hrest ih =>
    have hbot := hbuf (f 0) (by simp)
    apply Chain.more h0 hn
    · rwa [hbot]
    · rw [hbot]
      exact ih fun b hb => hbuf b (by simp [hb])

/-- The array of an empty list is empty, or holds only the 0. -/
theorem Chain.of_nil (h : Chain bsize buf n f []) : n = 0 ∨ n = 1 ∧ f 0 = 0 := by
  generalize hl : ([] : List ℕ) = l at h
  cases h with
  | empty => exact .inl rfl
  | @last n _ h0 hn =>
    cases n with
    | zero => exact .inr ⟨rfl, h0⟩
    | succ n => simp [above] at hl
  | more => simp at hl

/-- The first block of the list is the last entry of the array; when it is the only entry, its
buffer holds the rest. -/
theorem Chain.of_cons {b : ℕ} (h : Chain bsize buf n f (b :: l)) :
    (∃ m, n = m + 2 ∧ f (m + 1) = b ∧ Chain bsize buf (m + 1) f l) ∨
    (n = 1 ∧ f 0 = b ∧ 0 < (buf (listBlkno bsize b)).df_nfree ∧
      Chain bsize buf (buf (listBlkno bsize b)).df_nfree (buf (listBlkno bsize b)).df_free l) := by
  generalize hl : b :: l = l' at h
  cases h with
  | empty => simp at hl
  | @last n _ h0 hn =>
    cases n with
    | zero => simp [above] at hl
    | succ n =>
      left
      obtain ⟨rfl, rfl⟩ : b = f (n + 1) ∧ l = above f n := by simpa [above] using hl
      exact ⟨n, rfl, rfl, .last h0 (by omega)⟩
  | @more n _ l' h0 hn hpos hrest =>
    cases n with
    | zero =>
      right
      obtain ⟨rfl, rfl⟩ : b = f 0 ∧ l = l' := by simpa [above] using hl
      exact ⟨rfl, rfl, hpos, hrest⟩
    | succ n =>
      left
      obtain ⟨rfl, rfl⟩ : b = f (n + 1) ∧ l = above f n ++ f 0 :: l' := by simpa [above] using hl
      exact ⟨n, rfl, rfl, .more h0 (by omega) hpos hrest⟩

/-- Pushing onto an array that is neither empty nor full. -/
theorem Chain.push (h : Chain bsize buf n f l) (hpos : 0 < n) (hn : n < NICFREE) (b : ℕ) :
    Chain bsize buf (n + 1) (update f n b) (b :: l) := by
  have hcongr : ∀ m < n, update f n b m = f m := fun m hm =>
    update_of_ne (by omega) b f
  cases h with
  | empty => omega
  | @last n _ h0 hlt =>
    have heq : b :: above f n = above (update f (n + 1) b) (n + 1) := by
      rw [above, update_self, above_congr fun m hm => hcongr m (by omega)]
    rw [heq]
    exact .last (by rw [hcongr 0 hpos, h0]) hn
  | @more n _ l h0 hlt hdf hrest =>
    have heq : b :: (above f n ++ f 0 :: l) =
        above (update f (n + 1) b) (n + 1) ++ update f (n + 1) b 0 :: l := by
      rw [above, update_self, above_congr fun m hm => hcongr m (by omega), hcongr 0 hpos]
      rfl
    rw [heq]
    rw [← hcongr 0 hpos] at h0 hdf hrest
    exact .more h0 hn hdf hrest

/-- Spilling the array into the block that is freed. -/
theorem Chain.spill (h : Chain bsize buf n f l) (hpos : 0 < n) {b : ℕ} (hb : b ≠ 0)
    (hnew : ∀ c ∈ l, listBlkno bsize c ≠ listBlkno bsize b) :
    Chain bsize (update buf (listBlkno bsize b) ⟨n, f⟩) 1 (update f 0 b)
      (b :: l) := by
  have hself : update f 0 b 0 = b := update_self 0 b f
  have hl : b :: l = above (update f 0 b) 0 ++ update f 0 b 0 :: l := by
    rw [hself]
    rfl
  rw [hl]
  apply Chain.more
  · rwa [hself]
  · decide
  · rwa [hself, update_self]
  · rw [hself, update_self]
    exact h.congr_buf fun c hc => update_of_ne (hnew c hc) _ _

end Chain

/-! ## The two routines -/

section Ops

variable {t : FsType} {v : Vol} {b : ℕ} {l : List ℕ}

theorem Consistent.ne_zero (h : Consistent t v l) (hb : s5badblock v.fp b = false) : b ≠ 0 := by
  have hpos := h.isize
  intro h0
  simp [s5badblock, h0] at hb
  omega

theorem takeFree_succ {fp : Filsys} {n : ℕ} (h0 : fp.s_free n ≠ 0)
    (hb : s5badblock fp (fp.s_free n) = false) :
    takeFree fp (n + 1) = some (fp.s_free n, n) := by
  simp [takeFree, h0, hb]

/-- Block 0 is never on the list, so clearing its buffer leaves the list alone. -/
theorem allocBlkno_ne (t : FsType) {b c : ℕ} (hcb : c ≠ b) (hc : c ≠ 0) :
    listBlkno t.m_bsize c ≠ allocBlkno t.m_bsize b := by
  by_cases ht : t = .Fs1b
  · subst ht
    rw [allocBlkno_Fs1b]
    simp [listBlkno, LTOPBLK, FsBSIZE, FsType.m_bsize]
    omega
  · rw [allocBlkno_eq t ht]
    exact fun he => hcb (listBlkno_inj t he)

/-- An empty list: "no space". -/
theorem s5alloc_nil (h : Consistent t v []) :
    s5alloc t.m_bsize v = nospace v ∧ Consistent t (nospace v).2 [] := by
  constructor
  · have htake : takeFree v.fp v.fp.s_nfree = none := by
      rcases h.chain.of_nil with h0 | ⟨h1, h0⟩
      · rw [h0]
        rfl
      · rw [h1]
        simp [takeFree, h0]
    unfold s5alloc
    rw [htake]
  · exact ⟨h.isize, .empty _, by simp, List.nodup_nil, rfl⟩

/-- A list with a first block: it is taken off, and the array is reloaded from it when it was the
only entry. -/
theorem s5alloc_cons (h : Consistent t v (b :: l)) :
    ∃ w, s5alloc t.m_bsize v = (some (allocBlkno t.m_bsize b), w) ∧ Consistent t w l := by
  have hbad : s5badblock v.fp b = false := h.inRange b (by simp)
  have hb0 : b ≠ 0 := h.ne_zero hbad
  obtain ⟨hbl, hnodup⟩ := List.nodup_cons.mp h.nodup
  have htfree : v.fp.s_tfree - 1 = l.length := by
    rw [h.tfree]
    rfl
  have hbuf : ∀ c ∈ l, update v.buf (allocBlkno t.m_bsize b) clrbuf
      (listBlkno t.m_bsize c) = v.buf (listBlkno t.m_bsize c) := by
    intro c hc
    apply update_of_ne
    apply allocBlkno_ne t
    · rintro rfl
      exact hbl hc
    · exact h.ne_zero (h.inRange c (by simp [hc]))
  have hrange : ∀ c ∈ l, s5badblock v.fp c = false := fun c hc => h.inRange c (by simp [hc])
  rcases h.chain.of_cons with ⟨m, hn, hfb, hrest⟩ | ⟨hn, hfb, hpos, hrest⟩
  · have htake : takeFree v.fp v.fp.s_nfree = some (b, m + 1) := by
      rw [hn, takeFree_succ (by rwa [hfb]) (by rwa [hfb]), hfb]
    have hle := hrest.le
    refine ⟨⟨{ v.fp with s_nfree := m + 1, s_tfree := v.fp.s_tfree - 1, s_fmod := true },
      update v.buf (allocBlkno t.m_bsize b) clrbuf⟩, ?_, ?_⟩
    · unfold s5alloc
      rw [htake]
      simp [Nat.not_lt.mpr hle]
    · exact ⟨h.isize, hrest.congr_buf hbuf, hrange, hnodup, htfree⟩
  · have htake : takeFree v.fp v.fp.s_nfree = some (b, 0) := by
      rw [hn, takeFree_succ (by rwa [hfb]) (by rwa [hfb]), hfb]
    have hle := hrest.le
    refine ⟨⟨{ v.fp with s_nfree := (v.buf (listBlkno t.m_bsize b)).df_nfree,
                         s_free := (v.buf (listBlkno t.m_bsize b)).df_free,
                         s_tfree := v.fp.s_tfree - 1, s_fmod := true },
      update v.buf (allocBlkno t.m_bsize b) clrbuf⟩, ?_, ?_⟩
    · unfold s5alloc
      rw [htake]
      simp [Nat.pos_iff_ne_zero.mp hpos, Nat.not_lt.mpr hle]
    · exact ⟨h.isize, hrest.congr_buf hbuf, hrange, hnodup, htfree⟩

/-- Putting the 0 back leaves an array that is not empty. -/
theorem startFree_chain {bsize : ℕ} (fp : Filsys) {buf : ℕ → Fblk}
    (h : Chain bsize buf fp.s_nfree fp.s_free l) :
    Chain bsize buf (startFree fp).s_nfree (startFree fp).s_free l ∧ 0 < (startFree fp).s_nfree := by
  unfold startFree
  by_cases hz : fp.s_nfree = 0
  · rw [if_pos hz]
    rw [hz] at h
    cases h
    exact ⟨.last (update_self 0 0 fp.s_free) (by decide), Nat.one_pos⟩
  · rw [if_neg hz]
    exact ⟨h, Nat.pos_of_ne_zero hz⟩

@[simp] theorem startFree_frame (fp : Filsys) :
    (startFree fp).s_isize = fp.s_isize ∧ (startFree fp).s_fsize = fp.s_fsize ∧
      (startFree fp).s_tfree = fp.s_tfree := by
  unfold startFree
  split <;> simp

@[simp] theorem spillFree_frame (bsize : ℕ) (v : Vol) (b : ℕ) (stale : Fblk) :
    (spillFree bsize v b stale).fp.s_isize = v.fp.s_isize ∧
      (spillFree bsize v b stale).fp.s_fsize = v.fp.s_fsize ∧
      (spillFree bsize v b stale).fp.s_tfree = v.fp.s_tfree := by
  unfold spillFree
  split <;> simp

/-- After the spill the freed block can be entered as the last of the array. -/
theorem spillFree_chain (h : Chain t.m_bsize v.buf v.fp.s_nfree v.fp.s_free l)
    (hpos : 0 < v.fp.s_nfree) (hb : b ≠ 0) (hl : ∀ c ∈ l, c ≠ 0 ∧ c ≠ b) (stale : Fblk) :
    Chain t.m_bsize (spillFree t.m_bsize v b stale).buf
      (putFree (spillFree t.m_bsize v b stale).fp b).s_nfree
      (putFree (spillFree t.m_bsize v b stale).fp b).s_free (b :: l) := by
  unfold spillFree
  by_cases hfull : NICFREE ≤ v.fp.s_nfree
  · rw [if_pos hfull]
    exact h.spill hpos hb fun c hc he => (hl c hc).2 (listBlkno_inj t he)
  · rw [if_neg hfull]
    apply Chain.push _ hpos (Nat.lt_of_not_le hfull) b
    apply h.congr_buf
    intro c hc
    exact update_of_ne (allocBlkno_ne t (hl c hc).2 (hl c hc).1) _ _

/-- A freed block becomes the first of the list. -/
theorem s5free_spec (h : Consistent t v l) (hb : s5badblock v.fp b = false) (hbl : b ∉ l)
    (stale : Fblk) : Consistent t (s5free t.m_bsize v b stale) (b :: l) := by
  have hl : ∀ c ∈ l, c ≠ 0 ∧ c ≠ b := fun c hc =>
    ⟨h.ne_zero (h.inRange c hc), fun he => hbl (he ▸ hc)⟩
  have hrange : ∀ c ∈ b :: l, s5badblock v.fp c = false :=
    List.forall_mem_cons.mpr ⟨hb, h.inRange⟩
  have hstart := startFree_chain { v.fp with s_fmod := true } h.chain
  have hbad : s5badblock { v.fp with s_fmod := true } b = false := hb
  unfold s5free
  simp only [hbad, Bool.false_eq_true, if_false]
  constructor
  · simpa [putFree] using h.isize
  · exact spillFree_chain (v := ⟨startFree { v.fp with s_fmod := true }, v.buf⟩) hstart.1 hstart.2
      (h.ne_zero hb) hl stale
  · simpa [putFree, s5badblock] using hrange
  · exact List.nodup_cons.mpr ⟨hbl, h.nodup⟩
  · simp [putFree, h.tfree]

end Ops

/-! ## Histories -/

inductive Act
  /-- `s5alloc` returned the buffer `bp`, or NULL. -/
  | alloc (bp : Option ℕ)
  | free (bno : ℕ)
  /-- Buffers of blocks that are not on the list were written. -/
  | write

/-- One action, with the list that a stack would hold. -/
inductive Step (t : FsType) : Vol × List ℕ → Act → Vol × List ℕ → Prop
  | alloc {v w : Vol} {l : List ℕ} {bp : Option ℕ} :
      s5alloc t.m_bsize v = (bp, w) → Step t (v, l) (.alloc bp) (w, l.tail)
  /-- Only blocks in range that are allocated are freed. -/
  | free {v : Vol} {l : List ℕ} {bno : ℕ} (stale : Fblk) :
      s5badblock v.fp bno = false → bno ∉ l →
      Step t (v, l) (.free bno) (s5free t.m_bsize v bno stale, bno :: l)
  | write {v : Vol} {l : List ℕ} {buf : ℕ → Fblk} :
      (∀ c ∈ l, buf (listBlkno t.m_bsize c) = v.buf (listBlkno t.m_bsize c)) →
      Step t (v, l) .write ({ v with buf := buf }, l)

theorem step_consistent {t : FsType} {s s' : Vol × List ℕ} {a : Act}
    (h : Consistent t s.1 s.2) (hs : Step t s a s') : Consistent t s'.1 s'.2 := by
  cases hs with
  | @alloc v w l bp hal =>
    cases l with
    | nil =>
      obtain ⟨heq, hc⟩ := s5alloc_nil h
      obtain rfl : w = (nospace v).2 := by rw [← heq, hal]
      exact hc
    | cons b l =>
      obtain ⟨w', heq, hc⟩ := s5alloc_cons h
      obtain rfl : w = w' := by
        rw [hal] at heq
        exact (Prod.mk.inj heq).2
      exact hc
  | free stale hb hbl => exact s5free_spec h hb hbl stale
  | write hbuf => exact ⟨h.isize, h.chain.congr_buf hbuf, h.inRange, h.nodup, h.tfree⟩

/-- What the stack `l` says about the file system. -/
structure Stack (t : FsType) (v : Vol) (l : List ℕ) : Prop where
  /-- `s5alloc` returns the buffer of the block freed last, and NULL exactly for an empty list. -/
  top : (s5alloc t.m_bsize v).1.map (blockOf t.m_bsize) = l.head?
  /-- No block is on the list twice. -/
  nodup : l.Nodup
  tfree : v.fp.s_tfree = l.length

/-- In every state of every history the free list is a stack exactly when the blocks have 1024
bytes or more, or the list is empty. -/
theorem free_list_stack (t : FsType) {v w : Vol} {l l' : List ℕ} {acts : List Act}
    (h : Consistent t v l) (hrun : Run (Step t) (v, l) acts (w, l')) :
    Stack t w l' ↔ t ≠ .Fs1b ∨ l' = [] := by
  have hc : (fun s : Vol × List ℕ => Consistent t s.1 s.2) (w, l') :=
    hrun.invariant (fun _ _ _ h hs => step_consistent h hs) h
  cases l' with
  | nil =>
    have htop := (s5alloc_nil hc).1
    refine iff_of_true ⟨?_, List.nodup_nil, hc.tfree⟩ (.inr rfl)
    rw [htop]
    rfl
  | cons b l' =>
    obtain ⟨w', heq, -⟩ := s5alloc_cons hc
    constructor
    · intro hs
      left
      rintro rfl
      have htop := hs.top
      rw [heq, allocBlkno_Fs1b] at htop
      have h0 : (0 : ℕ) = b := by simpa [blockOf, FsPTOL, FsLRG, FsType.m_bsize] using htop
      exact hc.ne_zero (hc.inRange b (by simp)) h0.symm
    · intro ht
      refine ⟨?_, hc.nodup, hc.tfree⟩
      rw [heq]
      simp [blockOf_allocBlkno t (ht.resolve_right (by simp))]

/-- One free block, number 5, in the array. -/
def oneFree : Vol :=
  ⟨⟨3, 10, 2, fun i => if i = 1 then 5 else 0, 1, false⟩, fun _ => clrbuf⟩

theorem oneFree_consistent (t : FsType) : Consistent t oneFree [5] :=
  ⟨by decide, .last rfl (by decide), by decide, by decide, rfl⟩

/-- Block 7 is freed and comes back first. -/
theorem free_list_stack_oneFree :
    Stack .Fs2b (s5alloc 1024 (s5free 1024 oneFree 7 clrbuf)).2 [5] ↔
      FsType.Fs2b ≠ .Fs1b ∨ [5] = [] := by
  have h1 : Step .Fs2b (oneFree, [5]) (.free 7) (s5free 1024 oneFree 7 clrbuf, [7, 5]) :=
    .free clrbuf rfl (by decide)
  have h2 : Step .Fs2b (s5free 1024 oneFree 7 clrbuf, [7, 5]) (.alloc (some 14))
      ((s5alloc 1024 (s5free 1024 oneFree 7 clrbuf)).2, [5]) := .alloc rfl
  exact free_list_stack .Fs2b (oneFree_consistent _) (.cons h1 (.single h2))

/-- On 512-byte blocks the free block 5 is taken off the list, and the caller gets the buffer of
block 0. -/
theorem free_list_not_stack :
    ¬ ∀ (t : FsType) (v w : Vol) (l l' : List ℕ) (acts : List Act), Consistent t v l →
      Run (Step t) (v, l) acts (w, l') → Stack t w l' := by
  intro h
  have htop := (h .Fs1b oneFree oneFree [5] [5] [] (oneFree_consistent _) (.nil _)).top
  exact absurd htop (by decide)

end Svr3.S5
