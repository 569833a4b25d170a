import Svr3.Fs.S5BmapRun
import Mathlib.Data.List.Nodup

/-!
# Truncation frees the blocks of a file

The blocks that a file's addresses lead to, in the order in which `s5itrunc` comes to them: an indirect
block after everything below it. `s5free` may overwrite a block, but only one that is not needed any more.
-/

namespace Svr3.S5.Map

open List

variable {bsize : ℕ}

/-! ## The blocks below a block -/

/-- The blocks below `b`, with `k` levels of indirection -/
def below (fan : ℕ) (cell : ℕ → ℕ → ℕ) : ℕ → ℕ → List ℕ
  | 0, b => [b]
  | k + 1, b =>
    ((List.range fan).reverse.flatMap fun i => if cell b i = 0 then [] else below fan cell k (cell b i)) ++ [b]

/-- The blocks below the entries under `i` of `b` -/
def under (fan : ℕ) (cell : ℕ → ℕ → ℕ) (k b i : ℕ) : List ℕ :=
  (List.range i).reverse.flatMap fun i => if cell b i = 0 then [] else below fan cell k (cell b i)

section below

variable {fan k b i x : ℕ} {cell cell' : ℕ → ℕ → ℕ}

theorem below_succ : below fan cell (k + 1) b = under fan cell k b fan ++ [b] := rfl

theorem under_succ : under fan cell k b (i + 1) =
    (if cell b i = 0 then [] else below fan cell k (cell b i)) ++ under fan cell k b i := by
  rw [under, range_succ, reverse_append, flatMap_append, reverse_singleton,
    flatMap_singleton]
  rfl

theorem mem_under : x ∈ under fan cell k b i ↔
    ∃ j < i, cell b j ≠ 0 ∧ x ∈ below fan cell k (cell b j) := by
  rw [under, mem_flatMap]
  constructor
  · rintro ⟨j, hj, hx⟩
    split at hx
    · exact absurd hx not_mem_nil
    next hne => exact ⟨j, mem_range.mp (mem_reverse.mp hj), hne, hx⟩
  · rintro ⟨j, hj, hne, hx⟩
    exact ⟨j, mem_reverse.mpr (mem_range.mpr hj), by rwa [if_neg hne]⟩

theorem below_congr (h : ∀ c ∈ below fan cell k b, ∀ i < fan, cell' c i = cell c i) :
    below fan cell' k b = below fan cell k b := by
  induction k generalizing b with
  | zero => rfl
  | succ k ih =>
    have hb : ∀ i < fan, cell' b i = cell b i :=
      h b (mem_append_right _ mem_cons_self)
    have hsame : ∀ j ≤ fan, under fan cell' k b j = under fan cell k b j := by
      intro j hj
      induction j with
      | zero => rfl
      | succ j ihj =>
        rw [under_succ, under_succ, ihj (by omega), hb j (by omega)]
        by_cases hzero : cell b j = 0
        · rw [if_pos hzero, if_pos hzero]
        · rw [if_neg hzero, if_neg hzero, ih]
          intro c hc
          exact h c (mem_append_left _ (mem_under.mpr ⟨j, by omega, hzero, hc⟩))
    rw [below_succ, below_succ, hsame fan (le_refl fan)]

theorem under_congr (hb : ∀ j < i, cell' b j = cell b j)
    (h : ∀ c ∈ under fan cell k b i, ∀ i < fan, cell' c i = cell c i) :
    under fan cell' k b i = under fan cell k b i := by
  induction i with
  | zero => rfl
  | succ i ih =>
    rw [under_succ] at h
    rw [under_succ, under_succ, ih (fun j hj => hb j (by omega)) fun c hc => h c (mem_append_right _ hc),
      hb i (by omega)]
    by_cases hzero : cell b i = 0
    · rw [if_pos hzero, if_pos hzero]
    · rw [if_neg hzero] at h
      rw [if_neg hzero, if_neg hzero, below_congr fun c hc => h c (mem_append_left _ hc)]

/-- The blocks below a block are those that its paths lead to. -/
theorem mem_below (hb : b ≠ 0) : x ∈ below fan cell k b ↔
    x ≠ 0 ∧ ∃ p : List ℕ, p.length ≤ k ∧ (∀ i ∈ p, i < fan) ∧ walk cell b p = x := by
  induction k generalizing b with
  | zero =>
    rw [below, mem_singleton]
    constructor
    · rintro rfl
      exact ⟨hb, [], le_refl 0, nofun, rfl⟩
    · rintro ⟨-, p, hp, -, hwalk⟩
      rw [eq_nil_of_length_eq_zero (Nat.le_zero.mp hp)] at hwalk
      exact hwalk.symm
  | succ k ih =>
    rw [below_succ, mem_append, mem_under, mem_singleton]
    constructor
    · rintro (⟨j, hj, hne, hx⟩ | rfl)
      · obtain ⟨hx0, p, hp, hindex, hwalk⟩ := (ih hne).mp hx
        refine ⟨hx0, j :: p, Nat.succ_le_succ hp, fun i hi => ?_, by rw [walk_cons hb, hwalk]⟩
        rcases mem_cons.mp hi with rfl | hi
        · exact hj
        · exact hindex i hi
      · exact ⟨hb, [], Nat.zero_le _, nofun, rfl⟩
    · rintro ⟨hx0, p, hp, hindex, hwalk⟩
      cases p with
      | nil => exact .inr hwalk.symm
      | cons j p =>
        rw [walk_cons hb] at hwalk
        have hne : cell b j ≠ 0 := by
          intro hzero
          rw [hzero, walk_zero] at hwalk
          exact hx0 hwalk.symm
        exact .inl ⟨j, hindex j mem_cons_self, hne, (ih hne).mpr ⟨hx0, p, Nat.le_of_succ_le_succ hp,
          fun i hi => hindex i (mem_cons_of_mem _ hi), hwalk⟩⟩

/-- If the paths from a block lead to different blocks, each is below it once. -/
theorem nodup_below (hb : b ≠ 0)
    (h : ∀ p q : List ℕ, p.length ≤ k → q.length ≤ k → (∀ i ∈ p, i < fan) → (∀ i ∈ q, i < fan) →
      walk cell b p ≠ 0 → walk cell b p = walk cell b q → p = q) : (below fan cell k b).Nodup := by
  induction k generalizing b with
  | zero => exact nodup_singleton b
  | succ k ih =>
    have hunder : ∀ j ≤ fan, (under fan cell k b j).Nodup := by
      intro j hj
      induction j with
      | zero => exact nodup_nil
      | succ j ihj =>
        rw [under_succ]
        by_cases hzero : cell b j = 0
        · rw [if_pos hzero, nil_append]
          exact ihj (by omega)
        · rw [if_neg hzero]
          refine nodup_append'.mpr ⟨ih hzero ?_, ihj (by omega), ?_⟩
          · intro p q hp hq hip hiq hne heq
            have hcons := h (j :: p) (j :: q) (Nat.succ_le_succ hp) (Nat.succ_le_succ hq)
              (forall_mem_cons.mpr ⟨hj, hip⟩) (forall_mem_cons.mpr ⟨hj, hiq⟩)
              (by rwa [walk_cons hb]) (by rwa [walk_cons hb, walk_cons hb])
            exact (List.cons.inj hcons).2
          · intro x hx hx'
            obtain ⟨i, hi, hne, hx'⟩ := mem_under.mp hx'
            obtain ⟨hx0, p, hp, hip, hwalk⟩ := (mem_below hzero).mp hx
            obtain ⟨-, q, hq, hiq, hwalk'⟩ := (mem_below hne).mp hx'
            have hcons := h (j :: p) (i :: q) (Nat.succ_le_succ hp) (Nat.succ_le_succ hq)
              (forall_mem_cons.mpr ⟨hj, hip⟩) (forall_mem_cons.mpr ⟨by omega, hiq⟩)
              (by rwa [walk_cons hb, hwalk]) (by rw [walk_cons hb, walk_cons hb, hwalk, hwalk'])
            have hji := (List.cons.inj hcons).1
            omega
    rw [below_succ]
    refine nodup_append'.mpr ⟨hunder fan (le_refl fan), nodup_singleton b, ?_⟩
    intro x hx hx'
    obtain ⟨j, hj, hne, hx⟩ := mem_under.mp hx
    obtain ⟨-, p, hp, hip, hwalk⟩ := (mem_below hne).mp hx
    rw [mem_singleton.mp hx'] at hwalk
    exact absurd (h [] (j :: p) (Nat.zero_le _) (Nat.succ_le_succ hp) nofun
      (forall_mem_cons.mpr ⟨hj, hip⟩) hb (by rw [walk_nil, walk_cons hb, hwalk])) nofun

end below

/-! ## Freeing -/

/-- Other blocks than those in the list have the entries they had. -/
def Untouched (bsize : ℕ) (disk disk' : Disk) (bs : List ℕ) : Prop :=
  ∀ b i, i < FsNINDIR bsize → b ∉ bs → cell bsize disk' b i = cell bsize disk b i

/-- `next` frees the blocks below its argument. -/
def Frees (bsize k : ℕ) (next : ℕ → Trunc → Trunc) : Prop :=
  ∀ b s, (below (FsNINDIR bsize) (cell bsize s.disk) k b).Nodup →
    (next b s).freed = s.freed ++ below (FsNINDIR bsize) (cell bsize s.disk) k b ∧
      Untouched bsize s.disk (next b s).disk (below (FsNINDIR bsize) (cell bsize s.disk) k b)

variable {spill : List ℕ → Option (ℕ → ℕ)} {next : ℕ → Trunc → Trunc} {k bn i : ℕ}

theorem s5free_spec (h : Size bsize) (spill : List ℕ → Option (ℕ → ℕ)) (b : ℕ) (s : Trunc) :
    (s5free bsize spill b s).freed = s.freed ++ [b] ∧
      Untouched bsize s.disk (s5free bsize spill b s).disk [b] := by
  refine ⟨rfl, fun b' i hi hb' => ?_⟩
  rw [s5free]
  rcases hspill : spill s.freed with _ | blk
  · rfl
  · dsimp only [Option.elim_some]
    rw [cell, cell, Function.update_of_ne]
    intro heq
    have heq' : b' * (bsize / 1024) + i / 256 = b * (bsize / 1024) + 0 := by exact_mod_cast heq
    exact hb' (mem_singleton.mpr (chunk_apart (h.index hi) h.eq.2 heq').1)

theorem even_chunk {i : ℕ} (h : i &&& 1 = 0) : (i + 1) >>> FsNSHIFT 1024 = i >>> FsNSHIFT 1024 := by
  have hmod : i % 2 = 0 := by
    rw [← Nat.and_one_is_mod]
    exact h
  have hshift : ∀ j, j >>> FsNSHIFT 1024 = j / 256 := fun j => Nat.shiftRight_eq_div_pow j 8
  rw [hshift, hshift]
  omega

theorem entries_succ (bn : ℕ) (next : ℕ → Trunc → Trunc) (i : ℕ) (bp : Option ℕ) (s : Trunc) :
    entries bsize bn next (i + 1) bp s =
      if s.disk ((if bp ≠ none ∧ i &&& (if FsNMASK 1024 = FsNMASK 1024 then 1 else 0) ≠ 0 then none
          else bp).getD (bn * (bsize / 1024) + (i >>> FsNSHIFT 1024)) : ℕ) (i &&& FsNMASK 1024) = 0 then
        entries bsize bn next i
          (some ((if bp ≠ none ∧ i &&& (if FsNMASK 1024 = FsNMASK 1024 then 1 else 0) ≠ 0 then none
            else bp).getD (bn * (bsize / 1024) + (i >>> FsNSHIFT 1024)))) s
      else
        entries bsize bn next i none
          (next (s.disk ((if bp ≠ none ∧ i &&& (if FsNMASK 1024 = FsNMASK 1024 then 1 else 0) ≠ 0 then none
            else bp).getD (bn * (bsize / 1024) + (i >>> FsNSHIFT 1024)) : ℕ) (i &&& FsNMASK 1024)) s) := rfl

/-- The loop over the entries frees the blocks below them. A chunk that is held is the one of the entry
before. -/
theorem entries_spec (hnext : Frees bsize k next) {bp : Option ℕ} {s : Trunc}
    (hi : i ≤ FsNINDIR bsize)
    (hbp : ∀ x, bp = some x → x = bn * (bsize / 1024) + (i >>> FsNSHIFT 1024))
    (hnodup : (under (FsNINDIR bsize) (cell bsize s.disk) k bn i).Nodup)
    (hbn : bn ∉ under (FsNINDIR bsize) (cell bsize s.disk) k bn i) :
    (entries bsize bn next i bp s).freed =
        s.freed ++ under (FsNINDIR bsize) (cell bsize s.disk) k bn i ∧
      Untouched bsize s.disk (entries bsize bn next i bp s).disk
        (under (FsNINDIR bsize) (cell bsize s.disk) k bn i) := by
  induction i generalizing bp s with
  | zero => exact ⟨(append_nil _).symm, fun _ _ _ _ => rfl⟩
  | succ i ih =>
    -- the entry is read from the chunk that it is in
    have hread : (if bp ≠ none ∧ i &&& (if FsNMASK 1024 = FsNMASK 1024 then 1 else 0) ≠ 0 then none
        else bp).getD (bn * (bsize / 1024) + (i >>> FsNSHIFT 1024)) =
        bn * (bsize / 1024) + (i >>> FsNSHIFT 1024) := by
      rw [if_pos rfl]
      rcases bp with _ | x
      · rw [ite_self]
        rfl
      · by_cases hodd : i &&& 1 = 0
        · rw [if_neg fun hand => hand.2 hodd, Option.getD_some, hbp x rfl, even_chunk hodd]
        · rw [if_pos ⟨nofun, hodd⟩]
          rfl
    rw [under_succ] at hnodup hbn ⊢
    rw [entries_succ, hread, entry_eq bsize s.disk bn]
    by_cases hzero : cell bsize s.disk bn i = 0
    · rw [if_pos hzero] at hnodup hbn ⊢
      rw [if_pos hzero]
      exact ih (by omega) (fun x hx => (Option.some.inj hx).symm) hnodup hbn
    · rw [if_neg hzero] at hnodup hbn ⊢
      rw [if_neg hzero]
      obtain ⟨hnodup1, hnodup2, hdisj⟩ := nodup_append'.mp hnodup
      obtain ⟨hfreed, hdisk⟩ := hnext _ s hnodup1
      obtain ⟨t, ht⟩ : ∃ t, t = next (cell bsize s.disk bn i) s := ⟨_, rfl⟩
      rw [← ht] at hfreed hdisk ⊢
      -- the other blocks are as they were
      have hsame : under (FsNINDIR bsize) (cell bsize t.disk) k bn i =
          under (FsNINDIR bsize) (cell bsize s.disk) k bn i := by
        refine under_congr (fun j hj => ?_) fun c hc j hj => ?_
        · exact hdisk bn j (by omega) fun hmem => hbn (mem_append_left _ hmem)
        · exact hdisk c j hj fun hmem => hdisj hmem hc
      obtain ⟨hfreed', hdisk'⟩ := ih (s := t) (by omega)
        (fun x hx => nomatch (hx : none = some x)) (by rwa [hsame])
        (by rw [hsame]; exact fun hmem => hbn (mem_append_right _ hmem))
      rw [hsame] at hfreed' hdisk'
      refine ⟨by rw [hfreed', hfreed, append_assoc], fun b j hj hb => ?_⟩
      rw [hdisk' b j hj fun hmem => hb (mem_append_right _ hmem),
        hdisk b j hj fun hmem => hb (mem_append_left _ hmem)]

/-- One level more -/
theorem Frees.succ (h : Size bsize) (hnext : Frees bsize k next) :
    Frees bsize (k + 1) fun bn s =>
      s5free bsize spill bn (entries bsize bn next (FsNINDIR bsize) none s) := by
  intro bn s hnodup
  rw [below_succ] at hnodup ⊢
  obtain ⟨hnodup', -, hdisj⟩ := nodup_append'.mp hnodup
  obtain ⟨hfreed, hdisk⟩ := entries_spec hnext (le_refl _)
    (fun x hx => nomatch (hx : none = some x)) hnodup' fun hmem => hdisj hmem mem_cons_self
  obtain ⟨t, ht⟩ : ∃ t, t = entries bsize bn next (FsNINDIR bsize) none s := ⟨_, rfl⟩
  rw [← ht] at hfreed hdisk
  obtain ⟨hfreed', hdisk'⟩ := s5free_spec h spill bn t
  dsimp only
  rw [← ht]
  refine ⟨by rw [hfreed', hfreed, append_assoc], fun b i hi hb => ?_⟩
  rw [hdisk' b i hi fun hmem => hb (mem_append_right _ hmem),
    hdisk b i hi fun hmem => hb (mem_append_left _ hmem)]

theorem frees_s5free (h : Size bsize) : Frees bsize 0 (s5free bsize spill) :=
  fun b s _ => s5free_spec h spill b s

/-! ## The addresses in the inode -/

/-- The blocks below the addresses under `i` -/
def saved (bsize : ℕ) (disk : Disk) (save : ℕ → ℕ) (i : ℕ) : List ℕ :=
  (List.range i).reverse.flatMap fun i =>
    if save i = 0 then [] else below (FsNINDIR bsize) (cell bsize disk) ((shape bsize).depth i) (save i)

theorem saved_succ (disk : Disk) (save : ℕ → ℕ) (i : ℕ) : saved bsize disk save (i + 1) =
    (if save i = 0 then [] else below (FsNINDIR bsize) (cell bsize disk) ((shape bsize).depth i) (save i)) ++
      saved bsize disk save i := by
  rw [saved, range_succ, reverse_append, flatMap_append, reverse_singleton,
    flatMap_singleton]
  rfl

theorem mem_saved {disk : Disk} {save : ℕ → ℕ} {x : ℕ} : x ∈ saved bsize disk save i ↔
    ∃ j < i, save j ≠ 0 ∧ x ∈ below (FsNINDIR bsize) (cell bsize disk) ((shape bsize).depth j) (save j) := by
  rw [saved, mem_flatMap]
  constructor
  · rintro ⟨j, hj, hx⟩
    split at hx
    · exact absurd hx not_mem_nil
    next hne => exact ⟨j, mem_range.mp (mem_reverse.mp hj), hne, hx⟩
  · rintro ⟨j, hj, hne, hx⟩
    exact ⟨j, mem_reverse.mpr (mem_range.mpr hj), by rwa [if_neg hne]⟩

theorem saved_congr {disk disk' : Disk} {save : ℕ → ℕ}
    (h : ∀ c ∈ saved bsize disk save i, ∀ j < FsNINDIR bsize, cell bsize disk' c j = cell bsize disk c j) :
    saved bsize disk' save i = saved bsize disk save i := by
  induction i with
  | zero => rfl
  | succ i ih =>
    rw [saved_succ] at h
    rw [saved_succ, saved_succ, ih fun c hc => h c (mem_append_right _ hc)]
    by_cases hzero : save i = 0
    · rw [if_pos hzero, if_pos hzero]
    · rw [if_neg hzero] at h
      rw [if_neg hzero, if_neg hzero, below_congr fun c hc => h c (mem_append_left _ hc)]

variable (spill) in
/-- What is called for the address `i` -/
theorem frees_address (h : Size bsize) (hi : i < NADDR) :
    Frees bsize ((shape bsize).depth i) fun bn s =>
      if i = NADDR - 3 then s5tloop bsize spill false false bn s
      else if i = NADDR - 2 then s5tloop bsize spill true false bn s
      else if i = NADDR - 1 then s5tloop bsize spill true true bn s
      else s5free bsize spill bn s := by
  have h1 : Frees bsize 1 (s5tloop bsize spill false false) := (frees_s5free h).succ h
  have h2 : Frees bsize 2 (s5tloop bsize spill true false) := h1.succ h
  have h3 : Frees bsize 3 (s5tloop bsize spill true true) := h2.succ h
  have hdepth : (shape bsize).depth i = i - 9 := rfl
  rw [NADDR] at hi
  by_cases h10 : i = NADDR - 3
  · rw [h10]
    exact h1
  by_cases h11 : i = NADDR - 2
  · rw [h11]
    exact h2
  by_cases h12 : i = NADDR - 1
  · rw [h12]
    exact h3
  · have hzero : i - 9 = 0 := by
      rw [NADDR] at h10 h11 h12
      omega
    rw [hdepth, hzero]
    intro b s hnodup
    dsimp only
    rw [if_neg h10, if_neg h11, if_neg h12]
    exact frees_s5free h b s hnodup

theorem addresses_spec (h : Size bsize) {save : ℕ → ℕ} {s : Trunc} (hi : i ≤ NADDR)
    (hnodup : (saved bsize s.disk save i).Nodup) :
    (addresses bsize spill save i s).freed = s.freed ++ saved bsize s.disk save i := by
  induction i generalizing s with
  | zero => exact (append_nil _).symm
  | succ i ih =>
    rw [saved_succ] at hnodup ⊢
    rw [addresses]
    by_cases hzero : save i = 0
    · rw [if_pos hzero] at hnodup ⊢
      rw [if_pos hzero]
      exact ih (by omega) hnodup
    · rw [if_neg hzero] at hnodup ⊢
      obtain ⟨hnodup1, hnodup2, hdisj⟩ := nodup_append'.mp hnodup
      obtain ⟨hfreed, hdisk⟩ := frees_address spill h (by omega) (save i) s hnodup1
      dsimp only at hfreed hdisk ⊢
      rw [if_neg hzero]
      generalize (if i = NADDR - 3 then s5tloop bsize spill false false (save i) s
        else if i = NADDR - 2 then s5tloop bsize spill true false (save i) s
        else if i = NADDR - 1 then s5tloop bsize spill true true (save i) s
        else s5free bsize spill (save i) s) = t at hfreed hdisk ⊢
      have hsame : saved bsize t.disk save i = saved bsize s.disk save i :=
        saved_congr fun c hc j hj => hdisk c j hj fun hmem => hdisj hmem hc
      rw [ih (s := t) (by omega) (by rwa [hsame]), hsame, hfreed, append_assoc]

/-- The blocks of the file are those that are saved. -/
theorem mem_saved_used {s : File} {x : ℕ} : x ∈ saved bsize s.disk s.s5i_addr NADDR ↔
    (shape bsize).Used s.s5i_addr (cell bsize s.disk) x := by
  rw [mem_saved]
  constructor
  · rintro ⟨j, hj, hne, hx⟩
    obtain ⟨hx0, p, hp, hindex, hwalk⟩ := (mem_below hne).mp hx
    exact ⟨hx0, j, p, ⟨hj, hp, hindex⟩, hwalk⟩
  · rintro ⟨hx0, j, p, hpath, hwalk⟩
    have hne : s.s5i_addr j ≠ 0 := by
      intro hzero
      rw [hzero, walk_zero] at hwalk
      exact hx0 hwalk.symm
    exact ⟨j, hpath.root, hne, (mem_below hne).mpr ⟨hx0, p, hpath.length, hpath.index, hwalk⟩⟩

theorem nodup_saved {s : File} (h : Apart bsize s) (hi : i ≤ NADDR) :
    (saved bsize s.disk s.s5i_addr i).Nodup := by
  induction i with
  | zero => exact nodup_nil
  | succ i ih =>
    rw [saved_succ]
    by_cases hzero : s.s5i_addr i = 0
    · rw [if_pos hzero, nil_append]
      exact ih (by omega)
    · rw [if_neg hzero]
      refine nodup_append'.mpr ⟨nodup_below hzero ?_, ih (by omega), ?_⟩
      · intro p q hp hq hip hiq hne heq
        exact (h i p i q ⟨hi, hp, hip⟩ ⟨hi, hq, hiq⟩ hne heq).2
      · intro x hx hx'
        obtain ⟨j, hj, hne, hx'⟩ := mem_saved.mp hx'
        obtain ⟨hx0, p, hp, hip, hwalk⟩ := (mem_below hzero).mp hx
        obtain ⟨-, q, hq, hiq, hwalk'⟩ := (mem_below hne).mp hx'
        have hij := (h i p j q ⟨hi, hp, hip⟩ ⟨Nat.lt_trans hj hi, hq, hiq⟩
          (by rwa [hwalk]) (hwalk.trans hwalk'.symm)).1
        omega

/-- What `s5itrunc` is to do -/
structure Truncated (bsize : ℕ) (spill : List ℕ → Option (ℕ → ℕ)) (s : File) : Prop where
  once : (s5itrunc bsize spill s).2.Nodup
  exact : ∀ b, b ∈ (s5itrunc bsize spill s).2 ↔ (shape bsize).Used s.s5i_addr (cell bsize s.disk) b
  addr : ∀ i < NADDR, (s5itrunc bsize spill s).1.s5i_addr i = 0
  size : (s5itrunc bsize spill s).1.i_size = 0

theorem truncated_of_apart {s : File} (h : Size bsize) (hs : Apart bsize s) (spill : List ℕ → Option (ℕ → ℕ)) :
    Truncated bsize spill s := by
  have hnodup := nodup_saved hs (le_refl NADDR)
  have hfreed : (s5itrunc bsize spill s).2 = saved bsize s.disk s.s5i_addr NADDR := by
    rw [s5itrunc]
    exact (addresses_spec (s := ⟨s.disk, []⟩) h (le_refl NADDR) hnodup).trans (nil_append _)
  refine ⟨by rwa [hfreed], fun b => by rw [hfreed, mem_saved_used], fun i hi => if_pos hi, rfl⟩

/-- As long as the blocks that `s5alloc` returned had byte addresses below 2^31, or the block size is
1024, `s5itrunc` frees each block of the file once and nothing else. -/
theorem s5itrunc_frees {s s' : File} {as : List Act} (h : Size bsize) (hempty : s.empty)
    (hrun : Run (NarrowStep bsize) s as s') (spill : List ℕ → Option (ℕ → ℕ)) :
    Truncated bsize spill s' :=
  truncated_of_apart h (run_apart h (Shape.sound_empty fun i _ => hempty i) hrun).1 spill

/-- A call that allocates the blocks 100 and 101 before -/
theorem s5itrunc_frees_two :
    Truncated 8192 (fun _ => none) (call 8192 stale false io310 [100, 101]).file :=
  s5itrunc_frees .s8192 (fun _ => rfl)
    (.single ⟨.bmap false io310 [100, 101] (fresh_empty (fun _ => rfl) (by decide) (by decide)),
      show ∀ b ∈ [100, 101], Narrow 8192 b by decide⟩) _

/-- An empty file on a disk with the address 5 in the first two entries of each chunk -/
def staleTwo : File := ⟨fun _ => 0, 0, 3000000, fun _ i => if i < 2 then 5 else 0, []⟩

/-- The block 310 of 2048 bytes -/
def io310Small : Io := ⟨310 * 2048, 2048, 100000, by decide⟩

/-- The second chunk of the indirect block 1048576, which begins 2^31 bytes from the start of the disk,
is not cleared. Its entries are freed twice. -/
theorem stale_freed :
    ¬∀ bsize (s s' : File) as spill, Size bsize → s.empty → Run (Step bsize) s as s' →
      Truncated bsize spill s' := by
  intro h
  have htrunc := h 2048 staleTwo _ _ (fun _ => none) .s2048 (fun _ => rfl)
    (.single (.bmap false io310Small [1048576] (fresh_empty (fun _ => rfl) (by decide) (by decide))))
  have hfreed : (s5itrunc 2048 (fun _ => none) (call 2048 staleTwo false io310Small [1048576]).file).2 =
      [5, 5, 1048576] := by
    decide +kernel
  have honce := htrunc.once
  rw [hfreed] at honce
  exact absurd honce (by decide)

end Svr3.S5.Map
