import Mathlib.Algebra.BigOperators.Intervals
import Mathlib.Algebra.BigOperators.Ring.Finset
import Mathlib.Algebra.Order.BigOperators.Group.List
import Mathlib.Tactic.NormNum.NatFib
import Svr3.Cmd.PackTree

/-!
# The depth of the tree of `pack`

A count is twice the number of the bytes, and the count of the end is 1. A tree over `k` levels holds at least as many
bytes as the Fibonacci number of `k + 2`, and the file whose counts grow like these numbers has the highest tree. So
it is not `2 ^ 24` bytes that take more than 24 levels.
-/

namespace Svr3.Pack

open CodeTree Function List

variable {file : List UInt8} {T rest : List CodeTree} {l r t : CodeTree} {a N : ℕ}

/-! ## The counts -/

/-- The bytes of the file as numbers -/
def codes (file : List UInt8) : List ℕ := file.map UInt8.toNat

theorem buffers_flatten {fuel : ℕ} (h : file.length ≤ fuel) : (buffers fuel file).flatten = file := by
  induction fuel generalizing file with
  | zero => exact (length_eq_zero_iff.mp (Nat.le_zero.mp h)).symm
  | succ fuel ih =>
    rw [buffers]
    split
    next hnil => exact hnil.symm
    next hne =>
      have hpos := length_pos_of_ne_nil hne
      have hdrop : (file.drop BUFSIZ).length ≤ fuel := by
        rw [length_drop, BUFSIZ]
        omega
      rw [flatten_cons, ih hdrop, take_append_drop]

theorem foldr_tally (inbuff : List UInt8) (count : ℕ → ℕ) (c : ℕ) :
    inbuff.foldr tally count c = count c + 2 * (codes inbuff).count c := by
  induction inbuff with
  | nil => rfl
  | cons b inbuff ih =>
    rw [foldr_cons, tally, codes, map_cons, count_cons, ← codes, update_apply]
    by_cases hc : c = b.toNat
    · rw [if_pos hc, hc, beq_self_eq_true, if_pos rfl, ← hc, ih]
      omega
    · rw [if_neg hc, if_neg (by rw [beq_iff_eq]; exact Ne.symm hc), ih, Nat.add_zero]

theorem foldl_tally (reads : List (List UInt8)) (count : ℕ → ℕ) (c : ℕ) :
    reads.foldl (fun count inbuff => inbuff.foldr tally count) count c =
      count c + 2 * (codes reads.flatten).count c := by
  induction reads generalizing count with
  | nil => rfl
  | cons inbuff reads ih =>
    rw [foldl_cons, ih, foldr_tally, flatten_cons, codes, codes, codes, map_append, count_append]
    omega

theorem input_apply (file : List UInt8) (c : ℕ) : input file c = 2 * (codes file).count c := by
  rw [input, foldl_tally, buffers_flatten (Nat.le_refl _), Nat.zero_add]

/-- `count` when the heap is made -/
def counts (file : List UInt8) : ℕ → ℕ := update (input file) END 1

/-- How often a code is written, the end once -/
def uses (file : List UInt8) : ℕ → ℕ := update (fun c => (codes file).count c) END 1

theorem counts_end (file : List UInt8) : counts file END = 1 := update_self _ _ _

theorem counts_byte (file : List UInt8) (hne : a ≠ END) : counts file a = 2 * uses file a := by
  rw [counts, uses, update_of_ne hne, update_of_ne hne]
  exact input_apply file a

theorem counts_le (file : List UInt8) (a : ℕ) : counts file a ≤ 2 * uses file a := by
  by_cases h : a = END
  · rw [h, counts, uses, update_self, update_self]
    decide
  · exact (counts_byte file h).le

/-- Leaves without bytes do not count. -/
theorem sum_present {w v : ℕ → ℕ} (h : ∀ a, w a = 0 → v a = 0) (n : ℕ) :
    ((present w n).map v).sum = ∑ a ∈ Finset.range n, v a := by
  induction n with
  | zero => rfl
  | succ n ih =>
    rw [present_succ, Finset.sum_range_succ, ← ih]
    split
    next => rw [map_cons, sum_cons, Nat.add_comm]
    next hw => rw [h n (by omega), Nat.add_zero]

theorem sum_uses (file : List UInt8) :
    ∑ a ∈ Finset.range (END + 1), uses file a = file.length + 1 := by
  have hbytes : ∑ a ∈ Finset.range END, uses file a = file.length := by
    have hsame : ∀ a ∈ Finset.range END, uses file a = (codes file).count a := fun a ha =>
      update_of_ne (Finset.mem_range.mp ha).ne _ _
    have hcard := Multiset.sum_count_eq_card (s := Finset.range END) (m := ↑(codes file)) fun a ha => by
      obtain ⟨b, -, rfl⟩ := mem_map.mp (Multiset.mem_coe.mp ha)
      rw [Finset.mem_range, END]
      exact b.toNat_lt
    simp only [Multiset.coe_count, Multiset.coe_card] at hcard
    rw [Finset.sum_congr rfl hsame, hcard, codes, length_map]
  rw [Finset.sum_range_succ, hbytes, uses, update_self]

theorem sum_counts (file : List UInt8) :
    ∑ a ∈ Finset.range (END + 1), counts file a + 1 = 2 * ∑ a ∈ Finset.range (END + 1), uses file a := by
  have hbytes : ∑ a ∈ Finset.range END, counts file a = 2 * ∑ a ∈ Finset.range END, uses file a := by
    rw [Finset.mul_sum]
    exact Finset.sum_congr rfl fun a ha => counts_byte file (Finset.mem_range.mp ha).ne
  rw [Finset.sum_range_succ, Finset.sum_range_succ, hbytes, counts_end, uses, update_self]
  omega

/-! ## Every tree is heavy -/

/-- The number of codes written in a forest -/
def total (w : ℕ → ℕ) (T : List CodeTree) : ℕ := (T.map (weight w)).sum

theorem total_cons (w : ℕ → ℕ) (t : CodeTree) (T : List CodeTree) : total w (t :: T) = t.weight w + total w T := by
  rw [total, map_cons, sum_cons, total]

/-- The forest over the bytes of the file: all but one of the counts are even. -/
structure Grown (file : List UInt8) (T : List CodeTree) : Prop where
  heavy : Heavy (uses file) T
  counts : ∀ t ∈ T, t.weight (counts file) ≤ 2 * t.weight (uses file)
  odd : total (Pack.counts file) T + 1 = 2 * total (uses file) T
  total : total (uses file) T = file.length + 1

theorem Grown.perm {T' : List CodeTree} (hp : T.Perm T') (h : Grown file T) : Grown file T' := by
  have htotal : ∀ w, Pack.total w T' = Pack.total w T := fun w => (hp.map (weight w)).sum_eq.symm
  refine ⟨h.heavy.perm hp, fun t ht => h.counts t (hp.mem_iff.mpr ht), ?_, ?_⟩
  · rw [htotal, htotal]
    exact h.odd
  · rw [htotal]
    exact h.total

theorem total_le {v w : ℕ → ℕ} (h : ∀ t ∈ T, t.weight w ≤ 2 * t.weight v) : total w T ≤ 2 * total v T := by
  induction T with
  | nil => exact Nat.le_refl 0
  | cons t T ih =>
    have hfirst := h t mem_cons_self
    have hrest := ih fun u hu => h u (mem_cons_of_mem t hu)
    rw [total_cons, total_cons]
    omega

/-- A tree with the lower count has no more bytes. -/
theorem Grown.first_le (h : Grown file (l :: rest)) {u : CodeTree} (hu : u ∈ rest)
    (hle : l.weight (Pack.counts file) ≤ u.weight (Pack.counts file)) :
    l.weight (uses file) ≤ u.weight (uses file) := by
  have hrest := total_le fun t ht => h.counts t (mem_cons_of_mem l ht)
  have hodd := h.odd
  have hcount := h.counts u (mem_cons_of_mem l hu)
  rw [total_cons, total_cons] at hodd
  omega

theorem grown_merging (file : List UInt8) : Merging (counts file) (Grown file) := by
  refine ⟨fun hp h => h.perm hp, fun {a l r rest} hl hr h => ?_⟩
  have hswap : Grown file (r :: l :: rest) := h.perm (List.Perm.swap r l rest)
  have htotal : ∀ w, Pack.total w (node a l r :: rest) = Pack.total w (l :: r :: rest) := fun w => by
    rw [total_cons, total_cons, total_cons, weight, Nat.add_assoc]
  refine ⟨h.heavy.merge fun u hu => ⟨?_, ?_⟩, fun t ht => ?_, ?_, ?_⟩
  · exact h.first_le (mem_cons_of_mem r hu) (hl u (mem_cons_of_mem r hu))
  · exact hswap.first_le (mem_cons_of_mem l hu) (hr u hu)
  · rcases mem_cons.mp ht with rfl | ht
    · have hcl := h.counts l mem_cons_self
      have hcr := h.counts r (mem_cons_of_mem l mem_cons_self)
      rw [weight, weight]
      omega
    · exact h.counts t (mem_cons_of_mem l (mem_cons_of_mem r ht))
  · rw [htotal, htotal]
    exact h.odd
  · rw [htotal]
    exact h.total

theorem total_leaves {w v : ℕ → ℕ} (h : ∀ a, w a = 0 → v a = 0) :
    total v (leaves w) = ∑ a ∈ Finset.range (END + 1), v a := by
  rw [← sum_present h, total, leaves, map_map]
  rfl

theorem grown_leaves (file : List UInt8) : Grown file (leaves (counts file)) := by
  have huses : total (uses file) (leaves (counts file)) = ∑ a ∈ Finset.range (END + 1), uses file a :=
    total_leaves fun a hzero => by
      by_cases hne : a = END
      · rw [hne, counts_end] at hzero
        omega
      · have heq := counts_byte file hne
        omega
  refine ⟨Heavy.leaves fun a ha => ?_, fun t ht => ?_, ?_, ?_⟩
  · have hpos := (mem_present.mp ha).2
    have hle := counts_le file a
    omega
  · obtain ⟨a, -, rfl⟩ := mem_map.mp ht
    exact counts_le file a
  · rw [huses, total_leaves fun a h => h]
    exact sum_counts file
  · rw [huses]
    exact sum_uses file

/-- The height of the tree of a file -/
theorem Grown.height_le (h : Grown file [t]) (hlen : file.length < 196417) : t.height ≤ 24 := by
  have hfib := h.heavy.own t (mem_singleton_self t)
  have htotal := h.total
  rw [total_cons] at htotal
  by_contra hhigh
  have hmono := Nat.fib_mono (show 27 ≤ t.height + 2 by omega)
  have hnum : Nat.fib 27 = 196418 := by norm_num
  have hnil : Pack.total (uses file) [] = 0 := rfl
  omega

/-! ## The highest tree -/

/-- One tree over some of the leaves, and the other leaves, whose counts are steep -/
def Comb (w : ℕ → ℕ) (n : ℕ) (T : List CodeTree) : Prop :=
  ∃ sum height ys, shapes w T = (sum, height) ::ₘ leafShapes ys ∧ Steep sum ys ∧ height + ys.length = n

theorem comb_merging (w : ℕ → ℕ) (n : ℕ) : Merging w (Comb w n) := by
  refine ⟨fun hp => ?_, fun {a l r rest} hl hr => ?_⟩
  · rintro ⟨sum, height, ys, hshapes, hrest⟩
    exact ⟨sum, height, ys, (Multiset.coe_eq_coe.mpr (hp.map _)).symm.trans hshapes, hrest⟩
  · rintro ⟨sum, height, ys, hshapes, hsteep, hn⟩
    cases ys with
    | nil =>
      have hcard := congrArg Multiset.card hshapes
      exact absurd hcard (by simp [shapes, leafShapes])
    | cons x ys =>
      refine ⟨sum + x, height + 1, ys, shapes_merge hshapes hsteep.1 hl hr, hsteep.2, ?_⟩
      rw [length_cons] at hn
      omega

theorem Comb.height_eq {w : ℕ → ℕ} {n : ℕ} (h : Comb w n [t]) : t.height = n := by
  obtain ⟨sum, height, ys, hshapes, -, hn⟩ := h
  have hcard := congrArg Multiset.card hshapes
  have hys : ys = [] := by
    rw [shapes, leafShapes, Multiset.card_cons, Multiset.coe_card, Multiset.coe_card, length_map,
      length_map, length_singleton] at hcard
    exact length_eq_zero_iff.mp (by omega)
  subst hys
  have hpair : (t.weight w, t.height) = (sum, height) := by
    have hmem : (t.weight w, t.height) ∈ shapes w [t] := by
      rw [shapes_cons]
      exact Multiset.mem_cons_self _ _
    rw [hshapes] at hmem
    exact Multiset.mem_singleton.mp hmem
  exact (congrArg Prod.snd hpair).trans hn

/-! ## The file with the highest tree -/

/-- `g k` bytes `k` for each `k` below `n` -/
def steps (g : ℕ → ℕ) (n : ℕ) : List UInt8 := (List.range n).flatMap fun k => List.replicate (g k) (UInt8.ofNat k)

theorem steps_succ (g : ℕ → ℕ) (n : ℕ) :
    steps g (n + 1) = steps g n ++ List.replicate (g n) (UInt8.ofNat n) := by
  rw [steps, range_succ, flatMap_append, flatMap_singleton, steps]

theorem steps_length (g : ℕ → ℕ) (n : ℕ) : (steps g n).length = ∑ k ∈ Finset.range n, g k := by
  induction n with
  | zero => rfl
  | succ n ih => rw [steps_succ, length_append, ih, length_replicate, Finset.sum_range_succ]

theorem steps_count (g : ℕ → ℕ) {n : ℕ} (hn : n ≤ END) (c : ℕ) :
    (codes (steps g n)).count c = if c < n then g c else 0 := by
  induction n with
  | zero => rfl
  | succ n ih =>
    have hbyte : (UInt8.ofNat n).toNat = n := UInt8.toNat_ofNat_of_lt' hn
    rw [steps_succ, codes, map_append, count_append, ← codes, ih (Nat.le_of_succ_le hn), map_replicate,
      hbyte, count_replicate]
    by_cases hc : c = n
    · rw [hc, if_neg (Nat.lt_irrefl n), beq_self_eq_true, if_pos rfl, if_pos (Nat.lt_succ_self n), Nat.zero_add]
    · have hne : ¬(n == c) = true := fun h => hc (beq_iff_eq.mp h).symm
      rw [if_neg hne, Nat.add_zero]
      exact if_congr (by omega) rfl rfl

theorem present_steps {g : ℕ → ℕ} {n : ℕ} (hn : n ≤ END) (hg : ∀ k, 0 < g k) :
    present (counts (steps g n)) (END + 1) = END :: (List.range n).reverse := by
  have hcount : ∀ c < END, counts (steps g n) c = 2 * if c < n then g c else 0 := fun c hc => by
    rw [counts, update_of_ne hc.ne, input_apply, steps_count g hn]
  have hbytes : ∀ k, k ≤ END → present (counts (steps g n)) k = (List.range (min k n)).reverse := by
    intro k hk
    induction k with
    | zero => rw [Nat.zero_min]; rfl
    | succ k ih =>
      have hpos := hg k
      rw [present_succ, ih (Nat.le_of_succ_le hk), hcount k hk]
      by_cases hkn : k < n
      · rw [if_pos hkn, if_pos (by omega), Nat.min_eq_left hkn.le, Nat.min_eq_left hkn, range_succ,
          reverse_append, reverse_singleton, singleton_append]
      · rw [if_neg hkn, if_neg (Nat.lt_irrefl 0), Nat.min_eq_right (by omega), Nat.min_eq_right (by omega)]
  rw [present_succ, counts_end, if_pos Nat.zero_lt_one, hbytes END (Nat.le_refl _), Nat.min_eq_right hn]

/-- The counts that grow like the Fibonacci numbers are steep, and the last one may be greater. -/
theorem steep_fib {g : ℕ → ℕ} {m n : ℕ} (hg : ∀ k, k + 1 < m + n → g k = Nat.fib (k + 1))
    (hlast : ∀ k, Nat.fib (k + 1) ≤ g k) :
    Steep (2 * Nat.fib (m + 2) - 1) ((List.range' m n).map fun k => 2 * g k) := by
  induction n generalizing m with
  | zero => trivial
  | succ n ih =>
    rw [List.range'_succ, map_cons]
    cases n with
    | zero => exact ⟨nofun, trivial⟩
    | succ n =>
      have hm := hg m (by omega)
      have hfib : Nat.fib (m + 3) = Nat.fib (m + 1) + Nat.fib (m + 2) := Nat.fib_add_two
      have hpos : 0 < Nat.fib (m + 2) := Nat.fib_pos.mpr (Nat.succ_pos _)
      have hnext : 2 * Nat.fib (m + 2) - 1 + 2 * g m = 2 * Nat.fib (m + 3) - 1 := by omega
      refine ⟨fun y hy => ?_, ?_⟩
      · obtain ⟨k, hk, rfl⟩ := mem_map.mp hy
        have hle := hlast k
        have hmono := Nat.fib_mono (show m + 2 ≤ k + 1 from Nat.succ_le_succ (mem_range'_1.mp hk).1)
        have hstep : Nat.fib (m + 1) ≤ Nat.fib (m + 2) := Nat.fib_le_fib_succ
        omega
      · rw [hnext]
        exact ih (m := m + 1) fun k hk => hg k (by omega)

/-- The file of at least 196417 bytes with 25 bytes, `e` more of the last one -/
def fibonacci (e : ℕ) : List UInt8 := steps (fun k => Nat.fib (k + 1) + if k = 24 then e else 0) 25

theorem fibonacci_length (e : ℕ) : (fibonacci e).length = 196417 + e := by
  rw [fibonacci, steps_length, Finset.sum_range_succ, if_pos rfl,
    Finset.sum_congr rfl fun k hk => by rw [if_neg (Finset.mem_range.mp hk).ne, Nat.add_zero]]
  have hsum : ∑ k ∈ Finset.range 24, Nat.fib (k + 1) = 121392 := by decide +kernel
  have hnum : Nat.fib (24 + 1) = 75025 := by norm_num
  omega

theorem fibonacci_comb (e : ℕ) : Comb (counts (fibonacci e)) 25 (leaves (counts (fibonacci e))) := by
  have hg : ∀ k, 0 < Nat.fib (k + 1) + if k = 24 then e else 0 := fun k =>
    Nat.add_pos_left (Nat.fib_pos.mpr (Nat.succ_pos k)) _
  have hpresent := present_steps (g := fun k => Nat.fib (k + 1) + if k = 24 then e else 0)
    (show 25 ≤ END by decide) hg
  have hcount : ∀ k ∈ List.range 25,
      counts (fibonacci e) k = 2 * (Nat.fib (k + 1) + if k = 24 then e else 0) := fun k hk => by
    have hlt := mem_range.mp hk
    rw [counts, update_of_ne (show k ≠ END by rw [END]; omega), input_apply, fibonacci, steps_count _ (by decide),
      if_pos hlt]
  refine ⟨1, 0, (List.range 25).map fun k => 2 * (Nat.fib (k + 1) + if k = 24 then e else 0), ?_, ?_, rfl⟩
  · rw [leaves, shapes, fibonacci, hpresent, ← fibonacci, map_map, map_cons, map_reverse,
      ← Multiset.cons_coe, Multiset.coe_reverse, ← map_congr_left hcount, leafShapes, map_map]
    rw [comp_apply, weight, counts_end]
    rfl
  · rw [range_eq_range']
    refine steep_fib (m := 0) (g := fun k => Nat.fib (k + 1) + if k = 24 then e else 0) (fun k hk => ?_) fun k =>
      Nat.le_add_right _ _
    rw [if_neg (by omega), Nat.add_zero]

/-! ## The lengths -/

theorem diffbytes_mergeLoop (fuel : ℕ) (s : Vars) : (mergeLoop fuel s).diffbytes = s.diffbytes := by
  induction fuel generalizing s with
  | zero => rfl
  | succ fuel ih =>
    rw [mergeLoop]
    split
    · rw [ih]
      rfl
    · rfl

theorem diffbytes_tree (old : Vars) (w : ℕ → ℕ) :
    (tree old w).diffbytes = (present w (END + 1)).length - 1 := by
  have h := (gather_spec w (END + 1) { old with n := 0, diffbytes := -1, insize := 0, lastnode := END }).diffbytes
  rw [tree]
  dsimp only
  rw [diffbytes_mergeLoop]
  dsimp only
  exact h.trans (neg_add_eq_sub _ _)

/-- `packfile` computes the lengths of the tree, unless the file has only one kind of bytes. -/
theorem packfile_levels (force : Bool) (old : Vars) (levels : Levels) (bits : ℕ → BitVec 32) (file : List UInt8) :
    (packfile force old levels bits file).levels =
      if (present (counts file) (END + 1)).length = 2 then none
      else some (assign (counts file) (tree old (counts file)) levels) := by
  rw [packfile, ← counts]
  dsimp only
  rw [diffbytes_tree]
  by_cases hlen : (present (counts file) (END + 1)).length = 2
  · rw [if_pos hlen, if_pos (by omega)]
    rfl
  · rw [if_neg hlen, if_neg (by omega)]
    split
    · rfl
    · split <;> rfl

/-- No code of a file of less than 196417 bytes is longer than 24 bits. -/
theorem lengths_le (old : Vars) (levels : Levels) (hlen : file.length < 196417) {i : ℕ} (hi : i ≤ END) :
    (assign (counts file) (tree old (counts file)) levels).length i ≤ 24 := by
  obtain ⟨t, ht, hgrown⟩ := tree_spec (grown_merging file) (grown_leaves file) old
    (show 0 < counts file END by rw [counts_end]; exact Nat.zero_lt_one)
  rw [assign_length _ _ _ hi]
  rcases Nat.eq_zero_or_pos (counts file i) with hzero | hpos
  · rw [ht.climb_absent hi hzero]
    exact Nat.zero_le 24
  · obtain ⟨d, hd⟩ := ht.linked.exists_below ((ht.leaves i hi).mpr hpos) hi
    rw [ht.climb hd]
    exact hd.le_height.trans (hgrown.height_le hlen)

/-- The file of the Fibonacci numbers needs 25 levels. -/
theorem fibonacci_levels (force : Bool) (old : Vars) (levels : Levels) (bits : ℕ → BitVec 32) (e : ℕ) :
    ∃ a, (packfile force old levels bits (fibonacci e)).levels = some a ∧ ∃ i ≤ END, a.length i = 25 := by
  obtain ⟨t, ht, hcomb⟩ := tree_spec (comb_merging _ 25) (fibonacci_comb e) old
    (show 0 < counts (fibonacci e) END by rw [counts_end]; exact Nat.zero_lt_one)
  have hpresent : present (counts (fibonacci e)) (END + 1) = END :: (List.range 25).reverse :=
    present_steps (by decide) fun k => Nat.add_pos_left (Nat.fib_pos.mpr (Nat.succ_pos k)) _
  obtain ⟨a, ha⟩ := t.exists_below_height
  have hle := ht.linked.below_le ha
  refine ⟨assign (counts (fibonacci e)) (tree old (counts (fibonacci e))) levels, ?_, a, hle, ?_⟩
  · rw [packfile_levels, hpresent]
    rfl
  · rw [assign_length _ _ _ hle, ht.climb ha]
    exact hcomb.height_eq

/-- All code lengths of all files of `N` bytes are within the 25 entries of `levcount` exactly below 196417 bytes. -/
theorem levels_within (N : ℕ) :
    (∀ force old levels bits file a, file.length = N → (packfile force old levels bits file).levels = some a →
      ∀ i ≤ END, a.length i ≤ 24) ↔ N < 196417 := by
  constructor
  · intro hall
    by_contra hle
    obtain ⟨e, rfl⟩ := Nat.exists_eq_add_of_le (not_lt.mp hle)
    obtain ⟨a, ha, i, hi, hlen⟩ := fibonacci_levels false ⟨0, fun _ => ⟨0, 0⟩, fun _ => 0, 0, 0, 0⟩
      ⟨fun _ => 0, fun _ => 0, 0, 0⟩ (fun _ => 0) e
    have h := hall _ _ _ _ _ a (fibonacci_length e) ha i hi
    omega
  · intro hN force old levels bits file a hlen ha i hi
    rw [packfile_levels] at ha
    split at ha
    · exact absurd ha nofun
    · rw [← Option.some.inj ha]
      exact lengths_le old levels (hlen.trans_lt hN) hi

/-- Far below `2 ^ 24` bytes there is a file with a code of 25 bits. -/
theorem levels_beyond : ¬ ∀ force old levels bits file a, file.length < 2 ^ 24 →
    (packfile force old levels bits file).levels = some a → ∀ i ≤ END, a.length i ≤ 24 := by
  intro hall
  obtain ⟨a, ha, i, hi, hlen⟩ := fibonacci_levels false ⟨0, fun _ => ⟨0, 0⟩, fun _ => 0, 0, 0, 0⟩
    ⟨fun _ => 0, fun _ => 0, 0, 0⟩ (fun _ => 0) 0
  have h := hall _ _ _ _ _ a (by rw [fibonacci_length]; decide) ha i hi
  omega

end Svr3.Pack
