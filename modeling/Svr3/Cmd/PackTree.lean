import Svr3.Cmd.Pack
import Svr3.Lib.CodeTrees

/-!
# The forest that `pack` merges

The heap holds the trees of a forest, and `parent` links each of them. The body of the loop merges the two lightest
trees, so what such a merge preserves holds of the tree at the end. A code is as long as its leaf is deep.
-/

namespace Svr3.Pack

open CodeTree Function List

variable {w : ℕ → ℕ} {s : Vars} {T : List CodeTree} {t : CodeTree} {a d fuel : ℕ}

/-! ## The forest -/

/-- The entry of a tree -/
def entry (w : ℕ → ℕ) (t : CodeTree) : Entry := ⟨t.weight w, t.label⟩

/-- The trees of the heap, over the leaves with a weight -/
structure Forest (w : ℕ → ℕ) (s : Vars) (T : List CodeTree) : Prop where
  ordered : Ordered s
  content : content s.heap s.n = ↑(T.map (entry w))
  linked : ∀ t ∈ T, t.Linked END s.parent
  nodup : (T.flatMap labels).Nodup
  le : ∀ a ∈ T.flatMap labels, a ≤ s.lastnode
  last : END ≤ s.lastnode ∧ ∃ t ∈ T, t.label = s.lastnode
  leaves : ∀ a ≤ END, a ∈ T.flatMap labels ↔ 0 < w a
  absent : ∀ a ≤ END, w a = 0 → s.parent a = 0

theorem Forest.length (h : Forest w s T) : T.length = s.n := by
  have hcard := congrArg Multiset.card h.content
  rw [card_content, Multiset.coe_card, length_map] at hcard
  exact hcard.symm

/-- An entry of the heap is that of a tree. -/
theorem exists_tree {x : Entry} {m : Multiset Entry} (h : (↑(T.map (entry w)) : Multiset Entry) = x ::ₘ m) :
    ∃ t T', T.Perm (t :: T') ∧ entry w t = x ∧ (↑(T'.map (entry w)) : Multiset Entry) = m := by
  rw [← Multiset.map_coe] at h
  obtain ⟨t, ht, hx, hrest⟩ := (Multiset.map_eq_cons _ _ _ _).mpr h
  refine ⟨t, T.erase t, perm_cons_erase ht, hx, ?_⟩
  rw [← Multiset.map_coe, ← Multiset.coe_erase]
  exact hrest

theorem le_weight {x : Entry} {u : CodeTree} {m : Multiset Entry} (hm : (↑(T.map (entry w)) : Multiset Entry) = m)
    (hmin : ∀ z ∈ m, x.count ≤ z.count) (hu : u ∈ T) : x.count ≤ u.weight w := by
  refine hmin (entry w u) ?_
  rw [← hm, Multiset.mem_coe]
  exact mem_map_of_mem hu

/-- The two lightest trees are merged. -/
theorem Forest.merge (h : Forest w s T) (hn : 1 < s.n) :
    ∃ l r rest, T.Perm (l :: r :: rest) ∧ (∀ u ∈ r :: rest, l.weight w ≤ u.weight w) ∧
      (∀ u ∈ rest, r.weight w ≤ u.weight w) ∧ Forest w (Pack.merge s) (node (s.lastnode + 1) l r :: rest) := by
  obtain ⟨x, y, m, hm, hx, hy, hcontent, hordered, hparent⟩ := merge_spec h.ordered hn
  obtain ⟨l, T', hl, hlx, hT'⟩ := exists_tree (h.content ▸ hm)
  obtain ⟨r, rest, hr, hry, hrest⟩ := exists_tree hT'
  have hperm : T.Perm (l :: r :: rest) := hl.trans (hr.cons l)
  have hlabels := hperm.flatMap_right labels
  have hnd := hlabels.nodup_iff.mp h.nodup
  have hle : ∀ a ∈ l.labels ++ (r.labels ++ rest.flatMap labels), a ≤ s.lastnode := fun a ha =>
    h.le a (hlabels.mem_iff.mpr ha)
  have hleaves : ∀ a ≤ END, a ∈ l.labels ++ (r.labels ++ rest.flatMap labels) ↔ 0 < w a := fun a ha =>
    hlabels.mem_iff.symm.trans (h.leaves a ha)
  have hlinked : ∀ t ∈ l :: r :: rest, t.Linked END s.parent := fun t ht => h.linked t (hperm.mem_iff.mpr ht)
  rw [flatMap_cons, flatMap_cons, nodup_append, nodup_append] at hnd
  obtain ⟨hndl, ⟨hndr, hndrest, hdisj⟩, hdisj'⟩ := hnd
  have hxl : x.node = l.label := congrArg Entry.node hlx.symm
  have hyr : y.node = r.label := congrArg Entry.node hry.symm
  rw [hxl, hyr] at hparent
  have hlr : l.label ≠ r.label := hdisj' _ l.label_mem _ (mem_append_left _ r.label_mem)
  have hother : ∀ b, b ≠ l.label → b ≠ r.label → (Pack.merge s).parent b = s.parent b := fun b h1 h2 => by
    rw [hparent, update_of_ne h2, update_of_ne h1]
  refine ⟨l, r, rest, hperm, fun u hu => ?_, fun u hu => ?_, ⟨hordered, ?_, fun t ht => ?_, ?_, fun a ha => ?_, ?_,
    fun a ha => ?_, fun a ha hw => ?_⟩⟩
  · rw [show l.weight w = x.count from congrArg Entry.count hlx]
    exact le_weight hT' hx (hr.mem_iff.mpr hu)
  · rw [show r.weight w = y.count from congrArg Entry.count hry]
    exact le_weight hrest hy hu
  · rw [hcontent, ← hrest, ← hlx, ← hry, map_cons, ← Multiset.cons_coe, entry, entry, entry, weight, label,
      Nat.add_comm]
  · rcases mem_cons.mp ht with rfl | ht
    · refine ⟨Nat.lt_succ_of_le h.last.1, ⟨?_, ?_⟩, (hlinked l mem_cons_self).congr hndl fun b hb hne => ?_,
        (hlinked r (mem_cons_of_mem _ mem_cons_self)).congr hndr fun b hb hne => ?_⟩
      · rw [hparent, update_of_ne hlr, update_self]
      · rw [hparent, update_self]
      · exact hother b hne (hdisj' b hb _ (mem_append_left _ r.label_mem))
      · exact hother b (hdisj' _ l.label_mem b (mem_append_left _ hb)).symm hne
    · have hsub : ∀ b ∈ t.labels, b ∈ rest.flatMap labels := fun b hb => mem_flatMap.mpr ⟨t, ht, hb⟩
      have hndt := (nodup_flatMap.mp hndrest).1 t ht
      refine (hlinked t (mem_cons_of_mem _ (mem_cons_of_mem _ ht))).congr hndt fun b hb _ => ?_
      exact hother b (hdisj' _ l.label_mem b (mem_append_right _ (hsub b hb))).symm
        (hdisj _ r.label_mem b (hsub b hb)).symm
  · rw [flatMap_cons, labels, cons_append, append_assoc, nodup_cons, nodup_append,
      nodup_append]
    exact ⟨fun hmem => absurd (hle _ hmem) (Nat.not_succ_le_self _), hndl, ⟨hndr, hndrest, hdisj⟩, hdisj'⟩
  · rw [flatMap_cons, labels, cons_append, append_assoc, mem_cons] at ha
    rcases ha with rfl | ha
    · exact Nat.le_refl _
    · exact (hle a ha).trans (Nat.le_succ _)
  · exact ⟨h.last.1.trans (Nat.le_succ _), _, mem_cons_self, rfl⟩
  · rw [flatMap_cons, labels, cons_append, append_assoc, mem_cons, ← hleaves a ha]
    exact or_iff_right fun heq => absurd h.last.1 (by omega)
  · have hnot : a ∉ l.labels ++ (r.labels ++ rest.flatMap labels) := fun hmem => by
      have hpos := (hleaves a ha).mp hmem
      omega
    rw [hother a (fun heq => hnot (heq ▸ mem_append_left _ l.label_mem))
      fun heq => hnot (heq ▸ mem_append_right _ (mem_append_left _ r.label_mem))]
    exact h.absent a ha hw

/-- What a merge of the two lightest trees preserves -/
structure Merging (w : ℕ → ℕ) (P : List CodeTree → Prop) : Prop where
  perm : ∀ {T T'}, T.Perm T' → P T → P T'
  merge : ∀ {a l r rest}, (∀ u ∈ r :: rest, l.weight w ≤ u.weight w) → (∀ u ∈ rest, r.weight w ≤ u.weight w) →
    P (l :: r :: rest) → P (node a l r :: rest)

/-- The loop ends with one tree. -/
theorem mergeLoop_spec {P : List CodeTree → Prop} (hP : Merging w P) (h : Forest w s T) (hT : P T) (hn : 1 ≤ s.n)
    (hfuel : s.n ≤ fuel + 1) : ∃ t, Forest w (mergeLoop fuel s) [t] ∧ P [t] := by
  induction fuel generalizing s T with
  | zero =>
    obtain ⟨t, rfl⟩ := length_eq_one_iff.mp (h.length.trans (Nat.le_antisymm hfuel hn))
    exact ⟨t, h, hT⟩
  | succ fuel ih =>
    rw [mergeLoop]
    split
    next hlt =>
      obtain ⟨l, r, rest, hperm, hl, hr, hf⟩ := h.merge hlt
      have hn' : (merge s).n = s.n - 1 := rfl
      exact ih hf (hP.merge hl hr (hP.perm hperm hT)) (by omega) (by omega)
    next hle =>
      obtain ⟨t, rfl⟩ := length_eq_one_iff.mp (h.length.trans (Nat.le_antisymm (by omega) hn))
      exact ⟨t, h, hT⟩

/-! ## The first forest -/

/-- The leaves in the order in which they come into the heap -/
def present (w : ℕ → ℕ) (i : ℕ) : List ℕ := (List.range i).reverse.filter fun a => 0 < w a

theorem mem_present : a ∈ present w d ↔ a < d ∧ 0 < w a := by
  rw [present, mem_filter, mem_reverse, mem_range, decide_eq_true_iff]

theorem present_nodup (w : ℕ → ℕ) (i : ℕ) : (present w i).Nodup :=
  (nodup_reverse.mpr nodup_range).filter _

theorem present_succ (w : ℕ → ℕ) (i : ℕ) :
    present w (i + 1) = if 0 < w i then i :: present w i else present w i := by
  rw [present, range_succ, reverse_append, reverse_singleton, singleton_append,
    filter_cons]
  simp only [decide_eq_true_iff]
  rfl

/-- What `gather` leaves -/
structure Gathered (w : ℕ → ℕ) (i : ℕ) (s s' : Vars) : Prop where
  content : content s'.heap s'.n = ↑((present w i).map fun a => (⟨w a, a⟩ : Entry)) + content s.heap s.n
  n : s'.n = s.n + (present w i).length
  diffbytes : s'.diffbytes = s.diffbytes + (present w i).length
  insize : s'.insize = s.insize + ((present w i).map w).sum
  lastnode : s'.lastnode = s.lastnode
  parent : ∀ a, s'.parent a = if a < i then 0 else s.parent a

theorem gather_spec (w : ℕ → ℕ) (i : ℕ) (s : Vars) : Gathered w i s (gather w i s) := by
  induction i generalizing s with
  | zero => exact ⟨(zero_add _).symm, rfl, (add_zero _).symm, rfl, rfl, fun a => rfl⟩
  | succ i ih =>
    have h := ih (place w i s)
    have hparent : ∀ a, (if a < i then 0 else (place w i s).parent a) = if a < i + 1 then 0 else s.parent a := by
      intro a
      have hplace : (place w i s).parent a = if a = i then 0 else s.parent a := by
        rw [place]
        split <;> exact update_apply _ _ _ _
      rw [hplace]
      split <;> split <;> (try split) <;> first | rfl | omega
    rw [gather]
    by_cases hw : 0 < w i
    · have hp : place w i s = { s with
          parent := update s.parent i 0
          diffbytes := s.diffbytes + 1
          insize := s.insize + w i
          n := s.n + 1
          heap := update s.heap (s.n + 1) ⟨w i, i⟩ } := if_pos hw
      have hlist : present w (i + 1) = i :: present w i := (present_succ w i).trans (if_pos hw)
      have hcontent : Svr3.content (update s.heap (s.n + 1) (⟨w i, i⟩ : Entry)) (s.n + 1) =
          ⟨w i, i⟩ ::ₘ Svr3.content s.heap s.n := by
        rw [content_succ, update_self]
        exact congrArg _ (content_congr fun k h1 h2 => update_of_ne (by omega) _ _)
      refine ⟨?_, ?_, ?_, ?_, ?_, fun a => (h.parent a).trans (hparent a)⟩
      · rw [h.content, hp, hlist, map_cons, ← Multiset.cons_coe]
        dsimp only
        rw [hcontent, Multiset.add_cons, Multiset.cons_add]
      · rw [h.n, hp, hlist, length_cons, Nat.add_assoc, Nat.add_comm 1]
      · rw [h.diffbytes, hp, hlist, length_cons]
        push_cast
        ring
      · rw [h.insize, hp, hlist, map_cons, sum_cons, Nat.add_assoc]
      · rw [h.lastnode, hp]
    · have hp : place w i s = { s with parent := update s.parent i 0 } := if_neg hw
      have hlist : present w (i + 1) = present w i := (present_succ w i).trans (if_neg hw)
      refine ⟨?_, ?_, ?_, ?_, ?_, fun a => (h.parent a).trans (hparent a)⟩
      · rw [h.content, hp, hlist]
      · rw [h.n, hp, hlist]
      · rw [h.diffbytes, hp, hlist]
      · rw [h.insize, hp, hlist]
      · rw [h.lastnode, hp]

/-- The forest of leaves before the loop -/
def leaves (w : ℕ → ℕ) : List CodeTree := (present w (END + 1)).map leaf

theorem leaves_labels (w : ℕ → ℕ) : (leaves w).flatMap labels = present w (END + 1) := by
  rw [leaves, flatMap_map]
  exact flatMap_singleton' _

/-- `packfile` up to the loop -/
theorem first_forest (old : Vars) (hend : 0 < w END) :
    ∃ s, s = gather w (END + 1) { old with n := 0, diffbytes := -1, insize := 0, lastnode := END } ∧
      Forest w { s with heap := build s.n (s.n / 2) s.heap } (leaves w) ∧ 1 ≤ s.n := by
  obtain ⟨s, hs⟩ : ∃ s, s = gather w (END + 1) { old with n := 0, diffbytes := -1, insize := 0, lastnode := END } :=
    ⟨_, rfl⟩
  have h := gather_spec w (END + 1) { old with n := 0, diffbytes := -1, insize := 0, lastnode := END }
  rw [← hs] at h
  have hmem : END ∈ present w (END + 1) := mem_present.mpr ⟨Nat.lt_succ_self _, hend⟩
  have hlast : s.lastnode = END := h.lastnode
  obtain ⟨horder, hcontent⟩ := build_spec (Nat.div_le_self s.n 2)
    (show ∀ j, s.n / 2 < j → Least Entry.count s.heap s.n j from fun j hj k h1 h2 => by omega)
  refine ⟨s, hs, ⟨⟨horder⟩, ?_, fun t ht => ?_, ?_, fun a ha => ?_, ⟨hlast.ge, leaf END, ?_, hlast.symm⟩,
    fun a ha => ?_, fun a ha _ => ?_⟩, ?_⟩
  · refine hcontent.trans (h.content.trans ?_)
    rw [leaves, map_map]
    exact add_zero _
  · obtain ⟨a, ha, rfl⟩ := mem_map.mp ht
    exact Nat.le_of_lt_succ (mem_present.mp ha).1
  · rw [leaves_labels]
    exact present_nodup w _
  · rw [leaves_labels] at ha
    exact (Nat.le_of_lt_succ (mem_present.mp ha).1).trans hlast.ge
  · exact mem_map_of_mem hmem
  · rw [leaves_labels, mem_present]
    exact and_iff_right (Nat.lt_succ_of_le ha)
  · exact (h.parent a).trans (if_pos (Nat.lt_succ_of_le ha))
  · rw [h.n]
    exact (length_pos_of_mem hmem).trans_le (Nat.le_add_left _ _)

/-! ## The lengths -/

/-- The tree at the end -/
structure Coded (w : ℕ → ℕ) (s : Vars) (t : CodeTree) : Prop where
  linked : t.Linked END s.parent
  nodup : t.labels.Nodup
  le : ∀ a ∈ t.labels, a ≤ s.lastnode
  root : s.parent t.label = 0
  leaves : ∀ a ≤ END, a ∈ t.labels ↔ 0 < w a
  absent : ∀ a ≤ END, w a = 0 → s.parent a = 0

/-- What holds of the leaves and is preserved by merging holds of the tree. -/
theorem tree_spec {P : List CodeTree → Prop} (hP : Merging w P) (hleaves : P (Pack.leaves w)) (old : Vars)
    (hend : 0 < w END) : ∃ t, Coded w (tree old w) t ∧ P [t] := by
  obtain ⟨s, hs, hf, hn⟩ := first_forest old hend
  obtain ⟨t, ht, hPt⟩ := mergeLoop_spec hP hf hleaves hn (Nat.le_succ s.n)
  rw [tree, ← hs]
  generalize mergeLoop s.n { s with heap := build s.n (s.n / 2) s.heap } = s' at ht
  have hlabels : [t].flatMap labels = t.labels := append_nil _
  have hnodup := ht.nodup
  have hle := ht.le
  have hmem := ht.leaves
  rw [hlabels] at hnodup hle
  rw [hlabels] at hmem
  have hroot : t.label = s'.lastnode := by
    obtain ⟨u, hu, hlabel⟩ := ht.last.2
    rwa [mem_singleton.mp hu] at hlabel
  refine ⟨t, ⟨(ht.linked t (mem_singleton_self t)).congr hnodup fun b _ hne => ?_, hnodup, hle, ?_, hmem,
    fun a ha hw => ?_⟩, hPt⟩
  · exact update_of_ne (hroot ▸ hne) _ _
  · rw [hroot]
    exact update_self _ _ _
  · dsimp only
    by_cases heq : a = s'.lastnode
    · rw [heq, update_self]
    · rw [update_of_ne heq]
      exact ht.absent a ha hw

/-- The way up from a leaf goes to the root. -/
theorem climb_below {parent : ℕ → ℕ} (h : t.Linked END parent) (hb : Below t a d) (fuel : ℕ) :
    climb parent (d + fuel) (parent a) = d + climb parent fuel (parent t.label) := by
  induction hb generalizing fuel with
  | leaf a => rw [Nat.zero_add, Nat.zero_add, label]
  | @left b c d l r _ ih =>
    obtain ⟨hlim, ⟨hl, -⟩, hll, -⟩ := h
    have hnext := ih hll (fuel + 1)
    rw [hl, climb, if_pos (by omega)] at hnext
    rw [Nat.add_right_comm d 1 fuel, Nat.add_assoc d fuel 1, hnext, label]
    omega
  | @right b c d l r _ ih =>
    obtain ⟨hlim, ⟨-, hr⟩, -, hlr⟩ := h
    have hnext := ih hlr (fuel + 1)
    rw [hr, climb, if_pos (by omega)] at hnext
    rw [Nat.add_right_comm d 1 fuel, Nat.add_assoc d fuel 1, hnext, label]
    omega

theorem Coded.height_le (h : Coded w s t) : t.height ≤ s.lastnode := by
  have hsub : t.labels ⊆ List.range (s.lastnode + 1) := fun a ha =>
    mem_range.mpr (Nat.lt_succ_of_le (h.le a ha))
  have hlen := (h.nodup.subperm hsub).length_le
  rw [length_range] at hlen
  exact Nat.le_of_lt_succ (t.height_lt_labels.trans_le hlen)

/-- The length of a code -/
theorem Coded.climb (h : Coded w s t) (hb : Below t a d) :
    Pack.climb s.parent (s.lastnode + 1) (s.parent a) = d := by
  have hle := hb.le_height.trans h.height_le
  have hup := climb_below h.linked hb (s.lastnode + 1 - d)
  rw [Nat.add_sub_cancel' (hle.trans (Nat.le_succ _)), h.root] at hup
  rw [hup]
  cases s.lastnode + 1 - d <;> rfl

theorem Coded.climb_absent (h : Coded w s t) (ha : a ≤ END) (hw : w a = 0) :
    Pack.climb s.parent (s.lastnode + 1) (s.parent a) = 0 := by
  rw [h.absent a ha hw]
  rfl

theorem foldl_put_length (count f : ℕ → ℕ) (a : Levels) (n i : ℕ) :
    ((List.range n).foldl (fun a i => a.put count i (f i)) a).length i = if i < n then f i else a.length i := by
  induction n with
  | zero => rfl
  | succ n ih =>
    rw [range_succ, foldl_append, foldl_cons, foldl_nil]
    change update (β := fun _ => ℕ) _ n (f n) i = _
    rw [update_apply, ih]
    split <;> split <;> (try split) <;> first | rfl | omega | (rename_i h _ ; rw [h])

theorem assign_length (count : ℕ → ℕ) (s : Vars) (old : Levels) {i : ℕ} (hi : i ≤ END) :
    (assign count s old).length i = climb s.parent (s.lastnode + 1) (s.parent i) := by
  rw [assign, foldl_put_length, if_pos (Nat.lt_succ_of_le hi)]

end Svr3.Pack
