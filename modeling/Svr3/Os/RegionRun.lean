import Mathlib.Algebra.GroupWithZero.Nat
import Svr3.Lib.Run
import Svr3.Os.Region
import Mathlib.Algebra.Order.BigOperators.Group.Finset
import Mathlib.Algebra.Ring.Int.Defs

/-!
# The pages of the regions over runs

`availsmem` with the pages of the active regions and those that `sptalloc` has taken stays the same
over every run in which no `dupreg` fails inside of its loop with other pages in its count than it
was charged, and no region grows beyond what `r_pgsz` can count.
-/

namespace Svr3.Region

open Function List

/-! ## Memory -/

/-- The pages that are available or taken by `sptalloc`. -/
def Mem.sum (m : Mem) : ℤ := m.availsmem + m.spt

section Memory

variable {c : Conf} {m : Mem} {size : ℤ}

theorem sptalloc_sum (c : Conf) (size : ℤ) (m : Mem) : (sptalloc c size m).2.sum = m.sum := by
  unfold sptalloc
  split
  · rfl
  · rfl
  · split
    · rfl
    · split
      · rfl
      · unfold Mem.sum
        dsimp only
        omega

theorem sptfree_sum (size : ℤ) (m : Mem) : (sptfree size m).sum = m.sum := by
  unfold sptfree Mem.sum
  dsimp only
  omega

theorem freeTables_sum (k : ℕ) (m : Mem) : (freeTables k m).sum = m.sum := by
  unfold freeTables
  induction k generalizing m with
  | zero => rfl
  | succ k ih => rw [Function.iterate_succ_apply, ih, sptfree_sum]

theorem dropTables_sum (left j : ℕ) (l : ℕ → Bool) (m : Mem) :
    (dropTables left j l m).2.sum = m.sum := by
  induction left generalizing j l m with
  | zero => rfl
  | succ left ih =>
    unfold dropTables
    split
    · rw [ih, sptfree_sum]
    · rfl

theorem getTables_sum (c : Conf) (k got j : ℕ) (l : ℕ → Bool) (m : Mem) :
    (getTables c k got j l m).2.2.sum = m.sum := by
  induction k generalizing got j l m with
  | zero => rfl
  | succ k ih =>
    have hsum := sptalloc_sum c 2 m
    unfold getTables
    split
    next m' heq =>
      rw [heq] at hsum
      rw [ih]
      exact hsum
    next m' heq =>
      rw [heq] at hsum
      rw [freeTables_sum]
      exact hsum

theorem dupTables_sum (c : Conf) (ovfl : ℕ → Bool) (off k i : ℕ) (l : ℕ → Bool) (m : Mem) :
    (dupTables c ovfl off k i l m).2.2.sum = m.sum := by
  induction k generalizing i l m with
  | zero => rfl
  | succ k ih =>
    have hsum := sptalloc_sum c 2 m
    unfold dupTables
    split
    next m' heq =>
      rw [heq] at hsum
      exact hsum
    next m' heq =>
      rw [heq] at hsum
      dsimp only
      split
      · exact hsum
      · rw [ih]
        exact hsum

end Memory

/-- What `ptexpand` leaves as it is. -/
structure Reg.Same (a b : Reg) : Prop where
  rg_nofree : b.rg_nofree = a.rg_nofree
  rg_sswapmem : b.rg_sswapmem = a.rg_sswapmem
  r_type : b.r_type = a.r_type
  r_pgsz : b.r_pgsz = a.r_pgsz
  r_refcnt : b.r_refcnt = a.r_refcnt
  r_noswapcnt : b.r_noswapcnt = a.r_noswapcnt
  r_filesz : b.r_filesz = a.r_filesz

section Tables

variable {c : Conf} {m m' : Mem} {rp rp' : Reg} {osize nsize change p_regva p_regva' : ℤ}
  {lotohi ok : Bool}

theorem Reg.Same.refl (a : Reg) : a.Same a := ⟨rfl, rfl, rfl, rfl, rfl, rfl, rfl⟩

theorem Reg.Same.trans {a b d : Reg} (h : a.Same b) (h' : b.Same d) : a.Same d :=
  ⟨h'.1.trans h.1, h'.2.trans h.2, h'.3.trans h.3, h'.4.trans h.4, h'.5.trans h.5,
    h'.6.trans h.6, h'.7.trans h.7⟩

theorem shrinkList_keeps (h : shrinkList c nsize rp m = (rp', m')) :
    rp.Same rp' ∧ rp'.r_pgoff = rp.r_pgoff ∧ m'.sum = m.sum := by
  unfold shrinkList at h
  dsimp only at h
  split at h
  · split at h
    · have hsum := sptalloc_sum c (ctos (ctos nsize)) m
      split at h
      next m1 heq =>
        rw [heq] at hsum
        cases h
        exact ⟨.refl rp, rfl, hsum⟩
      next m1 heq =>
        rw [heq] at hsum
        cases h
        exact ⟨⟨rfl, rfl, rfl, rfl, rfl, rfl, rfl⟩, rfl, (sptfree_sum _ _).trans hsum⟩
    · cases h
      exact ⟨⟨rfl, rfl, rfl, rfl, rfl, rfl, rfl⟩, rfl, sptfree_sum _ _⟩
  · cases h
    exact ⟨.refl rp, rfl, rfl⟩

/-- The segments by which a stack's base moves up. -/
theorem shrinkTables_keeps (h : shrinkTables osize nsize lotohi rp p_regva m = (rp', p_regva', m')) :
    rp.Same rp' ∧ m'.sum = m.sum ∧
      (lotohi = true → rp'.r_pgoff = rp.r_pgoff ∧ p_regva' = p_regva) ∧
      (lotohi = false →
        rp'.r_pgoff = short (rp.r_pgoff - stoc ((ctos osize).toNat - (ctos nsize).toNat : ℕ)) ∧
        p_regva' = caddr (p_regva + stob ((ctos osize).toNat - (ctos nsize).toNat : ℕ))) := by
  unfold shrinkTables at h
  dsimp only at h
  split at h
  next hl =>
    cases h
    exact ⟨⟨rfl, rfl, rfl, rfl, rfl, rfl, rfl⟩, freeTables_sum _ _, fun _ => ⟨rfl, rfl⟩,
      fun hc => absurd (hl.symm.trans hc) nofun⟩
  next hl =>
    cases h
    refine ⟨⟨rfl, rfl, rfl, rfl, rfl, rfl, rfl⟩, ?_, fun hc => absurd hc hl, fun _ => ⟨rfl, rfl⟩⟩
    rw [dropTables_sum, freeTables_sum]

theorem growList_keeps (h : growList c osize nsize rp m = (ok, rp', m')) :
    rp.Same rp' ∧ rp'.r_pgoff = rp.r_pgoff ∧ m'.sum = m.sum := by
  unfold growList at h
  dsimp only at h
  split at h
  · have hsum := sptalloc_sum c (ctos (ctos nsize)) m
    split at h
    next m1 heq =>
      rw [heq] at hsum
      cases h
      exact ⟨.refl rp, rfl, hsum⟩
    next m1 heq =>
      rw [heq] at hsum
      cases h
      refine ⟨⟨rfl, rfl, rfl, rfl, rfl, rfl, rfl⟩, rfl, ?_⟩
      split
      · exact (sptfree_sum _ _).trans hsum
      · exact hsum
  · cases h
    exact ⟨.refl rp, rfl, rfl⟩

theorem growTables_keeps
    (h : growTables c osize nsize lotohi rp p_regva m = (ok, rp', p_regva', m')) :
    rp.Same rp' ∧ m'.sum = m.sum ∧
      (lotohi = true → rp'.r_pgoff = rp.r_pgoff ∧ p_regva' = p_regva) ∧
      (lotohi = false →
        rp'.r_pgoff = short (rp.r_pgoff + stoc ((ctos nsize).toNat - (ctos osize).toNat : ℕ)) ∧
        p_regva' = caddr (p_regva - stob ((ctos nsize).toNat - (ctos osize).toNat : ℕ))) := by
  unfold growTables at h
  dsimp only at h
  split at h
  next hl =>
    cases h
    exact ⟨⟨rfl, rfl, rfl, rfl, rfl, rfl, rfl⟩, getTables_sum _ _ _ _ _ _, fun _ => ⟨rfl, rfl⟩,
      fun hc => absurd (hl.symm.trans hc) nofun⟩
  next hl =>
    cases h
    exact ⟨⟨rfl, rfl, rfl, rfl, rfl, rfl, rfl⟩, getTables_sum _ _ _ _ _ _,
      fun hc => absurd hc hl, fun _ => ⟨rfl, rfl⟩⟩

theorem ptshrink_keeps (h : ptshrink c osize nsize lotohi rp p_regva m = (rp', p_regva', m')) :
    rp.Same rp' ∧ m'.sum = m.sum := by
  unfold ptshrink at h
  split at h
  · split at h
    next rp1 va m1 htab =>
      split at h
      next rp2 m2 hlist =>
        have h1 := shrinkTables_keeps htab
        have h2 := shrinkList_keeps hlist
        cases h
        exact ⟨h1.1.trans h2.1, h2.2.2.trans h1.2.1⟩
  · cases h
    exact ⟨.refl rp, rfl⟩

theorem ptgrow_keeps (h : ptgrow c osize nsize lotohi rp p_regva m = (ok, rp', p_regva', m')) :
    rp.Same rp' ∧ m'.sum = m.sum := by
  unfold ptgrow at h
  split at h
  next rp1 m1 hlist =>
    have h1 := growList_keeps hlist
    cases h
    exact ⟨h1.1, h1.2.2⟩
  next rp1 m1 hlist =>
    have h1 := growList_keeps hlist
    have h2 := growTables_keeps h
    exact ⟨h1.1.trans h2.1, h2.2.1.trans h1.2.2⟩

theorem moveOff_same (change : ℤ) (lotohi : Bool) (rp : Reg) :
    rp.Same (moveOff change lotohi rp) := by
  unfold moveOff
  split
  · exact .refl rp
  · exact ⟨rfl, rfl, rfl, rfl, rfl, rfl, rfl⟩

/-- `ptexpand` keeps the size of the region, and takes pages through `sptalloc` only. -/
theorem ptexpand_keeps
    (h : ptexpand c change lotohi rp p_regva m = (ok, rp', p_regva', m')) :
    rp.Same rp' ∧ m'.sum = m.sum := by
  unfold ptexpand at h
  split at h
  · split at h
    next rp1 va m1 heq =>
      have h1 := ptshrink_keeps heq
      cases h
      exact ⟨h1.1.trans (moveOff_same _ _ _), h1.2⟩
  · split at h
    next rp1 va m1 heq =>
      have h1 := ptgrow_keeps heq
      cases h
      exact h1
    next rp1 va m1 heq =>
      have h1 := ptgrow_keeps heq
      cases h
      exact ⟨h1.1.trans (moveOff_same _ _ _), h1.2⟩

end Tables

/-! ## The lists of regions -/

variable {r n : ℕ}

/-- The entries of all processes for a region. -/
def Sys.refs (s : Sys r n) (rp : Fin r) : ℕ :=
  ∑ p, (s.p_region p).countP fun o => o.p_reg = rp

/-- The pages of the active regions. -/
def Sys.pages (s : Sys r n) : ℤ := (s.ractive.map fun rp => (s.reg rp).r_pgsz).sum

/-- A region is free or active, a free one is empty, and `r_refcnt` counts the entries. -/
structure Linked (s : Sys r n) : Prop where
  active : s.ractive.Nodup
  free : s.rfree.Nodup
  split : ∀ rp, rp ∈ s.ractive ↔ rp ∉ s.rfree
  clean : ∀ rp ∈ s.rfree, (s.reg rp).r_pgsz = 0 ∧ (s.reg rp).r_pgoff = 0 ∧
    (s.reg rp).r_refcnt = 0
  count : ∀ rp, (s.reg rp).r_refcnt = s.refs rp

section Lists

variable {c : Conf} {s : Sys r n} {rp : Fin r} {up : Fin n} {i : ℕ} {prp prp' : Preg r} {b : Reg}
  {m : Mem} {l : List (Preg r)}

theorem sum_univ_update (f : Fin n → ℕ) (up : Fin n) (x : ℕ) :
    ∑ p, update f up x p + f up = ∑ p, f p + x := by
  have hsum := Finset.sum_update_of_mem (Finset.mem_univ up) f x
  have hrest := Finset.sum_erase_add Finset.univ f (Finset.mem_univ up)
  rw [Finset.sdiff_singleton_eq_erase] at hsum
  omega

theorem refs_update (s : Sys r n) (up : Fin n) (l : List (Preg r)) (rp : Fin r) :
    ({ s with p_region := update s.p_region up l } : Sys r n).refs rp +
      (s.p_region up).countP (fun o => o.p_reg = rp) =
    s.refs rp + l.countP fun o => o.p_reg = rp := by
  have hupd : (fun p => (update s.p_region up l p).countP fun o => o.p_reg = rp) =
      update (fun p => (s.p_region p).countP fun o => o.p_reg = rp) up
        (l.countP fun o => o.p_reg = rp) := by
    funext p
    exact Function.apply_update (fun _ (l : List (Preg r)) => l.countP fun o => o.p_reg = rp)
      s.p_region up l p
  unfold Sys.refs
  dsimp only
  rw [hupd]
  exact sum_univ_update _ up _

theorem Linked.entry_active (h : Linked s) (hi : (s.p_region up)[i]? = some prp) :
    prp.p_reg ∈ s.ractive := by
  rw [h.split]
  intro hfree
  have hzero := (h.clean _ hfree).2.2
  have hmem : prp ∈ s.p_region up := mem_of_getElem? hi
  have hpos : 0 < (s.p_region up).countP fun o => o.p_reg = prp.p_reg :=
    countP_pos_iff.mpr ⟨prp, hmem, by simp⟩
  have hle : (s.p_region up).countP (fun o => o.p_reg = prp.p_reg) ≤ s.refs prp.p_reg :=
    Finset.single_le_sum (f := fun p => (s.p_region p).countP fun o => o.p_reg = prp.p_reg)
      (fun _ _ => Nat.zero_le _) (Finset.mem_univ up)
  rw [h.count] at hzero
  omega

theorem sum_update {ls : List (Fin r)} (hnd : ls.Nodup) (hin : rp ∈ ls) (reg : Fin r → Reg)
    (b : Reg) :
    (ls.map fun rp' => (update reg rp b rp').r_pgsz).sum =
      (ls.map fun rp' => (reg rp').r_pgsz).sum - (reg rp).r_pgsz + b.r_pgsz := by
  rw [← sum_map_erase _ hin, ← sum_map_erase (fun rp' => (reg rp').r_pgsz) hin,
    update_self]
  have hrest : (ls.erase rp).map (fun rp' => (update reg rp b rp').r_pgsz) =
      (ls.erase rp).map fun rp' => (reg rp').r_pgsz := by
    apply map_congr_left
    intro rp' hrp'
    rw [update_of_ne]
    intro heq
    exact (hnd.mem_erase_iff.mp hrp').1 heq
  rw [hrest]
  omega

theorem Linked.active_ne (h : Linked s) (hin : rp ∈ s.ractive) {rp' : Fin r}
    (hfree : rp' ∈ s.rfree) : rp' ≠ rp := by
  intro heq
  exact (h.split rp).mp hin (heq ▸ hfree)

/-- An active region changes, with the entries for it of one process. -/
theorem Linked.move (h : Linked s) (hin : rp ∈ s.ractive)
    (hcnt : ∀ rp', (l.countP (fun o => o.p_reg = rp') : ℤ) =
      (s.p_region up).countP (fun o => o.p_reg = rp') +
        if rp' = rp then b.r_refcnt - (s.reg rp).r_refcnt else 0) :
    Linked { s with
      mem := m
      reg := update s.reg rp b
      p_region := update s.p_region up l } := by
  refine ⟨h.active, h.free, h.split, fun rp' hfree => ?_, fun rp' => ?_⟩
  · dsimp only
    rw [update_of_ne (h.active_ne hin hfree)]
    exact h.clean rp' hfree
  · have hrefs := refs_update s up l rp'
    have hold := h.count rp'
    have hnew := hcnt rp'
    show (update s.reg rp b rp').r_refcnt =
      ({ s with p_region := update s.p_region up l } : Sys r n).refs rp'
    by_cases hrp : rp' = rp
    · subst hrp
      rw [update_self]
      rw [if_pos rfl] at hnew
      omega
    · rw [update_of_ne hrp]
      rw [if_neg hrp] at hnew
      omega

/-- An active region changes, not its count. -/
theorem Linked.store (h : Linked s) (hin : rp ∈ s.ractive)
    (hb : b.r_refcnt = (s.reg rp).r_refcnt) : Linked (s.store rp b m) := by
  refine ⟨h.active, h.free, h.split, fun rp' hfree => ?_, fun rp' => ?_⟩
  · show (update s.reg rp b rp').r_pgsz = 0 ∧ _
    unfold Sys.store
    dsimp only
    rw [update_of_ne (h.active_ne hin hfree)]
    exact h.clean rp' hfree
  · show (update s.reg rp b rp').r_refcnt = s.refs rp'
    by_cases hrp : rp' = rp
    · rw [hrp, update_self, hb, h.count]
    · rw [update_of_ne hrp, h.count]

theorem Linked.put (h : Linked s) (hi : (s.p_region up)[i]? = some prp) {p_regva : ℤ}
    (hb : b.r_refcnt = (s.reg prp.p_reg).r_refcnt) : Linked (s.put up i prp b p_regva m) := by
  apply h.move (h.entry_active hi)
  intro rp'
  obtain ⟨hlt, hget⟩ := List.getElem?_eq_some_iff.mp hi
  rw [countP_set hlt, hget, hb]
  dsimp only
  have hle : (if decide (prp.p_reg = rp') = true then 1 else 0) ≤
      (s.p_region up).countP fun o => o.p_reg = rp' := by
    split
    next heq =>
      exact countP_pos_iff.mpr ⟨prp, mem_of_getElem? hi, heq⟩
    · exact Nat.zero_le _
  rw [Int.sub_self, ite_self]
  omega

theorem unlink_linked (h : Linked s) (hi : (s.p_region up)[i]? = some prp) :
    Linked (s.unlink up i prp.p_reg) := by
  refine h.move (h.entry_active hi) ?_
  intro rp'
  obtain ⟨hlt, hget⟩ := List.getElem?_eq_some_iff.mp hi
  have hperm : (prp :: (s.p_region up).eraseIdx i).Perm (s.p_region up) :=
    hget ▸ getElem_cons_eraseIdx_perm hlt
  have hcount := hperm.countP_eq fun o => decide (o.p_reg = rp')
  rw [countP_cons] at hcount
  dsimp only
  by_cases hrp : rp' = prp.p_reg
  · rw [if_pos hrp]
    rw [if_pos (by simp [hrp])] at hcount
    omega
  · rw [if_neg hrp]
    rw [if_neg (by simp; exact fun hc => hrp hc.symm)] at hcount
    omega

theorem insertPreg_perm (prp : Preg r) (l : List (Preg r)) : (insertPreg prp l).Perm (prp :: l) := by
  have hsplit := rdropWhile_append_rtakeWhile (p := fun o : Preg r => o.p_regva > prp.p_regva) (l := l)
  unfold insertPreg
  refine perm_middle.trans ?_
  rw [hsplit]

theorem link_linked (h : Linked s) (hin : prp.p_reg ∈ s.ractive) : Linked (s.link up prp) := by
  apply h.move hin
  intro rp'
  have hcount := (insertPreg_perm prp (s.p_region up)).countP_eq fun o => decide (o.p_reg = rp')
  rw [countP_cons] at hcount
  rw [hcount]
  dsimp only
  by_cases hrp : rp' = prp.p_reg
  · rw [if_pos hrp, if_pos (by simp [hrp])]
    omega
  · rw [if_neg hrp, if_neg (by simp; exact fun hc => hrp hc.symm)]
    omega

theorem attachreg_cases (c : Conf) (rp : Fin r) (up : Fin n) (vaddr : ℤ) (type : PregType)
    (s : Sys r n) :
    attachreg c rp up vaddr type s = (false, s) ∨
    vaddr % segment = 0 ∧ findpreg c (s.p_region up) = true ∧
      chkattach s.reg (s.p_region up) ⟨rp, vaddr, type⟩ = false ∧
      attachreg c rp up vaddr type s = (true, s.link up ⟨rp, vaddr, type⟩) := by
  unfold attachreg
  split
  · exact .inl rfl
  next hva =>
    split
    · exact .inl rfl
    next hfind =>
      split
      · exact .inl rfl
      next hchk =>
        rw [not_not] at hva
        rw [Bool.not_eq_true] at hchk
        rw [Bool.not_eq_true', Bool.not_eq_false] at hfind
        exact .inr ⟨hva, hfind, hchk, rfl⟩

theorem allocreg_linked (type : RegType) (nofree : Bool) (h : Linked s) :
    Linked (allocreg type nofree s).2 := by
  unfold allocreg
  split
  · exact h
  next rp rfree hfree =>
    have hnd := hfree ▸ h.free
    have hmem : rp ∈ s.rfree := hfree ▸ mem_cons_self
    have hout : rp ∉ s.ractive := fun hc => (h.split rp).mp hc hmem
    refine ⟨nodup_cons.mpr ⟨hout, h.active⟩, (nodup_cons.mp hnd).2, fun rp' => ?_,
      fun rp' hin => ?_, fun rp' => ?_⟩
    · show rp' ∈ rp :: s.ractive ↔ rp' ∉ rfree
      rw [mem_cons, h.split, hfree, mem_cons]
      by_cases hrp : rp' = rp
      · rw [hrp]
        exact iff_of_true (.inl rfl) (nodup_cons.mp hnd).1
      · simp [hrp]
    · have hne : rp' ≠ rp := by
        intro heq
        exact (nodup_cons.mp hnd).1 (heq ▸ hin)
      dsimp only
      rw [update_of_ne hne]
      exact h.clean rp' (hfree ▸ mem_cons_of_mem _ hin)
    · show (update s.reg rp _ rp').r_refcnt = s.refs rp'
      by_cases hrp : rp' = rp
      · rw [hrp, update_self]
        exact h.count rp
      · rw [update_of_ne hrp]
        exact h.count rp'

theorem freereg_linked (h : Linked s) (hin : rp ∈ s.ractive) (h0 : (s.reg rp).r_refcnt = 0) :
    Linked (freereg rp s) := by
  have hout : rp ∉ s.rfree := (h.split rp).mp hin
  refine ⟨h.active.erase rp, nodup_cons.mpr ⟨hout, h.free⟩, fun rp' => ?_, fun rp' hin' => ?_,
    fun rp' => ?_⟩
  · show rp' ∈ s.ractive.erase rp ↔ rp' ∉ rp :: s.rfree
    rw [h.active.mem_erase_iff, mem_cons, not_or, h.split]
  · unfold freereg
    dsimp only
    by_cases hrp : rp' = rp
    · rw [hrp, update_self]
      exact ⟨rfl, rfl, h0⟩
    · rw [update_of_ne hrp]
      exact h.clean rp' ((mem_cons.mp hin').resolve_left hrp)
  · show (update s.reg rp _ rp').r_refcnt = s.refs rp'
    by_cases hrp : rp' = rp
    · rw [hrp, update_self]
      exact h.count rp
    · rw [update_of_ne hrp]
      exact h.count rp'

end Lists

/-! ## The pages of the system -/

/-- The pages that are available, of active regions, or taken by `sptalloc`. -/
def Sys.total (s : Sys r n) : ℤ := s.mem.sum + s.pages

/-- The pages add up to `x`. -/
structure Counted (x : ℤ) (s : Sys r n) : Prop where
  linked : Linked s
  nonneg : ∀ rp, 0 ≤ (s.reg rp).r_pgsz
  short : ∀ rp, (s.reg rp).r_pgsz < 32768
  plain : ∀ rp, (s.reg rp).rg_sswapmem = false
  total : s.total = x

/-- What `growreg` adds to a region fits into `r_pgsz`, when there is memory for it and `chkgrowth`
does not refuse it. -/
def Fits (c : Conf) (s : Sys r n) (up : Fin n) (i : ℕ) (change : ℤ) : Prop :=
  ∀ prp, (s.p_region up)[i]? = some prp → 0 < change → change ≤ s.mem.availsmem - c.t_minasmem →
    chkgrowth s.reg (below (s.p_region up) i) (above (s.p_region up) i) prp change prp.lotohi =
      false →
    (s.reg prp.p_reg).r_pgsz + change < 32768

theorem short_of_lt {x : ℤ} (h0 : -32768 ≤ x) (h : x < 32768) : short x = x := by
  unfold short
  exact Int.bmod_eq_of_le (by omega) (by omega)

section Pages

variable {c : Conf} {s : Sys r n} {rp : Fin r} {up : Fin n} {i : ℕ} {prp : Preg r} {b : Reg}
  {m : Mem} {x change : ℤ}

theorem charge_sum (change : ℤ) (rp : Reg) (m : Mem) : (m.charge change rp).sum = m.sum - change := by
  unfold Mem.charge Mem.sum
  dsimp only
  split
  · dsimp only
    omega
  · dsimp only
    omega

/-- An active region changes with the memory. -/
theorem Counted.store (h : Counted x s) (hin : rp ∈ s.ractive)
    (hb : b.r_refcnt = (s.reg rp).r_refcnt) (h0 : 0 ≤ b.r_pgsz) (h1 : b.r_pgsz < 32768)
    (hp : b.rg_sswapmem = false) {y : ℤ}
    (hm : m.sum + b.r_pgsz + x = s.mem.sum + (s.reg rp).r_pgsz + y) :
    Counted y (s.store rp b m) := by
  have hreg (P : Reg → Prop) (hb : P b) (hs : ∀ rp, P (s.reg rp)) (rp' : Fin r) :
      P (update s.reg rp b rp') := by
    by_cases hrp : rp' = rp
    · rw [hrp, update_self]
      exact hb
    · rw [update_of_ne hrp]
      exact hs rp'
  refine ⟨h.linked.store hin hb, hreg (fun b => 0 ≤ b.r_pgsz) h0 h.nonneg,
    hreg (fun b => b.r_pgsz < 32768) h1 h.short, hreg (fun b => b.rg_sswapmem = false) hp h.plain, ?_⟩
  have htotal := h.total
  have hsum := sum_update h.linked.active hin s.reg b
  unfold Sys.total Sys.pages at htotal ⊢
  unfold Sys.store
  dsimp only
  omega

/-- The pages do not depend on the entries. -/
theorem Counted.entries (h : Counted x s) {l : Fin n → List (Preg r)} {reg : Fin r → Reg}
    (hl : Linked { s with p_region := l, reg := reg })
    (hp : ∀ rp, (reg rp).r_pgsz = (s.reg rp).r_pgsz)
    (hs : ∀ rp, (reg rp).rg_sswapmem = (s.reg rp).rg_sswapmem) :
    Counted x { s with p_region := l, reg := reg } := by
  refine ⟨hl, fun rp => ?_, fun rp => ?_, fun rp => ?_, ?_⟩
  · show 0 ≤ (reg rp).r_pgsz
    rw [hp]
    exact h.nonneg rp
  · show (reg rp).r_pgsz < 32768
    rw [hp]
    exact h.short rp
  · show (reg rp).rg_sswapmem = false
    rw [hs]
    exact h.plain rp
  · have htotal := h.total
    unfold Sys.total Sys.pages at htotal ⊢
    dsimp only
    simp only [hp]
    exact htotal

theorem Counted.put (h : Counted x s) (hi : (s.p_region up)[i]? = some prp) {p_regva : ℤ}
    (hb : b.r_refcnt = (s.reg prp.p_reg).r_refcnt) (h0 : 0 ≤ b.r_pgsz) (h1 : b.r_pgsz < 32768)
    (hp : b.rg_sswapmem = false)
    (hm : m.sum + b.r_pgsz = s.mem.sum + (s.reg prp.p_reg).r_pgsz) :
    Counted x (s.put up i prp b p_regva m) := by
  have hstore := h.store (h.linked.entry_active hi) hb h0 h1 hp (congrArg (· + x) hm)
  exact hstore.entries (h.linked.put hi hb) (fun _ => rfl) fun _ => rfl

/-- `growreg` keeps the pages together. -/
theorem growreg_counted (c : Conf) (change : ℤ) (h : Counted x s) (hi : (s.p_region up)[i]? = some prp)
    (hle : -change ≤ (s.reg prp.p_reg).r_pgsz) (hfits : Fits c s up i change) :
    Counted x (growreg c up i prp change s).2 := by
  have h0 := h.nonneg prp.p_reg
  have h1 := h.short prp.p_reg
  have hplain := h.plain prp.p_reg
  -- what `ptexpand` makes of the region is resized, and the change is charged
  have hput {rp' : Reg} {p_regva : ℤ} {m : Mem} (hs : (s.reg prp.p_reg).Same rp')
      (hm : m.sum = s.mem.sum - change) (hlt : (s.reg prp.p_reg).r_pgsz + change < 32768) :
      Counted x (s.put up i prp (rp'.resize change) p_regva m) := by
    have hsize : (rp'.resize change).r_pgsz = (s.reg prp.p_reg).r_pgsz + change := by
      unfold Reg.resize
      dsimp only
      rw [hs.r_pgsz]
      exact short_of_lt (by omega) hlt
    apply h.put hi
    · exact hs.r_refcnt
    · omega
    · omega
    · exact hs.rg_sswapmem.trans hplain
    · omega
  unfold growreg
  split
  · exact h
  · split
    next hneg =>
      split
      next ok rp' va m heq =>
        have hkeep := ptexpand_keeps heq
        apply hput hkeep.1
        · rw [hkeep.2, charge_sum]
        · omega
    next hneg =>
      split
      · exact h
      next hmem =>
        split
        · exact h
        · split
          · exact h
          next hchk =>
            rw [Bool.not_eq_true] at hchk
            split
            next rp' va m heq =>
              have hkeep := ptexpand_keeps heq
              apply h.put hi
              · exact hkeep.1.r_refcnt
              · rw [hkeep.1.r_pgsz]
                exact h0
              · rw [hkeep.1.r_pgsz]
                exact h1
              · exact hkeep.1.rg_sswapmem.trans hplain
              · rw [hkeep.1.r_pgsz, hkeep.2]
            next rp' va m heq =>
              have hkeep := ptexpand_keeps heq
              apply hput hkeep.1
              · rw [charge_sum, hkeep.2]
              · exact hfits prp hi (by omega) (by omega) hchk

theorem freereg_other (s : Sys r n) {rp' : Fin r} (h : rp' ≠ rp) :
    (freereg rp s).reg rp' = s.reg rp' := update_of_ne h _ _

theorem freereg_self (s : Sys r n) (rp : Fin r) : (freereg rp s).reg rp =
    { rg_nofree := false, rg_sswapmem := false, r_type := .rtUnused, r_listsz := 0, r_pgsz := 0
      r_pgoff := 0, r_refcnt := (s.reg rp).r_refcnt, r_noswapcnt := 0, r_filesz := 0
      r_list := fun _ => false } := update_self _ _ _

theorem freereg_counted (h : Counted x s) (hin : rp ∈ s.ractive)
    (h0 : (s.reg rp).r_refcnt = 0) : Counted x (freereg rp s) := by
  have hmem : (freereg rp s).mem.sum = s.mem.sum + (s.reg rp).r_pgsz := by
    unfold freereg
    dsimp only
    rw [h.plain rp, if_neg Bool.false_ne_true]
    have hfree := freeTables_sum
      (ctos ((s.reg rp).r_pgoff + (s.reg rp).r_pgsz) - ctost (s.reg rp).r_pgoff).toNat s.mem
    unfold Mem.sum at hfree ⊢
    split
    · rw [show ∀ m : Mem, (sptfree (s.reg rp).r_listsz m).availsmem +
        (sptfree (s.reg rp).r_listsz m).spt = m.availsmem + m.spt from sptfree_sum _]
      split
      · dsimp only
        omega
      · dsimp only
        omega
    · split
      · dsimp only
        omega
      · dsimp only
        omega
  have hpages : (freereg rp s).pages = s.pages - (s.reg rp).r_pgsz := by
    have herase := sum_map_erase (fun rp' => (s.reg rp').r_pgsz) hin
    have hrest : ((s.ractive.erase rp).map fun rp' => ((freereg rp s).reg rp').r_pgsz) =
        (s.ractive.erase rp).map fun rp' => (s.reg rp').r_pgsz := by
      apply map_congr_left
      intro rp' hin'
      rw [freereg_other s (h.linked.active.mem_erase_iff.mp hin').1]
    show ((s.ractive.erase rp).map fun rp' => ((freereg rp s).reg rp').r_pgsz).sum = _
    rw [hrest]
    unfold Sys.pages
    omega
  refine ⟨freereg_linked h.linked hin h0, fun rp' => ?_, fun rp' => ?_, fun rp' => ?_, ?_⟩
  · by_cases hrp : rp' = rp
    · rw [hrp, freereg_self]
    · rw [freereg_other s hrp]
      exact h.nonneg rp'
  · by_cases hrp : rp' = rp
    · rw [hrp, freereg_self]
      exact show (0 : ℤ) < 32768 by decide
    · rw [freereg_other s hrp]
      exact h.short rp'
  · by_cases hrp : rp' = rp
    · rw [hrp, freereg_self]
    · rw [freereg_other s hrp]
      exact h.plain rp'
  · have htotal := h.total
    unfold Sys.total at htotal ⊢
    omega

theorem release_counted (h : Counted x s) (hin : rp ∈ s.ractive) : Counted x (release rp s) := by
  unfold release
  split
  next hc => exact freereg_counted h hin hc.1
  · exact h

theorem allocreg_counted (type : RegType) (nofree : Bool) (h : Counted x s) :
    Counted x (allocreg type nofree s).2 := by
  have hlinked := allocreg_linked type nofree h.linked
  have hreg (rp : Fin r) : ((allocreg type nofree s).2.reg rp).r_pgsz = (s.reg rp).r_pgsz ∧
      ((allocreg type nofree s).2.reg rp).rg_sswapmem = (s.reg rp).rg_sswapmem := by
    unfold allocreg
    split
    · exact ⟨rfl, rfl⟩
    next rp' rfree _ =>
      dsimp only
      by_cases hrp : rp = rp'
      · rw [hrp, update_self]
        exact ⟨rfl, rfl⟩
      · rw [update_of_ne hrp]
        exact ⟨rfl, rfl⟩
  have hpages : (allocreg type nofree s).2.pages = s.pages := by
    unfold Sys.pages
    simp only [fun rp => (hreg rp).1]
    unfold allocreg
    split
    · rfl
    next rp rfree hfree =>
      have hclean := (h.linked.clean rp (hfree ▸ mem_cons_self)).1
      rw [map_cons, sum_cons, hclean]
      exact Int.zero_add _
  refine ⟨hlinked, fun rp => ?_, fun rp => ?_, fun rp => ?_, ?_⟩
  · rw [(hreg rp).1]
    exact h.nonneg rp
  · rw [(hreg rp).1]
    exact h.short rp
  · rw [(hreg rp).2]
    exact h.plain rp
  · have hmem : (allocreg type nofree s).2.mem = s.mem := by
      unfold allocreg
      split <;> rfl
    have htotal := h.total
    unfold Sys.total at htotal ⊢
    rw [hpages, hmem]
    exact htotal

/-- The count of an active region and the entries of a process change together. -/
theorem Counted.recount (h : Counted x s) {l : List (Preg r)} {k : ℤ}
    (hl : Linked { s with
      p_region := update s.p_region up l
      reg := update s.reg rp { s.reg rp with r_refcnt := k } }) :
    Counted x { s with
      p_region := update s.p_region up l
      reg := update s.reg rp { s.reg rp with r_refcnt := k } } := by
  apply h.entries hl
  · intro rp'
    by_cases hrp : rp' = rp
    · rw [hrp, update_self]
    · rw [update_of_ne hrp]
  · intro rp'
    by_cases hrp : rp' = rp
    · rw [hrp, update_self]
    · rw [update_of_ne hrp]

theorem attachreg_counted (c : Conf) (up : Fin n) (vaddr : ℤ) (type : PregType) (h : Counted x s) (hin : rp ∈ s.ractive) :
    Counted x (attachreg c rp up vaddr type s).2 := by
  rcases attachreg_cases c rp up vaddr type s
    with hs | ⟨_, _, _, hs⟩
  · rw [hs]
    exact h
  · rw [hs]
    exact h.recount (link_linked h.linked hin)

theorem detachData_counted {magic : Bool} (h : Counted x s) (hi : (s.p_region up)[i]? = some prp)
    (hchange : magic = true → (s.reg prp.p_reg).r_type = .rtStext →
      (s.reg prp.p_reg).rg_nofree = true →
      btoc (int ((s.reg prp.p_reg).r_filesz - prp.p_regva)) - (s.reg prp.p_reg).r_pgsz ≤ 0 ∧
      -(btoc (int ((s.reg prp.p_reg).r_filesz - prp.p_regva)) - (s.reg prp.p_reg).r_pgsz) ≤
        (s.reg prp.p_reg).r_pgsz) : Counted x (detachData c magic up i prp s) := by
  have hfile : Counted x (s.fileSize prp) := by
    apply h.store (h.linked.entry_active hi)
    · rfl
    · exact h.nonneg prp.p_reg
    · exact h.short prp.p_reg
    · exact h.plain prp.p_reg
    · rfl
  have hself : (s.fileSize prp).reg prp.p_reg = { s.reg prp.p_reg with
      r_filesz := int ((s.reg prp.p_reg).r_filesz - prp.p_regva) } := update_self _ _ _
  unfold detachData
  split
  next hm =>
    split
    next hnf =>
      have hle := hchange hm.1 hm.2 hnf
      apply growreg_counted c _ hfile hi
      · rw [hself]
        exact hle.2
      · intro prp' hi' hpos
        rw [hself] at hpos
        exact absurd hpos (Int.not_lt.mpr hle.1)
    · exact hfile
  · exact h

theorem set_entry {l : List (Preg r)} (hi : l[i]? = some prp) : l.set i prp = l := by
  obtain ⟨hlt, hget⟩ := List.getElem?_eq_some_iff.mp hi
  rw [← hget, set_getElem_self]

/-- `growreg` changes the address of the entry at most. -/
theorem growreg_entries (c : Conf) (change : ℤ) (hi : (s.p_region up)[i]? = some prp) :
    ∃ va, (growreg c up i prp change s).2.p_region =
      update s.p_region up ((s.p_region up).set i { prp with p_regva := va }) := by
  have hsame : s.p_region = update s.p_region up
      ((s.p_region up).set i { prp with p_regva := prp.p_regva }) := by
    rw [set_entry hi, update_eq_self]
  unfold growreg
  split
  · exact ⟨_, hsame⟩
  · split
    · exact ⟨_, rfl⟩
    · split
      · exact ⟨_, hsame⟩
      · split
        · exact ⟨_, hsame⟩
        · split
          · exact ⟨_, hsame⟩
          · split
            · exact ⟨_, rfl⟩
            · exact ⟨_, rfl⟩

theorem detachData_entry (c : Conf) (magic : Bool) (hi : (s.p_region up)[i]? = some prp) :
    ∃ q, ((detachData c magic up i prp s).p_region up)[i]? = some q ∧ q.p_reg = prp.p_reg := by
  obtain ⟨hlt, hget⟩ := List.getElem?_eq_some_iff.mp hi
  unfold detachData
  split
  · split
    · obtain ⟨va, hva⟩ := growreg_entries (s := s.fileSize prp) c
        (btoc ((s.fileSize prp).reg prp.p_reg).r_filesz - (s.reg prp.p_reg).r_pgsz) hi
      rw [hva, update_self]
      exact ⟨_, List.getElem?_set_self hlt, rfl⟩
    · exact ⟨prp, hi, rfl⟩
  · exact ⟨prp, hi, rfl⟩

theorem detachreg_counted {magic : Bool} (h : Counted x s) (hi : (s.p_region up)[i]? = some prp)
    (hchange : magic = true → (s.reg prp.p_reg).r_type = .rtStext →
      (s.reg prp.p_reg).rg_nofree = true →
      btoc (int ((s.reg prp.p_reg).r_filesz - prp.p_regva)) - (s.reg prp.p_reg).r_pgsz ≤ 0 ∧
      -(btoc (int ((s.reg prp.p_reg).r_filesz - prp.p_regva)) - (s.reg prp.p_reg).r_pgsz) ≤
        (s.reg prp.p_reg).r_pgsz) : Counted x (detachreg c magic up i prp s) := by
  have hdata := detachData_counted (c := c) h hi hchange
  obtain ⟨q, hq, hreg⟩ := detachData_entry c magic hi
  have hunlink := hdata.recount (unlink_linked hdata.linked hq)
  have hrelease := release_counted hunlink (hdata.linked.entry_active hq)
  rw [hreg] at hrelease
  exact hrelease

/-! ## `dupreg` -/

/-- Where the loop of `dupreg` ends, with the memory that the list of tables has been taken from. -/
def dupEnd (c : Conf) (ovfl : ℕ → Bool) (b : Reg) (rsize : ℤ) (m : Mem) : Dup :=
  (dupTables c ovfl (ctost b.r_pgoff).toNat (ctos (rsize + b.r_pgoff)).toNat 0 (fun _ => false) m).1

/-- Where the loop fails, the region has come to as many pages as were charged. -/
def Dup.Even (rsize : ℤ) : Dup → Prop
  | .done => True
  | .table i => rsize = stoc i
  | .overflow i => rsize = stoc (i + 1)

/-- The loop of `dupreg`, when it comes to it, does not fail with other pages than were charged. -/
def DupFits (c : Conf) (ovfl : ℕ → Bool) (s : Sys r n) (rp : Fin r) (rsize : ℤ) : Prop :=
  rsize ≤ s.mem.availsmem - c.t_minasmem → s.rfree ≠ [] →
    (sptalloc c (s.reg rp).r_listsz (s.charge rsize).mem).1 = true →
    (dupEnd c ovfl (s.reg rp) rsize (sptalloc c (s.reg rp).r_listsz (s.charge rsize).mem).2).Even rsize

theorem Counted.charge (h : Counted x s) (rsize : ℤ) : Counted (x - rsize) (s.charge rsize) := by
  refine ⟨⟨h.linked.active, h.linked.free, h.linked.split, h.linked.clean, h.linked.count⟩,
    h.nonneg, h.short, h.plain, ?_⟩
  have htotal := h.total
  unfold Sys.charge Sys.total Mem.sum Sys.pages at *
  dsimp only
  omega

theorem stoc_short {i : ℕ} {rsize : ℤ} (hr : rsize = stoc i) (h : rsize < 32768) :
    short (stoc i) = rsize := by
  rw [← hr]
  apply short_of_lt _ h
  unfold stoc ncps at hr
  omega

theorem dupsegs_counted {ovfl : ℕ → Bool} {rsize : ℤ} (h : Counted (x - rsize) s)
    (hin : rp ∈ s.ractive) (hsize : (s.reg rp).r_pgsz = 0) (hcount : (s.reg rp).r_refcnt = 0)
    (hb : b.r_refcnt = 0) (hp : b.rg_sswapmem = false) (hb0 : b.r_pgsz = rsize)
    (h0 : 0 ≤ rsize) (h1 : rsize < 32768) (hm : m.sum = s.mem.sum)
    (heven : (dupEnd c ovfl b rsize m).Even rsize) :
    Counted x (dupsegs c ovfl b rp rsize m s).2 := by
  have hsum := dupTables_sum c ovfl (ctost b.r_pgoff).toNat (ctos (rsize + b.r_pgoff)).toNat 0
    (fun _ => false) m
  -- the new region with as many pages as were charged
  have hstore {b' : Reg} {m' : Mem} (hb' : b'.r_refcnt = 0) (hp' : b'.rg_sswapmem = false)
      (hs' : b'.r_pgsz = rsize) (hm' : m'.sum = m.sum) : Counted x (s.store rp b' m') := by
    apply h.store hin
    · rw [hb', hcount]
    · omega
    · omega
    · exact hp'
    · omega
  have hfree (b' : Reg) (m' : Mem) (hb' : b'.r_refcnt = 0) (hp' : b'.rg_sswapmem = false)
      (hs' : b'.r_pgsz = rsize) (hm' : m'.sum = m.sum) :
      Counted x (freereg rp (s.store rp b' m')) := by
    apply freereg_counted (hstore hb' hp' hs' hm') hin
    show (update s.reg rp b' rp).r_refcnt = 0
    rw [update_self]
    exact hb'
  unfold dupEnd at heven
  unfold dupsegs
  split
  next l m' heq =>
    rw [heq] at hsum
    exact hstore hb hp hb0 hsum
  next j l m' heq =>
    rw [heq] at hsum heven
    have hr : rsize = stoc j := heven
    have hsize' : Region.short (stoc j) = rsize := stoc_short hr h1
    dsimp only
    apply hfree
    · exact hb
    · exact hp
    · dsimp only
      exact hsize'
    · exact hsum
  next j l m' heq =>
    rw [heq] at hsum heven
    have hr : rsize = stoc (j + 1 : ℕ) := heven
    have hsize' : Region.short (stoc (j + 1 : ℕ)) = rsize := stoc_short hr h1
    dsimp only
    apply hfree
    · exact hb
    · exact hp
    · dsimp only
      exact hsize'
    · exact hsum

theorem allocreg_some {type : RegType} {nofree : Bool} {t : Sys r n} (h : Linked s)
    (ha : allocreg type nofree s = (some rp, t)) :
    rp ∈ t.ractive ∧ t.mem = s.mem ∧ s.rfree ≠ [] ∧ (t.reg rp).r_pgsz = 0 ∧
      (t.reg rp).r_pgoff = 0 ∧ (t.reg rp).r_refcnt = 0 ∧
      ∀ rp' ∈ s.ractive, t.reg rp' = s.reg rp' := by
  unfold allocreg at ha
  split at ha
  · exact absurd ha nofun
  next rp1 rfree hfree =>
    cases ha
    have hmem : rp ∈ s.rfree := hfree ▸ mem_cons_self
    have hclean := h.clean rp hmem
    refine ⟨mem_cons_self, rfl, by rw [hfree]; exact nofun, ?_, ?_, ?_, fun rp' hin => ?_⟩
    · show (update s.reg rp _ rp).r_pgsz = 0
      rw [update_self]
      exact hclean.1
    · show (update s.reg rp _ rp).r_pgoff = 0
      rw [update_self]
      exact hclean.2.1
    · show (update s.reg rp _ rp).r_refcnt = 0
      rw [update_self]
      exact hclean.2.2
    · apply update_of_ne
      intro heq
      exact (h.split rp').mp hin (heq ▸ hmem)

theorem allocreg_none {type : RegType} {nofree : Bool} {t : Sys r n}
    (ha : allocreg type nofree s = (none, t)) : t = s := by
  unfold allocreg at ha
  split at ha
  · cases ha
    rfl
  · exact absurd ha nofun

theorem sptalloc_false {size : ℤ} {m' : Mem} (h : sptalloc c size m = (false, m')) :
    m'.availsmem = m.availsmem := by
  unfold sptalloc at h
  split at h
  · cases h
    rfl
  · cases h
    rfl
  · split at h
    · cases h
      rfl
    · split at h
      · cases h
        rfl
      · exact absurd h nofun

theorem sptalloc_true {size : ℤ} {m' : Mem} (h : sptalloc c size m = (true, m')) :
    m'.availsmem = m.availsmem - size := by
  unfold sptalloc at h
  split at h
  · exact absurd h nofun
  · exact absurd h nofun
  · split at h
    · exact absurd h nofun
    · split at h
      · exact absurd h nofun
      · cases h
        rfl

theorem duplist_counted {ovfl : ℕ → Bool} {rsize : ℤ} (h : Counted (x - rsize) s)
    (hin : rp ∈ s.ractive) (hsize : (s.reg rp).r_pgsz = 0) (hcount : (s.reg rp).r_refcnt = 0)
    (hp : b.rg_sswapmem = false) (h0 : 0 ≤ rsize) (h1 : rsize < 32768)
    (heven : ∀ m, sptalloc c b.r_listsz s.mem = (true, m) → (dupEnd c ovfl b rsize m).Even rsize) :
    Counted x (duplist c ovfl b rp rsize s).2 := by
  have hsum := sptalloc_sum c b.r_listsz s.mem
  unfold duplist
  dsimp only
  split
  next m heq =>
    rw [heq] at hsum
    have hstore : Counted (x - rsize) (s.store rp { s.reg rp with
        rg_nofree := b.rg_nofree, rg_sswapmem := b.rg_sswapmem, r_listsz := 0 } m) := by
      apply h.store hin
      · rfl
      · exact Int.le_of_eq hsize.symm
      · show (s.reg rp).r_pgsz < 32768
        omega
      · exact hp
      · show m.sum + (s.reg rp).r_pgsz + _ = _
        dsimp only at hsum
        omega
    have hfree := freereg_counted hstore hin (by
      show (update s.reg rp _ rp).r_refcnt = 0
      rw [update_self]
      exact hcount)
    have hback := hfree.charge (-rsize)
    rwa [Int.sub_neg, Int.sub_add_cancel] at hback
  next m heq =>
    rw [heq] at hsum
    apply dupsegs_counted h hin hsize hcount
    · exact hcount
    · exact hp
    · exact short_of_lt (by omega) h1
    · exact h0
    · exact h1
    · exact hsum
    · exact heven m heq

/-- `dupreg` keeps the pages together. -/
theorem dupreg_counted (c : Conf) (ovfl : ℕ → Bool) (force : Bool) {rsize : ℤ} (h : Counted x s)
    (hin : rp ∈ s.ractive) (h0 : 0 ≤ rsize) (h1 : rsize ≤ (s.reg rp).r_pgsz)
    (hfits : (s.reg rp).r_type = .rtPrivate ∨ force = true → DupFits c ovfl s rp rsize) :
    Counted x (dupreg c ovfl rp force rsize s).2 := by
  have hshort := h.short rp
  unfold dupreg
  split
  · exact h
  next htype =>
    rw [not_and_or, not_not, Bool.not_eq_false] at htype
    split
    · exact h
    next hmem =>
      have hcharge := h.charge rsize
      split
      next t heq =>
        rw [allocreg_none heq]
        have hback := hcharge.charge (-rsize)
        rwa [Int.sub_neg, Int.sub_add_cancel] at hback
      next rp2 t heq =>
        have hsome := allocreg_some hcharge.linked heq
        have hcount := allocreg_counted (if force = true then .rtPrivate else (s.reg rp).r_type)
          false hcharge
        rw [heq] at hcount
        have hreg : t.reg rp = s.reg rp := hsome.2.2.2.2.2.2 rp hin
        rw [hreg]
        apply duplist_counted hcount hsome.1 hsome.2.2.2.1 hsome.2.2.2.2.2.1 (h.plain rp) h0
        · omega
        · intro m hm
          rw [hsome.2.1] at hm
          have hfit := hfits htype (by omega) hsome.2.2.1 (by rw [hm])
          rw [hm] at hfit
          exact hfit

theorem freeTables_availsmem (k : ℕ) (m : Mem) :
    (freeTables k m).availsmem = m.availsmem + 2 * k := by
  unfold freeTables
  induction k generalizing m with
  | zero => exact (Int.add_zero _).symm
  | succ k ih =>
    rw [Function.iterate_succ_apply, ih]
    unfold sptfree
    dsimp only
    omega

theorem freereg_availsmem (hp : (s.reg rp).rg_sswapmem = false) :
    (freereg rp s).mem.availsmem = s.mem.availsmem +
      2 * (ctos ((s.reg rp).r_pgoff + (s.reg rp).r_pgsz) - ctost (s.reg rp).r_pgoff).toNat +
      (s.reg rp).r_pgsz + (s.reg rp).r_listsz := by
  have hfree := freeTables_availsmem
    (ctos ((s.reg rp).r_pgoff + (s.reg rp).r_pgsz) - ctost (s.reg rp).r_pgoff).toNat s.mem
  have hmem (m : Mem) : (if (s.reg rp).r_listsz ≠ 0 then sptfree (s.reg rp).r_listsz m else m).availsmem =
      m.availsmem + (s.reg rp).r_listsz := by
    split
    · rfl
    next hz =>
      rw [not_not] at hz
      rw [hz, Int.add_zero]
  unfold freereg
  dsimp only
  rw [hp, if_neg Bool.false_ne_true, hmem]
  split
  · dsimp only
    omega
  · dsimp only
    omega

/-- What the loop of `dupreg` has taken where it fails. -/
theorem dupTables_availsmem {ovfl : ℕ → Bool} {off k i : ℕ} {l l' : ℕ → Bool} {m' : Mem} {d : Dup}
    (h : dupTables c ovfl off k i l m = (d, l', m')) :
    match d with
    | .done => True
    | .table j => m'.availsmem = m.availsmem - 2 * (j - i)
    | .overflow j => m'.availsmem = m.availsmem - 2 * (j + 1 - i) := by
  induction k generalizing i l m with
  | zero =>
    cases h
    trivial
  | succ k ih =>
    unfold dupTables at h
    split at h
    next m1 heq =>
      have hm := sptalloc_false heq
      cases h
      dsimp only
      omega
    next m1 heq =>
      have hm := sptalloc_true heq
      dsimp only at h
      split at h
      · cases h
        dsimp only
        omega
      · have hrest := ih h
        cases d with
        | done => trivial
        | table j =>
          dsimp only at hrest ⊢
          omega
        | overflow j =>
          dsimp only at hrest ⊢
          omega

theorem ctos_stoc (i : ℕ) : ctos (stoc i) = i := by
  unfold ctos stoc ncps
  rw [Int.tdiv_eq_ediv_of_nonneg (by omega)]
  omega

/-- A region that has been freed after it came to `i` tables gives them back. -/
theorem freereg_dup (rp : Fin r) {b : Reg} {j : ℕ} {rsize : ℤ} (hp : b.rg_sswapmem = false)
    (hr : rsize = stoc j) (h1 : rsize < 32768) (l : ℕ → Bool) :
    (freereg rp (s.store rp { b with r_list := l, r_pgsz := short (stoc j), r_pgoff := 0 } m)).mem.availsmem =
      m.availsmem + 2 * j + rsize + b.r_listsz := by
  have hself : (s.store rp { b with r_list := l, r_pgsz := short (stoc j), r_pgoff := 0 } m).reg rp =
      { b with r_list := l, r_pgsz := short (stoc j), r_pgoff := 0 } := update_self _ _ _
  have hzero : ctost 0 = 0 := by decide
  have hctos := ctos_stoc j
  rw [freereg_availsmem (by rw [hself]; exact hp), hself]
  dsimp only
  rw [stoc_short hr h1, hr, Int.zero_add, hctos, hzero]
  unfold Sys.store
  dsimp only
  omega

theorem dupsegs_null {ovfl : ℕ → Bool} {rsize : ℤ} {t : Sys r n} (hp : b.rg_sswapmem = false)
    (h1 : rsize < 32768) (heven : (dupEnd c ovfl b rsize m).Even rsize)
    (h : dupsegs c ovfl b rp rsize m s = (none, t)) :
    t.mem.availsmem = m.availsmem + rsize + b.r_listsz := by
  unfold dupEnd at heven
  unfold dupsegs at h
  split at h
  · exact absurd h nofun
  next j l m' heq =>
    have hm := dupTables_availsmem heq
    rw [heq] at heven
    have hr : rsize = stoc j := heven
    cases h
    rw [freereg_dup rp hp hr h1]
    dsimp only at hm
    omega
  next j l m' heq =>
    have hm := dupTables_availsmem heq
    rw [heq] at heven
    have hr : rsize = stoc (j + 1 : ℕ) := heven
    cases h
    have hfree := freereg_dup (s := s) (m := m') rp hp hr h1 l
    dsimp only at hm
    rw [Int.natCast_add_one] at hfree
    rw [hfree]
    omega

theorem duplist_null {ovfl : ℕ → Bool} {rsize : ℤ} {t : Sys r n} (hsize : (s.reg rp).r_pgsz = 0)
    (hoff : (s.reg rp).r_pgoff = 0) (hp : b.rg_sswapmem = false) (h1 : rsize < 32768)
    (heven : ∀ m, sptalloc c b.r_listsz s.mem = (true, m) → (dupEnd c ovfl b rsize m).Even rsize)
    (h : duplist c ovfl b rp rsize s = (none, t)) :
    t.mem.availsmem = s.mem.availsmem + rsize := by
  unfold duplist at h
  dsimp only at h
  split at h
  next m hm =>
    have hfalse := sptalloc_false hm
    have hself : (s.store rp { s.reg rp with
        rg_nofree := b.rg_nofree, rg_sswapmem := b.rg_sswapmem, r_listsz := 0 } m).reg rp =
        { s.reg rp with rg_nofree := b.rg_nofree, rg_sswapmem := b.rg_sswapmem, r_listsz := 0 } :=
      update_self _ _ _
    have hzero : (ctos (0 + 0) - ctost 0).toNat = 0 := by decide
    cases h
    show (freereg rp _).mem.availsmem - -rsize = _
    rw [freereg_availsmem (by rw [hself]; exact hp), hself]
    dsimp only
    rw [hsize, hoff, hzero]
    show m.availsmem + _ + 0 + 0 - -rsize = _
    omega
  next m hm =>
    have htrue := sptalloc_true hm
    refine (dupsegs_null ?_ h1 ?_ h).trans ?_
    · exact hp
    · exact heven m hm
    · dsimp only
      omega

/-- A `dupreg` that returns NULL leaves `availsmem` as it found it. -/
theorem dupreg_null {ovfl : ℕ → Bool} {force : Bool} {rsize : ℤ} {t : Sys r n} (h : Counted x s)
    (hin : rp ∈ s.ractive) (h1 : rsize ≤ (s.reg rp).r_pgsz)
    (hfits : (s.reg rp).r_type = .rtPrivate ∨ force = true → DupFits c ovfl s rp rsize)
    (ht : dupreg c ovfl rp force rsize s = (none, t)) : t.mem.availsmem = s.mem.availsmem := by
  have hshort := h.short rp
  unfold dupreg at ht
  split at ht
  · exact absurd ht nofun
  next htype =>
    rw [not_and_or, not_not, Bool.not_eq_false] at htype
    split at ht
    · cases ht
      rfl
    next hmem =>
      have hcharge := h.charge rsize
      split at ht
      next t' heq =>
        rw [allocreg_none heq] at ht
        cases ht
        show s.mem.availsmem - rsize - -rsize = s.mem.availsmem
        omega
      next rp2 t' heq =>
        have hsome := allocreg_some hcharge.linked heq
        have hreg : t'.reg rp = s.reg rp := hsome.2.2.2.2.2.2 rp hin
        have havail : t'.mem.availsmem = s.mem.availsmem - rsize := by
          rw [hsome.2.1]
          rfl
        rw [hreg] at ht
        have hnull := duplist_null hsome.2.2.2.1 hsome.2.2.2.2.1 (h.plain rp) (by omega)
          (fun m hm => by
            rw [hsome.2.1] at hm
            have hfit := hfits htype (by omega) hsome.2.2.1 (by rw [hm])
            rw [hm] at hfit
            exact hfit) ht
        omega

end Pages

/-! ## Runs -/

/-- What a step needs to keep the pages together. -/
def Sound (c : Conf) (s : Sys r n) : Act r n → Prop
  | .grow up i change _ => Fits c s up i change
  | .dup rp force rsize ovfl vm =>
    (s.reg rp).r_type = .rtPrivate ∨ force = true → DupFits c ovfl (s.vm vm) rp rsize
  | _ => True

theorem Counted.vm {s : Sys r n} {x : ℤ} (h : Counted x s) (vm : List Bool) : Counted x (s.vm vm) :=
  ⟨⟨h.linked.active, h.linked.free, h.linked.split, h.linked.clean, h.linked.count⟩, h.nonneg,
    h.short, h.plain, h.total⟩

def Rstep (c : Conf) (s : Sys r n) (a : Act r n) (t : Sys r n) : Prop :=
  ∃ ok, next c s a = some (ok, t)

theorem next_counted {c : Conf} {s t : Sys r n} {a : Act r n} {x : ℤ} {ok : Bool}
    (h : Counted x s) (hsound : Sound c s a) (ht : next c s a = some (ok, t)) : Counted x t := by
  cases a with
  | alloc type nofree =>
    have halloc := allocreg_counted type nofree h
    unfold next at ht
    dsimp only at ht
    split at ht
    next heq =>
      rw [heq] at halloc
      cases ht
      exact halloc
    next heq =>
      rw [heq] at halloc
      cases ht
      exact halloc
  | attach rp up vaddr type =>
    unfold next at ht
    dsimp only at ht
    split at ht
    next hin =>
      have hatt := attachreg_counted c up (caddr vaddr) type h hin
      rw [Option.some.injEq] at ht
      rw [ht] at hatt
      exact hatt
    · exact absurd ht nofun
  | detach magic up i vm =>
    unfold next at ht
    dsimp only at ht
    split at ht
    · exact absurd ht nofun
    next prp hi =>
      split at ht
      · exact absurd ht nofun
      next hc =>
        cases ht
        apply detachreg_counted (h.vm vm) hi
        intro hm hst hnf
        by_contra hle
        exact hc ⟨hm, hst, hnf, hle⟩
  | grow up i change vm =>
    unfold next at ht
    dsimp only at ht
    split at ht
    · exact absurd ht nofun
    next prp hi =>
      split at ht
      · exact absurd ht nofun
      next hc =>
        rw [not_or] at hc
        have hgrow := growreg_counted c change (h.vm vm) hi
          (Int.not_lt.mp hc.2) hsound
        split at ht
        next heq =>
          rw [heq] at hgrow
          cases ht
          exact hgrow
        next heq =>
          cases ht
          rw [heq] at hgrow
          exact hgrow
  | dup rp force rsize ovfl vm =>
    unfold next at ht
    dsimp only at ht
    split at ht
    next hc =>
      have hdup := dupreg_counted c ovfl force (h.vm vm) hc.1 hc.2.1
        hc.2.2 hsound
      split at ht
      next heq =>
        rw [heq] at hdup
        cases ht
        exact hdup
      next heq =>
        rw [heq] at hdup
        cases ht
        exact hdup
    · exact absurd ht nofun
  | free rp vm =>
    unfold next at ht
    dsimp only at ht
    split at ht
    next hc =>
      cases ht
      exact freereg_counted (h.vm vm) hc.1 hc.2
    · exact absurd ht nofun
  | other rp nofree filesz noswapcnt availrmem =>
    unfold next at ht
    dsimp only at ht
    split at ht
    next hc =>
      cases ht
      have hstore : Counted x (s.store rp { s.reg rp with
          rg_nofree := nofree, r_filesz := filesz, r_noswapcnt := noswapcnt }
          { s.mem with availrmem := availrmem }) := by
        apply h.store hc
        · rfl
        · exact h.nonneg rp
        · exact h.short rp
        · exact h.plain rp
        · rfl
      exact hstore
    · exact absurd ht nofun

theorem reginit_counted (m : Mem) : Counted m.sum (reginit r n m) := by
  refine ⟨⟨nodup_nil, nodup_finRange r, fun rp => ?_, fun _ _ => ⟨rfl, rfl, rfl⟩,
    fun rp => ?_⟩, fun _ => Int.le_refl 0, fun _ => ?_, fun _ => rfl, ?_⟩
  · exact iff_of_false nofun fun hc => hc (mem_finRange rp)
  · show (0 : ℤ) = ((∑ _p : Fin n, 0 : ℕ) : ℤ)
    rw [Finset.sum_const_zero]
    rfl
  · show (0 : ℤ) < 32768
    decide
  · exact Int.add_zero _

/-- What is promised of a state and of the steps from it, `x` pages to begin with. -/
structure Conserves (c : Conf) (x : ℤ) (s : Sys r n) : Prop where
  total : s.mem.availsmem + (s.ractive.map fun rp => (s.reg rp).r_pgsz).sum + s.mem.spt = x
  null : ∀ rp force rsize ovfl vm t, Sound c s (.dup rp force rsize ovfl vm) →
    next c s (.dup rp force rsize ovfl vm) = some (false, t) → t.mem.availsmem = s.mem.availsmem

theorem Counted.conserves {c : Conf} {x : ℤ} {s : Sys r n} (h : Counted x s) : Conserves c x s := by
  refine ⟨?_, fun rp force rsize ovfl vm t hsound ht => ?_⟩
  · have htotal := h.total
    unfold Sys.total Mem.sum Sys.pages at htotal
    omega
  · unfold next at ht
    dsimp only at ht
    split at ht
    next hc =>
      split at ht
      · exact absurd ht nofun
      next t' heq =>
        cases ht
        exact dupreg_null (s := s.vm vm) (h.vm vm) hc.1 hc.2.2 hsound heq
    · exact absurd ht nofun

/-- Memory for few pages. -/
def small : Mem := ⟨100, 100, 0, []⟩

def smallConf : Conf := ⟨0, 0, 4⟩

theorem one_process : NeZero 1 := ⟨Nat.one_ne_zero⟩

theorem two_regions : NeZero 2 := ⟨Nat.succ_ne_zero 1⟩

attribute [local instance] one_process two_regions

/-- A region is attached and gets a page. -/
def onePage : List (Act 2 1) :=
  [.alloc .rtPrivate false, .attach 0 0 0 .data, .grow 0 0 1 [true, true]]

theorem onePage_run : ∃ t : Sys 2 1, Run (fun s a t => Rstep smallConf s a t ∧ Sound smallConf s a)
    (reginit 2 1 small) onePage t ∧ t.mem.availsmem = 96 := by
  refine ⟨_, .cons ⟨⟨true, rfl⟩, trivial⟩ (.cons ⟨⟨true, rfl⟩, trivial⟩
    (.cons ⟨⟨true, rfl⟩, fun prp hi _ _ _ => ?_⟩ (.nil _))), ?_⟩
  · cases hi
    show (0 : ℤ) + 1 < 32768
    decide
  · rfl

/-- In every run of sound steps no page is lost or gained, and a `dupreg` that fails costs none. -/
theorem pages_conserved {c : Conf} {m : Mem} {as : List (Act r n)} {t : Sys r n}
    (h : Run (fun s a t => Rstep c s a t ∧ Sound c s a) (reginit r n m) as t) :
    Conserves c (m.availsmem + m.spt) t := by
  have hstep (s : Sys r n) (a : Act r n) (t : Sys r n) (hs : Counted m.sum s)
      (hst : Rstep c s a t ∧ Sound c s a) : Counted m.sum t := by
    obtain ⟨ok, ht⟩ := hst.1
    exact next_counted hs hst.2 ht
  exact (h.invariant hstep (reginit_counted m)).conserves

theorem pages_conserved_onePage :
    ∃ t : Sys 2 1, t.mem.availsmem = 96 ∧ Conserves smallConf 100 t := by
  obtain ⟨t, ht, h96⟩ := onePage_run
  exact ⟨t, h96, pages_conserved ht⟩

/-- The region of `onePage` is duplicated, and there is no room for the page table. -/
def lostDup : List (Act 2 1) :=
  onePage ++ [.dup 0 false 1 (fun _ => false) [true, false]]

theorem dupreg_loses_page :
    ¬ ∀ (r n : ℕ) (c : Conf) (m : Mem) (as : List (Act r n)) (t : Sys r n),
      Run (Rstep c) (reginit r n m) as t →
      t.mem.availsmem + (t.ractive.map fun rp => (t.reg rp).r_pgsz).sum + t.mem.spt =
        m.availsmem + m.spt := by
  intro h
  have hrun : ∃ t : Sys 2 1, Run (Rstep smallConf) (reginit 2 1 small) lostDup t ∧
      t.mem.availsmem + (t.ractive.map fun rp => (t.reg rp).r_pgsz).sum + t.mem.spt = 99 := by
    refine ⟨_, .cons ⟨true, rfl⟩ (.cons ⟨true, rfl⟩ (.cons ⟨true, rfl⟩ (.cons ⟨false, rfl⟩
      (.nil _)))), ?_⟩
    rfl
  obtain ⟨t, ht, h99⟩ := hrun
  have hsum := h 2 1 smallConf small lostDup t ht
  rw [h99] at hsum
  exact absurd hsum (by decide)

end Svr3.Region
