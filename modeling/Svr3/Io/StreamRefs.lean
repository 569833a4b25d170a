import Mathlib.Data.List.Count
import Mathlib.Data.List.Perm.Basic
import Svr3.Lib.Linked
import Svr3.Io.Stream
import Mathlib.Algebra.GroupWithZero.Nat

/-!
# References to data blocks

`Counts B D h live` says of the message blocks `B` and the data blocks `D` that the message blocks
that are not `live` are on the free list, and that every data block counts the live message blocks
that refer to it and is on the free list of its class when there are none.
-/

namespace Svr3.Str

open List

/-! ## Message blocks -/

/-- The message blocks `B`, of which `live` are in use. -/
structure MPool (B : List ℕ) (h : Heap) (live : List ℕ) : Prop where
  nodup : B.Nodup
  free : ∃ fl, Linked h.b_next h.mbfreelist fl ∧ (fl ++ live).Perm B ∧
    ∀ b ∈ fl, h.b_datap b = none

section MPool

variable {B live live' : List ℕ} {h : Heap} {b : ℕ}

@[simp]
theorem setM_self (m : Mblk) : (h.setM b m).mblk b = m := Function.update_self _ _ _

theorem setM_other {c : ℕ} (hc : c ≠ b) (m : Mblk) : (h.setM b m).mblk c = h.mblk c :=
  Function.update_of_ne hc _ _

theorem MPool.nodup_live (hm : MPool B h live) : live.Nodup := by
  obtain ⟨fl, -, hperm, -⟩ := hm.free
  exact (nodup_append.mp (hperm.nodup_iff.mpr hm.nodup)).2.1

theorem MPool.perm (hm : MPool B h live) (hp : live.Perm live') : MPool B h live' := by
  obtain ⟨fl, h1, h2, h3⟩ := hm.free
  exact ⟨hm.nodup, fl, h1, (hp.symm.append_left fl).trans h2, h3⟩

/-- Only the links and the data pointers of the free blocks count. -/
theorem MPool.congr (hm : MPool B h live) {h' : Heap} (hfree : h'.mbfreelist = h.mbfreelist)
    (hsame : ∀ b, b ∉ live → h'.mblk b = h.mblk b) : MPool B h' live := by
  obtain ⟨fl, h1, h2, h3⟩ := hm.free
  have hfl (b : ℕ) (hb : b ∈ fl) : h'.mblk b = h.mblk b := by
    apply hsame
    intro hlive
    exact (nodup_append.mp (h2.nodup_iff.mpr hm.nodup)).2.2 b hb b hlive rfl
  refine ⟨hm.nodup, fl, ?_, h2, fun b hb => ?_⟩
  · rw [hfree]
    apply h1.congr
    intro b hb
    unfold Heap.b_next
    rw [hfl b hb]
  · unfold Heap.b_datap
    rw [hfl b hb]
    exact h3 b hb

theorem MPool.pop (hm : MPool B h live) (hb : h.mbfreelist = some b) :
    MPool B (h.popM b) (b :: live) ∧ b ∉ live ∧ h.b_datap b = none := by
  obtain ⟨fl, h1, h2, h3⟩ := hm.free
  cases fl with
  | nil => exact absurd (hb.symm.trans h1) nofun
  | cons c fl =>
    obtain rfl : c = b := Option.some.inj (h1.1.symm.trans hb)
    have hnd := h2.nodup_iff.mpr hm.nodup
    refine ⟨⟨hm.nodup, fl, h1.2, perm_middle.trans h2, fun b hb => ?_⟩, fun hlive => ?_, ?_⟩
    · exact h3 b (mem_cons_of_mem _ hb)
    · exact (nodup_append.mp hnd).2.2 c mem_cons_self c hlive rfl
    · exact h3 c mem_cons_self

theorem MPool.push (hm : MPool B h (b :: live)) (hb : h.b_datap b = none) :
    MPool B (h.pushM b) live := by
  obtain ⟨fl, h1, h2, h3⟩ := hm.free
  have hnd := h2.nodup_iff.mpr hm.nodup
  have hbfl (c : ℕ) (hc : c ∈ fl) : c ≠ b := fun heq =>
    (nodup_append.mp hnd).2.2 c hc b mem_cons_self heq
  refine ⟨hm.nodup, b :: fl, ⟨rfl, ?_⟩, perm_middle.symm.trans h2, fun c hc => ?_⟩
  · have hself : (h.pushM b).b_next b = h.mbfreelist := by
      unfold Heap.b_next Heap.pushM
      rw [setM_self]
    rw [hself]
    apply h1.congr
    intro c hc
    exact congrArg Mblk.b_next (setM_other (hbfl c hc) _)
  · rcases mem_cons.mp hc with rfl | hc
    · unfold Heap.b_datap Heap.pushM
      rw [setM_self]
      exact hb
    · exact (congrArg Mblk.b_datap (setM_other (hbfl c hc) _)).trans (h3 c hc)

end MPool

/-! ## Data blocks -/

/-- The data blocks `D`, each with so many references. -/
structure DPool (D : List ℕ) (h : Heap) (refs : ℕ → ℕ) : Prop where
  nodup : D.Nodup
  class_lt : ∀ d ∈ D, (h.dblk d).db_class < NCLASS
  ref : ∀ d ∈ D, (h.dblk d).db_ref.toNat = refs d
  free : ∀ c < NCLASS, ∃ dl, Linked h.db_freep (h.dbfreelist c) dl ∧
    ∀ d, d ∈ dl ↔ d ∈ D ∧ (h.dblk d).db_class = c ∧ refs d = 0
  cnt : ∀ c < NCLASS, (h.dballoc c).dba_cnt =
    D.countP fun d => (h.dblk d).db_class = c ∧ refs d ≠ 0

section DPool

variable {D : List ℕ} {h h' : Heap} {refs refs' : ℕ → ℕ} {d : ℕ}

@[simp]
theorem setD_self (m : Dblk) : (h.setD d m).dblk d = m := Function.update_self _ _ _

theorem setD_other {e : ℕ} (he : e ≠ d) (m : Dblk) : (h.setD d m).dblk e = h.dblk e :=
  Function.update_of_ne he _ _

/-- Types, bases and limits of the data blocks make no difference. -/
theorem DPool.of_fields (hd : DPool D h refs)
    (h1 : ∀ e, (h'.dblk e).db_class = (h.dblk e).db_class ∧ (h'.dblk e).db_ref = (h.dblk e).db_ref ∧
      (h'.dblk e).db_freep = (h.dblk e).db_freep)
    (h2 : h'.dbfreelist = h.dbfreelist) (h3 : h'.dballoc = h.dballoc)
    (h4 : ∀ d ∈ D, refs' d = refs d) : DPool D h' refs' := by
  refine ⟨hd.nodup, fun d hmem => ?_, fun d hmem => ?_, fun c hc => ?_, fun c hc => ?_⟩
  · rw [(h1 d).1]
    exact hd.class_lt d hmem
  · rw [(h1 d).2.1, h4 d hmem]
    exact hd.ref d hmem
  · obtain ⟨dl, h5, h6⟩ := hd.free c hc
    refine ⟨dl, ?_, fun d => ?_⟩
    · rw [h2]
      exact h5.congr fun e _ => (h1 e).2.2
    · rw [h6 d, (h1 d).1]
      refine and_congr_right fun hmem => ?_
      rw [h4 d hmem]
  · rw [h3, hd.cnt c hc]
    congr 1
    apply countP_congr
    intro d hmem
    rw [(h1 d).1, h4 d hmem]

theorem DPool.congr (hd : DPool D h refs) (h1 : h'.dblk = h.dblk)
    (h2 : h'.dbfreelist = h.dbfreelist) (h3 : h'.dballoc = h.dballoc)
    (h4 : ∀ d ∈ D, refs' d = refs d) : DPool D h' refs' :=
  hd.of_fields (fun e => by rw [h1]; exact ⟨rfl, rfl, rfl⟩) h2 h3 h4

/-- A block is counted in its own class, where its references make a difference. -/
theorem countP_update (refs cls : ℕ → ℕ) (hnd : D.Nodup) (hmem : d ∈ D) (r c : ℕ) :
    (D.countP fun e => cls e = c ∧ Function.update refs d r e ≠ 0) +
        (if cls d = c ∧ refs d ≠ 0 then 1 else 0) =
      (D.countP fun e => cls e = c ∧ refs e ≠ 0) + (if cls d = c ∧ r ≠ 0 then 1 else 0) := by
  obtain ⟨xs, ys, rfl⟩ := append_of_mem hmem
  have hne (e : ℕ) (he : e ∈ xs ∨ e ∈ ys) : e ≠ d := by
    rintro rfl
    rw [nodup_append, nodup_cons] at hnd
    rcases he with he | he
    · exact hnd.2.2 e he e mem_cons_self rfl
    · exact hnd.2.1.1 he
  have hxs : (xs.countP fun e => cls e = c ∧ Function.update refs d r e ≠ 0) =
      xs.countP fun e => cls e = c ∧ refs e ≠ 0 := by
    apply countP_congr
    intro e he
    rw [Function.update_of_ne (hne e (.inl he))]
  have hys : (ys.countP fun e => cls e = c ∧ Function.update refs d r e ≠ 0) =
      ys.countP fun e => cls e = c ∧ refs e ≠ 0 := by
    apply countP_congr
    intro e he
    rw [Function.update_of_ne (hne e (.inr he))]
  rw [countP_append, countP_append, countP_cons, countP_cons, hxs, hys,
    Function.update_self]
  simp only [decide_eq_true_eq]
  omega

/-- A data block has another number of references, which moves it in its class at most. -/
theorem DPool.update (hd : DPool D h refs) (hmem : d ∈ D) {m : Dblk} {r : ℕ}
    (hdblk : h'.dblk = Function.update h.dblk d m) (hclass : m.db_class = (h.dblk d).db_class)
    (href : m.db_ref.toNat = r)
    (hfree : ∃ dl, Linked h'.db_freep (h'.dbfreelist (h.dblk d).db_class) dl ∧
      ∀ e, e ∈ dl ↔ e ∈ D ∧ (h.dblk e).db_class = (h.dblk d).db_class ∧
        Function.update refs d r e = 0)
    (hothers : ∀ c, c ≠ (h.dblk d).db_class → h'.dbfreelist c = h.dbfreelist c ∧
      (h'.dballoc c).dba_cnt = (h.dballoc c).dba_cnt)
    (hcnt : (h'.dballoc (h.dblk d).db_class).dba_cnt + (if refs d ≠ 0 then 1 else 0) =
      (h.dballoc (h.dblk d).db_class).dba_cnt + (if r ≠ 0 then 1 else 0)) :
    DPool D h' (Function.update refs d r) := by
  have hcls (e : ℕ) : (h'.dblk e).db_class = (h.dblk e).db_class := by
    rw [hdblk]
    by_cases he : e = d
    · rw [he, Function.update_self, hclass]
    · rw [Function.update_of_ne he]
  refine ⟨hd.nodup, fun e he => ?_, fun e he => ?_, fun c hc => ?_, fun c hc => ?_⟩
  · rw [hcls]
    exact hd.class_lt e he
  · rw [hdblk]
    by_cases hed : e = d
    · rw [hed, Function.update_self, Function.update_self, href]
    · rw [Function.update_of_ne hed, Function.update_of_ne hed]
      exact hd.ref e he
  · by_cases hcd : c = (h.dblk d).db_class
    · subst hcd
      obtain ⟨dl, h1, h2⟩ := hfree
      exact ⟨dl, h1, fun e => by rw [hcls, h2]⟩
    · -- `d` is not in this class
      obtain ⟨dl, h1, h2⟩ := hd.free c hc
      have hne (e : ℕ) (he : (h.dblk e).db_class = c) : e ≠ d := by
        rintro rfl
        exact hcd he.symm
      refine ⟨dl, ?_, fun e => ?_⟩
      · rw [(hothers c hcd).1]
        apply h1.congr
        intro e he
        unfold Heap.db_freep
        rw [hdblk, Function.update_of_ne (hne e ((h2 e).mp he).2.1)]
      · rw [h2 e, hcls]
        refine and_congr_right fun _ => and_congr_right fun he => ?_
        rw [Function.update_of_ne (hne e he)]
  · simp only [hcls]
    have hcount := countP_update refs (fun e => (h.dblk e).db_class) hd.nodup hmem r c
    by_cases hcd : c = (h.dblk d).db_class
    · subst hcd
      have hold := hd.cnt _ hc
      simp only [true_and] at hcount
      rw [hold] at hcnt
      split_ifs at hcount hcnt <;> omega
    · rw [(hothers c hcd).2, hd.cnt c hc]
      have hcd' : ¬ (h.dblk d).db_class = c := Ne.symm hcd
      simp only [hcd', false_and, if_false] at hcount
      exact_mod_cast hcount.symm

/-- A block in use stays in use. -/
theorem DPool.setRef (hd : DPool D h refs) (hmem : d ∈ D) {r : UInt8} (hr : refs d ≠ 0)
    (hr' : r.toNat ≠ 0) :
    DPool D (h.setD d { h.dblk d with db_ref := r }) (Function.update refs d r.toNat) := by
  apply hd.update hmem (m := { h.dblk d with db_ref := r }) rfl rfl rfl
  · obtain ⟨dl, h1, h2⟩ := hd.free _ (hd.class_lt d hmem)
    refine ⟨dl, h1.congr fun e he => ?_, fun e => ?_⟩
    · have hed : e ≠ d := by
        rintro rfl
        exact hr ((h2 e).mp he).2.2
      exact congrArg Dblk.db_freep (setD_other hed _)
    · rw [h2 e]
      refine and_congr_right fun _ => and_congr_right fun _ => ?_
      by_cases hed : e = d
      · rw [hed, Function.update_self]
        exact iff_of_false hr hr'
      · rw [Function.update_of_ne hed]
  · exact fun _ _ => ⟨rfl, rfl⟩
  · rw [if_pos hr, if_pos hr']
    rfl

/-- The last reference goes, and the block to the free list of its class. -/
theorem DPool.freed (hd : DPool D h refs) (hmem : d ∈ D) (hr : refs d ≠ 0) :
    DPool D (freed (h.setD d { h.dblk d with db_ref := 0 }) (h.dblk d).db_class d)
      (Function.update refs d 0) := by
  have hfields (h : Heap) (c : ℕ) : (Str.freed h c d).dblk =
        Function.update h.dblk d { h.dblk d with db_freep := h.dbfreelist c } ∧
      (Str.freed h c d).dbfreelist = Function.update h.dbfreelist c (some d) ∧
      (Str.freed h c d).dballoc = Function.update h.dballoc c
        { h.dballoc c with dba_cnt := (h.dballoc c).dba_cnt - 1 } := by
    unfold Str.freed
    simp only
    split <;> exact ⟨rfl, rfl, rfl⟩
  obtain ⟨h1, h2, h3⟩ := hfields (h.setD d { h.dblk d with db_ref := 0 }) (h.dblk d).db_class
  have hdblk : (Str.freed (h.setD d { h.dblk d with db_ref := 0 }) (h.dblk d).db_class d).dblk =
      Function.update h.dblk d
        { h.dblk d with db_ref := 0, db_freep := h.dbfreelist (h.dblk d).db_class } := by
    rw [h1]
    simp only [Heap.setD, Function.update_self, Function.update_idem]
  apply hd.update hmem hdblk rfl rfl
  · obtain ⟨dl, h4, h5⟩ := hd.free _ (hd.class_lt d hmem)
    have hnot : d ∉ dl := fun he => hr ((h5 d).mp he).2.2
    refine ⟨d :: dl, ⟨?_, ?_⟩, fun e => ?_⟩
    · rw [h2, Function.update_self]
    · unfold Heap.db_freep
      rw [hdblk, Function.update_self]
      apply h4.congr
      intro e he
      have hed : e ≠ d := fun heq => hnot (heq ▸ he)
      rw [Function.update_of_ne hed]
      rfl
    · rw [mem_cons, h5 e]
      by_cases hed : e = d
      · rw [hed, Function.update_self]
        simp [hmem]
      · rw [Function.update_of_ne hed]
        simp [hed]
  · intro c hc
    rw [h2, h3, Function.update_of_ne hc, Function.update_of_ne hc]
    exact ⟨rfl, rfl⟩
  · rw [h3, Function.update_self, if_pos hr]
    simp [Heap.setD]

/-- The first block of the free list of a class gets its first reference. -/
theorem DPool.take (hd : DPool D h refs) (h' : Heap) {c : ℕ} (hc : c < NCLASS)
    (hfree : h.dbfreelist c = some d) {m : Dblk} (hm : m.db_class = (h.dblk d).db_class)
    (href : m.db_ref = 1) (hdblk : h'.dblk = Function.update h.dblk d m)
    (hlist : h'.dbfreelist = Function.update h.dbfreelist c (h.db_freep d))
    (halloc : h'.dballoc = Function.update h.dballoc c
      { h.dballoc c with dba_cnt := (h.dballoc c).dba_cnt + 1 }) :
    d ∈ D ∧ refs d = 0 ∧ DPool D h' (Function.update refs d 1) := by
  obtain ⟨dl, h1, h2⟩ := hd.free c hc
  cases dl with
  | nil => exact absurd (hfree.symm.trans h1) nofun
  | cons e dl =>
    obtain rfl : e = d := Option.some.inj (h1.1.symm.trans hfree)
    obtain ⟨hmem, hcls, hr⟩ := (h2 e).mp mem_cons_self
    subst hcls
    have hnot : e ∉ dl := (nodup_cons.mp h1.nodup).1
    refine ⟨hmem, hr, ?_⟩
    apply hd.update hmem hdblk hm (by rw [href]; rfl)
    · refine ⟨dl, ?_, fun f => ?_⟩
      · rw [hlist, Function.update_self]
        apply h1.2.congr
        intro f hf
        have hfe : f ≠ e := fun heq => hnot (heq ▸ hf)
        unfold Heap.db_freep
        rw [hdblk, Function.update_of_ne hfe]
      · by_cases hfe : f = e
        · rw [hfe, Function.update_self]
          exact iff_of_false hnot fun hh => absurd hh.2.2 Nat.one_ne_zero
        · rw [Function.update_of_ne hfe, ← h2 f, mem_cons]
          exact (or_iff_right hfe).symm
    · intro c hc
      rw [hlist, halloc, Function.update_of_ne hc, Function.update_of_ne hc]
      exact ⟨rfl, rfl⟩
    · rw [halloc, Function.update_self, hr]
      simp

end DPool

/-! ## Both together -/

/-- How many of the blocks `live` refer to the data block. -/
def refs (h : Heap) (live : List ℕ) (d : ℕ) : ℕ := live.countP fun b => h.b_datap b = some d

structure Counts (B D : List ℕ) (h : Heap) (live : List ℕ) : Prop where
  mblks : MPool B h live
  dblks : DPool D h (refs h live)
  datap : ∀ b ∈ live, ∀ d, h.b_datap b = some d → d ∈ D

section Counts

variable {B D live live' : List ℕ} {h h' : Heap} {b d : ℕ}

theorem refs_cons (d : ℕ) : refs h (b :: live) d =
    refs h live d + if h.b_datap b = some d then 1 else 0 := by
  unfold refs
  rw [countP_cons]
  simp only [decide_eq_true_eq]

theorem refs_perm (hp : live.Perm live') (d : ℕ) : refs h live d = refs h live' d := hp.countP_eq _

theorem refs_congr (hsame : ∀ b ∈ live, h'.b_datap b = h.b_datap b) (d : ℕ) :
    refs h' live d = refs h live d := by
  unfold refs
  apply countP_congr
  intro b hb
  rw [hsame b hb]

theorem Counts.perm (hc : Counts B D h live) (hp : live.Perm live') : Counts B D h live' :=
  ⟨hc.mblks.perm hp, hc.dblks.congr rfl rfl rfl fun d _ => (refs_perm hp d).symm,
    fun b hb => hc.datap b (hp.mem_iff.mpr hb)⟩

/-- A change of live blocks that leaves their data pointers as they are. -/
theorem Counts.congr (hc : Counts B D h live) (hfree : h'.mbfreelist = h.mbfreelist)
    (hsame : ∀ b, b ∉ live → h'.mblk b = h.mblk b)
    (hdatap : ∀ b ∈ live, h'.b_datap b = h.b_datap b) (h1 : h'.dblk = h.dblk)
    (h2 : h'.dbfreelist = h.dbfreelist) (h3 : h'.dballoc = h.dballoc) : Counts B D h' live := by
  refine ⟨hc.mblks.congr hfree hsame, hc.dblks.congr h1 h2 h3 fun d _ => refs_congr hdatap d,
    fun b hb d hd => ?_⟩
  rw [hdatap b hb] at hd
  exact hc.datap b hb d hd

theorem Counts.setM (hc : Counts B D h live) (hb : b ∈ live) {m : Mblk}
    (hm : m.b_datap = h.b_datap b) : Counts B D (h.setM b m) live := by
  apply Counts.congr hc
  · rfl
  · intro c hcl
    have hcb : c ≠ b := by
      rintro rfl
      exact hcl hb
    exact setM_other hcb m
  · intro c _
    unfold Heap.b_datap
    by_cases hcb : c = b
    · rw [hcb, setM_self]
      exact hm
    · rw [setM_other hcb]
  · rfl
  · rfl
  · rfl

theorem Counts.pop (hc : Counts B D h live) (hb : h.mbfreelist = some b) :
    Counts B D (h.popM b) (b :: live) ∧ b ∉ live ∧ h.b_datap b = none := by
  obtain ⟨h1, h2, h3⟩ := hc.mblks.pop hb
  refine ⟨⟨h1, hc.dblks.congr rfl rfl rfl fun d _ => ?_, fun c hcl d hd => ?_⟩, h2, h3⟩
  · have hnone : (h.popM b).b_datap b ≠ some d := fun heq => nomatch h3.symm.trans heq
    rw [refs_cons, if_neg hnone]
    rfl
  · rcases mem_cons.mp hcl with rfl | hcl
    · exact absurd (h3.symm.trans hd) nofun
    · exact hc.datap c hcl d hd

theorem pushM_self : (h.pushM b).mblk b = { h.mblk b with b_next := h.mbfreelist } := setM_self _

theorem pushM_mblk {c : ℕ} (hc : c ≠ b) : (h.pushM b).mblk c = h.mblk c := setM_other hc _

theorem pushM_datap (c : ℕ) : (h.pushM b).b_datap c = h.b_datap c := by
  unfold Heap.b_datap
  by_cases hcb : c = b
  · rw [hcb, pushM_self]
  · rw [pushM_mblk hcb]

theorem pushM_cont : (h.pushM b).b_cont = h.b_cont := by
  funext c
  unfold Heap.b_cont
  by_cases hcb : c = b
  · rw [hcb, pushM_self]
  · rw [pushM_mblk hcb]

theorem Counts.push (hc : Counts B D h (b :: live)) (hb : h.b_datap b = none) :
    Counts B D (h.pushM b) live := by
  refine ⟨hc.mblks.push hb, hc.dblks.congr rfl rfl rfl fun d _ => ?_, fun c hcl d hd => ?_⟩
  · have hnone : h.b_datap b ≠ some d := fun heq => nomatch hb.symm.trans heq
    rw [refs_congr (fun c _ => pushM_datap c), refs_cons, if_neg hnone]
    rfl
  · rw [pushM_datap] at hd
    exact hc.datap c (mem_cons_of_mem _ hcl) d hd

/-- The type of a data block changes. -/
theorem Counts.setType (hc : Counts B D h live) (d : ℕ) (type : UInt8) :
    Counts B D (h.setD d { h.dblk d with db_type := type }) live := by
  refine ⟨hc.mblks.congr rfl fun _ _ => rfl, ?_, hc.datap⟩
  refine DPool.of_fields hc.dblks (fun e => ?_) rfl rfl fun _ _ => rfl
  by_cases hed : e = d
  · rw [hed, setD_self]
    exact ⟨rfl, rfl, rfl⟩
  · rw [setD_other hed]
    exact ⟨rfl, rfl, rfl⟩

/-- What `freeb` leaves alone. -/
structure Frame (h h' : Heap) (live : List ℕ) : Prop where
  cont : h'.b_cont = h.b_cont
  same : ∀ b ∈ live, h'.mblk b = h.mblk b

theorem Frame.refl (h : Heap) (live : List ℕ) : Frame h h live := ⟨rfl, fun _ _ => rfl⟩

theorem Frame.trans {h'' : Heap} (h1 : Frame h h' live) (h2 : Frame h' h'' live') (hsub : live' ⊆ live) :
    Frame h h'' live' :=
  ⟨h2.cont.trans h1.cont, fun b hb => (h2.same b hb).trans (h1.same b (hsub hb))⟩

theorem freed_mblk (c d : ℕ) : (freed h c d).mblk = h.mblk ∧
    (freed h c d).mbfreelist = h.mbfreelist := by
  unfold freed
  simp only
  split <;> exact ⟨rfl, rfl⟩

/-- A live block that refers to `d` is freed, and `d` with the last of its references. -/
theorem freeb_spec (hc : Counts B D h (b :: live)) (hb : h.b_datap b = some d) :
    ∃ h', freeb h b = some h' ∧ Counts B D h' live ∧ Frame h h' live := by
  have hmem : d ∈ D := hc.datap b mem_cons_self d hb
  have hnd := nodup_cons.mp hc.mblks.nodup_live
  have href := hc.dblks.ref d hmem
  have hrefs : refs h (b :: live) d = refs h live d + 1 := by
    rw [refs_cons, if_pos hb]
  have hpos : refs h (b :: live) d ≠ 0 := by omega
  have hlt := UInt8.toNat_lt (h.dblk d).db_ref
  have hr : ((h.dblk d).db_ref - 1).toNat = refs h live d := by
    rw [UInt8.toNat_sub]
    simp only [UInt8.reduceToNat]
    omega
  -- the data block first, by the references that are left
  obtain ⟨h1, hh1, hmb, hfl, hd1⟩ : ∃ h1 : Heap,
      h1 = (if (h.dblk d).db_ref - 1 = 0 then
          freed (h.setD d { h.dblk d with db_ref := (h.dblk d).db_ref - 1 }) (h.dblk d).db_class d
        else h.setD d { h.dblk d with db_ref := (h.dblk d).db_ref - 1 }) ∧
      h1.mblk = h.mblk ∧ h1.mbfreelist = h.mbfreelist ∧
      DPool D h1 (Function.update (refs h (b :: live)) d (refs h live d)) := by
    by_cases hz : (h.dblk d).db_ref - 1 = 0
    · refine ⟨_, (if_pos hz).symm, (freed_mblk _ _).1, (freed_mblk _ _).2, ?_⟩
      have hz' : refs h live d = 0 := by
        rw [← hr, hz]
        rfl
      rw [hz, hz']
      exact hc.dblks.freed hmem hpos
    · refine ⟨_, (if_neg hz).symm, rfl, rfl, ?_⟩
      rw [← hr]
      apply hc.dblks.setRef hmem hpos
      intro hz'
      exact hz (UInt8.toNat_inj.mp hz')
  have hfree : freeb h b =
      some ((h1.setM b { h1.mblk b with b_datap := none }).pushM b) := by
    unfold freeb
    rw [hb]
    simp only [setD_self, hh1]
  have hother (c : ℕ) (hcb : c ≠ b) :
      ((h1.setM b { h1.mblk b with b_datap := none }).pushM b).mblk c = h.mblk c := by
    rw [pushM_mblk hcb, setM_other hcb, hmb]
  have hlive (c : ℕ) (hcl : c ∈ live) : c ≠ b := by
    rintro rfl
    exact hnd.1 hcl
  refine ⟨_, hfree, ?_, ⟨?_, fun c hcl => hother c (hlive c hcl)⟩⟩
  · have hnone : (h1.setM b { h1.mblk b with b_datap := none }).b_datap b = none := by
      unfold Heap.b_datap
      rw [setM_self]
    have hsame (c : ℕ) (hcl : c ∈ live) :
        (h1.setM b { h1.mblk b with b_datap := none }).b_datap c = h.b_datap c := by
      unfold Heap.b_datap
      rw [setM_other (hlive c hcl), hmb]
    apply Counts.push _ hnone
    refine ⟨?_, hd1.congr rfl rfl rfl fun e _ => ?_, fun c hcl e he => ?_⟩
    · apply MPool.congr hc.mblks
      · exact hfl
      · intro c hcl
        have hcb : c ≠ b := by
          rintro rfl
          exact hcl mem_cons_self
        rw [setM_other hcb, hmb]
    · rw [refs_cons, refs_congr hsame, if_neg (by rw [hnone]; nofun), Nat.add_zero]
      by_cases hed : e = d
      · rw [hed, Function.update_self]
      · have hne : h.b_datap b ≠ some e := by
          rw [hb]
          exact fun heq => hed (Option.some.inj heq).symm
        rw [Function.update_of_ne hed, refs_cons, if_neg hne, Nat.add_zero]
    · rcases mem_cons.mp hcl with rfl | hcl
      · exact absurd (hnone.symm.trans he) nofun
      · rw [hsame c hcl] at he
        exact hc.datap c (mem_cons_of_mem _ hcl) e he
  · rw [pushM_cont]
    funext c
    unfold Heap.b_cont
    by_cases hcb : c = b
    · rw [hcb, setM_self, hmb]
    · rw [setM_other hcb, hmb]

/-- The blocks of a message are freed. -/
theorem freemsg_spec {m : List ℕ} {p : Option ℕ} {n : ℕ} (hc : Counts B D h (m ++ live))
    (hm : Linked h.b_cont p m) (hd : ∀ b ∈ m, h.b_datap b ≠ none) (hn : m.length ≤ n) :
    ∃ h', freemsg n h p = some h' ∧ Counts B D h' live ∧ Frame h h' live := by
  induction m generalizing h p n with
  | nil =>
    have hp : p = none := hm
    refine ⟨h, ?_, hc, Frame.refl h live⟩
    rw [hp]
    cases n <;> rfl
  | cons b m ih =>
    obtain ⟨d, hbd⟩ := Option.ne_none_iff_exists'.mp (hd b mem_cons_self)
    obtain ⟨h1, hfree, hc1, hf1⟩ := freeb_spec hc hbd
    cases n with
    | zero => exact absurd hn (Nat.not_succ_le_zero _)
    | succ n =>
      have hm1 : Linked h1.b_cont (h.b_cont b) m := by
        rw [hf1.cont]
        exact hm.2
      have hd1 : ∀ c ∈ m, h1.b_datap c ≠ none := by
        intro c hcm
        unfold Heap.b_datap
        rw [hf1.same c (mem_append_left _ hcm)]
        exact hd c (mem_cons_of_mem _ hcm)
      obtain ⟨h2, hfree2, hc2, hf2⟩ := ih hc1 hm1 hd1 (Nat.le_of_succ_le_succ hn)
      refine ⟨h2, ?_, hc2, hf1.trans hf2 (subset_append_right _ _)⟩
      unfold freemsg
      rw [hm.1]
      simp only [hfree]
      exact hfree2

/-- The first free message block comes to refer to `d`. -/
theorem Counts.attach (hc : Counts B D h live) {nb : ℕ} (hnb : h.mbfreelist = some nb) {m : Mblk}
    (hm : m.b_datap = some d) (hmem : d ∈ D) (hmb : h'.mblk = Function.update h.mblk nb m)
    (hfree : h'.mbfreelist = h.b_next nb)
    (hd : DPool D h' (Function.update (refs h live) d (refs h live d + 1))) :
    nb ∉ live ∧ Counts B D h' (nb :: live) := by
  obtain ⟨hpop, hnot, -⟩ := hc.pop hnb
  have hother (c : ℕ) (hcb : c ≠ nb) : h'.mblk c = h.mblk c := by
    rw [hmb, Function.update_of_ne hcb]
  have hself : h'.b_datap nb = some d := by
    unfold Heap.b_datap
    rw [hmb, Function.update_self, hm]
  have hsame (c : ℕ) (hcl : c ∈ live) : h'.b_datap c = h.b_datap c := by
    have hcb : c ≠ nb := by
      rintro rfl
      exact hnot hcl
    exact congrArg Mblk.b_datap (hother c hcb)
  refine ⟨hnot, ?_, hd.congr rfl rfl rfl fun e _ => ?_, fun c hcl e he => ?_⟩
  · apply MPool.congr hpop.mblks
    · exact hfree
    · intro c hcl
      have hcb : c ≠ nb := by
        rintro rfl
        exact hcl mem_cons_self
      exact hother c hcb
  · rw [refs_cons, refs_congr hsame, hself]
    by_cases hed : e = d
    · rw [hed, if_pos rfl, Function.update_self]
    · rw [if_neg fun heq => hed (Option.some.inj heq).symm, Function.update_of_ne hed, Nat.add_zero]
  · rcases mem_cons.mp hcl with rfl | hcl
    · obtain rfl : d = e := Option.some.inj (hself.symm.trans he)
      exact hmem
    · rw [hsame c hcl] at he
      exact hc.datap c hcl e he

/-- What is new after an allocation: the block, first on the free list before. -/
structure Fresh (B D : List ℕ) (h h' : Heap) (live : List ℕ) (nb : ℕ) : Prop where
  counts : Counts B D h' (nb :: live)
  first : h.mbfreelist = some nb
  not_live : nb ∉ live
  cont : h'.b_cont nb = none
  same : ∀ c, c ≠ nb → h'.mblk c = h.mblk c
  free : h'.mbfreelist = h.b_next nb

theorem gotdp_spec (hc : Counts B D h live) (pri : Pri) {c : ℕ} (hcl : c < NCLASS)
    (hd : classBlock h c pri = some d) :
    gotdp h c d = (none, h) ∨ ∃ nb h', gotdp h c d = (some nb, h') ∧ Fresh B D h h' live nb ∧
      h'.b_datap nb = some d ∧ (h'.mblk nb).b_rptr = (h'.mblk nb).b_wptr := by
  have hfree : h.dbfreelist c = some d := by
    unfold classBlock at hd
    split at hd
    · exact hd
    · cases hd
  unfold gotdp
  cases hnb : h.mbfreelist with
  | none => exact .inl rfl
  | some nb =>
    refine .inr ⟨nb, _, rfl, ?_, ?_, ?_⟩
    · obtain ⟨hmem, hz, htake⟩ := hc.dblks.take (gotdp h c d).2 hcl hfree
        (m := { h.dblk d with db_freep := none, db_type := M_DATA, db_ref := 1 })
        rfl rfl (by unfold gotdp; rw [hnb]; rfl) (by unfold gotdp; rw [hnb]; rfl)
        (by unfold gotdp; rw [hnb]; rfl)
      unfold gotdp at htake
      rw [hnb] at htake
      have hone : refs h live d + 1 = 1 := by rw [hz]
      rw [← hone] at htake
      obtain ⟨hnot, hcounts⟩ := hc.attach hnb
        (m := ⟨none, none, none, (h.dblk d).db_base, (h.dblk d).db_base, some d⟩) rfl hmem rfl rfl htake
      refine ⟨hcounts, hnb, hnot, ?_, fun b hb => ?_, rfl⟩
      · exact congrArg Mblk.b_cont (setM_self _)
      · exact setM_other hb _
    · exact congrArg Mblk.b_datap (setM_self _)
    · rw [setM_self]

/-- `allocb` fails and leaves all as it is, or gives a block with a data block of its own. -/
theorem allocb_spec (hc : Counts B D h live) (size : ℤ) (pri : Pri) :
    allocb h size pri = (none, h) ∨ ∃ nb h', allocb h size pri = (some nb, h') ∧
      Fresh B D h h' live nb ∧ h'.b_datap nb ≠ none ∧
      (h'.mblk nb).b_rptr = (h'.mblk nb).b_wptr := by
  have hgot {c d : ℕ} (hcl : c < NCLASS) (hd : classBlock h c pri = some d) :
      gotdp h c d = (none, h) ∨ ∃ nb h', gotdp h c d = (some nb, h') ∧ Fresh B D h h' live nb ∧
        h'.b_datap nb ≠ none ∧ (h'.mblk nb).b_rptr = (h'.mblk nb).b_wptr := by
    rcases gotdp_spec hc pri hcl hd with heq | ⟨nb, h', heq, hfresh, hdp, hrw⟩
    · exact .inl heq
    · exact .inr ⟨nb, h', heq, hfresh, by rw [hdp]; nofun, hrw⟩
  unfold allocb
  simp only
  by_cases hcl : NCLASS ≤ getclass size
  · rw [if_pos hcl]
    exact .inl rfl
  · rw [if_neg hcl]
    cases hb : classBlock h (getclass size) pri with
    | some d => exact hgot (Nat.lt_of_not_le hcl) hb
    | none =>
      simp only
      by_cases hlast : getclass size = NCLASS - 1
      · rw [if_pos hlast]
        exact .inl rfl
      · rw [if_neg hlast]
        cases hb' : classBlock h (getclass size + 1) pri with
        | some d => exact hgot (by omega) hb'
        | none => exact .inl rfl

/-- `dupb` finds no message block, or gives one more reference to the data block. -/
theorem dupb_spec (hc : Counts B D h live) (hb : b ∈ live) (hbd : h.b_datap b = some d)
    (hlt : refs h live d < 255) :
    dupb h b = some (none, h) ∧ h.mbfreelist = none ∨
      ∃ nb h', dupb h b = some (some nb, h') ∧ Fresh B D h h' live nb ∧ h'.b_datap nb = some d ∧
        (h'.mblk nb).b_rptr = (h.mblk b).b_rptr ∧ (h'.mblk nb).b_wptr = (h.mblk b).b_wptr := by
  have hmem : d ∈ D := hc.datap b hb d hbd
  have hpos : refs h live d ≠ 0 := by
    have hpos : 0 < refs h live d := countP_pos_iff.mpr ⟨b, hb, by simpa using hbd⟩
    omega
  have hadd : ((h.dblk d).db_ref + 1).toNat = refs h live d + 1 := by
    have href := hc.dblks.ref d hmem
    rw [UInt8.toNat_add]
    simp only [UInt8.reduceToNat]
    omega
  unfold dupb
  cases hnb : h.mbfreelist with
  | none => exact .inl ⟨rfl, rfl⟩
  | some nb =>
    simp only [hbd]
    refine .inr ⟨nb, _, rfl, ?_, ?_, ?_⟩
    · have hset := hc.dblks.setRef hmem (r := (h.dblk d).db_ref + 1) hpos (by omega)
      rw [hadd] at hset
      have hset' : DPool D (((h.popM nb).setM nb ⟨none, none, none, (h.mblk b).b_rptr,
            (h.mblk b).b_wptr, some d⟩).setD d { h.dblk d with db_ref := (h.dblk d).db_ref + 1 })
          (Function.update (refs h live) d (refs h live d + 1)) :=
        hset.congr rfl rfl rfl fun _ _ => rfl
      obtain ⟨hnot, hcounts⟩ := hc.attach hnb
        (m := ⟨none, none, none, (h.mblk b).b_rptr, (h.mblk b).b_wptr, some d⟩) rfl hmem rfl rfl hset'
      refine ⟨hcounts, hnb, hnot, ?_, fun c hcb => ?_, rfl⟩
      · exact congrArg Mblk.b_cont (setM_self _)
      · exact setM_other hcb _
    · exact congrArg Mblk.b_datap (setM_self _)
    · have hself := setM_self (h := h.popM nb) (b := nb)
        ⟨none, none, none, (h.mblk b).b_rptr, (h.mblk b).b_wptr, some d⟩
      exact ⟨(congrArg Mblk.b_rptr hself :), (congrArg Mblk.b_wptr hself :)⟩

/-- The rest of the free list is there after an allocation. -/
theorem Fresh.free_list {nb : ℕ} {fl : List ℕ} (hf : Fresh B D h h' live nb)
    (hfl : Linked h.b_next h.mbfreelist fl) :
    ∃ fl', fl = nb :: fl' ∧ Linked h'.b_next h'.mbfreelist fl' := by
  cases fl with
  | nil => exact absurd (hf.first.symm.trans hfl) nofun
  | cons c fl =>
    obtain rfl : c = nb := Option.some.inj (hfl.1.symm.trans hf.first)
    refine ⟨fl, rfl, ?_⟩
    rw [hf.free]
    apply hfl.2.congr
    intro b hb
    have hne : b ≠ c := by
      rintro rfl
      exact (nodup_cons.mp hfl.nodup).1 hb
    exact congrArg Mblk.b_next (hf.same b hne)

end Counts

/-! ## Messages -/

/-- What the blocks of a message are like. -/
structure Sound (h : Heap) (b : ℕ) : Prop where
  datap : h.b_datap b ≠ none
  rptr_le : (h.mblk b).b_rptr ≤ (h.mblk b).b_wptr

section Messages

variable {B D live : List ℕ} {h h' : Heap} {b d : ℕ}

/-- A block gets the header of another. -/
theorem Sound.move (hs : Sound h b) {c : ℕ} (hb : h'.mblk c = h.mblk b) : Sound h' c := by
  refine ⟨?_, ?_⟩
  · unfold Heap.b_datap
    rw [hb]
    exact hs.datap
  · rw [hb]
    exact hs.rptr_le

theorem Sound.of_eq (hs : Sound h b) (hb : h'.mblk b = h.mblk b) : Sound h' b := hs.move hb

theorem setCont_mblk (p : Option ℕ) :
    (h.setCont b p).mblk b = { h.mblk b with b_cont := p } := setM_self _

@[simp]
theorem setCont_self (p : Option ℕ) : (h.setCont b p).b_cont b = p :=
  congrArg Mblk.b_cont (setCont_mblk p)

theorem setCont_other {c : ℕ} (hc : c ≠ b) (p : Option ℕ) :
    (h.setCont b p).mblk c = h.mblk c := setM_other hc _

theorem setCont_datap (c : ℕ) (p : Option ℕ) : (h.setCont b p).b_datap c = h.b_datap c := by
  unfold Heap.b_datap
  by_cases hcb : c = b
  · rw [hcb, setCont_mblk]
  · rw [setCont_other hcb]

theorem setCont_next (p : Option ℕ) : (h.setCont b p).b_next = h.b_next := by
  funext c
  unfold Heap.b_next
  by_cases hcb : c = b
  · rw [hcb, setCont_mblk]
  · rw [setCont_other hcb]

theorem Counts.setCont (hc : Counts B D h live) (hb : b ∈ live) (p : Option ℕ) :
    Counts B D (h.setCont b p) live := hc.setM hb rfl

theorem Sound.setCont {c : ℕ} (hs : Sound h c) (p : Option ℕ) : Sound (h.setCont b p) c := by
  by_cases hcb : c = b
  · refine ⟨?_, ?_⟩
    · rw [setCont_datap]
      exact hs.datap
    · rw [hcb] at hs ⊢
      rw [setCont_mblk]
      exact hs.rptr_le
  · exact hs.of_eq (setCont_other hcb p)

/-- What `dupLoop` and `dupmsg` lead to. -/
def Duplicated (B D live : List ℕ) (h : Heap) (r : Option ℕ) (h' : Heap) : Prop :=
  (∀ b ∈ live, h'.mblk b = h.mblk b) ∧
    match r with
    | none => Counts B D h' live
    | some head => ∃ ms, Counts B D h' (ms ++ live) ∧ Linked h'.b_cont (some head) ms ∧
        ∀ b ∈ ms, Sound h' b

theorem dupLoop_spec {n head nbp bp : ℕ} {ms rest fl : List ℕ} (hc : Counts B D h (ms ++ live))
    (hms : Linked h.b_cont (some head) ms) (hlast : ms.getLast? = some nbp)
    (hrest : Linked h.b_cont (h.b_cont bp) rest) (hsub : ∀ c ∈ rest, c ∈ live)
    (hsound : ∀ c ∈ ms ++ live, Sound h c) (hfl : Linked h.b_next h.mbfreelist fl)
    (hfit : ∀ d, refs h (ms ++ live) d +
      (rest.take fl.length).countP (fun c => h.b_datap c = some d) ≤ 255)
    (hn : ms.length + 2 * rest.length + 1 ≤ n) :
    ∃ r h', dupLoop n h head nbp bp = some (r, h') ∧ Duplicated B D live h r h' := by
  induction rest generalizing h n nbp bp ms fl with
  | nil =>
    cases n with
    | zero => omega
    | succ n =>
      have hnil : h.b_cont bp = none := hrest
      refine ⟨some head, h, ?_, fun _ _ => rfl, ms, hc, hms, fun c hcm => ?_⟩
      · unfold dupLoop
        rw [hnil]
      · exact hsound c (mem_append_left _ hcm)
  | cons c rest ih =>
    cases n with
    | zero => omega
    | succ n =>
      have hcl : c ∈ live := hsub c mem_cons_self
      obtain ⟨d, hd⟩ := Option.ne_none_iff_exists'.mp (hsound c (mem_append_right _ hcl)).datap
      have hnd := nodup_append.mp hc.mblks.nodup_live
      have hnbp : nbp ∈ ms := mem_of_getLast? hlast
      have hlive (b : ℕ) (hb : b ∈ live) : b ≠ nbp := fun heq => hnd.2.2 nbp hnbp b hb heq.symm
      unfold dupLoop
      rw [hrest.1]
      cases fl with
      | nil =>
        -- no message block is left: what there is of the duplicate is freed
        have hdup : dupb h c = some (none, h) := by
          unfold dupb
          rw [hfl.head]
          rfl
        have hms' : Linked (h.setCont nbp none).b_cont (some head) ms := by
          apply hms.congr
          intro x hx
          by_cases hxn : x = nbp
          · subst hxn
            obtain ⟨ys, hys⟩ := List.getLast?_eq_some_iff.mp hlast
            rw [hys] at hms
            rw [setCont_self, hms.next_eq]
            rfl
          · exact congrArg Mblk.b_cont (setCont_other hxn none)
        have hc' := hc.setCont (mem_append_left _ hnbp) none
        obtain ⟨h', hfree, hcount, hframe⟩ := freemsg_spec (n := n) hc' hms'
          (fun b hb => ((hsound b (mem_append_left _ hb)).setCont none).datap) (by omega)
        refine ⟨none, h', ?_, fun b hb => ?_, hcount⟩
        · simp only [hdup, hfree, Option.map_some]
        · rw [hframe.same b hb, setCont_other (hlive b hb)]
      | cons nb fl =>
        have hlt : refs h (ms ++ live) d < 255 := by
          have := hfit d
          rw [length_cons, take_succ_cons, countP_cons, if_pos (by simpa using hd)]
            at this
          omega
        rcases dupb_spec hc (mem_append_right _ hcl) hd hlt with ⟨-, hnone⟩ |
          ⟨nb', h1, hdup, hfresh, hdp, hr, hw⟩
        · exact absurd (hfl.1.symm.trans hnone) nofun
        · obtain ⟨fl', hfl1, hfl2⟩ := hfresh.free_list hfl
          obtain ⟨rfl, rfl⟩ := List.cons.inj hfl1
          have hnb (x : ℕ) (hx : x ∈ ms ++ live) : x ≠ nb := fun heq =>
            hfresh.not_live (heq ▸ hx)
          have hnbpl : nbp ∈ ms ++ live := mem_append_left _ hnbp
          have hsame (b : ℕ) (hb : b ∈ live) :
              (h1.setCont nbp (some nb)).mblk b = h.mblk b := by
            rw [setCont_other (hlive b hb), hfresh.same b (hnb b (mem_append_right _ hb))]
          have hcont (b : ℕ) (hb : b ∈ live) :
              (h1.setCont nbp (some nb)).b_cont b = h.b_cont b := congrArg Mblk.b_cont (hsame b hb)
          have hperm : (nb :: (ms ++ live)).Perm ((ms ++ [nb]) ++ live) := by
            rw [append_assoc, singleton_append]
            exact perm_middle.symm
          have hc2 : Counts B D (h1.setCont nbp (some nb)) ((ms ++ [nb]) ++ live) := by
            apply (hfresh.counts.perm hperm).setCont
            exact hperm.mem_iff.mp (mem_cons_of_mem _ hnbpl)
          have hms2 : Linked (h1.setCont nbp (some nb)).b_cont (some head) (ms ++ [nb]) := by
            have hnew : Linked (h1.setCont nbp (some nb)).b_cont (some nb) [nb] := by
              refine ⟨rfl, ?_⟩
              have hne : nb ≠ nbp := fun heq => hfresh.not_live (heq ▸ hnbpl)
              exact (congrArg Mblk.b_cont (setCont_other hne _)).trans hfresh.cont
            have hgraft := Linked.graft (append_nil ms ▸ hms) hnew
              (fun x hx => ?_) (fun x hx hne => ?_)
            · have hhead : (ms ++ [nb]).head? = some head := by
                rw [List.head?_append, ← hms.head]
                rfl
              rw [← hhead]
              exact hgraft
            · obtain rfl : nbp = x := Option.some.inj (hlast.symm.trans hx)
              exact setCont_self _
            · have hxn : x ≠ nbp := by
                rintro rfl
                exact hne hlast
              exact (congrArg Mblk.b_cont (setCont_other hxn _)).trans
                (congrArg Mblk.b_cont (hfresh.same x (hnb x (mem_append_left _ hx))))
          have hsound2 (x : ℕ) (hx : x ∈ (ms ++ [nb]) ++ live) :
              Sound (h1.setCont nbp (some nb)) x := by
            apply Sound.setCont
            rcases mem_cons.mp (hperm.mem_iff.mpr hx) with rfl | hx
            · refine ⟨by rw [hdp]; nofun, ?_⟩
              rw [hr, hw]
              exact (hsound c (mem_append_right _ hcl)).rptr_le
            · exact (hsound x hx).of_eq (hfresh.same x (hnb x hx))
          have hfit2 (e : ℕ) : refs (h1.setCont nbp (some nb)) (ms ++ [nb] ++ live) e +
              (rest.take fl.length).countP
                (fun x => (h1.setCont nbp (some nb)).b_datap x = some e) ≤ 255 := by
            have hold := hfit e
            have hrefs : refs (h1.setCont nbp (some nb)) (ms ++ [nb] ++ live) e =
                refs h (ms ++ live) e + if h.b_datap c = some e then 1 else 0 := by
              rw [← refs_perm hperm, refs_congr (fun x _ => setCont_datap x (some nb)), refs_cons,
                hdp, hd, refs_congr fun x hx => congrArg Mblk.b_datap (hfresh.same x (hnb x hx))]
            have hcount : ((rest.take fl.length).countP fun x =>
                (h1.setCont nbp (some nb)).b_datap x = some e) =
                (rest.take fl.length).countP fun x => h.b_datap x = some e := by
              apply countP_congr
              intro x hx
              have hxl := hsub x (mem_cons_of_mem _ (mem_of_mem_take hx))
              have hdx : (h1.setCont nbp (some nb)).b_datap x = h.b_datap x :=
                congrArg Mblk.b_datap (hsame x hxl)
              rw [hdx]
            rw [length_cons, take_succ_cons, countP_cons] at hold
            simp only [decide_eq_true_eq] at hold
            rw [hrefs, hcount]
            omega
          have hrest2 : Linked (h1.setCont nbp (some nb)).b_cont
              ((h1.setCont nbp (some nb)).b_cont c) rest := by
            rw [hcont c hcl]
            exact hrest.2.congr fun x hx => hcont x (hsub x (mem_cons_of_mem _ hx))
          have hfl3 : Linked (h1.setCont nbp (some nb)).b_next
              (h1.setCont nbp (some nb)).mbfreelist fl := by
            rw [setCont_next]
            exact hfl2
          have hn2 : (ms ++ [nb]).length + 2 * rest.length + 1 ≤ n := by
            simp only [length_append, length_cons, length_nil] at hn ⊢
            omega
          obtain ⟨r, h', hloop, hframe, hres⟩ := ih hc2 hms2 List.getLast?_concat hrest2
            (fun x hx => hsub x (mem_cons_of_mem _ hx)) hsound2 hfl3 hfit2 hn2
          refine ⟨r, h', ?_, fun b hb => (hframe b hb).trans (hsame b hb), hres⟩
          simp only [hdup]
          exact hloop

/-- `dupmsg` of a message whose data blocks can all take the new references. -/
theorem dupmsg_spec {n bp : ℕ} {rest fl : List ℕ} (hc : Counts B D h live)
    (hm : Linked h.b_cont (some bp) (bp :: rest)) (hsub : ∀ c ∈ bp :: rest, c ∈ live)
    (hsound : ∀ c ∈ live, Sound h c) (hfl : Linked h.b_next h.mbfreelist fl)
    (hfit : ∀ d, refs h live d +
      ((bp :: rest).take fl.length).countP (fun c => h.b_datap c = some d) ≤ 255)
    (hn : 2 * rest.length + 2 ≤ n) :
    ∃ r h', dupmsg n h (some bp) = some (r, h') ∧ Duplicated B D live h r h' := by
  have hbp : bp ∈ live := hsub bp mem_cons_self
  obtain ⟨d, hd⟩ := Option.ne_none_iff_exists'.mp (hsound bp hbp).datap
  unfold dupmsg
  cases fl with
  | nil =>
    have hdup : dupb h bp = some (none, h) := by
      unfold dupb
      rw [hfl.head]
      rfl
    refine ⟨none, h, ?_, fun _ _ => rfl, hc⟩
    simp only [hdup]
  | cons nb fl =>
    have hlt : refs h live d < 255 := by
      have := hfit d
      rw [length_cons, take_succ_cons, countP_cons, if_pos (by simpa using hd)] at this
      omega
    rcases dupb_spec hc hbp hd hlt with ⟨-, hnone⟩ | ⟨nb', h1, hdup, hfresh, hdp, hr, hw⟩
    · exact absurd (hfl.1.symm.trans hnone) nofun
    · obtain ⟨fl', hfl1, hfl2⟩ := hfresh.free_list hfl
      obtain ⟨rfl, rfl⟩ := List.cons.inj hfl1
      have hnb (x : ℕ) (hx : x ∈ live) : x ≠ nb := fun heq => hfresh.not_live (heq ▸ hx)
      have hcont (b : ℕ) (hb : b ∈ live) : h1.b_cont b = h.b_cont b :=
        congrArg Mblk.b_cont (hfresh.same b (hnb b hb))
      have hdatap (b : ℕ) (hb : b ∈ live) : h1.b_datap b = h.b_datap b :=
        congrArg Mblk.b_datap (hfresh.same b (hnb b hb))
      have hsound1 (x : ℕ) (hx : x ∈ [nb] ++ live) : Sound h1 x := by
        rcases mem_cons.mp hx with rfl | hx
        · refine ⟨by rw [hdp]; nofun, ?_⟩
          rw [hr, hw]
          exact (hsound bp hbp).rptr_le
        · exact (hsound x hx).of_eq (hfresh.same x (hnb x hx))
      have hrest1 : Linked h1.b_cont (h1.b_cont bp) rest := by
        rw [hcont bp hbp]
        exact hm.2.congr fun x hx => hcont x (hsub x (mem_cons_of_mem _ hx))
      have hfit1 (e : ℕ) : refs h1 ([nb] ++ live) e +
          (rest.take fl.length).countP (fun x => h1.b_datap x = some e) ≤ 255 := by
        have hold := hfit e
        have hcount : ((rest.take fl.length).countP fun x => h1.b_datap x = some e) =
            (rest.take fl.length).countP fun x => h.b_datap x = some e := by
          apply countP_congr
          intro x hx
          rw [hdatap x (hsub x (mem_cons_of_mem _ (mem_of_mem_take hx)))]
        rw [length_cons, take_succ_cons, countP_cons] at hold
        simp only [decide_eq_true_eq] at hold
        rw [hcount, singleton_append, refs_cons, hdp, refs_congr hdatap]
        rw [hd] at hold
        omega
      have hms1 : Linked h1.b_cont (some nb) [nb] := ⟨rfl, hfresh.cont⟩
      obtain ⟨r, h', hloop, hframe, hres⟩ := dupLoop_spec (n := n) (singleton_append ▸ hfresh.counts) hms1 rfl
        hrest1 (fun x hx => hsub x (mem_cons_of_mem _ hx)) hsound1 hfl2 hfit1
        (by simp only [length_singleton]; omega)
      refine ⟨r, h', ?_, fun b hb => (hframe b hb).trans (hfresh.same b (hnb b hb)), hres⟩
      simp only [hdup]
      exact hloop

end Messages

/-! ## Boot -/

/-- All blocks are free. -/
structure Booted (B D : List ℕ) (h : Heap) : Prop where
  mblks : MPool B h []
  dblks : DPool D h fun _ => 0

/-- Memory that nothing was written to yet. -/
structure Bss (h : Heap) : Prop where
  datap : ∀ b, h.b_datap b = none
  ref : ∀ d, (h.dblk d).db_ref = 0
  cnt : ∀ c, (h.dballoc c).dba_cnt = 0
  dbfreelist : ∀ c, h.dbfreelist c = none

/-- The data blocks laid out so far, where the classes `cs` are to come. -/
structure Laid (h : Heap) (s : Boot) (cs : List ℕ) : Prop where
  dblks : DPool (List.range s.databp) s.heap fun _ => 0
  ref : ∀ d, (s.heap.dblk d).db_ref = 0
  cnt : ∀ c, (s.heap.dballoc c).dba_cnt = 0
  classes : ∀ d < s.databp, (s.heap.dblk d).db_class ∉ cs
  mblk : s.heap.mblk = h.mblk
  nmblock : s.heap.nmblock = h.nmblock

section Boot

variable {h : Heap} {s : Boot} {c : ℕ} {cs : List ℕ}

theorem Laid.block (hl : Laid h s cs) (hc : c < NCLASS) (hcs : c ∉ cs) :
    Laid h (layBlock c s) cs := by
  have hother (d : ℕ) (hd : d < s.databp) : (layBlock c s).heap.dblk d = s.heap.dblk d :=
    setD_other (Nat.ne_of_lt hd) _
  have hself : (layBlock c s).heap.dblk s.databp = { s.heap.dblk s.databp with
      db_class := c, db_base := s.base, db_lim := s.base + rbsize.getD c 0,
      db_freep := s.heap.dbfreelist c } := setD_self _
  have hclass : ((layBlock c s).heap.dblk s.databp).db_class = c := by rw [hself]
  have hsucc : List.range (layBlock c s).databp = List.range s.databp ++ [s.databp] :=
    range_succ
  have href (d : ℕ) : ((layBlock c s).heap.dblk d).db_ref = 0 := by
    by_cases hd : d = s.databp
    · rw [hd, hself]
      exact hl.ref s.databp
    · exact (congrArg Dblk.db_ref (setD_other hd _)).trans (hl.ref d)
  have hfree : (layBlock c s).heap.dbfreelist =
      Function.update s.heap.dbfreelist c (some s.databp) := rfl
  have hall (p : ℕ → Prop) (h1 : ∀ d < s.databp, p d) (h2 : p s.databp) :
      ∀ d < (layBlock c s).databp, p d := by
    intro d hd
    rcases Nat.lt_succ_iff_lt_or_eq.mp hd with hd | rfl
    · exact h1 d hd
    · exact h2
  refine ⟨⟨nodup_range, fun d hd => ?_, fun d _ => ?_, fun e he => ?_, fun e _ => ?_⟩, href,
    hl.cnt, hall _ (fun d hd => ?_) ?_, hl.mblk, hl.nmblock⟩
  · apply hall (fun d => ((layBlock c s).heap.dblk d).db_class < NCLASS) _ _ d
      (mem_range.mp hd)
    · intro d hd
      rw [hother d hd]
      exact hl.dblks.class_lt d (mem_range.mpr hd)
    · rw [hclass]
      exact hc
  · rw [href]
    rfl
  · obtain ⟨dl, h1, h2⟩ := hl.dblks.free e he
    have hlt (d : ℕ) (hd : d ∈ dl) : d < s.databp := mem_range.mp ((h2 d).mp hd).1
    have hlink : Linked (layBlock c s).heap.db_freep (s.heap.dbfreelist e) dl :=
      h1.congr fun d hd => congrArg Dblk.db_freep (hother d (hlt d hd))
    have hmem (d : ℕ) (hd : d < s.databp) : d ∈ dl ↔
        d ∈ List.range (layBlock c s).databp ∧ ((layBlock c s).heap.dblk d).db_class = e ∧ 0 = 0 := by
      rw [h2 d, hsucc, hother d hd]
      simp [hd]
    by_cases hec : e = c
    · rw [hec] at hlink hmem ⊢
      refine ⟨s.databp :: dl, ⟨?_, ?_⟩, fun d => ?_⟩
      · rw [hfree, Function.update_self]
      · have hnext : (layBlock c s).heap.db_freep s.databp = s.heap.dbfreelist c :=
          congrArg Dblk.db_freep hself
        rw [hnext]
        exact hlink
      · rcases Nat.lt_trichotomy d s.databp with hd | rfl | hd
        · rw [mem_cons, or_iff_right (Nat.ne_of_lt hd)]
          exact hmem d hd
        · simp [hsucc, hclass]
        · have hout : d ∉ List.range (layBlock c s).databp := by
            rw [mem_range]
            exact Nat.not_lt_of_le hd
          rw [mem_cons]
          refine iff_of_false ?_ fun hh => hout hh.1
          rintro (rfl | hdl)
          · exact Nat.lt_irrefl _ hd
          · exact Nat.lt_asymm hd (hlt d hdl)
    · refine ⟨dl, ?_, fun d => ?_⟩
      · rw [hfree, Function.update_of_ne hec]
        exact hlink
      · by_cases hd : d < s.databp
        · exact hmem d hd
        · refine iff_of_false (fun hdl => hd (hlt d hdl)) fun hh => ?_
          have hd' : d < s.databp + 1 := mem_range.mp hh.1
          obtain rfl : d = s.databp := by omega
          exact hec (hh.2.1.symm.trans hclass)
  · rw [countP_eq_zero.mpr (by simp)]
    exact hl.cnt e
  · rw [hother d hd]
    exact hl.classes d hd
  · rw [hclass]
    exact hcs

theorem Laid.class (hl : Laid h s (c :: cs)) (hc : c < NCLASS) (hcs : c ∉ cs) (nblk : ℕ → ℕ)
    (lo med : ℕ) : Laid h (layClass nblk lo med s c) cs := by
  unfold layClass
  simp only
  have hblocks (n : ℕ) {t : Boot} (ht : Laid h t cs) : Laid h ((layBlock c)^[n] t) cs := by
    induction n generalizing t with
    | zero => exact ht
    | succ n ih => exact ih (ht.block hc hcs)
  apply hblocks
  refine ⟨⟨nodup_range, hl.dblks.class_lt, hl.dblks.ref, fun e he => ?_, fun e _ => ?_⟩,
    hl.ref, fun e => ?_, fun d hd hmem => ?_, hl.mblk, hl.nmblock⟩
  · obtain ⟨dl, h1, h2⟩ := hl.dblks.free e he
    by_cases hec : e = c
    · -- no block of this class is there yet
      have hnil : dl = [] := by
        apply eq_nil_iff_forall_not_mem.mpr
        intro d hd
        obtain ⟨hr, hcls, -⟩ := (h2 d).mp hd
        apply hl.classes d (mem_range.mp hr)
        rw [hcls, hec]
        exact mem_cons_self
      refine ⟨dl, ?_, h2⟩
      rw [hnil, hec]
      exact Function.update_self _ _ _
    · refine ⟨dl, ?_, h2⟩
      simp only
      rw [Function.update_of_ne hec]
      exact h1
  · rw [countP_eq_zero.mpr (by simp)]
    by_cases hec : e = c
    · simp [hec, hl.cnt]
    · simp [Function.update_of_ne hec, hl.cnt]
  · by_cases hec : e = c
    · simp [hec, hl.cnt]
    · simp [Function.update_of_ne hec, hl.cnt]
  · exact hl.classes d hd (mem_cons_of_mem _ hmem)

theorem MPool.pushAll {B xs : List ℕ} (hm : MPool B h xs) (hb : ∀ b ∈ xs, h.b_datap b = none) :
    MPool B (xs.foldl Heap.pushM h) [] := by
  induction xs generalizing h with
  | nil => exact hm
  | cons b xs ih =>
    apply ih (hm.push (hb b mem_cons_self))
    intro c hc
    rw [pushM_datap]
    exact hb c (mem_cons_of_mem _ hc)

/-- The message blocks that `strinit` gets ready. -/
def mblocks (nblk : ℕ → ℕ) (base : Option ℕ) (h : Heap) : List ℕ :=
  match buffers nblk base with
  | none => []
  | some _ => List.range h.nmblock.toNat

/-- The data blocks that `strinit` gets ready. -/
def dblocks (nblk : ℕ → ℕ) (base : Option ℕ) : List ℕ :=
  match buffers nblk base with
  | none => []
  | some _ => List.range (classes.map nblk).sum

theorem layClass_databp (nblk : ℕ → ℕ) (lo med : ℕ) :
    (layClass nblk lo med s c).databp = s.databp + nblk c := by
  have hblocks (n : ℕ) (t : Boot) : ((layBlock c)^[n] t).databp = t.databp + n := by
    induction n generalizing t with
    | zero => rfl
    | succ n ih =>
      rw [Function.iterate_succ_apply, ih]
      exact Nat.succ_add_eq_add_succ t.databp n
  exact hblocks (nblk c) _

theorem layClasses_databp (nblk : ℕ → ℕ) (lo med : ℕ) (cs : List ℕ) :
    (cs.foldl (layClass nblk lo med) s).databp = s.databp + (cs.map nblk).sum := by
  induction cs generalizing s with
  | nil => rfl
  | cons c cs ih =>
    rw [foldl_cons, ih, layClass_databp, map_cons, sum_cons, Nat.add_assoc]

theorem Laid.all (hcs : cs.Nodup) (hlt : ∀ c ∈ cs, c < NCLASS) (hl : Laid h s cs)
    (nblk : ℕ → ℕ) (lo med : ℕ) : Laid h (cs.foldl (layClass nblk lo med) s) [] := by
  induction cs generalizing s with
  | nil => exact hl
  | cons c cs ih =>
    rw [nodup_cons] at hcs
    apply ih hcs.2 fun e he => hlt e (mem_cons_of_mem _ he)
    exact hl.class (hlt c mem_cons_self) hcs.1 nblk lo med

theorem pushAll_dblk (xs : List ℕ) : (xs.foldl Heap.pushM h).dblk = h.dblk ∧
    (xs.foldl Heap.pushM h).dbfreelist = h.dbfreelist ∧
    (xs.foldl Heap.pushM h).dballoc = h.dballoc := by
  induction xs generalizing h with
  | nil => exact ⟨rfl, rfl, rfl⟩
  | cons b xs ih => exact ih (h := h.pushM b)

/-- After `strinit` all blocks are free. -/
theorem strinit_booted (hz : Bss h) (nblk : ℕ → ℕ) (lo med : ℕ) (base : Option ℕ) :
    Booted (mblocks nblk base h) (dblocks nblk base) (strinit nblk lo med base h) := by
  unfold strinit mblocks dblocks
  cases buffers nblk base with
  | none =>
    refine ⟨⟨nodup_nil, [], rfl, List.Perm.refl _, nofun⟩, nodup_nil, nofun,
      nofun, fun c hc => ⟨[], if_pos hc, fun d => ?_⟩, fun c _ => hz.cnt c⟩
    exact iff_of_false not_mem_nil fun hh => not_mem_nil hh.1
  | some base =>
    have hstart : Laid h ⟨h, 0, base⟩ classes := by
      refine ⟨⟨nodup_range, nofun, nofun, fun c _ => ⟨[], hz.dbfreelist c, fun d => ?_⟩,
        fun c _ => hz.cnt c⟩, hz.ref, hz.cnt, nofun, rfl, rfl⟩
      exact iff_of_false not_mem_nil fun hh => not_mem_nil hh.1
    have hl : Laid h (classes.foldl (layClass nblk lo med) ⟨h, 0, base⟩) [] :=
      hstart.all ((reverse_perm _).nodup_iff.mpr nodup_range)
        (fun c hc => mem_range.mp (mem_reverse.mp hc)) nblk lo med
    have hlast := layClasses_databp (s := Boot.mk h 0 base) nblk lo med classes
    simp only [Nat.zero_add] at hlast ⊢
    generalize classes.foldl (layClass nblk lo med) ⟨h, 0, base⟩ = s at hl hlast ⊢
    refine ⟨?_, ?_⟩
    · apply MPool.pushAll
      · exact ⟨nodup_range, [], rfl, List.Perm.refl _, nofun⟩
      · intro b _
        unfold Heap.b_datap
        rw [hl.mblk]
        exact hz.datap b
    · rw [← hlast]
      apply hl.dblks.congr
      · exact (pushAll_dblk _).1
      · exact (pushAll_dblk _).2.1
      · exact (pushAll_dblk _).2.2
      · exact fun _ _ => rfl

end Boot

end Svr3.Str
