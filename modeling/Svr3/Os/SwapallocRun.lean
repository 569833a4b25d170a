import Mathlib
import Svr3.Lib.Run
import Svr3.Os.Swapalloc

/-!
# The books of the swap files

A descriptor of type `DBD_SWAP` is made by `swalloc` or as a copy that `swpinc` counts, and goes with
`swfree1`. Over any run the count of a page is the number of descriptors of it, and `st_nfpgs` the
number of pages without one.
-/

namespace Svr3.Swap

open Function List

/-! ## The search -/

section Search

variable {u : ℤ → UInt8} {size n p q : ℕ} {e : ℤ}

theorem zeros_true (h : zeros u n p = (true, q)) :
    q = p + n ∧ ∀ j : ℕ, p ≤ j → j < q → u j = 0 := by
  induction n generalizing p with
  | zero =>
    obtain ⟨-, rfl⟩ := Prod.mk.inj h
    exact ⟨rfl, fun j h1 h2 => absurd h2 (Nat.not_lt.mpr h1)⟩
  | succ n ih =>
    rw [zeros] at h
    split at h
    · exact absurd (Prod.mk.inj h).1 nofun
    · rename_i h0
      obtain ⟨rfl, hrest⟩ := ih h
      refine ⟨by omega, fun j h1 h2 => ?_⟩
      rcases Nat.eq_or_lt_of_le h1 with rfl | h1
      · exact not_not.mp h0
      · exact hrest j h1 h2

theorem scan_some {b : ℕ} (hsize : 0 < size) (h : scan u size e n p = some (b, q)) :
    q = b + size ∧ (b : ℤ) ≤ e ∧ ∀ j : ℕ, b ≤ j → j < b + size → u j = 0 := by
  induction n generalizing p with
  | zero => exact absurd h nofun
  | succ n ih =>
    rw [scan] at h
    split at h
    · exact absurd h nofun
    · rename_i he
      split at h
      · rename_i h0
        split at h
        · rename_i r hz
          obtain ⟨rfl, rfl⟩ := Prod.mk.inj (Option.some.inj h)
          obtain ⟨hq, hrun⟩ := zeros_true hz
          refine ⟨by omega, by omega, fun j h1 h2 => ?_⟩
          rcases Nat.eq_or_lt_of_le h1 with rfl | h1
          · exact h0
          · exact hrun j h1 (by omega)
        · exact ih h
      · exact ih h

end Search

/-- Pages from `b` on, as many as `size`, of a file in use, none of them used. -/
def Room (size : ℕ) (st : Swpt) (b : ℤ) : Prop :=
  0 ≤ b ∧ b + size ≤ st.st_npgs ∧ ∃ u, st.st_ucnt = some u ∧ ∀ j, b ≤ j → j < b + size → u j = 0

/-- The rover is inside the file. -/
def Swpt.Roving (st : Swpt) : Prop := st.st_ucnt.isSome → (st.st_next : ℤ) ≤ st.st_npgs

/-- Only the rovers moved. -/
structure Roved (s t : Sys) : Prop where
  nextswap : t.nextswap = s.nextswap
  swaptab : ∀ i, ∃ p, t.swaptab i = { s.swaptab i with st_next := p }
  roving : (∀ i, (s.swaptab i).Roving) → ∀ i, (t.swaptab i).Roving

section Swapfind

variable {size : ℕ} {st : Swpt} {s t : Sys}

theorem swapfind_spec (hsize : 0 < size) (hr : st.Roving) :
    (∃ p, (swapfind st size).2 = { st with st_next := p }) ∧ (swapfind st size).2.Roving ∧
      (0 ≤ (swapfind st size).1 → Room size st (swapfind st size).1) := by
  have hminus : ¬ (0 : ℤ) ≤ -1 := by decide
  unfold swapfind
  split
  · exact ⟨⟨st.st_next, rfl⟩, hr, fun h => absurd h hminus⟩
  · rename_i u hu
    have hnext : (st.st_next : ℤ) ≤ st.st_npgs := hr (by rw [hu]; rfl)
    -- either loop finds pages that end in the file
    have hfound {e : ℤ} {n p b q : ℕ} (he : e ≤ st.st_npgs - size)
        (h : scan u size e n p = some (b, q)) :
        Swpt.Roving { st with st_next := q } ∧ Room size st b := by
      obtain ⟨rfl, hb, hzero⟩ := scan_some hsize h
      refine ⟨fun _ => by dsimp only; omega, by omega, by omega, u, hu, fun j h1 h2 => ?_⟩
      have hj := hzero j.toNat (by omega) (by omega)
      rwa [Int.toNat_of_nonneg (by omega)] at hj
    dsimp only
    split
    · rename_i b q h
      obtain ⟨h1, h2⟩ := hfound (le_refl _) h
      exact ⟨⟨q, rfl⟩, h1, fun _ => h2⟩
    · split
      · rename_i b q h
        obtain ⟨h1, h2⟩ := hfound (by omega) h
        exact ⟨⟨q, rfl⟩, h1, fun _ => h2⟩
      · refine ⟨⟨0, rfl⟩, fun _ => ?_, fun h => absurd h hminus⟩
        dsimp only
        omega

theorem Roved.refl (s : Sys) : Roved s s := ⟨rfl, fun _ => ⟨_, rfl⟩, fun h => h⟩

theorem Roved.trans {u : Sys} (h : Roved s t) (h' : Roved t u) : Roved s u := by
  refine ⟨h'.nextswap.trans h.nextswap, fun i => ?_, fun hs => h'.roving (h.roving hs)⟩
  obtain ⟨p, hp⟩ := h.swaptab i
  obtain ⟨q, hq⟩ := h'.swaptab i
  exact ⟨q, by rw [hq, hp]⟩

theorem setSt_roved {smi p : ℕ} (hst : Swpt.Roving { s.swaptab smi with st_next := p }) :
    Roved s (s.setSt smi { s.swaptab smi with st_next := p }) := by
  refine ⟨rfl, ?_, fun hs => ?_⟩
  · intro i
    by_cases hi : i = smi
    · rw [hi]
      exact ⟨p, update_self _ _ _⟩
    · exact ⟨_, update_of_ne hi _ _⟩
  · intro i
    show (update s.swaptab smi { s.swaptab smi with st_next := p } i).Roving
    by_cases hi : i = smi
    · rw [hi, update_self]
      exact hst
    · rw [update_of_ne hi]
      exact hs i

theorem Roved.room (h : Roved s t) {i : ℕ} {b : ℤ} (hr : Room size (s.swaptab i) b) :
    Room size (t.swaptab i) b := by
  obtain ⟨p, hp⟩ := h.swaptab i
  rw [hp]
  exact hr

/-- The search finds pages, or it fails; where it looked into no file, `swappg` is as before. -/
theorem search_spec (hsize : 0 < size) {n smi : ℕ} {swappg : ℤ} (hs : ∀ i, (s.swaptab i).Roving)
    (hsmi : smi < msfiles) {smi' : ℕ} {pg : ℤ} (h : search size n smi swappg s = ((smi', pg), t)) :
    Roved s t ∧ (pg < 0 ∨ (smi' < msfiles ∧ Room size (t.swaptab smi') pg) ∨
      pg = swappg ∧ ∀ k < n, (s.swaptab ((smi + k) % msfiles)).usable = false) := by
  induction n generalizing smi swappg s with
  | zero =>
    obtain ⟨h1, rfl⟩ := Prod.mk.inj h
    obtain ⟨-, rfl⟩ := Prod.mk.inj h1
    exact ⟨Roved.refl s, .inr (.inr ⟨rfl, fun k hk => absurd hk (Nat.not_lt_zero k)⟩)⟩
  | succ n ih =>
    rw [search] at h
    dsimp only at h
    have hnext : (smi + 1) % msfiles < msfiles := Nat.mod_lt _ (by decide)
    split at h
    · obtain ⟨⟨p, hp⟩, hrov, hroom⟩ := swapfind_spec hsize (hs smi)
      rw [hp] at h hrov
      have hset := setSt_roved hrov
      split at h
      · rename_i hpos
        obtain ⟨h1, rfl⟩ := Prod.mk.inj h
        obtain ⟨rfl, rfl⟩ := Prod.mk.inj h1
        exact ⟨hset, .inr (.inl ⟨hsmi, hset.room (hroom hpos)⟩)⟩
      · rename_i hneg
        obtain ⟨h1, h2⟩ := ih (hset.roving hs) hnext h
        refine ⟨hset.trans h1, ?_⟩
        rcases h2 with h2 | h2 | ⟨h2, -⟩
        · exact .inl h2
        · exact .inr (.inl h2)
        · exact .inl (by omega)
    · rename_i hunused
      obtain ⟨h1, h2⟩ := ih hs hnext h
      refine ⟨h1, ?_⟩
      rcases h2 with h2 | h2 | ⟨h2, h3⟩
      · exact .inl h2
      · exact .inr (.inl h2)
      · refine .inr (.inr ⟨h2, fun k hk => ?_⟩)
        cases k with
        | zero =>
          rw [Nat.add_zero, Nat.mod_eq_of_lt hsmi]
          simpa using hunused
        | succ k =>
          have hk' := h3 k (by omega)
          rwa [Nat.mod_add_mod, Nat.add_right_comm] at hk'

end Swapfind

/-! ## The number of free pages -/

/-- The number of zero entries of `st_ucnt`. -/
noncomputable def nzero (u : ℤ → UInt8) (n : ℤ) : ℕ := ((Finset.Ico 0 n).filter fun j => u j = 0).card

section Nzero

variable {u : ℤ → UInt8} {n b pg : ℤ} {size : ℕ} {v : UInt8}

theorem nzero_grant (h0 : 0 ≤ b) (hn : b + size ≤ n) (hu : ∀ j, b ≤ j → j < b + size → u j = 0) :
    nzero (fun j => if b ≤ j ∧ j < b + size then 1 else u j) n + size = nzero u n := by
  have hsplit : (Finset.Ico 0 n).filter (fun j => u j = 0) =
      (Finset.Ico 0 n).filter (fun j => (if b ≤ j ∧ j < b + size then 1 else u j) = 0) ∪
        Finset.Ico b (b + size) := by
    ext j
    rw [Finset.mem_union, Finset.mem_filter, Finset.mem_filter, Finset.mem_Ico, Finset.mem_Ico]
    by_cases hj : b ≤ j ∧ j < b + size
    · exact iff_of_true ⟨by omega, hu j hj.1 hj.2⟩ (.inr hj)
    · rw [if_neg hj]
      exact (or_iff_left hj).symm
  have hdisj : Disjoint
      ((Finset.Ico 0 n).filter fun j => (if b ≤ j ∧ j < b + size then 1 else u j) = 0)
      (Finset.Ico b (b + size)) := by
    rw [Finset.disjoint_left]
    intro j hj hin
    rw [Finset.mem_Ico] at hin
    rw [Finset.mem_filter, if_pos hin] at hj
    exact absurd hj.2 (by decide)
  have hcard := congrArg Finset.card hsplit
  rw [Finset.card_union_of_disjoint hdisj, Int.card_Ico] at hcard
  unfold nzero
  beta_reduce
  omega

theorem nzero_update (h : u pg ≠ 0) (hv : v ≠ 0) : nzero (update u pg v) n = nzero u n := by
  unfold nzero
  congr 1
  apply Finset.filter_congr
  intro j _
  by_cases hj : j = pg
  · rw [hj, update_self]
    exact iff_of_false hv h
  · rw [update_of_ne hj]

theorem nzero_update_zero (h : u pg ≠ 0) (h0 : 0 ≤ pg) (hn : pg < n) :
    nzero (update u pg 0) n = nzero u n + 1 := by
  have hins : (Finset.Ico 0 n).filter (fun j => update u pg 0 j = 0) =
      insert pg ((Finset.Ico 0 n).filter fun j => u j = 0) := by
    ext j
    rw [Finset.mem_insert, Finset.mem_filter, Finset.mem_filter, Finset.mem_Ico]
    by_cases hj : j = pg
    · rw [hj, update_self]
      exact iff_of_true ⟨⟨h0, hn⟩, rfl⟩ (.inl rfl)
    · rw [update_of_ne hj]
      exact (or_iff_right hj).symm
  unfold nzero
  rw [hins, Finset.card_insert_of_notMem]
  intro hin
  exact h (Finset.mem_filter.mp hin).2

theorem nzero_all (h : (nzero u n : ℤ) = n) : ∀ j, 0 ≤ j → j < n → u j = 0 := by
  have hcard : ((Finset.Ico 0 n).filter fun j => u j = 0).card = (Finset.Ico 0 n).card := by
    rw [Int.card_Ico]
    unfold nzero at h
    omega
  intro j h0 hj
  exact Finset.card_filter_eq_iff.mp hcard j (Finset.mem_Ico.mpr ⟨h0, hj⟩)

theorem nzero_zero (h : 0 ≤ n) : (nzero (fun _ => 0) n : ℤ) = n := by
  unfold nzero
  rw [Finset.filter_true_of_mem fun _ _ => rfl, Int.card_Ico]
  omega

end Nzero

/-! ## Runs -/

/-- A descriptor, with the entry that it was made for, by the `born`th allocation of a page. -/
structure Ref where
  dbd : Dbd
  smi : ℕ
  pg : ℤ
  born : ℕ
deriving DecidableEq

/-- The swap files, the descriptors that there are, the processes in `swalloc` that found no space
with the size they want, and the calls of `swapdel` that wait for the pages of a file. -/
structure State where
  sw : Sys
  live : List Ref
  born : ℕ
  asking : ℕ → Option ℕ
  deleting : List ℕ

/-- Process `p` in a turn of `swalloc`. -/
def turn (p size : ℕ) (swappg : ℤ) (waitflag : Bool) (s : State) : State :=
  match swalloc size swappg s.sw with
  | (some (smi, pg, dbds), sw) =>
    { s with
      sw := sw
      live := dbds.mapIdx (fun i dbd => ⟨dbd, smi, pg + i, s.born + i⟩) ++ s.live
      born := s.born + size
      asking := update s.asking p none }
  | (none, sw) =>
    { s with
      sw := sw
      asking := update s.asking p (if waitflag then some size else none) }

/-- `again` is a turn after `swapclup` or a sleep, when `swappg` is still `-1`; `sleep` puts the
process at the end of the list; `delend` is a call of `swapdel` that comes out of its loop. `avail`
stands for the rest of the kernel, which takes and gives memory. -/
inductive Act
  | swapadd (dev : ℕ) (lowblk nblks : ℤ) (opened : Option ℕ) (room : Bool)
  | swalloc (p size : ℕ) (waitflag : Bool)
  | again (p : ℕ)
  | sleep (p : ℕ)
  | swpinc (a : Ref)
  | swfree1 (a : Ref)
  | swapdel (dev : ℕ) (lowblk : ℤ)
  | delend (smi : ℕ)
  | avail (n : ℤ)

/-- What can come next. Pages are asked for at least one at a time, and counts change by
descriptors that there are. -/
def Can (s : State) : Act → Prop
  | .swalloc p size _ => s.asking p = none ∧ 0 < size
  | .again p => (s.asking p).isSome ∧ p ∉ s.sw.swapwold.map Prod.fst
  | .sleep p => (s.asking p).isSome ∧ p ∉ s.sw.swapwold.map Prod.fst
  | .swpinc a => a ∈ s.live
  | .swfree1 a => a ∈ s.live
  | .delend smi => smi ∈ s.deleting ∧ (s.sw.swaptab smi).busy = false
  | _ => True

def next (minasmem : ℤ) (s : State) : Act → State
  | .swapadd dev lowblk nblks opened room =>
    { s with sw := (swapadd dev lowblk nblks opened room s.sw).2 }
  | .swalloc p size waitflag => turn p size 0 waitflag s
  | .again p =>
    match s.asking p with
    | none => s
    | some size => turn p size (-1) true s
  | .sleep p =>
    match s.asking p with
    | none => s
    | some size => { s with sw := { s.sw with swapwold := s.sw.swapwold ++ [(p, (size : ℤ))] } }
  | .swpinc a =>
    match swpinc a.dbd s.sw with
    | (true, sw) => { s with sw := sw, live := a :: s.live }
    | (false, sw) => { s with sw := sw }
  | .swfree1 a => { s with sw := (swfree1 a.dbd s.sw).2, live := s.live.erase a }
  | .swapdel dev lowblk =>
    match swapdel minasmem dev lowblk s.sw with
    | (.ok smi, sw) => { s with sw := sw, deleting := smi :: s.deleting }
    | (.error _, sw) => { s with sw := sw }
  | .delend smi => { s with sw := swapdelEnd smi s.sw, deleting := s.deleting.erase smi }
  | .avail n => { s with sw := { s.sw with availsmem := n } }

def Sstep (minasmem : ℤ) (s : State) (a : Act) (t : State) : Prop := Can s a ∧ t = next minasmem s a

/-- No swap file, and no descriptor. -/
def boot : State :=
  ⟨⟨fun _ => ⟨0, false, none, 0, 0, 0, 0⟩, 0, 0, []⟩, [], 0, fun _ => none, []⟩

/-- The descriptor is of page `pg` of file `smi`. -/
def Ref.on (smi : ℕ) (pg : ℤ) (a : Ref) : Bool := a.smi = smi && a.pg = pg

/-- The books of the swap files in use, and the descriptors. -/
structure Booked (s : State) : Prop where
  nfpgs : ∀ smi u, (s.sw.swaptab smi).st_ucnt = some u →
    (s.sw.swaptab smi).st_nfpgs = nzero u (s.sw.swaptab smi).st_npgs
  /-- No count ran over `MAXSUSE` or below 0: it is the number of descriptors of the page. -/
  refs : ∀ smi u, (s.sw.swaptab smi).st_ucnt = some u →
    ∀ pg, 0 ≤ pg → pg < (s.sw.swaptab smi).st_npgs → (u pg).toNat = s.live.countP (Ref.on smi pg)
  /-- A descriptor is of a page of a file in use, and leads back to the entry that it was made
  for. -/
  place : ∀ a ∈ s.live, (s.sw.swaptab a.smi).st_ucnt.isSome ∧ a.dbd.dbd_swpi.toNat = a.smi ∧
    pgnbr (s.sw.swaptab a.smi) a.dbd = a.pg ∧ 0 ≤ a.pg ∧ a.pg < (s.sw.swaptab a.smi).st_npgs
  /-- Two descriptors of one page are of one allocation. -/
  alone : ∀ a ∈ s.live, ∀ b ∈ s.live, a.smi = b.smi → a.pg = b.pg → a.born = b.born

/-- With what the routines keep besides. -/
structure Kept (s : State) : Prop extends Booked s where
  nextswap : s.sw.nextswap < msfiles
  roving : ∀ smi, (s.sw.swaptab smi).Roving
  blocks : ∀ smi, (s.sw.swaptab smi).st_ucnt.isSome → 0 ≤ (s.sw.swaptab smi).st_swplo ∧
    0 ≤ (s.sw.swaptab smi).st_npgs ∧
    (s.sw.swaptab smi).st_swplo + (s.sw.swaptab smi).st_npgs * 2 ≤ 2 ^ 24
  fresh : ∀ a ∈ s.live, a.born < s.born
  asking : ∀ p size, s.asking p = some size → 0 < size

section Keeping

variable {s : State} {sw : Sys} {smi : ℕ} {a : Ref} {st : Swpt}

theorem setSt_self (s : Sys) (smi : ℕ) (st : Swpt) : (s.setSt smi st).swaptab smi = st :=
  update_self _ _ _

theorem setSt_other (s : Sys) {smi i : ℕ} (h : i ≠ smi) (st : Swpt) :
    (s.setSt smi st).swaptab i = s.swaptab i := update_of_ne h _ _

theorem on_iff {pg : ℤ} : a.on smi pg = true ↔ a.smi = smi ∧ a.pg = pg := by
  simp [Ref.on]

/-- What the books of a file are about. -/
structure SameFile (x y : Swpt) : Prop where
  st_ucnt : y.st_ucnt = x.st_ucnt
  st_swplo : y.st_swplo = x.st_swplo
  st_npgs : y.st_npgs = x.st_npgs
  st_nfpgs : y.st_nfpgs = x.st_nfpgs

theorem SameFile.pgnbr {x y : Swpt} (h : SameFile x y) (dbd : Dbd) : pgnbr y dbd = pgnbr x dbd := by
  unfold Swap.pgnbr
  rw [h.st_swplo]

theorem Kept.same (h : Kept s) {asking : ℕ → Option ℕ} {deleting : List ℕ}
    (hf : ∀ smi, SameFile (s.sw.swaptab smi) (sw.swaptab smi))
    (hr : ∀ smi, (sw.swaptab smi).Roving) (hn : sw.nextswap < msfiles)
    (ha : ∀ p size, asking p = some size → 0 < size) :
    Kept ⟨sw, s.live, s.born, asking, deleting⟩ := by
  refine ⟨⟨fun i u hu => ?_, fun i u hu => ?_, fun b hb => ?_, h.alone⟩, hn, hr, fun i hi => ?_,
    h.fresh, ha⟩
  · dsimp only at hu ⊢
    rw [(hf i).st_ucnt] at hu
    rw [(hf i).st_nfpgs, (hf i).st_npgs]
    exact h.nfpgs i u hu
  · dsimp only at hu ⊢
    rw [(hf i).st_ucnt] at hu
    rw [(hf i).st_npgs]
    exact h.refs i u hu
  · dsimp only
    rw [(hf b.smi).st_ucnt, (hf b.smi).pgnbr, (hf b.smi).st_npgs]
    exact h.place b hb
  · dsimp only at hi ⊢
    rw [(hf i).st_ucnt] at hi
    rw [(hf i).st_swplo, (hf i).st_npgs]
    exact h.blocks i hi

theorem Roved.sameFile {t : Sys} (h : Roved sw t) (i : ℕ) :
    SameFile (sw.swaptab i) (t.swaptab i) := by
  obtain ⟨p, hp⟩ := h.swaptab i
  rw [hp]
  exact ⟨rfl, rfl, rfl, rfl⟩

/-- A file without descriptors is put in the table or taken out. -/
theorem Kept.file (h : Kept s) (hnone : ∀ a ∈ s.live, a.smi ≠ smi)
    (hsw : ∀ i, sw.swaptab i = (s.sw.setSt smi st).swaptab i) (hn : sw.nextswap = s.sw.nextswap)
    (hst : st.st_ucnt.isSome → st.st_ucnt = some (fun _ => 0) ∧ st.st_nfpgs = st.st_npgs ∧
      st.st_next = 0 ∧ 0 ≤ st.st_swplo ∧ 0 ≤ st.st_npgs ∧ st.st_swplo + st.st_npgs * 2 ≤ 2 ^ 24)
    {deleting : List ℕ} : Kept ⟨sw, s.live, s.born, s.asking, deleting⟩ := by
  have hself : sw.swaptab smi = st := (hsw smi).trans (setSt_self _ _ _)
  have hother (i : ℕ) (hi : i ≠ smi) : sw.swaptab i = s.sw.swaptab i :=
    (hsw i).trans (setSt_other _ hi _)
  refine ⟨⟨fun i u hu => ?_, fun i u hu pg h0 hlt => ?_, fun b hb => ?_, h.alone⟩, ?_, fun i => ?_,
    fun i hi => ?_, h.fresh, h.asking⟩
  · dsimp only at hu ⊢
    by_cases hi : i = smi
    · rw [hi, hself] at hu ⊢
      obtain ⟨hz, hnf, -, -, hpos, -⟩ := hst (by rw [hu]; rfl)
      obtain rfl := Option.some.inj (hz.symm.trans hu)
      rw [hnf, nzero_zero hpos]
    · rw [hother i hi] at hu ⊢
      exact h.nfpgs i u hu
  · dsimp only at hu hlt ⊢
    by_cases hi : i = smi
    · rw [hi, hself] at hu
      obtain ⟨hz, -⟩ := hst (by rw [hu]; rfl)
      obtain rfl := Option.some.inj (hz.symm.trans hu)
      have hzero : s.live.countP (Ref.on i pg) = 0 := by
        rw [countP_eq_zero]
        intro b hb hon
        exact hnone b hb ((on_iff.mp hon).1.trans hi)
      rw [hzero]
      rfl
    · rw [hother i hi] at hu hlt
      exact h.refs i u hu pg h0 hlt
  · dsimp only
    rw [hother b.smi (hnone b hb)]
    exact h.place b hb
  · dsimp only
    rw [hn]
    exact h.nextswap
  · dsimp only
    by_cases hi : i = smi
    · rw [hi, hself]
      intro hu
      obtain ⟨-, -, hnext, -, hpos, -⟩ := hst hu
      rw [hnext]
      exact hpos
    · rw [hother i hi]
      exact h.roving i
  · dsimp only at hi ⊢
    by_cases hsmi : i = smi
    · rw [hsmi, hself] at hi ⊢
      exact (hst hi).2.2.2
    · rw [hother i hsmi] at hi ⊢
      exact h.blocks i hi

/-- The count of one page changes with the descriptors of it. -/
theorem Kept.recount (h : Kept s) {u : ℤ → UInt8} {pg nf : ℤ} {v : UInt8} {live : List Ref}
    (hu : (s.sw.swaptab smi).st_ucnt = some u)
    (hnf : nf = nzero (update u pg v) (s.sw.swaptab smi).st_npgs)
    (hv : v.toNat = live.countP (Ref.on smi pg))
    (hcount : ∀ i j, ¬ (i = smi ∧ j = pg) → live.countP (Ref.on i j) = s.live.countP (Ref.on i j))
    (hsub : ∀ b ∈ live, b ∈ s.live)
    (hsw : ∀ i, sw.swaptab i = (s.sw.setSt smi { s.sw.swaptab smi with
      st_ucnt := some (update u pg v), st_nfpgs := nf }).swaptab i)
    (hn : sw.nextswap = s.sw.nextswap) : Kept ⟨sw, live, s.born, s.asking, s.deleting⟩ := by
  have hself := (hsw smi).trans (setSt_self _ _ _)
  have hother (i : ℕ) (hi : i ≠ smi) : sw.swaptab i = s.sw.swaptab i :=
    (hsw i).trans (setSt_other _ hi _)
  refine ⟨⟨fun i w hw => ?_, fun i w hw j h0 hlt => ?_, fun b hb => ?_, fun b hb c hc => ?_⟩, ?_,
    fun i => ?_, fun i hi => ?_, fun b hb => h.fresh b (hsub b hb), h.asking⟩
  · dsimp only at hw ⊢
    by_cases hi : i = smi
    · rw [hi, hself] at hw ⊢
      obtain rfl := Option.some.inj hw
      exact hnf
    · rw [hother i hi] at hw ⊢
      exact h.nfpgs i w hw
  · dsimp only at hw hlt ⊢
    by_cases hi : i = smi
    · rw [hi, hself] at hw hlt
      obtain rfl := Option.some.inj hw
      by_cases hj : j = pg
      · rw [hi, hj, update_self]
        exact hv
      · rw [update_of_ne hj, hcount i j fun hc => hj hc.2, hi]
        exact h.refs smi u hu j h0 hlt
    · rw [hother i hi] at hw hlt
      rw [hcount i j fun hc => hi hc.1]
      exact h.refs i w hw j h0 hlt
  · dsimp only
    have hplace := h.place b (hsub b hb)
    by_cases hi : b.smi = smi
    · rw [hi] at hplace ⊢
      rw [hself]
      exact ⟨rfl, hplace.2⟩
    · rw [hother b.smi hi]
      exact hplace
  · exact h.alone b (hsub b hb) c (hsub c hc)
  · dsimp only
    rw [hn]
    exact h.nextswap
  · dsimp only
    by_cases hi : i = smi
    · rw [hi, hself]
      intro _
      exact h.roving smi (by rw [hu]; rfl)
    · rw [hother i hi]
      exact h.roving i
  · dsimp only at hi ⊢
    by_cases hsmi : i = smi
    · rw [hsmi, hself]
      exact h.blocks smi (by rw [hu]; rfl)
    · rw [hother i hsmi] at hi ⊢
      exact h.blocks i hi

theorem Kept.count_pos (h : Kept s) (ha : a ∈ s.live) : ∃ u,
    (s.sw.swaptab a.smi).st_ucnt = some u ∧ (u a.pg).toNat = s.live.countP (Ref.on a.smi a.pg) ∧
      0 < (u a.pg).toNat := by
  obtain ⟨hu, -, -, h0, hlt⟩ := h.place a ha
  obtain ⟨u, hu⟩ := Option.isSome_iff_exists.mp hu
  have hrefs := h.refs a.smi u hu a.pg h0 hlt
  refine ⟨u, hu, hrefs, ?_⟩
  rw [hrefs, countP_pos_iff]
  exact ⟨a, ha, on_iff.mpr ⟨rfl, rfl⟩⟩

theorem swpinc_kept (h : Kept s) (ha : a ∈ s.live) {minasmem : ℤ} :
    Kept (next minasmem s (.swpinc a)) := by
  obtain ⟨u, hu, hrefs, hpos⟩ := h.count_pos ha
  obtain ⟨-, hswpi, hpg, h0, hlt⟩ := h.place a ha
  have hinc : swpinc a.dbd s.sw = if maxsuse ≤ u a.pg then (false, s.sw)
      else (true, s.sw.setSt a.smi { s.sw.swaptab a.smi with
        st_ucnt := some (update u a.pg (u a.pg + 1)) }) := by
    unfold swpinc
    rw [hswpi]
    dsimp only
    rw [hu]
    dsimp only
    rw [hpg]
  unfold next
  dsimp only
  rw [hinc]
  by_cases hmax : maxsuse ≤ u a.pg
  · rw [if_pos hmax]
    exact h
  · rw [if_neg hmax]
    have hlt255 : (u a.pg).toNat < 255 := by
      rw [UInt8.not_le] at hmax
      exact UInt8.lt_iff_toNat_lt.mp hmax
    have hsucc : (u a.pg + 1).toNat = (u a.pg).toNat + 1 := by
      rw [UInt8.toNat_add]
      exact Nat.mod_eq_of_lt (by show (u a.pg).toNat + 1 < 256; omega)
    have hne : u a.pg ≠ 0 := by
      intro hz
      rw [hz] at hpos
      exact absurd hpos (by decide)
    have hne' : u a.pg + 1 ≠ 0 := by
      intro hz
      have hz' : (u a.pg + 1).toNat = 0 := by rw [hz]; rfl
      omega
    have hnf : (s.sw.swaptab a.smi).st_nfpgs =
        nzero (update u a.pg (u a.pg + 1)) (s.sw.swaptab a.smi).st_npgs := by
      rw [nzero_update hne hne']
      exact h.nfpgs a.smi u hu
    refine h.recount hu hnf ?_ (fun i j hij => ?_) (fun b hb => ?_) (fun i => rfl) rfl
    · rw [hsucc, hrefs, countP_cons_of_pos (on_iff.mpr ⟨rfl, rfl⟩)]
    · rw [countP_cons_of_neg]
      intro hon
      obtain ⟨h1, h2⟩ := on_iff.mp hon
      exact hij ⟨h1.symm, h2.symm⟩
    · rcases mem_cons.mp hb with rfl | hb
      · exact ha
      · exact hb

theorem swfree1_kept (h : Kept s) (ha : a ∈ s.live) {minasmem : ℤ} :
    Kept (next minasmem s (.swfree1 a)) := by
  obtain ⟨u, hu, hrefs, hpos⟩ := h.count_pos ha
  obtain ⟨-, hswpi, hpg, h0, hlt⟩ := h.place a ha
  have hne : u a.pg ≠ 0 := by
    intro hz
    rw [hz] at hpos
    exact absurd hpos (by decide)
  have hpred : (u a.pg - 1).toNat = (u a.pg).toNat - 1 := by
    rw [UInt8.toNat_sub_of_le]
    · rfl
    · exact UInt8.le_iff_toNat_le.mpr hpos
  have hnf := h.nfpgs a.smi u hu
  have hmain (sw : Sys) (nf : ℤ)
      (hnf : nf = nzero (update u a.pg (u a.pg - 1)) (s.sw.swaptab a.smi).st_npgs)
      (hsw : ∀ i, sw.swaptab i = (s.sw.setSt a.smi { s.sw.swaptab a.smi with
        st_ucnt := some (update u a.pg (u a.pg - 1)), st_nfpgs := nf }).swaptab i)
      (hn : sw.nextswap = s.sw.nextswap) :
      Kept ⟨sw, s.live.erase a, s.born, s.asking, s.deleting⟩ := by
    refine h.recount hu hnf ?_ ?_ (fun b hb => mem_of_mem_erase hb) hsw hn
    · rw [countP_erase, if_pos ⟨ha, on_iff.mpr ⟨rfl, rfl⟩⟩, hpred, hrefs]
    · intro i j hij
      rw [countP_erase, if_neg, Nat.sub_zero]
      rintro ⟨-, hon⟩
      obtain ⟨h1, h2⟩ := on_iff.mp hon
      exact hij ⟨h1.symm, h2.symm⟩
  unfold next swfree1
  dsimp only
  rw [hswpi, hu]
  dsimp only
  rw [hpg]
  split
  · rename_i hz
    have hnf' : (s.sw.swaptab a.smi).st_nfpgs + 1 =
        nzero (update u a.pg (u a.pg - 1)) (s.sw.swaptab a.smi).st_npgs := by
      rw [hz, nzero_update_zero hne h0 hlt, hnf]
      rfl
    split
    · exact hmain _ _ hnf' (fun _ => rfl) rfl
    · dsimp only
      split
      · exact hmain _ _ hnf' (fun _ => rfl) rfl
      · exact hmain _ _ hnf' (fun _ => rfl) rfl
  · rename_i hnz
    exact hmain _ _ ((nzero_update hne hnz).symm ▸ hnf) (fun _ => rfl) rfl

/-- The `i`th descriptor that `grant` makes, with its entry. -/
def granted (st : Swpt) (smi : ℕ) (pg : ℤ) (born i : ℕ) : Ref :=
  ⟨⟨BitVec.ofNat 4 smi, BitVec.ofInt 24 (st.st_swplo + pg * 2 ^ dppshft + i * 2 ^ dppshft)⟩, smi,
    pg + i, born + i⟩

theorem granted_eq {size born : ℕ} {pg : ℤ} :
    (grant size smi pg sw).1.mapIdx (fun i dbd => (⟨dbd, smi, pg + i, born + i⟩ : Ref)) =
      (List.range size).map (granted (sw.swaptab smi) smi pg born) := by
  unfold grant
  apply ext_getElem
  · simp
  · intro i h1 h2
    simp [granted]

theorem countP_granted {born i : ℕ} {pg j : ℤ} (size : ℕ) :
    ((List.range size).map (granted st smi pg born)).countP (Ref.on i j) =
      if i = smi ∧ pg ≤ j ∧ j < pg + size then 1 else 0 := by
  induction size with
  | zero =>
    rw [if_neg (by omega)]
    rfl
  | succ n ih =>
    rw [range_succ, map_append, countP_append, ih, map_singleton,
      countP_singleton]
    have hon : (granted st smi pg born n).on i j = true ↔ smi = i ∧ pg + n = j := on_iff
    by_cases hlast : smi = i ∧ pg + n = j
    · rw [if_pos (hon.mpr hlast), if_neg (by omega), if_pos (by omega)]
    · rw [if_neg (mt hon.mp hlast), Nat.add_zero]
      by_cases hin : i = smi ∧ pg ≤ j ∧ j < pg + n
      · rw [if_pos hin, if_pos (by omega)]
      · rw [if_neg hin, if_neg (by omega)]

/-- The block number leads back to the page. -/
theorem pgnbr_granted (st : Swpt) (smi born : ℕ) {size i : ℕ} {pg : ℤ} (h0 : 0 ≤ pg) (hi : i < size)
    (hn : pg + size ≤ st.st_npgs) (hlo : 0 ≤ st.st_swplo)
    (hhi : st.st_swplo + st.st_npgs * 2 ≤ 2 ^ 24) :
    pgnbr st (granted st smi pg born i).dbd = pg + i := by
  have hblk : ((granted st smi pg born i).dbd.dbd_blkno.toNat : ℤ) =
      st.st_swplo + pg * 2 ^ dppshft + i * 2 ^ dppshft := by
    unfold granted dppshft
    rw [BitVec.toNat_ofInt]
    omega
  unfold pgnbr
  rw [hblk, Int.shiftRight_eq_div_pow]
  unfold dppshft
  omega

theorem Kept.no_ref (h : Kept s) {size : ℕ} {pg : ℤ} (hroom : Room size (s.sw.swaptab smi) pg)
    (ha : a ∈ s.live) : ¬ (a.smi = smi ∧ pg ≤ a.pg ∧ a.pg < pg + size) := by
  rintro ⟨rfl, h1, h2⟩
  obtain ⟨u, hu, -, hpos⟩ := h.count_pos ha
  obtain ⟨-, -, w, hw, hzero⟩ := hroom
  obtain rfl := Option.some.inj (hw.symm.trans hu)
  rw [hzero a.pg h1 h2] at hpos
  exact absurd hpos (by decide)

theorem grant_kept (h : Kept s) {size : ℕ} {pg : ℤ} (hsmi : smi < msfiles)
    (hroom : Room size (s.sw.swaptab smi) pg) {asking : ℕ → Option ℕ}
    (hask : ∀ p size, asking p = some size → 0 < size) :
    Kept ⟨(grant size smi pg s.sw).2,
      (grant size smi pg s.sw).1.mapIdx (fun i dbd => ⟨dbd, smi, pg + i, s.born + i⟩) ++ s.live,
      s.born + size, asking, s.deleting⟩ := by
  rw [granted_eq]
  obtain ⟨h0, hn, u, hu, hzero⟩ := hroom
  have hblocks := h.blocks smi (by rw [hu]; rfl)
  have hself : (grant size smi pg s.sw).2.swaptab smi = { s.sw.swaptab smi with
      st_nfpgs := (s.sw.swaptab smi).st_nfpgs - size
      st_ucnt := some fun j => if pg ≤ j ∧ j < pg + size then 1 else u j } := by
    show (Sys.setSt _ _ _).swaptab smi = _
    rw [setSt_self, hu]
    rfl
  have hother (i : ℕ) (hi : i ≠ smi) : (grant size smi pg s.sw).2.swaptab i = s.sw.swaptab i :=
    setSt_other _ hi _
  have hmem {b : Ref} (hb : b ∈ (List.range size).map (granted (s.sw.swaptab smi) smi pg s.born)) :
      ∃ i < size, granted (s.sw.swaptab smi) smi pg s.born i = b := by
    obtain ⟨i, hi, rfl⟩ := mem_map.mp hb
    exact ⟨i, mem_range.mp hi, rfl⟩
  refine ⟨⟨fun i w hw => ?_, fun i w hw j hj0 hlt => ?_, fun b hb => ?_, fun b hb c hc => ?_⟩, ?_,
    fun i => ?_, fun i hi => ?_, fun b hb => ?_, hask⟩
  · dsimp only at hw ⊢
    by_cases hi : i = smi
    · rw [hi, hself] at hw ⊢
      obtain rfl := Option.some.inj hw
      have hz := nzero_grant h0 hn hzero
      have hnf := h.nfpgs smi u hu
      dsimp only
      omega
    · rw [hother i hi] at hw ⊢
      exact h.nfpgs i w hw
  · dsimp only at hw hlt ⊢
    rw [countP_append, countP_granted]
    by_cases hi : i = smi
    · rw [hi, hself] at hw hlt
      obtain rfl := Option.some.inj hw
      have hrefs := h.refs smi u hu j hj0 hlt
      rw [hi]
      beta_reduce
      by_cases hin : pg ≤ j ∧ j < pg + size
      · rw [if_pos hin, if_pos ⟨rfl, hin⟩, ← hrefs, hzero j hin.1 hin.2]
        rfl
      · rw [if_neg hin, if_neg fun hc => hin hc.2, hrefs, Nat.zero_add]
    · rw [hother i hi] at hw hlt
      rw [if_neg fun hc => hi hc.1, Nat.zero_add]
      exact h.refs i w hw j hj0 hlt
  · dsimp only
    rcases mem_append.mp hb with hb | hb
    · obtain ⟨i, hi, rfl⟩ := hmem hb
      have hpg := pgnbr_granted (s.sw.swaptab smi) smi s.born h0 hi hn
        hblocks.1 hblocks.2.2
      show ((grant size smi pg s.sw).2.swaptab smi).st_ucnt.isSome ∧ _ ∧
        pgnbr ((grant size smi pg s.sw).2.swaptab smi) _ = pg + i ∧ 0 ≤ pg + i ∧
          pg + i < ((grant size smi pg s.sw).2.swaptab smi).st_npgs
      rw [hself]
      refine ⟨rfl, ?_, hpg, by omega, by dsimp only; omega⟩
      show (BitVec.ofNat 4 smi).toNat = smi
      rw [BitVec.toNat_ofNat]
      exact Nat.mod_eq_of_lt hsmi
    · have hplace := h.place b hb
      by_cases hi : b.smi = smi
      · rw [hi] at hplace ⊢
        rw [hself]
        exact ⟨rfl, hplace.2⟩
      · rw [hother _ hi]
        exact hplace
  · dsimp only at hb hc
    intro h1 h2
    have hnew {b c : Ref} (hb : b ∈ (List.range size).map (granted (s.sw.swaptab smi) smi pg s.born))
        (hc : c ∈ s.live) (h1 : b.smi = c.smi) (h2 : b.pg = c.pg) : False := by
      obtain ⟨i, hi, rfl⟩ := hmem hb
      apply h.no_ref ⟨h0, hn, u, hu, hzero⟩ hc
      have h3 : smi = c.smi := h1
      have h4 : pg + i = c.pg := h2
      exact ⟨h3.symm, by omega, by omega⟩
    rcases mem_append.mp hb with hb | hb
    · rcases mem_append.mp hc with hc | hc
      · obtain ⟨i, hi, rfl⟩ := hmem hb
        obtain ⟨j, hj, rfl⟩ := hmem hc
        have h3 : pg + i = pg + j := h2
        show s.born + i = s.born + j
        omega
      · exact (hnew hb hc h1 h2).elim
    · rcases mem_append.mp hc with hc | hc
      · exact (hnew hc hb h1.symm h2.symm).elim
      · exact h.alone b hb c hc h1 h2
  · exact Nat.mod_lt _ (by decide)
  · dsimp only
    by_cases hi : i = smi
    · rw [hi, hself]
      intro _
      exact h.roving smi (by rw [hu]; rfl)
    · rw [hother i hi]
      exact h.roving i
  · dsimp only at hi ⊢
    by_cases hsm : i = smi
    · rw [hsm, hself]
      exact hblocks
    · rw [hother i hsm] at hi ⊢
      exact h.blocks i hi
  · dsimp only
    rcases mem_append.mp hb with hb | hb
    · obtain ⟨i, hi, rfl⟩ := hmem hb
      show s.born + i < s.born + size
      omega
    · have := h.fresh b hb
      omega

/-! ### Turns -/

/-- The pages that a step allocated had the count 0, and have the count 1 now. -/
def HandsOut (s t : State) : Prop :=
  ∀ a ∈ t.live, s.born ≤ a.born → ∃ u w, (s.sw.swaptab a.smi).st_ucnt = some u ∧
    (t.sw.swaptab a.smi).st_ucnt = some w ∧ u a.pg = 0 ∧ w a.pg = 1

theorem Kept.handsOut (h : Kept s) {t : State} (hlive : ∀ a ∈ t.live, a ∈ s.live) : HandsOut s t := by
  intro a ha hborn
  have := h.fresh a (hlive a ha)
  omega

theorem turn_kept (h : Kept s) {p size : ℕ} {swappg : ℤ} {waitflag : Bool} (hsize : 0 < size)
    (hcan : swappg < 0 ∨ ∃ i < msfiles, (s.sw.swaptab i).usable = true) :
    Kept (turn p size swappg waitflag s) ∧ HandsOut s (turn p size swappg waitflag s) := by
  have hask {v : Option ℕ} (hv : ∀ size, v = some size → 0 < size) (q n : ℕ)
      (hq : update s.asking p v q = some n) : 0 < n := by
    by_cases hqp : q = p
    · rw [hqp, update_self] at hq
      exact hv n hq
    · rw [update_of_ne hqp] at hq
      exact h.asking q n hq
  obtain ⟨⟨⟨smi, pg⟩, sw⟩, hsearch⟩ : ∃ r, search size msfiles s.sw.nextswap swappg s.sw = r := ⟨_, rfl⟩
  obtain ⟨hroved, hres⟩ := search_spec hsize h.roving h.nextswap hsearch
  have hsame : Kept ⟨sw, s.live, s.born, s.asking, s.deleting⟩ :=
    h.same hroved.sameFile (hroved.roving h.roving) (hroved.nextswap ▸ h.nextswap) h.asking
  unfold turn swalloc
  rw [hsearch]
  dsimp only
  by_cases hpg : 0 ≤ pg
  · rw [if_pos hpg]
    obtain ⟨hsmi, hroom⟩ : smi < msfiles ∧ Room size (sw.swaptab smi) pg := by
      rcases hres with hneg | hfound | ⟨heq, hnone⟩
      · omega
      · exact hfound
      · rcases hcan with hneg | ⟨i, hi, huse⟩
        · omega
        · -- all files were looked at
          have hk := hnone ((i + msfiles - s.sw.nextswap) % msfiles) (Nat.mod_lt _ (by decide))
          have hnext := h.nextswap
          unfold msfiles at hk hi hnext
          rw [show (s.sw.nextswap + (i + 16 - s.sw.nextswap) % 16) % 16 = i by omega, huse] at hk
          exact absurd hk nofun
    refine ⟨grant_kept hsame hsmi hroom (hask nofun), fun a ha hborn => ?_⟩
    dsimp only at ha
    rcases mem_append.mp ha with ha | ha
    · rw [granted_eq] at ha
      obtain ⟨i, hi, rfl⟩ := mem_map.mp ha
      rw [mem_range] at hi
      obtain ⟨h0, hn, u, hu, hzero⟩ := hroom
      obtain ⟨q, hq⟩ := hroved.swaptab smi
      refine ⟨u, fun j => if pg ≤ j ∧ j < pg + size then 1 else u j, ?_, ?_, ?_, ?_⟩
      · show (s.sw.swaptab smi).st_ucnt = some u
        rw [hq] at hu
        exact hu
      · show ((Sys.setSt _ _ _).swaptab smi).st_ucnt = _
        rw [setSt_self, hu]
        rfl
      · exact hzero (pg + i) (by omega) (by omega)
      · exact if_pos ⟨by show pg ≤ pg + i; omega, by show pg + i < pg + size; omega⟩
    · have := h.fresh a ha
      omega
  · rw [if_neg hpg]
    refine ⟨h.same hroved.sameFile (hroved.roving h.roving) (hroved.nextswap ▸ h.nextswap) (hask ?_),
      h.handsOut fun a ha => ha⟩
    intro n hn
    split at hn
    · exact Option.some.inj hn ▸ hsize
    · exact absurd hn nofun

/-! ### Files -/

theorem addLoop_free {dev : ℕ} {lowblk : ℤ} {tab : ℕ → Swpt} {is : List ℕ} {free : Option ℕ}
    (h : addLoop dev lowblk tab is free = .free smi) :
    free = some smi ∨ smi ∈ is ∧ (tab smi).st_ucnt = none := by
  induction is generalizing free with
  | nil =>
    cases free with
    | none => exact absurd h nofun
    | some i =>
      obtain rfl := Add.free.inj h
      exact .inl rfl
  | cons i is ih =>
    rw [addLoop] at h
    split at h
    · rename_i hnone
      rcases ih h with hfree | ⟨h1, h2⟩
      · cases free with
        | none =>
          obtain rfl : i = smi := Option.some.inj hfree
          exact .inr ⟨mem_cons_self, Option.isNone_iff_eq_none.mp hnone⟩
        | some j => exact .inl hfree
      · exact .inr ⟨mem_cons_of_mem _ h1, h2⟩
    · split at h
      · exact absurd h nofun
      · rcases ih h with hfree | ⟨h1, h2⟩
        · exact .inl hfree
        · exact .inr ⟨mem_cons_of_mem _ h1, h2⟩

/-- Setting or clearing `ST_INDEL` is nothing to the books. -/
theorem indel_same (indel : Bool) (i : ℕ) : SameFile (sw.swaptab i)
    ((sw.setSt smi { sw.swaptab smi with st_indel := indel }).swaptab i) := by
  by_cases hi : i = smi
  · rw [hi, setSt_self]
    exact ⟨rfl, rfl, rfl, rfl⟩
  · rw [setSt_other _ hi]
    exact ⟨rfl, rfl, rfl, rfl⟩

theorem indel_roving (indel : Bool) (h : ∀ i, (sw.swaptab i).Roving) (i : ℕ) :
    ((sw.setSt smi { sw.swaptab smi with st_indel := indel }).swaptab i).Roving := by
  by_cases hi : i = smi
  · rw [hi, setSt_self]
    exact h smi
  · rw [setSt_other _ hi]
    exact h i

/-- There are no pages for the counts of no pages. -/
theorem pages_nonpos {n : ℤ} (h : n ≤ 0) : (n + 1023).tdiv 1024 ≤ 0 := by
  rcases Int.lt_or_le (n + 1023) 0 with hneg | hpos
  · have hdiv : 0 ≤ (-(n + 1023)).tdiv 1024 := Int.tdiv_nonneg (by omega) (by decide)
    rw [Int.neg_tdiv] at hdiv
    omega
  · rw [Int.tdiv_eq_zero_of_lt hpos (by omega)]

theorem swapadd_kept (h : Kept s) {dev : ℕ} {lowblk nblks : ℤ} {opened : Option ℕ} {room : Bool}
    (hlo : 0 ≤ lowblk) (hhi : lowblk + nblks / 2 * 2 ≤ 2 ^ 24) {minasmem : ℤ} :
    Kept (next minasmem s (.swapadd dev lowblk nblks opened room)) := by
  have hnpgs : nblks >>> dppshft = nblks / 2 := by
    rw [Int.shiftRight_eq_div_pow]
    rfl
  unfold next swapadd
  dsimp only
  rw [hnpgs]
  split
  · rename_i i j _
    split
    · exact h.same (indel_same false) (indel_roving false h.roving) h.nextswap h.asking
    · exact h
  · exact h
  · rename_i i hfree
    have hunused : (s.sw.swaptab i).st_ucnt = none := by
      rcases addLoop_free hfree with h1 | ⟨-, h1⟩
      · exact absurd h1 nofun
      · exact h1
    have hnone : ∀ a ∈ s.live, a.smi ≠ i := by
      rintro a ha rfl
      have hplace := (h.place a ha).1
      rw [hunused] at hplace
      exact absurd hplace nofun
    split
    · refine h.file hnone (fun _ => rfl) rfl fun hc => ?_
      exact absurd hc Bool.false_ne_true
    · split
      · refine h.file hnone (fun _ => rfl) rfl fun hc => ?_
        exact absurd hc Bool.false_ne_true
      · rename_i hpgs
        have hpos : 0 ≤ nblks / 2 := by
          by_contra hneg
          apply hpgs
          rw [Bool.or_eq_true, decide_eq_true_eq]
          exact .inr (pages_nonpos (by omega))
        apply Kept.file h hnone
        · intro j
          rfl
        · rfl
        · intro _
          exact ⟨rfl, rfl, rfl, hlo, hpos, hhi⟩

theorem swapdel_kept (h : Kept s) {dev : ℕ} {lowblk minasmem : ℤ} :
    Kept (next minasmem s (.swapdel dev lowblk)) := by
  have hsw {sw : Sys} (hsw : sw = s.sw ∨ ∃ smi, sw.nextswap = s.sw.nextswap ∧ sw.swaptab =
      (s.sw.setSt smi { s.sw.swaptab smi with st_indel := true }).swaptab) {deleting : List ℕ} :
      Kept ⟨sw, s.live, s.born, s.asking, deleting⟩ := by
    rcases hsw with rfl | ⟨smi, hn, htab⟩
    · exact h.same (fun _ => ⟨rfl, rfl, rfl, rfl⟩) h.roving h.nextswap h.asking
    · apply h.same
      · intro i
        rw [htab]
        exact indel_same true i
      · rw [htab]
        exact indel_roving true h.roving
      · exact hn ▸ h.nextswap
      · exact h.asking
  have hdel : (swapdel minasmem dev lowblk s.sw).2 = s.sw ∨
      ∃ smi, (swapdel minasmem dev lowblk s.sw).2.nextswap = s.sw.nextswap ∧
        (swapdel minasmem dev lowblk s.sw).2.swaptab =
          (s.sw.setSt smi { s.sw.swaptab smi with st_indel := true }).swaptab := by
    unfold swapdel
    split
    · exact .inl rfl
    · split
      · exact .inl rfl
      · dsimp only
        split
        · exact .inl rfl
        · split
          · exact .inl rfl
          · exact .inr ⟨_, rfl, rfl⟩
  unfold next
  dsimp only
  split
  · rename_i heq
    rw [heq] at hdel
    exact hsw hdel
  · rename_i heq
    rw [heq] at hdel
    exact hsw hdel

theorem swapdelEnd_kept (h : Kept s) {minasmem : ℤ} : Kept (next minasmem s (.delend smi)) := by
  unfold next swapdelEnd
  dsimp only
  split
  · rename_i hfree
    -- no page has a descriptor
    have hnone : ∀ a ∈ s.live, a.smi ≠ smi := by
      rintro a ha rfl
      obtain ⟨u, hu, -, hpos⟩ := h.count_pos ha
      obtain ⟨-, -, -, h0, hlt⟩ := h.place a ha
      have hall := nzero_all ((h.nfpgs a.smi u hu).symm.trans hfree.1) a.pg h0 hlt
      rw [hall] at hpos
      exact absurd hpos (by decide)
    refine h.file hnone (fun _ => rfl) rfl fun hc => ?_
    exact absurd hc Bool.false_ne_true
  · exact h.same (fun _ => ⟨rfl, rfl, rfl, rfl⟩) h.roving h.nextswap h.asking

end Keeping

/-! ### The books -/

section Runs

variable {minasmem : ℤ} {s t : State} {a : Act} {as : List Act}

/-- A swap file added has block numbers of 24 bits, and `swalloc` is not called when no swap file is
usable. -/
def Sound (s : State) : Act → Prop
  | .swapadd _ lowblk nblks _ _ => 0 ≤ lowblk ∧ lowblk + nblks / 2 * 2 ≤ 2 ^ 24
  | .swalloc _ _ _ => ∃ i < msfiles, (s.sw.swaptab i).usable = true
  | _ => True

def Bstep (minasmem : ℤ) (s : State) (a : Act) (t : State) : Prop :=
  Sstep minasmem s a t ∧ Sound s a

theorem Kept.step (h : Kept s) (hstep : Bstep minasmem s a t) : Kept t ∧ HandsOut s t := by
  obtain ⟨⟨hcan, rfl⟩, hsound⟩ := hstep
  cases a with
  | swapadd dev lowblk nblks opened room =>
    exact ⟨swapadd_kept h hsound.1 hsound.2, h.handsOut fun _ ha => ha⟩
  | swalloc p size waitflag => exact turn_kept h hcan.2 (.inr hsound)
  | again p =>
    obtain ⟨size, hsize⟩ := Option.isSome_iff_exists.mp hcan.1
    unfold next
    dsimp only
    rw [hsize]
    exact turn_kept h (h.asking p size hsize) (.inl (by decide))
  | sleep p =>
    have hsame : Kept (next minasmem s (.sleep p)) := by
      unfold next
      dsimp only
      split
      · exact h
      · exact h.same (fun _ => ⟨rfl, rfl, rfl, rfl⟩) h.roving h.nextswap h.asking
    refine ⟨hsame, h.handsOut fun b hb => ?_⟩
    unfold next at hb
    dsimp only at hb
    split at hb <;> exact hb
  | swpinc b =>
    refine ⟨swpinc_kept h hcan, h.handsOut fun c hc => ?_⟩
    unfold next at hc
    dsimp only at hc
    split at hc
    · rcases mem_cons.mp hc with rfl | hc
      · exact hcan
      · exact hc
    · exact hc
  | swfree1 b => exact ⟨swfree1_kept h hcan, h.handsOut fun _ hc => mem_of_mem_erase hc⟩
  | swapdel dev lowblk =>
    refine ⟨swapdel_kept h, h.handsOut fun b hb => ?_⟩
    unfold next at hb
    dsimp only at hb
    split at hb <;> exact hb
  | delend smi => exact ⟨swapdelEnd_kept h, h.handsOut fun _ ha => ha⟩
  | avail n =>
    exact ⟨h.same (fun _ => ⟨rfl, rfl, rfl, rfl⟩) h.roving h.nextswap h.asking, h.handsOut fun _ ha => ha⟩

theorem boot_kept : Kept boot :=
  ⟨⟨nofun, nofun, nofun, nofun⟩, by decide, fun _ h => absurd h Bool.false_ne_true,
    fun _ h => absurd h Bool.false_ne_true, nofun, nofun⟩

/-- Over every run in which each swap file added has block numbers of 24 bits, and `swalloc` is
called only when there is a usable swap file: the books are right, and `swalloc` hands out only pages
that were free. -/
theorem swap_booked (hr : Run (Bstep minasmem) boot as s) : Booked s ∧
    ∀ a t, Bstep minasmem s a t → HandsOut s t := by
  have hkept : Kept s := hr.invariant (fun s a t hs hstep => (hs.step hstep).1) boot_kept
  exact ⟨hkept.toBooked, fun a t hstep => (hkept.step hstep).2⟩

/-- A swap file of four pages, and two of them taken. -/
theorem swap_booked_two : ∃ s, Run (Bstep 0) boot
    [.swapadd 0 100 8 none true, .swalloc 1 2 false] s ∧ s.live.length = 2 ∧ Booked s := by
  have h1 : Bstep 0 boot (.swapadd 0 100 8 none true) _ :=
    ⟨⟨trivial, rfl⟩, by decide, by decide⟩
  have hr := (Run.single h1).snoc (a := Act.swalloc 1 2 false)
    ⟨⟨⟨rfl, by decide⟩, rfl⟩, 0, by decide, rfl⟩
  exact ⟨_, hr, rfl, (swap_booked hr).1⟩

/-- Without a swap file `swalloc` hands out a page all the same; and a block number of more than 24
bits does not lead back to its page. -/
theorem swap_books_fail :
    (∃ s, Run (Sstep 0) boot [.swalloc 1 1 false] s ∧ ¬ HandsOut boot s ∧ ¬ Booked s) ∧
    ∃ s, Run (Sstep 0) boot [.swapadd 0 (2 ^ 24) 8 none true, .swalloc 1 1 false] s ∧
      ¬ Booked s := by
  have h1 : Sstep 0 boot (.swalloc 1 1 false) _ := ⟨⟨rfl, by decide⟩, rfl⟩
  have h2 : Sstep 0 boot (.swapadd 0 (2 ^ 24) 8 none true) _ := ⟨trivial, rfl⟩
  have hr := (Run.single h2).snoc (a := Act.swalloc 1 1 false) ⟨⟨rfl, by decide⟩, rfl⟩
  refine ⟨⟨_, .single h1, fun h => ?_, fun h => ?_⟩, _, hr, fun h => ?_⟩
  · obtain ⟨u, w, hu, -⟩ := h _ mem_cons_self (Nat.zero_le _)
    exact absurd hu nofun
  · exact absurd (h.place _ mem_cons_self).1 (by decide)
  · exact absurd (h.place _ mem_cons_self).2.2.1 (by decide)

end Runs

end Svr3.Swap
