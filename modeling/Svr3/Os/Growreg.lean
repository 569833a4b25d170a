import Svr3.Os.PregionRun
import Mathlib.Order.Lattice.Nat

/-!
# `growreg` of `os/region.c`, with the addresses of the tables

The regions of `Svr3.Region` say which entries of a list are not NULL. Here they hold addresses, of
areas that `sptalloc` gives out and `sptfree` takes back, so that a pointer to an area that is free can
be told from others.
-/

namespace Svr3.Growreg

open Function

open Region (Conf Reg Preg Grown short caddr ctos ctost stoc stob chkgrowth below above)

/-! ## Areas of the kernel -/

/-- The memory, and the addresses of the areas that are given out. -/
structure Areas where
  mem : Region.Mem
  live : Finset ℕ

/-- The address that `malloc(sptmap, size)` finds, in bytes: it is not 0, and is not in use. -/
structure Sptmap where
  find : Finset ℕ → ℤ → ℕ
  find_ne_zero : ∀ live size, find live size ≠ 0
  find_free : ∀ live size, find live size ∉ live

/-- `sptalloc(size, PG_VALID, 0)`; NULL is 0. -/
def sptalloc (c : Conf) (sp : Sptmap) (size : ℤ) (a : Areas) : ℕ × Areas :=
  match Region.sptalloc c size a.mem with
  | (false, m) => (0, ⟨m, a.live⟩)
  | (true, m) => (sp.find a.live size, ⟨m, insert (sp.find a.live size) a.live⟩)

/-- `sptfree(vaddr, size, 1)` -/
def sptfree (vaddr : ℕ) (size : ℤ) (a : Areas) : Areas :=
  ⟨Region.sptfree size a.mem, a.live.erase vaddr⟩

/-! ## Regions -/

/-- A region: the address of its list, and the entries of the list. -/
structure Region where
  r_list : ℕ
  pt : ℕ → ℕ
  r_listsz : ℤ
  r_pgsz : ℤ
  r_pgoff : ℤ
  r_noswapcnt : ℤ

/-- The table that has the entry of a page, and the place of the entry in it. -/
def Region.pte (b : Region) (page : ℕ) : ℕ × ℕ := (b.pt (page / 256), page % 256)

/-- What `Svr3.Region` has of a region that one process uses. -/
def Region.reg (b : Region) : Reg where
  rg_nofree := false
  rg_sswapmem := false
  r_type := .rtPrivate
  r_listsz := b.r_listsz
  r_pgsz := b.r_pgsz
  r_pgoff := b.r_pgoff
  r_refcnt := 1
  r_noswapcnt := b.r_noswapcnt
  r_filesz := 0
  r_list := fun j => b.pt j ≠ 0

/-- The regions, the list and the size of a process, and the areas. -/
structure Space (r : ℕ) where
  reg : Fin r → Region
  p_region : List (Preg r)
  p_size : ℤ
  areas : Areas

variable {r : ℕ}

/-! ## `ptexpand` -/

/-- `osize` in `ptexpand`. -/
def Region.osize (b : Region) (lotohi : Bool) : ℤ :=
  if lotohi then b.r_pgoff + b.r_pgsz else b.r_pgsz

/-- The larger list of `ptexpand`. -/
def growList (c : Conf) (sp : Sptmap) (osize nsize : ℤ) (b : Region) (a : Areas) :
    Bool × Region × Areas :=
  let i := ctos (ctos nsize)
  if i > b.r_listsz then
    match sptalloc c sp i a with
    | (lp2, a) =>
      if lp2 = 0 then (false, b, a)
      else
        (true, { b with
            r_list := lp2
            pt := fun j => if b.r_list ≠ 0 ∧ j < (ctos osize).toNat then b.pt j else 0
            r_listsz := short i },
          if b.r_list ≠ 0 then sptfree b.r_list b.r_listsz a else a)
  else (true, b, a)

/-- The loop that moves the first entries of a list up by `diff`, from the last of them on. -/
def moveUp (diff : ℕ) : ℕ → (ℕ → ℕ) → ℕ → ℕ
  | 0, pt => pt
  | k + 1, pt => moveUp diff k (update pt (k + diff) (pt k))

/-- `while (--lp >= lp1) sptfree(*lp, 2, 1)`, where `lp` is `k` entries after the entry `lp1`. -/
def dropTables (pt : ℕ → ℕ) (lp1 : ℕ) : ℕ → Areas → Areas
  | 0, a => a
  | k + 1, a => dropTables pt lp1 k (sptfree (pt (lp1 + k)) 2 a)

/-- The loop that allocates the next `k` tables, for the entries from `lp` on. -/
def getTables (c : Conf) (sp : Sptmap) (lp1 : ℕ) :
    ℕ → ℕ → (ℕ → ℕ) → Areas → Bool × (ℕ → ℕ) × Areas
  | 0, _, pt, a => (true, pt, a)
  | k + 1, lp, pt, a =>
    match sptalloc c sp 2 a with
    | (p, a) =>
      let pt := update pt lp p
      if p = 0 then (false, pt, dropTables pt lp1 (lp - lp1) a)
      else getTables c sp lp1 k (lp + 1) pt a

/-- The first entry that `ptexpand` makes a table for. -/
def Region.slot (b : Region) (osize : ℤ) (lotohi : Bool) : ℕ :=
  if lotohi then (if b.r_pgsz ≠ 0 then ctos osize else ctost osize).toNat else 0

/-- The tables that `ptexpand` allocates, after it has moved those of a stack up. -/
def growTables (c : Conf) (sp : Sptmap) (osize nsize : ℤ) (lotohi : Bool) (b : Region) (p_regva : ℤ)
    (a : Areas) : Bool × Region × ℤ × Areas :=
  let hi := (ctos nsize).toNat
  let lp := b.slot osize lotohi
  if lotohi then
    match getTables c sp lp (hi - lp) lp b.pt a with
    | (ok, pt, a) => (ok, { b with pt := pt }, p_regva, a)
  else
    let diff := hi - (ctos osize).toNat
    match getTables c sp lp (diff - lp) lp (moveUp diff (ctos osize).toNat b.pt) a with
    | (ok, pt, a) =>
      (ok, { b with pt := pt, r_pgoff := short (b.r_pgoff + stoc diff) },
        caddr (p_regva - stob diff), a)

/-- `ptexpand(prp, change, lotohi)` of a positive change. -/
def ptexpand (c : Conf) (sp : Sptmap) (change : ℤ) (lotohi : Bool) (b : Region) (p_regva : ℤ)
    (a : Areas) : Bool × Region × ℤ × Areas :=
  match growList c sp (b.osize lotohi) (b.osize lotohi + change) b a with
  | (false, b', a) => (false, b', p_regva, a)
  | (true, b', a) =>
    match growTables c sp (b.osize lotohi) (b.osize lotohi + change) lotohi b' p_regva a with
    | (false, b', p_regva, a) => (false, b', p_regva, a)
    | (true, b', p_regva, a) =>
      (true, if lotohi then b' else { b' with r_pgoff := short (b'.r_pgoff - change) }, p_regva, a)

/-! ## `growreg` -/

/-- The pages are spoken for, in memory too when the region is not swapped out. -/
def Areas.charge (change : ℤ) (b : Region) (a : Areas) : Areas :=
  { a with mem := a.mem.charge change b.reg }

/-- What has become of the region of an entry, of its `p_regva` and of the areas. -/
def Space.put (i : ℕ) (prp : Preg r) (b : Region) (p_regva : ℤ) (a : Areas) (s : Space r) : Space r :=
  { s with
    reg := update s.reg prp.p_reg b
    p_region := s.p_region.set i { prp with p_regva := p_regva }
    areas := a }

/-- `growreg` does not come to `ptexpand`. -/
def Refused (c : Conf) (s : Space r) (i : ℕ) (prp : Preg r) (change : ℤ) : Prop :=
  s.areas.mem.availsmem - change < c.t_minasmem ∨
    (s.reg prp.p_reg).r_noswapcnt ≠ 0 ∧ s.areas.mem.availrmem - change < c.t_minarmem ∨
    chkgrowth (fun rp => (s.reg rp).reg) (below s.p_region i) (above s.p_region i) prp change
      prp.lotohi = true

instance (c : Conf) (s : Space r) (i : ℕ) (prp : Preg r) (change : ℤ) :
    Decidable (Refused c s i prp change) :=
  inferInstanceAs (Decidable (_ ∨ _ ∨ _))

/-- `growreg(prp, change, type)` of a positive change on the entry `i` of the process, where `type`
matters to the new pages only -/
def growreg (c : Conf) (sp : Sptmap) (i : ℕ) (prp : Preg r) (change : ℤ) (s : Space r) :
    Grown × Space r :=
  if s.areas.mem.availsmem - change < c.t_minasmem then (.failed, s)
  else if (s.reg prp.p_reg).r_noswapcnt ≠ 0 ∧ s.areas.mem.availrmem - change < c.t_minarmem then
    (.failed, s)
  else if chkgrowth (fun rp => (s.reg rp).reg) (below s.p_region i) (above s.p_region i) prp change
      prp.lotohi then
    (.failed, s)
  else
    match ptexpand c sp change prp.lotohi (s.reg prp.p_reg) prp.p_regva s.areas with
    | (false, b, p_regva, a) => (.failed, s.put i prp b p_regva a)
    | (true, b, p_regva, a) =>
      (.grown, { s.put i prp { b with r_pgsz := short (b.r_pgsz + change) } p_regva
          (a.charge change b) with
        p_size := s.p_size + change })

/-! ## What the allocations leave behind -/

/-- The areas are the same, and so are the counters; other allocations may succeed. -/
structure Areas.Same (a b : Areas) : Prop where
  availsmem : a.mem.availsmem = b.mem.availsmem
  availrmem : a.mem.availrmem = b.mem.availrmem
  live : a.live = b.live

theorem Areas.Same.refl (a : Areas) : a.Same a := ⟨rfl, rfl, rfl⟩

theorem Areas.Same.trans {a b d : Areas} (h : a.Same b) (h' : b.Same d) : a.Same d :=
  ⟨h.availsmem.trans h'.availsmem, h.availrmem.trans h'.availrmem, h.live.trans h'.live⟩

section Alloc

variable {c : Conf} {sp : Sptmap} {a a' : Areas} {pt pt' : ℕ → ℕ} {lp1 lp k : ℕ} {ok : Bool}

/-- An area was there, and is given out. -/
structure Got (sp : Sptmap) (size : ℤ) (a b : Areas) : Prop where
  availsmem : b.mem.availsmem = a.mem.availsmem - size
  availrmem : b.mem.availrmem = a.mem.availrmem - size
  live : b.live = insert (sp.find a.live size) a.live

theorem sptalloc_cases (c : Conf) (sp : Sptmap) (size : ℤ) (a : Areas) :
    (∃ b, sptalloc c sp size a = (0, b) ∧ b.Same a) ∨
      ∃ b, sptalloc c sp size a = (sp.find a.live size, b) ∧ Got sp size a b := by
  unfold sptalloc Region.sptalloc
  cases a.mem.vm with
  | nil => exact .inl ⟨_, rfl, .refl a⟩
  | cons v vm =>
    cases v with
    | false => exact .inl ⟨_, rfl, rfl, rfl, rfl⟩
    | true =>
      by_cases hsmem : a.mem.availsmem - size < c.t_minasmem
      · simp only [if_pos hsmem]
        exact .inl ⟨_, rfl, rfl, rfl, rfl⟩
      · by_cases hrmem : a.mem.availrmem - size < c.t_minarmem
        · simp only [if_neg hsmem, if_pos hrmem]
          exact .inl ⟨_, rfl, rfl, rfl, rfl⟩
        · simp only [if_neg hsmem, if_neg hrmem]
          exact .inr ⟨_, rfl, rfl, rfl, rfl⟩

theorem Areas.Same.sptfree {b : Areas} (h : a.Same b) (vaddr : ℕ) (size : ℤ) :
    (sptfree vaddr size a).Same (sptfree vaddr size b) := by
  refine ⟨?_, ?_, ?_⟩
  · show a.mem.availsmem + size = b.mem.availsmem + size
    rw [h.availsmem]
  · show a.mem.availrmem + size = b.mem.availrmem + size
    rw [h.availrmem]
  · show a.live.erase vaddr = b.live.erase vaddr
    rw [h.live]

/-- An area that is given back at once. -/
theorem Got.sptfree {b : Areas} {size : ℤ} (h : Got sp size a b) :
    (sptfree (sp.find a.live size) size b).Same a := by
  refine ⟨?_, ?_, ?_⟩
  · show b.mem.availsmem + size = _
    rw [h.availsmem]
    omega
  · show b.mem.availrmem + size = _
    rw [h.availrmem]
    omega
  · show b.live.erase _ = _
    rw [h.live, Finset.erase_insert (sp.find_free a.live size)]

theorem dropTables_same {b : Areas} (pt : ℕ → ℕ) (lp1 k : ℕ) (h : a.Same b) :
    (dropTables pt lp1 k a).Same (dropTables pt lp1 k b) := by
  induction k generalizing a b with
  | zero => exact h
  | succ k ih => exact ih (h.sptfree _ _)

theorem dropTables_succ (pt : ℕ → ℕ) (lp1 k : ℕ) (a : Areas) :
    dropTables pt lp1 (k + 1) a = dropTables pt lp1 k (sptfree (pt (lp1 + k)) 2 a) := rfl

/-- The loop that frees tables reads their entries only. -/
theorem dropTables_congr (h : ∀ j, j < k → pt (lp1 + j) = pt' (lp1 + j)) (a : Areas) :
    dropTables pt lp1 k a = dropTables pt' lp1 k a := by
  induction k generalizing a with
  | zero => rfl
  | succ k ih =>
    rw [dropTables_succ, dropTables_succ, h k (Nat.lt_succ_self k)]
    exact ih (fun j hj => h j (Nat.lt_succ_of_lt hj)) _

/-- The tables of the entries before `lp` are freed when there is none for `lp`. -/
theorem dropTables_update (hlp : lp1 ≤ lp) (p : ℕ) (a : Areas) :
    dropTables (update pt lp p) lp1 (lp - lp1) a = dropTables pt lp1 (lp - lp1) a := by
  refine dropTables_congr (fun j hj => ?_) a
  have hne : lp1 + j ≠ lp := by omega
  rw [update_of_ne hne]

/-- When a table is missing, the areas are as they were before the first; the entry that the loop came
to first is NULL, or points to the table that was made for it. -/
theorem getTables_fails (hlp : lp1 ≤ lp) (h : getTables c sp lp1 k lp pt a = (false, pt', a')) :
    a'.Same (dropTables pt lp1 (lp - lp1) a) ∧ (∀ j, j < lp → pt' j = pt j) ∧
      ((sptalloc c sp 2 a).1 = 0 ∧ pt' = update pt lp 0 ∨
        (sptalloc c sp 2 a).1 ≠ 0 ∧ pt' lp = sp.find a.live 2) := by
  induction k generalizing lp pt a with
  | zero => exact absurd h nofun
  | succ k ih =>
    unfold getTables at h
    rcases sptalloc_cases c sp 2 a with ⟨b, hb, hsame⟩ | ⟨b, hb, hgot⟩
    · rw [hb] at h ⊢
      simp only [if_true] at h
      cases h
      refine ⟨?_, fun j hj => update_of_ne (Nat.ne_of_lt hj) _ _, .inl ⟨rfl, rfl⟩⟩
      rw [dropTables_update hlp]
      exact dropTables_same pt lp1 _ hsame
    · rw [hb] at h ⊢
      simp only [if_neg (sp.find_ne_zero a.live 2)] at h
      have hrest := ih (Nat.le_succ_of_le hlp) h
      have hdrop : dropTables (update pt lp (sp.find a.live 2)) lp1 (lp + 1 - lp1) b =
          dropTables pt lp1 (lp - lp1) (sptfree (sp.find a.live 2) 2 b) := by
        have hlen : lp + 1 - lp1 = lp - lp1 + 1 := by omega
        have hend : lp1 + (lp - lp1) = lp := by omega
        rw [hlen, dropTables_succ, hend, update_self]
        exact dropTables_update hlp _ _
      refine ⟨?_, fun j hj => ?_, .inr ⟨sp.find_ne_zero a.live 2, ?_⟩⟩
      · rw [hdrop] at hrest
        exact hrest.1.trans (dropTables_same pt lp1 _ hgot.sptfree)
      · rw [hrest.2.1 j (by omega), update_of_ne (Nat.ne_of_lt hj)]
      · rw [hrest.2.1 lp (Nat.lt_succ_self lp), update_self]

end Alloc

/-! ## A failure of `ptexpand` -/

section Expand

variable {c : Conf} {sp : Sptmap} {a a' : Areas} {b b' : Region} {osize nsize change : ℤ}
  {p_regva p_regva' : ℤ} {lotohi : Bool}

/-- What a loop that fails has made of the entries: the first is NULL, or points to a table that is
free again. -/
def Spoiled (c : Conf) (sp : Sptmap) (a : Areas) (slot : ℕ) (pt pt' : ℕ → ℕ) : Prop :=
  (sptalloc c sp 2 a).1 = 0 ∧ pt' = update pt slot 0 ∨
    (sptalloc c sp 2 a).1 ≠ 0 ∧ pt' slot = sp.find a.live 2

theorem growTables_up (h : growTables c sp osize nsize true b p_regva a = (false, b', p_regva', a')) :
    a'.Same a ∧ p_regva' = p_regva ∧
      ∃ pt', Spoiled c sp a (b.slot osize true) b.pt pt' ∧ b' = { b with pt := pt' } := by
  unfold growTables at h
  simp only [if_true] at h
  generalize hget : getTables c sp (b.slot osize true) _ _ b.pt a = g at h
  obtain ⟨ok, pt', a1⟩ := g
  cases h
  have hfail := getTables_fails (Nat.le_refl _) hget
  rw [Nat.sub_self] at hfail
  exact ⟨hfail.1, rfl, pt', hfail.2.2, rfl⟩

theorem growTables_down (h : growTables c sp osize nsize false b p_regva a = (false, b', p_regva', a')) :
    a'.Same a ∧ p_regva' = caddr (p_regva - stob ((ctos nsize).toNat - (ctos osize).toNat : ℕ)) ∧
      ∃ pt', Spoiled c sp a 0
          (moveUp ((ctos nsize).toNat - (ctos osize).toNat) (ctos osize).toNat b.pt) pt' ∧
        b' = { b with
          pt := pt'
          r_pgoff := short (b.r_pgoff + stoc ((ctos nsize).toNat - (ctos osize).toNat : ℕ)) } := by
  unfold growTables at h
  simp only [if_neg Bool.false_ne_true] at h
  generalize hget : getTables c sp (b.slot osize false) _ _ _ a = g at h
  obtain ⟨ok, pt', a1⟩ := g
  cases h
  have hfail := getTables_fails (Nat.le_refl _) hget
  rw [Nat.sub_self] at hfail
  exact ⟨hfail.1, rfl, pt', hfail.2.2, rfl⟩

/-- A larger list is needed. -/
def Region.Longer (b : Region) (lotohi : Bool) (change : ℤ) : Prop :=
  ctos (ctos (b.osize lotohi + change)) > b.r_listsz

instance (b : Region) (lotohi : Bool) (change : ℤ) : Decidable (b.Longer lotohi change) :=
  inferInstanceAs (Decidable (_ > _))

/-- The size of the first area that `ptexpand` asks for. -/
def Region.first (b : Region) (lotohi : Bool) (change : ℤ) : ℤ :=
  if b.Longer lotohi change then ctos (ctos (b.osize lotohi + change)) else 2

theorem growList_none (hlonger : b.Longer lotohi change)
    (h : (sptalloc c sp (b.first lotohi change) a).1 = 0) :
    ∃ a', growList c sp (b.osize lotohi) (b.osize lotohi + change) b a = (false, b, a') ∧
      a'.Same a := by
  unfold Region.first at h
  rw [if_pos hlonger] at h
  unfold growList
  simp only [if_pos (show ctos (ctos (b.osize lotohi + change)) > b.r_listsz from hlonger)]
  rcases sptalloc_cases c sp (ctos (ctos (b.osize lotohi + change))) a with ⟨a1, ha, hsame⟩ | ⟨a1, ha, -⟩
  · rw [ha]
    exact ⟨a1, rfl, hsame⟩
  · rw [ha] at h
    exact absurd h (sp.find_ne_zero _ _)

/-- A larger list takes more memory than the list before. -/
theorem growList_some (hlonger : b.Longer lotohi change) (hlist : b.r_list = 0 → b.r_listsz = 0)
    (h : (sptalloc c sp (b.first lotohi change) a).1 ≠ 0) :
    ∃ b' a', growList c sp (b.osize lotohi) (b.osize lotohi + change) b a = (true, b', a') ∧
      a'.mem.availsmem < a.mem.availsmem := by
  unfold Region.first at h
  rw [if_pos hlonger] at h
  unfold growList
  unfold Region.Longer at hlonger
  simp only [if_pos hlonger]
  rcases sptalloc_cases c sp (ctos (ctos (b.osize lotohi + change))) a with ⟨a1, ha, -⟩ | ⟨a1, ha, hgot⟩
  · rw [ha] at h
    exact absurd rfl h
  · rw [ha]
    simp only [if_neg (sp.find_ne_zero a.live _)]
    refine ⟨_, _, rfl, ?_⟩
    have hless := hgot.availsmem
    by_cases h0 : b.r_list = 0
    · have hsz := hlist h0
      rw [if_neg (not_not.mpr h0)]
      omega
    · rw [if_pos h0]
      show a1.mem.availsmem + b.r_listsz < a.mem.availsmem
      omega

/-- Where `ptexpand` fails: before a larger list, or after it, or when it needs none. -/
theorem ptexpand_fails (hlist : b.r_list = 0 → b.r_listsz = 0)
    (h : ptexpand c sp change lotohi b p_regva a = (false, b', p_regva', a')) :
    b.Longer lotohi change ∧ (sptalloc c sp (b.first lotohi change) a).1 = 0 ∧ b' = b ∧
        p_regva' = p_regva ∧ a'.Same a ∨
      b.Longer lotohi change ∧ (sptalloc c sp (b.first lotohi change) a).1 ≠ 0 ∧
        a'.mem.availsmem < a.mem.availsmem ∨
      ¬b.Longer lotohi change ∧
        growTables c sp (b.osize lotohi) (b.osize lotohi + change) lotohi b p_regva a =
          (false, b', p_regva', a') := by
  unfold ptexpand at h
  by_cases hlonger : b.Longer lotohi change
  · by_cases hfirst : (sptalloc c sp (b.first lotohi change) a).1 = 0
    · obtain ⟨a1, hgrow, hsame⟩ := growList_none hlonger hfirst
      rw [hgrow] at h
      cases h
      exact .inl ⟨hlonger, hfirst, rfl, rfl, hsame⟩
    · obtain ⟨b1, a1, hgrow, hless⟩ := growList_some hlonger hlist hfirst
      rw [hgrow] at h
      simp only at h
      split at h
      next b2 va a2 htables =>
        cases h
        have hsame : a'.Same a1 := by
          cases lotohi with
          | true => exact (growTables_up htables).1
          | false => exact (growTables_down htables).1
        rw [← hsame.availsmem] at hless
        exact .inr (.inl ⟨hlonger, hfirst, hless⟩)
      next => exact absurd h nofun
  · have hgrow : growList c sp (b.osize lotohi) (b.osize lotohi + change) b a = (true, b, a) :=
      if_neg hlonger
    rw [hgrow] at h
    simp only at h
    split at h
    next b2 va a2 htables =>
      cases h
      exact .inr (.inr ⟨hlonger, htables⟩)
    next => exact absurd h nofun

end Expand

/-! ## The addresses forgotten -/

/-! ## A failed `growreg` -/

section Failed

variable {c : Conf} {sp : Sptmap} {s t : Space r} {i : ℕ} {prp : Preg r} {change : ℤ}

/-- What holds of a region that `growreg` is called for: the fields have the values of their types, it
has pages from 0 on, its entries are the tables it has, and a stack with pages has a first one. -/
structure Valid (s : Space r) (i : ℕ) (prp : Preg r) : Prop where
  entry : s.p_region[i]? = some prp
  pgsz : 0 ≤ (s.reg prp.p_reg).r_pgsz ∧ (s.reg prp.p_reg).r_pgsz < 32768
  pgoff : 0 ≤ (s.reg prp.p_reg).r_pgoff ∧ (s.reg prp.p_reg).r_pgoff < 32768
  regva : 0 ≤ prp.p_regva ∧ prp.p_regva < 4294967296
  list : (s.reg prp.p_reg).r_list = 0 ↔ (s.reg prp.p_reg).r_listsz = 0
  empty : (s.reg prp.p_reg).r_list = 0 → ∀ j, (s.reg prp.p_reg).pt j = 0
  live : ∀ j, (s.reg prp.p_reg).pt j ≠ 0 → (s.reg prp.p_reg).pt j ∈ s.areas.live
  first : prp.lotohi = false → (s.reg prp.p_reg).r_pgsz ≠ 0 → (s.reg prp.p_reg).pt 0 ≠ 0

/-- From `s` to `t` nothing has changed of the region of an entry, and no entry of its list points to
a table that is free. -/
structure Unchanged (s t : Space r) (i : ℕ) (prp : Preg r) : Prop where
  pgsz : (t.reg prp.p_reg).r_pgsz = (s.reg prp.p_reg).r_pgsz
  pgoff : (t.reg prp.p_reg).r_pgoff = (s.reg prp.p_reg).r_pgoff
  regva : (t.p_region[i]?).map Preg.p_regva = some prp.p_regva
  pte : ∀ page, (t.reg prp.p_reg).pte page = (s.reg prp.p_reg).pte page
  live : ∀ j, (t.reg prp.p_reg).pt j ≠ 0 → (t.reg prp.p_reg).pt j ∈ t.areas.live
  availsmem : t.areas.mem.availsmem = s.areas.mem.availsmem
  availrmem : t.areas.mem.availrmem = s.areas.mem.availrmem
  p_size : t.p_size = s.p_size

/-- The growth is refused, or the first allocation fails, of a larger list or of the table of an entry
that is NULL; for a stack the segments must come to whole turns of the address space, too. -/
def Clean (c : Conf) (sp : Sptmap) (s : Space r) (i : ℕ) (prp : Preg r) (change : ℤ) : Prop :=
  let b := s.reg prp.p_reg
  Refused c s i prp change ∨
    (sptalloc c sp (b.first prp.lotohi change) s.areas).1 = 0 ∧
      (b.Longer prp.lotohi change ∨
        b.pt (b.slot (b.osize prp.lotohi) prp.lotohi) = 0 ∧
          (prp.lotohi = true ∨ b.r_pgsz = 0 ∧ 16384 ∣ ctos change))

theorem Valid.unchanged (h : Valid s i prp) : Unchanged s s i prp := by
  refine ⟨rfl, rfl, ?_, fun _ => rfl, h.live, rfl, rfl, rfl⟩
  rw [h.entry]
  rfl

/-- What a failure has made of the process, for the region of the entry. -/
theorem Valid.unchanged_put {b : Region} {p_regva : ℤ} {a : Areas} (h : Valid s i prp)
    (hsame : a.Same s.areas) :
    Unchanged s (s.put i prp b p_regva a) i prp ↔
      b.r_pgsz = (s.reg prp.p_reg).r_pgsz ∧ b.r_pgoff = (s.reg prp.p_reg).r_pgoff ∧
        p_regva = prp.p_regva ∧ b.pt = (s.reg prp.p_reg).pt := by
  have hreg : (s.put i prp b p_regva a).reg prp.p_reg = b := update_self _ _ _
  have hentry : ((s.put i prp b p_regva a).p_region[i]?).map Preg.p_regva = some p_regva := by
    have hi : i < s.p_region.length := (List.getElem?_eq_some_iff.mp h.entry).1
    show ((s.p_region.set i { prp with p_regva := p_regva })[i]?).map Preg.p_regva = _
    rw [List.getElem?_set_self hi]
    rfl
  constructor
  · intro hu
    have hpgsz := hu.pgsz
    have hpgoff := hu.pgoff
    have hregva := hu.regva
    have hpte := hu.pte
    rw [hreg] at hpgsz hpgoff
    rw [hentry] at hregva
    rw [hreg] at hpte
    refine ⟨hpgsz, hpgoff, Option.some.inj hregva, ?_⟩
    funext j
    have hj := congrArg Prod.fst (hpte (256 * j))
    have hdiv : 256 * j / 256 = j := by omega
    unfold Region.pte at hj
    rw [hdiv] at hj
    exact hj
  · rintro ⟨hpgsz, hpgoff, hregva, hpt⟩
    refine ⟨?_, ?_, ?_, fun page => ?_, fun j hj => ?_, hsame.availsmem, hsame.availrmem, rfl⟩
    · rw [hreg, hpgsz]
    · rw [hreg, hpgoff]
    · rw [hentry, hregva]
    · unfold Region.pte
      rw [hreg, hpt]
    · rw [hreg, hpt] at hj ⊢
      show _ ∈ a.live
      rw [hsame.live]
      exact h.live j hj

/-- The loop has left the entries as they were when the first table was missing, for an entry that
was NULL. -/
theorem Spoiled.iff {a : Areas} {slot : ℕ} {pt pt' : ℕ → ℕ} (h : Spoiled c sp a slot pt pt')
    (hlive : ∀ j, pt j ≠ 0 → pt j ∈ a.live) :
    pt' = pt ↔ (sptalloc c sp 2 a).1 = 0 ∧ pt slot = 0 := by
  rcases h with ⟨hnone, hpt⟩ | ⟨hsome, hpt⟩
  · rw [hpt]
    constructor
    · intro heq
      have hslot := congrFun heq slot
      rw [update_self] at hslot
      exact ⟨hnone, hslot.symm⟩
    · rintro ⟨-, hslot⟩
      rw [← hslot, update_eq_self]
  · constructor
    · intro heq
      rw [heq] at hpt
      have hne : pt slot ≠ 0 := by
        rw [hpt]
        exact sp.find_ne_zero _ _
      have hin := hlive slot hne
      rw [hpt] at hin
      exact absurd hin (sp.find_free _ _)
    · rintro ⟨hnone, -⟩
      exact absurd hnone hsome

/-- The address space comes to the same address after 16384 segments. -/
theorem caddr_stob {va : ℤ} (h0 : 0 ≤ va) (h1 : va < 4294967296) (d : ℕ) :
    caddr (va - stob d) = va ↔ (16384 : ℤ) ∣ d := by
  unfold caddr stob Region.caddr
  omega

theorem short_stoc {x : ℤ} (h0 : 0 ≤ x) (h1 : x < 32768) {d : ℤ} (h : 16384 ∣ d) :
    short (x + stoc d) = x := by
  obtain ⟨e, rfl⟩ := h
  have hx : short x = x := Region.short_of_lt (by omega) h1
  have hmul : x + stoc (16384 * e) = x + (65536 : ℕ) * (64 * e) := by
    unfold stoc Region.ncps
    omega
  rw [hmul]
  unfold short at hx ⊢
  rw [Int.add_mul_bmod_self_left, hx]

/-- A stack whose table is missing stays as it was only when it has no pages, and moves by whole
turns. -/
theorem Valid.stack_iff {pt' : ℕ → ℕ} {d : ℕ} (h : Valid s i prp) (hstack : prp.lotohi = false)
    (hpos : 0 < change)
    (hd : d = (ctos ((s.reg prp.p_reg).r_pgsz + change)).toNat -
      (ctos (s.reg prp.p_reg).r_pgsz).toNat)
    (hpt : Spoiled c sp s.areas 0
      (moveUp d (ctos (s.reg prp.p_reg).r_pgsz).toNat (s.reg prp.p_reg).pt) pt') :
    (short ((s.reg prp.p_reg).r_pgoff + stoc d) = (s.reg prp.p_reg).r_pgoff ∧
        caddr (prp.p_regva - stob d) = prp.p_regva ∧ pt' = (s.reg prp.p_reg).pt) ↔
      (sptalloc c sp 2 s.areas).1 = 0 ∧ (s.reg prp.p_reg).pt 0 = 0 ∧
        (s.reg prp.p_reg).r_pgsz = 0 ∧ 16384 ∣ ctos change := by
  rw [caddr_stob h.regva.1 h.regva.2]
  -- with pages, the first entry comes to be NULL or the address of a new table
  have hpages : (s.reg prp.p_reg).r_pgsz ≠ 0 → pt' ≠ (s.reg prp.p_reg).pt := by
    intro hne heq
    have h0 := h.first hstack hne
    rcases hpt with ⟨-, hnull⟩ | ⟨-, hnew⟩
    · rw [hnull] at heq
      have hslot := congrFun heq 0
      rw [update_self] at hslot
      exact h0 hslot.symm
    · rw [heq] at hnew
      have hin := h.live 0 h0
      rw [hnew] at hin
      exact sp.find_free _ _ hin
  by_cases hzero : (s.reg prp.p_reg).r_pgsz = 0
  · have hctos : ctos 0 = 0 := by decide
    have hstart : moveUp d (ctos (s.reg prp.p_reg).r_pgsz).toNat (s.reg prp.p_reg).pt =
        (s.reg prp.p_reg).pt := by
      rw [hzero, hctos]
      rfl
    have hdiff : (d : ℤ) = ctos change := by
      have hnonneg := Region.ctos_nonneg (x := change) (by omega)
      rw [hd, hzero, hctos, Int.zero_add]
      omega
    rw [hstart] at hpt
    rw [hpt.iff h.live, hdiff]
    constructor
    · rintro ⟨-, hdvd, hnone, hnull⟩
      exact ⟨hnone, hnull, hzero, hdvd⟩
    · rintro ⟨hnone, hnull, -, hdvd⟩
      exact ⟨short_stoc h.pgoff.1 h.pgoff.2 hdvd, hdvd, hnone, hnull⟩
  · constructor
    · rintro ⟨-, -, heq⟩
      exact absurd heq (hpages hzero)
    · rintro ⟨-, -, h0, -⟩
      exact absurd h0 hzero

/-- What `ptexpand` has made of the region when it fails. -/
theorem Valid.ptexpand_iff {b : Region} {p_regva : ℤ} {a : Areas} (h : Valid s i prp)
    (hpos : 0 < change)
    (hfail : ptexpand c sp change prp.lotohi (s.reg prp.p_reg) prp.p_regva s.areas =
      (false, b, p_regva, a)) :
    Unchanged s (s.put i prp b p_regva a) i prp ↔
      (sptalloc c sp ((s.reg prp.p_reg).first prp.lotohi change) s.areas).1 = 0 ∧
        ((s.reg prp.p_reg).Longer prp.lotohi change ∨
          (s.reg prp.p_reg).pt
              ((s.reg prp.p_reg).slot ((s.reg prp.p_reg).osize prp.lotohi) prp.lotohi) = 0 ∧
            (prp.lotohi = true ∨ (s.reg prp.p_reg).r_pgsz = 0 ∧ 16384 ∣ ctos change)) := by
  rcases ptexpand_fails h.list.mp hfail with
    ⟨hlonger, hnone, rfl, rfl, hsame⟩ | ⟨hlonger, hsome, hless⟩ | ⟨hlonger, htables⟩
  · -- there is no larger list
    exact ⟨fun _ => ⟨hnone, .inl hlonger⟩,
      fun _ => (h.unchanged_put hsame).mpr ⟨rfl, rfl, rfl, rfl⟩⟩
  · -- the larger list stays
    constructor
    · intro hu
      have hmem : a.mem.availsmem = s.areas.mem.availsmem := hu.availsmem
      omega
    · rintro ⟨hnone, -⟩
      exact absurd hnone hsome
  · have hfirst : (s.reg prp.p_reg).first prp.lotohi change = 2 := if_neg hlonger
    rw [hfirst]
    cases hlotohi : prp.lotohi with
    | true =>
      rw [hlotohi] at htables hlonger
      obtain ⟨hsame, rfl, pt', hpt, rfl⟩ := growTables_up htables
      rw [h.unchanged_put hsame]
      simp only [true_and, true_or, and_true]
      rw [hpt.iff h.live]
      exact ⟨fun hn => ⟨hn.1, .inr hn.2⟩, fun hn => ⟨hn.1, hn.2.resolve_left hlonger⟩⟩
    | false =>
      rw [hlotohi] at htables hlonger
      obtain ⟨hsame, rfl, pt', hpt, rfl⟩ := growTables_down htables
      rw [h.unchanged_put hsame]
      simp only [true_and]
      refine Iff.trans (h.stack_iff hlotohi hpos rfl hpt) ?_
      constructor
      · rintro ⟨hnone, hnull, hzero, hdvd⟩
        exact ⟨hnone, .inr ⟨hnull, .inr ⟨hzero, hdvd⟩⟩⟩
      · rintro ⟨hnone, hl | ⟨hnull, ht | ⟨hzero, hdvd⟩⟩⟩
        · exact absurd hl hlonger
        · exact absurd ht Bool.false_ne_true
        · exact ⟨hnone, hnull, hzero, hdvd⟩

/-- A `growreg` that fails leaves the region, the tables and the memory as they were exactly when it
was refused, or stopped at the first allocation with nothing moved. -/
theorem growreg_failed_iff (hpos : 0 < change) (hvalid : Valid s i prp)
    (h : growreg c sp i prp change s = (.failed, t)) :
    Unchanged s t i prp ↔ Clean c sp s i prp change := by
  unfold growreg at h
  unfold Clean
  by_cases hsmem : s.areas.mem.availsmem - change < c.t_minasmem
  · rw [if_pos hsmem] at h
    cases h
    exact iff_of_true hvalid.unchanged (.inl (.inl hsmem))
  · rw [if_neg hsmem] at h
    by_cases hrmem : (s.reg prp.p_reg).r_noswapcnt ≠ 0 ∧
        s.areas.mem.availrmem - change < c.t_minarmem
    · rw [if_pos hrmem] at h
      cases h
      exact iff_of_true hvalid.unchanged (.inl (.inr (.inl hrmem)))
    · rw [if_neg hrmem] at h
      by_cases hgrowth : chkgrowth (fun rp => (s.reg rp).reg) (below s.p_region i)
          (above s.p_region i) prp change prp.lotohi = true
      · rw [if_pos hgrowth] at h
        cases h
        exact iff_of_true hvalid.unchanged (.inl (.inr (.inr hgrowth)))
      · rw [if_neg hgrowth] at h
        have hrefused : ¬Refused c s i prp change := by
          rintro (hr | hr | hr)
          · exact hsmem hr
          · exact hrmem hr
          · exact hgrowth hr
        split at h
        next hexpand =>
          cases h
          rw [hvalid.ptexpand_iff hpos hexpand]
          exact ⟨.inr, fun hc => hc.resolve_left hrefused⟩
        next => exact absurd h nofun

end Failed

/-! ## A region of data -/

/-- Areas after those that are in use. -/
def lastFit : Sptmap where
  find live _ := live.sup id + 2048
  find_ne_zero _ _ := by omega
  find_free live _ h := by
    have hle : live.sup id + 2048 ≤ live.sup id := Finset.le_sup (f := id) h
    omega

def conf : Conf := ⟨0, 0, 4⟩

theorem one_entry : NeZero 1 := ⟨Nat.one_ne_zero⟩

attribute [local instance] one_entry

/-- Data without pages, with a list of one page at 1024. -/
def entry : Preg 1 := ⟨0, 0, .data⟩

def data (vm : List Bool) : Space 1 where
  reg := fun _ => ⟨1024, fun _ => 0, 1, 0, 0, 0⟩
  p_region := [entry]
  p_size := 0
  areas := ⟨⟨2000, 2000, 1, vm⟩, {1024}⟩

theorem data_valid (vm : List Bool) : Valid (data vm) 0 entry where
  entry := rfl
  pgsz := ⟨Int.le_refl 0, show (0 : ℤ) < 32768 by decide⟩
  pgoff := ⟨Int.le_refl 0, show (0 : ℤ) < 32768 by decide⟩
  regva := ⟨Int.le_refl 0, by decide⟩
  list := iff_of_false (show 1024 ≠ 0 by decide) (show (1 : ℤ) ≠ 0 by decide)
  empty := fun _ _ => rfl
  live := fun _ h => absurd rfl h
  first := fun h => absurd h (by decide)

theorem growreg_failed_iff_none :
    Unchanged (data []) (growreg conf lastFit 0 entry 512 (data [])).2 0 entry ↔
      Clean conf lastFit (data []) 0 entry 512 :=
  growreg_failed_iff (by decide) (data_valid []) rfl

/-- The first table of two is made, the second is not: the first entry points to the table that has
been freed. -/
theorem growreg_keeps_freed : Valid (data [true, false]) 0 entry ∧
    ∃ t, growreg conf lastFit 0 entry 512 (data [true, false]) = (.failed, t) ∧
      ¬Unchanged (data [true, false]) t 0 entry := by
  refine ⟨data_valid _, _, rfl, fun h => ?_⟩
  have hin := h.live 0 (by decide)
  exact absurd hin (by decide)

end Svr3.Growreg
