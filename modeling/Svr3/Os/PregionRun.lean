import Mathlib
import Svr3.Lib.Spans
import Svr3.Os.RegionRun

/-!
# The pregions of a process do not overlap

Each pregion spans the segments of its region, and a list of pregions keeps these spans apart and in
order. What `chkattach` and `chkgrowth` let through is compared with what `attachreg` and `ptexpand`
do, in whole segments.
-/

namespace Svr3.Region

open Function List

/-! ## Segments -/

/-- `rp->r_pgoff + rp->r_pgsz` -/
def Reg.size (b : Reg) : ℤ := b.r_pgoff + b.r_pgsz

theorem ctos_of_lt {x : ℤ} (h : -256 < x) : ctos x = (x + 255) / 256 := by
  unfold ctos ncps
  rw [Int.tdiv_eq_ediv_of_nonneg (by omega)]
  rfl

theorem ctos_nonneg {x : ℤ} (h : -256 < x) : 0 ≤ ctos x := by
  rw [ctos_of_lt h]
  omega

theorem ctos_le {x k : ℤ} (h : -256 < x) (hk : x ≤ 256 * k) : ctos x ≤ k := by
  rw [ctos_of_lt h]
  omega

theorem ctos_mono {x y : ℤ} (h : -256 < x) (hxy : x ≤ y) : ctos x ≤ ctos y := by
  rw [ctos_of_lt h, ctos_of_lt (by omega)]
  omega

/-- What is less than a segment does not change with whole segments. -/
theorem ctos_add_stoc {x d : ℤ} (h : -256 < x) (hd : -256 < x + 256 * d) :
    ctos (x + 256 * d) = ctos x + d := by
  rw [ctos_of_lt h, ctos_of_lt hd]
  omega

theorem ctob_of_lt {x : ℤ} (h0 : -2097152 ≤ x) (h1 : x < 2097152) : ctob x = 1024 * x := by
  unfold ctob int
  rw [Int.bmod_eq_of_le (by omega) (by omega)]
  omega

theorem stob_of_lt {k : ℤ} (h0 : 0 ≤ k) (h1 : k < 16384) : stob k = 262144 * k := by
  unfold stob caddr
  omega

theorem caddr_of_lt {x : ℤ} (h0 : 0 ≤ x) (h1 : x < 4294967296) : caddr x = x := by
  unfold caddr
  omega

/-- An address that does not reach half of the machine's is an `int` with its sign. -/
theorem int_caddr {x : ℤ} (h0 : -2147483648 ≤ x) (h1 : x < 2147483648) : int (caddr x) = x := by
  unfold int caddr
  have hmod : (x % 4294967296).bmod 4294967296 = x.bmod 4294967296 := Int.emod_bmod x 4294967296
  rw [hmod]
  exact Int.bmod_eq_of_le (by omega) (by omega)

/-- An address is not negative as an `int` in the lower half. -/
theorem lt_of_int {x : ℤ} (h1 : x < 4294967296) (h : 0 ≤ int x) : x < 2147483648 := by
  unfold int at h
  rw [Int.bmod_def] at h
  split at h
  · omega
  · omega

theorem caddr_add (x y : ℤ) : caddr (caddr x + y) = caddr (x + y) := by
  unfold caddr
  exact Int.emod_add_emod x 4294967296 y

/-! ## The spans of pregions -/

variable {r n : ℕ}

/-- The segments of a pregion. -/
def span (reg : Fin r → Reg) (a : Preg r) : Span ℤ :=
  ⟨a.p_regva, a.p_regva + 262144 * ctos (reg a.p_reg).size⟩

/-- The addresses of a pregion, in whole segments. -/
def range (reg : Fin r → Reg) (a : Preg r) : Set ℤ :=
  Set.Ico a.p_regva
    (a.p_regva + stob (ctos ((reg a.p_reg).r_pgoff + (reg a.p_reg).r_pgsz)))

/-- The pregions of a list lie in the address space, at segments, and do not overlap. -/
structure Placed (reg : Fin r → Reg) (l : List (Preg r)) : Prop where
  spaced : Spaced (l.map (span reg))
  aligned : ∀ a ∈ l, a.p_regva % segment = 0
  low : ∀ a ∈ l, 0 ≤ a.p_regva
  high : ∀ a ∈ l, (span reg a).hi ≤ usrstack

/-- The first page of a region is in its first segment, or the region is empty. -/
def Offsets (reg : Fin r → Reg) : Prop :=
  ∀ rp, -256 < (reg rp).r_pgoff ∧ (reg rp).r_pgoff < 32768 ∧ 0 ≤ (reg rp).r_pgsz ∧
    (reg rp).r_pgsz < 32768

section Place

variable {reg reg' : Fin r → Reg} {l l' below above : List (Preg r)} {a b : Preg r} {change : ℤ}

theorem Offsets.size (h : Offsets reg) (rp : Fin r) :
    -256 < (reg rp).size ∧ (reg rp).size < 65536 := by
  have hoff := h rp
  unfold Reg.size
  omega

theorem Placed.nil (reg : Fin r → Reg) : Placed reg [] := ⟨.nil, by simp, by simp, by simp⟩

/-- Pregions go, and regions become smaller. -/
theorem Placed.shrink (h : Placed reg l) (hs : l'.Sublist l)
    (hle : ∀ a ∈ l', (reg' a.p_reg).size ≤ (reg a.p_reg).size)
    (hoff : ∀ a ∈ l', -256 < (reg' a.p_reg).size) : Placed reg' l' := by
  have hhi (a : Preg r) (ha : a ∈ l') : (span reg' a).hi ≤ (span reg a).hi := by
    have hmono := ctos_mono (hoff a ha) (hle a ha)
    unfold span
    dsimp only
    omega
  refine ⟨?_, fun a ha => h.aligned a (hs.subset ha), fun a ha => h.low a (hs.subset ha),
    fun a ha => (hhi a ha).trans (h.high a (hs.subset ha))⟩
  apply (h.spaced.sublist (hs.map _)).shrink (g := span reg') (fun _ _ => rfl) hhi
  intro a ha
  have hnonneg := ctos_nonneg (hoff a ha)
  unfold span
  dsimp only
  omega

/-- A pregion comes between two parts of a list, or changes there. -/
theorem Placed.insert (hb : Placed reg below) (ha : Placed reg above)
    (hbs : ∀ o ∈ below, (reg' o.p_reg).size = (reg o.p_reg).size)
    (has : ∀ o ∈ above, (reg' o.p_reg).size = (reg o.p_reg).size)
    (hseg : a.p_regva % segment = 0) (hlow : 0 ≤ a.p_regva) (hhigh : (span reg' a).hi ≤ usrstack)
    (hle : a.p_regva ≤ (span reg' a).hi) (hbelow : ∀ o ∈ below, (span reg o).hi ≤ a.p_regva)
    (habove : ∀ o ∈ above, (span reg' a).hi ≤ o.p_regva) :
    Placed reg' (below ++ a :: above) := by
  have hspan (o : Preg r) (ho : (reg' o.p_reg).size = (reg o.p_reg).size) :
      span reg' o = span reg o := by
    unfold span
    rw [ho]
  have hmapb : below.map (span reg') = below.map (span reg) :=
    map_congr_left fun o ho => hspan o (hbs o ho)
  have hmapa : above.map (span reg') = above.map (span reg) :=
    map_congr_left fun o ho => hspan o (has o ho)
  constructor
  · rw [map_append, map_cons, hmapb, hmapa, Spaced.split]
    refine ⟨hb.spaced, ha.spaced, hle, fun p hp => ?_, fun p hp => ?_⟩
    · obtain ⟨o, ho, hop⟩ := mem_map.mp hp
      rw [← hop]
      exact hbelow o ho
    · obtain ⟨o, ho, hop⟩ := mem_map.mp hp
      rw [← hop]
      exact habove o ho
  · rw [forall_mem_append, forall_mem_cons]
    exact ⟨hb.aligned, hseg, ha.aligned⟩
  · rw [forall_mem_append, forall_mem_cons]
    exact ⟨hb.low, hlow, ha.low⟩
  · rw [forall_mem_append, forall_mem_cons]
    refine ⟨fun o ho => ?_, hhigh, fun o ho => ?_⟩
    · rw [hspan o (hbs o ho)]
      exact hb.high o ho
    · rw [hspan o (has o ho)]
      exact ha.high o ho

end Place

/-! ## What the checks let through -/

/-- Two ranges of pages that the tests tell apart are apart in whole segments. -/
theorem apart_of_tests {start size start' size' : ℤ} (hs : start % segment = 0)
    (hs' : start' % segment = 0) (h0 : 0 ≤ start) (h0' : 0 ≤ start') (hsize : -256 < size)
    (hsize' : -256 < size') (hhi : start + 1024 * size ≤ usrstack)
    (hhi' : start' + 1024 * size' ≤ usrstack) (hne : start ≠ start')
    (htest : ¬ (start < caddr (start' + 1024 * size') ∧ caddr (start + 1024 * size) > start')) :
    start' < start ∧ start' + 262144 * ctos size' ≤ start ∨
      start < start' ∧ start + 262144 * ctos size ≤ start' := by
  obtain ⟨i, hi⟩ := Int.dvd_of_emod_eq_zero hs
  obtain ⟨j, hj⟩ := Int.dvd_of_emod_eq_zero hs'
  unfold segment at hi hj
  unfold usrstack at hhi hhi'
  unfold caddr at htest
  rw [ctos_of_lt hsize, ctos_of_lt hsize']
  omega

theorem before_of_lt {start size start' : ℤ} (hs : start % segment = 0)
    (hs' : start' % segment = 0) (hle : start' ≤ usrstack) (hsize : -256 < size)
    (hhi : start + 1024 * size ≤ usrstack) (hne : start ≠ start')
    (hlt : caddr (start + 1024 * size) < start') :
    start < start' ∧ start + 262144 * ctos size ≤ start' := by
  obtain ⟨i, hi⟩ := Int.dvd_of_emod_eq_zero hs
  obtain ⟨j, hj⟩ := Int.dvd_of_emod_eq_zero hs'
  unfold segment at hi hj
  unfold usrstack at hhi hle
  unfold caddr at hlt
  rw [ctos_of_lt hsize]
  omega

section Checks

variable {reg : Fin r → Reg} {l below above : List (Preg r)} {prp o : Preg r} {start last size change : ℤ}

theorem Placed.ctob (h : Placed reg l) (hoff : Offsets reg) (ho : o ∈ l) :
    ctob (reg o.p_reg).size = 1024 * (reg o.p_reg).size ∧
      o.p_regva + 1024 * (reg o.p_reg).size ≤ usrstack := by
  have hsize := hoff.size o.p_reg
  have hhigh := h.high o ho
  refine ⟨ctob_of_lt (by omega) (by omega), ?_⟩
  unfold span at hhigh
  dsimp only at hhigh
  rw [ctos_of_lt hsize.1] at hhigh
  omega

/-- Every entry ends before the new pregion, or begins after it. -/
theorem chkpregs_false (h : Placed reg l) (hoff : Offsets reg) (hseg : start % segment = 0)
    (h0 : 0 ≤ start) (hsize : -256 < size) (hhi : start + 1024 * size ≤ usrstack)
    (hchk : chkpregs reg start (caddr (start + 1024 * size)) l = false) :
    ∀ o ∈ l, o.p_regva < start ∧ (span reg o).hi ≤ start ∨
      start < o.p_regva ∧ start + 262144 * ctos size ≤ o.p_regva := by
  induction l with
  | nil => exact fun o ho => absurd ho (by simp)
  | cons o l ih =>
    have hctob := h.ctob hoff (mem_cons_self (a := o) (l := l))
    have hsorted := pairwise_cons.mp (pairwise_map.mp h.spaced.sorted)
    have hl : Placed reg l := h.shrink (sublist_cons_self o l) (fun _ _ => Int.le_refl _)
      fun a _ => (hoff.size a.p_reg).1
    have ho := h.aligned o mem_cons_self
    have hlow := h.low o mem_cons_self
    have hhigh := h.high o mem_cons_self
    have hord := h.spaced.ordered _ mem_cons_self
    unfold chkpregs at hchk
    dsimp only at hchk
    split at hchk
    · exact absurd hchk nofun
    next hne =>
      split at hchk
      next hbreak =>
        -- the entries after this one are higher
        have hbefore := before_of_lt hseg ho (hord.trans hhigh) hsize hhi hne hbreak
        intro p hp
        rcases mem_cons.mp hp with hp | hp
        · rw [hp]
          exact .inr hbefore
        · have hle : o.p_regva ≤ p.p_regva := hsorted.1 p hp
          exact .inr ⟨by omega, by omega⟩
      next hbreak =>
        split at hchk
        · exact absurd hchk nofun
        next htest =>
          change ¬ (decide (start < caddr (o.p_regva + Region.ctob (reg o.p_reg).size)) &&
            decide (caddr (start + 1024 * size) > o.p_regva)) = true at htest
          rw [Bool.and_eq_true, decide_eq_true_eq, decide_eq_true_eq, hctob.1] at htest
          intro p hp
          rcases mem_cons.mp hp with hp | hp
          · rw [hp]
            exact apart_of_tests hseg ho h0 hlow hsize (hoff.size o.p_reg).1 hhi hctob.2 hne htest
          · exact ih hl hchk p hp

theorem chkattach_false (h : Placed reg l) (hoff : Offsets reg) (h0 : 0 ≤ prp.p_regva)
    (h1 : prp.p_regva < 4294967296)
    (hlt : prp.p_regva + 1024 * (reg prp.p_reg).size < 2147483648)
    (hchk : chkattach reg l prp = false) :
    prp.p_regva % segment = 0 ∧ (span reg prp).hi ≤ usrstack ∧
      ∀ o ∈ l, o.p_regva < prp.p_regva ∧ (span reg o).hi ≤ prp.p_regva ∨
        prp.p_regva < o.p_regva ∧ (span reg prp).hi ≤ o.p_regva := by
  have hsize := hoff.size prp.p_reg
  have hctob : Region.ctob ((reg prp.p_reg).r_pgoff + (reg prp.p_reg).r_pgsz) =
      1024 * (reg prp.p_reg).size := ctob_of_lt (by unfold Reg.size at hsize; omega)
    (by unfold Reg.size at hsize; omega)
  unfold chkattach at hchk
  dsimp only at hchk
  split at hchk
  · exact absurd hchk nofun
  next hseg =>
    rw [not_not] at hseg
    split at hchk
    · exact absurd hchk nofun
    next hint =>
      rw [hctob] at hchk hint
      rw [Bool.or_eq_true, decide_eq_true_eq, decide_eq_true_eq, not_or, Int.not_lt, Int.not_lt]
        at hint
      have hlow := lt_of_int h1 hint.2
      rw [int_caddr (by omega) hlt] at hint
      refine ⟨hseg, ?_, chkpregs_false h hoff hseg h0 hsize.1 hint.1 hchk⟩
      have hhi := hint.1
      obtain ⟨i, hi⟩ := Int.dvd_of_emod_eq_zero hseg
      unfold segment at hi
      unfold usrstack at hhi ⊢
      unfold span
      dsimp only
      rw [ctos_of_lt hsize.1]
      omega

theorem meets_false {oprp : Option (Preg r)} (h : meets reg oprp start last = false) :
    int last ≤ usrstack ∧ 0 ≤ int start ∧ ∀ o, oprp = some o → start ≠ o.p_regva ∧
      ¬ (start < caddr (o.p_regva + Region.ctob (reg o.p_reg).size) ∧ last > o.p_regva) := by
  unfold meets at h
  split at h
  · exact absurd h nofun
  next hint =>
    rw [Bool.or_eq_true, decide_eq_true_eq, decide_eq_true_eq, not_or, Int.not_lt, Int.not_lt]
      at hint
    refine ⟨hint.1, hint.2, fun o ho => ?_⟩
    rw [ho] at h
    dsimp only at h
    rw [Bool.or_eq_false_iff, decide_eq_false_iff_not, Bool.and_eq_false_imp] at h
    refine ⟨h.1, fun hc => ?_⟩
    have hlast := h.2 (decide_eq_true hc.1)
    exact absurd hc.2 (of_decide_eq_false hlast)

/-- A region that grows upwards does not reach the entries above. -/
theorem chkgrowth_up {oprp : Option (Preg r)} (h : Placed reg (below ++ prp :: above))
    (hoff : Offsets reg) (hpos : 0 < change) (hfits : (reg prp.p_reg).r_pgsz + change < 32768)
    (hchk : chkgrowth reg oprp above.head? prp change true = false) :
    prp.p_regva + 262144 * ctos ((reg prp.p_reg).size + change) ≤ usrstack ∧
      ∀ o ∈ above, prp.p_regva + 262144 * ctos ((reg prp.p_reg).size + change) ≤ o.p_regva := by
  have hsize := hoff.size prp.p_reg
  have hoffp := hoff prp.p_reg
  have hin : prp ∈ below ++ prp :: above := by simp
  have hlow := h.low prp hin
  have hseg := h.aligned prp hin
  have hctob := h.ctob hoff hin
  have hab : Placed reg above := h.shrink (by simp) (fun _ _ => Int.le_refl _)
    fun a _ => (hoff.size a.p_reg).1
  have hsum : (reg prp.p_reg).size = (reg prp.p_reg).r_pgoff + (reg prp.p_reg).r_pgsz := rfl
  have hva : prp.p_regva ≤ usrstack := (h.spaced.ordered _ (mem_map_of_mem hin)).trans
    (h.high prp hin)
  have hlast : caddr (caddr (prp.p_regva +
      Region.ctob ((reg prp.p_reg).r_pgoff + (reg prp.p_reg).r_pgsz)) + Region.ctob change) =
      caddr (prp.p_regva + 1024 * ((reg prp.p_reg).size + change)) := by
    rw [caddr_add, ← hsum, hctob.1, ctob_of_lt (by omega) (by omega)]
    congr 1
    omega
  unfold chkgrowth at hchk
  dsimp only at hchk
  rw [if_neg (by omega), if_pos rfl, hlast] at hchk
  obtain ⟨hhi, -, hnext⟩ := meets_false hchk
  unfold usrstack at hva
  rw [int_caddr (by omega) (by omega)] at hhi
  have hsize' : -256 < (reg prp.p_reg).size + change := by omega
  constructor
  · obtain ⟨i, hi⟩ := Int.dvd_of_emod_eq_zero hseg
    unfold segment at hi
    unfold usrstack at hhi ⊢
    rw [ctos_of_lt hsize']
    omega
  · intro o ho
    have hle := hab.spaced.le_of_head (x := prp.p_regva + 262144 * ctos ((reg prp.p_reg).size + change))
      (fun p hp => ?_) (span reg o) (mem_map_of_mem ho)
    · exact hle
    · rw [List.head?_map, Option.map_eq_some_iff] at hp
      obtain ⟨q, hq, hqp⟩ := hp
      rw [← hqp]
      have hmem : q ∈ above := mem_of_mem_head? hq
      have hq' := hnext q hq
      have hqctob := hab.ctob hoff hmem
      rw [hqctob.1] at hq'
      have hafter : prp.p_regva ≤ q.p_regva := by
        have hpw := pairwise_append.mp (pairwise_map.mp h.spaced.sorted)
        exact (pairwise_cons.mp hpw.2.1).1 q hmem
      have hapart := apart_of_tests hseg (hab.aligned q hmem) hlow (hab.low q hmem) hsize'
        (hoff.size q.p_reg).1 hhi hqctob.2 hq'.1 hq'.2
      show prp.p_regva + 262144 * ctos ((reg prp.p_reg).size + change) ≤ q.p_regva
      omega

/-- The page tables of a stack are those of its pages. -/
def Reg.Tables (b : Reg) : Prop := ctos b.size = ctos b.r_pgsz

/-- The base that `ptexpand` moves a stack of `b` at `va` to. -/
def movedTo (b : Reg) (va change : ℤ) : ℤ :=
  va - 262144 * (ctos (b.r_pgsz + change) - ctos b.r_pgsz)

/-- The size of a stack that `ptexpand` has moved. -/
def movedSize (b : Reg) (change : ℤ) : ℤ :=
  b.size + 256 * (ctos (b.r_pgsz + change) - ctos b.r_pgsz)

/-- `chkgrowth` expects at least the segments that `ptexpand` adds to a stack. -/
def Foreseen (b : Reg) (change : ℤ) : Prop := change ≤ b.r_pgoff ∨ ctos change ≤ ctos b.r_pgsz

/-- A stack that grows downwards does not come to the entries below. -/
theorem chkgrowth_down {oprp : Option (Preg r)} (h : Placed reg (below ++ prp :: above))
    (hoff : Offsets reg) (hpos : 0 < change) (hfits : (reg prp.p_reg).r_pgsz + change < 32768)
    (htab : (reg prp.p_reg).Tables) (hsee : Foreseen (reg prp.p_reg) change)
    (hchk : chkgrowth reg below.getLast? oprp prp change false = false) :
    0 ≤ movedTo (reg prp.p_reg) prp.p_regva change ∧
      ∀ o ∈ below, (span reg o).hi ≤ movedTo (reg prp.p_reg) prp.p_regva change := by
  have hsize := hoff.size prp.p_reg
  have hoffp := hoff prp.p_reg
  have hin : prp ∈ below ++ prp :: above := by simp
  have hlow := h.low prp hin
  have hseg := h.aligned prp hin
  have hctob := h.ctob hoff hin
  have hbelow : Placed reg below := h.shrink (by simp) (fun _ _ => Int.le_refl _)
    fun a _ => (hoff.size a.p_reg).1
  have hsum : (reg prp.p_reg).size = (reg prp.p_reg).r_pgoff + (reg prp.p_reg).r_pgsz := rfl
  have hva : prp.p_regva ≤ usrstack := (h.spaced.ordered _ (mem_map_of_mem hin)).trans
    (h.high prp hin)
  have hbefore (o : Preg r) (ho : o ∈ below) : (span reg o).hi ≤ prp.p_regva := by
    have hpw := pairwise_append.mp (pairwise_map.mp h.spaced.apart)
    exact hpw.2.2 o ho prp mem_cons_self
  have hgrow := ctos_mono (x := (reg prp.p_reg).r_pgsz) (y := (reg prp.p_reg).r_pgsz + change)
    (by omega) (by omega)
  unfold Reg.Tables at htab
  unfold movedTo
  unfold chkgrowth at hchk
  dsimp only at hchk
  rw [if_neg (by omega), if_neg nofun] at hchk
  split at hchk
  next hoffc =>
    -- the pages fit into the segments of the stack
    have hsame := ctos_mono (x := (reg prp.p_reg).r_pgsz + change) (y := (reg prp.p_reg).size)
      (by omega) (by omega)
    have hstay : ctos ((reg prp.p_reg).r_pgsz + change) - ctos (reg prp.p_reg).r_pgsz = 0 := by
      omega
    rw [hstay, Int.mul_zero, Int.sub_zero]
    exact ⟨hlow, hbefore⟩
  next hoffc =>
    have hless : ctos change ≤ ctos (reg prp.p_reg).r_pgsz := hsee.resolve_left (by omega)
    have hk0 := ctos_mono (x := change) (y := (reg prp.p_reg).r_pgsz + change) (by omega) (by omega)
    have hk1 := ctos_le (x := (reg prp.p_reg).r_pgsz + change) (k := 128) (by omega) (by omega)
    have hc0 := ctos_nonneg (x := change) (by omega)
    have hn0 := ctos_nonneg (x := (reg prp.p_reg).r_pgsz) (by omega)
    generalize hk : ctos ((reg prp.p_reg).r_pgsz + change) - ctos change = k at hchk
    rw [stob_of_lt (by omega) (by omega), ← hsum, hctob.1] at hchk
    obtain ⟨-, hstart, hnext⟩ := meets_false hchk
    unfold usrstack at hva
    rw [int_caddr (by omega) (by omega)] at hstart
    have hstart' : caddr (prp.p_regva - 262144 * k) = prp.p_regva - 262144 * k :=
      caddr_of_lt hstart (by omega)
    rw [hstart'] at hnext
    refine ⟨by omega, fun o ho => ?_⟩
    have hle := hbelow.spaced.le_of_getLast (x := prp.p_regva - 262144 * k) (fun p hp => ?_)
      (span reg o) (mem_map_of_mem ho)
    · omega
    · rw [List.getLast?_map, Option.map_eq_some_iff] at hp
      obtain ⟨q, hq, hqp⟩ := hp
      rw [← hqp]
      have hmem : q ∈ below := mem_of_getLast? hq
      have hq' := hnext q hq
      have hqctob := hbelow.ctob hoff hmem
      have hqhi := hbefore q hmem
      have hqord : q.p_regva ≤ (span reg q).hi :=
        hbelow.spaced.ordered _ (mem_map_of_mem hmem)
      have hend : caddr (prp.p_regva + 1024 * (reg prp.p_reg).size) =
          caddr (prp.p_regva - 262144 * k + 1024 * (256 * k + (reg prp.p_reg).size)) := by
        congr 1
        omega
      rw [hqctob.1, hend] at hq'
      have hctos := ctos_add_stoc (x := (reg prp.p_reg).size) (d := k) (by omega) (by omega)
      rw [Int.add_comm] at hctos
      have hstseg : (prp.p_regva - 262144 * k) % segment = 0 := by
        unfold segment at hseg ⊢
        omega
      have hfull : -256 < 256 * k + (reg prp.p_reg).size := by omega
      have hhigh : prp.p_regva - 262144 * k + 1024 * (256 * k + (reg prp.p_reg).size) ≤ usrstack := by
        have hle := hctob.2
        omega
      have hapart := apart_of_tests hstseg (hbelow.aligned q hmem) hstart (hbelow.low q hmem)
        hfull (hoff.size q.p_reg).1 hhigh hqctob.2 hq'.1 hq'.2
      rw [hctos] at hapart
      show q.p_regva + 262144 * ctos (reg q.p_reg).size ≤ prp.p_regva - 262144 * k
      rcases hapart with hapart | hapart
      · exact hapart.2
      · -- the entry below would have to lie at the end of the stack, which has no segments
        unfold span at hqhi hqord
        dsimp only at hqhi hqord
        by_cases hn : (reg prp.p_reg).r_pgsz = 0
        · rw [hn, Int.zero_add, Int.sub_self] at hk
          omega
        · have hone : 0 < ctos (reg prp.p_reg).r_pgsz := by
            rw [ctos_of_lt (by omega)]
            omega
          omega

end Checks

/-! ## What `ptexpand` does to the place of a region -/

section Expand

variable {c : Conf} {m m' : Mem} {rp rp' : Reg} {osize nsize change p_regva p_regva' : ℤ} {ok : Bool}

theorem ptexpand_up (h : ptexpand c change true rp p_regva m = (ok, rp', p_regva', m')) :
    rp'.r_pgoff = rp.r_pgoff ∧ p_regva' = p_regva := by
  unfold ptexpand at h
  split at h
  · split at h
    next rp1 va m1 heq =>
      cases h
      unfold ptshrink at heq
      split at heq
      · split at heq
        next htab =>
          split at heq
          next hlist =>
            cases heq
            have h1 := (shrinkTables_keeps htab).2.2.1 rfl
            exact ⟨(shrinkList_keeps hlist).2.1.trans h1.1, h1.2⟩
      · cases heq
        exact ⟨rfl, rfl⟩
  · unfold ptgrow at h
    split at h
    next heq =>
      cases h
      split at heq
      next hlist =>
        cases heq
        exact ⟨(growList_keeps hlist).2.1, rfl⟩
      next hlist =>
        have h1 := (growTables_keeps heq).2.2.1 rfl
        exact ⟨h1.1.trans (growList_keeps hlist).2.1, h1.2⟩
    next heq =>
      cases h
      split at heq
      next hlist => exact absurd heq nofun
      next hlist =>
        have h1 := (growTables_keeps heq).2.2.1 rfl
        exact ⟨h1.1.trans (growList_keeps hlist).2.1, h1.2⟩

/-- A stack that becomes smaller moves up by the segments that it does not need. -/
theorem ptshrink_down (hva : caddr p_regva = p_regva) (hoff : short rp.r_pgoff = rp.r_pgoff)
    (h : ptshrink c osize nsize false rp p_regva m = (rp', p_regva', m')) :
    rp'.r_pgoff = short (rp.r_pgoff - stoc ((ctos osize).toNat - (ctos nsize).toNat : ℕ)) ∧
      p_regva' = caddr (p_regva + stob ((ctos osize).toNat - (ctos nsize).toNat : ℕ)) := by
  unfold ptshrink at h
  split at h
  · split at h
    next htab =>
      split at h
      next hlist =>
        cases h
        have h1 := (shrinkTables_keeps htab).2.2.2 rfl
        exact ⟨(shrinkList_keeps hlist).2.1.trans h1.1, h1.2⟩
  next hle =>
    cases h
    have hzero : (ctos osize).toNat - (ctos nsize).toNat = 0 := by omega
    have hstob : stob (0 : ℕ) = 0 := by decide
    rw [hzero, hstob, Int.add_zero, hva]
    refine ⟨?_, rfl⟩
    show rp.r_pgoff = short (rp.r_pgoff - 0 * ncps)
    rw [Int.zero_mul, Int.sub_zero, hoff]

/-- A stack that grows moves down by the segments that it needs, and stays when there is no room for a
larger list. -/
theorem ptgrow_down (h : ptgrow c osize nsize false rp p_regva m = (ok, rp', p_regva', m')) :
    rp'.r_pgoff = short (rp.r_pgoff + stoc ((ctos nsize).toNat - (ctos osize).toNat : ℕ)) ∧
        p_regva' = caddr (p_regva - stob ((ctos nsize).toNat - (ctos osize).toNat : ℕ)) ∨
      ok = false ∧ p_regva' = p_regva := by
  unfold ptgrow at h
  split at h
  next hlist =>
    cases h
    exact .inr ⟨rfl, rfl⟩
  next hlist =>
    have h1 := (growTables_keeps h).2.2.2 rfl
    rw [(growList_keeps hlist).2.1] at h1
    exact .inl h1

theorem short_sub (x y : ℤ) : short (short x - y) = short (x - y) := by
  unfold short
  exact Int.bmod_sub_bmod

/-- A stack that changes has as many segments as its pages need, and its pages are at the end. -/
theorem moved_size (change : ℤ) (htab : rp.Tables) (hsize : -256 < rp.size) (h0 : 0 ≤ rp.r_pgsz)
    (hle : -change ≤ rp.r_pgsz) :
    -256 < movedSize rp change ∧ ctos (movedSize rp change) = ctos (rp.r_pgsz + change) ∧
      -256 < movedSize rp change - (rp.r_pgsz + change) ∧
      movedSize rp change - (rp.r_pgsz + change) < 256 := by
  unfold Reg.Tables at htab
  unfold movedSize
  have hq := ctos_nonneg (x := rp.r_pgsz + change) (by omega)
  have hsize' : -256 < rp.size + 256 * (ctos (rp.r_pgsz + change) - ctos rp.r_pgsz) := by
    rw [ctos_of_lt hsize] at htab
    omega
  refine ⟨hsize', ?_, ?_⟩
  · rw [ctos_add_stoc hsize hsize', htab]
    omega
  · rw [ctos_of_lt hsize] at htab
    have hpages := ctos_of_lt (x := rp.r_pgsz) (by omega)
    have hpages' := ctos_of_lt (x := rp.r_pgsz + change) (by omega)
    omega

/-- The end of a stack that shrinks stays where it is. -/
theorem ptexpand_shrink (htab : rp.Tables) (hoff0 : -256 < rp.r_pgoff) (hoff1 : rp.r_pgoff < 32768)
    (h0 : 0 ≤ rp.r_pgsz) (h1 : rp.r_pgsz < 32768) (hneg : change ≤ 0) (hle : -change ≤ rp.r_pgsz)
    (hva : 0 ≤ p_regva) (hhi : p_regva + 262144 * ctos rp.size ≤ usrstack)
    (h : ptexpand c change false rp p_regva m = (ok, rp', p_regva', m')) :
    p_regva' = movedTo rp p_regva change ∧
      rp'.r_pgoff = movedSize rp change - (rp.r_pgsz + change) := by
  have hsize : rp.size = rp.r_pgoff + rp.r_pgsz := rfl
  have hrange := moved_size change htab (by omega) h0 hle
  have hq := ctos_nonneg (x := rp.r_pgsz + change) (by omega)
  have hmono := ctos_mono (x := rp.r_pgsz + change) (y := rp.r_pgsz) (by omega) (by omega)
  have hmax := ctos_le (x := rp.r_pgsz) (k := 128) (by omega) (by omega)
  have hdiff : (((ctos rp.r_pgsz).toNat - (ctos (rp.r_pgsz + change)).toNat : ℕ) : ℤ) =
      ctos rp.r_pgsz - ctos (rp.r_pgsz + change) := by omega
  unfold Reg.Tables at htab
  unfold usrstack at hhi
  unfold ptexpand at h
  rw [if_pos hneg] at h
  split at h
  next heq =>
    cases h
    have hmove := ptshrink_down (caddr_of_lt hva (by omega)) (short_of_lt (by omega) hoff1) heq
    change _ = short (_ - stoc ((ctos rp.r_pgsz).toNat - (ctos (rp.r_pgsz + change)).toNat : ℕ)) ∧
      _ = caddr (_ + stob ((ctos rp.r_pgsz).toNat - (ctos (rp.r_pgsz + change)).toNat : ℕ)) at hmove
    rw [hdiff, stob_of_lt (by omega) (by omega), caddr_of_lt (by omega) (by omega)] at hmove
    constructor
    · rw [hmove.2]
      unfold movedTo
      omega
    · show short (_ - change) = _
      rw [hmove.1, short_sub]
      unfold stoc ncps
      unfold movedSize at hrange ⊢
      rw [short_of_lt (by omega) (by omega)]
      omega

/-- So does that of a stack that grows. -/
theorem ptexpand_grow (htab : rp.Tables) (hoff0 : -256 < rp.r_pgoff) (hoff1 : rp.r_pgoff < 32768)
    (h0 : 0 ≤ rp.r_pgsz) (h1 : rp.r_pgsz + change < 32768) (hpos : 0 < change)
    (hva : 0 ≤ movedTo rp p_regva change) (hhi : p_regva ≤ usrstack)
    (h : ptexpand c change false rp p_regva m = (ok, rp', p_regva', m')) :
    (p_regva' = movedTo rp p_regva change ∧ (ok = true →
      rp'.r_pgoff = movedSize rp change - (rp.r_pgsz + change))) ∨ ok = false ∧ p_regva' = p_regva := by
  have hsize : rp.size = rp.r_pgoff + rp.r_pgsz := rfl
  have hrange := moved_size change htab (by omega) h0 (by omega)
  have hq := ctos_nonneg (x := rp.r_pgsz) (by omega)
  have hmono := ctos_mono (x := rp.r_pgsz) (y := rp.r_pgsz + change) (by omega) (by omega)
  have hmax := ctos_le (x := rp.r_pgsz + change) (k := 128) (by omega) (by omega)
  have hdiff : (((ctos (rp.r_pgsz + change)).toNat - (ctos rp.r_pgsz).toNat : ℕ) : ℤ) =
      ctos (rp.r_pgsz + change) - ctos rp.r_pgsz := by omega
  unfold Reg.Tables at htab
  unfold usrstack at hhi
  unfold movedTo at hva ⊢
  unfold ptexpand at h
  rw [if_neg (by omega)] at h
  -- the base and the offset once the tables have been moved
  have hmove {rp1 : Reg} {va : ℤ}
      (hm : rp1.r_pgoff = short (rp.r_pgoff + stoc ((ctos (rp.r_pgsz + change)).toNat -
          (ctos rp.r_pgsz).toNat : ℕ)) ∧
        va = caddr (p_regva - stob ((ctos (rp.r_pgsz + change)).toNat -
          (ctos rp.r_pgsz).toNat : ℕ))) :
      va = p_regva - 262144 * (ctos (rp.r_pgsz + change) - ctos rp.r_pgsz) ∧
        short (rp1.r_pgoff - change) = movedSize rp change - (rp.r_pgsz + change) := by
    rw [hdiff, stob_of_lt (by omega) (by omega), caddr_of_lt (by omega) (by omega)] at hm
    refine ⟨hm.2, ?_⟩
    rw [hm.1, short_sub]
    unfold stoc ncps
    unfold movedSize at hrange ⊢
    rw [short_of_lt (by omega) (by omega)]
    omega
  split at h
  next heq =>
    cases h
    rcases ptgrow_down heq with hd | hd
    · exact .inl ⟨(hmove hd).1, nofun⟩
    · exact .inr hd
  next heq =>
    cases h
    rcases ptgrow_down heq with hd | hd
    · exact .inl ⟨(hmove hd).1, fun _ => (hmove hd).2⟩
    · exact absurd hd.1 nofun

end Expand

/-! ## Steps -/

/-- The pregions of every process are in place, and an entry of each list stays unused. -/
structure Laid (c : Conf) (s : Sys r n) : Prop where
  offsets : Offsets s.reg
  placed : ∀ up, Placed s.reg (s.p_region up)
  room : ∀ up, s.p_region up ≠ [] → (s.p_region up).length < c.pregpp

section Steps

variable {c : Conf} {s t : Sys r n} {rp : Fin r} {up : Fin n} {i : ℕ} {prp : Preg r} {b : Reg}
  {m : Mem} {change : ℤ}

/-- Regions become smaller, and pregions go. -/
theorem Laid.shrink (h : Laid c s) (hoff : Offsets t.reg)
    (hsub : ∀ p, (t.p_region p).Sublist (s.p_region p))
    (hle : ∀ p, ∀ a ∈ t.p_region p, (t.reg a.p_reg).size ≤ (s.reg a.p_reg).size) : Laid c t := by
  refine ⟨hoff, fun p => ?_, fun p hne => ?_⟩
  · exact (h.placed p).shrink (hsub p) (hle p) fun a _ => (hoff.size a.p_reg).1
  · have hlen := (hsub p).length_le
    have hroom := h.room p fun hnil => hne (sublist_nil.mp (hnil ▸ hsub p))
    omega

theorem Offsets.update {reg : Fin r → Reg} (h : Offsets reg)
    (hb : -256 < b.r_pgoff ∧ b.r_pgoff < 32768 ∧ 0 ≤ b.r_pgsz ∧ b.r_pgsz < 32768) :
    Offsets (update reg rp b) := by
  intro rp'
  by_cases hrp : rp' = rp
  · rw [hrp, update_self]
    exact hb
  · rw [update_of_ne hrp]
    exact h rp'

/-- A region with the same pages. -/
theorem size_update {reg : Fin r → Reg} (hb : b.size = (reg rp).size) (rp' : Fin r) :
    (update reg rp b rp').size = (reg rp').size := by
  by_cases hrp : rp' = rp
  · rw [hrp, update_self, hb]
  · rw [update_of_ne hrp]

/-- A region keeps its pages. -/
theorem Laid.update (h : Laid c s) (hp : t.p_region = s.p_region)
    (hreg : t.reg = update s.reg rp b) (hsz : b.r_pgsz = (s.reg rp).r_pgsz)
    (hpgoff : b.r_pgoff = (s.reg rp).r_pgoff) : Laid c t := by
  have hsize : b.size = (s.reg rp).size := by
    unfold Reg.size
    rw [hsz, hpgoff]
  apply h.shrink
  · rw [hreg]
    apply h.offsets.update
    rw [hsz, hpgoff]
    exact h.offsets rp
  · intro p
    rw [hp]
  · intro p a _
    rw [hreg, size_update hsize]

/-- A pregion that the entries leave room for. -/
theorem link_laid (h : Laid c s) (hseg : prp.p_regva % segment = 0) (hlow : 0 ≤ prp.p_regva)
    (hhi : (span s.reg prp).hi ≤ usrstack) (hroom : (s.p_region up).length + 1 < c.pregpp)
    (hapart : ∀ o ∈ s.p_region up, o.p_regva < prp.p_regva ∧ (span s.reg o).hi ≤ prp.p_regva ∨
      prp.p_regva < o.p_regva ∧ (span s.reg prp).hi ≤ o.p_regva) : Laid c (s.link up prp) := by
  have hpl := h.placed up
  have hsize (rp' : Fin r) : ((s.link up prp).reg rp').size = (s.reg rp').size := by
    apply size_update
    rfl
  have hspan : span (s.link up prp).reg prp = span s.reg prp := by
    unfold span
    rw [hsize]
  have hoff : Offsets (s.link up prp).reg := h.offsets.update (h.offsets prp.p_reg)
  have hpart (l : List (Preg r)) (hl : l.Sublist (s.p_region up)) : Placed s.reg l :=
    hpl.shrink hl (fun _ _ => Int.le_refl _) fun a _ => (h.offsets.size a.p_reg).1
  refine ⟨hoff, fun p => ?_, fun p hne => ?_⟩
  · by_cases hp : p = up
    · rw [hp]
      show Placed _ (update s.p_region up (insertPreg prp (s.p_region up)) up)
      rw [update_self]
      unfold insertPreg
      have hdrop := rdropWhile_prefix (fun o : Preg r => o.p_regva > prp.p_regva)
        (s.p_region up)
      have htake := rtakeWhile_suffix (fun o : Preg r => o.p_regva > prp.p_regva)
        (s.p_region up)
      apply (hpart _ hdrop.sublist).insert (hpart _ htake.sublist)
      · exact fun o _ => hsize o.p_reg
      · exact fun o _ => hsize o.p_reg
      · exact hseg
      · exact hlow
      · rw [hspan]
        exact hhi
      · rw [hspan]
        have hnonneg := ctos_nonneg (h.offsets.size prp.p_reg).1
        unfold span
        dsimp only
        omega
      · intro o ho
        -- the last entry before the new one does not come after it
        apply (hpart _ hdrop.sublist).spaced.le_of_getLast _ _ (mem_map_of_mem ho)
        intro b hb
        rw [List.getLast?_map, Option.map_eq_some_iff] at hb
        obtain ⟨q, hq, hqb⟩ := hb
        rw [← hqb]
        have hmem := hdrop.subset (mem_of_getLast? hq)
        obtain ⟨hnil, hlast⟩ := mem_getLast?_eq_getLast hq
        have hnot := rdropWhile_last_not _ _ hnil
        rw [← hlast, decide_eq_true_eq] at hnot
        rcases hapart q hmem with hq | hq
        · exact hq.2
        · exact absurd hq.1 hnot
      · intro o ho
        have hafter := mem_rtakeWhile_imp ho
        rw [decide_eq_true_eq] at hafter
        rw [hspan]
        rcases hapart o (htake.subset ho) with ho | ho
        · omega
        · exact ho.2
    · show Placed _ (update s.p_region up (insertPreg prp (s.p_region up)) p)
      rw [update_of_ne hp]
      exact (h.placed p).shrink (List.Sublist.refl _) (fun a _ => (hsize a.p_reg).le)
        fun a _ => (hoff.size a.p_reg).1
  · by_cases hp : p = up
    · rw [hp]
      show (update s.p_region up (insertPreg prp (s.p_region up)) up).length < _
      rw [update_self, (insertPreg_perm prp (s.p_region up)).length_eq, length_cons]
      exact hroom
    · change update s.p_region up (insertPreg prp (s.p_region up)) p ≠ [] at hne
      show (update s.p_region up (insertPreg prp (s.p_region up)) p).length < _
      rw [update_of_ne hp] at hne ⊢
      exact h.room p hne

theorem attachreg_laid {vaddr : ℤ} {type : PregType} (h : Laid c s) (h0 : 0 ≤ vaddr)
    (h1 : vaddr < 4294967296) (hclear : vaddr + 1024 * (s.reg rp).size < 2147483648)
    (hatt : attachreg c rp up vaddr type s = (true, t)) : Laid c t := by
  rcases attachreg_cases c rp up vaddr type s with hfail | ⟨-, hfind, hchk, hok⟩
  · rw [hfail] at hatt
    exact absurd hatt nofun
  · rw [hok] at hatt
    cases hatt
    obtain ⟨hseg, hhi, hapart⟩ := chkattach_false (h.placed up) h.offsets h0 h1 hclear hchk
    exact link_laid h hseg h0 hhi (of_decide_eq_true hfind) hapart

/-- A region without users has no entry. -/
theorem Linked.unused (h : Linked s) (h0 : (s.reg rp).r_refcnt = 0) (p : Fin n) (o : Preg r)
    (ho : o ∈ s.p_region p) : o.p_reg ≠ rp := by
  intro heq
  have hcount := h.count rp
  have hpos : 0 < (s.p_region p).countP fun o => o.p_reg = rp :=
    countP_pos_iff.mpr ⟨o, ho, by simp [heq]⟩
  have hle : (s.p_region p).countP (fun o => o.p_reg = rp) ≤ s.refs rp :=
    Finset.single_le_sum (f := fun p => (s.p_region p).countP fun o => o.p_reg = rp)
      (fun _ _ => Nat.zero_le _) (Finset.mem_univ p)
  omega

/-- A region with one user has no other entry. -/
theorem Linked.alone (h : Linked s) (hi : (s.p_region up)[i]? = some prp)
    (hone : (s.reg prp.p_reg).r_refcnt = 1) (p : Fin n) (o : Preg r)
    (ho : o ∈ (s.unlink up i prp.p_reg).p_region p) : o.p_reg ≠ prp.p_reg := by
  apply (unlink_linked h hi).unused _ p o ho
  show (update s.reg prp.p_reg _ prp.p_reg).r_refcnt = 0
  rw [update_self]
  dsimp only
  omega

/-- The entries around one. -/
theorem entry_split {l : List (Preg r)} (hi : l[i]? = some prp) :
    l = l.take i ++ prp :: l.drop (i + 1) ∧ below l i = (l.take i).getLast? ∧
      above l i = (l.drop (i + 1)).head? := by
  obtain ⟨hlt, hget⟩ := List.getElem?_eq_some_iff.mp hi
  refine ⟨?_, ?_, ?_⟩
  · have hset := set_eq_take_append_cons_drop (l := l) (i := i) (a := prp)
    rw [set_entry hi, if_pos hlt] at hset
    exact hset
  · rw [List.getLast?_take]
    unfold below
    split
    · rfl
    · have hlt' : i - 1 < l.length := by omega
      rw [List.getElem?_eq_getElem hlt']
      rfl
  · rw [List.head?_drop]
    rfl

/-- The region of an entry and its address change, between the entries around it. -/
theorem put_laid (h : Laid c s) (hlinked : Linked s) (hi : (s.p_region up)[i]? = some prp)
    (hone : (s.reg prp.p_reg).r_refcnt = 1) {va : ℤ}
    (hb : -256 < b.r_pgoff ∧ b.r_pgoff < 32768 ∧ 0 ≤ b.r_pgsz ∧ b.r_pgsz < 32768)
    (hseg : va % segment = 0) (hlow : 0 ≤ va) (hhi : va + 262144 * ctos b.size ≤ usrstack)
    (hbelow : ∀ o ∈ (s.p_region up).take i, (span s.reg o).hi ≤ va)
    (habove : ∀ o ∈ (s.p_region up).drop (i + 1), va + 262144 * ctos b.size ≤ o.p_regva) :
    Laid c (s.put up i prp b va m) := by
  have hpl := h.placed up
  have hoff : Offsets (s.put up i prp b va m).reg := h.offsets.update hb
  have hpart (l : List (Preg r)) (hl : l.Sublist (s.p_region up)) : Placed s.reg l :=
    hpl.shrink hl (fun _ _ => Int.le_refl _) fun a _ => (h.offsets.size a.p_reg).1
  have hother (p : Fin n) (o : Preg r) (ho : o ∈ (s.unlink up i prp.p_reg).p_region p) :
      ((s.put up i prp b va m).reg o.p_reg).size = (s.reg o.p_reg).size := by
    show (update s.reg prp.p_reg b o.p_reg).size = _
    rw [update_of_ne (hlinked.alone hi hone p o ho)]
  have hrest (o : Preg r) (ho : o ∈ (s.p_region up).take i ++ (s.p_region up).drop (i + 1)) :
      o ∈ (s.unlink up i prp.p_reg).p_region up := by
    show o ∈ update s.p_region up ((s.p_region up).eraseIdx i) up
    rw [update_self, eraseIdx_eq_take_drop_succ]
    exact ho
  obtain ⟨hlt, hget⟩ := List.getElem?_eq_some_iff.mp hi
  refine ⟨hoff, fun p => ?_, fun p hne => ?_⟩
  · by_cases hp : p = up
    · rw [hp]
      show Placed _ (update s.p_region up ((s.p_region up).set i _) up)
      rw [update_self, set_eq_take_append_cons_drop, if_pos hlt]
      have hself : ((s.put up i prp b va m).reg prp.p_reg).size = b.size := by
        show (update s.reg prp.p_reg b prp.p_reg).size = _
        rw [update_self]
      have hspan : (span (s.put up i prp b va m).reg { prp with p_regva := va }).hi =
          va + 262144 * ctos b.size := by
        unfold span
        dsimp only
        rw [hself]
      apply (hpart _ (take_sublist i _)).insert (hpart _ (drop_sublist (i + 1) _))
      · exact fun o ho => hother up o (hrest o (mem_append_left _ ho))
      · exact fun o ho => hother up o (hrest o (mem_append_right _ ho))
      · exact hseg
      · exact hlow
      · rw [hspan]
        exact hhi
      · rw [hspan]
        have hnonneg := ctos_nonneg (hself ▸ (hoff.size prp.p_reg).1)
        dsimp only
        omega
      · exact hbelow
      · rw [hspan]
        exact habove
    · show Placed _ (update s.p_region up ((s.p_region up).set i _) p)
      rw [update_of_ne hp]
      apply (h.placed p).shrink (List.Sublist.refl _)
      · intro a ha
        apply Int.le_of_eq
        apply hother p
        show a ∈ update s.p_region up ((s.p_region up).eraseIdx i) p
        rw [update_of_ne hp]
        exact ha
      · exact fun a _ => (hoff.size a.p_reg).1
  · by_cases hp : p = up
    · rw [hp]
      show (update s.p_region up ((s.p_region up).set i _) up).length < _
      rw [update_self, length_set]
      apply h.room
      intro hnil
      rw [hnil] at hlt
      exact absurd hlt (Nat.not_lt_zero i)
    · change update s.p_region up ((s.p_region up).set i _) p ≠ [] at hne
      show (update s.p_region up ((s.p_region up).set i _) p).length < _
      rw [update_of_ne hp] at hne ⊢
      exact h.room p hne

/-- The segments that a stack is moved to are inside the address space, and above the entry below. -/
def Vacant (reg : Fin r → Reg) (oprp : Option (Preg r)) (prp : Preg r) (change : ℤ) : Prop :=
  0 ≤ movedTo (reg prp.p_reg) prp.p_regva change ∧
    ∀ o, oprp = some o →
      o.p_regva + stob (ctos ((reg o.p_reg).r_pgoff + (reg o.p_reg).r_pgsz)) ≤
        movedTo (reg prp.p_reg) prp.p_regva change

/-- What a growth needs: the pages fit into `r_pgsz`, and a stack has the tables of its pages, and
moves as `chkgrowth` expects or into vacant segments. -/
def GrowFits (reg : Fin r → Reg) (l : List (Preg r)) (i : ℕ) (prp : Preg r) (change : ℤ) : Prop :=
  (0 < change → (reg prp.p_reg).r_pgsz + change < 32768) ∧
    (prp.p_type = .stack → (reg prp.p_reg).Tables ∧
      (0 < change →
        Foreseen (reg prp.p_reg) change ∨ Vacant reg (below l i) prp change))

theorem span_hi {reg : Fin r → Reg} {l : List (Preg r)} {o : Preg r} (h : Placed reg l)
    (hoff : Offsets reg) (ho : o ∈ l) :
    o.p_regva + stob (ctos ((reg o.p_reg).r_pgoff + (reg o.p_reg).r_pgsz)) = (span reg o).hi := by
  have hhigh := h.high o ho
  have hlow := h.low o ho
  have hnonneg := ctos_nonneg (hoff.size o.p_reg).1
  unfold span usrstack at hhigh
  dsimp only at hhigh
  unfold span
  dsimp only
  rw [← stob_of_lt hnonneg (by omega)]
  rfl

/-- A stack grows into segments that are free. -/
theorem stack_room (h : Laid c s) (hi : (s.p_region up)[i]? = some prp) (hpos : 0 < change)
    (hstack : prp.p_type = .stack) (hfits : GrowFits s.reg (s.p_region up) i prp change)
    (hchk : chkgrowth s.reg (below (s.p_region up) i) (above (s.p_region up) i) prp change false =
      false) :
    0 ≤ movedTo (s.reg prp.p_reg) prp.p_regva change ∧
      ∀ o ∈ (s.p_region up).take i,
        (span s.reg o).hi ≤ movedTo (s.reg prp.p_reg) prp.p_regva change := by
  obtain ⟨hsplit, hbelow, habove⟩ := entry_split hi
  obtain ⟨htab, hroom⟩ := hfits.2 hstack
  have hpl := h.placed up
  rcases hroom hpos with hsee | hvac
  · rw [hbelow] at hchk
    rw [hsplit] at hpl
    exact chkgrowth_down hpl h.offsets hpos (hfits.1 hpos) htab hsee hchk
  · refine ⟨hvac.1, fun o ho => ?_⟩
    have hsub := take_sublist i (s.p_region up)
    apply (hpl.spaced.sublist (hsub.map _)).le_of_getLast _ _ (mem_map_of_mem ho)
    intro b hb
    rw [List.getLast?_map, Option.map_eq_some_iff] at hb
    obtain ⟨q, hq, hqb⟩ := hb
    rw [← hqb, ← span_hi hpl h.offsets (hsub.subset (mem_of_getLast? hq))]
    exact hvac.2 q (hbelow.trans hq)

theorem growreg_same (h : growreg c up i prp change s = (.same, t)) : t = s := by
  unfold growreg at h
  split at h
  · cases h
    rfl
  · split at h
    · split at h
      exact absurd h nofun
    · split at h
      · exact absurd h nofun
      · split at h
        · exact absurd h nofun
        · split at h
          · exact absurd h nofun
          · split at h
            · exact absurd h nofun
            · exact absurd h nofun

/-- What `growreg` does when it grows or shrinks a region. -/
theorem growreg_grown (h : growreg c up i prp change s = (.grown, t)) :
    change ≠ 0 ∧ ∃ ok rp' va m m' m'',
      ptexpand c change prp.lotohi (s.reg prp.p_reg) prp.p_regva m = (ok, rp', va, m') ∧
      t = s.put up i prp (rp'.resize change) va m'' ∧
      (0 < change → ok = true ∧ chkgrowth s.reg (below (s.p_region up) i)
        (above (s.p_region up) i) prp change prp.lotohi = false) := by
  unfold growreg at h
  split at h
  · exact absurd h nofun
  next hne =>
    refine ⟨hne, ?_⟩
    split at h
    next hneg =>
      split at h
      next heq =>
        cases h
        exact ⟨_, _, _, _, _, _, heq, rfl, fun hpos => absurd hpos (by omega)⟩
    next hneg =>
      split at h
      · exact absurd h nofun
      · split at h
        · exact absurd h nofun
        · split at h
          · exact absurd h nofun
          next hchk =>
            split at h
            next heq => exact absurd h nofun
            next heq =>
              cases h
              exact ⟨_, _, _, _, _, _, heq, rfl, fun _ => ⟨rfl, Bool.not_eq_true _ ▸ hchk⟩⟩

/-- `growreg` keeps the pregions in place. -/
theorem growreg_laid (h : Laid c s) (hlinked : Linked s) (hi : (s.p_region up)[i]? = some prp)
    (hone : (s.reg prp.p_reg).r_refcnt = 1) (hle : -change ≤ (s.reg prp.p_reg).r_pgsz)
    (hfits : GrowFits s.reg (s.p_region up) i prp change)
    (hgrow : growreg c up i prp change s = (.grown, t)) : Laid c t := by
  obtain ⟨hne, ok, rp', va, m, m', m'', hexp, ht, hchk⟩ := growreg_grown hgrow
  have hpl := h.placed up
  have hoff := h.offsets prp.p_reg
  have hsize : (s.reg prp.p_reg).size = (s.reg prp.p_reg).r_pgoff + (s.reg prp.p_reg).r_pgsz := rfl
  have hsame := (ptexpand_keeps hexp).1.r_pgsz
  have hlt : (s.reg prp.p_reg).r_pgsz + change < 32768 := by
    by_cases hpos : 0 < change
    · exact hfits.1 hpos
    · omega
  have hpgsz : (rp'.resize change).r_pgsz = (s.reg prp.p_reg).r_pgsz + change := by
    show short (rp'.r_pgsz + change) = _
    rw [hsame]
    exact short_of_lt (by omega) hlt
  have hpgoff : (rp'.resize change).r_pgoff = rp'.r_pgoff := rfl
  have hsize' : (rp'.resize change).size = rp'.r_pgoff + ((s.reg prp.p_reg).r_pgsz + change) := by
    unfold Reg.size
    rw [hpgsz, hpgoff]
  have hmem : prp ∈ s.p_region up := mem_of_getElem? hi
  have hseg := hpl.aligned prp hmem
  have hlow := hpl.low prp hmem
  have hhigh := hpl.high prp hmem
  have hord : prp.p_regva ≤ (span s.reg prp).hi :=
    hpl.spaced.ordered _ (mem_map_of_mem hmem)
  obtain ⟨hsplit, hbelow, habove⟩ := entry_split hi
  have hspaced := hpl.spaced
  rw [hsplit, map_append, map_cons, Spaced.split] at hspaced
  have hb (o : Preg r) (ho : o ∈ (s.p_region up).take i) : (span s.reg o).hi ≤ prp.p_regva :=
    hspaced.2.2.2.1 _ (mem_map_of_mem ho)
  have ha (o : Preg r) (ho : o ∈ (s.p_region up).drop (i + 1)) :
      (span s.reg prp).hi ≤ o.p_regva := hspaced.2.2.2.2 _ (mem_map_of_mem ho)
  rw [ht]
  unfold span at hhigh hord ha
  dsimp only at hhigh hord ha
  cases hl : prp.lotohi with
  | true =>
    rw [hl] at hexp hchk
    have hup := ptexpand_up hexp
    rw [hup.2]
    rw [hup.1, ← Int.add_assoc, ← hsize] at hsize'
    have hend : prp.p_regva + 262144 * ctos ((s.reg prp.p_reg).size + change) ≤ usrstack ∧
        ∀ o ∈ (s.p_region up).drop (i + 1),
          prp.p_regva + 262144 * ctos ((s.reg prp.p_reg).size + change) ≤ o.p_regva := by
      by_cases hpos : 0 < change
      · have hgrowth := (hchk hpos).2
        rw [habove] at hgrowth
        rw [hsplit] at hpl
        exact chkgrowth_up hpl h.offsets hpos hlt hgrowth
      · have hmono := ctos_mono (x := (s.reg prp.p_reg).size + change)
          (y := (s.reg prp.p_reg).size) (by omega) (by omega)
        refine ⟨by omega, fun o ho => ?_⟩
        have hao := ha o ho
        omega
    apply put_laid h hlinked hi hone
    · rw [hpgsz, hpgoff, hup.1]
      omega
    · exact hseg
    · exact hlow
    · rw [hsize']
      exact hend.1
    · exact hb
    · rw [hsize']
      exact hend.2
  | false =>
    rw [hl] at hexp hchk
    have hstack : prp.p_type = .stack := by
      unfold Preg.lotohi at hl
      exact not_not.mp (of_decide_eq_false hl)
    obtain ⟨htab, -⟩ := hfits.2 hstack
    have hmoved := moved_size change htab (by omega) hoff.2.2.1 hle
    have hdown : va = movedTo (s.reg prp.p_reg) prp.p_regva change ∧
        rp'.r_pgoff = movedSize (s.reg prp.p_reg) change - ((s.reg prp.p_reg).r_pgsz + change) ∧
        0 ≤ va ∧ ∀ o ∈ (s.p_region up).take i, (span s.reg o).hi ≤ va := by
      by_cases hpos : 0 < change
      · obtain ⟨hok, hgrowth⟩ := hchk hpos
        have hroom := stack_room h hi hpos hstack hfits hgrowth
        rcases ptexpand_grow htab hoff.1 hoff.2.1 hoff.2.2.1 hlt hpos hroom.1 (hord.trans hhigh)
          hexp with hd | hd
        · rw [hd.1]
          exact ⟨rfl, hd.2 hok, hroom⟩
        · rw [hok] at hd
          exact absurd hd.1 nofun
      · have hd := ptexpand_shrink htab hoff.1 hoff.2.1 hoff.2.2.1 hoff.2.2.2 (by omega) hle hlow
          hhigh hexp
        have hmono := ctos_mono (x := (s.reg prp.p_reg).r_pgsz + change)
          (y := (s.reg prp.p_reg).r_pgsz) (by omega) (by omega)
        have hup : prp.p_regva ≤ va := by
          rw [hd.1]
          unfold movedTo
          omega
        exact ⟨hd.1, hd.2, hlow.trans hup, fun o ho => (hb o ho).trans hup⟩
    obtain ⟨hva, hoff', hva0, hva1⟩ := hdown
    rw [hoff', Int.sub_add_cancel] at hsize'
    have hend : va + 262144 * ctos (rp'.resize change).size =
        prp.p_regva + 262144 * ctos (s.reg prp.p_reg).size := by
      rw [hsize', hmoved.2.1, htab, hva]
      unfold movedTo
      omega
    apply put_laid h hlinked hi hone
    · rw [hpgsz, hpgoff, hoff']
      omega
    · rw [hva]
      unfold movedTo
      unfold segment at hseg ⊢
      omega
    · exact hva0
    · rw [hend]
      exact hhigh
    · exact hva1
    · rw [hend]
      exact ha

/-- A region that shrinks has fewer pages, and segments. -/
theorem growreg_less (change : ℤ) (h : Laid c s) (hi : (s.p_region up)[i]? = some prp) (hneg : change ≤ 0)
    (hle : -change ≤ (s.reg prp.p_reg).r_pgsz)
    (htab : change ≠ 0 → prp.p_type = .stack → (s.reg prp.p_reg).Tables) :
    Offsets (growreg c up i prp change s).2.reg ∧
      ∀ rp, ((growreg c up i prp change s).2.reg rp).size ≤ (s.reg rp).size := by
  have hmem : prp ∈ s.p_region up := mem_of_getElem? hi
  have hlow := (h.placed up).low prp hmem
  have hhigh := (h.placed up).high prp hmem
  have hoff := h.offsets prp.p_reg
  have hsize : (s.reg prp.p_reg).size = (s.reg prp.p_reg).r_pgoff + (s.reg prp.p_reg).r_pgsz := rfl
  unfold growreg
  split
  · exact ⟨h.offsets, fun rp => Int.le_refl _⟩
  next hne =>
    rw [if_pos (by omega)]
    split
    next ok rp' va m hexp =>
      have hsame := (ptexpand_keeps hexp).1.r_pgsz
      have hpgsz : (rp'.resize change).r_pgsz = (s.reg prp.p_reg).r_pgsz + change := by
        show short (rp'.r_pgsz + change) = _
        rw [hsame]
        exact short_of_lt (by omega) (by omega)
      have hpgoff : (rp'.resize change).r_pgoff = rp'.r_pgoff := rfl
      have hless : -256 < rp'.r_pgoff ∧ rp'.r_pgoff < 32768 ∧
          rp'.r_pgoff + ((s.reg prp.p_reg).r_pgsz + change) ≤ (s.reg prp.p_reg).size := by
        cases hl : prp.lotohi with
        | true =>
          rw [hl] at hexp
          have hup := ptexpand_up hexp
          omega
        | false =>
          rw [hl] at hexp
          have hstack : prp.p_type = .stack := by
            unfold Preg.lotohi at hl
            exact not_not.mp (of_decide_eq_false hl)
          have hmoved := moved_size change (htab hne hstack) (by omega) hoff.2.2.1 hle
          have hd := ptexpand_shrink (htab hne hstack) hoff.1 hoff.2.1 hoff.2.2.1 hoff.2.2.2 hneg hle
            hlow hhigh hexp
          have hmono := ctos_mono (x := (s.reg prp.p_reg).r_pgsz + change)
            (y := (s.reg prp.p_reg).r_pgsz) (by omega) (by omega)
          unfold movedSize at hd hmoved
          omega
      refine ⟨h.offsets.update (by omega), fun rp => ?_⟩
      show (update s.reg prp.p_reg (rp'.resize change) rp).size ≤ _
      by_cases hrp : rp = prp.p_reg
      · rw [hrp, update_self]
        have hself : (rp'.resize change).size =
            (rp'.resize change).r_pgoff + (rp'.resize change).r_pgsz := rfl
        omega
      · rw [update_of_ne hrp]

theorem freereg_laid (h : Laid c s) (hlinked : Linked s) (h0 : (s.reg rp).r_refcnt = 0) :
    Laid c (freereg rp s) := by
  have hoff : Offsets (freereg rp s).reg := by
    apply h.offsets.update
    dsimp only
    omega
  apply h.shrink hoff (fun p => List.Sublist.refl _)
  intro p a ha
  rw [freereg_other s (hlinked.unused h0 p a ha)]

theorem release_laid (h : Laid c s) (hlinked : Linked s) : Laid c (release rp s) := by
  unfold release
  split
  next h0 => exact freereg_laid h hlinked h0.1
  · exact h

/-- `fileSize` and what `growreg` takes away leave the other pregions in place. -/
theorem detachData_less {magic : Bool} (h : Laid c s) (hi : (s.p_region up)[i]? = some prp)
    (hchange : magic = true → (s.reg prp.p_reg).r_type = .rtStext →
      (s.reg prp.p_reg).rg_nofree = true →
      btoc (int ((s.reg prp.p_reg).r_filesz - prp.p_regva)) - (s.reg prp.p_reg).r_pgsz ≤ 0 ∧
      -(btoc (int ((s.reg prp.p_reg).r_filesz - prp.p_regva)) - (s.reg prp.p_reg).r_pgsz) ≤
        (s.reg prp.p_reg).r_pgsz)
    (htab : magic = true → (s.reg prp.p_reg).r_type = .rtStext →
      (s.reg prp.p_reg).rg_nofree = true →
      btoc (int ((s.reg prp.p_reg).r_filesz - prp.p_regva)) ≠ (s.reg prp.p_reg).r_pgsz →
      prp.p_type = .stack → (s.reg prp.p_reg).Tables) :
    Offsets (detachData c magic up i prp s).reg ∧
      ∀ rp, ((detachData c magic up i prp s).reg rp).size ≤ (s.reg rp).size := by
  have hself : (s.fileSize prp).reg prp.p_reg = { s.reg prp.p_reg with
      r_filesz := int ((s.reg prp.p_reg).r_filesz - prp.p_regva) } := update_self _ _ _
  have hsize (rp : Fin r) : ((s.fileSize prp).reg rp).size = (s.reg rp).size := by
    apply size_update
    rfl
  have hfile : Laid c (s.fileSize prp) := h.update rfl rfl rfl rfl
  unfold detachData
  split
  next hm =>
    split
    next hnf =>
      have hle := hchange hm.1 hm.2 hnf
      have hgrow := growreg_less (btoc ((s.fileSize prp).reg prp.p_reg).r_filesz -
        (s.reg prp.p_reg).r_pgsz) hfile hi
      rw [hself] at hgrow ⊢
      dsimp only at hgrow ⊢
      obtain ⟨hoff, hless⟩ := hgrow hle.1 hle.2 fun hne =>
        htab hm.1 hm.2 hnf (by omega)
      exact ⟨hoff, fun rp => (hless rp).trans (hsize rp).le⟩
    · exact ⟨hfile.offsets, fun rp => (hsize rp).le⟩
  · exact ⟨h.offsets, fun rp => Int.le_refl _⟩

theorem detachData_entries (c : Conf) (magic : Bool) (hi : (s.p_region up)[i]? = some prp) :
    ∃ va, (detachData c magic up i prp s).p_region =
      update s.p_region up ((s.p_region up).set i { prp with p_regva := va }) := by
  have hsame : s.p_region = update s.p_region up
      ((s.p_region up).set i { prp with p_regva := prp.p_regva }) := by
    rw [set_entry hi, update_eq_self]
  unfold detachData
  split
  · split
    · exact growreg_entries (s := s.fileSize prp) c _ hi
    · exact ⟨_, hsame⟩
  · exact ⟨_, hsame⟩

/-- The entry of a region that is detached goes, whatever became of it. -/
theorem unlink_detachData {magic : Bool} (hi : (s.p_region up)[i]? = some prp) :
    ((detachData c magic up i prp s).unlink up i prp.p_reg).p_region =
      update s.p_region up ((s.p_region up).eraseIdx i) := by
  obtain ⟨va, hva⟩ := detachData_entries c magic hi
  unfold Sys.unlink
  dsimp only
  rw [hva, update_self, update_idem, eraseIdx_set_eq]

theorem detachreg_laid {x : ℤ} {magic : Bool} (h : Laid c s) (hcounted : Counted x s)
    (hi : (s.p_region up)[i]? = some prp)
    (hchange : magic = true → (s.reg prp.p_reg).r_type = .rtStext →
      (s.reg prp.p_reg).rg_nofree = true →
      btoc (int ((s.reg prp.p_reg).r_filesz - prp.p_regva)) - (s.reg prp.p_reg).r_pgsz ≤ 0 ∧
      -(btoc (int ((s.reg prp.p_reg).r_filesz - prp.p_regva)) - (s.reg prp.p_reg).r_pgsz) ≤
        (s.reg prp.p_reg).r_pgsz)
    (htab : magic = true → (s.reg prp.p_reg).r_type = .rtStext →
      (s.reg prp.p_reg).rg_nofree = true →
      btoc (int ((s.reg prp.p_reg).r_filesz - prp.p_regva)) ≠ (s.reg prp.p_reg).r_pgsz →
      prp.p_type = .stack → (s.reg prp.p_reg).Tables) : Laid c (detachreg c magic up i prp s) := by
  obtain ⟨hoff, hless⟩ := detachData_less (c := c) h hi hchange htab
  obtain ⟨q, hq, hreg⟩ := detachData_entry c magic hi
  have hlinked := unlink_linked (detachData_counted (c := c) hcounted hi hchange).linked hq
  rw [hreg] at hlinked
  have hsize (rp : Fin r) : (((detachData c magic up i prp s).unlink up i prp.p_reg).reg rp).size =
      ((detachData c magic up i prp s).reg rp).size := by
    apply size_update
    rfl
  have hoff' : Offsets ((detachData c magic up i prp s).unlink up i prp.p_reg).reg :=
    hoff.update (hoff prp.p_reg)
  apply release_laid _ hlinked
  apply h.shrink hoff'
  · intro p
    rw [unlink_detachData hi]
    by_cases hp : p = up
    · rw [hp, update_self]
      exact eraseIdx_sublist _ _
    · rw [update_of_ne hp]
  · exact fun p a _ => (hsize a.p_reg).le.trans (hless a.p_reg)

theorem dupsegs_some {ovfl : ℕ → Bool} {rsize : ℤ} {x : Fin r}
    (h : dupsegs c ovfl b rp rsize m s = (some x, t)) :
    dupEnd c ovfl b rsize m = .done ∧ ∃ l m', t = s.store rp { b with r_list := l } m' := by
  unfold dupsegs at h
  unfold dupEnd
  split at h
  next l m' heq =>
    cases h
    rw [heq]
    exact ⟨rfl, l, m', rfl⟩
  · exact absurd h nofun
  · exact absurd h nofun

theorem duplist_some {ovfl : ℕ → Bool} {rsize : ℤ} {x : Fin r}
    (h : duplist c ovfl b rp rsize s = (some x, t)) :
    (∃ m, sptalloc c b.r_listsz s.mem = (true, m) ∧ dupEnd c ovfl b rsize m = .done) ∧
      ∃ b' m', t = s.store rp b' m' ∧ b'.r_pgsz = short rsize ∧ b'.r_pgoff = b.r_pgoff := by
  unfold duplist at h
  dsimp only at h
  split at h
  · exact absurd h nofun
  next m hm =>
    obtain ⟨hdone, l, m', ht⟩ := dupsegs_some h
    exact ⟨⟨m, hm, hdone⟩, _, m', ht, rfl, rfl⟩

/-- A region that is duplicated: the loop of `dupreg` has come to its end, and a free region has as
many pages at the same place. -/
theorem dupreg_some {ovfl : ℕ → Bool} {force : Bool} {rsize : ℤ} {x : Fin r} (h : Linked s)
    (hin : rp ∈ s.ractive) (hd : dupreg c ovfl rp force rsize s = (some x, t)) :
    ((s.reg rp).r_type = .rtPrivate ∨ force = true → DupFits c ovfl s rp rsize) ∧
      (t = s ∨ ∃ rp2 ∈ s.rfree, ∃ b, t.p_region = s.p_region ∧
        t.reg = update s.reg rp2 b ∧ b.r_pgsz = short rsize ∧
        b.r_pgoff = (s.reg rp).r_pgoff) := by
  unfold dupreg at hd
  split at hd
  next hshare =>
    cases hd
    refine ⟨fun hc => ?_, .inl rfl⟩
    rcases hc with hc | hc
    · exact absurd hc hshare.1
    · rw [hc] at hshare
      exact absurd hshare.2 nofun
  next hcopy =>
    split at hd
    · exact absurd hd nofun
    · split at hd
      · exact absurd hd nofun
      next rp2 s1 halloc =>
        have hfree : rp2 ∈ s.rfree ∧ s1.mem = (s.charge rsize).mem ∧ s1.p_region = s.p_region ∧
            ∃ b, s1.reg = update s.reg rp2 b := by
          unfold allocreg at halloc
          split at halloc
          · exact absurd halloc nofun
          next rp1 rfree hrf =>
            cases halloc
            have hmem : rp2 ∈ (s.charge rsize).rfree := hrf ▸ mem_cons_self
            exact ⟨hmem, rfl, rfl, _, rfl⟩
        obtain ⟨hmem, hs1, hp1, b1, hreg1⟩ := hfree
        have hne : rp ≠ rp2 := (h.active_ne hin hmem).symm
        have hrp : s1.reg rp = s.reg rp := by
          rw [hreg1, update_of_ne hne]
        rw [hrp] at hd
        obtain ⟨⟨m, hm, hdone⟩, b', m', ht, hsz, hoff⟩ := duplist_some hd
        constructor
        · intro _ _ _ _
          rw [← hs1, hm]
          show (dupEnd c ovfl (s.reg rp) rsize m).Even rsize
          rw [hdone]
          exact trivial
        · refine .inr ⟨rp2, hmem, b', ?_, ?_, hsz, hoff⟩
          · rw [ht]
            exact hp1
          · rw [ht]
            show update s1.reg rp2 b' = _
            rw [hreg1, update_idem]

theorem dupreg_laid {ovfl : ℕ → Bool} {force : Bool} {rsize : ℤ} {x : Fin r} (h : Laid c s)
    (hlinked : Linked s) (hin : rp ∈ s.ractive) (h0 : 0 ≤ rsize)
    (h1 : rsize ≤ (s.reg rp).r_pgsz) (hd : dupreg c ovfl rp force rsize s = (some x, t)) :
    Laid c t := by
  have hoff := h.offsets rp
  rcases (dupreg_some hlinked hin hd).2 with ht | ⟨rp2, hmem, b, hp, hreg, hsz, hpgoff⟩
  · rw [ht]
    exact h
  · rw [short_of_lt (by omega) (by omega)] at hsz
    apply h.shrink
    · rw [hreg]
      apply h.offsets.update
      omega
    · intro p
      rw [hp]
    · intro p a ha
      rw [hp] at ha
      rw [hreg, update_of_ne (hlinked.unused (hlinked.clean rp2 hmem).2.2 p a ha)]

/-- The step of the process' memory succeeds. -/
def Pstep (c : Conf) (s : Sys r n) (a : Act r n) (t : Sys r n) : Prop := next c s a = some (true, t)

/-- What a step needs to keep pregions apart: a region that is attached ends in the lower half of the
addresses, and a region that grows, or a stack that is cut, is as `ptexpand` expects. -/
def Clear (s : Sys r n) : Act r n → Prop
  | .attach rp _ vaddr _ =>
    caddr vaddr + 1024 * ((s.reg rp).r_pgoff + (s.reg rp).r_pgsz) < 2147483648
  | .grow up i change _ =>
    ∀ prp, (s.p_region up)[i]? = some prp → change ≠ 0 → GrowFits s.reg (s.p_region up) i prp change
  | .detach magic up i _ =>
    ∀ prp, (s.p_region up)[i]? = some prp → magic = true →
      (s.reg prp.p_reg).r_type = .rtStext → (s.reg prp.p_reg).rg_nofree = true →
      btoc (int ((s.reg prp.p_reg).r_filesz - prp.p_regva)) ≠ (s.reg prp.p_reg).r_pgsz →
      prp.p_type = .stack → (s.reg prp.p_reg).Tables
  | _ => True

theorem Laid.vm (h : Laid c s) (vm : List Bool) : Laid c (s.vm vm) := ⟨h.offsets, h.placed, h.room⟩

theorem caddr_nonneg (x : ℤ) : 0 ≤ caddr x := by
  unfold caddr
  omega

theorem caddr_lt (x : ℤ) : caddr x < 4294967296 := by
  unfold caddr
  omega

/-- A step that is clear and succeeds keeps the sum of pages as well. -/
theorem Clear.sound {a : Act r n} (hlinked : Linked s) (hclear : Clear s a)
    (ht : Pstep c s a t) : Sound c s a := by
  cases a with
  | grow up i change vm =>
    intro prp hi hpos _ _
    exact (hclear prp hi (by omega)).1 hpos
  | dup rp force rsize ovfl vm =>
    unfold Pstep next at ht
    dsimp only at ht
    split at ht
    next hc =>
      split at ht
      next hd =>
        have hvm : Linked (s.vm vm) :=
          ⟨hlinked.active, hlinked.free, hlinked.split, hlinked.clean, hlinked.count⟩
        exact (dupreg_some hvm hc.1 hd).1
      · exact absurd ht nofun
    · exact absurd ht nofun
  | alloc type nofree => exact trivial
  | attach rp up vaddr type => exact trivial
  | detach magic up i vm => exact trivial
  | free rp vm => exact trivial
  | other rp nofree filesz noswapcnt availrmem => exact trivial

/-- Every step that succeeds keeps the pregions in place, when it is clear. -/
theorem next_laid {x : ℤ} {a : Act r n} (h : Laid c s) (hcounted : Counted x s)
    (hclear : Clear s a) (ht : Pstep c s a t) : Laid c t := by
  unfold Pstep at ht
  cases a with
  | alloc type nofree =>
    unfold next at ht
    dsimp only at ht
    split at ht
    next halloc =>
      cases ht
      unfold allocreg at halloc
      split at halloc
      · exact absurd halloc nofun
      next rp rfree hrf =>
        cases halloc
        exact h.update rfl rfl rfl rfl
    · exact absurd ht nofun
  | attach rp up vaddr type =>
    unfold next at ht
    dsimp only at ht
    split at ht
    · rw [Option.some.injEq] at ht
      exact attachreg_laid h (caddr_nonneg vaddr) (caddr_lt vaddr) hclear ht
    · exact absurd ht nofun
  | detach magic up i vm =>
    unfold next at ht
    dsimp only at ht
    split at ht
    · exact absurd ht nofun
    next prp hi =>
      split at ht
      · exact absurd ht nofun
      next hc =>
        cases ht
        apply detachreg_laid (h.vm vm) (hcounted.vm vm) hi
        · intro hm hst hnf
          by_contra hle
          exact hc ⟨hm, hst, hnf, hle⟩
        · exact hclear prp hi
  | grow up i change vm =>
    unfold next at ht
    dsimp only at ht
    split at ht
    · exact absurd ht nofun
    next prp hi =>
      split at ht
      · exact absurd ht nofun
      next hc =>
        rw [not_or, not_not] at hc
        split at ht
        · exact absurd ht nofun
        next g t' hne heq =>
          cases ht
          cases hg : g with
          | same =>
            rw [hg] at heq
            rw [growreg_same heq]
            exact h.vm vm
          | failed => exact absurd hg hne
          | grown =>
            rw [hg] at heq
            have hone := (growreg_grown heq).1
            exact growreg_laid (h.vm vm) (hcounted.vm vm).linked hi hc.1 (Int.not_lt.mp hc.2)
              (hclear prp hi hone) heq
  | dup rp force rsize ovfl vm =>
    unfold next at ht
    dsimp only at ht
    split at ht
    next hc =>
      split at ht
      next hd =>
        cases ht
        exact dupreg_laid (h.vm vm) (hcounted.vm vm).linked hc.1 hc.2.1 hc.2.2 hd
      · exact absurd ht nofun
    · exact absurd ht nofun
  | free rp vm =>
    unfold next at ht
    dsimp only at ht
    split at ht
    next hc =>
      cases ht
      exact freereg_laid (h.vm vm) (hcounted.vm vm).linked hc.2
    · exact absurd ht nofun
  | other rp nofree filesz noswapcnt availrmem =>
    unfold next at ht
    dsimp only at ht
    split at ht
    · cases ht
      exact h.update rfl rfl rfl rfl
    · exact absurd ht nofun

end Steps

/-- What is promised of the pregions of every process. -/
structure Regions (c : Conf) (s : Sys r n) : Prop where
  sorted : ∀ up, (s.p_region up).Pairwise fun a b => a.p_regva ≤ b.p_regva
  unused : ∀ up, s.p_region up ≠ [] → (s.p_region up).length < c.pregpp
  aligned : ∀ up, ∀ a ∈ s.p_region up, a.p_regva % segment = 0
  disjoint : ∀ up, (s.p_region up).Pairwise fun a b =>
    Disjoint (range s.reg a) (range s.reg b)
  inside : ∀ up, ∀ a ∈ s.p_region up, 0 ≤ a.p_regva ∧
    a.p_regva + stob (ctos ((s.reg a.p_reg).r_pgoff + (s.reg a.p_reg).r_pgsz)) ≤ usrstack
  refused : ∀ up i prp change m, (s.p_region up)[i]? = some prp → prp.p_type = .stack →
    0 < change → GrowFits s.reg (s.p_region up) i prp change →
    chkgrowth s.reg (below (s.p_region up) i) (above (s.p_region up) i) prp change false = false →
    ∀ o, below (s.p_region up) i = some o →
      o.p_regva + stob (ctos ((s.reg o.p_reg).r_pgoff + (s.reg o.p_reg).r_pgsz)) ≤
        (ptexpand c change false (s.reg prp.p_reg) prp.p_regva m).2.2.1

theorem Laid.regions {c : Conf} {s : Sys r n} (h : Laid c s) : Regions c s := by
  refine ⟨fun up => ?_, h.room, fun up => (h.placed up).aligned, fun up => ?_, fun up a ha => ?_,
    fun up i prp change m hi hstack hpos hfits hchk o ho => ?_⟩
  · exact (pairwise_map (R := fun a b : Span ℤ => a.lo ≤ b.lo)).mp
      (h.placed up).spaced.sorted
  · apply (pairwise_map.mp (h.placed up).spaced.disjoint).imp_of_mem
    intro a b ha hb hab
    unfold range
    rw [span_hi (h.placed up) h.offsets ha, span_hi (h.placed up) h.offsets hb]
    exact hab
  · rw [span_hi (h.placed up) h.offsets ha]
    exact ⟨(h.placed up).low a ha, (h.placed up).high a ha⟩
  · have hpl := h.placed up
    have hmem : prp ∈ s.p_region up := mem_of_getElem? hi
    have hoff := h.offsets prp.p_reg
    have hhi : prp.p_regva ≤ usrstack :=
      (hpl.spaced.ordered _ (mem_map_of_mem hmem)).trans (hpl.high prp hmem)
    obtain ⟨hsplit, hbelow, -⟩ := entry_split hi
    have htake : o ∈ (s.p_region up).take i := mem_of_getLast? (hbelow.symm.trans ho)
    have hroom := stack_room h hi hpos hstack hfits hchk
    rw [span_hi hpl h.offsets (mem_of_mem_take htake)]
    generalize hexp : ptexpand c change false (s.reg prp.p_reg) prp.p_regva m = res
    obtain ⟨ok, rp', va, m'⟩ := res
    rcases ptexpand_grow (hfits.2 hstack).1 hoff.1 hoff.2.1 hoff.2.2.1 (hfits.1 hpos) hpos hroom.1
      hhi hexp with hd | hd
    · rw [hd.1]
      exact hroom.2 o htake
    · rw [hd.2]
      have hspaced := hpl.spaced.apart
      rw [hsplit] at hspaced
      have hpw := pairwise_append.mp (pairwise_map.mp hspaced)
      exact hpw.2.2 o htake prp mem_cons_self

attribute [local instance] one_process two_regions

/-- A region of one page at `va`, and a stack at the end of the address space that gets its first page. -/
def dataStack (va : ℤ) : List (Act 2 1) :=
  [.alloc .rtPrivate false, .attach 0 0 va .data, .grow 0 0 1 [true, true],
    .alloc .rtPrivate false, .attach 1 0 usrstack .stack, .grow 0 1 1 [true, true]]

theorem dataStack_run : ∃ t : Sys 2 1, Run (fun s a t => Pstep smallConf s a t ∧ Clear s a)
    (reginit 2 1 small) (dataStack 0) t ∧ (t.p_region 0).length = 2 := by
  refine ⟨_, .cons ⟨rfl, trivial⟩ (.cons ⟨rfl, ?_⟩ (.cons ⟨rfl, fun prp hi _ => ?_⟩
    (.cons ⟨rfl, trivial⟩ (.cons ⟨rfl, ?_⟩ (.cons ⟨rfl, fun prp hi _ => ?_⟩ (.nil _)))))), ?_⟩
  · show (0 : ℤ) + 1024 * (0 + 0) < 2147483648
    decide
  · cases hi
    refine ⟨fun _ => ?_, nofun⟩
    show (0 : ℤ) + 1 < 32768
    decide
  · show (33554432 : ℤ) + 1024 * (0 + 0) < 2147483648
    decide
  · cases hi
    refine ⟨fun _ => ?_, fun _ => ⟨rfl, fun _ => .inr ⟨?_, fun o ho => ?_⟩⟩⟩
    · show (0 : ℤ) + 1 < 32768
      decide
    · show (0 : ℤ) ≤ 33554432 - 262144 * (1 - 0)
      decide
    · cases ho
      show (0 : ℤ) + 262144 ≤ 33554432 - 262144 * (1 - 0)
      decide
  · rfl

/-- In every run of clear steps that succeed, the pregions of a process lie apart and in order. -/
theorem pregions_apart {c : Conf} {m : Mem} {as : List (Act r n)} {t : Sys r n}
    (h : Run (fun s a t => Pstep c s a t ∧ Clear s a) (reginit r n m) as t) : Regions c t := by
  have hstep (s : Sys r n) (a : Act r n) (t : Sys r n) (hs : Laid c s ∧ Counted m.sum s)
      (hst : Pstep c s a t ∧ Clear s a) : Laid c t ∧ Counted m.sum t :=
    ⟨next_laid hs.1 hs.2 hst.2 hst.1, next_counted hs.2 (hst.2.sound hs.2.linked hst.1) hst.1⟩
  have hinit : Laid c (reginit r n m) := by
    refine ⟨fun _ => ?_, fun _ => Placed.nil _, fun _ hne => absurd rfl hne⟩
    show (-256 : ℤ) < 0 ∧ (0 : ℤ) < 32768 ∧ (0 : ℤ) ≤ 0 ∧ (0 : ℤ) < 32768
    decide
  exact (h.invariant hstep ⟨hinit, reginit_counted m⟩).1.regions

theorem pregions_apart_dataStack :
    ∃ t : Sys 2 1, (t.p_region 0).length = 2 ∧ Regions smallConf t := by
  obtain ⟨t, ht, hlen⟩ := dataStack_run
  exact ⟨t, hlen, pregions_apart ht⟩

/-- The state after steps that succeed. -/
def after (c : Conf) : List (Act r n) → Sys r n → Option (Sys r n)
  | [], s => some s
  | a :: as, s =>
    match next c s a with
    | some (true, t) => after c as t
    | _ => none

theorem after_run {c : Conf} {as : List (Act r n)} {s : Sys r n} {f : Sys r n → Bool}
    (h : (after c as s).any f = true) : ∃ t, Run (Pstep c) s as t ∧ f t = true := by
  induction as generalizing s with
  | nil => exact ⟨s, .nil _, h⟩
  | cons a as ih =>
    unfold after at h
    split at h
    next s' heq =>
      obtain ⟨t, ht, hf⟩ := ih h
      exact ⟨t, .cons heq ht, hf⟩
    · exact absurd h nofun

/-- The first two entries of a list begin at `va`, and span a segment. -/
def Sys.bothAt (up : Fin n) (va : ℤ) (s : Sys r n) : Bool :=
  match s.p_region up with
  | a :: b :: _ =>
    a.p_regva = va && b.p_regva = va &&
      stob (ctos ((s.reg a.p_reg).r_pgoff + (s.reg a.p_reg).r_pgsz)) = segment &&
      stob (ctos ((s.reg b.p_reg).r_pgoff + (s.reg b.p_reg).r_pgsz)) = segment
  | _ => false

theorem bothAt_overlap {up : Fin n} {va : ℤ} {s : Sys r n} (h : s.bothAt up va = true) :
    ¬ (s.p_region up).Pairwise fun a b => Disjoint (range s.reg a) (range s.reg b) := by
  intro hdisj
  unfold Sys.bothAt at h
  split at h
  next a b l hlist =>
    rw [Bool.and_eq_true, Bool.and_eq_true, Bool.and_eq_true, decide_eq_true_eq, decide_eq_true_eq,
      decide_eq_true_eq, decide_eq_true_eq] at h
    obtain ⟨⟨⟨ha, hb⟩, hsa⟩, hsb⟩ := h
    rw [hlist] at hdisj
    have hab := (pairwise_cons.mp hdisj).1 b mem_cons_self
    unfold range at hab
    rw [ha, hb, hsa, hsb, Set.disjoint_left] at hab
    have hmem : va ∈ Set.Ico va (va + segment) := by
      unfold segment
      constructor
      · exact Int.le_refl _
      · omega
    exact hab hmem hmem
  · exact absurd h nofun

/-- The first page of a stack comes into the segment of the region below it. -/
theorem stack_overlaps :
    ¬ ∀ (r n : ℕ) (c : Conf) (m : Mem) (as : List (Act r n)) (t : Sys r n),
      Run (Pstep c) (reginit r n m) as t → Regions c t := by
  intro h
  have hrun : ((after smallConf (dataStack (usrstack - segment)) (reginit 2 1 small)).any
      (Sys.bothAt 0 (usrstack - segment))) = true := by
    decide +kernel
  obtain ⟨t, ht, hboth⟩ := after_run hrun
  exact bothAt_overlap hboth ((h 2 1 smallConf small _ t ht).disjoint 0)

end Svr3.Region
