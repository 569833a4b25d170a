import Mathlib.Data.Fintype.Card
import Mathlib.Data.Fin.VecNotation
import Mathlib.Algebra.Group.Int.Defs

/-!
# The regions that `vhand` takes pages from

A region whose pages are taken gets a new time stamp, and the loop goes on as long as some region has one that is
less than the first of these. The stamps are taken from an unsigned counter, and compared as integers.
-/

namespace Svr3.Vhand

open Function List

/-- What the loop looks at in a region -/
structure Reg where
  r_flags : BitVec 16
  r_timestamp : BitVec 32

variable {n : ℕ}

/-- `(rp->r_flags & msk) == msk` -/
def Aged (msk : BitVec 32) (rp : Reg) : Prop := rp.r_flags.signExtend 32 &&& msk = msk

instance (msk : BitVec 32) (rp : Reg) : Decidable (Aged msk rp) := inferInstanceAs (Decidable (_ = _))

/-- One turn over the active list, with `tstamp` and `srp` -/
def older (msk : BitVec 32) (locked : Fin n → Bool) (ractive : Fin n → Reg) (old : BitVec 32 × Option (Fin n))
    (rp : Fin n) : BitVec 32 × Option (Fin n) :=
  if locked rp then old
  else if ¬Aged msk (ractive rp) then old
  else if (ractive rp).r_timestamp.slt old.1 then ((ractive rp).r_timestamp, some rp)
  else old

def regoldest (msk : BitVec 32) (locked : Fin n → Bool) (ractive : Fin n → Reg) (cutoff : BitVec 32) :
    Option (Fin n) :=
  ((List.finRange n).foldl (older msk locked ractive) (cutoff, none)).2

/-- What other processes do: which regions are locked at a turn, and whether there is enough free memory after it -/
structure World (n : ℕ) where
  locked : ℕ → Fin n → Bool
  enough : ℕ → Bool

/-- `rp->r_timestamp = currentstamp++` -/
def getpages (rp : Fin n) (currentstamp : BitVec 32) (ractive : Fin n → Reg) : Fin n → Reg :=
  update ractive rp { ractive rp with r_timestamp := currentstamp }

/-- The loop `while( rp = regoldest( cutoff ) )` from the turn `t` on, and the regions that `getpages` is called for;
`none` when there are more turns than `fuel`. -/
def steal (msk : BitVec 32) (w : World n) (cutoff : BitVec 32) :
    ℕ → ℕ → (Fin n → Reg) → BitVec 32 → Option (List (Fin n))
  | 0, _, _, _ => none
  | fuel + 1, t, ractive, currentstamp =>
    match regoldest msk (w.locked t) ractive cutoff with
    | none => some []
    | some rp =>
      if w.enough t then some [rp]
      else (steal msk w cutoff fuel (t + 1) (getpages rp currentstamp ractive) (currentstamp + 1)).map (rp :: ·)

/-- The loop ends, and has called `getpages` once at most for each region. -/
def Once (msk currentstamp : BitVec 32) (ractive : Fin n → Reg) : Prop :=
  ∀ w, ∃ rps, steal msk w currentstamp (n + 1) 0 ractive currentstamp = some rps ∧ rps.Nodup

/-- The regions that pages may be taken from: they have aged, and their time stamps are below `cutoff`. -/
def below (msk cutoff : BitVec 32) (ractive : Fin n → Reg) : Finset (Fin n) :=
  Finset.univ.filter fun rp => Aged msk (ractive rp) ∧ (ractive rp).r_timestamp.toInt < cutoff.toInt

variable {msk cutoff currentstamp : BitVec 32} {ractive : Fin n → Reg} {locked : Fin n → Bool} {rp : Fin n}
  {rps : List (Fin n)}

theorem mem_below : rp ∈ below msk cutoff ractive ↔
    Aged msk (ractive rp) ∧ (ractive rp).r_timestamp.toInt < cutoff.toInt := by
  simp [below]

/-! ## The oldest region -/

/-- Nothing is found, or a region that is not locked, has aged and is below the stamp the scan began with. -/
theorem foldl_older (msk : BitVec 32) (locked : Fin n → Bool) (ractive : Fin n → Reg) (rs : List (Fin n))
    (old : BitVec 32 × Option (Fin n)) :
    rs.foldl (older msk locked ractive) old = old ∧
        (∀ rp ∈ rs, locked rp = false → Aged msk (ractive rp) → old.1.toInt ≤ (ractive rp).r_timestamp.toInt) ∨
      ∃ rp, (rs.foldl (older msk locked ractive) old).2 = some rp ∧ Aged msk (ractive rp) ∧
        (ractive rp).r_timestamp.toInt < old.1.toInt := by
  induction rs generalizing old with
  | nil => exact .inl ⟨rfl, nofun⟩
  | cons r rs ih =>
    rw [foldl_cons]
    by_cases hr : locked r = false ∧ Aged msk (ractive r) ∧ (ractive r).r_timestamp.toInt < old.1.toInt
    · obtain ⟨hlocked, haged, hlt⟩ := hr
      have hstep : older msk locked ractive old r = ((ractive r).r_timestamp, some r) := by
        rw [older, hlocked, if_neg nofun, if_neg (not_not.mpr haged), if_pos (BitVec.slt_iff_toInt_lt.mpr hlt)]
      rw [hstep]
      rcases ih ((ractive r).r_timestamp, some r) with ⟨hsame, -⟩ | ⟨rp, hrp, haged', hlt'⟩
      · exact .inr ⟨r, by rw [hsame], haged, hlt⟩
      · exact .inr ⟨rp, hrp, haged', hlt'.trans hlt⟩
    · have hstep : older msk locked ractive old r = old := by
        rw [older]
        split
        · rfl
        next hlocked =>
          split
          · rfl
          next haged =>
            rw [if_neg]
            intro hslt
            exact hr ⟨Bool.eq_false_iff.mpr hlocked, not_not.mp haged, BitVec.slt_iff_toInt_lt.mp hslt⟩
      rw [hstep]
      refine (ih old).imp_left fun ⟨hsame, hall⟩ => ⟨hsame, forall_mem_cons.mpr ⟨fun hlocked haged => ?_, hall⟩⟩
      by_contra hlt
      exact hr ⟨hlocked, haged, Int.not_le.mp hlt⟩

theorem regoldest_some (h : regoldest msk locked ractive cutoff = some rp) : rp ∈ below msk cutoff ractive := by
  rw [regoldest] at h
  rcases foldl_older msk locked ractive (List.finRange n) (cutoff, none) with ⟨hsame, -⟩ | ⟨r, hr, haged, hlt⟩
  · rw [hsame] at h
    exact nomatch h
  · rw [hr] at h
    rw [mem_below, ← Option.some.inj h]
    exact ⟨haged, hlt⟩

theorem regoldest_none (h : regoldest msk locked ractive cutoff = none) (hlocked : locked rp = false) :
    rp ∉ below msk cutoff ractive := by
  rw [regoldest] at h
  rw [mem_below]
  rintro ⟨haged, hlt⟩
  rcases foldl_older msk locked ractive (List.finRange n) (cutoff, none) with ⟨-, hall⟩ | ⟨r, hr, -⟩
  · exact absurd (hall rp (mem_finRange rp) hlocked haged) (Int.not_le.mpr hlt)
  · rw [hr] at h
    exact nomatch h

/-! ## Turns of the loop -/

theorem below_getpages {r : Fin n} (hr : r ≠ rp) :
    r ∈ below msk cutoff (getpages rp currentstamp ractive) ↔ r ∈ below msk cutoff ractive := by
  rw [mem_below, mem_below, getpages, update_of_ne hr]

/-- A turn takes one region, if its stamp is not below the cutoff again. -/
theorem below_step (hle : cutoff.toInt ≤ currentstamp.toInt) :
    below msk cutoff (getpages rp currentstamp ractive) = (below msk cutoff ractive).erase rp := by
  ext r
  by_cases hr : r = rp
  · subst hr
    rw [mem_below, getpages, update_self]
    exact iff_of_false (fun h => absurd h.2 (Int.not_lt.mpr hle)) (Finset.notMem_erase r _)
  · rw [below_getpages hr, Finset.mem_erase, and_iff_right hr]

theorem toInt_succ {x : BitVec 32} (h : x.toInt < 2 ^ 31 - 1) : (x + 1).toInt = x.toInt + 1 := by
  have hlo := BitVec.le_toInt x
  have hone : (1 : BitVec 32).toInt = 1 := rfl
  rw [BitVec.toInt_add, hone, Int.bmod_eq_of_le (by omega) (by omega)]

/-- The loop from a turn on, when the stamps that are still to come are not less than the cutoff -/
theorem steal_once (w : World n) {fuel : ℕ} (t : ℕ) (hfuel : (below msk cutoff ractive).card < fuel)
    (hstamp : (below msk cutoff ractive).card = 0 ∨
      cutoff.toInt ≤ currentstamp.toInt ∧ currentstamp.toInt + (below msk cutoff ractive).card ≤ 2 ^ 31) :
    ∃ rps, steal msk w cutoff fuel t ractive currentstamp = some rps ∧ rps.Nodup ∧
      ∀ rp ∈ rps, rp ∈ below msk cutoff ractive := by
  induction fuel generalizing t ractive currentstamp with
  | zero => exact absurd hfuel (Nat.not_lt_zero _)
  | succ fuel ih =>
    rw [steal]
    cases hrp : regoldest msk (w.locked t) ractive cutoff with
    | none => exact ⟨[], rfl, nodup_nil, nofun⟩
    | some rp =>
      have hin := regoldest_some hrp
      have hpos := Finset.card_pos.mpr ⟨rp, hin⟩
      obtain ⟨hle, hsum⟩ := hstamp.resolve_left (by omega)
      dsimp only
      split
      · exact ⟨[rp], rfl, nodup_singleton rp, fun r hr => mem_singleton.mp hr ▸ hin⟩
      · have hcard : (below msk cutoff (getpages rp currentstamp ractive)).card = (below msk cutoff ractive).card - 1 := by
          rw [below_step hle, Finset.card_erase_of_mem hin]
        have hnext : (below msk cutoff (getpages rp currentstamp ractive)).card = 0 ∨
            cutoff.toInt ≤ (currentstamp + 1).toInt ∧ (currentstamp + 1).toInt +
              (below msk cutoff (getpages rp currentstamp ractive)).card ≤ 2 ^ 31 := by
          by_cases hlast : (below msk cutoff ractive).card = 1
          · exact .inl (by omega)
          · rw [hcard, toInt_succ (by omega)]
            exact .inr (by omega)
        obtain ⟨rps, hrun, hnodup, hbelow⟩ := ih (t + 1) (by omega) hnext
        refine ⟨rp :: rps, by rw [hrun]; rfl, nodup_cons.mpr ⟨fun hmem => ?_, hnodup⟩, fun r hr => ?_⟩
        · have hagain := hbelow rp hmem
          rw [below_step hle] at hagain
          exact Finset.notMem_erase rp _ hagain
        · rcases mem_cons.mp hr with rfl | hr
          · exact hin
          · have hr' := hbelow r hr
            rw [below_step hle] at hr'
            exact Finset.mem_of_mem_erase hr'

/-! ## When nothing is freed -/

/-- No region is locked, and there is never enough memory. -/
def tight : World n where
  locked := fun _ _ => false
  enough := fun _ => false

/-- The regions after `getpages` was called for each of `rps` -/
def stamped : List (Fin n) → (Fin n → Reg) → BitVec 32 → Fin n → Reg
  | [], ractive, _ => ractive
  | rp :: rps, ractive, currentstamp => stamped rps (getpages rp currentstamp ractive) (currentstamp + 1)

theorem stamped_of_notMem (h : rp ∉ rps) : stamped rps ractive currentstamp rp = ractive rp := by
  induction rps generalizing ractive currentstamp with
  | nil => rfl
  | cons r rps ih =>
    rw [mem_cons, not_or] at h
    rw [stamped, ih h.2, getpages, update_of_ne h.1]

/-- The `j`-th stamp, for a region that gets no other -/
theorem stamped_get (ractive : Fin n → Reg) (currentstamp : BitVec 32) (h : rps.Nodup) {j : ℕ}
    (hj : j < rps.length) :
    (stamped rps ractive currentstamp rps[j]).r_timestamp = currentstamp + BitVec.ofNat 32 j ∧
      (stamped rps ractive currentstamp rps[j]).r_flags = (ractive rps[j]).r_flags := by
  induction rps generalizing ractive currentstamp j with
  | nil => exact absurd hj (Nat.not_lt_zero _)
  | cons r rps ih =>
    obtain ⟨hr, hrps⟩ := nodup_cons.mp h
    rw [stamped]
    cases j with
    | zero =>
      rw [getElem_cons_zero, stamped_of_notMem hr, getpages, update_self]
      exact ⟨(BitVec.add_zero _).symm, rfl⟩
    | succ j =>
      have hj' := Nat.lt_of_succ_lt_succ hj
      have hne : rps[j] ≠ r := ne_of_mem_of_not_mem (getElem_mem hj') hr
      have hnext : BitVec.ofNat 32 (j + 1) = 1 + BitVec.ofNat 32 j := by
        rw [Nat.add_comm, BitVec.ofNat_add]
        rfl
      obtain ⟨htime, hflags⟩ := ih (getpages r currentstamp ractive) (currentstamp + 1) hrps hj'
      rw [getElem_cons_succ, htime, hflags, getpages, update_of_ne hne, BitVec.add_assoc, ← hnext]
      exact ⟨rfl, rfl⟩

theorem steal_tight {fuel t : ℕ} (h : steal msk tight cutoff fuel t ractive currentstamp = some rps) :
    (below msk cutoff ractive).card ≤ rps.length ∧ below msk cutoff (stamped rps ractive currentstamp) = ∅ ∧
      ∀ rp ∈ rps, Aged msk (ractive rp) := by
  induction fuel generalizing t ractive currentstamp rps with
  | zero => exact nomatch h
  | succ fuel ih =>
    rw [steal] at h
    split at h
    next hnone =>
      have hempty : below msk cutoff ractive = ∅ :=
        Finset.eq_empty_of_forall_notMem fun rp => regoldest_none hnone rfl
      rw [← Option.some.inj h, hempty]
      exact ⟨Nat.le_refl 0, hempty, nofun⟩
    next rp hrp =>
      have hin := regoldest_some hrp
      rw [if_neg nofun] at h
      obtain ⟨rest, hrest, rfl⟩ := Option.map_eq_some_iff.mp h
      obtain ⟨hcard, hempty, haged⟩ := ih hrest
      have hsub : (below msk cutoff ractive).erase rp ⊆ below msk cutoff (getpages rp currentstamp ractive) := by
        intro r hr
        exact (below_getpages (Finset.ne_of_mem_erase hr)).mpr (Finset.mem_of_mem_erase hr)
      have hle := Finset.card_le_card hsub
      rw [Finset.card_erase_of_mem hin] at hle
      refine ⟨by rw [length_cons]; omega, hempty, forall_mem_cons.mpr ⟨(mem_below.mp hin).1, ?_⟩⟩
      intro r hr
      have haged' := haged r hr
      by_cases heq : r = rp
      · rw [heq]
        exact (mem_below.mp hin).1
      · rwa [getpages, update_of_ne heq] at haged'

/-- Where the stamps get to the sign -/
theorem toInt_wrap {x : BitVec 32} {j : ℕ} (hj : x.toInt + j = 2 ^ 31) :
    (x + BitVec.ofNat 32 j).toInt = -2 ^ 31 := by
  have hx := BitVec.le_toInt x
  rw [BitVec.toInt_add, BitVec.toInt_ofNat', Int.add_bmod_bmod, hj]
  decide

/-- The loop calls `getpages` once at most for each region exactly if the stamps it gives do not reach 2^31. -/
theorem once_iff (msk currentstamp : BitVec 32) (ractive : Fin n → Reg) :
    Once msk currentstamp ractive ↔
      currentstamp.toInt + (below msk currentstamp ractive).card ≤ 2 ^ 31 := by
  constructor
  · intro h
    by_contra hover
    obtain ⟨rps, hrun, hnodup⟩ := h tight
    obtain ⟨hcard, hempty, haged⟩ := steal_tight hrun
    have hlt := BitVec.toInt_lt (x := currentstamp)
    obtain ⟨j, hj⟩ : ∃ j : ℕ, currentstamp.toInt + j = 2 ^ 31 := ⟨(2 ^ 31 - currentstamp.toInt).toNat, by omega⟩
    have hlen : j < rps.length := by omega
    have hpos : 0 < (below msk currentstamp ractive).card := by omega
    obtain ⟨r, hr⟩ := Finset.card_pos.mp hpos
    have hr' := (mem_below.mp hr).2
    have hlow := BitVec.le_toInt (ractive r).r_timestamp
    have hmem : rps[j] ∈ below msk currentstamp (stamped rps ractive currentstamp) := by
      obtain ⟨htime, hflags⟩ := stamped_get ractive currentstamp hnodup hlen
      rw [mem_below, htime, toInt_wrap hj, Aged, hflags]
      exact ⟨haged _ (getElem_mem hlen), by omega⟩
    rw [hempty] at hmem
    exact Finset.notMem_empty _ hmem
  · intro hle w
    have hcard : (below msk currentstamp ractive).card < n + 1 := by
      have huniv := Finset.card_le_univ (below msk currentstamp ractive)
      rw [Fintype.card_fin] at huniv
      omega
    obtain ⟨rps, hrun, hnodup, -⟩ := steal_once w 0 hcard (.inr ⟨Int.le_refl _, hle⟩)
    exact ⟨rps, hrun, hnodup⟩

/-- Two regions with the last two stamps of an earlier pass -/
def lastTwo : Fin 2 → Reg := ![⟨8, 0x7FFFFFFD⟩, ⟨8, 0x7FFFFFFE⟩]

/-- The second region gets a stamp with the sign, and is the oldest again. -/
theorem steal_again : ¬∀ n msk currentstamp (ractive : Fin n → Reg), Once msk currentstamp ractive := by
  intro h
  obtain ⟨rps, hrun, -⟩ := h 2 8 0x7FFFFFFF lastTwo tight
  have hnone : steal 8 tight 0x7FFFFFFF 3 0 lastTwo 0x7FFFFFFF = none := by decide +kernel
  exact Option.some_ne_none rps (hrun.symm.trans hnone)

end Svr3.Vhand
