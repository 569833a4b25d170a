import Svr3.Os.SwapallocRun

/-!
# The search for swap pages

`swapfind` searches behind its rover and then before it. It misses only places with the rover inside.
-/

namespace Svr3.Swap

open List

/-! ## What the search reads -/

/-- The counts that the inner loop reads -/
def zerosReads (u : ℤ → UInt8) : ℕ → ℕ → List ℕ
  | 0, _ => []
  | n + 1, p => p :: if u p ≠ 0 then [] else zerosReads u n (p + 1)

/-- The counts that an outer loop reads -/
def scanReads (u : ℤ → UInt8) (size : ℕ) (e : ℤ) : ℕ → ℕ → List ℕ
  | 0, _ => []
  | n + 1, p =>
    if e < p then []
    else if u p = 0 then
      p :: zerosReads u (size - 1) (p + 1) ++
        match zeros u (size - 1) (p + 1) with
        | (true, _) => []
        | (false, q) => scanReads u size e n (q + 1)
    else p :: scanReads u size e n (p + 1)

def swapfindReads (st : Swpt) (u : ℤ → UInt8) (size : ℕ) : List ℕ :=
  let e := st.st_npgs - size
  scanReads u size e (e + 1 - st.st_next).toNat st.st_next ++
    match scan u size e (e + 1 - st.st_next).toNat st.st_next with
    | some _ => []
    | none => scanReads u size (st.st_next - size) ((st.st_next : ℤ) - size + 1).toNat 0

section search

variable {u : ℤ → UInt8} {size n p q i : ℕ} {e : ℤ} {st : Swpt}

theorem zerosReads_bounds (hi : i ∈ zerosReads u n p) : p ≤ i ∧ i < p + n := by
  induction n generalizing p with
  | zero => exact absurd hi not_mem_nil
  | succ n ih =>
    rw [zerosReads] at hi
    rcases mem_cons.mp hi with rfl | hi
    · omega
    · split at hi
      · exact absurd hi not_mem_nil
      · have hrest := ih hi
        omega

theorem zeros_false (h : zeros u n p = (false, q)) : p ≤ q ∧ q < p + n ∧ u q ≠ 0 := by
  induction n generalizing p with
  | zero => exact absurd (Prod.mk.inj h).1 nofun
  | succ n ih =>
    rw [zeros] at h
    split at h
    next hne =>
      obtain ⟨-, rfl⟩ := Prod.mk.inj h
      exact ⟨Nat.le_refl _, by omega, hne⟩
    next =>
      have hrest := ih h
      exact ⟨by omega, by omega, hrest.2.2⟩

/-- The loop reads nothing behind the last place. -/
theorem scanReads_bounds (hsize : 0 < size) (hi : i ∈ scanReads u size e n p) : (i : ℤ) < e + size := by
  induction n generalizing p with
  | zero => exact absurd hi not_mem_nil
  | succ n ih =>
    rw [scanReads] at hi
    split at hi
    · exact absurd hi not_mem_nil
    next hle =>
      split at hi
      next =>
        rcases mem_append.mp hi with hi | hi
        · rcases mem_cons.mp hi with rfl | hi
          · omega
          · have hz := zerosReads_bounds hi
            omega
        · split at hi
          · exact absurd hi not_mem_nil
          · exact ih hi
      next =>
        rcases mem_cons.mp hi with rfl | hi
        · omega
        · exact ih hi

/-- A loop with enough turns finds a place if there is one. -/
theorem scan_none (hn : e < p + n) (h : scan u size e n p = none) (b : ℕ) (hb : p ≤ b) (hbe : (b : ℤ) ≤ e)
    (hsize : 0 < size) : ∃ j : ℕ, b ≤ j ∧ j < b + size ∧ u j ≠ 0 := by
  induction n generalizing p with
  | zero => omega
  | succ n ih =>
    rw [scan, if_neg (by omega)] at h
    split at h
    next hzero =>
      split at h
      · cases h
      next r hz =>
        obtain ⟨h1, h2, h3⟩ := zeros_false hz
        -- no place before the count that stopped the inner loop
        rcases Nat.lt_or_ge r b with hlt | hge
        · exact ih (by omega) h (by omega)
        · exact ⟨r, hge, by omega, h3⟩
    next hne =>
      rcases Nat.eq_or_lt_of_le hb with rfl | hlt
      · exact ⟨p, Nat.le_refl _, by omega, hne⟩
      · exact ih (by omega) h hlt

theorem scan_ge {b : ℕ} (h : scan u size e n p = some (b, q)) : p ≤ b := by
  induction n generalizing p with
  | zero => cases h
  | succ n ih =>
    rw [scan] at h
    split at h
    · cases h
    · split at h
      · split at h
        · obtain ⟨rfl, -⟩ := Prod.mk.inj (Option.some.inj h)
          exact Nat.le_refl _
        next r hz =>
          have hq := (zeros_false hz).1
          have hb := ih h
          omega
      · have hb := ih h
        omega

/-- What a search is to give -/
structure Exact (st : Swpt) (u : ℤ → UInt8) (size : ℕ) : Prop where
  found : (swapfind st size).1 ≠ -1 → Room size st (swapfind st size).1
  complete : (∃ b, Room size st b) → (swapfind st size).1 ≠ -1
  reads : ∀ i ∈ swapfindReads st u size, (i : ℤ) < st.st_npgs
  next : ((swapfind st size).2.st_next : ℤ) ≤ st.st_npgs

/-- The rover is not inside the place. -/
def Clear (st : Swpt) (size : ℕ) (b : ℤ) : Prop := (st.st_next : ℤ) ≤ b ∨ b + size ≤ st.st_next

theorem found_ne (b : ℕ) : (b : ℤ) ≠ -1 := by omega

/-- A place from `p` on that begins at `e` or before is not missed by the loop. -/
theorem scan_ne_none {b : ℤ} (hsize : 0 < size) (hu : st.st_ucnt = some u) (hroom : Room size st b) (hp : (p : ℤ) ≤ b)
    (he : b ≤ e) : scan u size e (e + 1 - p).toNat p ≠ none := by
  intro hnone
  obtain ⟨h0, -, v, hv, hzero⟩ := hroom
  obtain rfl : u = v := Option.some.inj (hu.symm.trans hv)
  obtain ⟨j, h1, h2, h3⟩ := scan_none (by omega) hnone b.toNat (by omega) (by omega) hsize
  exact h3 (hzero j (by omega) (by omega))

theorem swapfind_ne (hsize : 0 < size) (hr : st.Roving) (hu : st.st_ucnt = some u) :
    ((swapfind st size).1 ≠ -1 → Room size st (swapfind st size).1 ∧ Clear st size (swapfind st size).1) ∧
      ((∃ b, Room size st b ∧ Clear st size b) → (swapfind st size).1 ≠ -1) := by
  have hspec := (swapfind_spec hsize hr).2.2
  rw [swapfind, hu] at hspec ⊢
  dsimp only at hspec ⊢
  cases h1 : scan u size (st.st_npgs - size) (st.st_npgs - size + 1 - st.st_next).toNat st.st_next with
  | some r =>
    obtain ⟨b, q⟩ := r
    rw [h1] at hspec
    have hb := scan_ge h1
    exact ⟨fun _ => ⟨hspec (Int.natCast_nonneg b), .inl (Int.ofNat_le.mpr hb)⟩, fun _ => found_ne b⟩
  | none =>
    rw [h1] at hspec
    dsimp only at hspec ⊢
    cases h2 : scan u size (st.st_next - size) ((st.st_next : ℤ) - size + 1).toNat 0 with
    | some r =>
      obtain ⟨b, q⟩ := r
      rw [h2] at hspec
      obtain ⟨-, hb, -⟩ := scan_some hsize h2
      exact ⟨fun _ => ⟨hspec (Int.natCast_nonneg b), .inr (by dsimp only; omega)⟩, fun _ => found_ne b⟩
    | none =>
      refine ⟨fun h => absurd rfl h, ?_⟩
      rintro ⟨b, hroom, hclear | hclear⟩
      · have hlen := hroom.2.1
        exact absurd h1 (scan_ne_none hsize hu hroom hclear (by omega))
      · have hpos := hroom.1
        refine absurd ?_ (scan_ne_none (p := 0) (e := (st.st_next : ℤ) - size) hsize hu hroom (by exact_mod_cast hpos)
          (by omega))
        rw [Nat.cast_zero, Int.sub_zero]
        exact h2

/-- The search is exact when some place does not have the rover inside, if there is a place at all. -/
theorem swapfind_exact (hsize : 0 < size) (hnext : (st.st_next : ℤ) ≤ st.st_npgs) (hu : st.st_ucnt = some u) :
    Exact st u size ↔ ((∃ b, Room size st b) → ∃ b, Room size st b ∧ Clear st size b) := by
  have hr : st.Roving := fun _ => hnext
  obtain ⟨hsound, hclear⟩ := swapfind_ne hsize hr hu
  constructor
  · intro h hroom
    exact ⟨_, hsound (h.complete hroom)⟩
  · intro h
    refine ⟨fun hne => (hsound hne).1, fun hroom => hclear (h hroom), fun i hi => ?_, ?_⟩
    · rw [swapfindReads] at hi
      rcases mem_append.mp hi with hi | hi
      · have hb := scanReads_bounds hsize hi
        omega
      · split at hi
        · exact absurd hi not_mem_nil
        · have hb := scanReads_bounds hsize hi
          omega
    · obtain ⟨⟨p, hp⟩, hrov, -⟩ := swapfind_spec hsize hr
      have hle := hrov (by rw [hp, hu]; rfl)
      rw [hp] at hle ⊢
      exact hle

/-- A file of four pages with the rover in the middle -/
def fourPages (u : ℤ → UInt8) : Swpt := ⟨0, false, some u, 2, 0, 4, 4⟩

theorem fourPages_exact : Exact (fourPages fun _ => 0) (fun _ => 0) 2 :=
  (swapfind_exact (by decide) (by decide) rfl).mpr fun _ =>
    ⟨0, ⟨by decide, by decide, _, rfl, fun _ _ _ => rfl⟩, .inr (by decide)⟩

/-- The two pages in the middle are free, and the search finds none. -/
theorem middle_missed :
    Room 2 (fourPages fun i => if i = 1 ∨ i = 2 then 0 else 1) 1 ∧
      (swapfind (fourPages fun i => if i = 1 ∨ i = 2 then 0 else 1) 2).1 = -1 := by
  refine ⟨⟨by decide, by decide, _, rfl, fun j h1 h2 => if_pos ?_⟩, by decide⟩
  dsimp only [Nat.cast_ofNat] at h2
  omega

end search

end Svr3.Swap
