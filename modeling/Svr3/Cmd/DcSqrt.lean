import Svr3.Cmd.DcDiv
import Svr3.Cmd.DcMult
import Mathlib.Data.Nat.Digits.Lemmas

/-!
# Square roots in `dc`

`sqrt` of `cmd/dc/dc.c`, with the division as a parameter. A first estimate from the highest digits is above
the root, and the iteration goes down until it is the root.
-/

namespace Svr3.Dc

open List

/-- `while((c -= nn)>=0)nn+=2;` with the last `nn`. Each turn takes 1 from `c` at least. -/
def oddLoop : ℕ → ℤ → ℤ → ℤ
  | 0, _, nn => nn
  | fuel + 1, c, nn => if c - nn ≥ 0 then oddLoop fuel (c - nn) (nn + 2) else nn

/-- The first `r` -/
def sqrtStart (p : Blk) : Blk :=
  let n := p.length
  let c := p.getLast?.getD (-1)
  let c := if n % 2 ≠ 1 then c * 100 + back p 1 else c
  let r : Blk := List.replicate ((n + 1) / 2) 0
  let c := (oddLoop (c.toNat + 1) c 1 + 1) / 2
  if c ≥ 100 then r.dropLast ++ [char (c - 100), 1] else r.dropLast ++ [char c]

/-- `while(1)` -/
def sqrtLoop (div : Blk → Blk → Option (Blk × Blk)) (p : Blk) : ℕ → Blk → Option Blk
  | 0, _ => none
  | fuel + 1, r => do
    let (q, _) ← div p r
    let (q, _) ← div (add q r) [2]
    let t := add (chsign r) q
    if back t 0 ≥ 0 then some r else sqrtLoop div p fuel q

def sqrt (div : Blk → Blk → Option (Blk × Blk)) (fuel : ℕ) (p : Blk) : Option Blk :=
  sqrtLoop div p fuel (sqrtStart p)

/-- A division of positive numbers that is exact -/
def ExactDiv (div : Blk → Blk → Option (Blk × Blk)) : Prop :=
  ∀ a b, Normal a → Normal b → 0 < radix 100 a → 0 < radix 100 b →
    ∃ q rem, div a b = some (q, rem) ∧ Exact a b q rem

/-! ## Newton's iteration -/

section Newton

variable {p r : ℤ}

theorem lt_newton_sq (hr : 0 < r) (hp : 0 ≤ p) : p < ((r + p / r) / 2 + 1) ^ 2 := by
  have hq := Int.ediv_nonneg hp hr.le
  have hlt := Int.lt_mul_ediv_self_add (x := p) hr
  obtain ⟨q, hqr⟩ : ∃ q, q = p / r := ⟨_, rfl⟩
  rw [← hqr] at hq hlt ⊢
  have hhalf : r + (q + 1) ≤ 2 * ((r + q) / 2 + 1) := by omega
  have hsq := mul_self_le_mul_self (by omega) hhalf
  have hmean := sq_nonneg (r - (q + 1))
  linarith

theorem newton_lt (hr : 0 < r) (h : p < r ^ 2) : (r + p / r) / 2 < r := by
  rw [sq] at h
  have hq := Int.ediv_lt_of_lt_mul hr h
  omega

theorem sq_le_of_newton (hr : 0 < r) (h : r ≤ (r + p / r) / 2) : r ^ 2 ≤ p := by
  by_contra hlt
  exact absurd (newton_lt hr (not_le.mp hlt)) (not_lt.mpr h)

end Newton

/-! ## The first estimate -/

theorem oddLoop_spec {fuel : ℕ} {c j : ℤ} (hj : 0 ≤ j) (hc : 0 ≤ c) (hfuel : c < fuel) :
    ∃ k, oddLoop fuel c (2 * j + 1) = 2 * k + 1 ∧ j ≤ k ∧ k ^ 2 - j ^ 2 ≤ c ∧ c < (k + 1) ^ 2 - j ^ 2 := by
  induction fuel generalizing c j with
  | zero => omega
  | succ fuel ih =>
    rw [oddLoop]
    split
    next hge =>
      have hnext : 2 * j + 1 + 2 = 2 * (j + 1) + 1 := by ring
      obtain ⟨k, heq, hle, hlo, hhi⟩ := ih (show 0 ≤ j + 1 by omega) hge (by omega)
      rw [hnext]
      exact ⟨k, heq, by omega, by linarith, by linarith⟩
    next hlt => exact ⟨j, rfl, le_refl j, by linarith, by linarith⟩

/-- The square of the number `c` that is found is above -/
theorem oddLoop_root {c : ℤ} (hc : 0 ≤ c) (hc' : c < 10000) :
    ∃ k, (oddLoop (c.toNat + 1) c 1 + 1) / 2 = k ∧ 1 ≤ k ∧ k ≤ 100 ∧ c < k ^ 2 := by
  obtain ⟨k, heq, hle, hlo, hhi⟩ := oddLoop_spec (le_refl 0) hc (show c < ((c.toNat + 1 : ℕ) : ℤ) by omega)
  rw [mul_zero, zero_add] at heq
  refine ⟨k + 1, by omega, by omega, ?_, by linarith⟩
  by_contra hlt
  have hsq := mul_self_le_mul_self (show (0 : ℤ) ≤ 100 by decide) (show 100 ≤ k by omega)
  linarith

/-- The digits that `c` is made of, and the number of places of the others halved -/
theorem lead_estimate {p : Blk} (hp : Proper 100 p) (hne : p ≠ []) :
    ∃ c m, (if p.length % 2 ≠ 1 then p.getLast?.getD (-1) * 100 + back p 1 else p.getLast?.getD (-1)) = c ∧
      (p.length + 1) / 2 = m + 1 ∧ 0 ≤ c ∧ c < 10000 ∧ radix 100 p < (c + 1) * 100 ^ (2 * m) := by
  have hlen := length_pos_of_ne_nil hne
  have hlast : p.getLast?.getD (-1) = back p 0 := by
    obtain ⟨low, d, rfl⟩ : ∃ low d, p = low ++ [d] := ⟨_, _, (dropLast_append_getLast hne).symm⟩
    rw [back_concat, List.getLast?_concat, Option.getD_some]
  have h0 := back_range hp 0
  have h1 := back_range hp 1
  rw [hlast]
  by_cases hodd : p.length % 2 = 1
  · obtain ⟨m, hm⟩ : ∃ m, p.length = 2 * m + 1 := ⟨p.length / 2, by omega⟩
    have hhi := (lead_bounds 1 hp).2
    rw [hm, lead, lead, pow_one, pow_zero, pow_succ] at hhi
    rw [if_neg (not_not.mpr hodd)]
    exact ⟨_, m, rfl, by omega, h0.1, by omega, by linarith⟩
  · obtain ⟨m, hm⟩ : ∃ m, p.length = 2 * m + 2 := ⟨p.length / 2 - 1, by omega⟩
    have hhi := (lead_bounds 2 hp).2
    rw [hm, pow_add, lead_two] at hhi
    rw [if_pos hodd]
    exact ⟨_, m, rfl, by omega, by omega, by omega, by linarith⟩

theorem radix_zeros (m : ℕ) (ds : Blk) :
    radix 100 (List.replicate m 0 ++ ds) = 100 ^ m * radix 100 ds := by
  induction m with
  | zero => simp
  | succ m ih =>
    rw [replicate_succ, cons_append, radix_cons, ih, pow_succ]
    ring

theorem sqrtStart_spec {p : Blk} (hp : Proper 100 p) (hne : p ≠ []) :
    Normal (sqrtStart p) ∧ 0 < radix 100 (sqrtStart p) ∧ radix 100 p < radix 100 (sqrtStart p) ^ 2 := by
  obtain ⟨c, m, hc, hm, hc0, hc1, hlt⟩ := lead_estimate hp hne
  obtain ⟨k, hk, hk1, hk100, hroot⟩ := oddLoop_root hc0 hc1
  have hpow : (0 : ℤ) < 100 ^ m := pow_pos (by decide) m
  have hsquare : radix 100 p < (100 ^ m * k) ^ 2 := by
    have hmul := mul_le_mul_of_nonneg_right (Int.add_one_le_iff.mpr hroot) (sq_nonneg ((100 : ℤ) ^ m))
    rw [pow_mul' 100 2 m] at hlt
    rw [mul_pow]
    linarith
  have hzeros : Proper 100 (List.replicate m 0) := by
    intro x hx
    rw [eq_of_mem_replicate hx]
    decide
  have hdrop : (List.replicate (m + 1) (0 : ℤ)).dropLast = List.replicate m 0 := by
    rw [replicate_succ', dropLast_concat]
  rw [sqrtStart, hc, hk, hm, hdrop]
  split
  next hge =>
    obtain rfl : k = 100 := by omega
    have hchar : char (100 - 100) = 0 := char_eq (by decide)
    have hval : radix 100 (List.replicate m 0 ++ [0, 1]) = 100 ^ m * 100 := by
      rw [radix_zeros]
      rfl
    have hlast : (List.replicate m (0 : ℤ) ++ [0, 1]).getLast? = some 1 := by
      rw [List.getLast?_append]
      rfl
    rw [hchar, hval]
    refine ⟨.inl ⟨hzeros.append (by decide), ?_⟩, mul_pos hpow (by decide), hsquare⟩
    rw [hlast]
    decide
  next hlt =>
    rw [char_eq (by omega)]
    have hval : radix 100 (List.replicate m 0 ++ [k]) = 100 ^ m * k := by
      rw [radix_zeros, radix_cons, radix_nil]
      ring
    rw [hval]
    refine ⟨.inl ⟨hzeros.append fun x hx => ?_, ?_⟩, mul_pos hpow (by omega), hsquare⟩
    · rw [mem_singleton.mp hx]
      omega
    · rw [List.getLast?_concat]
      intro hzero
      have hk0 := Option.some.inj hzero
      omega

/-! ## The iteration -/

theorem Canonical.back_nonneg {p : Blk} (h : Canonical p) : back p 0 ≥ 0 ↔ 0 ≤ radix 100 p := by
  obtain ⟨-, -, hneg, hpos⟩ := h.cases
  rw [ge_iff_le, ← not_lt, h.back_neg]
  refine ⟨fun hlast => (hpos hlast).1, fun hnonneg hlast => ?_⟩
  exact absurd (hneg hlast).1 (not_lt.mpr hnonneg)

theorem add_canonical {a b : Blk} (ha : Normal a) (hb : Normal b) : Canonical (add a b) := by
  obtain ⟨-, hnormal, hnine⟩ := add_spec ha.signed hb.signed
  by_cases hone : radix 100 (add a b) = -1
  · rw [hnine hone]
    exact .inr ⟨[99], rfl, by decide, fun _ => rfl⟩
  · exact (hnormal hone).canonical

theorem Canonical.normal {p : Blk} (h : Canonical p) (hnonneg : 0 ≤ radix 100 p) : Normal p := by
  rcases h with h | ⟨q, rfl, hq, -⟩
  · exact .inl h
  · have hlt := Proper.lt (by decide) hq
    rw [radix_concat] at hnonneg
    linarith

variable {div : Blk → Blk → Option (Blk × Blk)}

theorem ExactDiv.quotient (h : ExactDiv div) {a b : Blk} (ha : Normal a) (hb : Normal b)
    (ha0 : 0 < radix 100 a) (hb0 : 0 < radix 100 b) :
    ∃ q rem, div a b = some (q, rem) ∧ Normal q ∧ radix 100 q = radix 100 a / radix 100 b := by
  obtain ⟨q, rem, hdiv, hexact⟩ := h a b ha hb ha0 hb0
  have hrem := nonneg_of_mul_nonneg_left hexact.sign ha0
  have hless := hexact.less
  rw [abs_of_nonneg hrem, abs_of_pos hb0] at hless
  have hq : radix 100 q = radix 100 a / radix 100 b := by
    rw [hexact.value, Int.add_comm, Int.add_mul_ediv_left _ _ hb0.ne', Int.ediv_eq_zero_of_lt hrem hless,
      zero_add]
  have hnonneg : 0 ≤ radix 100 q := by
    rw [hq]
    exact Int.ediv_nonneg ha0.le hb0.le
  exact ⟨q, rem, hdiv, hexact.canonical.normal hnonneg, hq⟩

/-- A turn of the loop is a step of the iteration. -/
theorem sqrtLoop_step (h : ExactDiv div) {p r : Blk} (hp : Normal p) (hr : Normal r)
    (hp0 : 0 < radix 100 p) (hr0 : 0 < radix 100 r) :
    ∃ q, Normal q ∧ radix 100 q = (radix 100 r + radix 100 p / radix 100 r) / 2 ∧
      ∀ fuel, sqrtLoop div p (fuel + 1) r =
        if radix 100 r ≤ radix 100 q then some r else sqrtLoop div p fuel q := by
  obtain ⟨q, rem, hdiv, hq, hqval⟩ := h.quotient hp hr hp0 hr0
  have hq0 := Int.ediv_nonneg hp0.le hr0.le
  obtain ⟨hsum, hnormal, -⟩ := add_spec hq.signed hr.signed
  have hs0 : 0 < radix 100 (add q r) := by omega
  obtain ⟨q', rem', hdiv', hq', hqval'⟩ := h.quotient (hnormal (by omega))
    (show Normal [2] from .inl ⟨by decide, by decide⟩) hs0 (by decide)
  have htwo : radix 100 [2] = 2 := by decide
  have hdiff := (add_spec hr.opposite.signed hq'.signed).1
  rw [radix_chsign hr.signed] at hdiff
  refine ⟨q', hq', ?_, fun fuel => ?_⟩
  · rw [hqval', hsum, hqval, htwo, Int.add_comm]
  · have hsign : back (add (chsign r) q') 0 ≥ 0 ↔ radix 100 r ≤ radix 100 q' := by
      rw [(add_canonical hr.opposite hq').back_nonneg, hdiff]
      omega
    simp only [sqrtLoop, hdiv, hdiv', Option.bind_eq_bind, Option.bind_some, hsign]

theorem sqrtLoop_floor (h : ExactDiv div) {p : Blk} (hp : Normal p) (hp0 : 0 < radix 100 p) (n : ℕ) {r : Blk}
    (hr : Normal r) (hr0 : 0 < radix 100 r) (hn : radix 100 r ≤ n) (hlt : radix 100 p < (radix 100 r + 1) ^ 2) :
    ∃ x, (∀ fuel, n ≤ fuel → sqrtLoop div p fuel r = some x) ∧
      radix 100 x ^ 2 ≤ radix 100 p ∧ radix 100 p < (radix 100 x + 1) ^ 2 := by
  induction n generalizing r with
  | zero => omega
  | succ n ih =>
    obtain ⟨q, hq, hval, hstep⟩ := sqrtLoop_step h hp hr hp0 hr0
    have hnext := lt_newton_sq hr0 hp0.le
    rw [← hval] at hnext
    by_cases hle : radix 100 r ≤ radix 100 q
    · refine ⟨r, fun fuel hfuel => ?_, sq_le_of_newton hr0 (hval ▸ hle), hlt⟩
      obtain ⟨fuel, rfl⟩ := Nat.exists_eq_add_of_le' (Nat.le_trans (Nat.succ_le_succ (Nat.zero_le n)) hfuel)
      rw [hstep, if_pos hle]
    · have hq0 : 0 < radix 100 q := by
        have hnonneg := Int.ediv_nonneg hp0.le hr0.le
        by_contra hneg
        have hzero : radix 100 q = 0 := by omega
        rw [hzero] at hnext
        omega
      obtain ⟨x, hx, hroot⟩ := ih hq hq0 (by omega) hnext
      refine ⟨x, fun fuel hfuel => ?_, hroot⟩
      obtain ⟨fuel, rfl⟩ := Nat.exists_eq_add_of_le' (Nat.le_trans (Nat.succ_le_succ (Nat.zero_le n)) hfuel)
      rw [hstep, if_neg hle, hx fuel (Nat.le_of_succ_le_succ hfuel)]

/-- With an exact division the loop comes to an end, with the integer square root. -/
theorem sqrt_floor (h : ExactDiv div) {p : Blk} (hp : Normal p) (hp0 : 0 < radix 100 p) :
    ∃ turns r, (∀ fuel, turns ≤ fuel → sqrt div fuel p = some r) ∧
      radix 100 r * radix 100 r ≤ radix 100 p ∧
      radix 100 p < (radix 100 r + 1) * (radix 100 r + 1) := by
  have hproper : Proper 100 p := by
    rcases hp with ⟨h, -⟩ | ⟨q, rfl, hq, -⟩
    · exact h
    · have hlt := Proper.lt (by decide) hq
      rw [radix_concat] at hp0
      linarith
  have hne : p ≠ [] := by
    rintro rfl
    exact absurd hp0 (by decide)
  obtain ⟨hr, hr0, hlt⟩ := sqrtStart_spec hproper hne
  have hroom : radix 100 p < (radix 100 (sqrtStart p) + 1) ^ 2 := by
    rw [add_sq]
    linarith
  obtain ⟨x, hrun, hlo, hhi⟩ := sqrtLoop_floor h hp hp0 _ hr hr0 (Int.self_le_toNat _) hroom
  rw [sq] at hlo hhi
  exact ⟨_, x, hrun, hlo, hhi⟩

/-- The digits of a number that is not negative -/
def digits (n : ℤ) : Blk := (Nat.digits 100 n.toNat).map Nat.cast

theorem radix_map (ds : List ℕ) : radix 100 (ds.map Nat.cast) = (Nat.ofDigits 100 ds : ℕ) := by
  induction ds with
  | nil => rfl
  | cons d ds ih =>
    rw [map_cons, radix_cons, ih, Nat.ofDigits_cons]
    push_cast
    rfl

theorem radix_digits {n : ℤ} (hn : 0 ≤ n) : radix 100 (digits n) = n := by
  rw [digits, radix_map, Nat.ofDigits_digits, Int.toNat_of_nonneg hn]

theorem canonical_digits (n : ℤ) : Canonical (digits n) := by
  refine .inl ⟨fun x hx => ?_, fun hlast => ?_⟩
  · obtain ⟨d, hd, rfl⟩ := mem_map.mp hx
    have hlt := Nat.digits_lt_base (b := 100) (by decide) hd
    omega
  · rw [digits, List.getLast?_map, Option.map_eq_some_iff] at hlast
    obtain ⟨d, hd, hzero⟩ := hlast
    have hne : Nat.digits 100 n.toNat ≠ [] := by
      intro hnil
      rw [hnil] at hd
      exact absurd hd nofun
    rw [List.getLast?_eq_some_getLast hne] at hd
    have hn : n.toNat ≠ 0 := Nat.digits_ne_nil_iff_ne_zero.mp hne
    have hlast := Nat.getLast_digit_ne_zero 100 hn
    rw [Option.some.inj hd] at hlast
    exact hlast (Int.natCast_eq_zero.mp hzero)

/-- A division that is exact for numbers that are not negative -/
def longDiv (a b : Blk) : Option (Blk × Blk) :=
  some (digits (radix 100 a / radix 100 b), digits (radix 100 a % radix 100 b))

theorem exactDiv_longDiv : ExactDiv longDiv := by
  intro a b _ _ ha hb
  have hrem := Int.emod_nonneg (radix 100 a) hb.ne'
  refine ⟨_, _, rfl, canonical_digits _, ?_, ?_, ?_⟩
  · rw [radix_digits (Int.ediv_nonneg ha.le hb.le), radix_digits hrem, Int.mul_ediv_add_emod]
  · rw [radix_digits hrem, abs_of_nonneg hrem, abs_of_pos hb]
    exact Int.emod_lt_of_pos _ hb
  · rw [radix_digits hrem]
    exact mul_nonneg hrem ha.le

theorem sqrt_floor_two : ∃ turns r, (∀ fuel, turns ≤ fuel → sqrt longDiv fuel [2] = some r) ∧
    radix 100 r * radix 100 r ≤ 2 ∧ 2 < (radix 100 r + 1) * (radix 100 r + 1) :=
  sqrt_floor exactDiv_longDiv (show Normal [2] from .inl ⟨by decide, by decide⟩) (by decide)

end Svr3.Dc
