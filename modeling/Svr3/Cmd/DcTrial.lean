import Svr3.Cmd.DcArith

/-!
# The trial digits of `div`

A trial digit is the quotient of two estimates, of the dividend by its highest three digits and of the
divisor by its highest two, or three on a scale of 8/100 if the first one is less than 10.
-/

namespace Svr3.Dc

open List

/-! ## The highest digits -/

/-- The number of the highest `i` digits -/
def lead : ℕ → Blk → ℤ
  | 0, _ => 0
  | i + 1, ds => back ds 0 * 100 ^ i + lead i ds.dropLast

theorem back_concat (ds : Blk) (d : ℤ) : back (ds ++ [d]) 0 = d := by
  rw [back, reverse_append]
  rfl

theorem back_succ (ds : Blk) (i : ℕ) : back ds (i + 1) = back ds.dropLast i := by
  rcases eq_nil_or_concat ds with rfl | ⟨q, d, hd⟩
  · rfl
  · rw [concat_eq_append] at hd
    rw [hd, dropLast_concat, back, back, reverse_append]
    rfl

theorem back_range {ds : Blk} (h : Proper 100 ds) (i : ℕ) : 0 ≤ back ds i ∧ back ds i ≤ 99 := by
  rw [back, getD_eq_getElem?_getD]
  rcases hget : ds.reverse[i]? with _ | d
  · exact ⟨by decide, by decide⟩
  · have hd := h d (mem_reverse.mp (mem_of_getElem? hget))
    rw [Option.getD_some]
    omega

theorem lead_bounds (i : ℕ) {ds : Blk} (h : Proper 100 ds) :
    lead i ds * 100 ^ ds.length ≤ 100 ^ i * radix 100 ds ∧
      100 ^ i * radix 100 ds < (lead i ds + 1) * 100 ^ ds.length := by
  induction i generalizing ds with
  | zero =>
    have hnonneg := Proper.nonneg (by decide) h
    have hlt := Proper.lt (by decide) h
    simp only [lead, pow_zero]
    constructor
    · linarith
    · linarith
  | succ i ih =>
    rcases eq_nil_or_concat ds with rfl | ⟨q, d, hd⟩
    · have hzero : lead (i + 1) [] = lead i [] := by
        rw [lead]
        change 0 * 100 ^ i + lead i [] = _
        ring
      have hih := @ih [] nofun
      rw [hzero]
      simpa using hih
    · rw [concat_eq_append] at hd
      rw [hd] at h ⊢
      obtain ⟨hlo, hhi⟩ := ih h.left
      rw [lead, back_concat, dropLast_concat, radix_concat, length_append,
        length_singleton, pow_succ, pow_succ]
      constructor
      · linarith
      · linarith

theorem lead_three (ds : Blk) : lead 3 ds = (back ds 0 * 100 + back ds 1) * 100 + back ds 2 := by
  rw [back_succ ds 0, back_succ ds 1, back_succ _ 0]
  simp only [lead]
  ring

theorem lead_two (ds : Blk) : lead 2 ds = back ds 0 * 100 + back ds 1 := by
  rw [back_succ ds 0]
  simp only [lead]
  ring

theorem lead_nonneg {i : ℕ} {ds : Blk} (h : Proper 100 ds) : 0 ≤ lead i ds := by
  have hhi := (lead_bounds i h).2
  have hval := mul_nonneg (pow_nonneg (show (0 : ℤ) ≤ 100 by decide) i) (Proper.nonneg (by decide) h)
  have hpos : (0 : ℤ) < 100 ^ ds.length := pow_pos (by decide) _
  by_contra hneg
  have hmul := mul_nonneg (show 0 ≤ -(lead i ds + 1) by omega) hpos.le
  linarith

theorem lead_eq {i : ℕ} {ds : Blk} (h : Proper 100 ds) :
    lead i ds = radix 100 ds * 100 ^ i / 100 ^ ds.length := by
  obtain ⟨hlo, hhi⟩ := lead_bounds i h
  have hpos : (0 : ℤ) < 100 ^ ds.length := pow_pos (by decide) _
  rw [mul_comm (100 ^ i)] at hlo hhi
  apply le_antisymm
  · exact (Int.le_ediv_iff_mul_le hpos).mpr hlo
  · exact Int.lt_add_one_iff.mp (Int.ediv_lt_of_lt_mul hpos hhi)

/-! ## The estimates -/

/-- On a scale of `m` and in units of `g`, `c` stands for `b` and `t` for `a`. -/
structure Scaled (m g s c t a b : ℤ) : Prop where
  m_pos : 0 < m
  g_pos : 0 < g
  s_le : s ≤ 8
  c_ge : 800 ≤ c
  b_ge : c * g ≤ m * b
  b_lt : 100 * (m * b) < (100 * c + 104) * g
  a_ge : t * g ≤ m * a
  a_lt : m * a < (t + s) * g

namespace Scaled

variable {m g s c t a b k dig : ℤ}

/-- A bound on the quotient bounds the estimate of the dividend. -/
theorem t_le (h : Scaled m g s c t a b) (hk : 0 ≤ k ∧ k ≤ 116) (ha : a < k * b) :
    t ≤ k * (c + 1) + 4 := by
  have hma : m * a < k * (m * b) := by
    have hmul := mul_lt_mul_of_pos_left ha h.m_pos
    linarith
  have hkb := mul_le_mul_of_nonneg_left h.b_lt.le hk.1
  have hlt : 100 * t * g < k * (100 * c + 104) * g := by
    have hlow := h.a_ge
    linarith
  have hcancel := lt_of_mul_lt_mul_right hlt h.g_pos.le
  have hexpand : k * (100 * c + 104) = 100 * (k * (c + 1)) + 4 * k := by ring
  omega

/-- The trial digit of a place above the last one -/
theorem upper_le (h : Scaled m g s c t a b) (hk : 0 ≤ k ∧ k ≤ 116) (ha : a < k * b) :
    t / (c + 1) ≤ k := by
  have ht := h.t_le hk ha
  have hc := h.c_ge
  have hlt : t < (k + 1) * (c + 1) := by linarith
  have hdiv := Int.ediv_lt_of_lt_mul (show 0 < c + 1 by omega) hlt
  omega

/-- The trial digit of the last place -/
theorem last_le (h : Scaled m g s c t a b) (hk : 0 ≤ k ∧ k ≤ 116) (ha : a < k * b) :
    (t + s) / c ≤ k := by
  have ht := h.t_le hk ha
  have hc := h.c_ge
  have hs := h.s_le
  have hlt : t + s < (k + 1) * c := by linarith
  have hdiv := Int.ediv_lt_of_lt_mul (show 0 < c by omega) hlt
  omega

/-- What a place above the last one leaves is below 116 times the divisor at the next one. -/
theorem upper_rest (h : Scaled m g s c t a b) (hdig : dig = t / (c + 1))
    (hle : 0 ≤ dig ∧ dig ≤ 116) : 100 * (a - dig * b) < 116 * b := by
  have hc := h.c_ge
  have hs := h.s_le
  have ht : t < (dig + 1) * (c + 1) := by
    rw [hdig]
    exact Int.lt_ediv_add_one_mul_self t (by omega)
  have hrest : t + s - dig * c ≤ dig + c + 8 := by linarith
  have hscaled : m * (a - dig * b) < (dig + c + 8) * g := by
    have hup := h.a_lt
    have hlow := mul_le_mul_of_nonneg_left h.b_ge hle.1
    have hmul := mul_le_mul_of_nonneg_right hrest h.g_pos.le
    linarith
  have hbound : 100 * (dig + c + 8) * g ≤ 116 * c * g :=
    mul_le_mul_of_nonneg_right (by linarith) h.g_pos.le
  have hlow := h.b_ge
  have hall : m * (100 * (a - dig * b)) < m * (116 * b) := by linarith
  exact lt_of_mul_lt_mul_left hall h.m_pos.le

/-- The trial digit of the last place is at most one too large, and not too small. -/
theorem last_rest (h : Scaled m g s c t a b) (hdig : dig = (t + s) / c)
    (hle : 0 ≤ dig ∧ dig ≤ 116) : -b ≤ a - dig * b ∧ a - dig * b < b := by
  have hc := h.c_ge
  have hs := h.s_le
  have hcpos : 0 < c := by omega
  constructor
  · have hmul : dig * c ≤ t + s := by
      rw [hdig]
      exact Int.ediv_mul_le _ hcpos.ne'
    have hscaled := mul_le_mul_of_nonneg_left h.b_lt.le hle.1
    have hunit : (100 * (dig * c) + 104 * dig) * g ≤ (100 * t + 100 * c) * g :=
      mul_le_mul_of_nonneg_right (by linarith) h.g_pos.le
    have ha := h.a_ge
    have hb := h.b_ge
    have hall : m * (dig * b) ≤ m * (a + b) := by linarith
    have hcancel := le_of_mul_le_mul_left hall h.m_pos
    linarith
  · have hlt : t + s < (dig + 1) * c := by
      rw [hdig]
      exact Int.lt_ediv_add_one_mul_self _ hcpos
    have hunit := mul_le_mul_of_nonneg_right hlt.le h.g_pos.le
    have hscaled := mul_le_mul_of_nonneg_left h.b_ge (show 0 ≤ dig + 1 by omega)
    have ha := h.a_lt
    have hall : m * a < m * ((dig + 1) * b) := by linarith
    have hcancel := lt_of_mul_lt_mul_left hall h.m_pos.le
    linarith

end Scaled

/-- The factor of the dividend's estimate -/
def scale (divr : Blk) : ℤ := if magic divr then 8 else 1

theorem estimate_spec {divr : Blk} (h : Proper 100 divr) (hne : divr ≠ []) (hlast : divr.getLast? ≠ some 0) :
    800 ≤ estimate divr ∧
      estimate divr * 100 ^ divr.length * 100 ≤ scale divr * 100 ^ 3 * radix 100 divr ∧
      100 * (scale divr * 100 ^ 3 * radix 100 divr) <
        (100 * estimate divr + 104) * 100 ^ divr.length * 100 := by
  have hpos : (0 : ℤ) < 100 ^ divr.length := pow_pos (by decide) _
  have h0 := back_range h 0
  have h1 := back_range h 1
  have h2 := back_range h 2
  have hfirst : 1 ≤ back divr 0 := by
    rcases eq_nil_or_concat divr with heq | ⟨q, d, heq⟩
    · exact absurd heq hne
    · rw [concat_eq_append] at heq
      rw [heq, back_concat] at h0 ⊢
      have hd : d ≠ 0 := by
        intro hzero
        rw [heq, hzero, List.getLast?_concat] at hlast
        exact hlast rfl
      omega
  rcases Bool.eq_false_or_eq_true (magic divr) with hmagic | hmagic
  · obtain ⟨hlo, hhi⟩ := lead_bounds 3 h
    have hc : estimate divr = lead 3 divr * 2 / 25 := by
      rw [estimate, if_pos hmagic, lead_three]
      exact Int.tdiv_eq_ediv_of_nonneg (by omega)
    have hscale : scale divr = 8 := if_pos hmagic
    have hlead := lead_three divr
    rw [hscale, hc]
    generalize lead 3 divr = c3 at *
    have hdiv : 25 * (c3 * 2 / 25) ≤ c3 * 2 ∧ c3 * 2 ≤ 25 * (c3 * 2 / 25) + 24 := by omega
    have hup : (8 * c3 + 8) * 100 ^ divr.length ≤ (100 * (c3 * 2 / 25) + 104) * 100 ^ divr.length :=
      mul_le_mul_of_nonneg_right (by omega) hpos.le
    have hdown : 100 * (c3 * 2 / 25) * 100 ^ divr.length ≤ 8 * c3 * 100 ^ divr.length :=
      mul_le_mul_of_nonneg_right (by omega) hpos.le
    refine ⟨by omega, by linarith, by linarith⟩
  · obtain ⟨hlo, hhi⟩ := lead_bounds 2 h
    have hten : 10 ≤ back divr 0 := by
      have hnot := of_decide_eq_false hmagic
      omega
    have hc : estimate divr = lead 2 divr := by
      rw [estimate, if_neg (by rw [hmagic]; exact Bool.false_ne_true), lead_two]
    have hscale : scale divr = 1 := if_neg (by rw [hmagic]; exact Bool.false_ne_true)
    have hlead := lead_two divr
    rw [hscale, hc]
    refine ⟨by omega, by linarith, by linarith⟩

theorem scale_range (divr : Blk) : 1 ≤ scale divr ∧ scale divr ≤ 8 := by
  rw [scale]
  split
  · decide
  · decide

theorem scaled {divr divd : Blk} {k : ℕ} (h : Proper 100 divr) (hne : divr ≠ [])
    (hlast : divr.getLast? ≠ some 0) (hd : Proper 100 divd) (hlen : divd.length = divr.length + k + 1) :
    Scaled (scale divr * 100 ^ 3) (100 ^ (divr.length + k + 1)) (scale divr) (estimate divr)
      (scale divr * lead 3 divd) (radix 100 divd) (radix 100 divr * 100 ^ k) := by
  obtain ⟨hc, hlo, hhi⟩ := estimate_spec h hne hlast
  obtain ⟨halo, hahi⟩ := lead_bounds 3 hd
  obtain ⟨hs1, hs8⟩ := scale_range divr
  have hk : (0 : ℤ) < 100 ^ k := pow_pos (by decide) _
  have hs : 0 < scale divr := by omega
  have hpow : (100 : ℤ) ^ (divr.length + k + 1) = 100 ^ divr.length * 100 * 100 ^ k := by
    rw [pow_succ, pow_add]
    ring
  rw [hlen] at halo hahi
  refine ⟨mul_pos hs (by decide), pow_pos (by decide) _, hs8, hc, ?_, ?_, ?_, ?_⟩
  · have hmul := mul_le_mul_of_nonneg_right hlo hk.le
    rw [hpow]
    linarith
  · have hmul := mul_lt_mul_of_pos_right hhi hk
    rw [hpow]
    linarith
  · have hmul := mul_le_mul_of_nonneg_left halo hs.le
    linarith
  · have hmul := mul_lt_mul_of_pos_left hahi hs
    linarith

/-! ## The trial digits -/

theorem trial_zero {divr divd : Blk} (hd : Proper 100 divd) :
    trial divr 0 divd = (scale divr * lead 3 divd + scale divr) / estimate divr := by
  have hlead := lead_three divd
  have hnonneg := lead_nonneg (i := 3) hd
  have hs := scale_range divr
  have hmul : 0 ≤ scale divr * lead 3 divd := mul_nonneg (by omega) hnonneg
  have hsame : trial divr 0 divd = (scale divr * lead 3 divd + scale divr).tdiv (estimate divr) := by
    rw [trial, if_pos rfl, if_pos rfl, ← hlead, scale]
    split
    · congr 1
      ring
    · congr 1
      ring
  rw [hsame]
  exact Int.tdiv_eq_ediv_of_nonneg (by omega)

theorem trial_succ {divr divd : Blk} (k : ℕ) (hd : Proper 100 divd) :
    trial divr (k + 1) divd = scale divr * lead 3 divd / (estimate divr + 1) := by
  have hlead := lead_three divd
  have hnonneg := lead_nonneg (i := 3) hd
  have hs := scale_range divr
  have hmul : 0 ≤ scale divr * lead 3 divd := mul_nonneg (by omega) hnonneg
  have hsame : trial divr (k + 1) divd = (scale divr * lead 3 divd).tdiv (estimate divr + 1) := by
    rw [trial, if_neg (Nat.succ_ne_zero k), if_neg (Nat.succ_ne_zero k), ← hlead, scale]
    split
    · congr 1
      ring
    · congr 1
      ring
  rw [hsame]
  exact Int.tdiv_eq_ediv_of_nonneg hmul

end Svr3.Dc
