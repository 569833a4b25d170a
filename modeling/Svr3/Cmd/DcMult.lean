import Svr3.Cmd.DcTrial

/-!
# Products in `dc`

`mult` of `cmd/dc/dc.c`, and that sums, opposites and products of numbers with no superfluous digit are
exact. The only sum that gets one is -1.
-/

namespace Svr3.Dc

open List

/-- A digit `cq` times those of `mp` is added to `mr` from the place of `cq` on. -/
def multRow (cq : ℤ) : ℤ → Blk → Blk → Blk
  | carry, [], mr => if carry ≠ 0 then char (mr.headD 0 + carry) :: mr.tail else mr
  | carry, cp :: mp, mr =>
    let mt := cp * cq + carry + mr.headD 0
    char (mt.tmod 100) :: multRow cq (mt.tdiv 100) mp mr.tail

/-- `while(sfeof(mq) == 0)` -/
def multLoop (mp : Blk) : ℕ → Blk → Blk → Blk
  | _, [], mr => mr
  | offset, cq :: mq, mr =>
    multLoop mp (offset + 1) mq (mr.take offset ++ multRow cq 0 mp (mr.drop offset))

def mult (p q : Blk) : Blk :=
  let mp := if back p 0 < 0 then chsign p else p
  let mq := if back q 0 < 0 then chsign q else q
  let mr := multLoop mp 0 mq []
  if xor (decide (back p 0 < 0)) (decide (back q 0 < 0)) then chsign mr else mr

/-! ## The loops of `mult` -/

theorem getLast?_cons_of {x d : ℤ} {l : Blk} (hl : l ≠ []) (h : l.getLast? ≠ some d) :
    (x :: l).getLast? ≠ some d := by
  obtain ⟨y, l, rfl⟩ := exists_cons_of_ne_nil hl
  rwa [List.getLast?_cons_cons]

/-- A row adds a multiple of `mp`, and makes the number longer only by a digit that is not 0. -/
theorem multRow_spec {cq carry : ℤ} {mp mr : Blk} (hp : Proper 100 mp) (hr : Proper 100 mr)
    (hlen : mr.length ≤ mp.length) (hcq : 0 ≤ cq ∧ cq < 100) (hc : 0 ≤ carry ∧ carry < 100) :
    Proper 100 (multRow cq carry mp mr) ∧
      radix 100 (multRow cq carry mp mr) = radix 100 mr + radix 100 mp * cq + carry ∧
      ((multRow cq carry mp mr).length = mp.length ∨
        (multRow cq carry mp mr).length = mp.length + 1 ∧ (multRow cq carry mp mr).getLast? ≠ some 0) := by
  induction mp generalizing carry mr with
  | nil =>
    rw [eq_nil_of_length_eq_zero (Nat.le_zero.mp hlen), multRow]
    by_cases hzero : carry = 0
    · rw [if_neg (not_not.mpr hzero), hzero]
      exact ⟨nofun, by simp, .inl rfl⟩
    · have hchar : char ((([] : Blk).headD 0) + carry) = carry := by
        rw [headD_nil, Int.zero_add, char_eq (by omega)]
      rw [if_pos hzero, hchar]
      refine ⟨fun x hx => ?_, by simp, .inr ⟨rfl, fun hlast => hzero (Option.some.inj hlast)⟩⟩
      rw [mem_singleton.mp hx]
      exact hc
  | cons cp mp ih =>
    have hcp := hp.head
    have hhead : 0 ≤ mr.headD 0 ∧ mr.headD 0 < 100 := by
      cases mr with
      | nil => exact ⟨by decide, by decide⟩
      | cons d mr => exact hr.head
    have htail : Proper 100 mr.tail := fun x hx => hr x (mem_of_mem_tail hx)
    have hprod : 0 ≤ cp * cq ∧ cp * cq ≤ 99 * 99 :=
      ⟨mul_nonneg hcp.1 hcq.1, mul_le_mul (by omega) (by omega) hcq.1 (by decide)⟩
    have hlen' : mr.tail.length ≤ mp.length := by
      rw [length_tail]
      exact Nat.sub_le_of_le_add hlen
    obtain ⟨mt, hmt⟩ : ∃ mt, mt = cp * cq + carry + mr.headD 0 := ⟨_, rfl⟩
    have hmod : mt.tmod 100 = mt % 100 := Int.tmod_eq_emod_of_nonneg (by omega)
    have hdiv : mt.tdiv 100 = mt / 100 := Int.tdiv_eq_ediv_of_nonneg (by omega)
    have hcons : multRow cq carry (cp :: mp) mr = mt % 100 :: multRow cq (mt / 100) mp mr.tail := by
      rw [multRow, ← hmt, hmod, hdiv, char_eq (by omega)]
    obtain ⟨hprop, hval, hsize⟩ := ih hp.tail htail hlen'
      (show 0 ≤ mt / 100 ∧ mt / 100 < 100 by omega)
    rw [hcons]
    refine ⟨fun x hx => ?_, ?_, ?_⟩
    · rcases mem_cons.mp hx with rfl | hx
      · omega
      · exact hprop x hx
    · have hdm := Int.emod_add_mul_ediv mt 100
      rw [radix_cons, radix_cons, radix_headD mr, hval]
      linarith
    · rcases hsize with hsame | ⟨hmore, hlast⟩
      · exact .inl (congrArg Nat.succ hsame)
      · refine .inr ⟨congrArg Nat.succ hmore, getLast?_cons_of ?_ hlast⟩
        exact ne_nil_of_length_pos (by omega)

/-- As long as a product has its highest place free, a digit of the other factor is left to be multiplied. -/
theorem multLoop_spec {mp mq mr : Blk} {offset : ℕ} (hp : Proper 100 mp) (hne : mp ≠ []) (hq : Proper 100 mq)
    (hr : Proper 100 mr) (hlow : offset ≤ mr.length) (hlen : mr.length ≤ offset + mp.length)
    (hlast : mr.length = offset + mp.length → mr.getLast? ≠ some 0) :
    Proper 100 (multLoop mp offset mq mr) ∧
      radix 100 (multLoop mp offset mq mr) = radix 100 mr + 100 ^ offset * (radix 100 mp * radix 100 mq) ∧
      (multLoop mp offset mq mr).length ≤ offset + mq.length + mp.length ∧
      ((multLoop mp offset mq mr).length = offset + mq.length + mp.length →
        (multLoop mp offset mq mr).getLast? ≠ some 0) := by
  induction mq generalizing offset mr with
  | nil => exact ⟨hr, by simp [multLoop], hlen, hlast⟩
  | cons cq mq ih =>
    have hcq := hq.head
    have hpos : 0 < mp.length := length_pos_of_ne_nil hne
    have htake : (mr.take offset).length = offset := by rw [length_take, Nat.min_eq_left hlow]
    have hdrop : (mr.drop offset).length ≤ mp.length := by
      rw [length_drop]
      exact Nat.sub_le_of_le_add (by omega)
    obtain ⟨hprop, hval, hsize⟩ := multRow_spec hp hr.drop hdrop hcq (show (0 : ℤ) ≤ 0 ∧ 0 < 100 by decide)
    obtain ⟨row, hrow⟩ : ∃ row, row = multRow cq 0 mp (mr.drop offset) := ⟨_, rfl⟩
    rw [← hrow] at hprop hval hsize
    have hcut := radix_append (b := 100) (mr.take offset) (mr.drop offset)
    rw [take_append_drop, htake] at hcut
    have hnext : (mr.take offset ++ row).length = offset + row.length := by rw [length_append, htake]
    have hjoin : Proper 100 (mr.take offset ++ row) := hr.take.append hprop
    have htop : (mr.take offset ++ row).length = offset + 1 + mp.length →
        (mr.take offset ++ row).getLast? ≠ some 0 := by
      intro htop
      rcases hsize with hsame | ⟨-, hlast'⟩
      · omega
      · rwa [List.getLast?_append_of_ne_nil _ (ne_nil_of_length_pos (by omega))]
    obtain ⟨hprop', hval', hle, hend⟩ := ih hq.tail hjoin (by omega) (by omega) htop
    rw [multLoop, ← hrow]
    have hplace : offset + 1 + mq.length = offset + (cq :: mq).length := by
      rw [length_cons]
      omega
    rw [hplace] at hle hend
    refine ⟨hprop', ?_, hle, hend⟩
    rw [hval', radix_append, htake, hval, hcut, radix_cons, pow_succ]
    ring

theorem multLoop_nil (offset : ℕ) (mq : Blk) : multLoop [] offset mq [] = [] := by
  induction mq generalizing offset with
  | nil => rfl
  | cons cq mq ih =>
    rw [multLoop]
    simpa [multRow] using ih (offset + 1)

/-- The product of two numbers that are not negative -/
theorem multLoop_exact {mp mq : Blk} (hp : Proper 100 mp) (hplast : mp.getLast? ≠ some 0) (hq : Proper 100 mq)
    (hqlast : mq.getLast? ≠ some 0) :
    Proper 100 (multLoop mp 0 mq []) ∧ (multLoop mp 0 mq []).getLast? ≠ some 0 ∧
      radix 100 (multLoop mp 0 mq []) = radix 100 mp * radix 100 mq := by
  by_cases hnil : mp = []
  · rw [hnil, multLoop_nil, radix_nil, zero_mul]
    exact ⟨nofun, nofun, rfl⟩
  · by_cases hnil' : mq = []
    · rw [hnil', multLoop, radix_nil, mul_zero]
      exact ⟨nofun, nofun, rfl⟩
    · obtain ⟨hprop, hval, hle, hend⟩ := multLoop_spec hp hnil hq (show Proper 100 [] from nofun)
        (Nat.le_refl 0) (Nat.zero_le _) nofun
      rw [radix_nil, pow_zero, one_mul, zero_add] at hval
      rw [Nat.zero_add] at hle hend
      refine ⟨hprop, fun hzero => ?_, hval⟩
      -- a number with a digit less is below the product of the powers of the base
      have hp' := hp.pow_length_le (by decide) hnil hplast
      have hq' := hq.pow_length_le (by decide) hnil' hqlast
      obtain ⟨m, hm⟩ : ∃ m, m = multLoop mp 0 mq [] := ⟨_, rfl⟩
      rw [← hm] at hprop hval hle hend hzero
      have hlt : m.length < mq.length + mp.length := Nat.lt_of_le_of_ne hle fun heq => hend heq hzero
      rw [dropLast_concat_of hzero] at hprop hval hlt
      have hbelow := Proper.lt (by decide) hprop.left
      rw [radix_concat, mul_zero, add_zero] at hval
      rw [length_append, length_singleton] at hlt
      have hpow : (100 : ℤ) ^ (m.dropLast.length + 2) ≤ 100 ^ (mq.length + mp.length) :=
        pow_le_pow_right₀ (by decide) hlt
      have hmul := mul_le_mul hq' hp' (pow_nonneg (by decide) _) (mul_nonneg (by decide) (hq.nonneg (by decide)))
      rw [← pow_add] at hmul
      rw [pow_add] at hpow
      linarith

/-! ## Signed numbers -/

theorem Normal.signed {p : Blk} (h : Normal p) : Signed p := by
  rcases h with ⟨hp, -⟩ | ⟨q, rfl, hq, -⟩
  · exact Proper.signed hp
  · intro x hx
    rcases mem_append.mp hx with hx | hx
    · exact Proper.signed hq x hx
    · rw [mem_singleton.mp hx]
      decide

theorem Normal.opposite {p : Blk} (h : Normal p) : Normal (chsign p) := by
  rcases h with ⟨hp, hlast⟩ | ⟨q, rfl, hq, h99⟩
  · exact chsign_pos hp hlast
  · exact .inl (chsign_neg hq fun hend => absurd hend h99)

theorem Canonical.back_neg {p : Blk} (h : Canonical p) : back p 0 < 0 ↔ p.getLast? = some (-1) := by
  rcases h with ⟨hp, -⟩ | ⟨q, rfl, -⟩
  · refine ⟨fun hneg => absurd (back_range hp 0).1 (not_le.mpr hneg), fun hlast => ?_⟩
    have hmem := hp (-1) (mem_of_getLast? hlast)
    omega
  · rw [back_concat]
    exact ⟨fun _ => List.getLast?_concat, fun _ => by decide⟩

/-- A factor without its sign -/
theorem Canonical.factor {p : Blk} (h : Canonical p) :
    (if back p 0 < 0 then chsign p else p) = magnitude p ∧
      radix 100 p = if back p 0 < 0 then -radix 100 (magnitude p) else radix 100 (magnitude p) := by
  obtain ⟨-, -, hneg, hpos⟩ := h.cases
  rw [magnitude]
  by_cases hlast : p.getLast? = some (-1)
  · rw [if_pos (h.back_neg.mpr hlast), if_pos (h.back_neg.mpr hlast), if_pos hlast]
    have hval := (hneg hlast).2
    rw [magnitude, if_pos hlast] at hval
    exact ⟨rfl, by omega⟩
  · have hback := mt h.back_neg.mp hlast
    rw [if_neg hback, if_neg hback, if_neg hlast]
    exact ⟨rfl, rfl⟩

theorem mult_spec {a b : Blk} (ha : Normal a) (hb : Normal b) :
    radix 100 (mult a b) = radix 100 a * radix 100 b ∧ Normal (mult a b) := by
  obtain ⟨hp, hplast, -⟩ := ha.canonical.cases
  obtain ⟨hq, hqlast, -⟩ := hb.canonical.cases
  obtain ⟨hmp, hval⟩ := ha.canonical.factor
  obtain ⟨hmq, hval'⟩ := hb.canonical.factor
  obtain ⟨hprop, hlast, hprod⟩ := multLoop_exact hp hplast hq hqlast
  have hopp := radix_chsign (Proper.signed hprop)
  rw [mult, hmp, hmq, hval, hval']
  by_cases h : back a 0 < 0
  · by_cases h' : back b 0 < 0
    · rw [if_neg (by simp [h, h']), if_pos h, if_pos h', neg_mul_neg]
      exact ⟨hprod, .inl ⟨hprop, hlast⟩⟩
    · rw [if_pos (by simp [h, h']), if_pos h, if_neg h', hopp, hprod, neg_mul]
      exact ⟨rfl, chsign_pos hprop hlast⟩
  · by_cases h' : back b 0 < 0
    · rw [if_pos (by simp [h, h']), if_neg h, if_pos h', hopp, hprod, mul_neg]
      exact ⟨rfl, chsign_pos hprop hlast⟩
    · rw [if_neg (by simp [h, h']), if_neg h, if_neg h']
      exact ⟨hprod, .inl ⟨hprop, hlast⟩⟩

theorem not_normal_nines : ¬ Normal [99, -1] := by
  rintro (⟨hp, -⟩ | ⟨q, hq, -, h99⟩)
  · exact absurd hp (by decide)
  · obtain ⟨rfl, -⟩ := append_inj' (show [99] ++ [(-1 : ℤ)] = q ++ [-1] from hq) rfl
    exact h99 rfl

/-- Sums, opposites and products are exact and have no superfluous digit, but for a sum that is -1. -/
theorem arithmetic_exact {a b : Blk} (ha : Normal a) (hb : Normal b) :
    (radix 100 (add a b) = radix 100 a + radix 100 b ∧ radix 100 (chsign a) = -radix 100 a ∧
        radix 100 (mult a b) = radix 100 a * radix 100 b ∧
        Normal (add a b) ∧ Normal (chsign a) ∧ Normal (mult a b)) ↔
      radix 100 a + radix 100 b ≠ -1 := by
  obtain ⟨hsum, hnormal, hnine⟩ := add_spec ha.signed hb.signed
  obtain ⟨hprod, hmult⟩ := mult_spec ha hb
  rw [← hsum]
  refine ⟨?_, fun hne => ⟨rfl, radix_chsign ha.signed, hprod, hnormal hne, ha.opposite, hmult⟩⟩
  rintro ⟨-, -, -, hadd, -⟩ hone
  rw [hnine hone] at hadd
  exact not_normal_nines hadd

/-- 1234 and -5678 -/
theorem arithmetic_exact_signs :
    radix 100 (add [34, 12] [22, 43, -1]) = 1234 + -5678 ∧ radix 100 (chsign [34, 12]) = -1234 ∧
      radix 100 (mult [34, 12] [22, 43, -1]) = 1234 * -5678 ∧
      Normal (add [34, 12] [22, 43, -1]) ∧ Normal (chsign [34, 12]) ∧ Normal (mult [34, 12] [22, 43, -1]) :=
  (arithmetic_exact (.inl ⟨by decide, by decide⟩)
    (.inr ⟨[22, 43], rfl, by decide, by decide⟩)).mpr (by decide)

/-- 1 and -2 are added to a -1 with a superfluous digit 99. -/
theorem add_superfluous : ¬ ∀ a b, Normal a → Normal b →
    radix 100 (add a b) = radix 100 a + radix 100 b ∧ radix 100 (chsign a) = -radix 100 a ∧
      radix 100 (mult a b) = radix 100 a * radix 100 b ∧
      Normal (add a b) ∧ Normal (chsign a) ∧ Normal (mult a b) := by
  intro hall
  have hadd : add [1] [98, -1] = [99, -1] := by decide
  obtain ⟨-, -, -, h, -⟩ := hall [1] [98, -1] (.inl ⟨by decide, by decide⟩) (.inr ⟨[98], rfl, by decide, by decide⟩)
  rw [hadd] at h
  exact not_normal_nines h

end Svr3.Dc
