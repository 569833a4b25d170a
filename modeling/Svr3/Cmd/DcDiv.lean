import Svr3.Cmd.DcTrial
import Mathlib.Algebra.Order.Ring.Abs

/-!
# Long division in `dc`

`div` takes the trial digit of each place, and drops the highest digit of what is left. The last place
may be corrected by one, the others may not: a trial digit that is too small leaves a digit that is
dropped, and one that is too large leaves a borrow that is.
-/

namespace Svr3.Dc

open List

/-! ## One place -/

/-- Taking a multiple of the divisor from a dividend with one digit more -/
theorem minus_times {divr divd : Blk} {dig : ℤ} (h : Proper 100 divr) (hd : Proper 100 divd)
    (hlen : divd.length = divr.length + 1) (hdig : 0 ≤ dig ∧ dig ≤ 116)
    (hge : -100 ^ (divr.length + 1) ≤ radix 100 divd - radix 100 divr * dig) :
    Proper 100 (minus 0 divd (times dig 0 divr)).1 ∧
      (minus 0 divd (times dig 0 divr)).1.length = divd.length ∧
      (minus 0 divd (times dig 0 divr)).2 =
        (if radix 100 divd - radix 100 divr * dig < 0 then 1 else 0) ∧
      radix 100 (minus 0 divd (times dig 0 divr)).1 = radix 100 divd - radix 100 divr * dig +
        100 ^ (divr.length + 1) * (if radix 100 divd - radix 100 divr * dig < 0 then 1 else 0) := by
  obtain ⟨low, top, htimes, hlow, hlowlen, htop, hprod⟩ := times_spec h hdig.1 (le_refl 0)
  obtain ⟨dl, dt, hcat⟩ : ∃ dl dt, divd = dl ++ [dt] := by
    rcases eq_nil_or_concat divd with heq | ⟨q, d, heq⟩
    · rw [heq] at hlen
      exact absurd hlen nofun
    · exact ⟨q, d, by rw [heq, concat_eq_append]⟩
  rw [hcat, length_append, length_singleton] at hlen
  have hdl : dl.length = divr.length := Nat.succ.inj hlen
  rw [hcat] at hd hge ⊢
  have hdt := hd.right dt mem_cons_self
  have hpos : (0 : ℤ) < 100 ^ divr.length := pow_pos (by decide) _
  have hlowval := Proper.nonneg (by decide) hlow
  have hvalr := Proper.lt (by decide) h
  have hle116 : top ≤ 116 := by
    -- the product is at most the digit times a power of the base
    have hmul := mul_le_mul_of_nonneg_right hvalr.le hdig.1
    have hle := mul_le_mul_of_nonneg_left hdig.2 hpos.le
    have hall : 100 ^ divr.length * top ≤ 100 ^ divr.length * 116 := by linarith
    exact le_of_mul_le_mul_left hall hpos
  obtain ⟨hprop, hl, hc, hval⟩ := minus_spec hd.left hlow (hlowlen.trans hdl.symm)
    (.inl (Eq.refl (0 : ℤ)))
  have hsplit : minus 0 (dl ++ [dt]) (times dig 0 divr) =
      ((minus 0 dl low).1 ++ [char (if dt - top - (minus 0 dl low).2 < 0 then
          dt - top - (minus 0 dl low).2 + 100 else dt - top - (minus 0 dl low).2)],
        if dt - top - (minus 0 dl low).2 < 0 then 1 else 0) := by
    rw [htimes, minus_append (hlowlen.trans hdl.symm), char_eq (by omega)]
    rfl
  rw [hsplit]
  generalize minus 0 dl low = r at *
  rw [hdl] at hval
  have hr := Proper.nonneg (by decide) hprop
  have hr' := Proper.lt (by decide) hprop
  rw [hl, hdl] at hr'
  obtain ⟨t, ht⟩ : ∃ t, t = dt - top - r.2 := ⟨_, rfl⟩
  have hrest : radix 100 (dl ++ [dt]) - radix 100 divr * dig = radix 100 r.1 + 100 ^ divr.length * t := by
    rw [radix_concat, hdl, ht]
    linarith
  rw [hrest] at hge ⊢
  rw [← ht]
  rw [pow_succ] at hge ⊢
  have hlength : ∀ x : ℤ, (r.1 ++ [x]).length = (dl ++ [dt]).length := by
    intro x
    rw [length_append, length_append, hl]
    rfl
  by_cases hneg : t < 0
  · have hmul := mul_le_mul_of_nonneg_left (show t ≤ -1 by omega) hpos.le
    have hlt : radix 100 r.1 + 100 ^ divr.length * t < 0 := by linarith
    have ht100 : -100 ≤ t := by
      by_contra hlow
      have hmul := mul_le_mul_of_nonneg_left (show t ≤ -101 by omega) hpos.le
      linarith
    rw [if_pos hneg, if_pos hneg, if_pos hlt, char_eq (by omega)]
    refine ⟨hprop.append fun x hx => ?_, hlength _, rfl, ?_⟩
    · rw [mem_singleton.mp hx]
      omega
    · rw [radix_concat, hl, hdl]
      ring
  · have hmul := mul_nonneg hpos.le (show 0 ≤ t by omega)
    have hge0 : ¬radix 100 r.1 + 100 ^ divr.length * t < 0 := by linarith
    rw [if_neg hneg, if_neg hneg, if_neg hge0, char_eq (by omega)]
    refine ⟨hprop.append fun x hx => ?_, hlength _, rfl, ?_⟩
    · rw [mem_singleton.mp hx]
      omega
    · rw [radix_concat, hl, hdl]
      ring

theorem length_minus (carry : ℤ) (divd x : Blk) : (minus carry divd x).1.length = divd.length := by
  induction divd generalizing carry x with
  | nil => rfl
  | cons d divd ih => exact congrArg Nat.succ (ih _ _)

/-- The digit that is dropped is what does not fit. -/
theorem radix_dropLast {ds : Blk} {n : ℕ} (h : Proper 100 ds) (hlen : ds.length = n + 1) :
    Proper 100 ds.dropLast ∧ ds.dropLast.length = n ∧
      radix 100 ds.dropLast = radix 100 ds - 100 ^ n * (radix 100 ds / 100 ^ n) := by
  rcases eq_nil_or_concat ds with heq | ⟨q, d, heq⟩
  · rw [heq] at hlen
    exact absurd hlen nofun
  · rw [concat_eq_append] at heq
    rw [heq, length_append, length_singleton] at hlen
    have hq : q.length = n := Nat.succ.inj hlen
    rw [heq] at h ⊢
    have hpos : (0 : ℤ) < 100 ^ n := pow_pos (by decide) _
    have hlow := Proper.nonneg (by decide) h.left
    have hlt := Proper.lt (by decide) h.left
    rw [hq] at hlt
    rw [dropLast_concat, radix_concat, hq, Int.add_mul_ediv_left _ _ hpos.ne',
      Int.ediv_eq_zero_of_lt hlow hlt]
    exact ⟨h.left, rfl, by ring⟩

/-- A divisor, with no superfluous digit -/
structure Divisor (divr : Blk) : Prop where
  proper : Proper 100 divr
  ne_nil : divr ≠ []
  last : divr.getLast? ≠ some 0

theorem Divisor.scaled {divr divd : Blk} {k : ℕ} (h : Divisor divr) (hd : Proper 100 divd)
    (hlen : divd.length = divr.length + k + 1) :
    Scaled (scale divr * 100 ^ 3) (100 ^ (divr.length + k + 1)) (scale divr) (estimate divr)
      (scale divr * lead 3 divd) (radix 100 divd) (radix 100 divr * 100 ^ k) :=
  Dc.scaled h.proper h.ne_nil h.last hd hlen

theorem trial_le {divr divd : Blk} {k : ℕ} {b : ℤ} (h : Divisor divr) (hd : Proper 100 divd)
    (hlen : divd.length = divr.length + k + 1) (hb : 0 ≤ b ∧ b ≤ 116)
    (hlt : radix 100 divd < b * (radix 100 divr * 100 ^ k)) :
    0 ≤ trial divr k divd ∧ trial divr k divd ≤ b := by
  have hs := h.scaled hd hlen
  have hc := hs.c_ge
  have hs1 := scale_range divr
  have hlead : 0 ≤ scale divr * lead 3 divd := mul_nonneg (by omega) (lead_nonneg hd)
  cases k with
  | zero =>
    rw [trial_zero hd]
    exact ⟨Int.ediv_nonneg (by omega) (by omega), hs.last_le hb hlt⟩
  | succ k =>
    rw [trial_succ k hd]
    exact ⟨Int.ediv_nonneg hlead (by omega), hs.upper_le hb hlt⟩

/-- The trial digit of the dividend `a` at a place above the last one -/
def digit (divr : Blk) (k : ℕ) (a : ℤ) : ℤ :=
  scale divr * (a * 100 ^ 3 / 100 ^ (divr.length + k + 2)) / (estimate divr + 1)

/-- What that digit leaves of `a` -/
def rest (divr : Blk) (k : ℕ) (a : ℤ) : ℤ := a - digit divr k a * (radix 100 divr * 100 ^ (k + 1))

theorem trial_digit {divr divd : Blk} {k : ℕ} (hd : Proper 100 divd)
    (hlen : divd.length = divr.length + (k + 1) + 1) :
    trial divr (k + 1) divd = digit divr k (radix 100 divd) := by
  rw [trial_succ k hd, lead_eq hd, hlen]
  rfl

/-- The dividend after the place `k + 1`, before its highest digit is dropped -/
def taken (divr : Blk) (k : ℕ) (divd : Blk) : Blk :=
  divd.take (k + 1) ++ (minus 0 (divd.drop (k + 1)) (times (trial divr (k + 1) divd) 0 divr)).1

theorem divLoop_zero (divr divd : Blk) :
    divLoop divr 0 divd = ⟨[char (trial divr 0 divd)], (minus 0 divd (times (trial divr 0 divd) 0 divr)).1,
      trial divr 0 divd, (minus 0 divd (times (trial divr 0 divd) 0 divr)).2⟩ := rfl

theorem divLoop_succ (divr : Blk) (k : ℕ) (divd : Blk) :
    divLoop divr (k + 1) divd =
      { divLoop divr k (taken divr k divd).dropLast with
        p := (divLoop divr k (taken divr k divd).dropLast).p ++ [char (trial divr (k + 1) divd)] } := rfl

theorem length_divLoop (divr : Blk) (k : ℕ) (divd : Blk) : (divLoop divr k divd).p.length = k + 1 := by
  induction k generalizing divd with
  | zero => rfl
  | succ k ih =>
    rw [divLoop_succ]
    simp only [length_append, length_singleton, ih]

theorem divLoop_chars (divr : Blk) (k : ℕ) (divd : Blk) :
    ∀ d ∈ (divLoop divr k divd).p, -128 ≤ d ∧ d ≤ 127 := by
  induction k generalizing divd with
  | zero =>
    intro d hd
    rw [mem_singleton.mp hd]
    exact char_range _
  | succ k ih =>
    rw [divLoop_succ]
    intro d hd
    rcases mem_append.mp hd with hd | hd
    · exact ih _ d hd
    · rw [mem_singleton.mp hd]
      exact char_range _

theorem divLoop_last (divr : Blk) (k : ℕ) (divd : Blk) :
    ∃ low, (divLoop divr k divd).p = low ++ [char (trial divr k divd)] := by
  cases k with
  | zero => exact ⟨[], rfl⟩
  | succ k => exact ⟨_, rfl⟩

theorem length_taken {divr divd : Blk} {k : ℕ} (hlen : divd.length = divr.length + (k + 1) + 1) :
    (taken divr k divd).length = divr.length + k + 1 + 1 := by
  rw [taken, length_append, length_minus, length_take, length_drop]
  omega

/-- A dividend of the place `k`, below 116 times the divisor there -/
structure Dividend (divr : Blk) (k : ℕ) (divd : Blk) : Prop where
  proper : Proper 100 divd
  length : divd.length = divr.length + k + 1
  lt : radix 100 divd < 116 * (radix 100 divr * 100 ^ k)

/-- One place above the last one -/
theorem taken_spec {divr divd : Blk} {k : ℕ} (h : Divisor divr) (hd : Dividend divr (k + 1) divd) :
    (0 ≤ digit divr k (radix 100 divd) ∧ digit divr k (radix 100 divd) ≤ 116) ∧
      100 * rest divr k (radix 100 divd) < 116 * (radix 100 divr * 100 ^ (k + 1)) ∧
      (0 ≤ rest divr k (radix 100 divd) →
        Proper 100 (taken divr k divd) ∧ radix 100 (taken divr k divd) = rest divr k (radix 100 divd)) := by
  have htrial := trial_digit hd.proper hd.length
  have hle := trial_le h hd.proper hd.length (by decide) hd.lt
  have hquot : digit divr k (radix 100 divd) = scale divr * lead 3 divd / (estimate divr + 1) := by
    rw [← htrial, trial_succ k hd.proper]
  rw [htrial] at hle
  refine ⟨hle, (h.scaled hd.proper hd.length).upper_rest hquot hle, fun hrest => ?_⟩
  have hlow : (divd.take (k + 1)).length = k + 1 := by
    rw [length_take, hd.length]
    omega
  have hhigh : (divd.drop (k + 1)).length = divr.length + 1 := by
    rw [length_drop, hd.length]
    omega
  have hsplit := radix_append (b := 100) (divd.take (k + 1)) (divd.drop (k + 1))
  rw [take_append_drop, hlow] at hsplit
  have hltlow := Proper.lt (by decide) (hd.proper.take (n := k + 1))
  rw [hlow] at hltlow
  have hpos : (0 : ℤ) < 100 ^ (k + 1) := pow_pos (by decide) _
  have hsub : 0 ≤ radix 100 (divd.drop (k + 1)) - radix 100 divr * digit divr k (radix 100 divd) := by
    by_contra hneg
    have hmul := mul_le_mul_of_nonneg_left (Int.add_one_le_iff.mpr (not_le.mp hneg)) hpos.le
    rw [rest] at hrest
    linarith
  have hnonneg : (0 : ℤ) ≤ 100 ^ (divr.length + 1) := pow_nonneg (by decide) _
  obtain ⟨hprop, -, -, hval⟩ := minus_times h.proper hd.proper.drop hhigh hle (by linarith)
  rw [if_neg (not_lt.mpr hsub), mul_zero, add_zero] at hval
  rw [taken, htrial]
  refine ⟨hd.proper.take.append hprop, ?_⟩
  rw [radix_append, hlow, hval, rest]
  linarith

/-- No digit and no borrow is dropped above the last place. -/
def Fits (divr : Blk) : ℕ → ℤ → Prop
  | 0, _ => True
  | k + 1, a => 0 ≤ rest divr k a ∧ rest divr k a < 100 ^ (divr.length + k + 1) ∧
      Fits divr k (rest divr k a)

instance Fits.decidable (divr : Blk) : (k : ℕ) → (a : ℤ) → Decidable (Fits divr k a)
  | 0, _ => isTrue trivial
  | k + 1, a =>
    have := Fits.decidable divr k (rest divr k a)
    inferInstanceAs (Decidable (_ ∧ _ ∧ _))

/-! ## The loop over the places -/

/-- What the loop leaves of `a` if everything fits -/
structure Divided (divr : Blk) (a : ℤ) (l : Long) : Prop where
  digits : ∀ d ∈ l.p, 0 ≤ d ∧ d ≤ 116
  head : ∃ q, l.p = l.dig :: q
  dig : a - radix 100 divr * radix 100 l.p < 0 → 1 ≤ l.dig
  low : -radix 100 divr ≤ a - radix 100 divr * radix 100 l.p
  high : a - radix 100 divr * radix 100 l.p < radix 100 divr
  proper : Proper 100 l.divd
  carry : l.divcarry = if a - radix 100 divr * radix 100 l.p < 0 then 1 else 0
  length : l.divd.length = divr.length + 1
  value : radix 100 l.divd = a - radix 100 divr * radix 100 l.p +
    100 ^ (divr.length + 1) * if a - radix 100 divr * radix 100 l.p < 0 then 1 else 0

/-- The places above the last one leave less than 116 times the divisor at the next place. -/
theorem Dividend.next {divr divd : Blk} {k : ℕ} (h : Divisor divr) (hd : Dividend divr (k + 1) divd)
    (hrest : 0 ≤ rest divr k (radix 100 divd))
    (hfit : rest divr k (radix 100 divd) < 100 ^ (divr.length + k + 1)) :
    Dividend divr k (taken divr k divd).dropLast ∧
      radix 100 (taken divr k divd).dropLast = rest divr k (radix 100 divd) := by
  obtain ⟨-, hlt, hspec⟩ := taken_spec h hd
  obtain ⟨hprop, hval⟩ := hspec hrest
  obtain ⟨hdrop, hlen, hnext⟩ := radix_dropLast hprop (length_taken hd.length)
  rw [hval, Int.ediv_eq_zero_of_lt hrest hfit, mul_zero, sub_zero] at hnext
  refine ⟨⟨hdrop, hlen, ?_⟩, hnext⟩
  rw [hnext]
  rw [pow_succ] at hlt
  linarith

theorem divLoop_spec {divr divd : Blk} {k : ℕ} (h : Divisor divr) (hd : Dividend divr k divd)
    (hfit : Fits divr k (radix 100 divd)) : Divided divr (radix 100 divd) (divLoop divr k divd) := by
  induction k generalizing divd with
  | zero =>
    have hle := trial_le h hd.proper hd.length (by decide) hd.lt
    obtain ⟨hlow, hhigh⟩ := (h.scaled (k := 0) hd.proper hd.length).last_rest (trial_zero hd.proper) hle
    rw [pow_zero, mul_one] at hlow hhigh
    have hvalr := Proper.lt (by decide) h.proper
    have hpow : (100 : ℤ) ^ divr.length ≤ 100 ^ (divr.length + 1) :=
      pow_le_pow_right₀ (by decide) (Nat.le_succ _)
    obtain ⟨hprop, hlen, hcarry, hval⟩ := minus_times h.proper hd.proper hd.length hle (by linarith)
    have hp : radix 100 [char (trial divr 0 divd)] = trial divr 0 divd := by
      rw [radix_cons, radix_nil, mul_zero, add_zero, char_eq (by omega)]
    rw [divLoop_zero]
    refine ⟨?_, ⟨[], ?_⟩, ?_, ?_, ?_, hprop, ?_, hlen.trans hd.length, ?_⟩
    · intro d hmem
      rw [mem_singleton.mp hmem, char_eq (by omega)]
      exact hle
    · rw [char_eq (by omega)]
    · intro hneg
      rw [hp] at hneg
      have hnonneg := Proper.nonneg (by decide) hd.proper
      by_contra hzero
      have heq : trial divr 0 divd = 0 := le_antisymm (by dsimp only at hzero; omega) hle.1
      rw [heq, mul_zero] at hneg
      linarith
    · rw [hp]
      linarith
    · rw [hp]
      linarith
    · rw [hp]
      exact hcarry
    · rw [hp]
      exact hval
  | succ k ih =>
    obtain ⟨hrest, hlt, hfits⟩ := hfit
    obtain ⟨hnext, hval⟩ := hd.next h hrest hlt
    have hdiv := ih hnext (by rw [hval]; exact hfits)
    have hdig := (taken_spec h hd).1
    rw [← trial_digit hd.proper hd.length] at hdig
    rw [divLoop_succ, char_eq (by omega)]
    generalize hl : divLoop divr k (taken divr k divd).dropLast = l at hdiv
    have hlen : l.p.length = k + 1 := by
      rw [← hl]
      exact length_divLoop _ _ _
    have hsame : radix 100 divd - radix 100 divr * radix 100 (l.p ++ [trial divr (k + 1) divd]) =
        radix 100 (taken divr k divd).dropLast - radix 100 divr * radix 100 l.p := by
      rw [radix_concat, hlen, hval, rest, trial_digit hd.proper hd.length]
      ring
    obtain ⟨q, hq⟩ := hdiv.head
    refine ⟨?_, ⟨q ++ [trial divr (k + 1) divd], ?_⟩, ?_, ?_, ?_, hdiv.proper, ?_, hdiv.length, ?_⟩
    · intro d hmem
      rcases mem_append.mp hmem with hmem | hmem
      · exact hdiv.digits d hmem
      · rw [mem_singleton.mp hmem]
        exact hdig
    · simp only [hq, cons_append]
    · rw [hsame]
      exact hdiv.dig
    · rw [hsame]
      exact hdiv.low
    · rw [hsame]
      exact hdiv.high
    · rw [hsame]
      exact hdiv.carry
    · rw [hsame]
      exact hdiv.value

/-- A place above the last one was wrong: the digits from there on are too many, or too few, in which
case the next digit is small. -/
def Missed (divr : Blk) (a : ℤ) (p : Blk) : Prop :=
  ∃ low high, p = low ++ high ∧ low ≠ [] ∧
    (a < radix 100 divr * radix 100 high * 100 ^ low.length ∨
      radix 100 divr * (radix 100 high + 1) * 100 ^ low.length ≤ a ∧
        ∃ q x, low = q ++ [x] ∧ 0 ≤ x ∧ x ≤ 98)

theorem divLoop_missed {divr divd : Blk} {k : ℕ} (h : Divisor divr) (hd : Dividend divr k divd)
    (hfit : ¬Fits divr k (radix 100 divd)) : Missed divr (radix 100 divd) (divLoop divr k divd).p := by
  induction k generalizing divd with
  | zero => exact absurd trivial hfit
  | succ k ih =>
    obtain ⟨hdig, hbound, hspec⟩ := taken_spec h hd
    have htrial := trial_digit hd.proper hd.length
    have hchar : char (trial divr (k + 1) divd) = digit divr k (radix 100 divd) := by
      rw [htrial, char_eq (by omega)]
    rw [divLoop_succ, hchar]
    dsimp only
    have hrestdef : rest divr k (radix 100 divd) = radix 100 divd -
        digit divr k (radix 100 divd) * (radix 100 divr * 100 ^ (k + 1)) := rfl
    have hlen := length_divLoop divr k (taken divr k divd).dropLast
    have hne : (divLoop divr k (taken divr k divd).dropLast).p ≠ [] := ne_nil_of_length_eq_add_one hlen
    by_cases hrest : 0 ≤ rest divr k (radix 100 divd)
    · by_cases hlt : rest divr k (radix 100 divd) < 100 ^ (divr.length + k + 1)
      · -- the places below miss it
        obtain ⟨hnext, hval⟩ := hd.next h hrest hlt
        have hfits : ¬Fits divr k (radix 100 (taken divr k divd).dropLast) := by
          rw [hval]
          exact fun hfits => hfit ⟨hrest, hlt, hfits⟩
        obtain ⟨low, high, hp, hlow, hmiss⟩ := ih hnext hfits
        rw [hp, length_append] at hlen
        rw [hval] at hmiss
        have hpow : (100 : ℤ) ^ (k + 1) = 100 ^ high.length * 100 ^ low.length := by
          rw [← pow_add, ← hlen, Nat.add_comm]
        refine ⟨low, high ++ [digit divr k (radix 100 divd)], by rw [hp, append_assoc], hlow, ?_⟩
        rw [hpow] at hrestdef
        rw [radix_concat]
        rcases hmiss with hover | ⟨hdrop, hsmall⟩
        · left
          linarith
        · right
          exact ⟨by linarith, hsmall⟩
      · -- a digit is dropped
        obtain ⟨hprop, hval⟩ := hspec hrest
        obtain ⟨hdrop, hdlen, hnext⟩ := radix_dropLast hprop (length_taken hd.length)
        rw [hval] at hnext
        have hpos : (0 : ℤ) < 100 ^ (divr.length + k + 1) := pow_pos (by decide) _
        have hk : (0 : ℤ) < 100 ^ k := pow_pos (by decide) _
        have hone : 1 ≤ rest divr k (radix 100 divd) / 100 ^ (divr.length + k + 1) :=
          (Int.le_ediv_iff_mul_le hpos).mpr (by linarith)
        have hvalr := mul_lt_mul_of_pos_right (Proper.lt (by decide) h.proper) hk
        have hpow : (100 : ℤ) ^ (divr.length + k + 1) = 100 * (100 ^ divr.length * 100 ^ k) := by
          rw [pow_succ, pow_add]
          ring
        have hpowk : (100 : ℤ) ^ (k + 1) = 100 * 100 ^ k := pow_succ' 100 k
        have hmul := mul_le_mul_of_nonneg_left hone hpos.le
        have hsmall := trial_le (b := 16) h hdrop hdlen (by decide) (by
          rw [hpowk] at hbound
          rw [hnext]
          linarith)
        obtain ⟨q, hq⟩ := divLoop_last divr k (taken divr k divd).dropLast
        rw [char_eq (by omega)] at hq
        refine ⟨_, [digit divr k (radix 100 divd)], rfl, hne, .inr ⟨?_, q, _, hq, hsmall.1, by omega⟩⟩
        rw [hlen, radix_cons, radix_nil, hpowk]
        rw [hpowk] at hrestdef
        linarith
    · -- a borrow is dropped
      refine ⟨_, [digit divr k (radix 100 divd)], rfl, hne, .inl ?_⟩
      rw [hlen, radix_cons, radix_nil]
      linarith

/-! ## The quotient and the remainder of positive numbers -/

/-- `p` after the correction of its last place -/
def corrected (l : Long) : Blk := if l.divcarry ≠ 0 then char (l.dig - 1) :: l.p.tail else l.p

/-- `p` and `divd` as `div` leaves them before it sets the signs -/
def divided (divr divd : Blk) : Blk × Blk :=
  if divd.length < divr.length then ([], divd)
  else
    let l := divLoop divr (divd.length - divr.length) (divd ++ [0])
    (strip (carryPass 0 (corrected l)),
      strip (if l.divcarry ≠ 0 then add divr (l.divd ++ [-1]) else l.divd))

theorem Divided.corrected {divr : Blk} {a : ℤ} {l : Long} (h : Divided divr a l) :
    (∀ d ∈ corrected l, 0 ≤ d ∧ d ≤ 116) ∧
      radix 100 (corrected l) = radix 100 l.p - l.divcarry := by
  obtain ⟨q, hq⟩ := h.head
  have hdigits := h.digits
  have hcarry := h.carry
  rw [Dc.corrected]
  split at hcarry
  next hneg =>
    have hdig := h.dig hneg
    have hle := hdigits l.dig (by rw [hq]; exact mem_cons_self)
    rw [if_pos (by rw [hcarry]; exact one_ne_zero), char_eq (by omega), hq, tail_cons, hcarry]
    constructor
    · intro d hd
      rcases mem_cons.mp hd with rfl | hd
      · omega
      · exact hdigits d (by rw [hq]; exact mem_cons_of_mem _ hd)
    · rw [radix_cons, radix_cons]
      ring
  next hpos =>
    rw [if_neg (not_not.mpr hcarry), hcarry, sub_zero]
    exact ⟨hdigits, rfl⟩

theorem Divided.rest {divr : Blk} {a : ℤ} {l : Long} (h : Divided divr a l) (hr : Proper 100 divr) :
    Proper 100 (if l.divcarry ≠ 0 then add divr (l.divd ++ [-1]) else l.divd) ∧
      radix 100 (if l.divcarry ≠ 0 then add divr (l.divd ++ [-1]) else l.divd) =
        a - radix 100 divr * (radix 100 l.p - l.divcarry) ∧
      0 ≤ a - radix 100 divr * (radix 100 l.p - l.divcarry) ∧
      a - radix 100 divr * (radix 100 l.p - l.divcarry) < radix 100 divr := by
  have hcarry := h.carry
  have hvalue := h.value
  have hlow := h.low
  have hhigh := h.high
  split at hcarry
  next hneg =>
    have hsigned : Signed (l.divd ++ [-1]) := by
      intro d hd
      rcases mem_append.mp hd with hd | hd
      · exact Proper.signed h.proper d hd
      · rw [mem_singleton.mp hd]
        decide
    rw [if_pos hneg] at hvalue
    have hsum : radix 100 divr + radix 100 (l.divd ++ [-1]) =
        a - radix 100 divr * (radix 100 l.p - 1) := by
      rw [radix_concat, h.length, hvalue]
      ring
    obtain ⟨hprop, hval⟩ := add_nonneg (Proper.signed hr) hsigned (by rw [hsum]; linarith)
    rw [if_pos (by rw [hcarry]; exact one_ne_zero), hcarry]
    exact ⟨hprop, hval.trans hsum, by linarith, by linarith⟩
  next hpos =>
    rw [if_neg hpos, mul_zero, add_zero] at hvalue
    rw [if_neg (not_not.mpr hcarry), hcarry, sub_zero]
    exact ⟨h.proper, hvalue, not_lt.mp hpos, hhigh⟩

theorem Divisor.pow_le {divr : Blk} (h : Divisor divr) :
    100 ^ divr.length ≤ 100 * radix 100 divr :=
  h.proper.pow_length_le (by decide) h.ne_nil h.last

theorem Divisor.dividend {divr divd : Blk} (h : Divisor divr) (hd : Proper 100 divd)
    (hlen : ¬divd.length < divr.length) :
    Dividend divr (divd.length - divr.length) (divd ++ [0]) ∧ radix 100 (divd ++ [0]) = radix 100 divd := by
  have hval : radix 100 (divd ++ [0]) = radix 100 divd := by
    rw [radix_concat, mul_zero, add_zero]
  refine ⟨⟨hd.append ?_, ?_, ?_⟩, hval⟩
  · intro x hx
    rw [mem_singleton.mp hx]
    decide
  · rw [length_append, length_singleton]
    omega
  · have hlt := Proper.lt (by decide) hd
    have hsum : divd.length = divr.length + (divd.length - divr.length) := by omega
    have hpow : (100 : ℤ) ^ divd.length = 100 ^ divr.length * 100 ^ (divd.length - divr.length) := by
      rw [← pow_add, ← hsum]
    have hpos : (0 : ℤ) < 100 ^ (divd.length - divr.length) := pow_pos (by decide) _
    have hmul := mul_le_mul_of_nonneg_right h.pow_le hpos.le
    have hnonneg := mul_nonneg (Proper.nonneg (by decide) h.proper) hpos.le
    rw [hval]
    rw [hpow] at hlt
    linarith

theorem divided_spec {divr divd : Blk} (h : Divisor divr) (hd : Proper 100 divd)
    (hlast : divd.getLast? ≠ some 0)
    (hfit : Fits divr (divd.length - divr.length) (radix 100 divd)) :
    (Proper 100 (divided divr divd).1 ∧ (divided divr divd).1.getLast? ≠ some 0) ∧
      (Proper 100 (divided divr divd).2 ∧ (divided divr divd).2.getLast? ≠ some 0) ∧
      radix 100 divd = radix 100 divr * radix 100 (divided divr divd).1 + radix 100 (divided divr divd).2 ∧
      radix 100 (divided divr divd).2 < radix 100 divr := by
  rw [divided]
  split
  next hshort =>
    have hlt := Proper.lt (by decide) hd
    have hpow : (100 : ℤ) ^ (divd.length + 1) ≤ 100 ^ divr.length := pow_le_pow_right₀ (by decide) hshort
    have hle := h.pow_le
    rw [pow_succ] at hpow
    refine ⟨⟨nofun, nofun⟩, ⟨hd, hlast⟩, ?_, by linarith⟩
    rw [radix_nil]
    ring
  next hlen =>
    obtain ⟨hdiv, hval⟩ := h.dividend hd hlen
    have hloop := divLoop_spec h hdiv (by rw [hval]; exact hfit)
    rw [hval] at hloop
    obtain ⟨l, hl⟩ : ∃ l, l = divLoop divr (divd.length - divr.length) (divd ++ [0]) := ⟨_, rfl⟩
    rw [← hl] at hloop ⊢
    obtain ⟨hdigits, hcorrected⟩ := hloop.corrected
    obtain ⟨hprop, hrest, hnonneg, hlt⟩ := hloop.rest h.proper
    have hcarry := carryPass_proper (c := 0) (fun d hd => ⟨(hdigits d hd).1, by have := hdigits d hd; omega⟩)
      (.inl rfl)
    have hradix := radix_carryPass (c := 0) (fun d hd => by have := hdigits d hd; omega) (.inl rfl)
    refine ⟨⟨hcarry.strip, strip_last⟩, ⟨hprop.strip, strip_last⟩, ?_, ?_⟩
    · dsimp only
      rw [strip, strip, radix_strip, radix_strip, hradix, hcorrected, hrest]
      ring
    · dsimp only
      rw [strip, radix_strip, hrest]
      exact hlt

theorem Proper.of_strip {ds : Blk} (h : Proper 100 (strip ds)) : Proper 100 ds := by
  induction ds using List.reverseRecOn with
  | nil => exact nofun
  | append_singleton ds d ih =>
    by_cases hd : d = 0
    · rw [strip, rdropWhile_concat_pos (fun x : ℤ => decide (x = 0)) ds d (decide_eq_true hd)] at h
      refine (ih h).append fun x hx => ?_
      rw [mem_singleton.mp hx, hd]
      decide
    · rw [strip, rdropWhile_concat_neg (fun x : ℤ => decide (x = 0)) ds d (by simpa using hd)] at h
      exact h

/-- Digits that the pass makes proper are not the ones of a negative number. -/
theorem carryPass_low {c : ℤ} {low high : Blk} (hlow : ∀ d ∈ low, -128 ≤ d ∧ d ≤ 127)
    (hc : c = 0 ∨ c = 1) (h : Proper 100 (carryPass c (low ++ high))) : 0 ≤ radix 100 low + c := by
  induction low generalizing c with
  | nil =>
    rw [radix_nil]
    omega
  | cons d low ih =>
    have hd := hlow d mem_cons_self
    have htail : ∀ d ∈ low, -128 ≤ d ∧ d ≤ 127 := fun x hx => hlow x (mem_cons_of_mem _ hx)
    rw [cons_append, carryPass] at h
    rw [radix_cons]
    split at h
    next hge =>
      have hih := ih htail (.inr rfl) h.tail
      have hhead := h.head.1
      rw [char_eq (by omega)] at hhead
      linarith
    next hlt =>
      have hih := ih htail (.inl rfl) h.tail
      have hhead := h.head.1
      rw [char_eq (by omega)] at hhead
      linarith

theorem radix_chars {q : Blk} (hq : ∀ d ∈ q, d ≤ 127) : 99 * radix 100 q ≤ 127 * (100 ^ q.length - 1) := by
  induction q with
  | nil => simp
  | cons d q ih =>
    have hd := hq d mem_cons_self
    have hih := ih fun x hx => hq x (mem_cons_of_mem _ hx)
    rw [radix_cons, length_cons, pow_succ]
    linarith

/-- The correction of a digit does not make it greater than a proper one. -/
theorem char_sub_one {c : ℤ} (h : 0 ≤ char c) : char (c - 1) = char c - 1 := by
  rw [char, Int.bmod_def] at h ⊢
  rw [char, Int.bmod_def]
  omega

theorem divLoop_head (divr : Blk) (k : ℕ) (divd : Blk) :
    ∃ q, (divLoop divr k divd).p = char (divLoop divr k divd).dig :: q := by
  induction k generalizing divd with
  | zero => exact ⟨[], rfl⟩
  | succ k ih =>
    obtain ⟨q, hq⟩ := ih (taken divr k divd).dropLast
    rw [divLoop_succ]
    exact ⟨q ++ [_], by rw [hq]; rfl⟩

/-- If something does not fit, the result is not the quotient. -/
theorem divided_missed {divr divd : Blk} (h : Divisor divr) (hd : Proper 100 divd)
    (hfit : ¬Fits divr (divd.length - divr.length) (radix 100 divd))
    (hp : Proper 100 (divided divr divd).1) :
    radix 100 divd < radix 100 divr * radix 100 (divided divr divd).1 ∨
      radix 100 divr * (radix 100 (divided divr divd).1 + 1) ≤ radix 100 divd := by
  have hlen : ¬divd.length < divr.length := by
    intro hshort
    rw [Nat.sub_eq_zero_of_le hshort.le] at hfit
    exact hfit trivial
  rw [divided, if_neg hlen] at hp ⊢
  dsimp only at hp ⊢
  obtain ⟨hdiv, hval⟩ := h.dividend hd hlen
  obtain ⟨low, high, hsplit, hne, hmiss⟩ := divLoop_missed h hdiv (by rw [hval]; exact hfit)
  rw [hval] at hmiss
  obtain ⟨l, hl⟩ : ∃ l, l = divLoop divr (divd.length - divr.length) (divd ++ [0]) := ⟨_, rfl⟩
  obtain ⟨q, hq⟩ := divLoop_head divr (divd.length - divr.length) (divd ++ [0])
  have hchars := divLoop_chars divr (divd.length - divr.length) (divd ++ [0])
  rw [← hl] at hp hsplit hq hchars ⊢
  obtain ⟨d, low, rfl⟩ := exists_cons_of_ne_nil hne
  rw [hsplit] at hq
  have hd' : d = char l.dig := (List.cons.inj hq).1
  -- the correction changes the lowest digit
  obtain ⟨e, hcorr, he, hed⟩ : ∃ e, corrected l = e :: (low ++ high) ∧ (-128 ≤ e ∧ e ≤ 127) ∧
      (0 ≤ d → e ≤ d) := by
    rw [corrected]
    split
    · refine ⟨_, by rw [hsplit]; rfl, char_range _, fun hnonneg => ?_⟩
      rw [hd'] at hnonneg ⊢
      rw [char_sub_one hnonneg]
      omega
    · exact ⟨d, hsplit, hchars d (by rw [hsplit]; exact mem_cons_self), fun _ => le_refl d⟩
  have hlowchars : ∀ x ∈ low, -128 ≤ x ∧ x ≤ 127 := fun x hx =>
    hchars x (by rw [hsplit]; exact mem_cons_of_mem _ (mem_append_left _ hx))
  have hallchars : ∀ x ∈ e :: (low ++ high), -128 ≤ x ∧ x ≤ 127 := by
    intro x hx
    rcases mem_cons.mp hx with rfl | hx
    · exact he
    · exact hchars x (by rw [hsplit]; exact mem_cons_of_mem _ hx)
  have hlow : ∀ x ∈ e :: low, -128 ≤ x ∧ x ≤ 127 := by
    intro x hx
    rcases mem_cons.mp hx with rfl | hx
    · exact he
    · exact hlowchars x hx
  have hD := Proper.nonneg (by decide) h.proper
  rw [hcorr] at hp ⊢
  have hvalue : radix 100 (strip (carryPass 0 (e :: (low ++ high)))) =
      radix 100 (e :: low) + 100 ^ (d :: low).length * radix 100 high := by
    rw [strip, radix_strip, radix_carryPass hallchars (.inl rfl), add_zero, ← cons_append,
      radix_append]
    rfl
  rw [hvalue]
  rcases hmiss with hover | ⟨hdrop, r, x, hlast, hx⟩
  · have hnonneg := carryPass_low hlow (.inl rfl) (Proper.of_strip hp)
    have hmul := mul_nonneg hD hnonneg
    left
    linarith
  · -- the digits below the place are those of a number below the power of the base
    obtain ⟨r', x', hcat, hr', hx'⟩ : ∃ r' x', e :: low = r' ++ [x'] ∧ (∀ y ∈ r', y ≤ 127) ∧ x' ≤ 98 := by
      cases r with
      | nil =>
        obtain ⟨hdx, hnil⟩ := List.cons.inj hlast
        refine ⟨[], e, by rw [hnil]; rfl, forall_mem_nil _, ?_⟩
        have hedx := hed (by omega)
        omega
      | cons y r =>
        obtain ⟨-, htail⟩ := List.cons.inj hlast
        refine ⟨e :: r, x, by rw [htail]; rfl, fun z hz => ?_, hx.2⟩
        rcases mem_cons.mp hz with rfl | hz
        · exact he.2
        · exact (hlowchars z (by rw [htail]; exact mem_append_left _ hz)).2
    have hbound := radix_chars hr'
    have hpow : (0 : ℤ) < 100 ^ r'.length := pow_pos (by decide) _
    have hlen' : (d :: low).length = r'.length + 1 := by
      rw [length_cons, ← length_cons (a := e), hcat, length_append, length_singleton]
    have htop := mul_le_mul_of_nonneg_left hx' hpow.le
    have hlt : radix 100 (e :: low) + 1 ≤ 100 ^ (d :: low).length := by
      rw [hcat, radix_concat, hlen', pow_succ]
      linarith
    have hmul := mul_le_mul_of_nonneg_left hlt hD
    right
    linarith

/-! ## The quotient and the remainder -/

/-- What `div` is to leave -/
structure Exact (a b p rem : Blk) : Prop where
  canonical : Canonical p
  value : radix 100 a = radix 100 b * radix 100 p + radix 100 rem
  less : |radix 100 rem| < |radix 100 b|
  sign : 0 ≤ radix 100 rem * radix 100 a

/-- No place above the last one leaves a digit or a borrow to be dropped. -/
def Sound (a b : Blk) : Prop :=
  Fits (magnitude b) ((magnitude a).length - (magnitude b).length) (radix 100 (magnitude a))

instance (a b : Blk) : Decidable (Sound a b) := inferInstanceAs (Decidable (Fits _ _ _))

theorem div_eq {a b : Blk} (hne : b ≠ []) :
    div a b = some
      (if xor (decide (b.getLast? = some (-1))) (decide (a.getLast? = some (-1))) then
          chsign (divided (magnitude b) (magnitude a)).1 else (divided (magnitude b) (magnitude a)).1,
        if a.getLast? = some (-1) then chsign (divided (magnitude b) (magnitude a)).2
        else (divided (magnitude b) (magnitude a)).2) := by
  have hnil : chsign [] = [] := rfl
  rw [div, if_neg hne, divided]
  simp only [decide_eq_true_eq, corrected]
  rw [← magnitude, ← magnitude]
  split
  · rw [hnil, ite_self]
  · rfl

theorem Canonical.divisor {b : Blk} (h : Canonical b) (hne : b ≠ []) : Divisor (magnitude b) := by
  obtain ⟨hprop, hlast, hneg, hpos⟩ := h.cases
  refine ⟨hprop, fun hnil => ?_, hlast⟩
  by_cases hsign : b.getLast? = some (-1)
  · obtain ⟨hlt, hval⟩ := hneg hsign
    rw [hnil, radix_nil] at hval
    omega
  · rw [(hpos hsign).2] at hnil
    exact hne hnil

theorem Canonical.radix_magnitude {a : Blk} (h : Canonical a) :
    radix 100 a = (if a.getLast? = some (-1) then -1 else 1) * radix 100 (magnitude a) := by
  obtain ⟨-, -, hneg, hpos⟩ := h.cases
  split
  next hsign =>
    rw [(hneg hsign).2]
    ring
  next hsign => rw [(hpos hsign).2, one_mul]

theorem radix_if_chsign {p : Blk} {s : Prop} [Decidable s] (hp : Proper 100 p) :
    radix 100 (if s then chsign p else p) = (if s then -1 else 1) * radix 100 p := by
  split
  · rw [radix_chsign (Proper.signed hp), neg_one_mul]
  · rw [one_mul]

theorem exact_of_sound {a b : Blk} (ha : Canonical a) (hb : Canonical b) (hne : b ≠ [])
    (h : Sound a b) : ∃ p rem, div a b = some (p, rem) ∧ Exact a b p rem := by
  obtain ⟨hprop, hlast, -⟩ := ha.cases
  have hdivisor := hb.divisor hne
  obtain ⟨⟨hp, hplast⟩, ⟨hr, -⟩, hval, hlt⟩ := divided_spec hdivisor hprop hlast h
  have hrnonneg := Proper.nonneg (by decide) hr
  have hanonneg := Proper.nonneg (by decide) hprop
  have hmul := mul_nonneg hrnonneg hanonneg
  refine ⟨_, _, div_eq hne, ?_⟩
  generalize divided (magnitude b) (magnitude a) = d at *
  have hcanonical : Canonical (if xor (decide (b.getLast? = some (-1)))
      (decide (a.getLast? = some (-1))) then chsign d.1 else d.1) := by
    split
    · exact (chsign_pos hp hplast).canonical
    · exact .inl ⟨hp, hplast⟩
  refine ⟨hcanonical, ?_, ?_, ?_⟩
  · rw [radix_if_chsign hp, radix_if_chsign hr, ha.radix_magnitude, hb.radix_magnitude, hval]
    by_cases hsa : a.getLast? = some (-1)
    · by_cases hsb : b.getLast? = some (-1)
      · simp [hsa, hsb]
        ring
      · simp [hsa, hsb]
        ring
    · by_cases hsb : b.getLast? = some (-1)
      · simp [hsa, hsb]
      · simp [hsa, hsb]
  · have habs : |radix 100 b| = radix 100 (magnitude b) := by
      rw [hb.radix_magnitude, abs_mul, abs_of_nonneg (Proper.nonneg (by decide) hdivisor.proper)]
      split
      · rw [abs_neg, abs_one, one_mul]
      · rw [abs_one, one_mul]
    rw [radix_if_chsign hr, abs_mul, habs, abs_of_nonneg hrnonneg]
    split
    · rw [abs_neg, abs_one, one_mul]
      exact hlt
    · rw [abs_one, one_mul]
      exact hlt
  · rw [radix_if_chsign hr, ha.radix_magnitude]
    split
    · linarith
    · linarith

/-- For numbers of one sign the equation is one of their magnitudes. -/
theorem Exact.magnitudes {a b p rem : Blk} (h : Exact a b p rem) (ha : Canonical a) (hb : Canonical b)
    (hsame : a.getLast? = some (-1) ↔ b.getLast? = some (-1)) :
    ∃ r, radix 100 (magnitude a) = radix 100 (magnitude b) * radix 100 p + r ∧
      -radix 100 (magnitude b) < r ∧ r < radix 100 (magnitude b) ∧
      0 ≤ r * radix 100 (magnitude a) := by
  obtain ⟨-, hvalue, hless, hsign⟩ := h
  have hD := Proper.nonneg (by decide) hb.cases.1
  rw [hb.radix_magnitude, abs_mul, abs_of_nonneg hD] at hless
  rw [ha.radix_magnitude, hb.radix_magnitude] at hvalue
  rw [ha.radix_magnitude] at hsign
  by_cases hneg : b.getLast? = some (-1)
  · rw [if_pos hneg, if_pos (hsame.mpr hneg)] at hvalue
    rw [if_pos hneg, abs_neg, abs_one, one_mul] at hless
    rw [if_pos (hsame.mpr hneg)] at hsign
    obtain ⟨hlow, hhigh⟩ := abs_lt.mp hless
    exact ⟨-radix 100 rem, by linarith, by linarith, by linarith, by linarith⟩
  · rw [if_neg hneg, if_neg fun h => hneg (hsame.mp h)] at hvalue
    rw [if_neg hneg, abs_one, one_mul] at hless
    rw [if_neg fun h => hneg (hsame.mp h)] at hsign
    obtain ⟨hlow, hhigh⟩ := abs_lt.mp hless
    exact ⟨radix 100 rem, by linarith, hlow, hhigh, by linarith⟩

theorem sound_of_exact {a b p rem : Blk} (ha : Canonical a) (hb : Canonical b) (hne : b ≠ [])
    (hsame : a.getLast? = some (-1) ↔ b.getLast? = some (-1)) (hdiv : div a b = some (p, rem))
    (h : Exact a b p rem) : Sound a b := by
  have hA := Proper.nonneg (by decide) ha.cases.1
  have hD := Proper.nonneg (by decide) hb.cases.1
  obtain ⟨r, hvalue, hlow, hhigh, hsign⟩ := h.magnitudes ha hb hsame
  have hxor : ¬xor (decide (b.getLast? = some (-1))) (decide (a.getLast? = some (-1))) = true := by
    simp [hsame]
  rw [div_eq hne, if_neg hxor] at hdiv
  have hp : (divided (magnitude b) (magnitude a)).1 = p := (Prod.mk.inj (Option.some.inj hdiv)).1
  have hnonneg : 0 ≤ radix 100 p := by
    by_contra hneg
    have hmul := mul_le_mul_of_nonneg_left (show radix 100 p ≤ -1 by omega) hD
    linarith
  -- the quotient is not negative, so its digits are proper
  have hproper : Proper 100 p := by
    obtain ⟨hprop, -, hneg, hpos⟩ := h.canonical.cases
    by_cases hlast : p.getLast? = some (-1)
    · exact absurd (hneg hlast).1 (not_lt.mpr hnonneg)
    · rw [(hpos hlast).2] at hprop
      exact hprop
  by_contra hmissed
  have hmiss := divided_missed (hb.divisor hne) ha.cases.1 hmissed (by rw [hp]; exact hproper)
  rw [hp] at hmiss
  rcases hmiss with hover | hunder
  · have hr : r < 0 := by linarith
    rcases hA.eq_or_lt with hzero | hpos
    · -- the quotient of 0 is 0
      rcases hnonneg.eq_or_lt with hp0 | hp1
      · rw [← hp0, mul_zero] at hover
        linarith
      · have hmul := mul_le_mul_of_nonneg_left (Int.add_one_le_iff.mpr hp1) hD
        linarith
    · have hmul := mul_neg_of_neg_of_pos hr hpos
      linarith
  · linarith

/-- `div` is exact if no place above the last one leaves a digit or a borrow to be dropped. For a
quotient that is not negative it is exact only then. -/
theorem div_exact {a b : Blk} (ha : Canonical a) (hb : Canonical b) (hne : b ≠ []) :
    (Sound a b → ∃ p rem, div a b = some (p, rem) ∧ Exact a b p rem) ∧
      ((a.getLast? = some (-1) ↔ b.getLast? = some (-1)) →
        (∃ p rem, div a b = some (p, rem) ∧ Exact a b p rem) → Sound a b) := by
  refine ⟨exact_of_sound ha hb hne, ?_⟩
  rintro hsame ⟨p, rem, hdiv, hexact⟩
  exact sound_of_exact ha hb hne hsame hdiv hexact

/-- -1234 by 7 -/
theorem div_exact_negative :
    ∃ p rem, div [66, 87, -1] [7] = some (p, rem) ∧ Exact [66, 87, -1] [7] p rem :=
  (div_exact (a := [66, 87, -1]) (b := [7]) (.inr ⟨[66, 87], rfl, by decide, by decide⟩)
    (.inl ⟨by decide, by decide⟩) (by decide)).1 (by decide)

/-- 2176786753 by 9999 is 217700, and 4453 is left, but a 1 is dropped at the last place but one. -/
theorem div_drops :
    ¬∀ a b, Canonical a → Canonical b → b ≠ [] →
      ∃ p rem, div a b = some (p, rem) ∧ Exact a b p rem := by
  intro h
  obtain ⟨p, rem, hdiv, hexact⟩ := h [53, 67, 78, 76, 21] [99, 99] (.inl ⟨by decide, by decide⟩)
    (.inl ⟨by decide, by decide⟩) nofun
  have hrun : div [53, 67, 78, 76, 21] [99, 99] = some ([0, 76, 21], [53, 43]) := by decide
  rw [hrun] at hdiv
  obtain ⟨rfl, rfl⟩ := Prod.mk.inj (Option.some.inj hdiv)
  exact absurd hexact.value (by decide)

end Svr3.Dc
