import Svr3.Cmd.Dc

/-!
# The arithmetic of `dc` on digits

What `chsign`, `add` and the loops of `div` do to the number of a string of digits, as long as each result
fits into a `char`.
-/

namespace Svr3.Dc

open List

theorem char_eq {c : ℤ} (h : -128 ≤ c ∧ c ≤ 127) : char c = c := by
  rw [char]
  exact Int.bmod_eq_of_le (by omega) (by omega)

theorem char_range (c : ℤ) : -128 ≤ char c ∧ char c ≤ 127 := by
  have hle := Int.le_bmod (x := c) (m := 256) (by decide)
  have hlt := Int.bmod_lt (x := c) (m := 256) (by decide)
  rw [char]
  omega

/-- Digits that a number in canonical form can have -/
def Signed (p : Blk) : Prop := ∀ d ∈ p, -1 ≤ d ∧ d ≤ 99

/-- No superfluous digit is at the end. The number -1 may also be written with a digit 99. -/
def Canonical (p : Blk) : Prop :=
  Proper 100 p ∧ p.getLast? ≠ some 0 ∨
    ∃ q, p = q ++ [-1] ∧ Proper 100 q ∧ (q.getLast? = some 99 → q = [99])

/-- No superfluous digit is at the end, not of the number -1 either. -/
def Normal (p : Blk) : Prop :=
  Proper 100 p ∧ p.getLast? ≠ some 0 ∨ ∃ q, p = q ++ [-1] ∧ Proper 100 q ∧ q.getLast? ≠ some 99

theorem Normal.canonical {p : Blk} (h : Normal p) : Canonical p := by
  rcases h with h | ⟨q, hp, hq, h99⟩
  · exact .inl h
  · exact .inr ⟨q, hp, hq, fun hlast => absurd hlast h99⟩

/-! ## Signs -/

theorem chsignLoop_append (carry : ℤ) (p q : Blk) :
    chsignLoop carry (p ++ q) =
      ((chsignLoop carry p).1 ++ (chsignLoop (chsignLoop carry p).2 q).1,
        (chsignLoop (chsignLoop carry p).2 q).2) := by
  induction p generalizing carry with
  | nil => rfl
  | cons d p ih =>
    rw [cons_append]
    simp only [chsignLoop]
    split
    · rw [ih]
      rfl
    · rw [ih]
      rfl

/-- The digits are the complement of the others. -/
theorem chsignLoop_spec {p : Blk} {carry : ℤ} (hp : Signed p) (hc : carry = 0 ∨ carry = 1) :
    Proper 100 (chsignLoop carry p).1 ∧ (chsignLoop carry p).1.length = p.length ∧
      ((chsignLoop carry p).2 = 0 ∨ (chsignLoop carry p).2 = 1) ∧
      radix 100 (chsignLoop carry p).1 =
        100 ^ p.length * (chsignLoop carry p).2 - radix 100 p - carry := by
  induction p generalizing carry with
  | nil => exact ⟨nofun, rfl, hc, by simp [chsignLoop]⟩
  | cons d p ih =>
    have hd := hp d mem_cons_self
    have htail : Signed p := fun x hx => hp x (mem_cons_of_mem _ hx)
    have hct : char (100 - d - carry) = 100 - d - carry := char_eq (by omega)
    simp only [chsignLoop]
    rw [hct]
    split
    next hge =>
      obtain ⟨hprop, hlen, hcarry, hval⟩ := ih htail (.inl rfl)
      have hsub : char (100 - d - carry - 100) = -d - carry := by
        rw [char_eq (by omega)]
        ring
      refine ⟨fun x hx => ?_, congrArg Nat.succ hlen, hcarry, ?_⟩
      · rcases mem_cons.mp hx with rfl | hx
        · rw [hsub]
          omega
        · exact hprop x hx
      · rw [radix_cons, radix_cons, hval, hsub, length_cons, pow_succ]
        ring
    next hlt =>
      obtain ⟨hprop, hlen, hcarry, hval⟩ := ih htail (.inr rfl)
      refine ⟨fun x hx => ?_, congrArg Nat.succ hlen, hcarry, ?_⟩
      · rcases mem_cons.mp hx with rfl | hx
        · omega
        · exact hprop x hx
      · rw [radix_cons, radix_cons, hval, length_cons, pow_succ]
        ring

theorem radix_concat (q : Blk) (d : ℤ) : radix 100 (q ++ [d]) = radix 100 q + 100 ^ q.length * d := by
  rw [radix_append, radix_cons, radix_nil, mul_zero, add_zero]

theorem dropLast_concat_of {p : Blk} {d : ℤ} (h : p.getLast? = some d) : p = p.dropLast ++ [d] := by
  obtain ⟨q, rfl⟩ := List.getLast?_eq_some_iff.mp h
  rw [dropLast_concat]

theorem radix_chsign {p : Blk} (hp : Signed p) : radix 100 (chsign p) = -radix 100 p := by
  obtain ⟨-, hlen, hcarry, hval⟩ := chsignLoop_spec hp (.inl rfl)
  rw [← hlen] at hval
  rw [chsign]
  rcases hcarry with hzero | hone
  · rw [if_neg (not_not.mpr hzero)]
    rw [hzero] at hval
    split
    next hlast =>
      rw [dropLast_concat_of hlast, radix_concat] at hval
      linarith
    next => linarith
  · rw [if_pos (by rw [hone]; exact one_ne_zero)]
    rw [hone] at hval
    split
    next hlast =>
      have hcut := dropLast_concat_of hlast
      obtain ⟨q, hq⟩ : ∃ q, q = (chsignLoop 0 p).1.dropLast := ⟨_, rfl⟩
      rw [← hq] at hcut ⊢
      rw [hcut, radix_concat, length_append, length_singleton, pow_succ] at hval
      rw [radix_concat]
      linarith
    next =>
      rw [radix_concat]
      linarith

theorem Proper.signed {p : Blk} (h : Proper 100 p) : Signed p := by
  intro d hd
  have hd' := h d hd
  omega

/-- The highest digit of a complement -/
theorem chsignLoop_concat {q : Blk} {d : ℤ} (hq : Proper 100 q) (hd : -1 ≤ d ∧ d ≤ 99) :
    chsignLoop 0 (q ++ [d]) =
      if 100 - d - (chsignLoop 0 q).2 ≥ 100 then
        ((chsignLoop 0 q).1 ++ [-d - (chsignLoop 0 q).2], 0)
      else ((chsignLoop 0 q).1 ++ [100 - d - (chsignLoop 0 q).2], 1) := by
  obtain ⟨-, -, hcarry, -⟩ := chsignLoop_spec (Proper.signed hq) (.inl rfl)
  rw [chsignLoop_append]
  obtain ⟨c, hc⟩ : ∃ c, c = (chsignLoop 0 q).2 := ⟨_, rfl⟩
  rw [← hc] at hcarry ⊢
  have hct : char (100 - d - c) = 100 - d - c := char_eq (by omega)
  simp only [chsignLoop]
  rw [hct]
  split
  next hge =>
    have hsub : char (100 - d - c - 100) = -d - c := by
      rw [char_eq (by omega)]
      ring
    rw [hsub]
  next => rfl

/-- A negative number becomes a positive one. -/
theorem chsign_neg {q : Blk} (hq : Proper 100 q) (h99 : q.getLast? = some 99 → q = [99]) :
    Proper 100 (chsign (q ++ [-1])) ∧ (chsign (q ++ [-1])).getLast? ≠ some 0 := by
  obtain ⟨hprop, -, hcarry, -⟩ := chsignLoop_spec (Proper.signed hq) (.inl rfl)
  have hloop : chsignLoop 0 (q ++ [-1]) = ((chsignLoop 0 q).1 ++ [- -1 - (chsignLoop 0 q).2], 0) := by
    rw [chsignLoop_concat hq (by decide), if_pos (by omega)]
  rw [chsign, hloop, if_neg (not_not.mpr rfl)]
  rcases hcarry with hzero | hone
  · rw [hzero]
    have hlast : ((chsignLoop 0 q).1 ++ [- -1 - 0]).getLast? = some 1 := List.getLast?_concat
    rw [if_neg (by rw [hlast]; decide), hlast]
    refine ⟨hprop.append fun x hx => ?_, by decide⟩
    rw [mem_singleton.mp hx]
    decide
  · rw [hone]
    have hlast : ((chsignLoop 0 q).1 ++ [- -1 - 1]).getLast? = some 0 := List.getLast?_concat
    rw [if_pos hlast, dropLast_concat]
    refine ⟨hprop, fun hend => ?_⟩
    rcases eq_nil_or_concat q with rfl | ⟨q', d, hqd⟩
    · exact absurd hone (by decide)
    · -- the digit below is 0 only for a digit 99
      rw [concat_eq_append] at hqd
      rw [hqd] at hq
      have hd := hq.right d mem_cons_self
      obtain ⟨-, -, hcarry', -⟩ := chsignLoop_spec (Proper.signed hq.left) (.inl rfl)
      rw [hqd, chsignLoop_concat hq.left (by omega)] at hend hone
      split at hend
      next hge =>
        rw [if_pos hge] at hone
        exact absurd hone zero_ne_one
      next hlt =>
        rw [List.getLast?_concat] at hend
        have hzero := Option.some.inj hend
        have hd99 : d = 99 := by omega
        have hq99 := h99 (by rw [hqd, hd99, List.getLast?_concat])
        rw [hqd, hd99] at hq99
        have hnil : q' = [] := (append_eq_singleton_iff.mp hq99).elim (·.1) fun h =>
          absurd h.2 nofun
        rw [hnil] at hzero
        have hempty : (chsignLoop 0 ([] : Blk)).2 = 0 := rfl
        omega

/-- A positive number becomes a negative one with no superfluous digit. -/
theorem chsign_pos {p : Blk} (hp : Proper 100 p) (hlast : p.getLast? ≠ some 0) :
    Normal (chsign p) := by
  rcases eq_nil_or_concat p with rfl | ⟨q, d, hqd⟩
  · exact .inl ⟨nofun, nofun⟩
  · rw [concat_eq_append] at hqd
    rw [hqd] at hp hlast ⊢
    have hd := hp.right d mem_cons_self
    have hd0 : d ≠ 0 := by
      intro heq
      rw [heq, List.getLast?_concat] at hlast
      exact hlast rfl
    obtain ⟨hprop, hlen, hcarry, hval⟩ := chsignLoop_spec (Proper.signed hp.left) (.inl rfl)
    have hloop : chsignLoop 0 (q ++ [d]) =
        ((chsignLoop 0 q).1 ++ [100 - d - (chsignLoop 0 q).2], 1) := by
      rw [chsignLoop_concat hp.left (by omega), if_neg (by omega)]
    rw [chsign, hloop, if_pos one_ne_zero, List.getLast?_concat, dropLast_concat]
    split
    next h99 =>
      have hnine := Option.some.inj h99
      refine .inr ⟨_, rfl, hprop, fun hend => ?_⟩
      -- then all the digits below are 0
      have hzero : (chsignLoop 0 q).2 = 0 := by omega
      rw [hzero] at hval
      have hlow := Proper.nonneg (by decide) hp.left
      have hcut := dropLast_concat_of hend
      rw [hcut] at hprop
      have hpow := Proper.pow_le (by decide) hprop (by decide)
      rw [← hcut] at hpow
      have hpos : (0 : ℤ) < 100 ^ (chsignLoop 0 q).1.dropLast.length := pow_pos (by decide) _
      omega
    next h99 =>
      refine .inr ⟨_, rfl, hprop.append fun x hx => ?_, fun hend => ?_⟩
      · rw [mem_singleton.mp hx]
        omega
      · rw [List.getLast?_concat] at hend
        exact absurd hend h99

/-- The digits of the absolute value, as `div` makes them -/
def magnitude (p : Blk) : Blk := if p.getLast? = some (-1) then chsign p else p

theorem Canonical.cases {p : Blk} (h : Canonical p) :
    Proper 100 (magnitude p) ∧ (magnitude p).getLast? ≠ some 0 ∧
      (p.getLast? = some (-1) → radix 100 p < 0 ∧ radix 100 (magnitude p) = -radix 100 p) ∧
      (p.getLast? ≠ some (-1) → 0 ≤ radix 100 p ∧ magnitude p = p) := by
  rcases h with ⟨hp, hlast⟩ | ⟨q, rfl, hq, h99⟩
  · have hne : p.getLast? ≠ some (-1) := by
      intro heq
      have hmem := hp (-1) (mem_of_getLast? heq)
      omega
    have hsame : magnitude p = p := if_neg hne
    rw [hsame]
    exact ⟨hp, hlast, fun heq => absurd heq hne, fun _ => ⟨Proper.nonneg (by decide) hp, rfl⟩⟩
  · have heq : (q ++ [(-1 : ℤ)]).getLast? = some (-1) := List.getLast?_concat
    have hsame : magnitude (q ++ [-1]) = chsign (q ++ [-1]) := if_pos heq
    have hsigned : Signed (q ++ [-1]) := by
      intro x hx
      rcases mem_append.mp hx with hx | hx
      · exact Proper.signed hq x hx
      · rw [mem_singleton.mp hx]
        decide
    rw [hsame]
    refine ⟨(chsign_neg hq h99).1, (chsign_neg hq h99).2, fun _ => ⟨?_, radix_chsign hsigned⟩,
      fun hne => absurd heq hne⟩
    have hlt := Proper.lt (by decide) hq
    rw [radix_concat]
    linarith

/-! ## Sums -/

theorem radix_headD (p : Blk) : radix 100 p = p.headD 0 + 100 * radix 100 p.tail := by
  cases p with
  | nil => rfl
  | cons d p => rfl

theorem Signed.head_tail {p : Blk} (h : Signed p) : -1 ≤ p.headD 0 ∧ p.headD 0 ≤ 99 ∧ Signed p.tail := by
  cases p with
  | nil => exact ⟨by decide, by decide, h⟩
  | cons d p =>
    have hd := h d mem_cons_self
    exact ⟨hd.1, hd.2, fun x hx => h x (mem_cons_of_mem _ hx)⟩

theorem addLoop_spec {size : ℕ} {carry : ℤ} {a1 a2 : Blk} (h1 : Signed a1) (h2 : Signed a2)
    (hs1 : a1.length ≤ size) (hs2 : a2.length ≤ size) (hc : -1 ≤ carry ∧ carry ≤ 1) :
    Proper 100 (addLoop size carry a1 a2).1 ∧ (addLoop size carry a1 a2).1.length = size ∧
      (-1 ≤ (addLoop size carry a1 a2).2 ∧ (addLoop size carry a1 a2).2 ≤ 1) ∧
      radix 100 (addLoop size carry a1 a2).1 + 100 ^ size * (addLoop size carry a1 a2).2 =
        radix 100 a1 + radix 100 a2 + carry := by
  induction size generalizing carry a1 a2 with
  | zero =>
    rw [eq_nil_of_length_eq_zero (Nat.le_zero.mp hs1),
      eq_nil_of_length_eq_zero (Nat.le_zero.mp hs2)]
    refine ⟨nofun, rfl, hc, ?_⟩
    simp [addLoop]
  | succ size ih =>
    obtain ⟨hn1, hn1', ht1⟩ := Signed.head_tail h1
    obtain ⟨hn2, hn2', ht2⟩ := Signed.head_tail h2
    rw [addLoop]
    obtain ⟨next, hnext, hcarry, hdigit, hsum⟩ : ∃ next : ℤ × ℤ,
        next = (if a1.headD 0 + a2.headD 0 + carry ≥ 100 then (1, a1.headD 0 + a2.headD 0 + carry - 100)
          else if a1.headD 0 + a2.headD 0 + carry < 0 then (-1, a1.headD 0 + a2.headD 0 + carry + 100)
          else (0, a1.headD 0 + a2.headD 0 + carry)) ∧ (-1 ≤ next.1 ∧ next.1 ≤ 1) ∧
        (0 ≤ next.2 ∧ next.2 < 100) ∧
        next.2 + 100 * next.1 = a1.headD 0 + a2.headD 0 + carry := by
      refine ⟨_, rfl, ?_, ?_, ?_⟩
      all_goals
        split
        · omega
        · split <;> omega
    dsimp only
    rw [← hnext, char_eq (by omega)]
    have hlen1 : a1.tail.length ≤ size := by
      rw [length_tail]
      omega
    have hlen2 : a2.tail.length ≤ size := by
      rw [length_tail]
      omega
    obtain ⟨hprop, hlen, hc', hval⟩ := ih ht1 ht2 hlen1 hlen2 hcarry
    refine ⟨fun x hx => ?_, congrArg Nat.succ hlen, hc', ?_⟩
    · rcases mem_cons.mp hx with rfl | hx
      · exact hdigit
      · exact hprop x hx
    · rw [radix_cons, radix_headD a1, radix_headD a2, pow_succ]
      linarith

/-- Digits 99 in front of a -1 make no difference. -/
theorem radix_nines (q : Blk) : radix 100 (q.rdropWhile (· = 99) ++ [-1]) = radix 100 (q ++ [-1]) := by
  induction q using List.reverseRecOn with
  | nil => rfl
  | append_singleton q d ih =>
    by_cases hd : d = 99
    · rw [rdropWhile_concat_pos (fun x : ℤ => decide (x = 99)) q d (decide_eq_true hd), ih, hd,
        radix_concat, radix_concat, radix_concat, length_append, length_singleton, pow_succ]
      ring
    · rw [rdropWhile_concat_neg (fun x : ℤ => decide (x = 99)) q d (by simpa using hd)]

theorem nines_last (q : Blk) : (q.rdropWhile (· = 99)).getLast? ≠ some 99 := by
  intro h
  have hne : q.rdropWhile (· = 99) ≠ [] := by
    intro hnil
    rw [hnil] at h
    exact absurd h nofun
  have hlast := rdropWhile_last_not (fun d : ℤ => decide (d = 99)) q hne
  rw [List.getLast?_eq_some_getLast hne] at h
  exact hlast (decide_eq_true (Option.some.inj h))

theorem Proper.nines {q : Blk} (hq : Proper 100 q) : Proper 100 (q.rdropWhile (· = 99)) :=
  fun d hd => hq d (( rdropWhile_prefix _ q).subset hd)

/-- A negative number with a digit in front of the -1, which is not 99, is not -1. -/
theorem radix_lt_neg_one {q : Blk} (hq : Proper 100 q) (hne : q ≠ []) (h99 : q.getLast? ≠ some 99) :
    radix 100 (q ++ [-1]) < -1 := by
  obtain ⟨low, d, rfl⟩ : ∃ low d, q = low ++ [d] := ⟨_, _, (dropLast_append_getLast hne).symm⟩
  have hd := hq.right d mem_cons_self
  have hd98 : d ≤ 98 := by
    rw [List.getLast?_concat] at h99
    by_contra hlt
    exact h99 (congrArg some (by omega))
  have hlow := Proper.lt (by decide) hq.left
  have hpos : (0 : ℤ) < 100 ^ low.length := pow_pos (by decide) _
  have hmul := mul_le_mul_of_nonneg_left hd98 hpos.le
  rw [radix_concat, radix_concat, length_append, length_singleton, pow_succ]
  linarith

/-- What `add` leaves of a number that ends in -1 -/
theorem add_borrow {q p : Blk} (hq : Proper 100 q) (hne : q ≠ [])
    (hp : p = (if q.rdropWhile (· = 99) = [] then (q ++ [-1]).take 1 else q.rdropWhile (· = 99)) ++ [-1]) :
    radix 100 p = radix 100 (q ++ [-1]) ∧ (radix 100 p ≠ -1 → Normal p) ∧
      (radix 100 p = -1 → p = [99, -1]) := by
  have hval := radix_nines q
  by_cases hnil : q.rdropWhile (· = 99) = []
  · obtain ⟨d, q, rfl⟩ := exists_cons_of_ne_nil hne
    have hd : d = 99 := of_decide_eq_true (rdropWhile_eq_nil_iff.mp hnil d mem_cons_self)
    rw [if_pos hnil, hd] at hp
    rw [hnil, hd] at hval
    have hp' : p = [99, -1] := hp
    rw [hp', hd, ← hval]
    exact ⟨rfl, fun hone => absurd rfl hone, fun _ => rfl⟩
  · rw [if_neg hnil] at hp
    have hlt := radix_lt_neg_one (Proper.nines hq) hnil (nines_last q)
    rw [hp]
    exact ⟨hval, fun _ => .inr ⟨_, rfl, (Proper.nines hq), nines_last q⟩, fun hone => absurd hone hlt.ne⟩

/-- A sum is exact, and only the number -1 gets a superfluous digit. -/
theorem add_spec {a1 a2 : Blk} (h1 : Signed a1) (h2 : Signed a2) :
    radix 100 (add a1 a2) = radix 100 a1 + radix 100 a2 ∧
      (radix 100 (add a1 a2) ≠ -1 → Normal (add a1 a2)) ∧
      (radix 100 (add a1 a2) = -1 → add a1 a2 = [99, -1]) := by
  obtain ⟨hprop, hlen, hc, hval⟩ := addLoop_spec h1 h2 (Nat.le_max_left _ _) (Nat.le_max_right _ _)
    (show (-1 : ℤ) ≤ 0 ∧ (0 : ℤ) ≤ 1 by decide)
  obtain ⟨r, hr⟩ : ∃ r, r = addLoop (max a1.length a2.length) 0 a1 a2 := ⟨_, rfl⟩
  rw [← hr, Int.add_zero] at hval
  rw [← hr] at hprop hlen hc
  rw [add, ← hr]
  by_cases hneg : r.2 = -1
  · -- the last digit is the borrow
    have hne : r.1 ≠ [] := by
      intro hnil
      rw [hnil] at hlen
      rw [← hlen, length_nil, addLoop] at hr
      rw [hr] at hneg
      exact absurd hneg (by decide)
    have hstrip : strip (r.1 ++ [-1]) = r.1 ++ [-1] :=
      rdropWhile_concat_neg (fun x : ℤ => decide (x = 0)) r.1 (-1) (by decide)
    have hchar : char (-1) = -1 := char_eq (by decide)
    have hp : (if r.2 ≠ 0 then r.1 ++ [char r.2] else r.1) = r.1 ++ [-1] := by
      rw [hneg, if_pos (by decide), hchar]
    rw [hp, hstrip, if_pos List.getLast?_concat, dropLast_concat]
    obtain ⟨hval', hnormal⟩ := add_borrow hprop hne rfl
    refine ⟨?_, hnormal⟩
    rw [hval', radix_concat, hlen, ← hval, hneg]
  · have hp : Proper 100 (if r.2 ≠ 0 then r.1 ++ [char r.2] else r.1) ∧
        radix 100 (if r.2 ≠ 0 then r.1 ++ [char r.2] else r.1) = radix 100 a1 + radix 100 a2 := by
      split
      next hne =>
        have hr2 : r.2 = 1 := by omega
        have hone : char 1 = 1 := char_eq (by decide)
        rw [hr2, hone, radix_concat, hlen]
        rw [hr2] at hval
        exact ⟨hprop.append (by decide), hval⟩
      next heq =>
        rw [not_not.mp heq, mul_zero, Int.add_zero] at hval
        exact ⟨hprop, hval⟩
    have hlast : (strip (if r.2 ≠ 0 then r.1 ++ [char r.2] else r.1)).getLast? ≠ some (-1) := by
      intro hend
      have hmem := hp.1.strip (-1) (mem_of_getLast? hend)
      omega
    rw [if_neg hlast]
    have hnonneg := Proper.nonneg (by decide) hp.1.strip
    refine ⟨(radix_strip _).trans hp.2, fun _ => .inl ⟨hp.1.strip, strip_last⟩, fun hone => ?_⟩
    rw [strip] at hone
    omega

/-- A sum that is not negative -/
theorem add_nonneg {a1 a2 : Blk} (h1 : Signed a1) (h2 : Signed a2)
    (hsum : 0 ≤ radix 100 a1 + radix 100 a2) :
    Proper 100 (add a1 a2) ∧ radix 100 (add a1 a2) = radix 100 a1 + radix 100 a2 := by
  obtain ⟨hval, hnormal, -⟩ := add_spec h1 h2
  refine ⟨?_, hval⟩
  rcases hnormal (by omega) with h | ⟨q, hq, hprop, -⟩
  · exact h.1
  · have hlt := Proper.lt (by decide) hprop
    rw [hq, radix_concat] at hval
    linarith

/-! ## The loops of `div` -/

/-- The product of the divisor and a trial digit -/
theorem times_spec {dig carry : ℤ} {divr : Blk} (h : Proper 100 divr) (hdig : 0 ≤ dig) (hc : 0 ≤ carry) :
    ∃ low top, times dig carry divr = low ++ [char top] ∧ Proper 100 low ∧ low.length = divr.length ∧
      0 ≤ top ∧ radix 100 low + 100 ^ divr.length * top = radix 100 divr * dig + carry := by
  induction divr generalizing carry with
  | nil =>
    refine ⟨[], carry, rfl, nofun, rfl, hc, ?_⟩
    simp
  | cons d divr ih =>
    have hd := h.head
    have hnonneg : 0 ≤ d * dig + carry := Int.add_nonneg (mul_nonneg hd.1 hdig) hc
    have hmod : (d * dig + carry).tmod 100 = (d * dig + carry) % 100 := Int.tmod_eq_emod_of_nonneg hnonneg
    have hdiv : (d * dig + carry).tdiv 100 = (d * dig + carry) / 100 := Int.tdiv_eq_ediv_of_nonneg hnonneg
    obtain ⟨low, top, heq, hprop, hlen, htop, hval⟩ := ih h.tail (Int.ediv_nonneg hnonneg (show (0 : ℤ) ≤ 100 by decide))
    have hchar : char ((d * dig + carry) % 100) = (d * dig + carry) % 100 := char_eq (by omega)
    have heq' : times dig carry (d :: divr) = ((d * dig + carry) % 100 :: low) ++ [char top] := by
      simp only [times]
      rw [hmod, hdiv, heq, hchar]
      rfl
    refine ⟨(d * dig + carry) % 100 :: low, top, heq', fun x hx => ?_, congrArg Nat.succ hlen, htop, ?_⟩
    · rcases mem_cons.mp hx with rfl | hx
      · omega
      · exact hprop x hx
    · have hdm := Int.emod_add_mul_ediv (d * dig + carry) 100
      rw [radix_cons, radix_cons, length_cons, pow_succ]
      linarith

/-- The difference of two strings of as many digits -/
theorem minus_spec {carry : ℤ} {divd x : Blk} (hd : Proper 100 divd) (hx : Proper 100 x)
    (hlen : x.length = divd.length) (hc : carry = 0 ∨ carry = 1) :
    Proper 100 (minus carry divd x).1 ∧ (minus carry divd x).1.length = divd.length ∧
      ((minus carry divd x).2 = 0 ∨ (minus carry divd x).2 = 1) ∧
      radix 100 (minus carry divd x).1 =
        radix 100 divd - radix 100 x - carry + 100 ^ divd.length * (minus carry divd x).2 := by
  induction divd generalizing carry x with
  | nil =>
    rw [eq_nil_of_length_eq_zero hlen]
    refine ⟨nofun, rfl, hc, ?_⟩
    simp [minus]
  | cons d divd ih =>
    obtain ⟨e, x, rfl⟩ := exists_cons_of_length_eq_add_one hlen
    have hd' := hd.head
    have he := hx.head
    have hlen' : x.length = divd.length := Nat.succ.inj hlen
    have hcons : minus carry (d :: divd) (e :: x) =
        (char (if d - e - carry < 0 then d - e - carry + 100 else d - e - carry) ::
          (minus (if d - e - carry < 0 then 1 else 0) divd x).1,
          (minus (if d - e - carry < 0 then 1 else 0) divd x).2) := rfl
    rw [hcons]
    by_cases hneg : d - e - carry < 0
    · obtain ⟨hprop, hl, hcarry, hval⟩ := ih hd.tail hx.tail hlen' (.inr (Eq.refl (1 : ℤ)))
      rw [if_pos hneg, if_pos hneg, char_eq (by omega)]
      refine ⟨fun y hy => ?_, congrArg Nat.succ hl, hcarry, ?_⟩
      · rcases mem_cons.mp hy with rfl | hy
        · omega
        · exact hprop y hy
      · rw [radix_cons, radix_cons, radix_cons, hval, length_cons, pow_succ]
        ring
    · obtain ⟨hprop, hl, hcarry, hval⟩ := ih hd.tail hx.tail hlen' (.inl (Eq.refl (0 : ℤ)))
      rw [if_neg hneg, if_neg hneg, char_eq (by omega)]
      refine ⟨fun y hy => ?_, congrArg Nat.succ hl, hcarry, ?_⟩
      · rcases mem_cons.mp hy with rfl | hy
        · omega
        · exact hprop y hy
      · rw [radix_cons, radix_cons, radix_cons, hval, length_cons, pow_succ]
        ring

theorem minus_append {carry : ℤ} {divd e x y : Blk} (hlen : x.length = divd.length) :
    minus carry (divd ++ e) (x ++ y) =
      ((minus carry divd x).1 ++ (minus (minus carry divd x).2 e y).1,
        (minus (minus carry divd x).2 e y).2) := by
  induction divd generalizing carry x with
  | nil =>
    rw [eq_nil_of_length_eq_zero hlen]
    rfl
  | cons d divd ih =>
    obtain ⟨f, x, rfl⟩ := exists_cons_of_length_eq_add_one hlen
    rw [cons_append, cons_append]
    simp only [minus, headD_cons, tail_cons]
    rw [ih (Nat.succ.inj hlen)]
    rfl

/-- A pass that carries keeps the number. -/
theorem radix_carryPass {c : ℤ} {p : Blk} (hp : ∀ d ∈ p, -128 ≤ d ∧ d ≤ 127) (hc : c = 0 ∨ c = 1) :
    radix 100 (carryPass c p) = radix 100 p + c := by
  induction p generalizing c with
  | nil =>
    rw [carryPass]
    rcases hc with rfl | rfl
    · rfl
    · rw [if_pos one_ne_zero, char_eq (by decide)]
      rfl
  | cons d p ih =>
    have hd := hp d mem_cons_self
    have htail : ∀ d ∈ p, -128 ≤ d ∧ d ≤ 127 := fun x hx => hp x (mem_cons_of_mem _ hx)
    rw [carryPass]
    split
    next hge =>
      rw [radix_cons, radix_cons, ih htail (.inr rfl), char_eq (by omega)]
      ring
    next hlt =>
      rw [radix_cons, radix_cons, ih htail (.inl rfl), char_eq (by omega)]
      ring

/-- Small digits become proper ones. -/
theorem carryPass_proper {c : ℤ} {p : Blk} (hp : ∀ d ∈ p, 0 ≤ d ∧ d ≤ 127) (hc : c = 0 ∨ c = 1) :
    Proper 100 (carryPass c p) := by
  induction p generalizing c with
  | nil =>
    rw [carryPass]
    rcases hc with rfl | rfl
    · exact nofun
    · rw [if_pos one_ne_zero, char_eq (by decide)]
      intro x hx
      rw [mem_singleton.mp hx]
      decide
  | cons d p ih =>
    have hd := hp d mem_cons_self
    have htail : ∀ d ∈ p, 0 ≤ d ∧ d ≤ 127 := fun x hx => hp x (mem_cons_of_mem _ hx)
    rw [carryPass]
    split
    next hge =>
      intro x hx
      rcases mem_cons.mp hx with rfl | hx
      · rw [char_eq (by omega)]
        omega
      · exact ih htail (.inr rfl) x hx
    next hlt =>
      intro x hx
      rcases mem_cons.mp hx with rfl | hx
      · rw [char_eq (by omega)]
        omega
      · exact ih htail (.inl rfl) x hx

end Svr3.Dc
