import Svr3.Lib.Sorted
import Svr3.Libc.Qsort

/-!
# `qsort` sorts

The exchange functions move whole elements. The partition keeps five regions: less than the middle element, not
compared yet, equal, not compared yet, greater.
-/

namespace Svr3.Qsort

/-! ## Bytes and elements -/

section bytes

variable {m : Mem} {n ri rj rk x : ℕ}

/-- The exchanged bytes -/
def exchanged (m : Mem) (n ri rj x : ℕ) : UInt8 :=
  if ri ≤ x ∧ x < ri + n then m (rj + (x - ri))
  else if rj ≤ x ∧ x < rj + n then m (ri + (x - rj))
  else m x

theorem excLoop_apply (h : ri = rj ∨ ri + n ≤ rj ∨ rj + n ≤ ri) : excLoop n m ri rj x = exchanged m n ri rj x := by
  induction n generalizing m ri rj with
  | zero =>
    rw [excLoop, exchanged, if_neg (by omega), if_neg (by omega)]
  | succ n ih =>
    rw [excLoop, ih (by omega)]
    unfold exchanged
    simp only [Function.update_apply]
    by_cases hi : ri = x
    · subst hi
      have hj : ¬(rj + 1 ≤ ri ∧ ri < rj + 1 + n) := by omega
      rw [if_neg (by omega), if_neg hj, if_pos (⟨Nat.le_refl _, by omega⟩ : ri ≤ ri ∧ ri < ri + (n + 1)), Nat.sub_self,
        Nat.add_zero]
      by_cases heq : ri = rj
      · rw [if_pos heq, heq]
      · rw [if_neg heq, if_pos rfl]
    · by_cases hri : ri ≤ x ∧ x < ri + (n + 1)
      · rw [if_pos (by omega), if_neg (by omega), if_neg (by omega), if_pos hri]
        congr 1
        omega
      · rw [if_neg (by omega), if_neg hri]
        by_cases hj : rj = x
        · subst hj
          rw [if_neg (by omega), if_pos rfl, if_pos (by omega), Nat.sub_self, Nat.add_zero]
        · by_cases hrj : rj ≤ x ∧ x < rj + (n + 1)
          · rw [if_pos (by omega), if_neg (by omega), if_neg (by omega), if_pos hrj]
            congr 1
            omega
          · rw [if_neg (by omega), if_neg (by omega), if_neg (by omega), if_neg hrj]

/-- The bytes after an exchange of three -/
def rotated (m : Mem) (n ri rj rk x : ℕ) : UInt8 :=
  if ri ≤ x ∧ x < ri + n then m (rk + (x - ri))
  else if rj ≤ x ∧ x < rj + n then m (ri + (x - rj))
  else if rk ≤ x ∧ x < rk + n then m (rj + (x - rk))
  else m x

theorem texcLoop_apply (hij : ri + n ≤ rj ∨ rj + n ≤ ri) (hik : ri + n ≤ rk ∨ rk + n ≤ ri)
    (hjk : rj = rk ∨ rj + n ≤ rk ∨ rk + n ≤ rj) : texcLoop n m ri rj rk x = rotated m n ri rj rk x := by
  induction n generalizing m ri rj rk with
  | zero =>
    rw [texcLoop, rotated, if_neg (by omega), if_neg (by omega), if_neg (by omega)]
  | succ n ih =>
    rw [texcLoop, ih (by omega) (by omega) (by omega)]
    unfold rotated
    simp only [Function.update_apply]
    by_cases hri : ri ≤ x ∧ x < ri + (n + 1)
    · rw [if_pos hri]
      by_cases hi : ri = x
      · rw [if_neg (by omega), if_neg (by omega), if_neg (by omega), if_neg (by omega), if_neg (by omega),
          if_pos hi.symm, hi, Nat.sub_self, Nat.add_zero]
      · rw [if_pos (by omega), if_neg (by omega), if_neg (by omega), if_neg (by omega)]
        congr 1
        omega
    · rw [if_neg (by omega), if_neg hri]
      by_cases hrj : rj ≤ x ∧ x < rj + (n + 1)
      · rw [if_pos hrj]
        by_cases hj : rj = x
        · rw [if_neg (by omega), if_neg (by omega), if_pos hj.symm, hj, Nat.sub_self, Nat.add_zero]
        · rw [if_pos (by omega), if_neg (by omega), if_neg (by omega), if_neg (by omega)]
          congr 1
          omega
      · rw [if_neg (by omega), if_neg hrj]
        by_cases hrk : rk ≤ x ∧ x < rk + (n + 1)
        · rw [if_pos hrk]
          by_cases hk : rk = x
          · rw [if_neg (by omega), if_neg (by omega), if_pos hk.symm, if_neg (by omega), hk, Nat.sub_self,
              Nat.add_zero]
          · rw [if_pos (by omega), if_neg (by omega), if_neg (by omega), if_neg (by omega)]
            congr 1
            omega
        · rw [if_neg (by omega), if_neg hrk, if_neg (by omega), if_neg (by omega), if_neg (by omega)]

theorem buf_apply {es : ℕ} (h : rj ≤ x ∧ x < rj + es) :
    (if 0 ≤ 0 + (x - rj) ∧ 0 + (x - rj) < 0 + es then m (ri + (0 + (x - rj) - 0)) else m (0 + (x - rj))) =
      m (ri + (x - rj)) := by
  rw [if_pos (by omega), Nat.zero_add, Nat.sub_zero]

theorem qsexc_apply {v : Env} (h : ri = rj ∨ ri + v.es ≤ rj ∨ rj + v.es ≤ ri) :
    qsexc v m ri rj x = exchanged m v.es ri rj x := by
  rw [qsexc]
  split
  · unfold memcpy exchanged
    dsimp only
    by_cases hrj : rj ≤ x ∧ x < rj + v.es
    · rw [if_pos hrj, buf_apply hrj]
      by_cases hri : ri ≤ x ∧ x < ri + v.es
      · obtain rfl : ri = rj := by omega
        rw [if_pos hri]
      · rw [if_neg hri, if_pos hrj]
    · rw [if_neg hrj, if_neg hrj]
  · exact excLoop_apply h

theorem qstexc_apply {v : Env} (hij : ri + v.es ≤ rj ∨ rj + v.es ≤ ri) (hik : ri + v.es ≤ rk ∨ rk + v.es ≤ ri)
    (hjk : rj = rk ∨ rj + v.es ≤ rk ∨ rk + v.es ≤ rj) :
    qstexc v m ri rj rk x = rotated m v.es ri rj rk x := by
  rw [qstexc]
  split
  · unfold memcpy rotated
    dsimp only
    by_cases hrj : rj ≤ x ∧ x < rj + v.es
    · have hri : ¬(ri ≤ x ∧ x < ri + v.es) := by omega
      rw [if_pos hrj, buf_apply hrj, if_neg hri, if_pos hrj]
    · rw [if_neg hrj, if_neg hrj]
      by_cases hrk : rk ≤ x ∧ x < rk + v.es
      · have hri : ¬(ri ≤ x ∧ x < ri + v.es) := by omega
        have hrj' : ¬(ri ≤ rj + (x - rk) ∧ rj + (x - rk) < ri + v.es) := by omega
        rw [if_pos hrk, if_neg hrj', if_neg hri, if_pos hrk]
      · rw [if_neg hrk, if_neg hrk]
  · exact texcLoop_apply hij hik hjk

end bytes

section elements

variable {v : Env} {m : Mem} {i j k l n x : ℕ}

theorem addr_apart (h : i < j) : v.addr i + v.es ≤ v.addr j := by
  have hmul := Nat.mul_le_mul_left v.es (Nat.succ_le_of_lt h)
  rw [Nat.mul_succ] at hmul
  rw [Env.addr, Env.addr]
  omega

theorem addr_cases (v : Env) (i j : ℕ) :
    i = j ∧ v.addr i = v.addr j ∨ i ≠ j ∧ (v.addr i + v.es ≤ v.addr j ∨ v.addr j + v.es ≤ v.addr i) := by
  rcases Nat.lt_trichotomy i j with h | h | h
  · exact .inr ⟨Nat.ne_of_lt h, .inl (addr_apart h)⟩
  · exact .inl ⟨h, h ▸ rfl⟩
  · exact .inr ⟨Nat.ne_of_gt h, .inr (addr_apart h)⟩

/-- Elements change places. -/
theorem elem_exc : v.elem (qsexc v m (v.addr i) (v.addr j)) k =
    if k = i then v.elem m j else if k = j then v.elem m i else v.elem m k := by
  funext b
  have hb := b.isLt
  have hij := addr_cases v i j
  have hki := addr_cases v k i
  have hkj := addr_cases v k j
  change qsexc v m (v.addr i) (v.addr j) (v.addr k + b) = _
  rw [qsexc_apply (by omega)]
  unfold exchanged
  by_cases h1 : k = i
  · rw [if_pos h1, if_pos (by omega)]
    change m _ = m _
    congr 1
    omega
  · rw [if_neg h1, if_neg (by omega)]
    by_cases h2 : k = j
    · rw [if_pos h2, if_pos (by omega)]
      change m _ = m _
      congr 1
      omega
    · rw [if_neg h2, if_neg (by omega)]
      rfl

theorem elem_texc (hij : i ≠ j) (hil : i ≠ l) : v.elem (qstexc v m (v.addr i) (v.addr j) (v.addr l)) k =
    if k = i then v.elem m l else if k = j then v.elem m i else if k = l then v.elem m j else v.elem m k := by
  funext b
  have hb := b.isLt
  have h1 := addr_cases v i j
  have h2 := addr_cases v i l
  have h3 := addr_cases v j l
  have hki := addr_cases v k i
  have hkj := addr_cases v k j
  have hkl := addr_cases v k l
  change qstexc v m (v.addr i) (v.addr j) (v.addr l) (v.addr k + b) = _
  rw [qstexc_apply (by omega) (by omega) (by omega)]
  unfold rotated
  by_cases hk1 : k = i
  · rw [if_pos hk1, if_pos (by omega)]
    change m _ = m _
    congr 1
    omega
  · rw [if_neg hk1, if_neg (by omega)]
    by_cases hk2 : k = j
    · rw [if_pos hk2, if_pos (by omega)]
      change m _ = m _
      congr 1
      omega
    · rw [if_neg hk2, if_neg (by omega)]
      by_cases hk3 : k = l
      · rw [if_pos hk3, if_pos (by omega)]
        change m _ = m _
        congr 1
        omega
      · rw [if_neg hk3, if_neg (by omega)]
        rfl

/-- The byte is not one of the array. -/
def Outside (v : Env) (n x : ℕ) : Prop := x < v.base ∨ v.base + v.es * n ≤ x

theorem outside_apart (h : Outside v n x) (hi : i < n) : ¬(v.addr i ≤ x ∧ x < v.addr i + v.es) := by
  have hlast := addr_apart (v := v) hi
  rw [Env.addr, Env.addr] at *
  unfold Outside at h
  omega

theorem exc_outside (h : Outside v n x) (hi : i < n) (hj : j < n) :
    qsexc v m (v.addr i) (v.addr j) x = m x := by
  have hij := addr_cases v i j
  rw [qsexc_apply (by omega), exchanged, if_neg (outside_apart h hi), if_neg (outside_apart h hj)]

theorem texc_outside (h : Outside v n x) (hij : i ≠ j) (hil : i ≠ l) (hi : i < n) (hj : j < n) (hl : l < n) :
    qstexc v m (v.addr i) (v.addr j) (v.addr l) x = m x := by
  have h1 := addr_cases v i j
  have h2 := addr_cases v i l
  have h3 := addr_cases v j l
  rw [qstexc_apply (by omega) (by omega) (by omega), rotated, if_neg (outside_apart h hi),
    if_neg (outside_apart h hj), if_neg (outside_apart h hl)]

theorem exc_elems (v : Env) (s : Arr) (x y : ℕ) : v.elem (v.exc s x y).mem x = v.elem s.mem y ∧
    v.elem (v.exc s x y).mem y = v.elem s.mem x ∧
      ∀ k, k ≠ x → k ≠ y → v.elem (v.exc s x y).mem k = v.elem s.mem k := by
  have helem (k : ℕ) : v.elem (v.exc s x y).mem k = _ := elem_exc
  refine ⟨?_, ?_, fun k h1 h2 => ?_⟩
  · rw [helem, if_pos rfl]
  · rw [helem]
    by_cases h : y = x
    · rw [if_pos h, h]
    · rw [if_neg h, if_pos rfl]
  · rw [helem, if_neg h1, if_neg h2]

theorem texc_elems (v : Env) (s : Arr) {x y z : ℕ} (hxy : x ≠ y) (hxz : x ≠ z) :
    v.elem (v.texc s x y z).mem x = v.elem s.mem z ∧ v.elem (v.texc s x y z).mem y = v.elem s.mem x ∧
      ∀ k, k ≠ x → k ≠ y → k ≠ z → v.elem (v.texc s x y z).mem k = v.elem s.mem k := by
  have helem (k : ℕ) : v.elem (v.texc s x y z).mem k = _ := elem_texc hxy hxz
  refine ⟨?_, ?_, fun k h1 h2 h3 => ?_⟩
  · rw [helem, if_pos rfl]
  · rw [helem, if_neg (Ne.symm hxy), if_pos rfl]
  · rw [helem, if_neg h1, if_neg h2, if_neg h3]

end elements

/-! ## What is done to the array -/

section held

variable {v : Env} {n a l x y z : ℕ} {s0 s : Arr} {ks : List ℕ}

/-- Elements of the interval have changed places, and nothing else was touched. -/
structure Held (v : Env) (n a l : ℕ) (s0 s : Arr) : Prop where
  moved : Rearranged a l (v.elem s0.mem) (v.elem s.mem)
  frame : ∀ x, Outside v n x → s.mem x = s0.mem x
  touched : ∀ k ∈ s.touched, k ∈ s0.touched ∨ a ≤ k ∧ k < l

theorem Held.refl (v : Env) (n a l : ℕ) (s : Arr) : Held v n a l s s :=
  ⟨.refl _, fun _ _ => rfl, fun _ hk => .inl hk⟩

theorem Held.trans {s1 : Arr} (h : Held v n a l s0 s) (h' : Held v n a l s s1) : Held v n a l s0 s1 := by
  refine ⟨h.moved.trans h'.moved, fun x hx => (h'.frame x hx).trans (h.frame x hx), fun k hk => ?_⟩
  rcases h'.touched k hk with hk | hk
  · exact h.touched k hk
  · exact .inr hk

theorem Held.mono {b e : ℕ} (h : Held v n b e s0 s) (hb : a ≤ b) (he : e ≤ l) : Held v n a l s0 s := by
  refine ⟨h.moved.mono hb he, h.frame, fun k hk => ?_⟩
  rcases h.touched k hk with hk | hk
  · exact .inl hk
  · exact .inr (by omega)

theorem Held.see (h : Held v n a l s0 s) (hks : ∀ k ∈ ks, a ≤ k ∧ k < l) : Held v n a l s0 (s.see ks) := by
  refine ⟨h.moved, h.frame, fun k hk => ?_⟩
  rcases List.mem_append.mp hk with hk | hk
  · exact .inr (hks k hk)
  · exact h.touched k hk

theorem Held.exc (h : Held v n a l s0 s) (hl : l ≤ n) (hx : a ≤ x ∧ x < l) (hy : a ≤ y ∧ y < l) :
    Held v n a l s0 (v.exc s x y) := by
  have hmoved : Held v n a l s0 { s with mem := qsexc v s.mem (v.addr x) (v.addr y) } := by
    refine ⟨h.moved.trans ⟨Equiv.swap x y, .swap hx hy, fun k => ?_⟩, fun b hb => ?_, h.touched⟩
    · rw [elem_exc, Equiv.swap_apply_def]
      split_ifs <;> rfl
    · exact (exc_outside hb (by omega) (by omega)).trans (h.frame b hb)
  refine hmoved.see fun k hk => ?_
  rcases List.mem_pair.mp hk with rfl | rfl
  · exact hx
  · exact hy

theorem Held.texc (h : Held v n a l s0 s) (hl : l ≤ n) (hx : a ≤ x ∧ x < l) (hy : a ≤ y ∧ y < l) (hz : a ≤ z ∧ z < l)
    (hxy : x ≠ y) (hxz : x ≠ z) : Held v n a l s0 (v.texc s x y z) := by
  have hmoved : Held v n a l s0 { s with mem := qstexc v s.mem (v.addr x) (v.addr y) (v.addr z) } := by
    refine ⟨h.moved.trans ⟨Equiv.swap x z * Equiv.swap z y, (Within.swap hx hz).mul (.swap hz hy), fun k => ?_⟩,
      fun b hb => ?_, h.touched⟩
    · rw [elem_texc hxy hxz, Equiv.Perm.mul_apply]
      by_cases h1 : k = x
      · rw [if_pos h1, h1, Equiv.swap_apply_of_ne_of_ne hxz hxy, Equiv.swap_apply_left]
      · rw [if_neg h1]
        by_cases h2 : k = y
        · rw [if_pos h2, h2, Equiv.swap_apply_right, Equiv.swap_apply_right]
        · rw [if_neg h2]
          by_cases h3 : k = z
          · rw [if_pos h3, h3, Equiv.swap_apply_left, Equiv.swap_apply_of_ne_of_ne (Ne.symm hxy) (h3 ▸ Ne.symm h2)]
          · rw [if_neg h3, Equiv.swap_apply_of_ne_of_ne h3 h2, Equiv.swap_apply_of_ne_of_ne h1 h3]
    · exact (texc_outside hb hxy hxz (by omega) (by omega) (by omega)).trans (h.frame b hb)
  refine hmoved.see fun k hk => ?_
  simp only [List.mem_cons, List.not_mem_nil, or_false] at hk
  rcases hk with rfl | rfl | rfl
  · exact hx
  · exact hy
  · exact hz

end held

/-! ## The partition -/

section part

variable {v : Env} {n a l : ℕ} {p : Fin v.es → UInt8} {s0 : Arr} {s : Part} {pc : Pc}

/-- The five regions -/
structure Inv (v : Env) (n a l : ℕ) (p : Fin v.es → UInt8) (s0 : Arr) (s : Part) : Prop where
  ai : a ≤ s.i
  ilp : s.i ≤ s.lp
  lphp : s.lp ≤ s.hp
  hpj : s.hp ≤ s.j
  jl : s.j < l
  held : Held v n a l s0 s.arr
  less : ∀ k, a ≤ k → k < s.i → v.fc (v.elem s.arr.mem k) p < 0
  band : ∀ k, s.lp ≤ k → k ≤ s.hp → v.fc (v.elem s.arr.mem k) p = 0
  more : ∀ k, s.j < k → k < l → v.fc p (v.elem s.arr.mem k) < 0

/-- What is known at the places of the code -/
def Known (v : Env) (p : Fin v.es → UInt8) (pc : Pc) (s : Part) : Prop :=
  match pc with
  | .top => True
  | .loop => s.i < s.lp → v.fc p (v.elem s.arr.mem s.i) < 0
  | .out => s.i = s.lp ∧ s.j = s.hp

/-- The elements that are not compared yet, and a turn to the label `loop` -/
def Part.left (s : Part) (pc : Pc) : ℕ :=
  2 * ((s.lp - s.i) + (s.j - s.hp)) + match pc with
    | .top => 1
    | _ => 0

/-- What a turn leads to -/
structure TurnOk (v : Env) (n a l : ℕ) (p : Fin v.es → UInt8) (s0 : Arr) (left : ℕ) (r : Pc × Part) : Prop where
  inv : Inv v n a l p s0 r.2
  known : Known v p r.1 r.2
  left : r.1 = .out ∨ r.2.left r.1 < left

theorem top_ok (hfc : Comparison v.fc) (hl : l ≤ n) (h : Inv v n a l p s0 s) :
    TurnOk v n a l p s0 (s.left .top) (turn v .top s) := by
  obtain ⟨hai, hilp, hlphp, hhpj, hjl, hheld, hless, hband, hmore⟩ := h
  obtain ⟨i, j, lp, hp, arr⟩ := s
  rw [turn]
  dsimp only [Env.qscmp, Part.left] at *
  by_cases hlt : i < lp
  · rw [if_pos hlt]
    have hsee : Held v n a l s0 (arr.see [i, lp]) := by
      refine hheld.see fun k hk => ?_
      rcases List.mem_pair.mp hk with rfl | rfl <;> omega
    have heq := hband lp (Nat.le_refl _) hlphp
    by_cases hzero : v.fc (v.elem arr.mem i) (v.elem arr.mem lp) = 0
    · rw [if_pos hzero]
      have hi := hfc.zero_trans hzero heq
      have hnew := hsee.exc hl (x := i) (y := lp - 1) (by omega) (by omega)
      obtain ⟨-, hlast, hother⟩ := exc_elems v (arr.see [i, lp]) i (lp - 1)
      change v.elem _ _ = v.elem arr.mem _ at hlast
      change ∀ k, _ → _ → v.elem _ _ = v.elem arr.mem _ at hother
      generalize v.exc (arr.see [i, lp]) i (lp - 1) = arr' at *
      refine ⟨⟨hai, ?_, ?_, hhpj, hjl, hnew, fun k h1 h2 => ?_, fun k h1 h2 => ?_, fun k h1 h2 => ?_⟩, trivial,
        .inr ?_⟩ <;> dsimp only [Part.left] at *
      · omega
      · omega
      · rw [hother k (by omega) (by omega)]
        exact hless k h1 h2
      · rcases Nat.eq_or_lt_of_le h1 with rfl | h1
        · rw [hlast]
          exact hi
        · rw [hother k (by omega) (by omega)]
          exact hband k (by omega) h2
      · rw [hother k (by omega) (by omega)]
        exact hmore k h1 h2
      · omega
    · rw [if_neg hzero]
      by_cases hneg : v.fc (v.elem arr.mem i) (v.elem arr.mem lp) < 0
      · rw [if_pos hneg]
        refine ⟨⟨?_, ?_, hlphp, hhpj, hjl, hsee, fun k h1 h2 => ?_, hband, hmore⟩, trivial, .inr ?_⟩ <;>
          dsimp only [Part.left] at *
        · omega
        · omega
        · rcases Nat.lt_succ_iff_lt_or_eq.mp h2 with h2 | rfl
          · exact hless k h1 h2
          · exact hfc.lt_of_lt_of_le hneg (Int.le_of_eq heq)
        · omega
      · rw [if_neg hneg]
        refine ⟨⟨hai, hilp, hlphp, hhpj, hjl, hsee, hless, hband, hmore⟩, fun _ => ?_, .inr ?_⟩
        · -- the element is greater
          have hflip : v.fc (v.elem arr.mem lp) (v.elem arr.mem i) < 0 := by
            rw [hfc.flip]
            omega
          exact hfc.lt_of_le_of_lt (Int.le_of_eq (hfc.zero_flip.mp heq)) hflip
        · dsimp only [Part.left]
          omega
  · rw [if_neg hlt]
    refine ⟨⟨hai, hilp, hlphp, hhpj, hjl, hheld, hless, hband, hmore⟩, fun h => absurd h hlt, .inr ?_⟩
    dsimp only [Part.left]
    omega

theorem loop_ok (hfc : Comparison v.fc) (hl : l ≤ n) (h : Inv v n a l p s0 s) (hk : Known v p .loop s) :
    TurnOk v n a l p s0 (s.left .loop) (turn v .loop s) := by
  obtain ⟨hai, hilp, hlphp, hhpj, hjl, hheld, hless, hband, hmore⟩ := h
  obtain ⟨i, j, lp, hp, arr⟩ := s
  rw [turn]
  dsimp only [Env.qscmp, Part.left, Known] at *
  have heq := hband hp hlphp (Nat.le_refl _)
  by_cases hlt : hp < j
  · rw [if_pos hlt]
    have hsee : Held v n a l s0 (arr.see [hp, j]) := by
      refine hheld.see fun k hk => ?_
      rcases List.mem_pair.mp hk with rfl | rfl <;> omega
    by_cases hzero : v.fc (v.elem arr.mem hp) (v.elem arr.mem j) = 0
    · rw [if_pos hzero]
      have hj := hfc.zero_trans (hfc.zero_flip.mp hzero) heq
      have hnew := hsee.exc hl (x := hp + 1) (y := j) (by omega) (by omega)
      obtain ⟨hfirst, -, hother⟩ := exc_elems v (arr.see [hp, j]) (hp + 1) j
      change v.elem _ _ = v.elem arr.mem _ at hfirst
      change ∀ k, _ → _ → v.elem _ _ = v.elem arr.mem _ at hother
      generalize v.exc (arr.see [hp, j]) (hp + 1) j = arr' at *
      refine ⟨⟨hai, hilp, ?_, ?_, hjl, hnew, fun k h1 h2 => ?_, fun k h1 h2 => ?_, fun k h1 h2 => ?_⟩, fun h => ?_,
        .inr ?_⟩ <;> dsimp only [Part.left] at *
      · omega
      · omega
      · rw [hother k (by omega) (by omega)]
        exact hless k h1 h2
      · rcases Nat.eq_or_lt_of_le h2 with rfl | h2
        · rw [hfirst]
          exact hj
        · rw [hother k (by omega) (by omega)]
          exact hband k h1 (by omega)
      · rw [hother k (by omega) (by omega)]
        exact hmore k h1 h2
      · rw [hother i (by omega) (by omega)]
        exact hk h
      · omega
    · rw [if_neg hzero]
      by_cases hpos : 0 < v.fc (v.elem arr.mem hp) (v.elem arr.mem j)
      · rw [if_pos hpos]
        have hj := hfc.lt_of_lt_of_le ((hfc.flip _ _).mpr hpos) (Int.le_of_eq heq)
        by_cases hi : i = lp
        · rw [if_pos hi]
          subst hi
          have hnew := hsee.texc hl (x := i) (y := hp + 1) (z := j) (by omega) (by omega) (by omega) (by omega)
            (by omega)
          obtain ⟨hfirst, hmid, hother⟩ := texc_elems v (arr.see [hp, j]) (x := i) (y := hp + 1) (z := j) (by omega)
            (by omega)
          change v.elem _ _ = v.elem arr.mem _ at hfirst
          change v.elem _ _ = v.elem arr.mem _ at hmid
          change ∀ k, _ → _ → _ → v.elem _ _ = v.elem arr.mem _ at hother
          generalize v.texc (arr.see [hp, j]) i (hp + 1) j = arr' at *
          refine ⟨⟨?_, Nat.le_refl _, ?_, ?_, hjl, hnew, fun k h1 h2 => ?_, fun k h1 h2 => ?_, fun k h1 h2 => ?_⟩,
            fun h => absurd h (Nat.lt_irrefl _), .inr ?_⟩ <;> dsimp only [Part.left] at *
          · omega
          · omega
          · omega
          · rcases Nat.lt_succ_iff_lt_or_eq.mp h2 with h2 | rfl
            · rw [hother k (by omega) (by omega) (by omega)]
              exact hless k h1 h2
            · rw [hfirst]
              exact hj
          · rcases Nat.eq_or_lt_of_le h2 with rfl | h2
            · rw [hmid]
              exact hband i (Nat.le_refl _) hlphp
            · rw [hother k (by omega) (by omega) (by omega)]
              exact hband k (by omega) (by omega)
          · rw [hother k (by omega) (by omega) (by omega)]
            exact hmore k h1 h2
          · omega
        · rw [if_neg hi]
          have hbig := hk (by omega)
          have hnew := hsee.exc hl (x := i) (y := j) (by omega) (by omega)
          obtain ⟨hfirst, hlast, hother⟩ := exc_elems v (arr.see [hp, j]) i j
          change v.elem _ _ = v.elem arr.mem _ at hfirst
          change v.elem _ _ = v.elem arr.mem _ at hlast
          change ∀ k, _ → _ → v.elem _ _ = v.elem arr.mem _ at hother
          generalize v.exc (arr.see [hp, j]) i j = arr' at *
          refine ⟨⟨?_, ?_, hlphp, ?_, ?_, hnew, fun k h1 h2 => ?_, fun k h1 h2 => ?_, fun k h1 h2 => ?_⟩, trivial,
            .inr ?_⟩ <;> dsimp only [Part.left] at *
          · omega
          · omega
          · omega
          · omega
          · rcases Nat.lt_succ_iff_lt_or_eq.mp h2 with h2 | rfl
            · rw [hother k (by omega) (by omega)]
              exact hless k h1 h2
            · rw [hfirst]
              exact hj
          · rw [hother k (by omega) (by omega)]
            exact hband k h1 h2
          · by_cases hkj : k = j
            · rw [hkj, hlast]
              exact hbig
            · rw [hother k (by omega) hkj]
              exact hmore k (by omega) h2
          · omega
      · rw [if_neg hpos]
        have hneg : v.fc (v.elem arr.mem hp) (v.elem arr.mem j) < 0 := by omega
        have hbig := hfc.lt_of_le_of_lt (Int.le_of_eq (hfc.zero_flip.mp heq)) hneg
        refine ⟨⟨hai, hilp, hlphp, ?_, ?_, hsee, hless, hband, fun k h1 h2 => ?_⟩, hk, .inr ?_⟩ <;>
          dsimp only [Part.left] at *
        · omega
        · omega
        · by_cases hkj : k = j
          · rw [hkj]
            exact hbig
          · exact hmore k (by omega) h2
        · omega
  · rw [if_neg hlt]
    by_cases hi : i = lp
    · rw [if_pos hi]
      exact ⟨⟨hai, hilp, hlphp, hhpj, hjl, hheld, hless, hband, hmore⟩, ⟨hi, by dsimp only; omega⟩, .inl rfl⟩
    · rw [if_neg hi]
      have hbig := hk (by omega)
      have hnew := hheld.texc hl (x := j) (y := lp - 1) (z := i) (by omega) (by omega) (by omega) (by omega) (by omega)
      obtain ⟨hfirst, hmid, hother⟩ := texc_elems v arr (x := j) (y := lp - 1) (z := i) (by omega) (by omega)
      obtain rfl : j = hp := by omega
      generalize v.texc arr j (lp - 1) i = arr' at *
      refine ⟨⟨hai, ?_, ?_, Nat.le_refl _, ?_, hnew, fun k h1 h2 => ?_, fun k h1 h2 => ?_, fun k h1 h2 => ?_⟩, trivial,
        .inr ?_⟩ <;> dsimp only [Part.left] at *
      · omega
      · omega
      · omega
      · rw [hother k (by omega) (by omega) (by omega)]
        exact hless k h1 h2
      · rcases Nat.eq_or_lt_of_le h1 with rfl | h1
        · rw [hmid]
          exact heq
        · rw [hother k (by omega) (by omega) (by omega)]
          exact hband k (by omega) (by omega)
      · by_cases hkj : k = j
        · rw [hkj, hfirst]
          exact hbig
        · rw [hother k hkj (by omega) (by omega)]
          exact hmore k (by omega) h2
      · omega

theorem partition_ok (hfc : Comparison v.fc) (hl : l ≤ n) {k : ℕ} (hk : s.left pc < k) (hpc : pc ≠ .out)
    (h : Inv v n a l p s0 s) (hknown : Known v p pc s) :
    ∃ r, partition v k pc s = some r ∧ Inv v n a l p s0 r ∧ r.i = r.lp ∧ r.j = r.hp := by
  induction k generalizing pc s with
  | zero => exact absurd hk (Nat.not_lt_zero _)
  | succ k ih =>
    have hturn : TurnOk v n a l p s0 (s.left pc) (turn v pc s) := by
      cases pc with
      | top => exact top_ok hfc hl h
      | loop => exact loop_ok hfc hl h hknown
      | out => exact absurd rfl hpc
    rw [partition]
    obtain ⟨hinv, hknown', hleft⟩ := hturn
    generalize turn v pc s = r at *
    obtain ⟨pc', s'⟩ := r
    cases pc' with
    | out => exact ⟨s', rfl, hinv, hknown'⟩
    | top =>
      have hlt : s'.left .top < s.left pc := hleft.resolve_left nofun
      exact ih (by omega) nofun hinv hknown'
    | loop =>
      have hlt : s'.left .loop < s.left pc := hleft.resolve_left nofun
      exact ih (by omega) nofun hinv hknown'

/-- What the partition leaves -/
theorem partition_start (hfc : Comparison v.fc) (hl : l ≤ n) (hes : v.es < v.es * (l - a)) (arr : Arr) :
    ∃ p r, partition v (2 * (l - a) + 2) .top (start v a l arr) = some r ∧ Inv v n a l p arr r ∧ r.i = r.lp ∧
      r.j = r.hp := by
  have hpos : 0 < v.es := by
    rcases Nat.eq_zero_or_pos v.es with h | h
    · rw [h, Nat.zero_mul] at hes
      exact absurd hes (Nat.lt_irrefl _)
    · exact h
  have hlen : 1 < l - a := by
    by_contra hle
    have hmul := Nat.mul_le_mul_left v.es (Nat.not_lt.mp hle)
    omega
  have hmid : v.es * (l - a) / (2 * v.es) = (l - a) / 2 := by
    rw [Nat.mul_comm 2, Nat.mul_div_mul_left _ _ hpos]
  have hstart : start v a l arr = ⟨a, l - 1, a + (l - a) / 2, a + (l - a) / 2, arr⟩ := by
    rw [start, hmid]
  rw [hstart]
  refine ⟨v.elem arr.mem (a + (l - a) / 2), partition_ok hfc hl ?_ nofun
    ⟨Nat.le_refl _, ?_, Nat.le_refl _, ?_, ?_, .refl v n a l arr, fun k h1 h2 => ?_, fun k h1 h2 => ?_,
      fun k h1 h2 => ?_⟩ trivial⟩ <;> dsimp only [Part.left] at *
  · omega
  · omega
  · omega
  · omega
  · omega
  · obtain rfl : k = a + (l - a) / 2 := by omega
    exact hfc.self _
  · omega

end part

/-! ## The sort -/

section sort

variable {v : Env} {n a b c d l : ℕ} {s s1 s2 : Arr}

/-- The interval is sorted, and the rest is left alone. -/
structure Sorted (v : Env) (n a l : ℕ) (s s' : Arr) : Prop where
  held : Held v n a l s s'
  sorted : SortedOn (fun x y => v.fc x y ≤ 0) (v.elem s'.mem) a l

/-- Two intervals that do not overlap are sorted one behind the other. -/
structure Both (v : Env) (a b c d : ℕ) (s s' : Arr) : Prop where
  first : SortedOn (fun x y => v.fc x y ≤ 0) (v.elem s'.mem) a b
  second : SortedOn (fun x y => v.fc x y ≤ 0) (v.elem s'.mem) c d
  all_first : ∀ P : (Fin v.es → UInt8) → Prop, (∀ k, a ≤ k → k < b → P (v.elem s.mem k)) →
    ∀ k, a ≤ k → k < b → P (v.elem s'.mem k)
  all_second : ∀ P : (Fin v.es → UInt8) → Prop, (∀ k, c ≤ k → k < d → P (v.elem s.mem k)) →
    ∀ k, c ≤ k → k < d → P (v.elem s'.mem k)
  rest : ∀ k, (k < a ∨ b ≤ k) → (k < c ∨ d ≤ k) → v.elem s'.mem k = v.elem s.mem k

theorem Sorted.both (h1 : Sorted v n a b s s1) (h2 : Sorted v n c d s1 s2) (hapart : b ≤ c ∨ d ≤ a) :
    Both v a b c d s s2 := by
  have hfirst (k : ℕ) (hk1 : a ≤ k) (hk2 : k < b) : v.elem s2.mem k = v.elem s1.mem k :=
    h2.held.moved.outside (by omega)
  refine ⟨h1.sorted.congr hfirst, h2.sorted, fun P hP k hk1 hk2 => ?_, fun P hP k hk1 hk2 => ?_,
    fun k hk1 hk2 => ?_⟩
  · rw [hfirst k hk1 hk2]
    exact h1.held.moved.all hP k hk1 hk2
  · refine h2.held.moved.all (fun k hk1 hk2 => ?_) k hk1 hk2
    rw [h1.held.moved.outside (by omega)]
    exact hP k hk1 hk2
  · rw [h2.held.moved.outside hk2, h1.held.moved.outside hk1]

theorem Both.symm (h : Both v a b c d s s1) : Both v c d a b s s1 :=
  ⟨h.second, h.first, h.all_second, h.all_first, fun k h1 h2 => h.rest k h2 h1⟩

/-- The two sides of the partition are sorted. -/
theorem Both.sorted (hfc : Comparison v.fc) {p : Fin v.es → UInt8} {r : Part} (h : Inv v n a l p s r)
    (hi : r.i = r.lp) (hj : r.j = r.hp) (hboth : Both v a r.lp (r.hp + 1) l r.arr s1) :
    SortedOn (fun x y => v.fc x y ≤ 0) (v.elem s1.mem) a l := by
  have hlphp := h.lphp
  have hless := hboth.all_first (fun x => v.fc x p < 0) fun k h1 h2 => h.less k h1 (hi ▸ h2)
  have hmore := hboth.all_second (fun x => v.fc p x < 0) fun k h1 h2 => h.more k (by omega) h2
  have hband (k : ℕ) (h1 : r.lp ≤ k) (h2 : k ≤ r.hp) : v.fc (v.elem s1.mem k) p = 0 := by
    rw [hboth.rest k (.inr h1) (.inl (by omega))]
    exact h.band k h1 h2
  -- what is not before the band is not less than the middle element
  have hge (k : ℕ) (h1 : r.lp ≤ k) (h2 : k < l) : v.fc p (v.elem s1.mem k) ≤ 0 := by
    rcases Nat.lt_or_ge r.hp k with hk | hk
    · exact Int.le_of_lt (hmore k hk h2)
    · exact Int.le_of_eq (hfc.zero_flip.mp (hband k h1 hk))
  refine SortedOn.join hboth.first hboth.second (fun x y h1 h2 h3 h4 => ?_) fun x y h1 h2 h3 h4 => ?_
  · exact hfc.trans _ p _ (Int.le_of_lt (hless x h1 h2)) (hge y h3 h4)
  · exact hfc.trans _ p _ (Int.le_of_eq (hband x h1 (by omega))) (hge y (by omega) h4)

theorem qs1_sorted (hfc : Comparison v.fc) (k : ℕ) (hk : l - a < k) (hal : a ≤ l) (hl : l ≤ n) (s : Arr) :
    ∃ s', qs1 v k a l s = some s' ∧ Sorted v n a l s s' := by
  induction k generalizing a l s with
  | zero => exact absurd hk (Nat.not_lt_zero _)
  | succ k ih =>
    rw [qs1]
    by_cases hshort : v.es * (l - a) ≤ v.es
    · rw [if_pos hshort]
      refine ⟨s, rfl, .refl v n a l s, fun x y h1 h2 h3 => ?_⟩
      -- two elements and no more than the bytes of one: the elements have no bytes
      have hzero : v.es = 0 := by
        by_contra hne
        have hmul := Nat.mul_le_mul_left v.es (show 2 ≤ l - a by omega)
        omega
      have heq : v.elem s.mem x = v.elem s.mem y := funext fun b => absurd b.isLt (by omega)
      rw [heq]
      exact Int.le_of_eq (hfc.self _)
    · rw [if_neg hshort]
      obtain ⟨p, r, hpart, hinv, hi, hj⟩ := partition_start hfc hl (Nat.not_le.mp hshort) s
      have hai := hinv.ai
      have hlphp := hinv.lphp
      have hjl := hinv.jl
      rw [hpart, Option.bind_some]
      split
      · obtain ⟨s1, hs1, hsort1⟩ := ih (a := r.hp + 1) (l := l) (by omega) (by omega) hl r.arr
        obtain ⟨s2, hs2, hsort2⟩ := ih (a := a) (l := r.lp) (by omega) (by omega) (by omega) s1
        rw [hs1, Option.bind_some]
        refine ⟨s2, hs2, ?_, (hsort1.both hsort2 (by omega)).symm.sorted hfc hinv hi hj⟩
        exact hinv.held.trans ((hsort1.held.mono (by omega) (Nat.le_refl _)).trans
          (hsort2.held.mono (Nat.le_refl _) (by omega)))
      · obtain ⟨s1, hs1, hsort1⟩ := ih (a := a) (l := r.lp) (by omega) (by omega) (by omega) r.arr
        obtain ⟨s2, hs2, hsort2⟩ := ih (a := r.hp + 1) (l := l) (by omega) (by omega) hl s1
        rw [hs1, Option.bind_some]
        refine ⟨s2, hs2, ?_, (hsort1.both hsort2 (by omega)).sorted hfc hinv hi hj⟩
        exact hinv.held.trans ((hsort1.held.mono (Nat.le_refl _) (by omega)).trans
          (hsort2.held.mono (by omega) (Nat.le_refl _)))

/-- The array is a sorted rearrangement of what it was, and nothing else has been touched. -/
structure Result (v : Env) (n : ℕ) (m : Mem) (s : Arr) : Prop where
  perm : ((List.range n).map (v.elem s.mem)).Perm ((List.range n).map (v.elem m))
  sorted : ∀ i, i + 1 < n → v.fc (v.elem s.mem i) (v.elem s.mem (i + 1)) ≤ 0
  inside : ∀ k ∈ s.touched, k < n
  frame : ∀ x, x < v.base ∨ v.base + v.es * n ≤ x → s.mem x = m x

/-- `qsort` ends, and sorts. -/
theorem qsort_sorts (hfc : Comparison v.fc) (n : ℕ) (m : Mem) : ∃ s, qsort v n m = some s ∧ Result v n m s := by
  obtain ⟨s, hs, hheld, hsorted⟩ := qs1_sorted (n := n) hfc (n + 1) (by omega) (Nat.zero_le n) (Nat.le_refl n) ⟨m, []⟩
  refine ⟨s, hs, hheld.moved.perm, fun i hi => ?_, fun k hk => ?_, hheld.frame⟩
  · exact hsorted i (i + 1) (Nat.zero_le _) (Nat.lt_succ_self _) hi
  · rcases hheld.touched k hk with hk | hk
    · exact absurd hk List.not_mem_nil
    · exact hk.2

/-- The order of the first bytes -/
def firstByte (x y : Fin 1 → UInt8) : ℤ := (x 0).toNat - (y 0).toNat

theorem firstByte_comparison : Comparison firstByte where
  flip x y := by
    unfold firstByte
    omega
  trans x y z hxy hyz := by
    unfold firstByte at *
    omega

/-- Three bytes are sorted. -/
theorem qsort_sorts_bytes :
    ∃ s, qsort ⟨16, 1, firstByte, false⟩ 3 (fun x => if x = 16 then 2 else if x = 17 then 3 else 1) = some s ∧
      Result ⟨16, 1, firstByte, false⟩ 3 (fun x => if x = 16 then 2 else if x = 17 then 3 else 1) s :=
  qsort_sorts firstByte_comparison 3 _

end sort

end Svr3.Qsort
