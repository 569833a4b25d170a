import Mathlib.Data.Nat.Digits.Lemmas

/-!
# `l64a` and `a64l` of `libc/port/gen`

Six bits of a long integer are a character of the set `./0-9A-Za-z`, the lowest ones first.
-/

namespace Svr3.L64a

open List

/-- `SIGN`, `CHARMASK` and `WORDMASK`, for a long of 32 bits; `NMAX` is the room of `buf`. -/
def SIGN : BitVec 32 := -(1#32 <<< (32 - 6 - 1))
def CHARMASK : BitVec 32 := (1#32 <<< 6) - 1
def NMAX : ℕ := (32 + 6 - 1) / 6
def WORDMASK : BitVec 32 := (1#32 <<< ((NMAX - 1) * 6)) - 1

/-- The character of the lowest bits: `c` -/
def encode (lg : BitVec 32) : Char :=
  let c := (lg &&& CHARMASK).toNat + ('0'.toNat - 2)
  let c := if c > '9'.toNat then c + ('A'.toNat - '9'.toNat - 1) else c
  let c := if c > 'Z'.toNat then c + ('a'.toNat - 'Z'.toNat - 1) else c
  Char.ofNat c

/-- What is left of `lg` -/
def shift (lg : BitVec 32) : BitVec 32 :=
  (if lg.msb then lg.sshiftRight 6 ||| SIGN else lg.sshiftRight 6) &&& WORDMASK

/-- `while (lg != 0)`, with the room that is left in `buf`, or `none` where there is none -/
def encodeLoop : ℕ → BitVec 32 → Option (List Char)
  | 0, lg => if lg = 0 then some [] else none
  | room + 1, lg => if lg = 0 then some [] else (encodeLoop room (shift lg)).map (encode lg :: ·)

def l64a (lg : BitVec 32) : Option (List Char) := encodeLoop NMAX lg

/-- `c - ('0' - 2)` after the tests of `c` -/
def decode (c : Char) : ℤ :=
  let c : ℤ := c.toNat
  let c := if c > 'Z'.toNat then c - ('a'.toNat - 'Z'.toNat - 1 : ℕ) else c
  let c := if c > '9'.toNat then c - ('A'.toNat - '9'.toNat - 1 : ℕ) else c
  c - ('0'.toNat - 2 : ℕ)

/-- `for (i = 0; (c = *s++) != '\0'; i += BITSPERCHAR)` -/
def decodeLoop : ℕ → BitVec 32 → List Char → BitVec 32
  | _, lg, [] => lg
  | i, lg, c :: s => decodeLoop (i + 6) (lg ||| BitVec.ofInt 32 (decode c) <<< i) s

def a64l (s : List Char) : BitVec 32 := decodeLoop 0 0 s

/-- A character of the set `./0-9A-Za-z` -/
def Digit (c : Char) : Prop := '.' ≤ c ∧ c ≤ '9' ∨ 'A' ≤ c ∧ c ≤ 'Z' ∨ 'a' ≤ c ∧ c ≤ 'z'

/-! ## Characters -/

/-- The character of the digit `d` -/
def char (d : ℕ) : Char := encode (BitVec.ofNat 32 d)

theorem decode_char {d : ℕ} (h : d < 64) : decode (char d) = d := by
  revert d
  decide

theorem digit_char {c : Char} (h : Digit c) : ∃ d < 64, c = char d := by
  have hall : ∀ n < 123, 46 ≤ n ∧ n ≤ 57 ∨ 65 ≤ n ∧ n ≤ 90 ∨ 97 ≤ n ∧ n ≤ 122 →
      (decode (Char.ofNat n)).toNat < 64 ∧ Char.ofNat n = char (decode (Char.ofNat n)).toNat := by
    decide
  have hle {a b : Char} : a ≤ b ↔ a.toNat ≤ b.toNat := Iff.rfl
  simp only [Digit, hle] at h
  have hc : 46 ≤ c.toNat ∧ c.toNat ≤ 57 ∨ 65 ≤ c.toNat ∧ c.toNat ≤ 90 ∨
      97 ≤ c.toNat ∧ c.toNat ≤ 122 := h
  obtain ⟨hd, heq⟩ := hall c.toNat (by omega) hc
  exact ⟨_, hd, (Char.ofNat_toNat c).symm.trans heq⟩

/-- The characters of a string are digits in base 64. -/
theorem digits_chars {s : List Char} (h : ∀ c ∈ s, Digit c) :
    ∃ ds : List ℕ, (∀ d ∈ ds, d < 64) ∧ s = ds.map char := by
  induction s with
  | nil => exact ⟨[], nofun, rfl⟩
  | cons c s ih =>
    rw [forall_mem_cons] at h
    obtain ⟨d, hd, rfl⟩ := digit_char h.1
    obtain ⟨ds, hds, rfl⟩ := ih h.2
    exact ⟨d :: ds, forall_mem_cons.mpr ⟨hd, hds⟩, rfl⟩

theorem encode_eq (lg : BitVec 32) : encode lg = char (lg.toNat % 64) := by
  have hmask {x : BitVec 32} : (x &&& CHARMASK).toNat = x.toNat % 64 := by
    rw [BitVec.toNat_and]
    exact Nat.and_two_pow_sub_one_eq_mod x.toNat 6
  have hlt : lg.toNat % 64 < 2 ^ 32 := by omega
  simp only [char, encode, hmask, BitVec.toNat_ofNat, Nat.mod_eq_of_lt hlt, Nat.mod_mod]

/-! ## Shifts -/

theorem shift_nonneg {lg : BitVec 32} (h : lg.toNat < 2 ^ 31) : (shift lg).toNat = lg.toNat / 64 := by
  have hmsb : lg.msb = false := by
    rw [BitVec.msb_eq_decide]
    simp
    omega
  rw [shift, hmsb, if_neg nofun, BitVec.sshiftRight_eq_of_msb_false hmsb, BitVec.toNat_and,
    BitVec.toNat_ushiftRight]
  have hmask : WORDMASK.toNat = 2 ^ 30 - 1 := rfl
  rw [hmask, Nat.and_two_pow_sub_one_eq_mod, Nat.shiftRight_eq_div_pow]
  omega

/-- The constants bit by bit -/
theorem constants_bits : ∀ i : Fin 32, WORDMASK[i] = decide (i.val < 30) ∧
    SIGN[i] = decide (25 ≤ i.val) ∧ (15#32 <<< 26)[i] = decide (26 ≤ i.val ∧ i.val < 30) := by
  decide

/-- The bits above those of a negative number are filled, up to 36 in all. -/
theorem shift_neg {lg : BitVec 32} (h : 2 ^ 31 ≤ lg.toNat) :
    (shift lg).toNat = (lg.toNat + 15 * 2 ^ 32) / 64 := by
  have hmsb : lg.msb = true := by
    rw [BitVec.msb_eq_decide]
    simp
    omega
  have hbits : shift lg = lg >>> 6 ||| 15#32 <<< 26 := by
    ext i hi
    obtain ⟨hword, hsign, hfill⟩ := constants_bits ⟨i, hi⟩
    simp only [Fin.getElem_fin] at hword hsign hfill
    simp only [shift, hmsb, if_true, BitVec.getElem_and, BitVec.getElem_or, BitVec.getElem_sshiftRight,
      BitVec.getElem_ushiftRight, hword, hsign, hfill]
    rcases Nat.lt_trichotomy i 25 with hlt | rfl | hgt
    · have h6 : 6 + i < 32 := by omega
      rw [dif_pos h6, BitVec.getLsbD_eq_getElem h6]
      simp [show ¬25 ≤ i by omega, show i < 30 by omega, show ¬26 ≤ i by omega]
    · -- the sign comes to bit 25
      have h31 : lg.getLsbD 31 = true := hmsb
      simp [h31]
    · have h6 : ¬6 + i < 32 := by omega
      rw [BitVec.getLsbD_of_ge lg _ (by omega)]
      simp [show 25 ≤ i by omega, show 26 ≤ i by omega]
  have hlow : lg.toNat / 64 < 2 ^ 26 := by
    have := lg.isLt
    omega
  rw [hbits, BitVec.toNat_or, BitVec.toNat_ushiftRight, Nat.shiftRight_eq_div_pow]
  have hhigh : (15#32 <<< 26).toNat = 15 <<< 26 := rfl
  rw [hhigh, Nat.or_comm, ← Nat.shiftLeft_add_eq_or_of_lt hlow, Nat.shiftLeft_eq]
  omega

/-! ## Digits in base 64 -/

theorem encodeLoop_eq {room : ℕ} {lg : BitVec 32} (h : lg.toNat < 2 ^ 31) (hroom : lg.toNat < 64 ^ room) :
    encodeLoop room lg = some ((Nat.digits 64 lg.toNat).map char) := by
  induction room generalizing lg with
  | zero =>
    have hzero : lg = 0 := BitVec.eq_of_toNat_eq (Nat.lt_one_iff.mp hroom)
    rw [encodeLoop, if_pos hzero, hzero]
    rfl
  | succ room ih =>
    rw [encodeLoop]
    by_cases hzero : lg = 0
    · rw [if_pos hzero, hzero]
      simp
    · have hpos : 0 < lg.toNat := Nat.pos_of_ne_zero fun hc => hzero (BitVec.eq_of_toNat_eq hc)
      have hnext := shift_nonneg h
      rw [Nat.pow_succ] at hroom
      rw [if_neg hzero, ih (by omega) (by omega), hnext, encode_eq, Nat.digits_def' (by decide) hpos]
      rfl

/-- The number that is written for `lg`: a negative one is filled up to 36 bits. -/
def filled (lg : BitVec 32) : ℕ := if lg.toNat < 2 ^ 31 then lg.toNat else lg.toNat + 15 * 2 ^ 32

theorem l64a_eq (lg : BitVec 32) : l64a lg = some ((Nat.digits 64 (filled lg)).map char) := by
  rw [filled]
  split
  next h => exact encodeLoop_eq h (Nat.lt_trans h (by decide))
  next h =>
    have hlt := lg.isLt
    have hzero : lg ≠ 0 := fun hc => h (hc ▸ by decide)
    have hnext := shift_neg (Nat.le_of_not_lt h)
    have hmod : (lg.toNat + 15 * 2 ^ 32) % 64 = lg.toNat % 64 := by omega
    rw [Nat.digits_def' (by decide) (by omega), map_cons, hmod, ← encode_eq, ← hnext]
    change (if lg = 0 then some [] else (encodeLoop 5 (shift lg)).map (encode lg :: ·)) = _
    rw [if_neg hzero, encodeLoop_eq (by omega) (by omega)]
    rfl

theorem decodeLoop_eq {ds : List ℕ} (hds : ∀ d ∈ ds, d < 64) {i : ℕ} {lg : BitVec 32}
    (hlg : lg.toNat < 2 ^ i) (hi : i + 6 * ds.length ≤ 36) :
    (decodeLoop i lg (ds.map char)).toNat = (lg.toNat + 2 ^ i * Nat.ofDigits 64 ds) % 2 ^ 32 := by
  induction ds generalizing i lg with
  | nil =>
    rw [map_nil, decodeLoop, Nat.ofDigits_nil, Nat.mul_zero, Nat.add_zero, Nat.mod_eq_of_lt lg.isLt]
  | cons d ds ih =>
    rw [forall_mem_cons] at hds
    rw [length_cons] at hi
    have hpow : 2 ^ 32 = 2 ^ (32 - i) * 2 ^ i := by
      rw [← Nat.pow_add, Nat.sub_add_cancel (by omega)]
    have hd32 : d % 2 ^ 32 = d := Nat.mod_eq_of_lt (by omega)
    have hbits : (BitVec.ofInt 32 (decode (char d)) <<< i).toNat = (d % 2 ^ (32 - i)) <<< i := by
      rw [decode_char hds.1, BitVec.ofInt_natCast, BitVec.toNat_shiftLeft, BitVec.toNat_ofNat, hd32,
        Nat.shiftLeft_eq, Nat.shiftLeft_eq, hpow, Nat.mul_mod_mul_right]
    have hnext : (lg ||| BitVec.ofInt 32 (decode (char d)) <<< i).toNat =
        lg.toNat + d % 2 ^ (32 - i) * 2 ^ i := by
      rw [BitVec.toNat_or, hbits, Nat.or_comm, ← Nat.shiftLeft_add_eq_or_of_lt hlg, Nat.shiftLeft_eq,
        Nat.add_comm]
    have hle : d % 2 ^ (32 - i) * 2 ^ i ≤ 63 * 2 ^ i :=
      Nat.mul_le_mul_right _ (Nat.le_trans (Nat.mod_le _ _) (Nat.le_of_lt_succ hds.1))
    have hlt : (lg ||| BitVec.ofInt 32 (decode (char d)) <<< i).toNat < 2 ^ (i + 6) := by
      rw [hnext, Nat.pow_add]
      omega
    have hmod : d % 2 ^ (32 - i) * 2 ^ i % 2 ^ 32 = d * 2 ^ i % 2 ^ 32 := by
      rw [hpow, Nat.mul_mod_mul_right, Nat.mul_mod_mul_right, Nat.mod_mod]
    rw [map_cons, decodeLoop, ih hds.2 hlt (by omega), hnext, Nat.ofDigits_cons]
    have hsplit : lg.toNat + 2 ^ i * (d + 64 * Nat.ofDigits 64 ds) =
        d * 2 ^ i + (lg.toNat + 2 ^ (i + 6) * Nat.ofDigits 64 ds) := by
      ring
    have hsum : lg.toNat + d % 2 ^ (32 - i) * 2 ^ i + 2 ^ (i + 6) * Nat.ofDigits 64 ds =
        d % 2 ^ (32 - i) * 2 ^ i + (lg.toNat + 2 ^ (i + 6) * Nat.ofDigits 64 ds) := by
      omega
    rw [hsplit, hsum, Nat.add_mod, hmod, ← Nat.add_mod]

/-- `a64l` of at most six digits -/
theorem a64l_eq {ds : List ℕ} (hds : ∀ d ∈ ds, d < 64) (hlen : ds.length ≤ 6) :
    (a64l (ds.map char)).toNat = Nat.ofDigits 64 ds % 2 ^ 32 := by
  have h0 : (0 : BitVec 32).toNat < 2 ^ 0 := by decide
  have h := decodeLoop_eq hds h0 (by omega)
  rw [a64l, h]
  simp

theorem filled_lt (lg : BitVec 32) : filled lg < 64 ^ 6 := by
  have hlt := lg.isLt
  rw [filled]
  split
  · omega
  · omega

theorem filled_mod (lg : BitVec 32) : filled lg % 2 ^ 32 = lg.toNat := by
  have hlt := lg.isLt
  rw [filled]
  split
  · omega
  · omega

theorem a64l_l64a (lg : BitVec 32) : ∃ s, l64a lg = some s ∧ a64l s = lg := by
  refine ⟨_, l64a_eq lg, BitVec.eq_of_toNat_eq ?_⟩
  have hlen := (Nat.digits_length_le_iff (by decide) (filled lg)).mpr (filled_lt lg)
  rw [a64l_eq (fun d hd => Nat.digits_lt_base (by decide) hd) hlen, Nat.ofDigits_digits, filled_mod]

theorem char_inj {a b : ℕ} (ha : a < 64) (hb : b < 64) (h : char a = char b) : a = b := by
  have hdecode := congrArg decode h
  rw [decode_char ha, decode_char hb] at hdecode
  exact Int.ofNat.inj hdecode

theorem chars_inj {as bs : List ℕ} (ha : ∀ d ∈ as, d < 64) (hb : ∀ d ∈ bs, d < 64)
    (h : as.map char = bs.map char) : as = bs := by
  have hdecode := congrArg (List.map fun c => (decode c).toNat) h
  have hid {ds : List ℕ} (hds : ∀ d ∈ ds, d < 64) :
      (ds.map char).map (fun c => (decode c).toNat) = ds := by
    rw [map_map]
    apply (map_congr_left fun d hd => ?_).trans (map_id ds)
    rw [Function.comp_apply, decode_char (hds d hd)]
    rfl
  rwa [hid ha, hid hb] at hdecode

/-- A number of six digits comes back just if its last one is that of a positive number or filled. -/
theorem l64a_a64l {ds : List ℕ} (hds : ∀ d ∈ ds, d < 64) (hlen : ds.length ≤ 6)
    (hlast : ds.getLast? ≠ some 0) : l64a (a64l (ds.map char)) = some (ds.map char) ↔
      (ds.length = 6 → ∃ w, ds.getLast? = some w ∧ (w = 1 ∨ 62 ≤ w)) := by
  have hdigits : Nat.digits 64 (Nat.ofDigits 64 ds) = ds := by
    apply Nat.digits_ofDigits 64 (by decide) ds hds
    intro hne hc
    exact hlast (hc ▸ List.getLast?_eq_some_getLast hne)
  have hiff : l64a (a64l (ds.map char)) = some (ds.map char) ↔
      filled (a64l (ds.map char)) = Nat.ofDigits 64 ds := by
    rw [l64a_eq, Option.some.injEq]
    constructor
    · intro h
      have heq := chars_inj (fun d hd => Nat.digits_lt_base (by decide) hd) hds h
      exact (Nat.ofDigits_digits 64 _).symm.trans (congrArg (Nat.ofDigits 64) heq)
    · intro h
      rw [h, hdigits]
  have hmod := a64l_eq hds hlen
  rw [hiff, filled, hmod]
  rcases Nat.lt_or_eq_of_le hlen with hlt | hsix
  · have hsmall := Nat.ofDigits_lt_base_pow_length (by decide) hds
    have hpow : 64 ^ ds.length ≤ 64 ^ 5 := Nat.pow_le_pow_right (by decide) (by omega)
    have hbound : Nat.ofDigits 64 ds < 2 ^ 30 := Nat.lt_of_lt_of_le hsmall hpow
    refine ⟨fun _ hc => absurd hc (Nat.ne_of_lt hlt), fun _ => ?_⟩
    rw [if_pos (by omega)]
    omega
  · obtain ⟨low, w, hcut⟩ := eq_nil_or_concat ds |>.resolve_left (ne_nil_of_length_pos (by omega))
    rw [concat_eq_append] at hcut
    subst hcut
    rw [length_append, length_singleton] at hsix
    rw [forall_mem_append] at hds
    have hw := hds.2 w (mem_singleton.mpr rfl)
    have hlow := Nat.ofDigits_lt_base_pow_length (by decide) hds.1
    have hfive : low.length = 5 := by omega
    rw [List.getLast?_concat] at hlast ⊢
    have hne : w ≠ 0 := fun hc => hlast (hc ▸ rfl)
    rw [Nat.ofDigits_append, Nat.ofDigits_singleton, hfive]
    rw [hfive] at hlow
    constructor
    · intro h _
      refine ⟨w, rfl, ?_⟩
      split at h
      · omega
      · omega
    · intro h
      obtain ⟨w', hw', hcase⟩ := h (by rw [length_append, hfive]; rfl)
      obtain rfl := Option.some.inj hw'
      split
      · omega
      · omega

instance : DecidablePred Digit := fun _ => inferInstanceAs (Decidable (_ ∨ _))

/-- Each long comes back from its characters, and so do digits that are the characters of a long: a sixth one
has the two bits of a number that is not negative, or the bits of a negative one are filled. -/
theorem l64a_round_trip : (∀ lg, ∃ s, l64a lg = some s ∧ a64l s = lg) ∧
    ∀ s : List Char, (∀ c ∈ s, Digit c) → s.length ≤ 6 → s.getLast? ≠ some '.' →
      (l64a (a64l s) = some s ↔
        (s.length = 6 → s.getLast? = some '/' ∨ s.getLast? = some 'y' ∨ s.getLast? = some 'z')) := by
  refine ⟨a64l_l64a, fun s hs hlen hlast => ?_⟩
  obtain ⟨ds, hds, rfl⟩ := digits_chars hs
  rw [length_map] at hlen ⊢
  rw [List.getLast?_map] at hlast ⊢
  have hmem {d : ℕ} (hd : d < 64) : ds.getLast?.map char = some (char d) ↔ ds.getLast? = some d := by
    constructor
    · intro h
      obtain ⟨e, he, heq⟩ := Option.map_eq_some_iff.mp h
      rw [he, char_inj (hds e (mem_of_getLast? he)) hd heq]
    · intro h
      rw [h]
      rfl
  have hslash : '/' = char 1 ∧ 'y' = char 62 ∧ 'z' = char 63 ∧ '.' = char 0 := by decide
  rw [hslash.2.2.2, Ne, hmem (by decide)] at hlast
  rw [l64a_a64l hds hlen hlast, hslash.1, hslash.2.1, hslash.2.2.1, hmem (by decide), hmem (by decide),
    hmem (by decide)]
  refine forall_congr' fun _ => ⟨?_, ?_⟩
  · rintro ⟨w, hw, hcase⟩
    have hlt := hds w (mem_of_getLast? hw)
    rw [hw]
    simp only [Option.some.injEq]
    omega
  · rintro (h | h | h)
    · exact ⟨1, h, .inl rfl⟩
    · exact ⟨62, h, .inr (Nat.le_refl _)⟩
    · exact ⟨63, h, .inr (by decide)⟩

theorem l64a_round_trip_filled :
    l64a (a64l ['a', '9', '.', 'Z', '/', 'y']) = some ['a', '9', '.', 'Z', '/', 'y'] :=
  (l64a_round_trip.2 _ (by simp [Digit]) (by decide) (by decide)).mpr fun _ => .inr (.inl rfl)

/-- The sixth digit of a negative long is not the one that fits in two bits. -/
theorem sixth_filled : ¬ ∀ s : List Char, (∀ c ∈ s, Digit c) → s.length ≤ 6 → s.getLast? ≠ some '.' →
    (s.length = 6 → ∀ c, s.getLast? = some c → decode c < 4) → l64a (a64l s) = some s := by
  intro hall
  have h := hall ['.', '.', '.', '.', '.', '0'] (by simp [Digit]) (by decide) (by decide) fun _ c hc => by
    rw [← Option.some.inj hc]
    decide
  exact absurd h (by decide)

end Svr3.L64a
