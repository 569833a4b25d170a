import Mathlib.Data.Nat.Notation
import Mathlib.Logic.Function.Basic

/-!
# Memories of bytes

Bytes are written to consecutive addresses, or copied from one place to another, the lowest first. Numbers of
two and four bytes are stored with the highest byte first.
-/

namespace Svr3

open Function List

abbrev Byte := BitVec 8

abbrev Mem := ℕ → Byte

/-- The bytes `bs` from the address `a` on -/
def poke (a : ℕ) : List Byte → Mem → Mem
  | [], m => m
  | b :: bs, m => poke (a + 1) bs (update m a b)

/-- Copy `n` bytes one by one. -/
def copy : ℕ → ℕ → ℕ → Mem → Mem
  | 0, _, _, m => m
  | n + 1, src, dst, m => copy n (src + 1) (dst + 1) (update m dst (m src))

/-- The memory has the bytes `bs` at `a`. -/
def Holds (m : Mem) (a : ℕ) : List Byte → Prop
  | [] => True
  | b :: bs => m a = b ∧ Holds m (a + 1) bs

/-- The bytes of a number, the highest first -/
def be16 (v : BitVec 16) : List Byte := [v.extractLsb' 8 8, v.extractLsb' 0 8]

def be32 (v : BitVec 32) : List Byte :=
  [v.extractLsb' 24 8, v.extractLsb' 16 8, v.extractLsb' 8 8, v.extractLsb' 0 8]

def peek2 (m : Mem) (a : ℕ) : BitVec 16 := m a ++ m (a + 1)

def peek4 (m : Mem) (a : ℕ) : BitVec 32 := m a ++ m (a + 1) ++ m (a + 2) ++ m (a + 3)

section

variable {m m' : Mem} {a b x src dst : ℕ} {bs cs : List Byte}

theorem poke_of_lt (h : x < a) : poke a bs m x = m x := by
  induction bs generalizing a m with
  | nil => rfl
  | cons b bs ih => rw [poke, ih (Nat.lt_succ_of_lt h), update_of_ne (Nat.ne_of_lt h)]

theorem poke_of_ge (h : a + bs.length ≤ x) : poke a bs m x = m x := by
  induction bs generalizing a m with
  | nil => rfl
  | cons b bs ih =>
    rw [length_cons] at h
    rw [poke, ih (by omega), update_of_ne (by omega)]

theorem poke_outside (h : x < a ∨ a + bs.length ≤ x) : poke a bs m x = m x :=
  h.elim poke_of_lt poke_of_ge

theorem Holds.congr (h : Holds m a bs) (hsame : ∀ x, a ≤ x → x < a + bs.length → m' x = m x) :
    Holds m' a bs := by
  induction bs generalizing a with
  | nil => trivial
  | cons b bs ih =>
    rw [length_cons] at hsame
    exact ⟨(hsame a (Nat.le_refl a) (by omega)).trans h.1,
      ih h.2 fun x hx hlt => hsame x (by omega) (by omega)⟩

theorem Holds.shift (h : Holds m a bs) (hsame : ∀ k, k < bs.length → m' (b + k) = m (a + k)) :
    Holds m' b bs := by
  induction bs generalizing a b with
  | nil => trivial
  | cons c bs ih =>
    rw [length_cons] at hsame
    refine ⟨(hsame 0 (Nat.succ_pos _)).trans h.1, ih h.2 fun k hk => ?_⟩
    rw [Nat.add_assoc, Nat.add_assoc, Nat.add_comm 1 k]
    exact hsame (k + 1) (Nat.succ_lt_succ hk)

theorem holds_poke (m : Mem) (a : ℕ) (bs : List Byte) : Holds (poke a bs m) a bs := by
  induction bs generalizing a m with
  | nil => trivial
  | cons b bs ih =>
    refine ⟨?_, ih _ _⟩
    rw [poke, poke_of_lt (Nat.lt_succ_self a), update_self]

/-- What a memory holds already is written without effect. -/
theorem Holds.poke_eq (h : Holds m a bs) : poke a bs m = m := by
  induction bs generalizing a with
  | nil => rfl
  | cons b bs ih =>
    rw [poke, ← h.1, update_eq_self]
    exact ih h.2

theorem holds_append : Holds m a (bs ++ cs) ↔ Holds m a bs ∧ Holds m (a + bs.length) cs := by
  induction bs generalizing a with
  | nil => exact (iff_of_eq (true_and _)).symm
  | cons b bs ih =>
    rw [cons_append, Holds, ih, Holds, length_cons, and_assoc]
    rw [show a + 1 + bs.length = a + (bs.length + 1) by omega]

theorem Holds.unique (h : Holds m a bs) (h' : Holds m a cs) (hlen : bs.length = cs.length) : bs = cs := by
  induction bs generalizing a cs with
  | nil => exact (length_eq_zero_iff.mp hlen.symm).symm
  | cons b bs ih =>
    cases cs with
    | nil => exact absurd hlen nofun
    | cons c cs => rw [← h.1, ← h'.1, ih h.2 h'.2 (Nat.succ.inj hlen)]

theorem Holds.byte_eq (h : Holds m a bs) (h' : Holds m' a bs) (hx : x < bs.length) : m' (a + x) = m (a + x) := by
  induction bs generalizing a x with
  | nil => exact absurd hx (Nat.not_lt_zero x)
  | cons b bs ih =>
    cases x with
    | zero => exact h'.1.trans h.1.symm
    | succ x =>
      rw [show a + (x + 1) = a + 1 + x by omega]
      exact ih h.2 h'.2 (Nat.lt_of_succ_lt_succ hx)

/-- A copy to lower addresses, or to others, writes what was there. -/
theorem Holds.copy_eq (h : Holds m src bs) (hdst : dst ≤ src ∨ src + bs.length ≤ dst) :
    copy bs.length src dst m = poke dst bs m := by
  induction bs generalizing m src dst with
  | nil => rfl
  | cons b bs ih =>
    rw [length_cons] at hdst ⊢
    rw [copy, poke, h.1]
    apply ih
    · apply h.2.congr
      intro x hx hlt
      exact update_of_ne (by omega) _ _
    · omega

theorem copy_of_lt (n : ℕ) (h : x < dst) : copy n src dst m x = m x := by
  induction n generalizing m src dst with
  | zero => rfl
  | succ n ih => rw [copy, ih (Nat.lt_succ_of_lt h), update_of_ne (Nat.ne_of_lt h)]

theorem copy_of_ge {n : ℕ} (h : dst + n ≤ x) : copy n src dst m x = m x := by
  induction n generalizing m src dst with
  | zero => rfl
  | succ n ih => rw [copy, ih (by omega), update_of_ne (by omega)]

/-- A copy to other addresses, byte by byte -/
theorem copy_get {n k : ℕ} (h : src + n ≤ dst ∨ dst + n ≤ src) (hk : k < n) :
    copy n src dst m (dst + k) = m (src + k) := by
  induction n generalizing m src dst k with
  | zero => exact absurd hk (Nat.not_lt_zero k)
  | succ n ih =>
    rw [copy]
    cases k with
    | zero =>
      have hlt : dst < dst + 1 := Nat.lt_succ_self dst
      change copy n (src + 1) (dst + 1) (update m dst (m src)) dst = m src
      rw [copy_of_lt n hlt, update_self]
    | succ k =>
      have hrest : copy n (src + 1) (dst + 1) (update m dst (m src)) (dst + 1 + k) =
          update m dst (m src) (src + 1 + k) := ih (by omega) (Nat.lt_of_succ_lt_succ hk)
      rw [show dst + (k + 1) = dst + 1 + k by omega, hrest, update_of_ne (by omega),
        show src + 1 + k = src + (k + 1) by omega]

theorem poke_append (m : Mem) (a : ℕ) (bs cs : List Byte) :
    poke a (bs ++ cs) m = poke (a + bs.length) cs (poke a bs m) := by
  induction bs generalizing a m with
  | nil => rfl
  | cons b bs ih =>
    rw [cons_append, poke, ih, poke, length_cons]
    rw [show a + 1 + bs.length = a + (bs.length + 1) by omega]

end

/-! ## Numbers -/

theorem Holds.peek2_eq {m : Mem} {a : ℕ} {v : BitVec 16} (h : Holds m a (be16 v)) : peek2 m a = v := by
  obtain ⟨h0, h1, -⟩ := h
  rw [peek2, h0, h1]
  apply BitVec.eq_of_getLsbD_eq
  simp only [BitVec.getLsbD_append, BitVec.getLsbD_extractLsb']
  grind

theorem Holds.peek4_eq {m : Mem} {a : ℕ} {v : BitVec 32} (h : Holds m a (be32 v)) : peek4 m a = v := by
  obtain ⟨h0, h1, h2, h3, -⟩ := h
  rw [peek4, h0, h1, h2, h3]
  apply BitVec.eq_of_getLsbD_eq
  simp only [BitVec.getLsbD_append, BitVec.getLsbD_extractLsb']
  grind

theorem holds_peek4 (m : Mem) (a : ℕ) : Holds m a (be32 (peek4 m a)) := by
  refine ⟨?_, ?_, ?_, ?_, trivial⟩ <;>
    (rw [peek4]; ext i hi; simp only [BitVec.getElem_extractLsb', BitVec.getLsbD_append]; grind)

theorem holds_peek2 (m : Mem) (a : ℕ) : Holds m a (be16 (peek2 m a)) := by
  refine ⟨?_, ?_, trivial⟩ <;>
    (rw [peek2]; ext i hi; simp only [BitVec.getElem_extractLsb', BitVec.getLsbD_append]; grind)

theorem peek2_inj {m m' : Mem} {a b : ℕ} : peek2 m a = peek2 m' b ↔ m a = m' b ∧ m (a + 1) = m' (b + 1) := by
  constructor
  · intro h
    have hm := holds_peek2 m a
    have hm' := holds_peek2 m' b
    rw [h] at hm
    exact ⟨hm.1.trans hm'.1.symm, hm.2.1.trans hm'.2.1.symm⟩
  · rintro ⟨h0, h1⟩
    rw [peek2, peek2, h0, h1]

theorem peek4_inj {m m' : Mem} {a b : ℕ} : peek4 m a = peek4 m' b ↔
    peek2 m a = peek2 m' b ∧ peek2 m (a + 2) = peek2 m' (b + 2) := by
  constructor
  · intro h
    have hm := holds_peek4 m a
    have hm' := holds_peek4 m' b
    rw [h] at hm
    exact ⟨peek2_inj.mpr ⟨hm.1.trans hm'.1.symm, hm.2.1.trans hm'.2.1.symm⟩,
      peek2_inj.mpr ⟨hm.2.2.1.trans hm'.2.2.1.symm, hm.2.2.2.1.trans hm'.2.2.2.1.symm⟩⟩
  · rintro ⟨h0, h2⟩
    obtain ⟨h0, h1⟩ := peek2_inj.mp h0
    obtain ⟨h2, h3⟩ := peek2_inj.mp h2
    rw [peek4, peek4, h0, h1, h2, h3]

theorem peek2_low (m : Mem) (a : ℕ) : (peek4 m a).setWidth 16 = peek2 m (a + 2) := by
  rw [peek4, peek2]
  ext i hi
  simp only [BitVec.getElem_setWidth, BitVec.getLsbD_append]
  grind

theorem peek2_high (m : Mem) (a : ℕ) : (peek4 m a).extractLsb' 16 16 = peek2 m a := by
  rw [peek4, peek2]
  ext i hi
  simp only [BitVec.getElem_extractLsb', BitVec.getLsbD_append]
  grind

theorem setWidth_signExtend (v : BitVec 16) : (v.signExtend 32).setWidth 16 = v := by
  ext i hi
  simp only [BitVec.getElem_setWidth, BitVec.getLsbD_signExtend]
  grind

end Svr3
