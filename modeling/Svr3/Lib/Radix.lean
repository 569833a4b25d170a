import Mathlib.Data.List.DropRight
import Mathlib.Tactic.Linarith
import Mathlib.Tactic.Ring

/-!
# Numbers as strings of digits

A string of digits, lowest first, stands for a number in a base. The number of a string of proper digits
is below a power of the base, the base divides it into the first digits and the others, and its highest
digits are a quotient.
-/

namespace Svr3

open List

variable {b : ℤ} {xs ys ds : List ℤ} {d : ℤ} {n : ℕ}

/-- The number of a string of digits -/
def radix (b : ℤ) : List ℤ → ℤ
  | [] => 0
  | d :: ds => d + b * radix b ds

/-- Digits that are proper in the base -/
def Proper (b : ℤ) (ds : List ℤ) : Prop := ∀ d ∈ ds, 0 ≤ d ∧ d < b

instance (b : ℤ) (ds : List ℤ) : Decidable (Proper b ds) :=
  inferInstanceAs (Decidable (∀ d ∈ ds, 0 ≤ d ∧ d < b))

@[simp] theorem radix_nil : radix b [] = 0 := rfl

@[simp] theorem radix_cons : radix b (d :: ds) = d + b * radix b ds := rfl

theorem radix_append (xs ys : List ℤ) :
    radix b (xs ++ ys) = radix b xs + b ^ xs.length * radix b ys := by
  induction xs with
  | nil => simp
  | cons x xs ih =>
    rw [cons_append, radix_cons, radix_cons, ih, length_cons, pow_succ]
    ring

namespace Proper

theorem tail (h : Proper b (d :: ds)) : Proper b ds := fun x hx => h x (mem_cons_of_mem _ hx)

theorem head (h : Proper b (d :: ds)) : 0 ≤ d ∧ d < b := h d mem_cons_self

theorem append (hx : Proper b xs) (hy : Proper b ys) : Proper b (xs ++ ys) := by
  intro d hd
  rcases mem_append.mp hd with hd | hd
  · exact hx d hd
  · exact hy d hd

theorem left (h : Proper b (xs ++ ys)) : Proper b xs := fun d hd => h d (mem_append_left _ hd)

theorem right (h : Proper b (xs ++ ys)) : Proper b ys := fun d hd => h d (mem_append_right _ hd)

theorem take (h : Proper b ds) : Proper b (ds.take n) := fun d hd => h d (mem_of_mem_take hd)

theorem drop (h : Proper b ds) : Proper b (ds.drop n) := fun d hd => h d (mem_of_mem_drop hd)

theorem nonneg (hb : 0 < b) (h : Proper b ds) : 0 ≤ radix b ds := by
  induction ds with
  | nil => exact le_refl 0
  | cons d ds ih =>
    have htail := mul_nonneg hb.le (ih h.tail)
    have hd := h.head.1
    rw [radix_cons]
    linarith

theorem lt (hb : 0 < b) (h : Proper b ds) : radix b ds < b ^ ds.length := by
  induction ds with
  | nil => simp
  | cons d ds ih =>
    have htail := Int.add_one_le_iff.mpr (ih h.tail)
    have hmul := mul_le_mul_of_nonneg_left htail hb.le
    have hd := h.head.2
    rw [radix_cons, length_cons, pow_succ]
    linarith

/-- A string whose highest digit is not zero has no smaller number with as many digits. -/
theorem pow_le (hb : 0 < b) (h : Proper b (ds ++ [d])) (hd : d ≠ 0) :
    b ^ ds.length ≤ radix b (ds ++ [d]) := by
  have hlow := nonneg hb h.left
  have hd1 : 1 ≤ d := by
    have hd0 := (h.right d mem_cons_self).1
    omega
  have hmul := mul_le_mul_of_nonneg_left hd1 (pow_nonneg hb.le ds.length)
  rw [radix_append, radix_cons, radix_nil, mul_zero, add_zero]
  linarith

theorem pow_length_le (hb : 0 < b) (h : Proper b ds) (hne : ds ≠ []) (hlast : ds.getLast? ≠ some 0) :
    b ^ ds.length ≤ b * radix b ds := by
  obtain ⟨low, d, rfl⟩ : ∃ low d, ds = low ++ [d] := ⟨_, _, (dropLast_append_getLast hne).symm⟩
  have hd : d ≠ 0 := by
    intro hzero
    rw [hzero, List.getLast?_concat] at hlast
    exact hlast rfl
  have hmul := mul_le_mul_of_nonneg_left (pow_le hb h hd) hb.le
  rw [length_append, length_singleton, pow_succ, mul_comm]
  exact hmul

end Proper

/-- Zeros at the end make no difference. -/
theorem radix_strip (ds : List ℤ) : radix b (ds.rdropWhile (· = 0)) = radix b ds := by
  induction ds using List.reverseRecOn with
  | nil => rfl
  | append_singleton ds d ih =>
    by_cases hd : d = 0
    · rw [rdropWhile_concat_pos (fun x : ℤ => decide (x = 0)) ds d (decide_eq_true hd), ih,
        radix_append, hd]
      simp
    · rw [rdropWhile_concat_neg (fun x : ℤ => decide (x = 0)) ds d (by simpa using hd)]

theorem strip_last : (ds.rdropWhile (· = 0)).getLast? ≠ some 0 := by
  intro h
  obtain ⟨ys, hys⟩ := List.getLast?_eq_some_iff.mp h
  have hne : ds.rdropWhile (· = 0) ≠ [] := by
    rw [hys]
    exact concat_ne_nil _ _
  have hlast := rdropWhile_last_not (fun d : ℤ => decide (d = 0)) ds hne
  have heq : (ds.rdropWhile (· = 0)).getLast hne = 0 := by
    simp only [hys, getLast_append, getLast_singleton]
    simp
  exact hlast (decide_eq_true heq)

theorem Proper.strip (h : Proper b ds) : Proper b (ds.rdropWhile (· = 0)) :=
  fun d hd => h d (( rdropWhile_prefix _ ds).subset hd)

end Svr3
