import Mathlib.Data.Nat.Cast.Basic
import Mathlib.Data.Nat.Cast.Commute

/-!
# Decimal numbers in text

A number is printed by its digits. Digits are read as a number of any semiring, up to the first character that
is not a digit.
-/

namespace Svr3

def digits (n : ℕ) : List Char := Nat.toDigits 10 n

/-- The number at the front of a text, and what is behind it -/
def number {R : Type*} [Semiring R] (acc : R) : List Char → R × List Char
  | [] => (acc, [])
  | c :: cs => if c.isDigit then number (acc * 10 + ((c.toNat - '0'.toNat : ℕ) : R)) cs else (acc, c :: cs)

/-- The text does not go on with a digit. -/
def NoDigit (r : List Char) : Prop := ∀ c ∈ r.head?, c.isDigit = false

theorem noDigit_nil : NoDigit [] := nofun

theorem noDigit_cons {c : Char} {r : List Char} (h : c.isDigit = false) : NoDigit (c :: r) := by
  intro x hx
  obtain rfl := Option.some.inj hx
  exact h

theorem mem_digits {n : ℕ} {c : Char} (h : c ∈ digits n) : c.isDigit = true :=
  Nat.isDigit_of_mem_toDigits (by decide) (by decide) h

section read

variable {R : Type*} [Semiring R] {r : List Char}

theorem number_noDigit (hr : NoDigit r) (acc : R) : number acc r = (acc, r) := by
  cases r with
  | nil => rfl
  | cons c r =>
    have hc : ¬c.isDigit = true := by
      rw [hr c rfl]
      exact nofun
    rw [number, if_neg hc]

theorem number_append (hr : NoDigit r) {ds : List Char} (hds : ∀ c ∈ ds, c.isDigit = true) (m : ℕ) :
    number (m : R) (ds ++ r) = (((Nat.ofDigitChars 10 ds m : ℕ) : R), r) := by
  induction ds generalizing m with
  | nil =>
    rw [List.nil_append, number_noDigit hr, Nat.ofDigitChars_nil]
  | cons c ds ih =>
    have hacc : (m : R) * 10 + ((c.toNat - '0'.toNat : ℕ) : R) = ((10 * m + (c.toNat - '0'.toNat) : ℕ) : R) := by
      rw [Nat.cast_add, Nat.cast_mul, Nat.cast_ofNat, Nat.cast_comm m (10 : R)]
    rw [List.cons_append, number, if_pos (hds c List.mem_cons_self), hacc,
      ih fun x hx => hds x (List.mem_cons_of_mem c hx), Nat.ofDigitChars_cons]

/-- What was printed is read. -/
theorem number_digits (hr : NoDigit r) (n : ℕ) : number (0 : R) (digits n ++ r) = ((n : R), r) := by
  have h := number_append (R := R) hr (fun c hc => mem_digits (n := n) hc) 0
  rw [Nat.cast_zero, digits, Nat.ofDigitChars_toDigits (by decide) (by decide)] at h
  exact h

end read

end Svr3
