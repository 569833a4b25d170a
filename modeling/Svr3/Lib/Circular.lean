import Mathlib.Data.List.Range

/-!
# Circular buffers

A buffer of `P` places goes around. What is in it are the `n` entries from a place on; entries are taken
at the front and come in behind the last one.
-/

namespace Svr3

open List

variable {β : Type*} {data data' : ℕ → β} {P r n m w k : ℕ}

/-- The `n` entries from place `r` on -/
def window (data : ℕ → β) (P r n : ℕ) : List β := (List.range n).map fun i => data ((r + i) % P)

@[simp] theorem length_window : (window data P r n).length = n := by
  rw [window, length_map, length_range]

theorem window_congr (h : ∀ i < n, data' ((r + i) % P) = data ((r + i) % P)) :
    window data' P r n = window data P r n :=
  map_congr_left fun i hi => h i (mem_range.mp hi)

/-- The first `m` entries, and those behind them -/
theorem window_add (data : ℕ → β) (P r m n : ℕ) :
    window data P r (m + n) = window data P r m ++ window data P ((r + m) % P) n := by
  rw [window, window, window, range_add, map_append, map_map]
  congr 1
  apply map_congr_left
  intro i _
  rw [Function.comp_apply, Nat.mod_add_mod, Nat.add_assoc]

/-- Entries that do not go around -/
theorem window_straight (h : r + n ≤ P) :
    window data P r n = (List.range n).map fun i => data (r + i) := by
  apply map_congr_left
  intro i hi
  rw [Nat.mod_eq_of_lt (by have := mem_range.mp hi; omega)]

/-- A place that is behind the entries, as far as there is room, is none of theirs. -/
theorem window_outside (hr : r < P) (hroom : n + k ≤ P) (hw : w = (r + n) % P)
    (h : ∀ x, x < w ∨ w + k ≤ x → data' x = data x) :
    window data' P r n = window data P r n := by
  apply window_congr
  intro i hi
  apply h
  rcases Nat.lt_or_ge (r + n) P with hn | hn
  · rw [Nat.mod_eq_of_lt hn] at hw
    rw [Nat.mod_eq_of_lt (by omega)]
    exact .inl (by omega)
  · rw [Nat.mod_eq_sub_mod hn, Nat.mod_eq_of_lt (by omega)] at hw
    rcases Nat.lt_or_ge (r + i) P with hi' | hi'
    · rw [Nat.mod_eq_of_lt hi']
      exact .inr (by omega)
    · rw [Nat.mod_eq_sub_mod hi', Nat.mod_eq_of_lt (by omega)]
      exact .inl (by omega)

/-- Nor is a place that is before them. -/
theorem window_before (hroom : n + k ≤ P) (hr : r = (w + k) % P) (hk : w + k ≤ P)
    (h : ∀ x, x < w ∨ w + k ≤ x → data' x = data x) :
    window data' P r n = window data P r n := by
  apply window_congr
  intro i hi
  apply h
  rcases Nat.lt_or_ge (w + k) P with hlt | hge
  · rw [Nat.mod_eq_of_lt hlt] at hr
    rcases Nat.lt_or_ge (r + i) P with hi' | hi'
    · rw [Nat.mod_eq_of_lt hi']
      exact .inr (by omega)
    · rw [Nat.mod_eq_sub_mod hi', Nat.mod_eq_of_lt (by omega)]
      exact .inl (by omega)
  · rw [Nat.mod_eq_sub_mod hge, Nat.mod_eq_of_lt (by omega)] at hr
    rw [Nat.mod_eq_of_lt (by omega)]
    exact .inl (by omega)

end Svr3
