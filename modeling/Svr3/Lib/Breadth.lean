import Mathlib.Data.List.Flatten
import Mathlib.Data.List.Nodup
import Mathlib.Data.List.Range

/-!
# Breadth-first order

Every `x` has a list of kids. In a queue that begins with `xs` each one taken is followed by its kids at the end;
what is taken comes level by level, and nothing comes twice if the kids make a forest.
-/

namespace Svr3.Breadth

open List

variable {α : Type*} (kids : α → List α) (xs : List α)

def level : ℕ → List α
  | 0 => xs
  | n + 1 => (level n).flatMap kids

/-- The first `n` levels -/
def levels (n : ℕ) : List α := (List.range n).flatMap (level kids xs)

/-- What has been entered when `t` have been taken -/
def entered : ℕ → List α
  | 0 => xs
  | t + 1 => entered t ++ ((entered t)[t]?).elim [] kids

variable {kids xs} {t u n : ℕ} {x y z : α}

theorem levels_succ (n : ℕ) : levels kids xs (n + 1) = levels kids xs n ++ level kids xs n := by
  rw [levels, range_succ, flatMap_append, flatMap_singleton]
  rfl

theorem entered_succ (h : (entered kids xs t)[t]? = some x) :
    entered kids xs (t + 1) = entered kids xs t ++ kids x := by
  rw [entered, h]
  rfl

variable (kids xs) in
theorem entered_prefix (h : t ≤ u) : entered kids xs t <+: entered kids xs u := by
  induction h with
  | refl => exact prefix_rfl
  | step _ ih => exact ih.trans (prefix_append _ _)

variable (kids xs) in
/-- When all have been taken, no more are entered. -/
theorem entered_stop (h : (entered kids xs t).length ≤ t) (htu : t ≤ u) :
    entered kids xs u = entered kids xs t := by
  induction htu with
  | refl => rfl
  | @step u htu ih =>
    have hnone : (entered kids xs t)[u]? = none := List.getElem?_eq_none (h.trans htu)
    rw [entered, ih, hnone]
    exact append_nil _

theorem lt_length_entered (ht : t < u) (hu : (entered kids xs u).length = u) : t < (entered kids xs t).length := by
  by_contra h
  have hstop := entered_stop kids xs (Nat.not_lt.mp h) (Nat.le_of_lt ht)
  rw [hstop] at hu
  omega

variable (kids xs) in
/-- All but the first ones are kids of what has been taken. -/
theorem entered_eq (h : t ≤ (entered kids xs t).length) :
    entered kids xs t = xs ++ ((entered kids xs t).take t).flatMap kids := by
  induction t with
  | zero => exact (append_nil _).symm
  | succ t ih =>
    by_cases hlt : t < (entered kids xs t).length
    · have hx : (entered kids xs t)[t]? = some (entered kids xs t)[t] := List.getElem?_eq_getElem hlt
      have htake : (entered kids xs (t + 1)).take (t + 1) = (entered kids xs t).take t ++ [(entered kids xs t)[t]] := by
        rw [entered_succ hx, take_append_of_le_length hlt, take_add_one, hx]
        rfl
      rw [htake, flatMap_append, flatMap_singleton, ← append_assoc, ← ih (Nat.le_of_lt hlt),
        ← entered_succ hx]
    · have hstop := entered_stop kids xs (Nat.not_lt.mp hlt) (Nat.le_succ t)
      rw [hstop] at h
      exact absurd h hlt

/-! ## Levels -/

theorem entered_level (n : ℕ) (h : entered kids xs (levels kids xs n).length = levels kids xs (n + 1)) :
    ∀ j ≤ (level kids xs n).length, entered kids xs ((levels kids xs n).length + j) =
      levels kids xs (n + 1) ++ ((level kids xs n).take j).flatMap kids := by
  intro j hj
  induction j with
  | zero =>
    rw [Nat.add_zero, h, take_zero, flatMap_nil, append_nil]
  | succ j ih =>
    have hlt : j < (level kids xs n).length := hj
    have hx : (entered kids xs ((levels kids xs n).length + j))[(levels kids xs n).length + j]? =
        some (level kids xs n)[j] := by
      rw [ih (Nat.le_of_lt hlt), levels_succ, append_assoc, List.getElem?_append_right (Nat.le_add_right _ _),
        Nat.add_sub_cancel_left, List.getElem?_append_left hlt, List.getElem?_eq_getElem hlt]
    have htake : (level kids xs n).take (j + 1) = (level kids xs n).take j ++ [(level kids xs n)[j]] := by
      rw [take_add_one, List.getElem?_eq_getElem hlt]
      rfl
    rw [← Nat.add_assoc, entered_succ hx, ih (Nat.le_of_lt hlt), htake, flatMap_append, flatMap_singleton,
      append_assoc]

/-- When the levels up to `n` have been taken, the next one has been entered. -/
theorem entered_levels (n : ℕ) : entered kids xs (levels kids xs n).length = levels kids xs (n + 1) := by
  induction n with
  | zero =>
    rw [levels_succ]
    rfl
  | succ n ih =>
    have hlevel := entered_level n ih _ (Nat.le_refl _)
    rw [take_length] at hlevel
    rw [levels_succ n, length_append, hlevel, levels_succ (n + 1), levels_succ n]
    rfl

/-- The queue takes all levels in order. -/
theorem entered_all (h : level kids xs n = []) : entered kids xs (levels kids xs n).length = levels kids xs n := by
  rw [entered_levels, levels_succ, h, append_nil]

/-! ## Forests -/

/-- No two of those that `P` holds of share a kid. -/
structure Forest (P : α → Prop) (kids : α → List α) : Prop where
  kid : ∀ x, P x → ∀ y ∈ kids x, P y
  nodup : ∀ x, P x → (kids x).Nodup
  unique : ∀ x y z, P x → P y → z ∈ kids x → z ∈ kids y → x = y

variable {P : α → Prop}

theorem Forest.entered (h : Forest P kids) (hxs : ∀ x ∈ xs, P x) (t : ℕ) : ∀ x ∈ entered kids xs t, P x := by
  induction t with
  | zero => exact hxs
  | succ t ih =>
    intro x hx
    rcases mem_append.mp hx with hx | hx
    · exact ih x hx
    · cases hy : (Breadth.entered kids xs t)[t]? with
      | none =>
        rw [hy] at hx
        exact absurd hx not_mem_nil
      | some y =>
        rw [hy] at hx
        exact h.kid y (ih y (mem_of_getElem? hy)) x hx

/-- Nothing is entered twice. -/
theorem Forest.nodup_entered (h : Forest P kids) (hxs : ∀ x ∈ xs, P x) (hnodup : xs.Nodup)
    (hroot : ∀ x, P x → ∀ z ∈ kids x, z ∉ xs) (ht : t ≤ (Breadth.entered kids xs t).length) :
    (Breadth.entered kids xs t).Nodup := by
  induction t with
  | zero => exact hnodup
  | succ t ih =>
    cases hx : (Breadth.entered kids xs t)[t]? with
    | none =>
      have hle : (Breadth.entered kids xs t).length ≤ t := List.getElem?_eq_none_iff.mp hx
      have hlen := ht
      rw [entered_stop kids xs hle (Nat.le_succ t)] at hlen
      omega
    | some x =>
      have hlt : t < (Breadth.entered kids xs t).length := (List.getElem?_eq_some_iff.mp hx).1
      have hold := ih (Nat.le_of_lt hlt)
      have hPx : P x := h.entered hxs t x (mem_of_getElem? hx)
      rw [entered_succ hx]
      refine hold.append (h.nodup x hPx) fun z hz hzx => ?_
      rw [entered_eq kids xs (Nat.le_of_lt hlt)] at hz
      rcases mem_append.mp hz with hz | hz
      · exact hroot x hPx z hzx hz
      · obtain ⟨y, hy, hzy⟩ := mem_flatMap.mp hz
        obtain rfl := h.unique y x z (h.entered hxs t y (mem_of_mem_take hy)) hPx hzy hzx
        obtain ⟨i, hi⟩ := mem_iff_getElem?.mp hy
        have hit : i < t := by
          have hlen := (List.getElem?_eq_some_iff.mp hi).1
          rw [length_take] at hlen
          omega
        rw [List.getElem?_take_of_lt hit] at hi
        have heq := (List.getElem?_inj ((Nat.lt_trans hit hlt)) hold).mp (hi.trans hx.symm)
        omega

end Svr3.Breadth
