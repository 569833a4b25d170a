import Mathlib.Order.Interval.Finset.Nat

/-!
# Binary heaps in an array

A heap of `n` items is in the places 1 to `n`, and the children of place `i` are in the places `2 * i` and
`2 * i + 1`. An item sinks to its place by swaps with the least child. What the heap holds is a multiset.
-/

namespace Svr3

open Function

variable {α κ : Type*} {h : ℕ → α} {n lo i k : ℕ}

/-! ## What a heap holds -/

/-- The items in the places 1 to `n` -/
def content (h : ℕ → α) (n : ℕ) : Multiset α := (Finset.Icc 1 n).val.map h

@[simp] theorem card_content (h : ℕ → α) (n : ℕ) : Multiset.card (content h n) = n := by
  rw [content, Multiset.card_map, Finset.card_val, Nat.card_Icc, Nat.add_sub_cancel]

theorem content_succ (h : ℕ → α) (n : ℕ) : content h (n + 1) = h (n + 1) ::ₘ content h n := by
  have hinsert : Finset.Icc 1 (n + 1) = insert (n + 1) (Finset.Icc 1 n) := by
    ext x
    rw [Finset.mem_insert, Finset.mem_Icc, Finset.mem_Icc]
    omega
  have hnot : n + 1 ∉ Finset.Icc 1 n := by
    rw [Finset.mem_Icc]
    omega
  rw [content, hinsert, Finset.insert_val_of_notMem hnot, Multiset.map_cons, content]

theorem mem_content {x : α} : x ∈ content h n ↔ ∃ k, 1 ≤ k ∧ k ≤ n ∧ h k = x := by
  rw [content, Multiset.mem_map]
  simp only [Finset.mem_val, Finset.mem_Icc, and_assoc]

theorem content_congr {g : ℕ → α} (hsame : ∀ k, 1 ≤ k → k ≤ n → g k = h k) : content g n = content h n :=
  Multiset.map_congr rfl fun k hk => by
    rw [Finset.mem_val, Finset.mem_Icc] at hk
    exact hsame k hk.1 hk.2

/-- The item in the first place, and the others -/
theorem content_first (h : ℕ → α) (hn : 1 ≤ n) :
    content h n = h 1 ::ₘ (Finset.Icc 2 n).val.map h := by
  have hinsert : Finset.Icc 1 n = insert 1 (Finset.Icc 2 n) := by
    ext x
    rw [Finset.mem_insert, Finset.mem_Icc, Finset.mem_Icc]
    omega
  have hnot : 1 ∉ Finset.Icc 2 n := by
    rw [Finset.mem_Icc]
    omega
  rw [content, hinsert, Finset.insert_val_of_notMem hnot, Multiset.map_cons]

theorem content_swap (h : ℕ → α) (hi : 1 ≤ i ∧ i ≤ n) (hk : 1 ≤ k ∧ k ≤ n) :
    content (h ∘ Equiv.swap i k) n = content h n := by
  have hsub : {a | Equiv.swap i k a ≠ a} ⊆ (Finset.Icc 1 n : Set ℕ) := by
    intro a ha
    rw [Finset.coe_Icc, Set.mem_Icc]
    by_cases hai : a = i
    · rw [hai]
      exact hi
    · by_cases hak : a = k
      · rw [hak]
        exact hk
      · exact absurd (Equiv.swap_apply_of_ne_of_ne hai hak) ha
  have hmap := congrArg Finset.val (Finset.map_perm hsub)
  rw [content, ← Multiset.map_map, ← content]
  rw [Finset.map_val] at hmap
  exact congrArg (Multiset.map h) hmap

/-- The last item takes the place of the first one, which leaves the heap. -/
theorem content_pop (h : ℕ → α) (hn : 1 ≤ n) :
    content h n = h 1 ::ₘ content (update h 1 (h n)) (n - 1) := by
  obtain ⟨n, rfl⟩ := Nat.exists_eq_add_of_le' hn
  rw [Nat.add_sub_cancel]
  rcases Nat.eq_zero_or_pos n with rfl | hpos
  · rfl
  · have hrest : (Finset.Icc 2 n).val.map (update h 1 (h (n + 1))) = (Finset.Icc 2 n).val.map h :=
      Multiset.map_congr rfl fun k hk => by
        rw [Finset.mem_val, Finset.mem_Icc] at hk
        exact update_of_ne (by omega) _ _
    rw [content_succ, content_first h hpos, content_first _ hpos, hrest, update_self, Multiset.cons_swap]

theorem content_update_first (h : ℕ → α) (hn : 1 ≤ n) (x : α) :
    ∃ rest, content h n = h 1 ::ₘ rest ∧ content (update h 1 x) n = x ::ₘ rest := by
  refine ⟨_, content_first h hn, ?_⟩
  rw [content_first _ hn, update_self]
  congr 1
  exact Multiset.map_congr rfl fun k hk => by
    rw [Finset.mem_val, Finset.mem_Icc] at hk
    exact update_of_ne (by omega) _ _

/-! ## The order -/

section order

variable [LinearOrder κ] (key : α → κ)

/-- The item in the place `i` is not greater than its children. -/
def Least (h : ℕ → α) (n i : ℕ) : Prop := ∀ k, k / 2 = i → k ≤ n → key (h i) ≤ key (h k)

/-- From the place `lo` on the items are in order, but for the one in the place `i`, which may have to sink. -/
structure Sinking (h : ℕ → α) (n lo i : ℕ) : Prop where
  least : ∀ j, lo ≤ j → j ≠ i → Least key h n j
  above : lo ≤ i / 2 → ∀ k, k / 2 = i → k ≤ n → key (h (i / 2)) ≤ key (h k)

variable {key}

theorem least_first (hl : ∀ i, 1 ≤ i → Least key h n i) (hk : 1 ≤ k ∧ k ≤ n) : key (h 1) ≤ key (h k) := by
  induction k using Nat.strong_induction_on with
  | _ k ih =>
    rcases Nat.eq_or_lt_of_le hk.1 with rfl | hlt
    · exact le_refl _
    · exact (ih (k / 2) (by omega) (by omega)).trans (hl (k / 2) (by omega) k rfl hk.2)

theorem Sinking.finish (hs : Sinking key h n lo i) (hi : Least key h n i) {j : ℕ} (hj : lo ≤ j) :
    Least key h n j := by
  by_cases hji : j = i
  · rw [hji]
    exact hi
  · exact hs.least j hj hji

/-- The item is swapped with its least child. -/
theorem Sinking.swap (hs : Sinking key h n lo i) (hi : 1 ≤ i) (hlo : lo ≤ i) (hk : k / 2 = i) (hkn : k ≤ n)
    (hle : key (h k) ≤ key (h i)) (hleast : ∀ k', k' / 2 = i → k' ≤ n → key (h k) ≤ key (h k')) :
    Sinking key (h ∘ Equiv.swap i k) n lo k := by
  have hki : i < k := by omega
  have hother : ∀ j, j ≠ i → j ≠ k → (h ∘ Equiv.swap i k) j = h j := fun j h1 h2 =>
    congrArg h (Equiv.swap_apply_of_ne_of_ne h1 h2)
  have hself : (h ∘ Equiv.swap i k) i = h k := congrArg h (Equiv.swap_apply_left i k)
  have hchild : (h ∘ Equiv.swap i k) k = h i := congrArg h (Equiv.swap_apply_right i k)
  constructor
  · intro j hj hjk m hm hmn
    by_cases hji : j = i
    · rw [hji, hself]
      by_cases hmk : m = k
      · rw [hmk, hchild]
        exact hle
      · rw [hother m (by omega) hmk]
        exact hleast m (hm.trans hji) hmn
    · rw [hother j hji hjk]
      by_cases hmi : m = i
      · rw [hmi, hself]
        have hup := hs.above (by omega) k hk hkn
        rwa [show i / 2 = j by omega] at hup
      · rw [hother m hmi (by omega)]
        exact hs.least j hj hji m hm hmn
  · intro _ m hm hmn
    rw [hk, hself, hother m (by omega) (by omega)]
    exact hs.least k (by omega) (by omega) m hm hmn

end order

end Svr3
