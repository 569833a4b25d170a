import Mathlib.Data.List.Nodup
import Mathlib.Data.List.Perm.Subperm
import Mathlib.Data.List.Range
import Mathlib.GroupTheory.Perm.Basic

/-!
# Sorting a part of a sequence

A sorting algorithm rearranges an interval by permutations that leave the rest alone, and sorts it piece by piece.
-/

namespace Svr3

section within

variable {σ τ : Equiv.Perm ℕ} {a b l m x y : ℕ}

/-- The permutation leaves everything outside of the interval alone. -/
def Within (a l : ℕ) (σ : Equiv.Perm ℕ) : Prop := ∀ k, k < a ∨ l ≤ k → σ k = k

theorem Within.one : Within a l 1 := fun _ _ => rfl

theorem Within.mul (hσ : Within a l σ) (hτ : Within a l τ) : Within a l (σ * τ) := by
  intro k hk
  rw [Equiv.Perm.mul_apply, hτ k hk, hσ k hk]

theorem Within.swap (hx : a ≤ x ∧ x < l) (hy : a ≤ y ∧ y < l) : Within a l (Equiv.swap x y) := by
  intro k hk
  exact Equiv.swap_apply_of_ne_of_ne (by omega) (by omega)

theorem Within.mono (h : Within b m σ) (hab : a ≤ b) (hml : m ≤ l) : Within a l σ :=
  fun k hk => h k (by omega)

theorem Within.mem (h : Within a l σ) (hx : a ≤ x ∧ x < l) : a ≤ σ x ∧ σ x < l := by
  by_contra hout
  have hfix := h (σ x) (by omega)
  rw [σ.injective hfix] at hout
  exact hout hx

theorem Within.perm (h : Within 0 l σ) : ((List.range l).map σ).Perm (List.range l) := by
  have hnodup : ((List.range l).map σ).Nodup := List.Nodup.map σ.injective List.nodup_range
  refine (List.subperm_of_subset hnodup fun x hx => ?_).perm_of_length_le (by simp)
  obtain ⟨k, hk, rfl⟩ := List.mem_map.mp hx
  exact List.mem_range.mpr (h.mem ⟨Nat.zero_le _, List.mem_range.mp hk⟩).2

end within

section rearranged

variable {E : Type*} {f g h : ℕ → E} {a b l m : ℕ}

/-- `g` is `f` with the interval rearranged. -/
def Rearranged (a l : ℕ) (f g : ℕ → E) : Prop := ∃ σ, Within a l σ ∧ ∀ k, g k = f (σ k)

theorem Rearranged.refl (f : ℕ → E) : Rearranged a l f f := ⟨1, .one, fun _ => rfl⟩

theorem Rearranged.trans (hfg : Rearranged a l f g) (hgh : Rearranged a l g h) : Rearranged a l f h := by
  obtain ⟨σ, hσ, hg⟩ := hfg
  obtain ⟨τ, hτ, hh⟩ := hgh
  exact ⟨σ * τ, hσ.mul hτ, fun k => by rw [hh, hg, Equiv.Perm.mul_apply]⟩

theorem Rearranged.mono (hfg : Rearranged b m f g) (hab : a ≤ b) (hml : m ≤ l) : Rearranged a l f g := by
  obtain ⟨σ, hσ, hg⟩ := hfg
  exact ⟨σ, hσ.mono hab hml, hg⟩

theorem Rearranged.outside (hfg : Rearranged a l f g) {k : ℕ} (hk : k < a ∨ l ≤ k) : g k = f k := by
  obtain ⟨σ, hσ, hg⟩ := hfg
  rw [hg, hσ k hk]

/-- What holds of all elements of the interval holds after it has been rearranged. -/
theorem Rearranged.all (hfg : Rearranged a l f g) {P : E → Prop} (hP : ∀ k, a ≤ k → k < l → P (f k)) :
    ∀ k, a ≤ k → k < l → P (g k) := by
  obtain ⟨σ, hσ, hg⟩ := hfg
  intro k h1 h2
  obtain ⟨h3, h4⟩ := hσ.mem ⟨h1, h2⟩
  rw [hg]
  exact hP _ h3 h4

theorem Rearranged.perm (hfg : Rearranged 0 l f g) : ((List.range l).map g).Perm ((List.range l).map f) := by
  obtain ⟨σ, hσ, hg⟩ := hfg
  have hmap : (List.range l).map g = ((List.range l).map σ).map f := by
    rw [List.map_map]
    exact List.map_congr_left fun k _ => hg k
  rw [hmap]
  exact hσ.perm.map f

end rearranged

section sorted

variable {E : Type*} {r : E → E → Prop} {f : ℕ → E} {a l p q : ℕ}

/-- The interval is sorted. -/
def SortedOn (r : E → E → Prop) (f : ℕ → E) (a l : ℕ) : Prop := ∀ x y, a ≤ x → x < y → y < l → r (f x) (f y)

theorem SortedOn.congr {g : ℕ → E} (h : SortedOn r f a l) (hfg : ∀ k, a ≤ k → k < l → g k = f k) :
    SortedOn r g a l := by
  intro x y h1 h2 h3
  rw [hfg x h1 (by omega), hfg y (by omega) h3]
  exact h x y h1 h2 h3

/-- Two sorted pieces, with a band between them that is behind the first and before the second -/
theorem SortedOn.join (hlow : SortedOn r f a p) (hhigh : SortedOn r f q l)
    (hleft : ∀ x y, a ≤ x → x < p → p ≤ y → y < l → r (f x) (f y))
    (hband : ∀ x y, p ≤ x → x < q → x < y → y < l → r (f x) (f y)) : SortedOn r f a l := by
  intro x y h1 h2 h3
  rcases Nat.lt_or_ge y p with hy | hy
  · exact hlow x y h1 h2 hy
  · rcases Nat.lt_or_ge x p with hx | hx
    · exact hleft x y h1 hx hy h3
    · rcases Nat.lt_or_ge x q with hxq | hxq
      · exact hband x y hx hxq h2 h3
      · exact hhigh x y hxq h2 h3

end sorted

/-! ## Comparison functions -/

section comparison

variable {E : Type*} {fc : E → E → ℤ} {x y z : E}

/-- A comparison function that is a total preorder -/
structure Comparison (fc : E → E → ℤ) : Prop where
  flip : ∀ x y, fc x y < 0 ↔ 0 < fc y x
  trans : ∀ x y z, fc x y ≤ 0 → fc y z ≤ 0 → fc x z ≤ 0

theorem Comparison.zero_flip (h : Comparison fc) : fc x y = 0 ↔ fc y x = 0 := by
  have h1 := h.flip x y
  have h2 := h.flip y x
  omega

theorem Comparison.self (h : Comparison fc) (x : E) : fc x x = 0 := by
  have hflip := h.flip x x
  omega

theorem Comparison.lt_of_lt_of_le (h : Comparison fc) (hxy : fc x y < 0) (hyz : fc y z ≤ 0) : fc x z < 0 := by
  have htrans := h.trans y z x hyz
  have h1 := h.flip x y
  have h2 := h.flip z x
  have h3 := h.flip x z
  omega

theorem Comparison.lt_of_le_of_lt (h : Comparison fc) (hxy : fc x y ≤ 0) (hyz : fc y z < 0) : fc x z < 0 := by
  have htrans := fun hzx => h.trans z x y hzx hxy
  have h1 := h.flip y z
  have h2 := h.flip z x
  have h3 := h.flip x z
  omega

theorem Comparison.zero_trans (h : Comparison fc) (hxy : fc x y = 0) (hyz : fc y z = 0) : fc x z = 0 := by
  have h1 := h.trans x y z (Int.le_of_eq hxy) (Int.le_of_eq hyz)
  have h2 := h.trans z y x (Int.le_of_eq (h.zero_flip.mp hyz)) (Int.le_of_eq (h.zero_flip.mp hxy))
  have h3 := h.flip x z
  have h4 := h.flip z x
  omega

end comparison

end Svr3
