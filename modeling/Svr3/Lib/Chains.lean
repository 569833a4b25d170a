import Mathlib.Data.List.Nodup

/-!
# Hash chains

Objects lie on chains, each object on the chain of its home. What goes onto a chain after a search
that found nothing with its key keeps the keys apart.
-/

namespace Svr3

open Function

variable {C I K : Type*}

/-- The objects of each chain. -/
abbrev Chains (C I : Type*) := C → List I

namespace Chains

/-- `x` is taken off the chain it is on. -/
def remove [DecidableEq I] (x : I) (ch : Chains C I) : Chains C I := fun c => (ch c).erase x

/-- `x` comes to the front of chain `c`. -/
def insert [DecidableEq C] (x : I) (c : C) (ch : Chains C I) : Chains C I := update ch c (x :: ch c)

/-- `x` is on a chain. -/
def On (ch : Chains C I) (x : I) : Prop := ∃ c, x ∈ ch c

/-- No object is twice on a chain, or on a chain that is not its home. -/
structure Placed (home : I → C) (ch : Chains C I) : Prop where
  nodup : ∀ c, (ch c).Nodup
  home : ∀ c x, x ∈ ch c → c = home x

/-- No two objects on the chains have the same key, apart from those without a key. -/
def Apart (key : I → Option K) (ch : Chains C I) : Prop :=
  ∀ x y, ch.On x → ch.On y → key x = key y → key x ≠ none → x = y

variable {home home' : I → C} {key key' : I → Option K} {ch : Chains C I} {x y : I} {c c' : C}

theorem mem_insert [DecidableEq C] : y ∈ ch.insert x c c' ↔ c' = c ∧ y = x ∨ y ∈ ch c' := by
  unfold insert
  by_cases h : c' = c
  · rw [h, update_self, List.mem_cons]
    simp
  · rw [update_of_ne h]
    simp [h]

theorem on_insert [DecidableEq C] : (ch.insert x c).On y ↔ y = x ∨ ch.On y := by
  unfold On
  simp only [mem_insert]
  constructor
  · rintro ⟨c', ⟨-, rfl⟩ | h⟩
    · exact .inl rfl
    · exact .inr ⟨c', h⟩
  · rintro (rfl | ⟨c', h⟩)
    · exact ⟨c, .inl ⟨rfl, rfl⟩⟩
    · exact ⟨c', .inr h⟩

theorem Placed.mem_remove [DecidableEq I] (h : Placed home ch) : y ∈ ch.remove x c ↔ y ≠ x ∧ y ∈ ch c :=
  (h.nodup c).mem_erase_iff

theorem Placed.on_remove [DecidableEq I] (h : Placed home ch) : (ch.remove x).On y ↔ y ≠ x ∧ ch.On y := by
  unfold On
  simp only [h.mem_remove]
  exact exists_and_left

theorem Placed.remove [DecidableEq I] (h : Placed home ch) (x : I) : Placed home (ch.remove x) := by
  refine ⟨fun c => (h.nodup c).erase x, fun c y hy => ?_⟩
  exact h.home c y (h.mem_remove.mp hy).2

theorem Placed.insert [DecidableEq C] (h : Placed home ch) (hx : ¬ ch.On x) :
    Placed home (ch.insert x (home x)) := by
  refine ⟨fun c => ?_, fun c y hy => ?_⟩
  · unfold Chains.insert
    by_cases hc : c = home x
    · rw [hc, update_self]
      exact List.nodup_cons.mpr ⟨fun hin => hx ⟨_, hin⟩, h.nodup _⟩
    · rw [update_of_ne hc]
      exact h.nodup c
  · rcases mem_insert.mp hy with ⟨hc, hyx⟩ | hy
    · rw [hc, hyx]
    · exact h.home c y hy

/-- Homes may change for objects that are on no chain. -/
theorem Placed.congr (h : Placed home ch) (hh : ∀ y, ch.On y → home' y = home y) :
    Placed home' ch := by
  refine ⟨h.nodup, fun c y hy => ?_⟩
  rw [hh y ⟨c, hy⟩]
  exact h.home c y hy

/-- Keys may go, and change for objects that are on no chain. -/
theorem Apart.congr {ch' : Chains C I} (h : Apart key ch) (hon : ∀ y, ch'.On y → ch.On y)
    (hk : ∀ y, ch'.On y → key' y = key y ∨ key' y = none) : Apart key' ch' := by
  intro y z hy hz heq hne
  have hy' := (hk y hy).resolve_right hne
  have hz' := (hk z hz).resolve_right (heq ▸ hne)
  exact h y z (hon y hy) (hon z hz) (hy' ▸ hz' ▸ heq) (hy' ▸ hne)

/-- One object more on the chains, with a key that no other one has. -/
theorem Apart.add {ch' : Chains C I} (h : Apart key ch) (hon : ∀ y, ch'.On y → y = x ∨ ch.On y)
    (hx : ∀ y, ch.On y → y ≠ x → key y ≠ key x) : Apart key ch' := by
  intro y z hy hz heq hne
  by_cases hyx : y = x
  · by_cases hzx : z = x
    · exact hyx.trans hzx.symm
    · exact absurd (heq.symm.trans (congrArg key hyx)) (hx z ((hon z hz).resolve_left hzx) hzx)
  · by_cases hzx : z = x
    · exact absurd (heq.trans (congrArg key hzx)) (hx y ((hon y hy).resolve_left hyx) hyx)
    · exact h y z ((hon y hy).resolve_left hyx) ((hon z hz).resolve_left hzx) heq hne

end Chains

end Svr3
