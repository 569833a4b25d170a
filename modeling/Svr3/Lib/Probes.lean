import Mathlib.Data.Finset.Card
import Mathlib.Data.Nat.ModEq
import Mathlib.Tactic.Ring.Basic

/-!
# Open addressing

A key has a first slot and a step that is coprime to the number of slots, so that it comes to every slot. An
entry is in the first slot of its key that was empty when it came.
-/

namespace Svr3

open Function

/-- The slot that is looked at after `k` steps of `c` from `h`, of `n` slots -/
def probe (h c n k : ℕ) : ℕ := (h + k * c) % n

variable {h c n j k : ℕ}

section slots

variable {K E : Type*} {key : E → K} {first : K → ℕ} {step : K → ℕ} {slots : ℕ → Option E} {x : K} {e e' : E}

/-- The first `k` slots of the key `x` have entries with other keys. -/
def Passes (key : E → K) (first step : K → ℕ) (n : ℕ) (slots : ℕ → Option E) (x : K) (k : ℕ) : Prop :=
  ∀ i < k, ∃ e, slots (probe (first x) (step x) n i) = some e ∧ key e ≠ x

/-- Each entry is where its key comes to past other keys. -/
def Probed (key : E → K) (first step : K → ℕ) (n : ℕ) (slots : ℕ → Option E) : Prop :=
  ∀ j e, slots j = some e → ∃ k, probe (first (key e)) (step (key e)) n k = j ∧
    Passes key first step n slots (key e) k

theorem Passes.snoc (h : Passes key first step n slots x k)
    (hk : slots (probe (first x) (step x) n k) = some e) (hne : key e ≠ x) :
    Passes key first step n slots x (k + 1) := by
  intro i hi
  rcases Nat.lt_succ_iff_lt_or_eq.mp hi with hlt | rfl
  · exact h i hlt
  · exact ⟨e, hk, hne⟩

/-- Behind the slots that a key passes, an empty one means that no entry has this key. -/
theorem Probed.absent (hs : Probed key first step n slots) (hx : Passes key first step n slots x k)
    (hempty : slots (probe (first x) (step x) n k) = none) (hj : slots j = some e) : key e ≠ x := by
  rintro rfl
  obtain ⟨i, rfl, hi⟩ := hs j e hj
  rcases Nat.lt_trichotomy i k with hlt | rfl | hgt
  · obtain ⟨e', he', hne⟩ := hx i hlt
    exact hne (Option.some.inj (he'.symm.trans hj) ▸ rfl)
  · exact absurd (hempty.symm.trans hj) nofun
  · obtain ⟨e', he', -⟩ := hi k hgt
    exact absurd (hempty.symm.trans he') nofun

/-- No two slots have entries with one key. -/
theorem Probed.unique (hs : Probed key first step n slots) (hj : slots j = some e) {i : ℕ}
    (hi : slots i = some e') (hkey : key e = key e') : i = j := by
  obtain ⟨a, rfl, ha⟩ := hs j e hj
  obtain ⟨b, rfl, hb⟩ := hs i e' hi
  rw [hkey] at ha hj
  rcases Nat.lt_trichotomy a b with hlt | rfl | hgt
  · obtain ⟨d, hd, hne⟩ := hb a hlt
    exact absurd (Option.some.inj (hd.symm.trans hj) ▸ hkey) hne
  · rw [hkey]
  · obtain ⟨d, hd, hne⟩ := ha b hgt
    exact absurd (Option.some.inj (hd.symm.trans hi) ▸ rfl) hne

/-- A new entry comes to the first empty slot of its key. -/
theorem Probed.insert (hs : Probed key first step n slots) (hx : Passes key first step n slots (key e) k)
    (hempty : slots (probe (first (key e)) (step (key e)) n k) = none) :
    Probed key first step n (update slots (probe (first (key e)) (step (key e)) n k) (some e)) := by
  have hold {y : K} {m : ℕ} (hy : Passes key first step n slots y m) : Passes key first step n
      (update slots (probe (first (key e)) (step (key e)) n k) (some e)) y m := by
    intro i hi
    obtain ⟨d, hd, hne⟩ := hy i hi
    refine ⟨d, ?_, hne⟩
    rw [update_of_ne _ _ _]
    · exact hd
    · intro heq
      rw [heq, hempty] at hd
      exact absurd hd nofun
  intro j d hj
  by_cases hslot : j = probe (first (key e)) (step (key e)) n k
  · rw [hslot, update_self] at hj
    obtain rfl := Option.some.inj hj
    exact ⟨k, hslot.symm, hold hx⟩
  · rw [update_of_ne hslot] at hj
    obtain ⟨m, hm, hpass⟩ := hs j d hj
    exact ⟨m, hm, hold hpass⟩

end slots

end Svr3
