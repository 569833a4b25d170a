import Mathlib.Data.Finset.Card
import Mathlib.Data.Fintype.Basic

/-!
# A census of parties

Each of finitely many parties is in a phase. How many of them are in phases of one kind changes with the party
that goes to another phase.
-/

namespace Svr3

open Function

variable {ι κ : Type*} [Fintype ι]

/-- The number of parties in phases of the kind `q` -/
def census (f : ι → κ) (q : κ → Prop) [DecidablePred q] : ℕ := (Finset.univ.filter fun i => q (f i)).card

section

variable {f g : ι → κ} {q : κ → Prop} [DecidablePred q]

theorem census_congr (h : ∀ i, q (f i) ↔ q (g i)) : census f q = census g q := by
  rw [census, census, Finset.filter_congr fun i _ => h i]

theorem census_pos : 0 < census f q ↔ ∃ i, q (f i) := by
  rw [census, Finset.card_pos, Finset.filter_nonempty_iff]
  exact ⟨fun ⟨i, _, h⟩ => ⟨i, h⟩, fun ⟨i, h⟩ => ⟨i, Finset.mem_univ i, h⟩⟩

theorem census_eq_zero : census f q = 0 ↔ ∀ i, ¬ q (f i) := by
  rw [census, Finset.card_eq_zero, Finset.filter_eq_empty_iff]
  exact ⟨fun h i => h (Finset.mem_univ i), fun h i _ => h i⟩

theorem census_le_one : census f q ≤ 1 ↔ ∀ i j, q (f i) → q (f j) → i = j := by
  rw [census, Finset.card_le_one]
  constructor
  · intro h i j hi hj
    exact h i (Finset.mem_filter.mpr ⟨Finset.mem_univ i, hi⟩) j (Finset.mem_filter.mpr ⟨Finset.mem_univ j, hj⟩)
  · intro h i hi j hj
    exact h i j (Finset.mem_filter.mp hi).2 (Finset.mem_filter.mp hj).2

/-- One party goes to the phase `b`. -/
theorem census_update [DecidableEq ι] (p : ι) (b : κ) :
    census (update f p b) q + (if q (f p) then 1 else 0) =
      census f q + if q b then 1 else 0 := by
  have hsplit (f : ι → κ) : census f q =
      ((Finset.univ.erase p).filter fun i => q (f i)).card + if q (f p) then 1 else 0 := by
    rw [census, ← Finset.insert_erase (Finset.mem_univ p), Finset.filter_insert,
      Finset.erase_insert_eq_erase, Finset.erase_idem]
    split
    next =>
      rw [Finset.card_insert_of_notMem]
      intro hin
      exact Finset.notMem_erase p _ (Finset.mem_filter.mp hin).1
    next => rfl
  have hrest : (Finset.univ.erase p).filter (fun i => q (update f p b i)) =
      (Finset.univ.erase p).filter fun i => q (f i) := by
    apply Finset.filter_congr
    intro i hi
    rw [update_of_ne (Finset.ne_of_mem_erase hi)]
  rw [hsplit (update f p b), hsplit f, hrest, update_self]
  omega

end

end Svr3
