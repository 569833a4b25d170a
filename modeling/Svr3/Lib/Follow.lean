import Mathlib.Logic.Relation
import Mathlib.Logic.Function.Basic
import Mathlib.Data.Nat.Notation

/-!
# Following a partial function

`next` leads from a point to at most one other. Where following it ends from every point it has no
cycle, and a search along it decides what is reached. A new step from `p` to a point from which
`p` is not reached keeps it so.
-/

namespace Svr3

variable {α : Type*} {next next' : α → Option α} {a b p q t : α}

/-- `next` leads from `a` to `b`. -/
def Leads (next : α → Option α) (a b : α) : Prop := next a = some b

def Reaches (next : α → Option α) : α → α → Prop := Relation.ReflTransGen (Leads next)

/-- Following `next` from `a` ends. -/
inductive Ends (next : α → Option α) : α → Prop
  | intro (a : α) : (∀ b, next a = some b → Ends next b) → Ends next a

/-- The search for `t` along `next`, for at most so many points. -/
def chase [DecidableEq α] (next : α → Option α) (t : α) : ℕ → α → Option Bool
  | 0, _ => none
  | n + 1, a =>
    if a = t then some true
    else match next a with
      | some b => chase next t n b
      | none => some false

theorem reaches_step (hne : a ≠ t) (hab : next a = some b) : Reaches next a t ↔ Reaches next b t := by
  constructor
  · intro h
    rcases h.cases_head with heq | ⟨c, hac, hct⟩
    · exact absurd heq hne
    · have hbc : c = b := Option.some.inj (hac.symm.trans hab)
      exact hbc ▸ hct
  · intro h
    exact h.head hab

theorem not_reaches_stop (hne : a ≠ t) (ha : next a = none) : ¬ Reaches next a t := by
  intro h
  rcases h.cases_head with heq | ⟨c, hac, -⟩
  · exact hne heq
  · exact Option.some_ne_none c (hac.symm.trans ha)

theorem Ends.no_cycle (h : Ends next a) : ¬ Relation.TransGen (Leads next) a a := by
  induction h with
  | intro a _ ih =>
    intro hcycle
    obtain ⟨b, hab, hba⟩ := Relation.TransGen.head'_iff.mp hcycle
    exact ih b hab (Relation.TransGen.tail' hba hab)

/-- Fewer steps end too. -/
theorem Ends.of_le (h : Ends next a) (hle : ∀ a b, next' a = some b → next a = some b) :
    Ends next' a := by
  induction h with
  | intro a _ ih => exact .intro a fun b hb => ih b (hle a b hb)

section Search

variable [DecidableEq α]

theorem chase_eq {n : ℕ} {r : Bool} (h : chase next t n a = some r) :
    r = true ↔ Reaches next a t := by
  induction n generalizing a with
  | zero => cases h
  | succ n ih =>
    unfold chase at h
    by_cases hat : a = t
    · rw [if_pos hat] at h
      cases h
      exact iff_of_true rfl (hat ▸ Relation.ReflTransGen.refl)
    · rw [if_neg hat] at h
      cases hnext : next a with
      | some b =>
        rw [hnext] at h
        rw [reaches_step hat hnext]
        exact ih h
      | none =>
        rw [hnext] at h
        cases h
        exact iff_of_false Bool.false_ne_true (not_reaches_stop hat hnext)

theorem Ends.chase (h : Ends next a) : ∃ n r, ∀ m ≥ n, chase next t m a = some r := by
  induction h with
  | intro a _ ih =>
    by_cases hat : a = t
    · refine ⟨1, true, fun m hm => ?_⟩
      obtain ⟨k, rfl⟩ := Nat.exists_eq_add_of_le' hm
      unfold Svr3.chase
      rw [if_pos hat]
    · cases hnext : next a with
      | some b =>
        obtain ⟨n, r, hr⟩ := ih b hnext
        refine ⟨n + 1, r, fun m hm => ?_⟩
        obtain ⟨k, rfl⟩ := Nat.exists_eq_add_of_le' (Nat.le_trans (Nat.le_add_left 1 n) hm)
        unfold Svr3.chase
        rw [if_neg hat, hnext]
        exact hr k (Nat.le_of_succ_le_succ hm)
      | none =>
        refine ⟨1, false, fun m hm => ?_⟩
        obtain ⟨k, rfl⟩ := Nat.exists_eq_add_of_le' hm
        unfold Svr3.chase
        rw [if_neg hat, hnext]

/-- A step from `p` to a point that does not lead to `p`. -/
theorem Ends.update (h : ∀ a, Ends next a) (hpq : ¬ Reaches next q p) (a : α) :
    Ends (Function.update next p (some q)) a := by
  -- what `q` leads to stays clear of `p`
  have haway (x : α) (hx : Ends next x) (hxp : ¬ Reaches next x p) :
      Ends (Function.update next p (some q)) x := by
    induction hx with
    | intro x _ ih =>
      have hne : x ≠ p := fun heq => hxp (heq ▸ Relation.ReflTransGen.refl)
      refine .intro x fun b hb => ?_
      rw [Function.update_of_ne hne] at hb
      exact ih b hb fun hbp => hxp ((reaches_step hne hb).mpr hbp)
  have hp : Ends (Function.update next p (some q)) p := by
    refine .intro p fun b hb => ?_
    rw [Function.update_self] at hb
    rw [← Option.some.inj hb]
    exact haway q (h q) hpq
  induction h a with
  | intro a _ ih =>
    by_cases hap : a = p
    · exact hap ▸ hp
    · refine .intro a fun b hb => ?_
      rw [Function.update_of_ne hap] at hb
      exact ih b hb

end Search

end Svr3
