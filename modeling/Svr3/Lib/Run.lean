import Mathlib.Logic.Relation
import Mathlib.Logic.Function.Iterate

/-!
# Labelled runs

A component is a step relation `step s a t`: from state `s` the action `a` can lead to `t`.
`Run step s as t` is a run that takes the actions `as` in order. What every step preserves,
every run preserves; what every step simulates, every run simulates. A loop that is given a number
of turns comes to one result at most.
-/

namespace Svr3

open List

variable {σ α τ : Type*} {step : σ → α → σ → Prop}

/-- The runs of a step relation, with the actions they take. -/
inductive Run (step : σ → α → σ → Prop) : σ → List α → σ → Prop
  | nil (s : σ) : Run step s [] s
  | cons {s t u : σ} {a : α} {as : List α} :
      step s a t → Run step t as u → Run step s (a :: as) u

namespace Run

theorem single {s t : σ} {a : α} (h : step s a t) : Run step s [a] t := cons h (nil t)

theorem append {s t u : σ} {as bs : List α} (h : Run step s as t) (h' : Run step t bs u) :
    Run step s (as ++ bs) u := by
  induction h with
  | nil => exact h'
  | cons hs _ ih => exact cons hs (ih h')

theorem split {s u : σ} {as bs : List α} (h : Run step s (as ++ bs) u) :
    ∃ t, Run step s as t ∧ Run step t bs u := by
  induction as generalizing s with
  | nil => exact ⟨s, nil s, h⟩
  | cons a as ih =>
    cases h with
    | cons hs h =>
      obtain ⟨t, h1, h2⟩ := ih h
      exact ⟨t, cons hs h1, h2⟩

theorem snoc {s t u : σ} {as : List α} {a : α} (h : Run step s as t) (h' : step t a u) :
    Run step s (as ++ [a]) u := append h (single h')

/-- An invariant of the steps is an invariant of the runs. -/
theorem invariant {I : σ → Prop} {s t : σ} {as : List α} (h : Run step s as t)
    (hstep : ∀ s a t, I s → step s a t → I t) (hs : I s) : I t := by
  induction h with
  | nil => exact hs
  | cons h1 _ ih => exact ih (hstep _ _ _ hs h1)

/-- An invariant of the steps that looks at the actions so far. -/
theorem history {I : List α → σ → Prop} {s t : σ} {as b : List α} (h : Run step s as t)
    (hstep : ∀ b s a t, I b s → step s a t → I (b ++ [a]) t) (hs : I b s) :
    I (b ++ as) t := by
  induction h generalizing b with
  | nil => rwa [append_nil]
  | @cons s t u a as h1 _ ih =>
    have hnext := ih (hstep _ _ _ _ hs h1)
    rwa [append_assoc, singleton_append] at hnext

/-- A relation that every step carries over to an abstract step, every run carries over to an
abstract run under the same actions. -/
theorem simulates {astep : τ → α → τ → Prop} {R : σ → τ → Prop} {s t : σ} {as : List α}
    (h : Run step s as t) (hstep : ∀ s x a t, R s x → step s a t → ∃ y, astep x a y ∧ R t y)
    {x : τ} (hx : R s x) :
    ∃ y, Run astep x as y ∧ R t y := by
  induction h generalizing x with
  | nil => exact ⟨x, nil x, hx⟩
  | cons h1 _ ih =>
    obtain ⟨y, hy, hR⟩ := hstep _ _ _ _ hx h1
    obtain ⟨z, hz, hRz⟩ := ih hR
    exact ⟨z, cons hy hz, hRz⟩

/-- When one step comes to a good state just if it meets a condition, all states of a run are good just if all
its steps meet the condition. -/
theorem prefix_iff {J I : σ → Prop} {C : σ → α → Prop} {s : σ} (hJ : J s) (hI : I s)
    (hstep : ∀ s a t, J s → step s a t → J t ∧ (I s → (I t ↔ C s a))) (as : List α) :
    (∀ b t, b <+: as → Run step s b t → I t) ↔
      ∀ b a t u, b ++ [a] <+: as → Run step s b t → step t a u → C t a := by
  constructor
  · intro h b a t u hpre ht hu
    have hJt : J t := ht.invariant (fun _ _ _ hj hs => (hstep _ _ _ hj hs).1) hJ
    have hIt := h b t ((prefix_append b [a]).trans hpre) ht
    exact ((hstep t a u hJt hu).2 hIt).mp (h (b ++ [a]) u hpre (ht.snoc hu))
  · intro h b t hpre ht
    induction ht generalizing as with
    | nil => exact hI
    | @cons s s1 t a b h1 ht ih =>
      obtain ⟨as, rfl, hpre'⟩ := cons_prefix_iff.mp hpre
      obtain ⟨hJ1, hiff⟩ := hstep s a s1 hJ h1
      have hI1 : I s1 := (hiff hI).mpr (h [] a s s1 (cons_prefix_cons.mpr ⟨rfl, nil_prefix⟩) (.nil s) h1)
      apply ih hJ1 hI1 as _ hpre'
      intro c x t u hc ht
      exact h (a :: c) x t u (cons_prefix_cons.mpr ⟨rfl, hc⟩) (cons h1 ht)

/-- A run of a stronger step relation is a run of a weaker one. -/
theorem mono {step' : σ → α → σ → Prop} {s t : σ} {as : List α} (h : Run step s as t)
    (hle : ∀ s a t, step s a t → step' s a t) : Run step' s as t := by
  induction h with
  | nil => exact nil _
  | cons h1 _ ih => exact cons (hle _ _ _ h1) ih

/-- Steps that a function takes make a run, whose end can be tested. -/
theorem of_foldlM {f : σ → α → Option σ} {p : σ → Bool} {s : σ} {as : List α}
    (h : (as.foldlM f s).any p = true) :
    ∃ t, Run (fun s a t => f s a = some t) s as t ∧ p t = true := by
  induction as generalizing s with
  | nil => exact ⟨s, nil s, h⟩
  | cons a as ih =>
    rw [foldlM_cons] at h
    cases hf : f s a with
    | none =>
      rw [hf] at h
      exact absurd h nofun
    | some s1 =>
      rw [hf] at h
      obtain ⟨t, ht, hp⟩ := ih h
      exact ⟨t, cons hf ht, hp⟩

end Run

/-! ## Iterations -/

section

variable {f : σ → σ} {I G C : σ → Prop} {s : σ}

end

/-! ## Turns -/

/-- A routine that is given a number of turns comes to the same result with more of them. -/
def Steady (f : ℕ → Option α) : Prop := ∀ n x, f n = some x → f (n + 1) = some x

namespace Steady

variable {f : ℕ → Option α} {m n : ℕ} {x y : α}

theorem le (hf : Steady f) (hn : f n = some x) (hnm : n ≤ m) : f m = some x := by
  induction hnm with
  | refl => exact hn
  | step _ ih => exact hf _ _ ih

theorem eq (hf : Steady f) (hn : f n = some x) (hm : f m = some y) : x = y := by
  have hx := hf.le hn (Nat.le_max_left n m)
  have hy := hf.le hm (Nat.le_max_right n m)
  exact Option.some.inj (hx.symm.trans hy)

end Steady

end Svr3
