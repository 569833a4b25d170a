import Mathlib.Data.List.Induction

/-!
# Trees of index blocks

A block holds entries that are blocks again, 0 for none. A path of indices leads from a root to a block.
In a sound forest different paths lead to different blocks, and a new block that is linked in at the end
of one path changes no other one.
-/

namespace Svr3

open List

/-- The block at the end of a path from the block `b` -/
def walk (cell : ℕ → ℕ → ℕ) : ℕ → List ℕ → ℕ
  | b, [] => b
  | b, i :: p => if b = 0 then 0 else walk cell (cell b i) p

section walk

variable {cell cell' : ℕ → ℕ → ℕ}

@[simp] theorem walk_nil (b : ℕ) : walk cell b [] = b := rfl

@[simp] theorem walk_zero (p : List ℕ) : walk cell 0 p = 0 := by
  cases p with
  | nil => rfl
  | cons i p => rfl

theorem walk_cons {b : ℕ} (hb : b ≠ 0) (i : ℕ) (p : List ℕ) :
    walk cell b (i :: p) = walk cell (cell b i) p := if_neg hb

theorem walk_append (b : ℕ) (p q : List ℕ) : walk cell b (p ++ q) = walk cell (walk cell b p) q := by
  induction p generalizing b with
  | nil => rfl
  | cons i p ih =>
    by_cases hb : b = 0
    · rw [hb, walk_zero, walk_zero, walk_zero]
    · rw [cons_append, walk_cons hb, walk_cons hb, ih]

theorem walk_concat (b : ℕ) (p : List ℕ) (i : ℕ) :
    walk cell b (p ++ [i]) = if walk cell b p = 0 then 0 else cell (walk cell b p) i := by
  rw [walk_append]
  rfl

end walk

/-- The shape of a forest: its roots, how long the paths from each are, and how many entries a block has -/
structure Shape where
  roots : ℕ
  depth : ℕ → ℕ
  fan : ℕ

/-- A path within the shape -/
structure Shape.Path (t : Shape) (s : ℕ) (p : List ℕ) : Prop where
  root : s < t.roots
  length : p.length ≤ t.depth s
  index : ∀ i ∈ p, i < t.fan

namespace Shape

variable {t : Shape} {root root' : ℕ → ℕ} {cell cell' : ℕ → ℕ → ℕ} {s s' : ℕ} {p q : List ℕ} {i b : ℕ}

theorem Path.left (h : t.Path s (p ++ q)) : t.Path s p := by
  have hlen := h.length
  rw [length_append] at hlen
  exact ⟨h.root, by omega, fun j hj => h.index j (mem_append_left _ hj)⟩

theorem Path.parent (h : t.Path s (p ++ [i])) : t.Path s p := h.left

theorem Path.last (h : t.Path s (p ++ [i])) : i < t.fan ∧ p.length < t.depth s := by
  have hlen := h.length
  rw [length_append, length_singleton] at hlen
  exact ⟨h.index i (mem_append_right _ mem_cons_self), hlen⟩

/-- Two different paths do not lead to one block. -/
def Sound (t : Shape) (root : ℕ → ℕ) (cell : ℕ → ℕ → ℕ) : Prop :=
  ∀ s p s' q, t.Path s p → t.Path s' q → walk cell (root s) p ≠ 0 →
    walk cell (root s) p = walk cell (root s') q → s = s' ∧ p = q

/-- A block of the forest -/
def Used (t : Shape) (root : ℕ → ℕ) (cell : ℕ → ℕ → ℕ) (b : ℕ) : Prop :=
  b ≠ 0 ∧ ∃ s p, t.Path s p ∧ walk cell (root s) p = b

/-- A block with entries that belong to the forest -/
def Inner (t : Shape) (root : ℕ → ℕ) (cell : ℕ → ℕ → ℕ) (b : ℕ) : Prop :=
  b ≠ 0 ∧ ∃ s p, t.Path s p ∧ p.length < t.depth s ∧ walk cell (root s) p = b

theorem sound_empty (h : ∀ s < t.roots, root s = 0) : t.Sound root cell := by
  intro s p s' q hp hq hne
  rw [h s hp.root, walk_zero] at hne
  exact absurd rfl hne

/-- The entries of the blocks with entries determine the paths. -/
theorem walk_congr (hroot : ∀ s < t.roots, root' s = root s)
    (hcell : ∀ b i, t.Inner root cell b → i < t.fan → cell' b i = cell b i) (hp : t.Path s p) :
    walk cell' (root' s) p = walk cell (root s) p := by
  induction p using List.reverseRecOn with
  | nil => exact hroot s hp.root
  | append_singleton p i ih =>
    rw [walk_concat, walk_concat, ih hp.parent]
    split
    · rfl
    next hne => exact hcell _ _ ⟨hne, s, p, hp.parent, hp.last.2, rfl⟩ hp.last.1

theorem Sound.congr (h : t.Sound root cell) (hroot : ∀ s < t.roots, root' s = root s)
    (hcell : ∀ b i, t.Inner root cell b → i < t.fan → cell' b i = cell b i) : t.Sound root' cell' := by
  intro s p s' q hp hq
  rw [walk_congr hroot hcell hp, walk_congr hroot hcell hq]
  exact h s p s' q hp hq

/-- The block `b` is linked in at the end of the path `p`. -/
structure Grown (t : Shape) (root root' : ℕ → ℕ) (cell cell' : ℕ → ℕ → ℕ) (s : ℕ) (p : List ℕ) (b : ℕ) :
    Prop where
  path : t.Path s p
  free : walk cell (root s) p = 0
  parent : ∀ q i, p = q ++ [i] → walk cell (root s) q ≠ 0
  fresh : ¬t.Used root cell b
  ne_zero : b ≠ 0
  top : ∀ s' < t.roots, root' s' = if s' = s ∧ p = [] then b else root s'
  entry : ∀ s' q i, t.Path s' (q ++ [i]) → walk cell (root s') q ≠ 0 →
    cell' (walk cell (root s') q) i = if s' = s ∧ q ++ [i] = p then b else cell (walk cell (root s') q) i
  empty : ∀ i < t.fan, cell' b i = 0

/-- Only the path to the new block changes. -/
theorem Grown.walk (h : t.Grown root root' cell cell' s p b) (hq : t.Path s' q) :
    walk cell' (root' s') q = if s' = s ∧ q = p then b else walk cell (root s') q := by
  induction q using List.reverseRecOn with
  | nil =>
    rw [walk_nil, walk_nil, h.top s' hq.root]
    simp only [eq_comm]
  | append_singleton q i ih =>
    have hlast := hq.last
    rw [walk_concat, ih hq.parent]
    by_cases heq : s' = s ∧ q = p
    · -- nothing is behind the new block
      have hne : ¬(s' = s ∧ q ++ [i] = p) := by
        intro hcat
        rw [heq.2] at hcat
        exact cons_ne_nil i [] (self_eq_append_right.mp hcat.2.symm)
      rw [if_pos heq, if_neg h.ne_zero, if_neg hne, h.empty i hlast.1, heq.1, heq.2, walk_append, h.free,
        walk_zero]
    · rw [if_neg heq]
      by_cases hzero : Svr3.walk cell (root s') q = 0
      · have hne : ¬(s' = s ∧ q ++ [i] = p) := by
          intro hcat
          rw [hcat.1] at hzero
          exact h.parent q i hcat.2.symm hzero
        rw [if_pos hzero, if_neg hne, walk_append, hzero, walk_zero]
      · rw [if_neg hzero, h.entry s' q i hq hzero, walk_concat, if_neg hzero]

theorem Grown.keeps (h : t.Grown root root' cell cell' s p b) (hq : t.Path s' q)
    (hne : Svr3.walk cell (root s') q ≠ 0) :
    Svr3.walk cell' (root' s') q = Svr3.walk cell (root s') q := by
  rw [h.walk hq]
  split
  next heq =>
    rw [heq.1, heq.2] at hne
    exact absurd h.free hne
  next => rfl

theorem Grown.sound (h : t.Grown root root' cell cell' s p b) (hs : t.Sound root cell) :
    t.Sound root' cell' := by
  intro s₁ p₁ s₂ p₂ h₁ h₂ hne heq
  rw [h.walk h₁] at hne heq
  rw [h.walk h₂] at heq
  by_cases hp₁ : s₁ = s ∧ p₁ = p
  · by_cases hp₂ : s₂ = s ∧ p₂ = p
    · exact ⟨hp₁.1.trans hp₂.1.symm, hp₁.2.trans hp₂.2.symm⟩
    · rw [if_pos hp₁, if_neg hp₂] at heq
      exact absurd ⟨h.ne_zero, s₂, p₂, h₂, heq.symm⟩ h.fresh
  · rw [if_neg hp₁] at hne heq
    by_cases hp₂ : s₂ = s ∧ p₂ = p
    · rw [if_pos hp₂] at heq
      exact absurd ⟨h.ne_zero, s₁, p₁, h₁, heq⟩ h.fresh
    · rw [if_neg hp₂] at heq
      exact hs _ _ _ _ h₁ h₂ hne heq

/-- The blocks of the forest are the old ones and the new one. -/
theorem Grown.used (h : t.Grown root root' cell cell' s p b) {c : ℕ} (hc : t.Used root' cell' c) :
    c = b ∨ t.Used root cell c := by
  obtain ⟨hne, s', q, hq, heq⟩ := hc
  rw [h.walk hq] at heq
  split at heq
  · exact .inl heq.symm
  · exact .inr ⟨hne, s', q, hq, heq⟩

end Shape

end Svr3
