import Mathlib.Data.List.Chain

/-!
# Arenas of linked blocks

The blocks of an arena follow each other in memory, and each one points to the next. Neighbours are
merged, a block is cut in two, and new blocks come to the end.
-/

namespace Svr3

open List

variable {ptr ptr' : ℕ → ℕ} {bs pre post : List ℕ} {a b c : ℕ}

/-- The blocks `bs` tile the arena from the first to the last. -/
def Tiles (ptr : ℕ → ℕ) (bs : List ℕ) : Prop := bs.IsChain fun a b => a < b ∧ ptr a = b

namespace Tiles

theorem sorted (h : Tiles ptr bs) : bs.Pairwise (· < ·) :=
  isChain_iff_pairwise.mp (h.imp fun _ _ hab => hab.1)

theorem nodup (h : Tiles ptr bs) : bs.Nodup := h.sorted.imp fun hab => Nat.ne_of_lt hab

theorem next_eq (h : Tiles ptr (pre ++ a :: b :: post)) : ptr a = b ∧ a < b := by
  have hab := (isChain_cons_cons.mp (isChain_append.mp h).2.1).1
  exact ⟨hab.2, hab.1⟩

theorem congr (h : Tiles ptr (bs ++ [c])) (hsame : ∀ x ∈ bs, ptr' x = ptr x) :
    Tiles ptr' (bs ++ [c]) := by
  induction bs with
  | nil => exact .singleton c
  | cons a bs ih =>
    obtain ⟨y, ys, hys⟩ : ∃ y ys, bs ++ [c] = y :: ys :=
      exists_cons_of_ne_nil (append_ne_nil_of_right_ne_nil _ (cons_ne_nil c []))
    have htail : Tiles ptr (bs ++ [c]) := List.IsChain.tail h
    have hrest := ih htail fun x hx => hsame x (mem_cons_of_mem _ hx)
    rw [cons_append, hys] at h ⊢
    rw [hys] at hrest
    obtain ⟨hay, -⟩ := isChain_cons_cons.mp h
    refine isChain_cons_cons.mpr ⟨⟨hay.1, ?_⟩, hrest⟩
    rw [hsame a mem_cons_self]
    exact hay.2

theorem split_iff : Tiles ptr (pre ++ a :: post) ↔ Tiles ptr (pre ++ [a]) ∧ Tiles ptr (a :: post) :=
  isChain_split

theorem before (h : Tiles ptr (pre ++ a :: post)) : ∀ x ∈ pre, x < a := by
  intro x hx
  exact (pairwise_append.mp h.sorted).2.2 x hx a mem_cons_self

theorem behind (h : Tiles ptr (pre ++ a :: post)) : ∀ x ∈ post, a < x := by
  intro x hx
  have htail := (pairwise_append.mp h.sorted).2.1
  exact (pairwise_cons.mp htail).1 x hx

/-- Blocks that are linked as they were, up to the last. -/
theorem relink (h : Tiles ptr (b :: post)) (hsame : ∀ x ∈ b :: post, x ≠ (b :: post).getLast
    (cons_ne_nil b post) → ptr' x = ptr x) : Tiles ptr' (b :: post) := by
  have hcut := dropLast_append_getLast (cons_ne_nil b post)
  rw [← hcut] at h ⊢
  apply h.congr
  intro x hx
  have hnodup := h.nodup
  apply hsame x (hcut ▸ mem_append_left _ hx)
  intro heq
  exact (nodup_append.mp hnodup).2.2 x hx _ (mem_singleton.mpr rfl) heq

/-- The block `b` becomes a part of `a`. -/
theorem merge (h : Tiles ptr (pre ++ a :: b :: c :: post)) (ha : ptr' a = ptr b)
    (hsame : ∀ x, x ≠ a → ptr' x = ptr x) : Tiles ptr' (pre ++ a :: c :: post) := by
  obtain ⟨hleft, hright⟩ := split_iff.mp h
  obtain ⟨hab, hright⟩ := isChain_cons_cons.mp hright
  obtain ⟨hbc, hright⟩ := isChain_cons_cons.mp hright
  refine split_iff.mpr ⟨hleft.congr fun x hx => ?_, isChain_cons_cons.mpr
    ⟨⟨Nat.lt_trans hab.1 hbc.1, ha.trans hbc.2⟩, relink hright fun x hx _ => ?_⟩⟩
  · exact hsame x (Nat.ne_of_lt (h.before x hx))
  · exact hsame x (Nat.ne_of_gt (h.behind x (mem_cons_of_mem _ hx)))

/-- The block `a` is cut at `b`. -/
theorem cut (h : Tiles ptr (pre ++ a :: c :: post)) (hab : a < b) (hbc : b < c) (ha : ptr' a = b)
    (hb : ptr' b = c) (hsame : ∀ x, x ≠ a → x ≠ b → ptr' x = ptr x) :
    Tiles ptr' (pre ++ a :: b :: c :: post) := by
  obtain ⟨hleft, hright⟩ := split_iff.mp h
  obtain ⟨-, hright⟩ := isChain_cons_cons.mp hright
  refine split_iff.mpr ⟨hleft.congr fun x hx => ?_, isChain_cons_cons.mpr ⟨⟨hab, ha⟩,
    isChain_cons_cons.mpr ⟨⟨hbc, hb⟩, relink hright fun x hx _ => ?_⟩⟩⟩
  · have hxa := h.before x hx
    exact hsame x (Nat.ne_of_lt hxa) (Nat.ne_of_lt (Nat.lt_trans hxa hab))
  · have hcx : c ≤ x := by
      rcases mem_cons.mp hx with rfl | hx
      · exact Nat.le_refl x
      · exact Nat.le_of_lt ((pairwise_cons.mp (sorted hright)).1 x hx)
    exact hsame x (by omega) (by omega)

/-- Two blocks come behind the last one. -/
theorem extend (h : Tiles ptr (pre ++ [a])) (hab : a < b) (hbc : b < c) (ha : ptr' a = b)
    (hb : ptr' b = c) (hsame : ∀ x, x < a → ptr' x = ptr x) : Tiles ptr' (pre ++ [a, b, c]) := by
  refine split_iff.mpr ⟨h.congr fun x hx => hsame x (h.before x hx), ?_⟩
  exact .cons_cons ⟨hab, ha⟩ (.cons_cons ⟨hbc, hb⟩ (.singleton c))

/-- Between a block and the next one there is no other. -/
theorem gap (h : Tiles ptr (pre ++ a :: b :: post)) {x : ℕ} (hx : x ∈ pre ++ a :: b :: post) :
    x ≤ a ∨ b ≤ x := by
  rcases mem_append.mp hx with hx | hx
  · exact .inl (Nat.le_of_lt (h.before x hx))
  · rcases mem_cons.mp hx with rfl | hx
    · exact .inl (Nat.le_refl x)
    · rcases mem_cons.mp hx with rfl | hx
      · exact .inr (Nat.le_refl x)
      · rw [← singleton_append, ← append_assoc] at h
        exact .inr (Nat.le_of_lt (h.behind x hx))

/-- A block that is not the last is followed by one. -/
theorem exists_next (h : Tiles ptr (bs ++ [c])) (ha : a ∈ bs) :
    ∃ pre b post, bs ++ [c] = pre ++ a :: b :: post ∧ ptr a = b := by
  obtain ⟨pre, post, rfl⟩ := append_of_mem ha
  obtain ⟨b, ys, hys⟩ : ∃ b ys, post ++ [c] = b :: ys :=
    exists_cons_of_ne_nil (append_ne_nil_of_right_ne_nil _ (cons_ne_nil c []))
  refine ⟨pre, b, ys, by rw [append_assoc, cons_append, hys], ?_⟩
  rw [append_assoc, cons_append, hys] at h
  exact h.next_eq.1

end Tiles

end Svr3
