import Mathlib.Tactic.Linarith
import Mathlib.Order.CompletePartialOrder

/-!
# Separated lists of extents

A set of natural numbers held as a list of extents `[base, base + size)`. The list is
`Separated` when the extents are non-empty, increasing, and no two of them touch; then every
covered run lies inside one extent, and the first extent that is large enough gives the least
base of a run of the wanted length.
-/

namespace Svr3

open Set

/-- The run of `size` numbers from `base` on. -/
structure Extent where
  base : ℕ
  size : ℕ
deriving DecidableEq, Repr

namespace Extent

/-- One past the last number of the extent. -/
def stop (e : Extent) : ℕ := e.base + e.size

/-- The numbers that the extents of the list cover. -/
def units (l : List Extent) : Set ℕ := {u | ∃ e ∈ l, e.base ≤ u ∧ u < e.stop}

/-- Non-empty extents in increasing order, with a gap after each. -/
def Separated (l : List Extent) : Prop :=
  l.Pairwise (fun e f => e.stop < f.base) ∧ ∀ e ∈ l, 0 < e.size

@[simp] theorem units_nil : units [] = ∅ := by ext u; simp [units]

theorem units_append (l r : List Extent) : units (l ++ r) = units l ∪ units r := by
  ext u
  simp only [units, List.mem_append, mem_ofPred_eq, mem_union, or_and_right, exists_or]

theorem units_cons (e : Extent) (l : List Extent) :
    units (e :: l) = Ico e.base e.stop ∪ units l := by
  ext u
  simp [units, Ico]

theorem units_split (l r : List Extent) (e : Extent) :
    units (l ++ e :: r) = units l ∪ (Ico e.base e.stop ∪ units r) := by
  rw [units_append, units_cons]

theorem separated_nil : Separated [] := ⟨List.Pairwise.nil, by simp⟩

/-- A list is separated around `e` when both sides are, and neither reaches `e`. -/
theorem separated_split {l r : List Extent} {e : Extent} :
    Separated (l ++ e :: r) ↔ Separated l ∧ Separated r ∧ 0 < e.size ∧
      (∀ f ∈ l, f.stop < e.base) ∧ (∀ f ∈ r, e.stop < f.base) := by
  constructor
  · rintro ⟨hp, hs⟩
    rw [List.pairwise_append] at hp
    obtain ⟨hl, hr, hlr⟩ := hp
    rw [List.pairwise_cons] at hr
    exact ⟨⟨hl, fun f hf => hs f (by simp [hf])⟩, ⟨hr.2, fun f hf => hs f (by simp [hf])⟩,
      hs e (by simp), fun f hf => hlr f hf e (by simp), hr.1⟩
  · rintro ⟨⟨hl, hls⟩, ⟨hr, hrs⟩, he, hle, her⟩
    refine ⟨?_, ?_⟩
    · rw [List.pairwise_append]
      refine ⟨hl, List.pairwise_cons.mpr ⟨her, hr⟩, ?_⟩
      intro f hf g hg
      rcases List.mem_cons.mp hg with rfl | hg
      · exact hle f hf
      · have h1 := hle f hf
        have h2 := her g hg
        simp only [stop] at *
        omega
    · intro f hf
      rcases List.mem_append.mp hf with hf | hf
      · exact hls f hf
      · rcases List.mem_cons.mp hf with rfl | hf
        · exact he
        · exact hrs f hf

theorem Separated.sublist {l r : List Extent} (h : Separated r) (hl : l.Sublist r) :
    Separated l :=
  ⟨h.1.sublist hl, fun e he => h.2 e (hl.subset he)⟩

/-- The number just past an extent is not covered. -/
theorem Separated.stop_notMem {l : List Extent} (h : Separated l) {e : Extent} (he : e ∈ l) :
    e.stop ∉ units l := by
  rintro ⟨g, hg, hb, hs⟩
  obtain ⟨a, b, rfl⟩ := List.append_of_mem he
  obtain ⟨-, -, hpos, ha, hb'⟩ := separated_split.mp h
  rcases List.mem_append.mp hg with hg | hg
  · have := ha g hg
    simp only [stop] at *
    omega
  · rcases List.mem_cons.mp hg with rfl | hg
    · exact lt_irrefl _ hs
    · have := hb' g hg
      omega

/-- A covered run that starts inside an extent ends inside it. -/
theorem Separated.run_le {l : List Extent} (h : Separated l) {e : Extent} (he : e ∈ l)
    {b n : ℕ} (hb : b < e.stop) (hn : Ico b (b + n) ⊆ units l) : b + n ≤ e.stop := by
  by_contra hlt
  exact h.stop_notMem he (hn ⟨hb.le, by omega⟩)

/-- First fit: the first extent of at least `n` numbers has the least base of all covered runs
of `n` numbers. -/
theorem Separated.firstFit {l r : List Extent} {e : Extent} (h : Separated (l ++ e :: r))
    {n : ℕ} (hn : 0 < n) (hl : ∀ f ∈ l, f.size < n) (he : n ≤ e.size) :
    IsLeast {b | Ico b (b + n) ⊆ units (l ++ e :: r)} e.base := by
  refine ⟨fun u hu => ⟨e, by simp, hu.1, hu.2.trans_le (by simp only [stop]; omega)⟩, ?_⟩
  intro b hb
  by_contra hlt
  rw [not_le] at hlt
  obtain ⟨f, hf, hfb, hfs⟩ := hb ⟨le_refl b, by omega⟩
  have hstop := h.run_le hf hfs hb
  obtain ⟨-, -, -, -, hr⟩ := separated_split.mp h
  -- an extent that holds `b` lies before `e`, and there all are too short
  rcases List.mem_append.mp hf with hf | hf
  · have := hl f hf
    simp only [stop] at *
    omega
  · rcases List.mem_cons.mp hf with rfl | hf
    · omega
    · have := hr f hf
      simp only [stop] at *
      omega

/-- When every extent is shorter than `n`, no run of `n` numbers is covered. -/
theorem Separated.no_run {l : List Extent} (h : Separated l) {n : ℕ} (hn : 0 < n)
    (hl : ∀ f ∈ l, f.size < n) (b : ℕ) : ¬ Ico b (b + n) ⊆ units l := by
  intro hb
  obtain ⟨f, hf, hfb, hfs⟩ := hb ⟨le_refl b, by omega⟩
  have hstop := h.run_le hf hfs hb
  have := hl f hf
  simp only [stop] at *
  omega

/-- Taking `n` numbers off the front of an extent uncovers exactly these. -/
theorem Separated.units_shrink {l r : List Extent} {e : Extent} (h : Separated (l ++ e :: r))
    {n : ℕ} (he : n ≤ e.size) :
    units (l ++ ⟨e.base + n, e.size - n⟩ :: r) =
      units (l ++ e :: r) \ Ico e.base (e.base + n) := by
  obtain ⟨-, -, -, hl, hr⟩ := separated_split.mp h
  ext u
  simp only [units_split, mem_union, mem_sdiff, mem_Ico, stop]
  constructor
  · rintro (⟨f, hf, h1, h2⟩ | h1 | ⟨f, hf, h1, h2⟩)
    · have := hl f hf
      exact ⟨Or.inl ⟨f, hf, h1, h2⟩, by omega⟩
    · exact ⟨Or.inr (Or.inl (by omega)), by omega⟩
    · have := hr f hf
      simp only [stop] at this
      exact ⟨Or.inr (Or.inr ⟨f, hf, h1, h2⟩), by omega⟩
  · rintro ⟨h1 | h1 | h1, h2⟩
    · exact Or.inl h1
    · exact Or.inr (Or.inl (by omega))
    · exact Or.inr (Or.inr h1)

theorem Separated.shrink {l r : List Extent} {e : Extent} (h : Separated (l ++ e :: r))
    {n : ℕ} (he : n < e.size) : Separated (l ++ ⟨e.base + n, e.size - n⟩ :: r) := by
  obtain ⟨h1, h2, h3, hl, hr⟩ := separated_split.mp h
  refine separated_split.mpr ⟨h1, h2, by simp only; omega, ?_, ?_⟩
  · intro f hf
    have := hl f hf
    simp only
    omega
  · intro f hf
    have := hr f hf
    simp only [stop] at *
    omega

/-- Removing an extent uncovers exactly its numbers. -/
theorem Separated.units_remove {l r : List Extent} {e : Extent} (h : Separated (l ++ e :: r)) :
    units (l ++ r) = units (l ++ e :: r) \ Ico e.base e.stop := by
  have h1 := h.units_shrink (le_refl e.size)
  rw [units_split] at h1
  have h2 : Ico (Extent.mk (e.base + e.size) (e.size - e.size)).base
      (Extent.mk (e.base + e.size) (e.size - e.size)).stop = ∅ := by
    simp [stop]
  rw [h2, empty_union, ← units_append] at h1
  exact h1

/-- Either every extent is shorter than `n`, or there is a first one that is not. -/
theorem exists_firstFit (n : ℕ) (es : List Extent) :
    (∀ f ∈ es, f.size < n) ∨
      ∃ l e r, es = l ++ e :: r ∧ (∀ f ∈ l, f.size < n) ∧ n ≤ e.size := by
  induction es with
  | nil => left; simp
  | cons e es ih =>
    by_cases he : n ≤ e.size
    · exact Or.inr ⟨[], e, es, rfl, by simp, he⟩
    · rcases ih with ih | ⟨l, f, r, rfl, hl, hf⟩
      · left
        intro f hf
        rcases List.mem_cons.mp hf with rfl | hf
        · omega
        · exact ih f hf
      · refine Or.inr ⟨e :: l, f, r, rfl, ?_, hf⟩
        intro g hg
        rcases List.mem_cons.mp hg with rfl | hg
        · omega
        · exact hl g hg

/-- An uncovered run has its place between the extents that end before it and those that start
after it. -/
theorem Separated.exists_place {es : List Extent} (h : Separated es) {a n : ℕ} (hn : 0 < n)
    (hd : Disjoint (Ico a (a + n)) (units es)) :
    ∃ l r, es = l ++ r ∧ (∀ f ∈ l, f.base ≤ a ∧ f.stop ≤ a) ∧
      ∀ f ∈ r, a < f.base ∧ a + n ≤ f.base := by
  have hout : ∀ f ∈ es, f.stop ≤ a ∨ a + n ≤ f.base := by
    intro f hf
    by_contra! hc
    have hpos := h.2 f hf
    simp only [stop] at hc
    -- the larger of the two bases would be covered twice
    have hin : max a f.base ∈ Ico a (a + n) := by
      simp only [mem_Ico, le_sup_left, sup_lt_iff, true_and]
      omega
    refine Set.disjoint_left.mp hd hin ⟨f, hf, le_max_right _ _, ?_⟩
    simp only [stop, sup_lt_iff]
    omega
  clear hd
  induction es with
  | nil => exact ⟨[], [], rfl, by simp, by simp⟩
  | cons e es ih =>
    obtain ⟨-, hs, hpos, -, he⟩ := separated_split (l := []).mp h
    rcases hout e (by simp) with h1 | h1
    · obtain ⟨l, r, rfl, hl, hr⟩ := ih hs fun f hf => hout f (by simp [hf])
      refine ⟨e :: l, r, rfl, ?_, hr⟩
      intro f hf
      rcases List.mem_cons.mp hf with rfl | hf
      · simp only [stop] at *
        omega
      · exact hl f hf
    · refine ⟨[], e :: es, rfl, by simp, ?_⟩
      intro f hf
      rcases List.mem_cons.mp hf with rfl | hf
      · omega
      · have := he f hf
        simp only [stop] at this
        omega

end Extent

end Svr3
