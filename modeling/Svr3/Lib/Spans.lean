import Mathlib.Order.Interval.Set.Disjoint
import Mathlib.Order.CompletePartialOrder

/-!
# Lists of spans in order

Half-open ranges that follow one another in a list, as the parts of an address space do: each may be
empty, and none begins before the end of one that comes earlier.
-/

namespace Svr3

open List

/-- The range from `lo` up to `hi`. -/
structure Span (α : Type*) where
  lo : α
  hi : α

variable {α : Type*} [LinearOrder α]

/-- The ranges of the list do not overlap, and come in order. -/
structure Spaced (l : List (Span α)) : Prop where
  ordered : ∀ a ∈ l, a.lo ≤ a.hi
  apart : l.Pairwise fun a b => a.hi ≤ b.lo

namespace Spaced

theorem nil : Spaced ([] : List (Span α)) := ⟨by simp, List.Pairwise.nil⟩

theorem sublist {l l' : List (Span α)} (h : Spaced l) (hs : l'.Sublist l) : Spaced l' :=
  ⟨fun a ha => h.ordered a (hs.subset ha), h.apart.sublist hs⟩

theorem sorted {l : List (Span α)} (h : Spaced l) : l.Pairwise fun a b => a.lo ≤ b.lo := by
  apply h.apart.imp_of_mem
  intro a b ha _ hab
  exact (h.ordered a ha).trans hab

theorem disjoint {l : List (Span α)} (h : Spaced l) :
    l.Pairwise fun a b => Disjoint (Set.Ico a.lo a.hi) (Set.Ico b.lo b.hi) := by
  apply h.apart.imp
  intro a b hab
  rw [Set.Ico_disjoint_Ico]
  exact (min_le_left _ _).trans (hab.trans (le_max_right _ _))

/-- A span in the middle of a list. -/
theorem split {l r : List (Span α)} {a : Span α} :
    Spaced (l ++ a :: r) ↔ Spaced l ∧ Spaced r ∧ a.lo ≤ a.hi ∧
      (∀ b ∈ l, b.hi ≤ a.lo) ∧ ∀ b ∈ r, a.hi ≤ b.lo := by
  constructor
  · intro h
    have happ := pairwise_append.mp h.apart
    have hcons := pairwise_cons.mp happ.2.1
    refine ⟨⟨fun b hb => h.ordered b (by simp [hb]), happ.1⟩,
      ⟨fun b hb => h.ordered b (by simp [hb]), hcons.2⟩, h.ordered a (by simp), fun b hb => ?_,
      hcons.1⟩
    exact happ.2.2 b hb a mem_cons_self
  · intro ⟨hl, hr, ha, hbelow, habove⟩
    constructor
    · intro b hb
      rcases mem_append.mp hb with hb | hb
      · exact hl.ordered b hb
      · rcases mem_cons.mp hb with hb | hb
        · rw [hb]
          exact ha
        · exact hr.ordered b hb
    · rw [pairwise_append]
      refine ⟨hl.apart, pairwise_cons.mpr ⟨habove, hr.apart⟩, fun b hb d hd => ?_⟩
      rcases mem_cons.mp hd with hd | hd
      · rw [hd]
        exact hbelow b hb
      · exact ((hbelow b hb).trans ha).trans (habove d hd)

/-- What is above the last span is above all. -/
theorem le_of_getLast {l : List (Span α)} (h : Spaced l) {x : α}
    (hx : ∀ b, l.getLast? = some b → b.hi ≤ x) (b : Span α) (hb : b ∈ l) : b.hi ≤ x := by
  rcases eq_nil_or_concat l with hl | ⟨l', a, hl⟩
  · rw [hl] at hb
    exact absurd hb (by simp)
  · rw [concat_eq_append] at hl
    rw [hl] at h hb hx
    have hsplit := split.mp h
    have ha : a.hi ≤ x := hx a (by simp)
    rcases mem_append.mp hb with hb | hb
    · exact ((hsplit.2.2.2.1 b hb).trans hsplit.2.2.1).trans ha
    · rw [mem_singleton.mp hb]
      exact ha

/-- What is below the first span is below all. -/
theorem le_of_head {l : List (Span α)} (h : Spaced l) {x : α}
    (hx : ∀ b, l.head? = some b → x ≤ b.lo) (b : Span α) (hb : b ∈ l) : x ≤ b.lo := by
  cases l with
  | nil => exact absurd hb (by simp)
  | cons a l =>
    have hsorted := pairwise_cons.mp h.sorted
    have ha : x ≤ a.lo := hx a rfl
    rcases mem_cons.mp hb with hb | hb
    · rw [hb]
      exact ha
    · exact ha.trans (hsorted.1 b hb)

/-- Spans that keep their start and become smaller. -/
theorem shrink {β : Type*} {l : List β} {f g : β → Span α} (h : Spaced (l.map f))
    (hlo : ∀ b ∈ l, (g b).lo = (f b).lo) (hhi : ∀ b ∈ l, (g b).hi ≤ (f b).hi)
    (hg : ∀ b ∈ l, (g b).lo ≤ (g b).hi) : Spaced (l.map g) := by
  constructor
  · intro a ha
    obtain ⟨b, hb, hba⟩ := mem_map.mp ha
    rw [← hba]
    exact hg b hb
  · rw [pairwise_map]
    apply (pairwise_map.mp h.apart).imp_of_mem
    intro a b ha hb hab
    rw [hlo b hb]
    exact (hhi a ha).trans hab

end Spaced

end Svr3
