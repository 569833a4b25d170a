import Mathlib.Data.List.Chain
import Mathlib.Data.List.Nodup

/-!
# Circular lists in a memory

The nodes of a ring follow each other along `next`, and precede each other along `prev`; the last one is
followed by the first. A ring is turned, gets a new first node, and loses a node.
-/

namespace Svr3

open Function List

variable {α : Type*} {next prev next' prev' : α → α} {xs ys pre post : List α} {x a : α}

/-- `xs` are the nodes of a ring, from its first. -/
def Ring (next prev : α → α) (xs : List α) : Prop :=
  xs.Nodup ∧ (xs ++ xs.head?.toList).IsChain fun x y => next x = y ∧ prev y = x

namespace Ring

theorem nodup (h : Ring next prev xs) : xs.Nodup := h.1

theorem singleton (hnext : next x = x) (hprev : prev x = x) : Ring next prev [x] :=
  ⟨nodup_singleton x, .cons_cons ⟨hnext, hprev⟩ (.singleton x)⟩

/-- A relation along a list, where another one holds of neighbours. -/
theorem chain_congr {R S : α → α → Prop} (h : xs.IsChain R)
    (hsame : ∀ l₁ u v l₂, xs = l₁ ++ u :: v :: l₂ → R u v → S u v) : xs.IsChain S := by
  rw [isChain_iff_forall_rel_of_append_cons_cons] at h ⊢
  intro u v l₁ l₂ hxs
  exact hsame l₁ u v l₂ hxs (h hxs)

theorem congr (h : Ring next prev xs) (hnext : ∀ x ∈ xs, next' x = next x)
    (hprev : ∀ x ∈ xs, prev' x = prev x) : Ring next' prev' xs := by
  refine ⟨h.1, chain_congr h.2 fun l₁ u v l₂ hxs huv => ?_⟩
  have hall : ∀ y ∈ xs ++ xs.head?.toList, y ∈ xs := by
    intro y hy
    rcases mem_append.mp hy with hy | hy
    · exact hy
    · exact mem_of_mem_head? (Option.mem_toList.mp hy)
  have hu : u ∈ xs := hall u (hxs ▸ by simp)
  have hv : v ∈ xs := hall v (hxs ▸ by simp)
  rw [hnext u hu, hprev v hv]
  exact huv

/-- The first node is turned to the end. -/
theorem rotate (h : Ring next prev (x :: xs)) :
    Ring next prev (xs ++ [x]) ∧ (xs ++ [x]).head? = some (next x) := by
  obtain ⟨hnodup, hchain⟩ := h
  rw [List.head?_cons, Option.toList_some, cons_append] at hchain
  obtain ⟨y, ys, hys⟩ : ∃ y ys, xs ++ [x] = y :: ys :=
    exists_cons_of_ne_nil (append_ne_nil_of_right_ne_nil _ (cons_ne_nil x []))
  rw [hys] at hchain
  obtain ⟨hxy, htail⟩ := isChain_cons_cons.mp hchain
  rw [hys, List.head?_cons, hxy.1]
  refine ⟨⟨?_, ?_⟩, rfl⟩
  · rw [← hys]
    exact (perm_append_singleton x xs).nodup_iff.mpr hnodup
  · rw [List.head?_cons, Option.toList_some, ← hys, append_assoc]
    rw [← hys] at htail
    exact isChain_split.mpr ⟨htail, .cons_cons hxy (.singleton y)⟩

/-- The last node is before the first. -/
theorem prev_first (h : Ring next prev (a :: xs)) :
    ∃ ys, a :: xs = ys ++ [prev a] ∧ next (prev a) = a := by
  obtain ⟨-, hchain⟩ := h
  obtain ⟨ys, z, hz⟩ := eq_nil_or_concat (a :: xs) |>.resolve_left (cons_ne_nil a xs)
  rw [concat_eq_append] at hz
  rw [List.head?_cons, Option.toList_some, hz, append_assoc, singleton_append] at hchain
  have hza := (isChain_cons_cons.mp (isChain_append.mp hchain).2.1).1
  exact ⟨ys, by rw [hz, hza.2], by rw [hza.2, hza.1]⟩

/-- The first of a list is not the second of two neighbours. -/
theorem ne_first {l₁ l₂ : List α} {u v : α} (hnodup : (a :: xs).Nodup)
    (h : a :: xs = l₁ ++ u :: v :: l₂) : v ≠ a := by
  intro heq
  cases l₁ with
  | nil =>
    have hxs := (List.cons.inj h).2
    exact (nodup_cons.mp hnodup).1 (hxs ▸ heq ▸ mem_cons_self)
  | cons w l₁ =>
    have hxs := (List.cons.inj h).2
    apply (nodup_cons.mp hnodup).1
    rw [hxs, ← heq]
    exact mem_append_right _ (mem_cons_of_mem _ mem_cons_self)

/-- The last of a list is not the first of two neighbours. -/
theorem ne_last {l₁ l₂ : List α} {u v : α} (hnodup : (xs ++ [a]).Nodup)
    (h : xs ++ [a] = l₁ ++ u :: v :: l₂) : u ≠ a := by
  intro heq
  have hend := congrArg List.getLast? h
  rw [List.getLast?_concat, List.getLast?_append_cons, List.getLast?_cons_cons] at hend
  rw [h] at hnodup
  have htail := (nodup_cons.mp (nodup_append.mp hnodup).2.1).1
  exact htail (heq ▸ mem_of_getLast? hend.symm)

/-- `x` becomes the first node, before `a`. -/
theorem insert [DecidableEq α] (h : Ring next prev (a :: xs)) (hx : x ∉ a :: xs) :
    Ring (update (update next x a) (prev a) x)
      (update (update prev x (prev a)) a x) (x :: a :: xs) := by
  obtain ⟨ys, hys, -⟩ := h.prev_first
  have hlast : prev a ∈ a :: xs := hys ▸ mem_append_right _ (mem_singleton.mpr rfl)
  have hxlast : x ≠ prev a := fun heq => hx (heq ▸ hlast)
  have hxa : x ≠ a := fun heq => hx (heq ▸ mem_cons_self)
  refine ⟨nodup_cons.mpr ⟨hx, h.1⟩, ?_⟩
  rw [List.head?_cons, Option.toList_some, cons_append, cons_append, isChain_cons_cons]
  refine ⟨⟨?_, update_self _ _ _⟩, ?_⟩
  · rw [update_of_ne hxlast, update_self]
  have hinner : (a :: xs).IsChain fun x y => next x = y ∧ prev y = x :=
    (isChain_append.mp h.2).1
  rw [← cons_append, isChain_append]
  refine ⟨chain_congr hinner fun l₁ u v l₂ hl huv => ?_, .singleton x, ?_⟩
  · have hmem : u ∈ a :: xs ∧ v ∈ a :: xs := by
      rw [hl]
      simp
    have hu : u ≠ prev a := ne_last (hys ▸ h.1) (hys.symm.trans hl)
    have hv : v ≠ a := ne_first h.1 hl
    rw [update_of_ne hu, update_of_ne (ne_of_mem_of_not_mem hmem.1 hx),
      update_of_ne hv, update_of_ne (ne_of_mem_of_not_mem hmem.2 hx)]
    exact huv
  · intro u hu v hv
    have hup : u = prev a := by
      rw [hys, List.getLast?_concat] at hu
      exact (Option.mem_some.mp hu).symm
    have hvx : v = x := (Option.mem_some.mp hv).symm
    rw [hup, hvx, update_self, update_of_ne hxa, update_self]
    exact ⟨rfl, rfl⟩

/-- A node behind the first does not follow itself. -/
theorem next_ne (h : Ring next prev (a :: (pre ++ x :: post))) : next x ≠ x := by
  obtain ⟨hnodup, hchain⟩ := h
  rw [List.head?_cons, Option.toList_some, cons_append, append_assoc, cons_append,
    ← cons_append] at hchain
  obtain ⟨y, ws, hy⟩ : ∃ y ws, post ++ [a] = y :: ws :=
    exists_cons_of_ne_nil (append_ne_nil_of_right_ne_nil _ (cons_ne_nil a []))
  rw [hy] at hchain
  have hxy := (isChain_cons_cons.mp (isChain_append.mp hchain).2.1).1.1
  have hmem : y ∈ post ++ [a] := hy ▸ mem_cons_self
  have hdis := nodup_cons.mp hnodup
  intro hx
  rw [hx] at hxy
  rcases mem_append.mp hmem with hp | ha
  · exact (nodup_cons.mp (nodup_append.mp hdis.2).2.1).1 (hxy ▸ hp)
  · rw [hxy, mem_singleton.mp ha] at hdis
    exact hdis.1 (mem_append_right _ mem_cons_self)

/-- A node behind the first is taken out. -/
theorem remove [DecidableEq α] (h : Ring next prev (a :: (pre ++ x :: post))) :
    Ring (update next (prev x) (next x)) (update prev (next x) (prev x))
      (a :: (pre ++ post)) := by
  obtain ⟨hnodup, hchain⟩ := h
  rw [List.head?_cons, Option.toList_some, cons_append, append_assoc] at hchain
  obtain ⟨us, z, hz⟩ := eq_nil_or_concat (a :: pre) |>.resolve_left (cons_ne_nil a pre)
  obtain ⟨y, ws, hy⟩ : ∃ y ws, post ++ [a] = y :: ws :=
    exists_cons_of_ne_nil (append_ne_nil_of_right_ne_nil _ (cons_ne_nil a []))
  rw [concat_eq_append] at hz
  rw [cons_append, hy, ← cons_append, hz, append_assoc, singleton_append] at hchain
  obtain ⟨hleft, hright⟩ := isChain_split.mp hchain
  obtain ⟨⟨-, hzx⟩, hright⟩ := isChain_cons_cons.mp hright
  obtain ⟨⟨hxy, -⟩, hright⟩ := isChain_cons_cons.mp hright
  rw [hzx, hxy]
  rw [← cons_append] at hnodup
  have hdis := (nodup_append.mp hnodup).2.2
  have hpost := (nodup_cons.mp (nodup_append.mp hnodup).2.1)
  have hpre := (nodup_append.mp hnodup).1
  refine ⟨?_, ?_⟩
  · rw [← cons_append]
    exact hnodup.sublist ((List.Sublist.refl _).append (sublist_cons_self x post))
  · rw [List.head?_cons, Option.toList_some, cons_append, append_assoc, hy, ← cons_append,
      hz, append_assoc, singleton_append]
    apply isChain_split.mpr
    refine ⟨chain_congr hleft fun l₁ u v l₂ hl huv => ?_, isChain_cons_cons.mpr
      ⟨⟨update_self _ _ _, update_self _ _ _⟩,
        chain_congr hright fun l₁ u v l₂ hl huv => ?_⟩⟩
    · have hv : v ≠ y := by
        intro heq
        have hvpre : v ∈ pre := by
          rcases mem_cons.mp (show v ∈ a :: pre by rw [hz, hl]; simp) with hva | hv
          · exact absurd hva (ne_first hpre (hz.trans hl))
          · exact hv
        have hy' : y ∈ post ++ [a] := hy ▸ mem_cons_self
        rcases mem_append.mp hy' with hyp | hya
        · exact hdis v (mem_cons_of_mem _ hvpre) y (mem_cons_of_mem _ hyp) heq
        · rw [heq, mem_singleton.mp hya] at hvpre
          exact (nodup_cons.mp hpre).1 hvpre
      rw [update_of_ne (ne_last (hz ▸ hpre) hl), update_of_ne hv]
      exact huv
    · have hpa : (post ++ [a]).Nodup := by
        refine nodup_append.mpr ⟨hpost.2, nodup_singleton a, fun w hw b hb => ?_⟩
        rw [mem_singleton.mp hb]
        exact (hdis a mem_cons_self w (mem_cons_of_mem _ hw)).symm
      have hu : u ≠ z := by
        have hne : u ≠ a := ne_last hpa (hy.trans hl)
        have hup : u ∈ post := by
          rcases mem_append.mp (show u ∈ post ++ [a] by rw [hy, hl]; simp) with hu | hu
          · exact hu
          · exact absurd (mem_singleton.mp hu) hne
        have hzp : z ∈ a :: pre := by
          rw [hz]
          exact mem_append_right _ (mem_singleton.mpr rfl)
        exact (hdis z hzp u (mem_cons_of_mem _ hup)).symm
      rw [update_of_ne hu, update_of_ne (ne_first (hy ▸ hpa) hl)]
      exact huv

/-- A ring may be cut anywhere. -/
theorem rotate_append (h : Ring next prev (xs ++ ys)) : Ring next prev (ys ++ xs) := by
  induction xs generalizing ys with
  | nil =>
    rw [append_nil]
    exact h
  | cons x xs ih =>
    rw [cons_append] at h
    have hturn := h.rotate.1
    rw [append_assoc] at hturn
    have hall := ih hturn
    rw [append_assoc] at hall
    exact hall

theorem next_mem (h : Ring next prev xs) (hx : x ∈ xs) : next x ∈ xs := by
  obtain ⟨pre, post, rfl⟩ := append_of_mem hx
  have hr : Ring next prev (x :: (post ++ pre)) := rotate_append h
  have hmem := mem_of_head? hr.rotate.2
  rw [mem_append, mem_append, mem_singleton] at hmem
  rcases hmem with (hmem | hmem) | hmem
  · exact mem_append_right _ (mem_cons_of_mem _ hmem)
  · exact mem_append_left _ hmem
  · rw [hmem]
    exact hx

theorem prev_mem (h : Ring next prev xs) (hx : x ∈ xs) : prev x ∈ xs := by
  obtain ⟨pre, post, rfl⟩ := append_of_mem hx
  have hr : Ring next prev (x :: (post ++ pre)) := rotate_append h
  obtain ⟨zs, hzs, -⟩ := hr.prev_first
  have hmem : prev x ∈ x :: (post ++ pre) := hzs ▸ mem_append_right zs mem_cons_self
  rw [mem_cons, mem_append] at hmem
  rcases hmem with hmem | hmem | hmem
  · rw [hmem]
    exact hx
  · exact mem_append_right _ (mem_cons_of_mem _ hmem)
  · exact mem_append_left _ hmem

/-- `x` becomes the second node, behind `a`. -/
theorem insert_second [DecidableEq α] (h : Ring next prev (a :: xs)) (hx : x ∉ a :: xs) :
    Ring (update (update next x (next a)) a x)
      (update (update prev x a) (next a) x) (a :: x :: xs) := by
  obtain ⟨hturn, hhead⟩ := h.rotate
  obtain ⟨zs, hzs⟩ : ∃ zs, xs ++ [a] = next a :: zs := by
    cases hl : xs ++ [a] with
    | nil => exact absurd hl (append_ne_nil_of_right_ne_nil _ (cons_ne_nil a []))
    | cons b zs =>
      rw [hl] at hhead
      exact ⟨zs, by rw [Option.some.inj hhead]⟩
  have hxz : x ∉ next a :: zs := by
    rw [← hzs]
    intro hmem
    apply hx
    rw [mem_append, mem_singleton] at hmem
    exact mem_cons.mpr hmem.symm
  rw [hzs] at hturn
  have hlast : prev (next a) = a := by
    obtain ⟨ws, hws, -⟩ := hturn.prev_first
    rw [← hzs] at hws
    have heq := congrArg List.getLast? hws
    rw [List.getLast?_concat, List.getLast?_concat] at heq
    exact (Option.some.inj heq).symm
  have hin := hturn.insert hxz
  rw [hlast, ← hzs] at hin
  rw [← cons_append] at hin
  exact hin.rotate_append

end Ring

end Svr3
