import Mathlib.Data.List.Nodup

/-!
# Sweeping an unordered table

A table without order is kept in an array. An entry that is finished gives its place to the last one, and the
loop looks at that place again; else it goes on to the next place.
-/

namespace Svr3.Sweep

open Function List

variable {α β : Type}

/-- The last entry takes the place of entry `i` -/
def swapOut (xs : List α) (i : ℕ) : List α :=
  match (xs.drop (i + 1)).getLast? with
  | none => xs.take i
  | some z => xs.take i ++ z :: (xs.drop (i + 1)).dropLast

theorem swapOut_eq (xs : List α) (i : ℕ) :
    ∃ ys, swapOut xs i = xs.take i ++ ys ∧ ys.Perm (xs.drop (i + 1)) := by
  unfold swapOut
  cases h : (xs.drop (i + 1)).getLast? with
  | none =>
    refine ⟨[], by simp, ?_⟩
    rw [List.getLast?_eq_none_iff.mp h]
  | some z =>
    refine ⟨_, rfl, ?_⟩
    have hz := dropLast_append_getLast? z h
    have hp := perm_append_singleton z (xs.drop (i + 1)).dropLast
    rw [hz] at hp
    exact hp.symm

theorem swapOut_perm (xs : List α) (i : ℕ) : (swapOut xs i).Perm (xs.eraseIdx i) := by
  obtain ⟨ys, hys, hp⟩ := swapOut_eq xs i
  rw [hys, eraseIdx_eq_take_drop_succ]
  exact hp.append_left _

theorem length_swapOut (xs : List α) {i : ℕ} (h : i < xs.length) :
    (swapOut xs i).length + 1 = xs.length := by
  rw [(swapOut_perm xs i).length_eq, length_eraseIdx_of_lt h]
  omega

theorem mem_swapOut {xs : List α} {i : ℕ} (hn : xs.Nodup) {x : α} (h : xs[i]? = some x) (y : α) :
    y ∈ swapOut xs i ↔ y ∈ xs ∧ y ≠ x := by
  rw [(swapOut_perm xs i).mem_iff]
  obtain ⟨hi, rfl⟩ := List.getElem?_eq_some_iff.mp h
  rw [mem_eraseIdx_iff_getElem]
  constructor
  · rintro ⟨j, hj, hne, rfl⟩
    exact ⟨getElem_mem hj, fun he => hne (hn.getElem_inj_iff.mp he)⟩
  · rintro ⟨hy, hne⟩
    obtain ⟨j, hj, rfl⟩ := getElem_of_mem hy
    exact ⟨j, hj, fun he => hne (by simp only [he]), rfl⟩

theorem mem_drop_swapOut (xs : List α) {i : ℕ} (hi : i < xs.length) (y : α) :
    y ∈ (swapOut xs i).drop i ↔ y ∈ xs.drop (i + 1) := by
  obtain ⟨ys, hys, hp⟩ := swapOut_eq xs i
  rw [hys, drop_left' (by rw [length_take]; omega)]
  exact hp.mem_iff

theorem nodup_swapOut {xs : List α} (hn : xs.Nodup) (i : ℕ) : (swapOut xs i).Nodup :=
  (swapOut_perm xs i).nodup_iff.mpr (hn.eraseIdx i)

theorem mem_drop_iff {xs : List α} {i : ℕ} {x : α} (h : xs[i]? = some x) (y : α) :
    y ∈ xs.drop i ↔ y = x ∨ y ∈ xs.drop (i + 1) := by
  obtain ⟨hi, rfl⟩ := List.getElem?_eq_some_iff.mp h
  rw [drop_eq_getElem_cons hi, mem_cons]

theorem notMem_drop {xs : List α} (hn : xs.Nodup) {i : ℕ} {x : α} (h : xs[i]? = some x) :
    x ∉ xs.drop (i + 1) := by
  obtain ⟨hi, rfl⟩ := List.getElem?_eq_some_iff.mp h
  have hd := hn.sublist (drop_sublist i xs)
  rw [drop_eq_getElem_cons hi] at hd
  exact (nodup_cons.mp hd).1

variable [DecidableEq α]

/-- The sweep of the table `xs` of keys of `tab`: `shift` says what becomes of a value, and `drop` if its key leaves
the table -/
def sweep (shift : β → Option β) (drop : β → Bool) : ℕ → ℕ → (α → β) × List α → (α → β) × List α
  | 0, _, s => s
  | cntr + 1, i, (tab, xs) =>
    match xs[i]? with
    | none => (tab, xs)
    | some x =>
      match shift (tab x) with
      | none => sweep shift drop cntr (i + 1) (tab, xs)
      | some b =>
        if drop b then sweep shift drop cntr i (update tab x b, swapOut xs i)
        else sweep shift drop cntr (i + 1) (update tab x b, xs)

/-- A key out of the table has no part in the sweep -/
theorem sweep_update (shift : β → Option β) (drop : β → Bool) {x : α} (b : β) :
    ∀ (cntr i : ℕ) (tab : α → β) (xs : List α), x ∉ xs →
      sweep shift drop cntr i (update tab x b, xs) =
        (update (sweep shift drop cntr i (tab, xs)).1 x b, (sweep shift drop cntr i (tab, xs)).2)
  | 0, _, _, _, _ => rfl
  | cntr + 1, i, tab, xs, hx => by
    unfold sweep
    cases hy : xs[i]? with
    | none => rfl
    | some y =>
      have hne : y ≠ x := fun he => hx (he ▸ mem_of_getElem? hy)
      dsimp only
      rw [update_of_ne hne]
      cases shift (tab y) with
      | none => exact sweep_update shift drop b cntr (i + 1) tab xs hx
      | some c =>
        dsimp only
        rw [update_comm hne.symm]
        split
        · refine sweep_update shift drop b cntr i _ _ fun hmem => hx ?_
          exact (eraseIdx_sublist ..).subset ((swapOut_perm xs i).subset hmem)
        · exact sweep_update shift drop b cntr (i + 1) _ xs hx

theorem sweep_of_notMem (shift : β → Option β) (drop : β → Bool) (cntr i : ℕ) (tab : α → β) {xs : List α}
    {x : α} (hx : x ∉ xs) : (sweep shift drop cntr i (tab, xs)).1 x = tab x := by
  have h := sweep_update shift drop (tab x) cntr i tab xs hx
  rw [update_eq_self] at h
  rw [h]
  exact update_self ..

theorem sweep_subset (shift : β → Option β) (drop : β → Bool) {x : α} :
    ∀ (cntr i : ℕ) (tab : α → β) (xs : List α), x ∈ (sweep shift drop cntr i (tab, xs)).2 → x ∈ xs
  | 0, _, _, _, hx => hx
  | cntr + 1, i, tab, xs, hx => by
    unfold sweep at hx
    cases hy : xs[i]? with
    | none =>
      rw [hy] at hx
      exact hx
    | some y =>
      rw [hy] at hx
      dsimp only at hx
      cases hs : shift (tab y) with
      | none =>
        rw [hs] at hx
        exact sweep_subset shift drop cntr (i + 1) tab xs hx
      | some b =>
        rw [hs] at hx
        dsimp only at hx
        split at hx
        · have hin := sweep_subset shift drop cntr i _ _ hx
          exact (eraseIdx_sublist ..).subset ((swapOut_perm xs i).subset hin)
        · exact sweep_subset shift drop cntr (i + 1) _ xs hx

/-- What a sweep leaves -/
structure Swept (shift : β → Option β) (drop : β → Bool) (i : ℕ) (s r : (α → β) × List α) : Prop where
  hit : ∀ y ∈ s.2.drop i, r.1 y = (shift (s.1 y)).getD (s.1 y)
  miss : ∀ y ∉ s.2.drop i, r.1 y = s.1 y
  nodup : r.2.Nodup
  mem : ∀ y, y ∈ r.2 ↔ y ∈ s.2 ∧ (y ∈ s.2.drop i → ∀ b, shift (s.1 y) = some b → drop b = false)

theorem sweep_swept (shift : β → Option β) (drop : β → Bool) :
    ∀ (cntr i : ℕ) (tab : α → β) (xs : List α), xs.Nodup → i + cntr = xs.length →
      Swept shift drop i (tab, xs) (sweep shift drop cntr i (tab, xs))
  | 0, i, tab, xs, hn, hl => by
    have hd : xs.drop i = [] := drop_eq_nil_of_le (by omega)
    exact ⟨by simp [hd], fun y _ => rfl, hn, by simp [sweep, hd]⟩
  | cntr + 1, i, tab, xs, hn, hl => by
    have hi : i < xs.length := by omega
    have hx : xs[i]? = some xs[i] := List.getElem?_eq_getElem hi
    have hnot := notMem_drop hn hx
    have hdrop := mem_drop_iff hx
    unfold sweep
    rw [hx]
    dsimp only
    cases hs : shift (tab xs[i]) with
    | none =>
      have ih := sweep_swept shift drop cntr (i + 1) tab xs hn (by omega)
      refine ⟨fun y hy => ?_, fun y hy => ?_, ih.nodup, fun y => ?_⟩
      · obtain rfl | hy := (hdrop y).mp hy
        · rw [ih.miss _ hnot, hs]
          rfl
        · exact ih.hit y hy
      · exact ih.miss y fun h => hy ((hdrop y).mpr (.inr h))
      · rw [ih.mem y]
        by_cases hy : y = xs[i]
        · subst hy
          simp [hnot, hs]
        · simp only [hdrop, hy, false_or]
    | some b =>
      dsimp only
      by_cases hb : drop b = true
      · rw [if_pos hb]
        have hlen := length_swapOut xs hi
        have hmem := mem_drop_swapOut xs hi
        have ih := sweep_swept shift drop cntr i (update tab xs[i] b) (swapOut xs i)
          (nodup_swapOut hn i) (by omega)
        refine ⟨fun y hy => ?_, fun y hy => ?_, ih.nodup, fun y => ?_⟩
        · by_cases he : y = xs[i]
          · subst he
            rw [ih.miss _ (by rwa [hmem]), hs]
            exact update_self ..
          · rw [ih.hit y ((hmem y).mpr (((hdrop y).mp hy).resolve_left he))]
            simp only [update_of_ne he]
        · have hy := fun h => hy ((hdrop y).mpr h)
          rw [ih.miss y fun h => hy (.inr ((hmem y).mp h))]
          exact update_of_ne (fun h => hy (.inl h)) ..
        · rw [ih.mem y]
          dsimp only
          rw [hmem, mem_swapOut hn hx]
          by_cases hy : y = xs[i]
          · subst hy
            simp [hdrop, hs, hb]
          · simp only [hdrop, hy, false_or, update_of_ne hy, ne_eq, not_false_eq_true,
              and_true]
      · rw [if_neg hb]
        have ih := sweep_swept shift drop cntr (i + 1) (update tab xs[i] b) xs hn (by omega)
        refine ⟨fun y hy => ?_, fun y hy => ?_, ih.nodup, fun y => ?_⟩
        · by_cases he : y = xs[i]
          · subst he
            rw [ih.miss _ hnot, hs]
            exact update_self ..
          · rw [ih.hit y (((hdrop y).mp hy).resolve_left he)]
            simp only [update_of_ne he]
        · have hy := fun h => hy ((hdrop y).mpr h)
          rw [ih.miss y fun h => hy (.inr h)]
          exact update_of_ne (fun h => hy (.inl h)) ..
        · rw [ih.mem y]
          by_cases hy : y = xs[i]
          · subst hy
            simp [hnot, hdrop, hs, hb]
          · simp only [hdrop, hy, false_or, update_of_ne hy]

end Svr3.Sweep
