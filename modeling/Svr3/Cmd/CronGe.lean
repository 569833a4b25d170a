import Svr3.Cmd.CronField

/-!
# When `next_ge` is exact

`next_ge` treats a range with the same number at both ends as one that wraps around, and such a range covers every
number. So it is exact for the numbers of the list, and for the others if there is no such range.
-/

namespace Svr3.Crontab

open List

section point

variable {lower upper current min min_gt : ℕ} {i : Item} {q : List Char}

/-- A range with the same number at both ends covers whatever number is asked for. -/
theorem next_geLoop_point (k : ℕ) (hi : i.Ok lower upper) (hp : ¬i.Proper) (hq : NoDigit q) :
    next_geLoop current (k + 1) (i.chars ++ q) min min_gt = current := by
  obtain ⟨ds, ds2⟩ := i
  cases ds2 with
  | none => exact absurd (fun _ h => absurd h nofun) hp
  | some ds2 =>
    have hends : (num ds).1 = (num ds2).1 := by
      by_contra hne
      exact hp fun ds3 h3 => Option.some.inj h3 ▸ hne
    have hchars : Item.chars ⟨ds, some ds2⟩ ++ q = ds ++ '-' :: (ds2 ++ q) := by
      rw [Item.chars]
      simp only [append_assoc, cons_append]
    have hnum : num (ds ++ '-' :: (ds2 ++ q)) = ((num ds).1, '-' :: (ds2 ++ q)) :=
      num_append hi.first.digits (noDigit_cons (by decide))
    rw [hchars, next_geLoop, hnum]
    dsimp only
    split
    next => rfl
    next hne =>
      -- neither bound is below the other, and the branch for ranges that wrap around takes all numbers
      have hfound : if (num ds).1 < (num ds2).1 then (num ds).1 < current ∧ current ≤ (num ds2).1
          else (num ds).1 < current ∨ current ≤ (num ds2).1 := by
        rw [if_neg (by omega)]
        omega
      have hrange : inRange current (num ds).1 ('-' :: (ds2 ++ q)) = (some current, q) := by
        rw [inRange, num_append (hi.second ds2 rfl).digits hq]
        dsimp only
        rw [if_pos hfound]
      rw [hrange]

/-- The loop returns the current number at the first item that covers it or has the same number at both ends. -/
theorem next_geLoop_current {is : List Item} (k : ℕ) (hk : is.length < k) (his : ∀ j ∈ i :: is, j.Ok lower upper)
    (h : ∃ j ∈ i :: is, j.Has current ∨ ¬j.Proper) :
    next_geLoop current k (itemsText i is) min min_gt = current := by
  obtain ⟨k, rfl⟩ : ∃ k', k = k' + 1 := ⟨k - 1, by omega⟩
  induction is generalizing i k min min_gt with
  | nil =>
    obtain ⟨j, hj, hcase⟩ := h
    obtain rfl := mem_singleton.mp hj
    have hok := his j hj
    have hchars : itemsText j [] = j.chars ++ [] := (append_nil _).symm
    rw [hchars]
    by_cases hp : j.Proper
    · have hhas := hcase.resolve_right (not_not.mpr hp)
      exact (next_geLoop_item current min min_gt k hok hp noDigit_nil nofun).1 hhas
    · exact next_geLoop_point k hok hp noDigit_nil
  | cons j js ih =>
    obtain ⟨hi, hjs⟩ := forall_mem_cons.mp his
    have hcomma : NoDigit (',' :: itemsText j js) := noDigit_cons (by decide)
    rw [itemsText]
    by_cases hp : i.Proper
    · obtain ⟨hhas, hnot⟩ := next_geLoop_item current min min_gt k (q := ',' :: itemsText j js) hi hp hcomma
        fun hc => absurd (Option.some.inj hc) (by decide)
      by_cases hcur : i.Has current
      · exact hhas hcur
      · rw [hnot hcur]
        rw [length_cons] at hk
        obtain ⟨k, rfl⟩ : ∃ k', k = k' + 1 := ⟨k - 1, by omega⟩
        refine ih hjs ?_ k (by omega)
        obtain ⟨l, hl, hcase⟩ := h
        rcases mem_cons.mp hl with rfl | hl
        · exact absurd hcase (not_or.mpr ⟨hcur, not_not.mpr hp⟩)
        · exact ⟨l, hl, hcase⟩
    · exact next_geLoop_point k hi hp hcomma

end point

section field

variable {lower upper x : ℕ}

/-- A list without a range of one number has no such range among its items. -/
theorem items_noPoint {i : Item} {is : List Item} (his : ∀ j ∈ i :: is, j.Ok lower upper)
    (hp : ∀ j ∈ i :: is, j.Proper) : NoPoint (itemsText i is) := by
  intro item hitem a b hsplit
  rw [splitOn_items his] at hitem
  obtain ⟨j, hj, rfl⟩ := mem_map.mp hitem
  rw [(his j hj).splitOn] at hsplit
  cases hds2 : j.ds2 with
  | none =>
    rw [hds2] at hsplit
    cases hsplit
  | some ds2 =>
    rw [hds2] at hsplit
    obtain ⟨rfl, htail⟩ := List.cons.inj hsplit
    obtain rfl := (List.cons.inj htail).1
    exact hp j hj ds2 hds2

/-- Whatever the list is, its numbers are their own next ones; so is every number if a range has one number only. -/
theorem next_ge_current (f : Field lower upper) (h : Has f.1 x ∨ ¬NoPoint f.1) : next_ge x f.1 = x := by
  rcases field_items f with hstar | ⟨i, is, his, htext⟩
  · rw [next_ge, if_pos hstar]
  · have hne : f.1 ≠ ['*'] := htext ▸ itemsText_ne_star his
    rw [next_ge, if_neg hne, htext]
    rw [htext, has_items his] at h
    have hlen := length_itemsText i is
    apply next_geLoop_current _ (by omega) his
    rcases h with ⟨j, hj, hhas⟩ | hpoint
    · exact ⟨j, hj, .inl hhas⟩
    · by_contra hall
      push Not at hall
      exact hpoint (items_noPoint his fun j hj => (hall j hj).2)

theorem next_self {S : List Char} (h : Has S x) : Next (Has S) x x :=
  ⟨h, .inl ⟨Nat.le_refl _, fun _ _ hle => hle⟩⟩

/-- `next_ge` is exact for the numbers of the list and, if no range has one number only, for all others. -/
theorem next_ge_exact_iff (f : Field lower upper) (hup : upper < DUMMY) :
    Next (Has f.1) x (next_ge x f.1) ↔ Has f.1 x ∨ NoPoint f.1 := by
  constructor
  · intro h
    by_contra hcase
    obtain ⟨hnot, hpoint⟩ := not_or.mp hcase
    have hcur : next_ge x f.1 = x := next_ge_current f (.inr hpoint)
    rw [hcur] at h
    exact hnot h.mem
  · rintro (hhas | hp)
    · rw [next_ge_current f (.inl hhas)]
      exact next_self hhas
    · exact next_ge_next hup hp

/-- From the twentieth on, two days and then the first ones again -/
def days : Field 1 31 := ⟨"20-21,2-1".toList, "20-21,2-1 ".toList, [' '], by decide⟩

theorem next_ge_days : Next (Has days.1) 22 (next_ge 22 days.1) := by
  have hmem : "2-1".toList ∈ days.1.splitOn ',' := by decide
  have hsplit : "2-1".toList.splitOn '-' = [['2'], ['1']] := by decide
  have hcovers : covers "2-1".toList 22 := by
    rw [covers, hsplit]
    dsimp only
    decide
  exact (next_ge_exact_iff days (by decide)).mpr (.inl (.inr ⟨_, hmem, hcovers⟩))

/-- Minute five only -/
def five : Field 0 59 := ⟨"5-5".toList, "5-5 ".toList, [' '], by decide⟩

theorem next_ge_five : ¬Next (Has five.1) 7 (next_ge 7 five.1) := by
  intro h
  have hval : next_ge 7 five.1 = 7 := by decide
  have hmem : Has five.1 7 := hval ▸ h.mem
  rcases hmem with hstar | ⟨item, hitem, hc⟩
  · exact absurd hstar (by decide)
  · have hone : item = five.1 := mem_singleton.mp hitem
    have hsplit : five.1.splitOn '-' = [['5'], ['5']] := by decide
    rw [hone, covers, hsplit] at hc
    exact absurd hc (by decide)

end field

end Svr3.Crontab
