import Svr3.Cmd.CronTime

/-!
# The numbers of a field

A field that `next_field` takes is `*` or a list of numbers and ranges within the bounds. `next_ge` finds the next
number of it, if no range has the same number at both ends: it takes such a range for one that wraps around.
-/

namespace Svr3.Crontab

open List

/-- `y` is the next number of `S`, from `x` on; behind the last one comes the first. -/
structure Next (S : ℕ → Prop) (x y : ℕ) : Prop where
  mem : S y
  least : (x ≤ y ∧ ∀ z, S z → x ≤ z → y ≤ z) ∨ ((∀ z, S z → z < x) ∧ ∀ z, S z → y ≤ z)

/-- No range has the same number at both ends. -/
def NoPoint (list : List Char) : Prop :=
  ∀ item ∈ list.splitOn ',', ∀ a b, item.splitOn '-' = [a, b] → (num a).1 ≠ (num b).1

/-! ## Items -/

section items

variable {lower upper : ℕ} {p q ds : List Char}

/-- The digits of a number or of a range -/
structure Item where
  ds : List Char
  ds2 : Option (List Char)

def Item.chars (i : Item) : List Char :=
  match i.ds2 with
  | none => i.ds
  | some ds2 => i.ds ++ '-' :: ds2

/-- Digits of a number within the bounds -/
structure Bounded (lower upper : ℕ) (ds : List Char) : Prop where
  digits : ∀ c ∈ ds, c.isDigit = true
  lower : lower ≤ (num ds).1
  upper : (num ds).1 ≤ upper

structure Item.Ok (lower upper : ℕ) (i : Item) : Prop where
  first : Bounded lower upper i.ds
  second : ∀ ds2, i.ds2 = some ds2 → Bounded lower upper ds2

/-- The items of a list, which has a first one -/
def itemsText (i : Item) : List Item → List Char
  | [] => i.chars
  | j :: js => i.chars ++ ',' :: itemsText j js

theorem num_append (hds : ∀ c ∈ ds, c.isDigit = true) (hr : NoDigit q) : num (ds ++ q) = ((num ds).1, q) := by
  have h := number_append (R := BitVec 32) hr hds 0
  have h0 := number_append (R := BitVec 32) noDigit_nil hds 0
  rw [append_nil] at h0
  rw [Nat.cast_zero] at h h0
  rw [num, num, h, h0]

/-- The digits at the front, and what is behind them -/
theorem digits_split (p : List Char) : ∃ ds q, p = ds ++ q ∧ (∀ c ∈ ds, c.isDigit = true) ∧ NoDigit q := by
  induction p with
  | nil => exact ⟨[], [], rfl, fun c hc => absurd hc not_mem_nil, noDigit_nil⟩
  | cons c p ih =>
    by_cases hc : c.isDigit = true
    · obtain ⟨ds, q, rfl, hds, hq⟩ := ih
      exact ⟨c :: ds, q, rfl, forall_mem_cons.mpr ⟨hc, hds⟩, hq⟩
    · exact ⟨[], c :: p, rfl, fun d hd => absurd hd not_mem_nil, noDigit_cons (Bool.not_eq_true _ ▸ hc)⟩

theorem fieldNum_some (h : fieldNum lower upper p = some q) :
    ∃ ds, Bounded lower upper ds ∧ p = ds ++ q ∧ NoDigit q := by
  obtain ⟨ds, r, rfl, hds, hr⟩ := digits_split p
  rw [fieldNum, num_append hds hr] at h
  split at h
  · split at h
    · exact absurd h nofun
    next hout =>
      obtain rfl := Option.some.inj h
      exact ⟨ds, ⟨hds, by omega, by omega⟩, rfl, hr⟩
  · exact absurd h nofun

theorem fieldItem_some (h : fieldItem lower upper p = some q) :
    ∃ i : Item, i.Ok lower upper ∧ p = i.chars ++ q ∧ NoDigit q := by
  obtain ⟨r, hr, hq⟩ := Option.bind_eq_some_iff.mp h
  obtain ⟨ds, hds, rfl, hr'⟩ := fieldNum_some hr
  split at hq
  next r' =>
    obtain ⟨ds2, hds2, rfl, hq'⟩ := fieldNum_some hq
    refine ⟨⟨ds, some ds2⟩, ⟨hds, fun x hx => Option.some.inj hx ▸ hds2⟩, ?_, hq'⟩
    rw [Item.chars]
    simp only [append_assoc, cons_append]
  next =>
    obtain rfl := Option.some.inj hq
    exact ⟨⟨ds, none⟩, ⟨hds, fun x hx => absurd hx nofun⟩, rfl, hr'⟩

theorem fieldItems_some {k : ℕ} (h : fieldItems lower upper k p = some q) : ∃ (i : Item) (is : List Item),
    (∀ j ∈ i :: is, j.Ok lower upper) ∧ p = itemsText i is ++ q := by
  induction k generalizing p with
  | zero => cases h
  | succ k ih =>
    obtain ⟨r, hr, hq⟩ := Option.bind_eq_some_iff.mp h
    obtain ⟨i, hi, rfl, -⟩ := fieldItem_some hr
    split at hq
    next => cases hq
    next c r' =>
      split at hq
      next =>
        obtain rfl := Option.some.inj hq
        exact ⟨i, [], forall_mem_cons.mpr ⟨hi, fun j hj => absurd hj not_mem_nil⟩, rfl⟩
      next =>
        split at hq
        next hc =>
          obtain ⟨j, js, hjs, rfl⟩ := ih hq
          refine ⟨i, j :: js, forall_mem_cons.mpr ⟨hi, hjs⟩, ?_⟩
          rw [itemsText, hc]
          simp only [append_assoc, cons_append]
        next => cases hq

/-- What `next_field` takes -/
theorem field_items (f : Field lower upper) : f.1 = ['*'] ∨ ∃ (i : Item) (is : List Item),
    (∀ j ∈ i :: is, j.Ok lower upper) ∧ f.1 = itemsText i is := by
  obtain ⟨l, line, rest, h⟩ := f
  rw [next_field] at h
  split at h
  · split at h
    · exact .inl (congrArg Prod.fst (Option.some.inj h)).symm
    · exact absurd h nofun
  · obtain ⟨q, hq, heq⟩ := Option.map_eq_some_iff.mp h
    obtain ⟨i, is, his, hp⟩ := fieldItems_some hq
    refine .inr ⟨i, is, his, (congrArg Prod.fst heq).symm.trans ?_⟩
    dsimp only
    rw [hp, length_append, Nat.add_sub_cancel, take_left]

end items

/-! ## What a list covers -/

section covers

variable {lower upper x : ℕ} {i : Item}

theorem not_mem_digits {ds : List Char} {c : Char} (hds : ∀ c ∈ ds, c.isDigit = true) (hc : c.isDigit = false) :
    c ∉ ds := by
  intro h
  rw [hds c h] at hc
  exact absurd hc nofun

/-- The numbers of an item -/
def Item.Has (i : Item) (x : ℕ) : Prop :=
  match i.ds2 with
  | none => x = (num i.ds).1
  | some ds2 =>
    if (num i.ds).1 ≤ (num ds2).1 then (num i.ds).1 ≤ x ∧ x ≤ (num ds2).1 else (num i.ds).1 ≤ x ∨ x ≤ (num ds2).1

theorem Item.Ok.splitOn (h : i.Ok lower upper) :
    i.chars.splitOn '-' = match i.ds2 with | none => [i.ds] | some ds2 => [i.ds, ds2] := by
  have hds : '-' ∉ i.ds := not_mem_digits h.first.digits (by decide)
  cases hi : i.ds2 with
  | none =>
    rw [Item.chars, hi]
    exact splitOn_eq_singleton hds
  | some ds2 =>
    have hds2 : '-' ∉ ds2 := not_mem_digits (h.second ds2 hi).digits (by decide)
    rw [Item.chars, hi]
    dsimp only
    rw [splitOn_append_cons_self_of_not_mem hds, splitOn_eq_singleton hds2]

theorem Item.Ok.covers (h : i.Ok lower upper) : covers i.chars x ↔ i.Has x := by
  rw [Crontab.covers, h.splitOn, Item.Has]
  cases i.ds2 <;> rfl

theorem Item.Ok.comma (h : i.Ok lower upper) : ',' ∉ i.chars := by
  have hds : ',' ∉ i.ds := not_mem_digits h.first.digits (by decide)
  rw [Item.chars]
  cases hi : i.ds2 with
  | none => exact hds
  | some ds2 =>
    have hds2 : ',' ∉ ds2 := not_mem_digits (h.second ds2 hi).digits (by decide)
    rw [mem_append, mem_cons, not_or, not_or]
    exact ⟨hds, by decide, hds2⟩

theorem splitOn_items {is : List Item} (h : ∀ j ∈ i :: is, j.Ok lower upper) :
    (itemsText i is).splitOn ',' = (i :: is).map Item.chars := by
  induction is generalizing i with
  | nil =>
    obtain ⟨hi, -⟩ := forall_mem_cons.mp h
    exact splitOn_eq_singleton hi.comma
  | cons j js ih =>
    obtain ⟨hi, hjs⟩ := forall_mem_cons.mp h
    rw [itemsText, splitOn_append_cons_self_of_not_mem hi.comma, ih hjs]
    rfl

theorem itemsText_ne_star {is : List Item} (h : ∀ j ∈ i :: is, j.Ok lower upper) : itemsText i is ≠ ['*'] := by
  intro heq
  have hsplit := splitOn_items h
  rw [heq] at hsplit
  have hone : ['*'].splitOn ',' = [['*']] := splitOn_eq_singleton (by decide)
  rw [hone, map_cons] at hsplit
  have hchars : ['*'] = i.chars := (List.cons.inj hsplit).1
  obtain ⟨hi, -⟩ := forall_mem_cons.mp h
  have hstar : '*' ∈ i.chars := by
    rw [← hchars]
    exact mem_singleton_self _
  rw [Item.chars] at hstar
  have hds : '*' ∉ i.ds := not_mem_digits hi.first.digits (by decide)
  cases hi2 : i.ds2 with
  | none =>
    rw [hi2] at hstar
    exact hds hstar
  | some ds2 =>
    have hds2 : '*' ∉ ds2 := not_mem_digits (hi.second ds2 hi2).digits (by decide)
    rw [hi2] at hstar
    rcases mem_append.mp hstar with hc | hc
    · exact hds hc
    · rcases mem_cons.mp hc with hc | hc
      · exact absurd hc (by decide)
      · exact hds2 hc

theorem has_items {is : List Item} (h : ∀ j ∈ i :: is, j.Ok lower upper) :
    Has (itemsText i is) x ↔ ∃ j ∈ i :: is, j.Has x := by
  rw [Has, or_iff_right (itemsText_ne_star h), splitOn_items h]
  constructor
  · rintro ⟨item, hmem, hc⟩
    obtain ⟨j, hj, rfl⟩ := mem_map.mp hmem
    exact ⟨j, hj, (h j hj).covers.mp hc⟩
  · rintro ⟨j, hj, hc⟩
    exact ⟨j.chars, mem_map_of_mem hj, (h j hj).covers.mpr hc⟩

/-- The ends of a range are different. -/
def Item.Proper (i : Item) : Prop := ∀ ds2, i.ds2 = some ds2 → (num i.ds).1 ≠ (num ds2).1

theorem noPoint_items {is : List Item} (h : ∀ j ∈ i :: is, j.Ok lower upper) (hp : NoPoint (itemsText i is)) :
    ∀ j ∈ i :: is, j.Proper := by
  intro j hj ds2 hds2
  apply hp j.chars _ j.ds ds2
  · rw [(h j hj).splitOn, hds2]
  · rw [splitOn_items h]
    exact mem_map_of_mem hj

end covers

/-! ## The loop of `next_ge` -/

section loop

variable {lower upper current min min_gt : ℕ} {i : Item} {q : List Char} {S : ℕ → Prop}

theorem Item.has_first (i : Item) : i.Has (num i.ds).1 := by
  obtain ⟨ds, ds2⟩ := i
  cases ds2 with
  | none => rfl
  | some ds2 =>
    rw [Item.Has]
    dsimp only
    split
    next h => exact ⟨Nat.le_refl _, h⟩
    next => exact .inl (Nat.le_refl _)

theorem Item.has_range {ds ds2 : List Char} {z : ℕ} : Item.Has ⟨ds, some ds2⟩ z ↔
    ((num ds).1 ≤ (num ds2).1 → (num ds).1 ≤ z ∧ z ≤ (num ds2).1) ∧
      ((num ds2).1 < (num ds).1 → (num ds).1 ≤ z ∨ z ≤ (num ds2).1) := by
  rw [Item.Has]
  dsimp only
  split
  next h => exact ⟨fun hz => ⟨fun _ => hz, fun hc => absurd h (Nat.not_le.mpr hc)⟩, fun hz => hz.1 h⟩
  next h => exact ⟨fun hz => ⟨fun hc => absurd hc h, fun _ => hz⟩, fun hz => hz.2 (Nat.not_le.mp h)⟩

/-- What an item that does not cover the current number says about the next one -/
theorem Item.away (hp : i.Proper) (hcur : ¬i.Has current) :
    (num i.ds).1 ≠ current ∧
      (current < (num i.ds).1 → ∀ z, i.Has z → current < z → (num i.ds).1 ≤ z) ∧
      ((num i.ds).1 < current → ∀ z, i.Has z → z < current ∧ (num i.ds).1 ≤ z) := by
  have hne : (num i.ds).1 ≠ current := fun h => hcur (h ▸ i.has_first)
  refine ⟨hne, ?_⟩
  obtain ⟨ds, ds2⟩ := i
  cases ds2 with
  | none =>
    refine ⟨fun _ z hz _ => Nat.le_of_eq hz.symm, fun hlt z hz => ?_⟩
    obtain rfl : z = (num ds).1 := hz
    exact ⟨hlt, Nat.le_refl _⟩
  | some ds2 =>
    have hends : (num ds).1 ≠ (num ds2).1 := hp ds2 rfl
    dsimp only at hne ⊢
    simp only [Item.has_range] at hcur ⊢
    generalize (num ds).1 = a at *
    generalize (num ds2).1 = b at *
    rcases Nat.lt_or_gt_of_ne hends with hab | hab
    · have hcur' : ¬(a ≤ current ∧ current ≤ b) := fun hc => hcur ⟨fun _ => hc, fun h => absurd h (by omega)⟩
      refine ⟨fun _ z hz _ => (hz.1 (Nat.le_of_lt hab)).1, fun hlt z hz => ?_⟩
      have hz' := hz.1 (Nat.le_of_lt hab)
      omega
    · have hcur' : ¬(a ≤ current ∨ current ≤ b) := fun hc => hcur ⟨fun h => absurd h (by omega), fun _ => hc⟩
      refine ⟨fun hlt z hz hz' => ?_, fun hlt => absurd hlt (by omega)⟩
      have hz'' := hz.2 hab
      omega

/-- A range is read to its end, and says whether it covers the current number. -/
theorem inRange_item (hi : i.Ok lower upper) (hp : i.Proper) (hq : NoDigit q) (hdash : q.head? ≠ some '-')
    (hne : (num i.ds).1 ≠ current) : ∃ r, num (i.chars ++ q) = ((num i.ds).1, r) ∧
      (i.Has current → inRange current (num i.ds).1 r = (some current, q)) ∧
      (¬i.Has current → inRange current (num i.ds).1 r = (none, q)) := by
  obtain ⟨ds, ds2⟩ := i
  cases ds2 with
  | none =>
    refine ⟨q, num_append hi.first.digits hq, fun h => absurd h.symm hne, fun _ => ?_⟩
    cases q with
    | nil => rfl
    | cons c q =>
      rw [inRange]
      intro p hp
      exact hdash (congrArg List.head? hp)
  | some ds2 =>
    have hds2 := (hi.second ds2 rfl).digits
    have hends : (num ds).1 ≠ (num ds2).1 := hp ds2 rfl
    have hchars : Item.chars ⟨ds, some ds2⟩ ++ q = ds ++ '-' :: (ds2 ++ q) := by
      rw [Item.chars]
      simp only [append_assoc, cons_append]
    have hfound : (if (num ds).1 < (num ds2).1 then (num ds).1 < current ∧ current ≤ (num ds2).1
        else (num ds).1 < current ∨ current ≤ (num ds2).1) ↔ Item.Has ⟨ds, some ds2⟩ current := by
      rw [Item.has_range]
      dsimp only at hne
      split <;> omega
    refine ⟨'-' :: (ds2 ++ q), ?_, fun h => ?_, fun h => ?_⟩
    · rw [hchars]
      exact num_append hi.first.digits (noDigit_cons (by decide))
    · rw [inRange, num_append hds2 hq]
      dsimp only
      rw [if_pos (hfound.mpr h)]
    · rw [inRange, num_append hds2 hq]
      dsimp only
      rw [if_neg fun hc => h (hfound.mp hc)]

/-- The numbers `S` have been seen. -/
structure Seen (lower upper : ℕ) (S : ℕ → Prop) (current min min_gt : ℕ) : Prop where
  not : ¬S current
  gt : (min_gt = DUMMY ∧ ∀ z, S z → z < current) ∨
    (lower ≤ min_gt ∧ min_gt ≤ upper ∧ S min_gt ∧ current < min_gt ∧ ∀ z, S z → current < z → min_gt ≤ z)
  min : (∀ z, S z → z < current) →
    (min = DUMMY ∧ ∀ z, ¬S z) ∨ (lower ≤ min ∧ min ≤ upper ∧ S min ∧ ∀ z, S z → min ≤ z)

theorem Seen.start : Seen lower upper (fun _ => False) current DUMMY DUMMY :=
  ⟨id, .inl ⟨rfl, nofun⟩, fun _ => .inl ⟨rfl, fun _ => id⟩⟩

theorem Seen.item (h : Seen lower upper S current min min_gt) (hup : upper < DUMMY) (hi : i.Ok lower upper)
    (hp : i.Proper) (hcur : ¬i.Has current) :
    Seen lower upper (fun z => S z ∨ i.Has z) current (if (num i.ds).1 < min then (num i.ds).1 else min)
      (if current < (num i.ds).1 ∧ (num i.ds).1 < min_gt then (num i.ds).1 else min_gt) := by
  have hmem := i.has_first
  obtain ⟨hne, habove, hbelow⟩ := i.away hp hcur
  have hlo := hi.first.lower
  have hhi := hi.first.upper
  generalize (num i.ds).1 = n at *
  refine ⟨not_or.mpr ⟨h.not, hcur⟩, ?_, fun hall => ?_⟩
  · by_cases hlt : current < n
    · right
      rcases h.gt with ⟨hmg, hS⟩ | ⟨h1, h2, h3, h4, h5⟩
      · rw [if_pos ⟨hlt, by omega⟩]
        refine ⟨hlo, hhi, .inr hmem, hlt, fun z hz hz' => ?_⟩
        rcases hz with hz | hz
        · exact absurd hz' (Nat.not_lt.mpr (Nat.le_of_lt (hS z hz)))
        · exact habove hlt z hz hz'
      · by_cases hmg : n < min_gt
        · rw [if_pos ⟨hlt, hmg⟩]
          refine ⟨hlo, hhi, .inr hmem, hlt, fun z hz hz' => ?_⟩
          rcases hz with hz | hz
          · exact Nat.le_trans (Nat.le_of_lt hmg) (h5 z hz hz')
          · exact habove hlt z hz hz'
        · rw [if_neg fun hc => hmg hc.2]
          refine ⟨h1, h2, .inl h3, h4, fun z hz hz' => ?_⟩
          rcases hz with hz | hz
          · exact h5 z hz hz'
          · exact Nat.le_trans (Nat.not_lt.mp hmg) (habove hlt z hz hz')
    · have hlt' : n < current := by omega
      rw [if_neg fun hc => hlt hc.1]
      rcases h.gt with ⟨hmg, hS⟩ | ⟨h1, h2, h3, h4, h5⟩
      · refine .inl ⟨hmg, fun z hz => ?_⟩
        rcases hz with hz | hz
        · exact hS z hz
        · exact (hbelow hlt' z hz).1
      · refine .inr ⟨h1, h2, .inl h3, h4, fun z hz hz' => ?_⟩
        rcases hz with hz | hz
        · exact h5 z hz hz'
        · exact absurd hz' (Nat.not_lt.mpr (Nat.le_of_lt (hbelow hlt' z hz).1))
  · right
    have hlt' : n < current := hall n (.inr hmem)
    rcases h.min fun z hz => hall z (.inl hz) with ⟨hmin, hS⟩ | ⟨h1, h2, h3, h4⟩
    · rw [if_pos (by omega)]
      refine ⟨hlo, hhi, .inr hmem, fun z hz => ?_⟩
      rcases hz with hz | hz
      · exact absurd hz (hS z)
      · exact (hbelow hlt' z hz).2
    · by_cases hmin : n < min
      · rw [if_pos hmin]
        refine ⟨hlo, hhi, .inr hmem, fun z hz => ?_⟩
        rcases hz with hz | hz
        · exact Nat.le_trans (Nat.le_of_lt hmin) (h4 z hz)
        · exact (hbelow hlt' z hz).2
      · rw [if_neg hmin]
        refine ⟨h1, h2, .inl h3, fun z hz => ?_⟩
        rcases hz with hz | hz
        · exact h4 z hz
        · exact Nat.le_trans (Nat.not_lt.mp hmin) (hbelow hlt' z hz).2

/-- The next number, and its bounds -/
def Found (lower upper : ℕ) (S : ℕ → Prop) (current y : ℕ) : Prop :=
  Next S current y ∧ (y = current ∨ lower ≤ y ∧ y ≤ upper)

/-- When all items have been seen -/
theorem Seen.found (h : Seen lower upper S current min min_gt) (hup : upper < DUMMY) {x : ℕ} (hx : S x) :
    Found lower upper S current (if min_gt ≠ DUMMY then min_gt else min) := by
  rcases h.gt with ⟨hmg, hS⟩ | ⟨h1, h2, h3, h4, h5⟩
  · rw [if_neg (not_not.mpr hmg)]
    rcases h.min hS with ⟨-, hnone⟩ | ⟨h1, h2, h3, h4⟩
    · exact absurd hx (hnone x)
    · exact ⟨⟨h3, .inr ⟨hS, h4⟩⟩, .inr ⟨h1, h2⟩⟩
  · rw [if_pos (by omega)]
    refine ⟨⟨h3, .inl ⟨Nat.le_of_lt h4, fun z hz hle => ?_⟩⟩, .inr ⟨h1, h2⟩⟩
    rcases Nat.lt_or_eq_of_le hle with hlt | rfl
    · exact h5 z hz hlt
    · exact absurd hz h.not

theorem found_current (h : S current) : Found lower upper S current current :=
  ⟨⟨h, .inl ⟨Nat.le_refl _, fun _ _ hle => hle⟩⟩, .inl rfl⟩

variable (current min min_gt) in
/-- A turn of the loop -/
theorem next_geLoop_item (k : ℕ) (hi : i.Ok lower upper) (hp : i.Proper) (hq : NoDigit q)
    (hdash : q.head? ≠ some '-') :
    (i.Has current → next_geLoop current (k + 1) (i.chars ++ q) min min_gt = current) ∧
    (¬i.Has current → next_geLoop current (k + 1) (i.chars ++ q) min min_gt =
      match q with
      | [] => if (if current < (num i.ds).1 ∧ (num i.ds).1 < min_gt then (num i.ds).1 else min_gt) ≠ DUMMY then
          (if current < (num i.ds).1 ∧ (num i.ds).1 < min_gt then (num i.ds).1 else min_gt)
        else if (num i.ds).1 < min then (num i.ds).1 else min
      | _ :: q => next_geLoop current k q (if (num i.ds).1 < min then (num i.ds).1 else min)
          (if current < (num i.ds).1 ∧ (num i.ds).1 < min_gt then (num i.ds).1 else min_gt)) := by
  by_cases heq : (num i.ds).1 = current
  · have hhas : i.Has current := heq ▸ i.has_first
    refine ⟨fun _ => ?_, fun h => absurd hhas h⟩
    have hnum : (num (i.chars ++ q)).1 = (num i.ds).1 := by
      obtain ⟨ds, ds2⟩ := i
      cases ds2 with
      | none =>
        have hone : num (ds ++ q) = ((num ds).1, q) := num_append hi.first.digits hq
        change (num (ds ++ q)).1 = (num ds).1
        rw [hone]
      | some ds2 =>
        have hchars : Item.chars ⟨ds, some ds2⟩ ++ q = ds ++ '-' :: (ds2 ++ q) := by
          rw [Item.chars]
          simp only [append_assoc, cons_append]
        have hone : num (ds ++ '-' :: (ds2 ++ q)) = ((num ds).1, '-' :: (ds2 ++ q)) :=
          num_append hi.first.digits (noDigit_cons (by decide))
        rw [hchars, hone]
    rw [next_geLoop]
    dsimp only
    rw [if_pos (hnum.trans heq)]
  · obtain ⟨r, hnum, hhas, hnot⟩ := inRange_item hi hp hq hdash heq
    refine ⟨fun h => ?_, fun h => ?_⟩
    · rw [next_geLoop, hnum]
      dsimp only
      rw [if_neg heq, hhas h]
    · rw [next_geLoop, hnum]
      dsimp only
      rw [if_neg heq, hnot h]
      cases q <;> rfl

theorem next_geLoop_found {is : List Item} {k : ℕ} (hup : upper < DUMMY) (hk : is.length < k)
    (his : ∀ j ∈ i :: is, j.Ok lower upper) (hp : ∀ j ∈ i :: is, j.Proper)
    (h : Seen lower upper S current min min_gt) :
    Found lower upper (fun z => S z ∨ ∃ j ∈ i :: is, j.Has z) current
      (next_geLoop current k (itemsText i is) min min_gt) := by
  obtain ⟨k, rfl⟩ : ∃ k', k = k' + 1 := ⟨k - 1, by omega⟩
  induction is generalizing i k S min min_gt with
  | nil =>
    obtain ⟨hi, -⟩ := forall_mem_cons.mp his
    obtain ⟨hpi, -⟩ := forall_mem_cons.mp hp
    have hmem : (fun z => S z ∨ ∃ j ∈ [i], j.Has z) = fun z => S z ∨ i.Has z := by
      funext z
      simp only [mem_singleton, exists_eq_left]
    have hchars : itemsText i [] = i.chars ++ [] := (append_nil _).symm
    obtain ⟨hhas, hnot⟩ := next_geLoop_item current min min_gt k hi hpi
      noDigit_nil nofun
    rw [hmem, hchars]
    by_cases hcur : i.Has current
    · rw [hhas hcur]
      exact found_current (.inr hcur)
    · rw [hnot hcur]
      exact (h.item hup hi hpi hcur).found hup (.inr i.has_first)
  | cons j js ih =>
    obtain ⟨hi, hjs⟩ := forall_mem_cons.mp his
    obtain ⟨hpi, hpjs⟩ := forall_mem_cons.mp hp
    have hmem : (fun z => S z ∨ ∃ l ∈ i :: j :: js, l.Has z) = fun z => (S z ∨ i.Has z) ∨ ∃ l ∈ j :: js, l.Has z := by
      funext z
      simp only [mem_cons, exists_eq_or_imp, or_assoc]
    obtain ⟨hhas, hnot⟩ := next_geLoop_item current min min_gt k
      (q := ',' :: itemsText j js) hi hpi (noDigit_cons (by decide)) (fun hc => absurd (Option.some.inj hc) (by decide))
    rw [hmem, itemsText]
    by_cases hcur : i.Has current
    · rw [hhas hcur]
      exact found_current (.inl (.inr hcur))
    · rw [hnot hcur]
      rw [length_cons] at hk
      obtain ⟨k, rfl⟩ : ∃ k', k = k' + 1 := ⟨k - 1, by omega⟩
      exact ih hjs hpjs (h.item hup hi hpi hcur) k (by omega)

end loop

/-! ## The next number of a field -/

section field

variable {lower upper x : ℕ} {f : Field lower upper}

theorem length_itemsText (i : Item) (is : List Item) : is.length ≤ (itemsText i is).length := by
  induction is generalizing i with
  | nil => exact Nat.zero_le _
  | cons j js ih =>
    have hj := ih j
    rw [itemsText, length_append, length_cons, length_cons]
    omega

theorem next_ge_found (hup : upper < DUMMY) (hp : NoPoint f.1) :
    Found lower upper (Has f.1) x (next_ge x f.1) := by
  rcases field_items f with hstar | ⟨i, is, his, htext⟩
  · rw [next_ge, if_pos hstar]
    exact found_current (.inl hstar)
  · have hne : f.1 ≠ ['*'] := htext ▸ itemsText_ne_star his
    have hhas : Has f.1 = fun z => False ∨ ∃ j ∈ i :: is, j.Has z := by
      funext z
      rw [htext, propext (has_items his), false_or]
    rw [next_ge, if_neg hne, hhas, htext]
    rw [htext] at hp
    apply next_geLoop_found hup _ his (noPoint_items his hp) .start
    have hlen := length_itemsText i is
    omega

theorem next_ge_next (hup : upper < DUMMY) (hp : NoPoint f.1) : Next (Has f.1) x (next_ge x f.1) :=
  (next_ge_found hup hp).1

theorem next_ge_bounds (hup : upper < DUMMY) (hp : NoPoint f.1) (hx : lower ≤ x ∧ x ≤ upper) :
    lower ≤ next_ge x f.1 ∧ next_ge x f.1 ≤ upper := by
  rcases (next_ge_found (x := x) hup hp).2 with h | h
  · rw [h]
    exact hx
  · exact h

end field

end Svr3.Crontab
