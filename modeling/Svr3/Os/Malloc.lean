import Svr3.Lib.Extents
import Svr3.Lib.Run
import Mathlib.Tactic.Ring

/-!
# The resource map allocator of `os/malloc.c`

A map is an array of `struct map`: slot 0 holds the number of empty slots and the sleep flag, the
slots from 1 on hold the free runs in increasing order and end in a slot of size 0. Unit numbers
and sizes are unsigned 32-bit words. A function of the model answers `none` when the source would
run past the end of the array.
-/

namespace Svr3.Malloc

open Set Extent

/-- Truncation to an unsigned 32-bit word. -/
def uint (n : ℕ) : ℕ := n % 2 ^ 32

/-- `struct map`, one slot of a resource map. -/
structure Map where
  m_size : ℕ
  m_addr : ℕ
deriving DecidableEq, Repr

/-- A resource map `X`: `mapsize(X)` and `mapwant(X)` are the two members of `X[0]`, `slot` are
`X[1]`, `X[2]`, and so on. `lost` collects the runs (size, base) that `mfree` reported on the
console as lost to an overflow of the map. -/
structure RMap where
  mapsize : ℕ
  mapwant : ℕ
  slot : List Map
  lost : List (ℕ × ℕ)
deriving DecidableEq, Repr

/-- `mapinit(X, k + 2)` on an array of `k + 2` zeroed slots. -/
def mapinit (k : ℕ) : RMap := ⟨k, 0, List.replicate (k + 1) ⟨0, 0⟩, []⟩

/-- `do { bp++; (bp-1)->m_addr = bp->m_addr } while ((bp-1)->m_size = bp->m_size)` -/
def moveDown : List Map → Option (List Map)
  | [] => none
  | [_] => none
  | _ :: b :: rest => if b.m_size = 0 then some (b :: b :: rest) else (moveDown (b :: rest)).map (b :: ·)

/-- The loop of `malloc`: the base that is handed out (0 when no entry is large enough), the
slots, and whether a slot became empty. -/
def mallocScan (size : ℕ) : List Map → Option (ℕ × List Map × Bool)
  | [] => none
  | bp :: rest =>
    if bp.m_size = 0 then some (0, bp :: rest, false)
    else if size ≤ bp.m_size then
      if bp.m_size - size = 0 then
        (moveDown (⟨0, uint (bp.m_addr + size)⟩ :: rest)).map fun l => (bp.m_addr, l, true)
      else some (bp.m_addr, ⟨bp.m_size - size, uint (bp.m_addr + size)⟩ :: rest, false)
    else (mallocScan size rest).map fun r => (r.1, bp :: r.2.1, r.2.2)

/-- `malloc(mp, size)` -/
def malloc (mp : RMap) (size : ℕ) : Option (ℕ × RMap) :=
  if size = 0 then some (0, mp)
  else (mallocScan size mp.slot).map fun r =>
    (r.1, { mp with slot := r.2.1, mapsize := mp.mapsize + if r.2.2 then 1 else 0 })

/-- `while (bp->m_size) { bp++; *(bp-1) = *bp }` -/
def compress : List Map → Option (List Map)
  | [] => none
  | [bp] => if bp.m_size = 0 then some [bp] else none
  | bp :: b :: rest =>
    if bp.m_size = 0 then some (bp :: b :: rest) else (compress (b :: rest)).map (b :: ·)

/-- The do-while loop that pushes the run `size`, `a` into the slots from `bp` on. -/
def pushUp (size a : ℕ) : List Map → Option (List Map)
  | [] => none
  | bp :: rest =>
    if bp.m_size = 0 then some (⟨size, a⟩ :: rest)
    else (pushUp bp.m_size bp.m_addr rest).map (⟨size, a⟩ :: ·)

/-- The end of `mfree`: the changed slots, and the wakeup of the processes that want space. -/
def RMap.finish (mp : RMap) (slot : List Map) (mapsize : ℕ) : RMap :=
  { mp with slot := slot, mapsize := mapsize, mapwant := 0 }

/-- The branch of `mfree` that does not extend the entry before `bp`; `pre` are the slots before
`bp`, the nearest first. -/
def mfreeInsert (mp : RMap) (size a : ℕ) (pre : List Map) (bp : Map) (rest : List Map) :
    Option RMap :=
  if uint (a + size) = bp.m_addr ∧ bp.m_size ≠ 0 then
    let bp' : Map := ⟨uint (bp.m_size + size), uint (bp.m_addr + (2 ^ 32 - size))⟩
    some (mp.finish (pre.reverse ++ bp' :: rest) mp.mapsize)
  else if mp.mapsize = 0 then some { mp with lost := (size, a) :: mp.lost }
  else (pushUp size a (bp :: rest)).map fun l => mp.finish (pre.reverse ++ l) (mp.mapsize - 1)

/-- The branches of `mfree` once `bp` is found. -/
def mfreeAt (mp : RMap) (size a : ℕ) (pre : List Map) (bp : Map) (rest : List Map) :
    Option RMap :=
  match pre with
  | [] => mfreeInsert mp size a [] bp rest
  | p :: before =>
    if uint (p.m_addr + p.m_size) = a then
      let p1 : Map := { p with m_size := uint (p.m_size + size) }
      -- an entry of address 0 is the end of the map table
      if bp.m_addr ≠ 0 ∧ uint (a + size) = bp.m_addr then
        let p2 : Map := { p1 with m_size := uint (p1.m_size + bp.m_size) }
        (compress (bp :: rest)).map fun l =>
          mp.finish (before.reverse ++ p2 :: l) (mp.mapsize + 1)
      else some (mp.finish (before.reverse ++ p1 :: bp :: rest) mp.mapsize)
    else mfreeInsert mp size a (p :: before) bp rest

/-- `for (; bp->m_addr <= a && bp->m_size != 0; bp++);` and then the branches. -/
def mfreeScan (mp : RMap) (size a : ℕ) : List Map → List Map → Option RMap
  | _, [] => none
  | pre, bp :: rest =>
    if bp.m_addr ≤ a ∧ bp.m_size ≠ 0 then mfreeScan mp size a (bp :: pre) rest
    else mfreeAt mp size a pre bp rest

/-- `mfree(mp, size, a)` -/
def mfree (mp : RMap) (size a : ℕ) : Option RMap :=
  if size = 0 then some mp else mfreeScan mp size a [] mp.slot

/-! ## The slots of a list of free runs -/

/-- The slot that describes a free run. -/
def slotOf (e : Extent) : Map := ⟨e.size, e.base⟩

/-- The slots of the free runs `es`, followed by `z` empty slots. -/
def slots (es : List Extent) (z : ℕ) : List Map := es.map slotOf ++ List.replicate z ⟨0, 0⟩

@[simp] theorem slots_nil (z : ℕ) : slots [] z = List.replicate z ⟨0, 0⟩ := rfl

@[simp] theorem slots_cons (e : Extent) (es : List Extent) (z : ℕ) :
    slots (e :: es) z = slotOf e :: slots es z := rfl

@[simp] theorem slotOf_size (e : Extent) : (slotOf e).m_size = e.size := rfl

@[simp] theorem slotOf_addr (e : Extent) : (slotOf e).m_addr = e.base := rfl

theorem slots_append (l r : List Extent) (z : ℕ) :
    slots (l ++ r) z = l.map slotOf ++ slots r z := by
  simp [slots]

theorem moveDown_slots (x : Map) {es : List Extent} (z : ℕ) (h : ∀ e ∈ es, 0 < e.size) :
    moveDown (x :: slots es (z + 1)) = some (slots es (z + 2)) := by
  induction es generalizing x with
  | nil => simp [List.replicate_succ, moveDown]
  | cons e es ih =>
    have he : e.size ≠ 0 := (h e (by simp)).ne'
    simp only [slots_cons, moveDown, slotOf_size, he, if_false]
    rw [ih (slotOf e) fun f hf => h f (by simp [hf])]
    rfl

theorem compress_slots {es : List Extent} (z : ℕ) (h : ∀ e ∈ es, 0 < e.size) {e : Extent}
    (he : 0 < e.size) : compress (slots (e :: es) (z + 1)) = some (slots es (z + 2)) := by
  induction es generalizing e with
  | nil => simp [List.replicate_succ, compress, he.ne', compress_zero]
  | cons f es ih =>
    simp only [slots_cons, compress, slotOf_size, he.ne', if_false]
    have := ih (fun g hg => h g (by simp [hg])) (h f (by simp))
    rw [slots_cons] at this
    rw [this]
    rfl
where
  compress_zero : ∀ l : List Map, compress (⟨0, 0⟩ :: l) = some (⟨0, 0⟩ :: l)
    | [] => by simp [compress]
    | b :: l => by simp [compress]

theorem pushUp_slots (n a : ℕ) {es : List Extent} (z : ℕ) (h : ∀ e ∈ es, 0 < e.size) :
    pushUp n a (slots es (z + 1)) = some (⟨n, a⟩ :: slots es z) := by
  induction es generalizing n a with
  | nil => simp [List.replicate_succ, pushUp]
  | cons e es ih =>
    have he : e.size ≠ 0 := (h e (by simp)).ne'
    simp only [slots_cons, pushUp, slotOf_size, he, if_false]
    rw [ih _ _ fun f hf => h f (by simp [hf])]
    rfl

/-! ## What one call does -/

/-- The map describes the free runs `es`: separated runs of units from 1 to `2 ^ 32 - 1`, then
only empty slots, `k` slots for runs in all. -/
structure Describes (mp : RMap) (k : ℕ) (es : List Extent) : Prop where
  slot : mp.slot = slots es (mp.mapsize + 1)
  count : mp.mapsize + es.length = k
  sep : Separated es
  word : ∀ e ∈ es, 1 ≤ e.base ∧ e.stop ≤ 2 ^ 32

theorem mapinit_describes (k : ℕ) : Describes (mapinit k) k [] :=
  ⟨rfl, by simp [mapinit], separated_nil, by simp⟩

theorem mallocScan_none {es : List Extent} {n : ℕ} (z : ℕ) (hpos : ∀ e ∈ es, 0 < e.size)
    (h : ∀ e ∈ es, e.size < n) :
    mallocScan n (slots es (z + 1)) = some (0, slots es (z + 1), false) := by
  induction es with
  | nil => simp [List.replicate_succ, mallocScan]
  | cons e es ih =>
    have he : e.size ≠ 0 := (hpos e (by simp)).ne'
    have hn : ¬ n ≤ e.size := by have := h e (by simp); omega
    simp only [slots_cons, mallocScan, slotOf_size, he, hn, if_false]
    rw [ih (fun f hf => hpos f (by simp [hf])) fun f hf => h f (by simp [hf])]
    rfl

theorem mallocScan_some {l r : List Extent} {e : Extent} {n : ℕ} (z : ℕ) (hn : 0 < n)
    (hpos : ∀ f ∈ l ++ e :: r, 0 < f.size) (hw : e.stop ≤ 2 ^ 32)
    (hl : ∀ f ∈ l, f.size < n) (he : n ≤ e.size) :
    mallocScan n (slots (l ++ e :: r) (z + 1)) =
      if e.size = n then some (e.base, slots (l ++ r) (z + 2), true)
      else some (e.base, slots (l ++ ⟨e.base + n, e.size - n⟩ :: r) (z + 1), false) := by
  induction l with
  | nil =>
    have h0 : e.size ≠ 0 := by omega
    simp only [List.nil_append, slots_cons, mallocScan, slotOf_size, slotOf_addr, h0, if_false,
      he, if_true]
    rcases he.lt_or_eq with hlt | rfl
    · have h1 : e.size - n ≠ 0 := by omega
      have h2 : uint (e.base + n) = e.base + n := by
        simp only [stop] at hw
        exact Nat.mod_eq_of_lt (by omega)
      simp only [h1, if_false, hlt.ne', h2]
      rfl
    · rw [moveDown_slots _ z fun f hf => hpos f (by simp [hf])]
      simp
  | cons f l ih =>
    have hf0 : f.size ≠ 0 := (hpos f (by simp)).ne'
    have hfn : ¬ n ≤ f.size := by have := hl f (by simp); omega
    simp only [List.cons_append, slots_cons, mallocScan, slotOf_size, hf0, hfn, if_false]
    rw [ih (fun g hg => hpos g (by simp at hg ⊢; tauto)) fun g hg => hl g (by simp [hg])]
    split <;> rfl

/-- `malloc` of `n` units hands out the least base of a free run of `n` units, or 0 when there is
no such run. -/
theorem malloc_spec {mp : RMap} {k : ℕ} {es : List Extent} (h : Describes mp k es) {n : ℕ}
    (hn : 0 < n) :
    ∃ a mp', malloc mp n = some (a, mp') ∧ mp'.lost = mp.lost ∧
      ((a = 0 ∧ mp' = mp ∧ ∀ b, ¬ Ico b (b + n) ⊆ units es) ∨
        (a ≠ 0 ∧ IsLeast {b | Ico b (b + n) ⊆ units es} a ∧
          ∃ es', Describes mp' k es' ∧ units es' = units es \ Ico a (a + n))) := by
  have hn0 : n ≠ 0 := hn.ne'
  have hcount := h.count
  rcases exists_firstFit n es with hshort | ⟨l, e, r, rfl, hl, he⟩
  · refine ⟨0, mp, ?_, rfl, Or.inl ⟨rfl, rfl, h.sep.no_run hn hshort⟩⟩
    simp [malloc, hn0, h.slot, mallocScan_none _ h.sep.2 hshort]
    rw [← h.slot]
  · have hw := h.word e (by simp)
    have hleast := h.sep.firstFit hn hl he
    have hscan := mallocScan_some mp.mapsize hn h.sep.2 hw.2 hl he
    have ha : e.base ≠ 0 := by omega
    rcases he.lt_or_eq with hlt | rfl
    · refine ⟨e.base, { mp with slot := slots (l ++ ⟨e.base + n, e.size - n⟩ :: r) (mp.mapsize + 1) },
        ?_, rfl, Or.inr ⟨ha, hleast, _, ⟨rfl, ?_, h.sep.shrink hlt, ?_⟩, h.sep.units_shrink he⟩⟩
      · simp [malloc, hn0, h.slot, hscan, hlt.ne']
      · simpa using hcount
      · intro f hf
        rcases List.mem_append.mp hf with hf | hf
        · exact h.word f (by simp [hf])
        · rcases List.mem_cons.mp hf with rfl | hf
          · simp only [stop] at hw ⊢
            omega
          · exact h.word f (by simp [hf])
    · refine ⟨e.base, { mp with slot := slots (l ++ r) (mp.mapsize + 2), mapsize := mp.mapsize + 1 },
        ?_, rfl, Or.inr ⟨ha, hleast, l ++ r, ⟨rfl, ?_, ?_, ?_⟩, h.sep.units_remove⟩⟩
      · simp [malloc, hn0, h.slot, hscan]
      · simp only [List.length_append, List.length_cons] at hcount ⊢
        omega
      · exact h.sep.sublist (by simp)
      · intro f hf
        exact h.word f (by simp at hf ⊢; tauto)

/-- The scan of `mfree` stops at the slot after the entries that start at or below `a`. -/
theorem mfreeScan_slots (mp : RMap) (n a z : ℕ) (pre : List Map) {l r : List Extent}
    (hl : ∀ f ∈ l, f.base ≤ a ∧ 0 < f.size) (hr : ∀ f ∈ r, a < f.base) :
    ∃ bp rest, slots r (z + 1) = bp :: rest ∧
      mfreeScan mp n a pre (slots (l ++ r) (z + 1)) =
        mfreeAt mp n a ((l.map slotOf).reverse ++ pre) bp rest := by
  induction l generalizing pre with
  | nil =>
    cases r with
    | nil => exact ⟨⟨0, 0⟩, List.replicate z ⟨0, 0⟩, by simp [List.replicate_succ], by
        simp [List.replicate_succ, mfreeScan]⟩
    | cons q r =>
      have hq : ¬ q.base ≤ a := by have := hr q (by simp); omega
      exact ⟨slotOf q, slots r (z + 1), rfl, by simp [mfreeScan, hq]⟩
  | cons e l ih =>
    obtain ⟨hb, hs⟩ := hl e (by simp)
    obtain ⟨bp, rest, h1, h2⟩ := ih (slotOf e :: pre) fun f hf => hl f (by simp [hf])
    refine ⟨bp, rest, h1, ?_⟩
    simp only [List.cons_append, slots_cons, mfreeScan, slotOf_addr, slotOf_size, hb, hs.ne',
      ne_eq, not_false_iff, and_self, if_true, h2]
    simp

section Placed

variable {mp : RMap} {k n a : ℕ} {l r : List Extent}

/-- The hypotheses of the branches: `n` units from `a` on are given back between the free runs
`l` and `r`, and touch none of them. -/
structure Placed (mp : RMap) (k n a : ℕ) (l r : List Extent) : Prop where
  desc : Describes mp k (l ++ r)
  pos : 0 < n
  base : 1 ≤ a
  stop : a + n ≤ 2 ^ 32
  left : ∀ f ∈ l, f.base ≤ a ∧ f.stop ≤ a
  right : ∀ f ∈ r, a < f.base ∧ a + n ≤ f.base

/-- What a call of `mfree` leaves: the console report of an overflow, or the free runs with the
units from `a` to `a + n` added. -/
def Freed (mp : RMap) (k n a : ℕ) (es : List Extent) (mp' : RMap) : Prop :=
  (mp'.lost = (n, a) :: mp.lost) ∨
    (mp'.lost = mp.lost ∧
      ∃ es', Describes mp' k es' ∧ units es' = units es ∪ Ico a (a + n))

/-- The freed units become a run of their own. -/
theorem Placed.freed_new (h : Placed mp k n a l r) (hz : mp.mapsize ≠ 0)
    (hl : ∀ f ∈ l, f.stop < a) (hr : ∀ f ∈ r, a + n < f.base) :
    Freed mp k n a (l ++ r)
      (mp.finish (slots (l ++ ⟨a, n⟩ :: r) mp.mapsize) (mp.mapsize - 1)) := by
  refine Or.inr ⟨rfl, l ++ ⟨a, n⟩ :: r, ⟨?_, ?_, ?_, ?_⟩, ?_⟩
  · simp [RMap.finish, Nat.sub_add_cancel (Nat.pos_of_ne_zero hz)]
  · have := h.desc.count
    simp only [RMap.finish, List.length_append, List.length_cons] at this ⊢
    omega
  · have hs := List.pairwise_append.mp h.desc.sep.1
    exact separated_split.mpr ⟨h.desc.sep.sublist (List.sublist_append_left l r),
      h.desc.sep.sublist (List.sublist_append_right l r), h.pos, hl, hr⟩
  · intro f hf
    rcases List.mem_append.mp hf with hf | hf
    · exact h.desc.word f (by simp [hf])
    · rcases List.mem_cons.mp hf with rfl | hf
      · exact ⟨h.base, h.stop⟩
      · exact h.desc.word f (by simp [hf])
  · rw [units_split, units_append, union_comm (Ico _ _), union_assoc]
    rfl

/-- The freed units join the run before them. -/
theorem Placed.freed_left {p : Extent} (h : Placed mp k n a (l ++ [p]) r) (hp : p.stop = a)
    (hr : ∀ f ∈ r, a + n < f.base) :
    Freed mp k n a (l ++ [p] ++ r)
      (mp.finish (slots (l ++ ⟨p.base, p.size + n⟩ :: r) (mp.mapsize + 1)) mp.mapsize) := by
  have hsep : Separated (l ++ p :: r) := by simpa using h.desc.sep
  obtain ⟨hl, hr', hpos, hlp, -⟩ := separated_split.mp hsep
  have hw := h.desc.word p (by simp)
  refine Or.inr ⟨rfl, l ++ ⟨p.base, p.size + n⟩ :: r, ⟨rfl, ?_, ?_, ?_⟩, ?_⟩
  · simpa [RMap.finish] using h.desc.count
  · refine separated_split.mpr ⟨hl, hr', by simp only; omega, hlp, ?_⟩
    intro f hf
    have := hr f hf
    simp only [Extent.stop] at hp ⊢
    omega
  · intro f hf
    rcases List.mem_append.mp hf with hf | hf
    · exact h.desc.word f (by simp [hf])
    · rcases List.mem_cons.mp hf with rfl | hf
      · have := h.stop
        simp only [Extent.stop] at hp hw ⊢
        omega
      · exact h.desc.word f (by simp [hf])
  · ext u
    rw [List.append_assoc, List.singleton_append]
    simp only [units_split, Extent.stop, mem_union, mem_Ico] at hp ⊢
    constructor
    · rintro (h1 | h1 | h1)
      · tauto
      · by_cases h2 : u < p.base + p.size
        · tauto
        · exact Or.inr (by omega)
      · tauto
    · rintro ((h1 | h1 | h1) | h1)
      · tauto
      · exact Or.inr (Or.inl (by omega))
      · tauto
      · exact Or.inr (Or.inl (by omega))

/-- The freed units join the run after them. -/
theorem Placed.freed_right {q : Extent} (h : Placed mp k n a l (q :: r)) (hq : a + n = q.base)
    (hl : ∀ f ∈ l, f.stop < a) :
    Freed mp k n a (l ++ q :: r)
      (mp.finish (slots (l ++ ⟨a, q.size + n⟩ :: r) (mp.mapsize + 1)) mp.mapsize) := by
  obtain ⟨hl', hr', hpos, -, hqr⟩ := separated_split.mp h.desc.sep
  have hw := h.desc.word q (by simp)
  refine Or.inr ⟨rfl, l ++ ⟨a, q.size + n⟩ :: r, ⟨rfl, ?_, ?_, ?_⟩, ?_⟩
  · simpa [RMap.finish] using h.desc.count
  · refine separated_split.mpr ⟨hl', hr', by simp only; omega, hl, ?_⟩
    intro f hf
    have := hqr f hf
    simp only [Extent.stop] at this ⊢
    omega
  · intro f hf
    rcases List.mem_append.mp hf with hf | hf
    · exact h.desc.word f (by simp [hf])
    · rcases List.mem_cons.mp hf with rfl | hf
      · have := h.base
        simp only [Extent.stop] at hw ⊢
        omega
      · exact h.desc.word f (by simp [hf])
  · ext u
    simp only [units_split, Extent.stop, mem_union, mem_Ico]
    constructor
    · rintro (h1 | h1 | h1)
      · tauto
      · by_cases h2 : u < q.base
        · exact Or.inr (by omega)
        · exact Or.inl (Or.inr (Or.inl (by omega)))
      · tauto
    · rintro ((h1 | h1 | h1) | h1)
      · tauto
      · exact Or.inr (Or.inl (by omega))
      · tauto
      · exact Or.inr (Or.inl (by omega))

/-- The freed units close the gap between two runs. -/
theorem Placed.freed_both {p q : Extent} (h : Placed mp k n a (l ++ [p]) (q :: r))
    (hp : p.stop = a) (hq : a + n = q.base) :
    Freed mp k n a (l ++ [p] ++ q :: r)
      (mp.finish (slots (l ++ ⟨p.base, p.size + n + q.size⟩ :: r) (mp.mapsize + 2))
        (mp.mapsize + 1)) := by
  have hsep : Separated (l ++ p :: q :: r) := by simpa using h.desc.sep
  obtain ⟨hl, hr, hpos, hlp, -⟩ := separated_split.mp hsep
  obtain ⟨-, hr', -, -, hqr⟩ := separated_split (l := []).mp hr
  have hw := h.desc.word p (by simp)
  have hw' := h.desc.word q (by simp)
  refine Or.inr ⟨rfl, l ++ ⟨p.base, p.size + n + q.size⟩ :: r, ⟨rfl, ?_, ?_, ?_⟩, ?_⟩
  · have := h.desc.count
    simp only [RMap.finish, List.length_append, List.length_cons, List.length_nil] at this ⊢
    omega
  · refine separated_split.mpr ⟨hl, hr', by simp only; omega, hlp, ?_⟩
    intro f hf
    have := hqr f hf
    simp only [Extent.stop] at hp this ⊢
    omega
  · intro f hf
    rcases List.mem_append.mp hf with hf | hf
    · exact h.desc.word f (by simp [hf])
    · rcases List.mem_cons.mp hf with rfl | hf
      · simp only [Extent.stop] at hp hw hw' ⊢
        omega
      · exact h.desc.word f (by simp [hf])
  · ext u
    rw [List.append_assoc, List.singleton_append]
    simp only [units_split, units_cons, Extent.stop, mem_union, mem_Ico] at hp ⊢
    constructor
    · rintro (h1 | h1 | h1)
      · tauto
      · by_cases h2 : u < p.base + p.size
        · tauto
        · by_cases h3 : u < q.base
          · exact Or.inr (by omega)
          · exact Or.inl (Or.inr (Or.inr (Or.inl (by omega))))
      · tauto
    · rintro ((h1 | h1 | h1 | h1) | h1)
      · tauto
      · exact Or.inr (Or.inl (by omega))
      · exact Or.inr (Or.inl (by omega))
      · tauto
      · exact Or.inr (Or.inl (by omega))

end Placed

theorem mfreeInsert_spec {mp : RMap} {k n a : ℕ} {l r : List Extent} (h : Placed mp k n a l r)
    (hl : ∀ f ∈ l, f.stop < a) {bp : Map} {rest : List Map}
    (hbp : slots r (mp.mapsize + 1) = bp :: rest) :
    ∃ mp', mfreeInsert mp n a (l.map slotOf).reverse bp rest = some mp' ∧
      Freed mp k n a (l ++ r) mp' := by
  have hstop := h.stop
  by_cases hc : uint (a + n) = bp.m_addr ∧ bp.m_size ≠ 0
  · cases r with
    | nil =>
      simp only [slots_nil, List.replicate_succ, List.cons.injEq] at hbp
      exact absurd rfl (hbp.1 ▸ hc.2)
    | cons q r =>
      simp only [slots_cons, List.cons.injEq] at hbp
      obtain ⟨rfl, rfl⟩ := hbp
      have hq := h.right q (by simp)
      have hw := h.desc.word q (by simp)
      have hpos := h.desc.sep.2 q (by simp)
      simp only [slotOf_addr, slotOf_size, Extent.stop] at hc hw
      have hqa : a + n = q.base := by rw [← hc.1, uint, Nat.mod_eq_of_lt (by omega)]
      have ha := h.base
      refine ⟨_, if_pos hc, ?_⟩
      have h1 : uint (q.size + n) = q.size + n := Nat.mod_eq_of_lt (by omega)
      have h2 : uint (q.base + (2 ^ 32 - n)) = a := by
        have hsub : q.base + (2 ^ 32 - n) = a + 2 ^ 32 := by omega
        rw [hsub, uint, Nat.add_mod_right, Nat.mod_eq_of_lt (by omega)]
      have := h.freed_right hqa hl
      simp only [slotOf_addr, slotOf_size, h1, h2]
      simpa [slots_append, slotOf] using this
  · by_cases hz : mp.mapsize = 0
    · exact ⟨_, by rw [mfreeInsert, if_neg hc, if_pos hz], Or.inl rfl⟩
    · have hr : ∀ f ∈ r, a + n < f.base := by
        intro f hf
        obtain ⟨q, r', rfl⟩ := List.exists_cons_of_ne_nil (List.ne_nil_of_mem hf)
        simp only [slots_cons, List.cons.injEq] at hbp
        obtain ⟨rfl, -⟩ := hbp
        obtain ⟨-, hs, hpos, -, hqr⟩ := separated_split.mp h.desc.sep
        have hq := h.right q (by simp)
        have hw := h.desc.word q (by simp)
        have hne : a + n ≠ q.base := by
          intro he
          refine hc ⟨?_, hpos.ne'⟩
          simp only [slotOf_addr, Extent.stop] at hw ⊢
          rw [he, uint, Nat.mod_eq_of_lt (by omega)]
        rcases List.mem_cons.mp hf with rfl | hf
        · omega
        · have := hqr f hf
          simp only [Extent.stop] at this
          omega
      refine ⟨_, ?_, h.freed_new hz hl hr⟩
      rw [mfreeInsert, if_neg hc, if_neg hz, ← hbp,
        pushUp_slots n a mp.mapsize fun f hf => h.desc.sep.2 f (by simp [hf])]
      simp [slots_append, slotOf]

theorem Placed.separated_mid {mp : RMap} {k n a : ℕ} {l r : List Extent} {p : Extent}
    (h : Placed mp k n a (l ++ [p]) r) : Separated (l ++ p :: r) := by
  simpa using h.desc.sep

/-- `mfree` of units that follow the free run `p` directly. -/
theorem mfreeAt_touching {mp : RMap} {k n a : ℕ} {l r : List Extent} {p : Extent}
    (h : Placed mp k n a (l ++ [p]) r) (hpa : p.stop = a) {bp : Map} {rest : List Map}
    (hbp : slots r (mp.mapsize + 1) = bp :: rest) :
    ∃ mp', mfreeAt mp n a (slotOf p :: (l.map slotOf).reverse) bp rest = some mp' ∧
      Freed mp k n a (l ++ [p] ++ r) mp' := by
  have hstop := h.stop
  have hwp := h.desc.word p (by simp)
  have hn := h.pos
  have h1 : uint (p.base + p.size) = a := by
    rw [← hpa, uint, Nat.mod_eq_of_lt]
    · rfl
    · rw [← Extent.stop]
      omega
  have h2 : uint (p.size + n) = p.size + n := by
    simp only [Extent.stop] at hpa hwp
    exact Nat.mod_eq_of_lt (by omega)
  simp only [mfreeAt, slotOf_addr, slotOf_size, h1, if_true, h2]
  cases r with
  | nil =>
    simp only [slots_nil, List.replicate_succ, List.cons.injEq] at hbp
    obtain ⟨rfl, rfl⟩ := hbp
    have := h.freed_left hpa (by simp)
    refine ⟨_, if_neg (by simp), ?_⟩
    simpa [slots_append, slotOf, List.replicate_succ] using this
  | cons q r =>
    simp only [slots_cons, List.cons.injEq] at hbp
    obtain ⟨rfl, rfl⟩ := hbp
    have hq := h.right q (by simp)
    have hwq := h.desc.word q (by simp)
    have hq0 : 0 < q.size := h.desc.sep.2 q (by simp)
    simp only [Extent.stop] at hwq
    have ha' : uint (a + n) = a + n := Nat.mod_eq_of_lt (by omega)
    simp only [slotOf_addr, slotOf_size, ha']
    by_cases hqe : a + n = q.base
    · have hb0 : q.base ≠ 0 := by omega
      have hc := compress_slots mp.mapsize
        (fun f hf => h.desc.sep.2 f (by simp [hf]) : ∀ f ∈ r, 0 < f.size) hq0
      rw [slots_cons] at hc
      rw [if_pos ⟨hb0, hqe⟩, hc]
      have h3 : uint (p.size + n + q.size) = p.size + n + q.size := by
        simp only [Extent.stop] at hpa
        exact Nat.mod_eq_of_lt (by omega)
      have := h.freed_both hpa hqe
      refine ⟨_, rfl, ?_⟩
      simp only [h3]
      simpa [slots_append, slotOf] using this
    · have hr : ∀ f ∈ q :: r, a + n < f.base := by
        intro f hf
        obtain ⟨-, hs, -, -, -⟩ := separated_split.mp h.separated_mid
        obtain ⟨-, -, -, -, hqr⟩ := separated_split (l := []).mp hs
        rcases List.mem_cons.mp hf with rfl | hf
        · omega
        · have := hqr f hf
          simp only [Extent.stop] at this
          omega
      have := h.freed_left hpa hr
      refine ⟨_, if_neg (by tauto), ?_⟩
      simpa [slots_append, slotOf] using this

/-- `mfree` of `n` uncovered units adds exactly these to the free runs, unless it needs a new
entry and has none. -/
theorem mfree_spec {mp : RMap} {k : ℕ} {es : List Extent} (h : Describes mp k es) {n a : ℕ}
    (hn : 0 < n) (ha : 1 ≤ a) (hstop : a + n ≤ 2 ^ 32)
    (hd : Disjoint (Ico a (a + n)) (units es)) :
    ∃ mp', mfree mp n a = some mp' ∧ Freed mp k n a es mp' := by
  obtain ⟨l, r, rfl, hl, hr⟩ := h.sep.exists_place hn hd
  have hp : Placed mp k n a l r := ⟨h, hn, ha, hstop, hl, hr⟩
  obtain ⟨bp, rest, hbp, hscan⟩ := mfreeScan_slots mp n a mp.mapsize [] (l := l) (r := r)
    (fun f hf => ⟨(hl f hf).1, h.sep.2 f (by simp [hf])⟩) fun f hf => (hr f hf).1
  rw [List.append_nil] at hscan
  rw [mfree, if_neg hn.ne', h.slot, hscan]
  rcases List.eq_nil_or_concat l with rfl | ⟨l, p, rfl⟩
  · exact mfreeInsert_spec hp (by simp) hbp
  · rw [List.concat_eq_append] at *
    have hrev : ((l ++ [p]).map slotOf).reverse = slotOf p :: (l.map slotOf).reverse := by simp
    have hpa := hl p (by simp)
    rw [hrev]
    rcases hpa.2.eq_or_lt with hpe | hpl
    · exact mfreeAt_touching hp hpe hbp
    · have h1 : uint (p.base + p.size) ≠ a := by
        simp only [Extent.stop] at hpl
        rw [uint, Nat.mod_eq_of_lt (by omega)]
        exact hpl.ne
      have hlt : ∀ f ∈ l ++ [p], f.stop < a := by
        obtain ⟨-, -, -, hlp, -⟩ := separated_split.mp hp.separated_mid
        intro f hf
        rcases List.mem_append.mp hf with hf | hf
        · have := hlp f hf
          omega
        · rw [List.mem_singleton.mp hf]
          exact hpl
      simp only [mfreeAt, slotOf_addr, slotOf_size, h1, if_false]
      rw [← hrev]
      exact mfreeInsert_spec hp hlt hbp

end Svr3.Malloc
