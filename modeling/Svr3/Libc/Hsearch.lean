import Mathlib.Data.BitVec
import Svr3.Lib.Probes
import Svr3.Lib.Run

/-!
# The hash table of `libc/port/gen/hsearch.c`

The routines as they are compiled without switches: open addressing, with a multiplicative hashing function. A
key is the list of its characters before the null character.
-/

namespace Svr3.Hsearch

open List

abbrev Key := List (BitVec 8)

/-- `ENTRY` -/
structure Entry (D : Type*) where
  key : Key
  data : D

inductive Action
  | FIND
  | ENTER

/-- The static variables -/
structure Hash (D : Type*) where
  table : List (Option (Entry D))
  length : ℕ
  m : ℕ
  count : ℕ
  prcnt : ℕ

/-- `FACTOR`, and `bitsper` for bytes of eight bits -/
def FACTOR : BitVec 32 := 0o35761254233#32
def bitsper : ℕ := 8

/-- `SHIFT` -/
def shift (m : ℕ) : ℕ := bitsper * 4 - m

/-- The sum of the characters, and their number -/
def crunch (key : Key) : BitVec 32 :=
  key.foldl (fun sum c => sum + c.signExtend 32) 0 + BitVec.ofNat 32 key.length

def hashm (m : ℕ) (key : Key) : ℕ := ((crunch key * FACTOR) >>> shift m).toNat

def hash2m (m : ℕ) (key : Key) : ℕ := ((((crunch key * FACTOR) <<< m) >>> shift m) ||| 1).toNat

variable {D : Type*}

def hdestroy (s : Hash D) : Hash D := { s with table := [], count := 0 }

/-- There is no table: at the start, or after `hdestroy`. -/
inductive NoTable : Hash D → Prop
  | start : NoTable ⟨[], 0, 0, 0, 0⟩
  | hdestroy (s : Hash D) : NoTable (hdestroy s)

/-- The slot where the search for a key ends, with `prcnt` and whether the key is there; `none` where a slot
outside of the table is read, or where there are more turns. -/
def probeLoop (s : Hash D) (key : Key) : ℕ → ℕ → ℕ → Option (ℕ × ℕ × Bool)
  | 0, _, _ => none
  | fuel + 1, i, prcnt =>
    match s.table[i]? with
    | none => none
    | some none => some (i, prcnt, false)
    | some (some e) =>
      if e.key = key then some (i, prcnt, true)
      else probeLoop s key fuel ((i + hash2m s.m key) % 2 ^ 32 % s.length) (prcnt + 1)

/-- `hsearch`, with the slot of the entry, or no slot for `NULL` -/
def hsearch (fuel : ℕ) (item : Entry D) (action : Action) (s : Hash D) : Option (Option ℕ × Hash D) :=
  match probeLoop s item.key fuel (hashm s.m item.key) 1 with
  | none => none
  | some (i, prcnt, true) => some (some i, { s with prcnt := prcnt })
  | some (i, prcnt, false) =>
    match action with
    | .FIND => some (none, { s with prcnt := prcnt })
    | .ENTER =>
      if s.count = s.length - 1 then some (none, { s with prcnt := prcnt })
      else some (some i, { s with
        prcnt := prcnt
        count := s.count + 1
        table := s.table.set i (some item) })

/-- The entry that `hsearch` points to -/
def entryAt (s : Hash D) (r : Option ℕ) : Option (Entry D) := r.bind fun i => s.table[i]?.join

/-! ## Hash functions -/

/-- A table of some bits, whose slots have the entries `d`. -/
structure Table (s : Hash D) (d : List (Entry D)) : Prop where
  bits : 0 < s.m ∧ s.m ≤ 31
  length : s.length = 2 ^ s.m
  slots : s.table.length = s.length
  probed : Probed Entry.key (hashm s.m) (hash2m s.m) s.length fun j => s.table[j]?.join
  entries : (s.table.filterMap id).Perm d
  count : s.count = d.length
  room : d.length < s.length

namespace Table

variable {s s' : Hash D} {d : List (Entry D)} {e item : Entry D} {key : Key} {i k fuel prcnt : ℕ}

/-- The entries are those in the slots. -/
theorem mem_iff (h : Table s d) : e ∈ d ↔ ∃ j : ℕ, s.table[j]?.join = some e := by
  rw [← h.entries.mem_iff, mem_filterMap]
  constructor
  · rintro ⟨o, ho, rfl⟩
    obtain ⟨j, hj⟩ := mem_iff_getElem?.mp ho
    exact ⟨j, by rw [hj]; rfl⟩
  · rintro ⟨j, hj⟩
    rw [Option.join_eq_some_iff] at hj
    exact ⟨some e, mem_of_getElem? hj, rfl⟩

end Table

/-! ## A bounded dictionary -/

/-- What is asked of a table with room for `cap` keys whose entries are `d`: the answer, and the entries
afterwards -/
def dict {D : Type*} (cap : ℕ) (item : Entry D) (action : Action) (d : List (Entry D)) :
    Option (Entry D) × List (Entry D) :=
  match d.find? fun e => e.key = item.key with
  | some e => (some e, d)
  | none =>
    match action with
    | .FIND => (none, d)
    | .ENTER => if d.length = cap then (none, d) else (some item, d ++ [item])

variable {s s' : Hash D} {d : List (Entry D)} {item : Entry D} {action : Action} {fuel : ℕ} {r : Option ℕ}

/-- A new entry comes to an empty slot of its sequence. -/
theorem Table.insert (h : Table s d) {k i p : ℕ}
    (hi : i = probe (hashm s.m item.key) (hash2m s.m item.key) s.length k)
    (hpass : Passes Entry.key (hashm s.m) (hash2m s.m) s.length (fun j => s.table[j]?.join) item.key k)
    (hempty : s.table[i]? = some none) (hroom : d.length + 1 < s.length) :
    Table { s with prcnt := p, count := s.count + 1, table := s.table.set i (some item) }
      (d ++ [item]) := by
  have hlt := (List.getElem?_eq_some_iff.mp hempty).1
  have hslots : (fun j => (s.table.set i (some item))[j]?.join) =
      Function.update (fun j => s.table[j]?.join) i (some item) := by
    funext j
    rw [List.getElem?_set]
    by_cases hj : i = j
    · subst hj
      rw [if_pos rfl, if_pos hlt, Function.update_self]
      rfl
    · rw [if_neg hj, Function.update_of_ne (Ne.symm hj)]
  refine ⟨h.bits, h.length, (length_set ..).trans h.slots, ?_, ?_, ?_, ?_⟩
  · change Probed Entry.key (hashm s.m) (hash2m s.m) s.length fun j =>
      (s.table.set i (some item))[j]?.join
    rw [hslots, hi]
    apply h.probed.insert hpass
    rw [← hi, hempty]
    rfl
  · -- the entries before and behind the slot are as they were
    have hcut : s.table = s.table.take i ++ none :: s.table.drop (i + 1) := by
      rw [← (List.getElem?_eq_some_iff.mp hempty).2, getElem_cons_drop, take_append_drop]
    have hold := h.entries
    rw [hcut, filterMap_append, filterMap_cons_none rfl] at hold
    change ((s.table.set i (some item)).filterMap id).Perm _
    have hnew (l : List (Option (Entry D))) : (some item :: l).filterMap id = item :: l.filterMap id :=
      filterMap_cons_some rfl
    rw [set_eq_take_append_cons_drop, if_pos hlt, filterMap_append, hnew]
    exact perm_middle.trans ((hold.cons item).trans (perm_append_singleton item d).symm)
  · change s.count + 1 = (d ++ [item]).length
    rw [length_append, h.count]
    rfl
  · change (d ++ [item]).length < s.length
    rw [length_append]
    exact hroom

/-- The answers of the calls in order: the entries that `hsearch` points to -/
def calls (fuel : ℕ) : Hash D → List (Entry D × Action) → Option (List (Option (Entry D)) × Hash D)
  | s, [] => some ([], s)
  | s, (item, action) :: as =>
    match hsearch fuel item action s with
    | none => none
    | some (r, s') => (calls fuel s' as).map fun x => (entryAt s' r :: x.1, x.2)

theorem NoTable.count (h : NoTable s) : s.count = 0 := by
  cases h with
  | start => rfl
  | hdestroy s => rfl

end Svr3.Hsearch
