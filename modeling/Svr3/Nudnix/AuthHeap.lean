import Svr3.Lib.Arenas
import Svr3.Lib.Run
import Mathlib.Algebra.Group.Nat.Defs

/-!
# The heap of `nudnix/auth.c`

The blocks of the heap are chained by offsets, and the lowest bit of a link marks its block busy. The offset
0 ends the chain.
-/

namespace Svr3.Auth

/-- `NBPC`, `ASIZE` and `sizeof(union heap)` -/
def nbpc : ℕ := 1024
def asize : ℕ := 4
def headSize : ℕ := 4

/-- `MAXALLOC` -/
def maxalloc : ℕ := nbpc - 2 * headSize

def isbusy (x : ℕ) : Bool := x % 2 = 1

def mkbusy (x : ℕ) : ℕ := x / 2 * 2 + 1

def mkfree (x : ℕ) : ℕ := x / 2 * 2

/-- `bump`, in unsigned arithmetic -/
def bump (s : ℕ) : ℕ := (s + if s % asize ≠ 0 then asize - s % asize else 0) % 2 ^ 32

/-- Whether `Heap` is set, the words of the heap by their offsets, and `Pavail` -/
structure Heap where
  ready : Bool
  h_next : ℕ → ℕ
  pavail : ℕ

namespace Heap

def set (hp w : ℕ) (s : Heap) : Heap := { s with h_next := Function.update s.h_next hp w }

def busy (s : Heap) (hp : ℕ) : Bool := isbusy (s.h_next hp)

/-- `otop(hp->h_next)` -/
def next (s : Heap) (hp : ℕ) : ℕ := mkfree (s.h_next hp)

/-- `mkfree(x->h_next)?mkfree(x->h_next):Pavail`, where the block ends -/
def limit (s : Heap) (hp : ℕ) : ℕ := if s.next hp ≠ 0 then s.next hp else s.pavail

end Heap

def howbig (s : Heap) (hp : ℕ) : ℤ := (s.limit hp : ℤ) - (hp + headSize)

/-- `if (Heap == NULL)`: the first time -/
def start (rfsize : ℕ) (s : Heap) : Heap :=
  if s.ready then s
  else ({ s with ready := true, pavail := rfsize } : Heap).set 0 0

/-- The loop over the free blocks behind the free block `hp` -/
def merge (hp : ℕ) : ℕ → Heap → Option Heap
  | 0, _ => none
  | fuel + 1, s =>
    if s.next hp ≠ 0 ∧ s.busy (s.next hp) = false then
      merge hp fuel (s.set hp (s.h_next (s.next hp)))
    else some s

/-- The block `hp` for the caller, when it has room -/
def take (size hp : ℕ) (s : Heap) : Option Heap :=
  if howbig s hp ≥ size + headSize then
    let thp := hp + (size + headSize)
    some ((s.set thp (s.h_next hp)).set hp (mkbusy thp))
  else if howbig s hp ≥ size then some (s.set hp (mkbusy (s.h_next hp)))
  else none

/-- The loop `do .. while (hp != Heap)` -/
def search (size : ℕ) : ℕ → ℕ → Heap → Option (Option ℕ × Heap)
  | 0, _, _ => none
  | fuel + 1, hp, s =>
    if s.busy hp then
      if s.next hp ≠ 0 then search size fuel (s.next hp) s else some (none, s)
    else
      match merge hp (fuel + 1) s with
      | none => none
      | some s =>
        match take size hp s with
        | some s => some (some (hp + headSize), s)
        | none => if s.next hp ≠ 0 then search size fuel (s.next hp) s else some (none, s)

/-- The offset of the caller's memory, or `none` for `NULL` with `ENOMEM` -/
def h_alloc (rfsize fuel size : ℕ) (s : Heap) : Option (Option ℕ × Heap) :=
  if bump size + headSize > maxalloc then some (none, start rfsize s)
  else search (bump size) fuel 0 (start rfsize s)

def h_free (offset : ℕ) (s : Heap) : Heap :=
  s.set (offset - headSize) (mkfree (s.h_next (offset - headSize)))

/-- The second `ASSERT` of `h_free` -/
def Asserts (offset : ℕ) (s : Heap) : Prop :=
  s.busy (offset - headSize) = true ∧ 0 < s.h_next (offset - headSize) ∧
    s.h_next (offset - headSize) < s.pavail + 1

end Svr3.Auth
