import Svr3.Lib.Arenas
import Svr3.Lib.Run
import Mathlib.Algebra.Group.Nat.Defs

/-!
# The allocator of `libc/port/gen/malloc.c`

Each block is preceded by a word that points to the next block and is busy or idle. Addresses count bytes
of a memory of 2^32 bytes; what `sbrk` answers is an input of each growth.
-/

namespace Svr3.Libc

/-- `WORD`, `BLOCK` and `MAXALLOC` -/
def word : ℕ := 4
def block : ℕ := 1024
def maxalloc : ℕ := 2 ^ 31 - 1 - block + 1

/-- A word of memory, as a pointer with its bit `BUSY` -/
structure Store where
  ptr : ℕ
  busy : Bool

/-- The word that a pointer is, whose lowest bit is `BUSY` -/
def Store.ofAddr (v : ℕ) : Store := ⟨v / 2 * 2, v % 2 = 1⟩

/-- The memory, the address of `allocs`, and the other static variables -/
structure Sys where
  mem : ℕ → Store
  allocs : ℕ
  allocp : ℕ
  alloct : ℕ
  allocx : Store
  allocend : ℕ

/-- An answer of the system: the break that `sbrk(0)` returns, and whether the calls of `sbrk` for
`MAXALLOC` and for the rest succeed. -/
structure Brk where
  brk : ℕ
  first : Bool
  rest : Bool

namespace Sys

def set (a : ℕ) (w : Store) (s : Sys) : Sys := { s with mem := Function.update s.mem a w }

def ptr (s : Sys) (a : ℕ) : ℕ := (s.mem a).ptr

def busy (s : Sys) (a : ℕ) : Bool := (s.mem a).busy

end Sys

/-- `if(allocs[0].ptr == 0)`: the first time -/
def start (s : Sys) : Sys :=
  if s.ptr s.allocs = 0 ∧ s.busy s.allocs = false then
    { (s.set s.allocs ⟨s.allocs + word, true⟩).set (s.allocs + word) ⟨s.allocs, true⟩ with
      alloct := s.allocs + word
      allocp := s.allocs
      allocend := s.allocs + word }
  else s

/-- `nw = (nbytes+WORD+WORD-1)/WORD`, in unsigned arithmetic -/
def nwords (nbytes : ℕ) : ℕ := (nbytes + word + word - 1) % 2 ^ 32 / word

/-- `while(!testbusy((q=p->ptr)->ptr))`: the idle blocks behind `p` become a part of it. -/
def coalesce (p : ℕ) : ℕ → Sys → Option (ℕ × Sys)
  | 0, _ => none
  | fuel + 1, s =>
    let q := s.ptr p
    if s.busy q then some (q, s)
    else coalesce p fuel
      { s.set p (s.mem q) with
        allocp := p
        allocend := if s.allocend = q then p else s.allocend }

/-- `q >= p+nw && p+nw >= p` -/
def fits (nw p q : ℕ) : Bool := (p + word * nw) % 2 ^ 32 ≤ q ∧ p ≤ (p + word * nw) % 2 ^ 32

/-- How a search ends: with an idle block `p` before `q`, at the wrong end, or at the top. -/
inductive Search
  | found (p q : ℕ)
  | corrupt
  | top

/-- The block where the search goes on from `q`, with the number of times it came to the top -/
def advance (q temp : ℕ) (s : Sys) : Search ⊕ ℕ × ℕ :=
  let p := s.ptr q
  if p > q then .inr (p, temp)
  else if q ≠ s.alloct ∨ p ≠ s.allocs then .inl .corrupt
  else if temp + 1 > 1 then .inl .top
  else .inr (p, temp + 1)

/-- The loop `for(temp=0; ; )`. -/
def search (nw : ℕ) : ℕ → ℕ → ℕ → Sys → Option (Search × Sys)
  | 0, _, _, _ => none
  | fuel + 1, p, temp, s =>
    if s.busy p then
      match advance p temp s with
      | .inl r => some (r, s)
      | .inr (p, temp) => search nw fuel p temp s
    else
      match coalesce p (fuel + 1) s with
      | none => none
      | some (q, s) =>
        if fits nw p q then some (.found p q, s)
        else
          match advance p temp s with
          | .inl r => some (r, s)
          | .inr (p, temp) => search nw fuel p temp s

/-- `incr` after the test of the break `q`: it stays as it was where the break is a multiple of `WORD`. -/
def roundUp (s : Sys) (q incr : ℕ) : ℕ :=
  if q ≠ s.alloct + word ∧ q % word ≠ 0 then word - q % word else incr

/-- What is added to `q` and to `temp` -/
def addend (s : Sys) (q : ℕ) : ℕ :=
  if q ≠ s.alloct + word ∧ q % word ≠ 0 then word - q % word else 0

/-- `temp`, the bytes to get -/
def amount (nw : ℕ) (s : Sys) (q : ℕ) : ℕ :=
  if q ≠ s.alloct + word then
    ((nw + block / word - 1) / (block / word) * block % 2 ^ 32 + addend s q) % 2 ^ 32
  else
    ((nw + 2 ^ 32 - (s.alloct - s.allocend) / word) % 2 ^ 32 + block / word) % 2 ^ 32 /
      (block / word) * block % 2 ^ 32

/-- The new block at `q` is linked, up to the new top. -/
def link (q size incr : ℕ) (s : Sys) : Sys :=
  let top := (q + size + 2 ^ 32 - incr - word) % 2 ^ 32
  let s1 := (s.set s.alloct ⟨q, q ≠ s.alloct + word⟩).set q (.ofAddr top)
  { s1.set top ⟨s.allocs, true⟩ with allocend := q, alloct := top }

/-- The growth of the arena, with the value of `incr` and where the search goes on, or `none` for
`return(NULL)` -/
def grow (nw : ℕ) (b : Brk) (incr : ℕ) (s : Sys) : Option (ℕ × ℕ × Sys) :=
  let q := (b.brk + addend s b.brk) % 2 ^ 32
  let temp := amount nw s b.brk
  if (q + temp) % 2 ^ 32 < q then none
  else if temp > maxalloc ∧ b.first = false then none
  else if b.rest = false then none
  else some (s.allocend, roundUp s b.brk incr, link q temp (roundUp s b.brk incr) s)

/-- The label `found` -/
def take (nw p q : ℕ) (s : Sys) : ℕ × Sys :=
  let allocp := p + word * nw
  let s1 := { s with allocp := allocp }
  let s2 := if q > allocp then { s1.set allocp (s1.mem p) with allocx := s1.mem allocp } else s1
  let s3 := s2.set p ⟨allocp, true⟩
  (p + word, { s3 with allocend := if s3.allocend = p then allocp else s3.allocend })

/-- The loop `for(p=allocp; ; )`, with an answer of the system for each growth -/
def mallocLoop (fuel nw : ℕ) : List Brk → ℕ → ℕ → Sys → Option (Option ℕ × Sys)
  | env, incr, p, s =>
    match search nw fuel p 0 s with
    | none => none
    | some (.found p q, s) =>
      let r := take nw p q s
      some (some r.1, r.2)
    | some (.corrupt, s) => some (none, s)
    | some (.top, s) =>
      match env with
      | [] => none
      | b :: env =>
        match grow nw b incr s with
        | none => some (none, s)
        | some (p, incr, s) => mallocLoop fuel nw env incr p s

def malloc (fuel : ℕ) (env : List Brk) (nbytes : ℕ) (s : Sys) : Option (Option ℕ × Sys) :=
  mallocLoop fuel (nwords nbytes) env 0 (start s).allocp (start s)

def free (ap : ℕ) (s : Sys) : Sys :=
  let p := ap - word
  let s1 := ({ s with allocp := p }).set p ⟨s.ptr p, false⟩
  { s1 with allocend := if s1.ptr p = s1.alloct then p else s1.allocend }

/-- `memcpy` of `n` words from `p` to `q` -/
def memcpy (q p n : ℕ) (s : Sys) : Sys :=
  (List.range n).foldl (fun s i => s.set (q + word * i) (s.mem (p + word * i))) s

def realloc (fuel : ℕ) (env : List Brk) (p nbytes : ℕ) (s : Sys) : Option (Option ℕ × Sys) :=
  let s1 := if s.busy (p - word) then free p s else s
  let onw := (s1.ptr (p - word) - p) / word
  match malloc fuel env nbytes s1 with
  | none => none
  | some (none, s) => some (none, s)
  | some (some q, s) =>
    if q = p then some (some q, s)
    else
      let nw := (nbytes + word - 1) % 2 ^ 32 / word
      let s1 := memcpy q p (min nw onw) s
      if q < p ∧ p ≤ q + word * nw then
        some (some q, s1.set (q + (q + word * nw - p)) s1.allocx)
      else some (some q, s1)

end Svr3.Libc
