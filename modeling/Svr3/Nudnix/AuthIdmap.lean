import Mathlib.Data.List.Pairwise
import Mathlib.Algebra.Group.Nat.Defs

/-!
# The id tables of `nudnix/auth.c`

A table of remote ids with their local ids, or with `UF` where a range begins, follows a header and a cache.
`glid` looks a remote id up by halves, and `rglid` looks for a local id.
-/

namespace Svr3.Auth

/-- `OTHERID`, `UF`, `HEADSIZE` and `CACHESIZE` -/
def otherid : ℕ := 60001
def uf : ℕ := 0xFFFF
def headsize : ℕ := 4
def cachesize : ℕ := 5

/-- `struct idtab` -/
structure Idtab where
  i_rem : ℕ
  i_loc : ℕ
  deriving DecidableEq

/-- The block of a table: the fields of `struct idhead`, and the records from `HEADSIZE` on -/
structure Idmap where
  i_default : ℕ
  i_size : ℕ
  i_cend : ℕ
  i_next : ℕ
  i_tries : ℕ
  i_hits : ℕ
  tab : ℕ → Idtab

/-- `gp->idmap` -/
structure Gdp where
  idmap : ℕ → Option ℕ

/-- `Global`, and the blocks of the heap that are tables -/
structure Maps where
  global : ℕ → Option ℕ
  map : ℕ → Idmap

/-- What `setidmap` makes of a block with the records `old` -/
def setidmap (old : ℕ → Idtab) (i_defval : ℕ) (recs : List Idtab) : Idmap where
  i_default := i_defval
  i_size := recs.length
  i_cend := headsize + cachesize
  i_next := headsize
  i_tries := 0
  i_hits := 0
  tab i :=
    if i < headsize then old i
    else if i < headsize + cachesize then ⟨uf, uf⟩
    else recs.getD (i - (headsize + cachesize)) (old i)

/-- What `check` finds: the local id, a record that is lower in the table, or one that is higher -/
inductive Check
  | found (r : ℕ)
  | lower
  | higher

/-- `check(c,v,r)` -/
def check (tab : ℕ → Idtab) (c v : ℕ) : Check :=
  if (tab c).i_rem = v then
    if (tab c).i_loc = uf then .found (tab (c + 1)).i_loc else .found (tab c).i_loc
  else if (tab c).i_rem < v then
    if (tab c).i_loc = uf ∧ (tab (c + 1)).i_rem ≥ v then .found (tab (c + 1)).i_loc else .lower
  else
    if (tab (c - 1)).i_loc = uf ∧ (tab (c - 1)).i_rem ≤ v then .found (tab c).i_loc else .higher

/-- The table for a machine, or the global one -/
def Maps.table (s : Maps) (dev : ℕ) (gp : Option Gdp) : Option ℕ :=
  match gp.bind fun gp => gp.idmap dev with
  | some idt => some idt
  | none => s.global dev

/-- The loop `while (high - low > 1)`, with `ret` for what is not found -/
def halve (tab : ℕ → Idtab) (rid ret : ℕ) : ℕ → ℕ → ℕ → Option ℕ
  | 0, _, _ => none
  | fuel + 1, low, high =>
    if high - low > 1 then
      let middle := (high - low) / 2 + low
      match check tab middle rid with
      | .lower => halve tab rid ret fuel middle high
      | .higher => halve tab rid ret fuel low middle
      | .found r => some r
    else some ret

/-- `glid` in the table `idt` -/
def Idmap.glid (idt : Idmap) (fuel rid : ℕ) : Option ℕ :=
  let ret := if idt.i_default ≠ 0 then idt.i_default else rid
  if idt.i_size = 0 then some ret
  else
    let low := idt.i_cend
    let high := idt.i_size + idt.i_cend - 1
    if rid < (idt.tab low).i_rem ∨ rid > (idt.tab high).i_rem then some ret
    else
      match check idt.tab low rid with
      | .found r => some r
      | _ =>
        match check idt.tab high rid with
        | .found r => some r
        | _ => halve idt.tab rid ret fuel low high

def glid (s : Maps) (fuel dev : ℕ) (gp : Option Gdp) (rid : ℕ) : Option ℕ :=
  match s.table dev gp with
  | some idt => (s.map idt).glid fuel rid
  | none => some otherid

/-- The record that `rglid` finds in the table -/
def Idmap.scan (idt : Idmap) (rid : ℕ) : Option ℕ :=
  (List.range' (headsize + cachesize) idt.i_size).find? fun low =>
    (idt.tab low).i_loc = rid ∨ (idt.tab low).i_loc = uf ∧ (idt.tab (low + 1)).i_loc = rid

/-- The record that `rglid` finds in the cache -/
def Idmap.cached (idt : Idmap) (rid : ℕ) : Option ℕ :=
  (List.range' headsize cachesize).find? fun low => (idt.tab low).i_loc = rid

/-- `rglid` in the table `idt` -/
def Idmap.rglid (idt : Idmap) (rid : ℕ) : ℕ × Idmap :=
  if idt.i_size = 0 then (if idt.i_default ≠ 0 then idt.i_default else rid, idt)
  else
    let idt := { idt with i_tries := (idt.i_tries + 1) % 2 ^ 32 }
    match idt.cached rid with
    | some low => ((idt.tab low).i_rem, { idt with i_hits := (idt.i_hits + 1) % 2 ^ 32 })
    | none =>
      match idt.scan rid with
      | some low =>
        let ret := (idt.tab low).i_rem
        (ret, { idt with
          tab := Function.update idt.tab idt.i_next ⟨ret, rid⟩
          i_next := if idt.i_next < idt.i_cend - 1 then idt.i_next + 1 else headsize })
      | none => (if idt.i_default ≠ 0 then idt.i_default else rid, idt)

def rglid (s : Maps) (dev : ℕ) (gp : Option Gdp) (rid : ℕ) : ℕ × Maps :=
  match s.table dev gp with
  | some idt =>
    let r := (s.map idt).rglid rid
    (r.1, { s with map := Function.update s.map idt r.2 })
  | none => (otherid, s)

end Svr3.Auth
