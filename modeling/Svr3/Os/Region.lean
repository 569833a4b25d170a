import Mathlib.Data.Fintype.BigOperators
import Mathlib.Data.List.DropRight

/-!
# Regions of `os/region.c`

A process has a sorted list of pregions, which attach regions to its address space. A region grows
upwards, or downwards from the end of its last segment when it is a stack; page tables and the lists
of them come from `sptalloc`. `availsmem` counts the pages that are not spoken for.
-/

namespace Svr3.Region

open Function

/-! ## Units and machine integers -/

/-- The value of a `short`. -/
def short (x : ℤ) : ℤ := x.bmod 65536

/-- The value of an `int`. -/
def int (x : ℤ) : ℤ := x.bmod 4294967296

/-- The value of a `caddr_t`. -/
def caddr (x : ℤ) : ℤ := x % 4294967296

/-- `NCPS` -/
def ncps : ℤ := 256

def ctos (x : ℤ) : ℤ := (x + (ncps - 1)).tdiv ncps

def ctost (x : ℤ) : ℤ := x.tdiv ncps

def stoc (x : ℤ) : ℤ := x * ncps

def stob (x : ℤ) : ℤ := caddr (x * 262144)

def ctob (x : ℤ) : ℤ := int (x * 1024)

def btoc (x : ℤ) : ℤ := caddr (caddr x + 1023) / 1024

/-- `USRSTACK` -/
def usrstack : ℤ := 33554432

/-- `SOFFMASK + 1` -/
def segment : ℤ := 262144

/-! ## Memory for tables -/

/-- `tune.t_minasmem`, `tune.t_minarmem` and `pregpp`. -/
structure Conf where
  t_minasmem : ℤ
  t_minarmem : ℤ
  pregpp : ℕ

/-- The counters of pages, the pages that `sptalloc` has taken and `sptfree` has not given back, and
whether the next calls of `malloc(sptmap, size)` find addresses. -/
structure Mem where
  availsmem : ℤ
  availrmem : ℤ
  spt : ℤ
  vm : List Bool

def sptalloc (c : Conf) (size : ℤ) (m : Mem) : Bool × Mem :=
  match m.vm with
  | [] => (false, m)
  | false :: vm => (false, { m with vm := vm })
  | true :: vm =>
    if m.availsmem - size < c.t_minasmem then (false, { m with vm := vm })
    else if m.availrmem - size < c.t_minarmem then (false, { m with vm := vm })
    else
      (true, { availsmem := m.availsmem - size, availrmem := m.availrmem - size
               spt := m.spt + size, vm := vm })

def sptfree (size : ℤ) (m : Mem) : Mem :=
  { m with availsmem := m.availsmem + size, availrmem := m.availrmem + size, spt := m.spt - size }

/-- A loop that frees `k` page tables with their maps. -/
def freeTables (k : ℕ) (m : Mem) : Mem := (sptfree 2)^[k] m

/-! ## Regions -/

/-- `RT_UNUSED` to `RT_SHMEM` -/
inductive RegType
  | rtUnused
  | rtPrivate
  | rtStext
  | rtShmem
deriving DecidableEq

/-- A region: the bits `RG_NOFREE` and `RG_SSWAPMEM` of `r_flags`, and which entries of the list
`r_list` are not NULL; there is no list when `r_listsz` is 0. -/
structure Reg where
  rg_nofree : Bool
  rg_sswapmem : Bool
  r_type : RegType
  r_listsz : ℤ
  r_pgsz : ℤ
  r_pgoff : ℤ
  r_refcnt : ℤ
  r_noswapcnt : ℤ
  r_filesz : ℤ
  r_list : ℕ → Bool

/-- `PT_TEXT` to `PT_LIBDAT` -/
inductive PregType
  | text
  | data
  | stack
  | shmem
  | libtxt
  | libdat
deriving DecidableEq

/-- An entry of a process' list that is in use; there are `r` regions. -/
structure Preg (r : ℕ) where
  p_reg : Fin r
  p_regva : ℤ
  p_type : PregType

/-- A turn of the loop that moves the tables of a stack down by `diff`. -/
def moveTable (diff : ℕ) : ℕ × (ℕ → Bool) → ℕ × (ℕ → Bool)
  | (j, l) => (j + 1, update (update l j (l (diff + j))) (diff + j) false)

/-- The loop that frees tables up to the first NULL, within the entries of the list. -/
def dropTables : ℕ → ℕ → (ℕ → Bool) → Mem → (ℕ → Bool) × Mem
  | 0, _, l, m => (l, m)
  | left + 1, j, l, m =>
    if l j then dropTables left (j + 1) (update l j false) (sptfree 2 m) else (l, m)

/-- The loop that allocates `k` tables from entry `j` on, `got` of them so far; when it fails those
are freed. -/
def getTables (c : Conf) : ℕ → ℕ → ℕ → (ℕ → Bool) → Mem → Bool × (ℕ → Bool) × Mem
  | 0, _, _, l, m => (true, l, m)
  | k + 1, got, j, l, m =>
    match sptalloc c 2 m with
    | (true, m) => getTables c k (got + 1) (j + 1) (update l j true) m
    | (false, m) => (false, update l j false, freeTables got m)

/-- The smaller list of `ptexpand`. -/
def shrinkList (c : Conf) (nsize : ℤ) (rp : Reg) (m : Mem) : Reg × Mem :=
  let i := ctos (ctos nsize)
  if i < rp.r_listsz then
    if nsize > 0 then
      match sptalloc c i m with
      | (false, m) => (rp, m)
      | (true, m) =>
        ({ rp with r_list := fun j => j < (ctos nsize).toNat && rp.r_list j, r_listsz := short i },
          sptfree rp.r_listsz m)
    else ({ rp with r_list := fun _ => false, r_listsz := short i }, sptfree rp.r_listsz m)
  else (rp, m)

/-- The tables that `ptexpand` frees at the end of the region, or at the start of a stack. -/
def shrinkTables (osize nsize : ℤ) (lotohi : Bool) (rp : Reg) (p_regva : ℤ) (m : Mem) :
    Reg × ℤ × Mem :=
  let hi := (ctos osize).toNat
  let lo := (ctos nsize).toNat
  if lotohi then
    ({ rp with r_list := fun j => !(lo ≤ j && j < hi) && rp.r_list j }, p_regva,
      freeTables (hi - lo) m)
  else
    let diff := hi - lo
    let (j, l) := (moveTable diff)^[hi - diff] (0, rp.r_list)
    let (l, m) := dropTables (256 * rp.r_listsz.toNat - j) j l (freeTables (hi - diff) m)
    ({ rp with r_list := l, r_pgoff := short (rp.r_pgoff - stoc diff) },
      caddr (p_regva + stob diff), m)

/-- The larger list of `ptexpand`. -/
def growList (c : Conf) (osize nsize : ℤ) (rp : Reg) (m : Mem) : Bool × Reg × Mem :=
  let i := ctos (ctos nsize)
  if i > rp.r_listsz then
    match sptalloc c i m with
    | (false, m) => (false, rp, m)
    | (true, m) =>
      (true, { rp with
          r_list := fun j => j < (ctos osize).toNat && rp.r_list j
          r_listsz := short i },
        if rp.r_listsz ≠ 0 then sptfree rp.r_listsz m else m)
  else (true, rp, m)

/-- The tables that `ptexpand` allocates, after it has moved those of a stack up. -/
def growTables (c : Conf) (osize nsize : ℤ) (lotohi : Bool) (rp : Reg) (p_regva : ℤ) (m : Mem) :
    Bool × Reg × ℤ × Mem :=
  let hi := (ctos nsize).toNat
  if lotohi then
    let lo := (if rp.r_pgsz ≠ 0 then ctos osize else ctost osize).toNat
    let (ok, l, m) := getTables c (hi - lo) 0 lo rp.r_list m
    (ok, { rp with r_list := l }, p_regva, m)
  else
    let diff := hi - (ctos osize).toNat
    let moved := fun j => if diff ≤ j && j < hi then rp.r_list (j - diff) else rp.r_list j
    let (ok, l, m) := getTables c diff 0 0 moved m
    (ok, { rp with r_list := l, r_pgoff := short (rp.r_pgoff + stoc diff) },
      caddr (p_regva - stob diff), m)

/-- `ptexpand` up to the label `out`: fewer tables, and a smaller list. -/
def ptshrink (c : Conf) (osize nsize : ℤ) (lotohi : Bool) (rp : Reg) (p_regva : ℤ) (m : Mem) :
    Reg × ℤ × Mem :=
  if ctos nsize < ctos osize then
    match shrinkTables osize nsize lotohi rp p_regva m with
    | (rp, p_regva, m) =>
      match shrinkList c nsize rp m with
      | (rp, m) => (rp, p_regva, m)
  else (rp, p_regva, m)

/-- `ptexpand` after the label `out`: a larger list, and more tables. -/
def ptgrow (c : Conf) (osize nsize : ℤ) (lotohi : Bool) (rp : Reg) (p_regva : ℤ) (m : Mem) :
    Bool × Reg × ℤ × Mem :=
  match growList c osize nsize rp m with
  | (false, rp, m) => (false, rp, p_regva, m)
  | (true, rp, m) => growTables c osize nsize lotohi rp p_regva m

/-- The pages of a stack are at its end. -/
def moveOff (change : ℤ) (lotohi : Bool) (rp : Reg) : Reg :=
  if lotohi then rp else { rp with r_pgoff := short (rp.r_pgoff - change) }

/-- `osize` in `ptexpand`. -/
def Reg.osize (rp : Reg) (lotohi : Bool) : ℤ :=
  if lotohi then rp.r_pgoff + rp.r_pgsz else rp.r_pgsz

/-- `ptexpand(prp, change, lotohi)`: whether it succeeds, and what it makes of the region, of
`p_regva` and of the memory. -/
def ptexpand (c : Conf) (change : ℤ) (lotohi : Bool) (rp : Reg) (p_regva : ℤ) (m : Mem) :
    Bool × Reg × ℤ × Mem :=
  if change ≤ 0 then
    match ptshrink c (rp.osize lotohi) (rp.osize lotohi + change) lotohi rp p_regva m with
    | (rp, p_regva, m) => (true, moveOff change lotohi rp, p_regva, m)
  else
    match ptgrow c (rp.osize lotohi) (rp.osize lotohi + change) lotohi rp p_regva m with
    | (false, rp, p_regva, m) => (false, rp, p_regva, m)
    | (true, rp, p_regva, m) => (true, moveOff change lotohi rp, p_regva, m)

variable {r : ℕ}

/-- The last test of `chkgrowth`, against a neighbour in the list. -/
def meets (reg : Fin r → Reg) (oprp : Option (Preg r)) (start last : ℤ) : Bool :=
  if int last > usrstack || int start < 0 then true
  else
    match oprp with
    | none => false
    | some o =>
      let vaddr := o.p_regva
      let last' := caddr (vaddr + ctob ((reg o.p_reg).r_pgoff + (reg o.p_reg).r_pgsz))
      start = vaddr || start < last' && last > vaddr

/-- `chkgrowth(prp, change, lotohi)`, where `below` and `above` are the entries next to `prp` -/
def chkgrowth (reg : Fin r → Reg) (below above : Option (Preg r)) (prp : Preg r) (change : ℤ)
    (lotohi : Bool) : Bool :=
  if change ≤ 0 then false
  else
    let rp := reg prp.p_reg
    let start := prp.p_regva
    let last := caddr (start + ctob (rp.r_pgoff + rp.r_pgsz))
    if lotohi then meets reg above start (caddr (last + ctob change))
    else if rp.r_pgoff ≥ change then false
    else
      meets reg below (caddr (start - stob (ctos (rp.r_pgsz + change) - ctos change))) last

/-- The loop of `chkattach`. -/
def chkpregs (reg : Fin r → Reg) (start last : ℤ) : List (Preg r) → Bool
  | [] => false
  | o :: l =>
    let vaddr := o.p_regva
    let last' := caddr (vaddr + ctob ((reg o.p_reg).r_pgoff + (reg o.p_reg).r_pgsz))
    if start = vaddr then true
    else if last < vaddr then false
    else if start < last' && last > vaddr then true
    else chkpregs reg start last l

/-- `chkattach(up, prp)` -/
def chkattach (reg : Fin r → Reg) (l : List (Preg r)) (prp : Preg r) : Bool :=
  let rp := reg prp.p_reg
  let start := prp.p_regva
  let last := caddr (start + ctob (rp.r_pgoff + rp.r_pgsz))
  if start % segment ≠ 0 then true
  else if int last > usrstack || int start < 0 then true
  else chkpregs reg start last l

/-! ## The system -/

/-- The regions with their free and active lists from the front, the used entries of the processes'
lists, of `pregpp` entries each, and the memory; there are `n` processes. -/
structure Sys (r n : ℕ) where
  reg : Fin r → Reg
  rfree : List (Fin r)
  ractive : List (Fin r)
  p_region : Fin n → List (Preg r)
  mem : Mem

variable {n : ℕ}

/-- `findpreg(pp, PT_UNUSED)` finds an entry. -/
def findpreg (c : Conf) (l : List (Preg r)) : Bool := l.length + 1 < c.pregpp

/-- The new entry goes before those with higher addresses. -/
def insertPreg (prp : Preg r) (l : List (Preg r)) : List (Preg r) :=
  l.rdropWhile (fun o => o.p_regva > prp.p_regva) ++
    prp :: l.rtakeWhile fun o => o.p_regva > prp.p_regva

/-- The entry comes into the list, and the count of the region. -/
def Sys.link (up : Fin n) (prp : Preg r) (s : Sys r n) : Sys r n :=
  { s with
    p_region := update s.p_region up (insertPreg prp (s.p_region up))
    reg := update s.reg prp.p_reg
      { s.reg prp.p_reg with r_refcnt := (s.reg prp.p_reg).r_refcnt + 1 } }

/-- `attachreg(rp, up, vaddr, type, prot)`, where `prot` matters to the segment table only -/
def attachreg (c : Conf) (rp : Fin r) (up : Fin n) (vaddr : ℤ) (type : PregType) (s : Sys r n) :
    Bool × Sys r n :=
  if vaddr % segment ≠ 0 then (false, s)
  else if !findpreg c (s.p_region up) then (false, s)
  else if chkattach s.reg (s.p_region up) ⟨rp, vaddr, type⟩ then (false, s)
  else (true, s.link up ⟨rp, vaddr, type⟩)

/-- `allocreg(ip, type, flag)`, with `RG_NOFREE` or 0 as `flag` -/
def allocreg (type : RegType) (nofree : Bool) (s : Sys r n) : Option (Fin r) × Sys r n :=
  match s.rfree with
  | [] => (none, s)
  | rp :: rfree =>
    (some rp, { s with
      rfree := rfree
      ractive := rp :: s.ractive
      reg := update s.reg rp
        { s.reg rp with r_type := type, rg_nofree := (s.reg rp).rg_nofree || nofree } })

def freereg (rp : Fin r) (s : Sys r n) : Sys r n :=
  let b := s.reg rp
  let tsize := b.r_pgoff + b.r_pgsz
  let m := freeTables (ctos tsize - ctost b.r_pgoff).toNat s.mem
  let m := if b.rg_sswapmem then { m with availsmem := m.availsmem - btoc b.r_filesz } else m
  let m := { m with availsmem := m.availsmem + b.r_pgsz }
  let m := if b.r_noswapcnt ≠ 0 then { m with availrmem := m.availrmem + b.r_pgsz } else m
  let m := if b.r_listsz ≠ 0 then sptfree b.r_listsz m else m
  { s with
    mem := m
    ractive := s.ractive.erase rp
    rfree := rp :: s.rfree
    reg := update s.reg rp
      { rg_nofree := false, rg_sswapmem := false, r_type := .rtUnused, r_listsz := 0, r_pgsz := 0
        r_pgoff := 0, r_refcnt := b.r_refcnt, r_noswapcnt := 0, r_filesz := 0
        r_list := fun _ => false } }

/-- What `growreg` returns: 0, -1 or 1. -/
inductive Grown
  | same
  | failed
  | grown

/-- Pages of a region are spoken for, in memory too when it is not swapped out. -/
def Mem.charge (change : ℤ) (rp : Reg) (m : Mem) : Mem :=
  let m := { m with availsmem := m.availsmem - change }
  if rp.r_noswapcnt ≠ 0 then { m with availrmem := m.availrmem - change } else m

/-- What has become of the region of an entry, of its `p_regva` and of the memory. -/
def Sys.put (up : Fin n) (i : ℕ) (prp : Preg r) (rp : Reg) (p_regva : ℤ) (m : Mem) (s : Sys r n) :
    Sys r n :=
  { s with
    mem := m
    reg := update s.reg prp.p_reg rp
    p_region := update s.p_region up
      ((s.p_region up).set i { prp with p_regva := p_regva }) }

/-- `rp->r_pgsz += change` -/
def Reg.resize (change : ℤ) (rp : Reg) : Reg := { rp with r_pgsz := short (rp.r_pgsz + change) }

/-- `prp->p_type != PT_STACK` -/
def Preg.lotohi (prp : Preg r) : Bool := prp.p_type ≠ .stack

/-- The entries next to one, below and above. -/
def below (l : List (Preg r)) (i : ℕ) : Option (Preg r) := if i = 0 then none else l[i - 1]?

def above (l : List (Preg r)) (i : ℕ) : Option (Preg r) := l[i + 1]?

/-- `growreg(prp, change, type)` on the entry `i` of the process `up`, where `type` matters to the
new pages only -/
def growreg (c : Conf) (up : Fin n) (i : ℕ) (prp : Preg r) (change : ℤ) (s : Sys r n) :
    Grown × Sys r n :=
  if change = 0 then (.same, s)
  else if change < 0 then
    match ptexpand c change prp.lotohi (s.reg prp.p_reg) prp.p_regva
        (s.mem.charge change (s.reg prp.p_reg)) with
    | (_, rp, p_regva, m) => (.grown, s.put up i prp (rp.resize change) p_regva m)
  else if s.mem.availsmem - change < c.t_minasmem then (.failed, s)
  else if (s.reg prp.p_reg).r_noswapcnt ≠ 0 ∧ s.mem.availrmem - change < c.t_minarmem then
    (.failed, s)
  else if chkgrowth s.reg (below (s.p_region up) i) (above (s.p_region up) i) prp change
      prp.lotohi then
    (.failed, s)
  else
    match ptexpand c change prp.lotohi (s.reg prp.p_reg) prp.p_regva s.mem with
    | (false, rp, p_regva, m) => (.failed, s.put up i prp rp p_regva m)
    | (true, rp, p_regva, m) =>
      (.grown, s.put up i prp (rp.resize change) p_regva (m.charge change rp))

/-- `rp->r_filesz -= (int)prp->p_regva` -/
def Sys.fileSize (prp : Preg r) (s : Sys r n) : Sys r n :=
  { s with
    reg := update s.reg prp.p_reg
      { s.reg prp.p_reg with r_filesz := int ((s.reg prp.p_reg).r_filesz - prp.p_regva) } }

/-- What `detachreg` removes of a shared 407 region with sticky text; `magic` is
`u.u_magic == 0407`. -/
def detachData (c : Conf) (magic : Bool) (up : Fin n) (i : ℕ) (prp : Preg r) (s : Sys r n) :
    Sys r n :=
  if magic ∧ (s.reg prp.p_reg).r_type = .rtStext then
    if (s.reg prp.p_reg).rg_nofree then
      (growreg c up i prp
        (btoc ((s.fileSize prp).reg prp.p_reg).r_filesz - (s.reg prp.p_reg).r_pgsz)
        (s.fileSize prp)).2
    else s.fileSize prp
  else s

/-- The entry goes, and the count of the region. -/
def Sys.unlink (up : Fin n) (i : ℕ) (rp : Fin r) (s : Sys r n) : Sys r n :=
  { s with
    p_region := update s.p_region up ((s.p_region up).eraseIdx i)
    reg := update s.reg rp { s.reg rp with r_refcnt := (s.reg rp).r_refcnt - 1 } }

/-- `if (--rp->r_refcnt == 0 && !(rp->r_flags & RG_NOFREE)) freereg(rp)`, after the decrement -/
def release (rp : Fin r) (s : Sys r n) : Sys r n :=
  if (s.reg rp).r_refcnt = 0 ∧ (s.reg rp).rg_nofree = false then freereg rp s else s

/-- `detachreg(prp, up)` -/
def detachreg (c : Conf) (magic : Bool) (up : Fin n) (i : ℕ) (prp : Preg r) (s : Sys r n) :
    Sys r n :=
  release prp.p_reg ((detachData c magic up i prp s).unlink up i prp.p_reg)

/-- Where the loop of `dupreg` over the segments ends. -/
inductive Dup
  | done
  | table (i : ℕ)
  | overflow (i : ℕ)

/-- The loop of `dupreg` for `k` segments from `i` on. `ovfl i` is whether the use count of a page of
segment `i` on swap has come to its limit, and `off` the first segment with pages. -/
def dupTables (c : Conf) (ovfl : ℕ → Bool) (off : ℕ) :
    ℕ → ℕ → (ℕ → Bool) → Mem → Dup × (ℕ → Bool) × Mem
  | 0, _, l, m => (.done, l, m)
  | k + 1, i, l, m =>
    match sptalloc c 2 m with
    | (false, m) => (.table i, l, m)
    | (true, m) =>
      let l := update l i true
      if off ≤ i && ovfl i then (.overflow i, l, m) else dupTables c ovfl off k (i + 1) l m

def Sys.charge (rsize : ℤ) (s : Sys r n) : Sys r n :=
  { s with mem := { s.mem with availsmem := s.mem.availsmem - rsize } }

def Sys.store (rp : Fin r) (b : Reg) (m : Mem) (s : Sys r n) : Sys r n :=
  { s with reg := update s.reg rp b, mem := m }

/-- The loop of `dupreg` for the new region `rp2`, and what follows it. -/
def dupsegs (c : Conf) (ovfl : ℕ → Bool) (b2 : Reg) (rp2 : Fin r) (rsize : ℤ) (m : Mem)
    (s : Sys r n) : Option (Fin r) × Sys r n :=
  match dupTables c ovfl (ctost b2.r_pgoff).toNat (ctos (rsize + b2.r_pgoff)).toNat 0
      (fun _ => false) m with
  | (.done, l, m) => (some rp2, s.store rp2 { b2 with r_list := l } m)
  | (.table i, l, m) =>
    (none, freereg rp2
      (s.store rp2 { b2 with r_list := l, r_pgsz := short (stoc i), r_pgoff := 0 } m))
  | (.overflow i, l, m) =>
    (none, freereg rp2
      (s.store rp2 { b2 with r_list := l, r_pgsz := short (stoc (i + 1)), r_pgoff := 0 } m))

/-- `dupreg` of the region `b` from the allocation of the list on. -/
def duplist (c : Conf) (ovfl : ℕ → Bool) (b : Reg) (rp2 : Fin r) (rsize : ℤ) (s : Sys r n) :
    Option (Fin r) × Sys r n :=
  let b2 := { s.reg rp2 with rg_nofree := b.rg_nofree, rg_sswapmem := b.rg_sswapmem }
  match sptalloc c b.r_listsz s.mem with
  | (false, m) => (none, (freereg rp2 (s.store rp2 { b2 with r_listsz := 0 } m)).charge (-rsize))
  | (true, m) =>
    dupsegs c ovfl
      { b2 with
        r_listsz := b.r_listsz, r_pgsz := short rsize, r_pgoff := b.r_pgoff
        r_filesz := b.r_filesz }
      rp2 rsize m s

/-- `dupreg(rp, force, rsize)` -/
def dupreg (c : Conf) (ovfl : ℕ → Bool) (rp : Fin r) (force : Bool) (rsize : ℤ) (s : Sys r n) :
    Option (Fin r) × Sys r n :=
  if (s.reg rp).r_type ≠ .rtPrivate ∧ force = false then (some rp, s)
  else if s.mem.availsmem - rsize < c.t_minasmem then (none, s)
  else
    match allocreg (if force then .rtPrivate else (s.reg rp).r_type) false (s.charge rsize) with
    | (none, s) => (none, s.charge (-rsize))
    | (some rp2, s) => duplist c ovfl (s.reg rp) rp2 rsize s

/-! ## Steps -/

/-- `other` is what other code does to a region: it sets `RG_NOFREE`, `r_filesz` and `r_noswapcnt`,
and changes `availrmem`. `vm` says which calls of `malloc(sptmap, size)` find addresses. -/
inductive Act (r n : ℕ)
  | alloc (type : RegType) (nofree : Bool)
  | attach (rp : Fin r) (up : Fin n) (vaddr : ℤ) (type : PregType)
  | detach (magic : Bool) (up : Fin n) (i : ℕ) (vm : List Bool)
  | grow (up : Fin n) (i : ℕ) (change : ℤ) (vm : List Bool)
  | dup (rp : Fin r) (force : Bool) (rsize : ℤ) (ovfl : ℕ → Bool) (vm : List Bool)
  | free (rp : Fin r) (vm : List Bool)
  | other (rp : Fin r) (nofree : Bool) (filesz noswapcnt availrmem : ℤ)

def Sys.vm (s : Sys r n) (vm : List Bool) : Sys r n := { s with mem := { s.mem with vm := vm } }

theorem lawful_fin (r : ℕ) : LawfulBEq (Fin r) := inferInstance

attribute [local instance] lawful_fin

/-- What a step leads to, and whether it succeeds. The conditions are the assertions of the code:
regions are in use, a region that grows has one user, and does not shrink by more than it has. -/
def next (c : Conf) (s : Sys r n) : Act r n → Option (Bool × Sys r n)
  | .alloc type nofree =>
    match allocreg type nofree s with
    | (some _, s) => some (true, s)
    | (none, s) => some (false, s)
  | .attach rp up vaddr type =>
    if rp ∈ s.ractive then some (attachreg c rp up (caddr vaddr) type s) else none
  | .detach magic up i vm =>
    match (s.p_region up)[i]? with
    | none => none
    | some prp =>
      let b := s.reg prp.p_reg
      let change := btoc (int (b.r_filesz - prp.p_regva)) - b.r_pgsz
      if magic ∧ b.r_type = .rtStext ∧ b.rg_nofree ∧ ¬ (change ≤ 0 ∧ -change ≤ b.r_pgsz) then none
      else some (true, detachreg c magic up i prp (s.vm vm))
  | .grow up i change vm =>
    match (s.p_region up)[i]? with
    | none => none
    | some prp =>
      let b := s.reg prp.p_reg
      if b.r_refcnt ≠ 1 ∨ -change > b.r_pgsz then none
      else
        match growreg c up i prp change (s.vm vm) with
        | (.failed, s) => some (false, s)
        | (_, s) => some (true, s)
  | .dup rp force rsize ovfl vm =>
    if rp ∈ s.ractive ∧ 0 ≤ rsize ∧ rsize ≤ (s.reg rp).r_pgsz then
      match dupreg c ovfl rp force rsize (s.vm vm) with
      | (some _, s) => some (true, s)
      | (none, s) => some (false, s)
    else none
  | .free rp vm =>
    if rp ∈ s.ractive ∧ (s.reg rp).r_refcnt = 0 then some (true, freereg rp (s.vm vm)) else none
  | .other rp nofree filesz noswapcnt availrmem =>
    if rp ∈ s.ractive then
      some (true, { s with
        mem := { s.mem with availrmem := availrmem }
        reg := update s.reg rp
          { s.reg rp with rg_nofree := nofree, r_filesz := filesz, r_noswapcnt := noswapcnt } })
    else none

/-- After `reginit`: all regions are free. -/
def reginit (r n : ℕ) (m : Mem) : Sys r n where
  reg := fun _ => ⟨false, false, .rtUnused, 0, 0, 0, 0, 0, 0, fun _ => false⟩
  rfree := List.finRange r
  ractive := []
  p_region := fun _ => []
  mem := m

end Svr3.Region
