import Mathlib.Data.Int.Notation
import Mathlib.Data.Nat.Notation
import Mathlib.Logic.Function.Basic

/-!
# `qsort`

`qs1` of `gen/qsort.c` with its exchange functions. A pointer into the array is the number of elements before
it; the exchange functions work on the bytes of the elements.
-/

namespace Svr3.Qsort

open Function

def MINCPY : ℕ := 8

/-- The bytes by their address -/
abbrev Mem := ℕ → UInt8

/-- What `qsort` is called with: the address of the array, `es`, `fc`, and whether `qsbuf` is not NULL -/
structure Env where
  base : ℕ
  es : ℕ
  fc : (Fin es → UInt8) → (Fin es → UInt8) → ℤ
  qsbuf : Bool

/-- The address of an element -/
def Env.addr (v : Env) (k : ℕ) : ℕ := v.base + v.es * k

/-- The bytes of an element -/
def Env.elem (v : Env) (m : Mem) (k : ℕ) : Fin v.es → UInt8 := fun b => m (v.addr k + b)

/-! ## Exchanges -/

def memcpy (dst : Mem) (d : ℕ) (src : Mem) (s n : ℕ) : Mem :=
  fun x => if d ≤ x ∧ x < d + n then src (s + (x - d)) else dst x

/-- The loop of `qsexc` -/
def excLoop : ℕ → Mem → ℕ → ℕ → Mem
  | 0, m, _, _ => m
  | n + 1, m, ri, rj =>
    excLoop n (update (update m ri (m rj)) rj (m ri)) (ri + 1) (rj + 1)

def qsexc (v : Env) (m : Mem) (ri rj : ℕ) : Mem :=
  if MINCPY ≤ v.es ∧ v.qsbuf then
    let qsbuf := memcpy m 0 m ri v.es
    let m := memcpy m ri m rj v.es
    memcpy m rj qsbuf 0 v.es
  else excLoop v.es m ri rj

/-- The loop of `qstexc` -/
def texcLoop : ℕ → Mem → ℕ → ℕ → ℕ → Mem
  | 0, m, _, _, _ => m
  | n + 1, m, ri, rj, rk =>
    let c := m ri
    let m := update m ri (m rk)
    let m := update m rk (m rj)
    texcLoop n (update m rj c) (ri + 1) (rj + 1) (rk + 1)

def qstexc (v : Env) (m : Mem) (ri rj rk : ℕ) : Mem :=
  if MINCPY ≤ v.es ∧ v.qsbuf then
    let qsbuf := memcpy m 0 m ri v.es
    let m := memcpy m ri m rk v.es
    let m := memcpy m rk m rj v.es
    memcpy m rj qsbuf 0 v.es
  else texcLoop v.es m ri rj rk

/-! ## The partition -/

/-- The bytes, and the elements that have been compared or exchanged -/
structure Arr where
  mem : Mem
  touched : List ℕ

/-- `(*qscmp)(x, y)` -/
def Env.qscmp (v : Env) (s : Arr) (x y : ℕ) : ℤ := v.fc (v.elem s.mem x) (v.elem s.mem y)

def Arr.see (s : Arr) (ks : List ℕ) : Arr := { s with touched := ks ++ s.touched }

def Env.exc (v : Env) (s : Arr) (x y : ℕ) : Arr :=
  Arr.see { s with mem := qsexc v s.mem (v.addr x) (v.addr y) } [x, y]

def Env.texc (v : Env) (s : Arr) (x y z : ℕ) : Arr :=
  Arr.see { s with mem := qstexc v s.mem (v.addr x) (v.addr y) (v.addr z) } [x, y, z]

structure Part where
  i : ℕ
  j : ℕ
  lp : ℕ
  hp : ℕ
  arr : Arr

/-- The head of `while(1)`, the label `loop`, and the end of the partition -/
inductive Pc
  | top
  | loop
  | out

/-- A turn from one of the places to the next -/
def turn (v : Env) (pc : Pc) (s : Part) : Pc × Part :=
  match pc with
  | .top =>
    if s.i < s.lp then
      let c := v.qscmp s.arr s.i s.lp
      let s := { s with arr := s.arr.see [s.i, s.lp] }
      if c = 0 then
        let lp := s.lp - 1
        (.top, { s with lp := lp, arr := v.exc s.arr s.i lp })
      else if c < 0 then (.top, { s with i := s.i + 1 })
      else (.loop, s)
    else (.loop, s)
  | .loop =>
    if s.hp < s.j then
      let c := v.qscmp s.arr s.hp s.j
      let s := { s with arr := s.arr.see [s.hp, s.j] }
      if c = 0 then
        let hp := s.hp + 1
        (.loop, { s with hp := hp, arr := v.exc s.arr hp s.j })
      else if 0 < c then
        if s.i = s.lp then
          let hp := s.hp + 1
          let lp := s.lp + 1
          (.loop, { s with i := lp, lp := lp, hp := hp, arr := v.texc s.arr s.i hp s.j })
        else (.top, { s with i := s.i + 1, j := s.j - 1, arr := v.exc s.arr s.i s.j })
      else (.loop, { s with j := s.j - 1 })
    else if s.i = s.lp then (.out, s)
    else
      let lp := s.lp - 1
      let hp := s.hp - 1
      (.top, { s with j := hp, lp := lp, hp := hp, arr := v.texc s.arr s.j lp s.i })
  | .out => (.out, s)

/-- The loop with a bound on its turns -/
def partition (v : Env) : ℕ → Pc → Part → Option Part
  | 0, _, _ => none
  | k + 1, pc, s =>
    match turn v pc s with
    | (.out, s) => some s
    | (pc, s) => partition v k pc s

/-! ## `qs1` -/

/-- The variables at the start of the partition of the elements from `a` up to `l` -/
def start (v : Env) (a l : ℕ) (s : Arr) : Part :=
  let n := v.es * (l - a) / (2 * v.es)
  ⟨a, l - 1, a + n, a + n, s⟩

/-- A difference of pointers is an `int`. -/
def Env.diff (v : Env) (p q : ℕ) : ℤ := ((v.es * (p - q) : ℕ) : ℤ).bmod 4294967296

/-- `qs1(a, l)` with a bound on the depth of the calls. The jump to `start` is a call. -/
def qs1 (v : Env) : ℕ → ℕ → ℕ → Arr → Option Arr
  | 0, _, _, _ => none
  | k + 1, a, l, s =>
    if v.es * (l - a) ≤ v.es then some s
    else (partition v (2 * (l - a) + 2) .top (start v a l s)).bind fun p =>
      if v.diff p.lp a ≥ v.diff l p.hp then
        (qs1 v k (p.hp + 1) l p.arr).bind (qs1 v k a p.lp)
      else (qs1 v k a p.lp p.arr).bind (qs1 v k (p.hp + 1) l)

/-- `qsort`, where the calls are no deeper than the array is long -/
def qsort (v : Env) (n : ℕ) (m : Mem) : Option Arr := qs1 v (n + 1) 0 n ⟨m, []⟩

end Svr3.Qsort
