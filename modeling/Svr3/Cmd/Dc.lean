import Svr3.Lib.Radix

/-!
# Division in `dc`

`div`, `chsign` and `add` of `cmd/dc/dc.c`. A number is a string of digits in base 100, lowest first; a
negative one ends in a digit -1. Each digit is stored in a `char`.
-/

namespace Svr3.Dc

/-- The digits of a `blk`, from `beg` to `wt` -/
abbrev Blk := List ℤ

/-- What a `char` holds of `c` -/
def char (c : ℤ) : ℤ := Int.bmod c 256

/-- The loop of `chsign`, with the `carry` after it -/
def chsignLoop : ℤ → Blk → Blk × ℤ
  | carry, [] => ([], carry)
  | carry, d :: p =>
    let ct := char (100 - d - carry)
    if ct ≥ 100 then
      let r := chsignLoop 0 p
      (char (ct - 100) :: r.1, r.2)
    else
      let r := chsignLoop 1 p
      (ct :: r.1, r.2)

def chsign (p : Blk) : Blk :=
  let r := chsignLoop 0 p
  if r.2 ≠ 0 then if r.1.getLast? = some 99 then r.1.dropLast ++ [-1] else r.1 ++ [-1]
  else if r.1.getLast? = some 0 then r.1.dropLast else r.1

/-- `while(sfbeg(p) == 0) if(sbackc(p) == 0)truncate(p); else break;` -/
def strip (p : Blk) : Blk := p.rdropWhile (· = 0)

/-- The loop of `add` over `size` digits, with the `carry` after it -/
def addLoop : ℕ → ℤ → Blk → Blk → Blk × ℤ
  | 0, carry, _, _ => ([], carry)
  | size + 1, carry, a1, a2 =>
    let n := a1.headD 0 + a2.headD 0 + carry
    let next := if n ≥ 100 then (1, n - 100) else if n < 0 then (-1, n + 100) else (0, n)
    let r := addLoop size next.1 a1.tail a2.tail
    (char next.2 :: r.1, r.2)

def add (a1 a2 : Blk) : Blk :=
  let r := addLoop (max a1.length a2.length) 0 a1 a2
  let p := strip (if r.2 ≠ 0 then r.1 ++ [char r.2] else r.1)
  if p.getLast? = some (-1) then
    -- back over the digits 99 in front of the -1, but not over the first digit
    let q := p.dropLast.rdropWhile (· = 99)
    (if q = [] then p.take 1 else q) ++ [-1]
  else p

/-- `sfbeg(p)?0:sbackc(p)`, for the digit with `i` others above it -/
def back (p : Blk) (i : ℕ) : ℤ := p.reverse.getD i 0

def magic (divr : Blk) : Bool := back divr 0 < 10

/-- The estimate `c` of the divisor -/
def estimate (divr : Blk) : ℤ :=
  let c := back divr 0 * 100 + back divr 1
  if magic divr then ((c * 100 + back divr 2) * 2).tdiv 25 else c

/-- The trial digit `dig` -/
def trial (divr : Blk) (offset : ℕ) (divd : Blk) : ℤ :=
  let td := (back divd 0 * 100 + back divd 1) * 100 + back divd 2
  let cc := if offset = 0 then estimate divr else estimate divr + 1
  let td := if offset = 0 then td + 1 else td
  let td := if magic divr then td * 8 else td
  td.tdiv cc

/-- `divxyz`, the divisor times `dig` -/
def times (dig : ℤ) : ℤ → Blk → Blk
  | carry, [] => [char carry]
  | carry, d :: divr =>
    let d := d * dig + carry
    char (d.tmod 100) :: times dig (d.tdiv 100) divr

/-- The loop that takes `divxyz` from `divd`, with the `carry` after it -/
def minus : ℤ → Blk → Blk → Blk × ℤ
  | carry, [], _ => ([], carry)
  | carry, d :: divd, divxyz =>
    let d := d - divxyz.headD 0 - carry
    let r := minus (if d < 0 then 1 else 0) divd divxyz.tail
    (char (if d < 0 then d + 100 else d) :: r.1, r.2)

/-- What the loop over the offsets leaves: `p`, `divd`, the last `dig` and `divcarry` -/
structure Long where
  p : Blk
  divd : Blk
  dig : ℤ
  divcarry : ℤ

/-- `while(offset >= 0)` -/
def divLoop (divr : Blk) : ℕ → Blk → Long
  | offset, divd =>
    let dig := trial divr offset divd
    let r := minus 0 (divd.drop offset) (times dig 0 divr)
    let divd := divd.take offset ++ r.1
    match offset with
    | 0 => ⟨[char dig], divd, dig, r.2⟩
    | offset + 1 =>
      let l := divLoop divr offset divd.dropLast
      { l with p := l.p ++ [char dig] }

/-- The pass over `p` that carries digits of 100 and more -/
def carryPass : ℤ → Blk → Blk
  | divcarry, [] => if divcarry ≠ 0 then [char divcarry] else []
  | divcarry, d :: p =>
    let d := d + divcarry
    if d ≥ 100 then char (d - 100) :: carryPass 1 p else char d :: carryPass 0 p

/-- The quotient `p` and `rem`, or `none` for a division by 0 -/
def div (ddivd ddivr : Blk) : Option (Blk × Blk) :=
  if ddivr = [] then none
  else
    let divsign : Bool := ddivr.getLast? = some (-1)
    let divr := if divsign then chsign ddivr else ddivr
    let remsign : Bool := ddivd.getLast? = some (-1)
    let divd := if remsign then chsign ddivd else ddivd
    if divd.length < divr.length then some ([], if remsign then chsign divd else divd)
    else
      let l := divLoop divr (divd.length - divr.length) (divd ++ [0])
      let p := if l.divcarry ≠ 0 then char (l.dig - 1) :: l.p.tail else l.p
      let divd := if l.divcarry ≠ 0 then add divr (l.divd ++ [-1]) else l.divd
      let p := strip (carryPass 0 p)
      let p := if xor divsign remsign then chsign p else p
      let divd := strip divd
      some (p, if remsign then chsign divd else divd)

end Svr3.Dc
