import Mathlib.Data.Set.Operations
import Mathlib.Data.Int.Notation
import Mathlib.Tactic.Common
import Mathlib.Algebra.Group.Nat.Defs

/-!
# Compiling a regular expression

`compile` of `regexp.h`. The macros `GETC`, `PEEKC` and `UNGETC` of the including program read `src` at `sp`. Addresses
count from the first byte of the buffer, so that `endbuf` is `n`. What is written where is recorded in `wrote`, `placed`
(with the class that is being filled) and `ops` (where opcodes are).
-/

namespace Svr3.Regexp

def CBRA : BitVec 8 := 2
def CCHR : BitVec 8 := 4
def CDOT : BitVec 8 := 8
def CCL : BitVec 8 := 12
def CDOL : BitVec 8 := 20
def CCEOF : BitVec 8 := 22
def CKET : BitVec 8 := 24
def CBACK : BitVec 8 := 36
def STAR : BitVec 8 := 1
def RNGE : BitVec 8 := 3
def NBRA : ℕ := 9

/-- The code of a character -/
def ch (c : Char) : ℤ := c.toNat

/-- Where `compile` is in its loops -/
inductive Phase where
  /-- before the loop -/
  | entry
  /-- at the top of the loop -/
  | turn
  /-- the second byte of an item is due -/
  | operand (v : ℤ)
  /-- at the top of the loop over a class -/
  | member (neg : Bool) (lc c : ℤ)
  /-- at `nlim` -/
  | nlim (cflg : Bool)
  /-- at the top of the loop over a number -/
  | digit (cflg : Bool) (i c : ℤ)
  /-- behind that loop -/
  | limit (cflg : Bool) (i c : ℤ)
  /-- the limit 255 of an open range is due -/
  | unbounded (i : ℤ)
  /-- behind the limits -/
  | close (cflg : Bool) (i : ℤ)
  /-- `RETURN` -/
  | done
  /-- `ERROR` -/
  | failed (k : ℕ)
deriving DecidableEq

structure State where
  phase : Phase
  sp : ℕ
  ep : ℤ
  lastep : Option ℤ
  mem : ℤ → BitVec 8
  bracket : ℕ → BitVec 8
  bracketp : ℕ
  closed : ℕ
  nbra : ℕ
  ebra : ℕ
  circf : ℕ
  nodelim : Bool
  wrote : List ℤ
  placed : List (ℤ × ℤ)
  ops : List ℤ

namespace State

def goto (s : State) (p : Phase) : State := { s with phase := p }

/-- `GETC()` has taken a character. -/
def getc (s : State) : State := { s with sp := s.sp + 1 }

def store (s : State) (a : ℤ) (v : BitVec 8) : State :=
  { s with mem := Function.update s.mem a v, wrote := a :: s.wrote }

/-- `*ep++ = v` -/
def emit (s : State) (v : BitVec 8) : State := { s.store s.ep v with ep := s.ep + 1 }

/-- `*ep++ = v` of an opcode -/
def op (s : State) (v : BitVec 8) : State := { s.emit v with ops := s.ep :: s.ops }

/-- `*lastep |= v` -/
def orLast (s : State) (v : BitVec 8) : State :=
  s.lastep.elim s fun a => s.store a (s.mem a ||| v)

/-- A write to the bits of the class at `ep` -/
def storeBits (s : State) (a : ℤ) (v : BitVec 8) : State :=
  { s.store a v with placed := (s.ep, a) :: s.placed }

/-- `PLACE(c)` -/
def place (s : State) (c : ℤ) : State :=
  s.storeBits (s.ep + c / 8) (s.mem (s.ep + c / 8) ||| BitVec.ofNat 8 (2 ^ (c % 8).toNat))

/-- `PLACE` of the characters from `lc` up to `c`, without `c` -/
def placeRange (s : State) (lc c : ℤ) : State :=
  (List.range (c - lc).toNat).foldl (fun s (k : ℕ) => s.place (lc + k)) s

/-- A loop over the 16 bytes of the class at `ep` -/
def eachByte (s : State) (f : BitVec 8 → BitVec 8) : State :=
  (List.range 16).foldl (fun s (k : ℕ) => s.storeBits (s.ep + k) (f (s.mem (s.ep + k)))) s

end State

variable (src : ℕ → ℤ) (eof : ℤ) (sed : Bool) (n : ℕ)

/-- Up to the loop -/
def start (s : State) : State :=
  let c := src s.sp
  if c = eof ∨ c = ch '\n' then
    let s := if c = ch '\n' then { s with nodelim := true } else s.getc
    if s.mem s.ep = 0 ∧ sed = false then s.goto (.failed 41) else s.goto .done
  else
    let s := { s with bracketp := 0, circf := 0, closed := 0, nbra := 0, ebra := 0 }
    if c = ch '^' then { s.getc with circf := 1 }.goto .turn else s.goto .turn

/-- From `defchar` -/
def defchar (c : ℤ) (s : State) : State := ({ s with lastep := some s.ep }.op CCHR).goto (.operand c)

/-- `case '['`, up to the loop -/
def openClass (s : State) : State :=
  if n ≤ s.ep + 17 then s.goto (.failed 50)
  else
    let s := (s.op CCL).eachByte fun _ => 0
    if src s.sp = ch '^' then s.getc.getc.goto (.member true 0 (src (s.sp + 1)))
    else s.getc.goto (.member false 0 (src s.sp))

/-- `case '\\'` -/
def escape (s : State) : State :=
  let c := src s.sp
  let s := s.getc
  if c = ch '(' then
    if NBRA ≤ s.nbra then s.goto (.failed 43)
    else
      { s.op CBRA with
        bracket := Function.update s.bracket s.bracketp (BitVec.ofNat 8 s.nbra)
        bracketp := s.bracketp + 1
        nbra := s.nbra + 1 }.goto (.operand s.nbra)
  else if c = ch ')' then
    if s.bracketp = 0 then s.goto (.failed 42)
    else if s.ebra + 1 ≠ s.nbra then { s with ebra := s.ebra + 1 }.goto (.failed 42)
    else
      { s.op CKET with
        ebra := s.ebra + 1
        bracketp := s.bracketp - 1
        closed := s.closed + 1 }.goto (.operand (s.bracket (s.bracketp - 1)).toInt)
  else if c = ch '{' then
    if s.lastep = none then defchar c s else (s.orLast RNGE).goto (.nlim false)
  else if c = ch '\n' then s.goto (.failed 36)
  else if c = ch 'n' then defchar (ch '\n') s
  else if ch '1' ≤ c ∧ c ≤ ch '9' then
    if s.closed ≤ c - ch '1' then s.goto (.failed 25) else (s.op CBACK).goto (.operand (c - ch '1'))
  else defchar c s

/-- `case '*'` takes the character as it is when there is nothing to repeat. -/
def Unstarred (s : State) : Prop := ∀ a ∈ s.lastep, s.mem a = CBRA ∨ s.mem a = CKET

instance (s : State) : Decidable (Unstarred s) := inferInstanceAs (Decidable (∀ a ∈ s.lastep, _))

/-- One turn of the loop -/
def turn (s : State) : State :=
  if n ≤ s.ep then s.goto (.failed 50)
  else
    let c := src s.sp
    let s := s.getc
    let s := if c ≠ ch '*' ∧ (c ≠ ch '\\' ∨ src s.sp ≠ ch '{') then { s with lastep := some s.ep } else s
    if c = eof then (s.op CCEOF).goto .done
    else if c = ch '.' then (s.op CDOT).goto .turn
    else if c = ch '\n' then
      if sed then s.goto (.failed 36) else { (s.op CCEOF) with sp := s.sp - 1, nodelim := true }.goto .done
    else if c = ch '*' then if Unstarred s then defchar c s else (s.orLast STAR).goto .turn
    else if c = ch '$' then
      if src s.sp ≠ eof ∧ src s.sp ≠ ch '\n' then defchar c s else (s.op CDOL).goto .turn
    else if c = ch '[' then openClass src n s
    else if c = ch '\\' then escape src s
    else defchar c s

/-- Behind the loop over a class -/
def closeClass (neg : Bool) (s : State) : State :=
  let s := if neg then
      let s := s.eachByte (~~~ ·)
      s.storeBits s.ep (s.mem s.ep &&& 0o376)
    else s
  { s with ep := s.ep + 16 }.goto .turn

/-- `lc = c; PLACE(c)`, and the condition of the loop over a class -/
def listed (neg : Bool) (c : ℤ) (s : State) : State :=
  let s := s.place c
  if src s.sp ≠ ch ']' then s.getc.goto (.member neg c (src s.sp)) else closeClass neg s.getc

/-- One turn of the loop over a class -/
def member (neg : Bool) (lc c : ℤ) (s : State) : State :=
  if c = 0 ∨ c = ch '\n' then s.goto (.failed 49)
  else if c = ch '-' ∧ lc ≠ 0 then
    let c := src s.sp
    let s := s.getc
    if c = ch ']' then closeClass neg (s.place (ch '-'))
    else listed src neg c (s.placeRange lc c)
  else listed src neg c s

/-- One turn of the loop over a number. `i` is an int. -/
def digit (cflg : Bool) (i c : ℤ) (s : State) : State :=
  if ch '0' ≤ c ∧ c ≤ ch '9' then
    let i := (10 * i + c - ch '0').bmod (2 ^ 32)
    if src s.sp ≠ ch '\\' ∧ src s.sp ≠ ch ',' then s.getc.goto (.digit cflg i (src s.sp))
    else s.getc.goto (.limit cflg i (src s.sp))
  else s.goto (.failed 16)

/-- A limit has been read. -/
def limit (cflg : Bool) (i c : ℤ) (s : State) : State :=
  if 255 < i then s.goto (.failed 11)
  else
    let s := s.emit (BitVec.ofInt 8 i)
    if c = ch ',' then
      if cflg then s.goto (.failed 44)
      else if src s.sp = ch '\\' then s.getc.goto (.unbounded i)
      else s.goto (.nlim true)
    else s.goto (.close cflg i)

/-- Behind the limits -/
def close (cflg : Bool) (i : ℤ) (s : State) : State :=
  if src s.sp ≠ ch '}' then s.getc.goto (.failed 45)
  else if cflg = false then s.getc.goto (.operand i)
  else if (s.mem (s.ep - 1)).toNat < (s.mem (s.ep - 2)).toNat then s.getc.goto (.failed 46)
  else s.getc.goto .turn

def step (s : State) : State :=
  match s.phase with
  | .entry => start src eof sed s
  | .turn => turn src eof sed n s
  | .operand v => (s.emit (BitVec.ofInt 8 v)).goto .turn
  | .member neg lc c => member src neg lc c s
  | .nlim cflg => s.getc.goto (.digit cflg 0 (src s.sp))
  | .digit cflg i c => digit src cflg i c s
  | .limit cflg i c => limit src cflg i c s
  | .unbounded i => (s.emit 255).goto (.close true i)
  | .close cflg i => close src cflg i s
  | .done => s
  | .failed _ => s

/-- `compile` has been called: nothing has been read or written. -/
structure Called (s : State) : Prop where
  phase : s.phase = .entry
  ep : s.ep = 0
  lastep : s.lastep = none
  bracketp : s.bracketp = 0
  wrote : s.wrote = []
  placed : s.placed = []
  ops : s.ops = []

/-- All writes so far are inside the buffer, those to a class inside its 16 bytes, and the two pointers are where they
may be. -/
structure Good (s : State) : Prop where
  inside : ∀ a ∈ s.wrote, 0 ≤ a ∧ a < n
  inClass : ∀ p ∈ s.placed, p.1 ≤ p.2 ∧ p.2 < p.1 + 16
  bracketp : s.bracketp ≤ NBRA
  lastep : (∀ k, s.phase ≠ .failed k) → ∀ a ∈ s.lastep, a ∈ s.ops

/-- The next step has the room for a byte behind the first of its item, and a character for a class is one of the 128
that the class has bits for. -/
def Fits (s : State) : Prop :=
  match s.phase with
  | .operand _ => s.ep < n
  | .limit _ i _ => i ≤ 255 → s.ep < n
  | .unbounded _ => s.ep < n
  | .member _ lc c =>
    if c = 0 ∨ c = ch '\n' then True
    else if c = ch '-' ∧ lc ≠ 0 then src s.sp ≠ ch ']' → 0 ≤ src s.sp ∧ src s.sp < 128
    else 0 ≤ c ∧ c < 128
  | _ => True

end Svr3.Regexp
