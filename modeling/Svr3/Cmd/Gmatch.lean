import Mathlib.Data.List.Infix

/-!
# Patterns of the shell

`gmatch` of `sh/expand.c`, and what a pattern stands for. A string is the list of its characters before the null
character; a pointer that has gone past the null character is `none`, and nothing can be read through it.
-/

namespace Svr3.Gmatch

open List

def NUL : Char := '\x00'

abbrev Ptr := Option (List Char)

/-- `*p++`, for a `p` that has not gone past the end: the character, and the pointer behind it -/
def next : List Char → Char × Ptr
  | [] => (NUL, none)
  | c :: p => (c, some p)

/-- How the loop over a list of characters ends: with a 0, with the text behind the bracket, or past the end -/
inductive Class where
  | no
  | go (p : List Char)
  | past
deriving DecidableEq

/-- `ok` after an item of the list, or `none` for `return(0)` -/
def count (notflag hit : Bool) (ok : ℕ) : Option ℕ :=
  if notflag then if hit then none else some (ok + 1) else some (if hit then ok + 1 else ok)

/-- `lc` for a character listed by itself -/
def single (notflag : Bool) (scc lc : Char) : Bool := scc == lc || notflag && scc == NUL

/-- `c` is between two characters of a range. -/
def Dash (c : Char) (lc : Option Char) (p : List Char) : Prop :=
  c = '-' ∧ (∃ l ∈ lc, NUL < l) ∧ p.head? ≠ some ']'

instance : Decidable (Dash c lc p) :=
  haveI : Decidable (∃ l ∈ lc, NUL < l) := lc.decidableExistsMem
  inferInstanceAs (Decidable (_ ∧ _ ∧ _))

/-- The loop over a list of characters. `ok` is a short, and `none` is the -1 of `lc`. -/
def inList (scc : Char) (notflag : Bool) : List Char → ℕ → Option Char → Class
  | [], _, _ => .no
  | c :: p, ok, lc =>
    if c = ']' then if ok ≠ 0 then .go p else .no
    else if Dash c lc p then
      -- `*p++` is evaluated only if `scc` is not below `lc`
      if scc < lc.getD NUL then
        (count notflag false ok).elim .no fun ok => inList scc notflag p (ok % 65536) lc
      else match p with
        | [] => if notflag ∧ scc = NUL then .no else .past
        | d :: p => (count notflag (decide (scc ≤ d)) ok).elim .no fun ok => inList scc notflag p (ok % 65536) lc
    else if c = '\\' then
      match p with
      | [] => if notflag ∧ scc = NUL then .no else .past
      | d :: p =>
        (count notflag (single notflag scc d) ok).elim .no fun ok => inList scc notflag p (ok % 65536) (some d)
    else (count notflag (single notflag scc c) ok).elim .no fun ok => inList scc notflag p (ok % 65536) (some c)

def notflag (p : List Char) : Bool := p.head? == some '!'

/-- The list behind an opening bracket -/
def list (p : List Char) : List Char := if notflag p then p.tail else p

/-- The text behind an opening bracket -/
def bracket (scc : Char) (p : List Char) : Class := inList scc (notflag p) (list p) 0 none

def item (r : Char × Char) : Option (List (Char × Char) × List Char) → Option (List (Char × Char) × List Char) :=
  Option.map fun l => (r :: l.1, l.2)

/-- The ranges up to the closing bracket, and the text behind it, if `lc` was listed last. A character by itself is a
range of one. -/
def listed : Option Char → List Char → Option (List (Char × Char) × List Char)
  | _, [] => none
  | lc, c :: p =>
    if c = ']' then some ([], p)
    else if c = '-' ∧ lc.isSome ∧ p.head? ≠ some ']' then
      match p with
      | [] => none
      | d :: p =>
        if d = '\\' then
          match p with
          | [] => none
          | e :: p => item (lc.getD NUL, e) (listed (some e) p)
        else item (lc.getD NUL, d) (listed (some d) p)
    else if c = '\\' then
      match p with
      | [] => none
      | d :: p => item (d, d) (listed (some d) p)
    else item (c, c) (listed (some c) p)

def Among (c : Char) (rs : List (Char × Char)) : Prop := ∃ r ∈ rs, r.1 ≤ c ∧ c ≤ r.2

/-- The text behind an opening bracket lists `c`, or does not list it if `!` comes first; `q` is behind the closing
bracket. -/
def Brackets (c : Char) (p q : List Char) : Prop :=
  ∃ rs, listed none (list p) = some (rs, q) ∧ (Among c rs ↔ notflag p = false)

def special : List Char := ['?', '*', '[', '\\']

/-- `Derived p s`: the string `s` is derived from the pattern `p`. -/
inductive Derived : List Char → List Char → Prop where
  | nil : Derived [] []
  | any {p s : List Char} (c : Char) : Derived p s → Derived ('?' :: p) (c :: s)
  | none {p s : List Char} : Derived p s → Derived ('*' :: p) s
  | more {p s : List Char} (c : Char) : Derived ('*' :: p) s → Derived ('*' :: p) (c :: s)
  | brackets {p q s : List Char} {c : Char} : Brackets c p q → Derived q s → Derived ('[' :: p) (c :: s)
  | quoted {p s : List Char} (c : Char) : Derived p s → Derived ('\\' :: c :: p) (c :: s)
  | self {p s : List Char} {c : Char} : c ∉ special → Derived p s → Derived (c :: p) (c :: s)

end Svr3.Gmatch
