import Mathlib.Data.Int.Notation
import Mathlib.Data.Nat.Notation

/-!
# Waiting of `sh/service.c`

`post` writes a process into the first hole of `pwlist`. `await` clears what `wait` returns, as far as the count
was before it posted its own process.
-/

namespace Svr3.Sh

def MAXP : ℕ := 20

structure Shell where
  pwlist : List ℤ
  pwc : ℤ
  wasintr : Bool
  exitval : ℕ
  deriving DecidableEq

/-- Signal and exit status of a child -/
structure Status where
  sig : ℕ
  w_hi : ℕ
  deriving DecidableEq

/-- What `wait` returns: a child that has exited, or an error -/
inductive Ret
  | child (p : ℤ) (w : Status)
  | EINTR
  | ECHILD
  deriving DecidableEq

def Ret.pid : Ret → ℤ
  | child p _ => p
  | _ => -1

/-- One call of `wait`, and whether SIGINT came in it -/
structure Turn where
  ret : Ret
  sigint : Bool
  deriving DecidableEq

/-! ## The list -/

/-- `none` is a write or a read outside of the table. -/
def post (pcsid : ℤ) (s : Shell) : Option Shell :=
  if pcsid = 0 then some s
  else
    match s.pwlist.findIdx? (· = 0) with
    | none => none
    | some pw =>
      if s.pwc ≥ MAXP - 1 then
        match pw with
        | 0 => none
        | pw + 1 => some { s with pwlist := s.pwlist.set pw pcsid }
      else some { s with pwlist := s.pwlist.set pw pcsid, pwc := s.pwc + 1 }

def clear : ℕ → List ℤ → List ℤ
  | n + 1, _ :: pw => 0 :: clear n pw
  | _, pw => pw

def postclr (s : Shell) : Shell := { s with pwlist := clear (s.pwc + 1).toNat s.pwlist, pwc := 0 }

/-- The cells that are scanned for `p`, and how often it was found -/
def scan (p : ℤ) : ℕ → List ℤ → List ℤ × ℕ
  | n + 1, x :: pw =>
    let (pw, found) := scan p n pw
    if x = p then (0 :: pw, found + 1) else (x :: pw, found)
  | _, pw => (pw, 0)

theorem scan_length (p : ℤ) (n : ℕ) (pw : List ℤ) : (scan p n pw).1.length = pw.length := by
  induction n generalizing pw with
  | zero => simp [scan]
  | succ n ih =>
    cases pw with
    | nil => simp [scan]
    | cons x pw =>
      simp only [scan]
      split <;> simp [ih]

/-- The first cell with `i` among those that are scanned and the one behind them -/
def forget (i : ℤ) (n : ℕ) (s : Shell) : Option Shell :=
  let pw := min ((s.pwlist.findIdx? (· = i)).getD n) n
  match s.pwlist[pw]? with
  | none => none
  | some x => if x = i then some { s with pwlist := s.pwlist.set pw 0, pwc := s.pwc - 1 } else some s

/-- A cell with `i` is cleared, or nothing happens. -/
theorem forget_cases {i : ℤ} {n : ℕ} {shell shell' : Shell} (hf : forget i n shell = some shell') :
    shell' = shell ∨ ∃ k, shell.pwlist[k]? = some i ∧
      shell' = { shell with pwlist := shell.pwlist.set k 0, pwc := shell.pwc - 1 } := by
  rw [forget] at hf
  split at hf
  · exact nomatch hf
  · rename_i x hcell
    split at hf
    · rename_i hx
      exact .inr ⟨_, hx ▸ hcell, (Option.some.inj hf).symm⟩
    · exact .inl (Option.some.inj hf).symm

/-! ## `await` -/

/-- The children of the shell that `wait` has not returned, and those of them that were posted -/
structure Sys where
  shell : Shell
  children : List ℤ
  posted : List ℤ
  deriving DecidableEq

/-- What `wait` does to the children; `none` is what it cannot return. -/
def wait (ret : Ret) (s : Sys) : Option Sys :=
  match ret with
  | .child p _ =>
    if p ∈ s.children then some { s with children := s.children.erase p, posted := s.posted.erase p } else none
  | .EINTR => some s
  | .ECHILD => if s.children = [] then some s else none

def SIGFLG : ℕ := 128

/-- The exit value so far -/
def status (rc found : ℕ) : Ret → ℕ
  | .child _ w =>
    let sig := if w.sig = 127 then w.w_hi else w.sig
    if rc = 0 ∧ found ≠ 0 then if sig ≠ 0 then sig ||| SIGFLG else w.w_hi else rc
  | _ => rc

/-- The loop of `await`, with the calls of `wait` that are not used; `n` cells are scanned. -/
def awaitLoop (i : ℤ) (bckg : Bool) (n : ℕ) : List Turn → ℕ → Sys → Option (Sys × List Turn)
  | [], rc, s => if s.shell.pwc = 0 then some ({ s with shell.exitval := rc }, []) else none
  | turn :: turns, rc, s =>
    if s.shell.pwc = 0 then some ({ s with shell.exitval := rc }, turn :: turns)
    else
      match wait turn.ret s with
      | none => none
      | some s =>
        if (s.shell.wasintr || turn.sigint) ∧ bckg then
          some ({ s with shell.wasintr := false, shell.exitval := rc }, turns)
        else
          let (pwlist, found) := scan turn.ret.pid n s.shell.pwlist
          let shell := { s.shell with pwlist := pwlist, pwc := s.shell.pwc - found, wasintr := false }
          if turn.ret.pid = -1 then
            match if bckg then forget i n shell else some shell with
            | none => none
            | some shell => awaitLoop i bckg n turns rc { s with shell := shell }
          else if turn.ret.pid = i then
            some ({ s with shell := { shell with exitval := status rc found turn.ret } }, turns)
          else awaitLoop i bckg n turns (status rc found turn.ret) { s with shell := shell }

def await (i : ℤ) (bckg : Bool) (turns : List Turn) (s : Sys) : Option (Sys × List Turn) :=
  match post i s.shell with
  | none => none
  | some shell => awaitLoop i bckg (s.shell.pwc + 1).toNat turns 0 { s with shell := shell }

/-! ## Runs -/

/-- What a shell does: it makes a child, posts it, waits, or becomes a child itself. -/
inductive Act
  | fork (p : ℤ)
  | post (p : ℤ)
  | await (i : ℤ) (bckg : Bool) (turns : List Turn)
  | postclr
  | sigint

def step (s : Sys) : Act → Option Sys
  | .fork p => if 0 < p ∧ p ∉ s.children then some { s with children := p :: s.children } else none
  | .post p =>
    if p ∈ s.children ∧ p ∉ s.posted then
      (post p s.shell).map fun shell => { s with shell := shell, posted := p :: s.posted }
    else none
  | .await i bckg turns =>
    match await i bckg turns s with
    | some (t, []) => some t
    | _ => none
  | .postclr => some ⟨postclr s.shell, [], []⟩
  | .sigint => some { s with shell.wasintr := true }

def boot : Sys := ⟨⟨List.replicate MAXP 0, 0, false, 0⟩, [], []⟩

end Svr3.Sh
