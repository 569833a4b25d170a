import Mathlib.Data.BitVec
import Svr3.Lib.Bytes
import Svr3.Lib.Decimal

/-!
# The canonical form of `nudnix/canon.c`

A format string says what fields a record has. `tcanon` writes a local record in the canonical form, in which
shorts and integers are longs and strings have their lengths before them, and `fcanon` writes it back.
-/

namespace Svr3.Canon

/-- `SALIGN`, `IALIGN` and `LALIGN` -/
def align (p : ℕ) : ℕ := (p + 1) / 2 * 2

/-- The size of `cbuf` -/
def cbufSize : ℕ := 1400

/-- A count of a format, in the arithmetic of a short -/
def duatoi (str : List Char) : BitVec 16 × List Char := number 0 str

/-- `strlen`: the bytes before the first one that is 0, in a memory of 2^32 bytes -/
def strlen (m : Mem) (a : ℕ) : ℕ :=
  go (2 ^ 32) a
where
  go : ℕ → ℕ → ℕ
  | 0, _ => 0
  | n + 1, a => if m a = 0 then 0 else go n (a + 1) + 1

/-- The rest of the format, `from` and `to`, and the memory -/
structure Conv where
  fmt : List Char
  src : ℕ
  dst : ℕ
  mem : Mem

/-- One turn of `fcanon`, or `none` for a character that is no conversion -/
def fconv (c : Char) (s : Conv) : Option Conv :=
  match c with
  | 's' =>
    let dst := align s.dst
    let src := align s.src
    some { s with src := src + 4, dst := dst + 2,
                  mem := poke dst (be16 ((peek4 s.mem src).setWidth 16)) s.mem }
  | 'i' =>
    let dst := align s.dst
    let src := align s.src
    some { s with src := src + 4, dst := dst + 4, mem := poke dst (be32 (peek4 s.mem src)) s.mem }
  | 'l' =>
    let dst := align s.dst
    let src := align s.src
    some { s with src := src + 4, dst := dst + 4, mem := poke dst (be32 (peek4 s.mem src)) s.mem }
  | 'b' =>
    some { s with src := s.src + 1, dst := s.dst + 1, mem := poke s.dst [s.mem s.src] s.mem }
  | 'c' =>
    let src := align s.src
    let (count, fmt) := duatoi s.fmt
    -- the count of a string stands before it, and is written again where it is
    let (ltmp, mem) : BitVec 32 × Mem :=
      if count = 0 then (peek4 s.mem src, poke src (be32 (peek4 s.mem src)) s.mem)
      else (count.signExtend 32, s.mem)
    some { fmt, src := src + 4 + ltmp.toNat, dst := s.dst + ltmp.toNat,
           mem := copy ltmp.toNat (src + 4) s.dst mem }
  | _ => none

/-- One turn of `tcanon` -/
def tconv (c : Char) (s : Conv) : Option Conv :=
  match c with
  | 's' =>
    let dst := align s.dst
    let src := align s.src
    some { s with src := src + 2, dst := dst + 4,
                  mem := poke dst (be32 ((peek2 s.mem src).signExtend 32)) s.mem }
  | 'i' =>
    let dst := align s.dst
    let src := align s.src
    some { s with src := src + 4, dst := dst + 4, mem := poke dst (be32 (peek4 s.mem src)) s.mem }
  | 'l' =>
    let dst := align s.dst
    let src := align s.src
    some { s with src := src + 4, dst := dst + 4, mem := poke dst (be32 (peek4 s.mem src)) s.mem }
  | 'b' =>
    some { s with src := s.src + 1, dst := s.dst + 1, mem := poke s.dst [s.mem s.src] s.mem }
  | 'c' =>
    let (count, fmt) := duatoi s.fmt
    let ltmp : BitVec 32 := if count = 0 then BitVec.ofNat 32 (strlen s.mem s.src + 1) else count.signExtend 32
    let dst := align s.dst
    some { fmt, src := s.src + ltmp.toNat, dst := align (dst + 4 + ltmp.toNat),
           mem := copy ltmp.toNat s.src (dst + 4) (poke dst (be32 ltmp) s.mem) }
  | _ => none

/-- The loop over the format, and whether it comes to its end -/
def convert (conv : Char → Conv → Option Conv) : ℕ → Conv → Bool × Conv
  | 0, s => (true, s)
  | n + 1, s =>
    match s.fmt with
    | [] => (true, s)
    | c :: fmt =>
      match conv c { s with fmt := fmt } with
      | none => (false, { s with fmt := fmt })
      | some s => convert conv n s

/-- The number of bytes of the local record, or 0, and the memory -/
def fcanon (fmt : List Char) (src dst : ℕ) (m : Mem) : ℕ × Mem :=
  match convert fconv fmt.length ⟨fmt, src, dst, m⟩ with
  | (true, s) => (s.dst - dst, s.mem)
  | (false, s) => (0, s.mem)

/-- The number of bytes of the canonical record, or 0, and the memory. In place, with the flag, the record is
made in `cbuf` on the stack first; `none` when it runs over the end of it. -/
def tcanon (cbuf : ℕ) (fmt : List Char) (src dst : ℕ) (flag : Bool) (m : Mem) : Option (ℕ × Mem) :=
  if flag = true ∧ src = dst then
    match convert tconv fmt.length ⟨fmt, src, cbuf, m⟩ with
    | (true, s) =>
      if s.dst - cbuf > cbufSize then none
      else some (s.dst - cbuf, copy (s.dst - cbuf) cbuf dst s.mem)
    | (false, s) => some (0, s.mem)
  else
    match convert tconv fmt.length ⟨fmt, src, dst, m⟩ with
    | (true, s) => some (s.dst - dst, s.mem)
    | (false, s) => some (0, s.mem)

end Svr3.Canon
