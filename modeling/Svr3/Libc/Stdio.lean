import Mathlib.Data.Int.Notation
import Mathlib.Data.Nat.Notation
import Mathlib.Logic.Function.Basic
import Mathlib.Algebra.Group.Nat.Defs

/-!
# Buffered input of `libc/port/stdio`

A stream that is open for reading, the descriptor below it, and the file. Pointers count from `_base`; what lies in
memory there is what the last calls of `read` and `ungetc` have left.
-/

namespace Svr3.Stdio

/-- A value as a `long` -/
def long (x : ℤ) : ℤ := x.bmod (2 ^ 32)

/-- The bytes of a file, whose size is a `long` -/
structure File where
  bytes : List UInt8
  size_lt : bytes.length < 2 ^ 31

/-- The byte at an offset -/
def File.at (file : File) (offset : ℤ) : Option UInt8 :=
  if 0 ≤ offset then file.bytes[offset.toNat]? else none

/-- The fields of a `FILE` that is read, what is in its buffer, and the offset of the descriptor; `_base` is whether
there is a buffer. -/
structure Iob where
  _cnt : ℤ
  _ptr : ℤ
  _base : Bool
  eof : Bool
  err : Bool
  mem : ℤ → UInt8
  offset : ℤ

/-- `_bufsiz` of a stream, be it the default or what was given to `setvbuf` -/
structure Bufsiz where
  size : ℕ
  pos : 0 < size
  size_lt : size < 2 ^ 31

variable (file : File) (bufsiz : Bufsiz)

/-! ## System calls -/

/-- The whence values 0, 1 and 2 -/
inductive Whence
  | set
  | cur
  | fromEnd
  deriving DecidableEq

/-- The read offset is what it was when the new one is negative. -/
def lseek (off : ℤ) (ptrname : Whence) (s : Iob) : ℤ × Iob :=
  let off := match ptrname with
    | .set => off
    | .cur => long (off + s.offset)
    | .fromEnd => long (off + file.bytes.length)
  if off < 0 then (-1, s) else (off, { s with offset := off })

/-- `read` of `count` bytes to `_base` -/
def read (count : ℕ) (s : Iob) : ℤ × Iob :=
  let n : ℤ := min count (file.bytes.length - s.offset).toNat
  (n, { s with
    mem := fun a => if 0 ≤ a ∧ a < n then ((file.at (s.offset + a)).getD 0) else s.mem a
    offset := s.offset + n })

/-! ## The library -/

def findbuf (s : Iob) : Iob := { s with _base := true, _ptr := 0 }

/-- `none` is `EOF`. -/
def filbuf (s : Iob) : Option UInt8 × Iob :=
  let s := if s._base then s else findbuf s
  let s := { s with _ptr := 0 }
  let (n, s) := read file bufsiz.size s
  let s : Iob := { s with _cnt := n - 1 }
  if s._cnt ≥ 0 then (some (s.mem s._ptr), { s with _ptr := s._ptr + 1 })
  else
    let s := if s._cnt ≠ -1 then { s with err := true } else { s with eof := true }
    (none, { s with _cnt := 0 })

def getc (s : Iob) : Option UInt8 × Iob :=
  let s := { s with _cnt := s._cnt - 1 }
  if s._cnt < 0 then filbuf file bufsiz s else (some (s.mem s._ptr), { s with _ptr := s._ptr + 1 })

/-- `none` is a store through a null pointer. -/
def ungetc (c : ℤ) (s : Iob) : Option (ℤ × Iob) :=
  let push (s : Iob) : Option (ℤ × Iob) :=
    if s._base then
      some (c, { s with
        _ptr := s._ptr - 1
        _cnt := s._cnt + 1
        mem := Function.update s.mem (s._ptr - 1) (UInt8.ofInt c) })
    else none
  if c = -1 then some (-1, s)
  else if s._ptr ≤ 0 then
    if s._ptr = 0 ∧ s._cnt = 0 then push { s with _ptr := s._ptr + 1 } else some (-1, s)
  else push s

/-- How far the target is from `_ptr` -/
def distance (offset : ℤ) (ptrname : Whence) (s : Iob) : ℤ :=
  if ptrname = .set then long (offset + long (s._cnt - s.offset)) else offset

/-- The target is in the buffer. -/
def inBuffer (offset : ℤ) (ptrname : Whence) (s : Iob) : Prop :=
  ptrname ≠ .fromEnd ∧ s._base = true ∧ s._cnt > 0 ∧ distance offset ptrname s ≤ s._cnt ∧
    distance offset ptrname s ≥ -s._ptr

instance (offset : ℤ) (ptrname : Whence) (s : Iob) : Decidable (inBuffer offset ptrname s) :=
  inferInstanceAs (Decidable (_ ∧ _))

def fseek (offset : Int32) (ptrname : Whence) (s : Iob) : ℤ × Iob :=
  let s := { s with eof := false }
  let offset : ℤ := offset.toInt
  if inBuffer offset ptrname s then
    let p := distance offset ptrname s
    (0, { s with _ptr := s._ptr + p, _cnt := s._cnt - p })
  else
    let offset := if ptrname = .cur ∧ s._base then long (offset - s._cnt) else offset
    let (p, s) := lseek file offset ptrname s
    (if p = -1 then -1 else 0, { s with _cnt := 0 })

def ftell (s : Iob) : ℤ × Iob :=
  let s := if s._cnt < 0 then { s with _cnt := 0 } else s
  let (tres, s) := lseek file 0 .cur s
  (if tres ≥ 0 then long (tres - s._cnt) else tres, s)

/-! ## Runs -/

inductive Act
  | getc
  | ungetc (c : ℤ)
  | fseek (offset : Int32) (ptrname : Whence)
  | ftell

def step (s : Iob) : Act → Option Iob
  | .getc => some (getc file bufsiz s).2
  | .ungetc c => (ungetc c s).map Prod.snd
  | .fseek offset ptrname => some (fseek file offset ptrname s).2
  | .ftell => some (ftell file s).2

/-- A stream that has just been opened, with a buffer or without -/
def opened (base : Bool) (mem : ℤ → UInt8) : Iob := ⟨0, 0, base, false, false, mem, 0⟩

end Svr3.Stdio
