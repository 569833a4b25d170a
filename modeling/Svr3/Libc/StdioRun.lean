import Svr3.Lib.Run
import Svr3.Libc.Stdio
import Mathlib.Algebra.Group.Int.Defs

/-!
# Positions of a buffered stream

A stream reads on from a position when its buffer has the bytes of the file there, up to the offset of the
descriptor. `fseek` looks at the counts only, so it can go to bytes that `ungetc` has written, or that were in the
buffer before the descriptor was moved.
-/

namespace Svr3.Stdio

variable {file : File} {bufsiz : Bufsiz} {s t : Iob} {target : ℤ} {offset : Int32} {ptrname : Whence}

/-! ## Longs and bytes -/

/-- The counts stay in the buffer, and the offset is a `long`. -/
structure Wf (bufsiz : Bufsiz) (s : Iob) : Prop where
  cnt : 0 ≤ s._cnt
  ptr : 0 ≤ s._ptr
  room : s._ptr + s._cnt ≤ bufsiz.size
  nonneg : 0 ≤ s.offset
  offset_lt : s.offset < 2 ^ 31
  base : s._base = false → s._ptr = 0 ∧ s._cnt = 0

/-- The stream goes on with the byte at `target`. -/
structure Reads (file : File) (target : ℤ) (s : Iob) : Prop where
  nonneg : 0 ≤ target
  offset : s.offset = target + s._cnt
  buffer : ∀ k, 0 ≤ k → k < s._cnt → some (s.mem (s._ptr + k)) = file.at (target + k)

theorem Wf.opened (base : Bool) (mem : ℤ → UInt8) : Wf bufsiz (opened base mem) where
  cnt := Int.le_refl 0
  ptr := Int.le_refl 0
  room := by
    have hpos := bufsiz.pos
    change (0 : ℤ) + 0 ≤ bufsiz.size
    omega
  nonneg := Int.le_refl 0
  offset_lt := (by decide : (0 : ℤ) < 2 ^ 31)
  base _ := ⟨rfl, rfl⟩

/-! ## `getc` -/

/-- The buffer after a read of `n` bytes, the first of which is taken -/
structure Filled (file : File) (n : ℤ) (s t : Iob) : Prop where
  ptr : t._ptr = 1
  cnt : t._cnt = n - 1
  base : t._base = true
  offset : t.offset = s.offset + n
  bytes : ∀ a, 0 ≤ a → a < n → some (t.mem a) = file.at (s.offset + a)

variable (file bufsiz) in
/-- The results of `getc`, one after the other -/
def getcAt : ℕ → Iob → Option UInt8
  | 0, s => (getc file bufsiz s).1
  | n + 1, s => getcAt n (getc file bufsiz s).2

variable (file bufsiz) in
/-- The stream is at `target`, as if there were no buffer. -/
structure Honest (target : ℤ) (s : Iob) : Prop where
  nonneg : 0 ≤ target
  tell : (ftell file s).1 = target
  bytes : ∀ n : ℕ, getcAt file bufsiz n s = file.at (target + n)

/-- The buffer has the bytes of the file from the target on; a distance that is counted from the offset of the
descriptor is a `long`. -/
def Clean (file : File) (offset : Int32) (ptrname : Whence) (s : Iob) : Prop :=
  if inBuffer offset.toInt ptrname s then
    ∀ k, distance offset.toInt ptrname s ≤ k → k < s._cnt →
      some (s.mem (s._ptr + k)) = file.at (s.offset - s._cnt + k)
  else ptrname = .cur → -2 ^ 31 ≤ offset.toInt - s._cnt

/-- A file of two bytes, and a stream with the small buffer -/
def twoBytes : File := ⟨[97, 98], by decide⟩

theorem eight_lt : 8 < 2 ^ 31 := by decide

def small : Bufsiz := ⟨8, Nat.succ_pos 7, eight_lt⟩

/-- One byte has been read. -/
def once : Iob := (getc twoBytes small (opened false fun _ => 0)).2

end Svr3.Stdio
