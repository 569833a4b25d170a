import Svr3.Lib.Pools
import Svr3.Lib.Run

/-!
# Receive descriptors of `nudnix/comm.c`

A message names a receive descriptor by its index, and `arrmsg` puts it on the queue of that descriptor.
Descriptors come from a free list and go back to it.
-/

namespace Svr3.Rfs

open Function

/-- The bytes of data in a message -/
def DATASIZE : ℕ := 1024

def EFAULT : ℕ := 14

def ENOMEM : ℕ := 12

/-- A message with a response `DUCOPYIN`. It has `rp_count` bytes of data. -/
structure Response where
  m_dest : ℕ
  rp_errno : ℕ
  rp_data : List UInt8
deriving DecidableEq, Repr

/-- What a copy of `data` to the address `dst` leaves in a memory -/
def bcopy (data : List UInt8) (dst : ℕ) (mem : ℕ → UInt8) : ℕ → UInt8 := fun a =>
  if dst ≤ a ∧ a < dst + data.length then data.getD (a - dst) 0 else mem a

/-- The bytes of a memory from an address on -/
def bytes (mem : ℕ → UInt8) (frm n : ℕ) : List UInt8 := (List.range n).map fun i => mem (frm + i)

/-- The table `rcvd` by fields, and the free list. `RDUSED` is true. -/
structure Comm where
  rd_stat : ℕ → Bool
  rd_next : ℕ → Option ℕ
  rd_rcvdq : ℕ → List Response
  rdfreelist : Option ℕ

def cr_rcvd (c : Comm) : Option (ℕ × Comm) :=
  c.rdfreelist.map fun rd => (rd, { c with
    rdfreelist := c.rd_next rd
    rd_rcvdq := update c.rd_rcvdq rd []
    rd_stat := update c.rd_stat rd true })

def free_rcvd (rd : ℕ) (c : Comm) : Comm :=
  { c with
    rd_stat := update c.rd_stat rd false
    rd_next := update c.rd_next rd c.rdfreelist
    rdfreelist := some rd }

/-- The status of the descriptor is not looked at, and the check of the connection is a comment. -/
def arrmsg (m : Response) (c : Comm) : Comm :=
  { c with rd_rcvdq := update c.rd_rcvdq m.m_dest (c.rd_rcvdq m.m_dest ++ [m]) }

/-- `none` where the process sleeps for a message. -/
def de_queue (rd : ℕ) (c : Comm) : Option (Response × Comm) :=
  match c.rd_rcvdq rd with
  | [] => none
  | m :: q => some (m, { c with rd_rcvdq := update c.rd_rcvdq rd q })

/-- The table that `comminit` chains. Its well-known descriptors are taken from it like others. -/
def comminit (nrcvd : ℕ) : Comm where
  rd_stat := fun _ => false
  rd_next := fun rd => if rd + 1 < nrcvd then some (rd + 1) else none
  rd_rcvdq := fun _ => []
  rdfreelist := if 0 < nrcvd then some 0 else none

section bcopy

variable {data : List UInt8} {mem : ℕ → UInt8} {dst frm n a : ℕ}

@[simp] theorem length_bytes : (bytes mem frm n).length = n := by
  rw [bytes, List.length_map, List.length_range]

theorem bcopy_out (ha : a < dst ∨ dst + data.length ≤ a) : bcopy data dst mem a = mem a := by
  apply if_neg
  omega

theorem bcopy_bytes {src : ℕ → UInt8} (ha : a < n) : bcopy (bytes src frm n) dst mem (dst + a) = src (frm + a) := by
  have hin : dst ≤ dst + a ∧ dst + a < dst + (bytes src frm n).length := by
    rw [length_bytes]
    omega
  rw [bcopy, if_pos hin, Nat.add_sub_cancel_left]
  simp [bytes, ha]

end bcopy

section table

variable {c c' : Comm} {rd x nrcvd : ℕ} {m : Response}

theorem cr_rcvd_eq (h : cr_rcvd c = some (rd, c')) :
    c.rdfreelist = some rd ∧ c' = { c with
      rdfreelist := c.rd_next rd
      rd_rcvdq := update c.rd_rcvdq rd []
      rd_stat := update c.rd_stat rd true } := by
  obtain ⟨rd', hfree, heq⟩ := Option.map_eq_some_iff.mp h
  cases heq
  exact ⟨hfree, rfl⟩

theorem de_queue_eq (h : de_queue rd c = some (m, c')) :
    ∃ q, c.rd_rcvdq rd = m :: q ∧ c' = { c with rd_rcvdq := update c.rd_rcvdq rd q } := by
  unfold de_queue at h
  split at h
  · exact absurd h nofun
  · next m' q hq =>
    cases h
    exact ⟨q, hq, rfl⟩

/-- The free list of the table, from a descriptor on -/
theorem comminit_linked (k : ℕ) (hk : k ≤ nrcvd) :
    Linked (comminit nrcvd).rd_next (if k < nrcvd then some k else none) (List.range' k (nrcvd - k)) := by
  induction hn : nrcvd - k generalizing k with
  | zero => rw [if_neg (by omega)]; rfl
  | succ n ih =>
    rw [if_pos (by omega)]
    exact ⟨rfl, ih (k + 1) (by omega) (by omega)⟩

end table

end Svr3.Rfs
