import Mathlib.Data.Int.Notation
import Svr3.Nudnix.Comm

/-!
# `rcopyout` of `nudnix/rmove.c` and its client in `nudnix/rsc.c`

A system call of a server copies out bytes any number of times, and the last message waits in `u_copymsg` for
the next one or for the final response of `serve`. The client takes the messages in order and stores their
bytes. No message is lost and no copy faults.
-/

namespace Svr3.Rfs

/-- The length of the queue of a descriptor, and of a burst of messages -/
def FILE_QSIZE : ℕ := 5

/-- A call `rcopyout` of as many bytes as `data` has, with `U_RCOPY` or without it -/
structure Copyout where
  rcopy : Bool
  data : List UInt8
  dst : ℕ

/-- A response with `rp_count` bytes of data -/
structure Copymsg where
  rp_bufptr : ℕ
  rp_data : List UInt8
  rp_copysync : Bool

/-- What a server does with its circuit: it sends a message, or receives an acknowledgment. -/
inductive Ev
  | send (m : Copymsg)
  | ack

structure Serve where
  u_copymsg : Option Copymsg
  sd_copycnt : ℕ
  out : List Ev

/-- The server at the start of a system call -/
def Serve.start : Serve := ⟨none, 0, []⟩

/-- A message that is ready is sent. `u_copymsg` still points to it. -/
def sendReady (s : Serve) : Serve :=
  match s.u_copymsg with
  | none => s
  | some m =>
    if s.sd_copycnt + 1 ≥ FILE_QSIZE then
      { s with sd_copycnt := 0, out := s.out ++ [.send { m with rp_copysync := true }, .ack] }
    else
      { s with
        sd_copycnt := s.sd_copycnt + 1
        out := s.out ++ [.send { m with rp_copysync := false }] }

/-- The first `DATASIZE` bytes are put into a message. -/
def Serve.fill (s : Serve) (dst : ℕ) (data : List UInt8) : Serve :=
  { s with u_copymsg := some ⟨dst, data.take DATASIZE, false⟩ }

/-- The loop in `rcopyout` -/
def copyLoop (rcopy : Bool) (dst : ℕ) (data : List UInt8) (s : Serve) : Serve :=
  if data = [] then s
  else if rcopy ∧ data.length ≤ DATASIZE then { sendReady s with u_copymsg := none }
  else copyLoop rcopy (dst + DATASIZE) (data.drop DATASIZE) ((sendReady s).fill dst data)
termination_by data.length
decreasing_by
  have hpos : 0 < data.length := List.length_pos_iff.mpr ‹_›
  rw [List.length_drop, DATASIZE]
  omega

def rcopyout (s : Serve) (c : Copyout) : Serve :=
  copyLoop c.rcopy c.dst c.data (if c.rcopy then s.fill c.dst c.data else s)

/-- The client: what it has stored, byte by byte, and its acknowledgments that the server has not received. -/
structure Client where
  stored : List (ℕ × UInt8)
  acks : ℕ

/-- The stores of a copy to the address `dst` -/
def stores (dst : ℕ) : List UInt8 → List (ℕ × UInt8)
  | [] => []
  | b :: data => (dst, b) :: stores (dst + 1) data

/-- `DUCOPYOUT` in `rsc`. The server sleeps until there is an acknowledgment for it. -/
def Client.step (k : Client) : Ev → Option Client
  | .send m => some ⟨k.stored ++ stores m.rp_bufptr m.rp_data, k.acks + m.rp_copysync.toNat⟩
  | .ack => if 0 < k.acks then some { k with acks := k.acks - 1 } else none

/-- The system calls whose client stores bytes from the final response, with the fields of the response that
it looks at. `stat` is what the two machines change in a `struct stat`, and `rest` is in the buffer behind the
bytes of the message. -/
inductive Syscall
  | read
  | statfs (rp_errno : ℕ)
  | getdents (rp_rval : ℤ)
  | stat (rp_errno : ℕ) (change : List UInt8 → List UInt8)
  | utssys (rp_errno : ℕ) (rest : List UInt8)
  | other

/-- The size of a `struct ustat` -/
def sizeofUstat : ℕ := 18

/-- The bytes that the client stores from the data of a final response -/
def Syscall.reply : Syscall → List UInt8 → List UInt8
  | .read, data => data
  | .statfs err, data => if err = 0 then data else []
  | .getdents rval, data => if 0 < rval then data else []
  | .stat err change, data => if err = 0 then change data else []
  | .utssys err rest, data => if err = 0 then (data ++ rest).take sizeofUstat else []
  | .other, _ => []

/-- A new buffer is sent where no message waits. Only `DUREAD` and `DUREADI` look at `rp_subyte`. -/
def Syscall.subyte : Syscall → List UInt8 → List UInt8
  | .read, _ => []
  | y, data => y.reply data

/-- The stores from the final response. `fresh` is in a new buffer. -/
def finalStores (y : Syscall) (fresh : ℕ × List UInt8) (s : Serve) : List (ℕ × UInt8) :=
  match s.u_copymsg with
  | some m => stores m.rp_bufptr (y.reply m.rp_data)
  | none => stores fresh.1 (y.subyte fresh.2)

/-- What the client has stored at the end of the system call -/
def clientStores (y : Syscall) (fresh : ℕ × List UInt8) (cs : List Copyout) : Option (List (ℕ × UInt8)) :=
  let s := cs.foldl rcopyout .start
  (s.out.foldlM Client.step ⟨[], 0⟩).map fun k => k.stored ++ finalStores y fresh s

end Svr3.Rfs
