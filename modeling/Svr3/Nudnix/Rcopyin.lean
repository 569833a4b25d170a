import Mathlib.Data.Int.Notation
import Svr3.Nudnix.Comm

/-!
# `rcopyin` of `nudnix/rmove.c` and its client in `nudnix/rsc.c`

Servers call `rcopyin`, each with a client of its own that answers in `rsc`. A call is cut where the
server sleeps for a message, and its client after each message it sends. The messages of a client arrive
in order, at any time; descriptors are also taken and freed by other code of the server's machine. The links
stay up.
-/

namespace Svr3.Rfs

/-- The request that `u_copybp` points to. -/
structure Copybp where
  rq_data : ℕ → UInt8
  rq_sofar : ℕ
  rq_prewrite : ℕ

/-- A call `rcopyin (frm, dst, n)`, with the memory of the client and with the copies that fault. The client
stashed its data with the request, and its server takes them in order. -/
structure Call where
  frm : ℕ
  dst : ℕ
  n : ℕ
  mem : ℕ → UInt8
  u_copybp : Option Copybp
  copyinFaults : ℕ → ℕ → Bool
  bcopyFaults : ℕ → ℕ → Bool
  presents : ∀ b, u_copybp = some b → ∀ i < b.rq_prewrite, b.rq_data (b.rq_sofar + i) = mem (frm + i)

namespace Call

/-- What the stash has for the call -/
def size (c : Call) : ℕ := c.u_copybp.elim 0 fun b => min b.rq_prewrite c.n

/-- What the call has to ask the client for -/
def left (c : Call) : ℕ := c.n - c.size

/-- The stash is not copied. -/
def prefault (c : Call) : Bool := c.u_copybp.isSome && c.bcopyFaults c.dst c.size

/-- The client's `copyin` of chunk `k` faults. -/
def chunkFaults (c : Call) (k : ℕ) : Bool :=
  c.copyinFaults (c.frm + c.size + k * DATASIZE) (min (c.left - k * DATASIZE) DATASIZE)

/-- The server's `bcopy` of chunk `k` faults. -/
def storeFaults (c : Call) (k : ℕ) : Bool :=
  c.bcopyFaults (c.dst + c.size + k * DATASIZE) (min (c.left - k * DATASIZE) DATASIZE)

end Call

/-- Where the server is in `rcopyin`: before the test of the loop, after a `break`, or back from it. -/
inductive Pos
  | loop (rd n dst : ℕ) (ret : ℤ)
  | broke (rd : ℕ) (ret : ℤ)
  | returned (ret : ℤ)

/-- A call that is under way. The client's loop in `rsc` has `rp_bufptr`, `rp_count` and the descriptor of the
gift; `wire` are its messages that have not arrived, `sent` and `got` record them all. -/
structure Req where
  call : Call
  pos : Pos
  mem : ℕ → UInt8
  u_error : ℕ
  copybp : Option Copybp
  gift : ℕ
  bufptr : ℕ
  count : ℕ
  wire : List Response
  sent : List Response
  got : List Response

/-- The stash that the call leaves for the next one -/
def Call.leftover (c : Call) : Option Copybp :=
  c.u_copybp.bind fun b =>
    if b.rq_prewrite - c.size = 0 then none
    else some { b with rq_sofar := b.rq_sofar + c.size, rq_prewrite := b.rq_prewrite - c.size }

/-- The data of the stash that the call takes -/
def Call.prewritten (c : Call) : List UInt8 :=
  c.u_copybp.elim [] fun b => bytes b.rq_data b.rq_sofar c.size

/-- The call has returned without a message. -/
def Req.back (c : Call) (ret : ℤ) (error : ℕ) (copybp : Option Copybp) (mem : ℕ → UInt8) : Req :=
  { call := c, pos := .returned ret, mem := mem, u_error := error, copybp := copybp, gift := 0
    bufptr := 0, count := 0, wire := [], sent := [], got := [] }

/-- `rcopyin` up to its loop. The client has got the message with the gift, or will get it. -/
def rcopyin (c : Call) (mem : ℕ → UInt8) (t : Comm) : Req × Comm :=
  if c.prefault then (.back c (-1) EFAULT c.u_copybp mem, t)
  else
    let mem := bcopy c.prewritten c.dst mem
    if c.u_copybp.isSome ∧ c.left = 0 then (.back c 0 0 c.leftover mem, t)
    else match cr_rcvd t with
      | none => (.back c (-1) ENOMEM c.leftover mem, t)
      | some (rd, t) =>
        ({ call := c, pos := .loop rd c.left (c.dst + c.size) 0, mem := mem, u_error := 0
           copybp := c.leftover, gift := rd, bufptr := c.frm + c.size, count := c.left
           wire := [], sent := [], got := [] }, t)

/-- A turn of the client's loop -/
def copyinReply (r : Req) : Option Req :=
  if 0 < r.count then
    let count := if r.count > DATASIZE then DATASIZE else r.count
    let m : Response :=
      if r.call.copyinFaults r.bufptr count then ⟨r.gift, EFAULT, []⟩
      else ⟨r.gift, 0, bytes r.call.mem r.bufptr count⟩
    some { r with
      bufptr := r.bufptr + DATASIZE
      count := r.count - DATASIZE
      wire := r.wire ++ [m]
      sent := r.sent ++ [m] }
  else none

/-- A turn of the loop in `rcopyin`, where a message has come -/
def rcopyinTurn (r : Req) (t : Comm) : Option (Req × Comm) :=
  match r.pos with
  | .loop rd n dst ret =>
    if 0 < n then
      (de_queue rd t).map fun (m, t) =>
        let r := { r with got := r.got ++ [m] }
        if m.rp_errno ≠ 0 then ({ r with pos := .broke rd (-1) }, t)
        else if ret ≠ -1 then
          if r.call.bcopyFaults dst m.rp_data.length then
            ({ r with pos := .loop rd (n - DATASIZE) (dst + DATASIZE) (-1) }, t)
          else
            ({ r with pos := .loop rd (n - DATASIZE) (dst + DATASIZE) 0
                      mem := bcopy m.rp_data dst r.mem }, t)
        else ({ r with pos := .loop rd (n - DATASIZE) (dst + DATASIZE) ret }, t)
    else none
  | _ => none

/-- The end of `rcopyin` -/
def rcopyinEnd (r : Req) (t : Comm) : Option (Req × Comm) :=
  match r.pos with
  | .loop rd n _ ret => if n = 0 then some ({ r with pos := .returned ret }, free_rcvd rd t) else none
  | .broke rd ret => some ({ r with pos := .returned ret }, free_rcvd rd t)
  | .returned _ => none

/-- The server's machine and the clients. `others` are the descriptors that other code has. -/
structure State where
  comm : Comm
  reqs : ℕ → Option Req
  others : ℕ → Bool

inductive Act
  | call (j : ℕ) (c : Call) (mem : ℕ → UInt8)
  | reply (j : ℕ)
  | arrive (j : ℕ)
  | turn (j : ℕ)
  | finish (j : ℕ)
  | take
  | free (rd : ℕ)
  | receive (rd : ℕ)

/-- The request `j` is `r` now. -/
def State.set (s : State) (j : ℕ) (r : Req) (t : Comm) : State :=
  { s with comm := t, reqs := Function.update s.reqs j (some r) }

def next (s : State) : Act → Option State
  | .call j c mem =>
    if (s.reqs j).isSome then none
    else some (s.set j (rcopyin c mem s.comm).1 (rcopyin c mem s.comm).2)
  | .reply j => (s.reqs j).bind fun r => (copyinReply r).map fun r => s.set j r s.comm
  | .arrive j => (s.reqs j).bind fun r =>
    match r.wire with
    | [] => none
    | m :: w => some (s.set j { r with wire := w } (arrmsg m s.comm))
  | .turn j => (s.reqs j).bind fun r => (rcopyinTurn r s.comm).map fun (r, t) => s.set j r t
  | .finish j => (s.reqs j).bind fun r => (rcopyinEnd r s.comm).map fun (r, t) => s.set j r t
  | .take => (cr_rcvd s.comm).map fun (rd, t) => ⟨t, s.reqs, Function.update s.others rd true⟩
  | .free rd =>
    if s.others rd then some ⟨free_rcvd rd s.comm, s.reqs, Function.update s.others rd false⟩ else none
  | .receive rd =>
    if s.others rd then (de_queue rd s.comm).map fun (_, t) => { s with comm := t } else none

def Step (s : State) (a : Act) (t : State) : Prop := next s a = some t

/-- The machine after `comminit` -/
def boot (nrcvd : ℕ) : State := ⟨comminit nrcvd, fun _ => none, fun _ => false⟩

end Svr3.Rfs
