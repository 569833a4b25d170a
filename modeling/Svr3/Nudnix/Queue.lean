import Mathlib.Data.Int.Notation
import Mathlib.Logic.Function.Iterate

/-!
# Receive queues of `nudnix/queue.c`

`arrmsg` puts a message on the queue of its receive descriptor, and sends a server of `procs` to get it. Servers
take messages with `de_queue`, which sleeps when there are none, and `chkrdq` and `checkq` look for messages in the
middle of a queue. Each action is what happens at one level of `splrf`.
-/

namespace Svr3.Queue

/-- A message: the index of its descriptor, `SIGNAL` of `m_stat`, and what is looked for in a queue -/
structure Message where
  m_dest : ℕ
  signal : Bool
  rq_pid : BitVec 32
  rq_sysid : BitVec 32
  rq_mntindx : BitVec 32
  deriving DecidableEq

/-- A message and how many came before it -/
structure Mblk where
  came : ℕ
  msg : Message
  deriving DecidableEq

inductive Qtype
  | GENERAL
  | SPECIFIC
  deriving DecidableEq

/-- A receive descriptor; `used` is for `rd_stat` -/
structure Rcvd where
  rd_qtype : Qtype
  used : Bool
  rd_rcvdq : List Mblk
  rd_qcnt : ℕ
  rd_act_cnt : ℕ

/-- `rcvdemp` -/
def Rcvd.rcvdemp (rd : Rcvd) : Prop := rd.rd_rcvdq = []

instance (rd : Rcvd) : Decidable rd.rcvdemp := inferInstanceAs (Decidable (_ = _))

/-- `++` and `--` of an unsigned short -/
def incr (n : ℕ) : ℕ := (n + 1) % 65536
def decr (n : ℕ) : ℕ := (n + 65535) % 65536

/-- Where a server is: before the first part of `de_queue`, behind it with a descriptor, in `sleep`, or about to
return from `sleep` -/
inductive Phase
  | gone
  | serving
  | running
  | chosen (queue : ℕ)
  | asleep
  | awake
  deriving DecidableEq

/-- A server; `p_sig` is whether a signal waits that it catches -/
structure Server where
  phase : Phase
  p_minwd : Option ℕ
  p_sig : Bool

structure Sys (ι : Type) where
  rcvd : ℕ → Rcvd
  msgs : List ℕ
  msglistcnt : ℤ
  procs : List ι
  server : ι → Server
  idleserver : ℤ
  came : ℕ

/-- What becomes of messages -/
inductive Event (ι : Type)
  | quiet
  | arrived (rd : ℕ) (bp : Mblk)
  | delivered (rd : ℕ) (bp : Mblk) (caller : Option ι)
  | removed (rd : ℕ) (bps : List Mblk)

variable {ι : Type} [DecidableEq ι] (sigrd : ℕ) (minserve : ℤ)

def setRd (rd : ℕ) (r : Rcvd) (s : Sys ι) : Sys ι := { s with rcvd := Function.update s.rcvd rd r }

def setServer (p : ι) (v : Server) (s : Sys ι) : Sys ι := { s with server := Function.update s.server p v }

/-! ## The two lists -/

def add_to_proc_list (p : ι) (s : Sys ι) : Sys ι := { s with procs := p :: s.procs }

def del_from_proc_list (p : ι) (s : Sys ι) : Sys ι := { s with procs := s.procs.erase p }

def get_free_proc (s : Sys ι) : Option ι × Sys ι := (s.procs.head?, { s with procs := s.procs.tail })

def add_to_msgs_list (rd : ℕ) (s : Sys ι) : Sys ι :=
  if s.msgs = [] then { s with msgs := [rd], msglistcnt := 1 }
  else if rd ∈ s.msgs then s
  else { s with msgs := s.msgs ++ [rd], msglistcnt := s.msglistcnt + 1 }

def rm_msgs_list (rd : ℕ) (s : Sys ι) : Sys ι :=
  if ¬(s.rcvd rd).rcvdemp then s
  else if rd ∈ s.msgs then { s with msgs := s.msgs.erase rd, msglistcnt := s.msglistcnt - 1 }
  else s

/-! ## Messages -/

/-- `wakeup` of the server that sleeps on its own `p_minwdlock` -/
def vsema (p : ι) (s : Sys ι) : Sys ι :=
  if (s.server p).phase = .asleep then setServer p { s.server p with phase := .awake } s else s

/-- The first free server is sent to work. -/
def dispatch (s : Sys ι) : Sys ι :=
  match get_free_proc s with
  | (some found, s) => vsema found s
  | (none, s) => s

def arrmsg (msg : Message) (s : Sys ι) : Sys ι × Event ι :=
  if msg.signal ∧ !(s.rcvd msg.m_dest).used then (s, .quiet)
  else
    let rd := if msg.signal then sigrd else msg.m_dest
    let r := s.rcvd rd
    let bp : Mblk := ⟨s.came, msg⟩
    let s := setRd rd { r with rd_rcvdq := r.rd_rcvdq ++ [bp], rd_qcnt := incr r.rd_qcnt }
      { s with came := s.came + 1 }
    match r.rd_qtype with
    | .SPECIFIC => (s, .arrived rd bp)
    | .GENERAL => (add_to_msgs_list rd (dispatch s), .arrived rd bp)

/-- `none` is `RCVQEMP`. -/
def dequeue (rd : ℕ) (s : Sys ι) : Option (Mblk × Sys ι) :=
  let r := s.rcvd rd
  match r.rd_rcvdq with
  | [] => none
  | bp :: queue =>
    let s := setRd rd { r with rd_rcvdq := queue, rd_qcnt := decr r.rd_qcnt } s
    some (bp, if (s.rcvd rd).rcvdemp ∧ r.rd_qtype = .GENERAL then rm_msgs_list rd s else s)

/-- The loop of `chkrdq`; `none` when it finds no message where the count says there is one -/
def chkLoop (pid sysid : BitVec 32) : ℕ → List Mblk → Option (Option Mblk × List Mblk)
  | 0, queue => some (none, queue)
  | _ + 1, [] => none
  | i + 1, current :: queue =>
    if current.msg.rq_pid = pid ∧ current.msg.rq_sysid = sysid then some (some current, queue)
    else chkLoop pid sysid i (queue ++ [current])

def chkrdq (que : ℕ) (pid sysid : BitVec 32) (s : Sys ι) : Option (Option Mblk × Sys ι) :=
  let r := s.rcvd que
  match chkLoop pid sysid r.rd_qcnt r.rd_rcvdq with
  | none => none
  | some (none, queue) => some (none, setRd que { r with rd_rcvdq := queue } s)
  | some (some current, queue) =>
    let s := setRd que { r with rd_rcvdq := queue, rd_qcnt := decr r.rd_qcnt } s
    some (some current, if (s.rcvd que).rcvdemp then rm_msgs_list que s else s)

/-- The loop of `checkq`: what stays, and what is tossed -/
def checkLoop (srmindex : BitVec 32) : ℕ → List Mblk → List Mblk → Option (List Mblk × List Mblk)
  | 0, queue, tossed => some (queue, tossed)
  | _ + 1, [], _ => none
  | i + 1, bp :: queue, tossed =>
    if bp.msg.rq_mntindx = srmindex then
      if queue = [] then some (queue, tossed ++ [bp]) else checkLoop srmindex i queue (tossed ++ [bp])
    else checkLoop srmindex i (queue ++ [bp]) tossed

def checkq (rd : ℕ) (srmindex : BitVec 32) (s : Sys ι) : Option (List Mblk × Sys ι) :=
  let r := s.rcvd rd
  match checkLoop srmindex r.rd_qcnt r.rd_rcvdq [] with
  | none => none
  | some (queue, tossed) =>
    let s := setRd rd { r with rd_rcvdq := queue, rd_qcnt := decr^[tossed.length] r.rd_qcnt } s
    some (tossed, if tossed ≠ [] ∧ (s.rcvd rd).rcvdemp then rm_msgs_list rd s else s)

/-! ## Servers -/

/-- `serve_exit` -/
def serve_exit (p : ι) (s : Sys ι) : Sys ι :=
  setServer p { s.server p with phase := .gone } { s with idleserver := s.idleserver - 1 }

/-- `psema` on its own `p_minwdlock`, which returns at once when a signal waits -/
def psema (p : ι) (s : Sys ι) : Sys ι :=
  setServer p { s.server p with phase := if (s.server p).p_sig then .awake else .asleep } s

/-- `p_minwd` of the message before is done with. -/
def finish (p : ι) (s : Sys ι) : Sys ι :=
  match (s.server p).p_minwd with
  | none => s
  | some rd =>
    setServer p { s.server p with p_minwd := none }
      (setRd rd { s.rcvd rd with rd_act_cnt := decr (s.rcvd rd).rd_act_cnt } s)

/-- From `back` to `out` or to the sleep -/
def back (p : ι) (s : Sys ι) : Sys ι :=
  let s := finish p s
  match if ¬(s.rcvd sigrd).rcvdemp then some sigrd else s.msgs.head? with
  | some queue =>
    setServer p { s.server p with p_minwd := some queue, phase := .chosen queue }
      (setRd queue { s.rcvd queue with rd_act_cnt := incr (s.rcvd queue).rd_act_cnt } s)
  | none =>
    if s.idleserver > minserve then serve_exit p s
    else psema p (add_to_proc_list p s)

/-- Behind the sleep -/
def resume (p : ι) (s : Sys ι) : Sys ι :=
  let s := del_from_proc_list p s
  if (s.server p).p_sig then serve_exit p s
  else setServer p { s.server p with phase := .running } s

/-- What happens: messages come, servers are made, come to `de_queue` with or without a signal, and go on in it,
signals are sent, and messages are taken from one descriptor -/
inductive Act (ι : Type)
  | arrmsg (msg : Message)
  | fork (p : ι)
  | de_queue (p : ι) (p_sig : Bool)
  | back (p : ι)
  | resume (p : ι)
  | dequeue (p : ι)
  | psignal (p : ι)
  | specific (rd : ℕ)
  | chkrdq (que : ℕ) (pid sysid : BitVec 32)
  | checkq (rd : ℕ) (srmindex : BitVec 32)

def step (s : Sys ι) : Act ι → Option (Sys ι × Event ι)
  | .arrmsg msg => some (arrmsg sigrd msg s)
  | .fork p =>
    if (s.server p).phase = .gone then
      some (setServer p ⟨.running, none, false⟩ { s with idleserver := s.idleserver + 1 }, .quiet)
    else none
  | .de_queue p sig =>
    if (s.server p).phase = .serving then
      some (setServer p { s.server p with phase := .running, p_sig := sig }
        { s with idleserver := s.idleserver + 1 }, .quiet)
    else none
  | .back p => if (s.server p).phase = .running then some (back sigrd minserve p s, .quiet) else none
  | .resume p => if (s.server p).phase = .awake then some (resume p s, .quiet) else none
  | .dequeue p =>
    match (s.server p).phase with
    | .chosen queue =>
      match dequeue queue s with
      | none => some (setServer p { s.server p with phase := .running } s, .quiet)
      | some (bp, s) =>
        some (setServer p { s.server p with phase := .serving, p_sig := false }
          { s with idleserver := s.idleserver - 1 }, .delivered queue bp (some p))
    | _ => none
  | .psignal p =>
    match (s.server p).phase with
    | .gone => none
    | .asleep => some (setServer p { s.server p with phase := .awake, p_sig := true } s, .quiet)
    | _ => some (setServer p { s.server p with p_sig := true } s, .quiet)
  | .specific rd =>
    match dequeue rd s with
    | none => none
    | some (bp, s) => some (s, .delivered rd bp none)
  | .chkrdq que pid sysid =>
    match chkrdq que pid sysid s with
    | none => none
    | some (none, s) => some (s, .quiet)
    | some (some current, s) => some (s, .removed que [current])
  | .checkq rd srmindex =>
    match checkq rd srmindex s with
    | none => none
    | some (tossed, s) => some (s, .removed rd tossed)

/-- Before anything has come; `kind` and `used` are the types and the states of the descriptors -/
def boot (ι : Type) (kind : ℕ → Qtype) (used : ℕ → Bool) : Sys ι where
  rcvd := fun rd => ⟨kind rd, used rd, [], 0, 0⟩
  msgs := []
  msglistcnt := 0
  procs := []
  server := fun _ => ⟨.gone, none, false⟩
  idleserver := 0
  came := 0

end Svr3.Queue
