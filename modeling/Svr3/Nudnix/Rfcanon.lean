import Svr3.Nudnix.Canon

/-!
# The conversion of RFS messages of `nudnix/rfcanon.c`

`rftocanon` converts the data of a response and then the headers, in place, and `rffrcanon` converts them back in
the other order. Longs are as long in the canonical form, so on this machine the conversion of a header leaves it
as it is.
-/

namespace Svr3.Canon

/-- The `hetero` of a circuit -/
inductive Hetero
  | ALL_CONV
  | DATA_CONV
  | NO_CONV
  deriving DecidableEq

def RESP_MSG : BitVec 32 := 2

def DUSTAT : BitVec 32 := 18
def DUFSTAT : BitVec 32 := 28
def DUSTATFS : BitVec 32 := 35
def DUFSTATFS : BitVec 32 := 38
def DUUTSSYS : BitVec 32 := 57
def DUFCNTL : BitVec 32 := 62
def DUGETDENTS : BitVec 32 := 81

def DATASIZE : ℕ := 1024

/-- A message block: where the message is, its end, and the memory -/
structure Mblk where
  b_rptr : ℕ
  b_wptr : ℕ
  mem : Mem

/-- Behind a `struct message` -/
def PTOMSG (p : ℕ) : ℕ := p + 32

/-! The fields of a `struct response` at `msg` -/

def rpOpcode (m : Mem) (msg : ℕ) : BitVec 32 := peek4 m msg
def rpType (m : Mem) (msg : ℕ) : BitVec 32 := peek4 m (msg + 8)
def rpErrno (m : Mem) (msg : ℕ) : BitVec 32 := peek4 m (msg + 40)
def rpCount (m : Mem) (msg : ℕ) : BitVec 32 := peek4 m (msg + 52)
def setCount (m : Mem) (msg : ℕ) (i : ℕ) : Mem := poke (msg + 52) (be32 (BitVec.ofNat 32 i)) m
def rpData (msg : ℕ) : ℕ := msg + 80

/-- `d_reclen` of a `struct dirent` -/
def dReclen (m : Mem) (dir : ℕ) : ℕ := (peek2 m (dir + 8)).toNat

/-- `(n + 3) & ~3` -/
def round4 (n : ℕ) : ℕ := (n + 3) / 4 * 4

def fmtFlock : List Char := "ssllss".toList
def fmtStat : List Char := "sssssssllll".toList
def fmtStatfs : List Char := "sssllllc6c6".toList
def fmtUstat : List Char := "lsc6c6".toList
def fmtDirent : List Char := "llsc0".toList
def fmtMessage : List Char := "llllllll".toList
def fmtCommon : List Char := "llllllllllllllllllll".toList

/-- Where the two `cbuf` on the stack are, the one of `tcanon` and the one of `dentcanon` -/
structure Stack where
  cbuf : ℕ
  dbuf : ℕ

variable (k : Stack)

/-- The loop of `dentcanon`; `none` when it runs over the end of its `cbuf`, or does not come to an end -/
def dentLoop (flag : Bool) : ℕ → ℤ → ℕ → ℕ → Mem → Option (ℕ × Mem)
  | 0, count, _, tlen, m => if 0 < count then none else some (tlen, m)
  | fuel + 1, count, src, tlen, m =>
    if 0 < count then
      match tcanon k.cbuf fmtDirent src (k.dbuf + tlen) flag m with
      | none => none
      | some (tcc, m) =>
        let tcc := round4 tcc
        if tlen + tcc > cbufSize then none
        else dentLoop flag fuel (count - dReclen m src) (src + dReclen m src) (tlen + tcc) m
    else some (tlen, m)

def dentcanon (count : BitVec 32) (src dst : ℕ) (flag : Bool) (m : Mem) : Option (ℕ × Mem) :=
  match dentLoop k flag count.toNat count.toInt src 0 m with
  | none => none
  | some (tlen, m) => some (tlen, copy tlen k.dbuf dst m)

/-- The loop of `denfcanon`, each turn of which takes 20 bytes at least -/
def denfLoop : ℕ → ℤ → ℕ → ℕ → ℕ → Mem → ℕ × Mem
  | 0, _, _, _, tlen, m => (tlen, m)
  | fuel + 1, count, src, dst, tlen, m =>
    if 0 < count then
      let m := (fcanon fmtDirent src dst m).2
      let reclen := dReclen m dst
      let tcc := 16 + round4 (strlen m (src + 16) + 1)
      denfLoop fuel (count - tcc) (src + tcc) (dst + reclen) (tlen + reclen) m
    else (tlen, m)

def denfcanon (count : BitVec 32) (src dst : ℕ) (m : Mem) : ℕ × Mem :=
  denfLoop count.toNat count.toInt src dst 0 m

/-- The switch of `rftocanon`: `i`, and the memory. There is no `break` behind `DUFCNTL`. -/
def dataToCanon (msg : ℕ) (m : Mem) : Option (ℕ × Mem) :=
  let op := rpOpcode m msg
  let data := rpData msg
  if op = DUFCNTL then
    match tcanon k.cbuf fmtFlock data data true m with
    | none => none
    | some (_, m) => tcanon k.cbuf fmtStat data data true m
  else if op = DUFSTAT then tcanon k.cbuf fmtStat data data true m
  else if op = DUFSTATFS then tcanon k.cbuf fmtStatfs data data true m
  else if op = DUGETDENTS then
    match dentcanon k (rpCount m msg) data data true m with
    | none => none
    | some (i, m) => some (i, if i ≠ 0 then setCount m msg i else m)
  else if op = DUSTAT then tcanon k.cbuf fmtStat data data true m
  else if op = DUSTATFS then tcanon k.cbuf fmtStatfs data data true m
  else if op = DUUTSSYS then tcanon k.cbuf fmtUstat data data true m
  else some (0, m)

/-- `none` when a buffer on the stack is overrun -/
def rftocanon (bp : Mblk) (hetero : Hetero) : Option Mblk :=
  if hetero = .NO_CONV then some bp
  else
    let msg := PTOMSG bp.b_rptr
    let data : Option Mblk :=
      if rpType bp.mem msg = RESP_MSG ∧ rpErrno bp.mem msg = 0 then
        match dataToCanon k msg bp.mem with
        | none => none
        | some (i, m) =>
          some { bp with mem := m, b_wptr := if i ≠ 0 then bp.b_rptr + 112 + i else bp.b_wptr }
      else some bp
    match data with
    | none => none
    | some bp =>
      if hetero = .DATA_CONV then some bp
      else
        match tcanon k.cbuf fmtMessage bp.b_rptr bp.b_rptr false bp.mem with
        | none => none
        | some (_, m) =>
          match tcanon k.cbuf fmtCommon msg msg false m with
          | none => none
          | some (_, m) => some { bp with mem := m }

/-- The switch of `rffrcanon`. There is no `break` behind `DUFCNTL`. -/
def dataFromCanon (msg : ℕ) (m : Mem) : Mem :=
  let op := rpOpcode m msg
  let data := rpData msg
  if op = DUFCNTL then (fcanon fmtStat data data (fcanon fmtFlock data data m).2).2
  else if op = DUFSTAT then (fcanon fmtStat data data m).2
  else if op = DUFSTATFS then (fcanon fmtStatfs data data m).2
  else if op = DUGETDENTS then
    let (i, m) := denfcanon (rpCount m msg) data data m
    if i ≠ 0 then setCount m msg i else m
  else if op = DUSTAT then (fcanon fmtStat data data m).2
  else if op = DUSTATFS then (fcanon fmtStatfs data data m).2
  else if op = DUUTSSYS then (fcanon fmtUstat data data m).2
  else m

def rffrcanon (bp : Mblk) (hetero : Hetero) : Mem :=
  if hetero = .NO_CONV then bp.mem
  else
    let msg := PTOMSG bp.b_rptr
    let m :=
      if hetero = .ALL_CONV then
        (fcanon fmtCommon msg msg (fcanon fmtMessage bp.b_rptr bp.b_rptr bp.mem).2).2
      else bp.mem
    if rpType m msg = RESP_MSG ∧ rpErrno m msg = 0 then dataFromCanon msg m else m

end Svr3.Canon
