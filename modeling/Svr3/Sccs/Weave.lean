import Svr3.Sccs.Putline

/-!
# The body of an s-file

`readmod` of `rdmod.c` with its queue of open brackets, over the lines that `getline` reads. The messages about
conflicts and the SID of the line are left out; null pointers read as 0, which is no serial number.
-/

namespace Svr3.Sccs

def INS : Char := 'I'

def DEL : Char := 'D'

def END : Char := 'E'

/-- `q_keep` and `p_keep` -/
inductive Keep
  | null
  | yes
  | no
  deriving DecidableEq

/-- `struct queue` -/
structure Queue where
  sernum : ℕ
  keep : Keep
  iord : Char

/-- `p_apply`: the deltas with `a_code == APPLY` -/
abbrev Apply := ℕ → Bool

/-- What `readmod` and the pass of `delta` use of the packet. `iop` is what is left of the s-file and `out` what
was put into the x-file, by lines; `p_wrttn` is only tested for 0. -/
structure Body where
  upd : Bool
  slnno : ℕ
  iop : List (List Char)
  line : List Char
  wrttn : Bool
  out : List (List Char)
  q : List Queue
  keep : Keep
  glnno : ℕ

/-! ## Queue -/

/-- `addq`, before `setkeep` -/
def addq (new : Queue) : List Queue → Option (List Queue)
  | [] => some [new]
  | cur :: q =>
    if cur.sernum ≤ new.sernum then if cur.sernum = new.sernum then none else some (new :: cur :: q)
    else (addq new q).map (cur :: ·)

/-- `remq`, before `setkeep` -/
def remq (ser : ℕ) : List Queue → Option (List Queue)
  | [] => none
  | cur :: q => if cur.sernum = ser then some q else (remq ser q).map (cur :: ·)

def setkeep : List Queue → Keep
  | [] => .no
  | cur :: q => if cur.keep = .null then setkeep q else cur.keep

/-! ## Lines -/

namespace Body

def putline (newline : Option (List Char)) (b : Body) : Body :=
  if !b.upd then b
  else match newline with
  | some l => { b with out := b.out ++ [l] }
  | none => if b.wrttn then b else { b with wrttn := true, out := b.out ++ [b.line] }

/-- `getline`, when the next line of the s-file is `l` -/
def fetch (l : List Char) (ls : List (List Char)) (b : Body) : Body :=
  let b := if b.wrttn then b else putline none b
  { b with slnno := b.slnno + 1, iop := ls, line := l, wrttn := false }

/-- `getline` at the end of the s-file -/
def finish (b : Body) : Body := if b.wrttn then b else putline none b

end Body

/-- `fmterr` at a line -/
def formatError (slnno : ℕ) : Fault := .fatal ("format error at line " ++ toString slnno ++ " (co4)")

/-- `NONBLANK` -/
def nonblank (p : List Char) : List Char := p.dropWhile fun c => c == ' ' || c == '\t'

/-- A control record: the letter and the serial number, with what is behind them -/
def control (p : List Char) : Char × ℤ × List Char :=
  match p with
  | [] => ('\x00', 0, [])
  | iord :: p => (iord, (satoi (nonblank p)).1.toInt, (satoi (nonblank p)).2)

/-- A control record opens or closes a bracket. -/
def bracket (maxser : ℕ) (v : Apply) (p : List Char) (b : Body) : Except Fault Body :=
  let iord := (control p).1
  let ser := (control p).2.1
  if iord ≠ INS ∧ iord ≠ DEL ∧ iord ≠ END then .error (formatError b.slnno)
  else if ¬(0 < ser ∧ ser ≤ maxser) then .error (formatError b.slnno)
  else
    let q :=
      if iord = END then remq ser.toNat b.q
      else if v ser.toNat then addq ⟨ser.toNat, if iord = INS then .yes else .no, iord⟩ b.q
      else addq ⟨ser.toNat, if iord = INS then .no else .null, iord⟩ b.q
    match q with
    | none => .error (formatError b.slnno)
    | some q => .ok { b with q := q, keep := setkeep q }

/-- The lines are read up to one that is kept, which is the new `line`. -/
def readmodLines (maxser : ℕ) (v : Apply) : List (List Char) → Body → Except Fault (Bool × Body)
  | [], b => if b.q.isEmpty then .ok (false, b.finish) else .error (.fatal "premature eof (co5)")
  | l :: ls, b =>
    let b := b.fetch l ls
    if l.head? = some CTLCHAR then do
      let b ← bracket maxser v l.tail b
      readmodLines maxser v ls b
    else if b.keep = .yes then .ok (true, { b with glnno := b.glnno + 1 })
    else readmodLines maxser v ls b

def readmod (maxser : ℕ) (v : Apply) (b : Body) : Except Fault (Bool × Body) := readmodLines maxser v b.iop b

/-- `while (readmod(pkt)) fputs(pkt->p_line)` -/
def getAll (maxser : ℕ) (v : Apply) : ℕ → Body → Except Fault (List (List Char))
  | 0, _ => .error .wild
  | n + 1, b => do
    let r ← readmod maxser v b
    if r.1 then do
      let ls ← getAll maxser v n r.2
      pure (r.2.line :: ls)
    else pure []

/-- A packet at the start of a body, which is only read -/
def reader (body : List (List Char)) : Body where
  upd := false
  slnno := 0
  iop := body
  line := []
  wrttn := true
  out := []
  q := []
  keep := .null
  glnno := 0

/-- The lines that `readmod` yields on a body -/
def yields (maxser : ℕ) (v : Apply) (body : List (List Char)) : Except Fault (List (List Char)) :=
  getAll maxser v (body.length + 1) (reader body)

/-! ## Removing a delta -/

/-- The loop of `rmchg` over the body: `keep` is not set between the brackets of the inserted lines. -/
def rmdelLines (D_serial : ℤ) : ℕ → Bool → List (List Char) → Except Fault (List (List Char))
  | _, _, [] => .ok []
  | slnno, keep, l :: ls =>
    if l.head? = some CTLCHAR then
      let c := control l.tail
      if c.2.2 ≠ ['\n'] then .error (formatError (slnno + 1))
      else if c.2.1 = D_serial then rmdelLines D_serial (slnno + 1) (c.1 != INS) ls
      else (rmdelLines D_serial (slnno + 1) keep ls).map (l :: ·)
    else if keep then (rmdelLines D_serial (slnno + 1) keep ls).map (l :: ·)
    else rmdelLines D_serial (slnno + 1) keep ls

/-- The body that `rmdel` writes, if no delta has `D_serial` as its predecessor. The body begins behind line
`slnno`. -/
def rmdel (pred : ℕ → ℕ) (maxser D_serial slnno : ℕ) (body : List (List Char)) :
    Except Fault (List (List Char)) :=
  if (List.range (maxser + 1)).any fun n => decide (D_serial < n) && pred n == D_serial then
    .error (.fatal "not a 'leaf' delta (rc5)")
  else rmdelLines D_serial slnno true body

end Svr3.Sccs
