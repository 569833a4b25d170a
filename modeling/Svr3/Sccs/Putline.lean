import Svr3.Sccs.Pfile

/-!
# Writing and reading s-files

`putline` and `flushline` write an s-file with a checksum in its first line; `sinit` and `getline` read it and
compare. A character counts in a checksum as a signed one.
-/

namespace Svr3.Sccs

def CTLCHAR : Char := '\x01'

def HEAD : Char := 'h'

def STATS : Char := 's'

def BUFSIZ : ℕ := 1024

/-- What is used of `struct packet`, and the x-file of `putline`. `line` is the string in `p_line`, `iop` what
is left of the open s-file. -/
structure Packet where
  upd : Bool
  wrttn : BitVec 8
  line : List Char
  chkeof : Bool
  reopen : Bool
  do_chksum : Bool
  ihash : BitVec 32
  chash : BitVec 32
  nhash : BitVec 32
  slnno : ℕ
  keep : ℤ
  file : List Char
  iop : Option (List Char)
  Xcreate : Bool
  xfile : List Char

/-- The value of a signed character -/
def chr (c : Char) : BitVec 32 := (BitVec.ofNat 8 c.toNat).signExtend 32

/-- What a string adds to a checksum -/
def hash (l : List Char) : BitVec 32 := (l.map chr).sum

/-! ## Writing -/

def putline (newline : Option (List Char)) (s : Packet) : Packet :=
  if !s.upd then s else
  let p := match newline with
    | some p => p
    | none => if s.wrttn = 0 then s.line else []
  { s with
    wrttn := if newline.isNone then s.wrttn + 1 else s.wrttn
    xfile := (if s.Xcreate then s.xfile else []) ++ p
    nhash := if s.Xcreate then s.nhash + hash p else s.nhash
    Xcreate := true }

/-- The line of the counts -/
def statsLine (ins del unc : List Char) : List Char :=
  CTLCHAR :: STATS :: ' ' :: (ins ++ '/' :: (del ++ '/' :: (unc ++ ['\n'])))

/-- `repeat(fivech,"0",5)` -/
def fivech : List Char := List.replicate 5 '0'

/-- `newstats` with `"0"` -/
def newstats (s : Packet) : Packet := putline (some (statsLine fivech fivech fivech)) s

/-- `struct stats` -/
structure Stats where
  s_ins : ℕ
  s_del : ℕ
  s_unc : ℕ

/-- `%.05u`, and `%5u` with `zeropad` -/
def five (n : ℕ) : List Char := List.replicate (5 - (digits n).length) '0' ++ digits n

/-- `sprintf` into six characters -/
def sprintf (n : ℕ) : Option (List Char) := if (five n).length < 6 then some (five n) else none

/-- `nhash += *p - '0'` -/
def addDigits (nhash : BitVec 32) (p : List Char) : BitVec 32 := nhash + (p.map fun c => chr c - chr '0').sum

/-- The line of the checksum -/
def headLine (hash : List Char) : List Char := CTLCHAR :: HEAD :: (hash ++ ['\n'])

/-- `rewind` and `fprintf` -/
def overwrite (l : List Char) (s : Packet) : Packet := { s with xfile := l ++ s.xfile.drop l.length }

/-- `none` is a write behind the end of a string. -/
def flushline (stats : Option Stats) (s : Packet) : Option Packet :=
  if !s.upd then some s else
  let s := putline none s
  match stats with
  | none => do
    let hash ← sprintf (s.nhash &&& 0xFFFF).toNat
    pure (overwrite (headLine hash) s)
  | some st => do
    let ins ← sprintf st.s_ins
    let del ← sprintf st.s_del
    let unc ← sprintf st.s_unc
    let s := { s with nhash := addDigits (addDigits (addDigits s.nhash ins) del) unc }
    let hash ← sprintf (s.nhash &&& 0xFFFF).toNat
    pure (overwrite (headLine hash ++ statsLine ins del unc) s)

/-! ## Reading -/

/-- At most `n` characters, up to the end of a line -/
def fgets : ℕ → List Char → List Char × List Char
  | 0, p => ([], p)
  | _ + 1, [] => ([], [])
  | n + 1, c :: p => if c = '\n' then ([c], p) else (c :: (fgets n p).1, (fgets n p).2)

/-- The string in memory ends at the null character. -/
def cstr (l : List Char) : List Char := l.takeWhile (· != '\x00')

/-- Whether there is a line, which is the new `line` -/
def getline (s : Packet) : Except Fault (Bool × Packet) :=
  let s := if s.wrttn = 0 then putline none s else s
  match s.iop with
  | none => .error .wild
  | some p =>
    let r := fgets (BUFSIZ - 1) p
    if r.1 ≠ [] then
      .ok (true, { s with
        line := cstr r.1
        iop := some r.2
        slnno := s.slnno + 1
        wrttn := 0
        chash := s.chash + hash (cstr r.1) })
    else if !s.chkeof then .error (.fatal "premature eof (co5)")
    else if s.do_chksum && (s.chash ^^^ s.ihash) &&& 0xFFFF != 0 then .error (.fatal "corrupted file (co6)")
    else if s.reopen then
      .ok (false, { s with
        iop := some s.file, reopen := false, slnno := 0, ihash := 0, chash := 0, nhash := 0, keep := 0
        do_chksum := false })
    else .ok (false, { s with iop := none })

/-- The zeroed packet, opened at the s-file -/
def opened (file : List Char) : Packet where
  upd := false
  wrttn := 1
  line := []
  chkeof := false
  reopen := false
  do_chksum := true
  ihash := 0
  chash := 0
  nhash := 0
  slnno := 0
  keep := 0
  file := file
  iop := some file
  Xcreate := false
  xfile := []

def fmterr (s : Packet) : Fault := .fatal ("format error at line " ++ toString s.slnno ++ " (co4)")

/-- `sinit` for a file that has a good name and one link -/
def sinit (file : List Char) : Except Fault Packet := do
  let r ← getline (opened file)
  match r with
  | (true, s) =>
    match s.line with
    | a :: b :: p =>
      if a = CTLCHAR ∧ b = HEAD then
        let n := satoi p
        if n.2.head? = some '\n' then pure { s with ihash := n.1, chash := 0 }
        else .error (fmterr s)
      else .error (fmterr s)
    | _ => .error (fmterr s)
  | (_, s) => .error (fmterr s)

/-- `getline` until there is no line -/
def toEof : ℕ → Packet → Except Fault Packet
  | 0, _ => .error .wild
  | n + 1, s => do
    let r ← getline s
    if r.1 then toEof n r.2 else pure r.2

/-- The file is read to its end. -/
def readFile (file : List Char) : Except Fault Packet := do
  let s ← sinit file
  toEof (file.length + 1) { s with chkeof := true }

/-! ## The writer's steps -/

/-- A string, which does not contain the null character -/
abbrev Str := { l : List Char // '\x00' ∉ l }

/-- What `delta` and `rmdel` do with the packet behind the first lines: a new line, the current line, the next
line of the s-file, or no output of the current line. -/
inductive Op
  | put (l : Str)
  | current
  | read
  | drop

def Op.run (s : Packet) : Op → Except Fault Packet
  | .put l => .ok (putline (some l.1) s)
  | .current => .ok (putline none s)
  | .read => do
    let r ← getline s
    pure r.2
  | .drop => .ok { s with wrttn := 1 }

/-- The first lines: `delta` puts a header and the counts, `rmdel` the header that it has read. -/
def begun (head : List Char) (stats : Option Stats) (s : Packet) : Packet :=
  match stats with
  | some _ => newstats (putline (some head) s)
  | none => putline none { s with line := head, wrttn := 0 }

end Svr3.Sccs
