import Mathlib.Data.Int.Notation
import Svr3.Lib.Sweep

/-!
# Span-dependent instructions of `as/common/expand1.c`

An instruction whose operand may be short or long is entered in the selection set until enough is known of the
distance to its label. Meanwhile the addresses after it are kept as the least they can be and what may still be
added. Addresses are longs; the spans of a text that fits in 2^31 bytes are exact (`inRange_long`).
-/

namespace Svr3.As

open Sweep

/-- `PROCESSOR` of the makefile -/
inductive Processor
  | M68000 | M68010 | M68020
  deriving DecidableEq

/-- The `TYPE` bits of `styp` -/
inductive Styp
  | UNDEF | ABS | TXT | DAT | BSS | INIT | LIB | CMT
  deriving DecidableEq

inductive Itype
  | SDI1 | SDI2 | SDI3 | SDI4 | SDI5 | SDI6
  deriving DecidableEq

/-- What is decided of an instruction -/
inductive Sditype
  | L_SDI | S_SDI | U_SDI
  deriving DecidableEq

structure Rangetag where
  lbound : ℤ
  ubound : ℤ

def range : Itype → Rangetag
  | .SDI1 => ⟨-32759, 32759⟩
  | .SDI2 => ⟨-32759, 32759⟩
  | .SDI3 => ⟨-32759, 32759⟩
  | .SDI4 => ⟨-32759, 32759⟩
  | .SDI5 => ⟨-32759, 32759⟩
  | .SDI6 => ⟨-32759, 32759⟩

def pcincr : Itype → ℤ
  | .SDI1 => 4
  | .SDI2 => 4
  | .SDI3 => 4
  | .SDI4 => 4
  | .SDI5 => 6
  | .SDI6 => 8

def idelta (cpu : Processor) : Itype → ℤ
  | .SDI1 => 2
  | .SDI2 => if cpu = .M68020 then 2 else 4
  | .SDI3 => 2
  | .SDI4 => 2
  | .SDI5 => 2
  | .SDI6 => 2

def inRange (itype : Itype) (span : ℤ) : Prop :=
  (range itype).lbound ≤ span ∧ span ≤ (range itype).ubound

instance (itype : Itype) (span : ℤ) : Decidable (inRange itype span) :=
  inferInstanceAs (Decidable (_ ∧ _))

theorem idelta_pos (cpu : Processor) (itype : Itype) : 0 < idelta cpu itype := by
  cases itype <;> cases cpu <;> decide

/-- The names of a program, and `.` -/
inductive Sym
  | dot
  | name (n : ℕ)
  deriving DecidableEq

structure Symbol where
  styp : Styp
  sectnum : ℤ
  value : ℤ
  maxval : ℤ
  deriving DecidableEq

/-- An entry of the selection set -/
structure Ssentry where
  sdicnt : ℕ
  itype : Itype
  minaddr : ℤ
  maxaddr : ℤ
  labptr : Sym
  constant : ℤ
  deriving DecidableEq

/-- An instruction with an operand `sym + const`, and its size when the operand is short -/
structure Sdi where
  sym : Option Sym
  const : ℤ
  itype : Itype
  size : ℕ
  size_pos : 0 < size

/-- A statement of the text -/
inductive Line
  | label (l : ℕ)
  | fixed (nbytes : ℕ)
  | inst (d : Sdi)

/-- The action an instruction is generated with: it is short, or long, or pass 2 looks in `islongsdi` -/
inductive Action
  | short
  | long
  | opt (sdicnt : ℕ)
  deriving DecidableEq

/-- What pass 1 writes to the temporary file of the text -/
inductive Code
  | label (l : ℕ)
  | fixed (nbytes : ℕ)
  | inst (d : Sdi) (action : Action)

/-- Why pass 1 is given up: a table is full and some optimizations would be lost, a label is multiply defined,
`expand` has not come to an end, or a variable is used that was never set -/
inductive Stop
  | overflow
  | redefined
  | loops
  | wild
  deriving DecidableEq

structure State where
  symtab : Sym → Symbol
  selset : List Ssentry
  labset : List Sym
  islongsdi : ℕ → ℤ
  sdicnt : ℕ
  PCmax : ℤ
  newdot : ℤ
  notdone : Bool
  text : List Code

def MAXSS : ℕ := 350
def MAXSDI : ℕ := 4000
def MAXLAB : ℕ := 1000

def Symbol.isTxt0 (s : Symbol) : Prop := s.styp = .TXT ∧ s.sectnum = 0

instance (s : Symbol) : Decidable s.isTxt0 := inferInstanceAs (Decidable (_ ∧ _))

variable (cpu : Processor)

/-- `ssptr` turns out short: what comes after it loses the slack -/
def updateShort (st : State) (ssptr : Ssentry) : State :=
  let delta := idelta cpu ssptr.itype
  let instaddr := ssptr.minaddr + ssptr.maxaddr
  let dot := st.symtab .dot
  let tab := Function.update st.symtab .dot { dot with maxval := dot.maxval - delta }
  let labs := sweep
    (fun lptr =>
      if lptr.value + lptr.maxval > instaddr then some { lptr with maxval := lptr.maxval - delta }
      else none)
    (fun lptr => lptr.maxval = 0) st.labset.length 0 (tab, st.labset)
  { st with
    PCmax := st.PCmax - delta
    selset := st.selset.map fun ptr =>
      if ptr.sdicnt > ssptr.sdicnt then { ptr with maxaddr := ptr.maxaddr - delta } else ptr
    symtab := labs.1
    labset := labs.2 }

/-- `ssptr` turns out long: the slack is added to the addresses of what comes after it -/
def updateLong (st : State) (ssptr : Ssentry) : State :=
  let delta := idelta cpu ssptr.itype
  let instaddr := ssptr.minaddr
  let dot := st.symtab .dot
  let tab := Function.update st.symtab .dot
    { dot with value := dot.value + delta, maxval := dot.maxval - delta }
  let labs := sweep
    (fun lptr =>
      if lptr.value > instaddr then
        some { lptr with value := lptr.value + delta, maxval := lptr.maxval - delta }
      else none)
    (fun lptr => lptr.maxval = 0) st.labset.length 0 (tab, st.labset)
  { st with
    PCmax := st.PCmax - delta
    newdot := st.newdot + delta
    islongsdi := Function.update st.islongsdi ssptr.sdicnt delta
    selset := st.selset.map fun ptr =>
      if ptr.sdicnt > ssptr.sdicnt then
        { ptr with minaddr := ptr.minaddr + delta, maxaddr := ptr.maxaddr - delta }
      else ptr
    symtab := labs.1
    labset := labs.2 }

def update (st : State) (ssptr : Ssentry) (sditype : Sditype) : State :=
  if sditype ≠ .L_SDI then updateShort cpu st ssptr else updateLong cpu st ssptr

def sdiclass (st : State) (sdiptr : Ssentry) : Sditype :=
  let lptr := st.symtab sdiptr.labptr
  let itype := sdiptr.itype
  if lptr.styp ≠ .UNDEF then
    if ¬ lptr.isTxt0 then .L_SDI
    else
      let span := lptr.value + (sdiptr.constant - (sdiptr.minaddr + pcincr itype))
      if ¬ inRange itype span then .L_SDI
      else if inRange itype (span + (lptr.maxval -
          if lptr.value > sdiptr.minaddr then sdiptr.maxaddr + idelta cpu itype
          else sdiptr.maxaddr)) then .S_SDI
      else .U_SDI
  else if st.notdone = false then .L_SDI
  else
    -- the label is still to come, at this statement or after it
    let dot := (st.symtab .dot).value
    let span := (if dot ≠ sdiptr.minaddr then dot else sdiptr.minaddr + pcincr itype) +
      (sdiptr.constant - (sdiptr.minaddr + pcincr itype))
    if ¬ inRange itype span then .L_SDI else .U_SDI

/-- Entry `i` is decided and leaves the selection set -/
def decideAt (st : State) (i : ℕ) (current : Ssentry) (sditype : Sditype) : State :=
  let st := update cpu st current sditype
  { st with selset := swapOut st.selset i }

/-- The loop over the selection set, and whether it changed anything -/
def expandPass : ℕ → ℕ → State → Bool → State × Bool
  | 0, _, st, change => (st, change)
  | cntr + 1, i, st, change =>
    match st.selset[i]? with
    | none => (st, change)
    | some current =>
      let sditype := sdiclass cpu st current
      if sditype ≠ .U_SDI then expandPass cntr i (decideAt cpu st i current sditype) true
      else expandPass cntr (i + 1) st change

/-- `while (change)` -/
def expandLoop : ℕ → State → Except Stop State
  | 0, _ => .error .loops
  | fuel + 1, st =>
    match expandPass cpu st.selset.length 0 st false with
    | (st, true) => expandLoop fuel st
    | (st, false) => .ok st

/-- A turn of the loop that changes something takes an entry from the selection set -/
def expand (st : State) : Except Stop State := expandLoop cpu (st.selset.length + 1) st

def newlab (st : State) (sym : Sym) : Except Stop State :=
  if st.labset.length = MAXLAB then .error .overflow
  else .ok { st with labset := st.labset ++ [sym] }

def deflab (st : State) (sym : Sym) : Except Stop State :=
  let st := { st with symtab := Function.update st.symtab sym
                        { st.symtab sym with maxval := st.PCmax } }
  if st.selset ≠ [] then
    match newlab st sym with
    | .error e => .error e
    | .ok st => expand cpu st
  else .ok st

def fixsyms (st : State) : Except Stop State := expand cpu { st with notdone := false }

def sdi (st : State) (sym : Option Sym) (const : ℤ) (itype : Itype) : Sditype :=
  match sym with
  | none => .L_SDI
  | some s =>
    let sym := st.symtab s
    let dot := st.symtab .dot
    if sym.styp = .UNDEF then .U_SDI
    else if ¬ sym.isTxt0 then .L_SDI
    else
      let span := sym.value + const - (dot.value + pcincr itype)
      if ¬ inRange itype span then .L_SDI
      else if inRange itype (span + (sym.maxval - dot.maxval)) then .S_SDI
      else .U_SDI

/-- `newsdi`, and the slack its instruction adds after it -/
def newsdi (st : State) (sym : Sym) (const : ℤ) (itype : Itype) : Except Stop State :=
  if st.sdicnt + 1 = MAXSDI ∨ st.selset.length = MAXSS then .error .overflow
  else
    let dot := st.symtab .dot
    let PCmax := st.PCmax + idelta cpu itype
    .ok { st with
      sdicnt := st.sdicnt + 1
      selset := st.selset ++ [⟨st.sdicnt + 1, itype, dot.value, st.PCmax, sym, const⟩]
      PCmax := PCmax
      symtab := Function.update st.symtab .dot { dot with maxval := PCmax } }

/-- What `shortsdi` answers before it comes to `ret`, or `none` where it returns at once that the text is another -/
def register (st : State) (sym : Option Sym) (const : ℤ) (itype : Itype) :
    Except Stop (Option Sditype × State) :=
  let enter (s : Sym) : Except Stop (Option Sditype × State) :=
    if ¬ (st.symtab .dot).isTxt0 then .ok (none, st)
    else
      match newsdi cpu st s const itype with
      | .error e => .error e
      | .ok st => .ok (some .U_SDI, st)
  match sym with
  | none => .ok (some (sdi st none const itype), st)
  | some s =>
    if (st.symtab s).styp = .UNDEF then enter s
    else
      match sdi st (some s) const itype with
      | .U_SDI => if s = .dot ∧ (st.symtab .dot).isTxt0 then .ok (some .S_SDI, st) else enter s
      | sditype => .ok (some sditype, st)

def shortsdi (st : State) (sym : Option Sym) (const : ℤ) (itype : Itype) :
    Except Stop (Sditype × State) :=
  match register cpu st sym const itype with
  | .error e => .error e
  | .ok (none, st) => .ok (.L_SDI, st)
  | .ok (some sditype, st) =>
    if 1 < st.selset.length then
      match expand cpu st with
      | .error e => .error e
      | .ok st => .ok (sditype, st)
    else .ok (sditype, st)

/-- `generate` of `nbytes` and the end of the statement -/
def generate (st : State) (nbytes : ℤ) (code : Code) : State :=
  { st with
    newdot := st.newdot + nbytes
    symtab := Function.update st.symtab .dot
      { st.symtab .dot with value := st.newdot + nbytes }
    text := st.text ++ [code] }

/-- A statement of pass 1 -/
def statement (st : State) : Line → Except Stop State
  | .label l =>
    if (st.symtab (.name l)).styp ≠ .UNDEF then .error .redefined
    else
      let dot := st.symtab .dot
      let st := { st with
        symtab := Function.update st.symtab (.name l)
          { st.symtab (.name l) with value := st.newdot, styp := dot.styp, sectnum := dot.sectnum }
        text := st.text ++ [.label l] }
      if dot.isTxt0 then deflab cpu st (.name l) else .ok st
  | .fixed nbytes => .ok (generate st nbytes (.fixed nbytes))
  | .inst d =>
    match shortsdi cpu st d.sym d.const d.itype with
    | .error e => .error e
    | .ok (.S_SDI, st) => .ok (generate st d.size (.inst d .short))
    | .ok (.L_SDI, st) => .ok (generate st (d.size + idelta cpu d.itype) (.inst d .long))
    | .ok (.U_SDI, st) => .ok (generate st d.size (.inst d (.opt st.sdicnt)))

def pass1 : State → List Line → Except Stop State
  | st, [] => .ok st
  | st, line :: lines =>
    match statement cpu st line with
    | .error e => .error e
    | .ok st => pass1 st lines

/-- Before the first statement -/
def start : State :=
  { symtab := fun s => match s with
      | .dot => ⟨.TXT, 0, 0, 0⟩
      | .name _ => ⟨.UNDEF, 0, 0, 0⟩
    selset := []
    labset := []
    islongsdi := fun _ => 0
    sdicnt := 0
    PCmax := 0
    newdot := 0
    notdone := true
    text := [] }

/-- Pass 1 over a text, and the symbols fixed after it -/
def assemble (lines : List Line) : Except Stop State :=
  match pass1 cpu start lines with
  | .error e => .error e
  | .ok st => fixsyms cpu st

end Svr3.As
