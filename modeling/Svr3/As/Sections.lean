import Svr3.As.Expand

/-!
# Pass 1 over the sections of a program

`cgsect` of `as/common/code.c` saves the location counter of the current section and takes up that of another,
while the tables of `expand1.c` go on. A table that is full is made room in by `punt`. After the last number is
given out, `shortsdi` returns a variable that was never set.
-/

namespace Svr3.As.Sections

/-- The sections, each with a location counter and a temporary file -/
inductive Sect
  | text (n : Fin 4)
  | data (n : Fin 4)
  | init
  | lib
  | cmt
  deriving DecidableEq

def Sect.styp : Sect → Styp
  | .text _ => .TXT
  | .data _ => .DAT
  | .init => .INIT
  | .lib => .LIB
  | .cmt => .CMT

def Sect.sectnum : Sect → ℤ
  | .text n => n
  | .data n => n
  | .init | .lib | .cmt => 0

/-- The globals of pass 1. The tables, `.`, `newdot` and the file of the current section are in `st`, and `sect` is
what `dot->styp` and `dot->sectnum` say. -/
structure Asm where
  st : State
  sect : Sect
  overflow : Bool
  /-- `dottxt[]`, `dotdat[]`, `dotinit`, `dotlib` and `dotcmt` -/
  dots : Sect → ℤ
  texts : Sect → List Code

/-- A statement in the current section, or a change of the section -/
inductive Stmt
  | cgsect (newsect : Sect)
  | line (line : Line)

def cgsect (a : Asm) (newsect : Sect) : Asm :=
  let dots := Function.update a.dots a.sect a.st.newdot
  let texts := Function.update a.texts a.sect a.st.text
  let newdot := dots newsect
  { a with
    sect := newsect
    dots := dots
    texts := texts
    st := { a.st with
      newdot := newdot
      text := texts newsect
      symtab := Function.update a.st.symtab .dot
        { a.st.symtab .dot with styp := newsect.styp, sectnum := newsect.sectnum, value := newdot } } }

variable (cpu : Processor)

/-- The first of the entries with the least number, below `firstsdi`, from place `i` on -/
def oldest : ℕ → ℕ → Option ℕ → List Ssentry → Option ℕ
  | _, _, outptr, [] => outptr
  | firstsdi, i, outptr, current :: sel =>
    if current.sdicnt < firstsdi then oldest current.sdicnt (i + 1) (some i) sel
    else oldest firstsdi (i + 1) outptr sel

/-- `punt`, when `sdicnt` numbers are given out -/
def punt (sdicnt : ℕ) (st : State) : Except Stop State :=
  match oldest sdicnt 0 none st.selset with
  | none => .error .wild
  | some i =>
    match st.selset[i]? with
    | none => .error .wild
    | some outptr => expand cpu (decideAt cpu st i outptr .L_SDI)

/-- Punt until a label is out of the full table -/
def puntLabs : ℕ → State → Except Stop State
  | 0, _ => .error .loops
  | fuel + 1, st =>
    if st.labset.length = MAXLAB then
      match punt cpu st.sdicnt st with
      | .error e => .error e
      | .ok st => puntLabs fuel st
    else .ok st

def newlab (st : State) (sym : Sym) : Except Stop State :=
  match puntLabs cpu (st.selset.length + 2) st with
  | .error e => .error e
  | .ok st => .ok { st with labset := st.labset ++ [sym] }

def deflab (st : State) (sym : Sym) : Except Stop State :=
  let st := { st with symtab := Function.update st.symtab sym
                        { st.symtab sym with maxval := st.PCmax } }
  if st.selset ≠ [] then
    match newlab cpu st sym with
    | .error e => .error e
    | .ok st => expand cpu st
  else .ok st

/-- `newsdi`, and the slack its instruction adds after it. The last number is given out again and again. -/
def newsdi (a : Asm) (sym : Sym) (const : ℤ) (itype : Itype) : Except Stop Asm :=
  let sdicnt := if a.st.sdicnt + 1 = MAXSDI then a.st.sdicnt else a.st.sdicnt + 1
  match (if a.st.selset.length = MAXSS then punt cpu sdicnt a.st else .ok a.st) with
  | .error e => .error e
  | .ok st =>
    let dot := st.symtab .dot
    let PCmax := st.PCmax + idelta cpu itype
    .ok { a with
      overflow := a.overflow || a.st.sdicnt + 1 = MAXSDI
      st := { st with
        sdicnt := sdicnt
        selset := st.selset ++ [⟨sdicnt, itype, dot.value, st.PCmax, sym, const⟩]
        PCmax := PCmax
        symtab := Function.update st.symtab .dot { dot with maxval := PCmax } } }

/-- What `shortsdi` answers before it comes to `ret`, or `none` where it returns at once that the section is
another -/
def register (a : Asm) (sym : Option Sym) (const : ℤ) (itype : Itype) :
    Except Stop (Option Sditype × Asm) :=
  let enter (s : Sym) : Except Stop (Option Sditype × Asm) :=
    if ¬ (a.st.symtab .dot).isTxt0 then .ok (none, a)
    else
      match newsdi cpu a s const itype with
      | .error e => .error e
      | .ok a => .ok (some .U_SDI, a)
  match sym with
  | none => .ok (some (sdi a.st none const itype), a)
  | some s =>
    if (a.st.symtab s).styp = .UNDEF then enter s
    else
      match sdi a.st (some s) const itype with
      | .U_SDI => if s = .dot ∧ (a.st.symtab .dot).isTxt0 then .ok (some .S_SDI, a) else enter s
      | sditype => .ok (some sditype, a)

/-- `junk` is what is in `sditype` when nothing was put there. -/
def shortsdi (junk : Asm → Sditype) (a : Asm) (sym : Option Sym) (const : ℤ) (itype : Itype) :
    Except Stop (Sditype × Asm) :=
  match (if a.overflow then .ok (some (junk a), a) else register cpu a sym const itype) with
  | .error e => .error e
  | .ok (none, a) => .ok (.L_SDI, a)
  | .ok (some sditype, a) =>
    if 1 < a.st.selset.length then
      match expand cpu a.st with
      | .error e => .error e
      | .ok st => .ok (sditype, { a with st := st })
    else .ok (sditype, a)

def statement (junk : Asm → Sditype) (a : Asm) : Stmt → Except Stop Asm
  | .cgsect newsect => .ok (cgsect a newsect)
  | .line (.label l) =>
    if (a.st.symtab (.name l)).styp ≠ .UNDEF then .error .redefined
    else
      let dot := a.st.symtab .dot
      let st := { a.st with
        symtab := Function.update a.st.symtab (.name l)
          { a.st.symtab (.name l) with value := a.st.newdot, styp := dot.styp, sectnum := dot.sectnum }
        text := a.st.text ++ [.label l] }
      if dot.isTxt0 then
        match deflab cpu st (.name l) with
        | .error e => .error e
        | .ok st => .ok { a with st := st }
      else .ok { a with st := st }
  | .line (.fixed nbytes) => .ok { a with st := generate a.st nbytes (.fixed nbytes) }
  | .line (.inst d) =>
    match shortsdi cpu junk a d.sym d.const d.itype with
    | .error e => .error e
    | .ok (.S_SDI, a) => .ok { a with st := generate a.st d.size (.inst d .short) }
    | .ok (.L_SDI, a) => .ok { a with st := generate a.st (d.size + idelta cpu d.itype) (.inst d .long) }
    | .ok (.U_SDI, a) => .ok { a with st := generate a.st d.size (.inst d (.opt a.st.sdicnt)) }

def pass1 (junk : Asm → Sditype) : Asm → List Stmt → Except Stop Asm
  | a, [] => .ok a
  | a, stmt :: prog =>
    match statement cpu junk a stmt with
    | .error e => .error e
    | .ok a => pass1 junk a prog

def start : Asm :=
  { st := As.start
    sect := .text 0
    overflow := false
    dots := fun _ => 0
    texts := fun _ => [] }

/-- Pass 1 over a program, and the symbols fixed after it in text section 0 -/
def assemble (junk : Asm → Sditype) (prog : List Stmt) : Except Stop Asm :=
  match pass1 cpu junk start prog with
  | .error e => .error e
  | .ok a =>
    let a := cgsect a (.text 0)
    match fixsyms cpu a.st with
    | .error e => .error e
    | .ok st => .ok (cgsect { a with st := st } (.text 0))

end Svr3.As.Sections
