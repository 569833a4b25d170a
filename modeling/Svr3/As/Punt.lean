import Svr3.As.Expand

/-!
# Full tables in `as/common/expand1.c`

Where a table is full an instruction that is not decided yet is taken for long, and the assembler goes on. The
selection set is emptied before the new instruction enters it; the label table is emptied between the definition
of a label and its entry, and the counter of the instructions is stepped back.
-/

namespace Svr3.As.Punt

variable (cpu : Processor)

/-- The loop of `punt`: the entry of the least number below `firstsdi` and its place -/
def scan : List Ssentry → ℕ → ℕ → Option (ℕ × Ssentry) → Option (ℕ × Ssentry)
  | [], _, _, outptr => outptr
  | current :: rest, i, firstsdi, outptr =>
    if current.sdicnt < firstsdi then scan rest (i + 1) current.sdicnt (some (i, current))
    else scan rest (i + 1) firstsdi outptr

def punt (st : State) : Except Stop State :=
  match scan st.selset 0 st.sdicnt none with
  | none => .error .wild
  | some (i, outptr) => expand cpu (decideAt cpu st i outptr .L_SDI)

/-- `while (labctr == MAXLAB - 1)` -/
def puntLabels : ℕ → State → Except Stop State
  | 0, _ => .error .loops
  | fuel + 1, st =>
    if st.labset.length = MAXLAB then
      match punt cpu st with
      | .error e => .error e
      | .ok st => puntLabels fuel st
    else .ok st

/-- A punt takes an entry from the selection set, or finds none -/
def newlab (st : State) (sym : Sym) : Except Stop State :=
  match puntLabels cpu (st.selset.length + 1) st with
  | .error e => .error e
  | .ok st => .ok { st with labset := st.labset ++ [sym] }

def deflab (st : State) (sym : Sym) : Except Stop State :=
  let st := { st with symtab := Function.update st.symtab sym
                        { st.symtab sym with maxval := st.PCmax } }
  if st.selset ≠ [] then
    match newlab cpu st sym with
    | .error e => .error e
    | .ok st => expand cpu st
  else .ok st

def resolve (st : State) : Except Stop State :=
  match expand cpu { st with notdone := false } with
  | .error e => .error e
  | .ok st => .ok { st with notdone := true }

/-- The tables, and whether there were too many instructions -/
structure Tables extends State where
  overflow : Bool

def newsdi (st : Tables) (sym : Sym) (const : ℤ) (itype : Itype) : Except Stop Tables :=
  let full : Bool := st.sdicnt + 1 = MAXSDI
  let counted := { st.toState with sdicnt := if full then st.sdicnt else st.sdicnt + 1 }
  match if counted.selset.length = MAXSS then punt cpu counted else .ok counted with
  | .error e => .error e
  | .ok room =>
    let dot := room.symtab .dot
    let PCmax := room.PCmax + idelta cpu itype
    .ok {
      toState := { room with
        selset := room.selset ++ [⟨room.sdicnt, itype, dot.value, room.PCmax, sym, const⟩]
        PCmax := PCmax
        symtab := Function.update room.symtab .dot { dot with maxval := PCmax } }
      overflow := st.overflow || full }

/-- What `shortsdi` answers before it comes to `ret`, or `none` where it returns at once that the text is another -/
def register (st : Tables) (sym : Option Sym) (const : ℤ) (itype : Itype) :
    Except Stop (Option Sditype × Tables) :=
  let enter (s : Sym) : Except Stop (Option Sditype × Tables) :=
    if ¬ (st.symtab .dot).isTxt0 then .ok (none, st)
    else
      match newsdi cpu st s const itype with
      | .error e => .error e
      | .ok st => .ok (some .U_SDI, st)
  match sym with
  | none => .ok (some (sdi st.toState none const itype), st)
  | some s =>
    if (st.symtab s).styp = .UNDEF then enter s
    else
      match sdi st.toState (some s) const itype with
      | .U_SDI => if s = .dot ∧ (st.symtab .dot).isTxt0 then .ok (some .S_SDI, st) else enter s
      | sditype => .ok (some sditype, st)

/-- From `ret` on -/
def ret (st : Tables) (sditype : Option Sditype) : Except Stop (Option Sditype × Tables) :=
  if 1 < st.selset.length then
    match expand cpu st.toState with
    | .error e => .error e
    | .ok st' => .ok (sditype, { st with toState := st' })
  else .ok (sditype, st)

/-- The answer is `none` where `sditype` was never set -/
def shortsdi (st : Tables) (sym : Option Sym) (const : ℤ) (itype : Itype) :
    Except Stop (Option Sditype × Tables) :=
  if st.overflow then ret cpu st none
  else
    match register cpu st sym const itype with
    | .error e => .error e
    | .ok (none, st) => .ok (some .L_SDI, st)
    | .ok (some sditype, st) => ret cpu st (some sditype)

/-- A statement of the text; an origin fills up to an address -/
inductive Stmt
  | line (line : Line)
  | org (addr : ℤ)

/-- The rule `labels` -/
def defineLabel (st : State) (l : ℕ) : State :=
  let dot := st.symtab .dot
  { st with
    symtab := Function.update st.symtab (.name l)
      { st.symtab (.name l) with value := st.newdot, styp := dot.styp, sectnum := dot.sectnum }
    text := st.text ++ [.label l] }

def Tables.generate (st : Tables) (nbytes : ℤ) (code : Code) : Tables :=
  { st with toState := As.generate st.toState nbytes code }

def statement (st : Tables) : Stmt → Except Stop Tables
  | .line (.label l) =>
    if (st.symtab (.name l)).styp ≠ .UNDEF then .error .redefined
    else if (st.symtab .dot).isTxt0 then
      match deflab cpu (defineLabel st.toState l) (.name l) with
      | .error e => .error e
      | .ok st' => .ok { st with toState := st' }
    else .ok { st with toState := defineLabel st.toState l }
  | .line (.fixed nbytes) => .ok (st.generate nbytes (.fixed nbytes))
  | .line (.inst d) =>
    match shortsdi cpu st d.sym d.const d.itype with
    | .error e => .error e
    | .ok (none, _) => .error .wild
    | .ok (some .S_SDI, st) => .ok (st.generate d.size (.inst d .short))
    | .ok (some .L_SDI, st) => .ok (st.generate (d.size + idelta cpu d.itype) (.inst d .long))
    | .ok (some .U_SDI, st) => .ok (st.generate d.size (.inst d (.opt st.sdicnt)))
  | .org addr =>
    -- "backwards org" is reported and nothing is filled
    if addr - (st.symtab .dot).value < 0 then .ok st
    else
      match if (st.symtab .dot).isTxt0 then resolve cpu st.toState else .ok st.toState with
      | .error e => .error e
      | .ok st' =>
        let nbytes := (addr - (st'.symtab .dot).value).toNat
        .ok (Tables.generate { st with toState := st' } nbytes (.fixed nbytes))

def pass1 : Tables → List Stmt → Except Stop Tables
  | st, [] => .ok st
  | st, stmt :: stmts =>
    match statement cpu st stmt with
    | .error e => .error e
    | .ok st => pass1 st stmts

def start : Tables := { toState := As.start, overflow := false }

end Svr3.As.Punt
