import Svr3.Sccs.Weave

/-!
# The delta table

`dodelt` reads the delta table, `doie` enters the lists of the user, `setup` decides which deltas are applied, and
`mkdelt` of `delta.c` writes the entry of a new delta. The line of `del_ba` is kept as its record, and `p_maxr`
and what `rmdel` and `cdc` do in the table are left out. The arrays `p_idel` and `p_apply` hold `maxser + 1`
elements; `Fault.wild` is an access behind them.
-/

namespace Svr3.Sccs

def INCLUDE : Char := 'i'

def EXCLUDE : Char := 'x'

def IGNORE : Char := 'g'

def MRNUM : Char := 'm'

def COMMENTS : Char := 'c'

def EDELTAB : Char := 'e'

/-- `MAX`, the highest level -/
def MAX : BitVec 32 := 9999

/-- `APPLY` and `NOAPPLY`; `SX_EMPTY` is `none`. -/
inductive Code
  | apply
  | noapply
  deriving DecidableEq

def INCL : BitVec 32 := 1

def EXCL : BitVec 32 := 2

def CUTOFF : BitVec 32 := 4

def USER : BitVec 32 := 32

def IGNR : BitVec 32 := 64

def INCLUSER : BitVec 32 := USER ||| INCL

def EXCLUSER : BitVec 32 := USER ||| EXCL

def IGNRUSER : BitVec 32 := USER ||| IGNR

/-- `struct apply` -/
structure Ap where
  inline : Bool
  code : Option Code
  reason : BitVec 32
  deriving DecidableEq

/-- `struct ixg`, of which `i_cnt` is a character -/
structure Ixg where
  type : Char
  cnt : BitVec 8
  ser : List ℕ

/-- `struct idel` -/
structure Idel where
  sid : Sid
  ixg : List Ixg
  pred : ℕ
  datetime : BitVec 32

/-- `struct deltab`, without the programmer -/
structure Deltab where
  sid : Sid
  serial : ℕ
  pred : ℕ
  datetime : BitVec 32
  type : Char
  pos : 0 < serial

/-- What is used of the packet -/
structure Deltas where
  maxser : ℕ
  idel : ℕ → Idel
  apply : ℕ → Ap
  cutoff : BitVec 32
  gotsid : Sid
  slnno : ℕ

/-! ## Applying deltas -/

def condset (code : Option Code) (reason : BitVec 32) (ap : Ap) : Ap :=
  match code with
  | none => { ap with reason := ap.reason ||| reason }
  | some c => if ap.code = none then { ap with code := some c, reason := ap.reason ||| reason } else ap

namespace Deltas

/-- `condset` at an element of `p_apply` -/
def set (n : ℕ) (code : Option Code) (reason : BitVec 32) (pkt : Deltas) : Deltas :=
  { pkt with apply := Function.update pkt.apply n (condset code reason (pkt.apply n)) }

/-- `a_inline = 1` -/
def mark (n : ℕ) (pkt : Deltas) : Deltas :=
  { pkt with apply := Function.update pkt.apply n { pkt.apply n with inline := true } }

end Deltas

/-- The code and the reason of a type -/
def ixgCode (type : Char) : Option Code × BitVec 32 :=
  if type = INCLUDE then (some .apply, INCL)
  else if type = EXCLUDE then (some .noapply, EXCL)
  else (none, IGNR)

/-- The loop over `i_ser` -/
def ixgSers (code : Option Code) (reason : BitVec 32) : List ℕ → Deltas → Except Fault Deltas
  | [], pkt => .ok pkt
  | n :: ns, pkt => if n ≤ pkt.maxser then ixgSers code reason ns (pkt.set n code reason) else .error .wild

/-- A count below 0 does not come to 0 within the memory. -/
def ixgsetup : List Ixg → Deltas → Except Fault Deltas
  | [], pkt => .ok pkt
  | cur :: xs, pkt =>
    if cur.cnt.toInt < 0 then .error .wild
    else do
      let c := ixgCode cur.type
      let pkt ← ixgSers c.1 c.2 (cur.ser.take cur.cnt.toNat) pkt
      ixgsetup xs pkt

/-- The first half of a turn of `setup`: the delta's own code -/
def setupAt (n : ℕ) (first_app : Bool) (pkt : Deltas) : Except Fault (Bool × Deltas) :=
  let d := pkt.idel n
  if (pkt.apply n).inline then
    if n ≠ 1 ∧ d.pred = 0 then .error (formatError pkt.slnno)
    else if pkt.maxser < d.pred then .error .wild
    else if pkt.cutoff.slt d.datetime then .ok (first_app, (pkt.mark d.pred).set n (some .noapply) CUTOFF)
    else
      let pkt := if first_app then { pkt with gotsid := d.sid } else pkt
      .ok (false, (pkt.mark d.pred).set n (some .apply) 0)
  else .ok (first_app, pkt.set n (some .noapply) 0)

/-- The second half: the lists of a delta that is applied -/
def setupIxg (n : ℕ) (pkt : Deltas) : Except Fault Deltas :=
  if (pkt.apply n).code = some .apply then ixgsetup (pkt.idel n).ixg pkt else .ok pkt

def setupLoop : ℕ → Bool → Deltas → Except Fault Deltas
  | 0, _, pkt => .ok pkt
  | n + 1, first_app, pkt => do
    let r ← setupAt (n + 1) first_app pkt
    let pkt ← setupIxg (n + 1) r.2
    setupLoop n r.1 pkt

def setup (serial : ℕ) (pkt : Deltas) : Except Fault Deltas :=
  if serial ≤ pkt.maxser then setupLoop pkt.maxser true (pkt.mark serial) else .error .wild

/-! ## The lists of the user -/

def sidFrom (sp : Sid) (pkt : Deltas) : ℕ → ℕ
  | 0 => 0
  | n + 1 => if (pkt.idel (n + 1)).sid = sp then n + 1 else sidFrom sp pkt n

/-- The serial number of a SID, or 0 -/
def sidtoser (sp : Sid) (pkt : Deltas) : ℕ := sidFrom sp pkt pkt.maxser

/-- `enter` of `delta` -/
def enter (ch : Char) (n : ℕ) (pkt : Deltas) : Except Fault Deltas :=
  if (pkt.idel n).datetime.slt pkt.cutoff then
    match (pkt.apply n).code with
    | none =>
      .ok (if ch = INCLUDE then pkt.set n (some .apply) INCLUSER
        else if ch = EXCLUDE then pkt.set n (some .noapply) EXCLUSER
        else if ch = IGNORE then pkt.set n none IGNRUSER
        else pkt)
    | some .apply => .error (.fatal "internal error in delta/enter() (de5)")
    | some .noapply => .error (.fatal "internal error in delta/enter() (de6)")
  else .ok pkt

def dls : Fault := .fatal "delta list syntax (co13)"

def br : Fault := .fatal "bad range (co12)"

def getasid (p : List Char) : Except Fault (Sid × List Char) :=
  let (sp, q) := sid_ab p
  if q.length = p.length ∨ sp.rel = 0 then .error dls
  else if sp.lev = 0 then
    if sp.br ≠ 0 ∨ sp.seq ≠ 0 then .error dls else .ok ({ sp with lev := MAX }, q)
  else if sp.br ≠ 0 then .ok (if sp.seq = 0 then { sp with seq := MAX } else sp, q)
  else if sp.seq ≠ 0 then .error dls
  else .ok (sp, q)

/-- SIDs are entered as long as they are in the table: at most `maxser` are. -/
def enterSids (ch : Char) (next : Sid → Sid) (more : Sid → Bool) : ℕ → Sid → Deltas → Except Fault Deltas
  | 0, _, _ => .error .wild
  | k + 1, sid, pkt =>
    if more sid ∧ sidtoser sid pkt ≠ 0 then do
      let pkt ← enter ch (sidtoser sid pkt) pkt
      enterSids ch next more k (next sid) pkt
    else .ok pkt

/-- The releases from `low` to `high` -/
def enterRels (ch : Char) (lowsid : Sid) : List (BitVec 32) → Deltas → Except Fault Deltas
  | [], pkt => .ok pkt
  | rel :: rels, pkt => do
    let sid : Sid := ⟨rel, if rel = lowsid.rel then lowsid.lev else 1, 0, 0⟩
    let pkt ← enterSids ch (fun s => { s with lev := s.lev + 1 }) (fun _ => true) (pkt.maxser + 1) sid pkt
    enterRels ch lowsid rels pkt

/-- A range of SIDs -/
def enterRange (ch : Char) (lowsid highsid : Sid) (pkt : Deltas) : Except Fault Deltas :=
  if lowsid.br = 0 then
    if highsid.br ≠ 0 ∨ highsid.seq ≠ 0 ∨ highsid.rel.slt lowsid.rel ∨
        (highsid.rel = lowsid.rel ∧ highsid.lev.slt lowsid.lev) then .error br
    -- the loop over the releases does not end at the greatest integer
    else if highsid.rel = BitVec.intMax 32 then .error .wild
    else enterRels ch lowsid ((List.range (highsid.rel.toInt - lowsid.rel.toInt + 1).toNat).map fun i =>
      lowsid.rel + BitVec.ofNat 32 i) pkt
  else if ¬(highsid.rel = lowsid.rel ∧ highsid.lev = lowsid.lev ∧ highsid.br = lowsid.br ∧
      lowsid.seq.sle highsid.seq) then .error br
  else enterSids ch (fun s => { s with seq := s.seq + 1 }) (fun s => s.seq.sle highsid.seq) (pkt.maxser + 1)
    lowsid pkt

/-- One SID or range of a list, and what is behind it -/
def enterItem (ch : Char) (list : List Char) (pkt : Deltas) : Except Fault (Deltas × List Char) := do
  let low ← getasid list
  match low.2 with
  | '-' :: list => do
    let high ← getasid list
    let pkt ← enterRange ch low.1 high.1 pkt
    pure (pkt, high.2)
  | list =>
    if sidtoser low.1 pkt ≠ 0 then do
      let pkt ← enter ch (sidtoser low.1 pkt) pkt
      pure (pkt, list)
    else pure (pkt, list)

/-- Each turn takes characters from the list. -/
def dolistLoop (ch : Char) : ℕ → List Char → Deltas → Except Fault Deltas
  | _, [], pkt => .ok pkt
  | 0, _, _ => .error .wild
  | k + 1, list, pkt => do
    let r ← enterItem ch list pkt
    dolistLoop ch k (if r.2.head? = some ',' then r.2.tail else r.2) r.1

def dolist (list : List Char) (ch : Char) (pkt : Deltas) : Except Fault Deltas :=
  dolistLoop ch list.length list pkt

def doie (ilist elist glist : Option (List Char)) (pkt : Deltas) : Except Fault Deltas := do
  let pkt ← (ilist.map (dolist · INCLUDE pkt)).getD (.ok pkt)
  let pkt ← (elist.map (dolist · EXCLUDE pkt)).getD (.ok pkt)
  (glist.map (dolist · IGNORE pkt)).getD (.ok pkt)

/-! ## Reading the table -/

/-- An entry: the record of its first line, and the lines behind it as `getline` delivers them, with the one of
`EDELTAB` -/
structure Entry where
  dt : Deltab
  lines : List (List Char)

/-- The loop of `doixg` -/
def serials : ℕ → List Char → List ℕ
  | 0, _ => []
  | _ + 1, [] => []
  | k + 1, c :: p =>
    if c.isDigit then (satoi (c :: p)).1.toNat :: serials k (nonblank (satoi (c :: p)).2) else []

def doixg (p : List Char) : Ixg :=
  let q := nonblank (p.drop 2)
  let ser := serials q.length q
  ⟨p.tail.headD '\x00', BitVec.ofNat 8 ser.length, ser⟩

/-- The loop over the lines of an entry, with the number of the line -/
def readLines (isDelta : Bool) : List (List Char) → List Ixg → ℕ → Except Fault (List Ixg × ℕ)
  | [], _, slnno => .error (formatError slnno)
  | l :: ls, xs, slnno =>
    if l.head? ≠ some CTLCHAR then .error (formatError (slnno + 1))
    else
      let c := l.tail.headD '\x00'
      if c = EDELTAB then .ok (xs, slnno + 1)
      else if c = COMMENTS ∨ c = MRNUM then readLines isDelta ls xs (slnno + 1)
      else if c = INCLUDE ∨ c = EXCLUDE ∨ c = IGNORE then
        readLines isDelta ls (if isDelta then xs ++ [doixg l] else xs) (slnno + 1)
      else .error (formatError (slnno + 1))

/-- An entry is read, and the line behind it. -/
def readEntry (e : Entry) (pkt : Deltas) : Except Fault Deltas :=
  if e.dt.type = 'D' then
    if e.dt.serial ≤ pkt.maxser then do
      let r ← readLines true e.lines (pkt.idel e.dt.serial).ixg (pkt.slnno + 1)
      pure { pkt with
        idel := Function.update pkt.idel e.dt.serial ⟨e.dt.sid, r.1, e.dt.pred, e.dt.datetime⟩
        slnno := r.2 + 1 }
    else .error .wild
  else do
    let r ← readLines false e.lines [] (pkt.slnno + 1)
    pure { pkt with slnno := r.2 + 1 }

def readEntries : List Entry → Deltas → Except Fault Deltas
  | [], pkt => .ok pkt
  | e :: es, pkt => do
    let pkt ← readEntry e pkt
    readEntries es pkt

/-- The arrays are zeroed. -/
def allocated (maxser : ℕ) (cutoff : BitVec 32) : Deltas where
  maxser := maxser
  idel := fun _ => ⟨⟨0, 0, 0, 0⟩, [], 0, 0⟩
  apply := fun _ => ⟨false, none, 0⟩
  cutoff := cutoff
  gotsid := ⟨0, 0, 0, 0⟩
  slnno := 2

def dodelt (cutoff Timenow : BitVec 32) (es : List Entry) : Except Fault Deltas :=
  match es with
  | [] => .error (formatError 3)
  | e :: _ =>
    if Timenow.slt e.dt.datetime then .error (.fatal "clock set wrong!!! (co10)")
    else readEntries es (allocated e.dt.serial cutoff)

/-! ## Writing an entry -/

/-- `maxser`, .., 1 -/
def down : ℕ → List ℕ
  | 0 => []
  | n + 1 => (n + 1) :: down n

/-- The deltas of a list: those that have its reason -/
def listed (reason : BitVec 32) (pkt : Deltas) : List ℕ :=
  (down pkt.maxser).filter fun n => (pkt.apply n).reason = reason

def mkixg (reason : BitVec 32) (ch : Char) (pkt : Deltas) : List Char :=
  CTLCHAR :: ch :: ((listed reason pkt).flatMap (fun n => ' ' :: digits n) ++ ['\n'])

/-- What `getline` delivers of a text -/
def fetched : ℕ → List Char → List (List Char)
  | 0, _ => []
  | k + 1, p => if p = [] then [] else (fgets (BUFSIZ - 1) p).1 :: fetched k (fgets (BUFSIZ - 1) p).2

/-- The lines of a list, if the user gave one -/
def ixgLines (arg : Option (List Char)) (reason : BitVec 32) (ch : Char) (pkt : Deltas) : List (List Char) :=
  if arg.isSome then fetched (mkixg reason ch pkt).length (mkixg reason ch pkt) else []

/-- A line of a comment or an MR number -/
abbrev Note := { l : List Char // l.head? = some CTLCHAR ∧ (l.tail.headD '\x00' = COMMENTS ∨ l.tail.headD '\x00' = MRNUM) }

/-- What `mkdelt` takes from outside of the packet -/
structure NewDelta where
  Timenow : BitVec 32
  /-- The new SID -/
  sp : Sid
  /-- The SID of the predecessor -/
  osp : Sid
  ilist : Option (List Char)
  elist : Option (List Char)
  glist : Option (List Char)
  /-- `Sflags[NULLFLAG - 'a']` -/
  nullflag : Bool
  notes : List Note

def edeltab : List Char := [CTLCHAR, EDELTAB, '\n']

def nulldel (d : NewDelta) : Bool :=
  d.nullflag && decide (d.osp.rel.toInt + 1 < d.sp.rel.toInt) && d.sp.br == 0 && d.sp.seq == 0 && d.osp.br == 0 &&
    d.osp.seq == 0

def ser_inc (d : NewDelta) : ℕ := if nulldel d then (d.sp.rel.toInt - d.osp.rel.toInt).toNat else 1

/-- The `i`-th delta above the table -/
def newDeltab (d : NewDelta) (pkt : Deltas) (i : ℕ) : Deltab where
  sid := { d.sp with rel := d.sp.rel - BitVec.ofNat 32 (ser_inc d - (i + 1)) }
  serial := pkt.maxser + (i + 1)
  pred := if i = 0 then sidtoser d.osp pkt else pkt.maxser + i
  datetime := d.Timenow
  type := 'D'
  pos := Nat.succ_pos _

/-- The line of a null delta's comment -/
def autoNull : List Char := CTLCHAR :: COMMENTS :: ' ' :: ("AUTO NULL DELTA\n".toList)

/-- The null deltas up to the `i`-th, the last first -/
def nullEntries (d : NewDelta) (pkt : Deltas) : ℕ → List Entry
  | 0 => []
  | i + 1 => ⟨newDeltab d pkt i, [autoNull, edeltab]⟩ :: nullEntries d pkt i

/-- The entries that `mkdelt` puts before the table -/
def mkdelt (d : NewDelta) (pkt : Deltas) : List Entry :=
  ⟨newDeltab d pkt (ser_inc d - 1), ixgLines d.ilist INCLUSER INCLUDE pkt ++ (ixgLines d.elist EXCLUSER EXCLUDE pkt ++
    (ixgLines d.glist IGNRUSER IGNORE pkt ++ (d.notes.map Subtype.val ++ [edeltab])))⟩ ::
    nullEntries d pkt (ser_inc d - 1)

end Svr3.Sccs
