import Mathlib.Algebra.Group.Int.Defs
import Svr3.Lib.Breadth
import Svr3.Lib.Circular

/-!
# The words of fgrep

`cgotofn` and `cfail` of `fgrep/fgrep.c`. The words are kept in a table of nodes. A pointer is the number of a node, and
0 is both the root and the null pointer: no pointer leads back to the root.
-/

namespace Svr3.Fgrep

open Function

def MAXSIZ : ℕ := 6000
def QSIZE : ℕ := 400

/-- `struct words` -/
structure Words where
  inp : ℤ
  out : Bool
  nst : ℕ
  link : ℕ
  fail : ℕ
deriving DecidableEq

abbrev Nodes := ℕ → Words

def blank : Words := ⟨0, false, 0, 0, 0⟩

/-- The nodes that a loop along `link` goes through, from `s` on -/
def members (w : Nodes) : ℕ → ℕ → List ℕ
  | 0, _ => []
  | k + 1, s => s :: if (w s).link = 0 then [] else members w k (w s).link

/-! ## The words come in -/

/-- `w` and `smax` -/
structure Table where
  w : Nodes
  smax : ℕ

inductive Stop where
  | overflo
  /-- A null pointer is followed. -/
  | null

def EOF : ℤ := -1
def NEWLINE : ℤ := 10

/-- `s->inp = c`, as a `char` -/
def setInp (t : Table) (s : ℕ) (c : ℤ) : Table :=
  { t with w := update t.w s { t.w s with inp := Int.bmod c 256 } }

def setOut (t : Table) (s : ℕ) : Table :=
  { t with w := update t.w s { t.w s with out := true } }

/-- `s->link = ++smax` -/
def newLink (t : Table) (s : ℕ) : Except Stop Table :=
  if MAXSIZ - 1 ≤ t.smax then .error .overflo
  else .ok ⟨update t.w s { t.w s with link := t.smax + 1 }, t.smax + 1⟩

/-- `s->nst = ++smax` -/
def newNst (t : Table) (s : ℕ) : Except Stop Table :=
  if MAXSIZ - 1 ≤ t.smax then .error .overflo
  else .ok ⟨update t.w s { t.w s with nst := t.smax + 1 }, t.smax + 1⟩

/-- Where the loop for `c` ends: at a node for `c`, or at one that is still free. If the list has none, a node is added
to it. -/
inductive Spot where
  | same (s : ℕ)
  | free (t : Table) (s : ℕ)

def look (t : Table) (c : ℤ) (s : ℕ) : Except Stop Spot :=
  let list := members t.w MAXSIZ s
  match list.find? fun i => (t.w i).inp = c ∨ (t.w i).inp = 0 with
  | some i => .ok (if (t.w i).inp = c then .same i else .free t i)
  | none => (newLink t (list.getLastD s)).map fun t => .free t t.smax

/-- `s->inp = c`, and `s` is the next state of it -/
def enter (t : Table) (c : ℤ) (s : ℕ) : Except Stop Table := newNst (setInp t s c) s

/-- The end of a word, behind `s`; with `-x` the newline belongs to it. -/
def finish (xflag : Bool) (t : Table) (s : ℕ) : Except Stop Table :=
  (if xflag then enter t NEWLINE s else .ok t).map fun t => setOut t t.smax

/-- Whether a character is looked for from `s` on, or the rest of a new word is entered -/
inductive Mode where
  | find (s : ℕ)
  | append

/-- A newline while `s` is looked at: the word has been there before, as a word or as the beginning of one. -/
def known (xflag : Bool) (t : Table) (s : ℕ) : Except Stop Table :=
  if xflag then do
    match ← look t NEWLINE s with
    | .same i => if (t.w i).nst = 0 then .error .null else .ok (setOut t (t.w i).nst)
    | .free t i => finish xflag t i
  else .ok (setOut t s)

/-- The loops for the characters that `getargc` returns -/
def cgotofnLoop (xflag : Bool) : List ℤ → Mode → Table → Except Stop Table
  | [], .find _, t => .ok t
  | [], .append, t => finish xflag t t.smax
  | c :: cs, .find s, t =>
    if c = EOF then .ok t
    else if c = NEWLINE then do cgotofnLoop xflag cs (.find 0) (← known xflag t s)
    else do
      match ← look t c s with
      | .same i => if (t.w i).nst = 0 then .error .null else cgotofnLoop xflag cs (.find (t.w i).nst) t
      | .free t i => cgotofnLoop xflag cs .append (← enter t c i)
  | c :: cs, .append, t =>
    if c = EOF then finish xflag t t.smax
    else if c = NEWLINE then do cgotofnLoop xflag cs (.find 0) (← finish xflag t t.smax)
    else do cgotofnLoop xflag cs .append (← enter t c t.smax)

def cgotofn (xflag : Bool) (input : List ℤ) : Except Stop Table := cgotofnLoop xflag input (.find 0) ⟨fun _ => blank, 0⟩

/-! ## The queue -/

/-- `fail` and `out` of the nodes that `s` leads to -/
def setFail (w : Nodes) (s : ℕ) : Nodes :=
  match (members w MAXSIZ (w s).fail).find? fun state => (w state).inp = (w s).inp with
  | none => w
  | some state => (members w MAXSIZ (w s).nst).foldl (fun w q =>
    update w q { w q with fail := (w state).nst, out := (w q).out || (w (w state).nst).out }) w

/-- Where `cfail` is: at the node `s` of the first loop, at the head of the outer loop, or at the node `s` of the inner
one -/
inductive Phase where
  | init (s : ℕ)
  | head
  | node (s : ℕ)

/-- The variables of `cfail`, and what it has entered and taken so far -/
structure State where
  w : Nodes
  queue : ℕ → ℕ
  front : ℕ
  rear : ℕ
  phase : Phase
  entered : List ℕ
  taken : List ℕ

inductive Next where
  | overflo
  | done
  | go (st : State)

/-- `*rear = x`, whatever comes of `rear` -/
def put (st : State) (x rear : ℕ) : State :=
  { st with queue := update st.queue st.rear x, rear := rear, entered := st.entered ++ [x] }

/-- `*rear++` in the first loop -/
def pushInit (st : State) (x : ℕ) : Option State :=
  if QSIZE - 1 ≤ st.rear + 1 then none else some (put st x (st.rear + 1))

/-- `*rear = x` and the tests behind it -/
def push (st : State) (x : ℕ) : Option State :=
  if st.front < st.rear then
    if QSIZE - 1 ≤ st.rear then if st.front = 0 then none else some (put st x 0)
    else some (put st x (st.rear + 1))
  else if st.rear + 1 = st.front then none
  else some (put st x (st.rear + 1))

/-- `s = *front`, and the next place of `front` -/
def take (st : State) : State :=
  { st with front := if st.front = QSIZE - 1 then 0 else st.front + 1, phase := .node (st.queue st.front),
            taken := st.taken ++ [st.queue st.front] }

/-- The next node of a list, or where the loop goes on -/
def onward (w : Nodes) (s : ℕ) (loop : ℕ → Phase) : Phase :=
  if (w s).link = 0 then .head else loop (w s).link

def step (st : State) : Next :=
  match st.phase with
  | .init s =>
    if (st.w s).inp = 0 then .go { st with phase := onward st.w s .init }
    else (pushInit st (st.w s).nst).elim .overflo fun st' => .go { st' with phase := onward st.w s .init }
  | .head => if st.rear = st.front then .done else .go (take st)
  | .node s =>
    if (st.w s).inp = 0 then .go { st with phase := onward st.w s .node }
    else (push st (st.w s).nst).elim .overflo fun st' =>
      .go { st' with w := setFail st.w s, phase := onward st.w s .node }

/-- The states of `cfail`, whose array holds anything at first -/
inductive Reach (w : Nodes) (queue : ℕ → ℕ) : State → Prop where
  | start : Reach w queue ⟨w, queue, 0, 0, .init 0, [], []⟩
  | step {st st' : State} : Reach w queue st → step st = .go st' → Reach w queue st'

/-! ## What the queue has to do -/

/-- The lists that some nodes lead to -/
def leads (w : Nodes) (l : List ℕ) : List ℕ := (l.filter fun s => (w s).inp ≠ 0).map fun s => (w s).nst

/-- The lists that the list `h` leads to -/
def kids (w : Nodes) (h : ℕ) : List ℕ := leads w (members w MAXSIZ h)

/-- The lists but for the first one, in breadth-first order -/
def order (w : Nodes) : List ℕ := Breadth.levels (kids w) (kids w 0) MAXSIZ

/-- The lists of the trie -/
inductive IsList (w : Nodes) : ℕ → Prop where
  | first {x : ℕ} : x ∈ kids w 0 → IsList w x
  | kid {h x : ℕ} : IsList w h → x ∈ kids w h → IsList w x

/-- `cfail` keeps the queue within its array and the entries that have not been taken, and takes every list once, in
breadth-first order, unless it calls `overflo`. -/
structure Queued (w : Nodes) (queue : ℕ → ℕ) : Prop where
  inside : ∀ st, Reach w queue st → st.front < QSIZE ∧ st.rear < QSIZE
  kept : ∀ st, Reach w queue st →
    window st.queue QSIZE st.front (st.entered.length - st.taken.length) = st.entered.drop st.taken.length
  taken : ∀ st, Reach w queue st → st.taken = st.entered.take st.taken.length ∧ st.taken <+: order w
  ends : ∃ st, Reach w queue st ∧ (step st = .overflo ∨ step st = .done ∧ st.taken = order w)
  once : (order w).Nodup
  all : ∀ h, IsList w h ↔ h ∈ order w

end Svr3.Fgrep
