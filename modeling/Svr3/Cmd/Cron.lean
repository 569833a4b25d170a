import Mathlib.Data.Int.Notation
import Mathlib.Data.Nat.Notation
import Mathlib.Logic.Function.Basic

/-!
# The tables of `cron/cron.c`

The users, their events, the time-ordered list, the running jobs and the main loop, cut where the daemon
waits for a child or a message. Files, the clock, `next_time`, forks and pipes give their results as inputs.
The limits `ATLIMIT` and `CRONLIMIT` are not defined.
-/

namespace Svr3.Crond

open Function

def CRONEVENT : ℤ := 2

def NQUEUE : ℤ := 26

def MAXRUN : ℕ := 25

def ZOMB : ℤ := 100

/-- `wait_time` -/
def waitTime : ℤ := 60

/-- `struct event`. At events have an `eventid`. -/
structure Event where
  time : ℤ
  etype : ℤ
  cmd : List Char
  u : ℕ
  eventid : ℕ

/-- `struct usr` -/
structure Usr where
  name : List Char
  ctid : ℕ
  ctexists : Bool
  ctevents : List ℕ
  atevents : List ℕ

/-- `struct runinfo` -/
structure Runinfo where
  pid : ℤ
  que : ℤ
  rusr : ℕ

/-- A notice of the event list -/
structure Notice where
  event : ℕ
  time : ℤ
  id : ℕ

/-- The daemon. `children` are those that have not been waited for, and `brk` is the next address that
`xmalloc` gives. -/
structure Cron where
  usr : ℕ → Usr
  event : ℕ → Event
  brk : ℕ
  uhead : List ℕ
  el : List Notice
  init_time : ℤ
  next_event : Option ℕ
  rt : ℕ → Runinfo
  nrun : ℤ → ℤ
  jobtype : ℤ
  ecid : ℕ
  running : ℤ
  children : List ℤ
  idle : Bool

/-! ## The event list -/

def insertNotice (n : Notice) : List Notice → List Notice
  | [] => [n]
  | m :: l => if n.time < m.time then n :: m :: l else m :: insertNotice n l

/-- The list begins at `init_time`. -/
def el_add (e : ℕ) (time : ℤ) (id : ℕ) (s : Cron) : Cron :=
  if time < s.init_time then s else { s with el := insertNotice ⟨e, time, id⟩ s.el }

def el_remove (id : ℕ) (flag : Bool) (s : Cron) : Cron :=
  { s with el := if flag then s.el.eraseP (·.id == id) else s.el.filter (·.id != id) }

/-! ## Crontabs -/

/-- A pipe to the mail program, if there is a child for it -/
def mail (pid : Option ℤ) (s : Cron) : Cron :=
  match pid with
  | none => s
  | some pid => { s with running := s.running + 1, children := pid :: s.children }

def find_usr (name : List Char) (s : Cron) : Option ℕ := s.uhead.find? fun u => (s.usr u).name == name

/-- A line of a crontab: a comment, one with an error, or an event with its first time. -/
inductive Line
  | comment
  | bad (mail : Option ℤ)
  | entry (cmd : List Char) (time : ℤ)

def readline (u : ℕ) (s : Cron) : Line → Cron
  | .comment => s
  | .bad pid => mail pid s
  | .entry cmd time =>
    el_add s.brk time (s.usr u).ctid { s with
      brk := s.brk + 1
      event := update s.event s.brk ⟨time, CRONEVENT, cmd, u, 0⟩
      usr := update s.usr u { s.usr u with ctevents := s.brk :: (s.usr u).ctevents } }

/-- The file of the user, and the mail if there is none -/
def readcron (u : ℕ) (pid : Option ℤ) (file : Option (List Line)) (s : Cron) : Cron :=
  match file with
  | none => mail pid s
  | some lines => lines.foldl (readline u) s

def rm_ctevents (u : ℕ) (s : Cron) : Cron :=
  { s with
    next_event := s.next_event.filter fun e => !((s.event e).etype == CRONEVENT && (s.event e).u == u)
    usr := update s.usr u { s.usr u with ctevents := [] } }

/-- A new crontab: whether the user is known, whether the file can be accessed, and what is in it -/
structure Ctab where
  name : List Char
  pw : Bool
  stat : Bool
  pid : Option ℤ
  file : Option (List Line)

/-- A new user at the front of the list -/
def newUsr (name : List Char) (ctid : ℕ) (ctexists : Bool) (s : Cron) : Cron :=
  { s with
    brk := s.brk + 1
    usr := update s.usr s.brk ⟨name, ctid, ctexists, [], []⟩
    uhead := s.brk :: s.uhead }

def mod_ctab (c : Ctab) (s : Cron) : Cron :=
  if !c.pw then s
  else if !c.stat then mail c.pid s
  else match find_usr c.name s with
  | none => readcron s.brk c.pid c.file (newUsr c.name s.ecid true { s with ecid := s.ecid + 1 })
  | some u =>
    let s := { s with usr := update s.usr u { s.usr u with ctexists := true } }
    if (s.usr u).ctid = 0 then
      readcron u c.pid c.file { s with
        ecid := s.ecid + 1
        usr := update s.usr u { s.usr u with ctid := s.ecid, ctevents := [] } }
    else readcron u c.pid c.file (el_remove (s.usr u).ctid false (rm_ctevents u s))

def freeUsr (u : ℕ) (s : Cron) : Cron := { s with uhead := s.uhead.erase u }

def del_ctab (name : List Char) (s : Cron) : Cron :=
  match find_usr name s with
  | none => s
  | some u =>
    let s := el_remove (s.usr u).ctid false (rm_ctevents u s)
    let s := { s with usr := update s.usr u { s.usr u with ctid := 0, ctexists := false } }
    if (s.usr u).atevents = [] then freeUsr u s else s

/-! ## At jobs -/

/-- `num`, with the characters behind the number. Digits overflow a `long`. -/
def num (n : ℤ) : List Char → ℤ × List Char
  | [] => (n, [])
  | c :: cs => if c.isDigit then num ((n * 10 + (c.toNat - 48)).bmod 4294967296) cs else (n, c :: cs)

/-- The time and the queue in the name of a job -/
def jobName (name : List Char) : Option (ℤ × ℤ) :=
  match num 0 name with
  | (tim, '.' :: c :: _) => if tim ≠ 0 ∧ c.isAlpha then some (tim, c.toNat - 97) else none
  | _ => none

/-- A new at job: whether its file can be accessed and has the mode of a job, and who owns it -/
structure Job where
  name : List Char
  stat : Bool
  isuid : Bool
  owner : Option (List Char)

def add_atevent (u : ℕ) (job : List Char) (tim : ℤ) (s : Cron) : Cron :=
  let time := if tim < s.init_time then s.init_time else tim
  el_add s.brk time s.ecid { s with
    brk := s.brk + 1
    ecid := s.ecid + 1
    event := update s.event s.brk ⟨time, s.jobtype, job, u, s.ecid⟩
    usr := update s.usr u { s.usr u with atevents := s.brk :: (s.usr u).atevents } }

def mod_atjob (a : Job) (s : Cron) : Cron :=
  match jobName a.name with
  | none => s
  | some (tim, queue) =>
    let s := { s with jobtype := queue }
    if !a.stat || decide (queue ≥ NQUEUE) then s
    else if !a.isuid then s
    else match a.owner with
    | none => s
    | some owner =>
      match find_usr owner s with
      | none => add_atevent s.brk a.name tim (newUsr owner 0 false s)
      | some u =>
        if (s.usr u).atevents.any fun e => (s.event e).cmd == a.name then s
        else add_atevent u a.name tim s

/-- The event leaves the list of its user. -/
def unlinkAt (u e : ℕ) (s : Cron) : Cron :=
  { s with usr := update s.usr u { s.usr u with atevents := (s.usr u).atevents.erase e } }

def del_atjob (name usrname : List Char) (s : Cron) : Cron :=
  match find_usr usrname s with
  | none => s
  | some u =>
    let s := match (s.usr u).atevents.find? fun e => (s.event e).cmd == name with
      | none => s
      | some e =>
        el_remove (s.event e).eventid true
          (unlinkAt u e { s with next_event := s.next_event.filter fun x => x != e })
    if !(s.usr u).ctexists ∧ (s.usr u).atevents = [] then freeUsr u s else s

/-! ## Running jobs -/

/-- The notice for an event is put on the list again. -/
def readd (e : ℕ) (s : Cron) : Cron :=
  if (s.event e).etype = CRONEVENT then el_add e (s.event e).time (s.usr (s.event e).u).ctid s
  else el_add e (s.event e).time (s.event e).eventid s

def setTime (e : ℕ) (time : ℤ) (s : Cron) : Cron :=
  { s with event := update s.event e { s.event e with time := time } }

/-- `resched` for the next event `e`, where `next_time` gives `nt` -/
def resched (e : ℕ) (delay nt : ℤ) (s : Cron) : Cron :=
  let nt' := (s.event e).time + delay
  if (s.event e).etype = CRONEVENT then readd e (setTime e (if nt' < nt then nt' else nt) s)
  else add_atevent (s.event e).u (s.event e).cmd nt' s

/-- What a dispatch finds: the limits of the queues, the child of `fork`, and the results of `next_time` -/
structure Dispatch where
  njob : ℤ → ℤ
  nwait : ℤ → ℤ
  fork : Option ℤ
  again : ℤ
  next : ℤ

def freeSlot (s : Cron) : Option ℕ := (List.range MAXRUN).find? fun i => (s.rt i).pid == 0

/-- The event cannot be run now. -/
def Delayed (d : Dispatch) (e : ℕ) (s : Cron) : Prop :=
  d.njob (s.event e).etype ≤ s.nrun (s.event e).etype ∨ freeSlot s = none ∨ d.fork = none

instance (d : Dispatch) (e : ℕ) (s : Cron) : Decidable (Delayed d e s) :=
  inferInstanceAs (Decidable (_ ∨ _ ∨ _))

/-- `ex`, in the parent -/
def ex (d : Dispatch) (e : ℕ) (s : Cron) : Cron :=
  if d.njob (s.event e).etype ≤ s.nrun (s.event e).etype then
    resched e (d.nwait (s.event e).etype) d.again s
  else match freeSlot s with
  | none => resched e (d.nwait (s.event e).etype) d.again s
  | some i =>
    match d.fork with
    | none => resched e waitTime d.again s
    | some pid =>
      { s with
        nrun := update s.nrun (s.event e).etype (s.nrun (s.event e).etype + 1)
        running := s.running + 1
        children := pid :: s.children
        rt := update s.rt i ⟨pid, (s.event e).etype, (s.event e).u⟩ }

/-- The next event is run, and put on the list again or removed. -/
def expire (d : Dispatch) (e : ℕ) (s : Cron) : Cron :=
  let t := ex d e s
  let t :=
    if (t.event e).etype = CRONEVENT then
      if Delayed d e s then t else readd e (setTime e d.next t)
    else unlinkAt (t.event e).u e t
  { t with next_event := none, idle := false }

/-- What `cleanup` finds of the output of a job: no file or an empty one, one that cannot be opened, or one
that is mailed by a child, where `fork` may fail -/
inductive Output
  | quiet
  | closed (mail : Option ℤ)
  | mailed (pid : Option ℤ)

def cleanup (i : ℕ) (o : Output) (s : Cron) : Cron :=
  let s := { s with
    nrun := update s.nrun (s.rt i).que (s.nrun (s.rt i).que - 1)
    rt := update s.rt i { s.rt i with pid := 0 }
    running := s.running - 1 }
  match o with
  | .quiet => s
  | .closed pid => mail pid s
  | .mailed pid =>
    { s with
      rt := update s.rt i { s.rt i with pid := pid.getD (-1), que := ZOMB }
      running := s.running + 1
      children := pid.toList ++ s.children }

/-- `wait` in `idle` has given a child. -/
def waited (pid : ℤ) (o : Output) (s : Cron) : Cron :=
  let s := { s with children := s.children.erase pid }
  match (List.range MAXRUN).find? fun i => (s.rt i).pid == pid with
  | none => { s with running := s.running - 1 }
  | some i =>
    if (s.rt i).que = ZOMB then
      { s with running := s.running - 1, rt := update s.rt i { s.rt i with pid := 0 } }
    else cleanup i o s

/-! ## The main loop -/

inductive Message
  | addAt (a : Job)
  | delAt (fname logname : List Char)
  | addCron (c : Ctab)
  | delCron (fname : List Char)
  | other

def handle (m : Message) (s : Cron) : Cron :=
  match m with
  | .addAt a => mod_atjob a s
  | .delAt fname logname => del_atjob fname logname s
  | .addCron c => mod_ctab c s
  | .delCron fname => del_ctab fname s
  | .other => s

/-- `msg_wait` has read a message: the next event goes back to the list. -/
def message (m : Message) (s : Cron) : Cron :=
  let s := handle m s
  let s := match s.next_event with
    | none => s
    | some e => { readd e s with next_event := none }
  { s with idle := false }

/-- What `initialize` reads at `now` -/
structure Dirs where
  now : ℤ
  ctabs : List Ctab
  jobs : List Job

/-- The directories are read. Users and events from before are forgotten. -/
def initialize_ (d : Dirs) (s : Cron) : Cron :=
  let s := { s with init_time := d.now, el := [], uhead := [], next_event := none }
  d.jobs.foldl (fun s a => mod_atjob a s) (d.ctabs.foldl (fun s c => mod_ctab c s) s)

/-- The head of the loop: the first event is the next one, if there was none. -/
def pick (s : Cron) : Cron :=
  match s.next_event, s.el with
  | none, n :: l => { s with next_event := some n.event, el := l, idle := true }
  | _, _ => { s with idle := true }

inductive Act
  | loop
  | reset (d : Dirs)
  | wait (pid : ℤ) (o : Output)
  | message (m : Message)
  | interrupt
  | expire (d : Dispatch)

/-- A step of the daemon. The clock may be found set at the head of the loop; `interrupt` is a read that fails. -/
def step (s : Cron) : Act → Option Cron
  | .loop => if s.idle then none else some (pick s)
  | .reset d => if s.idle then none else some (pick (initialize_ d s))
  | .wait pid o => if s.idle ∧ pid ∈ s.children then some (waited pid o s) else none
  | .message m => if s.idle then some (message m s) else none
  | .interrupt => if s.idle then some { s with idle := false } else none
  | .expire d =>
    match s.idle, s.next_event with
    | true, some e => some (expire d e s)
    | _, _ => none

def Step (s : Cron) (a : Act) (t : Cron) : Prop := step s a = some t

/-- The daemon before it reads its directories -/
def empty : Cron where
  usr := fun _ => ⟨[], 0, false, [], []⟩
  event := fun _ => ⟨0, 0, [], 0, 0⟩
  brk := 0
  uhead := []
  el := []
  init_time := 0
  next_event := none
  rt := fun _ => ⟨0, 0, 0⟩
  nrun := fun _ => 0
  jobtype := 0
  ecid := 1
  running := 0
  children := []
  idle := false

/-- The daemon at the start of its main loop -/
def start (d : Dirs) : Cron := initialize_ d empty

end Svr3.Crond
