import Svr3.Lib.Run
import Svr3.Io.Sem
import Mathlib.Algebra.Group.Int.Defs

/-!
# Semaphore sets

The sets share the array `sem[]`, each from its `sem_base` on; `semop` works on the part from there
on, by numbers that only its first look at the operations holds against `sem_nsems`. `semctl`
removes or resets a set and its undo entries, and `semexit` adjusts the semaphores by those of a
process.
-/

namespace Svr3.Ipc

open Function

/-- The tunables with the most semaphores in a set, whose numbers are `short` in undo entries. -/
structure Semconf extends Seminfo where
  semmsl : ℕ
  semmsl_le : semmsl ≤ 32767
  semvmx_nonneg : 0 ≤ semvmx

/-- The values of `cf/config.h`. -/
def semconf : Semconf :=
  { seminfo with semmsl := 25, semmsl_le := by decide, semvmx_nonneg := by decide }

/-- The process that calls, and the time. -/
structure Cred where
  u_uid : UInt16
  u_gid : UInt16
  p : ℕ
  p_pid : Int16
  time : ℤ

/-- What processes sleep on, by the index in `sem[]`. -/
inductive AChan
  | semncnt (a : ℕ)
  | semzcnt (a : ℕ)

def Chan.at (base : ℕ) : Chan → AChan
  | .semncnt num => .semncnt (base + num.toNat)
  | .semzcnt num => .semzcnt (base + num.toNat)

/-- `sem[]`, the headers `sema[]` with their `sem_base` and `sem_otime`, the undo structures and
their chains, and the calls of `wakeup`, the last one first. -/
structure Kernel where
  sem : ℕ → Sem
  sema : ℕ → SemidDs
  sem_base : ℕ → ℕ
  sem_otime : ℕ → ℤ
  sem_undo : ℕ → Option ℕ
  un_ent : ℕ → List Undo
  semunp : List ℕ
  semfup : List ℕ
  woken : List AChan

namespace Kernel

variable (k : Kernel)

def env (c : Cred) : Env := ⟨k.sema, c.u_uid, c.u_gid, c.p, c.p_pid, c.time⟩

/-- `sem[]` from `base` on, as `semop` sees it for set `i`. -/
def view (i base : ℕ) : Sys :=
  ⟨fun num => k.sem (base + num.toNat), k.sem_otime i, k.sem_undo, k.un_ent, k.semunp, k.semfup, []⟩

/-- What `semop` did in this view. -/
def put (i base : ℕ) (s : Sys) : Kernel :=
  { k with
    sem := fun a =>
      if base ≤ a ∧ a < base + 65536 then s.sem (UInt16.ofNat (a - base)) else k.sem a
    sem_otime := update k.sem_otime i s.sem_otime
    sem_undo := s.sem_undo
    un_ent := s.un_ent
    semunp := s.semunp
    semfup := s.semfup
    woken := s.woken.map (Chan.at base) ++ k.woken }

def setSem (a : ℕ) (semp : Sem) : Kernel := { k with sem := update k.sem a semp }

def wakeup (c : AChan) : Kernel := { k with woken := c :: k.woken }

def setHeader (i : ℕ) (sp : SemidDs) : Kernel := { k with sema := update k.sema i sp }

end Kernel

/-- The index in `sema[]` of the set `id`. -/
def slot (conf : Semconf) (id : ℤ) : ℕ := id.toNat % conf.semmni

/-- `semconv(id)` does not look at the process. -/
def Kernel.conv (conf : Semconf) (k : Kernel) (id : ℤ) : Option SemidDs :=
  semconv conf.toSeminfo (k.env ⟨0, 0, 0, 0, 0⟩) id

/-! ## Undo entries -/

/-- The inner loop of `semunrm`. -/
def unrm (id : ℤ) (low high : UInt16) : List Undo → List Undo
  | [] => []
  | e :: es =>
    if id < e.un_id then e :: es
    else if e.un_id < id ∨ e.un_num.toInt < low.toNat then e :: unrm id low high es
    else if (high.toNat : ℤ) < e.un_num.toInt then e :: es
    else unrm id low high es

/-- The loop of `semunrm` over the chain: what is left of it, and the entries. -/
def unrmLoop (id : ℤ) (low high : UInt16) : List ℕ → (ℕ → List Undo) → List ℕ × (ℕ → List Undo)
  | [], ent => ([], ent)
  | p :: ps, ent =>
    let es := unrm id low high (ent p)
    let r := unrmLoop id low high ps (update ent p es)
    (if es.isEmpty then r.1 else p :: r.1, r.2)

/-- `semunrm(id, low, high)` -/
def semunrm (id : ℤ) (low high : UInt16) (k : Kernel) : Kernel :=
  let r := unrmLoop id low high k.semunp k.un_ent
  { k with semunp := r.1, un_ent := r.2 }

/-- One turn of the loop of `semexit`. -/
def exitEntry (conf : Semconf) (e : Undo) (k : Kernel) : Kernel :=
  match k.conv conf e.un_id with
  | none => k
  | some _ =>
    let a := (k.sem_base (slot conf e.un_id) + e.un_num.toInt).toNat
    let v := (k.sem a).semval.toNat + e.un_aoe.toInt
    if v < 0 ∨ conf.semvmx < v then k
    else
      let k := k.setSem a { k.sem a with semval := UInt16.ofInt v }
      let k :=
        if v = 0 ∧ (k.sem a).semzcnt ≠ 0 then
          (k.setSem a { k.sem a with semzcnt := 0 }).wakeup (.semzcnt a)
        else k
      if 0 < e.un_aoe.toInt ∧ (k.sem a).semncnt ≠ 0 then
        (k.setSem a { k.sem a with semncnt := 0 }).wakeup (.semncnt a)
      else k

/-- The loop of `semexit`, with the entries in the order in which it takes them. -/
def exitLoop (conf : Semconf) : List Undo → Kernel → Kernel
  | [], k => k
  | e :: es, k => exitLoop conf es (exitEntry conf e k)

/-- `semexit()` in process `p` -/
def semexit (conf : Semconf) (p : ℕ) (k : Kernel) : Kernel :=
  match k.sem_undo p with
  | none => k
  | some up =>
    let es := k.un_ent up
    let k :=
      if es.isEmpty then k
      else
        let k := exitLoop conf es.reverse k
        { k with un_ent := update k.un_ent up [], semunp := k.semunp.erase up }
    { k with semfup := up :: k.semfup, sem_undo := update k.sem_undo p none }

/-! ## `semctl` and `semget` -/

/-- Owner, creator, or super user. -/
def mayChange (c : Cred) (p : IpcPerm) : Bool :=
  c.u_uid = p.uid || c.u_uid = p.cuid || c.u_uid = 0

/-- `semval = sempid = 0`, and the processes that wait for the semaphore are woken. -/
def clearSem (a : ℕ) (k : Kernel) : Kernel :=
  let k := k.setSem a { k.sem a with semval := 0, sempid := 0 }
  let k :=
    if (k.sem a).semncnt = 0 then k
    else (k.wakeup (.semncnt a)).setSem a { k.sem a with semncnt := 0 }
  if (k.sem a).semzcnt = 0 then k
  else (k.wakeup (.semzcnt a)).setSem a { k.sem a with semzcnt := 0 }

/-- `n` semaphores from `a` on. -/
def clearSems : ℕ → ℕ → Kernel → Kernel
  | _, 0, k => k
  | a, n + 1, k => clearSems (a + 1) n (clearSem a k)

/-- `semctl(semid, ..., IPC_RMID)` -/
def semrmid (conf : Semconf) (c : Cred) (semid : ℤ) (k : Kernel) : Option Errno × Kernel :=
  match k.conv conf semid with
  | none => (some .EINVAL, k)
  | some sp =>
    if !mayChange c sp.sem_perm then (some .EPERM, k)
    else
      let i := slot conf semid
      let k := semunrm semid 0 sp.sem_nsems k
      let k := clearSems (k.sem_base i) sp.sem_nsems.toNat k
      let seq := if 2 ^ 31 ≤ semid + conf.semmni then 0 else sp.sem_perm.seq + 1
      (none, k.setHeader i { sp with sem_perm := { sp.sem_perm with seq := seq, mode := 0 } })

/-- `semctl(semid, ..., IPC_SET, &ds)`, where `ds` can be read or not. -/
def semset (conf : Semconf) (c : Cred) (semid : ℤ) (ds : Option IpcPerm) (k : Kernel) :
    Option Errno × Kernel :=
  match k.conv conf semid with
  | none => (some .EINVAL, k)
  | some sp =>
    if !mayChange c sp.sem_perm then (some .EPERM, k)
    else
      match ds with
      | none => (some .EFAULT, k)
      | some d =>
        (none, k.setHeader (slot conf semid) { sp with sem_perm := { sp.sem_perm with
          uid := d.uid, gid := d.gid, mode := d.mode &&& 0o777 ||| 0o100000 } })

/-- `semval = v`, and the processes that may go on are woken. -/
def assign (a : ℕ) (v : UInt16) (k : Kernel) : Kernel :=
  let k := k.setSem a { k.sem a with semval := v }
  if v ≠ 0 then
    if (k.sem a).semncnt = 0 then k
    else (k.setSem a { k.sem a with semncnt := 0 }).wakeup (.semncnt a)
  else if (k.sem a).semzcnt = 0 then k
  else (k.setSem a { k.sem a with semzcnt := 0 }).wakeup (.semzcnt a)

def setPidAt (a : ℕ) (pid : Int16) (k : Kernel) : Kernel := k.setSem a { k.sem a with sempid := pid }

/-- `semctl(semid, semnum, SETVAL, arg)` -/
def setval (conf : Semconf) (c : Cred) (semid : ℤ) (semnum : ℕ) (arg : ℤ) (k : Kernel) :
    Option Errno × Kernel :=
  match k.conv conf semid with
  | none => (some .EINVAL, k)
  | some sp =>
    if !ipcaccess (k.env c) sp.sem_perm 0o200 then (some .EACCES, k)
    else if sp.sem_nsems.toNat ≤ semnum then (some .EINVAL, k)
    else if arg < 0 ∨ conf.semvmx < arg then (some .ERANGE, k)
    else
      let a := k.sem_base (slot conf semid) + semnum
      let k := setPidAt a c.p_pid (assign a (UInt16.ofInt arg) k)
      (none, semunrm semid (UInt16.ofNat semnum) (UInt16.ofNat semnum) k)

/-- The last loop of SETALL. -/
def assignAll (pid : Int16) : ℕ → List UInt16 → Kernel → Kernel
  | _, [], k => k
  | a, v :: vs, k => assignAll pid (a + 1) vs (setPidAt a pid (assign a v k))

/-- `semctl(semid, ..., SETALL, arg)`, where `arg` points to `semvals` if it can be read. -/
def setall (conf : Semconf) (c : Cred) (semid : ℤ) (semvals : Option (ℕ → UInt16)) (k : Kernel) :
    Option Errno × Kernel :=
  match k.conv conf semid with
  | none => (some .EINVAL, k)
  | some sp =>
    if !ipcaccess (k.env c) sp.sem_perm 0o200 then (some .EACCES, k)
    else
      match semvals with
      | none => (some .EFAULT, k)
      | some vals =>
        let vs := (List.range sp.sem_nsems.toNat).map vals
        if vs.any fun v => conf.semvmx < v.toNat then (some .ERANGE, k)
        else
          (none, assignAll c.p_pid (k.sem_base (slot conf semid)) vs
            (semunrm semid 0 sp.sem_nsems k))

/-- The end of `semget`, for a new set in slot `i` with the permissions that `ipcget` gave it;
`malloc(semmap, nsems)` gives `base` or fails. -/
def semgetNew (conf : Semconf) (i : ℕ) (perm : IpcPerm) (nsems : ℤ) (base : Option ℕ) (k : Kernel) :
    Option Errno × Kernel :=
  let k := k.setHeader i { k.sema i with sem_perm := perm }
  let fail := k.setHeader i { k.sema i with sem_perm := { perm with mode := 0 } }
  if nsems ≤ 0 ∨ conf.semmsl < nsems then (some .EINVAL, fail)
  else
    match base with
    | none => (some .ENOSPC, fail)
    | some b =>
      let k := k.setHeader i { k.sema i with sem_nsems := UInt16.ofInt nsems }
      (none, { k with
        sem_base := update k.sem_base i b
        sem_otime := update k.sem_otime i 0 })

/-! ## Processes -/

/-- A process asleep in `semop`: its set, where its semaphores were, what it sleeps on, and the
operations that were looked at in the beginning. -/
structure Asleep where
  semid : ℤ
  base : ℕ
  chan : Chan
  verified : List Sembuf

structure State where
  k : Kernel
  proc : ℕ → Option Asleep

/-- `semop` in process `c.p`. After a sleep that a signal cut short it counts down by the pointer
that it slept on; else it works from `sem_base` on. -/
def ksemop (conf : Semconf) (c : Cred) (uap : Args) (entry : Entry) (s : State) : Out × State :=
  let i := slot conf uap.semid
  let base :=
    match entry, s.proc c.p with
    | .signal _, some a => a.base
    | _, _ => s.k.sem_base i
  let r := semop conf.toSeminfo (s.k.env c) uap (s.k.view i base) entry
  let verified :=
    match s.proc c.p with
    | none => uap.sops
    | some a => a.verified
  let proc :=
    match r.1 with
    | .sleep chan => some ⟨uap.semid, base, chan, verified⟩
    | _ => none
  (r.1, ⟨s.k.put i base r.2, update s.proc c.p proc⟩)

inductive Act
  | semop (c : Cred) (uap : Args) (entry : Entry)
  | rmid (c : Cred) (semid : ℤ)
  | set (c : Cred) (semid : ℤ) (ds : Option IpcPerm)
  | setval (c : Cred) (semid : ℤ) (semnum : ℕ) (arg : ℤ)
  | setall (c : Cred) (semid : ℤ) (semvals : Option (ℕ → UInt16))
  | semget (i : ℕ) (perm : IpcPerm) (nsems : ℤ) (base : Option ℕ)
  | exit (p : ℕ)

/-- The set `i` is there. -/
def Kernel.Alloc (k : Kernel) (i : ℕ) : Prop := (k.sema i).sem_perm.mode &&& 0o100000 ≠ 0

instance (k : Kernel) (i : ℕ) : Decidable (k.Alloc i) := inferInstanceAs (Decidable (_ ≠ _))

/-- What can come next. The operations that `uap->sops` points to may be others after a sleep, but as
many. `ipcget` gives a slot that is not in use and keeps its sequence number, and
`malloc(semmap, nsems)` gives semaphores that are in no set. -/
def Can (conf : Semconf) (s : State) : Act → Prop
  | .semop c _ .call => s.proc c.p = none
  | .semop c uap .wakeup => ∃ a, s.proc c.p = some a ∧ a.semid = uap.semid ∧
      a.verified.length = uap.sops.length
  | .semop c uap (.signal chan) => ∃ a, s.proc c.p = some a ∧ a.semid = uap.semid ∧ a.chan = chan
  | .semget i perm nsems base => i < conf.semmni ∧ ¬ s.k.Alloc i ∧ perm.mode &&& 0o100000 ≠ 0 ∧
      perm.seq = (s.k.sema i).sem_perm.seq ∧ ∀ b ∈ base, ∀ j < conf.semmni, s.k.Alloc j →
        b + nsems.toNat ≤ s.k.sem_base j ∨
          s.k.sem_base j + (s.k.sema j).sem_nsems.toNat ≤ b
  | .exit p => s.proc p = none
  | _ => True

def next (conf : Semconf) (s : State) : Act → State
  | .semop c uap entry => (ksemop conf c uap entry s).2
  | .rmid c semid => { s with k := (semrmid conf c semid s.k).2 }
  | .set c semid ds => { s with k := (semset conf c semid ds s.k).2 }
  | .setval c semid semnum arg => { s with k := (setval conf c semid semnum arg s.k).2 }
  | .setall c semid semvals => { s with k := (setall conf c semid semvals s.k).2 }
  | .semget i perm nsems base => { s with k := (semgetNew conf i perm nsems base s.k).2 }
  | .exit p => { s with k := semexit conf p s.k }

def Kstep (conf : Semconf) (s : State) (a : Act) (t : State) : Prop := Can conf s a ∧ t = next conf s a

/-- After `seminit`: no set, and `semmnu` undo structures on the free chain. -/
def seminit (semmnu : ℕ) : State where
  k := {
    sem := fun _ => ⟨0, 0, 0, 0⟩
    sema := fun _ => ⟨⟨0, 0, 0, 0, 0, 0⟩, 0⟩
    sem_base := fun _ => 0
    sem_otime := fun _ => 0
    sem_undo := fun _ => none
    un_ent := fun _ => []
    semunp := []
    semfup := List.range semmnu
    woken := [] }
  proc := fun _ => none

end Svr3.Ipc
