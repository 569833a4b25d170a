import Mathlib.Data.List.TakeWhile
import Mathlib.Tactic.Common
import Mathlib.Algebra.Group.Nat.Defs

/-!
# Semaphore operations of `io/sem.c`

`semop` carries out the operations of a list one by one in place, and undoes them in reverse when
one of them fails or has to wait. An operation with `SEM_UNDO` also enters its value, negated, in
the table of the process by which `semexit` adjusts the semaphores.
-/

namespace Svr3.Ipc

open List

/-- The tunables. Semaphore values are `ushort`, and adjust values are `short`: when one of at most
`semaem` is subtracted from another, a wrap is still out of bounds. -/
structure Seminfo where
  semmni : ℕ
  semopm : ℕ
  semume : ℕ
  semvmx : ℤ
  semaem : ℤ
  semvmx_le : semvmx ≤ 65535
  semaem_le : semaem ≤ 21845

/-- The values of `cf/config.h`. -/
def seminfo : Seminfo := ⟨10, 10, 10, 32767, 16384, by decide, by decide⟩

inductive Errno
  | E2BIG
  | EACCES
  | EAGAIN
  | EFAULT
  | EFBIG
  | EIDRM
  | EINTR
  | EINVAL
  | ENOSPC
  | EPERM
  | ERANGE
deriving DecidableEq, Repr

structure Sem where
  semval : UInt16
  sempid : Int16
  semncnt : UInt16
  semzcnt : UInt16

structure Sembuf where
  sem_num : UInt16
  sem_op : Int16
  sem_flg : Int16

/-- `op->sem_flg & SEM_UNDO` -/
def Sembuf.undo (op : Sembuf) : Bool := op.sem_flg &&& 0o10000 ≠ 0

/-- `op->sem_flg & IPC_NOWAIT` -/
def Sembuf.nowait (op : Sembuf) : Bool := op.sem_flg &&& 0o4000 ≠ 0

/-- `struct undo` -/
structure Undo where
  un_aoe : Int16
  un_num : Int16
  un_id : ℤ

/-- What processes sleep on: `&semp->semncnt` or `&semp->semzcnt`. -/
inductive Chan
  | semncnt (num : UInt16)
  | semzcnt (num : UInt16)
deriving DecidableEq

/-- The semaphores of a set, counted from `sem_base`; the undo structure of each process slot, the
entries of each undo structure, the chain of those in use and the free chain; and the calls of
`wakeup`, the last one first. -/
structure Sys where
  sem : UInt16 → Sem
  sem_otime : ℤ
  sem_undo : ℕ → Option ℕ
  un_ent : ℕ → List Undo
  semunp : List ℕ
  semfup : List ℕ
  woken : List Chan

/-! ## Adjust on exit -/

/-- `uup->un_id < id || (uup->un_id == id && uup->un_num < num)` -/
def Undo.before (e : Undo) (id : ℤ) (num : Int16) : Bool :=
  e.un_id < id || (e.un_id = id && e.un_num < num)

/-- The search of `semaoe` in the entries of an undo structure and what follows it, `cnt` being
`un_cnt`: the error, and the entries. -/
def adjust (info : Seminfo) (cnt : ℕ) (val : Int16) (id : ℤ) (num : Int16) :
    List Undo → Option Errno × List Undo
  | [] => if info.semume ≤ cnt then (some .EINVAL, []) else (none, [⟨-val, num, id⟩])
  | e :: es =>
    if e.before id num then
      ((adjust info cnt val id num es).1, e :: (adjust info cnt val id num es).2)
    else if e.un_id = id ∧ e.un_num = num then
      let aoe := e.un_aoe - val
      if info.semaem < aoe.toInt ∨ aoe.toInt < -info.semaem then
        (some .ERANGE, { e with un_aoe := aoe + val } :: es)
      else if aoe = 0 then (none, es)
      else (none, { e with un_aoe := aoe } :: es)
    else if info.semume ≤ cnt then (some .EINVAL, e :: es)
    else (none, ⟨-val, num, id⟩ :: e :: es)

/-- The undo structure of process `p`, taken from the free chain when it has none. -/
def getUndo (p : ℕ) (s : Sys) : Option (ℕ × Sys) :=
  match s.sem_undo p with
  | some up => some (up, s)
  | none =>
    match s.semfup with
    | [] => none
    | up :: rest =>
      some (up, { s with semfup := rest, sem_undo := Function.update s.sem_undo p (some up) })

/-- The chain of the structures in use, when the entries of `up` change. -/
def chain (up : ℕ) (old new : List Undo) (semunp : List ℕ) : List ℕ :=
  if old = [] ∧ new ≠ [] then up :: semunp
  else if old ≠ [] ∧ new = [] then semunp.erase up
  else semunp

/-- `semaoe(val, id, num)` in process `p`: the error, or `none` for 0. -/
def semaoe (info : Seminfo) (p : ℕ) (val : Int16) (id : ℤ) (num : Int16) (s : Sys) :
    Option Errno × Sys :=
  if val = 0 then (none, s)
  else if info.semaem < val.toInt ∨ val.toInt < -info.semaem then (some .ERANGE, s)
  else
    match getUndo p s with
    | none => (some .ENOSPC, s)
    | some (up, s) =>
      let r := adjust info (s.un_ent up).length val id num (s.un_ent up)
      (r.1, { s with un_ent := Function.update s.un_ent up r.2,
                     semunp := chain up (s.un_ent up) r.2 s.semunp })

/-! ## The operations -/

/-- Where one turn of the loop of `semop` leads: to the next operation, to an error, or to a wait. -/
inductive Res
  | cont
  | err (e : Errno)
  | wait (c : Chan)

def setSem (num : UInt16) (semp : Sem) (s : Sys) : Sys :=
  { s with sem := Function.update s.sem num semp }

def wakeup (c : Chan) (s : Sys) : Sys := { s with woken := c :: s.woken }

/-- `semp->semval += val` -/
def addVal (num : UInt16) (val : Int16) (s : Sys) : Sys :=
  setSem num { s.sem num with semval := (s.sem num).semval + val.toUInt16 } s

/-- `if (semp->semncnt) { semp->semncnt = 0; wakeup(&semp->semncnt); }` -/
def wakeNcnt (num : UInt16) (s : Sys) : Sys :=
  if (s.sem num).semncnt = 0 then s
  else wakeup (.semncnt num) (setSem num { s.sem num with semncnt := 0 } s)

/-- `if (semp->semzcnt && !semp->semval) { semp->semzcnt = 0; wakeup(&semp->semzcnt); }` -/
def wakeZcnt (num : UInt16) (s : Sys) : Sys :=
  if (s.sem num).semzcnt = 0 ∨ (s.sem num).semval ≠ 0 then s
  else wakeup (.semzcnt num) (setSem num { s.sem num with semzcnt := 0 } s)

/-- `op->sem_flg & SEM_UNDO && semaoe(op->sem_op, uap->semid, op->sem_num)` -/
def tryUndo (info : Seminfo) (p : ℕ) (id : ℤ) (op : Sembuf) (s : Sys) : Option Errno × Sys :=
  if op.undo then semaoe info p op.sem_op id op.sem_num.toInt16 s else (none, s)

/-- One turn of the loop of `semop`, up to where it calls `semundo`. -/
def doOp (info : Seminfo) (p : ℕ) (id : ℤ) (op : Sembuf) (s : Sys) : Res × Sys :=
  let num := op.sem_num
  if 0 < op.sem_op.toInt then
    if info.semvmx < op.sem_op.toInt + (s.sem num).semval.toNat then (.err .ERANGE, s)
    else
      match tryUndo info p id op s with
      | (some e, s) => (.err e, s)
      | (none, s) => (.cont, wakeZcnt num (wakeNcnt num (addVal num op.sem_op s)))
  else if op.sem_op.toInt < 0 then
    if -op.sem_op.toInt ≤ (s.sem num).semval.toNat then
      match tryUndo info p id op s with
      | (some e, s) => (.err e, s)
      | (none, s) => (.cont, wakeZcnt num (addVal num op.sem_op s))
    else (.wait (.semncnt num), s)
  else if (s.sem num).semval ≠ 0 then (.wait (.semzcnt num), s)
  else (.cont, s)

/-- One turn of the loop of `semundo`. -/
def undoOp (info : Seminfo) (p : ℕ) (id : ℤ) (op : Sembuf) (s : Sys) : Sys :=
  if op.sem_op = 0 then s
  else
    let s := addVal op.sem_num (-op.sem_op) s
    if op.undo then (semaoe info p (-op.sem_op) id op.sem_num.toInt16 s).2 else s

/-- `semundo` on the operations that were done, the last one first. -/
def semundo (info : Seminfo) (p : ℕ) (id : ℤ) : List Sembuf → Sys → Sys
  | [], s => s
  | op :: ops, s => semundo info p id ops (undoOp info p id op s)

/-- How `semop` gives up control. -/
inductive Out
  | done
  | err (e : Errno)
  | sleep (c : Chan)
deriving DecidableEq

/-- `semp->semncnt++` or `semp->semzcnt++` before the sleep. -/
def countWaiter (c : Chan) (s : Sys) : Sys :=
  match c with
  | .semncnt num => setSem num { s.sem num with semncnt := (s.sem num).semncnt + 1 } s
  | .semzcnt num => setSem num { s.sem num with semzcnt := (s.sem num).semzcnt + 1 } s

/-- The loop of `semop`: `done` are the operations that were done, the last one first. -/
def pass (info : Seminfo) (p : ℕ) (id : ℤ) : List Sembuf → List Sembuf → Sys → Out × Sys
  | _, [], s => (.done, s)
  | done, op :: ops, s =>
    match doOp info p id op s with
    | (.cont, s) => pass info p id (op :: done) ops s
    | (.err e, s) => (.err e, semundo info p id done s)
    | (.wait c, s) =>
      let s := semundo info p id done s
      if op.nowait then (.err .EAGAIN, s) else (.sleep c, countWaiter c s)

/-! ## The system call -/

structure IpcPerm where
  uid : UInt16
  gid : UInt16
  cuid : UInt16
  cgid : UInt16
  mode : UInt16
  seq : UInt16

structure SemidDs where
  sem_perm : IpcPerm
  sem_nsems : UInt16

/-- What `semop` reads beside the semaphores: the headers of the sets, the process, and the time. -/
structure Env where
  sema : ℕ → SemidDs
  u_uid : UInt16
  u_gid : UInt16
  p : ℕ
  p_pid : Int16
  time : ℤ

/-- The arguments, with the operations that `uap->sops` points to, if it can be read. -/
structure Args where
  semid : ℤ
  sops : List Sembuf
  readable : Bool

/-- `semconv(s)` -/
def semconv (info : Seminfo) (env : Env) (s : ℤ) : Option SemidDs :=
  if s < 0 then none
  else
    let sp := env.sema (s.toNat % info.semmni)
    if sp.sem_perm.mode &&& 0o100000 = 0 ∨ s.toNat / info.semmni ≠ sp.sem_perm.seq.toNat then none
    else some sp

/-- `ipcaccess(p, mode)` succeeds. -/
def ipcaccess (env : Env) (p : IpcPerm) (mode : UInt16) : Bool :=
  if env.u_uid = 0 then true
  else
    let mode :=
      if env.u_uid ≠ p.uid ∧ env.u_uid ≠ p.cuid then
        if env.u_gid ≠ p.gid ∧ env.u_gid ≠ p.cgid then mode >>> 3 >>> 3 else mode >>> 3
      else mode
    mode &&& p.mode ≠ 0

/-- "Verify that sem #s are in range and permissions are granted." -/
def verify (env : Env) (sp : SemidDs) : List Sembuf → Option Errno
  | [] => none
  | op :: ops =>
    if !ipcaccess env sp.sem_perm (if op.sem_op ≠ 0 then 0o200 else 0o400) then some .EACCES
    else if sp.sem_nsems ≤ op.sem_num then some .EFBIG
    else verify env sp ops

/-- "All operations succeeded. Update sempid for accessed semaphores." -/
def setPid (pid : Int16) : List Sembuf → Sys → Sys
  | [], s => s
  | op :: ops, s => setPid pid ops (setSem op.sem_num { s.sem op.sem_num with sempid := pid } s)

/-- The label `check`, after the operations were copied in. -/
def body (info : Seminfo) (env : Env) (uap : Args) (s : Sys) : Out × Sys :=
  match pass info env.p uap.semid [] uap.sops s with
  | (.done, s) => (.done, { setPid env.p_pid uap.sops s with sem_otime := env.time })
  | r => r

/-- `if ((semp->semncnt)-- <= 1) { semp->semncnt = 0; wakeup(&semp->semncnt); }`, or the same for
`semzcnt`, after an interrupted sleep. -/
def uncountWaiter (c : Chan) (s : Sys) : Sys :=
  match c with
  | .semncnt num =>
    let n := (s.sem num).semncnt
    if n ≤ 1 then wakeup c (setSem num { s.sem num with semncnt := 0 } s)
    else setSem num { s.sem num with semncnt := n - 1 } s
  | .semzcnt num =>
    let n := (s.sem num).semzcnt
    if n ≤ 1 then wakeup c (setSem num { s.sem num with semzcnt := 0 } s)
    else setSem num { s.sem num with semzcnt := n - 1 } s

/-- How control comes to `semop`: by the call, from a sleep, or from a sleep that a signal cut
short. -/
inductive Entry
  | call
  | wakeup
  | signal (c : Chan)

/-- `semop` from where control comes to it up to where it gives it up. -/
def semop (info : Seminfo) (env : Env) (uap : Args) (s : Sys) : Entry → Out × Sys
  | .call =>
    match semconv info env uap.semid with
    | none => (.err .EINVAL, s)
    | some sp =>
      if info.semopm < uap.sops.length then (.err .E2BIG, s)
      else if !uap.readable then (.err .EFAULT, s)
      else
        match verify env sp uap.sops with
        | some e => (.err e, s)
        | none => body info env uap s
  | .wakeup =>
    match semconv info env uap.semid with
    | none => (.err .EIDRM, s)
    | some _ => if !uap.readable then (.err .EFAULT, s) else body info env uap s
  | .signal c => (.err .EINTR, uncountWaiter c s)

/-! ## The table of a process -/

/-- The adjust value of semaphore `num` of set `id`. -/
def adjOf (id : ℤ) (num : Int16) : List Undo → ℤ
  | [] => 0
  | e :: es => if e.un_id = id ∧ e.un_num = num then e.un_aoe.toInt else adjOf id num es

/-- The entries of an undo structure: sorted, in bounds, and none of them 0. -/
structure Table (info : Seminfo) (es : List Undo) : Prop where
  sorted : es.Pairwise fun a b => a.before b.un_id b.un_num = true
  bounded : ∀ e ∈ es, e.un_aoe ≠ 0 ∧ -info.semaem ≤ e.un_aoe.toInt ∧ e.un_aoe.toInt ≤ info.semaem
  length : es.length ≤ info.semume

section Adjust

variable {info : Seminfo} {cnt : ℕ} {val : Int16} {id : ℤ} {num : Int16} {es fs : List Undo}

theorem Undo.before_iff {e : Undo} : e.before id num = true ↔
    e.un_id < id ∨ e.un_id = id ∧ e.un_num.toInt < num.toInt := by
  simp [Undo.before, Int16.lt_iff_toInt_lt]

theorem bmod_short (x : ℤ) :
    x.bmod (2 ^ 16) = if x % 65536 < 32768 then x % 65536 else x % 65536 - 65536 :=
  Int.bmod_def x (2 ^ 16)

/-- A difference of `short`s that is in bounds has not wrapped. -/
theorem Seminfo.sub_toInt (info : Seminfo) {a b : Int16}
    (ha : -info.semaem ≤ a.toInt ∧ a.toInt ≤ info.semaem)
    (hb : -info.semaem ≤ b.toInt ∧ b.toInt ≤ info.semaem)
    (hc : -info.semaem ≤ (a - b).toInt ∧ (a - b).toInt ≤ info.semaem) :
    (a - b).toInt = a.toInt - b.toInt := by
  have hm := info.semaem_le
  rw [Int16.toInt_sub, bmod_short] at hc ⊢
  omega

theorem Seminfo.neg_toInt (info : Seminfo) {a : Int16}
    (ha : -info.semaem ≤ a.toInt ∧ a.toInt ≤ info.semaem) : (-a).toInt = -a.toInt := by
  have hm := info.semaem_le
  rw [Int16.toInt_neg, bmod_short]
  omega

theorem adjust_error {e : Errno} (h : adjust info cnt val id num es = (some e, fs)) : fs = es := by
  induction es generalizing fs with
  | nil =>
    simp only [adjust] at h
    split at h <;> simp_all
  | cons a es ih =>
    simp only [adjust] at h
    split at h
    · obtain ⟨h1, rfl⟩ := Prod.mk.inj h
      have htail : (adjust info cnt val id num es).2 = es := ih (Prod.ext h1 rfl)
      rw [htail]
    · split at h
      · split at h
        · obtain ⟨-, rfl⟩ := Prod.mk.inj h
          simp
        · split at h <;> simp at h
      · split at h <;> simp_all

theorem adjust_append {bs : List Undo} (h : ∀ b ∈ bs, b.before id num = true) :
    adjust info cnt val id num (bs ++ es) =
      ((adjust info cnt val id num es).1, bs ++ (adjust info cnt val id num es).2) := by
  induction bs with
  | nil => rfl
  | cons b bs ih =>
    rw [cons_append, adjust, if_pos (h b (by simp)), ih fun c hc => h c (by simp [hc])]
    rfl

/-- What `adjust` does to the entries when it succeeds. -/
inductive Adjusted (info : Seminfo) (cnt : ℕ) (val : Int16) (id : ℤ) (num : Int16) :
    List Undo → List Undo → Prop
  | insert {bs cs : List Undo} : (∀ b ∈ bs, b.before id num = true) →
      (∀ c ∈ cs.head?, ¬ c.before id num = true ∧ ¬ (c.un_id = id ∧ c.un_num = num)) →
      cnt < info.semume → Adjusted info cnt val id num (bs ++ cs) (bs ++ ⟨-val, num, id⟩ :: cs)
  | update {bs cs : List Undo} {aoe : Int16} : (∀ b ∈ bs, b.before id num = true) →
      -info.semaem ≤ (aoe - val).toInt ∧ (aoe - val).toInt ≤ info.semaem → aoe - val ≠ 0 →
      Adjusted info cnt val id num (bs ++ ⟨aoe, num, id⟩ :: cs) (bs ++ ⟨aoe - val, num, id⟩ :: cs)
  | remove {bs cs : List Undo} : (∀ b ∈ bs, b.before id num = true) →
      Adjusted info cnt val id num (bs ++ ⟨val, num, id⟩ :: cs) (bs ++ cs)

theorem Undo.not_before_self {aoe : Int16} : ¬ (Undo.mk aoe num id).before id num = true := by
  simp [Undo.before_iff]

theorem adjust_iff (hm : 0 ≤ info.semaem) :
    adjust info cnt val id num es = (none, fs) ↔ Adjusted info cnt val id num es fs := by
  constructor
  · intro h
    obtain ⟨bs, cs, hbs, hcs, rfl⟩ : ∃ bs cs, (∀ b ∈ bs, b.before id num = true) ∧
        (∀ c ∈ cs.head?, ¬ c.before id num = true) ∧ es = bs ++ cs := by
      refine ⟨es.takeWhile (·.before id num), es.dropWhile (·.before id num),
        fun b hb => mem_takeWhile_imp (p := fun e : Undo => e.before id num) hb, fun c hc => ?_, takeWhile_append_dropWhile.symm⟩
      have := List.head?_dropWhile_not (·.before id num) es
      rw [Option.mem_def.mp hc] at this
      simpa using this
    rw [adjust_append hbs] at h
    obtain ⟨h1, rfl⟩ := Prod.mk.inj h
    cases cs with
    | nil =>
      by_cases hcnt : info.semume ≤ cnt
      · simp [adjust, hcnt] at h1
      · rw [show (adjust info cnt val id num []).2 = [⟨-val, num, id⟩] by simp [adjust, hcnt]]
        exact .insert hbs (by simp) (by omega)
    | cons c cs =>
      have hc := hcs c (by simp)
      rw [adjust, if_neg hc] at h1 ⊢
      by_cases hkey : c.un_id = id ∧ c.un_num = num
      · obtain ⟨aoe, num', id'⟩ := c
        obtain ⟨rfl, rfl⟩ := hkey
        rw [if_pos ⟨rfl, rfl⟩] at h1 ⊢
        dsimp only at h1 ⊢
        by_cases hbig : info.semaem < (aoe - val).toInt ∨ (aoe - val).toInt < -info.semaem
        · rw [if_pos hbig] at h1
          exact absurd h1 (by simp)
        · rw [if_neg hbig]
          by_cases h0 : aoe - val = 0
          · rw [if_pos h0]
            obtain rfl : aoe = val := by rw [← Int16.sub_add_cancel aoe val, h0, Int16.zero_add]
            exact .remove hbs
          · rw [if_neg h0]
            exact .update hbs (by omega) h0
      · rw [if_neg hkey] at h1 ⊢
        by_cases hcnt : info.semume ≤ cnt
        · simp [if_pos hcnt] at h1
        · rw [if_neg hcnt]
          exact .insert hbs (fun d hd => Option.mem_some.mp hd ▸ ⟨hc, hkey⟩) (by omega)
  · intro h
    cases h with
    | @insert bs cs hbs hcs hcnt =>
      rw [adjust_append hbs]
      cases cs with
      | nil => simp [adjust, Nat.not_le.mpr hcnt]
      | cons c cs =>
        obtain ⟨hc, hkey⟩ := hcs c (by simp)
        rw [adjust, if_neg hc, if_neg hkey, if_neg (Nat.not_le.mpr hcnt)]
    | @update bs cs aoe hbs hin h0 =>
      rw [adjust_append hbs, adjust, if_neg Undo.not_before_self, if_pos ⟨rfl, rfl⟩]
      dsimp only
      rw [if_neg (by omega), if_neg h0]
    | @remove bs cs hbs =>
      have h0 : val - val = 0 := Int16.sub_self val
      rw [adjust_append hbs, adjust, if_neg Undo.not_before_self, if_pos ⟨rfl, rfl⟩]
      dsimp only
      rw [h0, if_neg (by simpa using hm), if_pos rfl]

/-- The entries after one that is not before the key are all behind it. -/
theorem behind_of_sorted {a : Undo}
    (hs : (a :: es).Pairwise fun a b => a.before b.un_id b.un_num = true)
    (ha : ¬ a.before id num = true) :
    ∀ b ∈ es, ¬ b.before id num = true ∧ ¬ (b.un_id = id ∧ b.un_num = num) := by
  intro b hb
  have hab := (pairwise_cons.mp hs).1 b hb
  rw [Undo.before_iff] at hab ha ⊢
  refine ⟨by omega, ?_⟩
  rintro ⟨rfl, rfl⟩
  exact ha hab

/-- Adjusting by the negated value gives the entries back: an entry that went is made again, in a
table that has room for it. -/
theorem Adjusted.undo {cnt' : ℕ} (h : Adjusted info cnt val id num es fs) (ht : Table info es)
    (hcnt : fs.length < es.length → cnt' < info.semume) :
    Adjusted info cnt' (-val) id num fs es := by
  cases h with
  | insert hbs hcs _ => exact .remove hbs
  | @update bs cs aoe hbs hin h0 =>
    have hback : aoe - val - -val = aoe := by rw [Int16.sub_neg, Int16.sub_add_cancel]
    have haoe := ht.bounded ⟨aoe, num, id⟩ (by simp)
    have hup : Adjusted info cnt' (-val) id num (bs ++ ⟨aoe - val, num, id⟩ :: cs)
        (bs ++ ⟨aoe - val - -val, num, id⟩ :: cs) :=
      .update hbs (by rw [hback]; exact haoe.2) (by rw [hback]; exact haoe.1)
    rwa [hback] at hup
  | @remove bs cs hbs =>
    have hsorted := (pairwise_append.mp ht.sorted).2.1
    have hins : Adjusted info cnt' (-val) id num (bs ++ cs) (bs ++ ⟨- -val, num, id⟩ :: cs) :=
      .insert hbs
        (fun c hc => behind_of_sorted hsorted Undo.not_before_self c (mem_of_mem_head? hc))
        (hcnt (by simp))
    rwa [Int16.neg_neg] at hins

/-- The entries stay sorted: what is before the key is before what is put at its place. -/
theorem Adjusted.sorted (h : Adjusted info cnt val id num es fs)
    (hs : es.Pairwise fun a b => a.before b.un_id b.un_num = true) :
    fs.Pairwise fun a b => a.before b.un_id b.un_num = true := by
  cases h with
  | @insert bs cs hbs hcs _ =>
    obtain ⟨h1, h2, h3⟩ := pairwise_append.mp hs
    have hhead : ∀ c ∈ cs, (Undo.mk (-val) num id).before c.un_id c.un_num = true := by
      intro c hc
      cases cs with
      | nil => simp at hc
      | cons d cs =>
        obtain ⟨hd, hkey⟩ := hcs d (by simp)
        have hdkey : (Undo.mk (-val) num id).before d.un_id d.un_num = true := by
          rw [Undo.before_iff] at hd ⊢
          have hne : d.un_id = id → d.un_num.toInt ≠ num.toInt := fun h1 h2 =>
            hkey ⟨h1, Int16.toInt.inj h2⟩
          dsimp only
          omega
        rcases mem_cons.mp hc with rfl | hc
        · exact hdkey
        · have hdc := (pairwise_cons.mp h2).1 c hc
          rw [Undo.before_iff] at hdkey hdc ⊢
          dsimp only at hdkey ⊢
          omega
    refine pairwise_append.mpr ⟨h1, pairwise_cons.mpr ⟨hhead, h2⟩, ?_⟩
    intro b hb c hc
    rcases mem_cons.mp hc with rfl | hc
    · exact hbs b hb
    · exact h3 b hb c hc
  | @update bs cs aoe hbs _ _ =>
    -- `before` does not look at the value
    obtain ⟨h1, h2, h3⟩ := pairwise_append.mp hs
    obtain ⟨h4, h5⟩ := pairwise_cons.mp h2
    refine pairwise_append.mpr ⟨h1, pairwise_cons.mpr ⟨h4, h5⟩, ?_⟩
    intro b hb c hc
    rcases mem_cons.mp hc with rfl | hc
    · exact hbs b hb
    · exact h3 b hb c (mem_cons_of_mem _ hc)
  | remove hbs =>
    exact hs.sublist (List.Sublist.append_left (sublist_cons_self _ _) _)

theorem Adjusted.table (h : Adjusted info es.length val id num es fs) (ht : Table info es)
    (hv0 : val ≠ 0) (hv : -info.semaem ≤ val.toInt ∧ val.toInt ≤ info.semaem) :
    Table info fs := by
  refine ⟨h.sorted ht.sorted, ?_, ?_⟩
  · intro b hb
    cases h with
    | insert hbs hcs _ =>
      have hneg := info.neg_toInt hv
      have hn0 : -val ≠ 0 := fun h0 => hv0 (by rw [← Int16.neg_neg (a := val), h0]; rfl)
      rcases mem_append.mp hb with hb | hb
      · exact ht.bounded b (by simp [hb])
      · rcases mem_cons.mp hb with rfl | hb
        · exact ⟨hn0, by dsimp only; omega, by dsimp only; omega⟩
        · exact ht.bounded b (by simp [hb])
    | update hbs hin h0 =>
      rcases mem_append.mp hb with hb | hb
      · exact ht.bounded b (by simp [hb])
      · rcases mem_cons.mp hb with rfl | hb
        · exact ⟨h0, hin⟩
        · exact ht.bounded b (by simp [hb])
    | remove hbs =>
      rcases mem_append.mp hb with hb | hb
      · exact ht.bounded b (by simp [hb])
      · exact ht.bounded b (by simp [hb])
  · have hlen := ht.length
    generalize hn : es.length = n at h hlen
    cases h <;> simp at hn ⊢ <;> omega

theorem adjOf_skip {bs cs : List Undo} {b : Undo} (h : ¬ (b.un_id = id ∧ b.un_num = num)) :
    adjOf id num (bs ++ b :: cs) = adjOf id num (bs ++ cs) := by
  induction bs with
  | nil => exact if_neg h
  | cons c bs ih => simp only [cons_append, adjOf, ih]

theorem adjOf_append {bs cs : List Undo} (h : ∀ b ∈ bs, b.before id num = true) :
    adjOf id num (bs ++ cs) = adjOf id num cs := by
  induction bs with
  | nil => rfl
  | cons b bs ih =>
    have hb : ¬ (b.un_id = id ∧ b.un_num = num) := by
      have := Undo.before_iff.mp (h b (by simp))
      rintro ⟨rfl, rfl⟩
      omega
    rw [cons_append, adjOf, if_neg hb, ih fun c hc => h c (by simp [hc])]

theorem adjOf_eq_zero (h : ∀ b ∈ es, ¬ (b.un_id = id ∧ b.un_num = num)) : adjOf id num es = 0 := by
  induction es with
  | nil => rfl
  | cons a es ih => rw [adjOf, if_neg (h a (by simp)), ih fun b hb => h b (by simp [hb])]

/-- The adjust value of the key decreases by the value, and no other one changes. -/
theorem Adjusted.adjOf (h : Adjusted info cnt val id num es fs) (ht : Table info es)
    (hv : -info.semaem ≤ val.toInt ∧ val.toInt ≤ info.semaem) (id' : ℤ) (num' : Int16) :
    adjOf id' num' fs = adjOf id' num' es - if id' = id ∧ num' = num then val.toInt else 0 := by
  by_cases hkey : id' = id ∧ num' = num
  · obtain ⟨rfl, rfl⟩ := hkey
    rw [if_pos ⟨rfl, rfl⟩]
    cases h with
    | @insert bs cs hbs hcs _ =>
      have hzero : Ipc.adjOf id' num' cs = 0 := by
        cases cs with
        | nil => rfl
        | cons c cs =>
          obtain ⟨hc, hne⟩ := hcs c (by simp)
          have hsorted := (pairwise_append.mp ht.sorted).2.1
          rw [Ipc.adjOf, if_neg hne]
          exact adjOf_eq_zero fun b hb => (behind_of_sorted hsorted hc b hb).2
      rw [adjOf_append hbs, adjOf_append hbs, hzero, Ipc.adjOf, if_pos ⟨rfl, rfl⟩,
        info.neg_toInt hv]
      omega
    | @update bs cs aoe hbs hin h0 =>
      have haoe := (ht.bounded ⟨aoe, num', id'⟩ (by simp)).2
      rw [adjOf_append hbs, adjOf_append hbs, Ipc.adjOf, if_pos ⟨rfl, rfl⟩, Ipc.adjOf,
        if_pos ⟨rfl, rfl⟩]
      exact info.sub_toInt haoe hv hin
    | @remove bs cs hbs =>
      have hsorted := (pairwise_append.mp ht.sorted).2.1
      have hzero : Ipc.adjOf id' num' cs = 0 :=
        adjOf_eq_zero fun b hb => (behind_of_sorted hsorted Undo.not_before_self b hb).2
      rw [adjOf_append hbs, adjOf_append hbs, hzero, Ipc.adjOf, if_pos ⟨rfl, rfl⟩]
      exact (Int.sub_self val.toInt).symm
  · have hne : ∀ aoe, ¬ ((Undo.mk aoe num id).un_id = id' ∧ (Undo.mk aoe num id).un_num = num') :=
      fun aoe he => hkey ⟨he.1.symm, he.2.symm⟩
    rw [if_neg hkey, Int.sub_zero]
    cases h with
    | insert => rw [adjOf_skip (hne _)]
    | update => rw [adjOf_skip (hne _), adjOf_skip (hne _)]
    | remove => rw [adjOf_skip (hne _)]

end Adjust

end Svr3.Ipc
