import Svr3.Lib.Chains
import Mathlib.Data.Fintype.Basic

/-!
# In-core inodes of `os/iget.c`

`iget` looks for an inode on the hash chain of its number, and takes one from the free list when it
finds none; `iput` gives an inode back with its last reference. Processes sleep in `iget` on an
inode that is locked, in `FS_IREAD`, and in the `FS_IPUT` of `iput`; `FS_IPUT` returns at once for
an inode without references.
-/

namespace Svr3.Iget

open Function

/-- An inode: the bits `ILOCK`, `IWANT`, `IMOUNT`, `IRMOUNT` and `ILBIN` of `i_flag`, and what
`iget` and `iput` look at besides. -/
structure Inode where
  ilock : Bool
  iwant : Bool
  imount : Bool
  irmount : Bool
  ilbin : Bool
  i_number : ℤ
  i_mntdev : ℕ
  i_dev : ℤ
  i_fstyp : ℕ
  i_count : Int16
  i_mnton : Option ℕ

/-- An entry of the mount table, with the bit `MINTER`; there are `n` inodes. -/
structure Mount (n : ℕ) where
  minter : Bool
  m_fstyp : ℕ
  m_dev : ℤ
  m_inodp : Option (Fin n)
  m_mount : Option (Fin n)

/-- `NHINO` -/
def nhino : ℤ := 128

/-- `ihash(X)`, as an index of `hinode[]` -/
def ihash (x : ℤ) : ℤ := x % nhino

/-- The inodes, the hash chains and the free list from the front, and the mount table. -/
structure Sys (n : ℕ) where
  inode : Fin n → Inode
  hinode : Chains ℤ (Fin n)
  ifreelist : List (Fin n)
  mount : ℕ → Mount n

variable {n : ℕ}

def Sys.set (s : Sys n) (ip : Fin n) (i : Inode) : Sys n :=
  { s with inode := update s.inode ip i }

/-- Where a run of `iget` leads: to a return with NULL or with an inode, to a sleep on an inode, to
`FS_IREAD`, to a remote system, or to a panic. -/
inductive Res (n : ℕ)
  | null
  | got (ip : Fin n)
  | sleep (ip : Fin n) (mp : ℕ) (ino : ℤ) (fstyp : ℕ)
  | iread (ip : Fin n)
  | remote
  | panic

/-- `iget` from the label `found` on, with a number of turns through it. `lbin` is
`server() && !riget(ip)`. -/
def found (lbin : Bool) : ℕ → Fin n → ℕ → ℤ → ℕ → Sys n → Option (Res n × Sys n)
  | 0, _, _, _, _, _ => none
  | turns + 1, ip, mp, ino, fstyp, s =>
    let i := s.inode ip
    if i.ilock then some (.sleep ip mp ino fstyp, s.set ip { i with iwant := true })
    else if i.imount || i.irmount then
      match i.i_mnton with
      | none => some (.panic, s)
      | some mp =>
        let m := s.mount mp
        if m.minter then some (.null, s)
        else if m.m_inodp = some ip then
          if i.imount then
            match m.m_mount with
            | none => some (.null, s)
            | some root =>
              found lbin turns root mp (s.inode root).i_number (s.inode root).i_fstyp s
          else some (.remote, s)
        else some (.panic, s)
    else if i.ilbin && lbin then some (.null, s)
    else
      let free := if i.i_count = 0 then s.ifreelist.erase ip else s.ifreelist
      some (.got ip, { s.set ip { i with i_count := i.i_count + 1, ilock := true } with
        ifreelist := free })

/-- `ino == ip->i_number && mp == ip->i_mntdev` -/
def Sys.is (s : Sys n) (mp : ℕ) (ino : ℤ) (ip : Fin n) : Bool :=
  ino = (s.inode ip).i_number && mp = (s.inode ip).i_mntdev

/-- `iget` takes `ip` from the free list, for number `ino` of `mp`. -/
def reuse (mp : ℕ) (ino : ℤ) (fstyp : ℕ) (ip : Fin n) (s : Sys n) : Sys n :=
  { s with
    ifreelist := s.ifreelist.erase ip
    hinode := (s.hinode.remove ip).insert ip (ihash ino)
    inode := update s.inode ip
      { ilock := true, iwant := false, imount := false, irmount := false, ilbin := false
        i_number := ino, i_mntdev := mp, i_dev := (s.mount mp).m_dev, i_fstyp := fstyp
        i_count := 1, i_mnton := none } }

/-- `iget` from the label `loop` on. -/
def iget (lbin : Bool) (turns : ℕ) (mp : ℕ) (ino : ℤ) (fstyp : ℕ) (s : Sys n) :
    Option (Res n × Sys n) :=
  match (s.hinode (ihash ino)).find? (s.is mp ino) with
  | some ip => found lbin turns ip mp ino fstyp s
  | none =>
    match s.ifreelist.find? fun ip => !(s.inode ip).ilock with
    | none => some (.null, s)
    | some ip => some (.iread ip, reuse mp ino fstyp ip s)

/-- `prele(ip)`, apart from the call of `wakeup` -/
def prele (ip : Fin n) (s : Sys n) : Sys n :=
  s.set ip { s.inode ip with ilock := false, iwant := false }

/-- `ip` is put at the end of the free list. -/
def putFree (ip : Fin n) (s : Sys n) : Sys n := { s with ifreelist := s.ifreelist ++ [ip] }

/-- The end of `iget`, when `FS_IREAD` failed. -/
def readFailed (ip : Fin n) (s : Sys n) : Sys n :=
  let s := putFree ip { s with hinode := s.hinode.remove ip }
  prele ip (s.set ip { s.inode ip with i_count := 0, i_fstyp := 0 })

/-- `iput(ip)` when it does not come to `FS_IPUT` -/
def iputMore (ip : Fin n) (s : Sys n) : Sys n :=
  prele ip (s.set ip { s.inode ip with i_count := (s.inode ip).i_count - 1 })

/-- The end of `iput(ip)` after `FS_IPUT`, where `noicache` are the file system types with
`FS_NOICACHE`. -/
def iputLast (noicache : ℕ → Bool) (ip : Fin n) (s : Sys n) : Sys n :=
  let s :=
    if noicache (s.inode ip).i_fstyp then
      { s with hinode := s.hinode.remove ip }.set ip { s.inode ip with i_fstyp := 0 }
    else s
  iputMore ip (putFree ip s)

/-! ## Processes -/

/-- Where a process is: out of `iget` and `iput`, at the label `loop`, asleep on an inode, in
`FS_IREAD`, or in the `FS_IPUT` of `iput`. -/
inductive Pc (n : ℕ)
  | out
  | loop (mp : ℕ) (ino : ℤ) (fstyp : ℕ)
  | asleep (ip : Fin n) (mp : ℕ) (ino : ℤ) (fstyp : ℕ)
  | iread (ip : Fin n)
  | iput (ip : Fin n)

/-- `locker` is the process that has locked the inode. -/
structure State (n : ℕ) where
  sys : Sys n
  pc : ℕ → Pc n
  locker : Fin n → Option ℕ

/-- Whoever sleeps on `ip` goes back to `loop`. -/
def Pc.wake (ip : Fin n) : Pc n → Pc n
  | .asleep jp mp ino fstyp => if jp = ip then .loop mp ino fstyp else .asleep jp mp ino fstyp
  | pc => pc

/-- Process `p` unlocks `ip`, which leaves `sys`, and is out. -/
def State.unlock (s : State n) (p : ℕ) (ip : Fin n) (sys : Sys n) : State n where
  sys := sys
  pc := update (fun q => if (s.sys.inode ip).iwant then (s.pc q).wake ip else s.pc q) p .out
  locker := update s.locker ip none

/-- Process `p` has come to the end of a run of `iget`. -/
def State.after (s : State n) (p : ℕ) : Res n × Sys n → State n
  | (.got ip, sys) => ⟨sys, update s.pc p .out, update s.locker ip (some p)⟩
  | (.iread ip, sys) =>
    ⟨sys, update s.pc p (.iread ip), update s.locker ip (some p)⟩
  | (.sleep ip mp ino fstyp, sys) =>
    ⟨sys, update s.pc p (.asleep ip mp ino fstyp), s.locker⟩
  | (_, sys) => ⟨sys, update s.pc p .out, s.locker⟩

/-- What the rest of the kernel may change: the mount table, and of the inodes what has to do with
mounting. -/
def remount (mount : ℕ → Mount n) (flags : Fin n → Bool × Bool × Bool × Option ℕ) (s : Sys n) :
    Sys n :=
  { s with
    mount := mount
    inode := fun ip =>
      { s.inode ip with
        imount := (flags ip).1, irmount := (flags ip).2.1, ilbin := (flags ip).2.2.1
        i_mnton := (flags ip).2.2.2 } }

/-- `iget` is a call, `loop` what a process does that comes from a sleep on an inode; `iread` is the
return of `FS_IREAD`, which may set `i_fstyp`, or fails, and `iputEnd` that of `FS_IPUT`. The rest of
the kernel unlocks inodes, locks those that it refers to, waits for them, and mounts. -/
inductive Act (n : ℕ)
  | iget (p mp : ℕ) (ino : ℤ) (lbin : Bool) (turns : ℕ)
  | loop (p : ℕ) (lbin : Bool) (turns : ℕ)
  | iread (p : ℕ) (tip : Option ℕ)
  | iput (p : ℕ) (ip : Fin n)
  | iputEnd (p : ℕ)
  | prele (p : ℕ) (ip : Fin n)
  | plock (p : ℕ) (ip : Fin n)
  | want (ip : Fin n)
  | mount (mount : ℕ → Mount n) (flags : Fin n → Bool × Bool × Bool × Option ℕ)

/-- What a step leads to; a panic leads nowhere. -/
def next (noicache : ℕ → Bool) (s : State n) : Act n → Option (State n)
  | .iget p mp ino lbin turns =>
    match s.pc p, iget lbin turns mp ino (s.sys.mount mp).m_fstyp s.sys with
    | .out, some (.panic, _) => none
    | .out, some r => some (s.after p r)
    | _, _ => none
  | .loop p lbin turns =>
    match s.pc p with
    | .loop mp ino fstyp =>
      match iget lbin turns mp ino fstyp s.sys with
      | some (.panic, _) => none
      | some r => some (s.after p r)
      | none => none
    | _ => none
  | .iread p tip =>
    match s.pc p, tip with
    | .iread ip, some fstyp =>
      some { s with
        sys := s.sys.set ip { s.sys.inode ip with i_fstyp := fstyp }
        pc := update s.pc p .out }
    | .iread ip, none => some (s.unlock p ip (readFailed ip s.sys))
    | _, _ => none
  | .iput p ip =>
    match s.pc p with
    | .out =>
      if s.locker ip ≠ some p then none
      else if (s.sys.inode ip).i_count = 1 then
        some { s with pc := update s.pc p (.iput ip) }
      else some (s.unlock p ip (iputMore ip s.sys))
    | _ => none
  | .iputEnd p =>
    match s.pc p with
    | .iput ip => some (s.unlock p ip (iputLast noicache ip s.sys))
    | _ => none
  | .prele p ip =>
    match s.pc p with
    | .out => if s.locker ip = some p then some (s.unlock p ip (Iget.prele ip s.sys)) else none
    | _ => none
  | .plock p ip =>
    match s.pc p with
    | .out =>
      if (s.sys.inode ip).ilock || (s.sys.inode ip).i_count = 0 then none
      else
        some { s with
          sys := s.sys.set ip { s.sys.inode ip with ilock := true }
          locker := update s.locker ip (some p) }
    | _ => none
  | .want ip =>
    if (s.sys.inode ip).ilock then
      some { s with sys := s.sys.set ip { s.sys.inode ip with iwant := true } }
    else none
  | .mount m flags => some { s with sys := remount m flags s.sys }

def Istep (noicache : ℕ → Bool) (s : State n) (a : Act n) (t : State n) : Prop :=
  next noicache s a = some t

/-- After `inoinit`: all inodes are free and on no chain. -/
def inoinit (n : ℕ) (mount : ℕ → Mount n) : State n where
  sys := {
    inode := fun _ => ⟨false, false, false, false, false, 0, 0, 0, 0, 0, none⟩
    hinode := fun _ => []
    ifreelist := (List.finRange n).reverse
    mount := mount }
  pc := fun _ => .out
  locker := fun _ => none

end Svr3.Iget
