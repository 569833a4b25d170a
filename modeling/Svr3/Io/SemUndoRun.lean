import Svr3.Io.SemRace
import Svr3.Io.SemUndo

/-!
# Undo bookkeeping of semaphores

Over any run of the semaphore calls of all processes, in which no `SEM_UNDO` operation that is
copied in after a sleep leaves its set: an undo table holds, for each semaphore of each set, minus
the sum of the `SEM_UNDO` operations that its process got done since the semaphore was last set,
and `semexit` adjusts the semaphores by just that.
-/

namespace Svr3.Ipc

open Function List

namespace Kernel

/-- The number of semaphores of the set `id`, 0 if there is no such set. -/
def nsems (conf : Semconf) (k : Kernel) (id : ℤ) : ℕ :=
  match k.conv conf id with
  | none => 0
  | some sp => sp.sem_nsems.toNat

/-- Where semaphore `num` of the set `id` is in `sem[]`. -/
def addr (conf : Semconf) (k : Kernel) (id : ℤ) (num : ℕ) : ℕ := k.sem_base (slot conf id) + num

/-- The entries of process `p`. -/
def tbl (p : ℕ) (k : Kernel) : List Undo := Ipc.tbl p (k.view 0 0)

end Kernel

/-! ## Changes of the semaphores alone -/

/-- Only semaphores changed, and what was woken. -/
structure Frame (k t : Kernel) : Prop where
  sema : t.sema = k.sema
  sem_base : t.sem_base = k.sem_base
  sem_undo : t.sem_undo = k.sem_undo
  un_ent : t.un_ent = k.un_ent
  semunp : t.semunp = k.semunp
  semfup : t.semfup = k.semfup

theorem Frame.refl (k : Kernel) : Frame k k := ⟨rfl, rfl, rfl, rfl, rfl, rfl⟩

theorem Frame.trans {k t u : Kernel} (h : Frame k t) (h' : Frame t u) : Frame k u :=
  ⟨h'.1.trans h.1, h'.2.trans h.2, h'.3.trans h.3, h'.4.trans h.4, h'.5.trans h.5, h'.6.trans h.6⟩

/-- No semaphore is above `semvmx`. -/
def Bounded (conf : Semconf) (k : Kernel) : Prop :=
  ∀ a, ((k.sem a).semval.toNat : ℤ) ≤ conf.semvmx

section Sems

variable {conf : Semconf} {k t : Kernel} {a : ℕ}

theorem ofInt_toNat {v : ℤ} (h0 : 0 ≤ v) (h1 : v ≤ 65535) : ((UInt16.ofInt v).toNat : ℤ) = v := by
  have hmod : v % 2 ^ 16 = v := Int.emod_eq_of_lt h0 (by omega)
  rw [UInt16.ofInt, hmod, UInt16.toNat_ofNat', Nat.mod_eq_of_lt (by omega)]
  omega

theorem nsems_congr (h : t.sema = k.sema) : t.nsems conf = k.nsems conf := by
  funext id
  unfold Kernel.nsems Kernel.conv semconv Kernel.env
  rw [h]

theorem Frame.nsems (h : Frame k t) : t.nsems conf = k.nsems conf := nsems_congr h.sema

theorem Frame.addr (h : Frame k t) : t.addr conf = k.addr conf := by
  funext id num
  unfold Kernel.addr
  rw [h.sem_base]

theorem setSem_frame (semp : Sem) : Frame k (k.setSem a semp) := ⟨rfl, rfl, rfl, rfl, rfl, rfl⟩

theorem wakeup_frame (c : AChan) : Frame k (k.wakeup c) := ⟨rfl, rfl, rfl, rfl, rfl, rfl⟩

theorem setSem_semval (semp : Sem) (b : ℕ) : ((k.setSem a semp).sem b).semval =
    if b = a then semp.semval else (k.sem b).semval := by
  unfold Kernel.setSem
  by_cases h : b = a
  · rw [h, if_pos rfl]
    exact congrArg Sem.semval (update_self _ _ _)
  · rw [if_neg h]
    exact congrArg Sem.semval (update_of_ne h _ _)

/-- Semaphore `a` has the value `v` now, and nothing else changed. -/
structure Valued (a : ℕ) (v : UInt16) (k t : Kernel) : Prop extends Frame k t where
  semval : ∀ b, (t.sem b).semval = if b = a then v else (k.sem b).semval

theorem Valued.set {v : UInt16} {semp : Sem} (h : semp.semval = v) :
    Valued a v k (k.setSem a semp) := by
  refine ⟨setSem_frame semp, fun b => ?_⟩
  rw [setSem_semval, h]

/-- The same semaphore changes again, but for its value. -/
theorem Valued.again {v : UInt16} (h : Valued a v k t) {semp : Sem}
    (hv : semp.semval = (t.sem a).semval) : Valued a v k (t.setSem a semp) := by
  refine ⟨h.toFrame.trans (setSem_frame semp), fun b => ?_⟩
  rw [setSem_semval]
  by_cases hb : b = a
  · rw [if_pos hb, if_pos hb, hv, h.semval a, if_pos rfl]
  · rw [if_neg hb, h.semval b]

theorem Valued.wakeup {v : UInt16} (h : Valued a v k t) (c : AChan) : Valued a v k (t.wakeup c) :=
  ⟨h.toFrame.trans (wakeup_frame c), h.semval⟩

theorem Valued.bounded {v : UInt16} (h : Valued a v k t) (hk : Bounded conf k)
    (hv : (v.toNat : ℤ) ≤ conf.semvmx) : Bounded conf t := by
  intro b
  rw [h.semval b]
  split
  · exact hv
  · exact hk b

theorem Valued.zeroNcnt {v : UInt16} (h : Valued a v k t) :
    Valued a v k (t.setSem a { t.sem a with semncnt := 0 }) := h.again rfl

theorem Valued.zeroZcnt {v : UInt16} (h : Valued a v k t) :
    Valued a v k (t.setSem a { t.sem a with semzcnt := 0 }) := h.again rfl

theorem clearSem_valued : Valued a 0 k (clearSem a k) := by
  have hset : Valued a 0 k (k.setSem a { k.sem a with semval := 0, sempid := 0 }) := .set rfl
  unfold clearSem
  dsimp only
  split
  · split
    · exact hset
    · exact (hset.wakeup _).zeroZcnt
  · split
    · exact (hset.wakeup _).zeroNcnt
    · exact (((hset.wakeup _).zeroNcnt).wakeup _).zeroZcnt

theorem assign_valued (v : UInt16) : Valued a v k (assign a v k) := by
  have hset : Valued a v k (k.setSem a { k.sem a with semval := v }) := .set rfl
  unfold assign
  dsimp only
  split
  · split
    · exact hset
    · exact hset.zeroNcnt.wakeup _
  · split
    · exact hset
    · exact hset.zeroZcnt.wakeup _

theorem clearSems_spec {n : ℕ} (hk : Bounded conf k) :
    Frame k (clearSems a n k) ∧ Bounded conf (clearSems a n k) := by
  induction n generalizing a k with
  | zero => exact ⟨Frame.refl k, hk⟩
  | succ n ih =>
    have hv : Valued a 0 k (clearSem a k) := clearSem_valued
    obtain ⟨h1, h2⟩ := ih (a := a + 1) (hv.bounded hk conf.semvmx_nonneg)
    exact ⟨hv.toFrame.trans h1, h2⟩

theorem assignAll_spec (pid : Int16) (vs : List UInt16) (hk : Bounded conf k)
    (hvs : ∀ v ∈ vs, (v.toNat : ℤ) ≤ conf.semvmx) :
    Frame k (assignAll pid a vs k) ∧ Bounded conf (assignAll pid a vs k) := by
  induction vs generalizing a k with
  | nil => exact ⟨Frame.refl k, hk⟩
  | cons v vs ih =>
    have hv : Valued a v k (setPidAt a pid (assign a v k)) := (assign_valued v).again rfl
    obtain ⟨h1, h2⟩ := ih (a := a + 1) (hv.bounded hk (hvs v mem_cons_self))
      fun w hw => hvs w (mem_cons_of_mem _ hw)
    exact ⟨hv.toFrame.trans h1, h2⟩

end Sems

/-! ## `semexit` -/

/-- A value to which an adjust value is added where the result is in `[0, semvmx]`. -/
def bump (conf : Semconf) (v : UInt16) (aoe : ℤ) : UInt16 :=
  if v.toNat + aoe < 0 ∨ conf.semvmx < v.toNat + aoe then v else UInt16.ofInt (v.toNat + aoe)

/-- Where the semaphore of an entry is. -/
def Undo.addr (conf : Semconf) (k : Kernel) (e : Undo) : ℕ := k.addr conf e.un_id e.un_num.toInt.toNat

/-- The entry is of a semaphore that there is. -/
def Undo.Live (conf : Semconf) (k : Kernel) (e : Undo) : Prop :=
  0 ≤ e.un_num.toInt ∧ e.un_num.toInt < k.nsems conf e.un_id

section Semexit

variable {conf : Semconf} {k t : Kernel} {e : Undo} {es : List Undo}

theorem bump_toInt (conf : Semconf) (v : UInt16) (aoe : ℤ) : ((bump conf v aoe).toNat : ℤ) =
    if 0 ≤ v.toNat + aoe ∧ v.toNat + aoe ≤ conf.semvmx then v.toNat + aoe else v.toNat := by
  have hmax := conf.semvmx_le
  unfold bump
  split
  · rw [if_neg (by omega)]
  · rw [if_pos (by omega), ofInt_toNat (by omega) (by omega)]

theorem exitEntry_valued (hl : e.Live conf k) : Valued (e.addr conf k)
    (bump conf (k.sem (e.addr conf k)).semval e.un_aoe.toInt) k (exitEntry conf e k) := by
  obtain ⟨h0, hlt⟩ := hl
  have haddr : (k.sem_base (slot conf e.un_id) + e.un_num.toInt).toNat = e.addr conf k := by
    unfold Undo.addr Kernel.addr
    omega
  unfold exitEntry
  split
  · rename_i hnone
    have hzero : k.nsems conf e.un_id = 0 := by
      unfold Kernel.nsems
      rw [hnone]
    omega
  · dsimp only
    rw [haddr]
    generalize e.addr conf k = a
    split
    · rename_i hout
      unfold bump
      rw [if_pos hout]
      refine ⟨Frame.refl k, fun b => ?_⟩
      split
      · rename_i hb
        rw [hb]
      · rfl
    · rename_i hin
      unfold bump
      rw [if_neg hin]
      have hset : Valued a (UInt16.ofInt ((k.sem a).semval.toNat + e.un_aoe.toInt)) k (k.setSem a
          { k.sem a with semval := UInt16.ofInt ((k.sem a).semval.toNat + e.un_aoe.toInt) }) :=
        .set rfl
      split
      · split
        · exact (hset.zeroZcnt.wakeup _).zeroNcnt.wakeup _
        · exact hset.zeroZcnt.wakeup _
      · split
        · exact hset.zeroNcnt.wakeup _
        · exact hset

theorem Frame.live (h : Frame k t) : e.Live conf t ↔ e.Live conf k := by
  unfold Undo.Live
  rw [h.nsems]

theorem Frame.undoAddr (h : Frame k t) : e.addr conf t = e.addr conf k := by
  unfold Undo.addr
  rw [h.addr]

/-- Each entry adjusts its own semaphore, where no two have the same. -/
theorem exitLoop_spec (hl : ∀ e ∈ es, e.Live conf k)
    (hd : es.Pairwise fun e f => e.addr conf k ≠ f.addr conf k) :
    Frame k (exitLoop conf es k) ∧
      (∀ a, (∀ e ∈ es, e.addr conf k ≠ a) →
        ((exitLoop conf es k).sem a).semval = (k.sem a).semval) ∧
      ∀ e ∈ es, ((exitLoop conf es k).sem (e.addr conf k)).semval =
        bump conf (k.sem (e.addr conf k)).semval e.un_aoe.toInt := by
  induction es generalizing k with
  | nil => exact ⟨Frame.refl k, fun _ _ => rfl, nofun⟩
  | cons e es ih =>
    obtain ⟨he, hes⟩ := pairwise_cons.mp hd
    have hv := exitEntry_valued (hl e mem_cons_self)
    have hf := hv.toFrame
    have hrest : es.Pairwise fun f g =>
        f.addr conf (exitEntry conf e k) ≠ g.addr conf (exitEntry conf e k) := by
      apply hes.imp
      intro f g hfg
      rwa [hf.undoAddr, hf.undoAddr]
    obtain ⟨h1, h2, h3⟩ := ih (fun f hmem => hf.live.mpr (hl f (mem_cons_of_mem _ hmem))) hrest
    refine ⟨hf.trans h1, fun a ha => ?_, fun f hmem => ?_⟩
    · have hne : a ≠ e.addr conf k := (ha e mem_cons_self).symm
      have hstay := h2 a fun f hmem => by
        rw [hf.undoAddr]
        exact ha f (mem_cons_of_mem _ hmem)
      rw [exitLoop, hstay, hv.semval a, if_neg hne]
    · rw [exitLoop]
      rcases mem_cons.mp hmem with rfl | hmem
      · have hstay := h2 (f.addr conf k) fun g hg => by
          rw [hf.undoAddr]
          exact (he g hg).symm
        rw [hstay, hv.semval, if_pos rfl]
      · have hnext := h3 f hmem
        rw [hf.undoAddr] at hnext
        rw [hnext, hv.semval, if_neg (he f hmem).symm]

end Semexit

/-! ## The ledger -/

/-- For each process, set and semaphore, the sum of the `SEM_UNDO` operations that it got done since
the semaphore was set. -/
abbrev Ledger := ℕ → ℤ → UInt16 → ℤ

/-- How a step changes it. -/
def record (conf : Semconf) (s : State) (l : Ledger) : Act → Ledger
  | .semop c uap entry =>
    if (ksemop conf c uap entry s).1 = .done then fun p id num =>
      if p = c.p ∧ id = uap.semid then l p id num + undoSum num uap.sops else l p id num
    else l
  | .setval c semid semnum arg =>
    if (setval conf c semid semnum arg s.k).1 = none then fun p id num =>
      if id = semid ∧ num.toNat = semnum then 0 else l p id num
    else l
  | .setall c semid semvals =>
    if (setall conf c semid semvals s.k).1 = none then fun p id num =>
      if id = semid ∧ num.toNat < s.k.nsems conf semid then 0 else l p id num
    else l
  | .semget i perm nsems base =>
    if (semgetNew conf i perm nsems base s.k).1 = none then fun p id num =>
      if id = perm.seq.toNat * conf.semmni + i then 0 else l p id num
    else l
  | .exit p => fun q id num => if q = p then 0 else l q id num
  | .rmid _ _ => l
  | .set _ _ _ => l

/-- The semaphores and undo structures, of which there are `n`, agree with the ledger. -/
structure Kept (conf : Semconf) (n : ℕ) (k : Kernel) (l : Ledger) : Prop where
  wf : ∀ i base, WF conf.toSeminfo (k.view i base)
  chained : Chained n (k.view 0 0)
  live : ∀ p, ∀ e ∈ k.tbl p, e.Live conf k
  law : ∀ p id num, num.toNat < k.nsems conf id → adjOf id num.toInt16 (k.tbl p) = -l p id num
  small : ∀ id, k.nsems conf id ≤ conf.semmsl
  apart : ∀ id id', id ≠ id' → ∀ m < k.nsems conf id, ∀ m' < k.nsems conf id',
    k.addr conf id m ≠ k.addr conf id' m'

section Keeping

variable {conf : Semconf} {n : ℕ} {k t : Kernel} {l l' : Ledger} {p : ℕ}

theorem Kept.bounded (h : Kept conf n k l) : Bounded conf k := by
  intro a
  exact (h.wf 0 a).semval 0

theorem Kept.table (h : Kept conf n k l) (up : ℕ) : Table conf.toSeminfo (k.un_ent up) :=
  (h.wf 0 0).table up

theorem Kept.tbl_table (h : Kept conf n k l) (p : ℕ) : Table conf.toSeminfo (k.tbl p) :=
  Ipc.tbl_table (h.wf 0 0)

/-- Well-formedness does not depend on where a set is. -/
theorem wf_views {s : Sys} (h : WF conf.toSeminfo s) (hu : s.sem_undo = t.sem_undo)
    (he : s.un_ent = t.un_ent) (hf : s.semfup = t.semfup) (hb : Bounded conf t) (i base : ℕ) :
    WF conf.toSeminfo (t.view i base) := by
  refine ⟨?_, ?_, ?_, ?_, fun num => hb _⟩
  · show ∀ p q up, t.sem_undo p = some up → t.sem_undo q = some up → p = q
    rw [← hu]
    exact h.owned
  · show ∀ up ∈ t.semfup, t.un_ent up = [] ∧ ∀ p, t.sem_undo p ≠ some up
    rw [← hf, ← he, ← hu]
    exact h.free
  · show t.semfup.Nodup
    rw [← hf]
    exact h.nodup
  · show ∀ up, Table conf.toSeminfo (t.un_ent up)
    rw [← he]
    exact h.table

theorem Frame.same (hf : Frame k t) : SameUndo (k.view 0 0) (t.view 0 0) :=
  ⟨hf.sem_undo, hf.un_ent, hf.semunp, hf.semfup⟩

theorem tbl_same (hu : SameUndo (k.view 0 0) (t.view 0 0)) (p : ℕ) : t.tbl p = k.tbl p := by
  unfold Kernel.tbl Ipc.tbl
  rw [hu.sem_undo, hu.un_ent]

theorem Kept.congr (h : Kept conf n k l) (hu : SameUndo (k.view 0 0) (t.view 0 0))
    (hn : t.nsems conf = k.nsems conf) (ha : t.addr conf = k.addr conf) (hb : Bounded conf t) :
    Kept conf n t l := by
  refine ⟨?_, h.chained.same hu, fun p e he => ?_, fun p id num hnum => ?_, fun id => ?_, ?_⟩
  · exact wf_views (h.wf 0 0) hu.sem_undo.symm hu.un_ent.symm hu.semfup.symm hb
  · rw [tbl_same hu] at he
    unfold Undo.Live
    rw [hn]
    exact h.live p e he
  · rw [hn] at hnum
    rw [tbl_same hu]
    exact h.law p id num hnum
  · rw [hn]
    exact h.small id
  · rw [hn, ha]
    exact h.apart

theorem Kept.frame (h : Kept conf n k l) (hf : Frame k t) (hb : Bounded conf t) :
    Kept conf n t l :=
  h.congr hf.same hf.nsems hf.addr hb

/-- The set `id₀` comes or goes. -/
theorem Kept.resize (h : Kept conf n k l) (id₀ : ℤ) (hu : SameUndo (k.view 0 0) (t.view 0 0))
    (hb : Bounded conf t) (hn : ∀ id, id ≠ id₀ → t.nsems conf id = k.nsems conf id)
    (ha : ∀ id, id ≠ id₀ → 0 < k.nsems conf id →
      t.sem_base (slot conf id) = k.sem_base (slot conf id))
    (hgone : ∀ p, ∀ e ∈ k.tbl p, e.un_id ≠ id₀) (hsmall : t.nsems conf id₀ ≤ conf.semmsl)
    (hapart : ∀ id, id ≠ id₀ → ∀ m < t.nsems conf id₀, ∀ m' < k.nsems conf id,
      t.addr conf id₀ m ≠ k.addr conf id m')
    (hl : ∀ p id num, num.toNat < t.nsems conf id →
      l' p id num = if id = id₀ then 0 else l p id num) :
    Kept conf n t l' := by
  have haddr (id : ℤ) (hid : id ≠ id₀) (m : ℕ) (hm : m < k.nsems conf id) :
      t.addr conf id m = k.addr conf id m := by
    unfold Kernel.addr
    rw [ha id hid (by omega)]
  refine ⟨?_, h.chained.same hu, fun p e he => ?_, fun p id num hnum => ?_, fun id => ?_, ?_⟩
  · exact wf_views (h.wf 0 0) hu.sem_undo.symm hu.un_ent.symm hu.semfup.symm hb
  · rw [tbl_same hu] at he
    unfold Undo.Live
    rw [hn _ (hgone p e he)]
    exact h.live p e he
  · rw [tbl_same hu, hl p id num hnum]
    by_cases hid : id = id₀
    · rw [if_pos hid, Int.neg_zero]
      apply adjOf_eq_zero
      rintro e he ⟨he', -⟩
      exact hgone p e he (he'.trans hid)
    · rw [if_neg hid]
      rw [hn id hid] at hnum
      exact h.law p id num hnum
  · by_cases hid : id = id₀
    · rw [hid]
      exact hsmall
    · rw [hn id hid]
      exact h.small id
  · intro id id' hne m hm m' hm'
    by_cases hid : id = id₀
    · have hid' : id' ≠ id₀ := fun he => hne (hid.trans he.symm)
      rw [hn id' hid'] at hm'
      rw [haddr id' hid' m' hm', hid]
      rw [hid] at hm
      exact hapart id' hid' m hm m' hm'
    · rw [hn id hid] at hm
      rw [haddr id hid m hm]
      by_cases hid' : id' = id₀
      · rw [hid'] at hm' ⊢
        exact (hapart id hid m' hm' m hm).symm
      · rw [hn id' hid'] at hm'
        rw [haddr id' hid' m' hm']
        exact h.apart id id' hne m hm m' hm'

theorem Kept.ledger (h : Kept conf n k l)
    (hl : ∀ p id num, num.toNat < k.nsems conf id → l' p id num = l p id num) :
    Kept conf n k l' :=
  { h with law := fun p id num hnum => (h.law p id num hnum).trans (by rw [hl p id num hnum]) }

/-- The sets stay, and the tables change. -/
theorem Kept.retable (h : Kept conf n k l) (hs : t.sema = k.sema) (ha : t.sem_base = k.sem_base)
    (hwf : ∀ i base, WF conf.toSeminfo (t.view i base)) (hc : Chained n (t.view 0 0))
    (hlive : ∀ p, ∀ e ∈ t.tbl p, e.Live conf k)
    (hlaw : ∀ p id num, num.toNat < k.nsems conf id →
      adjOf id num.toInt16 (t.tbl p) = -l' p id num) : Kept conf n t l' := by
  have hn : t.nsems conf = k.nsems conf := nsems_congr hs
  have haddr : t.addr conf = k.addr conf := by
    funext id num
    unfold Kernel.addr
    rw [ha]
  refine ⟨hwf, hc, fun p e he => ?_, fun p id num hnum => ?_, fun id => ?_, ?_⟩
  · unfold Undo.Live
    rw [hn]
    exact hlive p e he
  · rw [hn] at hnum
    exact hlaw p id num hnum
  · rw [hn]
    exact h.small id
  · rw [hn, haddr]
    exact h.apart

/-- Semaphore numbers are `short` in undo entries. -/
theorem Kept.num_toInt (h : Kept conf n k l) {id : ℤ} {num : UInt16}
    (hnum : num.toNat < k.nsems conf id) : num.toInt16.toInt = num.toNat := by
  have hsmall := h.small id
  have hmsl := conf.semmsl_le
  have hv : num.toInt16.toInt = if 2 * num.toNat < 2 ^ 16 then (num.toNat : ℤ)
      else num.toNat - (2 ^ 16 : ℕ) := BitVec.toInt_eq_toNat_cond num.toBitVec
  rw [hv, if_pos (by omega)]

/-- `semunrm` takes what the ledger forgets. -/
theorem Kept.semunrm (h : Kept conf n k l) (l' : Ledger) (id : ℤ) (low high : UInt16)
    (hl : ∀ p id' num, num.toNat < k.nsems conf id' → l' p id' num =
      if id' = id ∧ low.toNat ≤ num.toNat ∧ num.toNat ≤ high.toNat then 0 else l p id' num) :
    Kept conf n (semunrm id low high k) l' ∧
      ∀ p, (semunrm id low high k).tbl p = (k.tbl p).filter fun e => !e.within id low high := by
  obtain ⟨hent, hchained⟩ := semunrm_spec id low high h.chained
    fun up => (h.table up).sorted
  have htbl (p : ℕ) :
      (Ipc.semunrm id low high k).tbl p = (k.tbl p).filter fun e => !e.within id low high := by
    have hlinks : ((Ipc.semunrm id low high k).view 0 0).sem_undo = (k.view 0 0).sem_undo := rfl
    unfold Kernel.tbl Ipc.tbl
    rw [hlinks]
    split
    · rfl
    · exact hent _
  refine ⟨h.retable rfl rfl (fun i base => ?_) hchained (fun p e he => ?_)
    fun p id' num hnum => ?_, htbl⟩
  · have hwf := h.wf i base
    refine ⟨hwf.owned, fun up hup => ?_, hwf.nodup, fun up => ?_, hwf.semval⟩
    · obtain ⟨h1, h2⟩ := hwf.free up hup
      refine ⟨?_, h2⟩
      show (Ipc.semunrm id low high k).un_ent up = []
      rw [hent up, show k.un_ent up = [] from h1]
      rfl
    · show Table conf.toSeminfo ((Ipc.semunrm id low high k).un_ent up)
      rw [hent up]
      exact (h.table up).filter _
  · rw [htbl p] at he
    exact h.live p e (mem_filter.mp he).1
  · rw [htbl p, adjOf_filter, hl p id' num hnum, h.num_toInt hnum]
    by_cases hin : id' = id ∧ low.toNat ≤ num.toNat ∧ num.toNat ≤ high.toNat
    · rw [if_pos hin, if_pos ⟨hin.1, by omega, by omega⟩]
      rfl
    · rw [if_neg hin, if_neg (by omega)]
      exact h.law p id' num hnum

end Keeping

/-! ## `semctl` and `semget` -/

section Headers

variable {conf : Semconf} {k : Kernel} {id id' : ℤ} {i : ℕ} {sp : SemidDs}

/-- What makes `id` a set: its slot is in use, with its sequence number. -/
def Kernel.Holds (conf : Semconf) (k : Kernel) (id : ℤ) : Prop :=
  0 ≤ id ∧ k.Alloc (slot conf id) ∧
    id.toNat / conf.semmni = (k.sema (slot conf id)).sem_perm.seq.toNat

theorem conv_some : k.conv conf id = some sp ↔ k.Holds conf id ∧ sp = k.sema (slot conf id) := by
  unfold Kernel.conv semconv Kernel.Holds Kernel.Alloc slot Kernel.env
  dsimp only
  split
  · rename_i hneg
    exact iff_of_false nofun fun h => absurd h.1.1 (Int.not_le.mpr hneg)
  · rename_i hpos
    split
    · rename_i hbad
      refine iff_of_false nofun ?_
      rintro ⟨⟨-, h1, h2⟩, -⟩
      rcases hbad with h | h
      · exact h1 h
      · exact h h2
    · rename_i hgood
      rw [not_or, not_not] at hgood
      rw [Option.some.injEq]
      constructor
      · rintro rfl
        exact ⟨⟨Int.not_lt.mp hpos, hgood⟩, rfl⟩
      · rintro ⟨-, rfl⟩
        rfl

theorem nsems_of_conv (h : k.conv conf id = some sp) : k.nsems conf id = sp.sem_nsems.toNat := by
  unfold Kernel.nsems
  rw [h]

theorem nsems_of_holds (h : k.Holds conf id) :
    k.nsems conf id = (k.sema (slot conf id)).sem_nsems.toNat :=
  nsems_of_conv (conv_some.mpr ⟨h, rfl⟩)

theorem nsems_of_not (h : ¬ k.Holds conf id) : k.nsems conf id = 0 := by
  unfold Kernel.nsems
  cases hc : k.conv conf id with
  | none => rfl
  | some sp => exact absurd (conv_some.mp hc).1 h

theorem holds_of_nsems (h : 0 < k.nsems conf id) : k.Holds conf id := by
  by_contra hn
  rw [nsems_of_not hn] at h
  exact absurd h (lt_irrefl 0)

/-- A slot holds one set at a time. -/
theorem Kernel.Holds.eq (h : k.Holds conf id) (h' : k.Holds conf id')
    (hs : slot conf id = slot conf id') : id = id' := by
  obtain ⟨h0, -, h1⟩ := h
  obtain ⟨h0', -, h1'⟩ := h'
  have hdiv : id.toNat / conf.semmni = id'.toNat / conf.semmni := by rw [h1, h1', hs]
  have hmod : id.toNat % conf.semmni = id'.toNat % conf.semmni := hs
  have heq : id.toNat = id'.toNat := by
    rw [← Nat.div_add_mod id.toNat conf.semmni, hdiv, hmod, Nat.div_add_mod]
  omega

theorem setHeader_self : (k.setHeader i sp).sema i = sp := update_self _ _ _

theorem setHeader_other {j : ℕ} (h : j ≠ i) : (k.setHeader i sp).sema j = k.sema j :=
  update_of_ne h _ _

theorem setHeader_holds_other (h : slot conf id ≠ i) :
    (k.setHeader i sp).Holds conf id ↔ k.Holds conf id := by
  unfold Kernel.Holds Kernel.Alloc
  rw [setHeader_other h]

theorem setHeader_nsems_other (h : slot conf id ≠ i) :
    (k.setHeader i sp).nsems conf id = k.nsems conf id := by
  by_cases hh : k.Holds conf id
  · rw [nsems_of_holds hh, nsems_of_holds ((setHeader_holds_other h).mpr hh), setHeader_other h]
  · rw [nsems_of_not hh, nsems_of_not (mt (setHeader_holds_other h).mp hh)]

/-- A header that is no set's. -/
theorem setHeader_nsems_free (h : sp.sem_perm.mode &&& 0o100000 = 0) (hs : slot conf id = i) :
    (k.setHeader i sp).nsems conf id = 0 := by
  apply nsems_of_not
  rintro ⟨-, hmode, -⟩
  rw [Kernel.Alloc, hs, setHeader_self] at hmode
  exact hmode h

end Headers

section Control

variable {conf : Semconf} {n : ℕ} {k : Kernel} {l : Ledger} {c : Cred} {semid : ℤ}

/-- The set `semid`, without entries, goes. -/
theorem Kept.remove {sp : SemidDs} (h : Kept conf n k fun p id num => if id = semid then 0 else l p id num)
    (hgone : ∀ p, ∀ e ∈ k.tbl p, e.un_id ≠ semid) (hold : k.Holds conf semid)
    (hmode : sp.sem_perm.mode = 0) : Kept conf n (k.setHeader (slot conf semid) sp) l := by
  have hfree : sp.sem_perm.mode &&& 0o100000 = 0 := by
    rw [hmode]
    rfl
  have hzero : (k.setHeader (slot conf semid) sp).nsems conf semid = 0 :=
    setHeader_nsems_free hfree rfl
  apply h.resize semid
  · exact ⟨rfl, rfl, rfl, rfl⟩
  · exact h.bounded
  · intro id hid
    by_cases hs : slot conf id = slot conf semid
    · rw [setHeader_nsems_free hfree hs, nsems_of_not fun hh => hid (hh.eq hold hs)]
    · exact setHeader_nsems_other hs
  · intro id _ _
    rfl
  · exact hgone
  · rw [hzero]
    exact Nat.zero_le _
  · intro id _ m hm
    rw [hzero] at hm
    exact absurd hm (Nat.not_lt_zero m)
  · intro p id num hnum
    by_cases hid : id = semid
    · rw [hid, hzero] at hnum
      exact absurd hnum (Nat.not_lt_zero _)
    · rw [if_neg hid, if_neg hid]

theorem semrmid_kept (h : Kept conf n k l) : Kept conf n (semrmid conf c semid k).2 l := by
  unfold semrmid
  split
  · exact h
  · rename_i sp hsp
    split
    · exact h
    · dsimp only
      have hn : k.nsems conf semid = sp.sem_nsems.toNat := nsems_of_conv hsp
      -- first the entries go, and the ledger with them
      obtain ⟨h1, htbl⟩ := h.semunrm (fun p id num => if id = semid then 0 else l p id num)
        semid 0 sp.sem_nsems fun p id' num hnum => by
          by_cases hid : id' = semid
          · rw [hid, hn] at hnum
            rw [if_pos hid, if_pos ⟨hid, Nat.zero_le _, by omega⟩]
          · rw [if_neg hid, if_neg fun hc => hid hc.1]
      obtain ⟨hf, hb⟩ := clearSems_spec (a := (semunrm semid 0 sp.sem_nsems k).sem_base
        (slot conf semid)) (n := sp.sem_nsems.toNat) h1.bounded
      apply (h1.frame hf hb).remove
      · intro p e he hid
        rw [tbl_same hf.same, htbl p, mem_filter] at he
        obtain ⟨hmem, hout⟩ := he
        obtain ⟨h0, hlt⟩ := h.live p e hmem
        rw [hid, hn] at hlt
        rw [Bool.not_eq_true', ← Bool.not_eq_true, Undo.within_iff] at hout
        exact hout ⟨hid, h0, by omega⟩
      · have hold := (conv_some.mp hsp).1
        unfold Kernel.Holds Kernel.Alloc at hold ⊢
        rw [hf.sema]
        exact hold
      · rfl

/-- A header whose set stays, with the same semaphores. -/
theorem Kept.reheader {sp : SemidDs} (h : Kept conf n k l) (hold : k.Holds conf semid)
    (hmode : sp.sem_perm.mode &&& 0o100000 ≠ 0)
    (hseq : sp.sem_perm.seq = (k.sema (slot conf semid)).sem_perm.seq)
    (hnsems : sp.sem_nsems = (k.sema (slot conf semid)).sem_nsems) :
    Kept conf n (k.setHeader (slot conf semid) sp) l := by
  refine Kept.congr h ⟨rfl, rfl, rfl, rfl⟩ ?_ rfl h.bounded
  funext id
  by_cases hs : slot conf id = slot conf semid
  · have hiff : (k.setHeader (slot conf semid) sp).Holds conf id ↔ k.Holds conf id := by
      unfold Kernel.Holds Kernel.Alloc
      rw [hs, setHeader_self, hseq]
      exact and_congr_right fun _ => and_congr_left fun _ => iff_of_true hmode hold.2.1
    by_cases hh : k.Holds conf id
    · rw [nsems_of_holds hh, nsems_of_holds (hiff.mpr hh), hs, setHeader_self, hnsems]
    · rw [nsems_of_not hh, nsems_of_not (mt hiff.mp hh)]
  · exact setHeader_nsems_other hs

theorem semset_kept {ds : Option IpcPerm} (h : Kept conf n k l) :
    Kept conf n (semset conf c semid ds k).2 l := by
  unfold semset
  split
  · exact h
  · rename_i sp hsp
    obtain ⟨hold, rfl⟩ := conv_some.mp hsp
    split
    · exact h
    · split
      · exact h
      · rename_i d
        apply h.reheader hold
        · show (d.mode &&& 0o777 ||| 0o100000) &&& 0o100000 ≠ 0
          intro hzero
          have hbit := congrArg UInt16.toBitVec hzero
          rw [UInt16.toBitVec_and, UInt16.toBitVec_or, BitVec.and_or_distrib_right] at hbit
          exact absurd (BitVec.or_eq_zero_iff.mp hbit).2 (by decide)
        · rfl
        · rfl

theorem setval_kept {s : State} {semnum : ℕ} {arg : ℤ} (h : Kept conf n s.k l) :
    Kept conf n (setval conf c semid semnum arg s.k).2
      (record conf s l (.setval c semid semnum arg)) := by
  show Kept conf n (setval conf c semid semnum arg s.k).2 (if (setval conf c semid semnum arg s.k).1 =
    none then fun p id num => if id = semid ∧ num.toNat = semnum then 0 else l p id num else l)
  generalize hr : setval conf c semid semnum arg s.k = r
  unfold setval at hr
  split at hr
  · rw [← hr]
    exact h
  · rename_i sp hsp
    split at hr
    · rw [← hr]
      exact h
    · split at hr
      · rw [← hr]
        exact h
      · rename_i hnum
        split at hr
        · rw [← hr]
          exact h
        · rename_i harg
          rw [← hr]
          dsimp only
          have hmax := conf.semvmx_le
          have hv : Valued _ (UInt16.ofInt arg) s.k (setPidAt (s.k.sem_base (slot conf semid) + semnum)
              c.p_pid (assign (s.k.sem_base (slot conf semid) + semnum) (UInt16.ofInt arg) s.k)) :=
            (assign_valued _).again rfl
          have h1 := h.frame hv.toFrame (hv.bounded h.bounded (by
            rw [ofInt_toNat (by omega) (by omega)]
            omega))
          rw [if_pos rfl]
          refine (h1.semunrm _ _ _ _ fun p id num _ => ?_).1
          have hlt := sp.sem_nsems.toNat_lt
          rw [UInt16.toNat_ofNat', Nat.mod_eq_of_lt (by omega)]
          by_cases hin : id = semid ∧ num.toNat = semnum
          · rw [if_pos hin, if_pos ⟨hin.1, hin.2.ge, hin.2.le⟩]
          · rw [if_neg hin, if_neg fun hc => hin ⟨hc.1, by omega⟩]

theorem setall_kept {s : State} {semvals : Option (ℕ → UInt16)} (h : Kept conf n s.k l) :
    Kept conf n (setall conf c semid semvals s.k).2
      (record conf s l (.setall c semid semvals)) := by
  show Kept conf n (setall conf c semid semvals s.k).2 (if (setall conf c semid semvals s.k).1 = none
    then fun p id num => if id = semid ∧ num.toNat < s.k.nsems conf semid then 0 else l p id num
    else l)
  generalize hr : setall conf c semid semvals s.k = r
  unfold setall at hr
  split at hr
  · rw [← hr]
    exact h
  · rename_i sp hsp
    split at hr
    · rw [← hr]
      exact h
    · split at hr
      · rw [← hr]
        exact h
      · rename_i vals
        dsimp only at hr
        split at hr
        · rw [← hr]
          exact h
        · rename_i hvals
          rw [← hr]
          dsimp only
          have hn : s.k.nsems conf semid = sp.sem_nsems.toNat := nsems_of_conv hsp
          have hk := (h.semunrm (fun p id num => if id = semid ∧ num.toNat < s.k.nsems conf semid then 0
              else l p id num) semid 0 sp.sem_nsems fun p id num hnum => by
              by_cases hid : id = semid
              · rw [hid] at hnum
                rw [if_pos ⟨hid, hnum⟩, if_pos ⟨hid, Nat.zero_le _, by omega⟩]
              · rw [if_neg fun hc => hid hc.1, if_neg fun hc => hid hc.1]).1
          obtain ⟨hf, hb⟩ := assignAll_spec (a := s.k.sem_base (slot conf semid)) c.p_pid
            ((List.range sp.sem_nsems.toNat).map vals) hk.bounded fun v hv => by
              by_contra hbig
              exact hvals (any_eq_true.mpr ⟨v, hv, by simpa using hbig⟩)
          exact hk.frame hf hb

theorem setHeader_setHeader {i : ℕ} (a b : SemidDs) :
    (k.setHeader i a).setHeader i b = k.setHeader i b := by
  unfold Kernel.setHeader
  dsimp only
  rw [update_idem]

theorem semgetNew_fail {i : ℕ} {sp : SemidDs} (h : Kept conf n k l) (hfree : ¬ k.Alloc i)
    (hmode : sp.sem_perm.mode = 0) : Kept conf n (k.setHeader i sp) l := by
  refine Kept.congr h ⟨rfl, rfl, rfl, rfl⟩ ?_ rfl h.bounded
  funext id
  by_cases hs : slot conf id = i
  · have hnot : ¬ k.Holds conf id := fun hh => hfree (hs ▸ hh.2.1)
    rw [setHeader_nsems_free (by rw [hmode]; rfl) hs, nsems_of_not hnot]
  · exact setHeader_nsems_other hs

theorem semgetNew_kept {s : State} {i : ℕ} {perm : IpcPerm} {nsems : ℤ} {base : Option ℕ}
    (h : Kept conf n s.k l) (hcan : Can conf s (.semget i perm nsems base)) :
    Kept conf n (semgetNew conf i perm nsems base s.k).2
      (record conf s l (.semget i perm nsems base)) := by
  obtain ⟨hi, hfree, hmode, hseq, hroom⟩ := hcan
  show Kept conf n (semgetNew conf i perm nsems base s.k).2
    (if (semgetNew conf i perm nsems base s.k).1 = none then fun p id num =>
      if id = perm.seq.toNat * conf.semmni + i then 0 else l p id num
    else l)
  generalize hr : semgetNew conf i perm nsems base s.k = r
  unfold semgetNew at hr
  dsimp only at hr
  simp only [setHeader_setHeader, setHeader_self] at hr
  split at hr
  · rw [← hr]
    exact semgetNew_fail h hfree rfl
  · rename_i hnsems
    split at hr
    · rw [← hr]
      exact semgetNew_fail h hfree rfl
    · rename_i b
      rw [← hr]
      dsimp only
      rw [if_pos rfl]
      have hmsl := conf.semmsl_le
      have hnat : ((UInt16.ofInt nsems).toNat : ℤ) = nsems := ofInt_toNat (by omega) (by omega)
      set id₀ : ℤ := perm.seq.toNat * conf.semmni + i with hid₀
      have hnat₀ : id₀.toNat = i + perm.seq.toNat * conf.semmni := by
        rw [hid₀, Int.add_comm, ← Int.natCast_mul, ← Int.natCast_add, Int.toNat_natCast]
      have hslot : slot conf id₀ = i := by
        rw [slot, hnat₀, Nat.add_mul_mod_self_right, Nat.mod_eq_of_lt hi]
      -- the set is there now, and nothing else was in its slot
      generalize ht : (⟨_, _, _, _, _, _, _, _, _⟩ : Kernel) = t
      have hsema : t.sema = (s.k.setHeader i ⟨perm, UInt16.ofInt nsems⟩).sema := by
        rw [← ht]
      have hnew : t.Holds conf id₀ := by
        refine ⟨by omega, ?_, ?_⟩
        · rw [Kernel.Alloc, hslot, hsema, setHeader_self]
          exact hmode
        · rw [hslot, hsema, setHeader_self, hnat₀, Nat.add_mul_div_right _ _ (by omega),
            Nat.div_eq_of_lt hi, Nat.zero_add]
      have hcount : t.nsems conf id₀ = nsems.toNat := by
        rw [nsems_of_holds hnew, hslot, hsema, setHeader_self]
        dsimp only
        omega
      have hbase (j : ℕ) : t.sem_base j = if j = i then b else s.k.sem_base j := by
        rw [← ht]
        show update s.k.sem_base i b j = _
        rw [update_apply]
      have hold (id : ℤ) (hpos : 0 < s.k.nsems conf id) : slot conf id ≠ i := by
        intro hs
        exact hfree (hs ▸ (holds_of_nsems hpos).2.1)
      apply h.resize id₀
      · rw [← ht]
        exact ⟨rfl, rfl, rfl, rfl⟩
      · rw [← ht]
        exact h.bounded
      · intro id hid
        rw [nsems_congr hsema]
        by_cases hs : slot conf id = i
        · have hnot : ¬ (s.k.setHeader i ⟨perm, UInt16.ofInt nsems⟩).Holds conf id := by
            intro hh
            apply hid
            apply Kernel.Holds.eq (k := t) _ hnew (hs.trans hslot.symm)
            unfold Kernel.Holds Kernel.Alloc at hh ⊢
            rw [hsema]
            exact hh
          rw [nsems_of_not hnot]
          by_contra hne
          exact hold id (Nat.pos_of_ne_zero (Ne.symm hne)) hs
        · exact setHeader_nsems_other hs
      · intro id _ hpos
        rw [hbase, if_neg (hold id hpos)]
      · intro p e he heq
        obtain ⟨h0, hlt⟩ := h.live p e he
        exact hold e.un_id (by omega) (heq ▸ hslot)
      · rw [hcount]
        omega
      · intro id _ m hm m' hm'
        have hpos : 0 < s.k.nsems conf id := by omega
        have hh := holds_of_nsems hpos
        have hapart := hroom b rfl (slot conf id) (Nat.mod_lt _ (by omega)) hh.2.1
        rw [hcount] at hm
        rw [nsems_of_holds hh] at hm'
        unfold Kernel.addr
        rw [hbase, hslot, if_pos rfl]
        omega
      · intro p id num _
        rfl

end Control

/-! ## `semop` -/

section Operations

variable {conf : Semconf} {info : Seminfo} {n : ℕ} {k : Kernel} {l : Ledger} {es : List Undo}

theorem adjOf_of_mem (hs : es.Pairwise fun a b => a.before b.un_id b.un_num = true) {e : Undo}
    (he : e ∈ es) : adjOf e.un_id e.un_num es = e.un_aoe.toInt := by
  obtain ⟨bs, cs, rfl⟩ := append_of_mem he
  rw [adjOf_append fun b hb => (pairwise_append.mp hs).2.2 b hb e mem_cons_self, adjOf,
    if_pos ⟨rfl, rfl⟩]

theorem exists_of_adjOf {id : ℤ} {num : Int16} (h : adjOf id num es ≠ 0) :
    ∃ e ∈ es, e.un_id = id ∧ e.un_num = num := by
  by_contra hnone
  apply h
  apply adjOf_eq_zero
  intro b hb hkey
  exact hnone ⟨b, hb, hkey⟩

theorem exists_of_undoSum (num : UInt16) (ops : List Sembuf) (h : undoSum num ops ≠ 0) :
    ∃ op ∈ ops, op.undo = true ∧ op.sem_num = num := by
  unfold undoSum at h
  induction ops with
  | nil => exact absurd rfl h
  | cons op ops ih =>
    by_cases hop : op.undo = true ∧ op.sem_num = num
    · exact ⟨op, mem_cons_self, hop⟩
    · have hrest : opSum num (ops.filter Sembuf.undo) ≠ 0 := by
        intro hzero
        apply h
        by_cases hu : op.undo = true
        · rw [filter_cons_of_pos hu, opSum, hzero, if_neg fun hnum => hop ⟨hu, hnum.symm⟩]
          rfl
        · rw [filter_cons_of_neg hu, hzero]
      obtain ⟨o, ho, h1⟩ := ih hrest
      exact ⟨o, mem_cons_of_mem _ ho, h1⟩

theorem semop_done {env : Env} {uap : Args} {s : Sys} {entry : Entry}
    (h : (semop info env uap s entry).1 = .done) : ∃ sp, semconv info env uap.semid = some sp ∧
      (verify env sp uap.sops = none ∨ entry = .wakeup) := by
  cases entry with
  | call =>
    unfold semop at h
    simp only at h
    split at h
    · exact absurd h nofun
    · rename_i sp hsp
      split at h
      · exact absurd h nofun
      · split at h
        · exact absurd h nofun
        · split at h
          · exact absurd h nofun
          · rename_i hv
            exact ⟨sp, hsp, .inl hv⟩
  | wakeup =>
    unfold semop at h
    simp only at h
    split at h
    · exact absurd h nofun
    · rename_i sp hsp
      exact ⟨sp, hsp, .inr rfl⟩
  | signal c => exact absurd h nofun

/-- No `SEM_UNDO` operation that is copied in after a sleep is on a semaphore out of the set. -/
def Inside (conf : Semconf) (s : State) : Act → Prop
  | .semop _ uap .wakeup => ∀ sp, s.k.conv conf uap.semid = some sp →
      ∀ op ∈ uap.sops, op.undo = true → op.sem_num < sp.sem_nsems
  | _ => True

theorem semop_kept {s : State} {c : Cred} {uap : Args} {entry : Entry} (h : Kept conf n s.k l)
    (hin : Inside conf s (.semop c uap entry)) :
    Kept conf n (ksemop conf c uap entry s).2.k (record conf s l (.semop c uap entry)) := by
  show Kept conf n (ksemop conf c uap entry s).2.k
    (if (ksemop conf c uap entry s).1 = .done then fun p id num =>
      if p = c.p ∧ id = uap.semid then l p id num + undoSum num uap.sops else l p id num
    else l)
  unfold ksemop
  extract_lets i base r verified proc
  have hall : AllOrNothing conf.toSeminfo (s.k.env c) uap (s.k.view i base) r :=
    semop_all_or_nothing _ _ _ (h.wf i base) entry
  have hview : Chained n (s.k.view i base) := h.chained.same ⟨rfl, rfl, rfl, rfl⟩
  have hchained : Chained n r.2 := semop_chained hview entry
  have hb : Bounded conf (s.k.put i base r.2) := by
    intro a
    show (((if base ≤ a ∧ a < base + 65536 then r.2.sem (UInt16.ofNat (a - base))
      else s.k.sem a).semval.toNat : ℕ) : ℤ) ≤ conf.semvmx
    split
    · exact hall.wf.semval _
    · exact h.bounded a
  have hwf : ∀ j b, WF conf.toSeminfo ((s.k.put i base r.2).view j b) :=
    wf_views hall.wf rfl rfl rfl hb
  have htbl (p : ℕ) : (s.k.put i base r.2).tbl p = tbl p r.2 := rfl
  by_cases hdone : r.1 = .done
  · have hsucc := hall.all hdone
    obtain ⟨sp, hsp, hver⟩ := semop_done hdone
    have hconv : s.k.conv conf uap.semid = some sp := hsp
    have hnum : ∀ op ∈ uap.sops, op.undo = true → op.sem_num < sp.sem_nsems := by
      intro op hop hundo
      rcases hver with hver | rfl
      · exact (verify_ok hver hop).1
      · exact hin sp hconv op hop hundo
    rw [if_pos hdone]
    refine h.retable rfl rfl hwf (hchained.same ⟨rfl, rfl, rfl, rfl⟩) (fun p e he => ?_)
      fun p id num hlt => ?_
    · unfold Undo.Live
      rw [htbl] at he
      by_cases hp : p = c.p
      · rw [hp] at he
        have htable : Table conf.toSeminfo (tbl c.p r.2) := Ipc.tbl_table hall.wf
        have haoe : e.un_aoe.toInt ≠ 0 := fun h0 =>
          (htable.bounded e he).1 (Int16.toInt.inj h0)
        have hadj := hsucc.adjust e.un_id e.un_num.toUInt16
        have hself : e.un_num.toUInt16.toInt16 = e.un_num := rfl
        rw [hself, show (s.k.env c).p = c.p from rfl, adjOf_of_mem htable.sorted he] at hadj
        by_cases hbefore : adjOf e.un_id e.un_num (s.k.tbl c.p) = 0
        · rw [show tbl c.p (s.k.view i base) = s.k.tbl c.p from rfl, hbefore] at hadj
          have hid : e.un_id = uap.semid := by
            by_contra hne
            rw [if_neg hne] at hadj
            exact haoe hadj
          rw [if_pos hid] at hadj
          obtain ⟨op, hop, hundo, hopnum⟩ := exists_of_undoSum e.un_num.toUInt16
            uap.sops (by omega)
          have hlt := hnum op hop hundo
          rw [hopnum, UInt16.lt_iff_toNat_lt, ← nsems_of_conv hconv] at hlt
          have hint := h.num_toInt hlt
          rw [hself] at hint
          rw [hid]
          omega
        · obtain ⟨f, hf, hid, hfnum⟩ := exists_of_adjOf hbefore
          rw [← hid, ← hfnum]
          exact h.live c.p f hf
      · rw [hsucc.others p hp] at he
        exact h.live p e he
    · rw [htbl]
      have hlaw := h.law p id num hlt
      by_cases hp : p = c.p
      · rw [hp] at hlaw ⊢
        rw [show tbl c.p r.2 = tbl (s.k.env c).p r.2 from rfl, hsucc.adjust id num,
          show tbl (s.k.env c).p (s.k.view i base) = s.k.tbl c.p from rfl, hlaw]
        by_cases hid : id = uap.semid
        · rw [if_pos hid, if_pos ⟨rfl, hid⟩]
          omega
        · rw [if_neg hid, if_neg fun hc => hid hc.2]
          omega
      · rw [hsucc.others p hp, if_neg fun hc => hp hc.1]
        exact hlaw
  · have hsame := hall.nothing hdone
    rw [if_neg hdone]
    refine h.retable rfl rfl hwf (hchained.same ⟨rfl, rfl, rfl, rfl⟩) (fun p e he => ?_)
      fun p id num hlt => ?_
    · rw [htbl, hsame.adjust p] at he
      exact h.live p e he
    · rw [htbl, hsame.adjust p]
      exact h.law p id num hlt

end Operations

/-! ## The end of a process -/

/-- Process `p` gives back its undo structure `up`. -/
def release (p up : ℕ) (k : Kernel) : Kernel :=
  { k with
    un_ent := update k.un_ent up []
    semunp := k.semunp.erase up
    semfup := up :: k.semfup
    sem_undo := update k.sem_undo p none }

section Exit

variable {conf : Semconf} {n p up : ℕ} {k : Kernel} {l : Ledger}

theorem semexit_some (hc : Chained n (k.view 0 0)) (hp : k.sem_undo p = some up) :
    semexit conf p k = release p up (exitLoop conf (k.un_ent up).reverse k) := by
  unfold semexit
  rw [hp]
  dsimp only
  split
  · rename_i hempty
    have hnil : k.un_ent up = [] := isEmpty_iff.mp hempty
    have hout : up ∉ k.semunp := fun hin => (hc.mem up).mp hin hnil
    rw [hnil]
    show _ = release p up k
    unfold release
    rw [erase_of_not_mem hout, ← hnil, update_eq_self]
  · rfl

theorem Kept.release (h : Kept conf n k l) (hp : k.sem_undo p = some up) :
    Kept conf n (release p up k) fun q id num => if q = p then 0 else l q id num := by
  have hwf := h.wf 0 0
  have hself : update k.un_ent up [] up = [] := update_self _ _ _
  have hother (v : ℕ) (hv : v ≠ up) : update k.un_ent up [] v = k.un_ent v :=
    update_of_ne hv _ _
  have hgone : update k.sem_undo p none p = none := update_self _ _ _
  have hstay (q : ℕ) (hq : q ≠ p) : update k.sem_undo p none q = k.sem_undo q :=
    update_of_ne hq _ _
  have howner (q v : ℕ) (hq : update k.sem_undo p none q = some v) :
      k.sem_undo q = some v ∧ q ≠ p := by
    by_cases hqp : q = p
    · rw [hqp, hgone] at hq
      exact absurd hq nofun
    · rw [hstay q hqp] at hq
      exact ⟨hq, hqp⟩
  have hunowned (q : ℕ) : update k.sem_undo p none q ≠ some up := by
    intro hq
    obtain ⟨h1, h2⟩ := howner q up hq
    exact h2 (hwf.owned q p up h1 hp)
  have htbl (q : ℕ) : (Ipc.release p up k).tbl q = if q = p then [] else k.tbl q := by
    unfold Kernel.tbl Ipc.tbl Kernel.view Ipc.release
    dsimp only
    by_cases hq : q = p
    · rw [hq, hgone, if_pos rfl]
    · rw [hstay q hq, if_neg hq]
      cases hv : k.sem_undo q with
      | none => rfl
      | some v =>
        apply hother v
        rintro rfl
        exact hq (hwf.owned q p v hv hp)
  refine h.retable rfl rfl (fun i base => ⟨?_, ?_, ?_, ?_, (h.wf i base).semval⟩) ⟨?_, ?_, ?_, ?_⟩
    (fun q e he => ?_) fun q id num hnum => ?_
  · intro q r v hq hr
    exact hwf.owned q r v (howner q v hq).1 (howner r v hr).1
  · intro v hv
    by_cases hvu : v = up
    · rw [hvu]
      exact ⟨hself, hunowned⟩
    · obtain ⟨h1, h2⟩ := hwf.free v ((mem_cons.mp hv).resolve_left hvu)
      exact ⟨(hother v hvu).trans h1, fun q hq => h2 q (howner q v hq).1⟩
  · exact nodup_cons.mpr ⟨fun hin => (hwf.free up hin).2 p hp, hwf.nodup⟩
  · intro v
    show Table conf.toSeminfo (update k.un_ent up [] v)
    by_cases hv : v = up
    · rw [hv, hself]
      exact ⟨List.Pairwise.nil, nofun, Nat.zero_le _⟩
    · rw [hother v hv]
      exact h.table v
  · exact h.chained.nodup.erase up
  · intro v
    show v ∈ k.semunp.erase up ↔ update k.un_ent up [] v ≠ []
    by_cases hv : v = up
    · rw [hv, hself]
      have hnd : k.semunp.Nodup := h.chained.nodup
      exact iff_of_false (fun hin => (hnd.mem_erase_iff.mp hin).1 rfl) fun hne => hne rfl
    · rw [hother v hv, mem_erase_of_ne hv]
      exact h.chained.mem v
  · intro v hv
    have hvu : v ≠ up := by
      rintro rfl
      exact hv hself
    have hent : k.un_ent v ≠ [] := by
      rw [← hother v hvu]
      exact hv
    obtain ⟨q, hq⟩ := h.chained.owner v hent
    refine ⟨q, ?_⟩
    have hqp : q ≠ p := by
      rintro rfl
      exact hvu (Option.some.inj (hq.symm.trans hp))
    exact (hstay q hqp).trans hq
  · intro v
    show v < n ↔ v ∈ up :: k.semfup ∨ ∃ q, update k.sem_undo p none q = some v
    rw [h.chained.pool v]
    constructor
    · rintro (hv | ⟨q, hq⟩)
      · exact .inl (mem_cons_of_mem _ hv)
      · by_cases hqp : q = p
        · rw [hqp] at hq
          exact .inl (Option.some.inj (hp.symm.trans hq) ▸ mem_cons_self)
        · exact .inr ⟨q, (hstay q hqp).trans hq⟩
    · rintro (hv | ⟨q, hq⟩)
      · rcases mem_cons.mp hv with rfl | hv
        · exact .inr ⟨p, hp⟩
        · exact .inl hv
      · exact .inr ⟨q, (howner q v hq).1⟩
  · rw [htbl q] at he
    split at he
    · exact absurd he not_mem_nil
    · exact h.live q e he
  · rw [htbl q]
    split
    · rfl
    · exact h.law q id num hnum

/-- What `semexit` adds to the semaphores, and where the structure goes. -/
structure Exited (conf : Semconf) (p : ℕ) (k t : Kernel) : Prop where
  adjusted : ∀ (id : ℤ) (num : UInt16), num.toNat < k.nsems conf id →
    let v := ((k.sem (k.addr conf id num.toNat)).semval.toNat : ℤ)
    ((t.sem (k.addr conf id num.toNat)).semval.toNat : ℤ) =
      if 0 ≤ v + adjOf id num.toInt16 (k.tbl p) ∧ v + adjOf id num.toInt16 (k.tbl p) ≤ conf.semvmx then
        v + adjOf id num.toInt16 (k.tbl p)
      else v
  returned : ∀ up, k.sem_undo p = some up →
    t.sem_undo p = none ∧ t.un_ent up = [] ∧ t.semfup = up :: k.semfup

/-- No two entries are of one semaphore. -/
theorem Kept.addr_ne (h : Kept conf n k l) {e f : Undo} (he : e.Live conf k) (hf : f.Live conf k)
    (hlt : e.before f.un_id f.un_num = true) : e.addr conf k ≠ f.addr conf k := by
  obtain ⟨he0, helt⟩ := he
  obtain ⟨hf0, hflt⟩ := hf
  rcases Undo.before_iff.mp hlt with hid | ⟨hid, hnum⟩
  · exact h.apart _ _ (by omega) _ (by omega) _ (by omega)
  · unfold Undo.addr Kernel.addr
    rw [hid]
    omega

theorem semexit_kept (h : Kept conf n k l) :
    Kept conf n (semexit conf p k) (fun q id num => if q = p then 0 else l q id num) ∧
      Exited conf p k (semexit conf p k) := by
  have hsame {v : UInt16} (hv : (v.toNat : ℤ) ≤ conf.semvmx) : (v.toNat : ℤ) =
      if 0 ≤ (v.toNat : ℤ) + 0 ∧ (v.toNat : ℤ) + 0 ≤ conf.semvmx then (v.toNat : ℤ) + 0
      else (v.toNat : ℤ) := by
    rw [if_pos (by omega), Int.add_zero]
  cases hp : k.sem_undo p with
  | none =>
    have htbl : k.tbl p = [] := by
      unfold Kernel.tbl Ipc.tbl Kernel.view
      dsimp only
      rw [hp]
    have hexit : semexit conf p k = k := by
      unfold semexit
      rw [hp]
    rw [hexit]
    refine ⟨h.ledger fun q id num hnum => ?_, fun id num _ => ?_, fun up hup => ?_⟩
    · split
      · rename_i hq
        have hlaw := h.law q id num hnum
        rw [hq, htbl] at hlaw
        rw [hq]
        exact (Int.neg_eq_zero.mp hlaw.symm).symm
      · rfl
    · rw [htbl]
      exact hsame (h.bounded _)
    · exact absurd (hp.symm.trans hup) nofun
  | some up =>
    have htbl : k.tbl p = k.un_ent up := tbl_of_some hp
    have hsorted : (k.un_ent up).Pairwise fun a b => a.before b.un_id b.un_num = true :=
      (h.table up).sorted
    have hlive : ∀ e ∈ (k.un_ent up).reverse, e.Live conf k := by
      intro e he
      exact h.live p e (htbl ▸ mem_reverse.mp he)
    have hapart : (k.un_ent up).reverse.Pairwise fun e f => e.addr conf k ≠ f.addr conf k := by
      rw [pairwise_reverse]
      apply hsorted.imp_of_mem
      intro e f he hf hlt
      exact (h.addr_ne (hlive e (mem_reverse.mpr he)) (hlive f (mem_reverse.mpr hf))
        hlt).symm
    obtain ⟨hf, hout, hin⟩ := exitLoop_spec hlive hapart
    have hb : Bounded conf (exitLoop conf (k.un_ent up).reverse k) := by
      intro a
      by_cases hex : ∃ e ∈ (k.un_ent up).reverse, e.addr conf k = a
      · obtain ⟨e, he, rfl⟩ := hex
        have hbound := h.bounded (e.addr conf k)
        rw [hin e he, bump_toInt]
        split <;> omega
      · rw [hout a fun e he heq => hex ⟨e, he, heq⟩]
        exact h.bounded a
    rw [semexit_some h.chained hp]
    refine ⟨(h.frame hf hb).release (hf.sem_undo ▸ hp), fun id num hnum => ?_, fun v hv => ?_⟩
    · show (((exitLoop conf (k.un_ent up).reverse k).sem _).semval.toNat : ℤ) = _
      have hint := h.num_toInt hnum
      by_cases hadj : adjOf id num.toInt16 (k.tbl p) = 0
      · -- an entry of the semaphore would not be 0
        have hnone : ∀ e ∈ (k.un_ent up).reverse, e.addr conf k ≠ k.addr conf id num.toNat := by
          intro e he heq
          have hmem := mem_reverse.mp he
          obtain ⟨h0, hlt⟩ := hlive e he
          have hid : e.un_id = id := by
            by_contra hne
            exact h.apart _ _ hne _ (by omega) _ hnum heq
          have hnum' : e.un_num = num.toInt16 := by
            apply Int16.toInt.inj
            unfold Undo.addr Kernel.addr at heq
            rw [hid] at heq
            omega
          have hval := adjOf_of_mem hsorted hmem
          rw [hid, hnum', ← htbl, hadj] at hval
          exact ((h.table up).bounded e hmem).1 (Int16.toInt.inj hval.symm)
        rw [hout _ hnone, hadj]
        exact hsame (h.bounded _)
      · obtain ⟨e, he, hid, hnum'⟩ := exists_of_adjOf hadj
        have haddr : e.addr conf k = k.addr conf id num.toNat := by
          unfold Undo.addr
          rw [hid, hnum', hint]
          rfl
        have hmem : e ∈ k.un_ent up := htbl ▸ he
        have hval := adjOf_of_mem hsorted hmem
        rw [hid, hnum', ← htbl] at hval
        rw [← haddr, hin e (mem_reverse.mpr hmem), bump_toInt, hval]
    · obtain rfl := Option.some.inj (hp.symm.trans hv)
      refine ⟨update_self _ _ _, update_self _ _ _, ?_⟩
      show up :: (exitLoop conf (k.un_ent up).reverse k).semfup = up :: k.semfup
      rw [hf.semfup]

end Exit

/-! ## Runs -/

/-- A step, and what it does to the ledger. -/
def Lstep (conf : Semconf) (x : State × Ledger) (a : Act) (y : State × Ledger) : Prop :=
  Kstep conf x.1 a y.1 ∧ y.2 = record conf x.1 x.2 a

def Istep (conf : Semconf) (x : State × Ledger) (a : Act) (y : State × Ledger) : Prop :=
  Lstep conf x a y ∧ Inside conf x.1 a

/-- The tables of all processes, the chains, and what `semexit` would do in each process. -/
structure Bookkept (conf : Semconf) (k : Kernel) (l : Ledger) : Prop where
  sorted : ∀ p, (k.tbl p).Pairwise fun a b => a.before b.un_id b.un_num = true
  nonzero : ∀ p, ∀ e ∈ k.tbl p, e.un_aoe ≠ 0
  nodup : k.semunp.Nodup
  chain : ∀ up, up ∈ k.semunp ↔ k.un_ent up ≠ []
  law : ∀ p id num, num.toNat < k.nsems conf id → adjOf id num.toInt16 (k.tbl p) = -l p id num
  exit : ∀ p, Exited conf p k (semexit conf p k)

section Runs

variable {conf : Semconf} {n : ℕ} {s t : State} {l l' : Ledger} {a : Act} {as : List Act}

theorem Kept.bookkept {k : Kernel} (h : Kept conf n k l) : Bookkept conf k l where
  sorted p := (h.tbl_table p).sorted
  nonzero p e he := ((h.tbl_table p).bounded e he).1
  nodup := h.chained.nodup
  chain := h.chained.mem
  law := h.law
  exit _ := semexit_kept h |>.2

theorem Kept.step (h : Kept conf n s.k l) (hstep : Istep conf (s, l) a (t, l')) :
    Kept conf n t.k l' := by
  obtain ⟨⟨⟨hcan, ht⟩, hl⟩, hin⟩ := hstep
  dsimp only at hcan ht hl hin
  rw [ht, hl]
  cases a with
  | semop c uap entry => exact semop_kept h hin
  | rmid c semid => exact semrmid_kept h
  | set c semid ds => exact semset_kept h
  | setval c semid semnum arg => exact setval_kept h
  | setall c semid semvals => exact setall_kept h
  | semget i perm nsems base => exact semgetNew_kept h hcan
  | exit p => exact (semexit_kept h).1

theorem seminit_kept : Kept conf n (seminit n).k fun _ _ _ => 0 := by
  have hfree (i : ℕ) : ¬ (seminit n).k.Alloc i := by
    show ¬ ((0 : UInt16) &&& 0o100000 ≠ 0)
    decide
  have hn (id : ℤ) : (seminit n).k.nsems conf id = 0 := nsems_of_not fun hh => hfree _ hh.2.1
  refine ⟨fun i base => ⟨nofun, fun up _ => ⟨rfl, nofun⟩, nodup_range, fun up => ?_, fun num => ?_⟩,
    ⟨nodup_nil, fun up => ?_, fun up hup => absurd rfl hup, fun up => ?_⟩, nofun,
    fun p id num hnum => ?_, fun id => ?_, fun id id' _ m hm => ?_⟩
  · exact ⟨List.Pairwise.nil, nofun, Nat.zero_le _⟩
  · exact conf.semvmx_nonneg
  · exact iff_of_false not_mem_nil fun hne => hne rfl
  · show up < n ↔ up ∈ List.range n ∨ ∃ p, none = some up
    rw [mem_range]
    exact ⟨.inl, fun h => h.resolve_right nofun⟩
  · rw [hn id] at hnum
    exact absurd hnum (Nat.not_lt_zero _)
  · rw [hn id]
    exact Nat.zero_le _
  · rw [hn id] at hm
    exact absurd hm (Nat.not_lt_zero m)

/-- Over every run of all processes in which each `SEM_UNDO` operation copied in after a sleep stays
inside its set, the undo tables and chains are in order, and agree with the ledger. -/
theorem semundo_bookkept (hr : Run (Istep conf) (seminit n, fun _ _ _ => 0) as (t, l)) :
    Bookkept conf t.k l := by
  have hkept : Kept conf n (t, l).1.k (t, l).2 := by
    apply hr.invariant (I := fun x => Kept conf n x.1.k x.2)
    · intro x a y hx hstep
      exact hx.step hstep
    · exact seminit_kept
  exact hkept.bookkept

theorem Istep.of (hcan : Can conf s a) (hin : Inside conf s a) :
    Istep conf (s, l) a (next conf s a, record conf s l a) := ⟨⟨⟨hcan, rfl⟩, rfl⟩, hin⟩

end Runs

/-- The set with index `i` and one semaphore, at `i` in `sem[]`. -/
def getOne (i : ℕ) : Act := .semget i ⟨0, 0, 0, 0, 0o100600, 0⟩ 1 (some i)

theorem getOne_can : Can semconf (seminit 30) (getOne 0) := by
  have hfree (j : ℕ) : ¬ (seminit 30).k.Alloc j := by
    show ¬ ((0 : UInt16) &&& 0o100000 ≠ 0)
    decide
  exact ⟨by decide, hfree 0, by decide, rfl, fun b _ j _ hj => absurd hj (hfree j)⟩

/-- A process adds 1 to a semaphore, to be taken off when it ends. -/
theorem semundo_bookkept_one : ∃ t l,
    Run (Istep semconf) (seminit 30, fun _ _ _ => 0)
      [getOne 0, .semop root ⟨0, [⟨0, 1, 0o10000⟩], true⟩ .call] (t, l) ∧
    l 1 0 0 = 1 ∧ t.k.nsems semconf 0 = 1 ∧ Bookkept semconf t.k l := by
  have hrun := Run.cons (Istep.of (l := fun _ _ _ => 0) getOne_can trivial)
    (.single (.of (a := Act.semop root ⟨0, [⟨0, 1, 0o10000⟩], true⟩ .call) rfl trivial))
  exact ⟨_, _, hrun, rfl, rfl, semundo_bookkept hrun⟩

/-- A process that waits for the first semaphore finds an operation on the one behind its set, which
is another set's. -/
def straying : List Act :=
  [getOne 0, getOne 1, .semop root ⟨0, [⟨0, -1, 0⟩], true⟩ .call,
    .semop root ⟨0, [⟨1, 1, 0o10000⟩], true⟩ .wakeup]

/-- When it ends, it takes off 1 from a semaphore on which it has no adjust value. -/
theorem undo_strays : ∃ t l,
    Run (Lstep semconf) (seminit 30, fun _ _ _ => 0) straying (t, l) ∧ ¬ Bookkept semconf t.k l := by
  have hcan : Can semconf (next semconf (seminit 30) (getOne 0)) (getOne 1) := by
    refine ⟨by decide, by decide, by decide, rfl, fun b hb j hj => ?_⟩
    obtain rfl := Option.some.inj hb
    revert j
    decide
  have h1 := Run.single (Istep.of (l := fun _ _ _ => 0) getOne_can trivial).1
  have h2 := h1.snoc (Istep.of hcan trivial).1
  have h3 := h2.snoc (a := Act.semop root ⟨0, [⟨0, -1, 0⟩], true⟩ .call) (u := (_, _)) ⟨⟨rfl, rfl⟩, rfl⟩
  have hrun := h3.snoc (a := Act.semop root ⟨0, [⟨1, 1, 0o10000⟩], true⟩ .wakeup) (u := (_, _))
    ⟨⟨⟨_, rfl, rfl, rfl⟩, rfl⟩, rfl⟩
  refine ⟨_, _, hrun, fun h => ?_⟩
  have hexit := (h.exit 1).adjusted 1 0 (by decide)
  exact absurd hexit (by decide)

end Svr3.Ipc
