import Mathlib.Algebra.GroupWithZero.Nat
import Svr3.Lib.Run
import Svr3.Os.Iget

/-!
# The inode cache over runs

Over any interleaving of the processes at their sleep points, where no reference is taken to an
inode whose count is at its last value before 0: an inode is free if and only if it has no
references, the hashed inodes are on the chains of their numbers, and no two of them have the same
mount and number.
-/

namespace Svr3.Iget

open List

variable {n : ℕ}

/-- The mount and the number of an inode. -/
def Sys.key (y : Sys n) (ip : Fin n) : Option (ℕ × ℤ) :=
  some ((y.inode ip).i_mntdev, (y.inode ip).i_number)

def Sys.home (y : Sys n) (ip : Fin n) : ℤ := ihash (y.inode ip).i_number

/-- The order of the cache. -/
structure Cached (y : Sys n) : Prop where
  free : ∀ ip, ip ∈ y.ifreelist ↔ (y.inode ip).i_count = 0
  nodup : y.ifreelist.Nodup
  placed : Chains.Placed y.home y.hinode
  apart : Chains.Apart y.key y.hinode

/-- Inodes other than `ip` are as they were, and `ip` has kept its number. -/
structure Only (ip : Fin n) (y z : Sys n) : Prop where
  others : ∀ jp ≠ ip, z.inode jp = y.inode jp
  i_number : (z.inode ip).i_number = (y.inode ip).i_number
  i_mntdev : (z.inode ip).i_mntdev = (y.inode ip).i_mntdev

section Cache

variable {y z : Sys n} {ip jp : Fin n}

theorem set_self (y : Sys n) (ip : Fin n) (i : Inode) : (y.set ip i).inode ip = i :=
  Function.update_self _ _ _

theorem set_other (y : Sys n) {ip jp : Fin n} (h : jp ≠ ip) (i : Inode) :
    (y.set ip i).inode jp = y.inode jp := Function.update_of_ne h _ _

theorem Only.refl (ip : Fin n) (y : Sys n) : Only ip y y := ⟨fun _ _ => rfl, rfl, rfl⟩

theorem Only.trans {w : Sys n} (h : Only ip y z) (h' : Only ip z w) : Only ip y w :=
  ⟨fun jp hj => (h'.others jp hj).trans (h.others jp hj), h'.i_number.trans h.i_number,
    h'.i_mntdev.trans h.i_mntdev⟩

theorem Only.set (ip : Fin n) {i : Inode} (hz : z.inode = y.inode) (h1 : i.i_number = (y.inode ip).i_number)
    (h2 : i.i_mntdev = (y.inode ip).i_mntdev) : Only ip y (z.set ip i) := by
  refine ⟨fun jp hj => ?_, ?_, ?_⟩
  · rw [set_other z hj, hz]
  · rw [set_self, h1]
  · rw [set_self, h2]

theorem Only.number (h : Only ip y z) (jp : Fin n) :
    (z.inode jp).i_number = (y.inode jp).i_number := by
  by_cases hj : jp = ip
  · rw [hj, h.i_number]
  · rw [h.others jp hj]

theorem Only.mntdev (h : Only ip y z) (jp : Fin n) :
    (z.inode jp).i_mntdev = (y.inode jp).i_mntdev := by
  by_cases hj : jp = ip
  · rw [hj, h.i_mntdev]
  · rw [h.others jp hj]

/-- Numbers stay, and inodes may go off the chains. -/
theorem Cached.keep (h : Cached y) (hn : ∀ jp, (z.inode jp).i_number = (y.inode jp).i_number)
    (hm : ∀ jp, (z.inode jp).i_mntdev = (y.inode jp).i_mntdev)
    (hfree : ∀ jp, jp ∈ z.ifreelist ↔ (z.inode jp).i_count = 0) (hnd : z.ifreelist.Nodup)
    (hc : z.hinode = y.hinode ∨ ∃ jp, z.hinode = y.hinode.remove jp) : Cached z := by
  have hhome : z.home = y.home := by
    funext jp
    rw [Sys.home, hn jp]
    rfl
  have hkey : z.key = y.key := by
    funext jp
    rw [Sys.key, hn jp, hm jp]
    rfl
  refine ⟨hfree, hnd, ?_, ?_⟩
  · rw [hhome]
    rcases hc with hc | ⟨jp, hc⟩
    · rw [hc]
      exact h.placed
    · rw [hc]
      exact h.placed.remove jp
  · rw [hkey]
    refine h.apart.congr (fun jp hon => ?_) fun _ _ => .inl rfl
    rcases hc with hc | ⟨kp, hc⟩
    · exact hc ▸ hon
    · rw [hc, h.placed.on_remove] at hon
      exact hon.2

/-- The count of `ip` stays, or it changes with its place on the free list. -/
theorem Cached.only (h : Cached y) (ho : Only ip y z)
    (hc : z.hinode = y.hinode ∨ ∃ jp, z.hinode = y.hinode.remove jp) (hnd : z.ifreelist.Nodup)
    (hip : ip ∈ z.ifreelist ↔ (z.inode ip).i_count = 0)
    (hjp : ∀ jp ≠ ip, jp ∈ z.ifreelist ↔ jp ∈ y.ifreelist) : Cached z := by
  refine h.keep ho.number ho.mntdev (fun jp => ?_) hnd hc
  by_cases hj : jp = ip
  · rw [hj]
    exact hip
  · rw [hjp jp hj, ho.others jp hj]
    exact h.free jp

/-- Only the lock and the like change. -/
theorem Cached.set (h : Cached y) {i : Inode} (h1 : i.i_number = (y.inode ip).i_number)
    (h2 : i.i_mntdev = (y.inode ip).i_mntdev) (h3 : i.i_count = (y.inode ip).i_count) :
    Cached (y.set ip i) := by
  refine h.only (Only.set _ rfl h1 h2) (.inl rfl) h.nodup ?_ fun _ _ => Iff.rfl
  rw [set_self, h3]
  exact h.free ip

theorem prele_cached (h : Cached y) : Cached (prele ip y) := h.set rfl rfl rfl

theorem readFailed_cached (h : Cached y) (hc : (y.inode ip).i_count ≠ 0) :
    Cached (readFailed ip y) := by
  have hout : ip ∉ y.ifreelist := fun hin => hc ((h.free ip).mp hin)
  apply prele_cached
  refine h.only (Only.set ip rfl rfl rfl) (.inr ⟨ip, rfl⟩) ?_ ?_ fun jp hj => ?_
  · exact h.nodup.append (nodup_singleton ip) (disjoint_singleton.mpr hout)
  · rw [set_self]
    exact iff_of_true (mem_append_right _ (mem_singleton_self ip)) rfl
  · show jp ∈ y.ifreelist ++ [ip] ↔ _
    rw [mem_append, mem_singleton]
    exact or_iff_left hj

theorem sub_one_ne {c : Int16} (h : c ≠ 1) : c - 1 ≠ 0 := by
  intro hz
  apply h
  have hback := Int16.sub_add_cancel c 1
  rw [hz, Int16.zero_add] at hback
  exact hback.symm

theorem iputMore_cached (h : Cached y) (h0 : (y.inode ip).i_count ≠ 0)
    (h1 : (y.inode ip).i_count ≠ 1) : Cached (iputMore ip y) := by
  apply prele_cached
  refine h.only (Only.set ip rfl rfl rfl) (.inl rfl) h.nodup ?_ fun _ _ => Iff.rfl
  rw [set_self]
  exact iff_of_false (fun hin => h0 ((h.free ip).mp hin)) (sub_one_ne h1)

theorem iputLast_cached {noicache : ℕ → Bool} (h : Cached y) (h1 : (y.inode ip).i_count = 1) :
    Cached (iputLast noicache ip y) := by
  have hout : ip ∉ y.ifreelist := by
    intro hin
    have h0 := (h.free ip).mp hin
    rw [h1] at h0
    exact absurd h0 (by decide)
  have hput {z : Sys n} (hz : Cached z) (hout : ip ∉ z.ifreelist) (h1 : (z.inode ip).i_count = 1) :
      Cached (iputMore ip (putFree ip z)) := by
    apply prele_cached
    refine hz.only (Only.set ip rfl rfl rfl) (.inl rfl) ?_ ?_ fun jp hj => ?_
    · exact hz.nodup.append (nodup_singleton ip) (disjoint_singleton.mpr hout)
    · rw [set_self]
      refine iff_of_true (mem_append_right _ (mem_singleton_self ip)) ?_
      show (z.inode ip).i_count - 1 = 0
      rw [h1]
      rfl
    · show jp ∈ z.ifreelist ++ [ip] ↔ _
      rw [mem_append, mem_singleton]
      exact or_iff_left hj
  unfold iputLast
  dsimp only
  split
  · apply hput
    · refine h.only (Only.set ip rfl rfl rfl) (.inr ⟨ip, rfl⟩) h.nodup ?_ fun _ _ => Iff.rfl
      rw [set_self]
      exact h.free ip
    · exact hout
    · rw [set_self]
      exact h1
  · exact hput h hout h1

theorem is_iff {mp : ℕ} {ino : ℤ} : y.is mp ino ip = true ↔
    (y.inode ip).i_mntdev = mp ∧ (y.inode ip).i_number = ino := by
  unfold Sys.is
  rw [Bool.and_eq_true, decide_eq_true_eq, decide_eq_true_eq, and_comm]
  exact and_congr eq_comm eq_comm

theorem reuse_other {mp : ℕ} {ino : ℤ} {fstyp : ℕ} (hj : jp ≠ ip) :
    (reuse mp ino fstyp ip y).inode jp = y.inode jp := Function.update_of_ne hj _ _

/-- A free inode comes to the chain of a number that was not found there. -/
theorem reuse_cached {mp : ℕ} {ino : ℤ} {fstyp : ℕ} (h : Cached y)
    (hnone : (y.hinode (ihash ino)).find? (y.is mp ino) = none) :
    Cached (reuse mp ino fstyp ip y) := by
  have hself : (reuse mp ino fstyp ip y).inode ip = ⟨true, false, false, false, false, ino, mp,
      (y.mount mp).m_dev, fstyp, 1, none⟩ := Function.update_self _ _ _
  have hhome : (reuse mp ino fstyp ip y).home ip = ihash ino := by
    rw [Sys.home, hself]
  have hon {jp : Fin n} (hj : (y.hinode.remove ip).On jp) : jp ≠ ip ∧ y.hinode.On jp :=
    h.placed.on_remove.mp hj
  refine ⟨fun jp => ?_, h.nodup.erase ip, ?_, ?_⟩
  · show jp ∈ y.ifreelist.erase ip ↔ _
    rw [h.nodup.mem_erase_iff]
    by_cases hj : jp = ip
    · rw [hj, hself]
      exact iff_of_false (fun hc => hc.1 rfl) (by show ¬ (1 : Int16) = 0; decide)
    · rw [reuse_other hj]
      exact (and_iff_right hj).trans (h.free jp)
  · have hplaced : Chains.Placed (reuse mp ino fstyp ip y).home (y.hinode.remove ip) := by
      apply (h.placed.remove ip).congr
      intro jp hj
      rw [Sys.home, reuse_other (hon hj).1]
      rfl
    have hins := hplaced.insert (x := ip) fun hc => (hon hc).1 rfl
    rwa [hhome] at hins
  · have hkeep : Chains.Apart (reuse mp ino fstyp ip y).key (y.hinode.remove ip) := by
      refine h.apart.congr (fun jp hj => (hon hj).2) fun jp hj => .inl ?_
      rw [Sys.key, reuse_other (hon hj).1]
      rfl
    apply hkeep.add (x := ip)
    · intro jp hj
      exact Chains.on_insert.mp hj
    · intro jp hj hne heq
      -- the search would have found it
      have hj' := (hon hj).2
      obtain ⟨c, hc⟩ := hj'
      unfold Sys.key at heq
      rw [reuse_other hne, hself, Option.some.injEq, Prod.mk.injEq] at heq
      have hchain : c = ihash ino := by
        rw [h.placed.home c jp hc, Sys.home, heq.2]
      rw [hchain] at hc
      have hnot := List.find?_eq_none.mp hnone jp hc
      exact hnot (is_iff.mpr heq)

theorem add_one_ne {c : Int16} (h : c ≠ -1) : c + 1 ≠ 0 := by
  intro hz
  apply h
  have hback := Int16.add_sub_cancel c 1
  rw [hz, Int16.zero_sub] at hback
  exact hback.symm

theorem Only.free (h : Only ip y z) (l : List (Fin n)) : Only ip y { z with ifreelist := l } :=
  ⟨h.others, h.i_number, h.i_mntdev⟩

/-- The inode that is got comes off the free list with its first reference. -/
theorem got_cached (h : Cached y) (hc : (y.inode ip).i_count ≠ -1) :
    Cached { y.set ip { y.inode ip with i_count := (y.inode ip).i_count + 1, ilock := true } with
      ifreelist := if (y.inode ip).i_count = 0 then y.ifreelist.erase ip else y.ifreelist } := by
  have hcount : (y.inode ip).i_count + 1 ≠ 0 := add_one_ne hc
  have hset : Only ip y (y.set ip { y.inode ip with
      i_count := (y.inode ip).i_count + 1, ilock := true }) := Only.set _ rfl rfl rfl
  have ho := hset.free (if (y.inode ip).i_count = 0 then y.ifreelist.erase ip else y.ifreelist)
  refine h.only ho (.inl rfl) ?_ ?_ fun jp hj => ?_
  · dsimp only
    split
    · exact h.nodup.erase ip
    · exact h.nodup
  · dsimp only
    rw [set_self]
    refine iff_of_false (fun hin => ?_) hcount
    split at hin
    · exact (h.nodup.mem_erase_iff.mp hin).1 rfl
    · exact absurd ((h.free ip).mp hin) ‹_›
  · dsimp only
    split
    · exact h.nodup.mem_erase_iff.trans (and_iff_right hj)
    · exact Iff.rfl

/-- The inode with number `ino` of `mp`, and what is mounted there, as `iget` comes to it. -/
inductive Leads (y : Sys n) (mp : ℕ) (ino : ℤ) : Fin n → Prop
  | found {ip : Fin n} : (y.hinode (ihash ino)).find? (y.is mp ino) = some ip → Leads y mp ino ip
  | mount {ip root : Fin n} {m : ℕ} : Leads y mp ino ip → (y.inode ip).ilock = false →
      (y.inode ip).imount = true → (y.inode ip).i_mnton = some m → (y.mount m).minter = false →
      (y.mount m).m_inodp = some ip → (y.mount m).m_mount = some root → Leads y mp ino root

/-- `iget` takes a reference to `ip`. -/
structure Gets (y : Sys n) (lbin : Bool) (mp : ℕ) (ino : ℤ) (ip : Fin n) : Prop where
  leads : Leads y mp ino ip
  ilock : (y.inode ip).ilock = false
  imount : (y.inode ip).imount = false
  irmount : (y.inode ip).irmount = false
  here : ((y.inode ip).ilbin && lbin) = false

/-- What a run of `iget` does. -/
inductive Igets (y : Sys n) (lbin : Bool) (mp : ℕ) (ino : ℤ) : Res n → Sys n → Prop
  | stay {r : Res n} (hr : ∀ ip, r ≠ .got ip ∧ r ≠ .iread ip) : Igets y lbin mp ino r y
  | sleep (ip : Fin n) (mp' : ℕ) (ino' : ℤ) (fstyp : ℕ) :
      Igets y lbin mp ino (.sleep ip mp' ino' fstyp)
        (y.set ip { y.inode ip with iwant := true })
  | got {ip : Fin n} (hg : Gets y lbin mp ino ip) :
      Igets y lbin mp ino (.got ip)
        { y.set ip { y.inode ip with i_count := (y.inode ip).i_count + 1, ilock := true } with
          ifreelist := if (y.inode ip).i_count = 0 then y.ifreelist.erase ip else y.ifreelist }
  | iread (ip : Fin n) (fstyp : ℕ) (hin : ip ∈ y.ifreelist) (hl : (y.inode ip).ilock = false)
      (hnone : (y.hinode (ihash ino)).find? (y.is mp ino) = none) :
      Igets y lbin mp ino (.iread ip) (reuse mp ino fstyp ip y)

theorem found_cases {lbin : Bool} {turns : ℕ} {mp mp' : ℕ} {ino ino' : ℤ} {fstyp : ℕ} {r : Res n}
    (hl : Leads y mp ino ip) (hr : found lbin turns ip mp' ino' fstyp y = some (r, z)) :
    Igets y lbin mp ino r z := by
  induction turns generalizing ip mp' ino' fstyp with
  | zero => exact absurd hr nofun
  | succ turns ih =>
    rw [found] at hr
    dsimp only at hr
    have hstay (r' : Res n) (hr' : ∀ ip, r' ≠ .got ip ∧ r' ≠ .iread ip)
        (hr : some (r', y) = some (r, z)) : Igets y lbin mp ino r z := by
      cases hr
      exact .stay hr'
    split at hr
    next =>
      cases hr
      exact .sleep ip mp' ino' fstyp
    next hlock =>
      rw [Bool.not_eq_true] at hlock
      split at hr
      next =>
        split at hr
        next => exact hstay .panic (fun _ => ⟨nofun, nofun⟩) hr
        next m hm =>
          split at hr
          next => exact hstay .null (fun _ => ⟨nofun, nofun⟩) hr
          next hint =>
            rw [Bool.not_eq_true] at hint
            split at hr
            next hinodp =>
              split at hr
              next himount =>
                split at hr
                next => exact hstay .null (fun _ => ⟨nofun, nofun⟩) hr
                next root hroot => exact ih (hl.mount hlock himount hm hint hinodp hroot) hr
              next => exact hstay .remote (fun _ => ⟨nofun, nofun⟩) hr
            next => exact hstay .panic (fun _ => ⟨nofun, nofun⟩) hr
      next hmnt =>
        rw [Bool.not_eq_true, Bool.or_eq_false_iff] at hmnt
        split at hr
        next => exact hstay .null (fun _ => ⟨nofun, nofun⟩) hr
        next hhere =>
          rw [Bool.not_eq_true] at hhere
          cases hr
          exact .got ⟨hl, hlock, hmnt.1, hmnt.2, hhere⟩

theorem iget_cases {lbin : Bool} {turns : ℕ} {mp : ℕ} {ino : ℤ} {fstyp : ℕ} {r : Res n}
    (hr : iget lbin turns mp ino fstyp y = some (r, z)) : Igets y lbin mp ino r z := by
  unfold iget at hr
  split at hr
  next ip hfind => exact found_cases (.found hfind) hr
  next hnone =>
    split at hr
    next =>
      cases hr
      exact .stay fun _ => ⟨nofun, nofun⟩
    next ip hfree =>
      cases hr
      have hl := List.find?_some hfree
      rw [Bool.not_eq_eq_eq_not, Bool.not_true] at hl
      exact .iread ip fstyp (mem_of_find?_eq_some hfree) hl hnone

/-- The inode that `iget` takes a reference to has not as many as `i_count` can count, so that the
next one would make it 0. -/
def Room (y : Sys n) (lbin : Bool) (mp : ℕ) (ino : ℤ) : Prop :=
  ∀ ip, Gets y lbin mp ino ip → (y.inode ip).i_count ≠ -1

theorem Igets.cached {lbin : Bool} {mp : ℕ} {ino : ℤ} {r : Res n} (hr : Igets y lbin mp ino r z)
    (h : Cached y) (hroom : Room y lbin mp ino) : Cached z := by
  cases hr with
  | stay => exact h
  | sleep ip mp' ino' fstyp => exact h.set rfl rfl rfl
  | got hg => exact got_cached h (hroom _ hg)
  | iread ip fstyp hin hl hnone => exact reuse_cached h hnone

end Cache

/-! ## Interleavings -/

/-- The cache in order, and the inodes that processes have locked with references. -/
structure Ordered (s : State n) : Prop where
  cached : Cached s.sys
  locked : ∀ ip, (s.sys.inode ip).ilock = true ↔ s.locker ip ≠ none
  busy : ∀ ip, s.locker ip ≠ none → (s.sys.inode ip).i_count ≠ 0
  held : ∀ p ip, s.pc p = .iread ip ∨ s.pc p = .iput ip →
    s.locker ip = some p ∧ (s.sys.inode ip).i_count = 1

/-- What a step takes a reference to has room for one. -/
def Roomy (s : State n) : Act n → Prop
  | .iget _ mp ino lbin _ => Room s.sys lbin mp ino
  | .loop p lbin _ => ∀ mp ino fstyp, s.pc p = .loop mp ino fstyp → Room s.sys lbin mp ino
  | _ => True

section Steps

variable {s t : State n} {ip jp : Fin n} {p : ℕ} {sys : Sys n}

/-- Process `p` goes to `pc`, and the inode `ip` changes, with its locker. -/
theorem Ordered.update (h : Ordered s) {pc : Pc n} {l : Option ℕ} (hc : Cached sys)
    (hoth : ∀ jp ≠ ip, sys.inode jp = s.sys.inode jp)
    (hl : (sys.inode ip).ilock = true ↔ l ≠ none) (hb : l ≠ none → (sys.inode ip).i_count ≠ 0)
    (hfree : ∀ q ≠ p, s.locker ip ≠ some q)
    (hpc : ∀ jp, pc = .iread jp ∨ pc = .iput jp →
      jp = ip ∧ l = some p ∧ (sys.inode ip).i_count = 1) :
    Ordered ⟨sys, Function.update s.pc p pc, Function.update s.locker ip l⟩ := by
  refine ⟨hc, fun jp => ?_, fun jp hj => ?_, fun q jp hq => ?_⟩
  · by_cases hjp : jp = ip
    · subst hjp
      show _ ↔ Function.update s.locker jp l jp ≠ none
      rw [Function.update_self]
      exact hl
    · show _ ↔ Function.update s.locker ip l jp ≠ none
      rw [Function.update_of_ne hjp, hoth jp hjp]
      exact h.locked jp
  · dsimp only at hj ⊢
    by_cases hjp : jp = ip
    · subst hjp
      rw [Function.update_self] at hj
      exact hb hj
    · rw [Function.update_of_ne hjp] at hj
      rw [hoth jp hjp]
      exact h.busy jp hj
  · dsimp only at hq ⊢
    by_cases hqp : q = p
    · subst hqp
      rw [Function.update_self] at hq
      obtain ⟨rfl, hsome, hone⟩ := hpc jp hq
      rw [Function.update_self]
      exact ⟨hsome, hone⟩
    · rw [Function.update_of_ne hqp] at hq
      have hheld := h.held q jp hq
      have hjp : jp ≠ ip := by
        intro heq
        exact hfree q hqp (heq ▸ hheld.1)
      rw [Function.update_of_ne hjp, hoth jp hjp]
      exact hheld

/-- No lock and no count changes. -/
theorem Ordered.keep (h : Ordered s) {pc : ℕ → Pc n} (hc : Cached sys)
    (hlock : ∀ jp, (sys.inode jp).ilock = (s.sys.inode jp).ilock)
    (hcount : ∀ jp, (sys.inode jp).i_count = (s.sys.inode jp).i_count)
    (hpc : ∀ q jp, pc q = .iread jp ∨ pc q = .iput jp →
      s.locker jp = some q ∧ (s.sys.inode jp).i_count = 1) :
    Ordered ⟨sys, pc, s.locker⟩ := by
  refine ⟨hc, fun jp => ?_, fun jp hj => ?_, fun q jp hq => ?_⟩
  · show (sys.inode jp).ilock = true ↔ _
    rw [hlock jp]
    exact h.locked jp
  · show (sys.inode jp).i_count ≠ 0
    rw [hcount jp]
    exact h.busy jp hj
  · show _ ∧ (sys.inode jp).i_count = 1
    rw [hcount jp]
    exact hpc q jp hq

theorem Ordered.keep_set (h : Ordered s) {pc : ℕ → Pc n} (ip : Fin n) (i : Inode)
    (h1 : i.i_number = (s.sys.inode ip).i_number) (h2 : i.i_mntdev = (s.sys.inode ip).i_mntdev)
    (h3 : i.i_count = (s.sys.inode ip).i_count) (h4 : i.ilock = (s.sys.inode ip).ilock)
    (hpc : ∀ q jp, pc q = .iread jp ∨ pc q = .iput jp →
      s.locker jp = some q ∧ (s.sys.inode jp).i_count = 1) :
    Ordered ⟨s.sys.set ip i, pc, s.locker⟩ := by
  refine h.keep (h.cached.set h1 h2 h3) (fun jp => ?_) (fun jp => ?_) hpc
  · by_cases hj : jp = ip
    · rw [hj, set_self, h4]
    · rw [set_other _ hj]
  · by_cases hj : jp = ip
    · rw [hj, set_self, h3]
    · rw [set_other _ hj]

/-- Process `p` goes to a place where it holds no inode. -/
theorem Ordered.held_update (h : Ordered s) (p : ℕ) (pc : Pc n)
    (hpc : ∀ jp, pc ≠ .iread jp ∧ pc ≠ .iput jp) :
    ∀ q jp, Function.update s.pc p pc q = .iread jp ∨ Function.update s.pc p pc q = .iput jp →
      s.locker jp = some q ∧ (s.sys.inode jp).i_count = 1 := by
  intro q jp hq
  by_cases hqp : q = p
  · rw [hqp, Function.update_self] at hq
    exact absurd hq (not_or.mpr (hpc jp))
  · rw [Function.update_of_ne hqp] at hq
    exact h.held q jp hq

theorem wake_held {pc : Pc n} (h : pc.wake ip = .iread jp ∨ pc.wake ip = .iput jp) :
    pc = .iread jp ∨ pc = .iput jp := by
  cases pc with
  | asleep kp mp ino fstyp =>
    unfold Pc.wake at h
    dsimp only at h
    split at h
    · exact h.elim nofun nofun
    · exact h.elim nofun nofun
  | _ => exact h

theorem Ordered.wake (h : Ordered s) (ip : Fin n) :
    Ordered { s with pc := fun q =>
      if (s.sys.inode ip).iwant then (s.pc q).wake ip else s.pc q } := by
  apply h.keep h.cached (fun _ => rfl) (fun _ => rfl)
  intro q jp hq
  split at hq
  · exact h.held q jp (wake_held hq)
  · exact h.held q jp hq

/-- The inode that is unlocked was locked by the one who does it. -/
theorem Ordered.unlock (h : Ordered s) (hp : s.locker ip = some p) (hc : Cached sys)
    (ho : Only ip s.sys sys) (hl : (sys.inode ip).ilock = false) : Ordered (s.unlock p ip sys) := by
  apply (h.wake ip).update hc ho.others
  · rw [hl]
    exact iff_of_false Bool.false_ne_true fun hc => hc rfl
  · exact fun hc => absurd rfl hc
  · intro q hq heq
    rw [hp] at heq
    exact hq (Option.some.inj heq).symm
  · exact fun jp hj => hj.elim nofun nofun

theorem Ordered.after (h : Ordered s) {lbin : Bool} {mp : ℕ} {ino : ℤ} {r : Res n}
    (hr : Igets s.sys lbin mp ino r sys) (hroom : Room s.sys lbin mp ino) :
    Ordered (s.after p (r, sys)) := by
  have hcached := hr.cached h.cached hroom
  have hnone {ip : Fin n} (hl : (s.sys.inode ip).ilock = false) (q : ℕ) : s.locker ip ≠ some q := by
    intro heq
    have hlocked := (h.locked ip).mpr (by rw [heq]; exact nofun)
    rw [hl] at hlocked
    exact Bool.false_ne_true hlocked
  cases hr with
  | stay hr =>
    have hout := h.keep hcached (fun _ => rfl) (fun _ => rfl)
      (h.held_update p .out fun _ => ⟨nofun, nofun⟩)
    match r, hr with
    | .null, _ => exact hout
    | .remote, _ => exact hout
    | .panic, _ => exact hout
    | .got ip, hr => exact absurd rfl (hr ip).1
    | .iread ip, hr => exact absurd rfl (hr ip).2
    | .sleep ip mp ino fstyp, _ =>
      exact h.keep hcached (fun _ => rfl) (fun _ => rfl)
        (h.held_update p (.asleep ip mp ino fstyp) fun _ => ⟨nofun, nofun⟩)
  | sleep ip mp' ino' fstyp =>
    exact h.keep_set ip { s.sys.inode ip with iwant := true } rfl rfl rfl rfl
      (h.held_update p (.asleep ip mp' ino' fstyp) fun _ => ⟨nofun, nofun⟩)
  | @got ip hg =>
    apply h.update hcached
    · exact fun jp hj => set_other _ hj _
    · show (Function.update s.sys.inode ip _ ip).ilock = true ↔ _
      rw [Function.update_self]
      exact iff_of_true rfl nofun
    · intro _
      show (Function.update s.sys.inode ip _ ip).i_count ≠ 0
      rw [Function.update_self]
      exact add_one_ne (hroom ip hg)
    · exact fun q _ => hnone hg.ilock q
    · exact fun jp hj => hj.elim nofun nofun
  | iread ip fstyp hin hl hfind =>
    have hself : ((reuse mp ino fstyp ip s.sys).inode ip) = ⟨true, false, false, false, false, ino,
        mp, (s.sys.mount mp).m_dev, fstyp, 1, none⟩ := Function.update_self _ _ _
    apply h.update hcached
    · exact fun jp hj => reuse_other hj
    · rw [hself]
      exact iff_of_true rfl nofun
    · intro _
      rw [hself]
      exact show (1 : Int16) ≠ 0 by decide
    · exact fun q _ => hnone hl q
    · intro jp hj
      have heq : ip = jp := hj.elim Pc.iread.inj nofun
      rw [hself]
      exact ⟨heq.symm, rfl, rfl⟩

/-- What a step does. -/
inductive Does (noicache : ℕ → Bool) (s : State n) : Act n → State n → Prop
  | iget {a : Act n} {p mp : ℕ} {ino : ℤ} {lbin : Bool} {r : Res n} {sys : Sys n}
      (hr : Igets s.sys lbin mp ino r sys) (hroom : Roomy s a → Room s.sys lbin mp ino) :
      Does noicache s a (s.after p (r, sys))
  | read {p : ℕ} {ip : Fin n} (fstyp : ℕ) (hp : s.pc p = .iread ip) :
      Does noicache s (.iread p (some fstyp)) { s with
        sys := s.sys.set ip { s.sys.inode ip with i_fstyp := fstyp }
        pc := Function.update s.pc p .out }
  | readFailed {p : ℕ} {ip : Fin n} (hp : s.pc p = .iread ip) :
      Does noicache s (.iread p none) (s.unlock p ip (readFailed ip s.sys))
  | iput {p : ℕ} {ip : Fin n} (hp : s.locker ip = some p) (h1 : (s.sys.inode ip).i_count = 1) :
      Does noicache s (.iput p ip) { s with pc := Function.update s.pc p (.iput ip) }
  | iputMore {p : ℕ} {ip : Fin n} (hp : s.locker ip = some p) (h1 : (s.sys.inode ip).i_count ≠ 1) :
      Does noicache s (.iput p ip) (s.unlock p ip (iputMore ip s.sys))
  | iputLast {p : ℕ} {ip : Fin n} (hp : s.pc p = .iput ip) :
      Does noicache s (.iputEnd p) (s.unlock p ip (iputLast noicache ip s.sys))
  | prele {p : ℕ} {ip : Fin n} (hp : s.locker ip = some p) :
      Does noicache s (.prele p ip) (s.unlock p ip (prele ip s.sys))
  | plock {p : ℕ} {ip : Fin n} (hp : s.pc p = .out) (hl : (s.sys.inode ip).ilock = false)
      (h0 : (s.sys.inode ip).i_count ≠ 0) :
      Does noicache s (.plock p ip) { s with
        sys := s.sys.set ip { s.sys.inode ip with ilock := true }
        locker := Function.update s.locker ip (some p) }
  | want (ip : Fin n) : Does noicache s (.want ip) { s with
      sys := s.sys.set ip { s.sys.inode ip with iwant := true } }
  | mount (mount : ℕ → Mount n) (flags : Fin n → Bool × Bool × Bool × Option ℕ) :
      Does noicache s (.mount mount flags) { s with sys := remount mount flags s.sys }

theorem next_cases {noicache : ℕ → Bool} {a : Act n} (ht : next noicache s a = some t) :
    Does noicache s a t := by
  cases a with
  | iget p mp ino lbin turns =>
    unfold next at ht
    dsimp only at ht
    split at ht
    · exact absurd ht nofun
    next r _ _ hr =>
      cases ht
      exact .iget (iget_cases hr) id
    · exact absurd ht nofun
  | loop p lbin turns =>
    unfold next at ht
    dsimp only at ht
    split at ht
    next mp ino fstyp hp =>
      split at ht
      · exact absurd ht nofun
      next r _ hr =>
        cases ht
        exact .iget (iget_cases hr) fun hroom => hroom mp ino fstyp hp
      · exact absurd ht nofun
    · exact absurd ht nofun
  | iread p tip =>
    unfold next at ht
    dsimp only at ht
    split at ht
    next hp =>
      cases ht
      exact .read _ hp
    next hp =>
      cases ht
      exact .readFailed hp
    · exact absurd ht nofun
  | iput p ip =>
    unfold next at ht
    dsimp only at ht
    split at ht
    · split at ht
      · exact absurd ht nofun
      next hp =>
        rw [not_not] at hp
        split at ht
        next h1 =>
          cases ht
          exact .iput hp h1
        next h1 =>
          cases ht
          exact .iputMore hp h1
    · exact absurd ht nofun
  | iputEnd p =>
    unfold next at ht
    dsimp only at ht
    split at ht
    next hp =>
      cases ht
      exact .iputLast hp
    · exact absurd ht nofun
  | prele p ip =>
    unfold next at ht
    dsimp only at ht
    split at ht
    · split at ht
      next hp =>
        cases ht
        exact .prele hp
      · exact absurd ht nofun
    · exact absurd ht nofun
  | plock p ip =>
    unfold next at ht
    dsimp only at ht
    split at ht
    next hp =>
      split at ht
      · exact absurd ht nofun
      next hc =>
        rw [Bool.or_eq_true, not_or, Bool.not_eq_true, decide_eq_true_eq] at hc
        cases ht
        exact .plock hp hc.1 hc.2
    · exact absurd ht nofun
  | want ip =>
    unfold next at ht
    dsimp only at ht
    split at ht
    · cases ht
      exact .want ip
    · exact absurd ht nofun
  | mount m flags =>
    cases ht
    exact .mount m flags

theorem Only.prele {y z : Sys n} (h : Only ip y z) : Only ip y (prele ip z) :=
  h.trans (Only.set _ rfl rfl rfl)

theorem Only.putFree {y z : Sys n} (h : Only ip y z) : Only ip y (putFree ip z) :=
  ⟨h.others, h.i_number, h.i_mntdev⟩

theorem Only.iputMore {y z : Sys n} (h : Only ip y z) : Only ip y (iputMore ip z) := by
  apply Only.prele
  exact h.trans (Only.set _ rfl rfl rfl)

theorem readFailed_only (y : Sys n) (ip : Fin n) : Only ip y (readFailed ip y) := by
  apply Only.prele
  exact Only.set _ rfl rfl rfl

theorem iputLast_only (noicache : ℕ → Bool) (y : Sys n) (ip : Fin n) :
    Only ip y (iputLast noicache ip y) := by
  unfold iputLast
  dsimp only
  split
  · apply Only.iputMore
    apply Only.putFree
    exact Only.set _ rfl rfl rfl
  · exact (Only.refl ip y).putFree.iputMore

theorem prele_unlocks (y : Sys n) (ip : Fin n) : ((prele ip y).inode ip).ilock = false := by
  unfold prele
  rw [set_self]

theorem next_ordered {noicache : ℕ → Bool} {a : Act n} (h : Ordered s) (hroom : Roomy s a)
    (ht : next noicache s a = some t) : Ordered t := by
  have hsome {ip : Fin n} {p : ℕ} (hp : s.locker ip = some p) :
      (s.sys.inode ip).i_count ≠ 0 := h.busy ip (by rw [hp]; exact nofun)
  cases next_cases ht with
  | iget hr hroom' => exact h.after hr (hroom' hroom)
  | @read p ip fstyp hp =>
    exact h.keep_set ip { s.sys.inode ip with i_fstyp := fstyp } rfl rfl rfl rfl
      (h.held_update p .out fun _ => ⟨nofun, nofun⟩)
  | @readFailed p ip hp =>
    have hheld := h.held p ip (.inl hp)
    exact h.unlock hheld.1 (readFailed_cached h.cached (hsome hheld.1))
      (readFailed_only s.sys ip) (prele_unlocks _ ip)
  | @iput p ip hp h1 =>
    apply h.keep h.cached (fun _ => rfl) (fun _ => rfl)
    intro q jp hq
    by_cases hqp : q = p
    · subst hqp
      rw [Function.update_self] at hq
      have heq : ip = jp := hq.elim nofun Pc.iput.inj
      exact heq ▸ ⟨hp, h1⟩
    · rw [Function.update_of_ne hqp] at hq
      exact h.held q jp hq
  | iputMore hp h1 =>
    exact h.unlock hp (iputMore_cached h.cached (hsome hp) h1) ((Only.refl _ s.sys).iputMore)
      (prele_unlocks _ _)
  | @iputLast p ip hp =>
    have hheld := h.held p ip (.inr hp)
    exact h.unlock hheld.1 (iputLast_cached h.cached hheld.2) (iputLast_only noicache s.sys ip)
      (prele_unlocks _ ip)
  | @prele p ip hp =>
    exact h.unlock hp (prele_cached h.cached) (Only.set _ rfl rfl rfl) (prele_unlocks _ ip)
  | @plock p ip hp hl h0 =>
    have hpc : s.pc = Function.update s.pc p .out := by
      rw [← hp, Function.update_eq_self]
    rw [hpc]
    have hc : Cached (s.sys.set ip { s.sys.inode ip with ilock := true }) :=
      h.cached.set rfl rfl rfl
    apply h.update hc
    · exact fun jp hj => set_other _ hj _
    · rw [set_self]
      exact iff_of_true rfl nofun
    · intro _
      rw [set_self]
      exact h0
    · intro q _ heq
      have hlocked := (h.locked ip).mpr (by rw [heq]; exact nofun)
      rw [hl] at hlocked
      exact Bool.false_ne_true hlocked
    · exact fun jp hj => hj.elim nofun nofun
  | want ip =>
    exact h.keep_set ip { s.sys.inode ip with iwant := true } rfl rfl rfl rfl h.held
  | mount m flags =>
    have hcached : Cached (remount m flags s.sys) :=
      h.cached.keep (fun _ => rfl) (fun _ => rfl) h.cached.free h.cached.nodup (.inl rfl)
    exact h.keep hcached (fun _ => rfl) (fun _ => rfl) h.held

theorem after_sys (s : State n) (p : ℕ) (r : Res n) (sys : Sys n) :
    (s.after p (r, sys)).sys = sys := by
  cases r with
  | _ => rfl

/-- An inode with references keeps its number. -/
theorem next_number {noicache : ℕ → Bool} {a : Act n} (h : Ordered s)
    (ht : next noicache s a = some t) (hc : (s.sys.inode ip).i_count ≠ 0) :
    (t.sys.inode ip).i_number = (s.sys.inode ip).i_number ∧
      (t.sys.inode ip).i_mntdev = (s.sys.inode ip).i_mntdev := by
  have only {jp : Fin n} {sys : Sys n} (ho : Only jp s.sys sys) :
      (sys.inode ip).i_number = (s.sys.inode ip).i_number ∧
        (sys.inode ip).i_mntdev = (s.sys.inode ip).i_mntdev := ⟨ho.number ip, ho.mntdev ip⟩
  cases next_cases ht with
  | iget hr =>
    rw [after_sys]
    cases hr with
    | stay => exact ⟨rfl, rfl⟩
    | sleep jp mp' ino' fstyp =>
      exact only (Only.set jp (i := { s.sys.inode jp with iwant := true }) rfl rfl rfl)
    | @got jp hg =>
      have hset : Only jp s.sys (s.sys.set jp { s.sys.inode jp with
          i_count := (s.sys.inode jp).i_count + 1, ilock := true }) := Only.set _ rfl rfl rfl
      exact only (hset.free _)
    | iread jp fstyp hin =>
      -- the inode that is taken was free
      have hne : ip ≠ jp := by
        intro heq
        exact hc (heq ▸ (h.cached.free jp).mp hin)
      rw [reuse_other hne]
      exact ⟨rfl, rfl⟩
  | @read p jp fstyp hp =>
    exact only (Only.set jp (i := { s.sys.inode jp with i_fstyp := fstyp }) rfl rfl rfl)
  | readFailed hp => exact only (readFailed_only s.sys _)
  | iput => exact ⟨rfl, rfl⟩
  | iputMore hp h1 => exact only (Only.refl _ s.sys).iputMore
  | iputLast hp => exact only (iputLast_only noicache s.sys _)
  | prele hp => exact only (Only.refl _ s.sys).prele
  | @plock p jp =>
    exact only (Only.set jp (i := { s.sys.inode jp with ilock := true }) rfl rfl rfl)
  | want jp =>
    exact only (Only.set jp (i := { s.sys.inode jp with iwant := true }) rfl rfl rfl)
  | mount => exact ⟨rfl, rfl⟩

end Steps

/-- What is promised of a state and of the steps from it. -/
structure Unique (noicache : ℕ → Bool) (s : State n) : Prop where
  apart : ∀ ip jp, s.sys.hinode.On ip → s.sys.hinode.On jp →
    (s.sys.inode ip).i_mntdev = (s.sys.inode jp).i_mntdev →
    (s.sys.inode ip).i_number = (s.sys.inode jp).i_number → ip = jp
  free : ∀ ip, ip ∈ s.sys.ifreelist ↔ (s.sys.inode ip).i_count = 0
  home : ∀ c ip, ip ∈ s.sys.hinode c → c = ihash (s.sys.inode ip).i_number
  assigned : ∀ a t, Istep noicache s a t → ∀ ip, (s.sys.inode ip).i_count ≠ 0 →
    (t.sys.inode ip).i_number = (s.sys.inode ip).i_number ∧
      (t.sys.inode ip).i_mntdev = (s.sys.inode ip).i_mntdev
  failed : ∀ p ip t, s.pc p = .iread ip → Istep noicache s (.iread p none) t →
    ¬ t.sys.hinode.On ip ∧ ip ∈ t.sys.ifreelist ∧ (t.sys.inode ip).ilock = false

theorem Ordered.unique {noicache : ℕ → Bool} {s : State n} (h : Ordered s) :
    Unique noicache s := by
  refine ⟨fun ip jp hip hjp hm hn => ?_, h.cached.free, h.cached.placed.home,
    fun a t ht ip hc => next_number h ht hc, fun p ip t hp ht => ?_⟩
  · apply h.cached.apart ip jp hip hjp
    · unfold Sys.key
      rw [hm, hn]
    · exact nofun
  · unfold Istep next at ht
    dsimp only at ht
    rw [hp] at ht
    cases ht
    refine ⟨fun hon => ?_, ?_, prele_unlocks _ ip⟩
    · exact (h.cached.placed.on_remove.mp hon).1 rfl
    · exact mem_append_right _ (mem_singleton_self ip)

theorem inoinit_ordered (mount : ℕ → Mount n) : Ordered (inoinit n mount) := by
  refine ⟨⟨fun ip => ?_, ?_, ⟨fun _ => nodup_nil, fun _ _ hin => absurd hin nofun⟩, ?_⟩,
    fun ip => ?_, fun ip hl => absurd rfl hl, fun p ip hp => hp.elim nofun nofun⟩
  · exact iff_of_true (mem_reverse.mpr (mem_finRange ip)) rfl
  · exact nodup_reverse.mpr (nodup_finRange n)
  · rintro ip jp ⟨c, hin⟩
    exact absurd hin nofun
  · exact iff_of_false Bool.false_ne_true fun hl => hl rfl

/-! ## One inode -/

/-- A mount with nothing mounted on it. -/
def plain : ℕ → Mount 1 := fun _ => ⟨false, 1, 0, none, none⟩

theorem one_inode : NeZero 1 := ⟨Nat.one_ne_zero⟩

attribute [local instance] one_inode

/-- The one inode has number 1, and `c` references. -/
def counted (c : Int16) : State 1 where
  sys := {
    inode := fun _ => ⟨false, false, false, false, false, 1, 0, 0, 1, c, none⟩
    hinode := fun x => if x = 1 then [0] else []
    ifreelist := []
    mount := plain }
  pc := fun _ => .out
  locker := fun _ => none

/-- Process 0 has one reference more, and the inode locked. -/
def taken (c : Int16) : State 1 where
  sys := {
    inode := fun _ => ⟨true, false, false, false, false, 1, 0, 0, 1, c, none⟩
    hinode := fun x => if x = 1 then [0] else []
    ifreelist := []
    mount := plain }
  pc := fun _ => .out
  locker := fun _ => some 0

theorem update_const {α β : Type} [DecidableEq α] [Subsingleton α] (f : α → β) (a : α) (b : β) :
    Function.update f a b = fun _ => b := by
  funext a'
  rw [Subsingleton.elim a' a, Function.update_self]

theorem update_out (p : ℕ) : Function.update (fun _ => Pc.out : ℕ → Pc 1) p .out = fun _ => .out :=
  Function.update_eq_self p fun _ => Pc.out

theorem taken_of_counted (c : Int16) :
    Istep (fun _ => false) (counted c) (.iget 0 0 1 false 1) (taken (c + 1)) := by
  have hfind : iget false 1 0 1 ((counted c).sys.mount 0).m_fstyp (counted c).sys =
      some (.got 0, (taken (c + 1)).sys) := by
    unfold iget
    show found false 1 0 0 1 1 (counted c).sys = _
    unfold found
    show some (Res.got 0, Sys.mk _ _ (if c = 0 then [] else []) _) = _
    rw [ite_self]
    unfold Sys.set
    rw [update_const]
    rfl
  unfold Istep next
  dsimp only
  rw [hfind]
  show some (State.mk _ _ _) = _
  congr 2
  · exact update_out 0
  · exact update_const _ _ _

theorem counted_of_taken (c : Int16) :
    Istep (fun _ => false) (taken c) (.prele 0 0) (counted c) := by
  show some (State.mk _ _ _) = _
  congr 2
  · unfold prele Sys.set
    congr 1
    exact update_const _ _ _
  · exact update_out 0
  · exact update_const _ _ _

/-- `k` times over, process 0 takes a reference and unlocks the inode. -/
theorem counts (k : ℕ) : ∃ as, Run (Istep fun _ => false) (counted 1) as (counted (1 + Int16.ofNat k)) := by
  induction k with
  | zero => exact ⟨[], .nil _⟩
  | succ k ih =>
    obtain ⟨as, h⟩ := ih
    have hnext := (h.snoc (taken_of_counted _)).snoc (counted_of_taken _)
    rw [Int16.add_assoc] at hnext
    rw [Int16.ofNat_add]
    exact ⟨_, hnext⟩

/-- The first reference: process 0 is in `FS_IREAD`. -/
def first : State 1 := { taken 1 with pc := Function.update (fun _ => .out) 0 (.iread 0) }

theorem first_of_inoinit :
    Istep (fun _ => false) (inoinit 1 plain) (.iget 0 0 1 false 1) first := by
  show some (State.mk (reuse 0 1 1 0 (inoinit 1 plain).sys) _ _) = some first
  have hsys : reuse 0 1 1 0 (inoinit 1 plain).sys = first.sys := by
    unfold reuse
    rw [update_const]
    have hchain : (Chains.remove 0 (inoinit 1 plain).sys.hinode).insert 0 (ihash 1) =
        fun x => if x = 1 then [0] else [] := by
      funext x
      exact Function.update_apply _ _ _ x
    rw [hchain]
    rfl
  rw [hsys]
  congr 2
  exact update_const _ _ _

theorem taken_of_first : Istep (fun _ => false) first (.iread 0 (some 1)) (taken 1) := by
  show some (State.mk (first.sys.set 0 _) (Function.update _ 0 Pc.out) _) = _
  unfold Sys.set first
  rw [update_const, Function.update_idem, update_out]
  rfl

/-- In every run whose references all have room, the numbers of the inodes are unique, the free
ones are those without references, and what has references is not assigned again. -/
theorem inode_unique {noicache : ℕ → Bool} {mount : ℕ → Mount n} {as : List (Act n)} {t : State n}
    (h : Run (fun s a t => Istep noicache s a t ∧ Roomy s a) (inoinit n mount) as t) :
    Unique noicache t := by
  have hstep (s : State n) (a : Act n) (t : State n) (hs : Ordered s)
      (hst : Istep noicache s a t ∧ Roomy s a) : Ordered t := next_ordered hs hst.2 hst.1
  have ht := h.invariant hstep (inoinit_ordered mount)
  exact ht.unique

theorem inode_unique_one : Unique (fun _ => false) (counted 1) := by
  have hrun : Run (fun s a t => Istep (fun _ => false) s a t ∧ Roomy s a) (inoinit 1 plain)
      [.iget 0 0 1 false 1, .iread 0 (some 1), .prele 0 0] (counted 1) := by
    refine .cons ⟨first_of_inoinit, fun ip _ => ?_⟩
      (.cons ⟨taken_of_first, trivial⟩ (.single ⟨counted_of_taken 1, trivial⟩))
    show (0 : Int16) ≠ -1
    decide
  exact inode_unique hrun

/-- With 65536 references an inode has a count of 0, and is not free. -/
theorem inode_count_wraps :
    ¬ ∀ (n : ℕ) (noicache : ℕ → Bool) (mount : ℕ → Mount n) (as : List (Act n)) (t : State n),
      Run (Istep noicache) (inoinit n mount) as t → Unique noicache t := by
  intro hall
  obtain ⟨as, h⟩ := counts 65535
  have hfirst : Run (Istep fun _ => false) (inoinit 1 plain) [_, _, _] (counted 1) :=
    .cons first_of_inoinit (.cons taken_of_first (.single (counted_of_taken 1)))
  have hone := hall 1 _ plain _ _ (hfirst.append h)
  have hfree : (0 : Fin 1) ∈ [] := (hone.free 0).mpr rfl
  exact absurd hfree nofun

end Svr3.Iget
