import Svr3.Os.ReclockRun
import Svr3.Os.FlockBlocked

/-!
# No conflicting locks

Over any run, the locks of an inode stay in order and exclude each other, whether requests are granted or fail.
-/

namespace Svr3.Rlock

open Function List

/-- A byte that one process has locked for writing is locked by no other. -/
def Exclusive (lst : List Filock) : Prop :=
  ∀ u v b t, u ≠ v → Holds u lst b .F_WRLCK → ¬Holds v lst b t

section Request

variable {u v : Owner} {lst before behind rest : List Filock} {f g flp : Filock} {ld : Flock} {insrtp pos : ℕ}
  {k : Krnl} {b : ℤ} {t : LType}

/-- `g` is `f`, or what is left of it where it is a lock of the process. -/
def Rest (u : Owner) (f g : Filock) : Prop :=
  g = f ∨ f.own u = true ∧ g.own u = true ∧ g.set.l_type = f.set.l_type ∧
    f.set.l_start ≤ g.set.l_start ∧ g.set.l_end ≤ f.set.l_end

theorem Rest.trans {e : Filock} (h : Rest u e f) (h' : Rest u f g) : Rest u e g := by
  unfold Rest at h h' ⊢
  grind

/-- The piece of a lock behind the request -/
theorem piece_rest (r : Turn) (hown : flp.own u = true) (hle : flp.set.l_start ≤ r.ld.l_end + 1)
    (hg : g ∈ (r.piece u flp).behind) : ∃ f ∈ flp :: r.behind, Rest u f g := by
  unfold Turn.piece insflck at hg
  cases hfree : r.k.frlock with
  | nil =>
    rw [hfree] at hg
    exact ⟨g, mem_cons_of_mem _ hg, .inl rfl⟩
  | cons a free =>
    rw [hfree] at hg
    rcases mem_append.mp (mem_of_mem_tail hg) with hg | hg
    · exact ⟨g, mem_of_mem_take hg, .inl rfl⟩
    · rcases mem_cons.mp hg with rfl | hg
      · exact ⟨flp, mem_cons_self, .inr ⟨hown, by simp [Filock.own, newlck], rfl, hle, Int.le_refl _⟩⟩
      · exact ⟨g, mem_of_mem_drop hg, .inl rfl⟩

/-- A turn leaves no process more of its locks than there was. -/
theorem turn_rest (hown : flp.own u = true) (hg : g ∈ (turn u pos insrtp ld k flp behind).stay ++
      (turn u pos insrtp ld k flp behind).behind) : ∃ f ∈ flp :: behind, Rest u f g := by
  have hpiece (p : ℕ) := piece_rest (g := g) ⟨[flp], behind, p, ld, k, .next⟩ hown
  have hsame (p : ℕ) : (Turn.piece u ⟨[flp], behind, p, ld, k, .next⟩ flp).stay = [flp] ∧
      (Turn.piece u ⟨[flp], behind, p, ld, k, .next⟩ flp).ld = ld := by
    unfold Turn.piece insflck
    cases k.frlock <;> exact ⟨rfl, rfl⟩
  have hcut (z : ℤ) (k : Krnl) (hz : z ≤ flp.set.l_end) :
      Rest u flp (WAKEUP { flp with set := { flp.set with l_end := z } } k).1 := by
    refine .inr ⟨hown, ?_, ?_⟩ <;> unfold WAKEUP <;> split <;> first | exact hown | exact ⟨rfl, Int.le_refl _, hz⟩
  have hkeep (hg : g ∈ flp :: behind) : ∃ f ∈ flp :: behind, Rest u f g := ⟨g, hg, .inl rfl⟩
  rw [mem_append] at hg
  unfold turn regflck regend at hg
  grind [Turn.del, Turn.cut]

theorem scan_rest (hg : g ∈ (scan u before insrtp ld k rest).lst) : ∃ f ∈ before ++ rest, Rest u f g := by
  induction rest generalizing before insrtp ld k with
  | nil => exact ⟨g, mem_append_left _ hg, .inl rfl⟩
  | cons flp behind ih =>
    unfold scan at hg
    by_cases hown : flp.own u = true
    · rw [if_pos hown] at hg
      generalize hr : turn u before.length insrtp ld k flp behind = r at hg
      have hfront {f : Filock} (hf : f ∈ before ∨ f ∈ r.stay ++ r.behind ∨ f ∈ behind) :
          ∃ e ∈ before ++ flp :: behind, Rest u e f := by
        rcases hf with hf | hf | hf
        · exact ⟨f, mem_append_left _ hf, .inl rfl⟩
        · rw [← hr] at hf
          obtain ⟨e, he, hef⟩ := turn_rest hown hf
          exact ⟨e, mem_append_right _ he, hef⟩
        · exact ⟨f, mem_append_right _ (mem_cons_of_mem _ hf), .inl rfl⟩
      cases hgo : r.go <;> simp only [hgo] at hg
      · obtain ⟨f, hf, hfg⟩ := ih hg
        obtain ⟨e, he, hef⟩ := hfront (f := f) (by grind)
        exact ⟨e, he, hef.trans hfg⟩
      all_goals exact hfront (by grind)
    · rw [if_neg hown] at hg
      rw [append_cons]
      exact ih hg

theorem own_unique (hu : g.own u = true) (hv : g.own v = true) : u = v := by
  cases u
  cases v
  simp only [Filock.own, Bool.and_eq_true, decide_eq_true_eq] at hu hv
  rw [← hu.1, ← hu.2, hv.1, hv.2]

theorem flckadj_failed {e : Errno} (h : (flckadj u lst insrtp ld k).ret = some e) :
    (flckadj u lst insrtp ld k).lst = (scan u (lst.take (insrtp - 1)) insrtp ld k (lst.drop (insrtp - 1))).lst := by
  unfold flckadj Scanned.enter insflck at h ⊢
  grind

/-- What the processes hold after a request, whether it is granted or not -/
theorem flckadj_holds (htype : ld.l_type = .F_RDLCK ∨ ld.l_type = .F_WRLCK ∨ ld.l_type = .F_UNLCK)
    (h : Inv u lst ld (lst.take (insrtp - 1)) (lst.drop (insrtp - 1)) insrtp ld)
    (hh : Holds v (flckadj u lst insrtp ld k).lst b t) :
    Holds v lst b t ∨ v = u ∧ ld.covers b ∧ t = ld.l_type ∧ t ≠ .F_UNLCK := by
  obtain ⟨g, hg, hown, hstart, hend, htg⟩ := hh
  cases hret : (flckadj u lst insrtp ld k).ret with
  | none =>
    have hans := flckadj_answers htype h hret
    by_cases hv : v = u
    · obtain ⟨hne, hnew | hold⟩ := (hans.holds b t).mp ⟨g, hg, hv ▸ hown, hstart, hend, htg⟩
      · exact .inr ⟨hv, hnew.1, hnew.2, hne⟩
      · exact .inl (hv ▸ hold.2)
    · have hother : g ∈ (flckadj u lst insrtp ld k).lst.filter fun f => !f.own u := by
        simpa [hg] using fun hu => hv (own_unique hown hu)
      rw [hans.others] at hother
      exact .inl ⟨g, (mem_filter.mp hother).1, hown, hstart, hend, htg⟩
  | some e =>
    rw [flckadj_failed hret] at hg
    obtain ⟨f, hf, rfl | ⟨hfown, hgown, hftype, hfstart, hfend⟩⟩ := scan_rest hg
    · rw [take_append_drop] at hf
      exact .inl ⟨g, hf, hown, hstart, hend, htg⟩
    · rw [take_append_drop] at hf
      exact .inl ⟨f, hf, own_unique hown hgown ▸ hfown, Int.le_trans hfstart hstart, Int.le_trans hend hfend,
        hftype.symm.trans htg⟩

/-- What `checks` lets through -/
structure Flock.InRange (ld : Flock) : Prop where
  start : 0 ≤ ld.l_start
  le : ld.l_start ≤ ld.l_end
  max : ld.l_end ≤ MAXEND

/-- The locks of an inode -/
structure Safe (lst : List Filock) : Prop where
  wf : WF lst
  exclusive : Exclusive lst

/-- A request that nothing blocks, and an unlock -/
theorem Safe.flckadj (h : Safe lst) (hld : ld.InRange)
    (hreq : (ld.l_type = .F_RDLCK ∨ ld.l_type = .F_WRLCK) ∧ blocked u lst ld = (none, insrtp) ∨
      ld.l_type = .F_UNLCK ∧ insrtp = min 1 lst.length) : Safe (flckadj u lst insrtp ld k).lst := by
  have htype : ld.l_type = .F_RDLCK ∨ ld.l_type = .F_WRLCK ∨ ld.l_type = .F_UNLCK := by tauto
  have hinv := inv_start h.wf hld.start hld.le hld.max
    (hreq.imp (fun hb => (congrArg Prod.snd hb.2 : (blocked u _ _).2 = insrtp)) id)
  -- a lock that another process holds inside the request
  have hclash {v : Owner} {b : ℤ} {t : LType} (hv : v ≠ u) (hh : Holds v lst b t) (hb : ld.covers b)
      (hun : ld.l_type ≠ .F_UNLCK) : ¬(t = .F_WRLCK ∨ ld.l_type = .F_WRLCK) := by
    obtain ⟨f, hf, hown, hstart, hend, rfl⟩ := hh
    have hlocks : Locks lst := ⟨h.wf.sorted, h.wf.ordered.imp fun hp hsame => (hp.2 hsame).1,
      fun f hf => (h.wf.valid f hf).le, fun f hf => (h.wf.valid f hf).type⟩
    have hnone := congrArg Prod.fst (hreq.resolve_right fun hu => hun hu.1).2
    refine fun hwrite => (blockedAt_answer u 0 hlocks hld.le).none hnone f hf
      ⟨?_, Int.le_trans hstart hb.2, Int.le_trans hb.1 hend, hwrite⟩
    rw [Bool.eq_false_iff]
    exact fun hu => hv (own_unique hown hu)
  refine ⟨flckadj_wf htype hinv, fun v w b t hne hv hw => ?_⟩
  rcases flckadj_holds htype hinv hv with hold | ⟨rfl, hb, ht, hun⟩ <;>
    rcases flckadj_holds htype hinv hw with hold' | ⟨rfl, hb', rfl, hun'⟩
  · exact h.exclusive v w b t hne hold hold'
  · exact hclash hne hold hb' hun' (.inl rfl)
  · exact hclash hne.symm hold' hb (ht ▸ hun) (.inr ht.symm)
  · exact hne rfl

/-- Locks are taken out, and what is in `stat` changes. -/
theorem Safe.of_sets (h : Safe lst) {lst' : List Filock} (hsub : lst'.map Filock.set <+ lst.map Filock.set) :
    Safe lst' := by
  have hold {g : Filock} (hg : g ∈ lst') : ∃ f ∈ lst, f.set = g.set :=
    mem_map.mp (hsub.subset (mem_map_of_mem hg))
  have hholds {v : Owner} {b : ℤ} {t : LType} (hh : Holds v lst' b t) : Holds v lst b t := by
    obtain ⟨g, hg, hrest⟩ := hh
    obtain ⟨f, hf, hset⟩ := hold hg
    unfold Filock.own at hrest
    rw [← hset] at hrest
    exact ⟨f, hf, hrest⟩
  refine ⟨⟨?_, fun g hg => ?_⟩, fun v w b t hne hv hw => h.exclusive v w b t hne (hholds hv) (hholds hw)⟩
  · have hmap : (lst.map Filock.set).Pairwise fun e f => Precedes ⟨0, e, .zero⟩ ⟨0, f, .zero⟩ :=
      pairwise_map.mpr h.wf.ordered
    have hmap' := hmap.sublist hsub
    exact (pairwise_map.mp hmap').imp id
  · obtain ⟨f, hf, hset⟩ := hold hg
    exact hset ▸ h.wf.valid f hf

theorem wakeflgIncr_sets (found : ℕ) (lst : List Filock) :
    (wakeflgIncr found lst).map Filock.set = lst.map Filock.set := by
  unfold wakeflgIncr
  rw [map_map]
  refine map_congr_left fun f _ => ?_
  rw [comp_apply]
  split <;> rfl

theorem cleanlocks_sublist (u : Owner) (flag : CleanFlag) (lst : List Filock) (k : Krnl) :
    (cleanlocks u flag lst k).1 <+ lst := by
  induction lst generalizing k with
  | nil => exact Sublist.refl _
  | cons f fs ih =>
    unfold cleanlocks
    split
    · exact (ih _).cons f
    · exact (ih _).cons_cons f

end Request

/-! ## Runs -/

/-- The request of a process that is in `reclock` -/
def Proc.request : Proc → Option Flock
  | .user _ => none
  | .asleep c _ _ => some c.lckdat
  | .again c => some c.lckdat

structure LocksInv (s : Sys) : Prop where
  safe : ∀ ip, Safe (s.i_filocks ip)
  request : ∀ u ld, (s.proc u).request = some ld → ld.InRange

section Steps

variable {s t : Sys} {u : Owner} {c : Call} {n : ℕ} {r : Sys × Pass}

theorem checks_inRange {i_size offset : ℤ} {lckdat ld : Flock} {cmd : Cmd} {flag : Flag}
    (h : checks i_size lckdat cmd flag offset = .ok ld) : ld.InRange := by
  have hoff (z : ℤ) : offT z ≤ MAXEND := by
    have h := @Int.bmod_lt z (2 ^ 32) (by decide)
    unfold offT MAXEND
    omega
  unfold checks at h
  split at h
  · cases h
  · cases hconv : convoff i_size lckdat 0 offset with
    | mk e ld' =>
      rw [hconv] at h
      have hstart : e = none → 0 ≤ ld'.l_start := by
        unfold convoff at hconv
        grind
      cases e with
      | some e => cases h
      | none =>
        simp only at h
        split at h
        · cases h
        · split at h <;> split at h <;> cases h
          · exact ⟨hstart rfl, Int.not_lt.mp ‹_›, Int.le_refl _⟩
          · exact ⟨hstart rfl, Int.not_lt.mp ‹_›, hoff _⟩

theorem LocksInv.of_eq (h : LocksInv s) (hlocks : t.i_filocks = s.i_filocks) (hproc : t.proc = s.proc) :
    LocksInv t :=
  ⟨hlocks ▸ h.safe, hproc ▸ h.request⟩

theorem LocksInv.setLocks (h : LocksInv s) (ip : ℕ) {lst : List Filock} (hsafe : Safe lst) (k : Krnl) :
    LocksInv (s.setLocks ip lst k) := by
  refine ⟨fun jp => ?_, h.request⟩
  unfold Sys.setLocks
  by_cases hj : jp = ip
  · rw [hj]
    simpa only [update_self] using hsafe
  · simpa only [update_of_ne hj] using h.safe jp

theorem LocksInv.setProc (h : LocksInv s) {p : Proc} (hp : ∀ ld, p.request = some ld → ld.InRange) :
    LocksInv (s.setProc u p) := by
  refine ⟨h.safe, fun q ld hq => ?_⟩
  by_cases hqu : q = u
  · rw [hqu, setProc_self] at hq
    exact hp ld hq
  · rw [setProc_other hqu] at hq
    exact h.request q ld hq

theorem LocksInv.leave (h : LocksInv r.1) (hc : c.lckdat.InRange) : LocksInv (leave u c r) := by
  obtain ⟨s, pass⟩ := r
  cases pass with
  | fin retval lckdat => exact h.setProc fun _ hnone => by cases hnone
  | sleep sf found => exact h.setProc fun ld hld => Option.some.inj hld ▸ hc

theorem wait_locks (h : LocksInv s) {found : Filock} (hr : wait n u c found s = some r) : LocksInv r.1 := by
  unfold wait at hr
  split at hr
  · cases hr
  · cases hr
    exact h
  · split at hr
    · cases hr
      exact h.of_eq rfl rfl
    · split at hr <;> cases hr
      · exact h.of_eq rfl rfl
      · have hsafe : Safe (wakeflgIncr found.addr (s.i_filocks c.ip)) :=
          (h.safe c.ip).of_sets (by rw [wakeflgIncr_sets])
        exact (h.setLocks c.ip hsafe s.k).of_eq rfl rfl

theorem turnOfLoop_locks (h : LocksInv s) (hc : c.lckdat.InRange) (hr : turnOfLoop n u c s = some r) :
    LocksInv r.1 := by
  have hrequest (htype : c.lckdat.l_type = .F_RDLCK ∨ c.lckdat.l_type = .F_WRLCK)
      (hr : request n u c s = some r) : LocksInv r.1 := by
    unfold request at hr
    split at hr
    · split at hr <;> cases hr
      · exact h.setLocks c.ip ((h.safe c.ip).flckadj hc (.inl ⟨htype, ‹_›⟩)) _
      · exact h
    · split at hr
      · exact wait_locks h hr
      · split at hr <;> cases hr <;> exact h
  unfold turnOfLoop at hr
  split at hr
  · exact hrequest (.inl ‹_›) hr
  · exact hrequest (.inr ‹_›) hr
  · split at hr <;> cases hr
    · exact h.setLocks c.ip ((h.safe c.ip).flckadj hc (.inr ⟨‹_›, rfl⟩)) _
    · exact h
  · cases hr
    exact h

theorem exec_locks (h : LocksInv s) {a : Act} (ht : exec n s a = some t) : LocksInv t := by
  cases a <;> unfold exec at ht <;> simp only at ht
  case reclock u ip lckdat cmd flag offset =>
    split at ht
    · split at ht
      · cases ht
        exact h.setProc fun _ hnone => by cases hnone
      · rename_i ld hchecks
        obtain ⟨r, hr, rfl⟩ := Option.map_eq_some_iff.mp ht
        exact (turnOfLoop_locks h (checks_inRange hchecks) hr).leave (checks_inRange hchecks)
    · cases ht
  case wakes u signal =>
    split at ht
    · rename_i c sf found hproc
      have hc : c.lckdat.InRange := h.request u _ (by rw [hproc]; rfl)
      split at ht <;> cases ht
      · exact LocksInv.leave (h.of_eq rfl rfl) hc
      · apply LocksInv.setProc
        · exact h.of_eq rfl rfl
        · exact fun ld hld => Option.some.inj hld ▸ hc
    · cases ht
  case again u =>
    split at ht
    · rename_i c hproc
      have hc : c.lckdat.InRange := h.request u _ (by rw [hproc]; rfl)
      obtain ⟨r, hr, rfl⟩ := Option.map_eq_some_iff.mp ht
      exact (turnOfLoop_locks h hc hr).leave hc
    · cases ht
  case cleanlocks u ip flag =>
    cases ht
    exact h.setLocks ip ((h.safe ip).of_sets ((cleanlocks_sublist u flag _ s.k).map _)) _
  case resize ip size =>
    cases ht
    exact h.of_eq rfl rfl

end Steps

/-- Whatever the processes request, wait for and give up, the locks of every inode are in order and exclusive. -/
theorem locks_exclusive {s0 s : Sys} {as : List Act} (h0 : s0.Init) (h : Run Step s0 as s) (ip : ℕ) :
    WF (s.i_filocks ip) ∧ Exclusive (s.i_filocks ip) := by
  have hinit : LocksInv s0 := by
    refine ⟨fun ip => ?_, fun u ld hu => ?_⟩
    · rw [h0.locks]
      refine ⟨⟨.nil, fun f hf => absurd hf not_mem_nil⟩, fun u v b t _ hu => ?_⟩
      obtain ⟨f, hf, -⟩ := hu
      exact absurd hf not_mem_nil
    · obtain ⟨last, hlast⟩ := h0.user u
      rw [hlast] at hu
      cases hu
  have hinv : LocksInv s := by
    apply h.invariant _ hinit
    rintro s a t hs ⟨n, hn⟩
    exact exec_locks hs hn
  exact ⟨(hinv.safe ip).wf, (hinv.safe ip).exclusive⟩

theorem locks_exclusive_one : ∃ s, Run Step twoWriters [wants 1 0] s ∧ Holds ⟨1, 0⟩ (s.i_filocks 0) 5 .F_WRLCK ∧
    WF (s.i_filocks 0) ∧ Exclusive (s.i_filocks 0) := by
  have h0 : twoWriters.Init := ⟨fun _ => rfl, by decide, rfl, fun _ => ⟨none, rfl⟩⟩
  obtain ⟨s, hs⟩ : ∃ s, exec 1 twoWriters (wants 1 0) = some s := ⟨_, rfl⟩
  refine ⟨s, .single ⟨1, hs⟩, ?_, locks_exclusive h0 (.single ⟨1, hs⟩) 0⟩
  cases hs
  exact ⟨_, mem_cons_self, rfl, by decide, by decide, rfl⟩
end Svr3.Rlock
