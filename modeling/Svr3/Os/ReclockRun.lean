import Svr3.Lib.Run
import Svr3.Lib.Follow
import Svr3.Os.FlockPool
import Mathlib.Data.List.Nodup

/-!
# No deadlock on record locks

Over any run, the entries of `sleeplcks` say which process sleeps on a lock of which other, and no
process reaches itself along them: `deadflck` looks before every new entry, and comes to an end.
-/

namespace Svr3.Rlock

open Function List

/-- The owner of the lock on which a process sleeps. -/
def awaits (proc : Owner → Proc) (p : Owner) : Option Owner :=
  match proc p with
  | .asleep _ _ found => some found.owner
  | _ => none

/-- What `deadflck` reads out of `sleeplcks`. -/
def recorded (sleeplcks : List Filock) (p : Owner) : Option Owner :=
  (sleeplcks.find? fun sf => sf.owner = p).map Filock.blk

/-- The loop of `deadflck` searches along the entries of `sleeplcks`. -/
theorem deadfrom_eq_chase (sleeplcks : List Filock) (u : Owner) (n : ℕ) (blck : Owner) :
    deadfrom sleeplcks u n blck = chase (recorded sleeplcks) u n blck := by
  induction n generalizing blck with
  | zero => rfl
  | succ n ih =>
    have hrec : recorded sleeplcks blck =
        (sleeplcks.find? fun sf => sf.owner = blck).map Filock.blk := rfl
    unfold deadfrom chase
    rw [hrec]
    cases sleeplcks.find? fun sf => sf.owner = blck with
    | none => rfl
    | some sf => simp only [Option.map_some, ih]

/-- The entries of `sleeplcks` are those of the sleeping processes. -/
structure SleepInv (s : Sys) : Prop where
  pool : Pool s.k.frlock (s.sleeplcks.map Filock.addr) fun ip => (s.i_filocks ip).map Filock.addr
  entry : ∀ f ∈ s.sleeplcks, ∃ c found, s.proc f.owner = .asleep c f.addr found ∧
    f.blk = found.owner
  asleep : ∀ p c sf found, s.proc p = .asleep c sf found →
    ∃ f ∈ s.sleeplcks, f.addr = sf ∧ f.owner = p
  ends : ∀ p, Ends (awaits s.proc) p

section Steps

variable {s t : Sys} {u q : Owner} {c : Call} {n : ℕ}

@[simp]
theorem setProc_self (p : Proc) : (s.setProc u p).proc u = p := update_self _ _ _

theorem setProc_other (h : q ≠ u) (p : Proc) : (s.setProc u p).proc q = s.proc q :=
  update_of_ne h _ _

theorem awaits_asleep {proc : Owner → Proc} {sf : ℕ} {found : Filock}
    (h : proc u = .asleep c sf found) : awaits proc u = some found.owner := by
  unfold awaits
  rw [h]

/-- A process that is not asleep. -/
def Proc.Awake (p : Proc) : Prop := ∀ c sf found, p ≠ .asleep c sf found

theorem awaits_awake {proc : Owner → Proc} (h : (proc u).Awake) : awaits proc u = none := by
  unfold awaits
  split
  · rename_i heq
    exact absurd heq (h _ _ _)
  · rfl

theorem SleepInv.recorded_eq (h : SleepInv s) : recorded s.sleeplcks = awaits s.proc := by
  funext p
  unfold recorded
  cases hfind : s.sleeplcks.find? fun sf => sf.owner = p with
  | some f =>
    obtain ⟨c, found, hproc, hblk⟩ := h.entry f (mem_of_find?_eq_some hfind)
    have howner : f.owner = p := by simpa using List.find?_some hfind
    rw [howner] at hproc
    rw [awaits_asleep hproc, Option.map_some, hblk]
  | none =>
    rw [awaits_awake, Option.map_none]
    intro c sf found hproc
    obtain ⟨f, hf, -, howner⟩ := h.asleep p c sf found hproc
    have hne := List.find?_eq_none.mp hfind f hf
    exact hne (by simpa using howner)

theorem deadflck_eq (h : SleepInv s) (flp : Filock) :
    deadflck n s.sleeplcks u flp = chase (awaits s.proc) u n flp.owner := by
  unfold deadflck
  rw [deadfrom_eq_chase, h.recorded_eq]

/-- The lists of locks change, and the free list with them. -/
theorem SleepInv.setLocks (h : SleepInv s) (ip : ℕ) {lst : List Filock} {k : Krnl}
    (hp : (addrs k lst).Perm (addrs s.k (s.i_filocks ip))) : SleepInv (s.setLocks ip lst k) := by
  refine ⟨?_, h.entry, h.asleep, h.ends⟩
  have hpool := h.pool.exchange ip hp
  unfold Sys.setLocks
  have hlocks : (fun jp => (update s.i_filocks ip lst jp).map Filock.addr) =
      update (fun jp => (s.i_filocks jp).map Filock.addr) ip (lst.map Filock.addr) := by
    funext jp
    by_cases hj : jp = ip
    · subst hj
      simp only [update_self]
    · simp only [update_of_ne hj]
  rw [hlocks]
  exact hpool

/-- A process that is not asleep goes on otherwise. -/
theorem SleepInv.setProc (h : SleepInv s) (hu : (s.proc u).Awake) {p : Proc} (hp : p.Awake) :
    SleepInv (s.setProc u p) := by
  have haway (q : Owner) (c : Call) (sf : ℕ) (found : Filock) :
      (s.setProc u p).proc q = .asleep c sf found ↔ s.proc q = .asleep c sf found := by
    by_cases hq : q = u
    · subst hq
      rw [setProc_self]
      exact iff_of_false (hp c sf found) (hu c sf found)
    · rw [setProc_other hq]
  refine ⟨h.pool, fun f hf => ?_, fun q c sf found hq => ?_, fun q => ?_⟩
  · obtain ⟨c, found, hproc, hblk⟩ := h.entry f hf
    exact ⟨c, found, (haway _ _ _ _).mpr hproc, hblk⟩
  · exact h.asleep q c sf found ((haway q c sf found).mp hq)
  · apply (h.ends q).of_le
    intro a b hab
    unfold awaits at hab
    split at hab
    · rename_i heq
      rw [awaits_asleep ((haway _ _ _ _).mp heq)]
      exact hab
    · cases hab

/-- The process goes to sleep on `found`, whose owner does not wait for the process. -/
theorem SleepInv.sleep (h : SleepInv s) (hu : (s.proc u).Awake) {found e : Filock} {sf : ℕ}
    {rest : List ℕ} (hfree : s.k.frlock = sf :: rest) (he : e.addr = sf) (howner : e.owner = u)
    (hblk : e.blk = found.owner) (hwait : ¬ Reaches (awaits s.proc) found.owner u) {k : Krnl}
    (hk : k.frlock = rest) :
    SleepInv (Sys.setProc { s with sleeplcks := e :: s.sleeplcks, k := k } u
      (.asleep c sf found)) := by
  have hother (f : Filock) (hf : f ∈ s.sleeplcks) : f.owner ≠ u := by
    intro hfu
    obtain ⟨c, g, hproc, -⟩ := h.entry f hf
    exact hu c f.addr g (hfu ▸ hproc)
  refine ⟨?_, fun f hf => ?_, fun q c' sf' found' hq => ?_, fun q => ?_⟩
  · have hpool := h.pool
    rw [hfree, ← hk, ← he] at hpool
    exact hpool.take
  · rcases mem_cons.mp hf with rfl | hf
    · refine ⟨c, found, ?_, hblk⟩
      rw [howner, setProc_self, he]
    · obtain ⟨c, g, hproc, hg⟩ := h.entry f hf
      refine ⟨c, g, ?_, hg⟩
      rw [setProc_other (hother f hf)]
      exact hproc
  · by_cases hqu : q = u
    · subst hqu
      rw [setProc_self] at hq
      cases hq
      exact ⟨e, mem_cons_self, he, howner⟩
    · rw [setProc_other hqu] at hq
      obtain ⟨f, hf, h1, h2⟩ := h.asleep q c' sf' found' hq
      exact ⟨f, mem_cons_of_mem _ hf, h1, h2⟩
  · have hnew : awaits (Sys.setProc { s with sleeplcks := e :: s.sleeplcks, k := k } u
        (.asleep c sf found)).proc = update (awaits s.proc) u (some found.owner) := by
      funext p
      by_cases hpu : p = u
      · subst hpu
        rw [update_self]
        exact awaits_asleep (setProc_self _)
      · rw [update_of_ne hpu]
        unfold awaits
        rw [setProc_other hpu]
    rw [hnew]
    exact Ends.update h.ends hwait q

/-- The sleep of a process is over, and its entry deleted. -/
theorem SleepInv.wake (h : SleepInv s) {sf : ℕ} {found : Filock}
    (hu : s.proc u = .asleep c sf found) {k : Krnl} (hk : k.frlock = sf :: s.k.frlock) {p : Proc}
    (hp : p.Awake) :
    SleepInv (Sys.setProc { s with sleeplcks := unlink sf s.sleeplcks, k := k } u p) := by
  obtain ⟨e, he, haddr, howner⟩ := h.asleep u c sf found hu
  have hnodup : (s.sleeplcks.map Filock.addr).Nodup := (nodup_append.mp (h.pool.nodup 0)).2.1
  have hmem (f : Filock) : f ∈ unlink sf s.sleeplcks ↔ f ∈ s.sleeplcks ∧ f.addr ≠ sf := by
    unfold unlink
    simp
  refine ⟨?_, fun f hf => ?_, fun q c' sf' found' hq => ?_, fun q => ?_⟩
  · have hpool := h.pool.give (mem_map.mpr ⟨e, he, haddr⟩)
    have hmap : (unlink sf s.sleeplcks).map Filock.addr =
        (s.sleeplcks.map Filock.addr).filter fun a => a ≠ sf := by
      unfold unlink
      rw [filter_map]
      rfl
    rw [← hk, ← hmap] at hpool
    exact hpool
  · obtain ⟨hf, hne⟩ := (hmem f).mp hf
    obtain ⟨c', g, hproc, hg⟩ := h.entry f hf
    refine ⟨c', g, ?_, hg⟩
    -- another entry of the process would be at `sf` too
    have hfu : f.owner ≠ u := by
      intro hfu
      rw [hfu, hu] at hproc
      cases hproc
      exact hne rfl
    rw [setProc_other hfu]
    exact hproc
  · by_cases hqu : q = u
    · subst hqu
      rw [setProc_self] at hq
      exact absurd hq (hp _ _ _)
    · rw [setProc_other hqu] at hq
      obtain ⟨f, hf, h1, h2⟩ := h.asleep q c' sf' found' hq
      refine ⟨f, (hmem f).mpr ⟨hf, fun hsf => hqu ?_⟩, h1, h2⟩
      have hfe : f = e := inj_on_of_nodup_map hnodup hf he (hsf.trans haddr.symm)
      rw [← h2, hfe, howner]
  · apply (h.ends q).of_le
    intro a b hab
    by_cases hau : a = u
    · subst hau
      rw [awaits_awake (by rw [setProc_self]; exact hp)] at hab
      cases hab
    · unfold awaits at hab ⊢
      rwa [setProc_other hau] at hab

theorem user_awake (last : Option (Option Errno × Flock)) : (Proc.user last).Awake :=
  fun _ _ _ heq => Proc.noConfusion heq

theorem again_awake (c : Call) : (Proc.again c).Awake := fun _ _ _ heq => Proc.noConfusion heq

/-- The invariant is about the structures and the processes alone. -/
theorem SleepInv.of_eq (h : SleepInv s) (hfree : t.k.frlock = s.k.frlock)
    (hsleep : t.sleeplcks = s.sleeplcks) (hlocks : t.i_filocks = s.i_filocks)
    (hproc : t.proc = s.proc) : SleepInv t := by
  constructor
  · rw [hfree, hsleep, hlocks]
    exact h.pool
  · rw [hsleep, hproc]
    exact h.entry
  · rw [hsleep, hproc]
    exact h.asleep
  · rw [hproc]
    exact h.ends

theorem SleepInv.fin (h : SleepInv s) (hu : (s.proc u).Awake) (retval : Option Errno)
    (lckdat : Flock) : SleepInv (leave u c (s, .fin retval lckdat)) := by
  unfold leave
  exact h.setProc hu (user_awake _)

theorem SleepInv.adjusted (h : SleepInv s) (hu : (s.proc u).Awake) (insrtp : ℕ) :
    SleepInv (leave u c (adjusted u c insrtp s)) :=
  (h.setLocks c.ip (flckadj_addrs _ _ _)).fin hu _ _

/-- What `insflck` and `delflck` make of `sleeplcks` for an entry that is at once taken back. -/
theorem unlink_new (h : SleepInv s) {sf : ℕ} {rest : List ℕ} (hfree : s.k.frlock = sf :: rest)
    {e : Filock} (he : e.addr = sf) : unlink sf (e :: s.sleeplcks) = s.sleeplcks := by
  have hnodup := h.pool.nodup 0
  rw [hfree, append_assoc, cons_append, nodup_cons] at hnodup
  unfold unlink
  rw [filter_cons_of_neg (by simp [he]), filter_eq_self]
  intro f hf
  have hne : f.addr ≠ sf := by
    intro hsf
    apply hnodup.1
    simp only [mem_append, mem_map]
    exact .inr (.inr ⟨f, hf, hsf⟩)
  simpa using hne

theorem setblk_new (h : SleepInv s) {sf : ℕ} {rest : List ℕ} (hfree : s.k.frlock = sf :: rest)
    {e : Filock} (he : e.addr = sf) (blk : Stat) :
    setblk sf blk (e :: s.sleeplcks) = { e with stat := blk } :: s.sleeplcks := by
  have hsame := unlink_new h hfree he
  unfold unlink at hsame
  rw [filter_cons_of_neg (by simp [he]), filter_eq_self] at hsame
  unfold setblk
  rw [map_cons, if_pos he]
  congr 1
  conv_rhs => rw [← map_id s.sleeplcks]
  apply map_congr_left
  intro f hf
  rw [if_neg (by simpa using hsame f hf)]
  rfl

theorem wait_inv (h : SleepInv s) (hu : (s.proc u).Awake) {found : Filock} {r : Sys × Pass}
    (hr : wait n u c found s = some r) : SleepInv (leave u c r) := by
  unfold wait at hr
  cases hdead : deadflck n s.sleeplcks u found with
  | none =>
    rw [hdead] at hr
    cases hr
  | some dead =>
    rw [hdead] at hr
    cases dead with
    | true =>
      cases hr
      exact h.fin hu _ _
    | false =>
      rw [deadflck_eq h] at hdead
      have hwait : ¬ Reaches (awaits s.proc) found.owner u := by
        rw [← chase_eq hdead]
        exact Bool.false_ne_true
      unfold insflck at hr
      cases hfree : s.k.frlock with
      | nil =>
        rw [hfree] at hr
        cases hr
        apply SleepInv.fin
        · exact h.of_eq hfree.symm rfl rfl rfl
        · exact hu
      | cons sf rest =>
        rw [hfree] at hr
        simp only [take_zero, drop_zero, nil_append] at hr
        by_cases hserver : u.server = true
        · -- the entry is taken back
          rw [if_pos hserver] at hr
          cases hr
          apply SleepInv.fin
          · refine h.of_eq ?_ ?_ rfl rfl
            · exact (delflck_frlock _ _).trans hfree.symm
            · exact unlink_new h hfree rfl
          · exact hu
        · rw [if_neg hserver] at hr
          cases hr
          have hincr : SleepInv (s.setLocks c.ip (wakeflgIncr found.addr (s.i_filocks c.ip)) s.k) := by
            apply h.setLocks
            unfold addrs
            rw [wakeflgIncr_addr]
          have hsleep := hincr.sleep (c := c) hu hfree
            (e := { newlck u sf c.lckdat with stat := ⟨found.set.l_pid, found.set.l_sysid⟩ })
            rfl rfl rfl hwait (k := { s.k with frlock := rest }) rfl
          exact hsleep.of_eq rfl (setblk_new h hfree rfl _) rfl rfl

theorem request_inv (h : SleepInv s) (hu : (s.proc u).Awake) {r : Sys × Pass}
    (hr : request n u c s = some r) : SleepInv (leave u c r) := by
  unfold request at hr
  split at hr
  · split at hr <;> cases hr
    · exact h.adjusted hu _
    · exact h.fin hu _ _
  · split at hr
    · exact wait_inv h hu hr
    · split at hr <;> cases hr
      · exact h.fin hu _ _
      · exact h.fin hu _ _

theorem turnOfLoop_inv (h : SleepInv s) (hu : (s.proc u).Awake) {r : Sys × Pass}
    (hr : turnOfLoop n u c s = some r) : SleepInv (leave u c r) := by
  unfold turnOfLoop at hr
  split at hr
  · exact request_inv h hu hr
  · exact request_inv h hu hr
  · split at hr <;> cases hr
    · exact h.adjusted hu _
    · exact h.fin hu _ _
  · cases hr
    exact h.fin hu _ _

theorem exec_inv (h : SleepInv s) {a : Act} (ht : exec n s a = some t) : SleepInv t := by
  cases a with
  | reclock u ip lckdat cmd flag offset =>
    unfold exec at ht
    cases hproc : s.proc u with
    | user last =>
      have hu : (s.proc u).Awake := by
        rw [hproc]
        exact user_awake last
      simp only [hproc] at ht
      cases hchecks : checks (s.i_size ip) lckdat cmd flag offset with
      | error e =>
        simp only [hchecks] at ht
        cases ht
        exact h.setProc hu (user_awake _)
      | ok ld =>
        simp only [hchecks] at ht
        obtain ⟨r, hr, rfl⟩ := Option.map_eq_some_iff.mp ht
        exact turnOfLoop_inv h hu hr
    | asleep c sf found =>
      simp only [hproc] at ht
      cases ht
    | again c =>
      simp only [hproc] at ht
      cases ht
  | wakes u signal =>
    unfold exec at ht
    cases hproc : s.proc u with
    | user last =>
      simp only [hproc] at ht
      cases ht
    | asleep c sf found =>
      simp only [hproc] at ht
      split at ht <;> cases ht
      · unfold leave
        exact h.wake hproc (delflck_frlock _ _) (user_awake _)
      · exact h.wake hproc (delflck_frlock _ _) (again_awake c)
    | again c =>
      simp only [hproc] at ht
      cases ht
  | again u =>
    unfold exec at ht
    cases hproc : s.proc u with
    | user last =>
      simp only [hproc] at ht
      cases ht
    | asleep c sf found =>
      simp only [hproc] at ht
      cases ht
    | again c =>
      have hu : (s.proc u).Awake := by
        rw [hproc]
        exact again_awake c
      simp only [hproc] at ht
      obtain ⟨r, hr, rfl⟩ := Option.map_eq_some_iff.mp ht
      exact turnOfLoop_inv h hu hr
  | cleanlocks u ip flag =>
    unfold exec at ht
    cases ht
    exact h.setLocks ip (cleanlocks_addrs flag _ _)
  | resize ip size =>
    unfold exec at ht
    cases ht
    exact h.of_eq rfl rfl rfl rfl

theorem init_inv (h : s.Init) : SleepInv s := by
  have hawake (u : Owner) : (s.proc u).Awake := by
    obtain ⟨last, hlast⟩ := h.user u
    rw [hlast]
    exact user_awake last
  refine ⟨⟨fun ip => ?_, fun ip jp _ a ha => ?_⟩, fun f hf => ?_, fun p c sf found hp => ?_,
    fun p => ?_⟩
  · simpa [h.locks, h.sleeplcks] using h.free
  · simp [h.locks] at ha
  · rw [h.sleeplcks] at hf
    exact absurd hf not_mem_nil
  · exact absurd hp (hawake p c sf found)
  · refine .intro p fun b hb => ?_
    rw [awaits_awake (hawake p)] at hb
    cases hb

end Steps

/-! ## What holds in every state -/

/-- An entry of `sleeplcks` for `p` records `q`. -/
def Records (sleeplcks : List Filock) (p q : Owner) : Prop :=
  ∃ f ∈ sleeplcks, f.owner = p ∧ f.blk = q

/-- `p` sleeps on a lock of `q`. -/
def SleepsOn (s : Sys) (p q : Owner) : Prop :=
  ∃ c sf found, s.proc p = .asleep c sf found ∧ found.owner = q

/-- What `sleeplcks` records, and what `deadflck` makes of it. -/
structure DeadlockFree (s : Sys) : Prop where
  records : ∀ p q, Records s.sleeplcks p q ↔ SleepsOn s p q
  acyclic : ∀ p, ¬ Relation.TransGen (Records s.sleeplcks) p p
  -- the loop of `deadflck` ends
  ends : ∀ u flp, ∃ n r, ∀ m ≥ n, deadflck m s.sleeplcks u flp = some r
  exact : ∀ u flp n r, deadflck n s.sleeplcks u flp = some r →
    (r = true ↔ Relation.ReflTransGen (Records s.sleeplcks) flp.owner u)
  no_cycle : ∀ p, ¬ Relation.TransGen (SleepsOn s) p p

theorem sleepsOn_iff {s : Sys} {p q : Owner} : SleepsOn s p q ↔ Leads (awaits s.proc) p q := by
  unfold SleepsOn Leads
  constructor
  · rintro ⟨c, sf, found, hproc, rfl⟩
    exact awaits_asleep hproc
  · intro h
    unfold awaits at h
    split at h
    · rename_i c sf found heq
      exact ⟨c, sf, found, heq, Option.some.inj h⟩
    · cases h

theorem SleepInv.records_iff {s : Sys} (h : SleepInv s) {p q : Owner} :
    Records s.sleeplcks p q ↔ SleepsOn s p q := by
  constructor
  · rintro ⟨f, hf, rfl, rfl⟩
    obtain ⟨c, found, hproc, hblk⟩ := h.entry f hf
    exact ⟨c, f.addr, found, hproc, hblk.symm⟩
  · rintro ⟨c, sf, found, hproc, rfl⟩
    obtain ⟨f, hf, haddr, howner⟩ := h.asleep p c sf found hproc
    obtain ⟨c', found', hproc', hblk⟩ := h.entry f hf
    rw [howner, hproc] at hproc'
    cases hproc'
    exact ⟨f, hf, howner, hblk⟩

/-- In every state of every run from the start, `sleeplcks` records who sleeps on whose lock,
without a cycle, and `deadflck` comes to an end and tells whether the process is reached. -/
theorem deadlock_free {s0 s : Sys} {as : List Act} (h0 : s0.Init) (h : Run Step s0 as s) :
    DeadlockFree s := by
  have hinv : SleepInv s := by
    apply h.invariant _ (init_inv h0)
    rintro s a t hs ⟨n, hn⟩
    exact exec_inv hs hn
  have hsleeps : SleepsOn s = Leads (awaits s.proc) := by
    funext p q
    exact propext sleepsOn_iff
  have hrecords : Records s.sleeplcks = SleepsOn s := by
    funext p q
    exact propext hinv.records_iff
  refine ⟨fun p q => hinv.records_iff, fun p => ?_, fun u flp => ?_, fun u flp n r hr => ?_,
    fun p => ?_⟩
  · rw [hrecords, hsleeps]
    exact (hinv.ends p).no_cycle
  · obtain ⟨n, r, hr⟩ := (hinv.ends flp.owner).chase (t := u)
    exact ⟨n, r, fun m hm => (deadflck_eq hinv flp).trans (hr m hm)⟩
  · rw [deadflck_eq hinv] at hr
    rw [hrecords, hsleeps]
    exact chase_eq hr
  · rw [hsleeps]
    exact (hinv.ends p).no_cycle

/-- After `flckinit` with three structures, two processes want the same bytes. -/
def twoWriters : Sys :=
  ⟨fun _ => [], fun _ => 0, [], ⟨[8, 16, 24], 0, 0, 0, []⟩, fun _ => .user none⟩

def wants (pid : Int16) (ip : ℕ) : Act :=
  .reclock ⟨pid, 0⟩ ip ⟨.F_WRLCK, 0, 0, 10, 0, 0⟩ ⟨true, true⟩ ⟨false, true⟩ 0

theorem deadlock_free_two : ∃ s, Run Step twoWriters [wants 1 0, wants 2 0] s ∧
    SleepsOn s ⟨2, 0⟩ ⟨1, 0⟩ ∧ DeadlockFree s := by
  have h0 : twoWriters.Init := ⟨fun _ => rfl, by decide, rfl, fun _ => ⟨none, rfl⟩⟩
  obtain ⟨s1, h1⟩ : ∃ s1, exec 1 twoWriters (wants 1 0) = some s1 := ⟨_, rfl⟩
  obtain ⟨s2, h2⟩ : ∃ s2, exec 2 s1 (wants 2 0) = some s2 := by
    cases h1
    exact ⟨_, rfl⟩
  have hrun : Run Step twoWriters [wants 1 0, wants 2 0] s2 :=
    .cons ⟨1, h1⟩ (.single ⟨2, h2⟩)
  refine ⟨s2, hrun, ?_, deadlock_free h0 hrun⟩
  cases h1
  cases h2
  exact ⟨_, _, _, rfl, rfl⟩

end Svr3.Rlock
