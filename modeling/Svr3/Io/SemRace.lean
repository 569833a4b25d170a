import Svr3.Io.SemCtl

/-!
# `semop` and the memory of its caller

The operations are looked at once, when `semop` is called. After a sleep they are copied in again
and carried out as they are then.
-/

namespace Svr3.Ipc

open List

/-- The operations that the loop of `semop` applies, and the one that it sleeps on. -/
def touchedOps (info : Seminfo) (p : ℕ) (id : ℤ) : List Sembuf → Sys → List Sembuf
  | [], _ => []
  | op :: ops, s =>
    match doOp info p id op s with
    | (.cont, s) => op :: touchedOps info p id ops s
    | (.err _, _) => []
    | (.wait _, _) => if op.nowait then [] else [op]

/-- The operations that `semop` applies or sleeps on from where control comes to it. -/
def touched (info : Seminfo) (env : Env) (uap : Args) (s : Sys) : Entry → List Sembuf
  | .call =>
    match semconv info env uap.semid with
    | none => []
    | some sp =>
      if info.semopm < uap.sops.length then []
      else if !uap.readable then []
      else
        match verify env sp uap.sops with
        | some _ => []
        | none => touchedOps info env.p uap.semid uap.sops s
  | .wakeup =>
    match semconv info env uap.semid with
    | none => []
    | some _ => if !uap.readable then [] else touchedOps info env.p uap.semid uap.sops s
  | .signal _ => []

/-- The access that an operation needs. -/
def Sembuf.kind (op : Sembuf) : UInt16 := if op.sem_op ≠ 0 then 0o200 else 0o400

section Touched

variable {info : Seminfo} {env : Env} {uap : Args} {s : Sys} {op : Sembuf}

theorem touchedOps_subset {p : ℕ} {id : ℤ} {ops : List Sembuf} (h : op ∈ touchedOps info p id ops s) :
    op ∈ ops := by
  induction ops generalizing s with
  | nil => exact h
  | cons o ops ih =>
    unfold touchedOps at h
    split at h
    · rcases mem_cons.mp h with rfl | h
      · exact mem_cons_self
      · exact mem_cons_of_mem _ (ih h)
    · exact absurd h not_mem_nil
    · split at h
      · exact absurd h not_mem_nil
      · rw [mem_singleton.mp h]
        exact mem_cons_self

/-- What the first look at the operations makes sure of. -/
theorem verify_ok {sp : SemidDs} {ops : List Sembuf} (h : verify env sp ops = none) (hop : op ∈ ops) :
    op.sem_num < sp.sem_nsems ∧ ipcaccess env sp.sem_perm op.kind = true := by
  induction ops with
  | nil => exact absurd hop not_mem_nil
  | cons o ops ih =>
    have hv : verify env sp (o :: ops) =
        if !ipcaccess env sp.sem_perm o.kind then some .EACCES
        else if sp.sem_nsems ≤ o.sem_num then some .EFBIG
        else verify env sp ops := rfl
    rw [hv] at h
    by_cases hacc : ipcaccess env sp.sem_perm o.kind = true
    · rw [hacc] at h
      by_cases hnum : sp.sem_nsems ≤ o.sem_num
      · rw [if_pos hnum] at h
        exact absurd h nofun
      · rw [if_neg hnum] at h
        rcases mem_cons.mp hop with rfl | hop
        · exact ⟨UInt16.not_le.mp hnum, hacc⟩
        · exact ih h hop
    · rw [if_pos (by simpa using hacc)] at h
      exact absurd h nofun

theorem touched_call (h : op ∈ touched info env uap s .call) : ∃ sp,
    semconv info env uap.semid = some sp ∧ verify env sp uap.sops = none ∧ op ∈ uap.sops := by
  unfold touched at h
  simp only at h
  split at h
  · exact absurd h not_mem_nil
  · rename_i sp hsp
    split at h
    · exact absurd h not_mem_nil
    · split at h
      · exact absurd h not_mem_nil
      · split at h
        · exact absurd h not_mem_nil
        · rename_i hv
          exact ⟨sp, hsp, hv, touchedOps_subset h⟩

theorem touched_wakeup (h : op ∈ touched info env uap s .wakeup) : ∃ sp,
    semconv info env uap.semid = some sp ∧ op ∈ uap.sops := by
  unfold touched at h
  simp only at h
  split at h
  · exact absurd h not_mem_nil
  · rename_i sp hsp
    split at h
    · exact absurd h not_mem_nil
    · exact ⟨sp, hsp, touchedOps_subset h⟩

/-- Only operations that were looked at lead to a first sleep. -/
theorem semop_call_sleep {c : Chan} (h : (semop info env uap s .call).1 = .sleep c) :
    ∃ sp, semconv info env uap.semid = some sp ∧ verify env sp uap.sops = none := by
  unfold semop at h
  simp only at h
  split at h
  · exact absurd h nofun
  · rename_i sp hsp
    split at h
    · exact absurd h nofun
    · split at h
      · exact absurd h nofun
      · split at h
        · exact absurd h nofun
        · rename_i hv
          exact ⟨sp, hsp, hv⟩

end Touched

/-! ## Runs -/

section Runs

variable {conf : Semconf} {s t : State} {as : List Act} {p : ℕ}

/-- In the run `as` from `s`, process `p` last called `semop` in state `u`. -/
def Called (conf : Semconf) (s : State) (as : List Act) (p : ℕ) (u : State) (c : Cred) (uap : Args) :
    Prop :=
  ∃ xs ys, as = xs ++ .semop c uap .call :: ys ∧ Run (Kstep conf) s xs u ∧ c.p = p ∧
    ∀ c' uap', Act.semop c' uap' .call ∈ ys → c'.p ≠ p

theorem Called.snoc {u : State} {c : Cred} {uap : Args} (h : Called conf s as p u c uap) {b : Act}
    (hb : ∀ c' uap', b = .semop c' uap' .call → c'.p ≠ p) :
    Called conf s (as ++ [b]) p u c uap := by
  obtain ⟨xs, ys, rfl, h1, h2, h3⟩ := h
  refine ⟨xs, ys ++ [b], ?_, h1, h2, fun c' uap' hmem => ?_⟩
  · rw [append_assoc, cons_append]
  · rcases mem_append.mp hmem with hmem | hmem
    · exact h3 c' uap' hmem
    · exact hb c' uap' (mem_singleton.mp hmem).symm

/-- The operations with which the process called last were looked at and let through. -/
def CheckedIn (conf : Semconf) (s : State) (as : List Act) (p : ℕ) (a : Asleep) : Prop :=
  ∃ u c uap sp, Called conf s as p u c uap ∧ uap.semid = a.semid ∧ uap.sops = a.verified ∧
    u.k.conv conf uap.semid = some sp ∧ verify (u.k.env c) sp uap.sops = none

theorem CheckedIn.snoc {a b : Asleep} (h : CheckedIn conf s as p a) {d : Act}
    (hd : ∀ c' uap', d = .semop c' uap' .call → c'.p ≠ p) (hid : b.semid = a.semid)
    (hv : b.verified = a.verified) : CheckedIn conf s (as ++ [d]) p b := by
  obtain ⟨u, c, uap, sp, h1, h2, h3, h4⟩ := h
  exact ⟨u, c, uap, sp, h1.snoc hd, h2.trans hid.symm, h3.trans hv.symm, h4⟩

theorem next_proc_other {a : Act} (h : ∀ c uap entry, a = .semop c uap entry → c.p ≠ p) :
    (next conf s a).proc p = s.proc p := by
  cases a with
  | semop c uap entry => exact Function.update_of_ne (Ne.symm (h c uap entry rfl)) _ _
  | rmid c semid => rfl
  | set c semid ds => rfl
  | setval c semid semnum arg => rfl
  | setall c semid semvals => rfl
  | semget i perm nsems base => rfl
  | exit q => rfl

/-- Where a call of `semop` can lead that leaves its process asleep. -/
theorem ksemop_asleep {c : Cred} {uap : Args} {entry : Entry} {a : Asleep}
    (hcan : Can conf s (.semop c uap entry))
    (ha : (next conf s (.semop c uap entry)).proc c.p = some a) :
    (entry = .call ∧ a.semid = uap.semid ∧ a.verified = uap.sops ∧
      ∃ sp, s.k.conv conf uap.semid = some sp ∧ verify (s.k.env c) sp uap.sops = none) ∨
    entry = .wakeup ∧ ∃ b, s.proc c.p = some b ∧ a.semid = b.semid ∧ a.verified = b.verified := by
  have hself : (next conf s (.semop c uap entry)).proc c.p = _ := Function.update_self _ _ _
  rw [hself] at ha
  cases entry with
  | call =>
    have hproc : s.proc c.p = none := hcan
    rw [hproc] at ha
    simp only at ha
    split at ha
    · rename_i chan hr
      obtain rfl := Option.some.inj ha
      obtain ⟨sp, hsp, hv⟩ := semop_call_sleep hr
      exact .inl ⟨rfl, rfl, rfl, sp, hsp, hv⟩
    · exact absurd ha nofun
  | wakeup =>
    obtain ⟨b, hproc, hid, -⟩ := hcan
    rw [hproc] at ha
    simp only at ha
    split at ha
    · obtain rfl := Option.some.inj ha
      exact .inr ⟨rfl, b, hproc, hid.symm, rfl⟩
    · exact absurd ha nofun
  | signal chan => exact absurd ha nofun

/-- Whoever is asleep in `semop` had its operations looked at when it called. -/
theorem asleep_checked (hs : ∀ p, s.proc p = none) (hr : Run (Kstep conf) s as t) {a : Asleep}
    (ha : t.proc p = some a) : CheckedIn conf s as p a := by
  have hall : Run (Kstep conf) s as t ∧ ∀ p a, t.proc p = some a → CheckedIn conf s as p a := by
    refine hr.history (I := fun bs u => Run (Kstep conf) s bs u ∧
      ∀ p a, u.proc p = some a → CheckedIn conf s bs p a) (b := []) ?_ ⟨.nil s, fun p a ha => ?_⟩
    · rintro bs u b v ⟨hru, hu⟩ hstep
      refine ⟨hru.snoc hstep, fun p a ha => ?_⟩
      obtain ⟨hcan, rfl⟩ := hstep
      by_cases hmine : ∀ c uap entry, b = .semop c uap entry → c.p ≠ p
      · rw [next_proc_other hmine] at ha
        exact (hu p a ha).snoc (fun c' uap' hb => hmine c' uap' .call hb) rfl rfl
      · simp only [not_forall, not_not] at hmine
        obtain ⟨c, uap, entry, rfl, rfl⟩ := hmine
        rcases ksemop_asleep hcan ha with ⟨rfl, hid, hv, sp, hsp, hver⟩ |
          ⟨rfl, a', ha', hid, hv⟩
        · exact ⟨u, c, uap, sp, ⟨bs, [], rfl, hru, rfl, nofun⟩, hid.symm, hv.symm, hsp, hver⟩
        · exact (hu c.p a' ha').snoc nofun hid hv
    · rw [hs p] at ha
      exact absurd ha nofun
  exact hall.2 p a ha

/-- Each operation that is copied in after a sleep has a semaphore of the set, and is of a kind for
which access was granted in the beginning. -/
def Unharmed (conf : Semconf) (s : State) : Act → Prop
  | .semop c uap .wakeup => ∀ a, s.proc c.p = some a → ∀ op ∈ uap.sops,
      (∀ sp, s.k.conv conf uap.semid = some sp → op.sem_num < sp.sem_nsems) ∧
        ∃ o ∈ a.verified, o.kind = op.kind
  | _ => True

def Ustep (conf : Semconf) (s : State) (a : Act) (t : State) : Prop :=
  Kstep conf s a t ∧ Unharmed conf s a

/-- The operations that a step of a run applies or sleeps on: they are on semaphores of the set, and
access of their kind was granted when the process called. -/
def StaysInside (conf : Semconf) (s : State) (as : List Act) (t : State) : Act → Prop
  | .semop c uap entry =>
    ∀ op ∈ touched conf.toSeminfo (t.k.env c) uap
        (t.k.view (slot conf uap.semid) (t.k.sem_base (slot conf uap.semid))) entry,
      (∃ sp, t.k.conv conf uap.semid = some sp ∧ op.sem_num < sp.sem_nsems) ∧
      ∃ u c₀ uap₀ sp₀, Called conf s (as ++ [.semop c uap entry]) c.p u c₀ uap₀ ∧
        uap₀.semid = uap.semid ∧ u.k.conv conf uap.semid = some sp₀ ∧
        ipcaccess (u.k.env c₀) sp₀.sem_perm op.kind = true
  | _ => True

/-- While every list that is copied in after a sleep is unharmed, no `semop` of any run leaves its
set or does what it was not let through for. -/
theorem semop_stays_inside (hs : ∀ p, s.proc p = none) (hr : Run (Ustep conf) s as t) {b : Act}
    (hcan : Can conf t b) (hb : Unharmed conf t b) : StaysInside conf s as t b := by
  have hrun : Run (Kstep conf) s as t := hr.mono fun _ _ _ h => h.1
  cases b with
  | semop c uap entry =>
    intro op hop
    cases entry with
    | call =>
      obtain ⟨sp, hsp, hv, hmem⟩ := touched_call hop
      obtain ⟨hnum, hacc⟩ := verify_ok hv hmem
      exact ⟨⟨sp, hsp, hnum⟩, t, c, uap, sp, ⟨as, [], rfl, hrun, rfl, nofun⟩, rfl, hsp, hacc⟩
    | wakeup =>
      obtain ⟨sp, hsp, hmem⟩ := touched_wakeup hop
      obtain ⟨a, ha, hid, -⟩ := hcan
      obtain ⟨hnum, o, ho, hkind⟩ := hb a ha op hmem
      obtain ⟨u, c₀, uap₀, sp₀, hcalled, hid₀, hsops, hsp₀, hv⟩ := asleep_checked hs hrun ha
      obtain ⟨-, hacc⟩ := verify_ok hv (hsops ▸ ho)
      have hsemid : uap₀.semid = uap.semid := hid₀.trans hid
      refine ⟨⟨sp, hsp, hnum sp hsp⟩, u, c₀, uap₀, sp₀, hcalled.snoc nofun, hsemid, hsemid ▸ hsp₀, ?_⟩
      rw [← hkind]
      exact hacc
    | signal chan => exact absurd hop not_mem_nil
  | rmid c semid => exact True.intro
  | set c semid ds => exact True.intro
  | setval c semid semnum arg => exact True.intro
  | setall c semid semvals => exact True.intro
  | semget i perm nsems base => exact True.intro
  | exit p => exact True.intro

end Runs

/-! ## Memory that changes -/

/-- The super user, as process 1. -/
def root : Cred := ⟨0, 0, 1, 7, 100⟩

/-- A set of one semaphore, and a process that waits for it. -/
def waiting : List Act :=
  [.semget 0 ⟨0, 0, 0, 0, 0o100600, 0⟩ 1 (some 0), .semop root ⟨0, [⟨0, -1, 0⟩], true⟩ .call]

/-- The process sleeps, and does again or not what `sops` points to by then. -/
theorem waiting_run : ∃ t, Run (Ustep semconf) (seminit 30) waiting t ∧
    t.proc 1 = some ⟨0, 0, .semncnt 0, [⟨0, -1, 0⟩]⟩ ∧
    t.k.conv semconf 0 = some ⟨⟨0, 0, 0, 0, 0o100600, 0⟩, 1⟩ ∧ t.k.sem_base 0 = 0 ∧
    (∀ op ∈ [(⟨0, -1, 0⟩ : Sembuf), ⟨5, 1, 0⟩], touched semconf.toSeminfo (t.k.env root)
      ⟨0, [op], true⟩ (t.k.view 0 0) .wakeup = [op]) := by
  have hfree (j : ℕ) : ¬ (seminit 30).k.Alloc j := by
    show ¬ ((0 : UInt16) &&& 0o100000 ≠ 0)
    decide
  refine ⟨_, .cons ⟨⟨⟨by decide, hfree 0, by decide, rfl, fun b _ j _ hj => absurd hj (hfree j)⟩, rfl⟩,
    True.intro⟩ (.cons ⟨⟨rfl, rfl⟩, True.intro⟩ (.nil _)), rfl, rfl, rfl, ?_⟩
  intro op hop
  rcases mem_cons.mp hop with rfl | hop
  · rfl
  · rw [mem_singleton.mp hop]
    rfl

theorem semop_stays_inside_one : ∃ t, Run (Ustep semconf) (seminit 30) waiting t ∧
    StaysInside semconf (seminit 30) waiting t (.semop root ⟨0, [⟨0, -1, 0⟩], true⟩ .wakeup) := by
  obtain ⟨t, hr, hproc, hconv, -⟩ := waiting_run
  refine ⟨t, hr, semop_stays_inside (fun _ => rfl) hr ⟨_, hproc, rfl, rfl⟩ ?_⟩
  intro a ha op hop
  obtain rfl := Option.some.inj (hproc.symm.trans ha)
  rw [mem_singleton.mp hop]
  refine ⟨fun sp hsp => ?_, _, mem_cons_self, rfl⟩
  obtain rfl := Option.some.inj (hconv.symm.trans hsp)
  decide

/-- Another operation is there after the sleep, on the sixth semaphore of a set of one. -/
theorem semop_leaves_set : ∃ t, Run (Ustep semconf) (seminit 30) waiting t ∧
    Can semconf t (.semop root ⟨0, [⟨5, 1, 0⟩], true⟩ .wakeup) ∧
    ¬ StaysInside semconf (seminit 30) waiting t (.semop root ⟨0, [⟨5, 1, 0⟩], true⟩ .wakeup) := by
  obtain ⟨t, hr, hproc, hconv, hbase, htouched⟩ := waiting_run
  refine ⟨t, hr, ⟨_, hproc, rfl, rfl⟩, fun hin => ?_⟩
  have hmem : (⟨5, 1, 0⟩ : Sembuf) ∈ touched semconf.toSeminfo (t.k.env root) ⟨0, [⟨5, 1, 0⟩], true⟩
      (t.k.view 0 (t.k.sem_base 0)) .wakeup := by
    rw [hbase, htouched _ (mem_cons_of_mem _ mem_cons_self)]
    exact mem_cons_self
  obtain ⟨⟨sp, hsp, hnum⟩, -⟩ := hin _ hmem
  obtain rfl := Option.some.inj (hconv.symm.trans hsp)
  exact absurd hnum (by decide)

end Svr3.Ipc
