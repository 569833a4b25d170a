import Mathlib.Data.List.Nodup
import Svr3.Cmd.CronAt

/-!
# The queues of at jobs

A pending at job has the queue of its file name until its dispatch is delayed. It is then added again as a job
of `jobtype`, the queue of the last name that was read.
-/

namespace Svr3.Crond

open Function List

/-! ## Queues -/

/-- The queue that the name of a job has -/
def queueOf (name : List Char) : Option ℤ := (jobName name).map Prod.snd

/-- Every pending at job has the queue of its name. -/
def Kept (s : Cron) : Prop := ∀ e ∈ pending s, queueOf (s.event e).cmd = some (s.event e).etype

/-- The step keeps the invariant, and the queues if they are kept. -/
structure Keeps (s t : Cron) : Prop where
  inv : AtInv t
  kept : Kept s → Kept t

section keeps

variable {r s t : Cron} {u e : ℕ} {pid : Option ℤ} {name : List Char}

theorem Keeps.refl (h : AtInv s) : Keeps s s := ⟨h, id⟩

theorem Keeps.trans (h : Keeps r s) (h' : Keeps s t) : Keeps r t := ⟨h'.inv, fun hk => h'.kept (h.kept hk)⟩

theorem Carries.keeps (h : AtInv s) (hc : Carries s t) : Keeps s t := by
  refine ⟨h.carry hc, fun hk e he => ?_⟩
  rw [hc.pending_eq] at he
  obtain ⟨_, htype, _, hcmd, _⟩ := hc.event e (h.pending_lt he)
  rw [htype, hcmd]
  exact hk e he

/-- The pending jobs are the same up to their order, and so is all else. -/
theorem Keeps.perm (h : AtInv s) (hperm : (pending t).Perm (pending s)) (hnodup : t.uhead.Nodup)
    (hlt : ∀ u ∈ t.uhead, u < t.brk)
    (howner : ∀ u ∈ t.uhead, ∀ e ∈ (t.usr u).atevents, (s.event e).u = u)
    (hctid : ∀ u, (t.usr u).ctid < t.ecid ∧ ∀ e ∈ pending s, (t.usr u).ctid ≠ (s.event e).eventid)
    (hevent : t.event = s.event) (hbrk : s.brk ≤ t.brk) (hecid : s.ecid ≤ t.ecid)
    (hinit : t.init_time = s.init_time) (hel : t.el = s.el) (hnext : t.next_event = s.next_event) :
    Keeps s t := by
  have hat : isAt t = isAt s := by
    funext e
    rw [isAt, isAt, hevent]
  have hqueued : queued t = queued s := by rw [queued, queued, hel, hnext]
  constructor
  · refine ⟨hnodup, hlt, fun u hu e he => ⟨hevent ▸ howner u hu e he, ?_⟩, fun e he => ?_, ?_, fun u => ?_, ?_,
      fun n hn => ?_, fun n hn => ?_, fun n hn => ?_, fun e he => ?_, Nat.lt_of_lt_of_le h.ecid_pos hecid⟩
    · have hmem : e ∈ pending t := mem_holdings.mpr ⟨u, hu, he⟩
      exact Nat.lt_of_lt_of_le (h.pending_lt (hperm.mem_iff.mp hmem)) hbrk
    · rw [hevent, hat, hinit]
      obtain ⟨hpos, hid, htime⟩ := h.eventid e (hperm.mem_iff.mp he)
      exact ⟨hpos, Nat.lt_of_lt_of_le hid hecid, htime⟩
    · rw [hevent]
      exact (hperm.map _).nodup_iff.mpr h.ids
    · rw [hevent]
      exact ⟨(hctid u).1, fun e he => (hctid u).2 e (hperm.mem_iff.mp he)⟩
    · rw [hqueued, hat]
      exact h.listed.trans (hperm.filter _).symm
    · rw [hel] at hn
      exact ⟨Nat.lt_of_lt_of_le (h.notice n hn).1 hbrk, Nat.lt_of_lt_of_le (h.notice n hn).2 hecid⟩
    · rw [hat, hevent]
      exact h.own n (hel ▸ hn)
    · rw [hat, hevent]
      exact fun hct e he => h.other n (hel ▸ hn) hct e (hperm.mem_iff.mp he)
    · exact Nat.lt_of_lt_of_le (h.next_lt e (hnext ▸ he)) hbrk
  · intro hk e he
    rw [hevent]
    exact hk e (hperm.mem_iff.mp he)

variable (name) in
/-- A new user has no at jobs. -/
theorem Keeps.newUsr (ex : Bool) (h : AtInv s) {ctid ecid : ℕ} (hecid : s.ecid ≤ ecid)
    (hctid : ctid = 0 ∨ s.ecid ≤ ctid) (hlt : ctid < ecid) :
    Keeps s (Crond.newUsr name ctid ex { s with ecid := ecid }) := by
  have hout : s.brk ∉ s.uhead := fun hc => Nat.lt_irrefl _ (h.usr_lt s.brk hc)
  have hat : (fun u => ((update s.usr s.brk ⟨name, ctid, ex, [], []⟩) u).atevents) =
      update (fun u => (s.usr u).atevents) s.brk [] := by
    funext u
    by_cases hu : u = s.brk
    · rw [hu, update_self, update_self]
    · rw [update_of_ne hu, update_of_ne hu]
  have hpend : pending (Crond.newUsr name ctid ex { s with ecid := ecid }) = pending s := by
    change holdings (s.brk :: s.uhead) (fun u => ((update s.usr s.brk ⟨name, ctid, ex, [], []⟩) u).atevents) = _
    rw [hat]
    exact holdings_new hout
  refine Keeps.perm h (hpend ▸ List.Perm.refl _) (nodup_cons.mpr ⟨hout, h.uhead_nodup⟩) (fun u hu => ?_)
    (fun u hu e he => ?_) (fun u => ?_) rfl (Nat.le_succ _) hecid rfl rfl rfl
  · rcases mem_cons.mp hu with rfl | hold
    · exact Nat.lt_succ_self _
    · exact Nat.lt_succ_of_lt (h.usr_lt u hold)
  · change e ∈ ((update s.usr s.brk ⟨name, ctid, ex, [], []⟩) u).atevents at he
    rcases mem_cons.mp hu with rfl | hold
    · rw [update_self] at he
      exact absurd he not_mem_nil
    · rw [update_of_ne (ne_of_mem_of_not_mem hold hout)] at he
      exact (h.owner u hold e he).1
  · change ((update s.usr s.brk ⟨name, ctid, ex, [], []⟩) u).ctid < ecid ∧
      ∀ e ∈ pending s, ((update s.usr s.brk ⟨name, ctid, ex, [], []⟩) u).ctid ≠ _
    by_cases hu : u = s.brk
    · rw [hu, update_self]
      refine ⟨hlt, fun e he => ?_⟩
      obtain ⟨hpos, hid, _⟩ := h.eventid e he
      rcases hctid with hz | hle
      · rw [hz]
        exact Nat.ne_of_lt hpos
      · exact Nat.ne_of_gt (Nat.lt_of_lt_of_le hid hle)
    · rw [update_of_ne hu]
      exact ⟨Nat.lt_of_lt_of_le (h.ctid u).1 hecid, (h.ctid u).2⟩

/-- A user without at jobs goes. -/
theorem Keeps.freeUsr (h : AtInv s) (hnil : (s.usr u).atevents = []) : Keeps s (Crond.freeUsr u s) :=
  Keeps.perm h (holdings_leave hnil) (h.uhead_nodup.erase u) (fun v hv => h.usr_lt v (mem_of_mem_erase hv))
    (fun v hv e he => (h.owner v (mem_of_mem_erase hv) e he).1) h.ctid rfl (Nat.le_refl _) (Nat.le_refl _)
    rfl rfl rfl

theorem Keeps.mod_ctab (h : AtInv s) (c : Ctab) : Keeps s (Crond.mod_ctab c s) := by
  unfold Crond.mod_ctab
  split
  · exact .refl h
  split
  · exact Carries.keeps h (.mail h)
  split
  next =>
    have hnew : Keeps s (Crond.newUsr c.name s.ecid true { s with ecid := s.ecid + 1 }) :=
      Keeps.newUsr _ _ h (Nat.le_succ _) (.inr (Nat.le_refl _)) (Nat.lt_succ_self _)
    exact hnew.trans (Carries.keeps hnew.inv (.readcron hnew.inv _ _ _))
  next u hu =>
    have hexists := Carries.usr (u := u) (v := { s.usr u with ctexists := true }) h (Nat.le_refl _) rfl (.inl rfl)
    have hkeep := Carries.keeps h hexists
    dsimp only
    split
    next hz =>
      have hctid := Carries.usr (u := u) (v := { (update s.usr u { s.usr u with ctexists := true }) u with
        ctid := s.ecid, ctevents := [] }) hkeep.inv (Nat.le_succ _) rfl
        (.inr (.inr ⟨Nat.le_refl _, Nat.lt_succ_self _⟩))
      have hkeep' := hkeep.trans (Carries.keeps hkeep.inv hctid)
      exact hkeep'.trans (Carries.keeps hkeep'.inv (.readcron hkeep'.inv _ _ _))
    next =>
      have hrm := hkeep.trans (Carries.keeps hkeep.inv (.rm_ctevents (u := u) hkeep.inv))
      have hel := hrm.trans (Carries.keeps hrm.inv (.el_remove hrm.inv u))
      have hid : ((rm_ctevents u { s with usr := update s.usr u { s.usr u with ctexists := true } }).usr
          u).ctid = ((update s.usr u { s.usr u with ctexists := true }) u).ctid := by
        unfold rm_ctevents
        dsimp only
        rw [update_self]
      rw [hid] at hel
      exact hel.trans (Carries.keeps hel.inv (.readcron hel.inv _ _ _))

theorem Keeps.del_ctab (h : AtInv s) (name : List Char) : Keeps s (Crond.del_ctab name s) := by
  unfold Crond.del_ctab
  split
  · exact .refl h
  next u hu =>
    have hrm := Carries.keeps h (.rm_ctevents (u := u) h)
    have hel := hrm.trans (Carries.keeps hrm.inv (.el_remove hrm.inv u))
    have hid : ((rm_ctevents u s).usr u).ctid = (s.usr u).ctid := by
      unfold rm_ctevents
      dsimp only
      rw [update_self]
    rw [hid] at hel
    have hctid := Carries.usr (u := u) (v := { (el_remove (s.usr u).ctid false (rm_ctevents u s)).usr u with
      ctid := 0, ctexists := false }) hel.inv (Nat.le_refl _) rfl (.inr (.inl rfl))
    have hkeep := hel.trans (Carries.keeps hel.inv hctid)
    dsimp only
    split
    next hnil => exact hkeep.trans (Keeps.freeUsr hkeep.inv hnil)
    next => exact hkeep

end keeps

/-! ## Adding a job -/

section add

variable {s : Cron} {u : ℕ} {job : List Char} {tim : ℤ}

/-- The event of a new job -/
def atEvent (u : ℕ) (job : List Char) (tim : ℤ) (s : Cron) : Event :=
  ⟨if tim < s.init_time then s.init_time else tim, s.jobtype, job, u, s.ecid⟩

theorem atEvent_time : s.init_time ≤ (atEvent u job tim s).time := by
  unfold atEvent
  dsimp only
  split
  next => exact Int.le_refl _
  next hle => exact Int.not_lt.mp hle

/-- The notice always comes to the list. -/
theorem add_atevent_eq (u : ℕ) (job : List Char) (tim : ℤ) (s : Cron) :
    add_atevent u job tim s = { s with
      brk := s.brk + 1
      ecid := s.ecid + 1
      event := update s.event s.brk (atEvent u job tim s)
      usr := update s.usr u { s.usr u with atevents := s.brk :: (s.usr u).atevents }
      el := insertNotice ⟨s.brk, (atEvent u job tim s).time, s.ecid⟩ s.el } := by
  have hle : ¬(atEvent u job tim s).time < s.init_time := Int.not_lt.mpr atEvent_time
  exact if_neg hle

theorem add_atevent_event {e : ℕ} (he : e < s.brk) : (add_atevent u job tim s).event e = s.event e := by
  rw [add_atevent_eq]
  exact update_of_ne (Nat.ne_of_lt he) _ _

theorem add_atevent_new : (add_atevent u job tim s).event s.brk = atEvent u job tim s := by
  rw [add_atevent_eq]
  exact update_self _ _ _

theorem add_atevent_isAt {e : ℕ} (he : e < s.brk) : isAt (add_atevent u job tim s) e = isAt s e := by
  rw [isAt, add_atevent_event he, isAt]

variable (job tim) in
theorem add_atevent_pending (h : AtInv s) (hu : u ∈ s.uhead) :
    (pending (add_atevent u job tim s)).Perm (s.brk :: pending s) := by
  have hat : (fun v => ((add_atevent u job tim s).usr v).atevents) =
      update (fun v => (s.usr v).atevents) u (s.brk :: (s.usr u).atevents) := by
    rw [add_atevent_eq]
    funext v
    dsimp only
    by_cases hv : v = u
    · rw [hv, update_self, update_self]
    · rw [update_of_ne hv, update_of_ne hv]
  rw [pending, hat, add_atevent_eq]
  exact holdings_add h.uhead_nodup hu

theorem add_atevent_queued :
    (queued (add_atevent u job tim s)).Perm (s.brk :: queued s) := by
  rw [add_atevent_eq]
  exact ((insertNotice_perm _ _).map Notice.event).append_right _

theorem mem_add_atevent {n : Notice} (hn : n ∈ (add_atevent u job tim s).el) :
    n = ⟨s.brk, (atEvent u job tim s).time, s.ecid⟩ ∨ n ∈ s.el := by
  rw [add_atevent_eq] at hn
  exact mem_insertNotice.mp hn

variable (job tim) in
theorem AtInv.add_atevent (h : AtInv s) (hu : u ∈ s.uhead) : AtInv (add_atevent u job tim s) := by
  have hpend := add_atevent_pending job tim h hu
  have hhead : (Crond.add_atevent u job tim s).uhead = s.uhead := by rw [add_atevent_eq]
  have hbrk : (Crond.add_atevent u job tim s).brk = s.brk + 1 := by rw [add_atevent_eq]
  have hecid : (Crond.add_atevent u job tim s).ecid = s.ecid + 1 := by rw [add_atevent_eq]
  have hinit : (Crond.add_atevent u job tim s).init_time = s.init_time := by rw [add_atevent_eq]
  have hnext : (Crond.add_atevent u job tim s).next_event = s.next_event := by rw [add_atevent_eq]
  have hctid (v : ℕ) : ((Crond.add_atevent u job tim s).usr v).ctid = (s.usr v).ctid := by
    rw [add_atevent_eq]
    dsimp only
    by_cases hv : v = u
    · rw [hv, update_self]
    · rw [update_of_ne hv]
  have hid {e : ℕ} (he : e ∈ pending s) : ((Crond.add_atevent u job tim s).event e).eventid =
      (s.event e).eventid := by
    rw [add_atevent_event (h.pending_lt he)]
  have hmem {e : ℕ} : e ∈ pending (Crond.add_atevent u job tim s) ↔ e = s.brk ∨ e ∈ pending s :=
    hpend.mem_iff.trans mem_cons
  constructor
  case uhead_nodup => exact hhead ▸ h.uhead_nodup
  case usr_lt =>
    rw [hhead, hbrk]
    exact fun v hv => Nat.lt_succ_of_lt (h.usr_lt v hv)
  case owner =>
    intro v hv e he
    rw [hhead] at hv
    rw [hbrk]
    have hcase : v = u ∧ e = s.brk ∨ e ∈ (s.usr v).atevents := by
      rw [add_atevent_eq] at he
      dsimp only at he
      by_cases hvu : v = u
      · rw [hvu, update_self] at he
        rcases mem_cons.mp he with rfl | hold
        · exact .inl ⟨hvu, rfl⟩
        · exact .inr (hvu ▸ hold)
      · rw [update_of_ne hvu] at he
        exact .inr he
    rcases hcase with ⟨rfl, rfl⟩ | hold
    · rw [add_atevent_new]
      exact ⟨rfl, Nat.lt_succ_self _⟩
    · obtain ⟨hown, hlt⟩ := h.owner v hv e hold
      rw [add_atevent_event hlt]
      exact ⟨hown, Nat.lt_succ_of_lt hlt⟩
  case eventid =>
    intro e he
    rw [hinit, hecid]
    rcases hmem.mp he with rfl | hold
    · rw [add_atevent_new]
      exact ⟨h.ecid_pos, Nat.lt_succ_self _, fun _ => atEvent_time⟩
    · have hlt := h.pending_lt hold
      rw [add_atevent_event hlt, add_atevent_isAt hlt]
      obtain ⟨hpos, hlt', htime⟩ := h.eventid e hold
      exact ⟨hpos, Nat.lt_succ_of_lt hlt', htime⟩
  case ids =>
    apply (hpend.map _).nodup_iff.mpr
    rw [map_cons, add_atevent_new]
    have hsame : (pending s).map (fun e => ((Crond.add_atevent u job tim s).event e).eventid) =
        (pending s).map fun e => (s.event e).eventid := map_congr_left fun e he => hid he
    rw [hsame, nodup_cons]
    refine ⟨fun hc => ?_, h.ids⟩
    obtain ⟨e, he, heq⟩ := mem_map.mp hc
    exact Nat.ne_of_lt (h.eventid e he).2.1 heq
  case ctid =>
    intro v
    rw [hctid, hecid]
    refine ⟨Nat.lt_succ_of_lt (h.ctid v).1, fun e he => ?_⟩
    rcases hmem.mp he with rfl | hold
    · rw [add_atevent_new]
      exact Nat.ne_of_lt (h.ctid v).1
    · rw [hid hold]
      exact (h.ctid v).2 e hold
  case listed =>
    apply ((add_atevent_queued.filter _).trans _).trans (hpend.filter _).symm
    have hold : ((queued s).filter (isAt (Crond.add_atevent u job tim s))).Perm
        ((pending s).filter (isAt (Crond.add_atevent u job tim s))) := by
      rw [filter_congr fun e he => add_atevent_isAt (h.queued_lt he),
        filter_congr fun e he => add_atevent_isAt (h.pending_lt he)]
      exact h.listed
    rw [filter_cons, filter_cons]
    split
    · exact hold.cons _
    · exact hold
  case notice =>
    intro n hn
    rw [hbrk, hecid]
    rcases mem_add_atevent hn with rfl | hold
    · exact ⟨Nat.lt_succ_self _, Nat.lt_succ_self _⟩
    · exact ⟨Nat.lt_succ_of_lt (h.notice n hold).1, Nat.lt_succ_of_lt (h.notice n hold).2⟩
  case own =>
    intro n hn hat
    rcases mem_add_atevent hn with rfl | hold
    · rw [add_atevent_new]
      rfl
    · have hlt := (h.notice n hold).1
      rw [add_atevent_isAt hlt] at hat
      rw [add_atevent_event hlt]
      exact h.own n hold hat
  case other =>
    intro n hn hct e he hat
    rcases mem_add_atevent hn with rfl | hold <;> rcases hmem.mp he with rfl | hold'
    · exact absurd (hct.symm.trans hat) nofun
    · rw [hid hold']
      exact Nat.ne_of_gt (h.eventid e hold').2.1
    · rw [add_atevent_new]
      exact Nat.ne_of_lt (h.notice n hold).2
    · rw [add_atevent_isAt (h.notice n hold).1] at hct
      rw [add_atevent_isAt (h.pending_lt hold')] at hat
      rw [hid hold']
      exact h.other n hold hct e hold' hat
  case next_lt =>
    intro e he
    rw [hnext] at he
    rw [hbrk]
    exact Nat.lt_succ_of_lt (h.next_lt e he)
  case ecid_pos =>
    rw [hecid]
    exact Nat.succ_pos _

variable (job tim) in
/-- The new job is of the queue `jobtype`. -/
theorem add_atevent_kept (h : AtInv s) (hu : u ∈ s.uhead) :
    Kept (add_atevent u job tim s) ↔ queueOf job = some s.jobtype ∧ Kept s := by
  have hmem {e : ℕ} : e ∈ pending (add_atevent u job tim s) ↔ e = s.brk ∨ e ∈ pending s :=
    (add_atevent_pending job tim h hu).mem_iff.trans mem_cons
  have hnew : queueOf ((add_atevent u job tim s).event s.brk).cmd =
      some ((add_atevent u job tim s).event s.brk).etype ↔ queueOf job = some s.jobtype := by
    rw [add_atevent_new]
    exact Iff.rfl
  constructor
  · intro hk
    refine ⟨hnew.mp (hk s.brk (hmem.mpr (.inl rfl))), fun e he => ?_⟩
    have hold := hk e (hmem.mpr (.inr he))
    rw [add_atevent_event (h.pending_lt he)] at hold
    exact hold
  · intro hk e he
    rcases hmem.mp he with rfl | hold
    · exact hnew.mpr hk.1
    · rw [add_atevent_event (h.pending_lt hold)]
      exact hk.2 e hold

end add

theorem Keeps.mod_atjob (h : AtInv s) (a : Job) : Keeps s (mod_atjob a s) := by
  have hset (q : ℤ) : Carries s { s with jobtype := q } := { Carries.refl h with }
  unfold Crond.mod_atjob
  split
  · exact .refl h
  next tim queue hname =>
    have hqueue : queueOf a.name = some queue := by rw [queueOf, hname, Option.map_some]
    have hkeep := Carries.keeps h (hset queue)
    dsimp only
    split
    · exact hkeep
    split
    · exact hkeep
    split
    · exact hkeep
    next owner howner =>
      split
      next =>
        have hnew := hkeep.trans (Keeps.newUsr owner false hkeep.inv (Nat.le_refl _) (.inl rfl)
          hkeep.inv.ecid_pos)
        exact ⟨hnew.inv.add_atevent _ _ mem_cons_self, fun hk =>
          (add_atevent_kept _ _ hnew.inv mem_cons_self).mpr ⟨hqueue, hnew.kept hk⟩⟩
      next u hfind =>
        split
        · exact hkeep
        · have hu : u ∈ s.uhead := mem_of_find?_eq_some hfind
          exact ⟨hkeep.inv.add_atevent _ _ hu, fun hk =>
            (add_atevent_kept _ _ hkeep.inv hu).mpr ⟨hqueue, hkeep.kept hk⟩⟩

/-! ## Removing a job -/

section remove

variable {s : Cron} {u e : ℕ}

theorem AtInv.pending_nodup (h : AtInv s) : (pending s).Nodup := List.Nodup.of_map _ h.ids

theorem AtInv.queued_nodup (h : AtInv s) : ((queued s).filter (isAt s)).Nodup :=
  h.listed.nodup_iff.mpr (h.pending_nodup.filter _)

theorem AtInv.eventid_inj (h : AtInv s) {x y : ℕ} (hx : x ∈ pending s) (hy : y ∈ pending s)
    (heq : (s.event x).eventid = (s.event y).eventid) : x = y :=
  inj_on_of_nodup_map h.ids hx hy heq

theorem pending_unlinkAt (hnodup : s.uhead.Nodup) (hu : u ∈ s.uhead) (he : e ∈ (s.usr u).atevents) :
    (pending (unlinkAt u e s)).Perm ((pending s).erase e) := by
  have hat : (fun v => ((unlinkAt u e s).usr v).atevents) =
      update (fun v => (s.usr v).atevents) u ((s.usr u).atevents.erase e) := by
    funext v
    unfold unlinkAt
    dsimp only
    by_cases hv : v = u
    · rw [hv, update_self, update_self]
    · rw [update_of_ne hv, update_of_ne hv]
  have hperm := (holdings_erase (fun v => (s.usr v).atevents) hnodup hu he).erase e
  rw [erase_cons_head, ← hat] at hperm
  exact hperm

/-- A job leaves its user when its notice or it as the next event is gone. -/
theorem Keeps.unlinkAt (h : AtInv s) (hu : u ∈ s.uhead) (he : e ∈ (s.usr u).atevents) (l : List Notice)
    (next : Option ℕ) (hl : ∀ n ∈ l, n ∈ s.el) (hnext : ∀ x, next = some x → s.next_event = some x)
    (hgone : (l.map Notice.event ++ next.toList).filter (isAt s) =
      ((queued s).filter (isAt s)).filter (· != e)) :
    Keeps s (unlinkAt u e { s with el := l, next_event := next }) := by
  have hpend : (pending (Crond.unlinkAt u e { s with el := l, next_event := next })).Perm
      ((pending s).erase e) := pending_unlinkAt h.uhead_nodup hu he
  have hmem {x : ℕ} (hx : x ∈ pending (Crond.unlinkAt u e { s with el := l, next_event := next })) :
      x ∈ pending s := mem_of_mem_erase (hpend.mem_iff.mp hx)
  have hctid (v : ℕ) : ((Crond.unlinkAt u e { s with el := l, next_event := next }).usr v).ctid =
      (s.usr v).ctid := by
    unfold Crond.unlinkAt
    dsimp only
    by_cases hv : v = u
    · rw [hv, update_self]
    · rw [update_of_ne hv]
  refine ⟨⟨h.uhead_nodup, h.usr_lt, fun v hv x hx => ?_, fun x hx => h.eventid x (hmem hx), ?_, fun v => ?_, ?_,
    fun n hn => h.notice n (hl n hn), fun n hn => h.own n (hl n hn),
    fun n hn hct x hx => h.other n (hl n hn) hct x (hmem hx), fun x hx => h.next_lt x (hnext x hx),
    h.ecid_pos⟩, fun hk x hx => hk x (hmem hx)⟩
  · apply h.owner v hv x
    unfold Crond.unlinkAt at hx
    dsimp only at hx
    by_cases hvu : v = u
    · rw [hvu, update_self] at hx
      exact hvu ▸ mem_of_mem_erase hx
    · rw [update_of_ne hvu] at hx
      exact hx
  · exact (hpend.map _).nodup_iff.mpr (h.ids.sublist (erase_sublist.map _))
  · rw [hctid]
    exact ⟨(h.ctid v).1, fun x hx => (h.ctid v).2 x (hmem hx)⟩
  · change List.Perm ((l.map Notice.event ++ next.toList).filter (isAt s)) _
    rw [hgone]
    apply (h.listed.filter _).trans (List.Perm.trans _ (hpend.filter _).symm)
    rw [h.pending_nodup.erase_eq_filter, filter_filter]
    change List.Perm _ (((pending s).filter (· != e)).filter (isAt s))
    rw [filter_filter]
    apply List.Perm.of_eq
    apply filter_congr
    exact fun x _ => Bool.and_comm _ _

/-- Of the notices for at jobs, the one with the `id` of the job is removed. -/
theorem filter_erased {p : ℕ → Bool} {id : ℕ} {l : List Notice}
    (hid : ∀ n ∈ l, p n.event = true → (n.id = id ↔ n.event = e))
    (hother : ∀ n ∈ l, p n.event = false → n.id = id → p e = false)
    (hnodup : ((l.map Notice.event).filter p).Nodup) :
    ((l.eraseP (·.id == id)).map Notice.event).filter p = ((l.map Notice.event).filter p).filter (· != e) := by
  have hkeep {xs : List ℕ} (hxs : e ∉ xs.filter p) : (xs.filter p).filter (· != e) = xs.filter p := by
    apply filter_eq_self.mpr
    intro x hx
    exact bne_iff_ne.mpr (ne_of_mem_of_not_mem hx hxs)
  induction l with
  | nil => rfl
  | cons n l ih =>
    rw [map_cons] at hnodup
    by_cases hn : n.id = id
    · have hdrop : (n :: l).eraseP (fun n => n.id == id) = l := by simp [hn]
      rw [hdrop, map_cons]
      cases hp : p n.event with
      | false =>
        have hout : e ∉ (l.map Notice.event).filter p := fun hc =>
          absurd ((hother n mem_cons_self hp hn).symm.trans (mem_filter.mp hc).2) nofun
        rw [filter_cons_of_neg (by rw [hp]; exact nofun), hkeep hout]
      | true =>
        have he := (hid n mem_cons_self hp).mp hn
        rw [filter_cons_of_pos hp] at hnodup ⊢
        have hout : e ∉ (l.map Notice.event).filter p := he ▸ (nodup_cons.mp hnodup).1
        have hself : ¬(n.event != e) = true := by rw [he, bne_self_eq_false]; exact nofun
        rw [filter_cons_of_neg (p := (· != e)) hself, hkeep hout]
    · have hskip : (n :: l).eraseP (fun n => n.id == id) = n :: l.eraseP fun n => n.id == id := by simp [hn]
      have hrest : ((l.map Notice.event).filter p).Nodup :=
        hnodup.sublist ((sublist_cons_self _ _).filter _)
      have htail := ih (fun m hm => hid m (mem_cons_of_mem n hm))
        (fun m hm => hother m (mem_cons_of_mem n hm)) hrest
      rw [hskip, map_cons, map_cons]
      cases hp : p n.event with
      | false =>
        have hneg : ¬p n.event = true := by rw [hp]; exact nofun
        rw [filter_cons_of_neg hneg, filter_cons_of_neg hneg, htail]
      | true =>
        have hne : n.event ≠ e := fun hc => hn ((hid n mem_cons_self hp).mpr hc)
        have hne' : (n.event != e) = true := bne_iff_ne.mpr hne
        rw [filter_cons_of_pos hp, filter_cons_of_pos hp,
          filter_cons_of_pos (p := (· != e)) hne', htail]

/-- A job is deleted with its notice. -/
theorem Keeps.removed (h : AtInv s) (hu : u ∈ s.uhead) (he : e ∈ (s.usr u).atevents) :
    Keeps s (el_remove (s.event e).eventid true
      (Crond.unlinkAt u e { s with next_event := s.next_event.filter fun x => x != e })) := by
  have hpend : e ∈ pending s := mem_holdings.mpr ⟨u, hu, he⟩
  apply Keeps.unlinkAt h hu he (s.el.eraseP (·.id == (s.event e).eventid))
    (s.next_event.filter fun x => x != e)
  · exact fun n hn => mem_of_mem_eraseP hn
  · exact fun x hx => (Option.filter_eq_some_iff.mp hx).1
  · rw [filter_append, queued, filter_append, filter_append]
    congr 1
    · apply filter_erased
      · intro n hn hat
        rw [h.own n hn hat]
        exact ⟨h.eventid_inj (h.mem_pending hn hat) hpend, fun heq => by rw [heq]⟩
      · intro n hn hct hid
        by_contra hat
        exact h.other n hn hct e hpend (Bool.not_eq_false _ ▸ hat) hid
      · have hnodup := h.queued_nodup
        rw [queued, filter_append] at hnodup
        exact (nodup_append.mp hnodup).1
    · cases s.next_event with
      | none => rfl
      | some x =>
        rw [Option.filter_some, Option.toList_some]
        by_cases hx : x = e <;> by_cases hat : isAt s x = true <;> simp_all

theorem Keeps.del_atjob (h : AtInv s) (name usrname : List Char) : Keeps s (del_atjob name usrname s) := by
  unfold Crond.del_atjob
  split
  · exact .refl h
  next u hfind =>
    have hleave : ∀ {t : Cron}, Keeps s t → Keeps s
        (if !(t.usr u).ctexists ∧ (t.usr u).atevents = [] then Crond.freeUsr u t else t) := by
      intro t hkeep
      split
      next hnil => exact hkeep.trans (Keeps.freeUsr hkeep.inv hnil.2)
      next => exact hkeep
    apply hleave
    split
    · exact .refl h
    next e hfound => exact .removed h (mem_of_find?_eq_some hfind) (mem_of_find?_eq_some hfound)

end remove

/-! ## The main loop -/

section loop

variable {s t : Cron} {e : ℕ}

theorem AtInv.next_pending (h : AtInv s) (he : s.next_event = some e) (hat : isAt s e = true) :
    e ∈ pending s := by
  have hq : e ∈ (queued s).filter (isAt s) :=
    mem_filter.mpr ⟨mem_append_right _ (Option.mem_toList.mpr he), hat⟩
  exact (mem_filter.mp (h.listed.mem_iff.mp hq)).1

/-- The next event may be forgotten when it is not an at job. -/
theorem Carries.clear (h : AtInv s) (hct : ∀ e, s.next_event = some e → isAt s e = false) :
    Carries s { s with next_event := none } := by
  refine { Carries.refl h with notes := ?_, next_lt := nofun }
  have hnone : s.next_event.toList.filter (isAt s) = [] := by
    apply filter_eq_nil_iff.mpr
    intro e he hat
    exact absurd ((hct e (Option.mem_toList.mp he)).symm.trans hat) nofun
  change List.Perm ((s.el.map Notice.event ++ []).filter (isAt s)) _
  rw [queued, filter_append, filter_append, hnone]
  exact List.Perm.refl _

theorem isAt_false_iff : isAt s e = false ↔ (s.event e).etype = CRONEVENT := by
  rw [isAt, bne_eq_false_iff_eq]

theorem isAt_iff : isAt s e = true ↔ (s.event e).etype ≠ CRONEVENT := by rw [isAt, bne_iff_ne]

/-- The notice for an event of a crontab comes to the list again. -/
theorem Carries.readd (h : AtInv s) (hlt : e < s.brk) (hct : (s.event e).etype = CRONEVENT) :
    Carries s (readd e s) := by
  rw [Crond.readd, if_pos hct]
  exact .el_add h _ _ hlt (isAt_false_iff.mpr hct)

/-- The next event is no longer held, but on the list. -/
theorem Carries.putBack (h : AtInv s) (he : s.next_event = some e) :
    Carries s { Crond.readd e s with next_event := none } := by
  by_cases hct : (s.event e).etype = CRONEVENT
  · have hadd := Carries.readd h (h.next_lt e he) hct
    have hnext : (Crond.readd e s).next_event = s.next_event := by
      rw [Crond.readd, if_pos hct]
      obtain ⟨l, hl, _⟩ := el_add_eq e (s.event e).time (s.usr (s.event e).u).ctid s
      rw [hl]
    apply hadd.trans h (Carries.clear (h.carry hadd) _)
    intro x hx
    rw [hnext, he] at hx
    obtain rfl := Option.some.inj hx
    rw [hadd.isAt_eq (h.next_lt _ he)]
    exact isAt_false_iff.mpr hct
  · have hat : isAt s e = true := isAt_iff.mpr hct
    have hpend := h.next_pending he hat
    have hlt := h.next_lt e he
    obtain ⟨_, hid, htime⟩ := h.eventid e hpend
    rw [Crond.readd, if_neg hct, Crond.el_add, if_neg (Int.not_lt.mpr (htime hat))]
    have hnotice : (⟨e, (s.event e).time, (s.event e).eventid⟩ : Notice).event = e := rfl
    refine { Carries.refl h with notes := ?_, notice := ?_, own := ?_, other := ?_, next_lt := nofun }
    · change List.Perm (((insertNotice ⟨e, (s.event e).time, (s.event e).eventid⟩ s.el).map Notice.event ++
        []).filter (isAt s)) _
      have hperm := (insertNotice_perm ⟨e, (s.event e).time, (s.event e).eventid⟩ s.el).map Notice.event
      rw [append_nil, queued, he]
      apply (hperm.trans _).filter
      exact (perm_append_singleton e _).symm
    · intro n hn
      rcases mem_insertNotice.mp hn with rfl | hold
      · exact ⟨hlt, hid⟩
      · exact h.notice n hold
    · intro n hn _
      rcases mem_insertNotice.mp hn with rfl | hold
      · exact .inr rfl
      · exact .inl hold
    · intro n hn hct'
      rcases mem_insertNotice.mp hn with rfl | hold
      · exact absurd (hat.symm.trans hct') nofun
      · exact .inl hold

/-- Nothing that the event list is about changes. -/
theorem Carries.run (h : AtInv s) {rt : ℕ → Runinfo} {nrun : ℤ → ℤ} {running : ℤ} {children : List ℤ}
    {idle : Bool} : Carries s { s with
      rt := rt, nrun := nrun, running := running, children := children, idle := idle } :=
  { Carries.refl h with }

theorem Carries.waited (h : AtInv s) (pid : ℤ) (o : Output) : Carries s (waited pid o s) := by
  unfold Crond.waited
  dsimp only
  split
  · exact .run h
  next i hi =>
    split
    · exact .run h
    · unfold cleanup
      dsimp only
      cases o with
      | quiet => exact .run h
      | closed pid =>
        cases pid with
        | none => exact .run h
        | some pid => exact .run h
      | mailed pid => exact .run h

theorem Keeps.handle (h : AtInv s) (m : Message) : Keeps s (handle m s) := by
  cases m with
  | addAt a => exact .mod_atjob h a
  | delAt fname logname => exact .del_atjob h fname logname
  | addCron c => exact .mod_ctab h c
  | delCron fname => exact .del_ctab h fname
  | other => exact .refl h

theorem Keeps.message (h : AtInv s) (m : Message) : Keeps s (message m s) := by
  have hm := Keeps.handle h m
  unfold Crond.message
  dsimp only
  split
  · exact hm.trans (Carries.keeps hm.inv (.run hm.inv))
  next e he =>
    have hback := hm.trans (Carries.keeps hm.inv (.putBack hm.inv he))
    exact hback.trans (Carries.keeps hback.inv (.run hback.inv))

/-- The first event of the list is held as the next one. -/
theorem Carries.pick (h : AtInv s) : Carries s (pick s) := by
  unfold Crond.pick
  split
  next n l hnext hel =>
    have hmem {m : Notice} (hm : m ∈ l) : m ∈ s.el := hel ▸ mem_cons_of_mem n hm
    refine { Carries.refl h with
      notes := ?_, notice := fun m hm => h.notice m (hmem hm), own := fun m hm _ => .inl (hmem hm)
      other := fun m hm _ => .inl (hmem hm), next_lt := ?_ }
    · change List.Perm ((l.map Notice.event ++ [n.event]).filter (isAt s)) _
      rw [queued, hel, hnext]
      apply List.Perm.filter
      rw [map_cons, Option.toList_none, append_nil]
      exact perm_append_singleton _ _
    · intro e he
      obtain rfl := Option.some.inj he
      exact (h.notice n (hel ▸ mem_cons_self)).1
  next => exact .run h

theorem Keeps.foldl {α : Type} {f : Cron → α → Cron} (hf : ∀ {s : Cron}, AtInv s → ∀ a, Keeps s (f s a))
    (h : AtInv s) (l : List α) : Keeps s (l.foldl f s) := by
  induction l generalizing s with
  | nil => exact .refl h
  | cons a l ih => exact (hf h a).trans (ih (hf h a).inv)

/-- No user and no event is left. -/
theorem Keeps.forget (h : AtInv s) (now : ℤ) :
    Keeps s { s with init_time := now, el := [], uhead := [], next_event := none } where
  inv := {
    uhead_nodup := nodup_nil
    usr_lt := nofun
    owner := nofun
    eventid := nofun
    ids := nodup_nil
    ctid := fun u => ⟨(h.ctid u).1, nofun⟩
    listed := List.Perm.refl _
    notice := nofun
    own := nofun
    other := nofun
    next_lt := nofun
    ecid_pos := h.ecid_pos }
  kept := fun _ => nofun

theorem Keeps.initialized (h : AtInv s) (d : Dirs) : Keeps s (initialize_ d s) := by
  have hempty := Keeps.forget h d.now
  have hctabs := hempty.trans (.foldl (fun h c => .mod_ctab h c) hempty.inv d.ctabs)
  exact hctabs.trans (.foldl (fun h a => .mod_atjob h a) hctabs.inv d.jobs)

theorem AtInv.empty : AtInv empty where
  uhead_nodup := nodup_nil
  usr_lt := nofun
  owner := nofun
  eventid := nofun
  ids := nodup_nil
  ctid := fun _ => ⟨Nat.zero_lt_one, nofun⟩
  listed := List.Perm.refl _
  notice := nofun
  own := nofun
  other := nofun
  next_lt := nofun
  ecid_pos := Nat.zero_lt_one

theorem start_keeps (d : Dirs) : Keeps Crond.empty (start d) := .initialized .empty d

end loop

end Svr3.Crond
