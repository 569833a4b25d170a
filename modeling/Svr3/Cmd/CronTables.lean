import Svr3.Cmd.CronQueueRun

/-!
# The tables of cron

The events of crontabs are on the event list once, or next, under the `ctid` of their users. Together with the
at jobs, the running jobs and the count of children this is an invariant, as long as at jobs do not have the
queue of crontabs, users stay while their jobs run, and no mail is lost.
-/

namespace Svr3.Crond

open Function List

/-- An entry of `rt` with a job, and not a mailer, that runs -/
def Live (r : Runinfo) : Prop := r.pid ≠ 0 ∧ r.que ≠ ZOMB

/-- The events of all crontabs -/
def crontab (s : Cron) : List ℕ := holdings s.uhead fun u => (s.usr u).ctevents

/-- Those on the event list, and the next one -/
def ctQueued (s : Cron) : List ℕ := (queued s).filter fun e => !isAt s e

structure Tables (s : Cron) : Prop where
  at_jobs : AtInv s
  at_events : ∀ e ∈ pending s, isAt s e = true
  owner : ∀ u ∈ s.uhead, ∀ e ∈ (s.usr u).ctevents, (s.event e).u = u ∧ isAt s e = false ∧ e < s.brk ∧
    s.init_time ≤ (s.event e).time
  nodup : (crontab s).Nodup
  listed : (ctQueued s).Perm (crontab s)
  notice : ∀ n ∈ s.el, isAt s n.event = false → n.id = (s.usr (s.event n.event).u).ctid
  no_ctab : ∀ u ∈ s.uhead, (s.usr u).ctid = 0 ∨ (s.usr u).ctexists = false → (s.usr u).ctevents = []
  ctid_inj : ∀ u ∈ s.uhead, ∀ v ∈ s.uhead, (s.usr u).ctid = (s.usr v).ctid → (s.usr u).ctid ≠ 0 → u = v
  live : ∀ i, Live (s.rt i) → (s.rt i).rusr ∈ s.uhead
  running : s.running = s.children.length

/-! ## Steps that leave the crontabs as they are -/

section rests

variable {s t : Cron}

/-- The crontabs and their users are the same, and so are the notices for them. -/
structure Rests (s t : Cron) : Prop where
  uhead : t.uhead = s.uhead
  usr : ∀ u ∈ s.uhead, (t.usr u).ctevents = (s.usr u).ctevents ∧ (t.usr u).ctid = (s.usr u).ctid ∧
    (t.usr u).ctexists = (s.usr u).ctexists
  event : ∀ e < s.brk, (t.event e).u = (s.event e).u ∧ (t.event e).etype = (s.event e).etype
  time : ∀ e ∈ crontab s, t.init_time ≤ (t.event e).time
  brk : s.brk ≤ t.brk
  at_events : ∀ e ∈ pending t, isAt t e = true
  listed : (ctQueued t).Perm (ctQueued s)
  notice : ∀ n ∈ t.el, isAt t n.event = false → n ∈ s.el ∨ n.id = (t.usr (t.event n.event).u).ctid
  live : ∀ i, Live (t.rt i) → (t.rt i).rusr ∈ s.uhead
  running : t.running = t.children.length

theorem Tables.crontab_lt (h : Tables s) {e : ℕ} (he : e ∈ crontab s) : e < s.brk := by
  obtain ⟨u, hu, hmem⟩ := mem_holdings.mp he
  exact (h.owner u hu e hmem).2.2.1

theorem Tables.crontab_isAt (h : Tables s) {e : ℕ} (he : e ∈ crontab s) : isAt s e = false := by
  obtain ⟨u, hu, hmem⟩ := mem_holdings.mp he
  exact (h.owner u hu e hmem).2.1

theorem Tables.crontab_time (h : Tables s) {e : ℕ} (he : e ∈ crontab s) : s.init_time ≤ (s.event e).time := by
  obtain ⟨u, hu, hmem⟩ := mem_holdings.mp he
  exact (h.owner u hu e hmem).2.2.2

/-- The user of an event of a crontab -/
theorem Tables.crontab_usr (h : Tables s) {e : ℕ} (he : e ∈ crontab s) :
    (s.event e).u ∈ s.uhead ∧ e ∈ (s.usr (s.event e).u).ctevents := by
  obtain ⟨u, hu, hmem⟩ := mem_holdings.mp he
  rw [(h.owner u hu e hmem).1]
  exact ⟨hu, hmem⟩

theorem Tables.mem_crontab (h : Tables s) {e : ℕ} (he : e ∈ queued s) (hct : isAt s e = false) :
    e ∈ crontab s := by
  apply h.listed.mem_iff.mp
  apply mem_filter.mpr
  rw [hct]
  exact ⟨he, rfl⟩

theorem mem_queued {n : Notice} (hn : n ∈ s.el) : n.event ∈ queued s :=
  mem_append_left _ (mem_map_of_mem hn)

theorem next_queued {e : ℕ} (he : s.next_event = some e) : e ∈ queued s :=
  mem_append_right _ (Option.mem_toList.mpr he)

theorem Rests.refl (h : Tables s) : Rests s s where
  uhead := rfl
  usr _ _ := ⟨rfl, rfl, rfl⟩
  event _ _ := ⟨rfl, rfl⟩
  time _ he := h.crontab_time he
  brk := Nat.le_refl _
  at_events := h.at_events
  listed := List.Perm.refl _
  notice _ hn _ := .inl hn
  live := h.live
  running := h.running

theorem Rests.crontab_eq (hr : Rests s t) : crontab t = crontab s := by
  rw [crontab, hr.uhead]
  apply flatMap_congr
  exact fun u hu => (hr.usr u hu).1

theorem Tables.rest (h : Tables s) (hinv : AtInv t) (hr : Rests s t) : Tables t := by
  have hcron := hr.crontab_eq
  have hat {e : ℕ} (he : e < s.brk) : isAt t e = isAt s e := by rw [isAt, (hr.event e he).2, isAt]
  constructor
  case at_jobs => exact hinv
  case at_events => exact hr.at_events
  case owner =>
    intro u hu e he
    rw [hr.uhead] at hu
    rw [(hr.usr u hu).1] at he
    have hmem : e ∈ crontab s := mem_holdings.mpr ⟨u, hu, he⟩
    have hlt := h.crontab_lt hmem
    rw [(hr.event e hlt).1, hat hlt]
    exact ⟨(h.owner u hu e he).1, h.crontab_isAt hmem, Nat.lt_of_lt_of_le hlt hr.brk, hr.time e hmem⟩
  case nodup => exact hcron ▸ h.nodup
  case listed =>
    rw [hcron]
    exact hr.listed.trans h.listed
  case notice =>
    intro n hn hct
    rcases hr.notice n hn hct with hold | hnew
    · have hlt := (h.at_jobs.notice n hold).1
      rw [hat hlt] at hct
      have hmem := h.mem_crontab (mem_queued hold) hct
      rw [(hr.event n.event hlt).1, (hr.usr _ (h.crontab_usr hmem).1).2.1]
      exact h.notice n hold hct
    · exact hnew
  case no_ctab =>
    intro u hu hno
    rw [hr.uhead] at hu
    obtain ⟨hev, hid, hex⟩ := hr.usr u hu
    rw [hid, hex] at hno
    rw [hev]
    exact h.no_ctab u hu hno
  case ctid_inj =>
    intro u hu v hv heq hne
    rw [hr.uhead] at hu hv
    rw [(hr.usr u hu).2.1] at heq hne
    rw [(hr.usr v hv).2.1] at heq
    exact h.ctid_inj u hu v hv heq hne
  case live =>
    rw [hr.uhead]
    exact hr.live
  case running => exact hr.running

/-- Jobs and children may change. -/
theorem Tables.run (h : Tables s) {rt : ℕ → Runinfo} {nrun : ℤ → ℤ} {running : ℤ} {children : List ℤ}
    {idle : Bool} (hlive : ∀ i, Live (rt i) → (rt i).rusr ∈ s.uhead) (hrunning : running = children.length) :
    Tables { s with rt := rt, nrun := nrun, running := running, children := children, idle := idle } :=
  h.rest (h.at_jobs.carry (.run h.at_jobs)) { Rests.refl h with live := hlive, running := hrunning }

theorem Tables.idle (h : Tables s) (idle : Bool) : Tables { s with idle := idle } := h.run h.live h.running

theorem Tables.mail (h : Tables s) (pid : Option ℤ) : Tables (mail pid s) := by
  cases pid with
  | none => exact h
  | some pid =>
    apply h.run h.live
    rw [length_cons, h.running]
    rfl

end rests

/-! ## At jobs -/

section jobs

variable {s t : Cron} {u e : ℕ} {job name usrname : List Char} {tim : ℤ}

/-- A new job, if it is not of the queue of crontabs -/
theorem Tables.add_atevent (h : Tables s) (hu : u ∈ s.uhead) (hqueue : s.jobtype ≠ CRONEVENT) :
    Tables (add_atevent u job tim s) := by
  have hinv := h.at_jobs.add_atevent job tim hu
  have hnew : isAt (Crond.add_atevent u job tim s) s.brk = true := by
    rw [isAt, add_atevent_new]
    exact bne_iff_ne.mpr hqueue
  apply h.rest hinv
  constructor
  case uhead => rw [add_atevent_eq]
  case usr =>
    intro v _
    rw [add_atevent_eq]
    dsimp only
    by_cases hv : v = u
    · rw [hv, update_self]
      exact ⟨rfl, rfl, rfl⟩
    · rw [update_of_ne hv]
      exact ⟨rfl, rfl, rfl⟩
  case event =>
    intro x hx
    rw [add_atevent_event hx]
    exact ⟨rfl, rfl⟩
  case time =>
    intro x hx
    have hinit : (Crond.add_atevent u job tim s).init_time = s.init_time := by rw [add_atevent_eq]
    rw [add_atevent_event (h.crontab_lt hx), hinit]
    exact h.crontab_time hx
  case brk =>
    rw [add_atevent_eq]
    exact Nat.le_succ _
  case at_events =>
    intro x hx
    rcases mem_cons.mp ((add_atevent_pending _ _ h.at_jobs hu).mem_iff.mp hx) with rfl | hold
    · exact hnew
    · rw [add_atevent_isAt (h.at_jobs.pending_lt hold)]
      exact h.at_events x hold
  case listed =>
    apply (add_atevent_queued.filter _).trans
    rw [filter_cons_of_neg (by rw [hnew]; rintro ⟨⟩)]
    apply List.Perm.of_eq
    apply filter_congr
    intro x hx
    rw [add_atevent_isAt (h.at_jobs.queued_lt hx)]
  case notice =>
    intro n hn hct
    rcases mem_add_atevent hn with rfl | hold
    · cases hct.symm.trans hnew
    · exact .inl hold
  case live =>
    rw [add_atevent_eq]
    exact h.live
  case running =>
    rw [add_atevent_eq]
    exact h.running

/-- An at job leaves its user, and the event list. -/
theorem Tables.unlinkAt (h : Tables s) (l : List Notice) (next : Option ℕ) (hl : ∀ n ∈ l, n ∈ s.el)
    (hinv : AtInv (unlinkAt u e { s with el := l, next_event := next })) (hsub : ∀ x ∈
      pending (unlinkAt u e { s with el := l, next_event := next }), x ∈ pending s)
    (hct : (l.map Notice.event ++ next.toList).filter (fun x => !isAt s x) = ctQueued s) :
    Tables (unlinkAt u e { s with el := l, next_event := next }) := by
  apply h.rest hinv
  refine { Rests.refl h with
    usr := fun v _ => ?_, at_events := fun x hx => h.at_events x (hsub x hx), listed := List.Perm.of_eq hct
    notice := fun n hn _ => .inl (hl n hn) }
  unfold Crond.unlinkAt
  dsimp only
  by_cases hv : v = u
  · rw [hv, update_self]
    exact ⟨rfl, rfl, rfl⟩
  · rw [update_of_ne hv]
    exact ⟨rfl, rfl, rfl⟩

theorem mem_pending_unlinkAt {l : List Notice} {next : Option ℕ} {x : ℕ}
    (hx : x ∈ pending (unlinkAt u e { s with el := l, next_event := next })) : x ∈ pending s := by
  obtain ⟨v, hv, hmem⟩ := mem_holdings.mp hx
  apply mem_holdings.mpr ⟨v, hv, _⟩
  unfold unlinkAt at hmem
  dsimp only at hmem
  by_cases hvu : v = u
  · rw [hvu, update_self] at hmem
    exact hvu ▸ mem_of_mem_erase hmem
  · rw [update_of_ne hvu] at hmem
    exact hmem

/-- Notices of crontabs do not have the `id` of an at job. -/
theorem Tables.removed (h : Tables s) (hu : u ∈ s.uhead) (he : e ∈ (s.usr u).atevents) :
    Tables (el_remove (s.event e).eventid true
      (Crond.unlinkAt u e { s with next_event := s.next_event.filter fun x => x != e })) := by
  have hpend : e ∈ pending s := mem_holdings.mpr ⟨u, hu, he⟩
  apply h.unlinkAt (s.el.eraseP (·.id == (s.event e).eventid)) (s.next_event.filter fun x => x != e)
  · exact fun n hn => mem_of_mem_eraseP hn
  · exact (Keeps.removed h.at_jobs hu he).inv
  · exact fun x hx => mem_pending_unlinkAt hx
  · rw [filter_append, ctQueued, queued, filter_append]
    congr 1
    · apply filter_removed (.inr rfl)
      intro n hn hct
      have hfalse : isAt s n.event = false := Bool.not_eq_true' _ ▸ hct
      rw [h.notice n hn hfalse]
      exact (h.at_jobs.ctid _).2 e hpend
    · cases hnext : s.next_event with
      | none => rfl
      | some x =>
        by_cases hx : x = e
        · have hself : (x != e) = false := by rw [hx, bne_self_eq_false]
          rw [Option.filter_some, hself, Option.toList_some, hx,
            filter_cons_of_neg (by rw [h.at_events e hpend]; rintro ⟨⟩)]
          rfl
        · have hne : (x != e) = true := bne_iff_ne.mpr hx
          rw [Option.filter_some, hne]
          rfl

/-- The job that is the next event is removed. -/
theorem Tables.done (h : Tables s) (he : s.next_event = some e) (hat : isAt s e = true) :
    Tables { Crond.unlinkAt (s.event e).u e s with next_event := none, idle := false } := by
  have hdone := h.unlinkAt (u := (s.event e).u) (e := e) s.el none (fun n hn => hn)
    ((Keeps.done h.at_jobs he hat).inv.carry (.run (Keeps.done h.at_jobs he hat).inv))
    (fun x hx => mem_pending_unlinkAt hx) (by
      rw [Option.toList_none, append_nil, ctQueued, queued, he, Option.toList_some, filter_append,
        filter_cons_of_neg (by rw [hat]; rintro ⟨⟩), filter_nil, append_nil])
  exact hdone.idle false

end jobs

/-! ## The next event -/

section next

variable {s t : Cron} {e : ℕ}

theorem Tables.next_time (h : Tables s) (he : s.next_event = some e) : s.init_time ≤ (s.event e).time := by
  cases hat : isAt s e with
  | false => exact h.crontab_time (h.mem_crontab (next_queued he) hat)
  | true => exact (h.at_jobs.eventid e (h.at_jobs.next_pending he hat)).2.2 hat

/-- The notice always comes to the list. -/
theorem readd_eq (htime : s.init_time ≤ (s.event e).time) : ∃ id, readd e s = { s with
    el := insertNotice ⟨e, (s.event e).time, id⟩ s.el } ∧
    (isAt s e = false → id = (s.usr (s.event e).u).ctid) := by
  unfold readd el_add
  rw [if_neg (Int.not_lt.mpr htime), if_neg (Int.not_lt.mpr htime)]
  split
  next hct => exact ⟨_, rfl, fun _ => rfl⟩
  next hat => exact ⟨_, rfl, fun hct => absurd (isAt_false_iff.mp hct) hat⟩

theorem Tables.putBack (h : Tables s) (he : s.next_event = some e) :
    Tables { readd e s with next_event := none } := by
  have hinv := h.at_jobs.carry (.putBack h.at_jobs he)
  obtain ⟨id, hadd, hid⟩ := readd_eq (h.next_time he)
  rw [hadd] at hinv ⊢
  apply h.rest hinv
  refine { Rests.refl h with listed := ?_, notice := ?_ }
  · apply List.Perm.filter
    have hperm := (insertNotice_perm ⟨e, (s.event e).time, id⟩ s.el).map Notice.event
    rw [queued, queued, he, Option.toList_none, append_nil]
    exact hperm.trans (perm_append_singleton e _).symm
  · intro n hn hct
    rcases mem_insertNotice.mp hn with rfl | hold
    · exact .inr (hid hct)
    · exact .inl hold

theorem Tables.pick (h : Tables s) : Tables (pick s) := by
  have hinv := h.at_jobs.carry (.pick h.at_jobs)
  unfold Crond.pick at hinv ⊢
  split
  next n l hnext hel =>
    rw [hnext, hel] at hinv
    apply h.rest hinv
    refine { Rests.refl h with
      listed := ?_, notice := fun m hm _ => .inl (hel ▸ mem_cons_of_mem n hm) }
    apply List.Perm.filter
    rw [queued, queued, hel, hnext, Option.toList_none, append_nil, map_cons, Option.toList_some]
    exact perm_append_singleton _ _
  next => exact h.idle true

/-- An event of a crontab gets its next time. -/
theorem Tables.setTime (h : Tables s) (hct : isAt s e = false) {time : ℤ} (htime : s.init_time ≤ time) :
    Tables (setTime e time s) := by
  have hinv := h.at_jobs.carry (.setTime (e := e) h.at_jobs hct time)
  have hevent (x : ℕ) : ((Crond.setTime e time s).event x).etype = (s.event x).etype ∧
      ((Crond.setTime e time s).event x).u = (s.event x).u ∧
      (s.init_time ≤ (s.event x).time → s.init_time ≤ ((Crond.setTime e time s).event x).time) := by
    unfold Crond.setTime
    dsimp only
    by_cases hx : x = e
    · rw [hx, update_self]
      exact ⟨rfl, rfl, fun _ => htime⟩
    · rw [update_of_ne hx]
      exact ⟨rfl, rfl, id⟩
  have hat : isAt (Crond.setTime e time s) = isAt s := by
    funext x
    rw [isAt, (hevent x).1, isAt]
  apply h.rest hinv
  refine { Rests.refl h with
    event := fun x _ => ⟨(hevent x).2.1, (hevent x).1⟩
    time := fun x hx => (hevent x).2.2 (h.crontab_time hx), at_events := fun x hx => ?_, listed := ?_
    notice := fun n hn _ => .inl hn }
  · rw [hat]
    exact h.at_events x hx
  · rw [ctQueued, hat]
    exact List.Perm.refl _

end next

/-! ## Crontabs -/

section crontabs

variable {s t : Cron} {u e : ℕ} {name : List Char}

theorem update_ctevents (v : Usr) : (fun x => ((update s.usr u v) x).ctevents) =
    update (fun x => (s.usr x).ctevents) u v.ctevents := by
  funext x
  by_cases hx : x = u
  · rw [hx, update_self, update_self]
  · rw [update_of_ne hx, update_of_ne hx]

/-- A new user has no crontab yet. -/
theorem Tables.newUsr (h : Tables s) {ctid ecid : ℕ} {ex : Bool} (hecid : s.ecid ≤ ecid)
    (hctid : ctid = 0 ∨ s.ecid ≤ ctid) (hlt : ctid < ecid) :
    Tables (newUsr name ctid ex { s with ecid := ecid }) := by
  have hinv := (Keeps.newUsr name ex h.at_jobs hecid hctid hlt).inv
  have hout : s.brk ∉ s.uhead := fun hc => Nat.lt_irrefl _ (h.at_jobs.usr_lt s.brk hc)
  have husr {v : ℕ} (hv : v ∈ s.uhead) :
      (Crond.newUsr name ctid ex { s with ecid := ecid }).usr v = s.usr v :=
    update_of_ne (ne_of_mem_of_not_mem hv hout) _ _
  have hself : (Crond.newUsr name ctid ex { s with ecid := ecid }).usr s.brk = ⟨name, ctid, ex, [], []⟩ :=
    update_self _ _ _
  have hcron : crontab (Crond.newUsr name ctid ex { s with ecid := ecid }) = crontab s := by
    change holdings (s.brk :: s.uhead)
      (fun x => ((update s.usr s.brk ⟨name, ctid, ex, [], []⟩) x).ctevents) = _
    rw [update_ctevents]
    exact holdings_new hout
  have hfresh {v : ℕ} (heq : ctid = (s.usr v).ctid) (hne : ctid ≠ 0) : False := by
    rcases hctid with hz | hle
    · exact hne hz
    · exact Nat.lt_irrefl _ (Nat.lt_of_lt_of_le (heq ▸ (h.at_jobs.ctid v).1) hle)
  constructor
  case at_jobs => exact hinv
  case at_events =>
    intro x hx
    obtain ⟨v, hv, hmem⟩ := mem_holdings.mp hx
    rcases mem_cons.mp hv with rfl | hold
    · rw [hself] at hmem
      exact absurd hmem not_mem_nil
    · rw [husr hold] at hmem
      exact h.at_events x (mem_holdings.mpr ⟨v, hold, hmem⟩)
  case owner =>
    intro v hv x hx
    rcases mem_cons.mp hv with rfl | hold
    · rw [hself] at hx
      exact absurd hx not_mem_nil
    · rw [husr hold] at hx
      obtain ⟨hown, hct, hxlt, htime⟩ := h.owner v hold x hx
      exact ⟨hown, hct, Nat.lt_succ_of_lt hxlt, htime⟩
  case nodup => exact hcron ▸ h.nodup
  case listed => exact hcron ▸ h.listed
  case notice =>
    intro n hn hct
    have hmem := h.mem_crontab (mem_queued hn) hct
    have hold : (Crond.newUsr name ctid ex { s with ecid := ecid }).usr (s.event n.event).u = _ :=
      husr (h.crontab_usr hmem).1
    change n.id = ((Crond.newUsr name ctid ex { s with ecid := ecid }).usr (s.event n.event).u).ctid
    rw [hold]
    exact h.notice n hn hct
  case no_ctab =>
    intro v hv
    rcases mem_cons.mp hv with rfl | hold
    · rw [hself]
      exact fun _ => rfl
    · rw [husr hold]
      exact h.no_ctab v hold
  case ctid_inj =>
    intro v hv w hw heq hne
    rcases mem_cons.mp hv with rfl | hv' <;> rcases mem_cons.mp hw with rfl | hw'
    · rfl
    · rw [hself] at heq hne
      rw [husr hw'] at heq
      exact (hfresh heq hne).elim
    · rw [hself, husr hv'] at heq
      rw [husr hv'] at hne
      exact (hfresh heq.symm fun hz => hne (heq.trans hz)).elim
    · rw [husr hv', husr hw'] at heq
      rw [husr hv'] at hne
      exact h.ctid_inj v hv' w hw' heq hne
  case live => exact fun i hi => mem_cons_of_mem _ (h.live i hi)
  case running => exact h.running

/-- A user without events of a crontab gets another `ctid`. -/
theorem Tables.setCtid (h : Tables s) (ecid : ℕ) (hnil : (s.usr u).ctevents = []) {v : Usr}
    (hecid : s.ecid ≤ ecid) (hev : v.ctevents = []) (hat : v.atevents = (s.usr u).atevents)
    (hctid : v.ctid = (s.usr u).ctid ∨ v.ctid = 0 ∨ (s.ecid ≤ v.ctid ∧ v.ctid < ecid)) :
    Tables { s with ecid := ecid, usr := update s.usr u v } := by
  have hc := Carries.usr (u := u) h.at_jobs hecid hat hctid
  have hcron : crontab { s with ecid := ecid, usr := update s.usr u v } = crontab s := by
    change holdings s.uhead (fun x => ((update s.usr u v) x).ctevents) = _
    rw [update_ctevents, hev, ← hnil, update_eq_self]
    rfl
  have hctid' (w : ℕ) (hw : w ≠ u) (heq : v.ctid = (s.usr w).ctid) (hne : v.ctid ≠ 0) :
      (s.usr u).ctid = (s.usr w).ctid := by
    rcases hctid with hsame | hz | ⟨hle, _⟩
    · exact hsame.symm.trans heq
    · exact absurd hz hne
    · exact absurd (Nat.lt_of_lt_of_le (h.at_jobs.ctid w).1 hle) (heq ▸ Nat.lt_irrefl _)
  constructor
  case at_jobs => exact h.at_jobs.carry hc
  case at_events =>
    intro x hx
    exact h.at_events x (hc.pending_eq ▸ hx)
  case owner =>
    intro w hw x hx
    change x ∈ ((update s.usr u v) w).ctevents at hx
    by_cases hwu : w = u
    · rw [hwu, update_self, hev] at hx
      exact absurd hx not_mem_nil
    · rw [update_of_ne hwu] at hx
      exact h.owner w hw x hx
  case nodup => exact hcron ▸ h.nodup
  case listed => exact hcron ▸ h.listed
  case notice =>
    intro n hn hct
    have hmem := (h.crontab_usr (h.mem_crontab (mem_queued hn) hct)).2
    have hne : (s.event n.event).u ≠ u := by
      intro hu
      rw [hu, hnil] at hmem
      exact absurd hmem not_mem_nil
    change n.id = ((update s.usr u v) (s.event n.event).u).ctid
    rw [update_of_ne hne]
    exact h.notice n hn hct
  case no_ctab =>
    intro w hw hno
    change ((update s.usr u v) w).ctevents = []
    change ((update s.usr u v) w).ctid = 0 ∨ ((update s.usr u v) w).ctexists = false at hno
    by_cases hwu : w = u
    · rw [hwu, update_self]
      exact hev
    · rw [update_of_ne hwu] at hno ⊢
      exact h.no_ctab w hw hno
  case ctid_inj =>
    intro x hx w hw heq hne
    change ((update s.usr u v) x).ctid = ((update s.usr u v) w).ctid at heq
    change ((update s.usr u v) x).ctid ≠ 0 at hne
    by_cases hxu : x = u <;> by_cases hwu : w = u
    · rw [hxu, hwu]
    · rw [hxu, update_self, update_of_ne hwu] at heq
      rw [hxu, update_self] at hne
      have hsame := hctid' w hwu heq hne
      have hne' : (s.usr u).ctid ≠ 0 := hsame ▸ heq ▸ hne
      exact hxu ▸ h.ctid_inj u (hxu ▸ hx) w hw hsame hne'
    · rw [hwu, update_self, update_of_ne hxu] at heq
      rw [update_of_ne hxu] at hne
      have hsame := hctid' x hxu heq.symm (heq ▸ hne)
      exact hwu ▸ h.ctid_inj x hx u (hwu ▸ hw) hsame.symm hne
    · rw [update_of_ne hxu, update_of_ne hwu] at heq
      rw [update_of_ne hxu] at hne
      exact h.ctid_inj x hx w hw heq hne
  case live => exact h.live
  case running => exact h.running

/-- The user is known to have a crontab. -/
theorem Tables.exists (h : Tables s) (u : ℕ) :
    Tables { s with usr := update s.usr u { s.usr u with ctexists := true } } := by
  have hc := Carries.usr (u := u) (v := { s.usr u with ctexists := true }) h.at_jobs (Nat.le_refl _) rfl (.inl rfl)
  have husr (w : ℕ) : ((update s.usr u { s.usr u with ctexists := true }) w).ctevents =
      (s.usr w).ctevents ∧ ((update s.usr u { s.usr u with ctexists := true }) w).ctid =
      (s.usr w).ctid ∧ (((update s.usr u { s.usr u with ctexists := true }) w).ctexists = false →
      (s.usr w).ctexists = false) := by
    by_cases hw : w = u
    · rw [hw, update_self]
      exact ⟨rfl, rfl, nofun⟩
    · rw [update_of_ne hw]
      exact ⟨rfl, rfl, id⟩
  have hcron : crontab { s with usr := update s.usr u { s.usr u with ctexists := true } } = crontab s :=
    flatMap_congr fun w _ => (husr w).1
  constructor
  case at_jobs => exact h.at_jobs.carry hc
  case at_events =>
    intro x hx
    exact h.at_events x (hc.pending_eq ▸ hx)
  case owner =>
    intro w hw x hx
    change x ∈ ((update s.usr u { s.usr u with ctexists := true }) w).ctevents at hx
    rw [(husr w).1] at hx
    exact h.owner w hw x hx
  case nodup => exact hcron ▸ h.nodup
  case listed => exact hcron ▸ h.listed
  case notice =>
    intro n hn hct
    exact (h.notice n hn hct).trans (husr _).2.1.symm
  case no_ctab =>
    intro w hw hno
    apply (husr w).1.trans
    apply h.no_ctab w hw
    rcases hno with hz | hex
    · exact .inl ((husr w).2.1.symm.trans hz)
    · exact .inr ((husr w).2.2 hex)
  case ctid_inj =>
    intro x hx w hw heq hne
    exact h.ctid_inj x hx w hw (((husr x).2.1.symm.trans heq).trans (husr w).2.1)
      (fun hz => hne ((husr x).2.1.trans hz))
  case live => exact h.live
  case running => exact h.running

/-- A line of the crontab of a user who has one, with a time that is not before `init_time` -/
theorem Tables.entry (h : Tables s) (hu : u ∈ s.uhead) (hid : (s.usr u).ctid ≠ 0)
    (hex : (s.usr u).ctexists = true) {cmd : List Char} {time : ℤ} (htime : s.init_time ≤ time) :
    Tables (readline u s (.entry cmd time)) := by
  have hinv := h.at_jobs.carry (.readline h.at_jobs u (.entry cmd time))
  have heq : readline u s (.entry cmd time) = { s with
      brk := s.brk + 1
      event := update s.event s.brk ⟨time, CRONEVENT, cmd, u, 0⟩
      usr := update s.usr u { s.usr u with ctevents := s.brk :: (s.usr u).ctevents }
      el := insertNotice ⟨s.brk, time, (s.usr u).ctid⟩ s.el } := by
    change (if time < s.init_time then _ else _) = _
    rw [if_neg (Int.not_lt.mpr htime)]
  have hc := Carries.pending_eq (.readline h.at_jobs u (.entry cmd time))
  rw [heq] at hinv hc ⊢
  have hevent {x : ℕ} (hx : x < s.brk) :
      update s.event s.brk ⟨time, CRONEVENT, cmd, u, 0⟩ x = s.event x :=
    update_of_ne (Nat.ne_of_lt hx) _ _
  have husr (w : ℕ) : ((update s.usr u { s.usr u with
      ctevents := s.brk :: (s.usr u).ctevents }) w).ctid = (s.usr w).ctid := by
    by_cases hw : w = u
    · rw [hw, update_self]
    · rw [update_of_ne hw]
  have hcron : (holdings s.uhead fun w => ((update s.usr u { s.usr u with
      ctevents := s.brk :: (s.usr u).ctevents }) w).ctevents).Perm (s.brk :: crontab s) := by
    rw [update_ctevents]
    exact holdings_add h.at_jobs.uhead_nodup hu
  constructor
  case at_jobs => exact hinv
  case at_events =>
    intro x hx
    rw [hc] at hx
    unfold isAt
    dsimp only
    rw [hevent (h.at_jobs.pending_lt hx)]
    exact h.at_events x hx
  case owner =>
    intro w hw x hx
    have hcase : w = u ∧ x = s.brk ∨ x ∈ (s.usr w).ctevents := by
      dsimp only at hx
      by_cases hwu : w = u
      · rw [hwu, update_self] at hx
        rcases mem_cons.mp hx with rfl | hold
        · exact .inl ⟨hwu, rfl⟩
        · exact .inr (hwu ▸ hold)
      · rw [update_of_ne hwu] at hx
        exact .inr hx
    unfold isAt
    dsimp only
    rcases hcase with ⟨rfl, rfl⟩ | hold
    · rw [update_self]
      exact ⟨rfl, rfl, Nat.lt_succ_self _, htime⟩
    · obtain ⟨hown, hct, hlt, hle⟩ := h.owner w hw x hold
      rw [hevent hlt]
      exact ⟨hown, hct, Nat.lt_succ_of_lt hlt, hle⟩
  case nodup =>
    apply hcron.nodup_iff.mpr
    exact nodup_cons.mpr ⟨fun hmem => Nat.lt_irrefl _ (h.crontab_lt hmem), h.nodup⟩
  case listed =>
    apply List.Perm.trans _ hcron.symm
    have hperm := (insertNotice_perm ⟨s.brk, time, (s.usr u).ctid⟩ s.el).map Notice.event
    apply ((hperm.append_right s.next_event.toList).filter _).trans
    have hnew : (!isAt { s with
        brk := s.brk + 1
        event := update s.event s.brk ⟨time, CRONEVENT, cmd, u, 0⟩
        usr := update s.usr u { s.usr u with ctevents := s.brk :: (s.usr u).ctevents }
        el := insertNotice ⟨s.brk, time, (s.usr u).ctid⟩ s.el } s.brk) = true := by
      unfold isAt
      dsimp only
      rw [update_self]
      rfl
    rw [map_cons, cons_append, filter_cons, if_pos hnew]
    apply List.Perm.cons
    apply List.Perm.trans _ h.listed
    apply List.Perm.of_eq
    apply filter_congr
    intro x hx
    unfold isAt
    dsimp only
    rw [hevent (h.at_jobs.queued_lt hx)]
  case notice =>
    intro n hn hct
    change n.id = ((update s.usr u { s.usr u with ctevents := s.brk :: (s.usr u).ctevents })
      (update s.event s.brk ⟨time, CRONEVENT, cmd, u, 0⟩ n.event).u).ctid
    rw [husr]
    rcases mem_insertNotice.mp hn with rfl | hold
    · rw [update_self]
    · have hlt := (h.at_jobs.notice n hold).1
      unfold isAt at hct
      dsimp only at hct
      rw [hevent hlt] at hct ⊢
      exact h.notice n hold hct
  case no_ctab =>
    intro w hw hno
    dsimp only at hno ⊢
    by_cases hwu : w = u
    · rw [hwu, update_self] at hno
      rcases hno with hz | hfalse
      · exact absurd hz hid
      · exact absurd (hex.symm.trans hfalse) nofun
    · rw [update_of_ne hwu] at hno ⊢
      exact h.no_ctab w hw hno
  case ctid_inj =>
    intro x hx w hw heq hne
    dsimp only at heq hne
    rw [husr x] at heq hne
    rw [husr w] at heq
    exact h.ctid_inj x hx w hw heq hne
  case live => exact h.live
  case running => exact h.running

/-- The events of a user's crontab are gone, and the notices with his `ctid`. -/
theorem Tables.cleared (h : Tables s) (hu : u ∈ s.uhead) :
    Tables (el_remove (s.usr u).ctid false (rm_ctevents u s)) := by
  have hrm := Carries.rm_ctevents (u := u) h.at_jobs
  have hctid : ((rm_ctevents u s).usr u).ctid = (s.usr u).ctid := by
    unfold rm_ctevents
    dsimp only
    rw [update_self]
  have hel := hrm.trans h.at_jobs (.el_remove (h.at_jobs.carry hrm) u)
  rw [hctid] at hel
  have husr (w : ℕ) : ((update s.usr u { s.usr u with ctevents := [] }) w).ctid = (s.usr w).ctid ∧
      ((update s.usr u { s.usr u with ctevents := [] }) w).ctexists = (s.usr w).ctexists := by
    by_cases hw : w = u
    · rw [hw, update_self]
      exact ⟨rfl, rfl⟩
    · rw [update_of_ne hw]
      exact ⟨rfl, rfl⟩
  have hsub {w x : ℕ} (hx : x ∈ ((update s.usr u { s.usr u with ctevents := [] }) w).ctevents) :
      x ∈ (s.usr w).ctevents := by
    by_cases hwu : w = u
    · rw [hwu, update_self] at hx
      exact absurd hx not_mem_nil
    · rwa [update_of_ne hwu] at hx
  -- the crontabs of the others
  have hcron : (holdings s.uhead fun w => ((update s.usr u { s.usr u with ctevents := [] }) w).ctevents).Perm
      ((crontab s).filter fun x => (s.event x).u != u) := by
    rw [update_ctevents]
    apply (holdings_update h.at_jobs.uhead_nodup hu).trans
    apply List.Perm.trans _ ((holdings_split _ hu).filter _).symm
    rw [nil_append, filter_append]
    have hown : (s.usr u).ctevents.filter (fun x => (s.event x).u != u) = [] := by
      apply filter_eq_nil_iff.mpr
      intro x hx
      rw [(h.owner u hu x hx).1, bne_self_eq_false]
      exact nofun
    rw [hown, nil_append]
    apply List.Perm.of_eq
    apply Eq.symm
    apply filter_eq_self.mpr
    intro x hx
    obtain ⟨w, hw, hmem⟩ := mem_holdings.mp hx
    rw [(h.owner w (mem_of_mem_erase hw) x hmem).1, bne_iff_ne]
    rintro rfl
    exact h.at_jobs.uhead_nodup.not_mem_erase hw
  have hnotice {n : Notice} (hn : n ∈ s.el) (hct : isAt s n.event = false) :
      n.id = (s.usr u).ctid ↔ (s.event n.event).u = u := by
    have hmem := h.crontab_usr (h.mem_crontab (mem_queued hn) hct)
    rw [h.notice n hn hct]
    constructor
    · intro heq
      apply h.ctid_inj _ hmem.1 u hu heq
      intro hz
      rw [h.no_ctab _ hmem.1 (.inl hz)] at hmem
      exact absurd hmem.2 not_mem_nil
    · intro heq
      rw [heq]
  constructor
  case at_jobs => exact h.at_jobs.carry hel
  case at_events =>
    intro x hx
    exact h.at_events x (hel.pending_eq ▸ hx)
  case owner => exact fun w hw x hx => h.owner w hw x (hsub hx)
  case nodup => exact hcron.nodup_iff.mpr (h.nodup.filter _)
  case listed =>
    apply List.Perm.trans _ hcron.symm
    apply List.Perm.trans _ (h.listed.filter _)
    apply List.Perm.of_eq
    change ((s.el.filter fun n => n.id != (s.usr u).ctid).map Notice.event ++
      (s.next_event.filter fun e => !((s.event e).etype == CRONEVENT && (s.event e).u == u)).toList).filter
        (fun x => !isAt s x) = _
    rw [filter_append, ctQueued, queued, filter_append, filter_append]
    congr 1
    · rw [filter_map, filter_map, filter_map, filter_filter, filter_filter]
      congr 1
      apply filter_congr
      intro n hn
      cases hct : isAt s n.event with
      | true => simp [hct]
      | false =>
        have hsame : (n.id != (s.usr u).ctid) = ((s.event n.event).u != u) := by
          rw [Bool.eq_iff_iff, bne_iff_ne, bne_iff_ne, ne_eq, ne_eq, hnotice hn hct]
        simp [hct, hsame]
    · cases s.next_event with
      | none => rfl
      | some x =>
        have hkeep : (!((s.event x).etype == CRONEVENT && (s.event x).u == u)) =
            (isAt s x || (s.event x).u != u) := by
          rw [isAt, Bool.not_and]
          rfl
        rw [Option.filter_some, hkeep]
        cases hct : isAt s x with
        | true => simp [hct]
        | false => by_cases hxu : (s.event x).u = u <;> simp [hct, hxu]
  case notice =>
    intro n hn hct
    exact (h.notice n (mem_filter.mp hn).1 hct).trans (husr _).1.symm
  case no_ctab =>
    intro w hw hno
    change ((update s.usr u { s.usr u with ctevents := [] }) w).ctevents = []
    change ((update s.usr u { s.usr u with ctevents := [] }) w).ctid = 0 ∨
      ((update s.usr u { s.usr u with ctevents := [] }) w).ctexists = false at hno
    rw [(husr w).1, (husr w).2] at hno
    by_cases hwu : w = u
    · rw [hwu, update_self]
    · rw [update_of_ne hwu]
      exact h.no_ctab w hw hno
  case ctid_inj =>
    intro x hx w hw heq hne
    exact h.ctid_inj x hx w hw (((husr x).1.symm.trans heq).trans (husr w).1)
      (fun hz => hne ((husr x).1.trans hz))
  case live => exact h.live
  case running => exact h.running

/-- A user without events goes, if none of his jobs runs. -/
theorem Tables.freeUsr (h : Tables s) (hat : (s.usr u).atevents = []) (hct : (s.usr u).ctevents = [])
    (hlive : ∀ i, Live (s.rt i) → (s.rt i).rusr ≠ u) : Tables (freeUsr u s) := by
  have hperm : (crontab (Crond.freeUsr u s)).Perm (crontab s) := holdings_leave hct
  have hpend : (pending (Crond.freeUsr u s)).Perm (pending s) := holdings_leave hat
  have hmem {w : ℕ} (hw : w ∈ s.uhead.erase u) : w ∈ s.uhead := mem_of_mem_erase hw
  exact {
    at_jobs := (Keeps.freeUsr h.at_jobs hat).inv
    at_events := fun x hx => h.at_events x (hpend.mem_iff.mp hx)
    owner := fun w hw => h.owner w (hmem hw)
    nodup := hperm.nodup_iff.mpr h.nodup
    listed := h.listed.trans hperm.symm
    notice := h.notice
    no_ctab := fun w hw => h.no_ctab w (hmem hw)
    ctid_inj := fun x hx w hw => h.ctid_inj x (hmem hx) w (hmem hw)
    live := fun i hi => (mem_erase_of_ne (hlive i hi)).mpr (h.live i hi)
    running := h.running }

/-- No user and no event is left, if no job runs. -/
theorem Tables.forget (h : Tables s) (now : ℤ) (hlive : ∀ i, ¬Live (s.rt i)) :
    Tables { s with init_time := now, el := [], uhead := [], next_event := none } where
  at_jobs := (Keeps.forget h.at_jobs now).inv
  at_events := nofun
  owner := nofun
  nodup := nodup_nil
  listed := List.Perm.refl _
  notice := nofun
  no_ctab := nofun
  ctid_inj := nofun
  live i hi := absurd hi (hlive i)
  running := h.running

end crontabs

end Svr3.Crond
