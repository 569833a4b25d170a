import Svr3.Cmd.CronTables

/-!
# The runs of cron

Every handler keeps the tables when its condition is met: a user whose job runs is not freed, the events of
crontabs are not before `init_time`, no at job has the queue of crontabs, and the output of a job finds a child
to mail it. Each run whose steps meet the conditions stays consistent.
-/

namespace Svr3.Crond

open Function List

/-- No event of the crontab is before the start of the event list. -/
def Timely (now : ℤ) (c : Ctab) : Prop :=
  ∀ lines, c.file = some lines → ∀ cmd time, Line.entry cmd time ∈ lines → now ≤ time

/-- None of the user's jobs runs. -/
def Quiet (s : Cron) (u : ℕ) : Prop := ∀ i, Live (s.rt i) → (s.rt i).rusr ≠ u

/-- The condition on the directories -/
def DirsOk (d : Dirs) : Prop :=
  (∀ c ∈ d.ctabs, Timely d.now c) ∧ ∀ a ∈ d.jobs, queueOf a.name ≠ some CRONEVENT

/-- The condition on a message. A user is freed when his last events are deleted. -/
def MessageOk (s : Cron) : Message → Prop
  | .addAt a => queueOf a.name ≠ some CRONEVENT
  | .delAt fname logname => ∀ u, find_usr logname s = some u → (s.usr u).ctexists = false →
      (s.usr u).atevents.eraseP (fun e => (s.event e).cmd == fname) = [] → Quiet s u
  | .addCron c => Timely s.init_time c
  | .delCron fname => ∀ u, find_usr fname s = some u → (s.usr u).atevents = [] → Quiet s u
  | .other => True

/-- The condition on a dispatch -/
def DispatchOk (s : Cron) (d : Dispatch) (e : ℕ) : Prop :=
  if (s.event e).etype = CRONEVENT then
    s.init_time ≤ d.again ∧ s.init_time ≤ d.next ∧ ∀ q, 0 ≤ d.nwait q
  else Delayed d e s → s.jobtype ≠ CRONEVENT

/-- The condition on a step -/
def KeepsTables (s : Cron) : Act → Prop
  | .loop => True
  | .reset d => (∀ i, ¬Live (s.rt i)) ∧ DirsOk d
  | .wait pid o => ∀ i < MAXRUN, (s.rt i).pid = pid → (s.rt i).que ≠ ZOMB → o ≠ .mailed none
  | .message m => MessageOk s m
  | .interrupt => True
  | .expire d => ∀ e, s.next_event = some e → DispatchOk s d e

/-! ## Handlers -/

section handlers

variable {s t : Cron} {u e : ℕ} {d : Dispatch}

/-- A line changes nothing else of its user. -/
theorem readline_usr (u : ℕ) (s : Cron) (l : Line) : (readline u s l).uhead = s.uhead ∧
    (readline u s l).init_time = s.init_time ∧ ((readline u s l).usr u).ctid = (s.usr u).ctid ∧
    ((readline u s l).usr u).ctexists = (s.usr u).ctexists := by
  cases l with
  | comment => exact ⟨rfl, rfl, rfl, rfl⟩
  | bad pid =>
    cases pid with
    | none => exact ⟨rfl, rfl, rfl, rfl⟩
    | some pid => exact ⟨rfl, rfl, rfl, rfl⟩
  | entry cmd time =>
    unfold readline
    dsimp only
    obtain ⟨l, hl, _⟩ := el_add_eq s.brk time (s.usr u).ctid { s with
      brk := s.brk + 1
      event := update s.event s.brk ⟨time, CRONEVENT, cmd, u, 0⟩
      usr := update s.usr u { s.usr u with ctevents := s.brk :: (s.usr u).ctevents } }
    rw [hl]
    dsimp only
    rw [update_self]
    exact ⟨rfl, rfl, rfl, rfl⟩

theorem Tables.readcron (h : Tables s) (hu : u ∈ s.uhead) (hid : (s.usr u).ctid ≠ 0)
    (hex : (s.usr u).ctexists = true) (pid : Option ℤ) {file : Option (List Line)}
    (htime : ∀ lines, file = some lines → ∀ cmd time, Line.entry cmd time ∈ lines → s.init_time ≤ time) :
    Tables (readcron u pid file s) := by
  cases file with
  | none => exact h.mail pid
  | some lines =>
    change Tables (lines.foldl (readline u) s)
    have hlines := htime lines rfl
    clear htime
    induction lines generalizing s with
    | nil => exact h
    | cons l lines ih =>
      obtain ⟨huhead, hinit, hctid, hexists⟩ := readline_usr u s l
      have hline : Tables (readline u s l) := by
        cases l with
        | comment => exact h
        | bad pid => exact h.mail pid
        | entry cmd time => exact h.entry hu hid hex (hlines cmd time mem_cons_self)
      apply ih hline (huhead ▸ hu) (hctid ▸ hid) (hexists ▸ hex)
      intro cmd time hmem
      rw [hinit]
      exact hlines cmd time (mem_cons_of_mem l hmem)

theorem Tables.mod_ctab (h : Tables s) {c : Ctab} (hc : Timely s.init_time c) : Tables (mod_ctab c s) := by
  unfold Crond.mod_ctab
  split
  · exact h
  split
  · exact h.mail _
  split
  next =>
    have hnew : Tables (Crond.newUsr c.name s.ecid true { s with ecid := s.ecid + 1 }) :=
      h.newUsr (Nat.le_succ _) (.inr (Nat.le_refl _)) (Nat.lt_succ_self _)
    have hself : (Crond.newUsr c.name s.ecid true { s with ecid := s.ecid + 1 }).usr s.brk =
        ⟨c.name, s.ecid, true, [], []⟩ := update_self _ _ _
    apply hnew.readcron mem_cons_self _ _ c.pid hc
    · rw [hself]
      exact Nat.ne_of_gt h.at_jobs.ecid_pos
    · rw [hself]
  next u hfind =>
    have hu : u ∈ s.uhead := mem_of_find?_eq_some hfind
    have hexists := h.exists u
    dsimp only
    split
    next hz =>
      have hnil := hexists.no_ctab u hu (.inl hz)
      have hctid := hexists.setCtid (u := u) (s.ecid + 1)
        (v := { (update s.usr u { s.usr u with ctexists := true }) u with ctid := s.ecid, ctevents := [] })
        hnil (Nat.le_succ _) rfl rfl (.inr (.inr ⟨Nat.le_refl _, Nat.lt_succ_self _⟩))
      apply hctid.readcron hu _ _ c.pid hc
      · dsimp only
        rw [update_self]
        exact Nat.ne_of_gt h.at_jobs.ecid_pos
      · dsimp only
        rw [update_self, update_self]
    next hne =>
      have hclear := hexists.cleared hu
      have hself : ∀ t : Cron, ((rm_ctevents u t).usr u).ctid = (t.usr u).ctid ∧
          ((rm_ctevents u t).usr u).ctexists = (t.usr u).ctexists := by
        intro t
        unfold rm_ctevents
        dsimp only
        rw [update_self]
        exact ⟨rfl, rfl⟩
      apply hclear.readcron hu _ _ c.pid hc
      · exact fun hz => hne ((hself _).1.symm.trans hz)
      · apply (hself _).2.trans
        dsimp only
        rw [update_self]

theorem Tables.del_ctab (h : Tables s) {fname : List Char} (hok : MessageOk s (.delCron fname)) :
    Tables (del_ctab fname s) := by
  unfold Crond.del_ctab
  split
  · exact h
  next u hfind =>
    have hu : u ∈ s.uhead := mem_of_find?_eq_some hfind
    have hself : (el_remove (s.usr u).ctid false (rm_ctevents u s)).usr u = { s.usr u with ctevents := [] } :=
      update_self _ _ _
    have hclear := (h.cleared hu).setCtid (u := u) s.ecid
      (v := { (el_remove (s.usr u).ctid false (rm_ctevents u s)).usr u with ctid := 0, ctexists := false })
      (by rw [hself]) (Nat.le_refl _) (by rw [hself]) rfl (.inr (.inl rfl))
    dsimp only
    split
    next hat =>
      rw [update_self, hself] at hat
      apply hclear.freeUsr
      · dsimp only
        rw [update_self, hself]
        exact hat
      · dsimp only
        rw [update_self, hself]
      · exact hok u hfind hat
    next => exact hclear

theorem Tables.mod_atjob (h : Tables s) {a : Job} (hqueue : queueOf a.name ≠ some CRONEVENT) :
    Tables (mod_atjob a s) := by
  have hset (q : ℤ) : Tables { s with jobtype := q } :=
    h.rest (h.at_jobs.carry { Carries.refl h.at_jobs with }) { Rests.refl h with }
  unfold Crond.mod_atjob
  split
  · exact h
  next tim queue hname =>
    have hne : queue ≠ CRONEVENT := by
      rintro rfl
      rw [queueOf, hname] at hqueue
      exact hqueue rfl
    dsimp only
    split
    · exact hset queue
    split
    · exact hset queue
    split
    · exact hset queue
    next owner howner =>
      split
      next =>
        have hnew : Tables (Crond.newUsr owner 0 false { s with jobtype := queue }) :=
          (hset queue).newUsr (Nat.le_refl _) (.inl rfl) h.at_jobs.ecid_pos
        exact hnew.add_atevent mem_cons_self hne
      next u hfind =>
        split
        · exact hset queue
        · exact (hset queue).add_atevent (mem_of_find?_eq_some hfind) hne

/-- What is found is what would be erased. -/
theorem erase_find {p : ℕ → Bool} {l : List ℕ} (hfind : l.find? p = some e) : l.erase e = l.eraseP p := by
  induction l with
  | nil => exact absurd hfind nofun
  | cons x l ih =>
    rw [List.find?_cons] at hfind
    split at hfind
    next hp =>
      obtain rfl := Option.some.inj hfind
      rw [erase_cons_head, eraseP_cons_of_pos hp]
    next hp =>
      have hne : x ≠ e := by
        rintro rfl
        exact absurd (hp.symm.trans (List.find?_some hfind)) nofun
      rw [erase_cons_tail (by rw [beq_iff_eq]; exact hne), eraseP_cons_of_neg (by rw [hp]; exact nofun),
        ih hfind]

theorem Tables.del_atjob (h : Tables s) {fname logname : List Char}
    (hok : MessageOk s (.delAt fname logname)) : Tables (del_atjob fname logname s) := by
  unfold Crond.del_atjob
  split
  · exact h
  next u hfind =>
    have hu : u ∈ s.uhead := mem_of_find?_eq_some hfind
    have hleave : ∀ {t : Cron}, Tables t → u ∈ t.uhead → (t.usr u).ctexists = (s.usr u).ctexists → t.rt = s.rt →
        (t.usr u).atevents = (s.usr u).atevents.eraseP (fun e => (s.event e).cmd == fname) →
        Tables (if !(t.usr u).ctexists ∧ (t.usr u).atevents = [] then Crond.freeUsr u t else t) := by
      intro t ht hut hex hrt hat
      split
      next hnil =>
        have hfalse : (t.usr u).ctexists = false := Bool.not_eq_true' _ ▸ hnil.1
        apply ht.freeUsr hnil.2 (ht.no_ctab u hut (.inr hfalse))
        rw [hrt]
        exact hok u hfind (hex.symm.trans hfalse) (hat.symm.trans hnil.2)
      next => exact ht
    split
    next hnone =>
      apply hleave h hu rfl rfl
      apply Eq.symm
      apply eraseP_of_forall_not
      intro x hx hcmd
      exact absurd hcmd (List.find?_eq_none.mp hnone x hx)
    next e hfound =>
      have hmem : e ∈ (s.usr u).atevents := mem_of_find?_eq_some hfound
      have hself : (el_remove (s.event e).eventid true (Crond.unlinkAt u e { s with
          next_event := s.next_event.filter fun x => x != e })).usr u =
          { s.usr u with atevents := (s.usr u).atevents.erase e } := update_self _ _ _
      apply hleave (h.removed hu hmem) hu
      · rw [hself]
      · rfl
      · rw [hself]
        exact erase_find hfound

theorem Tables.handle (h : Tables s) {m : Message} (hok : MessageOk s m) : Tables (handle m s) := by
  cases m with
  | addAt a => exact h.mod_atjob hok
  | delAt fname logname => exact h.del_atjob hok
  | addCron c => exact h.mod_ctab hok
  | delCron fname => exact h.del_ctab hok
  | other => exact h

theorem Tables.message (h : Tables s) {m : Message} (hok : MessageOk s m) : Tables (message m s) := by
  have hm := h.handle hok
  unfold Crond.message
  dsimp only
  split
  · exact hm.idle false
  next e he => exact (hm.putBack he).idle false

end handlers

/-! ## Jobs -/

section jobs

variable {s t : Cron} {e : ℕ} {d : Dispatch}

theorem Tables.waited (h : Tables s) {pid : ℤ} (hpid : pid ∈ s.children) {o : Output}
    (hok : KeepsTables s (.wait pid o)) : Tables (waited pid o s) := by
  have hlen : s.running - 1 = (s.children.erase pid).length := by
    have hpos := length_pos_of_mem hpid
    rw [h.running, length_erase_of_mem hpid]
    omega
  have hlive {i : ℕ} {r : Runinfo} (hr : ¬Live r) (j : ℕ) (hj : Live (update s.rt i r j)) :
      (update s.rt i r j).rusr ∈ s.uhead := by
    by_cases hij : j = i
    · rw [hij, update_self] at hj
      exact absurd hj hr
    · rw [update_of_ne hij] at hj ⊢
      exact h.live j hj
  have hdead {r : Runinfo} (hz : r.pid = 0) : ¬Live r := fun hl => hl.1 hz
  unfold Crond.waited
  dsimp only
  split
  · exact h.run h.live hlen
  next i hi =>
    have hmem : i < MAXRUN := mem_range.mp (mem_of_find?_eq_some hi)
    have hslot : (s.rt i).pid = pid := beq_iff_eq.mp (List.find?_some (p := fun i => (s.rt i).pid == pid) hi)
    split
    · exact h.run (hlive (hdead rfl)) hlen
    next hque =>
      unfold cleanup
      dsimp only
      cases o with
      | quiet => exact h.run (hlive (hdead rfl)) hlen
      | closed pid' =>
        exact Tables.mail (h.run (hlive (hdead rfl)) hlen) pid'
      | mailed pid' =>
        cases pid' with
        | none => exact absurd rfl (hok i hmem hslot hque)
        | some pid' =>
          dsimp only
          rw [update_idem]
          apply h.run (hlive fun hl => hl.2 rfl)
          rw [Int.sub_add_cancel, h.running, Option.toList_some, singleton_append, length_cons,
            length_erase_of_mem hpid, Nat.sub_add_cancel (length_pos_of_mem hpid)]

theorem foldl_keeps {α : Type} {I : Cron → Prop} {f : Cron → α → Cron} {l : List α}
    (hf : ∀ s, I s → ∀ a ∈ l, I (f s a)) (h : I s) : I (l.foldl f s) := by
  induction l generalizing s with
  | nil => exact h
  | cons a l ih =>
    apply ih (fun s hs b hb => hf s hs b (mem_cons_of_mem a hb))
    exact hf s h a mem_cons_self

/-- Crontabs do not move the start of the event list. -/
theorem mod_ctab_init_time (c : Ctab) (s : Cron) : (mod_ctab c s).init_time = s.init_time := by
  have hmail (pid : Option ℤ) (s : Cron) : (mail pid s).init_time = s.init_time := by cases pid <;> rfl
  have hread (u : ℕ) (s : Cron) : (readcron u c.pid c.file s).init_time = s.init_time := by
    unfold readcron
    split
    · exact hmail _ _
    next lines _ =>
      apply foldl_keeps (I := fun t => t.init_time = s.init_time) _ rfl
      exact fun t ht l _ => (readline_usr u t l).2.1.trans ht
  unfold mod_ctab
  split
  · rfl
  split
  · exact hmail _ _
  split
  next => exact hread _ _
  next u hu =>
    dsimp only
    split
    · exact hread _ _
    · exact hread _ _

theorem Tables.initialized (h : Tables s) {d : Dirs} (hlive : ∀ i, ¬Live (s.rt i)) (hd : DirsOk d) :
    Tables (initialize_ d s) := by
  have hctabs := foldl_keeps (I := fun s => Tables s ∧ s.init_time = d.now) (f := fun s c => Crond.mod_ctab c s)
    (l := d.ctabs) (fun s hs c hc =>
      ⟨hs.1.mod_ctab (hs.2 ▸ hd.1 c hc), (mod_ctab_init_time c s).trans hs.2⟩) ⟨h.forget d.now hlive, rfl⟩
  exact foldl_keeps (fun s hs a ha => hs.mod_atjob (hd.2 a ha)) hctabs.1

/-- The job that is dispatched belongs to a user. -/
theorem Tables.next_usr (h : Tables s) (he : s.next_event = some e) : (s.event e).u ∈ s.uhead := by
  cases hat : isAt s e with
  | false => exact (h.crontab_usr (h.mem_crontab (next_queued he) hat)).1
  | true => exact (h.at_jobs.next_atevents he hat).1

theorem Tables.ex_run (h : Tables s) (he : s.next_event = some e) (hd : ¬Delayed d e s) : Tables (ex d e s) := by
  obtain ⟨i, pid, _, hex⟩ := Crond.ex_run hd
  rw [hex]
  apply h.run
  · intro j hj
    by_cases hij : j = i
    · rw [hij, update_self]
      exact h.next_usr he
    · rw [update_of_ne hij] at hj ⊢
      exact h.live j hj
  · rw [length_cons, h.running]
    rfl

/-- An event of a crontab is put on the list for its next time. -/
theorem Tables.again (h : Tables s) (he : s.next_event = some e) (hct : isAt s e = false) {time : ℤ}
    (htime : s.init_time ≤ time) :
    Tables { readd e (Crond.setTime e time s) with next_event := none, idle := false } :=
  ((h.setTime hct htime).putBack he).idle false

theorem Tables.expire (h : Tables s) (he : s.next_event = some e) (hok : DispatchOk s d e) :
    Tables (expire d e s) := by
  unfold DispatchOk at hok
  by_cases hct : (s.event e).etype = CRONEVENT
  · rw [if_pos hct] at hok
    obtain ⟨hagain, hnext, hwait⟩ := hok
    have hat := isAt_false_iff.mpr hct
    have htype {t : Cron} (htype : t.event = s.event) (time : ℤ) :
        ((readd e (Crond.setTime e time t)).event e).etype = CRONEVENT := by
      have hset : (readd e (Crond.setTime e time t)).event = (Crond.setTime e time t).event := by
        unfold readd el_add
        split <;> split <;> rfl
      rw [hset, Crond.setTime]
      dsimp only
      rw [update_self, htype]
      exact hct
    unfold Crond.expire
    dsimp only
    by_cases hd : Delayed d e s
    · obtain ⟨delay, hdelay, hex⟩ := ex_delayed hd
      have hpos : 0 ≤ delay := by
        rcases hdelay with rfl | rfl
        · exact hwait _
        · decide
      have htime := h.next_time he
      have hmin : s.init_time ≤
          if (s.event e).time + delay < d.again then (s.event e).time + delay else d.again := by
        split <;> omega
      rw [resched, if_pos hct] at hex
      rw [hex, if_pos (htype rfl _), if_pos hd]
      exact h.again he hat hmin
    · have hrun := h.ex_run he hd
      obtain ⟨i, pid, _, hex⟩ := Crond.ex_run hd
      have hevent : (ex d e s).event = s.event := by rw [hex]
      rw [if_pos (hevent ▸ hct), if_neg hd]
      have hnext' : (ex d e s).next_event = some e := by rw [hex]; exact he
      have hat' : isAt (ex d e s) e = false := by rw [isAt, hevent]; exact hat
      have hinit : (ex d e s).init_time = s.init_time := by rw [hex]
      exact hrun.again hnext' hat' (hinit ▸ hnext)
  · rw [if_neg hct] at hok
    have hat := isAt_iff.mpr hct
    obtain ⟨ht, hevent, hnext⟩ : Tables (ex d e s) ∧ (ex d e s).event e = s.event e ∧
        (ex d e s).next_event = some e := by
      by_cases hd : Delayed d e s
      · obtain ⟨delay, _, hex⟩ := ex_delayed hd
        rw [resched, if_neg hct] at hex
        rw [hex]
        refine ⟨h.add_atevent (h.next_usr he) (hok hd), add_atevent_event (h.at_jobs.next_lt e he), ?_⟩
        rw [add_atevent_eq]
        exact he
      · have hrun := h.ex_run he hd
        obtain ⟨i, pid, _, hex⟩ := Crond.ex_run hd
        rw [hex] at hrun ⊢
        exact ⟨hrun, rfl, he⟩
    have hat' : isAt (ex d e s) e = true := by rw [isAt, hevent]; exact hat
    unfold Crond.expire
    dsimp only
    rw [if_neg (isAt_iff.mp hat')]
    exact ht.done hnext hat'

end jobs

/-! ## Runs -/

/-- What users, events, jobs and children have to do with each other -/
structure Consistent (s : Cron) : Prop where
  jobs : ∀ i < MAXRUN, Live (s.rt i) → (s.rt i).rusr ∈ s.uhead
  events : ∀ u ∈ s.uhead, ∀ e ∈ (s.usr u).ctevents ++ (s.usr u).atevents,
    (s.el.map Notice.event).count e = 1 ∨ s.next_event = some e
  list : ∀ n ∈ s.el, (s.event n.event).u ∈ s.uhead
  running : s.running = s.children.length

section runs

variable {s t : Cron} {a : Act}

theorem Tables.step (h : Tables s) (hs : Step s a t) (hok : KeepsTables s a) : Tables t := by
  have heq := hs.eq
  cases a with
  | loop =>
    obtain rfl : t = Crond.pick s := heq
    exact h.pick
  | reset d =>
    obtain rfl : t = Crond.pick (initialize_ d s) := heq
    exact (h.initialized hok.1 hok.2).pick
  | wait pid o =>
    obtain ⟨hpid, rfl⟩ : pid ∈ s.children ∧ t = Crond.waited pid o s := heq
    exact h.waited hpid hok
  | message m =>
    obtain rfl : t = Crond.message m s := heq
    exact h.message hok
  | interrupt =>
    obtain rfl : t = { s with idle := false } := heq
    exact h.idle false
  | expire d =>
    obtain ⟨e, he, rfl⟩ : ∃ e, s.next_event = some e ∧ t = Crond.expire d e s := heq
    exact h.expire he (hok e he)

theorem Tables.empty : Tables empty where
  at_jobs := .empty
  at_events := nofun
  owner := nofun
  nodup := nodup_nil
  listed := List.Perm.refl _
  notice := nofun
  no_ctab := nofun
  ctid_inj := nofun
  live := fun _ hi => absurd rfl hi.1
  running := rfl

end runs

end Svr3.Crond
