import Svr3.Cmd.CronQueue

/-!
# Delayed at jobs

A dispatch that finds a limit reached or no child puts an at job back under `jobtype`. The queues of all jobs
stay right just if `jobtype` is right then.
-/

namespace Svr3.Crond

open List

/-! ## Dispatches -/

section dispatch

variable {s t : Cron} {e : ℕ} {d : Dispatch}

theorem ex_delayed (h : Delayed d e s) : ∃ delay, (delay = d.nwait (s.event e).etype ∨ delay = waitTime) ∧
    ex d e s = resched e delay d.again s := by
  unfold ex
  split
  · exact ⟨_, .inl rfl, rfl⟩
  split
  · exact ⟨_, .inl rfl, rfl⟩
  next i hi =>
    split
    next => exact ⟨_, .inr rfl, rfl⟩
    next pid hpid =>
      have hno : ¬Delayed d e s := by
        rintro (hlim | hslot | hfork)
        · contradiction
        · exact absurd (hi.symm.trans hslot) nofun
        · exact absurd (hpid.symm.trans hfork) nofun
      exact absurd h hno

theorem ex_run (h : ¬Delayed d e s) : ∃ i pid, freeSlot s = some i ∧ ex d e s = { s with
    nrun := Function.update s.nrun (s.event e).etype (s.nrun (s.event e).etype + 1)
    running := s.running + 1
    children := pid :: s.children
    rt := Function.update s.rt i ⟨pid, (s.event e).etype, (s.event e).u⟩ } := by
  unfold ex
  split
  next hlim => exact absurd (.inl hlim) h
  split
  next hslot => exact absurd (.inr (.inl hslot)) h
  next i hi =>
    split
    next hfork => exact absurd (.inr (.inr hfork)) h
    next pid _ => exact ⟨i, pid, hi, rfl⟩

theorem Carries.setTime (h : AtInv s) (hct : isAt s e = false) (time : ℤ) :
    Carries s (setTime e time s) := by
  have hevent (x : ℕ) : ((Crond.setTime e time s).event x).etype = (s.event x).etype ∧
      ((Crond.setTime e time s).event x).eventid = (s.event x).eventid ∧
      ((Crond.setTime e time s).event x).u = (s.event x).u ∧
      ((Crond.setTime e time s).event x).cmd = (s.event x).cmd ∧
      (isAt s x = true → ((Crond.setTime e time s).event x).time = (s.event x).time) := by
    unfold Crond.setTime
    dsimp only
    by_cases hx : x = e
    · rw [hx, Function.update_self]
      exact ⟨rfl, rfl, rfl, rfl, fun hat => absurd (hct.symm.trans hat) nofun⟩
    · rw [Function.update_of_ne hx]
      exact ⟨rfl, rfl, rfl, rfl, fun _ => rfl⟩
  have hat : isAt (Crond.setTime e time s) = isAt s := by
    funext x
    rw [isAt, (hevent x).1, isAt]
  refine { Carries.refl h with
    event := fun x _ => ?_, notes := ?_, own := fun n hn _ => .inl hn, other := fun n hn _ => .inl hn }
  · obtain ⟨htype, hid, hu, hcmd, htime⟩ := hevent x
    exact ⟨hu, htype, hid, hcmd, htime⟩
  · rw [hat]
    exact List.Perm.refl _

theorem AtInv.next_atevents (h : AtInv s) (he : s.next_event = some e) (hat : isAt s e = true) :
    (s.event e).u ∈ s.uhead ∧ e ∈ (s.usr (s.event e).u).atevents := by
  obtain ⟨u, hu, hmem⟩ := mem_holdings.mp (h.next_pending he hat)
  rw [(h.owner u hu e hmem).1]
  exact ⟨hu, hmem⟩

/-- The job that is the next event is removed. -/
theorem Keeps.done (h : AtInv s) (he : s.next_event = some e) (hat : isAt s e = true) :
    Keeps s { Crond.unlinkAt (s.event e).u e s with next_event := none, idle := false } := by
  obtain ⟨hu, hmem⟩ := h.next_atevents he hat
  have hgone := Keeps.unlinkAt h hu hmem s.el none (fun n hn => hn) (by rintro _ ⟨⟩) (by
    have hnodup := h.queued_nodup
    rw [queued, he, Option.toList_some, filter_append] at hnodup
    rw [Option.toList_none, append_nil, queued, he, Option.toList_some, filter_append, filter_append]
    have hlast : [e].filter (isAt s) = [e] := filter_cons_of_pos hat
    rw [hlast] at hnodup ⊢
    have hout : e ∉ (s.el.map Notice.event).filter (isAt s) := fun hc =>
      (nodup_append.mp hnodup).2.2 e hc e mem_cons_self rfl
    have hself : ¬(e != e) = true := by rw [bne_self_eq_false]; rintro ⟨⟩
    rw [filter_cons_of_neg (p := (· != e)) hself, filter_nil, append_nil]
    apply Eq.symm
    apply filter_eq_self.mpr
    intro x hx
    exact bne_iff_ne.mpr (ne_of_mem_of_not_mem hx hout))
  exact hgone.trans (Carries.keeps hgone.inv (.run hgone.inv))

/-- An event of a crontab is dispatched. -/
theorem Carries.expire (h : AtInv s) (he : s.next_event = some e) (hct : (s.event e).etype = CRONEVENT) :
    Carries s (expire d e s) := by
  have hlt := h.next_lt e he
  have hreadd {t : Cron} (hc : Carries s t) (time : ℤ) : Carries s (Crond.readd e (Crond.setTime e time t)) := by
    have hinv := h.carry hc
    have hfalse : isAt t e = false := (hc.isAt_eq hlt).trans (isAt_false_iff.mpr hct)
    have hset := hc.trans h (.setTime hinv hfalse time)
    have hinv' := h.carry hset
    have hct' := isAt_false_iff.mp ((hset.isAt_eq hlt).trans (isAt_false_iff.mpr hct))
    exact hset.trans h (.readd hinv' (Nat.lt_of_lt_of_le hlt hset.brk) hct')
  have hnext {t : Cron} (time : ℤ) : (Crond.readd e (Crond.setTime e time t)).next_event = t.next_event := by
    unfold Crond.readd
    split
    · obtain ⟨l, hl, _⟩ := el_add_eq e ((Crond.setTime e time t).event e).time
        ((Crond.setTime e time t).usr ((Crond.setTime e time t).event e).u).ctid (Crond.setTime e time t)
      rw [hl]
      rfl
    · obtain ⟨l, hl, _⟩ := el_add_eq e ((Crond.setTime e time t).event e).time
        ((Crond.setTime e time t).event e).eventid (Crond.setTime e time t)
      rw [hl]
      rfl
  have hforget {t : Cron} (hc : Carries s t) (hn : t.next_event = s.next_event) :
      Carries s { t with next_event := none, idle := false } := by
    have hinv := h.carry hc
    have hclear := hc.trans h (.clear hinv (by
      intro x hx
      rw [hn, he] at hx
      obtain rfl := Option.some.inj hx
      exact (hc.isAt_eq hlt).trans (isAt_false_iff.mpr hct)))
    exact hclear.trans h (.run (h.carry hclear))
  unfold Crond.expire
  dsimp only
  by_cases hd : Delayed d e s
  · obtain ⟨delay, _, hex⟩ := ex_delayed hd
    rw [resched, if_pos hct] at hex
    rw [hex]
    have hc := hreadd (.refl h) (if (s.event e).time + delay < d.again then (s.event e).time + delay else d.again)
    have htype := (hc.event e hlt).2.1.trans hct
    rw [if_pos htype, if_pos hd]
    exact hforget hc (hnext _)
  · obtain ⟨i, pid, _, hex⟩ := ex_run hd
    have hc : Carries s (ex d e s) := by
      rw [hex]
      exact .run h
    have htype := (hc.event e hlt).2.1.trans hct
    rw [if_pos htype, if_neg hd]
    have hsame : (ex d e s).next_event = s.next_event := by rw [hex]
    exact hforget (hreadd hc d.next) ((hnext d.next).trans hsame)

/-- A delayed at job is added again, as one of the queue `jobtype`. -/
theorem expire_delayed (h : AtInv s) (he : s.next_event = some e) (hat : isAt s e = true)
    (hd : Delayed d e s) : AtInv (expire d e s) ∧
    (Kept s → (Kept (expire d e s) ↔ s.jobtype = (s.event e).etype)) := by
  have hlt := h.next_lt e he
  have hpend := h.next_pending he hat
  obtain ⟨hu, _⟩ := h.next_atevents he hat
  obtain ⟨delay, _, hex⟩ := ex_delayed hd
  rw [resched, if_neg (isAt_iff.mp hat)] at hex
  have hadd := h.add_atevent (s.event e).cmd ((s.event e).time + delay) hu
  have hkept := add_atevent_kept (s.event e).cmd ((s.event e).time + delay) h hu
  rw [← hex] at hadd hkept
  have hevent : (ex d e s).event e = s.event e := by rw [hex, add_atevent_event hlt]
  have hnext : (ex d e s).next_event = some e := by rw [hex, add_atevent_eq]; exact he
  have hat' : isAt (ex d e s) e = true := by rw [isAt, hevent]; exact hat
  have hexp : expire d e s = { unlinkAt ((ex d e s).event e).u e (ex d e s) with
      next_event := none, idle := false } := by
    have hneg : ¬((ex d e s).event e).etype = CRONEVENT := isAt_iff.mp hat'
    rw [expire, if_neg hneg]
  have hdone := Keeps.done hadd hnext hat'
  rw [hexp]
  refine ⟨hdone.inv, fun hk => ⟨fun hk' => ?_, fun hjob => hdone.kept (hkept.mpr ⟨?_, hk⟩)⟩⟩
  · obtain ⟨hu', hmem'⟩ := hadd.next_atevents hnext hat'
    have hperm := pending_unlinkAt hadd.uhead_nodup hu' hmem'
    have hnew : s.brk ∈ pending (unlinkAt ((ex d e s).event e).u e (ex d e s)) := by
      apply hperm.mem_iff.mpr
      apply (mem_erase_of_ne (Nat.ne_of_gt hlt)).mpr
      rw [hex]
      exact (add_atevent_pending _ _ h hu).mem_iff.mpr mem_cons_self
    have hqueue := hk' s.brk hnew
    change queueOf ((ex d e s).event s.brk).cmd = some ((ex d e s).event s.brk).etype at hqueue
    rw [hex, add_atevent_new] at hqueue
    exact Option.some.inj (hqueue.symm.trans (hk e hpend))
  · rw [hjob]
    exact hk e hpend

/-- A job that is run leaves the others as they are. -/
theorem Keeps.expire_run (h : AtInv s) (he : s.next_event = some e) (hat : isAt s e = true)
    (hd : ¬Delayed d e s) : Keeps s (expire d e s) := by
  obtain ⟨i, pid, _, hex⟩ := ex_run hd
  have hc : Carries s (ex d e s) := by
    rw [hex]
    exact .run h
  have hinv := h.carry hc
  have hnext : (ex d e s).next_event = some e := by rw [hex]; exact he
  have hat' : isAt (ex d e s) e = true := (hc.isAt_eq (h.next_lt e he)).trans hat
  have hneg : ¬((ex d e s).event e).etype = CRONEVENT := isAt_iff.mp hat'
  have hexp : expire d e s = { Crond.unlinkAt ((ex d e s).event e).u e (ex d e s) with
      next_event := none, idle := false } := by
    rw [expire, if_neg hneg]
  rw [hexp]
  exact (Carries.keeps h hc).trans (.done hinv hnext hat')

end dispatch

/-! ## Runs -/

/-- If the dispatch of an at job is delayed, then `jobtype` is its queue. -/
def KeepsQueue (s : Cron) : Act → Prop
  | .expire d => ∀ e, s.next_event = some e → (s.event e).etype ≠ CRONEVENT → Delayed d e s →
      s.jobtype = (s.event e).etype
  | _ => True

section runs

variable {s t : Cron} {a : Act}

theorem Keeps.step (h : Keeps s t) : AtInv t ∧ (Kept s → (Kept t ↔ True)) :=
  ⟨h.inv, fun hk => iff_true_intro (h.kept hk)⟩

/-- What a step does -/
theorem Step.eq (h : Step s a t) :
    match a with
    | .loop => t = pick s
    | .reset d => t = pick (initialize_ d s)
    | .wait pid o => pid ∈ s.children ∧ t = waited pid o s
    | .message m => t = message m s
    | .interrupt => t = { s with idle := false }
    | .expire d => ∃ e, s.next_event = some e ∧ t = expire d e s := by
  unfold Step Crond.step at h
  cases a with
  | loop => exact (Option.some.inj (Option.ite_none_left_eq_some.mp h).2).symm
  | reset d => exact (Option.some.inj (Option.ite_none_left_eq_some.mp h).2).symm
  | wait pid o =>
    obtain ⟨hpid, ht⟩ := Option.ite_none_right_eq_some.mp h
    exact ⟨hpid.2, (Option.some.inj ht).symm⟩
  | message m => exact (Option.some.inj (Option.ite_none_right_eq_some.mp h).2).symm
  | interrupt => exact (Option.some.inj (Option.ite_none_right_eq_some.mp h).2).symm
  | expire d =>
    dsimp only at h
    split at h
    next e _ he => exact ⟨e, he, (Option.some.inj h).symm⟩
    next => exact absurd h nofun

theorem expire_keeps {e : ℕ} {d : Dispatch} (h : AtInv s) (he : s.next_event = some e) :
    AtInv (expire d e s) ∧ (Kept s → (Kept (expire d e s) ↔ KeepsQueue s (.expire d))) := by
  have hcond : KeepsQueue s (.expire d) ↔
      ((s.event e).etype ≠ CRONEVENT → Delayed d e s → s.jobtype = (s.event e).etype) := by
    constructor
    · exact fun hk => hk e he
    · intro hk x hx
      obtain rfl := Option.some.inj (he.symm.trans hx)
      exact hk
  by_cases hct : (s.event e).etype = CRONEVENT
  · have hkeep := Carries.keeps h (.expire (d := d) h he hct)
    exact ⟨hkeep.inv, fun hk => iff_of_true (hkeep.kept hk) (hcond.mpr fun hne => absurd hct hne)⟩
  · have hat := isAt_iff.mpr hct
    by_cases hd : Delayed d e s
    · obtain ⟨hinv, hiff⟩ := expire_delayed h he hat hd
      refine ⟨hinv, fun hk => (hiff hk).trans (Iff.trans ?_ hcond.symm)⟩
      exact ⟨fun hjob _ _ => hjob, fun hjob => hjob hct hd⟩
    · have hkeep := Keeps.expire_run h he hat hd
      exact ⟨hkeep.inv, fun hk => iff_of_true (hkeep.kept hk) (hcond.mpr fun _ hc => absurd hc hd)⟩

theorem step_keeps (h : AtInv s) (hs : Step s a t) : AtInv t ∧ (Kept s → (Kept t ↔ KeepsQueue s a)) := by
  have heq := hs.eq
  cases a with
  | loop =>
    obtain rfl : t = pick s := heq
    exact (Carries.keeps h (.pick h)).step
  | reset d =>
    obtain rfl : t = pick (initialize_ d s) := heq
    have hkeep := Keeps.initialized h d
    exact (hkeep.trans (Carries.keeps hkeep.inv (.pick hkeep.inv))).step
  | wait pid o =>
    obtain ⟨_, rfl⟩ : _ ∧ t = waited pid o s := heq
    exact (Carries.keeps h (.waited h pid o)).step
  | message m =>
    obtain rfl : t = message m s := heq
    exact (Keeps.message h m).step
  | interrupt =>
    obtain rfl : t = { s with idle := false } := heq
    exact (Carries.keeps h (.run h)).step
  | expire d =>
    obtain ⟨e, he, rfl⟩ : ∃ e, s.next_event = some e ∧ t = expire d e s := heq
    exact expire_keeps h he

end runs

/-- In every run, the at jobs keep their queues just if each delayed dispatch meets the condition. -/
theorem at_jobs_keep_queue (d : Dirs) (as : List Act) :
    (∀ b t, b <+: as → Run Step (start d) b t → Kept t) ↔
      ∀ b a t u, b ++ [a] <+: as → Run Step (start d) b t → Step t a u → KeepsQueue t a :=
  Run.prefix_iff (start_keeps d).inv ((start_keeps d).kept nofun) (fun _ _ _ h hs => step_keeps h hs) as

/-- A job of queue `a` is next when one of queue `b` comes, and its dispatch finds that `fork` fails. -/
theorem job_changes_queue : ¬∀ d as s, Run Step (start d) as s → Kept s := by
  intro h
  have hchanged : (List.foldlM step (start ⟨1, [], [⟨['2', '.', 'a'], true, true, some ['u']⟩]⟩)
      [.loop, .message (.addAt ⟨['9', '.', 'b'], true, true, some ['u']⟩), .loop,
        .expire ⟨fun _ => 100, fun _ => 60, none, 0, 0⟩]).any
      (fun s => (pending s).any fun e => queueOf (s.event e).cmd != some (s.event e).etype) = true := by
    decide +kernel
  obtain ⟨s, hrun, hs⟩ := Run.of_foldlM hchanged
  obtain ⟨e, he, hne⟩ := any_eq_true.mp hs
  exact bne_iff_ne.mp hne (h _ _ s hrun e he)

end Svr3.Crond
