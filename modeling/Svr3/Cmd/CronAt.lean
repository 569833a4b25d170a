import Svr3.Cmd.Cron
import Svr3.Lib.Holdings
import Svr3.Lib.Run

/-!
# The at jobs of cron

Every pending at job has one notice on the event list, under its own `eventid`, or is the next event, as long
as its queue is not the one of the crontabs. This holds in all runs.
-/

namespace Svr3.Crond

open Function List

/-- The event is not dispatched as one of a crontab. -/
def isAt (s : Cron) (e : ℕ) : Bool := (s.event e).etype != CRONEVENT

/-- The at jobs of all users -/
def pending (s : Cron) : List ℕ := holdings s.uhead fun u => (s.usr u).atevents

/-- The events on the list, and the next one -/
def queued (s : Cron) : List ℕ := s.el.map Notice.event ++ s.next_event.toList

structure AtInv (s : Cron) : Prop where
  uhead_nodup : s.uhead.Nodup
  usr_lt : ∀ u ∈ s.uhead, u < s.brk
  owner : ∀ u ∈ s.uhead, ∀ e ∈ (s.usr u).atevents, (s.event e).u = u ∧ e < s.brk
  eventid : ∀ e ∈ pending s, 0 < (s.event e).eventid ∧ (s.event e).eventid < s.ecid ∧
    (isAt s e = true → s.init_time ≤ (s.event e).time)
  ids : ((pending s).map fun e => (s.event e).eventid).Nodup
  ctid : ∀ u, (s.usr u).ctid < s.ecid ∧ ∀ e ∈ pending s, (s.usr u).ctid ≠ (s.event e).eventid
  listed : ((queued s).filter (isAt s)).Perm ((pending s).filter (isAt s))
  notice : ∀ n ∈ s.el, n.event < s.brk ∧ n.id < s.ecid
  own : ∀ n ∈ s.el, isAt s n.event = true → n.id = (s.event n.event).eventid
  other : ∀ n ∈ s.el, isAt s n.event = false → ∀ e ∈ pending s, isAt s e = true → n.id ≠ (s.event e).eventid
  next_lt : ∀ e, s.next_event = some e → e < s.brk
  ecid_pos : 0 < s.ecid

/-! ## The event list -/

section list

variable {s : Cron} {e id : ℕ} {time : ℤ} {n m : Notice} {l : List Notice} {flag : Bool}

theorem insertNotice_perm (n : Notice) (l : List Notice) : (insertNotice n l).Perm (n :: l) := by
  induction l with
  | nil => exact List.Perm.refl _
  | cons m l ih =>
    rw [insertNotice]
    split
    · exact List.Perm.refl _
    · exact (ih.cons m).trans (List.Perm.swap n m l)

theorem mem_insertNotice : m ∈ insertNotice n l ↔ m = n ∨ m ∈ l :=
  (insertNotice_perm n l).mem_iff.trans mem_cons

/-- Nothing but the list changes. -/
theorem el_add_eq (e : ℕ) (time : ℤ) (id : ℕ) (s : Cron) : ∃ l, el_add e time id s = { s with el := l } ∧
    (l = s.el ∧ time < s.init_time ∨ l = insertNotice ⟨e, time, id⟩ s.el ∧ s.init_time ≤ time) := by
  unfold el_add
  split
  next hlt => exact ⟨s.el, rfl, .inl ⟨rfl, hlt⟩⟩
  next hle => exact ⟨_, rfl, .inr ⟨rfl, Int.not_lt.mp hle⟩⟩

/-- The list without the notices of crontabs loses none of them that has another `id`. -/
theorem filter_removed {p : ℕ → Bool} {rm : List Notice → List Notice}
    (hrm : rm = List.filter (fun n => n.id != id) ∨ rm = List.eraseP fun n => n.id == id)
    (h : ∀ n ∈ l, p n.event = true → n.id ≠ id) :
    ((rm l).map Notice.event).filter p = (l.map Notice.event).filter p := by
  rw [filter_map, filter_map]
  congr 1
  rcases hrm with rfl | rfl
  · rw [filter_filter]
    apply filter_congr
    intro n hn
    by_cases hp : p n.event = true
    · simp [hp, h n hn hp]
    · simp [hp]
  · induction l with
    | nil => rfl
    | cons n l ih =>
      by_cases hid : n.id = id
      · have hp : ¬(p ∘ Notice.event) n = true := fun hp => h n mem_cons_self hp hid
        have hdrop : (n :: l).eraseP (fun n => n.id == id) = l := by simp [hid]
        rw [hdrop, filter_cons_of_neg hp]
      · have hkeep : (n :: l).eraseP (fun n => n.id == id) = n :: l.eraseP fun n => n.id == id := by
          simp [hid]
        rw [hkeep]
        have hrest := ih fun m hm => h m (mem_cons_of_mem n hm)
        rw [filter_cons, filter_cons, hrest]

end list

/-! ## Steps that leave the at jobs as they are -/

section carry

variable {s t : Cron}

/-- The at jobs and their users are the same, and so are the notices for them. -/
structure Carries (s t : Cron) : Prop where
  uhead : t.uhead = s.uhead
  atevents : ∀ u, (t.usr u).atevents = (s.usr u).atevents
  event : ∀ e < s.brk, (t.event e).u = (s.event e).u ∧ (t.event e).etype = (s.event e).etype ∧
    (t.event e).eventid = (s.event e).eventid ∧ (t.event e).cmd = (s.event e).cmd ∧
    (isAt s e = true → (t.event e).time = (s.event e).time)
  brk : s.brk ≤ t.brk
  ecid : s.ecid ≤ t.ecid
  init_time : t.init_time = s.init_time
  ctid : ∀ u, (t.usr u).ctid = (s.usr u).ctid ∨ (t.usr u).ctid = 0 ∨
    (s.ecid ≤ (t.usr u).ctid ∧ (t.usr u).ctid < t.ecid)
  notes : ((queued t).filter (isAt t)).Perm ((queued s).filter (isAt s))
  notice : ∀ n ∈ t.el, n.event < t.brk ∧ n.id < t.ecid
  own : ∀ n ∈ t.el, isAt t n.event = true → n ∈ s.el ∨ n.id = (t.event n.event).eventid
  other : ∀ n ∈ t.el, isAt t n.event = false → n ∈ s.el ∨
    ∀ e ∈ pending s, isAt s e = true → n.id ≠ (s.event e).eventid
  next_lt : ∀ e, t.next_event = some e → e < t.brk

theorem Carries.refl (h : AtInv s) : Carries s s where
  uhead := rfl
  atevents _ := rfl
  event _ _ := ⟨rfl, rfl, rfl, rfl, fun _ => rfl⟩
  brk := Nat.le_refl _
  ecid := Nat.le_refl _
  init_time := rfl
  ctid _ := .inl rfl
  notes := List.Perm.refl _
  notice := h.notice
  own _ hn _ := .inl hn
  other _ hn _ := .inl hn
  next_lt := h.next_lt

theorem Carries.pending_eq (h : Carries s t) : pending t = pending s := by
  unfold pending
  rw [h.uhead]
  congr 1
  funext u
  exact h.atevents u

theorem AtInv.pending_lt (h : AtInv s) {e : ℕ} (he : e ∈ pending s) : e < s.brk := by
  obtain ⟨u, hu, hmem⟩ := mem_holdings.mp he
  exact (h.owner u hu e hmem).2

theorem Carries.isAt_eq (h : Carries s t) {e : ℕ} (he : e < s.brk) : isAt t e = isAt s e := by
  unfold isAt
  rw [(h.event e he).2.1]

theorem AtInv.carry (h : AtInv s) (hc : Carries s t) : AtInv t := by
  have hpend := hc.pending_eq
  refine ⟨hc.uhead ▸ h.uhead_nodup, fun u hu => Nat.lt_of_lt_of_le (h.usr_lt u (hc.uhead ▸ hu)) hc.brk,
    fun u hu e he => ?_, fun e he => ?_, ?_, fun u => ⟨?_, fun e he => ?_⟩, ?_, hc.notice, fun n hn hat => ?_,
    fun n hn hct e he hat => ?_, hc.next_lt, Nat.lt_of_lt_of_le h.ecid_pos hc.ecid⟩
  · rw [hc.atevents u] at he
    obtain ⟨hu', hlt⟩ := h.owner u (hc.uhead ▸ hu) e he
    exact ⟨(hc.event e hlt).1.trans hu', Nat.lt_of_lt_of_le hlt hc.brk⟩
  · rw [hpend] at he
    obtain ⟨_, _, hid, _, htime⟩ := hc.event e (h.pending_lt he)
    obtain ⟨hpos, hlt, hinit⟩ := h.eventid e he
    rw [hid, hc.init_time]
    refine ⟨hpos, Nat.lt_of_lt_of_le hlt hc.ecid, fun hat => ?_⟩
    rw [hc.isAt_eq (h.pending_lt he)] at hat
    rw [htime hat]
    exact hinit hat
  · rw [hpend]
    have hsame : (pending s).map (fun e => (t.event e).eventid) =
        (pending s).map fun e => (s.event e).eventid :=
      map_congr_left fun e he => (hc.event e (h.pending_lt he)).2.2.1
    rw [hsame]
    exact h.ids
  · rcases hc.ctid u with heq | hz | ⟨_, hnew⟩
    · rw [heq]
      exact Nat.lt_of_lt_of_le (h.ctid u).1 hc.ecid
    · rw [hz]
      exact Nat.lt_of_lt_of_le h.ecid_pos hc.ecid
    · exact hnew
  · rw [hpend] at he
    rw [(hc.event e (h.pending_lt he)).2.2.1]
    obtain ⟨hpos, hlt, _⟩ := h.eventid e he
    rcases hc.ctid u with heq | hz | ⟨hle, _⟩
    · rw [heq]
      exact (h.ctid u).2 e he
    · rw [hz]
      exact Nat.ne_of_lt hpos
    · exact Nat.ne_of_gt (Nat.lt_of_lt_of_le hlt hle)
  · rw [hpend]
    have hsame : (pending s).filter (isAt t) = (pending s).filter (isAt s) :=
      filter_congr fun e he => hc.isAt_eq (h.pending_lt he)
    rw [hsame]
    exact hc.notes.trans h.listed
  · rcases hc.own n hn hat with hold | hnew
    · have hlt := (h.notice n hold).1
      rw [hc.isAt_eq hlt] at hat
      rw [(hc.event n.event hlt).2.2.1]
      exact h.own n hold hat
    · exact hnew
  · rw [hpend] at he
    have hlt := h.pending_lt he
    rw [hc.isAt_eq hlt] at hat
    rw [(hc.event e hlt).2.2.1]
    rcases hc.other n hn hct with hold | hnew
    · exact h.other n hold ((hc.isAt_eq (h.notice n hold).1).symm.trans hct) e he hat
    · exact hnew e he hat

theorem Carries.trans {r : Cron} (hr : AtInv r) (h : Carries r s) (h' : Carries s t) : Carries r t where
  uhead := h'.uhead.trans h.uhead
  atevents u := (h'.atevents u).trans (h.atevents u)
  event e he := by
    obtain ⟨hu, htype, hid, hcmd, htime⟩ := h.event e he
    obtain ⟨hu', htype', hid', hcmd', htime'⟩ := h'.event e (Nat.lt_of_lt_of_le he h.brk)
    refine ⟨hu'.trans hu, htype'.trans htype, hid'.trans hid, hcmd'.trans hcmd, fun hat => ?_⟩
    exact (htime' ((h.isAt_eq he).trans hat)).trans (htime hat)
  brk := Nat.le_trans h.brk h'.brk
  ecid := Nat.le_trans h.ecid h'.ecid
  init_time := h'.init_time.trans h.init_time
  ctid u := by
    rcases h'.ctid u with heq | hz | ⟨hle, hlt⟩
    · rcases h.ctid u with heq' | hz | ⟨hle, hlt⟩
      · exact .inl (heq.trans heq')
      · exact .inr (.inl (heq.trans hz))
      · exact .inr (.inr (heq ▸ ⟨hle, Nat.lt_of_lt_of_le hlt h'.ecid⟩))
    · exact .inr (.inl hz)
    · exact .inr (.inr ⟨Nat.le_trans h.ecid hle, hlt⟩)
  notes := h'.notes.trans h.notes
  notice := h'.notice
  own n hn hat := by
    rcases h'.own n hn hat with hold | hnew
    · have hlt := (h.notice n hold).1
      rcases h.own n hold ((h'.isAt_eq hlt).symm.trans hat) with hold' | hid'
      · exact .inl hold'
      · exact .inr (hid'.trans (h'.event n.event hlt).2.2.1.symm)
    · exact .inr hnew
  other n hn hct := by
    rcases h'.other n hn hct with hold | hnew
    · exact h.other n hold ((h'.isAt_eq (h.notice n hold).1).symm.trans hct)
    · refine .inr fun e he hat => ?_
      have hlt := hr.pending_lt he
      rw [← (h.event e hlt).2.2.1]
      exact hnew e (h.pending_eq.symm ▸ he) ((h.isAt_eq hlt).trans hat)
  next_lt := h'.next_lt

end carry

/-! ## Crontabs -/

section crontabs

variable {s t : Cron} {u e : ℕ} {pid : Option ℤ} {name : List Char}

theorem Carries.mail (h : AtInv s) : Carries s (mail pid s) := by
  unfold Crond.mail
  split
  · exact .refl h
  · exact { Carries.refl h with }

/-- The fields of a user other than the at jobs may change. -/
theorem Carries.usr (h : AtInv s) {v : Usr} {ecid : ℕ} (hecid : s.ecid ≤ ecid)
    (hat : v.atevents = (s.usr u).atevents) (hctid : v.ctid = (s.usr u).ctid ∨ v.ctid = 0 ∨
      (s.ecid ≤ v.ctid ∧ v.ctid < ecid)) :
    Carries s { s with ecid := ecid, usr := update s.usr u v } :=
  { Carries.refl h with
    atevents := fun x => by
      by_cases hx : x = u
      · change (update s.usr u v x).atevents = _
        rw [hx, update_self]
        exact hat
      · change (update s.usr u v x).atevents = _
        rw [update_of_ne hx]
    ecid := hecid
    notice := fun n hn => ⟨(h.notice n hn).1, Nat.lt_of_lt_of_le (h.notice n hn).2 hecid⟩
    ctid := fun x => by
      change (update s.usr u v x).ctid = _ ∨ (update s.usr u v x).ctid = _ ∨
        s.ecid ≤ (update s.usr u v x).ctid ∧ (update s.usr u v x).ctid < ecid
      by_cases hx : x = u
      · rw [hx, update_self]
        exact hctid
      · rw [update_of_ne hx]
        exact .inl rfl }

theorem Carries.rm_ctevents (h : AtInv s) : Carries s (rm_ctevents u s) := by
  have husr := Carries.usr (u := u) (v := { s.usr u with ctevents := [] }) h (Nat.le_refl _) rfl (.inl rfl)
  refine { husr with notes := ?_, next_lt := ?_ }
  · have hsame : ((s.next_event.filter fun e => !((s.event e).etype == CRONEVENT && (s.event e).u == u)).toList.filter
        (isAt s)) = s.next_event.toList.filter (isAt s) := by
      cases hnext : s.next_event with
      | none => rfl
      | some e =>
        cases hc : (s.event e).etype == CRONEVENT && (s.event e).u == u with
        | false =>
          rw [Option.filter_some, hc]
          rfl
        | true =>
          have hat : ¬isAt s e = true := by
            rw [isAt, bne, (Bool.and_eq_true_iff.mp hc).1]
            exact nofun
          rw [Option.filter_some, hc, Option.toList_some, filter_cons_of_neg hat]
          rfl
    change List.Perm ((s.el.map Notice.event ++ (s.next_event.filter fun e =>
      !((s.event e).etype == CRONEVENT && (s.event e).u == u)).toList).filter (isAt s)) _
    rw [filter_append, hsame, ← filter_append]
    exact List.Perm.refl _
  · intro e he
    exact h.next_lt e (Option.filter_eq_some_iff.mp he).1

theorem AtInv.mem_pending (h : AtInv s) {n : Notice} (hn : n ∈ s.el) (hat : isAt s n.event = true) :
    n.event ∈ pending s := by
  have hq : n.event ∈ (queued s).filter (isAt s) :=
    mem_filter.mpr ⟨mem_append_left _ (mem_map_of_mem hn), hat⟩
  exact (mem_filter.mp (h.listed.mem_iff.mp hq)).1

/-- Notices with the `id` of a user's crontab are removed. -/
theorem Carries.el_remove (h : AtInv s) (u : ℕ) : Carries s (el_remove (s.usr u).ctid false s) := by
  have hmem {n : Notice} (hn : n ∈ s.el.filter fun n => n.id != (s.usr u).ctid) : n ∈ s.el :=
    (mem_filter.mp hn).1
  refine { Carries.refl h with notes := ?_, notice := ?_, own := ?_, other := ?_ }
  · change List.Perm (((s.el.filter fun n => n.id != (s.usr u).ctid).map Notice.event ++
      s.next_event.toList).filter (isAt s)) _
    rw [filter_append, filter_removed (p := isAt s) (.inl rfl), ← filter_append]
    · exact List.Perm.refl _
    · intro n hn hat hid
      exact (h.ctid u).2 n.event (h.mem_pending hn hat) (hid.symm.trans (h.own n hn hat))
  · exact fun n hn => h.notice n (hmem hn)
  · exact fun n hn _ => .inl (hmem hn)
  · exact fun n hn _ => .inl (hmem hn)

/-- A notice for an event of a crontab may come to the list. -/
theorem Carries.el_add (h : AtInv s) (time : ℤ) (u : ℕ) (hlt : e < s.brk) (hct : isAt s e = false) :
    Carries s (el_add e time (s.usr u).ctid s) := by
  obtain ⟨l, hl, hcase⟩ := el_add_eq e time (s.usr u).ctid s
  rw [hl]
  rcases hcase with ⟨rfl, _⟩ | ⟨rfl, _⟩
  · exact .refl h
  · refine { Carries.refl h with notes := ?_, notice := ?_, own := ?_, other := ?_ }
    · change List.Perm (((insertNotice ⟨e, time, (s.usr u).ctid⟩ s.el).map Notice.event ++
        s.next_event.toList).filter (isAt s)) _
      have hperm := (insertNotice_perm ⟨e, time, (s.usr u).ctid⟩ s.el).map Notice.event
      apply ((hperm.append_right _).filter _).trans
      rw [map_cons, cons_append, filter_cons_of_neg (by rw [hct]; exact nofun)]
      exact List.Perm.refl _
    · intro n hn
      rcases mem_insertNotice.mp hn with rfl | hold
      · exact ⟨hlt, (h.ctid u).1⟩
      · exact h.notice n hold
    · intro n hn hat
      rcases mem_insertNotice.mp hn with rfl | hold
      · exact absurd (hct.symm.trans hat) nofun
      · exact .inl hold
    · intro n hn _
      rcases mem_insertNotice.mp hn with rfl | hold
      · exact .inr fun x hx _ => (h.ctid u).2 x hx
      · exact .inl hold

theorem AtInv.queued_lt (h : AtInv s) {x : ℕ} (hx : x ∈ queued s) : x < s.brk := by
  rcases mem_append.mp hx with hel | hnext
  · obtain ⟨n, hn, rfl⟩ := mem_map.mp hel
    exact (h.notice n hn).1
  · exact h.next_lt x (Option.mem_toList.mp hnext)

/-- A new event, which is on no list yet -/
theorem Carries.newEvent (h : AtInv s) (v : Event) :
    Carries s { s with brk := s.brk + 1, event := update s.event s.brk v } := by
  have hevent {x : ℕ} (hx : x < s.brk) : update s.event s.brk v x = s.event x :=
    update_of_ne (Nat.ne_of_lt hx) _ _
  refine { Carries.refl h with
    brk := Nat.le_succ _, event := fun x hx => ?_, notes := ?_, notice := fun n hn => ?_
    own := fun n hn _ => .inl hn, other := fun n hn _ => .inl hn, next_lt := ?_ }
  · change (update s.event s.brk v x).u = _ ∧ (update s.event s.brk v x).etype = _ ∧
      (update s.event s.brk v x).eventid = _ ∧ (update s.event s.brk v x).cmd = _ ∧
      (_ → (update s.event s.brk v x).time = _)
    rw [hevent hx]
    exact ⟨rfl, rfl, rfl, rfl, fun _ => rfl⟩
  · have hsame : (queued s).filter (isAt { s with
        brk := s.brk + 1, event := update s.event s.brk v }) = (queued s).filter (isAt s) := by
      apply filter_congr
      intro x hx
      unfold isAt
      dsimp only
      rw [hevent (h.queued_lt hx)]
    change List.Perm ((queued s).filter (isAt { s with
      brk := s.brk + 1, event := update s.event s.brk v })) _
    rw [hsame]
  · exact ⟨Nat.lt_succ_of_lt (h.notice n hn).1, (h.notice n hn).2⟩
  · exact fun x hx => Nat.lt_succ_of_lt (h.next_lt x hx)

theorem Carries.readline (h : AtInv s) (u : ℕ) (l : Line) : Carries s (readline u s l) := by
  cases l with
  | comment => exact .refl h
  | bad pid => exact .mail h
  | entry cmd time =>
    have hnew := Carries.newEvent h ⟨time, CRONEVENT, cmd, u, 0⟩
    have hinv := h.carry hnew
    have husr := Carries.usr (u := u) (v := { s.usr u with ctevents := s.brk :: (s.usr u).ctevents }) hinv
      (Nat.le_refl _) rfl (.inl rfl)
    have hinv' := hinv.carry husr
    have hct : isAt { s with
        brk := s.brk + 1
        event := update s.event s.brk ⟨time, CRONEVENT, cmd, u, 0⟩
        usr := update s.usr u { s.usr u with ctevents := s.brk :: (s.usr u).ctevents } } s.brk =
          false := by
      unfold isAt
      dsimp only
      rw [update_self]
      rfl
    have hadd := Carries.el_add hinv' time u (Nat.lt_succ_self s.brk) hct
    have hctid : (update s.usr u { s.usr u with ctevents := s.brk :: (s.usr u).ctevents } u).ctid =
        (s.usr u).ctid := by
      rw [update_self]
    dsimp only at hadd
    rw [hctid] at hadd
    exact (hnew.trans h husr).trans h hadd

theorem Carries.readcron (h : AtInv s) (u : ℕ) (pid : Option ℤ) (file : Option (List Line)) :
    Carries s (readcron u pid file s) := by
  cases file with
  | none => exact .mail h
  | some lines =>
    change Carries s (lines.foldl (Crond.readline u) s)
    induction lines generalizing s with
    | nil => exact .refl h
    | cons l lines ih =>
      have hline := Carries.readline h u l
      exact hline.trans h (ih (h.carry hline))

end crontabs

end Svr3.Crond
