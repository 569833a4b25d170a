import Svr3.Cmd.FgrepTrie

/-!
# The queue of `cfail`

The queue is a ring of `QSIZE` places. Its wrap test is left out when the queue is empty: if that happens at the last
place of the array, `rear` leaves it.
-/

namespace Svr3.Fgrep

open Function List

/-! ## The ring -/

section ring

variable {st st' : State} {x n : ℕ}

/-- The entries that have not been taken are in the ring, from `front` on. -/
structure Ring (st : State) : Prop where
  le : st.taken.length ≤ st.entered.length
  room : st.entered.length < st.taken.length + QSIZE
  front : st.front = st.taken.length % QSIZE
  rear : st.rear = st.entered.length % QSIZE
  kept : window st.queue QSIZE st.front (st.entered.length - st.taken.length) = st.entered.drop st.taken.length
  taken : st.taken = st.entered.take st.taken.length

/-- The queue is empty at the last place of the array. -/
def Edge (st : State) : Prop := st.entered.length = st.taken.length ∧ st.taken.length % QSIZE = QSIZE - 1

theorem Ring.front_add (h : Ring st) :
    (st.front + (st.entered.length - st.taken.length)) % QSIZE = st.entered.length % QSIZE := by
  have hle := h.le
  rw [h.front, Nat.mod_add_mod]
  congr 1
  omega

/-- An entry behind the others -/
theorem Ring.put (h : Ring st) (hroom : st.entered.length + 1 < st.taken.length + QSIZE) :
    Ring (put st x ((st.entered.length + 1) % QSIZE)) := by
  have hle := h.le
  have hplace := h.front_add
  have hlt : st.front < QSIZE := h.front ▸ Nat.mod_lt _ (by decide)
  have hlen : (st.entered ++ [x]).length = st.entered.length + 1 := length_append
  have hcount : st.entered.length + 1 - st.taken.length = st.entered.length - st.taken.length + 1 := by omega
  have hold : window (update st.queue st.rear x) QSIZE st.front (st.entered.length - st.taken.length) =
      window st.queue QSIZE st.front (st.entered.length - st.taken.length) := by
    apply window_outside hlt (k := 1) (by omega) (h.rear.trans hplace.symm)
    intro y hy
    have hne : y ≠ st.rear := by omega
    exact update_of_ne hne x st.queue
  refine ⟨?_, ?_, h.front, ?_, ?_, ?_⟩
  · dsimp only [Fgrep.put]
    omega
  · dsimp only [Fgrep.put]
    rwa [hlen]
  · dsimp only [Fgrep.put]
    rw [hlen]
  · dsimp only [Fgrep.put]
    rw [hlen, hcount, window_add, hold, h.kept, hplace, ← h.rear, drop_append_of_le_length hle]
    congr 1
    rw [window_straight (by rw [h.rear]; exact Nat.mod_lt _ (by decide))]
    exact congrArg (fun y => [y]) (update_self st.rear x st.queue)
  · dsimp only [Fgrep.put]
    rw [take_append_of_le_length hle]
    exact h.taken

/-- What `push` does: with `QSIZE - 1` entries it calls `overflo`, with none at the last place it leaves the array. -/
theorem Ring.push (h : Ring st) (x : ℕ) :
    (st.entered.length + 1 = st.taken.length + QSIZE ∧ push st x = none) ∨
      (Edge st ∧ push st x = some (Fgrep.put st x QSIZE)) ∨
      (¬Edge st ∧ st.entered.length + 1 < st.taken.length + QSIZE ∧
        push st x = some (Fgrep.put st x ((st.entered.length + 1) % QSIZE))) := by
  have hle := h.le
  have hroom := h.room
  have hQ : QSIZE = 400 := rfl
  have hfront : st.front = st.taken.length % 400 := h.front
  have hrear : st.rear = st.entered.length % 400 := h.rear
  have hmod : (st.entered.length + 1) % QSIZE = (st.entered.length + 1) % 400 := rfl
  have hedge : Edge st ↔ st.entered.length = st.taken.length ∧ st.taken.length % 400 = 399 := Iff.rfl
  rw [hmod, hedge, Fgrep.push]
  by_cases hwrap : st.front < st.rear
  · rw [if_pos hwrap]
    by_cases hlast : QSIZE - 1 ≤ st.rear
    · rw [if_pos hlast]
      by_cases hzero : st.front = 0
      · rw [if_pos hzero]
        exact .inl ⟨by omega, rfl⟩
      · have hnext : (st.entered.length + 1) % 400 = 0 := by omega
        rw [if_neg hzero, hnext]
        exact .inr (.inr ⟨by omega, by omega, rfl⟩)
    · have hnext : (st.entered.length + 1) % 400 = st.rear + 1 := by omega
      rw [if_neg hlast, hnext]
      exact .inr (.inr ⟨by omega, by omega, rfl⟩)
  · rw [if_neg hwrap]
    by_cases hfull : st.rear + 1 = st.front
    · rw [if_pos hfull]
      exact .inl ⟨by omega, rfl⟩
    · rw [if_neg hfull]
      by_cases hempty : st.entered.length = st.taken.length ∧ st.taken.length % 400 = 399
      · have hnext : st.rear + 1 = QSIZE := by omega
        rw [hnext]
        exact .inr (.inl ⟨hempty, rfl⟩)
      · have hnext : (st.entered.length + 1) % 400 = st.rear + 1 := by omega
        rw [hnext]
        exact .inr (.inr ⟨hempty, by omega, rfl⟩)

/-- The front entry is taken. -/
theorem Ring.take (h : Ring st) (hn : st.taken.length < st.entered.length) :
    Ring (take st) ∧ st.entered[st.taken.length]? = some (st.queue st.front) := by
  have hroom := h.room
  have hlt : st.front < QSIZE := h.front ▸ Nat.mod_lt _ (by decide)
  have hcount : st.entered.length - st.taken.length = 1 + (st.entered.length - (st.taken.length + 1)) := by omega
  have hfront : (st.front + 1) % QSIZE = if st.front = QSIZE - 1 then 0 else st.front + 1 := by
    split
    next heq =>
      rw [heq]
      rfl
    next hne =>
      apply Nat.mod_eq_of_lt
      omega
  have hkept := h.kept
  rw [hcount, window_add, window_straight (by omega), drop_eq_getElem_cons hn, hfront] at hkept
  obtain ⟨hhead, htail⟩ := List.cons.inj hkept
  have hget : st.entered[st.taken.length]? = some (st.queue st.front) := by
    rw [List.getElem?_eq_getElem hn, ← hhead]
    rfl
  have hlen : (st.taken ++ [st.queue st.front]).length = st.taken.length + 1 := length_append
  refine ⟨⟨?_, ?_, ?_, h.rear, ?_, ?_⟩, hget⟩
  · dsimp only [Fgrep.take]
    rwa [hlen]
  · dsimp only [Fgrep.take]
    rw [hlen]
    omega
  · dsimp only [Fgrep.take]
    rw [hlen, ← hfront, h.front, Nat.mod_add_mod]
  · dsimp only [Fgrep.take]
    rw [hlen]
    exact htail
  · dsimp only [Fgrep.take]
    rw [hlen, take_add_one, hget, ← h.taken]
    rfl

end ring

/-! ## What `cfail` leaves alone -/

section same

variable {w w' : Nodes} {s k : ℕ}

/-- The pointers of the trie, and the characters at its nodes, are the same. -/
def Same (w w' : Nodes) : Prop := ∀ i, (w' i).inp = (w i).inp ∧ (w' i).nst = (w i).nst ∧ (w' i).link = (w i).link

theorem Same.trans {w'' : Nodes} (h : Same w w') (h' : Same w' w'') : Same w w'' := fun i => by
  obtain ⟨hi, hn, hl⟩ := h i
  obtain ⟨hi', hn', hl'⟩ := h' i
  exact ⟨hi'.trans hi, hn'.trans hn, hl'.trans hl⟩

theorem same_update (q f : ℕ) (o : Bool) : Same w (update w q { w q with fail := f, out := o }) := fun i => by
  by_cases hi : i = q
  · subst hi
    rw [update_self]
    exact ⟨rfl, rfl, rfl⟩
  · rw [update_of_ne hi]
    exact ⟨rfl, rfl, rfl⟩

/-- The part about `fail` leaves the trie as it is. -/
theorem setFail_same (w : Nodes) (s : ℕ) : Same w (setFail w s) := by
  unfold setFail
  split
  · exact fun i => ⟨rfl, rfl, rfl⟩
  next state _ =>
    generalize members w MAXSIZ (w s).nst = l
    have hfold : ∀ v, Same w v → Same w (l.foldl (fun v q => update v q
        { v q with fail := (v state).nst, out := (v q).out || (v (v state).nst).out }) v) := by
      induction l with
      | nil => exact fun v hv => hv
      | cons q l ih => exact fun v hv => ih _ (hv.trans (same_update q _ _))
    exact hfold w fun i => ⟨rfl, rfl, rfl⟩

theorem Same.onward (h : Same w w') (loop : ℕ → Phase) : onward w' s loop = onward w s loop := by
  rw [Fgrep.onward, Fgrep.onward, (h s).2.2]

end same

/-! ## The steps -/

section steps

variable {w : Nodes} {top t h s : ℕ} {done : List ℕ} {st st' : State}

/-- The lists that have been entered when `t` have been taken -/
abbrev lists (w : Nodes) (t : ℕ) : List ℕ := Breadth.entered (kids w) (kids w 0) t

/-- `overflo` is not called before `t` lists have been taken and gone through. -/
def Room (w : Nodes) (t : ℕ) : Prop :=
  (kids w 0).length < QSIZE - 1 ∧ ∀ u < t, (lists w (u + 1)).length ≤ u + QSIZE

/-- The list number `t` is the only one in the queue, leads to others, and its place is the last but one. -/
def Lone (w : Nodes) (t : ℕ) : Prop :=
  ∃ h, (lists w t)[t]? = some h ∧ kids w h ≠ [] ∧ (lists w t).length = t + 1 ∧ (t + 1) % QSIZE = QSIZE - 1

/-- Where the loops are, with the lists entered and the number of those taken -/
inductive Place (w : Nodes) (top : ℕ) : Phase → List ℕ → ℕ → Prop where
  | init {done : List ℕ} {s : ℕ} : members w MAXSIZ 0 = done ++ members w MAXSIZ s → s ≤ top →
    (leads w done).length < QSIZE - 1 → Place w top (.init s) (leads w done) 0
  | head {t : ℕ} : Room w t → Place w top .head (lists w t) t
  | node {t h s : ℕ} {done : List ℕ} : Room w t → (lists w t)[t]? = some h →
    members w MAXSIZ h = done ++ members w MAXSIZ s → s ≤ top → Place w top (.node s) (lists w t ++ leads w done) (t + 1)

structure Inv (w : Nodes) (top : ℕ) (st : State) : Prop where
  same : Same w st.w
  ring : Ring st
  place : Place w top st.phase st.entered st.taken.length

theorem leads_append (l l' : List ℕ) : leads w (l ++ l') = leads w l ++ leads w l' := by
  rw [leads, filter_append, map_append]
  rfl

theorem leads_concat (done : List ℕ) (s : ℕ) :
    leads w (done ++ [s]) = leads w done ++ if (w s).inp = 0 then [] else [(w s).nst] := by
  rw [leads_append]
  congr 1
  by_cases hs : (w s).inp = 0
  · rw [leads, filter_cons_of_neg (by simpa using hs), if_pos hs]
    rfl
  · rw [leads, filter_cons_of_pos (by simpa using hs), if_neg hs]
    rfl

theorem leads_le (hw : Linked w top) (htop : top < MAXSIZ) (hs : s ≤ top)
    (hm : members w MAXSIZ h = done ++ members w MAXSIZ s) :
    (leads w (done ++ [s])).length ≤ (kids w h).length := by
  rw [members_cons hw htop hs, append_cons] at hm
  rw [kids, hm, leads_append (done ++ [s]), length_append]
  exact Nat.le_add_right _ _

/-- The loop over a list goes on with the next node, or is at its end. -/
theorem members_onward (hw : Linked w top) (htop : top < MAXSIZ) (hs : s ≤ top)
    (hm : members w MAXSIZ h = done ++ members w MAXSIZ s) (loop : ℕ → Phase) :
    (onward w s loop = .head ∧ members w MAXSIZ h = done ++ [s]) ∨
      ∃ s', onward w s loop = loop s' ∧ s < s' ∧ s' ≤ top ∧
        members w MAXSIZ h = (done ++ [s]) ++ members w MAXSIZ s' := by
  rw [members_cons hw htop hs] at hm
  by_cases hl : (w s).link = 0
  · rw [if_pos hl] at hm
    exact .inl ⟨if_pos hl, hm⟩
  · rw [if_neg hl] at hm
    have hup := hw.link_up s hl
    refine .inr ⟨(w s).link, if_neg hl, hup.1, hup.2, ?_⟩
    rw [hm, append_assoc]
    rfl

theorem Place.init_next (hw : Linked w top) (htop : top < MAXSIZ) (hs : s ≤ top)
    (hm : members w MAXSIZ 0 = done ++ members w MAXSIZ s) (hlen : (leads w (done ++ [s])).length < QSIZE - 1) :
    Place w top (onward w s .init) (leads w (done ++ [s])) 0 := by
  rcases members_onward hw htop hs hm .init with ⟨hon, hend⟩ | ⟨s', hon, -, hs', hm'⟩
  · have hall : leads w (done ++ [s]) = lists w 0 := by
      rw [← hend]
      rfl
    rw [hon, hall]
    rw [hall] at hlen
    exact .head ⟨hlen, fun u hu => absurd hu (Nat.not_lt_zero u)⟩
  · rw [hon]
    exact .init hm' hs' hlen

theorem lists_succ (hh : (lists w t)[t]? = some h) : lists w (t + 1) = lists w t ++ kids w h :=
  Breadth.entered_succ hh

theorem Room.succ (hr : Room w t) (hlen : (lists w (t + 1)).length ≤ t + QSIZE) : Room w (t + 1) := by
  refine ⟨hr.1, fun u hu => ?_⟩
  rcases Nat.lt_succ_iff_lt_or_eq.mp hu with hu | rfl
  · exact hr.2 u hu
  · exact hlen

theorem Place.node_next (hw : Linked w top) (htop : top < MAXSIZ) (hr : Room w t) (hh : (lists w t)[t]? = some h)
    (hs : s ≤ top) (hm : members w MAXSIZ h = done ++ members w MAXSIZ s)
    (hlen : (lists w t ++ leads w (done ++ [s])).length < t + 1 + QSIZE) :
    Place w top (onward w s .node) (lists w t ++ leads w (done ++ [s])) (t + 1) := by
  rcases members_onward hw htop hs hm .node with ⟨hon, hend⟩ | ⟨s', hon, -, hs', hm'⟩
  · have hall : lists w t ++ leads w (done ++ [s]) = lists w (t + 1) := by
      rw [lists_succ hh, ← hend]
      rfl
    rw [hon, hall]
    rw [hall] at hlen
    exact .head (hr.succ (by omega))
  · rw [hon]
    exact .node hr hh hm' hs'

end steps

/-! ## The runs -/

section run

variable {w : Nodes} {top t : ℕ} {queue : ℕ → ℕ} {st st' : State}

/-- What is still to be done -/
def left (w : Nodes) (st : State) : ℕ :=
  ((order w).length - st.taken.length) * (MAXSIZ + 2) +
    match st.phase with
    | .head => 0
    | .init s | .node s => MAXSIZ + 1 - s

/-- What a step can come to -/
inductive Outcome (w : Nodes) (top : ℕ) (st : State) : Next → Prop where
  | overflo : ¬Room w st.taken.length → st.taken.length = 0 ∨ st.entered.length ≠ st.taken.length →
    Outcome w top st .overflo
  | done : st.entered.length = st.taken.length → st.phase = .head → Outcome w top st .done
  | take {st' : State} : Inv w top st' → left w st' < left w st → st.phase = .head → st'.entered = st.entered →
    st'.phase ≠ .head → st'.taken.length = st.taken.length + 1 → Outcome w top st (.go st')
  | stay {st' : State} : Inv w top st' → left w st' < left w st → st'.taken = st.taken →
    (st'.entered = st.entered ∨ ¬Edge st) → Outcome w top st (.go st')
  | past {st' : State} : st'.rear = QSIZE → (∃ t, Lone w t ∧ Room w t) → Outcome w top st (.go st')

variable (hw : Linked w top) (htop : top < MAXSIZ) (hsound : ∀ i, (w i).inp ≠ 0 → (w i).nst ≠ 0)

theorem Ring.at (h : Ring st) (w' : Nodes) (phase : Phase) : Ring { st with w := w', phase := phase } :=
  ⟨h.le, h.room, h.front, h.rear, h.kept, h.taken⟩

include hw htop in
theorem left_onward {s : ℕ} (hs : s ≤ top) (htaken : st'.taken = st.taken)
    (h : st.phase = .init s ∧ st'.phase = onward w s .init ∨ st.phase = .node s ∧ st'.phase = onward w s .node) :
    left w st' < left w st := by
  have hup := hw.link_up s
  unfold left
  rw [htaken]
  apply Nat.add_lt_add_left
  rcases h with ⟨hst, hst'⟩ | ⟨hst, hst'⟩ <;>
  · rw [hst, hst', onward]
    by_cases hl : (w s).link = 0
    · rw [if_pos hl]
      dsimp only
      omega
    · rw [if_neg hl]
      have hlt := hup hl
      dsimp only
      omega

include hw htop hsound in
theorem lists_stop (ht : (order w).length ≤ t) : lists w t = order w := by
  have hall := entered_order hsound hw htop
  have hstop := Breadth.entered_stop (kids w) (kids w 0) (Nat.le_of_eq (congrArg List.length hall)) ht
  rw [lists, hstop, hall]

include hw htop hsound in
theorem lists_all (ht : (lists w t).length = t) : lists w t = order w := by
  apply lists_stop hw htop hsound
  by_contra hlt
  have hall := congrArg List.length (entered_order hsound hw htop)
  have hmore := Breadth.lt_length_entered (Nat.not_le.mp hlt) hall
  exact Nat.lt_irrefl _ (ht ▸ hmore)

include hw htop hsound in
theorem lt_order (ht : t < (lists w t).length) : t < (order w).length := by
  by_contra hle
  rw [lists_stop hw htop hsound (Nat.not_lt.mp hle)] at ht
  exact hle ht

include hw hsound in
theorem lists_le {x : ℕ} (hx : x ∈ lists w t) : x ≤ top := by
  induction t with
  | zero => exact (kid_lt hsound hw hx).2
  | succ t ih =>
    rw [lists, Breadth.entered] at hx
    rcases mem_append.mp hx with hx | hx
    · exact ih hx
    · cases hy : (lists w t)[t]? with
      | none =>
        rw [hy] at hx
        exact absurd hx not_mem_nil
      | some y =>
        rw [hy] at hx
        exact (kid_lt hsound hw hx).2

theorem Ring.empty (h : Ring st) : st.rear = st.front ↔ st.entered.length = st.taken.length := by
  have hle := h.le
  have hroom := h.room
  have hQ : QSIZE = 400 := rfl
  rw [h.rear, h.front, hQ]
  omega

include hw htop hsound in
/-- A step leads to another state of the loops, or to `overflo`, or leaves the array at the edge. -/
theorem Inv.step (hi : Inv w top st) : Outcome w top st (step st) := by
  obtain ⟨hsame, hring, hplace⟩ := hi
  have hQ : QSIZE = 400 := rfl
  generalize hphase : st.phase = phase at hplace
  generalize hent : st.entered = entered at hplace
  generalize htak : st.taken.length = n at hplace
  cases hplace with
  | @init done s hm hs hlen =>
    have hinp := (hsame s).1
    have hnst := (hsame s).2.1
    rw [Fgrep.step, hphase]
    dsimp only
    rw [hsame.onward, hinp, hnst]
    have hdone := leads_concat (w := w) done s
    by_cases hz : (w s).inp = 0
    · rw [if_pos hz] at hdone ⊢
      rw [append_nil] at hdone
      have hnext := Place.init_next hw htop hs hm (hdone.symm ▸ hlen)
      rw [hdone] at hnext
      refine .stay ⟨hsame, hring.at _ _, ?_⟩ (left_onward hw htop hs rfl (.inl ⟨hphase, rfl⟩)) rfl (.inl rfl)
      dsimp only
      rwa [hent, htak]
    · rw [if_neg hz] at hdone ⊢
      have hcount : (leads w (done ++ [s])).length = st.entered.length + 1 := by
        rw [hdone, hent, length_append]
        rfl
      have hlen' : st.entered.length < QSIZE - 1 := hent ▸ hlen
      have hrear : st.rear = st.entered.length := hring.rear.trans (Nat.mod_eq_of_lt (by omega))
      have hle := leads_le hw htop hs hm
      rw [pushInit, hrear]
      by_cases hfull : QSIZE - 1 ≤ st.entered.length + 1
      · rw [if_pos hfull]
        refine .overflo (fun hroom => ?_) (.inl htak)
        have hroom := hroom.1
        omega
      · rw [if_neg hfull]
        have hmod : (st.entered.length + 1) % QSIZE = st.entered.length + 1 := Nat.mod_eq_of_lt (by omega)
        have hput := hring.put (x := (w s).nst) (by omega)
        rw [hmod] at hput
        have hnext := Place.init_next hw htop hs hm (by omega)
        rw [hdone, ← hent] at hnext
        refine .stay ⟨hsame, hput.at _ _, ?_⟩ (left_onward hw htop hs rfl (.inl ⟨hphase, rfl⟩)) rfl (.inr ?_)
        · dsimp only [Fgrep.put]
          rwa [htak]
        · rintro ⟨hempty, hlast⟩
          rw [htak] at hlast
          exact absurd hlast (by decide)
  | head hr =>
    rw [Fgrep.step, hphase]
    dsimp only
    by_cases hempty : st.rear = st.front
    · rw [if_pos hempty]
      exact .done (hring.empty.mp hempty) hphase
    · rw [if_neg hempty]
      have hlt : st.taken.length < st.entered.length := by
        have hle := hring.le
        have hne := mt hring.empty.mpr hempty
        omega
      obtain ⟨htake, hget⟩ := hring.take hlt
      have hlen : (st.taken ++ [st.queue st.front]).length = n + 1 := by
        rw [length_append, htak]
        rfl
      rw [hent, htak] at hget hlt
      have hle := lists_le hw hsound (mem_of_getElem? hget)
      have horder := lt_order hw htop hsound hlt
      refine .take ⟨hsame, htake, ?_⟩ ?_ hphase rfl nofun (hlen.trans (by rw [htak]))
      · dsimp only [Fgrep.take]
        have hnode : Place w top (.node (st.queue st.front)) (lists w n ++ leads w []) (n + 1) :=
          .node hr hget rfl hle
        rw [hlen, hent]
        rwa [leads, filter_nil, map_nil, append_nil] at hnode
      · unfold left
        dsimp only [Fgrep.take]
        rw [hlen, htak, hphase]
        dsimp only
        have hsucc : (order w).length - n = (order w).length - (n + 1) + 1 := by omega
        rw [hsucc, Nat.add_mul]
        omega
  | @node t h s done hr hh hm hs =>
    have hinp := (hsame s).1
    have hnst := (hsame s).2.1
    rw [Fgrep.step, hphase]
    dsimp only
    rw [hsame.onward, hinp, hnst]
    have hdone := leads_concat (w := w) done s
    have hsucc := lists_succ hh
    have hle := leads_le hw htop hs hm
    by_cases hz : (w s).inp = 0
    · rw [if_pos hz] at hdone ⊢
      rw [append_nil] at hdone
      have hroom := hring.room
      rw [hent, htak, ← hdone] at hroom
      have hnext := Place.node_next hw htop hr hh hs hm hroom
      rw [hdone] at hnext
      refine .stay ⟨hsame, hring.at _ _, ?_⟩ (left_onward hw htop hs rfl (.inr ⟨hphase, rfl⟩)) rfl (.inl rfl)
      dsimp only
      rwa [hent, htak]
    · rw [if_neg hz] at hdone ⊢
      have hcount : (lists w t ++ leads w (done ++ [s])).length = st.entered.length + 1 := by
        rw [hdone, hent, ← append_assoc, length_append]
        rfl
      rcases hring.push (w s).nst with ⟨hfull, hpush⟩ | ⟨hedge, hpush⟩ | ⟨hedge, hroom, hpush⟩
      · rw [hpush]
        refine .overflo (fun hroom => ?_) (.inr (by omega))
        rw [htak] at hroom
        have hlast := hroom.2 t (Nat.lt_succ_self t)
        rw [hsucc, length_append] at hlast
        rw [length_append] at hcount
        omega
      · rw [hpush]
        refine .past rfl ⟨t, ⟨h, hh, ?_, ?_, ?_⟩, hr⟩
        · intro hnil
          rw [hnil, hdone, length_append] at hle
          exact absurd hle (by simp)
        · have hlt := (List.getElem?_eq_some_iff.mp hh).1
          have hlast := hedge.1
          rw [hent, htak, length_append] at hlast
          omega
        · have hlast := hedge.2
          rwa [htak] at hlast
      · rw [hpush]
        have hnext := Place.node_next hw htop hr hh hs hm (by omega)
        refine .stay ⟨?_, (hring.put hroom).at _ _, ?_⟩ (left_onward hw htop hs rfl (.inr ⟨hphase, rfl⟩)) rfl (.inr hedge)
        · exact hsame.trans (setFail_same st.w s)
        · dsimp only [Fgrep.put]
          rw [htak, hent, append_assoc]
          rwa [hdone] at hnext

include hw htop hsound in
/-- As long as `rear` stays within the array, the states are those of the loops. -/
theorem Reach.inv (hin : (∃ t, Lone w t ∧ Room w t) → ∀ st, Reach w queue st → st.rear < QSIZE)
    (h : Reach w queue st) : Inv w top st := by
  induction h with
  | start =>
    have hQ : 0 < QSIZE - 1 := by decide
    have hroom : 0 < 0 + QSIZE := by decide
    have hempty : Place w top (.init 0) (leads w []) 0 := .init rfl (Nat.zero_le _) hQ
    exact ⟨fun i => ⟨rfl, rfl, rfl⟩, ⟨Nat.le_refl _, hroom, rfl, rfl, rfl, rfl⟩, hempty⟩
  | @step st st' hst hstep ih =>
    have hout := ih.step hw htop hsound
    rw [hstep] at hout
    cases hout with
    | take hi => exact hi
    | stay hi => exact hi
    | past hrear hbad =>
      have hlt := hin hbad st' (.step hst hstep)
      rw [hrear] at hlt
      exact absurd hlt (Nat.lt_irrefl _)

include hw htop hsound in
theorem reach_ends (hin : (∃ t, Lone w t ∧ Room w t) → ∀ st, Reach w queue st → st.rear < QSIZE)
    (h : Reach w queue st) :
    ∃ st, Reach w queue st ∧ (step st = .overflo ∨
      step st = .done ∧ st.entered.length = st.taken.length ∧ st.phase = .head) := by
  induction hn : left w st using Nat.strong_induction_on generalizing st with
  | _ n ih =>
    subst hn
    have hout := (h.inv hw htop hsound hin).step hw htop hsound
    cases hstep : step st with
    | overflo => exact ⟨st, h, .inl hstep⟩
    | done =>
      rw [hstep] at hout
      cases hout with
      | done hempty hphase => exact ⟨st, h, .inr ⟨hstep, hempty, hphase⟩⟩
    | go st' =>
      rw [hstep] at hout
      have hreach := Reach.step h hstep
      cases hout with
      | take _ hlt => exact ih _ hlt hreach rfl
      | stay _ hlt => exact ih _ hlt hreach rfl
      | past hrear hbad =>
        have hlt := hin hbad st' hreach
        rw [hrear] at hlt
        exact absurd hlt (Nat.lt_irrefl _)

include hw htop hsound in
/-- The queue never holds more than the lists in order. -/
theorem Inv.enteredFirst (hi : Inv w top st) : st.entered <+: order w := by
  have hall := entered_order hsound hw htop
  have hlists (t : ℕ) : lists w t <+: order w := by
    rcases Nat.le_total t (order w).length with hle | hle
    · have hpre := Breadth.entered_prefix (kids w) (kids w 0) hle
      rwa [hall] at hpre
    · simp only [lists_stop hw htop hsound hle, prefix_rfl]
  obtain ⟨-, -, hplace⟩ := hi
  generalize st.phase = phase at hplace
  generalize st.entered = entered at hplace ⊢
  generalize st.taken.length = n at hplace
  cases hplace with
  | @init done s hm hs hlen =>
    have hkids : leads w done <+: kids w 0 := by
      rw [kids, hm, leads_append]
      exact prefix_append _ _
    exact hkids.trans (hlists 0)
  | head hr => exact hlists _
  | @node t h s done hr hh hm hs =>
    have hkids : lists w t ++ leads w done <+: lists w (t + 1) := by
      rw [lists_succ hh, kids, hm, leads_append, ← append_assoc]
      exact prefix_append _ _
    exact hkids.trans (hlists _)

include hw htop hsound in
theorem queued_of_room (hno : ∀ t, Lone w t → ¬Room w t) : Queued w queue := by
  have hin : (∃ t, Lone w t ∧ Room w t) → ∀ st, Reach w queue st → st.rear < QSIZE :=
    fun ⟨t, hl, hr⟩ => absurd hr (hno t hl)
  refine ⟨fun st h => ?_, fun st h => (h.inv hw htop hsound hin).ring.kept, fun st h => ?_, ?_, ?_, ?_⟩
  · have hring := (h.inv hw htop hsound hin).ring
    rw [hring.front, hring.rear]
    exact ⟨Nat.mod_lt _ (by decide), Nat.mod_lt _ (by decide)⟩
  · have hi := h.inv hw htop hsound hin
    refine ⟨hi.ring.taken, ?_⟩
    rw [hi.ring.taken]
    exact ( take_prefix _ _).trans (hi.enteredFirst hw htop hsound)
  · obtain ⟨st, h, hend | ⟨hdone, hempty, hphase⟩⟩ := reach_ends hw htop hsound hin .start
    · exact ⟨st, h, .inl hend⟩
    · refine ⟨st, h, .inr ⟨hdone, ?_⟩⟩
      obtain ⟨-, hring, hplace⟩ := h.inv hw htop hsound hin
      have htaken := hring.taken
      rw [← hempty, take_length] at htaken
      rw [htaken]
      rw [hphase] at hplace
      generalize hentered : st.entered = entered at hplace hempty
      generalize st.taken.length = n at hplace hempty
      cases hplace with
      | head => exact lists_all hw htop hsound hempty
  · exact order_nodup hsound hw htop
  · exact fun h => isList_iff hsound hw htop

/-- What the list number `t` finds, if it is alone at the edge: nothing has been entered behind it. -/
def Before (t : ℕ) (st : State) : Prop :=
  st.taken.length ≤ t ∨ st.taken.length = t + 1 ∧ st.entered.length = t + 1 ∧ st.phase ≠ .head

theorem Inv.room (hi : Inv w top st) (hphase : st.phase = .head) : st.entered = lists w st.taken.length := by
  obtain ⟨-, -, hplace⟩ := hi
  rw [hphase] at hplace
  generalize st.entered = entered at hplace ⊢
  generalize st.taken.length = n at hplace ⊢
  cases hplace with
  | head => rfl

theorem Room.mono {u : ℕ} (h : Room w t) (hu : u ≤ t) : Room w u :=
  ⟨h.1, fun v hv => h.2 v (Nat.lt_of_lt_of_le hv hu)⟩

include hw htop hsound in
/-- No list behind the one at the edge is entered within the array. -/
theorem Reach.before (hin : ∀ st, Reach w queue st → st.rear < QSIZE) (hl : Lone w t) (h : Reach w queue st) :
    Before t st := by
  obtain ⟨x, hx, hkids, hlen, hedge⟩ := hl
  induction h with
  | start => exact .inl (Nat.zero_le _)
  | @step st st' hst hstep ih =>
    have hi := hst.inv hw htop hsound fun _ => hin
    have hout := hi.step hw htop hsound
    rw [hstep] at hout
    cases hout with
    | take hi' _ hphase hent hnode htak =>
      rcases ih with hle | ⟨-, -, hne⟩
      · rcases Nat.lt_or_eq_of_le hle with hlt | heq
        · exact .inl (by omega)
        · refine .inr ⟨by omega, ?_, hnode⟩
          rw [hent, hi.room hphase, heq, hlen]
      · exact absurd hphase hne
    | stay hi' _ htak hent =>
      rcases ih with hle | ⟨htaken, hentered, hne⟩
      · exact .inl (by rw [htak]; exact hle)
      · have hsame : st'.entered = st.entered := by
          refine hent.resolve_right fun hc => hc ⟨by omega, ?_⟩
          rw [htaken, hedge]
        refine .inr ⟨by rw [htak, htaken], by rw [hsame, hentered], fun hphase => ?_⟩
        have hlists := hi'.room hphase
        rw [htak, htaken, lists_succ hx, hsame] at hlists
        have hsum := congrArg List.length hlists
        rw [length_append, hentered, hlen] at hsum
        exact hkids (eq_nil_of_length_eq_zero (by omega))
    | past hrear =>
      have hlt := hin st' (.step hst hstep)
      rw [hrear] at hlt
      exact absurd hlt (Nat.lt_irrefl _)

include hw htop hsound in
theorem room_of_queued (hq : Queued w queue) (hl : Lone w t) : ¬Room w t := by
  intro hr
  have hin : ∀ st, Reach w queue st → st.rear < QSIZE := fun st h => (hq.inside st h).2
  obtain ⟨st, h, hend⟩ := reach_ends hw htop hsound (fun _ => hin) .start
  have hi := h.inv hw htop hsound fun _ => hin
  have hbefore := h.before hw htop hsound hin hl
  have hout := hi.step hw htop hsound
  obtain ⟨x, hx, hkids, hlen, hedge⟩ := hl
  rcases hend with hover | ⟨-, hempty, hphase⟩
  · rw [hover] at hout
    cases hout with
    | overflo hno hne =>
      rcases hbefore with hle | ⟨htaken, hentered, -⟩
      · exact hno (hr.mono hle)
      · omega
  · have hlists := hi.room hphase
    rcases hbefore with hle | ⟨-, -, hne⟩
    · have hlt := lt_order hw htop hsound (List.getElem?_eq_some_iff.mp hx).1
      have hall := lists_all hw htop hsound (hlists ▸ hempty)
      rw [← hlists] at hall
      rw [← hall] at hlt
      omega
    · exact hne hphase

end run

/-! ## Tries -/

/-- A trie that `cgotofn` builds -/
abbrev Trie := { t : Table // ∃ xflag input, cgotofn xflag input = .ok t }

theorem Trie.sound (t : Trie) : Sound t.1 := by
  obtain ⟨t, xflag, input, h⟩ := t
  exact cgotofn_sound h

/-- The queue is right if and only if the list taken last is not alone at the last place but one when it leads to
others, or `overflo` has been called by then. -/
theorem queued_iff (t : Trie) (queue : ℕ → ℕ) : Queued t.1.w queue ↔ ∀ n, Lone t.1.w n → ¬Room t.1.w n := by
  have hs := t.sound
  constructor
  · exact fun hq n hl => room_of_queued hs.pointers hs.size hs.leads hq hl
  · exact fun hno => queued_of_room hs.pointers hs.size hs.leads hno

section letters

variable {n t i : ℕ}

/-- The letter a -/
def letter : ℤ := 97

/-- The nodes for `n` letters, one behind the other -/
def chain (n : ℕ) : Table := ⟨fun i => if i < n then ⟨letter, false, i + 1, 0, 0⟩ else blank, n⟩

theorem enter_chain (hn : n < MAXSIZ - 1) : enter (chain n) letter n = .ok (chain (n + 1)) := by
  have hw : update (update (chain n).w n { (chain n).w n with inp := Int.bmod letter 256 }) n
      { (update (chain n).w n { (chain n).w n with inp := Int.bmod letter 256 }) n with nst := n + 1 } =
      (chain (n + 1)).w := by
    funext i
    rw [update_idem, update_self]
    by_cases hi : i = n
    · subst hi
      have hbmod : Int.bmod letter 256 = letter := by decide
      rw [update_self, hbmod]
      simp only [chain, Nat.lt_irrefl, if_false, Nat.lt_succ_self, if_true, blank]
    · rw [update_of_ne hi]
      simp only [chain]
      exact if_congr (by omega) rfl rfl
  have hroom : ¬MAXSIZ - 1 ≤ (setInp (chain n) n letter).smax := Nat.not_le.mpr hn
  rw [enter, newNst, if_neg hroom]
  exact congrArg (fun w => Except.ok (Table.mk w (n + 1))) hw

theorem append_letters {k : ℕ} (hk : n + k < MAXSIZ) :
    cgotofnLoop false (List.replicate k letter) .append (chain n) = .ok (setOut (chain (n + k)) (n + k)) := by
  induction k generalizing n with
  | zero => rfl
  | succ k ih =>
    rw [replicate_succ, cgotofnLoop, if_neg (by decide), if_neg (by decide)]
    change (enter (chain n) letter n >>= _) = _
    rw [enter_chain (by omega)]
    have hnext := ih (n := n + 1) (by omega)
    rw [(by omega : n + 1 + k = n + (k + 1))] at hnext
    exact hnext

/-- A word of `n` letters -/
theorem cgotofn_letters (hn : n + 1 < MAXSIZ) :
    cgotofn false (List.replicate (n + 1) letter) = .ok (setOut (chain (n + 1)) (n + 1)) := by
  have hlook : look (chain 0) letter 0 = .ok (.free (chain 0) 0) := rfl
  have hrest := append_letters (n := 1) (k := n) (by omega)
  rw [cgotofn, replicate_succ, cgotofnLoop, if_neg (by decide), if_neg (by decide)]
  change (look (chain 0) letter 0 >>= _) = _
  rw [hlook]
  change (enter (chain 0) letter 0 >>= _) = _
  rw [enter_chain (by omega)]
  rw [Nat.add_comm 1 n] at hrest
  exact hrest

theorem kids_letters (hi : i < n) : kids (setOut (chain n) n).w i = [i + 1] := by
  have hnode : (setOut (chain n) n).w i = ⟨letter, false, i + 1, 0, 0⟩ := by
    rw [setOut]
    exact (update_of_ne (Nat.ne_of_lt hi) _ _).trans (if_pos hi)
  have hmembers : members (setOut (chain n) n).w (5999 + 1) i = [i] := by
    rw [members, hnode]
    rfl
  have hsize : MAXSIZ = 5999 + 1 := rfl
  have hinp : decide (letter ≠ 0) = true := by decide
  rw [kids, hsize, hmembers, leads, filter_cons, hnode, hinp]
  rw [if_pos rfl, filter_nil, map_singleton, hnode]

theorem lists_letters (ht : t < n) : lists (setOut (chain n) n).w t = List.range' 1 (t + 1) := by
  induction t with
  | zero => exact kids_letters ht
  | succ t ih =>
    have hold := ih (Nat.lt_of_succ_lt ht)
    have hget : (lists (setOut (chain n) n).w t)[t]? = some (t + 1) := by
      rw [hold, List.getElem?_range' (by omega)]
      congr 1
      omega
    have hlast : List.range' 1 (t + 1 + 1) = List.range' 1 (t + 1) ++ [1 + 1 * (t + 1)] := List.range'_concat
    rw [lists_succ hget, hold, kids_letters ht, hlast, Nat.one_mul, Nat.add_comm 1]

/-- Four hundred letters without a match in between -/
def fourHundred : Trie :=
  ⟨setOut (chain 400) 400, false, List.replicate 400 letter, cgotofn_letters (by decide)⟩

/-- `rear` leaves the array when the last letter comes in. -/
theorem not_queued_fourHundred : ¬∃ queue, Queued fourHundred.1.w queue := by
  rintro ⟨queue, hq⟩
  have hs := fourHundred.sound
  have hlists := lists_letters (n := 400) (t := 398) (by decide)
  have hget : (lists fourHundred.1.w 398)[398]? = some 399 := by
    rw [fourHundred, hlists, List.getElem?_range' (by decide)]
  have hkids : kids fourHundred.1.w 399 = [400] := kids_letters (by decide)
  have hlone : Lone fourHundred.1.w 398 := by
    refine ⟨399, hget, ?_, ?_, by decide⟩
    · rw [hkids]
      exact cons_ne_nil _ _
    · rw [fourHundred, hlists, length_range']
  refine room_of_queued hs.pointers hs.size hs.leads hq hlone ⟨?_, fun u hu => ?_⟩
  · have hroot : kids fourHundred.1.w 0 = [1] := kids_letters (by decide)
    rw [hroot]
    decide
  · have hlen : lists fourHundred.1.w (u + 1) = List.range' 1 (u + 1 + 1) := lists_letters (by omega)
    have hQ : QSIZE = 400 := rfl
    rw [hlen, length_range']
    omega

end letters

end Svr3.Fgrep
