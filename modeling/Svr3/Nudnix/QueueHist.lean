import Svr3.Nudnix.QueueRun

/-!
# Every message of a queue, and whoever comes for it

A history adds to the queues what came to them and what left them. The ledger of each queue balances, and as long as
the steps are fair a server comes for what waits whenever one is idle.
-/

namespace Svr3.Queue

open Function List

/-- What has come to the queues, what servers and callers have taken from their fronts, and what was looked for -/
structure Hist (ι : Type) where
  sys : Sys ι
  arrived : ℕ → List Mblk
  delivered : ℕ → List (Mblk × Option ι)
  removed : ℕ → List Mblk

variable {ι : Type} {sigrd : ℕ} {minserve : ℤ} {s t : Sys ι} {h h' : Hist ι} {rd : ℕ} {p : ι} {bp : Mblk}
  {bps queue : List Mblk} {caller : Option ι} {a : Act ι} {kind : ℕ → Qtype} {used : ℕ → Bool}

def Hist.log (h : Hist ι) (s : Sys ι) : Event ι → Hist ι
  | .quiet => { h with sys := s }
  | .arrived rd bp => { h with sys := s, arrived := update h.arrived rd (h.arrived rd ++ [bp]) }
  | .delivered rd bp caller =>
    { h with sys := s, delivered := update h.delivered rd (h.delivered rd ++ [(bp, caller)]) }
  | .removed rd bps => { h with sys := s, removed := update h.removed rd (h.removed rd ++ bps) }

def Hist.boot (ι : Type) (kind : ℕ → Qtype) (used : ℕ → Bool) : Hist ι :=
  ⟨Queue.boot ι kind used, fun _ => [], fun _ => [], fun _ => []⟩

/-- What came to each queue was taken, removed, or waits, and each message came to one queue. -/
structure Logged (h : Hist ι) : Prop where
  ledger : ∀ rd, Ledger (h.arrived rd) ((h.delivered rd).map Prod.fst) (h.removed rd) (h.sys.rcvd rd).rd_rcvdq
  before : ∀ rd, ∀ bp ∈ h.arrived rd, bp.came < h.sys.came
  apart : ∀ rd rd', rd ≠ rd' → (h.arrived rd).Disjoint (h.arrived rd')

/-- The queues of a state -/
def queues (s : Sys ι) : ℕ → List Mblk := fun rd => (s.rcvd rd).rd_rcvdq

theorem SameQueues.queues (hq : SameQueues s t) : queues t = queues s := funext hq.queue

namespace Logged

theorem boot : Logged (.boot ι kind used) :=
  ⟨fun _ => Ledger.empty, fun _ _ hbp => absurd hbp not_mem_nil,
    fun _ _ _ _ hx => absurd hx not_mem_nil⟩

theorem quiet (hl : Logged h) (hq : queues t = queues h.sys) (hcame : t.came = h.sys.came) :
    Logged (h.log t .quiet) where
  ledger rd := by
    have hrd : (t.rcvd rd).rd_rcvdq = (h.sys.rcvd rd).rd_rcvdq := congrFun hq rd
    change Ledger _ _ _ (t.rcvd rd).rd_rcvdq
    rw [hrd]
    exact hl.ledger rd
  before rd bp hbp := by
    change bp.came < t.came
    rw [hcame]
    exact hl.before rd bp hbp
  apart := hl.apart

/-- A new message -/
theorem arrive (hl : Logged h) (hbp : bp.came = h.sys.came) (hcame : t.came = h.sys.came + 1)
    (hq : queues t = update (queues h.sys) rd (queues h.sys rd ++ [bp])) :
    Logged (h.log t (.arrived rd bp)) where
  ledger x := by
    change Ledger (update h.arrived rd (h.arrived rd ++ [bp]) x) _ _ (queues t x)
    rw [hq]
    by_cases hx : x = rd
    · subst hx
      rw [update_self, update_self]
      refine (hl.ledger x).arrive fun hin => ?_
      exact absurd (hl.before x bp hin) (by omega)
    · rw [update_of_ne hx, update_of_ne hx]
      exact hl.ledger x
  before x y hy := by
    change y.came < t.came
    rw [hcame]
    change y ∈ update h.arrived rd (h.arrived rd ++ [bp]) x at hy
    by_cases hx : x = rd
    · subst hx
      rw [update_self] at hy
      rcases mem_append.mp hy with hy | hy
      · exact Nat.lt_succ_of_lt (hl.before x y hy)
      · rw [mem_singleton.mp hy, hbp]
        exact Nat.lt_succ_self _
    · rw [update_of_ne hx] at hy
      exact Nat.lt_succ_of_lt (hl.before x y hy)
  apart x y hne := by
    have hnew (z : ℕ) : bp ∉ h.arrived z := fun hin => absurd (hl.before z bp hin) (by omega)
    have hold := hl.apart x y hne
    change (update h.arrived rd (h.arrived rd ++ [bp]) x).Disjoint
      (update h.arrived rd (h.arrived rd ++ [bp]) y)
    by_cases hx : x = rd
    · subst hx
      rw [update_self, update_of_ne (Ne.symm hne), disjoint_append_left]
      exact ⟨hold, singleton_disjoint.mpr (hnew y)⟩
    · by_cases hy : y = rd
      · subst hy
        rw [update_self, update_of_ne hx, disjoint_append_right]
        exact ⟨hold, (singleton_disjoint.mpr (hnew x)).symm⟩
      · rw [update_of_ne hx, update_of_ne hy]
        exact hold

/-- The first message of a queue is taken. -/
theorem deliver (hl : Logged h) (hcame : t.came = h.sys.came) (hfirst : queues h.sys rd = bp :: queue)
    (hq : queues t = update (queues h.sys) rd queue) (caller : Option ι) :
    Logged (h.log t (.delivered rd bp caller)) where
  ledger x := by
    change Ledger _ ((update h.delivered rd (h.delivered rd ++ [(bp, caller)]) x).map Prod.fst) _
      (queues t x)
    rw [hq]
    have hold := hl.ledger x
    by_cases hx : x = rd
    · subst hx
      change Ledger _ _ _ (queues h.sys x) at hold
      rw [hfirst] at hold
      rw [update_self, update_self, map_append]
      exact hold.deliver
    · rw [update_of_ne hx, update_of_ne hx]
      exact hold
  before x y hy := by
    change y.came < t.came
    rw [hcame]
    exact hl.before x y hy
  apart := hl.apart

theorem remove (hl : Logged h) (hcame : t.came = h.sys.came) (hall : (queues h.sys rd).Perm (bps ++ queue))
    (horder : queue.Sublist (queues h.sys rd)) (hq : queues t = update (queues h.sys) rd queue) :
    Logged (h.log t (.removed rd bps)) where
  ledger x := by
    change Ledger _ _ (update h.removed rd (h.removed rd ++ bps) x) (queues t x)
    rw [hq]
    by_cases hx : x = rd
    · subst hx
      rw [update_self, update_self]
      exact (hl.ledger x).remove hall horder
    · rw [update_of_ne hx, update_of_ne hx]
      exact hl.ledger x
  before x y hy := by
    change y.came < t.came
    rw [hcame]
    exact hl.before x y hy
  apart := hl.apart

end Logged

/-! ## Steps -/

variable [DecidableEq ι]

theorem finish_same (p : ι) (s : Sys ι) : SameQueues s (finish p s) ∧ (finish p s).came = s.came := by
  rw [finish]
  split
  · exact ⟨⟨fun _ => rfl, fun _ => rfl, fun _ => rfl, rfl, rfl⟩, rfl⟩
  · rename_i rd hrd
    exact ⟨(sameQueues_act rd _ s).trans (moves_setServer p _ _ _).queues, rfl⟩

theorem back_same (p : ι) (s : Sys ι) :
    SameQueues s (back sigrd minserve p s) ∧ (back sigrd minserve p s).came = s.came := by
  obtain ⟨hsame, hcame⟩ := finish_same p s
  rw [back]
  dsimp only
  split
  · rename_i queue hq
    exact ⟨hsame.trans ((sameQueues_act queue _ (finish p s)).trans (moves_setServer p _ _ _).queues), hcame⟩
  · split
    · exact ⟨hsame.trans (moves_setServer p _ _ _).queues, hcame⟩
    · have hidle : SameQueues (finish p s) (add_to_proc_list p (finish p s)) :=
        ⟨fun _ => rfl, fun _ => rfl, fun _ => rfl, rfl, rfl⟩
      exact ⟨hsame.trans (hidle.trans (moves_setServer p _ _ _).queues), hcame⟩

theorem resume_came (p : ι) (s : Sys ι) : (resume p s).came = s.came := by
  rw [resume]
  dsimp only
  split <;> rfl

/-- One step of a history -/
def next (sigrd : ℕ) (minserve : ℤ) (h : Hist ι) (a : Act ι) (h' : Hist ι) : Prop :=
  ∃ s e, step sigrd minserve h.sys a = some (s, e) ∧ h' = h.log s e

/-- A message finds room, a server that was sent for one is spared, and `chkrdq` finds its message at an end of the
queue. -/
def Fair [Fintype ι] (sigrd : ℕ) (s : Sys ι) : Act ι → Prop
  | .arrmsg msg => (s.rcvd (target sigrd msg)).rd_rcvdq.length + 1 < 65536
  | .resume p => Spared s p
  | .chkrdq que pid sysid => ∀ pre bp post, (s.rcvd que).rd_rcvdq = pre ++ bp :: post → Asked pid sysid bp →
      (∀ x ∈ pre, ¬Asked pid sysid x) → pre = [] ∨ post = []
  | _ => True

variable [Fintype ι]

theorem Inv.boot (hsig : kind sigrd = .GENERAL) : Inv sigrd (Queue.boot ι kind used) where
  lists := ⟨fun _ => rfl, fun _ => Nat.zero_lt_succ _,
    fun _ => ⟨fun hin => absurd hin not_mem_nil, fun hin => absurd rfl hin.2⟩, nodup_nil, rfl⟩
  pool := ⟨nodup_nil, fun _ hp => absurd hp not_mem_nil, fun _ hp => (nomatch hp),
    fun _ _ hp => (nomatch hp)⟩
  sigrd := hsig
  spare := .inl rfl

omit [DecidableEq ι] [Fintype ι] in
theorem queues_put (rd : ℕ) (queue : List Mblk) (s : Sys ι) :
    queues (put rd queue s) = update (queues s) rd queue := put_queues rd queue s

/-- A fair step keeps the servers that are needed, and the ledgers. -/
theorem next_good (hn : next sigrd minserve h a h') (hfair : Fair sigrd h.sys a) (hi : Inv sigrd h.sys)
    (hl : Logged h) : Inv sigrd h'.sys ∧ Logged h' := by
  obtain ⟨s, e, hstep, rfl⟩ := hn
  cases a with
  | arrmsg msg =>
    rw [step] at hstep
    rcases hi.arrmsg msg hfair with harr | ⟨t, harr, ht, hcame, hsame⟩
    · rw [harr] at hstep
      obtain ⟨rfl, rfl⟩ := Prod.mk.inj (Option.some.inj hstep).symm
      exact ⟨hi, hl.quiet rfl rfl⟩
    · rw [harr] at hstep
      obtain ⟨rfl, rfl⟩ := Prod.mk.inj (Option.some.inj hstep).symm
      exact ⟨ht, hl.arrive rfl hcame (hsame.queues.trans (queues_put _ _ _))⟩
  | fork p =>
    rw [step] at hstep
    split at hstep
    · rename_i hp
      obtain ⟨rfl, rfl⟩ := Prod.mk.inj (Option.some.inj hstep).symm
      have hnot : p ∉ h.sys.procs := hi.pool.notMem (by rw [hp]; exact ⟨by rintro ⟨⟩, by rintro ⟨⟩⟩)
      exact ⟨hi.comes hnot (.inl rfl), hl.quiet rfl rfl⟩
    · cases hstep
  | de_queue p sig =>
    rw [step] at hstep
    split at hstep
    · rename_i hp
      obtain ⟨rfl, rfl⟩ := Prod.mk.inj (Option.some.inj hstep).symm
      have hnot : p ∉ h.sys.procs := hi.pool.notMem (by rw [hp]; exact ⟨by rintro ⟨⟩, by rintro ⟨⟩⟩)
      exact ⟨hi.comes hnot (.inl rfl), hl.quiet rfl rfl⟩
    · cases hstep
  | back p =>
    rw [step] at hstep
    split at hstep
    · rename_i hp
      obtain ⟨rfl, rfl⟩ := Prod.mk.inj (Option.some.inj hstep).symm
      obtain ⟨hsame, hcame⟩ := back_same p h.sys
      exact ⟨hi.back hp, hl.quiet hsame.queues hcame⟩
    · cases hstep
  | resume p =>
    rw [step] at hstep
    split at hstep
    · rename_i hp
      obtain ⟨rfl, rfl⟩ := Prod.mk.inj (Option.some.inj hstep).symm
      obtain ⟨hinv, hsame⟩ := hi.resume hp hfair
      exact ⟨hinv, hl.quiet hsame.queues (resume_came p h.sys)⟩
    · cases hstep
  | dequeue p =>
    rw [step] at hstep
    split at hstep
    · rename_i rd hp
      have hnot : p ∉ h.sys.procs := hi.pool.notMem (by rw [hp]; exact ⟨by rintro ⟨⟩, by rintro ⟨⟩⟩)
      cases hq : (h.sys.rcvd rd).rd_rcvdq with
      | nil =>
        rw [dequeue_empty hq] at hstep
        obtain ⟨rfl, rfl⟩ := Prod.mk.inj (Option.some.inj hstep).symm
        exact ⟨hi.comes hnot (.inl rfl), hl.quiet rfl rfl⟩
      | cons bp queue =>
        rw [hi.lists.dequeue_eq hq] at hstep
        obtain ⟨rfl, rfl⟩ := Prod.mk.inj (Option.some.inj hstep).symm
        refine ⟨hi.served hp hq rfl, hl.deliver ?_ hq ?_ (some p)⟩
        · rfl
        · exact queues_put rd queue h.sys
    · cases hstep
  | psignal p =>
    rw [step] at hstep
    split at hstep
    · cases hstep
    · rename_i hp
      obtain ⟨rfl, rfl⟩ := Prod.mk.inj (Option.some.inj hstep).symm
      exact ⟨hi.psignal hp rfl, hl.quiet rfl rfl⟩
    · obtain ⟨rfl, rfl⟩ := Prod.mk.inj (Option.some.inj hstep).symm
      exact ⟨hi.signalled rfl, hl.quiet rfl rfl⟩
  | specific rd =>
    rw [step] at hstep
    cases hq : (h.sys.rcvd rd).rd_rcvdq with
    | nil =>
      rw [dequeue_empty hq] at hstep
      cases hstep
    | cons bp queue =>
      rw [hi.lists.dequeue_eq hq] at hstep
      obtain ⟨rfl, rfl⟩ := Prod.mk.inj (Option.some.inj hstep).symm
      have hlen : queue.length ≤ (h.sys.rcvd rd).rd_rcvdq.length := by
        rw [hq]
        exact Nat.le_succ _
      refine ⟨hi.put hlen, hl.deliver ?_ hq (queues_put rd queue h.sys) none⟩
      rfl
  | chkrdq que pid sysid =>
    rw [step] at hstep
    rcases asked_split pid sysid (h.sys.rcvd que).rd_rcvdq with hno | ⟨pre, bp, post, hq, hbp, hno⟩
    · rw [hi.lists.chkrdq_none hno] at hstep
      obtain ⟨rfl, rfl⟩ := Prod.mk.inj (Option.some.inj hstep).symm
      exact ⟨hi, hl.quiet rfl rfl⟩
    · rw [hi.lists.chkrdq_some hq hbp hno] at hstep
      obtain ⟨rfl, rfl⟩ := Prod.mk.inj (Option.some.inj hstep).symm
      have hlen : (post ++ pre).length ≤ (h.sys.rcvd que).rd_rcvdq.length := by
        rw [hq, length_append, length_append, length_cons]
        omega
      refine ⟨hi.put hlen, hl.remove rfl ?_ ?_ (queues_put que _ h.sys)⟩
      · rw [queues, hq]
        exact perm_middle.trans (perm_append_comm.cons bp)
      · -- the queue is turned by nothing, or all the way
        rw [queues, hq]
        rcases hfair pre bp post hq hbp hno with rfl | rfl
        · rw [append_nil]
          exact sublist_cons_self bp post
        · exact sublist_append_left pre [bp]
  | checkq rd srmindex =>
    rw [step, hi.lists.checkq_eq] at hstep
    obtain ⟨rfl, rfl⟩ := Prod.mk.inj (Option.some.inj hstep).symm
    refine ⟨hi.put (length_filter_le _ _), hl.remove rfl ?_ filter_sublist (queues_put rd _ h.sys)⟩
    have hsplit := filter_append_perm (fun x => decide (x.msg.rq_mntindx = srmindex)) (queues h.sys rd)
    simpa [queues] using hsplit.symm

/-! ## Runs -/

/-- What queues are for -/
structure Attended (h : Hist ι) : Prop where
  logged : Logged h
  qcnt : ∀ rd, (h.sys.rcvd rd).rd_qcnt = (h.sys.rcvd rd).rd_rcvdq.length
  msgs : ∀ rd, (h.sys.rcvd rd).rd_qtype = .GENERAL → (rd ∈ h.sys.msgs ↔ (h.sys.rcvd rd).rd_rcvdq ≠ [])
  nodup : h.sys.msgs.Nodup
  msglistcnt : h.sys.msglistcnt = h.sys.msgs.length
  attended : ∀ rd, (h.sys.rcvd rd).rd_qtype = .GENERAL → (h.sys.rcvd rd).rd_rcvdq ≠ [] → h.sys.procs ≠ [] →
    ∃ p, Comes h.sys p

theorem Inv.attended (hi : Inv sigrd h.sys) (hl : Logged h) : Attended h where
  logged := hl
  qcnt := hi.lists.qcnt
  msgs rd hk := (hi.lists.mem rd).trans (and_iff_right hk)
  nodup := hi.lists.nodup
  msglistcnt := hi.lists.cnt
  attended rd hk hq hidle := by
    have hwait := hi.lists.waiting_pos hk hq
    have hle := hi.spare.resolve_left hidle
    obtain ⟨p, hp⟩ := census_pos.mp (hwait.trans_le hle)
    exact ⟨p, of_decide_eq_true hp⟩

/-- In a run of fair steps no message is lost or left alone. -/
theorem fair_attended {as : List (Act ι)} (hsig : kind sigrd = .GENERAL)
    (hrun : Run (fun h a h' => Fair sigrd h.sys a ∧ next sigrd minserve h a h') (.boot ι kind used) as h) :
    Attended h := by
  have hboth : Inv sigrd h.sys ∧ Logged h := by
    refine hrun.invariant (I := fun h => Inv sigrd h.sys ∧ Logged h) ?_ ⟨Inv.boot hsig, Logged.boot⟩
    intro h a h' hh hn
    exact next_good hn.2 hn.1 hh.1 hh.2
  exact hboth.1.attended hboth.2

/-- A message for the first descriptor -/
def request : Message := ⟨0, false, 1, 2, 3⟩

theorem fair_attended_request : ∃ h : Hist (Fin 2), (h.sys.rcvd 0).rd_rcvdq ≠ [] ∧ h.sys.procs = [0] ∧
    Attended h := by
  refine ⟨_, ?_, ?_, @fair_attended (Fin 2) 0 2 _ (fun _ => .GENERAL) (fun _ => true) _ _
    [.fork 0, .back 0, .fork 1, .back 1, .arrmsg request, .resume 1] rfl
    (.cons ⟨trivial, _, _, rfl, rfl⟩ <| .cons ⟨trivial, _, _, rfl, rfl⟩ <| .cons ⟨trivial, _, _, rfl, rfl⟩ <|
      .cons ⟨trivial, _, _, rfl, rfl⟩ <| .cons ⟨?_, _, _, rfl, rfl⟩ <| .cons ⟨?_, _, _, rfl, rfl⟩ <| .nil _)⟩
  · exact cons_ne_nil _ _
  · rfl
  · exact Nat.lt_of_sub_pos (Nat.zero_lt_succ _)
  · exact fun hsig => nomatch hsig

/-- The server that was sent for the message gets a signal, and the other server sleeps on. -/
theorem request_waits_alone : ¬∀ (as : List (Act (Fin 2))) (h : Hist (Fin 2)),
    Run (next 0 2) (.boot (Fin 2) (fun _ => .GENERAL) fun _ => true) as h → Attended h := by
  intro hall
  have hrun := hall [.fork 0, .back 0, .fork 1, .back 1, .arrmsg request, .psignal 1, .resume 1] _
    (.cons ⟨_, _, rfl, rfl⟩ <| .cons ⟨_, _, rfl, rfl⟩ <| .cons ⟨_, _, rfl, rfl⟩ <| .cons ⟨_, _, rfl, rfl⟩ <|
      .cons ⟨_, _, rfl, rfl⟩ <| .cons ⟨_, _, rfl, rfl⟩ <| .cons ⟨_, _, rfl, rfl⟩ <| .nil _)
  obtain ⟨p, hp⟩ := hrun.attended 0 rfl (cons_ne_nil _ _) (cons_ne_nil _ _)
  match p with
  | 0 => exact hp
  | 1 => exact hp

end Svr3.Queue
