import Svr3.Lib.Census
import Svr3.Lib.Holdings
import Svr3.Lib.Ledger
import Svr3.Lib.Run
import Svr3.Nudnix.Queue

/-!
# Messages and the servers for them

While servers are idle, as many servers are on their way to `de_queue` as messages wait. A server that `arrmsg` has
taken off `procs` may be killed before it runs, and then nobody else is sent; and `chkrdq` leaves a queue turned
when it finds its message in the middle.
-/

namespace Svr3.Queue

open Function List

variable {ι : Type} {sigrd : ℕ} {minserve : ℤ} {s t : Sys ι} {rd : ℕ} {p : ι} {queue : List Mblk}
  {bp : Mblk}

/-! ## Queues and the list of messages -/

/-- The counts and the list say what the queues are. -/
structure Lists (s : Sys ι) : Prop where
  qcnt : ∀ rd, (s.rcvd rd).rd_qcnt = (s.rcvd rd).rd_rcvdq.length
  short : ∀ rd, (s.rcvd rd).rd_rcvdq.length < 65536
  mem : ∀ rd, rd ∈ s.msgs ↔ (s.rcvd rd).rd_qtype = .GENERAL ∧ (s.rcvd rd).rd_rcvdq ≠ []
  nodup : s.msgs.Nodup
  cnt : s.msglistcnt = s.msgs.length

/-- The list of messages when the queue of `rd` is `queue` -/
def relist (rd : ℕ) (kind : Qtype) (queue : List Mblk) (msgs : List ℕ) : List ℕ :=
  if kind = .SPECIFIC then msgs
  else if queue = [] then msgs.erase rd
  else if rd ∈ msgs then msgs
  else msgs ++ [rd]

/-- The queue of `rd` becomes `queue`. -/
def put (rd : ℕ) (queue : List Mblk) (s : Sys ι) : Sys ι :=
  { s with
    rcvd := update s.rcvd rd { s.rcvd rd with rd_rcvdq := queue, rd_qcnt := queue.length }
    msgs := relist rd (s.rcvd rd).rd_qtype queue s.msgs
    msglistcnt := (relist rd (s.rcvd rd).rd_qtype queue s.msgs).length }

/-- The messages that wait for a server -/
def waiting (s : Sys ι) : ℕ := (holdings s.msgs fun rd => (s.rcvd rd).rd_rcvdq).length

theorem put_queue : ((put rd queue s).rcvd rd).rd_rcvdq = queue := by
  simp [put]

theorem put_other {x : ℕ} (hx : x ≠ rd) : (put rd queue s).rcvd x = s.rcvd x := update_of_ne hx _ _

theorem put_qtype (x : ℕ) : ((put rd queue s).rcvd x).rd_qtype = (s.rcvd x).rd_qtype := by
  by_cases hx : x = rd
  · subst hx
    simp [put]
  · rw [put_other hx]

theorem Lists.put (h : Lists s) (hlen : queue.length < 65536) : Lists (put rd queue s) where
  qcnt x := by
    by_cases hx : x = rd
    · subst hx
      simp [Queue.put]
    · rw [put_other hx]
      exact h.qcnt x
  short x := by
    by_cases hx : x = rd
    · subst hx
      rw [put_queue]
      exact hlen
    · rw [put_other hx]
      exact h.short x
  mem x := by
    rw [put_qtype]
    change x ∈ relist rd (s.rcvd rd).rd_qtype queue s.msgs ↔ _
    have hmem := h.mem x
    by_cases hx : x = rd
    · subst hx
      rw [put_queue, relist]
      cases hk : (s.rcvd x).rd_qtype with
      | SPECIFIC => simpa [hk] using hmem
      | GENERAL =>
        by_cases hq : queue = []
        · simp [hq, h.nodup.mem_erase_iff]
        · by_cases hin : x ∈ s.msgs <;> simp [hq, hin]
    · rw [put_other hx, ← hmem, relist]
      split
      next => rfl
      next =>
        split
        next => exact mem_erase_of_ne hx
        next =>
          split
          next => rfl
          next => simp [hx]
  nodup := by
    change (relist rd (s.rcvd rd).rd_qtype queue s.msgs).Nodup
    rw [relist]
    split
    next => exact h.nodup
    next =>
      split
      next => exact h.nodup.erase rd
      next =>
        split
        next => exact h.nodup
        next hin => exact nodup_append'.mpr ⟨h.nodup, nodup_singleton rd, by simpa using hin⟩
  cnt := rfl

theorem put_queues (rd : ℕ) (queue : List Mblk) (s : Sys ι) :
    (fun x => ((put rd queue s).rcvd x).rd_rcvdq) = update (fun x => (s.rcvd x).rd_rcvdq) rd queue := by
  funext x
  by_cases hx : x = rd
  · subst hx
    rw [put_queue, update_self]
  · rw [put_other hx, update_of_ne hx]

/-- Only the queue of a GENERAL descriptor waits for a server. -/
theorem Lists.waiting_put (h : Lists s) (rd : ℕ) (queue : List Mblk) :
    if (s.rcvd rd).rd_qtype = .GENERAL then
      waiting (Queue.put rd queue s) + (s.rcvd rd).rd_rcvdq.length = waiting s + queue.length
    else waiting (Queue.put rd queue s) = waiting s := by
  rw [waiting, put_queues]
  change if _ then (holdings (relist rd (s.rcvd rd).rd_qtype queue s.msgs) _).length + _ = _ else
    (holdings (relist rd (s.rcvd rd).rd_qtype queue s.msgs) _).length = _
  have hmem := h.mem rd
  have hout {l : List ℕ} (hl : rd ∉ l) :
      holdings l (update (fun x => (s.rcvd x).rd_rcvdq) rd queue) =
        holdings l fun x => (s.rcvd x).rd_rcvdq := by
    apply flatMap_congr
    intro x hx
    exact update_of_ne (ne_of_mem_of_not_mem hx hl) _ _
  cases hk : (s.rcvd rd).rd_qtype with
  | SPECIFIC =>
    have hnot : rd ∉ s.msgs := fun hin => absurd (hmem.mp hin).1 (by rw [hk]; nofun)
    rw [if_neg nofun, relist, if_pos rfl, hout hnot]
    rfl
  | GENERAL =>
    rw [if_pos rfl, relist, if_neg nofun]
    by_cases hin : rd ∈ s.msgs
    · have hsplit := (holdings_split (fun x => (s.rcvd x).rd_rcvdq) hin).length_eq
      rw [length_append] at hsplit
      by_cases hq : queue = []
      · rw [if_pos hq, hout h.nodup.not_mem_erase, hq, waiting, hsplit, length_nil]
        omega
      · have hupd : (holdings s.msgs (update (fun x => (s.rcvd x).rd_rcvdq) rd queue)).Perm
            (queue ++ holdings (s.msgs.erase rd) fun x => (s.rcvd x).rd_rcvdq) := holdings_update h.nodup hin
        rw [if_neg hq, if_pos hin, hupd.length_eq, length_append, waiting, hsplit]
        omega
    · have hnil : (s.rcvd rd).rd_rcvdq = [] := by
        by_contra hne
        exact hin (hmem.mpr ⟨hk, hne⟩)
      rw [hnil, length_nil, Nat.add_zero]
      by_cases hq : queue = []
      · rw [if_pos hq, erase_of_not_mem hin, hout hin, hq]
        rfl
      · rw [if_neg hq, if_neg hin, holdings, flatMap_append, length_append]
        have hone : [rd].flatMap (update (fun x => (s.rcvd x).rd_rcvdq) rd queue) = queue := by
          simp
        rw [hone]
        exact congrArg (fun l : List Mblk => l.length + queue.length) (hout hin)

theorem waiting_eq_zero (hnil : s.msgs = []) : waiting s = 0 := by
  rw [waiting, hnil]
  rfl

theorem Lists.waiting_pos (h : Lists s) (hk : (s.rcvd rd).rd_qtype = .GENERAL)
    (hq : (s.rcvd rd).rd_rcvdq ≠ []) : 0 < waiting s := by
  obtain ⟨bp, hbp⟩ := exists_mem_of_ne_nil _ hq
  exact length_pos_of_mem (mem_holdings.mpr ⟨rd, (h.mem rd).mpr ⟨hk, hq⟩, hbp⟩)

/-! ## What the routines do with a queue -/

theorem incr_length {n : ℕ} (h : n + 1 < 65536) : incr n = n + 1 := Nat.mod_eq_of_lt h

theorem decr_length {n : ℕ} (h : n + 1 < 65536) : decr (n + 1) = n := by
  rw [decr]
  omega

theorem decr_iterate {n k : ℕ} (h : n + k < 65536) : Nat.iterate decr k (n + k) = n := by
  induction k with
  | zero => rfl
  | succ k ih =>
    have hone : decr (n + (k + 1)) = n + k := decr_length h
    rw [Function.iterate_succ_apply, hone]
    exact ih (by omega)

theorem Lists.put_self (h : Lists s) : Queue.put rd (s.rcvd rd).rd_rcvdq s = s := by
  have hmsgs : relist rd (s.rcvd rd).rd_qtype (s.rcvd rd).rd_rcvdq s.msgs = s.msgs := by
    have hmem := h.mem rd
    rw [relist]
    split
    next => rfl
    next hk =>
      split
      next hq => exact erase_of_not_mem fun hin => (hmem.mp hin).2 hq
      next hq =>
        rw [if_pos]
        cases hg : (s.rcvd rd).rd_qtype with
        | SPECIFIC => exact absurd hg hk
        | GENERAL => exact hmem.mpr ⟨hg, hq⟩
  rw [Queue.put, hmsgs, ← h.cnt, ← h.qcnt]
  exact congrArg (fun r => { s with rcvd := r }) (update_eq_self rd s.rcvd)

/-- Where a queue had messages and has some, or is not on the list, the list is left. -/
theorem Lists.set_put (h : Lists s) (hne : (s.rcvd rd).rd_rcvdq ≠ [])
    (hq : queue ≠ [] ∨ (s.rcvd rd).rd_qtype = .SPECIFIC) :
    setRd rd { s.rcvd rd with rd_rcvdq := queue, rd_qcnt := queue.length } s = Queue.put rd queue s := by
  have hmsgs : relist rd (s.rcvd rd).rd_qtype queue s.msgs = s.msgs := by
    rw [relist]
    split
    next => rfl
    next hk =>
      rw [if_neg (hq.resolve_right hk), if_pos]
      cases hg : (s.rcvd rd).rd_qtype with
      | SPECIFIC => exact absurd hg hk
      | GENERAL => exact (h.mem rd).mpr ⟨hg, hne⟩
  rw [Queue.put, hmsgs, ← h.cnt]
  rfl

/-- `rm_msgs_list` takes an empty queue off the list. -/
theorem Lists.rm_put (h : Lists s) (hne : (s.rcvd rd).rd_rcvdq ≠ []) :
    rm_msgs_list rd (setRd rd { s.rcvd rd with rd_rcvdq := [], rd_qcnt := 0 } s) = Queue.put rd [] s := by
  have hemp : ((setRd rd { s.rcvd rd with rd_rcvdq := [], rd_qcnt := 0 } s).rcvd rd).rcvdemp := by
    simp [setRd, Rcvd.rcvdemp]
  rw [rm_msgs_list, if_neg (not_not.mpr hemp)]
  have hmem := h.mem rd
  cases hg : (s.rcvd rd).rd_qtype with
  | SPECIFIC =>
    have hnot : rd ∉ (setRd rd { s.rcvd rd with rd_rcvdq := [], rd_qcnt := 0 } s).msgs := fun hin =>
      absurd (hmem.mp hin).1 (by rw [hg]; nofun)
    rw [if_neg hnot]
    exact h.set_put hne (.inr hg)
  | GENERAL =>
    have hin : rd ∈ (setRd rd { s.rcvd rd with rd_rcvdq := [], rd_qcnt := 0 } s).msgs := hmem.mpr ⟨hg, hne⟩
    have hin' : rd ∈ s.msgs := hin
    have hlen : ((s.msgs.erase rd).length : ℤ) = s.msglistcnt - 1 := by
      have hpos := length_pos_of_mem hin'
      rw [length_erase_of_mem hin', h.cnt]
      omega
    have hlist : relist rd (s.rcvd rd).rd_qtype [] s.msgs = s.msgs.erase rd := by
      rw [hg, relist, if_neg nofun, if_pos rfl]
    rw [if_pos hin, Queue.put, hlist, hlen]
    rfl

theorem Lists.dequeue_eq (h : Lists s) (hq : (s.rcvd rd).rd_rcvdq = bp :: queue) :
    dequeue rd s = some (bp, Queue.put rd queue s) := by
  have hne : (s.rcvd rd).rd_rcvdq ≠ [] := by rw [hq]; nofun
  have hshort := h.short rd
  have hcnt : decr (s.rcvd rd).rd_qcnt = queue.length := by
    rw [h.qcnt rd, hq, length_cons]
    rw [hq, length_cons] at hshort
    exact decr_length hshort
  rw [dequeue]
  dsimp only
  rw [hq]
  dsimp only
  rw [hcnt]
  have hemp : ((setRd rd { s.rcvd rd with rd_rcvdq := queue, rd_qcnt := queue.length } s).rcvd rd).rcvdemp ↔
      queue = [] := by
    simp [setRd, Rcvd.rcvdemp]
  rw [if_congr (and_congr_left' hemp) rfl rfl]
  by_cases hboth : queue = [] ∧ (s.rcvd rd).rd_qtype = .GENERAL
  · rw [if_pos hboth, hboth.1]
    exact congrArg (fun t => some (bp, t)) (h.rm_put hne)
  · rw [if_neg hboth]
    refine congrArg (fun t => some (bp, t)) (h.set_put hne ?_)
    by_cases hnil : queue = []
    · refine .inr ?_
      cases hg : (s.rcvd rd).rd_qtype with
      | SPECIFIC => rfl
      | GENERAL => exact absurd ⟨hnil, hg⟩ hboth
    · exact .inl hnil

theorem dequeue_empty (hq : (s.rcvd rd).rd_rcvdq = []) : dequeue rd s = none := by
  rw [dequeue]
  dsimp only
  rw [hq]

/-! ## Messages in the middle of a queue -/

/-- What `chkrdq` looks for -/
def Asked (pid sysid : BitVec 32) (bp : Mblk) : Prop := bp.msg.rq_pid = pid ∧ bp.msg.rq_sysid = sysid

variable {pid sysid : BitVec 32}

theorem chkLoop_none {n : ℕ} {xs : List Mblk} (hno : ∀ x ∈ xs, ¬Asked pid sysid x) (hn : n = xs.length)
    (ys : List Mblk) : chkLoop pid sysid n (xs ++ ys) = some (none, ys ++ xs) := by
  induction xs generalizing n ys with
  | nil =>
    subst hn
    simp [chkLoop]
  | cons x xs ih =>
    subst hn
    have hx : ¬(x.msg.rq_pid = pid ∧ x.msg.rq_sysid = sysid) := hno x mem_cons_self
    rw [length_cons, cons_append, chkLoop, if_neg hx, append_assoc,
      ih (fun y hy => hno y (mem_cons_of_mem x hy)) rfl]
    simp

/-- The messages before the one that is found are put behind the others. -/
theorem chkLoop_some {n : ℕ} {pre post : List Mblk} (hno : ∀ x ∈ pre, ¬Asked pid sysid x)
    (hbp : Asked pid sysid bp) (hn : pre.length < n) (ys : List Mblk) :
    chkLoop pid sysid n (pre ++ bp :: post ++ ys) = some (some bp, post ++ ys ++ pre) := by
  induction pre generalizing n ys with
  | nil =>
    obtain ⟨n, rfl⟩ : ∃ k, n = k + 1 := ⟨n - 1, by omega⟩
    have hx : bp.msg.rq_pid = pid ∧ bp.msg.rq_sysid = sysid := hbp
    rw [nil_append, cons_append, chkLoop, if_pos hx, append_nil]
  | cons x pre ih =>
    obtain ⟨n, rfl⟩ : ∃ k, n = k + 1 := ⟨n - 1, by omega⟩
    have hx : ¬(x.msg.rq_pid = pid ∧ x.msg.rq_sysid = sysid) := hno x mem_cons_self
    rw [cons_append, cons_append, chkLoop, if_neg hx, append_assoc,
      ih (fun y hy => hno y (mem_cons_of_mem x hy)) (Nat.lt_of_succ_lt_succ hn)]
    simp

/-- The first message that is asked for, if there is one -/
theorem asked_split (pid sysid : BitVec 32) (xs : List Mblk) :
    (∀ x ∈ xs, ¬Asked pid sysid x) ∨
      ∃ pre bp post, xs = pre ++ bp :: post ∧ Asked pid sysid bp ∧ ∀ x ∈ pre, ¬Asked pid sysid x := by
  induction xs with
  | nil => exact .inl fun x hx => absurd hx not_mem_nil
  | cons x xs ih =>
    by_cases hx : Asked pid sysid x
    · exact .inr ⟨[], x, xs, rfl, hx, fun y hy => absurd hy not_mem_nil⟩
    · rcases ih with hall | ⟨pre, bp, post, rfl, hbp, hno⟩
      · exact .inl (forall_mem_cons.mpr ⟨hx, hall⟩)
      · exact .inr ⟨x :: pre, bp, post, rfl, hbp, forall_mem_cons.mpr ⟨hx, hno⟩⟩

theorem Lists.chkrdq_none (h : Lists s) (hno : ∀ x ∈ (s.rcvd rd).rd_rcvdq, ¬Asked pid sysid x) :
    chkrdq rd pid sysid s = some (none, s) := by
  have hloop := chkLoop_none hno (h.qcnt rd) []
  rw [append_nil, nil_append] at hloop
  rw [chkrdq]
  dsimp only
  rw [hloop]
  exact congrArg (fun r => some (none, { s with rcvd := r })) (update_eq_self rd s.rcvd)

theorem Lists.chkrdq_some (h : Lists s) {pre post : List Mblk} (hq : (s.rcvd rd).rd_rcvdq = pre ++ bp :: post)
    (hbp : Asked pid sysid bp) (hno : ∀ x ∈ pre, ¬Asked pid sysid x) :
    chkrdq rd pid sysid s = some (some bp, Queue.put rd (post ++ pre) s) := by
  have hne : (s.rcvd rd).rd_rcvdq ≠ [] := by simp [hq]
  have hshort := h.short rd
  have hlen : (s.rcvd rd).rd_qcnt = (post ++ pre).length + 1 := by
    rw [h.qcnt rd, hq, length_append, length_append, length_cons]
    omega
  rw [← h.qcnt rd, hlen] at hshort
  have hfound : pre.length < (s.rcvd rd).rd_qcnt := by
    rw [hlen, length_append]
    omega
  have hloop : chkLoop pid sysid (s.rcvd rd).rd_qcnt (pre ++ bp :: post ++ []) = some (some bp, post ++ [] ++ pre) :=
    chkLoop_some hno hbp hfound []
  rw [append_nil, append_nil, ← hq] at hloop
  rw [chkrdq]
  dsimp only
  rw [hloop]
  dsimp only
  rw [hlen, decr_length hshort]
  have hemp : ((setRd rd { s.rcvd rd with rd_rcvdq := post ++ pre, rd_qcnt := (post ++ pre).length } s).rcvd
      rd).rcvdemp ↔ post ++ pre = [] := by
    simp [setRd, Rcvd.rcvdemp]
  rw [if_congr hemp rfl rfl]
  by_cases hnil : post ++ pre = []
  · rw [if_pos hnil, hnil]
    exact congrArg (fun t => some (some bp, t)) (h.rm_put hne)
  · rw [if_neg hnil]
    exact congrArg (fun t => some (some bp, t)) (h.set_put hne (.inl hnil))

/-! ## Messages that are tossed -/

theorem checkLoop_eq (srmindex : BitVec 32) {n : ℕ} {xs : List Mblk} (hn : n = xs.length) (ys tossed : List Mblk) :
    checkLoop srmindex n (xs ++ ys) tossed =
      some (ys ++ xs.filter fun x => x.msg.rq_mntindx ≠ srmindex,
        tossed ++ xs.filter fun x => x.msg.rq_mntindx = srmindex) := by
  induction xs generalizing n ys tossed with
  | nil =>
    subst hn
    simp [checkLoop]
  | cons x xs ih =>
    subst hn
    rw [length_cons, cons_append, checkLoop]
    by_cases hx : x.msg.rq_mntindx = srmindex
    · rw [if_pos hx]
      by_cases hnil : xs ++ ys = []
      · obtain ⟨rfl, rfl⟩ := append_eq_nil_iff.mp hnil
        simp [hx]
      · rw [if_neg hnil, ih rfl]
        simp [hx]
    · rw [if_neg hx, append_assoc, ih rfl]
      simp [hx]

theorem Lists.checkq_eq (h : Lists s) (rd : ℕ) (srmindex : BitVec 32) :
    checkq rd srmindex s = some ((s.rcvd rd).rd_rcvdq.filter fun x => x.msg.rq_mntindx = srmindex,
      Queue.put rd ((s.rcvd rd).rd_rcvdq.filter fun x => x.msg.rq_mntindx ≠ srmindex) s) := by
  have hloop := checkLoop_eq srmindex (h.qcnt rd) [] []
  rw [append_nil, nil_append, nil_append] at hloop
  generalize hstay : (s.rcvd rd).rd_rcvdq.filter (fun x => x.msg.rq_mntindx ≠ srmindex) = stay at hloop ⊢
  generalize htoss : (s.rcvd rd).rd_rcvdq.filter (fun x => x.msg.rq_mntindx = srmindex) = toss at hloop ⊢
  have hsum : (s.rcvd rd).rd_rcvdq.length = stay.length + toss.length := by
    have hsplit := length_eq_length_filter_add (l := (s.rcvd rd).rd_rcvdq) fun x =>
      decide (x.msg.rq_mntindx = srmindex)
    rw [← htoss, ← hstay, hsplit, Nat.add_comm]
    simp
  have hshort := h.short rd
  rw [hsum] at hshort
  rw [checkq]
  dsimp only
  rw [hloop]
  dsimp only
  rw [h.qcnt rd, hsum, decr_iterate hshort]
  have hemp : ((setRd rd { s.rcvd rd with rd_rcvdq := stay, rd_qcnt := stay.length } s).rcvd rd).rcvdemp ↔
      stay = [] := by
    simp [setRd, Rcvd.rcvdemp]
  rw [if_congr (and_congr_right' hemp) rfl rfl]
  refine congrArg (fun t => some (toss, t)) ?_
  by_cases htossed : toss = []
  · -- all stay
    have hsame : stay = (s.rcvd rd).rd_rcvdq := by
      rw [← hstay]
      apply filter_eq_self.mpr
      intro x hx
      have hno := filter_eq_nil_iff.mp (htoss.trans htossed) x hx
      simpa using hno
    rw [if_neg fun hc => hc.1 htossed, hsame, h.put_self, ← h.qcnt rd]
    exact congrArg (fun r => { s with rcvd := r }) (update_eq_self rd s.rcvd)
  · have hne : (s.rcvd rd).rd_rcvdq ≠ [] := by
      intro hq
      rw [hq] at htoss
      exact htossed htoss.symm
    by_cases hnil : stay = []
    · rw [if_pos ⟨htossed, hnil⟩, hnil]
      exact h.rm_put hne
    · rw [if_neg fun hc => hnil hc.2]
      exact h.set_put hne (.inl hnil)

/-! ## Servers on their way -/

/-- Queues are as they were. -/
structure SameQueues (s t : Sys ι) : Prop where
  queue : ∀ rd, (t.rcvd rd).rd_rcvdq = (s.rcvd rd).rd_rcvdq
  qcnt : ∀ rd, (t.rcvd rd).rd_qcnt = (s.rcvd rd).rd_qcnt
  qtype : ∀ rd, (t.rcvd rd).rd_qtype = (s.rcvd rd).rd_qtype
  msgs : t.msgs = s.msgs
  msglistcnt : t.msglistcnt = s.msglistcnt

theorem SameQueues.lists (h : SameQueues s t) (hs : Lists s) : Lists t where
  qcnt rd := by rw [h.qcnt, h.queue, hs.qcnt]
  short rd := by
    rw [h.queue]
    exact hs.short rd
  mem rd := by rw [h.msgs, h.qtype, h.queue, hs.mem]
  nodup := h.msgs ▸ hs.nodup
  cnt := by rw [h.msglistcnt, h.msgs, hs.cnt]

theorem SameQueues.waiting (h : SameQueues s t) : waiting t = waiting s := by
  rw [Queue.waiting, Queue.waiting, h.msgs]
  congr 2
  funext rd
  exact h.queue rd

variable [DecidableEq ι]

/-- The server comes to `de_queue`, or has been taken off `procs` to do so. -/
def Comes (s : Sys ι) (p : ι) : Prop :=
  match (s.server p).phase with
  | .running => True
  | .chosen _ => True
  | .awake => p ∉ s.procs
  | _ => False

instance (s : Sys ι) (p : ι) : Decidable (Comes s p) := by
  unfold Comes
  split <;> infer_instance

/-- The servers that are on their way -/
def coming [Fintype ι] (s : Sys ι) : ℕ := census (fun p => decide (Comes s p)) (· = true)

theorem coming_update [Fintype ι] (hother : ∀ x ≠ p, Comes t x ↔ Comes s x) :
    coming t + (if Comes s p then 1 else 0) = coming s + if Comes t p then 1 else 0 := by
  have hupd : (fun x => decide (Comes t x)) =
      update (fun x => decide (Comes s x)) p (decide (Comes t p)) := by
    funext x
    by_cases hx : x = p
    · rw [hx, update_self]
    · rw [update_of_ne hx]
      exact decide_eq_decide.mpr (hother x hx)
  have hcensus := census_update (f := fun x => decide (Comes s x)) (q := (· = true)) p (decide (Comes t p))
  rw [coming, coming, hupd]
  simpa using hcensus

/-- Who sleeps is on `procs`, and who is on `procs` is in the sleep; queues that servers have chosen are GENERAL. -/
structure Pool (s : Sys ι) : Prop where
  nodup : s.procs.Nodup
  inSleep : ∀ p ∈ s.procs, (s.server p).phase = .asleep ∨ (s.server p).phase = .awake
  asleep : ∀ p, (s.server p).phase = .asleep → p ∈ s.procs
  chosen : ∀ p rd, (s.server p).phase = .chosen rd → (s.rcvd rd).rd_qtype = .GENERAL

structure Inv [Fintype ι] (sigrd : ℕ) (s : Sys ι) : Prop where
  lists : Lists s
  pool : Pool s
  sigrd : (s.rcvd sigrd).rd_qtype = .GENERAL
  spare : s.procs = [] ∨ waiting s ≤ coming s

variable [Fintype ι]

/-- Only the server `p` has gone on. -/
structure Moves (p : ι) (s t : Sys ι) : Prop where
  queues : SameQueues s t
  phase : ∀ x ≠ p, (t.server x).phase = (s.server x).phase
  procs : ∀ x ≠ p, (x ∈ t.procs ↔ x ∈ s.procs)

omit [DecidableEq ι] [Fintype ι] in
theorem Moves.comes (h : Moves p s t) : ∀ x ≠ p, (Comes t x ↔ Comes s x) := by
  intro x hx
  rw [Comes, Comes, h.phase x hx]
  split
  next => rfl
  next => rfl
  next => exact not_congr (h.procs x hx)
  next => rfl

theorem Moves.le (h : Moves p s t) (hp : Comes s p → Comes t p) : coming s ≤ coming t := by
  have hupd := coming_update h.comes
  by_cases hc : Comes s p
  · rw [if_pos hc, if_pos (hp hc)] at hupd
    omega
  · rw [if_neg hc] at hupd
    omega

omit [DecidableEq ι] [Fintype ι] in
theorem Moves.pool (h : Moves p s t) (hs : Pool s) (hnodup : t.procs.Nodup)
    (hin : p ∈ t.procs → (t.server p).phase = .asleep ∨ (t.server p).phase = .awake)
    (hasleep : (t.server p).phase = .asleep → p ∈ t.procs)
    (hchosen : ∀ rd, (t.server p).phase = .chosen rd → (s.rcvd rd).rd_qtype = .GENERAL) : Pool t := by
  refine ⟨hnodup, fun x hx => ?_, fun x hx => ?_, fun x rd hx => ?_⟩
  · by_cases hxp : x = p
    · exact hxp ▸ hin (hxp ▸ hx)
    · rw [h.phase x hxp]
      exact hs.inSleep x ((h.procs x hxp).mp hx)
  · by_cases hxp : x = p
    · exact hxp ▸ hasleep (hxp ▸ hx)
    · rw [h.phase x hxp] at hx
      exact (h.procs x hxp).mpr (hs.asleep x hx)
  · rw [h.queues.qtype]
    by_cases hxp : x = p
    · exact hchosen rd (hxp ▸ hx)
    · rw [h.phase x hxp] at hx
      exact hs.chosen x rd hx

theorem Moves.inv (h : Moves p s t) (hs : Inv sigrd s) (hpool : Pool t)
    (hspare : t.procs = [] ∨ waiting s ≤ coming t) : Inv sigrd t where
  lists := h.queues.lists hs.lists
  pool := hpool
  sigrd := (h.queues.qtype sigrd).trans hs.sigrd
  spare := by rwa [h.queues.waiting]

omit [DecidableEq ι] [Fintype ι] in
theorem Pool.notMem (h : Pool s) (hp : (s.server p).phase ≠ .asleep ∧ (s.server p).phase ≠ .awake) :
    p ∉ s.procs := fun hin => (h.inSleep p hin).elim hp.1 hp.2

omit [Fintype ι] in
theorem moves_setServer (p : ι) (v : Server) (i : ℤ) (s : Sys ι) :
    Moves p s (setServer p v { s with idleserver := i }) :=
  ⟨⟨fun _ => rfl, fun _ => rfl, fun _ => rfl, rfl, rfl⟩,
    fun _ hx => congrArg Server.phase (update_of_ne hx _ _), fun _ _ => Iff.rfl⟩

omit [Fintype ι] in
theorem setServer_self (p : ι) (v : Server) (s : Sys ι) : (setServer p v s).server p = v :=
  update_self _ _ _

/-- A server that goes on outside of the sleep -/
theorem Inv.setServer (h : Inv sigrd s) {v : Server} {i : ℤ} (hp : p ∉ s.procs) (hv : v.phase ≠ .asleep)
    (hchosen : ∀ rd, v.phase = .chosen rd → (s.rcvd rd).rd_qtype = .GENERAL)
    (hspare : s.procs = [] ∨ waiting s ≤ coming (setServer p v { s with idleserver := i })) :
    Inv sigrd (setServer p v { s with idleserver := i }) := by
  have hmoves := moves_setServer p v i s
  have hself := setServer_self p v { s with idleserver := i }
  apply hmoves.inv h _ hspare
  apply hmoves.pool h.pool h.pool.nodup (fun hin => absurd hin hp)
  · rw [hself]
    exact fun ha => absurd ha hv
  · rw [hself]
    exact hchosen

/-- A server that comes, or stays on its way -/
theorem Inv.comes (h : Inv sigrd s) {v : Server} {i : ℤ} (hp : p ∉ s.procs)
    (hv : v.phase = .running ∨ ∃ rd, v.phase = .chosen rd ∧ (s.rcvd rd).rd_qtype = .GENERAL) :
    Inv sigrd (Queue.setServer p v { s with idleserver := i }) := by
  have hself := setServer_self p v { s with idleserver := i }
  have hcomes : Comes (Queue.setServer p v { s with idleserver := i }) p := by
    rw [Comes, hself]
    rcases hv with hv | ⟨rd, hv, -⟩ <;> (rw [hv]; trivial)
  apply h.setServer hp
  · rcases hv with hv | ⟨rd, hv, -⟩ <;> (rw [hv]; nofun)
  · intro rd hrd
    rcases hv with hv | ⟨rd', hv, hk⟩
    · rw [hv] at hrd
      exact nomatch hrd
    · rw [hv] at hrd
      exact Phase.chosen.inj hrd ▸ hk
  · exact h.spare.imp_right fun hle => hle.trans ((moves_setServer p v i s).le fun _ => hcomes)

/-- A server that is no longer on its way, where none was needed for it -/
theorem Inv.leaves (h : Inv sigrd s) {v : Server} {i : ℤ} (hp : p ∉ s.procs)
    (hv : v.phase = .gone ∨ v.phase = .serving) (hspare : s.procs = [] ∨ waiting s < coming s ∨ waiting s = 0) :
    Inv sigrd (Queue.setServer p v { s with idleserver := i }) := by
  apply h.setServer hp
  · rcases hv with hv | hv <;> (rw [hv]; nofun)
  · intro rd hrd
    rcases hv with hv | hv <;> (rw [hv] at hrd; exact nomatch hrd)
  · refine hspare.imp_right fun hlt => ?_
    have hupd := coming_update (moves_setServer p v i s).comes
    have hone : (if Comes s p then 1 else 0) ≤ 1 := by split <;> omega
    omega

/-! ## What servers do -/

omit [DecidableEq ι] [Fintype ι] in
theorem SameQueues.trans {u : Sys ι} (h : SameQueues s t) (h' : SameQueues t u) : SameQueues s u where
  queue rd := (h'.queue rd).trans (h.queue rd)
  qcnt rd := (h'.qcnt rd).trans (h.qcnt rd)
  qtype rd := (h'.qtype rd).trans (h.qtype rd)
  msgs := h'.msgs.trans h.msgs
  msglistcnt := h'.msglistcnt.trans h.msglistcnt

omit [DecidableEq ι] [Fintype ι] in
/-- The count of the servers of a queue -/
theorem sameQueues_act (rd n : ℕ) (s : Sys ι) :
    SameQueues s (setRd rd { s.rcvd rd with rd_act_cnt := n } s) := by
  refine ⟨fun x => ?_, fun x => ?_, fun x => ?_, rfl, rfl⟩ <;>
  · by_cases hx : x = rd
    · subst hx
      simp [setRd]
    · simp [setRd, update_of_ne hx]

theorem Inv.act (h : Inv sigrd s) (rd n : ℕ) : Inv sigrd (setRd rd { s.rcvd rd with rd_act_cnt := n } s) :=
  have hsame := sameQueues_act rd n s
  { lists := hsame.lists h.lists
    pool := ⟨h.pool.nodup, h.pool.inSleep, h.pool.asleep, fun p queue hq => by
      rw [hsame.qtype]
      exact h.pool.chosen p queue hq⟩
    sigrd := (hsame.qtype sigrd).trans h.sigrd
    spare := by
      rw [hsame.waiting]
      exact h.spare }

theorem Inv.finish (h : Inv sigrd s) (hp : (s.server p).phase = .running) :
    Inv sigrd (finish p s) ∧ ((finish p s).server p).phase = .running ∧ SameQueues s (finish p s) := by
  rw [Queue.finish]
  split
  · exact ⟨h, hp, ⟨fun _ => rfl, fun _ => rfl, fun _ => rfl, rfl, rfl⟩⟩
  · rename_i rd hrd
    have hnot : p ∉ s.procs := h.pool.notMem (by rw [hp]; exact ⟨nofun, nofun⟩)
    have hact := h.act rd (decr (s.rcvd rd).rd_act_cnt)
    refine ⟨hact.comes hnot (.inl hp), ?_, ?_⟩
    · rw [setServer_self]
      exact hp
    · exact (sameQueues_act rd _ s).trans (moves_setServer p _ _ _).queues

theorem Inv.back (h : Inv sigrd s) (hp : (s.server p).phase = .running) :
    Inv sigrd (back sigrd minserve p s) := by
  obtain ⟨hs, hrun, -⟩ := h.finish hp
  rw [Queue.back]
  generalize Queue.finish p s = s1 at hs hrun ⊢
  dsimp only
  have hnot : p ∉ s1.procs := hs.pool.notMem (by rw [hrun]; exact ⟨nofun, nofun⟩)
  split
  · rename_i queue hq
    -- the signals first, then the head of the list
    have hgeneral : (s1.rcvd queue).rd_qtype = .GENERAL := by
      split at hq
      · cases hq
        exact hs.sigrd
      · exact ((hs.lists.mem queue).mp (mem_of_mem_head? hq)).1
    have hact := hs.act queue (incr (s1.rcvd queue).rd_act_cnt)
    refine hact.comes hnot (.inr ⟨queue, rfl, ?_⟩)
    rw [(sameQueues_act queue _ s1).qtype]
    exact hgeneral
  · rename_i hq
    have hnil : s1.msgs = [] := by
      split at hq
      · cases hq
      · exact List.head?_eq_none_iff.mp hq
    have hzero := waiting_eq_zero hnil
    split
    · exact hs.leaves hnot (.inl rfl) (.inr (.inr hzero))
    · have hself : ((psema p (add_to_proc_list p s1)).server p).phase = .asleep ∨
          ((psema p (add_to_proc_list p s1)).server p).phase = .awake := by
        rw [psema, setServer_self]
        dsimp only
        split
        · exact .inr rfl
        · exact .inl rfl
      have hmoves : Moves p s1 (psema p (add_to_proc_list p s1)) := by
        refine ⟨⟨fun _ => rfl, fun _ => rfl, fun _ => rfl, rfl, rfl⟩, fun x hx => ?_, fun x hx => ?_⟩
        · exact congrArg Server.phase (update_of_ne hx _ _)
        · exact mem_cons.trans (or_iff_right hx)
      apply hmoves.inv hs
      · apply hmoves.pool hs.pool
        · exact nodup_cons.mpr ⟨hnot, hs.pool.nodup⟩
        · exact fun _ => hself
        · exact fun _ => mem_cons_self
        · intro rd hrd
          rcases hself with hself | hself <;> (rw [hself] at hrd; exact nomatch hrd)
      · exact .inr (hzero ▸ Nat.zero_le _)

/-- A server that `arrmsg` took off the list is interrupted only if the others that come are enough. -/
def Spared (s : Sys ι) (p : ι) : Prop :=
  (s.server p).p_sig → p ∈ s.procs ∨ s.procs = [] ∨ waiting s < coming s

theorem Inv.resume (h : Inv sigrd s) (hp : (s.server p).phase = .awake) (hspared : Spared s p) :
    Inv sigrd (resume p s) ∧ SameQueues s (resume p s) := by
  have hnot : p ∉ (del_from_proc_list p s).procs := h.pool.nodup.not_mem_erase
  have hphase : ((del_from_proc_list p s).server p).phase = .awake := hp
  have hmoves : Moves p s (del_from_proc_list p s) :=
    ⟨⟨fun _ => rfl, fun _ => rfl, fun _ => rfl, rfl, rfl⟩, fun _ _ => rfl,
      fun x hx => mem_erase_of_ne hx⟩
  have hcomes : Comes (del_from_proc_list p s) p := by
    rw [Comes, hphase]
    exact hnot
  have hpool : Pool (del_from_proc_list p s) := by
    apply hmoves.pool h.pool (h.pool.nodup.erase p) (fun hin => absurd hin hnot)
    · rw [hphase]
      exact fun hc => nomatch hc
    · intro rd hrd
      rw [hphase] at hrd
      exact nomatch hrd
  have hspare : (del_from_proc_list p s).procs = [] ∨ waiting s ≤ coming (del_from_proc_list p s) := by
    refine h.spare.imp (fun hnil => ?_) fun hle => hle.trans (hmoves.le fun _ => hcomes)
    change s.procs.erase p = []
    rw [hnil]
    rfl
  have hs := hmoves.inv h hpool hspare
  rw [Queue.resume]
  dsimp only
  split
  · rename_i hsig
    refine ⟨hs.leaves hnot (.inl rfl) ?_, hmoves.queues.trans (moves_setServer p _ _ _).queues⟩
    have hupd := coming_update hmoves.comes
    rw [if_pos hcomes] at hupd
    rcases hspared hsig with hin | hnil | hlt
    · have hno : ¬Comes s p := by
        rw [Comes, hp]
        exact not_not.mpr hin
      rw [if_neg hno] at hupd
      have hne : s.procs ≠ [] := ne_nil_of_mem hin
      have hle := h.spare.resolve_left hne
      have hsame := hmoves.queues.waiting
      exact .inr (.inl (by omega))
    · exact .inl (by rw [del_from_proc_list, hnil]; rfl)
    · have hle := hmoves.le fun _ => hcomes
      have hsame := hmoves.queues.waiting
      exact .inr (.inl (by omega))
  · exact ⟨hs.comes hnot (.inl rfl), hmoves.queues.trans (moves_setServer p _ _ _).queues⟩

theorem Inv.psignal (h : Inv sigrd s) (hp : (s.server p).phase = .asleep) {v : Server} (hv : v.phase = .awake) :
    Inv sigrd (Queue.setServer p v s) := by
  have hin := h.pool.asleep p hp
  have hmoves := moves_setServer p v s.idleserver s
  have hself := setServer_self p v s
  apply hmoves.inv h
  · apply hmoves.pool h.pool h.pool.nodup
    · rw [hself]
      exact fun _ => .inr hv
    · exact fun _ => hin
    · intro rd hrd
      rw [hself, hv] at hrd
      exact nomatch hrd
  · refine h.spare.imp_right fun hle => hle.trans (hmoves.le fun hc => ?_)
    rw [Comes, hp] at hc
    exact hc.elim

/-- A signal for a server that does not sleep -/
theorem Inv.signalled (h : Inv sigrd s) {v : Server} (hv : v.phase = (s.server p).phase) :
    Inv sigrd (Queue.setServer p v s) := by
  have hmoves := moves_setServer p v s.idleserver s
  have hself := setServer_self p v s
  apply hmoves.inv h
  · apply hmoves.pool h.pool h.pool.nodup
    · rw [hself, hv]
      exact h.pool.inSleep p
    · rw [hself, hv]
      exact h.pool.asleep p
    · rw [hself, hv]
      exact h.pool.chosen p
  · refine h.spare.imp_right fun hle => hle.trans (hmoves.le fun hc => ?_)
    rw [Comes, hself, hv]
    exact hc

/-! ## What happens to queues -/

omit [DecidableEq ι] [Fintype ι] in
theorem Pool.put (h : Pool s) (rd : ℕ) (queue : List Mblk) : Pool (put rd queue s) :=
  ⟨h.nodup, h.inSleep, h.asleep, fun p x hx => by
    rw [put_qtype]
    exact h.chosen p x hx⟩

omit [DecidableEq ι] [Fintype ι] in
theorem Lists.waiting_le (h : Lists s) (hlen : queue.length ≤ (s.rcvd rd).rd_rcvdq.length) :
    waiting (Queue.put rd queue s) ≤ waiting s := by
  have hput := h.waiting_put rd queue
  split at hput <;> omega

/-- A queue that does not get longer -/
theorem Inv.put (h : Inv sigrd s) (hlen : queue.length ≤ (s.rcvd rd).rd_rcvdq.length) :
    Inv sigrd (put rd queue s) where
  lists := h.lists.put (Nat.lt_of_le_of_lt hlen (h.lists.short rd))
  pool := h.pool.put rd queue
  sigrd := (put_qtype sigrd).trans h.sigrd
  spare := h.spare.imp_right fun hle => (h.lists.waiting_le hlen).trans hle

/-- A server takes the first message of the queue that it has chosen. -/
theorem Inv.served (h : Inv sigrd s) (hp : (s.server p).phase = .chosen rd)
    (hq : (s.rcvd rd).rd_rcvdq = bp :: queue) {v : Server} {i : ℤ} (hv : v.phase = .serving) :
    Inv sigrd (Queue.setServer p v { Queue.put rd queue s with idleserver := i }) := by
  have hlen : queue.length ≤ (s.rcvd rd).rd_rcvdq.length := by
    rw [hq]
    exact Nat.le_succ _
  have hput := h.lists.waiting_put rd queue
  rw [if_pos (h.pool.chosen p rd hp), hq, length_cons] at hput
  have hnot : p ∉ s.procs := h.pool.notMem (by rw [hp]; exact ⟨nofun, nofun⟩)
  apply (h.put hlen).leaves hnot (.inr hv)
  have hcoming : coming (Queue.put rd queue s) = coming s := rfl
  rcases h.spare with hnil | hle
  · exact .inl hnil
  · exact .inr (.inl (by omega))

omit [Fintype ι] in
theorem dispatch_none (hnil : s.procs = []) : dispatch s = s := by
  rw [dispatch, get_free_proc, hnil]
  exact congrArg (fun l => { s with procs := l }) hnil.symm

/-- A message that comes, and the server that is sent for it -/
theorem dispatch_inv (hl : Lists s) (hp : Pool s) (hsig : (s.rcvd sigrd).rd_qtype = .GENERAL)
    (hspare : s.procs = [] ∨ waiting s ≤ coming s + 1) :
    Inv sigrd (dispatch s) ∧ SameQueues s (dispatch s) ∧ (dispatch s).came = s.came := by
  cases hprocs : s.procs with
  | nil =>
    rw [dispatch_none hprocs]
    exact ⟨⟨hl, hp, hsig, .inl hprocs⟩, ⟨fun _ => rfl, fun _ => rfl, fun _ => rfl, rfl, rfl⟩, rfl⟩
  | cons f rest =>
    have hdisp : dispatch s = vsema f { s with procs := rest } := by
      rw [dispatch, get_free_proc, hprocs]
      rfl
    have hmem : f ∈ s.procs := hprocs ▸ mem_cons_self
    have hnodup := hp.nodup
    rw [hprocs, nodup_cons] at hnodup
    obtain ⟨hf, hrest⟩ := hnodup
    have hphase : ((vsema f { s with procs := rest }).server f).phase = .awake := by
      rw [vsema]
      split
      · rw [setServer_self]
      · rename_i hno
        exact (hp.inSleep f hmem).resolve_left hno
    have hprocs' : (vsema f { s with procs := rest }).procs = rest := by
      rw [vsema]
      split <;> rfl
    have hmoves : Moves f s (vsema f { s with procs := rest }) := by
      refine ⟨?_, fun x hx => ?_, fun x hx => ?_⟩
      · rw [vsema]
        split <;> exact ⟨fun _ => rfl, fun _ => rfl, fun _ => rfl, rfl, rfl⟩
      · rw [vsema]
        split
        · exact congrArg Server.phase (update_of_ne hx _ _)
        · rfl
      · rw [hprocs', hprocs]
        exact (mem_cons.trans (or_iff_right hx)).symm
    have hcame : (vsema f { s with procs := rest }).came = s.came := by
      rw [vsema]
      split <;> rfl
    have hno : ¬Comes s f := by
      rw [Comes]
      rcases hp.inSleep f hmem with ha | ha <;> rw [ha]
      · exact id
      · exact not_not.mpr hmem
    have hyes : Comes (vsema f { s with procs := rest }) f := by
      rw [Comes, hphase, hprocs']
      exact hf
    have hupd := coming_update hmoves.comes
    rw [if_neg hno, if_pos hyes] at hupd
    have hle := hspare.resolve_left (ne_nil_of_mem hmem)
    rw [hdisp]
    refine ⟨⟨hmoves.queues.lists hl, ?_, (hmoves.queues.qtype sigrd).trans hsig, .inr ?_⟩, hmoves.queues, hcame⟩
    · apply hmoves.pool hp
      · rw [hprocs']
        exact hrest
      · exact fun _ => .inr hphase
      · rw [hphase]
        exact fun hc => nomatch hc
      · intro rd hrd
        rw [hphase] at hrd
        exact nomatch hrd
    · rw [hmoves.queues.waiting]
      omega

omit [Fintype ι] in
/-- The lists of messages and of servers are apart. -/
theorem dispatch_add (rd : ℕ) (s : Sys ι) : add_to_msgs_list rd (dispatch s) = dispatch (add_to_msgs_list rd s) := by
  have hvsema (p : ι) (s : Sys ι) : add_to_msgs_list rd (vsema p s) = vsema p (add_to_msgs_list rd s) := by
    by_cases hnil : s.msgs = []
    · by_cases ha : (s.server p).phase = .asleep <;> simp [add_to_msgs_list, vsema, setServer, hnil, ha]
    · by_cases hin : rd ∈ s.msgs <;> by_cases ha : (s.server p).phase = .asleep <;>
        simp [add_to_msgs_list, vsema, setServer, hnil, hin, ha]
  have hprocs : (add_to_msgs_list rd s).procs = s.procs := by
    rw [add_to_msgs_list]
    split
    · rfl
    · split <;> rfl
  have htail : add_to_msgs_list rd { s with procs := s.procs.tail } =
      { add_to_msgs_list rd s with procs := s.procs.tail } := by
    by_cases hnil : s.msgs = []
    · simp [add_to_msgs_list, hnil]
    · by_cases hin : rd ∈ s.msgs <;> simp [add_to_msgs_list, hnil, hin]
  rw [dispatch, dispatch, get_free_proc, get_free_proc, hprocs, ← htail]
  cases s.procs.head? with
  | none => rfl
  | some f => exact hvsema f _

omit [DecidableEq ι] [Fintype ι] in
theorem Lists.add_put (h : Lists s) (hk : (s.rcvd rd).rd_qtype = .GENERAL) (hne : queue ≠ []) :
    add_to_msgs_list rd (setRd rd { s.rcvd rd with rd_rcvdq := queue, rd_qcnt := queue.length } s) =
      Queue.put rd queue s := by
  have hlist : relist rd (s.rcvd rd).rd_qtype queue s.msgs = if rd ∈ s.msgs then s.msgs else s.msgs ++ [rd] := by
    rw [hk, relist, if_neg nofun, if_neg hne]
  rw [Queue.put, hlist, add_to_msgs_list]
  by_cases hnil : s.msgs = []
  · simp [setRd, hnil]
  · by_cases hin : rd ∈ s.msgs <;> simp [setRd, hnil, hin, h.cnt]

/-- Where a message goes -/
def target (sigrd : ℕ) (msg : Message) : ℕ := if msg.signal then sigrd else msg.m_dest

/-- What comes is thrown away, or is the last message of its queue. -/
theorem Inv.arrmsg (h : Inv sigrd s) (msg : Message)
    (hroom : (s.rcvd (target sigrd msg)).rd_rcvdq.length + 1 < 65536) :
    Queue.arrmsg sigrd msg s = (s, .quiet) ∨ ∃ t, Queue.arrmsg sigrd msg s =
      (t, .arrived (target sigrd msg) (⟨s.came, msg⟩ : Mblk)) ∧ Inv sigrd t ∧ t.came = s.came + 1 ∧
      SameQueues (Queue.put (target sigrd msg)
        ((s.rcvd (target sigrd msg)).rd_rcvdq ++ [(⟨s.came, msg⟩ : Mblk)]) s) t := by
  rw [Queue.arrmsg]
  split
  · exact .inl rfl
  refine .inr ?_
  dsimp only
  rw [target] at hroom ⊢
  generalize (if msg.signal = true then sigrd else msg.m_dest) = rd at hroom ⊢
  generalize hq : (s.rcvd rd).rd_rcvdq ++ [(⟨s.came, msg⟩ : Mblk)] = queue
  have hlen : queue.length = (s.rcvd rd).rd_rcvdq.length + 1 := by
    rw [← hq, length_append, length_singleton]
  have hne : queue ≠ [] := ne_nil_of_length_pos (by omega)
  have hcnt : incr (s.rcvd rd).rd_qcnt = queue.length := by
    rw [h.lists.qcnt rd, hlen]
    exact incr_length hroom
  rw [hcnt]
  have hlists : Lists { s with came := s.came + 1 } :=
    ⟨h.lists.qcnt, h.lists.short, h.lists.mem, h.lists.nodup, h.lists.cnt⟩
  have hpool : Pool { s with came := s.came + 1 } :=
    ⟨h.pool.nodup, h.pool.inSleep, h.pool.asleep, h.pool.chosen⟩
  have hput := hlists.waiting_put rd queue
  have hsig : ((Queue.put rd queue { s with came := s.came + 1 }).rcvd sigrd).rd_qtype = .GENERAL :=
    (put_qtype sigrd).trans h.sigrd
  have hshort : queue.length < 65536 := hlen ▸ hroom
  cases hk : (s.rcvd rd).rd_qtype with
  | SPECIFIC =>
    rw [if_neg (by rw [hk]; nofun)] at hput
    have hset : setRd rd { s.rcvd rd with rd_rcvdq := queue, rd_qcnt := queue.length }
        { s with came := s.came + 1 } = Queue.put rd queue { s with came := s.came + 1 } := by
      have hlist : relist rd (s.rcvd rd).rd_qtype queue s.msgs = s.msgs := by rw [hk, relist, if_pos rfl]
      simp only [Queue.put, hlist, ← h.lists.cnt]
      rfl
    dsimp only
    rw [← hk, hset]
    refine ⟨_, rfl, ⟨hlists.put hshort, hpool.put rd queue, hsig, ?_⟩, rfl,
      ⟨fun _ => rfl, fun _ => rfl, fun _ => rfl, rfl, rfl⟩⟩
    exact h.spare.imp_right fun hle => hput.trans_le hle
  | GENERAL =>
    rw [if_pos hk] at hput
    dsimp only
    rw [dispatch_add, ← hk, hlists.add_put hk hne]
    have hspare : (Queue.put rd queue { s with came := s.came + 1 }).procs = [] ∨
        waiting (Queue.put rd queue { s with came := s.came + 1 }) ≤
          coming (Queue.put rd queue { s with came := s.came + 1 }) + 1 := by
      refine h.spare.imp_right fun hle => ?_
      have hwait : waiting { s with came := s.came + 1 } = waiting s := rfl
      have hcome : coming (Queue.put rd queue { s with came := s.came + 1 }) = coming s := rfl
      have hlen' : ({ s with came := s.came + 1 }.rcvd rd).rd_rcvdq.length + 1 = queue.length := hlen.symm
      omega
    obtain ⟨hinv, hsame, hcame⟩ := dispatch_inv (hlists.put hshort) (hpool.put rd queue) hsig hspare
    refine ⟨_, rfl, hinv, hcame, ?_⟩
    have hcounted : SameQueues (Queue.put rd queue s) (Queue.put rd queue { s with came := s.came + 1 }) :=
      ⟨fun _ => rfl, fun _ => rfl, fun _ => rfl, rfl, rfl⟩
    exact hcounted.trans hsame

end Svr3.Queue
