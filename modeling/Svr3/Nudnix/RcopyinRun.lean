import Svr3.Nudnix.Rcopyin

/-!
# Runs of `rcopyin`

A client sends a message for each chunk, and goes on after one that faults. While none but the last chunk of
a call faults, a descriptor is freed only when all messages for it have come, and it is held by the call
that they are for until then. After another fault the server returns while its client still sends.
-/

namespace Svr3.Rfs

open Function List

namespace Call

variable {c : Call} {rd k m : ℕ}

/-- No chunk but the last one faults at the client, if it is asked. -/
def Quiet (c : Call) : Prop :=
  c.prefault = false → ∀ k, (k + 1) * DATASIZE < c.left → c.chunkFaults k = false

/-- No chunk faults. -/
def NoFault (c : Call) : Prop :=
  c.prefault = false ∧ ∀ k, k * DATASIZE < c.left → c.chunkFaults k = false ∧ c.storeFaults k = false

/-- The answer for chunk `k` -/
def reply (c : Call) (rd k : ℕ) : Response :=
  if c.chunkFaults k then ⟨rd, EFAULT, []⟩
  else ⟨rd, 0, bytes c.mem (c.frm + c.size + k * DATASIZE) (min (c.left - k * DATASIZE) DATASIZE)⟩

/-- The answers from chunk `k` up to chunk `m` -/
def replies (c : Call) (rd k m : ℕ) : List Response := (List.range' k (m - k)).map (c.reply rd)

theorem reply_dest : (c.reply rd k).m_dest = rd := by
  unfold reply
  split <;> rfl

theorem dest_of_mem {x : Response} (hx : x ∈ c.replies rd k m) : x.m_dest = rd := by
  obtain ⟨i, _, hi⟩ := mem_map.mp hx
  rw [← hi, reply_dest]

@[simp] theorem replies_self : c.replies rd k k = [] := by
  rw [replies, Nat.sub_self]
  rfl

theorem replies_snoc (hk : k ≤ m) : c.replies rd k (m + 1) = c.replies rd k m ++ [c.reply rd m] := by
  have hlen : m + 1 - k = m - k + 1 := by omega
  have hend : k + (m - k) = m := by omega
  rw [replies, hlen, List.range'_1_concat, map_append, hend]
  rfl

theorem replies_cons (hk : k < m) : c.replies rd k m = c.reply rd k :: c.replies rd (k + 1) m := by
  have hlen : m - k = m - (k + 1) + 1 := by omega
  rw [replies, hlen, List.range'_succ]
  rfl

/-- Bytes from the client are at the address of the call. -/
def Copied (c : Call) (mem : ℕ → UInt8) (n : ℕ) : Prop :=
  ∀ i < c.n, i < n → mem (c.dst + i) = c.mem (c.frm + i)

/-- The stash presents the bytes that the call takes from it. -/
theorem prewritten_eq : c.prewritten = bytes c.mem c.frm c.size := by
  unfold prewritten size
  cases hb : c.u_copybp with
  | none => rfl
  | some b =>
    apply map_congr_left
    intro i hi
    exact c.presents b hb i (Nat.lt_of_lt_of_le (mem_range.mp hi) (Nat.min_le_left _ _))

theorem copied_prewritten {mem : ℕ → UInt8} : c.Copied (bcopy c.prewritten c.dst mem) c.size := by
  intro i _ hi
  rw [prewritten_eq, bcopy_bytes hi]

/-- A chunk comes behind what is there. -/
theorem Copied.chunk {mem : ℕ → UInt8} (h : c.Copied mem (c.size + k * DATASIZE)) {a n : ℕ}
    (ha : a = c.dst + c.size + k * DATASIZE) (hn : n = min (c.left - k * DATASIZE) DATASIZE) :
    c.Copied (bcopy (bytes c.mem (c.frm + c.size + k * DATASIZE) n) a mem)
      (c.size + (k + 1) * DATASIZE) := by
  have hleft : c.left = c.n - c.size := rfl
  intro i hin hi
  by_cases hold : i < c.size + k * DATASIZE
  · rw [bcopy_out (.inl (by omega)), h i hin hold]
  · obtain ⟨x, hx⟩ := Nat.exists_eq_add_of_le (Nat.le_of_not_lt hold)
    have hxn : x < n := by
      rw [Nat.add_one_mul] at hi
      omega
    have hdst : c.dst + i = a + x := by omega
    have hfrm : c.frm + i = c.frm + c.size + k * DATASIZE + x := by omega
    rw [hdst, hfrm, bcopy_bytes hxn]

end Call

/-- The descriptor that the server has at a place of `rcopyin` -/
def Pos.rd : Pos → Option ℕ
  | .loop rd _ _ _ => some rd
  | .broke rd _ => some rd
  | .returned _ => none

/-! ## One call -/

/-- The client has sent `m` messages, `k` of them are received, and `q` is the queue of the descriptor. -/
structure Exchange (r : Req) (q : List Response) (k m : ℕ) : Prop where
  le : k ≤ m
  asked : ∀ i < m, i * DATASIZE < r.call.left
  bufptr : r.bufptr = r.call.frm + r.call.size + m * DATASIZE
  count : r.count = r.call.left - m * DATASIZE
  sent : r.sent = r.call.replies r.gift 0 m
  got : r.got = r.call.replies r.gift 0 k
  between : q ++ r.wire = r.call.replies r.gift k m

/-- All messages of the client are received. -/
def Req.Drained (r : Req) : Prop := r.wire = [] ∧ r.count = 0 ∧ r.got = r.sent

/-- The return value is 0 when no chunk faults, and `n` bytes are at the address of the call. -/
def Req.Stored (r : Req) (ret : ℤ) (n : ℕ) : Prop :=
  r.call.NoFault → ret = 0 ∧ r.call.Copied r.mem n

/-- What is true of a call at a place of `rcopyin`, where the descriptors have the queues `q`. -/
def Req.At (r : Req) (q : ℕ → List Response) : Pos → Prop
  | .loop rd n dst ret => ∃ k m, Exchange r (q rd) k m ∧ r.gift = rd ∧ n = r.call.left - k * DATASIZE ∧
      dst = r.call.dst + r.call.size + k * DATASIZE ∧ r.call.prefault = false ∧
      r.Stored ret (r.call.size + k * DATASIZE)
  | .broke rd ret => r.Drained ∧ q rd = [] ∧ r.Stored ret r.call.n
  | .returned ret => r.Drained ∧ (r.u_error ≠ ENOMEM → r.Stored ret r.call.n)

theorem Req.At.congr {r : Req} {q q' : ℕ → List Response} {p : Pos} (h : r.At q p)
    (hq : ∀ rd, p.rd = some rd → q' rd = q rd) : r.At q' p := by
  cases p with
  | loop rd n dst ret =>
    obtain ⟨k, m, hex, hrest⟩ := h
    exact ⟨k, m, (hq rd rfl).symm ▸ hex, hrest⟩
  | broke rd ret => exact ⟨h.1, (hq rd rfl).trans h.2.1, h.2.2⟩
  | returned ret => exact h

section turns

variable {r r' : Req} {q : List Response} {k m : ℕ} {t t' : Comm}

/-- Everything that was asked for is sent and received. -/
theorem Exchange.drained (h : Exchange r q k m) (hk : r.call.left ≤ k * DATASIZE) : r.Drained ∧ q = [] := by
  have hkm : k = m := by
    by_contra hne
    have hlt := h.asked k (Nat.lt_of_le_of_ne h.le hne)
    omega
  have hnil := h.between
  rw [hkm, Call.replies_self, append_eq_nil_iff] at hnil
  refine ⟨⟨hnil.2, ?_, ?_⟩, hnil.1⟩
  · rw [h.count, ← hkm]
    exact Nat.sub_eq_zero_of_le hk
  · rw [h.got, h.sent, hkm]

/-- The client sends the answer for the next chunk. -/
theorem Exchange.reply (h : Exchange r q k m) (hr : copyinReply r = some r') :
    Exchange r' q k (m + 1) ∧ r' = { r with
      bufptr := r'.bufptr, count := r'.count, wire := r'.wire, sent := r'.sent } := by
  unfold copyinReply at hr
  split at hr
  next hpos =>
    have hmin : (if r.count > DATASIZE then DATASIZE else r.count) = min (r.call.left - m * DATASIZE) DATASIZE := by
      rw [h.count]
      split <;> omega
    have hmsg : (if r.call.copyinFaults r.bufptr (if r.count > DATASIZE then DATASIZE else r.count) then
        (⟨r.gift, EFAULT, []⟩ : Response)
      else ⟨r.gift, 0, bytes r.call.mem r.bufptr (if r.count > DATASIZE then DATASIZE else r.count)⟩) =
        r.call.reply r.gift m := by
      rw [hmin, h.bufptr]
      rfl
    simp only [hmsg] at hr
    cases hr
    refine ⟨⟨Nat.le_succ_of_le h.le, ?_, ?_, ?_, ?_, h.got, ?_⟩, rfl⟩
    · intro i hi
      rcases Nat.lt_succ_iff_lt_or_eq.mp hi with hlt | heq
      · exact h.asked i hlt
      · rw [h.count] at hpos
        rw [heq]
        exact Nat.lt_of_sub_pos hpos
    · change r.bufptr + DATASIZE = r.call.frm + r.call.size + (m + 1) * DATASIZE
      rw [h.bufptr, Nat.add_one_mul, Nat.add_assoc]
    · change r.count - DATASIZE = r.call.left - (m + 1) * DATASIZE
      rw [h.count, Nat.add_one_mul, Nat.sub_sub]
    · change r.sent ++ _ = _
      rw [h.sent, Call.replies_snoc (Nat.zero_le m)]
    · change q ++ (r.wire ++ _) = _
      rw [← append_assoc, h.between]
      exact (Call.replies_snoc h.le).symm
  next => exact absurd hr nofun

/-- A message comes to the queue. -/
theorem Exchange.arrive (h : Exchange r q k m) {x : Response} {w : List Response} (hw : r.wire = x :: w) :
    Exchange { r with wire := w } (q ++ [x]) k m := by
  refine ⟨h.le, h.asked, h.bufptr, h.count, h.sent, h.got, ?_⟩
  rw [append_assoc, singleton_append, ← hw]
  exact h.between

/-- The message at the front of the queue is the answer for the next chunk. -/
theorem Exchange.receive {x : Response} (h : Exchange r (x :: q) k m) :
    x = r.call.reply r.gift k ∧ k * DATASIZE < r.call.left ∧
      Exchange { r with got := r.got ++ [x] } q (k + 1) m := by
  have hkm : k < m := by
    apply Nat.lt_of_le_of_ne h.le
    intro heq
    have hnil := h.between
    rw [heq, Call.replies_self] at hnil
    exact absurd hnil nofun
  have hcons := h.between
  rw [Call.replies_cons hkm, cons_append, List.cons.injEq] at hcons
  refine ⟨hcons.1, h.asked k hkm, hkm, h.asked, h.bufptr, h.count, h.sent, ?_, hcons.2⟩
  change r.got ++ [x] = _
  rw [h.got, hcons.1]
  exact (Call.replies_snoc (Nat.zero_le k)).symm

/-- A client that has more to send is in its loop, and the server in its own. -/
theorem Req.At.reply {q : ℕ → List Response} (h : r.At q r.pos) (hr : copyinReply r = some r') :
    r'.At q r'.pos ∧ r'.pos = r.pos ∧ r'.call = r.call := by
  have hcount (hd : r.Drained) : copyinReply r = none := if_neg (Nat.not_lt.mpr (Nat.le_of_eq hd.2.1))
  cases hpos : r.pos with
  | loop rd n dst ret =>
    rw [hpos] at h
    obtain ⟨k, m, hex, hgift, hn, hdst, hpre, hst⟩ := h
    obtain ⟨hnext, heq⟩ := hex.reply hr
    have hpos' : r'.pos = r.pos := by rw [heq]
    have hcall : r'.call = r.call := by rw [heq]
    have hmem : r'.mem = r.mem := by rw [heq]
    have hgift' : r'.gift = r.gift := by rw [heq]
    refine ⟨?_, hpos'.trans hpos, hcall⟩
    rw [hpos', hpos]
    refine ⟨k, m + 1, hnext, hgift'.trans hgift, ?_, ?_, ?_, ?_⟩
    · rw [hcall]
      exact hn
    · rw [hcall]
      exact hdst
    · rw [hcall]
      exact hpre
    · unfold Req.Stored
      rw [hcall, hmem]
      exact hst
  | broke rd ret =>
    rw [hpos] at h
    rw [hcount h.1] at hr
    exact absurd hr nofun
  | returned ret =>
    rw [hpos] at h
    rw [hcount h.1] at hr
    exact absurd hr nofun

/-- What is on its way comes to the descriptor that the server has. -/
theorem Req.At.arrive {q : ℕ → List Response} (h : r.At q r.pos) {x : Response} (hx : x ∈ r.wire) :
    r.pos.rd = some x.m_dest := by
  have hempty (hd : r.Drained) : False := by
    rw [hd.1] at hx
    exact absurd hx not_mem_nil
  cases hpos : r.pos with
  | loop rd n dst ret =>
    rw [hpos] at h
    obtain ⟨k, m, hex, hgift, _⟩ := h
    have hmem := mem_append_right (q rd) hx
    rw [hex.between] at hmem
    rw [Call.dest_of_mem hmem, hgift]
    rfl
  | broke rd ret =>
    rw [hpos] at h
    exact (hempty h.1).elim
  | returned ret =>
    rw [hpos] at h
    exact (hempty h.1).elim

theorem Req.At.arrived (h : r.At t.rd_rcvdq r.pos) {x : Response} {w : List Response}
    (hw : r.wire = x :: w) : Req.At { r with wire := w } (arrmsg x t).rd_rcvdq r.pos := by
  have hrd := h.arrive (hw ▸ mem_cons_self)
  have hempty (hd : r.Drained) : False := by
    rw [hd.1] at hw
    exact absurd hw nofun
  cases hpos : r.pos with
  | loop rd n dst ret =>
    rw [hpos] at h hrd
    obtain ⟨k, m, hex, hrest⟩ := h
    have hdest : x.m_dest = rd := Option.some.inj hrd.symm
    have hqueue : (arrmsg x t).rd_rcvdq rd = t.rd_rcvdq rd ++ [x] := by
      rw [arrmsg, hdest]
      exact update_self rd _ t.rd_rcvdq
    have harr := hex.arrive hw
    rw [hpos] at harr
    exact ⟨k, m, hqueue.symm ▸ harr, hrest⟩
  | broke rd ret =>
    rw [hpos] at h
    exact (hempty h.1).elim
  | returned ret =>
    rw [hpos] at h
    exact (hempty h.1).elim

/-- What a turn of the loop can do. -/
theorem rcopyinTurn_cases (h : rcopyinTurn r t = some (r', t')) :
    ∃ rd n dst ret x q, r.pos = .loop rd n dst ret ∧ t.rd_rcvdq rd = x :: q ∧
      t' = { t with rd_rcvdq := update t.rd_rcvdq rd q } ∧
      ((x.rp_errno ≠ 0 ∧ r' = { r with got := r.got ++ [x], pos := .broke rd (-1) }) ∨
        (x.rp_errno = 0 ∧ (ret = -1 ∨ r.call.bcopyFaults dst x.rp_data.length = true) ∧
          r' = { r with got := r.got ++ [x], pos := .loop rd (n - DATASIZE) (dst + DATASIZE) (-1) }) ∨
        (x.rp_errno = 0 ∧ r' = { r with
          got := r.got ++ [x]
          pos := .loop rd (n - DATASIZE) (dst + DATASIZE) 0
          mem := bcopy x.rp_data dst r.mem })) := by
  unfold rcopyinTurn at h
  split at h
  next rd n dst ret hpos =>
    split at h
    · obtain ⟨⟨x, t1⟩, hq, heq⟩ := Option.map_eq_some_iff.mp h
      obtain ⟨q, hrd, ht⟩ := de_queue_eq hq
      refine ⟨rd, n, dst, ret, x, q, hpos, hrd, ?_⟩
      dsimp only at heq
      split at heq
      next herr =>
        cases heq
        exact ⟨ht, .inl ⟨herr, rfl⟩⟩
      next herr =>
        have herr' := not_not.mp herr
        split at heq
        next hret =>
          split at heq
          next hb =>
            cases heq
            exact ⟨ht, .inr (.inl ⟨herr', .inr hb, rfl⟩)⟩
          next =>
            cases heq
            exact ⟨ht, .inr (.inr ⟨herr', rfl⟩)⟩
        next hret =>
          cases heq
          have hret' := not_not.mp hret
          refine ⟨ht, .inr (.inl ⟨herr', .inl hret', ?_⟩)⟩
          rw [hret']
    · exact absurd h nofun
  next => exact absurd h nofun

theorem Call.reply_errno {c : Call} {rd : ℕ} : (c.reply rd k).rp_errno ≠ 0 ↔ c.chunkFaults k = true := by
  unfold Call.reply
  split
  next hf => exact iff_of_true (Nat.succ_ne_zero 13) hf
  next hf => exact iff_of_false (not_not.mpr rfl) hf

theorem Call.reply_data {c : Call} {rd : ℕ} (hf : c.chunkFaults k = false) : (c.reply rd k).rp_data =
    bytes c.mem (c.frm + c.size + k * DATASIZE) (min (c.left - k * DATASIZE) DATASIZE) := by
  rw [Call.reply, hf]
  rfl

/-- A turn of the loop takes the answer for the next chunk. -/
theorem Req.At.turn (h : r.At t.rd_rcvdq r.pos) (hquiet : r.call.Quiet)
    (hr : rcopyinTurn r t = some (r', t')) : r'.At t'.rd_rcvdq r'.pos := by
  obtain ⟨rd, n, dst, ret, x, q, hpos, hq, ht, hcase⟩ := rcopyinTurn_cases hr
  rw [hpos] at h
  obtain ⟨k, m, hex, hgift, hn, hdst, hpre, hst⟩ := h
  rw [hq] at hex
  obtain ⟨hx, hk, hnext⟩ := hex.receive
  have hqueue : t'.rd_rcvdq rd = q := by
    rw [ht]
    exact update_self rd q t.rd_rcvdq
  have hstep : n - DATASIZE = r.call.left - (k + 1) * DATASIZE := by
    rw [hn, Nat.sub_sub, Nat.add_one_mul]
  have hdst' : dst + DATASIZE = r.call.dst + r.call.size + (k + 1) * DATASIZE := by
    rw [hdst, Nat.add_one_mul, Nat.add_assoc]
  rcases hcase with ⟨herr, rfl⟩ | ⟨herr, hret, rfl⟩ | ⟨herr, rfl⟩
  · rw [hx, Call.reply_errno] at herr
    -- no chunk but the last one faults
    have hlast : r.call.left ≤ (k + 1) * DATASIZE := by
      by_contra hlt
      rw [hquiet hpre k (Nat.lt_of_not_le hlt)] at herr
      exact absurd herr nofun
    obtain ⟨hdrained, hnil⟩ := hnext.drained hlast
    refine ⟨hdrained, hqueue.trans hnil, fun hno => ?_⟩
    rw [(hno.2 k hk).1] at herr
    exact absurd herr nofun
  · refine ⟨k + 1, m, hqueue.symm ▸ ⟨hnext.1, hnext.2, hnext.3, hnext.4, hnext.5, hnext.6, hnext.7⟩,
      hgift, hstep, hdst', hpre, fun hno => ?_⟩
    rcases hret with hret | hret
    · have hzero := (hst hno).1
      rw [hret] at hzero
      exact absurd hzero (by decide)
    · have hsize : x.rp_data.length = min (r.call.left - k * DATASIZE) DATASIZE := by
        rw [hx, Call.reply_data (hno.2 k hk).1, length_bytes]
      have hfault := (hno.2 k hk).2
      rw [Call.storeFaults, ← hdst, ← hsize, hret] at hfault
      exact absurd hfault nofun
  · refine ⟨k + 1, m, hqueue.symm ▸ ⟨hnext.1, hnext.2, hnext.3, hnext.4, hnext.5, hnext.6, hnext.7⟩,
      hgift, hstep, hdst', hpre, fun hno => ⟨rfl, ?_⟩⟩
    change r.call.Copied (bcopy x.rp_data dst r.mem) (r.call.size + (k + 1) * DATASIZE)
    rw [hx, Call.reply_data (hno.2 k hk).1]
    exact (hst hno).2.chunk hdst rfl

/-- Back from `rcopyin` -/
theorem Req.At.finish (h : r.At t.rd_rcvdq r.pos) (hr : rcopyinEnd r t = some (r', t')) :
    ∃ rd ret, r.pos.rd = some rd ∧ r' = { r with pos := .returned ret } ∧ t' = free_rcvd rd t ∧
      r'.At t'.rd_rcvdq r'.pos := by
  unfold rcopyinEnd at hr
  split at hr
  next rd n dst ret hpos =>
    split at hr
    next hn =>
      cases hr
      rw [hpos] at h
      obtain ⟨k, m, hex, _, hleft, _, _, hst⟩ := h
      have hall : r.call.left ≤ k * DATASIZE := Nat.sub_eq_zero_iff_le.mp (hleft.symm.trans hn)
      refine ⟨rd, ret, by rw [hpos]; rfl, rfl, rfl, (hex.drained hall).1, fun _ hno => ⟨(hst hno).1, ?_⟩⟩
      intro i hi _
      apply (hst hno).2 i hi
      change i < r.call.n at hi
      change r.call.n - r.call.size ≤ _ at hall
      omega
    next => exact absurd hr nofun
  next rd ret hpos =>
    cases hr
    rw [hpos] at h
    exact ⟨rd, ret, by rw [hpos]; rfl, rfl, rfl, h.1, fun _ => h.2.2⟩
  next => exact absurd hr nofun

/-- `rcopyin` returns at once, or takes a descriptor and comes to its loop. -/
theorem rcopyin_cases (c : Call) (mem : ℕ → UInt8) (t : Comm) :
    ((rcopyin c mem t).2 = t ∧ (rcopyin c mem t).1.pos.rd = none ∧
      (rcopyin c mem t).1.At t.rd_rcvdq (rcopyin c mem t).1.pos) ∨
    ∃ rd, cr_rcvd t = some (rd, (rcopyin c mem t).2) ∧ (rcopyin c mem t).1.pos.rd = some rd ∧
      (rcopyin c mem t).1.At (rcopyin c mem t).2.rd_rcvdq (rcopyin c mem t).1.pos := by
  unfold rcopyin
  split
  next hpre =>
    refine .inl ⟨rfl, rfl, ⟨rfl, rfl, rfl⟩, fun _ hno => ?_⟩
    rw [show c.prefault = false from hno.1] at hpre
    exact absurd hpre nofun
  next hpre =>
    have hpre' : c.prefault = false := Bool.eq_false_iff.mpr hpre
    dsimp only
    split
    next hall =>
      refine .inl ⟨rfl, rfl, ⟨rfl, rfl, rfl⟩, fun _ _ => ⟨rfl, fun i hi _ => ?_⟩⟩
      have hle : c.n ≤ c.size := Nat.sub_eq_zero_iff_le.mp hall.2
      exact Call.copied_prewritten i hi (Nat.lt_of_lt_of_le hi hle)
    next =>
      split
      next => exact .inl ⟨rfl, rfl, ⟨rfl, rfl, rfl⟩, fun herr => absurd rfl herr⟩
      next rd t' hcr =>
        refine .inr ⟨rd, hcr, rfl, 0, 0, ?_, rfl, ?_, ?_, hpre', fun _ => ⟨rfl, ?_⟩⟩
        · obtain ⟨_, ht'⟩ := cr_rcvd_eq hcr
          have hempty : t'.rd_rcvdq rd = [] := by
            rw [ht']
            exact update_self rd [] t.rd_rcvdq
          refine ⟨Nat.le_refl 0, fun i hi => absurd hi (Nat.not_lt_zero i), ?_, ?_, rfl, rfl, ?_⟩
          · rw [Nat.zero_mul, Nat.add_zero]
          · rw [Nat.zero_mul, Nat.sub_zero]
          · rw [hempty]
            rfl
        · rw [Nat.zero_mul, Nat.sub_zero]
        · rw [Nat.zero_mul, Nat.add_zero]
        · rw [Nat.zero_mul, Nat.add_zero]
          exact Call.copied_prewritten

end turns

/-! ## The table of descriptors -/

/-- The descriptors of the table are free or held. -/
def Owned {P : Type} (t : Comm) (held : P → Option ℕ) : Prop :=
  ∃ fs own, Pool t.rd_next t.rdfreelist (nofun : Empty → Option ℕ) nofun held fs nofun own

namespace Owned

variable {P : Type} {held : P → Option ℕ} {t t' : Comm} {p p' : P} {rd : ℕ}

theorem inj (h : Owned t held) (hp : held p = some rd) (hp' : held p' = some rd) : p = p' := by
  obtain ⟨fs, own, hpool⟩ := h
  have howner := ((hpool.on_held p rd).mp hp).symm.trans ((hpool.on_held p' rd).mp hp')
  cases howner
  rfl

/-- Nobody holds the descriptor that `cr_rcvd` finds. -/
theorem unheld (h : Owned t held) (hcr : cr_rcvd t = some (rd, t')) (p : P) : held p ≠ some rd := by
  intro hp
  obtain ⟨fs, own, hpool⟩ := h
  have hhead := hpool.free_linked.head
  rw [(cr_rcvd_eq hcr).1] at hhead
  exact (hpool.held_notMem hp).1 (mem_of_head? hhead.symm)

theorem take [DecidableEq P] (h : Owned t held) (hcr : cr_rcvd t = some (rd, t')) (hp : held p = none) :
    Owned t' (update held p (some rd)) := by
  obtain ⟨fs, own, hpool⟩ := h
  obtain ⟨hfree, ht'⟩ := cr_rcvd_eq hcr
  rw [ht']
  exact ⟨_, _, hpool.take hfree hp⟩

theorem give [DecidableEq P] (h : Owned t held) (hp : held p = some rd) :
    Owned (free_rcvd rd t) (update held p none) := by
  obtain ⟨fs, own, hpool⟩ := h
  exact ⟨_, _, hpool.give hp⟩

end Owned

/-! ## All calls -/

/-- Who holds which descriptor: the calls, and other code. -/
def State.holder (s : State) : ℕ ⊕ ℕ → Option ℕ
  | .inl j => (s.reqs j).bind fun r => r.pos.rd
  | .inr rd => if s.others rd then some rd else none

structure Inv (s : State) : Prop where
  owned : Owned s.comm s.holder
  used : ∀ p rd, s.holder p = some rd → s.comm.rd_stat rd = true
  ok : ∀ j r, s.reqs j = some r → r.At s.comm.rd_rcvdq r.pos

/-- Every message on its way is for a descriptor that its call holds, what has returned has received all
messages there will be, and the bytes of the client are copied when nothing faults. -/
structure Sound (s : State) : Prop where
  received : ∀ j r ret, s.reqs j = some r → r.pos = .returned ret → r.got = r.sent ∧ r.count = 0
  held : ∀ j r m, s.reqs j = some r → m ∈ r.wire →
    r.pos.rd = some m.m_dest ∧ s.comm.rd_stat m.m_dest = true
  copied : ∀ j r ret, s.reqs j = some r → r.pos = .returned ret → r.u_error ≠ ENOMEM → r.call.NoFault →
    ret = 0 ∧ ∀ i < r.call.n, r.mem (r.call.dst + i) = r.call.mem (r.call.frm + i)

section runs

variable {s s' : State} {j j' : ℕ} {r r' : Req} {t : Comm} {a : Act} {p : ℕ ⊕ ℕ} {rd nrcvd : ℕ}

theorem holder_call (hr : s.reqs j = some r) : s.holder (.inl j) = r.pos.rd := by
  rw [State.holder, hr]
  rfl

theorem reqs_set_self : (s.set j r t).reqs j = some r := by
  simp [State.set]

theorem reqs_set_ne {i : ℕ} (hi : i ≠ j) : (s.set j r t).reqs i = s.reqs i := by
  simp [State.set, hi]

theorem holder_set : (s.set j r t).holder = update s.holder (.inl j) r.pos.rd := by
  funext p
  cases p with
  | inl i =>
    by_cases hi : i = j
    · rw [hi, update_self]
      exact holder_call reqs_set_self
    · rw [update_of_ne (fun heq => hi (Sum.inl.inj heq))]
      change ((s.set j r t).reqs i).bind _ = _
      rw [reqs_set_ne hi]
      rfl
  | inr x =>
    rw [update_of_ne Sum.inr_ne_inl]
    rfl

theorem holder_others {b : Bool} :
    (State.mk t s.reqs (update s.others rd b)).holder =
      update s.holder (.inr rd) (if b then some rd else none) := by
  funext p
  cases p with
  | inl i =>
    rw [update_of_ne Sum.inl_ne_inr]
    rfl
  | inr x =>
    by_cases hx : x = rd
    · rw [hx, update_self]
      change (if update s.others rd b rd then some rd else none) = _
      rw [update_self]
    · rw [update_of_ne (fun heq => hx (Sum.inr.inj heq))]
      change (if update s.others rd b x then some x else none) = _
      rw [update_of_ne hx]
      rfl

/-- The call `j` goes on to `r`. What the others hold is as before. -/
theorem Inv.set (h : Inv s) (howned : Owned t (update s.holder (.inl j) r.pos.rd))
    (hused : ∀ rd, r.pos.rd = some rd → t.rd_stat rd = true) (hok : r.At t.rd_rcvdq r.pos)
    (hsame : ∀ p rd, p ≠ .inl j → s.holder p = some rd →
      t.rd_stat rd = s.comm.rd_stat rd ∧ t.rd_rcvdq rd = s.comm.rd_rcvdq rd) : Inv (s.set j r t) := by
  refine ⟨holder_set.symm ▸ howned, fun p rd hp => ?_, fun i r1 hr1 => ?_⟩
  · rw [holder_set] at hp
    by_cases hpj : p = .inl j
    · rw [hpj, update_self] at hp
      exact hused rd hp
    · rw [update_of_ne hpj] at hp
      exact (hsame p rd hpj hp).1.trans (h.used p rd hp)
  · by_cases hi : i = j
    · rw [hi, reqs_set_self] at hr1
      cases hr1
      exact hok
    · have hold : s.reqs i = some r1 := (reqs_set_ne hi).symm.trans hr1
      apply (h.ok i r1 hold).congr
      intro rd hrd
      exact (hsame (.inl i) rd (fun heq => hi (Sum.inl.inj heq)) ((holder_call hold).trans hrd)).2

/-- Other code goes on, and what the calls hold is as before. -/
theorem Inv.other (h : Inv s) {o : ℕ → Bool} (howned : Owned t (State.mk t s.reqs o).holder)
    (hused : ∀ rd, o rd = true → t.rd_stat rd = true)
    (hsame : ∀ j rd, s.holder (.inl j) = some rd →
      t.rd_stat rd = s.comm.rd_stat rd ∧ t.rd_rcvdq rd = s.comm.rd_rcvdq rd) : Inv ⟨t, s.reqs, o⟩ := by
  refine ⟨howned, fun p rd hp => ?_, fun j r hr => ?_⟩
  · cases p with
    | inl j => exact (hsame j rd hp).1.trans (h.used (.inl j) rd hp)
    | inr x =>
      change (if o x then some x else none) = some rd at hp
      split at hp
      next hx =>
        cases hp
        exact hused rd hx
      next => exact absurd hp nofun
  · apply (h.ok j r hr).congr
    intro rd hrd
    exact (hsame j rd ((holder_call hr).trans hrd)).2

/-- A queue of a descriptor changes, which only `p` holds. -/
theorem Inv.queue_same (h : Inv s) (hp : s.holder p = some rd) (q : List Response) (p' : ℕ ⊕ ℕ) (x : ℕ)
    (hne : p' ≠ p) (hx : s.holder p' = some x) :
    update s.comm.rd_rcvdq rd q x = s.comm.rd_rcvdq x := by
  apply update_of_ne
  intro heq
  rw [heq] at hx
  exact hne (h.owned.inj hx hp)

/-- A step of the call `j` that leaves it its descriptor, and the table but for the queue. -/
theorem Inv.set_queue (h : Inv s) (hr : s.reqs j = some r) (hpos : r'.pos.rd = r.pos.rd)
    (ht : ∃ q, t = { s.comm with rd_rcvdq := q } ∧
      ∀ p x, p ≠ .inl j → s.holder p = some x → q x = s.comm.rd_rcvdq x)
    (hok : r'.At t.rd_rcvdq r'.pos) : Inv (s.set j r' t) := by
  obtain ⟨q, rfl, hq⟩ := ht
  have hholder : s.holder (.inl j) = r'.pos.rd := (holder_call hr).trans hpos.symm
  refine h.set ?_ ?_ hok fun p x hp hx => ⟨rfl, hq p x hp hx⟩
  · rw [← hholder, update_eq_self]
    exact h.owned
  · intro rd hrd
    exact h.used (.inl j) rd (hholder.trans hrd)

theorem Inv.step (h : Inv s) (hstep : Step s a s')
    (hquiet : ∀ j r, s'.reqs j = some r → r.call.Quiet) : Inv s' := by
  cases a with
  | call j c mem =>
    change (if (s.reqs j).isSome then none else some _) = some s' at hstep
    split at hstep
    next => exact absurd hstep nofun
    next hfresh =>
      cases hstep
      have hnone : s.reqs j = none := by simpa using hfresh
      have hholder : s.holder (.inl j) = none := by
        rw [State.holder, hnone]
        rfl
      rcases rcopyin_cases c mem s.comm with ⟨ht, hrd, hok⟩ | ⟨rd, hcr, hrd, hok⟩
      · rw [ht]
        refine h.set ?_ ?_ hok fun _ _ _ _ => ⟨rfl, rfl⟩
        · rw [hrd, ← hholder, update_eq_self]
          exact h.owned
        · intro rd hc
          rw [hrd] at hc
          exact absurd hc nofun
      · have howned := h.owned.take hcr hholder
        have hnew := h.owned.unheld hcr
        obtain ⟨_, ht⟩ := cr_rcvd_eq hcr
        refine h.set (hrd.symm ▸ howned) ?_ hok ?_
        · intro x hx
          rw [hrd] at hx
          cases hx
          rw [ht]
          exact update_self rd true s.comm.rd_stat
        · intro p x _ hx
          have hne : x ≠ rd := fun heq => hnew p (heq ▸ hx)
          rw [ht]
          exact ⟨update_of_ne hne _ _, update_of_ne hne _ _⟩
  | reply j =>
    obtain ⟨r, hr, hmap⟩ := Option.bind_eq_some_iff.mp hstep
    obtain ⟨r', hr', hs⟩ := Option.map_eq_some_iff.mp hmap
    rw [← hs]
    obtain ⟨hok, hpos, _⟩ := (h.ok j r hr).reply hr'
    exact h.set_queue hr (by rw [hpos]) ⟨s.comm.rd_rcvdq, rfl, fun _ _ _ _ => rfl⟩ hok
  | arrive j =>
    obtain ⟨r, hr, hmatch⟩ := Option.bind_eq_some_iff.mp hstep
    split at hmatch
    next => exact absurd hmatch nofun
    next x w hw =>
      cases hmatch
      have hok := h.ok j r hr
      have hheld := (holder_call hr).trans (hok.arrive (hw ▸ mem_cons_self))
      exact h.set_queue hr rfl ⟨_, rfl, fun p y hp hy => h.queue_same hheld _ p y hp hy⟩ (hok.arrived hw)
  | turn j =>
    obtain ⟨r, hr, hmap⟩ := Option.bind_eq_some_iff.mp hstep
    obtain ⟨⟨r', t⟩, hr', hs⟩ := Option.map_eq_some_iff.mp hmap
    dsimp only at hs
    rw [← hs] at hquiet ⊢
    obtain ⟨rd, n, dst, ret, x, q, hpos, hq, ht, hcase⟩ := rcopyinTurn_cases hr'
    have hrd : r'.pos.rd = some rd ∧ r'.call = r.call := by
      rcases hcase with ⟨_, rfl⟩ | ⟨_, _, rfl⟩ | ⟨_, rfl⟩
      · exact ⟨rfl, rfl⟩
      · exact ⟨rfl, rfl⟩
      · exact ⟨rfl, rfl⟩
    have hpr : r.pos.rd = some rd := by
      rw [hpos]
      rfl
    have hheld := (holder_call hr).trans hpr
    have hqr : r.call.Quiet := hrd.2 ▸ hquiet j r' reqs_set_self
    exact h.set_queue hr (hrd.1.trans hpr.symm) ⟨_, ht, fun p y hp hy => h.queue_same hheld _ p y hp hy⟩
      ((h.ok j r hr).turn hqr hr')
  | finish j =>
    obtain ⟨r, hr, hmap⟩ := Option.bind_eq_some_iff.mp hstep
    obtain ⟨⟨r', t⟩, hr', hs⟩ := Option.map_eq_some_iff.mp hmap
    dsimp only at hs
    rw [← hs]
    obtain ⟨rd, ret, hrd, hreq, ht, hok⟩ := (h.ok j r hr).finish hr'
    have hheld := (holder_call hr).trans hrd
    have hnone : r'.pos.rd = none := by
      rw [hreq]
      rfl
    refine h.set ?_ ?_ hok ?_
    · rw [hnone, ht]
      exact h.owned.give hheld
    · intro x hx
      rw [hnone] at hx
      exact absurd hx nofun
    · intro p x hp hx
      have hne : x ≠ rd := fun heq => hp (h.owned.inj hx (heq ▸ hheld))
      rw [ht]
      exact ⟨update_of_ne hne _ _, rfl⟩
  | take =>
    obtain ⟨⟨rd, t⟩, hcr, hs⟩ := Option.map_eq_some_iff.mp hstep
    dsimp only at hs
    rw [← hs]
    have hnew := h.owned.unheld hcr
    have hholder : s.holder (.inr rd) = none := by
      by_cases hrd : s.others rd = true
      · exact absurd (if_pos hrd) (hnew (.inr rd))
      · exact if_neg hrd
    have howned := h.owned.take hcr hholder
    obtain ⟨_, ht⟩ := cr_rcvd_eq hcr
    refine h.other ?_ ?_ ?_
    · rw [holder_others]
      exact howned
    · intro x hx
      by_cases hxr : x = rd
      · rw [hxr, ht]
        exact update_self rd true s.comm.rd_stat
      · rw [update_of_ne hxr] at hx
        rw [ht]
        have hheld : s.holder (.inr x) = some x := if_pos hx
        exact (update_of_ne hxr _ _).trans (h.used (.inr x) x hheld)
    · intro i x hx
      have hne : x ≠ rd := fun heq => hnew (.inl i) (heq ▸ hx)
      rw [ht]
      exact ⟨update_of_ne hne _ _, update_of_ne hne _ _⟩
  | free rd =>
    change (if s.others rd then some _ else none) = some s' at hstep
    split at hstep
    next hrd =>
      cases hstep
      have hheld : s.holder (.inr rd) = some rd := if_pos hrd
      refine h.other ?_ ?_ ?_
      · rw [holder_others]
        exact h.owned.give hheld
      · intro x hx
        have hxr : x ≠ rd := by
          rintro rfl
          rw [update_self] at hx
          exact absurd hx nofun
        rw [update_of_ne hxr] at hx
        have hx' : s.holder (.inr x) = some x := if_pos hx
        exact (update_of_ne hxr _ _).trans (h.used (.inr x) x hx')
      · intro i x hx
        have hne : x ≠ rd := fun heq => Sum.inl_ne_inr (h.owned.inj (heq ▸ hx) hheld)
        exact ⟨update_of_ne hne _ _, rfl⟩
    next => exact absurd hstep nofun
  | receive rd =>
    change (if s.others rd then _ else none) = some s' at hstep
    split at hstep
    next hrd =>
      obtain ⟨⟨x, t⟩, hq, hs⟩ := Option.map_eq_some_iff.mp hstep
      obtain ⟨q, _, ht⟩ := de_queue_eq hq
      dsimp only at hs
      rw [← hs]
      have hheld : s.holder (.inr rd) = some rd := if_pos hrd
      refine h.other ?_ ?_ ?_
      · rw [ht]
        exact h.owned
      · intro y hy
        have hy' : s.holder (.inr y) = some y := if_pos hy
        rw [ht]
        exact h.used (.inr y) y hy'
      · intro i y hy
        rw [ht]
        exact ⟨rfl, h.queue_same hheld q (.inl i) y Sum.inl_ne_inr hy⟩
    next => exact absurd hstep nofun

theorem Inv.boot : Inv (boot nrcvd) := by
  refine ⟨⟨List.range' 0 nrcvd, fun rd => if rd < nrcvd then .free else .outside, ?_⟩, ?_, nofun⟩
  · refine ⟨comminit_linked 0 (Nat.zero_le _), nofun, nofun, fun rd => ?_, nofun, fun p rd => ?_⟩
    · rw [mem_range'_1, Nat.zero_add]
      split
      next hrd => exact iff_of_true ⟨Nat.zero_le _, hrd⟩ rfl
      next hrd => exact iff_of_false (fun hc => hrd hc.2) nofun
    · have hnone : (Rfs.boot nrcvd).holder p = none := by
        cases p with
        | inl j => rfl
        | inr x => rfl
      rw [hnone]
      split
      · exact iff_of_false nofun nofun
      · exact iff_of_false nofun nofun
  · intro p rd hp
    cases p with
    | inl j => exact absurd hp nofun
    | inr x => exact absurd hp nofun

/-- The calls that there are stay, with their arguments. -/
theorem calls_kept (hstep : Step s a s') (hr : s.reqs j = some r) :
    ∃ r', s'.reqs j = some r' ∧ r'.call = r.call := by
  have hset (i : ℕ) (r1 r2 : Req) (t : Comm) (h1 : s.reqs i = some r1) (hcall : r2.call = r1.call) :
      ∃ r', (s.set i r2 t).reqs j = some r' ∧ r'.call = r.call := by
    by_cases hij : j = i
    · rw [hij] at hr ⊢
      have heq : r1 = r := Option.some.inj (h1.symm.trans hr)
      exact ⟨r2, reqs_set_self, heq ▸ hcall⟩
    · exact ⟨r, (reqs_set_ne hij).trans hr, rfl⟩
  cases a with
  | call i c mem =>
    change (if (s.reqs i).isSome then none else some _) = some s' at hstep
    split at hstep
    next => exact absurd hstep nofun
    next hfresh =>
      cases hstep
      have hij : j ≠ i := by
        rintro rfl
        rw [hr] at hfresh
        exact hfresh rfl
      exact ⟨r, (reqs_set_ne hij).trans hr, rfl⟩
  | reply i =>
    obtain ⟨r1, hr1, hmap⟩ := Option.bind_eq_some_iff.mp hstep
    obtain ⟨r2, hr2, hs⟩ := Option.map_eq_some_iff.mp hmap
    rw [← hs]
    apply hset i r1 r2 _ hr1
    unfold copyinReply at hr2
    split at hr2
    next =>
      cases hr2
      rfl
    next => exact absurd hr2 nofun
  | arrive i =>
    obtain ⟨r1, hr1, hmatch⟩ := Option.bind_eq_some_iff.mp hstep
    split at hmatch
    next => exact absurd hmatch nofun
    next x w hw =>
      cases hmatch
      exact hset i r1 _ _ hr1 rfl
  | turn i =>
    obtain ⟨r1, hr1, hmap⟩ := Option.bind_eq_some_iff.mp hstep
    obtain ⟨⟨r2, t⟩, hr2, hs⟩ := Option.map_eq_some_iff.mp hmap
    dsimp only at hs
    rw [← hs]
    apply hset i r1 r2 _ hr1
    obtain ⟨_, _, _, _, _, _, _, _, _, hcase⟩ := rcopyinTurn_cases hr2
    rcases hcase with ⟨_, rfl⟩ | ⟨_, _, rfl⟩ | ⟨_, rfl⟩
    · rfl
    · rfl
    · rfl
  | finish i =>
    obtain ⟨r1, hr1, hmap⟩ := Option.bind_eq_some_iff.mp hstep
    obtain ⟨⟨r2, t⟩, hr2, hs⟩ := Option.map_eq_some_iff.mp hmap
    dsimp only at hs
    rw [← hs]
    apply hset i r1 r2 _ hr1
    unfold rcopyinEnd at hr2
    split at hr2
    next =>
      split at hr2
      next =>
        cases hr2
        rfl
      next => exact absurd hr2 nofun
    next =>
      cases hr2
      rfl
    next => exact absurd hr2 nofun
  | take =>
    obtain ⟨_, _, hs⟩ := Option.map_eq_some_iff.mp hstep
    exact ⟨r, hs ▸ hr, rfl⟩
  | free rd =>
    change (if s.others rd then some _ else none) = some s' at hstep
    split at hstep
    next =>
      cases hstep
      exact ⟨r, hr, rfl⟩
    next => exact absurd hstep nofun
  | receive rd =>
    change (if s.others rd then _ else none) = some s' at hstep
    split at hstep
    next =>
      obtain ⟨_, _, hs⟩ := Option.map_eq_some_iff.mp hstep
      exact ⟨r, hs ▸ hr, rfl⟩
    next => exact absurd hstep nofun

/-- While none but the last chunk of a call faults, the invariant holds in all runs. -/
theorem Inv.run {as : List Act} (h : Run Step (Rfs.boot nrcvd) as s)
    (hquiet : ∀ j r, s.reqs j = some r → r.call.Quiet) : Inv s := by
  refine h.invariant (I := fun s => (∀ j r, s.reqs j = some r → r.call.Quiet) → Inv s) ?_
    (fun _ => Inv.boot) hquiet
  intro s a s' hs hstep hq
  refine (hs fun j r hr => ?_).step hstep hq
  obtain ⟨r', hr', hcall⟩ := calls_kept hstep hr
  exact hcall ▸ hq j r' hr'

theorem Inv.sound (h : Inv s) : Sound s := by
  refine ⟨fun j r ret hr hpos => ?_, fun j r m hr hm => ?_, fun j r ret hr hpos herr hno => ?_⟩
  · have hok := h.ok j r hr
    rw [hpos] at hok
    exact ⟨hok.1.2.2, hok.1.2.1⟩
  · have hrd := (h.ok j r hr).arrive hm
    exact ⟨hrd, h.used (.inl j) m.m_dest ((holder_call hr).trans hrd)⟩
  · have hok := h.ok j r hr
    rw [hpos] at hok
    obtain ⟨hret, hcopied⟩ := hok.2 herr hno
    exact ⟨hret, fun i hi => hcopied i hi hi⟩

end runs

end Svr3.Rfs
