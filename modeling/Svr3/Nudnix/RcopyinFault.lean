import Mathlib.Data.Nat.Find
import Svr3.Nudnix.RcopyinRun

/-!
# Chunks that fault in `rcopyin`

A client that faults before its last chunk goes on with the next ones, and the server leaves its loop at the
first answer with an error. The other answers come to a descriptor that is free or has another user.
-/

namespace Svr3.Rfs

section fault

variable {s : State} {j k rd dst nrcvd : ℕ} {r : Req} {ret : ℤ} {c : Call}

/-- The server is at its loop, and has received the messages of `k` chunks, which are all there are. -/
structure Waits (s : State) (j rd k : ℕ) (c : Call) : Prop where
  req : ∃ r dst ret, s.reqs j = some r ∧ r.call = c ∧ r.gift = rd ∧
    r.pos = .loop rd (c.left - k * DATASIZE) dst ret ∧ Exchange r (s.comm.rd_rcvdq rd) k k
  alone : ∀ i, i ≠ j → s.reqs i = none

/-- A message is there for the server in its loop. -/
theorem Exchange.turn {t : Comm} {q : List Response} {m n : ℕ} {x : Response}
    (hex : Exchange r (x :: q) k m) (hq : t.rd_rcvdq rd = x :: q) (hpos : r.pos = .loop rd n dst ret)
    (hn : 0 < n) :
    ∃ r' t', rcopyinTurn r t = some (r', t') ∧ r'.call = r.call ∧ r'.gift = r.gift ∧
      Exchange r' (t'.rd_rcvdq rd) (k + 1) m ∧
      (r.call.chunkFaults k = true → r'.pos = .broke rd (-1)) ∧
      (r.call.chunkFaults k = false → ∃ dst' ret', r'.pos = .loop rd (n - DATASIZE) dst' ret') := by
  obtain ⟨⟨r', t'⟩, hturn⟩ : ∃ p, rcopyinTurn r t = some p := by
    unfold rcopyinTurn
    rw [hpos]
    dsimp only
    rw [if_pos hn, de_queue, hq]
    exact ⟨_, rfl⟩
  obtain ⟨rd', n', dst', ret', x', q', hpos', hq', ht, hcase⟩ := rcopyinTurn_cases hturn
  rw [hpos] at hpos'
  cases hpos'
  rw [hq] at hq'
  cases hq'
  obtain ⟨hx, _, h⟩ := hex.receive
  have hqueue : t'.rd_rcvdq rd = q := by
    rw [ht]
    exact Function.update_self rd q t.rd_rcvdq
  rw [hx, Call.reply_errno] at hcase
  have hzero : (r.call.reply r.gift k).rp_errno = 0 ↔ r.call.chunkFaults k = false := by
    rw [← not_iff_not, ← ne_eq, Call.reply_errno, Bool.not_eq_false]
  rw [hzero] at hcase
  refine ⟨r', t', hturn, ?_⟩
  rw [hqueue]
  rcases hcase with ⟨hf, rfl⟩ | ⟨hf, _, rfl⟩ | ⟨hf, rfl⟩
  · rw [← hx]
    exact ⟨rfl, rfl, ⟨h.1, h.2, h.3, h.4, h.5, h.6, h.7⟩, fun _ => rfl, fun hc => by
      rw [hf] at hc
      exact absurd hc nofun⟩
  · rw [← hx]
    exact ⟨rfl, rfl, ⟨h.1, h.2, h.3, h.4, h.5, h.6, h.7⟩, fun hc => by
      rw [hf] at hc
      exact absurd hc nofun, fun _ => ⟨_, _, rfl⟩⟩
  · rw [← hx]
    exact ⟨rfl, rfl, ⟨h.1, h.2, h.3, h.4, h.5, h.6, h.7⟩, fun hc => by
      rw [hf] at hc
      exact absurd hc nofun, fun _ => ⟨_, _, rfl⟩⟩

/-- The client answers for a chunk, the message arrives, and the server takes it. -/
theorem Waits.round (h : Waits s j rd k c) (hk : k * DATASIZE < c.left) :
    ∃ as s' r, Run Step s as s' ∧ (∀ i, i ≠ j → s'.reqs i = none) ∧ s'.reqs j = some r ∧ r.call = c ∧
      r.gift = rd ∧ Exchange r (s'.comm.rd_rcvdq rd) (k + 1) (k + 1) ∧
      (c.chunkFaults k = true → r.pos = .broke rd (-1)) ∧
      (c.chunkFaults k = false →
        ∃ dst ret, r.pos = .loop rd (c.left - (k + 1) * DATASIZE) dst ret) := by
  obtain ⟨⟨r, dst, ret, hr, hcall, hgift, hpos, hex⟩, halone⟩ := h
  have hempty := hex.between
  rw [Call.replies_self, List.append_eq_nil_iff] at hempty
  obtain ⟨r1, hr1⟩ : ∃ r1, copyinReply r = some r1 := by
    refine ⟨_, if_pos ?_⟩
    rw [hex.count, hcall]
    exact Nat.sub_pos_of_lt hk
  obtain ⟨hex1, heq1⟩ := hex.reply hr1
  have hcall1 : r1.call = c := by rw [heq1, ← hcall]
  have hgift1 : r1.gift = rd := by rw [heq1, ← hgift]
  have hpos1 : r1.pos = .loop rd (c.left - k * DATASIZE) dst ret := by rw [heq1, ← hpos]
  have hwire := hex1.between
  rw [hempty.1, List.nil_append, Call.replies_cons (Nat.lt_succ_self k), Call.replies_self, hcall1,
    hgift1] at hwire
  have hex2 := hex1.arrive hwire
  rw [hempty.1, List.nil_append] at hex2
  have hqueue : (arrmsg (c.reply rd k) s.comm).rd_rcvdq rd = [c.reply rd k] := by
    rw [arrmsg, Call.reply_dest, hempty.1]
    exact Function.update_self rd _ _
  obtain ⟨r3, t3, hturn, hcall3, hgift3, hex3, hfault, hgood⟩ :=
    hex2.turn hqueue hpos1 (Nat.sub_pos_of_lt hk)
  have hreply : Step s (.reply j) (s.set j r1 s.comm) := by
    change (s.reqs j).bind _ = _
    rw [hr, Option.bind_some, hr1]
    rfl
  have harrive : Step (s.set j r1 s.comm) (.arrive j)
      ((s.set j r1 s.comm).set j { r1 with wire := [] } (arrmsg (c.reply rd k) s.comm)) := by
    change ((s.set j r1 s.comm).reqs j).bind _ = _
    rw [reqs_set_self, Option.bind_some, hwire]
    rfl
  have hturned : Step ((s.set j r1 s.comm).set j { r1 with wire := [] } (arrmsg (c.reply rd k) s.comm))
      (.turn j) (((s.set j r1 s.comm).set j { r1 with wire := [] }
        (arrmsg (c.reply rd k) s.comm)).set j r3 t3) := by
    change (State.reqs _ j).bind _ = _
    rw [reqs_set_self, Option.bind_some]
    change (rcopyinTurn _ (arrmsg (c.reply rd k) s.comm)).map _ = _
    rw [hturn]
    rfl
  refine ⟨_, _, r3, .cons hreply (.cons harrive (.single hturned)), ?_, reqs_set_self,
    hcall3.trans hcall1, hgift3.trans hgift1, hex3, ?_, ?_⟩
  · intro i hi
    rw [reqs_set_ne hi, reqs_set_ne hi, reqs_set_ne hi]
    exact halone i hi
  · intro hf
    apply hfault
    change r1.call.chunkFaults k = true
    rw [hcall1]
    exact hf
  · intro hf
    obtain ⟨dst', ret', hpos3⟩ := hgood (by
      change r1.call.chunkFaults k = false
      rw [hcall1]
      exact hf)
    rw [Nat.sub_sub, ← Nat.add_one_mul] at hpos3
    exact ⟨dst', ret', hpos3⟩

/-- The chunks before the one that faults go well. -/
theorem Waits.rounds (h : Waits s j rd 0 c) (hk : k * DATASIZE < c.left)
    (hgood : ∀ i < k, c.chunkFaults i = false) : ∃ as s', Run Step s as s' ∧ Waits s' j rd k c := by
  induction k with
  | zero => exact ⟨[], s, .nil s, h⟩
  | succ k ih =>
    have hlt : k * DATASIZE < c.left := by
      rw [Nat.add_one_mul] at hk
      omega
    obtain ⟨as, s1, hrun, hwait⟩ := ih hlt fun i hi => hgood i (Nat.lt_succ_of_lt hi)
    obtain ⟨bs, s2, r, hrun', halone, hr, hcall, hgift, hex, _, hpos⟩ := hwait.round hlt
    obtain ⟨dst, ret, hloop⟩ := hpos (hgood k (Nat.lt_succ_self k))
    exact ⟨as ++ bs, s2, hrun.append hrun', ⟨r, dst, ret, hr, hcall, hgift, hloop, hex⟩, halone⟩

/-- The first call comes to its loop. -/
theorem Waits.boot (hn : 0 < nrcvd) (hpre : c.prefault = false) (hleft : 0 < c.left) :
    ∃ s, Step (Rfs.boot nrcvd) (.call 0 c fun _ => 0) s ∧ Waits s 0 0 0 c := by
  obtain ⟨t, hcr⟩ : ∃ t, cr_rcvd (comminit nrcvd) = some (0, t) := by
    unfold cr_rcvd
    rw [show (comminit nrcvd).rdfreelist = some 0 from if_pos hn]
    exact ⟨_, rfl⟩
  have hqueue : t.rd_rcvdq 0 = [] := by
    rw [(cr_rcvd_eq hcr).2]
    exact Function.update_self (0 : ℕ) ([] : List Response) (comminit nrcvd).rd_rcvdq
  have hloop : ∃ r, rcopyin c (fun _ => 0) (comminit nrcvd) = (r, t) ∧ r.call = c ∧ r.gift = 0 ∧
      r.pos = .loop 0 c.left (c.dst + c.size) 0 ∧ Exchange r [] 0 0 := by
    unfold rcopyin
    rw [hpre, hcr]
    have hask : ¬(c.u_copybp.isSome = true ∧ c.left = 0) := fun hc => by
      rw [hc.2] at hleft
      exact absurd hleft (Nat.lt_irrefl 0)
    rw [if_neg nofun, if_neg hask]
    refine ⟨_, rfl, rfl, rfl, rfl, Nat.le_refl 0, fun i hi => absurd hi (Nat.not_lt_zero i), ?_, ?_, rfl,
      rfl, rfl⟩
    · rw [Nat.zero_mul, Nat.add_zero]
    · rw [Nat.zero_mul, Nat.sub_zero]
  obtain ⟨r, heq, hcall, hgift, hpos, hex⟩ := hloop
  refine ⟨(Rfs.boot nrcvd).set 0 r t, ?_, ⟨r, c.dst + c.size, 0, reqs_set_self, hcall, hgift, ?_, ?_⟩, ?_⟩
  · change some ((Rfs.boot nrcvd).set 0 (rcopyin c (fun _ => 0) (comminit nrcvd)).1
      (rcopyin c (fun _ => 0) (comminit nrcvd)).2) = _
    rw [heq]
  · rw [Nat.zero_mul, Nat.sub_zero]
    exact hpos
  · change Exchange r (t.rd_rcvdq 0) 0 0
    rw [hqueue]
    exact hex
  · intro i hi
    exact reqs_set_ne hi

/-- A call whose client faults before the last chunk returns too early in some run. -/
theorem leaves_early (hn : 0 < nrcvd) (hc : ¬c.Quiet) :
    ∃ as s, Run Step (boot nrcvd) as s ∧ (∀ j r, s.reqs j = some r → r.call = c) ∧
      ∃ r ret, s.reqs 0 = some r ∧ r.pos = .returned ret ∧ r.count ≠ 0 := by
  obtain ⟨hpre, hex⟩ : c.prefault = false ∧
      ∃ k, (k + 1) * DATASIZE < c.left ∧ c.chunkFaults k = true := by
    unfold Call.Quiet at hc
    simpa using hc
  -- the first one that faults
  obtain ⟨hlast, hfault⟩ := Nat.find_spec hex
  generalize hfind : Nat.find hex = k at hlast hfault
  have hk : k * DATASIZE < c.left := by
    rw [Nat.add_one_mul] at hlast
    omega
  have hgood : ∀ i < k, c.chunkFaults i = false := by
    intro i hi
    by_contra hf
    apply Nat.find_min hex (hfind.symm ▸ hi)
    refine ⟨?_, Bool.not_eq_false _ ▸ hf⟩
    have hmul : (i + 1) * DATASIZE ≤ k * DATASIZE := Nat.mul_le_mul_right DATASIZE hi
    omega
  obtain ⟨s0, hstart, hwait0⟩ := Waits.boot hn hpre (Nat.zero_lt_of_lt hk)
  obtain ⟨as, s1, hrun1, hwait1⟩ := hwait0.rounds hk hgood
  obtain ⟨bs, s2, r, hrun2, halone, hr, hcall, _, hex2, hbroke, _⟩ := hwait1.round hk
  have hpos := hbroke hfault
  have hfinish : Step s2 (.finish 0) (s2.set 0 { r with pos := .returned (-1) } (free_rcvd 0 s2.comm)) := by
    change (s2.reqs 0).bind _ = _
    rw [hr, Option.bind_some]
    unfold rcopyinEnd
    rw [hpos]
    rfl
  refine ⟨_, _, (Run.cons hstart (hrun1.append hrun2)).snoc hfinish, ?_, _, -1, reqs_set_self, rfl, ?_⟩
  · intro j r' hr'
    by_cases hj : j = 0
    · rw [hj, reqs_set_self] at hr'
      cases hr'
      exact hcall
    · rw [reqs_set_ne hj, halone j hj] at hr'
      exact absurd hr' nofun
  · change r.count ≠ 0
    rw [hex2.count, hcall]
    omega

/-- Every `rcopyin` gets all messages of its client before it frees its descriptor, and gets the bytes of the
client when nothing faults, if and only if no chunk faults at a client before the last one. `K` are the calls
of the runs. -/
theorem rcopyin_receives (hn : 0 < nrcvd) (K : Call → Prop) :
    (∀ as s, Run Step (boot nrcvd) as s → (∀ j r, s.reqs j = some r → K r.call) → Sound s) ↔
      ∀ c, K c → c.Quiet := by
  constructor
  · intro h c hc
    by_contra hquiet
    obtain ⟨as, s, hrun, hcalls, r, ret, hr, hpos, hcount⟩ := leaves_early hn hquiet
    have hsound := h as s hrun fun j r' hr' => hcalls j r' hr' ▸ hc
    exact hcount (hsound.received 0 r ret hr hpos).2
  · intro h as s hrun hK
    exact (Inv.run hrun fun j r hr => h r.call (hK j r hr)).sound

/-- Runs of calls for one message at most. -/
theorem rcopyin_receives_one : (∀ as s, Run Step (boot 4) as s →
      (∀ j r, s.reqs j = some r → r.call.n ≤ DATASIZE) → Sound s) ↔
    ∀ c : Call, c.n ≤ DATASIZE → c.Quiet :=
  rcopyin_receives (by decide) fun c => c.n ≤ DATASIZE

/-- A call for two messages, where the client faults at the first one -/
def twoChunks : Call where
  frm := 4096
  dst := 0
  n := 2048
  mem := fun _ => 0
  u_copybp := none
  copyinFaults := fun a _ => a == 4096
  bcopyFaults := fun _ _ => false
  presents := nofun

/-- The server frees its descriptor after the first answer, another request gets it, and the second answer
is on its way. -/
def reused : List Act :=
  [.call 0 twoChunks fun _ => 0, .reply 0, .arrive 0, .turn 0, .finish 0, .take, .reply 0]

theorem reused_descriptor : ¬∀ as s, Run Step (boot 4) as s → Sound s := by
  intro h
  have hend : (reused.foldlM next (boot 4)).any (fun s =>
      s.others 0 && (s.reqs 0).any fun r => r.pos.rd.isNone && r.wire.any fun m => m.m_dest == 0) = true := by
    decide +kernel
  obtain ⟨s, hrun, hs⟩ := Run.of_foldlM hend
  have hsound := h reused s hrun
  simp only [Bool.and_eq_true, Option.any_eq_true, List.any_eq_true] at hs
  obtain ⟨_, r, hr, hnone, m, hm, _⟩ := hs
  have hheld := (hsound.held 0 r m hr hm).1
  rw [Option.isNone_iff_eq_none.mp hnone] at hheld
  exact absurd hheld nofun

end fault

end Svr3.Rfs
