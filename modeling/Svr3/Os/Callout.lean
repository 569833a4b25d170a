import Mathlib.Algebra.BigOperators.Group.List.Basic
import Mathlib.Tactic.Linarith

/-!
# The callout table of `os/clock.c`

The table holds the calls that `timeout` arranged, each with the number of ticks it is due after
the entry before it; the first slot without a function ends it. Slots after that one are junk.
-/

namespace Svr3.Callout

open List

/-- `struct callo`; `c_func` is `none` for a NULL pointer. -/
structure Callo where
  c_time : ℤ
  c_id : ℤ
  c_arg : ℤ
  c_func : Option ℕ
deriving DecidableEq, Repr

/-- How a routine ends other than by returning. -/
inductive Fault
  /-- `cmn_err(CE_PANIC, "Timeout table overflow")` -/
  | panic
  /-- An access past the end of the table. -/
  | outside
deriving DecidableEq, Repr

/-- The table, the last timeout id, and the time in ticks since boot. -/
structure Clk where
  callout : List Callo
  timeid : ℤ
  lbolt : ℤ
deriving DecidableEq, Repr

/-- The state at boot, with a table of `n + 2` slots (`v.v_call`). -/
def boot (n : ℕ) : Clk := ⟨List.replicate (n + 2) ⟨0, 0, 0, none⟩, 0, 0⟩

/-- The loops of `timeout` that move the entries from `p1` on and the end of the table one slot
up: the slots after `p1`. -/
def openSlot : List Callo → Except Fault (List Callo)
  | [] => .error .outside
  | p2 :: rest =>
    if p2.c_func = none then
      match rest with
      | [] => .error .outside
      | _ :: junk => .ok (p2 :: junk)
    else (openSlot rest).map (p2 :: ·)

/-- The scan of `timeout` for the place of the new entry, which is `new` but for its time. -/
def timeoutScan (new : Callo) (t : ℤ) : List Callo → Except Fault (List Callo)
  | [] => .error .outside
  | p1 :: rest =>
    if p1.c_func ≠ none ∧ p1.c_time ≤ t then
      (timeoutScan new (t - p1.c_time) rest).map (p1 :: ·)
    else (openSlot ({ p1 with c_time := p1.c_time - t } :: rest)).map ({ new with c_time := t } :: ·)

/-- `timeout(fun, arg, tim)`: the id and the new state. -/
def timeout (s : Clk) (f : ℕ) (arg tim : ℤ) : Except Fault (ℤ × Clk) :=
  match s.callout[s.callout.length - 2]? with
  | none => .error .outside
  | some c =>
    if c.c_func ≠ none then .error .panic
    else
      let id := Int.bmod (s.timeid + 1) (2 ^ 32)
      (timeoutScan ⟨0, id, arg, some f⟩ tim s.callout).map fun l =>
        (id, { s with callout := l, timeid := id })

/-- `do *p1++ = *p2++; while (p1->c_func != NULL);` from the slots that `p2` points to: the slots
from `p1` on, which is the slot before. The loop of `timein` moves the same slots. -/
def closeUp : List Callo → Except Fault (List Callo)
  | [] => .error .outside
  | p2 :: rest => if p2.c_func = none then .ok (p2 :: p2 :: rest) else (closeUp rest).map (p2 :: ·)

/-- The loop of `untimeout`. -/
def untimeoutScan (id : ℤ) : List Callo → Except Fault (List Callo)
  | [] => .error .outside
  | p1 :: rest =>
    if p1.c_func = none then .ok (p1 :: rest)
    else if p1.c_id = id then
      match rest with
      | [] => .error .outside
      | p2 :: rest => closeUp ({ p2 with c_time := p2.c_time + p1.c_time } :: rest)
    else (untimeoutScan id rest).map (p1 :: ·)

/-- `untimeout(id)` -/
def untimeout (s : Clk) (id : ℤ) : Except Fault Clk :=
  (untimeoutScan id s.callout).map fun l => { s with callout := l }

/-- `while (cp->c_time<=0 && cp->c_func!=NULL) cp++; cp->c_time--;` -/
def clockScan : List Callo → Except Fault (List Callo)
  | [] => .error .outside
  | cp :: rest =>
    if cp.c_time ≤ 0 ∧ cp.c_func ≠ none then (clockScan rest).map (cp :: ·)
    else .ok ({ cp with c_time := cp.c_time - 1 } :: rest)

/-- The part of `clock` that keeps the callouts and the time since boot. -/
def clock (s : Clk) : Except Fault Clk :=
  match s.callout with
  | [] => .error .outside
  | cp :: rest =>
    if cp.c_func ≠ none then
      (clockScan (cp :: rest)).map fun l => { s with callout := l, lbolt := s.lbolt + 1 }
    else .ok { s with lbolt := s.lbolt + 1 }

/-- The test of the while loop of `timein`: is the first entry due? -/
def due (s : Clk) : Bool :=
  match s.callout with
  | [] => false
  | p1 :: _ => p1.c_func.isSome && decide (p1.c_time ≤ 0)

/-- The body of the while loop of `timein` up to the call: the entry to call, and the table
without it. -/
def timeinBody (s : Clk) : Except Fault (Callo × Clk) :=
  match s.callout with
  | [] => .error .outside
  | svcall :: rest => (closeUp rest).map fun l => (svcall, { s with callout := l })

/-! ## Absolute deadlines -/

/-- A call that is still to be made: what to call, and the tick it is due at. `seq` counts the
calls of `timeout`. -/
structure Pending where
  seq : ℕ
  deadline : ℤ
  id : ℤ
  arg : ℤ
  func : ℕ
deriving DecidableEq, Repr

/-- The ticks left until a call is due. -/
def Pending.remaining (p : Pending) (now : ℤ) : ℤ := max 0 (p.deadline - now)

/-- The slots `cs` hold the calls `ps`, with times counted from `base` ticks after `now`. -/
def Encodes (now : ℤ) : ℤ → List Callo → List Pending → Prop
  | _, [], [] => True
  | base, c :: cs, p :: ps =>
    (c.c_func = some p.func ∧ c.c_id = p.id ∧ c.c_arg = p.arg) ∧ 0 ≤ c.c_time ∧
      base + c.c_time = p.remaining now ∧ Encodes now (p.remaining now) cs ps
  | _, _, _ => False

/-- The table is the calls `ps` in order, a slot without a function, and junk without
functions. -/
def Holds (s : Clk) (ps : List Pending) : Prop :=
  ∃ cs stop junk, s.callout = cs ++ stop :: junk ∧ (∀ c ∈ stop :: junk, c.c_func = none) ∧
    Encodes s.lbolt 0 cs ps

theorem Encodes.func_ne {now base : ℤ} {cs : List Callo} {ps : List Pending}
    (h : Encodes now base cs ps) : ∀ c ∈ cs, c.c_func ≠ none := by
  induction cs generalizing base ps with
  | nil => simp
  | cons c cs ih =>
    cases ps with
    | nil => exact absurd h id
    | cons p ps =>
      intro d hd
      rcases mem_cons.mp hd with rfl | hd
      · simp [h.1.1]
      · exact ih h.2.2.2 d hd

theorem Encodes.length {now base : ℤ} {cs : List Callo} {ps : List Pending}
    (h : Encodes now base cs ps) : cs.length = ps.length := by
  induction cs generalizing base ps with
  | nil =>
    cases ps with
    | nil => rfl
    | cons p ps => exact absurd h id
  | cons c cs ih =>
    cases ps with
    | nil => exact absurd h id
    | cons p ps => simp [ih h.2.2.2]

/-- The times up to and including an entry add up to the ticks left until it is due. -/
theorem Encodes.sum_take {now base : ℤ} {cs : List Callo} {ps : List Pending}
    (h : Encodes now base cs ps) {i : ℕ} {p : Pending} (hp : ps[i]? = some p) :
    base + ((cs.take (i + 1)).map Callo.c_time).sum = p.remaining now := by
  induction cs generalizing base ps i with
  | nil =>
    cases ps with
    | nil => simp at hp
    | cons q ps => exact absurd h id
  | cons c cs ih =>
    cases ps with
    | nil => exact absurd h id
    | cons q ps =>
      obtain ⟨-, -, hb, hrest⟩ := h
      cases i with
      | zero =>
        obtain rfl : q = p := by simpa using hp
        simpa using hb
      | succ i =>
        have := ih hrest (by simpa using hp)
        simp only [take_succ_cons, map_cons, sum_cons]
        omega

/-! ## What each routine does to the deadlines -/

theorem openSlot_eq (x : Callo) (junk : List Callo) {cs : List Callo} {stop : Callo} (hcs : ∀ c ∈ cs, c.c_func ≠ none)
    (hstop : stop.c_func = none) :
    openSlot (cs ++ stop :: x :: junk) = .ok (cs ++ stop :: junk) := by
  induction cs with
  | nil => simp [openSlot, hstop]
  | cons c cs ih =>
    have hc := hcs c (by simp)
    simp only [cons_append, openSlot, hc, if_false]
    rw [ih fun d hd => hcs d (by simp [hd])]
    rfl

theorem closeUp_eq {cs junk : List Callo} {stop : Callo} (hcs : ∀ c ∈ cs, c.c_func ≠ none)
    (hstop : stop.c_func = none) :
    closeUp (cs ++ stop :: junk) = .ok (cs ++ stop :: stop :: junk) := by
  induction cs with
  | nil => simp [closeUp, hstop]
  | cons c cs ih =>
    have hc := hcs c (by simp)
    simp only [cons_append, closeUp, hc, if_false]
    rw [ih fun d hd => hcs d (by simp [hd])]
    rfl

/-- The place of a new call: after every call that is due no later. -/
def place (p : Pending) (ps : List Pending) : List Pending :=
  ps.takeWhile (fun q => q.deadline ≤ p.deadline) ++ p ::
    ps.dropWhile (fun q => q.deadline ≤ p.deadline)

theorem timeoutScan_eq {now base t : ℤ} {cs : List Callo} {ps : List Pending} {p : Pending}
    {new stop : Callo} (x : Callo) (junk : List Callo) (h : Encodes now base cs ps) (hbase : 0 ≤ base)
    (ht : 0 ≤ t) (hp : p.deadline - now = base + t)
    (hnew : new.c_func = some p.func ∧ new.c_id = p.id ∧ new.c_arg = p.arg)
    (hstop : stop.c_func = none) :
    ∃ cs' stop', timeoutScan new t (cs ++ stop :: x :: junk) = .ok (cs' ++ stop' :: junk) ∧
      stop'.c_func = none ∧ Encodes now base cs' (place p ps) := by
  have hprem : p.remaining now = base + t := by
    rw [Pending.remaining, hp]
    exact max_eq_right (by omega)
  induction cs generalizing base t ps with
  | nil =>
    cases ps with
    | cons q ps => exact absurd h id
    | nil =>
      refine ⟨[{ new with c_time := t }], { stop with c_time := stop.c_time - t }, ?_, hstop, ?_⟩
      · simp [timeoutScan, hstop, openSlot, Except.map]
      · exact ⟨hnew, ht, hprem.symm, trivial⟩
  | cons c cs ih =>
    cases ps with
    | nil => exact absurd h id
    | cons q ps =>
      obtain ⟨hc, hc0, hcb, hrest⟩ := id h
      have hcf : c.c_func ≠ none := by simp [hc.1]
      have hq0 : 0 ≤ q.remaining now := le_max_left _ _
      -- the new call comes after `q` exactly when it is due no earlier
      have hiff : c.c_time ≤ t ↔ q.deadline ≤ p.deadline := by
        have hqr : q.remaining now = max 0 (q.deadline - now) := rfl
        omega
      by_cases hle : c.c_time ≤ t
      · obtain ⟨cs', stop', h1, h2, h3⟩ := ih hrest hq0 (show 0 ≤ t - c.c_time by omega)
          (by omega) (by omega)
        refine ⟨c :: cs', stop', ?_, h2, ?_⟩
        · simp only [cons_append, timeoutScan, ne_eq, hcf, not_false_iff, hle, and_self,
            if_true, h1]
          rfl
        · simp only [place, hiff.mp hle, decide_true, takeWhile_cons_of_pos,
            dropWhile_cons_of_pos, cons_append]
          exact ⟨hc, hc0, hcb, h3⟩
      · refine ⟨{ new with c_time := t } :: { c with c_time := c.c_time - t } :: cs, stop, ?_,
          hstop, ?_⟩
        · have hcs : ∀ d ∈ { c with c_time := c.c_time - t } :: cs, d.c_func ≠ none := by
            intro d hd
            rcases mem_cons.mp hd with rfl | hd
            · exact hcf
            · exact hrest.func_ne d hd
          have hopen := openSlot_eq x junk hcs hstop
          simp only [cons_append, timeoutScan, ne_eq, hcf, not_false_iff, hle, and_false,
            if_false] at hopen ⊢
          rw [hopen]
          rfl
        · have hnot : ¬ q.deadline ≤ p.deadline := mt hiff.mpr hle
          simp only [place, hnot, decide_false, Bool.false_eq_true, not_false_iff,
            takeWhile_cons_of_neg, dropWhile_cons_of_neg, nil_append]
          refine ⟨hnew, ht, hprem.symm, hc, by simp only; omega, by simp only; omega, hrest⟩

theorem remaining_succ_of_pos {p : Pending} {now : ℤ} (h : 0 < p.remaining now) :
    p.remaining (now + 1) = p.remaining now - 1 := by
  simp only [Pending.remaining] at *
  omega

theorem remaining_succ_of_zero {p : Pending} {now : ℤ} (h : p.remaining now = 0) :
    p.remaining (now + 1) = 0 := by
  simp only [Pending.remaining] at *
  omega

/-- Once the entries before are counted down, a tick changes none of the later times. -/
theorem Encodes.tick {now base : ℤ} {cs : List Callo} {ps : List Pending}
    (h : Encodes now base cs ps) (hbase : 0 < base) : Encodes (now + 1) (base - 1) cs ps := by
  induction cs generalizing base ps with
  | nil =>
    cases ps with
    | nil => trivial
    | cons p ps => exact absurd h id
  | cons c cs ih =>
    cases ps with
    | nil => exact absurd h id
    | cons p ps =>
      obtain ⟨hc, hc0, hcb, hrest⟩ := h
      have hpos : 0 < p.remaining now := by omega
      have hsucc := remaining_succ_of_pos hpos
      exact ⟨hc, hc0, by omega, hsucc ▸ ih hrest hpos⟩

/-- A tick counts down the first entry that is not due. -/
theorem clockScan_eq {now : ℤ} {cs : List Callo} {ps : List Pending} {stop : Callo}
    (junk : List Callo) (h : Encodes now 0 cs ps) (hstop : stop.c_func = none) :
    ∃ cs' stop', clockScan (cs ++ stop :: junk) = .ok (cs' ++ stop' :: junk) ∧
      stop'.c_func = none ∧ Encodes (now + 1) 0 cs' ps := by
  induction cs generalizing ps with
  | nil =>
    cases ps with
    | cons p ps => exact absurd h id
    | nil => exact ⟨[], { stop with c_time := stop.c_time - 1 }, by simp [clockScan, hstop], hstop,
        trivial⟩
  | cons c cs ih =>
    cases ps with
    | nil => exact absurd h id
    | cons p ps =>
      obtain ⟨hc, hc0, hcb, hrest⟩ := h
      have hcf : c.c_func ≠ none := by simp [hc.1]
      by_cases hle : c.c_time ≤ 0
      · have hp0 : p.remaining now = 0 := by omega
        obtain ⟨cs', stop', h1, h2, h3⟩ := ih (hp0 ▸ hrest)
        have hsucc := remaining_succ_of_zero hp0
        refine ⟨c :: cs', stop', ?_, h2, hc, hc0, by omega, hsucc ▸ h3⟩
        simp only [cons_append, clockScan, ne_eq, hcf, not_false_iff, hle, and_self, if_true,
          h1]
        rfl
      · have hpos : 0 < p.remaining now := by omega
        have hsucc := remaining_succ_of_pos hpos
        refine ⟨{ c with c_time := c.c_time - 1 } :: cs, stop, ?_, hstop, hc, by simp only; omega,
          by simp only; omega, hsucc ▸ hrest.tick hpos⟩
        simp only [cons_append, clockScan, ne_eq, hcf, not_false_iff, hle, and_true, if_false]

/-- `untimeout` removes the first call with that id and leaves the other deadlines. -/
theorem untimeoutScan_eq (tid : ℤ) {now base : ℤ} {cs : List Callo} {ps : List Pending}
    {stop : Callo} {junk : List Callo} (h : Encodes now base cs ps)
    (hnone : ∀ c ∈ stop :: junk, c.c_func = none) :
    ∃ cs' stop' junk', untimeoutScan tid (cs ++ stop :: junk) = .ok (cs' ++ stop' :: junk') ∧
      cs'.length + junk'.length = cs.length + junk.length ∧
      (∀ c ∈ stop' :: junk', c.c_func = none) ∧
      Encodes now base cs' (ps.eraseP fun p => p.id = tid) := by
  obtain ⟨hstop, hjunk⟩ := forall_mem_cons.mp hnone
  induction cs generalizing base ps with
  | nil =>
    cases ps with
    | cons p ps => exact absurd h id
    | nil => exact ⟨[], stop, junk, by simp [untimeoutScan, hstop], rfl, hnone, trivial⟩
  | cons c cs ih =>
    cases ps with
    | nil => exact absurd h id
    | cons p ps =>
      obtain ⟨hc, hc0, hcb, hrest⟩ := h
      have hcf : c.c_func ≠ none := by simp [hc.1]
      by_cases hid : c.c_id = tid
      · have herase : (p :: ps).eraseP (fun p => p.id = tid) = ps := by
          simp [hc.2.1.symm.trans hid]
        rw [herase]
        cases cs with
        | nil =>
          cases ps with
          | cons q ps => exact absurd hrest id
          | nil =>
            refine ⟨[], { stop with c_time := stop.c_time + c.c_time },
              { stop with c_time := stop.c_time + c.c_time } :: junk, ?_, by simp; omega, ?_,
              trivial⟩
            · simp [untimeoutScan, hcf, hid, closeUp, hstop]
            · simpa [hstop] using hjunk
        | cons d cs =>
          cases ps with
          | nil => exact absurd hrest id
          | cons q ps =>
            obtain ⟨hd, hd0, hdb, hrest'⟩ := hrest
            have hcs : ∀ e ∈ { d with c_time := d.c_time + c.c_time } :: cs, e.c_func ≠ none := by
              intro e he
              rcases mem_cons.mp he with rfl | he
              · simp [hd.1]
              · exact hrest'.func_ne e he
            refine ⟨{ d with c_time := d.c_time + c.c_time } :: cs, stop, stop :: junk, ?_,
              by simp; omega, by simpa [hstop] using hjunk, hd, by simp only; omega,
              by simp only; omega, hrest'⟩
            simp only [cons_append, untimeoutScan, hcf, if_false, hid, if_true]
            exact closeUp_eq hcs hstop
      · have herase : (p :: ps).eraseP (fun p => p.id = tid) =
            p :: ps.eraseP fun p => p.id = tid := by
          simp [hc.2.1 ▸ hid]
        obtain ⟨cs', stop', junk', h1, h2, h3, h4⟩ := ih hrest
        rw [herase]
        refine ⟨c :: cs', stop', junk', ?_, by simp; omega, h3, hc, hc0, hcb, h4⟩
        simp only [cons_append, untimeoutScan, hcf, if_false, hid, h1]
        rfl

/-! ## The routines on a table that holds the calls `ps` -/

theorem boot_holds (n : ℕ) : Holds (boot n) [] :=
  ⟨[], ⟨0, 0, 0, none⟩, List.replicate (n + 1) ⟨0, 0, 0, none⟩, rfl, by simp, trivial⟩

theorem place_perm (p : Pending) (ps : List Pending) : (place p ps).Perm (p :: ps) := by
  rw [place]
  refine perm_middle.trans ?_
  rw [takeWhile_append_dropWhile]

/-- `timeout` panics exactly when all slots but one are in use; otherwise the new call is due `tim`
ticks from now. -/
theorem timeout_spec {s : Clk} {ps : List Pending} (h : Holds s ps) (f : ℕ) (arg : ℤ) {tim : ℤ}
    (ht : 0 ≤ tim) (hlen : 2 ≤ s.callout.length) (seq : ℕ) :
    (timeout s f arg tim = .error .panic ∧ s.callout.length = ps.length + 1) ∨
      ∃ s', timeout s f arg tim = .ok (s'.timeid, s') ∧ s'.lbolt = s.lbolt ∧
        s'.callout.length = s.callout.length ∧
        Holds s' (place ⟨seq, s.lbolt + tim, s'.timeid, arg, f⟩ ps) := by
  obtain ⟨cs, stop, junk, heq, hnone, henc⟩ := h
  have hl := henc.length
  cases junk with
  | nil =>
    left
    obtain ⟨c, hc⟩ : ∃ c, cs[cs.length - 1]? = some c := by
      cases cs with
      | nil => simp [heq] at hlen
      | cons c cs => exact ⟨_, List.getElem?_eq_getElem (by simp)⟩
    have hcf := henc.func_ne c (mem_of_getElem? hc)
    have hlast : s.callout[s.callout.length - 2]? = some c := by
      rw [heq, length_append, length_singleton, List.getElem?_append_left]
      · exact hc
      · have := (List.getElem?_eq_some_iff.mp hc).1
        omega
    exact ⟨by simp [timeout, hlast, hcf], by simp [heq, hl]⟩
  | cons x junk =>
    right
    obtain ⟨c, hc⟩ : ∃ c, (stop :: x :: junk)[junk.length]? = some c :=
      ⟨_, List.getElem?_eq_getElem (by simp only [length_cons]; omega)⟩
    have hcf := hnone c (mem_of_getElem? hc)
    have hlast : s.callout[s.callout.length - 2]? = some c := by
      rw [heq, List.getElem?_append_right]
      · rw [← hc]
        congr 1
        simp only [length_append, length_cons]
        omega
      · simp only [length_append, length_cons]
        omega
    let tid := Int.bmod (s.timeid + 1) (2 ^ 32)
    let p : Pending := ⟨seq, s.lbolt + tim, tid, arg, f⟩
    let new : Callo := ⟨0, tid, arg, some f⟩
    have hnew : new.c_func = some p.func ∧ new.c_id = p.id ∧ new.c_arg = p.arg := ⟨rfl, rfl, rfl⟩
    obtain ⟨cs', stop', h1, h2, h3⟩ :=
      timeoutScan_eq x junk henc le_rfl ht (by simp [p]) hnew (hnone stop (by simp))
    refine ⟨{ s with callout := cs' ++ stop' :: junk, timeid := tid }, ?_, rfl, ?_,
      cs', stop', junk, rfl, ?_, h3⟩
    · simp only [timeout, hlast, hcf, ne_eq, not_true, if_false]
      rw [heq, h1]
      rfl
    · have := h3.length
      rw [(place_perm p ps).length_eq] at this
      simp only [heq, length_append, length_cons] at this ⊢
      omega
    · intro d hd
      rcases mem_cons.mp hd with rfl | hd
      · exact h2
      · exact hnone d (by simp [hd])

theorem untimeout_spec {s : Clk} {ps : List Pending} (h : Holds s ps) (tid : ℤ) :
    ∃ s', untimeout s tid = .ok s' ∧ s'.lbolt = s.lbolt ∧
      s'.callout.length = s.callout.length ∧ Holds s' (ps.eraseP fun p => p.id = tid) := by
  obtain ⟨cs, stop, junk, heq, hnone, henc⟩ := h
  obtain ⟨cs', stop', junk', h1, h2, h3, h4⟩ := untimeoutScan_eq tid henc hnone
  refine ⟨{ s with callout := cs' ++ stop' :: junk' }, ?_, rfl, ?_, cs', stop', junk', rfl, h3, h4⟩
  · rw [untimeout, heq, h1]
    rfl
  · simp only [heq, length_append, length_cons]
    omega

theorem clock_spec {s : Clk} {ps : List Pending} (h : Holds s ps) :
    ∃ s', clock s = .ok s' ∧ s'.lbolt = s.lbolt + 1 ∧
      s'.callout.length = s.callout.length ∧ Holds s' ps := by
  obtain ⟨cs, stop, junk, heq, hnone, henc⟩ := h
  cases cs with
  | nil =>
    have hp : ps = [] := eq_nil_of_length_eq_zero henc.length.symm
    subst hp
    refine ⟨{ s with lbolt := s.lbolt + 1 }, ?_, rfl, rfl, [], stop, junk, heq, hnone, trivial⟩
    simp [clock, heq, hnone]
  | cons c cs =>
    have hc := henc.func_ne c (by simp)
    obtain ⟨cs', stop', h1, h2, h3⟩ := clockScan_eq junk henc (hnone stop (by simp))
    refine ⟨{ s with callout := cs' ++ stop' :: junk, lbolt := s.lbolt + 1 }, ?_, rfl, ?_,
      cs', stop', junk, rfl, ?_, h3⟩
    · simp only [cons_append] at heq h1
      simp only [clock, heq, ne_eq, hc, not_false_iff, if_true, h1]
      rfl
    · have hl := henc.length
      rw [← h3.length] at hl
      simp only [heq, length_append, length_cons] at hl ⊢
      omega
    · intro d hd
      rcases mem_cons.mp hd with rfl | hd
      · exact h2
      · exact hnone d (by simp [hd])

/-- The first entry is due exactly when the first call's deadline has passed. -/
theorem due_iff {s : Clk} {ps : List Pending} (h : Holds s ps) :
    due s = true ↔ ∃ p, ps.head? = some p ∧ p.deadline ≤ s.lbolt := by
  obtain ⟨cs, stop, junk, heq, hnone, henc⟩ := h
  cases cs with
  | nil =>
    have hp : ps = [] := eq_nil_of_length_eq_zero henc.length.symm
    subst hp
    simp [due, heq, hnone]
  | cons c cs =>
    cases ps with
    | nil => exact absurd henc id
    | cons p ps =>
      obtain ⟨hc, hc0, hcb, -⟩ := henc
      simp only [due, heq, cons_append, hc.1, Option.isSome_some, Bool.true_and,
        decide_eq_true_eq, List.head?_cons, Option.some.injEq, exists_eq_left']
      simp only [Pending.remaining] at hcb
      omega

/-- `timein` takes the first call off the table and leaves the other deadlines. -/
theorem timeinBody_spec {s : Clk} {p : Pending} {ps : List Pending} (h : Holds s (p :: ps))
    (hdue : p.deadline ≤ s.lbolt) :
    ∃ c s', timeinBody s = .ok (c, s') ∧
      (c.c_func = some p.func ∧ c.c_id = p.id ∧ c.c_arg = p.arg) ∧ s'.lbolt = s.lbolt ∧
      s'.callout.length = s.callout.length ∧ Holds s' ps := by
  obtain ⟨cs, stop, junk, heq, hnone, henc⟩ := h
  cases cs with
  | nil => exact absurd henc id
  | cons c cs =>
    obtain ⟨hc, hc0, hcb, hrest⟩ := henc
    have hp0 : p.remaining s.lbolt = 0 := by
      simp only [Pending.remaining]
      omega
    have hstop := hnone stop (by simp)
    refine ⟨c, { s with callout := cs ++ stop :: stop :: junk }, ?_, hc, rfl,
      by simp only [heq, length_append, length_cons]; omega,
      cs, stop, stop :: junk, rfl, ?_, hp0 ▸ hrest⟩
    · simp only [timeinBody, heq, cons_append]
      rw [closeUp_eq hrest.func_ne hstop]
      rfl
    · simpa [hstop] using hnone

end Svr3.Callout
