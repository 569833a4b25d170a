import Mathlib.Data.List.Induction
import Svr3.Nudnix.Rcopyout

/-!
# What `rcopyout` delivers

The client stores what is sent and what the final response brings. A call without `U_RCOPY` leaves its last
message behind, and one with the flag takes its place or, when it has more bytes than one message, sends its
first message twice and not its last one.
-/

namespace Svr3.Rfs

open List

/-! ## Stores -/

section stores

variable {dst : ℕ} {xs ys : List UInt8}

@[simp] theorem stores_nil : stores dst [] = [] := rfl

theorem stores_append (dst : ℕ) (xs ys : List UInt8) :
    stores dst (xs ++ ys) = stores dst xs ++ stores (dst + xs.length) ys := by
  induction xs generalizing dst with
  | nil => rfl
  | cons x xs ih =>
    rw [cons_append, stores, stores, ih, cons_append, length_cons, Nat.add_assoc,
      Nat.add_comm 1]

theorem map_stores (dst : ℕ) (xs : List UInt8) : (stores dst xs).map Prod.snd = xs := by
  induction xs generalizing dst with
  | nil => rfl
  | cons x xs ih => rw [stores, map_cons, ih]

theorem stores_inj (h : stores dst xs = stores dst ys) : xs = ys := by
  rw [← map_stores dst xs, h, map_stores]

/-- The first message and the others -/
theorem stores_chunk (dst : ℕ) (xs : List UInt8) :
    stores dst xs = stores dst (xs.take DATASIZE) ++ stores (dst + DATASIZE) (xs.drop DATASIZE) := by
  by_cases hle : xs.length ≤ DATASIZE
  · rw [take_of_length_le hle, drop_of_length_le hle, stores_nil, append_nil]
  · have hlen : (xs.take DATASIZE).length = DATASIZE := by
      rw [length_take]
      omega
    conv_lhs => rw [← take_append_drop DATASIZE xs, stores_append, hlen]

end stores

/-! ## Messages and acknowledgments -/

/-- `k` messages have been sent since the last acknowledgment. Each fifth message asks for one, which comes
before the next message. -/
inductive Acknowledged : List Ev → ℕ → Prop
  | nil : Acknowledged [] 0
  | send {evs : List Ev} {k : ℕ} {m : Copymsg} : Acknowledged evs k → k + 1 < FILE_QSIZE →
      m.rp_copysync = false → Acknowledged (evs ++ [.send m]) (k + 1)
  | sync {evs : List Ev} {k : ℕ} {m : Copymsg} : Acknowledged evs k → k + 1 = FILE_QSIZE →
      m.rp_copysync = true → Acknowledged (evs ++ [.send m, .ack]) 0

/-- The stores of what is sent -/
def sentStores (evs : List Ev) : List (ℕ × UInt8) :=
  evs.flatMap fun e => match e with
    | .send m => stores m.rp_bufptr m.rp_data
    | .ack => []

@[simp] theorem sentStores_append (xs ys : List Ev) : sentStores (xs ++ ys) = sentStores xs ++ sentStores ys :=
  flatMap_append

@[simp] theorem sentStores_send (m : Copymsg) (evs : List Ev) :
    sentStores (.send m :: evs) = stores m.rp_bufptr m.rp_data ++ sentStores evs := rfl

@[simp] theorem sentStores_ack (evs : List Ev) : sentStores (.ack :: evs) = sentStores evs := rfl

@[simp] theorem sentStores_nil : sentStores [] = [] := rfl

/-- The client is up to date, and the server counts its messages since the last acknowledgment. -/
structure Serve.Sync (s : Serve) : Prop where
  counted : s.sd_copycnt < FILE_QSIZE
  acked : Acknowledged s.out s.sd_copycnt
  client : s.out.foldlM Client.step ⟨[], 0⟩ = some ⟨sentStores s.out, 0⟩

/-- The stores of the message that waits -/
def Serve.ready (s : Serve) : List (ℕ × UInt8) :=
  s.u_copymsg.elim [] fun m => stores m.rp_bufptr m.rp_data

section sync

variable {s : Serve} {m : Option Copymsg} {rcopy : Bool} {dst : ℕ} {data : List UInt8} {c : Copyout}
  {cs : List Copyout}

theorem Serve.Sync.start : Serve.start.Sync := ⟨by decide, .nil, rfl⟩

/-- Nothing is said about the message that waits. -/
theorem Serve.Sync.point (h : s.Sync) : Serve.Sync { s with u_copymsg := m } := ⟨h.counted, h.acked, h.client⟩

theorem Serve.Sync.sendReady (h : s.Sync) : (sendReady s).Sync := by
  have hcount := h.counted
  unfold Rfs.sendReady
  split
  next => exact h
  next m hm =>
    split
    next hfull =>
      refine ⟨Nat.zero_lt_succ 4, h.acked.sync (Nat.le_antisymm hcount hfull) rfl, ?_⟩
      rw [foldlM_append, h.client]
      simp [Client.step]
    next hroom =>
      refine ⟨Nat.lt_of_not_le hroom, h.acked.send (Nat.lt_of_not_le hroom) rfl, ?_⟩
      rw [foldlM_append, h.client]
      simp [Client.step]

theorem Serve.Sync.copyLoop (h : s.Sync) : (copyLoop rcopy dst data s).Sync := by
  induction dst, data, s using copyLoop.induct rcopy with
  | case1 dst s =>
    rw [Rfs.copyLoop, if_pos rfl]
    exact h
  | case2 dst data s hdata hlast =>
    rw [Rfs.copyLoop, if_neg hdata, if_pos hlast]
    exact h.sendReady.point
  | case3 dst data s hdata hmore ih =>
    rw [Rfs.copyLoop, if_neg hdata, if_neg hmore]
    exact ih h.sendReady.point

theorem Serve.Sync.rcopyout (h : s.Sync) : (rcopyout s c).Sync := by
  unfold Rfs.rcopyout
  split
  · exact h.point.copyLoop
  · exact h.copyLoop

/-- Every fifth message of a system call is acknowledged before the next one. -/
theorem Serve.Sync.calls (h : s.Sync) : (cs.foldl Rfs.rcopyout s).Sync := by
  induction cs generalizing s with
  | nil => exact h
  | cons c cs ih => exact ih h.rcopyout

theorem clientStores_eq (y : Syscall) (fresh : ℕ × List UInt8) (cs : List Copyout) :
    clientStores y fresh cs = some (sentStores (cs.foldl rcopyout .start).out ++
      finalStores y fresh (cs.foldl rcopyout .start)) := by
  rw [clientStores, Serve.Sync.start.calls.client]
  rfl

end sync

/-! ## What is sent and what waits -/

section sent

variable {s : Serve} {rcopy : Bool} {dst : ℕ} {data : List UInt8} {c : Copyout} {cs : List Copyout}

theorem sentStores_sendReady : sentStores (sendReady s).out = sentStores s.out ++ s.ready := by
  unfold sendReady Serve.ready
  split
  next hm => rw [hm, Option.elim_none, append_nil]
  next m hm =>
    rw [hm, Option.elim_some]
    split
    · simp
    · simp

/-- Without `U_RCOPY` all bytes are sent or wait. -/
theorem copyLoop_later : sentStores (copyLoop false dst data s).out ++ (copyLoop false dst data s).ready =
    sentStores s.out ++ s.ready ++ stores dst data := by
  induction dst, data, s using copyLoop.induct false with
  | case1 dst s => rw [copyLoop, if_pos rfl, stores_nil, append_nil]
  | case2 dst data s hdata hlast => exact absurd hlast.1 nofun
  | case3 dst data s hdata hmore ih =>
    rw [copyLoop, if_neg hdata, if_neg hmore, ih, stores_chunk dst data, ← append_assoc]
    congr 1
    change sentStores (sendReady s).out ++ _ = _
    rw [sentStores_sendReady]
    rfl

/-- With `U_RCOPY` the bytes of one message are sent. -/
theorem rcopyout_now (hrcopy : c.rcopy = true) (hlen : c.data.length ≤ DATASIZE) :
    sentStores (rcopyout s c).out ++ (rcopyout s c).ready = sentStores s.out ++ stores c.dst c.data ∧
      (rcopyout s c).ready = [] := by
  rw [rcopyout, hrcopy, if_pos rfl, copyLoop]
  split
  next hdata =>
    rw [hdata]
    exact ⟨rfl, rfl⟩
  next hdata =>
    rw [if_pos ⟨rfl, hlen⟩]
    refine ⟨?_, rfl⟩
    change sentStores (sendReady (s.fill c.dst c.data)).out ++ [] = _
    rw [sentStores_sendReady, append_nil]
    change _ ++ stores c.dst (c.data.take DATASIZE) = _
    rw [take_of_length_le hlen]
    rfl

end sent

/-! ## The calls of a system call -/

/-- A call without its bytes -/
structure Shape where
  rcopy : Bool
  n : ℕ
  dst : ℕ

def Copyout.shape (c : Copyout) : Shape := ⟨c.rcopy, c.data.length, c.dst⟩

/-- The call has so many bytes in its last message. -/
def Shape.tail (c : Shape) : ℕ := (c.n - 1) % DATASIZE + 1

/-- How long the message is that waits after a call, where one of the length `w` waited before, or none -/
def Shape.waits (w : Option ℕ) (c : Shape) : Option ℕ :=
  if c.n = 0 then (if c.rcopy then some 0 else w)
  else if c.rcopy then none
  else some c.tail

/-- A call with `U_RCOPY` has the bytes of one message at most, and no bytes wait then. -/
def Shape.Fits (w : Option ℕ) (c : Shape) : Prop := c.rcopy = true → c.n ≤ DATASIZE ∧ w.getD 0 = 0

/-- Every call finds what it needs. -/
def AllFit : Option ℕ → List Shape → Prop
  | _, [] => True
  | w, c :: cs => c.Fits w ∧ AllFit (c.waits w) cs

/-- The final response is stored as it is: the bytes that wait are, and no others. -/
def Syscall.Brings (y : Syscall) (fresh : List UInt8) : Option ℕ → Prop
  | none => y.subyte fresh = []
  | some l => ∀ data : List UInt8, data.length = l → y.reply data = data

/-- The client stores the bytes of all calls, in order, and each fifth message is acknowledged before the next
one is sent. -/
structure Delivered (y : Syscall) (fresh : ℕ × List UInt8) (cs : List Copyout) : Prop where
  stored : clientStores y fresh cs = some (cs.flatMap fun c => stores c.dst c.data)
  acked : ∃ k, Acknowledged (cs.foldl rcopyout .start).out k

/-- The message that waits has the length `w`. -/
def Serve.Waits (s : Serve) (w : Option ℕ) : Prop := s.u_copymsg.map (fun m => m.rp_data.length) = w

section calls

variable {s : Serve} {w : Option ℕ} {c : Copyout} {cs : List Copyout} {y : Syscall}
  {fresh : ℕ × List UInt8} {shapes : List Shape} {dst : ℕ} {data : List UInt8}

theorem Serve.Waits.start : Serve.start.Waits none := rfl

theorem Serve.Waits.ready_nil (h : s.Waits w) (hw : w.getD 0 = 0) : s.ready = [] := by
  unfold Serve.Waits at h
  unfold Serve.ready
  cases hm : s.u_copymsg with
  | none => rfl
  | some m =>
    rw [hm] at h
    rw [← h] at hw
    rw [Option.elim_some, eq_nil_of_length_eq_zero hw]
    rfl

theorem copyLoop_waits (hdata : data ≠ []) :
    (copyLoop false dst data s).Waits (some (Shape.tail ⟨false, data.length, dst⟩)) := by
  induction dst, data, s using copyLoop.induct false with
  | case1 dst s => exact absurd rfl hdata
  | case2 dst data s _ hlast => exact absurd hlast.1 nofun
  | case3 dst data s _ hmore ih =>
    have hpos : 0 < data.length := length_pos_iff.mpr hdata
    rw [copyLoop, if_neg hdata, if_neg hmore]
    by_cases hrest : data.drop DATASIZE = []
    · have hle : data.length ≤ DATASIZE := drop_eq_nil_iff.mp hrest
      rw [hrest, copyLoop, if_pos rfl]
      change some (data.take DATASIZE).length = some ((data.length - 1) % DATASIZE + 1)
      rw [take_of_length_le hle, Nat.mod_eq_of_lt (by omega), Nat.sub_add_cancel hpos]
    · have hlt : DATASIZE < data.length := by
        rw [drop_eq_nil_iff] at hrest
        omega
      have htail : Shape.tail ⟨false, (data.drop DATASIZE).length, dst + DATASIZE⟩ =
          Shape.tail ⟨false, data.length, dst⟩ := by
        change ((data.drop DATASIZE).length - 1) % DATASIZE + 1 = (data.length - 1) % DATASIZE + 1
        have hsub : data.length - 1 = (data.drop DATASIZE).length - 1 + DATASIZE := by
          rw [length_drop]
          omega
        rw [hsub, Nat.add_mod_right]
      rw [← htail]
      exact ih hrest

theorem rcopyout_waits (h : s.Waits w) (hfits : c.shape.Fits w) : (rcopyout s c).Waits (c.shape.waits w) := by
  unfold Shape.waits rcopyout
  change Serve.Waits _ (if c.data.length = 0 then (if c.rcopy = true then some 0 else w)
    else if c.rcopy = true then none else some c.shape.tail)
  cases hrcopy : c.rcopy with
  | false =>
    by_cases hdata : c.data = []
    · rw [hdata, copyLoop, if_pos rfl]
      exact h
    · rw [if_neg (mt eq_nil_of_length_eq_zero hdata)]
      exact copyLoop_waits hdata
  | true =>
    rw [if_pos rfl, if_pos rfl, if_pos rfl, copyLoop]
    by_cases hdata : c.data = []
    · rw [if_pos hdata, hdata]
      rfl
    · rw [if_neg hdata, if_pos ⟨rfl, (hfits hrcopy).1⟩, if_neg (mt eq_nil_of_length_eq_zero hdata)]
      rfl

/-- A call that fits adds its bytes to what is sent or waits. -/
theorem rcopyout_adds (h : s.Waits w) (hfits : c.shape.Fits w) :
    sentStores (rcopyout s c).out ++ (rcopyout s c).ready =
      sentStores s.out ++ s.ready ++ stores c.dst c.data := by
  cases hrcopy : c.rcopy with
  | false =>
    rw [rcopyout, hrcopy]
    exact copyLoop_later
  | true =>
    obtain ⟨hlen, hempty⟩ := hfits hrcopy
    rw [h.ready_nil hempty, append_nil]
    exact (rcopyout_now hrcopy hlen).1

/-- Calls that fit -/
theorem calls_add (h : s.Waits w) (hfit : AllFit w (cs.map Copyout.shape)) :
    sentStores (cs.foldl rcopyout s).out ++ (cs.foldl rcopyout s).ready =
        sentStores s.out ++ s.ready ++ cs.flatMap (fun c => stores c.dst c.data) ∧
      (cs.foldl rcopyout s).Waits ((cs.map Copyout.shape).foldl Shape.waits w) := by
  induction cs generalizing s w with
  | nil => exact ⟨(append_nil _).symm, h⟩
  | cons c cs ih =>
    obtain ⟨hfits, hrest⟩ := hfit
    obtain ⟨hadd, hwaits⟩ := ih (rcopyout_waits h hfits) hrest
    refine ⟨?_, hwaits⟩
    rw [foldl_cons, hadd, rcopyout_adds h hfits, flatMap_cons, append_assoc _ (stores _ _)]

end calls

end Svr3.Rfs
