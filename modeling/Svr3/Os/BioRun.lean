import Svr3.Lib.Run
import Svr3.Os.Bio

/-!
# The buffer cache over runs

Over any interleaving of the processes and the driver at the sleep points: no block of a device is
in two buffers that are not stale, every buffer is on its one chain, the available buffers are those
that are not busy, and a buffer with a delayed write stays with its block until a write is started.
-/

namespace Svr3.Bio

open List

variable {n : ℕ}

/-- The chain for a block; buffers without a device are on that of `bfreelist`. -/
def chainOf (dev : Int16) (blkno : Int32) : Option Int32 :=
  if dev = nodev then none else some (bhash dev blkno)

def Sys.home (y : Sys n) (bp : Fin n) : Option Int32 :=
  chainOf (y.buf bp).b_dev (y.buf bp).b_blkno

/-- The block that is in a buffer. -/
def Sys.key (y : Sys n) (bp : Fin n) : Option (Int16 × Int32) :=
  if (y.buf bp).b_stale || (y.buf bp).b_dev = nodev then none
  else some ((y.buf bp).b_dev, (y.buf bp).b_blkno)

/-- The order of the cache. -/
structure Cached (y : Sys n) : Prop where
  avail : ∀ bp, bp ∈ y.av ↔ (y.buf bp).b_busy = false
  nodup : y.av.Nodup
  count : y.b_bcount = y.av.length
  placed : Chains.Placed y.home y.hbuf
  on : ∀ bp, y.hbuf.On bp
  apart : Chains.Apart y.key y.hbuf

/-- The buffers keep their blocks, or become stale. -/
structure Stays (y z : Sys n) : Prop where
  hbuf : z.hbuf = y.hbuf
  b_dev : ∀ bp, (z.buf bp).b_dev = (y.buf bp).b_dev
  b_blkno : ∀ bp, (z.buf bp).b_blkno = (y.buf bp).b_blkno
  b_stale : ∀ bp, (y.buf bp).b_stale = true → (z.buf bp).b_stale = true

section Cache

variable {y z : Sys n} {bp bq : Fin n} {b : Buf}

theorem set_self (y : Sys n) (bp : Fin n) (b : Buf) : (y.set bp b).buf bp = b :=
  Function.update_self _ _ _

theorem set_other (y : Sys n) (h : bq ≠ bp) (b : Buf) : (y.set bp b).buf bq = y.buf bq :=
  Function.update_of_ne h _ _

/-- Only the buffer `bp` changes, and not its block. -/
theorem Stays.only (hhbuf : z.hbuf = y.hbuf) (hoth : ∀ bq ≠ bp, z.buf bq = y.buf bq)
    (h1 : (z.buf bp).b_dev = (y.buf bp).b_dev) (h2 : (z.buf bp).b_blkno = (y.buf bp).b_blkno)
    (h3 : (y.buf bp).b_stale = true → (z.buf bp).b_stale = true) : Stays y z := by
  refine ⟨hhbuf, fun bq => ?_, fun bq => ?_, fun bq => ?_⟩
  · by_cases hq : bq = bp
    · rw [hq, h1]
    · rw [hoth bq hq]
  · by_cases hq : bq = bp
    · rw [hq, h2]
    · rw [hoth bq hq]
  · by_cases hq : bq = bp
    · rw [hq]
      exact h3
    · rw [hoth bq hq]
      exact id

theorem Cached.stays (h : Cached y) (hs : Stays y z)
    (havail : ∀ bp, bp ∈ z.av ↔ (z.buf bp).b_busy = false) (hnd : z.av.Nodup)
    (hcount : z.b_bcount = z.av.length) : Cached z := by
  have hhome : z.home = y.home := by
    funext bp
    rw [Sys.home, hs.b_dev, hs.b_blkno]
    rfl
  refine ⟨havail, hnd, hcount, ?_, fun bp => ?_, ?_⟩
  · rw [hhome, hs.hbuf]
    exact h.placed
  · rw [hs.hbuf]
    exact h.on bp
  · rw [hs.hbuf]
    refine h.apart.congr (fun _ hon => hon) fun bp _ => ?_
    unfold Sys.key
    rw [hs.b_dev, hs.b_blkno]
    by_cases hst : (z.buf bp).b_stale = true
    · rw [hst]
      exact .inr rfl
    · have hst' : (y.buf bp).b_stale = false := by
        rw [← Bool.not_eq_true]
        exact fun hc => hst (hs.b_stale bp hc)
      rw [Bool.not_eq_true] at hst
      rw [hst, hst']
      exact .inl rfl

/-- A buffer changes, not its block and not whether it is available. -/
theorem Cached.set (h : Cached y) (h1 : b.b_dev = (y.buf bp).b_dev)
    (h2 : b.b_blkno = (y.buf bp).b_blkno) (h3 : b.b_stale = (y.buf bp).b_stale)
    (h4 : b.b_busy = (y.buf bp).b_busy) : Cached (y.set bp b) := by
  have hs : Stays y (y.set bp b) := by
    refine Stays.only rfl (fun bq hq => set_other y hq b) ?_ ?_ ?_
    · rw [set_self, h1]
    · rw [set_self, h2]
    · rw [set_self, h3]
      exact id
  refine h.stays hs (fun bq => ?_) h.nodup h.count
  by_cases hq : bq = bp
  · rw [hq, set_self, h4]
    exact h.avail bp
  · rw [set_other y hq]
    exact h.avail bq

theorem notavail_self (y : Sys n) (bp : Fin n) :
    (notavail bp y).buf bp = { y.buf bp with b_busy := true } := set_self y bp _

theorem notavail_other (y : Sys n) (h : bq ≠ bp) : (notavail bp y).buf bq = y.buf bq :=
  set_other y h _

theorem notavail_cached (h : Cached y) (hin : bp ∈ y.av) : Cached (notavail bp y) := by
  have hs : Stays y (notavail bp y) := by
    refine Stays.only rfl (fun bq hq => notavail_other y hq) ?_ ?_ ?_
    · rw [notavail_self]
    · rw [notavail_self]
    · rw [notavail_self]
      exact id
  refine h.stays hs (fun bq => ?_) (h.nodup.erase bp) ?_
  · show bq ∈ y.av.erase bp ↔ _
    rw [h.nodup.mem_erase_iff]
    by_cases hq : bq = bp
    · rw [hq, notavail_self]
      exact iff_of_false (fun hc => hc.1 rfl) nofun
    · rw [notavail_other y hq]
      exact (and_iff_right hq).trans (h.avail bq)
  · show y.b_bcount - 1 = (y.av.erase bp).length
    rw [h.count, ← length_erase_add_one hin, Int.natCast_add_one, Int.add_sub_cancel]

theorem brelse_other (y : Sys n) (h : bq ≠ bp) : (brelse bp y).buf bq = y.buf bq := by
  unfold brelse
  dsimp only
  rw [set_other _ h]
  split
  · rfl
  · rfl

/-- What `brelse` makes of a buffer. -/
def Buf.released (b : Buf) : Buf :=
  let b :=
    if b.b_error then { b with b_stale := true, b_age := true, b_error := false, b_delwri := false }
    else b
  { b with b_wanted := false, b_busy := false, b_async := false, b_age := false }

theorem brelse_self (y : Sys n) (bp : Fin n) : (brelse bp y).buf bp = (y.buf bp).released :=
  set_self _ bp _

theorem brelse_hbuf (y : Sys n) (bp : Fin n) : (brelse bp y).hbuf = y.hbuf := by
  show (if (y.buf bp).b_wanted then y else { y with b_wanted := false }).hbuf = y.hbuf
  split
  · rfl
  · rfl

/-- The buffer is on the available list, at one end of it. -/
theorem brelse_av (y : Sys n) (bp : Fin n) :
    (brelse bp y).av = bp :: y.av ∨ (brelse bp y).av = y.av ++ [bp] := by
  have hav : (if (y.buf bp).b_wanted then y else { y with b_wanted := false }).av = y.av := by
    split
    · rfl
    · rfl
  unfold brelse
  dsimp only
  rw [hav]
  split
  · split
    · exact .inl rfl
    · exact .inr rfl
  · split
    · exact .inl rfl
    · exact .inr rfl

theorem brelse_b_bcount (y : Sys n) (bp : Fin n) : (brelse bp y).b_bcount = y.b_bcount + 1 := by
  show (if (y.buf bp).b_wanted then y else { y with b_wanted := false }).b_bcount + 1 = _
  split
  · rfl
  · rfl

theorem brelse_cached (h : Cached y) (hb : (y.buf bp).b_busy = true) : Cached (brelse bp y) := by
  have hout : bp ∉ y.av := by
    intro hin
    rw [(h.avail bp).mp hin] at hb
    exact Bool.false_ne_true hb
  have hs : Stays y (brelse bp y) := by
    refine Stays.only (brelse_hbuf y bp) (fun bq hq => brelse_other y hq) ?_ ?_ ?_
    · rw [brelse_self, Buf.released]
      dsimp only
      split
      · rfl
      · rfl
    · rw [brelse_self, Buf.released]
      dsimp only
      split
      · rfl
      · rfl
    · rw [brelse_self, Buf.released]
      dsimp only
      split
      · exact fun _ => rfl
      · exact id
  have hmem (bq : Fin n) : bq ∈ (brelse bp y).av ↔ bq = bp ∨ bq ∈ y.av := by
    rcases brelse_av y bp with hav | hav
    · rw [hav, mem_cons]
    · rw [hav, mem_append, mem_singleton, or_comm]
  refine h.stays hs (fun bq => ?_) ?_ ?_
  · rw [hmem]
    by_cases hq : bq = bp
    · rw [hq, brelse_self]
      exact iff_of_true (.inl rfl) rfl
    · rw [brelse_other y hq]
      exact (or_iff_right hq).trans (h.avail bq)
  · rcases brelse_av y bp with hav | hav
    · rw [hav]
      exact nodup_cons.mpr ⟨hout, h.nodup⟩
    · rw [hav]
      exact h.nodup.append (nodup_singleton bp) (disjoint_singleton.mpr hout)
  · rw [brelse_b_bcount, h.count]
    rcases brelse_av y bp with hav | hav
    · rw [hav, length_cons, Int.natCast_add_one]
    · rw [hav, length_append, length_singleton, Int.natCast_add_one]

theorem is_iff {dev : Int16} {blkno : Int32} : y.is dev blkno bp = true ↔
    (y.buf bp).b_dev = dev ∧ (y.buf bp).b_blkno = blkno ∧ (y.buf bp).b_stale = false := by
  unfold Sys.is
  rw [Bool.and_eq_true, Bool.and_eq_true, decide_eq_true_eq, decide_eq_true_eq,
    Bool.not_eq_eq_eq_not, Bool.not_true, and_comm (a := (y.buf bp).b_blkno = blkno), and_assoc]

/-- A busy buffer is assigned to a block that is in no buffer, or to none. -/
theorem assign_cached {dev : Int16} {blkno : Int32} {age : Bool} (h : Cached y)
    (hb : (y.buf bp).b_busy = true)
    (hnew : ∀ bq, (y.buf bq).b_dev = dev → (y.buf bq).b_blkno = blkno →
      (y.buf bq).b_stale = false → dev = nodev) :
    Cached (assign bp (chainOf dev blkno) age dev blkno y) := by
  have hself : (assign bp (chainOf dev blkno) age dev blkno y).buf bp =
      ⟨false, false, false, true, false, age, false, false, false, dev, blkno⟩ :=
    set_self y bp _
  have hother {bq : Fin n} (hq : bq ≠ bp) :
      (assign bp (chainOf dev blkno) age dev blkno y).buf bq = y.buf bq := set_other y hq _
  have hon {bq : Fin n} (hq : (y.hbuf.remove bp).On bq) : bq ≠ bp ∧ y.hbuf.On bq :=
    h.placed.on_remove.mp hq
  refine ⟨fun bq => ?_, h.nodup, h.count, ?_, fun bq => ?_, ?_⟩
  · show bq ∈ y.av ↔ _
    rw [h.avail]
    by_cases hq : bq = bp
    · rw [hq, hself, hb]
    · rw [hother hq]
  · have hplaced : Chains.Placed (assign bp (chainOf dev blkno) age dev blkno y).home
        (y.hbuf.remove bp) := by
      apply (h.placed.remove bp).congr
      intro bq hq
      rw [Sys.home, hother (hon hq).1]
      rfl
    have hins := hplaced.insert (x := bp) fun hc => (hon hc).1 rfl
    rwa [Sys.home, hself] at hins
  · apply Chains.on_insert.mpr
    by_cases hq : bq = bp
    · exact .inl hq
    · exact .inr (h.placed.on_remove.mpr ⟨hq, h.on bq⟩)
  · have hkeep : Chains.Apart (assign bp (chainOf dev blkno) age dev blkno y).key
        (y.hbuf.remove bp) := by
      refine h.apart.congr (fun bq hq => (hon hq).2) fun bq hq => .inl ?_
      rw [Sys.key, hother (hon hq).1]
      rfl
    intro bq br hq hr heq hne
    by_cases hdev : dev = nodev
    · -- the buffer has no block
      have hnone : (assign bp (chainOf dev blkno) age dev blkno y).key bp = none := by
        unfold Sys.key
        rw [hself, hdev]
        rfl
      have hqp : bq ≠ bp := fun hc => hne (hc ▸ hnone)
      have hrp : br ≠ bp := fun hc => hne (heq.trans (hc ▸ hnone))
      exact hkeep bq br ((Chains.on_insert.mp hq).resolve_left hqp)
        ((Chains.on_insert.mp hr).resolve_left hrp) heq hne
    · refine hkeep.add (x := bp) (fun bq hq => Chains.on_insert.mp hq) ?_ bq br hq hr heq hne
      intro bq hq hqp heq
      -- the search would have found it
      unfold Sys.key at heq
      rw [hother hqp, hself] at heq
      have hkey : (if false || decide (dev = nodev) then none else some (dev, blkno)) =
          some (dev, blkno) := by
        rw [decide_eq_false hdev]
        rfl
      rw [hkey] at heq
      split at heq
      · exact absurd heq nofun
      next hst =>
        rw [Bool.or_eq_true, not_or, Bool.not_eq_true] at hst
        rw [Option.some.injEq, Prod.mk.injEq] at heq
        exact hdev (hnew bq heq.1 heq.2 hst.1)

/-- What a turn through the loop of `getblk` or `geteblk` does. -/
inductive Turns (y : Sys n) : Turn n → Sys n → Prop
  | bfreelist : Turns y (.sleep .bfreelist) { y with b_wanted := true }
  | busy (bp : Fin n) :
      Turns y (.sleep (.buf bp)) (y.set bp { y.buf bp with b_wanted := true })
  | wrote {bp : Fin n} (hin : bp ∈ y.av) :
      Turns y (.wrote bp)
        ((notavail bp y).set bp { ((notavail bp y).buf bp).write with b_async := true })
  | found {bp : Fin n} (hb : (y.buf bp).b_busy = false) : Turns y (.got bp) (notavail bp y)
  | fresh {bp : Fin n} {age : Bool} {dev : Int16} {blkno : Int32} (hin : bp ∈ y.av)
      (hd : (y.buf bp).b_delwri = false)
      (hnew : ∀ bq, (y.buf bq).b_dev = dev → (y.buf bq).b_blkno = blkno →
        (y.buf bq).b_stale = false → dev = nodev) :
      Turns y (.got bp) (assign bp (chainOf dev blkno) age dev blkno (notavail bp y))

theorem take_turns {fresh : Fin n → Sys n → Sys n} {r : Turn n}
    (hfresh : ∀ bp ∈ y.av, (y.buf bp).b_delwri = false → Turns y (.got bp) (fresh bp (notavail bp y)))
    (hr : take y fresh = (r, z)) : Turns y r z := by
  unfold take at hr
  split at hr
  · cases hr
    exact .bfreelist
  next bp av hav =>
    have hin : bp ∈ y.av := hav ▸ mem_cons_self
    dsimp only at hr
    split at hr
    · cases hr
      exact .wrote hin
    next hd =>
      rw [Bool.not_eq_true, notavail_self] at hd
      cases hr
      exact hfresh bp hin hd

theorem getblk_turns {dev : Int16} {blkno : Int32} {r : Turn n} (h : Cached y)
    (hdev : dev ≠ nodev) (hr : getblk dev blkno y = (r, z)) : Turns y r z := by
  have hchain : chainOf dev blkno = some (bhash dev blkno) := if_neg hdev
  unfold getblk at hr
  split at hr
  next bp hfind =>
    split at hr
    · cases hr
      exact .busy bp
    next hb =>
      rw [Bool.not_eq_true] at hb
      cases hr
      exact .found hb
  next hnone =>
    refine take_turns (fun bp hin hd => ?_) hr
    rw [← hchain]
    apply Turns.fresh hin hd
    intro bq h1 h2 h3
    obtain ⟨c, hc⟩ := h.on bq
    have hhome := h.placed.home c bq hc
    rw [Sys.home, h1, h2, hchain] at hhome
    rw [hhome] at hc
    exact absurd (is_iff.mpr ⟨h1, h2, h3⟩) (List.find?_eq_none.mp hnone bq hc)

theorem geteblk_turns {r : Turn n} (hr : geteblk y = (r, z)) : Turns y r z := by
  refine take_turns (fun bp hin hd => ?_) hr
  exact .fresh hin hd fun _ _ _ _ => rfl

theorem Turns.cached {r : Turn n} (hr : Turns y r z) (h : Cached y) : Cached z := by
  cases hr with
  | bfreelist =>
    exact h.stays ⟨rfl, fun _ => rfl, fun _ => rfl, fun _ => id⟩ h.avail h.nodup h.count
  | busy bp => exact h.set rfl rfl rfl rfl
  | wrote hin => exact (notavail_cached h hin).set rfl rfl rfl rfl
  | @found bp hb => exact notavail_cached h ((h.avail bp).mpr hb)
  | @fresh bp age dev blkno hin hd hnew =>
    apply assign_cached (notavail_cached h hin)
    · rw [notavail_self]
    · intro bq h1 h2 h3
      by_cases hq : bq = bp
      · subst hq
        rw [notavail_self] at h1 h2 h3
        exact hnew bq h1 h2 h3
      · rw [notavail_other y hq] at h1 h2 h3
        exact hnew bq h1 h2 h3

end Cache

/-! ## Interleavings -/

def Pc.call : Pc n → Option (Call n)
  | .out => none
  | .run c => some c
  | .asleep _ c => some c

theorem wake_call (ch : Option (Chan n)) (pc : Pc n) : (pc.wake ch).call = pc.call := by
  cases pc with
  | asleep ch' c =>
    unfold Pc.wake
    dsimp only
    split
    · rfl
    · rfl
  | _ => rfl

/-- The flags of a buffer, for who has it. -/
structure Fit (u : Use) (b : Buf) : Prop where
  free : u = .free ↔ b.b_busy = false
  async : u = .async ↔ b.b_async = true
  idle : u = .async → b.b_done = false
  dirty : b.b_delwri = true → b.b_done = true ∧ b.b_error = false

/-- What holds where process `p` is in a call. -/
def Fits (use : Fin n → Use) (p : ℕ) : Call n → Prop
  | .getblk dev _ _ => dev ≠ nodev
  | .geteblk => True
  | .iowait bp _ => use bp = .waited p

structure Ordered (s : State n) : Prop where
  cached : Cached s.sys
  bufs : ∀ bp, Fit (s.use bp) (s.sys.buf bp)
  calls : ∀ p c, (s.pc p).call = some c → Fits s.use p c

section Steps

variable {s t : State n} {bp bq : Fin n} {b : Buf} {p : ℕ} {sys : Sys n} {pc : ℕ → Pc n} {u : Use}

theorem Fits.update {c : Call n} (h : Fits s.use p c) (hc : ∀ w, c ≠ .iowait bp w) :
    Fits (Function.update s.use bp u) p c := by
  cases c with
  | getblk => exact h
  | geteblk => exact h
  | iowait bq w =>
    have hq : bq ≠ bp := fun heq => hc w (by rw [heq])
    show Function.update s.use bp u bq = .waited p
    rw [Function.update_of_ne hq]
    exact h

/-- No process waits for a buffer that is used otherwise. -/
theorem Ordered.unwaited (h : Ordered s) (bp : Fin n) (hu : ∀ q, s.use bp ≠ .waited q) (q : ℕ)
    (c : Call n) (hq : (s.pc q).call = some c) : Fits s.use q c ∧ ∀ w, c ≠ .iowait bp w := by
  have hfits := h.calls q c hq
  refine ⟨hfits, fun w hc => ?_⟩
  subst hc
  exact hu q hfits

/-- Only the buffer `bp` changes. -/
theorem Ordered.update (h : Ordered s) (hc : Cached sys)
    (hoth : ∀ bq ≠ bp, sys.buf bq = s.sys.buf bq) (hfit : Fit u (sys.buf bp))
    (hpc : ∀ q c, (pc q).call = some c → Fits (Function.update s.use bp u) q c) :
    Ordered ⟨sys, Function.update s.use bp u, pc⟩ := by
  refine ⟨hc, fun bq => ?_, hpc⟩
  show Fit (Function.update s.use bp u bq) (sys.buf bq)
  by_cases hq : bq = bp
  · rw [hq, Function.update_self]
    exact hfit
  · rw [Function.update_of_ne hq, hoth bq hq]
    exact h.bufs bq

/-- Process `p` goes to a call or out, the others stay. -/
theorem call_update {pc' : Pc n} {q : ℕ} {c : Call n}
    (hq : (Function.update s.pc p pc' q).call = some c) :
    q = p ∧ pc'.call = some c ∨ q ≠ p ∧ (s.pc q).call = some c := by
  by_cases hqp : q = p
  · rw [hqp, Function.update_self] at hq
    exact .inl ⟨hqp, hq⟩
  · rw [Function.update_of_ne hqp] at hq
    exact .inr ⟨hqp, hq⟩

theorem Buf.released_fit (b : Buf) (hd : b.b_delwri = true → b.b_done = true) :
    Fit .free b.released := by
  refine ⟨iff_of_true rfl rfl, iff_of_false nofun nofun, nofun, fun hdel => ?_⟩
  unfold Buf.released at hdel ⊢
  dsimp only at hdel ⊢
  split at hdel
  · exact absurd hdel nofun
  next herr =>
    rw [Bool.not_eq_true] at herr
    rw [if_neg (by rw [herr]; exact Bool.false_ne_true)]
    exact ⟨hd hdel, herr⟩

/-- A buffer is released that no process waits for. -/
theorem Ordered.release (h : Ordered s) (hc : Cached sys)
    (hoth : ∀ bq ≠ bp, sys.buf bq = s.sys.buf bq) (hb : (sys.buf bp).b_busy = true)
    (hd : (sys.buf bp).b_delwri = true → (sys.buf bp).b_done = true)
    (hpc : ∀ q c, (pc q).call = some c → Fits s.use q c ∧ ∀ w, c ≠ .iowait bp w) :
    Ordered (State.brelse ⟨sys, s.use, pc⟩ bp) := by
  refine h.update (brelse_cached hc hb) (fun bq hq => ?_) ?_ fun q c hq => ?_
  · rw [brelse_other _ hq]
    exact hoth bq hq
  · rw [brelse_self]
    exact Buf.released_fit _ hd
  · rw [wake_call] at hq
    have hfits := hpc q c hq
    exact hfits.1.update hfits.2

theorem Buf.write_fit {b : Buf} {u : Use} (hf : u ≠ .free) (hb : b.b_busy = true)
    (ha : u = .async ↔ b.b_async = true) : Fit u b.write := by
  refine ⟨iff_of_false hf ?_, ha, fun _ => rfl, fun hd => absurd hd nofun⟩
  show ¬ b.b_busy = false
  rw [hb]
  exact nofun

/-- A buffer is written that no process waits for. -/
theorem Ordered.bwrite (h : Ordered s) (hu : s.use bp = .held)
    (h1 : b.b_dev = (s.sys.buf bp).b_dev) (h2 : b.b_blkno = (s.sys.buf bp).b_blkno)
    (h3 : b.b_stale = (s.sys.buf bp).b_stale) (h4 : b.b_busy = (s.sys.buf bp).b_busy) :
    Ordered (State.bwrite { s with sys := s.sys.set bp b } p bp) := by
  have hbusy : b.b_busy = true := by
    rw [h4, ← Bool.not_eq_false]
    intro hb
    have hfree := (h.bufs bp).free.mpr hb
    rw [hu] at hfree
    exact absurd hfree nofun
  have hset : (s.sys.set bp b).set bp b.write = s.sys.set bp b.write := by
    unfold Sys.set
    rw [Function.update_idem]
  have hcached : Cached (s.sys.set bp b.write) := h.cached.set h1 h2 h3 h4
  have hun := h.unwaited bp fun q => by rw [hu]; exact nofun
  unfold State.bwrite
  dsimp only
  rw [set_self, hset]
  split
  next ha =>
    refine h.update hcached (fun bq hq => set_other _ hq _) ?_ fun q c hq => ?_
    · rw [set_self]
      exact Buf.write_fit nofun hbusy (iff_of_true rfl ha)
    · exact (hun q c hq).1.update (hun q c hq).2
  next ha =>
    refine h.update hcached (fun bq hq => set_other _ hq _) ?_ fun q c hq => ?_
    · rw [set_self]
      exact Buf.write_fit nofun hbusy (iff_of_false nofun ha)
    · rcases call_update hq with ⟨heq, hcall⟩ | ⟨_, hcall⟩
      · cases hcall
        rw [heq]
        exact Function.update_self _ _ _
      · exact (hun q c hcall).1.update (hun q c hcall).2

/-- Process `p` comes to the end of a turn. -/
theorem Ordered.turn (h : Ordered s) {c : Call n} {bread : Bool} {r : Turn n}
    (hr : Turns s.sys r sys) (hc : ∀ use, Fits use p c) : Ordered (s.turn p c bread (r, sys)) := by
  have hcached := hr.cached h.cached
  -- a buffer that was not busy is now with `p`, or written
  have htake {bp : Fin n} {z : Sys n} {u : Use} {pc' : Pc n} (hz : Cached z)
      (hb : (s.sys.buf bp).b_busy = false) (hoth : ∀ bq ≠ bp, z.buf bq = s.sys.buf bq)
      (hfit : Fit u (z.buf bp)) (hpc : ∀ c, pc'.call = some c → Fits (Function.update s.use bp u) p c) :
      Ordered ⟨z, Function.update s.use bp u, Function.update s.pc p pc'⟩ := by
    have hun := h.unwaited bp fun q => by
      rw [(h.bufs bp).free.mpr hb]
      exact nofun
    refine h.update hz hoth hfit fun q c hq => ?_
    rcases call_update hq with ⟨heq, hcall⟩ | ⟨_, hcall⟩
    · rw [heq]
      exact hpc c hcall
    · exact (hun q c hcall).1.update (hun q c hcall).2
  have hgot {bp : Fin n} (hz : Cached sys) (hb : (s.sys.buf bp).b_busy = false)
      (hoth : ∀ bq ≠ bp, sys.buf bq = s.sys.buf bq) (hbusy : (sys.buf bp).b_busy = true)
      (ha : (sys.buf bp).b_async = false)
      (hd : (sys.buf bp).b_delwri = true → (sys.buf bp).b_done = true ∧ (sys.buf bp).b_error = false) :
      Ordered (s.turn p c bread (.got bp, sys)) := by
    unfold State.turn
    dsimp only
    split
    next hread =>
      have hset : Cached (sys.set bp { sys.buf bp with b_read := true }) := hz.set rfl rfl rfl rfl
      refine htake hset hb (fun bq hq => ?_) ?_ fun c hc => ?_
      · rw [set_other _ hq]
        exact hoth bq hq
      · rw [set_self]
        refine ⟨iff_of_false nofun ?_, iff_of_false nofun ?_, nofun, hd⟩
        · show ¬ (sys.buf bp).b_busy = false
          rw [hbusy]
          exact nofun
        · show ¬ (sys.buf bp).b_async = true
          rw [ha]
          exact nofun
      · cases hc
        exact Function.update_self _ _ _
    next hread =>
      refine htake hz hb hoth ⟨iff_of_false nofun ?_, iff_of_false nofun ?_, nofun, hd⟩ nofun
      · rw [hbusy]
        exact nofun
      · rw [ha]
        exact nofun
  have hasync {bp : Fin n} (hb : (s.sys.buf bp).b_busy = false) :
      (s.sys.buf bp).b_async = false := by
    rw [← Bool.not_eq_true, ← (h.bufs bp).async, (h.bufs bp).free.mpr hb]
    exact nofun
  -- asleep, the process has no buffer
  have hsleep {z : Sys n} (ch : Chan n) (hz : Cached z)
      (hbufs : ∀ bp, Fit (s.use bp) (z.buf bp)) :
      Ordered ⟨z, s.use, Function.update s.pc p (.asleep ch c)⟩ := by
    refine ⟨hz, hbufs, fun q c' hq => ?_⟩
    rcases call_update hq with ⟨heq, hcall⟩ | ⟨_, hcall⟩
    · cases hcall
      rw [heq]
      exact hc _
    · exact h.calls q c' hcall
  cases hr with
  | bfreelist => exact hsleep .bfreelist hcached h.bufs
  | busy bp =>
    refine hsleep (.buf bp) hcached fun bq => ?_
    by_cases hq : bq = bp
    · subst hq
      rw [set_self]
      exact ⟨(h.bufs bq).free, (h.bufs bq).async, (h.bufs bq).idle, (h.bufs bq).dirty⟩
    · rw [set_other _ hq]
      exact h.bufs bq
  | @wrote bp hin =>
    have hb := (h.cached.avail bp).mp hin
    refine htake hcached hb (fun bq hq => ?_) ?_ fun c' hc' => ?_
    · rw [set_other _ hq, notavail_other _ hq]
    · rw [set_self, notavail_self]
      exact ⟨iff_of_false nofun nofun, iff_of_true rfl rfl, fun _ => rfl, nofun⟩
    · cases hc'
      exact hc _
  | @found bp hb =>
    refine hgot hcached hb (fun bq hq => notavail_other _ hq) ?_ ?_ ?_
    · rw [notavail_self]
    · rw [notavail_self]
      exact hasync hb
    · rw [notavail_self]
      exact (h.bufs bp).dirty
  | @fresh bp age dev blkno hin hd hnew =>
    have hb := (h.cached.avail bp).mp hin
    refine hgot hcached hb (fun bq hq => ?_) ?_ ?_ ?_
    · show ((notavail bp s.sys).set bp _).buf bq = _
      rw [set_other _ hq, notavail_other _ hq]
    · show (((notavail bp s.sys).set bp _).buf bp).b_busy = true
      rw [set_self]
    · show (((notavail bp s.sys).set bp _).buf bp).b_async = false
      rw [set_self]
    · show (((notavail bp s.sys).set bp _).buf bp).b_delwri = true → _
      rw [set_self]
      exact nofun

/-- What a step does. -/
inductive Does (s : State n) : State n → Prop
  | call {p : ℕ} {c : Call n} (hc : ∀ use, Fits use p c) :
      Does s { s with pc := Function.update s.pc p (.run c) }
  | turn {p : ℕ} {c : Call n} {bread : Bool} {r : Turn n} {sys : Sys n} (hr : Turns s.sys r sys)
      (hc : ∀ use, Fits use p c) : Does s (s.turn p c bread (r, sys))
  | waits {p : ℕ} {bp : Fin n} {w : Bool} (hu : s.use bp = .waited p) :
      Does s { s with pc := Function.update s.pc p (.asleep (.buf bp) (.iowait bp w)) }
  | reads {p : ℕ} {bp : Fin n} (hu : s.use bp = .waited p) :
      Does s { s with
        pc := Function.update s.pc p .out
        use := Function.update s.use bp .held }
  | bwrite {p : ℕ} {bp : Fin n} {b : Buf} (hu : s.use bp = .held)
      (h1 : b.b_dev = (s.sys.buf bp).b_dev) (h2 : b.b_blkno = (s.sys.buf bp).b_blkno)
      (h3 : b.b_stale = (s.sys.buf bp).b_stale) (h4 : b.b_busy = (s.sys.buf bp).b_busy) :
      Does s (State.bwrite { s with sys := s.sys.set bp b } p bp)
  | release {bp : Fin n} {b : Buf} {pc : ℕ → Pc n} (hu : s.use bp ≠ .free)
      (h1 : b.b_dev = (s.sys.buf bp).b_dev) (h2 : b.b_blkno = (s.sys.buf bp).b_blkno)
      (h3 : b.b_stale = (s.sys.buf bp).b_stale) (h4 : b.b_busy = (s.sys.buf bp).b_busy)
      (hd : b.b_delwri = true → b.b_done = true)
      (hk : (s.sys.buf bp).b_delwri = true → b.b_delwri = true ∧ b.b_error = false)
      (hpc : ∀ q c, (pc q).call = some c → Fits s.use q c ∧ ∀ w, c ≠ .iowait bp w) :
      Does s (State.brelse ⟨s.sys.set bp b, s.use, pc⟩ bp)
  | done {bp : Fin n} {p : ℕ} (err : Bool) (hu : s.use bp = .waited p)
      (hd : (s.sys.buf bp).b_done = false) (ha : (s.sys.buf bp).b_async = false) :
      Does s { s with
        sys := s.sys.set bp { s.sys.buf bp with
          b_done := true, b_error := (s.sys.buf bp).b_error || err, b_wanted := false }
        pc := fun q => (s.pc q).wake (some (.buf bp)) }
  | binval (dev : Int16) : Does s { s with sys := binval dev s.sys }

theorem set_eq_self (y : Sys n) (bp : Fin n) : y.set bp (y.buf bp) = y := by
  unfold Sys.set
  rw [Function.update_eq_self]

/-- `getblk` has no device that is none. -/
theorem bmajor_nodev : bmajor nodev = none := by decide

theorem next_cases {a : Act n} (h : Ordered s) (ht : next s a = some t) : Does s t := by
  have hcall {p : ℕ} {c : Call n} (hp : s.pc p = .run c) : Fits s.use p c :=
    h.calls p c (by rw [hp]; rfl)
  have hheld {bp : Fin n} (hu : s.use bp = .held) (q : ℕ) : s.use bp ≠ .waited q := by
    rw [hu]
    exact nofun
  -- a release of a buffer as it is
  have hrelease {bp : Fin n} {pc : ℕ → Pc n} (hu : s.use bp ≠ .free)
      (hpc : ∀ q c, (pc q).call = some c → Fits s.use q c ∧ ∀ w, c ≠ .iowait bp w) :
      Does s (State.brelse ⟨s.sys, s.use, pc⟩ bp) := by
    have hdoes : Does s (State.brelse ⟨s.sys.set bp (s.sys.buf bp), s.use, pc⟩ bp) :=
      .release hu rfl rfl rfl rfl (fun hd => ((h.bufs bp).dirty hd).1)
        (fun hd => ⟨hd, ((h.bufs bp).dirty hd).2⟩) hpc
    rwa [set_eq_self] at hdoes
  cases a with
  | getblk p dev blkno bsize bread =>
    unfold next at ht
    dsimp only at ht
    split at ht
    next major _ hmajor =>
      split at ht
      · exact absurd ht nofun
      · cases ht
        refine .call fun _ hdev => ?_
        rw [hdev, bmajor_nodev] at hmajor
        exact absurd hmajor nofun
    · exact absurd ht nofun
  | geteblk p =>
    unfold next at ht
    dsimp only at ht
    split at ht
    · cases ht
      exact .call fun _ => trivial
    · exact absurd ht nofun
  | run p =>
    unfold next at ht
    dsimp only at ht
    split at ht
    next dev blkno bread hp =>
      cases ht
      have hdev : dev ≠ nodev := hcall hp
      exact .turn (getblk_turns h.cached hdev rfl) fun _ => hdev
    next hp =>
      cases ht
      exact .turn (geteblk_turns rfl) fun _ => trivial
    next bp bwrite hp =>
      have hu : s.use bp = .waited p := hcall hp
      split at ht
      next hd =>
        cases ht
        split
        next =>
          refine hrelease (by rw [hu]; exact nofun) fun q c hq => ?_
          rcases call_update hq with ⟨_, hcall⟩ | ⟨hqp, hcall⟩
          · exact absurd hcall nofun
          · have hfits := h.calls q c hcall
            refine ⟨hfits, fun w hc => ?_⟩
            subst hc
            have hw : s.use bp = .waited q := hfits
            rw [hu] at hw
            exact hqp (Use.waited.inj hw).symm
        next => exact .reads hu
      next =>
        cases ht
        exact .waits hu
    · exact absurd ht nofun
  | bwrite p bp =>
    unfold next at ht
    dsimp only at ht
    split at ht
    next hu =>
      cases ht
      have hdoes : Does s (State.bwrite { s with sys := s.sys.set bp (s.sys.buf bp) } p bp) :=
        .bwrite hu rfl rfl rfl rfl
      rwa [set_eq_self] at hdoes
    · exact absurd ht nofun
  | bdwrite p bp =>
    unfold next at ht
    dsimp only at ht
    split at ht
    next hu =>
      cases ht
      exact .release (by rw [hu]; exact nofun) rfl rfl rfl rfl (fun _ => rfl)
        (fun hd => ⟨rfl, ((h.bufs bp).dirty hd).2⟩) (h.unwaited _ (hheld hu))
    · exact absurd ht nofun
  | bawrite p bp =>
    unfold next at ht
    dsimp only at ht
    split at ht
    next hu =>
      cases ht
      apply Does.bwrite hu
      · split <;> rfl
      · split <;> rfl
      · split <;> rfl
      · split <;> rfl
    · exact absurd ht nofun
  | brelse p bp =>
    unfold next at ht
    dsimp only at ht
    split at ht
    next hu =>
      cases ht
      exact hrelease (by rw [hu]; exact nofun) (h.unwaited _ (hheld hu))
    · exact absurd ht nofun
  | iodone bp err =>
    unfold next at ht
    dsimp only at ht
    split at ht
    next p hu hd =>
      have ha : (s.sys.buf bp).b_async = false := by
        rw [← Bool.not_eq_true, ← (h.bufs bp).async, hu]
        exact nofun
      rw [if_neg (by rw [ha]; exact Bool.false_ne_true)] at ht
      cases ht
      exact .done err hu hd ha
    next hu =>
      rw [if_pos ((h.bufs bp).async.mp hu)] at ht
      cases ht
      refine .release (by rw [hu]; exact nofun) rfl rfl rfl rfl (fun _ => rfl) ?_ ?_
      · intro hd
        have hdone := ((h.bufs bp).dirty hd).1
        rw [(h.bufs bp).idle hu] at hdone
        exact absurd hdone Bool.false_ne_true
      · exact h.unwaited _ fun q => by rw [hu]; exact nofun
    · exact absurd ht nofun
  | binval dev =>
    cases ht
    exact .binval dev

theorem binval_buf (dev : Int16) (y : Sys n) (bp : Fin n) :
    (binval dev y).buf bp = y.buf bp ∨
      (binval dev y).buf bp = { y.buf bp with b_stale := true, b_age := true } := by
  unfold binval
  dsimp only
  split
  · exact .inr rfl
  · exact .inl rfl

theorem next_ordered {a : Act n} (h : Ordered s) (ht : next s a = some t) : Ordered t := by
  cases next_cases h ht with
  | @call p c hc =>
    refine ⟨h.cached, h.bufs, fun q c' hq => ?_⟩
    rcases call_update hq with ⟨heq, hcall⟩ | ⟨_, hcall⟩
    · cases hcall
      rw [heq]
      exact hc _
    · exact h.calls q c' hcall
  | turn hr hc => exact h.turn hr hc
  | @waits p bp w hu =>
    refine ⟨h.cached, h.bufs, fun q c' hq => ?_⟩
    rcases call_update hq with ⟨heq, hcall⟩ | ⟨_, hcall⟩
    · cases hcall
      rw [heq]
      exact hu
    · exact h.calls q c' hcall
  | @reads p bp hu =>
    have hfit : Fit .held (s.sys.buf bp) := by
      have hold := h.bufs bp
      refine ⟨iff_of_false nofun ?_, iff_of_false nofun ?_, nofun, hold.dirty⟩
      · rw [← hold.free, hu]
        exact nofun
      · rw [← hold.async, hu]
        exact nofun
    refine h.update h.cached (fun _ _ => rfl) hfit fun q c hq => ?_
    rcases call_update hq with ⟨_, hcall⟩ | ⟨hqp, hcall⟩
    · exact absurd hcall nofun
    · refine (h.calls q c hcall).update fun w hc => ?_
      subst hc
      have hw : s.use bp = .waited q := h.calls q _ hcall
      rw [hu] at hw
      exact hqp (Use.waited.inj hw).symm
  | bwrite hu h1 h2 h3 h4 => exact h.bwrite hu h1 h2 h3 h4
  | @release bp b pc hu h1 h2 h3 h4 hd hk hpc =>
    apply h.release (h.cached.set h1 h2 h3 h4) (fun bq hq => set_other _ hq _) _ _ hpc
    · rw [set_self, h4, ← Bool.not_eq_false, ← (h.bufs bp).free]
      exact hu
    · rw [set_self]
      exact hd
  | @done bp p err hu hd ha =>
    refine ⟨h.cached.set rfl rfl rfl rfl, fun bq => ?_, fun q c hq => ?_⟩
    · by_cases hq : bq = bp
      · subst hq
        rw [set_self]
        refine ⟨(h.bufs bq).free, (h.bufs bq).async, fun hc => ?_, fun hdel => ?_⟩
        · exact absurd (hu.symm.trans hc) nofun
        · -- what waits for a write is not in transfer
          have hdone := ((h.bufs bq).dirty hdel).1
          rw [hd] at hdone
          exact absurd hdone Bool.false_ne_true
      · rw [set_other _ hq]
        exact h.bufs bq
    · rw [wake_call] at hq
      exact h.calls q c hq
  | binval dev =>
    have hs : Stays s.sys (binval dev s.sys) := by
      refine ⟨rfl, fun bp => ?_, fun bp => ?_, fun bp => ?_⟩
      · rcases binval_buf dev s.sys bp with hb | hb <;> rw [hb]
      · rcases binval_buf dev s.sys bp with hb | hb <;> rw [hb]
      · rcases binval_buf dev s.sys bp with hb | hb
        · rw [hb]
          exact id
        · rw [hb]
          exact fun _ => rfl
    refine ⟨h.cached.stays hs (fun bp => ?_) h.cached.nodup h.cached.count, fun bp => ?_, h.calls⟩
    · rcases binval_buf dev s.sys bp with hb | hb
      · rw [hb]
        exact h.cached.avail bp
      · rw [hb]
        exact h.cached.avail bp
    · show Fit (s.use bp) ((binval dev s.sys).buf bp)
      rcases binval_buf dev s.sys bp with hb | hb
      · rw [hb]
        exact h.bufs bp
      · rw [hb]
        exact ⟨(h.bufs bp).free, (h.bufs bp).async, (h.bufs bp).idle, (h.bufs bp).dirty⟩

/-- A write of the buffer has been started. -/
structure Writing (u : Use) (b : Buf) : Prop where
  use : u = .async ∨ ∃ p, u = .waited p
  b_read : b.b_read = false
  b_done : b.b_done = false

/-- A buffer with a delayed write keeps its block, and waits on until a write is started. -/
def Delays (s t : State n) : Prop :=
  ∀ bp, (s.sys.buf bp).b_delwri = true →
    ((t.sys.buf bp).b_dev = (s.sys.buf bp).b_dev ∧
      (t.sys.buf bp).b_blkno = (s.sys.buf bp).b_blkno) ∧
    ((t.sys.buf bp).b_delwri = true ∨ Writing (t.use bp) (t.sys.buf bp))

theorem Delays.only (bp : Fin n) (hoth : ∀ bq ≠ bp, t.sys.buf bq = s.sys.buf bq)
    (h : (s.sys.buf bp).b_delwri = true →
      ((t.sys.buf bp).b_dev = (s.sys.buf bp).b_dev ∧
        (t.sys.buf bp).b_blkno = (s.sys.buf bp).b_blkno) ∧
      ((t.sys.buf bp).b_delwri = true ∨ Writing (t.use bp) (t.sys.buf bp))) : Delays s t := by
  intro bq hd
  by_cases hq : bq = bp
  · subst hq
    exact h hd
  · rw [hoth bq hq]
    exact ⟨⟨rfl, rfl⟩, .inl hd⟩

theorem turn_delays {c : Call n} {bread : Bool} {r : Turn n} (hr : Turns s.sys r sys) :
    Delays s (s.turn p c bread (r, sys)) := by
  have hgot {bp : Fin n} (hoth : ∀ bq ≠ bp, sys.buf bq = s.sys.buf bq)
      (h : (s.sys.buf bp).b_delwri = true → sys.buf bp = { s.sys.buf bp with b_busy := true }) :
      Delays s (s.turn p c bread (.got bp, sys)) := by
    unfold State.turn
    dsimp only
    split
    · refine Delays.only bp (fun bq hq => ?_) fun hd => ?_
      · exact (set_other _ hq _).trans (hoth bq hq)
      · show ((((sys.set bp _).buf bp).b_dev = _ ∧ ((sys.set bp _).buf bp).b_blkno = _) ∧
          (((sys.set bp _).buf bp).b_delwri = true ∨ _))
        rw [set_self, h hd]
        exact ⟨⟨rfl, rfl⟩, .inl hd⟩
    · refine Delays.only bp hoth fun hd => ?_
      show ((sys.buf bp).b_dev = _ ∧ (sys.buf bp).b_blkno = _) ∧ ((sys.buf bp).b_delwri = true ∨ _)
      rw [h hd]
      exact ⟨⟨rfl, rfl⟩, .inl hd⟩
  cases hr with
  | bfreelist => exact fun bp hd => ⟨⟨rfl, rfl⟩, .inl hd⟩
  | busy bp =>
    refine Delays.only bp (fun bq hq => set_other _ hq _) fun hd => ?_
    show (((s.sys.set bp _).buf bp).b_dev = _ ∧ ((s.sys.set bp _).buf bp).b_blkno = _) ∧
      (((s.sys.set bp _).buf bp).b_delwri = true ∨ _)
    rw [set_self]
    exact ⟨⟨rfl, rfl⟩, .inl hd⟩
  | @wrote bp hin =>
    refine Delays.only bp (fun bq hq => ?_) fun hd => ?_
    · exact (set_other _ hq _).trans (notavail_other _ hq)
    · show ((((notavail bp s.sys).set bp _).buf bp).b_dev = _ ∧
        (((notavail bp s.sys).set bp _).buf bp).b_blkno = _) ∧ (_ ∨
        Writing (Function.update s.use bp .async bp) (((notavail bp s.sys).set bp _).buf bp))
      rw [set_self, notavail_self, Function.update_self]
      exact ⟨⟨rfl, rfl⟩, .inr ⟨.inl rfl, rfl, rfl⟩⟩
  | found hb => exact hgot (fun bq hq => notavail_other _ hq) fun _ => notavail_self _ _
  | fresh hin hd hnew =>
    refine hgot (fun bq hq => ?_) fun hc => absurd (hd.symm.trans hc) Bool.false_ne_true
    exact (set_other _ hq _).trans (notavail_other _ hq)

theorem bwrite_buf (s : State n) (p : ℕ) (bp : Fin n) :
    (s.bwrite p bp).sys = s.sys.set bp (s.sys.buf bp).write := by
  unfold State.bwrite
  dsimp only
  split
  · rfl
  · rfl

theorem bwrite_use (s : State n) (p : ℕ) (bp : Fin n) :
    (s.bwrite p bp).use bp = .async ∨ ∃ q, (s.bwrite p bp).use bp = .waited q := by
  unfold State.bwrite
  dsimp only
  split
  · exact .inl (Function.update_self _ _ _)
  · exact .inr ⟨p, Function.update_self _ _ _⟩

theorem next_delays {a : Act n} (h : Ordered s) (ht : next s a = some t) : Delays s t := by
  have hsame (bp : Fin n) (hd : (s.sys.buf bp).b_delwri = true) {u : Use} :
      ((s.sys.buf bp).b_dev = (s.sys.buf bp).b_dev ∧
        (s.sys.buf bp).b_blkno = (s.sys.buf bp).b_blkno) ∧
      ((s.sys.buf bp).b_delwri = true ∨ Writing u (s.sys.buf bp)) := ⟨⟨rfl, rfl⟩, .inl hd⟩
  cases next_cases h ht with
  | call => exact fun bp hd => hsame bp hd
  | turn hr => exact turn_delays hr
  | waits => exact fun bp hd => hsame bp hd
  | reads => exact fun bp hd => hsame bp hd
  | @bwrite p bp b hu h1 h2 h3 h4 =>
    have hbuf := bwrite_buf { s with sys := s.sys.set bp b } p bp
    have huse := bwrite_use { s with sys := s.sys.set bp b } p bp
    refine Delays.only bp (fun bq hq => ?_) fun hd => ?_
    · rw [hbuf, set_other _ hq]
      exact set_other _ hq _
    · rw [hbuf, set_self, set_self]
      exact ⟨⟨h1, h2⟩, .inr ⟨huse, rfl, rfl⟩⟩
  | @release bp b pc hu h1 h2 h3 h4 hd hk hpc =>
    refine Delays.only bp (fun bq hq => ?_) fun hdel => ?_
    · exact (brelse_other _ hq).trans (set_other _ hq _)
    · show (((brelse bp _).buf bp).b_dev = _ ∧ ((brelse bp _).buf bp).b_blkno = _) ∧
        (((brelse bp _).buf bp).b_delwri = true ∨ _)
      rw [brelse_self, set_self]
      have hb := hk hdel
      have hrel : b.released =
          { b with b_wanted := false, b_busy := false, b_async := false, b_age := false } := by
        unfold Buf.released
        rw [if_neg (by rw [hb.2]; exact Bool.false_ne_true)]
      rw [hrel]
      exact ⟨⟨h1, h2⟩, .inl hb.1⟩
  | @done bp p err hu hd ha =>
    refine Delays.only bp (fun bq hq => set_other _ hq _) fun hdel => ?_
    have hdone := ((h.bufs bp).dirty hdel).1
    rw [hd] at hdone
    exact absurd hdone Bool.false_ne_true
  | binval dev =>
    intro bp hd
    show (((binval dev s.sys).buf bp).b_dev = _ ∧ ((binval dev s.sys).buf bp).b_blkno = _) ∧
      (((binval dev s.sys).buf bp).b_delwri = true ∨ _)
    rcases binval_buf dev s.sys bp with hb | hb
    · rw [hb]
      exact ⟨⟨rfl, rfl⟩, .inl hd⟩
    · rw [hb]
      exact ⟨⟨rfl, rfl⟩, .inl hd⟩

end Steps

theorem binit_ordered : Ordered (binit n) := by
  have hnone (bp : Fin n) : bp ∈ (binit n).sys.hbuf none :=
    mem_reverse.mpr (mem_finRange bp)
  have hsome (c : Int32) : (binit n).sys.hbuf (some c) = [] := rfl
  refine ⟨⟨fun bp => ?_, nodup_finRange n, ?_, ⟨fun c => ?_, fun c bp hin => ?_⟩,
    fun bp => ⟨none, hnone bp⟩, fun bp bq _ _ _ hne => absurd rfl hne⟩, fun bp => ?_,
    fun p c hc => absurd hc nofun⟩
  · exact iff_of_true (mem_finRange bp) rfl
  · show (n : ℤ) = (List.finRange n).length
    rw [length_finRange]
  · cases c with
    | none => exact nodup_reverse.mpr (nodup_finRange n)
    | some c => exact nodup_nil
  · cases c with
    | none => rfl
    | some c => exact absurd hin nofun
  · exact ⟨iff_of_true rfl rfl, iff_of_false nofun nofun, nofun, nofun⟩

/-- What is promised of a state and of the steps from it. -/
structure Unique (s : State n) : Prop where
  apart : ∀ bp bq, (s.sys.buf bp).b_stale = false → (s.sys.buf bq).b_stale = false →
    (s.sys.buf bp).b_dev ≠ nodev → (s.sys.buf bp).b_dev = (s.sys.buf bq).b_dev →
    (s.sys.buf bp).b_blkno = (s.sys.buf bq).b_blkno → bp = bq
  once : ∀ c, (s.sys.hbuf c).Nodup
  chain : ∀ bp c, bp ∈ s.sys.hbuf c ↔ c = chainOf (s.sys.buf bp).b_dev (s.sys.buf bp).b_blkno
  nodup : s.sys.av.Nodup
  avail : ∀ bp, bp ∈ s.sys.av ↔ (s.sys.buf bp).b_busy = false
  count : s.sys.b_bcount = s.sys.av.length
  delays : ∀ a t, Bstep s a t → Delays s t

theorem Ordered.unique {s : State n} (h : Ordered s) : Unique s := by
  refine ⟨fun bp bq hp hq hdev h1 h2 => ?_, h.cached.placed.nodup, fun bp c => ?_, h.cached.nodup,
    h.cached.avail, h.cached.count, fun a t ht => next_delays h ht⟩
  · have hkey (br : Fin n) (hr : (s.sys.buf br).b_stale = false)
        (hd : (s.sys.buf br).b_dev ≠ nodev) :
        s.sys.key br = some ((s.sys.buf br).b_dev, (s.sys.buf br).b_blkno) := by
      unfold Sys.key
      rw [hr, decide_eq_false hd]
      rfl
    apply h.cached.apart bp bq (h.cached.on bp) (h.cached.on bq)
    · rw [hkey bp hp hdev, hkey bq hq (h1 ▸ hdev), h1, h2]
    · rw [hkey bp hp hdev]
      exact nofun
  · refine ⟨h.cached.placed.home c bp, fun hc => ?_⟩
    obtain ⟨c', hin⟩ := h.cached.on bp
    have hhome : c' = c := (h.cached.placed.home c' bp hin).trans hc.symm
    exact hhome ▸ hin

/-- In every run no block of a device is in two buffers, and the lists are in order. -/
theorem buf_unique {as : List (Act n)} {t : State n} (h : Run Bstep (binit n) as t) : Unique t := by
  have hstep (s : State n) (a : Act n) (t : State n) (hs : Ordered s) (hst : Bstep s a t) :
      Ordered t := next_ordered hs hst
  have ht := h.invariant hstep binit_ordered
  exact ht.unique

/-- A run in which a block is read, written with delay, and read again. -/
theorem buf_unique_one : ∃ t : State 2, Run Bstep (binit 2) [.getblk 0 1 5 512 true, .run 0,
    .iodone 0 false, .run 0, .bdwrite 0 0, .getblk 1 1 5 512 true, .run 1] t ∧ Unique t := by
  have hrun : ∃ t : State 2, Run Bstep (binit 2) [.getblk 0 1 5 512 true, .run 0,
      .iodone 0 false, .run 0, .bdwrite 0 0, .getblk 1 1 5 512 true, .run 1] t := by
    exact ⟨_, .cons rfl (.cons rfl (.cons rfl (.cons rfl (.cons rfl (.cons rfl (.cons rfl (.nil _)))))))⟩
  obtain ⟨t, ht⟩ := hrun
  exact ⟨t, ht, buf_unique ht⟩

/-- Buffers that are assigned to no device may have the same number. -/
theorem empty_buf_same : ¬ ∀ (n : ℕ) (as : List (Act n)) (t : State n), Run Bstep (binit n) as t →
    ∀ bp bq, (t.sys.buf bp).b_stale = false → (t.sys.buf bq).b_stale = false →
      (t.sys.buf bp).b_dev = (t.sys.buf bq).b_dev →
      (t.sys.buf bp).b_blkno = (t.sys.buf bq).b_blkno → bp = bq := by
  intro hall
  have hsame := hall 2 [] (binit 2) (.nil _) 0 1 rfl rfl rfl rfl
  exact absurd hsame (by decide)

end Svr3.Bio
