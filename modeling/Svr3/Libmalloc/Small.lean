import Svr3.Lib.Linked
import Svr3.Lib.Rings
import Svr3.Lib.Run
import Mathlib.Algebra.Group.Nat.Defs

/-!
# Holding blocks of `libmalloc/malloc.c`

A holding block contains `numlblks` little blocks of one size. The holding blocks of a size are on a ring
from `holdhead`, those with space in front. Addresses are numbers; a pointer to a little block is the
address of its header.
-/

namespace Svr3.Libmalloc

open Function List

/-- `MINHEAD`, `ALIGNSZ` and `BUSY` -/
def minhead : ℕ := 4
def alignsz : ℕ := 4
def busy : ℕ := 1

/-- The offset of `space` in a `struct holdblk` -/
def spaceOff : ℕ := 20

/-- The options that `mallopt` has set, and the size of the little blocks in grains. -/
structure Conf where
  grain : ℕ
  fastct : ℕ
  numlblks : ℕ
  size : ℕ
  grain_pos : alignsz ≤ grain
  two_le : 2 ≤ numlblks

namespace Conf

variable (c : Conf)

/-- The size of a little block with its header -/
def nb : ℕ := c.size * c.grain + minhead

/-- `HOLDSZ(nb)`, an unsigned number -/
def holdsz : ℕ := (spaceOff + c.nb * c.numlblks) % 2 ^ 32

/-- `HOLDSZ(nb)` does not wrap. -/
def Fits : Prop := spaceOff + c.nb * c.numlblks < 2 ^ 32

/-- Little block `k` of the holding block at `h` -/
def lblk (h k : ℕ) : ℕ := h + spaceOff + k * c.nb

def maxfast : ℕ := c.fastct * c.grain

end Conf

/-- `struct holdblk`, where `none` is `LGROUND` -/
structure Holdblk where
  nexthblk : ℕ
  prevhblk : ℕ
  lfreeq : Option ℕ
  unused : ℕ

/-- The header of a little block: its holding block with both flags, or the next free little block with
`SMAL`. -/
inductive Header
  | holder (h : ℕ)
  | nextfree (p : Option ℕ)

/-- `CLRSMAL(lblk->header.nextfree)` -/
def Header.clrsmal : Header → Option ℕ
  | .nextfree p => p
  | .holder h => some (h + busy)

/-- The head of the ring for the size, the holding blocks, and the headers. -/
structure Sys where
  holdhead : Option ℕ
  hold : ℕ → Holdblk
  header : ℕ → Header

namespace Sys

def setHold (h : ℕ) (b : Holdblk) (s : Sys) : Sys := { s with hold := update s.hold h b }

def nexts (s : Sys) (h : ℕ) : ℕ := (s.hold h).nexthblk

def prevs (s : Sys) (h : ℕ) : ℕ := (s.hold h).prevhblk

def lfreeqs (s : Sys) (h : ℕ) : Option ℕ := (s.hold h).lfreeq

def unuseds (s : Sys) (h : ℕ) : ℕ := (s.hold h).unused

@[simp] theorem nexts_setHold (s : Sys) (h : ℕ) (b : Holdblk) :
    (s.setHold h b).nexts = update s.nexts h b.nexthblk :=
  Function.comp_update _ _ _ _

@[simp] theorem prevs_setHold (s : Sys) (h : ℕ) (b : Holdblk) :
    (s.setHold h b).prevs = update s.prevs h b.prevhblk :=
  Function.comp_update _ _ _ _

@[simp] theorem lfreeqs_setHold (s : Sys) (h : ℕ) (b : Holdblk) :
    (s.setHold h b).lfreeqs = update s.lfreeqs h b.lfreeq :=
  Function.comp_update _ _ _ _

@[simp] theorem unuseds_setHold (s : Sys) (h : ℕ) (b : Holdblk) :
    (s.setHold h b).unuseds = update s.unuseds h b.unused :=
  Function.comp_update _ _ _ _

def setHeader (p : ℕ) (x : Header) (s : Sys) : Sys := { s with header := update s.header p x }

def setNext (h n : ℕ) (s : Sys) : Sys := s.setHold h { s.hold h with nexthblk := n }

def setPrev (h n : ℕ) (s : Sys) : Sys := s.setHold h { s.hold h with prevhblk := n }

@[simp] theorem nexts_setNext (s : Sys) (h n : ℕ) :
    (s.setNext h n).nexts = update s.nexts h n :=
  nexts_setHold _ _ _

@[simp] theorem prevs_setNext (s : Sys) (h n : ℕ) : (s.setNext h n).prevs = s.prevs := by
  rw [setNext, prevs_setHold]
  exact update_eq_self _ _

@[simp] theorem nexts_setPrev (s : Sys) (h n : ℕ) : (s.setPrev h n).nexts = s.nexts := by
  rw [setPrev, nexts_setHold]
  exact update_eq_self _ _

@[simp] theorem prevs_setPrev (s : Sys) (h n : ℕ) :
    (s.setPrev h n).prevs = update s.prevs h n :=
  prevs_setHold _ _ _

/-- Two states whose holding blocks differ only in their place on the ring. -/
def Same (s s' : Sys) : Prop :=
  s'.lfreeqs = s.lfreeqs ∧ s'.unuseds = s.unuseds ∧ s'.header = s.header ∧ s'.holdhead = s.holdhead

theorem Same.trans {s s' s'' : Sys} (h : Same s s') (h' : Same s' s'') : Same s s'' :=
  ⟨h'.1.trans h.1, h'.2.1.trans h.2.1, h'.2.2.1.trans h.2.2.1, h'.2.2.2.trans h.2.2.2⟩

theorem same_setNext (s : Sys) (h n : ℕ) : Same s (s.setNext h n) := by
  refine ⟨?_, ?_, rfl, rfl⟩
  · rw [setNext, lfreeqs_setHold]
    exact update_eq_self _ _
  · rw [setNext, unuseds_setHold]
    exact update_eq_self _ _

theorem same_setPrev (s : Sys) (h n : ℕ) : Same s (s.setPrev h n) := by
  refine ⟨?_, ?_, rfl, rfl⟩
  · rw [setPrev, lfreeqs_setHold]
    exact update_eq_self _ _
  · rw [setPrev, unuseds_setHold]
    exact update_eq_self _ _

/-- `h` comes in front of the ring from `a`. -/
def link (h a : ℕ) (s : Sys) : Sys :=
  let s1 := (s.setNext h a).setPrev h (s.hold a).prevhblk
  let s2 := s1.setPrev a h
  s2.setNext (s2.hold h).prevhblk h

/-- `h` is taken out of its ring. -/
def unlink (h : ℕ) (s : Sys) : Sys :=
  let s1 := s.setPrev (s.hold h).nexthblk (s.hold h).prevhblk
  s1.setNext (s1.hold h).prevhblk (s1.hold h).nexthblk

theorem same_link (s : Sys) (h a : ℕ) : Same s (s.link h a) :=
  (((same_setNext _ _ _).trans (same_setPrev _ _ _)).trans (same_setPrev _ _ _)).trans
    (same_setNext _ _ _)

theorem same_unlink (s : Sys) (h : ℕ) : Same s (s.unlink h) :=
  (same_setPrev _ _ _).trans (same_setNext _ _ _)

theorem ring_link {s : Sys} {h a : ℕ} {hs : List ℕ} (hr : Ring s.nexts s.prevs (a :: hs))
    (hh : h ∉ a :: hs) : Ring (s.link h a).nexts (s.link h a).prevs (h :: a :: hs) := by
  have hha : h ≠ a := fun heq => hh (heq ▸ mem_cons_self)
  have hback : ((((s.setNext h a).setPrev h (s.hold a).prevhblk).setPrev a h).hold h).prevhblk =
      s.prevs a := by
    change (((s.setNext h a).setPrev h (s.hold a).prevhblk).setPrev a h).prevs h = s.prevs a
    rw [prevs_setPrev, update_of_ne hha, prevs_setPrev, update_self]
    rfl
  rw [link, hback, nexts_setNext, nexts_setPrev, nexts_setPrev, nexts_setNext, prevs_setNext,
    prevs_setPrev, prevs_setPrev, prevs_setNext]
  exact hr.insert hh

theorem ring_unlink {s : Sys} {h a : ℕ} {pre post : List ℕ}
    (hr : Ring s.nexts s.prevs (a :: (pre ++ h :: post))) :
    Ring (s.unlink h).nexts (s.unlink h).prevs (a :: (pre ++ post)) := by
  have hne : h ≠ s.nexts h := hr.next_ne.symm
  have hback : ((s.setPrev (s.hold h).nexthblk (s.hold h).prevhblk).hold h).prevhblk = s.prevs h := by
    change (s.setPrev (s.nexts h) (s.prevs h)).prevs h = s.prevs h
    rw [prevs_setPrev, update_of_ne hne]
  have hforth : ((s.setPrev (s.hold h).nexthblk (s.hold h).prevhblk).hold h).nexthblk = s.nexts h := by
    change (s.setPrev (s.nexts h) (s.prevs h)).nexts h = s.nexts h
    rw [nexts_setPrev]
  rw [unlink, hback, hforth, nexts_setNext, nexts_setPrev, prevs_setNext, prevs_setPrev]
  exact hr.remove

end Sys

/-- The little block `p` is taken from the holding block `h`. -/
def serve (c : Conf) (h p : ℕ) (s : Sys) : Sys :=
  let b := s.hold h
  let s1 :=
    if p < b.unused then
      let s1 := s.setHold h { b with lfreeq := (s.header p).clrsmal }
      if (s.header p).clrsmal = none then { s1 with holdhead := some b.nexthblk } else s1
    else if b.unused + c.nb < h + c.holdsz then
      s.setHold h { b with unused := b.unused + c.nb, lfreeq := some (b.unused + c.nb) }
    else { s.setHold h { b with lfreeq := none } with holdhead := some b.nexthblk }
  s1.setHeader p (.holder h)

/-- The holding block `h` is new, and its first little block is taken. -/
def addHold (c : Conf) (h : ℕ) (s : Sys) : Sys :=
  let s1 :=
    match s.holdhead with
    | some a => s.link h a
    | none => (s.setNext h h).setPrev h h
  let s2 := { s1 with holdhead := some h }
  let b := { s2.hold h with lfreeq := some (c.lblk h 1), unused := c.lblk h 1 }
  (s2.setHold h b).setHeader (c.lblk h 0) (.holder h)

/-- The holding block with space in it, and its first free little block -/
def Sys.space (s : Sys) : Option (ℕ × ℕ) :=
  s.holdhead.bind fun h => (s.hold h).lfreeq.map fun p => (h, p)

/-- `malloc` of a small block; `newhold` is what the `malloc` of a holding block returns, if there is one. -/
def malloc (c : Conf) (newhold : Option ℕ) (s : Sys) : Option ℕ × Sys :=
  match s.space with
  | some (h, p) => (some p, serve c h p s)
  | none =>
    match newhold with
    | none => (none, s)
    | some h => (some (c.lblk h 0), addHold c h s)

/-- `free` of a small block; a block that is not busy is left alone. -/
def free (p : ℕ) (s : Sys) : Sys :=
  match s.header p with
  | .nextfree _ => s
  | .holder h =>
    let s1 := (s.setHeader p (.nextfree (s.hold h).lfreeq)).setHold h
      { s.hold h with lfreeq := some p }
    match s1.holdhead with
    | none => s1
    | some oldhead =>
      if oldhead ≠ h then ({ s1 with holdhead := some h }.unlink h).link h oldhead
      else s1

/-! ## Histories -/

/-- The holding blocks that there are, the little blocks that have been handed out, and those of them
that have not been given back. -/
structure Hist where
  sys : Sys
  holds : List ℕ
  used : ℕ → Bool
  live : ℕ → Bool

def Hist.init (hold : ℕ → Holdblk) (header : ℕ → Header) : Hist :=
  { sys := { holdhead := none, hold := hold, header := header }
    holds := [], used := fun _ => false, live := fun _ => false }

inductive Act
  | malloc (nbytes : ℕ) (newhold : Option ℕ)
  | free (p : ℕ)

/-- A holding block is memory of its own. -/
def Hist.Fresh (c : Conf) (t : Hist) (h : ℕ) : Prop :=
  h + c.holdsz ≤ 2 ^ 32 ∧ ∀ h' ∈ t.holds, h + c.holdsz ≤ h' ∨ h' + c.holdsz ≤ h

instance (c : Conf) (t : Hist) (h : ℕ) : Decidable (t.Fresh c h) :=
  inferInstanceAs (Decidable (_ ∧ _))

/-- The sizes that `malloc` rounds to the one of the little blocks -/
def Conf.Small (c : Conf) (nbytes : ℕ) : Prop :=
  nbytes ≠ 0 ∧ nbytes ≤ c.maxfast ∧ (nbytes + c.grain - 1) / c.grain = c.size

instance (c : Conf) (nbytes : ℕ) : Decidable (c.Small nbytes) :=
  inferInstanceAs (Decidable (_ ∧ _))

/-- The caller gets a block, and a holding block may be new. -/
def Hist.grant (p : ℕ) (holds : List ℕ) (s : Sys) (t : Hist) : Hist :=
  { sys := s, holds := holds, used := update t.used p true,
    live := update t.live p true }

/-- Callers give back blocks that they have got, some of them twice. -/
def next (c : Conf) (t : Hist) : Act → Option Hist
  | .malloc nbytes newhold =>
    if c.Small nbytes ∧ ∀ h ∈ newhold, t.Fresh c h then
      match malloc c newhold t.sys with
      | (none, s) => some { t with sys := s }
      | (some p, s) =>
        some (t.grant p (if t.sys.space = none then newhold.toList ++ t.holds else t.holds) s)
    else none
  | .free p =>
    if t.used p then some { t with sys := free p t.sys, live := update t.live p false }
    else none

/-! ## The little blocks of a holding block -/

/-- Where the list of the freed blocks goes on from `p`; a block that was never used ends it. -/
def Hist.link (t : Hist) (p : ℕ) : Option ℕ := if t.used p then (t.sys.header p).clrsmal else none

/-- The list from `lfreeq` is `ps`, `unused` is block `u`, and the blocks behind it were never used. -/
structure Blocks (c : Conf) (t : Hist) (h u : ℕ) (ps : List ℕ) : Prop where
  lt : u < c.numlblks
  unused : (t.sys.hold h).unused = c.lblk h u
  linked : Linked t.link (t.sys.hold h).lfreeq ps
  mem : ∀ p, p ∈ ps ↔ (∃ k ≤ u, p = c.lblk h k) ∧ t.live p = false
  before : ∀ k < u, t.used (c.lblk h k) = true
  behind : ∀ k, u < k → k < c.numlblks → t.used (c.lblk h k) = false
  last : t.used (c.lblk h u) = true → u + 1 = c.numlblks
  holder : ∀ k < c.numlblks, t.live (c.lblk h k) = true → t.sys.header (c.lblk h k) = .holder h
  freed : ∀ k < c.numlblks, t.used (c.lblk h k) = true → t.live (c.lblk h k) = false →
    ∃ o, t.sys.header (c.lblk h k) = .nextfree o

namespace Blocks

variable {c : Conf} {t t' : Hist} {h u p : ℕ} {ps : List ℕ}

theorem nb_pos (c : Conf) : 0 < c.nb := Nat.succ_pos _

theorem lblk_inj {h k k' : ℕ} (heq : c.lblk h k = c.lblk h k') : k = k' := by
  rw [Conf.lblk, Conf.lblk] at heq
  exact Nat.eq_of_mul_eq_mul_right (nb_pos c) (Nat.add_left_cancel heq)

theorem lblk_lt {h k k' : ℕ} : c.lblk h k < c.lblk h k' ↔ k < k' := by
  rw [Conf.lblk, Conf.lblk, Nat.add_lt_add_iff_left]
  exact Nat.mul_lt_mul_right (nb_pos c)

/-- There is another block behind block `u`. -/
theorem room_iff (hfit : c.Fits) : c.lblk h u + c.nb < h + c.holdsz ↔ u + 1 < c.numlblks := by
  have hsz : c.holdsz = spaceOff + c.nb * c.numlblks := Nat.mod_eq_of_lt hfit
  have hnext : c.lblk h u + c.nb = h + (spaceOff + c.nb * (u + 1)) := by
    rw [Conf.lblk, Nat.mul_add, Nat.mul_one, Nat.mul_comm u]
    omega
  rw [hnext, hsz, Nat.add_lt_add_iff_left, Nat.add_lt_add_iff_left]
  exact Nat.mul_lt_mul_left (nb_pos c)

/-- What happens elsewhere changes nothing. -/
theorem congr (hb : Blocks c t h u ps) (hfree : (t'.sys.hold h).lfreeq = (t.sys.hold h).lfreeq)
    (hunused : (t'.sys.hold h).unused = (t.sys.hold h).unused)
    (hused : ∀ k < c.numlblks, t'.used (c.lblk h k) = t.used (c.lblk h k))
    (hlive : ∀ k < c.numlblks, t'.live (c.lblk h k) = t.live (c.lblk h k))
    (hheader : ∀ k < c.numlblks, t'.sys.header (c.lblk h k) = t.sys.header (c.lblk h k)) :
    Blocks c t' h u ps := by
  have hmem : ∀ p ∈ ps, ∃ k < c.numlblks, p = c.lblk h k := by
    intro p hp
    obtain ⟨⟨k, hk, rfl⟩, -⟩ := (hb.mem p).mp hp
    exact ⟨k, Nat.lt_of_le_of_lt hk hb.lt, rfl⟩
  refine ⟨hb.lt, hunused.trans hb.unused, ?_, fun p => ?_, fun k hk => ?_, fun k hk hn => ?_,
    fun h => ?_, fun k hk hl => ?_, fun k hk hu hl => ?_⟩
  · rw [hfree]
    apply hb.linked.congr
    intro p hp
    obtain ⟨k, hk, rfl⟩ := hmem p hp
    rw [Hist.link, Hist.link, hused k hk, hheader k hk]
  · rw [hb.mem]
    apply and_congr_right
    rintro ⟨k, hk, rfl⟩
    rw [hlive k (Nat.lt_of_le_of_lt hk hb.lt)]
  · rw [hused k (Nat.lt_trans hk hb.lt)]
    exact hb.before k hk
  · rw [hused k hn]
    exact hb.behind k hk hn
  · rw [hused u hb.lt] at h
    exact hb.last h
  · rw [hlive k hk] at hl
    rw [hheader k hk]
    exact hb.holder k hk hl
  · rw [hlive k hk] at hl
    rw [hused k hk] at hu
    rw [hheader k hk]
    exact hb.freed k hk hu hl

theorem used_of_lt (hb : Blocks c t h u ps) {p : ℕ} (hp : p ∈ ps) (hlt : p < (t.sys.hold h).unused) :
    t.used p = true := by
  obtain ⟨⟨k, -, rfl⟩, -⟩ := (hb.mem p).mp hp
  rw [hb.unused, lblk_lt] at hlt
  exact hb.before k hlt

/-- The first block of the list is the first one that was never used. -/
theorem alone (hb : Blocks c t h u ps) (hhead : ps.head? = some (c.lblk h u))
    (hlink : t.used (c.lblk h u) = true → (t.sys.header (c.lblk h u)).clrsmal = none) :
    ps = [c.lblk h u] := by
  cases ps with
  | nil => exact absurd hhead nofun
  | cons p ps =>
    have hp : p = c.lblk h u := Option.some.inj hhead
    have htail := hb.linked.2
    have hend : t.link p = none := by
      rw [hp, Hist.link]
      split
      next hused => exact hlink hused
      next => rfl
    rw [hend] at htail
    cases ps with
    | nil => rw [hp]
    | cons q ps => exact absurd htail.1 nofun

/-- A block that is given back comes to the front of the list. -/
theorem push (hb : Blocks c t h u ps) {k : ℕ} (hk : k < c.numlblks)
    (hused : t.used (c.lblk h k) = true) (hlive : t.live (c.lblk h k) = true)
    (hfree : (t'.sys.hold h).lfreeq = some (c.lblk h k))
    (hunused : (t'.sys.hold h).unused = (t.sys.hold h).unused) (hused' : t'.used = t.used)
    (hlive' : t'.live = update t.live (c.lblk h k) false)
    (hheader : t'.sys.header =
      update t.sys.header (c.lblk h k) (.nextfree (t.sys.hold h).lfreeq)) :
    Blocks c t' h u (c.lblk h k :: ps) := by
  have hku : k ≤ u := by
    by_contra hlt
    rw [hb.behind k (Nat.not_le.mp hlt) hk] at hused
    exact absurd hused nofun
  have hnotin : c.lblk h k ∉ ps := by
    rw [hb.mem, hlive]
    exact fun hp => absurd hp.2 nofun
  refine ⟨hb.lt, hunused.trans hb.unused, ⟨hfree, ?_⟩, fun p => ?_, fun i hi => ?_, fun i hi hn => ?_,
    fun h => ?_, fun i hi hl => ?_, fun i hi hu hl => ?_⟩
  · rw [Hist.link, hused', if_pos hused, hheader, update_self]
    apply hb.linked.congr
    intro p hp
    rw [Hist.link, Hist.link, hused', hheader, update_of_ne (ne_of_mem_of_not_mem hp hnotin)]
  · rw [mem_cons, hb.mem, hlive']
    by_cases hp : p = c.lblk h k
    · rw [hp, update_self]
      exact iff_of_true (.inl rfl) ⟨⟨k, hku, rfl⟩, rfl⟩
    · rw [update_of_ne hp, or_iff_right hp]
  · rw [hused']
    exact hb.before i hi
  · rw [hused']
    exact hb.behind i hi hn
  · rw [hused'] at h
    exact hb.last h
  · have hik : c.lblk h i ≠ c.lblk h k := by
      intro heq
      rw [hlive', heq, update_self] at hl
      exact absurd hl nofun
    rw [hheader, update_of_ne hik]
    rw [hlive', update_of_ne hik] at hl
    exact hb.holder i hi hl
  · rw [hheader]
    by_cases hik : c.lblk h i = c.lblk h k
    · rw [hik, update_self]
      exact ⟨_, rfl⟩
    · rw [hused'] at hu
      rw [hlive', update_of_ne hik] at hl
      rw [update_of_ne hik]
      exact hb.freed i hi hu hl

/-- What a history is after a block `p` was handed out. -/
structure Granted (t t' : Hist) (h p : ℕ) : Prop where
  used : t'.used = update t.used p true
  live : t'.live = update t.live p true
  header : t'.sys.header = update t.sys.header p (.holder h)

theorem Granted.link_of_ne {q : ℕ} (hg : Granted t t' h p) (hq : q ≠ p) : t'.link q = t.link q := by
  rw [Hist.link, Hist.link, hg.used, hg.header, update_of_ne hq, update_of_ne hq]

theorem Granted.tail_linked {o : Option ℕ} (hg : Granted t t' h p) (hl : Linked t.link o ps)
    (hp : p ∉ ps) : Linked t'.link o ps :=
  hl.congr fun _ hq => hg.link_of_ne (ne_of_mem_of_not_mem hq hp)

theorem freed_granted (hb : Blocks c t h u (p :: ps)) (hg : Granted t t' h p) {k : ℕ}
    (hk : k < c.numlblks) (hu : t'.used (c.lblk h k) = true) (hl : t'.live (c.lblk h k) = false) :
    ∃ o, t'.sys.header (c.lblk h k) = .nextfree o := by
  have hkp : c.lblk h k ≠ p := by
    intro heq
    rw [hg.live, heq, update_self] at hl
    exact absurd hl nofun
  rw [hg.live, update_of_ne hkp] at hl
  rw [hg.used, update_of_ne hkp] at hu
  rw [hg.header, update_of_ne hkp]
  exact hb.freed k hk hu hl

/-- A busy block has the address of its holding block in its header. -/
theorem holder_granted (hb : Blocks c t h u (p :: ps)) (hg : Granted t t' h p) {k : ℕ}
    (hk : k < c.numlblks) (hl : t'.live (c.lblk h k) = true) :
    t'.sys.header (c.lblk h k) = .holder h := by
  by_cases hkp : c.lblk h k = p
  · rw [hg.header, hkp, update_self]
  · rw [hg.live, update_of_ne hkp] at hl
    rw [hg.header, update_of_ne hkp]
    exact hb.holder k hk hl

/-- The first block of the list is handed out, and the others stay on the list. -/
theorem pop (hb : Blocks c t h u (p :: ps)) (hg : Granted t t' h p)
    (hlinked : Linked t'.link (t'.sys.hold h).lfreeq ps)
    (hunused : (t'.sys.hold h).unused = (t.sys.hold h).unused)
    (hlast : p = c.lblk h u → u + 1 = c.numlblks) : Blocks c t' h u ps := by
  have hnotin := (nodup_cons.mp hb.linked.nodup).1
  obtain ⟨⟨k, hku, hk⟩, -⟩ := (hb.mem p).mp mem_cons_self
  refine ⟨hb.lt, hunused.trans hb.unused, hlinked, fun q => ?_, fun i hi => ?_, fun i hi hn => ?_,
    fun hu => ?_, fun _ => hb.holder_granted hg, fun _ => hb.freed_granted hg⟩
  · have hq := hb.mem q
    rw [mem_cons] at hq
    by_cases hqp : q = p
    · rw [hg.live, hqp, update_self]
      exact iff_of_false hnotin fun hc => absurd hc.2 nofun
    · rw [or_iff_right hqp] at hq
      rw [hq, hg.live, update_of_ne hqp]
  · by_cases hip : c.lblk h i = p
    · rw [hg.used, hip, update_self]
    · rw [hg.used, update_of_ne hip]
      exact hb.before i hi
  · have hip : c.lblk h i ≠ p := by
      intro heq
      have hik := lblk_inj (heq.trans hk)
      omega
    rw [hg.used, update_of_ne hip]
    exact hb.behind i hi hn
  · by_cases hup : c.lblk h u = p
    · exact hlast hup.symm
    · rw [hg.used, update_of_ne hup] at hu
      exact hb.last hu

/-- The first block that was never used is handed out, and there is another one. -/
theorem advance (hb : Blocks c t h u [c.lblk h u]) (hg : Granted t t' h (c.lblk h u))
    (hroom : u + 1 < c.numlblks) (hfree : (t'.sys.hold h).lfreeq = some (c.lblk h (u + 1)))
    (hunused : (t'.sys.hold h).unused = c.lblk h (u + 1)) (hlu : ∀ p, t.live p = true → t.used p = true) :
    Blocks c t' h (u + 1) [c.lblk h (u + 1)] := by
  have hne {k : ℕ} (hk : k ≠ u) : c.lblk h k ≠ c.lblk h u := fun heq => hk (lblk_inj heq)
  have hnext : t'.used (c.lblk h (u + 1)) = false := by
    rw [hg.used, update_of_ne (hne (Nat.succ_ne_self u))]
    exact hb.behind (u + 1) (Nat.lt_succ_self u) hroom
  refine ⟨hroom, hunused, ⟨hfree, ?_⟩, fun q => ?_, fun i hi => ?_, fun i hi hn => ?_, fun hu => ?_,
    fun _ => hb.holder_granted hg, fun _ => hb.freed_granted hg⟩
  · rw [Hist.link, hnext]
    rfl
  · rw [mem_singleton]
    constructor
    · rintro rfl
      refine ⟨⟨u + 1, Nat.le_refl _, rfl⟩, ?_⟩
      by_contra hl
      rw [hg.live, update_of_ne (hne (Nat.succ_ne_self u))] at hl
      have hused := hlu _ (eq_true_of_ne_false hl)
      rw [hb.behind (u + 1) (Nat.lt_succ_self u) hroom] at hused
      exact absurd hused nofun
    · rintro ⟨⟨k, hk, rfl⟩, hl⟩
      rcases Nat.lt_or_ge u k with hlt | hle
      · rw [show k = u + 1 by omega]
      · -- the blocks up to `u` are busy
        by_cases hku : k = u
        · rw [hg.live, hku, update_self] at hl
          exact absurd hl nofun
        · rw [hg.live, update_of_ne (hne hku)] at hl
          have hin := (hb.mem (c.lblk h k)).mpr ⟨⟨k, hle, rfl⟩, hl⟩
          exact absurd (mem_singleton.mp hin) (hne hku)
  · rw [hg.used]
    by_cases hiu : i = u
    · rw [hiu, update_self]
    · rw [update_of_ne (hne hiu)]
      exact hb.before i (by omega)
  · rw [hg.used, update_of_ne (hne (by omega))]
    exact hb.behind i (by omega) hn
  · rw [hnext] at hu
    exact absurd hu nofun

/-- A new holding block, whose first block is handed out. -/
theorem create (htwo : 2 ≤ c.numlblks) (hnew : ∀ k < c.numlblks, t.used (c.lblk h k) = false)
    (hlu : ∀ p, t.live p = true → t.used p = true) (hg : Granted t t' h (c.lblk h 0))
    (hfree : (t'.sys.hold h).lfreeq = some (c.lblk h 1))
    (hunused : (t'.sys.hold h).unused = c.lblk h 1) : Blocks c t' h 1 [c.lblk h 1] := by
  -- before its first block is handed out, all of the holding block is unused
  let b : Holdblk := { t.sys.hold h with lfreeq := some (c.lblk h 0), unused := c.lblk h 0 }
  let t0 : Hist := { t with sys := t.sys.setHold h b }
  have hself : t0.sys.hold h = b := update_self _ _ _
  have hdead (k : ℕ) (hk : k < c.numlblks) : t.live (c.lblk h k) = false := by
    by_contra hl
    have hused := hlu _ (eq_true_of_ne_false hl)
    rw [hnew k hk] at hused
    exact absurd hused nofun
  have h0 : Blocks c t0 h 0 [c.lblk h 0] := by
    refine ⟨by omega, by rw [hself], ⟨by rw [hself], ?_⟩, fun p => ?_, nofun, fun k _ hk => hnew k hk,
      fun hu => ?_, fun k hk hl => ?_, fun k hk hu _ => ?_⟩
    · rw [Hist.link, if_neg (by simp [t0, hnew 0 (by omega)])]
      rfl
    · rw [mem_singleton]
      constructor
      · rintro rfl
        exact ⟨⟨0, Nat.le_refl 0, rfl⟩, hdead 0 (by omega)⟩
      · rintro ⟨⟨k, hk, rfl⟩, -⟩
        rw [Nat.le_zero.mp hk]
    · exact absurd (hu.symm.trans (hnew 0 (by omega))) nofun
    · exact absurd (hl.symm.trans (hdead k hk)) nofun
    · exact absurd (hu.symm.trans (hnew k hk)) nofun
  exact h0.advance ⟨hg.used, hg.live, hg.header⟩ htwo hfree hunused hlu

end Blocks

end Svr3.Libmalloc
