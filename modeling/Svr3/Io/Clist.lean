import Mathlib.Data.Int.Notation
import Svr3.Lib.Pools
import Svr3.Lib.Run

/-!
# Character lists of `io/clist.c`

A clist chains blocks of characters from `c_cf` to `c_cl`; block `i` is entry `i` of `cfree`. A history
follows which blocks the callers have, what was appended to each clist, and what it has delivered.
-/

namespace Svr3.Clists

open Function List

/-- `CLSIZE`, the `c_size` that `cinit` gives the free list -/
def clsize : ℕ := 64

/-- `struct cblock` -/
structure Cblock where
  c_next : Option ℕ
  c_first : ℕ
  c_last : ℕ
  c_data : ℕ → UInt8

/-- `struct clist` -/
structure Clist where
  c_cc : ℤ
  c_cf : Option ℕ
  c_cl : Option ℕ

/-- The blocks, the head of the free list with its flag, and the clists. -/
structure Sys (L : Type) where
  cblock : ℕ → Cblock
  cfreelist : Option ℕ
  c_flag : Bool
  clist : L → Clist

/-- The characters of a block. -/
def Cblock.text (b : Cblock) : List UInt8 :=
  (List.range' b.c_first (b.c_last - b.c_first)).map b.c_data

variable {L : Type}

def Sys.nexts (s : Sys L) (b : ℕ) : Option ℕ := (s.cblock b).c_next

def Sys.firsts (s : Sys L) (p : L) : Option ℕ := (s.clist p).c_cf

def Sys.lasts (s : Sys L) (p : L) : Option ℕ := (s.clist p).c_cl

def Sys.setBlock (bp : ℕ) (b : Cblock) (s : Sys L) : Sys L :=
  { s with cblock := update s.cblock bp b }

@[simp] theorem cblock_setBlock (s : Sys L) (bp : ℕ) (b : Cblock) :
    (s.setBlock bp b).cblock = update s.cblock bp b := rfl

@[simp] theorem clist_setBlock (s : Sys L) (bp : ℕ) (b : Cblock) :
    (s.setBlock bp b).clist = s.clist := rfl

@[simp] theorem nexts_setBlock (s : Sys L) (bp : ℕ) (b : Cblock) :
    (s.setBlock bp b).nexts = update s.nexts bp b.c_next :=
  Function.comp_update _ _ _ _

@[simp] theorem firsts_setBlock (s : Sys L) (bp : ℕ) (b : Cblock) :
    (s.setBlock bp b).firsts = s.firsts := rfl

@[simp] theorem lasts_setBlock (s : Sys L) (bp : ℕ) (b : Cblock) :
    (s.setBlock bp b).lasts = s.lasts := rfl

/-- `putcf(bp)`: block `bp` goes to the free list, and who waits for one is woken up. -/
def putcf (bp : ℕ) (s : Sys L) : Sys L :=
  { s with
    cblock := update s.cblock bp { s.cblock bp with c_next := s.cfreelist }
    cfreelist := some bp
    c_flag := false }

@[simp] theorem nexts_putcf (s : Sys L) (bp : ℕ) :
    (putcf bp s).nexts = update s.nexts bp s.cfreelist :=
  Function.comp_update _ _ _ _

@[simp] theorem firsts_putcf (s : Sys L) (bp : ℕ) : (putcf bp s).firsts = s.firsts := rfl

@[simp] theorem lasts_putcf (s : Sys L) (bp : ℕ) : (putcf bp s).lasts = s.lasts := rfl

/-- Block `bp` leaves the free list. -/
def Sys.takeFree (bp : ℕ) (c_last : ℕ) (s : Sys L) : Sys L :=
  { s with cfreelist := (s.cblock bp).c_next }.setBlock bp
    { s.cblock bp with c_next := none, c_first := 0, c_last := c_last }

@[simp] theorem firsts_takeFree (s : Sys L) (bp n : ℕ) : (s.takeFree bp n).firsts = s.firsts := rfl

@[simp] theorem lasts_takeFree (s : Sys L) (bp n : ℕ) : (s.takeFree bp n).lasts = s.lasts := rfl

variable [DecidableEq L]

def Sys.setClist (p : L) (l : Clist) (s : Sys L) : Sys L :=
  { s with clist := update s.clist p l }

@[simp] theorem cblock_setClist (s : Sys L) (p : L) (l : Clist) :
    (s.setClist p l).cblock = s.cblock := rfl

@[simp] theorem clist_setClist (s : Sys L) (p : L) (l : Clist) :
    (s.setClist p l).clist = update s.clist p l := rfl

@[simp] theorem cfreelist_setClist (s : Sys L) (p : L) (l : Clist) :
    (s.setClist p l).cfreelist = s.cfreelist := rfl

@[simp] theorem nexts_setClist (s : Sys L) (p : L) (l : Clist) : (s.setClist p l).nexts = s.nexts := rfl

@[simp] theorem firsts_setClist (s : Sys L) (p : L) (l : Clist) :
    (s.setClist p l).firsts = update s.firsts p l.c_cf :=
  Function.comp_update _ _ _ _

@[simp] theorem lasts_setClist (s : Sys L) (p : L) (l : Clist) :
    (s.setClist p l).lasts = update s.lasts p l.c_cl :=
  Function.comp_update _ _ _ _

/-- `if ((p->c_cf = bp->c_next) == NULL) p->c_cl = NULL` -/
def Sys.unlink (p : L) (bp : ℕ) (s : Sys L) : Sys L :=
  s.setClist p { s.clist p with
    c_cf := (s.cblock bp).c_next
    c_cl := if (s.cblock bp).c_next = none then none else (s.clist p).c_cl }

@[simp] theorem cfreelist_unlink (s : Sys L) (p : L) (bp : ℕ) :
    (s.unlink p bp).cfreelist = s.cfreelist := rfl

@[simp] theorem nexts_unlink (s : Sys L) (p : L) (bp : ℕ) : (s.unlink p bp).nexts = s.nexts := rfl

@[simp] theorem firsts_unlink (s : Sys L) (p : L) (bp : ℕ) :
    (s.unlink p bp).firsts = update s.firsts p (s.nexts bp) :=
  firsts_setClist _ _ _

@[simp] theorem lasts_unlink (s : Sys L) (p : L) (bp : ℕ) : (s.unlink p bp).lasts =
    update s.lasts p (if s.nexts bp = none then none else s.lasts p) :=
  lasts_setClist _ _ _

/-- `bp` comes to the end of the list. -/
def Sys.link (p : L) (bp : ℕ) (s : Sys L) : Sys L :=
  match (s.clist p).c_cl with
  | none => s.setClist p { s.clist p with c_cf := some bp, c_cl := some bp }
  | some obp =>
    (s.setBlock obp { s.cblock obp with c_next := some bp }).setClist p
      { s.clist p with c_cl := some bp }

@[simp] theorem cfreelist_link (s : Sys L) (p : L) (bp : ℕ) :
    (s.link p bp).cfreelist = s.cfreelist := by
  rw [Sys.link]
  split <;> rfl

@[simp] theorem lasts_link (s : Sys L) (p : L) (bp : ℕ) :
    (s.link p bp).lasts = update s.lasts p (some bp) := by
  rw [Sys.link]
  split
  · exact lasts_setClist _ _ _
  · exact lasts_setClist _ _ _

@[simp] theorem firsts_link (s : Sys L) (p : L) (bp : ℕ) : (s.link p bp).firsts =
    update s.firsts p ((s.lasts p).elim (some bp) fun _ => s.firsts p) := by
  rw [Sys.link, Sys.lasts]
  split
  next hlast =>
    rw [hlast]
    exact firsts_setClist _ _ _
  next hlast =>
    rw [hlast]
    exact firsts_setClist _ _ _

theorem nexts_link_last (s : Sys L) (p : L) (bp : ℕ) {y : ℕ} (hy : s.lasts p = some y) :
    (s.link p bp).nexts y = some bp := by
  have hlast : (s.clist p).c_cl = some y := hy
  simp [Sys.link, hlast]

theorem nexts_link_of_ne (s : Sys L) (p : L) (bp : ℕ) {y : ℕ} (hy : s.lasts p ≠ some y) :
    (s.link p bp).nexts y = s.nexts y := by
  rw [Sys.link]
  split
  · rfl
  next obp hlast =>
    have hne : y ≠ obp := fun heq => hy (heq ▸ hlast)
    rw [nexts_setClist, nexts_setBlock, update_of_ne hne]

theorem c_cc_link (s : Sys L) (p q : L) (bp : ℕ) :
    ((s.link p bp).clist q).c_cc = (s.clist q).c_cc := by
  by_cases hq : q = p
  · rw [Sys.link, hq]
    split <;> rw [clist_setClist, update_self]
  · rw [Sys.link]
    split <;> rw [clist_setClist, update_of_ne hq]
    rfl

/-- `c = bp->c_data[bp->c_first++]`, with `p->c_cc--` -/
def Sys.fetch (p : L) (bp : ℕ) (s : Sys L) : Sys L :=
  (s.setClist p { s.clist p with c_cc := (s.clist p).c_cc - 1 }).setBlock bp
    { s.cblock bp with c_first := (s.cblock bp).c_first + 1 }

@[simp] theorem cfreelist_fetch (s : Sys L) (p : L) (bp : ℕ) :
    (s.fetch p bp).cfreelist = s.cfreelist := rfl

@[simp] theorem nexts_fetch (s : Sys L) (p : L) (bp : ℕ) : (s.fetch p bp).nexts = s.nexts := by
  rw [Sys.fetch, nexts_setBlock]
  exact update_eq_self _ _

@[simp] theorem firsts_fetch (s : Sys L) (p : L) (bp : ℕ) : (s.fetch p bp).firsts = s.firsts := by
  rw [Sys.fetch, firsts_setBlock, firsts_setClist]
  exact update_eq_self _ _

@[simp] theorem lasts_fetch (s : Sys L) (p : L) (bp : ℕ) : (s.fetch p bp).lasts = s.lasts := by
  rw [Sys.fetch, lasts_setBlock, lasts_setClist]
  exact update_eq_self _ _

/-- `getc(p)`: the character (`none` for -1) and the state, or `none` where it follows a NULL pointer -/
def getc (p : L) (s : Sys L) : Option (Option UInt8 × Sys L) :=
  if (s.clist p).c_cc > 0 then
    match (s.clist p).c_cf with
    | none => none
    | some bp =>
      let c := (s.cblock bp).c_data (s.cblock bp).c_first
      if (s.cblock bp).c_first + 1 = (s.cblock bp).c_last then
        some (some c, putcf bp ((s.fetch p bp).unlink p bp))
      else some (some c, s.fetch p bp)
  else some (none, s)

/-- `bp->c_data[bp->c_last++] = c; p->c_cc++` -/
def Sys.store (c : UInt8) (p : L) (bp : ℕ) (s : Sys L) : Sys L :=
  (s.setBlock bp { s.cblock bp with
    c_data := update (s.cblock bp).c_data (s.cblock bp).c_last c
    c_last := (s.cblock bp).c_last + 1 }).setClist p
      { s.clist p with c_cc := (s.clist p).c_cc + 1 }

@[simp] theorem cfreelist_store (s : Sys L) (c : UInt8) (p : L) (bp : ℕ) :
    (s.store c p bp).cfreelist = s.cfreelist := rfl

@[simp] theorem nexts_store (s : Sys L) (c : UInt8) (p : L) (bp : ℕ) :
    (s.store c p bp).nexts = s.nexts := by
  rw [Sys.store, nexts_setClist, nexts_setBlock]
  exact update_eq_self _ _

@[simp] theorem firsts_store (s : Sys L) (c : UInt8) (p : L) (bp : ℕ) :
    (s.store c p bp).firsts = s.firsts := by
  rw [Sys.store, firsts_setClist, firsts_setBlock]
  exact update_eq_self _ _

@[simp] theorem lasts_store (s : Sys L) (c : UInt8) (p : L) (bp : ℕ) :
    (s.store c p bp).lasts = s.lasts := by
  rw [Sys.store, lasts_setClist, lasts_setBlock]
  exact update_eq_self _ _

/-- `putc(c, p)` -/
def putc (c : UInt8) (p : L) (s : Sys L) : ℤ × Sys L :=
  match (s.clist p).c_cl.filter fun bp => (s.cblock bp).c_last ≠ clsize with
  | some bp => (0, s.store c p bp)
  | none =>
    match s.cfreelist with
    | none => (-1, s)
    | some bp => (0, ((s.takeFree bp 0).link p bp).store c p bp)

def getcf (s : Sys L) : Option ℕ × Sys L :=
  match s.cfreelist with
  | none => (none, s)
  | some bp => (some bp, s.takeFree bp clsize)

def getcb (p : L) (s : Sys L) : Option ℕ × Sys L :=
  match (s.clist p).c_cf with
  | none => (none, s)
  | some bp =>
    let size : ℤ := (s.cblock bp).c_last - (s.cblock bp).c_first
    (some bp,
      (s.setClist p { s.clist p with c_cc := (s.clist p).c_cc - size }).unlink p bp)

def putcb (bp : ℕ) (p : L) (s : Sys L) : Sys L :=
  let s1 := (s.link p bp).setBlock bp { s.cblock bp with c_next := none }
  let size : ℤ := (s.cblock bp).c_last - (s.cblock bp).c_first
  s1.setClist p { s1.clist p with c_cc := (s1.clist p).c_cc + size }

/-- `cinit`, for `v_clist` blocks -/
def cinit (L : Type) (v_clist : ℕ) : Sys L :=
  (List.range v_clist).foldl (fun s cp => putcf cp s)
    { cblock := fun _ => ⟨none, 0, 0, fun _ => 0⟩
      cfreelist := none
      c_flag := false
      clist := fun _ => ⟨0, none, none⟩ }

/-! ## Histories -/

/-- The blocks that callers of `getcf` and `getcb` have, the characters that were appended to each
clist, and those it has delivered. -/
structure Hist (L : Type) where
  sys : Sys L
  out : ℕ → Bool
  put : L → List UInt8
  got : L → List UInt8

/-- `fill` is what a caller makes of a block it has, and `wait` a caller that wants a free block. -/
inductive Act (L : Type)
  | getc (p : L)
  | putc (c : UInt8) (p : L)
  | getcf
  | putcf (bp : ℕ)
  | getcb (p : L)
  | putcb (bp : ℕ) (p : L)
  | fill (bp first last : ℕ) (data : ℕ → UInt8)
  | wait

/-- The callers get the block that a routine returns. -/
def Hist.take (r : Option ℕ × Sys L) (h : Hist L) : Hist L :=
  match r.1 with
  | none => { h with sys := r.2 }
  | some bp => { h with sys := r.2, out := update h.out bp true }

def Hist.logPut (p : L) (cs : List UInt8) (h : Hist L) : Hist L :=
  { h with put := update h.put p (h.put p ++ cs) }

def Hist.logGot (p : L) (cs : List UInt8) (h : Hist L) : Hist L :=
  { h with got := update h.got p (h.got p ++ cs) }

@[simp] theorem logPut_nil (h : Hist L) (p : L) : h.logPut p [] = h := by
  simp [Hist.logPut]

@[simp] theorem logGot_nil (h : Hist L) (p : L) : h.logGot p [] = h := by
  simp [Hist.logGot]

/-- The characters of the block that a routine returns. -/
def Hist.returned (r : Option ℕ × Sys L) : List UInt8 :=
  (r.1.map fun bp => (r.2.cblock bp).text).getD []

/-- Callers put back only blocks that they have, and append only those with characters. -/
def next (h : Hist L) : Act L → Option (Hist L)
  | .getc p => (getc p h.sys).map fun r => { h with sys := r.2 }.logGot p r.1.toList
  | .putc c p =>
    let r := putc c p h.sys
    some ({ h with sys := r.2 }.logPut p (if r.1 = 0 then [c] else []))
  | .getcf => some (h.take (getcf h.sys))
  | .putcf bp =>
    if h.out bp then some { h with sys := putcf bp h.sys, out := update h.out bp false }
    else none
  | .getcb p => some ((h.take (getcb p h.sys)).logGot p (Hist.returned (getcb p h.sys)))
  | .putcb bp p =>
    if h.out bp ∧ (h.sys.cblock bp).c_first < (h.sys.cblock bp).c_last then
      some ({ h with sys := putcb bp p h.sys, out := update h.out bp false }.logPut p
        (h.sys.cblock bp).text)
    else none
  | .fill bp first last data =>
    if h.out bp ∧ first ≤ last ∧ last ≤ clsize then
      let b := { h.sys.cblock bp with c_first := first, c_last := last, c_data := data }
      some { h with sys := h.sys.setBlock bp b }
    else none
  | .wait => some { h with sys := { h.sys with c_flag := true } }

def Step (h : Hist L) (a : Act L) (h' : Hist L) : Prop := next h a = some h'

/-- The history begins when `cinit` has run. -/
def Hist.init (L : Type) (v_clist : ℕ) : Hist L :=
  { sys := cinit L v_clist, out := fun _ => false, put := fun _ => [], got := fun _ => [] }

/-! ## The characters of a chain -/

/-- Two states of a block that differ only in its link. -/
def Cblock.Same (b b' : Cblock) : Prop :=
  b'.c_first = b.c_first ∧ b'.c_last = b.c_last ∧ b'.c_data = b.c_data

theorem Cblock.Same.text {b b' : Cblock} (h : b.Same b') : b'.text = b.text := by
  obtain ⟨hfirst, hlast, hdata⟩ := h
  rw [Cblock.text, hfirst, hlast, hdata]
  rfl

theorem Cblock.same_of_eq {b b' : Cblock} (h : b' = b) : b.Same b' := by
  rw [h]
  exact ⟨rfl, rfl, rfl⟩

/-- Only a link changes when a block comes to the end of a list. -/
theorem Cblock.same_link (s : Sys L) (p : L) (bp b : ℕ) :
    (s.cblock b).Same ((s.link p bp).cblock b) := by
  rw [Sys.link]
  split
  · exact same_of_eq rfl
  next obp hlast =>
    rw [cblock_setClist, cblock_setBlock]
    by_cases hb : b = obp
    · rw [hb, update_self]
      exact ⟨rfl, rfl, rfl⟩
    · exact same_of_eq (update_of_ne hb _ _)

theorem Cblock.text_length (b : Cblock) : b.text.length = b.c_last - b.c_first := by
  rw [Cblock.text, length_map, length_range']

/-- The first character of a block. -/
theorem Cblock.text_fetch (b : Cblock) (h : b.c_first < b.c_last) :
    b.text = b.c_data b.c_first :: { b with c_first := b.c_first + 1 }.text := by
  have hlen : b.c_last - b.c_first = (b.c_last - (b.c_first + 1)) + 1 := by omega
  rw [Cblock.text, hlen, List.range'_succ]
  rfl

/-- The last character of a block. -/
theorem Cblock.text_last (b : Cblock) (h : b.c_first + 1 = b.c_last) :
    b.text = [b.c_data b.c_first] := by
  rw [Cblock.text, ← h, Nat.add_sub_cancel_left]
  rfl

/-- A character that is stored behind the others. -/
theorem Cblock.text_store (b : Cblock) (c : UInt8) (h : b.c_first ≤ b.c_last) :
    { b with c_data := update b.c_data b.c_last c, c_last := b.c_last + 1 }.text =
      b.text ++ [c] := by
  have hlen : b.c_last + 1 - b.c_first = (b.c_last - b.c_first) + 1 := by omega
  have hend : b.c_first + (b.c_last - b.c_first) = b.c_last := by omega
  simp only [Cblock.text]
  rw [hlen, List.range'_1_concat, map_append, hend, map_singleton, update_self]
  congr 1
  apply map_congr_left
  intro i hi
  have hlt := (mem_range'_1.mp hi).2
  exact update_of_ne (by omega) _ _

/-- The blocks `bs` hold what was appended and has not been delivered. -/
structure Chain (cblock : ℕ → Cblock) (cc : ℤ) (put got : List UInt8) (bs : List ℕ) : Prop where
  text : put = got ++ bs.flatMap fun b => (cblock b).text
  count : cc = (bs.flatMap fun b => (cblock b).text).length
  filled : ∀ b ∈ bs, (cblock b).c_first < (cblock b).c_last ∧ (cblock b).c_last ≤ clsize

namespace Chain

variable {cblock cblock' : ℕ → Cblock} {cc : ℤ} {put got : List UInt8} {bs : List ℕ} {b : ℕ}

theorem congr (h : Chain cblock cc put got bs) (hsame : ∀ b ∈ bs, (cblock b).Same (cblock' b)) :
    Chain cblock' cc put got bs := by
  have htext : (bs.flatMap fun b => (cblock' b).text) = bs.flatMap fun b => (cblock b).text := by
    apply flatMap_congr
    intro b hb
    exact (hsame b hb).text
  refine ⟨htext ▸ h.text, htext ▸ h.count, fun b hb => ?_⟩
  obtain ⟨hfirst, hlast, -⟩ := hsame b hb
  rw [hfirst, hlast]
  exact h.filled b hb

/-- A block comes to the end. -/
theorem append (h : Chain cblock cc put got bs)
    (hb : (cblock b).c_first < (cblock b).c_last ∧ (cblock b).c_last ≤ clsize) :
    Chain cblock (cc + ((cblock b).c_last - (cblock b).c_first)) (put ++ (cblock b).text) got
      (bs ++ [b]) := by
  have hlen := (cblock b).text_length
  have hcount := h.count
  refine ⟨?_, ?_, fun b' hb' => ?_⟩
  · rw [h.text, flatMap_append, flatMap_singleton, append_assoc]
  · rw [flatMap_append, flatMap_singleton, length_append, hlen]
    omega
  · rcases mem_append.mp hb' with hb' | hb'
    · exact h.filled b' hb'
    · rw [mem_singleton.mp hb']
      exact hb

/-- The first block is taken away. -/
theorem drop (h : Chain cblock cc put got (b :: bs)) :
    Chain cblock (cc - ((cblock b).c_last - (cblock b).c_first)) put (got ++ (cblock b).text) bs := by
  have hlen := (cblock b).text_length
  have hcount := h.count
  obtain ⟨hlt, -⟩ := h.filled b mem_cons_self
  rw [flatMap_cons, length_append, hlen] at hcount
  refine ⟨?_, ?_, fun b' hb' => h.filled b' (mem_cons_of_mem _ hb')⟩
  · rw [h.text, flatMap_cons, append_assoc]
  · omega

/-- A character is stored in the last block. -/
theorem store (h : Chain cblock cc put got (bs ++ [b])) (c : UInt8)
    (hroom : (cblock b).c_last < clsize)
    (hnew : cblock' b = { cblock b with
      c_data := update (cblock b).c_data (cblock b).c_last c
      c_last := (cblock b).c_last + 1 })
    (hsame : ∀ b' ∈ bs, (cblock b').Same (cblock' b')) :
    Chain cblock' (cc + 1) (put ++ [c]) got (bs ++ [b]) := by
  obtain ⟨hlt, -⟩ := h.filled b (mem_append_right _ (mem_singleton.mpr rfl))
  have htext := (cblock b).text_store c (Nat.le_of_lt hlt)
  rw [← hnew] at htext
  have hflat : ((bs ++ [b]).flatMap fun b => (cblock' b).text) =
      ((bs ++ [b]).flatMap fun b => (cblock b).text) ++ [c] := by
    rw [flatMap_append, flatMap_append, flatMap_singleton, flatMap_singleton,
      htext, append_assoc]
    congr 1
    apply flatMap_congr
    intro b' hb'
    exact (hsame b' hb').text
  refine ⟨?_, ?_, fun b' hb' => ?_⟩
  · rw [hflat, h.text, append_assoc]
  · rw [hflat, length_append, h.count]
    rfl
  · rcases mem_append.mp hb' with hb' | hb'
    · obtain ⟨hfirst, hlast, -⟩ := hsame b' hb'
      rw [hfirst, hlast]
      exact h.filled b' (mem_append_left _ hb')
    · rw [mem_singleton.mp hb', hnew]
      exact ⟨Nat.lt_succ_of_lt hlt, hroom⟩

/-- A character is fetched from the first block, where it was not the only one. -/
theorem fetch (h : Chain cblock cc put got (b :: bs)) (hb : b ∉ bs)
    (hmore : (cblock b).c_first + 1 ≠ (cblock b).c_last) :
    Chain (update cblock b { cblock b with c_first := (cblock b).c_first + 1 }) (cc - 1) put
      (got ++ [(cblock b).c_data (cblock b).c_first]) (b :: bs) := by
  obtain ⟨hlt, hle⟩ := h.filled b mem_cons_self
  have htext := (cblock b).text_fetch hlt
  have hrest : ∀ b' ∈ bs, update cblock b
      { cblock b with c_first := (cblock b).c_first + 1 } b' = cblock b' := by
    intro b' hb'
    exact update_of_ne (ne_of_mem_of_not_mem hb' hb) _ _
  have hflat : (bs.flatMap fun b' => (update cblock b
      { cblock b with c_first := (cblock b).c_first + 1 } b').text) =
      bs.flatMap fun b' => (cblock b').text := by
    apply flatMap_congr
    intro b' hb'
    rw [hrest b' hb']
  have hcount := h.count
  rw [flatMap_cons, htext, cons_append, length_cons] at hcount
  refine ⟨?_, ?_, fun b' hb' => ?_⟩
  · rw [h.text, flatMap_cons, flatMap_cons, htext, hflat, update_self,
      append_assoc]
    rfl
  · rw [flatMap_cons, hflat, update_self, hcount, Int.natCast_add]
    exact Int.add_sub_cancel _ _
  · rcases mem_cons.mp hb' with hb' | hb'
    · rw [hb', update_self]
      exact ⟨by dsimp only; omega, hle⟩
    · rw [hrest b' hb']
      exact h.filled b' (mem_cons_of_mem _ hb')

end Chain

/-! ## Where the blocks are -/

/-- A block that a caller has is held under its own number. -/
def held (out : ℕ → Bool) (b : ℕ) : Option ℕ := if out b then some b else none

theorem held_update (out : ℕ → Bool) (b : ℕ) (v : Bool) :
    held (update out b v) = update (held out) b (if v then some b else none) := by
  funext b'
  by_cases hb : b' = b
  · rw [hb, held, update_self, update_self]
  · rw [held, update_of_ne hb, update_of_ne hb]
    rfl

theorem held_eq_none {out : ℕ → Bool} {b : ℕ} (h : held out b ≠ some b) : held out b = none := by
  by_cases hout : out b
  · exact absurd (if_pos hout) h
  · exact if_neg hout

/-- `fs` is the free list, `qs p` is the chain of `p`, and `own b` says where block `b` is. -/
structure Sound (v_clist : ℕ) (fs : List ℕ) (qs : L → List ℕ) (own : ℕ → Owner L ℕ) (h : Hist L) :
    Prop where
  pool : Pool h.sys.nexts h.sys.cfreelist h.sys.firsts h.sys.lasts (held h.out) fs qs own
  outside : ∀ b, own b = .outside ↔ v_clist ≤ b
  chain : ∀ p, Chain h.sys.cblock (h.sys.clist p).c_cc (h.put p) (h.got p) (qs p)
  room : ∀ b, h.out b = true →
    (h.sys.cblock b).c_first ≤ (h.sys.cblock b).c_last ∧ (h.sys.cblock b).c_last ≤ clsize

def Inv (v_clist : ℕ) (h : Hist L) : Prop := ∃ fs qs own, Sound v_clist fs qs own h

namespace Sound

variable {v_clist b : ℕ} {fs fs' bs : List ℕ} {qs : L → List ℕ} {own own' : ℕ → Owner L ℕ}
  {h h' : Hist L} {p : L}

omit [DecidableEq L] in
theorem first_eq (hs : Sound v_clist fs qs own h) (hq : qs p = b :: bs) :
    (h.sys.clist p).c_cf = some b ∧ h.sys.nexts b = bs.head? := by
  have hlinked := hs.pool.linked p
  rw [hq] at hlinked
  exact ⟨hlinked.1, hlinked.2.head⟩

/-- A step that changes one list, while the blocks of the others keep their characters. -/
theorem on_list (hs : Sound v_clist fs qs own h)
    (hpool : Pool h'.sys.nexts h'.sys.cfreelist h'.sys.firsts h'.sys.lasts (held h'.out) fs'
      (update qs p bs) own')
    (hown : ∀ b, own' b = .outside ↔ own b = .outside)
    (hsame : ∀ q, q ≠ p → ∀ b ∈ qs q, (h.sys.cblock b).Same (h'.sys.cblock b))
    (hlist : ∀ q, q ≠ p →
      (h'.sys.clist q).c_cc = (h.sys.clist q).c_cc ∧ h'.put q = h.put q ∧ h'.got q = h.got q)
    (hchain : Chain h'.sys.cblock (h'.sys.clist p).c_cc (h'.put p) (h'.got p) bs)
    (hroom : ∀ b, h'.out b = true →
      (h'.sys.cblock b).c_first ≤ (h'.sys.cblock b).c_last ∧ (h'.sys.cblock b).c_last ≤ clsize) :
    Sound v_clist fs' (update qs p bs) own' h' := by
  refine ⟨hpool, fun b => (hown b).trans (hs.outside b), fun q => ?_, hroom⟩
  by_cases hq : q = p
  · rw [hq, update_self]
    exact hchain
  · obtain ⟨hcc, hput, hgot⟩ := hlist q hq
    rw [update_of_ne hq, hcc, hput, hgot]
    exact (hs.chain q).congr (hsame q hq)

/-- A step at one block of `p` whose link stays. -/
theorem at_block (hs : Sound v_clist fs qs own h) (hb : b ∈ qs p)
    (hnexts : h'.sys.nexts = h.sys.nexts) (hfree : h'.sys.cfreelist = h.sys.cfreelist)
    (hfirsts : h'.sys.firsts = h.sys.firsts) (hlasts : h'.sys.lasts = h.sys.lasts)
    (hout : h'.out = h.out) (hblock : ∀ b', b' ≠ b → h'.sys.cblock b' = h.sys.cblock b')
    (hlist : ∀ q, q ≠ p →
      (h'.sys.clist q).c_cc = (h.sys.clist q).c_cc ∧ h'.put q = h.put q ∧ h'.got q = h.got q)
    (hchain : Chain h'.sys.cblock (h'.sys.clist p).c_cc (h'.put p) (h'.got p) (qs p)) :
    Sound v_clist fs qs own h' := by
  obtain ⟨-, hother, hheld⟩ := hs.pool.queue_notMem hb
  have hpool := hs.pool
  rw [← hnexts, ← hfree, ← hfirsts, ← hlasts, ← hout, ← update_eq_self p qs] at hpool
  rw [← update_eq_self p qs]
  apply hs.on_list hpool (fun _ => Iff.rfl) _ hlist hchain
  · intro b' hb'
    rw [hout] at hb'
    have hne : b' ≠ b := by
      intro heq
      rw [heq] at hb'
      exact hheld b (if_pos hb')
    rw [hblock b' hne]
    exact hs.room b' hb'
  · intro q hq b' hb'
    exact Cblock.same_of_eq (hblock b' fun heq => hother q hq (heq ▸ hb'))

/-- The first block leaves the list. -/
theorem unlink_pool (hs : Sound v_clist fs qs own h) (hq : qs p = b :: bs) :
    Pool h.sys.nexts h.sys.cfreelist (update h.sys.firsts p (h.sys.nexts b))
      (update h.sys.lasts p (if h.sys.nexts b = none then none else h.sys.lasts p))
      (update (held h.out) b (some b)) fs (update qs p bs)
      (update own b (.held b)) := by
  have hb : b ∈ qs p := hq ▸ mem_cons_self
  obtain ⟨-, -, hheld⟩ := hs.pool.queue_notMem hb
  have hnone := held_eq_none (hheld b)
  have hfront : qs p = [] ++ b :: bs := hq
  have hpre : ∀ y, ([] : List ℕ).getLast? = some y → h.sys.nexts y = h.sys.nexts b :=
    fun _ hy => absurd hy nofun
  have hremove := hs.pool.remove hfront hnone hpre fun _ _ => rfl
  rw [if_pos rfl, nil_append] at hremove
  exact hremove

theorem getc_fetch (hs : Sound v_clist fs qs own h) (hq : qs p = b :: bs)
    (hmore : (h.sys.cblock b).c_first + 1 ≠ (h.sys.cblock b).c_last) :
    Sound v_clist fs qs own
      ({ h with sys := h.sys.fetch p b }.logGot p
        [(h.sys.cblock b).c_data (h.sys.cblock b).c_first]) := by
  have hb : b ∈ qs p := hq ▸ mem_cons_self
  have hnodup := (hs.pool.linked p).nodup
  rw [hq] at hnodup
  have hchain := hs.chain p
  rw [hq] at hchain
  apply hs.at_block hb
  · exact nexts_fetch _ _ _
  · rfl
  · exact firsts_fetch _ _ _
  · exact lasts_fetch _ _ _
  · rfl
  · intro b' hb'
    exact update_of_ne hb' _ _
  · intro q hqp
    simp [Hist.logGot, Sys.fetch, update_of_ne hqp]
  · rw [hq]
    have hfetch := hchain.fetch (nodup_cons.mp hnodup).1 hmore
    simpa [Hist.logGot, Sys.fetch] using hfetch

/-- The first block goes to the free list with its last character. -/
theorem getc_empty (hs : Sound v_clist fs qs own h) (hq : qs p = b :: bs)
    (hlast : (h.sys.cblock b).c_first + 1 = (h.sys.cblock b).c_last) :
    Sound v_clist (b :: fs) (update qs p bs) (update own b .free)
      ({ h with sys := putcf b ((h.sys.fetch p b).unlink p b) }.logGot p
        [(h.sys.cblock b).c_data (h.sys.cblock b).c_first]) := by
  have hb : b ∈ qs p := hq ▸ mem_cons_self
  obtain ⟨-, hother, hheld⟩ := hs.pool.queue_notMem hb
  have hown := (hs.pool.on_queue p b).mp hb
  have hnodup := (hs.pool.linked p).nodup
  rw [hq] at hnodup
  have hnone := held_eq_none (hheld b)
  have hgive := (hs.unlink_pool hq).give (update_self _ _ _)
  have hsame : update (held h.out) b none = held h.out :=
    update_eq_self_iff.mpr hnone.symm
  rw [update_idem, update_idem, hsame] at hgive
  have hchain := hs.chain p
  rw [hq] at hchain
  have hdrop := hchain.drop
  -- the block is the only one that changes
  have hrest (b' : ℕ) (hb' : b' ≠ b) :
      (putcf b ((h.sys.fetch p b).unlink p b)).cblock b' = h.sys.cblock b' := by
    simp [putcf, Sys.unlink, Sys.fetch, update_of_ne hb']
  apply hs.on_list
  · have hfree : (putcf b ((h.sys.fetch p b).unlink p b)).cfreelist = some b := rfl
    simpa [Hist.logGot, hfree] using hgive
  · exact Pool.update_outside (hown ▸ nofun) nofun
  · intro q hqp b' hb'
    exact Cblock.same_of_eq (hrest b' fun heq => hother q hqp (heq ▸ hb'))
  · intro q hqp
    simp [Hist.logGot, putcf, Sys.unlink, Sys.fetch, update_of_ne hqp]
  · rw [(h.sys.cblock b).text_last hlast] at hdrop
    have hsize : ((h.sys.cblock b).c_last : ℤ) - (h.sys.cblock b).c_first = 1 := by omega
    rw [hsize] at hdrop
    have hafter := hdrop.congr fun b' hb' => Cblock.same_of_eq
      (hrest b' (ne_of_mem_of_not_mem hb' (nodup_cons.mp hnodup).1))
    simpa [Hist.logGot, putcf, Sys.unlink, Sys.fetch] using hafter
  · intro b' hb'
    have hsys := hrest b' fun heq => hheld b (if_pos (heq ▸ hb'))
    simp only [Hist.logGot, hsys]
    exact hs.room b' hb'

/-- A character is stored in the last block. -/
theorem putc_store (hs : Sound v_clist fs qs own h) (hq : qs p = bs ++ [b])
    (hfull : (h.sys.cblock b).c_last ≠ clsize) (c : UInt8) :
    Sound v_clist fs qs own ({ h with sys := h.sys.store c p b }.logPut p [c]) := by
  have hb : b ∈ qs p := by
    rw [hq]
    exact mem_append_right _ (mem_singleton.mpr rfl)
  have hnodup := (hs.pool.linked p).nodup
  rw [hq] at hnodup
  have hchain := hs.chain p
  rw [hq] at hchain
  obtain ⟨-, hle⟩ := hs.chain p |>.filled b hb
  apply hs.at_block hb
  · exact nexts_store _ _ _ _
  · rfl
  · exact firsts_store _ _ _ _
  · exact lasts_store _ _ _ _
  · rfl
  · intro b' hb'
    exact update_of_ne hb' _ _
  · intro q hqp
    simp [Hist.logPut, Sys.store, update_of_ne hqp]
  · rw [hq]
    have hnotin : ∀ b' ∈ bs, b' ≠ b := by
      intro b' hb'
      exact (nodup_append.mp hnodup).2.2 b' hb' b (mem_singleton.mpr rfl)
    have hstore := hchain.store c (Nat.lt_of_le_of_ne hle hfull) (update_self _ _ _)
      fun b' hb' => Cblock.same_of_eq (update_of_ne (hnotin b' hb') _ _)
    simpa [Hist.logPut, Sys.store] using hstore

omit [DecidableEq L] in
/-- The first block of the free list is taken, and is on no chain. -/
theorem takeFree_pool (hs : Sound v_clist fs qs own h) (hfree : h.sys.cfreelist = some b) (n : ℕ) :
    (own b = .free ∧ held h.out b = none) ∧
    Pool (h.sys.takeFree b n).nexts (h.sys.takeFree b n).cfreelist h.sys.firsts h.sys.lasts
      (update (held h.out) b (some b)) fs.tail qs (update own b (.held b)) := by
  have hbfs : b ∈ fs := by
    have hlinked := hs.pool.free_linked
    rw [hfree] at hlinked
    exact mem_of_head? hlinked.head.symm
  have hown := (hs.pool.on_free b).mp hbfs
  have hnone : held h.out b = none := by
    apply held_eq_none
    rw [ne_eq, hs.pool.on_held, hown]
    exact nofun
  refine ⟨⟨hown, hnone⟩, (hs.pool.take hfree hnone).congr fun y hy _ => ?_⟩
  have hne : y ≠ b := by
    intro heq
    apply hy b
    rw [heq, update_self]
  rw [Sys.takeFree, nexts_setBlock, update_of_ne hne]
  rfl

/-- `putc` puts the character into a block from the free list. -/
theorem putc_extend (hs : Sound v_clist fs qs own h) (hfree : h.sys.cfreelist = some b) (c : UInt8) :
    Sound v_clist fs.tail (update qs p (qs p ++ [b])) (update own b (.queue p))
      ({ h with sys := ((h.sys.takeFree b 0).link p b).store c p b }.logPut p [c]) := by
  obtain ⟨⟨hown, hnone⟩, hpool⟩ := hs.takeFree_pool hfree 0
  have hnotin (q : L) : b ∉ qs q := by
    rw [hs.pool.on_queue, hown]
    exact nofun
  have hlastne : (h.sys.takeFree b 0).lasts p ≠ some b := by
    intro hlast
    exact hnotin p (mem_of_getLast? ((hs.pool.last_eq p).symm.trans hlast))
  have hself : (h.sys.takeFree b 0).cblock b =
      { h.sys.cblock b with c_next := none, c_first := 0, c_last := 0 } := update_self _ _ _
  have hnext : ((h.sys.takeFree b 0).link p b).nexts b = none := by
    rw [nexts_link_of_ne _ _ _ hlastne, Sys.nexts, hself]
  have happend := hpool.append (update_self _ _ _) hnext
    (fun y hy => nexts_link_last _ _ _ hy) fun y _ hne => nexts_link_of_ne _ _ _ hne
  have hheld : update (held h.out) b none = held h.out :=
    update_eq_self_iff.mpr hnone.symm
  rw [update_idem, update_idem, hheld] at happend
  -- blocks of the lists keep their characters
  have hold (b' : ℕ) (hb' : b' ≠ b) : (h.sys.cblock b').Same
      ((((h.sys.takeFree b 0).link p b).store c p b).cblock b') := by
    have hsame := Cblock.same_link (h.sys.takeFree b 0) p b b'
    rw [Sys.takeFree, cblock_setBlock, update_of_ne hb'] at hsame
    rw [Sys.store, cblock_setClist, cblock_setBlock, update_of_ne hb']
    exact hsame
  have hother (q : L) (hq : q ≠ p) (b' : ℕ) (hb' : b' ∈ qs q) := hold b' fun heq => hnotin q (heq ▸ hb')
  have hnew : ((((h.sys.takeFree b 0).link p b).store c p b).cblock b).c_first = 0 ∧
      ((((h.sys.takeFree b 0).link p b).store c p b).cblock b).c_last = 1 ∧
      ((((h.sys.takeFree b 0).link p b).store c p b).cblock b).text = [c] := by
    obtain ⟨hfirst, hlast, -⟩ := Cblock.same_link (h.sys.takeFree b 0) p b b
    rw [hself] at hfirst hlast
    have hempty : (((h.sys.takeFree b 0).link p b).cblock b).text = [] := by
      apply eq_nil_of_length_eq_zero
      rw [Cblock.text_length, hlast, Nat.zero_sub]
    have hstore := (((h.sys.takeFree b 0).link p b).cblock b).text_store c
      (Nat.le_of_eq (hfirst.trans hlast.symm))
    rw [hempty, nil_append] at hstore
    rw [Sys.store, cblock_setClist, cblock_setBlock, update_self]
    exact ⟨hfirst, congrArg (· + 1) hlast, hstore⟩
  apply hs.on_list
  · simpa [Hist.logPut] using happend
  · exact Pool.update_outside (hown ▸ nofun) nofun
  · exact hother
  · intro q hqp
    have hcc := c_cc_link (h.sys.takeFree b 0) p q b
    simp [Hist.logPut, Sys.store, update_of_ne hqp, hcc]
    rfl
  · have hfilled : ((((h.sys.takeFree b 0).link p b).store c p b).cblock b).c_first <
          ((((h.sys.takeFree b 0).link p b).store c p b).cblock b).c_last ∧
        ((((h.sys.takeFree b 0).link p b).store c p b).cblock b).c_last ≤ clsize := by
      rw [hnew.1, hnew.2.1]
      exact ⟨Nat.one_pos, Nat.le_add_left 1 63⟩
    have hkept := (hs.chain p).congr fun b' hb' => hold b' fun heq => hnotin p (heq ▸ hb')
    have hafter := hkept.append hfilled
    rw [hnew.1, hnew.2.1, hnew.2.2] at hafter
    have hcc := c_cc_link (h.sys.takeFree b 0) p p b
    have hclist : (h.sys.takeFree b 0).clist = h.sys.clist := rfl
    simpa [Hist.logPut, Sys.store, hcc, hclist] using hafter
  · intro b' hb'
    have hne : b' ≠ b := by
      intro heq
      have hout : held h.out b = some b := if_pos (heq ▸ hb')
      rw [hnone] at hout
      exact absurd hout nofun
    obtain ⟨hfirst, hlast, -⟩ := hold b' hne
    simp only [Hist.logPut, hfirst, hlast]
    exact hs.room b' hb'

/-- The first block leaves the list for a caller. -/
theorem getcb_some (hs : Sound v_clist fs qs own h) (hq : qs p = b :: bs) :
    Sound v_clist fs (update qs p bs) (update own b (.held b))
      ((h.take (getcb p h.sys)).logGot p (Hist.returned (getcb p h.sys))) := by
  have hb : b ∈ qs p := hq ▸ mem_cons_self
  obtain ⟨-, hother, hheld⟩ := hs.pool.queue_notMem hb
  have hown := (hs.pool.on_queue p b).mp hb
  have hchain := hs.chain p
  rw [hq] at hchain
  have hsize : getcb p h.sys = (some b,
      (h.sys.setClist p { h.sys.clist p with
        c_cc := (h.sys.clist p).c_cc - ((h.sys.cblock b).c_last - (h.sys.cblock b).c_first) }).unlink
        p b) := by
    rw [getcb, (hs.first_eq hq).1]
  rw [hsize]
  apply hs.on_list
  · have hpool := hs.unlink_pool hq
    have hlast : (h.sys.clist p).c_cl = h.sys.lasts p := rfl
    simpa [Hist.logGot, Hist.take, held_update, hlast] using hpool
  · exact Pool.update_outside (hown ▸ nofun) nofun
  · intro q hqp b' hb'
    exact Cblock.same_of_eq rfl
  · intro q hqp
    simp [Hist.logGot, Hist.take, Sys.unlink, update_of_ne hqp]
  · simpa [Hist.logGot, Hist.take, Hist.returned, Sys.unlink] using hchain.drop
  · intro b' hb'
    by_cases hbb : b' = b
    · obtain ⟨hlt, hle⟩ := hchain.filled b mem_cons_self
      rw [hbb]
      exact ⟨Nat.le_of_lt hlt, hle⟩
    · apply hs.room b'
      simpa [Hist.logGot, Hist.take, update_of_ne hbb] using hb'

/-- A caller appends a block to the list. -/
theorem putcb_sound (hs : Sound v_clist fs qs own h) (hout : h.out b = true)
    (hfilled : (h.sys.cblock b).c_first < (h.sys.cblock b).c_last) :
    Sound v_clist fs (update qs p (qs p ++ [b])) (update own b (.queue p))
      ({ h with sys := putcb b p h.sys, out := update h.out b false }.logPut p
        (h.sys.cblock b).text) := by
  have hheld : held h.out b = some b := if_pos hout
  have hown := (hs.pool.on_held b b).mp hheld
  obtain ⟨-, hnotin⟩ := hs.pool.held_notMem hheld
  have hlastne (y : ℕ) (hy : h.sys.lasts p = some y) : y ≠ b := by
    intro heq
    exact hnotin p (mem_of_getLast? ((hs.pool.last_eq p).symm.trans (heq ▸ hy)))
  have hnext : (putcb b p h.sys).nexts b = none := by
    rw [putcb, nexts_setClist, nexts_setBlock, update_self]
  have hnexts (y : ℕ) (hy : y ≠ b) : (putcb b p h.sys).nexts y = (h.sys.link p b).nexts y := by
    rw [putcb, nexts_setClist, nexts_setBlock, update_of_ne hy]
  have happend := hs.pool.append hheld hnext
    (fun y hy => (hnexts y (hlastne y hy)).trans (nexts_link_last _ _ _ hy))
    fun y hyb hy => (hnexts y hyb).trans (nexts_link_of_ne _ _ _ hy)
  -- only the link of a block changes
  have hsame (y : ℕ) : (h.sys.cblock y).Same ((putcb b p h.sys).cblock y) := by
    rw [putcb, cblock_setClist, cblock_setBlock]
    by_cases hy : y = b
    · rw [hy, update_self]
      exact ⟨rfl, rfl, rfl⟩
    · rw [update_of_ne hy]
      exact Cblock.same_link h.sys p b y
  apply hs.on_list
  · have hfree : (putcb b p h.sys).cfreelist = h.sys.cfreelist := cfreelist_link _ _ _
    have hfirsts : (putcb b p h.sys).firsts = (h.sys.link p b).firsts := by
      rw [putcb, firsts_setClist, firsts_setBlock]
      exact update_eq_self _ _
    have hlasts : (putcb b p h.sys).lasts = (h.sys.link p b).lasts := by
      rw [putcb, lasts_setClist, lasts_setBlock]
      exact update_eq_self _ _
    simpa [Hist.logPut, held_update, hfree, hfirsts, hlasts] using happend
  · exact Pool.update_outside (hown ▸ nofun) nofun
  · exact fun _ _ b' _ => hsame b'
  · intro q hqp
    have hcc := c_cc_link h.sys p q b
    simp [Hist.logPut, putcb, update_of_ne hqp, hcc]
  · obtain ⟨hfirst, hlast, -⟩ := hsame b
    have hnew : ((putcb b p h.sys).cblock b).c_first < ((putcb b p h.sys).cblock b).c_last ∧
        ((putcb b p h.sys).cblock b).c_last ≤ clsize := by
      rw [hfirst, hlast]
      exact ⟨hfilled, (hs.room b hout).2⟩
    have hkept := ((hs.chain p).congr fun b' _ => hsame b').append hnew
    rw [hfirst, hlast, (hsame b).text] at hkept
    have hcc := c_cc_link h.sys p p b
    have hcount : ((putcb b p h.sys).clist p).c_cc =
        (h.sys.clist p).c_cc + ((h.sys.cblock b).c_last - (h.sys.cblock b).c_first) := by
      simp [putcb, hcc]
    simpa [Hist.logPut, hcount] using hkept
  · intro b' hb'
    obtain ⟨hfirst, hlast, -⟩ := hsame b'
    have hout' : h.out b' = true := by
      by_cases hbb : b' = b
      · exact hbb ▸ hout
      · simpa [Hist.logPut, update_of_ne hbb] using hb'
    simp only [Hist.logPut, hfirst, hlast]
    exact hs.room b' hout'

omit [DecidableEq L] in
/-- A step that changes no list, where what a caller has done to its blocks leaves them in bounds. -/
theorem off_lists (hs : Sound v_clist fs qs own h)
    (hpool : Pool h'.sys.nexts h'.sys.cfreelist h'.sys.firsts h'.sys.lasts (held h'.out) fs' qs own')
    (hown : ∀ b, own' b = .outside ↔ own b = .outside)
    (hsame : ∀ q, ∀ b ∈ qs q, (h.sys.cblock b).Same (h'.sys.cblock b))
    (hclist : h'.sys.clist = h.sys.clist) (hput : h'.put = h.put) (hgot : h'.got = h.got)
    (hroom : ∀ b, h'.out b = true →
      (h'.sys.cblock b).c_first ≤ (h'.sys.cblock b).c_last ∧ (h'.sys.cblock b).c_last ≤ clsize) :
    Sound v_clist fs' qs own' h' := by
  refine ⟨hpool, fun b => (hown b).trans (hs.outside b), fun q => ?_, hroom⟩
  rw [hclist, hput, hgot]
  exact (hs.chain q).congr (hsame q)

omit [DecidableEq L] in
theorem getcf_some (hs : Sound v_clist fs qs own h) (hfree : h.sys.cfreelist = some b) :
    Sound v_clist fs.tail qs (update own b (.held b)) (h.take (getcf h.sys)) := by
  obtain ⟨⟨hown, -⟩, hpool⟩ := hs.takeFree_pool hfree clsize
  have hgetcf : getcf h.sys = (some b, h.sys.takeFree b clsize) := by
    rw [getcf, hfree]
  have hblock (b' : ℕ) (hb' : b' ≠ b) : (h.sys.takeFree b clsize).cblock b' = h.sys.cblock b' :=
    update_of_ne hb' _ _
  rw [hgetcf]
  apply hs.off_lists
  · simpa [Hist.take, held_update] using hpool
  · exact Pool.update_outside (hown ▸ nofun) nofun
  · intro q b' hb'
    apply Cblock.same_of_eq (hblock b' _)
    intro heq
    have hq := (hs.pool.on_queue q b').mp hb'
    rw [heq, hown] at hq
    exact absurd hq nofun
  · rfl
  · rfl
  · rfl
  · intro b' hb'
    by_cases hbb : b' = b
    · have hself : (h.sys.takeFree b clsize).cblock b = _ := update_self _ _ _
      simp [hbb, Hist.take, hself]
    · simp only [Hist.take, hblock b' hbb]
      apply hs.room b'
      simpa [Hist.take, update_of_ne hbb] using hb'

omit [DecidableEq L] in
theorem putcf_sound (hs : Sound v_clist fs qs own h) (hout : h.out b = true) :
    Sound v_clist (b :: fs) qs (update own b .free)
      { h with sys := putcf b h.sys, out := update h.out b false } := by
  have hheld : held h.out b = some b := if_pos hout
  have hown := (hs.pool.on_held b b).mp hheld
  have hgive := hs.pool.give hheld
  have hblock (b' : ℕ) (hb' : b' ≠ b) : (putcf b h.sys).cblock b' = h.sys.cblock b' :=
    update_of_ne hb' _ _
  apply hs.off_lists
  · have hfree : (putcf b h.sys).cfreelist = some b := rfl
    simpa [held_update, hfree] using hgive
  · exact Pool.update_outside (hown ▸ nofun) nofun
  · intro q b' hb'
    apply Cblock.same_of_eq (hblock b' _)
    intro heq
    exact (hs.pool.held_notMem hheld).2 q (heq ▸ hb')
  · rfl
  · rfl
  · rfl
  · intro b' hb'
    have hbb : b' ≠ b := by
      intro heq
      simp [heq] at hb'
    simp only [hblock b' hbb]
    apply hs.room b'
    simpa [update_of_ne hbb] using hb'

omit [DecidableEq L] in
theorem fill_sound (hs : Sound v_clist fs qs own h) (hout : h.out b = true) {first last : ℕ}
    (hle : first ≤ last) (hlast : last ≤ clsize) (data : ℕ → UInt8) :
    Sound v_clist fs qs own
      { h with sys := (h.sys.setBlock b
        { h.sys.cblock b with c_first := first, c_last := last, c_data := data }) } := by
  have hheld : held h.out b = some b := if_pos hout
  have hnexts : (h.sys.setBlock b
      { h.sys.cblock b with c_first := first, c_last := last, c_data := data }).nexts =
      h.sys.nexts := by
    rw [nexts_setBlock]
    exact update_eq_self _ _
  apply hs.off_lists
  · dsimp only
    rw [hnexts]
    exact hs.pool
  · exact fun _ => Iff.rfl
  · intro q b' hb'
    have hne : b' ≠ b := fun heq => (hs.pool.held_notMem hheld).2 q (heq ▸ hb')
    exact Cblock.same_of_eq (update_of_ne hne _ _)
  · rfl
  · rfl
  · rfl
  · intro b' hb'
    by_cases hbb : b' = b
    · simp [hbb, hle, hlast]
    · simp only [cblock_setBlock, update_of_ne hbb]
      exact hs.room b' hb'

/-- A list with characters has a first block, which holds some of them. -/
theorem getc_sound (hs : Sound v_clist fs qs own h) (p : L) :
    ∃ r, getc p h.sys = some r ∧ Inv v_clist ({ h with sys := r.2 }.logGot p r.1.toList) := by
  rw [getc]
  split
  next hcc =>
    have hchain := hs.chain p
    cases hq : qs p with
    | nil =>
      have hcount := hchain.count
      rw [hq] at hcount
      rw [hcount] at hcc
      exact absurd hcc (Int.lt_irrefl 0)
    | cons b bs =>
      rw [(hs.first_eq hq).1]
      dsimp only
      split
      next hlast => exact ⟨_, rfl, _, _, _, hs.getc_empty hq hlast⟩
      next hmore => exact ⟨_, rfl, _, _, _, hs.getc_fetch hq hmore⟩
  next =>
    refine ⟨_, rfl, fs, qs, own, ?_⟩
    rw [Option.toList_none, logGot_nil]
    exact hs

theorem putc_sound (hs : Sound v_clist fs qs own h) (c : UInt8) (p : L) :
    Inv v_clist ({ h with sys := (putc c p h.sys).2 }.logPut p
      (if (putc c p h.sys).1 = 0 then [c] else [])) := by
  have hlast := hs.pool.last_eq p
  rw [putc]
  split
  next b hb =>
    obtain ⟨hcl, hroom⟩ := Option.filter_eq_some_iff.mp hb
    obtain ⟨bs, hq⟩ := List.getLast?_eq_some_iff.mp (hlast.symm.trans hcl)
    exact ⟨fs, qs, own, hs.putc_store hq (of_decide_eq_true hroom) c⟩
  next =>
    split
    next =>
      rw [if_neg nofun, logPut_nil]
      exact ⟨fs, qs, own, hs⟩
    next b hfree => exact ⟨_, _, _, hs.putc_extend hfree c⟩

end Sound

/-- Each step keeps the blocks in their places and the characters in order. -/
theorem inv_step {v_clist : ℕ} {h h' : Hist L} {a : Act L} (hs : Inv v_clist h) (ha : Step h a h') :
    Inv v_clist h' := by
  obtain ⟨fs, qs, own, hs⟩ := hs
  cases a with
  | getc p =>
    obtain ⟨r, hr, hinv⟩ := hs.getc_sound p
    rw [Step, next, hr] at ha
    exact Option.some.inj ha ▸ hinv
  | putc c p => exact Option.some.inj ha ▸ hs.putc_sound c p
  | getcf =>
    cases hfree : h.sys.cfreelist with
    | none =>
      have hsame : h.take (getcf h.sys) = h := by
        rw [getcf, hfree]
        rfl
      exact ⟨fs, qs, own, (Option.some.inj ha).symm.trans hsame ▸ hs⟩
    | some b => exact Option.some.inj ha ▸ ⟨_, _, _, hs.getcf_some hfree⟩
  | putcf bp =>
    rw [Step, next] at ha
    split at ha
    next hout => exact Option.some.inj ha ▸ ⟨_, _, _, hs.putcf_sound hout⟩
    next => exact absurd ha nofun
  | getcb p =>
    cases hq : qs p with
    | nil =>
      have hfirst := (hs.pool.linked p).head
      rw [hq] at hfirst
      have hnone : getcb p h.sys = (none, h.sys) := by
        rw [getcb, show (h.sys.clist p).c_cf = none from hfirst]
      have hsame : (h.take (getcb p h.sys)).logGot p (Hist.returned (getcb p h.sys)) = h := by
        rw [hnone]
        exact logGot_nil h p
      exact ⟨fs, qs, own, (Option.some.inj ha).symm.trans hsame ▸ hs⟩
    | cons b bs => exact Option.some.inj ha ▸ ⟨_, _, _, hs.getcb_some hq⟩
  | putcb bp p =>
    rw [Step, next] at ha
    split at ha
    next hout => exact Option.some.inj ha ▸ ⟨_, _, _, hs.putcb_sound hout.1 hout.2⟩
    next => exact absurd ha nofun
  | fill bp first last data =>
    rw [Step, next] at ha
    split at ha
    next hout => exact Option.some.inj ha ▸ ⟨_, _, _, hs.fill_sound hout.1 hout.2.1 hout.2.2 data⟩
    next => exact absurd ha nofun
  | wait => exact Option.some.inj ha ▸ ⟨fs, qs, own, hs.pool, hs.outside, hs.chain, hs.room⟩

omit [DecidableEq L] in
/-- `cinit` gives every block to the free list, and leaves the clists alone. -/
theorem cinit_free (v_clist : ℕ) : (∃ fs, Linked (cinit L v_clist).nexts (cinit L v_clist).cfreelist fs ∧
    ∀ b, b ∈ fs ↔ b < v_clist) ∧ (cinit L v_clist).clist = fun _ => ⟨0, none, none⟩ := by
  induction v_clist with
  | zero => exact ⟨⟨[], rfl, fun b => iff_of_false not_mem_nil (Nat.not_lt_zero b)⟩, rfl⟩
  | succ n ih =>
    obtain ⟨⟨fs, hfs, hmem⟩, hclist⟩ := ih
    have hsucc : cinit L (n + 1) = putcf n (cinit L n) := by
      rw [cinit, range_succ, foldl_append]
      rfl
    rw [hsucc]
    refine ⟨⟨n :: fs, ⟨rfl, ?_⟩, fun b => ?_⟩, hclist⟩
    · rw [nexts_putcf, update_self]
      apply hfs.congr
      intro b hb
      exact update_of_ne (Nat.ne_of_lt ((hmem b).mp hb)) _ _
    · rw [mem_cons, hmem]
      omega

omit [DecidableEq L] in
theorem inv_init (v_clist : ℕ) : Inv v_clist (Hist.init L v_clist) := by
  obtain ⟨⟨fs, hfs, hmem⟩, hclist⟩ := cinit_free (L := L) v_clist
  refine ⟨fs, fun _ => [], fun b => if b < v_clist then .free else .outside, ?_, ?_, ?_, ?_⟩
  · have hfirst (p : L) : (cinit L v_clist).firsts p = none := congrArg (fun l => (l p).c_cf) hclist
    have hlast (p : L) : (cinit L v_clist).lasts p = none := congrArg (fun l => (l p).c_cl) hclist
    refine ⟨hfs, hfirst, hlast, fun b => ?_, fun q b => ?_, fun p b => ?_⟩
    · rw [hmem]
      split
      next hb => exact iff_of_true hb rfl
      next hb => exact iff_of_false hb nofun
    · apply iff_of_false not_mem_nil
      split <;> exact nofun
    · apply iff_of_false nofun
      split <;> exact nofun
  · intro b
    split
    next hb => exact iff_of_false nofun (Nat.not_le.mpr hb)
    next hb => exact iff_of_true rfl (Nat.not_lt.mp hb)
  · exact fun p => ⟨rfl, congrArg (fun l => (l p).c_cc) hclist, fun _ hb => absurd hb not_mem_nil⟩
  · exact nofun

/-! ## The law of the lists -/

inductive Place (L : Type)
  | free
  | list (p : L)
  | caller

/-- The block is at the place. -/
def Hist.At (h : Hist L) (b : ℕ) : Place L → Prop
  | .free => OnList h.sys.nexts h.sys.cfreelist b
  | .list p => OnList h.sys.nexts (h.sys.clist p).c_cf b
  | .caller => h.out b = true

/-- A character from `putc`, a block from the free list that is filled and appended behind it, and the
first character delivered. -/
def mixed : List (Act Unit) :=
  [.putc 97 (), .getcf, .fill 0 3 5 (fun _ => 98), .putcb 0 (), .getc ()]

end Svr3.Clists
