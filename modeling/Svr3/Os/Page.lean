import Mathlib.Data.List.Perm.Basic
import Svr3.Lib.Rings

/-!
# Contiguous pages of `os/page.c`

`contmemall` looks for page frames in a row that are all on the free queue, and takes them off.
A frame may be on a hash chain too, from where `premove` removes it. Pages are known by their
numbers; a routine that follows a null pointer, or whose loops take more than `n` turns, gives
`none`.
-/

namespace Svr3.Page

open Function List

/-- A pointer to a `struct pfdat`. A hash chain ends with the address of its slot. -/
inductive Ptr
  | NULL
  | phead
  | page (pfn : ℕ)
  | phashslot (slot : ℕ)
  deriving DecidableEq

def P_QUEUE : UInt8 := 0x01

def P_HASH : UInt8 := 0x04

def P_SWAP : UInt8 := 0x10

def BLKNULL : UInt32 := 0

def DPPSHFT : UInt32 := 1

/-- A `struct pfdat`, but for `pf_next` and `pf_prev`, which `phead` has too. -/
structure Pfd where
  pf_blkno : UInt32
  pf_use : Int16
  pf_dev : Int16
  pf_inumber : Int32
  pf_flags : UInt8
  pf_swpi : UInt8
  pf_rawcnt : UInt8
  pf_hchain : Ptr

structure Core where
  pfdat : ℕ → Pfd
  pf_next : Ptr → Ptr
  pf_prev : Ptr → Ptr
  phash : ℕ → Ptr
  freemem : ℤ
  availrmem : ℤ
  availsmem : ℤ

/-- What does not change after startup. -/
structure Conf where
  kpbase : ℕ
  maxclick : ℕ
  phashmask : UInt32
  t_minarmem : ℤ
  t_minasmem : ℤ

namespace Core

variable (m : Core)

def set (i : ℕ) (d : Pfd) : Core := { m with pfdat := update m.pfdat i d }

def setNext (x y : Ptr) : Core := { m with pf_next := update m.pf_next x y }

def setPrev (x y : Ptr) : Core := { m with pf_prev := update m.pf_prev x y }

def queued (i : ℕ) : Prop := (m.pfdat i).pf_flags &&& P_QUEUE ≠ 0

instance (i : ℕ) : Decidable (m.queued i) := inferInstanceAs (Decidable (_ ≠ _))

/-- The slot of the hash table for the block of a page. -/
def slotOf (c : Conf) (i : ℕ) : ℕ := (((m.pfdat i).pf_blkno >>> DPPSHFT) &&& c.phashmask).toNat

/-- `(x->pf_prev)->pf_next = x->pf_next; (x->pf_next)->pf_prev = x->pf_prev;` -/
def unlink (x : Ptr) : Option Core :=
  if m.pf_prev x = .NULL ∨ m.pf_next x = .NULL then none
  else
    let m := m.setNext (m.pf_prev x) (m.pf_next x)
    some (m.setPrev (m.pf_next x) (m.pf_prev x))

/-- `x` comes behind `phead`. -/
def putHead (x : Ptr) : Core :=
  let m := m.setNext x (m.pf_next .phead)
  let m := m.setPrev x .phead
  let m := m.setNext .phead x
  m.setPrev (m.pf_next x) x

/-- `pfd` leaves its hash chain, where `p` is in front of it, or `pfd` itself. -/
def unchain (slot pfd : ℕ) (p : Ptr) : Core :=
  match p with
  | .page j =>
    if j = pfd then { m with phash := update m.phash slot (m.pfdat pfd).pf_hchain }
    else m.set j { m.pfdat j with pf_hchain := (m.pfdat pfd).pf_hchain }
  | _ => m

/-- `pfd` comes to the head of the free queue if it is on it, and not there yet. -/
def toHead (pfd : ℕ) : Option Core :=
  if m.queued pfd ∧ m.pf_next .phead ≠ .page pfd then
    (m.unlink (.page pfd)).map fun m => m.putHead (.page pfd)
  else some m

end Core

/-- The loop of `premove`, over the hash chain of `slot`. -/
def premoveLoop (slot pfd : ℕ) : ℕ → Core → Ptr → Ptr → Option (Bool × Core)
  | n, m, p, pfd1 =>
    if pfd1 = .phashslot slot then some (false, m)
    else
      match n, pfd1 with
      | n + 1, .page i =>
        if i = pfd then ((m.unchain slot pfd p).toHead pfd).map fun m => (true, m)
        else premoveLoop slot pfd n m (.page i) (m.pfdat i).pf_hchain
      | _, _ => none

/-- `premove(pfd)` -/
def premove (c : Conf) (n : ℕ) (m : Core) (pfd : ℕ) : Option (Bool × Core) :=
  let slot := m.slotOf c pfd
  (premoveLoop slot pfd n m (m.phash slot) (m.phash slot)).map fun (rval, m) =>
    (rval, m.set pfd { m.pfdat pfd with
      pf_blkno := BLKNULL
      pf_hchain := .NULL
      pf_flags := (m.pfdat pfd).pf_flags &&& ~~~(P_HASH ||| P_SWAP)
      pf_dev := 0
      pf_swpi := 0
      pf_inumber := 0 })

/-- The inner loop of the search: `pfd1` and `numpages` behind it. -/
def fitLoop (m : Core) (top : ℕ) : ℕ → ℕ → ℤ → Option (ℕ × ℤ)
  | 0, _, _ => none
  | n + 1, pfd1, numpages =>
    if pfd1 ≤ top then
      let numpages := numpages - 1
      if 0 < numpages then
        if ¬m.queued pfd1 then some (pfd1, numpages) else fitLoop m top n (pfd1 + 1) numpages
      else some (pfd1, numpages)
    else some (pfd1, numpages)

/-- The search of `contmemall`: `pfd` and `pfd1` behind it. -/
def searchLoop (m : Core) (top : ℕ) (npgs : ℤ) : ℕ → ℕ → ℕ → Option (ℕ × ℕ)
  | 0, _, _ => none
  | n + 1, pfd, pfd1 =>
    if pfd < top then
      if m.queued pfd then
        match fitLoop m top (n + 1) (pfd + 1) npgs with
        | none => none
        | some (pfd1, numpages) =>
          if numpages = 0 then some (pfd, pfd1) else searchLoop m top npgs n (pfd1 + 1) pfd1
      else searchLoop m top npgs n (pfd + 1) pfd1
    else some (pfd, pfd1)

/-- A page is taken off the free queue. -/
def takePage (c : Conf) (n : ℕ) (m : Core) (i : ℕ) : Option Core :=
  match if (m.pfdat i).pf_flags &&& P_HASH ≠ 0 then (premove c n m i).map Prod.snd else some m with
  | none => none
  | some m =>
    (m.unlink (.page i)).map fun m =>
      ((m.setNext (.page i) .NULL).setPrev (.page i) .NULL).set i { m.pfdat i with
        pf_blkno := BLKNULL
        pf_use := 1
        pf_flags := 0
        pf_rawcnt := 0 }

/-- The pages from `pfd` to before `pfd1` are taken, the last one first. -/
def takeLoop (c : Conf) (n pfd : ℕ) : ℕ → Core → Option Core
  | 0, m => some m
  | pfd1 + 1, m =>
    if pfd ≤ pfd1 then
      match takePage c n m pfd1 with
      | none => none
      | some m => takeLoop c n pfd pfd1 m
    else some m

/-- `contmemall(npgs)`: the number of the first page, or 0. -/
def contmemall (c : Conf) (n : ℕ) (m : Core) (npgs : ℤ) : Option (ℕ × Core) :=
  if m.freemem < npgs then some (0, m)
  else if m.availsmem - npgs < c.t_minasmem then some (0, m)
  else if m.availrmem - npgs < c.t_minarmem then some (0, m)
  else
    match searchLoop m c.maxclick npgs n c.kpbase 0 with
    | none => none
    | some (pfd, pfd1) =>
      if c.maxclick ≤ pfd then some (0, m)
      else (takeLoop c n pfd pfd1 m).map fun m => (pfd, { m with
        freemem := m.freemem - npgs
        availrmem := m.availrmem - npgs
        availsmem := m.availsmem - npgs })

/-! ## The search -/

section Search

variable {m : Core} {top n a k s : ℕ} {npgs : ℕ}

/-- The inner loop finds the pages behind the first of a row, or comes to the end of memory or to a
page that is not free before it has them all. -/
theorem fitLoop_spec (hk : 1 ≤ k) (hn : top + 2 ≤ a + n) (ha : a ≤ top + 1) :
    ∃ b r, fitLoop m top n a k = some (b, r) ∧ a ≤ b ∧
      (r = 0 ∧ b + 1 = a + k ∧ b ≤ top ∧ (∀ i, a ≤ i → i < b → m.queued i) ∨
        r ≠ 0 ∧ (b + 1 ≤ a + k ∧ top < b ∨ b + 1 < a + k ∧ ¬m.queued b)) := by
  induction n generalizing a k with
  | zero => omega
  | succ n ih =>
    unfold fitLoop
    by_cases htop : a ≤ top
    · rw [if_pos htop]
      simp only
      by_cases hlast : k = 1
      · rw [if_neg (by omega)]
        exact ⟨a, k - 1, rfl, Nat.le_refl a, .inl ⟨by omega, by omega, htop, by omega⟩⟩
      · rw [if_pos (by omega)]
        by_cases hq : m.queued a
        · rw [if_neg (not_not.mpr hq)]
          have hsub : (k : ℤ) - 1 = (k - 1 : ℕ) := by omega
          obtain ⟨b, r, hloop, hab, hcases⟩ := ih (a := a + 1) (k := k - 1) (by omega) (by omega)
            (by omega)
          rw [hsub]
          refine ⟨b, r, hloop, by omega, ?_⟩
          rcases hcases with ⟨hr, hb, hbt, hall⟩ | ⟨hr, ⟨hb, hbt⟩ | ⟨hb, hnq⟩⟩
          · refine .inl ⟨hr, by omega, hbt, fun i hi hib => ?_⟩
            by_cases hia : i = a
            · rw [hia]
              exact hq
            · exact hall i (by omega) hib
          · exact .inr ⟨hr, .inl ⟨by omega, hbt⟩⟩
          · exact .inr ⟨hr, .inr ⟨by omega, hnq⟩⟩
        · rw [if_pos hq]
          exact ⟨a, k - 1, rfl, Nat.le_refl a, .inr ⟨by omega, .inr ⟨by omega, hq⟩⟩⟩
    · rw [if_neg htop]
      exact ⟨a, k, rfl, Nat.le_refl a, .inr ⟨by omega, .inl ⟨by omega, by omega⟩⟩⟩

/-- The pages from `s` on, `npgs` in a row, are all on the free queue. -/
def Free (m : Core) (s npgs : ℕ) : Prop := ∀ i, s ≤ i → i < s + npgs → m.queued i

/-- No row that is free starts before the page where the search is. -/
theorem searchLoop_spec (hnp : 1 ≤ npgs) (p1 : ℕ) (hn : top + 3 ≤ a + n) (hpos : 0 < n) :
    ∃ s e, searchLoop m top npgs n a p1 = some (s, e) ∧
      (s < top → a ≤ s ∧ e = s + npgs ∧ e ≤ top ∧ Free m s npgs) ∧
      (top ≤ s → ∀ t, a ≤ t → t + npgs ≤ top → ¬Free m t npgs) := by
  induction n generalizing a p1 with
  | zero => exact absurd hpos (Nat.lt_irrefl 0)
  | succ n ih =>
    unfold searchLoop
    by_cases htop : a < top
    · rw [if_pos htop]
      by_cases hq : m.queued a
      · rw [if_pos hq]
        have hfuel : top + 2 ≤ a + 1 + (n + 1) := by omega
        have hnext : a + 1 ≤ top + 1 := by omega
        obtain ⟨b, r, hloop, hab, hcases⟩ := fitLoop_spec (m := m) hnp hfuel hnext
        rw [hloop]
        simp only
        rcases hcases with ⟨hr, hb, hbt, hall⟩ | ⟨hr, hb⟩
        · rw [if_pos hr]
          refine ⟨a, b, rfl, fun _ => ⟨Nat.le_refl a, by omega, hbt, fun i hi hib => ?_⟩,
            fun hle => absurd htop (Nat.not_lt_of_le hle)⟩
          by_cases hia : i = a
          · rw [hia]
            exact hq
          · exact hall i (by omega) (by omega)
        · -- a row that starts up to `b` has the page `b` in it, or is not in memory
          rw [if_neg hr]
          obtain ⟨s, e, hsearch, hfound, hnone⟩ := ih b (a := b + 1) (by omega) (by omega)
          refine ⟨s, e, hsearch, fun hs => ?_, fun hs t ht htn hfree => ?_⟩
          · obtain ⟨h1, h2⟩ := hfound hs
            exact ⟨by omega, h2⟩
          · by_cases htb : t ≤ b
            · rcases hb with ⟨hb, hbt⟩ | ⟨hb, hnq⟩
              · omega
              · exact hnq (hfree b htb (by omega))
            · exact hnone hs t (by omega) htn hfree
      · rw [if_neg hq]
        obtain ⟨s, e, hsearch, hfound, hnone⟩ := ih p1 (a := a + 1) (by omega) (by omega)
        refine ⟨s, e, hsearch, fun hs => ?_, fun hs t ht htn hfree => ?_⟩
        · obtain ⟨h1, h2⟩ := hfound hs
          exact ⟨by omega, h2⟩
        · by_cases hta : t = a
          · exact hq (hta ▸ hfree t (Nat.le_refl t) (by omega))
          · exact hnone hs t (by omega) htn hfree
    · rw [if_neg htop]
      refine ⟨a, p1, rfl, fun hs => absurd hs htop, fun _ t ht htn _ => ?_⟩
      omega

end Search

/-! ## The free queue -/

/-- The free queue: the pages `xs` behind `phead`. -/
def Queue (m : Core) (xs : List ℕ) : Prop := Ring m.pf_next m.pf_prev (.phead :: xs.map .page)

/-- Only the links of the free queue may be others. -/
def Relinked (m m' : Core) : Prop := m' = { m with pf_next := m'.pf_next, pf_prev := m'.pf_prev }

section Queue

variable {m m' : Core} {xs pre post : List ℕ} {i : ℕ}

theorem page_injective : Function.Injective Ptr.page := fun _ _ h => Ptr.page.inj h

theorem Queue.nodup (hq : Queue m xs) : xs.Nodup :=
  List.Nodup.of_map Ptr.page (nodup_cons.mp hq.1).2

theorem Queue.unlink (hq : Queue m (pre ++ i :: post)) :
    ∃ m', m.unlink (.page i) = some m' ∧ Queue m' (pre ++ post) ∧ Relinked m m' := by
  have hmem : Ptr.page i ∈ Ptr.phead :: (pre ++ i :: post).map Ptr.page := by simp
  have hnull : Ptr.NULL ∉ Ptr.phead :: (pre ++ i :: post).map Ptr.page := by simp
  have hprev : m.pf_prev (.page i) ≠ .NULL := fun heq => hnull (heq ▸ hq.prev_mem hmem)
  have hnext : m.pf_next (.page i) ≠ .NULL := fun heq => hnull (heq ▸ hq.next_mem hmem)
  have hsame : (m.setNext (m.pf_prev (.page i)) (m.pf_next (.page i))).pf_next (.page i) =
      m.pf_next (.page i) := by
    unfold Core.setNext
    simp only
    by_cases heq : Ptr.page i = m.pf_prev (.page i)
    · rw [← heq, update_self]
    · rw [update_of_ne heq]
  refine ⟨(m.setNext (m.pf_prev (.page i)) (m.pf_next (.page i))).setPrev
    ((m.setNext (m.pf_prev (.page i)) (m.pf_next (.page i))).pf_next (.page i)) (m.pf_prev (.page i)),
    ?_, ?_, rfl⟩
  · unfold Core.unlink
    rw [if_neg (by simp [hprev, hnext])]
    rfl
  · unfold Queue at hq ⊢
    rw [map_append, map_cons] at hq
    rw [map_append, hsame]
    exact hq.remove

theorem Queue.putHead (hq : Queue m xs) (hi : i ∉ xs) :
    Queue (m.putHead (.page i)) (i :: xs) ∧ Relinked m (m.putHead (.page i)) := by
  refine ⟨?_, rfl⟩
  have hmem : Ptr.page i ∉ Ptr.phead :: xs.map Ptr.page := by
    simp [hi]
  have hin := Ring.insert_second hq hmem
  have hsame : update (update m.pf_next (.page i) (m.pf_next .phead)) .phead (.page i)
      (.page i) = m.pf_next .phead := by
    have hne : Ptr.page i ≠ .phead := nofun
    rw [update_of_ne hne, update_self]
  unfold Queue Core.putHead
  simp only [Core.setNext, Core.setPrev, hsame]
  exact hin

theorem Queue.toHead (hq : Queue m xs) (hi : i ∈ xs) :
    ∃ m' xs', m.toHead i = some m' ∧ Queue m' xs' ∧ i ∈ xs' ∧ xs'.erase i = xs.erase i ∧
      Relinked m m' := by
  unfold Core.toHead
  by_cases hmove : m.queued i ∧ m.pf_next .phead ≠ .page i
  · rw [if_pos hmove]
    obtain ⟨pre, post, rfl⟩ := append_of_mem hi
    have hnd := nodup_append.mp hq.nodup
    have hpre : i ∉ pre := fun hp => hnd.2.2 i hp i mem_cons_self rfl
    have hpost : i ∉ post := (nodup_cons.mp hnd.2.1).1
    obtain ⟨m1, hunlink, hq1, hr1⟩ := hq.unlink
    have hnot : i ∉ pre ++ post := by
      rw [mem_append]
      exact fun h => h.elim hpre hpost
    obtain ⟨hq2, hr2⟩ := hq1.putHead hnot
    refine ⟨_, i :: (pre ++ post), by rw [hunlink]; rfl, hq2, mem_cons_self, ?_, ?_⟩
    · rw [erase_cons_head, erase_append_right _ hpre, erase_cons_head]
    · unfold Relinked at hr1 hr2 ⊢
      rw [hr2, hr1]
  · rw [if_neg hmove]
    exact ⟨m, xs, rfl, hq, hi, rfl, rfl⟩

end Queue

/-! ## The hash chains -/

/-- Following `hchain` from `p` runs through the pages of a list and comes to `stop`. -/
def Walk (hchain : ℕ → Ptr) (stop : Ptr) : Ptr → List ℕ → Prop
  | p, [] => p = stop
  | p, i :: is => p = .page i ∧ Walk hchain stop (hchain i) is

def Core.hchain (m : Core) (i : ℕ) : Ptr := (m.pfdat i).pf_hchain

/-- The pages on the hash chain of the slot `s`. -/
structure Chained (c : Conf) (m : Core) (s : ℕ) (ys : List ℕ) : Prop where
  walk : Walk m.hchain (.phashslot s) (m.phash s) ys
  nodup : ys.Nodup
  inside : ∀ i ∈ ys, c.kpbase ≤ i ∧ i < c.maxclick
  flag : ∀ i ∈ ys, (m.pfdat i).pf_flags &&& P_HASH ≠ 0
  slot : ∀ i ∈ ys, m.slotOf c i = s

/-- Only the hash link may be another. -/
def Same (a b : Pfd) : Prop := b = { a with pf_hchain := b.pf_hchain }

/-- The page in front of `i`, or `p` where there is none. -/
def inFront (p : Ptr) (pre : List ℕ) : Ptr := (pre.getLast?.map Ptr.page).getD p

section Hash

variable {c : Conf} {m m' : Core} {hchain hchain' : ℕ → Ptr} {stop p q : Ptr} {is pre post ys xs : List ℕ}
  {i j n s slot : ℕ}

theorem Walk.congr (hw : Walk hchain stop p is) (hsame : ∀ i ∈ is, hchain' i = hchain i) :
    Walk hchain' stop p is := by
  induction is generalizing p with
  | nil => exact hw
  | cons i is ih =>
    refine ⟨hw.1, ?_⟩
    rw [hsame i mem_cons_self]
    exact ih hw.2 fun j hj => hsame j (mem_cons_of_mem i hj)

/-- A page is taken out by the link in front of it. -/
theorem Walk.cut (hw : Walk hchain stop p (pre ++ i :: post)) (hnd : (pre ++ i :: post).Nodup)
    (hlast : ∀ j, pre.getLast? = some j → hchain' j = hchain i)
    (hsame : ∀ j ∈ pre ++ post, pre.getLast? ≠ some j → hchain' j = hchain j)
    (hq : q = if pre = [] then hchain i else p) : Walk hchain' stop q (pre ++ post) := by
  induction pre generalizing p q with
  | nil =>
    rw [hq, if_pos rfl]
    exact hw.2.congr fun j hj => hsame j hj nofun
  | cons k pre ih =>
    rw [hq, if_neg (cons_ne_nil k pre)]
    refine ⟨hw.1, ?_⟩
    rw [cons_append, nodup_cons, mem_append] at hnd
    apply ih hw.2 hnd.2
    · intro j hj
      apply hlast
      rw [List.getLast?_cons, hj]
      rfl
    · intro j hj hne
      apply hsame j (mem_cons_of_mem k hj)
      rw [List.getLast?_cons]
      cases hl : pre.getLast? with
      | none =>
        have hnil := List.getLast?_eq_none_iff.mp hl
        subst hnil
        rintro heq
        obtain rfl : k = j := Option.some.inj heq
        exact hnd.1 (.inr (mem_cons_of_mem _ hj))
      | some x =>
        rw [hl] at hne
        exact hne
    · cases pre with
      | nil =>
        rw [if_pos rfl]
        exact hlast k rfl
      | cons x pre =>
        rw [if_neg (cons_ne_nil x pre)]
        apply hsame k mem_cons_self
        intro heq
        have hmem := mem_of_getLast? (List.getLast?_cons_cons ▸ heq)
        exact hnd.1 (.inl hmem)

theorem premoveLoop_not (hw : Walk m.hchain (.phashslot slot) q is) (hi : i ∉ is) (hn : is.length ≤ n) :
    premoveLoop slot i n m p q = some (false, m) := by
  induction is generalizing p q n with
  | nil =>
    obtain rfl : q = .phashslot slot := hw
    unfold premoveLoop
    rw [if_pos rfl]
  | cons j is ih =>
    obtain ⟨n, rfl⟩ := Nat.exists_eq_add_of_le' (Nat.lt_of_lt_of_le (Nat.succ_pos _) hn)
    obtain ⟨rfl, hrest⟩ := hw
    have hne : j ≠ i := fun heq => hi (heq ▸ mem_cons_self)
    unfold premoveLoop
    rw [if_neg nofun]
    simp only [if_neg hne]
    exact ih hrest (fun hmem => hi (mem_cons_of_mem j hmem)) (Nat.le_of_succ_le_succ hn)

theorem premoveLoop_found (hw : Walk m.hchain (.phashslot slot) q (pre ++ i :: post)) (hi : i ∉ pre)
    (hn : (pre ++ i :: post).length ≤ n) : premoveLoop slot i n m p q =
      ((m.unchain slot i (inFront p pre)).toHead i).map fun m => (true, m) := by
  induction pre generalizing p q n with
  | nil =>
    obtain ⟨n, rfl⟩ := Nat.exists_eq_add_of_le' (Nat.lt_of_lt_of_le (Nat.succ_pos _) hn)
    obtain ⟨rfl, -⟩ := hw
    unfold premoveLoop
    rw [if_neg nofun]
    simp only [if_true]
    rfl
  | cons j pre ih =>
    obtain ⟨n, rfl⟩ := Nat.exists_eq_add_of_le' (Nat.lt_of_lt_of_le (Nat.succ_pos _) hn)
    obtain ⟨rfl, hrest⟩ := hw
    have hne : j ≠ i := fun heq => hi (heq ▸ mem_cons_self)
    have hfront : inFront p (j :: pre) = inFront (.page j) pre := by
      unfold inFront
      rw [List.getLast?_cons]
      cases pre.getLast? <;> rfl
    unfold premoveLoop
    rw [if_neg nofun]
    simp only [if_neg hne]
    rw [hfront]
    exact ih hrest (fun hmem => hi (mem_cons_of_mem j hmem)) (Nat.le_of_succ_le_succ hn)

theorem Same.refl (a : Pfd) : Same a a := rfl

theorem Same.trans {a b d : Pfd} (h1 : Same a b) (h2 : Same b d) : Same a d := by
  unfold Same at h1 h2 ⊢
  rw [h2, h1]

/-- What `unchain` changes, with the pages `pre` in front of `i`. -/
structure Unchained (m m' : Core) (slot i : ℕ) (pre : List ℕ) : Prop where
  same : ∀ k, Same (m.pfdat k) (m'.pfdat k)
  last : ∀ j, pre.getLast? = some j → m'.hchain j = m.hchain i
  other : ∀ j, pre.getLast? ≠ some j → m'.pfdat j = m.pfdat j
  first : m'.phash slot = if pre = [] then m.hchain i else m.phash slot
  phash : ∀ s, s ≠ slot → m'.phash s = m.phash s
  rest : m' = { m with pfdat := m'.pfdat, phash := m'.phash }

theorem unchain_unchained (hw : Walk m.hchain (.phashslot slot) (m.phash slot) (pre ++ i :: post))
    (hi : i ∉ pre) : Unchained m (m.unchain slot i (inFront (m.phash slot) pre)) slot i pre := by
  cases hl : pre.getLast? with
  | none =>
    obtain rfl := List.getLast?_eq_none_iff.mp hl
    have hfirst : m.phash slot = .page i := hw.1
    unfold inFront Core.unchain
    rw [hfirst]
    simp only [List.getLast?_nil, Option.map_none, Option.getD_none, if_true]
    exact ⟨fun _ => rfl, nofun, fun _ _ => rfl, update_self _ _ _,
      fun s hs => update_of_ne hs _ _, rfl⟩
  | some j =>
    have hj := mem_of_getLast? hl
    have hne : j ≠ i := fun heq => hi (heq ▸ hj)
    have hpre : pre ≠ [] := ne_nil_of_mem hj
    unfold inFront Core.unchain
    rw [hl]
    simp only [Option.map_some, Option.getD_some, if_neg hne, Core.set]
    refine ⟨fun k => ?_, fun k hk => ?_, fun k hk => ?_, ?_, fun s _ => rfl, rfl⟩
    · by_cases hkj : k = j
      · subst hkj
        simp only [update_self]
        rfl
      · simp only [update_of_ne hkj]
        exact Same.refl _
    · obtain rfl : j = k := Option.some.inj (hl.symm.trans hk)
      unfold Core.hchain
      simp only [update_self]
    · have hkj : k ≠ j := fun heq => hk (heq ▸ hl)
      simp only [update_of_ne hkj]
    · rw [if_neg hpre]

/-- The pages of a chain are as they were, but for the links. -/
theorem Chained.of_same (hc : Chained c m s ys) {ys' : List ℕ}
    (hw : Walk m'.hchain (.phashslot s) (m'.phash s) ys') (hsub : ys'.Sublist ys)
    (hsame : ∀ j ∈ ys', Same (m.pfdat j) (m'.pfdat j)) : Chained c m' s ys' := by
  refine ⟨hw, hc.nodup.sublist hsub, fun j hj => hc.inside j (hsub.subset hj), fun j hj => ?_,
    fun j hj => ?_⟩
  · rw [hsame j hj]
    exact hc.flag j (hsub.subset hj)
  · unfold Core.slotOf
    rw [hsame j hj]
    exact hc.slot j (hsub.subset hj)

theorem Chained.length_le (hc : Chained c m s ys) : ys.length ≤ c.maxclick := by
  have hsub : ys ⊆ List.range c.maxclick := fun j hj => mem_range.mpr (hc.inside j hj).2
  have := (subperm_of_subset hc.nodup hsub).length_le
  rw [length_range] at this
  exact this

/-- The chains do not meet. -/
theorem Chained.apart (hc : Chained c m s ys) {s' : ℕ} {ys' : List ℕ} (hc' : Chained c m s' ys')
    (hne : s ≠ s') (hj : j ∈ ys) : j ∉ ys' := fun hj' =>
  hne ((hc.slot j hj).symm.trans (hc'.slot j hj'))

/-- What `premove` leaves, with the page `i` on no hash chain. -/
structure Premoved (c : Conf) (m m' : Core) (i : ℕ) (xs : List ℕ) : Prop where
  queue : ∃ xs', Queue m' xs' ∧ i ∈ xs' ∧ xs'.erase i = xs.erase i
  chains : ∀ s, ∃ ys, Chained c m' s ys ∧ i ∉ ys
  others : ∀ j, j ≠ i → Same (m.pfdat j) (m'.pfdat j)
  freemem : m'.freemem = m.freemem
  availrmem : m'.availrmem = m.availrmem
  availsmem : m'.availsmem = m.availsmem

/-- The fields of `i` may be others if it is on no chain. -/
theorem Premoved.set (hp : Premoved c m m' i xs) (d : Pfd) : Premoved c m (m'.set i d) i xs := by
  have hother {j : ℕ} (hj : j ≠ i) : (m'.set i d).pfdat j = m'.pfdat j := update_of_ne hj _ _
  refine ⟨hp.queue, fun s => ?_, fun j hj => ?_, hp.freemem, hp.availrmem, hp.availsmem⟩
  · obtain ⟨ys, hc, hi⟩ := hp.chains s
    have hne (j : ℕ) (hj : j ∈ ys) : j ≠ i := fun heq => hi (heq ▸ hj)
    refine ⟨ys, hc.of_same (hc.walk.congr fun j hj => ?_) (List.Sublist.refl ys) fun j hj => ?_, hi⟩
    · exact congrArg Pfd.pf_hchain (hother (hne j hj))
    · rw [hother (hne j hj)]
      exact Same.refl _
  · rw [hother hj]
    exact hp.others j hj

theorem premove_spec (hh : ∀ s, ∃ ys, Chained c m s ys) (hq : Queue m xs) (hi : i ∈ xs)
    (hn : c.maxclick ≤ n) : ∃ r m', premove c n m i = some (r, m') ∧ Premoved c m m' i xs := by
  choose chain hchain using hh
  have hys := hchain (m.slotOf c i)
  have hlen := hys.length_le.trans hn
  unfold premove
  simp only
  by_cases hmem : i ∈ chain (m.slotOf c i)
  · obtain ⟨pre, post, hsplit⟩ := append_of_mem hmem
    rw [hsplit] at hys hlen hmem
    have hnd := nodup_append.mp hys.nodup
    have hpre : i ∉ pre := fun hp => hnd.2.2 i hp i mem_cons_self rfl
    have hpost : i ∉ post := (nodup_cons.mp hnd.2.1).1
    have hun := unchain_unchained hys.walk hpre
    rw [premoveLoop_found hys.walk hpre hlen]
    generalize m.unchain (m.slotOf c i) i (inFront (m.phash (m.slotOf c i)) pre) = m1 at hun ⊢
    have hq1 : Queue m1 xs := by
      rw [hun.rest]
      exact hq
    obtain ⟨m2, xs', hhead, hq2, hi2, herase, hre⟩ := hq1.toHead hi
    rw [hhead]
    refine ⟨true, _, rfl, Premoved.set ⟨⟨xs', hq2, hi2, herase⟩, fun s => ?_, fun j _ => ?_, ?_, ?_, ?_⟩ _⟩
    · have hpf : m2.pfdat = m1.pfdat := by rw [hre]
      have hph : m2.phash = m1.phash := by rw [hre]
      have hhc : m2.hchain = m1.hchain := by
        unfold Core.hchain
        rw [hpf]
      have hsame (j : ℕ) : Same (m.pfdat j) (m2.pfdat j) := by
        rw [hpf]
        exact hun.same j
      by_cases hs : s = m.slotOf c i
      · subst hs
        have hsub : (pre ++ post).Sublist (pre ++ i :: post) :=
          (List.Sublist.refl pre).append (sublist_cons_self i post)
        refine ⟨pre ++ post, hys.of_same ?_ hsub fun j _ => hsame j, ?_⟩
        · rw [hhc, hph]
          exact hys.walk.cut hys.nodup hun.last
            (fun j _ hne => congrArg Pfd.pf_hchain (hun.other j hne)) hun.first
        · rw [mem_append]
          exact fun h => h.elim hpre hpost
      · have hzs := hchain s
        have hout (j : ℕ) (hj : j ∈ pre ++ i :: post) : j ∉ chain s :=
          hys.apart hzs (Ne.symm hs) hj
        refine ⟨chain s, hzs.of_same ?_ (List.Sublist.refl _) fun j _ => hsame j, hout i hmem⟩
        rw [hhc, hph, hun.phash s hs]
        apply hzs.walk.congr
        intro j hj
        apply congrArg Pfd.pf_hchain
        apply hun.other j
        intro hl
        exact hout j (mem_append_left _ (mem_of_getLast? hl)) hj
    · have hpf : m2.pfdat = m1.pfdat := by rw [hre]
      rw [hpf]
      exact hun.same j
    · rw [hre, hun.rest]
    · rw [hre, hun.rest]
    · rw [hre, hun.rest]
  · rw [premoveLoop_not hys.walk hmem hlen]
    refine ⟨false, _, rfl, Premoved.set ⟨⟨xs, hq, hi, rfl⟩, fun s => ?_, fun j _ => Same.refl _, rfl, rfl,
      rfl⟩ _⟩
    refine ⟨chain s, hchain s, fun hmem' => hmem ?_⟩
    rw [(hchain s).slot i hmem']
    exact hmem'

end Hash

/-! ## Taking pages -/

/-- The pages `xs` are those on the free queue, and every hash chain comes to its end. -/
structure Sound (c : Conf) (m : Core) (xs : List ℕ) : Prop where
  queue : Queue m xs
  mem : ∀ i, i ∈ xs ↔ c.kpbase ≤ i ∧ i < c.maxclick ∧ m.queued i
  chains : ∀ s, ∃ ys, Chained c m s ys

/-- The pages `run` are taken, and the others as they were, but for hash links. -/
structure Took (m m' : Core) (run : ℕ → Prop) : Prop where
  own : ∀ i, run i → (m'.pfdat i).pf_use = 1 ∧ (m'.pfdat i).pf_flags = 0 ∧
    (m'.pfdat i).pf_blkno = BLKNULL ∧ (m'.pfdat i).pf_rawcnt = 0
  others : ∀ i, ¬run i → Same (m.pfdat i) (m'.pfdat i)
  freemem : m'.freemem = m.freemem
  availrmem : m'.availrmem = m.availrmem
  availsmem : m'.availsmem = m.availsmem

section Take

variable {c : Conf} {m m' : Core} {xs : List ℕ} {i n s e : ℕ}

theorem takePage_spec (hs : Sound c m xs) (hi : i ∈ xs) (hn : c.maxclick ≤ n) :
    ∃ m', takePage c n m i = some m' ∧ Sound c m' (xs.erase i) ∧ Took m m' fun j => j = i := by
  obtain ⟨m1, hm1, hp⟩ : ∃ m1, (if (m.pfdat i).pf_flags &&& P_HASH ≠ 0 then
      (premove c n m i).map Prod.snd else some m) = some m1 ∧ Premoved c m m1 i xs := by
    by_cases hflag : (m.pfdat i).pf_flags &&& P_HASH ≠ 0
    · obtain ⟨r, m1, hcall, hp⟩ := premove_spec hs.chains hs.queue hi hn
      exact ⟨m1, by rw [if_pos hflag, hcall]; rfl, hp⟩
    · refine ⟨m, if_neg hflag, ⟨xs, hs.queue, hi, rfl⟩, fun s => ?_, fun _ _ => Same.refl _, rfl, rfl,
        rfl⟩
      obtain ⟨ys, hc⟩ := hs.chains s
      exact ⟨ys, hc, fun hmem => hflag (hc.flag i hmem)⟩
  obtain ⟨xs', hq, hmem, herase⟩ := hp.queue
  have hnd := hs.queue.nodup
  have hnd' := hq.nodup
  obtain ⟨pre, post, hsplit⟩ := append_of_mem hmem
  rw [hsplit] at hq hnd' herase
  have hpre : i ∉ pre := fun h => (nodup_append.mp hnd').2.2 i h i mem_cons_self rfl
  rw [erase_append_right _ hpre, erase_cons_head] at herase
  obtain ⟨m2, hunlink, hq2, hre⟩ := hq.unlink
  rw [herase] at hq2
  have hout : i ∉ xs.erase i := hnd.not_mem_erase
  have hpf2 : m2.pfdat = m1.pfdat := by rw [hre]
  have hph2 : m2.phash = m1.phash := by rw [hre]
  unfold takePage
  rw [hm1]
  simp only [hunlink, Option.map_some]
  refine ⟨_, rfl, ?_⟩
  obtain ⟨m3, hm3⟩ : ∃ m3, m3 = ((m2.setNext (.page i) .NULL).setPrev (.page i) .NULL).set i
      { m2.pfdat i with pf_blkno := BLKNULL, pf_use := 1, pf_flags := 0, pf_rawcnt := 0 } := ⟨_, rfl⟩
  rw [← hm3]
  have hself : m3.pfdat i =
      { m2.pfdat i with pf_blkno := BLKNULL, pf_use := 1, pf_flags := 0, pf_rawcnt := 0 } := by
    rw [hm3]
    exact update_self _ _ _
  have hother {j : ℕ} (hj : j ≠ i) : m3.pfdat j = m1.pfdat j := by
    rw [hm3, ← hpf2]
    exact update_of_ne hj _ _
  have hsame {j : ℕ} (hj : j ≠ i) : Same (m.pfdat j) (m3.pfdat j) := by
    rw [hother hj]
    exact hp.others j hj
  have hqueued {j : ℕ} (hj : j ≠ i) : m3.queued j ↔ m.queued j := by
    unfold Core.queued
    rw [hsame hj]
  refine ⟨⟨?_, fun j => ?_, fun s => ?_⟩, fun j hj => ?_, fun j hj => hsame hj, ?_, ?_, ?_⟩
  · rw [hm3]
    have hne (x : Ptr) (hx : x ∈ Ptr.phead :: (xs.erase i).map Ptr.page) : x ≠ .page i := by
      rintro rfl
      rcases mem_cons.mp hx with hx | hx
      · exact absurd hx nofun
      · exact hout ((mem_map_of_injective page_injective).mp hx)
    exact hq2.congr (fun x hx => update_of_ne (hne x hx) _ _)
      fun x hx => update_of_ne (hne x hx) _ _
  · rw [hnd.mem_erase_iff, hs.mem]
    by_cases hj : j = i
    · refine iff_of_false (fun h => h.1 hj) fun h => ?_
      have hflags : (m3.pfdat i).pf_flags &&& P_QUEUE ≠ 0 := hj ▸ h.2.2
      have hzero : (0 : UInt8) &&& P_QUEUE = 0 := by decide
      rw [hself] at hflags
      exact hflags hzero
    · rw [hqueued hj]
      exact and_iff_right hj
  · obtain ⟨ys, hc, hi'⟩ := hp.chains s
    have hne (j : ℕ) (hj : j ∈ ys) : j ≠ i := fun heq => hi' (heq ▸ hj)
    refine ⟨ys, hc.of_same ?_ (List.Sublist.refl ys) fun j hj => ?_⟩
    · have hph3 : m3.phash = m1.phash := by
        rw [hm3]
        exact hph2
      rw [hph3]
      exact hc.walk.congr fun j hj => congrArg Pfd.pf_hchain (hother (hne j hj))
    · rw [hother (hne j hj)]
      exact Same.refl _
  · obtain rfl : j = i := hj
    rw [hself]
    exact ⟨rfl, rfl, rfl, rfl⟩
  · rw [hm3, ← hp.freemem, hre]
    rfl
  · rw [hm3, ← hp.availrmem, hre]
    rfl
  · rw [hm3, ← hp.availsmem, hre]
    rfl

theorem Took.trans {run run' : ℕ → Prop} {m'' : Core} (h1 : Took m m' run)
    (h2 : Took m' m'' run') : Took m m'' fun i => run i ∨ run' i := by
  refine ⟨fun i hi => ?_, fun i hi => ?_, h2.freemem.trans h1.freemem, h2.availrmem.trans h1.availrmem,
    h2.availsmem.trans h1.availsmem⟩
  · by_cases h : run' i
    · exact h2.own i h
    · have hsame := h2.others i h
      rw [hsame]
      exact h1.own i (hi.resolve_right h)
  · rw [not_or] at hi
    exact (h1.others i hi.1).trans (h2.others i hi.2)

/-- The pages from `s` to before `e` are taken off the free queue. -/
theorem takeLoop_spec (hs : Sound c m xs) (hall : ∀ i, s ≤ i → i < e → i ∈ xs) (hn : c.maxclick ≤ n) :
    ∃ m', takeLoop c n s e m = some m' ∧
      Sound c m' (xs.filter fun i => ¬(s ≤ i ∧ i < e)) ∧ Took m m' fun i => s ≤ i ∧ i < e := by
  induction e generalizing m xs with
  | zero =>
    refine ⟨m, rfl, ?_, fun i hi => absurd hi.2 (Nat.not_lt_zero i), fun _ _ => Same.refl _, rfl, rfl, rfl⟩
    have hfilter : (xs.filter fun i => ¬(s ≤ i ∧ i < 0)) = xs := by simp
    rw [hfilter]
    exact hs
  | succ e ih =>
    unfold takeLoop
    by_cases hle : s ≤ e
    · rw [if_pos hle]
      obtain ⟨m1, hpage, hs1, ht1⟩ := takePage_spec hs (hall e hle (Nat.lt_succ_self e)) hn
      have hnd := hs.queue.nodup
      obtain ⟨m2, hloop, hs2, ht2⟩ := ih hs1 fun i hi hie =>
        (hnd.mem_erase_iff).mpr ⟨Nat.ne_of_lt hie, hall i hi (Nat.lt_succ_of_lt hie)⟩
      rw [hpage]
      have hrun : (fun i => i = e ∨ s ≤ i ∧ i < e) = fun i => s ≤ i ∧ i < e + 1 := by
        funext i
        apply propext
        omega
      refine ⟨m2, hloop, ?_, hrun ▸ ht1.trans ht2⟩
      have hfilter : (xs.erase e).filter (fun i => ¬(s ≤ i ∧ i < e)) =
          xs.filter fun i => ¬(s ≤ i ∧ i < e + 1) := by
        rw [hnd.erase_eq_filter, filter_filter]
        apply filter_congr
        intro i _
        rw [Bool.eq_iff_iff]
        simp only [bne_iff_ne, Bool.and_eq_true, decide_eq_true_eq]
        omega
      rw [← hfilter]
      exact hs2
    · rw [if_neg hle]
      refine ⟨m, rfl, ?_, fun i hi => absurd hi (by omega), fun _ _ => Same.refl _, rfl, rfl, rfl⟩
      have hfilter : (xs.filter fun i => ¬(s ≤ i ∧ i < e + 1)) = xs := by
        apply filter_eq_self.mpr
        intro i _
        rw [decide_eq_true_eq]
        omega
      rw [hfilter]
      exact hs

/-- The limits leave room for `npgs` pages. -/
structure Permits (c : Conf) (m : Core) (npgs : ℕ) : Prop where
  smem : c.t_minasmem ≤ m.availsmem - npgs
  rmem : c.t_minarmem ≤ m.availrmem - npgs

/-- The pages of memory from `s` on, `npgs` in a row, are all on the free queue. -/
structure Row (c : Conf) (m : Core) (npgs s : ℕ) : Prop where
  above : c.kpbase ≤ s
  below : s + npgs ≤ c.maxclick
  free : Free m s npgs

/-- The row from `s` on is taken, and paid for. -/
structure Allocated (c : Conf) (m m' : Core) (xs : List ℕ) (npgs s : ℕ) : Prop where
  row : Row c m npgs s
  sound : Sound c m' (xs.filter fun i => ¬(s ≤ i ∧ i < s + npgs))
  own : ∀ i, s ≤ i → i < s + npgs → (m'.pfdat i).pf_use = 1 ∧ (m'.pfdat i).pf_flags = 0 ∧
    (m'.pfdat i).pf_blkno = BLKNULL ∧ (m'.pfdat i).pf_rawcnt = 0
  others : ∀ i, ¬(s ≤ i ∧ i < s + npgs) → Same (m.pfdat i) (m'.pfdat i)
  freemem : m'.freemem = m.freemem - npgs
  availrmem : m'.availrmem = m.availrmem - npgs
  availsmem : m'.availsmem = m.availsmem - npgs

/-- A row has as many pages on the free queue. -/
theorem Row.le_length (hs : Sound c m xs) {npgs : ℕ} (hr : Row c m npgs s) : npgs ≤ xs.length := by
  have hsub : List.range' s npgs ⊆ xs := by
    intro i hi
    obtain ⟨h1, h2⟩ := mem_range'_1.mp hi
    have h3 := hr.above
    have h4 := hr.below
    exact (hs.mem i).mpr ⟨by omega, by omega, hr.free i h1 h2⟩
  have := (subperm_of_subset nodup_range' hsub).length_le
  rw [length_range'] at this
  exact this

/-- `contmemall` takes a row of free pages if the limits permit and there is one, and else changes
nothing and returns NULL. -/
theorem contmemall_exact (hs : Sound c m xs) (hcount : m.freemem = xs.length) (hbase : 0 < c.kpbase)
    {npgs : ℕ} (hnp : 1 ≤ npgs) (hn : c.maxclick + 3 ≤ n) :
    ∃ pfn m', contmemall c n m npgs = some (pfn, m') ∧
      (pfn = 0 ∧ m' = m ∧ (Permits c m npgs → ∀ s, ¬Row c m npgs s) ∨
        pfn ≠ 0 ∧ Permits c m npgs ∧ Allocated c m m' xs npgs pfn) := by
  unfold contmemall
  by_cases hfew : m.freemem < npgs
  · rw [if_pos hfew]
    refine ⟨0, m, rfl, .inl ⟨rfl, rfl, fun _ s hr => ?_⟩⟩
    have := hr.le_length hs
    omega
  · rw [if_neg hfew]
    by_cases hsmem : m.availsmem - npgs < c.t_minasmem
    · rw [if_pos hsmem]
      exact ⟨0, m, rfl, .inl ⟨rfl, rfl, fun hp => absurd hp.smem (Int.not_le.mpr hsmem)⟩⟩
    · rw [if_neg hsmem]
      by_cases hrmem : m.availrmem - npgs < c.t_minarmem
      · rw [if_pos hrmem]
        exact ⟨0, m, rfl, .inl ⟨rfl, rfl, fun hp => absurd hp.rmem (Int.not_le.mpr hrmem)⟩⟩
      · rw [if_neg hrmem]
        have hfuel : c.maxclick + 3 ≤ c.kpbase + n := by omega
        have hpos : 0 < n := by omega
        obtain ⟨s, e, hsearch, hfound, hnone⟩ := searchLoop_spec (m := m) hnp 0 hfuel hpos
        rw [hsearch]
        simp only
        by_cases htop : c.maxclick ≤ s
        · rw [if_pos htop]
          exact ⟨0, m, rfl, .inl ⟨rfl, rfl, fun _ t hr => hnone htop t hr.above hr.below hr.free⟩⟩
        · rw [if_neg htop]
          obtain ⟨hbase', rfl, hend, hfree⟩ := hfound (Nat.lt_of_not_le htop)
          have hall (i : ℕ) (hi : s ≤ i) (hie : i < s + npgs) : i ∈ xs :=
            (hs.mem i).mpr ⟨by omega, by omega, hfree i hi hie⟩
          obtain ⟨m1, htake, hs1, ht⟩ := takeLoop_spec hs hall (Nat.le_of_add_right_le hn)
          rw [htake]
          refine ⟨s, _, rfl, .inr ⟨by omega, ⟨Int.not_lt.mp hsmem, Int.not_lt.mp hrmem⟩,
            ⟨hbase', hend, hfree⟩, ⟨hs1.queue, hs1.mem, fun t => ?_⟩, fun i hi hie => ht.own i ⟨hi, hie⟩,
            ht.others, ?_, ?_, ?_⟩⟩
          · obtain ⟨ys, hc⟩ := hs1.chains t
            exact ⟨ys, hc.of_same hc.walk (List.Sublist.refl ys) fun _ _ => Same.refl _⟩
          · simp only [ht.freemem]
          · simp only [ht.availrmem]
          · simp only [ht.availsmem]

end Take

/-- The pages 1 to 4, of which 2 to 4 are on the free queue, and 3 on a hash chain too. -/
def fourPages : Core where
  pfdat i :=
    { pf_blkno := if i = 3 then 2 else 0
      pf_use := if i = 1 then 1 else 0
      pf_dev := 0
      pf_inumber := 0
      pf_flags := if i = 2 ∨ i = 4 then P_QUEUE else if i = 3 then P_QUEUE ||| P_HASH else 0
      pf_swpi := 0
      pf_rawcnt := 0
      pf_hchain := if i = 3 then .phashslot 1 else .NULL }
  pf_next p :=
    match p with
    | .phead => .page 4
    | .page 4 => .page 2
    | .page 2 => .page 3
    | .page 3 => .phead
    | _ => .NULL
  pf_prev p :=
    match p with
    | .phead => .page 3
    | .page 4 => .phead
    | .page 2 => .page 4
    | .page 3 => .page 2
    | _ => .NULL
  phash s := if s = 1 then .page 3 else .phashslot s
  freemem := 3
  availrmem := 10
  availsmem := 10

def fourConf : Conf := ⟨1, 5, 1, 5, 5⟩

theorem fourPages_sound : Sound fourConf fourPages [4, 2, 3] := by
  refine ⟨⟨by decide, ?_⟩, fun i => ?_, fun s => ?_⟩
  · refine .cons_cons ⟨rfl, rfl⟩ (.cons_cons ⟨rfl, rfl⟩ (.cons_cons ⟨rfl, rfl⟩
      (.cons_cons ⟨rfl, rfl⟩ (.singleton _))))
  · by_cases h2 : i = 2
    · subst h2
      decide
    · by_cases h3 : i = 3
      · subst h3
        decide
      · by_cases h4 : i = 4
        · subst h4
          decide
        · have hnot : ¬fourPages.queued i := by
            unfold Core.queued fourPages
            simp only [h2, h3, h4, or_self, if_false]
            decide
          simp [h2, h3, h4, hnot]
  · by_cases hs : s = 1
    · subst hs
      exact ⟨[3], ⟨rfl, rfl⟩, by decide, by decide, by decide, by decide⟩
    · refine ⟨[], ?_, nodup_nil, nofun, nofun, nofun⟩
      exact if_neg hs

/-- Two of the three pages. -/
theorem contmemall_exact_two : ∃ pfn m', contmemall fourConf 8 fourPages 2 = some (pfn, m') ∧
    (pfn = 0 ∧ m' = fourPages ∧ (Permits fourConf fourPages 2 → ∀ s, ¬Row fourConf fourPages 2 s) ∨
      pfn ≠ 0 ∧ Permits fourConf fourPages 2 ∧ Allocated fourConf fourPages m' [4, 2, 3] 2 pfn) :=
  contmemall_exact fourPages_sound rfl (by decide) (by decide) (by decide)

example : (contmemall fourConf 8 fourPages 2).map (fun r => (r.1, r.2.pf_next .phead)) =
    some (2, .page 4) := by
  decide

end Svr3.Page
