import Mathlib.Data.BitVec
import Svr3.Lib.Heaps

/-!
# The heap and the tree of `pack`

`input`, `heapify` and `packfile` of `cmd/pack/pack.c` up to the call of `output`. A `long` is a natural number here,
which no file of less than `2 ^ 30` bytes goes beyond.
-/

namespace Svr3.Pack

open Function

/-! ## The code -/

def END : ℕ := 256

def BUFSIZ : ℕ := 1024

/-- `struct heap` -/
structure Entry where
  count : ℕ
  node : ℕ
  deriving DecidableEq

/-- The variables of the tree and the heap -/
structure Vars where
  n : ℕ
  heap : ℕ → Entry
  parent : ℕ → ℕ
  lastnode : ℕ
  diffbytes : ℤ
  insize : ℕ

/-- `count[inbuff[--i]&0377] += 2` -/
def tally (b : UInt8) (count : ℕ → ℕ) : ℕ → ℕ := update count b.toNat (count b.toNat + 2)

/-- What the `read`s of a file give: full buffers, and the rest -/
def buffers : ℕ → List UInt8 → List (List UInt8)
  | 0, _ => []
  | fuel + 1, file => if file = [] then [] else file.take BUFSIZ :: buffers fuel (file.drop BUFSIZ)

/-- `count` after `input` -/
def input (file : List UInt8) : ℕ → ℕ :=
  (buffers file.length file).foldl (fun count inbuff => inbuff.foldr tally count) fun _ => 0

/-- The loop of `heapify`, with `heapsubi` -/
def siftLoop (n : ℕ) (heapsubi : Entry) : ℕ → ℕ → (ℕ → Entry) → ℕ → Entry
  | 0, i, heap => update heap i heapsubi
  | fuel + 1, i, heap =>
    if i ≤ n / 2 then
      let k := if (heap (2 * i)).count > (heap (2 * i + 1)).count ∧ 2 * i < n then 2 * i + 1 else 2 * i
      if heapsubi.count < (heap k).count then update heap i heapsubi
      else siftLoop n heapsubi fuel k (update heap i (heap k))
    else update heap i heapsubi

/-- Each round goes down one level, so `n` rounds are enough. -/
def heapify (n i : ℕ) (heap : ℕ → Entry) : ℕ → Entry := siftLoop n (heap i) n i heap

/-- The body of `for (i=END; i>=0; i--)` -/
def place (count : ℕ → ℕ) (i : ℕ) (s : Vars) : Vars :=
  if count i > 0 then
    { s with
      parent := update s.parent i 0
      diffbytes := s.diffbytes + 1
      insize := s.insize + count i
      n := s.n + 1
      heap := update s.heap (s.n + 1) ⟨count i, i⟩ }
  else { s with parent := update s.parent i 0 }

/-- The places `i - 1`, …, 0 -/
def gather (count : ℕ → ℕ) : ℕ → Vars → Vars
  | 0, s => s
  | i + 1, s => gather count i (place count i s)

/-- `for (i=n/2; i>=1; i--)` -/
def build (n : ℕ) : ℕ → (ℕ → Entry) → ℕ → Entry
  | 0, heap => heap
  | i + 1, heap => build n i (heapify n (i + 1) heap)

/-- The body of `while (n > 1)` -/
def merge (s : Vars) : Vars :=
  let lastnode := s.lastnode + 1
  let parent := update s.parent (s.heap 1).node lastnode
  let inc := (s.heap 1).count
  let n := s.n - 1
  let heap := heapify n 1 (update s.heap 1 (s.heap s.n))
  let parent := update parent (heap 1).node lastnode
  { s with
    lastnode := lastnode
    n := n
    parent := parent
    heap := heapify n 1 (update heap 1 ⟨(heap 1).count + inc, lastnode⟩) }

def mergeLoop : ℕ → Vars → Vars
  | 0, s => s
  | fuel + 1, s => if s.n > 1 then mergeLoop fuel (merge s) else s

/-- The tree that the counts give, from the variables as the file before left them -/
def tree (old : Vars) (count : ℕ → ℕ) : Vars :=
  let s := gather count (END + 1) { old with n := 0, diffbytes := -1, insize := 0, lastnode := END }
  let s := mergeLoop s.n { s with heap := build s.n (s.n / 2) s.heap }
  { s with parent := update s.parent s.lastnode 0 }

/-- `for (p=parent[i]; p!=0; p=parent[p])`, from `p` on -/
def climb (parent : ℕ → ℕ) : ℕ → ℕ → ℕ
  | 0, _ => 0
  | fuel + 1, p => if p ≠ 0 then climb parent fuel (parent p) + 1 else 0

/-- `levcount`, `length`, `maxlev` and `bitsout` -/
structure Levels where
  levcount : ℕ → ℕ
  length : ℕ → ℕ
  maxlev : ℕ
  bitsout : ℕ

/-- The length of the code of `i` is put down. -/
def Levels.put (a : Levels) (count : ℕ → ℕ) (i c : ℕ) : Levels where
  levcount := update a.levcount c (a.levcount c + 1)
  length := update a.length i c
  maxlev := if c > a.maxlev then c else a.maxlev
  bitsout := a.bitsout + c * (count i / 2)

/-- `for (i=0; i<=END; i++)`. The numbers on a way up are at most `lastnode` and not 0. -/
def assign (count : ℕ → ℕ) (s : Vars) (old : Levels) : Levels :=
  (List.range (END + 1)).foldl (fun a i => a.put count i (climb s.parent (s.lastnode + 1) (s.parent i)))
    ⟨fun c => if 1 ≤ c ∧ c ≤ 24 then 0 else old.levcount c, old.length, 0, 0⟩

/-- One level of the loop over `maxlev`, …, 1 -/
def pattern (length : ℕ → ℕ) (i : ℕ) (inc : BitVec 32) (b : (ℕ → BitVec 32) × BitVec 32) :
    (ℕ → BitVec 32) × BitVec 32 :=
  let b := (List.range (END + 1)).foldl
    (fun b c => if length c = i then (update b.1 c b.2, b.2 + inc) else b) b
  (b.1, b.2 &&& ~~~inc)

/-- `bits` and `mask` -/
def patterns (length : ℕ → ℕ) : ℕ → BitVec 32 → (ℕ → BitVec 32) × BitVec 32 → ℕ → BitVec 32
  | 0, _, b => b.1
  | i + 1, inc, b => patterns length i (inc <<< 1) (pattern length (i + 1) inc b)

/-- What `packfile` comes to before it calls `output` -/
inductive Outcome where
  | trivial
  | tooMany (a : Levels)
  | noSaving (a : Levels)
  | codes (insize : ℕ) (a : Levels) (bits : ℕ → BitVec 32)

/-- `packfile`, with the variables as the file before left them -/
def packfile (force : Bool) (old : Vars) (levels : Levels) (bits : ℕ → BitVec 32) (file : List UInt8) :
    Outcome :=
  let count := update (input file) END 1
  let s := tree old count
  if s.diffbytes = 1 then .trivial
  else
    let insize := s.insize / 2
    let a := assign count s levels
    if a.maxlev > 24 then .tooMany a
    else
      let outsize : ℤ := (a.bitsout + 7 : ℕ) / 8 + 6 + a.maxlev + s.diffbytes
      if ((insize + BUFSIZ - 1 : ℕ) : ℤ) / BUFSIZ ≤ (outsize + BUFSIZ - 1) / BUFSIZ ∧ !force then .noSaving a
      else .codes insize a (patterns a.length a.maxlev (1#32 <<< 24 >>> a.maxlev) (bits, 0))

/-- The lengths of the codes, if any are computed -/
def Outcome.levels : Outcome → Option Levels
  | .trivial => none
  | .tooMany a => some a
  | .noSaving a => some a
  | .codes _ a _ => some a

/-! ## The heap -/

variable {n i fuel : ℕ} {heap : ℕ → Entry} {heapsubi : Entry}

theorem update_comp_swap (heap : ℕ → Entry) (x : Entry) {i k : ℕ} (hne : i ≠ k) :
    update (update heap i (heap k)) k x = update heap i x ∘ Equiv.swap i k := by
  funext j
  rw [comp_apply]
  by_cases hk : j = k
  · rw [hk, update_self, Equiv.swap_apply_right, update_self]
  · rw [update_of_ne hk]
    by_cases hi : j = i
    · rw [hi, update_self, Equiv.swap_apply_left, update_of_ne hne.symm]
    · rw [update_of_ne hi, Equiv.swap_apply_of_ne_of_ne hi hk, update_of_ne hi]

/-- The item sinks from the place `i` to its own. -/
theorem siftLoop_spec {lo : ℕ} (hs : Sinking Entry.count (update heap i heapsubi) n lo i) (hlo : 1 ≤ lo ∧ lo ≤ i)
    (hin : i ≤ n) (hfuel : n < i + fuel) :
    (∀ j, lo ≤ j → Least Entry.count (siftLoop n heapsubi fuel i heap) n j) ∧
      content (siftLoop n heapsubi fuel i heap) n = content (update heap i heapsubi) n := by
  induction fuel generalizing i heap with
  | zero => omega
  | succ fuel ih =>
    rw [siftLoop]
    split
    next hi =>
      dsimp only
      generalize hk : (if (heap (2 * i)).count > (heap (2 * i + 1)).count ∧ 2 * i < n then 2 * i + 1 else 2 * i) = k
      have hchild : k / 2 = i ∧ k ≤ n ∧ ∀ k', k' / 2 = i → k' ≤ n → (heap k).count ≤ (heap k').count := by
        split at hk
        next hc =>
          refine ⟨by omega, by omega, fun k' h1 h2 => ?_⟩
          rcases show k' = 2 * i ∨ k' = k by omega with rfl | rfl
          · rw [← hk]
            exact hc.1.le
          · exact le_refl _
        next hc =>
          refine ⟨by omega, by omega, fun k' h1 h2 => ?_⟩
          rcases show k' = k ∨ k' = 2 * i + 1 by omega with rfl | rfl
          · exact le_refl _
          · rw [← hk]
            exact not_lt.mp fun hlt => hc ⟨hlt, h2⟩
      obtain ⟨hparent, hkn, hleast⟩ := hchild
      have hother : ∀ k', k' / 2 = i → update heap i heapsubi k' = heap k' := fun k' h =>
        update_of_ne (by omega) _ _
      split
      next hlt =>
        -- the item is in its place
        refine ⟨fun j hj => hs.finish (fun k' h1 h2 => ?_) hj, rfl⟩
        rw [update_self, hother k' h1]
        exact hlt.le.trans (hleast k' h1 h2)
      next hle =>
        -- the least child moves up
        have hswap := update_comp_swap heap heapsubi (show i ≠ k by omega)
        have hnext : Sinking Entry.count (update (update heap i (heap k)) k heapsubi) n lo k := by
          rw [hswap]
          refine hs.swap (by omega) hlo.2 hparent hkn ?_ fun k' h1 h2 => ?_
          · rw [update_self, hother k hparent]
            exact not_lt.mp hle
          · rw [hother k hparent, hother k' h1]
            exact hleast k' h1 h2
        obtain ⟨horder, hcontent⟩ := ih hnext (by omega) hkn (by omega)
        refine ⟨horder, hcontent.trans ?_⟩
        rw [hswap]
        exact content_swap _ (by omega) (by omega)
    next hi => exact ⟨fun j hj => hs.finish (fun k' h1 h2 => by omega) hj, rfl⟩

/-- `heapify` -/
theorem heapify_spec (hi : 1 ≤ i ∧ i ≤ n) (hbelow : ∀ j, i < j → Least Entry.count heap n j) :
    (∀ j, i ≤ j → Least Entry.count (heapify n i heap) n j) ∧ content (heapify n i heap) n = content heap n := by
  have hs : Sinking Entry.count (update heap i (heap i)) n i i := by
    rw [update_eq_self]
    exact ⟨fun j hj hne => hbelow j (by omega), fun hle => by omega⟩
  have h := siftLoop_spec hs ⟨hi.1, Nat.le_refl i⟩ hi.2 (show n < i + n by omega)
  rw [update_eq_self] at h
  exact h

theorem heapify_first (hn : 1 ≤ n) (hbelow : ∀ j, 1 ≤ j → Least Entry.count heap n j) (x : Entry) :
    (∀ j, 1 ≤ j → Least Entry.count (heapify n 1 (update heap 1 x)) n j) ∧
      content (heapify n 1 (update heap 1 x)) n = content (update heap 1 x) n := by
  refine heapify_spec ⟨Nat.le_refl 1, hn⟩ fun j hj k h1 h2 => ?_
  rw [update_of_ne (by omega), update_of_ne (by omega)]
  exact hbelow j hj.le k h1 h2

/-- The items are put in order from the last parent to the first one. -/
theorem build_spec (hi : i ≤ n) (hbelow : ∀ j, i < j → Least Entry.count heap n j) :
    (∀ j, 1 ≤ j → Least Entry.count (build n i heap) n j) ∧ content (build n i heap) n = content heap n := by
  induction i generalizing heap with
  | zero => exact ⟨hbelow, rfl⟩
  | succ i ih =>
    obtain ⟨horder, hcontent⟩ := heapify_spec ⟨Nat.succ_pos i, hi⟩ hbelow
    rw [build, ← hcontent]
    exact ih (by omega) horder

/-! ## The merge -/

/-- The items of the heap, the least one first -/
structure Ordered (s : Vars) : Prop where
  least : ∀ j, 1 ≤ j → Least Entry.count s.heap s.n j

/-- The two least items leave the heap, and their sum comes. -/
theorem merge_spec {s : Vars} (hs : Ordered s) (hn : 1 < s.n) :
    ∃ x y rest, content s.heap s.n = x ::ₘ y ::ₘ rest ∧ (∀ z ∈ y ::ₘ rest, x.count ≤ z.count) ∧
      (∀ z ∈ rest, y.count ≤ z.count) ∧
      content (merge s).heap (merge s).n = ⟨y.count + x.count, s.lastnode + 1⟩ ::ₘ rest ∧ Ordered (merge s) ∧
      (merge s).parent = update (update s.parent x.node (s.lastnode + 1)) y.node (s.lastnode + 1) := by
  obtain ⟨m, hm⟩ : ∃ m, s.n = m + 1 := ⟨s.n - 1, by omega⟩
  have hpop := content_pop s.heap hn.le
  have hsmall : ∀ j, 1 ≤ j → Least Entry.count s.heap m j := fun j hj k h1 h2 => hs.least j hj k h1 (by omega)
  rw [hm, Nat.add_sub_cancel] at hpop
  obtain ⟨horder, hcontent⟩ := heapify_first (show 1 ≤ m by omega) hsmall (s.heap (m + 1))
  rw [← hcontent] at hpop
  generalize hheap : heapify m 1 (update s.heap 1 (s.heap (m + 1))) = heap at horder hpop
  obtain ⟨rest, hfirst, hupdate⟩ := content_update_first heap (show 1 ≤ m by omega)
    ⟨(heap 1).count + (s.heap 1).count, s.lastnode + 1⟩
  obtain ⟨horder', hcontent'⟩ := heapify_first (show 1 ≤ m by omega) horder
    ⟨(heap 1).count + (s.heap 1).count, s.lastnode + 1⟩
  have hmerge : merge s = { s with
      lastnode := s.lastnode + 1
      n := m
      parent := update (update s.parent (s.heap 1).node (s.lastnode + 1)) (heap 1).node (s.lastnode + 1)
      heap := heapify m 1 (update heap 1 ⟨(heap 1).count + (s.heap 1).count, s.lastnode + 1⟩) } := by
    rw [← hheap, merge, hm, Nat.add_sub_cancel]
  have hmin : ∀ {h : ℕ → Entry} {n : ℕ}, (∀ j, 1 ≤ j → Least Entry.count h n j) → ∀ z ∈ content h n,
      (h 1).count ≤ z.count := fun hl z hz => by
    obtain ⟨k, h1, h2, rfl⟩ := mem_content.mp hz
    exact least_first hl ⟨h1, h2⟩
  refine ⟨s.heap 1, heap 1, rest, ?_, fun z hz => ?_, fun z hz => ?_, ?_, ⟨?_⟩, ?_⟩
  · rw [hm, hpop, hfirst]
  · refine hmin hs.least z ?_
    rw [hm, hpop, hfirst]
    exact Multiset.mem_cons_of_mem hz
  · refine hmin horder z ?_
    rw [hfirst]
    exact Multiset.mem_cons_of_mem hz
  · rw [hmerge]
    exact hcontent'.trans hupdate
  · rw [hmerge]
    exact horder'
  · rw [hmerge]

end Svr3.Pack
