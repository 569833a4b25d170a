import Svr3.Nudnix.AuthHeapRun
import Svr3.Nudnix.AuthList
import Mathlib.Algebra.GroupWithZero.Nat

/-!
# Lists from the user

`addalist` reads the names of a list twice: first to know how long they are, and a second time to write them into
the block it has got. The user may change them in between.
-/

namespace Svr3.AuthList

open Auth List

def BUFSIZ : ℕ := 1024
def MAXNAMES : ℕ := 100

inductive Errno where
  | EPERM | ENOENT | EFAULT | EINVAL | ENOMEM
  deriving DecidableEq

/-- The memory of a user process; `none` where an access faults -/
abbrev User := ℕ → Option Byte

def fuword (um : User) (addr : ℕ) : BitVec 32 :=
  if addr % 2 = 1 then -1
  else
    match um addr, um (addr + 1), um (addr + 2), um (addr + 3) with
    | some a, some b, some c, some d => a ++ b ++ c ++ d
    | _, _, _, _ => -1

/-- The bytes before the next 0; there are at most `n` addresses. -/
def ustring (um : User) : ℕ → ℕ → Option (List Byte)
  | 0, _ => none
  | n + 1, a =>
    match um a with
    | none => none
    | some b => if b = 0 then some [] else (ustring um n (a + 1)).map (b :: ·)

/-- `upath` for a local process: -1, -2, or the string it writes; it looks for the end before it writes. -/
def upath (um : User) (src max : ℕ) : Except ℤ (List Byte) :=
  match ustring um (2 ^ 32) src with
  | none => .error (-1)
  | some s => if s.length ≥ max then .error (-2) else .ok s

/-- `u.u_error = (j == -1)?EFAULT:EINVAL` -/
def pathErrno (j : ℤ) : Errno := if j = -1 then .EFAULT else .EINVAL

/-- The loop that fills `alist`; it has `n` turns left. -/
def readList (um : User) : ℕ → ℕ → Except Errno (List ℕ)
  | 0, _ => .error .EINVAL
  | n + 1, list =>
    if fuword um list = -1 then .error .EFAULT
    else if fuword um list = 0 then .ok []
    else (readList um n (list + 4)).map ((fuword um list).toNat :: ·)

/-- The loop that fills `sizelist` -/
def readSizes (um : User) : List ℕ → Except Errno (List ℕ)
  | [] => .ok []
  | p :: ps =>
    match upath um p BUFSIZ with
    | .error j => .error (pathErrno j)
    | .ok s => (readSizes um ps).map ((s.length + 1) :: ·)

/-- The loop that copies, with what it stores: the count, and the name with a NUL behind it. It ends with `lptr`. -/
def copyNames (um : User) : List (ℕ × ℕ) → ℕ → List (ℕ × List Byte) × Except Errno ℕ
  | [], lptr => ([], .ok lptr)
  | (p, size) :: rest, lptr =>
    let count := (lptr, [BitVec.ofNat 8 (size - 1)])
    match upath um p BUFSIZ with
    | .error j => ([count], .error (pathErrno j))
    | .ok s =>
      let (stores, r) := copyNames um rest (lptr + 1 + s.length)
      (count :: (lptr + 1, s ++ [0]) :: stores, r)

/-- What comes back, the heap, the block of `h_alloc` with its size, and what was stored, the oldest first -/
structure Added where
  ref : Option ℕ
  u_error : Option Errno
  heap : Heap
  block : Option (ℕ × ℕ)
  stores : List (ℕ × List Byte)

/-- The names are copied into the block `ref`, and the rest of it is filled up with nulls. -/
def copied (um' : User) (ps sizes : List ℕ) (ref size : ℕ) (s : Heap) : Added :=
  match copyNames um' (ps.zip sizes) ref with
  | (stores, .error e) => ⟨none, some e, h_free ref s, some (ref, size), stores⟩
  | (stores, .ok lptr) =>
    ⟨some ref, none, s, some (ref, size), stores ++ [(lptr, List.replicate (ref + size - lptr) 0)]⟩

/-- The user's memory is `um` first, and `um'` when the names are read again. -/
def addalist (um um' : User) (rfsize fuel list : ℕ) (s : Heap) : Option Added :=
  match readList um MAXNAMES list with
  | .error e => some ⟨none, some e, s, none, []⟩
  | .ok alist =>
    match readSizes um alist with
    | .error e => some ⟨none, some e, s, none, []⟩
    | .ok sizelist =>
      let size := bump (sizelist.sum + 1)
      match h_alloc rfsize fuel size s with
      | none => none
      | some (none, s) => some ⟨none, some .ENOMEM, s, none, []⟩
      | some (some ref, s) => some (copied um' alist sizelist ref size s)

/-- The memory after the stores -/
def apply (stores : List (ℕ × List Byte)) (m : Mem) : Mem :=
  stores.foldl (fun m c => poke c.1 c.2 m) m

/-! ## The two readings -/

/-- The names that the copying reads, up to one that fails -/
def reread (um : User) : List ℕ → List (List Byte)
  | [] => []
  | p :: ps =>
    match upath um p BUFSIZ with
    | .error _ => []
    | .ok s => s :: reread um ps

/-- What the names take up without the 0 at the end -/
def total (names : List (List Byte)) : ℕ := (names.map fun s => s.length + 1).sum

/-- The names with the counts of the first reading -/
def counted : List ℕ → List (List Byte) → List Byte
  | size :: sizes, s :: names => BitVec.ofNat 8 (size - 1) :: s ++ counted sizes names
  | _, _ => []

/-- Nothing is stored outside the block, and a list that comes back has the names that were copied. -/
def Safe (um um' : User) (list : ℕ) (r : Added) : Prop :=
  (∀ c ∈ r.stores, ∃ b size, r.block = some (b, size) ∧ b ≤ c.1 ∧ c.1 + c.2.length ≤ b + size) ∧
    ∀ ref, r.ref = some ref → ∃ its ps, readList um MAXNAMES list = .ok ps ∧
      ps.map (upath um' · BUFSIZ) = its.map (fun it : Item => .ok it.name) ∧
      ∀ m, Holds (apply r.stores m) ref (alist its)

/-- The second reading is good for a block of `size` bytes: when it fails, there is room for what it has written
before that; when it does not, each name is one for a list, with the length of the first reading modulo 256. -/
def SecondGood (um' : User) (ps sizes : List ℕ) (size : ℕ) : Prop :=
  ((reread um' ps).length < ps.length → total (reread um' ps) + 1 ≤ size) ∧
    ((reread um' ps).length = ps.length →
      List.Forall₂ (fun s n => 1 ≤ s.length ∧ s.length ≤ 127 ∧ (n - 1) % 256 = s.length) (reread um' ps) sizes)

variable {um um' : User} {ps sizes : List ℕ} {names : List (List Byte)} {lptr : ℕ} {m : Mem}

theorem ustring_named {n a : ℕ} {s : List Byte} (h : ustring um n a = some s) : ∀ x ∈ s, x ≠ 0 := by
  induction n generalizing a s with
  | zero => exact absurd h nofun
  | succ n ih =>
    rw [ustring] at h
    split at h
    next => exact absurd h nofun
    next b hb =>
      split at h
      next hz =>
        rw [← Option.some.inj h]
        exact nofun
      next hz =>
        obtain ⟨t, ht, rfl⟩ := Option.map_eq_some_iff.mp h
        intro x hx
        rcases mem_cons.mp hx with rfl | hx
        · exact hz
        · exact ih ht x hx

theorem upath_ok {p max : ℕ} {s : List Byte} (h : upath um p max = .ok s) :
    (∀ x ∈ s, x ≠ 0) ∧ s.length < max := by
  rw [upath] at h
  split at h
  next => exact absurd h nofun
  next t ht =>
    split at h
    next => exact absurd h nofun
    next hlen =>
      rw [← Except.ok.inj h]
      exact ⟨ustring_named ht, Nat.lt_of_not_le hlen⟩

theorem total_cons (s : List Byte) (names : List (List Byte)) : total (s :: names) = s.length + 1 + total names := by
  simp [total]

theorem apply_append (xs ys : List (ℕ × List Byte)) (m : Mem) : apply (xs ++ ys) m = apply ys (apply xs m) :=
  foldl_append

/-- Stores at other places leave a byte as it is. -/
theorem apply_outside {stores : List (ℕ × List Byte)} {x : ℕ}
    (h : ∀ c ∈ stores, x < c.1 ∨ c.1 + c.2.length ≤ x) (m : Mem) : apply stores m x = m x := by
  induction stores generalizing m with
  | nil => rfl
  | cons c cs ih =>
    rw [forall_mem_cons] at h
    exact (ih h.2 _).trans (poke_outside h.1)

/-- What the copying does: it stores up to the end of the last name and no further. -/
structure Copied (um' : User) (ps sizes : List ℕ) (lptr : ℕ) (stores : List (ℕ × List Byte))
    (r : Except Errno ℕ) : Prop where
  inside : ∀ c ∈ stores, lptr ≤ c.1 ∧ c.1 + c.2.length ≤ lptr + total (reread um' ps) + 1
  reaches : ps ≠ [] → ∃ c ∈ stores, c.1 + c.2.length = lptr + total (reread um' ps) + 1
  bytes : ∀ m, Holds (apply stores m) lptr (counted sizes (reread um' ps))
  ends : ((reread um' ps).length < ps.length ∧ ∃ e, r = .error e) ∨
    ((reread um' ps).length = ps.length ∧ r = .ok (lptr + total (reread um' ps)))

theorem copyNames_spec (um' : User) (hlen : sizes.length = ps.length) (lptr : ℕ) :
    Copied um' ps sizes lptr (copyNames um' (ps.zip sizes) lptr).1 (copyNames um' (ps.zip sizes) lptr).2 := by
  induction ps generalizing sizes lptr with
  | nil => exact ⟨nofun, fun h => absurd rfl h, fun _ => by cases sizes <;> trivial, .inr ⟨rfl, rfl⟩⟩
  | cons p ps ih =>
    cases sizes with
    | nil => exact absurd hlen nofun
    | cons n sizes =>
      rw [zip_cons_cons, copyNames]
      dsimp only
      cases hp : upath um' p BUFSIZ with
      | error j =>
        dsimp only
        have hnames : reread um' (p :: ps) = [] := by rw [reread, hp]
        refine ⟨?_, fun _ => ?_, fun m => ?_, .inl ?_⟩ <;> rw [hnames]
        · simp [total]
        · simp [total]
        · trivial
        · exact ⟨Nat.succ_pos _, _, rfl⟩
      | ok s =>
        dsimp only
        obtain ⟨hin, hreach, hbytes, hends⟩ := ih (Nat.succ.inj hlen) (lptr + 1 + s.length)
        have hnames : reread um' (p :: ps) = s :: reread um' ps := by rw [reread, hp]
        have htotal := total_cons s (reread um' ps)
        refine ⟨?_, fun _ => ?_, fun m => ?_, ?_⟩ <;> rw [hnames]
        · intro c hc
          rcases mem_cons.mp hc with rfl | hc
          · dsimp only [length_singleton]
            omega
          · rcases mem_cons.mp hc with rfl | hc
            · dsimp only
              rw [length_append, length_singleton]
              omega
            · have hc' := hin c hc
              omega
        · by_cases hps : ps = []
          · refine ⟨_, mem_cons_of_mem _ mem_cons_self, ?_⟩
            rw [htotal, hps]
            simp [reread, total]
            omega
          · obtain ⟨c, hc, hend⟩ := hreach hps
            exact ⟨c, mem_cons_of_mem _ (mem_cons_of_mem _ hc), by omega⟩
        · -- the stores that follow are behind the name
          have hlater (x : ℕ) (hx : x < lptr + 1 + s.length) (m : Mem) :
              apply (copyNames um' (ps.zip sizes) (lptr + 1 + s.length)).1 m x = m x :=
            apply_outside (fun c hc => .inl (Nat.lt_of_lt_of_le hx (hin c hc).1)) m
          refine ⟨?_, holds_append.mpr ⟨?_, hbytes _⟩⟩
          · exact (hlater lptr (by omega) _).trans ((poke_of_lt (Nat.lt_succ_self lptr)).trans
              (holds_poke m lptr [_]).1)
          · exact (holds_append.mp (holds_poke _ (lptr + 1) (s ++ [0]))).1.congr fun x _ hx => hlater x hx _
        · rw [length_cons, length_cons, htotal]
          rcases hends with ⟨hlt, he⟩ | ⟨heq, hr⟩
          · exact .inl ⟨Nat.succ_lt_succ hlt, he⟩
          · refine .inr ⟨congrArg Nat.succ heq, hr.trans (congrArg Except.ok ?_)⟩
            omega

/-! ## The sizes -/

theorem readList_length {n list : ℕ} (h : readList um n list = .ok ps) : ps.length ≤ n := by
  induction n generalizing list ps with
  | zero => exact absurd h nofun
  | succ n ih =>
    rw [readList] at h
    split at h
    · exact absurd h nofun
    · split at h
      · rw [← Except.ok.inj h]
        exact Nat.zero_le _
      · cases hrest : readList um n (list + 4) with
        | error e =>
          rw [hrest] at h
          exact absurd h nofun
        | ok qs =>
          rw [hrest] at h
          rw [← Except.ok.inj h]
          exact Nat.succ_le_succ (ih hrest)

theorem readSizes_ok (h : readSizes um ps = .ok sizes) :
    sizes.length = ps.length ∧ (∀ n ∈ sizes, 1 ≤ n) ∧ sizes.sum ≤ BUFSIZ * ps.length := by
  induction ps generalizing sizes with
  | nil =>
    rw [← Except.ok.inj h]
    exact ⟨rfl, nofun, Nat.le_refl 0⟩
  | cons p ps ih =>
    rw [readSizes] at h
    split at h
    next => exact absurd h nofun
    next s hs =>
      cases hrest : readSizes um ps with
      | error e =>
        rw [hrest] at h
        exact absurd h nofun
      | ok ns =>
        rw [hrest] at h
        obtain ⟨hlen, hpos, hsum⟩ := ih hrest
        have hs' := (upath_ok hs).2
        rw [← Except.ok.inj h]
        refine ⟨congrArg Nat.succ hlen, forall_mem_cons.mpr ⟨Nat.succ_pos _, hpos⟩, ?_⟩
        rw [sum_cons, length_cons, Nat.mul_succ]
        omega

/-- The block has room for what the sizes say. -/
theorem sum_lt_bump {list : ℕ} (h : readList um MAXNAMES list = .ok ps) (h' : readSizes um ps = .ok sizes) :
    sizes.sum < bump (sizes.sum + 1) ∧ bump (sizes.sum + 1) < 2 ^ 31 := by
  obtain ⟨-, -, hsum⟩ := readSizes_ok h'
  have hcount := readList_length h
  rw [MAXNAMES] at hcount
  rw [BUFSIZ] at hsum
  have hbump := bump_spec (n := sizes.sum + 1) (by omega)
  rw [asize] at hbump
  omega

/-! ## The list in the block -/

theorem counted_length (hlen : sizes.length = names.length) : (counted sizes names).length = total names := by
  induction names generalizing sizes with
  | nil => cases sizes <;> rfl
  | cons s names ih =>
    cases sizes with
    | nil => exact absurd hlen nofun
    | cons n sizes =>
      rw [counted, cons_append, length_cons, length_append, ih (Nat.succ.inj hlen), total_cons]
      omega

theorem counted_good (h : List.Forall₂ (fun s n => 1 ≤ s.length ∧ s.length ≤ 127 ∧ (n - 1) % 256 = s.length) names
    sizes) (hnamed : ∀ s ∈ names, ∀ x ∈ s, x ≠ 0) :
    ∃ its : List Item, its.map Item.name = names ∧ alist its = counted sizes names ++ [0] := by
  induction h with
  | nil => exact ⟨[], rfl, rfl⟩
  | @cons s n names sizes hsn hrest ih =>
    rw [forall_mem_cons] at hnamed
    obtain ⟨its, hits, hlist⟩ := ih hnamed.2
    refine ⟨⟨s, hnamed.1, hsn.1, hsn.2.1⟩ :: its, congrArg (s :: ·) hits, ?_⟩
    have hcount : BitVec.ofNat 8 s.length = BitVec.ofNat 8 (n - 1) := by
      apply BitVec.eq_of_toNat_eq
      rw [BitVec.toNat_ofNat, BitVec.toNat_ofNat, ← hsn.2.2, Nat.mod_mod]
    rw [alist, hlist, counted, Item.count, hcount]
    simp

theorem good_of_counted {its : List Item} (hlen : sizes.length = its.length)
    (h : alist its = counted sizes (its.map Item.name) ++ [0]) :
    List.Forall₂ (fun s n => 1 ≤ s.length ∧ s.length ≤ 127 ∧ (n - 1) % 256 = s.length) (its.map Item.name) sizes := by
  induction its generalizing sizes with
  | nil =>
    rw [length_eq_zero_iff.mp hlen]
    exact .nil
  | cons it its ih =>
    cases sizes with
    | nil => exact absurd hlen nofun
    | cons n sizes =>
      rw [map_cons, counted, alist, cons_append, cons_append, cons_append, append_assoc] at h
      obtain ⟨hcount, hrest⟩ := List.cons.inj h
      refine .cons ⟨it.short.1, it.short.2, ?_⟩ (ih (Nat.succ.inj hlen) (append_cancel_left hrest))
      have hnat := congrArg BitVec.toNat hcount
      rw [count_toNat, BitVec.toNat_ofNat] at hnat
      exact hnat.symm

theorem alist_concat (its : List Item) : ∃ xs, alist its = xs ++ [0] ∧ xs.length = total (its.map Item.name) := by
  induction its with
  | nil => exact ⟨[], rfl, rfl⟩
  | cons it its ih =>
    obtain ⟨xs, hxs, hlen⟩ := ih
    refine ⟨it.count :: it.name ++ xs, by rw [alist, hxs, append_assoc], ?_⟩
    rw [map_cons, total_cons, ← hlen, cons_append, length_cons, length_append]
    omega

theorem total_le (h : List.Forall₂ (fun s n => 1 ≤ s.length ∧ s.length ≤ 127 ∧ (n - 1) % 256 = s.length) names
    sizes) (hpos : ∀ n ∈ sizes, 1 ≤ n) : total names ≤ sizes.sum := by
  induction h with
  | nil => exact Nat.le_refl 0
  | @cons s n names sizes hsn hrest ih =>
    rw [forall_mem_cons] at hpos
    have hle := ih hpos.2
    have hmod := Nat.mod_le (n - 1) 256
    rw [total_cons, sum_cons]
    omega

theorem reread_named (um : User) (ps : List ℕ) : ∀ s ∈ reread um ps, ∀ x ∈ s, x ≠ 0 := by
  induction ps with
  | nil => exact nofun
  | cons p ps ih =>
    rw [reread]
    split
    next => exact nofun
    next s hs => exact forall_mem_cons.mpr ⟨(upath_ok hs).1, ih⟩

/-- When no name fails, the names are what `upath` gives. -/
theorem map_upath (h : (reread um ps).length = ps.length) :
    ps.map (upath um · BUFSIZ) = (reread um ps).map Except.ok := by
  induction ps with
  | nil => rfl
  | cons p ps ih =>
    rw [reread] at h ⊢
    cases hp : upath um p BUFSIZ with
    | error j =>
      rw [hp] at h
      exact absurd h nofun
    | ok s =>
      rw [hp] at h
      rw [map_cons, map_cons, hp, ih (Nat.succ.inj h)]

/-! ## The block -/

theorem copied_safe_iff (um' : User) (ref : ℕ) (s : Heap) {list size : ℕ} (h : readList um MAXNAMES list = .ok ps)
    (hlen : sizes.length = ps.length) (hpos : ∀ n ∈ sizes, 1 ≤ n) (hsize : sizes.sum < size) :
    Safe um um' list (copied um' ps sizes ref size s) ↔ SecondGood um' ps sizes size := by
  obtain ⟨hin, hreach, hbytes, hends⟩ := copyNames_spec um' hlen ref
  rw [copied]
  generalize copyNames um' (ps.zip sizes) ref = res at hin hreach hbytes hends ⊢
  obtain ⟨stores, r⟩ := res
  dsimp only at hin hreach hbytes hends
  rcases hends with ⟨hlt, e, rfl⟩ | ⟨heq, rfl⟩
  · have hne : ps ≠ [] := by
      rintro rfl
      exact Nat.not_lt_zero _ hlt
    constructor
    · rintro ⟨hstores, -⟩
      refine ⟨fun _ => ?_, fun heq => absurd heq (Nat.ne_of_lt hlt)⟩
      obtain ⟨c, hc, hend⟩ := hreach hne
      obtain ⟨b, n, hblock, -, hle⟩ := hstores c hc
      obtain ⟨rfl, rfl⟩ := Prod.mk.inj (Option.some.inj hblock)
      omega
    · rintro ⟨hfit, -⟩
      refine ⟨fun c hc => ⟨ref, size, rfl, (hin c hc).1, ?_⟩, nofun⟩
      have hle := (hin c hc).2
      have hroom := hfit hlt
      omega
  · have hrest (m : Mem) : apply (stores ++ [(ref + total (reread um' ps),
        List.replicate (ref + size - (ref + total (reread um' ps))) 0)]) m =
        poke (ref + total (reread um' ps)) (List.replicate (ref + size - (ref + total (reread um' ps))) 0)
          (apply stores m) := apply_append _ _ m
    have hcounted := counted_length (hlen.trans heq.symm)
    have hlist (m : Mem) : Holds (apply (stores ++ [(ref + total (reread um' ps),
        List.replicate (ref + size - (ref + total (reread um' ps))) 0)]) m) ref (counted sizes (reread um' ps)) := by
      rw [hrest]
      exact (hbytes m).congr fun x _ hx => poke_of_lt (by omega)
    constructor
    · rintro ⟨-, hret⟩
      refine ⟨fun hlt => absurd heq (Nat.ne_of_lt hlt), fun _ => ?_⟩
      obtain ⟨its, ps', hread, hmap, hholds⟩ := hret ref rfl
      obtain rfl := Except.ok.inj (h.symm.trans hread)
      have hnames : its.map Item.name = reread um' ps := by
        apply map_injective_iff.mpr fun _ _ => Except.ok.inj (ε := ℤ)
        rw [map_map, ← map_upath heq, hmap]
        rfl
      obtain ⟨xs, hxs, hxlen⟩ := alist_concat its
      have hsame : xs = counted sizes (reread um' ps) := by
        have hholds' := hholds fun _ => 0
        rw [hxs, holds_append] at hholds'
        refine hholds'.1.unique (hlist _) ?_
        rw [hxlen, hcounted, hnames]
      rw [hsame, ← hnames] at hxs
      rw [← hnames]
      refine good_of_counted ?_ hxs
      rw [hlen, ← heq, ← hnames, length_map]
    · rintro ⟨-, hgood⟩
      have hgood := hgood heq
      have hroom := total_le hgood hpos
      obtain ⟨its, hits, hal⟩ := counted_good hgood (reread_named um' ps)
      refine ⟨fun c hc => ⟨ref, size, rfl, ?_⟩, fun ref' href => ⟨its, ps, h, ?_, fun m => ?_⟩⟩
      · rcases mem_append.mp hc with hc | hc
        · have hc' := hin c hc
          omega
        · rw [mem_singleton.mp hc]
          dsimp only
          rw [length_replicate]
          omega
      · rw [map_upath heq, ← hits, map_map]
        rfl
      · rw [← Option.some.inj href, hal, holds_append]
        refine ⟨hlist m, ?_, trivial⟩
        obtain ⟨k, hk⟩ : ∃ k, ref + size - (ref + total (reread um' ps)) = k + 1 :=
          ⟨size - total (reread um' ps) - 1, by omega⟩
        rw [hrest, hcounted, hk, replicate_succ]
        exact (holds_poke _ _ (0 :: List.replicate k 0)).1

/-- Without a block nothing is stored. -/
theorem safe_none (um um' : User) (list : ℕ) (e : Errno) (s : Heap) :
    Safe um um' list ⟨none, some e, s, none, []⟩ :=
  ⟨nofun, nofun⟩

/-- `addalist` stays in its block and makes a list there exactly if the second reading is good for the block of the
first one. -/
theorem addalist_safe_iff {rfsize fuel : ℕ} (hr : headSize ≤ rfsize) {t : Hist} (h : Inv rfsize t)
    (hfuel : rfsize < fuel) (um um' : User) (list : ℕ) :
    (∃ r, addalist um um' rfsize fuel list t.sys = some r ∧ Safe um um' list r) ↔
      ∀ ps sizes ref s', readList um MAXNAMES list = .ok ps → readSizes um ps = .ok sizes →
        h_alloc rfsize fuel (bump (sizes.sum + 1)) t.sys = some (some ref, s') →
        SecondGood um' ps sizes (bump (sizes.sum + 1)) := by
  rw [addalist]
  cases hread : readList um MAXNAMES list with
  | error e => exact iff_of_true ⟨_, rfl, safe_none um um' list e t.sys⟩ nofun
  | ok ps =>
    dsimp only
    cases hsizes : readSizes um ps with
    | error e =>
      refine iff_of_true ⟨_, rfl, safe_none um um' list e t.sys⟩ fun ps' sizes _ _ hps hs => ?_
      rw [← Except.ok.inj hps, hsizes] at hs
      exact absurd hs nofun
    | ok sizes =>
      dsimp only
      obtain ⟨hroom, hsmall⟩ := sum_lt_bump hread hsizes
      obtain ⟨hlen, hpos, -⟩ := readSizes_ok hsizes
      obtain ⟨⟨block, s'⟩, halloc⟩ := Option.isSome_iff_exists.mp (h.total hr hsmall hfuel)
      rw [halloc]
      cases block with
      | none =>
        refine iff_of_true ⟨_, rfl, safe_none um um' list .ENOMEM s'⟩ fun ps' sizes' ref s'' hps hs ha => ?_
        obtain rfl := Except.ok.inj hps
        obtain rfl := Except.ok.inj (hsizes.symm.trans hs)
        rw [halloc] at ha
        exact absurd (congrArg Prod.fst (Option.some.inj ha)) nofun
      | some ref =>
        have hiff := copied_safe_iff um' ref s' hread hlen hpos hroom
        constructor
        · rintro ⟨r, hr, hsafe⟩ ps' sizes' ref' s'' hps hs ha
          obtain rfl := Except.ok.inj hps
          obtain rfl := Except.ok.inj (hsizes.symm.trans hs)
          rw [← Option.some.inj hr] at hsafe
          exact hiff.mp hsafe
        · intro hgood
          exact ⟨_, rfl, hiff.mpr (hgood ps sizes ref s' rfl hsizes halloc)⟩

/-- A list with the one name `a`, and what is there later -/
def oneName : User := fun a => ([0, 0, 0, 8, 0, 0, 0, 0, 97, 0] : List Byte)[a]?
def longerName : User := fun a => ([0, 0, 0, 8, 0, 0, 0, 0, 97, 98, 99, 100, 0] : List Byte)[a]?

theorem unmade_inv (rfsize : ℕ) : Inv rfsize ⟨unmade, fun _ => none⟩ := .inl ⟨rfl, fun _ => rfl⟩

theorem oneName_list : readList oneName MAXNAMES 0 = .ok [8] := rfl

theorem oneName_sizes : readSizes oneName [8] = .ok [2] := rfl

theorem addalist_safe_same : ∃ r, addalist oneName oneName 40 41 0 unmade = some r ∧ Safe oneName oneName 0 r := by
  refine (addalist_safe_iff (by decide) (unmade_inv 40) (by decide) oneName oneName 0).mpr fun ps sizes _ _ hps hs _ => ?_
  obtain rfl := Except.ok.inj (oneName_list.symm.trans hps)
  obtain rfl := Except.ok.inj (oneName_sizes.symm.trans hs)
  exact ⟨fun hlt => absurd hlt (by decide), fun _ => .cons ⟨by decide, by decide, rfl⟩ .nil⟩

/-- The name gets longer: what is written has 6 bytes, and the block 4. -/
theorem addalist_writes_outside : ¬∀ rfsize fuel t um um' list, headSize ≤ rfsize → Inv rfsize t → rfsize < fuel →
    ∃ r, addalist um um' rfsize fuel list t.sys = some r ∧ Safe um um' list r := by
  intro h
  obtain ⟨r, hr, hsafe⟩ := h 40 41 ⟨unmade, fun _ => none⟩ oneName longerName 0 (by decide) (unmade_inv 40) (by decide)
  obtain ⟨s, halloc⟩ : ∃ s, h_alloc 40 41 4 unmade = some (some 4, s) := ⟨_, rfl⟩
  have hrun : addalist oneName longerName 40 41 0 unmade = some (copied longerName [8] [2] 4 4 s) := by
    rw [addalist, oneName_list]
    dsimp only
    rw [oneName_sizes]
    dsimp only
    rw [show bump ([2].sum + 1) = 4 from rfl, halloc]
  rw [← Option.some.inj (hrun.symm.trans hr)] at hsafe
  have hgood : SecondGood longerName [8] [2] 4 :=
    (copied_safe_iff longerName 4 s oneName_list (by decide) (by decide) (by decide)).mp hsafe
  cases hgood.2 rfl with
  | cons hname _ => exact absurd hname.2.2 (by decide)

end Svr3.AuthList
