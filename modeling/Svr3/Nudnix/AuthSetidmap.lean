import Svr3.Lib.Shares
import Svr3.Nudnix.AuthAdd
import Svr3.Nudnix.AuthIdmap
import Mathlib.Data.List.FinRange

/-!
# Setting the id tables of a machine

`setidmap` gives up the old tables of a machine, and puts a new one in their place. The old ones are gone before
it knows whether there is a new one.
-/

namespace Svr3.Setidmap

open Auth AuthList Function List Shares

/-- `UID_DEV` and `GID_DEV` -/
inductive Dev where
  | uid | gid
  deriving DecidableEq

/-- Where a reference to a table is: `gp->idmap[dev]` of one of the circuits, or `Global[dev]` -/
inductive Place (n : ℕ) where
  | idmap (g : Fin n) (dev : Dev)
  | global (dev : Dev)
  deriving DecidableEq

structure Circuit where
  flag : BitVec 16
  t_uname : List Byte

/-- The circuits, the references, the tables and the heap they are in, and what `h_free` was called for -/
structure Sys (n : ℕ) where
  gdp : Fin n → Circuit
  ref : Place n → Option ℕ
  map : ℕ → Idmap
  heap : Heap
  freed : List ℕ

def MAXDNAME : ℕ := 64
def GLOBAL_CH : Byte := 46
def MAX_MLINKS : ℕ := 2

variable {n : ℕ}

def Sys.free (offset : ℕ) (s : Sys n) : Sys n :=
  { s with heap := h_free offset s.heap, freed := s.freed ++ [offset] }

def Sys.put (a : Place n) (r : Option ℕ) (s : Sys n) : Sys n := { s with ref := update s.ref a r }

/-- The references that `freeidmap` counts -/
def idmaps (n : ℕ) : List (Place n) := (List.finRange n).flatMap fun g => [.idmap g .uid, .idmap g .gid]

def freeidmap (offset : ℕ) (s : Sys n) : Sys n :=
  if refs (idmaps n) s.ref offset ≤ 1 then s.free offset else s

/-- `if (*refp) { freeidmap(*refp); *refp = NULL; }` -/
def unmap (s : Sys n) (a : Place n) : Sys n :=
  match s.ref a with
  | none => s
  | some offset => (freeidmap offset s).put a none

/-- `if (Global[dev]) { h_free(Global[dev]); Global[dev] = 0; }` -/
def unglobal (s : Sys n) (dev : Dev) : Sys n :=
  match s.ref (.global dev) with
  | none => s
  | some offset => (s.free offset).put (.global dev) none

/-- The references of the circuits that are not free -/
def inUse (s : Sys n) : List (Place n) :=
  ((List.finRange n).filter fun g => (s.gdp g).flag ≠ 0).flatMap fun g => [.idmap g .uid, .idmap g .gid]

/-- The call with no name -/
def clearAll (s : Sys n) : Sys n := unglobal (unglobal ((inUse s).foldl unmap s) .uid) .gid

structure Request where
  suser : Bool
  um : User
  name : ℕ
  flag : BitVec 32
  map : ℕ

/-- `flag == UID_MAP` -/
def Request.dev (q : Request) : Dev := if q.flag = 0 then .uid else .gid

/-- `refp`: the global reference, or those of the first circuits to the machine -/
def refps (sname : List Byte) (dev : Dev) (s : Sys n) : List (Place n) :=
  if sname.head? = some GLOBAL_CH then [.global dev]
  else (((List.finRange n).filter fun g => sname = (s.gdp g).t_uname).take MAX_MLINKS).map (.idmap · dev)

/-- A record in the memory of the user -/
def idtab (um : User) (a : ℕ) : Option Idtab :=
  match um a, um (a + 1), um (a + 2), um (a + 3) with
  | some a, some b, some c, some d => some ⟨(a ++ b).toNat, (c ++ d).toNat⟩
  | _, _, _, _ => none

/-- `copyin` of the records behind the first one -/
def readTable (q : Request) (size : ℕ) : Option (List Idtab) :=
  (List.range size).mapM fun i => idtab q.um (q.map + 4 * (i + 1))

/-- How much `h_alloc` is asked for -/
def tableSize (header : Idtab) : ℕ := 4 * (header.i_loc + headsize + cachesize)

/-- The error, the block of the new table, and what the system is then -/
structure Result (n : ℕ) where
  u_error : Option Errno
  table : Option ℕ
  sys : Sys n

/-- `for (i = 0; i < gcnt; i++) *refp[i] = ref;` -/
def assign (refp : List (Place n)) (ref : Option ℕ) (s : Sys n) : Sys n :=
  refp.foldl (fun s a => s.put a ref) s

/-- The new table, after the old ones are given up -/
def newMap (q : Request) (rfsize fuel : ℕ) (header : Idtab) (refp : List (Place n)) (s : Sys n) :
    Option (Result n) :=
  match h_alloc rfsize fuel (tableSize header) s.heap with
  | none => none
  | some (none, heap) => some ⟨some .ENOMEM, none, { s with heap := heap }⟩
  | some (some ref, heap) =>
    match readTable q header.i_loc with
    | none => some ⟨some .EFAULT, none, ({ s with heap := heap } : Sys n).free ref⟩
    | some recs =>
      let idmap := Auth.setidmap (s.map ref).tab header.i_rem recs
      some ⟨none, some ref,
        assign refp (some ref) { s with heap := heap, map := update s.map ref idmap }⟩

def setidmap (q : Request) (rfsize fuel : ℕ) (s : Sys n) : Option (Result n) :=
  if q.suser = false then some ⟨some .EPERM, none, s⟩
  else if q.name = 0 then some ⟨none, none, clearAll s⟩
  else
    match upath q.um q.name MAXDNAME with
    | .error j => some ⟨some (if j = -2 then .EINVAL else .EFAULT), none, s⟩
    | .ok sname =>
      if sname = [] then some ⟨some .EINVAL, none, s⟩
      else if refps sname q.dev s = [] then some ⟨some .ENOENT, none, s⟩
      else if q.map = 0 then
        some ⟨none, none, assign (refps sname q.dev s) none ((refps sname q.dev s).foldl unmap s)⟩
      else
        match idtab q.um q.map with
        | none => some ⟨some .EFAULT, none, s⟩
        | some header =>
          newMap q rfsize fuel header (refps sname q.dev s) ((refps sname q.dev s).foldl unmap s)

/-! ## What the call should do -/

/-- The references that a request is about -/
def affected (q : Request) (s : Sys n) : List (Place n) :=
  if q.name = 0 then inUse s ++ [.global .uid, .global .gid]
  else
    match upath q.um q.name MAXDNAME with
    | .error _ => []
    | .ok sname => refps sname q.dev s

/-- The references `as` are to the new table; what they were to was freed once each, and no other reference is to a
table that was freed. -/
structure Renewed (as : List (Place n)) (s : Sys n) (r : Result n) : Prop where
  assigned : ∀ a ∈ as, r.sys.ref a = r.table
  once : ∀ a ∈ as, ∀ p, s.ref a = some p → r.sys.freed.count p = s.freed.count p + 1
  kept : ∀ b ∉ as, r.sys.ref b = s.ref b ∧ ∀ p, s.ref b = some p → r.sys.freed.count p = s.freed.count p

/-- With an error nothing has changed. -/
def Proper (q : Request) (s : Sys n) (r : Result n) : Prop :=
  if r.u_error = none then Renewed (affected q s) s r else r.sys.ref = s.ref

variable {s : Sys n} {a b : Place n} {as : List (Place n)}

/-! ## Giving up references -/

theorem mem_idmaps {g : Fin n} {dev : Dev} : .idmap g dev ∈ idmaps n := by
  refine mem_flatMap.mpr ⟨g, mem_finRange g, ?_⟩
  cases dev <;> simp

theorem global_notMem_idmaps {dev : Dev} : .global dev ∉ idmaps n := by
  simp [idmaps]

theorem pairs_nodup {gs : List (Fin n)} (h : gs.Nodup) :
    (gs.flatMap fun g => [Place.idmap g .uid, .idmap g .gid]).Nodup := by
  refine nodup_flatMap.mpr ⟨fun g _ => by simp, h.imp ?_⟩
  intro g g' hne a ha ha'
  simp only [mem_cons, not_mem_nil, or_false] at ha ha'
  rcases ha with rfl | rfl <;> rcases ha' with h | h
  · exact hne (Place.idmap.inj h).1
  · exact hne (Place.idmap.inj h).1
  · exact hne (Place.idmap.inj h).1
  · exact hne (Place.idmap.inj h).1

theorem idmaps_nodup : (idmaps n).Nodup := pairs_nodup (nodup_finRange n)

theorem inUse_nodup (s : Sys n) : (inUse s).Nodup := pairs_nodup ((nodup_finRange n).filter _)

theorem unmap_ref (s : Sys n) (a : Place n) : (unmap s a).ref = update s.ref a none := by
  rw [unmap]
  split
  next h => rw [← h, update_eq_self]
  next offset h =>
    rw [freeidmap]
    split <;> rfl

theorem unmap_freed (s : Sys n) (a : Place n) : (unmap s a).freed = s.freed ++ release (idmaps n) [a] s.ref := by
  rw [unmap]
  split
  next h =>
    rw [release_none [] h, release, append_nil]
  next offset h =>
    rw [freeidmap, release_some [] h, release, append_nil]
    split
    · rfl
    · exact (append_nil _).symm

theorem foldl_unmap_ref (as : List (Place n)) (s : Sys n) (b : Place n) :
    (as.foldl unmap s).ref b = if b ∈ as then none else s.ref b := by
  induction as generalizing s with
  | nil => rfl
  | cons a as ih =>
    rw [foldl_cons, ih, unmap_ref]
    by_cases hb : b = a
    · subst hb
      simp
    · simp [hb]

theorem foldl_unmap_freed (as : List (Place n)) (s : Sys n) :
    (as.foldl unmap s).freed = s.freed ++ release (idmaps n) as s.ref := by
  induction as generalizing s with
  | nil => exact (append_nil _).symm
  | cons a as ih =>
    rw [foldl_cons, ih, unmap_freed, unmap_ref, append_assoc]
    cases ha : s.ref a with
    | none => rw [release_none [] ha, release_none as ha, ← ha, update_eq_self, release, nil_append]
    | some offset => rw [release_some [] ha, release_some as ha, release, append_nil]

/-! ## What is freed -/

/-- A table that one of `as` refers to is referred to only there, or only by such references of circuits. -/
def Owned (as : List (Place n)) (s : Sys n) : Prop :=
  ∀ a ∈ as, ∀ p, s.ref a = some p → ∀ b, s.ref b = some p → b = a ∨ b ∈ as ∧ a ∈ idmaps n ∧ b ∈ idmaps n

/-- `fs` has the tables of `as` once each, and those of other references not at all. -/
def Frees (as : List (Place n)) (s : Sys n) (fs : List ℕ) : Prop :=
  (∀ a ∈ as, ∀ p, s.ref a = some p → fs.count p = 1) ∧ ∀ b ∉ as, ∀ p, s.ref b = some p → fs.count p = 0

/-- Who refers to a table of `as` that is freed once is in `as`. -/
theorem Frees.mem {fs : List ℕ} (h : Frees as s fs) {p : ℕ} (ha : a ∈ as) (hap : s.ref a = some p)
    (hbp : s.ref b = some p) : b ∈ as := by
  by_contra hb
  have hone := h.1 a ha p hap
  rw [h.2 b hb p hbp] at hone
  exact absurd hone (by decide)

theorem frees_circuits (has : as.Nodup) (hsub : as ⊆ idmaps n) :
    Frees as s (release (idmaps n) as s.ref) ↔ Owned as s := by
  constructor
  · intro h a ha p hap b hbp
    have hb := h.mem ha hap hbp
    exact .inr ⟨hb, hsub ha, hsub hb⟩
  · intro h
    have hin (a b : Place n) (p : ℕ) (ha : a ∈ as) (hap : s.ref a = some p) (hbp : s.ref b = some p) : b ∈ as := by
      rcases h a ha p hap b hbp with rfl | ⟨hb, -⟩
      · exact ha
      · exact hb
    refine ⟨fun a ha p hap => ?_, fun b hb p hbp => ?_⟩
    · rw [count_release idmaps_nodup has hsub, if_pos]
      exact ⟨⟨a, ha, hap⟩, fun b _ hbp => hin a b p ha hap hbp⟩
    · rw [count_release idmaps_nodup has hsub, if_neg]
      rintro ⟨⟨a, ha, hap⟩, -⟩
      exact hb (hin a b p ha hap hbp)

theorem frees_global (dev : Dev) :
    Frees [.global dev] s (release (idmaps n) [.global dev] s.ref) ↔ Owned [.global dev] s := by
  constructor
  · intro h a ha p hap b hbp
    have hb := h.mem ha hap hbp
    rw [mem_singleton] at ha hb
    exact .inl (hb.trans ha.symm)
  · intro h
    have hin (b : Place n) (p : ℕ) (hap : s.ref (.global dev) = some p) (hbp : s.ref b = some p) : b = .global dev := by
      rcases h _ (mem_singleton_self _) p hap b hbp with hb | ⟨hb, -⟩
      · exact hb
      · exact mem_singleton.mp hb
    cases hg : s.ref (.global dev) with
    | none =>
      rw [release_none [] hg, release]
      refine ⟨fun a ha p hap => ?_, fun _ _ _ _ => rfl⟩
      rw [mem_singleton.mp ha, hg] at hap
      cases hap
    | some q =>
      have hnone : refs (idmaps n) s.ref q = 0 := by
        rw [refs, countP_eq_zero]
        intro b hb hbq
        rw [hin b q hg (of_decide_eq_true hbq)] at hb
        exact global_notMem_idmaps hb
      rw [release_some [] hg, release, append_nil, if_pos (by omega)]
      refine ⟨fun a ha p hap => ?_, fun b hb p hbp => ?_⟩
      · rw [mem_singleton.mp ha, hg] at hap
        rw [Option.some.inj hap, count_singleton_self]
      · rw [count_singleton, if_neg]
        intro hqp
        rw [← eq_of_beq hqp] at hbp
        exact hb (mem_singleton.mpr (hin b q hg hbp))

/-- What `clearAll` frees -/
def clearFrees (s : Sys n) : List ℕ :=
  release (idmaps n) (inUse s) s.ref ++ ((s.ref (.global .uid)).toList ++ (s.ref (.global .gid)).toList)

theorem count_toList (r : Option ℕ) (p : ℕ) : r.toList.count p = if r = some p then 1 else 0 := by
  cases r with
  | none => rfl
  | some q => simp [count_singleton]

theorem inUse_subset (s : Sys n) : inUse s ⊆ idmaps n := by
  intro a ha
  cases a with
  | idmap g dev => exact mem_idmaps
  | global dev => simp [inUse] at ha

theorem global_mem (dev : Dev) : .global dev ∈ inUse s ++ [.global .uid, .global .gid] := by
  cases dev <;> simp

theorem idmap_mem {g : Fin n} {dev : Dev} :
    .idmap g dev ∈ inUse s ++ [.global .uid, .global .gid] ↔ .idmap g dev ∈ inUse s := by
  simp

theorem count_clearFrees (s : Sys n) (p : ℕ) :
    (clearFrees s).count p = (if Gone (idmaps n) (inUse s) s.ref p then 1 else 0) +
      ((if s.ref (.global .uid) = some p then 1 else 0) + if s.ref (.global .gid) = some p then 1 else 0) := by
  rw [clearFrees, count_append, count_append, count_toList, count_toList,
    count_release idmaps_nodup (inUse_nodup s) (inUse_subset s)]

/-- A global table that a circuit has too is freed twice. -/
theorem Frees.apart (h : Frees (inUse s ++ [.global .uid, .global .gid]) s (clearFrees s)) {g : Fin n}
    {dev dev' : Dev} {p : ℕ} (ha : .idmap g dev ∈ inUse s) (hap : s.ref (.idmap g dev) = some p) :
    s.ref (.global dev') ≠ some p := by
  intro hglobal
  have hone := h.1 _ (idmap_mem.mpr ha) p hap
  have hgone : Gone (idmaps n) (inUse s) s.ref p := by
    refine ⟨⟨_, ha, hap⟩, fun c hc hcp => ?_⟩
    cases c with
    | idmap g' d => exact idmap_mem.mp (h.mem (idmap_mem.mpr ha) hap hcp)
    | global d => exact absurd hc global_notMem_idmaps
  rw [count_clearFrees, if_pos hgone] at hone
  cases dev' <;> rw [if_pos hglobal] at hone <;> omega

theorem frees_all : Frees (inUse s ++ [.global .uid, .global .gid]) s (clearFrees s) ↔
    Owned (inUse s ++ [.global .uid, .global .gid]) s := by
  constructor
  · intro h a ha p hap b hbp
    have hb := h.mem ha hap hbp
    cases a with
    | idmap g dev =>
      cases b with
      | idmap g' dev' => exact .inr ⟨hb, mem_idmaps, mem_idmaps⟩
      | global dev' => exact absurd hbp (h.apart (idmap_mem.mp ha) hap)
    | global dev =>
      cases b with
      | idmap g' dev' => exact absurd hap (h.apart (idmap_mem.mp hb) hbp)
      | global dev' =>
        have hone := h.1 _ ha p hap
        rw [count_clearFrees] at hone
        cases dev <;> cases dev' <;> first
          | exact .inl rfl
          | rw [if_pos hap, if_pos hbp] at hone
            omega
  · intro h
    have hcircuit (g : Fin n) (dev dev' : Dev) (p : ℕ) (ha : .idmap g dev ∈ inUse s)
        (hap : s.ref (.idmap g dev) = some p) : s.ref (.global dev') ≠ some p := fun hbp =>
      (h _ (idmap_mem.mpr ha) p hap _ hbp).elim nofun fun hin => global_notMem_idmaps hin.2.2
    have hglobal (dev : Dev) (b : Place n) (p : ℕ) (hap : s.ref (.global dev) = some p) (hbp : s.ref b = some p) :
        b = .global dev :=
      (h _ (global_mem dev) p hap b hbp).resolve_right fun hin => global_notMem_idmaps hin.2.1
    refine ⟨fun a ha p hap => ?_, fun b hb p hbp => ?_⟩
    · cases a with
      | idmap g dev =>
        have hin := idmap_mem.mp ha
        have hgone : Gone (idmaps n) (inUse s) s.ref p := by
          refine ⟨⟨_, hin, hap⟩, fun c hc hcp => ?_⟩
          cases c with
          | idmap g' d => exact (h _ ha p hap _ hcp).elim (fun heq => heq ▸ hin) fun hin => idmap_mem.mp hin.1
          | global d => exact absurd hc global_notMem_idmaps
        rw [count_clearFrees, if_pos hgone, if_neg (hcircuit g dev .uid p hin hap),
          if_neg (hcircuit g dev .gid p hin hap)]
      | global dev =>
        have hgone : ¬Gone (idmaps n) (inUse s) s.ref p := by
          rintro ⟨⟨c, hc, hcp⟩, -⟩
          have heq := hglobal dev c p hap hcp
          rw [heq] at hc
          exact global_notMem_idmaps (inUse_subset s hc)
        rw [count_clearFrees, if_neg hgone]
        cases dev with
        | uid =>
          have hgid : s.ref (.global .gid) ≠ some p := fun hbp =>
            absurd (Place.global.inj (hglobal .uid _ p hap hbp)) nofun
          rw [if_pos hap, if_neg hgid]
        | gid =>
          have huid : s.ref (.global .uid) ≠ some p := fun hbp =>
            absurd (Place.global.inj (hglobal .gid _ p hap hbp)) nofun
          rw [if_pos hap, if_neg huid]
    · have hno (dev : Dev) : s.ref (.global dev) ≠ some p := fun hap =>
        hb (hglobal dev b p hap hbp ▸ global_mem dev)
      rw [count_clearFrees, if_neg (hno .uid), if_neg (hno .gid), if_neg]
      rintro ⟨⟨c, hc, hcp⟩, -⟩
      refine hb ?_
      rcases h c (mem_append_left _ hc) p hcp b hbp with heq | hin
      · rw [heq]
        exact mem_append_left _ hc
      · exact hin.1

/-! ## The whole call -/

theorem assign_ref (refp : List (Place n)) (r : Option ℕ) (s : Sys n) (b : Place n) :
    (assign refp r s).ref b = if b ∈ refp then r else s.ref b := by
  induction refp generalizing s with
  | nil => rfl
  | cons a as ih =>
    rw [assign, foldl_cons]
    refine (ih _).trans ?_
    by_cases hb : b = a
    · subst hb
      simp [Sys.put]
    · simp [Sys.put, hb]

theorem assign_freed (refp : List (Place n)) (r : Option ℕ) (s : Sys n) : (assign refp r s).freed = s.freed := by
  induction refp generalizing s with
  | nil => rfl
  | cons a as ih => exact ih _

theorem unglobal_ref (s : Sys n) (dev : Dev) : (unglobal s dev).ref = update s.ref (.global dev) none := by
  rw [unglobal]
  split
  next h => rw [← h, update_eq_self]
  next => rfl

theorem unglobal_freed (s : Sys n) (dev : Dev) :
    (unglobal s dev).freed = s.freed ++ (s.ref (.global dev)).toList := by
  rw [unglobal]
  split
  next h => rw [h]; exact (append_nil _).symm
  next h => rw [h]; rfl

theorem clearAll_ref (s : Sys n) (b : Place n) :
    (clearAll s).ref b = if b ∈ inUse s ++ [.global .uid, .global .gid] then none else s.ref b := by
  rw [clearAll, unglobal_ref, unglobal_ref]
  cases b with
  | idmap g dev =>
    have hne (dev' : Dev) : Place.idmap g dev ≠ .global dev' := nofun
    rw [update_of_ne (hne .gid), update_of_ne (hne .uid), foldl_unmap_ref]
    exact if_congr idmap_mem.symm rfl rfl
  | global dev =>
    rw [if_pos (global_mem dev)]
    cases dev <;> simp

theorem clearAll_freed (s : Sys n) : (clearAll s).freed = s.freed ++ clearFrees s := by
  have hglobal (dev : Dev) : ((inUse s).foldl unmap s).ref (.global dev) = s.ref (.global dev) := by
    rw [foldl_unmap_ref, if_neg fun h => global_notMem_idmaps (inUse_subset s h)]
  have hne : Place.global (n := n) .gid ≠ .global .uid := nofun
  rw [clearAll, unglobal_freed, unglobal_freed, unglobal_ref, update_of_ne hne, hglobal, hglobal,
    foldl_unmap_freed, append_assoc, append_assoc, clearFrees]

theorem frees_refps (sname : List Byte) (dev : Dev) :
    Frees (refps sname dev s) s (release (idmaps n) (refps sname dev s) s.ref) ↔ Owned (refps sname dev s) s := by
  rw [refps]
  split
  · exact frees_global dev
  · refine frees_circuits (List.Nodup.map (fun _ _ h => (Place.idmap.inj h).1)
      (((nodup_finRange n).filter _).sublist (take_sublist _ _))) fun a ha => ?_
    obtain ⟨g, -, rfl⟩ := mem_map.mp ha
    exact mem_idmaps

theorem renewed_iff {r : Result n} {fs : List ℕ} (href : ∀ b, r.sys.ref b = if b ∈ as then r.table else s.ref b)
    (hfreed : r.sys.freed = s.freed ++ fs) : Renewed as s r ↔ Frees as s fs := by
  have hcount (p : ℕ) : r.sys.freed.count p = s.freed.count p + fs.count p := by
    rw [hfreed, count_append]
  constructor
  · rintro ⟨-, honce, hkept⟩
    refine ⟨fun a ha p hap => ?_, fun b hb p hbp => ?_⟩
    · have hone := honce a ha p hap
      rw [hcount] at hone
      exact Nat.add_left_cancel hone
    · have hzero := (hkept b hb).2 p hbp
      rw [hcount] at hzero
      exact Nat.add_left_cancel (hzero.trans (Nat.add_zero _).symm)
  · rintro ⟨honce, hkept⟩
    refine ⟨fun a ha => by rw [href, if_pos ha], fun a ha p hap => ?_, fun b hb => ⟨?_, fun p hbp => ?_⟩⟩
    · rw [hcount, honce a ha p hap]
    · rw [href, if_neg hb]
    · rw [hcount, hkept b hb p hbp, Nat.add_zero]

/-- Nothing is given up where there is nothing. -/
theorem foldl_unmap_same : (as.foldl unmap s).ref = s.ref ↔ ∀ a ∈ as, s.ref a = none := by
  constructor
  · intro h a ha
    rw [← h, foldl_unmap_ref, if_pos ha]
  · intro h
    funext b
    rw [foldl_unmap_ref]
    split
    next hb => exact (h b hb).symm
    next => rfl

theorem foldl_unmap_none (h : ∀ a ∈ as, s.ref a = none) : as.foldl unmap s = s := by
  induction as with
  | nil => rfl
  | cons a as ih =>
    rw [forall_mem_cons] at h
    rw [foldl_cons, unmap, h.1]
    exact ih h.2

theorem owned_of_none (h : ∀ a ∈ as, s.ref a = none) : Owned as s := by
  intro a ha p hap
  rw [h a ha] at hap
  exact absurd hap nofun

theorem idtab_lt {um : User} {a : ℕ} {header : Idtab} (h : idtab um a = some header) : header.i_loc < 2 ^ 16 := by
  rw [idtab] at h
  split at h
  · rw [← Option.some.inj h]
    exact BitVec.isLt _
  · exact absurd h nofun

/-- The request is turned away before anything is given up. -/
def Refused (q : Request) (s : Sys n) : Prop :=
  q.suser = false ∨ q.name ≠ 0 ∧ (upath q.um q.name MAXDNAME = .ok [] ∨ affected q s = [] ∨
    q.map ≠ 0 ∧ idtab q.um q.map = none)

/-- The new table can be made, after the old ones are given up. -/
def Room (q : Request) (rfsize fuel : ℕ) (s : Sys n) : Prop :=
  ∀ header, idtab q.um q.map = some header →
    (∃ ref heap, h_alloc rfsize fuel (tableSize header) ((affected q s).foldl unmap s).heap =
      some (some ref, heap)) ∧ readTable q header.i_loc ≠ none

theorem newMap_proper_iff {q : Request} {rfsize fuel : ℕ} (hr : headSize ≤ rfsize) {live : ℕ → Option ℕ}
    (h : Inv rfsize ⟨s.heap, live⟩) (hfuel : rfsize < fuel) {sname : List Byte} {header : Idtab}
    (hheader : idtab q.um q.map = some header) (has : affected q s = refps sname q.dev s) :
    (∃ r, newMap q rfsize fuel header (refps sname q.dev s) ((refps sname q.dev s).foldl unmap s) = some r ∧
      Proper q s r) ↔
      Owned (affected q s) s ∧ ((∀ a ∈ affected q s, s.ref a = none) ∨ Room q rfsize fuel s) := by
  have hlate {e : Errno} {t : Sys n} (href : t.ref = ((refps sname q.dev s).foldl unmap s).ref) :
      Proper q s ⟨some e, none, t⟩ ↔ ∀ a ∈ refps sname q.dev s, s.ref a = none := by
    rw [Proper, if_neg nofun]
    dsimp only
    rw [href, foldl_unmap_same]
  rw [newMap, has]
  cases halloc : h_alloc rfsize fuel (tableSize header) ((refps sname q.dev s).foldl unmap s).heap with
  | none =>
    refine iff_of_false (fun ⟨r, hr, _⟩ => nomatch hr) fun ⟨_, hgood⟩ => ?_
    rcases hgood with hnone | hroom
    · have hsize : tableSize header < 2 ^ 31 := by
        have hlt := idtab_lt hheader
        rw [tableSize, headsize, cachesize]
        omega
      rw [foldl_unmap_none hnone] at halloc
      have hsome := h.total hr hsize hfuel
      rw [halloc] at hsome
      exact absurd hsome nofun
    · obtain ⟨⟨ref, heap, hsome⟩, -⟩ := hroom header hheader
      rw [has, halloc] at hsome
      exact nomatch hsome
  | some res =>
    obtain ⟨block, heap⟩ := res
    cases block with
    | none =>
      dsimp only
      have hroom : ¬Room q rfsize fuel s := by
        intro hroom
        obtain ⟨⟨ref, heap', hsome⟩, -⟩ := hroom header hheader
        rw [has, halloc] at hsome
        exact nomatch hsome
      rw [or_iff_left hroom, and_iff_right_of_imp owned_of_none]
      simp only [Option.some.injEq, exists_eq_left']
      exact hlate rfl
    | some ref =>
      dsimp only
      cases htable : readTable q header.i_loc with
      | none =>
        dsimp only
        have hroom : ¬Room q rfsize fuel s := fun hroom => (hroom header hheader).2 htable
        rw [or_iff_left hroom, and_iff_right_of_imp owned_of_none]
        simp only [Option.some.injEq, exists_eq_left']
        exact hlate rfl
      | some recs =>
        dsimp only
        have hroom : Room q rfsize fuel s := by
          intro header' hheader'
          rw [hheader] at hheader'
          obtain rfl := Option.some.inj hheader'
          rw [has, htable]
          exact ⟨⟨ref, heap, halloc⟩, nofun⟩
        rw [and_iff_left (.inr hroom)]
        simp only [Option.some.injEq, exists_eq_left']
        rw [Proper, if_pos rfl, has, ← frees_refps]
        refine renewed_iff (fun b => ?_) ?_
        · dsimp only
          rw [assign_ref]
          split
          · rfl
          next hb => exact (foldl_unmap_ref _ s b).trans (if_neg hb)
        · exact (assign_freed _ _ _).trans (foldl_unmap_freed _ s)

/-- `setidmap` does what it should exactly if the request is turned away before anything is given up, or nothing
else refers to the old tables, and there are none or the new one can be made. -/
theorem setidmap_proper_iff {rfsize fuel : ℕ} (hr : headSize ≤ rfsize) {live : ℕ → Option ℕ}
    (h : Inv rfsize ⟨s.heap, live⟩) (hfuel : rfsize < fuel) (q : Request) :
    (∃ r, setidmap q rfsize fuel s = some r ∧ Proper q s r) ↔
      Refused q s ∨ Owned (affected q s) s ∧
        (q.name = 0 ∨ q.map = 0 ∨ (∀ a ∈ affected q s, s.ref a = none) ∨ Room q rfsize fuel s) := by
  have hrefused (e : Errno) : (∃ r, some (⟨some e, none, s⟩ : Result n) = some r ∧ Proper q s r) :=
    ⟨_, rfl, by rw [Proper, if_neg nofun]⟩
  rw [setidmap]
  split
  next hsuser => exact iff_of_true (hrefused _) (.inl (.inl hsuser))
  next hsuser =>
    split
    next hname =>
      have hnot : ¬Refused q s := fun hre => hre.elim hsuser fun hre => hre.1 hname
      rw [or_iff_right hnot, and_iff_left (.inl hname)]
      simp only [Option.some.injEq, exists_eq_left']
      rw [Proper, if_pos rfl, affected, if_pos hname, ← frees_all]
      exact renewed_iff (clearAll_ref s) (clearAll_freed s)
    next hname =>
      have has (sname : List Byte) (hp : upath q.um q.name MAXDNAME = .ok sname) :
          affected q s = refps sname q.dev s := by rw [affected, if_neg hname, hp]
      cases hp : upath q.um q.name MAXDNAME with
      | error j =>
        have hnil : affected q s = [] := by rw [affected, if_neg hname, hp]
        exact iff_of_true (hrefused _) (.inl (.inr ⟨hname, .inr (.inl hnil)⟩))
      | ok sname =>
        dsimp only
        split
        next hempty => exact iff_of_true (hrefused _) (.inl (.inr ⟨hname, .inl (hempty ▸ hp)⟩))
        next hempty =>
          split
          next hnone => exact iff_of_true (hrefused _) (.inl (.inr ⟨hname, .inr (.inl ((has sname hp).trans hnone))⟩))
          next hnone =>
            have hnot (hmap : q.map = 0 ∨ idtab q.um q.map ≠ none) : ¬Refused q s := by
              rintro (hre | ⟨-, hre | hre | ⟨hre, hre'⟩⟩)
              · exact hsuser hre
              · exact hempty (Except.ok.inj (hp.symm.trans hre))
              · exact hnone ((has sname hp).symm.trans hre)
              · exact hmap.elim hre fun hsome => hsome hre'
            split
            next hmap =>
              rw [or_iff_right (hnot (.inl hmap)), and_iff_left (.inr (.inl hmap))]
              simp only [Option.some.injEq, exists_eq_left']
              rw [Proper, if_pos rfl, has sname hp, ← frees_refps]
              refine renewed_iff (fun b => ?_) ((assign_freed _ _ _).trans (foldl_unmap_freed _ s))
              dsimp only
              rw [assign_ref, foldl_unmap_ref]
              split <;> rfl
            next hmap =>
              cases hheader : idtab q.um q.map with
              | none => exact iff_of_true (hrefused _) (.inl (.inr ⟨hname, .inr (.inr ⟨hmap, hheader⟩)⟩))
              | some header =>
                have hsome : idtab q.um q.map ≠ none := by
                  rw [hheader]
                  exact nofun
                rw [or_iff_right (hnot (.inr hsome)), or_iff_right hname, or_iff_right hmap]
                exact newMap_proper_iff hr h hfuel hheader (has sname hp)

/-! ## A table that is too big -/

/-- A heap with one block, for a table with no records -/
def oneBlock : Hist := ((⟨unmade, fun _ => none⟩ : Hist).next 200 (.h_alloc 201 36)).getD ⟨unmade, fun _ => none⟩

theorem oneBlock_inv : Inv 200 oneBlock :=
  inv_step (a := .h_alloc 201 36) (by decide) (unmade_inv 200) rfl

theorem one_circuit : NeZero 1 := ⟨Nat.one_ne_zero⟩

attribute [local instance] one_circuit

/-- One circuit, to the machine `a`, with that table for its users -/
def oneCircuit : Sys 1 where
  gdp := fun _ => ⟨1, [97]⟩
  ref := fun b => if b = .idmap 0 .uid then some 4 else none
  map := fun _ => Auth.setidmap (fun _ => ⟨0, 0⟩) 0 []
  heap := oneBlock.sys
  freed := []

/-- A request for the machine `a`, with a table of 1000 records, or none -/
def request (map : ℕ) : Request where
  suser := true
  um := fun a => ([0, 0, 0, 0, 0, 0, 0, 0, 97, 0, 0, 0, 0, 0, 3, 232] : List Byte)[a]?
  name := 8
  flag := 0
  map := map

theorem oneCircuit_ref {b : Place 1} {p : ℕ} (h : oneCircuit.ref b = some p) : b = .idmap 0 .uid := by
  by_contra hb
  rw [oneCircuit] at h
  dsimp only at h
  rw [if_neg hb] at h
  exact Option.some_ne_none _ h.symm

theorem setidmap_proper_removed :
    ∃ r, setidmap (request 0) 200 201 oneCircuit = some r ∧ Proper (request 0) oneCircuit r :=
  (setidmap_proper_iff (by decide) oneBlock_inv (by decide) (request 0)).mpr
    (.inr ⟨fun _ _ _ ha _ hb => .inl ((oneCircuit_ref hb).trans (oneCircuit_ref ha).symm), .inr (.inl rfl)⟩)

/-- The request fails, and the old table is gone. -/
theorem setidmap_loses_map : ¬∀ n (s : Sys n) rfsize fuel live q, headSize ≤ rfsize → Inv rfsize ⟨s.heap, live⟩ →
    rfsize < fuel → ∃ r, setidmap q rfsize fuel s = some r ∧ Proper q s r := by
  intro h
  obtain ⟨r, hr, hproper⟩ := h 1 oneCircuit 200 201 oneBlock.live (request 12) (by decide) oneBlock_inv (by decide)
  have hrun : ((setidmap (request 12) 200 201 oneCircuit).any fun r =>
      r.u_error = some .ENOMEM ∧ r.sys.ref (.idmap 0 .uid) = none) = true := by
    decide +kernel
  rw [hr] at hrun
  obtain ⟨herr, href⟩ := of_decide_eq_true hrun
  rw [Proper, if_neg (by rw [herr]; exact nofun)] at hproper
  rw [hproper] at href
  exact nomatch href

end Svr3.Setidmap
