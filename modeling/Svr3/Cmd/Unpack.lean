import Mathlib.Data.BitVec

/-!
# The tables of `unpack`

`getdict` and `decode` of `cmd/unpack/unpack.c`. The dictionary of a file says how many leaves each level of the
tree has, and nothing checks that they make a complete code. The number of internal nodes of a level is half the
number of nodes below it, so the place on a level never goes beyond its leaves.
-/

namespace Svr3.Unpack

open Function List

/-! ## The dictionary -/

def US : UInt8 := 0x1f

def RS : UInt8 := 0x1e

def BUFSIZ : ℕ := 1024

/-- `intnodes`, `tree`, `characters` and `eof`. An entry of `tree` is the index of the first leaf of the level, or
`none` if it is not set for this file. -/
structure Tables where
  maxlev : ℕ
  intnodes : ℕ → ℕ
  tree : ℕ → Option ℕ
  characters : ℕ → UInt8
  eof : ℕ

/-- The tables and the index of `inp` -/
structure Filling extends Tables where
  inp : ℕ

/-- `for (c=intnodes[i]; c>0; c--)` -/
def fillLevel (inbuff : ℕ → UInt8) : ℕ → Filling → Option Filling
  | 0, f => some f
  | c + 1, f =>
    if f.eof ≥ 255 then none
    else fillLevel inbuff c
      { f with
        characters := update f.characters f.eof (inbuff f.inp)
        eof := f.eof + 1
        inp := f.inp + 1 }

/-- The levels `i`, `i + 1`, … -/
def fill (inbuff : ℕ → UInt8) : ℕ → ℕ → Filling → Option Filling
  | 0, _, f => some f
  | n + 1, i, f => do
    let f ← fillLevel inbuff (f.intnodes i) { f with tree := update f.tree i (some f.eof) }
    fill inbuff n (i + 1) f

/-- `for (i=maxlev; i>=1; i--)` -/
def children : ℕ → ℕ → (ℕ → ℕ) → ℕ → ℕ
  | 0, _, intnodes => intnodes
  | i + 1, nchildren, intnodes =>
    children i (nchildren / 2 + intnodes (i + 1)) (update intnodes (i + 1) (nchildren / 2))

/-- The counts of the leaves, from the byte `inp` on -/
def counts (inbuff : ℕ → UInt8) (intnodes : ℕ → ℕ) (maxlev inp : ℕ) (i : ℕ) : ℕ :=
  if 1 ≤ i ∧ i ≤ maxlev then (inbuff (inp + i - 1)).toNat else intnodes i

/-- What `getdict` comes to: an error, the older format or a dictionary with the rest of the file -/
inductive Got where
  | goof
  | oldstyle
  | dict (t : Tables) (origsize : BitVec 32) (rest : List UInt8)

/-- `inbuff` after `inbuff[6] = 25` and the first `read` -/
def buffer (stale : ℕ → UInt8) (file : List UInt8) (i : ℕ) : UInt8 :=
  if i < min file.length BUFSIZ then file.getD i 0 else if i = 6 then 25 else stale i

/-- `getdict` for a file of the bytes `file`, with the tables and the buffer as the file before left them -/
def getdict (old : Tables) (stale : ℕ → UInt8) (file : List UInt8) : Got :=
  let inleft := min file.length BUFSIZ
  let inbuff := buffer stale file
  if inbuff 0 ≠ US then .goof
  else if inbuff 1 = US then .oldstyle
  else if inbuff 1 ≠ RS then .goof
  else
    let origsize := (List.range 4).foldl (fun n k => n * 256 + BitVec.ofNat 32 (inbuff (2 + k)).toNat) 0
    let maxlev := (inbuff 6).toNat
    if maxlev > 24 then .goof
    else
      let intnodes := counts inbuff old.intnodes maxlev 7
      match fill inbuff maxlev 1 ⟨⟨maxlev, intnodes, fun _ => none, old.characters, 0⟩, 7 + maxlev⟩ with
      | none => .goof
      | some f =>
        let characters := update f.characters f.eof (inbuff f.inp)
        let intnodes := update f.intnodes maxlev (f.intnodes maxlev + 2)
        if inleft < f.inp + 1 then .goof
        else .dict ⟨maxlev, children maxlev 0 intnodes, f.tree, characters, f.eof + 1⟩ origsize
          (file.drop (f.inp + 1))

/-! ## The data -/

/-- A run of the loop over the bits: each value of `lev`, each pointer `&tree[lev][j]` with whether it is
dereferenced, the characters and whether the end was reached -/
structure Run where
  levs : List ℕ
  ptrs : List (Option ℕ × Bool)
  out : List UInt8
  ended : Bool

/-- The bits of a byte, highest first -/
def bits (c : UInt8) : List Bool := (List.range 8).map fun k => c.toNat.testBit (7 - k)

/-- `while (--bitsleft >= 0)` through all of the data. A pointer that comes from no entry ends the run. -/
def decodeBits (t : Tables) : List Bool → ℕ → ℕ → Run
  | [], lev, _ => ⟨[lev], [], [], false⟩
  | b :: bs, lev, i =>
    let i := 2 * i + b.toNat
    if t.intnodes lev ≤ i then
      let p := (t.tree lev).map fun q => q + (i - t.intnodes lev)
      if p = some t.eof then ⟨[lev], [(p, false)], [], true⟩
      else
        match p with
        | none => ⟨[lev], [(none, true)], [], false⟩
        | some q =>
          let r := decodeBits t bs 1 0
          ⟨lev :: r.levs, (p, true) :: r.ptrs, t.characters q :: r.out, r.ended⟩
    else
      let r := decodeBits t bs (lev + 1) i
      { r with levs := lev :: r.levs }

/-- `decode`: the run, and what is returned -/
def decode (t : Tables) (origsize : BitVec 32) (rest : List UInt8) : Run × Bool :=
  let r := decodeBits t (rest.flatMap bits) 1 0
  (r, r.ended && origsize == BitVec.ofNat 32 r.out.length)

/-- The levels are those of the file, and the pointers go into the characters set for it. -/
structure Within (t : Tables) (r : Run) : Prop where
  levs : ∀ lev ∈ r.levs, 1 ≤ lev ∧ lev ≤ t.maxlev
  ptrs : ∀ q ∈ r.ptrs, ∃ p, q.1 = some p ∧ p ≤ 256 ∧ (q.2 = true → p < t.eof)

/-! ## The leaves -/

theorem fillLevel_spec {inbuff : ℕ → UInt8} {c : ℕ} {f f' : Filling} (h : fillLevel inbuff c f = some f')
    (hroom : f.eof ≤ 255) :
    f'.tree = f.tree ∧ f'.intnodes = f.intnodes ∧ f'.eof = f.eof + c ∧ f'.eof ≤ 255 ∧ f.inp ≤ f'.inp := by
  induction c generalizing f with
  | zero =>
    obtain rfl := Option.some.inj h
    exact ⟨rfl, rfl, rfl, hroom, Nat.le_refl _⟩
  | succ c ih =>
    rw [fillLevel] at h
    split at h
    next => exact absurd h nofun
    next hlt =>
      obtain ⟨htree, hnodes, heof, hle, hinp⟩ := ih h (show f.eof + 1 ≤ 255 by omega)
      refine ⟨htree, hnodes, ?_, hle, Nat.le_trans (Nat.le_succ _) hinp⟩
      rw [heof, Nat.add_assoc, Nat.add_comm 1]

/-- Where the leaves of the levels `i` to `i + n - 1` are -/
structure Laid (f f' : Filling) (n i : ℕ) : Prop where
  intnodes : f'.intnodes = f.intnodes
  eof : f.eof ≤ f'.eof ∧ f'.eof ≤ 255
  inp : f.inp ≤ f'.inp
  other : ∀ l < i, f'.tree l = f.tree l
  first : 0 < n → f'.tree i = some f.eof
  level : ∀ l, i ≤ l → l < i + n → ∃ q, f'.tree l = some q ∧ q + f.intnodes l ≤ f'.eof
  last : ∀ l, l + 1 = i + n → i ≤ l → ∃ q, f'.tree l = some q ∧ q + f.intnodes l = f'.eof

theorem fill_spec {inbuff : ℕ → UInt8} {n i : ℕ} {f f' : Filling} (h : fill inbuff n i f = some f')
    (hroom : f.eof ≤ 255) : Laid f f' n i := by
  induction n generalizing i f with
  | zero =>
    obtain rfl := Option.some.inj h
    exact ⟨rfl, ⟨Nat.le_refl _, hroom⟩, Nat.le_refl _, fun _ _ => rfl, fun h => absurd h (Nat.lt_irrefl 0),
      fun l h1 h2 => by omega, fun l h1 h2 => by omega⟩
  | succ n ih =>
    rw [fill, Option.bind_eq_bind, Option.bind_eq_some_iff] at h
    obtain ⟨g, hg, hrest⟩ := h
    obtain ⟨htree, hnodes, heof, hle, hinp⟩ := fillLevel_spec hg hroom
    dsimp only at htree heof hnodes hinp
    have hlaid := ih hrest hle
    have hi : f'.tree i = some f.eof := by
      rw [hlaid.other i (Nat.lt_succ_self i), htree, update_self]
    have hlow := hlaid.eof
    refine ⟨hlaid.intnodes.trans hnodes, ⟨by omega, hlow.2⟩, Nat.le_trans hinp hlaid.inp, fun l hl => ?_,
      fun _ => hi, fun l h1 h2 => ?_, fun l h1 h2 => ?_⟩
    · rw [hlaid.other l (by omega), htree, update_of_ne (by omega)]
    · rcases Nat.eq_or_lt_of_le h1 with rfl | hlt
      · exact ⟨f.eof, hi, by omega⟩
      · rw [← hnodes]
        exact hlaid.level l hlt (by omega)
    · rcases Nat.eq_or_lt_of_le h2 with rfl | hlt
      · obtain rfl : n = 0 := by omega
        obtain rfl := Option.some.inj hrest
        exact ⟨f.eof, hi, heof.symm⟩
      · rw [← hnodes]
        exact hlaid.last l (by omega) hlt

/-! ## The internal nodes -/

/-- No level has more internal nodes than half of the nodes of the next one. -/
theorem children_spec (n nchildren : ℕ) (f : ℕ → ℕ) :
    (∀ l, n < l → children n nchildren f l = f l) ∧
      (0 < n → children n nchildren f n = nchildren / 2) ∧
      ∀ l, 1 ≤ l → l < n → 2 * children n nchildren f l ≤ children n nchildren f (l + 1) + f (l + 1) := by
  induction n generalizing nchildren f with
  | zero => exact ⟨fun _ _ => rfl, fun h => absurd h (Nat.lt_irrefl 0), fun l h1 h2 => by omega⟩
  | succ n ih =>
    obtain ⟨hother, htop, hhalf⟩ := ih (nchildren / 2 + f (n + 1)) (update f (n + 1) (nchildren / 2))
    rw [children]
    have hself := hother (n + 1) (Nat.lt_succ_self n)
    rw [update_self] at hself
    refine ⟨fun l hl => ?_, fun _ => hself, fun l h1 h2 => ?_⟩
    · rw [hother l (by omega), update_of_ne (by omega)]
    · rcases Nat.eq_or_lt_of_le (Nat.le_of_lt_succ h2) with rfl | hlt
      · rw [htop h1, hself]
        omega
      · have hle := hhalf l h1 hlt
        rwa [update_of_ne (by omega)] at hle

/-! ## The run -/

/-- Tables of a dictionary with at least one level: the places on a level end with its leaves. -/
structure Sound (t : Tables) : Prop where
  maxlev : 1 ≤ t.maxlev
  last : t.intnodes t.maxlev = 0
  eof : 1 ≤ t.eof ∧ t.eof ≤ 256
  first : t.tree 1 = some 0
  level : ∀ l, 1 ≤ l → l < t.maxlev → ∃ q, t.tree (l + 1) = some q ∧
    q + 2 * t.intnodes l ≤ t.eof + 1 + t.intnodes (l + 1)

theorem getdict_maxlev {old t : Tables} {stale : ℕ → UInt8} {file rest : List UInt8} {origsize : BitVec 32}
    (h : getdict old stale file = .dict t origsize rest) :
    t.maxlev = (file.getD 6 0).toNat ∧ (1 ≤ t.maxlev → Sound t) := by
  rw [getdict] at h
  dsimp only at h
  split at h
  · exact absurd h nofun
  split at h
  · exact absurd h nofun
  split at h
  · exact absurd h nofun
  split at h
  · exact absurd h nofun
  split at h
  · exact absurd h nofun
  next f hf =>
    split at h
    · exact absurd h nofun
    next hlen =>
      obtain ⟨rfl, -, -⟩ := Got.dict.inj h
      have hlaid := fill_spec hf (show 0 ≤ 255 by decide)
      have hinp := hlaid.inp
      have heof := hlaid.eof
      dsimp only at hinp heof ⊢
      refine ⟨?_, fun hone => ?_⟩
      · rw [buffer, if_pos (by omega)]
      · obtain ⟨m, hm⟩ : ∃ m, (buffer stale file 6).toNat = m := ⟨_, rfl⟩
        rw [hm] at hone hlaid ⊢
        obtain ⟨hother, htop, hhalf⟩ := children_spec m 0 (update f.intnodes m (f.intnodes m + 2))
        refine ⟨hone, htop hone, ⟨Nat.succ_pos _, Nat.succ_le_succ heof.2⟩, hlaid.first hone, fun l h1 h2 => ?_⟩
        have hle := hhalf l h1 h2
        dsimp only at h2 ⊢
        rcases Nat.eq_or_lt_of_le (show l + 1 ≤ m from h2) with rfl | hlt
        · obtain ⟨q, hq, hend⟩ := hlaid.last (l + 1) (by omega) (by omega)
          rw [update_self] at hle
          rw [← hlaid.intnodes] at hend
          exact ⟨q, hq, by omega⟩
        · obtain ⟨q, hq, hend⟩ := hlaid.level (l + 1) (by omega) (by omega)
          rw [update_of_ne (by omega)] at hle
          rw [← hlaid.intnodes] at hend
          exact ⟨q, hq, by omega⟩

theorem Sound.step {t : Tables} (h : Sound t) {lev i : ℕ} (b : Bool) (hlev : 1 ≤ lev ∧ lev ≤ t.maxlev)
    (hplace : lev = 1 ∧ i = 0 ∨ ∃ l, lev = l + 1 ∧ 1 ≤ l ∧ i < t.intnodes l) :
    (t.intnodes lev ≤ 2 * i + b.toNat →
        ∃ q, t.tree lev = some q ∧ q + (2 * i + b.toNat - t.intnodes lev) ≤ t.eof) ∧
      (2 * i + b.toNat < t.intnodes lev → lev + 1 ≤ t.maxlev) := by
  have hbit := b.toNat_le
  have heof := h.eof
  refine ⟨fun hle => ?_, fun hlt => ?_⟩
  · rcases hplace with ⟨rfl, rfl⟩ | ⟨l, rfl, hl, hi⟩
    · exact ⟨0, h.first, by omega⟩
    · obtain ⟨q, hq, hroom⟩ := h.level l hl hlev.2
      exact ⟨q, hq, by omega⟩
  · by_contra htop
    have heq : lev = t.maxlev := by omega
    rw [heq, h.last] at hlt
    omega

theorem Sound.within {t : Tables} (h : Sound t) (bs : List Bool) {lev i : ℕ} (hlev : 1 ≤ lev ∧ lev ≤ t.maxlev)
    (hplace : lev = 1 ∧ i = 0 ∨ ∃ l, lev = l + 1 ∧ 1 ≤ l ∧ i < t.intnodes l) :
    Within t (decodeBits t bs lev i) := by
  induction bs generalizing lev i with
  | nil =>
    refine ⟨fun l hl => ?_, nofun⟩
    rw [mem_singleton.mp hl]
    exact hlev
  | cons b bs ih =>
    obtain ⟨hleaf, hnode⟩ := h.step b hlev hplace
    have heof := h.eof
    rw [decodeBits]
    dsimp only
    split
    next hle =>
      obtain ⟨q, hq, hroom⟩ := hleaf hle
      rw [hq, Option.map_some]
      split
      next hend =>
        refine ⟨fun l hl => ?_, fun r hr => ?_⟩
        · rw [mem_singleton.mp hl]
          exact hlev
        · rw [mem_singleton.mp hr]
          exact ⟨_, rfl, by omega, nofun⟩
      next hne =>
        have hbelow : q + (2 * i + b.toNat - t.intnodes lev) < t.eof :=
          Nat.lt_of_le_of_ne hroom fun heq => hne (congrArg some heq)
        have hrest := ih ⟨Nat.le_refl 1, h.maxlev⟩ (.inl ⟨rfl, rfl⟩)
        refine ⟨fun l hl => ?_, fun r hr => ?_⟩
        · rcases mem_cons.mp hl with rfl | hl
          · exact hlev
          · exact hrest.levs l hl
        · rcases mem_cons.mp hr with rfl | hr
          · exact ⟨_, rfl, by omega, fun _ => hbelow⟩
          · exact hrest.ptrs r hr
    next hlt =>
      have hnext := hnode (by omega)
      have hrest := ih ⟨by omega, hnext⟩ (.inr ⟨lev, rfl, hlev.1, not_le.mp hlt⟩)
      refine ⟨fun l hl => ?_, hrest.ptrs⟩
      rcases mem_cons.mp hl with rfl | hl
      · exact hlev
      · exact hrest.levs l hl

theorem levs_head (t : Tables) (bs : List Bool) (lev i : ℕ) : lev ∈ (decodeBits t bs lev i).levs := by
  cases bs with
  | nil => exact mem_singleton_self lev
  | cons b bs =>
    rw [decodeBits]
    dsimp only
    split
    · split
      · exact mem_singleton_self lev
      · split
        · exact mem_singleton_self lev
        · exact mem_cons_self
    · exact mem_cons_self

/-- Whatever the data are, the run stays within the tables of the dictionary if that has a level. It does so only
then. -/
theorem decode_within {old t : Tables} {stale : ℕ → UInt8} {file rest : List UInt8} {origsize : BitVec 32}
    (h : getdict old stale file = .dict t origsize rest) (data : List UInt8) :
    Within t (decode t origsize data).1 ↔ file.getD 6 0 ≠ 0 := by
  obtain ⟨hmaxlev, hsound⟩ := getdict_maxlev h
  have hzero : file.getD 6 0 = 0 ↔ t.maxlev = 0 := by
    rw [hmaxlev]
    exact UInt8.toNat_inj.symm
  rw [Ne, hzero]
  refine ⟨fun hwithin hnone => ?_, fun hne => ?_⟩
  · have hstart := hwithin.levs 1 (levs_head t _ 1 0)
    omega
  · have hone : 1 ≤ t.maxlev := Nat.one_le_iff_ne_zero.mpr hne
    exact (hsound hone).within _ ⟨Nat.le_refl 1, hone⟩ (.inl ⟨rfl, rfl⟩)

/-- A dictionary of one level with a character and the end, and both as the data -/
theorem decode_within_one : ∃ t origsize rest,
    getdict ⟨0, fun _ => 0, fun _ => none, fun _ => 0, 0⟩ (fun _ => 0) [31, 30, 0, 0, 0, 1, 1, 0, 97, 64] =
        .dict t origsize rest ∧
      Within t (decode t origsize rest).1 := by
  obtain ⟨t, origsize, rest, h⟩ : ∃ t origsize rest,
      getdict ⟨0, fun _ => 0, fun _ => none, fun _ => 0, 0⟩ (fun _ => 0) [31, 30, 0, 0, 0, 1, 1, 0, 97, 64] =
        .dict t origsize rest := ⟨_, _, _, rfl⟩
  exact ⟨t, origsize, rest, h, (decode_within h rest).mpr (by decide)⟩

/-- A dictionary without levels is not rejected, and `decode` begins with level 1. -/
theorem decode_no_level : ¬ ∀ old stale file t origsize rest, getdict old stale file = .dict t origsize rest →
    Within t (decode t origsize rest).1 := by
  intro hall
  have hwithin := hall ⟨0, fun _ => 0, fun _ => none, fun _ => 0, 0⟩ (fun _ => 0)
    [31, 30, 0, 0, 0, 1, 0, 97, 64] _ _ _ rfl
  exact absurd (hwithin.levs 1 (levs_head _ _ 1 0)).2 (by decide)

end Svr3.Unpack
