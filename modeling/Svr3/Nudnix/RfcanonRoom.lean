import Svr3.Nudnix.RfcanonDents

/-!
# The room for the entries of a listing

An entry is 4 or 8 bytes longer in the canonical form. `dentcanon` looks neither at the end of its `cbuf` nor at
the end of the data of the message.
-/

namespace Svr3.Canon

variable {k : Stack} {m : Mem} {d : ℕ} {e : Dirent} {es : List Dirent}

/-- `dentcanon` stays in its `cbuf` and in the data of the message at `d`. -/
def StaysInside (k : Stack) (count : BitVec 32) (d : ℕ) (flag : Bool) (m : Mem) : Prop :=
  ∃ n m', dentcanon k count d d flag m = some (n, m') ∧ n ≤ DATASIZE ∧
    ∀ x, x < d ∨ d + DATASIZE ≤ x → x < k.dbuf ∨ k.dbuf + cbufSize ≤ x → m' x = m x

theorem csize_le (e : Dirent) : e.csize ≤ e.reclen + 8 ∧ 3 * e.csize ≤ 5 * e.reclen := by
  rw [Dirent.csize, Dirent.reclen, round4, round4]
  omega

/-- The loop runs over the end of `cbuf`. What it has written there before that is five thirds of what it has read,
so it has not come to the records yet. -/
theorem dentLoop_over (flag : Bool) {fuel src tlen : ℕ} (h : Entries m src es) (hs : src % 2 = 0)
    (hk : (k.dbuf + tlen) % 2 = 0) (hfuel : reclens es ≤ fuel) (hle : d ≤ src) (htlen : tlen ≤ cbufSize)
    (hread : 3 * tlen ≤ 5 * (src - d)) (hend : src + reclens es ≤ d + DATASIZE)
    (hover : cbufSize < tlen + csizes es) (hapart : k.dbuf + cbufSize ≤ d ∨ d + DATASIZE ≤ k.dbuf) :
    dentLoop k flag fuel (reclens es : ℕ) src tlen m = none := by
  have hbuf : cbufSize = 1400 := rfl
  have hdata : DATASIZE = 1024 := rfl
  induction es generalizing src tlen fuel m with
  | nil =>
    have hnil : csizes [] = 0 := rfl
    omega
  | cons e es ih =>
    have hb := reclen_bounds e
    have hc := csize_le e
    have hlens := reclens_cons e es
    have hsizes := csizes_cons e es
    obtain ⟨fuel, rfl⟩ : ∃ n, fuel = n + 1 := ⟨fuel - 1, by omega⟩
    obtain ⟨m1, hturn, -, hrest, -⟩ := dentLoop_turn flag fuel h hs hk (by omega) (by omega)
    rw [hturn]
    split
    · rfl
    · have hk' : (k.dbuf + (tlen + e.csize)) % 2 = 0 := by omega
      have hs' : (src + e.reclen) % 2 = 0 := by omega
      have hfuel' : reclens es ≤ fuel := by omega
      exact ih hrest hs' hk' hfuel' (by omega) (by omega) (by omega) (by omega) (by omega)

theorem toNat_ofNat_reclens (hlen : reclens es ≤ DATASIZE) : (BitVec.ofNat 32 (reclens es)).toNat = reclens es := by
  rw [DATASIZE] at hlen
  rw [BitVec.toNat_ofNat]
  exact Nat.mod_eq_of_lt (by omega)

theorem dentcanon_over (flag : Bool) (h : Entries m d es) (hd : d % 2 = 0) (hk : k.dbuf % 2 = 0)
    (hlen : reclens es ≤ DATASIZE) (hover : cbufSize < csizes es)
    (hapart : k.dbuf + cbufSize ≤ d ∨ d + DATASIZE ≤ k.dbuf) :
    dentcanon k (BitVec.ofNat 32 (reclens es)) d d flag m = none := by
  have hdata : DATASIZE = 1024 := rfl
  have hnat := toNat_ofNat_reclens hlen
  have hint : (BitVec.ofNat 32 (reclens es)).toInt = (reclens es : ℕ) := by
    rw [BitVec.toInt_eq_toNat_of_lt (by omega), hnat]
  have hdbuf : (k.dbuf + 0) % 2 = 0 := hk
  rw [dentcanon, hint, hnat, dentLoop_over flag h hd hdbuf (Nat.le_refl _) (Nat.le_refl d) (Nat.zero_le _)
    (by omega) (by omega) (by omega) hapart]

/-- The number of bytes that go back is the length of the canonical forms. -/
theorem dentcanon_length {n : ℕ} {m' : Mem} {flag : Bool} (h : Entries m d es) (hd : d % 2 = 0) (hk : k.dbuf % 2 = 0)
    (hlen : reclens es ≤ DATASIZE) (hapart : k.dbuf + cbufSize ≤ d ∨ d + DATASIZE ≤ k.dbuf)
    (hrun : dentcanon k (BitVec.ofNat 32 (reclens es)) d d flag m = some (n, m')) : n = csizes es := by
  have hdata : DATASIZE = 1024 := rfl
  have hfit : csizes es ≤ cbufSize := by
    by_contra hover
    rw [dentcanon_over flag h hd hk hlen (by omega) hapart] at hrun
    exact Option.some_ne_none _ hrun.symm
  have hnat := toNat_ofNat_reclens hlen
  have hint : (BitVec.ofNat 32 (reclens es)).toInt = (reclens es : ℕ) := by
    rw [BitVec.toInt_eq_toNat_of_lt (by omega), hnat]
  have hdbuf : (k.dbuf + 0) % 2 = 0 := hk
  obtain ⟨m1, hloop, -, -⟩ := dentLoop_spec flag h hd hdbuf (Nat.le_refl _) (by omega) (by omega) (by omega)
  rw [dentcanon, hint, hnat, hloop, Nat.zero_add] at hrun
  exact (congrArg Prod.fst (Option.some.inj hrun)).symm

/-- The conversion stays in its buffers exactly if the canonical forms fit in the data of the message. -/
theorem dents_inside_iff (flag : Bool) (h : Entries m d es) (hd : d % 2 = 0) (hk : k.dbuf % 2 = 0)
    (hlen : reclens es ≤ DATASIZE) (hapart : k.dbuf + cbufSize ≤ d ∨ d + DATASIZE ≤ k.dbuf) :
    StaysInside k (BitVec.ofNat 32 (reclens es)) d flag m ↔ csizes es ≤ DATASIZE := by
  have hdata : DATASIZE = 1024 := rfl
  constructor
  · rintro ⟨n, m', hrun, hn, -⟩
    rwa [dentcanon_length h hd hk hlen hapart hrun] at hn
  · intro hfit
    have hbuf : csizes es ≤ cbufSize := Nat.le_trans hfit (by decide)
    obtain ⟨m', hrun, -, hsame⟩ := dentcanon_spec flag h hd hk (toNat_ofNat_reclens hlen) (by omega) hbuf
      (by omega)
    exact ⟨csizes es, m', hrun, hfit, fun x hx hxk => hsame x (by omega) hxk⟩

/-! ## Short names -/

/-- An entry with a name of one letter -/
def shortEntry : Dirent where
  d_ino := 0
  d_off := 0
  d_name := [97]
  named := by decide

/-- Such entries, one behind the other from 0 on -/
def shortMem : Mem := fun x => if x % 12 = 9 then 12 else if x % 12 = 10 then 97 else 0

theorem shortMem_entries (i n : ℕ) : Entries shortMem (12 * i) (List.replicate n shortEntry) := by
  induction n generalizing i with
  | zero => trivial
  | succ n ih =>
    have hturn (j : ℕ) (bs : List Byte) (h : Holds shortMem j bs) : Holds shortMem (12 * i + j) bs :=
      h.shift fun x _ => by rw [Nat.add_assoc, shortMem, Nat.mul_add_mod]; rfl
    have heven : 12 * i % 2 = 0 := by omega
    have h4 : (12 * i + 4) % 2 = 0 := by omega
    have h8 : (12 * i + 4 + 4) % 2 = 0 := by omega
    refine ⟨?_, ih (i + 1)⟩
    simp only [Dirent.fields, Local, Field.loc, Field.bytes, be32_length, be16_length, align_of_even heven,
      align_of_even h4, align_of_even h8]
    exact ⟨hturn 0 _ ⟨rfl, rfl, rfl, rfl, trivial⟩, hturn 4 _ ⟨rfl, rfl, rfl, rfl, trivial⟩,
      hturn 8 _ ⟨rfl, rfl, trivial⟩, hturn 10 _ ⟨rfl, rfl, trivial⟩, trivial⟩

theorem dents_inside_short : StaysInside ⟨4000, 2000⟩ (BitVec.ofNat 32 (reclens [shortEntry])) 0 true shortMem :=
  (dents_inside_iff true (shortMem_entries 0 1) rfl rfl (by decide) (by decide)).mpr (by decide)

/-- The room is not enough for 85 names of one letter: their records have 1020 bytes, the canonical forms 1700. -/
theorem dents_outside : ¬∀ (k : Stack) (m : Mem) (d : ℕ) (es : List Dirent) (flag : Bool), Entries m d es →
    d % 2 = 0 → k.dbuf % 2 = 0 → reclens es ≤ DATASIZE →
    (k.dbuf + cbufSize ≤ d ∨ d + DATASIZE ≤ k.dbuf) →
    StaysInside k (BitVec.ofNat 32 (reclens es)) d flag m := by
  intro h
  have hlen : reclens (List.replicate 85 shortEntry) ≤ DATASIZE := by decide +kernel
  have hover : cbufSize < csizes (List.replicate 85 shortEntry) := by decide +kernel
  have hnone := dentcanon_over (k := ⟨4000, 2000⟩) true (shortMem_entries 0 85) rfl rfl hlen hover (by decide)
  obtain ⟨n, m', hrun, -⟩ := h ⟨4000, 2000⟩ shortMem 0 _ true (shortMem_entries 0 85) rfl rfl hlen (by decide)
  rw [hnone] at hrun
  exact Option.some_ne_none _ hrun.symm

end Svr3.Canon
