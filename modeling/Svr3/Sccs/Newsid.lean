import Svr3.Sccs.Deltas

/-!
# The SID of a new delta

`getser` of `get.c` finds the delta that is edited, and `newsid` the SID that the new delta will have: it is neither
in the delta table nor, with the joint edit flag, in the p-file.
-/

namespace Svr3.Sccs.Get

open List

/-! ## The model -/

/-- The delta table, `p_maxr`, and the p-file if there is one. Serial numbers and the sizes of files are integers. -/
structure Files where
  pkt : Deltas
  p_maxr : BitVec 32
  zone : Zone
  /-- `Sflags[JOINTFLAG - 'a']` -/
  jointflag : Bool
  pfile : Option (List Char)
  maxser_lt : pkt.maxser < 2 ^ 31
  pfile_lt : ∀ p ∈ pfile, p.length < 2 ^ 31

/-- How a loop ends: `loop` says that the turns were not enough. -/
inductive Exit where
  | fault (f : Fault)
  | loop
  deriving DecidableEq

/-- The loop over the lines of the p-file. Behind it nothing is returned, and the register holds the 0 of
`fclose`. -/
def inLines (z : Zone) (sp : Sid) : List (List Char) → Except Fault Bool
  | [] => .ok false
  | line :: lines =>
    if cstr line = [] then .error .wild
    else do
      let pf ← pf_ab z (cstr line).dropLast false
      if pf.nsid = sp then pure true else inLines z sp lines

def in_pfile (f : Files) (sp : Sid) : Except Fault Bool :=
  if f.jointflag then
    match f.pfile with
    | some p => inLines f.zone sp (fetched p.length p)
    | none => .ok false
  else .ok false

/-- Whether the SID is in the delta table -/
def inTable (f : Files) (sp : Sid) : Except Fault Bool := .ok (decide (sidtoser sp f.pkt ≠ 0))

/-- `while (taken) { s_br += 1; ++chkbr; }` -/
def nextBranch (taken : Sid → Except Fault Bool) : ℕ → Sid → ℕ → Except Exit (Sid × ℕ)
  | 0, _, _ => .error .loop
  | fuel + 1, sp, chkbr =>
    match taken sp with
    | .error e => .error (.fault e)
    | .ok false => .ok (sp, chkbr)
    | .ok true => nextBranch taken fuel { sp with br := sp.br + 1 } (chkbr + 1)

/-- `while (chkbr)` -/
def checkBranches (f : Files) (fuel : ℕ) : ℕ → Sid → ℕ → Except Exit Sid
  | _, sp, 0 => .ok sp
  | 0, _, _ + 1 => .error .loop
  | n + 1, sp, chkbr + 1 => do
    let r ← nextBranch (in_pfile f) fuel sp chkbr
    let r ← nextBranch (inTable f) fuel r.1 r.2
    checkBranches f fuel n r.1 r.2

/-- The first SID, and `chkbr` -/
def candidate (f : Files) (branch : Bool) (reqsid gotsid : Sid) : Except Fault (Sid × ℕ) :=
  if reqsid.br = 0 then
    let sp := { reqsid with lev := reqsid.lev + 1 }
    let off : Sid × ℕ := (⟨gotsid.rel, gotsid.lev, gotsid.br + 1, 1⟩, 1)
    if sidtoser sp f.pkt ≠ 0 ∨ sp.rel.slt f.p_maxr ∨ branch then .ok off
    else do
      let b ← in_pfile f sp
      pure (if b then off else (sp, 0))
  else if reqsid.seq = 0 ∧ !branch then .ok ({ reqsid with seq := gotsid.seq + 1 }, 0)
  else
    let sp := { reqsid with seq := reqsid.seq + 1 }
    let off : Sid × ℕ := ({ sp with br := sp.br + 1, seq := 1 }, 1)
    if branch ∨ sidtoser sp f.pkt ≠ 0 then .ok off
    else do
      let b ← in_pfile f sp
      pure (if b then off else (sp, 0))

def badSid : Fault := .fatal "bad SID calculated in newsid()"

/-- The last test of `newsid` -/
def checked (f : Files) (sp : Sid) : Except Exit Sid :=
  if sidtoser sp f.pkt ≠ 0 then .error (.fault badSid)
  else
    match in_pfile f sp with
    | .error e => .error (.fault e)
    | .ok true => .error (.fault badSid)
    | .ok false => .ok sp

/-- The new `p_reqsid`; each loop has `fuel` turns at most. -/
def newsid (fuel : ℕ) (f : Files) (branch : Bool) (reqsid gotsid : Sid) : Except Exit Sid := do
  let r ← (candidate f branch reqsid gotsid).mapError .fault
  let sp ← checkBranches f fuel fuel r.1 r.2
  checked f sp

/-! ## The delta that is edited -/

def chksid (p : List Char) (sp : Sid) : Except Fault Sid :=
  if p ≠ [] ∨ (sp.rel = 0 ∧ sp.lev ≠ 0) ∨ (sp.lev = 0 ∧ sp.br ≠ 0) ∨ (sp.br = 0 ∧ sp.seq ≠ 0) then
    .error (.fatal "invalid sid (co8)")
  else .ok sp

/-- The highest release up to `rel`, with the serial number of its youngest delta -/
def relFrom (hadt : Bool) (rel : BitVec 32) (pkt : Deltas) : ℕ → ℕ → BitVec 32 → ℕ
  | 0, ser, _ => ser
  | n + 1, ser, got =>
    let sid := (pkt.idel (n + 1)).sid
    if (sid.br = 0 ∨ hadt) ∧ sid.rel.sle rel ∧ got.slt sid.rel then relFrom hadt rel pkt n (n + 1) sid.rel
    else relFrom hadt rel pkt n ser got

/-- The youngest delta that is alike, or 0 -/
def serFrom (like : Sid → Bool) (pkt : Deltas) : ℕ → ℕ
  | 0 => 0
  | n + 1 => if like (pkt.idel (n + 1)).sid then n + 1 else serFrom like pkt n

/-- `getser`, with the flag `-t` and `Sflags[DEFTFLAG - 'a']`: the serial number, and the new `p_reqsid`. The SID of
the delta is `p_gotsid`. -/
def getser (hadt : Bool) (deflt : Option (List Char)) (f : Files) (reqsid : Sid) : Except Fault (ℕ × Sid) := do
  let pkt := f.pkt
  let (reqsid, dflt) ←
    if reqsid.rel = 0 then
      match deflt with
      | some p => do
        let sp ← chksid (sid_ab p).2 (sid_ab p).1
        pure (sp, false)
      | none => pure ({ reqsid with rel := MAX }, true)
    else pure (reqsid, false)
  let ser :=
    if reqsid.lev = 0 then relFrom hadt reqsid.rel pkt pkt.maxser 0 0
    else if reqsid.br = 0 ∧ hadt then
      serFrom (fun sid => sid.rel = reqsid.rel ∧ sid.lev = reqsid.lev) pkt pkt.maxser
    else if reqsid.br ≠ 0 ∧ reqsid.seq = 0 then
      serFrom (fun sid => sid.rel = reqsid.rel ∧ sid.lev = reqsid.lev ∧ sid.br = reqsid.br) pkt pkt.maxser
    else sidtoser reqsid pkt
  if ser = 0 then .error (.fatal "nonexistent sid (ge5)")
  else
    let gotsid := (pkt.idel ser).sid
    pure (ser, if dflt ∨ (reqsid.lev = 0 ∧ reqsid.rel = gotsid.rel) then gotsid else reqsid)

/-- `get -e`, up to the new SID: with the flag `-c`, or without a release, the SID that was got is edited. -/
def edit (fuel : ℕ) (hadt hadc branch : Bool) (deflt : Option (List Char)) (f : Files) (reqsid : Sid) :
    Except Exit Sid := do
  let r ← (getser hadt deflt f reqsid).mapError .fault
  let gotsid := (f.pkt.idel r.1).sid
  newsid fuel f branch (if hadc ∨ r.2.rel = 0 then gotsid else r.2) gotsid

/-! ## Taken SIDs -/

section taken

variable {f : Files} {sp : Sid} {e : Fault}

/-- The SID is in the delta table or in the p-file. -/
def Taken (f : Files) (sp : Sid) : Prop := sidtoser sp f.pkt ≠ 0 ∨ in_pfile f sp = .ok true

def text (f : Files) : List Char := f.pfile.getD []

/-- The new SIDs of the lines -/
def newSids (z : Zone) (lines : List (List Char)) : List Sid :=
  lines.filterMap fun line => ((pf_ab z (cstr line).dropLast false).toOption).map Pfile.nsid

def takenSids (f : Files) : List Sid :=
  (List.range f.pkt.maxser).map (fun n => (f.pkt.idel (n + 1)).sid) ++ newSids f.zone (fetched (text f).length (text f))

theorem sidFrom_mem {n : ℕ} {pkt : Deltas} (h : sidFrom sp pkt n ≠ 0) : ∃ m < n, (pkt.idel (m + 1)).sid = sp := by
  induction n with
  | zero => exact absurd rfl h
  | succ n ih =>
    rw [sidFrom] at h
    split at h
    · rename_i heq
      exact ⟨n, Nat.lt_succ_self n, heq⟩
    · obtain ⟨m, hm, heq⟩ := ih h
      exact ⟨m, Nat.lt_succ_of_lt hm, heq⟩

theorem inLines_mem {z : Zone} {lines : List (List Char)} (h : inLines z sp lines = .ok true) :
    sp ∈ newSids z lines := by
  induction lines with
  | nil => exact absurd h (by simp [inLines])
  | cons line lines ih =>
    rw [inLines] at h
    split at h
    · exact absurd h nofun
    · cases hpf : pf_ab z (cstr line).dropLast false with
      | error e =>
        rw [hpf] at h
        exact absurd h nofun
      | ok pf =>
        rw [hpf] at h
        have hcons : newSids z (line :: lines) = pf.nsid :: newSids z lines := by
          rw [newSids, filterMap_cons, hpf]
          rfl
        rw [hcons, mem_cons]
        change (if pf.nsid = sp then Except.ok true else inLines z sp lines) = .ok true at h
        split at h
        · rename_i heq
          exact .inl heq.symm
        · exact .inr (ih h)

theorem Taken.mem (h : Taken f sp) : sp ∈ takenSids f := by
  rw [takenSids, mem_append]
  rcases h with h | h
  · obtain ⟨m, hm, rfl⟩ := sidFrom_mem h
    exact .inl (mem_map.mpr ⟨m, mem_range.mpr hm, rfl⟩)
  · right
    unfold in_pfile at h
    split at h
    · cases hp : f.pfile with
      | none =>
        rw [hp] at h
        exact absurd h (by simp)
      | some p =>
        rw [hp] at h
        rw [text, hp]
        exact inLines_mem h
    · exact absurd h (by simp)

theorem fetched_length (n : ℕ) (p : List Char) : (fetched n p).length ≤ n := by
  induction n generalizing p with
  | zero => exact Nat.le_refl 0
  | succ n ih =>
    rw [fetched]
    split
    · exact Nat.zero_le _
    · exact Nat.succ_le_succ (ih _)

/-- The most SIDs that can be taken -/
def entries (f : Files) : ℕ := f.pkt.maxser + (text f).length

theorem entries_lt (f : Files) : entries f < 2 ^ 32 := by
  have htable := f.maxser_lt
  have hfile : (text f).length < 2 ^ 31 := by
    cases hp : f.pfile with
    | none => simp [text, hp]
    | some p =>
      rw [text, hp]
      exact f.pfile_lt p hp
  unfold entries
  omega

theorem takenSids_length (f : Files) : (takenSids f).length ≤ entries f := by
  have hlines := fetched_length (text f).length (text f)
  have hsids : (newSids f.zone (fetched (text f).length (text f))).length ≤ (fetched (text f).length (text f)).length :=
    length_filterMap_le _ _
  rw [takenSids, length_append, length_map, length_range]
  unfold entries
  omega

/-- The branches behind a SID -/
def branchOff (sp : Sid) (i : ℕ) : Sid := { sp with br := sp.br + BitVec.ofNat 32 i }

theorem branchOff_zero (sp : Sid) : branchOff sp 0 = sp := by
  simp [branchOff]

theorem branchOff_add (sp : Sid) (i j : ℕ) : branchOff (branchOff sp i) j = branchOff sp (i + j) := by
  simp [branchOff, BitVec.ofNat_add, BitVec.add_assoc]

theorem branchOff_inj {i j : ℕ} (hi : i < 2 ^ 32) (hj : j < 2 ^ 32) (h : branchOff sp i = branchOff sp j) : i = j := by
  have hbr := congrArg Sid.br h
  have hof := add_left_cancel (a := sp.br) hbr
  have hnat := congrArg BitVec.toNat hof
  rwa [BitVec.toNat_ofNat, BitVec.toNat_ofNat, Nat.mod_eq_of_lt hi, Nat.mod_eq_of_lt hj] at hnat

/-- Not all branches are taken, as there are more of them than entries. -/
theorem exists_free (f : Files) (sp : Sid) : ∃ d ≤ entries f, ¬Taken f (branchOff sp d) := by
  by_contra hall
  push Not at hall
  have hnodup : ((List.range (entries f + 1)).map (branchOff sp)).Nodup := by
    apply List.Nodup.map_on _ nodup_range
    intro i hi j hj heq
    have hlt := entries_lt f
    rw [mem_range] at hi hj
    exact branchOff_inj (by omega) (by omega) heq
  have hsub : (List.range (entries f + 1)).map (branchOff sp) ⊆ takenSids f := by
    intro s hs
    obtain ⟨d, hd, rfl⟩ := mem_map.mp hs
    exact (hall d (Nat.le_of_lt_succ (mem_range.mp hd))).mem
  have hlen := (hnodup.subperm hsub).length_le
  rw [length_map, length_range] at hlen
  exact absurd (hlen.trans (takenSids_length f)) (Nat.not_succ_le_self _)

end taken

/-! ## Free SIDs -/

section free

variable {f : Files} {sp : Sid} {d fuel n chkbr : ℕ}

/-- A SID that is not taken, if the p-file is one -/
def Fresh (f : Files) : Except Exit Sid → Prop
  | .ok sp => ¬Taken f sp
  | .error (.fault e) => ∃ sp, in_pfile f sp = .error e
  | .error .loop => False

theorem nextBranch_spec {t : Sid → Except Fault Bool} (hfree : t (branchOff sp d) ≠ .ok true) (hfuel : d < fuel)
    (chkbr : ℕ) :
    (∃ s e, t s = .error e ∧ nextBranch t fuel sp chkbr = .error (.fault e)) ∨
      ∃ j ≤ d, t (branchOff sp j) = .ok false ∧ nextBranch t fuel sp chkbr = .ok (branchOff sp j, chkbr + j) := by
  induction fuel generalizing sp d chkbr with
  | zero => exact absurd hfuel (Nat.not_lt_zero d)
  | succ fuel ih =>
    rw [nextBranch]
    cases ht : t sp with
    | error e => exact .inl ⟨sp, e, ht, rfl⟩
    | ok b =>
      cases b with
      | false =>
        right
        refine ⟨0, Nat.zero_le d, ?_, ?_⟩
        · rw [branchOff_zero, ht]
        · rw [branchOff_zero]
          rfl
      | true =>
        cases d with
        | zero =>
          rw [branchOff_zero] at hfree
          exact absurd ht hfree
        | succ d =>
          have hnext : branchOff sp 1 = { sp with br := sp.br + 1 } := rfl
          rw [Nat.add_comm d 1, ← branchOff_add, hnext] at hfree
          rcases ih hfree (Nat.lt_of_succ_lt_succ hfuel) (chkbr + 1) with herr | ⟨j, hj, hfalse, hok⟩
          · exact .inl herr
          · refine .inr ⟨j + 1, Nat.succ_le_succ hj, ?_, ?_⟩
            · rw [Nat.add_comm j 1, ← branchOff_add, hnext, hfalse]
            · rw [Nat.add_comm j 1, ← branchOff_add, hnext, ← Nat.add_assoc]
              exact hok

/-- The two loops together do not pass a branch that is free. -/
theorem checkBranches_fresh (hfree : ¬Taken f (branchOff sp d)) (hn : chkbr + d ≤ n) (hfuel : d < fuel)
    (hzero : chkbr = 0 → ¬Taken f sp) : Fresh f (checkBranches f fuel n sp chkbr) := by
  induction n generalizing sp d chkbr with
  | zero =>
    obtain rfl : chkbr = 0 := by omega
    exact hzero rfl
  | succ n ih =>
    cases chkbr with
    | zero => exact hzero rfl
    | succ chkbr =>
      rw [checkBranches]
      have hpfile : in_pfile f (branchOff sp d) ≠ .ok true := fun h => hfree (.inr h)
      rcases nextBranch_spec hpfile hfuel chkbr with ⟨s, e, herr, hloop⟩ | ⟨j, hj, hout, hloop⟩
      · rw [hloop]
        exact ⟨s, herr⟩
      · rw [hloop]
        have hd : branchOff (branchOff sp j) (d - j) = branchOff sp d := by
          rw [branchOff_add, Nat.add_sub_cancel' hj]
        rw [← hd] at hfree
        have htable : inTable f (branchOff (branchOff sp j) (d - j)) ≠ .ok true := by
          intro h
          exact hfree (.inl (of_decide_eq_true (Except.ok.inj h)))
        change Fresh f (nextBranch (inTable f) fuel (branchOff sp j) (chkbr + j) >>= _)
        rcases nextBranch_spec htable (Nat.lt_of_le_of_lt (Nat.sub_le d j) hfuel) (chkbr + j) with ⟨s, e, herr, -⟩ | ⟨i, hi, hout', hloop'⟩
        · exact absurd herr nofun
        · rw [hloop']
          change Fresh f (checkBranches f fuel n (branchOff (branchOff sp j) i) (chkbr + j + i))
          apply ih (d := d - j - i)
          · rw [branchOff_add, Nat.add_sub_cancel' hi]
            exact hfree
          · omega
          · omega
          · -- nothing was counted, so that both loops have seen this SID
            intro h
            obtain rfl : i = 0 := by omega
            have hin : sidtoser (branchOff sp j) f.pkt = 0 := by
              rw [branchOff_zero] at hout'
              exact not_not.mp (of_decide_eq_false (Except.ok.inj hout'))
            rw [branchOff_zero]
            rintro (h | h)
            · exact h hin
            · rw [hout] at h
              exact absurd h (by simp)

end free

/-! ## The new SID -/

section newsid

variable {f : Files} {sp : Sid} {e : Fault} {fuel : ℕ} {branch : Bool} {reqsid gotsid : Sid}

/-- Where a computation in two parts goes wrong -/
theorem error_cases {α β : Type} {x : Except Fault α} {g : α → Except Fault β} (h : x >>= g = .error e) :
    x = .error e ∨ ∃ a, x = .ok a ∧ g a = .error e := by
  cases x with
  | error e' =>
    obtain rfl := Except.error.inj h
    exact .inl rfl
  | ok a => exact .inr ⟨a, rfl, h⟩

theorem skip_error {n : ℕ} {p : List Char} (h : skip n p = .error e) : e ≠ badSid := by
  rw [skip] at h
  split at h
  · exact absurd h nofun
  · obtain rfl := Except.error.inj h
    nofun

theorem pf_ab_error {z : Zone} {l : List Char} (h : pf_ab z l false = .error e) : e ≠ badSid := by
  unfold pf_ab at h
  split at h
  · rcases error_cases h with h | ⟨p, -, h⟩
    · exact skip_error h
    · rcases error_cases h with h | ⟨q, -, h⟩
      · exact skip_error h
      · dsimp only at h
        split at h
        · exact absurd h nofun
        · obtain rfl := Except.error.inj h
          decide
  · obtain rfl := Except.error.inj h
    nofun

theorem inLines_error {z : Zone} {lines : List (List Char)} (h : inLines z sp lines = .error e) : e ≠ badSid := by
  induction lines with
  | nil => exact absurd h nofun
  | cons line lines ih =>
    rw [inLines] at h
    split at h
    · obtain rfl := Except.error.inj h
      nofun
    · cases hpf : pf_ab z (cstr line).dropLast false with
      | error e' =>
        rw [hpf] at h
        obtain rfl := Except.error.inj h
        exact pf_ab_error hpf
      | ok pf =>
        rw [hpf] at h
        change (if pf.nsid = sp then Except.ok true else inLines z sp lines) = .error e at h
        split at h
        · exact absurd h nofun
        · exact ih h

theorem in_pfile_error (h : in_pfile f sp = .error e) : e ≠ badSid := by
  unfold in_pfile at h
  split at h
  · split at h
    · exact inLines_error h
    · exact absurd h nofun
  · exact absurd h nofun

theorem checked_free (h : ¬Taken f sp) : Fresh f (checked f sp) := by
  have htable : ¬sidtoser sp f.pkt ≠ 0 := fun hc => h (.inl hc)
  rw [checked, if_neg htable]
  cases hp : in_pfile f sp with
  | error e => exact ⟨sp, hp⟩
  | ok b =>
    cases b with
    | true => exact absurd (.inr hp) h
    | false => exact h

theorem checked_taken (h : Taken f sp) : checked f sp = .error (.fault badSid) := by
  rw [checked]
  split_ifs with htable
  · rfl
  · rcases h with h | h
    · exact absurd h htable
    · rw [h]

/-- The SID is free, or a branch is counted. -/
def Looked (f : Files) (r : Except Fault (Sid × ℕ)) : Prop :=
  (∃ s e, in_pfile f s = .error e ∧ r = .error e) ∨
    ∃ sp chkbr, r = .ok (sp, chkbr) ∧ chkbr ≤ 1 ∧ (chkbr = 0 → ¬Taken f sp)

theorem looked_off (f : Files) (sp : Sid) : Looked f (.ok (sp, 1)) :=
  .inr ⟨sp, 1, rfl, Nat.le_refl 1, nofun⟩

theorem looked_pfile (off : Sid) (htable : sidtoser sp f.pkt = 0) : Looked f (do
    let b ← in_pfile f sp
    pure (if b then (off, 1) else (sp, 0))) := by
  cases hp : in_pfile f sp with
  | error e => exact .inl ⟨sp, e, hp, rfl⟩
  | ok b =>
    cases b with
    | true => exact looked_off f off
    | false =>
      refine .inr ⟨sp, 0, rfl, Nat.zero_le 1, fun _ => ?_⟩
      rintro (h | h)
      · exact h htable
      · rw [hp] at h
        exact absurd h (by simp)

theorem candidate_looked (h : reqsid.br = 0 ∨ reqsid.seq ≠ 0 ∨ branch = true) :
    Looked f (candidate f branch reqsid gotsid) := by
  unfold candidate
  by_cases hbr : reqsid.br = 0
  · rw [if_pos hbr]
    dsimp only
    split
    · exact looked_off f _
    · rename_i hoff
      rw [not_or, not_not] at hoff
      exact looked_pfile _ hoff.1
  · have hseq : ¬(reqsid.seq = 0 ∧ !branch) := by
      rcases h with h | h | h
      · exact absurd h hbr
      · exact fun hc => h hc.1
      · simp [h]
    rw [if_neg hbr, if_neg hseq]
    dsimp only
    split
    · exact looked_off f _
    · rename_i hoff
      rw [not_or, not_not] at hoff
      exact looked_pfile _ hoff.2

/-- A sequence number on a branch that was asked for is not looked for. -/
theorem candidate_branch (hbr : reqsid.br ≠ 0) (hseq : reqsid.seq = 0) :
    candidate f false reqsid gotsid = .ok ({ reqsid with seq := gotsid.seq + 1 }, 0) := by
  rw [candidate, if_neg hbr, if_pos ⟨hseq, rfl⟩]

theorem newsid_fresh (h : reqsid.br = 0 ∨ reqsid.seq ≠ 0 ∨ branch = true) (hfuel : entries f + 1 < fuel) :
    Fresh f (newsid fuel f branch reqsid gotsid) := by
  rw [newsid]
  rcases candidate_looked (f := f) h with ⟨s, e, herr, hcand⟩ | ⟨sp, chkbr, hcand, hle, hzero⟩
  · rw [hcand]
    exact ⟨s, herr⟩
  · rw [hcand]
    change Fresh f (checkBranches f fuel fuel sp chkbr >>= checked f)
    obtain ⟨d, hd, hfree⟩ := exists_free f sp
    have hloop : Fresh f (checkBranches f fuel fuel sp chkbr) := checkBranches_fresh hfree (by omega) (by omega) hzero
    cases hr : checkBranches f fuel fuel sp chkbr with
    | error e =>
      rw [hr] at hloop
      exact hloop
    | ok sp' =>
      rw [hr] at hloop
      exact checked_free hloop

/-- The entry of a delta on the branch 1.1.1 -/
def editing : List Char := "1.1.1.1 1.1.1.2 joe 85/01/01 00:00:00\n".toList

/-- The deltas 1.1 and 1.1.1.1, and a p-file -/
def branched (p : List Char) (h : p.length < 2 ^ 31) : Files where
  pkt := { allocated 2 0 with
    idel := fun n => ⟨if n = 1 then ⟨1, 1, 0, 0⟩ else ⟨1, 1, 1, 1⟩, [], n - 1, 0⟩ }
  p_maxr := 1
  zone := ⟨0, fun _ => false⟩
  jointflag := true
  pfile := some p
  maxser_lt := by decide
  pfile_lt q hq := by
    obtain rfl := Option.mem_some.mp hq
    exact h

/-- The SID is fresh if and only if it was looked for, or happens to be free. -/
theorem newsid_fresh_iff (f : Files) (branch : Bool) (reqsid gotsid : Sid) (fuel : ℕ)
    (hfuel : f.pkt.maxser + (f.pfile.getD []).length + 1 < fuel) : Fresh f (newsid fuel f branch reqsid gotsid) ↔
      (reqsid.br = 0 ∨ reqsid.seq ≠ 0 ∨ branch = true) ∨ ¬Taken f { reqsid with seq := gotsid.seq + 1 } := by
  by_cases h : reqsid.br = 0 ∨ reqsid.seq ≠ 0 ∨ branch = true
  · exact ⟨fun _ => .inl h, fun _ => newsid_fresh h hfuel⟩
  · have hcase := h
    push Not at hcase
    obtain ⟨hbr, hseq, hbranch⟩ := hcase
    obtain rfl := Bool.eq_false_iff.mpr hbranch
    have hnew : newsid fuel f false reqsid gotsid = checked f { reqsid with seq := gotsid.seq + 1 } := by
      rw [newsid, candidate_branch hbr hseq]
      change (checkBranches f fuel fuel _ 0 >>= checked f) = _
      cases fuel <;> rfl
    rw [hnew, or_iff_right h]
    constructor
    · intro hfresh htaken
      rw [checked_taken htaken] at hfresh
      obtain ⟨sp, herr⟩ := hfresh
      exact in_pfile_error herr rfl
    · exact checked_free

theorem newsid_fresh_branch :
    Fresh (branched [] (by decide)) (newsid 4 (branched [] (by decide)) false ⟨1, 1, 1, 1⟩ ⟨1, 1, 1, 1⟩) :=
  (newsid_fresh_iff (branched [] (by decide)) false ⟨1, 1, 1, 1⟩ ⟨1, 1, 1, 1⟩ 4 (by decide)).mpr (.inl (by decide))

/-- A second edit of the branch 1.1.1 does not find 1.1.1.3. -/
theorem newsid_bad : getser false none (branched editing (by decide)) ⟨1, 1, 1, 0⟩ = .ok (2, ⟨1, 1, 1, 0⟩) ∧
    newsid 64 (branched editing (by decide)) false ⟨1, 1, 1, 0⟩ ⟨1, 1, 1, 1⟩ = .error (.fault badSid) ∧
    ¬Fresh (branched editing (by decide)) (newsid 64 (branched editing (by decide)) false ⟨1, 1, 1, 0⟩ ⟨1, 1, 1, 1⟩) := by
  have hser : getser false none (branched editing (by decide)) ⟨1, 1, 1, 0⟩ = .ok (2, ⟨1, 1, 1, 0⟩) := rfl
  have hbad : newsid 64 (branched editing (by decide)) false ⟨1, 1, 1, 0⟩ ⟨1, 1, 1, 1⟩ = .error (.fault badSid) := by
    have htaken : Taken (branched editing (by decide)) ⟨1, 1, 1, 2⟩ := .inr rfl
    exact checked_taken htaken
  refine ⟨hser, hbad, ?_⟩
  rw [hbad]
  rintro ⟨sp, herr⟩
  exact in_pfile_error herr rfl

end newsid

end Svr3.Sccs.Get
