import Svr3.Lib.Run
import Svr3.Io.StreamRefs

/-!
# Requests of `bufcall`

`bufcall` puts a request on a list of its class; `freeb` raises `strbcflag` when a request may be
served, and `queuerun` serves requests while its counts allow it. The functions that it calls, and
the service procedures, allocate and free blocks as all others do.
-/

namespace Svr3.Str

open Function

def Dbalcst.reqs (a : Dbalcst) : Pri → List Strevent
  | .BPRI_LO => a.dba_lop
  | .BPRI_MED => a.dba_medp
  | .BPRI_HI => a.dba_hip

def Dbalcst.setReqs (a : Dbalcst) : Pri → List Strevent → Dbalcst
  | .BPRI_LO, l => { a with dba_lop := l }
  | .BPRI_MED, l => { a with dba_medp := l }
  | .BPRI_HI, l => { a with dba_hip := l }

/-- The list of requests of a class and priority becomes `l`. -/
def setReqs (h : Heap) (c : ℕ) (pri : Pri) (l : List Strevent) : Heap :=
  { h with dballoc := update h.dballoc c ((h.dballoc c).setReqs pri l) }

/-- `bufcall(size, pri, func, arg)`, where `cell` says whether `sealloc` gives a cell. -/
def bufcall (nblk : ℕ → ℕ) (h : Heap) (size : ℤ) (pri : Pri) (e : Strevent) (cell : Bool) :
    Bool × Heap :=
  let c := getclass size
  if bcmax h c pri = 0 then (false, h)
  else if pri = .BPRI_HI ∧ nblk c = 0 then (false, h)
  else if !cell then (false, h)
  else (true, setReqs h c pri ((h.dballoc c).reqs pri ++ [e]))

/-! ## `queuerun` -/

/-- Where `queuerun` is: outside, at the test of a loop over the requests of a class, in a function
that it calls from there, or at the service procedures. -/
inductive Pc
  | idle
  | test (i : ℕ) (pri : Pri) (count total : ℤ)
  | call (i : ℕ) (pri : Pri) (count total : ℤ)
  | serve

/-- The loop over the high priority requests of class `i` is next. -/
def enterClass (nblk : ℕ → ℕ) (h : Heap) (i : ℕ) : Pc :=
  .test i .BPRI_HI (nblk i - (h.dballoc i).dba_cnt) 0

/-- What is next behind a loop over requests. -/
def leaveLoop (nblk : ℕ → ℕ) (h : Heap) (i : ℕ) (total : ℤ) : Pri → Pc
  | .BPRI_HI => .test i .BPRI_MED ((h.dballoc i).dba_med - (h.dballoc i).dba_cnt - total) total
  | .BPRI_MED => .test i .BPRI_LO ((h.dballoc i).dba_lo - (h.dballoc i).dba_cnt - total) total
  | .BPRI_LO =>
    match i with
    | 0 => .serve
    | i + 1 => enterClass nblk h i

structure Bsys where
  heap : Heap
  pc : Pc

/-- One turn of `do ... while (strbcflag)`, up to its first loop over requests if there is one. -/
def startRun (nblk : ℕ → ℕ) (h : Heap) : Bsys :=
  if h.strbcflag then
    let h := { h with strbcflag := false }
    ⟨h, enterClass nblk h (NCLASS - 1)⟩
  else ⟨h, .serve⟩

/-- A loop test: the next request is taken off its list, or the loop is left. -/
def loopTest (nblk : ℕ → ℕ) (h : Heap) (i : ℕ) (pri : Pri) (count total : ℤ) : Bsys :=
  match (h.dballoc i).reqs pri with
  | [] => ⟨h, leaveLoop nblk h i total pri⟩
  | _ :: l =>
    if h.mbfreelist ≠ none ∧ 0 < count then
      ⟨setReqs h i pri l, .call i pri (count - 1) (if pri = .BPRI_LO then total else total + 1)⟩
    else ⟨h, leaveLoop nblk h i total pri⟩

/-- Others run only outside `queuerun` and in what it calls. -/
def Pc.Open : Pc → Prop
  | .test .. => False
  | _ => True

inductive Bact
  | allocb (size : ℤ) (pri : Pri)
  | dupb (bp : ℕ)
  | freeb (bp : ℕ)
  | bufcall (size : ℤ) (pri : Pri) (e : Strevent) (cell : Bool)
  | queuerun
  | turn
  | back
  | again

inductive Bstep (nblk : ℕ → ℕ) (s : Bsys) : Bact → Bsys → Prop
  | allocb {size : ℤ} {pri : Pri} {r : Option ℕ} {h : Heap} : s.pc.Open →
      allocb s.heap size pri = (r, h) → Bstep nblk s (.allocb size pri) ⟨h, s.pc⟩
  | dupb {bp : ℕ} {r : Option ℕ} {h : Heap} : s.pc.Open →
      dupb s.heap bp = some (r, h) → Bstep nblk s (.dupb bp) ⟨h, s.pc⟩
  | freeb {bp : ℕ} {h : Heap} : s.pc.Open →
      freeb s.heap bp = some h → Bstep nblk s (.freeb bp) ⟨h, s.pc⟩
  | bufcall {size : ℤ} {pri : Pri} {e : Strevent} {cell r : Bool} {h : Heap} : s.pc.Open →
      bufcall nblk s.heap size pri e cell = (r, h) →
      Bstep nblk s (.bufcall size pri e cell) ⟨h, s.pc⟩
  | queuerun : s.pc = .idle → Bstep nblk s .queuerun (startRun nblk s.heap)
  | turn {i : ℕ} {pri : Pri} {count total : ℤ} : s.pc = .test i pri count total →
      Bstep nblk s .turn (loopTest nblk s.heap i pri count total)
  | back {i : ℕ} {pri : Pri} {count total : ℤ} : s.pc = .call i pri count total →
      Bstep nblk s .back ⟨s.heap, .test i pri count total⟩
  | again : s.pc = .serve → s.heap.strbcflag = true →
      Bstep nblk s .again (startRun nblk s.heap)
  | done : s.pc = .serve → s.heap.strbcflag = false →
      Bstep nblk s .again ⟨{ s.heap with qrunflag := false }, .idle⟩

/-! ## What is forgotten -/

/-- A data block of class `c` can be had at this priority, if there is a message block. -/
def DataFree (h : Heap) (c : ℕ) (pri : Pri) : Prop :=
  h.dbfreelist c ≠ none ∧ (h.dballoc c).dba_cnt < bcmax h c pri

/-- A request is pending that could be served. -/
def Forgotten (h : Heap) (c : ℕ) (pri : Pri) : Prop :=
  (h.dballoc c).reqs pri ≠ [] ∧ h.mbfreelist ≠ none ∧ DataFree h c pri

/-- `queuerun` has left this list behind, or is not looking at the lists. -/
def Pc.Past : Pc → ℕ → Pri → Prop
  | .idle, _, _ => True
  | .serve, _, _ => True
  | .test i p _ _, c, pri | .call i p _ _, c, pri =>
    i < c ∨ i = c ∧ match pri, p with
      | .BPRI_HI, .BPRI_MED => True
      | .BPRI_HI, .BPRI_LO => True
      | .BPRI_MED, .BPRI_LO => True
      | _, _ => False

/-- `freeb` finds a request for the class of the data block that it frees. -/
def Raises (h : Heap) (bp : ℕ) : Prop :=
  ∃ d, h.b_datap bp = some d ∧ (h.dblk d).db_ref = 1 ∧
    ∃ pri, (h.dballoc (h.dblk d).db_class).reqs pri ≠ [] ∧
      (pri = .BPRI_HI ∨ (h.dballoc (h.dblk d).db_class).dba_cnt - 1 < bcmax h (h.dblk d).db_class pri)

/-- `bufcall` is not called while a block can be had; no request waits for the message block alone
that `freeb` gives back; and `queuerun` does not leave a request for its counts only. -/
def Bmeets (s : Bsys) : Bact → Prop
  | .bufcall size pri _ cell => cell = true → s.heap.strbcflag = false →
      s.pc.Past (getclass size) pri → s.heap.mbfreelist ≠ none → ¬ DataFree s.heap (getclass size) pri
  | .freeb bp => s.heap.strbcflag = false → s.heap.mbfreelist = none → ¬ Raises s.heap bp →
      ∀ c pri, c < NCLASS → s.pc.Past c pri → (s.heap.dballoc c).reqs pri ≠ [] →
        ¬ DataFree s.heap c pri
  | .turn => ∀ i pri count total, s.pc = .test i pri count total → s.heap.strbcflag = false →
      count ≤ 0 → ¬ Forgotten s.heap i pri
  | _ => True

/-- Nothing that `queuerun` has left behind is forgotten. -/
def Kept (s : Bsys) : Prop :=
  s.heap.strbcflag = false → ∀ c pri, c < NCLASS → s.pc.Past c pri → ¬ Forgotten s.heap c pri

section Steps

variable {nblk : ℕ → ℕ} {s t : Bsys} {h h' : Heap} {c : ℕ} {pri : Pri}

/-- What takes blocks only. -/
structure Takes (h h' : Heap) : Prop where
  flag : h'.strbcflag = h.strbcflag
  mblk : h'.mbfreelist ≠ none → h.mbfreelist ≠ none
  reqs : ∀ c pri, (h'.dballoc c).reqs pri = (h.dballoc c).reqs pri
  data : ∀ c pri, DataFree h' c pri → DataFree h c pri

theorem Takes.refl (h : Heap) : Takes h h := ⟨rfl, id, fun _ _ => rfl, fun _ _ => id⟩

theorem Takes.forgotten (ht : Takes h h') (hf : Forgotten h' c pri) : Forgotten h c pri :=
  ⟨ht.reqs c pri ▸ hf.1, ht.mblk hf.2.1, ht.data c pri hf.2.2⟩

theorem Kept.takes (hk : Kept s) (ht : Takes s.heap h) : Kept ⟨h, s.pc⟩ := by
  intro hflag c pri hc hpast hf
  exact hk (ht.flag ▸ hflag) c pri hc hpast (ht.forgotten hf)

theorem gotdp_takes {c d : ℕ} (hd : h.dbfreelist c = some d) : Takes h (gotdp h c d).2 := by
  unfold gotdp
  cases hb : h.mbfreelist with
  | none => exact Takes.refl h
  | some bp =>
    have halloc (e : ℕ) (p : Pri) :
        ((update h.dballoc c { h.dballoc c with dba_cnt := (h.dballoc c).dba_cnt + 1 }) e).reqs
          p = (h.dballoc e).reqs p := by
      by_cases hec : e = c
      · rw [hec, update_self]
        cases p <;> rfl
      · rw [update_of_ne hec]
    refine ⟨rfl, fun _ => by rw [hb]; nofun, halloc, fun e p hf => ?_⟩
    obtain ⟨h1, h2⟩ := hf
    unfold bcmax at h2
    unfold DataFree bcmax
    simp only [Heap.setM, Heap.setD, Heap.popM] at h1 h2
    by_cases hec : e = c
    · rw [hec, update_self] at h2
      refine ⟨by rw [hec, hd]; nofun, ?_⟩
      rw [hec]
      cases p <;> simp only at h2 ⊢ <;> omega
    · rw [update_of_ne hec] at h1 h2
      exact ⟨h1, h2⟩

theorem classBlock_free {d : ℕ} (hd : classBlock h c pri = some d) : h.dbfreelist c = some d := by
  unfold classBlock at hd
  split at hd
  · exact hd
  · cases hd

theorem allocb_takes (h : Heap) (size : ℤ) (pri : Pri) : Takes h (allocb h size pri).2 := by
  unfold allocb
  simp only
  split
  · exact Takes.refl h
  · split
    · rename_i hd
      exact gotdp_takes (classBlock_free hd)
    · split
      · exact Takes.refl h
      · split
        · rename_i hd
          exact gotdp_takes (classBlock_free hd)
        · exact Takes.refl h

theorem dupb_takes {bp : ℕ} {r : Option ℕ} (he : dupb h bp = some (r, h')) : Takes h h' := by
  unfold dupb at he
  cases hb : h.mbfreelist with
  | none =>
    rw [hb] at he
    obtain ⟨-, rfl⟩ := Prod.mk.inj (Option.some.inj he)
    exact Takes.refl h
  | some nbp =>
    cases hd : h.b_datap bp with
    | none =>
      rw [hb, hd] at he
      exact absurd he nofun
    | some d =>
      rw [hb, hd] at he
      obtain ⟨-, rfl⟩ := Prod.mk.inj (Option.some.inj he)
      exact ⟨rfl, fun _ => by rw [hb]; nofun, fun _ _ => rfl, fun _ _ => id⟩

/-! ## Requests -/

variable {i : ℕ} {p : Pri} {l : List Strevent}

theorem setReqs_other (hne : ¬ (c = i ∧ pri = p)) :
    ((setReqs h i p l).dballoc c).reqs pri = (h.dballoc c).reqs pri := by
  unfold setReqs
  by_cases hc : c = i
  · subst hc
    simp only [update_self]
    have hp : pri ≠ p := fun hp => hne ⟨rfl, hp⟩
    cases pri <;> cases p <;> first | rfl | exact absurd rfl hp
  · simp only [update_of_ne hc]

theorem setReqs_data : DataFree (setReqs h i p l) c pri ↔ DataFree h c pri := by
  have hsame : ((setReqs h i p l).dballoc c).dba_cnt = (h.dballoc c).dba_cnt ∧
      bcmax (setReqs h i p l) c pri = bcmax h c pri := by
    unfold setReqs bcmax
    by_cases hc : c = i
    · subst hc
      simp only [update_self]
      cases p <;> cases pri <;> exact ⟨rfl, rfl⟩
    · simp only [update_of_ne hc, and_self]
  unfold DataFree
  rw [hsame.1, hsame.2]
  rfl

theorem setReqs_forgotten (hne : ¬ (c = i ∧ pri = p)) (hf : Forgotten (setReqs h i p l) c pri) :
    Forgotten h c pri :=
  ⟨setReqs_other hne ▸ hf.1, hf.2.1, setReqs_data.mp hf.2.2⟩

theorem Kept.bufcall (hk : Kept s) {size : ℤ} {e : Strevent} {cell r : Bool}
    (hm : Bmeets s (.bufcall size pri e cell)) (he : bufcall nblk s.heap size pri e cell = (r, h)) :
    Kept ⟨h, s.pc⟩ := by
  unfold Str.bufcall at he
  simp only at he
  split_ifs at he with h1 h2 h3
  · obtain ⟨-, rfl⟩ := Prod.mk.inj he
    exact hk
  · obtain ⟨-, rfl⟩ := Prod.mk.inj he
    exact hk
  · obtain ⟨-, rfl⟩ := Prod.mk.inj he
    exact hk
  · obtain ⟨-, rfl⟩ := Prod.mk.inj he
    intro hflag c q hc hpast hf
    by_cases hsame : c = getclass size ∧ q = pri
    · obtain ⟨rfl, rfl⟩ := hsame
      have hcell : cell = true := by simpa using h3
      exact hm hcell hflag hpast hf.2.1 (setReqs_data.mp hf.2.2)
    · exact hk hflag c q hc hpast (setReqs_forgotten hsame hf)

/-! ## Freeing -/

theorem freed_fields (h : Heap) (c d : ℕ) : (freed h c d).nmblock = h.nmblock ∧
    (freed h c d).dbfreelist = update h.dbfreelist c (some d) ∧
    (freed h c d).dballoc = update h.dballoc c
      { h.dballoc c with dba_cnt := (h.dballoc c).dba_cnt - 1 } := by
  unfold freed
  simp only
  split <;> exact ⟨rfl, rfl, rfl⟩

/-- The flag stays down only if no request of the class is due. -/
theorem freed_flag {d : ℕ} (hf : (freed h c d).strbcflag = false) : h.strbcflag = false ∧
    ∀ pri, (h.dballoc c).reqs pri ≠ [] → pri ≠ .BPRI_HI ∧ ¬ (h.dballoc c).dba_cnt - 1 < bcmax h c pri := by
  unfold freed at hf
  simp only at hf
  split at hf
  · exact absurd hf nofun
  · rename_i hcond
    have hflag : h.strbcflag = false := hf
    refine ⟨hflag, fun pri hreqs => ?_⟩
    simp only [Bool.or_eq_true, Bool.and_eq_true, Bool.not_eq_true', List.isEmpty_eq_false_iff,
      decide_eq_true_eq, not_or, not_and] at hcond
    obtain ⟨⟨h1, h2⟩, h3⟩ := hcond hflag
    cases pri with
    | BPRI_LO => exact ⟨nofun, h3 hreqs⟩
    | BPRI_MED => exact ⟨nofun, h2 hreqs⟩
    | BPRI_HI => exact absurd hreqs h1

theorem reqs_cnt (a : Dbalcst) (n : ℤ) (pri : Pri) : { a with dba_cnt := n }.reqs pri = a.reqs pri := by
  cases pri <;> rfl

/-- `freeb` of the last reference, with the flag still down. -/
theorem Kept.freeb_last (hk : Kept s) {bp d : ℕ} (hm : Bmeets s (.freeb bp))
    (hd : s.heap.b_datap bp = some d) {k : Heap}
    (hfree : k.dbfreelist = update s.heap.dbfreelist (s.heap.dblk d).db_class (some d))
    (halloc : k.dballoc = update s.heap.dballoc (s.heap.dblk d).db_class
      { s.heap.dballoc (s.heap.dblk d).db_class with
        dba_cnt := (s.heap.dballoc (s.heap.dblk d).db_class).dba_cnt - 1 })
    (hnm : k.nmblock = s.heap.nmblock) (hflag : s.heap.strbcflag = false)
    (hreq : ∀ pri, (s.heap.dballoc (s.heap.dblk d).db_class).reqs pri ≠ [] → pri ≠ .BPRI_HI ∧
      ¬ (s.heap.dballoc (s.heap.dblk d).db_class).dba_cnt - 1 <
        bcmax s.heap (s.heap.dblk d).db_class pri) : Kept ⟨k, s.pc⟩ := by
  intro _ c pri hc hpast hf
  have hquiet : ¬ Raises s.heap bp := by
    rintro ⟨e, he, -, q, hq, hdue⟩
    obtain rfl : d = e := Option.some.inj (hd.symm.trans he)
    obtain ⟨h1, h2⟩ := hreq q hq
    exact hdue.elim h1 h2
  obtain ⟨hreqs, -, hdf, hcnt⟩ := hf
  simp only at hreqs hdf hcnt
  rw [halloc] at hreqs
  unfold bcmax at hcnt
  rw [halloc, hnm] at hcnt
  rw [hfree] at hdf
  by_cases hck : c = (s.heap.dblk d).db_class
  · -- the class of the block that was freed
    rw [hck, update_self] at hreqs hcnt
    rw [reqs_cnt] at hreqs
    obtain ⟨h1, h2⟩ := hreq pri hreqs
    apply h2
    unfold bcmax
    cases pri with
    | BPRI_HI => exact absurd rfl h1
    | BPRI_MED => exact hcnt
    | BPRI_LO => exact hcnt
  · rw [update_of_ne hck] at hreqs hdf hcnt
    have hdata : DataFree s.heap c pri := ⟨hdf, hcnt⟩
    by_cases hmb : s.heap.mbfreelist = none
    · exact hm hflag hmb hquiet c pri hc hpast hreqs hdata
    · exact hk hflag c pri hc hpast ⟨hreqs, hmb, hdata⟩

theorem Kept.freeb (hk : Kept s) {bp : ℕ} (hm : Bmeets s (.freeb bp))
    (he : freeb s.heap bp = some h) : Kept ⟨h, s.pc⟩ := by
  unfold Str.freeb at he
  cases hd : s.heap.b_datap bp with
  | none =>
    rw [hd] at he
    exact absurd he nofun
  | some d =>
    rw [hd] at he
    simp only [setD_self] at he
    by_cases hr : (s.heap.dblk d).db_ref - 1 = 0
    · rw [if_pos hr] at he
      obtain rfl := Option.some.inj he
      obtain ⟨h1, h2, h3⟩ := freed_fields
        (s.heap.setD d { s.heap.dblk d with db_ref := (s.heap.dblk d).db_ref - 1 })
        (s.heap.dblk d).db_class d
      intro hflag
      obtain ⟨hflag', hreq⟩ := freed_flag hflag
      exact hk.freeb_last hm hd h2 h3 h1 hflag' hreq hflag
    · rw [if_neg hr] at he
      obtain rfl := Option.some.inj he
      intro hflag c pri hc hpast hf
      have hquiet : ¬ Raises s.heap bp := by
        rintro ⟨e, he, href, -⟩
        obtain rfl : d = e := Option.some.inj (hd.symm.trans he)
        rw [href] at hr
        exact hr rfl
      by_cases hmb : s.heap.mbfreelist = none
      · exact hm hflag hmb hquiet c pri hc hpast hf.1 hf.2.2
      · exact hk hflag c pri hc hpast ⟨hf.1, hmb, hf.2.2⟩

/-! ## The loops of `queuerun` -/

theorem not_past_self (i : ℕ) (p : Pri) (count total : ℤ) : ¬ (Pc.test i p count total).Past i p := by
  unfold Pc.Past
  rintro (hlt | ⟨-, hp⟩)
  · exact Nat.lt_irrefl i hlt
  · cases p <;> exact hp

/-- Leaving a loop puts just its list behind. -/
theorem past_leave {count total total' : ℤ} (hpast : (leaveLoop nblk h i total' p).Past c pri) :
    (Pc.test i p count total).Past c pri ∨ c = i ∧ pri = p := by
  cases p with
  | BPRI_HI =>
    rcases hpast with hlt | ⟨rfl, hp⟩
    · exact .inl (.inl hlt)
    · cases pri with
      | BPRI_HI => exact .inr ⟨rfl, rfl⟩
      | BPRI_MED => exact hp.elim
      | BPRI_LO => exact hp.elim
  | BPRI_MED =>
    rcases hpast with hlt | ⟨rfl, hp⟩
    · exact .inl (.inl hlt)
    · cases pri with
      | BPRI_HI => exact .inl (.inr ⟨rfl, True.intro⟩)
      | BPRI_MED => exact .inr ⟨rfl, rfl⟩
      | BPRI_LO => exact hp.elim
  | BPRI_LO =>
    have hle : i ≤ c := by
      cases i with
      | zero => exact Nat.zero_le c
      | succ i =>
        rcases hpast with hlt | ⟨rfl, hp⟩
        · exact hlt
        · cases pri <;> exact hp.elim
    rcases Nat.lt_or_eq_of_le hle with hlt | rfl
    · exact .inl (.inl hlt)
    · cases pri with
      | BPRI_HI => exact .inl (.inr ⟨rfl, True.intro⟩)
      | BPRI_MED => exact .inl (.inr ⟨rfl, True.intro⟩)
      | BPRI_LO => exact .inr ⟨rfl, rfl⟩

theorem Kept.leave {count total : ℤ} (hk : Kept s) (hpc : s.pc = .test i p count total)
    (hdone : s.heap.strbcflag = false → ¬ Forgotten s.heap i p) (total' : ℤ) :
    Kept ⟨s.heap, leaveLoop nblk s.heap i total' p⟩ := by
  intro hflag c pri hc hpast hf
  have hback : (Pc.test i p count total).Past c pri ∨ c = i ∧ pri = p := past_leave hpast
  rcases hback with hpast | ⟨rfl, rfl⟩
  · exact hk hflag c pri hc (hpc ▸ hpast) hf
  · exact hdone hflag hf

theorem Kept.turn {count total : ℤ} (hk : Kept s) (hm : Bmeets s .turn)
    (hpc : s.pc = .test i p count total) : Kept (loopTest nblk s.heap i p count total) := by
  unfold loopTest
  cases hl : (s.heap.dballoc i).reqs p with
  | nil => exact hk.leave hpc (fun _ hf => hf.1 hl) total
  | cons e l =>
    simp only
    split
    · -- a request is taken off its list, which is not behind
      intro hflag c pri hc hpast hf
      have hpast' : s.pc.Past c pri := hpc ▸ hpast
      have hne : ¬ (c = i ∧ pri = p) := by
        rintro ⟨rfl, rfl⟩
        rw [hpc] at hpast'
        exact not_past_self c pri count total hpast'
      exact hk hflag c pri hc hpast' (setReqs_forgotten hne hf)
    · rename_i hcond
      apply hk.leave hpc
      intro hflag hf
      by_cases hcount : count ≤ 0
      · exact hm i p count total hpc hflag hcount hf
      · exact hcond ⟨hf.2.1, by omega⟩

theorem Kept.startRun (hk : Kept s) (hidle : ∀ c pri, s.pc.Past c pri) :
    Kept (startRun nblk s.heap) := by
  unfold Str.startRun
  split
  · -- the scan starts above all classes
    intro _ c pri hc hpast
    rcases hpast with hlt | ⟨-, hp⟩
    · unfold NCLASS at hc hlt
      omega
    · cases pri <;> exact hp.elim
  · exact fun hflag c pri hc _ => hk hflag c pri hc (hidle c pri)

theorem Kept.step {a : Bact} (hk : Kept s) (hs : Bstep nblk s a t) (hm : Bmeets s a) : Kept t := by
  cases hs with
  | @allocb size pri _ _ _ he =>
    have ht := allocb_takes s.heap size pri
    rw [he] at ht
    exact hk.takes ht
  | dupb _ he => exact hk.takes (dupb_takes he)
  | freeb _ he => exact hk.freeb hm he
  | bufcall _ he => exact hk.bufcall hm he
  | queuerun hpc => exact hk.startRun fun _ _ => hpc ▸ True.intro
  | turn hpc => exact hk.turn hm hpc
  | back hpc => exact fun hflag c pri hc hpast => hk hflag c pri hc (hpc ▸ hpast)
  | again hpc _ => exact hk.startRun fun _ _ => hpc ▸ True.intro
  | done hpc _ => exact fun hflag c pri hc _ => hk hflag c pri hc (hpc ▸ True.intro)

end Steps

/-! ## Every run -/

section Runs

variable {h : Heap} {s : Boot}

theorem layClass_reqs (nblk : ℕ → ℕ) (lo med i c : ℕ) (pri : Pri) :
    ((layClass nblk lo med s i).heap.dballoc c).reqs pri = (s.heap.dballoc c).reqs pri := by
  have hblocks (n : ℕ) (t : Boot) : ((layBlock i)^[n] t).heap.dballoc = t.heap.dballoc := by
    induction n generalizing t with
    | zero => rfl
    | succ n ih =>
      rw [Function.iterate_succ_apply, ih]
      rfl
  unfold layClass
  simp only [hblocks]
  by_cases hc : c = i
  · rw [hc, update_self]
    cases pri <;> rfl
  · rw [update_of_ne hc]

/-- `strinit` makes no requests. -/
theorem strinit_reqs (nblk : ℕ → ℕ) (lo med : ℕ) (base : Option ℕ) (c : ℕ) (pri : Pri) :
    ((strinit nblk lo med base h).dballoc c).reqs pri = (h.dballoc c).reqs pri := by
  have hfold (cs : List ℕ) (t : Boot) :
      ((cs.foldl (layClass nblk lo med) t).heap.dballoc c).reqs pri =
        (t.heap.dballoc c).reqs pri := by
    induction cs generalizing t with
    | nil => rfl
    | cons i cs ih => rw [List.foldl_cons, ih, layClass_reqs]
  unfold strinit
  cases buffers nblk base with
  | none => rfl
  | some base =>
    simp only [pushAll_dblk]
    exact hfold classes ⟨h, 0, base⟩

end Runs

/-- The steps that meet the condition. -/
def Bmeeting (nblk : ℕ → ℕ) (s : Bsys) (a : Bact) (t : Bsys) : Prop := Bstep nblk s a t ∧ Bmeets s a

/-- From boot on, with `strbcflag` down and `queuerun` not at the lists, no request that could be
served waits. -/
theorem bufcall_kept {h : Heap} (hno : ∀ c pri, (h.dballoc c).reqs pri = []) (nblk : ℕ → ℕ)
    (strlofrac strmedfrac : ℕ) (base : Option ℕ) {as : List Bact} {t : Bsys}
    (hr : Run (Bmeeting nblk) ⟨strinit nblk strlofrac strmedfrac base h, .idle⟩ as t)
    (hquiet : t.pc = .idle ∨ t.pc = .serve) (hflag : t.heap.strbcflag = false) :
    ∀ c pri, c < NCLASS → ¬ Forgotten t.heap c pri := by
  have hstart : Kept ⟨strinit nblk strlofrac strmedfrac base h, .idle⟩ := by
    intro _ c pri _ _ hf
    apply hf.1
    rw [strinit_reqs]
    exact hno c pri
  have hk : Kept t := hr.invariant (fun _ _ _ hk hs => hk.step hs.1 hs.2) hstart
  intro c pri hc
  rcases hquiet with hpc | hpc
  · exact hk hflag c pri hc (hpc ▸ True.intro)
  · exact hk hflag c pri hc (hpc ▸ True.intro)

/-- Two data blocks of 4 bytes. -/
def twoBlocks (c : ℕ) : ℕ := if c = 0 then 2 else 0

theorem bss_reqs (n : ℤ) (c : ℕ) (pri : Pri) : ((bss n).dballoc c).reqs pri = [] := by
  cases pri <;> rfl

theorem bufcall_kept_two : ∃ t, Run (Bmeeting twoBlocks)
    ⟨strinit twoBlocks 80 90 (some 0) (bss 2), .idle⟩
    [.allocb 4 .BPRI_HI, .allocb 4 .BPRI_HI, .bufcall 4 .BPRI_HI ⟨0, 0⟩ true] t ∧
    (t.heap.dballoc 0).dba_hip = [⟨0, 0⟩] ∧ ∀ c pri, c < NCLASS → ¬ Forgotten t.heap c pri := by
  have hrun : ∃ t, Run (Bmeeting twoBlocks) ⟨strinit twoBlocks 80 90 (some 0) (bss 2), .idle⟩
      [.allocb 4 .BPRI_HI, .allocb 4 .BPRI_HI, .bufcall 4 .BPRI_HI ⟨0, 0⟩ true] t ∧ t.pc = .idle ∧
      t.heap.strbcflag = false ∧ (t.heap.dballoc 0).dba_hip = [⟨0, 0⟩] := by
    refine ⟨_, .cons ⟨.allocb True.intro rfl, True.intro⟩ (.cons ⟨.allocb True.intro rfl, True.intro⟩
      (.cons ⟨.bufcall True.intro rfl, ?_⟩ (.nil _))), rfl, rfl, rfl⟩
    exact fun _ _ _ hmb => absurd rfl hmb
  obtain ⟨t, hr, hpc, hflag, hreq⟩ := hrun
  exact ⟨t, hr, hreq, bufcall_kept (bss_reqs 2) twoBlocks 80 90 (some 0) hr (.inl hpc) hflag⟩

/-- The second message block of a data block is freed, and nobody is told. -/
theorem freeb_forgets : ∃ t, Run (Bstep twoBlocks) ⟨strinit twoBlocks 80 90 (some 0) (bss 2), .idle⟩
    [.allocb 4 .BPRI_HI, .dupb 1, .bufcall 4 .BPRI_HI ⟨0, 0⟩ true, .freeb 0] t ∧
    t.pc = .idle ∧ t.heap.strbcflag = false ∧ Forgotten t.heap 0 .BPRI_HI := by
  refine ⟨_, .cons (.allocb True.intro rfl) (.cons (.dupb True.intro rfl)
    (.cons (.bufcall True.intro rfl) (.cons (.freeb True.intro rfl) (.nil _)))), rfl, rfl, ?_⟩
  refine ⟨?_, ?_, ?_, ?_⟩
  · exact nofun
  · exact nofun
  · exact nofun
  · decide

end Svr3.Str
