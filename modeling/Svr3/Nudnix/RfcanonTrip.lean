import Svr3.Nudnix.RfcanonDents

/-!
# Messages through both conversions

A response comes back with its headers, its count and its data just if its data does. What does not come back is
most locks, statistics of a file system with a last word of its own, and listings with a name that is measured too
late.
-/

namespace Svr3.Canon

/-- A response whose data is converted -/
def Answers (m : Mem) (msg : ℕ) : Prop := rpType m msg = RESP_MSG ∧ rpErrno m msg = 0

/-- The number of bytes of the data of a response -/
def dataLen (op : BitVec 32) : ℕ :=
  if op = DUFCNTL then width flock
  else if op = DUSTAT ∨ op = DUFSTAT then width stat
  else if op = DUSTATFS ∨ op = DUFSTATFS then statfsSize
  else if op = DUUTSSYS then width ustat
  else DATASIZE

instance (m : Mem) (msg : ℕ) : Decidable (Answers m msg) := inferInstanceAs (Decidable (_ ∧ _))

/-- The data is there again: a listing the entries `es`, other data byte by byte. -/
def SameData (m m' : Mem) (msg : ℕ) (es : List Dirent) : Prop :=
  if Answers m msg then
    if rpOpcode m msg = DUGETDENTS then Entries m' (rpData msg) es
    else ∀ x < dataLen (rpOpcode m msg), m' (rpData msg + x) = m (rpData msg + x)
  else ∀ x < DATASIZE, m' (rpData msg + x) = m (rpData msg + x)

/-- Both headers, with `rp_count`, and the data come back. -/
def ComesBack (k : Stack) (bp : Mblk) (hetero : Hetero) (es : List Dirent) : Prop :=
  ∃ bp', rftocanon k bp hetero = some bp' ∧
    (∀ x, bp.b_rptr ≤ x → x < bp.b_rptr + 112 → rffrcanon bp' hetero x = bp.mem x) ∧
    SameData bp.mem (rffrcanon bp' hetero) (PTOMSG bp.b_rptr) es

/-- A message and the buffers of the conversion, which are not in it; a listing has the entries `es`. -/
structure Valid (k : Stack) (bp : Mblk) (es : List Dirent) : Prop where
  even : bp.b_rptr % 2 = 0 ∧ k.cbuf % 2 = 0 ∧ k.dbuf % 2 = 0
  cbuf : k.cbuf + cbufSize ≤ bp.b_rptr ∨ bp.b_rptr + 112 + cbufSize ≤ k.cbuf
  dbuf : k.dbuf + cbufSize ≤ bp.b_rptr ∨ bp.b_rptr + 112 + cbufSize ≤ k.dbuf
  listing : Answers bp.mem (PTOMSG bp.b_rptr) → rpOpcode bp.mem (PTOMSG bp.b_rptr) = DUGETDENTS →
    (rpCount bp.mem (PTOMSG bp.b_rptr)).toNat = reclens es ∧ Entries bp.mem (rpData (PTOMSG bp.b_rptr)) es
  size : reclens es ≤ DATASIZE

/-- The data of a response that comes back -/
def DataKept (m : Mem) (msg : ℕ) (es : List Dirent) : Prop :=
  if rpOpcode m msg = DUFCNTL then LockKept m (rpData msg)
  else if rpOpcode m msg = DUSTATFS ∨ rpOpcode m msg = DUFSTATFS then
    ∀ x < 4, m (rpData msg + 34 + x) = m (rpData msg + 24 + x)
  else if rpOpcode m msg = DUGETDENTS then Stepped 0 es ∧ csizes es ≤ cbufSize
  else True

variable {k : Stack} {m m' : Mem} {p : ℕ} {bp : Mblk} {hetero : Hetero} {es : List Dirent}

/-! ## The headers -/

theorem tcanon_header (cbuf n : ℕ) (hp : p % 2 = 0) (m : Mem) :
    ∃ r, tcanon cbuf (List.replicate n 'l') p p false m = some (r, m) := ⟨_, tcanon_longs cbuf n hp m⟩

theorem rftocanon_eq (hp : bp.b_rptr % 2 = 0) (hconv : hetero ≠ .NO_CONV) :
    rftocanon k bp hetero =
      if Answers bp.mem (PTOMSG bp.b_rptr) then
        match dataToCanon k (PTOMSG bp.b_rptr) bp.mem with
        | none => none
        | some (i, m) => some { bp with mem := m, b_wptr := if i ≠ 0 then bp.b_rptr + 112 + i else bp.b_wptr }
      else some bp := by
  have hmsg : PTOMSG bp.b_rptr % 2 = 0 := by
    rw [PTOMSG]
    omega
  have hheads (bp' : Mblk) (hb : bp'.b_rptr = bp.b_rptr) :
      (if hetero = .DATA_CONV then some bp'
      else
        match tcanon k.cbuf fmtMessage bp'.b_rptr bp'.b_rptr false bp'.mem with
        | none => none
        | some (_, m) =>
          match tcanon k.cbuf fmtCommon (PTOMSG bp.b_rptr) (PTOMSG bp.b_rptr) false m with
          | none => none
          | some (_, m) => some { bp' with mem := m }) = some bp' := by
    obtain ⟨r, hr⟩ := tcanon_header k.cbuf 8 (hb ▸ hp : bp'.b_rptr % 2 = 0) bp'.mem
    obtain ⟨r', hr'⟩ := tcanon_header k.cbuf 20 hmsg bp'.mem
    have hmessage : fmtMessage = List.replicate 8 'l' := rfl
    have hcommon : fmtCommon = List.replicate 20 'l' := rfl
    rw [hmessage, hcommon, hr]
    dsimp only
    rw [hr']
    split <;> rfl
  rw [rftocanon, if_neg hconv]
  by_cases hans : Answers bp.mem (PTOMSG bp.b_rptr)
  · have hboth : rpType bp.mem (PTOMSG bp.b_rptr) = RESP_MSG ∧ rpErrno bp.mem (PTOMSG bp.b_rptr) = 0 := hans
    rw [if_pos hans]
    dsimp only
    rw [if_pos hboth]
    cases hd : dataToCanon k (PTOMSG bp.b_rptr) bp.mem with
    | none => rfl
    | some r => exact hheads _ rfl
  · have hboth : ¬(rpType bp.mem (PTOMSG bp.b_rptr) = RESP_MSG ∧ rpErrno bp.mem (PTOMSG bp.b_rptr) = 0) := hans
    rw [if_neg hans]
    dsimp only
    rw [if_neg hboth]
    exact hheads bp rfl

theorem rffrcanon_eq (hp : bp.b_rptr % 2 = 0) (hconv : hetero ≠ .NO_CONV) :
    rffrcanon bp hetero =
      if Answers bp.mem (PTOMSG bp.b_rptr) then dataFromCanon (PTOMSG bp.b_rptr) bp.mem else bp.mem := by
  have hmsg : PTOMSG bp.b_rptr % 2 = 0 := by
    rw [PTOMSG]
    omega
  have hheads : (if hetero = .ALL_CONV then
      (fcanon fmtCommon (PTOMSG bp.b_rptr) (PTOMSG bp.b_rptr)
        (fcanon fmtMessage bp.b_rptr bp.b_rptr bp.mem).2).2
      else bp.mem) = bp.mem := by
    have hmessage : fmtMessage = List.replicate 8 'l' := rfl
    have hcommon : fmtCommon = List.replicate 20 'l' := rfl
    rw [hmessage, hcommon, fcanon_longs 8 hp, fcanon_longs 20 hmsg, ite_self]
  rw [rffrcanon, if_neg hconv]
  dsimp only
  rw [hheads]
  rfl

/-- The fields that say how a response is converted -/
theorem head_eq (h : ∀ x, p ≤ x → x < p + 112 → x < p + 84 ∨ p + 88 ≤ x → m' x = m x) :
    rpOpcode m' (PTOMSG p) = rpOpcode m (PTOMSG p) ∧ (Answers m' (PTOMSG p) ↔ Answers m (PTOMSG p)) := by
  have hlong (j : ℕ) (hj : j + 4 ≤ 84) : peek4 m' (p + j) = peek4 m (p + j) := by
    rw [peek4, peek4, h (p + j) (by omega) (by omega) (by omega), h (p + j + 1) (by omega) (by omega) (by omega),
      h (p + j + 2) (by omega) (by omega) (by omega), h (p + j + 3) (by omega) (by omega) (by omega)]
  have hop : rpOpcode m' (PTOMSG p) = rpOpcode m (PTOMSG p) := hlong 32 (by omega)
  have htype : rpType m' (PTOMSG p) = rpType m (PTOMSG p) := hlong 40 (by omega)
  have herr : rpErrno m' (PTOMSG p) = rpErrno m (PTOMSG p) := hlong 72 (by omega)
  exact ⟨hop, by rw [Answers, Answers, htype, herr]⟩

/-! ## The data -/

/-- The conversion of the data of `bp` and back leaves the headers, and keeps the data just if `DataKept` holds. -/
def Trip (k : Stack) (bp : Mblk) (es : List Dirent) : Prop :=
  ∃ i m1, dataToCanon k (PTOMSG bp.b_rptr) bp.mem = some (i, m1) ∧
    (∀ x, bp.b_rptr ≤ x → x < bp.b_rptr + 112 → m1 x = bp.mem x) ∧
    (∀ x, bp.b_rptr ≤ x → x < bp.b_rptr + 112 → dataFromCanon (PTOMSG bp.b_rptr) m1 x = bp.mem x) ∧
    ((∀ x < dataLen (rpOpcode bp.mem (PTOMSG bp.b_rptr)), dataFromCanon (PTOMSG bp.b_rptr) m1
        (rpData (PTOMSG bp.b_rptr) + x) = bp.mem (rpData (PTOMSG bp.b_rptr) + x)) ↔
      DataKept bp.mem (PTOMSG bp.b_rptr) es)

theorem rpData_eq (p : ℕ) : rpData (PTOMSG p) = p + 112 := by
  rw [rpData, PTOMSG]

theorem Valid.data_even (h : Valid k bp es) : rpData (PTOMSG bp.b_rptr) % 2 = 0 := by
  have heven := h.even.1
  rw [rpData_eq]
  omega

theorem Valid.data_apart (h : Valid k bp es) : k.cbuf + cbufSize ≤ rpData (PTOMSG bp.b_rptr) ∨
    rpData (PTOMSG bp.b_rptr) + cbufSize ≤ k.cbuf := by
  have hapart := h.cbuf
  rw [rpData_eq]
  omega

/-- A record with all of its fields in the format -/
theorem Valid.record_trip (h : Valid k bp es) {fmt : List Char} {ks : List Kind}
    (hfmt : fmt = ks.flatMap Kind.text) (hfit : rooms ks ≤ cbufSize)
    (hto : dataToCanon k (PTOMSG bp.b_rptr) bp.mem =
      tcanon k.cbuf fmt (rpData (PTOMSG bp.b_rptr)) (rpData (PTOMSG bp.b_rptr)) true bp.mem)
    (hfrom : ∀ m, rpOpcode m (PTOMSG bp.b_rptr) = rpOpcode bp.mem (PTOMSG bp.b_rptr) →
      dataFromCanon (PTOMSG bp.b_rptr) m =
        (fcanon fmt (rpData (PTOMSG bp.b_rptr)) (rpData (PTOMSG bp.b_rptr)) m).2)
    (hlen : dataLen (rpOpcode bp.mem (PTOMSG bp.b_rptr)) = width ks)
    (hkept : DataKept bp.mem (PTOMSG bp.b_rptr) es) : Trip k bp es := by
  obtain ⟨m1, htc, -, hsame, hback, hbehind⟩ :=
    record_kept hfmt h.data_even h.even.2.1 hfit h.data_apart (m := bp.mem)
  have hapart := h.cbuf
  rw [rpData_eq] at htc hsame hback hbehind hto hfrom
  have hhead (x : ℕ) (hge : bp.b_rptr ≤ x) (hlt : x < bp.b_rptr + 112) : m1 x = bp.mem x :=
    hsame x (.inl hlt) (by omega)
  have hop := (head_eq fun x hge hlt _ => hhead x hge hlt).1
  refine ⟨_, m1, hto.trans htc, hhead, fun x hge hlt => ?_, ?_⟩
  · rw [hfrom m1 hop, hbehind x (.inl hlt), hhead x hge hlt]
  · rw [hlen, hfrom m1 hop, rpData_eq]
    exact iff_of_true hback hkept

theorem Valid.lock_trip (h : Valid k bp es) (hop : rpOpcode bp.mem (PTOMSG bp.b_rptr) = DUFCNTL) :
    Trip k bp es := by
  obtain ⟨m1, m2, ht1, ht2, hsame, hback⟩ := lock_kept_iff h.data_even h.even.2.1 h.data_apart bp.mem
  obtain ⟨hbehind, hkept⟩ := hback _ rfl
  have hapart := h.cbuf
  have hhead (x : ℕ) (hge : bp.b_rptr ≤ x) (hlt : x < bp.b_rptr + 112) : m2 x = bp.mem x := by
    rw [rpData_eq] at hsame
    exact hsame x (.inl hlt) (by omega)
  have hop2 : rpOpcode m2 (PTOMSG bp.b_rptr) = DUFCNTL :=
    (head_eq fun x hge hlt _ => hhead x hge hlt).1.trans hop
  refine ⟨44, m2, ?_, hhead, fun x hge hlt => ?_, ?_⟩
  · rw [dataToCanon, hop, if_pos rfl, ht1]
    exact ht2
  · rw [dataFromCanon, hop2, if_pos rfl, hbehind x (.inl (by rw [rpData_eq]; exact hlt)), hhead x hge hlt]
  · rw [dataLen, DataKept, hop, if_pos rfl, if_pos rfl, dataFromCanon, hop2]
    exact hkept

theorem Valid.statfs_trip (h : Valid k bp es) (hop : rpOpcode bp.mem (PTOMSG bp.b_rptr) = DUSTATFS ∨
    rpOpcode bp.mem (PTOMSG bp.b_rptr) = DUFSTATFS) : Trip k bp es := by
  obtain ⟨m1, ht, hsame, hbehind, hkept⟩ := statfs_kept_iff h.data_even h.even.2.1 h.data_apart bp.mem
  have hapart := h.cbuf
  have hhead (x : ℕ) (hge : bp.b_rptr ≤ x) (hlt : x < bp.b_rptr + 112) : m1 x = bp.mem x := by
    rw [rpData_eq] at hsame
    exact hsame x (.inl hlt) (by omega)
  have hopc := (head_eq fun x hge hlt _ => hhead x hge hlt).1
  have hto : dataToCanon k (PTOMSG bp.b_rptr) bp.mem = some (48, m1) := by
    rcases hop with hop | hop <;> (rw [dataToCanon, hop]; exact ht)
  have hfrom : dataFromCanon (PTOMSG bp.b_rptr) m1 =
      (fcanon fmtStatfs (rpData (PTOMSG bp.b_rptr)) (rpData (PTOMSG bp.b_rptr)) m1).2 := by
    rcases hop with hop | hop <;> (rw [dataFromCanon, hopc, hop]; rfl)
  have hlen : dataLen (rpOpcode bp.mem (PTOMSG bp.b_rptr)) = statfsSize := by
    rcases hop with hop | hop <;> (rw [hop]; rfl)
  have hne : rpOpcode bp.mem (PTOMSG bp.b_rptr) ≠ DUFCNTL := by
    rcases hop with hop | hop <;> (rw [hop]; decide)
  refine ⟨48, m1, hto, hhead, fun x hge hlt => ?_, ?_⟩
  · rw [hfrom, hbehind x (.inl (by rw [rpData_eq]; exact hlt)), hhead x hge hlt]
  · rw [hlen, hfrom, DataKept, if_neg hne, if_pos hop]
    exact hkept

/-- Every response but a listing -/
theorem Valid.trip (h : Valid k bp es) (hop : rpOpcode bp.mem (PTOMSG bp.b_rptr) ≠ DUGETDENTS) : Trip k bp es := by
  by_cases hlock : rpOpcode bp.mem (PTOMSG bp.b_rptr) = DUFCNTL
  · exact h.lock_trip hlock
  by_cases hfs : rpOpcode bp.mem (PTOMSG bp.b_rptr) = DUSTATFS ∨ rpOpcode bp.mem (PTOMSG bp.b_rptr) = DUFSTATFS
  · exact h.statfs_trip hfs
  have hkept : DataKept bp.mem (PTOMSG bp.b_rptr) es := by
    rw [DataKept, if_neg hlock, if_neg hfs, if_neg hop]
    trivial
  rw [not_or] at hfs
  by_cases hstat : rpOpcode bp.mem (PTOMSG bp.b_rptr) = DUSTAT
  · exact h.record_trip fmtStat_eq (by decide) (by rw [dataToCanon, hstat]; rfl)
      (fun m hm => by rw [dataFromCanon, hm, hstat]; rfl) (by rw [hstat]; rfl) hkept
  by_cases hfstat : rpOpcode bp.mem (PTOMSG bp.b_rptr) = DUFSTAT
  · exact h.record_trip fmtStat_eq (by decide) (by rw [dataToCanon, hfstat]; rfl)
      (fun m hm => by rw [dataFromCanon, hm, hfstat]; rfl) (by rw [hfstat]; rfl) hkept
  by_cases hustat : rpOpcode bp.mem (PTOMSG bp.b_rptr) = DUUTSSYS
  · exact h.record_trip fmtUstat_eq (by decide) (by rw [dataToCanon, hustat]; rfl)
      (fun m hm => by rw [dataFromCanon, hm, hustat]; rfl) (by rw [hustat]; rfl) hkept
  have hto : dataToCanon k (PTOMSG bp.b_rptr) bp.mem = some (0, bp.mem) := by
    simp only [dataToCanon, hlock, hfs.1, hfs.2, hstat, hfstat, hustat, hop, if_false]
  have hfrom : dataFromCanon (PTOMSG bp.b_rptr) bp.mem = bp.mem := by
    simp only [dataFromCanon, hlock, hfs.1, hfs.2, hstat, hfstat, hustat, hop, if_false]
  refine ⟨0, bp.mem, hto, fun _ _ _ => rfl, fun _ _ _ => ?_, ?_⟩
  · rw [hfrom]
  · rw [hfrom]
    exact iff_of_true (fun _ _ => rfl) hkept

/-! ## Listings -/

theorem setCount_outside {x n : ℕ} (h : x < p + 84 ∨ p + 88 ≤ x) : setCount m (PTOMSG p) n x = m x := by
  apply poke_outside
  rw [be32_length, PTOMSG]
  omega

theorem rpCount_setCount (m : Mem) (msg n : ℕ) : rpCount (setCount m msg n) msg = BitVec.ofNat 32 n :=
  (holds_poke m _ _).peek4_eq

/-- A count that is there already -/
theorem setCount_eq {msg n : ℕ} (h : (rpCount m msg).toNat = n) : setCount m msg n = m := by
  subst h
  rw [setCount, BitVec.ofNat_toNat, BitVec.setWidth_eq]
  exact (holds_peek4 m (msg + 52)).poke_eq

theorem csizes_eq_zero : csizes es = 0 ↔ reclens es = 0 := by
  cases es with
  | nil => simp [csizes, reclens]
  | cons e es =>
    have hb := reclen_bounds e
    rw [csizes_cons, reclens_cons]
    omega

/-- The count is set where there are entries, and is 0 where there are none. -/
theorem setCount_ite (msg n : ℕ) (h : n = 0 → (rpCount m msg).toNat = 0) :
    (if n ≠ 0 then setCount m msg n else m) = setCount m msg n := by
  split
  next => rfl
  next hz =>
    have hz' := not_not.mp hz
    rw [setCount_eq (hz' ▸ h hz')]

theorem rpCount_congr (h : ∀ x, p ≤ x → x < p + 112 → m' x = m x) :
    rpCount m' (PTOMSG p) = rpCount m (PTOMSG p) := by
  rw [rpCount, rpCount, PTOMSG, peek4, peek4, h _ (by omega) (by omega), h _ (by omega) (by omega),
    h _ (by omega) (by omega), h _ (by omega) (by omega)]

theorem Valid.listing_there (h : Valid k bp es) (hans : Answers bp.mem (PTOMSG bp.b_rptr))
    (hop : rpOpcode bp.mem (PTOMSG bp.b_rptr) = DUGETDENTS) (hfit : csizes es ≤ cbufSize) :
    ∃ m1, dataToCanon k (PTOMSG bp.b_rptr) bp.mem = some (csizes es, m1) ∧
      (rpCount m1 (PTOMSG bp.b_rptr)).toNat = csizes es ∧ Canons m1 (rpData (PTOMSG bp.b_rptr)) es ∧
      ∀ x, bp.b_rptr ≤ x → x < bp.b_rptr + 112 → x < bp.b_rptr + 84 ∨ bp.b_rptr + 88 ≤ x → m1 x = bp.mem x := by
  obtain ⟨hcount, hents⟩ := h.listing hans hop
  have hsize := h.size
  rw [DATASIZE] at hsize
  have hbuf : cbufSize = 1400 := rfl
  have hdbuf := h.dbuf
  have hdata := rpData_eq bp.b_rptr
  obtain ⟨m1, hto, hcans, hsame⟩ := dentcanon_spec true hents h.data_even h.even.2.2 hcount (by omega) hfit
    (by omega)
  have hhead (x : ℕ) (hge : bp.b_rptr ≤ x) (hlt : x < bp.b_rptr + 112) : m1 x = bp.mem x :=
    hsame x (.inl (by omega)) (by omega)
  have hset := setCount_ite (m := m1) (PTOMSG bp.b_rptr) (csizes es) fun hz => by
    rw [rpCount_congr hhead, hcount, csizes_eq_zero.mp hz]
  refine ⟨setCount m1 (PTOMSG bp.b_rptr) (csizes es), ?_, ?_, ?_, fun x hge hlt hout => ?_⟩
  · rw [← hset, dataToCanon, hop]
    change (match dentcanon k (rpCount bp.mem (PTOMSG bp.b_rptr)) (rpData (PTOMSG bp.b_rptr))
        (rpData (PTOMSG bp.b_rptr)) true bp.mem with
      | none => none
      | some (i, m) => some (i, if i ≠ 0 then setCount m (PTOMSG bp.b_rptr) i else m)) = _
    rw [hto]
  · rw [rpCount_setCount, BitVec.toNat_ofNat]
    exact Nat.mod_eq_of_lt (by omega)
  · exact hcans.congr h.data_even fun x hx _ => setCount_outside (.inr (by omega))
  · rw [setCount_outside hout, hhead x hge hlt]

/-- From the canonical entries at the data of a message -/
theorem listing_back (hp : p % 2 = 0) (hop : rpOpcode m (PTOMSG p) = DUGETDENTS)
    (hcount : (rpCount m (PTOMSG p)).toNat = csizes es) (h : Canons m (rpData (PTOMSG p)) es)
    (hfit : csizes es ≤ cbufSize) (hlt : reclens es < 2 ^ 16) (hstep : Stepped 0 es) :
    ∃ m', dataFromCanon (PTOMSG p) m = setCount m' (PTOMSG p) (reclens es) ∧
      Entries (dataFromCanon (PTOMSG p) m) (rpData (PTOMSG p)) es ∧ ∀ x < p + 112, m' x = m x := by
  have hdata := rpData_eq p
  have heven : rpData (PTOMSG p) % 2 = 0 := by omega
  obtain ⟨m', hfrom, hents, hsame⟩ := denfcanon_spec h heven hcount hfit hlt hstep
  have hhead (x : ℕ) (hx : x < p + 112) : m' x = m x := hsame x (.inl (by omega))
  have hset := setCount_ite (m := m') (PTOMSG p) (reclens es) fun hz => by
    rw [rpCount_congr fun x _ hx => hhead x hx, hcount, csizes_eq_zero.mpr hz]
  have hback : dataFromCanon (PTOMSG p) m = setCount m' (PTOMSG p) (reclens es) := by
    rw [← hset, dataFromCanon, hop]
    exact congrArg (fun r : ℕ × Mem => if r.1 ≠ 0 then setCount r.2 (PTOMSG p) r.1 else r.2) hfrom
  refine ⟨m', hback, ?_, hhead⟩
  rw [hback]
  exact hents.congr heven fun x hx _ => setCount_outside (.inr (by omega))

theorem Valid.listing_trip (h : Valid k bp es) (hans : Answers bp.mem (PTOMSG bp.b_rptr))
    (hop : rpOpcode bp.mem (PTOMSG bp.b_rptr) = DUGETDENTS) (hstep : Stepped 0 es) (hfit : csizes es ≤ cbufSize) :
    ∃ i m1, dataToCanon k (PTOMSG bp.b_rptr) bp.mem = some (i, m1) ∧ Answers m1 (PTOMSG bp.b_rptr) ∧
      (∀ x, bp.b_rptr ≤ x → x < bp.b_rptr + 112 → dataFromCanon (PTOMSG bp.b_rptr) m1 x = bp.mem x) ∧
      Entries (dataFromCanon (PTOMSG bp.b_rptr) m1) (rpData (PTOMSG bp.b_rptr)) es := by
  have hsize := h.size
  rw [DATASIZE] at hsize
  obtain ⟨m1, hto, hcount1, hcans, hhead⟩ := h.listing_there hans hop hfit
  obtain ⟨hopc, hansc⟩ := head_eq hhead
  obtain ⟨m2, hback, hents, hsame⟩ := listing_back h.even.1 (hopc.trans hop) hcount1 hcans hfit (by omega) hstep
  refine ⟨csizes es, m1, hto, hansc.mpr hans, fun x hge hlt => ?_, hents⟩
  rw [hback]
  by_cases hin : x < bp.b_rptr + 84 ∨ bp.b_rptr + 88 ≤ x
  · rw [setCount_outside hin, hsame x hlt, hhead x hge hlt hin]
  · -- the count is what it was
    have hold := holds_peek4 bp.mem (PTOMSG bp.b_rptr + 52)
    have hnew := holds_poke m2 (PTOMSG bp.b_rptr + 52) (be32 (BitVec.ofNat 32 (reclens es)))
    have horig : BitVec.ofNat 32 (reclens es) = rpCount bp.mem (PTOMSG bp.b_rptr) := by
      rw [← (h.listing hans hop).1, BitVec.ofNat_toNat, BitVec.setWidth_eq]
    rw [horig] at hnew
    have hj : x - (bp.b_rptr + 84) < (be32 (rpCount bp.mem (PTOMSG bp.b_rptr))).length := by
      rw [be32_length]
      omega
    have hb := hold.byte_eq hnew hj
    rw [PTOMSG, show bp.b_rptr + 32 + 52 + (x - (bp.b_rptr + 84)) = x by omega] at hb
    rw [setCount, horig]
    exact hb

/-! ## Both conversions -/

theorem comesBack_iff (hp : bp.b_rptr % 2 = 0) (hconv : hetero ≠ .NO_CONV)
    (hans : Answers bp.mem (PTOMSG bp.b_rptr)) {i : ℕ} {m1 : Mem}
    (hto : dataToCanon k (PTOMSG bp.b_rptr) bp.mem = some (i, m1)) (hans1 : Answers m1 (PTOMSG bp.b_rptr))
    (hhead : ∀ x, bp.b_rptr ≤ x → x < bp.b_rptr + 112 → dataFromCanon (PTOMSG bp.b_rptr) m1 x = bp.mem x) :
    ComesBack k bp hetero es ↔ SameData bp.mem (dataFromCanon (PTOMSG bp.b_rptr) m1) (PTOMSG bp.b_rptr) es := by
  have hthere := rftocanon_eq (k := k) hp hconv
  rw [if_pos hans, hto] at hthere
  dsimp only at hthere
  have hback (bp' : Mblk) (hb : bp' = { bp with mem := m1, b_wptr := if i ≠ 0 then bp.b_rptr + 112 + i else bp.b_wptr }) :
      rffrcanon bp' hetero = dataFromCanon (PTOMSG bp.b_rptr) m1 := by
    have hp' : bp'.b_rptr % 2 = 0 := by rw [hb]; exact hp
    rw [rffrcanon_eq hp' hconv]
    subst hb
    exact if_pos hans1
  constructor
  · rintro ⟨bp', hbp, -, hdata⟩
    rw [hthere] at hbp
    rwa [hback bp' (Option.some.inj hbp).symm] at hdata
  · intro hdata
    exact ⟨_, hthere, fun x hge hlt => by rw [hback _ rfl, hhead x hge hlt], by rw [hback _ rfl]; exact hdata⟩

/-- What is not converted comes back. -/
theorem comesBack_plain (hp : bp.b_rptr % 2 = 0)
    (hplain : hetero = .NO_CONV ∨ ¬Answers bp.mem (PTOMSG bp.b_rptr)) (h : Valid k bp es) :
    ComesBack k bp hetero es := by
  have hmem : rftocanon k bp hetero = some bp ∧ rffrcanon bp hetero = bp.mem := by
    by_cases hconv : hetero = .NO_CONV
    · rw [rftocanon, rffrcanon, if_pos hconv, if_pos hconv]
      exact ⟨rfl, rfl⟩
    · have hans := hplain.resolve_left hconv
      rw [rftocanon_eq hp hconv, rffrcanon_eq hp hconv, if_neg hans, if_neg hans]
      exact ⟨rfl, rfl⟩
  refine ⟨bp, hmem.1, fun x _ _ => by rw [hmem.2], ?_⟩
  rw [hmem.2, SameData]
  split
  next hans =>
    split
    next hop => exact (h.listing hans hop).2
    next => exact fun _ _ => rfl
  next => exact fun _ _ => rfl

theorem comesBack_trip (h : Valid k bp es) (hconv : hetero ≠ .NO_CONV)
    (hans : Answers bp.mem (PTOMSG bp.b_rptr)) (hop : rpOpcode bp.mem (PTOMSG bp.b_rptr) ≠ DUGETDENTS) :
    ComesBack k bp hetero es ↔ DataKept bp.mem (PTOMSG bp.b_rptr) es := by
  obtain ⟨i, m1, hto, hhead1, hhead, hkept⟩ := h.trip hop
  have hans1 := (head_eq fun x hge hlt _ => hhead1 x hge hlt).2.mpr hans
  rw [comesBack_iff h.even.1 hconv hans hto hans1 hhead, SameData, if_pos hans, if_neg hop, hkept]

/-- A message comes back from its conversions if its data is kept, and only then where it is no listing. -/
theorem message_comes_back (h : Valid k bp es) (hetero : Hetero) :
    ((hetero ≠ .NO_CONV → Answers bp.mem (PTOMSG bp.b_rptr) → DataKept bp.mem (PTOMSG bp.b_rptr) es) →
      ComesBack k bp hetero es) ∧
    (rpOpcode bp.mem (PTOMSG bp.b_rptr) ≠ DUGETDENTS → ComesBack k bp hetero es →
      hetero ≠ .NO_CONV → Answers bp.mem (PTOMSG bp.b_rptr) → DataKept bp.mem (PTOMSG bp.b_rptr) es) := by
  refine ⟨fun hkept => ?_, fun hop hback hconv hans => (comesBack_trip h hconv hans hop).mp hback⟩
  by_cases hplain : hetero = .NO_CONV ∨ ¬Answers bp.mem (PTOMSG bp.b_rptr)
  · exact comesBack_plain h.even.1 hplain h
  · rw [not_or, not_not] at hplain
    obtain ⟨hconv, hans⟩ := hplain
    have hdata := hkept hconv hans
    by_cases hop : rpOpcode bp.mem (PTOMSG bp.b_rptr) = DUGETDENTS
    · rw [DataKept, hop] at hdata
      obtain ⟨i, m1, hto, hans1, hhead, hents⟩ := h.listing_trip hans hop hdata.1 hdata.2
      rw [comesBack_iff h.even.1 hconv hans hto hans1 hhead, SameData, if_pos hans, if_pos hop]
      exact hents
    · exact (comesBack_trip h hconv hans hop).mpr hdata

/-- A reply to `fcntl` at 0, with `whence` in the lower byte of `l_whence` and 0 in all else of the lock -/
def lockReply (whence : Byte) : Mblk where
  b_rptr := 0
  b_wptr := 128
  mem := fun x => if x = 35 then 62 else if x = 43 then 2 else if x = 115 then whence else 0

theorem lockReply_opcode (whence : Byte) :
    rpOpcode (lockReply whence).mem (PTOMSG (lockReply whence).b_rptr) = DUFCNTL :=
  show ((0 : Byte) ++ (0 : Byte) ++ (0 : Byte) ++ (62 : Byte) : BitVec 32) = DUFCNTL by decide

theorem lockReply_valid (whence : Byte) : Valid ⟨4000, 8000⟩ (lockReply whence) [] where
  even := ⟨rfl, rfl, rfl⟩
  cbuf := .inr (by simp [lockReply, cbufSize])
  dbuf := .inr (by simp [lockReply, cbufSize])
  listing := fun _ hop => absurd ((lockReply_opcode whence).symm.trans hop) (by decide)
  size := Nat.zero_le _

theorem message_comes_back_lock : ComesBack ⟨4000, 8000⟩ (lockReply 0) .ALL_CONV [] :=
  (message_comes_back (lockReply_valid 0) .ALL_CONV).1 fun _ _ =>
    show LockKept (lockReply 0).mem 112 from
      ⟨by decide +kernel, by decide +kernel, by decide +kernel, by decide +kernel⟩

/-- A lock from the current offset on does not come back. -/
theorem lock_lost : ¬∀ k bp hetero es, Valid k bp es → ComesBack k bp hetero es := by
  intro h
  have hback := h ⟨4000, 8000⟩ (lockReply 1) .ALL_CONV [] (lockReply_valid 1)
  have hans : Answers (lockReply 1).mem (PTOMSG (lockReply 1).b_rptr) := by decide +kernel
  have hop : rpOpcode (lockReply 1).mem (PTOMSG (lockReply 1).b_rptr) ≠ DUGETDENTS := by decide +kernel
  have hconv : Hetero.ALL_CONV ≠ .NO_CONV := nofun
  have hkept : LockKept (lockReply 1).mem 112 := (comesBack_trip (lockReply_valid 1) hconv hans hop).mp hback
  exact absurd hkept.1 (by decide +kernel)

end Svr3.Canon
