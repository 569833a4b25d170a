import Svr3.Nudnix.RfcanonRun

/-!
# Directory entries in RFS messages

The entries of a listing get longer in the canonical form, and are made shorter again in place. An entry may
overwrite the canonical form of its own name, and then `denfcanon` goes on at the wrong place.
-/

namespace Svr3.Canon

/-- A directory entry -/
structure Dirent where
  d_ino : BitVec 32
  d_off : BitVec 32
  d_name : List Byte
  named : ∀ x ∈ d_name, x ≠ 0

namespace Dirent

/-- `d_reclen`, as `s5getdents` makes it -/
def reclen (e : Dirent) : ℕ := round4 (11 + e.d_name.length)

def fields (e : Dirent) : List Field :=
  [.l e.d_ino, .l e.d_off, .s (BitVec.ofNat 16 e.reclen), .str e.d_name]

/-- The size in the canonical form -/
def csize (e : Dirent) : ℕ := 16 + round4 (e.d_name.length + 1)

end Dirent

/-- The entries are at `a`, one after the other. -/
def Entries (m : Mem) : ℕ → List Dirent → Prop
  | _, [] => True
  | a, e :: es => Local m a e.fields ∧ Entries m (a + e.reclen) es

/-- Their canonical forms are. -/
def Canons (m : Mem) : ℕ → List Dirent → Prop
  | _, [] => True
  | a, e :: es => IsCanon m a e.fields ∧ Canons m (a + e.csize) es

def reclens (es : List Dirent) : ℕ := (es.map Dirent.reclen).sum

def csizes (es : List Dirent) : ℕ := (es.map Dirent.csize).sum

/-- No entry that is written `lag` bytes before its canonical form reaches the name there. -/
def Stepped : ℕ → List Dirent → Prop
  | _, [] => True
  | lag, e :: es => e.d_name.length < lag + 6 ∧ Stepped (lag + e.csize - e.reclen) es

variable {m m' : Mem} {a b d src dst : ℕ} {e : Dirent} {es : List Dirent}

theorem reclens_cons (e : Dirent) (es : List Dirent) : reclens (e :: es) = e.reclen + reclens es := by
  simp [reclens]

theorem csizes_cons (e : Dirent) (es : List Dirent) : csizes (e :: es) = e.csize + csizes es := by
  simp [csizes]

theorem fields_format (e : Dirent) : format e.fields = fmtDirent := by
  have hzero : digits 0 = ['0'] := by decide +kernel
  simp [format, Dirent.fields, Field.conv, Field.count, hzero, fmtDirent]

theorem reclen_bounds (e : Dirent) : e.d_name.length + 11 ≤ e.reclen ∧ e.reclen ≤ e.d_name.length + 14 ∧
    e.reclen % 2 = 0 ∧ e.reclen + 4 ≤ e.csize ∧ e.d_name.length + 17 ≤ e.csize ∧ e.csize % 2 = 0 := by
  rw [Dirent.reclen, Dirent.csize, round4, round4]
  omega

theorem fields_good (h : e.reclen < 2 ^ 16) : ∀ f ∈ e.fields, f.Good := by
  have hb := reclen_bounds e
  simp only [Dirent.fields, List.forall_mem_cons, Field.Good, true_and]
  exact ⟨⟨e.named, by omega⟩, List.forall_mem_nil _⟩

theorem fields_inStep (e : Dirent) : InStep e.fields := by
  simp [Dirent.fields, InStep, Field.isText]

theorem localEnd_fields (e : Dirent) (ha : a % 2 = 0) : localEnd a e.fields = a + (e.d_name.length + 11) := by
  have h4 : (a + 4) % 2 = 0 := by omega
  have h8 : (a + 4 + 4) % 2 = 0 := by omega
  simp only [Dirent.fields, localEnd, Field.loc, Field.bytes, be32_length, be16_length, align_of_even ha,
    align_of_even h4, align_of_even h8, List.length_append, List.length_singleton]
  omega

theorem canonEnd_fields (e : Dirent) (ha : a % 2 = 0) :
    a + (e.d_name.length + 17) ≤ canonEnd a e.fields ∧ canonEnd a e.fields ≤ a + e.csize ∧
      round4 (canonEnd a e.fields - a) = e.csize := by
  have h4 : (a + 4) % 2 = 0 := by omega
  have h8 : (a + 4 + 4) % 2 = 0 := by omega
  have h12 : (a + 4 + 4 + 4) % 2 = 0 := by omega
  simp only [Dirent.fields, canonEnd, Field.next, Field.isText, Field.last, Field.cloc, Field.canon, be32_length,
    align_of_even ha, align_of_even h4, align_of_even h8, align_of_even h12, List.length_append,
    List.length_singleton, Bool.false_eq_true, if_false, if_true]
  rw [align, Dirent.csize, round4, round4]
  omega

theorem reclens_le (es : List Dirent) : reclens es ≤ csizes es := by
  induction es with
  | nil => exact Nat.le_refl 0
  | cons e es ih =>
    have hb := reclen_bounds e
    rw [reclens_cons, csizes_cons]
    omega

/-- What a record has as its length -/
theorem Local.reclen (h : Local m a e.fields) (ha : a % 2 = 0) (hlt : e.reclen < 2 ^ 16) :
    dReclen m a = e.reclen := by
  have h4 : (a + 4) % 2 = 0 := by omega
  have h8 : (a + 4 + 4) % 2 = 0 := by omega
  simp only [Dirent.fields, Local, Field.loc, Field.bytes, be32_length, align_of_even ha, align_of_even h4,
    align_of_even h8] at h
  have hlen : peek2 m (a + 8) = BitVec.ofNat 16 e.reclen := h.2.2.1.peek2_eq
  rw [dReclen, hlen, BitVec.toNat_ofNat, Nat.mod_eq_of_lt hlt]

/-- Where the canonical form has the name -/
theorem IsCanon.name (h : IsCanon m a e.fields) (ha : a % 2 = 0) : Holds m (a + 16) (e.d_name ++ [0]) := by
  have h4 : (a + 4) % 2 = 0 := by omega
  have h8 : (a + 4 + 4) % 2 = 0 := by omega
  have h12 : (a + 4 + 4 + 4) % 2 = 0 := by omega
  simp only [Dirent.fields, IsCanon, Field.next, Field.isText, Field.last, Field.cloc, Field.canon, be32_length,
    align_of_even ha, align_of_even h4, align_of_even h8, align_of_even h12, Bool.false_eq_true, if_false] at h
  exact (holds_append.mp h.2.2.2.1).2

theorem Entries.congr (h : Entries m a es) (ha : a % 2 = 0)
    (hsame : ∀ x, a ≤ x → x < a + reclens es → m' x = m x) : Entries m' a es := by
  induction es generalizing a with
  | nil => trivial
  | cons e es ih =>
    have hb := reclen_bounds e
    rw [reclens_cons] at hsame
    refine ⟨h.1.congr fun x hx hlt => ?_, ih h.2 (by omega) fun x hx hlt => hsame x (by omega) (by omega)⟩
    rw [localEnd_fields e ha] at hlt
    exact hsame x hx (by omega)

theorem Canons.shift (h : Canons m a es) (ha : a % 2 = 0) (hb : b % 2 = 0)
    (hsame : ∀ j < csizes es, m' (b + j) = m (a + j)) : Canons m' b es := by
  induction es generalizing a b with
  | nil => trivial
  | cons e es ih =>
    obtain ⟨-, hend, -⟩ := canonEnd_fields e ha
    have hbounds := reclen_bounds e
    rw [csizes_cons] at hsame
    refine ⟨h.1.shift (by omega) fun j hj => hsame j (by omega), ih h.2 (by omega) (by omega) fun j hj => ?_⟩
    rw [Nat.add_assoc, Nat.add_assoc]
    exact hsame (e.csize + j) (by omega)

theorem Canons.congr (h : Canons m a es) (ha : a % 2 = 0)
    (hsame : ∀ x, a ≤ x → x < a + csizes es → m' x = m x) : Canons m' a es :=
  h.shift ha ha fun j hj => hsame (a + j) (Nat.le_add_right a j) (by omega)

/-! ## To the canonical form -/

/-- A record that goes elsewhere -/
theorem tcanon_there {cbuf : ℕ} {fs : List Field} {flag : Bool} (hfs : ∀ f ∈ fs, f.Good) (h : Local m src fs)
    (hne : src ≠ dst) (hapart : localEnd src fs ≤ dst ∨ canonEnd dst fs ≤ src) :
    ∃ m', tcanon cbuf (format fs) src dst flag m = some (canonEnd dst fs - dst, m') ∧ IsCanon m' dst fs ∧
      ∀ x, x < dst ∨ canonEnd dst fs ≤ x → m' x = m x := by
  obtain ⟨n, hn⟩ := Nat.exists_eq_add_of_le (length_le_format fs)
  obtain ⟨m', hrun, hc, hsame⟩ := tconv_run hfs h noDigit_nil n hapart
  rw [List.append_nil, convert_nil] at hrun
  refine ⟨m', ?_, hc, fun x hx => hsame x fun hw => ?_⟩
  · rw [tcanon, if_neg fun hc => hne hc.2, hn, hrun]
  · have hb := writes_bounds hw
    omega

/-- One turn of the loop of `dentcanon` -/
theorem dentLoop_turn {k : Stack} (flag : Bool) (fuel : ℕ) {tlen : ℕ} (h : Entries m src (e :: es)) (hs : src % 2 = 0)
    (hk : (k.dbuf + tlen) % 2 = 0) (hlt : reclens (e :: es) < 2 ^ 16)
    (hapart : k.dbuf + tlen + e.csize ≤ src ∨ src + reclens (e :: es) ≤ k.dbuf + tlen) :
    ∃ m', dentLoop k flag (fuel + 1) (reclens (e :: es) : ℕ) src tlen m =
        (if tlen + e.csize > cbufSize then none
        else dentLoop k flag fuel (reclens es : ℕ) (src + e.reclen) (tlen + e.csize) m') ∧
      IsCanon m' (k.dbuf + tlen) e.fields ∧ Entries m' (src + e.reclen) es ∧
      ∀ x, x < k.dbuf + tlen ∨ k.dbuf + tlen + e.csize ≤ x → m' x = m x := by
  have hb := reclen_bounds e
  rw [reclens_cons] at hlt hapart ⊢
  obtain ⟨hlo, hhi, hround⟩ := canonEnd_fields e hk
  have hlocal := localEnd_fields e hs
  have hne : src ≠ k.dbuf + tlen := by omega
  have hcopy : localEnd src e.fields ≤ k.dbuf + tlen ∨ canonEnd (k.dbuf + tlen) e.fields ≤ src := by omega
  obtain ⟨m', htc, hcan, hsame⟩ := tcanon_there (fields_good (by omega)) h.1 hne hcopy
  have hkept (x : ℕ) (hx : src ≤ x) (hlt : x < src + (e.reclen + reclens es)) : m' x = m x :=
    hsame x (by omega)
  have hlen : dReclen m' src = e.reclen :=
    (h.1.congr fun x hx hlt => hkept x hx (by omega)).reclen hs (by omega)
  have hrest : Entries m' (src + e.reclen) es :=
    h.2.congr (by omega) fun x hx hlt => hkept x (by omega) (by omega)
  refine ⟨m', ?_, hcan, hrest, fun x hx => hsame x (by omega)⟩
  rw [dentLoop, if_pos (by omega), ← fields_format e, htc]
  dsimp only
  have hcount : ((e.reclen + reclens es : ℕ) : ℤ) - e.reclen = (reclens es : ℕ) := by omega
  rw [hround, hlen, hcount]

/-- The loop of `dentcanon` over the entries that are left -/
theorem dentLoop_spec {k : Stack} (flag : Bool) {fuel tlen : ℕ} (h : Entries m src es) (hs : src % 2 = 0)
    (hk : (k.dbuf + tlen) % 2 = 0) (hfuel : reclens es ≤ fuel) (hlt : reclens es < 2 ^ 16)
    (hfit : tlen + csizes es ≤ cbufSize) (hapart : k.dbuf + cbufSize ≤ src ∨ src + reclens es ≤ k.dbuf) :
    ∃ m', dentLoop k flag fuel (reclens es : ℕ) src tlen m = some (tlen + csizes es, m') ∧
      Canons m' (k.dbuf + tlen) es ∧
      ∀ x, x < k.dbuf + tlen ∨ k.dbuf + (tlen + csizes es) ≤ x → m' x = m x := by
  induction es generalizing src tlen fuel m with
  | nil => exact ⟨m, by cases fuel <;> rfl, trivial, fun _ _ => rfl⟩
  | cons e es ih =>
    have hb := reclen_bounds e
    rw [csizes_cons] at hfit ⊢
    have hlens := reclens_cons e es
    obtain ⟨fuel, rfl⟩ : ∃ n, fuel = n + 1 := ⟨fuel - 1, by omega⟩
    obtain ⟨m1, hturn, hcan, hrest, hsame⟩ := dentLoop_turn flag fuel h hs hk hlt (by omega)
    obtain ⟨-, hhi, -⟩ := canonEnd_fields e hk
    have hk' : (k.dbuf + (tlen + e.csize)) % 2 = 0 := by omega
    have hs' : (src + e.reclen) % 2 = 0 := by omega
    have hfuel' : reclens es ≤ fuel := by omega
    have hapart' : k.dbuf + cbufSize ≤ src + e.reclen ∨ src + e.reclen + reclens es ≤ k.dbuf := by omega
    obtain ⟨m2, hrun, hcans, hsame2⟩ := ih hrest hs' hk' hfuel' (by omega) (by omega) hapart'
    refine ⟨m2, ?_, ⟨hcan.congr fun x hx hlt => hsame2 x (.inl (by omega)), ?_⟩, fun x hx => ?_⟩
    · rw [hturn, if_neg (by omega), hrun, Nat.add_assoc]
    · rw [Nat.add_assoc]
      exact hcans
    · rw [hsame2 x (by omega), hsame x (by omega)]

theorem dentcanon_spec {k : Stack} {count : BitVec 32} (flag : Bool) (h : Entries m d es) (hd : d % 2 = 0)
    (hk : k.dbuf % 2 = 0) (hcount : count.toNat = reclens es) (hlt : reclens es < 2 ^ 16)
    (hfit : csizes es ≤ cbufSize) (hapart : k.dbuf + cbufSize ≤ d ∨ d + csizes es ≤ k.dbuf) :
    ∃ m', dentcanon k count d d flag m = some (csizes es, m') ∧ Canons m' d es ∧
      ∀ x, x < d ∨ d + csizes es ≤ x → x < k.dbuf ∨ k.dbuf + cbufSize ≤ x → m' x = m x := by
  have hle := reclens_le es
  have hint : count.toInt = (reclens es : ℕ) := by
    rw [BitVec.toInt_eq_toNat_of_lt (by omega), hcount]
  have hdbuf : (k.dbuf + 0) % 2 = 0 := hk
  obtain ⟨m1, hrun, hcans, hsame⟩ := dentLoop_spec flag h hd hdbuf (Nat.le_of_eq hcount.symm) hlt
    (by omega) (by omega)
  refine ⟨copy (csizes es) k.dbuf d m1, ?_, hcans.shift hk hd fun j hj => copy_get (by omega) hj, fun x hx hxk => ?_⟩
  · rw [dentcanon, hint, hrun, Nat.zero_add]
  · have hout : copy (csizes es) k.dbuf d m1 x = m1 x := by
      rcases hx with hlt | hge
      · exact copy_of_lt _ hlt
      · exact copy_of_ge hge
    rw [hout, hsame x (by omega)]

/-! ## Back to local entries -/

/-- The loop of `denfcanon` over the entries that are left -/
theorem denfLoop_spec {fuel : ℕ} (tlen : ℕ) (h : Canons m src es) (hs : src % 2 = 0) (hd : dst % 2 = 0)
    (hle : dst ≤ src) (hfuel : csizes es ≤ fuel) (hlt : reclens es < 2 ^ 16) (hstep : Stepped (src - dst) es) :
    ∃ m', denfLoop fuel (csizes es : ℕ) src dst tlen m = (tlen + reclens es, m') ∧ Entries m' dst es ∧
      ∀ x, x < dst ∨ dst + reclens es ≤ x → m' x = m x := by
  induction es generalizing src dst tlen fuel m with
  | nil => exact ⟨m, by cases fuel <;> rfl, trivial, fun _ _ => rfl⟩
  | cons e es ih =>
    have hb := reclen_bounds e
    rw [reclens_cons] at hlt ⊢
    rw [csizes_cons] at hfuel ⊢
    obtain ⟨fuel, rfl⟩ : ∃ n, fuel = n + 1 := ⟨fuel - 1, by omega⟩
    obtain ⟨hshort, hstep⟩ := hstep
    have hgood := fields_good (e := e) (by omega)
    obtain ⟨hl, hsame⟩ := fcanon_place hgood (fields_inStep e) h.1 hle
    rw [fields_format, localEnd_fields e hd] at hsame
    rw [fields_format] at hl
    generalize hm1 : (fcanon fmtDirent src dst m).2 = m1 at hl hsame
    have hlen : dReclen m1 dst = e.reclen := hl.reclen hd (by omega)
    -- the name is not yet overwritten when it is measured
    have hname : Holds m1 (src + 16) (e.d_name ++ [0]) :=
      (h.1.name hs).congr fun x hx _ => hsame x (.inr (by omega))
    have hstr : strlen m1 (src + 16) = e.d_name.length := strlen_eq e.named (by omega) hname
    have hrest : Canons m1 (src + e.csize) es := h.2.congr (by omega) fun x hx _ => hsame x (.inr (by omega))
    have hlag : src - dst + e.csize - e.reclen = src + e.csize - (dst + e.reclen) := by omega
    rw [hlag] at hstep
    have hs' : (src + e.csize) % 2 = 0 := by omega
    have hd' : (dst + e.reclen) % 2 = 0 := by omega
    have hfuel' : csizes es ≤ fuel := by omega
    obtain ⟨m2, hrun, hents, hsame2⟩ := ih (tlen + e.reclen) hrest hs' hd' (by omega) hfuel' (by omega) hstep
    refine ⟨m2, ?_, ⟨hl.congr fun x hx hx' => hsame2 x (.inl ?_), hents⟩, fun x hx => ?_⟩
    · rw [denfLoop, if_pos (by omega)]
      dsimp only
      rw [hm1, hlen, hstr]
      have htcc : 16 + round4 (e.d_name.length + 1) = e.csize := rfl
      have hcount : ((e.csize + csizes es : ℕ) : ℤ) - e.csize = (csizes es : ℕ) := by omega
      rw [htcc, hcount, hrun, Nat.add_assoc]
    · rw [localEnd_fields e hd] at hx'
      omega
    · rw [hsame2 x (by omega), hsame x (by omega)]

theorem denfcanon_spec {count : BitVec 32} (h : Canons m d es) (hd : d % 2 = 0) (hcount : count.toNat = csizes es)
    (hfit : csizes es ≤ cbufSize) (hlt : reclens es < 2 ^ 16) (hstep : Stepped 0 es) :
    ∃ m', denfcanon count d d m = (reclens es, m') ∧ Entries m' d es ∧
      ∀ x, x < d ∨ d + reclens es ≤ x → m' x = m x := by
  have hint : count.toInt = (csizes es : ℕ) := by
    rw [cbufSize] at hfit
    rw [BitVec.toInt_eq_toNat_of_lt (by omega), hcount]
  rw [← Nat.sub_self d] at hstep
  obtain ⟨m', hrun, hents, hsame⟩ := denfLoop_spec 0 h hd hd (Nat.le_refl d) (Nat.le_of_eq hcount.symm) hlt hstep
  refine ⟨m', ?_, hents, hsame⟩
  rw [denfcanon, hint, hrun, Nat.zero_add]

end Svr3.Canon
