import Svr3.Nudnix.CanonRun
import Svr3.Nudnix.Rfcanon

/-!
# Round trips of RFS messages

The headers and most data come back. A file lock goes through two conversions on each side, of the statistics of a
file system the last four bytes are in no format, and the names of a directory are measured when a part of them may
be overwritten.
-/

namespace Svr3.Canon

open List

variable {m m' : Mem} {a d x : ℕ}

/-! ## Headers -/

theorem tconv_longs (n : ℕ) (ha : a % 2 = 0) (m : Mem) :
    convert tconv n ⟨List.replicate n 'l', a, a, m⟩ = (true, ⟨[], a + 4 * n, a + 4 * n, m⟩) := by
  induction n generalizing a with
  | zero => rfl
  | succ n ih =>
    have hstep : tconv 'l' ⟨List.replicate n 'l', a, a, m⟩ =
        some ⟨List.replicate n 'l', a + 4, a + 4, m⟩ := by
      simp only [tconv, align_of_even ha, (holds_peek4 m a).poke_eq]
    rw [replicate_succ, convert]
    dsimp only
    rw [hstep]
    dsimp only
    rw [ih (by omega), Nat.mul_succ, Nat.add_assoc a 4, Nat.add_comm 4]

theorem fconv_longs (n : ℕ) (ha : a % 2 = 0) (m : Mem) :
    convert fconv n ⟨List.replicate n 'l', a, a, m⟩ = (true, ⟨[], a + 4 * n, a + 4 * n, m⟩) := by
  induction n generalizing a with
  | zero => rfl
  | succ n ih =>
    have hstep : fconv 'l' ⟨List.replicate n 'l', a, a, m⟩ =
        some ⟨List.replicate n 'l', a + 4, a + 4, m⟩ := by
      simp only [fconv, align_of_even ha, (holds_peek4 m a).poke_eq]
    rw [replicate_succ, convert]
    dsimp only
    rw [hstep]
    dsimp only
    rw [ih (by omega), Nat.mul_succ, Nat.add_assoc a 4, Nat.add_comm 4]

theorem tcanon_longs (cbuf n : ℕ) (ha : a % 2 = 0) (m : Mem) :
    tcanon cbuf (List.replicate n 'l') a a false m = some (a + 4 * n - a, m) := by
  rw [tcanon, if_neg (by simp), length_replicate, tconv_longs n ha]

theorem fcanon_longs (n : ℕ) (ha : a % 2 = 0) (m : Mem) :
    (fcanon (List.replicate n 'l') a a m).2 = m := by
  rw [fcanon, length_replicate, fconv_longs n ha]

/-! ## Records in place -/

/-- The canonical form in place of the record, and nothing else changed but `cbuf` -/
theorem tcanon_place {cbuf : ℕ} {fs : List Field} (hfs : ∀ f ∈ fs, f.Good) (h : Local m d fs)
    (hd : d % 2 = 0) (hc : cbuf % 2 = 0) (hfit : canonEnd 0 fs ≤ cbufSize)
    (hapart : cbuf + cbufSize ≤ d ∨ d + cbufSize ≤ cbuf) :
    ∃ m', tcanon cbuf (format fs) d d true m = some (canonEnd 0 fs, m') ∧ IsCanon m' d fs ∧
      ∀ x, x < d ∨ d + canonEnd 0 fs ≤ x → x < cbuf ∨ cbuf + cbufSize ≤ x → m' x = m x := by
  obtain ⟨n, hn⟩ := Nat.exists_eq_add_of_le (length_le_format fs)
  have hend : canonEnd cbuf fs = cbuf + canonEnd 0 fs := by
    have hshift := canonEnd_shift (a := cbuf) (d := 0) (by omega) fs
    omega
  have hendd : canonEnd d fs = d + canonEnd 0 fs := by
    have hshift := canonEnd_shift (a := d) (d := 0) (by omega) fs
    omega
  have hlocal := localEnd_le_canonEnd (Nat.le_refl d) fs
  have hbuf : localEnd d fs ≤ cbuf ∨ canonEnd cbuf fs ≤ d := by omega
  obtain ⟨m1, hrun, hcan, hsame⟩ := tconv_run hfs h noDigit_nil n hbuf
  rw [append_nil, convert_nil] at hrun
  have hlen : canonEnd cbuf fs - cbuf = canonEnd 0 fs := by omega
  have hcopy (j : ℕ) (hj : cbuf + j < canonEnd cbuf fs) :
      copy (canonEnd 0 fs) cbuf d m1 (d + j) = m1 (cbuf + j) := copy_get (by omega) (by omega)
  refine ⟨copy (canonEnd 0 fs) cbuf d m1, ?_, hcan.shift (by omega) hcopy, fun x hx hxc => ?_⟩
  · rw [tcanon, if_pos ⟨rfl, rfl⟩, hn, hrun]
    dsimp only
    rw [hlen, if_neg (Nat.not_lt.mpr hfit)]
  · have hout : copy (canonEnd 0 fs) cbuf d m1 x = m1 x := by
      rcases hx with hlt | hge
      · exact copy_of_lt _ hlt
      · exact copy_of_ge hge
    rw [hout]
    refine hsame x fun hw => ?_
    have hb := writes_bounds hw
    omega

/-- The record in place of the canonical form, and nothing else changed -/
theorem fcanon_place {fs : List Field} (hfs : ∀ f ∈ fs, f.Good) (hin : InStep fs) (h : IsCanon m a fs)
    (hle : d ≤ a) :
    Local (fcanon (format fs) a d m).2 d fs ∧
      ∀ x, x < d ∨ localEnd d fs ≤ x → (fcanon (format fs) a d m).2 x = m x := by
  obtain ⟨n, hn⟩ := Nat.exists_eq_add_of_le (length_le_format fs)
  obtain ⟨m1, hrun, hl, hsame⟩ := fconv_run hfs hin h noDigit_nil n (.inl hle)
  rw [append_nil, convert_nil] at hrun
  rw [fcanon, hn, hrun]
  exact ⟨hl, hsame⟩

/-! ## Records of fixed size -/

/-- A short, a long, or six bytes -/
inductive Kind
  | s
  | l
  | c6

namespace Kind

def size : Kind → ℕ
  | s => 2
  | l => 4
  | c6 => 6

/-- The size of the canonical form -/
def room : Kind → ℕ
  | s => 4
  | l => 4
  | c6 => 10

/-- The conversion in a format -/
def text : Kind → List Char
  | s => ['s']
  | l => ['l']
  | c6 => ['c', '6']

/-- The field of a record at `a` -/
def field (m : Mem) (a : ℕ) : Kind → Field
  | s => .s (peek2 m a)
  | l => .l (peek4 m a)
  | c6 => .c [m a, m (a + 1), m (a + 2), m (a + 3), m (a + 4), m (a + 5)]

end Kind

/-- The record at `a` -/
def fieldsAt (m : Mem) : List Kind → ℕ → List Field
  | [], _ => []
  | k :: ks, a => k.field m a :: fieldsAt m ks (a + k.size)

/-- The size of a record -/
def width (ks : List Kind) : ℕ := (ks.map Kind.size).sum

def rooms (ks : List Kind) : ℕ := (ks.map Kind.room).sum

def flock : List Kind := [.s, .s, .l, .l, .s, .s]
def stat : List Kind := [.s, .s, .s, .s, .s, .s, .s, .l, .l, .l, .l]
def statfs : List Kind := [.s, .s, .s, .l, .l, .l, .l, .c6, .c6]
def ustat : List Kind := [.l, .s, .c6, .c6]

theorem fmtFlock_eq : fmtFlock = flock.flatMap Kind.text := rfl

theorem fmtStat_eq : fmtStat = stat.flatMap Kind.text := rfl

theorem fmtStatfs_eq : fmtStatfs = statfs.flatMap Kind.text := rfl

theorem fmtUstat_eq : fmtUstat = ustat.flatMap Kind.text := rfl

variable {ks : List Kind}

theorem width_cons (k : Kind) (ks : List Kind) : width (k :: ks) = k.size + width ks := by
  simp [width]

theorem field_good (m : Mem) (a : ℕ) (k : Kind) : (k.field m a).Good := by
  cases k <;> simp [Kind.field, Field.Good]

theorem fieldsAt_good (m : Mem) (ks : List Kind) (a : ℕ) : ∀ f ∈ fieldsAt m ks a, f.Good := by
  induction ks generalizing a with
  | nil => simp [fieldsAt]
  | cons k ks ih =>
    simp only [fieldsAt, forall_mem_cons]
    exact ⟨field_good m a k, ih _⟩

theorem fieldsAt_inStep (m : Mem) (ks : List Kind) (a : ℕ) : InStep (fieldsAt m ks a) := by
  induction ks generalizing a with
  | nil => trivial
  | cons k ks ih =>
    refine ⟨fun _ v => ?_, ih _⟩
    cases ks with
    | nil => nofun
    | cons k' ks => cases k' <;> simp [fieldsAt, Kind.field]

theorem field_loc (k : Kind) (ha : a % 2 = 0) :
    (k.field m a).loc a = a ∧ (k.field m a).bytes.length = k.size := by
  cases k <;> exact ⟨by simp [Kind.field, Field.loc, align_of_even ha], rfl⟩

theorem size_even (k : Kind) : k.size % 2 = 0 := by
  cases k <;> rfl

theorem format_fieldsAt (m : Mem) (ks : List Kind) (a : ℕ) : format (fieldsAt m ks a) = ks.flatMap Kind.text := by
  induction ks generalizing a with
  | nil => rfl
  | cons k ks ih =>
    have hfield : (k.field m a).conv :: (k.field m a).count = k.text := by
      cases k with
      | s => rfl
      | l => rfl
      | c6 => exact congrArg _ (by decide +kernel : digits 6 = ['6'])
    have hcons := format_cons (k.field m a) (fieldsAt m ks (a + k.size)) []
    rw [append_nil, append_nil, ih, hfield] at hcons
    rw [fieldsAt, hcons, flatMap_cons]

theorem field_cloc (k : Kind) (b : ℕ) (ha : a % 2 = 0) :
    (k.field m b).cloc a = a ∧ (k.field m b).next a = a + k.room := by
  cases k with
  | s => simp [Kind.field, Kind.room, Field.cloc, Field.next, Field.isText, Field.last, Field.canon, be32,
      align_of_even ha]
  | l => simp [Kind.field, Kind.room, Field.cloc, Field.next, Field.isText, Field.last, Field.canon, be32,
      align_of_even ha]
  | c6 =>
    have hend : align (a + 10) = a + 10 := align_of_even (by omega)
    simp [Kind.field, Kind.room, Field.cloc, Field.next, Field.isText, Field.last, Field.canon, be32,
      align_of_even ha, hend]

theorem room_even (k : Kind) : k.room % 2 = 0 := by
  cases k <;> rfl

theorem canonEnd_fieldsAt (m : Mem) (ks : List Kind) (b : ℕ) (ha : a % 2 = 0) :
    canonEnd a (fieldsAt m ks b) = a + rooms ks := by
  induction ks generalizing a b with
  | nil => rfl
  | cons k ks ih =>
    have heven := room_even k
    rw [fieldsAt, canonEnd, (field_cloc k b ha).2, ih _ (by omega), rooms, rooms, map_cons, sum_cons,
      Nat.add_assoc]

theorem holds_field (m : Mem) (a : ℕ) (k : Kind) : Holds m a (k.field m a).bytes := by
  cases k with
  | s => exact holds_peek2 m a
  | l => exact holds_peek4 m a
  | c6 => exact ⟨rfl, rfl, rfl, rfl, rfl, rfl, trivial⟩

theorem local_fieldsAt (m : Mem) (ks : List Kind) (ha : a % 2 = 0) : Local m a (fieldsAt m ks a) := by
  induction ks generalizing a with
  | nil => trivial
  | cons k ks ih =>
    obtain ⟨hloc, hlen⟩ := field_loc (m := m) k ha
    have heven := size_even k
    simp only [fieldsAt, Local, hloc, hlen]
    exact ⟨holds_field m a k, ih (by omega)⟩

theorem localEnd_fieldsAt (m : Mem) (ks : List Kind) (ha : a % 2 = 0) :
    localEnd a (fieldsAt m ks a) = a + width ks := by
  induction ks generalizing a with
  | nil => rfl
  | cons k ks ih =>
    obtain ⟨hloc, hlen⟩ := field_loc (m := m) k ha
    have heven := size_even k
    rw [fieldsAt, localEnd, hloc, hlen, ih (by omega), width_cons, Nat.add_assoc]

/-- The same record at the same place is the same bytes. -/
theorem Local.bytes (h : Local m' a (fieldsAt m ks a)) (ha : a % 2 = 0) :
    ∀ x < width ks, m' (a + x) = m (a + x) := by
  induction ks generalizing a with
  | nil => exact fun x hx => absurd hx (Nat.not_lt_zero x)
  | cons k ks ih =>
    obtain ⟨hloc, hlen⟩ := field_loc (m := m) k ha
    have heven := size_even k
    simp only [fieldsAt, Local, hloc, hlen] at h
    intro x hx
    rw [width_cons] at hx
    by_cases hlt : x < k.size
    · exact (holds_field m a k).byte_eq h.1 (hlen ▸ hlt)
    · have hrest := ih h.2 (by omega) (x - k.size) (by omega)
      rwa [show a + k.size + (x - k.size) = a + x by omega] at hrest

/-- A record that is written in place of its canonical form, and what is behind it -/
theorem record_kept {cbuf : ℕ} {fmt : List Char} (hfmt : fmt = ks.flatMap Kind.text) (hd : d % 2 = 0)
    (hc : cbuf % 2 = 0) (hfit : rooms ks ≤ cbufSize)
    (hapart : cbuf + cbufSize ≤ d ∨ d + cbufSize ≤ cbuf) :
    ∃ m', tcanon cbuf fmt d d true m = some (rooms ks, m') ∧ IsCanon m' d (fieldsAt m ks d) ∧
      (∀ x, x < d ∨ d + rooms ks ≤ x → x < cbuf ∨ cbuf + cbufSize ≤ x → m' x = m x) ∧
      (∀ x < width ks, (fcanon fmt d d m').2 (d + x) = m (d + x)) ∧
      ∀ x, x < d ∨ d + width ks ≤ x → (fcanon fmt d d m').2 x = m' x := by
  have hgood := fieldsAt_good m ks d
  have hsize : canonEnd 0 (fieldsAt m ks d) = rooms ks := by
    rw [canonEnd_fieldsAt m ks d rfl, Nat.zero_add]
  obtain ⟨m', htc, hcan, hsame⟩ := tcanon_place hgood (local_fieldsAt m ks hd) hd hc (hsize ▸ hfit) hapart
  obtain ⟨hl, hback⟩ := fcanon_place hgood (fieldsAt_inStep m ks d) hcan (Nat.le_refl d)
  rw [hsize] at htc hsame
  rw [localEnd_fieldsAt m ks hd] at hback
  rw [hfmt, ← format_fieldsAt m ks d]
  exact ⟨m', htc, hcan, hsame, hl.bytes hd, hback⟩

/-! ## Reading what is not the canonical form -/

/-- What `fcanon` takes a long at `a` for -/
def Kind.read (m : Mem) (a : ℕ) : Kind → Field
  | .s => .s (peek2 m (a + 2))
  | .l => .l (peek4 m a)
  | .c6 => .c [m (a + 4), m (a + 5), m (a + 6), m (a + 7), m (a + 8), m (a + 9)]

def reads (m : Mem) : List Kind → ℕ → List Field
  | [], _ => []
  | k :: ks, a => k.read m a :: reads m ks (a + k.room)

theorem reads_congr (ks : List Kind) (h : ∀ x, a ≤ x → m' x = m x) : reads m' ks a = reads m ks a := by
  induction ks generalizing a with
  | nil => rfl
  | cons k ks ih =>
    have hk : k.read m' a = k.read m a := by
      cases k <;> simp only [Kind.read, peek2, peek4] <;> simp only [h _ (Nat.le_add_right _ _), Nat.add_assoc,
        h a (Nat.le_refl a)]
    rw [reads, reads, hk, ih fun x hx => h x (by omega)]

/-- Whatever the longs are, `fcanon` takes them one after the other. -/
theorem fconv_reads (hks : .c6 ∉ ks) (hs : src % 2 = 0) (hd : d % 2 = 0) (hle : d ≤ src) (m : Mem) :
    ∃ m', convert fconv ks.length ⟨ks.flatMap Kind.text, src, d, m⟩ =
        (true, ⟨[], src + rooms ks, d + width ks, m'⟩) ∧
      Local m' d (reads m ks src) ∧ ∀ x, x < d ∨ d + width ks ≤ x → m' x = m x := by
  induction ks generalizing src d m with
  | nil => exact ⟨m, rfl, trivial, fun _ _ => rfl⟩
  | cons k ks ih =>
    rw [mem_cons, not_or] at hks
    obtain ⟨hne, hks⟩ := hks
    have hsize := size_even k
    have hroom := room_even k
    have hsr : k.size ≤ k.room := by cases k <;> decide
    obtain ⟨hloc, hlen, c, htext, hstep⟩ : (k.read m src).loc d = d ∧ (k.read m src).bytes.length = k.size ∧
        ∃ c, k.text = [c] ∧ fconv c ⟨ks.flatMap Kind.text, src, d, m⟩ =
          some ⟨ks.flatMap Kind.text, src + k.room, d + k.size, poke d (k.read m src).bytes m⟩ := by
      cases k with
      | s =>
        refine ⟨align_of_even hd, rfl, 's', rfl, ?_⟩
        simp only [fconv, align_of_even hs, align_of_even hd, peek2_low]
        rfl
      | l =>
        refine ⟨align_of_even hd, rfl, 'l', rfl, ?_⟩
        simp only [fconv, align_of_even hs, align_of_even hd]
        rfl
      | c6 => exact absurd rfl hne
    have hs' : (src + k.room) % 2 = 0 := by omega
    have hd' : (d + k.size) % 2 = 0 := by omega
    obtain ⟨m', hrun, hl, hsame⟩ := ih hks hs' hd' (by omega) (poke d (k.read m src).bytes m)
    have hreads : reads (poke d (k.read m src).bytes m) ks (src + k.room) = reads m ks (src + k.room) :=
      reads_congr ks fun x hx => poke_of_ge (by omega)
    rw [hreads] at hl
    refine ⟨m', ?_, ⟨?_, ?_⟩, fun x hx => ?_⟩
    · rw [length_cons, flatMap_cons, htext, singleton_append, convert]
      dsimp only
      rw [hstep]
      dsimp only
      rw [hrun, width_cons, rooms, rooms, map_cons, sum_cons, Nat.add_assoc, Nat.add_assoc]
    · rw [hloc]
      exact (holds_poke m d _).congr fun x hx hlt => hsame x (.inl (by omega))
    · rw [hloc, hlen]
      exact hl
    · rw [width_cons] at hx
      rw [hsame x (by omega)]
      exact poke_outside (by omega)

theorem length_text (hks : .c6 ∉ ks) : (ks.flatMap Kind.text).length = ks.length := by
  induction ks with
  | nil => rfl
  | cons k ks ih =>
    rw [mem_cons, not_or] at hks
    rw [flatMap_cons, length_append, ih hks.2, length_cons]
    cases k with
    | s => exact Nat.add_comm 1 _
    | l => exact Nat.add_comm 1 _
    | c6 => exact absurd rfl hks.1

theorem fcanon_reads {fmt : List Char} (hfmt : fmt = ks.flatMap Kind.text) (hks : .c6 ∉ ks) (hd : d % 2 = 0)
    (m : Mem) : Local (fcanon fmt d d m).2 d (reads m ks d) ∧
      ∀ x, x < d ∨ d + width ks ≤ x → (fcanon fmt d d m).2 x = m x := by
  obtain ⟨m', hrun, hl, hsame⟩ := fconv_reads hks hd hd (Nat.le_refl d) m
  rw [fcanon, hfmt, length_text hks, hrun]
  exact ⟨hl, hsame⟩

/-! ## File locks -/

theorem be16_length (v : BitVec 16) : (be16 v).length = 2 := rfl

/-- The word `i` of the record at `d` -/
def word (m : Mem) (d i : ℕ) : BitVec 16 := peek2 m (d + 2 * i)

theorem flock_canon (hd : d % 2 = 0) (h : IsCanon m' d (fieldsAt m flock d)) :
    word m' d 1 = word m d 0 ∧ word m' d 2 = ((word m d 1).signExtend 32).extractLsb' 16 16 ∧
      word m' d 3 = word m d 1 ∧ word m' d 4 = word m d 2 ∧ word m' d 5 = word m d 3 ∧
      word m' d 6 = word m d 4 ∧ word m' d 7 = word m d 5 := by
  simp (disch := omega) only [flock, fieldsAt, Kind.field, Kind.size, IsCanon, Field.cloc, Field.next,
    Field.isText, Field.last, Field.canon, be32_length, align_of_even, Nat.add_assoc, Bool.false_eq_true,
    if_false] at h
  obtain ⟨h0, h1, h2, h3, -⟩ := h
  have h0 := h0.peek4_eq
  have h1 := h1.peek4_eq
  obtain ⟨h4, h5⟩ := peek4_inj.mp h2.peek4_eq
  obtain ⟨h6, h7⟩ := peek4_inj.mp h3.peek4_eq
  refine ⟨?_, ?_, ?_, h4, h5, h6, h7⟩
  · exact (peek2_low m' d).symm.trans ((congrArg _ h0).trans (setWidth_signExtend _))
  · exact (peek2_high m' (d + 4)).symm.trans (congrArg _ h1)
  · exact (peek2_low m' (d + 4)).symm.trans ((congrArg _ h1).trans (setWidth_signExtend _))

theorem stat_canon (hd : d % 2 = 0) (h : IsCanon m' d (fieldsAt m stat d)) :
    (∀ i < 7, word m' d (2 * i + 1) = word m d i) ∧ word m' d 14 = word m d 7 := by
  simp (disch := omega) only [stat, fieldsAt, Kind.field, Kind.size, IsCanon, Field.cloc, Field.next,
    Field.isText, Field.last, Field.canon, be32_length, align_of_even, Nat.add_assoc, Bool.false_eq_true,
    if_false] at h
  obtain ⟨h0, h1, h2, h3, h4, h5, h6, h7, -⟩ := h
  have hlow {a b : ℕ} (h : Holds m' a (be32 ((peek2 m b).signExtend 32))) : peek2 m' (a + 2) = peek2 m b :=
    (peek2_low m' a).symm.trans ((congrArg _ h.peek4_eq).trans (setWidth_signExtend _))
  refine ⟨fun i hi => ?_, (peek4_inj.mp h7.peek4_eq).1⟩
  obtain rfl | rfl | rfl | rfl | rfl | rfl | rfl :
      i = 0 ∨ i = 1 ∨ i = 2 ∨ i = 3 ∨ i = 4 ∨ i = 5 ∨ i = 6 := by omega
  · exact hlow h0
  · exact hlow h1
  · exact hlow h2
  · exact hlow h3
  · exact hlow h4
  · exact hlow h5
  · exact hlow h6

theorem flock_read (hd : d % 2 = 0) (h : Local m' d (reads m flock d)) :
    word m' d 1 = word m d 3 ∧ word m' d 3 = word m d 5 ∧ word m' d 5 = word m d 7 ∧
      word m' d 7 = word m d 11 := by
  simp (disch := omega) only [flock, reads, Kind.read, Kind.room, Local, Field.loc, Field.bytes, be16_length,
    be32_length, align_of_even, Nat.add_assoc] at h
  obtain ⟨-, h1, h2, h3, -, h5, -⟩ := h
  exact ⟨h1.peek2_eq, (peek4_inj.mp h2.peek4_eq).2, (peek4_inj.mp h3.peek4_eq).2, h5.peek2_eq⟩

theorem stat_read (hd : d % 2 = 0) (h : Local m' d (reads m stat d)) :
    (∀ i < 7, word m' d i = word m d (2 * i + 1)) ∧ word m' d 7 = word m d 14 := by
  simp (disch := omega) only [stat, reads, Kind.read, Kind.room, Local, Field.loc, Field.bytes, be16_length,
    be32_length, align_of_even, Nat.add_assoc] at h
  obtain ⟨h0, h1, h2, h3, h4, h5, h6, h7, -⟩ := h
  refine ⟨fun i hi => ?_, (peek4_inj.mp h7.peek4_eq).1⟩
  obtain rfl | rfl | rfl | rfl | rfl | rfl | rfl :
      i = 0 ∨ i = 1 ∨ i = 2 ∨ i = 3 ∨ i = 4 ∨ i = 5 ∨ i = 6 := by omega
  · exact h0.peek2_eq
  · exact h1.peek2_eq
  · exact h2.peek2_eq
  · exact h3.peek2_eq
  · exact h4.peek2_eq
  · exact h5.peek2_eq
  · exact h6.peek2_eq

/-- The words of a lock after both conversions of both sides -/
theorem lock_words {cbuf : ℕ} (hd : d % 2 = 0) (hc : cbuf % 2 = 0)
    (hapart : cbuf + cbufSize ≤ d ∨ d + cbufSize ≤ cbuf) (m : Mem) :
    ∃ m1 m2, tcanon cbuf fmtFlock d d true m = some (24, m1) ∧ tcanon cbuf fmtStat d d true m1 = some (44, m2) ∧
      (∀ x, x < d ∨ d + 44 ≤ x → x < cbuf ∨ cbuf + cbufSize ≤ x → m2 x = m x) ∧
      ∀ m3, m3 = (fcanon fmtStat d d (fcanon fmtFlock d d m2).2).2 →
        (∀ x, x < d ∨ d + 30 ≤ x → m3 x = m2 x) ∧
        word m3 d 0 = word m d 0 ∧ word m3 d 1 = ((word m d 1).signExtend 32).extractLsb' 16 16 ∧
        word m3 d 2 = word m d 1 ∧ word m3 d 3 = word m d 3 ∧ word m3 d 4 = word m d 2 ∧
        word m3 d 5 = word m d 3 ∧ word m3 d 6 = word m d 4 ∧ word m3 d 7 = word m d 5 := by
  obtain ⟨m1, ht1, hc1, hs1, -⟩ := record_kept fmtFlock_eq hd hc (by decide) hapart (m := m)
  obtain ⟨m2, ht2, hc2, hs2, -⟩ := record_kept fmtStat_eq hd hc (by decide) hapart (m := m1)
  refine ⟨m1, m2, ht1, ht2, fun x hx hxc => ?_, ?_⟩
  · have h24 : rooms flock = 24 := rfl
    rw [hs2 x hx hxc, hs1 x (by omega) hxc]
  rintro _ rfl
  obtain ⟨hl3, hs3⟩ := fcanon_reads fmtFlock_eq nofun hd m2
  generalize (fcanon fmtFlock d d m2).2 = m3 at hl3 hs3 ⊢
  obtain ⟨hl4, hs4⟩ := fcanon_reads fmtStat_eq nofun hd m3
  generalize (fcanon fmtStat d d m3).2 = m4 at hl4 hs4 ⊢
  have hbehind (i : ℕ) (hi : 8 ≤ i) : word m3 d i = word m2 d i := by
    have h16 : width flock = 16 := rfl
    exact peek2_inj.mpr ⟨hs3 _ (by omega), hs3 _ (by omega)⟩
  obtain ⟨a1, a2, a3, a4, a5, a6, a7⟩ := flock_canon hd hc1
  obtain ⟨b, b7⟩ := stat_canon hd hc2
  obtain ⟨c1, c3, c5, c7⟩ := flock_read hd hl3
  obtain ⟨e, e7⟩ := stat_read hd hl4
  refine ⟨fun x hx => ?_, ?_, ?_, ?_, ?_, ?_, ?_, ?_, ?_⟩
  · have h16 : width flock = 16 := rfl
    have h30 : width stat = 30 := rfl
    rw [hs4 x (by omega), hs3 x (by omega)]
  · rw [e 0 (by omega), c1, b 1 (by omega), a1]
  · rw [e 1 (by omega), c3, b 2 (by omega), a2]
  · rw [e 2 (by omega), c5, b 3 (by omega), a3]
  · rw [e 3 (by omega), c7, b 5 (by omega), a5]
  · rw [e 4 (by omega), hbehind 9 (by omega), b 4 (by omega), a4]
  · rw [e 5 (by omega), hbehind 11 (by omega), b 5 (by omega), a5]
  · rw [e 6 (by omega), hbehind 13 (by omega), b 6 (by omega), a6]
  · rw [e7, hbehind 14 (by omega), b7, a7]

/-- The locks that both conversions of both sides keep: `l_whence` is 0 or -1, `l_start` has it in its upper half,
and `l_len` and the last two fields are `l_start` once more. -/
def LockKept (m : Mem) (d : ℕ) : Prop :=
  (word m d 1 = 0 ∨ word m d 1 = -1) ∧ word m d 2 = word m d 1 ∧ peek4 m (d + 8) = peek4 m (d + 4) ∧
    peek4 m (d + 12) = peek4 m (d + 4)

theorem high_signExtend (v : BitVec 16) :
    (v.signExtend 32).extractLsb' 16 16 = v ↔ v = 0 ∨ v = -1 := by
  have hhigh : (v.signExtend 32).extractLsb' 16 16 = if v.msb then BitVec.allOnes 16 else 0 := by
    ext i hi
    have hin : 16 + i < 32 := by omega
    cases hv : v.msb <;> simp [-BitVec.reduceAllOnes, BitVec.getElem_signExtend, hv, hin]
  rw [hhigh]
  constructor
  · intro h
    rw [← h]
    split
    next => exact .inr rfl
    next => exact .inl rfl
  · rintro (rfl | rfl) <;> rfl

theorem words_bytes (m m' : Mem) (d n : ℕ) :
    (∀ x < 2 * n, m' (d + x) = m (d + x)) ↔ ∀ i < n, word m' d i = word m d i := by
  constructor
  · intro h i hi
    exact peek2_inj.mpr ⟨h _ (by omega), h (2 * i + 1) (by omega)⟩
  · intro h x hx
    obtain ⟨h0, h1⟩ := peek2_inj.mp (h (x / 2) (by omega))
    rcases Nat.mod_two_eq_zero_or_one x with hz | ho
    · rwa [show 2 * (x / 2) = x by omega] at h0
    · rwa [Nat.add_assoc, show 2 * (x / 2) + 1 = x by omega] at h1

theorem lock_kept_iff {cbuf : ℕ} (hd : d % 2 = 0) (hc : cbuf % 2 = 0)
    (hapart : cbuf + cbufSize ≤ d ∨ d + cbufSize ≤ cbuf) (m : Mem) :
    ∃ m1 m2, tcanon cbuf fmtFlock d d true m = some (24, m1) ∧ tcanon cbuf fmtStat d d true m1 = some (44, m2) ∧
      (∀ x, x < d ∨ d + 44 ≤ x → x < cbuf ∨ cbuf + cbufSize ≤ x → m2 x = m x) ∧
      ∀ m3, m3 = (fcanon fmtStat d d (fcanon fmtFlock d d m2).2).2 →
        (∀ x, x < d ∨ d + 44 ≤ x → m3 x = m2 x) ∧
        ((∀ x < width flock, m3 (d + x) = m (d + x)) ↔ LockKept m d) := by
  obtain ⟨m1, m2, ht1, ht2, hsame, hwords⟩ := lock_words hd hc hapart m
  refine ⟨m1, m2, ht1, ht2, hsame, fun m3 hm3 => ?_⟩
  obtain ⟨hs, h0, h1, h2, h3, h4, h5, h6, h7⟩ := hwords m3 hm3
  refine ⟨fun x hx => hs x (by omega), ?_⟩
  have h8 : peek4 m (d + 8) = peek4 m (d + 4) ↔ word m d 4 = word m d 2 ∧ word m d 5 = word m d 3 := peek4_inj
  have h12 : peek4 m (d + 12) = peek4 m (d + 4) ↔ word m d 6 = word m d 2 ∧ word m d 7 = word m d 3 := peek4_inj
  rw [show width flock = 2 * 8 from rfl, words_bytes, LockKept, ← high_signExtend, h8, h12]
  constructor
  · intro h
    have e1 := (h 1 (by omega)).symm.trans h1
    have e2 := (h 2 (by omega)).symm.trans h2
    have e4 := (h 4 (by omega)).symm.trans h4
    have e5 := (h 5 (by omega)).symm.trans h5
    have e6 := (h 6 (by omega)).symm.trans h6
    have e7 := (h 7 (by omega)).symm.trans h7
    exact ⟨e1.symm, e2, ⟨e4, e5⟩, e6.trans e4, e7.trans e5⟩
  · rintro ⟨e1, e2, ⟨e4, e5⟩, e6, e7⟩ i hi
    match i, hi with
    | 0, _ => exact h0
    | 1, _ => exact h1.trans e1
    | 2, _ => exact h2.trans e2.symm
    | 3, _ => exact h3
    | 4, _ => exact h4.trans e4.symm
    | 5, _ => exact h5.trans e5.symm
    | 6, _ => exact h6.trans (e4.trans e6.symm)
    | 7, _ => exact h7.trans (e5.trans e7.symm)

/-! ## Statistics of file systems -/

/-- `sizeof(struct statfs)`, of which the format leaves out a long -/
def statfsSize : ℕ := 38

/-- The last four bytes come back as what the canonical form has there. -/
theorem statfs_kept_iff {cbuf : ℕ} (hd : d % 2 = 0) (hc : cbuf % 2 = 0)
    (hapart : cbuf + cbufSize ≤ d ∨ d + cbufSize ≤ cbuf) (m : Mem) :
    ∃ m', tcanon cbuf fmtStatfs d d true m = some (48, m') ∧
      (∀ x, x < d ∨ d + 48 ≤ x → x < cbuf ∨ cbuf + cbufSize ≤ x → m' x = m x) ∧
      (∀ x, x < d ∨ d + 48 ≤ x → (fcanon fmtStatfs d d m').2 x = m' x) ∧
      ((∀ x < statfsSize, (fcanon fmtStatfs d d m').2 (d + x) = m (d + x)) ↔
        ∀ x < 4, m (d + 34 + x) = m (d + 24 + x)) := by
  obtain ⟨m', ht, hcan, hsame, hkept, hbehind⟩ := record_kept fmtStatfs_eq hd hc (by decide) hapart (m := m)
  have h34 : width statfs = 34 := rfl
  rw [h34] at hkept hbehind
  refine ⟨m', ht, hsame, fun x hx => hbehind x (by omega), ?_⟩
  simp (disch := omega) only [statfs, fieldsAt, Kind.field, Kind.size, IsCanon, Field.cloc, Field.next,
    Field.isText, Field.last, Field.canon, be32_length, align_of_even, Nat.add_assoc, Bool.false_eq_true,
    if_false] at hcan
  obtain ⟨-, -, -, -, -, -, -, hname, -⟩ := hcan
  obtain ⟨-, -, -, -, -, -, n2, n3, n4, n5, -⟩ := hname
  have htail (x : ℕ) (hx : x < 4) : (fcanon fmtStatfs d d m').2 (d + 34 + x) = m (d + 24 + x) := by
    rw [hbehind _ (.inr (Nat.le_add_right _ _))]
    obtain rfl | rfl | rfl | rfl : x = 0 ∨ x = 1 ∨ x = 2 ∨ x = 3 := by omega
    · exact n2
    · exact n3
    · exact n4
    · exact n5
  constructor
  · intro h x hx
    have hb := h (34 + x) (by rw [statfsSize]; omega)
    rw [← Nat.add_assoc, htail x hx] at hb
    exact hb.symm
  · intro h x hx
    rw [statfsSize] at hx
    by_cases hlt : x < 34
    · exact hkept x hlt
    · have hb := (htail (x - 34) (by omega)).trans (h (x - 34) (by omega)).symm
      rwa [Nat.add_assoc, show 34 + (x - 34) = x by omega] at hb

end Svr3.Canon
