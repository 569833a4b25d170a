import Svr3.Nudnix.Canon

/-!
# Round trips through the canonical form

A record goes through the canonical form unchanged just if no string of odd length stands before a byte: `tcanon`
aligns what is behind a string, and `fcanon` does not.
-/

namespace Svr3.Canon

open Function List

/-- A field of a record: a short, an integer, a long, a byte, bytes of a fixed number, or a string -/
inductive Field
  | s (v : BitVec 16)
  | i (v : BitVec 32)
  | l (v : BitVec 32)
  | b (v : Byte)
  | c (bs : List Byte)
  | str (bs : List Byte)

namespace Field

/-- The character of the conversion -/
def conv : Field → Char
  | s _ => 's'
  | i _ => 'i'
  | l _ => 'l'
  | b _ => 'b'
  | c _ => 'c'
  | str _ => 'c'

/-- The count behind it -/
def count : Field → List Char
  | c bs => digits bs.length
  | str _ => digits 0
  | _ => []

/-- The bytes in a local record -/
def bytes : Field → List Byte
  | s v => be16 v
  | i v => be32 v
  | l v => be32 v
  | b v => [v]
  | c bs => bs
  | str bs => bs ++ [0]

/-- The bytes in the canonical form -/
def canon : Field → List Byte
  | s v => be32 (v.signExtend 32)
  | i v => be32 v
  | l v => be32 v
  | b v => [v]
  | c bs => be32 (BitVec.ofNat 32 bs.length) ++ bs
  | str bs => be32 (BitVec.ofNat 32 (bs.length + 1)) ++ (bs ++ [0])

/-- Bytes of a fixed number, or a string -/
def isText : Field → Bool
  | c _ => true
  | str _ => true
  | _ => false

/-- The address in a local record, where it goes on at `a` -/
def loc (f : Field) (a : ℕ) : ℕ :=
  match f with
  | b _ => a
  | c _ => a
  | str _ => a
  | _ => align a

/-- The address in the canonical form, where it goes on at `a` -/
def cloc (f : Field) (a : ℕ) : ℕ :=
  match f with
  | b _ => a
  | _ => align a

/-- The end in the canonical form for `fcanon` -/
def last (f : Field) (a : ℕ) : ℕ := f.cloc a + f.canon.length

/-- Where `tcanon` goes on behind the field -/
def next (f : Field) (a : ℕ) : ℕ := if f.isText then align (f.last a) else f.last a

/-- A count is a short that is not 0, and strings have no byte 0 before their end. -/
def Good : Field → Prop
  | c bs => 0 < bs.length ∧ bs.length < 2 ^ 15
  | str bs => (∀ x ∈ bs, x ≠ 0) ∧ bs.length + 1 < 2 ^ 32
  | _ => True

end Field

/-- The format of a record -/
def format (fs : List Field) : List Char := fs.flatMap fun f => f.conv :: f.count

/-- The record `fs` is at `a`, in the local layout. -/
def Local (m : Mem) : ℕ → List Field → Prop
  | _, [] => True
  | a, f :: fs => Holds m (f.loc a) f.bytes ∧ Local m (f.loc a + f.bytes.length) fs

def localEnd : ℕ → List Field → ℕ
  | a, [] => a
  | a, f :: fs => localEnd (f.loc a + f.bytes.length) fs

/-- The record `fs` is at `a`, in the canonical form that `tcanon` makes. -/
def IsCanon (m : Mem) : ℕ → List Field → Prop
  | _, [] => True
  | a, f :: fs => Holds m (f.cloc a) f.canon ∧ IsCanon m (f.next a) fs

def canonEnd : ℕ → List Field → ℕ
  | a, [] => a
  | a, f :: fs => canonEnd (f.next a) fs

/-- Where `fcanon` goes on behind the record -/
def readEnd : ℕ → List Field → ℕ
  | a, [] => a
  | a, f :: fs => readEnd (f.last a) fs

/-- The address is one that `tcanon` writes. -/
def Writes (x : ℕ) : ℕ → List Field → Prop
  | _, [] => False
  | a, f :: fs => f.cloc a ≤ x ∧ x < f.last a ∨ Writes x (f.next a) fs

/-- No text of odd length stands before a byte. -/
def InStep : List Field → Prop
  | [] => True
  | f :: fs => (f.isText = true ∧ f.bytes.length % 2 = 1 → ∀ v, fs.head? ≠ some (.b v)) ∧ InStep fs

variable {m m' : Mem} {a src dst : ℕ} {f : Field} {fs : List Field} {rest : List Char}

theorem le_align (a : ℕ) : a ≤ align a := by
  rw [align]
  omega

theorem align_even (a : ℕ) : align a % 2 = 0 := by
  rw [align]
  omega

theorem align_of_even (h : a % 2 = 0) : align a = a := by
  rw [align]
  omega

theorem be32_length (v : BitVec 32) : (be32 v).length = 4 := rfl

theorem strlen_eq {bs : List Byte} (hz : ∀ x ∈ bs, x ≠ 0) (hlen : bs.length + 1 < 2 ^ 32)
    (h : Holds m a (bs ++ [0])) : strlen m a = bs.length := by
  have hgo (n : ℕ) (hn : bs.length < n) : strlen.go m n a = bs.length := by
    induction bs generalizing a n with
    | nil =>
      obtain ⟨n, rfl⟩ := Nat.exists_eq_add_of_lt hn
      rw [length_nil, Nat.zero_add, strlen.go, if_pos h.1]
    | cons b bs ih =>
      rw [length_cons] at hn hlen ⊢
      obtain ⟨n, rfl⟩ : ∃ k, n = k + 1 := ⟨n - 1, by omega⟩
      have hb : m a ≠ 0 := h.1.symm ▸ hz b mem_cons_self
      rw [strlen.go, if_neg hb, ih (fun x hx => hz x (mem_cons_of_mem _ hx)) (by omega) h.2 n (by omega)]
  exact hgo _ (by omega)

/-- The count of a format as a long -/
theorem count_spec {n : ℕ} (hpos : 0 < n) (hn : n < 2 ^ 15) : (n : BitVec 16) ≠ 0 ∧
    ((n : BitVec 16).signExtend 32) = BitVec.ofNat 32 n := by
  have hval : (n : BitVec 16).toNat = n := by
    rw [BitVec.natCast_eq_ofNat, BitVec.toNat_ofNat]
    exact Nat.mod_eq_of_lt (by omega)
  have hmsb : (n : BitVec 16).msb = false := by
    rw [BitVec.msb_eq_false_iff_two_mul_lt, hval]
    omega
  refine ⟨fun hz => ?_, ?_⟩
  · rw [hz] at hval
    exact absurd hval (Nat.ne_of_lt hpos)
  · rw [BitVec.signExtend_eq_setWidth_of_msb_false hmsb]
    apply BitVec.eq_of_toNat_eq
    rw [BitVec.toNat_setWidth, hval, BitVec.toNat_ofNat]

theorem duatoi_count (hr : NoDigit rest) (n : ℕ) : duatoi (digits n ++ rest) = ((n : BitVec 16), rest) :=
  number_digits hr n

/-- The length of a text, its bytes behind it, and where both are written -/
theorem copy_text {n : ℕ} {bs : List Byte} (hn : n = bs.length) (h : Holds m src bs)
    (hapart : src + bs.length ≤ dst ∨ dst + (be32 (BitVec.ofNat 32 n) ++ bs).length ≤ src) :
    copy n src (dst + 4) (poke dst (be32 (BitVec.ofNat 32 n)) m) =
      poke dst (be32 (BitVec.ofNat 32 n) ++ bs) m := by
  subst hn
  rw [length_append, be32_length] at hapart
  rw [poke_append, be32_length]
  apply Holds.copy_eq _ (by omega)
  apply h.congr
  intro x hx hlt
  exact poke_outside (by rw [be32_length]; omega)

theorem c_last {bs : List Byte} : (Field.c bs).last a = align a + 4 + bs.length := by
  rw [Field.last, Field.canon, length_append, be32_length, Nat.add_assoc]
  rfl

theorem str_last {bs : List Byte} : (Field.str bs).last a = align a + 4 + (bs.length + 1) := by
  rw [Field.last, Field.canon, length_append, be32_length, length_append, Nat.add_assoc]
  rfl

theorem c_next {bs : List Byte} : (Field.c bs).next a = align (align a + 4 + bs.length) := by
  rw [← c_last]
  rfl

theorem str_next {bs : List Byte} : (Field.str bs).next a = align (align a + 4 + (bs.length + 1)) := by
  rw [← str_last]
  rfl

/-- `tcanon` writes the canonical form of a field. -/
theorem tconv_field (hf : f.Good) (h : Holds m (f.loc src) f.bytes) (hr : NoDigit rest)
    (hapart : f.loc src + f.bytes.length ≤ f.cloc dst ∨ f.cloc dst + f.canon.length ≤ f.loc src) :
    tconv f.conv ⟨f.count ++ rest, src, dst, m⟩ =
      some ⟨rest, f.loc src + f.bytes.length, f.next dst, poke (f.cloc dst) f.canon m⟩ := by
  cases f with
  | s v =>
    have hv := Holds.peek2_eq h
    simp only [Field.loc] at hv
    simp only [Field.conv, tconv, hv]
    rfl
  | i v =>
    have hv := Holds.peek4_eq h
    simp only [Field.loc] at hv
    simp only [Field.conv, tconv, hv]
    rfl
  | l v =>
    have hv := Holds.peek4_eq h
    simp only [Field.loc] at hv
    simp only [Field.conv, tconv, hv]
    rfl
  | b v =>
    have hv : m src = v := h.1
    simp only [Field.conv, tconv, hv]
    rfl
  | c bs =>
    obtain ⟨hne, hext⟩ := count_spec hf.1 hf.2
    have htext : (BitVec.ofNat 32 bs.length).toNat = bs.length := by
      rw [BitVec.toNat_ofNat]
      exact Nat.mod_eq_of_lt (Nat.lt_trans hf.2 (by decide))
    have hcopy : copy bs.length src (align dst + 4) (poke (align dst) (be32 (BitVec.ofNat 32 bs.length)) m) =
        poke (align dst) (Field.c bs).canon m := copy_text rfl h hapart
    simp only [Field.conv, Field.count, tconv, duatoi_count hr, if_neg hne, hext, htext, hcopy, c_next]
    rfl
  | str bs =>
    have hlen : (bs ++ [(0 : Byte)]).length = bs.length + 1 := length_append
    have htext : (BitVec.ofNat 32 (bs.length + 1)).toNat = bs.length + 1 := by
      rw [BitVec.toNat_ofNat]
      exact Nat.mod_eq_of_lt hf.2
    have hstr : strlen m src = bs.length := strlen_eq hf.1 hf.2 h
    have hcopy : copy (bs.length + 1) src (align dst + 4)
        (poke (align dst) (be32 (BitVec.ofNat 32 (bs.length + 1))) m) =
        poke (align dst) (Field.str bs).canon m := copy_text hlen.symm h hapart
    have hzero : ((0 : ℕ) : BitVec 16) = 0 := rfl
    simp only [Field.conv, Field.count, tconv, duatoi_count hr, hzero, if_true, hstr, htext, hcopy, str_next]
    simp only [Field.loc, Field.bytes, Field.cloc, hlen]

/-- `fcanon` writes back a field from its canonical form. -/
theorem fconv_field (hf : f.Good) (h : Holds m (f.cloc src) f.canon) (hr : NoDigit rest)
    (hdst : dst ≤ src ∨ f.last src ≤ dst) :
    fconv f.conv ⟨f.count ++ rest, src, dst, m⟩ =
      some ⟨rest, f.last src, f.loc dst + f.bytes.length, poke (f.loc dst) f.bytes m⟩ := by
  cases f with
  | s v =>
    have hv : peek4 m (align src) = v.signExtend 32 := Holds.peek4_eq h
    simp only [Field.conv, fconv, hv, setWidth_signExtend]
    rfl
  | i v =>
    have hv : peek4 m (align src) = v := Holds.peek4_eq h
    simp only [Field.conv, fconv, hv]
    rfl
  | l v =>
    have hv : peek4 m (align src) = v := Holds.peek4_eq h
    simp only [Field.conv, fconv, hv]
    rfl
  | b v =>
    have hv : m src = v := h.1
    simp only [Field.conv, fconv, hv]
    rfl
  | c bs =>
    obtain ⟨hne, hext⟩ := count_spec hf.1 hf.2
    have htext : (BitVec.ofNat 32 bs.length).toNat = bs.length := by
      rw [BitVec.toNat_ofNat]
      exact Nat.mod_eq_of_lt (Nat.lt_trans hf.2 (by decide))
    have hbs : Holds m (align src + 4) bs := (holds_append.mp h).2
    have hle := le_align src
    have hlast : (Field.c bs).last src = align src + 4 + bs.length := c_last
    have hcopy : copy bs.length (align src + 4) dst m = poke dst bs m := hbs.copy_eq (by
      rw [hlast] at hdst
      omega)
    simp only [Field.conv, Field.count, fconv, duatoi_count hr, if_neg hne, hext, htext, hcopy, hlast]
    rfl
  | str bs =>
    have hlen : (bs ++ [(0 : Byte)]).length = bs.length + 1 := length_append
    have htext : (BitVec.ofNat 32 (bs.length + 1)).toNat = bs.length + 1 := by
      rw [BitVec.toNat_ofNat]
      exact Nat.mod_eq_of_lt hf.2
    have hnum : Holds m (align src) (be32 (BitVec.ofNat 32 (bs.length + 1))) := (holds_append.mp h).1
    have hbs : Holds m (align src + 4) (bs ++ [0]) := (holds_append.mp h).2
    have hle := le_align src
    have hlast : (Field.str bs).last src = align src + 4 + (bs.length + 1) := str_last
    have hv : peek4 m (align src) = BitVec.ofNat 32 (bs.length + 1) := hnum.peek4_eq
    have hsame : poke (align src) (be32 (BitVec.ofNat 32 (bs.length + 1))) m = m := hnum.poke_eq
    have hcopy : copy (bs.length + 1) (align src + 4) dst m = poke dst (bs ++ [0]) m := by
      rw [← hlen]
      apply hbs.copy_eq
      rw [hlast] at hdst
      rw [hlen]
      omega
    have hzero : ((0 : ℕ) : BitVec 16) = 0 := rfl
    simp only [Field.conv, Field.count, fconv, duatoi_count hr, hzero, if_true, hv, hsame, htext, hcopy, hlast]
    simp only [Field.loc, Field.bytes, hlen]

/-! ## Where fields are -/

theorem le_loc (f : Field) (a : ℕ) : a ≤ f.loc a := by
  cases f <;> first | exact Nat.le_refl a | exact le_align a

theorem le_cloc (f : Field) (a : ℕ) : a ≤ f.cloc a := by
  cases f <;> first | exact Nat.le_refl a | exact le_align a

theorem last_le_next (f : Field) (a : ℕ) : f.last a ≤ f.next a := by
  rw [Field.next]
  split
  next => exact le_align _
  next => exact Nat.le_refl _

theorem le_next (f : Field) (a : ℕ) : a ≤ f.next a :=
  Nat.le_trans (le_cloc f a) (Nat.le_trans (Nat.le_add_right _ _) (last_le_next f a))

theorem le_localEnd (a : ℕ) (fs : List Field) : a ≤ localEnd a fs := by
  induction fs generalizing a with
  | nil => exact Nat.le_refl a
  | cons f fs ih =>
    have hle := le_loc f a
    have hrest := ih (f.loc a + f.bytes.length)
    rw [localEnd]
    omega

theorem le_canonEnd (a : ℕ) (fs : List Field) : a ≤ canonEnd a fs := by
  induction fs generalizing a with
  | nil => exact Nat.le_refl a
  | cons f fs ih => exact Nat.le_trans (le_next f a) (ih _)

theorem writes_bounds {x : ℕ} (h : Writes x a fs) : a ≤ x ∧ x < canonEnd a fs := by
  induction fs generalizing a with
  | nil => exact h.elim
  | cons f fs ih =>
    have hcloc := le_cloc f a
    have hlast := last_le_next f a
    have hnext := le_next f a
    have hend := le_canonEnd (f.next a) fs
    rw [canonEnd]
    rcases h with h | h
    · omega
    · have hrest := ih h
      omega

/-- The local record does not overtake the canonical form. -/
theorem loc_le_last {f : Field} (hle : dst ≤ src) : f.loc dst + f.bytes.length ≤ f.last src := by
  have hmono : align dst ≤ align src := by
    rw [align, align]
    omega
  have hge := le_align src
  cases f with
  | s v => exact Nat.add_le_add hmono (by decide : 2 ≤ 4)
  | i v => exact Nat.add_le_add_right hmono 4
  | l v => exact Nat.add_le_add_right hmono 4
  | b v => exact Nat.add_le_add_right hle 1
  | c bs =>
    rw [c_last]
    change dst + bs.length ≤ _
    omega
  | str bs =>
    rw [str_last]
    change dst + (bs ++ [(0 : Byte)]).length ≤ _
    rw [length_append, length_singleton]
    omega

theorem localEnd_le_canonEnd (hle : dst ≤ src) (fs : List Field) : localEnd dst fs ≤ canonEnd src fs := by
  induction fs generalizing src dst with
  | nil => exact hle
  | cons f fs ih => exact ih (Nat.le_trans (loc_le_last hle) (last_le_next f src))

theorem Local.congr (h : Local m a fs) (hsame : ∀ x, a ≤ x → x < localEnd a fs → m' x = m x) :
    Local m' a fs := by
  induction fs generalizing a with
  | nil => trivial
  | cons f fs ih =>
    have hle := le_loc f a
    have hend := le_localEnd (f.loc a + f.bytes.length) fs
    rw [localEnd] at hsame
    exact ⟨h.1.congr fun x hx hlt => hsame x (by omega) (by omega),
      ih h.2 fun x hx hlt => hsame x (by omega) hlt⟩

theorem IsCanon.congr (h : IsCanon m a fs) (hsame : ∀ x, a ≤ x → x < canonEnd a fs → m' x = m x) :
    IsCanon m' a fs := by
  induction fs generalizing a with
  | nil => trivial
  | cons f fs ih =>
    have hle := le_cloc f a
    have hnext := last_le_next f a
    have hend := le_canonEnd (f.next a) fs
    rw [canonEnd] at hsame
    rw [Field.last] at hnext
    exact ⟨h.1.congr fun x hx hlt => hsame x (by omega) (by omega),
      ih h.2 fun x hx hlt => hsame x (by omega) hlt⟩

/-- Where no text of odd length stands before a byte, `fcanon` finds what is behind a field. -/
theorem InStep.behind (h : InStep (f :: fs)) (a : ℕ) :
    canonEnd (f.last a) fs ≤ canonEnd (f.next a) fs ∧
      (fs ≠ [] → canonEnd (f.last a) fs = canonEnd (f.next a) fs) ∧
      (IsCanon m (f.next a) fs → IsCanon m (f.last a) fs) := by
  by_cases hsame : f.next a = f.last a
  · rw [hsame]
    exact ⟨Nat.le_refl _, fun _ => rfl, id⟩
  have htext : f.isText = true := by
    by_contra hno
    exact hsame (by rw [Field.next, if_neg hno])
  have hnext : f.next a = align (f.last a) := by rw [Field.next, if_pos htext]
  cases fs with
  | nil => exact ⟨last_le_next f a, fun hne => absurd rfl hne, id⟩
  | cons g fs =>
    have hcloc : g.cloc (align (f.last a)) = g.cloc (f.last a) := by
      cases g with
      | b v =>
        -- the text is of even length, and its end is aligned
        exfalso
        apply hsame
        rw [hnext]
        apply align_of_even
        have hal := align_even a
        cases f with
        | c bs =>
          rw [c_last]
          have hodd : ¬ bs.length % 2 = 1 := fun hodd => h.1 ⟨rfl, hodd⟩ v rfl
          omega
        | str bs =>
          rw [str_last]
          have hodd : ¬ (bs ++ [(0 : Byte)]).length % 2 = 1 := fun hodd => h.1 ⟨rfl, hodd⟩ v rfl
          rw [length_append, length_singleton] at hodd
          omega
        | s v => exact absurd htext nofun
        | i v => exact absurd htext nofun
        | l v => exact absurd htext nofun
        | b v => exact absurd htext nofun
      | s v => exact align_of_even (align_even _)
      | i v => exact align_of_even (align_even _)
      | l v => exact align_of_even (align_even _)
      | c bs => exact align_of_even (align_even _)
      | str bs => exact align_of_even (align_even _)
    have hlast : g.last (align (f.last a)) = g.last (f.last a) := congrArg (· + g.canon.length) hcloc
    have hg : g.next (align (f.last a)) = g.next (f.last a) := by rw [Field.next, hlast, Field.next]
    rw [hnext, canonEnd, canonEnd, hg]
    refine ⟨Nat.le_refl _, fun _ => rfl, fun hc => ?_⟩
    rw [IsCanon, hcloc, hg] at hc
    exact hc

theorem noDigit_format (fs : List Field) (hr : NoDigit rest) : NoDigit (format fs ++ rest) := by
  cases fs with
  | nil => exact hr
  | cons f fs => cases f <;> exact noDigit_cons rfl

/-! ## Whole records -/

theorem convert_nil (conv : Char → Conv → Option Conv) (n : ℕ) (src dst : ℕ) (m : Mem) :
    convert conv n ⟨[], src, dst, m⟩ = (true, ⟨[], src, dst, m⟩) := by
  cases n <;> rfl

theorem convert_field {conv : Char → Conv → Option Conv} {n : ℕ} {s : Conv}
    (h : conv f.conv ⟨f.count ++ rest, src, dst, m⟩ = some s) :
    convert conv (n + 1) ⟨f.conv :: f.count ++ rest, src, dst, m⟩ = convert conv n s := by
  rw [cons_append, convert]
  dsimp only
  rw [h]

theorem format_cons (f : Field) (fs : List Field) (rest : List Char) :
    format (f :: fs) ++ rest = f.conv :: f.count ++ (format fs ++ rest) := by
  rw [format, flatMap_cons, append_assoc]
  rfl

/-- `tcanon` makes the canonical form, and writes nothing else. -/
theorem tconv_run (hfs : ∀ f ∈ fs, f.Good) (h : Local m src fs) (hr : NoDigit rest) (n : ℕ)
    (hapart : localEnd src fs ≤ dst ∨ canonEnd dst fs ≤ src) :
    ∃ m', convert tconv (fs.length + n) ⟨format fs ++ rest, src, dst, m⟩ =
        convert tconv n ⟨rest, localEnd src fs, canonEnd dst fs, m'⟩ ∧
      IsCanon m' dst fs ∧ ∀ x, ¬ Writes x dst fs → m' x = m x := by
  induction fs generalizing src dst m with
  | nil => exact ⟨m, by rw [length_nil, Nat.zero_add]; rfl, trivial, fun _ _ => rfl⟩
  | cons f fs ih =>
    rw [localEnd, canonEnd] at hapart
    have hloc := le_loc f src
    have hcloc := le_cloc f dst
    have hlast := last_le_next f dst
    have hlend := le_localEnd (f.loc src + f.bytes.length) fs
    have hcend := le_canonEnd (f.next dst) fs
    rw [Field.last] at hlast
    have hapart1 : f.loc src + f.bytes.length ≤ f.cloc dst ∨
        f.cloc dst + f.canon.length ≤ f.loc src := by omega
    have hstep := tconv_field (hfs f mem_cons_self) h.1 (noDigit_format fs hr) hapart1
    have hl' : Local (poke (f.cloc dst) f.canon m) (f.loc src + f.bytes.length) fs :=
      h.2.congr fun x hx hlt => poke_outside (by omega)
    have hapart' : localEnd (f.loc src + f.bytes.length) fs ≤ f.next dst ∨
        canonEnd (f.next dst) fs ≤ f.loc src + f.bytes.length := by omega
    obtain ⟨m', hrun, hc, hsame⟩ := ih (fun g hg => hfs g (mem_cons_of_mem _ hg)) hl' hapart'
    refine ⟨m', ?_, ⟨?_, hc⟩, fun x hx => ?_⟩
    · rw [length_cons, Nat.add_right_comm, format_cons, convert_field hstep]
      exact hrun
    · refine (holds_poke m (f.cloc dst) f.canon).congr fun x hx hlt => hsame x fun hw => ?_
      have hge := writes_bounds hw
      omega
    · rw [hsame x fun hw => hx (.inr hw)]
      apply poke_outside
      by_contra hin
      exact hx (.inl ⟨by omega, by rw [Field.last]; omega⟩)

/-- `fcanon` makes the local record, and writes nothing else. -/
theorem fconv_run (hfs : ∀ f ∈ fs, f.Good) (hin : InStep fs) (h : IsCanon m src fs) (hr : NoDigit rest)
    (n : ℕ) (hdst : dst ≤ src ∨ canonEnd src fs ≤ dst) :
    ∃ m', convert fconv (fs.length + n) ⟨format fs ++ rest, src, dst, m⟩ =
        convert fconv n ⟨rest, readEnd src fs, localEnd dst fs, m'⟩ ∧
      Local m' dst fs ∧ ∀ x, x < dst ∨ localEnd dst fs ≤ x → m' x = m x := by
  induction fs generalizing src dst m with
  | nil => exact ⟨m, by rw [length_nil, Nat.zero_add]; rfl, trivial, fun _ _ => rfl⟩
  | cons f fs ih =>
    rw [canonEnd] at hdst
    have hloc := le_loc f dst
    have hcloc := le_cloc f src
    have hlast := last_le_next f src
    have hlend := le_localEnd (f.loc dst + f.bytes.length) fs
    have hcend := le_canonEnd (f.next src) fs
    obtain ⟨hbehind, -, hfrom⟩ := hin.behind (m := m) src
    have hdst1 : dst ≤ src ∨ f.last src ≤ dst := by omega
    have hstep := fconv_field (hfs f mem_cons_self) h.1 (noDigit_format fs hr) hdst1
    have hgap : dst ≤ src → f.loc dst + f.bytes.length ≤ f.last src := fun hle => loc_le_last hle
    have hc' : IsCanon (poke (f.loc dst) f.bytes m) (f.last src) fs :=
      (hfrom h.2).congr fun x hx hlt => poke_outside (by omega)
    have hdst' : f.loc dst + f.bytes.length ≤ f.last src ∨
        canonEnd (f.last src) fs ≤ f.loc dst + f.bytes.length := by omega
    obtain ⟨m', hrun, hl, hsame⟩ := ih (fun g hg => hfs g (mem_cons_of_mem _ hg)) hin.2 hc' hdst'
    refine ⟨m', ?_, ⟨?_, hl⟩, fun x hx => ?_⟩
    · rw [length_cons, Nat.add_right_comm, format_cons, convert_field hstep]
      exact hrun
    · exact (holds_poke m (f.loc dst) f.bytes).congr fun x hx hlt => hsame x (.inl (by omega))
    · rw [localEnd] at hx
      rw [hsame x (by omega)]
      exact poke_outside (by omega)

/-! ## In place -/

theorem align_shift {a d : ℕ} (h : a % 2 = d % 2) : align a + d = align d + a := by
  rw [align, align]
  omega

theorem cloc_shift (f : Field) {a d : ℕ} (h : a % 2 = d % 2) : f.cloc a + d = f.cloc d + a := by
  cases f with
  | b v => exact Nat.add_comm a d
  | s v => exact align_shift h
  | i v => exact align_shift h
  | l v => exact align_shift h
  | c bs => exact align_shift h
  | str bs => exact align_shift h

theorem next_shift (f : Field) {a d : ℕ} (h : a % 2 = d % 2) :
    f.next a + d = f.next d + a ∧ f.next a % 2 = f.next d % 2 := by
  have hcloc := cloc_shift f h
  rw [Field.next, Field.next, Field.last, Field.last]
  split
  next =>
    rw [align, align]
    omega
  next => omega

theorem canonEnd_shift {a d : ℕ} (h : a % 2 = d % 2) (fs : List Field) :
    canonEnd a fs + d = canonEnd d fs + a := by
  induction fs generalizing a d with
  | nil => exact Nat.add_comm a d
  | cons f fs ih =>
    obtain ⟨hnext, hpar⟩ := next_shift f h
    have hrest := ih hpar
    rw [canonEnd, canonEnd]
    omega

/-- The same bytes elsewhere are the same record. -/
theorem IsCanon.shift {d : ℕ} (h : IsCanon m a fs) (hpar : a % 2 = d % 2)
    (hsame : ∀ k, a + k < canonEnd a fs → m' (d + k) = m (a + k)) : IsCanon m' d fs := by
  induction fs generalizing a d with
  | nil => trivial
  | cons f fs ih =>
    have hcloc := cloc_shift f hpar
    have hle := le_cloc f a
    have hlast := last_le_next f a
    have hnext := le_next f a
    have hend := le_canonEnd (f.next a) fs
    obtain ⟨hnextd, hpar'⟩ := next_shift f hpar
    rw [Field.last] at hlast
    rw [canonEnd] at hsame
    have hbyte {x : ℕ} (hx : a ≤ x) (hlt : x < canonEnd (f.next a) fs) : m' (x + d - a) = m x := by
      have hk := hsame (x - a) (by omega)
      rwa [show d + (x - a) = x + d - a by omega, show a + (x - a) = x by omega] at hk
    refine ⟨?_, ih h.2 hpar' fun k hk => ?_⟩
    · apply h.1.shift
      intro k hk
      have hb := hbyte (show a ≤ f.cloc a + k by omega) (by omega)
      rwa [show f.cloc a + k + d - a = f.cloc d + k by omega] at hb
    · have hb := hbyte (show a ≤ f.next a + k by omega) hk
      rwa [show f.next a + k + d - a = f.next d + k by omega] at hb

theorem length_le_format (fs : List Field) : fs.length ≤ (format fs).length := by
  induction fs with
  | nil => exact Nat.le_refl 0
  | cons f fs ih =>
    have happ := format_cons f fs []
    rw [append_nil, append_nil] at happ
    rw [happ, length_append, length_cons, length_cons]
    omega

/-- The records and buffers of a round trip: the canonical form is made elsewhere, or in place over `cbuf`, and the
local form is made elsewhere or in place. -/
structure Buffers (fs : List Field) (cbuf src dst : ℕ) (flag : Bool) (back : ℕ) : Prop where
  even : src % 2 = 0 ∧ dst % 2 = 0 ∧ back % 2 = 0 ∧ cbuf % 2 = 0
  there : (src ≠ dst ∧ (localEnd src fs ≤ dst ∨ canonEnd dst fs ≤ src)) ∨
    (flag = true ∧ src = dst ∧ (canonEnd cbuf fs ≤ dst ∨ canonEnd dst fs ≤ cbuf))
  back : back = dst ∨ localEnd back fs ≤ dst ∨ canonEnd dst fs ≤ back

theorem Buffers.back_le {cbuf back : ℕ} {flag : Bool} (h : Buffers fs cbuf src dst flag back) :
    back ≤ dst ∨ canonEnd dst fs ≤ back := by
  have hend := le_localEnd back fs
  rcases h.back with heq | hle | hge
  · exact .inl (Nat.le_of_eq heq)
  · exact .inl (Nat.le_trans hend hle)
  · exact .inr hge

/-- Where the canonical form is made -/
def base (cbuf src dst : ℕ) (flag : Bool) : ℕ := if flag = true ∧ src = dst then cbuf else dst

/-- The canonical form, and what stands in it where nothing is written -/
theorem tcanon_ok {cbuf back : ℕ} {flag : Bool} (hfs : ∀ f ∈ fs, f.Good)
    (hbuf : Buffers fs cbuf src dst flag back) (h : Local m src fs)
    (hfit : flag = true ∧ src = dst → canonEnd cbuf fs - cbuf ≤ cbufSize) :
    ∃ n m', tcanon cbuf (format fs) src dst flag m = some (n, m') ∧ IsCanon m' dst fs ∧
      ∀ k, ¬ Writes (base cbuf src dst flag + k) (base cbuf src dst flag) fs →
        base cbuf src dst flag + k < canonEnd (base cbuf src dst flag) fs →
        m' (dst + k) = m (base cbuf src dst flag + k) := by
  obtain ⟨n, hn⟩ := Nat.exists_eq_add_of_le (length_le_format fs)
  rw [tcanon, hn, base]
  by_cases hplace : flag = true ∧ src = dst
  · rw [if_pos hplace, if_pos hplace]
    have hsize := hfit hplace
    obtain ⟨hflag, rfl⟩ := hplace
    rcases hbuf.there with ⟨hne, -⟩ | ⟨-, -, hapart⟩
    · exact absurd rfl hne
    have hlocal := localEnd_le_canonEnd (Nat.le_refl src) fs
    have hpar : cbuf % 2 = src % 2 := by
      have heven := hbuf.even
      omega
    have hshift := canonEnd_shift hpar fs
    have hle := le_canonEnd cbuf fs
    have hcbuf : localEnd src fs ≤ cbuf ∨ canonEnd cbuf fs ≤ src := by omega
    obtain ⟨m', hrun, hc, hsame⟩ := tconv_run hfs h noDigit_nil n hcbuf
    rw [append_nil, convert_nil] at hrun
    rw [hrun]
    dsimp only
    rw [if_neg (Nat.not_lt.mpr hsize)]
    have hcopy (k : ℕ) (hk : cbuf + k < canonEnd cbuf fs) :
        copy (canonEnd cbuf fs - cbuf) cbuf src m' (src + k) = m' (cbuf + k) :=
      copy_get (by omega) (by omega)
    refine ⟨_, _, rfl, hc.shift hpar hcopy, fun k hw hk => ?_⟩
    rw [hcopy k hk, hsame _ hw]
  · rw [if_neg hplace, if_neg hplace]
    rcases hbuf.there with ⟨hne, hapart⟩ | ⟨hflag, heq, -⟩
    · obtain ⟨m', hrun, hc, hsame⟩ := tconv_run hfs h noDigit_nil n hapart
      rw [append_nil, convert_nil] at hrun
      rw [hrun]
      exact ⟨_, _, rfl, hc, fun k hw _ => hsame _ hw⟩
    · exact absurd ⟨hflag, heq⟩ hplace

theorem Buffers.base_even {cbuf back : ℕ} {flag : Bool} (h : Buffers fs cbuf src dst flag back) :
    base cbuf src dst flag % 2 = dst % 2 := by
  have heven := h.even
  rw [base]
  split <;> omega

/-- The canonical form is not made over the record. -/
theorem Buffers.base_apart {cbuf back x : ℕ} {flag : Bool} (h : Buffers fs cbuf src dst flag back)
    (hge : base cbuf src dst flag ≤ x) (hlt : x < canonEnd (base cbuf src dst flag) fs) :
    x < src ∨ localEnd src fs ≤ x := by
  rw [base] at hge hlt
  have hlocal := localEnd_le_canonEnd (Nat.le_refl src) fs
  rcases h.there with ⟨hne, hapart⟩ | ⟨hflag, heq, hapart⟩
  · rw [if_neg fun hplace => hne hplace.2] at hge hlt
    omega
  · rw [if_pos ⟨hflag, heq⟩] at hge hlt
    rw [← heq] at hapart
    omega

/-- Over the end of `cbuf` -/
theorem tcanon_none {cbuf back : ℕ} {flag : Bool} (hfs : ∀ f ∈ fs, f.Good)
    (hbuf : Buffers fs cbuf src dst flag back) (h : Local m src fs) (hplace : flag = true ∧ src = dst)
    (hsize : cbufSize < canonEnd cbuf fs - cbuf) : tcanon cbuf (format fs) src dst flag m = none := by
  obtain ⟨n, hn⟩ := Nat.exists_eq_add_of_le (length_le_format fs)
  have hapart : localEnd src fs ≤ cbuf ∨ canonEnd cbuf fs ≤ src := by
    have hlocal := localEnd_le_canonEnd (Nat.le_refl src) fs
    rcases hbuf.there with ⟨hne, -⟩ | ⟨-, heq, hapart⟩
    · exact absurd hplace.2 hne
    · rw [← heq] at hapart
      omega
  obtain ⟨m', hrun, -⟩ := tconv_run hfs h noDigit_nil n hapart
  rw [append_nil, convert_nil] at hrun
  rw [tcanon, if_pos hplace, hn, hrun]
  exact if_pos hsize

/-- A record that is in step is written back. -/
theorem fcanon_ok {back : ℕ} (hfs : ∀ f ∈ fs, f.Good) (hin : InStep fs) (h : IsCanon m src fs)
    (hback : back ≤ src ∨ canonEnd src fs ≤ back) : Local (fcanon (format fs) src back m).2 back fs := by
  obtain ⟨n, hn⟩ := Nat.exists_eq_add_of_le (length_le_format fs)
  obtain ⟨m', hrun, hl, -⟩ := fconv_run hfs hin h noDigit_nil n hback
  rw [append_nil, convert_nil] at hrun
  rw [fcanon, hn, hrun]
  exact hl

/-! ## A text of odd length before a byte -/

theorem canonEnd_append (a : ℕ) (fs gs : List Field) :
    canonEnd a (fs ++ gs) = canonEnd (canonEnd a fs) gs := by
  induction fs generalizing a with
  | nil => rfl
  | cons f fs ih => exact ih _

theorem local_append {gs : List Field} :
    Local m a (fs ++ gs) ↔ Local m a fs ∧ Local m (localEnd a fs) gs := by
  induction fs generalizing a with
  | nil => exact (iff_of_eq (true_and _)).symm
  | cons f fs ih =>
    rw [cons_append, Local, ih, ← and_assoc]
    rfl

theorem isCanon_append {gs : List Field} :
    IsCanon m a (fs ++ gs) ↔ IsCanon m a fs ∧ IsCanon m (canonEnd a fs) gs := by
  induction fs generalizing a with
  | nil => exact (iff_of_eq (true_and _)).symm
  | cons f fs ih =>
    rw [cons_append, IsCanon, ih, ← and_assoc]
    rfl

theorem writes_append {x : ℕ} {gs : List Field} :
    Writes x a (fs ++ gs) ↔ Writes x a fs ∨ Writes x (canonEnd a fs) gs := by
  induction fs generalizing a with
  | nil => exact (iff_of_eq (false_or _)).symm
  | cons f fs ih =>
    rw [cons_append, Writes, ih, ← or_assoc]
    rfl

theorem text_last (h : f.isText = true) (a : ℕ) : f.last a = align a + 4 + f.bytes.length := by
  cases f with
  | c bs => exact c_last
  | str bs =>
    rw [str_last, Field.bytes, length_append]
    rfl
  | s v => exact absurd h nofun
  | i v => exact absurd h nofun
  | l v => exact absurd h nofun
  | b v => exact absurd h nofun

/-- Behind a text of odd length there is one byte that is not written. -/
theorem odd_next (h : f.isText = true) (hodd : f.bytes.length % 2 = 1) (a : ℕ) :
    f.next a = f.last a + 1 := by
  rw [Field.next, if_pos h, text_last h]
  have heven := align_even a
  rw [align]
  omega

theorem not_inStep (h : ¬ InStep fs) : ∃ pre f v post, fs = pre ++ f :: .b v :: post ∧
    InStep (pre ++ [f]) ∧ f.isText = true ∧ f.bytes.length % 2 = 1 := by
  induction fs with
  | nil => exact absurd trivial h
  | cons f fs ih =>
    by_cases hhead : f.isText = true ∧ f.bytes.length % 2 = 1 → ∀ v, fs.head? ≠ some (.b v)
    · obtain ⟨pre, g, v, post, rfl, hin, hg⟩ := ih fun hin => h ⟨hhead, hin⟩
      refine ⟨f :: pre, g, v, post, rfl, ⟨fun hodd w => ?_, hin⟩, hg⟩
      have hne := hhead hodd w
      cases pre with
      | nil => exact hne
      | cons x pre => exact hne
    · push Not at hhead
      obtain ⟨hodd, v, hv⟩ := hhead
      obtain ⟨post, rfl⟩ := List.head?_eq_some_iff.mp hv
      exact ⟨[], f, v, post, rfl, ⟨fun _ _ => nofun, trivial⟩, hodd⟩

/-- `fcanon` looks for the byte where the text ends. -/
theorem readEnd_text {pre : List Field} (hin : InStep (pre ++ [f])) (h : f.isText = true)
    (hodd : f.bytes.length % 2 = 1) (a : ℕ) : readEnd a (pre ++ [f]) = f.last (canonEnd a pre) := by
  induction pre generalizing a with
  | nil => rfl
  | cons g pre ih =>
    obtain ⟨-, heq, -⟩ := hin.behind (m := fun _ => 0) a
    have hends : canonEnd (g.last a) (pre ++ [f]) = canonEnd (g.next a) (pre ++ [f]) :=
      heq (append_ne_nil_of_right_ne_nil _ (cons_ne_nil f []))
    rw [canonEnd_append, canonEnd_append] at hends
    have hnext : f.next (canonEnd (g.last a) pre) = f.next (canonEnd (g.next a) pre) := hends
    rw [odd_next h hodd, odd_next h hodd] at hnext
    change readEnd (g.last a) (pre ++ [f]) = f.last (canonEnd (g.next a) pre)
    rw [ih hin.2]
    exact Nat.succ.inj hnext

theorem localEnd_le_readEnd (hle : dst ≤ src) (fs : List Field) : localEnd dst fs ≤ readEnd src fs := by
  induction fs generalizing src dst with
  | nil => exact hle
  | cons f fs ih => exact ih (loc_le_last hle)

/-- `fcanon` writes nothing below the place where it is. -/
theorem fconv_below {c : Char} {s s' : Conv} (h : fconv c s = some s') :
    s.dst ≤ s'.dst ∧ ∀ x, x < s.dst → s'.mem x = s.mem x := by
  have hal := le_align s.dst
  unfold fconv at h
  split at h
  · obtain rfl := Option.some.inj h
    exact ⟨by dsimp only; omega, fun x hx => poke_of_lt (by omega)⟩
  · obtain rfl := Option.some.inj h
    exact ⟨by dsimp only; omega, fun x hx => poke_of_lt (by omega)⟩
  · obtain rfl := Option.some.inj h
    exact ⟨by dsimp only; omega, fun x hx => poke_of_lt (by omega)⟩
  · obtain rfl := Option.some.inj h
    exact ⟨Nat.le_succ _, fun x hx => poke_of_lt hx⟩
  · generalize duatoi s.fmt = d at h
    obtain ⟨count, fmt⟩ := d
    dsimp only at h
    rw [(holds_peek4 s.mem (align s.src)).poke_eq] at h
    split at h
    · obtain rfl := Option.some.inj h
      exact ⟨Nat.le_add_right _ _, fun x hx => copy_of_lt _ hx⟩
    · obtain rfl := Option.some.inj h
      exact ⟨Nat.le_add_right _ _, fun x hx => copy_of_lt _ hx⟩
  · exact absurd h nofun

theorem convert_below {n : ℕ} {s : Conv} {x : ℕ} (hx : x < s.dst) :
    (convert fconv n s).2.mem x = s.mem x := by
  induction n generalizing s with
  | zero => rfl
  | succ n ih =>
    rw [convert]
    cases hf : s.fmt with
    | nil => rfl
    | cons c fmt =>
      dsimp only
      cases hc : fconv c { s with fmt := fmt } with
      | none => rfl
      | some s' =>
        obtain ⟨hle, hsame⟩ := fconv_below hc
        dsimp only
        rw [ih (Nat.lt_of_lt_of_le hx hle)]
        exact hsame x hx

theorem fcanon_mem (fmt : List Char) (src dst : ℕ) (m : Mem) :
    (fcanon fmt src dst m).2 = (convert fconv fmt.length ⟨fmt, src, dst, m⟩).2.mem := by
  rw [fcanon]
  generalize convert fconv fmt.length ⟨fmt, src, dst, m⟩ = r
  obtain ⟨ok, s⟩ := r
  cases ok <;> rfl

/-- The byte that is read behind a text of odd length is the one that is not written. -/
theorem fcanon_odd {pre post : List Field} {v : Byte} {back : ℕ}
    (hfs : ∀ g ∈ pre ++ f :: .b v :: post, g.Good) (hin : InStep (pre ++ [f])) (htext : f.isText = true)
    (hodd : f.bytes.length % 2 = 1) (h : IsCanon m src (pre ++ f :: .b v :: post))
    (hback : back ≤ src ∨ canonEnd src (pre ++ f :: .b v :: post) ≤ back)
    (hl : Local (fcanon (format (pre ++ f :: .b v :: post)) src back m).2 back (pre ++ f :: .b v :: post)) :
    m (f.last (canonEnd src pre)) = v := by
  have hsplit : pre ++ f :: .b v :: post = (pre ++ [f]) ++ (.b v :: post) := by
    rw [append_assoc, singleton_append]
  rw [hsplit] at hfs h hback hl
  obtain ⟨n, hn⟩ := Nat.exists_eq_add_of_le (length_le_format ((pre ++ [f]) ++ (.b v :: post)))
  rw [length_append, length_cons] at hn
  have hends := le_canonEnd (canonEnd src (pre ++ [f])) (.b v :: post)
  rw [canonEnd_append] at hback
  have hback' : back ≤ src ∨ canonEnd src (pre ++ [f]) ≤ back := by omega
  obtain ⟨m', hrun, -, hsame⟩ := fconv_run (fun g hg => hfs g (mem_append_left _ hg)) hin
    (isCanon_append.mp h).1 (noDigit_format (.b v :: post) noDigit_nil) (post.length + n + 1) hback'
  rw [readEnd_text hin htext hodd] at hrun
  have hformat : format ((pre ++ [f]) ++ (.b v :: post)) =
      format (pre ++ [f]) ++ (format (.b v :: post) ++ []) := by
    rw [append_nil, format, flatMap_append]
    rfl
  have hlen : (pre ++ [f]).length + (post.length + 1) + n =
      (pre ++ [f]).length + (post.length + n + 1) := by omega
  have hpad : m' (f.last (canonEnd src pre)) = m (f.last (canonEnd src pre)) := by
    apply hsame
    have hlt : f.last (canonEnd src pre) < canonEnd src (pre ++ [f]) := by
      rw [canonEnd_append]
      change _ < f.next (canonEnd src pre)
      rw [odd_next htext hodd]
      exact Nat.lt_succ_self _
    rcases hback with hle | hge
    · have hend := localEnd_le_readEnd hle (pre ++ [f])
      rw [readEnd_text hin htext hodd] at hend
      exact .inr hend
    · exact .inl (by omega)
  rw [fcanon_mem, hn, hformat, hlen, hrun, format_cons] at hl
  have hbyte := (local_append.mp hl).2.1.1
  have hstep : convert fconv (post.length + n + 1) ⟨Field.conv (.b v) :: Field.count (.b v) ++ (format post ++ []),
      f.last (canonEnd src pre), localEnd back (pre ++ [f]), m'⟩ =
      convert fconv (post.length + n) ⟨format post ++ [], f.last (canonEnd src pre) + 1,
        localEnd back (pre ++ [f]) + 1, update m' (localEnd back (pre ++ [f]))
          (m' (f.last (canonEnd src pre)))⟩ := convert_field rfl
  have hlt : localEnd back (pre ++ [f]) < localEnd back (pre ++ [f]) + 1 := Nat.lt_succ_self _
  rw [hstep] at hbyte
  have hbelow : update m' (localEnd back (pre ++ [f])) (m' (f.last (canonEnd src pre)))
      (localEnd back (pre ++ [f])) = v := (convert_below hlt).symm.trans hbyte
  rw [update_self] at hbelow
  rw [← hpad]
  exact hbelow

/-! ## Round trips -/

/-- There is a memory with the record. -/
theorem exists_local (a : ℕ) (fs : List Field) : ∃ m, Local m a fs := by
  induction fs generalizing a with
  | nil => exact ⟨fun _ => 0, trivial⟩
  | cons f fs ih =>
    obtain ⟨m, hm⟩ := ih (f.loc a + f.bytes.length)
    refine ⟨poke (f.loc a) f.bytes m, holds_poke _ _ _, hm.congr fun x hx _ => poke_of_ge hx⟩

/-- The byte behind a text of odd length is in the canonical form, and not written. -/
theorem odd_not_writes (pre post : List Field) (v : Byte) (htext : f.isText = true)
    (hodd : f.bytes.length % 2 = 1) (a : ℕ) :
    a ≤ f.last (canonEnd a pre) ∧
      f.last (canonEnd a pre) < canonEnd a (pre ++ f :: .b v :: post) ∧
      ¬ Writes (f.last (canonEnd a pre)) a (pre ++ f :: .b v :: post) := by
  have hpre := le_canonEnd a pre
  have hcloc := le_cloc f (canonEnd a pre)
  have hlast : f.cloc (canonEnd a pre) ≤ f.last (canonEnd a pre) := Nat.le_add_right _ _
  have hnext := odd_next htext hodd (canonEnd a pre)
  have hend := le_canonEnd (f.next (canonEnd a pre)) (.b v :: post)
  have hall : canonEnd a (pre ++ f :: .b v :: post) =
      canonEnd (f.next (canonEnd a pre)) (.b v :: post) := by
    rw [canonEnd_append]
    rfl
  refine ⟨by omega, by omega, fun hw => ?_⟩
  rcases writes_append.mp hw with hw | hw | hw
  · have hlt := (writes_bounds hw).2
    omega
  · omega
  · have hge := (writes_bounds hw).1
    omega

/-- The round trip of the record `fs` reproduces it, whatever the buffers hold. -/
def RoundTrip (fs : List Field) (cbuf src dst : ℕ) (flag : Bool) (back : ℕ) : Prop :=
  ∀ m, Local m src fs → ∃ n m', tcanon cbuf (format fs) src dst flag m = some (n, m') ∧
    Local (fcanon (format fs) dst back m').2 back fs

theorem canon_round_trip {cbuf back : ℕ} {flag : Bool} (hfs : ∀ f ∈ fs, f.Good)
    (hbuf : Buffers fs cbuf src dst flag back) :
    RoundTrip fs cbuf src dst flag back ↔
      InStep fs ∧ (flag = true ∧ src = dst → canonEnd cbuf fs - cbuf ≤ cbufSize) := by
  constructor
  · intro h
    have hfit : flag = true ∧ src = dst → canonEnd cbuf fs - cbuf ≤ cbufSize := by
      intro hplace
      by_contra hsize
      obtain ⟨m, hm⟩ := exists_local src fs
      obtain ⟨n, m', htc, -⟩ := h m hm
      exact absurd (htc.symm.trans (tcanon_none hfs hbuf hm hplace (Nat.not_le.mp hsize))) nofun
    refine ⟨?_, hfit⟩
    by_contra hnot
    obtain ⟨pre, f, v, post, rfl, hin, htext, hodd⟩ := not_inStep hnot
    -- the byte that `fcanon` reads is another one than that of the record
    obtain ⟨hge, hlt, hnw⟩ := odd_not_writes pre post v htext hodd
      (base cbuf src dst flag)
    obtain ⟨m, hm⟩ := exists_local src (pre ++ f :: .b v :: post)
    have hm' : Local (update m (f.last (canonEnd (base cbuf src dst flag) pre)) (v + 1)) src
        (pre ++ f :: .b v :: post) := by
      apply hm.congr
      intro x hx hlt'
      have hne := hbuf.base_apart hge hlt
      exact update_of_ne (by omega) _ _
    obtain ⟨n, m1, htc, hc, hpad⟩ := tcanon_ok hfs hbuf hm' hfit
    obtain ⟨n', m2, htc', hl⟩ := h _ hm'
    obtain ⟨-, rfl⟩ := Prod.mk.inj (Option.some.inj (htc.symm.trans htc'))
    obtain ⟨k, hk⟩ := Nat.exists_eq_add_of_le hge
    have hshift : f.last (canonEnd dst pre) = dst + k := by
      have hpar := hbuf.base_even
      have hends := canonEnd_shift hpar pre
      have hal := align_shift (a := canonEnd (base cbuf src dst flag) pre) (d := canonEnd dst pre) (by omega)
      have h1 := text_last htext (canonEnd (base cbuf src dst flag) pre)
      have h2 := text_last htext (canonEnd dst pre)
      omega
    have hread := fcanon_odd hfs hin htext hodd hc hbuf.back_le hl
    rw [hk] at hlt hnw hpad
    rw [hshift, hpad k hnw hlt, update_self] at hread
    exact absurd hread (by simp)
  · rintro ⟨hin, hfit⟩ m hm
    obtain ⟨n, m', htc, hc, -⟩ := tcanon_ok hfs hbuf hm hfit
    exact ⟨n, m', htc, fcanon_ok hfs hin hc hbuf.back_le⟩

/-- A negative short, a byte, a string of odd length, bytes and an integer -/
def mixed : List Field := [.s (-2), .b 1, .str [97, 98], .c [5, 6, 0], .i (-7), .b 200]

theorem canon_round_trip_mixed : RoundTrip mixed 0 2000 2000 true 2000 := by
  have hgood : ∀ f ∈ mixed, f.Good := by
    intro f hf
    simp only [mixed, mem_cons, not_mem_nil, or_false] at hf
    rcases hf with rfl | rfl | rfl | rfl | rfl | rfl
    · trivial
    · trivial
    · exact ⟨by decide, by decide⟩
    · exact ⟨by decide, by decide⟩
    · trivial
    · trivial
  have hin : InStep mixed := ⟨nofun, nofun, fun _ => nofun, fun _ => nofun, nofun, nofun, trivial⟩
  exact (canon_round_trip hgood ⟨by decide, .inr ⟨rfl, rfl, by decide⟩, .inl rfl⟩).mpr
    ⟨hin, fun _ => by decide⟩

/-- One byte of text and a byte behind it: the byte is lost. -/
theorem odd_text_loses_byte : ¬ ∀ (fs : List Field) (cbuf src dst : ℕ) (flag : Bool) (back : ℕ),
    (∀ f ∈ fs, f.Good) → Buffers fs cbuf src dst flag back → RoundTrip fs cbuf src dst flag back := by
  intro hall
  have hgood : ∀ f ∈ ([.c [7], .b 9] : List Field), f.Good := by
    intro f hf
    simp only [mem_cons, not_mem_nil, or_false] at hf
    rcases hf with rfl | rfl
    · exact ⟨by decide, by decide⟩
    · trivial
  have hrun : (tcanon 40 (format [.c [7], .b 9]) 0 10 false fun a => if a = 0 then 7 else if a = 1 then 9 else 0).map
      (fun r => (fcanon (format [.c [7], .b 9]) 10 20 r.2).2 21) = some 0 := by
    decide +kernel
  obtain ⟨n, m', htc, hl⟩ := hall [.c [7], .b 9] 40 0 10 false 20 hgood
    ⟨by decide, .inl ⟨by decide, .inl (by decide)⟩, .inr (.inr (by decide))⟩
    (fun a => if a = 0 then 7 else if a = 1 then 9 else 0) ⟨⟨rfl, trivial⟩, ⟨rfl, trivial⟩, trivial⟩
  rw [htc] at hrun
  have hzero := Option.some.inj hrun
  exact absurd (hl.2.1.1.symm.trans hzero) (by decide)

end Svr3.Canon
