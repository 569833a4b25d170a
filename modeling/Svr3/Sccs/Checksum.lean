import Mathlib.Algebra.BigOperators.Group.List.Basic
import Mathlib.Data.List.TakeWhile
import Mathlib.Tactic.Ring
import Svr3.Sccs.Putline

/-!
# The checksum of s-files

While a packet writes, `nhash` is the sum of what is behind the first line. `flushline` keeps the length of the
first lines just if the counts have five digits, and what it leaves is then read to its end without complaint.
-/

namespace Svr3.Sccs

open List

/-! ## Sums -/

section sums

variable {l r : List Char}

theorem hash_append (l r : List Char) : hash (l ++ r) = hash l + hash r := by
  rw [hash, map_append, sum_append]
  rfl

theorem hash_cons (c : Char) (l : List Char) : hash (c :: l) = chr c + hash l := by
  rw [hash, map_cons, sum_cons]
  rfl

theorem hash_nil : hash [] = 0 := rfl

/-- What digits add, over as many zeros -/
theorem hash_digits (l : List Char) :
    hash l = hash (List.replicate l.length '0') + (l.map fun c => chr c - chr '0').sum := by
  induction l with
  | nil => rfl
  | cons c l ih =>
    rw [hash_cons, length_cons, replicate_succ, hash_cons, map_cons, sum_cons, ih]
    ring

/-- The counts are patched over zeros. -/
theorem hash_statsLine {ins del unc : List Char} (hins : ins.length = 5) (hdel : del.length = 5)
    (hunc : unc.length = 5) (n : BitVec 32) :
    addDigits (addDigits (addDigits n ins) del) unc + hash (statsLine fivech fivech fivech) =
      n + hash (statsLine ins del unc) := by
  unfold addDigits statsLine
  simp only [hash_cons, hash_append]
  rw [hash_digits ins, hash_digits del, hash_digits unc, hins, hdel, hunc]
  unfold fivech
  ring

theorem cstr_eq (h : '\x00' ∉ l) : cstr l = l := by
  apply takeWhile_eq_self_iff.mpr
  intro c hc
  exact bne_iff_ne.mpr (ne_of_mem_of_not_mem hc h)

theorem cstr_str (l : List Char) : '\x00' ∉ cstr l := by
  intro hc
  have hne : ('\x00' != '\x00') = true := mem_takeWhile_imp (p := (· != '\x00')) hc
  exact absurd hne (by decide)

end sums

/-! ## Writing -/

section write

variable {head first : List Char} {s t : Packet}

/-- The packet writes: behind the first line there is `first`, and then what was put. -/
structure Written (head first : List Char) (s : Packet) : Prop where
  upd : s.upd = true
  xcreate : s.Xcreate = true
  reopen : s.reopen = false
  line : '\x00' ∉ s.line
  xfile : ∃ rest, s.xfile = head ++ (first ++ rest) ∧ '\x00' ∉ rest ∧ s.nhash = hash (first ++ rest)

theorem putline_eq (h : Written head first s) (newline : Option (List Char)) : ∃ p w,
    putline newline s = { s with wrttn := w, xfile := s.xfile ++ p, nhash := s.nhash + hash p } ∧
    ((∀ q, newline = some q → '\x00' ∉ q) → '\x00' ∉ p) := by
  obtain ⟨upd, wrttn, line, chkeof, reopen, do_chksum, ihash, chash, nhash, slnno, keep, file, iop, Xcreate, xfile⟩
    := s
  obtain rfl : upd = true := h.upd
  obtain rfl : Xcreate = true := h.xcreate
  cases newline with
  | some p => exact ⟨p, wrttn, rfl, fun hq => hq p rfl⟩
  | none =>
    by_cases hw : wrttn = 0
    · refine ⟨line, wrttn + 1, ?_, fun _ => h.line⟩
      unfold putline
      dsimp only
      rw [if_pos hw]
      rfl
    · refine ⟨[], wrttn + 1, ?_, fun _ => not_mem_nil⟩
      unfold putline
      dsimp only
      rw [if_neg hw]
      rfl

theorem Written.putline (h : Written head first s) (newline : Option (List Char))
    (hq : ∀ q, newline = some q → '\x00' ∉ q) : Written head first (putline newline s) := by
  obtain ⟨p, w, heq, hp⟩ := putline_eq h newline
  obtain ⟨rest, hx, hrest, hn⟩ := h.xfile
  rw [heq]
  refine ⟨h.upd, h.xcreate, h.reopen, h.line, rest ++ p, ?_, ?_, ?_⟩
  · dsimp only
    rw [hx, append_assoc, append_assoc]
  · rw [mem_append, not_or]
    exact ⟨hrest, hp hq⟩
  · dsimp only
    rw [hn, ← append_assoc, hash_append _ p]

theorem Written.getline (h : Written head first s) {b : Bool} (hs : getline s = .ok (b, t)) :
    Written head first t := by
  unfold Sccs.getline at hs
  have hput : Written head first (if s.wrttn = 0 then Sccs.putline none s else s) := by
    split
    · exact h.putline _ nofun
    · exact h
  generalize (if s.wrttn = 0 then Sccs.putline none s else s) = u at hs hput
  dsimp only at hs
  split at hs
  · exact absurd hs nofun
  next p hp =>
    split at hs
    · obtain ⟨_, rfl⟩ := Prod.mk.inj (Except.ok.inj hs)
      exact ⟨hput.upd, hput.xcreate, hput.reopen, cstr_str _, hput.xfile⟩
    split at hs
    · exact absurd hs nofun
    split at hs
    · exact absurd hs nofun
    split at hs
    next hre => exact absurd (hput.reopen.symm.trans hre) nofun
    next =>
      obtain ⟨_, rfl⟩ := Prod.mk.inj (Except.ok.inj hs)
      exact ⟨hput.upd, hput.xcreate, hput.reopen, hput.line, hput.xfile⟩

theorem Written.op (h : Written head first s) {o : Op} (hs : o.run s = .ok t) : Written head first t := by
  cases o with
  | put l =>
    obtain rfl := Except.ok.inj hs
    apply h.putline
    intro q hq
    exact Option.some.inj hq ▸ l.2
  | current =>
    obtain rfl := Except.ok.inj hs
    exact h.putline _ nofun
  | read =>
    change (do
      let r ← Sccs.getline s
      pure r.2) = _ at hs
    cases hg : Sccs.getline s with
    | error f =>
      rw [hg] at hs
      exact absurd hs nofun
    | ok r =>
      rw [hg] at hs
      obtain rfl := Except.ok.inj hs
      exact h.getline hg
  | drop =>
    obtain rfl := Except.ok.inj hs
    exact ⟨h.upd, h.xcreate, h.reopen, h.line, h.xfile⟩

theorem Written.run (h : Written head first s) {ops : List Op}
    (hs : ops.foldlM (fun s o => o.run s) s = .ok t) : Written head first t := by
  induction ops generalizing s with
  | nil =>
    obtain rfl := Except.ok.inj hs
    exact h
  | cons o ops ih =>
    rw [foldlM_cons] at hs
    cases ho : o.run s with
    | error f =>
      rw [ho] at hs
      exact absurd hs nofun
    | ok u =>
      rw [ho] at hs
      exact ih (h.op ho) hs

end write

/-! ## Numbers of five digits -/

section five

variable {n : ℕ} {l b : List Char}

theorem five_digit {c : Char} (hc : c ∈ five n) : c.isDigit = true := by
  rcases mem_append.mp hc with hc | hc
  · rw [eq_of_mem_replicate hc]
    decide
  · exact mem_digits hc

theorem five_ne {c d : Char} (hc : c ∈ five n) (hd : d.isDigit = false) : c ≠ d := by
  rintro rfl
  exact absurd (hd.symm.trans (five_digit hc)) nofun

theorem digits_length : (digits n).length ≤ 5 ↔ n < 100000 :=
  Nat.length_toDigits_le_iff (by decide) (by decide)

theorem five_length (hn : n < 100000) : (five n).length = 5 := by
  have hlen := digits_length.mpr hn
  rw [five, length_append, length_replicate]
  omega

theorem sprintf_of_lt (hn : n < 100000) : sprintf n = some (five n) := by
  rw [sprintf, if_pos (by rw [five_length hn]; decide)]

theorem sprintf_of_le (hn : 100000 ≤ n) : sprintf n = none := by
  have hlen : ¬(digits n).length ≤ 5 := fun hc => Nat.not_lt.mpr hn (digits_length.mp hc)
  rw [sprintf, if_neg]
  rw [five, length_append]
  omega

/-- The number of the header is read. -/
theorem satoi_five (n : ℕ) (hb : NoDigit b) : satoi (five n ++ b) = (BitVec.ofNat 32 n, b) := by
  have h := number_append (R := BitVec 32) hb (fun c hc => five_digit (n := n) hc) 0
  rw [Nat.cast_zero] at h
  rw [satoi, h, five, Nat.ofDigitChars_append, Nat.ofDigitChars_replicate_zero, Nat.mul_zero, digits,
    Nat.ofDigitChars_toDigits (by decide) (by decide), BitVec.natCast_eq_ofNat]

end five

/-! ## Reading -/

section read

variable {p : List Char} {n : ℕ} {s : Packet}

theorem fgets_append (n : ℕ) (p : List Char) : (fgets n p).1 ++ (fgets n p).2 = p := by
  induction n generalizing p with
  | zero => rfl
  | succ n ih =>
    cases p with
    | nil => rfl
    | cons c p =>
      rw [fgets]
      split
      · rfl
      · exact congrArg (c :: ·) (ih p)

theorem fgets_eq_nil (hn : 0 < n) : (fgets n p).1 = [] ↔ p = [] := by
  cases n with
  | zero => exact absurd hn (Nat.lt_irrefl 0)
  | succ n =>
    cases p with
    | nil => exact ⟨fun _ => rfl, fun _ => rfl⟩
    | cons c p =>
      rw [fgets]
      split
      · exact ⟨nofun, nofun⟩
      · exact ⟨nofun, nofun⟩

/-- A short line is got whole. -/
theorem fgets_line {l : List Char} (hl : '\n' ∉ l) (hlen : l.length < n) :
    fgets n (l ++ '\n' :: p) = (l ++ ['\n'], p) := by
  induction l generalizing n with
  | nil =>
    cases n with
    | zero => exact absurd hlen (Nat.not_lt_zero _)
    | succ n => rfl
  | cons c l ih =>
    cases n with
    | zero => exact absurd hlen (Nat.not_lt_zero _)
    | succ n =>
      rw [mem_cons, not_or] at hl
      have hrest := ih hl.2 (Nat.lt_of_succ_lt_succ hlen)
      rw [cons_append, fgets, if_neg (Ne.symm hl.1), hrest]
      rfl

theorem putline_reader (hupd : s.upd = false) (newline : Option (List Char)) : putline newline s = s := by
  unfold putline
  rw [hupd]
  rfl

/-- A line is got by a packet that only reads. -/
theorem getline_line (hupd : s.upd = false) (hp : s.iop = some p) (hne : p ≠ []) :
    getline s = .ok (true, { s with
      line := cstr (fgets (BUFSIZ - 1) p).1
      iop := some (fgets (BUFSIZ - 1) p).2
      slnno := s.slnno + 1
      wrttn := 0
      chash := s.chash + hash (cstr (fgets (BUFSIZ - 1) p).1) }) := by
  have hfirst : (fgets (BUFSIZ - 1) p).1 ≠ [] := fun hc => hne ((fgets_eq_nil (by decide)).mp hc)
  rw [getline, putline_reader hupd, ite_self]
  dsimp only
  rw [hp]
  dsimp only
  rw [if_pos hfirst]

/-- The end of the file, where the checksum is right -/
theorem getline_eof (hupd : s.upd = false) (hp : s.iop = some []) (heof : s.chkeof = true)
    (hreopen : s.reopen = false) (hsum : (s.chash ^^^ s.ihash) &&& 0xFFFF = 0) :
    getline s = .ok (false, { s with iop := none }) := by
  have hsum' : ((s.chash ^^^ s.ihash) &&& 0xFFFF != 0) = false := by
    rw [hsum]
    rfl
  have hreopen' : ¬s.reopen = true := by
    rw [hreopen]
    exact nofun
  rw [getline, putline_reader hupd, ite_self]
  dsimp only
  rw [hp]
  dsimp only
  rw [if_neg (fun hc => hc rfl), heof, hsum', Bool.and_false]
  change (if s.reopen = true then _ else _) = _
  rw [if_neg hreopen']

/-- The rest of the file is read, and all of it is summed. -/
theorem toEof_sum (hupd : s.upd = false) (hp : s.iop = some p) (hnul : '\x00' ∉ p) (heof : s.chkeof = true)
    (hreopen : s.reopen = false) (hsum : (s.chash + hash p ^^^ s.ihash) &&& 0xFFFF = 0) (hn : p.length < n) :
    ∃ t, toEof n s = .ok t ∧ t.chash = s.chash + hash p ∧ t.ihash = s.ihash := by
  induction n generalizing s p with
  | zero => exact absurd hn (Nat.not_lt_zero _)
  | succ n ih =>
    by_cases hne : p = []
    · subst hne
      rw [hash_nil, add_zero] at hsum
      refine ⟨{ s with iop := none }, ?_, ?_, rfl⟩
      · rw [toEof, getline_eof hupd hp heof hreopen hsum]
        rfl
      · rw [hash_nil, add_zero]
    · have happ := fgets_append (BUFSIZ - 1) p
      have hfirst : (fgets (BUFSIZ - 1) p).1 ≠ [] := fun hc => hne ((fgets_eq_nil (by decide)).mp hc)
      have hlen := congrArg List.length happ
      rw [length_append] at hlen
      have hpos := length_pos_iff.mpr hfirst
      rw [← happ, mem_append, not_or] at hnul
      have hall : s.chash + hash (cstr (fgets (BUFSIZ - 1) p).1) + hash (fgets (BUFSIZ - 1) p).2 =
          s.chash + hash p := by
        rw [cstr_eq hnul.1, add_assoc, ← hash_append, happ]
      have hrest := ih (p := (fgets (BUFSIZ - 1) p).2) (s := { s with
        line := cstr (fgets (BUFSIZ - 1) p).1
        iop := some (fgets (BUFSIZ - 1) p).2
        slnno := s.slnno + 1
        wrttn := 0
        chash := s.chash + hash (cstr (fgets (BUFSIZ - 1) p).1) }) hupd rfl hnul.2 heof hreopen
        (hall ▸ hsum) (by omega)
      rw [toEof, getline_line hupd hp hne]
      rw [hall] at hrest
      exact hrest

/-- Only the lower 16 bits are kept in the header. -/
theorem xor_low (n : BitVec 32) : (n ^^^ (n &&& 0xFFFF)) &&& 0xFFFF = 0 := by
  apply BitVec.eq_of_getLsbD_eq
  intro i _
  change _ = (0#32).getLsbD i
  rw [BitVec.getLsbD_and, BitVec.getLsbD_xor, BitVec.getLsbD_and, BitVec.getLsbD_zero]
  cases n.getLsbD i <;> cases (0xFFFF : BitVec 32).getLsbD i <;> rfl

/-- Reading the file finds the checksum of its first line. -/
def Checks (file : List Char) : Prop :=
  ∃ s, readFile file = .ok s ∧ (s.chash ^^^ s.ihash) &&& 0xFFFF = 0

theorem sinit_ok {file d : List Char} {n : BitVec 32} (hget : getline (opened file) = .ok (true, s))
    (hline : s.line = CTLCHAR :: HEAD :: d) (hnum : satoi d = (n, ['\n'])) :
    sinit file = .ok { s with ihash := n, chash := 0 } := by
  unfold sinit
  rw [hget]
  dsimp only [bind, Except.bind]
  rw [hline]
  dsimp only
  rw [if_pos ⟨rfl, rfl⟩, hnum]
  exact if_pos rfl

theorem checks_headLine (hp : '\x00' ∉ p) :
    Checks (headLine (five (hash p &&& 0xFFFF).toNat) ++ p) := by
  generalize hn : (hash p &&& 0xFFFF).toNat = n
  have hlow : n < 100000 := by
    have hle : (hash p &&& 0xFFFF).toNat ≤ 65535 := by
      rw [BitVec.toNat_and]
      exact Nat.and_le_right
    omega
  have hline : headLine (five n) ++ p = (CTLCHAR :: HEAD :: five n) ++ '\n' :: p := by
    rw [headLine, cons_append, cons_append, append_assoc]
    rfl
  have hnl : '\n' ∉ CTLCHAR :: HEAD :: five n := by
    rw [mem_cons, mem_cons, not_or, not_or]
    exact ⟨by decide, by decide, fun hc => five_ne hc (d := '\n') (by decide) rfl⟩
  have hnul : '\x00' ∉ (CTLCHAR :: HEAD :: five n) ++ ['\n'] := by
    rw [mem_append, mem_cons, mem_cons, not_or, not_or, not_or]
    exact ⟨⟨by decide, by decide, fun hc => five_ne hc (d := '\x00') (by decide) rfl⟩, by decide⟩
  have hgets := fgets_line (n := BUFSIZ - 1) (p := p) hnl (by
    rw [length_cons, length_cons, five_length hlow]
    decide)
  have hget := getline_line (s := opened ((CTLCHAR :: HEAD :: five n) ++ '\n' :: p)) rfl rfl nofun
  rw [hgets] at hget
  dsimp only at hget
  rw [cstr_eq hnul] at hget
  have hnum := satoi_five n (b := ['\n']) (noDigit_cons (by decide))
  rw [← hn, BitVec.ofNat_toNat, BitVec.setWidth_eq, hn] at hnum
  have hsinit := sinit_ok hget rfl hnum
  have hsum : (0 + hash p ^^^ (hash p &&& 0xFFFF)) &&& 0xFFFF = 0 := by
    rw [zero_add]
    exact xor_low _
  obtain ⟨t, ht, hchash, hihash⟩ := toEof_sum
    (n := ((CTLCHAR :: HEAD :: five n) ++ '\n' :: p).length + 1)
    (s := { opened ((CTLCHAR :: HEAD :: five n) ++ '\n' :: p) with
      line := (CTLCHAR :: HEAD :: five n) ++ ['\n']
      iop := some p
      slnno := 1
      wrttn := 0
      chkeof := true
      ihash := hash p &&& 0xFFFF })
    rfl rfl hp rfl rfl hsum (by
      rw [length_append, length_cons (a := '\n')]
      omega)
  refine ⟨t, ?_, ?_⟩
  · rw [readFile, hline, hsinit]
    exact ht
  · rw [hchash, hihash]
    exact hsum

end read

/-! ## The whole file -/

section whole

variable {head : List Char} {s t : Packet} {stats : Option Stats}

/-- A packet that has not written anything -/
structure Fresh (s : Packet) : Prop where
  upd : s.upd = true
  xcreate : s.Xcreate = false
  reopen : s.reopen = false
  nhash : s.nhash = 0
  line : '\x00' ∉ s.line

/-- The line behind the header, if it is patched -/
def firstLine (stats : Option Stats) : List Char :=
  match stats with
  | some _ => statsLine fivech fivech fivech
  | none => []

/-- The first line is written without being summed. -/
theorem putline_first (hupd : s.upd = true) (hx : s.Xcreate = false) (newline : Option (List Char)) :
    ∃ w, putline newline s = { s with
      wrttn := w, xfile := newline.getD (if s.wrttn = 0 then s.line else []), Xcreate := true } := by
  obtain ⟨upd, wrttn, line, chkeof, reopen, do_chksum, ihash, chash, nhash, slnno, keep, file, iop, Xcreate, xfile⟩
    := s
  obtain rfl : upd = true := hupd
  obtain rfl : Xcreate = false := hx
  cases newline with
  | some p => exact ⟨wrttn, rfl⟩
  | none => exact ⟨wrttn + 1, rfl⟩

theorem putline_some (hupd : s.upd = true) (hx : s.Xcreate = true) (p : List Char) :
    putline (some p) s = { s with xfile := s.xfile ++ p, nhash := s.nhash + hash p } := by
  obtain ⟨upd, wrttn, line, chkeof, reopen, do_chksum, ihash, chash, nhash, slnno, keep, file, iop, Xcreate, xfile⟩
    := s
  obtain rfl : upd = true := hupd
  obtain rfl : Xcreate = true := hx
  rfl

theorem statsLine_str {ins del unc : List Char} (hins : '\x00' ∉ ins) (hdel : '\x00' ∉ del)
    (hunc : '\x00' ∉ unc) : '\x00' ∉ statsLine ins del unc := by
  unfold statsLine
  simp only [mem_cons, mem_append, not_or]
  exact ⟨by decide, by decide, by decide, hins, by decide, hdel, by decide, hunc, by decide, not_mem_nil⟩

theorem Fresh.begun (h : Fresh s) (hhead : '\x00' ∉ head) (stats : Option Stats) :
    Written head (firstLine stats) (begun head stats s) := by
  cases stats with
  | some st =>
    obtain ⟨w, heq⟩ := putline_first h.upd h.xcreate (some head)
    have hbegun : Sccs.begun head (some st) s = newstats (putline (some head) s) := rfl
    have hupd : (putline (some head) s).upd = true := by rw [heq]; exact h.upd
    have hx : (putline (some head) s).Xcreate = true := by rw [heq]
    rw [hbegun, newstats, putline_some hupd hx, heq]
    refine ⟨h.upd, rfl, h.reopen, h.line, [], ?_, not_mem_nil, ?_⟩
    · rw [append_nil]
      rfl
    · dsimp only
      rw [h.nhash, zero_add, append_nil]
      rfl
  | none =>
    obtain ⟨w, heq⟩ := putline_first (s := { s with line := head, wrttn := 0 }) h.upd h.xcreate none
    have hbegun : Sccs.begun head none s = putline none { s with line := head, wrttn := 0 } := rfl
    rw [hbegun, heq]
    refine ⟨h.upd, rfl, h.reopen, hhead, [], ?_, not_mem_nil, h.nhash⟩
    change (if (0 : BitVec 8) = 0 then head else []) = head ++ ([] ++ [])
    rw [if_pos rfl, append_nil, append_nil]

/-- The counts have five digits. -/
def FiveDigits (stats : Option Stats) : Prop :=
  ∀ st, stats = some st → st.s_ins < 100000 ∧ st.s_del < 100000 ∧ st.s_unc < 100000

/-- The file is there: behind the first lines it has what was written, and it passes its check. -/
def Passes (head : List Char) (stats : Option Stats) (s : Packet) : Prop :=
  ∃ t, flushline stats s = some t ∧ t.xfile.length = (putline none s).xfile.length ∧
    t.xfile.drop (head ++ firstLine stats).length = (putline none s).xfile.drop (head ++ firstLine stats).length ∧
    Checks t.xfile

theorem headLine_length {n : ℕ} (hn : n < 100000) : (headLine (five n)).length = 8 := by
  rw [headLine, length_cons, length_cons, length_append, five_length hn]
  rfl

theorem statsLine_length {ins del unc : List Char} (hins : ins.length = 5) (hdel : del.length = 5)
    (hunc : unc.length = 5) : (statsLine ins del unc).length = 21 := by
  unfold statsLine
  simp only [length_cons, length_append, hins, hdel, hunc]
  rfl

theorem low_lt (n : BitVec 32) : (n &&& 0xFFFF).toNat < 100000 := by
  have hle : (n &&& 0xFFFF).toNat ≤ 65535 := by
    rw [BitVec.toNat_and]
    exact Nat.and_le_right
  omega

/-- The first lines are overwritten by as many characters. -/
theorem overwrite_xfile {l first rest : List Char} (hx : s.xfile = head ++ (first ++ rest))
    (hlen : l.length = (head ++ first).length) : (overwrite l s).xfile = l ++ rest := by
  change l ++ s.xfile.drop l.length = _
  rw [hx, hlen, ← append_assoc, drop_left]

theorem passes_of_five (h : Written head (firstLine stats) s) (hhead : head.length = 8)
    (hstats : FiveDigits stats) : Passes head stats s := by
  have hput := h.putline none nofun
  obtain ⟨rest, hx, hrest, hn⟩ := hput.xfile
  have hdrop : (putline none s).xfile.drop (head ++ firstLine stats).length = rest := by
    rw [hx, ← append_assoc, drop_left]
  have hlenx : (putline none s).xfile.length = (head ++ firstLine stats).length + rest.length := by
    rw [hx, ← append_assoc, length_append]
  have hdone {l : List Char} {u : Packet} (hflush : flushline stats s = some u) (hu : u.xfile = l ++ rest)
      (hl : l.length = (head ++ firstLine stats).length) (hcheck : Checks (l ++ rest)) : Passes head stats s := by
    refine ⟨u, hflush, ?_, ?_, hu ▸ hcheck⟩
    · rw [hu, hlenx, length_append, hl]
    · rw [hu, hdrop, ← hl, drop_left]
  have hupd : ¬(!s.upd) = true := by
    rw [h.upd]
    exact nofun
  cases stats with
  | none =>
    have hsum := low_lt (putline none s).nhash
    have hlen : (headLine (five ((putline none s).nhash &&& 0xFFFF).toNat)).length =
        (head ++ firstLine none).length := by
      rw [headLine_length hsum, firstLine, append_nil, hhead]
    apply hdone _ (overwrite_xfile hx hlen) hlen
    · rw [hn]
      exact checks_headLine hrest
    · rw [flushline, if_neg hupd]
      dsimp only
      rw [sprintf_of_lt hsum]
      rfl
  | some st =>
    obtain ⟨hins, hdel, hunc⟩ := hstats st rfl
    have hstr {n : ℕ} : '\x00' ∉ five n := fun hc => five_ne hc (d := '\x00') (by decide) rfl
    have hfile : '\x00' ∉ statsLine (five st.s_ins) (five st.s_del) (five st.s_unc) ++ rest := by
      rw [mem_append, not_or]
      exact ⟨statsLine_str hstr hstr hstr, hrest⟩
    have hnew : addDigits (addDigits (addDigits (putline none s).nhash (five st.s_ins)) (five st.s_del))
        (five st.s_unc) = hash (statsLine (five st.s_ins) (five st.s_del) (five st.s_unc) ++ rest) := by
      have hpatch := hash_statsLine (five_length hins) (five_length hdel) (five_length hunc) (hash rest)
      rw [hn, hash_append, hash_append]
      unfold addDigits at hpatch ⊢
      rw [firstLine, add_comm (hash (statsLine (five _) (five _) (five _))), ← hpatch]
      ring
    have hsum := low_lt (addDigits (addDigits (addDigits (putline none s).nhash (five st.s_ins))
      (five st.s_del)) (five st.s_unc))
    have hlen : (headLine (five (addDigits (addDigits (addDigits (putline none s).nhash (five st.s_ins))
        (five st.s_del)) (five st.s_unc) &&& 0xFFFF).toNat) ++
        statsLine (five st.s_ins) (five st.s_del) (five st.s_unc)).length =
          (head ++ firstLine (some st)).length := by
      rw [length_append, length_append, headLine_length hsum, hhead, firstLine,
        statsLine_length (five_length hins) (five_length hdel) (five_length hunc)]
      rfl
    apply hdone _ (overwrite_xfile (s := { (putline none s) with
      nhash := addDigits (addDigits (addDigits (putline none s).nhash (five st.s_ins)) (five st.s_del))
        (five st.s_unc) }) hx hlen) hlen
    · rw [hnew, append_assoc]
      exact checks_headLine hfile
    · rw [flushline, if_neg hupd]
      dsimp only
      rw [sprintf_of_lt hins, sprintf_of_lt hdel, sprintf_of_lt hunc]
      change (do
        let hash ← sprintf (addDigits (addDigits (addDigits (putline none s).nhash (five st.s_ins))
          (five st.s_del)) (five st.s_unc) &&& 0xFFFF).toNat
        pure _) = _
      rw [sprintf_of_lt hsum]
      rfl

/-- A count of more digits is written behind its array. -/
theorem Passes.fiveDigits (hupd : s.upd = true) (h : Passes head stats s) : FiveDigits stats := by
  intro st hst
  obtain ⟨t, hflush, _⟩ := h
  have hupd' : ¬(!s.upd) = true := by
    rw [hupd]
    exact nofun
  rw [flushline, if_neg hupd', hst] at hflush
  dsimp only at hflush
  refine ⟨?_, ?_, ?_⟩
  · by_contra hle
    rw [sprintf_of_le (Nat.not_lt.mp hle)] at hflush
    exact absurd hflush nofun
  · by_contra hle
    rw [sprintf_of_le (n := st.s_del) (Nat.not_lt.mp hle)] at hflush
    cases hins : sprintf st.s_ins <;> rw [hins] at hflush <;> exact absurd hflush nofun
  · by_contra hle
    rw [sprintf_of_le (n := st.s_unc) (Nat.not_lt.mp hle)] at hflush
    cases hins : sprintf st.s_ins <;> cases hdel : sprintf st.s_del <;> rw [hins, hdel] at hflush <;>
      exact absurd hflush nofun

end whole

/-- What `delta` or `rmdel` writes passes its own check just if the counts have five digits. -/
theorem flushline_passes {s t : Packet} (hs : Fresh s) (head : Str) (hhead : head.1.length = 8)
    (stats : Option Stats) (ops : List Op) (ht : ops.foldlM (fun s o => o.run s) (begun head.1 stats s) = .ok t) :
    Passes head.1 stats t ↔ FiveDigits stats := by
  have hw := (hs.begun head.2 stats).run ht
  exact ⟨fun hp => hp.fiveDigits hw.upd, passes_of_five hw hhead⟩

theorem opened_fresh : Fresh { opened [] with upd := true } := ⟨rfl, rfl, rfl, rfl, not_mem_nil⟩

/-- A file with one line more -/
theorem flushline_passes_line : ∃ t, Passes (headLine fivech) (some ⟨1, 2, 3⟩) t := by
  refine ⟨_, (flushline_passes opened_fresh ⟨headLine fivech, by decide⟩ rfl (some ⟨1, 2, 3⟩)
    [.put ⟨['x', '\n'], by decide⟩, .current] rfl).mpr ?_⟩
  intro st hst
  obtain rfl := Option.some.inj hst
  decide

/-- A count of 100000 is written behind its array. -/
theorem long_count_overflows : ¬∀ (s t : Packet) (head : Str) (stats : Option Stats) (ops : List Op), Fresh s →
    head.1.length = 8 → ops.foldlM (fun s o => o.run s) (begun head.1 stats s) = .ok t →
      Passes head.1 stats t := by
  intro h
  have hpass := h _ _ ⟨headLine fivech, by decide⟩ (some ⟨100000, 0, 0⟩) [] opened_fresh rfl rfl
  have hfive := hpass.fiveDigits rfl _ rfl
  exact absurd hfive.1 (Nat.lt_irrefl _)

end Svr3.Sccs
