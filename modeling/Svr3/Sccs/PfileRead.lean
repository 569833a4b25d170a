import Mathlib.Data.List.TakeWhile
import Svr3.Sccs.Pfile

/-!
# Reading the p-file

An entry with an exclude list is never read back, as `pf_ab` writes into that list. One with another list is
read back when its date has a year of two digits that `date_ab` takes; an entry without lists always.
-/

namespace Svr3.Sccs

open List

/-- A string without blanks -/
structure Word where
  chars : List Char
  ne : chars ≠ []
  ok : ∀ c ∈ chars, c ≠ ' ' ∧ c ≠ '\n' ∧ c ≠ '\x00'

/-- A login name -/
structure Login extends Word where
  short : chars.length < LOGSIZE

/-! ## Numbers and SIDs -/

section sids

variable {r : List Char}

theorem satoi_digits (n : BitVec 32) (hr : NoDigit r) : satoi (digits n.toNat ++ r) = (n, r) := by
  have h := number_digits (R := BitVec 32) hr n.toNat
  rw [BitVec.natCast_eq_ofNat, BitVec.ofNat_toNat, BitVec.setWidth_eq] at h
  exact h

theorem satoi_noDigit (hr : NoDigit r) : satoi r = (0, r) := number_noDigit hr 0

theorem noDigit_blank : NoDigit (' ' :: r) := noDigit_cons (by decide)

theorem noDigit_dot : NoDigit ('.' :: r) := noDigit_cons (by decide)

theorem skipDot_dot : skipDot ('.' :: r) = r := rfl

theorem skipDot_blank : skipDot (' ' :: r) = ' ' :: r := rfl

theorem sid_ba_trunk {s : Sid} (hbr : s.br = 0) :
    sid_ba s ++ ' ' :: r = digits s.rel.toNat ++ '.' :: (digits s.lev.toNat ++ ' ' :: r) := by
  rw [sid_ba, if_pos hbr, append_nil, append_assoc, cons_append]

theorem sid_ba_branch {s : Sid} (hbr : s.br ≠ 0) :
    sid_ba s ++ ' ' :: r = digits s.rel.toNat ++ '.' :: (digits s.lev.toNat ++ '.' :: (digits s.br.toNat ++
      '.' :: (digits s.seq.toNat ++ ' ' :: r))) := by
  rw [sid_ba, if_neg hbr]
  simp only [append_assoc, cons_append]

/-- A printed SID is read up to the blank behind it. -/
theorem sid_ab_ba {s : Sid} (hs : s.Ok) (r : List Char) :
    sid_ab (sid_ba s ++ ' ' :: r) = (s, ' ' :: r) := by
  unfold sid_ab
  by_cases hbr : s.br = 0
  · have hself : (⟨s.rel, s.lev, 0, 0⟩ : Sid) = s := by
      have hseq := hs hbr
      obtain ⟨rel, lev, br, seq⟩ := s
      obtain rfl : br = 0 := hbr
      obtain rfl : seq = 0 := hseq
      rfl
    rw [sid_ba_trunk hbr, satoi_digits s.rel noDigit_dot]
    dsimp only
    rw [skipDot_dot, satoi_digits s.lev noDigit_blank]
    dsimp only
    rw [skipDot_blank, satoi_noDigit noDigit_blank]
    dsimp only
    rw [skipDot_blank, satoi_noDigit noDigit_blank]
    dsimp only
    rw [hself]
  · rw [sid_ba_branch hbr, satoi_digits s.rel noDigit_dot]
    dsimp only
    rw [skipDot_dot, satoi_digits s.lev noDigit_dot]
    dsimp only
    rw [skipDot_dot, satoi_digits s.br noDigit_dot]
    dsimp only
    rw [skipDot_dot, satoi_digits s.seq noDigit_blank]

theorem sid_ba_ne {s : Sid} {c : Char} (hc : c ∈ sid_ba s) : c ≠ '\n' := by
  have hdigit {n : ℕ} (h : c ∈ digits n) : c ≠ '\n' := by
    rintro rfl
    exact absurd (mem_digits h) (by decide)
  unfold sid_ba at hc
  rcases mem_append.mp hc with hc | hc
  · rcases mem_append.mp hc with hc | hc
    · exact hdigit hc
    · rcases mem_cons.mp hc with rfl | hc
      · decide
      · exact hdigit hc
  · split at hc
    · exact absurd hc not_mem_nil
    · rcases mem_cons.mp hc with rfl | hc
      · decide
      · rcases mem_append.mp hc with hc | hc
        · exact hdigit hc
        · rcases mem_cons.mp hc with rfl | hc
          · decide
          · exact hdigit hc

end sids

/-! ## Dates -/

section dates

variable {z : Zone} {tm : Tm} {r : List Char} {c : Char} {n : ℕ}

theorem digit_all : ∀ d < 10, (Char.ofNat (d + 48)).isDigit = true ∧ (Char.ofNat (d + 48)).toNat - 48 = d := by
  decide

theorem g2_sep (hc : c.isDigit = false) : g2 (c :: r) = g2 r := by
  unfold g2
  rw [dropWhile_cons_of_pos (by rw [hc]; rfl)]

theorem g2_do2 (hn : n < 100) : g2 (do2 n r) = (some n, r) := by
  obtain ⟨htens, htens'⟩ := digit_all (n / 10) (by omega)
  obtain ⟨hones, hones'⟩ := digit_all (n % 10) (by omega)
  have hsum : n / 10 * 10 + n % 10 = n := by omega
  unfold g2 do2
  rw [dropWhile_cons_of_neg (by rw [htens]; exact nofun)]
  dsimp only
  rw [if_pos hones, htens', hones', hsum]

/-- The first digit of a year from 2000 is none. -/
theorem g2_do2_late (hn : 100 ≤ n) (hle : n ≤ 138) (hr : NoDigit r) : g2 (do2 n r) = (some (n % 10), r) := by
  have htens : ∀ d < 14, 10 ≤ d → (Char.ofNat (d + 48)).isDigit = false := by decide
  obtain ⟨hones, hones'⟩ := digit_all (n % 10) (by omega)
  rw [do2, g2_sep (htens (n / 10) (by omega) (by omega))]
  unfold g2
  rw [dropWhile_cons_of_neg (by rw [hones]; exact nofun)]
  cases r with
  | nil =>
    dsimp only
    rw [hones']
  | cons c r =>
    have hc : ¬c.isDigit = true := by
      rw [hr c rfl]
      exact nofun
    dsimp only
    rw [if_neg hc, hones']

/-- The date of a year from 1970 to 1999 is read to its end; a leap second is not taken. -/
theorem date_ab_year_ok (hlo : 70 ≤ tm.year) (hhi : tm.year ≤ 99) : date_ab z (date_ba tm ++ r) =
    (if tm.sec > 59 then none
      else some (dateTime z tm.year (tm.mon + 1) tm.mday tm.hour tm.min tm.sec), r) := by
  obtain ⟨y, mon, d, h, m, s, _, hmon, hd, hd', hh, hm, hs⟩ := tm
  dsimp only at hlo hhi
  have hdays : mosize y (mon + 1) ≤ 31 := by
    unfold mosize dmsize
    split
    · decide
    · split <;> decide
  have hdate : date_ba ⟨y, mon, d, h, m, s, ‹_›, hmon, hd, hd', hh, hm, hs⟩ ++ r =
      do2 y ('/' :: do2 (mon + 1) ('/' :: do2 d (' ' :: do2 h (':' :: do2 m (':' :: do2 s r))))) := rfl
  rw [hdate]
  unfold date_ab
  rw [g2_do2 (Nat.lt_succ_of_le hhi)]
  dsimp only [Option.getD_some]
  rw [if_neg (by omega), g2_sep (by decide), g2_do2 (by omega)]
  dsimp only [Option.getD_some]
  rw [if_neg (by omega), g2_sep (by decide), g2_do2 (by omega)]
  dsimp only [Option.getD_some]
  rw [if_neg (by omega), g2_sep (by decide), g2_do2 (by omega)]
  dsimp only [Option.getD_some]
  rw [if_neg (by omega), g2_sep (by decide), g2_do2 (by omega)]
  dsimp only [Option.getD_some]
  rw [if_neg (by omega), g2_sep (by decide), g2_do2 (by omega)]
  dsimp only [Option.getD_some]
  split
  · rfl
  · rfl

theorem date_ab_ba (hlo : 70 ≤ tm.year) (hhi : tm.year ≤ 99) : ∃ t, date_ab z (date_ba tm ++ r) = (t, r) :=
  ⟨_, date_ab_year_ok hlo hhi⟩

/-- What is left when the year is not taken -/
def afterYear (tm : Tm) (r : List Char) : List Char :=
  '/' :: do2 (tm.mon + 1) ('/' :: do2 tm.mday (' ' :: do2 tm.hour (':' :: do2 tm.min (':' :: do2 tm.sec r))))

theorem date_ab_year (hyear : tm.year < 70 ∨ 100 ≤ tm.year) :
    date_ab z (date_ba tm ++ r) = (none, afterYear tm r) := by
  obtain ⟨n, hn, hg⟩ : ∃ n < 70, g2 (date_ba tm ++ r) = (some n, afterYear tm r) := by
    rcases hyear with hlo | hhi
    · exact ⟨tm.year, hlo, g2_do2 (by omega)⟩
    · exact ⟨tm.year % 10, by omega, g2_do2_late hhi tm.year_le (noDigit_cons (by decide))⟩
  unfold date_ab
  rw [hg]
  dsimp only [Option.getD_some]
  rw [if_pos (.inl hn)]

end dates

/-! ## Lists -/

section lists

variable {inc exc cmr : Option Word} {p q r : List Char}

def chars (w : Option Word) : Option (List Char) := w.map Word.chars

/-- The flags of an entry -/
def flags (inc exc cmr : Option Word) : List Char :=
  flag 'i' (chars inc) ++ (flag 'x' (chars exc) ++ flag 'z' (chars cmr))

theorem flag_none (c : Char) : flag c (chars none) = [] := rfl

theorem flag_some (c : Char) (w : Word) : flag c (chars (some w)) = ' ' :: '-' :: c :: w.chars := rfl

theorem skip_two (a b : Char) : skip 2 (a :: b :: r) = .ok r := by
  rw [skip, if_pos (by rw [length_cons, length_cons]; omega)]
  rfl

theorem skip_one (a : Char) : skip 1 (a :: r) = .ok r := by
  rw [skip, if_pos (by rw [length_cons]; omega)]
  rfl

theorem Word.dropWhile (w : Word) : w.chars.dropWhile (· != ' ') = [] := by
  rw [dropWhile_eq_nil_iff]
  exact fun c hc => bne_iff_ne.mpr (w.ok c hc).1

theorem ilistAb_i : ilistAb ('i' :: p) = (match p.dropWhile (· != ' ') with
    | [] => .ok (some p, [])
    | _ :: q => do
      let q ← skip 1 q
      pure (some (p.takeWhile (· != ' ')), q)) := rfl

theorem elistAb_x (c : Char) : elistAb ('x' :: c :: q) = (do
    let r ← skip 1 q
    pure (some (' ' :: q), r)) := rfl

/-- The list of the `i` flag is right, and what follows begins behind the next dash. -/
theorem ilistAb_last (w : Word) : ilistAb ('i' :: w.chars) = .ok (some w.chars, []) := by
  rw [ilistAb_i, w.dropWhile]

theorem ilistAb_next (w : Word) (x : Char) : ilistAb ('i' :: (w.chars ++ ' ' :: '-' :: x :: q)) =
    .ok (some w.chars, x :: q) := by
  have hdrop : (w.chars ++ ' ' :: '-' :: x :: q).dropWhile (· != ' ') = ' ' :: '-' :: x :: q := by
    rw [dropWhile_append, w.dropWhile]
    rfl
  have htake : (w.chars ++ ' ' :: '-' :: x :: q).takeWhile (· != ' ') = w.chars := by
    rw [takeWhile_append_of_pos fun c hc => bne_iff_ne.mpr (w.ok c hc).1]
    exact append_nil _
  rw [ilistAb_i, hdrop]
  dsimp only
  rw [skip_one, htake]
  rfl

/-- The list of the `x` flag is never right. -/
theorem elistAb_wrong (w : Word) {e : Option (List Char)} (h : elistAb ('x' :: (w.chars ++ r)) = .ok (e, q)) :
    e ≠ some w.chars := by
  obtain ⟨chars, hne, hok⟩ := w
  cases chars with
  | nil => exact absurd rfl hne
  | cons c cs =>
    dsimp only [cons_append] at h
    rw [elistAb_x] at h
    cases hs : skip 1 (cs ++ r) with
    | error f =>
      rw [hs] at h
      exact absurd h nofun
    | ok t =>
      rw [hs] at h
      obtain ⟨rfl, _⟩ := Prod.mk.inj (Except.ok.inj h)
      intro heq
      exact (hok c mem_cons_self).1 (List.cons.inj (Option.some.inj heq)).1.symm

theorem listsAb_skip (a b : Char) : listsAb true (a :: b :: r) = (do
    let i ← ilistAb r
    let x ← elistAb i.2
    pure (i.1, x.1, cmrlistAb x.2)) := by
  have hskip : listsAb true (a :: b :: r) = (do
      let q ← skip 2 (a :: b :: r)
      let i ← ilistAb q
      let x ← elistAb i.2
      pure (i.1, x.1, cmrlistAb x.2)) := rfl
  rw [hskip, skip_two]
  rfl

/-- The lists of an entry without an exclude list -/
theorem listsAb_flags : listsAb true (flags inc none cmr) = .ok (chars inc, none, chars cmr) := by
  unfold flags
  rw [flag_none, nil_append]
  cases inc with
  | none =>
    cases cmr with
    | none => rfl
    | some c =>
      rw [flag_none, flag_some, nil_append, listsAb_skip]
      rfl
  | some i =>
    rw [flag_some, cons_append, cons_append, listsAb_skip]
    cases cmr with
    | none =>
      rw [flag_none, append_nil, ilistAb_last]
      rfl
    | some c =>
      rw [flag_some, cons_append, ilistAb_next]
      rfl

theorem listsAb_exclude (e : Word) {l : Option (List Char) × Option (List Char) × Option (List Char)}
    (h : listsAb true (flags inc (some e) cmr) = .ok l) : l.2.1 ≠ some e.chars := by
  have hx {q : List Char} {i : Option (List Char)} (h : (do
      let x ← elistAb ('x' :: (e.chars ++ q))
      pure (i, x.1, cmrlistAb x.2)) = Except.ok l) : l.2.1 ≠ some e.chars := by
    cases he : elistAb ('x' :: (e.chars ++ q)) with
    | error f =>
      rw [he] at h
      exact absurd h nofun
    | ok r =>
      rw [he] at h
      obtain rfl := Except.ok.inj h
      exact elistAb_wrong e he
  unfold flags at h
  rw [flag_some] at h
  cases inc with
  | none =>
    rw [flag_none, nil_append, cons_append, cons_append, listsAb_skip] at h
    exact hx h
  | some w =>
    rw [flag_some, cons_append, cons_append, listsAb_skip, cons_append, cons_append,
      cons_append, cons_append, ilistAb_next] at h
    exact hx h

/-- Nothing is found where a digit is. -/
theorem listsAb_digit {a b d : Char} (hd : d.isDigit = true) :
    listsAb true (a :: b :: d :: r) = .ok (none, none, none) := by
  have hilist : ilistAb (d :: r) = .ok (none, d :: r) := by
    unfold ilistAb
    split
    next h =>
      rw [(List.cons.inj h).1] at hd
      exact absurd hd (by decide)
    next => rfl
  have helist : elistAb (d :: r) = .ok (none, d :: r) := by
    unfold elistAb
    split
    next h =>
      rw [(List.cons.inj h).1] at hd
      exact absurd hd (by decide)
    next => rfl
  have hcmr : cmrlistAb (d :: r) = none := by
    unfold cmrlistAb
    split
    next h =>
      rw [(List.cons.inj h).1] at hd
      exact absurd hd (by decide)
    next => rfl
  rw [listsAb_skip, hilist]
  change (do
    let x ← elistAb (d :: r)
    pure (none, x.1, cmrlistAb x.2)) = _
  rw [helist]
  change Except.ok (none, none, cmrlistAb (d :: r)) = _
  rw [hcmr]

end lists

/-! ## Entries -/

section entries

variable {z : Zone} {g n : { s : Sid // s.Ok }} {user : Login} {now : Tm} {inc exc cmr : Option Word}
  {d : List Char}

/-- An entry, with what is behind the user -/
def entry (g n : Sid) (user d : List Char) : List Char :=
  sid_ba g ++ ' ' :: (sid_ba n ++ ' ' :: (user ++ ' ' :: d))

theorem entry_ne (hd : ∀ c ∈ d, c ≠ '\n') {c : Char} (hc : c ∈ entry g.1 n.1 user.chars d) : c ≠ '\n' := by
  have hblank : (' ' : Char) ≠ '\n' := by decide
  unfold entry at hc
  rcases mem_append.mp hc with hc | hc
  · exact sid_ba_ne hc
  rcases mem_cons.mp hc with rfl | hc
  · exact hblank
  rcases mem_append.mp hc with hc | hc
  · exact sid_ba_ne hc
  rcases mem_cons.mp hc with rfl | hc
  · exact hblank
  rcases mem_append.mp hc with hc | hc
  · exact (user.ok c hc).2.1
  rcases mem_cons.mp hc with rfl | hc
  · exact hblank
  · exact hd c hc

theorem findIdx_blank (w : Word) : (w.chars ++ ' ' :: d).findIdx (· == ' ') = w.chars.length := by
  rw [findIdx_append, if_neg]
  · rw [findIdx_cons]
    exact Nat.zero_add _
  · rw [findIdx_lt_length, not_exists]
    rintro c ⟨hc, heq⟩
    exact (w.ok c hc).1 (beq_iff_eq.mp heq)

/-- The SIDs and the user are read; the rest is up to `date_ab` and the lists. -/
theorem pf_ab_entry (hd : ∀ c ∈ d, c ≠ '\n') (hlen : (entry g.1 n.1 user.chars d ++ ['\n']).length < MAXLINE) :
    pf_ab z (entry g.1 n.1 user.chars d ++ ['\n']) true = (listsAb true (date_ab z d).2).map fun l =>
      ⟨g.1, n.1, user.chars, (date_ab z d).1, l.1, l.2.1, l.2.2⟩ := by
  have hcut : (entry g.1 n.1 user.chars d ++ ['\n']).takeWhile (· != '\n') = entry g.1 n.1 user.chars d := by
    rw [takeWhile_append_of_pos fun c hc => bne_iff_ne.mpr (entry_ne hd hc)]
    exact append_nil _
  have hlt : user.chars.length < (user.chars ++ ' ' :: d).length := by
    rw [length_append, length_cons]
    omega
  have hdrop : (user.chars ++ ' ' :: d).drop (user.chars.length + 1) = d := by
    rw [drop_append, drop_eq_nil_of_le (Nat.le_succ _), Nat.add_sub_cancel_left]
    rfl
  unfold pf_ab
  rw [if_pos hlen, hcut, entry]
  dsimp only
  rw [sid_ab_ba g.2, skip_one]
  dsimp only [bind, Except.bind]
  rw [sid_ab_ba n.2, skip_one]
  dsimp only
  rw [findIdx_blank user.toWord, if_pos ⟨hlt, user.short⟩, hdrop, take_left]
  cases listsAb true (date_ab z d).2 <;> rfl

/-- The line can be printed and fits in `stmp`. -/
def Fits (g n : Sid) (user : List Char) (now : Tm) (inc exc cmr : Option (List Char)) : Prop :=
  ∃ line, wrtpfile g n user now inc exc cmr = some line ∧ line.length < MAXLINE

/-- The entry is printed, and all of it is read. -/
def ReadsBack (z : Zone) (g n : Sid) (user : List Char) (now : Tm) (inc exc cmr : Option (List Char)) : Prop :=
  ∃ line pf, wrtpfile g n user now inc exc cmr = some line ∧ pf_ab z line true = .ok pf ∧ pf.gsid = g ∧
    pf.nsid = n ∧ pf.user = user ∧ pf.ilist = inc ∧ pf.elist = exc ∧ pf.cmrlist = cmr

theorem wrtpfile_eq {line : List Char}
    (h : wrtpfile g.1 n.1 user.chars now (chars inc) (chars exc) (chars cmr) = some line) :
    line = entry g.1 n.1 user.chars (date_ba now ++ flags inc exc cmr) ++ ['\n'] := by
  unfold wrtpfile at h
  obtain ⟨_, h⟩ := Option.ite_none_right_eq_some.mp h
  rw [← Option.some.inj h, entry, flags]
  simp only [append_assoc, cons_append]

theorem do2_ne {k : ℕ} (hk : k ≤ 138) {r : List Char} (hr : ∀ c ∈ r, c ≠ '\n') : ∀ c ∈ do2 k r, c ≠ '\n' := by
  have htens : ∀ d < 14, Char.ofNat (d + 48) ≠ '\n' := by decide
  intro c hc
  rcases mem_cons.mp hc with rfl | hc
  · exact htens (k / 10) (by omega)
  rcases mem_cons.mp hc with rfl | hc
  · exact htens (k % 10) (by omega)
  · exact hr c hc

theorem cons_ne {a : Char} (ha : a ≠ '\n') {r : List Char} (hr : ∀ c ∈ r, c ≠ '\n') : ∀ c ∈ a :: r, c ≠ '\n' := by
  intro c hc
  rcases mem_cons.mp hc with rfl | hc
  · exact ha
  · exact hr c hc

theorem Tm.mday_lt (tm : Tm) : tm.mday ≤ 31 := by
  apply tm.mday_le.trans
  unfold mosize dmsize
  split
  · decide
  · split <;> decide

theorem flag_ne {c : Char} (hc : c ≠ '\n') (w : Option Word) : ∀ x ∈ flag c (chars w), x ≠ '\n' := by
  cases w with
  | none => exact fun _ hx => absurd hx not_mem_nil
  | some w =>
    rw [flag_some]
    exact cons_ne (by decide) (cons_ne (by decide) (cons_ne hc fun x hx => (w.ok x hx).2.1))

theorem date_flags_ne (now : Tm) (inc exc cmr : Option Word) :
    ∀ c ∈ date_ba now ++ flags inc exc cmr, c ≠ '\n' := by
  have hmon := now.mon_lt
  have hmday := now.mday_lt
  have hhour := now.hour_lt
  have hmin := now.min_lt
  have hsec := now.sec_le
  intro c hc
  rcases mem_append.mp hc with hc | hc
  · exact do2_ne now.year_le (cons_ne (by decide) (do2_ne (by omega) (cons_ne (by decide) (do2_ne (by omega)
      (cons_ne (by decide) (do2_ne (by omega) (cons_ne (by decide) (do2_ne (by omega) (cons_ne (by decide)
      (do2_ne (by omega) fun _ hc => absurd hc not_mem_nil)))))))))) c hc
  · rcases mem_append.mp hc with hc | hc
    · exact flag_ne (by decide) inc c hc
    rcases mem_append.mp hc with hc | hc
    · exact flag_ne (by decide) exc c hc
    · exact flag_ne (by decide) cmr c hc

theorem chars_eq_none {w : Option Word} : chars w = none ↔ w = none := Option.map_eq_none_iff

/-- What is read behind the user -/
theorem lists_iff : (∃ l, listsAb true (date_ab z (date_ba now ++ flags inc exc cmr)).2 = .ok l ∧
      l.1 = chars inc ∧ l.2.1 = chars exc ∧ l.2.2 = chars cmr) ↔
    (inc = none ∧ exc = none ∧ cmr = none) ∨ (70 ≤ now.year ∧ now.year ≤ 99 ∧ exc = none) := by
  by_cases hyear : now.year < 70 ∨ 100 ≤ now.year
  · have hdigit : (Char.ofNat ((now.mon + 1) % 10 + 48)).isDigit = true := (digit_all _ (by omega)).1
    have hlists : listsAb true (afterYear now (flags inc exc cmr)) = .ok (none, none, none) :=
      listsAb_digit hdigit
    rw [date_ab_year hyear, hlists]
    constructor
    · rintro ⟨l, heq, hi, hx, hc⟩
      obtain rfl := Except.ok.inj heq
      exact .inl ⟨chars_eq_none.mp hi.symm, chars_eq_none.mp hx.symm, chars_eq_none.mp hc.symm⟩
    · rintro (⟨rfl, rfl, rfl⟩ | ⟨hlo, hhi, _⟩)
      · exact ⟨_, rfl, rfl, rfl, rfl⟩
      · omega
  · obtain ⟨t, hdate⟩ := @date_ab_ba z now (flags inc exc cmr) (by omega) (by omega)
    rw [hdate]
    cases exc with
    | some e =>
      constructor
      · rintro ⟨l, heq, _, hx, _⟩
        exact absurd hx (listsAb_exclude e heq)
      · rintro (⟨_, hx, _⟩ | ⟨_, _, hx⟩)
        · exact absurd hx nofun
        · exact absurd hx nofun
    | none =>
      refine iff_of_true ?_ (.inr ⟨by omega, by omega, rfl⟩)
      exact ⟨_, listsAb_flags, rfl, rfl, rfl⟩

/-- What is read back was printed with lists that are read. -/
theorem ReadsBack.lists
    (h : ReadsBack z g.1 n.1 user.chars now (chars inc) (chars exc) (chars cmr)) :
    Fits g.1 n.1 user.chars now (chars inc) (chars exc) (chars cmr) ∧
      ∃ l, listsAb true (date_ab z (date_ba now ++ flags inc exc cmr)).2 = .ok l ∧ l.1 = chars inc ∧
        l.2.1 = chars exc ∧ l.2.2 = chars cmr := by
  obtain ⟨line, pf, hline, hpf, _, _, _, hi, hx, hc⟩ := h
  have hlen : line.length < MAXLINE := by
    by_contra hlong
    rw [pf_ab, if_neg hlong] at hpf
    exact absurd hpf nofun
  refine ⟨⟨line, hline, hlen⟩, ?_⟩
  rw [wrtpfile_eq hline] at hlen hpf
  rw [pf_ab_entry (date_flags_ne now inc exc cmr) hlen] at hpf
  cases hlists : listsAb true (date_ab z (date_ba now ++ flags inc exc cmr)).2 with
  | error f =>
    rw [hlists] at hpf
    exact absurd hpf nofun
  | ok l =>
    rw [hlists] at hpf
    obtain rfl := Except.ok.inj hpf
    exact ⟨l, rfl, hi, hx, hc⟩

end entries

/-- An entry is read back just if it fits, and it has no lists, or a year from 1970 to 1999 and no exclude
list. -/
theorem pf_ab_reads_back (z : Zone) (g n : { s : Sid // s.Ok }) (user : Login) (now : Tm)
    (inc exc cmr : Option Word) :
    ReadsBack z g.1 n.1 user.chars now (chars inc) (chars exc) (chars cmr) ↔
      Fits g.1 n.1 user.chars now (chars inc) (chars exc) (chars cmr) ∧
        ((inc = none ∧ exc = none ∧ cmr = none) ∨ (70 ≤ now.year ∧ now.year ≤ 99 ∧ exc = none)) := by
  rw [← lists_iff (z := z)]
  constructor
  · exact ReadsBack.lists
  · rintro ⟨⟨line, hline, hlen⟩, l, hlists, hi, hx, hc⟩
    rw [wrtpfile_eq hline] at hlen
    have hpf := pf_ab_entry (z := z) (date_flags_ne now inc exc cmr) hlen
    rw [hlists, ← wrtpfile_eq hline] at hpf
    exact ⟨line, _, hline, hpf, rfl, rfl, rfl, hi, hx, hc⟩

/-- The exclude list 1.3 is not read back. -/
theorem exclude_list_lost : ¬∀ z (g n : { s : Sid // s.Ok }) (user : Login) now (inc exc cmr : Option Word),
    ReadsBack z g.1 n.1 user.chars now (chars inc) (chars exc) (chars cmr) := by
  intro h
  have hread := h ⟨0, fun _ => false⟩ ⟨⟨1, 1, 0, 0⟩, fun _ => rfl⟩ ⟨⟨1, 2, 0, 0⟩, fun _ => rfl⟩
    ⟨⟨['u'], nofun, by simp⟩, by decide⟩
    ⟨86, 0, 1, 0, 0, 0, by decide, by decide, by decide, by decide, by decide, by decide, by decide⟩
    none (some ⟨['1', '.', '3'], nofun, by simp⟩) none
  rcases lists_iff.mp hread.lists.2 with ⟨_, hx, _⟩ | ⟨_, _, hx⟩
  · exact absurd hx nofun
  · exact absurd hx nofun

end Svr3.Sccs
