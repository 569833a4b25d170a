import Svr3.Sccs.Checksum
import Svr3.Sccs.Choices
import Svr3.Sccs.WeaveRead

/-!
# Reading a new entry

`dodelt` reads the lists that `mkixg` printed, if each of them fits into the line of the packet, and keeps their
length in a character. A longer line is cut, and what is behind the cut is no control record.
-/

namespace Svr3.Sccs

open Function List

/-! ## A list -/

section list

variable {ns : List ℕ} {n k : ℕ} {p : List Char}

/-- The printed serial numbers -/
def sers (ns : List ℕ) : List Char := ns.flatMap (fun n => ' ' :: digits n) ++ ['\n']

theorem sers_cons : sers (n :: ns) = ' ' :: (digits n ++ sers ns) := by
  rw [sers, flatMap_cons, append_assoc]
  rfl

theorem sers_noDigit (ns : List ℕ) : NoDigit (sers ns) := by
  cases ns with
  | nil => exact noDigit_cons (by decide)
  | cons n ns =>
    rw [sers_cons]
    exact noDigit_cons (by decide)

theorem nonblank_blank : nonblank (' ' :: p) = nonblank p := dropWhile_cons_of_pos (by decide)

theorem nonblank_of_not {c : Char} (h : ¬(c == ' ' || c == '\t') = true) : nonblank (c :: p) = c :: p :=
  dropWhile_cons_of_neg h

theorem digits_cons (n : ℕ) : ∃ c ds, digits n = c :: ds ∧ c.isDigit = true := by
  cases hd : digits n with
  | nil => exact absurd hd Nat.toDigits_ne_nil
  | cons c ds => exact ⟨c, ds, rfl, mem_digits (n := n) (hd ▸ mem_cons_self)⟩

theorem nonblank_digits (n : ℕ) (p : List Char) : nonblank (digits n ++ p) = digits n ++ p := by
  obtain ⟨c, ds, hd, hdigit⟩ := digits_cons n
  rw [hd, cons_append]
  apply nonblank_of_not
  intro hc
  rcases Bool.or_eq_true_iff.mp hc with hc | hc
  all_goals
    rw [beq_iff_eq.mp hc] at hdigit
    exact absurd hdigit (by decide)

theorem satoi_printed (hn : n < 2 ^ 31) (hp : NoDigit p) : (satoi (digits n ++ p)).1.toNat = n ∧
    (satoi (digits n ++ p)).2 = p := by
  have h := number_digits (R := BitVec 32) hp n
  rw [BitVec.natCast_eq_ofNat] at h
  change (number (0 : BitVec 32) (digits n ++ p)).1.toNat = n ∧ (number (0 : BitVec 32) (digits n ++ p)).2 = p
  rw [h]
  refine ⟨?_, rfl⟩
  rw [BitVec.toNat_ofNat]
  apply Nat.mod_eq_of_lt
  omega

theorem serials_sers (hns : ∀ n ∈ ns, n < 2 ^ 31) (hk : ns.length ≤ k) : serials k (nonblank (sers ns)) = ns := by
  induction ns generalizing k with
  | nil => cases k <;> rfl
  | cons n ns ih =>
    cases k with
    | zero => exact absurd hk (Nat.not_succ_le_zero _)
    | succ k =>
      obtain ⟨hn, hns'⟩ := forall_mem_cons.mp hns
      obtain ⟨hval, hrest⟩ := satoi_printed hn (sers_noDigit ns)
      rw [sers_cons, nonblank_blank, nonblank_digits]
      obtain ⟨c, ds, hd, hdigit⟩ := digits_cons n
      rw [hd, cons_append] at hval hrest ⊢
      rw [serials, if_pos hdigit, hval, hrest, ih hns' (Nat.le_of_succ_le_succ hk)]

theorem length_sers (ns : List ℕ) : ns.length ≤ (nonblank (sers ns)).length := by
  have hle (ns : List ℕ) : ns.length < (sers ns).length := by
    induction ns with
    | nil => exact Nat.one_pos
    | cons n ns ih =>
      rw [sers_cons, length_cons, length_cons, length_append]
      omega
  cases ns with
  | nil => exact Nat.zero_le _
  | cons n ns =>
    obtain ⟨c, ds, hd, -⟩ := digits_cons n
    have hrest := hle ns
    rw [sers_cons, nonblank_blank, nonblank_digits, hd, length_append, length_cons, length_cons]
    omega

/-- The line of a list -/
def ixgLine (ch : Char) (ns : List ℕ) : List Char := CTLCHAR :: ch :: sers ns

theorem doixg_line (ch : Char) (hns : ∀ n ∈ ns, n < 2 ^ 31) :
    doixg (ixgLine ch ns) = ⟨ch, BitVec.ofNat 8 ns.length, ns⟩ := by
  change (⟨ch, BitVec.ofNat 8 (serials (nonblank (sers ns)).length (nonblank (sers ns))).length,
    serials (nonblank (sers ns)).length (nonblank (sers ns))⟩ : Ixg) = _
  rw [serials_sers hns (length_sers ns)]

/-- What is behind the type is no control character. -/
theorem mem_sers {c : Char} (h : c ∈ sers ns) : c ≠ CTLCHAR := by
  rcases mem_append.mp h with h | h
  · obtain ⟨n, -, h⟩ := mem_flatMap.mp h
    rcases mem_cons.mp h with rfl | h
    · decide
    · rintro rfl
      exact absurd (mem_digits h) (by decide)
  · obtain rfl := mem_singleton.mp h
    decide

end list

/-! ## Lines -/

section lines

variable {ns : List ℕ} {ch : Char} {k n : ℕ}

theorem newline_flatMap (ns : List ℕ) : '\n' ∉ ns.flatMap (fun n => ' ' :: digits n) := by
  intro h
  obtain ⟨n, -, h⟩ := mem_flatMap.mp h
  rcases mem_cons.mp h with h | h
  · exact absurd h (by decide)
  · exact absurd (mem_digits h) (by decide)

/-- A line that is too long is cut. -/
theorem fgets_long {l p : List Char} (hl : '\n' ∉ l) (hlen : n ≤ l.length) :
    fgets n (l ++ p) = (l.take n, l.drop n ++ p) := by
  induction l generalizing n with
  | nil =>
    obtain rfl := Nat.le_zero.mp hlen
    rfl
  | cons c l ih =>
    rw [mem_cons, not_or] at hl
    cases n with
    | zero => rfl
    | succ n =>
      rw [cons_append, fgets, if_neg (Ne.symm hl.1), ih hl.2 (Nat.le_of_succ_le_succ hlen)]
      rfl

theorem fetched_short (hch : ch ≠ '\n') (hlen : (ixgLine ch ns).length < BUFSIZ) :
    fetched (ixgLine ch ns).length (ixgLine ch ns) = [ixgLine ch ns] := by
  have hnl : '\n' ∉ CTLCHAR :: ch :: ns.flatMap (fun n => ' ' :: digits n) := by
    rw [mem_cons, mem_cons, not_or, not_or]
    exact ⟨by decide, hch.symm, newline_flatMap ns⟩
  have hline : ixgLine ch ns = (CTLCHAR :: ch :: ns.flatMap (fun n => ' ' :: digits n)) ++ '\n' :: [] := rfl
  have hgets : fgets (BUFSIZ - 1) (ixgLine ch ns) = (ixgLine ch ns, []) := by
    have hlen' := hlen
    rw [hline, length_append, length_singleton] at hlen'
    rw [hline]
    exact fgets_line hnl (Nat.lt_sub_of_add_lt hlen')
  cases hk : (ixgLine ch ns).length with
  | zero => exact absurd hk (Nat.succ_ne_zero _)
  | succ k =>
    rw [fetched, if_neg nofun, hgets]
    cases k <;> rfl

variable (ns ch) in
theorem fetched_long (hch : ch ≠ '\n') (hlen : BUFSIZ ≤ (ixgLine ch ns).length) : ∃ l1 l2 ls,
    fetched (ixgLine ch ns).length (ixgLine ch ns) = (CTLCHAR :: ch :: l1) :: l2 :: ls ∧
      l2.head? ≠ some CTLCHAR := by
  have hnl : '\n' ∉ CTLCHAR :: ch :: ns.flatMap (fun n => ' ' :: digits n) := by
    rw [mem_cons, mem_cons, not_or, not_or]
    exact ⟨by decide, hch.symm, newline_flatMap ns⟩
  have hlen' : BUFSIZ - 1 ≤ (CTLCHAR :: ch :: ns.flatMap (fun n => ' ' :: digits n)).length := by
    rw [ixgLine, sers, length_cons, length_cons, length_append, length_singleton] at hlen
    rw [length_cons, length_cons]
    omega
  have hgets := fgets_long (p := ['\n']) hnl hlen'
  have hline : (CTLCHAR :: ch :: ns.flatMap (fun n => ' ' :: digits n)) ++ ['\n'] = ixgLine ch ns := rfl
  rw [hline] at hgets
  -- what is left when the line is cut
  have hleft : ∃ c p, (CTLCHAR :: ch :: ns.flatMap (fun n => ' ' :: digits n)).drop (BUFSIZ - 1) ++ ['\n'] = c :: p ∧
      c ≠ CTLCHAR := by
    have hdrop : (CTLCHAR :: ch :: ns.flatMap (fun n => ' ' :: digits n)).drop (BUFSIZ - 1) ++ ['\n'] =
        (sers ns).drop (BUFSIZ - 3) := by
      change (ns.flatMap (fun n => ' ' :: digits n)).drop (BUFSIZ - 3) ++ ['\n'] = _
      rw [sers, drop_append_of_le_length]
      rw [length_cons, length_cons] at hlen'
      change BUFSIZ - 1 - 2 ≤ _
      omega
    rw [hdrop]
    cases hs : (sers ns).drop (BUFSIZ - 3) with
    | nil =>
      rw [hs] at hdrop
      exact absurd hdrop (append_ne_nil_of_right_ne_nil _ nofun)
    | cons c p =>
      have hmem : c ∈ (sers ns).drop (BUFSIZ - 3) := by
        rw [hs]
        exact mem_cons_self
      exact ⟨c, p, rfl, mem_sers (mem_of_mem_drop hmem)⟩
  obtain ⟨c, p, hleft, hc⟩ := hleft
  cases hk : (ixgLine ch ns).length with
  | zero => exact absurd hk (Nat.succ_ne_zero _)
  | succ k =>
    cases k with
    | zero => exact absurd hk (by rw [hk] at hlen; exact absurd hlen (by decide))
    | succ k =>
      rw [fetched, if_neg nofun, hgets, hleft, fetched, if_neg nofun]
      refine ⟨_, _, _, rfl, ?_⟩
      change (fgets (BUFSIZ - 2 + 1) (c :: p)).1.head? ≠ _
      rw [fgets]
      split
      · exact fun h => hc (Option.some.inj h)
      · exact fun h => hc (Option.some.inj h)

end lines

/-! ## The new entry -/

section entry

variable {ls : List (List Char)} {xs ys : List Ixg} {ch : Char} {k m : ℕ} {pkt : Deltas} {d : NewDelta}

/-- A type of a list -/
def IsType (ch : Char) : Prop := ch = INCLUDE ∨ ch = EXCLUDE ∨ ch = IGNORE

theorem IsType.ne (h : IsType ch) : ch ≠ '\n' ∧ ch ≠ EDELTAB ∧ ch ≠ COMMENTS ∧ ch ≠ MRNUM := by
  rcases h with rfl | rfl | rfl <;> decide

theorem readLines_list {ch : Char} {l : List Char} (h : IsType ch) :
    readLines true ((CTLCHAR :: ch :: l) :: ls) xs k =
      readLines true ls (xs ++ [doixg (CTLCHAR :: ch :: l)]) (k + 1) := by
  obtain ⟨-, hend, hcom, hmr⟩ := h.ne
  have hhead : ¬(CTLCHAR :: ch :: l).head? ≠ some CTLCHAR := not_not.mpr rfl
  have htype : ch = INCLUDE ∨ ch = EXCLUDE ∨ ch = IGNORE := h
  rw [readLines, if_neg hhead]
  change (if ch = EDELTAB then _ else if ch = COMMENTS ∨ ch = MRNUM then _ else if ch = INCLUDE ∨ ch = EXCLUDE ∨
    ch = IGNORE then _ else _) = _
  rw [if_neg hend, if_neg (not_or.mpr ⟨hcom, hmr⟩), if_pos htype, if_pos rfl]

variable (xs k) in
theorem readLines_notes (notes : List Note) :
    ∃ m, readLines true (notes.map Subtype.val ++ [edeltab]) xs k = .ok (xs, m) := by
  induction notes generalizing k with
  | nil => exact ⟨k + 1, rfl⟩
  | cons l notes ih =>
    obtain ⟨m, hm⟩ := ih (k := k + 1)
    refine ⟨m, ?_⟩
    have hend : l.1.tail.headD '\x00' ≠ EDELTAB := by
      rcases l.2.2 with h | h
      all_goals
        rw [h]
        decide
    rw [map_cons, cons_append, readLines, if_neg (not_not.mpr l.2.1)]
    dsimp only
    rw [if_neg hend, if_pos l.2.2, hm]

/-- The lists that the user gave, by reason and type -/
def given (d : NewDelta) : List (BitVec 32 × Char) :=
  (if d.ilist.isSome then [(INCLUSER, INCLUDE)] else []) ++
    ((if d.elist.isSome then [(EXCLUSER, EXCLUDE)] else []) ++
      (if d.glist.isSome then [(IGNRUSER, IGNORE)] else []))

theorem given_type {g : BitVec 32 × Char} (h : g ∈ given d) : IsType g.2 := by
  have hone {b : Bool} {x : BitVec 32 × Char} (h : g ∈ (if b then [x] else [])) : g = x := by
    cases b with
    | true => exact mem_singleton.mp h
    | false => exact absurd h not_mem_nil
  rcases mem_append.mp h with h | h
  · exact .inl (congrArg Prod.snd (hone h))
  · rcases mem_append.mp h with h | h
    · exact .inr (.inl (congrArg Prod.snd (hone h)))
    · exact .inr (.inr (congrArg Prod.snd (hone h)))

/-- The lines of a given list -/
def givenLines (pkt : Deltas) (g : BitVec 32 × Char) : List (List Char) :=
  fetched (mkixg g.1 g.2 pkt).length (mkixg g.1 g.2 pkt)

/-- The entry of the new delta -/
def newEntry (d : NewDelta) (pkt : Deltas) : Entry :=
  ⟨newDeltab d pkt (ser_inc d - 1), (given d).flatMap (givenLines pkt) ++ (d.notes.map Subtype.val ++ [edeltab])⟩

theorem mkdelt_eq (d : NewDelta) (pkt : Deltas) :
    mkdelt d pkt = newEntry d pkt :: nullEntries d pkt (ser_inc d - 1) := by
  have hone (arg : Option (List Char)) (reason : BitVec 32) (ch : Char) : ixgLines arg reason ch pkt =
      (if arg.isSome then [(reason, ch)] else []).flatMap (givenLines pkt) := by
    rw [ixgLines]
    cases arg with
    | none => rfl
    | some l => exact (append_nil _).symm
  rw [mkdelt, newEntry, given, flatMap_append, flatMap_append, ← hone, ← hone, ← hone, append_assoc,
    append_assoc]

/-- The list that `doixg` keeps -/
def givenIxg (pkt : Deltas) (g : BitVec 32 × Char) : Ixg :=
  ⟨g.2, BitVec.ofNat 8 (listed g.1 pkt).length, listed g.1 pkt⟩

theorem mem_down {n m : ℕ} : m ∈ down n ↔ 0 < m ∧ m ≤ n := by
  induction n with
  | zero =>
    rw [down]
    exact ⟨fun h => absurd h not_mem_nil, fun h => absurd h.1 (Nat.not_lt.mpr h.2)⟩
  | succ n ih =>
    rw [down, mem_cons, ih]
    omega

theorem mem_listed {reason : BitVec 32} {n : ℕ} :
    n ∈ listed reason pkt ↔ (0 < n ∧ n ≤ pkt.maxser) ∧ (pkt.apply n).reason = reason := by
  rw [listed, mem_filter, mem_down, decide_eq_true_iff]

variable (ls xs k) in
/-- The lists are read if each fits into a line. -/
theorem readLines_given (hmax : pkt.maxser < 2 ^ 31) {gs : List (BitVec 32 × Char)} (hgs : ∀ g ∈ gs, IsType g.2) :
    (∃ m, readLines true (gs.flatMap (givenLines pkt) ++ ls) xs k =
        readLines true ls (xs ++ gs.map (givenIxg pkt)) m) ∧
      (∀ g ∈ gs, (mkixg g.1 g.2 pkt).length < BUFSIZ) ∨
    (∃ e, readLines true (gs.flatMap (givenLines pkt) ++ ls) xs k = .error e) ∧
      ∃ g ∈ gs, BUFSIZ ≤ (mkixg g.1 g.2 pkt).length := by
  induction gs generalizing xs k with
  | nil =>
    refine .inl ⟨⟨k, ?_⟩, fun g hg => absurd hg not_mem_nil⟩
    rw [map_nil, append_nil]
    rfl
  | cons g gs ih =>
    obtain ⟨htype, hgs'⟩ := forall_mem_cons.mp hgs
    have hns : ∀ n ∈ listed g.1 pkt, n < 2 ^ 31 := fun n hn =>
      Nat.lt_of_le_of_lt (mem_listed.mp hn).1.2 hmax
    rcases Nat.lt_or_ge (mkixg g.1 g.2 pkt).length BUFSIZ with hlen | hlen
    · have hlines : givenLines pkt g = [ixgLine g.2 (listed g.1 pkt)] := fetched_short htype.ne.1 hlen
      have hread : readLines true ((g :: gs).flatMap (givenLines pkt) ++ ls) xs k =
          readLines true (gs.flatMap (givenLines pkt) ++ ls) (xs ++ [givenIxg pkt g]) (k + 1) := by
        rw [flatMap_cons, hlines]
        change readLines true ((CTLCHAR :: g.2 :: sers (listed g.1 pkt)) :: _) xs k = _
        rw [readLines_list htype]
        change readLines true _ (xs ++ [doixg (ixgLine g.2 (listed g.1 pkt))]) _ = _
        rw [doixg_line g.2 hns]
        rfl
      rw [hread]
      rcases @ih (xs ++ [givenIxg pkt g]) (k + 1) hgs' with ⟨⟨m, hm⟩, hall⟩ | ⟨herr, g', hg', hlong⟩
      · refine .inl ⟨⟨m, ?_⟩, forall_mem_cons.mpr ⟨hlen, hall⟩⟩
        rw [hm, append_assoc]
        rfl
      · exact .inr ⟨herr, g', mem_cons_of_mem g hg', hlong⟩
    · obtain ⟨l1, l2, ls', hlines, hhead⟩ := fetched_long (listed g.1 pkt) g.2 htype.ne.1 hlen
      refine .inr ⟨⟨formatError (k + 1 + 1), ?_⟩, g, mem_cons_self, hlen⟩
      have hlines' : givenLines pkt g = (CTLCHAR :: g.2 :: l1) :: l2 :: ls' := hlines
      rw [flatMap_cons, hlines', cons_append, cons_append, cons_append, cons_append,
        readLines_list htype, readLines, if_pos hhead]

/-- What the lines give does not depend on where they are. -/
theorem readLines_slnno {b : Bool} (h : readLines b ls xs k = .ok (ys, m)) (k' : ℕ) :
    ∃ m', readLines b ls xs k' = .ok (ys, m') := by
  induction ls generalizing xs k k' with
  | nil => exact absurd h nofun
  | cons l ls ih =>
    rw [readLines] at h ⊢
    split at h
    next => exact absurd h nofun
    next hhead =>
      rw [if_neg hhead]
      dsimp only at h ⊢
      split at h
      next hc =>
        rw [if_pos hc]
        obtain ⟨rfl, -⟩ := Prod.mk.inj (Except.ok.inj h)
        exact ⟨k' + 1, rfl⟩
      next hc =>
        rw [if_neg hc]
        split at h
        next hc =>
          rw [if_pos hc]
          exact ih h _
        next hc =>
          rw [if_neg hc]
          split at h
          next hc =>
            rw [if_pos hc]
            exact ih h _
          next => exact absurd h nofun

end entry

/-! ## The new table -/

section table

variable {es : List Entry} {a b p : Deltas} {d : NewDelta} {q : Deltas}

/-- `b` has room for more deltas than `a`. -/
structure Larger (a b : Deltas) : Prop where
  maxser : a.maxser ≤ b.maxser
  idel : ∀ n ≤ a.maxser, b.idel n = a.idel n

theorem readEntry_larger {e : Entry} (h : Larger a b) (hok : readEntry e a = .ok p) :
    ∃ r, readEntry e b = .ok r ∧ p.maxser = a.maxser ∧ p.apply = a.apply ∧ p.cutoff = a.cutoff ∧
      r.maxser = b.maxser ∧ r.apply = b.apply ∧ r.cutoff = b.cutoff ∧ Larger p r ∧
      ∀ n, a.maxser < n → r.idel n = b.idel n := by
  rw [readEntry] at hok
  rw [readEntry]
  split at hok
  next htype =>
    rw [if_pos htype]
    split at hok
    next hle =>
      rw [if_pos (Nat.le_trans hle h.maxser), h.idel _ hle]
      cases hread : readLines true e.lines (a.idel e.dt.serial).ixg (a.slnno + 1) with
      | error f =>
        rw [hread] at hok
        exact absurd hok nofun
      | ok ym =>
        obtain ⟨ys, m⟩ := ym
        rw [hread] at hok
        obtain rfl := Except.ok.inj hok
        obtain ⟨m', hm'⟩ := readLines_slnno hread (b.slnno + 1)
        rw [hm']
        refine ⟨_, rfl, rfl, rfl, rfl, rfl, rfl, rfl, ⟨h.maxser, fun n hn => ?_⟩, fun n hn => ?_⟩
        · by_cases heq : n = e.dt.serial
          · subst heq
            dsimp only
            rw [update_self, update_self]
          · dsimp only
            rw [update_of_ne heq, update_of_ne heq]
            exact h.idel n hn
        · dsimp only
          rw [update_of_ne (by omega)]
    next => exact absurd hok nofun
  next htype =>
    rw [if_neg htype]
    cases hread : readLines false e.lines [] (a.slnno + 1) with
    | error f =>
      rw [hread] at hok
      exact absurd hok nofun
    | ok ym =>
      obtain ⟨ys, m⟩ := ym
      rw [hread] at hok
      obtain rfl := Except.ok.inj hok
      obtain ⟨m', hm'⟩ := readLines_slnno hread (b.slnno + 1)
      rw [hm']
      exact ⟨_, rfl, rfl, rfl, rfl, rfl, rfl, rfl, ⟨h.maxser, h.idel⟩, fun n hn => rfl⟩

/-- The old entries are read as before. -/
theorem readEntries_larger (h : Larger a b) (hok : readEntries es a = .ok p) :
    ∃ r, readEntries es b = .ok r ∧ p.maxser = a.maxser ∧ p.apply = a.apply ∧ p.cutoff = a.cutoff ∧
      r.maxser = b.maxser ∧ r.apply = b.apply ∧ r.cutoff = b.cutoff ∧ Larger p r ∧
      ∀ n, a.maxser < n → r.idel n = b.idel n := by
  induction es generalizing a b with
  | nil =>
    obtain rfl := Except.ok.inj hok
    exact ⟨b, rfl, rfl, rfl, rfl, rfl, rfl, rfl, h, fun n hn => rfl⟩
  | cons e es ih =>
    rw [readEntries] at hok
    cases ho : readEntry e a with
    | error f =>
      rw [ho] at hok
      exact absurd hok nofun
    | ok o =>
      rw [ho] at hok
      obtain ⟨o', ho', hmax, happ, hcut, hmax', happ', hcut', hlarger, hnew⟩ := readEntry_larger h ho
      obtain ⟨r, hr, h1, h2, h3, h4, h5, h6, h7, h8⟩ := ih hlarger hok
      refine ⟨r, ?_, h1.trans hmax, h2.trans happ, h3.trans hcut, h4.trans hmax', h5.trans happ', h6.trans hcut', h7,
        fun n hn => ?_⟩
      · rw [readEntries, ho']
        exact hr
      · rw [h8 n (by omega), hnew n hn]

end table

end Svr3.Sccs
