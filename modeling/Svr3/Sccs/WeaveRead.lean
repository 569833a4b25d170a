import Svr3.Sccs.Weave

/-!
# What is shown of a body

The lines of a well bracketed body are typed. Which brackets are open at a line does not depend on the apply
vector; the line is shown if the first open bracket that says anything keeps it. `readmod` yields the shown
lines.
-/

namespace Svr3.Sccs

open List

/-- The letter of a bracket -/
inductive Iord
  | ins
  | del
  deriving DecidableEq

def Iord.chr : Iord → Char
  | .ins => INS
  | .del => DEL

/-- A line of text, which is no control record -/
abbrev Text := { l : List Char // l.head? ≠ some CTLCHAR }

inductive Line
  | text (l : Text)
  | start (i : Iord) (ser : ℕ)
  | stop (ser : ℕ)

/-- A control record as `delta` prints it -/
def ctlLine (c : Char) (ser : ℕ) : List Char := CTLCHAR :: c :: ' ' :: (digits ser ++ ['\n'])

def Line.chars : Line → List Char
  | .text l => l.1
  | .start i ser => ctlLine i.chr ser
  | .stop ser => ctlLine END ser

/-! ## Brackets -/

/-- An open bracket, with its serial number -/
structure Open where
  ser : ℕ
  iord : Iord
  deriving DecidableEq

def addOpen (new : Open) : List Open → Option (List Open)
  | [] => some [new]
  | cur :: o =>
    if cur.ser ≤ new.ser then if cur.ser = new.ser then none else some (new :: cur :: o)
    else (addOpen new o).map (cur :: ·)

def remOpen (ser : ℕ) : List Open → Option (List Open)
  | [] => none
  | cur :: o => if cur.ser = ser then some o else (remOpen ser o).map (cur :: ·)

/-- What an open bracket says about its lines -/
def Open.keep (v : Apply) (x : Open) : Keep :=
  match x.iord with
  | .ins => if v x.ser then .yes else .no
  | .del => if v x.ser then .no else .null

/-- Whether a line between the brackets is shown -/
def visible (v : Apply) : List Open → Bool
  | [] => false
  | x :: o => match x.keep v with
    | .null => visible v o
    | .yes => true
    | .no => false

/-- The brackets behind a line -/
def Line.opens (maxser : ℕ) : Line → List Open → Option (List Open)
  | .text _, o => some o
  | .start i ser, o => if 0 < ser ∧ ser ≤ maxser then addOpen ⟨ser, i⟩ o else none
  | .stop ser, o => if 0 < ser ∧ ser ≤ maxser then remOpen ser o else none

/-- The line, if it is shown -/
def Line.shown (v : Apply) (o : List Open) : Line → List (List Char)
  | .text t => if visible v o then [t.1] else []
  | _ => []

/-- The lines that are shown, and the brackets that are open at the end -/
def scan (maxser : ℕ) (v : Apply) : List Line → List Open → Option (List (List Char) × List Open)
  | [], o => some ([], o)
  | l :: ls, o => (l.opens maxser o).bind fun o' => (scan maxser v ls o').map fun r => (l.shown v o ++ r.1, r.2)

/-- Every bracket is closed, and none is opened twice. -/
def Bracketed (maxser : ℕ) (ls : List Line) : Prop := ∃ r, scan maxser (fun _ => false) ls [] = some (r, [])

/-! ## Control records -/

section control

variable {maxser ser : ℕ} {c : Char}

theorem control_ctlLine (hser : ser < 2 ^ 31) : control (ctlLine c ser).tail = (c, (ser : ℤ), ['\n']) := by
  have hblank : nonblank (' ' :: (digits ser ++ ['\n'])) = digits ser ++ ['\n'] := by
    unfold nonblank
    rw [dropWhile_cons_of_pos (by decide)]
    cases hd : digits ser with
    | nil => exact absurd hd Nat.toDigits_ne_nil
    | cons d ds =>
      have hdigit : d.isDigit = true := mem_digits (n := ser) (hd ▸ mem_cons_self)
      rw [cons_append, dropWhile_cons_of_neg]
      intro hc
      rcases Bool.or_eq_true_iff.mp hc with hc | hc
      · rw [beq_iff_eq.mp hc] at hdigit
        exact absurd hdigit (by decide)
      · rw [beq_iff_eq.mp hc] at hdigit
        exact absurd hdigit (by decide)
  have hnum : satoi (digits ser ++ ['\n']) = (BitVec.ofNat 32 ser, ['\n']) := by
    have h := number_digits (R := BitVec 32) (r := ['\n']) (noDigit_cons (by decide)) ser
    rw [BitVec.natCast_eq_ofNat] at h
    exact h
  have hint : (BitVec.ofNat 32 ser).toInt = ser := by
    have hnat : (BitVec.ofNat 32 ser).toNat = ser := by
      rw [BitVec.toNat_ofNat]
      apply Nat.mod_eq_of_lt
      omega
    rw [BitVec.toInt_eq_toNat_of_lt (by rw [hnat]; omega), hnat]
  change (c, (satoi (nonblank (' ' :: (digits ser ++ ['\n'])))).1.toInt,
    (satoi (nonblank (' ' :: (digits ser ++ ['\n'])))).2) = _
  rw [hblank, hnum, hint]

theorem ctlLine_head : (ctlLine c ser).head? = some CTLCHAR := rfl

end control

/-! ## Queue and brackets -/

section queue

variable {v : Apply} {o o' : List Open} {x : Open} {ser : ℕ}

/-- The entry of the queue -/
def Open.entry (v : Apply) (x : Open) : Queue := ⟨x.ser, x.keep v, x.iord.chr⟩

theorem addq_entries (x : Open) (o : List Open) :
    addq (x.entry v) (o.map (Open.entry v)) = (addOpen x o).map (List.map (Open.entry v)) := by
  induction o with
  | nil => rfl
  | cons y o ih =>
    change (if y.ser ≤ x.ser then if y.ser = x.ser then none else some (x.entry v :: y.entry v :: o.map (Open.entry v))
      else (addq (x.entry v) (o.map (Open.entry v))).map (y.entry v :: ·)) = _
    rw [ih, addOpen]
    split
    · split <;> rfl
    · rw [Option.map_map, Option.map_map]
      rfl

theorem remq_entries (ser : ℕ) (o : List Open) :
    remq ser (o.map (Open.entry v)) = (remOpen ser o).map (List.map (Open.entry v)) := by
  induction o with
  | nil => rfl
  | cons y o ih =>
    change (if y.ser = ser then some (o.map (Open.entry v))
      else (remq ser (o.map (Open.entry v))).map (y.entry v :: ·)) = _
    rw [ih, remOpen]
    split
    · rfl
    · rw [Option.map_map, Option.map_map]
      rfl

theorem setkeep_entries (v : Apply) (o : List Open) :
    setkeep (o.map (Open.entry v)) = .yes ↔ visible v o = true := by
  induction o with
  | nil => exact ⟨nofun, nofun⟩
  | cons x o ih =>
    change (if x.keep v = .null then setkeep (o.map (Open.entry v)) else x.keep v) = .yes ↔ _
    rw [visible]
    cases x.keep v with
    | null => exact ih
    | yes => exact ⟨fun _ => rfl, fun _ => rfl⟩
    | no => exact ⟨nofun, nofun⟩

end queue

/-! ## Reading a body -/

section reading

variable {maxser : ℕ} {v : Apply} {b : Body} {o o' : List Open} {ls : List Line} {r : List (List Char)}

/-- The packet has read the brackets `o`. -/
structure Reads (v : Apply) (b : Body) (o : List Open) : Prop where
  q : b.q = o.map (Open.entry v)
  keep : b.keep = .yes ↔ visible v o = true

/-- What is written once the current line is -/
def Body.flushed (b : Body) : List (List Char) := if b.wrttn then b.out else b.out ++ [b.line]

theorem putline_none (b : Body) : ∃ w, (if b.wrttn then b else b.putline none) = { b with
    wrttn := w, out := if b.upd then b.flushed else b.out } := by
  obtain ⟨upd, slnno, iop, line, wrttn, out, q, keep, glnno⟩ := b
  cases wrttn with
  | true => exact ⟨true, by cases upd <;> rfl⟩
  | false =>
    cases upd with
    | true => exact ⟨true, rfl⟩
    | false => exact ⟨false, rfl⟩

theorem fetch_eq (l : List Char) (rest : List (List Char)) (b : Body) : b.fetch l rest = { b with
    slnno := b.slnno + 1, iop := rest, line := l, wrttn := false, out := if b.upd then b.flushed else b.out } := by
  obtain ⟨w, heq⟩ := putline_none b
  unfold Body.fetch
  rw [heq]

theorem Reads.fetch (h : Reads v b o) (l : List Char) (rest : List (List Char)) :
    Reads v (b.fetch l rest) o := by
  rw [fetch_eq]
  exact ⟨h.q, h.keep⟩

/-- A control record is taken by the queue. -/
theorem bracket_ctl {i : Char} {ser : ℕ} {q : List Queue} (hmax : maxser < 2 ^ 31)
    (hi : i = INS ∨ i = DEL ∨ i = END) (hpos : 0 < ser) (hle : ser ≤ maxser)
    (hq : (if i = END then remq ser b.q
      else if v ser then addq ⟨ser, if i = INS then .yes else .no, i⟩ b.q
      else addq ⟨ser, if i = INS then .no else .null, i⟩ b.q) = some q) :
    bracket maxser v (ctlLine i ser).tail b = .ok { b with q := q, keep := setkeep q } := by
  have hbad : ¬(i ≠ INS ∧ i ≠ DEL ∧ i ≠ END) := by
    rintro ⟨h1, h2, h3⟩
    rcases hi with h | h | h
    · exact h1 h
    · exact h2 h
    · exact h3 h
  have hrange : ¬¬((0 : ℤ) < ser ∧ (ser : ℤ) ≤ maxser) := not_not.mpr ⟨by omega, by omega⟩
  unfold bracket
  rw [control_ctlLine (Nat.lt_of_le_of_lt hle hmax)]
  dsimp only
  rw [if_neg hbad, if_neg hrange, Int.toNat_natCast, hq]

theorem Reads.setq {q : List Queue} (hq : q = o.map (Open.entry v)) :
    Reads v { b with q := q, keep := setkeep q } o := by
  subst hq
  exact ⟨rfl, setkeep_entries v o⟩

/-- A line that is no text changes the brackets. -/
theorem bracket_line {l : Line} (hmax : maxser < 2 ^ 31) (h : Reads v b o) (htext : ∀ t, l ≠ .text t)
    (ho : l.opens maxser o = some o') : l.chars.head? = some CTLCHAR ∧
    ∃ q k, bracket maxser v l.chars.tail b = .ok { b with q := q, keep := k } ∧
      ∀ b1 : Body, Reads v { b1 with q := q, keep := k } o' := by
  cases l with
  | text t => exact absurd rfl (htext t)
  | start i ser =>
    refine ⟨rfl, ?_⟩
    obtain ⟨⟨hpos, hle⟩, hadd⟩ := Option.ite_none_right_eq_some.mp ho
    have hq : addq (Open.entry v ⟨ser, i⟩) b.q = some (o'.map (Open.entry v)) := by
      rw [h.q, addq_entries, hadd]
      rfl
    refine ⟨_, _, bracket_ctl (q := o'.map (Open.entry v)) hmax (by cases i <;> simp [Iord.chr]) hpos hle ?_,
      fun b1 => .setq rfl⟩
    rw [← hq]
    have hend : ¬i.chr = END := by cases i <;> decide
    rw [if_neg hend]
    unfold Open.entry Open.keep
    cases i <;> cases v ser <;> rfl
  | stop ser =>
    refine ⟨rfl, ?_⟩
    obtain ⟨⟨hpos, hle⟩, hrem⟩ := Option.ite_none_right_eq_some.mp ho
    refine ⟨_, _, bracket_ctl (q := o'.map (Open.entry v)) hmax (.inr (.inr rfl)) hpos hle ?_, fun b1 => .setq rfl⟩
    rw [if_pos rfl, h.q, remq_entries, hrem]
    rfl

/-- The packet has passed lines: it stands at one, or at the end. -/
structure Passed (b b' : Body) (written : List (List Char)) : Prop where
  upd : b'.upd = b.upd
  out : b'.out = if b.upd then b.flushed ++ written else b.out

theorem Passed.cons {b1 b' : Body} {l : List Char} {written : List (List Char)} (hupd : b1.upd = b.upd)
    (hout : b1.out = if b.upd then b.flushed else b.out) (hw : b1.wrttn = false) (hline : b1.line = l)
    (h : Passed b1 b' written) : Passed b b' (l :: written) := by
  refine ⟨h.upd.trans hupd, ?_⟩
  rw [h.out, hupd]
  cases hb : b.upd with
  | false =>
    rw [hb] at hout
    exact hout
  | true =>
    rw [hb] at hout
    have hflushed : b1.flushed = b.flushed ++ [l] := by
      rw [Body.flushed, hw, hout, hline]
      rfl
    change b1.flushed ++ written = b.flushed ++ l :: written
    rw [hflushed, append_assoc]
    rfl

theorem scan_cons {l : Line} : scan maxser v (l :: ls) o = some (r, o') ↔
    ∃ o1 r1, l.opens maxser o = some o1 ∧ scan maxser v ls o1 = some (r1, o') ∧ r = l.shown v o ++ r1 := by
  rw [scan, Option.bind_eq_some_iff]
  constructor
  · rintro ⟨o1, ho, hr⟩
    obtain ⟨⟨r1, o2⟩, hr1, heq⟩ := Option.map_eq_some_iff.mp hr
    obtain ⟨rfl, rfl⟩ := Prod.mk.inj heq
    exact ⟨o1, r1, ho, hr1, rfl⟩
  · rintro ⟨o1, r1, ho, hr1, rfl⟩
    exact ⟨o1, ho, Option.map_eq_some_iff.mpr ⟨_, hr1, rfl⟩⟩

/-- The brackets do not depend on the vector. -/
theorem scan_vector (w : Apply) (h : scan maxser v ls o = some (r, o')) :
    ∃ r2, scan maxser w ls o = some (r2, o') := by
  induction ls generalizing o r with
  | nil =>
    obtain ⟨rfl, rfl⟩ := Prod.mk.inj (Option.some.inj h)
    exact ⟨[], rfl⟩
  | cons l ls ih =>
    obtain ⟨o1, r1, ho, hr1, -⟩ := scan_cons.mp h
    obtain ⟨r2, hr2⟩ := ih hr1
    exact ⟨l.shown w o ++ r2, scan_cons.mpr ⟨o1, r2, ho, hr2, rfl⟩⟩

/-- `readmod` goes to the next line that is shown. -/
theorem readmodLines_scan (hmax : maxser < 2 ^ 31) (h : Reads v b o)
    (hscan : scan maxser v ls o = some (r, [])) :
    (r = [] ∧ ∃ b', readmodLines maxser v (ls.map Line.chars) b = .ok (false, b') ∧
      Passed b b' (ls.map Line.chars) ∧ b'.glnno = b.glnno) ∨
    ∃ (pre : List Line) (t : Text) (rest : List Line) (o' : List Open) (r' : List (List Char)) (b' : Body),
      ls = pre ++ .text t :: rest ∧ scan maxser v pre o = some ([], o') ∧ visible v o' = true ∧
      r = t.1 :: r' ∧ scan maxser v rest o' = some (r', []) ∧
      readmodLines maxser v (ls.map Line.chars) b = .ok (true, b') ∧ Reads v b' o' ∧
      Passed b b' (pre.map Line.chars) ∧ b'.glnno = b.glnno + 1 ∧ b'.iop = rest.map Line.chars ∧
      b'.line = t.1 ∧ b'.wrttn = false := by
  induction ls generalizing b o r with
  | nil =>
    obtain ⟨rfl, rfl⟩ := Prod.mk.inj (Option.some.inj hscan)
    refine .inl ⟨rfl, b.finish, ?_, ?_⟩
    · have hempty : b.q.isEmpty = true := by rw [h.q]; rfl
      rw [map_nil, readmodLines, if_pos hempty]
    · obtain ⟨w, heq⟩ := putline_none b
      have hfin : b.finish = _ := heq
      rw [hfin]
      refine ⟨⟨rfl, ?_⟩, rfl⟩
      rw [map_nil, append_nil]
  | cons l ls ih =>
    obtain ⟨o1, r1, ho, hr1, hr⟩ := scan_cons.mp hscan
    -- a line that is not shown is passed, and the rest is as for the packet behind it
    have hpass {b1 : Body} (hnone : l.shown v o = []) (hreads : Reads v b1 o1) (hupd : b1.upd = b.upd)
        (hout : b1.out = if b.upd then b.flushed else b.out) (hw : b1.wrttn = false) (hline : b1.line = l.chars)
        (hglnno : b1.glnno = b.glnno) (heq : readmodLines maxser v ((l :: ls).map Line.chars) b =
          readmodLines maxser v (ls.map Line.chars) b1) :
        (r = [] ∧ ∃ b', readmodLines maxser v ((l :: ls).map Line.chars) b = .ok (false, b') ∧
          Passed b b' ((l :: ls).map Line.chars) ∧ b'.glnno = b.glnno) ∨
        ∃ (pre : List Line) (t : Text) (rest : List Line) (o' : List Open) (r' : List (List Char)) (b' : Body),
          l :: ls = pre ++ .text t :: rest ∧ scan maxser v pre o = some ([], o') ∧ visible v o' = true ∧
          r = t.1 :: r' ∧ scan maxser v rest o' = some (r', []) ∧
          readmodLines maxser v ((l :: ls).map Line.chars) b = .ok (true, b') ∧ Reads v b' o' ∧
          Passed b b' (pre.map Line.chars) ∧ b'.glnno = b.glnno + 1 ∧ b'.iop = rest.map Line.chars ∧
          b'.line = t.1 ∧ b'.wrttn = false := by
      rw [hnone, nil_append] at hr
      subst hr
      rw [heq]
      rcases ih hreads hr1 with ⟨hnil, b', hread, hpassed, hno⟩ |
          ⟨pre, t, rest, o', r', b', rfl, hpre, hvis, hr', hrest, hread, hreads', hpassed, hno, hiop, hline', hw'⟩
      · exact .inl ⟨hnil, b', hread, hpassed.cons hupd hout hw hline, hno.trans hglnno⟩
      · refine .inr ⟨l :: pre, t, rest, o', r', b', rfl, ?_, hvis, hr', hrest, hread, hreads',
          hpassed.cons hupd hout hw hline, by rw [hno, hglnno], hiop, hline', hw'⟩
        exact scan_cons.mpr ⟨o1, [], ho, hpre, by rw [hnone, append_nil]⟩
    have hfetch := fetch_eq l.chars (ls.map Line.chars) b
    by_cases htext : ∀ t, l ≠ .text t
    · obtain ⟨hhead, q, k, hbracket, hreads⟩ := bracket_line (b := b.fetch l.chars (ls.map Line.chars)) hmax
        (h.fetch _ _) htext ho
      apply hpass _ (hreads (b.fetch l.chars (ls.map Line.chars)))
      · rw [hfetch]
      · rw [hfetch]
      · rw [hfetch]
      · rw [hfetch]
      · rw [hfetch]
      · rw [map_cons, readmodLines, if_pos hhead, hbracket]
        rfl
      · cases l with
        | text t => exact absurd rfl (htext t)
        | start i ser => rfl
        | stop ser => rfl
    · obtain ⟨t, ht⟩ := not_forall.mp htext
      obtain rfl := not_not.mp ht
      obtain rfl : o = o1 := Option.some.inj ho
      have hhead : ¬(Line.text t).chars.head? = some CTLCHAR := t.2
      cases hvis : visible v o with
      | false =>
        have hnone : Line.shown v o (.text t) = [] := by rw [Line.shown, hvis]; rfl
        apply hpass hnone (h.fetch _ _)
        · rw [hfetch]
        · rw [hfetch]
        · rw [hfetch]
        · rw [hfetch]
        · rw [hfetch]
        · have hkeep : ¬(b.fetch (Line.text t).chars (ls.map Line.chars)).keep = .yes := by
            rw [(h.fetch _ _).keep, hvis]
            exact nofun
          rw [map_cons, readmodLines, if_neg hhead, if_neg hkeep]
      | true =>
        have hkeep : (b.fetch (Line.text t).chars (ls.map Line.chars)).keep = .yes :=
          (h.fetch _ _).keep.mpr hvis
        refine .inr ⟨[], t, ls, o, r1, { b.fetch (Line.text t).chars (ls.map Line.chars) with
          glnno := b.glnno + 1 }, rfl, rfl, hvis, ?_, hr1, ?_, ?_, ?_, rfl, ?_, ?_, ?_⟩
        · rw [hr, Line.shown, hvis]
          rfl
        · have hglnno : (b.fetch (Line.text t).chars (ls.map Line.chars)).glnno = b.glnno := by rw [hfetch]
          rw [map_cons, readmodLines, if_neg hhead, if_pos hkeep, hglnno]
        · exact ⟨(h.fetch (Line.text t).chars (ls.map Line.chars)).q,
            (h.fetch (Line.text t).chars (ls.map Line.chars)).keep⟩
        · rw [hfetch]
          refine ⟨rfl, ?_⟩
          rw [map_nil, append_nil]
        · rw [hfetch]
        · rw [hfetch]
          rfl
        · rw [hfetch]

/-- What `readmod` yields is what is shown. -/
theorem getAll_scan (hmax : maxser < 2 ^ 31) (h : Reads v b o) (hiop : b.iop = ls.map Line.chars)
    (hscan : scan maxser v ls o = some (r, [])) {n : ℕ} (hn : ls.length < n) :
    getAll maxser v n b = .ok r := by
  induction n generalizing b o ls r with
  | zero => exact absurd hn (Nat.not_lt_zero _)
  | succ n ih =>
    rw [getAll, readmod, hiop]
    rcases readmodLines_scan hmax h hscan with ⟨rfl, b', hread, _⟩ |
        ⟨pre, t, rest, o', r', b', rfl, _, _, rfl, hrest, hread, hreads, _, _, hiop', hline, _⟩
    · rw [hread]
      rfl
    · have hlen : rest.length < n := by
        rw [length_append, length_cons] at hn
        omega
      rw [hread]
      dsimp only [bind, Except.bind]
      rw [if_pos rfl, ih hreads hiop' hrest hlen, hline]
      rfl

theorem yields_scan (hmax : maxser < 2 ^ 31) (hscan : scan maxser v ls [] = some (r, [])) :
    yields maxser v (ls.map Line.chars) = .ok r := by
  have hreads : Reads v (reader (ls.map Line.chars)) [] := ⟨rfl, nofun, nofun⟩
  apply getAll_scan hmax hreads rfl hscan
  rw [length_map]
  exact Nat.lt_succ_self _

end reading

end Svr3.Sccs
