import Svr3.Sccs.Mkixg

/-!
# The lines that `delta` inserts

`delta` follows the commands that `bdiff` prints for the g-file. The lines behind a command are counted by calls of
`fgets` with a buffer of 512 characters, and a line that is longer is more than one of them.
-/

namespace Svr3.Sccs.Diff

open List

/-! ## The model -/

/-- What is left of `Diffin`, `chg_num` and `chg_ln` of `getdiff`, and the packet; `hadp` is the flag `-p`, for which
the lines are printed too. -/
structure State where
  diffin : List Char
  chg_num : BitVec 32
  chg_ln : BitVec 32
  hadp : Bool
  stdout : List Char
  pkt : Packet

/-- The line, or `none` at the end -/
def rddiff (n : ℕ) (s : State) : Option (List Char) × State :=
  let r := fgets (n - 1) s.diffin
  if r.1 = [] then (none, s)
  else (some r.1, { s with diffin := r.2, stdout := if s.hadp then s.stdout ++ cstr r.1 else s.stdout })

/-- `low`, `high` and what is behind them -/
def linerange (cp : List Char) : BitVec 32 × BitVec 32 × List Char :=
  let (low, cp) := satoi cp
  match cp with
  | ',' :: cp =>
    let (high, cp) := satoi cp
    (low, high, cp)
  | _ => (low, low, cp)

def skipline : ℕ → State → State
  | 0, s => s
  | num + 1, s => skipline num (rddiff 512 s).2

/-- What `getdiff` says: `type`, `linenum` and the number of lines -/
structure Command where
  type : Char
  linenum : BitVec 32
  num_lines : BitVec 32

/-- `none` at the end. For what is no command, `type` is left as it is and `num_lines` is not set: `stale`. -/
def getdiff (stale : BitVec 32) (type : Char) (s : State) : Option Command × State :=
  match rddiff 512 s with
  | (none, s) => (none, s)
  | (some line, s) =>
    if line.head? = some '-' then (some ⟨INS, s.chg_ln, s.chg_num⟩, s)
    else
      let (lowline, highline, p) := linerange line
      let num_lines := highline - lowline + 1
      match p with
      | 'd' :: _ => (some ⟨DEL, lowline, num_lines⟩, skipline num_lines.toNat s)
      | 'a' :: p =>
        let (low, high, _) := linerange p
        (some ⟨INS, lowline, high - low + 1⟩, s)
      | 'c' :: p =>
        let (low, high, _) := linerange p
        let s := { s with chg_ln := lowline, chg_num := high - low + 1 }
        (some ⟨DEL, lowline, num_lines⟩, skipline num_lines.toNat s)
      | _ => (some ⟨type, lowline, stale⟩, s)

/-- A string in the buffer `str`, with what was there before behind it -/
def store (l str : List Char) : List Char := l ++ '\x00' :: str.drop (l.length + 1)

/-- `sprintf(str,"%c%c %u\n",CTLCHAR,ch,ser)` -/
def bracket (ch : Char) (ser : ℕ) : List Char := CTLCHAR :: ch :: ' ' :: digits ser ++ ['\n']

def put (l : List Char) (s : State) : State := { s with pkt := putline (some l) s.pkt }

/-- The loop of `insert`, with `str`; it gives what it has put. -/
def insertLoop : ℕ → List Char → State → List Char × State
  | 0, _, s => ([], s)
  | n + 1, str, s =>
    let (r, s) := rddiff 512 s
    let str := match r with
      | none => str
      | some l => store l str
    let line := cstr (str.drop 2)
    let (text, s) := insertLoop n str (put line s)
    (line ++ text, s)

/-- `before` and `after` copy the s-file up to a line. -/
structure Copying where
  before : BitVec 32 → Packet → Packet
  after : BitVec 32 → Packet → Packet

/-- `str` holds anything at first. -/
def insert (k : Copying) (str : List Char) (linenum : BitVec 32) (n ser : ℕ) (s : State) : List Char × State :=
  let s := put (bracket INS ser) { s with pkt := k.after linenum s.pkt }
  let (text, s) := insertLoop n (store (bracket INS ser) str) s
  (text, put (bracket END ser) s)

def delete (k : Copying) (linenum : BitVec 32) (n ser : ℕ) (s : State) : State :=
  let s := put (bracket DEL ser) { s with pkt := k.before linenum s.pkt }
  put (bracket END ser) { s with pkt := k.after (linenum + BitVec.ofNat 32 n - 1) s.pkt }

/-- A turn of the loop of `delta`: the command, what was put between the brackets of an insertion, and the place in
the script after it -/
structure Turn extends Command where
  text : List Char
  rest : List Char

/-- The loop `while (n = getdiff(&type,&linenum))` of `delta`, for `fuel` turns at most; `str` and `stale` are what
the turns find in memory. -/
def deltaLoop (k : Copying) (str : ℕ → List Char) (stale : ℕ → BitVec 32) (ser : ℕ) : ℕ → Char → State → List Turn
  | 0, _, _ => []
  | fuel + 1, type, s =>
    match getdiff (stale fuel) type s with
    | (none, _) => []
    | (some c, s) =>
      if c.num_lines = 0 then []
      else if c.type = INS then
        let (text, s) := insert k (str fuel) c.linenum c.num_lines.toNat ser s
        ⟨c, text, s.diffin⟩ :: deltaLoop k str stale ser fuel c.type s
      else
        let s := delete k c.linenum c.num_lines.toNat ser s
        ⟨c, [], s.diffin⟩ :: deltaLoop k str stale ser fuel c.type s

/-! ## The script -/

/-- A line of a file, as `diff` prints it: it ends before a NUL. -/
structure Line where
  text : List Char
  plain : '\n' ∉ text ∧ '\x00' ∉ text

/-- The lines of a file with a prefix of two characters -/
def prefixed (c : Char) (ls : List Line) : List Char := ls.flatMap fun l => c :: ' ' :: l.text ++ ['\n']

/-- A range of `k` lines from `a` on -/
def range (a k : ℕ) : List Char := digits a ++ if k = 1 then [] else ',' :: digits (a + k - 1)

/-- What `diff` finds: lines that are new, that are no more there, and that are others -/
inductive Change where
  | add (old_at new_from : ℕ) (new : List Line)
  | del (old_from new_at : ℕ) (old : List Line)
  | chg (old_from : ℕ) (old : List Line) (new_from : ℕ) (new : List Line)

namespace Change

def print : Change → List Char
  | add b c new => digits b ++ 'a' :: range c new.length ++ '\n' :: prefixed '>' new
  | del a d old => range a old.length ++ 'd' :: digits d ++ '\n' :: prefixed '<' old
  | chg a old c new =>
    range a old.length ++ 'c' :: range c new.length ++ '\n' :: prefixed '<' old ++ ("---\n".toList ++ prefixed '>' new)

/-- Each kind of lines is there, and their numbers are integers. -/
def Ok : Change → Prop
  | add b c new => new ≠ [] ∧ b < 2 ^ 31 ∧ c + new.length < 2 ^ 31
  | del a d old => old ≠ [] ∧ a + old.length < 2 ^ 31 ∧ d < 2 ^ 31
  | chg a old c new => old ≠ [] ∧ new ≠ [] ∧ a + old.length < 2 ^ 31 ∧ c + new.length < 2 ^ 31

def lines : Change → List Line
  | add _ _ new => new
  | del _ _ old => old
  | chg _ old _ new => old ++ new

end Change

/-- The lines of a file -/
def content (ls : List Line) : List Char := ls.flatMap fun l => l.text ++ ['\n']

/-- What `delta` should do for a change with the script `rest` behind it -/
def turns (rest : List Char) : Change → List Turn
  | .add b _ new => [⟨⟨INS, BitVec.ofNat 32 b, BitVec.ofNat 32 new.length⟩, content new, rest⟩]
  | .del a _ old => [⟨⟨DEL, BitVec.ofNat 32 a, BitVec.ofNat 32 old.length⟩, [], rest⟩]
  | .chg a old _ new =>
    [⟨⟨DEL, BitVec.ofNat 32 a, BitVec.ofNat 32 old.length⟩, [], "---\n".toList ++ (prefixed '>' new ++ rest)⟩,
      ⟨⟨INS, BitVec.ofNat 32 a, BitVec.ofNat 32 new.length⟩, content new, rest⟩]

def script (cs : List Change) : List Char := cs.flatMap Change.print

def allTurns : List Change → List Turn
  | [] => []
  | c :: cs => turns (script cs) c ++ allTurns cs

/-! ## Reading lines -/

section lines

variable {n k : ℕ} {ts : List (List Char)} {r : List Char}

/-- What `n` calls of `fgets` leave -/
def left (n : ℕ) (p : List Char) : List Char := (fun p => (fgets 511 p).2)^[n] p

def flat (ts : List (List Char)) : List Char := ts.flatMap (· ++ ['\n'])

theorem flat_cons (t : List Char) (ts : List (List Char)) (r : List Char) :
    flat (t :: ts) ++ r = t ++ '\n' :: (flat ts ++ r) := by
  simp [flat]

theorem left_line {t p : List Char} (ht : '\n' ∉ t) (hlen : t.length < 511) (n : ℕ) :
    left (n + 1) (t ++ '\n' :: p) = left n p := by
  change left n (fgets 511 (t ++ '\n' :: p)).2 = _
  rw [fgets_line ht hlen]

theorem left_cut {t p : List Char} (ht : '\n' ∉ t) (hlen : 511 ≤ t.length) (n : ℕ) :
    left (n + 1) (t ++ '\n' :: p) = left n (t.drop 511 ++ '\n' :: p) := by
  change left n (fgets 511 (t ++ '\n' :: p)).2 = _
  rw [fgets_long ht hlen]

/-- A call ends one line at most. -/
theorem left_flat (hts : ∀ t ∈ ts, '\n' ∉ t) (hk : k ≤ ts.length) (r : List Char) :
    ∃ us, left k (flat ts ++ r) = flat us ++ r ∧ ts.length ≤ us.length + k := by
  induction k generalizing ts with
  | zero => exact ⟨ts, rfl, Nat.le_refl _⟩
  | succ k ih =>
    cases ts with
    | nil => exact absurd hk (Nat.not_succ_le_zero k)
    | cons t ts =>
      have hk' : k ≤ ts.length := Nat.le_of_succ_le_succ hk
      obtain ⟨ht, hts'⟩ := forall_mem_cons.mp hts
      rw [flat_cons]
      by_cases hlen : t.length < 511
      · obtain ⟨us, heq, hle⟩ := ih hts' hk'
        refine ⟨us, ?_, Nat.succ_le_succ hle⟩
        rw [left_line ht hlen, heq]
      · have hdrop : ∀ u ∈ t.drop 511 :: ts, '\n' ∉ u :=
          forall_mem_cons.mpr ⟨fun h => ht (mem_of_mem_drop h), hts'⟩
        obtain ⟨us, heq, hle⟩ := ih hdrop (Nat.le_succ_of_le hk')
        refine ⟨us, ?_, Nat.le_succ_of_le hle⟩
        rw [left_cut ht (Nat.not_lt.mp hlen), ← heq, flat_cons]

theorem left_short (hts : ∀ t ∈ ts, '\n' ∉ t) (hlen : ∀ t ∈ ts, t.length < 511) :
    left ts.length (flat ts ++ r) = r := by
  induction ts with
  | nil => rfl
  | cons t ts ih =>
    obtain ⟨ht, hts'⟩ := forall_mem_cons.mp hts
    obtain ⟨hlt, hlen'⟩ := forall_mem_cons.mp hlen
    rw [flat_cons, length_cons, left_line ht hlt, ih hts' hlen']

/-- With a long line something of the lines is left. -/
theorem left_long (hts : ∀ t ∈ ts, '\n' ∉ t) (hlong : ∃ t ∈ ts, 511 ≤ t.length) :
    r.length < (left ts.length (flat ts ++ r)).length := by
  induction ts with
  | nil => exact absurd hlong (by simp)
  | cons t ts ih =>
    obtain ⟨ht, hts'⟩ := forall_mem_cons.mp hts
    rw [flat_cons, length_cons]
    by_cases hlen : t.length < 511
    · rw [left_line ht hlen]
      apply ih hts'
      obtain ⟨u, hu, hle⟩ := hlong
      rcases mem_cons.mp hu with rfl | hu
      · exact absurd hlen (Nat.not_lt.mpr hle)
      · exact ⟨u, hu, hle⟩
    · have hdrop : ∀ u ∈ t.drop 511 :: ts, '\n' ∉ u :=
        forall_mem_cons.mpr ⟨fun h => ht (mem_of_mem_drop h), hts'⟩
      obtain ⟨us, heq, hle⟩ := left_flat hdrop (Nat.le_succ ts.length) r
      rw [left_cut ht (Nat.not_lt.mp hlen), ← flat_cons, heq, length_append]
      rw [length_cons] at hle
      cases us with
      | nil => exact absurd hle (by simp)
      | cons u us =>
        apply Nat.lt_add_of_pos_left
        simp [flat]

theorem left_iff (hts : ∀ t ∈ ts, '\n' ∉ t) :
    left ts.length (flat ts ++ r) = r ↔ ∀ t ∈ ts, t.length < 511 := by
  constructor
  · intro heq
    by_contra hlong
    push Not at hlong
    have hlt := left_long (r := r) hts hlong
    rw [heq] at hlt
    exact Nat.lt_irrefl _ hlt
  · exact left_short hts

/-- The lines of a change are used up, if they are short. -/
theorem left_prefixed {c : Char} (hc : c ≠ '\n') (ls : List Line) :
    left ls.length (prefixed c ls ++ r) = r ↔ ∀ l ∈ ls, l.text.length ≤ 508 := by
  have hflat : prefixed c ls = flat (ls.map fun l => c :: ' ' :: l.text) := by
    simp [prefixed, flat, flatMap_map]
  have hts : ∀ t ∈ ls.map (fun l => c :: ' ' :: l.text), '\n' ∉ t := by
    intro t ht
    obtain ⟨l, -, rfl⟩ := mem_map.mp ht
    simp [l.plain.1, Ne.symm hc]
  have hiff := left_iff (r := r) hts
  rw [length_map, ← hflat] at hiff
  rw [hiff, forall_mem_map]
  refine forall₂_congr fun l _ => ?_
  rw [length_cons, length_cons]
  omega

end lines

section reads

variable {s : State} {l p : List Char}

theorem rddiff_diffin (s : State) : (rddiff 512 s).2.diffin = (fgets 511 s.diffin).2 := by
  unfold rddiff
  dsimp only
  split
  · rename_i h
    have hnil := (fgets_eq_nil (Nat.succ_pos 510)).mp h
    rw [hnil]
    rfl
  · rfl

theorem rddiff_chg (s : State) : (rddiff 512 s).2.chg_ln = s.chg_ln ∧ (rddiff 512 s).2.chg_num = s.chg_num := by
  unfold rddiff
  dsimp only
  split
  · exact ⟨rfl, rfl⟩
  · exact ⟨rfl, rfl⟩

theorem rddiff_line (hs : s.diffin = l ++ '\n' :: p) (hl : '\n' ∉ l) (hlen : l.length < 511) :
    (rddiff 512 s).1 = some (l ++ ['\n']) ∧ (rddiff 512 s).2.diffin = p := by
  have hgets := fgets_line (p := p) hl hlen
  rw [← hs] at hgets
  constructor
  · unfold rddiff
    rw [hgets]
    dsimp only
    rw [if_neg (by simp)]
  · rw [rddiff_diffin, hgets]

theorem skipline_diffin (n : ℕ) (s : State) : (skipline n s).diffin = left n s.diffin := by
  induction n generalizing s with
  | zero => rfl
  | succ n ih =>
    rw [skipline, ih, rddiff_diffin]
    rfl

theorem skipline_chg (n : ℕ) (s : State) : (skipline n s).chg_ln = s.chg_ln ∧ (skipline n s).chg_num = s.chg_num := by
  induction n generalizing s with
  | zero => exact ⟨rfl, rfl⟩
  | succ n ih =>
    rw [skipline, (ih _).1, (ih _).2]
    exact rddiff_chg s

/-- The loop of `insert` reads as `skipline` does. -/
theorem insertLoop_diffin (n : ℕ) (str : List Char) (s : State) :
    (insertLoop n str s).2.diffin = left n s.diffin := by
  induction n generalizing str s with
  | zero => rfl
  | succ n ih =>
    unfold insertLoop
    dsimp only
    rw [ih]
    change left n (rddiff 512 s).2.diffin = _
    rw [rddiff_diffin]
    rfl

/-- What is behind the prefix of a line -/
theorem cstr_store {a b : Char} {t str : List Char} (ht : '\x00' ∉ t) :
    cstr ((store (a :: b :: t) str).drop 2) = t := by
  change cstr (t ++ '\x00' :: _) = t
  rw [cstr, takeWhile_append_of_pos]
  · simp
  · intro c hc
    exact bne_iff_ne.mpr (ne_of_mem_of_not_mem hc ht)

/-- Short lines are put without their prefix. -/
theorem insertLoop_text {c : Char} (hc : c ≠ '\n') (ls : List Line) (hls : ∀ l ∈ ls, l.text.length ≤ 508)
    (str : List Char) (hs : s.diffin = prefixed c ls ++ p) : (insertLoop ls.length str s).1 = content ls := by
  induction ls generalizing str s with
  | nil => rfl
  | cons l ls ih =>
    obtain ⟨hl, hls'⟩ := forall_mem_cons.mp hls
    have hs' : s.diffin = (c :: ' ' :: l.text) ++ '\n' :: (prefixed c ls ++ p) := by
      rw [hs]
      simp [prefixed]
    have hnl : '\n' ∉ c :: ' ' :: l.text := by simp [l.plain.1, Ne.symm hc]
    have hlen : (c :: ' ' :: l.text).length < 511 := by
      rw [length_cons, length_cons]
      omega
    obtain ⟨hline, hdiffin⟩ := rddiff_line hs' hnl hlen
    have hnul : '\x00' ∉ l.text ++ ['\n'] := by simp [l.plain.2]
    rw [length_cons]
    unfold insertLoop
    dsimp only
    rw [hline]
    dsimp only
    rw [cons_append, cons_append, cstr_store hnul]
    have hrest := ih (s := put (l.text ++ ['\n']) (rddiff 512 s).2) hls'
      (store (c :: ' ' :: (l.text ++ ['\n'])) str) hdiffin
    rw [hrest]
    rfl

variable (k : Copying) (str : List Char) (linenum : BitVec 32) (ser : ℕ)

theorem insert_diffin (n : ℕ) (s : State) : (insert k str linenum n ser s).2.diffin = left n s.diffin :=
  insertLoop_diffin n _ _

theorem insert_text {c : Char} (hc : c ≠ '\n') (ls : List Line) (hls : ∀ l ∈ ls, l.text.length ≤ 508)
    (hs : s.diffin = prefixed c ls ++ p) : (insert k str linenum ls.length ser s).1 = content ls :=
  insertLoop_text (s := put (bracket INS ser) { s with pkt := k.after linenum s.pkt }) hc ls hls _ hs

end reads

/-! ## Commands -/

section commands

variable {s : State} {p : List Char}

theorem satoi_digits (n : ℕ) (hp : NoDigit p) : satoi (digits n ++ p) = (BitVec.ofNat 32 n, p) := by
  have h := number_digits (R := BitVec 32) hp n
  rw [BitVec.natCast_eq_ofNat] at h
  exact h

/-- A range is read as it was printed. -/
theorem linerange_range (a : ℕ) {k : ℕ} (hk : 0 < k) {c : Char} (hc : c.isDigit = false) (hcomma : c ≠ ',')
    (p : List Char) :
    linerange (range a k ++ c :: p) = (BitVec.ofNat 32 a, BitVec.ofNat 32 (a + k - 1), c :: p) := by
  by_cases h1 : k = 1
  · subst h1
    rw [range, if_pos rfl, append_nil, linerange, satoi_digits a (noDigit_cons hc)]
    dsimp only
    split
    · rename_i heq
      exact absurd (List.cons.inj heq).1 hcomma
    · rfl
  · have hcom : NoDigit (',' :: (digits (a + k - 1) ++ c :: p)) := noDigit_cons (by decide)
    rw [range, if_neg h1, append_assoc, cons_append, linerange, satoi_digits a hcom]
    change (BitVec.ofNat 32 a, satoi (digits (a + k - 1) ++ c :: p)) = _
    rw [satoi_digits (a + k - 1) (noDigit_cons hc)]

/-- The number of the lines of a range -/
theorem range_lines (a : ℕ) {k : ℕ} (hk : 0 < k) :
    BitVec.ofNat 32 (a + k - 1) - BitVec.ofNat 32 a + 1 = BitVec.ofNat 32 k := by
  have hsum : a + k - 1 = a + (k - 1) := Nat.add_sub_assoc hk a
  have hone : k = k - 1 + 1 := (Nat.sub_add_cancel hk).symm
  rw [hsum, BitVec.ofNat_add, add_sub_cancel_left]
  nth_rewrite 2 [hone]
  rw [BitVec.ofNat_add]
  rfl

theorem toNat_lines {n : ℕ} (hn : n < 2 ^ 31) : (BitVec.ofNat 32 n).toNat = n := by
  rw [BitVec.toNat_ofNat]
  apply Nat.mod_eq_of_lt
  omega

theorem range_one (a : ℕ) : range a 1 = digits a := append_nil _

theorem digits_short {n : ℕ} (hn : n < 2 ^ 31) : (digits n).length ≤ 10 := by
  apply (Nat.length_toDigits_le_iff (by decide) (by decide)).mpr
  omega

theorem mem_range {a k : ℕ} {c : Char} (h : c ∈ range a k) : c.isDigit = true ∨ c = ',' := by
  unfold range at h
  split_ifs at h
  · rw [append_nil] at h
    exact .inl (mem_digits h)
  · rcases mem_append.mp h with h | h
    · exact .inl (mem_digits h)
    · rcases mem_cons.mp h with h | h
      · exact .inr h
      · exact .inl (mem_digits h)

theorem range_short {a k : ℕ} (h : a + k ≤ 2 ^ 31) (hk : 0 < k) : (range a k).length ≤ 21 := by
  have ha := digits_short (n := a) (by omega)
  have hb := digits_short (n := a + k - 1) (by omega)
  unfold range
  split_ifs
  · rw [append_nil]
    omega
  · rw [length_append, length_cons]
    omega

theorem range_newline (a k : ℕ) : '\n' ∉ range a k := by
  intro h
  rcases mem_range h with h | h
  · exact absurd h (by decide)
  · exact absurd h (by decide)

theorem range_head (a k : ℕ) (p : List Char) : (range a k ++ p).head? ≠ some '-' := by
  obtain ⟨c, ds, hd, hdigit⟩ := digits_cons a
  rw [range, hd, cons_append, cons_append, List.head?_cons]
  intro h
  rw [Option.some.inj h] at hdigit
  exact absurd hdigit (by decide)

/-- A line that `getdiff` takes for a command -/
def commandLine (a k : ℕ) (type : Char) (c m : ℕ) : List Char := range a k ++ type :: range c m

variable {a k c m : ℕ} {type : Char}

theorem rddiff_command (htype : type ≠ '\n') (hk : 0 < k) (hm : 0 < m) (ha : a + k ≤ 2 ^ 31) (hc : c + m ≤ 2 ^ 31)
    (hs : s.diffin = commandLine a k type c m ++ '\n' :: p) :
    (rddiff 512 s).1 = some (range a k ++ type :: (range c m ++ ['\n'])) ∧ (rddiff 512 s).2.diffin = p := by
  have hnl : '\n' ∉ commandLine a k type c m := by
    simp [commandLine, range_newline, Ne.symm htype]
  have hlen : (commandLine a k type c m).length < 511 := by
    have hak := range_short ha hk
    have hcm := range_short hc hm
    rw [commandLine, length_append, length_cons]
    omega
  have hline := rddiff_line hs hnl hlen
  rw [commandLine, append_assoc, cons_append] at hline
  exact hline

variable (stale : BitVec 32) (type' : Char)

theorem getdiff_end (hs : s.diffin = []) : (getdiff stale type' s).1 = none := by
  unfold getdiff rddiff
  rw [hs]
  rfl

theorem getdiff_dash (hs : s.diffin = "---\n".toList ++ p) :
    getdiff stale type' s = (some ⟨INS, s.chg_ln, s.chg_num⟩, (rddiff 512 s).2) ∧ (rddiff 512 s).2.diffin = p := by
  obtain ⟨hline, hdiffin⟩ := rddiff_line (s := s) (l := "---".toList) (p := p) hs (by decide) (by decide)
  refine ⟨?_, hdiffin⟩
  obtain ⟨hln, hnum⟩ := rddiff_chg s
  unfold getdiff
  rw [← Prod.eta (rddiff 512 s), hline]
  dsimp only
  rw [if_pos (by decide), hln, hnum]

theorem getdiff_add (hk : 0 < k) (ha : a < 2 ^ 31) (hc : c + k ≤ 2 ^ 31)
    (hs : s.diffin = commandLine a 1 'a' c k ++ '\n' :: p) :
    getdiff stale type' s = (some ⟨INS, BitVec.ofNat 32 a, BitVec.ofNat 32 k⟩, (rddiff 512 s).2) ∧
      (rddiff 512 s).2.diffin = p := by
  obtain ⟨hline, hdiffin⟩ := rddiff_command (by decide) Nat.one_pos hk ha hc hs
  refine ⟨?_, hdiffin⟩
  unfold getdiff
  rw [← Prod.eta (rddiff 512 s), hline]
  dsimp only
  rw [if_neg (range_head a 1 _), linerange_range a Nat.one_pos (by decide) (by decide)]
  change (some (⟨INS, BitVec.ofNat 32 a, (linerange (range c k ++ ['\n'])).2.1 -
    (linerange (range c k ++ ['\n'])).1 + 1⟩ : Command), (rddiff 512 s).2) = _
  rw [linerange_range c hk (by decide) (by decide), range_lines c hk]

theorem getdiff_del (hk : 0 < k) (ha : a + k < 2 ^ 31) (hc : c < 2 ^ 31)
    (hs : s.diffin = commandLine a k 'd' c 1 ++ '\n' :: p) :
    getdiff stale type' s = (some ⟨DEL, BitVec.ofNat 32 a, BitVec.ofNat 32 k⟩, skipline k (rddiff 512 s).2) ∧
      (rddiff 512 s).2.diffin = p := by
  obtain ⟨hline, hdiffin⟩ := rddiff_command (by decide) hk Nat.one_pos ha.le hc hs
  refine ⟨?_, hdiffin⟩
  have hnat := toNat_lines (n := k) (by omega)
  unfold getdiff
  rw [← Prod.eta (rddiff 512 s), hline]
  dsimp only
  rw [if_neg (range_head a k _), linerange_range a hk (by decide) (by decide)]
  dsimp only
  rw [range_lines a hk, hnat]
  rfl

theorem getdiff_chg (hk : 0 < k) (hm : 0 < m) (ha : a + k < 2 ^ 31) (hc : c + m < 2 ^ 31)
    (hs : s.diffin = commandLine a k 'c' c m ++ '\n' :: p) :
    getdiff stale type' s = (some ⟨DEL, BitVec.ofNat 32 a, BitVec.ofNat 32 k⟩,
        skipline k { (rddiff 512 s).2 with chg_ln := BitVec.ofNat 32 a, chg_num := BitVec.ofNat 32 m }) ∧
      (rddiff 512 s).2.diffin = p := by
  obtain ⟨hline, hdiffin⟩ := rddiff_command (by decide) hk hm ha.le hc.le hs
  refine ⟨?_, hdiffin⟩
  have hnat := toNat_lines (n := k) (by omega)
  unfold getdiff
  rw [← Prod.eta (rddiff 512 s), hline]
  dsimp only
  rw [if_neg (range_head a k _), linerange_range a hk (by decide) (by decide)]
  dsimp only
  rw [range_lines a hk, hnat]
  change (some (⟨DEL, BitVec.ofNat 32 a, BitVec.ofNat 32 k⟩ : Command),
    skipline k { (rddiff 512 s).2 with
      chg_ln := BitVec.ofNat 32 a
      chg_num := (linerange (range c m ++ ['\n'])).2.1 - (linerange (range c m ++ ['\n'])).1 + 1 }) = _
  rw [linerange_range c hm (by decide) (by decide), range_lines c hm]

end commands

/-! ## Turns -/

section turns

variable (k : Copying) (str : ℕ → List Char) (stale : ℕ → BitVec 32) (ser : ℕ)
variable {s : State} {fuel n : ℕ} {type : Char} {r : List Char} {c : Change}

theorem num_lines_ne (hn : 0 < n) (hlt : n < 2 ^ 31) : BitVec.ofNat 32 n ≠ 0 := by
  intro h
  have hnat := toNat_lines hlt
  rw [h] at hnat
  exact absurd hnat (Nat.ne_of_lt hn)

theorem deltaLoop_end (hs : s.diffin = []) : deltaLoop k str stale ser fuel type s = [] := by
  cases fuel with
  | zero => rfl
  | succ fuel =>
    have hget := getdiff_end (stale fuel) type hs
    unfold deltaLoop
    rw [← Prod.eta (getdiff (stale fuel) type s), hget]

/-- A turn of the loop that inserts -/
theorem deltaLoop_ins {linenum : BitVec 32} {t : State} (hn : 0 < n) (hlt : n < 2 ^ 31)
    (hget : getdiff (stale fuel) type s = (some ⟨INS, linenum, BitVec.ofNat 32 n⟩, t)) :
    deltaLoop k str stale ser (fuel + 1) type s =
      ⟨⟨INS, linenum, BitVec.ofNat 32 n⟩, (insert k (str fuel) linenum n ser t).1, left n t.diffin⟩ ::
        deltaLoop k str stale ser fuel INS (insert k (str fuel) linenum n ser t).2 := by
  rw [deltaLoop, hget]
  dsimp only
  rw [if_neg (num_lines_ne hn hlt), if_pos rfl, toNat_lines hlt, insert_diffin]

/-- A turn of the loop that deletes -/
theorem deltaLoop_del {linenum : BitVec 32} {t : State} (hn : 0 < n) (hlt : n < 2 ^ 31)
    (hget : getdiff (stale fuel) type s = (some ⟨DEL, linenum, BitVec.ofNat 32 n⟩, t)) :
    deltaLoop k str stale ser (fuel + 1) type s = ⟨⟨DEL, linenum, BitVec.ofNat 32 n⟩, [], t.diffin⟩ ::
        deltaLoop k str stale ser fuel DEL (delete k linenum n ser t) := by
  rw [deltaLoop, hget]
  dsimp only
  rw [if_neg (num_lines_ne hn hlt), if_neg (by decide), toNat_lines hlt]
  rfl

/-- Lines are inserted as they are in the script if and only if they are short. -/
theorem turn_insert {linenum : BitVec 32} {t : State} {new : List Line} (hne : new ≠ []) (hlt : new.length < 2 ^ 31)
    (hget : getdiff (stale fuel) type s = (some ⟨INS, linenum, BitVec.ofNat 32 new.length⟩, t))
    (ht : t.diffin = prefixed '>' new ++ r) :
    ∃ (turn : Turn) (u : State), deltaLoop k str stale ser (fuel + 1) type s =
        turn :: deltaLoop k str stale ser fuel INS u ∧
      ((∀ l ∈ new, l.text.length ≤ 508) → u.diffin = r ∧
        turn = ⟨⟨INS, linenum, BitVec.ofNat 32 new.length⟩, content new, r⟩) ∧
      (turn.rest = r → ∀ l ∈ new, l.text.length ≤ 508) := by
  have hleft := left_prefixed (r := r) (c := '>') (by decide) new
  rw [← ht] at hleft
  refine ⟨_, _, deltaLoop_ins k str stale ser (length_pos_of_ne_nil hne) hlt hget, ?_, hleft.mp⟩
  intro hnew
  refine ⟨?_, ?_⟩
  · rw [insert_diffin, hleft.mpr hnew]
  · rw [insert_text k (str fuel) linenum ser (by decide) new hnew ht, hleft.mpr hnew]

/-- The lines of a deletion are skipped if and only if they are short. -/
theorem turn_delete {linenum : BitVec 32} {t : State} {old : List Line} (hne : old ≠ []) (hlt : old.length < 2 ^ 31)
    (hget : getdiff (stale fuel) type s =
      (some ⟨DEL, linenum, BitVec.ofNat 32 old.length⟩, skipline old.length t))
    (ht : t.diffin = prefixed '<' old ++ r) :
    ∃ (turn : Turn) (u : State), deltaLoop k str stale ser (fuel + 1) type s =
        turn :: deltaLoop k str stale ser fuel DEL u ∧
      (u.chg_ln = t.chg_ln ∧ u.chg_num = t.chg_num) ∧
      ((∀ l ∈ old, l.text.length ≤ 508) → u.diffin = r ∧
        turn = ⟨⟨DEL, linenum, BitVec.ofNat 32 old.length⟩, [], r⟩) ∧
      (turn.rest = r → ∀ l ∈ old, l.text.length ≤ 508) := by
  have hleft := left_prefixed (r := r) (c := '<') (by decide) old
  rw [← ht, ← skipline_diffin] at hleft
  refine ⟨_, _, deltaLoop_del k str stale ser (length_pos_of_ne_nil hne) hlt hget, ?_, ?_, hleft.mp⟩
  · exact skipline_chg old.length t
  · intro hold
    exact ⟨hleft.mpr hold, by rw [hleft.mpr hold]⟩

/-- The turns of a change are as they should be if and only if its lines are short. -/
theorem change_turns (hok : c.Ok) (hs : s.diffin = c.print ++ r) (fuel : ℕ) (type : Char) :
    ((∀ l ∈ c.lines, l.text.length ≤ 508) → ∃ (type' : Char) (t : State), t.diffin = r ∧
      deltaLoop k str stale ser (fuel + (turns r c).length) type s =
        turns r c ++ deltaLoop k str stale ser fuel type' t) ∧
    ∀ ts, deltaLoop k str stale ser (fuel + (turns r c).length) type s = turns r c ++ ts →
      ∀ l ∈ c.lines, l.text.length ≤ 508 := by
  cases c with
  | add b c new =>
    obtain ⟨hne, hb, hlt⟩ := hok
    have hs' : s.diffin = commandLine b 1 'a' c new.length ++ '\n' :: (prefixed '>' new ++ r) := by
      rw [hs]
      simp [Change.print, commandLine, range_one]
    obtain ⟨hget, hdiffin⟩ := getdiff_add (stale fuel) type (length_pos_of_ne_nil hne) hb hlt.le hs'
    obtain ⟨turn, t, hloop, hshort, hlong⟩ := turn_insert k str stale ser hne (by omega) hget hdiffin
    refine ⟨?_, ?_⟩
    · intro hc
      obtain ⟨ht, rfl⟩ := hshort hc
      exact ⟨INS, t, ht, hloop⟩
    · intro ts hts
      have hturn := (List.cons.inj (hloop.symm.trans hts)).1
      exact hlong (congrArg Turn.rest hturn)
  | del a d old =>
    obtain ⟨hne, hlt, hd⟩ := hok
    have hs' : s.diffin = commandLine a old.length 'd' d 1 ++ '\n' :: (prefixed '<' old ++ r) := by
      rw [hs]
      simp [Change.print, commandLine, range_one]
    obtain ⟨hget, hdiffin⟩ := getdiff_del (stale fuel) type (length_pos_of_ne_nil hne) hlt hd hs'
    obtain ⟨turn, t, hloop, -, hshort, hlong⟩ := turn_delete k str stale ser hne (by omega) hget hdiffin
    refine ⟨?_, ?_⟩
    · intro hc
      obtain ⟨ht, rfl⟩ := hshort hc
      exact ⟨DEL, t, ht, hloop⟩
    · intro ts hts
      have hturn := (List.cons.inj (hloop.symm.trans hts)).1
      exact hlong (congrArg Turn.rest hturn)
  | chg a old c new =>
    obtain ⟨hold, hnew, ha, hc⟩ := hok
    have hs' : s.diffin = commandLine a old.length 'c' c new.length ++ '\n' ::
        (prefixed '<' old ++ ("---\n".toList ++ (prefixed '>' new ++ r))) := by
      rw [hs]
      simp [Change.print, commandLine]
    obtain ⟨hget, hdiffin⟩ := getdiff_chg (stale (fuel + 1)) type (length_pos_of_ne_nil hold)
      (length_pos_of_ne_nil hnew) ha hc hs'
    obtain ⟨turn, t, hloop, ⟨hln, hnum⟩, hshort, hlong⟩ :=
      turn_delete k str stale ser hold (by omega) hget hdiffin
    -- the second turn, when the first one ends at the line between the two kinds of lines
    have hsecond (hd : t.diffin = "---\n".toList ++ (prefixed '>' new ++ r)) := by
      obtain ⟨hget', hdiffin'⟩ := getdiff_dash (stale fuel) DEL hd
      rw [hln, hnum] at hget'
      exact turn_insert k str stale ser hnew (by omega) hget' hdiffin'
    refine ⟨?_, ?_⟩
    · intro hlines
      obtain ⟨hcold, hcnew⟩ := forall_mem_append.mp hlines
      obtain ⟨ht, rfl⟩ := hshort hcold
      obtain ⟨turn', u, hloop', hshort', -⟩ := hsecond ht
      obtain ⟨hu, rfl⟩ := hshort' hcnew
      exact ⟨INS, u, hu, hloop.trans (congrArg _ hloop')⟩
    · intro ts hts
      obtain ⟨hturn, htail⟩ := List.cons.inj (hloop.symm.trans hts)
      have hcold := hlong (congrArg Turn.rest hturn)
      obtain ⟨turn', u, hloop', -, hlong'⟩ := hsecond (hshort hcold).1
      have hturn' := (List.cons.inj (hloop'.symm.trans htail)).1
      exact forall_mem_append.mpr ⟨hcold, hlong' (congrArg Turn.rest hturn')⟩

end turns

/-! ## The x-file -/

/-! ## Runs -/

section runs

variable (k : Copying) (str : ℕ → List Char) (stale : ℕ → BitVec 32) (ser : ℕ)

/-- The loop does what the script says if and only if no line with its prefix is longer than the buffer. -/
theorem deltaLoop_iff (cs : List Change) (hok : ∀ c ∈ cs, c.Ok) (s : State) (hs : s.diffin = script cs) (fuel : ℕ)
    (hfuel : (allTurns cs).length < fuel) (type : Char) :
    deltaLoop k str stale ser fuel type s = allTurns cs ↔ ∀ c ∈ cs, ∀ l ∈ c.lines, l.text.length ≤ 508 := by
  induction cs generalizing s fuel type with
  | nil =>
    rw [deltaLoop_end k str stale ser hs]
    exact ⟨fun _ => by simp, fun _ => rfl⟩
  | cons c cs ih =>
    obtain ⟨hc, hcs⟩ := forall_mem_cons.mp hok
    rw [allTurns, length_append] at hfuel
    obtain ⟨fuel, rfl⟩ : ∃ fuel', fuel = fuel' + (turns (script cs) c).length :=
      ⟨fuel - (turns (script cs) c).length, by omega⟩
    have hs' : s.diffin = c.print ++ script cs := hs
    obtain ⟨hshort, hlong⟩ := change_turns k str stale ser hc hs' fuel type
    rw [forall_mem_cons, allTurns]
    constructor
    · intro heq
      have hlines := hlong _ heq
      obtain ⟨type', t, ht, hloop⟩ := hshort hlines
      rw [hloop, append_cancel_left_eq] at heq
      exact ⟨hlines, (ih hcs t ht fuel (by omega) type').mp heq⟩
    · rintro ⟨hlines, hrest⟩
      obtain ⟨type', t, ht, hloop⟩ := hshort hlines
      rw [hloop, (ih hcs t ht fuel (by omega) type').mpr hrest]

end runs

/-- A line of `n` characters -/
def xs (n : ℕ) : Line := ⟨List.replicate n 'x', by simp⟩

theorem xs_length (n : ℕ) : (xs n).text.length = n := length_replicate

def start (cs : List Change) : State := ⟨script cs, 0, 0, false, [], opened []⟩

theorem deltaLoop_fits :
    deltaLoop ⟨fun _ p => p, fun _ p => p⟩ (fun _ => []) (fun _ => 0) 2 2 INS (start [.add 0 1 [xs 508]]) =
      allTurns [.add 0 1 [xs 508]] := by
  refine (deltaLoop_iff _ _ _ 2 [.add 0 1 [xs 508]] ?_ _ rfl 2 (Nat.lt_succ_self 1) INS).mpr ?_
  · simp [Change.Ok]
  · exact forall_mem_singleton.mpr (forall_mem_singleton.mpr (xs_length 508).le)

/-- A line of 509 characters is read in two parts. -/
theorem deltaLoop_cuts :
    deltaLoop ⟨fun _ p => p, fun _ p => p⟩ (fun _ => []) (fun _ => 0) 2 2 INS (start [.add 0 1 [xs 509]]) ≠
      allTurns [.add 0 1 [xs 509]] := by
  intro heq
  have hok : (Change.add 0 1 [xs 509]).Ok := by simp [Change.Ok]
  have hlong := (change_turns (s := start [.add 0 1 [xs 509]]) (r := []) ⟨fun _ p => p, fun _ p => p⟩ (fun _ => [])
    (fun _ => 0) 2 hok (by simp [start, script]) 1 INS).2 [] heq
  have hle := hlong (xs 509) mem_cons_self
  rw [xs_length] at hle
  exact absurd hle (by decide)

end Svr3.Sccs.Diff
