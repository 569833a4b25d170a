import Svr3.Cmd.CronTime

/-!
# Lines of a crontab

How `readcron` and `next_field` of `cron/cron.c` take a line apart, with the cursor. The line in the buffer is
the list of its characters before the null character, and what is behind that one is not to be examined.
-/

namespace Svr3.Crontab

open List

/-! ## The scan -/

def EOLN : String := "unexpected end of line"

def UNEXPECT : String := "unexpected symbol found"

def OUTOFBOUND : String := "number too large or too small for field"

/-- Why the scan of a line stops: an error is mailed, or a character beyond the null character is examined. No loop
makes more turns than the line has positions. -/
inductive Stop where
  | badline (msg : String)
  | beyond
  | turns
  deriving DecidableEq

abbrev Scan := Except Stop

def CTLINESIZE : ℕ := 1000

def NUL : Char := '\x00'

/-- `line[cursor]` -/
def look (line : List Char) (cursor : ℕ) : Scan Char :=
  if cursor < line.length then .ok (line.getD cursor NUL)
  else if cursor = line.length then .ok NUL
  else .error .beyond

/-- `while(line[cursor] == ' ' || line[cursor] == '\t') cursor++;` -/
def skip (line : List Char) : ℕ → ℕ → Scan ℕ
  | 0, _ => .error .turns
  | k + 1, cursor => do
    let c ← look line cursor
    if blank c then skip line k (cursor + 1) else pure cursor

/-- `do { num = num*10 + (line[cursor]-'0'); } while (isdigit(line[++cursor]));` -/
def digitLoop (line : List Char) : ℕ → ℕ → BitVec 32 → Scan (BitVec 32 × ℕ)
  | 0, _, _ => .error .turns
  | k + 1, cursor, num => do
    let c ← look line cursor
    let num := num * 10 + ((c.toNat - '0'.toNat : ℕ) : BitVec 32)
    let c ← look line (cursor + 1)
    if c.isDigit then digitLoop line k (cursor + 1) num else pure (num, cursor + 1)

/-- A number that has to be within the bounds -/
def numAt (lower upper : ℕ) (line : List Char) (cursor : ℕ) : Scan ℕ := do
  let c ← look line cursor
  if !c.isDigit then .error (.badline UNEXPECT)
  else
    let (num, cursor) ← digitLoop line (line.length + 1) cursor 0
    if num.toInt < lower ∨ num.toInt > upper then .error (.badline OUTOFBOUND) else pure cursor

/-- A number or a range -/
def itemAt (lower upper : ℕ) (line : List Char) (cursor : ℕ) : Scan ℕ := do
  let cursor ← numAt lower upper line cursor
  let c ← look line cursor
  if c = '-' then numAt lower upper line (cursor + 1) else pure cursor

/-- `while (TRUE)` -/
def itemLoop (lower upper : ℕ) (line : List Char) : ℕ → ℕ → Scan ℕ
  | 0, _ => .error .turns
  | k + 1, cursor => do
    let cursor ← itemAt lower upper line cursor
    let c ← look line cursor
    if blank c then pure cursor
    else if c = NUL then .error (.badline EOLN)
    else if c ≠ ',' then .error (.badline UNEXPECT)
    else itemLoop lower upper line k (cursor + 1)

/-- `next_field`: the field and the cursor -/
def nextField (lower upper : ℕ) (line : List Char) (cursor : ℕ) : Scan (List Char × ℕ) := do
  let cursor ← skip line (line.length + 1) cursor
  let start := cursor
  let c ← look line cursor
  if c = NUL then .error (.badline EOLN)
  else if c = '*' then
    let c ← look line (cursor + 1)
    if !blank c then .error (.badline UNEXPECT) else pure (['*'], cursor + 1)
  else
    let cursor ← itemLoop lower upper line (line.length + 1) cursor
    pure ((line.drop start).take (cursor - start), cursor)

/-- The loop at `again`: the cursor stays at a `%`, a newline or the null character. -/
def again (line : List Char) : ℕ → ℕ → Scan ℕ
  | 0, _ => .error .turns
  | k + 1, cursor => do
    let c ← look line cursor
    if c ≠ '%' ∧ c ≠ '\n' ∧ c ≠ NUL ∧ c ≠ '\\' then again line k (cursor + 1)
    else if c = '\\' then again line k (cursor + 2)
    else pure cursor

/-- What `readcron` stores of a line -/
structure Entry where
  minute : List Char
  hour : List Char
  daymon : List Char
  month : List Char
  dayweek : List Char
  cmd : List Char
  input : Option (List Char)
  deriving DecidableEq

/-- The body of the loop of `readcron`, with `none` for a comment -/
def readcron (line : List Char) : Scan (Option Entry) := do
  let cursor ← skip line (line.length + 1) 0
  let c ← look line cursor
  if c = '#' then pure none
  else
    let (minute, cursor) ← nextField 0 59 line cursor
    let (hour, cursor) ← nextField 0 23 line cursor
    let (daymon, cursor) ← nextField 1 31 line cursor
    let (month, cursor) ← nextField 1 12 line cursor
    let (dayweek, cursor) ← nextField 0 6 line cursor
    let start := cursor + 1
    let c ← look line start
    if c = NUL then .error (.badline EOLN)
    else
      let cursor ← again line (line.length + 1) start
      let c ← look line cursor
      let cmd := (line.drop start).take (cursor - start)
      let input :=
        if c = '%' then some ((line.drop (cursor + 1)).map fun c => if c = '%' then '\n' else c) else none
      pure (some { minute, hour, daymon, month, dayweek, cmd, input })

/-! ## What is to be stored -/

/-- How many backslashes are directly in front of the place `i` -/
def slashes (text : List Char) (i : ℕ) : ℕ := ((text.take i).reverse.takeWhile (· = '\\')).length

/-- A backslash that is not escaped itself is in front of the place `i`. -/
def Escaped (text : List Char) (i : ℕ) : Prop := slashes text i % 2 = 1

instance (text : List Char) (i : ℕ) : Decidable (Escaped text i) := inferInstanceAs (Decidable (_ = _))

/-- A `%` or newline that ends the command -/
def Ends (text : List Char) (i : ℕ) : Prop := (text[i]? = some '%' ∨ text[i]? = some '\n') ∧ ¬Escaped text i

/-- Nothing ends the command, and the last character is an escaping backslash. -/
def Dangling (text : List Char) : Prop := (∀ i, ¬Ends text i) ∧ Escaped text text.length

/-- The text behind the fifth field and its blank -/
def commandText (line : List Char) : Option (List Char) := do
  let p := line.dropWhile blank
  if p.head? = some '#' then none
  else
    let (_, p) ← next_field 0 59 p
    let (_, p) ← next_field 0 23 p
    let (_, p) ← next_field 1 31 p
    let (_, p) ← next_field 1 12 p
    let (_, p) ← next_field 0 6 p
    if p.tail = [] then none else some p.tail

/-- The command is the text up to the first end, and the input is what is behind it. -/
def Split (text : List Char) (e : Entry) : Prop :=
  ∃ i ≤ text.length, (∀ j < i, ¬Ends text j) ∧ (i = text.length ∨ Ends text i) ∧ e.cmd = text.take i ∧
    e.input = if text[i]? = some '%' then some ((text.drop (i + 1)).map fun c => if c = '%' then '\n' else c)
      else none

/-! ## The cursor -/

/-- The text from the cursor on is `p`. -/
structure At (line : List Char) (cursor : ℕ) (p : List Char) : Prop where
  text : line.drop cursor = p
  le : cursor ≤ line.length

section cursor

variable {line p : List Char} {cursor k : ℕ} {c : Char} {lower upper : ℕ}

theorem At.length (h : At line cursor p) : cursor + p.length = line.length := by
  rw [← h.text, length_drop]
  exact Nat.add_sub_cancel' h.le

theorem At.char_nil (h : At line cursor []) : look line cursor = .ok NUL := by
  have hlen := h.length
  rw [length_nil, Nat.add_zero] at hlen
  rw [look, if_neg (by omega), if_pos hlen]

theorem At.char_cons (h : At line cursor (c :: p)) : look line cursor = .ok c := by
  have hlen := h.length
  rw [length_cons] at hlen
  rw [look, if_pos (by omega), getD_eq_getElem?_getD, ← List.head?_drop, h.text, List.head?_cons,
    Option.getD_some]

theorem At.next (h : At line cursor (c :: p)) : At line (cursor + 1) p := by
  have hlen := h.length
  rw [length_cons] at hlen
  refine ⟨?_, by omega⟩
  rw [← tail_drop, h.text, tail_cons]

theorem At.start (line : List Char) : At line 0 line := ⟨rfl, Nat.zero_le _⟩

theorem skip_at (h : At line cursor p) (hk : p.length < k) :
    ∃ cursor', skip line k cursor = .ok cursor' ∧ At line cursor' (p.dropWhile blank) := by
  induction k generalizing cursor p with
  | zero => omega
  | succ k ih =>
    cases p with
    | nil =>
      simp only [skip, h.char_nil, bind, Except.bind]
      exact ⟨cursor, rfl, h⟩
    | cons c p =>
      simp only [skip, h.char_cons, bind, Except.bind, dropWhile_cons]
      split
      next => exact ih h.next (Nat.lt_of_succ_lt_succ hk)
      next => exact ⟨cursor, rfl, h⟩

theorem digitLoop_at (h : At line cursor (c :: p)) (hc : c.isDigit = true) (hk : p.length < k) (n : BitVec 32) :
    ∃ cursor', digitLoop line k cursor n = .ok ((number n (c :: p)).1, cursor') ∧
      At line cursor' (number n (c :: p)).2 := by
  induction k generalizing cursor c p n with
  | zero => omega
  | succ k ih =>
    rw [number, if_pos hc]
    cases p with
    | nil =>
      simp only [digitLoop, h.char_cons, h.next.char_nil, bind, Except.bind]
      exact ⟨cursor + 1, rfl, h.next⟩
    | cons d p =>
      simp only [digitLoop, h.char_cons, h.next.char_cons, bind, Except.bind]
      split
      next hd => exact ih h.next hd (Nat.lt_of_succ_lt_succ hk) _
      next hd =>
        rw [number, if_neg hd]
        exact ⟨cursor + 1, rfl, h.next⟩

/-- A scan with the cursor does what one on texts does. -/
def Sim (line : List Char) (r : Scan ℕ) : Option (List Char) → Prop
  | none => ∃ msg, r = .error (.badline msg)
  | some q => ∃ cursor, r = .ok cursor ∧ At line cursor q

theorem num_bounds (hup : upper < 2 ^ 31) (n : BitVec 32) :
    (n.toInt < lower ∨ n.toInt > upper) ↔ (n.toNat < lower ∨ upper < n.toNat) := by
  have hlt := n.isLt
  rw [BitVec.toInt_eq_toNat_cond]
  split
  · omega
  · omega

theorem numAt_at (lower : ℕ) (h : At line cursor p) (hup : upper < 2 ^ 31) :
    Sim line (numAt lower upper line cursor) (fieldNum lower upper p) := by
  have hlen := h.length
  cases p with
  | nil =>
    simp only [numAt, h.char_nil, bind, Except.bind]
    exact ⟨UNEXPECT, rfl⟩
  | cons c p =>
    rw [length_cons] at hlen
    simp only [numAt, h.char_cons, bind, Except.bind, fieldNum, List.head?_cons, Option.map_some, Option.getD_some]
    by_cases hc : c.isDigit = true
    · obtain ⟨cursor', hloop, hat⟩ := digitLoop_at h hc (show p.length < line.length + 1 by omega) 0
      simp only [hc, hloop, Bool.not_true, Bool.false_eq_true, if_false, if_true, num_bounds hup]
      rw [num]
      split
      next => exact ⟨OUTOFBOUND, rfl⟩
      next => exact ⟨cursor', rfl, hat⟩
    · rw [Bool.not_eq_true] at hc
      simp only [hc, Bool.not_false, Bool.false_eq_true, if_false, if_true]
      exact ⟨UNEXPECT, rfl⟩

theorem itemAt_at (lower : ℕ) (h : At line cursor p) (hup : upper < 2 ^ 31) :
    Sim line (itemAt lower upper line cursor) (fieldItem lower upper p) := by
  have hnum := numAt_at lower h hup
  rw [fieldItem]
  cases hq : fieldNum lower upper p with
  | none =>
    rw [hq] at hnum
    obtain ⟨msg, herr⟩ := hnum
    simp only [itemAt, herr, bind, Except.bind]
    exact ⟨msg, rfl⟩
  | some q =>
    rw [hq] at hnum
    obtain ⟨cursor', hok, hat⟩ := hnum
    cases q with
    | nil =>
      simp only [itemAt, hok, hat.char_nil, bind, Except.bind]
      exact ⟨cursor', rfl, hat⟩
    | cons c q =>
      simp only [itemAt, hok, hat.char_cons, bind, Except.bind, Option.bind_some]
      by_cases hdash : c = '-'
      · subst hdash
        exact numAt_at _ hat.next hup
      · rw [if_neg hdash]
        split
        next heq => exact absurd (List.cons.inj heq).1 hdash
        next => exact ⟨cursor', rfl, hat⟩

theorem number_length {R : Type*} [Semiring R] (acc : R) (p : List Char) : (number acc p).2.length ≤ p.length := by
  induction p generalizing acc with
  | nil => exact Nat.le_refl 0
  | cons c p ih =>
    rw [number]
    split
    · exact Nat.le_succ_of_le (ih _)
    · exact Nat.le_refl _

theorem fieldNum_length {q : List Char} (h : fieldNum lower upper p = some q) : q.length < p.length := by
  cases p with
  | nil => exact absurd h nofun
  | cons c p =>
    rw [fieldNum] at h
    split at h
    next hc =>
      split at h
      · exact absurd h nofun
      · have hdigit : c.isDigit = true := hc
        rw [← Option.some.inj h, num, number, if_pos hdigit]
        exact Nat.lt_succ_of_le (number_length _ p)
    next => exact absurd h nofun

theorem fieldItem_length {q : List Char} (h : fieldItem lower upper p = some q) : q.length < p.length := by
  rw [fieldItem, Option.bind_eq_some_iff] at h
  obtain ⟨q', hnum, hq⟩ := h
  have hlt := fieldNum_length hnum
  split at hq
  next q'' =>
    have hlt' := fieldNum_length hq
    rw [length_cons] at hlt
    omega
  next => rwa [← Option.some.inj hq]

theorem itemLoop_at (lower : ℕ) {k' : ℕ} (h : At line cursor p) (hup : upper < 2 ^ 31) (hk : p.length ≤ k) (hk' : p.length < k') :
    Sim line (itemLoop lower upper line k' cursor) (fieldItems lower upper k p) := by
  induction k generalizing k' cursor p with
  | zero =>
    obtain ⟨k', rfl⟩ := Nat.exists_eq_add_of_lt hk'
    rw [eq_nil_of_length_eq_zero (Nat.le_zero.mp hk)] at h ⊢
    have hitem := itemAt_at lower h hup
    obtain ⟨msg, herr⟩ : ∃ msg, itemAt lower upper line cursor = .error (.badline msg) := hitem
    simp only [itemLoop, herr, bind, Except.bind]
    exact ⟨msg, rfl⟩
  | succ k ih =>
    obtain ⟨k', rfl⟩ : ∃ n, k' = n + 1 := ⟨k' - 1, by omega⟩
    have hitem := itemAt_at lower h hup
    rw [fieldItems]
    cases hq : fieldItem lower upper p with
    | none =>
      rw [hq] at hitem
      obtain ⟨msg, herr⟩ := hitem
      simp only [itemLoop, herr, bind, Except.bind]
      exact ⟨msg, rfl⟩
    | some q =>
      have hlt := fieldItem_length hq
      rw [hq] at hitem
      obtain ⟨cursor', hok, hat⟩ := hitem
      cases q with
      | nil =>
        simp only [itemLoop, hok, hat.char_nil, bind, Except.bind]
        exact ⟨EOLN, rfl⟩
      | cons c q =>
        rw [length_cons] at hlt
        simp only [itemLoop, hok, hat.char_cons, bind, Except.bind, Option.bind_some]
        by_cases hblank : blank c = true
        · rw [if_pos hblank, if_pos hblank]
          exact ⟨cursor', rfl, hat⟩
        · rw [if_neg hblank, if_neg hblank]
          by_cases hcomma : c = ','
          · rw [if_neg (by rw [hcomma]; decide), if_neg (not_not.mpr hcomma), if_pos hcomma]
            exact ih hat.next (by omega) (by omega)
          · rw [if_neg hcomma]
            split
            next => exact ⟨EOLN, rfl⟩
            next => exact ⟨UNEXPECT, rfl⟩

theorem fieldItems_blank {q : List Char} (h : fieldItems lower upper k p = some q) :
    ∃ c q', q = c :: q' ∧ blank c = true := by
  induction k generalizing p with
  | zero => exact absurd h nofun
  | succ k ih =>
    rw [fieldItems, Option.bind_eq_some_iff] at h
    obtain ⟨r, -, hr⟩ := h
    cases r with
    | nil => exact absurd hr nofun
    | cons c r =>
      dsimp only at hr
      split at hr
      next hblank => exact ⟨c, r, (Option.some.inj hr).symm, hblank⟩
      next =>
        split at hr
        · exact ih hr
        · exact absurd hr nofun

theorem fieldItems_noDigit (hc : c.isDigit = false) : fieldItems lower upper k (c :: p) = none := by
  cases k with
  | zero => rfl
  | succ k =>
    have hnum : fieldNum lower upper (c :: p) = none := by
      rw [fieldNum, if_neg (by rw [List.head?_cons, Option.map_some, Option.getD_some, hc]; exact nofun)]
    rw [fieldItems, fieldItem, hnum, Option.bind_none, Option.bind_none]

/-- `next_field` on the text from the cursor on -/
theorem nextField_at (lower : ℕ) (h : At line cursor p) (hup : upper < 2 ^ 31) :
    match next_field lower upper p with
    | none => ∃ msg, nextField lower upper line cursor = .error (.badline msg)
    | some (f, q) => ∃ cursor', nextField lower upper line cursor = .ok (f, cursor') ∧ At line cursor' q ∧
        ∃ c q', q = c :: q' ∧ blank c = true := by
  have hlen := h.length
  obtain ⟨start, hskip, hat⟩ := skip_at h (show p.length < line.length + 1 by omega)
  have hlen' := hat.length
  rw [next_field]
  obtain ⟨p', hp'⟩ : ∃ p', p' = p.dropWhile blank := ⟨_, rfl⟩
  rw [← hp'] at hat hlen' ⊢
  cases p' with
  | nil =>
    simp only [nextField, hskip, hat.char_nil, bind, Except.bind]
    exact ⟨EOLN, rfl⟩
  | cons c p' =>
    simp only [nextField, hskip, hat.char_cons, bind, Except.bind, List.head?_cons, Option.some.injEq,
      tail_cons]
    by_cases hstar : c = '*'
    · rw [if_pos hstar, if_pos hstar, if_neg (by rw [hstar]; decide)]
      cases p' with
      | nil =>
        simp only [hat.next.char_nil]
        exact ⟨UNEXPECT, rfl⟩
      | cons d p' =>
        simp only [hat.next.char_cons, List.head?_cons, Option.map_some, Option.getD_some]
        by_cases hblank : blank d = true
        · simp only [hblank, if_true, Bool.not_true, Bool.false_eq_true, if_false]
          exact ⟨start + 1, rfl, hat.next, d, p', rfl, hblank⟩
        · rw [Bool.not_eq_true] at hblank
          simp only [hblank, if_true, Bool.not_false, Bool.false_eq_true, if_false]
          exact ⟨UNEXPECT, rfl⟩
    · rw [if_neg hstar, if_neg hstar]
      by_cases hnul : c = NUL
      · have hdigit : c.isDigit = false := by
          rw [hnul]
          rfl
        rw [fieldItems_noDigit hdigit, if_pos hnul]
        exact ⟨EOLN, rfl⟩
      · rw [if_neg hnul]
        have hloop := itemLoop_at lower hat hup (Nat.le_refl _)
          (show (c :: p').length < line.length + 1 by omega)
        cases hq : fieldItems lower upper (c :: p').length (c :: p') with
        | none =>
          rw [hq] at hloop
          obtain ⟨msg, herr⟩ := hloop
          rw [herr]
          exact ⟨msg, rfl⟩
        | some q =>
          rw [hq] at hloop
          obtain ⟨cursor', hok, hend⟩ := hloop
          have hplace : cursor' - start = (c :: p').length - q.length := by
            have hlen'' := hend.length
            omega
          rw [hok]
          refine ⟨cursor', ?_, hend, fieldItems_blank hq⟩
          rw [← hat.text] at hplace ⊢
          rw [← hplace]
          rfl

end cursor

/-! ## Backslashes -/

section text

variable {line text : List Char} {start i k : ℕ} {c : Char}

theorem slashes_succ (h : text[i]? = some c) : slashes text (i + 1) = if c = '\\' then slashes text i + 1 else 0 := by
  have htake : text.take (i + 1) = text.take i ++ [c] := by
    rw [take_add_one, h, Option.toList_some]
  rw [slashes, htake, reverse_append, reverse_singleton, singleton_append, takeWhile_cons]
  split
  next hc => rw [if_pos (of_decide_eq_true hc), length_cons, slashes]
  next hc => rw [if_neg fun heq => hc (decide_eq_true heq), length_nil]

theorem escaped_succ (h : text[i]? = some c) : Escaped text (i + 1) ↔ c = '\\' ∧ ¬Escaped text i := by
  rw [Escaped, slashes_succ h, Escaped]
  split
  next hc => exact ⟨fun hodd => ⟨hc, by omega⟩, fun hodd => by omega⟩
  next hc => exact ⟨fun hodd => absurd hodd (by decide), fun hodd => absurd hodd.1 hc⟩

theorem not_escaped_zero (text : List Char) : ¬Escaped text 0 := by
  rw [Escaped, slashes, take_zero]
  decide

theorem At.place (h : At line start text) (hi : i ≤ text.length) : At line (start + i) (text.drop i) := by
  have hlen := h.length
  refine ⟨?_, by omega⟩
  rw [← h.text, drop_drop]

theorem not_ends_of (h : text[i]? = some c) (h1 : c ≠ '%') (h2 : c ≠ '\n') : ¬Ends text i := by
  rintro ⟨hend | hend, -⟩
  · exact h1 (Option.some.inj (h.symm.trans hend))
  · exact h2 (Option.some.inj (h.symm.trans hend))

/-- From a place that is not escaped the loop goes on to the first end, or beyond the null character. -/
theorem again_spec (h : At line start text) (hnul : NUL ∉ text) (hi : i ≤ text.length)
    (hfirst : ∀ j < i, ¬Ends text j) (hesc : ¬Escaped text i) (hk : text.length < i + k) :
    (Dangling text ∧ again line k (start + i) = .error .beyond) ∨
      ∃ n ≤ text.length, (∀ j < n, ¬Ends text j) ∧ (n = text.length ∨ Ends text n) ∧ ¬Escaped text n ∧
        again line k (start + i) = .ok (start + n) := by
  induction k generalizing i with
  | zero => omega
  | succ k ih =>
    have hat := h.place hi
    cases hget : text[i]? with
    | none =>
      have hlast : i = text.length := Nat.le_antisymm hi (List.getElem?_eq_none_iff.mp hget)
      rw [hlast, drop_length] at hat
      right
      refine ⟨i, hi, hfirst, .inl hlast, hesc, ?_⟩
      rw [hlast]
      simp only [again, hat.char_nil, bind, Except.bind]
      rfl
    | some c =>
      obtain ⟨hlt, hc⟩ := List.getElem?_eq_some_iff.mp hget
      rw [drop_eq_getElem_cons hlt, hc] at hat
      have hnul' : c ≠ NUL := by
        rintro rfl
        exact hnul (hc ▸ getElem_mem hlt)
      simp only [again, hat.char_cons, bind, Except.bind]
      by_cases hback : c = '\\'
      · have hends : ¬Ends text i := not_ends_of hget (by rw [hback]; decide) (by rw [hback]; decide)
        have hnext : Escaped text (i + 1) := (escaped_succ hget).mpr ⟨hback, hesc⟩
        have hfirst' : ∀ j < i + 2, ¬Ends text j := by
          intro j hj hend
          rcases Nat.lt_or_ge j i with hji | hji
          · exact hfirst j hji hend
          · rcases Nat.eq_or_lt_of_le hji with rfl | hji
            · exact hends hend
            · obtain rfl : j = i + 1 := by omega
              exact hend.2 hnext
        rw [if_neg fun hall => hall.2.2.2 hback, if_pos hback]
        rcases Nat.eq_or_lt_of_le (Nat.succ_le_of_lt hlt) with hlast | hroom
        · -- the next character is the null character, and the cursor is moved over it
          left
          refine ⟨⟨fun j hend => ?_, hlast ▸ hnext⟩, ?_⟩
          · rcases Nat.lt_or_ge j (i + 2) with hj | hj
            · exact hfirst' j hj hend
            · have hnone : text[j]? = none := List.getElem?_eq_none (by omega)
              rcases hend.1 with heq | heq
              · rw [hnone] at heq
                exact absurd heq nofun
              · rw [hnone] at heq
                exact absurd heq nofun
          · have hlen := h.length
            obtain ⟨k, rfl⟩ : ∃ k', k = k' + 1 := ⟨k - 1, by omega⟩
            rw [again, look, if_neg (by omega), if_neg (by omega)]
            rfl
        · cases hget' : text[i + 1]? with
          | none => exact absurd (List.getElem?_eq_none_iff.mp hget') (by omega)
          | some d =>
            have hesc' : ¬Escaped text (i + 2) := fun he => ((escaped_succ hget').mp he).2 hnext
            exact ih (by omega) hfirst' hesc' (by omega)
      · have hesc' : ¬Escaped text (i + 1) := fun he => hback ((escaped_succ hget).mp he).1
        by_cases hsep : c = '%' ∨ c = '\n'
        · right
          refine ⟨i, hi, hfirst, .inr ⟨?_, hesc⟩, hesc, ?_⟩
          · rw [hget]
            exact hsep.imp (congrArg some) (congrArg some)
          · rw [if_neg fun hall => hsep.elim hall.1 hall.2.1, if_neg hback]
            rfl
        · rw [not_or] at hsep
          rw [if_pos ⟨hsep.1, hsep.2, hnul', hback⟩]
          refine ih (Nat.succ_le_of_lt hlt) (fun j hj => ?_) hesc' (by omega)
          rcases Nat.eq_or_lt_of_le (Nat.le_of_lt_succ hj) with rfl | hj
          · exact not_ends_of hget hsep.1 hsep.2
          · exact hfirst j hj

end text

/-! ## Lines -/

/-- What is to become of a line, given the text behind its fields -/
def Taken (r : Scan (Option Entry)) : Option (List Char) → Prop
  | none => r = .ok none ∨ ∃ msg, r = .error (.badline msg)
  | some text => (Dangling text ∧ r = .error .beyond) ∨ ¬Dangling text ∧ ∃ e, r = .ok (some e) ∧ Split text e

section line

variable {line p : List Char} {cursor lower upper : ℕ}

/-- A field of the line is taken, and what follows it. -/
theorem taken_field (h : At line cursor p) (hup : upper < 2 ^ 31) {f : List Char × ℕ → Scan (Option Entry)}
    {g : List Char × List Char → Option (List Char)}
    (hnext : ∀ field cursor' c q, At line cursor' (c :: q) → Taken (f (field, cursor')) (g (field, c :: q))) :
    Taken (nextField lower upper line cursor >>= f) (next_field lower upper p >>= g) := by
  have hfield := nextField_at lower h hup
  cases hq : next_field lower upper p with
  | none =>
    rw [hq] at hfield
    obtain ⟨msg, herr⟩ := hfield
    rw [herr]
    exact .inr ⟨msg, rfl⟩
  | some r =>
    rw [hq] at hfield
    obtain ⟨cursor', hok, hat, c, q, hblank, -⟩ := hfield
    rw [hok]
    obtain ⟨field, q'⟩ := r
    obtain rfl : q' = c :: q := hblank
    exact hnext field cursor' c q hat

/-- The command is scanned and stored. -/
theorem taken_command {text : List Char} {start : ℕ} (h : At line start text) (hnul : NUL ∉ text)
    (minute hour daymon month dayweek : List Char) :
    Taken (again line (line.length + 1) start >>= fun cursor => look line cursor >>= fun c =>
      pure (some ⟨minute, hour, daymon, month, dayweek, (line.drop start).take (cursor - start),
        if c = '%' then some ((line.drop (cursor + 1)).map fun c => if c = '%' then '\n' else c) else none⟩))
      (some text) := by
  have hlen := h.length
  have hroom : text.length < 0 + (line.length + 1) := by omega
  have hscan := again_spec h hnul (Nat.zero_le _) (fun j hj => absurd hj (Nat.not_lt_zero j))
    (not_escaped_zero text) hroom
  rcases hscan with ⟨hdangling, herr⟩ | ⟨n, hn, hfirst, hlast, hesc, hok⟩
  · rw [Nat.add_zero start] at herr
    rw [herr]
    exact .inl ⟨hdangling, rfl⟩
  · have hstop : ∃ c, look line (start + n) = .ok c ∧ (c = '%' ↔ text[n]? = some '%') := by
      have hat := h.place hn
      cases hget : text[n]? with
      | none =>
        rw [drop_eq_nil_of_le (List.getElem?_eq_none_iff.mp hget)] at hat
        exact ⟨NUL, hat.char_nil, by decide⟩
      | some c =>
        obtain ⟨hlt, hc⟩ := List.getElem?_eq_some_iff.mp hget
        rw [drop_eq_getElem_cons hlt, hc] at hat
        exact ⟨c, hat.char_cons, by rw [Option.some.injEq]⟩
    obtain ⟨c, hchar, hpercent⟩ := hstop
    have hrest : line.drop (start + n + 1) = text.drop (n + 1) := by
      rw [← h.text, drop_drop, Nat.add_assoc]
    rw [Nat.add_zero start] at hok
    rw [hok]
    change Taken (look line (start + n) >>= _) _
    rw [hchar]
    refine .inr ⟨fun hdangling => ?_, _, rfl, n, hn, hfirst, hlast, ?_, ?_⟩
    · rcases hlast with rfl | hend
      · exact hesc hdangling.2
      · exact hdangling.1 n hend
    · rw [h.text, Nat.add_sub_cancel_left]
    · simp only [hpercent, hrest]

theorem readcron_taken (hnul : NUL ∉ line) : Taken (readcron line) (commandText line) := by
  obtain ⟨start, hskip, hat⟩ := skip_at (At.start line) (show line.length < line.length + 1 by omega)
  rw [readcron, hskip, commandText]
  change Taken (look line start >>= _) _
  obtain ⟨p, hp⟩ : ∃ p, p = line.dropWhile blank := ⟨_, rfl⟩
  rw [← hp] at hat ⊢
  by_cases hcomment : p.head? = some '#'
  · obtain ⟨q, rfl⟩ : ∃ q, p = '#' :: q := ⟨_, eq_cons_of_mem_head? hcomment⟩
    rw [hat.char_cons]
    exact .inl rfl
  · have hother : ∃ c, look line start = .ok c ∧ c ≠ '#' := by
      cases p with
      | nil => exact ⟨NUL, hat.char_nil, by decide⟩
      | cons c p => exact ⟨c, hat.char_cons, fun heq => hcomment (by rw [heq, List.head?_cons])⟩
    obtain ⟨c, hchar, hne⟩ := hother
    rw [hchar, if_neg hcomment]
    change Taken (if c = '#' then _ else _) _
    rw [if_neg hne]
    refine taken_field hat (by decide) fun minute cursor1 c1 p1 hat1 => ?_
    refine taken_field hat1 (by decide) fun hour cursor2 c2 p2 hat2 => ?_
    refine taken_field hat2 (by decide) fun daymon cursor3 c3 p3 hat3 => ?_
    refine taken_field hat3 (by decide) fun month cursor4 c4 p4 hat4 => ?_
    refine taken_field hat4 (by decide) fun dayweek cursor5 c5 text hat5 => ?_
    have hlen := hat5.length
    have htext := hat5.next
    change Taken (look line (cursor5 + 1) >>= _) (if text = [] then none else some text)
    cases text with
    | nil =>
      rw [htext.char_nil]
      exact .inr ⟨EOLN, rfl⟩
    | cons c text =>
      have hmem : NUL ∉ c :: text := fun h => hnul (mem_of_mem_drop (htext.text ▸ h))
      rw [htext.char_cons, if_neg (cons_ne_nil c text)]
      change Taken (if c = NUL then _ else _) _
      have hne : c ≠ NUL := fun heq => hmem (heq ▸ mem_cons_self)
      rw [if_neg hne]
      exact taken_command htext hmem minute hour daymon month dayweek

end line

/-- No character beyond the null character is examined and the command and its input are stored as they are to be,
if an end is in the text behind the fields or its last character is no escaping backslash. It is only so then. -/
theorem readcron_split {line : List Char} (hnul : NUL ∉ line) :
    (readcron line ≠ .error .beyond ∧ readcron line ≠ .error .turns ∧
        (∀ text, commandText line = some text → ∃ e, readcron line = .ok (some e)) ∧
        ∀ e, readcron line = .ok (some e) → ∃ text, commandText line = some text ∧ Split text e) ↔
      ∀ text, commandText line = some text → ¬Dangling text := by
  have htaken := readcron_taken hnul
  cases htext : commandText line with
  | none =>
    rw [htext] at htaken
    refine ⟨fun _ => nofun, fun _ => ?_⟩
    rcases htaken with hcomment | ⟨msg, hbad⟩
    · rw [hcomment]
      exact ⟨nofun, nofun, nofun, nofun⟩
    · rw [hbad]
      exact ⟨nofun, nofun, nofun, nofun⟩
  | some text =>
    rw [htext] at htaken
    rcases htaken with ⟨hdangling, hbeyond⟩ | ⟨hdangling, e, hok, hsplit⟩
    · exact ⟨fun h => absurd hbeyond h.1, fun h => absurd hdangling (h text rfl)⟩
    · rw [hok]
      refine ⟨?_, fun _ => ⟨nofun, nofun, fun _ _ => ⟨e, rfl⟩, ?_⟩⟩
      · intro _ text' htext'
        exact Option.some.inj htext' ▸ hdangling
      · intro e' he'
        obtain rfl := Option.some.inj (Except.ok.inj he')
        exact ⟨text, rfl, hsplit⟩

/-- A command with an escaped `%`, and its input -/
theorem readcron_split_input :
    readcron ['*', ' ', '*', ' ', '*', ' ', '*', ' ', '*', ' ', 'a', '\\', '%', '%', 'b'] ≠ .error .beyond :=
  ((@readcron_split ['*', ' ', '*', ' ', '*', ' ', '*', ' ', '*', ' ', 'a', '\\', '%', '%', 'b']
    (by decide)).mpr fun text htext hdangling => by
      have hcommand : some ['a', '\\', '%', '%', 'b'] = some text := htext
      rw [← Option.some.inj hcommand] at hdangling
      exact hdangling.1 3 ⟨.inl rfl, by decide⟩).1

/-- The command of a line without a newline ends in a backslash. -/
theorem readcron_beyond : ¬ ∀ line, NUL ∉ line → line.length ≤ CTLINESIZE - 1 → readcron line ≠ .error .beyond := by
  intro hall
  exact hall ['*', ' ', '*', ' ', '*', ' ', '*', ' ', '*', ' ', 'a', '\\'] (by decide) (by decide) rfl

end Svr3.Crontab
