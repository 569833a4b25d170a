import Mathlib.Algebra.GroupWithZero.Nat
import Svr3.As.ExpandRun
import Svr3.As.Sections

/-!
# Text section 0 and the others

The tables are about text section 0 only. While another section is current, what they need of `.` and `newdot` is
in the saved counter, as long as no instruction is found long there.
-/

namespace Svr3.As.Sections

open List Sweep

variable {cpu : Processor} {junk : Asm → Sditype} {a b : Asm} {X : Sect} {st : State} {d : Sdi}

/-! ## What is asked of a program -/

/-- The distance from the instruction at `.` to its operand, by what is known of the addresses -/
def span (st : State) (d : Sdi) (s : Sym) : ℤ :=
  (st.symtab s).value + d.const - ((st.symtab .dot).value + pcincr d.itype)

/-- The distance is near enough in text section 0, whatever is decided -/
def Reaches (st : State) (d : Sdi) (s : Sym) : Prop :=
  (st.symtab s).isTxt0 ∧ inRange d.itype (span st d s) ∧
    inRange d.itype (span st d s + ((st.symtab s).maxval - (st.symtab .dot).maxval))

/-- The operand is still to come, or what is not decided may put it out of reach -/
def Pending (st : State) (d : Sdi) (s : Sym) : Prop :=
  (st.symtab s).styp = .UNDEF ∨ (st.symtab s).isTxt0 ∧ inRange d.itype (span st d s) ∧
    ¬inRange d.itype (span st d s + ((st.symtab s).maxval - (st.symtab .dot).maxval))

/-- The label of an entry is of another section, or out of reach -/
def Far (st : State) (e : Ssentry) : Prop :=
  let lptr := st.symtab e.labptr
  let dot := (st.symtab .dot).value
  let rest := e.constant - (e.minaddr + pcincr e.itype)
  if lptr.styp = .UNDEF then
    ¬inRange e.itype ((if dot ≠ e.minaddr then dot else e.minaddr + pcincr e.itype) + rest)
  else ¬lptr.isTxt0 ∨ ¬inRange e.itype (lptr.value + rest)

theorem four_sections : NeZero 4 := ⟨Nat.succ_ne_zero 3⟩

attribute [local instance] four_sections

/-- A statement that finds room in the tables. In another section an instruction has no operand of text section 0
near by its offset, and nothing is found out of reach at it. -/
def Apart (a : Asm) : Stmt → Prop
  | .cgsect _ | .line (.fixed _) => True
  | .line (.label _) => a.sect = .text 0 → a.st.selset ≠ [] → a.st.labset.length ≠ MAXLAB
  | .line (.inst d) =>
    if a.sect = .text 0 then
      ∀ s, d.sym = some s → s ≠ .dot → Pending a.st d s → a.st.sdicnt + 1 ≠ MAXSDI
    else
      (∀ s, d.sym = some s → ¬Reaches a.st d s) ∧
        ((∀ s, d.sym = some s → ¬Pending a.st d s) → 1 < a.st.selset.length →
          ∀ e ∈ a.st.selset, ¬Far a.st e)

theorem apart_here (hs : a.sect = .text 0) : Apart a (.line (.inst d)) ↔
    ∀ s, d.sym = some s → s ≠ .dot → Pending a.st d s → a.st.sdicnt + 1 ≠ MAXSDI :=
  iff_of_eq (if_pos hs)

theorem apart_away (hs : a.sect ≠ .text 0) : Apart a (.line (.inst d)) ↔
    (∀ s, d.sym = some s → ¬Reaches a.st d s) ∧
      ((∀ s, d.sym = some s → ¬Pending a.st d s) → 1 < a.st.selset.length →
        ∀ e ∈ a.st.selset, ¬Far a.st e) :=
  iff_of_eq (if_neg hs)

/-- Every statement of the run is one -/
def Fits (cpu : Processor) (junk : Asm → Sditype) : Asm → List Stmt → Prop
  | _, [] => True
  | a, stmt :: prog => Apart a stmt ∧ ∀ b, statement cpu junk a stmt = .ok b → Fits cpu junk b prog

/-- The statements of section `X`, from section `sect` on -/
def lines (X : Sect) : Sect → List Stmt → List Line
  | _, [] => []
  | _, .cgsect newsect :: prog => lines X newsect prog
  | sect, .line line :: prog => (if sect = X then [line] else []) ++ lines X sect prog

/-- After `fixsyms` no section has disturbed another -/
structure Separate (cpu : Processor) (prog : List Stmt) (a : Asm) : Prop where
  /-- the file of a section has its own statements -/
  own : ∀ X, (a.texts X).map Code.line = lines X (.text 0) prog
  counter : ∀ X, a.dots X = address cpu a.st (a.texts X)
  label : ∀ pre l post, a.texts (.text 0) = pre ++ .label l :: post →
    (a.st.symtab (.name l)).value = address cpu a.st pre
  /-- a short instruction and its label are both in text section 0 -/
  short : ∀ X d action, .inst d action ∈ a.texts X → action.isShort a.st →
    X = .text 0 ∧ ∀ l, d.sym = some (.name l) → .label l ∈ a.texts (.text 0)

/-! ## Classification -/

theorem isTxt0_iff {v m : ℤ} : (⟨X.styp, X.sectnum, v, m⟩ : Symbol).isTxt0 ↔ X = .text 0 := by
  cases X with
  | text n => simp [Symbol.isTxt0, Sect.styp, Sect.sectnum]
  | data n => simp [Symbol.isTxt0, Sect.styp]
  | init => simp [Symbol.isTxt0, Sect.styp]
  | lib => simp [Symbol.isTxt0, Sect.styp]
  | cmt => simp [Symbol.isTxt0, Sect.styp]

theorem sdi_some (st : State) (d : Sdi) (s : Sym) :
    sdi st (some s) d.const d.itype =
      if (st.symtab s).styp = .UNDEF then .U_SDI
      else if ¬(st.symtab s).isTxt0 then .L_SDI
      else if ¬inRange d.itype (span st d s) then .L_SDI
      else if inRange d.itype (span st d s + ((st.symtab s).maxval - (st.symtab .dot).maxval)) then .S_SDI
      else .U_SDI := rfl

theorem isTxt0_defined {s : Symbol} (h : s.isTxt0) : s.styp ≠ .UNDEF := by
  rw [h.1]
  decide

theorem sdi_short_iff {s : Sym} : sdi st (some s) d.const d.itype = .S_SDI ↔ Reaches st d s := by
  rw [sdi_some, Reaches]
  by_cases hu : (st.symtab s).styp = .UNDEF
  · rw [if_pos hu]
    simp only [reduceCtorEq, false_iff]
    exact fun h => isTxt0_defined h.1 hu
  · rw [if_neg hu]
    split_ifs <;> simp [*]

theorem sdi_unknown_iff {s : Sym} : sdi st (some s) d.const d.itype = .U_SDI ↔ Pending st d s := by
  rw [sdi_some, Pending]
  by_cases hu : (st.symtab s).styp = .UNDEF
  · simp [hu]
  · rw [if_neg hu]
    split_ifs <;> simp [*]

theorem long_answer {p : Prop} [Decidable p] :
    (if ¬p then Sditype.L_SDI else .U_SDI) = .L_SDI ↔ ¬p := by
  by_cases hp : p <;> simp [hp]

theorem sdiclass_long_iff (hnd : st.notdone = true) {e : Ssentry} :
    sdiclass cpu st e = .L_SDI ↔ Far st e := by
  unfold sdiclass Far
  dsimp only
  by_cases hu : (st.symtab e.labptr).styp = .UNDEF
  · rw [if_neg (not_not.mpr hu), if_pos hu, hnd, if_neg (by decide)]
    exact long_answer
  · rw [if_pos hu, if_neg hu]
    split_ifs <;> simp [*]

/-! ## The tables in another section -/

/-- The state as it is when text section 0 is taken up again -/
def back (dot0 : ℤ) (text0 : List Code) (st : State) : State :=
  { st with
    newdot := dot0
    text := text0
    symtab := Function.update st.symtab .dot ⟨.TXT, 0, dot0, st.PCmax⟩ }

section back

variable {dot0 v : ℤ} {text0 : List Code}

@[simp] theorem back_name (l : ℕ) : (back dot0 text0 st).symtab (.name l) = st.symtab (.name l) := by
  simp [back]

/-- A short instruction moves neither `.` nor `newdot` -/
theorem back_decideShort (hdot : Sym.dot ∉ st.labset) (i : ℕ) (e : Ssentry) :
    back dot0 text0 (decideAt cpu st i e .S_SDI) = decideAt cpu (back dot0 text0 st) i e .S_SDI := by
  simp [decideAt, update, updateShort, back, sweep_update, hdot]

theorem decideShort_dot (hdot : Sym.dot ∉ st.labset) (i : ℕ) (e : Ssentry) :
    (decideAt cpu st i e .S_SDI).symtab .dot =
      { st.symtab .dot with maxval := (st.symtab .dot).maxval - idelta cpu e.itype } := by
  simp [decideAt, update, updateShort, sweep_update, hdot]

variable (cpu) in
/-- Nor is what `Far` looks at of a label changed -/
theorem decideShort_symbol (hn : st.labset.Nodup) (hdot : Sym.dot ∉ st.labset) (i : ℕ) (e : Ssentry)
    (s : Sym) :
    ((decideAt cpu st i e .S_SDI).symtab s).styp = (st.symtab s).styp ∧
      ((decideAt cpu st i e .S_SDI).symtab s).sectnum = (st.symtab s).sectnum ∧
      ((decideAt cpu st i e .S_SDI).symtab s).value = (st.symtab s).value := by
  by_cases hs : s = .dot
  · rw [hs, decideShort_dot hdot]
    exact ⟨rfl, rfl, rfl⟩
  · have hsym : (decideAt cpu st i e .S_SDI).symtab s =
        (sweep (fun lptr => if lptr.value + lptr.maxval > e.minaddr + e.maxaddr then
            some { lptr with maxval := lptr.maxval - idelta cpu e.itype } else none)
          (fun lptr => lptr.maxval = 0) st.labset.length 0 (st.symtab, st.labset)).1 s := by
      simp [decideAt, update, updateShort, sweep_update, hdot, Function.update_of_ne hs]
    have hswept := sweep_swept (fun lptr : Symbol => if lptr.value + lptr.maxval > e.minaddr + e.maxaddr then
        some { lptr with maxval := lptr.maxval - idelta cpu e.itype } else none)
      (fun lptr => lptr.maxval = 0) st.labset.length 0 st.symtab st.labset hn (Nat.zero_add _)
    rw [hsym]
    by_cases hin : s ∈ st.labset
    · rw [hswept.hit s hin]
      dsimp only
      split <;> exact ⟨rfl, rfl, rfl⟩
    · rw [hswept.miss s hin]
      exact ⟨rfl, rfl, rfl⟩

end back

/-- What holds in section `X` at the location `v` -/
structure Away (cpu : Processor) (X : Sect) (dot0 : ℤ) (text0 : List Code) (v : ℤ) (st : State) : Prop where
  inv : Inv cpu text0 0 (back dot0 text0 st)
  dot : st.symtab .dot = ⟨X.styp, X.sectnum, v, st.PCmax⟩
  newdot : st.newdot = v
  notdone : st.notdone = true
  near : ∀ e ∈ st.selset, ¬Far st e

section Away

variable {dot0 v : ℤ} {text0 : List Code}

theorem Inv.sdiclass_back (h : Inv cpu text0 0 (back dot0 text0 st)) {e : Ssentry} (he : e ∈ st.selset)
    (hs : sdiclass cpu st e = .S_SDI) : sdiclass cpu (back dot0 text0 st) e = .S_SDI := by
  obtain ⟨pre, d, post, hent⟩ := h.entry e he
  obtain ⟨l, hl, -⟩ := hent.label
  have hu : (st.symtab (.name l)).styp ≠ .UNDEF := fun hu => (sdiclass_undefined (hl ▸ hu)).1 hs
  unfold sdiclass at hs ⊢
  dsimp only at hs ⊢
  rw [hl] at hs ⊢
  rw [back_name]
  rw [if_pos hu] at hs ⊢
  exact hs

theorem Away.keeps (X : Sect) (dot0 v : ℤ) (text0 : List Code) : Keeps cpu (Away cpu X dot0 text0 v) := by
  intro st i e h hi hu
  have hmem := mem_of_getElem? hi
  have hdot : Sym.dot ∉ st.labset := h.inv.dot_notMem
  have hlabs : st.labset.Nodup := h.inv.lab_nodup
  have hsel : (st.selset.map (·.sdicnt)).Nodup := h.inv.sel_nodup
  have hs : sdiclass cpu st e = .S_SDI := by
    cases hc : sdiclass cpu st e with
    | L_SDI => exact absurd ((sdiclass_long_iff h.notdone).mp hc) (h.near e hmem)
    | S_SDI => rfl
    | U_SDI => exact absurd hc hu
  rw [hs]
  refine ⟨?_, ?_, h.newdot, h.notdone, fun p hp => ?_⟩
  · rw [back_decideShort hdot]
    exact h.inv.short hi (Inv.sdiclass_back h.inv hmem hs)
  · rw [decideShort_dot hdot, h.dot]
    rfl
  · -- an entry that stays has its least address as it was
    have hp' : p ∈ swapOut (st.selset.map fun ptr => if ptr.sdicnt > e.sdicnt then
        { ptr with maxaddr := ptr.maxaddr - idelta cpu e.itype } else ptr) i := hp
    obtain ⟨q, hq, -, hqp⟩ := (mem_swapOut_map (fun p => by split <;> rfl) hsel hi p).mp hp'
    have hsame : p.labptr = q.labptr ∧ p.constant = q.constant ∧ p.minaddr = q.minaddr ∧
        p.itype = q.itype := by
      rw [hqp]
      split <;> exact ⟨rfl, rfl, rfl, rfl⟩
    have hnear := h.near q hq
    obtain ⟨hl, hc, hm, ht⟩ := hsame
    obtain ⟨h1, h2, h3⟩ := decideShort_symbol cpu hlabs hdot i e p.labptr
    obtain ⟨-, -, h4⟩ := decideShort_symbol cpu hlabs hdot i e .dot
    unfold Far Symbol.isTxt0 at hnear ⊢
    dsimp only at hnear ⊢
    rw [h1, h2, h3, h4, hl, hc, hm, ht]
    exact hnear

end Away

/-! ## Between the statements -/

/-- The file of a section, and its location counter -/
def Asm.text (a : Asm) (X : Sect) : List Code := if X = a.sect then a.st.text else a.texts X

def Asm.dot (a : Asm) (X : Sect) : ℤ := if X = a.sect then a.st.newdot else a.dots X

/-- The state as it is in text section 0 -/
def Asm.home (a : Asm) : State := back (a.dot (.text 0)) (a.text (.text 0)) a.st

/-- A statement that no decision changes -/
def Plain : Code → Prop
  | .label _ | .fixed _ | .inst _ .long => True
  | .inst _ .short | .inst _ (.opt _) => False

theorem size_plain {c : Code} (hc : Plain c) (st st' : State) : c.size cpu st = c.size cpu st' := by
  match c, hc with
  | .label _, _ | .fixed _, _ | .inst _ .long, _ => rfl

theorem final_plain {c : Code} (hc : Plain c) (st : State) : c.final cpu st = c.size cpu st := by
  match c, hc with
  | .label _, _ | .fixed _, _ | .inst _ .long, _ => rfl

theorem sizes_plain {text : List Code} (h : ∀ c ∈ text, Plain c) (st st' : State) :
    sizes cpu st text = sizes cpu st' text :=
  congrArg List.sum (map_congr_left fun c hc => size_plain (h c hc) st st')

/-- What is decided stays so, and labels of other sections stay where they are -/
structure Stays (st st' : State) : Prop where
  le : st.sdicnt ≤ st'.sdicnt
  mark : ∀ k ≤ st.sdicnt, k ∉ st.selset.map (·.sdicnt) →
    st'.islongsdi k = st.islongsdi k ∧ k ∉ st'.selset.map (·.sdicnt)
  other : ∀ l, (st.symtab (.name l)).styp ≠ .UNDEF → ¬(st.symtab (.name l)).isTxt0 →
    st'.symtab (.name l) = st.symtab (.name l)

theorem Stays.rfl (st : State) : Stays st st := ⟨le_refl _, fun _ _ hk => ⟨Eq.refl _, hk⟩, fun _ _ _ => Eq.refl _⟩

theorem Stays.trans {st st' st'' : State} (h : Stays st st') (h' : Stays st' st'') : Stays st st'' where
  le := h.le.trans h'.le
  mark k hk hopen := by
    obtain ⟨hmark, hopen'⟩ := h.mark k hk hopen
    obtain ⟨hmark', hopen''⟩ := h'.mark k (hk.trans h.le) hopen'
    exact ⟨hmark'.trans hmark, hopen''⟩
  other l hu hnot := by
    have heq := h.other l hu hnot
    exact (h'.other l (heq ▸ hu) (heq ▸ hnot)).trans heq

theorem Inv.labset_txt0 {text : List Code} {pending : ℤ} (h : Inv cpu text pending st) {l : ℕ}
    (hl : .name l ∈ st.labset) : (st.symtab (.name l)).isTxt0 := by
  obtain ⟨m, hm, hin⟩ := h.lab_mem _ hl
  cases hm
  obtain ⟨pre, post, ht⟩ := append_of_mem hin
  rw [h.label pre l post ht]
  exact ⟨rfl, rfl⟩

theorem Same.stays {st' : State} (h : Same st st')
    (hlab : ∀ l, .name l ∈ st.labset → (st.symtab (.name l)).isTxt0) : Stays st st' where
  le := h.sdicnt.ge
  mark k _ hk := ⟨h.mark k hk, fun hk' => hk (h.still k hk')⟩
  other l _ hnot := h.symtab _ (by simp) fun hin => hnot (hlab l hin)

theorem Stays.generate {st' : State} (h : Stays st st') (n : ℤ) (code : Code) :
    Stays st (generate st' n code) where
  le := h.le
  mark := h.mark
  other l hu hnot := by
    rw [← h.other l hu hnot]
    simp [As.generate]

theorem Stays.entered {st' : State} (h : Stays st st') (s : Sym) (const : ℤ) (itype : Itype) :
    Stays st (entered cpu st' s const itype) where
  le := h.le.trans (Nat.le_succ _)
  mark k hk hopen := by
    obtain ⟨hmark, hopen'⟩ := h.mark k hk hopen
    refine ⟨hmark, fun hin => ?_⟩
    have hle := h.le
    simp only [As.entered, map_append, map_cons, map_nil, mem_append,
      mem_singleton] at hin
    obtain hin | rfl := hin
    · exact hopen' hin
    · omega
  other l hu hnot := by
    rw [← h.other l hu hnot]
    simp [As.entered]

/-- Label `l` of section `X` is at `v` -/
def At (st : State) (X : Sect) (l : ℕ) (v : ℤ) : Prop :=
  (st.symtab (.name l)).styp = X.styp ∧ (st.symtab (.name l)).sectnum = X.sectnum ∧
    (st.symtab (.name l)).value = v

theorem At.stays {l : ℕ} {v : ℤ} (h : At st X l v) (hX : X ≠ .text 0) {st' : State} (hs : Stays st st') :
    At st' X l v := by
  obtain ⟨ht, hn, hv⟩ := h
  have hu : (st.symtab (.name l)).styp ≠ .UNDEF := by
    rw [ht]
    cases X <;> simp [Sect.styp]
  have hnot : ¬(st.symtab (.name l)).isTxt0 := by
    intro hc
    have htxt : (⟨X.styp, X.sectnum, 0, 0⟩ : Symbol).isTxt0 := ⟨ht.symm.trans hc.1, hn.symm.trans hc.2⟩
    exact hX (isTxt0_iff.mp htxt)
  unfold At
  rw [hs.other l hu hnot]
  exact ⟨ht, hn, hv⟩

/-- What holds between the statements of a program that fits -/
structure Good (cpu : Processor) (a : Asm) : Prop where
  overflow : a.overflow = false
  notdone : a.st.notdone = true
  dot : a.st.symtab .dot = ⟨a.sect.styp, a.sect.sectnum, a.st.newdot, a.st.PCmax⟩
  inv : Inv cpu (a.text (.text 0)) 0 a.home
  plain : ∀ X, X ≠ .text 0 → ∀ c ∈ a.text X, Plain c
  counter : ∀ X, X ≠ .text 0 → a.dot X = sizes cpu a.st (a.text X)
  label : ∀ X, X ≠ .text 0 → ∀ pre l post, a.text X = pre ++ .label l :: post →
    At a.st X l (sizes cpu a.st pre)

theorem Good.home_eq (h : Good cpu a) (hs : a.sect = .text 0) : a.home = a.st := by
  have hdot := h.dot
  rw [hs] at hdot
  change a.st.symtab .dot = ⟨.TXT, 0, a.st.newdot, a.st.PCmax⟩ at hdot
  unfold Asm.home back Asm.dot Asm.text
  rw [if_pos hs.symm, if_pos hs.symm, ← hdot, Function.update_eq_self]

theorem Good.inv_here (h : Good cpu a) (hs : a.sect = .text 0) : Inv cpu a.st.text 0 a.st := by
  have hinv := h.inv
  rwa [h.home_eq hs, Asm.text, if_pos hs.symm] at hinv

theorem Good.inv_away (h : Good cpu a) (hs : a.sect ≠ .text 0) :
    Inv cpu (a.texts (.text 0)) 0 (back (a.dots (.text 0)) (a.texts (.text 0)) a.st) := by
  have hinv := h.inv
  rwa [Asm.home, Asm.dot, Asm.text, if_neg (Ne.symm hs), if_neg (Ne.symm hs)] at hinv

/-- A statement in text section 0 -/
theorem Good.here (h : Good cpu a) (hs : a.sect = .text 0) {st' : State} (hinv : Inv cpu st'.text 0 st')
    (hnd : st'.notdone = true) (hstays : Stays a.st st') : Good cpu { a with st := st' } where
  overflow := h.overflow
  notdone := hnd
  dot := by rw [hinv.dot, hs]; rfl
  label X hX pre l post ht := by
    have htext : a.text X = pre ++ .label l :: post := by
      unfold Asm.text at ht ⊢
      rw [if_neg (hs ▸ hX)] at ht ⊢
      exact ht
    have hplain : ∀ c ∈ pre, Plain c := fun c hc => h.plain X hX c (by rw [htext]; simp [hc])
    have hat := (h.label X hX pre l post htext).stays hX hstays
    rwa [sizes_plain hplain _ st'] at hat
  inv := by
    have hdot : st'.symtab .dot = ⟨.TXT, 0, st'.newdot, st'.PCmax⟩ := hinv.dot
    unfold Asm.home back Asm.dot Asm.text
    rw [if_pos hs.symm, if_pos hs.symm, ← hdot, Function.update_eq_self]
    exact hinv
  plain X hX := by
    have hplain := h.plain X hX
    unfold Asm.text at hplain ⊢
    rw [if_neg (hs ▸ hX)] at hplain ⊢
    exact hplain
  counter X hX := by
    have hplain := h.plain X hX
    have hcount := h.counter X hX
    unfold Asm.dot at hcount ⊢
    unfold Asm.text at hplain hcount ⊢
    rw [if_neg (hs ▸ hX)] at hplain hcount ⊢
    rw [if_neg (hs ▸ hX)]
    rw [if_neg (hs ▸ hX)] at hcount
    exact hcount.trans (sizes_plain hplain _ _)

/-- A statement in another section -/
theorem Good.away (h : Good cpu a) (hs : a.sect ≠ .text 0) {st' : State} {c : Code} (hc : Plain c)
    (hinv : Inv cpu (a.texts (.text 0)) 0 (back (a.dots (.text 0)) (a.texts (.text 0)) st'))
    (hdot : st'.symtab .dot = ⟨a.sect.styp, a.sect.sectnum, st'.newdot, st'.PCmax⟩)
    (hnd : st'.notdone = true) (ht : st'.text = a.st.text ++ [c])
    (hnew : st'.newdot = a.st.newdot + c.size cpu st') (hstays : Stays a.st st')
    (hlabel : ∀ l, c = .label l → At st' a.sect l a.st.newdot) : Good cpu { a with st := st' } where
  overflow := h.overflow
  notdone := hnd
  dot := hdot
  label X hX pre l post htext := by
    by_cases hcur : X = a.sect
    · have hold : a.text X = a.st.text := if_pos hcur
      have htext : a.st.text ++ [c] = pre ++ .label l :: post := by
        rw [← ht]
        exact (if_pos hcur).symm.trans htext
      obtain ⟨hpre, hcl, -⟩ | ⟨mid, hpre, -⟩ := snoc_split htext
      · have hcount := h.counter X hX
        have hdot0 : a.dot X = a.st.newdot := if_pos hcur
        have hplain : ∀ c ∈ pre, Plain c := fun x hx => h.plain X hX x (by rw [hold, ← hpre]; exact hx)
        rw [hdot0, hold, ← hpre, sizes_plain hplain _ st'] at hcount
        rw [hcur, ← hcount]
        exact hlabel l hcl
      · have hplain : ∀ c ∈ pre, Plain c := fun x hx => h.plain X hX x (by rw [hold, hpre]; simp [hx])
        have hat := (h.label X hX pre l mid (hold.trans hpre)).stays hX hstays
        rwa [sizes_plain hplain _ st'] at hat
    · have hold : a.text X = pre ++ .label l :: post := by
        have hsame : a.text X = a.texts X := if_neg hcur
        exact hsame.trans ((if_neg hcur).symm.trans htext)
      have hplain : ∀ c ∈ pre, Plain c := fun x hx => h.plain X hX x (by rw [hold]; simp [hx])
      have hat := (h.label X hX pre l post hold).stays hX hstays
      rwa [sizes_plain hplain _ st'] at hat
  inv := by
    unfold Asm.home Asm.dot Asm.text
    rw [if_neg (Ne.symm hs), if_neg (Ne.symm hs)]
    exact hinv
  plain X hX x hx := by
    have hplain := h.plain X hX
    unfold Asm.text at hx hplain
    dsimp only at hx
    split at hx
    · rename_i hcur
      rw [if_pos hcur] at hplain
      rw [ht] at hx
      obtain hx | hx := mem_append.mp hx
      · exact hplain x hx
      · exact mem_singleton.mp hx ▸ hc
    · rename_i hcur
      rw [if_neg hcur] at hplain
      exact hplain x hx
  counter X hX := by
    have hplain := h.plain X hX
    have hcount := h.counter X hX
    unfold Asm.dot at hcount ⊢
    unfold Asm.text at hplain hcount ⊢
    dsimp only
    split
    · rename_i hcur
      rw [if_pos hcur] at hplain hcount
      rw [if_pos hcur] at hcount
      rw [ht, sizes_append, sizes_cons, sizes_nil, hnew, hcount, add_zero, sizes_plain hplain _ st']
    · rename_i hcur
      rw [if_neg hcur] at hplain hcount
      rw [if_neg hcur] at hcount
      exact hcount.trans (sizes_plain hplain _ _)

theorem cgsect_text (a : Asm) (X Y : Sect) : (cgsect a X).text Y = a.text Y := by
  unfold Asm.text cgsect
  dsimp only
  by_cases hY : Y = X
  · rw [if_pos hY, hY, Function.update_apply]
  · rw [if_neg hY, Function.update_apply]

theorem cgsect_stays (a : Asm) (X : Sect) : Stays a.st (cgsect a X).st :=
  ⟨le_refl _, fun _ _ hk => ⟨rfl, hk⟩, fun l _ _ => by simp [cgsect]⟩

theorem Good.cgsect (h : Good cpu a) (X : Sect) : Good cpu (cgsect a X) := by
  have htext := cgsect_text a X
  have hdot (Y : Sect) : (Sections.cgsect a X).dot Y = a.dot Y := by
    unfold Asm.dot Sections.cgsect
    dsimp only
    by_cases hY : Y = X
    · rw [if_pos hY, hY, Function.update_apply]
    · rw [if_neg hY, Function.update_apply]
  have hhome : (Sections.cgsect a X).home = a.home := by
    unfold Asm.home
    rw [htext, hdot]
    simp [back, Sections.cgsect]
  refine ⟨h.overflow, h.notdone, ?_, ?_, fun Y hY => ?_, fun Y hY => ?_, fun Y hY pre l post ht => ?_⟩
  · simp [Sections.cgsect, h.dot]
  · rw [htext, hhome]
    exact h.inv
  · rw [htext]
    exact h.plain Y hY
  · rw [htext, hdot, h.counter Y hY]
    exact sizes_congr cpu rfl _
  · rw [htext] at ht
    have hat := h.label Y hY pre l post ht
    unfold At at hat ⊢
    rw [show sizes cpu (Sections.cgsect a X).st pre = sizes cpu a.st pre from sizes_congr cpu rfl _]
    simpa [Sections.cgsect] using hat

/-! ## Room in the tables -/

theorem oldest_spec :
    ∀ (sel : List Ssentry) (firstsdi i : ℕ) (out : Option ℕ), out.isSome ∨ (∃ e ∈ sel, e.sdicnt < firstsdi) →
      ∃ j, oldest firstsdi i out sel = some j ∧ (out = some j ∨ i ≤ j ∧ j < i + sel.length)
  | [], _, _, some j, _ => ⟨j, rfl, .inl rfl⟩
  | [], _, _, none, h => by simp at h
  | e :: sel, firstsdi, i, out, h => by
    unfold oldest
    rw [length_cons]
    split
    · obtain ⟨j, hj, hin⟩ := oldest_spec sel e.sdicnt (i + 1) (some i) (.inl rfl)
      refine ⟨j, hj, .inr ?_⟩
      obtain hin | hin := hin
      · cases hin
        omega
      · omega
    · rename_i hlt
      have hrest : out.isSome ∨ ∃ e ∈ sel, e.sdicnt < firstsdi := by
        obtain h | ⟨q, hq, hqlt⟩ := h
        · exact .inl h
        · obtain rfl | hq := mem_cons.mp hq
          · exact absurd hqlt hlt
          · exact .inr ⟨q, hq, hqlt⟩
      obtain ⟨j, hj, hin⟩ := oldest_spec sel firstsdi (i + 1) out hrest
      refine ⟨j, hj, hin.imp_right fun hin => ?_⟩
      omega

theorem Inv.punt {text : List Code} (h : Inv cpu text 0 st) (hsel : st.selset ≠ []) :
    ∃ st', punt cpu (st.sdicnt + 1) st = .ok st' ∧ Inv cpu text 0 st' ∧ Same st st' := by
  obtain ⟨e, he⟩ := exists_mem_of_ne_nil _ hsel
  have hlt : e.sdicnt < st.sdicnt + 1 := Nat.lt_succ_of_le (h.open_le he)
  obtain ⟨i, hi, hin⟩ := oldest_spec st.selset (st.sdicnt + 1) 0 none (.inr ⟨e, he, hlt⟩)
  have hilt : i < st.selset.length := by
    obtain hin | hin := hin
    · cases hin
    · omega
  have hget : st.selset[i]? = some st.selset[i] := List.getElem?_eq_getElem hilt
  obtain ⟨st', hst', hexp⟩ := expand_expanded (Inv.keeps text 0) (h.long hget)
  refine ⟨st', ?_, hexp.inv, (decideAt_same hget _).trans hexp.same⟩
  unfold Sections.punt
  rw [hi]
  dsimp only
  rw [hget]
  exact hst'

theorem newsdi_here (h : Inv cpu a.st.text 0 a.st) (hroom : a.st.sdicnt + 1 ≠ MAXSDI) (s : Sym)
    (const : ℤ) (itype : Itype) :
    ∃ st1, newsdi cpu a s const itype = .ok { a with st := entered cpu st1 s const itype } ∧
      Inv cpu a.st.text 0 st1 ∧ Same a.st st1 := by
  obtain ⟨st1, hst1, hinv, hsame⟩ : ∃ st1,
      (if a.st.selset.length = MAXSS then punt cpu (a.st.sdicnt + 1) a.st else .ok a.st) = .ok st1 ∧
        Inv cpu a.st.text 0 st1 ∧ Same a.st st1 := by
    by_cases hfull : a.st.selset.length = MAXSS
    · rw [if_pos hfull]
      refine Inv.punt h fun hnil => ?_
      rw [hnil] at hfull
      exact absurd hfull (by decide)
    · rw [if_neg hfull]
      exact ⟨a.st, rfl, h, .rfl _⟩
  refine ⟨st1, ?_, hinv, hsame⟩
  unfold newsdi entered
  dsimp only
  rw [if_neg hroom, hst1, hsame.sdicnt]
  simp [hroom]

/-! ## A statement -/

/-- What the statement `line` does -/
structure Advanced (cpu : Processor) (a : Asm) (line : Line) (b : Asm) : Prop where
  good : Good cpu b
  sect : b.sect = a.sect
  texts : b.texts = a.texts
  text : ∃ code : Code, code.line = line ∧ b.st.text = a.st.text ++ [code]
  stays : Stays a.st b.st

theorem Good.generate_here (h : Good cpu a) (hs : a.sect = .text 0) {st1 : State} {code : Code} {n : ℤ}
    (hinv : Inv cpu (a.st.text ++ [code]) n st1) (ht : st1.text = a.st.text)
    (hnd : st1.notdone = a.st.notdone) (hstays : Stays a.st st1) :
    Advanced cpu a code.line { a with st := generate st1 n code } := by
  have htext : (generate st1 n code).text = a.st.text ++ [code] := by rw [← ht]; rfl
  have hgen := hstays.generate n code
  refine ⟨h.here hs ?_ (hnd.trans h.notdone) hgen, rfl, rfl, ⟨code, rfl, htext⟩, hgen⟩
  rw [htext]
  exact hinv.generate code

theorem back_generate (dot0 : ℤ) (text0 : List Code) (st : State) (n : ℤ) (code : Code) :
    back dot0 text0 (generate st n code) = back dot0 text0 st := by
  simp [back, generate]

theorem Good.generate_away (h : Good cpu a) (hs : a.sect ≠ .text 0) {st1 : State} (code : Code) {n : ℤ}
    (hc : Plain code) (hn : n = code.size cpu st1)
    (hinv : Inv cpu (a.texts (.text 0)) 0 (back (a.dots (.text 0)) (a.texts (.text 0)) st1))
    (hdot : st1.symtab .dot = ⟨a.sect.styp, a.sect.sectnum, a.st.newdot, st1.PCmax⟩)
    (hnew : st1.newdot = a.st.newdot) (ht : st1.text = a.st.text) (hnd : st1.notdone = true)
    (hstays : Stays a.st st1) (hlab : ∀ l, code ≠ .label l) :
    Advanced cpu a code.line { a with st := generate st1 n code } := by
  have hgen := hstays.generate n code
  refine ⟨h.away hs hc ?_ ?_ hnd ?_ ?_ hgen fun l hl => absurd hl (hlab l), rfl, rfl, ⟨code, rfl, ?_⟩, hgen⟩
  · rw [back_generate]
    exact hinv
  · simp [generate, hdot]
  · simp [generate, ht]
  · simp only [generate, hnew, hn]
    rfl
  · simp [generate, ht]

theorem Good.fixed (h : Good cpu a) (n : ℕ) :
    Advanced cpu a (.fixed n) { a with st := generate a.st n (.fixed n) } := by
  by_cases hs : a.sect = .text 0
  · have hinv := (h.inv_here hs).append (c := .fixed n) (fun l hc => nomatch hc) rfl fun d hd => nomatch hd
    rw [zero_add] at hinv
    exact h.generate_here hs hinv rfl rfl (.rfl _)
  · exact h.generate_away hs (.fixed n) trivial rfl (h.inv_away hs) h.dot rfl rfl h.notdone (.rfl _) (fun l hl => nomatch hl)

/-- A result, or else a label that is multiply defined -/
def Settles {α : Type} (r : Except Stop α) (P : α → Prop) : Prop := (∃ x, r = .ok x ∧ P x) ∨ r = .error .redefined

theorem Inv.deflab {text : List Code} (text' : List Code) (h : Inv cpu text 0 st) {l : ℕ}
    (hu : (st.symtab (.name l)).styp = .UNDEF) {s : Symbol} (hs : s.styp = .TXT) (hs0 : s.sectnum = 0)
    (hv : s.value = st.newdot) (hroom : st.selset ≠ [] → st.labset.length ≠ MAXLAB) :
    ∃ st', deflab cpu { st with symtab := Function.update st.symtab (.name l) s, text := text' } (.name l) =
        .ok st' ∧ Inv cpu (text ++ [.label l]) 0 st' ∧ st'.text = text' ∧ st'.notdone = st.notdone ∧
          Stays st st' := by
  unfold Sections.deflab
  dsimp only
  rw [deflab_symtab st l hs hs0 hv]
  have hdef (labset : List Sym) : Stays st { st with
      symtab := Function.update st.symtab (.name l) ⟨.TXT, 0, st.newdot, st.PCmax⟩
      labset := labset, text := text' } := by
    refine ⟨le_refl _, fun _ _ hk => ⟨rfl, hk⟩, fun m hm _ => Function.update_of_ne (fun he => hm ?_) ..⟩
    rw [he]
    exact hu
  by_cases hsel : st.selset = []
  · rw [if_neg (not_not.mpr hsel)]
    exact ⟨_, rfl, h.enterLabel hu rfl (.inl ⟨rfl, hsel⟩), rfl, rfl, hdef _⟩
  · rw [if_pos hsel]
    have hinv : Inv cpu (text ++ [.label l]) 0 { st with
        symtab := Function.update st.symtab (.name l) ⟨.TXT, 0, st.newdot, st.PCmax⟩
        labset := st.labset ++ [.name l], text := text' } := h.enterLabel hu rfl (.inr rfl)
    obtain ⟨st', hst', hexp⟩ := expand_expanded (Inv.keeps _ _) hinv
    refine ⟨st', ?_, hexp.inv, hexp.same.text, hexp.same.notdone,
      (hdef _).trans (Same.stays hexp.same fun m => Inv.labset_txt0 hinv)⟩
    unfold newlab puntLabs
    dsimp only
    rw [if_neg (hroom hsel)]
    exact hst'

/-- A label of another section is none of the tables -/
theorem Inv.elsewhere_label {text : List Code} (h : Inv cpu text 0 st) {l : ℕ}
    (hu : (st.symtab (.name l)).styp = .UNDEF) {s : Symbol} (hs : ¬s.isTxt0) :
    Inv cpu text 0 { st with symtab := Function.update st.symtab (.name l) s } := by
  have hnot : Code.label l ∉ text := fun hin => by
    obtain ⟨pre, post, ht⟩ := append_of_mem hin
    rw [h.label pre l post ht] at hu
    cases hu
  have hname {m : ℕ} (hm : m ≠ l) : Function.update st.symtab (.name l) s (.name m) = st.symtab (.name m) := by
    simp [hm]
  refine { h with
    entry := fun e he => ?_
    dot := ?_
    label := fun pre m post ht => ?_
    elsewhere := fun m hm => ?_
    near := fun pre d action post ht hleft => ?_ }
  · obtain ⟨pre, d, post, hent⟩ := h.entry e he
    exact ⟨pre, d, post, { hent with }⟩
  · simp [h.dot]
  · have hm : m ≠ l := fun he => hnot (by rw [ht, he]; simp)
    exact (hname hm).trans (h.label pre m post ht)
  · by_cases hml : m = l
    · rw [hml]
      dsimp only
      rw [Function.update_self]
      exact hs
    · dsimp only
      rw [hname hml]
      exact h.elsewhere m hm
  · exact (h.near pre d action post ht hleft).congr (fun _ _ => rfl) (fun _ _ => rfl)

theorem Good.define (h : Good cpu a) {l : ℕ} (hroom : Apart a (.line (.label l))) :
    Settles (statement cpu junk a (.line (.label l))) (Advanced cpu a (.label l)) := by
  unfold statement
  dsimp only
  by_cases hu : (a.st.symtab (.name l)).styp = .UNDEF
  · rw [if_neg (not_not.mpr hu)]
    by_cases hs : a.sect = .text 0
    · have hinv := h.inv_here hs
      have hdot := hinv.dot
      rw [if_pos (by rw [hdot]; exact ⟨rfl, rfl⟩)]
      obtain ⟨st', hst', hinv', ht, hnd, hstays⟩ := Inv.deflab (a.st.text ++ [.label l]) hinv hu
        (s := { a.st.symtab (.name l) with
          value := a.st.newdot, styp := (a.st.symtab .dot).styp, sectnum := (a.st.symtab .dot).sectnum })
        (by rw [hdot]) (by rw [hdot]) rfl (hroom hs)
      rw [hst']
      exact .inl ⟨_, rfl, h.here hs (by rw [ht]; exact hinv') (hnd.trans h.notdone) hstays, rfl, rfl,
        ⟨.label l, rfl, ht⟩, hstays⟩
    · have hdot := h.dot
      have hnot : ¬(a.st.symtab .dot).isTxt0 := by
        rw [hdot, isTxt0_iff]
        exact hs
      rw [if_neg hnot]
      have hstays : Stays a.st { a.st with
          symtab := Function.update a.st.symtab (.name l) { a.st.symtab (.name l) with
            value := a.st.newdot, styp := (a.st.symtab .dot).styp, sectnum := (a.st.symtab .dot).sectnum }
          text := a.st.text ++ [.label l] } := by
        refine ⟨le_refl _, fun _ _ hk => ⟨rfl, hk⟩, fun m hm _ => Function.update_of_ne (fun he => hm ?_) ..⟩
        rw [he]
        exact hu
      refine .inl ⟨_, rfl, h.away hs (c := .label l) trivial ?_ ?_ h.notdone rfl (add_zero _).symm hstays ?_,
        rfl, rfl, ⟨.label l, rfl, rfl⟩, hstays⟩
      · have hback := Inv.elsewhere_label (h.inv_away hs) (l := l) (by rw [back_name]; exact hu)
          (s := { a.st.symtab (.name l) with
            value := a.st.newdot, styp := (a.st.symtab .dot).styp, sectnum := (a.st.symtab .dot).sectnum })
          (by rw [hdot]; exact fun hc => hs (isTxt0_iff.mp hc))
        unfold back at hback ⊢
        dsimp only at hback ⊢
        rwa [Function.update_comm (by simp)] at hback
      · simp [hdot]
      · intro m hm
        cases hm
        simp [At, hdot]
  · rw [if_pos hu]
    exact .inr rfl

theorem register_here (h : Inv cpu a.st.text 0 a.st)
    (hroom : ∀ s, d.sym = some s → s ≠ .dot → Pending a.st d s → a.st.sdicnt + 1 ≠ MAXSDI) :
    ∃ sditype st1, register cpu a d.sym d.const d.itype = .ok (some sditype, { a with st := st1 }) ∧
      Registered cpu d a.st sditype st1 ∧ st1.notdone = a.st.notdone ∧ Stays a.st st1 := by
  have hdot : (a.st.symtab .dot).isTxt0 := by
    rw [h.dot]
    exact ⟨rfl, rfl⟩
  have henter {l : ℕ} (hsym : d.sym = some (.name l)) (hp : Pending a.st d (.name l)) :
      ∃ st1, newsdi cpu a (.name l) d.const d.itype = .ok { a with st := st1 } ∧
        Registered cpu d a.st .U_SDI st1 ∧ st1.notdone = a.st.notdone ∧ Stays a.st st1 := by
    obtain ⟨st1, hnew, hinv, hsame⟩ :=
      newsdi_here h (hroom _ hsym (by simp) hp) (.name l) d.const d.itype
    have hstays := Same.stays hsame fun m => Inv.labset_txt0 h
    exact ⟨_, hnew, ⟨Inv.enter hinv hsym rfl, hsame.text⟩, hsame.notdone, hstays.entered ..⟩
  unfold register
  cases hsym : d.sym with
  | none => exact ⟨.L_SDI, a.st, rfl, .long h, rfl, .rfl _⟩
  | some s =>
    dsimp only
    rw [if_neg (not_not.mpr hdot)]
    cases s with
    | dot =>
      rw [if_neg (by rw [h.dot]; rintro ⟨⟩)]
      cases hs : sdi a.st (some .dot) d.const d.itype with
      | L_SDI => exact ⟨.L_SDI, a.st, rfl, .long h, rfl, .rfl _⟩
      | S_SDI => exact ⟨.S_SDI, a.st, rfl, .short h (h.near_of_sdi (hsym ▸ hs)), rfl, .rfl _⟩
      | U_SDI =>
        dsimp only
        rw [if_pos ⟨rfl, hdot⟩]
        exact ⟨.S_SDI, a.st, rfl, .short h (h.here_of_sdi hsym (hsym ▸ hs)), rfl, .rfl _⟩
    | name l =>
      by_cases hu : (a.st.symtab (.name l)).styp = .UNDEF
      · obtain ⟨st1, hnew, hr⟩ := henter hsym (.inl hu)
        rw [if_pos hu, hnew]
        exact ⟨.U_SDI, st1, rfl, hr⟩
      · rw [if_neg hu]
        cases hs : sdi a.st (some (.name l)) d.const d.itype with
        | L_SDI => exact ⟨.L_SDI, a.st, rfl, .long h, rfl, .rfl _⟩
        | S_SDI => exact ⟨.S_SDI, a.st, rfl, .short h (h.near_of_sdi (hsym ▸ hs)), rfl, .rfl _⟩
        | U_SDI =>
          obtain ⟨st1, hnew, hr⟩ := henter hsym (sdi_unknown_iff.mp hs)
          dsimp only
          rw [if_neg (by simp), hnew]
          exact ⟨.U_SDI, st1, rfl, hr⟩

variable (junk) in
theorem shortsdi_here (h : Inv cpu a.st.text 0 a.st) (hover : a.overflow = false)
    (hroom : ∀ s, d.sym = some s → s ≠ .dot → Pending a.st d s → a.st.sdicnt + 1 ≠ MAXSDI) :
    ∃ sditype st2, shortsdi cpu junk a d.sym d.const d.itype = .ok (sditype, { a with st := st2 }) ∧
      Registered cpu d a.st sditype st2 ∧ st2.notdone = a.st.notdone ∧ Stays a.st st2 := by
  obtain ⟨sditype, st1, hreg, hr, hnd, hstays⟩ := register_here h hroom
  unfold shortsdi
  rw [if_neg (by rw [hover]; decide), hreg]
  dsimp only
  by_cases hlen : 1 < st1.selset.length
  · rw [if_pos hlen]
    obtain ⟨st2, hst2, hexp⟩ := expand_expanded (Inv.keeps _ _) hr.inv
    rw [hst2]
    refine ⟨sditype, st2, rfl, ⟨?_, hexp.same.text.trans hr.text⟩, hexp.same.notdone.trans hnd,
      hstays.trans (Same.stays hexp.same fun m => Inv.labset_txt0 hr.inv)⟩
    rw [hexp.same.sdicnt]
    exact hexp.inv
  · rw [if_neg hlen]
    exact ⟨sditype, st1, rfl, hr, hnd, hstays⟩

variable (cpu) in
/-- In another section a reference is long -/
theorem register_away (hdot : ¬(a.st.symtab .dot).isTxt0) (hshort : ∀ s, d.sym = some s → ¬Reaches a.st d s) :
    register cpu a d.sym d.const d.itype = .ok (none, a) ∨
      register cpu a d.sym d.const d.itype = .ok (some .L_SDI, a) ∧
        ∀ s, d.sym = some s → ¬Pending a.st d s := by
  unfold register
  cases hsym : d.sym with
  | none => exact .inr ⟨rfl, nofun⟩
  | some s =>
    dsimp only
    rw [if_pos hdot]
    by_cases hu : (a.st.symtab s).styp = .UNDEF
    · rw [if_pos hu]
      exact .inl rfl
    · rw [if_neg hu]
      cases hs : sdi a.st (some s) d.const d.itype with
      | L_SDI =>
        refine .inr ⟨rfl, fun s' hs' hp => ?_⟩
        cases hs'
        rw [sdi_unknown_iff.mpr hp] at hs
        cases hs
      | S_SDI => exact absurd (sdi_short_iff.mp hs) (hshort s hsym)
      | U_SDI =>
        dsimp only
        rw [if_neg fun hc => hdot hc.2]
        exact .inl rfl

variable (junk) in
theorem shortsdi_away (h : Good cpu a) (hs : a.sect ≠ .text 0) (hfit : Apart a (.line (.inst d))) :
    ∃ st2, shortsdi cpu junk a d.sym d.const d.itype = .ok (.L_SDI, { a with st := st2 }) ∧
      Inv cpu (a.texts (.text 0)) 0 (back (a.dots (.text 0)) (a.texts (.text 0)) st2) ∧
      st2.symtab .dot = ⟨a.sect.styp, a.sect.sectnum, a.st.newdot, st2.PCmax⟩ ∧
      st2.newdot = a.st.newdot ∧ st2.text = a.st.text ∧ st2.notdone = true ∧ Stays a.st st2 := by
  have hdot : ¬(a.st.symtab .dot).isTxt0 := by
    rw [h.dot, isTxt0_iff]
    exact hs
  rw [apart_away hs] at hfit
  unfold shortsdi
  rw [if_neg (by rw [h.overflow]; decide)]
  obtain hreg | ⟨hreg, hp⟩ := register_away cpu hdot hfit.1
  · rw [hreg]
    exact ⟨a.st, rfl, h.inv_away hs, h.dot, rfl, rfl, h.notdone, .rfl _⟩
  · rw [hreg]
    dsimp only
    by_cases hlen : 1 < a.st.selset.length
    · rw [if_pos hlen]
      have haway : Away cpu a.sect (a.dots (.text 0)) (a.texts (.text 0)) a.st.newdot a.st :=
        ⟨h.inv_away hs, h.dot, rfl, h.notdone, hfit.2 hp hlen⟩
      obtain ⟨st2, hst2, hexp⟩ := expand_expanded (Away.keeps _ _ _ _) haway
      rw [hst2]
      have hstays := Same.stays hexp.same fun m hm => by
        have htxt := Inv.labset_txt0 haway.inv hm
        rwa [back_name] at htxt
      exact ⟨st2, rfl, hexp.inv.inv, hexp.inv.dot, hexp.inv.newdot, hexp.same.text, hexp.inv.notdone, hstays⟩
    · rw [if_neg hlen]
      exact ⟨a.st, rfl, h.inv_away hs, h.dot, rfl, rfl, h.notdone, .rfl _⟩

variable (junk) in
theorem Good.inst (h : Good cpu a) (hfit : Apart a (.line (.inst d))) :
    Settles (statement cpu junk a (.line (.inst d))) (Advanced cpu a (.inst d)) := by
  unfold statement
  dsimp only
  by_cases hs : a.sect = .text 0
  · have hroom := (apart_here hs).mp hfit
    obtain ⟨sditype, st2, hshort, hr, hnd, hstays⟩ := shortsdi_here junk (h.inv_here hs) h.overflow hroom
    rw [hshort]
    have hgen := h.generate_here hs hr.inv hr.text hnd hstays
    cases sditype <;> exact .inl ⟨_, rfl, hgen⟩
  · obtain ⟨st2, hlong, hinv, hdot, hnew, ht, hnd, hstays⟩ := shortsdi_away junk h hs hfit
    rw [hlong]
    exact .inl ⟨_, rfl, h.generate_away hs (.inst d .long) trivial rfl hinv hdot hnew ht hnd hstays
      (fun l hl => nomatch hl)⟩

/-! ## A program -/

/-- What a statement writes is at the end of the file of its section -/
theorem Advanced.own {line : Line} (h : Advanced cpu a line b) (X : Sect) :
    ∃ more, b.text X = a.text X ++ more ∧ more.map Code.line = if a.sect = X then [line] else [] := by
  obtain ⟨code, hline, hcode⟩ := h.text
  unfold Asm.text
  rw [h.sect, h.texts]
  by_cases hX : X = a.sect
  · refine ⟨[code], ?_, ?_⟩
    · rw [if_pos hX, if_pos hX, hcode]
    · rw [if_pos hX.symm, ← hline]
      rfl
  · refine ⟨[], ?_, ?_⟩
    · rw [if_neg hX, if_neg hX, append_nil]
    · rw [if_neg (Ne.symm hX)]
      rfl

variable (junk) in
theorem Good.line (h : Good cpu a) {line : Line} (hfit : Apart a (.line line)) :
    Settles (statement cpu junk a (.line line)) (Advanced cpu a line) := by
  cases line with
  | label l => exact h.define hfit
  | fixed n => exact .inl ⟨_, rfl, h.fixed n⟩
  | inst d => exact h.inst junk hfit

theorem pass1_settles :
    ∀ (prog : List Stmt) (a : Asm), Good cpu a → Fits cpu junk a prog →
      Settles (pass1 cpu junk a prog) fun b => Good cpu b ∧ Stays a.st b.st ∧
        ∀ X, ∃ more, b.text X = a.text X ++ more ∧ more.map Code.line = lines X a.sect prog
  | [], a, h, _ => .inl ⟨a, rfl, h, .rfl _, fun X => ⟨[], (append_nil _).symm, rfl⟩⟩
  | .cgsect X :: prog, a, h, hfits => by
    have ih := pass1_settles prog _ (h.cgsect X) (hfits.2 _ rfl)
    simp only [cgsect_text] at ih
    exact ih.imp_left fun ⟨b, hb, hgood, hst, hown⟩ => ⟨b, hb, hgood, (cgsect_stays a X).trans hst, hown⟩
  | .line line :: prog, a, h, hfits => by
    unfold pass1
    obtain ⟨b, hb, hadv⟩ | herr := h.line junk hfits.1
    · have ih := pass1_settles prog b hadv.good (hfits.2 b hb)
      rw [hb]
      dsimp only
      refine ih.imp_left fun ⟨c, hc, hgood, hst, hown⟩ => ⟨c, hc, hgood, hadv.stays.trans hst, fun X => ?_⟩
      obtain ⟨more, htext, hlines⟩ := hadv.own X
      obtain ⟨more', htext', hlines'⟩ := hown X
      refine ⟨more ++ more', ?_, ?_⟩
      · rw [htext', htext, append_assoc]
      · rw [map_append, hlines, hlines', hadv.sect]
        rfl
    · rw [herr]
      exact .inr rfl

theorem start_good : Good cpu start := by
  refine ⟨rfl, rfl, rfl, ?_, fun X hX c hc => ?_, fun X hX => ?_, fun X hX pre l post ht => ?_⟩
  · have hhome : start.home = As.start := by
      unfold Asm.home back
      have hdot : As.start.symtab .dot = ⟨.TXT, 0, 0, 0⟩ := rfl
      change { As.start with symtab := Function.update As.start.symtab .dot ⟨.TXT, 0, 0, 0⟩ } = As.start
      rw [← hdot, Function.update_eq_self]
    rw [hhome]
    exact start_between.inv
  · have hnil : start.text X = [] := if_neg hX
    rw [hnil] at hc
    cases hc
  · have hnil : start.text X = [] := if_neg hX
    rw [hnil]
    exact if_neg hX
  · have hnil : start.text X = [] := if_neg hX
    rw [hnil] at ht
    exact absurd (congrArg List.length ht) (by simp)

theorem Good.fixsyms (h : Good cpu a) (hs : a.sect = .text 0) :
    ∃ st, fixsyms cpu a.st = .ok st ∧ st.text = a.st.text ∧ Fixed cpu (a.st.text.map Code.line) st ∧
      Stays a.st st := by
  have hinv := (h.inv_here hs).last false
  obtain ⟨st, hst, hexp⟩ := expand_expanded (Inv.keeps _ _) hinv
  have htext : st.text = a.st.text := hexp.same.text
  have hstays := Same.stays hexp.same fun l => Inv.labset_txt0 hinv
  exact ⟨st, hst, htext, ⟨by rw [htext]; exact hexp.inv, by rw [htext], hexp.same.notdone, hexp.unknown⟩,
    ⟨hstays.le, hstays.mark, hstays.other⟩⟩

/-- The tables after `fixsyms`, and the counters saved -/
theorem Good.separate (h : Good cpu a) (hs : a.sect = .text 0) (htext : st.text = a.st.text)
    (hfixed : Fixed cpu (a.st.text.map Code.line) st) {prog : List Stmt}
    (hown : ∀ X, (a.text X).map Code.line = lines X (.text 0) prog) :
    Separate cpu prog (Sections.cgsect { a with st := st } (.text 0)) := by
  -- the counter and the file of text section 0 are saved, the others as they were
  have hdots (X : Sect) : (Sections.cgsect { a with st := st } (.text 0)).dots X =
      if X = .text 0 then st.newdot else a.dot X := by
    unfold Sections.cgsect Asm.dot
    dsimp only
    rw [hs, Function.update_apply]
    split
    · rfl
    · rfl
  have htexts (X : Sect) : (Sections.cgsect { a with st := st } (.text 0)).texts X = a.text X := by
    unfold Sections.cgsect Asm.text
    dsimp only
    rw [hs, Function.update_apply, htext]
  have haddr (s : List Code) : address cpu (Sections.cgsect { a with st := st } (.text 0)).st s = address cpu st s := by
    have hf : Code.final cpu (Sections.cgsect { a with st := st } (.text 0)).st = Code.final cpu st := by
      funext c
      unfold Code.final Sections.cgsect
      rfl
    unfold address
    rw [hf]
  have hhere : a.text (.text 0) = st.text := by
    unfold Asm.text
    rw [if_pos hs.symm, htext]
  refine ⟨fun X => ?_, fun X => ?_, fun pre l post ht => ?_, fun X d action hin hshort => ?_⟩
  · rw [htexts]
    exact hown X
  · rw [hdots, htexts, haddr]
    split
    · rename_i hX
      have hnew := hfixed.inv.newdot
      rw [hX, hhere, hfixed.inv.address_eq (List.Subset.refl _), ← hnew, add_zero]
    · rename_i hX
      rw [h.counter X hX, sizes_plain (h.plain X hX) _ st]
      exact (congrArg List.sum (map_congr_left fun c hc => final_plain (h.plain X hX c hc) st)).symm
  · rw [htexts, hhere] at ht
    have hname : (Sections.cgsect { a with st := st } (.text 0)).st.symtab (.name l) = st.symtab (.name l) := by
      simp [Sections.cgsect]
    rw [hname, haddr]
    exact hfixed.label ht
  · rw [htexts] at hin ⊢
    by_cases hX : X = .text 0
    · refine ⟨hX, fun l hl => ?_⟩
      rw [hX, hhere] at hin
      rw [hhere]
      obtain ⟨pre, post, ht⟩ := append_of_mem hin
      obtain ⟨s, hsym, hlab, -⟩ := hfixed.short ht hshort
      rw [hl] at hsym
      exact hlab l (Option.some.inj hsym).symm
    · have hplain := h.plain X hX _ hin
      match action, hplain, hshort with
      | .long, _, hshort => exact hshort.elim

/-- Where no reference is near by the offset in another section, and no instruction is found long there, each
section has the sum of its sizes in the end -/
theorem fits_separate (cpu : Processor) (junk : Asm → Sditype) (prog : List Stmt)
    (hfits : Fits cpu junk start prog) :
    Settles (assemble cpu junk prog) (Separate cpu prog) := by
  unfold assemble
  obtain ⟨a, ha, hgood, -, hown⟩ | herr := pass1_settles prog start start_good hfits
  · rw [ha]
    dsimp only
    have hown' (X : Sect) : ((cgsect a (.text 0)).text X).map Code.line = lines X (.text 0) prog := by
      have hnil : start.text X = [] := by
        unfold Asm.text
        split <;> rfl
      obtain ⟨more, htext, hlines⟩ := hown X
      rw [cgsect_text, htext, hnil]
      exact hlines
    have hgood' := hgood.cgsect (.text 0)
    obtain ⟨st, hst, htext, hfixed, -⟩ := hgood'.fixsyms rfl
    rw [hst]
    exact .inl ⟨_, rfl, hgood'.separate rfl htext hfixed hown'⟩
  · rw [herr]
    exact .inr rfl

theorem Fits.step {stmt : Stmt} {prog : List Stmt} (h : Apart a stmt) (hb : statement cpu junk a stmt = .ok b)
    (hrest : Fits cpu junk b prog) : Fits cpu junk a (stmt :: prog) := by
  refine ⟨h, fun c hc => ?_⟩
  rw [hb] at hc
  cases hc
  exact hrest

/-- A jump to an address -/
def jump : Sdi := { branch 0 with sym := none }

/-- Two branches wait for a label while a section is begun -/
theorem fits_separate_init :
    Settles (assemble .M68020 (fun _ => .U_SDI) [.line (.inst (branch 1)), .line (.inst (branch 1)),
        .cgsect .init, .line (.inst jump), .cgsect (.text 0), .line (.label 1)])
      (Separate .M68020 [.line (.inst (branch 1)), .line (.inst (branch 1)),
        .cgsect .init, .line (.inst jump), .cgsect (.text 0), .line (.label 1)]) := by
  apply fits_separate
  refine .step ((apart_here rfl).mpr fun _ _ _ _ => by decide) rfl
    (.step ((apart_here rfl).mpr fun _ _ _ _ => by decide) rfl (.step trivial rfl ?_))
  refine .step ((apart_away (by decide)).mpr ⟨fun s hs => (nomatch hs), fun _ _ e he => ?_⟩) rfl
    (.step trivial rfl (.step (fun _ _ => by decide) rfl trivial))
  change e ∈ [(⟨1, .SDI2, 0, 0, .name 1, 0⟩ : Ssentry), ⟨2, .SDI2, 4, 2, .name 1, 0⟩] at he
  simp only [mem_cons, not_mem_nil, or_false] at he
  obtain rfl | rfl := he <;> exact not_not.mpr (by decide)

/-- A label of text section 1 makes the branches of text section 0 long, at a jump behind it. The counter of text
section 1 gets what they grow by. -/
theorem counter_disturbed :
    ¬∀ prog a, assemble .M68020 (fun _ => .U_SDI) prog = .ok a → Separate .M68020 prog a := by
  intro h
  have hsep := h [.line (.inst (branch 1)), .line (.inst (branch 1)), .cgsect (.text 1), .line (.label 1),
    .line (.inst jump)] _ rfl
  exact absurd (hsep.counter (.text 1)) (by decide)

end Svr3.As.Sections
