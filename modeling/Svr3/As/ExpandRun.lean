import Mathlib.Algebra.Order.BigOperators.Group.List
import Mathlib.Algebra.Order.Group.Int
import Svr3.As.Expand
import Mathlib.Algebra.Ring.Int.Defs

/-!
# The span-dependent instructions of a text

Every statement has a least size, and a slack while it is not decided. The sums of these over the statements
before it are what the assembler keeps of an address; a decision changes one statement and so every sum behind
it. An instruction decided short has all of the distances still possible in range.
-/

namespace Svr3.As

open List Sweep

variable {cpu : Processor}

/-! ## Sizes -/

/-- The number in `islongsdi` -/
def Code.num : Code → Option ℕ
  | .inst _ (.opt k) => some k
  | _ => none

def nums (text : List Code) : List ℕ := text.filterMap Code.num

/-- The least a statement takes with what is decided so far; its size when all is decided -/
def Code.size (cpu : Processor) (st : State) : Code → ℤ
  | .label _ => 0
  | .fixed n => n
  | .inst d .short => d.size
  | .inst d .long => d.size + idelta cpu d.itype
  | .inst d (.opt k) => d.size + st.islongsdi k

/-- What may be added to it -/
def Code.slack (cpu : Processor) (st : State) : Code → ℤ
  | .inst d (.opt k) => if k ∈ st.selset.map (·.sdicnt) then idelta cpu d.itype else 0
  | _ => 0

/-- The sum of the sizes of statements -/
def sizes (cpu : Processor) (st : State) (text : List Code) : ℤ := (text.map (Code.size cpu st)).sum

def slacks (cpu : Processor) (st : State) (text : List Code) : ℤ :=
  (text.map (Code.slack cpu st)).sum

@[simp] theorem nums_nil : nums [] = [] := rfl

@[simp] theorem nums_append (s t : List Code) : nums (s ++ t) = nums s ++ nums t :=
  filterMap_append

@[simp] theorem nums_opt (d : Sdi) (k : ℕ) (t : List Code) :
    nums (.inst d (.opt k) :: t) = k :: nums t := rfl

@[simp] theorem nums_label (l : ℕ) (t : List Code) : nums (.label l :: t) = nums t := rfl

@[simp] theorem nums_fixed (n : ℕ) (t : List Code) : nums (.fixed n :: t) = nums t := rfl

@[simp] theorem sizes_append (st : State) (s t : List Code) :
    sizes cpu st (s ++ t) = sizes cpu st s + sizes cpu st t := by
  simp [sizes]

@[simp] theorem slacks_append (st : State) (s t : List Code) :
    slacks cpu st (s ++ t) = slacks cpu st s + slacks cpu st t := by
  simp [slacks]

@[simp] theorem sizes_cons (st : State) (c : Code) (t : List Code) :
    sizes cpu st (c :: t) = c.size cpu st + sizes cpu st t := by
  simp [sizes]

@[simp] theorem slacks_cons (st : State) (c : Code) (t : List Code) :
    slacks cpu st (c :: t) = c.slack cpu st + slacks cpu st t := by
  simp [slacks]

@[simp] theorem sizes_nil (st : State) : sizes cpu st [] = 0 := rfl

@[simp] theorem slacks_nil (st : State) : slacks cpu st [] = 0 := rfl

theorem slack_nonneg (st : State) (c : Code) : 0 ≤ c.slack cpu st := by
  unfold Code.slack
  split
  · rename_i d k
    have := idelta_pos cpu d.itype
    split <;> omega
  · exact le_refl 0

variable (cpu) in
theorem slacks_nonneg (st : State) (text : List Code) : 0 ≤ slacks cpu st text :=
  sum_nonneg fun x hx => by
    obtain ⟨c, _, rfl⟩ := mem_map.mp hx
    exact slack_nonneg st c

/-- The instructions marked in `islongsdi` are marked with what they grow by -/
def Grown (st : State) : Prop := ∀ k, 0 ≤ st.islongsdi k

variable (cpu) in
theorem size_nonneg {st : State} (hg : Grown st) (c : Code) : 0 ≤ c.size cpu st := by
  unfold Code.size
  split
  · exact le_refl 0
  · omega
  · omega
  · rename_i d
    have := idelta_pos cpu d.itype
    omega
  · rename_i d k
    have := hg k
    omega

variable (cpu) in
theorem sizes_nonneg {st : State} (hg : Grown st) (text : List Code) : 0 ≤ sizes cpu st text :=
  sum_nonneg fun x hx => by
    obtain ⟨c, _, rfl⟩ := mem_map.mp hx
    exact size_nonneg cpu hg c

/-! ## A decision -/

/-- `st'` is `st` with instruction `k` decided: it grows by `grown`, at most the slack it had -/
structure Decided (cpu : Processor) (text : List Code) (k : ℕ) (delta grown : ℤ) (st st' : State) :
    Prop where
  size : ∀ c ∈ text, c.size cpu st' = c.size cpu st + if c.num = some k then grown else 0
  slack : ∀ c ∈ text, c.slack cpu st' = c.slack cpu st - if c.num = some k then delta else 0
  grown_nonneg : 0 ≤ grown
  grown_le : grown ≤ delta

theorem nums_cons (c : Code) (t : List Code) : nums (c :: t) = c.num.toList ++ nums t := by
  unfold nums
  rw [filterMap_cons]
  cases c.num <;> rfl

section Decided

variable {text : List Code} {k : ℕ} {delta grown : ℤ} {st st' : State}

theorem Decided.sums (h : Decided cpu text k delta grown st st') :
    ∀ s : List Code, (∀ c ∈ s, c ∈ text) → (nums s).Nodup →
      sizes cpu st' s = sizes cpu st s + (if k ∈ nums s then grown else 0) ∧
      slacks cpu st' s = slacks cpu st s - (if k ∈ nums s then delta else 0)
  | [], _, _ => by simp
  | c :: s, hs, hn => by
    have hc := hs c (.head _)
    have hsize := h.size c hc
    have hslack := h.slack c hc
    rw [nums_cons] at hn ⊢
    have ih := h.sums s (fun x hx => hs x (.tail _ hx)) (nodup_append.mp hn).2.1
    simp only [sizes_cons, slacks_cons, hsize, hslack, ih.1, ih.2, mem_append,
      Option.mem_toList]
    by_cases hk : c.num = some k
    · have hnot : k ∉ nums s := fun hmem =>
        (nodup_append.mp hn).2.2 k (by simp [hk]) k hmem rfl
      simp only [hk, hnot, if_true, if_false, true_or]
      omega
    · simp only [hk, if_false, false_or]
      omega

theorem Decided.sums_le (h : Decided cpu text k delta grown st st') :
    ∀ s : List Code, (∀ c ∈ s, c ∈ text) →
      sizes cpu st s ≤ sizes cpu st' s ∧
      sizes cpu st' s + slacks cpu st' s ≤ sizes cpu st s + slacks cpu st s
  | [], _ => by simp
  | c :: s, hs => by
    have hc := hs c (.head _)
    have hsize := h.size c hc
    have hslack := h.slack c hc
    have ih := h.sums_le s fun x hx => hs x (.tail _ hx)
    have h0 := h.grown_nonneg
    have h1 := h.grown_le
    simp only [sizes_cons, slacks_cons]
    split at hsize <;> split at hslack <;> first | contradiction | constructor <;> omega

end Decided

/-! ## Positions -/

theorem eq_of_num {k : ℕ} {c c' : Code} (h : c.num = some k) (h' : c'.num = some k) :
    ∀ {text : List Code}, (nums text).Nodup → c ∈ text → c' ∈ text → c = c'
  | [], _, hc, _ => absurd hc not_mem_nil
  | x :: text, hn, hc, hc' => by
    rw [nums_cons] at hn
    have hmem {y : Code} (hy : y.num = some k) (hin : y ∈ text) : k ∈ nums text :=
      mem_filterMap.mpr ⟨y, hin, hy⟩
    have hdisj := (nodup_append.mp hn).2.2
    obtain hx | hin := mem_cons.mp hc <;> obtain hx' | hin' := mem_cons.mp hc'
    · rw [hx, hx']
    · exact absurd rfl (hdisj k (by simp [← hx, h]) k (hmem h' hin'))
    · exact absurd rfl (hdisj k (by simp [← hx', h']) k (hmem h hin))
    · exact eq_of_num h h' (nodup_append.mp hn).2.1 hin hin'

/-- A place of the text is behind instruction `k`, or not -/
theorem place {k : ℕ} {d : Sdi} {pre post prek postk : List Code}
    (ht : pre ++ post = prek ++ .inst d (.opt k) :: postk) (hn : (nums (pre ++ post)).Nodup) :
    (k ∈ nums pre ∧ ∃ mid, pre = prek ++ .inst d (.opt k) :: mid) ∨
      (k ∉ nums pre ∧ ∃ mid, prek = pre ++ mid ∧ post = mid ++ .inst d (.opt k) :: postk) := by
  obtain ⟨mid, hpre, hpost⟩ | ⟨mid, hpre, hpost⟩ := append_eq_append_iff.mp ht
  · refine .inr ⟨fun hk => ?_, mid, hpre, hpost⟩
    rw [nums_append, hpost] at hn
    exact (nodup_append.mp hn).2.2 k hk k (by simp) rfl
  · cases mid with
    | nil =>
      refine .inr ⟨fun hk => ?_, [], by simpa using hpre.symm, by simpa using hpost.symm⟩
      rw [nums_append, ← nil_append post, ← hpost] at hn
      exact (nodup_append.mp hn).2.2 k hk k (by simp) rfl
    | cons c mid =>
      rw [cons_append] at hpost
      obtain ⟨rfl, hpost⟩ := List.cons.inj hpost
      exact .inl ⟨by simp [hpre], mid, hpre⟩

section place

variable {k : ℕ} {d : Sdi} {pre post prek postk : List Code} {st : State}

variable (cpu) in
theorem sizes_lt_iff (hg : Grown st) (ht : pre ++ post = prek ++ .inst d (.opt k) :: postk)
    (hn : (nums (pre ++ post)).Nodup) :
    sizes cpu st prek < sizes cpu st pre ↔ k ∈ nums pre := by
  obtain ⟨hk, mid, hpre⟩ | ⟨hk, mid, hpre, _⟩ := place ht hn
  · have hpos := d.size_pos
    have hmark := hg k
    have hmid := sizes_nonneg cpu hg mid
    simp only [hk, iff_true]
    rw [hpre, sizes_append, sizes_cons]
    simp only [Code.size]
    omega
  · have hmid := sizes_nonneg cpu hg mid
    simp only [hk, iff_false]
    rw [hpre, sizes_append]
    omega

theorem slack_open (hk : k ∈ st.selset.map (·.sdicnt)) :
    (Code.inst d (.opt k)).slack cpu st = idelta cpu d.itype := by
  simp only [Code.slack, hk, if_true]

theorem most_lt_iff (hg : Grown st) (ho : k ∈ st.selset.map (·.sdicnt))
    (ht : pre ++ post = prek ++ .inst d (.opt k) :: postk) (hn : (nums (pre ++ post)).Nodup) :
    sizes cpu st prek + slacks cpu st prek < sizes cpu st pre + slacks cpu st pre ↔ k ∈ nums pre := by
  obtain ⟨hk, mid, hpre⟩ | ⟨hk, mid, hpre, _⟩ := place ht hn
  · have hpos := idelta_pos cpu d.itype
    have hsize := size_nonneg cpu hg (.inst d (.opt k))
    have hmid := sizes_nonneg cpu hg mid
    have hslack := slacks_nonneg cpu st mid
    simp only [hk, iff_true]
    rw [hpre, sizes_append, sizes_cons, slacks_append, slacks_cons, slack_open ho]
    omega
  · have hmid := sizes_nonneg cpu hg mid
    have hslack := slacks_nonneg cpu st mid
    simp only [hk, iff_false]
    rw [hpre, sizes_append, slacks_append]
    omega

theorem slacks_pos (ho : k ∈ st.selset.map (·.sdicnt))
    (ht : pre ++ post = prek ++ .inst d (.opt k) :: postk) (hn : (nums (pre ++ post)).Nodup)
    (hk : k ∈ nums pre) : 0 < slacks cpu st pre := by
  obtain ⟨_, mid, hpre⟩ | ⟨hnot, _⟩ := place ht hn
  · have hpos := idelta_pos cpu d.itype
    have hslack := slacks_nonneg cpu st mid
    have hslack' := slacks_nonneg cpu st prek
    rw [hpre, slacks_append, slacks_cons, slack_open ho]
    omega
  · exact absurd hk hnot

end place

/-! ## The invariant -/

/-- Entry `e` of the selection set is instruction `d`, after `pre` -/
structure Entry (cpu : Processor) (text : List Code) (st : State) (e : Ssentry) (pre : List Code)
    (d : Sdi) (post : List Code) : Prop where
  text_eq : text = pre ++ .inst d (.opt e.sdicnt) :: post
  itype : e.itype = d.itype
  const : e.constant = d.const
  label : ∃ l, e.labptr = .name l ∧ d.sym = some (.name l)
  minaddr : e.minaddr = sizes cpu st pre
  maxaddr : e.maxaddr = slacks cpu st pre
  unmarked : st.islongsdi e.sdicnt = 0

theorem notMem_of_num {k : ℕ} {c : Code} (hc : c.num = some k) {s : List Code} (hk : k ∉ nums s) :
    c ∉ s := fun hmem => hk (mem_filterMap.mpr ⟨c, hmem, hc⟩)

theorem Entry.unique {text : List Code} {st : State} {e : Ssentry} {pre post pre' post' : List Code}
    {d d' : Sdi} (he : Entry cpu text st e pre d post) (hn : (nums text).Nodup)
    (ht : text = pre' ++ .inst d' (.opt e.sdicnt) :: post') : pre = pre' ∧ d = d' ∧ post = post' := by
  rw [ht, nums_append, nums_opt] at hn
  obtain ⟨_, hn', hdisj⟩ := nodup_append.mp hn
  have hpre : e.sdicnt ∉ nums pre' := fun hk => hdisj _ hk _ (.head _) rfl
  have hpost : e.sdicnt ∉ nums post' := (nodup_cons.mp hn').1
  rw [he.text_eq] at ht
  obtain ⟨h1, h2, h3⟩ := (append_cons_inj_of_notMem (notMem_of_num rfl hpre)
    (notMem_of_num rfl hpost)).mp ht.symm
  exact ⟨h1.symm, (Code.inst.inj h2.symm).1, h3.symm⟩

/-- An instruction that is to stay short -/
def LeftShort (st : State) : Action → Prop
  | .short => True
  | .long => False
  | .opt k => k ∉ st.selset.map (·.sdicnt) ∧ st.islongsdi k = 0

/-- Every distance still possible from `d`, between `pre` and `post`, is in range -/
inductive Near (cpu : Processor) (st : State) (d : Sdi) (pre post : List Code) : Prop
  | here (h : d.sym = some .dot) (hr : inRange d.itype (d.const - pcincr d.itype))
  | back (l : ℕ) (a mid : List Code) (h : d.sym = some (.name l)) (ht : pre = a ++ .label l :: mid)
      (hl : (range d.itype).lbound ≤
        -(sizes cpu st mid + slacks cpu st mid) + (d.const - pcincr d.itype))
      (hu : -sizes cpu st mid + (d.const - pcincr d.itype) ≤ (range d.itype).ubound)
  | ahead (l : ℕ) (mid b : List Code) (h : d.sym = some (.name l)) (ht : post = mid ++ .label l :: b)
      (hl : (range d.itype).lbound ≤ d.size + sizes cpu st mid + (d.const - pcincr d.itype))
      (hu : d.size + (sizes cpu st mid + slacks cpu st mid) + (d.const - pcincr d.itype) ≤
        (range d.itype).ubound)

/-- What holds of the assembler when it has come to the end of `text`, `pending` bytes of which are not yet counted -/
structure Inv (cpu : Processor) (text : List Code) (pending : ℤ) (st : State) : Prop where
  numbered : nums text = List.range' 1 st.sdicnt
  fresh : ∀ k, st.sdicnt < k → st.islongsdi k = 0
  grown : Grown st
  marked : ∀ d k, .inst d (.opt k) ∈ text → st.islongsdi k = 0 ∨ st.islongsdi k = idelta cpu d.itype
  entry : ∀ e ∈ st.selset, ∃ pre d post, Entry cpu text st e pre d post
  sel_nodup : (st.selset.map (·.sdicnt)).Nodup
  newdot : st.newdot + pending = sizes cpu st text
  PCmax : st.PCmax = slacks cpu st text
  dot : st.symtab .dot = ⟨.TXT, 0, st.newdot, st.PCmax⟩
  label : ∀ pre l post, text = pre ++ .label l :: post →
    st.symtab (.name l) = ⟨.TXT, 0, sizes cpu st pre, slacks cpu st pre⟩
  elsewhere : ∀ l, .label l ∉ text → ¬(st.symtab (.name l)).isTxt0
  lab_nodup : st.labset.Nodup
  lab_mem : ∀ s ∈ st.labset, ∃ l, s = .name l ∧ .label l ∈ text
  lab_all : ∀ pre l post, text = pre ++ .label l :: post → slacks cpu st pre ≠ 0 →
    .name l ∈ st.labset
  near : ∀ pre d action post, text = pre ++ .inst d action :: post → LeftShort st action →
    Near cpu st d pre post

/-! ## One decision -/

/-- A label behind the instruction moves -/
def shiftLab (after : Symbol → Bool) (grown delta : ℤ) (lab : Symbol) : Option Symbol :=
  if after lab then some { lab with value := lab.value + grown, maxval := lab.maxval - delta }
  else none

theorem shiftLab_eq (after : Symbol → Bool) (grown delta : ℤ) :
    shiftLab after grown delta = fun lab =>
      if after lab then some { lab with value := lab.value + grown, maxval := lab.maxval - delta }
      else none := rfl

/-- Both forms of `update`: `after` finds the labels behind `e`, which grows by `grown` -/
def shiftBy (cpu : Processor) (st : State) (e : Ssentry) (after : Symbol → Bool) (grown : ℤ) :
    State :=
  let delta := idelta cpu e.itype
  let dot := st.symtab .dot
  let labs := sweep (shiftLab after grown delta) (fun lab => lab.maxval = 0) st.labset.length 0
    (Function.update st.symtab .dot
      { dot with value := dot.value + grown, maxval := dot.maxval - delta }, st.labset)
  { st with
    PCmax := st.PCmax - delta
    newdot := st.newdot + grown
    islongsdi := Function.update st.islongsdi e.sdicnt grown
    selset := st.selset.map fun p =>
      if p.sdicnt > e.sdicnt then
        { p with minaddr := p.minaddr + grown, maxaddr := p.maxaddr - delta }
      else p
    symtab := labs.1
    labset := labs.2 }

theorem updateShort_eq (st : State) {e : Ssentry} (h : st.islongsdi e.sdicnt = 0) :
    updateShort cpu st e =
      shiftBy cpu st e (fun lab => lab.value + lab.maxval > e.minaddr + e.maxaddr) 0 := by
  have hs : Function.update st.islongsdi e.sdicnt 0 = st.islongsdi := by
    rw [← h]
    exact Function.update_eq_self ..
  simp [updateShort, shiftBy, shiftLab_eq, hs]

theorem updateLong_eq (st : State) (e : Ssentry) :
    updateLong cpu st e =
      shiftBy cpu st e (fun lab => lab.value > e.minaddr) (idelta cpu e.itype) := by
  simp [updateLong, shiftBy, shiftLab_eq]

theorem mem_swapOut_map {f : Ssentry → Ssentry} (hf : ∀ p, (f p).sdicnt = p.sdicnt)
    {sel : List Ssentry} (hn : (sel.map (·.sdicnt)).Nodup) {i : ℕ} {e : Ssentry}
    (hi : sel[i]? = some e) (p : Ssentry) :
    p ∈ swapOut (sel.map f) i ↔ ∃ q ∈ sel, q.sdicnt ≠ e.sdicnt ∧ p = f q := by
  have hmap : (sel.map f).map (·.sdicnt) = sel.map (·.sdicnt) := by
    rw [map_map]
    exact map_congr_left fun q _ => hf q
  have hfn : (sel.map f).Nodup := List.Nodup.of_map _ (hmap ▸ hn)
  have hfi : (sel.map f)[i]? = some (f e) := by
    rw [List.getElem?_map, hi]
    rfl
  rw [mem_swapOut hfn hfi, mem_map]
  constructor
  · rintro ⟨⟨q, hq, rfl⟩, hne⟩
    refine ⟨q, hq, fun he => hne ?_, rfl⟩
    rw [inj_on_of_nodup_map hn hq (mem_of_getElem? hi) he]
  · rintro ⟨q, hq, hne, rfl⟩
    refine ⟨⟨q, hq, rfl⟩, fun he => hne ?_⟩
    rw [← hf q, he, hf e]

theorem nodup_swapOut_map {f : Ssentry → Ssentry} (hf : ∀ p, (f p).sdicnt = p.sdicnt)
    {sel : List Ssentry} (hn : (sel.map (·.sdicnt)).Nodup) (i : ℕ) :
    ((swapOut (sel.map f) i).map (·.sdicnt)).Nodup := by
  have hmap : (sel.map f).map (·.sdicnt) = sel.map (·.sdicnt) := by
    rw [map_map]
    exact map_congr_left fun q _ => hf q
  have hp := (swapOut_perm (sel.map f) i).map (·.sdicnt)
  rw [hp.nodup_iff]
  exact (hmap ▸ hn).sublist ((eraseIdx_sublist ..).map _)

/-- `shiftBy`, and entry `i` out of the selection set -/
def settle (cpu : Processor) (st : State) (i : ℕ) (e : Ssentry) (after : Symbol → Bool)
    (grown : ℤ) : State :=
  { shiftBy cpu st e after grown with selset := swapOut (shiftBy cpu st e after grown).selset i }

section settle

variable {text : List Code} {pending grown : ℤ} {st : State} {i : ℕ} {e : Ssentry}
  {after : Symbol → Bool}

theorem mem_settle (hn : (st.selset.map (·.sdicnt)).Nodup) (hi : st.selset[i]? = some e)
    (p : Ssentry) :
    p ∈ (settle cpu st i e after grown).selset ↔ ∃ q ∈ st.selset, q.sdicnt ≠ e.sdicnt ∧
      p = if q.sdicnt > e.sdicnt then
            { q with minaddr := q.minaddr + grown, maxaddr := q.maxaddr - idelta cpu e.itype }
          else q :=
  mem_swapOut_map (fun p => by split <;> rfl) hn hi p

theorem open_settle (hn : (st.selset.map (·.sdicnt)).Nodup) (hi : st.selset[i]? = some e) (k : ℕ) :
    k ∈ (settle cpu st i e after grown).selset.map (·.sdicnt) ↔
      k ∈ st.selset.map (·.sdicnt) ∧ k ≠ e.sdicnt := by
  simp only [mem_map, mem_settle hn hi]
  constructor
  · rintro ⟨_, ⟨q, hq, hne, rfl⟩, rfl⟩
    have : ∀ p : Ssentry, (if q.sdicnt > e.sdicnt then { q with
        minaddr := q.minaddr + grown, maxaddr := q.maxaddr - idelta cpu e.itype }
        else q).sdicnt = q.sdicnt := fun _ => by split <;> rfl
    rw [this q]
    exact ⟨⟨q, hq, rfl⟩, hne⟩
  · rintro ⟨⟨q, hq, rfl⟩, hne⟩
    exact ⟨_, ⟨q, hq, hne, rfl⟩, by split <;> rfl⟩

variable (after) in
theorem Inv.decided (h : Inv cpu text pending st) (hi : st.selset[i]? = some e)
    (h0 : 0 ≤ grown) (h1 : grown ≤ idelta cpu e.itype) :
    Decided cpu text e.sdicnt (idelta cpu e.itype) grown st (settle cpu st i e after grown) := by
  have hmem := mem_of_getElem? hi
  obtain ⟨pre, d, post, he⟩ := h.entry e hmem
  have hopen : e.sdicnt ∈ st.selset.map (·.sdicnt) := mem_map.mpr ⟨e, hmem, rfl⟩
  have hnodup : (nums text).Nodup := by
    rw [h.numbered]
    exact nodup_range'
  -- the only statement of this number is the instruction of the entry
  have honly : ∀ c ∈ text, c.num = some e.sdicnt → c = .inst d (.opt e.sdicnt) := fun c hc hnum =>
    eq_of_num hnum rfl hnodup hc (by rw [he.text_eq]; simp)
  refine ⟨fun c hc => ?_, fun c hc => ?_, h0, h1⟩
  · by_cases hnum : c.num = some e.sdicnt
    · rw [if_pos hnum, honly c hc hnum]
      simp [Code.size, settle, shiftBy, he.unmarked]
    · rw [if_neg hnum]
      match c with
      | .label _ | .fixed _ | .inst _ .short | .inst _ .long => simp [Code.size]
      | .inst d' (.opt k) =>
        have hk : k ≠ e.sdicnt := fun hk => hnum (by rw [hk]; rfl)
        simp [Code.size, settle, shiftBy, hk]
  · by_cases hnum : c.num = some e.sdicnt
    · rw [if_pos hnum, honly c hc hnum]
      simp only [Code.slack, open_settle h.sel_nodup hi, hopen, he.itype]
      simp
    · rw [if_neg hnum]
      match c with
      | .label _ | .fixed _ | .inst _ .short | .inst _ .long => simp [Code.slack]
      | .inst d' (.opt k) =>
        have hk : k ≠ e.sdicnt := fun hk => hnum (by rw [hk]; rfl)
        simp only [Code.slack, open_settle h.sel_nodup hi, hk, ne_eq, not_false_eq_true, and_true]
        omega

theorem Inv.nodup (h : Inv cpu text pending st) : (nums text).Nodup := by
  rw [h.numbered]
  exact nodup_range'

variable (after) in
/-- How the sums before a place change -/
theorem Inv.settle_sums (h : Inv cpu text pending st) (hi : st.selset[i]? = some e)
    (h0 : 0 ≤ grown) (h1 : grown ≤ idelta cpu e.itype) {pre post : List Code}
    (ht : text = pre ++ post) :
    sizes cpu (settle cpu st i e after grown) pre =
        sizes cpu st pre + (if e.sdicnt ∈ nums pre then grown else 0) ∧
      slacks cpu (settle cpu st i e after grown) pre =
        slacks cpu st pre - (if e.sdicnt ∈ nums pre then idelta cpu e.itype else 0) := by
  have hn := h.nodup
  rw [ht, nums_append] at hn
  exact (h.decided after hi h0 h1).sums pre (fun c hc => by rw [ht]; exact mem_append_left _ hc)
    (nodup_append.mp hn).1

/-- The distances possible from an instruction become fewer -/
theorem Near.decided {k : ℕ} {delta : ℤ} {st' : State} {d : Sdi} {action : Action}
    {pre post : List Code} (h : Near cpu st d pre post)
    (ht : text = pre ++ .inst d action :: post) (hd : Decided cpu text k delta grown st st') :
    Near cpu st' d pre post := by
  cases h with
  | here h hr => exact .here h hr
  | back l a mid h hpre hl hu =>
    have hle := hd.sums_le mid fun c hc => by simp [ht, hpre, hc]
    exact .back l a mid h hpre (by omega) (by omega)
  | ahead l mid b h hpost hl hu =>
    have hle := hd.sums_le mid fun c hc => by simp [ht, hpost, hc]
    exact .ahead l mid b h hpost (by omega) (by omega)

theorem lt_num_iff {k n : ℕ} {pre post : List Code} {d : Sdi}
    (hn : nums (pre ++ .inst d (.opt k) :: post) = List.range' 1 n) {j : ℕ}
    (hj : j ∈ nums (pre ++ .inst d (.opt k) :: post)) :
    j < k ↔ j ∈ nums pre := by
  have hp : (nums (pre ++ .inst d (.opt k) :: post)).Pairwise (· < ·) := by
    rw [hn]
    exact pairwise_lt_range'
  rw [nums_append, nums_opt] at hp hj
  obtain ⟨_, hp', hpre⟩ := pairwise_append.mp hp
  constructor
  · intro hlt
    obtain hj | hj := mem_append.mp hj
    · exact hj
    · obtain rfl | hj := mem_cons.mp hj
      · exact absurd hlt (lt_irrefl j)
      · exact absurd ((pairwise_cons.mp hp').1 j hj) (by omega)
  · intro hj
    exact hpre j hj k (.head _)

theorem Inv.settle_entry (h : Inv cpu text pending st) (hi : st.selset[i]? = some e)
    (h0 : 0 ≤ grown) (h1 : grown ≤ idelta cpu e.itype) {q : Ssentry} {pre post : List Code}
    {d : Sdi} (hq : Entry cpu text st q pre d post) (hne : q.sdicnt ≠ e.sdicnt) :
    Entry cpu text (settle cpu st i e after grown)
      (if q.sdicnt > e.sdicnt then
        { q with minaddr := q.minaddr + grown, maxaddr := q.maxaddr - idelta cpu e.itype }
      else q) pre d post := by
  obtain ⟨prek, dk, postk, he⟩ := h.entry e (mem_of_getElem? hi)
  have hsums := h.settle_sums after hi h0 h1 hq.text_eq
  have hin : e.sdicnt ∈ nums text := by
    rw [he.text_eq]
    simp
  have hlt : e.sdicnt < q.sdicnt ↔ e.sdicnt ∈ nums pre :=
    lt_num_iff (hq.text_eq ▸ h.numbered) (hq.text_eq ▸ hin)
  have hmark : (settle cpu st i e after grown).islongsdi q.sdicnt = 0 := by
    simp [settle, shiftBy, Function.update_of_ne hne, hq.unmarked]
  by_cases hk : e.sdicnt ∈ nums pre
  · simp only [hk, if_true] at hsums
    rw [if_pos (hlt.mpr hk)]
    exact ⟨hq.text_eq, hq.itype, hq.const, hq.label, by rw [hsums.1, ← hq.minaddr],
      by rw [hsums.2, ← hq.maxaddr], hmark⟩
  · simp only [hk, if_false] at hsums
    rw [if_neg fun hgt => hk (hlt.mp hgt)]
    exact ⟨hq.text_eq, hq.itype, hq.const, hq.label, by rw [hsums.1, hq.minaddr, add_zero],
      by rw [hsums.2, hq.maxaddr, sub_zero], hmark⟩

variable (grown i e after) in
/-- The sweep of the labels in `settle` -/
theorem Inv.swept (h : Inv cpu text pending st) :
    Swept (shiftLab after grown (idelta cpu e.itype)) (fun lab => lab.maxval = 0) 0
      (Function.update st.symtab .dot
        { st.symtab .dot with
          value := (st.symtab .dot).value + grown
          maxval := (st.symtab .dot).maxval - idelta cpu e.itype }, st.labset)
      ((settle cpu st i e after grown).symtab, (settle cpu st i e after grown).labset) :=
  sweep_swept _ _ st.labset.length 0 _ st.labset h.lab_nodup (Nat.zero_add _)

theorem Inv.swept_hit (h : Inv cpu text pending st) {l : ℕ} (hl : .name l ∈ st.labset) :
    (settle cpu st i e after grown).symtab (.name l) =
      (shiftLab after grown (idelta cpu e.itype) (st.symtab (.name l))).getD
        (st.symtab (.name l)) := by
  have hs := (h.swept grown i e after).hit _ hl
  simpa only [Function.update_of_ne (show Sym.name l ≠ .dot by simp)] using hs

theorem Inv.swept_miss (h : Inv cpu text pending st) {l : ℕ} (hl : .name l ∉ st.labset) :
    (settle cpu st i e after grown).symtab (.name l) = st.symtab (.name l) := by
  have hs := (h.swept grown i e after).miss _ hl
  simpa only [Function.update_of_ne (show Sym.name l ≠ .dot by simp)] using hs

theorem Inv.swept_mem (h : Inv cpu text pending st) (l : ℕ) :
    .name l ∈ (settle cpu st i e after grown).labset ↔ .name l ∈ st.labset ∧
      ∀ b, shiftLab after grown (idelta cpu e.itype) (st.symtab (.name l)) = some b →
        b.maxval ≠ 0 := by
  have hs := (h.swept grown i e after).mem (.name l)
  simp only [Function.update_of_ne (show Sym.name l ≠ .dot by simp), drop_zero,
    decide_eq_false_iff_not] at hs
  exact hs.trans (and_congr_right fun hl => ⟨fun hb => hb hl, fun hb _ => hb⟩)

theorem Inv.dot_notMem (h : Inv cpu text pending st) : Sym.dot ∉ st.labset := fun hd => by
  obtain ⟨l, hl, _⟩ := h.lab_mem _ hd
  cases hl

theorem Inv.settle_dot (h : Inv cpu text pending st) :
    (settle cpu st i e after grown).symtab .dot =
      ⟨.TXT, 0, st.newdot + grown, st.PCmax - idelta cpu e.itype⟩ := by
  have hs := (h.swept grown i e after).miss .dot
    h.dot_notMem
  dsimp only at hs
  rw [hs, Function.update_self, h.dot]

/-- What the assembler relies on when it compares the address of a label with that of `e` -/
def Finds (cpu : Processor) (text : List Code) (st : State) (e : Ssentry) (after : Symbol → Bool) :
    Prop :=
  ∀ pre l post, text = pre ++ .label l :: post →
    (after ⟨.TXT, 0, sizes cpu st pre, slacks cpu st pre⟩ = true ↔ e.sdicnt ∈ nums pre)

theorem Inv.open_pos (h : Inv cpu text pending st) (hi : st.selset[i]? = some e)
    {pre post : List Code} (ht : text = pre ++ post) (hk : e.sdicnt ∈ nums pre) :
    0 < slacks cpu st pre := by
  have hmem := mem_of_getElem? hi
  obtain ⟨prek, dk, postk, he⟩ := h.entry e hmem
  exact slacks_pos (mem_map.mpr ⟨e, hmem, rfl⟩) (ht ▸ he.text_eq) (ht ▸ h.nodup) hk

theorem Inv.settle_label (h : Inv cpu text pending st) (hi : st.selset[i]? = some e)
    (h0 : 0 ≤ grown) (h1 : grown ≤ idelta cpu e.itype) (ha : Finds cpu text st e after)
    {pre post : List Code} {l : ℕ} (ht : text = pre ++ .label l :: post) :
    (settle cpu st i e after grown).symtab (.name l) =
      ⟨.TXT, 0, sizes cpu (settle cpu st i e after grown) pre,
        slacks cpu (settle cpu st i e after grown) pre⟩ := by
  have hsums := h.settle_sums after hi h0 h1 ht
  rw [hsums.1, hsums.2]
  by_cases hlab : Sym.name l ∈ st.labset
  · rw [h.swept_hit hlab, h.label pre l post ht]
    by_cases hk : e.sdicnt ∈ nums pre
    · simp [shiftLab, (ha pre l post ht).mpr hk, hk]
    · have hnot : after ⟨.TXT, 0, sizes cpu st pre, slacks cpu st pre⟩ = false :=
        Bool.eq_false_iff.mpr fun hb => hk ((ha pre l post ht).mp hb)
      simp [shiftLab, hnot, hk]
  · rw [h.swept_miss hlab, h.label pre l post ht]
    -- a label out of the set has no slack before it
    have hk : e.sdicnt ∉ nums pre := fun hk =>
      hlab (h.lab_all pre l post ht (h.open_pos hi ht hk).ne')
    simp [hk]

theorem Inv.settle_inv (h : Inv cpu text pending st) (hi : st.selset[i]? = some e)
    (hg : grown = 0 ∨ grown = idelta cpu e.itype) (ha : Finds cpu text st e after)
    (hnear : grown = 0 → ∀ pre d post, text = pre ++ .inst d (.opt e.sdicnt) :: post →
      Near cpu st d pre post) :
    Inv cpu text pending (settle cpu st i e after grown) := by
  have hpos := idelta_pos cpu e.itype
  have h0 : 0 ≤ grown := by omega
  have h1 : grown ≤ idelta cpu e.itype := by omega
  have hmem := mem_of_getElem? hi
  obtain ⟨prek, dk, postk, he⟩ := h.entry e hmem
  have hin : e.sdicnt ∈ nums text := by
    rw [he.text_eq]
    simp
  have hdec := h.decided after hi h0 h1
  have hall := h.settle_sums after hi h0 h1 (append_nil text).symm
  have hs := h.swept grown i e after
  simp only [hin, if_true] at hall
  have hnum : e.sdicnt ≤ st.sdicnt := by
    rw [h.numbered, mem_range'_1] at hin
    omega
  refine
    { numbered := h.numbered
      fresh := fun k hk => ?_
      grown := fun k => ?_
      marked := fun d k hdk => ?_
      entry := fun p hp => ?_
      sel_nodup := nodup_swapOut_map (fun p => by split <;> rfl) h.sel_nodup i
      newdot := ?_
      PCmax := ?_
      dot := h.settle_dot
      label := fun pre l post ht => h.settle_label hi h0 h1 ha ht
      elsewhere := fun l hl => ?_
      lab_nodup := hs.nodup
      lab_mem := fun s hmem => h.lab_mem s ((hs.mem s).mp hmem).1
      lab_all := fun pre l post ht hne => ?_
      near := fun pre d action post ht hleft => ?_ }
  · have hne : k ≠ e.sdicnt := by
      have : st.sdicnt < k := hk
      omega
    simpa [settle, shiftBy, Function.update_of_ne hne] using h.fresh k hk
  · by_cases hk : k = e.sdicnt
    · subst hk
      simpa [settle, shiftBy] using h0
    · simpa [settle, shiftBy, Function.update_of_ne hk] using h.grown k
  · by_cases hk : k = e.sdicnt
    · subst hk
      have heq : Code.inst d (.opt e.sdicnt) = .inst dk (.opt e.sdicnt) :=
        eq_of_num rfl rfl h.nodup hdk (by rw [he.text_eq]; simp)
      rw [(Code.inst.inj heq).1, ← he.itype]
      simpa [settle, shiftBy] using hg
    · simpa [settle, shiftBy, Function.update_of_ne hk] using h.marked d k hdk
  · obtain ⟨q, hq, hne, rfl⟩ := (mem_settle h.sel_nodup hi p).mp hp
    obtain ⟨pre, d, post, hentry⟩ := h.entry q hq
    exact ⟨pre, d, post, h.settle_entry hi h0 h1 hentry hne⟩
  · have := h.newdot
    rw [hall.1]
    simp only [settle, shiftBy]
    omega
  · have := h.PCmax
    rw [hall.2]
    simp only [settle, shiftBy]
    omega
  · rw [h.swept_miss fun hin => ?_]
    · exact h.elsewhere l hl
    · obtain ⟨l', heq, hl'⟩ := h.lab_mem _ hin
      cases heq
      exact hl hl'
  · have hsums := h.settle_sums after hi h0 h1 ht
    rw [hsums.2] at hne
    have hlab : Sym.name l ∈ st.labset := h.lab_all pre l post ht fun hz => by
      have hk : e.sdicnt ∉ nums pre := fun hk => (h.open_pos hi ht hk).ne' hz
      simp [hk, hz] at hne
    refine (h.swept_mem l).mpr ⟨hlab, fun b hb => ?_⟩
    rw [h.label pre l post ht, shiftLab] at hb
    split at hb
    · rename_i haft
      simp only [(ha pre l post ht).mp haft, if_true] at hne
      rw [← Option.some.inj hb]
      simpa using hne
    · cases hb
  · -- an instruction left short was so before, or is `e`
    match action, hleft with
    | .short, _ => exact (h.near pre d .short post ht trivial).decided ht hdec
    | .opt k, ⟨hopen, hmark⟩ =>
      by_cases hk : k = e.sdicnt
      · subst hk
        have hz : grown = 0 := by simpa [settle, shiftBy] using hmark
        exact (hnear hz pre d post ht).decided ht hdec
      · refine (h.near pre d (.opt k) post ht ⟨fun ho => hopen ?_, ?_⟩).decided ht hdec
        · exact (open_settle h.sel_nodup hi k).mpr ⟨ho, hk⟩
        · simpa [settle, shiftBy, Function.update_of_ne hk] using hmark

/-- Where a defined label is, seen from an instruction that is not decided -/
theorem Inv.target (h : Inv cpu text pending st) {pre post : List Code} {d : Sdi}
    (he : Entry cpu text st e pre d post) (ho : e.sdicnt ∈ st.selset.map (·.sdicnt)) {l : ℕ}
    (hl : (st.symtab (.name l)).isTxt0) :
    ∃ value maxval, st.symtab (.name l) = ⟨.TXT, 0, value, maxval⟩ ∧
      ((∃ a mid, pre = a ++ .label l :: mid ∧ value = e.minaddr - sizes cpu st mid ∧
          maxval = e.maxaddr - slacks cpu st mid ∧ value ≤ e.minaddr) ∨
        ∃ mid b, post = mid ++ .label l :: b ∧ value = e.minaddr + d.size + sizes cpu st mid ∧
          maxval = e.maxaddr + idelta cpu e.itype + slacks cpu st mid ∧ value > e.minaddr) := by
  have hmem : Code.label l ∈ text := by
    by_contra hnot
    exact h.elsewhere l hnot hl
  obtain ⟨a, b, hab⟩ := append_of_mem hmem
  refine ⟨_, _, h.label a l b hab, ?_⟩
  have htext : a ++ .label l :: b = pre ++ .inst d (.opt e.sdicnt) :: post := by
    rw [← hab, he.text_eq]
  have hn := h.nodup
  rw [hab] at hn
  have hlt := sizes_lt_iff cpu h.grown htext hn
  rw [he.minaddr, he.maxaddr, he.itype]
  obtain ⟨hk, mid, ha⟩ | ⟨hk, mid, hpre, hpost⟩ := place htext hn
  · refine .inr ⟨mid, b, ?_, ?_, ?_, hlt.mpr hk⟩
    · rw [ha, append_assoc] at htext
      exact (List.cons.inj (append_cancel_left htext)).2.symm
    · rw [ha, sizes_append, sizes_cons]
      simp only [Code.size, he.unmarked]
      omega
    · rw [ha, slacks_append, slacks_cons, slack_open ho]
      omega
  · obtain _ | ⟨c, mid⟩ := mid
    · cases (List.cons.inj hpost).1
    · obtain ⟨rfl, hpost⟩ := List.cons.inj hpost
      have hnot : ¬ sizes cpu st pre < sizes cpu st a := fun hc => hk (hlt.mp hc)
      refine .inl ⟨a, mid, hpre, ?_, ?_, by omega⟩
      · rw [hpre, sizes_append, sizes_cons]
        simp only [Code.size]
        omega
      · rw [hpre, slacks_append, slacks_cons]
        simp only [Code.slack]
        omega

theorem sdiclass_undefined (hu : (st.symtab e.labptr).styp = .UNDEF) :
    sdiclass cpu st e ≠ .S_SDI ∧ (st.notdone = false → sdiclass cpu st e = .L_SDI) := by
  unfold sdiclass
  dsimp only
  rw [if_neg (not_not.mpr hu)]
  constructor
  · split_ifs <;> exact fun h => nomatch h
  · exact fun hnd => if_pos hnd

theorem sdiclass_elsewhere (hu : (st.symtab e.labptr).styp ≠ .UNDEF) (hl : sdiclass cpu st e ≠ .L_SDI) :
    (st.symtab e.labptr).isTxt0 := by
  by_contra hnot
  refine hl ?_
  unfold sdiclass
  dsimp only
  rw [if_pos hu, if_pos hnot]

theorem sdiclass_defined {value maxval : ℤ} (hv : st.symtab e.labptr = ⟨.TXT, 0, value, maxval⟩) :
    sdiclass cpu st e =
      if ¬ inRange e.itype (value + (e.constant - (e.minaddr + pcincr e.itype))) then .L_SDI
      else if inRange e.itype (value + (e.constant - (e.minaddr + pcincr e.itype)) + (maxval -
          if value > e.minaddr then e.maxaddr + idelta cpu e.itype else e.maxaddr)) then .S_SDI
      else .U_SDI := by
  simp [sdiclass, hv, Symbol.isTxt0]

theorem short_answer {p q : Prop} [Decidable p] [Decidable q]
    (h : (if ¬ p then Sditype.L_SDI else if q then .S_SDI else .U_SDI) = .S_SDI) : p ∧ q := by
  by_cases hp : p <;> by_cases hq : q <;> simp_all

theorem unknown_answer {p q : Prop} [Decidable p] [Decidable q]
    (h : (if ¬ p then Sditype.L_SDI else if q then .S_SDI else .U_SDI) = .U_SDI) : p ∧ ¬ q := by
  by_cases hp : p <;> by_cases hq : q <;> simp_all

theorem Inv.near_of_short (h : Inv cpu text pending st) {pre post : List Code} {d : Sdi}
    (he : Entry cpu text st e pre d post) (ho : e.sdicnt ∈ st.selset.map (·.sdicnt))
    (hs : sdiclass cpu st e = .S_SDI) : Near cpu st d pre post := by
  obtain ⟨l, hlab, hsym⟩ := he.label
  have hu : (st.symtab (.name l)).styp ≠ .UNDEF := fun hu =>
    (sdiclass_undefined (hlab ▸ hu)).1 hs
  have htxt := sdiclass_elsewhere (hlab ▸ hu) (by rw [hs]; decide)
  rw [hlab] at htxt
  obtain ⟨value, maxval, hval, hwhere⟩ := h.target he ho htxt
  rw [sdiclass_defined (hlab ▸ hval), he.itype, he.const] at hs
  rw [he.itype] at hwhere
  obtain ⟨⟨hl, hr⟩, hl2, hr2⟩ := short_answer hs
  obtain ⟨a, mid, hpre, hv, hm, hle⟩ | ⟨mid, b, hpost, hv, hm, hgt⟩ := hwhere
  · rw [if_neg (by omega)] at hl2 hr2
    exact .back l a mid hsym hpre (by omega) (by omega)
  · rw [if_pos hgt] at hl2 hr2
    exact .ahead l mid b hsym hpost (by omega) (by omega)

theorem Inv.inRange_of_unknown (h : Inv cpu text pending st) {pre post : List Code} {d : Sdi}
    (he : Entry cpu text st e pre d post) (ho : e.sdicnt ∈ st.selset.map (·.sdicnt))
    (hs : sdiclass cpu st e = .U_SDI) (hnd : st.notdone = false) :
    ∃ l, d.sym = some (.name l) ∧ .label l ∈ text ∧
      inRange d.itype ((st.symtab (.name l)).value + d.const -
        (sizes cpu st pre + pcincr d.itype)) := by
  obtain ⟨l, hlab, hsym⟩ := he.label
  have hu : (st.symtab (.name l)).styp ≠ .UNDEF := fun hu => by
    rw [(sdiclass_undefined (hlab ▸ hu)).2 hnd] at hs
    exact absurd hs (by decide)
  have htxt := sdiclass_elsewhere (hlab ▸ hu) (by rw [hs]; decide)
  rw [hlab] at htxt
  have hmem : Code.label l ∈ text := by
    by_contra hnot
    exact h.elsewhere l hnot htxt
  obtain ⟨value, maxval, hval, -⟩ := h.target he ho htxt
  rw [sdiclass_defined (hlab ▸ hval)] at hs
  obtain ⟨hl, hr⟩ := (unknown_answer hs).1
  refine ⟨l, hsym, hmem, ?_⟩
  rw [hval, ← he.minaddr, ← he.itype, ← he.const]
  dsimp only
  exact ⟨by omega, by omega⟩

/-- Any entry may be taken for long -/
theorem Inv.long (h : Inv cpu text pending st) (hi : st.selset[i]? = some e) :
    Inv cpu text pending (As.decideAt cpu st i e .L_SDI) := by
  obtain ⟨pre, d, post, he⟩ := h.entry e (mem_of_getElem? hi)
  have hdelta := idelta_pos cpu e.itype
  unfold As.decideAt update
  rw [if_neg (not_not.mpr rfl), updateLong_eq]
  refine h.settle_inv hi (.inr rfl) (fun a l b hab => ?_) fun hz => by omega
  rw [decide_eq_true_eq, he.minaddr]
  exact sizes_lt_iff cpu h.grown (hab ▸ he.text_eq) (hab ▸ h.nodup)

theorem Inv.short (h : Inv cpu text pending st) (hi : st.selset[i]? = some e)
    (hs : sdiclass cpu st e = .S_SDI) :
    Inv cpu text pending (As.decideAt cpu st i e .S_SDI) := by
  have hmem := mem_of_getElem? hi
  have ho : e.sdicnt ∈ st.selset.map (·.sdicnt) := mem_map.mpr ⟨e, hmem, rfl⟩
  obtain ⟨pre, d, post, he⟩ := h.entry e hmem
  unfold As.decideAt update
  rw [if_pos (by decide), updateShort_eq st he.unmarked]
  refine h.settle_inv hi (.inl rfl) (fun a l b hab => ?_) fun _ a d' b hab => ?_
  · rw [decide_eq_true_eq, he.minaddr, he.maxaddr]
    exact most_lt_iff h.grown ho (hab ▸ he.text_eq) (hab ▸ h.nodup)
  · obtain ⟨rfl, rfl, rfl⟩ := he.unique h.nodup hab
    exact h.near_of_short he ho hs

theorem Inv.decideAt (h : Inv cpu text pending st) (hi : st.selset[i]? = some e)
    (hu : sdiclass cpu st e ≠ .U_SDI) :
    Inv cpu text pending (decideAt cpu st i e (sdiclass cpu st e)) := by
  cases hs : sdiclass cpu st e with
  | L_SDI => exact h.long hi
  | S_SDI => exact h.short hi hs
  | U_SDI => exact absurd hs hu

end settle

/-! ## The loops of `expand` -/

/-- What the loops leave as it was: what is decided stays so, and only labels of the label set move -/
structure Same (st st' : State) : Prop where
  notdone : st'.notdone = st.notdone
  sdicnt : st'.sdicnt = st.sdicnt
  text : st'.text = st.text
  still : ∀ k ∈ st'.selset.map (·.sdicnt), k ∈ st.selset.map (·.sdicnt)
  mark : ∀ k, k ∉ st.selset.map (·.sdicnt) → st'.islongsdi k = st.islongsdi k
  labset : ∀ s ∈ st'.labset, s ∈ st.labset
  symtab : ∀ s, s ≠ .dot → s ∉ st.labset → st'.symtab s = st.symtab s

theorem Same.rfl (st : State) : Same st st :=
  ⟨Eq.refl _, Eq.refl _, Eq.refl _, fun _ hk => hk, fun _ _ => Eq.refl _, fun _ hs => hs, fun _ _ _ => Eq.refl _⟩

theorem Same.trans {st st' st'' : State} (h : Same st st') (h' : Same st' st'') : Same st st'' where
  notdone := h'.notdone.trans h.notdone
  sdicnt := h'.sdicnt.trans h.sdicnt
  text := h'.text.trans h.text
  still k hk := h.still k (h'.still k hk)
  mark k hk := (h'.mark k fun hk' => hk (h.still k hk')).trans (h.mark k hk)
  labset s hs := h.labset s (h'.labset s hs)
  symtab s hs hnot := (h'.symtab s hs fun hs' => hnot (h.labset s hs')).trans (h.symtab s hs hnot)

theorem still_swapOut {f : Ssentry → Ssentry} (hf : ∀ p, (f p).sdicnt = p.sdicnt) (sel : List Ssentry) (i : ℕ)
    {k : ℕ} (hk : k ∈ (swapOut (sel.map f) i).map (·.sdicnt)) : k ∈ sel.map (·.sdicnt) := by
  obtain ⟨p, hp, rfl⟩ := mem_map.mp hk
  have hin := (eraseIdx_sublist ..).subset ((swapOut_perm _ _).subset hp)
  obtain ⟨q, hq, rfl⟩ := mem_map.mp hin
  exact mem_map.mpr ⟨q, hq, (hf q).symm⟩

theorem decideAt_same {st : State} {i : ℕ} {e : Ssentry} (hi : st.selset[i]? = some e) (t : Sditype) :
    Same st (decideAt cpu st i e t) := by
  have hopen : e.sdicnt ∈ st.selset.map (·.sdicnt) := mem_map.mpr ⟨e, mem_of_getElem? hi, rfl⟩
  unfold decideAt update
  split
  · refine ⟨Eq.refl _, Eq.refl _, Eq.refl _, fun k => still_swapOut (fun p => by split <;> rfl) _ _,
      fun _ _ => Eq.refl _, fun s => sweep_subset _ _ _ _ _ _, fun s hs hnot => ?_⟩
    exact (sweep_of_notMem _ _ _ _ _ hnot).trans (Function.update_of_ne hs ..)
  · refine ⟨Eq.refl _, Eq.refl _, Eq.refl _, fun k => still_swapOut (fun p => by split <;> rfl) _ _,
      fun k hk => ?_, fun s => sweep_subset _ _ _ _ _ _,
      fun s hs hnot => ?_⟩
    · have hne : k ≠ e.sdicnt := fun he => hk (he ▸ hopen)
      exact Function.update_of_ne hne ..
    · exact (sweep_of_notMem _ _ _ _ _ hnot).trans (Function.update_of_ne hs ..)

variable (cpu) in
theorem decideAt_length {st : State} {i : ℕ} {e : Ssentry} (hi : st.selset[i]? = some e)
    (t : Sditype) : (decideAt cpu st i e t).selset.length + 1 = st.selset.length := by
  have hlen := (List.getElem?_eq_some_iff.mp hi).1
  unfold decideAt update
  split
  · simpa [updateShort] using length_swapOut ((updateShort cpu st e).selset) (i := i)
      (by simpa [updateShort] using hlen)
  · simpa [updateLong] using length_swapOut ((updateLong cpu st e).selset) (i := i)
      (by simpa [updateLong] using hlen)

/-- What a pass over the entries from `i` on does, if each decision keeps `P` -/
structure Passed (cpu : Processor) (P : State → Prop) (i : ℕ) (st : State) (change : Bool)
    (r : State × Bool) : Prop where
  inv : P r.1
  same : Same st r.1
  length_le : r.1.selset.length ≤ st.selset.length
  changed : r.2 = true → change = true ∨ r.1.selset.length < st.selset.length
  unchanged : r.2 = false → change = false ∧ r.1 = st ∧
    ∀ j e, i ≤ j → st.selset[j]? = some e → sdiclass cpu st e = .U_SDI

/-- Every decision that a pass makes keeps `P` -/
def Keeps (cpu : Processor) (P : State → Prop) : Prop :=
  ∀ st i e, P st → st.selset[i]? = some e → sdiclass cpu st e ≠ .U_SDI →
    P (decideAt cpu st i e (sdiclass cpu st e))

section Keeps

variable {P : State → Prop} (hP : Keeps cpu P)

include hP

theorem expandPass_passed :
    ∀ (cntr i : ℕ) (st : State) (change : Bool), P st → i + cntr = st.selset.length →
      Passed cpu P i st change (expandPass cpu cntr i st change)
  | 0, i, st, change, h, hl => by
    refine ⟨h, .rfl st, le_refl _, fun hc => .inl hc, fun hc => ⟨hc, rfl, fun j e hj he => ?_⟩⟩
    have := (List.getElem?_eq_some_iff.mp he).1
    omega
  | cntr + 1, i, st, change, h, hl => by
    have hlt : i < st.selset.length := by omega
    have hi : st.selset[i]? = some st.selset[i] := List.getElem?_eq_getElem hlt
    unfold expandPass
    rw [hi]
    dsimp only
    by_cases hu : sdiclass cpu st st.selset[i] = .U_SDI
    · rw [if_neg (not_not.mpr hu)]
      have ih := expandPass_passed cntr (i + 1) st change h (by omega)
      refine ⟨ih.inv, ih.same, ih.length_le, ih.changed, fun hc => ?_⟩
      obtain ⟨hch, heq, hall⟩ := ih.unchanged hc
      refine ⟨hch, heq, fun j e hj he => ?_⟩
      obtain rfl | hlt := Nat.eq_or_lt_of_le hj
      · rw [hi] at he
        cases he
        exact hu
      · exact hall j e hlt he
    · rw [if_pos hu]
      have hlen := decideAt_length cpu hi (sdiclass cpu st st.selset[i])
      have ih := expandPass_passed cntr i _ true (hP st i _ h hi hu) (by omega)
      have hle := ih.length_le
      refine ⟨ih.inv, (decideAt_same hi _).trans ih.same, by omega, fun _ => .inr (by omega),
        fun hc => absurd (ih.unchanged hc).1 (by decide)⟩

end Keeps

/-- What `expand` leaves: nothing more can be decided -/
structure Expanded (cpu : Processor) (P : State → Prop) (st st' : State) : Prop where
  inv : P st'
  same : Same st st'
  unknown : ∀ e ∈ st'.selset, sdiclass cpu st' e = .U_SDI

section Keeps

variable {P : State → Prop} (hP : Keeps cpu P)

include hP

theorem expandLoop_expanded :
    ∀ (fuel : ℕ) (st : State), P st → st.selset.length < fuel →
      ∃ st', expandLoop cpu fuel st = .ok st' ∧ Expanded cpu P st st'
  | 0, _, _, hf => absurd hf (Nat.not_lt_zero _)
  | fuel + 1, st, h, hf => by
    have hp := expandPass_passed hP st.selset.length 0 st false h (Nat.zero_add _)
    unfold expandLoop
    generalize expandPass cpu st.selset.length 0 st false = r at hp
    obtain ⟨st1, change⟩ := r
    cases change with
    | true =>
      have hlt : st1.selset.length < st.selset.length :=
        (hp.changed rfl).resolve_left (by decide)
      obtain ⟨st', hst', hexp⟩ := expandLoop_expanded fuel st1 hp.inv (by omega)
      exact ⟨st', hst', hexp.inv, hp.same.trans hexp.same, hexp.unknown⟩
    | false =>
      obtain ⟨_, rfl, hall⟩ := hp.unchanged rfl
      refine ⟨st1, rfl, hp.inv, .rfl _, fun e he => ?_⟩
      obtain ⟨j, hj⟩ := mem_iff_getElem?.mp he
      exact hall j e (Nat.zero_le j) hj

theorem expand_expanded {st : State} (h : P st) :
    ∃ st', expand cpu st = .ok st' ∧ Expanded cpu P st st' :=
  expandLoop_expanded hP _ st h (Nat.lt_succ_self _)

end Keeps

theorem Inv.keeps (text : List Code) (pending : ℤ) : Keeps cpu (Inv cpu text pending) :=
  fun _ _ _ h hi hu => h.decideAt hi hu

/-! ## A statement more -/

theorem snoc_split {text pre post : List Code} {c c' : Code}
    (h : text ++ [c] = pre ++ c' :: post) :
    (pre = text ∧ c = c' ∧ post = []) ∨ ∃ mid, text = pre ++ c' :: mid ∧ post = mid ++ [c] := by
  obtain rfl | ⟨mid, z, rfl⟩ := eq_nil_or_concat' post
  · have h' := append_inj' h rfl
    exact .inl ⟨h'.1.symm, (List.cons.inj h'.2).1, rfl⟩
  · rw [← cons_append, ← append_assoc] at h
    have h' := append_inj' h rfl
    exact .inr ⟨mid, h'.1, by rw [(List.cons.inj h'.2).1]⟩

variable (cpu) in
/-- A step that decides nothing -/
theorem sizes_congr {st st' : State} (hl : st'.islongsdi = st.islongsdi) (text : List Code) :
    sizes cpu st' text = sizes cpu st text := by
  have hf : Code.size cpu st' = Code.size cpu st := by
    funext c
    unfold Code.size
    rw [hl]
  unfold sizes
  rw [hf]

variable (cpu) in
theorem slacks_congr {st st' : State}
    (hs : st'.selset.map (·.sdicnt) = st.selset.map (·.sdicnt)) (text : List Code) :
    slacks cpu st' text = slacks cpu st text := by
  have hf : Code.slack cpu st' = Code.slack cpu st := by
    funext c
    unfold Code.slack
    rw [hs]
  unfold slacks
  rw [hf]

theorem Near.congr {st st' : State} {d : Sdi} {pre post : List Code} (h : Near cpu st d pre post)
    (hl : ∀ s ⊆ pre ++ post, sizes cpu st' s = sizes cpu st s)
    (hs : ∀ s ⊆ pre ++ post, slacks cpu st' s = slacks cpu st s) : Near cpu st' d pre post := by
  cases h with
  | here h hr => exact .here h hr
  | back l a mid h ht hb hu =>
    have hsub : mid ⊆ pre ++ post := fun c hc => by simp [ht, hc]
    exact .back l a mid h ht (by rwa [hl _ hsub, hs _ hsub]) (by rwa [hl _ hsub])
  | ahead l mid b h ht hb hu =>
    have hsub : mid ⊆ pre ++ post := fun c hc => by simp [ht, hc]
    exact .ahead l mid b h ht (by rwa [hl _ hsub]) (by rwa [hl _ hsub, hs _ hsub])

theorem Near.append {st : State} {d : Sdi} {pre post : List Code} (h : Near cpu st d pre post)
    (s : List Code) : Near cpu st d pre (post ++ s) := by
  cases h with
  | here h hr => exact .here h hr
  | back l a mid h ht hl hu => exact .back l a mid h ht hl hu
  | ahead l mid b h ht hl hu => exact .ahead l mid (b ++ s) h (by rw [ht]; simp) hl hu

theorem Entry.append {text : List Code} {st : State} {e : Ssentry} {pre post : List Code} {d : Sdi}
    (h : Entry cpu text st e pre d post) (s : List Code) :
    Entry cpu (text ++ s) st e pre d (post ++ s) :=
  { h with text_eq := by rw [h.text_eq]; simp }

/-- A statement that is no label and takes no number -/
theorem Inv.append {text : List Code} {pending : ℤ} {st : State} (h : Inv cpu text pending st)
    {c : Code} (hl : ∀ l, c ≠ .label l) (hc : c.num = none)
    (hnear : ∀ d, c = .inst d .short → Near cpu st d text []) :
    Inv cpu (text ++ [c]) (pending + c.size cpu st) st := by
  have hslack : c.slack cpu st = 0 := by
    unfold Code.slack
    split
    · cases hc
    · rfl
  refine
    { h with
      numbered := ?_
      marked := fun d k hdk => ?_
      entry := fun e he => ?_
      newdot := ?_
      PCmax := ?_
      label := fun pre l post ht => ?_
      elsewhere := fun l hnot => h.elsewhere l fun hin => hnot (mem_append_left _ hin)
      lab_mem := fun s hs => ?_
      lab_all := fun pre l post ht hne => ?_
      near := fun pre d action post ht hleft => ?_ }
  · rw [nums_append, nums_cons, hc]
    simpa using h.numbered
  · obtain hdk | hdk := mem_append.mp hdk
    · exact h.marked d k hdk
    · rw [← mem_singleton.mp hdk] at hc
      cases hc
  · obtain ⟨pre, d, post, hent⟩ := h.entry e he
    exact ⟨pre, d, _, hent.append [c]⟩
  · have := h.newdot
    simp only [sizes_append, sizes_cons, sizes_nil]
    omega
  · have := h.PCmax
    simp only [slacks_append, slacks_cons, slacks_nil]
    omega
  · obtain ⟨_, hcl, _⟩ | ⟨mid, ht, _⟩ := snoc_split ht
    · exact absurd hcl (hl l)
    · exact h.label pre l mid ht
  · obtain ⟨l, hsl, hl⟩ := h.lab_mem s hs
    exact ⟨l, hsl, mem_append_left _ hl⟩
  · obtain ⟨_, hcl, _⟩ | ⟨mid, ht, _⟩ := snoc_split ht
    · exact absurd hcl (hl l)
    · exact h.lab_all pre l mid ht hne
  · obtain ⟨rfl, rfl, rfl⟩ | ⟨mid, hmid, rfl⟩ := snoc_split ht
    · match action, hleft with
      | .short, _ => exact hnear d rfl
      | .opt k, _ => cases hc
    · exact (h.near pre d action mid hmid hleft).append [c]

theorem Inv.generate {text : List Code} {pending : ℤ} {st : State} (h : Inv cpu text pending st)
    (code : Code) : Inv cpu text 0 (generate st pending code) := by
  have hname (l : ℕ) : (As.generate st pending code).symtab (.name l) = st.symtab (.name l) := by
    simp [As.generate]
  refine
    { h with
      entry := fun e he => ?_
      newdot := ?_
      dot := ?_
      label := fun pre l post ht => (hname l).trans (h.label pre l post ht)
      elsewhere := fun l hnot => by rw [hname]; exact h.elsewhere l hnot
      near := fun pre d action post ht hleft => ?_ }
  · obtain ⟨pre, d, post, hent⟩ := h.entry e he
    exact ⟨pre, d, post, { hent with }⟩
  · exact (add_zero _).trans h.newdot
  · simp [As.generate, h.dot]
  · exact (h.near pre d action post ht hleft).congr (fun _ _ => rfl) (fun _ _ => rfl)

/-- An instruction has entered the selection set -/
def entered (cpu : Processor) (st : State) (s : Sym) (const : ℤ) (itype : Itype) : State :=
  { st with
    sdicnt := st.sdicnt + 1
    selset := st.selset ++ [⟨st.sdicnt + 1, itype, (st.symtab .dot).value, st.PCmax, s, const⟩]
    PCmax := st.PCmax + idelta cpu itype
    symtab := Function.update st.symtab .dot
      { st.symtab .dot with maxval := st.PCmax + idelta cpu itype } }

theorem newsdi_eq {st st' : State} {s : Sym} {const : ℤ} {itype : Itype}
    (h : newsdi cpu st s const itype = .ok st') : st' = entered cpu st s const itype := by
  unfold newsdi at h
  split at h
  · cases h
  · exact (Except.ok.inj h).symm

theorem slacks_enter {st st' : State} {n : ℕ}
    (hs : st'.selset.map (·.sdicnt) = st.selset.map (·.sdicnt) ++ [n]) :
    ∀ s : List Code, n ∉ nums s → slacks cpu st' s = slacks cpu st s
  | [], _ => rfl
  | c :: s, hn => by
    rw [nums_cons] at hn
    have hc : c.num ≠ some n := fun hc => hn (by simp [hc])
    rw [slacks_cons, slacks_cons, slacks_enter hs s fun h => hn (mem_append_right _ h)]
    congr 1
    match c with
    | .label _ | .fixed _ | .inst _ .short | .inst _ .long => rfl
    | .inst d (.opt k) =>
      have hk : k ≠ n := fun hk => hc (by rw [hk]; rfl)
      simp only [Code.slack, hs, mem_append, mem_singleton, hk, or_false]

theorem Inv.open_le {text : List Code} {pending : ℤ} {st : State} (h : Inv cpu text pending st)
    {e : Ssentry} (he : e ∈ st.selset) : e.sdicnt ≤ st.sdicnt := by
  obtain ⟨pre, d, post, hent⟩ := h.entry e he
  have hin : e.sdicnt ∈ nums text := by simp [hent.text_eq]
  rw [h.numbered, mem_range'_1] at hin
  omega

/-- An instruction enters the selection set -/
theorem Inv.enter {text : List Code} {st st' : State} (h : Inv cpu text 0 st) {d : Sdi} {l : ℕ}
    (hd : d.sym = some (.name l)) (heq : st' = entered cpu st (.name l) d.const d.itype) :
    Inv cpu (text ++ [.inst d (.opt st'.sdicnt)]) d.size st' := by
  unfold entered at heq
  have hcnt : st'.sdicnt = st.sdicnt + 1 := by rw [heq]
  have hnums : st'.selset.map (·.sdicnt) = st.selset.map (·.sdicnt) ++ [st'.sdicnt] := by
    rw [heq]
    simp
  have hlong : st'.islongsdi = st.islongsdi := by rw [heq]
  have hnot : st'.sdicnt ∉ nums text := by
    rw [h.numbered, mem_range'_1]
    omega
  have hsizes := sizes_congr cpu hlong
  have hsub {s : List Code} (hs : s ⊆ text) : slacks cpu st' s = slacks cpu st s :=
    slacks_enter hnums s fun hk => hnot (by
      obtain ⟨c, hc, hnum⟩ := mem_filterMap.mp hk
      exact mem_filterMap.mpr ⟨c, hs hc, hnum⟩)
  have hopen : ∀ e ∈ st.selset, e.sdicnt ≤ st.sdicnt := fun e he => h.open_le he
  have hname (m : ℕ) : st'.symtab (.name m) = st.symtab (.name m) := by
    rw [heq]
    simp
  have hold : ∀ {pre e d' post}, Entry cpu text st e pre d' post →
      Entry cpu (text ++ [.inst d (.opt st'.sdicnt)]) st' e pre d'
        (post ++ [.inst d (.opt st'.sdicnt)]) := fun hent =>
    have ht := hent.text_eq
    { hent.append [.inst d (.opt st'.sdicnt)] with
      minaddr := by rw [hsizes, hent.minaddr]
      maxaddr := by rw [hsub (by rw [ht]; exact subset_append_left ..), hent.maxaddr]
      unmarked := by rw [hlong, hent.unmarked] }
  have htot := h.newdot
  have hmax := h.PCmax
  refine
    { numbered := ?_
      fresh := fun k hk => ?_
      grown := fun k => ?_
      marked := fun d' k hdk => ?_
      entry := fun e he => ?_
      sel_nodup := ?_
      newdot := ?_
      PCmax := ?_
      dot := ?_
      label := fun pre m post ht => ?_
      elsewhere := fun m hm => ?_
      lab_nodup := ?_
      lab_mem := fun s hs => ?_
      lab_all := fun pre m post ht hne => ?_
      near := fun pre d' action post ht hleft => ?_ }
  · rw [nums_append, h.numbered, nums_opt, nums_nil, hcnt, List.range'_concat]
    simp [Nat.add_comm]
  · rw [hlong]
    exact h.fresh k (by omega)
  · rw [hlong]
    exact h.grown k
  · rw [hlong]
    obtain hdk | hdk := mem_append.mp hdk
    · exact h.marked d' k hdk
    · cases mem_singleton.mp hdk
      exact .inl (h.fresh _ (by omega))
  · have hmem : e ∈ st.selset ∨ e = ⟨st.sdicnt + 1, d.itype, (st.symtab .dot).value, st.PCmax,
        .name l, d.const⟩ := by
      rw [heq] at he
      simpa using he
    obtain he | rfl := hmem
    · obtain ⟨pre, d', post, hent⟩ := h.entry e he
      exact ⟨pre, d', _, hold hent⟩
    · refine ⟨text, d, [], by rw [hcnt], rfl, rfl, ⟨l, rfl, hd⟩, ?_, ?_, ?_⟩
      · rw [hsizes, h.dot, ← htot, add_zero]
      · rw [hsub (List.Subset.refl _), hmax]
      · rw [hlong]
        exact h.fresh _ (Nat.lt_succ_self _)
  · rw [hnums, nodup_append]
    refine ⟨h.sel_nodup, nodup_singleton _, fun k hk k' hk' he => ?_⟩
    obtain ⟨e, hmem, rfl⟩ := mem_map.mp hk
    have := hopen e hmem
    rw [mem_singleton.mp hk'] at he
    omega
  · simp only [sizes_append, sizes_cons, sizes_nil, hsizes, Code.size,
      h.fresh _ (show st.sdicnt < st'.sdicnt by omega)]
    rw [heq]
    dsimp only
    omega
  · simp only [slacks_append, slacks_cons, slacks_nil, hsub (List.Subset.refl _)]
    rw [slack_open (by rw [hnums]; simp), heq]
    dsimp only
    omega
  · rw [heq]
    simp [h.dot]
  · obtain ⟨_, hc, _⟩ | ⟨mid, ht, _⟩ := snoc_split ht
    · cases hc
    · rw [hname, h.label pre m mid ht, hsizes, hsub (by rw [ht]; exact subset_append_left ..)]
  · rw [hname]
    exact h.elsewhere m fun hin => hm (mem_append_left _ hin)
  · rw [heq]
    exact h.lab_nodup
  · rw [heq] at hs
    obtain ⟨m, hm, hin⟩ := h.lab_mem s hs
    exact ⟨m, hm, mem_append_left _ hin⟩
  · obtain ⟨_, hc, _⟩ | ⟨mid, ht, _⟩ := snoc_split ht
    · cases hc
    · rw [hsub (by rw [ht]; exact subset_append_left ..)] at hne
      rw [heq]
      exact h.lab_all pre m mid ht hne
  · obtain ⟨_, hc, _⟩ | ⟨mid, hmid, rfl⟩ := snoc_split ht
    · cases hc
      exact absurd (by rw [hnums]; simp) hleft.1
    · have hleft' : LeftShort st action := by
        match action, hleft with
        | .short, _ => trivial
        | .opt k, ⟨hopen, hmark⟩ =>
          rw [hnums] at hopen
          exact ⟨fun hk => hopen (mem_append_left _ hk), by rwa [hlong] at hmark⟩
      have hmem : pre ++ mid ⊆ text := by
        rw [hmid]
        intro c hc
        obtain hc | hc := mem_append.mp hc <;> simp [hc]
      exact ((h.near pre d' action mid hmid hleft').congr (fun s _ => hsizes s)
        (fun s hs => hsub (List.Subset.trans hs hmem))).append _

theorem slacks_closed {st : State} (h : st.selset = []) : ∀ s : List Code, slacks cpu st s = 0
  | [] => rfl
  | c :: s => by
    rw [slacks_cons, slacks_closed h s]
    match c with
    | .label _ | .fixed _ | .inst _ .short | .inst _ .long => rfl
    | .inst d (.opt k) => simp [Code.slack, h]

/-- A label is defined -/
theorem Inv.enterLabel {text : List Code} {st st' : State} (h : Inv cpu text 0 st) {l : ℕ}
    (hu : (st.symtab (.name l)).styp = .UNDEF)
    (hst : st' = { st with
      symtab := Function.update st.symtab (.name l) ⟨.TXT, 0, st.newdot, st.PCmax⟩
      labset := st'.labset, text := st'.text })
    (hlab : st'.labset = st.labset ∧ st.selset = [] ∨ st'.labset = st.labset ++ [.name l]) :
    Inv cpu (text ++ [.label l]) 0 st' := by
  have hlong : st'.islongsdi = st.islongsdi := by rw [hst]
  have hsel : st'.selset = st.selset := by rw [hst]
  have hsizes := sizes_congr cpu hlong
  have hslacks := slacks_congr cpu (congrArg _ hsel)
  have hnot : Code.label l ∉ text := fun hin => by
    obtain ⟨pre, post, ht⟩ := append_of_mem hin
    rw [h.label pre l post ht] at hu
    cases hu
  have hname {m : ℕ} (hm : m ≠ l) : st'.symtab (.name m) = st.symtab (.name m) := by
    rw [hst]
    simp [hm]
  have hself : st'.symtab (.name l) = ⟨.TXT, 0, st.newdot, st.PCmax⟩ := by
    rw [hst]
    simp
  have hne {pre post m} (ht : text = pre ++ .label m :: post) : m ≠ l := fun he =>
    hnot (by rw [ht, he]; simp)
  have htot := h.newdot
  have hmax := h.PCmax
  refine
    { numbered := ?_
      fresh := fun k hk => ?_
      grown := fun k => ?_
      marked := fun d' k hdk => ?_
      entry := fun e he => ?_
      sel_nodup := ?_
      newdot := ?_
      PCmax := ?_
      dot := ?_
      label := fun pre m post ht => ?_
      elsewhere := fun m hm => ?_
      lab_nodup := ?_
      lab_mem := fun s hs => ?_
      lab_all := fun pre m post ht hz => ?_
      near := fun pre d action post ht hleft => ?_ }
  · rw [nums_append, nums_label, nums_nil, append_nil, h.numbered, hst]
  · rw [hlong]
    rw [hst] at hk
    exact h.fresh k hk
  · rw [hlong]
    exact h.grown k
  · rw [hlong]
    obtain hdk | hdk := mem_append.mp hdk
    · exact h.marked d' k hdk
    · cases mem_singleton.mp hdk
  · rw [hsel] at he
    obtain ⟨pre, d, post, hent⟩ := h.entry e he
    exact ⟨pre, d, _, { hent.append [.label l] with
      minaddr := by rw [hsizes, hent.minaddr]
      maxaddr := by rw [hslacks, hent.maxaddr]
      unmarked := by rw [hlong, hent.unmarked] }⟩
  · rw [hsel]
    exact h.sel_nodup
  · simp only [sizes_append, sizes_cons, sizes_nil, hsizes, Code.size]
    rw [hst]
    dsimp only
    omega
  · simp only [slacks_append, slacks_cons, slacks_nil, hslacks, Code.slack]
    rw [hst]
    dsimp only
    omega
  · rw [hst]
    simp [h.dot]
  · rw [hsizes, hslacks]
    obtain ⟨rfl, hc, rfl⟩ | ⟨mid, ht, _⟩ := snoc_split ht
    · cases hc
      rw [hself, ← htot, ← hmax, add_zero]
    · rw [hname (hne ht), h.label pre m mid ht]
  · have hm' : m ≠ l := fun he => hm (by rw [he]; simp)
    rw [hname hm']
    exact h.elsewhere m fun hin => hm (mem_append_left _ hin)
  · obtain ⟨hlab, _⟩ | hlab := hlab <;> rw [hlab]
    · exact h.lab_nodup
    · rw [nodup_append]
      refine ⟨h.lab_nodup, nodup_singleton _, fun a ha b hb he => ?_⟩
      rw [he, mem_singleton.mp hb] at ha
      obtain ⟨m, hm, hin⟩ := h.lab_mem _ ha
      cases hm
      exact hnot hin
  · have hcase : s ∈ st.labset ∨ s = .name l := by
      obtain ⟨hlab, _⟩ | hlab := hlab <;> rw [hlab] at hs
      · exact .inl hs
      · simpa using hs
    obtain hs | rfl := hcase
    · obtain ⟨m, hm, hin⟩ := h.lab_mem s hs
      exact ⟨m, hm, mem_append_left _ hin⟩
    · exact ⟨l, rfl, by simp⟩
  · rw [hslacks] at hz
    have hin : .name m ∈ st.labset ∨ m = l ∧ st.selset ≠ [] := by
      obtain ⟨rfl, hc, rfl⟩ | ⟨mid, ht, _⟩ := snoc_split ht
      · cases hc
        exact .inr ⟨rfl, fun he => hz (slacks_closed he _)⟩
      · exact .inl (h.lab_all pre m mid ht hz)
    obtain ⟨hlab, hemp⟩ | hlab := hlab <;> rw [hlab]
    · exact hin.resolve_right fun hr => hr.2 hemp
    · obtain hin | ⟨rfl, _⟩ := hin <;> simp [*]
  · obtain ⟨_, hc, _⟩ | ⟨mid, hmid, rfl⟩ := snoc_split ht
    · cases hc
    · have hleft' : LeftShort st action := by
        match action, hleft with
        | .short, _ => trivial
        | .opt k, ⟨hopen, hmark⟩ => exact ⟨by rwa [hsel] at hopen, by rwa [hlong] at hmark⟩
      exact ((h.near pre d action mid hmid hleft').congr (fun s _ => hsizes s)
        (fun s _ => hslacks s)).append _

/-! ## Pass 1 -/

def Code.line : Code → Line
  | .label l => .label l
  | .fixed n => .fixed n
  | .inst d _ => .inst d

/-- A result that is no loop without end, and of which `P` holds -/
def Ends {α : Type} (r : Except Stop α) (P : α → Prop) : Prop :=
  match r with
  | .ok st => P st
  | .error e => e ≠ .loops

/-- Between the statements of pass 1 -/
structure Between (cpu : Processor) (lines : List Line) (st : State) : Prop where
  inv : Inv cpu st.text 0 st
  lines : st.text.map Code.line = lines

theorem expand_ends {text : List Code} {pending : ℤ} {st : State} (h : Inv cpu text pending st)
    {P : State → Prop} (hP : ∀ st', Expanded cpu (Inv cpu text pending) st st' → P st') :
    Ends (expand cpu st) P := by
  obtain ⟨st', hst', hexp⟩ := expand_expanded (Inv.keeps text pending) h
  rw [hst']
  exact hP st' hexp

/-- What `deflab` completes of a label at `newdot` -/
theorem deflab_symtab (st : State) (l : ℕ) {s : Symbol} (hs : s.styp = .TXT) (hs0 : s.sectnum = 0)
    (hv : s.value = st.newdot) :
    Function.update (Function.update st.symtab (.name l) s) (.name l)
      { Function.update st.symtab (.name l) s (.name l) with maxval := st.PCmax } =
        Function.update st.symtab (.name l) ⟨.TXT, 0, st.newdot, st.PCmax⟩ := by
  obtain ⟨_, _, _, _⟩ := s
  cases hs
  cases hs0
  cases hv
  rw [Function.update_idem, Function.update_self]
  rfl

theorem Inv.deflab {text : List Code} {st : State} (h : Inv cpu text 0 st) {l : ℕ}
    (hu : (st.symtab (.name l)).styp = .UNDEF) {s : Symbol} (hs : s.styp = .TXT)
    (hs0 : s.sectnum = 0) (hv : s.value = st.newdot) {text' : List Code} {P : State → Prop}
    (hP : ∀ st', Inv cpu (text ++ [.label l]) 0 st' → st'.text = text' → P st') :
    Ends (deflab cpu { st with symtab := Function.update st.symtab (.name l) s, text := text' }
      (.name l)) P := by
  unfold As.deflab
  dsimp only
  rw [deflab_symtab st l hs hs0 hv]
  by_cases hsel : st.selset = []
  · rw [if_neg (not_not.mpr hsel)]
    exact hP _ (h.enterLabel hu rfl (.inl ⟨rfl, hsel⟩)) rfl
  · rw [if_pos hsel]
    unfold newlab
    split
    · rename_i e he
      split at he
      · cases he
        exact fun hc => nomatch hc
      · cases he
    · rename_i st1 hst1
      split at hst1
      · cases hst1
      · cases hst1
        have hinv : Inv cpu (text ++ [.label l]) 0 { st with
            symtab := Function.update st.symtab (.name l) ⟨.TXT, 0, st.newdot, st.PCmax⟩
            labset := st.labset ++ [.name l], text := text' } := h.enterLabel hu rfl (.inr rfl)
        exact expand_ends hinv fun st' hexp => hP st' hexp.inv hexp.same.text

theorem Between.label {lines : List Line} {st : State} (h : Between cpu lines st) (l : ℕ) :
    Ends (statement cpu st (.label l)) (Between cpu (lines ++ [.label l])) := by
  unfold statement
  dsimp only
  split
  · exact fun hc => nomatch hc
  · rename_i hu
    have hdot := h.inv.dot
    rw [if_pos (by rw [hdot]; exact ⟨rfl, rfl⟩)]
    refine h.inv.deflab (not_not.mp hu) (by rw [hdot]) (by rw [hdot]) rfl fun st' hinv ht => ?_
    rw [← ht] at hinv
    exact ⟨hinv, by rw [ht, map_append, h.lines]; rfl⟩

theorem Between.fixed {lines : List Line} {st : State} (h : Between cpu lines st) (n : ℕ) :
    Ends (statement cpu st (.fixed n)) (Between cpu (lines ++ [.fixed n])) := by
  have hinv := h.inv.append (c := .fixed n) (fun l hc => nomatch hc) rfl fun d hd => nomatch hd
  rw [zero_add] at hinv
  exact ⟨hinv.generate (.fixed n), by simp [As.generate, h.lines, Code.line]⟩

/-- What an instruction is generated with -/
def actionOf (sditype : Sditype) (sdicnt : ℕ) : Action :=
  match sditype with
  | .S_SDI => .short
  | .L_SDI => .long
  | .U_SDI => .opt sdicnt

/-- And the bytes counted for it -/
def nbytesOf (cpu : Processor) (d : Sdi) (sditype : Sditype) : ℤ :=
  if sditype = .L_SDI then d.size + idelta cpu d.itype else d.size

theorem Inv.near_of_sdi {text : List Code} {st : State} (h : Inv cpu text 0 st) {d : Sdi}
    (hs : sdi st d.sym d.const d.itype = .S_SDI) : Near cpu st d text [] := by
  unfold sdi at hs
  cases hsym : d.sym with
  | none => simp [hsym] at hs
  | some s =>
    rw [hsym] at hs
    dsimp only at hs
    by_cases hu : (st.symtab s).styp = .UNDEF
    · rw [if_pos hu] at hs
      cases hs
    · rw [if_neg hu] at hs
      have hdot := h.dot
      have htot := h.newdot
      have hmax := h.PCmax
      cases s with
      | dot =>
        rw [hdot] at hs
        simp only [Symbol.isTxt0, and_self, not_true_eq_false, if_false] at hs
        obtain ⟨hl, hr⟩ := (short_answer hs).1
        exact .here hsym ⟨by omega, by omega⟩
      | name l =>
        have htxt : (st.symtab (.name l)).isTxt0 := by
          by_contra hnot
          rw [if_pos hnot] at hs
          cases hs
        have hmem : Code.label l ∈ text := by
          by_contra hnot
          exact h.elsewhere l hnot htxt
        obtain ⟨a, mid, ht⟩ := append_of_mem hmem
        rw [h.label a l mid ht, hdot] at hs
        simp only [Symbol.isTxt0, and_self, not_true_eq_false, if_false] at hs
        obtain ⟨⟨hl, hr⟩, hl2, hr2⟩ := short_answer hs
        rw [ht, sizes_append, sizes_cons] at htot
        rw [ht, slacks_append, slacks_cons] at hmax
        simp only [Code.size, Code.slack] at htot hmax
        exact .back l a mid hsym ht (by omega) (by omega)

theorem Inv.here_of_sdi {text : List Code} {st : State} (h : Inv cpu text 0 st) {d : Sdi}
    (hsym : d.sym = some .dot) (hs : sdi st d.sym d.const d.itype = .U_SDI) :
    Near cpu st d text [] := by
  have hdot := h.dot
  rw [hsym] at hs
  unfold sdi at hs
  dsimp only at hs
  rw [hdot] at hs
  simp only [Symbol.isTxt0, and_self, not_true_eq_false, if_false, reduceCtorEq] at hs
  obtain ⟨hl, hr⟩ := (unknown_answer hs).1
  exact .here hsym ⟨by omega, by omega⟩

/-- What `register` hands on -/
structure Registered (cpu : Processor) (d : Sdi) (st : State) (sditype : Sditype) (st' : State) :
    Prop where
  inv : Inv cpu (st.text ++ [.inst d (actionOf sditype st'.sdicnt)]) (nbytesOf cpu d sditype) st'
  text : st'.text = st.text

theorem Registered.long {d : Sdi} {st : State} (h : Inv cpu st.text 0 st) :
    Registered cpu d st .L_SDI st := by
  have hinv := h.append (c := .inst d .long) (fun l hc => nomatch hc) rfl fun d hd => nomatch hd
  rw [zero_add] at hinv
  exact ⟨hinv, rfl⟩

theorem Registered.short {d : Sdi} {st : State} (h : Inv cpu st.text 0 st)
    (hn : Near cpu st d st.text []) : Registered cpu d st .S_SDI st := by
  have hinv := h.append (c := .inst d .short) (fun l hc => nomatch hc) rfl fun d' hd => by
    cases hd
    exact hn
  rw [zero_add] at hinv
  exact ⟨hinv, rfl⟩

theorem Registered.opt {d : Sdi} {st st' : State} (h : Inv cpu st.text 0 st) {l : ℕ}
    (hsym : d.sym = some (.name l)) (hst : newsdi cpu st (.name l) d.const d.itype = .ok st') :
    Registered cpu d st .U_SDI st' :=
  ⟨h.enter hsym (newsdi_eq hst), by rw [newsdi_eq hst]; rfl⟩

/-- `register`, when its answer is taken for `L_SDI` where there is none -/
theorem register_registered {d : Sdi} {st : State} (h : Inv cpu st.text 0 st) :
    match register cpu st d.sym d.const d.itype with
    | .error e => e ≠ .loops
    | .ok (sditype, st') => Registered cpu d st (sditype.getD .L_SDI) st' := by
  have hdot : (st.symtab .dot).isTxt0 := by
    rw [h.dot]
    exact ⟨rfl, rfl⟩
  have henter {l : ℕ} (hsym : d.sym = some (.name l)) :
      (∃ e, newsdi cpu st (.name l) d.const d.itype = .error e ∧ e ≠ .loops) ∨
        ∃ st', newsdi cpu st (.name l) d.const d.itype = .ok st' ∧ Registered cpu d st .U_SDI st' := by
    cases hnew : newsdi cpu st (.name l) d.const d.itype with
    | error e =>
      unfold newsdi at hnew
      split at hnew
      · cases hnew
        exact .inl ⟨_, rfl, by rintro ⟨⟩⟩
      · cases hnew
    | ok st' => exact .inr ⟨st', rfl, .opt h hsym hnew⟩
  unfold register
  cases hsym : d.sym with
  | none => exact .long h
  | some s =>
    dsimp only
    rw [if_neg (not_not.mpr hdot)]
    cases s with
    | dot =>
      rw [if_neg (by rw [h.dot]; rintro ⟨⟩)]
      cases hs : sdi st (some .dot) d.const d.itype with
      | L_SDI => exact .long h
      | S_SDI => exact .short h (h.near_of_sdi (hsym ▸ hs))
      | U_SDI =>
        dsimp only
        rw [if_pos ⟨rfl, hdot⟩]
        exact .short h (h.here_of_sdi hsym (hsym ▸ hs))
    | name l =>
      by_cases hu : (st.symtab (.name l)).styp = .UNDEF
      · rw [if_pos hu]
        obtain ⟨e, hnew, he⟩ | ⟨st', hnew, hr⟩ := henter hsym
        · rw [hnew]
          exact he
        · rw [hnew]
          exact hr
      · rw [if_neg hu]
        cases hs : sdi st (some (.name l)) d.const d.itype with
        | L_SDI => exact .long h
        | S_SDI => exact .short h (h.near_of_sdi (hsym ▸ hs))
        | U_SDI =>
          dsimp only
          rw [if_neg (by simp)]
          obtain ⟨e, hnew, he⟩ | ⟨st', hnew, hr⟩ := henter hsym
          · rw [hnew]
            exact he
          · rw [hnew]
            exact hr

theorem Between.generated {lines : List Line} {st st' : State} (h : Between cpu lines st) {d : Sdi}
    {sditype : Sditype}
    (hinv : Inv cpu (st.text ++ [.inst d (actionOf sditype st'.sdicnt)])
      (nbytesOf cpu d sditype) st') (ht : st'.text = st.text) :
    Between cpu (lines ++ [.inst d])
      (generate st' (nbytesOf cpu d sditype) (.inst d (actionOf sditype st'.sdicnt))) := by
  rw [← ht] at hinv
  exact ⟨hinv.generate _, by simp [As.generate, ht, h.lines, Code.line]⟩

theorem Between.inst {lines : List Line} {st : State} (h : Between cpu lines st) (d : Sdi) :
    Ends (statement cpu st (.inst d)) (Between cpu (lines ++ [.inst d])) := by
  have hreg := register_registered (d := d) h.inv
  unfold statement shortsdi
  dsimp only
  cases hr : register cpu st d.sym d.const d.itype with
  | error e =>
    rw [hr] at hreg
    exact hreg
  | ok r =>
    rw [hr] at hreg
    obtain ⟨ans, st1⟩ := r
    cases ans with
    | none => exact h.generated hreg.inv hreg.text
    | some sditype =>
      dsimp only
      by_cases hlen : 1 < st1.selset.length
      · rw [if_pos hlen]
        obtain ⟨st2, hst2, hexp⟩ := expand_expanded (Inv.keeps _ _) hreg.inv
        rw [hst2]
        have hinv := hexp.inv
        rw [← hexp.same.sdicnt] at hinv
        have hgen := h.generated hinv (hexp.same.text.trans hreg.text)
        cases sditype <;> exact hgen
      · rw [if_neg hlen]
        have hgen := h.generated hreg.inv hreg.text
        cases sditype <;> exact hgen

theorem pass1_ends :
    ∀ (lines done : List Line) (st : State), Between cpu done st →
      Ends (pass1 cpu st lines) (Between cpu (done ++ lines))
  | [], done, st, h => by
    rw [append_nil]
    exact h
  | line :: lines, done, st, h => by
    have hstep : Ends (statement cpu st line) (Between cpu (done ++ [line])) := by
      match line with
      | .label l => exact h.label l
      | .fixed n => exact h.fixed n
      | .inst d => exact h.inst d
    unfold pass1
    cases hs : statement cpu st line with
    | error e =>
      rw [hs] at hstep
      exact hstep
    | ok st' =>
      rw [hs] at hstep
      have ih := pass1_ends lines (done ++ [line]) st' hstep
      rwa [append_assoc, singleton_append] at ih

theorem start_between : Between cpu [] start := by
  refine ⟨?_, rfl⟩
  refine
    { numbered := rfl
      fresh := fun k _ => rfl
      grown := fun k => le_refl 0
      marked := nofun
      entry := nofun
      sel_nodup := nodup_nil
      newdot := rfl
      PCmax := rfl
      dot := rfl
      label := fun pre l post ht => ?_
      elsewhere := fun l _ hl => nomatch hl.1
      lab_nodup := nodup_nil
      lab_mem := nofun
      lab_all := fun pre l post ht => ?_
      near := fun pre d action post ht => ?_ }
  all_goals exact absurd (congrArg List.length ht) (by simp [start])

theorem Inv.last {text : List Code} {pending : ℤ} {st : State} (h : Inv cpu text pending st) (b : Bool) :
    Inv cpu text pending { st with notdone := b } := by
  refine { h with entry := fun e he => ?_, near := fun pre d action post ht hleft => ?_ }
  · obtain ⟨pre, d, post, hent⟩ := h.entry e he
    exact ⟨pre, d, post, { hent with }⟩
  · exact (h.near pre d action post ht hleft).congr (fun _ _ => rfl) (fun _ _ => rfl)

/-- After `fixsyms` -/
structure Fixed (cpu : Processor) (lines : List Line) (st : State) : Prop where
  inv : Inv cpu st.text 0 st
  lines : st.text.map Code.line = lines
  notdone : st.notdone = false
  unknown : ∀ e ∈ st.selset, sdiclass cpu st e = .U_SDI

variable (cpu) in
theorem assemble_ends (lines : List Line) : Ends (assemble cpu lines) (Fixed cpu lines) := by
  have hp := @pass1_ends cpu lines [] start start_between
  unfold assemble
  cases hs : pass1 cpu start lines with
  | error e =>
    rw [hs] at hp
    exact hp
  | ok st =>
    rw [hs] at hp
    refine expand_ends (hp.inv.last false) fun st' hexp => ?_
    have ht : st'.text = st.text := hexp.same.text
    exact ⟨by rw [ht]; exact hexp.inv, by rw [ht]; exact hp.lines, hexp.same.notdone, hexp.unknown⟩

/-! ## The text after `fixsyms` -/

/-- The size a statement has in the end: pass 2 takes the long form where `islongsdi` is set -/
def Code.final (cpu : Processor) (st : State) : Code → ℤ
  | .label _ => 0
  | .fixed n => n
  | .inst d .short => d.size
  | .inst d .long => d.size + idelta cpu d.itype
  | .inst d (.opt k) => d.size + if st.islongsdi k ≠ 0 then idelta cpu d.itype else 0

/-- The address behind statements -/
def address (cpu : Processor) (st : State) (text : List Code) : ℤ :=
  (text.map (Code.final cpu st)).sum

/-- The instructions of which pass 2 takes the short form -/
def Action.isShort (st : State) : Action → Prop
  | .short => True
  | .long => False
  | .opt k => st.islongsdi k = 0

/-- The address of an operand of the instruction at `here` -/
def Sym.address (st : State) (here : ℤ) : Sym → ℤ
  | .dot => here
  | .name l => (st.symtab (.name l)).value

theorem Inv.final_eq {text : List Code} {pending : ℤ} {st : State} (h : Inv cpu text pending st)
    {c : Code} (hc : c ∈ text) : c.final cpu st = c.size cpu st := by
  match c with
  | .label _ | .fixed _ | .inst _ .short | .inst _ .long => rfl
  | .inst d (.opt k) =>
    have hpos := idelta_pos cpu d.itype
    simp only [Code.final, Code.size]
    split
    · rename_i hne
      rw [(h.marked d k hc).resolve_left hne]
    · rename_i hz
      rw [not_not.mp hz]

theorem Inv.address_eq {text : List Code} {pending : ℤ} {st : State} (h : Inv cpu text pending st)
    {s : List Code} (hs : s ⊆ text) : address cpu st s = sizes cpu st s :=
  congrArg List.sum (map_congr_left fun _ hc => h.final_eq (hs hc))

theorem Fixed.label {lines : List Line} {st : State} (h : Fixed cpu lines st) {pre post : List Code}
    {l : ℕ} (ht : st.text = pre ++ .label l :: post) :
    (st.symtab (.name l)).value = address cpu st pre := by
  rw [h.inv.label pre l post ht, h.inv.address_eq (by rw [ht]; exact subset_append_left ..)]

/-- Of the distances still possible the one in the end is one -/
theorem Near.inRange {lines : List Line} {st : State} (h : Fixed cpu lines st) {d : Sdi}
    {action : Action} {pre post : List Code} (ht : st.text = pre ++ .inst d action :: post)
    (hsize : (Code.inst d action).size cpu st = d.size) (hn : Near cpu st d pre post) :
    ∃ s, d.sym = some s ∧ (∀ l, s = .name l → .label l ∈ st.text) ∧
      inRange d.itype (s.address st (sizes cpu st pre) + d.const -
        (sizes cpu st pre + pcincr d.itype)) := by
  cases hn with
  | here hsym hr =>
    refine ⟨.dot, hsym, nofun, ?_⟩
    obtain ⟨hl, hu⟩ := hr
    exact ⟨by simp only [Sym.address]; omega, by simp only [Sym.address]; omega⟩
  | back l a mid hsym hpre hl hu =>
    have htext : st.text = a ++ .label l :: (mid ++ .inst d action :: post) := by
      rw [ht, hpre]
      simp
    have hslack := slacks_nonneg cpu st mid
    refine ⟨.name l, hsym, fun l' hl' => ?_, ?_⟩
    · cases hl'
      simp [htext]
    · simp only [Sym.address, h.inv.label a l _ htext, hpre, sizes_append, sizes_cons, Code.size]
      exact ⟨by omega, by omega⟩
  | ahead l mid b hsym hpost hl hu =>
    have htext : st.text = (pre ++ .inst d action :: mid) ++ .label l :: b := by
      rw [ht, hpost]
      simp
    have hslack := slacks_nonneg cpu st mid
    refine ⟨.name l, hsym, fun l' hl' => ?_, ?_⟩
    · cases hl'
      simp [htext]
    · simp only [Sym.address, h.inv.label _ l _ htext, sizes_append, sizes_cons, hsize]
      exact ⟨by omega, by omega⟩

theorem Fixed.short {lines : List Line} {st : State} (h : Fixed cpu lines st) {d : Sdi}
    {action : Action} {pre post : List Code} (ht : st.text = pre ++ .inst d action :: post)
    (hs : action.isShort st) :
    ∃ s, d.sym = some s ∧ (∀ l, s = .name l → .label l ∈ st.text) ∧
      inRange d.itype (s.address st (sizes cpu st pre) + d.const -
        (sizes cpu st pre + pcincr d.itype)) := by
  match action, hs with
  | .short, _ => exact (h.inv.near pre d .short post ht trivial).inRange h ht rfl
  | .opt k, hmark =>
    have hmark : st.islongsdi k = 0 := hmark
    by_cases hopen : k ∈ st.selset.map (·.sdicnt)
    · -- what `expand` could not decide stays short, and nothing grows any more
      obtain ⟨e, he, rfl⟩ := mem_map.mp hopen
      obtain ⟨pre', d', post', hent⟩ := h.inv.entry e he
      obtain ⟨rfl, rfl, rfl⟩ := hent.unique h.inv.nodup ht
      obtain ⟨l, hsym, hl, hr⟩ := h.inv.inRange_of_unknown hent hopen (h.unknown e he) h.notdone
      exact ⟨.name l, hsym, fun l' hl' => by cases hl'; exact hl, hr⟩
    · have hsize : (Code.inst d (.opt k)).size cpu st = d.size := by
        simp [Code.size, hmark]
      exact (h.inv.near pre d (.opt k) post ht ⟨hopen, hmark⟩).inRange h ht hsize

/-- Of every text that fits in the tables, `expand` comes to an end each time it is called. Each label has the sum
of the sizes before it, and each instruction left short reaches its label -/
theorem expand_sound (cpu : Processor) (lines : List Line) :
    assemble cpu lines ≠ .error .loops ∧
      ∀ st, assemble cpu lines = .ok st →
        st.text.map Code.line = lines ∧
        (∀ pre l post, st.text = pre ++ .label l :: post →
          (st.symtab (.name l)).value = address cpu st pre) ∧
        ∀ pre d action post, st.text = pre ++ .inst d action :: post → action.isShort st →
          ∃ s, d.sym = some s ∧ (∀ l, s = .name l → .label l ∈ st.text) ∧
            (range d.itype).lbound ≤ s.address st (address cpu st pre) + d.const -
              (address cpu st pre + pcincr d.itype) ∧
            s.address st (address cpu st pre) + d.const - (address cpu st pre + pcincr d.itype) ≤
              (range d.itype).ubound := by
  have h := assemble_ends cpu lines
  constructor
  · intro he
    rw [he] at h
    exact h rfl
  · intro st hst
    rw [hst] at h
    have h : Fixed cpu lines st := h
    refine ⟨h.lines, fun pre l post ht => h.label ht, fun pre d action post ht hs => ?_⟩
    rw [h.inv.address_eq (by rw [ht]; exact subset_append_left ..)]
    exact h.short ht hs

/-- A branch to a label -/
def branch (l : ℕ) : Sdi := ⟨some (.name l), 0, .SDI2, 4, by decide⟩

theorem expand_sound_far :
    ∃ st, assemble .M68020
        [.label 0, .inst (branch 1), .fixed 32756, .inst (branch 0), .inst (branch 1), .label 1] =
          .ok st ∧
      (st.symtab (.name 1)).value =
        address .M68020 st [.label 0, .inst (branch 1) (.opt 1), .fixed 32756,
          .inst (branch 0) .long, .inst (branch 1) (.opt 2)] := by
  obtain ⟨st, hst, ht⟩ : ∃ st, assemble .M68020
      [.label 0, .inst (branch 1), .fixed 32756, .inst (branch 0), .inst (branch 1), .label 1] =
        .ok st ∧
      st.text = [.label 0, .inst (branch 1) (.opt 1), .fixed 32756, .inst (branch 0) .long,
        .inst (branch 1) (.opt 2)] ++ .label 1 :: [] := ⟨_, rfl, rfl⟩
  exact ⟨st, hst, ((expand_sound .M68020 _).2 st hst).2.1 _ 1 [] ht⟩

end Svr3.As
