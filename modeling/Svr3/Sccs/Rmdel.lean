import Svr3.Sccs.WeaveRead

/-!
# Removing a delta

`rmdel` drops all text between the brackets of the lines that the delta inserted. Lines of a later delta in there
are lost too, and they would be shown to those who do not apply the removed delta.
-/

namespace Svr3.Sccs

open List

/-- The loop of `rmdel` over typed lines -/
def strip (n : ℕ) : Bool → List Line → List Line
  | _, [] => []
  | keep, .text t :: ls => if keep then .text t :: strip n keep ls else strip n keep ls
  | keep, .start i ser :: ls => if ser = n then strip n (i != .ins) ls else .start i ser :: strip n keep ls
  | keep, .stop ser :: ls => if ser = n then strip n true ls else .stop ser :: strip n keep ls

/-- The brackets that are open at the lines of text -/
def places (maxser : ℕ) : List Line → List Open → List (List Open)
  | [], _ => []
  | .text _ :: ls, o => o :: places maxser ls o
  | l :: ls, o => ((l.opens maxser o).map (places maxser ls)).getD []

/-- No line of a later delta is between the brackets of the lines that delta `n` inserted. -/
def NoneNested (maxser n : ℕ) (ls : List Line) : Prop :=
  ∀ o ∈ places maxser ls [], ⟨n, .ins⟩ ∈ o → ∀ x ∈ o, n < x.ser → x.iord = .del

/-! ## Open brackets -/

section opens

variable {n ser : ℕ} {o o1 : List Open} {x : Open}

/-- The latest bracket is first. -/
def Sorted (o : List Open) : Prop := o.Pairwise fun x y => y.ser < x.ser

theorem Sorted.eq_of_ser (hs : Sorted o) {y : Open} (hx : x ∈ o) (hy : y ∈ o) (h : x.ser = y.ser) : x = y := by
  induction o with
  | nil => exact absurd hx not_mem_nil
  | cons cur o ih =>
    obtain ⟨hcur, ho⟩ := pairwise_cons.mp hs
    rcases mem_cons.mp hx with rfl | hx
    · rcases mem_cons.mp hy with rfl | hy
      · rfl
      · exact absurd h.symm (Nat.ne_of_lt (hcur y hy))
    · rcases mem_cons.mp hy with heq | hy
      · exact absurd h (Nat.ne_of_lt (heq ▸ hcur x hx))
      · exact ih ho hx hy

theorem addOpen_mem (h : addOpen x o = some o1) {y : Open} : y ∈ o1 ↔ y = x ∨ y ∈ o := by
  induction o generalizing o1 with
  | nil =>
    obtain rfl := Option.some.inj h
    exact mem_cons
  | cons cur o ih =>
    rw [addOpen] at h
    split at h
    · split at h
      · cases h
      · obtain rfl := Option.some.inj h
        exact mem_cons
    · obtain ⟨o2, ho2, rfl⟩ := Option.map_eq_some_iff.mp h
      rw [mem_cons, ih ho2, mem_cons]
      exact or_left_comm

theorem Sorted.addOpen (hs : Sorted o) (h : addOpen x o = some o1) : Sorted o1 := by
  induction o generalizing o1 with
  | nil =>
    obtain rfl := Option.some.inj h
    exact pairwise_singleton _ _
  | cons cur o ih =>
    obtain ⟨hcur, ho⟩ := pairwise_cons.mp hs
    rw [Sccs.addOpen] at h
    split at h
    next hle =>
      split at h
      next => cases h
      next hne =>
        obtain rfl := Option.some.inj h
        have hlt : cur.ser < x.ser := Nat.lt_of_le_of_ne hle hne
        refine pairwise_cons.mpr ⟨fun y hy => ?_, hs⟩
        rcases mem_cons.mp hy with rfl | hy
        · exact hlt
        · exact Nat.lt_trans (hcur y hy) hlt
    next hlt =>
      obtain ⟨o2, ho2, rfl⟩ := Option.map_eq_some_iff.mp h
      refine pairwise_cons.mpr ⟨fun y hy => ?_, ih ho ho2⟩
      rcases (addOpen_mem ho2).mp hy with rfl | hy
      · exact Nat.not_le.mp hlt
      · exact hcur y hy

theorem remOpen_sublist (h : remOpen ser o = some o1) : o1.Sublist o := by
  induction o generalizing o1 with
  | nil => exact absurd h nofun
  | cons cur o ih =>
    rw [remOpen] at h
    split at h
    · obtain rfl := Option.some.inj h
      exact sublist_cons_self _ _
    · obtain ⟨o2, ho2, rfl⟩ := Option.map_eq_some_iff.mp h
      exact (ih ho2).cons_cons cur

theorem remOpen_mem (h : remOpen ser o = some o1) (hx : x.ser ≠ ser) : x ∈ o1 ↔ x ∈ o := by
  induction o generalizing o1 with
  | nil => exact absurd h nofun
  | cons cur o ih =>
    rw [remOpen] at h
    split at h
    next heq =>
      obtain rfl := Option.some.inj h
      rw [mem_cons]
      refine (or_iff_right fun hc => ?_).symm
      subst hc
      exact hx heq
    next =>
      obtain ⟨o2, ho2, rfl⟩ := Option.map_eq_some_iff.mp h
      rw [mem_cons, mem_cons, ih ho2]

theorem Sorted.opens {maxser : ℕ} {l : Line} (hs : Sorted o) (h : l.opens maxser o = some o1) : Sorted o1 := by
  cases l with
  | text t =>
    obtain rfl := Option.some.inj h
    exact hs
  | start i ser => exact hs.addOpen (Option.ite_none_right_eq_some.mp h).2
  | stop ser => exact hs.sublist (remOpen_sublist (Option.ite_none_right_eq_some.mp h).2)

/-- The brackets of the other deltas -/
def others (n : ℕ) (o : List Open) : List Open := o.filter fun x => x.ser != n

theorem others_cons_pos (hx : x.ser = n) : others n (x :: o) = others n o :=
  filter_cons_of_neg (by rw [bne_iff_ne]; exact not_not.mpr hx)

theorem others_cons_neg (hx : x.ser ≠ n) : others n (x :: o) = x :: others n o :=
  filter_cons_of_pos (bne_iff_ne.mpr hx)

theorem addOpen_first (h : ∀ y ∈ o, y.ser < x.ser) : addOpen x o = some (x :: o) := by
  cases o with
  | nil => rfl
  | cons y o =>
    have hlt := h y mem_cons_self
    rw [addOpen, if_pos (Nat.le_of_lt hlt), if_neg (Nat.ne_of_lt hlt)]

theorem addOpen_others (hs : Sorted o) (h : addOpen x o = some o1) (hx : x.ser ≠ n) :
    addOpen x (others n o) = some (others n o1) := by
  induction o generalizing o1 with
  | nil =>
    obtain rfl := Option.some.inj h
    rw [others_cons_neg hx]
    rfl
  | cons cur o ih =>
    obtain ⟨hcur, ho⟩ := pairwise_cons.mp hs
    rw [addOpen] at h
    split at h
    next hle =>
      split at h
      next => cases h
      next hne =>
        obtain rfl := Option.some.inj h
        have hlt : cur.ser < x.ser := Nat.lt_of_le_of_ne hle hne
        rw [others_cons_neg hx]
        apply addOpen_first
        intro y hy
        rcases mem_cons.mp (mem_filter.mp hy).1 with rfl | hy
        · exact hlt
        · exact Nat.lt_trans (hcur y hy) hlt
    next hlt =>
      obtain ⟨o2, ho2, rfl⟩ := Option.map_eq_some_iff.mp h
      have hrest := ih ho ho2
      by_cases hn : cur.ser = n
      · rw [others_cons_pos hn, others_cons_pos hn, hrest]
      · rw [others_cons_neg hn, others_cons_neg hn, addOpen, if_neg hlt, hrest]
        rfl

theorem addOpen_self (h : addOpen x o = some o1) (hx : x.ser = n) : others n o1 = others n o := by
  induction o generalizing o1 with
  | nil =>
    obtain rfl := Option.some.inj h
    exact others_cons_pos hx
  | cons cur o ih =>
    rw [addOpen] at h
    split at h
    · split at h
      · cases h
      · obtain rfl := Option.some.inj h
        exact others_cons_pos hx
    · obtain ⟨o2, ho2, rfl⟩ := Option.map_eq_some_iff.mp h
      have hrest := ih ho2
      rw [others, others, filter_cons, filter_cons]
      change (if _ then cur :: others n o2 else others n o2) = if _ then cur :: others n o else others n o
      rw [hrest]

theorem remOpen_others (h : remOpen ser o = some o1) (hser : ser ≠ n) :
    remOpen ser (others n o) = some (others n o1) := by
  induction o generalizing o1 with
  | nil => exact absurd h nofun
  | cons cur o ih =>
    rw [remOpen] at h
    split at h
    next heq =>
      obtain rfl := Option.some.inj h
      rw [others_cons_neg (heq ▸ hser), remOpen, if_pos heq]
    next hne =>
      obtain ⟨o2, ho2, rfl⟩ := Option.map_eq_some_iff.mp h
      have hrest := ih ho2
      by_cases hn : cur.ser = n
      · rw [others_cons_pos hn, others_cons_pos hn, hrest]
      · rw [others_cons_neg hn, others_cons_neg hn, remOpen, if_neg hne, hrest]
        rfl

theorem remOpen_self (hs : Sorted o) (h : remOpen n o = some o1) : others n o1 = others n o ∧ ∀ x ∈ o1, x.ser ≠ n := by
  induction o generalizing o1 with
  | nil => exact absurd h nofun
  | cons cur o ih =>
    obtain ⟨hcur, ho⟩ := pairwise_cons.mp hs
    rw [remOpen] at h
    split at h
    next heq =>
      obtain rfl := Option.some.inj h
      exact ⟨(others_cons_pos heq).symm, fun x hx => Nat.ne_of_lt (heq ▸ hcur x hx)⟩
    next hne =>
      obtain ⟨o2, ho2, rfl⟩ := Option.map_eq_some_iff.mp h
      obtain ⟨heq, hout⟩ := ih ho ho2
      refine ⟨by rw [others_cons_neg hne, others_cons_neg hne, heq], fun x hx => ?_⟩
      rcases mem_cons.mp hx with rfl | hx
      · exact hne
      · exact hout x hx

end opens

/-! ## What is visible -/

section visible

variable {n : ℕ} {o : List Open} {v : Apply}

/-- A bracket that deletes says nothing when its delta is not applied. -/
theorem visible_others (hv : v n = false) (hout : ⟨n, .ins⟩ ∉ o) : visible v (others n o) = visible v o := by
  induction o with
  | nil => rfl
  | cons x o ih =>
    rw [mem_cons, not_or] at hout
    have hrest := ih hout.2
    by_cases hx : x.ser = n
    · have hnull : x.keep v = .null := by
        obtain ⟨ser, iord⟩ := x
        obtain rfl : ser = n := hx
        cases iord with
        | ins => exact absurd rfl hout.1
        | del =>
          change (if v ser then Keep.no else .null) = .null
          rw [hv]
          rfl
      rw [others_cons_pos hx, hrest, visible, hnull]
    · rw [others_cons_neg hx, visible, visible, hrest]

/-- Between the brackets of an insertion that is not applied, a line can only be shown by a later insertion. -/
theorem visible_nested (hs : Sorted o) (hin : ⟨n, .ins⟩ ∈ o) (hv : v n = false)
    (hnone : ∀ x ∈ o, n < x.ser → x.iord = .del) : visible v o = false := by
  induction o with
  | nil => exact absurd hin not_mem_nil
  | cons x o ih =>
    obtain ⟨hx, ho⟩ := pairwise_cons.mp hs
    rw [visible]
    rcases mem_cons.mp hin with rfl | hin
    · have hno : Open.keep v ⟨n, .ins⟩ = .no := by
        change (if v n then Keep.yes else .no) = .no
        rw [hv]
        rfl
      rw [hno]
    · have hdel := hnone x mem_cons_self (hx _ hin)
      have hkeep : x.keep v = if v x.ser then .no else .null := by
        rw [Open.keep, hdel]
      rw [hkeep]
      cases v x.ser with
      | true => rfl
      | false => exact ih ho hin fun y hy => hnone y (mem_cons_of_mem x hy)

/-- The vector that applies the later insertions among the open brackets -/
def inserts (n : ℕ) (o : List Open) : Apply := fun ser => decide (n < ser) && o.contains ⟨ser, .ins⟩

theorem inserts_shows (hs : Sorted o) {x : Open} (hx : x ∈ o) (hlt : n < x.ser) (hins : x.iord = .ins) :
    visible (inserts n o) o = true := by
  have hgo {p : List Open} (hp : Sorted p) (hsub : ∀ y ∈ p, y ∈ o) (hx : x ∈ p) :
      visible (inserts n o) p = true := by
    induction p with
    | nil => exact absurd hx not_mem_nil
    | cons y p ih =>
      obtain ⟨hy, hp'⟩ := pairwise_cons.mp hp
      have hley : n < y.ser := by
        rcases mem_cons.mp hx with rfl | hx
        · exact hlt
        · exact Nat.lt_trans hlt (hy x hx)
      have hmem : y ∈ o := hsub y mem_cons_self
      obtain ⟨ser, iord⟩ := y
      rw [visible]
      cases iord with
      | ins =>
        have hyes : Open.keep (inserts n o) ⟨ser, .ins⟩ = .yes := by
          have hv : inserts n o ser = true := by
            rw [inserts, Bool.and_eq_true, decide_eq_true_iff, contains_iff_mem]
            exact ⟨hley, hmem⟩
          change (if inserts n o ser then Keep.yes else .no) = .yes
          rw [hv]
          rfl
        rw [hyes]
      | del =>
        have hv : inserts n o ser = false := by
          rw [inserts, Bool.and_eq_false_iff]
          right
          rw [← Bool.not_eq_true, contains_iff_mem]
          intro hc
          cases hs.eq_of_ser hmem hc rfl
        have hnull : Open.keep (inserts n o) ⟨ser, .del⟩ = .null := by
          change (if inserts n o ser then Keep.no else .null) = .null
          rw [hv]
          rfl
        rw [hnull]
        apply ih hp' fun y hy => hsub y (mem_cons_of_mem _ hy)
        rcases mem_cons.mp hx with rfl | hx
        · cases hins
        · exact hx
  exact hgo hs (fun y hy => hy) hx

theorem inserts_self : inserts n o n = false := by
  rw [inserts, Bool.and_eq_false_iff]
  exact .inl (decide_eq_false (Nat.lt_irrefl n))

end visible

/-! ## The body without the delta -/

section strip

variable {maxser n : ℕ} {v : Apply} {ls : List Line} {o o' : List Open} {r : List (List Char)}

/-- The brackets at the lines of text are sorted. -/
theorem places_sorted (hs : Sorted o) : ∀ p ∈ places maxser ls o, Sorted p := by
  have hctl {l : Line} {ls : List Line} {o : List Open} (hs : Sorted o)
      (ih : ∀ {o1}, Sorted o1 → ∀ p ∈ places maxser ls o1, Sorted p) :
      ∀ p ∈ ((l.opens maxser o).map (places maxser ls)).getD [], Sorted p := by
    intro p hp
    cases ho : l.opens maxser o with
    | none =>
      rw [ho] at hp
      exact absurd hp not_mem_nil
    | some o1 =>
      rw [ho] at hp
      exact ih (hs.opens ho) p hp
  induction ls generalizing o with
  | nil => exact fun p hp => absurd hp not_mem_nil
  | cons l ls ih =>
    cases l with
    | text t =>
      intro p hp
      rcases mem_cons.mp hp with rfl | hp
      · exact hs
      · exact ih hs p hp
    | start i ser => exact hctl hs ih
    | stop ser => exact hctl hs ih

theorem places_ctl {l : Line} {o1 : List Open} (htext : ∀ t, l ≠ .text t) (ho : l.opens maxser o = some o1) :
    places maxser (l :: ls) o = places maxser ls o1 := by
  cases l with
  | text t => exact absurd rfl (htext t)
  | start i ser =>
    rw [places, ho]
    · rfl
    · exact htext
  | stop ser =>
    rw [places, ho]
    · rfl
    · exact htext

/-- Whether the filter keeps text -/
def keeps (n : ℕ) (o : List Open) : Bool := !o.contains ⟨n, .ins⟩

theorem keeps_iff : keeps n o = true ↔ ⟨n, .ins⟩ ∉ o := by
  rw [keeps, Bool.not_eq_true', ← Bool.not_eq_true, contains_iff_mem]

theorem keeps_congr {o1 : List Open} (h : (⟨n, .ins⟩ : Open) ∈ o1 ↔ (⟨n, .ins⟩ : Open) ∈ o) :
    keeps n o1 = keeps n o := by
  rw [Bool.eq_iff_iff, keeps_iff, keeps_iff, h]

/-- A vector that does not apply the delta is shown the same lines, but for those between its brackets. -/
theorem scan_strip (hv : v n = false) (hs : Sorted o) (hscan : scan maxser v ls o = some (r, o')) :
    ∃ r2, scan maxser v (strip n (keeps n o) ls) (others n o) = some (r2, others n o') ∧ r2.Sublist r ∧
      (r2 = r ↔ ∀ p ∈ places maxser ls o, ⟨n, .ins⟩ ∈ p → visible v p = false) := by
  induction ls generalizing o r with
  | nil =>
    obtain ⟨rfl, rfl⟩ := Prod.mk.inj (Option.some.inj hscan)
    exact ⟨[], rfl, .slnil, fun _ p hp => absurd hp not_mem_nil, fun _ => rfl⟩
  | cons l ls ih =>
    obtain ⟨o1, r1, ho, hr1, rfl⟩ := scan_cons.mp hscan
    obtain ⟨r2, hr2, hsub, hiff⟩ := ih (hs.opens ho) hr1
    cases l with
    | text t =>
      obtain rfl : o = o1 := Option.some.inj ho
      have hplaces {P : List Open → Prop} : (∀ p ∈ places maxser (.text t :: ls) o, P p) ↔
          P o ∧ ∀ p ∈ places maxser ls o, P p := forall_mem_cons
      rw [strip, hplaces]
      by_cases hin : ⟨n, .ins⟩ ∈ o
      · -- the line is dropped
        have hkeep : ¬keeps n o = true := fun h => keeps_iff.mp h hin
        rw [if_neg hkeep]
        refine ⟨r2, hr2, hsub.trans (sublist_append_right _ _), ?_⟩
        rw [Line.shown]
        cases hvis : visible v o with
        | false => exact hiff.trans ⟨fun h => ⟨fun _ => rfl, h⟩, fun h => h.2⟩
        | true =>
          constructor
          · intro heq
            have hlen := hsub.length_le
            rw [heq] at hlen
            exact absurd hlen (Nat.not_succ_le_self _)
          · exact fun h => absurd (h.1 hin) (by rintro ⟨⟩)
      · have hshown : Line.shown v (others n o) (.text t) = Line.shown v o (.text t) := by
          rw [Line.shown, Line.shown, visible_others hv hin]
        rw [if_pos (keeps_iff.mpr hin)]
        refine ⟨Line.shown v o (.text t) ++ r2, scan_cons.mpr ⟨_, r2, rfl, hr2, by rw [hshown]⟩,
          List.Sublist.append (.refl _) hsub, ?_⟩
        rw [append_cancel_left_eq, hiff]
        exact ⟨fun h => ⟨fun hc => absurd hc hin, h⟩, fun h => h.2⟩
    | start i ser =>
      obtain ⟨hrange, hadd⟩ := Option.ite_none_right_eq_some.mp ho
      rw [places_ctl (fun _ => Line.noConfusion) ho, strip]
      refine ⟨r2, ?_, hsub, hiff⟩
      by_cases hser : ser = n
      · subst hser
        rw [if_pos rfl, ← addOpen_self hadd rfl]
        have hkeeps : keeps ser o1 = (i != .ins) := by
          rw [Bool.eq_iff_iff, keeps_iff, bne_iff_ne, addOpen_mem hadd, not_or]
          constructor
          · intro h hi
            exact h.1 (by rw [hi])
          · intro hi
            refine ⟨fun h => hi (Open.mk.inj h).2.symm, fun h => ?_⟩
            -- the delta has one bracket only
            have hnew : (⟨ser, i⟩ : Open) ∈ o1 := (addOpen_mem hadd).mpr (.inl rfl)
            have hold : (⟨ser, .ins⟩ : Open) ∈ o1 := (addOpen_mem hadd).mpr (.inr h)
            have heq := (hs.opens ho).eq_of_ser hnew hold rfl
            exact hi (Open.mk.inj heq).2
        rw [hkeeps] at hr2
        exact hr2
      · have hkeeps : keeps n o1 = keeps n o := by
          apply keeps_congr
          rw [addOpen_mem hadd]
          exact or_iff_right fun h => hser (Open.mk.inj h).1.symm
        rw [hkeeps] at hr2
        rw [if_neg hser]
        apply scan_cons.mpr ⟨others n o1, r2, ?_, hr2, rfl⟩
        rw [Line.opens, if_pos hrange]
        exact addOpen_others hs hadd hser
    | stop ser =>
      obtain ⟨hrange, hrem⟩ := Option.ite_none_right_eq_some.mp ho
      rw [places_ctl (fun _ => Line.noConfusion) ho, strip]
      refine ⟨r2, ?_, hsub, hiff⟩
      by_cases hser : ser = n
      · subst hser
        obtain ⟨heq, hout⟩ := remOpen_self hs hrem
        have hkeeps : keeps ser o1 = true := keeps_iff.mpr fun h => hout _ h rfl
        rw [hkeeps, heq] at hr2
        rw [if_pos rfl]
        exact hr2
      · have hkeeps : keeps n o1 = keeps n o := keeps_congr (remOpen_mem hrem (Ne.symm hser))
        rw [hkeeps] at hr2
        rw [if_neg hser]
        apply scan_cons.mpr ⟨others n o1, r2, ?_, hr2, rfl⟩
        rw [Line.opens, if_pos hrange]
        exact remOpen_others hrem hser

/-- The loop of `rmdel` on a control record -/
theorem rmdelLines_ctl {k : Bool} {slnno ser : ℕ} {c : Char} (rest : List (List Char)) (hser : ser < 2 ^ 31) :
    rmdelLines n slnno k (ctlLine c ser :: rest) =
      if ser = n then rmdelLines n (slnno + 1) (c != INS) rest
      else (rmdelLines n (slnno + 1) k rest).map (ctlLine c ser :: ·) := by
  rw [rmdelLines, if_pos ctlLine_head]
  dsimp only
  rw [control_ctlLine hser]
  dsimp only
  rw [if_neg (not_not.mpr rfl)]
  by_cases h : ser = n
  · rw [if_pos h, if_pos (by rw [h])]
  · rw [if_neg h, if_neg (by omega)]

theorem rmdelLines_strip {k : Bool} {slnno : ℕ} (hmax : maxser < 2 ^ 31)
    (hscan : scan maxser v ls o = some (r, o')) :
    rmdelLines n slnno k (ls.map Line.chars) = .ok ((strip n k ls).map Line.chars) := by
  induction ls generalizing o r slnno k with
  | nil => rfl
  | cons l ls ih =>
    obtain ⟨o1, r1, ho, hr1, -⟩ := scan_cons.mp hscan
    rw [map_cons]
    cases l with
    | text t =>
      have hhead : ¬(Line.text t).chars.head? = some CTLCHAR := t.2
      rw [rmdelLines, if_neg hhead, strip, ih hr1]
      cases k <;> rfl
    | start i ser =>
      obtain ⟨⟨-, hle⟩, -⟩ := Option.ite_none_right_eq_some.mp ho
      change rmdelLines n slnno k (ctlLine i.chr ser :: _) = _
      rw [rmdelLines_ctl _ (Nat.lt_of_le_of_lt hle hmax), strip, ih hr1, ih hr1]
      have hkeep : (i.chr != INS) = (i != .ins) := by cases i <;> rfl
      rw [hkeep]
      split <;> rfl
    | stop ser =>
      obtain ⟨⟨-, hle⟩, -⟩ := Option.ite_none_right_eq_some.mp ho
      change rmdelLines n slnno k (ctlLine END ser :: _) = _
      rw [rmdelLines_ctl _ (Nat.lt_of_le_of_lt hle hmax), strip, ih hr1, ih hr1]
      have hkeep : (END != INS) = true := rfl
      rw [hkeep]
      split <;> rfl

/-- `rmdel` checks the predecessors, and no more. -/
theorem rmdel_leaf {pred : ℕ → ℕ} (slnno : ℕ) (body : List (List Char))
    (hleaf : ∀ m, n < m → m ≤ maxser → pred m ≠ n) :
    rmdel pred maxser n slnno body = rmdelLines n slnno true body := by
  unfold rmdel
  rw [if_neg]
  intro hany
  obtain ⟨m, hm, hand⟩ := any_eq_true.mp hany
  obtain ⟨hlt, hpred⟩ := Bool.and_eq_true_iff.mp hand
  exact hleaf m (of_decide_eq_true hlt) (Nat.lt_succ_iff.mp (mem_range.mp hm)) (beq_iff_eq.mp hpred)

end strip

/-! ## The lines that are shown -/

/-- `rmdel` leaves what is shown without the delta if and only if no line of a later delta is between the brackets
of the lines that the delta inserted. -/
theorem rmdel_shows {pred : ℕ → ℕ} {maxser n slnno : ℕ} {ls : List Line} (hmax : maxser < 2 ^ 31)
    (hwb : Bracketed maxser ls) (hleaf : ∀ m, n < m → m ≤ maxser → pred m ≠ n) :
    ∃ body, rmdel pred maxser n slnno (ls.map Line.chars) = .ok body ∧
      ((∀ v, v n = false → yields maxser v body = yields maxser v (ls.map Line.chars)) ↔
        NoneNested maxser n ls) := by
  obtain ⟨r0, hr0⟩ := hwb
  refine ⟨(strip n true ls).map Line.chars, ?_, ?_⟩
  · rw [rmdel_leaf _ _ hleaf]
    exact rmdelLines_strip hmax hr0
  · have hnil : Sorted [] := List.Pairwise.nil
    have hsame {v : Apply} (hv : v n = false) :
        yields maxser v ((strip n true ls).map Line.chars) = yields maxser v (ls.map Line.chars) ↔
          ∀ p ∈ places maxser ls [], ⟨n, .ins⟩ ∈ p → visible v p = false := by
      obtain ⟨r, hr⟩ := scan_vector v hr0
      obtain ⟨r2, hr2, -, hiff⟩ := scan_strip hv hnil hr
      have hr2' : scan maxser v (strip n true ls) [] = some (r2, []) := hr2
      rw [yields_scan hmax hr2', yields_scan hmax hr, Except.ok.injEq]
      exact hiff
    constructor
    · intro h p hp hin x hx hlt
      have hsorted := places_sorted hnil p hp
      cases hins : x.iord with
      | del => rfl
      | ins =>
        have hhidden := (hsame inserts_self).mp (h (inserts n p) inserts_self) p hp hin
        rw [inserts_shows hsorted hx hlt hins] at hhidden
        exact absurd hhidden nofun
    · intro h v hv
      apply (hsame hv).mpr
      exact fun p hp hin => visible_nested (places_sorted hnil p hp) hin hv (h p hp hin)

/-- `I 1`, `a`, `I 2`, `b`, `E 2`, `E 1` -/
def nestedBody (inner : List Line) : List Line :=
  [.start .ins 1, .text ⟨['a', '
'], by decide⟩, .start .ins 2, .text ⟨['b', '
'], by decide⟩] ++ inner ++
    [.stop 2, .stop 1]

theorem rmdel_shows_body :
    Bracketed 2 (nestedBody []) ∧ ∃ body, rmdel (fun n => n - 1) 2 2 0 ((nestedBody []).map Line.chars) = .ok body ∧
      ((∀ v, v 2 = false → yields 2 v body = yields 2 v ((nestedBody []).map Line.chars)) ↔
        NoneNested 2 2 (nestedBody [])) := by
  have hwb : Bracketed 2 (nestedBody []) := ⟨[], by decide⟩
  exact ⟨hwb, rmdel_shows (by decide) hwb fun m hlt hle => by omega⟩

/-- Delta 3 is made from delta 1 and includes delta 2; its line is between the lines of 2. -/
theorem nested_line_dropped :
    Bracketed 3 (nestedBody [.start .ins 3, .text ⟨['c', '
'], by decide⟩, .stop 3]) ∧
    (∀ m, 2 < m → m ≤ 3 → (fun _ => 1) m ≠ 2) ∧
    ∃ body, rmdel (fun _ => 1) 3 2 0 ((nestedBody [.start .ins 3, .text ⟨['c', '
'], by decide⟩,
        .stop 3]).map Line.chars) = .ok body ∧
      yields 3 (fun n => n == 1 || n == 3) ((nestedBody [.start .ins 3, .text ⟨['c', '
'], by decide⟩,
        .stop 3]).map Line.chars) = .ok [['a', '
'], ['c', '
']] ∧
      yields 3 (fun n => n == 1 || n == 3) body = .ok [['a', '
']] := by
  refine ⟨⟨[], by decide⟩, fun _ _ _ => Nat.succ_ne_self 1 |>.symm, (strip 2 true (nestedBody [.start .ins 3,
    .text ⟨['c', '
'], by decide⟩, .stop 3])).map Line.chars, ?_, ?_, ?_⟩
  · decide
  · decide
  · decide

end Svr3.Sccs
