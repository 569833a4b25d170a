import Svr3.Sccs.Mkixg

/-!
# What a new delta records

The new entry is read and `setup` starts from the new delta, without a list of the user. Each old delta has the
status that it had while the new delta was made, if each choice is found in the lists or would be made without
them, and no delta in line is cut off.
-/

namespace Svr3.Sccs

open Function List

/-- The codes of a packet -/
def codes (p : Deltas) (n : ℕ) : Option Code := (p.apply n).code

/-- The serial number of the new delta -/
def newser (d : NewDelta) (p : Deltas) : ℕ := p.maxser + ser_inc d

/-- The deltas of a list that are set when the new entry is read -/
def kept (reason : BitVec 32) (p : Deltas) : List ℕ :=
  (listed reason p).take ((listed reason p).length % 256)

open Classical in
/-- The code that a delta has in line, or out of it -/
noncomputable def lined (t : Deltas) (n : ℕ) : Code := if InLine t n then .apply else .noapply

/-- `p` is the packet behind `doie`, `q` the one behind `setup`. -/
structure Recordable (d : NewDelta) (p q : Deltas) : Prop where
  line : ∀ g ∈ given d, (mkixg g.1 g.2 q).length < BUFSIZ
  count : ∀ g ∈ given d, (listed g.1 q).length % 256 < 128
  choice : ∀ n c, 0 < n → n ≤ p.maxser → codes p n = some c → n ∉ kept c.user q →
    (named q (codes q) n).getD (lined (p.mark (sidtoser d.osp p)) n) = c
  date : ∀ n, 0 < n → n ≤ p.maxser → InLine (p.mark (sidtoser d.osp p)) n →
    p.cutoff.slt (p.idel n).datetime = true → named q (codes q) n ≠ none

/-! ## The table with the new entry -/

section table

variable {d : NewDelta} {p q r s : Deltas} {es : List Entry} {now : BitVec 32} {n i : ℕ}

theorem ser_inc_pos (d : NewDelta) : 0 < ser_inc d := by
  unfold ser_inc
  split
  next h =>
    rw [nulldel] at h
    simp only [Bool.and_eq_true, decide_eq_true_eq] at h
    omega
  next => exact Nat.one_pos

/-- The table that is read with the new entry -/
structure NewTable (d : NewDelta) (q r : Deltas) : Prop where
  maxser : r.maxser = newser d q
  cutoff : r.cutoff = BitVec.intMax 32
  apply : ∀ m, r.apply m = ⟨false, none, 0⟩
  old : ∀ n ≤ q.maxser, r.idel n = q.idel n
  pred : ∀ i < ser_inc d, (r.idel (q.maxser + (i + 1))).pred = if i = 0 then sidtoser d.osp q else q.maxser + i
  null : ∀ i < ser_inc d - 1, (r.idel (q.maxser + (i + 1))).ixg = []
  ixg : (r.idel (newser d q)).ixg = (given d).map (givenIxg q)

theorem readNull (hle : q.maxser + (i + 1) ≤ s.maxser) : ∃ m,
    readEntry ⟨newDeltab d q i, [autoNull, edeltab]⟩ s = .ok { s with
      idel := update s.idel (q.maxser + (i + 1)) ⟨(newDeltab d q i).sid,
        (s.idel (q.maxser + (i + 1))).ixg, (newDeltab d q i).pred, d.Timenow⟩
      slnno := m } := by
  refine ⟨s.slnno + 4, ?_⟩
  have hD : (newDeltab d q i).type = 'D' := rfl
  have hle' : (newDeltab d q i).serial ≤ s.maxser := hle
  rw [readEntry, if_pos hD, if_pos hle']
  rfl

variable (d es) in
/-- The null deltas are read. -/
theorem readNulls (hle : q.maxser + i ≤ s.maxser) : ∃ s', readEntries (nullEntries d q i ++ es) s = readEntries es s' ∧
    s'.maxser = s.maxser ∧ s'.apply = s.apply ∧ s'.cutoff = s.cutoff ∧
    (∀ n, n ≤ q.maxser ∨ q.maxser + i < n → s'.idel n = s.idel n) ∧
    ∀ j < i, (s'.idel (q.maxser + (j + 1))).pred = (newDeltab d q j).pred ∧
      (s'.idel (q.maxser + (j + 1))).ixg = (s.idel (q.maxser + (j + 1))).ixg := by
  induction i generalizing s with
  | zero => exact ⟨s, rfl, rfl, rfl, rfl, fun n _ => rfl, fun j hj => absurd hj (Nat.not_lt_zero j)⟩
  | succ i ih =>
    obtain ⟨m, hm⟩ := readNull (d := d) (q := q) hle
    obtain ⟨s', hs', hmax, happ, hcut, hother, hnew⟩ := ih (s := { s with
      idel := update s.idel (q.maxser + (i + 1)) ⟨(newDeltab d q i).sid,
        (s.idel (q.maxser + (i + 1))).ixg, (newDeltab d q i).pred, d.Timenow⟩
      slnno := m }) (Nat.le_trans (Nat.add_le_add_left (Nat.le_succ i) _) hle)
    refine ⟨s', ?_, hmax, happ, hcut, fun n hn => ?_, fun j hj => ?_⟩
    · rw [nullEntries, cons_append, readEntries, hm]
      exact hs'
    · rw [hother n (by omega)]
      dsimp only
      rw [update_of_ne (by omega)]
    · rcases Nat.lt_succ_iff_lt_or_eq.mp hj with hlt | rfl
      · obtain ⟨hpred, hixg⟩ := hnew j hlt
        dsimp only at hixg
        rw [update_of_ne (by omega)] at hixg
        exact ⟨hpred, hixg⟩
      · rw [hother (q.maxser + (j + 1)) (by omega)]
        dsimp only
        rw [update_self]
        exact ⟨rfl, rfl⟩

theorem newser_eq : q.maxser + (ser_inc d - 1 + 1) = newser d q := by
  have hpos := ser_inc_pos d
  rw [newser]
  omega

theorem readEntry_new (hs : s.maxser = newser d q) (hnil : (s.idel (newser d q)).ixg = []) :
    readEntry (newEntry d q) s = (readLines true (newEntry d q).lines [] (s.slnno + 1)).map fun r => { s with
      idel := update s.idel (newser d q) ⟨(newDeltab d q (ser_inc d - 1)).sid, r.1,
        (newDeltab d q (ser_inc d - 1)).pred, d.Timenow⟩
      slnno := r.2 + 1 } := by
  have hD : (newEntry d q).dt.type = 'D' := rfl
  have hserial : (newEntry d q).dt.serial = newser d q := newser_eq
  have hle : (newEntry d q).dt.serial ≤ s.maxser := by rw [hserial, hs]
  rw [readEntry, if_pos hD, if_pos hle, hserial, hnil]
  cases readLines true (newEntry d q).lines [] (s.slnno + 1) <;> rfl

/-- The new entry is read if each list fits into a line. -/
theorem readLines_new (hmax : newser d q < 2 ^ 31) (k : ℕ) :
    (∃ m, readLines true (newEntry d q).lines [] k = .ok ((given d).map (givenIxg q), m)) ∧
      (∀ g ∈ given d, (mkixg g.1 g.2 q).length < BUFSIZ) ∨
    (∃ e, readLines true (newEntry d q).lines [] k = .error e) ∧
      ∃ g ∈ given d, BUFSIZ ≤ (mkixg g.1 g.2 q).length := by
  have hq : q.maxser < 2 ^ 31 := by
    rw [newser] at hmax
    omega
  rcases readLines_given (d.notes.map Subtype.val ++ [edeltab]) [] k hq
    (fun g hg => given_type hg) with ⟨⟨m, hm⟩, hall⟩ | h
  · obtain ⟨m', hm'⟩ := readLines_notes ((given d).map (givenIxg q)) m d.notes
    refine .inl ⟨⟨m', ?_⟩, hall⟩
    rw [newEntry]
    dsimp only
    rw [hm, nil_append, hm']
  · exact .inr h

theorem dodelt_old {cutoff : BitVec 32} (h : dodelt cutoff now es = .ok p) : ∃ a, readEntries es a = .ok p ∧
    a.maxser = p.maxser ∧ (∀ n, a.idel n = ⟨⟨0, 0, 0, 0⟩, [], 0, 0⟩) ∧ p.cutoff = cutoff ∧
      ∀ m, p.apply m = ⟨false, none, 0⟩ := by
  cases es with
  | nil => exact absurd h nofun
  | cons e es =>
    rw [dodelt] at h
    split at h
    next => exact absurd h nofun
    next =>
      obtain ⟨-, -, hmax, happ, hcut, -⟩ := readEntries_larger ⟨Nat.le_refl _, fun _ _ => rfl⟩ h
      exact ⟨_, h, hmax.symm, fun _ => rfl, hcut, fun m => by rw [happ]; rfl⟩

/-- What is read behind the new entry is the old table. -/
theorem dodelt_new {cutoff : BitVec 32} (hes : dodelt cutoff d.Timenow es = .ok p) (hq : SameTable p q)
    (hnow : ¬now.slt d.Timenow = true) (hmax : newser d q < 2 ^ 31) :
    (∃ r, dodelt (BitVec.intMax 32) now (mkdelt d q ++ es) = .ok r ∧ NewTable d q r) ∧
      (∀ g ∈ given d, (mkixg g.1 g.2 q).length < BUFSIZ) ∨
    (∃ e, dodelt (BitVec.intMax 32) now (mkdelt d q ++ es) = .error e) ∧
      ∃ g ∈ given d, BUFSIZ ≤ (mkixg g.1 g.2 q).length := by
  have hdodelt : dodelt (BitVec.intMax 32) now (mkdelt d q ++ es) =
      readEntries (newEntry d q :: (nullEntries d q (ser_inc d - 1) ++ es))
        (allocated (newser d q) (BitVec.intMax 32)) := by
    rw [mkdelt_eq, cons_append, dodelt]
    change (if now.slt d.Timenow = true then _ else readEntries _ (allocated (q.maxser + (ser_inc d - 1 + 1)) _)) = _
    rw [if_neg hnow, newser_eq]
  rw [hdodelt, readEntries, readEntry_new rfl rfl]
  rcases readLines_new hmax ((allocated (newser d q) (BitVec.intMax 32)).slnno + 1) with ⟨⟨m, hm⟩, hall⟩ | ⟨⟨e, he⟩, hlong⟩
  · refine .inl ⟨?_, hall⟩
    rw [hm]
    generalize hs : ({ allocated (newser d q) (BitVec.intMax 32) with
      idel := update (allocated (newser d q) (BitVec.intMax 32)).idel (newser d q)
        ⟨(newDeltab d q (ser_inc d - 1)).sid, (given d).map (givenIxg q), (newDeltab d q (ser_inc d - 1)).pred,
          d.Timenow⟩
      slnno := m + 1 } : Deltas) = s
    have hsmax : s.maxser = newser d q := by rw [← hs]; rfl
    have hnulls : q.maxser + (ser_inc d - 1) ≤ s.maxser := by
      rw [hsmax, newser]
      omega
    obtain ⟨s', hs', hmax', happ', hcut', hother, hnull⟩ := readNulls d es hnulls
    obtain ⟨a, hes', hamax, haidel, -⟩ := dodelt_old hes
    have hpos := ser_inc_pos d
    have hsidel (n : ℕ) (hn : n ≠ newser d q) : s.idel n = ⟨⟨0, 0, 0, 0⟩, [], 0, 0⟩ := by
      rw [← hs]
      exact update_of_ne hn _ _
    have hsnew : s.idel (newser d q) = ⟨(newDeltab d q (ser_inc d - 1)).sid, (given d).map (givenIxg q),
        (newDeltab d q (ser_inc d - 1)).pred, d.Timenow⟩ := by
      rw [← hs]
      exact update_self _ _ _
    have hlarger : Larger a s' := by
      refine ⟨?_, fun n hn => ?_⟩
      · rw [hamax, hmax', hsmax, ← hq.maxser, newser]
        omega
      · rw [hamax, ← hq.maxser] at hn
        rw [hother n (.inl hn), hsidel n (by rw [newser]; omega), haidel]
    obtain ⟨r, hr, -, -, -, hrmax, hrapp, hrcut, hpr, hrnew⟩ := readEntries_larger hlarger hes'
    rw [hamax, ← hq.maxser] at hrnew
    refine ⟨r, ?_, ?_, ?_, fun m => ?_, fun n hn => ?_, fun i hi => ?_, fun i hi => ?_, ?_⟩
    · subst hs
      exact hs'.trans hr
    · rw [hrmax, hmax', hsmax]
    · rw [hrcut, hcut', ← hs]
      rfl
    · rw [hrapp, happ', ← hs]
      rfl
    · rw [hpr.idel n (by rw [← hq.maxser]; exact hn), hq.idel]
    · rw [hrnew _ (by omega)]
      rcases Nat.lt_or_ge i (ser_inc d - 1) with hlt | hge
      · exact (hnull i hlt).1
      · obtain rfl : i = ser_inc d - 1 := by omega
        rw [hother _ (.inr (by omega)), newser_eq, hsnew]
        rfl
    · rw [hrnew _ (by omega), (hnull i hi).2, hsidel _ (by rw [newser]; omega)]
    · rw [hrnew _ (by rw [newser]; omega), hother _ (.inr (by rw [newser]; omega)), hsnew]
  · refine .inr ⟨⟨e, ?_⟩, hlong⟩
    rw [he]
    rfl

end table

/-! ## The rules on the new table -/

section rules

variable {d : NewDelta} {p q r : Deltas} {v : ℕ → Option Code} {n : ℕ}

theorem sidtoser_le (sp : Sid) (p : Deltas) : sidtoser sp p ≤ p.maxser := by
  have hgo (n : ℕ) : sidFrom sp p n ≤ n := by
    induction n with
    | zero => exact Nat.le_refl 0
    | succ n ih =>
      rw [sidFrom]
      split
      · exact Nat.le_refl _
      · exact Nat.le_succ_of_le ih
  exact hgo p.maxser

theorem sidtoser_same (h : SameTable p q) (sp : Sid) : sidtoser sp q = sidtoser sp p := by
  have hgo (n : ℕ) : sidFrom sp q n = sidFrom sp p n := by
    induction n with
    | zero => rfl
    | succ n ih => rw [sidFrom, sidFrom, h.idel, ih]
  rw [sidtoser, sidtoser, h.maxser, hgo]

theorem named_same (h : SameTable p q) : named q v n = named p v n := by
  have hnames : names q v = names p v := by
    funext k
    rw [names, names, h.idel]
  rw [named, named, h.maxser, hnames]

/-- The new delta and the null deltas are in line. -/
theorem NewTable.inLine_gt (h : NewTable d q r) {i : ℕ} (hi : i < ser_inc d) :
    InLine (r.mark (newser d q)) (q.maxser + (i + 1)) := by
  have hgo (j : ℕ) (hj : j < ser_inc d) : InLine (r.mark (newser d q)) (q.maxser + (ser_inc d - 1 - j + 1)) := by
    induction j with
    | zero =>
      apply InLine.base
      rw [Nat.sub_zero, newser_eq, mark_inline]
      exact .inr rfl
    | succ j ih =>
      have hprev := ih (by omega)
      have hpred := h.pred (ser_inc d - 1 - j) (by omega)
      rw [if_neg (by omega)] at hpred
      have hidel : ((r.mark (newser d q)).idel (q.maxser + (ser_inc d - 1 - j + 1))).pred =
          q.maxser + (ser_inc d - 1 - (j + 1) + 1) := by
        change (r.idel _).pred = _
        rw [hpred]
        omega
      rw [← hidel]
      apply InLine.pred hprev
      · change _ ≤ r.maxser
        rw [h.maxser, newser]
        omega
      · rw [hidel]
        omega
  have hthis := hgo (ser_inc d - 1 - i) (by omega)
  rw [show ser_inc d - 1 - (ser_inc d - 1 - i) = i by omega] at hthis
  exact hthis

/-- The old deltas in line are those of the predecessor. -/
theorem NewTable.inLine (h : NewTable d q r) (hq : SameTable p q) (hinl : ∀ m, (p.apply m).inline = false)
    (hn : n ≤ q.maxser) :
    InLine (r.mark (newser d q)) n ↔ InLine (p.mark (sidtoser d.osp p)) n := by
  have hpos := ser_inc_pos d
  have hser : sidtoser d.osp q = sidtoser d.osp p := sidtoser_same hq _
  constructor
  · intro hline
    induction hline with
    | base hbase =>
      rename_i m
      rcases mark_inline.mp hbase with hb | rfl
      · rw [h.apply] at hb
        exact absurd hb nofun
      · rw [newser] at hn
        exact absurd hn (by omega)
    | pred hline hle hlt ih =>
      rename_i m
      change m ≤ r.maxser at hle
      change (r.idel m).pred < m at hlt
      change (r.idel m).pred ≤ q.maxser at hn
      change InLine _ (r.idel m).pred
      rcases Nat.lt_or_ge q.maxser m with hgt | hm
      · -- the lowest of the new deltas
        have hi : m = q.maxser + (m - q.maxser - 1 + 1) := by omega
        rw [h.maxser, newser] at hle
        have hpred := h.pred (m - q.maxser - 1) (by omega)
        rw [← hi] at hpred
        split at hpred
        next =>
          rw [hpred, hser]
          exact .base (mark_inline.mpr (.inr rfl))
        next => exact absurd hn (by omega)
      · have hidel : r.idel m = (p.mark (sidtoser d.osp p)).idel m := (h.old m hm).trans (congrFun hq.idel m)
        rw [hidel] at hlt ⊢
        exact .pred (ih hm) (by change m ≤ p.maxser; rw [← hq.maxser]; exact hm) hlt
  · intro hline
    have hle : sidtoser d.osp p ≤ q.maxser := by
      rw [← hser]
      exact sidtoser_le _ _
    clear hn
    induction hline with
    | base hbase =>
      rename_i m
      rcases mark_inline.mp hbase with hb | rfl
      · rw [hinl] at hb
        exact absurd hb nofun
      · have hpred := h.pred 0 hpos
        rw [if_pos rfl, hser] at hpred
        rw [← hpred]
        apply InLine.pred (h.inLine_gt hpos)
        · change _ ≤ r.maxser
          rw [h.maxser, newser]
          omega
        · change (r.idel _).pred < _
          rw [hpred]
          omega
    | pred hline hm hlt ih =>
      rename_i m
      change m ≤ p.maxser at hm
      rw [← hq.maxser] at hm
      have hidel : r.idel m = (p.mark (sidtoser d.osp p)).idel m := (h.old m hm).trans (congrFun hq.idel m)
      rw [← hidel] at hlt ⊢
      apply InLine.pred ih _ hlt
      change m ≤ r.maxser
      rw [h.maxser, newser]
      omega

/-- The code that the lists of the new entry give -/
def recorded (d : NewDelta) (q : Deltas) (n : ℕ) : Option Code :=
  (((given d).map (givenIxg q)).flatMap Ixg.names).lookup n

theorem names_keys {k : ℕ} (h : NewTable d q r) (hk : q.maxser < k) (hle : k ≤ newser d q) :
    names (r.mark (newser d q)) v k = if k = newser d q ∧ v k = some .apply then
      ((given d).map (givenIxg q)).flatMap Ixg.names else [] := by
  rw [names]
  change (if v k = some .apply then (r.idel k).ixg.flatMap Ixg.names else []) = _
  by_cases hnew : k = newser d q
  · rw [hnew, h.ixg]
    by_cases hv : v (newser d q) = some .apply
    · rw [if_pos hv, if_pos ⟨rfl, hv⟩]
    · rw [if_neg hv, if_neg fun hc => hv hc.2]
  · have hpos := ser_inc_pos d
    have hlt : k < q.maxser + ser_inc d := Nat.lt_of_le_of_ne hle hnew
    have hnull := h.null (k - q.maxser - 1) (by omega)
    rw [show q.maxser + (k - q.maxser - 1 + 1) = k by omega] at hnull
    rw [hnull, flatMap_nil, ite_self, if_neg]
    exact fun hc => hnew hc.1

theorem above_append {N M : ℕ} (hn : n ≤ M) (hM : M ≤ N) : above N n = above N M ++ above M n := by
  rw [above, above, above, ← reverse_append]
  congr 1
  have hlen : N - n = (M - n) + (N - M) := by omega
  rw [hlen, ← List.range'_append_1]
  congr 2
  omega

theorem givenIxg_take (q : Deltas) (g : BitVec 32 × Char) :
    (givenIxg q g).ser.take (givenIxg q g).cnt.toNat = kept g.1 q := by
  have hcnt : (givenIxg q g).cnt.toNat = (listed g.1 q).length % 256 := BitVec.toNat_ofNat _ _
  rw [hcnt]
  rfl

/-- The lists of the new entry name old deltas only. -/
theorem recorded_mem {x : ℕ × Code} (h : x ∈ ((given d).map (givenIxg q)).flatMap Ixg.names) :
    x.1 ∈ kept x.2.user q := by
  obtain ⟨_, hmem, hx⟩ := mem_flatMap.mp h
  obtain ⟨g, hg, rfl⟩ := mem_map.mp hmem
  have hone {b : Bool} {y : BitVec 32 × Char} (h : g ∈ (if b then [y] else [])) : g = y := by
    cases b with
    | true => exact mem_singleton.mp h
    | false => exact absurd h not_mem_nil
  rw [Ixg.names, givenIxg_take] at hx
  rcases mem_append.mp hg with hg | hg
  · obtain rfl := hone hg
    obtain ⟨n, hn, rfl⟩ := mem_map.mp hx
    exact hn
  · rcases mem_append.mp hg with hg | hg
    · obtain rfl := hone hg
      obtain ⟨n, hn, rfl⟩ := mem_map.mp hx
      exact hn
    · obtain rfl := hone hg
      exact absurd hx not_mem_nil

theorem kept_listed {reason : BitVec 32} (h : n ∈ kept reason q) : n ≤ q.maxser ∧ (q.apply n).reason = reason := by
  obtain ⟨⟨-, hle⟩, hreason⟩ := mem_listed.mp (mem_of_mem_take h)
  exact ⟨hle, hreason⟩

theorem recorded_kept {c : Code} (h : recorded d q n = some c) : n ∈ kept c.user q := by
  rw [recorded, lookup_eq_some_iff] at h
  obtain ⟨l1, l2, heq, -⟩ := h
  apply recorded_mem (x := (n, c)) (d := d)
  rw [heq]
  exact mem_append_right _ mem_cons_self

/-- What the user chose, as it is known from the reasons -/
theorem recorded_iff {ign : Bool} {p0 : Deltas} (hp : Entered p0 d.ilist.isSome d.elist.isSome ign p)
    (hchosen : AllChosen (codes p) q) {c : Code} :
    recorded d q n = some c ↔ codes p n = some c ∧ n ∈ kept c.user q := by
  constructor
  · intro h
    have hkept := recorded_kept h
    exact ⟨(hchosen n).of_user (kept_listed hkept).2, hkept⟩
  · rintro ⟨hcode, hkept⟩
    -- the list of the choice was given
    have hmem : (n, c) ∈ ((given d).map (givenIxg q)).flatMap Ixg.names := by
      cases c with
      | apply =>
        have hgiven : (INCLUSER, INCLUDE) ∈ given d := by
          rw [given, if_pos (hp.inc n hcode)]
          exact mem_append_left _ (mem_singleton_self _)
        apply mem_flatMap.mpr ⟨_, mem_map_of_mem hgiven, _⟩
        refine mem_map.mpr ⟨n, ?_, rfl⟩
        rw [givenIxg_take]
        exact hkept
      | noapply =>
        have hgiven : (EXCLUSER, EXCLUDE) ∈ given d := by
          rw [given, if_pos (hp.exc n hcode)]
          exact mem_append_right _ (mem_append_left _ (mem_singleton_self _))
        apply mem_flatMap.mpr ⟨_, mem_map_of_mem hgiven, _⟩
        refine mem_map.mpr ⟨n, ?_, rfl⟩
        rw [givenIxg_take]
        exact hkept
    cases hrec : recorded d q n with
    | none =>
      rw [recorded, lookup_eq_none_iff] at hrec
      have hne := hrec _ hmem
      exact absurd hne (by simp)
    | some c' =>
      have hc' := (hchosen n).of_user (kept_listed (recorded_kept hrec)).2
      exact congrArg some (Option.some.inj (hc'.symm.trans hcode))

/-- A new delta is named by no list. -/
theorem NewTable.named_gt (h : NewTable d q r) (hn : q.maxser < n) : named (r.mark (newser d q)) v n = none := by
  rw [named, lookup_eq_none_iff]
  intro x hx
  obtain ⟨k, hk, hx⟩ := mem_flatMap.mp hx
  obtain ⟨hlt, hle⟩ := mem_above.mp hk
  change k ≤ r.maxser at hle
  rw [h.maxser] at hle
  rw [names_keys h (by omega) hle] at hx
  split at hx
  · have hmax := (kept_listed (recorded_mem hx)).1
    rw [bne_iff_ne]
    omega
  · exact absurd hx not_mem_nil

/-- An old delta is named by the new entry first. -/
theorem NewTable.named_old (h : NewTable d q r) (hn : n ≤ q.maxser) (hnew : v (newser d q) = some .apply)
    (hold : ∀ k, n < k → k ≤ q.maxser → v k = codes q k) :
    named (r.mark (newser d q)) v n = (recorded d q n).or (named q (codes q) n) := by
  have hpos := ser_inc_pos d
  have hmax : (r.mark (newser d q)).maxser = newser d q := h.maxser
  have hfirst : (above (newser d q) q.maxser).flatMap (names (r.mark (newser d q)) v) =
      ((given d).map (givenIxg q)).flatMap Ixg.names := by
    have habove : above (newser d q) q.maxser = newser d q :: above (newser d q - 1) q.maxser := by
      have hlen : newser d q - q.maxser = newser d q - 1 - q.maxser + 1 := by rw [newser]; omega
      rw [above, above, hlen, List.range'_1_concat, reverse_append]
      rw [show q.maxser + 1 + (newser d q - 1 - q.maxser) = newser d q by rw [newser]; omega]
      rfl
    have hrest : (above (newser d q - 1) q.maxser).flatMap (names (r.mark (newser d q)) v) = [] := by
      apply flatMap_eq_nil_iff.mpr
      intro k hk
      obtain ⟨hlt, hle⟩ := mem_above.mp hk
      rw [names_keys h hlt (by omega), if_neg fun hc => by omega]
    rw [habove, flatMap_cons, hrest, append_nil, names_keys h (by rw [newser]; omega) (Nat.le_refl _),
      if_pos ⟨rfl, hnew⟩]
  have hrest : (above q.maxser n).flatMap (names (r.mark (newser d q)) v) =
      (above q.maxser n).flatMap (names q (codes q)) := by
    apply flatMap_congr
    intro k hk
    obtain ⟨hlt, hle⟩ := mem_above.mp hk
    rw [names, names, hold k hlt hle]
    change (if _ then (r.idel k).ixg.flatMap _ else _) = _
    rw [h.old k hle]
  rw [named, hmax, above_append hn (by rw [newser]; omega), flatMap_append, hfirst, hrest, lookup_append]
  rfl

end rules

/-! ## The status of the old deltas -/

section status

variable {d : NewDelta} {p0 p q r : Deltas} {v : ℕ → Option Code} {n : ℕ}

/-- The codes of a packet behind `setup` are those of the rules. -/
theorem solves_codes {ser : ℕ} (hset : setup ser p = .ok q) : SameTable p q ∧ ser ≤ p.maxser ∧
    Solves (p.mark ser) (codes q) ∧ ∀ n, 0 < n → n ≤ p.maxser → Good (p.mark ser) (codes q) n := by
  obtain ⟨v, hv⟩ := exists_solves (p.mark ser)
  obtain ⟨hser, hgood, hsame, hcodes⟩ := setup_good hv hset
  refine ⟨hsame, hser, fun n hpos hle => ?_, fun n hpos hle => ?_⟩
  · have hnamed : named (p.mark ser) v n = named (p.mark ser) (codes q) n := by
      apply named_congr
      exact fun k hlt hk => (hcodes k (by omega) hk).symm
    rw [← hnamed, ← hv n hpos hle]
    exact hcodes n hpos hle
  · obtain ⟨hpred, hixg⟩ := hgood n hpos hle
    refine ⟨hpred, ?_⟩
    rw [codes, hcodes n hpos hle]
    exact hixg

theorem mark_same (p : Deltas) (n : ℕ) : SameTable p (p.mark n) := ⟨rfl, rfl, rfl⟩

/-- The rule for an old delta, while the new one is made -/
theorem codes_old {ser : ℕ} (hset : setup ser p = .ok q) (hpos : 0 < n) (hle : n ≤ p.maxser) :
    codes q n = ((codes p n).or (named q (codes q) n)).or (some (standing (p.mark ser) n)) := by
  obtain ⟨hsame, -, hsolves, -⟩ := solves_codes hset
  have h := hsolves n hpos hle
  rw [mark_code, named_same (mark_same p ser), ← named_same hsame] at h
  exact h

theorem not_intMax_slt (x : BitVec 32) : ¬(BitVec.intMax 32).slt x = true := by
  intro h
  have hlt : (BitVec.intMax 32).toInt < x.toInt := of_decide_eq_true h
  have hmax : (BitVec.intMax 32).toInt = 2147483647 := by decide
  have hx : x.toInt < 2 ^ (32 - 1) := BitVec.toInt_lt
  omega

/-- Nothing is cut off when the new table is read. -/
theorem NewTable.standing_old (h : NewTable d q r) (hq : SameTable p q) (hinl : ∀ m, (p.apply m).inline = false)
    (hn : n ≤ q.maxser) : standing (r.mark (newser d q)) n = lined (p.mark (sidtoser d.osp p)) n := by
  have hcut : ¬(r.mark (newser d q)).cutoff.slt ((r.mark (newser d q)).idel n).datetime = true := by
    change ¬r.cutoff.slt _ = true
    rw [h.cutoff]
    exact not_intMax_slt _
  have hline := h.inLine hq hinl hn
  rw [standing, lined]
  by_cases hin : InLine (p.mark (sidtoser d.osp p)) n
  · rw [if_pos hin, if_pos ⟨hline.mpr hin, hcut⟩]
  · rw [if_neg hin, if_neg fun hc => hin (hline.mp hc.1)]

theorem NewTable.standing_gt (h : NewTable d q r) (hn : q.maxser < n) (hle : n ≤ newser d q) :
    standing (r.mark (newser d q)) n = .apply := by
  rw [newser] at hle
  have hline := h.inLine_gt (i := n - q.maxser - 1) (by omega)
  rw [show q.maxser + (n - q.maxser - 1 + 1) = n by omega] at hline
  refine if_pos ⟨hline, ?_⟩
  change ¬r.cutoff.slt _ = true
  rw [h.cutoff]
  exact not_intMax_slt _

/-- The rules of the new table, by the deltas -/
theorem NewTable.solves_iff (h : NewTable d q r) (hq : SameTable p q) (hinl : ∀ m, (p.apply m).inline = false)
    (hv : ∀ n, 0 < n → n ≤ q.maxser → v n = codes q n) :
    Solves (r.mark (newser d q)) v ↔ (∀ n, q.maxser < n → n ≤ newser d q → v n = some .apply) ∧
      (v (newser d q) = some .apply → ∀ n, 0 < n → n ≤ q.maxser → codes q n =
        ((recorded d q n).or (named q (codes q) n)).or (some (lined (p.mark (sidtoser d.osp p)) n))) := by
  have hpos := ser_inc_pos d
  have hmax : (r.mark (newser d q)).maxser = newser d q := h.maxser
  have hfresh (n : ℕ) : ((r.mark (newser d q)).apply n).code = none := by
    rw [mark_code, h.apply]
  have hold {n : ℕ} (hn0 : 0 < n) (hn : n ≤ q.maxser) (hnew : v (newser d q) = some .apply) :
      named (r.mark (newser d q)) v n = (recorded d q n).or (named q (codes q) n) := by
    apply h.named_old hn hnew
    exact fun k hlt hk => hv k (by omega) hk
  constructor
  · intro hsolves
    refine ⟨fun n hlt hle => ?_, fun hnew n hn0 hn => ?_⟩
    · have hthis := hsolves n (by omega) (by rw [hmax]; exact hle)
      rw [hfresh, h.named_gt hlt, h.standing_gt hlt hle] at hthis
      exact hthis
    · have hthis := hsolves n hn0 (by rw [hmax, newser]; omega)
      rw [hfresh, hold hn0 hn hnew, h.standing_old hq hinl hn, hv n hn0 hn] at hthis
      exact hthis
  · rintro ⟨hgt, heq⟩ n hn0 hle
    rw [hmax] at hle
    have hnew : v (newser d q) = some .apply := hgt _ (by rw [newser]; omega) (Nat.le_refl _)
    rcases Nat.lt_or_ge q.maxser n with hlt | hn
    · rw [hfresh, h.named_gt hlt, h.standing_gt hlt hle]
      exact hgt n hlt hle
    · rw [hfresh, hold hn0 hn hnew, h.standing_old hq hinl hn, hv n hn0 hn]
      exact heq hnew n hn0 hn

theorem count_iff (k : ℕ) : 0 ≤ (BitVec.ofNat 8 k).toInt ↔ k % 256 < 128 := by
  rw [BitVec.toInt_eq_toNat_cond, BitVec.toNat_ofNat]
  change 0 ≤ (if 2 * (k % 256) < 256 then (((k % 256 : ℕ) : ℤ)) else ((k % 256 : ℕ) : ℤ) - 256) ↔ _
  split <;> omega

/-- `setup` gets over the deltas of the new table. -/
theorem NewTable.good_iff (h : NewTable d q r) (hset : setup (sidtoser d.osp p) p = .ok q)
    (hinl : ∀ m, (p.apply m).inline = false) (hser : sidtoser d.osp p ≠ 0)
    (hv : ∀ n, 0 < n → n ≤ q.maxser → v n = codes q n)
    (hgt : ∀ n, q.maxser < n → n ≤ newser d q → v n = some .apply) :
    (∀ n, 0 < n → n ≤ r.maxser → Good (r.mark (newser d q)) v n) ↔
      ∀ g ∈ given d, (listed g.1 q).length % 256 < 128 := by
  obtain ⟨hq, hle, -, hgood⟩ := solves_codes hset
  have hpos := ser_inc_pos d
  have hsame : sidtoser d.osp q = sidtoser d.osp p := sidtoser_same hq _
  constructor
  · intro hall g hg
    have hthis := (hall (newser d q) (by rw [newser]; omega) (by rw [h.maxser])).ixg
      (hgt _ (by rw [newser]; omega) (Nat.le_refl _))
    change ∀ x ∈ (r.idel (newser d q)).ixg, _ at hthis
    rw [h.ixg] at hthis
    exact (count_iff _).mp (hthis _ (mem_map_of_mem hg)).1
  · intro hcount n hn0 hn
    rw [h.maxser] at hn
    rcases Nat.lt_or_ge q.maxser n with hlt | hge
    · -- a new delta
      rw [newser] at hn
      have hpred := h.pred (n - q.maxser - 1) (by omega)
      rw [show q.maxser + (n - q.maxser - 1 + 1) = n by omega] at hpred
      refine ⟨fun _ => ?_, fun _ x hx => ?_⟩
      · change (n = 1 ∨ (r.idel n).pred ≠ 0) ∧ (r.idel n).pred ≤ r.maxser
        rw [hpred, h.maxser, newser]
        split
        · rw [hsame, hq.maxser]
          exact ⟨.inr hser, by omega⟩
        · exact ⟨.inr (by omega), by omega⟩
      · change x ∈ (r.idel n).ixg at hx
        change _ ∧ ∀ m ∈ _, m ≤ r.maxser
        by_cases hnew : n = newser d q
        · rw [hnew, h.ixg] at hx
          obtain ⟨g, hg, rfl⟩ := mem_map.mp hx
          refine ⟨(count_iff _).mpr (hcount g hg), fun m hm => ?_⟩
          rw [givenIxg_take] at hm
          rw [h.maxser, newser]
          exact Nat.le_add_right_of_le (kept_listed hm).1
        · rw [newser] at hnew
          have hnull := h.null (n - q.maxser - 1) (by omega)
          rw [show q.maxser + (n - q.maxser - 1 + 1) = n by omega] at hnull
          rw [hnull] at hx
          exact absurd hx not_mem_nil
    · -- an old delta has the same lists and the same predecessor
      rw [hq.maxser] at hge
      obtain ⟨hpred, hixg⟩ := hgood n hn0 hge
      have hidel : r.idel n = p.idel n := (h.old n (by rw [hq.maxser]; exact hge)).trans (congrFun hq.idel n)
      have hmore : p.maxser ≤ r.maxser := by
        rw [h.maxser, newser, hq.maxser]
        omega
      refine ⟨fun hline => ?_, fun hc x hx => ?_⟩
      · obtain ⟨hfirst, hmax⟩ := hpred ((h.inLine hq hinl (by rw [hq.maxser]; exact hge)).mp hline)
        change (n = 1 ∨ (r.idel n).pred ≠ 0) ∧ (r.idel n).pred ≤ r.maxser
        rw [hidel]
        exact ⟨hfirst, Nat.le_trans hmax hmore⟩
      · change x ∈ (r.idel n).ixg at hx
        rw [hidel] at hx
        rw [hv n hn0 (by rw [hq.maxser]; exact hge)] at hc
        obtain ⟨hcnt, hmem⟩ := hixg hc x hx
        exact ⟨hcnt, fun m hm => Nat.le_trans (hmem m hm) hmore⟩

/-- The rules give the same status, if the choices are found or not needed, and no delta is cut off. -/
theorem same_status_iff {ign : Bool} (hp : Entered p0 d.ilist.isSome d.elist.isSome ign p)
    (hset : setup (sidtoser d.osp p) p = .ok q) (hchosen : AllChosen (codes p) q) :
    (∀ n, 0 < n → n ≤ p.maxser → codes q n =
      ((recorded d q n).or (named q (codes q) n)).or (some (lined (p.mark (sidtoser d.osp p)) n))) ↔
    (∀ n c, 0 < n → n ≤ p.maxser → codes p n = some c → n ∉ kept c.user q →
      (named q (codes q) n).getD (lined (p.mark (sidtoser d.osp p)) n) = c) ∧
    (∀ n, 0 < n → n ≤ p.maxser → InLine (p.mark (sidtoser d.osp p)) n →
      p.cutoff.slt (p.idel n).datetime = true → named q (codes q) n ≠ none) := by
  have hgetD (o : Option Code) (c : Code) : o.or (some c) = some (o.getD c) := by cases o <;> rfl
  have hnone {n : ℕ} (hn : codes p n = none) : recorded d q n = none := by
    cases hrec : recorded d q n with
    | none => rfl
    | some c =>
      have hc := ((recorded_iff hp hchosen).mp hrec).1
      rw [hn] at hc
      exact absurd hc nofun
  constructor
  · intro h
    refine ⟨fun n c hpos hle hc hkept => ?_, fun n hpos hle hline hcut hnamed => ?_⟩
    · have hrec : recorded d q n = none := by
        cases hrec : recorded d q n with
        | none => rfl
        | some c' =>
          obtain ⟨hc', hkept'⟩ := (recorded_iff hp hchosen).mp hrec
          obtain rfl := Option.some.inj (hc.symm.trans hc')
          exact absurd hkept' hkept
      have hold : codes q n = some c := by
        rw [codes_old hset hpos hle, hc]
        rfl
      have hnew := h n hpos hle
      rw [hold, hrec, Option.none_or, hgetD] at hnew
      exact (Option.some.inj hnew).symm
    · -- a delta that is cut off was not chosen
      have hc : codes p n = none := by
        by_contra hc
        have hdate := hp.date n hc
        have h1 : p.cutoff.toInt < (p.idel n).datetime.toInt := of_decide_eq_true hcut
        have h2 : (p.idel n).datetime.toInt < p.cutoff.toInt := of_decide_eq_true hdate
        omega
      have hstand : standing (p.mark (sidtoser d.osp p)) n = .noapply := if_neg fun hn => hn.2 hcut
      have hlined : lined (p.mark (sidtoser d.osp p)) n = .apply := if_pos hline
      have hnew := h n hpos hle
      rw [codes_old hset hpos hle, hc, hnone hc, hnamed, hstand, hlined] at hnew
      exact absurd hnew (by decide)
  · rintro ⟨hchoice, hdate⟩ n hpos hle
    cases hc : codes p n with
    | some c =>
      have hold := codes_old hset hpos hle
      rw [hc] at hold
      by_cases hkept : n ∈ kept c.user q
      · rw [(recorded_iff hp hchosen).mpr ⟨hc, hkept⟩]
        exact hold
      · have hrec : recorded d q n = none := by
          cases hrec : recorded d q n with
          | none => rfl
          | some c' =>
            obtain ⟨hc', hkept'⟩ := (recorded_iff hp hchosen).mp hrec
            obtain rfl := Option.some.inj (hc.symm.trans hc')
            exact absurd hkept' hkept
        rw [hrec, Option.none_or, hgetD, hchoice n c hpos hle hc hkept]
        exact hold
    | none =>
      rw [hnone hc, codes_old hset hpos hle, hc, Option.none_or]
      cases hnamed : named q (codes q) n with
      | some c => rfl
      | none =>
        rw [Option.none_or, Option.none_or, standing, lined]
        congr 1
        by_cases hline : InLine (p.mark (sidtoser d.osp p)) n
        · have hcut : ¬p.cutoff.slt (p.idel n).datetime = true := fun hcut => hdate n hpos hle hline hcut hnamed
          rw [if_pos hline, if_pos ⟨hline, hcut⟩]
        · rw [if_neg hline, if_neg fun hn => hline hn.1]

end status

/-! ## The new delta -/

/-- The new entry is read before the table, and `setup` starts from the new delta. -/
def readBack (d : NewDelta) (p q : Deltas) (now : BitVec 32) (es : List Entry) : Except Fault Deltas := do
  let r ← dodelt (BitVec.intMax 32) now (mkdelt d q ++ es)
  setup (newser d p) r

/-- Each old delta keeps its status if and only if each choice of the user is read or not needed, and no delta in
line is cut off. -/
theorem delta_keeps_status {cutoff now : BitVec 32} {d : NewDelta} {es : List Entry} {p0 p q : Deltas}
    (hread : dodelt cutoff d.Timenow es = .ok p0) (hie : doie d.ilist d.elist d.glist p0 = .ok p)
    (hset : setup (sidtoser d.osp p0) p = .ok q) (hser : sidtoser d.osp p0 ≠ 0)
    (hnow : ¬now.slt d.Timenow = true) (hmax : newser d p0 < 2 ^ 31) :
    (∃ r, readBack d p0 q now es = .ok r ∧
      ∀ n, 0 < n → n ≤ p0.maxser → (r.apply n).code = (q.apply n).code) ↔ Recordable d p q := by
  obtain ⟨-, -, -, -, -, hfresh⟩ := dodelt_old hread
  have hp := doie_entered hfresh hie
  have hser' : sidtoser d.osp p = sidtoser d.osp p0 := sidtoser_same hp.same _
  rw [← hser'] at hset hser
  obtain ⟨hpq, -, -, -⟩ := solves_codes hset
  have hq : SameTable p0 q := hp.same.trans hpq
  have hchosen : AllChosen (codes p) q := AllChosen.setup hp.chosen hset
  have hpos := ser_inc_pos d
  have hnewser : newser d q = newser d p0 := by rw [newser, newser, hq.maxser]
  have hmaxp : q.maxser = p.maxser := hpq.maxser
  have hmaxr {r : Deltas} (h : NewTable d q r) : newser d p0 ≤ r.maxser := by rw [h.maxser, hnewser]
  rw [← hnewser] at hmax
  constructor
  · rintro ⟨s, hs, hstatus⟩
    rcases dodelt_new hread hq hnow hmax with ⟨⟨r, hr, hnew⟩, hline⟩ | ⟨⟨e, he⟩, -⟩
    · rw [readBack, hr] at hs
      have hset' : setup (newser d q) r = .ok s := by
        rw [hnewser]
        exact hs
      obtain ⟨v, hv⟩ := exists_solves (r.mark (newser d q))
      obtain ⟨-, hgood, -, hcodes⟩ := setup_good hv hset'
      have hvold (n : ℕ) (hn0 : 0 < n) (hn : n ≤ q.maxser) : v n = codes q n := by
        rw [← hcodes n hn0 (by rw [hnew.maxser, newser]; omega)]
        exact hstatus n hn0 (by rw [← hq.maxser]; exact hn)
      obtain ⟨hgt, heq⟩ := (hnew.solves_iff hpq hp.inline hvold).mp hv
      have hlast := hgt (newser d q) (by rw [newser]; omega) (Nat.le_refl _)
      have hcount := (hnew.good_iff hset hp.inline hser hvold hgt).mp hgood
      obtain ⟨hchoice, hdate⟩ := (same_status_iff hp hset hchosen).mp fun n hn0 hn =>
        heq hlast n hn0 (by rw [hmaxp]; exact hn)
      exact ⟨hline, hcount, hchoice, hdate⟩
    · rw [readBack, he] at hs
      exact absurd hs nofun
  · rintro ⟨hline, hcount, hchoice, hdate⟩
    rcases dodelt_new hread hq hnow hmax with ⟨⟨r, hr, hnew⟩, -⟩ | ⟨-, g, hg, hlong⟩
    · have hvold (n : ℕ) (hn0 : 0 < n) (hn : n ≤ q.maxser) :
          (if n ≤ q.maxser then codes q n else some Code.apply) = codes q n := if_pos hn
      have hgt (n : ℕ) (hlt : q.maxser < n) (_ : n ≤ newser d q) :
          (if n ≤ q.maxser then codes q n else some Code.apply) = some .apply := if_neg (Nat.not_le.mpr hlt)
      have hsame := (same_status_iff hp hset hchosen).mpr ⟨hchoice, hdate⟩
      have hsolves := (hnew.solves_iff hpq hp.inline hvold).mpr ⟨hgt, fun _ n hn0 hn =>
        hsame n hn0 (by rw [← hmaxp]; exact hn)⟩
      have hgood := (hnew.good_iff hset hp.inline hser hvold hgt).mpr hcount
      obtain ⟨s, hs, -, hcodes⟩ := setup_ok (Nat.le_of_eq hnew.maxser.symm) hsolves hgood
      refine ⟨s, ?_, fun n hn0 hn => ?_⟩
      · rw [readBack, hr]
        change setup (newser d p0) r = _
        rw [← hnewser]
        exact hs
      · have hn' : n ≤ q.maxser := by rw [hq.maxser]; exact hn
        rw [hcodes n hn0 (by rw [hnew.maxser, newser]; omega)]
        exact hvold n hn0 hn'
    · exact absurd (hline g hg) (Nat.not_lt.mpr hlong)

/-- Delta 1, and the deltas 2 and 3 that were made from it. The lists of delta 3 are given. -/
def threeDeltas (lists : List (List Char)) : List Entry :=
  [⟨⟨⟨1, 1, 1, 1⟩, 3, 1, 30, 'D', by decide⟩, lists ++ [edeltab]⟩, ⟨⟨⟨1, 2, 0, 0⟩, 2, 1, 20, 'D', by decide⟩, [edeltab]⟩,
    ⟨⟨⟨1, 1, 0, 0⟩, 1, 0, 10, 'D', by decide⟩, [edeltab]⟩]

/-- The next delta is made from delta 3, and the user includes delta 2. -/
def includeSecond : NewDelta where
  Timenow := 50
  sp := ⟨1, 1, 1, 2⟩
  osp := ⟨1, 1, 1, 1⟩
  ilist := some "1.2".toList
  elist := none
  glist := none
  nullflag := false
  notes := []

theorem delta_keeps_status_included : ∃ p0 p q, dodelt 40 50 (threeDeltas []) = .ok p0 ∧
    doie includeSecond.ilist none none p0 = .ok p ∧ setup 3 p = .ok q ∧
    ((∃ r, readBack includeSecond p0 q 60 (threeDeltas []) = .ok r ∧
      ∀ n, 0 < n → n ≤ p0.maxser → (r.apply n).code = (q.apply n).code) ↔ Recordable includeSecond p q) :=
  ⟨_, _, _, rfl, rfl, rfl, delta_keeps_status (show dodelt 40 50 (threeDeltas []) = .ok _ from rfl) rfl rfl (by decide) (by decide)
    (by decide)⟩

/-- Delta 3 ignores delta 2. So the choice of the user is not recorded. -/
theorem ignored_choice_lost : (do
    let p0 ← dodelt 40 50 (threeDeltas [[CTLCHAR, IGNORE, ' ', '2', '\n']])
    let p ← doie includeSecond.ilist none none p0
    let q ← setup 3 p
    let r ← readBack includeSecond p0 q 60 (threeDeltas [[CTLCHAR, IGNORE, ' ', '2', '\n']])
    pure (codes q 2, codes r 2)) = .ok (some .apply, some .noapply) := by
  decide

end Svr3.Sccs
