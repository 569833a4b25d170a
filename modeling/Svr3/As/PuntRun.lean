import Svr3.As.ExpandRun
import Svr3.As.Punt

/-!
# Runs over full tables

What is punted for a new instruction was in the table before it, so every sum over the text stays right. A label
that waits for its place in the table is missed by the punts made for it.
-/

namespace Svr3.As.Punt

open List

variable {cpu : Processor}

/-! ## Punts -/

theorem scan_get :
    ∀ (sel pre : List Ssentry) (firstsdi : ℕ) (outptr : Option (ℕ × Ssentry)),
      (∀ r, outptr = some r → (pre ++ sel)[r.1]? = some r.2) →
      ∀ r, scan sel pre.length firstsdi outptr = some r → (pre ++ sel)[r.1]? = some r.2
  | [], _, _, _, h => h
  | current :: rest, pre, firstsdi, outptr, h => by
    have hsplit : pre ++ current :: rest = (pre ++ [current]) ++ rest := by simp
    have hlen : pre.length + 1 = (pre ++ [current]).length := by simp
    unfold scan
    rw [hlen, hsplit]
    split
    · refine scan_get rest (pre ++ [current]) _ _ fun r hr => ?_
      cases hr
      simp
    · exact scan_get rest (pre ++ [current]) _ _ (hsplit ▸ h)

theorem scan_isSome :
    ∀ (sel : List Ssentry) (i firstsdi : ℕ) (outptr : Option (ℕ × Ssentry)),
      (outptr.isSome ∨ ∃ e ∈ sel, e.sdicnt < firstsdi) → (scan sel i firstsdi outptr).isSome
  | [], _, _, _, h => h.resolve_right (by simp)
  | current :: rest, i, firstsdi, outptr, h => by
    unfold scan
    split
    · exact scan_isSome rest _ _ _ (.inl rfl)
    · rename_i hge
      refine scan_isSome rest _ _ _ (h.imp id ?_)
      rintro ⟨e, he, hlt⟩
      obtain rfl | he := mem_cons.mp he
      · exact absurd hlt hge
      · exact ⟨e, he, hlt⟩

/-- What is kept by every decision and when an entry is taken for long is kept by a punt -/
theorem punt_keeps {P : State → Prop} (hP : Keeps cpu P)
    (hlong : ∀ st i e, P st → st.selset[i]? = some e → P (decideAt cpu st i e .L_SDI))
    {st : State} (h : P st) (he : ∃ e ∈ st.selset, e.sdicnt < st.sdicnt) :
    ∃ st', punt cpu st = .ok st' ∧ P st' ∧ Same st st' := by
  obtain ⟨⟨i, outptr⟩, hscan⟩ := Option.isSome_iff_exists.mp
    (scan_isSome st.selset 0 st.sdicnt none (.inr he))
  have hi : st.selset[i]? = some outptr :=
    scan_get st.selset [] st.sdicnt none (fun r hr => by cases hr) _ hscan
  obtain ⟨st', hst', hexp⟩ := expand_expanded hP (hlong st i outptr h hi)
  refine ⟨st', ?_, hexp.inv, (decideAt_same hi _).trans hexp.same⟩
  unfold punt
  rw [hscan]
  exact hst'

theorem punt_cases {st st' : State} (h : punt cpu st = .ok st') :
    ∃ i e, st.selset[i]? = some e ∧ expand cpu (decideAt cpu st i e .L_SDI) = .ok st' := by
  unfold punt at h
  split at h
  · cases h
  · rename_i i e hscan
    exact ⟨i, e, scan_get st.selset [] st.sdicnt none (fun r hr => by cases hr) _ hscan, h⟩

variable (cpu) in
theorem expand_ok (st : State) : ∃ st', expand cpu st = .ok st' :=
  (expand_expanded (P := fun _ => True) (fun _ _ _ _ _ _ => trivial) trivial).imp fun _ h => h.1

variable (cpu) in
theorem punt_error {st : State} {e : Stop} (h : punt cpu st = .error e) : e = .wild := by
  unfold punt at h
  split at h
  · cases h
    rfl
  · obtain ⟨st', hst'⟩ := expand_ok cpu (decideAt cpu st _ _ .L_SDI)
    rw [hst'] at h
    cases h

theorem expand_to {P : State → Prop} (hP : Keeps cpu P) {st st' : State} (h : P st)
    (hst : expand cpu st = .ok st') : Expanded cpu P st st' := by
  obtain ⟨st1, hst1, hexp⟩ := expand_expanded hP h
  rw [hst] at hst1
  cases hst1
  exact hexp

theorem punt_same {st st' : State} (h : punt cpu st = .ok st') : Same st st' := by
  obtain ⟨i, e, hi, hexp⟩ := punt_cases h
  exact (decideAt_same hi _).trans (expand_to (P := fun _ => True) (fun _ _ _ _ _ _ => trivial) trivial hexp).same

theorem puntLabels_keeps {P : State → Prop} (hP : ∀ st st', P st → punt cpu st = .ok st' → P st') :
    ∀ (fuel : ℕ) (st st' : State), P st → puntLabels cpu fuel st = .ok st' → P st'
  | 0, _, _, _, hst => nomatch hst
  | fuel + 1, st, st', h, hst => by
    unfold puntLabels at hst
    split at hst
    · split at hst
      · cases hst
      · rename_i st1 hst1
        exact puntLabels_keeps hP fuel st1 st' (hP st st1 h hst1) hst
    · cases hst
      exact h

theorem puntLabels_error :
    ∀ (fuel : ℕ) (st : State) (e : Stop), puntLabels cpu fuel st = .error e → e ≠ .redefined
  | 0, _, _, hst => by
    cases hst
    exact nofun
  | fuel + 1, st, e, hst => by
    unfold puntLabels at hst
    split at hst
    · split at hst
      · rename_i e' he
        cases hst
        rw [punt_error cpu he]
        exact nofun
      · exact puntLabels_error fuel _ e hst
    · cases hst

/-! ## A step with room in the tables -/

/-- A label that has to be watched finds room in the label table, and an instruction that has to be registered finds
a number -/
def Room (st : Tables) : Stmt → Prop
  | .line (.label l) =>
    (st.symtab (.name l)).styp = .UNDEF → st.selset = [] ∨ st.labset.length ≠ MAXLAB
  | .line (.inst d) =>
    (∃ l, d.sym = some (.name l)) → sdi st.toState d.sym d.const d.itype = .U_SDI →
      st.sdicnt + 1 ≠ MAXSDI
  | _ => True

/-- What the steps with room keep -/
structure Kept (cpu : Processor) (st : Tables) : Prop where
  inv : Inv cpu st.text 0 st.toState
  overflow : st.overflow = false

theorem decideAt_count (st : State) (n i : ℕ) (e : Ssentry) (t : Sditype) :
    decideAt cpu { st with sdicnt := n } i e t = { decideAt cpu st i e t with sdicnt := n } := by
  unfold decideAt update
  split <;> rfl

/-- `newsdi` has counted the new instruction already when it punts -/
theorem counted_keeps (text : List Code) (n : ℕ) :
    Keeps cpu fun st => Inv cpu text 0 { st with sdicnt := n } := by
  intro st i e h hi hu
  rw [← decideAt_count]
  exact h.decideAt hi hu

theorem counted_long (text : List Code) (n : ℕ) (st : State) (i : ℕ) (e : Ssentry)
    (h : Inv cpu text 0 { st with sdicnt := n }) (hi : st.selset[i]? = some e) :
    Inv cpu text 0 { decideAt cpu st i e .L_SDI with sdicnt := n } := by
  rw [← decideAt_count]
  exact h.long hi

/-- The selection set makes room for an instruction -/
theorem room_kept {text : List Code} {st : State} (h : Inv cpu text 0 st) {counted : State}
    (hc : counted = { st with sdicnt := st.sdicnt + 1 }) :
    ∃ room, (if counted.selset.length = MAXSS then punt cpu counted else .ok counted) = .ok room ∧
      Inv cpu text 0 { room with sdicnt := st.sdicnt } ∧ Same counted room := by
  have hcounted : Inv cpu text 0 { counted with sdicnt := st.sdicnt } := by
    rw [hc]
    exact h
  by_cases hfull : counted.selset.length = MAXSS
  · rw [if_pos hfull]
    have hpos : 0 < counted.selset.length := by
      rw [hfull]
      decide
    obtain ⟨e, he⟩ := exists_mem_of_length_pos hpos
    have hlt : e.sdicnt < counted.sdicnt := by
      rw [hc] at he ⊢
      exact Nat.lt_succ_of_le (h.open_le he)
    exact punt_keeps (counted_keeps text st.sdicnt) (counted_long text st.sdicnt) hcounted ⟨e, he, hlt⟩
  · rw [if_neg hfull]
    exact ⟨counted, rfl, hcounted, .rfl _⟩

variable (cpu) in
/-- Without a number for it, the counter is stepped back -/
theorem newsdi_full {st : Tables} (hfull : st.sdicnt + 1 = MAXSDI) (sym : Sym) (const : ℤ) (itype : Itype) :
    match newsdi cpu st sym const itype with
    | .error e => e = .wild
    | .ok st' => st'.overflow = true := by
  unfold newsdi
  dsimp only
  split
  · rename_i e he
    split at he
    · rename_i hp
      split at hp
      · cases he
        exact punt_error cpu hp
      · cases hp
    · cases he
  · rename_i st' hst'
    split at hst'
    · cases hst'
    · cases hst'
      simp [hfull]

theorem newsdi_kept {st : Tables} (h : Kept cpu st) (hne : st.sdicnt + 1 ≠ MAXSDI) {d : Sdi} {l : ℕ}
    (hsym : d.sym = some (.name l)) :
    ∃ st', newsdi cpu st (.name l) d.const d.itype = .ok st' ∧ st'.overflow = false ∧
      Registered cpu d st.toState .U_SDI st'.toState := by
  obtain ⟨room, hok, hinv, hsame⟩ := room_kept h.inv rfl
  have hcnt : room.sdicnt = st.sdicnt + 1 := hsame.sdicnt
  unfold newsdi
  simp only [decide_eq_false hne, Bool.false_eq_true, if_false, hok, h.overflow, Bool.or_self]
  refine ⟨_, rfl, rfl, ?_, hsame.text⟩
  exact hinv.enter hsym (by simp [entered, hcnt])

/-- What the parts of `shortsdi` come to -/
def Answers (cpu : Processor) (d : Sdi) (st : Tables) (r : Except Stop (Option Sditype × Tables)) : Prop :=
  ∃ sditype st', r = .ok (some sditype, st') ∧ st'.overflow = false ∧
    Registered cpu d st.toState sditype st'.toState

theorem register_kept {d : Sdi} {st : Tables} (h : Kept cpu st) (hroom : Room st (.line (.inst d))) :
    Answers cpu d st (register cpu st d.sym d.const d.itype) := by
  have hdot : (st.symtab .dot).isTxt0 := by
    rw [h.inv.dot]
    exact ⟨rfl, rfl⟩
  have hlong : Answers cpu d st (.ok (some .L_SDI, st)) :=
    ⟨.L_SDI, st, rfl, h.overflow, .long h.inv⟩
  have hshort (hnear : Near cpu st.toState d st.text []) : Answers cpu d st (.ok (some .S_SDI, st)) :=
    ⟨.S_SDI, st, rfl, h.overflow, .short h.inv hnear⟩
  have henter {l : ℕ} (hsym : d.sym = some (.name l))
      (hu : sdi st.toState (some (.name l)) d.const d.itype = .U_SDI) :
      Answers cpu d st (match newsdi cpu st (.name l) d.const d.itype with
        | .error e => .error e
        | .ok st => .ok (some .U_SDI, st)) := by
    obtain ⟨st', hst', hover, hreg⟩ := newsdi_kept h (hroom ⟨l, hsym⟩ (hsym ▸ hu)) hsym
    rw [hst']
    exact ⟨.U_SDI, st', rfl, hover, hreg⟩
  unfold register
  cases hsym : d.sym with
  | none => exact hlong
  | some s =>
    dsimp only
    rw [if_neg (not_not.mpr hdot)]
    cases s with
    | dot =>
      rw [if_neg (by rw [h.inv.dot]; exact fun hc => nomatch hc)]
      cases hs : sdi st.toState (some .dot) d.const d.itype with
      | L_SDI => exact hlong
      | S_SDI => exact hshort (h.inv.near_of_sdi (hsym ▸ hs))
      | U_SDI =>
        dsimp only
        rw [if_pos ⟨rfl, hdot⟩]
        exact hshort (h.inv.here_of_sdi hsym (hsym ▸ hs))
    | name l =>
      by_cases hu : (st.symtab (.name l)).styp = .UNDEF
      · rw [if_pos hu]
        exact henter hsym (by simp [sdi, hu])
      · rw [if_neg hu]
        cases hs : sdi st.toState (some (.name l)) d.const d.itype with
        | L_SDI => exact hlong
        | S_SDI => exact hshort (h.inv.near_of_sdi (hsym ▸ hs))
        | U_SDI =>
          dsimp only
          rw [if_neg (by simp)]
          exact henter hsym hs

theorem shortsdi_kept {d : Sdi} {st : Tables} (h : Kept cpu st) (hroom : Room st (.line (.inst d))) :
    Answers cpu d st (shortsdi cpu st d.sym d.const d.itype) := by
  obtain ⟨sditype, st1, hst1, hover, hreg⟩ := register_kept h hroom
  unfold shortsdi
  rw [h.overflow, if_neg Bool.false_ne_true, hst1]
  dsimp only
  unfold ret
  by_cases hlen : 1 < st1.selset.length
  · rw [if_pos hlen]
    obtain ⟨st2, hst2, hexp⟩ := expand_expanded (Inv.keeps _ _) hreg.inv
    have hinv := hexp.inv
    rw [← hexp.same.sdicnt] at hinv
    rw [hst2]
    exact ⟨sditype, _, rfl, hover, hinv, hexp.same.text.trans hreg.text⟩
  · rw [if_neg hlen]
    exact ⟨sditype, st1, rfl, hover, hreg⟩

variable (cpu) in
theorem deflab_room {st : State} (h : st.selset = [] ∨ st.labset.length ≠ MAXLAB) (sym : Sym) :
    deflab cpu st sym = As.deflab cpu st sym ∧ ∃ st', deflab cpu st sym = .ok st' := by
  unfold deflab As.deflab
  dsimp only
  by_cases hsel : st.selset = []
  · rw [if_neg (not_not.mpr hsel), if_neg (not_not.mpr hsel)]
    exact ⟨rfl, _, rfl⟩
  · have hne := h.resolve_left hsel
    rw [if_pos hsel, if_pos hsel]
    simp only [newlab, puntLabels, As.newlab, if_neg hne]
    exact ⟨trivial, expand_ok cpu _⟩

/-- A statement is carried out, or it defines a label again -/
def Goes (cpu : Processor) (r : Except Stop Tables) : Prop :=
  match r with
  | .ok st => Kept cpu st
  | .error e => e = .redefined

theorem Kept.label {st : Tables} (h : Kept cpu st) {l : ℕ} (hroom : Room st (.line (.label l))) :
    Goes cpu (statement cpu st (.line (.label l))) := by
  unfold statement
  dsimp only
  split
  · exact rfl
  · rename_i hu
    have hdot := h.inv.dot
    rw [if_pos (by rw [hdot]; exact ⟨rfl, rfl⟩)]
    have hends : Ends (As.deflab cpu (defineLabel st.toState l) (.name l)) fun st' =>
        Inv cpu st'.text 0 st' :=
      h.inv.deflab (not_not.mp hu) (by rw [hdot]) (by rw [hdot]) rfl fun st' hinv ht => ht ▸ hinv
    have hfits : (defineLabel st.toState l).selset = [] ∨ (defineLabel st.toState l).labset.length ≠ MAXLAB :=
      hroom (not_not.mp hu)
    obtain ⟨heq, st', hst'⟩ := deflab_room cpu hfits (.name l)
    rw [heq] at hst'
    rw [heq, hst']
    rw [hst'] at hends
    exact ⟨hends, h.overflow⟩

theorem Kept.generate {st : Tables} {nbytes : ℤ} {code : Code}
    (h : Inv cpu (st.text ++ [code]) nbytes st.toState) (ho : st.overflow = false) :
    Kept cpu (st.generate nbytes code) :=
  ⟨h.generate code, ho⟩

theorem Kept.fixed {st : Tables} (h : Kept cpu st) (n : ℕ) : Kept cpu (st.generate n (.fixed n)) := by
  have hinv := h.inv.append (c := .fixed n) (fun l hc => nomatch hc) rfl fun d hd => nomatch hd
  rw [zero_add] at hinv
  exact .generate hinv h.overflow

theorem resolve_kept {st : State} (h : Inv cpu st.text 0 st) :
    ∃ st', resolve cpu st = .ok st' ∧ Inv cpu st'.text 0 st' := by
  obtain ⟨st', hst', hexp⟩ := expand_expanded (Inv.keeps st.text 0) (h.last false)
  unfold resolve
  rw [hst']
  have ht : st'.text = st.text := hexp.same.text
  exact ⟨_, rfl, ht ▸ hexp.inv.last true⟩

theorem Kept.org {st : Tables} (h : Kept cpu st) (addr : ℤ) : Goes cpu (statement cpu st (.org addr)) := by
  unfold statement
  dsimp only
  split
  · exact h
  · rw [if_pos (by rw [h.inv.dot]; exact ⟨rfl, rfl⟩)]
    obtain ⟨st', hst', hinv⟩ := resolve_kept h.inv
    rw [hst']
    have hkept : Kept cpu { st with toState := st' } := ⟨hinv, h.overflow⟩
    exact hkept.fixed _

theorem Kept.inst {st : Tables} (h : Kept cpu st) {d : Sdi} (hroom : Room st (.line (.inst d))) :
    Goes cpu (statement cpu st (.line (.inst d))) := by
  obtain ⟨sditype, st', hst', hover, hinv, ht⟩ := shortsdi_kept h hroom
  rw [← ht] at hinv
  unfold statement
  dsimp only
  rw [hst']
  cases sditype <;> exact .generate hinv hover

theorem Kept.statement {st : Tables} (h : Kept cpu st) {stmt : Stmt} (hroom : Room st stmt) :
    Goes cpu (statement cpu st stmt) := by
  match stmt with
  | .line (.label l) => exact h.label hroom
  | .line (.fixed n) => exact h.fixed n
  | .line (.inst d) => exact h.inst hroom
  | .org addr => exact h.org addr

/-! ## A step without room -/

/-- Label `l`, behind `text`, is at least `lag` bytes before where it is -/
structure Lags (cpu : Processor) (text : List Code) (l : ℕ) (lag : ℤ) (st : State) : Prop where
  entry : ∀ e ∈ st.selset, e.sdicnt ∈ nums text ∧ st.islongsdi e.sdicnt = 0
  sel_nodup : (st.selset.map (·.sdicnt)).Nodup
  lab_nodup : st.labset.Nodup
  lag : (st.symtab (.name l)).value + lag ≤ sizes cpu st text

variable (cpu) in
theorem sizes_mark {st st' : State} {k : ℕ} {grown : ℤ}
    (hm : st'.islongsdi = Function.update st.islongsdi k grown) (hz : st.islongsdi k = 0) :
    ∀ s : List Code, (nums s).Nodup →
      sizes cpu st' s = sizes cpu st s + if k ∈ nums s then grown else 0
  | [], _ => by simp
  | c :: s, hn => by
    rw [nums_cons] at hn ⊢
    obtain ⟨-, hn, hdisj⟩ := nodup_append.mp hn
    rw [sizes_cons, sizes_cons, sizes_mark hm hz s hn]
    match c with
    | .label _ | .fixed _ | .inst _ .short | .inst _ .long =>
      by_cases hk : k ∈ nums s <;> simp [Code.size, Code.num, hk, add_assoc]
    | .inst d (.opt j) =>
      by_cases hj : j = k
      · subst hj
        have hnot : j ∉ nums s := fun hin => hdisj j (.head _) j hin rfl
        simp [Code.size, Code.num, hm, hz, hnot]
        omega
      · by_cases hk : k ∈ nums s <;> simp [Code.size, Code.num, hm, hj, Ne.symm hj, hk, add_assoc]

section Lags

variable {text : List Code} {l : ℕ} {lag grown : ℤ} {st : State} {i : ℕ} {e : Ssentry}
  {after : Symbol → Bool}

theorem Lags.mono (h : Lags cpu text l lag st) {lag' : ℤ} (hle : lag' ≤ lag) : Lags cpu text l lag' st :=
  { h with lag := by have := h.lag; omega }

theorem Lags.congr (h : Lags cpu text l lag st) {st' : State} (hsel : st'.selset = st.selset)
    (hlab : st'.labset = st.labset) (hlong : st'.islongsdi = st.islongsdi)
    (hv : (st'.symtab (.name l)).value = (st.symtab (.name l)).value) : Lags cpu text l lag st' where
  entry := by simpa only [hsel, hlong] using h.entry
  sel_nodup := by simpa only [hsel] using h.sel_nodup
  lab_nodup := by simpa only [hlab] using h.lab_nodup
  lag := by
    rw [sizes_congr cpu hlong, hv]
    exact h.lag

variable (after) in
/-- A decision moves the label by what the instruction grows at most -/
theorem Lags.settled (h : Lags cpu text l lag st) (hn : (nums text).Nodup) (hi : st.selset[i]? = some e)
    (h0 : 0 ≤ grown) :
    Lags cpu text l (if .name l ∈ st.labset then lag else lag + grown) (settle cpu st i e after grown) := by
  have he := h.entry e (mem_of_getElem? hi)
  have hmark : (settle cpu st i e after grown).islongsdi =
      Function.update st.islongsdi e.sdicnt grown := rfl
  have hsize := sizes_mark cpu hmark he.2 text hn
  have hlag := h.lag
  have hs := Sweep.sweep_swept (shiftLab after grown (idelta cpu e.itype)) (fun lab => lab.maxval = 0)
    st.labset.length 0 (Function.update st.symtab .dot
      { st.symtab .dot with
        value := (st.symtab .dot).value + grown
        maxval := (st.symtab .dot).maxval - idelta cpu e.itype }) st.labset h.lab_nodup (Nat.zero_add _)
  have hname : Sym.name l ≠ .dot := by simp
  refine
    { entry := fun p hp => ?_
      sel_nodup := nodup_swapOut_map (fun p => by split <;> rfl) h.sel_nodup i
      lab_nodup := hs.nodup
      lag := ?_ }
  · obtain ⟨q, hq, hne, rfl⟩ := (mem_settle h.sel_nodup hi p).mp hp
    have hnum : (if q.sdicnt > e.sdicnt then
        { q with minaddr := q.minaddr + grown, maxaddr := q.maxaddr - idelta cpu e.itype }
      else q).sdicnt = q.sdicnt := by split <;> rfl
    rw [hnum]
    exact ⟨(h.entry q hq).1, by simpa [settle, shiftBy, hne] using (h.entry q hq).2⟩
  · rw [hsize, if_pos he.1]
    by_cases hlab : Sym.name l ∈ st.labset
    · have hhit : (settle cpu st i e after grown).symtab (.name l) = _ := hs.hit (.name l) hlab
      simp only [Function.update_of_ne hname, shiftLab] at hhit
      rw [if_pos hlab, hhit]
      split
      · simp only [Option.getD_some]
        omega
      · simp only [Option.getD_none]
        omega
    · have hmiss : (settle cpu st i e after grown).symtab (.name l) = _ := hs.miss (.name l) hlab
      simp only [Function.update_of_ne hname] at hmiss
      rw [if_neg hlab, hmiss]
      omega

theorem Lags.decided (h : Lags cpu text l lag st) (hn : (nums text).Nodup) (hi : st.selset[i]? = some e)
    (t : Sditype) : Lags cpu text l lag (decideAt cpu st i e t) := by
  have hpos := idelta_pos cpu e.itype
  have he := h.entry e (mem_of_getElem? hi)
  unfold decideAt update
  split
  · rw [updateShort_eq st he.2]
    have hs := h.settled (fun lab => lab.value + lab.maxval > e.minaddr + e.maxaddr) hn hi (le_refl 0)
    rw [add_zero, ite_self] at hs
    exact hs
  · rw [updateLong_eq]
    have hs := h.settled (fun lab => lab.value > e.minaddr) hn hi hpos.le
    exact hs.mono (by split <;> omega)

/-- An instruction is taken for long while the label is not in its table -/
theorem Lags.missed (h : Lags cpu text l 0 st) (hn : (nums text).Nodup) (hi : st.selset[i]? = some e)
    (hl : .name l ∉ st.labset) : Lags cpu text l 1 (decideAt cpu st i e .L_SDI) := by
  have hpos := idelta_pos cpu e.itype
  unfold decideAt update
  rw [if_neg (not_not.mpr rfl), updateLong_eq]
  have hs := h.settled (fun lab => lab.value > e.minaddr) hn hi hpos.le
  rw [if_neg hl] at hs
  exact hs.mono (by omega)

variable (cpu l lag) in
theorem lags_keeps (hn : (nums text).Nodup) : Keeps cpu (Lags cpu text l lag) :=
  fun _ _ _ h hi _ => h.decided hn hi _

theorem Lags.punt (h : Lags cpu text l lag st) (hn : (nums text).Nodup) {st' : State}
    (hst : punt cpu st = .ok st') : Lags cpu text l lag st' := by
  obtain ⟨i, e, hi, hexp⟩ := punt_cases hst
  exact (expand_to (lags_keeps cpu l lag hn) (h.decided hn hi _) hexp).inv

theorem Lags.newlab (h : Lags cpu text l 0 st) (hn : (nums text).Nodup) (hl : .name l ∉ st.labset)
    (hfull : st.labset.length = MAXLAB) {st' : State} (hst : newlab cpu st (.name l) = .ok st') :
    Lags cpu text l 1 st' ∧ st'.text = st.text := by
  unfold Punt.newlab at hst
  split at hst
  · cases hst
  · rename_i st2 hst2
    cases hst
    unfold puntLabels at hst2
    rw [if_pos hfull] at hst2
    split at hst2
    · cases hst2
    · rename_i st1 hst1
      obtain ⟨i, e, hi, hexp⟩ := punt_cases hst1
      have h1 := (expand_to (lags_keeps cpu l 1 hn) (h.missed hn hi hl) hexp).inv
      obtain ⟨h2, hsame⟩ := puntLabels_keeps (P := fun s => Lags cpu text l 1 s ∧ Same st s)
        (fun _ _ hp hst => ⟨hp.1.punt hn hst, hp.2.trans (punt_same hst)⟩) _ _ _ ⟨h1, punt_same hst1⟩ hst2
      have hnot : Sym.name l ∉ st2.labset := fun hin => hl (hsame.labset _ hin)
      refine ⟨{ h2 with lab_nodup := ?_ }, hsame.text⟩
      exact nodup_append.mpr ⟨h2.lab_nodup, nodup_singleton _, fun a ha b hb he =>
        hnot (by rw [← mem_singleton.mp hb, ← he]; exact ha)⟩

theorem Lags.deflab (h : Lags cpu text l 0 st) (hn : (nums text).Nodup) (hl : .name l ∉ st.labset)
    (hsel : st.selset ≠ []) (hfull : st.labset.length = MAXLAB) {st' : State}
    (hst : deflab cpu st (.name l) = .ok st') : Lags cpu text l 1 st' ∧ st'.text = st.text := by
  unfold Punt.deflab at hst
  dsimp only at hst
  rw [if_pos hsel] at hst
  split at hst
  · cases hst
  · rename_i st1 hst1
    have h0 : Lags cpu text l 0 { st with
        symtab := Function.update st.symtab (.name l) { st.symtab (.name l) with maxval := st.PCmax } } :=
      h.congr rfl rfl rfl (by simp)
    obtain ⟨h1, ht⟩ := h0.newlab hn hl hfull hst1
    have hexp := expand_to (lags_keeps cpu l 1 hn) h1 hst
    exact ⟨hexp.inv, hexp.same.text.trans ht⟩

end Lags

theorem deflab_error {st : State} {sym : Sym} {e : Stop} (h : deflab cpu st sym = .error e) :
    e ≠ .redefined := by
  unfold deflab at h
  dsimp only at h
  split at h
  · split at h
    · rename_i e' hnew
      cases h
      unfold newlab at hnew
      split at hnew
      · rename_i e' he
        cases hnew
        exact puntLabels_error _ _ _ he
      · cases hnew
    · rename_i st1 hst1
      obtain ⟨st', hst'⟩ := expand_ok cpu st1
      rw [hst'] at h
      cases h
  · cases h

theorem Kept.lags {st : Tables} (h : Kept cpu st) (l : ℕ) :
    Lags cpu st.text l 0 (defineLabel st.toState l) where
  entry e he := by
    obtain ⟨pre, d, post, hent⟩ := h.inv.entry e he
    exact ⟨by simp [hent.text_eq], hent.unmarked⟩
  sel_nodup := h.inv.sel_nodup
  lab_nodup := h.inv.lab_nodup
  lag := by
    have htot := h.inv.newdot
    have hv : ((defineLabel st.toState l).symtab (.name l)).value = st.newdot := by simp [defineLabel]
    have hs : sizes cpu (defineLabel st.toState l) st.text = sizes cpu st.toState st.text :=
      sizes_congr cpu rfl _
    omega

/-! ## Runs -/

/-- Labels are where they are at least, with the slack of what is not decided before them; instructions have numbers
of their own; and an answer of `shortsdi` was set -/
structure Lawful (cpu : Processor) (st : Tables) : Prop where
  value : ∀ pre l post, st.text = pre ++ .label l :: post →
    (st.symtab (.name l)).value = sizes cpu st.toState pre
  maxval : ∀ pre l post, st.text = pre ++ .label l :: post →
    (st.symtab (.name l)).maxval = slacks cpu st.toState pre
  numbers : (nums st.text).Nodup
  answer : ∀ sym const itype answer st', shortsdi cpu st sym const itype = .ok (answer, st') → answer.isSome

theorem ret_answer {st st' : Tables} {sditype answer : Option Sditype}
    (h : ret cpu st sditype = .ok (answer, st')) : answer = sditype := by
  unfold ret at h
  split at h
  · split at h
    · cases h
    · cases h
      rfl
  · cases h
    rfl

theorem shortsdi_answer {st : Tables} (h : st.overflow = false) {sym : Option Sym} {const : ℤ}
    {itype : Itype} {answer : Option Sditype} {st' : Tables}
    (ha : shortsdi cpu st sym const itype = .ok (answer, st')) : answer.isSome := by
  unfold shortsdi at ha
  rw [h, if_neg Bool.false_ne_true] at ha
  split at ha
  · cases ha
  · cases ha
    rfl
  · rw [ret_answer ha]
    rfl

/-- Every statement of a run finds room in the tables -/
def Fits (cpu : Processor) : Tables → List Stmt → Prop
  | _, [] => True
  | st, stmt :: stmts => Room st stmt ∧ ∀ st', statement cpu st stmt = .ok st' → Fits cpu st' stmts

/-- Every state of a run is lawful, and only a label that is defined again stops it -/
def Holds (cpu : Processor) : Tables → List Stmt → Prop
  | st, [] => Lawful cpu st
  | st, stmt :: stmts =>
    Lawful cpu st ∧
      match statement cpu st stmt with
      | .error e => e = .redefined
      | .ok st' => Holds cpu st' stmts

theorem start_kept : Kept cpu start := ⟨start_between.inv, rfl⟩

theorem Holds.lawful {st : Tables} {stmts : List Stmt} (h : Holds cpu st stmts) : Lawful cpu st := by
  cases stmts with
  | nil => exact h
  | cons stmt stmts => exact h.1

theorem Holds.pass1 {st : Tables} {stmts : List Stmt} (h : Holds cpu st stmts) :
    match pass1 cpu st stmts with
    | .error e => e = .redefined
    | .ok st' => Lawful cpu st' := by
  induction stmts generalizing st with
  | nil => exact h
  | cons stmt stmts ih =>
    obtain ⟨-, hrest⟩ := h
    unfold Punt.pass1
    cases hst : statement cpu st stmt with
    | error e =>
      rw [hst] at hrest
      exact hrest
    | ok st' =>
      rw [hst] at hrest
      exact ih hrest

theorem Kept.lawful {st : Tables} (h : Kept cpu st) : Lawful cpu st where
  value pre l post ht := by rw [h.inv.label pre l post ht]
  maxval pre l post ht := by rw [h.inv.label pre l post ht]
  numbers := h.inv.nodup
  answer _ _ _ _ _ := shortsdi_answer h.overflow

theorem overflow_lawless {st : Tables} (h : st.overflow = true) : ¬ Lawful cpu st := by
  intro hlaw
  have hret : ∃ st', shortsdi cpu st none 0 .SDI1 = .ok (none, st') := by
    unfold shortsdi ret
    rw [if_pos h]
    split
    · obtain ⟨st', hst'⟩ := expand_ok cpu st.toState
      rw [hst']
      exact ⟨_, rfl⟩
    · exact ⟨_, rfl⟩
  obtain ⟨st', hst'⟩ := hret
  exact Bool.false_ne_true (hlaw.answer _ _ _ _ _ hst')

theorem ret_overflow {st : Tables} {sditype : Sditype} :
    ∃ st', ret cpu st (some sditype) = .ok (some sditype, st') ∧ st'.overflow = st.overflow := by
  unfold ret
  split
  · obtain ⟨st', hst'⟩ := expand_ok cpu st.toState
    rw [hst']
    exact ⟨_, rfl, rfl⟩
  · exact ⟨_, rfl, rfl⟩

/-- A label that finds no room lags behind what is punted for it, or `punt` finds no entry; an instruction that finds
no number leaves `shortsdi` without an answer -/
theorem Kept.roomless {st : Tables} (h : Kept cpu st) {stmt : Stmt} (hroom : ¬ Room st stmt) :
    match Punt.statement cpu st stmt with
    | .error e => e ≠ .redefined
    | .ok st' => ¬ Lawful cpu st' := by
  have hdot : (st.symtab .dot).isTxt0 := by
    rw [h.inv.dot]
    exact ⟨rfl, rfl⟩
  match stmt with
  | .line (.fixed _) => exact absurd trivial hroom
  | .org _ => exact absurd trivial hroom
  | .line (.label l) =>
    simp only [Room, Classical.not_imp, not_or, not_not] at hroom
    obtain ⟨hu, hsel, hfull⟩ := hroom
    have hnot : Sym.name l ∉ st.labset := fun hin => by
      obtain ⟨m, hm, hin⟩ := h.inv.lab_mem _ hin
      cases hm
      obtain ⟨pre, post, ht⟩ := append_of_mem hin
      rw [h.inv.label pre l post ht] at hu
      cases hu
    unfold Punt.statement
    dsimp only
    rw [if_neg (not_not.mpr hu), if_pos hdot]
    cases hst : deflab cpu (defineLabel st.toState l) (.name l) with
    | error e => exact deflab_error hst
    | ok st' =>
      obtain ⟨hlag, ht⟩ := (h.lags l).deflab h.inv.nodup hnot hsel hfull hst
      intro hlaw
      have hv := hlaw.value st.text l [] ht
      have := hlag.lag
      dsimp only at hv
      omega
  | .line (.inst d) =>
    simp only [Room, Classical.not_imp, not_not] at hroom
    obtain ⟨⟨l, hsym⟩, hs, hfull⟩ := hroom
    have hnew := newsdi_full cpu hfull (.name l) d.const d.itype
    rw [hsym] at hs
    unfold Punt.statement shortsdi
    dsimp only
    rw [h.overflow, if_neg Bool.false_ne_true, hsym]
    cases hst : newsdi cpu st (.name l) d.const d.itype with
    | error e =>
      have hreg : register cpu st (some (.name l)) d.const d.itype = .error e := by
        simp [register, hs, hst, hdot]
      rw [hst] at hnew
      rw [hreg, hnew]
      exact nofun
    | ok st1 =>
      have hreg : register cpu st (some (.name l)) d.const d.itype = .ok (some .U_SDI, st1) := by
        simp [register, hs, hst, hdot]
      rw [hst] at hnew
      obtain ⟨st2, hst2, hover⟩ := @ret_overflow cpu st1 .U_SDI
      simp only [hreg, hst2]
      exact overflow_lawless (hover.trans hnew)

/-- The law of the tables is kept by exactly the runs in which a label that has to be watched always finds room in
its table, and an instruction a number. The selection set may be full at any time -/
theorem punt_sound_iff (cpu : Processor) (stmts : List Stmt) :
    Holds cpu start stmts ↔ Fits cpu start stmts := by
  suffices hall : ∀ (stmts : List Stmt) (st : Tables), Kept cpu st → (Holds cpu st stmts ↔ Fits cpu st stmts) from
    hall stmts start start_kept
  intro stmts
  induction stmts with
  | nil => exact fun st h => ⟨fun _ => trivial, fun _ => h.lawful⟩
  | cons stmt stmts ih =>
    intro st h
    unfold Holds Fits
    by_cases hroom : Room st stmt
    · have hgoes := h.statement hroom
      cases hst : statement cpu st stmt with
      | error e =>
        rw [hst] at hgoes
        exact ⟨fun _ => ⟨hroom, nofun⟩, fun _ => ⟨h.lawful, hgoes⟩⟩
      | ok st' =>
        rw [hst] at hgoes
        have hih := ih st' hgoes
        refine ⟨fun hh => ⟨hroom, fun st1 hst1 => ?_⟩, fun hf => ⟨h.lawful, hih.mpr (hf.2 st' rfl)⟩⟩
        cases hst1
        exact hih.mp hh.2
    · have hless := h.roomless hroom
      refine ⟨fun hh => ?_, fun hf => absurd hf.1 hroom⟩
      cases hst : statement cpu st stmt with
      | error e =>
        rw [hst] at hless hh
        exact absurd hh.2 hless
      | ok st' =>
        rw [hst] at hless hh
        exact absurd hh.2.lawful hless

/-! ## The last number -/

/-- The text of `k` branches, each to the label behind it -/
def hops (k : ℕ) : List Stmt :=
  (List.range k).flatMap fun l => [.line (.inst (branch l)), .line (.label l)]

/-- The symbols when they are all decided -/
def landings (k : ℕ) : Sym → Symbol
  | .dot => ⟨.TXT, 0, 4 * k, 0⟩
  | .name l => if l < k then ⟨.TXT, 0, 4 * (l + 1), 0⟩ else ⟨.UNDEF, 0, 0, 0⟩

def hopped (k : ℕ) : Tables where
  symtab := landings k
  selset := []
  labset := []
  islongsdi _ := 0
  sdicnt := k
  PCmax := 0
  newdot := 4 * k
  notdone := true
  text := (List.range k).flatMap fun l => [.inst (branch l) (.opt (l + 1)), .label l]
  overflow := false

/-- One branch more has got number `n` -/
def waiting (k n : ℕ) (overflow : Bool) : Tables where
  symtab := Function.update (landings k) .dot ⟨.TXT, 0, 4 * k + 4, 2⟩
  selset := [⟨n, .SDI2, 4 * k, 0, .name k, 0⟩]
  labset := []
  islongsdi _ := 0
  sdicnt := n
  PCmax := 2
  newdot := 4 * k + 4
  notdone := true
  text := (hopped k).text ++ [.inst (branch k) (.opt n)]
  overflow := overflow

/-- Its label is defined and in the table -/
def watched (k : ℕ) : State :=
  { (waiting k (k + 1) false).toState with
    symtab := Function.update (waiting k (k + 1) false).symtab (.name k) ⟨.TXT, 0, 4 * k + 4, 2⟩
    labset := [.name k]
    text := (waiting k (k + 1) false).text ++ [.label k] }

@[simp] theorem landings_dot (k : ℕ) : landings k .dot = ⟨.TXT, 0, 4 * k, 0⟩ := rfl

@[simp] theorem landings_next (k : ℕ) : landings k (.name k) = ⟨.UNDEF, 0, 0, 0⟩ := by
  simp [landings]

theorem landings_succ (k : ℕ) (s : Symbol) :
    Function.update (Function.update (Function.update (Function.update (landings k) .dot s) (.name k) s) .dot
      ⟨.TXT, 0, 4 * k + 4, 0⟩) (.name k) ⟨.TXT, 0, 4 * k + 4, 0⟩ = landings (k + 1) := by
  funext x
  cases x with
  | dot =>
    simp [landings]
    omega
  | name l =>
    obtain hlt | rfl | hgt := Nat.lt_trichotomy l k
    · simp [landings, hlt.ne, hlt, Nat.lt_succ_of_lt hlt]
    · simp [landings]
      omega
    · have hle : ¬ l < k + 1 := by omega
      simp [landings, hgt.ne', hgt.le, hle]

theorem hopped_inst (k : ℕ) :
    statement .M68020 (hopped k) (.line (.inst (branch k))) =
      .ok (waiting k (if k + 1 = MAXSDI then k else k + 1) (decide (k + 1 = MAXSDI))) := by
  by_cases hk : k + 1 = MAXSDI <;>
    simp [statement, shortsdi, register, newsdi, ret, hopped, waiting, branch, Symbol.isTxt0,
      Tables.generate, As.generate, idelta, MAXSS, hk]

theorem watched_class (k : ℕ) :
    sdiclass .M68020 (watched k) ⟨k + 1, .SDI2, 4 * k, 0, .name k, 0⟩ = .S_SDI := by
  simp [sdiclass, watched, Symbol.isTxt0, inRange, range, pcincr, idelta]

theorem watched_decide (k : ℕ) :
    decideAt .M68020 (watched k) 0 ⟨k + 1, .SDI2, 4 * k, 0, .name k, 0⟩ .S_SDI =
      (hopped (k + 1)).toState := by
  have hlt : (4 * k : ℤ) < 4 * k + 4 + 2 := by omega
  have hdot : (4 * (k + 1) : ℤ) = 4 * k + 4 := by omega
  have hsym := landings_succ k ⟨.TXT, 0, 4 * k + 4, 2⟩
  simp [decideAt, update, updateShort, watched, waiting, idelta, Sweep.sweep, Sweep.swapOut, hlt, hopped,
    range_succ, hsym, hdot]

theorem watched_expand (k : ℕ) : expand .M68020 (watched k) = .ok (hopped (k + 1)).toState := by
  have hsel : (watched k).selset = [⟨k + 1, .SDI2, 4 * k, 0, .name k, 0⟩] := rfl
  simp only [expand, hsel, length_singleton, expandLoop, expandPass, List.getElem?_cons_zero, watched_class,
    watched_decide]
  rfl

theorem waiting_label (k : ℕ) :
    statement .M68020 (waiting k (k + 1) false) (.line (.label k)) = .ok (hopped (k + 1)) := by
  have hexp := watched_expand k
  simp [watched, waiting] at hexp
  simp [statement, defineLabel, waiting, Symbol.isTxt0, deflab, newlab, puntLabels, MAXLAB, hexp]
  rfl

theorem pass1_append (a b : List Stmt) (st : Tables) :
    pass1 cpu st (a ++ b) = match pass1 cpu st a with
      | .error e => .error e
      | .ok st => pass1 cpu st b := by
  induction a generalizing st with
  | nil => rfl
  | cons stmt a ih =>
    simp only [cons_append, pass1]
    cases statement cpu st stmt with
    | error e => rfl
    | ok st' => exact ih st'

theorem start_hopped : start = hopped 0 := by
  have hsym : As.start.symtab = landings 0 := by
    funext s
    cases s <;> rfl
  have hstart : As.start = { As.start with symtab := landings 0 } := by rw [← hsym]
  unfold start
  rw [hstart]
  rfl

theorem hops_hopped : ∀ k, k < MAXSDI → pass1 .M68020 start (hops k) = .ok (hopped k)
  | 0, _ => by
    rw [start_hopped]
    rfl
  | k + 1, hk => by
    have ih := hops_hopped k (by omega)
    have hne : ¬ k + 1 = MAXSDI := by omega
    have hi := hopped_inst k
    rw [if_neg hne, decide_eq_false hne] at hi
    unfold hops at ih ⊢
    rw [range_succ, flatMap_append, pass1_append, ih]
    simp only [flatMap_cons, flatMap_nil, append_nil, pass1, hi, waiting_label]

theorem last_number (k : ℕ) : k + 1 ∈ nums (hopped (k + 1)).text := by
  simp [hopped, range_succ]

theorem waiting_repeats (k : ℕ) : ¬ (nums (waiting (k + 1) (k + 1) true).text).Nodup := by
  intro hn
  unfold waiting at hn
  rw [nums_append] at hn
  exact (nodup_append.mp hn).2.2 _ (last_number k) _ (.head _) rfl

theorem hops_waiting {k : ℕ} (hk : k + 1 = MAXSDI) :
    pass1 .M68020 start (hops k ++ [.line (.inst (branch k))]) = .ok (waiting k k true) := by
  have hi := hopped_inst k
  rw [if_pos hk, decide_eq_true hk] at hi
  rw [pass1_append, hops_hopped k (by omega)]
  simp only [pass1, hi]

theorem hops_fail {k : ℕ} (hk : k + 1 + 1 = MAXSDI) :
    ¬ Holds .M68020 start (hops (k + 1) ++ [.line (.inst (branch (k + 1)))]) := by
  intro h
  have hlaw := h.pass1
  rw [hops_waiting hk] at hlaw
  exact waiting_repeats k hlaw.numbers

/-- The last number is given twice, and then `shortsdi` answers nothing that was set -/
theorem punt_numbers :
    ∃ stmts st, pass1 .M68020 start stmts = .ok st ∧ ¬ (nums st.text).Nodup ∧
      (∀ sym const itype, ∃ st', shortsdi .M68020 st sym const itype = .ok (none, st')) ∧
      ¬ Holds .M68020 start stmts :=
  ⟨_, _, hops_waiting rfl, waiting_repeats _, fun _ _ _ => ⟨_, rfl⟩, hops_fail rfl⟩

end Svr3.As.Punt
