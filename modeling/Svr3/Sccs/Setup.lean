import Svr3.Sccs.Deltas

/-!
# Which deltas are applied

`setup` goes from the newest delta to the oldest, and a code that is set stays. So the code of a delta is the one
that it has at the start, else the first one in the lists of newer deltas that are applied, else that of its own
line.
-/

namespace Svr3.Sccs

open Function List

section rules

variable {t : Deltas} {v w : ℕ → Option Code} {n m : ℕ}

/-- The codes that a list gives -/
def Ixg.names (x : Ixg) : List (ℕ × Code) :=
  match (ixgCode x.type).1 with
  | some c => (x.ser.take x.cnt.toNat).map fun n => (n, c)
  | none => []

/-- The codes that the lists of a delta give, if it is applied -/
def names (t : Deltas) (v : ℕ → Option Code) (k : ℕ) : List (ℕ × Code) :=
  if v k = some .apply then (t.idel k).ixg.flatMap Ixg.names else []

/-- The serial numbers up to `N` that are above `n`, the highest first -/
def above (N n : ℕ) : List ℕ := (List.range' (n + 1) (N - n)).reverse

/-- The code that newer deltas give -/
def named (t : Deltas) (v : ℕ → Option Code) (n : ℕ) : Option Code :=
  ((above t.maxser n).flatMap (names t v)).lookup n

/-- The deltas that are in line when `setup` comes to them -/
inductive InLine (t : Deltas) : ℕ → Prop
  | base {n : ℕ} (h : (t.apply n).inline = true) : InLine t n
  | pred {n : ℕ} (h : InLine t n) (hle : n ≤ t.maxser) (hlt : (t.idel n).pred < n) : InLine t (t.idel n).pred

open Classical in
/-- The code of a delta that no list names -/
noncomputable def standing (t : Deltas) (n : ℕ) : Code :=
  if InLine t n ∧ ¬t.cutoff.slt (t.idel n).datetime = true then .apply else .noapply

/-- The codes `v` are those of the rules. -/
def Solves (t : Deltas) (v : ℕ → Option Code) : Prop :=
  ∀ n, 0 < n → n ≤ t.maxser → v n = ((t.apply n).code.or (named t v n)).or (some (standing t n))

/-- `setup` gets over a delta. -/
structure Good (t : Deltas) (v : ℕ → Option Code) (n : ℕ) : Prop where
  pred : InLine t n → (n = 1 ∨ (t.idel n).pred ≠ 0) ∧ (t.idel n).pred ≤ t.maxser
  ixg : v n = some .apply → ∀ x ∈ (t.idel n).ixg, 0 ≤ x.cnt.toInt ∧ ∀ m ∈ x.ser.take x.cnt.toNat, m ≤ t.maxser

theorem mem_above {N k : ℕ} : k ∈ above N n ↔ n < k ∧ k ≤ N := by
  rw [above, mem_reverse, mem_range'_1]
  omega

theorem above_self (N : ℕ) : above N N = [] := by
  rw [above, Nat.sub_self]
  rfl

theorem above_succ {N : ℕ} (h : n < N) : above N n = above N (n + 1) ++ [n + 1] := by
  have hlen : N - n = N - (n + 1) + 1 := by omega
  rw [above, hlen, List.range'_succ, reverse_cons]
  rfl

theorem flatMap_above_succ (h : n < t.maxser) : (above t.maxser n).flatMap (names t v) =
    (above t.maxser (n + 1)).flatMap (names t v) ++ names t v (n + 1) := by
  rw [above_succ h, flatMap_append, flatMap_singleton]

theorem named_congr (h : ∀ k, n < k → k ≤ t.maxser → v k = w k) : named t v n = named t w n := by
  have hflat : (above t.maxser n).flatMap (names t v) = (above t.maxser n).flatMap (names t w) := by
    apply flatMap_congr
    intro k hk
    obtain ⟨hlt, hle⟩ := mem_above.mp hk
    rw [names, names, h k hlt hle]
  rw [named, named, hflat]

theorem Solves.ne_none (h : Solves t v) (hpos : 0 < n) (hle : n ≤ t.maxser) : v n ≠ none := by
  rw [h n hpos hle]
  cases (t.apply n).code.or (named t v n) <;> exact nofun

/-- There are such codes: they are set from the newest delta on. -/
theorem exists_solves (t : Deltas) : ∃ v, Solves t v := by
  have hgo (j : ℕ) : ∃ v : ℕ → Option Code, ∀ n, t.maxser < n + j → n ≤ t.maxser →
      v n = ((t.apply n).code.or (named t v n)).or (some (standing t n)) := by
    induction j with
    | zero => exact ⟨fun _ => none, fun n h1 h2 => absurd h1 (by omega)⟩
    | succ j ih =>
      obtain ⟨v, hv⟩ := ih
      have hsame (n : ℕ) (hn : t.maxser ≤ n + j) :
          named t (update v (t.maxser - j)
            (((t.apply (t.maxser - j)).code.or (named t v (t.maxser - j))).or
              (some (standing t (t.maxser - j))))) n = named t v n := by
        apply named_congr
        intro k hk _
        exact update_of_ne (by omega) _ _
      refine ⟨update v (t.maxser - j) (((t.apply (t.maxser - j)).code.or
        (named t v (t.maxser - j))).or (some (standing t (t.maxser - j)))), fun n hlt hle => ?_⟩
      rw [hsame n (by omega)]
      by_cases heq : n = t.maxser - j
      · rw [heq, update_self]
      · rw [update_of_ne heq]
        exact hv n (by omega) hle
  obtain ⟨v, hv⟩ := hgo t.maxser
  exact ⟨v, fun n hpos hle => hv n (by omega) hle⟩

end rules

/-! ## The lists of one delta -/

section lists

variable {p q : Deltas} {c : Option Code} {r : BitVec 32} {n m : ℕ}

/-- Only codes and reasons are changed. -/
structure SameTable (p q : Deltas) : Prop where
  maxser : q.maxser = p.maxser
  idel : q.idel = p.idel
  cutoff : q.cutoff = p.cutoff

theorem SameTable.refl (p : Deltas) : SameTable p p := ⟨rfl, rfl, rfl⟩

theorem SameTable.trans {o : Deltas} (h : SameTable p q) (h' : SameTable q o) : SameTable p o :=
  ⟨h'.maxser.trans h.maxser, h'.idel.trans h.idel, h'.cutoff.trans h.cutoff⟩

theorem condset_inline (ap : Ap) : (condset c r ap).inline = ap.inline := by
  cases c with
  | none => rfl
  | some c =>
    rw [condset]
    split <;> rfl

theorem condset_code (ap : Ap) : (condset c r ap).code = ap.code.or c := by
  cases c with
  | none =>
    rw [Option.or_none]
    rfl
  | some c =>
    rw [condset]
    split
    next h => rw [h]; rfl
    next h =>
      obtain ⟨d, hd⟩ := Option.ne_none_iff_exists'.mp h
      rw [hd]
      rfl

theorem set_inline : ((p.set n c r).apply m).inline = (p.apply m).inline := by
  by_cases h : m = n
  · subst h
    dsimp only [Deltas.set]
    rw [update_self, condset_inline]
  · dsimp only [Deltas.set]
    rw [update_of_ne h]

theorem set_code : ((p.set n c r).apply m).code = if m = n then (p.apply m).code.or c else (p.apply m).code := by
  by_cases h : m = n
  · subst h
    dsimp only [Deltas.set]
    rw [update_self, condset_code, if_pos rfl]
  · dsimp only [Deltas.set]
    rw [update_of_ne h, if_neg h]

/-- Codes `ws` are set where there is none yet. -/
structure Sets (p q : Deltas) (ws : List (ℕ × Code)) : Prop where
  same : SameTable p q
  inline : ∀ m, (q.apply m).inline = (p.apply m).inline
  code : ∀ m, (q.apply m).code = (p.apply m).code.or (ws.lookup m)

theorem Sets.nil (p : Deltas) : Sets p p [] := ⟨.refl p, fun _ => rfl, fun _ => Option.or_none.symm⟩

theorem Sets.append {o : Deltas} {ws ws' : List (ℕ × Code)} (h : Sets p q ws) (h' : Sets q o ws') :
    Sets p o (ws ++ ws') := by
  refine ⟨h.same.trans h'.same, fun m => (h'.inline m).trans (h.inline m), fun m => ?_⟩
  rw [h'.code, h.code, lookup_append, Option.or_assoc]

theorem Sets.set (p : Deltas) (n : ℕ) (c : Option Code) (r : BitVec 32) :
    Sets p (p.set n c r) (match c with | some c => [(n, c)] | none => []) := by
  refine ⟨⟨rfl, rfl, rfl⟩, fun m => set_inline, fun m => ?_⟩
  rw [set_code]
  cases c with
  | none =>
    rw [Option.or_none, ite_self]
    exact Option.or_none.symm
  | some c =>
    rw [lookup_cons]
    by_cases h : m = n
    · rw [if_pos h, beq_iff_eq.mpr h]
    · rw [if_neg h, beq_eq_false_iff_ne.mpr h]
      exact Option.or_none.symm

theorem ixgSers_ok (ns : List ℕ) (h : ∀ n ∈ ns, n ≤ p.maxser) : ∃ q, ixgSers c r ns p = .ok q ∧
    Sets p q (match c with | some c => ns.map fun n => (n, c) | none => []) := by
  induction ns generalizing p with
  | nil =>
    refine ⟨p, rfl, ?_⟩
    cases c <;> exact .nil p
  | cons n ns ih =>
    obtain ⟨hn, hns⟩ := forall_mem_cons.mp h
    obtain ⟨q, hq, hsets⟩ := ih (p := p.set n c r) hns
    refine ⟨q, ?_, ?_⟩
    · rw [ixgSers, if_pos hn, hq]
    · cases c with
      | none => exact (Sets.set p n none r).append hsets
      | some c => exact (Sets.set p n (some c) r).append hsets

theorem ixgSers_good {ns : List ℕ} (h : ixgSers c r ns p = .ok q) : ∀ n ∈ ns, n ≤ p.maxser := by
  induction ns generalizing p with
  | nil => exact fun n hn => absurd hn not_mem_nil
  | cons n ns ih =>
    rw [ixgSers] at h
    split at h
    next hn => exact forall_mem_cons.mpr ⟨hn, ih (p := p.set n c r) h⟩
    next => exact absurd h nofun

theorem ixgsetup_ok (xs : List Ixg)
    (h : ∀ x ∈ xs, 0 ≤ x.cnt.toInt ∧ ∀ m ∈ x.ser.take x.cnt.toNat, m ≤ p.maxser) :
    ∃ q, ixgsetup xs p = .ok q ∧ Sets p q (xs.flatMap Ixg.names) := by
  induction xs generalizing p with
  | nil => exact ⟨p, rfl, .nil p⟩
  | cons x xs ih =>
    obtain ⟨⟨hcnt, hser⟩, hxs⟩ := forall_mem_cons.mp h
    obtain ⟨o, ho, hsets⟩ := ixgSers_ok (c := (ixgCode x.type).1) (r := (ixgCode x.type).2) _ hser
    obtain ⟨q, hq, hrest⟩ := ih (p := o) (by rw [hsets.same.maxser]; exact hxs)
    refine ⟨q, ?_, ?_⟩
    · rw [ixgsetup, if_neg (by omega)]
      dsimp only
      rw [ho]
      exact hq
    · rw [flatMap_cons]
      exact hsets.append hrest

theorem ixgsetup_good {xs : List Ixg} (h : ixgsetup xs p = .ok q) :
    ∀ x ∈ xs, 0 ≤ x.cnt.toInt ∧ ∀ m ∈ x.ser.take x.cnt.toNat, m ≤ p.maxser := by
  induction xs generalizing p with
  | nil => exact fun x hx => absurd hx not_mem_nil
  | cons x xs ih =>
    rw [ixgsetup] at h
    split at h
    next => exact absurd h nofun
    next hcnt =>
      cases ho : ixgSers (ixgCode x.type).1 (ixgCode x.type).2 (x.ser.take x.cnt.toNat) p with
      | error e =>
        dsimp only at h
        rw [ho] at h
        exact absurd h nofun
      | ok o =>
        dsimp only at h
        rw [ho] at h
        have hser := ixgSers_good ho
        obtain ⟨o', ho', hsets⟩ := ixgSers_ok (c := (ixgCode x.type).1) (r := (ixgCode x.type).2) _ hser
        obtain rfl : o' = o := Except.ok.inj (ho'.symm.trans ho)
        have hrest := ih (p := o') h
        rw [hsets.same.maxser] at hrest
        exact forall_mem_cons.mpr ⟨⟨by omega, hser⟩, hrest⟩

end lists

/-! ## The loop -/

section loop

variable {t s p : Deltas} {v : ℕ → Option Code} {n : ℕ} {f : Bool}

/-- `setup` has done the deltas above `n`. -/
structure At (t : Deltas) (v : ℕ → Option Code) (n : ℕ) (s : Deltas) : Prop where
  same : SameTable t s
  low : ∀ m ≤ n, (s.apply m).code = (t.apply m).code.or (((above t.maxser n).flatMap (names t v)).lookup m)
  high : ∀ m, n < m → m ≤ t.maxser → (s.apply m).code = v m
  inline : ∀ m ≤ n, (s.apply m).inline = true ↔
    (t.apply m).inline = true ∨ ∃ k, n < k ∧ k ≤ t.maxser ∧ InLine t k ∧ (t.idel k).pred = m

theorem At.start (t : Deltas) (v : ℕ → Option Code) : At t v t.maxser t := by
  refine ⟨.refl t, fun m _ => ?_, fun m hlt hle => absurd hle (Nat.not_le.mpr hlt), fun m _ => ⟨.inl, ?_⟩⟩
  · rw [above_self]
    exact Option.or_none.symm
  · rintro (h | ⟨k, hlt, hle, _⟩)
    · exact h
    · exact absurd hle (Nat.not_le.mpr hlt)

theorem At.inLine (h : At t v n s) : (s.apply n).inline = true ↔ InLine t n := by
  rw [h.inline n (Nat.le_refl n)]
  constructor
  · rintro (hbase | ⟨k, hlt, hle, hk, rfl⟩)
    · exact .base hbase
    · exact .pred hk hle hlt
  · intro hn
    cases hn with
    | base hbase => exact .inl hbase
    | pred hk hle hlt => exact .inr ⟨_, hlt, hle, hk, rfl⟩

/-- The delta has its own code. -/
structure Own (t : Deltas) (v : ℕ → Option Code) (n : ℕ) (s p : Deltas) : Prop where
  same : SameTable t p
  code : (p.apply n).code = v n
  other : ∀ m ≠ n, (p.apply m).code = (s.apply m).code
  inline : ∀ m < n, (p.apply m).inline = true ↔ (s.apply m).inline = true ∨ InLine t n ∧ (t.idel n).pred = m

theorem mark_code {k m : ℕ} : ((p.mark k).apply m).code = (p.apply m).code := by
  by_cases h : m = k
  · subst h
    dsimp only [Deltas.mark]
    rw [update_self]
  · dsimp only [Deltas.mark]
    rw [update_of_ne h]

theorem mark_inline {k m : ℕ} : ((p.mark k).apply m).inline = true ↔ (p.apply m).inline = true ∨ k = m := by
  by_cases h : m = k
  · subst h
    dsimp only [Deltas.mark]
    rw [update_self]
    exact ⟨fun _ => .inr rfl, fun _ => rfl⟩
  · dsimp only [Deltas.mark]
    rw [update_of_ne h]
    exact (or_iff_left (Ne.symm h)).symm

/-- A delta that has no code yet gets the standing one. -/
theorem At.own (h : At t v n s) (hv : Solves t v) (hpos : 0 < n) (hle : n ≤ t.maxser) {q : Deltas} {r : BitVec 32}
    (hsame : SameTable s q) (hcode : ∀ m, (q.apply m).code = (s.apply m).code)
    (hinline : ∀ m < n, (q.apply m).inline = true ↔ (s.apply m).inline = true ∨ InLine t n ∧ (t.idel n).pred = m) :
    Own t v n s (q.set n (some (standing t n)) r) := by
  refine ⟨h.same.trans (hsame.trans ⟨rfl, rfl, rfl⟩), ?_, fun m hm => ?_, fun m hm => ?_⟩
  · rw [set_code, if_pos rfl, hcode, h.low n (Nat.le_refl n), hv n hpos hle]
    rfl
  · rw [set_code, if_neg hm, hcode]
  · rw [set_inline]
    exact hinline m hm

theorem setupAt_ok (h : At t v n s) (hv : Solves t v) (hpos : 0 < n) (hle : n ≤ t.maxser)
    (hgood : InLine t n → (n = 1 ∨ (t.idel n).pred ≠ 0) ∧ (t.idel n).pred ≤ t.maxser) (f : Bool) :
    ∃ g q, setupAt n f s = .ok (g, q) ∧ Own t v n s q := by
  unfold setupAt
  dsimp only
  by_cases hin : (s.apply n).inline = true
  · have hline := h.inLine.mp hin
    obtain ⟨hfirst, hmax⟩ := hgood hline
    have hidel : s.idel n = t.idel n := by rw [h.same.idel]
    have hown : ∀ m < n, ((s.mark (t.idel n).pred).apply m).inline = true ↔
        (s.apply m).inline = true ∨ InLine t n ∧ (t.idel n).pred = m := fun m _ =>
      mark_inline.trans (or_congr_right (and_iff_right hline).symm)
    rw [if_pos hin, hidel, if_neg (by tauto), if_neg (by rw [h.same.maxser]; exact Nat.not_lt.mpr hmax),
      h.same.cutoff]
    by_cases hcut : t.cutoff.slt (t.idel n).datetime = true
    · have hstand : standing t n = .noapply := if_neg fun hc => hc.2 hcut
      rw [if_pos hcut, ← hstand]
      exact ⟨f, _, rfl, h.own hv hpos hle ⟨rfl, rfl, rfl⟩ (fun m => mark_code) hown⟩
    · have hstand : standing t n = .apply := if_pos ⟨hline, hcut⟩
      rw [if_neg hcut, ← hstand]
      refine ⟨false, _, rfl, ?_⟩
      cases f with
      | true => exact h.own hv hpos hle ⟨rfl, rfl, h.same.cutoff.symm⟩ (fun m => mark_code) hown
      | false => exact h.own hv hpos hle ⟨rfl, rfl, rfl⟩ (fun m => mark_code) hown
  · have hline : ¬InLine t n := fun hc => hin (h.inLine.mpr hc)
    have hstand : standing t n = .noapply := if_neg fun hc => hline hc.1
    rw [if_neg hin, ← hstand]
    exact ⟨f, _, rfl, h.own hv hpos hle (.refl s) (fun _ => rfl) fun m _ =>
      (or_iff_left fun hc => hline hc.1).symm⟩

theorem setupAt_good (h : At t v n s) {g : Bool} {q : Deltas} (hok : setupAt n f s = .ok (g, q)) :
    InLine t n → (n = 1 ∨ (t.idel n).pred ≠ 0) ∧ (t.idel n).pred ≤ t.maxser := by
  intro hline
  unfold setupAt at hok
  dsimp only at hok
  rw [if_pos (h.inLine.mpr hline), h.same.idel, h.same.maxser] at hok
  split at hok
  next => exact absurd hok nofun
  next hfirst =>
    split at hok
    next => exact absurd hok nofun
    next hmax => exact ⟨by tauto, Nat.not_lt.mp hmax⟩

/-- The lists of the delta are done. -/
theorem Own.at {q : Deltas} (h : At t v (n + 1) s) (hv : Solves t v) (hle : n + 1 ≤ t.maxser)
    (hown : Own t v (n + 1) s p) (hsets : Sets p q (names t v (n + 1))) : At t v n q := by
  refine ⟨hown.same.trans hsets.same, fun m hm => ?_, fun m hlt hmax => ?_, fun m hm => ?_⟩
  · rw [hsets.code, hown.other m (by omega), h.low m (by omega), flatMap_above_succ hle, lookup_append,
      Option.or_assoc]
  · have hcode : (p.apply m).code = v m := by
      by_cases heq : m = n + 1
      · rw [heq, hown.code]
      · rw [hown.other m heq, h.high m (by omega) hmax]
    obtain ⟨c, hc⟩ := Option.ne_none_iff_exists'.mp (hv.ne_none (by omega) hmax)
    rw [hsets.code, hcode, hc]
    rfl
  · rw [hsets.inline, hown.inline m (by omega), h.inline m (by omega), or_assoc]
    apply or_congr_right
    constructor
    · rintro (⟨k, hlt, hmax, hk, hpred⟩ | ⟨hk, hpred⟩)
      · exact ⟨k, by omega, hmax, hk, hpred⟩
      · exact ⟨n + 1, Nat.lt_succ_self n, hle, hk, hpred⟩
    · rintro ⟨k, hlt, hmax, hk, hpred⟩
      by_cases heq : k = n + 1
      · subst heq
        exact .inr ⟨hk, hpred⟩
      · exact .inl ⟨k, by omega, hmax, hk, hpred⟩

theorem setupIxg_ok (hown : Own t v n s p) (hgood : Good t v n) :
    ∃ q, setupIxg n p = .ok q ∧ Sets p q (names t v n) := by
  rw [setupIxg, hown.code, hown.same.idel, names]
  by_cases hc : v n = some .apply
  · rw [if_pos hc, if_pos hc]
    apply ixgsetup_ok
    rw [hown.same.maxser]
    exact hgood.ixg hc
  · rw [if_neg hc, if_neg hc]
    exact ⟨p, rfl, .nil p⟩

theorem setupIxg_good {q : Deltas} (hown : Own t v n s p) (hok : setupIxg n p = .ok q) (hc : v n = some .apply) :
    ∀ x ∈ (t.idel n).ixg, 0 ≤ x.cnt.toInt ∧ ∀ m ∈ x.ser.take x.cnt.toNat, m ≤ t.maxser := by
  rw [setupIxg, hown.code, hown.same.idel, if_pos hc] at hok
  rw [← hown.same.maxser]
  exact ixgsetup_good hok

theorem setupLoop_ok (h : At t v n s) (hv : Solves t v) (hle : n ≤ t.maxser)
    (hgood : ∀ m, 0 < m → m ≤ n → Good t v m) (f : Bool) : ∃ q, setupLoop n f s = .ok q ∧ At t v 0 q := by
  induction n generalizing s f with
  | zero => exact ⟨s, rfl, h⟩
  | succ n ih =>
    have hthis := hgood (n + 1) (Nat.succ_pos n) (Nat.le_refl _)
    obtain ⟨g, p, hp, hown⟩ := setupAt_ok h hv (Nat.succ_pos n) hle hthis.pred f
    obtain ⟨o, ho, hsets⟩ := setupIxg_ok hown hthis
    obtain ⟨q, hq, hat⟩ := ih (Own.at h hv hle hown hsets) (by omega)
      (fun m hpos hm => hgood m hpos (Nat.le_succ_of_le hm)) g
    refine ⟨q, ?_, hat⟩
    rw [setupLoop, hp]
    dsimp only [bind, Except.bind]
    rw [ho]
    exact hq

theorem setupLoop_good {q : Deltas} (h : At t v n s) (hv : Solves t v) (hle : n ≤ t.maxser)
    (hok : setupLoop n f s = .ok q) : ∀ m, 0 < m → m ≤ n → Good t v m := by
  induction n generalizing s f with
  | zero => exact fun m hpos hm => absurd hm (Nat.not_le.mpr hpos)
  | succ n ih =>
    rw [setupLoop] at hok
    cases hp : setupAt (n + 1) f s with
    | error e =>
      rw [hp] at hok
      exact absurd hok nofun
    | ok gp =>
      obtain ⟨g, p⟩ := gp
      rw [hp] at hok
      have hpred := setupAt_good h hp
      obtain ⟨g', p', hp', hown⟩ := setupAt_ok h hv (Nat.succ_pos n) hle hpred f
      obtain ⟨rfl, rfl⟩ := Prod.mk.inj (Except.ok.inj (hp'.symm.trans hp))
      dsimp only [bind, Except.bind] at hok
      cases ho : setupIxg (n + 1) p' with
      | error e =>
        rw [ho] at hok
        exact absurd hok nofun
      | ok o =>
        rw [ho] at hok
        have hthis : Good t v (n + 1) := ⟨hpred, setupIxg_good hown ho⟩
        obtain ⟨o', ho', hsets⟩ := setupIxg_ok hown hthis
        obtain rfl : o' = o := Except.ok.inj (ho'.symm.trans ho)
        intro m hpos hm
        rcases Nat.lt_or_eq_of_le hm with hlt | rfl
        · exact ih (Own.at h hv hle hown hsets) (by omega) hok m hpos (Nat.lt_succ_iff.mp hlt)
        · exact hthis

/-- `setup` succeeds if it gets over each delta. -/
theorem setup_ok {serial : ℕ} (hs : serial ≤ t.maxser) (hv : Solves (t.mark serial) v)
    (hgood : ∀ m, 0 < m → m ≤ t.maxser → Good (t.mark serial) v m) :
    ∃ q, setup serial t = .ok q ∧ SameTable t q ∧ ∀ m, 0 < m → m ≤ t.maxser → (q.apply m).code = v m := by
  have hle : t.maxser ≤ (t.mark serial).maxser := Nat.le_refl _
  obtain ⟨q, hq, hat⟩ := setupLoop_ok (.start _ v) hv hle hgood true
  refine ⟨q, ?_, ⟨hat.same.maxser, hat.same.idel, hat.same.cutoff⟩, hat.high⟩
  rw [setup, if_pos hs]
  exact hq

/-- When it succeeds, the codes are those of the rules. -/
theorem setup_good {serial : ℕ} {q : Deltas} (hv : Solves (t.mark serial) v) (hok : setup serial t = .ok q) :
    serial ≤ t.maxser ∧ (∀ m, 0 < m → m ≤ t.maxser → Good (t.mark serial) v m) ∧ SameTable t q ∧
      ∀ m, 0 < m → m ≤ t.maxser → (q.apply m).code = v m := by
  have hs : serial ≤ t.maxser := by
    by_contra hc
    rw [setup, if_neg hc] at hok
    exact absurd hok nofun
  have hloop : setupLoop t.maxser true (t.mark serial) = .ok q := by
    rw [setup, if_pos hs] at hok
    exact hok
  have hgood := setupLoop_good (.start _ v) hv (Nat.le_refl t.maxser) hloop
  obtain ⟨q', hq', hsame, hcodes⟩ := setup_ok hs hv hgood
  obtain rfl : q' = q := Except.ok.inj (hq'.symm.trans hok)
  exact ⟨hs, hgood, hsame, hcodes⟩

end loop

end Svr3.Sccs
