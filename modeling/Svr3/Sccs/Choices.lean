import Svr3.Sccs.Setup

/-!
# What the user chose

`mkixg` finds the choices of the user by their reasons after `setup`. A reason that is exactly that of a list
shows a choice; a list of the `IGNORE` type can add a bit, and then the choice is not found.
-/

namespace Svr3.Sccs

open Function

/-- The reason of a choice -/
def Code.user : Code → BitVec 32
  | .apply => INCLUSER
  | .noapply => EXCLUSER

/-- An element of `p_apply` for which the user chose `c` -/
def Chosen (c : Option Code) (ap : Ap) : Prop :=
  match c with
  | some c => ap.code = some c ∧ (ap.reason = c.user ∨ ap.reason = c.user ||| IGNR)
  | none => ap.reason.getLsbD 5 = true → ap.reason.getLsbD 6 = true

section reasons

variable {c d : Option Code} {r : BitVec 32} {ap : Ap} {p q : Deltas} {n : ℕ}

theorem Chosen.condset (h : Chosen c ap) (huser : r.getLsbD 5 = false) (hignr : d = none → r = IGNR) :
    Chosen c (condset d r ap) := by
  cases c with
  | none =>
    -- a bit is added at most
    have hor : (ap.reason ||| r).getLsbD 5 = true → (ap.reason ||| r).getLsbD 6 = true := by
      rw [BitVec.getLsbD_or, BitVec.getLsbD_or, huser, Bool.or_false, Bool.or_eq_true]
      exact fun h5 => .inl (h h5)
    cases d with
    | none => exact hor
    | some d =>
      rw [Sccs.condset]
      split
      · exact hor
      · exact h
  | some c =>
    obtain ⟨hcode, hreason⟩ := h
    cases d with
    | none =>
      obtain rfl := hignr rfl
      refine ⟨hcode, .inr ?_⟩
      change ap.reason ||| IGNR = _
      rcases hreason with hr | hr
      · rw [hr]
      · rw [hr, BitVec.or_assoc, BitVec.or_self]
    | some d =>
      rw [Sccs.condset, if_neg (by rw [hcode]; rintro ⟨⟩)]
      exact ⟨hcode, hreason⟩

/-- A reason that is exactly that of a choice -/
theorem Chosen.of_user {e : Code} (h : Chosen c ap) (hr : ap.reason = e.user) : c = some e := by
  cases c with
  | none =>
    have h6 := h (by rw [hr]; cases e <;> decide)
    rw [hr] at h6
    cases e <;> exact absurd h6 (by decide)
  | some c =>
    obtain ⟨-, h1 | h1⟩ := h
    all_goals
      rw [hr] at h1
      cases c <;> cases e <;> first | rfl | exact absurd h1 (by decide)

/-- Every element keeps what was chosen for it. -/
def AllChosen (choice : ℕ → Option Code) (p : Deltas) : Prop := ∀ m, Chosen (choice m) (p.apply m)

variable {choice : ℕ → Option Code}

theorem AllChosen.set (h : AllChosen choice p) (huser : r.getLsbD 5 = false) (hignr : d = none → r = IGNR) :
    AllChosen choice (p.set n d r) := by
  intro m
  by_cases hm : m = n
  · subst hm
    dsimp only [Deltas.set]
    rw [update_self]
    exact (h m).condset huser hignr
  · dsimp only [Deltas.set]
    rw [update_of_ne hm]
    exact h m

theorem AllChosen.mark (h : AllChosen choice p) : AllChosen choice (p.mark n) := by
  intro m
  by_cases hm : m = n
  · subst hm
    dsimp only [Deltas.mark]
    rw [update_self]
    have hm := h m
    cases hc : choice m with
    | none =>
      rw [hc] at hm
      exact hm
    | some c =>
      rw [hc] at hm
      exact hm
  · dsimp only [Deltas.mark]
    rw [update_of_ne hm]
    exact h m

theorem AllChosen.ixgSers {ns : List ℕ} (h : AllChosen choice p) (huser : r.getLsbD 5 = false)
    (hignr : d = none → r = IGNR) (hok : ixgSers d r ns p = .ok q) : AllChosen choice q := by
  induction ns generalizing p with
  | nil =>
    obtain rfl := Except.ok.inj hok
    exact h
  | cons n ns ih =>
    rw [Sccs.ixgSers] at hok
    split at hok
    · exact ih (h.set huser hignr) hok
    · cases hok

theorem ixgCode_reason (type : Char) :
    (ixgCode type).2.getLsbD 5 = false ∧ ((ixgCode type).1 = none → (ixgCode type).2 = IGNR) := by
  unfold ixgCode
  split
  · exact ⟨by decide, nofun⟩
  · split
    · exact ⟨by decide, nofun⟩
    · exact ⟨by decide, fun _ => rfl⟩

theorem AllChosen.ixgsetup {xs : List Ixg} (h : AllChosen choice p) (hok : ixgsetup xs p = .ok q) :
    AllChosen choice q := by
  induction xs generalizing p with
  | nil =>
    obtain rfl := Except.ok.inj hok
    exact h
  | cons x xs ih =>
    rw [Sccs.ixgsetup] at hok
    split at hok
    · cases hok
    · dsimp only at hok
      cases ho : Sccs.ixgSers (ixgCode x.type).1 (ixgCode x.type).2 (x.ser.take x.cnt.toNat) p with
      | error e =>
        rw [ho] at hok
        cases hok
      | ok o =>
        rw [ho] at hok
        obtain ⟨huser, hignr⟩ := ixgCode_reason x.type
        exact ih (h.ixgSers huser hignr ho) hok

theorem AllChosen.setupAt {f : Bool} {r : Bool × Deltas} (h : AllChosen choice p) (hok : setupAt n f p = .ok r) :
    AllChosen choice r.2 := by
  have hgot {s : Sid} (h : AllChosen choice p) : AllChosen choice (if f then { p with gotsid := s } else p) := by
    cases f <;> exact h
  unfold Sccs.setupAt at hok
  dsimp only at hok
  split at hok
  · split at hok
    · exact absurd hok nofun
    · split at hok
      · exact absurd hok nofun
      · split at hok
        · obtain rfl := Except.ok.inj hok
          exact h.mark.set (by decide) nofun
        · obtain rfl := Except.ok.inj hok
          exact (hgot h).mark.set (by decide) nofun
  · obtain rfl := Except.ok.inj hok
    exact h.set (by decide) nofun

theorem AllChosen.setupLoop {f : Bool} (h : AllChosen choice p) (hok : setupLoop n f p = .ok q) :
    AllChosen choice q := by
  induction n generalizing p f with
  | zero =>
    obtain rfl := Except.ok.inj hok
    exact h
  | succ n ih =>
    rw [Sccs.setupLoop] at hok
    cases hr : Sccs.setupAt (n + 1) f p with
    | error e =>
      rw [hr] at hok
      cases hok
    | ok r =>
      rw [hr] at hok
      dsimp only [bind, Except.bind] at hok
      cases ho : setupIxg (n + 1) r.2 with
      | error e =>
        rw [ho] at hok
        cases hok
      | ok o =>
        rw [ho] at hok
        apply ih _ hok
        rw [setupIxg] at ho
        split at ho
        · exact (h.setupAt hr).ixgsetup ho
        · obtain rfl := Except.ok.inj ho
          exact h.setupAt hr

theorem AllChosen.setup {serial : ℕ} (h : AllChosen choice p) (hok : setup serial p = .ok q) :
    AllChosen choice q := by
  rw [Sccs.setup] at hok
  split at hok
  · exact h.mark.setupLoop hok
  · cases hok

end reasons

/-! ## The lists of the user -/

section lists

variable {p q : Deltas} {ch : Char} {P : Deltas → Prop}

theorem enterSids_keeps (henter : ∀ n p q, P p → enter ch n p = .ok q → P q) {next : Sid → Sid}
    {more : Sid → Bool} {k : ℕ} {sid : Sid} (h : P p) (hok : enterSids ch next more k sid p = .ok q) : P q := by
  induction k generalizing sid p with
  | zero => exact absurd hok nofun
  | succ k ih =>
    rw [enterSids] at hok
    split at hok
    · cases ho : enter ch (sidtoser sid p) p with
      | error e =>
        rw [ho] at hok
        exact absurd hok nofun
      | ok o =>
        rw [ho] at hok
        exact ih (henter _ _ _ h ho) hok
    · obtain rfl := Except.ok.inj hok
      exact h

theorem enterRels_keeps (henter : ∀ n p q, P p → enter ch n p = .ok q → P q) {lowsid : Sid}
    {rels : List (BitVec 32)} (h : P p) (hok : enterRels ch lowsid rels p = .ok q) : P q := by
  induction rels generalizing p with
  | nil =>
    obtain rfl := Except.ok.inj hok
    exact h
  | cons rel rels ih =>
    rw [enterRels] at hok
    cases ho : enterSids ch (fun s => { s with lev := s.lev + 1 }) (fun _ => true) (p.maxser + 1)
        ⟨rel, if rel = lowsid.rel then lowsid.lev else 1, 0, 0⟩ p with
    | error e =>
      rw [ho] at hok
      exact absurd hok nofun
    | ok o =>
      rw [ho] at hok
      exact ih (enterSids_keeps henter h ho) hok

theorem enterRange_keeps (henter : ∀ n p q, P p → enter ch n p = .ok q → P q) {lowsid highsid : Sid} (h : P p)
    (hok : enterRange ch lowsid highsid p = .ok q) : P q := by
  rw [enterRange] at hok
  split at hok
  · split at hok
    · exact absurd hok nofun
    · split at hok
      · exact absurd hok nofun
      · exact enterRels_keeps henter h hok
  · split at hok
    · exact absurd hok nofun
    · exact enterSids_keeps henter h hok

theorem enterItem_keeps (henter : ∀ n p q, P p → enter ch n p = .ok q → P q) {list : List Char}
    {r : Deltas × List Char} (h : P p) (hok : enterItem ch list p = .ok r) : P r.1 := by
  unfold enterItem at hok
  cases hlow : getasid list with
  | error e =>
    rw [hlow] at hok
    exact absurd hok nofun
  | ok low =>
    rw [hlow] at hok
    dsimp only [bind, Except.bind] at hok
    split at hok
    next list' _ =>
      cases hhigh : getasid list' with
      | error e =>
        rw [hhigh] at hok
        exact absurd hok nofun
      | ok high =>
        rw [hhigh] at hok
        dsimp only at hok
        cases ho : enterRange ch low.1 high.1 p with
        | error e =>
          rw [ho] at hok
          exact absurd hok nofun
        | ok o =>
          rw [ho] at hok
          obtain rfl := Except.ok.inj hok
          exact enterRange_keeps henter h ho
    next =>
      split at hok
      · cases ho : enter ch (sidtoser low.1 p) p with
        | error e =>
          rw [ho] at hok
          exact absurd hok nofun
        | ok o =>
          rw [ho] at hok
          obtain rfl := Except.ok.inj hok
          exact henter _ _ _ h ho
      · obtain rfl := Except.ok.inj hok
        exact h

/-- What holds after each `enter` holds after `dolist`. -/
theorem dolist_keeps (henter : ∀ n p q, P p → enter ch n p = .ok q → P q) {list : List Char} (h : P p)
    (hok : dolist list ch p = .ok q) : P q := by
  have hgo {k : ℕ} {list : List Char} {p : Deltas} (h : P p) (hok : dolistLoop ch k list p = .ok q) : P q := by
    induction k generalizing list p with
    | zero =>
      cases list with
      | nil =>
        obtain rfl := Except.ok.inj hok
        exact h
      | cons c cs => exact absurd hok nofun
    | succ k ih =>
      cases list with
      | nil =>
        obtain rfl := Except.ok.inj hok
        exact h
      | cons c cs =>
        rw [dolistLoop] at hok
        · cases hr : enterItem ch (c :: cs) p with
          | error e =>
            rw [hr] at hok
            exact absurd hok nofun
          | ok r =>
            rw [hr] at hok
            exact ih (enterItem_keeps henter h hr) hok
        · exact nofun
  exact hgo h hok

/-- The packet after some of the lists: includes, excludes, ignores -/
structure Entered (p0 : Deltas) (inc exc ign : Bool) (p : Deltas) : Prop where
  same : SameTable p0 p
  inline : ∀ m, (p.apply m).inline = false
  chosen : ∀ m, Chosen (p.apply m).code (p.apply m)
  fresh : ign = false → ∀ m, (p.apply m).code = none → (p.apply m).reason = 0
  date : ∀ m, (p.apply m).code ≠ none → (p.idel m).datetime.slt p.cutoff = true
  inc : ∀ m, (p.apply m).code = some .apply → inc = true
  exc : ∀ m, (p.apply m).code = some .noapply → exc = true

variable {p0 : Deltas} {inc exc ign : Bool} {n : ℕ}

/-- `enter` on an element without a code -/
theorem Entered.choose {c : Code} (h : Entered p0 inc exc false p) (hnone : (p.apply n).code = none)
    (hdate : (p.idel n).datetime.slt p.cutoff = true) (hinc : c = .apply → inc = true)
    (hexc : c = .noapply → exc = true) : Entered p0 inc exc false (p.set n (some c) c.user) := by
  have happly : (p.set n (some c) c.user).apply n = ⟨(p.apply n).inline, some c, c.user⟩ := by
    dsimp only [Deltas.set]
    rw [update_self, condset, if_pos hnone, h.fresh rfl n hnone]
    exact congrArg _ BitVec.zero_or
  have hother {m : ℕ} (hm : m ≠ n) : (p.set n (some c) c.user).apply m = p.apply m := update_of_ne hm _ _
  refine ⟨h.same.trans ⟨rfl, rfl, rfl⟩, fun m => set_inline.trans (h.inline m), fun m => ?_, fun _ m => ?_,
    fun m => ?_, fun m => ?_, fun m => ?_⟩
  · by_cases hm : m = n
    · rw [hm, happly]
      exact ⟨rfl, .inl rfl⟩
    · rw [hother hm]
      exact h.chosen m
  · by_cases hm : m = n
    · rw [hm, happly]
      rintro ⟨⟩
    · rw [hother hm]
      exact h.fresh rfl m
  · by_cases hm : m = n
    · rw [hm, happly]
      exact fun _ => hdate
    · rw [hother hm]
      exact h.date m
  · by_cases hm : m = n
    · rw [hm, happly]
      exact fun hc => hinc (Option.some.inj hc)
    · rw [hother hm]
      exact h.inc m
  · by_cases hm : m = n
    · rw [hm, happly]
      exact fun hc => hexc (Option.some.inj hc)
    · rw [hother hm]
      exact h.exc m

theorem Entered.ignore (h : Entered p0 inc exc ign p) (hnone : (p.apply n).code = none) :
    Entered p0 inc exc true (p.set n none IGNRUSER) := by
  have hcode (m : ℕ) : ((p.set n none IGNRUSER).apply m).code = (p.apply m).code := by
    rw [set_code, Option.or_none, ite_self]
  refine ⟨h.same.trans ⟨rfl, rfl, rfl⟩, fun m => set_inline.trans (h.inline m), fun m => ?_, nofun,
    fun m => ?_, fun m => ?_, fun m => ?_⟩
  · rw [hcode]
    by_cases hm : m = n
    · rw [hm, hnone]
      dsimp only [Deltas.set]
      rw [update_self]
      intro _
      change ((p.apply n).reason ||| IGNRUSER).getLsbD 6 = true
      rw [BitVec.getLsbD_or, Bool.or_eq_true]
      exact .inr (by decide)
    · dsimp only [Deltas.set]
      rw [update_of_ne hm]
      exact h.chosen m
  · rw [hcode]
    exact h.date m
  · rw [hcode]
    exact h.inc m
  · rw [hcode]
    exact h.exc m

theorem enter_include (h : Entered p0 true exc false p) (hok : enter INCLUDE n p = .ok q) :
    Entered p0 true exc false q := by
  unfold enter at hok
  split at hok
  next hdate =>
    split at hok
    next hnone =>
      rw [if_pos rfl] at hok
      obtain rfl := Except.ok.inj hok
      exact h.choose hnone hdate (fun _ => rfl) nofun
    next => exact absurd hok nofun
    next => exact absurd hok nofun
  next =>
    obtain rfl := Except.ok.inj hok
    exact h

theorem enter_exclude (h : Entered p0 inc true false p) (hok : enter EXCLUDE n p = .ok q) :
    Entered p0 inc true false q := by
  unfold enter at hok
  split at hok
  next hdate =>
    split at hok
    next hnone =>
      rw [if_neg (by decide), if_pos rfl] at hok
      obtain rfl := Except.ok.inj hok
      exact h.choose hnone hdate nofun fun _ => rfl
    next => exact absurd hok nofun
    next => exact absurd hok nofun
  next =>
    obtain rfl := Except.ok.inj hok
    exact h

theorem enter_ignore (h : Entered p0 inc exc true p) (hok : enter IGNORE n p = .ok q) :
    Entered p0 inc exc true q := by
  unfold enter at hok
  split at hok
  next hdate =>
    split at hok
    next hnone =>
      rw [if_neg (by decide), if_neg (by decide), if_pos rfl] at hok
      obtain rfl := Except.ok.inj hok
      exact h.ignore hnone
    next => exact absurd hok nofun
    next => exact absurd hok nofun
  next =>
    obtain rfl := Except.ok.inj hok
    exact h

/-- After the lists of the user, a code is a choice. -/
theorem doie_entered {ilist elist glist : Option (List Char)} (h0 : ∀ m, p0.apply m = ⟨false, none, 0⟩)
    (hok : doie ilist elist glist p0 = .ok p) : Entered p0 ilist.isSome elist.isSome glist.isSome p := by
  have hstart {inc exc : Bool} : Entered p0 inc exc false p0 := by
    refine ⟨.refl p0, fun m => ?_, fun m => ?_, fun _ m _ => ?_, fun m hm => ?_, fun m hm => ?_, fun m hm => ?_⟩
    · rw [h0]
    · rw [h0]
      exact nofun
    · rw [h0]
    all_goals
      rw [h0] at hm
      exact absurd hm (by decide)
  unfold doie at hok
  cases h1 : (ilist.map (dolist · INCLUDE p0)).getD (.ok p0) with
  | error e =>
    rw [h1] at hok
    exact absurd hok nofun
  | ok p1 =>
    rw [h1] at hok
    dsimp only [bind, Except.bind] at hok
    have hp1 {exc : Bool} : Entered p0 ilist.isSome exc false p1 := by
      cases ilist with
      | none =>
        obtain rfl := Except.ok.inj h1
        exact hstart
      | some l => exact dolist_keeps (fun _ _ _ => enter_include) hstart h1
    cases h2 : (elist.map (dolist · EXCLUDE p1)).getD (.ok p1) with
    | error e =>
      rw [h2] at hok
      exact absurd hok nofun
    | ok p2 =>
      rw [h2] at hok
      dsimp only at hok
      have hp2 : Entered p0 ilist.isSome elist.isSome false p2 := by
        cases elist with
        | none =>
          obtain rfl := Except.ok.inj h2
          exact hp1
        | some l => exact dolist_keeps (fun _ _ _ => enter_exclude) hp1 h2
      cases glist with
      | none =>
        obtain rfl := Except.ok.inj hok
        exact hp2
      | some l =>
        apply dolist_keeps (fun _ _ _ => enter_ignore) _ hok
        exact ⟨hp2.same, hp2.inline, hp2.chosen, nofun, hp2.date, hp2.inc, hp2.exc⟩

end lists

end Svr3.Sccs
