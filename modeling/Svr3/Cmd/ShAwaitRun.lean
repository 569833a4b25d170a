import Mathlib.Data.List.Nodup
import Svr3.Cmd.ShAwait
import Svr3.Lib.Run

/-!
# Children of the shell

`pwlist` has each posted child once, as long as what `wait` returns is among the cells that `await` scans. Holes
before a process do not count for the bound of the scan, so a process can lie behind it.
-/

namespace Svr3.Sh

open List

variable {s t : Sys} {p i : ℤ} {n : ℕ} {pw : List ℤ}

/-! ## Cells -/

theorem scan_drop (p : ℤ) (n : ℕ) (pw : List ℤ) : (scan p n pw).1.drop n = pw.drop n := by
  induction n generalizing pw with
  | zero => simp [scan]
  | succ n ih =>
    cases pw with
    | nil => simp [scan]
    | cons x pw =>
      simp only [scan]
      split <;> simp [ih]

theorem scan_holes (hp : p ≠ 0) (n : ℕ) (pw : List ℤ) :
    (scan p n pw).1.count 0 = pw.count 0 + (scan p n pw).2 := by
  induction n generalizing pw with
  | zero => simp [scan]
  | succ n ih =>
    cases pw with
    | nil => simp [scan]
    | cons x pw =>
      have hih := ih pw
      simp only [scan]
      split
      next hx =>
        subst hx
        rw [count_cons_self, count_cons_of_ne hp]
        omega
      next hx =>
        rw [count_cons, count_cons]
        omega

/-- Other processes stay. -/
theorem scan_other {x : ℤ} (hx : x ≠ 0) (hxp : x ≠ p) (n : ℕ) (pw : List ℤ) :
    (scan p n pw).1.count x = pw.count x := by
  induction n generalizing pw with
  | zero => simp [scan]
  | succ n ih =>
    cases pw with
    | nil => simp [scan]
    | cons y pw =>
      simp only [scan]
      split
      next hy =>
        subst hy
        rw [count_cons_of_ne hx.symm, count_cons_of_ne hxp.symm, ih]
      next => rw [count_cons, count_cons, ih]

/-- What is scanned for is gone, if it is not behind the cells that are scanned. -/
theorem scan_self (hp : p ≠ 0) (hnear : p ∉ pw.drop n) : (scan p n pw).1.count p = 0 := by
  induction n generalizing pw with
  | zero =>
    rw [drop_zero] at hnear
    simpa [scan] using count_eq_zero.mpr hnear
  | succ n ih =>
    cases pw with
    | nil => simp [scan]
    | cons x pw =>
      simp only [scan]
      split
      next => rw [count_cons_of_ne hp.symm, ih hnear]
      next hx => rw [count_cons_of_ne hx, ih hnear]

/-- A cell gets another value. -/
theorem count_set_cell {k : ℕ} {x : ℤ} (hk : pw[k]? = some x) (y z : ℤ) :
    (pw.set k y).count z + (if x = z then 1 else 0) = pw.count z + if y = z then 1 else 0 := by
  obtain ⟨hlt, hx⟩ := List.getElem?_eq_some_iff.mp hk
  have hpos : x = z → 0 < pw.count z := by
    rintro rfl
    exact count_pos_iff.mpr (mem_of_getElem? hk)
  rw [count_set hlt, hx]
  by_cases hxz : x = z
  · have hone := hpos hxz
    by_cases hyz : y = z <;> simp [hxz, hyz] <;> omega
  · by_cases hyz : y = z <;> simp [hxz, hyz]

/-- The first hole is not behind as many cells as are taken. -/
theorem hole_le {k : ℕ} (hk : pw.findIdx? (· = 0) = some k) : pw[k]? = some 0 ∧ k + pw.count 0 ≤ pw.length := by
  obtain ⟨hlt, hzero, hbefore⟩ := List.findIdx?_eq_some_iff_getElem.mp hk
  refine ⟨List.getElem?_eq_some_iff.mpr ⟨hlt, by simpa using hzero⟩, ?_⟩
  have htake : (pw.take k).count 0 = 0 := by
    rw [count_eq_zero]
    intro hin
    obtain ⟨j, hj, hx⟩ := mem_take_iff_getElem.mp hin
    exact hbefore j (by omega) (by simpa using hx)
  have hsplit : pw.count 0 = (pw.drop k).count 0 := by
    conv_lhs => rw [← take_append_drop k pw]
    rw [count_append, htake, Nat.zero_add]
  have hle : (pw.drop k).count 0 ≤ (pw.drop k).length := count_le_length
  rw [length_drop] at hle
  omega

/-- Nothing that `wait` returns is behind the cells that are scanned. -/
def Near (n : ℕ) (turns : List Turn) (pw : List ℤ) : Prop :=
  ∀ x ∈ pw.drop n, x ≠ 0 → ∀ turn ∈ turns, turn.ret.pid ≠ x

theorem Near.forget {shell shell' : Shell} {turns : List Turn} (h : Near n turns shell.pwlist) {m : ℕ}
    (hf : forget i m shell = some shell') : Near n turns shell'.pwlist := by
  rcases forget_cases hf with rfl | ⟨k, -, rfl⟩
  · exact h
  · intro x hx hne
    rw [drop_set] at hx
    split at hx
    · exact h x hx hne
    · rcases mem_or_eq_of_mem_set hx with hx | hx
      · exact h x hx hne
      · exact absurd hx hne

/-! ## The count and the processes -/

/-- Each posted child is in the list once, and `i` once more, besides what a wait for all has left. -/
structure Tally (i : ℤ) (s : Sys) : Prop where
  length : s.shell.pwlist.length = MAXP
  pwc : s.shell.pwc + s.shell.pwlist.count 0 = MAXP
  count : ∀ x, x ≠ 0 → x ≠ -1 → s.shell.pwlist.count x = s.posted.count x + if x = i then 1 else 0
  posted : s.posted.Nodup
  subset : s.posted ⊆ s.children
  children : s.children.Nodup
  pos : ∀ p ∈ s.children, 0 < p

namespace Tally

/-- Neither a hole nor a wait for all is a process. -/
theorem atRest (h : Tally (-1) s) : Tally 0 s :=
  { h with count := fun x hx hx1 => by rw [h.count x hx hx1, if_neg hx, if_neg hx1] }

theorem waitAll (h : Tally 0 s) : Tally (-1) s :=
  { h with count := fun x hx hx1 => by rw [h.count x hx hx1, if_neg hx, if_neg hx1] }

theorem intr (h : Tally i s) (b : Bool) : Tally i { s with shell.wasintr := b } := { h with }

theorem exit (h : Tally i s) (rc : ℕ) : Tally i { s with shell.exitval := rc } := { h with }

/-- A process that is new to the list -/
theorem post (h : Tally 0 s) (hroom : s.shell.pwc + 1 < MAXP) (hp : p ≠ 0) :
    ∃ k, post p s.shell = some { s.shell with pwlist := s.shell.pwlist.set k p, pwc := s.shell.pwc + 1 } ∧
      (k : ℤ) ≤ s.shell.pwc ∧
      Tally p { s with shell := { s.shell with pwlist := s.shell.pwlist.set k p, pwc := s.shell.pwc + 1 } } := by
  have hhole : 0 ∈ s.shell.pwlist := by
    rw [← count_pos_iff]
    have hpwc := h.pwc
    omega
  obtain ⟨k, hk⟩ : ∃ k, s.shell.pwlist.findIdx? (· = 0) = some k :=
    ⟨_, List.findIdx?_eq_some_of_exists ⟨0, hhole, by simp⟩⟩
  obtain ⟨hcell, hle⟩ := hole_le hk
  have hset := count_set_cell hcell p
  have hfull : ¬s.shell.pwc ≥ (MAXP : ℤ) - 1 := by omega
  refine ⟨k, ?_, ?_, ?_⟩
  · rw [Sh.post, if_neg hp, hk]
    dsimp only
    rw [if_neg hfull]
  · have hpwc := h.pwc
    rw [h.length] at hle
    omega
  · refine { h with length := ?_, pwc := ?_, count := fun x hx hx1 => ?_ }
    · rw [length_set]
      exact h.length
    · have hzero := hset 0
      have hpwc := h.pwc
      rw [if_pos rfl, if_neg hp] at hzero
      dsimp only
      omega
    · have hx' := hset x
      have hold := h.count x hx hx1
      rw [if_neg hx.symm] at hx'
      rw [if_neg hx] at hold
      dsimp only
      rw [if_congr eq_comm rfl rfl]
      omega

/-- The shell makes a child, or posts one. -/
theorem fork (h : Tally 0 s) (hp : 0 < p) (hnew : p ∉ s.children) :
    Tally 0 { s with children := p :: s.children } :=
  { h with
    subset := fun _ hx => mem_cons_of_mem p (h.subset hx)
    children := nodup_cons.mpr ⟨hnew, h.children⟩
    pos := forall_mem_cons.mpr ⟨hp, h.pos⟩ }

theorem posts (h : Tally p s) (hp : p ∈ s.children) (hnew : p ∉ s.posted) :
    Tally 0 { s with posted := p :: s.posted } :=
  { h with
    count := fun x hx hx1 => by
      rw [h.count x hx hx1, count_cons, if_neg hx, Nat.add_zero]
      exact congrArg _ (if_congr (eq_comm.trans beq_iff_eq.symm) rfl rfl)
    posted := nodup_cons.mpr ⟨hnew, h.posted⟩
    subset := cons_subset.mpr ⟨hp, h.subset⟩ }

end Tally

/-! ## What `wait` returns -/

/-- The list after a scan for `p` -/
def scanned (p : ℤ) (n : ℕ) (s : Sys) : Sys :=
  { s with
    shell := { s.shell with
      pwlist := (scan p n s.shell.pwlist).1
      pwc := s.shell.pwc - (scan p n s.shell.pwlist).2
      wasintr := false } }

namespace Tally

/-- A child is found wherever it is in the list, and forgotten. -/
theorem reap (h : Tally i s) (hp : p ∈ s.children) (hnear : p ∉ s.shell.pwlist.drop n) :
    Tally (if p = i then 0 else i)
      (scanned p n { s with children := s.children.erase p, posted := s.posted.erase p }) where
  length := (scan_length p n _).trans h.length
  pwc := by
    have hpwc := h.pwc
    have hholes := scan_holes (Int.ne_of_gt (h.pos p hp)) n s.shell.pwlist
    dsimp only [scanned]
    omega
  count x hx hx1 := by
    change (scan p n s.shell.pwlist).1.count x = (s.posted.erase p).count x + _
    by_cases hxp : x = p
    · subst hxp
      have hno : x ≠ if x = i then 0 else i := by
        split
        next => exact hx
        next hne => exact hne
      rw [scan_self hx hnear, count_eq_zero.mpr h.posted.not_mem_erase, if_neg hno]
    · rw [scan_other hx hxp, count_erase_of_ne hxp, h.count x hx hx1]
      by_cases hpi : p = i
      · rw [if_pos hpi, if_neg (hpi ▸ hxp), if_neg hx]
      · rw [if_neg hpi]
  posted := h.posted.erase p
  subset x hx := by
    have hne : x ≠ p := fun hxp => h.posted.not_mem_erase (hxp ▸ hx)
    exact (mem_erase_of_ne hne).mpr (h.subset (mem_of_mem_erase hx))
  children := h.children.erase p
  pos x hx := h.pos x (mem_of_mem_erase hx)

theorem error (h : Tally i s) (n : ℕ) : Tally i (scanned (-1) n s) where
  length := (scan_length (-1) n _).trans h.length
  pwc := by
    have hpwc := h.pwc
    have hholes := scan_holes (p := -1) (by decide) n s.shell.pwlist
    dsimp only [scanned]
    omega
  count x hx hx1 := (scan_other hx hx1 n _).trans (h.count x hx hx1)
  posted := h.posted
  subset := h.subset
  children := h.children
  pos := h.pos

/-- What was posted for a wait is forgotten. -/
theorem forget (h : Tally i s) (hi : i ≠ 0) {n : ℕ} {shell : Shell}
    (hf : forget i n s.shell = some shell) :
    Tally i { s with shell := shell } ∨ Tally 0 { s with shell := shell } := by
  rcases forget_cases hf with rfl | ⟨k, hcell, rfl⟩
  · exact .inl h
  · have hset := count_set_cell hcell 0
    refine .inr { h with length := ?_, pwc := ?_, count := fun y hy hy1 => ?_ }
    · rw [length_set]
      exact h.length
    · have hzero := hset 0
      have hpwc := h.pwc
      rw [if_neg hi, if_pos rfl] at hzero
      dsimp only
      omega
    · have hy' := hset y
      have hold := h.count y hy hy1
      rw [if_neg hy.symm] at hy'
      rw [if_congr eq_comm rfl rfl] at hold
      rw [if_neg hy]
      dsimp only
      omega

theorem forgets {j : ℤ} (h : Tally j s) (hj : j = i ∨ j = 0) (hi : i ≠ 0) (hnew : i ∉ s.posted) {n : ℕ}
    {shell : Shell} (hf : Sh.forget i n s.shell = some shell) :
    Tally i { s with shell := shell } ∨ Tally 0 { s with shell := shell } := by
  rcases hj with rfl | rfl
  · exact h.forget hi hf
  by_cases hall : i = -1
  · subst hall
    exact h.waitAll.forget hi hf
  · have hno : i ∉ s.shell.pwlist := by
      rw [← count_eq_zero, h.count i hi hall, if_neg hi, count_eq_zero.mpr hnew]
    rcases forget_cases hf with rfl | ⟨k, hcell, -⟩
    · exact .inr h
    · exact absurd (mem_of_getElem? hcell) hno

/-- An empty list -/
theorem done (h : Tally i s) (hpwc : s.shell.pwc = 0) : Tally 0 s :=
  have hempty : ∀ x, x ≠ 0 → s.shell.pwlist.count x = 0 := by
    intro x hx
    have hcount := h.pwc
    have hlen := h.length
    have hall : s.shell.pwlist.count 0 = s.shell.pwlist.length := by omega
    rw [count_eq_zero]
    intro hin
    exact hx (count_eq_length.mp hall x hin).symm
  { h with
    count := fun x hx hx1 => by
      have hold := h.count x hx hx1
      rw [hempty x hx] at hold
      rw [hempty x hx, if_neg hx]
      omega }

end Tally

/-- Signals come only in a wait for all, and not with a child; and a wait for nothing meets no error. -/
def Calm (i : ℤ) (bckg : Bool) : Bool → List Turn → Prop
  | _, [] => True
  | intr, turn :: turns =>
    (bckg = true → ((intr || turn.sigint) = true ∨ turn.ret = .EINTR → i = -1 ∧ turn.ret.pid = -1) ∧
      (turn.ret = .ECHILD → i ≠ 0)) ∧ Calm i bckg false turns

theorem awaitLoop_turn {bckg b : Bool} {turns : List Turn} {rc : ℕ} {ret : Ret} (hpwc : s.shell.pwc ≠ 0)
    (hw : wait ret s = some t) :
    awaitLoop i bckg n (⟨ret, b⟩ :: turns) rc s =
      if (t.shell.wasintr || b) = true ∧ bckg = true then
        some ({ t with shell.wasintr := false, shell.exitval := rc }, turns)
      else if ret.pid = -1 then
        match if bckg = true then forget i n (scanned ret.pid n t).shell else some (scanned ret.pid n t).shell with
        | none => none
        | some shell => awaitLoop i bckg n turns rc { t with shell := shell }
      else if ret.pid = i then
        some ({ scanned ret.pid n t with
          shell.exitval := status rc (scan ret.pid n t.shell.pwlist).2 ret }, turns)
      else awaitLoop i bckg n turns (status rc (scan ret.pid n t.shell.pwlist).2 ret) (scanned ret.pid n t) := by
  rw [awaitLoop, if_neg hpwc]
  simp only [hw]
  rfl

theorem awaitLoop_noChild {bckg b : Bool} {turns : List Turn} {rc : ℕ} {ret : Ret} (hpwc : s.shell.pwc ≠ 0)
    (hret : wait ret s = none) : awaitLoop i bckg n (⟨ret, b⟩ :: turns) rc s = none := by
  simp [awaitLoop, hpwc, hret]

/-- What is left after an error of `wait` -/
theorem error_turn {j : ℤ} {bckg : Bool} {n : ℕ} {shell : Shell} (h : Tally j s) (hj : j = i ∨ j = 0)
    (hforget : bckg = true → i ≠ 0 ∧ i ∉ s.posted)
    (hf : (if bckg = true then forget i n (scanned (-1) n s).shell else some (scanned (-1) n s).shell) = some shell) :
    ∃ j, Tally j { s with shell := shell } ∧ (j = i ∨ j = 0) := by
  cases hb : bckg with
  | false =>
    rw [hb, if_neg Bool.false_ne_true] at hf
    obtain rfl := (Option.some.inj hf).symm
    exact ⟨j, h.error n, hj⟩
  | true =>
    rw [hb, if_pos rfl] at hf
    obtain ⟨hi, hnew⟩ := hforget hb
    rcases (h.error n).forgets hj hi hnew hf with hnext | hnext
    · exact ⟨i, hnext, .inl rfl⟩
    · exact ⟨0, hnext, .inr rfl⟩

/-- What `wait` returns is found, so the list has the children that are left. -/
theorem awaitLoop_tally {j : ℤ} {bckg : Bool} {turns rest : List Turn} {rc : ℕ} (h : Tally j s)
    (hj : j = i ∨ j = 0) (hnear : Near n turns s.shell.pwlist)
    (hcalm : Calm i bckg s.shell.wasintr turns) (hloop : awaitLoop i bckg n turns rc s = some (t, rest)) :
    Tally 0 t := by
  induction turns generalizing s j rc with
  | nil =>
    rw [awaitLoop] at hloop
    split at hloop
    · rename_i hpwc
      obtain ⟨rfl, -⟩ := Prod.mk.inj (Option.some.inj hloop).symm
      exact (h.done hpwc).exit rc
    · exact nomatch hloop
  | cons turn turns ih =>
    obtain ⟨hturn, hcalm⟩ := hcalm
    have hlater : Near n turns s.shell.pwlist := fun x hx hne turn hturn =>
      hnear x hx hne turn (mem_cons_of_mem _ hturn)
    by_cases hpwc : s.shell.pwc = 0
    · rw [awaitLoop, if_pos hpwc] at hloop
      obtain ⟨rfl, -⟩ := Prod.mk.inj (Option.some.inj hloop).symm
      exact (h.done hpwc).exit rc
    obtain ⟨ret, b⟩ := turn
    by_cases herror : ret = .EINTR ∨ ret = .ECHILD ∧ s.children = []
    · have hpid : ret.pid = -1 := by rcases herror with rfl | ⟨rfl, -⟩ <;> rfl
      have hw : wait ret s = some s := by
        rcases herror with rfl | ⟨rfl, hnil⟩
        · rfl
        · exact if_pos hnil
      rw [awaitLoop_turn hpwc hw, if_pos hpid, hpid] at hloop
      have hforget : bckg = true → i ≠ 0 ∧ i ∉ s.posted := by
        intro hb
        rcases herror with rfl | ⟨rfl, hnil⟩
        · obtain ⟨rfl, -⟩ := (hturn hb).1 (.inr rfl)
          exact ⟨by decide, fun hin => absurd (h.pos _ (h.subset hin)) (by decide)⟩
        · have hempty : s.posted = [] := subset_nil.mp (hnil ▸ h.subset)
          exact ⟨(hturn hb).2 rfl, by simp [hempty]⟩
      split at hloop
      · rename_i hintr
        obtain ⟨rfl, -⟩ := Prod.mk.inj (Option.some.inj hloop).symm
        obtain ⟨rfl, -⟩ := (hturn hintr.2).1 (.inl hintr.1)
        rcases hj with rfl | rfl
        · exact (h.atRest.intr false).exit rc
        · exact (h.intr false).exit rc
      · split at hloop
        · exact nomatch hloop
        rename_i shell hf
        obtain ⟨j', hj', hor⟩ := error_turn h hj hforget hf
        have hnext : Near n turns (scanned (-1) n s).shell.pwlist := by
          intro x hx
          exact hlater x (scan_drop (-1) n s.shell.pwlist ▸ hx)
        cases hb : bckg with
        | false =>
          rw [hb, if_neg Bool.false_ne_true] at hf
          obtain rfl := (Option.some.inj hf).symm
          exact ih hj' hor hnext hcalm hloop
        | true =>
          rw [hb, if_pos rfl] at hf
          have hintr : shell.wasintr = false := by
            rcases forget_cases hf with rfl | ⟨k, -, rfl⟩ <;> rfl
          refine ih hj' hor (hnext.forget hf) ?_ hloop
          dsimp only
          rw [hintr]
          exact hcalm
    · cases ret with
      | EINTR => exact absurd (.inl rfl) herror
      | ECHILD =>
        have hno : wait .ECHILD s = none := if_neg fun hnil => herror (.inr ⟨rfl, hnil⟩)
        rw [awaitLoop_noChild hpwc hno] at hloop
        exact nomatch hloop
      | child p w =>
        by_cases hp : p ∈ s.children
        · have hp1 : p ≠ -1 := by
            have hpos := h.pos p hp
            omega
          have hpos : p ≠ 0 := Int.ne_of_gt (h.pos p hp)
          have hreap := h.reap hp fun hin => hnear p hin hpos _ mem_cons_self rfl
          have hw : wait (.child p w) s =
            some { s with children := s.children.erase p, posted := s.posted.erase p } := if_pos hp
          have hpid : (Ret.child p w).pid ≠ -1 := hp1
          rw [awaitLoop_turn hpwc hw, if_neg hpid] at hloop
          split at hloop
          · rename_i hintr
            exact absurd ((hturn hintr.2).1 (.inl hintr.1)).2 hp1
          · split at hloop
            · rename_i hret
              have hpi : p = i := hret
              obtain ⟨rfl, -⟩ := Prod.mk.inj (Option.some.inj hloop).symm
              have hzero : (if p = j then 0 else j) = 0 := by
                rcases hj with rfl | rfl
                · rw [if_pos hpi]
                · rw [ite_self]
              rw [hzero] at hreap
              exact hreap.exit _
            · rename_i hret
              have hpi : p ≠ i := hret
              refine ih hreap ?_ ?_ hcalm hloop
              · rcases hj with rfl | rfl
                · exact .inl (if_neg hpi)
                · exact .inr (ite_self 0)
              · intro x hx
                exact hlater x (scan_drop p n s.shell.pwlist ▸ hx)
        · have hno : wait (.child p w) s = none := if_neg hp
          rw [awaitLoop_noChild hpwc hno] at hloop
          exact nomatch hloop

/-! ## Runs -/

/-- There is room in the list, and what `wait` returns is not behind the bound of the scan; the shell that becomes a
child clears all of the list. -/
def Fair (s : Sys) : Act → Prop
  | .post _ => s.shell.pwc + 1 < MAXP
  | .await i bckg turns => (i ≠ 0 → s.shell.pwc + 1 < MAXP) ∧
      Near (s.shell.pwc + 1).toNat turns s.shell.pwlist ∧ Calm i bckg s.shell.wasintr turns
  | .postclr => ∀ x ∈ s.shell.pwlist.drop (s.shell.pwc + 1).toNat, x = 0
  | _ => True

theorem Tally.boot : Tally 0 boot where
  length := rfl
  pwc := rfl
  count x hx _ := by
    rw [if_neg hx]
    exact count_eq_zero.mpr fun hin => hx (eq_of_mem_replicate hin)
  posted := nodup_nil
  subset := nil_subset _
  children := nodup_nil
  pos _ hp := absurd hp not_mem_nil

theorem clear_eq (n : ℕ) (pw : List ℤ) : clear n pw = List.replicate (min n pw.length) 0 ++ pw.drop n := by
  induction n generalizing pw with
  | zero => simp [clear]
  | succ n ih =>
    cases pw with
    | nil => simp [clear]
    | cons x pw => simp [clear, ih, Nat.add_min_add_right, replicate_succ]

/-- A new shell has no children. -/
theorem Tally.postclr (h : Tally 0 s) (hfar : ∀ x ∈ s.shell.pwlist.drop (s.shell.pwc + 1).toNat, x = 0) :
    Tally 0 ⟨postclr s.shell, [], []⟩ := by
  have hall : ∀ x ∈ clear (s.shell.pwc + 1).toNat s.shell.pwlist, x = 0 := by
    rw [clear_eq]
    intro x hx
    rcases mem_append.mp hx with hx | hx
    · exact eq_of_mem_replicate hx
    · exact hfar x hx
  have hlen : (clear (s.shell.pwc + 1).toNat s.shell.pwlist).length = MAXP := by
    have hold := h.length
    rw [clear_eq, length_append, length_replicate, length_drop]
    omega
  refine ⟨hlen, ?_, fun x hx _ => ?_, nodup_nil, nil_subset _, nodup_nil,
    fun _ hp => absurd hp not_mem_nil⟩
  · have hcount : (clear (s.shell.pwc + 1).toNat s.shell.pwlist).count 0 = MAXP := by
      rw [← hlen, count_eq_length]
      exact fun x hx => (hall x hx).symm
    change (0 : ℤ) + ((clear (s.shell.pwc + 1).toNat s.shell.pwlist).count 0 : ℕ) = MAXP
    rw [hcount, Int.zero_add]
  · rw [if_neg hx]
    exact count_eq_zero.mpr fun hin => hx (hall x hin)

theorem Near.set {turns : List Turn} {k : ℕ} (h : Near n turns pw) (hk : k < n) :
    Near n turns (pw.set k p) := by
  intro x hx
  rw [drop_set_of_lt hk] at hx
  exact h x hx

/-- A wait whose process has room -/
theorem await_loop (h : Tally 0 s) (hroom : i ≠ 0 → s.shell.pwc + 1 < MAXP) {turns : List Turn}
    (hnear : Near (s.shell.pwc + 1).toNat turns s.shell.pwlist) (bckg : Bool) :
    ∃ shell, await i bckg turns s =
        awaitLoop i bckg (s.shell.pwc + 1).toNat turns 0 { s with shell := shell } ∧
      Tally i { s with shell := shell } ∧ Near (s.shell.pwc + 1).toNat turns shell.pwlist ∧
      shell.wasintr = s.shell.wasintr := by
  by_cases hi : i = 0
  · subst hi
    exact ⟨s.shell, by rw [await, post, if_pos rfl], h, hnear, rfl⟩
  · obtain ⟨k, hpost, hk, htally⟩ := h.post (hroom hi) hi
    refine ⟨_, by rw [await, hpost], htally, hnear.set ?_, rfl⟩
    omega

theorem step_tally {a : Act} (h : Tally 0 s) (hfair : Fair s a) (hstep : step s a = some t) : Tally 0 t := by
  cases a with
  | fork p =>
    rw [step] at hstep
    split at hstep
    · rename_i hp
      obtain rfl := (Option.some.inj hstep).symm
      exact h.fork hp.1 hp.2
    · exact nomatch hstep
  | post p =>
    rw [step] at hstep
    split at hstep
    · rename_i hp
      have hp0 : p ≠ 0 := Int.ne_of_gt (h.pos p hp.1)
      obtain ⟨k, hpost, -, htally⟩ := h.post hfair hp0
      rw [hpost] at hstep
      obtain rfl := (Option.some.inj hstep).symm
      exact htally.posts hp.1 hp.2
    · exact nomatch hstep
  | await i bckg turns =>
    obtain ⟨hroom, hnear, hcalm⟩ := hfair
    obtain ⟨shell, heq, htally, hnear, hintr⟩ := await_loop h hroom hnear bckg
    rw [step, heq] at hstep
    split at hstep
    · rename_i u hloop
      obtain rfl := (Option.some.inj hstep).symm
      exact awaitLoop_tally htally (.inl rfl) hnear (hintr.symm ▸ hcalm) hloop
    · exact nomatch hstep
  | postclr =>
    obtain rfl := (Option.some.inj hstep).symm
    exact h.postclr hfair
  | sigint =>
    obtain rfl := (Option.some.inj hstep).symm
    exact h.intr true

/-! ## A wait for all -/

/-- All children exit, and then there are none. -/
def exits (order : List (ℤ × Status)) : List Turn :=
  order.map (fun c => ⟨.child c.1 c.2, false⟩) ++ [⟨.ECHILD, false⟩]

theorem awaitLoop_echild {rc : ℕ} (h : Tally (-1) s) (hnil : s.children = [])
    (hnear : (-1 : ℤ) ∉ s.shell.pwlist.drop n) (hn : n < MAXP) :
    (awaitLoop (-1) true n (exits []) rc s).isSome := by
  have hposted : s.posted = [] := subset_nil.mp (hnil ▸ h.subset)
  by_cases hpwc : s.shell.pwc = 0
  · rw [exits, map_nil, nil_append, awaitLoop, if_pos hpwc]
    rfl
  have hafter := h.error n
  -- nothing is left but holes
  have hholes : ∀ x ∈ (scanned (-1) n s).shell.pwlist, x = 0 := by
    intro x hx
    by_contra hne
    have hpos : 0 < (scanned (-1) n s).shell.pwlist.count x := count_pos_iff.mpr hx
    by_cases hx1 : x = -1
    · subst hx1
      have hself : (scanned (-1) n s).shell.pwlist.count (-1) = 0 := scan_self (by decide) hnear
      omega
    · have hcount := hafter.count x hne hx1
      rw [if_neg hx1] at hcount
      change _ = s.posted.count x + 0 at hcount
      rw [hposted, count_nil] at hcount
      omega
  have hzero : (scanned (-1) n s).shell.pwc = 0 := by
    have hcount := hafter.pwc
    have hall : (scanned (-1) n s).shell.pwlist.count 0 = MAXP := by
      rw [← hafter.length, count_eq_length]
      exact fun x hx => (hholes x hx).symm
    omega
  have hcell : ∃ shell, forget (-1) n (scanned (-1) n s).shell = some shell ∧ shell.pwc = 0 := by
    rw [forget]
    generalize hk : min (((scanned (-1) n s).shell.pwlist.findIdx? (· = -1)).getD n) n = k
    have hlt : k < (scanned (-1) n s).shell.pwlist.length := by
      rw [hafter.length]
      omega
    have hval := hholes _ (getElem_mem hlt)
    rw [List.getElem?_eq_getElem hlt, hval]
    exact ⟨_, rfl, hzero⟩
  obtain ⟨shell, hforget, hdone⟩ := hcell
  have hw : wait .ECHILD s = some s := if_pos hnil
  rw [exits, map_nil, nil_append, awaitLoop_turn hpwc hw]
  split
  · rfl
  · have hpid : Ret.ECHILD.pid = -1 := rfl
    rw [if_pos hpid, if_pos rfl, hpid, hforget]
    dsimp only
    rw [awaitLoop, if_pos hdone]
    rfl

theorem awaitLoop_returns {order : List (ℤ × Status)} {rc : ℕ} (h : Tally (-1) s)
    (horder : (order.map Prod.fst).Perm s.children) (hnear : Near n (exits order) s.shell.pwlist) (hn : n < MAXP) :
    (awaitLoop (-1) true n (exits order) rc s).isSome := by
  induction order generalizing s rc with
  | nil =>
    apply awaitLoop_echild h (nil_perm.mp horder) _ hn
    exact fun hin => hnear (-1) hin (by decide) ⟨.ECHILD, false⟩ (mem_singleton.mpr rfl) rfl
  | cons c order ih =>
    obtain ⟨p, w⟩ := c
    have hp : p ∈ s.children := horder.subset mem_cons_self
    have hpos := h.pos p hp
    change (awaitLoop (-1) true n (⟨.child p w, false⟩ :: exits order) rc s).isSome
    by_cases hpwc : s.shell.pwc = 0
    · rw [awaitLoop, if_pos hpwc]
      rfl
    have hw : wait (.child p w) s =
      some { s with children := s.children.erase p, posted := s.posted.erase p } := if_pos hp
    have hp1 : p ≠ -1 := by omega
    have hpid : (Ret.child p w).pid ≠ -1 := hp1
    rw [awaitLoop_turn hpwc hw, if_neg hpid, if_neg hpid]
    split
    · rfl
    have hreap := h.reap hp fun hin => hnear p hin (by omega) _ mem_cons_self rfl
    rw [if_neg hp1] at hreap
    refine ih hreap ?_ ?_
    · exact (cons_perm_iff_perm_erase.mp horder).2
    · intro x hx hne turn hturn
      have hx' : x ∈ s.shell.pwlist.drop n := scan_drop p n s.shell.pwlist ▸ hx
      exact hnear x hx' hne turn (mem_cons_of_mem _ hturn)

/-! ## What the list is for -/

/-- The list has the children that were posted and have not been waited for, and a wait for all comes to an end. -/
structure Kept (s : Sys) : Prop where
  pwc : s.shell.pwc = s.shell.pwlist.countP (· ≠ 0)
  once : ∀ p ∈ s.posted, s.shell.pwlist.count p = 1
  waited : ∀ x ∈ s.shell.pwlist, x = 0 ∨ x = -1 ∨ x ∈ s.posted
  posted : s.posted ⊆ s.children
  returns : ∀ order : List (ℤ × Status), (order.map Prod.fst).Perm s.children →
    Fair s (.await (-1) true (exits order)) → (await (-1) true (exits order) s).isSome

theorem Tally.kept (h : Tally 0 s) : Kept s where
  pwc := by
    have hcount := h.pwc
    have hlen := h.length
    have hsplit := length_eq_countP_add_countP (fun x : ℤ => decide (x ≠ 0)) (l := s.shell.pwlist)
    have hzero : s.shell.pwlist.countP (fun x => decide ¬decide (x ≠ 0) = true) = s.shell.pwlist.count 0 := by
      rw [List.count]
      congr 1
      funext x
      by_cases hx : x = 0 <;> simp [hx]
    omega
  once p hp := by
    have hpos := h.pos p (h.subset hp)
    have hne : p ≠ 0 := by omega
    rw [h.count p hne (by omega), count_eq_one_of_mem h.posted hp, if_neg hne]
  waited x hx := by
    by_contra hno
    rw [not_or, not_or] at hno
    have hpos : 0 < s.shell.pwlist.count x := count_pos_iff.mpr hx
    rw [h.count x hno.1 hno.2.1, if_neg hno.1, count_eq_zero.mpr hno.2.2] at hpos
    omega
  posted := h.subset
  returns order horder hfair := by
    obtain ⟨hroom, hnear, -⟩ := hfair
    have hfull := hroom (by decide)
    have hmax : MAXP = 20 := rfl
    obtain ⟨shell, heq, htally, hnear, -⟩ := await_loop h hroom hnear true
    rw [heq]
    apply awaitLoop_returns htally horder hnear
    omega

/-- No child is lost in runs whose waits find what they receive. -/
theorem fair_kept {as : List Act} (hrun : Run (fun s a t => Fair s a ∧ step s a = some t) boot as s) : Kept s := by
  have htally : Tally 0 s :=
    hrun.invariant (fun _ _ _ h hn => step_tally h hn.1 hn.2) Tally.boot
  exact htally.kept

/-- A child that exits -/
def exited (p : ℤ) : Turn := ⟨.child p ⟨0, 0⟩, false⟩

theorem fair_kept_pipe : Kept ⟨⟨List.replicate MAXP 0, 0, false, 0⟩, [], []⟩ := by
  apply @fair_kept _ [.fork 7, .post 7, .fork 8, .await 8 false [exited 7, exited 8]]
  refine .cons ⟨trivial, rfl⟩ <| .cons ⟨?_, rfl⟩ <| .cons ⟨trivial, rfl⟩ <| .cons ⟨⟨?_, ?_, ?_⟩, rfl⟩ <| .nil _
  · exact (by decide : (0 : ℤ) + 1 < MAXP)
  · exact fun _ => (by decide : (1 : ℤ) + 1 < MAXP)
  · intro x hx hne
    exact absurd (eq_of_mem_replicate hx) hne
  · exact ⟨nofun, nofun, trivial⟩

/-- Two children are waited for with a third, and then the last one is behind the bound of the next wait. -/
theorem child_not_found : ¬∀ (as : List Act) (s : Sys),
    Run (fun s a t => s.shell.pwc + 1 < (MAXP : ℤ) ∧ step s a = some t) boot as s → Kept s := by
  intro hall
  have hkept := hall [.fork 2, .post 2, .fork 3, .post 3, .fork 4, .post 4, .fork 5,
      .await 5 false [exited 2, exited 3, exited 5], .fork 6, .await 6 false [exited 4, exited 6]] _ <|
    .cons ⟨by decide, rfl⟩ <| .cons ⟨by decide, rfl⟩ <| .cons ⟨by decide, rfl⟩ <| .cons ⟨by decide, rfl⟩ <|
    .cons ⟨by decide, rfl⟩ <| .cons ⟨by decide, rfl⟩ <| .cons ⟨by decide, rfl⟩ <| .cons ⟨by decide, rfl⟩ <|
    .cons ⟨by decide, rfl⟩ <| .cons ⟨by decide, rfl⟩ <| .nil _
  rcases hkept.waited 4 (by decide) with h | h | h
  · exact absurd h (by decide)
  · exact absurd h (by decide)
  · exact absurd h not_mem_nil

end Svr3.Sh
