import Svr3.Io.Sem

/-!
# `semop` is all or nothing

The operations done before a failing one are undone in reverse. What makes this exact is that
`semaoe` cannot fail on the way back: the values are in bounds, an entry that vanished left room
for itself, and the process has its undo structure by then.
-/

namespace Svr3.Ipc

open Function List

/-- The entries of process `p`. -/
def tbl (p : ℕ) (s : Sys) : List Undo :=
  match s.sem_undo p with
  | none => []
  | some up => s.un_ent up

/-- The state of semaphores and undo structures that the routines keep. -/
structure WF (info : Seminfo) (s : Sys) : Prop where
  owned : ∀ p q up, s.sem_undo p = some up → s.sem_undo q = some up → p = q
  free : ∀ up ∈ s.semfup, s.un_ent up = [] ∧ ∀ p, s.sem_undo p ≠ some up
  nodup : s.semfup.Nodup
  table : ∀ up, Table info (s.un_ent up)
  semval : ∀ n, ((s.sem n).semval.toNat : ℤ) ≤ info.semvmx

/-- The values of the semaphores and all adjust values are the same. -/
structure Same (s t : Sys) : Prop where
  semval : ∀ n, (t.sem n).semval = (s.sem n).semval
  adjust : ∀ q, tbl q t = tbl q s

theorem Same.refl (s : Sys) : Same s s := ⟨fun _ => rfl, fun _ => rfl⟩

theorem Same.trans {s t u : Sys} (h : Same s t) (h' : Same t u) : Same s u :=
  ⟨fun n => (h'.semval n).trans (h.semval n), fun q => (h'.adjust q).trans (h.adjust q)⟩

/-- `t` is as `s`, and process `p` has an undo structure in it if it had one in `s`. -/
structure Back (info : Seminfo) (p : ℕ) (s t : Sys) : Prop where
  wf : WF info t
  same : Same s t
  has : (s.sem_undo p).isSome → (t.sem_undo p).isSome

theorem Back.refl {info : Seminfo} {p : ℕ} {s : Sys} (h : WF info s) : Back info p s s :=
  ⟨h, Same.refl s, fun hs => hs⟩

section Semaoe

variable {info : Seminfo} {p : ℕ} {val : Int16} {id : ℤ} {num : Int16} {s t : Sys}

theorem tbl_of_some {up : ℕ} (h : s.sem_undo p = some up) : tbl p s = s.un_ent up := by
  unfold tbl
  rw [h]

theorem tbl_table (h : WF info s) : Table info (tbl p s) := by
  unfold tbl
  split
  · exact ⟨List.Pairwise.nil, by simp, Nat.zero_le _⟩
  · exact h.table _

/-- Taking a structure from the free chain changes no entries. -/
theorem getUndo_spec (h : WF info s) {up : ℕ} (hg : getUndo p s = some (up, t)) :
    WF info t ∧ Same s t ∧ t.sem = s.sem ∧ t.sem_undo p = some up := by
  unfold getUndo at hg
  cases hp : s.sem_undo p with
  | some u =>
    rw [hp] at hg
    obtain ⟨rfl, rfl⟩ := Prod.mk.inj (Option.some.inj hg)
    exact ⟨h, Same.refl _, rfl, hp⟩
  | none =>
    rw [hp] at hg
    cases hf : s.semfup with
    | nil => simp [hf] at hg
    | cons u rest =>
      rw [hf] at hg
      obtain ⟨rfl, rfl⟩ := Prod.mk.inj (Option.some.inj hg)
      obtain ⟨hent, hunowned⟩ := h.free u (by simp [hf])
      have hnodup := h.nodup
      rw [hf, nodup_cons] at hnodup
      have hself : update s.sem_undo p (some u) p = some u := update_self _ _ _
      have hother : ∀ q ≠ p, update s.sem_undo p (some u) q = s.sem_undo q := fun q hq =>
        update_of_ne hq _ _
      refine ⟨⟨?_, ?_, hnodup.2, h.table, h.semval⟩, ⟨fun _ => rfl, ?_⟩, rfl, hself⟩
      · intro q r v hq hr
        dsimp only at hq hr
        by_cases hqp : q = p
        · by_cases hrp : r = p
          · rw [hqp, hrp]
          · rw [hqp, hself] at hq
            rw [hother r hrp, ← hq] at hr
            exact absurd hr (hunowned r)
        · rw [hother q hqp] at hq
          by_cases hrp : r = p
          · rw [hrp, hself] at hr
            rw [← hr] at hq
            exact absurd hq (hunowned q)
          · rw [hother r hrp] at hr
            exact h.owned q r v hq hr
      · intro v hv
        obtain ⟨h1, h2⟩ := h.free v (by rw [hf]; exact mem_cons_of_mem _ hv)
        refine ⟨h1, fun q hq => ?_⟩
        dsimp only at hq
        by_cases hqp : q = p
        · rw [hqp, hself] at hq
          exact hnodup.1 (Option.some.inj hq ▸ hv)
        · exact h2 q ((hother q hqp).symm.trans hq)
      · intro q
        unfold tbl
        dsimp only
        by_cases hqp : q = p
        · rw [hqp, hself, hp]
          exact hent
        · rw [hother q hqp]

/-- New entries for process `p` are those of `p` alone. -/
theorem setEnt_spec (h : WF info s) {up : ℕ} (hp : s.sem_undo p = some up) {es : List Undo}
    (hes : Table info es) (semunp : List ℕ) :
    let t : Sys := { s with un_ent := update s.un_ent up es, semunp := semunp }
    WF info t ∧ tbl p t = es ∧ ∀ q ≠ p, tbl q t = tbl q s := by
  have hself : update s.un_ent up es up = es := update_self _ _ _
  have hother : ∀ v ≠ up, update s.un_ent up es v = s.un_ent v := fun v hv =>
    update_of_ne hv _ _
  refine ⟨⟨h.owned, ?_, h.nodup, ?_, h.semval⟩, ?_, ?_⟩
  · intro v hv
    obtain ⟨h1, h2⟩ := h.free v hv
    refine ⟨?_, h2⟩
    have hne : v ≠ up := by
      rintro rfl
      exact h2 p hp
    exact (hother v hne).trans h1
  · intro v
    show Table info (update s.un_ent up es v)
    by_cases hv : v = up
    · rw [hv, hself]
      exact hes
    · rw [hother v hv]
      exact h.table v
  · unfold tbl
    dsimp only
    rw [hp]
    exact hself
  · intro q hq
    unfold tbl
    dsimp only
    cases hqu : s.sem_undo q with
    | none => rfl
    | some v =>
      apply hother v
      rintro rfl
      exact hq (h.owned q p v hqu hp)

/-- What `semaoe` did when it returns 0. -/
structure Entered (info : Seminfo) (p : ℕ) (val : Int16) (id : ℤ) (num : Int16) (s t : Sys) :
    Prop where
  wf : WF info t
  sem : t.sem = s.sem
  bound : -info.semaem ≤ val.toInt ∧ val.toInt ≤ info.semaem
  adjusted : Adjusted info (tbl p s).length val id num (tbl p s) (tbl p t)
  others : ∀ q ≠ p, tbl q t = tbl q s
  has : (t.sem_undo p).isSome

theorem semaoe_ok (h : WF info s) (hval : val ≠ 0)
    (ha : semaoe info p val id num s = (none, t)) : Entered info p val id num s t := by
  unfold semaoe at ha
  rw [if_neg hval] at ha
  by_cases hbig : info.semaem < val.toInt ∨ val.toInt < -info.semaem
  · rw [if_pos hbig] at ha
    simp at ha
  have hbound : -info.semaem ≤ val.toInt ∧ val.toInt ≤ info.semaem := by omega
  rw [if_neg hbig] at ha
  cases hg : getUndo p s with
  | none => simp [hg] at ha
  | some r =>
    obtain ⟨up, s1⟩ := r
    rw [hg] at ha
    obtain ⟨h1, hsame, hsem, hp⟩ := getUndo_spec h hg
    have htbl : tbl p s = s1.un_ent up := by rw [← hsame.adjust p, tbl_of_some hp]
    obtain ⟨hnone, rfl⟩ := Prod.mk.inj ha
    have hpair : adjust info (s1.un_ent up).length val id num (s1.un_ent up) =
        (none, (adjust info (s1.un_ent up).length val id num (s1.un_ent up)).2) :=
      Prod.ext hnone rfl
    have hadj := (adjust_iff (by omega)).mp hpair
    have htable := hadj.table (h1.table up) hval hbound
    obtain ⟨hwf, hpt, hqt⟩ := setEnt_spec h1 hp htable (chain up (s1.un_ent up)
      (adjust info (s1.un_ent up).length val id num (s1.un_ent up)).2 s1.semunp)
    refine ⟨hwf, hsem, hbound, ?_, fun q hq => (hqt q hq).trans (hsame.adjust q), ?_⟩
    · rw [hpt, htbl]
      exact hadj
    · rw [Option.isSome_iff_exists]
      exact ⟨up, hp⟩

theorem semaoe_err (h : WF info s) {e : Errno} (ha : semaoe info p val id num s = (some e, t)) :
    Back info p s t := by
  unfold semaoe at ha
  split at ha
  · simp at ha
  split at ha
  · obtain ⟨-, rfl⟩ := Prod.mk.inj ha
    exact Back.refl h
  cases hg : getUndo p s with
  | none =>
    rw [hg] at ha
    obtain ⟨-, rfl⟩ := Prod.mk.inj ha
    exact Back.refl h
  | some r =>
    obtain ⟨up, s1⟩ := r
    rw [hg] at ha
    obtain ⟨h1, hsame, hsem, hp⟩ := getUndo_spec h hg
    obtain ⟨herr, rfl⟩ := Prod.mk.inj ha
    have hkeep : (adjust info (s1.un_ent up).length val id num (s1.un_ent up)).2 = s1.un_ent up :=
      adjust_error (Prod.ext herr rfl)
    obtain ⟨hwf, hpt, hqt⟩ := setEnt_spec h1 hp (h1.table up) (chain up (s1.un_ent up)
      (s1.un_ent up) s1.semunp)
    rw [hkeep]
    refine ⟨hwf, hsame.trans ⟨fun _ => rfl, fun q => ?_⟩,
      fun _ => Option.isSome_iff_exists.mpr ⟨up, hp⟩⟩
    by_cases hq : q = p
    · rw [hq, hpt, tbl_of_some hp]
    · exact hqt q hq

/-- The way back: where the process has its undo structure and the entries `semaoe` left, `semaoe`
with the negated value gives the entries back. -/
theorem semaoe_back {u : Sys} (hs : WF info s) (h : Entered info p val id num s t) (hu : WF info u)
    (hval : val ≠ 0) (htbl : tbl p u = tbl p t) (hhas : (u.sem_undo p).isSome) :
    Entered info p (-val) id num u (semaoe info p (-val) id num u).2 ∧
      tbl p (semaoe info p (-val) id num u).2 = tbl p s := by
  obtain ⟨up, hp⟩ := Option.isSome_iff_exists.mp hhas
  have hm : 0 ≤ info.semaem := by
    have := h.bound
    omega
  have hneg : -val ≠ 0 := fun h0 => hval (by rw [← Int16.neg_neg (a := val), h0]; rfl)
  have hnegInt := info.neg_toInt h.bound
  have hbound : ¬ (info.semaem < (-val).toInt ∨ (-val).toInt < -info.semaem) := by
    have := h.bound
    omega
  have hback : adjust info (tbl p u).length (-val) id num (tbl p u) = (none, tbl p s) := by
    rw [adjust_iff hm, htbl]
    apply h.adjusted.undo (tbl_table hs)
    intro hlt
    exact Nat.lt_of_lt_of_le hlt (tbl_table hs).length
  have hnone : semaoe info p (-val) id num u = (none, (semaoe info p (-val) id num u).2) := by
    have hget : getUndo p u = some (up, u) := by
      unfold getUndo
      rw [hp]
    rw [tbl_of_some hp] at hback
    have hfst : (semaoe info p (-val) id num u).1 = none := by
      unfold semaoe
      rw [if_neg hneg, if_neg hbound, hget]
      show (adjust info (u.un_ent up).length (-val) id num (u.un_ent up)).1 = none
      rw [hback]
    exact Prod.ext hfst rfl
  have hentered := semaoe_ok hu hneg hnone
  refine ⟨hentered, ?_⟩
  have hsecond := (adjust_iff hm).mpr hentered.adjusted
  rw [hback] at hsecond
  exact (Prod.mk.inj hsecond).2.symm

end Semaoe

/-! ## One operation and its undoing -/

section Ops

variable {info : Seminfo} {p : ℕ} {id : ℤ} {op : Sembuf} {s t : Sys}

/-- `semval` after `addVal`, on every semaphore. -/
theorem addVal_semval (num n : UInt16) (val : Int16) (s : Sys) :
    ((addVal num val s).sem n).semval =
      if n = num then (s.sem n).semval + val.toUInt16 else (s.sem n).semval := by
  unfold addVal setSem
  by_cases h : n = num
  · subst h
    simp
  · simp [h]

/-- Routines that only count waiters or wake them up. -/
structure Quiet (s t : Sys) : Prop where
  semval : ∀ n, (t.sem n).semval = (s.sem n).semval
  sem_undo : t.sem_undo = s.sem_undo
  un_ent : t.un_ent = s.un_ent
  semfup : t.semfup = s.semfup

theorem Quiet.trans {u : Sys} (h : Quiet s t) (h' : Quiet t u) : Quiet s u :=
  ⟨fun n => (h'.semval n).trans (h.semval n), h'.sem_undo.trans h.sem_undo,
    h'.un_ent.trans h.un_ent, h'.semfup.trans h.semfup⟩

theorem Quiet.tbl (h : Quiet s t) (q : ℕ) : tbl q t = tbl q s := by
  unfold Ipc.tbl
  rw [h.sem_undo, h.un_ent]

theorem Quiet.same (h : Quiet s t) : Same s t := ⟨h.semval, h.tbl⟩

theorem Quiet.wf (h : Quiet s t) (hs : WF info s) : WF info t := by
  constructor
  · rw [h.sem_undo]
    exact hs.owned
  · rw [h.semfup, h.un_ent, h.sem_undo]
    exact hs.free
  · rw [h.semfup]
    exact hs.nodup
  · rw [h.un_ent]
    exact hs.table
  · intro n
    rw [h.semval n]
    exact hs.semval n

theorem setSem_quiet (num : UInt16) {semp : Sem} (s : Sys)
    (h : semp.semval = (s.sem num).semval) : Quiet s (setSem num semp s) := by
  refine ⟨fun n => ?_, rfl, rfl, rfl⟩
  unfold setSem
  by_cases hn : n = num
  · subst hn
    simpa using h
  · simp [hn]

theorem wakeup_quiet (c : Chan) (s : Sys) : Quiet s (wakeup c s) := ⟨fun _ => rfl, rfl, rfl, rfl⟩

theorem wakeNcnt_quiet (num : UInt16) (s : Sys) : Quiet s (wakeNcnt num s) := by
  unfold wakeNcnt
  split
  · exact ⟨fun _ => rfl, rfl, rfl, rfl⟩
  · refine Quiet.trans ?_ (wakeup_quiet _ _)
    exact setSem_quiet num s rfl

theorem wakeZcnt_quiet (num : UInt16) (s : Sys) : Quiet s (wakeZcnt num s) := by
  unfold wakeZcnt
  split
  · exact ⟨fun _ => rfl, rfl, rfl, rfl⟩
  · refine Quiet.trans ?_ (wakeup_quiet _ _)
    exact setSem_quiet num s rfl

theorem countWaiter_quiet (c : Chan) (s : Sys) : Quiet s (countWaiter c s) := by
  cases c <;> exact setSem_quiet _ s rfl

theorem uncountWaiter_quiet (c : Chan) (s : Sys) : Quiet s (uncountWaiter c s) := by
  cases c with
  | semncnt num =>
    unfold uncountWaiter
    dsimp only
    split
    · refine Quiet.trans ?_ (wakeup_quiet _ _)
      exact setSem_quiet num s rfl
    · exact setSem_quiet num s rfl
  | semzcnt num =>
    unfold uncountWaiter
    dsimp only
    split
    · refine Quiet.trans ?_ (wakeup_quiet _ _)
      exact setSem_quiet num s rfl
    · exact setSem_quiet num s rfl

theorem setPid_quiet (pid : Int16) (ops : List Sembuf) (s : Sys) : Quiet s (setPid pid ops s) := by
  induction ops generalizing s with
  | nil => exact ⟨fun _ => rfl, rfl, rfl, rfl⟩
  | cons op ops ih =>
    refine Quiet.trans ?_ (ih _)
    exact setSem_quiet op.sem_num s rfl

/-- What `tryUndo` did for an operation that is not a wait for 0. -/
structure Tried (info : Seminfo) (p : ℕ) (id : ℤ) (op : Sembuf) (s t : Sys) : Prop where
  wf : WF info t
  entered : op.undo = true → op.sem_op ≠ 0 → (t.sem_undo p).isSome ∧
    ∃ u, Entered info p op.sem_op id op.sem_num.toInt16 s u ∧ tbl p t = tbl p u
  kept : op.undo = false ∨ op.sem_op = 0 → tbl p t = tbl p s
  others : ∀ q ≠ p, tbl q t = tbl q s
  has : (s.sem_undo p).isSome → (t.sem_undo p).isSome

theorem tryUndo_ok (h : WF info s) (h0 : op.sem_op ≠ 0)
    (ht : tryUndo info p id op s = (none, t)) : Tried info p id op s t ∧ t.sem = s.sem := by
  unfold tryUndo at ht
  cases hu : op.undo with
  | true =>
    rw [hu] at ht
    have hent := semaoe_ok h h0 ht
    refine ⟨⟨hent.wf, fun _ _ => ⟨hent.has, t, hent, rfl⟩, ?_, hent.others, fun _ => hent.has⟩,
      hent.sem⟩
    simp [hu, h0]
  | false =>
    rw [hu] at ht
    obtain ⟨-, rfl⟩ := Prod.mk.inj ht
    exact ⟨⟨h, by simp [hu], fun _ => rfl, fun _ _ => rfl, fun hs => hs⟩, rfl⟩

theorem tryUndo_err (h : WF info s) {e : Errno} (ht : tryUndo info p id op s = (some e, t)) :
    Back info p s t := by
  unfold tryUndo at ht
  cases hu : op.undo with
  | true =>
    rw [hu] at ht
    exact semaoe_err h ht
  | false => simp [hu] at ht

/-- What an operation that was carried out did. -/
structure Performed (info : Seminfo) (p : ℕ) (id : ℤ) (op : Sembuf) (s t : Sys) : Prop
    extends Tried info p id op s t where
  value : ∀ n, ((t.sem n).semval.toNat : ℤ) =
    (s.sem n).semval.toNat + if n = op.sem_num then op.sem_op.toInt else 0
  bits : ∀ n, (t.sem n).semval =
    if n = op.sem_num then (s.sem n).semval + op.sem_op.toUInt16 else (s.sem n).semval
  zero : op.sem_op = 0 → (s.sem op.sem_num).semval = 0

/-- An addition to a `ushort` that stays in range. -/
theorem toNat_add_short (a : UInt16) (v : Int16) (h0 : 0 ≤ (a.toNat : ℤ) + v.toInt)
    (h1 : (a.toNat : ℤ) + v.toInt ≤ 65535) :
    ((a + v.toUInt16).toNat : ℤ) = a.toNat + v.toInt := by
  have hv : v.toInt = if 2 * v.toUInt16.toNat < 2 ^ 16 then (v.toUInt16.toNat : ℤ)
      else v.toUInt16.toNat - (2 ^ 16 : ℕ) := BitVec.toInt_eq_toNat_cond v.toBitVec
  have ha := a.toNat_lt
  have hb := v.toUInt16.toNat_lt
  rw [UInt16.toNat_add]
  split at hv <;> omega

/-- The value goes into the semaphore after the undo entry was made. -/
theorem Tried.performed (h : Tried info p id op s t) (hsem : t.sem = s.sem) (h0 : op.sem_op ≠ 0)
    (hpos : 0 ≤ ((s.sem op.sem_num).semval.toNat : ℤ) + op.sem_op.toInt)
    (hmax : ((s.sem op.sem_num).semval.toNat : ℤ) + op.sem_op.toInt ≤ info.semvmx) {u : Sys}
    (hu : Quiet (addVal op.sem_num op.sem_op t) u) : Performed info p id op s u := by
  have hvmx := info.semvmx_le
  have hbits : ∀ n, (u.sem n).semval = if n = op.sem_num
      then (s.sem n).semval + op.sem_op.toUInt16 else (s.sem n).semval := by
    intro n
    rw [hu.semval n, addVal_semval, hsem]
  have hvalue : ∀ n, ((u.sem n).semval.toNat : ℤ) =
      (s.sem n).semval.toNat + if n = op.sem_num then op.sem_op.toInt else 0 := by
    intro n
    rw [hbits n]
    by_cases hn : n = op.sem_num
    · subst hn
      rw [if_pos rfl, if_pos rfl]
      exact toNat_add_short _ _ hpos (by omega)
    · simp [hn]
  have hwf : WF info u := by
    constructor
    · rw [hu.sem_undo]
      exact h.wf.owned
    · rw [hu.semfup, hu.un_ent, hu.sem_undo]
      exact h.wf.free
    · rw [hu.semfup]
      exact h.wf.nodup
    · rw [hu.un_ent]
      exact h.wf.table
    · intro n
      have hn := h.wf.semval n
      rw [hsem] at hn
      rw [hvalue n]
      by_cases hnum : n = op.sem_num
      · subst hnum
        simpa using hmax
      · simpa [hnum] using hn
  have htbl : ∀ q, tbl q u = tbl q t := hu.tbl
  refine ⟨⟨hwf, fun h1 h2 => ?_, fun h1 => (htbl p).trans (h.kept h1),
    fun q hq => (htbl q).trans (h.others q hq), fun h1 => ?_⟩, hvalue, hbits, fun h1 => absurd h1 h0⟩
  · obtain ⟨h3, w, h4, h5⟩ := h.entered h1 h2
    exact ⟨by rw [hu.sem_undo]; exact h3, w, h4, (htbl p).trans h5⟩
  · rw [hu.sem_undo]
    exact h.has h1

theorem doOp_cont (h : WF info s) (hd : doOp info p id op s = (.cont, t)) :
    Performed info p id op s t := by
  unfold doOp at hd
  have hval := h.semval op.sem_num
  by_cases hpos : 0 < op.sem_op.toInt
  · have h0 : op.sem_op ≠ 0 := by
      rintro h0
      rw [h0] at hpos
      exact absurd hpos (by decide)
    rw [if_pos hpos] at hd
    split at hd
    · simp at hd
    · rename_i hmax
      split at hd
      · simp at hd
      · rename_i u ht
        obtain ⟨-, rfl⟩ := Prod.mk.inj hd
        obtain ⟨htried, hsem⟩ := tryUndo_ok h h0 ht
        exact htried.performed hsem h0 (by omega) (by omega)
          ((wakeNcnt_quiet _ _).trans (wakeZcnt_quiet _ _))
  · rw [if_neg hpos] at hd
    by_cases hneg : op.sem_op.toInt < 0
    · have h0 : op.sem_op ≠ 0 := by
        rintro h0
        rw [h0] at hneg
        exact absurd hneg (by decide)
      rw [if_pos hneg] at hd
      split at hd
      · rename_i hge
        split at hd
        · simp at hd
        · rename_i u ht
          obtain ⟨-, rfl⟩ := Prod.mk.inj hd
          obtain ⟨htried, hsem⟩ := tryUndo_ok h h0 ht
          exact htried.performed hsem h0 (by omega) (by omega) (wakeZcnt_quiet _ _)
      · simp at hd
    · rw [if_neg hneg] at hd
      have h0 : op.sem_op.toInt = 0 := by omega
      have h0' : op.sem_op = 0 := Int16.toInt.inj h0
      split at hd
      · simp at hd
      · rename_i hz
        obtain ⟨-, rfl⟩ := Prod.mk.inj hd
        refine ⟨⟨h, fun _ hne => absurd h0' hne, fun _ => rfl, fun _ _ => rfl, fun hs => hs⟩, ?_, ?_,
          fun _ => not_not.mp hz⟩
        · intro n
          rw [h0]
          simp
        · intro n
          simp only [h0', show Int16.toUInt16 0 = 0 from rfl, UInt16.add_zero, ite_self]

/-- An operation that fails or has to wait changes nothing. -/
theorem doOp_stop (h : WF info s) {r : Res} (hd : doOp info p id op s = (r, t)) (hr : r ≠ .cont) :
    Back info p s t := by
  unfold doOp at hd
  dsimp only at hd
  split at hd
  · split at hd
    · obtain ⟨-, rfl⟩ := Prod.mk.inj hd
      exact Back.refl h
    · split at hd
      · rename_i ht
        obtain ⟨-, rfl⟩ := Prod.mk.inj hd
        exact tryUndo_err h ht
      · exact absurd (Prod.mk.inj hd).1.symm hr
  · split at hd
    · split at hd
      · split at hd
        · rename_i ht
          obtain ⟨-, rfl⟩ := Prod.mk.inj hd
          exact tryUndo_err h ht
        · exact absurd (Prod.mk.inj hd).1.symm hr
      · obtain ⟨-, rfl⟩ := Prod.mk.inj hd
        exact Back.refl h
    · split at hd
      · obtain ⟨-, rfl⟩ := Prod.mk.inj hd
        exact Back.refl h
      · exact absurd (Prod.mk.inj hd).1.symm hr

/-- Undoing an operation leads back to where it was carried out. -/
theorem Performed.back (hs : WF info s) (h : Performed info p id op s t) {u : Sys}
    (hu : Back info p t u) : Back info p s (undoOp info p id op u) := by
  unfold undoOp
  by_cases h0 : op.sem_op = 0
  · rw [if_pos h0]
    refine ⟨hu.wf, ⟨fun n => ?_, fun q => ?_⟩, fun hp => hu.has (h.has hp)⟩
    · rw [hu.same.semval n, h.bits n, h0]
      simp only [show Int16.toUInt16 0 = 0 from rfl, UInt16.add_zero, ite_self]
    · rw [hu.same.adjust q]
      by_cases hq : q = p
      · rw [hq]
        exact h.kept (.inr h0)
      · exact h.others q hq
  rw [if_neg h0]
  dsimp only
  have hval : ∀ n, ((addVal op.sem_num (-op.sem_op) u).sem n).semval = (s.sem n).semval := by
    intro n
    rw [addVal_semval, hu.same.semval n, h.bits n, Int16.toUInt16_neg]
    split
    · rw [← UInt16.sub_eq_add_neg, UInt16.add_sub_cancel]
    · rfl
  have hwf : WF info (addVal op.sem_num (-op.sem_op) u) := by
    refine ⟨hu.wf.owned, hu.wf.free, hu.wf.nodup, hu.wf.table, fun n => ?_⟩
    rw [hval n]
    exact hs.semval n
  have htbl : ∀ q, tbl q (addVal op.sem_num (-op.sem_op) u) = tbl q t := hu.same.adjust
  cases hundo : op.undo with
  | true =>
    obtain ⟨hsome, w, hent, hw⟩ := h.entered hundo h0
    obtain ⟨hback, htblp⟩ := semaoe_back hs hent hwf h0 ((htbl p).trans hw) (hu.has hsome)
    refine ⟨hback.wf, ⟨fun n => ?_, fun q => ?_⟩, fun _ => hback.has⟩
    · rw [if_pos rfl, hback.sem]
      exact hval n
    · by_cases hq : q = p
      · rw [hq]
        exact htblp
      · exact (hback.others q hq).trans ((htbl q).trans (h.others q hq))
  | false =>
    refine ⟨hwf, ⟨hval, fun q => ?_⟩, fun hp => hu.has (h.has hp)⟩
    by_cases hq : q = p
    · rw [hq]
      exact (htbl p).trans (h.kept (.inl hundo))
    · exact (htbl q).trans (h.others q hq)

end Ops

/-! ## A pass over the list -/

/-- The operations that were done, the last one first, from `s` to `t`. -/
inductive Applied (info : Seminfo) (p : ℕ) (id : ℤ) (s : Sys) : List Sembuf → Sys → Prop
  | nil : Applied info p id s [] s
  | cons {done : List Sembuf} {op : Sembuf} {t u : Sys} : Applied info p id s done t →
      Performed info p id op t u → Applied info p id s (op :: done) u

section Pass

variable {info : Seminfo} {p : ℕ} {id : ℤ} {s t : Sys} {done : List Sembuf}

theorem Applied.wf (hs : WF info s) (h : Applied info p id s done t) : WF info t := by
  cases h with
  | nil => exact hs
  | cons _ hop => exact hop.wf

/-- `semundo` leads back to the start of the pass. -/
theorem Applied.semundo (hs : WF info s) (h : Applied info p id s done t) {u : Sys}
    (hu : Back info p t u) : Back info p s (semundo info p id done u) := by
  induction h generalizing u with
  | nil => exact hu
  | cons hrest hop ih => exact ih (hop.back (hrest.wf hs) hu)

/-- The sum of the operations on semaphore `num`. -/
def opSum (num : UInt16) : List Sembuf → ℤ
  | [] => 0
  | op :: ops => opSum num ops + if num = op.sem_num then op.sem_op.toInt else 0

/-- The sum of the `SEM_UNDO` operations on semaphore `num`. -/
def undoSum (num : UInt16) (ops : List Sembuf) : ℤ := opSum num (ops.filter Sembuf.undo)

/-- All operations of the list `ops` were carried out, from `s` to `t`. -/
structure Success (info : Seminfo) (p : ℕ) (id : ℤ) (ops : List Sembuf) (s t : Sys) : Prop where
  /-- Each value is the old one plus the sum of the operations on it. -/
  semval : ∀ n, ((t.sem n).semval.toNat : ℤ) = (s.sem n).semval.toNat + opSum n ops
  /-- No value on the way was negative or above `semvmx`, and every zero-operation saw the value 0
  at its position. -/
  between : ∀ before op after, ops = before ++ op :: after →
    0 ≤ (s.sem op.sem_num).semval.toNat + opSum op.sem_num (before ++ [op]) ∧
    (s.sem op.sem_num).semval.toNat + opSum op.sem_num (before ++ [op]) ≤ info.semvmx ∧
    (op.sem_op = 0 → (s.sem op.sem_num).semval.toNat + opSum op.sem_num before = 0)
  /-- Each adjust value of the process has decreased by the sum of the `SEM_UNDO` operations. -/
  adjust : ∀ id' n, adjOf id' n.toInt16 (tbl p t) =
    adjOf id' n.toInt16 (tbl p s) - if id' = id then undoSum n ops else 0
  /-- No other process has its adjust values changed. -/
  others : ∀ q ≠ p, tbl q t = tbl q s

theorem opSum_append (num : UInt16) (xs ys : List Sembuf) :
    opSum num (xs ++ ys) = opSum num xs + opSum num ys := by
  induction xs with
  | nil => simp [opSum]
  | cons x xs ih =>
    rw [cons_append, opSum, opSum, ih]
    omega

theorem undoSum_concat (num : UInt16) (xs : List Sembuf) (op : Sembuf) :
    undoSum num (xs ++ [op]) =
      undoSum num xs + if op.undo then (if num = op.sem_num then op.sem_op.toInt else 0) else 0 := by
  unfold undoSum
  rw [filter_append, opSum_append]
  cases hu : op.undo <;> simp [opSum, hu]

theorem Performed.adjOf {op : Sembuf} (hs : WF info s) (h : Performed info p id op s t) (id' : ℤ)
    (n : UInt16) : adjOf id' n.toInt16 (tbl p t) = adjOf id' n.toInt16 (tbl p s) -
      if id' = id then (if op.undo then (if n = op.sem_num then op.sem_op.toInt else 0) else 0)
      else 0 := by
  by_cases hentry : op.undo = true ∧ op.sem_op ≠ 0
  · obtain ⟨-, w, hent, hw⟩ := h.entered hentry.1 hentry.2
    rw [hw, hent.adjusted.adjOf (tbl_table hs) hent.bound, hentry.1, if_pos rfl]
    have hnum : n.toInt16 = op.sem_num.toInt16 ↔ n = op.sem_num :=
      ⟨fun he => congrArg Int16.toUInt16 he, congrArg _⟩
    by_cases hid : id' = id
    · simp [hid, hnum]
    · simp [hid]
  · have hkept : op.undo = false ∨ op.sem_op = 0 := by
      rcases Bool.eq_false_or_eq_true op.undo with hu | hu
      · exact .inr (not_not.mp fun h0 => hentry ⟨hu, h0⟩)
      · exact .inl hu
    rw [h.kept hkept]
    rcases hkept with hu | h0
    · simp [hu]
    · simp [h0]

/-- What the operations that were done amount to. -/
theorem Applied.success (hs : WF info s) (h : Applied info p id s done t) :
    Success info p id done.reverse s t := by
  induction h with
  | nil =>
    refine ⟨fun n => by simp [opSum], fun before op after h => by simp at h, fun id' n => ?_,
      fun q _ => rfl⟩
    simp [undoSum, opSum]
  | @cons done op t u hrest hop ih =>
    have hsum : ∀ n, ((u.sem n).semval.toNat : ℤ) =
        (s.sem n).semval.toNat + opSum n (done.reverse ++ [op]) := by
      intro n
      rw [hop.value n, ih.semval n, opSum_append]
      simp only [opSum]
      omega
    rw [reverse_cons]
    refine ⟨hsum, ?_, fun id' n => ?_, fun q hq => (hop.others q hq).trans (ih.others q hq)⟩
    · intro before op' after heq
      rcases eq_nil_or_concat after with rfl | ⟨after, x, rfl⟩
      · -- the operation done last
        obtain ⟨rfl, hop'⟩ := append_inj' heq rfl
        obtain rfl : op = op' := by simpa using hop'
        have hval := hop.wf.semval op.sem_num
        have heq := hsum op.sem_num
        refine ⟨by omega, by omega, fun h0 => ?_⟩
        have hz := congrArg UInt16.toNat (hop.zero h0)
        have hbefore := ih.semval op.sem_num
        rw [hz] at hbefore
        exact hbefore.symm
      · rw [concat_eq_append, ← cons_append, ← append_assoc] at heq
        obtain ⟨heq', -⟩ := append_inj' heq rfl
        exact ih.between before op' after heq'
    · rw [hop.adjOf (hrest.wf hs), ih.adjust, undoSum_concat]
      by_cases hid : id' = id
      · simp only [if_pos hid]
        omega
      · simp only [if_neg hid]
        omega

/-- A pass: it carries out the whole list, or leaves everything as it was at its start. -/
theorem pass_spec (hs : WF info s) (h : Applied info p id s done t) {todo : List Sembuf} {o : Out}
    {u : Sys} (hp : pass info p id done todo t = (o, u)) :
    WF info u ∧ (o = .done → Success info p id (done.reverse ++ todo) s u) ∧
      (o ≠ .done → Same s u) := by
  induction todo generalizing done t with
  | nil =>
    obtain ⟨rfl, rfl⟩ := Prod.mk.inj hp
    refine ⟨h.wf hs, fun _ => ?_, fun hne => absurd rfl hne⟩
    rw [append_nil]
    exact h.success hs
  | cons op ops ih =>
    have ht := h.wf hs
    rw [pass] at hp
    split at hp
    · rename_i v hd
      have hnext := ih (.cons h (doOp_cont ht hd)) hp
      rwa [reverse_cons, append_assoc] at hnext
    · rename_i e v hd
      obtain ⟨rfl, rfl⟩ := Prod.mk.inj hp
      have hback := h.semundo hs (doOp_stop ht hd (by simp))
      exact ⟨hback.wf, fun hdone => by simp at hdone, fun _ => hback.same⟩
    · rename_i c v hd
      have hback := h.semundo hs (doOp_stop ht hd (by simp))
      dsimp only at hp
      split at hp
      · obtain ⟨rfl, rfl⟩ := Prod.mk.inj hp
        exact ⟨hback.wf, fun hdone => by simp at hdone, fun _ => hback.same⟩
      · obtain ⟨rfl, rfl⟩ := Prod.mk.inj hp
        have hq := countWaiter_quiet c (semundo info p id done v)
        exact ⟨hq.wf hback.wf, fun hdone => by simp at hdone,
          fun _ => hback.same.trans hq.same⟩

end Pass

/-! ## The system call -/

/-- What holds of `semop` from where control comes to it up to where it gives it up. -/
structure AllOrNothing (info : Seminfo) (env : Env) (uap : Args) (s : Sys) (r : Out × Sys) :
    Prop where
  wf : WF info r.2
  /-- It returns with success: all operations were carried out. -/
  all : r.1 = .done → Success info env.p uap.semid uap.sops s r.2
  /-- It returns with an error or goes to sleep: nothing changed. -/
  nothing : r.1 ≠ .done → Same s r.2

theorem AllOrNothing.of_error {info : Seminfo} {env : Env} {uap : Args} {s : Sys} (h : WF info s)
    (e : Errno) : AllOrNothing info env uap s (.err e, s) :=
  ⟨h, fun hdone => by simp at hdone, fun _ => Same.refl s⟩

theorem body_spec {info : Seminfo} {env : Env} {uap : Args} {s : Sys} (h : WF info s) :
    AllOrNothing info env uap s (body info env uap s) := by
  unfold body
  obtain ⟨o, t, hp⟩ : ∃ o t, pass info env.p uap.semid [] uap.sops s = (o, t) := ⟨_, _, rfl⟩
  obtain ⟨hwf, hall, hnothing⟩ := pass_spec h .nil hp
  rw [hp]
  cases o with
  | done =>
    have hq : Quiet t { setPid env.p_pid uap.sops t with sem_otime := env.time } := by
      have hpid := setPid_quiet env.p_pid uap.sops t
      exact ⟨hpid.semval, hpid.sem_undo, hpid.un_ent, hpid.semfup⟩
    have hs := hall rfl
    refine ⟨hq.wf hwf, fun _ => ⟨fun n => ?_, hs.between, fun id' n => ?_, fun q hne => ?_⟩,
      fun hne => absurd rfl hne⟩
    · dsimp only
      rw [hq.semval n]
      exact hs.semval n
    · dsimp only
      rw [hq.tbl]
      exact hs.adjust id' n
    · exact (hq.tbl q).trans (hs.others q hne)
  | err e => exact ⟨hwf, fun hdone => by simp at hdone, fun _ => hnothing (by simp)⟩
  | sleep c => exact ⟨hwf, fun hdone => by simp at hdone, fun _ => hnothing (by simp)⟩

/-- For every list of operations, every set and every undo table: `semop` carries out all of the
list or leaves all values and adjust values as they were. -/
theorem semop_all_or_nothing (info : Seminfo) (env : Env) (uap : Args) {s : Sys} (h : WF info s)
    (entry : Entry) : AllOrNothing info env uap s (semop info env uap s entry) := by
  cases entry with
  | call =>
    unfold semop
    dsimp only
    split
    · exact AllOrNothing.of_error h _
    · split
      · exact AllOrNothing.of_error h _
      · split
        · exact AllOrNothing.of_error h _
        · split
          · exact AllOrNothing.of_error h _
          · exact body_spec h
  | wakeup =>
    unfold semop
    dsimp only
    split
    · exact AllOrNothing.of_error h _
    · split
      · exact AllOrNothing.of_error h _
      · exact body_spec h
  | signal c =>
    have hq := uncountWaiter_quiet c s
    exact ⟨hq.wf h, fun hdone => by simp [semop] at hdone, fun _ => hq.same⟩

/-- No semaphore was ever used, and no process has an undo structure. -/
def idle : Sys := ⟨fun _ => ⟨0, 0, 0, 0⟩, 0, fun _ => none, fun _ => [], [], [0, 1], []⟩

theorem idle_wf : WF seminfo idle :=
  ⟨by simp [idle], by simp [idle], by decide,
    fun _ => ⟨List.Pairwise.nil, by simp [idle], Nat.zero_le _⟩,
    fun _ => (by decide : ((0 : UInt16).toNat : ℤ) ≤ 32767)⟩

/-- 3 is added, 1 is taken off, and then the value is not the 0 that the third operation wants. -/
theorem semop_all_or_nothing_idle :
    let env : Env := ⟨fun _ => ⟨⟨0, 0, 0, 0, 0o100600, 0⟩, 1⟩, 0, 0, 5, 17, 100⟩
    let uap : Args := ⟨0, [⟨0, 3, 0o10000⟩, ⟨0, -1, 0o10000⟩, ⟨0, 0, 0⟩], true⟩
    (semop seminfo env uap idle .call).1 = .sleep (.semzcnt 0) ∧
      AllOrNothing seminfo env uap idle (semop seminfo env uap idle .call) :=
  ⟨by decide, semop_all_or_nothing seminfo _ _ idle_wf .call⟩

end Svr3.Ipc
