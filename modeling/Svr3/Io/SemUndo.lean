import Svr3.Io.SemRun
import Svr3.Io.SemCtl

/-!
# The chains of undo structures

An undo structure is on the chain `semunp` while it has entries, and on `semfup` while no process
has it. `semunrm` takes a range of semaphores out of all tables: its early breaks rest on the order
of the entries.
-/

namespace Svr3.Ipc

open Function List

/-- The two chains of undo structures, of which there are `n`. -/
structure Chained (n : ℕ) (s : Sys) : Prop where
  nodup : s.semunp.Nodup
  mem : ∀ up, up ∈ s.semunp ↔ s.un_ent up ≠ []
  owner : ∀ up, s.un_ent up ≠ [] → ∃ p, s.sem_undo p = some up
  pool : ∀ up, up < n ↔ up ∈ s.semfup ∨ ∃ p, s.sem_undo p = some up

/-- The undo structures are as they were. -/
structure SameUndo (s t : Sys) : Prop where
  sem_undo : t.sem_undo = s.sem_undo
  un_ent : t.un_ent = s.un_ent
  semunp : t.semunp = s.semunp
  semfup : t.semfup = s.semfup

theorem SameUndo.refl (s : Sys) : SameUndo s s := ⟨rfl, rfl, rfl, rfl⟩

theorem SameUndo.trans {s t u : Sys} (h : SameUndo s t) (h' : SameUndo t u) : SameUndo s u :=
  ⟨h'.1.trans h.1, h'.2.trans h.2, h'.3.trans h.3, h'.4.trans h.4⟩

section Chains

variable {n p : ℕ} {s t : Sys} {info : Seminfo} {id : ℤ} {op : Sembuf}

theorem Chained.same (hc : Chained n s) (h : SameUndo s t) : Chained n t := by
  refine ⟨?_, ?_, ?_, ?_⟩
  · rw [h.semunp]
    exact hc.nodup
  · rw [h.semunp, h.un_ent]
    exact hc.mem
  · rw [h.sem_undo, h.un_ent]
    exact hc.owner
  · rw [h.sem_undo, h.semfup]
    exact hc.pool

theorem getUndo_chained (hc : Chained n s) {up : ℕ} (hg : getUndo p s = some (up, t)) :
    Chained n t ∧ t.sem_undo p = some up := by
  unfold getUndo at hg
  cases hp : s.sem_undo p with
  | some u =>
    rw [hp] at hg
    obtain ⟨rfl, rfl⟩ := Prod.mk.inj (Option.some.inj hg)
    exact ⟨hc, hp⟩
  | none =>
    rw [hp] at hg
    cases hf : s.semfup with
    | nil =>
      rw [hf] at hg
      exact absurd hg nofun
    | cons u rest =>
      rw [hf] at hg
      obtain ⟨rfl, rfl⟩ := Prod.mk.inj (Option.some.inj hg)
      have hself : update s.sem_undo p (some u) p = some u := update_self _ _ _
      -- who had a structure keeps it
      have hkeep (q v : ℕ) (hq : s.sem_undo q = some v) :
          update s.sem_undo p (some u) q = some v := by
        have hqp : q ≠ p := by
          rintro rfl
          exact absurd (hp.symm.trans hq) nofun
        rw [update_of_ne hqp, hq]
      refine ⟨⟨hc.nodup, hc.mem, fun v hv => ?_, fun v => ?_⟩, hself⟩
      · obtain ⟨q, hq⟩ := hc.owner v hv
        exact ⟨q, hkeep q v hq⟩
      · rw [hc.pool v, hf]
        constructor
        · rintro (hv | ⟨q, hq⟩)
          · rcases mem_cons.mp hv with rfl | hv
            · exact .inr ⟨p, hself⟩
            · exact .inl hv
          · exact .inr ⟨q, hkeep q v hq⟩
        · rintro (hv | ⟨q, hq⟩)
          · exact .inl (mem_cons_of_mem _ hv)
          · dsimp only at hq
            by_cases hqp : q = p
            · rw [hqp, hself] at hq
              exact .inl (Option.some.inj hq ▸ mem_cons_self)
            · rw [update_of_ne hqp] at hq
              exact .inr ⟨q, hq⟩

/-- The entries of a structure that a process has change. -/
theorem Chained.setEnt (hc : Chained n s) {up : ℕ} (hp : s.sem_undo p = some up) (es : List Undo) :
    Chained n { s with un_ent := update s.un_ent up es,
                       semunp := chain up (s.un_ent up) es s.semunp } := by
  have hmem := hc.mem up
  have hother (v : ℕ) (hv : v ≠ up) : update s.un_ent up es v = s.un_ent v :=
    update_of_ne hv _ _
  refine ⟨?_, fun v => ?_, fun v hv => ?_, hc.pool⟩
  · unfold chain
    dsimp only
    split
    · rename_i h
      refine nodup_cons.mpr ⟨fun hin => ?_, hc.nodup⟩
      exact hmem.mp hin h.1
    · split
      · exact hc.nodup.erase up
      · exact hc.nodup
  · unfold chain
    dsimp only
    by_cases hv : v = up
    · rw [hv, update_self]
      split
      · rename_i h
        exact iff_of_true mem_cons_self h.2
      · split
        · rename_i h
          exact iff_of_false (fun hin => (hc.nodup.mem_erase_iff.mp hin).1 rfl) fun hne => hne h.2
        · rename_i h1 h2
          rw [hmem]
          by_cases h3 : s.un_ent up = []
          · by_cases h4 : es = []
            · rw [h3, h4]
            · exact absurd ⟨h3, h4⟩ h1
          · by_cases h4 : es = []
            · exact absurd ⟨h3, h4⟩ h2
            · exact iff_of_true h3 h4
    · rw [hother v hv, ← hc.mem v]
      split
      · rw [mem_cons]
        exact or_iff_right hv
      · split
        · exact mem_erase_of_ne hv
        · rfl
  · dsimp only at hv ⊢
    by_cases hvu : v = up
    · exact ⟨p, hvu ▸ hp⟩
    · rw [hother v hvu] at hv
      exact hc.owner v hv

theorem semaoe_chained (hc : Chained n s) (val : Int16) (num : Int16) :
    Chained n (semaoe info p val id num s).2 := by
  unfold semaoe
  split
  · exact hc
  · split
    · exact hc
    · cases hg : getUndo p s with
      | none => exact hc
      | some r =>
        obtain ⟨up, t⟩ := r
        obtain ⟨hct, hp⟩ := getUndo_chained hc hg
        exact hct.setEnt hp _

theorem addVal_same (num : UInt16) (val : Int16) (s : Sys) : SameUndo s (addVal num val s) :=
  ⟨rfl, rfl, rfl, rfl⟩

theorem wakeNcnt_same (num : UInt16) (s : Sys) : SameUndo s (wakeNcnt num s) := by
  unfold wakeNcnt
  split
  · exact SameUndo.refl s
  · exact ⟨rfl, rfl, rfl, rfl⟩

theorem wakeZcnt_same (num : UInt16) (s : Sys) : SameUndo s (wakeZcnt num s) := by
  unfold wakeZcnt
  split
  · exact SameUndo.refl s
  · exact ⟨rfl, rfl, rfl, rfl⟩

theorem tryUndo_chained (info : Seminfo) (p : ℕ) (id : ℤ) (op : Sembuf) (hc : Chained n s) : Chained n (tryUndo info p id op s).2 := by
  unfold tryUndo
  split
  · exact semaoe_chained hc _ _
  · exact hc

theorem doOp_chained (info : Seminfo) (p : ℕ) (id : ℤ) (op : Sembuf) (hc : Chained n s) : Chained n (doOp info p id op s).2 := by
  have htry := tryUndo_chained info p id op hc
  unfold doOp
  dsimp only
  split
  · split
    · exact hc
    · split
      · rename_i he
        rw [he] at htry
        exact htry
      · rename_i he
        rw [he] at htry
        have hadd := htry.same (addVal_same op.sem_num op.sem_op _)
        exact (hadd.same (wakeNcnt_same _ _)).same (wakeZcnt_same _ _)
  · split
    · split
      · split
        · rename_i he
          rw [he] at htry
          exact htry
        · rename_i he
          rw [he] at htry
          have hadd := htry.same (addVal_same op.sem_num op.sem_op _)
          exact hadd.same (wakeZcnt_same _ _)
      · exact hc
    · split
      · exact hc
      · exact hc

theorem semundo_chained {ops : List Sembuf} (hc : Chained n s) :
    Chained n (semundo info p id ops s) := by
  induction ops generalizing s with
  | nil => exact hc
  | cons op ops ih =>
    apply ih
    unfold undoOp
    split
    · exact hc
    · dsimp only
      have hadd : Chained n (addVal op.sem_num (-op.sem_op) s) := hc.same (addVal_same _ _ _)
      split
      · exact semaoe_chained hadd _ _
      · exact hadd

theorem pass_chained (info : Seminfo) (p : ℕ) (id : ℤ) (done todo : List Sembuf) (hc : Chained n s) :
    Chained n (pass info p id done todo s).2 := by
  induction todo generalizing done s with
  | nil => exact hc
  | cons op ops ih =>
    have hdo := doOp_chained info p id op hc
    unfold pass
    split
    · rename_i he
      rw [he] at hdo
      exact ih _ hdo
    · rename_i he
      rw [he] at hdo
      exact semundo_chained hdo
    · rename_i he
      rw [he] at hdo
      dsimp only
      split
      · exact semundo_chained hdo
      · apply (semundo_chained hdo).same
        unfold countWaiter
        split <;> exact ⟨rfl, rfl, rfl, rfl⟩

theorem setPid_same (pid : Int16) (ops : List Sembuf) (s : Sys) : SameUndo s (setPid pid ops s) := by
  induction ops generalizing s with
  | nil => exact SameUndo.refl s
  | cons op ops ih =>
    have hset : SameUndo s (setSem op.sem_num { s.sem op.sem_num with sempid := pid } s) :=
      ⟨rfl, rfl, rfl, rfl⟩
    exact hset.trans (ih _)

theorem semop_chained {env : Env} {uap : Args} (hc : Chained n s) (entry : Entry) :
    Chained n (semop info env uap s entry).2 := by
  have hbody : Chained n (body info env uap s).2 := by
    have hpass := pass_chained info env.p uap.semid [] uap.sops hc
    unfold body
    split
    · rename_i he
      rw [he] at hpass
      have hset := hpass.same (setPid_same env.p_pid uap.sops _)
      exact hset.same ⟨rfl, rfl, rfl, rfl⟩
    · exact hpass
  cases entry with
  | call =>
    unfold semop
    dsimp only
    split
    · exact hc
    · split
      · exact hc
      · split
        · exact hc
        · split
          · exact hc
          · exact hbody
  | wakeup =>
    unfold semop
    dsimp only
    split
    · exact hc
    · split
      · exact hc
      · exact hbody
  | signal c =>
    apply hc.same
    unfold semop uncountWaiter
    dsimp only
    split <;> split <;> exact ⟨rfl, rfl, rfl, rfl⟩

end Chains

/-! ## `semunrm` -/

/-- An entry that `semunrm` takes away. -/
def Undo.within (id : ℤ) (low high : UInt16) (e : Undo) : Bool :=
  e.un_id = id && (low.toNat ≤ e.un_num.toInt && e.un_num.toInt ≤ high.toNat)

section Semunrm

variable {id : ℤ} {low high : UInt16} {n : ℕ} {k : Kernel}

theorem Undo.within_iff {e : Undo} : e.within id low high = true ↔
    e.un_id = id ∧ low.toNat ≤ e.un_num.toInt ∧ e.un_num.toInt ≤ high.toNat := by
  simp [Undo.within]

/-- In a sorted table the early breaks miss nothing. -/
theorem unrm_eq_filter {es : List Undo}
    (hs : es.Pairwise fun a b => a.before b.un_id b.un_num = true) :
    unrm id low high es = es.filter fun e => !e.within id low high := by
  induction es with
  | nil => rfl
  | cons e es ih =>
    obtain ⟨he, hes⟩ := pairwise_cons.mp hs
    -- nothing from `e` on is in the range
    have hbreak (h : id < e.un_id ∨ e.un_id = id ∧ (high.toNat : ℤ) < e.un_num.toInt) :
        (e :: es).filter (fun e => !e.within id low high) = e :: es := by
      apply filter_eq_self.mpr
      intro b hb
      rw [Bool.not_eq_true', ← Bool.not_eq_true, Undo.within_iff]
      rcases mem_cons.mp hb with rfl | hb
      · omega
      · have hlt := Undo.before_iff.mp (he b hb)
        omega
    unfold unrm
    split
    · rename_i h
      exact (hbreak (.inl h)).symm
    · rename_i h1
      split
      · rename_i h2
        have hout : ¬ e.within id low high = true := by
          rw [Undo.within_iff]
          omega
        rw [ih hes, filter_cons_of_pos (by simpa using hout)]
      · rename_i h2
        split
        · rename_i h3
          exact (hbreak (.inr ⟨by omega, h3⟩)).symm
        · rename_i h3
          have hin : e.within id low high = true := by
            rw [Undo.within_iff]
            omega
          rw [ih hes, filter_cons_of_neg (by simpa using hin)]

theorem Table.filter {info : Seminfo} {es : List Undo} (ht : Table info es) (p : Undo → Bool) :
    Table info (es.filter p) := by
  refine ⟨ht.sorted.sublist filter_sublist, fun e he => ?_, ?_⟩
  · exact ht.bounded e (mem_filter.mp he).1
  · exact (length_filter_le p es).trans ht.length

theorem adjOf_filter {id' : ℤ} {num : Int16} (es : List Undo) :
    adjOf id' num (es.filter fun e => !e.within id low high) =
      if id' = id ∧ low.toNat ≤ num.toInt ∧ num.toInt ≤ high.toNat then 0 else adjOf id' num es := by
  induction es with
  | nil => simp [adjOf]
  | cons e es ih =>
    by_cases hin : e.within id low high = true
    · rw [filter_cons_of_neg (by simpa using hin), ih]
      rw [Undo.within_iff] at hin
      split
      · rfl
      · rename_i hne
        rw [adjOf, if_neg]
        rintro ⟨rfl, rfl⟩
        exact hne hin
    · rw [filter_cons_of_pos (by simpa using hin)]
      rw [Undo.within_iff] at hin
      simp only [adjOf, ih]
      split
      · rename_i hkey
        obtain ⟨rfl, rfl⟩ := hkey
        rw [if_neg hin]
      · rfl

/-- The loop of `semunrm` works on the structures of the chain. -/
theorem unrmLoop_spec {ps : List ℕ} (hnd : ps.Nodup) (ent : ℕ → List Undo) :
    unrmLoop id low high ps ent =
      (ps.filter fun p => !(unrm id low high (ent p)).isEmpty,
        fun p => if p ∈ ps then unrm id low high (ent p) else ent p) := by
  induction ps generalizing ent with
  | nil => simp [unrmLoop]
  | cons p ps ih =>
    obtain ⟨hp, hps⟩ := nodup_cons.mp hnd
    have hother (q : ℕ) (hq : q ∈ ps) :
        update ent p (unrm id low high (ent p)) q = ent q := by
      apply update_of_ne
      rintro rfl
      exact hp hq
    unfold unrmLoop
    dsimp only
    rw [ih hps]
    apply Prod.ext
    · have hrest : (ps.filter fun q =>
          !(unrm id low high (update ent p (unrm id low high (ent p)) q)).isEmpty) =
          ps.filter fun q => !(unrm id low high (ent q)).isEmpty := by
        apply filter_congr
        intro q hq
        rw [hother q hq]
      dsimp only
      rw [hrest]
      by_cases hempty : (unrm id low high (ent p)).isEmpty = true
      · rw [if_pos hempty, filter_cons_of_neg (by simpa using hempty)]
      · rw [if_neg hempty, filter_cons_of_pos (by simpa using hempty)]
    · funext q
      dsimp only
      by_cases hq : q ∈ ps
      · rw [if_pos hq, if_pos (mem_cons_of_mem _ hq), hother q hq]
      · rw [if_neg hq]
        by_cases hqp : q = p
        · rw [hqp, update_self, if_pos mem_cons_self]
        · rw [update_of_ne hqp, if_neg]
          simp [hqp, hq]

/-- What `semunrm` leaves: the entries out of the range, and the structures that still have some. -/
theorem semunrm_spec (id : ℤ) (low high : UInt16) (hc : Chained n (k.view 0 0))
    (hs : ∀ up, (k.un_ent up).Pairwise fun a b => a.before b.un_id b.un_num = true) :
    let t := semunrm id low high k
    (∀ up, t.un_ent up = (k.un_ent up).filter fun e => !e.within id low high) ∧
      Chained n (t.view 0 0) := by
  have hnd : k.semunp.Nodup := hc.nodup
  have hent (up : ℕ) : (semunrm id low high k).un_ent up =
      (k.un_ent up).filter fun e => !e.within id low high := by
    unfold semunrm
    dsimp only
    rw [unrmLoop_spec hnd]
    dsimp only
    split
    · exact unrm_eq_filter (hs up)
    · rename_i hup
      have hnil : k.un_ent up = [] := by
        by_contra hne
        exact hup ((hc.mem up).mpr hne)
      rw [hnil]
      rfl
  have hchain : (semunrm id low high k).semunp =
      k.semunp.filter fun up => !(unrm id low high (k.un_ent up)).isEmpty := by
    unfold semunrm
    dsimp only
    rw [unrmLoop_spec hnd]
  have hsub (up : ℕ) (h : (semunrm id low high k).un_ent up ≠ []) : k.un_ent up ≠ [] := by
    intro hnil
    apply h
    rw [hent up, hnil]
    rfl
  refine ⟨hent, ?_, fun up => ?_, fun up hup => hc.owner up (hsub up hup), hc.pool⟩
  · show (semunrm id low high k).semunp.Nodup
    rw [hchain]
    exact hc.nodup.filter _
  · show up ∈ (semunrm id low high k).semunp ↔ (semunrm id low high k).un_ent up ≠ []
    rw [hchain, mem_filter, unrm_eq_filter (hs up), ← hent up]
    constructor
    · rintro ⟨-, h⟩
      simpa using h
    · intro h
      exact ⟨(hc.mem up).mpr (hsub up h), by simpa using h⟩

end Semunrm

end Svr3.Ipc
