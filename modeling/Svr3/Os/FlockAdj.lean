import Svr3.Os.Flock

/-!
# What a granted record lock means

Byte by byte, `flckadj` overlays the locks of its process with the request, and leaves the list
ordered by start, with the locks of each owner disjoint and coalesced. The invariant of its loop
is that the overlay of the list by the request, as both stand, is the one asked for.
-/

namespace Svr3.Rlock

open List

/-- Two locks have the same owner. -/
def Filock.sameOwner (e f : Filock) : Prop :=
  e.set.l_pid = f.set.l_pid ∧ e.set.l_sysid = f.set.l_sysid

/-- `e` comes before `f`: it starts no later, and when they have the same owner it ends before `f`
starts, and adjoins it only with another type. -/
def Precedes (e f : Filock) : Prop :=
  e.set.l_start ≤ f.set.l_start ∧ (e.sameOwner f →
    e.set.l_end < f.set.l_start ∧
      (e.set.l_end + 1 = f.set.l_start → e.set.l_type ≠ f.set.l_type))

structure Flock.Valid (f : Flock) : Prop where
  type : f.l_type = .F_RDLCK ∨ f.l_type = .F_WRLCK
  start : 0 ≤ f.l_start
  le : f.l_start ≤ f.l_end
  max : f.l_end ≤ MAXEND

/-- A list of record locks. -/
structure WF (lst : List Filock) : Prop where
  ordered : lst.Pairwise Precedes
  valid : ∀ f ∈ lst, f.set.Valid

/-- The process holds a lock of type `t` at offset `b`. -/
def Holds (u : Owner) (lst : List Filock) (b : ℤ) (t : LType) : Prop :=
  ∃ f ∈ lst, f.own u = true ∧ f.set.l_start ≤ b ∧ b ≤ f.set.l_end ∧ f.set.l_type = t

def Flock.covers (ld : Flock) (b : ℤ) : Prop := ld.l_start ≤ b ∧ b ≤ ld.l_end

/-- What the process holds when the request is laid over the list. -/
def Overlay (u : Owner) (lst : List Filock) (ld : Flock) (b : ℤ) (t : LType) : Prop :=
  ld.covers b ∧ t = ld.l_type ∨ ¬ ld.covers b ∧ Holds u lst b t

section Lists

variable {u : Owner} {xs ys zs : List Filock} {e f : Filock} {b : ℤ} {t : LType}

theorem sameOwner_of_own (he : e.own u = true) (hf : f.own u = true) : e.sameOwner f := by
  simp only [Filock.own, Bool.and_eq_true, decide_eq_true_eq] at he hf
  exact ⟨he.1.trans hf.1.symm, he.2.trans hf.2.symm⟩

theorem own_congr (h : e.sameOwner f) : e.own u = f.own u := by
  unfold Filock.own
  rw [h.1, h.2]

theorem holds_append : Holds u (xs ++ ys) b t ↔ Holds u xs b t ∨ Holds u ys b t := by
  unfold Holds
  constructor
  · rintro ⟨f, hf, h⟩
    rcases mem_append.mp hf with hf | hf
    · exact .inl ⟨f, hf, h⟩
    · exact .inr ⟨f, hf, h⟩
  · rintro (⟨f, hf, h⟩ | ⟨f, hf, h⟩)
    · exact ⟨f, mem_append_left _ hf, h⟩
    · exact ⟨f, mem_append_right _ hf, h⟩

theorem holds_cons (hf : f.own u = true) :
    Holds u (f :: ys) b t ↔ f.set.covers b ∧ t = f.set.l_type ∨ Holds u ys b t := by
  unfold Holds Flock.covers
  constructor
  · rintro ⟨g, hg, hown, h1, h2, h3⟩
    rcases mem_cons.mp hg with rfl | hg
    · exact .inl ⟨⟨h1, h2⟩, h3.symm⟩
    · exact .inr ⟨g, hg, hown, h1, h2, h3⟩
  · rintro (⟨⟨h1, h2⟩, h3⟩ | ⟨g, hg, h⟩)
    · exact ⟨f, by simp, hf, h1, h2, h3.symm⟩
    · exact ⟨g, by simp [hg], h⟩

/-- A lock of the process against the locks before it and behind it. -/
theorem WF.around (h : WF (xs ++ f :: ys)) (hf : f.own u = true) :
    (∀ e ∈ xs, e.set.l_start ≤ f.set.l_start ∧ (e.own u = true → e.set.l_end < f.set.l_start ∧
      (e.set.l_end + 1 = f.set.l_start → e.set.l_type ≠ f.set.l_type))) ∧
    ∀ e ∈ ys, f.set.l_start ≤ e.set.l_start ∧ (e.own u = true → f.set.l_end < e.set.l_start ∧
      (f.set.l_end + 1 = e.set.l_start → f.set.l_type ≠ e.set.l_type)) := by
  obtain ⟨-, h2, h3⟩ := pairwise_append.mp h.ordered
  constructor
  · intro e he
    have hp := h3 e he f (by simp)
    exact ⟨hp.1, fun hown => hp.2 (sameOwner_of_own hown hf)⟩
  · intro e he
    have hp := (pairwise_cons.mp h2).1 e he
    exact ⟨hp.1, fun hown => hp.2 (sameOwner_of_own hf hown)⟩

theorem WF.del (h : WF (xs ++ f :: ys)) : WF (xs ++ ys) := by
  have hsub : (xs ++ ys).Sublist (xs ++ f :: ys) :=
    List.Sublist.append_left (sublist_cons_self f ys) xs
  exact ⟨h.ordered.sublist hsub, fun e he => h.valid e (hsub.subset he)⟩

/-- A lock ends earlier, with the rest of it. -/
theorem WF.cut (h : WF (xs ++ f :: ys)) {g : Filock} (hown : g.sameOwner f)
    (hstart : g.set.l_start = f.set.l_start) (htype : g.set.l_type = f.set.l_type)
    (hle : g.set.l_start ≤ g.set.l_end) (hend : g.set.l_end < f.set.l_end) :
    WF (xs ++ g :: ys) := by
  obtain ⟨h1, h2, h3⟩ := pairwise_append.mp h.ordered
  obtain ⟨h4, h5⟩ := pairwise_cons.mp h2
  have hf := h.valid f (by simp)
  constructor
  · refine pairwise_append.mpr ⟨h1, pairwise_cons.mpr ⟨fun e he => ?_, h5⟩, ?_⟩
    · obtain ⟨h6, h7⟩ := h4 e he
      refine ⟨by omega, fun hs => ?_⟩
      have := h7 ⟨hown.1.symm.trans hs.1, hown.2.symm.trans hs.2⟩
      refine ⟨by omega, fun he => ?_⟩
      omega
    · intro e he e' he'
      rcases mem_cons.mp he' with rfl | he'
      · obtain ⟨h6, h7⟩ := h3 e he f (by simp)
        refine ⟨by omega, fun hs => ?_⟩
        rw [hstart, htype]
        exact h7 ⟨hs.1.trans hown.1, hs.2.trans hown.2⟩
      · exact h3 e he e' (by simp [he'])
  · intro e he
    rcases mem_append.mp he with he | he
    · exact h.valid e (by simp [he])
    · rcases mem_cons.mp he with rfl | he
      · exact ⟨by rw [htype]; exact hf.type, by rw [hstart]; exact hf.start, hle,
          by have := hf.max; omega⟩
      · exact h.valid e (by simp [he])

/-- A new lock of the process goes into the list. -/
theorem WF.insert (h : WF (xs ++ ys)) (hf : f.own u = true) (hv : f.set.Valid)
    (hxs : ∀ e ∈ xs, e.set.l_start ≤ f.set.l_start) (hys : ∀ e ∈ ys, f.set.l_start ≤ e.set.l_start)
    (hclear : ∀ e ∈ xs ++ ys, e.own u = true →
      (e.set.l_end < f.set.l_start ∨ f.set.l_end < e.set.l_start) ∧
      (e.set.l_end + 1 = f.set.l_start ∨ f.set.l_end + 1 = e.set.l_start →
        e.set.l_type ≠ f.set.l_type)) : WF (xs ++ f :: ys) := by
  obtain ⟨h1, h2, h3⟩ := pairwise_append.mp h.ordered
  have hle := hv.le
  constructor
  · refine pairwise_append.mpr ⟨h1, pairwise_cons.mpr ⟨fun e he => ?_, h2⟩, ?_⟩
    · refine ⟨hys e he, fun hs => ?_⟩
      have hown : e.own u = true := (own_congr hs).symm.trans hf
      obtain ⟨h4, h5⟩ := hclear e (by simp [he]) hown
      have hev := (h.valid e (by simp [he])).le
      have := hys e he
      exact ⟨by omega, fun hadj htype => h5 (.inr hadj) htype.symm⟩
    · intro e he e' he'
      rcases mem_cons.mp he' with rfl | he'
      · refine ⟨hxs e he, fun hs => ?_⟩
        have hown : e.own u = true := (own_congr hs).trans hf
        obtain ⟨h4, h5⟩ := hclear e (by simp [he]) hown
        have := hxs e he
        exact ⟨by omega, fun hadj => h5 (.inl hadj)⟩
      · exact h3 e he e' he'
  · intro e he
    rcases mem_append.mp he with he | he
    · exact h.valid e (by simp [he])
    · rcases mem_cons.mp he with rfl | he
      · exact hv
      · exact h.valid e (by simp [he])

end Lists

/-! ## The invariant of the loop -/

/-- The list and the request as they stand, against the list and the request of the call. -/
structure Mid (u : Owner) (lst0 : List Filock) (ld0 : Flock) (lst : List Filock) (ld : Flock) :
    Prop where
  wf : WF lst
  start : 0 ≤ ld.l_start
  le : ld.l_start ≤ ld.l_end
  max : ld.l_end ≤ MAXEND
  type : ld.l_type = ld0.l_type
  meaning : ∀ b t, Overlay u lst ld b t ↔ Overlay u lst0 ld0 b t
  others : (lst.filter fun f => !f.own u) = lst0.filter fun f => !f.own u

/-- A pointer for the insertion of a lock that starts at `s`. -/
structure Hint (lst : List Filock) (p : ℕ) (s : ℤ) : Prop where
  null : p = 0 → ∀ f ∈ lst, s ≤ f.set.l_start
  upto : ∀ f ∈ lst.take p, f.set.l_start ≤ s

/-- The locks of the process in `lst` stay clear of the request, on its left. -/
def ClearLeft (u : Owner) (lst : List Filock) (ld : Flock) : Prop :=
  ∀ e ∈ lst, e.own u = true → e.set.l_end < ld.l_start ∧
    (e.set.l_end + 1 = ld.l_start → e.set.l_type ≠ ld.l_type)

/-- The same on its right. -/
def ClearRight (u : Owner) (lst : List Filock) (ld : Flock) : Prop :=
  ∀ e ∈ lst, e.own u = true → ld.l_end < e.set.l_start ∧
    (ld.l_end + 1 = e.set.l_start → e.set.l_type ≠ ld.l_type)

/-- The invariant of the loop, with the locks before `flp` and the rest of the list. -/
structure Inv (u : Owner) (lst0 : List Filock) (ld0 : Flock) (before rest : List Filock)
    (insrtp : ℕ) (ld : Flock) : Prop where
  mid : Mid u lst0 ld0 (before ++ rest) ld
  left : ClearLeft u before ld
  hint : ld.l_type ≠ .F_UNLCK → Hint (before ++ rest) insrtp ld.l_start ∧ insrtp ≤ before.length + 1

/-- What holds after the loop. -/
structure Done (u : Owner) (lst0 : List Filock) (ld0 : Flock) (lst : List Filock) (insrtp : ℕ)
    (ld : Flock) : Prop where
  mid : Mid u lst0 ld0 lst ld
  clear : ∃ xs ys, lst = xs ++ ys ∧ ClearLeft u xs ld ∧ ClearRight u ys ld
  hint : ld.l_type ≠ .F_UNLCK → Hint lst insrtp ld.l_start

section Mid

variable {u : Owner} {lst0 xs ys : List Filock} {ld0 ld : Flock} {f : Filock}

/-- The offsets of the lock `f` of the process go in part to the request, in part to what stays of
the lock. -/
theorem overlay_replace (stay : LType → ℤ → Prop) (h : WF (xs ++ f :: ys)) (hf : f.own u = true)
    {ld' : Flock} (htype : ld'.l_type = ld.l_type)
    (hgrow : ∀ b, ld.covers b → ld'.covers b)
    (hnew : ∀ b, ld'.covers b → ¬ ld.covers b → f.set.covers b ∧ f.set.l_type = ld.l_type)
    (hstay : ∀ b t, ¬ ld'.covers b → (stay t b ↔ f.set.covers b ∧ t = f.set.l_type))
    {lst : List Filock}
    (hlst : ∀ b t, Holds u lst b t ↔ Holds u xs b t ∨ stay t b ∨ Holds u ys b t) (b : ℤ)
    (t : LType) : Overlay u lst ld' b t ↔ Overlay u (xs ++ f :: ys) ld b t := by
  obtain ⟨hxs, hys⟩ := h.around hf
  unfold Overlay
  rw [htype, hlst, holds_append, holds_cons hf]
  by_cases hb : ld.covers b
  · simp [hb, hgrow b hb]
  · by_cases hb' : ld'.covers b
    · -- an offset that the request took over from `f`, the only lock there
      obtain ⟨hfb, hft⟩ := hnew b hb' hb
      have hx : ¬ Holds u xs b t := by
        rintro ⟨e, he, hown, h1, h2, -⟩
        have := ((hxs e he).2 hown).1
        have := hfb.1
        omega
      have hy : ¬ Holds u ys b t := by
        rintro ⟨e, he, hown, h1, h2, -⟩
        have := ((hys e he).2 hown).1
        have := hfb.2
        omega
      simp [hb, hb', hfb, hft, hx, hy]
    · simp [hb, hb', hstay b t hb']

theorem filter_others (hf : f.own u = true) :
    ((xs ++ f :: ys).filter fun e => !e.own u) = (xs ++ ys).filter fun e => !e.own u := by
  simp [filter_append, hf]

/-- The lock is deleted, and the request takes in its offsets. -/
theorem Mid.del (h : Mid u lst0 ld0 (xs ++ f :: ys) ld) (hf : f.own u = true) (ld' : Flock)
    (htype : ld'.l_type = ld.l_type) (hstart : ld'.l_start ≤ ld.l_start)
    (hend : ld.l_end ≤ ld'.l_end)
    (hf1 : ld'.l_start ≤ f.set.l_start) (hf2 : f.set.l_end ≤ ld'.l_end)
    (hleft : ld'.l_start < ld.l_start → ld'.l_start = f.set.l_start ∧
      ld.l_start ≤ f.set.l_end + 1 ∧ f.set.l_type = ld.l_type)
    (hright : ld.l_end < ld'.l_end → ld'.l_end = f.set.l_end ∧
      f.set.l_start ≤ ld.l_end + 1 ∧ f.set.l_type = ld.l_type) :
    Mid u lst0 ld0 (xs ++ ys) ld' := by
  have hv := h.wf.valid f (by simp)
  have h1 := hv.start
  have h2 := hv.max
  have h3 := h.start
  have h4 := h.max
  have h5 := h.le
  refine ⟨h.wf.del, by omega, by omega, by omega, htype.trans h.type, fun b t => ?_, ?_⟩
  · refine (overlay_replace (fun _ _ => False) h.wf hf htype ?_ ?_ ?_ ?_ b t).trans
      (h.meaning b t)
    · intro b hb
      exact ⟨Int.le_trans hstart hb.1, Int.le_trans hb.2 hend⟩
    · intro b hb hb'
      unfold Flock.covers at hb hb' ⊢
      by_cases hl : ld'.l_start < ld.l_start
      · obtain ⟨h6, h7, h8⟩ := hleft hl
        by_cases hr : ld.l_end < ld'.l_end
        · obtain ⟨h9, h10, -⟩ := hright hr
          exact ⟨by omega, h8⟩
        · exact ⟨by omega, h8⟩
      · obtain ⟨h6, h7, h8⟩ := hright (by omega)
        exact ⟨by omega, h8⟩
    · intro b t hb
      unfold Flock.covers at hb ⊢
      refine iff_of_false id ?_
      rintro ⟨⟨h6, h7⟩, -⟩
      exact hb ⟨by omega, by omega⟩
    · intro b t
      simp [holds_append]
  · rw [← h.others, filter_others hf]

/-- The lock is cut down to what lies before the request. -/
theorem Mid.cut (h : Mid u lst0 ld0 (xs ++ f :: ys) ld) (hf : f.own u = true) {g : Filock}
    (hg : g.sameOwner f) (hstart : g.set.l_start = f.set.l_start)
    (htype : g.set.l_type = f.set.l_type) (hend : g.set.l_end = ld.l_start - 1)
    (h1 : f.set.l_start < ld.l_start) (h2 : ld.l_start ≤ f.set.l_end) (h3 : f.set.l_end ≤ ld.l_end) :
    Mid u lst0 ld0 (xs ++ g :: ys) ld := by
  have hgown : g.own u = true := (own_congr hg).trans hf
  refine ⟨h.wf.cut hg hstart htype (by omega) (by omega), h.start, h.le, h.max, h.type,
    fun b t => ?_, ?_⟩
  · refine (overlay_replace (fun t b => g.set.covers b ∧ t = g.set.l_type) h.wf hf rfl
      (fun _ hb => hb) (fun _ hb hb' => absurd hb hb') ?_ ?_ b t).trans (h.meaning b t)
    · intro b t hb
      unfold Flock.covers at hb ⊢
      rw [htype]
      refine and_congr_left fun _ => ?_
      omega
    · intro b t
      rw [holds_append, holds_cons hgown]
  · rw [← h.others, filter_others hf, filter_others hgown]

/-- The piece of the lock behind the request goes into the list on its own; `stay` is what stays of
the lock before the request. -/
theorem Mid.piece (h : Mid u lst0 ld0 (xs ++ f :: ys) ld) (hf : f.own u = true)
    (h1 : f.set.l_start ≤ ld.l_end) (h2 : ld.l_end < f.set.l_end) {stay ys1 ys2 : List Filock}
    (hwf : WF ((xs ++ stay) ++ ys)) (hys : ys = ys1 ++ ys2)
    (hstay : ∀ e ∈ stay, e.own u = true ∧ e.set.l_start ≤ f.set.l_start ∧
      e.set.l_end + 1 = ld.l_start)
    (hholds : ∀ b t, ¬ ld.covers b → (Holds u stay b t ↔
      f.set.l_start ≤ b ∧ b < ld.l_start ∧ t = f.set.l_type))
    {td : Filock} (htd : td.own u = true) (htype : td.set.l_type = f.set.l_type)
    (hstart : td.set.l_start = ld.l_end + 1) (hend : td.set.l_end = f.set.l_end)
    (hys1 : ∀ e ∈ ys1, e.set.l_start ≤ td.set.l_start)
    (hys2 : ∀ e ∈ ys2, td.set.l_start ≤ e.set.l_start) :
    Mid u lst0 ld0 (xs ++ stay ++ (ys1 ++ td :: ys2)) ld := by
  obtain ⟨hbefore, hbehind⟩ := h.wf.around hf
  have hv := h.wf.valid f (by simp)
  have hv1 := hv.start
  have hv2 := hv.max
  have h3 := h.start
  have h5 := h.le
  have hlist : xs ++ stay ++ (ys1 ++ td :: ys2) = (xs ++ stay ++ ys1) ++ td :: ys2 := by simp
  subst hys
  refine ⟨?_, h.start, h.le, h.max, h.type, fun b t => ?_, ?_⟩
  · rw [hlist]
    apply WF.insert (by simpa using hwf) htd
    · exact ⟨by rw [htype]; exact hv.type, by omega, by omega, by omega⟩
    · intro e he
      simp only [mem_append] at he
      rcases he with (he | he) | he
      · have := (hbefore e he).1
        omega
      · have := (hstay e he).2.1
        omega
      · exact hys1 e he
    · exact hys2
    · intro e he hown
      simp only [mem_append] at he
      have hev := (hwf.valid e (by simp only [mem_append]; grind)).le
      rcases he with ((he | he) | he) | he
      · have := ((hbefore e he).2 hown).1
        exact ⟨by omega, fun _ => by omega⟩
      · have := (hstay e he).2.2
        exact ⟨by omega, fun _ => by omega⟩
      · -- the process has no lock between the request and the end of `f`
        have := ((hbehind e (by simp [he])).2 hown).1
        have := hys1 e he
        omega
      · obtain ⟨h6, h7⟩ := (hbehind e (by simp [he])).2 hown
        refine ⟨by omega, fun hadj => ?_⟩
        rw [htype]
        exact (h7 (by omega)).symm
  · refine (overlay_replace (fun t b => Holds u stay b t ∨ td.set.covers b ∧
      t = td.set.l_type) h.wf hf rfl (fun _ hb => hb) (fun _ hb hb' => absurd hb hb') ?_ ?_ b
      t).trans (h.meaning b t)
    · intro b t hb
      rw [hholds b t hb, htype]
      unfold Flock.covers at hb ⊢
      constructor
      · rintro (⟨h6, h7, h8⟩ | ⟨⟨h6, h7⟩, h8⟩)
        · exact ⟨⟨by omega, by omega⟩, h8⟩
        · exact ⟨⟨by omega, by omega⟩, h8⟩
      · rintro ⟨⟨h6, h7⟩, h8⟩
        by_cases hlt : b < ld.l_start
        · exact .inl ⟨h6, hlt, h8⟩
        · exact .inr ⟨⟨by omega, by omega⟩, h8⟩
    · intro b t
      simp only [holds_append, holds_cons htd]
      grind
  · rw [hlist, filter_others htd, ← h.others, filter_others hf]
    have hnone : (stay.filter fun e => !e.own u) = [] := by
      rw [filter_eq_nil_iff]
      intro e he
      simp [(hstay e he).1]
    simp [filter_append, hnone]

end Mid

/-! ## Places in the list -/

section Places

variable {lst xs ys : List Filock} {f g : Filock} {s : ℤ} {p : ℕ}

theorem seek_pos (s : ℤ) (lst : List Filock) : 1 ≤ seek s lst := Nat.le_max_left _ _

theorem WF.sorted (h : WF lst) : lst.Pairwise fun e f => e.set.l_start ≤ f.set.l_start :=
  h.ordered.imp fun hp => hp.1

theorem takeWhile_spec (h : lst.Pairwise fun e f => e.set.l_start ≤ f.set.l_start) :
    (∀ e ∈ lst.take (lst.takeWhile fun f => f.set.l_start < s).length, e.set.l_start < s) ∧
    ∀ e ∈ lst.drop (lst.takeWhile fun f => f.set.l_start < s).length, s ≤ e.set.l_start := by
  induction lst with
  | nil => simp
  | cons f fs ih =>
    obtain ⟨hf, hfs⟩ := pairwise_cons.mp h
    by_cases hlt : f.set.l_start < s
    · rw [takeWhile_cons, if_pos (by simpa using hlt)]
      simpa [hlt] using ih hfs
    · rw [takeWhile_cons, if_neg (by simpa using hlt)]
      refine ⟨by simp, fun e he => ?_⟩
      rcases mem_cons.mp he with rfl | he
      · exact Int.not_lt.mp hlt
      · exact Int.le_trans (Int.not_lt.mp hlt) (hf e he)

/-- The loop that looks for the place of a lock that starts at `s`. -/
theorem seek_spec (h : lst.Pairwise fun e f => e.set.l_start ≤ f.set.l_start) :
    (∀ e ∈ lst.take (seek s lst), e.set.l_start < s ∨ lst.head? = some e) ∧
    ∀ e ∈ lst.drop (seek s lst), s ≤ e.set.l_start := by
  obtain ⟨h1, h2⟩ := takeWhile_spec (s := s) h
  unfold seek
  rcases Nat.eq_zero_or_pos (lst.takeWhile fun f => f.set.l_start < s).length with hz | hpos
  · -- the first lock is passed over unseen
    rw [hz] at h2 ⊢
    refine ⟨fun e he => .inr ?_, fun e he => h2 e ?_⟩
    · cases lst with
      | nil => simp at he
      | cons f fs => exact congrArg some (mem_singleton.mp he).symm
    · exact mem_of_mem_drop he
  · rw [Nat.max_eq_right hpos]
    exact ⟨fun e he => .inl (h1 e he), h2⟩

/-- The new lock goes behind the locks that start before it, and before those that start behind. -/
theorem place_spec (h : WF lst) {ld : Flock} (hint : Hint lst p ld.l_start) :
    (∀ e ∈ lst.take (place p ld lst), e.set.l_start ≤ ld.l_start) ∧
    ∀ e ∈ lst.drop (place p ld lst), ld.l_start ≤ e.set.l_start := by
  unfold place
  by_cases hp : p = 0
  · rw [if_pos hp]
    exact ⟨by simp, by simpa using hint.null hp⟩
  · rw [if_neg hp]
    have hsorted := h.sorted.sublist (drop_sublist (p - 1) lst)
    obtain ⟨h1, h2⟩ := seek_spec (s := ld.l_start) hsorted
    rw [take_add, ← drop_drop]
    refine ⟨fun e he => ?_, h2⟩
    rcases mem_append.mp he with he | he
    · apply hint.upto e
      exact take_subset_take_left lst (Nat.sub_le p 1) he
    · rcases h1 e he with hlt | hhead
      · exact Int.le_of_lt hlt
      · -- the lock that the pointer points to
        apply hint.upto e
        have hget : lst[p - 1]? = some e := by
          rw [← hhead, List.head?_drop]
        obtain ⟨hlt, hget⟩ := List.getElem?_eq_some_iff.mp hget
        exact mem_take_iff_getElem.mpr ⟨p - 1, by omega, hget⟩

theorem Hint.prev (hxs : ∀ e ∈ xs, e.set.l_start ≤ s) (hys : ∀ e ∈ ys, s ≤ e.set.l_start) :
    Hint (xs ++ ys) xs.length s := by
  refine ⟨fun h0 => ?_, fun e he => hxs e (by simpa using he)⟩
  rw [length_eq_zero_iff] at h0
  subst h0
  exact hys

theorem Hint.self (hxs : ∀ e ∈ xs, e.set.l_start ≤ s) (hf : f.set.l_start ≤ s) :
    Hint (xs ++ f :: ys) (xs.length + 1) s := by
  refine ⟨fun h0 => absurd h0 (Nat.succ_ne_zero _), fun e he => ?_⟩
  rw [take_append, take_of_length_le (by omega)] at he
  simp only [Nat.add_sub_cancel_left, take_succ_cons, take_zero, mem_append,
    mem_singleton] at he
  rcases he with he | rfl
  · exact hxs e he
  · exact hf

/-- A lock behind the pointer makes way to others that do not start before `s`. -/
theorem Hint.replace (h : Hint (xs ++ f :: ys) p s) (hp : p ≤ xs.length + 1)
    (hf : s < f.set.l_start) {zs : List Filock} (hzs : ∀ e ∈ zs, s ≤ e.set.l_start) :
    Hint (xs ++ zs) p s ∧ p ≤ xs.length := by
  have hle : p ≤ xs.length := by
    rcases Nat.lt_or_ge xs.length p with hlt | hge
    · have hpe : p = xs.length + 1 := by omega
      have := h.upto f (by rw [hpe, take_append]; simp)
      omega
    · exact hge
  refine ⟨⟨fun h0 e he => ?_, fun e he => ?_⟩, hle⟩
  · rcases mem_append.mp he with he | he
    · exact h.null h0 e (by simp [he])
    · exact hzs e he
  · apply h.upto e
    rw [take_append_of_le_length hle] at he ⊢
    exact he

end Places

/-! ## One turn of the loop -/

/-- The thirteen ways a request can lie to a lock. -/
inductive Region (ld f : Flock) : StartRegion × EndRegion → Prop
  | before_before : ld.l_end + 1 < f.l_start → Region ld f (.S_BEFORE, .E_BEFORE)
  | before_start : ld.l_end + 1 = f.l_start → Region ld f (.S_BEFORE, .E_START)
  | before_middle : ld.l_start < f.l_start → f.l_start ≤ ld.l_end → ld.l_end < f.l_end →
      Region ld f (.S_BEFORE, .E_MIDDLE)
  | before_end : ld.l_start < f.l_start → ld.l_end = f.l_end → Region ld f (.S_BEFORE, .E_END)
  | before_after : ld.l_start < f.l_start → f.l_end < ld.l_end → Region ld f (.S_BEFORE, .E_AFTER)
  | start_middle : ld.l_start = f.l_start → ld.l_end < f.l_end → Region ld f (.S_START, .E_MIDDLE)
  | start_end : ld.l_start = f.l_start → ld.l_end = f.l_end → Region ld f (.S_START, .E_END)
  | start_after : ld.l_start = f.l_start → f.l_end < ld.l_end → Region ld f (.S_START, .E_AFTER)
  | middle_middle : f.l_start < ld.l_start → ld.l_end < f.l_end → Region ld f (.S_MIDDLE, .E_MIDDLE)
  | middle_end : f.l_start < ld.l_start → ld.l_end = f.l_end → Region ld f (.S_MIDDLE, .E_END)
  | middle_after : f.l_start < ld.l_start → ld.l_start ≤ f.l_end → f.l_end < ld.l_end →
      Region ld f (.S_MIDDLE, .E_AFTER)
  | end_after : f.l_start < ld.l_start → f.l_end + 1 = ld.l_start → Region ld f (.S_END, .E_AFTER)
  | after_after : f.l_start < ld.l_start → f.l_end + 1 < ld.l_start → Region ld f (.S_AFTER, .E_AFTER)

theorem regflck_spec {ld f : Flock} (hld : ld.l_start ≤ ld.l_end) :
    Region ld f (regflck ld f) := by
  unfold regflck regend
  split
  · split
    · exact .end_after (by omega) (by omega)
    · split
      · exact .after_after (by omega) (by omega)
      · split
        · rw [if_neg (by omega), if_neg (by omega)]
          exact .middle_middle (by omega) (by omega)
        · split
          · exact .middle_end (by omega) (by omega)
          · exact .middle_after (by omega) (by omega) (by omega)
  · split
    · split
      · rw [if_neg (by omega), if_neg (by omega)]
        exact .start_middle (by omega) (by omega)
      · split
        · exact .start_end (by omega) (by omega)
        · exact .start_after (by omega) (by omega)
    · split
      · split
        · exact .before_start (by omega)
        · split
          · exact .before_before (by omega)
          · exact .before_middle (by omega) (by omega) (by omega)
      · split
        · exact .before_end (by omega) (by omega)
        · exact .before_after (by omega) (by omega)

theorem covers_of_le {ld f : Flock} (h1 : f.l_start ≤ ld.l_start) (h2 : ld.l_end ≤ f.l_end) (b : ℤ)
    (hb : ld.covers b) : f.covers b :=
  ⟨Int.le_trans h1 hb.1, Int.le_trans hb.2 h2⟩

/-- What a turn leads to. -/
def TurnOk (u : Owner) (lst0 : List Filock) (ld0 : Flock) (before : List Filock) (flp : Filock)
    (behind : List Filock) (ld : Flock) (t : Turn) : Prop :=
  match t.go with
  | .next => Inv u lst0 ld0 (before ++ t.stay) behind t.insrtp t.ld
  | .stop => Done u lst0 ld0 (before ++ t.stay ++ t.behind) t.insrtp t.ld
  -- the process holds what it asks for already
  | .ret => t.stay = [flp] ∧ t.behind = behind ∧ t.ld = ld ∧
      (∀ b, ld.covers b → flp.set.covers b) ∧ ld.l_type = flp.set.l_type
  | .enolck => t.stay = [flp] ∧ t.behind = behind ∧ t.ld = ld

section Turn

variable {u : Owner} {lst0 before behind : List Filock} {ld0 ld : Flock} {flp : Filock}
  {insrtp : ℕ} {k : Krnl}

theorem WAKEUP_set (f : Filock) (k : Krnl) :
    (WAKEUP f k).1.set = f.set ∧ (WAKEUP f k).1.addr = f.addr := by
  unfold WAKEUP
  split <;> exact ⟨rfl, rfl⟩

/-- The locks behind one that reaches as far as the request stay clear of it. -/
theorem clearRight_behind (ld : Flock) (h : WF (before ++ flp :: behind)) (hown : flp.own u = true)
    (hend : ld.l_end < flp.set.l_end ∨ ld.l_end = flp.set.l_end ∧ flp.set.l_type = ld.l_type) :
    ClearRight u behind ld := by
  intro e he howne
  obtain ⟨h1, h2⟩ := ((h.around hown).2 e he).2 howne
  refine ⟨by omega, fun hadj => ?_⟩
  rcases hend with hlt | ⟨heq, htype⟩
  · omega
  · rw [← htype]
    exact (h2 (by omega)).symm

/-- A lock that the request takes in on its left leaves those before it clear of the request. -/
theorem clearLeft_before (h : WF (before ++ flp :: behind)) (hown : flp.own u = true)
    (htype : flp.set.l_type = ld.l_type) (hstart : ld.l_start = flp.set.l_start) :
    ClearLeft u before ld := by
  intro e he howne
  obtain ⟨h1, h2⟩ := ((h.around hown).1 e he).2 howne
  rw [hstart, ← htype]
  exact ⟨h1, h2⟩

theorem ClearLeft.concat (h : ClearLeft u before ld) (hend : flp.set.l_end < ld.l_start)
    (hadj : flp.set.l_end + 1 = ld.l_start → flp.set.l_type ≠ ld.l_type) :
    ClearLeft u (before ++ [flp]) ld := by
  intro e he hown
  rcases mem_append.mp he with he | he
  · exact h e he hown
  · rw [mem_singleton.mp he]
    exact ⟨hend, hadj⟩

/-- The lock stays as it is, and the loop goes on. -/
theorem Inv.keep (h : Inv u lst0 ld0 before (flp :: behind) insrtp ld)
    (hleft : ClearLeft u (before ++ [flp]) ld) :
    Inv u lst0 ld0 (before ++ [flp]) behind insrtp ld := by
  refine ⟨by simpa using h.mid, hleft, fun hne => ?_⟩
  obtain ⟨h1, h2⟩ := h.hint hne
  refine ⟨by simpa using h1, ?_⟩
  rw [length_append]
  omega

/-- The lists after `insflck` entered the piece of `flp` behind the request. -/
theorem piece_spec (t : Turn) (hbehind : t.behind = behind) (h : WF (before ++ flp :: behind))
    (hlt : flp.set.l_start < t.ld.l_end + 1) (hgo : (t.piece u flp).go ≠ .enolck) :
    ∃ ys1 ys2 td, behind = ys1 ++ ys2 ∧ (t.piece u flp).behind = ys1 ++ td :: ys2 ∧
      (t.piece u flp).stay = t.stay ∧ (t.piece u flp).insrtp = t.insrtp ∧
      (t.piece u flp).ld = t.ld ∧ (t.piece u flp).go = .stop ∧
      td.own u = true ∧ td.set.l_type = flp.set.l_type ∧ td.set.l_start = t.ld.l_end + 1 ∧
      td.set.l_end = flp.set.l_end ∧ (∀ e ∈ ys1, e.set.l_start ≤ td.set.l_start) ∧
      ∀ e ∈ ys2, td.set.l_start ≤ e.set.l_start := by
  subst hbehind
  have hsorted : (flp :: t.behind).Pairwise fun e f => e.set.l_start ≤ f.set.l_start :=
    (pairwise_append.mp h.sorted).2.1
  obtain ⟨h1, h2⟩ := seek_spec (s := t.ld.l_end + 1) hsorted
  obtain ⟨m, hm⟩ : ∃ m, seek (t.ld.l_end + 1) (flp :: t.behind) = m + 1 :=
    ⟨_, (Nat.sub_add_cancel (seek_pos _ _)).symm⟩
  cases hfree : t.k.frlock with
  | nil =>
    unfold Turn.piece insflck at hgo
    simp [hfree] at hgo
  | cons a rest =>
    obtain ⟨td, htd⟩ : ∃ td, td = newlck u a { flp.set with l_start := t.ld.l_end + 1 } := ⟨_, rfl⟩
    have hpiece : t.piece u flp = { t with
        behind := t.behind.take m ++ td :: t.behind.drop m,
        k := { t.k with frlock := rest, reccnt := t.k.reccnt + 1, rectot := t.k.rectot + 1 },
        go := .stop } := by
      unfold Turn.piece insflck
      simp only [hfree, hm, take_succ_cons, drop_succ_cons, cons_append,
        tail_cons, htd]
    rw [hm, take_succ_cons] at h1
    rw [hm, drop_succ_cons] at h2
    rw [hpiece]
    refine ⟨t.behind.take m, t.behind.drop m, td, (take_append_drop m t.behind).symm, rfl, rfl,
      rfl, rfl, rfl, ?_, ?_, ?_, ?_, ?_, ?_⟩ <;> subst htd
    · simp [Filock.own, newlck]
    · rfl
    · rfl
    · rfl
    · intro e he
      rcases h1 e (mem_cons_of_mem _ he) with hlt' | hhead
      · exact Int.le_of_lt hlt'
      · have hef : flp = e := by simpa using hhead
        rw [← hef]
        exact Int.le_of_lt hlt
    · exact h2

/-- The piece behind the request and what stays of `flp` make the list the loop ends with. -/
theorem piece_ok (h : Inv u lst0 ld0 before (flp :: behind) insrtp ld) (hown : flp.own u = true)
    (h1 : flp.set.l_start ≤ ld.l_end) (h2 : ld.l_end < flp.set.l_end) {stay : List Filock}
    {p : ℕ} (hwf : WF ((before ++ stay) ++ behind))
    (hstay : ∀ e ∈ stay, e.own u = true ∧ e.set.l_start ≤ flp.set.l_start ∧
      e.set.l_end + 1 = ld.l_start ∧ e.set.l_type ≠ ld.l_type)
    (hholds : ∀ b t, ¬ ld.covers b → (Holds u stay b t ↔
      flp.set.l_start ≤ b ∧ b < ld.l_start ∧ t = flp.set.l_type))
    (htype : ld.l_type ≠ flp.set.l_type)
    {ys1 ys2 : List Filock} {td : Filock} (hys : behind = ys1 ++ ys2)
    (hhint : ld.l_type ≠ .F_UNLCK → Hint (before ++ stay ++ (ys1 ++ td :: ys2)) p ld.l_start)
    (htd : td.own u = true)
    (htdtype : td.set.l_type = flp.set.l_type) (hstart : td.set.l_start = ld.l_end + 1)
    (hend : td.set.l_end = flp.set.l_end) (hys1 : ∀ e ∈ ys1, e.set.l_start ≤ td.set.l_start)
    (hys2 : ∀ e ∈ ys2, td.set.l_start ≤ e.set.l_start) :
    Done u lst0 ld0 (before ++ stay ++ (ys1 ++ td :: ys2)) p ld := by
  have hle := h.mid.le
  refine ⟨h.mid.piece hown h1 h2 hwf hys (fun e he => ?_) hholds htd htdtype hstart hend hys1 hys2,
    ⟨before ++ stay, ys1 ++ td :: ys2, rfl, ?_, ?_⟩, hhint⟩
  · obtain ⟨h3, h4, h5, -⟩ := hstay e he
    exact ⟨h3, h4, h5⟩
  · intro e he howne
    rcases mem_append.mp he with he | he
    · exact h.left e he howne
    · obtain ⟨-, -, h5, h6⟩ := hstay e he
      exact ⟨by omega, fun _ => h6⟩
  · have hright := clearRight_behind ld h.mid.wf hown (.inl h2)
    intro e he howne
    rcases mem_append.mp he with he | he
    · exact hright e (by simp [hys, he]) howne
    · rcases mem_cons.mp he with rfl | he
      · refine ⟨by omega, fun _ => ?_⟩
        rw [htdtype]
        exact htype.symm
      · exact hright e (by simp [hys, he]) howne

/-- What stays of a lock that is cut down to before the request. -/
theorem cut_holds {g : Filock} (hg : g.own u = true) (hstart : g.set.l_start = flp.set.l_start)
    (htype : g.set.l_type = flp.set.l_type) (hend : g.set.l_end = ld.l_start - 1) (b : ℤ)
    (t : LType) : Holds u [g] b t ↔
      flp.set.l_start ≤ b ∧ b < ld.l_start ∧ t = flp.set.l_type := by
  have hnil : ¬ Holds u [] b t := by
    rintro ⟨f, hf, -⟩
    exact not_mem_nil hf
  rw [holds_cons hg, htype]
  unfold Flock.covers
  constructor
  · rintro (⟨⟨h1, h2⟩, h3⟩ | h)
    · exact ⟨by omega, by omega, h3⟩
    · exact absurd h hnil
  · rintro ⟨h1, h2, h3⟩
    exact .inl ⟨⟨by omega, by omega⟩, h3⟩

theorem nil_holds (hstart : ld.l_start ≤ flp.set.l_start) (b : ℤ) (t : LType) : Holds u [] b t ↔
    flp.set.l_start ≤ b ∧ b < ld.l_start ∧ t = flp.set.l_type := by
  constructor
  · rintro ⟨f, hf, -⟩
    exact absurd hf not_mem_nil
  · rintro ⟨h1, h2, -⟩
    omega

/-- Locks from `flp` on start behind a request that starts no later. -/
theorem behind_start (h : WF (before ++ flp :: behind)) (hown : flp.own u = true) {s : ℤ}
    (hs : s ≤ flp.set.l_start) : ∀ e ∈ behind, s ≤ e.set.l_start := fun e he =>
  Int.le_trans hs ((h.around hown).2 e he).1

theorem before_start (h : WF (before ++ flp :: behind)) (hown : flp.own u = true) {s : ℤ}
    (hs : flp.set.l_start ≤ s) : ∀ e ∈ before, e.set.l_start ≤ s := fun e he =>
  Int.le_trans ((h.around hown).1 e he).1 hs

/-- The lock is deleted and the loop goes on; the pointer moves to the lock before it, or the
request starts before the lock. -/
theorem Inv.del_next (h : Inv u lst0 ld0 before (flp :: behind) insrtp ld) (hown : flp.own u = true)
    {ld' : Flock} (hmid : Mid u lst0 ld0 (before ++ behind) ld') (hleft : ClearLeft u before ld')
    (htype : ld'.l_type = ld.l_type) {p : ℕ}
    (hp : p = before.length ∧ ld'.l_start = flp.set.l_start ∨
      p = insrtp ∧ ld'.l_start = ld.l_start ∧ ld.l_start < flp.set.l_start) :
    Inv u lst0 ld0 (before ++ []) behind p ld' := by
  rw [append_nil]
  refine ⟨hmid, hleft, fun hne => ?_⟩
  rw [htype] at hne
  obtain ⟨h1, h2⟩ := h.hint hne
  rcases hp with ⟨rfl, hs⟩ | ⟨rfl, hs, hlt⟩
  · exact ⟨Hint.prev (before_start h.mid.wf hown (by omega))
      (behind_start h.mid.wf hown (by omega)), Nat.le_succ _⟩
  · rw [hs]
    have hr := h1.replace h2 hlt (behind_start h.mid.wf hown (Int.le_of_lt hlt))
    exact ⟨hr.1, Nat.le_succ_of_le hr.2⟩

/-- The lock is deleted and the loop ends; the request starts before it. -/
theorem Inv.del_stop (h : Inv u lst0 ld0 before (flp :: behind) insrtp ld) (hown : flp.own u = true)
    {ld' : Flock} (hmid : Mid u lst0 ld0 (before ++ behind) ld') (hstart : ld'.l_start = ld.l_start)
    (htype : ld'.l_type = ld.l_type) (hend : ld'.l_end = flp.set.l_end)
    (hsame : flp.set.l_type = ld.l_type) (hlt : ld.l_start < flp.set.l_start) :
    Done u lst0 ld0 (before ++ [] ++ behind) insrtp ld' := by
  rw [append_nil]
  refine ⟨hmid, ⟨before, behind, rfl, ?_, ?_⟩, fun hne => ?_⟩
  · intro e he howne
    rw [hstart, htype]
    exact h.left e he howne
  · exact clearRight_behind ld' h.mid.wf hown (.inr ⟨hend, hsame.trans htype.symm⟩)
  · rw [htype] at hne
    obtain ⟨h1, h2⟩ := h.hint hne
    rw [hstart]
    exact (h1.replace h2 hlt (behind_start h.mid.wf hown (Int.le_of_lt hlt))).1

/-- The lock is cut down to what lies before the request, and the loop goes on. -/
theorem Inv.cut_next (h : Inv u lst0 ld0 before (flp :: behind) insrtp ld) (hown : flp.own u = true)
    {g : Filock} (hg : g.set = { flp.set with l_end := ld.l_start - 1 })
    (h1 : flp.set.l_start < ld.l_start) (h2 : ld.l_start ≤ flp.set.l_end)
    (h3 : flp.set.l_end ≤ ld.l_end) (htype : ld.l_type ≠ flp.set.l_type) :
    Inv u lst0 ld0 (before ++ [g]) behind (before.length + 1) ld := by
  have hsame : g.sameOwner flp := by
    unfold Filock.sameOwner
    rw [hg]
    exact ⟨rfl, rfl⟩
  have hstart : g.set.l_start = flp.set.l_start := by rw [hg]
  have hend : g.set.l_end = ld.l_start - 1 := by rw [hg]
  have hgtype : g.set.l_type = flp.set.l_type := by rw [hg]
  refine ⟨?_, h.left.concat (by omega) (fun _ => by rw [hgtype]; exact htype.symm), fun hne => ?_⟩
  · simpa using h.mid.cut hown hsame hstart hgtype hend h1 h2 h3
  · rw [append_assoc, singleton_append, length_append]
    exact ⟨Hint.self (before_start h.mid.wf hown (by omega)) (by omega), by simp⟩

/-- The lock lies behind the request and stays, and the loop ends. -/
theorem Inv.stop (h : Inv u lst0 ld0 before (flp :: behind) insrtp ld) (hown : flp.own u = true)
    (hlt : ld.l_end < flp.set.l_start)
    (hadj : ld.l_end + 1 = flp.set.l_start → flp.set.l_type ≠ ld.l_type) :
    Done u lst0 ld0 (before ++ [flp] ++ behind) insrtp ld := by
  have hv := (h.mid.wf.valid flp (by simp)).le
  have hright := clearRight_behind ld h.mid.wf hown (.inl (by omega))
  have heq : before ++ [flp] ++ behind = before ++ flp :: behind := by simp
  rw [heq]
  refine ⟨h.mid, ⟨before, flp :: behind, rfl, h.left, fun e he howne => ?_⟩, fun hne => (h.hint hne).1⟩
  rcases mem_cons.mp he with rfl | he
  · exact ⟨hlt, hadj⟩
  · exact hright e he howne

theorem piece_enolck {t : Turn} (hgo : (t.piece u flp).go = .enolck) :
    (t.piece u flp).stay = t.stay ∧ (t.piece u flp).behind = t.behind ∧
      (t.piece u flp).ld = t.ld := by
  unfold Turn.piece insflck at hgo ⊢
  cases hfree : t.k.frlock with
  | nil => exact ⟨rfl, rfl, rfl⟩
  | cons a rest =>
    rw [hfree] at hgo
    cases hgo

/-- The piece behind the request is set up and the lock deleted. -/
theorem piece_del (h : Inv u lst0 ld0 before (flp :: behind) insrtp ld) (hown : flp.own u = true)
    (h1 : flp.set.l_start ≤ ld.l_end) (h2 : ld.l_end < flp.set.l_end)
    (hstart : ld.l_start ≤ flp.set.l_start) (htype : ld.l_type ≠ flp.set.l_type) {t : Turn}
    (hstay : t.stay = [flp]) (hbehind : t.behind = behind) (hld : t.ld = ld)
    (hp : t.insrtp = before.length ∧ ld.l_start = flp.set.l_start ∨
      t.insrtp = insrtp ∧ ld.l_start < flp.set.l_start) :
    TurnOk u lst0 ld0 before flp behind ld (match (t.piece u flp).go with
      | .enolck => t.piece u flp
      | _ => (t.piece u flp).del flp) := by
  by_cases hgo : (t.piece u flp).go = .enolck
  · obtain ⟨h3, h4, h5⟩ := piece_enolck hgo
    rw [hgo]
    unfold TurnOk
    rw [hgo]
    exact ⟨h3.trans hstay, h4.trans hbehind, h5.trans hld⟩
  · obtain ⟨ys1, ys2, td, hys, hpb, -, hpi, hpl, hps, htd⟩ :=
      piece_spec t hbehind h.mid.wf (by rw [hld]; omega) hgo
    obtain ⟨htd1, htd2, htd3, htd4, htd5, htd6⟩ := htd
    rw [hps]
    unfold TurnOk Turn.del
    simp only [hps, hpb, hpi, hpl, hld]
    rw [hld] at htd3
    refine piece_ok h hown h1 h2 (by simpa using h.mid.wf.del) (by simp)
      (fun b t _ => nil_holds hstart b t) htype hys (fun hne => ?_) htd1 htd2 htd3 htd4 htd5 htd6
    have hlst : ∀ e ∈ ys1 ++ td :: ys2, ld.l_start ≤ e.set.l_start := by
      have hle := h.mid.le
      have hbeh := behind_start h.mid.wf hown hstart
      intro e he
      rcases mem_append.mp he with he | he
      · exact hbeh e (by simp [hys, he])
      · rcases mem_cons.mp he with rfl | he
        · omega
        · exact hbeh e (by simp [hys, he])
    rw [append_nil]
    rcases hp with ⟨hpos, hs⟩ | ⟨hpos, hlt⟩
    · rw [hpos]
      exact Hint.prev (before_start h.mid.wf hown (by omega)) hlst
    · obtain ⟨h3, h4⟩ := h.hint hne
      rw [hpos]
      exact (h3.replace h4 hlt hlst).1

/-- The piece behind the request is set up and the lock cut down to what lies before. -/
theorem piece_cut (h : Inv u lst0 ld0 before (flp :: behind) insrtp ld) (hown : flp.own u = true)
    (h1 : flp.set.l_start < ld.l_start) (h2 : ld.l_end < flp.set.l_end)
    (htype : ld.l_type ≠ flp.set.l_type) {t : Turn} (hstay : t.stay = [flp])
    (hbehind : t.behind = behind) (hld : t.ld = ld) :
    TurnOk u lst0 ld0 before flp behind ld (match (t.piece u flp).go with
      | .enolck => t.piece u flp
      | _ => (t.piece u flp).cut before.length flp) := by
  have hle := h.mid.le
  by_cases hgo : (t.piece u flp).go = .enolck
  · obtain ⟨h3, h4, h5⟩ := piece_enolck hgo
    rw [hgo]
    unfold TurnOk
    rw [hgo]
    exact ⟨h3.trans hstay, h4.trans hbehind, h5.trans hld⟩
  · obtain ⟨ys1, ys2, td, hys, hpb, -, hpi, hpl, hps, htd⟩ :=
      piece_spec t hbehind h.mid.wf (by rw [hld]; omega) hgo
    obtain ⟨htd1, htd2, htd3, htd4, htd5, htd6⟩ := htd
    rw [hps]
    unfold TurnOk Turn.cut
    simp only [hps, hpb, hpl, hld]
    rw [hld] at htd3
    generalize hg : (WAKEUP { flp with set := { flp.set with l_end := ld.l_start - 1 } }
      (t.piece u flp).k).1 = g
    have hset : g.set = { flp.set with l_end := ld.l_start - 1 } := by
      rw [← hg]
      exact (WAKEUP_set _ _).1
    have hsame : g.sameOwner flp := by
      unfold Filock.sameOwner
      rw [hset]
      exact ⟨rfl, rfl⟩
    have hgown : g.own u = true := (own_congr hsame).trans hown
    have hgstart : g.set.l_start = flp.set.l_start := by rw [hset]
    have hgend : g.set.l_end = ld.l_start - 1 := by rw [hset]
    have hgtype : g.set.l_type = flp.set.l_type := by rw [hset]
    have hwf := h.mid.wf.cut hsame hgstart hgtype (by omega) (by omega)
    refine piece_ok h hown (by omega) h2 (by simpa using hwf) ?_
      (fun b t _ => cut_holds hgown hgstart hgtype hgend b t) htype hys (fun _ => ?_) htd1 htd2 htd3
      htd4 htd5 htd6
    · intro e he
      rw [mem_singleton.mp he]
      exact ⟨hgown, by omega, by omega, by rw [hgtype]; exact htype.symm⟩
    · rw [append_assoc, singleton_append]
      exact Hint.self (before_start h.mid.wf hown (by omega)) (by omega)

theorem turn_ok (h : Inv u lst0 ld0 before (flp :: behind) insrtp ld) (hown : flp.own u = true) :
    TurnOk u lst0 ld0 before flp behind ld (turn u before.length insrtp ld k flp behind) := by
  have hv := h.mid.wf.valid flp (by simp)
  have hle := h.mid.le
  have hfle := hv.le
  have hreg := regflck_spec (f := flp.set) hle
  unfold turn
  generalize regflck ld flp.set = r at hreg
  cases hreg with
  | before_before h1 => exact h.stop hown (by omega) (by omega)
  | before_start h1 =>
    by_cases hsame : ld.l_type = flp.set.l_type
    · have hmid := h.mid.del hown { ld with l_end := flp.set.l_end } rfl (Int.le_refl _)
        (by simp only; omega) (by simp only; omega) (Int.le_refl _)
        (fun hlt => absurd hlt (Int.lt_irrefl _)) (fun _ => ⟨rfl, by omega, hsame.symm⟩)
      simp only [if_pos hsame]
      exact h.del_stop hown hmid rfl rfl rfl hsame.symm (by omega)
    · simp only [if_neg hsame]
      exact h.stop hown (by omega) (fun _ => Ne.symm hsame)
  | before_middle h1 h2 h3 =>
    by_cases hsame : ld.l_type = flp.set.l_type
    · have hmid := h.mid.del hown { ld with l_end := flp.set.l_end } rfl (Int.le_refl _)
        (by simp only; omega) (by simp only; omega) (Int.le_refl _)
        (fun hlt => absurd hlt (Int.lt_irrefl _)) (fun _ => ⟨rfl, by omega, hsame.symm⟩)
      simp only [if_pos hsame]
      exact h.del_stop hown hmid rfl rfl rfl hsame.symm h1
    · simp only [if_neg hsame]
      exact piece_del h hown h2 h3 (Int.le_of_lt h1) hsame rfl rfl rfl (.inr ⟨rfl, h1⟩)
  | before_end h1 h2 =>
    have hmid := h.mid.del hown ld rfl (by omega) (by omega) (by omega) (by omega)
      (by omega) (by omega)
    by_cases hsame : ld.l_type = flp.set.l_type
    · simp only [if_pos hsame]
      exact h.del_stop hown hmid rfl rfl h2 hsame.symm h1
    · simp only [if_neg hsame]
      exact h.del_next hown hmid h.left rfl (.inr ⟨rfl, rfl, h1⟩)
  | before_after h1 h2 =>
    have hmid := h.mid.del hown ld rfl (by omega) (by omega) (by omega) (by omega)
      (by omega) (by omega)
    exact h.del_next hown hmid h.left rfl (.inr ⟨rfl, rfl, h1⟩)
  | start_middle h1 h2 =>
    by_cases hsame : ld.l_type = flp.set.l_type
    · simp only [if_pos hsame]
      exact ⟨rfl, rfl, rfl, covers_of_le (by omega) (by omega), hsame⟩
    · simp only [if_neg hsame]
      exact piece_del h hown (by omega) h2 (by omega) hsame rfl rfl rfl (.inl ⟨rfl, h1⟩)
  | start_end h1 h2 =>
    by_cases hsame : ld.l_type = flp.set.l_type
    · simp only [if_pos hsame]
      exact ⟨rfl, rfl, rfl, covers_of_le (by omega) (by omega), hsame⟩
    · have hmid := h.mid.del hown ld rfl (by omega) (by omega) (by omega) (by omega)
        (by omega) (by omega)
      simp only [if_neg hsame]
      exact h.del_next hown hmid h.left rfl (.inl ⟨rfl, h1⟩)
  | start_after h1 h2 =>
    have hmid := h.mid.del hown ld rfl (by omega) (by omega) (by omega) (by omega)
      (by omega) (by omega)
    exact h.del_next hown hmid h.left rfl (.inl ⟨rfl, h1⟩)
  | middle_middle h1 h2 =>
    by_cases hsame : ld.l_type = flp.set.l_type
    · simp only [if_pos hsame]
      exact ⟨rfl, rfl, rfl, covers_of_le (by omega) (by omega), hsame⟩
    · simp only [if_neg hsame]
      exact piece_cut h hown h1 h2 hsame rfl rfl rfl
  | middle_end h1 h2 =>
    by_cases hsame : ld.l_type = flp.set.l_type
    · simp only [if_pos hsame]
      exact ⟨rfl, rfl, rfl, covers_of_le (by omega) (by omega), hsame⟩
    · simp only [if_neg hsame]
      exact h.cut_next hown (WAKEUP_set _ _).1 h1 (by omega) (by omega) hsame
  | middle_after h1 h2 h3 =>
    by_cases hsame : ld.l_type = flp.set.l_type
    · have hmid := h.mid.del hown { ld with l_start := flp.set.l_start } rfl
        (by simp only; omega) (Int.le_refl _) (Int.le_refl _) (by simp only; omega)
        (fun _ => ⟨rfl, by omega, hsame.symm⟩) (fun hlt => absurd hlt (Int.lt_irrefl _))
      simp only [if_pos hsame]
      exact h.del_next hown hmid (clearLeft_before h.mid.wf hown hsame.symm rfl) rfl
        (.inl ⟨rfl, rfl⟩)
    · simp only [if_neg hsame]
      exact h.cut_next hown (WAKEUP_set _ _).1 h1 h2 (by omega) hsame
  | end_after h1 h2 =>
    by_cases hsame : ld.l_type = flp.set.l_type
    · have hmid := h.mid.del hown { ld with l_start := flp.set.l_start } rfl
        (by simp only; omega) (Int.le_refl _) (Int.le_refl _) (by simp only; omega)
        (fun _ => ⟨rfl, by omega, hsame.symm⟩) (fun hlt => absurd hlt (Int.lt_irrefl _))
      simp only [if_pos hsame]
      exact h.del_next hown hmid (clearLeft_before h.mid.wf hown hsame.symm rfl) rfl
        (.inl ⟨rfl, rfl⟩)
    · simp only [if_neg hsame]
      exact h.keep (h.left.concat (by omega) (fun _ => Ne.symm hsame))
  | after_after h1 h2 =>
    have hkeep := h.keep (h.left.concat (by omega) (by omega))
    have hint : Hint (before ++ flp :: behind) (before.length + 1) ld.l_start :=
      Hint.self (before_start h.mid.wf hown (by omega)) (by omega)
    exact ⟨hkeep.mid, hkeep.left, fun _ => ⟨by simpa using hint, by simp⟩⟩

end Turn

/-! ## The whole request -/

section Request

variable {u : Owner} {lst lst0 : List Filock} {ld ld0 : Flock} {insrtp : ℕ} {k : Krnl}

/-- What the loop leads to. -/
def ScanOk (u : Owner) (lst0 : List Filock) (ld0 : Flock) (s : Scanned) : Prop :=
  match s.go with
  | .next | .stop => Done u lst0 ld0 s.lst s.insrtp s.ld
  | .ret => Mid u lst0 ld0 s.lst s.ld ∧
      ∃ f ∈ s.lst, f.own u = true ∧ (∀ b, s.ld.covers b → f.set.covers b) ∧
        s.ld.l_type = f.set.l_type
  | .enolck => Mid u lst0 ld0 s.lst s.ld

theorem scan_ok {before rest : List Filock} (h : Inv u lst0 ld0 before rest insrtp ld) :
    ScanOk u lst0 ld0 (scan u before insrtp ld k rest) := by
  induction rest generalizing before insrtp ld k with
  | nil =>
    have hmid : Mid u lst0 ld0 before ld := by simpa using h.mid
    have hclear : ∃ xs ys, before = xs ++ ys ∧ ClearLeft u xs ld ∧ ClearRight u ys ld :=
      ⟨before, [], by simp, h.left, fun e he => absurd he not_mem_nil⟩
    refine ⟨hmid, hclear, fun hne => ?_⟩
    have hint := (h.hint hne).1
    rw [append_nil] at hint
    exact hint
  | cons flp behind ih =>
    unfold scan
    by_cases hown : flp.own u = true
    · rw [if_pos hown]
      have hturn := turn_ok (k := k) h hown
      generalize turn u before.length insrtp ld k flp behind = t at hturn ⊢
      unfold TurnOk at hturn
      cases hgo : t.go <;> simp only [hgo] at hturn ⊢
      · exact ih hturn
      · exact hturn
      · obtain ⟨hstay, hbeh, hld, hcov, htype⟩ := hturn
        rw [hstay, hbeh, hld]
        exact ⟨by simpa using h.mid, flp, by simp, hown, hcov, htype⟩
      · obtain ⟨hstay, hbeh, hld⟩ := hturn
        rw [hstay, hbeh, hld]
        have hmid : Mid u lst0 ld0 (before ++ [flp] ++ behind) ld := by simpa using h.mid
        exact hmid
    · rw [if_neg hown]
      apply ih
      apply h.keep
      intro e he howne
      rcases mem_append.mp he with he | he
      · exact h.left e he howne
      · rw [mem_singleton.mp he] at howne
        exact absurd howne hown

/-- The pointer that `blocked` leaves for the insertion. -/
theorem blockedAt_spec (u : Owner) (ld : Flock)
    (h : lst.Pairwise fun e f => e.set.l_start ≤ f.set.l_start) (pos : ℕ) :
    ∃ j ≤ lst.length, (blockedAt u ld pos lst).2 = pos + j ∧
      (∀ f ∈ lst.take j, f.set.l_start < ld.l_start) ∧
      (∀ f ∈ lst.take (j - 1), f.own u = true → f.set.l_end + 1 < ld.l_start) ∧
      (j = 0 → ∀ f ∈ lst, ld.l_start ≤ f.set.l_start) := by
  induction lst generalizing pos with
  | nil => exact ⟨0, Nat.le_refl _, rfl, by simp, by simp, by simp⟩
  | cons f fs ih =>
    obtain ⟨hf, hfs⟩ := pairwise_cons.mp h
    unfold blockedAt
    by_cases hlt : f.set.l_start < ld.l_start
    · rw [if_pos hlt]
      -- the pointer stays at `f`, or goes on from there
      have hhere : ∃ j ≤ (f :: fs).length, pos + 1 = pos + j ∧
          (∀ g ∈ (f :: fs).take j, g.set.l_start < ld.l_start) ∧
          (∀ g ∈ (f :: fs).take (j - 1), g.own u = true → g.set.l_end + 1 < ld.l_start) ∧
          (j = 0 → ∀ g ∈ f :: fs, ld.l_start ≤ g.set.l_start) :=
        ⟨1, by simp, rfl, by simpa using hlt, by simp, by simp⟩
      have hnext (hpass : f.own u = true → f.set.l_end + 1 < ld.l_start) :
          ∃ j ≤ (f :: fs).length, (blockedAt u ld (pos + 1) fs).2 = pos + j ∧
          (∀ g ∈ (f :: fs).take j, g.set.l_start < ld.l_start) ∧
          (∀ g ∈ (f :: fs).take (j - 1), g.own u = true → g.set.l_end + 1 < ld.l_start) ∧
          (j = 0 → ∀ g ∈ f :: fs, ld.l_start ≤ g.set.l_start) := by
        obtain ⟨j, h1, h2, h3, h4, -⟩ := ih hfs (pos + 1)
        refine ⟨j + 1, by simpa using h1, by omega, ?_, ?_, by simp⟩
        · simpa [hlt] using h3
        · rcases j with _ | j
          · simp
          · simpa using ⟨hpass, h4⟩
      by_cases hown : f.own u = true
      · rw [if_pos hown]
        split
        · exact hhere
        · exact hnext fun _ => by omega
      · rw [if_neg hown]
        split
        · exact hhere
        · exact hnext fun ho => absurd ho hown
    · rw [if_neg hlt]
      refine ⟨0, Nat.zero_le _, rfl, by simp, by simp, fun _ g hg => ?_⟩
      rcases mem_cons.mp hg with rfl | hg
      · exact Int.not_lt.mp hlt
      · exact Int.le_trans (Int.not_lt.mp hlt) (hf g hg)

/-- The loop starts with the pointer of `blocked`, or with the list head for an unlock. -/
theorem inv_start (h : WF lst) (h0 : 0 ≤ ld.l_start) (hle : ld.l_start ≤ ld.l_end)
    (hmax : ld.l_end ≤ MAXEND)
    (hreq : (blocked u lst ld).2 = insrtp ∨ ld.l_type = .F_UNLCK ∧ insrtp = min 1 lst.length) :
    Inv u lst ld (lst.take (insrtp - 1)) (lst.drop (insrtp - 1)) insrtp ld := by
  have hmid : Mid u lst ld (lst.take (insrtp - 1) ++ lst.drop (insrtp - 1)) ld := by
    rw [take_append_drop]
    exact ⟨h, h0, hle, hmax, rfl, fun _ _ => Iff.rfl, rfl⟩
  rcases hreq with hblk | ⟨hun, hp⟩
  · obtain ⟨j, h1, h2, h3, h4, h5⟩ := blockedAt_spec u ld h.sorted 0
    have hj : insrtp = j := by
      rw [← hblk, ← Nat.zero_add j]
      exact h2
    subst hj
    refine ⟨hmid, fun e he hown => ?_, fun _ => ?_⟩
    · have := h4 e he hown
      omega
    · rw [take_append_drop, length_take]
      exact ⟨⟨h5, fun f hf => Int.le_of_lt (h3 f hf)⟩, by omega⟩
  · have hz : insrtp - 1 = 0 := by omega
    refine ⟨hmid, fun e he => ?_, fun hne => absurd hun hne⟩
    rw [hz] at he
    exact absurd he not_mem_nil

theorem holds_valid (h : WF lst) {b : ℤ} {t : LType} (hh : Holds u lst b t) : t ≠ .F_UNLCK := by
  obtain ⟨f, hf, -, -, -, rfl⟩ := hh
  rcases (h.valid f hf).type with ht | ht <;> rw [ht] <;> decide

theorem holds_unique (h : WF lst) {b : ℤ} {t t' : LType} (hh : Holds u lst b t)
    (hh' : Holds u lst b t') : t = t' := by
  obtain ⟨f, hf, hown, h1, h2, rfl⟩ := hh
  obtain ⟨xs, ys, rfl⟩ := append_of_mem hf
  obtain ⟨hxs, hys⟩ := h.around hown
  obtain ⟨g, hg, hown', h3, h4, rfl⟩ := hh'
  rcases mem_append.mp hg with hg | hg
  · have := ((hxs g hg).2 hown').1
    omega
  · rcases mem_cons.mp hg with rfl | hg
    · rfl
    · have := ((hys g hg).2 hown').1
      omega

/-- The request, as it is after the loop, is clear of the locks of the process. -/
theorem Done.not_holds (h : Done u lst0 ld0 lst insrtp ld) {b : ℤ} {t : LType}
    (hb : ld.covers b) : ¬ Holds u lst b t := by
  obtain ⟨xs, ys, rfl, hxs, hys⟩ := h.clear
  rintro ⟨f, hf, hown, h1, h2, -⟩
  unfold Flock.covers at hb
  rcases mem_append.mp hf with hf | hf
  · have := (hxs f hf hown).1
    omega
  · have := (hys f hf hown).1
    omega

/-- The new lock goes into the list. -/
theorem Done.insert (h : Done u lst0 ld0 lst insrtp ld)
    (htype : ld.l_type = .F_RDLCK ∨ ld.l_type = .F_WRLCK) {f : Filock} (hf : f.own u = true)
    (ht : f.set.l_type = ld.l_type) (hs : f.set.l_start = ld.l_start)
    (he : f.set.l_end = ld.l_end) {p : ℕ} (hp : p = place insrtp ld lst) :
    WF (lst.take p ++ f :: lst.drop p) ∧
      ((lst.take p ++ f :: lst.drop p).filter fun e => !e.own u) =
        (lst0.filter fun e => !e.own u) ∧
      ∀ b t, Holds u (lst.take p ++ f :: lst.drop p) b t ↔ Overlay u lst ld b t := by
  have hne : ld.l_type ≠ .F_UNLCK := by
    rcases htype with ht | ht <;> rw [ht] <;> decide
  obtain ⟨h1, h2⟩ := place_spec h.mid.wf (h.hint hne)
  rw [← hp] at h1 h2
  have hv : f.set.Valid := by
    refine ⟨by rw [ht]; exact htype, ?_, ?_, ?_⟩
    · rw [hs]
      exact h.mid.start
    · rw [hs, he]
      exact h.mid.le
    · rw [he]
      exact h.mid.max
  refine ⟨?_, ?_, fun b t => ?_⟩
  · apply WF.insert (by simpa using h.mid.wf) hf hv
    · intro e hmem
      rw [hs]
      exact h1 e hmem
    · intro e hmem
      rw [hs]
      exact h2 e hmem
    · intro e hmem hown
      rw [take_append_drop] at hmem
      rw [hs, he, ht]
      obtain ⟨xs, ys, hlst, hxs, hys⟩ := h.clear
      have hle := (h.mid.wf.valid e hmem).le
      have hle' := h.mid.le
      rw [hlst] at hmem
      rcases mem_append.mp hmem with hmem | hmem
      · obtain ⟨h3, h4⟩ := hxs e hmem hown
        exact ⟨.inl h3, fun hadj => h4 (by omega)⟩
      · obtain ⟨h3, h4⟩ := hys e hmem hown
        exact ⟨.inr h3, fun hadj => h4 (by omega)⟩
  · rw [filter_others hf, take_append_drop, h.mid.others]
  · have hsplit : Holds u lst b t ↔ Holds u (lst.take p) b t ∨ Holds u (lst.drop p) b t := by
      rw [← holds_append, take_append_drop]
    have hcov : f.set.covers b ↔ ld.covers b := by
      unfold Flock.covers
      rw [hs, he]
    rw [holds_append, holds_cons hf, ht, hcov]
    unfold Overlay
    rw [hsplit]
    by_cases hb : ld.covers b
    · have hno := h.not_holds (t := t) hb
      rw [hsplit] at hno
      simp only [hb, true_and, not_true, false_and, or_false]
      tauto
    · simp only [hb, false_and, not_false_iff, true_and, false_or]

/-- The lock list that answers a request. -/
structure Answers (u : Owner) (lst0 : List Filock) (ld0 : Flock) (lst : List Filock) : Prop where
  wf : WF lst
  others : (lst.filter fun f => !f.own u) = lst0.filter fun f => !f.own u
  holds : ∀ b t, Holds u lst b t ↔ t ≠ .F_UNLCK ∧ Overlay u lst0 ld0 b t

theorem Done.answers {s : Scanned} (htype : ld0.l_type = .F_RDLCK ∨ ld0.l_type = .F_WRLCK ∨
      ld0.l_type = .F_UNLCK) (h : Done u lst0 ld0 s.lst s.insrtp s.ld)
    (hret : (s.enter u).ret = none) : Answers u lst0 ld0 (s.enter u).lst := by
  unfold Scanned.enter at hret ⊢
  by_cases hun : s.ld.l_type = .F_UNLCK
  · rw [if_pos hun]
    refine ⟨h.mid.wf, h.mid.others, fun b t => ?_⟩
    rw [← h.mid.meaning b t]
    constructor
    · intro hh
      exact ⟨holds_valid h.mid.wf hh, .inr ⟨fun hb => h.not_holds hb hh, hh⟩⟩
    · rintro ⟨hne, ⟨-, ht⟩ | ⟨-, hh⟩⟩
      · exact absurd (ht.trans hun) hne
      · exact hh
  · rw [if_neg hun] at hret ⊢
    have htype' : s.ld.l_type = .F_RDLCK ∨ s.ld.l_type = .F_WRLCK := by
      rw [h.mid.type] at hun ⊢
      tauto
    unfold insflck at hret ⊢
    cases hfree : s.k.frlock with
    | nil =>
      rw [hfree] at hret
      cases hret
    | cons a rest =>
      obtain ⟨h1, h2, h3⟩ := h.insert htype' (f := newlck u a s.ld) (by simp [newlck, Filock.own])
        rfl rfl rfl rfl
      refine ⟨h1, h2, fun b t => ?_⟩
      rw [← h.mid.meaning b t]
      exact ⟨fun hh => ⟨holds_valid h1 hh, (h3 b t).mp hh⟩, fun hh => (h3 b t).mpr hh.2⟩

/-- The process holds what it asks for already. -/
theorem Mid.answers (h : Mid u lst0 ld0 lst ld) {f : Filock} (hf : f ∈ lst) (hown : f.own u = true)
    (hcov : ∀ b, ld.covers b → f.set.covers b) (ht : ld.l_type = f.set.l_type) :
    Answers u lst0 ld0 lst := by
  refine ⟨h.wf, h.others, fun b t => ?_⟩
  rw [← h.meaning b t]
  by_cases hb : ld.covers b
  · have hheld : Holds u lst b ld.l_type := ⟨f, hf, hown, (hcov b hb).1, (hcov b hb).2, ht.symm⟩
    constructor
    · intro hh
      exact ⟨holds_valid h.wf hh, .inl ⟨hb, holds_unique h.wf hh hheld⟩⟩
    · rintro ⟨-, ⟨-, rfl⟩ | ⟨hnb, -⟩⟩
      · exact hheld
      · exact absurd hb hnb
  · constructor
    · intro hh
      exact ⟨holds_valid h.wf hh, .inr ⟨hb, hh⟩⟩
    · rintro ⟨-, ⟨hnb, -⟩ | ⟨-, hh⟩⟩
      · exact absurd hnb hb
      · exact hh

theorem flckadj_answers (htype : ld.l_type = .F_RDLCK ∨ ld.l_type = .F_WRLCK ∨
      ld.l_type = .F_UNLCK)
    (h : Inv u lst ld (lst.take (insrtp - 1)) (lst.drop (insrtp - 1)) insrtp ld)
    (hret : (flckadj u lst insrtp ld k).ret = none) :
    Answers u lst ld (flckadj u lst insrtp ld k).lst := by
  have hscan := scan_ok (k := k) h
  unfold flckadj at hret ⊢
  generalize scan u (lst.take (insrtp - 1)) insrtp ld k (lst.drop (insrtp - 1)) = s at hscan hret ⊢
  unfold ScanOk at hscan
  cases hgo : s.go <;> simp only [hgo] at hscan hret ⊢
  · exact hscan.answers htype hret
  · exact hscan.answers htype hret
  · obtain ⟨hmid, f, hf, hown, hcov, ht⟩ := hscan
    exact hmid.answers hf hown hcov ht
  · cases hret

/-- Also where no structure is left for a lock, the list is one of record locks. -/
theorem flckadj_wf (htype : ld.l_type = .F_RDLCK ∨ ld.l_type = .F_WRLCK ∨ ld.l_type = .F_UNLCK)
    (h : Inv u lst ld (lst.take (insrtp - 1)) (lst.drop (insrtp - 1)) insrtp ld) :
    WF (flckadj u lst insrtp ld k).lst := by
  cases hret : (flckadj u lst insrtp ld k).ret with
  | none => exact (flckadj_answers htype h hret).wf
  | some e =>
    have hscan := scan_ok (k := k) h
    unfold flckadj at hret ⊢
    generalize scan u (lst.take (insrtp - 1)) insrtp ld k (lst.drop (insrtp - 1)) = s
      at hscan hret ⊢
    unfold ScanOk at hscan
    have hdone (hd : Done u lst ld s.lst s.insrtp s.ld) (he : (s.enter u).ret = some e) :
        WF (s.enter u).lst := by
      unfold Scanned.enter insflck at he ⊢
      by_cases hun : s.ld.l_type = .F_UNLCK
      · rw [if_pos hun]
        exact hd.mid.wf
      · rw [if_neg hun] at he ⊢
        cases hfree : s.k.frlock with
        | nil => exact hd.mid.wf
        | cons a rest =>
          rw [hfree] at he
          cases he
    cases hgo : s.go <;> simp only [hgo] at hscan hret ⊢
    · exact hdone hscan hret
    · exact hdone hscan hret
    · exact hscan.1.wf
    · exact hscan.wf

/-- The type of lock that the process holds at offset `b`. -/
def heldAt (u : Owner) (lst : List Filock) (b : ℤ) : Option LType :=
  (lst.find? fun f => f.own u && decide (f.set.l_start ≤ b ∧ b ≤ f.set.l_end)).map fun f =>
    f.set.l_type

theorem heldAt_eq_some (h : WF lst) {b : ℤ} {t : LType} :
    heldAt u lst b = some t ↔ Holds u lst b t := by
  have hsound {t : LType} (hh : heldAt u lst b = some t) : Holds u lst b t := by
    obtain ⟨f, hfind, rfl⟩ := Option.map_eq_some_iff.mp hh
    have hp := List.find?_some hfind
    simp only [Bool.and_eq_true, decide_eq_true_eq] at hp
    exact ⟨f, mem_of_find?_eq_some hfind, hp.1, hp.2.1, hp.2.2, rfl⟩
  refine ⟨hsound, fun hh => ?_⟩
  cases hheld : heldAt u lst b with
  | some t' => exact congrArg some (holds_unique h (hsound hheld) hh)
  | none =>
    obtain ⟨f, hf, hown, h1, h2, -⟩ := hh
    have hnone := List.find?_eq_none.mp (Option.map_eq_none_iff.mp hheld) f hf
    simp [hown, h1, h2] at hnone

/-- What a request that `flckadj` answers with 0 leaves. -/
structure Overlaid (u : Owner) (lst : List Filock) (ld : Flock) (lst' : List Filock) : Prop where
  inside : ∀ b, ld.covers b →
    heldAt u lst' b = if ld.l_type = .F_UNLCK then none else some ld.l_type
  outside : ∀ b, ¬ ld.covers b → heldAt u lst' b = heldAt u lst b
  others : (lst'.filter fun f => !f.own u) = lst.filter fun f => !f.own u
  wf : WF lst'

/-- A request that is not blocked and that `flckadj` answers with 0 overlays what its process
holds, byte by byte; an unlock starts at the head of the list. -/
theorem flckadj_overlays (h : WF lst) (h0 : 0 ≤ ld.l_start) (hle : ld.l_start ≤ ld.l_end)
    (hmax : ld.l_end ≤ MAXEND)
    (hreq : (ld.l_type = .F_RDLCK ∨ ld.l_type = .F_WRLCK) ∧ blocked u lst ld = (none, insrtp) ∨
      ld.l_type = .F_UNLCK ∧ insrtp = min 1 lst.length)
    (hret : (flckadj u lst insrtp ld k).ret = none) :
    Overlaid u lst ld (flckadj u lst insrtp ld k).lst := by
  have hinv : Inv u lst ld (lst.take (insrtp - 1)) (lst.drop (insrtp - 1)) insrtp ld := by
    apply inv_start h h0 hle hmax
    rcases hreq with ⟨-, hblk⟩ | hun
    · exact .inl (congrArg Prod.snd hblk)
    · exact .inr hun
  have hans := flckadj_answers (by tauto) hinv hret
  refine ⟨fun b hb => ?_, fun b hb => ?_, hans.others, hans.wf⟩
  · apply Option.ext
    intro t
    rw [heldAt_eq_some hans.wf, hans.holds]
    unfold Overlay
    split <;> simp [hb] <;> grind
  · apply Option.ext
    intro t
    rw [heldAt_eq_some hans.wf, heldAt_eq_some h, hans.holds]
    unfold Overlay
    simp only [hb, false_and, not_false_iff, true_and, false_or, and_iff_right_iff_imp]
    exact holds_valid h

/-- A write lock is laid over the middle of a read lock, before one of another process. -/
theorem flckadj_overlays_split :
    let u : Owner := ⟨1, 0⟩
    let lst : List Filock := [⟨8, ⟨.F_RDLCK, 0, 0, 9, 1, 0⟩, .zero⟩, ⟨16, ⟨.F_RDLCK, 0, 7, 9, 2, 0⟩, .zero⟩]
    let ld : Flock := ⟨.F_WRLCK, 0, 3, 5, 0, 0⟩
    Overlaid u lst ld (flckadj u lst 1 ld ⟨[24, 32], 2, 0, 2, []⟩).lst := by
  intro u lst ld
  have hwf : WF lst := by
    constructor
    · simp [lst, Precedes, Filock.sameOwner]
    · intro f hf
      simp only [lst, mem_cons, not_mem_nil, or_false] at hf
      rcases hf with rfl | rfl <;> exact ⟨.inl rfl, by decide, by decide, by decide⟩
  exact flckadj_overlays hwf (by decide) (by decide) (by decide)
    (.inl ⟨.inr rfl, rfl⟩) rfl

end Request

end Svr3.Rlock
