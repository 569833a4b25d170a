import Svr3.Os.FlockPool

/-!
# Requests that fail for lack of lock records

`flckadj` may find the free list empty when it sets up a piece or when it enters the new lock. The list is as it
was, unless a lock that starts before the request was cut down first.
-/

namespace Svr3.Rlock

open List

/-- A lock that starts before the request is cut down, and then no record is left: for the request when the lock
reached behind it, and for the request or a piece of another lock when it did not. -/
inductive Spoiled (u : Owner) (lst : List Filock) (ld : Flock) (free : List ℕ) : Prop
  | split (f : Filock) (hf : f ∈ lst) (hown : f.own u = true) (hne : ld.l_type ≠ f.set.l_type)
      (hstart : f.set.l_start < ld.l_start) (hend : ld.l_end < f.set.l_end) (hlock : ld.l_type ≠ .F_UNLCK)
      (hone : free.length = 1)
  | cut (f : Filock) (hf : f ∈ lst) (hown : f.own u = true) (hne : ld.l_type ≠ f.set.l_type)
      (hstart : f.set.l_start < ld.l_start) (hover : ld.l_start ≤ f.set.l_end) (hend : f.set.l_end ≤ ld.l_end)
      (hnone : free = [])
      (hpoor : ∀ g ∈ lst, g.own u = true → ld.l_start < g.set.l_start →
        ld.l_end < g.set.l_end ∧ (ld.l_type = g.set.l_type → ld.l_end + 1 < g.set.l_start))
      (hneed : ld.l_type ≠ .F_UNLCK ∨
        ∃ g ∈ lst, g.own u = true ∧ ld.l_start < g.set.l_start ∧ g.set.l_start ≤ ld.l_end)

/-- What `flckadj` returns after the loop -/
def Scanned.out (u : Owner) (s : Scanned) : Adjusted :=
  match s.go with
  | .ret => ⟨none, s.lst, s.ld, s.k⟩
  | .enolck => ⟨some .ENOLCK, s.lst, s.ld, s.k⟩
  | _ => s.enter u

theorem flckadj_out (u : Owner) (lst : List Filock) (insrtp : ℕ) (ld : Flock) (k : Krnl) :
    flckadj u lst insrtp ld k = (scan u (lst.take (insrtp - 1)) insrtp ld k (lst.drop (insrtp - 1))).out u := rfl

section fail

variable {u : Owner} {lst before behind rest : List Filock} {ld : Flock} {flp : Filock} {insrtp : ℕ} {k : Krnl}
  {s : Scanned} {t : Turn}

theorem enter_free (h : s.k.frlock ≠ []) : (s.enter u).ret = none := by
  rw [Scanned.enter, insflck]
  split
  · rfl
  · cases hfree : s.k.frlock with
    | nil => exact absurd hfree h
    | cons a r => rfl

theorem enter_empty (h : s.k.frlock = []) : (s.enter u).lst = s.lst ∧
    (s.enter u).ret = if s.ld.l_type = .F_UNLCK then none else some .ENOLCK := by
  rw [Scanned.enter, insflck, h]
  split
  · exact ⟨rfl, rfl⟩
  · exact ⟨rfl, rfl⟩

theorem out_free (hgo : s.go ≠ .enolck) (h : s.k.frlock ≠ []) : (s.out u).ret = none := by
  rw [Scanned.out]
  cases hg : s.go with
  | ret => rfl
  | enolck => exact absurd hg hgo
  | next => exact enter_free h
  | stop => exact enter_free h

theorem piece_empty (u : Owner) (flp : Filock) (h : t.k.frlock = []) : (t.piece u flp).go = .enolck := by
  rw [Turn.piece, insflck]
  simp only [h]

theorem piece_taken (u : Owner) (flp : Filock) {a : ℕ} {r : List ℕ} (h : t.k.frlock = a :: r) :
    (t.piece u flp).go = .stop ∧ (t.piece u flp).k.frlock = r ∧ (t.piece u flp).ld = t.ld ∧
      (t.piece u flp).stay = t.stay := by
  rw [Turn.piece, insflck]
  simp only [h, and_self]

/-- The turn of the loop for a lock of the process -/
theorem scan_turn (hown : flp.own u = true) (ht : turn u before.length insrtp ld k flp behind = t) :
    scan u before insrtp ld k (flp :: behind) =
      match t.go with
      | .next => scan u (before ++ t.stay) t.insrtp t.ld t.k behind
      | _ => ⟨before ++ t.stay ++ t.behind, t.insrtp, t.ld, t.k, t.go⟩ := by
  rw [scan, if_pos hown]
  subst ht
  rfl

/-- A turn for a lock that starts behind the start of the request, where it finds or leaves a record -/
structure Turn.Rich (ld : Flock) (t : Turn) : Prop where
  go : t.go = .next ∨ t.go = .stop
  free : t.k.frlock ≠ []
  start : t.go = .next → t.ld = ld

theorem del_rich {p : ℕ} {go : Go} (hgo : go = .next ∨ go = .stop) (ld' : Flock) (hld : go = .next → ld' = ld) :
    Turn.Rich ld ⟨[], behind, p, ld', delflck flp k, go⟩ := by
  refine ⟨hgo, ?_, hld⟩
  rw [delflck_frlock]
  exact cons_ne_nil _ _

theorem piece_del_rich (hk : t.k.frlock ≠ []) :
    Turn.Rich ld (match (t.piece u flp).go with
      | .enolck => t.piece u flp
      | _ => (t.piece u flp).del flp) := by
  obtain ⟨a, r, hfree⟩ := exists_cons_of_ne_nil hk
  obtain ⟨hgo, -⟩ := piece_taken u flp hfree
  rw [hgo]
  refine ⟨.inr hgo, ?_, fun h => ?_⟩
  · change (delflck flp (t.piece u flp).k).frlock ≠ []
    rw [delflck_frlock]
    exact cons_ne_nil _ _
  · change (t.piece u flp).go = .next at h
    rw [hgo] at h
    cases h

theorem turn_rich (u : Owner) (behind : List Filock) (insrtp : ℕ) (hle : ld.l_start ≤ ld.l_end) (hlt : ld.l_start < flp.set.l_start) (hk : k.frlock ≠ [])
    (pos : ℕ) : (turn u pos insrtp ld k flp behind).Rich ld := by
  have hreg := regflck_spec (f := flp.set) hle
  have hkeep (go : Go) (hgo : go = .next ∨ go = .stop) : Turn.Rich ld ⟨[flp], behind, insrtp, ld, k, go⟩ :=
    ⟨hgo, hk, fun _ => rfl⟩
  unfold turn
  generalize regflck ld flp.set = r at hreg
  cases hreg with
  | before_before h1 => exact hkeep .stop (.inr rfl)
  | before_start h1 =>
    by_cases hsame : ld.l_type = flp.set.l_type
    · simp only [if_pos hsame]
      exact del_rich (.inr rfl) _ nofun
    · simp only [if_neg hsame]
      exact hkeep .stop (.inr rfl)
  | before_middle h1 h2 h3 =>
    by_cases hsame : ld.l_type = flp.set.l_type
    · simp only [if_pos hsame]
      exact del_rich (.inr rfl) _ nofun
    · simp only [if_neg hsame]
      exact piece_del_rich hk
  | before_end h1 h2 =>
    by_cases hsame : ld.l_type = flp.set.l_type
    · simp only [if_pos hsame]
      exact del_rich (.inr rfl) _ nofun
    · simp only [if_neg hsame]
      exact del_rich (.inl rfl) _ fun _ => rfl
  | before_after h1 h2 => exact del_rich (.inl rfl) _ fun _ => rfl
  | start_middle h1 h2 => omega
  | start_end h1 h2 => omega
  | start_after h1 h2 => omega
  | middle_middle h1 h2 => omega
  | middle_end h1 h2 => omega
  | middle_after h1 h2 h3 => omega
  | end_after h1 h2 => omega
  | after_after h1 h2 => omega

/-- Once a record is free and the locks to come start behind the start of the request, the request is granted. -/
theorem scan_rich (hle : ld.l_start ≤ ld.l_end) (hk : k.frlock ≠ [])
    (hrest : ∀ f ∈ rest, f.own u = true → ld.l_start < f.set.l_start) :
    ((scan u before insrtp ld k rest).out u).ret = none := by
  induction rest generalizing before insrtp k with
  | nil => exact out_free nofun hk
  | cons flp behind ih =>
    have hbeh : ∀ f ∈ behind, f.own u = true → ld.l_start < f.set.l_start :=
      fun f hf => hrest f (mem_cons_of_mem _ hf)
    by_cases hown : flp.own u = true
    · have hrich := turn_rich u behind insrtp hle (hrest flp mem_cons_self hown)
        hk before.length
      rw [scan_turn hown rfl]
      generalize turn u before.length insrtp ld k flp behind = t at hrich ⊢
      rcases hrich.go with hgo | hgo
      · rw [hgo]
        dsimp only
        rw [hrich.start hgo]
        exact ih hrich.free hbeh
      · rw [hgo]
        exact out_free nofun hrich.free
    · rw [scan, if_neg hown]
      exact ih hk hbeh

/-- After a turn that leaves a record -/
theorem out_rich {l : Flock} (hrich : t.Rich l) (hle : l.l_start ≤ l.l_end)
    (hbeh : ∀ f ∈ behind, f.own u = true → l.l_start < f.set.l_start) (hown : flp.own u = true)
    (ht : turn u before.length insrtp ld k flp behind = t) :
    ((scan u before insrtp ld k (flp :: behind)).out u).ret = none := by
  rw [scan_turn hown ht]
  rcases hrich.go with hgo | hgo
  · rw [hgo]
    dsimp only
    rw [hrich.start hgo]
    exact scan_rich hle hrich.free hbeh
  · rw [hgo]
    exact out_free nofun hrich.free

/-- The request neither overlays the end of the lock nor grows by it. -/
def Spares (ld : Flock) (g : Filock) : Prop :=
  ld.l_end < g.set.l_end ∧ (ld.l_type = g.set.l_type → ld.l_end + 1 < g.set.l_start)

theorem sorted_behind (h : WF (before ++ flp :: behind)) : ∀ g ∈ behind, flp.set.l_start ≤ g.set.l_start :=
  (pairwise_cons.mp (pairwise_append.mp h.sorted).2.1).1

/-- No record is free, and the request spares all locks to come: the list stays. -/
theorem scan_spares (insrtp : ℕ) (h : WF (before ++ rest)) (hle : ld.l_start ≤ ld.l_end) (hk : k.frlock = [])
    (hrest : ∀ f ∈ rest, f.own u = true → ld.l_start < f.set.l_start)
    (hspares : ∀ f ∈ rest, f.own u = true → Spares ld f) :
    ((scan u before insrtp ld k rest).out u).lst = before ++ rest ∧
      ((scan u before insrtp ld k rest).out u).ret =
        if ld.l_type ≠ .F_UNLCK ∨ ∃ f ∈ rest, f.own u = true ∧ f.set.l_start ≤ ld.l_end then some .ENOLCK
        else none := by
  induction rest generalizing before with
  | nil =>
    have hout := enter_empty (u := u) (s := ⟨before, insrtp, ld, k, .stop⟩) hk
    rw [append_nil]
    refine ⟨hout.1, hout.2.trans ?_⟩
    simp only [not_mem_nil, false_and, exists_false, or_false, ite_not]
  | cons flp behind ih =>
    have hbeh : ∀ f ∈ behind, f.own u = true → ld.l_start < f.set.l_start :=
      fun f hf => hrest f (mem_cons_of_mem _ hf)
    by_cases hown : flp.own u = true
    · have hlt := hrest flp mem_cons_self hown
      obtain ⟨hend, hadj⟩ := hspares flp mem_cons_self hown
      have hreg := regflck_spec (f := flp.set) hle
      have hsort := sorted_behind h
      -- the loop ends here, or the piece behind the request cannot be set up
      have hstop (hover : ld.l_end < flp.set.l_start)
          (ht : turn u before.length insrtp ld k flp behind = ⟨[flp], behind, insrtp, ld, k, .stop⟩) :
          ((scan u before insrtp ld k (flp :: behind)).out u).lst = before ++ flp :: behind ∧
            ((scan u before insrtp ld k (flp :: behind)).out u).ret =
              if ld.l_type ≠ .F_UNLCK ∨ ∃ f ∈ flp :: behind, f.own u = true ∧ f.set.l_start ≤ ld.l_end then
                some .ENOLCK
              else none := by
        have hnone : ¬∃ f ∈ flp :: behind, f.own u = true ∧ f.set.l_start ≤ ld.l_end := by
          rintro ⟨f, hf, -, hle'⟩
          rcases mem_cons.mp hf with rfl | hf
          · omega
          · have hsf := hsort f hf
            omega
        have hout := enter_empty (u := u) (s := ⟨before ++ [flp] ++ behind, insrtp, ld, k, .stop⟩) hk
        rw [scan_turn hown ht]
        refine ⟨hout.1.trans (append_cons _ _ _).symm, hout.2.trans ?_⟩
        simp only [hnone, or_false, ite_not]
      have hfail (hover : flp.set.l_start ≤ ld.l_end) (hne : ld.l_type ≠ flp.set.l_type)
          (hr : regflck ld flp.set = (.S_BEFORE, .E_MIDDLE)) :
          ((scan u before insrtp ld k (flp :: behind)).out u).lst = before ++ flp :: behind ∧
            ((scan u before insrtp ld k (flp :: behind)).out u).ret =
              if ld.l_type ≠ .F_UNLCK ∨ ∃ f ∈ flp :: behind, f.own u = true ∧ f.set.l_start ≤ ld.l_end then
                some .ENOLCK
              else none := by
        have hgo := piece_empty u flp (t := ⟨[flp], behind, insrtp, ld, k, .next⟩) hk
        have ht : turn u before.length insrtp ld k flp behind =
            Turn.piece u ⟨[flp], behind, insrtp, ld, k, .next⟩ flp := by
          unfold turn
          rw [hr]
          simp only [if_neg hne, hgo]
        obtain ⟨h1, h2, -⟩ := piece_enolck hgo
        rw [scan_turn hown ht, hgo]
        refine ⟨?_, (if_pos (.inr ⟨flp, mem_cons_self, hown, hover⟩)).symm⟩
        change before ++ (Turn.piece u _ flp).stay ++ (Turn.piece u _ flp).behind = _
        rw [h1, h2, append_assoc]
        rfl
      generalize hr : regflck ld flp.set = r at hreg
      cases hreg with
      | before_before h1 =>
        apply hstop (by omega)
        unfold turn
        rw [hr]
      | before_start h1 =>
        have hne : ld.l_type ≠ flp.set.l_type := fun hs => absurd (hadj hs) (by omega)
        apply hstop (by omega)
        unfold turn
        rw [hr]
        simp only [if_neg hne]
      | before_middle h1 h2 h3 => exact hfail h2 (fun hs => absurd (hadj hs) (by omega)) hr
      | _ => omega
    · rw [scan, if_neg hown]
      have heq : before ++ flp :: behind = before ++ [flp] ++ behind := append_cons _ _ _
      have hone : (∃ f ∈ flp :: behind, f.own u = true ∧ f.set.l_start ≤ ld.l_end) ↔
          ∃ f ∈ behind, f.own u = true ∧ f.set.l_start ≤ ld.l_end := by
        constructor
        · rintro ⟨f, hf, hfown, hle'⟩
          rcases mem_cons.mp hf with rfl | hf
          · exact absurd hfown hown
          · exact ⟨f, hf, hfown, hle'⟩
        · rintro ⟨f, hf, hf'⟩
          exact ⟨f, mem_cons_of_mem _ hf, hf'⟩
      simp only [hone, heq]
      exact ih (heq ▸ h) hbeh fun f hf => hspares f (mem_cons_of_mem _ hf)

/-- No record is free, and the request does not spare a lock to come: a lock is deleted first. -/
theorem scan_not_spared (h : WF (before ++ rest)) (hle : ld.l_start ≤ ld.l_end)
    (hrest : ∀ f ∈ rest, f.own u = true → ld.l_start < f.set.l_start)
    (hspares : ¬∀ f ∈ rest, f.own u = true → Spares ld f) :
    ((scan u before insrtp ld k rest).out u).ret = none := by
  induction rest generalizing before with
  | nil => exact absurd nofun hspares
  | cons flp behind ih =>
    have hbeh : ∀ f ∈ behind, f.own u = true → ld.l_start < f.set.l_start :=
      fun f hf => hrest f (mem_cons_of_mem _ hf)
    by_cases hown : flp.own u = true
    · have hlt := hrest flp mem_cons_self hown
      have hflp : ¬Spares ld flp := by
        intro hflp
        refine hspares fun f hf hfown => ?_
        rcases mem_cons.mp hf with rfl | hf
        · exact hflp
        · obtain ⟨hord, -⟩ := ((h.around hown).2 f hf).2 hfown
          have hv := (h.valid f (by simp [hf])).le
          have hend := hflp.1
          exact ⟨by omega, fun _ => by omega⟩
      have hrich : (turn u before.length insrtp ld k flp behind).Rich ld := by
        have hv := (h.valid flp (by simp)).le
        have hreg := regflck_spec (f := flp.set) hle
        unfold turn
        generalize regflck ld flp.set = r at hreg
        by_cases hsame : ld.l_type = flp.set.l_type
        · cases hreg with
          | before_start h1 =>
            simp only [if_pos hsame]
            exact del_rich (.inr rfl) _ nofun
          | before_middle h1 h2 h3 =>
            simp only [if_pos hsame]
            exact del_rich (.inr rfl) _ nofun
          | before_end h1 h2 =>
            simp only [if_pos hsame]
            exact del_rich (.inr rfl) _ nofun
          | before_after h1 h2 => exact del_rich (.inl rfl) _ fun _ => rfl
          | before_before h1 => exact absurd ⟨by omega, fun _ => h1⟩ hflp
          | _ => omega
        · cases hreg with
          | before_end h1 h2 =>
            simp only [if_neg hsame]
            exact del_rich (.inl rfl) _ fun _ => rfl
          | before_after h1 h2 => exact del_rich (.inl rfl) _ fun _ => rfl
          | before_before h1 => exact absurd ⟨by omega, fun hs => absurd hs hsame⟩ hflp
          | before_start h1 => exact absurd ⟨by omega, fun hs => absurd hs hsame⟩ hflp
          | before_middle h1 h2 h3 => exact absurd ⟨h3, fun hs => absurd hs hsame⟩ hflp
          | _ => omega
      exact out_rich hrich hle hbeh hown rfl
    · rw [scan, if_neg hown]
      refine ih (by simpa using h) hbeh fun hall => hspares fun f hf hfown => ?_
      rcases mem_cons.mp hf with rfl | hf
      · exact absurd hfown hown
      · exact hall f hf hfown

/-! ## The locks before and at the start of the request -/

/-- The request is granted or the list stays; or it is spoiled, and an offset that was locked is free. -/
def Verdict (u : Owner) (lst : List Filock) (ld : Flock) (free : List ℕ) (a : Adjusted) : Prop :=
  ¬Spoiled u lst ld free ∧ (a.ret = none ∨ a.lst = lst) ∨
    Spoiled u lst ld free ∧ a.ret = some .ENOLCK ∧ ∃ t, Holds u lst ld.l_start t ∧ ¬Holds u a.lst ld.l_start t

variable {free : List ℕ}

theorem not_spoiled (hle : ld.l_start ≤ ld.l_end)
    (h : ∀ f ∈ lst, f.own u = true → f.set.l_start < ld.l_start → f.set.l_end < ld.l_start) :
    ¬Spoiled u lst ld free := by
  intro hs
  cases hs with
  | split f hf hown hne hstart hend hlock hone =>
    have hlt := h f hf hown hstart
    omega
  | cut f hf hown hne hstart hover hend hnone hpoor hneed =>
    have hlt := h f hf hown hstart
    omega

/-- No lock of the process starts before the request and reaches into it. -/
theorem no_left (h : WF (before ++ flp :: behind)) (hown : flp.own u = true)
    (hleft : ∀ e ∈ before, e.own u = true → e.set.l_end < ld.l_start)
    (hflp : ld.l_start ≤ flp.set.l_end + 1 ∧ (ld.l_start ≤ flp.set.l_start ∨ flp.set.l_end < ld.l_start)) :
    ∀ f ∈ before ++ flp :: behind, f.own u = true → f.set.l_start < ld.l_start → f.set.l_end < ld.l_start := by
  intro f hf hfown hlt
  rcases mem_append.mp hf with hf | hf
  · exact hleft f hf hfown
  · rcases mem_cons.mp hf with rfl | hf
    · rcases hflp.2 with h' | h'
      · omega
      · exact h'
    · obtain ⟨hord, -⟩ := ((h.around hown).2 f hf).2 hfown
      omega

/-- One lock starts before the request and reaches into it. -/
theorem only_left (h : WF (before ++ flp :: behind)) (hown : flp.own u = true)
    (hleft : ∀ e ∈ before, e.own u = true → e.set.l_end < ld.l_start) (hflp : ld.l_start ≤ flp.set.l_end) :
    ∀ f ∈ before ++ flp :: behind, f.own u = true → f.set.l_start < ld.l_start → ld.l_start ≤ f.set.l_end →
      f = flp := by
  intro f hf hfown hlt hge
  rcases mem_append.mp hf with hf | hf
  · exact absurd (hleft f hf hfown) (Int.not_lt.mpr hge)
  · rcases mem_cons.mp hf with rfl | hf
    · rfl
    · obtain ⟨hord, -⟩ := ((h.around hown).2 f hf).2 hfown
      omega

theorem behind_after (h : WF (before ++ flp :: behind)) (hown : flp.own u = true) {b : ℤ} (hb : b ≤ flp.set.l_end) :
    ∀ f ∈ behind, f.own u = true → b < f.set.l_start := by
  intro f hf hfown
  obtain ⟨hord, -⟩ := ((h.around hown).2 f hf).2 hfown
  omega

/-- No lock reaches into the request from the left: the loop deletes first, or leaves the list. -/
theorem verdict_right (h : WF (before ++ flp :: behind)) (hown : flp.own u = true) (hle : ld.l_start ≤ ld.l_end)
    (hleft : ∀ e ∈ before, e.own u = true → e.set.l_end < ld.l_start) (hstart : ld.l_start ≤ flp.set.l_start) :
    Verdict u (before ++ flp :: behind) ld k.frlock ((scan u before insrtp ld k (flp :: behind)).out u) := by
  have hv := (h.valid flp (by simp)).le
  have hrest : ∀ f ∈ flp :: behind, f.own u = true → ld.l_start < f.set.l_start ∨ f = flp := by
    intro f hf hfown
    rcases mem_cons.mp hf with rfl | hf
    · exact .inr rfl
    · exact .inl (behind_after h hown (by omega) f hf hfown)
  refine .inl ⟨not_spoiled hle (no_left h hown hleft ⟨by omega, .inl hstart⟩), ?_⟩
  rcases Int.lt_or_eq_of_le hstart with hlt | heq
  · have hrest' : ∀ f ∈ flp :: behind, f.own u = true → ld.l_start < f.set.l_start := by
      intro f hf hfown
      rcases hrest f hf hfown with h' | rfl
      · exact h'
      · exact hlt
    by_cases hk : k.frlock = []
    · by_cases hsp : ∀ f ∈ flp :: behind, f.own u = true → Spares ld f
      · exact .inr (scan_spares insrtp h hle hk hrest' hsp).1
      · exact .inl (scan_not_spared h hle hrest' hsp)
    · exact .inl (scan_rich hle hk hrest')
  · -- the lock starts where the request does
    have hbeh := behind_after h hown (b := ld.l_start) (by omega)
    have hreg := regflck_spec (f := flp.set) hle
    generalize hr : regflck ld flp.set = r at hreg
    cases hreg with
    | start_middle h1 h2 =>
      by_cases hsame : ld.l_type = flp.set.l_type
      · left
        rw [scan_turn hown (t := ⟨[flp], behind, before.length, ld, k, .ret⟩)]
        · rfl
        · unfold turn
          rw [hr]
          simp only [if_pos hsame]
      · have ht : turn u before.length insrtp ld k flp behind =
            match (Turn.piece u ⟨[flp], behind, before.length, ld, k, .next⟩ flp).go with
            | .enolck => Turn.piece u ⟨[flp], behind, before.length, ld, k, .next⟩ flp
            | _ => (Turn.piece u ⟨[flp], behind, before.length, ld, k, .next⟩ flp).del flp := by
          unfold turn
          rw [hr]
          exact if_neg hsame
        by_cases hk : k.frlock = []
        · right
          have hgo := piece_empty u flp (t := ⟨[flp], behind, before.length, ld, k, .next⟩) hk
          obtain ⟨h3, h4, -⟩ := piece_enolck hgo
          rw [hgo] at ht
          rw [scan_turn hown ht, hgo]
          change before ++ (Turn.piece u _ flp).stay ++ (Turn.piece u _ flp).behind = _
          rw [h3, h4, append_assoc]
          rfl
        · left
          exact out_rich (l := ld) (ht ▸ piece_del_rich hk) hle hbeh hown rfl
    | start_end h1 h2 =>
      left
      by_cases hsame : ld.l_type = flp.set.l_type
      · rw [scan_turn hown (t := ⟨[flp], behind, insrtp, ld, k, .ret⟩)]
        · rfl
        · unfold turn
          rw [hr]
          simp only [if_pos hsame]
      · refine out_rich (l := ld) (t := ⟨[], behind, before.length, ld, delflck flp k, .next⟩)
          (del_rich (.inl rfl) _ fun _ => rfl) hle hbeh hown ?_
        unfold turn
        rw [hr]
        simp only [if_neg hsame]
        rfl
    | start_after h1 h2 =>
      left
      refine out_rich (l := ld) (t := ⟨[], behind, before.length, ld, delflck flp k, .next⟩)
        (del_rich (.inl rfl) _ fun _ => rfl) hle hbeh hown ?_
      unfold turn
      rw [hr]
      rfl
    | _ => omega

/-- The lock reaches behind the request. -/
theorem verdict_middle (h : WF (before ++ flp :: behind)) (hown : flp.own u = true) (hle : ld.l_start ≤ ld.l_end)
    (hleft : ∀ e ∈ before, e.own u = true → e.set.l_end < ld.l_start) (hstart : flp.set.l_start < ld.l_start)
    (hend : ld.l_end < flp.set.l_end) (hne : ld.l_type ≠ flp.set.l_type)
    (hr : regflck ld flp.set = (.S_MIDDLE, .E_MIDDLE)) :
    Verdict u (before ++ flp :: behind) ld k.frlock ((scan u before insrtp ld k (flp :: behind)).out u) := by
  have honly := only_left h hown hleft (by omega)
  have ht : turn u before.length insrtp ld k flp behind =
      match (Turn.piece u ⟨[flp], behind, insrtp, ld, k, .next⟩ flp).go with
      | .enolck => Turn.piece u ⟨[flp], behind, insrtp, ld, k, .next⟩ flp
      | _ => (Turn.piece u ⟨[flp], behind, insrtp, ld, k, .next⟩ flp).cut before.length flp := by
    unfold turn
    rw [hr]
    exact if_neg hne
  have hnot (free : List ℕ) (hfree : free.length ≠ 1 ∨ ld.l_type = .F_UNLCK) :
      ¬Spoiled u (before ++ flp :: behind) ld free := by
    intro hs
    cases hs with
    | split f hf hfown hne' hstart' hend' hlock hone =>
      rcases hfree with h' | h'
      · exact h' hone
      · exact hlock h'
    | cut f hf hfown hne' hstart' hover hend' hnone hpoor hneed =>
      rw [honly f hf hfown hstart' hover] at hend'
      omega
  cases hk : k.frlock with
  | nil =>
    have hgo := piece_empty u flp (t := ⟨[flp], behind, insrtp, ld, k, .next⟩) hk
    obtain ⟨h3, h4, -⟩ := piece_enolck hgo
    rw [hgo] at ht
    rw [scan_turn hown ht, hgo]
    refine .inl ⟨hnot _ (.inl (by decide)), .inr ?_⟩
    change before ++ (Turn.piece u _ flp).stay ++ (Turn.piece u _ flp).behind = _
    rw [h3, h4, append_assoc]
    rfl
  | cons a r =>
    obtain ⟨hgo, hfree, hld, -⟩ := piece_taken u flp (t := ⟨[flp], behind, insrtp, ld, k, .next⟩) hk
    obtain ⟨ys1, ys2, td, hys, hpb, -, -, -, -, htd⟩ :=
      piece_spec (u := u) ⟨[flp], behind, insrtp, ld, k, .next⟩ rfl h (by dsimp only; omega)
        (by rw [hgo]; exact nofun)
    obtain ⟨htd1, -, htd3, -⟩ := htd
    have hys' : behind = ys1 ++ ys2 := hys
    generalize Turn.piece u ⟨[flp], behind, insrtp, ld, k, .next⟩ flp = p at *
    rw [hgo] at ht
    dsimp only at ht htd3 hld
    have hgo' : (p.cut before.length flp).go = .stop := hgo
    have hscan : (scan u before insrtp ld k (flp :: behind)).out u =
        Scanned.enter u ⟨before ++ (p.cut before.length flp).stay ++ (p.cut before.length flp).behind,
          (p.cut before.length flp).insrtp, (p.cut before.length flp).ld, (p.cut before.length flp).k, .stop⟩ := by
      rw [scan_turn hown ht, hgo']
      rfl
    rw [hscan]
    have hcut := WAKEUP_frlock { flp with set := { flp.set with l_end := p.ld.l_start - 1 } } p.k
    have hset := (WAKEUP_set { flp with set := { flp.set with l_end := p.ld.l_start - 1 } } p.k).1
    by_cases hun : ld.l_type = .F_UNLCK
    · refine .inl ⟨hnot _ (.inr hun), .inl ?_⟩
      rw [← hld] at hun
      exact congrArg Adjusted.ret (if_pos hun)
    · by_cases hr1 : r = []
      · -- the piece has taken the last record
        refine .inr ⟨.split flp (by simp) hown hne hstart hend hun (by rw [hr1]; rfl), ?_, flp.set.l_type,
          ⟨flp, by simp, hown, by omega, by omega, rfl⟩, ?_⟩
        · refine (enter_empty (hcut.trans (hfree.trans hr1))).2.trans (if_neg ?_)
          change p.ld.l_type ≠ _
          rw [hld]
          exact hun
        · rw [(enter_empty (hcut.trans (hfree.trans hr1))).1]
          rintro ⟨f, hf, hfown, h1, h2, -⟩
          have hbeh := behind_after h hown (b := ld.l_start) (by omega)
          change f ∈ before ++ [(WAKEUP _ _).1] ++ p.behind at hf
          rw [hpb, hld] at hf
          rw [hld] at hset
          simp only [mem_append, mem_cons, not_mem_nil, or_false] at hf
          rcases hf with (hf | hf) | hf | hf | hf
          · have hlt := hleft f hf hfown
            omega
          · rw [hf, hset] at h2
            dsimp only at h2
            omega
          · have hlt := hbeh f (by simp [hys', hf]) hfown
            omega
          · rw [hf, htd3] at h1
            omega
          · have hlt := hbeh f (by simp [hys', hf]) hfown
            omega
      · refine .inl ⟨hnot _ (.inl ?_), .inl ?_⟩
        · rw [length_cons]
          have hpos := length_pos_iff.mpr hr1
          omega
        · refine enter_free ?_
          change (WAKEUP _ _).2.frlock ≠ []
          rw [hcut, hfree]
          exact hr1

/-- The lock ends inside the request: it is cut down before the loop goes on. -/
theorem verdict_cut (h : WF (before ++ flp :: behind)) (hown : flp.own u = true) (hle : ld.l_start ≤ ld.l_end)
    (hleft : ∀ e ∈ before, e.own u = true → e.set.l_end < ld.l_start) (hstart : flp.set.l_start < ld.l_start)
    (hover : ld.l_start ≤ flp.set.l_end) (hend : flp.set.l_end ≤ ld.l_end) (hne : ld.l_type ≠ flp.set.l_type)
    (ht : turn u before.length insrtp ld k flp behind =
      Turn.cut ⟨[flp], behind, insrtp, ld, k, .next⟩ before.length flp) :
    Verdict u (before ++ flp :: behind) ld k.frlock ((scan u before insrtp ld k (flp :: behind)).out u) := by
  have honly := only_left h hown hleft hover
  have hbeh := behind_after h hown hover
  have hfree := WAKEUP_frlock { flp with set := { flp.set with l_end := ld.l_start - 1 } } k
  have hset := (WAKEUP_set { flp with set := { flp.set with l_end := ld.l_start - 1 } } k).1
  rw [scan_turn hown ht]
  change Verdict _ _ _ _ (Scanned.out u
    (scan u (before ++ [(WAKEUP _ k).1]) (before.length + 1) ld (WAKEUP _ k).2 behind))
  generalize WAKEUP { flp with set := { flp.set with l_end := ld.l_start - 1 } } k = w at *
  obtain ⟨g, k'⟩ := w
  dsimp only at hfree hset ⊢
  have hgown : g.own u = true := by
    rw [Filock.own, hset]
    exact hown
  have hwf : WF (before ++ [g] ++ behind) := by
    rw [← append_cons]
    refine h.cut ⟨by rw [hset], by rw [hset]⟩ (by rw [hset]) (by rw [hset]) ?_ ?_ <;> rw [hset] <;> dsimp only <;> omega
  -- what lies behind the start of the request lies behind the lock
  have hright : ∀ f ∈ before ++ flp :: behind, f.own u = true → ld.l_start < f.set.l_start → f ∈ behind := by
    intro f hf hfown hlt
    have hv := (h.valid f hf).le
    rcases mem_append.mp hf with hf | hf
    · have hlt' := hleft f hf hfown
      omega
    · rcases mem_cons.mp hf with rfl | hf
      · omega
      · exact hf
  have hnot (hno : k.frlock ≠ [] ∨ (¬∀ f ∈ behind, f.own u = true → Spares ld f) ∨
      ¬(ld.l_type ≠ .F_UNLCK ∨ ∃ f ∈ behind, f.own u = true ∧ f.set.l_start ≤ ld.l_end)) :
      ¬Spoiled u (before ++ flp :: behind) ld k.frlock := by
    intro hs
    cases hs with
    | split f hf hfown hne' hstart' hend' hlock hone =>
      rw [honly f hf hfown hstart' (by omega)] at hend'
      omega
    | cut f hf hfown hne' hstart' hover' hend' hnone hpoor hneed =>
      rcases hno with h' | h' | h'
      · exact h' hnone
      · exact h' fun f hf hfown => hpoor f (by simp [hf]) hfown (hbeh f hf hfown)
      · refine h' (hneed.imp_right ?_)
        rintro ⟨f, hf, hfown, hlt, hle'⟩
        exact ⟨f, hright f hf hfown hlt, hfown, hle'⟩
  by_cases hk : k.frlock = []
  · have hk' : k'.frlock = [] := hfree.trans hk
    by_cases hsp : ∀ f ∈ behind, f.own u = true → Spares ld f
    · obtain ⟨hlst, hret⟩ := scan_spares (before.length + 1) hwf hle hk' hbeh hsp
      by_cases hneed : ld.l_type ≠ .F_UNLCK ∨ ∃ f ∈ behind, f.own u = true ∧ f.set.l_start ≤ ld.l_end
      · rw [if_pos hneed] at hret
        refine .inr ⟨.cut flp (by simp) hown hne hstart hover hend hk
          (fun f hf hfown hlt => hsp f (hright f hf hfown hlt) hfown) (hneed.imp_right ?_), hret, flp.set.l_type,
          ⟨flp, by simp, hown, by omega, hover, rfl⟩, ?_⟩
        · rintro ⟨f, hf, hfown, hle'⟩
          exact ⟨f, by simp [hf], hfown, hbeh f hf hfown, hle'⟩
        · rw [hlst]
          rintro ⟨f, hf, hfown, h1, h2, -⟩
          simp only [mem_append, mem_cons, not_mem_nil, or_false] at hf
          rcases hf with (hf | rfl) | hf
          · have hlt := hleft f hf hfown
            omega
          · rw [hset] at h2
            dsimp only at h2
            omega
          · have hlt := hbeh f hf hfown
            omega
      · rw [if_neg hneed] at hret
        exact .inl ⟨hnot (.inr (.inr hneed)), .inl hret⟩
    · exact .inl ⟨hnot (.inr (.inl hsp)), .inl (scan_not_spared hwf hle hbeh hsp)⟩
  · refine .inl ⟨hnot (.inl hk), .inl (scan_rich hle ?_ hbeh)⟩
    rw [hfree]
    exact hk

theorem scan_verdict (insrtp : ℕ) (k : Krnl) (h : WF (before ++ rest)) (hle : ld.l_start ≤ ld.l_end)
    (hleft : ∀ e ∈ before, e.own u = true → e.set.l_end < ld.l_start) :
    Verdict u (before ++ rest) ld k.frlock ((scan u before insrtp ld k rest).out u) := by
  induction rest generalizing before insrtp with
  | nil =>
    refine .inl ⟨not_spoiled hle fun f hf hfown _ => hleft f (by simpa using hf) hfown, ?_⟩
    by_cases hk : k.frlock = []
    · right
      rw [append_nil]
      exact (enter_empty (s := ⟨before, insrtp, ld, k, .stop⟩) hk).1
    · exact .inl (enter_free (s := ⟨before, insrtp, ld, k, .stop⟩) hk)
  | cons flp behind ih =>
    have heq : before ++ flp :: behind = before ++ [flp] ++ behind := append_cons _ _ _
    have hkeep (p : ℕ) (hflp : flp.own u = true → flp.set.l_end < ld.l_start) :
        Verdict u (before ++ flp :: behind) ld k.frlock ((scan u (before ++ [flp]) p ld k behind).out u) := by
      rw [heq]
      refine ih _ (heq ▸ h) fun e he hown => ?_
      rcases mem_append.mp he with he | he
      · exact hleft e he hown
      · rw [mem_singleton.mp he] at hown ⊢
        exact hflp hown
    by_cases hown : flp.own u = true
    · rcases Int.lt_or_le flp.set.l_start ld.l_start with hstart | hstart
      · have hv := (h.valid flp (by simp)).le
        have hreg := regflck_spec (f := flp.set) hle
        generalize hr : regflck ld flp.set = r at hreg
        -- the lock is of the same type, and the process holds what it asks for
        have hret (hsame : ld.l_type = flp.set.l_type) (hover : ld.l_start ≤ flp.set.l_end)
            (ht : turn u before.length insrtp ld k flp behind = ⟨[flp], behind, insrtp, ld, k, .ret⟩) :
            Verdict u (before ++ flp :: behind) ld k.frlock
              ((scan u before insrtp ld k (flp :: behind)).out u) := by
          have honly := only_left h hown hleft hover
          refine .inl ⟨fun hs => ?_, .inl ?_⟩
          · cases hs with
            | split f hf hfown hne hstart' hend hlock hone =>
              rw [honly f hf hfown hstart' (by omega)] at hne
              exact hne hsame
            | cut f hf hfown hne hstart' hover' hend hnone hpoor hneed =>
              rw [honly f hf hfown hstart' hover'] at hne
              exact hne hsame
          · rw [scan_turn hown ht]
            rfl
        -- or it is made part of the request
        have hgrow (hsame : ld.l_type = flp.set.l_type) (hover : ld.l_start ≤ flp.set.l_end + 1)
            (hend : flp.set.l_end ≤ ld.l_end) (ht : turn u before.length insrtp ld k flp behind =
              ⟨[], behind, before.length, { ld with l_start := flp.set.l_start }, delflck flp k, .next⟩) :
            Verdict u (before ++ flp :: behind) ld k.frlock
              ((scan u before insrtp ld k (flp :: behind)).out u) := by
          refine .inl ⟨fun hs => ?_, .inl (out_rich (del_rich (.inl rfl) _ fun _ => rfl) ?_ ?_ hown ht)⟩
          · cases hs with
            | split f hf hfown hne hstart' hend' hlock hone =>
              rcases Int.lt_or_le flp.set.l_end ld.l_start with hlt | hge
              · have hno := no_left h hown hleft ⟨hover, .inr hlt⟩ f hf hfown hstart'
                omega
              · rw [only_left h hown hleft hge f hf hfown hstart' (by omega)] at hne
                exact hne hsame
            | cut f hf hfown hne hstart' hover' hend' hnone hpoor hneed =>
              rcases Int.lt_or_le flp.set.l_end ld.l_start with hlt | hge
              · have hno := no_left h hown hleft ⟨hover, .inr hlt⟩ f hf hfown hstart'
                omega
              · rw [only_left h hown hleft hge f hf hfown hstart' hover'] at hne
                exact hne hsame
          · dsimp only
            omega
          · exact behind_after h hown hv
        cases hreg with
        | middle_middle h1 h2 =>
          by_cases hsame : ld.l_type = flp.set.l_type
          · apply hret hsame (by omega)
            unfold turn
            rw [hr]
            simp only [if_pos hsame]
          · exact verdict_middle h hown hle hleft hstart h2 hsame hr
        | middle_end h1 h2 =>
          by_cases hsame : ld.l_type = flp.set.l_type
          · apply hret hsame (by omega)
            unfold turn
            rw [hr]
            simp only [if_pos hsame]
          · apply verdict_cut h hown hle hleft hstart (by omega) (by omega) hsame
            unfold turn
            rw [hr]
            simp only [if_neg hsame]
        | middle_after h1 h2 h3 =>
          by_cases hsame : ld.l_type = flp.set.l_type
          · apply hgrow hsame (by omega) (by omega)
            unfold turn
            rw [hr]
            simp only [if_pos hsame]
            rfl
          · apply verdict_cut h hown hle hleft hstart h2 (by omega) hsame
            unfold turn
            rw [hr]
            simp only [if_neg hsame]
        | end_after h1 h2 =>
          by_cases hsame : ld.l_type = flp.set.l_type
          · apply hgrow hsame (by omega) (by omega)
            unfold turn
            rw [hr]
            simp only [if_pos hsame]
            rfl
          · rw [scan_turn (t := ⟨[flp], behind, insrtp, ld, k, .next⟩) hown]
            · exact hkeep _ fun _ => by omega
            · unfold turn
              rw [hr]
              simp only [if_neg hsame]
        | after_after h1 h2 =>
          rw [scan_turn (t := ⟨[flp], behind, before.length + 1, ld, k, .next⟩) hown]
          · exact hkeep _ fun _ => by omega
          · unfold turn
            rw [hr]
        | _ => omega
      · exact verdict_right h hown hle hleft hstart
    · rw [scan, if_neg hown]
      exact hkeep _ fun ho => absurd ho hown

/-- A request that fails for lack of lock records leaves what every process holds, at every offset, and all lock
records, unless it is spoiled. -/
theorem flckadj_enolck (h : WF lst) (h0 : 0 ≤ ld.l_start) (hle : ld.l_start ≤ ld.l_end) (hmax : ld.l_end ≤ MAXEND)
    (hreq : (ld.l_type = .F_RDLCK ∨ ld.l_type = .F_WRLCK) ∧ blocked u lst ld = (none, insrtp) ∨
      ld.l_type = .F_UNLCK ∧ insrtp = min 1 lst.length) :
    ((flckadj u lst insrtp ld k).ret = some .ENOLCK →
      (∀ v b, heldAt v (flckadj u lst insrtp ld k).lst b = heldAt v lst b) ∧
        (addrs (flckadj u lst insrtp ld k).k (flckadj u lst insrtp ld k).lst).Perm (addrs k lst)) ↔
      ¬Spoiled u lst ld k.frlock := by
  have hinv : Inv u lst ld (lst.take (insrtp - 1)) (lst.drop (insrtp - 1)) insrtp ld := by
    apply inv_start h h0 hle hmax
    rcases hreq with ⟨-, hblk⟩ | hun
    · exact .inl (congrArg Prod.snd hblk)
    · exact .inr hun
  have hverdict := scan_verdict insrtp k hinv.mid.wf hle fun e he hown => (hinv.left e he hown).1
  rw [take_append_drop, ← flckadj_out] at hverdict
  have hperm := flckadj_addrs (u := u) (k := k) lst insrtp ld
  rcases hverdict with ⟨hnot, hkept⟩ | ⟨hs, hret, t, hheld, hlost⟩
  · refine iff_of_true (fun hret => ⟨fun v b => ?_, hperm⟩) hnot
    rcases hkept with hnone | hlst
    · rw [hnone] at hret
      cases hret
    · rw [hlst]
  · refine iff_of_false (fun hall => hlost ?_) (not_not.mpr hs)
    have hsame := (hall hret).1 u ld.l_start
    have htype : ld.l_type = .F_RDLCK ∨ ld.l_type = .F_WRLCK ∨ ld.l_type = .F_UNLCK := by tauto
    rw [← heldAt_eq_some (flckadj_wf htype hinv), hsame, heldAt_eq_some h]
    exact hheld

/-- A read lock on ten bytes -/
def tenBytes : List Filock := [⟨8, ⟨.F_RDLCK, 0, 0, 9, 1, 0⟩, .zero⟩]

theorem tenBytes_wf : WF tenBytes := by
  refine ⟨pairwise_singleton _ _, fun f hf => ?_⟩
  rw [mem_singleton.mp hf]
  exact ⟨.inl rfl, by decide, by decide, by decide⟩

/-- No record is left for the piece behind a write lock, and the list stays. -/
theorem flckadj_enolck_piece :
    (∀ v b, heldAt v (flckadj ⟨1, 0⟩ tenBytes 1 ⟨.F_WRLCK, 0, 3, 5, 0, 0⟩ ⟨[], 1, 0, 1, []⟩).lst b =
        heldAt v tenBytes b) ∧
      (addrs (flckadj ⟨1, 0⟩ tenBytes 1 ⟨.F_WRLCK, 0, 3, 5, 0, 0⟩ ⟨[], 1, 0, 1, []⟩).k
        (flckadj ⟨1, 0⟩ tenBytes 1 ⟨.F_WRLCK, 0, 3, 5, 0, 0⟩ ⟨[], 1, 0, 1, []⟩).lst).Perm
          (addrs ⟨[], 1, 0, 1, []⟩ tenBytes) := by
  refine (flckadj_enolck tenBytes_wf (by decide) (by decide) (by decide) (.inl ⟨.inr rfl, rfl⟩)).mpr (fun hs => ?_) rfl
  cases hs with
  | split f hf hown hne hstart hend hlock hone => cases hone
  | cut f hf hown hne hstart hover hend hnone hpoor hneed =>
    rw [mem_singleton.mp hf] at hend
    exact absurd hend (by decide)

/-- The last record goes to the piece behind a write lock, and the three bytes are not locked any more. -/
theorem bytes_lost :
    blocked ⟨1, 0⟩ tenBytes ⟨.F_WRLCK, 0, 3, 5, 0, 0⟩ = (none, 1) ∧
      (flckadj ⟨1, 0⟩ tenBytes 1 ⟨.F_WRLCK, 0, 3, 5, 0, 0⟩ ⟨[16], 1, 0, 1, []⟩).ret = some .ENOLCK ∧
      heldAt ⟨1, 0⟩ tenBytes 3 = some .F_RDLCK ∧
      heldAt ⟨1, 0⟩ (flckadj ⟨1, 0⟩ tenBytes 1 ⟨.F_WRLCK, 0, 3, 5, 0, 0⟩ ⟨[16], 1, 0, 1, []⟩).lst 3 = none :=
  ⟨rfl, by decide, by decide, by decide⟩

end fail

end Svr3.Rlock
