import Svr3.Os.FlockAdj

/-!
# The lock that blocks a request

`blocked` finds a lock in the way of a request if there is one, and says where `flckadj` may start.
-/

namespace Svr3.Rlock

open List

/-- The lists that `blocked` scans: by start, the locks of one owner apart -/
structure Locks (lst : List Filock) : Prop where
  sorted : lst.Pairwise fun e f => e.set.l_start ≤ f.set.l_start
  apart : lst.Pairwise fun e f => e.sameOwner f → e.set.l_end < f.set.l_start
  le : ∀ f ∈ lst, f.set.l_start ≤ f.set.l_end
  type : ∀ f ∈ lst, f.set.l_type = .F_RDLCK ∨ f.set.l_type = .F_WRLCK

/-- A lock of another owner overlaps the request, and one of the two is a write lock. -/
structure Blocks (u : Owner) (ld : Flock) (f : Filock) : Prop where
  other : f.own u = false
  start : f.set.l_start ≤ ld.l_end
  stop : ld.l_start ≤ f.set.l_end
  write : f.set.l_type = .F_WRLCK ∨ ld.l_type = .F_WRLCK

section find

variable {u : Owner} {ld : Flock} {f : Filock} {lst fs : List Filock} {pos : ℕ}

theorem conflict_iff (h : f.set.l_type = .F_RDLCK ∨ f.set.l_type = .F_WRLCK) :
    conflict f.set ld = true ↔ f.set.l_type = .F_WRLCK ∨ ld.l_type = .F_WRLCK := by
  rcases h with h | h <;> simp [conflict, h]

theorem Locks.tail (h : Locks (f :: fs)) : Locks fs where
  sorted := (pairwise_cons.mp h.sorted).2
  apart := (pairwise_cons.mp h.apart).2
  le := fun e he => h.le e (mem_cons_of_mem _ he)
  type := fun e he => h.type e (mem_cons_of_mem _ he)

/-- The answer of a scan: a lock that blocks, or there is none. -/
structure Answer (u : Owner) (ld : Flock) (lst : List Filock) (r : Option Filock) : Prop where
  found : ∀ f, r = some f → f ∈ lst ∧ Blocks u ld f
  none : r = none → ∀ f ∈ lst, ¬Blocks u ld f

theorem Answer.here (h : Blocks u ld f) : Answer u ld (f :: fs) (some f) := by
  refine ⟨fun g hg => ?_, nofun⟩
  obtain rfl := Option.some.inj hg
  exact ⟨mem_cons_self, h⟩

theorem Answer.cons {r : Option Filock} (h : Answer u ld fs r) (hf : ¬Blocks u ld f) : Answer u ld (f :: fs) r := by
  refine ⟨fun g hg => ?_, fun hr g hg => ?_⟩
  · obtain ⟨hmem, hb⟩ := h.found g hg
    exact ⟨mem_cons_of_mem _ hmem, hb⟩
  · rcases mem_cons.mp hg with rfl | hg
    · exact hf
    · exact h.none hr g hg

theorem blockedFrom_answer (h : Locks lst) : Answer u ld lst (blockedFrom u ld lst) := by
  induction lst with
  | nil => exact ⟨nofun, fun _ => nofun⟩
  | cons f fs ih =>
    have htype := h.type f mem_cons_self
    rw [blockedFrom]
    split
    next hlt =>
      -- the locks to come start behind the request
      refine ⟨nofun, fun _ g hg hb => ?_⟩
      have hstart := hb.start
      rcases mem_cons.mp hg with rfl | hg
      · omega
      · have hle := (pairwise_cons.mp h.sorted).1 g hg
        omega
    next hge =>
      split
      next hb =>
        simp only [Bool.and_eq_true, decide_eq_true_eq, Bool.not_eq_true'] at hb
        exact .here ⟨hb.1.2, Int.not_lt.mp hge, hb.1.1, (conflict_iff htype).mp hb.2⟩
      next hb =>
        refine (ih h.tail).cons fun hblk => hb ?_
        simp only [Bool.and_eq_true, decide_eq_true_eq, Bool.not_eq_true']
        exact ⟨⟨hblk.stop, hblk.other⟩, (conflict_iff htype).mpr hblk.write⟩

theorem blockedAt_answer (u : Owner) (pos : ℕ) (h : Locks lst) (hle : ld.l_start ≤ ld.l_end) :
    Answer u ld lst (blockedAt u ld pos lst).1 := by
  induction lst generalizing pos with
  | nil => exact ⟨nofun, fun _ => nofun⟩
  | cons f fs ih =>
    have htype := h.type f mem_cons_self
    rw [blockedAt]
    split
    next hlt =>
      split
      next hown =>
        split
        · exact blockedFrom_answer h
        · exact (ih _ h.tail).cons fun hb => absurd (hb.other.symm.trans hown) nofun
      next hown =>
        split
        next hb =>
          simp only [Bool.and_eq_true, decide_eq_true_eq] at hb
          exact .here ⟨Bool.not_eq_true _ ▸ hown, by omega, hb.1, (conflict_iff htype).mp hb.2⟩
        next hb =>
          refine (ih _ h.tail).cons fun hblk => hb ?_
          simp only [Bool.and_eq_true, decide_eq_true_eq]
          exact ⟨hblk.stop, (conflict_iff htype).mpr hblk.write⟩
    next => exact blockedFrom_answer h

end find

/-! ## Where the update starts -/

section start

variable {u : Owner} {ld : Flock} {flp : Filock} {lst before behind rest : List Filock} {p q : ℕ} {k : Krnl} {s : ℤ}

/-- A lock that starts before the request, with no lock before it that starts later -/
structure Fit (lst : List Filock) (s : ℤ) (p : ℕ) : Prop where
  pos : 1 ≤ p
  le : p ≤ lst.length
  starts : ∀ f ∈ lst.take p, f.set.l_start < s

theorem Fit.place (h : Fit lst ld.l_start p) :
    place p ld lst = (lst.takeWhile fun f => f.set.l_start < ld.l_start).length := by
  have hpos := h.pos
  have hle := h.le
  obtain ⟨f, hf⟩ : ∃ f, lst.drop (p - 1) = f :: lst.drop p := by
    refine ⟨lst[p - 1], ?_⟩
    rw [drop_eq_getElem_cons (by omega), Nat.sub_add_cancel hpos]
  have htake : lst.take p = lst.take (p - 1) ++ [f] := by
    have hsplit : lst.take (p - 1) ++ lst.drop (p - 1) = lst.take p ++ lst.drop p := by
      rw [take_append_drop, take_append_drop]
    rw [hf, append_cons] at hsplit
    exact (append_cancel_right hsplit).symm
  have hfirst : ∀ g ∈ lst.take (p - 1), (decide (g.set.l_start < ld.l_start)) = true := fun g hg =>
    decide_eq_true (h.starts g (by rw [htake]; exact mem_append_left _ hg))
  have hf' : f.set.l_start < ld.l_start := h.starts f (by rw [htake]; simp)
  have hlen : (lst.take (p - 1)).length = p - 1 := by
    rw [length_take]
    omega
  have hsplit : (lst.takeWhile fun f => f.set.l_start < ld.l_start) =
      lst.take (p - 1) ++ (lst.drop (p - 1)).takeWhile fun f => f.set.l_start < ld.l_start := by
    conv_lhs => rw [← take_append_drop (p - 1) lst]
    exact takeWhile_append_of_pos hfirst
  rw [Rlock.place, if_neg (by omega), seek, hsplit, length_append, hlen, hf, takeWhile_cons,
    if_pos (decide_eq_true hf'), length_cons]
  omega

/-- Two scans that differ in the pointer at most -/
structure Alike (a b : Scanned) : Prop where
  lst : a.lst = b.lst
  ld : a.ld = b.ld
  k : a.k = b.k
  go : a.go = b.go
  insrtp : a.insrtp = b.insrtp ∨ Fit a.lst a.ld.l_start a.insrtp ∧ Fit a.lst a.ld.l_start b.insrtp

theorem Alike.enter {a b : Scanned} (h : Alike a b) : a.enter u = b.enter u := by
  have hplace : place a.insrtp a.ld a.lst = place b.insrtp a.ld a.lst := by
    rcases h.insrtp with heq | ⟨ha, hb⟩
    · rw [heq]
    · rw [ha.place, hb.place]
  rw [Scanned.enter, Scanned.enter, ← h.lst, ← h.ld, ← h.k, hplace]

def Turn.at (t : Turn) (q : ℕ) : Turn := { t with insrtp := q }

theorem piece_at (u : Owner) (flp : Filock) (t : Turn) (q : ℕ) : (t.at q).piece u flp = (t.piece u flp).at q := by
  obtain ⟨stay, behind, p, ld, k, go⟩ := t
  obtain ⟨free, c1, c2, c3, w⟩ := k
  cases free <;> rfl

/-- A turn with another pointer sets the pointer too, or keeps it with all locks up to it. -/
def Moves (ld : Flock) (flp : Filock) (behind : List Filock) (p q : ℕ) (t t' : Turn) : Prop :=
  t' = t ∨ t' = t.at q ∧ t.insrtp = p ∧ t.ld.l_start = ld.l_start ∧
    (t.stay = [flp] ∧ t.behind = behind ∨ ld.l_start < flp.set.l_start)

theorem turn_moves (u : Owner) (flp : Filock) (behind : List Filock) (k : Krnl) (hle : ld.l_start ≤ ld.l_end)
    (pos p q : ℕ) :
    Moves ld flp behind p q (turn u pos p ld k flp behind) (turn u pos q ld k flp behind) := by
  have hreg := regflck_spec (f := flp.set) hle
  have hpiece := piece_at u flp ⟨[flp], behind, p, ld, k, .next⟩ q
  change Turn.piece u ⟨[flp], behind, q, ld, k, .next⟩ flp = _ at hpiece
  have hins : (Turn.piece u ⟨[flp], behind, p, ld, k, .next⟩ flp).insrtp = p := by
    rw [Turn.piece]
    split <;> rfl
  have hld : (Turn.piece u ⟨[flp], behind, p, ld, k, .next⟩ flp).ld = ld := by
    rw [Turn.piece]
    split <;> rfl
  have hsame : (Turn.piece u ⟨[flp], behind, p, ld, k, .next⟩ flp).go = .enolck →
      (Turn.piece u ⟨[flp], behind, p, ld, k, .next⟩ flp).stay = [flp] ∧
        (Turn.piece u ⟨[flp], behind, p, ld, k, .next⟩ flp).behind = behind := fun hgo =>
    ⟨(piece_enolck hgo).1, (piece_enolck hgo).2.1⟩
  unfold turn
  generalize regflck ld flp.set = r at hreg
  by_cases htype : ld.l_type = flp.set.l_type
  · cases hreg with
    | before_before h1 => exact .inr ⟨rfl, rfl, rfl, .inl ⟨rfl, rfl⟩⟩
    | before_start h1 =>
      simp only [if_pos htype]
      exact .inr ⟨rfl, rfl, rfl, .inr (by omega)⟩
    | before_middle h1 h2 h3 =>
      simp only [if_pos htype]
      exact .inr ⟨rfl, rfl, rfl, .inr h1⟩
    | before_end h1 h2 => exact .inr ⟨rfl, rfl, rfl, .inr h1⟩
    | before_after h1 h2 => exact .inr ⟨rfl, rfl, rfl, .inr h1⟩
    | start_middle h1 h2 =>
      simp only [if_pos htype]
      exact .inl rfl
    | start_end h1 h2 =>
      simp only [if_pos htype]
      exact .inr ⟨rfl, rfl, rfl, .inl ⟨rfl, rfl⟩⟩
    | start_after h1 h2 => exact .inl rfl
    | middle_middle h1 h2 =>
      simp only [if_pos htype]
      exact .inr ⟨rfl, rfl, rfl, .inl ⟨rfl, rfl⟩⟩
    | middle_end h1 h2 =>
      simp only [if_pos htype]
      exact .inr ⟨rfl, rfl, rfl, .inl ⟨rfl, rfl⟩⟩
    | middle_after h1 h2 h3 =>
      simp only [if_pos htype]
      exact .inl rfl
    | end_after h1 h2 =>
      simp only [if_pos htype]
      exact .inl rfl
    | after_after h1 h2 => exact .inl rfl
  · cases hreg with
    | before_before h1 => exact .inr ⟨rfl, rfl, rfl, .inl ⟨rfl, rfl⟩⟩
    | before_start h1 =>
      simp only [if_neg htype]
      exact .inr ⟨rfl, rfl, rfl, .inl ⟨rfl, rfl⟩⟩
    | before_middle h1 h2 h3 =>
      simp only [if_neg htype]
      rw [hpiece]
      generalize Turn.piece u ⟨[flp], behind, p, ld, k, .next⟩ flp = t at *
      have hgo' : (t.at q).go = t.go := rfl
      rw [hgo']
      cases hgo : t.go <;> exact .inr ⟨rfl, hins, congrArg Flock.l_start hld, .inr h1⟩
    | before_end h1 h2 => exact .inr ⟨rfl, rfl, rfl, .inr h1⟩
    | before_after h1 h2 => exact .inr ⟨rfl, rfl, rfl, .inr h1⟩
    | start_middle h1 h2 =>
      simp only [if_neg htype]
      exact .inl rfl
    | start_end h1 h2 =>
      simp only [if_neg htype]
      exact .inl rfl
    | start_after h1 h2 => exact .inl rfl
    | middle_middle h1 h2 =>
      simp only [if_neg htype]
      rw [hpiece]
      generalize Turn.piece u ⟨[flp], behind, p, ld, k, .next⟩ flp = t at *
      have hgo' : (t.at q).go = t.go := rfl
      rw [hgo']
      cases hgo : t.go with
      | enolck => exact .inr ⟨rfl, hins, congrArg Flock.l_start hld, .inl (hsame hgo)⟩
      | next => exact .inl rfl
      | stop => exact .inl rfl
      | ret => exact .inl rfl
    | middle_end h1 h2 =>
      simp only [if_neg htype]
      exact .inl rfl
    | middle_after h1 h2 h3 =>
      simp only [if_neg htype]
      exact .inl rfl
    | end_after h1 h2 =>
      simp only [if_neg htype]
      exact .inr ⟨rfl, rfl, rfl, .inl ⟨rfl, rfl⟩⟩
    | after_after h1 h2 => exact .inl rfl

/-- The loop goes on with the locks behind and with a proper request. -/
theorem turn_end (hle : ld.l_start ≤ ld.l_end) (pos p : ℕ) (hgo : (turn u pos p ld k flp behind).go = .next) :
    (turn u pos p ld k flp behind).ld.l_start ≤ (turn u pos p ld k flp behind).ld.l_end ∧
      (turn u pos p ld k flp behind).behind = behind := by
  have hreg := regflck_spec (f := flp.set) hle
  have hpiece (r : ℕ) : (Turn.piece u ⟨[flp], behind, r, ld, k, .next⟩ flp).go ≠ .next := by
    rw [Turn.piece]
    split <;> exact nofun
  unfold turn at hgo ⊢
  generalize regflck ld flp.set = r at *
  by_cases htype : ld.l_type = flp.set.l_type
  · simp only [if_pos htype] at hgo ⊢
    cases hreg with
    | middle_after h1 h2 h3 => exact ⟨by dsimp only; omega, rfl⟩
    | end_after h1 h2 => exact ⟨by dsimp only; omega, rfl⟩
    | before_after h1 h2 => exact ⟨hle, rfl⟩
    | start_after h1 h2 => exact ⟨hle, rfl⟩
    | after_after h1 h2 => exact ⟨hle, rfl⟩
    | _ => cases hgo
  · simp only [if_neg htype] at hgo ⊢
    cases hreg with
    | before_before h1 => cases hgo
    | before_start h1 => cases hgo
    | before_middle h1 h2 h3 =>
      dsimp only at hgo
      split at hgo
      · exact absurd hgo (hpiece _)
      · exact absurd hgo (hpiece _)
    | start_middle h1 h2 =>
      dsimp only at hgo
      split at hgo
      · exact absurd hgo (hpiece _)
      · exact absurd hgo (hpiece _)
    | middle_middle h1 h2 =>
      dsimp only at hgo
      split at hgo
      · exact absurd hgo (hpiece _)
      · exact absurd hgo (hpiece _)
    | _ => exact ⟨hle, rfl⟩

theorem Fit.front {xs ys zs : List Filock} (h : Fit (xs ++ ys) s p) (hp : p ≤ xs.length) : Fit (xs ++ zs) s p := by
  refine ⟨h.pos, ?_, ?_⟩
  · rw [length_append]
    omega
  · have hstarts := h.starts
    rw [take_append_of_le_length hp] at hstarts ⊢
    exact hstarts

/-- A lock that starts behind the start of the request is not before the pointer. -/
theorem Fit.ahead (h : Fit (before ++ flp :: behind) s p) (hp : p ≤ before.length + 1) (hlt : s < flp.set.l_start) :
    p ≤ before.length := by
  by_contra hno
  have hmem : flp ∈ (before ++ flp :: behind).take p := by
    obtain rfl : p = before.length + 1 := by omega
    have hlen : before.length + 1 = (before ++ [flp]).length := by simp
    rw [append_cons, hlen, take_left]
    simp
  have hstart := h.starts flp hmem
  omega

theorem scan_alike (hle : ld.l_start ≤ ld.l_end) (hp : Fit (before ++ rest) ld.l_start p)
    (hp' : p ≤ before.length + 1) (hq : Fit (before ++ rest) ld.l_start q) (hq' : q ≤ before.length + 1) :
    Alike (scan u before p ld k rest) (scan u before q ld k rest) := by
  induction rest generalizing before p q ld k with
  | nil =>
    rw [append_nil] at hp hq
    exact ⟨rfl, rfl, rfl, rfl, .inr ⟨hp, hq⟩⟩
  | cons flp behind ih =>
    rw [scan, scan]
    by_cases hown : flp.own u = true
    · rw [if_pos hown, if_pos hown]
      have hmoves := turn_moves u flp behind k hle before.length p q
      have hend := fun hgo : (turn u before.length p ld k flp behind).go = .next => turn_end hle before.length p hgo
      generalize turn u before.length p ld k flp behind = t at *
      generalize turn u before.length q ld k flp behind = t' at *
      rcases hmoves with rfl | ⟨rfl, hins, hstart, hlist⟩
      · cases t'.go <;> exact ⟨rfl, rfl, rfl, rfl, .inl rfl⟩
      · have hfit (r : ℕ) (hr : Fit (before ++ flp :: behind) ld.l_start r) (hr' : r ≤ before.length + 1) :
            Fit (before ++ t.stay ++ t.behind) t.ld.l_start r ∧ r ≤ (before ++ t.stay).length + 1 ∧
              (t.behind = behind → Fit (before ++ t.stay ++ behind) t.ld.l_start r) := by
          rw [hstart]
          rcases hlist with ⟨hstay, hbeh⟩ | hlt
          · rw [hstay, hbeh, ← append_cons]
            refine ⟨hr, ?_, fun _ => hr⟩
            rw [length_append]
            omega
          · have hbef := hr.ahead hr' hlt
            refine ⟨?_, ?_, fun _ => ?_⟩
            · rw [append_assoc]
              exact hr.front hbef
            · rw [length_append]
              omega
            · rw [append_assoc]
              exact hr.front hbef
        obtain ⟨h1, h2, h3⟩ := hfit p hp hp'
        obtain ⟨h4, h5, h6⟩ := hfit q hq hq'
        have hgo' : (t.at q).go = t.go := rfl
        cases hgo : t.go with
        | next =>
          have hbeh := hend hgo
          dsimp only [Turn.at]
          rw [hgo, hins]
          exact ih hbeh.1 (h3 hbeh.2) h2 (h6 hbeh.2) h5
        | stop =>
          dsimp only [Turn.at]
          rw [hgo]
          exact ⟨rfl, rfl, rfl, rfl, .inr ⟨by dsimp only; rw [hins]; exact h1, h4⟩⟩
        | ret =>
          dsimp only [Turn.at]
          rw [hgo]
          exact ⟨rfl, rfl, rfl, rfl, .inr ⟨by dsimp only; rw [hins]; exact h1, h4⟩⟩
        | enolck =>
          dsimp only [Turn.at]
          rw [hgo]
          exact ⟨rfl, rfl, rfl, rfl, .inr ⟨by dsimp only; rw [hins]; exact h1, h4⟩⟩
    · rw [if_neg hown, if_neg hown]
      rw [append_cons] at hp hq
      exact ih hle hp (by rw [length_append]; omega) hq (by rw [length_append]; omega)

/-- Locks of the process that end before the request and do not adjoin it only move the pointer. -/
theorem scan_skip (before xs rest : List Filock) (hp : 1 ≤ p) (hp' : p ≤ before.length + 1)
    (hxs : ∀ f ∈ xs, f.own u = true → f.set.l_start ≤ f.set.l_end ∧ f.set.l_end + 1 < ld.l_start) :
    ∃ p', scan u before p ld k (xs ++ rest) = scan u (before ++ xs) p' ld k rest ∧ 1 ≤ p' ∧
      p' ≤ (before ++ xs).length + 1 := by
  induction xs generalizing before p with
  | nil =>
    rw [nil_append, append_nil]
    exact ⟨p, rfl, hp, hp'⟩
  | cons flp xs ih =>
    have hxs' := fun f hf => hxs f (mem_cons_of_mem flp hf)
    rw [cons_append, scan, append_cons before flp xs]
    by_cases hown : flp.own u = true
    · obtain ⟨h1, h2⟩ := hxs flp mem_cons_self hown
      have hr : regflck ld flp.set = (.S_AFTER, .E_AFTER) := by
        rw [regflck, if_pos (by omega), if_neg (by omega), if_pos (by omega)]
      have ht : turn u before.length p ld k flp (xs ++ rest) =
          ⟨[flp], xs ++ rest, before.length + 1, ld, k, .next⟩ := by
        unfold turn
        rw [hr]
      rw [if_pos hown, ht]
      exact ih (before ++ [flp]) (Nat.succ_pos _) (by simp) hxs'
    · rw [if_neg hown]
      exact ih (before ++ [flp]) hp (by rw [length_append]; omega) hxs'

/-- What `blocked` answers -/
structure Exact (u : Owner) (lst : List Filock) (ld : Flock) (found : Option Filock) (insrt : ℕ) : Prop where
  sound : ∀ f, found = some f → f ∈ lst ∧ Blocks u ld f
  complete : ∀ f ∈ lst, Blocks u ld f → found ≠ none
  before : found = none → ∀ f ∈ lst.take (insrt - 1), f.own u = true → f.set.l_end + 1 < ld.l_start
  start : found = none → ∀ p, 1 ≤ p → p ≤ insrt → ∀ k, flckadj u lst p ld k = flckadj u lst insrt ld k
  null : insrt = 0 → ∀ f ∈ lst, ld.l_start ≤ f.set.l_start

/-- `blocked` finds a lock in the way of the request if there is one; if there is none, `flckadj` may start at
`insrt` or at any lock before it. -/
theorem blocked_exact (h : Locks lst) (hle : ld.l_start ≤ ld.l_end) :
    Exact u lst ld (blocked u lst ld).1 (blocked u lst ld).2 := by
  have hans := blockedAt_answer u 0 h hle
  obtain ⟨j, hj, hins, hstarts, hends, hnull⟩ := blockedAt_spec u ld h.sorted 0
  rw [Nat.zero_add] at hins
  have heq : (blocked u lst ld).2 = j := hins
  rw [heq]
  refine ⟨hans.found, fun f hf hb hnone => hans.none hnone f hf hb, fun _ => hends, fun _ p hp hpj k => ?_, hnull⟩
  have hsplit : lst.drop (p - 1) = (lst.take (j - 1)).drop (p - 1) ++ lst.drop (j - 1) := by
    conv_lhs => rw [← take_append_drop (j - 1) lst]
    rw [drop_append_of_le_length (by rw [length_take]; omega)]
  have htake : lst.take (p - 1) ++ (lst.take (j - 1)).drop (p - 1) = lst.take (j - 1) := by
    have hfirst : lst.take (p - 1) = (lst.take (j - 1)).take (p - 1) := by
      rw [take_take, Nat.min_eq_left (by omega)]
    rw [hfirst, take_append_drop]
  have hlen : (lst.take (j - 1)).length = j - 1 := by
    rw [length_take]
    omega
  obtain ⟨p', hscan, hp1, hp2⟩ := scan_skip (u := u) (k := k) (lst.take (p - 1))
    ((lst.take (j - 1)).drop (p - 1)) (lst.drop (j - 1)) hp (by rw [length_take]; omega) fun f hf hown =>
      ⟨h.le f (mem_of_mem_take (mem_of_mem_drop hf)), hends f (mem_of_mem_drop hf) hown⟩
  rw [htake] at hscan hp2
  have hfit (r : ℕ) (hr1 : 1 ≤ r) (hr2 : r ≤ j) : Fit (lst.take (j - 1) ++ lst.drop (j - 1)) ld.l_start r := by
    rw [take_append_drop]
    refine ⟨hr1, by omega, fun f hf => hstarts f ?_⟩
    have hsub : lst.take r = (lst.take j).take r := by rw [take_take, Nat.min_eq_left hr2]
    rw [hsub] at hf
    exact mem_of_mem_take hf
  have halike := scan_alike (u := u) (k := k) hle (hfit p' hp1 (by omega)) (by omega) (hfit j (by omega) (Nat.le_refl _))
    (by omega)
  rw [flckadj, flckadj, hsplit, hscan, halike.enter, halike.go, halike.lst, halike.ld, halike.k]

/-- Two processes hold overlapping locks, and a third one asks for a lock behind the first. -/
theorem blocked_exact_two :
    Exact ⟨1, 0⟩ [⟨8, ⟨.F_RDLCK, 0, 0, 9, 2, 0⟩, .zero⟩, ⟨16, ⟨.F_WRLCK, 0, 7, 8, 3, 0⟩, .zero⟩]
      ⟨.F_RDLCK, 0, 5, 7, 0, 0⟩
      (blocked ⟨1, 0⟩ [⟨8, ⟨.F_RDLCK, 0, 0, 9, 2, 0⟩, .zero⟩, ⟨16, ⟨.F_WRLCK, 0, 7, 8, 3, 0⟩, .zero⟩]
        ⟨.F_RDLCK, 0, 5, 7, 0, 0⟩).1
      (blocked ⟨1, 0⟩ [⟨8, ⟨.F_RDLCK, 0, 0, 9, 2, 0⟩, .zero⟩, ⟨16, ⟨.F_WRLCK, 0, 7, 8, 3, 0⟩, .zero⟩]
        ⟨.F_RDLCK, 0, 5, 7, 0, 0⟩).2 := by
  refine blocked_exact ⟨by simp, by simp [Filock.sameOwner], ?_, ?_⟩ (by decide) <;> intro f hf <;>
    simp only [mem_cons, not_mem_nil, or_false] at hf
  · rcases hf with rfl | rfl <;> decide
  · rcases hf with rfl | rfl
    · exact .inl rfl
    · exact .inr rfl

end start

end Svr3.Rlock
