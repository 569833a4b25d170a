import Svr3.Os.Reclock
import Svr3.Os.FlockAdj

/-!
# The lock structures

A lock structure is on the free list, in `sleeplcks` or in the list of one inode, and there once:
the routines of `os/flock.c` only move structures between these.
-/

namespace Svr3.Rlock

open Function

theorem WAKEUP_frlock (f : Filock) (k : Krnl) : (WAKEUP f k).2.frlock = k.frlock := by
  unfold WAKEUP
  split <;> rfl

theorem delflck_frlock (f : Filock) (k : Krnl) : (delflck f k).frlock = f.addr :: k.frlock := by
  unfold delflck
  rw [← WAKEUP_frlock f k]

section Addresses

variable {u : Owner} {k : Krnl} {flp : Filock}

def addrs (k : Krnl) (lst : List Filock) : List ℕ := k.frlock ++ lst.map Filock.addr

theorem insflck_addrs (lst : List Filock) (lckdat : Flock) (fl : ℕ) :
    (addrs (insflck u lst lckdat fl k).2.2 (insflck u lst lckdat fl k).2.1).Perm (addrs k lst) := by
  unfold insflck addrs
  cases k.frlock with
  | nil => exact List.Perm.refl _
  | cons a rest =>
    have hlst : (lst.map Filock.addr) =
        (lst.take fl).map Filock.addr ++ (lst.drop fl).map Filock.addr := by
      rw [← List.map_append, List.take_append_drop]
    rw [hlst]
    simp only [List.map_append, List.map_cons, newlck, List.perm_iff_count, List.count_append,
      List.count_cons]
    omega

/-- A turn of the loop leaves the structures it found, and goes on to the locks it found. -/
structure Turn.Conserves (k : Krnl) (flp : Filock) (behind : List Filock) (t : Turn) : Prop where
  perm : (addrs t.k (t.stay ++ t.behind)).Perm (addrs k (flp :: behind))
  next : t.go = .next → t.behind = behind

variable {behind : List Filock} {t : Turn}

theorem conserves_keep (p : ℕ) (ld : Flock) (go : Go) :
    Turn.Conserves k flp behind ⟨[flp], behind, p, ld, k, go⟩ :=
  ⟨List.Perm.refl _, fun _ => rfl⟩

theorem Turn.Conserves.del (h : t.Conserves k flp behind) (hstay : t.stay = [flp]) :
    (t.del flp).Conserves k flp behind := by
  refine ⟨List.Perm.trans ?_ h.perm, h.next⟩
  unfold Turn.del addrs
  rw [hstay, delflck_frlock]
  simp only [List.map_append, List.map_cons, List.map_nil, List.perm_iff_count, List.count_append,
    List.count_cons, List.count_nil]
  omega

theorem Turn.Conserves.cut (h : t.Conserves k flp behind) (hstay : t.stay = [flp]) (pos : ℕ) :
    (t.cut pos flp).Conserves k flp behind := by
  refine ⟨List.Perm.trans (List.Perm.of_eq ?_) h.perm, h.next⟩
  unfold Turn.cut addrs
  simp only [hstay, WAKEUP_frlock, List.singleton_append, List.map_cons, (WAKEUP_set _ _).2]

/-- The piece behind a request, set up before the lock is deleted or cut down. -/
theorem piece_conserves (hstay : t.stay = [flp]) (hbehind : t.behind = behind) (hk : t.k = k) :
    (t.piece u flp).stay = [flp] ∧ (t.piece u flp).go ≠ .next ∧
      (addrs (t.piece u flp).k ((t.piece u flp).stay ++ (t.piece u flp).behind)).Perm
        (addrs k (flp :: behind)) := by
  subst hbehind hk
  have hins := insflck_addrs (u := u) (k := t.k) (flp :: t.behind)
    { flp.set with l_start := t.ld.l_end + 1 } (seek (t.ld.l_end + 1) (flp :: t.behind))
  obtain ⟨m, hm⟩ : ∃ m, seek (t.ld.l_end + 1) (flp :: t.behind) = m + 1 :=
    ⟨_, (Nat.sub_add_cancel (seek_pos _ _)).symm⟩
  unfold Turn.piece
  simp only [hm] at hins ⊢
  unfold insflck at hins ⊢
  cases hfree : t.k.frlock with
  | nil => exact ⟨hstay, nofun, List.Perm.of_eq (by simp [addrs, hfree, hstay])⟩
  | cons a rest =>
    simp only [hfree, List.take_succ_cons, List.drop_succ_cons, List.cons_append, List.tail_cons]
      at hins ⊢
    refine ⟨hstay, nofun, ?_⟩
    rw [hstay]
    exact hins

theorem turn_conserves (u : Owner) (k : Krnl) (flp : Filock) (pos insrtp : ℕ) (ld : Flock) (behind : List Filock) :
    (turn u pos insrtp ld k flp behind).Conserves k flp behind := by
  have hpiece (p : ℕ) : (Turn.piece u ⟨[flp], behind, p, ld, k, .next⟩ flp).Conserves k flp behind ∧
      (Turn.piece u ⟨[flp], behind, p, ld, k, .next⟩ flp).stay = [flp] := by
    obtain ⟨h1, h2, h3⟩ := piece_conserves (u := u) (t := ⟨[flp], behind, p, ld, k, .next⟩) rfl rfl rfl
    exact ⟨⟨h3, fun hgo => absurd hgo h2⟩, h1⟩
  have hdel (p : ℕ) (ld : Flock) (go : Go) :
      Turn.Conserves k flp behind ⟨[], behind, p, ld, delflck flp k, go⟩ :=
    (conserves_keep p ld go).del rfl
  have hkeep : Turn.Conserves k flp behind ⟨[flp], behind, insrtp, ld, k, .next⟩ :=
    conserves_keep insrtp ld .next
  have hcut := hkeep.cut rfl pos
  unfold turn
  generalize regflck ld flp.set = r
  obtain ⟨sr, er⟩ := r
  by_cases hsame : ld.l_type = flp.set.l_type
  · cases sr <;> cases er <;> simp only [if_pos hsame] <;>
      first | exact conserves_keep _ _ _ | exact hdel _ _ _
  · cases sr <;> cases er <;> simp only [if_neg hsame]
    all_goals first | exact conserves_keep _ _ _ | exact hdel _ _ _ | exact hcut | skip
    -- the piece behind the request
    all_goals split
    · exact (hpiece _).1
    · exact (hpiece _).1.del (hpiece _).2
    · exact (hpiece _).1
    · exact (hpiece _).1.del (hpiece _).2
    · exact (hpiece _).1
    · exact (hpiece _).1.cut (hpiece _).2 pos

theorem scan_addrs (before rest : List Filock) (insrtp : ℕ) (ld : Flock) :
    (addrs (scan u before insrtp ld k rest).k (scan u before insrtp ld k rest).lst).Perm
      (addrs k (before ++ rest)) := by
  induction rest generalizing before insrtp ld k with
  | nil => exact List.Perm.of_eq (by simp [scan])
  | cons flp behind ih =>
    unfold scan
    split
    · obtain ⟨hperm, hnext⟩ :=
        turn_conserves u k flp before.length insrtp ld behind
      generalize turn u before.length insrtp ld k flp behind = t at hperm hnext ⊢
      -- the locks before `flp` stay where they are
      have hframe : (addrs t.k (before ++ (t.stay ++ t.behind))).Perm
          (addrs k (before ++ flp :: behind)) := by
        rw [List.perm_iff_count] at hperm ⊢
        intro a
        have := hperm a
        unfold addrs at this ⊢
        simp only [List.map_append, List.count_append] at this ⊢
        omega
      rw [← List.append_assoc] at hframe
      cases hgo : t.go <;> simp only [hgo]
      · rw [hnext hgo] at hframe
        exact (ih (before ++ t.stay) t.insrtp t.ld).trans hframe
      · exact hframe
      · exact hframe
      · exact hframe
    · refine (ih (before ++ [flp]) insrtp ld).trans (List.Perm.of_eq ?_)
      simp

theorem flckadj_addrs (lst : List Filock) (insrtp : ℕ) (ld : Flock) :
    (addrs (flckadj u lst insrtp ld k).k (flckadj u lst insrtp ld k).lst).Perm (addrs k lst) := by
  have hscan := scan_addrs (u := u) (k := k) (lst.take (insrtp - 1)) (lst.drop (insrtp - 1)) insrtp ld
  rw [List.take_append_drop] at hscan
  unfold flckadj
  generalize scan u (lst.take (insrtp - 1)) insrtp ld k (lst.drop (insrtp - 1)) = s at hscan ⊢
  have hins := insflck_addrs (u := u) (k := s.k) s.lst s.ld (place s.insrtp s.ld s.lst)
  have hnew : (addrs (s.enter u).k (s.enter u).lst).Perm (addrs k lst) := by
    unfold Scanned.enter
    split
    · exact hscan
    · generalize insflck u s.lst s.ld (place s.insrtp s.ld s.lst) s.k = r at hins ⊢
      obtain ⟨f, lst', k'⟩ := r
      cases f <;> exact hins.trans hscan
  cases hgo : s.go <;> simp only [hgo]
  · exact hnew
  · exact hnew
  · exact hscan
  · exact hscan

theorem cleanlocks_addrs (flag : CleanFlag) (lst : List Filock) (k : Krnl) :
    (addrs (cleanlocks u flag lst k).2 (cleanlocks u flag lst k).1).Perm (addrs k lst) := by
  induction lst generalizing k with
  | nil => exact List.Perm.refl _
  | cons f fs ih =>
    unfold cleanlocks
    split
    · refine (ih (delflck f k)).trans ?_
      unfold addrs
      rw [delflck_frlock]
      simp only [List.map_cons, List.perm_iff_count, List.count_append, List.count_cons]
      omega
    · have hfs := ih k
      rw [List.perm_iff_count] at hfs ⊢
      intro a
      have := hfs a
      unfold addrs at this ⊢
      simp only [List.map_cons, List.count_append, List.count_cons] at this ⊢
      omega

theorem wakeflgIncr_addr (found : ℕ) (lst : List Filock) :
    (wakeflgIncr found lst).map Filock.addr = lst.map Filock.addr := by
  unfold wakeflgIncr
  rw [List.map_map]
  apply List.map_congr_left
  intro f _
  simp only [Function.comp]
  split <;> rfl

end Addresses

/-- The structures on the free list, in `sleeplcks` and in the lists of the inodes. -/
structure Pool (free sleep : List ℕ) (locks : ℕ → List ℕ) : Prop where
  nodup : ∀ ip, (free ++ locks ip ++ sleep).Nodup
  apart : ∀ ip jp, ip ≠ jp → ∀ a ∈ locks ip, a ∉ locks jp

section Pool

variable {free sleep : List ℕ} {locks : ℕ → List ℕ}

/-- Structures change between the free list and the list of an inode. -/
theorem Pool.exchange (h : Pool free sleep locks) (ip : ℕ) {free' lst : List ℕ}
    (hp : (free' ++ lst).Perm (free ++ locks ip)) :
    Pool free' sleep (update locks ip lst) := by
  have hmem (a : ℕ) : a ∈ free' ∨ a ∈ lst ↔ a ∈ free ∨ a ∈ locks ip := by
    simpa using hp.mem_iff (a := a)
  constructor
  · intro jp
    by_cases hj : jp = ip
    · subst hj
      rw [update_self]
      exact (hp.append_right sleep).nodup_iff.mpr (h.nodup jp)
    · rw [update_of_ne hj]
      have hip := h.nodup ip
      have hjp := h.nodup jp
      have hnew := (hp.append_right sleep).nodup_iff.mpr hip
      have hdisj (a : ℕ) (ha : a ∈ free') : a ∉ locks jp := by
        rcases (hmem a).mp (.inl ha) with hf | hl
        · simp only [List.nodup_append, List.mem_append] at hjp
          exact fun hl => hjp.1.2.2 a hf a hl rfl
        · exact h.apart ip jp (Ne.symm hj) a hl
      simp only [List.nodup_append, List.mem_append] at hnew hjp ⊢
      refine ⟨⟨hnew.1.1, hjp.1.2.1, fun a ha b hb hab => hdisj a ha (hab ▸ hb)⟩, hjp.2.1, ?_⟩
      rintro a (ha | ha) b hb
      · exact hnew.2.2 a (.inl ha) b hb
      · exact hjp.2.2 a (.inr ha) b hb
  · have hnew (jp : ℕ) (hj : jp ≠ ip) (a : ℕ) (ha : a ∈ lst) : a ∉ locks jp := by
      rcases (hmem a).mp (.inr ha) with hf | hl
      · have hjp := h.nodup jp
        simp only [List.nodup_append, List.mem_append] at hjp
        exact fun hl => hjp.1.2.2 a hf a hl rfl
      · exact h.apart ip jp (Ne.symm hj) a hl
    intro jp kp hne a
    by_cases hj : jp = ip
    · subst hj
      rw [update_self, update_of_ne (Ne.symm hne)]
      exact hnew kp (Ne.symm hne) a
    · rw [update_of_ne hj]
      by_cases hk : kp = ip
      · subst hk
        rw [update_self]
        exact fun ha hl => hnew jp hj a hl ha
      · rw [update_of_ne hk]
        exact h.apart jp kp hne a

/-- A structure of the free list becomes an entry of `sleeplcks`. -/
theorem Pool.take {a : ℕ} (h : Pool (a :: free) sleep locks) : Pool free (a :: sleep) locks := by
  refine ⟨fun ip => ?_, h.apart⟩
  have hperm : (free ++ locks ip ++ a :: sleep).Perm (a :: free ++ locks ip ++ sleep) :=
    List.perm_middle
  exact hperm.nodup_iff.mpr (h.nodup ip)

theorem Pool.give {a : ℕ} (h : Pool free sleep locks) (ha : a ∈ sleep) :
    Pool (a :: free) (sleep.filter fun b => b ≠ a) locks := by
  refine ⟨fun ip => ?_, h.apart⟩
  have hnd := h.nodup ip
  have hsleep : sleep.Nodup := (List.nodup_append.mp hnd).2.1
  have hperm : (a :: free ++ locks ip ++ sleep.filter fun b => b ≠ a).Perm
      (free ++ locks ip ++ sleep) := by
    have hsplit : (a :: sleep.filter fun b => b ≠ a).Perm sleep := by
      have hf : (sleep.filter fun b => b ≠ a) = sleep.erase a := by
        rw [hsleep.erase_eq_filter]
        exact List.filter_congr fun b _ => by simp [bne, beq_eq_decide]
      rw [hf]
      exact (List.perm_cons_erase ha).symm
    exact List.perm_middle.symm.trans (hsplit.append_left (free ++ locks ip))
  exact hperm.nodup_iff.mpr hnd

end Pool

end Svr3.Rlock
