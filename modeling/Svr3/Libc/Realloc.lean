import Svr3.Libc.MallocRun

/-!
# What `realloc` keeps

The block is given back before the new one is found, so that the header of what is left of a merged block
may come into its words. `allocx` has the word that was there.
-/

namespace Svr3.Libc

open Function

/-- The words of the block at `p`, up to the size `n`, are at `q` afterwards. -/
def Copied (s : Sys) (p n : ℕ) (s' : Sys) (q : ℕ) : Prop :=
  ∀ i, p + word * i < s.ptr (p - word) → word * i < n →
    s'.mem (q + word * i) = s.mem (p + word * i)

/-- A copy in increasing order is right where it goes down, or where it does not overlap. -/
theorem memcpy_mem {q p n i : ℕ} {s : Sys} (h : q ≤ p ∨ p + word * n ≤ q) (hi : i < n) :
    (memcpy q p n s).mem (q + word * i) = s.mem (p + word * i) := by
  induction n with
  | zero => exact absurd hi (Nat.not_lt_zero i)
  | succ n ih =>
    rw [word] at h
    obtain ⟨m, hm, hsame⟩ := memcpy_eq q p n s
    rw [word] at hsame
    rw [memcpy_succ, mem_set]
    rcases Nat.lt_succ_iff_lt_or_eq.mp hi with hlt | rfl
    · rw [update_of_ne (by rw [word]; omega)]
      exact ih (by rw [word]; omega) hlt
    · -- the word at `p` is not copied over yet
      rw [update_self, hm]
      exact hsame _ (by rw [word]; omega)

theorem take_mem {nw p q x : ℕ} {s : Sys} (hxp : x ≠ p) (hxa : x ≠ p + word * nw) :
    (take nw p q s).2.mem x = s.mem x := by
  rw [take]
  dsimp only
  rw [mem_set, update_of_ne hxp]
  split
  · exact update_of_ne hxa _ _
  · rfl

/-- `allocx` is the word where the header comes. -/
theorem take_allocx {nw p q : ℕ} {s : Sys} (h : p + word * nw < q) :
    (take nw p q s).2.allocx = s.mem (p + word * nw) := by
  rw [take]
  dsimp only
  rw [if_pos h]
  rfl

/-- What a `malloc` that gives the block at `a` leaves of the words from `b` to `e` -/
structure Saved (nw a b e : ℕ) (s s' : Sys) : Prop where
  aligned : a % word = 0
  apart : a ≤ b ∨ e ≤ a
  mem : ∀ x, b < x → x < e → x ≠ a + word * nw → s'.mem x = s.mem x
  allocx : b < a + word * nw → a + word * nw < e → s'.allocx = s.mem (a + word * nw)

/-- The words of an idle block stay, and `allocx` has the one where the header comes. -/
theorem Reaches.saved {nw b q : ℕ} {s s' s1 : Sys} {bs bs1 : List ℕ} (h : Arena s bs) (hb : b ∈ bs)
    (hr : Reaches nw s bs (some q) s' s1 bs1) :
    ∃ a, q = a + word ∧ Saved nw a b (s.ptr b) s s' := by
  rcases hr.ends with ⟨hnone, -⟩ | ⟨a, e, ⟨ha, -, hptr, hfit⟩, hq, rfl⟩
  · exact absurd hnone nofun
  · have htop := h.le_top (h.ptr_mem hb)
    -- no header is inside of the block, before or after
    have hout {x : ℕ} (hx : x ∈ bs1 ++ [s1.alloct]) : x ≤ b ∨ s.ptr b ≤ x := by
      rcases hr.quiet.heads x hx with hin | hlt
      · exact h.not_inside hb hin
      · exact .inr (by omega)
    have hsame {x : ℕ} (hbx : b < x) (hxe : x < s.ptr b) : s1.mem x = s.mem x := by
      refine hr.quiet.mem x (by omega) fun hin => ?_
      rcases h.not_inside hb (List.mem_append_left _ hin) with hle | hle
      · omega
      · omega
    have hapart := hout (List.mem_append_left _ ha)
    have hend : e ≤ b ∨ s.ptr b ≤ e := hptr ▸ hout (hr.arena.ptr_mem ha)
    refine ⟨a, Option.some.inj hq, hr.arena.aligned a (List.mem_append_left _ ha), hapart,
      fun x hbx hxe hx => ?_, fun hba hae => ?_⟩
    · rw [take_mem (by omega) hx]
      exact hsame hbx hxe
    · rw [take_allocx (by omega)]
      exact hsame hba hae

/-- A block that is given back keeps its words. -/
theorem free_mem {b x : ℕ} {s : Sys} (hx : x ≠ b) : (free (b + word) s).mem x = s.mem x :=
  update_of_ne hx _ _

theorem free_ptr (b : ℕ) (s : Sys) : (free (b + word) s).ptr b = s.ptr b := by
  change ((s.set b ⟨s.ptr b, false⟩).mem b).ptr = s.ptr b
  rw [mem_set, update_self]

/-- The copy with the patch of the word that the header took -/
theorem Saved.copied {a b e nw : ℕ} {s s1 : Sys} (h : Saved (nw + 1) a b e s s1)
    (hb : b % word = 0) (he : e % word = 0) {k : ℕ} (hk : k ≤ nw) (hke : b + word + word * k ≤ e)
    {i : ℕ} (hi : i < k) :
    (if a + word < b + word ∧ b + word ≤ a + word + word * nw then
      (memcpy (a + word) (b + word) k s1).set
        (a + word + (a + word + word * nw - (b + word))) s1.allocx
     else memcpy (a + word) (b + word) k s1).mem (a + word + word * i) =
      s.mem (b + word + word * i) := by
  obtain ⟨halign, hapart, hmem, hallocx⟩ := h
  rw [word] at *
  have hcopy : (memcpy (a + 4) (b + 4) k s1).mem (a + 4 + 4 * i) = s1.mem (b + 4 + 4 * i) := by
    apply memcpy_mem _ hi
    rw [word]
    omega
  split
  next hover =>
    rw [mem_set]
    by_cases hcut : b + 4 + 4 * i = a + 4 * (nw + 1)
    · -- the header came into this word
      have hat : a + 4 + 4 * i = a + 4 + (a + 4 + 4 * nw - (b + 4)) := by omega
      rw [hat, update_self, hallocx (by omega) (by omega), hcut]
    · rw [update_of_ne (by omega), hcopy]
      exact hmem _ (by omega) (by omega) hcut
  next hover =>
    rw [hcopy]
    exact hmem _ (by omega) (by omega) (by omega)

/-- `realloc` of a busy block in an arena -/
theorem Arena.realloc_copied {s s' : Sys} {bs : List ℕ} {b fuel n q : ℕ} {env : List Brk}
    (h : Arena s bs) (hb : b ∈ bs) (hbusy : s.busy b = true) (hbase : b ≠ s.allocs)
    (hn : n + 7 < 2 ^ 32)
    (hreal : ∀ g ∈ calls fuel env n (free (b + word) s), Real (nwords n) g.brk g.sys)
    (hfit : ∀ g ∈ calls fuel env n (free (b + word) s), Fits (nwords n) g.brk g.incr g.sys)
    (hr : realloc fuel env (b + word) n s = some (some q, s')) : Copied s (b + word) n s' q := by
  have hnw : (n + word - 1) % 2 ^ 32 / word = (n + 3) / 4 := by
    rw [word, Nat.mod_eq_of_lt (by omega)]
    rfl
  have hwords : nwords n = (n + 3) / 4 + 1 := by
    rw [nwords_eq hn]
    omega
  have h0 := h.free_spec hb hbase
  have hstart := start_arena h0
  have halb := h.aligned b (List.mem_append_left _ hb)
  have hale := h.aligned _ (h.ptr_mem hb)
  have hlt := h.lt_ptr hb
  rw [realloc, Nat.add_sub_cancel, if_pos hbusy] at hr
  dsimp only at hr
  rw [free_ptr, hnw] at hr
  cases hm : malloc fuel env n (free (b + word) s) with
  | none =>
    rw [hm] at hr
    cases hr
  | some y =>
    obtain ⟨r, s1⟩ := y
    rw [hm] at hr
    cases r with
    | none => exact absurd (Prod.mk.inj (Option.some.inj hr)).1 (by rintro ⟨⟩)
    | some q0 =>
      obtain ⟨s2, bs2, hreach⟩ := malloc_reaches (hstart.symm ▸ h0) hn hreal hfit hm
      rw [hstart, hwords] at hreach
      obtain ⟨a, rfl, hsaved⟩ := hreach.saved h0 hb
      rw [free_ptr] at hsaved
      intro i hie hin
      rw [Nat.add_sub_cancel] at hie
      have hword : s'.mem (q + word * i) = (free (b + word) s).mem (b + word + word * i) := by
        dsimp only at hr
        split at hr
        next heq =>
          -- the block is used again where it is
          obtain ⟨hq, rfl⟩ := Prod.mk.inj (Option.some.inj hr)
          rw [← Option.some.inj hq, heq]
          apply hsaved.mem
          · rw [word]
            omega
          · exact hie
          · rw [word] at *
            omega
        next hne =>
          have hroom : b + word + word * min ((n + 3) / 4) ((s.ptr b - (b + word)) / word) ≤
              s.ptr b := by
            rw [word] at *
            omega
          have hi : i < min ((n + 3) / 4) ((s.ptr b - (b + word)) / word) := by
            rw [word] at *
            omega
          rw [← hsaved.copied halb hale (Nat.min_le_left _ _) hroom hi]
          have hallocx : (memcpy (a + word) (b + word)
              (min ((n + 3) / 4) ((s.ptr b - (b + word)) / word)) s1).allocx = s1.allocx := by
            obtain ⟨m, hmem, -⟩ := memcpy_eq (a + word) (b + word)
              (min ((n + 3) / 4) ((s.ptr b - (b + word)) / word)) s1
            rw [hmem]
          split at hr
          next hover =>
            obtain ⟨hq, rfl⟩ := Prod.mk.inj (Option.some.inj hr)
            rw [if_pos hover, hallocx, Option.some.inj hq]
          next hover =>
            obtain ⟨hq, rfl⟩ := Prod.mk.inj (Option.some.inj hr)
            rw [if_neg hover, Option.some.inj hq]
      rw [hword]
      exact free_mem (by rw [word]; omega)

/-- In a run where no size wraps around and no growth subtracts an old `incr`, `realloc` keeps what is in
the block. -/
theorem realloc_keeps {s : Sys} (h : Clear s) {as : List Act} {t t' : Hist}
    (hrun : Run (fun t a t' => Step t a t' ∧ Sane t a) ⟨s, fun _ => none⟩ as t)
    {fuel : ℕ} {env : List Brk} {p n q : ℕ} {s' : Sys}
    (hstep : Step t (.realloc fuel env p n) t') (hsane : Sane t (.realloc fuel env p n))
    (hr : realloc fuel env p n t.sys = some (some q, s')) : Copied t.sys p n s' q := by
  have hinv := hrun.invariant (fun _ _ _ => inv_step) (.inl ⟨h, fun _ => rfl⟩)
  rw [Step, Hist.next] at hstep
  split at hstep
  next hok =>
    obtain ⟨bs, m, ha, hl, hm⟩ := hinv.arena hok.2.1
    obtain ⟨b, hb, rfl, hbusy, hbase, -⟩ := hl p m hm
    exact ha.realloc_copied hb hbusy hbase hsane.1 hok.2.2 hsane.2 hr
  next => cases hstep

/-- The block at 1020 has no room, and is merged with the idle block before it. -/
def squeezed : List Act :=
  [.malloc 10 [⟨1008, true, true⟩] 8, .malloc 10 [] 12, .malloc 10 [] 992, .store 1020 1 ⟨88, true⟩,
    .free 1008]

theorem realloc_keeps_squeezed : ∃ (t : Hist) (s' : Sys),
    realloc 10 [] 1020 16 t.sys = some (some 1008, s') ∧ s'.allocx.ptr = 88 ∧
      Copied t.sys 1020 16 s' 1008 := by
  have hrun : ((squeezed.foldlM (fun t a => if Sane t a then t.next a else none) clear).any fun t =>
      Sane t (.realloc 10 [] 1020 16) ∧ (t.next (.realloc 10 [] 1020 16)).isSome ∧
        (realloc 10 [] 1020 16 t.sys).any fun r => r.1 = some 1008 ∧ r.2.allocx.ptr = 88) = true := by
    decide
  obtain ⟨t, ht, hend⟩ := Run.of_foldlM hrun
  have hsane : Run (fun t a t' => Step t a t' ∧ Sane t a) clear squeezed t := by
    apply ht.mono
    intro s a t hs
    split at hs
    next hl => exact ⟨hs, hl⟩
    next => exact absurd hs nofun
  obtain ⟨hlast, hnext, hret⟩ := of_decide_eq_true hend
  obtain ⟨t', ht'⟩ := Option.isSome_iff_exists.mp hnext
  obtain ⟨⟨r, s'⟩, hr, hq⟩ := Option.any_eq_true _ _ |>.mp hret
  obtain ⟨rfl, hx⟩ : r = some 1008 ∧ s'.allocx.ptr = 88 := of_decide_eq_true hq
  exact ⟨t, s', hr, hx, realloc_keeps clear_clear hsane ht' hlast hr⟩

/-- A size that wraps around to one word puts a header into the first word of the block. -/
theorem realloc_header : ¬ ∀ (s : Sys) (as : List Act) (t t' : Hist) (fuel : ℕ) (env : List Brk)
    (p n q : ℕ) (s' : Sys), Clear s → Run Step ⟨s, fun _ => none⟩ as t →
    Step t (.realloc fuel env p n) t' → realloc fuel env p n t.sys = some (some q, s') →
    Copied t.sys p n s' q := by
  intro hall
  have hrun : (([.malloc 10 [⟨1008, true, true⟩] 8, .store 1008 0 ⟨0, false⟩] : List Act).foldlM
      Hist.next clear).any (fun t => (t.next (.realloc 10 [] 1008 (2 ^ 32 - 3))).isSome ∧
        t.sys.ptr 1004 = 1016 ∧ t.sys.ptr 1008 = 0 ∧ (realloc 10 [] 1008 (2 ^ 32 - 3) t.sys).any fun r =>
          r.1 = some 1008 ∧ r.2.ptr 1008 ≠ 0) = true := by
    decide
  obtain ⟨t, ht, hend⟩ := Run.of_foldlM hrun
  obtain ⟨hnext, hroom, hold, hret⟩ := of_decide_eq_true hend
  obtain ⟨t', ht'⟩ := Option.isSome_iff_exists.mp hnext
  obtain ⟨⟨r, s'⟩, hr, hq⟩ := Option.any_eq_true _ _ |>.mp hret
  obtain ⟨rfl, hnew⟩ : r = some 1008 ∧ s'.ptr 1008 ≠ 0 := of_decide_eq_true hq
  have hcopied := hall clear.sys _ t t' 10 [] 1008 (2 ^ 32 - 3) 1008 s' clear_clear ht ht' hr
  have hroom' : 1008 + word * 0 < t.sys.ptr (1008 - word) := by
    change 1008 < t.sys.ptr 1004
    omega
  have hsame := congrArg Store.ptr (hcopied 0 hroom' (by decide))
  exact hnew (hsame.trans hold)

end Svr3.Libc
