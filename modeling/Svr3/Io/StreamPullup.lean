import Svr3.Io.StreamRefs
import Mathlib.Algebra.Ring.Int.Defs

/-!
# Pulling up a message

`pullupmsg` copies the front of a message to a block of its own, frees the blocks that this empties
and interchanges headers, so that the message keeps its first block. Where it is asked for nothing
and the first block is empty, it would link this block behind itself.
-/

namespace Svr3.Str

open List

variable {B D live : List ℕ} {h h' : Heap} {b d : ℕ}

/-- The bytes in the blocks of a message. -/
def total (h : Heap) (m : List ℕ) : ℤ := (m.map (bsz h)).sum

theorem Sound.bsz_nonneg (hs : Sound h b) : 0 ≤ bsz h b := by
  have := hs.rptr_le
  unfold bsz
  omega

@[simp]
theorem total_nil : total h [] = 0 := rfl

@[simp]
theorem total_cons (b : ℕ) (m : List ℕ) : total h (b :: m) = bsz h b + total h m := sum_cons

theorem total_nonneg {m : List ℕ} (hm : ∀ b ∈ m, Sound h b) : 0 ≤ total h m := by
  induction m with
  | nil => exact Int.le_refl 0
  | cons b m ih =>
    rw [total_cons]
    have hb := (hm b mem_cons_self).bsz_nonneg
    have htail := ih fun c hc => hm c (mem_cons_of_mem b hc)
    omega

theorem total_congr {m : List ℕ} (hm : ∀ b ∈ m, h'.mblk b = h.mblk b) : total h' m = total h m := by
  unfold total
  congr 1
  apply map_congr_left
  intro b hb
  unfold bsz
  rw [hm b hb]

theorem xmsgsizeLoop_spec (type : UInt8) {n : ℕ} {p : Option ℕ} {m : List ℕ} (count : ℤ)
    (hm : Linked h.b_cont p m) (hs : ∀ b ∈ m, Sound h b) (hn : m.length ≤ n) :
    ∃ size, xmsgsizeLoop h type n p count = some size ∧ count ≤ size ∧ size ≤ count + total h m := by
  induction m generalizing p n count with
  | nil =>
    have hp : p = none := hm
    refine ⟨count, ?_, Int.le_refl _, by simp⟩
    rw [hp]
    cases n <;> rfl
  | cons b m ih =>
    cases n with
    | zero => exact absurd hn (Nat.not_succ_le_zero _)
    | succ n =>
      have hb := hs b mem_cons_self
      have hnonneg := hb.bsz_nonneg
      have htail := total_nonneg fun c hc => hs c (mem_cons_of_mem b hc)
      obtain ⟨d, hd⟩ := Option.ne_none_iff_exists'.mp hb.datap
      unfold xmsgsizeLoop dbType
      rw [hm.1, total_cons]
      simp only [hd, Option.map_some]
      split
      · obtain ⟨size, h1, h2, h3⟩ := ih (count + bsz h b) hm.2
          (fun c hc => hs c (mem_cons_of_mem b hc)) (Nat.le_of_succ_le_succ hn)
        exact ⟨size, h1, by omega, by omega⟩
      · exact ⟨count, rfl, Int.le_refl _, by omega⟩

theorem xmsgsize_spec {n mp : ℕ} {rest : List ℕ} (hm : Linked h.b_cont (some mp) (mp :: rest))
    (hs : ∀ b ∈ mp :: rest, Sound h b) (hn : rest.length + 1 ≤ n) :
    ∃ size, xmsgsize n h mp = some size ∧ 0 ≤ size ∧ size ≤ total h (mp :: rest) := by
  obtain ⟨d, hd⟩ := Option.ne_none_iff_exists'.mp (hs mp mem_cons_self).datap
  obtain ⟨size, h1, h2, h3⟩ := xmsgsizeLoop_spec (h.dblk d).db_type 0 hm hs hn
  refine ⟨size, ?_, h2, by omega⟩
  unfold xmsgsize dbType
  simp only [hd, Option.map_some]
  exact h1

/-! ## The loop -/

theorem pullBytes_other {new_bp bp n c : ℕ} (h1 : c ≠ new_bp) (h2 : c ≠ bp) :
    (pullBytes h new_bp bp n).mblk c = h.mblk c := by
  unfold pullBytes
  simp only
  rw [setM_other h2, setM_other h1]

theorem pullBytes_bp {new_bp bp n : ℕ} (hne : bp ≠ new_bp) :
    (pullBytes h new_bp bp n).mblk bp = { h.mblk bp with b_rptr := (h.mblk bp).b_rptr + n } := by
  unfold pullBytes
  simp only
  rw [setM_self, setM_other hne]

theorem pullBytes_new {new_bp bp n : ℕ} (hne : bp ≠ new_bp) :
    (pullBytes h new_bp bp n).mblk new_bp =
      { h.mblk new_bp with b_wptr := (h.mblk new_bp).b_wptr + n } := by
  unfold pullBytes
  simp only
  rw [setM_other (Ne.symm hne), setM_self]

theorem pullBytes_cont {new_bp bp n : ℕ} (hne : bp ≠ new_bp) :
    (pullBytes h new_bp bp n).b_cont = h.b_cont ∧
      (pullBytes h new_bp bp n).b_datap = h.b_datap := by
  have hall (c : ℕ) : (pullBytes h new_bp bp n).b_cont c = h.b_cont c ∧
      (pullBytes h new_bp bp n).b_datap c = h.b_datap c := by
    unfold Heap.b_cont Heap.b_datap
    by_cases h1 : c = bp
    · rw [h1, pullBytes_bp hne]
      exact ⟨rfl, rfl⟩
    · by_cases h2 : c = new_bp
      · rw [h2, pullBytes_new hne]
        exact ⟨rfl, rfl⟩
      · rw [pullBytes_other h2 h1]
        exact ⟨rfl, rfl⟩
  exact ⟨funext fun c => (hall c).1, funext fun c => (hall c).2⟩

theorem Counts.pullBytes (hc : Counts B D h live) {new_bp bp : ℕ} (hnew : new_bp ∈ live)
    (hbp : bp ∈ live) (hne : bp ≠ new_bp) (n : ℕ) : Counts B D (pullBytes h new_bp bp n) live := by
  apply Counts.congr hc
  · rfl
  · intro c hcl
    have h1 : c ≠ new_bp := by
      rintro rfl
      exact hcl hnew
    have h2 : c ≠ bp := by
      rintro rfl
      exact hcl hbp
    exact pullBytes_other h1 h2
  · intro c _
    rw [(pullBytes_cont hne).2]
  · rfl
  · rfl
  · rfl

/-- What the loop leaves of the blocks that it does not empty. -/
structure Pulled (h h' : Heap) (new_bp : ℕ) (keep : List ℕ) : Prop where
  cont : h'.b_cont = h.b_cont
  same : ∀ c ∈ keep, c ≠ new_bp → h'.mblk c = h.mblk c
  datap : h'.b_datap new_bp = h.b_datap new_bp
  sound : (h.mblk new_bp).b_rptr ≤ (h.mblk new_bp).b_wptr →
    (h'.mblk new_bp).b_rptr ≤ (h'.mblk new_bp).b_wptr

theorem Pulled.refl (h : Heap) (new_bp : ℕ) (keep : List ℕ) : Pulled h h new_bp keep :=
  ⟨rfl, fun _ _ _ => rfl, rfl, id⟩

theorem Pulled.trans {h'' : Heap} {new_bp : ℕ} {keep keep' : List ℕ} (h1 : Pulled h h' new_bp keep)
    (h2 : Pulled h' h'' new_bp keep') (hsub : keep ⊆ keep') : Pulled h h'' new_bp keep :=
  ⟨h2.cont.trans h1.cont, fun c hc hne => (h2.same c (hsub hc) hne).trans (h1.same c hc hne),
    h2.datap.trans h1.datap, fun hs => h2.sound (h1.sound hs)⟩

theorem pullBytes_pulled {new_bp bp : ℕ} (hne : bp ≠ new_bp) (n : ℕ) {keep : List ℕ}
    (hbp : bp ∉ keep) : Pulled h (pullBytes h new_bp bp n) new_bp keep := by
  refine ⟨(pullBytes_cont hne).1, fun c hc hcn => ?_, ?_, fun hs => ?_⟩
  · have hcb : c ≠ bp := by
      rintro rfl
      exact hbp hc
    exact pullBytes_other hcn hcb
  · rw [(pullBytes_cont hne).2]
  · rw [pullBytes_new hne]
    exact Nat.le_add_right_of_le hs

/-- The loop behind the first block, where emptied blocks are freed. -/
theorem pullLoop_rest {mp new_bp n : ℕ} {p : Option ℕ} {sfx keep : List ℕ} {len : ℤ}
    (hc : Counts B D h (sfx ++ keep)) (hp : Linked h.b_cont p sfx) (hs : ∀ b ∈ sfx, Sound h b)
    (hmp : mp ∈ keep) (hnew : new_bp ∈ keep) (h0 : 0 ≤ len) (hlen : len ≤ total h sfx)
    (hn : sfx.length < n) :
    ∃ h' p' sfx', pullLoop mp new_bp n h p len = some (h', p') ∧ Counts B D h' (sfx' ++ keep) ∧
      Linked h'.b_cont p' sfx' ∧ (∀ b ∈ sfx', Sound h' b) ∧ Pulled h h' new_bp keep := by
  induction sfx generalizing h n p len with
  | nil =>
    obtain ⟨n, rfl⟩ := Nat.exists_eq_add_of_le' hn
    have hz : len = 0 := Int.le_antisymm hlen h0
    refine ⟨h, p, [], ?_, hc, hp, hs, Pulled.refl _ _ _⟩
    unfold pullLoop
    rw [if_pos hz]
  | cons b sfx ih =>
    cases n with
    | zero => exact absurd hn (Nat.not_lt_zero _)
    | succ n =>
      unfold pullLoop
      by_cases hz : len = 0
      · rw [if_pos hz]
        exact ⟨h, p, b :: sfx, rfl, hc, hp, hs, Pulled.refl _ _ _⟩
      · rw [if_neg hz, hp.1]
        have hnd := nodup_append.mp hc.mblks.nodup_live
        have hbn : b ≠ new_bp := hnd.2.2 b mem_cons_self new_bp hnew
        have hbmp : b ≠ mp := hnd.2.2 b mem_cons_self mp hmp
        have hbk : b ∉ keep := fun hk => hnd.2.2 b mem_cons_self b hk rfl
        have hbs : b ∉ sfx := (nodup_cons.mp hnd.1).1
        have hsound := hs b mem_cons_self
        have hnonneg := hsound.bsz_nonneg
        obtain ⟨c, hcdef⟩ : ∃ c, c = min (bsz h b) len := ⟨_, rfl⟩
        have hc0 : 0 ≤ c := by omega
        have hc1 := hc.pullBytes (mem_append_right _ hnew)
          (mem_append_left _ mem_cons_self) hbn c.toNat
        have hpull : Pulled h (pullBytes h new_bp b c.toNat) new_bp keep :=
          pullBytes_pulled hbn c.toNat hbk
        have hsfx (x : ℕ) (hx : x ∈ sfx) : (pullBytes h new_bp b c.toNat).mblk x = h.mblk x := by
          have h1 : x ≠ new_bp := hnd.2.2 x (mem_cons_of_mem _ hx) new_bp hnew
          have h2 : x ≠ b := by
            rintro rfl
            exact hbs hx
          exact pullBytes_other h1 h2
        have hsb : Sound (pullBytes h new_bp b c.toNat) b := by
          refine ⟨?_, ?_⟩
          · rw [(pullBytes_cont hbn).2]
            exact hsound.datap
          · rw [pullBytes_bp hbn]
            unfold bsz at hcdef
            simp only
            omega
        have hs1 (x : ℕ) (hx : x ∈ sfx) : Sound (pullBytes h new_bp b c.toNat) x :=
          (hs x (mem_cons_of_mem _ hx)).of_eq (hsfx x hx)
        have hp1 : Linked (pullBytes h new_bp b c.toNat).b_cont (some b) (b :: sfx) := by
          rw [(pullBytes_cont hbn).1]
          exact ⟨rfl, hp.2⟩
        simp only [← hcdef]
        by_cases hleft : ((pullBytes h new_bp b c.toNat).mblk b).b_rptr ≠
            ((pullBytes h new_bp b c.toNat).mblk b).b_wptr
        · rw [if_pos hleft]
          refine ⟨_, some b, b :: sfx, rfl, hc1, hp1, fun x hx => ?_, hpull⟩
          rcases mem_cons.mp hx with rfl | hx
          · exact hsb
          · exact hs1 x hx
        · -- the block is empty
          rw [if_neg hleft, if_neg hbmp]
          have hall : c = bsz h b := by
            rw [not_not, pullBytes_bp hbn] at hleft
            simp only at hleft
            unfold bsz at hcdef ⊢
            omega
          obtain ⟨e, he⟩ := Option.ne_none_iff_exists'.mp hsb.datap
          obtain ⟨h2, hfree, hc2, hframe⟩ := freeb_spec hc1 he
          have hp2 : Linked h2.b_cont ((pullBytes h new_bp b c.toNat).b_cont b) sfx := by
            rw [hframe.cont]
            exact hp1.2
          have hsfx2 (x : ℕ) (hx : x ∈ sfx) : h2.mblk x = h.mblk x :=
            (hframe.same x (mem_append_left _ hx)).trans (hsfx x hx)
          have hlen2 : len - c ≤ total h2 sfx := by
            rw [total_congr hsfx2]
            rw [total_cons] at hlen
            omega
          obtain ⟨h3, p3, sfx3, hloop, hc3, hp3, hs3, hpull3⟩ := ih hc2 hp2
            (fun x hx => (hs x (mem_cons_of_mem _ hx)).of_eq (hsfx2 x hx)) (by omega) hlen2
            (Nat.lt_of_succ_lt_succ hn)
          refine ⟨h3, p3, sfx3, ?_, hc3, hp3, hs3, ?_⟩
          · simp only [hfree]
            exact hloop
          · have hpull2 : Pulled (pullBytes h new_bp b c.toNat) h2 new_bp keep := by
              have hnewsame := hframe.same new_bp (mem_append_right _ hnew)
              refine ⟨hframe.cont, fun x hx _ => hframe.same x (mem_append_right _ hx), ?_, ?_⟩
              · exact congrArg Mblk.b_datap hnewsame
              · rw [hnewsame]
                exact id
            exact (hpull.trans hpull2 (List.Subset.refl _)).trans hpull3 (List.Subset.refl _)

/-- The loop from the first block on, which keeps this block. -/
structure Headed (B D : List ℕ) (h h' : Heap) (mp new_bp : ℕ) (p : Option ℕ)
    (rest keep : List ℕ) : Prop where
  pulled : Pulled h h' new_bp keep
  sound : Sound h' mp
  left : (h'.mblk mp).b_rptr ≠ (h'.mblk mp).b_wptr →
    Counts B D h' (mp :: (rest ++ keep)) ∧ ∀ b ∈ rest, Sound h' b
  empty : (h'.mblk mp).b_rptr = (h'.mblk mp).b_wptr → ∃ sfx, Counts B D h' (mp :: (sfx ++ keep)) ∧
    Linked h'.b_cont p sfx ∧ ∀ b ∈ sfx, Sound h' b

theorem pullLoop_head {mp new_bp n : ℕ} {rest keep : List ℕ} {len : ℤ}
    (hc : Counts B D h (mp :: (rest ++ keep))) (hm : Linked h.b_cont (some mp) (mp :: rest))
    (hs : ∀ b ∈ mp :: rest, Sound h b) (hnew : new_bp ∈ keep) (h0 : 0 ≤ len)
    (hlen : len ≤ total h (mp :: rest)) (hsome : len = 0 → bsz h mp ≠ 0) (hn : rest.length + 1 < n) :
    ∃ h' p, pullLoop mp new_bp n h (some mp) len = some (h', p) ∧
      Headed B D h h' mp new_bp p rest keep := by
  cases n with
  | zero => exact absurd hn (Nat.not_lt_zero _)
  | succ n =>
    have hsmp := hs mp mem_cons_self
    have hsrest (b : ℕ) (hb : b ∈ rest) : Sound h b := hs b (mem_cons_of_mem _ hb)
    unfold pullLoop
    by_cases hz : len = 0
    · rw [if_pos hz]
      refine ⟨h, some mp, rfl, Pulled.refl _ _ _, hsmp, fun _ => ⟨hc, hsrest⟩, fun heq => ?_⟩
      have hb := hsome hz
      unfold bsz at hb
      omega
    · rw [if_neg hz]
      have hnd := nodup_cons.mp hc.mblks.nodup_live
      have hmn : mp ≠ new_bp := by
        rintro rfl
        exact hnd.1 (mem_append_right _ hnew)
      have hmk : mp ∉ keep := fun hk => hnd.1 (mem_append_right _ hk)
      have hnonneg := hsmp.bsz_nonneg
      obtain ⟨c, hcdef⟩ : ∃ c, c = min (bsz h mp) len := ⟨_, rfl⟩
      have hc1 := hc.pullBytes (mem_cons_of_mem _ (mem_append_right _ hnew))
        mem_cons_self hmn c.toNat
      have hpull : Pulled h (pullBytes h new_bp mp c.toNat) new_bp keep :=
        pullBytes_pulled hmn c.toNat hmk
      have hsame (b : ℕ) (hb : b ∈ rest) : (pullBytes h new_bp mp c.toNat).mblk b = h.mblk b := by
        have hbn : b ≠ new_bp :=
          (nodup_append.mp hnd.2).2.2 b hb new_bp hnew
        have hbm : b ≠ mp := by
          rintro rfl
          exact hnd.1 (mem_append_left _ hb)
        exact pullBytes_other hbn hbm
      have hsm : Sound (pullBytes h new_bp mp c.toNat) mp := by
        refine ⟨?_, ?_⟩
        · rw [(pullBytes_cont hmn).2]
          exact hsmp.datap
        · rw [pullBytes_bp hmn]
          unfold bsz at hcdef hnonneg
          simp only
          omega
      simp only [← hcdef]
      by_cases hleft : ((pullBytes h new_bp mp c.toNat).mblk mp).b_rptr ≠
          ((pullBytes h new_bp mp c.toNat).mblk mp).b_wptr
      · rw [if_pos hleft]
        refine ⟨_, some mp, rfl, hpull, hsm, fun _ => ⟨hc1, fun b hb => ?_⟩, fun heq => ?_⟩
        · exact (hsrest b hb).of_eq (hsame b hb)
        · exact absurd heq hleft
      · -- the first block is empty, but is not freed
        rw [if_neg hleft, if_pos True.intro]
        have hall : c = bsz h mp := by
          rw [not_not, pullBytes_bp hmn] at hleft
          simp only at hleft
          unfold bsz at hcdef ⊢
          omega
        have hrest : Linked (pullBytes h new_bp mp c.toNat).b_cont
            ((pullBytes h new_bp mp c.toNat).b_cont mp) rest := by
          rw [(pullBytes_cont hmn).1]
          exact hm.2
        have hlen' : len - c ≤ total (pullBytes h new_bp mp c.toNat) rest := by
          rw [total_congr hsame]
          rw [total_cons] at hlen
          omega
        obtain ⟨h', p', sfx, hloop, hc', hp', hs', hpull'⟩ := pullLoop_rest
          (hc1.perm perm_middle.symm) hrest (fun b hb => (hsrest b hb).of_eq (hsame b hb))
          mem_cons_self (mem_cons_of_mem _ hnew) (by omega) hlen' (by omega : _ < n)
        have hmp : h'.mblk mp = (pullBytes h new_bp mp c.toNat).mblk mp :=
          hpull'.same mp mem_cons_self hmn
        refine ⟨h', p', hloop, hpull.trans hpull' (subset_cons_self _ _), hsm.of_eq hmp,
          fun hne => ?_, fun _ => ⟨sfx, hc'.perm perm_middle, hp', hs'⟩⟩
        rw [hmp] at hne
        exact absurd hne hleft

/-! ## The headers -/

section Headers

variable {new_bp tmp mp : ℕ} {bp : Option ℕ} {rest : List ℕ}

/-- Three blocks in use, of which one has no data block. -/
structure Three (B D : List ℕ) (h : Heap) (new_bp tmp mp : ℕ) (live : List ℕ) : Prop where
  counts : Counts B D h (new_bp :: tmp :: mp :: live)
  no_datap : h.b_datap tmp = none
  sound_mp : Sound h mp
  sound_new : Sound h new_bp

theorem Three.ne (ht : Three B D h new_bp tmp mp live) :
    tmp ≠ new_bp ∧ mp ≠ new_bp ∧ mp ≠ tmp ∧
      ∀ b ∈ live, b ≠ new_bp ∧ b ≠ tmp ∧ b ≠ mp := by
  have hnd := ht.counts.mblks.nodup_live
  simp only [nodup_cons, mem_cons, not_or] at hnd
  obtain ⟨⟨h1, h2, h3⟩, ⟨h4, h5⟩, h6, -⟩ := hnd
  refine ⟨Ne.symm h1, Ne.symm h2, Ne.symm h4, fun b hb => ⟨?_, ?_, ?_⟩⟩
  · exact fun heq => h3 (heq ▸ hb)
  · exact fun heq => h5 (heq ▸ hb)
  · exact fun heq => h6 (heq ▸ hb)

theorem swapHeaders_other {c : ℕ} (h1 : c ≠ new_bp) (h2 : c ≠ tmp) (h3 : c ≠ mp) :
    (swapHeaders h mp tmp new_bp).mblk c = h.mblk c := by
  unfold swapHeaders
  simp only
  rw [setM_other h1, setM_other h3, setM_other h2]

theorem swapHeaders_tmp (h1 : tmp ≠ new_bp) (h2 : mp ≠ tmp) :
    (swapHeaders h mp tmp new_bp).mblk tmp = h.mblk mp := by
  unfold swapHeaders
  simp only
  rw [setM_other h1, setM_other (Ne.symm h2), setM_self]

theorem swapHeaders_mp (h1 : tmp ≠ new_bp) (h2 : mp ≠ new_bp) :
    (swapHeaders h mp tmp new_bp).mblk mp = h.mblk new_bp := by
  unfold swapHeaders
  simp only
  rw [setM_other h2, setM_self, setM_other (Ne.symm h1)]

theorem swapHeaders_new : (swapHeaders h mp tmp new_bp).b_datap new_bp = none :=
  congrArg Mblk.b_datap (setM_self _)

/-- The data blocks only change hands. -/
theorem Three.swap (ht : Three B D h new_bp tmp mp live) :
    Counts B D (swapHeaders h mp tmp new_bp) (new_bp :: tmp :: mp :: live) := by
  obtain ⟨h1, h2, h3, hlive⟩ := ht.ne
  have htmp : (swapHeaders h mp tmp new_bp).b_datap tmp = h.b_datap mp :=
    congrArg Mblk.b_datap (swapHeaders_tmp h1 h3)
  have hmp : (swapHeaders h mp tmp new_bp).b_datap mp = h.b_datap new_bp :=
    congrArg Mblk.b_datap (swapHeaders_mp h1 h2)
  have hother (b : ℕ) (hb : b ∈ live) : (swapHeaders h mp tmp new_bp).b_datap b = h.b_datap b := by
    obtain ⟨hb1, hb2, hb3⟩ := hlive b hb
    exact congrArg Mblk.b_datap (swapHeaders_other hb1 hb2 hb3)
  refine ⟨?_, ?_, fun b hb d hd => ?_⟩
  · apply MPool.congr ht.counts.mblks
    · rfl
    · intro b hb
      simp only [mem_cons, not_or] at hb
      exact swapHeaders_other hb.1 hb.2.1 hb.2.2.1
  · refine DPool.congr ht.counts.dblks ?_ ?_ ?_ fun d _ => ?_
    · rfl
    · rfl
    · rfl
    rw [refs_cons, refs_cons, refs_cons, refs_cons, refs_cons, refs_cons, refs_congr hother,
      swapHeaders_new, htmp, hmp, ht.no_datap]
    simp only [reduceCtorEq, if_false]
    omega
  · simp only [mem_cons] at hb
    rcases hb with rfl | rfl | rfl | hb
    · exact absurd (swapHeaders_new.symm.trans hd) nofun
    · exact ht.counts.datap mp (by simp) d (htmp.symm.trans hd)
    · exact ht.counts.datap new_bp (by simp) d (hmp.symm.trans hd)
    · exact ht.counts.datap b (by simp [hb]) d ((hother b hb).symm.trans hd)

/-- Data is left in the old first block, which comes second in the message now. -/
theorem interchange_keep (bp : Option ℕ) (ht : Three B D h new_bp tmp mp live)
    (hleft : (h.mblk mp).b_rptr ≠ (h.mblk mp).b_wptr) (hrest : Linked h.b_cont (h.b_cont mp) rest)
    (hsub : rest ⊆ live) :
    ∃ h', interchange h mp tmp new_bp bp = some h' ∧ Counts B D h' (mp :: tmp :: live) ∧
      Linked h'.b_cont (some mp) (mp :: tmp :: rest) ∧ Sound h' mp ∧ Sound h' tmp ∧
      ∀ b ∈ live, h'.mblk b = h.mblk b := by
  obtain ⟨h1, h2, h3, hlive⟩ := ht.ne
  obtain ⟨h0, hh0⟩ : ∃ h0, h0 = (swapHeaders h mp tmp new_bp).setCont mp (some tmp) := ⟨_, rfl⟩
  have htmp : (h0.pushM new_bp).mblk tmp = h.mblk mp := by
    rw [pushM_mblk h1, hh0, setCont_other (Ne.symm h3), swapHeaders_tmp h1 h3]
  have hmp : (h0.pushM new_bp).mblk mp = { h.mblk new_bp with b_cont := some tmp } := by
    rw [pushM_mblk h2, hh0, setCont_mblk, swapHeaders_mp h1 h2]
  have hother (b : ℕ) (hb : b ∈ live) : (h0.pushM new_bp).mblk b = h.mblk b := by
    obtain ⟨hb1, hb2, hb3⟩ := hlive b hb
    rw [pushM_mblk hb1, hh0, setCont_other hb3, swapHeaders_other hb1 hb2 hb3]
  refine ⟨h0.pushM new_bp, ?_, ?_, ⟨rfl, ?_, ?_⟩, ?_, ht.sound_mp.move htmp, hother⟩
  · unfold interchange
    simp only
    rw [swapHeaders_tmp h1 h3, if_pos hleft, ← hh0]
    rfl
  · have hcont : Counts B D h0 (new_bp :: tmp :: mp :: live) := by
      rw [hh0]
      exact ht.swap.setCont (by simp) _
    have hnone : h0.b_datap new_bp = none := by
      rw [hh0, setCont_datap]
      exact swapHeaders_new
    exact (hcont.push hnone).perm (List.Perm.swap _ _ _)
  · exact congrArg Mblk.b_cont hmp
  · have hcont : (h0.pushM new_bp).b_cont tmp = h.b_cont mp := congrArg Mblk.b_cont htmp
    rw [hcont]
    exact hrest.congr fun b hb => congrArg Mblk.b_cont (hother b (hsub hb))
  · refine ⟨?_, ?_⟩
    · unfold Heap.b_datap
      rw [hmp]
      exact ht.sound_new.datap
    · rw [hmp]
      exact ht.sound_new.rptr_le

/-- The old first block is empty and goes. -/
theorem interchange_free (ht : Three B D h new_bp tmp mp live)
    (hleft : (h.mblk mp).b_rptr = (h.mblk mp).b_wptr) (hrest : Linked h.b_cont bp rest)
    (hsub : rest ⊆ live) :
    ∃ h', interchange h mp tmp new_bp bp = some h' ∧ Counts B D h' (mp :: live) ∧
      Linked h'.b_cont (some mp) (mp :: rest) ∧ Sound h' mp ∧ ∀ b ∈ live, h'.mblk b = h.mblk b := by
  obtain ⟨h1, h2, h3, hlive⟩ := ht.ne
  obtain ⟨h0, hh0⟩ : ∃ h0, h0 = (swapHeaders h mp tmp new_bp).setCont mp bp := ⟨_, rfl⟩
  have hc0 : Counts B D h0 (tmp :: new_bp :: mp :: live) := by
    rw [hh0]
    exact (ht.swap.setCont (by simp) _).perm (List.Perm.swap _ _ _)
  obtain ⟨d, hd⟩ := Option.ne_none_iff_exists'.mp ht.sound_mp.datap
  have hd0 : h0.b_datap tmp = some d := by
    rw [hh0, setCont_datap]
    exact (congrArg Mblk.b_datap (swapHeaders_tmp h1 h3)).trans hd
  obtain ⟨h4, hfree, hc4, hframe⟩ := freeb_spec hc0 hd0
  have hnone : h4.b_datap new_bp = none := by
    have hsame : h4.b_datap new_bp = h0.b_datap new_bp :=
      congrArg Mblk.b_datap (hframe.same new_bp mem_cons_self)
    rw [hsame, hh0, setCont_datap]
    exact swapHeaders_new
  have hmp : (h4.pushM new_bp).mblk mp = { h.mblk new_bp with b_cont := bp } := by
    rw [pushM_mblk h2, hframe.same mp (by simp), hh0, setCont_mblk, swapHeaders_mp h1 h2]
  have hother (b : ℕ) (hb : b ∈ live) : (h4.pushM new_bp).mblk b = h.mblk b := by
    obtain ⟨hb1, hb2, hb3⟩ := hlive b hb
    rw [pushM_mblk hb1, hframe.same b (by simp [hb]), hh0, setCont_other hb3,
      swapHeaders_other hb1 hb2 hb3]
  refine ⟨h4.pushM new_bp, ?_, hc4.push hnone, ⟨rfl, ?_⟩, ?_, hother⟩
  · unfold interchange
    simp only
    rw [swapHeaders_tmp h1 h3, if_neg (not_not.mpr hleft), ← hh0, hfree]
    rfl
  · have hcont : (h4.pushM new_bp).b_cont mp = bp := congrArg Mblk.b_cont hmp
    rw [hcont]
    exact hrest.congr fun b hb => congrArg Mblk.b_cont (hother b (hsub hb))
  · refine ⟨?_, ?_⟩
    · unfold Heap.b_datap
      rw [hmp]
      exact ht.sound_new.datap
    · rw [hmp]
      exact ht.sound_new.rptr_le

end Headers

/-! ## The whole -/

section Pullup

variable {mp n : ℕ} {rest : List ℕ} {len : ℤ}

/-- There is no second message block, or no data block for a length of 0. -/
def NoBlocks (h : Heap) : Prop :=
  h.mbfreelist.bind h.b_next = none ∨
    classBlock h 0 .BPRI_MED = none ∧ classBlock h 1 .BPRI_MED = none

theorem NoBlocks.allocb (hb : NoBlocks h) {tmp : ℕ} (htmp : h.mbfreelist = some tmp) :
    (allocb (h.popM tmp) 0 .BPRI_MED).1 = none := by
  have hclass (c : ℕ) : classBlock (h.popM tmp) c .BPRI_MED = classBlock h c .BPRI_MED := rfl
  have hzero : getclass 0 = 0 := by decide
  unfold Str.allocb NCLASS
  simp only [hzero, hclass, Nat.zero_add]
  rcases hb with hnext | ⟨h1, h2⟩
  · have hfree : (h.popM tmp).mbfreelist = none := by
      rw [htmp] at hnext
      exact hnext
    have hgot (c d : ℕ) : (gotdp (h.popM tmp) c d).1 = none := by
      unfold gotdp
      rw [hfree]
    cases classBlock h 0 .BPRI_MED with
    | some d => exact hgot 0 d
    | none =>
      cases classBlock h 1 .BPRI_MED with
      | some d => exact hgot 1 d
      | none => rfl
  · rw [h1, h2]
    rfl

/-- What becomes of the message `mp :: rest`, where the other blocks in use are `live`. -/
structure PulledUp (B D : List ℕ) (h h' : Heap) (mp : ℕ) (rest' live : List ℕ) : Prop where
  counts : Counts B D h' (mp :: (rest' ++ live))
  linked : Linked h'.b_cont (some mp) (mp :: rest')
  sound : ∀ b ∈ mp :: rest', Sound h' b
  same : ∀ b ∈ live, h'.mblk b = h.mblk b

theorem pullup_spec (hc : Counts B D h (mp :: (rest ++ live)))
    (hm : Linked h.b_cont (some mp) (mp :: rest)) (hs : ∀ b ∈ mp :: rest, Sound h b) (h0 : 0 ≤ len)
    (hlen : len ≤ total h (mp :: rest)) (hsome : len = 0 → bsz h mp = 0 → NoBlocks h)
    (hn : rest.length + 1 < n) :
    ∃ r h' rest', pullup n h mp len = some (r, h') ∧ PulledUp B D h h' mp rest' live := by
  unfold pullup
  cases htmp : h.mbfreelist with
  | none => exact ⟨false, h, rest, rfl, hc, hm, hs, fun _ _ => rfl⟩
  | some tmp =>
    obtain ⟨hpop, htl, htd⟩ := hc.pop htmp
    simp only
    rcases allocb_spec hpop len .BPRI_MED with hno | ⟨nb, h1, halloc, hfresh, hdp, hrw⟩
    · rw [hno]
      have hsame (b : ℕ) (hb : b ∈ mp :: (rest ++ live)) :
          ((h.popM tmp).pushM tmp).mblk b = h.mblk b := by
        have hne : b ≠ tmp := by
          rintro rfl
          exact htl hb
        exact pushM_mblk hne
      have hmem (b : ℕ) (hb : b ∈ mp :: rest) : b ∈ mp :: (rest ++ live) :=
        mem_append_left live hb
      refine ⟨false, (h.popM tmp).pushM tmp, rest, rfl, hpop.push htd, ?_, fun b hb => ?_,
        fun b hb => ?_⟩
      · exact hm.congr fun b hb => congrArg Mblk.b_cont (hsame b (hmem b hb))
      · exact (hs b hb).of_eq (hsame b (hmem b hb))
      · exact hsame b (mem_append_right (mp :: rest) hb)
    · -- the headers `tmp` and `nb` are there, the latter with a data block
      have hsome' : len = 0 → bsz h mp ≠ 0 := by
        rintro rfl hz
        have hnone := (hsome rfl hz).allocb htmp
        rw [halloc] at hnone
        exact absurd hnone nofun
      rw [halloc]
      simp only
      have hne (b : ℕ) (hb : b ∈ tmp :: mp :: (rest ++ live)) : b ≠ nb := by
        rintro rfl
        exact hfresh.not_live hb
      have hsame (b : ℕ) (hb : b ∈ tmp :: mp :: (rest ++ live)) : h1.mblk b = h.mblk b :=
        hfresh.same b (hne b hb)
      have hmem (b : ℕ) (hb : b ∈ mp :: rest) : b ∈ tmp :: mp :: (rest ++ live) :=
        mem_cons_of_mem _ (mem_append_left live hb)
      obtain ⟨nd, hnd⟩ := Option.ne_none_iff_exists'.mp hdp
      obtain ⟨d, hd⟩ := Option.ne_none_iff_exists'.mp
        ((hs mp mem_cons_self).of_eq (hsame mp (hmem mp mem_cons_self))).datap
      rw [hd, hnd]
      simp only
      obtain ⟨h2, hh2⟩ : ∃ h2, h2 = h1.setD nd { h1.dblk nd with db_type := (h1.dblk d).db_type } :=
        ⟨_, rfl⟩
      have hmblk : h2.mblk = h1.mblk := by
        rw [hh2]
        rfl
      have hsame2 (b : ℕ) (hb : b ∈ mp :: rest) : h2.mblk b = h.mblk b := by
        rw [hmblk, hsame b (hmem b hb)]
      have hc2 : Counts B D h2 (mp :: (rest ++ nb :: tmp :: live)) := by
        rw [hh2]
        apply (hfresh.counts.setType nd _).perm
        apply perm_iff_count.mpr
        intro a
        simp only [count_cons, count_append]
        omega
      have hm2 : Linked h2.b_cont (some mp) (mp :: rest) :=
        hm.congr fun b hb => congrArg Mblk.b_cont (hsame2 b hb)
      have hs2 (b : ℕ) (hb : b ∈ mp :: rest) : Sound h2 b := (hs b hb).of_eq (hsame2 b hb)
      have hbsz : bsz h2 mp = bsz h mp := by
        unfold bsz
        rw [hsame2 mp mem_cons_self]
      obtain ⟨h3, p, hloop, hhead⟩ := pullLoop_head hc2 hm2 hs2 mem_cons_self h0
        (by rw [total_congr hsame2]; exact hlen) (by rw [hbsz]; exact hsome') hn
      have hnt : nb ≠ tmp := (hne tmp mem_cons_self).symm
      have hthree (xs : List ℕ) (hx : Counts B D h3 (mp :: (xs ++ nb :: tmp :: live))) :
          Three B D h3 nb tmp mp (xs ++ live) := by
        refine ⟨?_, ?_, hhead.sound, ?_, ?_⟩
        · apply hx.perm
          apply perm_iff_count.mpr
          intro a
          simp only [count_cons, count_append]
          omega
        · have htmp3 := hhead.pulled.same tmp (by simp) hnt.symm
          unfold Heap.b_datap
          rw [htmp3, hmblk, hsame tmp mem_cons_self]
          exact htd
        · rw [hhead.pulled.datap]
          unfold Heap.b_datap
          rw [hmblk]
          exact hdp
        · apply hhead.pulled.sound
          rw [hmblk]
          exact Nat.le_of_eq hrw
      have hlive (b : ℕ) (hb : b ∈ live) : h3.mblk b = h.mblk b := by
        have hbt : b ∈ tmp :: mp :: (rest ++ live) := by simp [hb]
        rw [hhead.pulled.same b (by simp [hb]) (hne b hbt), hmblk, hsame b hbt]
      rw [← hh2, hloop]
      simp only
      by_cases hleft : (h3.mblk mp).b_rptr = (h3.mblk mp).b_wptr
      · obtain ⟨sfx, hc3, hl3, hs3⟩ := hhead.empty hleft
        obtain ⟨h4, hint, hc4, hl4, hsm, hsame4⟩ := interchange_free (hthree sfx hc3) hleft hl3
          (subset_append_left _ _)
        rw [hint]
        refine ⟨true, h4, sfx, rfl, hc4, hl4, fun b hb => ?_, fun b hb => ?_⟩
        · rcases mem_cons.mp hb with rfl | hb
          · exact hsm
          · exact (hs3 b hb).of_eq (hsame4 b (mem_append_left _ hb))
        · exact (hsame4 b (mem_append_right _ hb)).trans (hlive b hb)
      · obtain ⟨hc3, hs3⟩ := hhead.left hleft
        have hl3 : Linked h3.b_cont (h3.b_cont mp) rest := by
          rw [hhead.pulled.cont]
          exact hm2.2
        obtain ⟨h4, hint, hc4, hl4, hsm, hst, hsame4⟩ := interchange_keep p
          (hthree rest hc3) hleft hl3 (subset_append_left _ _)
        rw [hint]
        refine ⟨true, h4, tmp :: rest, rfl, hc4, hl4, fun b hb => ?_, fun b hb => ?_⟩
        · rcases mem_cons.mp hb with rfl | hb
          · exact hsm
          · rcases mem_cons.mp hb with rfl | hb
            · exact hst
            · exact (hs3 b hb).of_eq (hsame4 b (mem_append_left _ hb))
        · exact (hsame4 b (mem_append_right _ hb)).trans (hlive b hb)

/-- A call of `pullupmsg` that does not ask to pull up nothing out of an empty first block. -/
structure PullsSome (h : Heap) (mp : ℕ) (len : ℤ) : Prop where
  len_ge : -1 ≤ len
  all : len = -1 → (∃ n, xmsgsize n h mp = some 0) →
    h.b_cont mp = none ∧ str_aligned (h.mblk mp).b_rptr ∨ NoBlocks h
  zero : len = 0 → bsz h mp = 0 → str_aligned (h.mblk mp).b_rptr ∨ NoBlocks h

theorem pullupmsg_spec (hc : Counts B D h (mp :: (rest ++ live)))
    (hm : Linked h.b_cont (some mp) (mp :: rest)) (hs : ∀ b ∈ mp :: rest, Sound h b)
    (hsome : PullsSome h mp len) (hn : rest.length + 1 < n) :
    ∃ r h' rest', pullupmsg n h mp len = some (r, h') ∧ PulledUp B D h h' mp rest' live := by
  have hquiet : PulledUp B D h h mp rest live := ⟨hc, hm, hs, fun _ _ => rfl⟩
  obtain ⟨size, hsize, h0, hle⟩ := xmsgsize_spec hm hs (Nat.le_of_lt hn)
  unfold pullupmsg
  rw [hsize]
  by_cases hall : len = -1
  · rw [if_pos hall]
    by_cases hquick : (h.b_cont mp = none && str_aligned (h.mblk mp).b_rptr) = true
    · rw [if_pos hquick]
      exact ⟨true, h, rest, rfl, hquiet⟩
    · rw [if_neg hquick]
      apply pullup_spec hc hm hs h0 hle _ hn
      intro hz _
      rw [hz] at hsize
      apply (hsome.all hall ⟨n, hsize⟩).resolve_left
      intro hq
      apply hquick
      simpa using hq
  · rw [if_neg hall]
    have hlen := hsome.len_ge
    by_cases hquick : (len ≤ bsz h mp && str_aligned (h.mblk mp).b_rptr) = true
    · rw [if_pos hquick]
      exact ⟨true, h, rest, rfl, hquiet⟩
    · rw [if_neg hquick]
      by_cases hshort : size < len
      · simp only [if_pos hshort]
        exact ⟨false, h, rest, rfl, hquiet⟩
      · simp only [if_neg hshort]
        apply pullup_spec hc hm hs (by omega) (by omega) _ hn
        intro hz hb
        apply (hsome.zero hz hb).resolve_left
        intro hq
        apply hquick
        simp [hq, hz, hb]

end Pullup

end Svr3.Str
