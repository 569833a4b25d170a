import Svr3.Libmalloc.Small

/-!
# Runs of `malloc` and `free` of small blocks

While no `malloc` takes the last little block of a holding block off a list that goes on behind it, the
little blocks that are not busy are on the lists and in the unused tails.
-/

namespace Svr3.Libmalloc

open Function List

/-- `rs` are the holding blocks from `holdhead`. -/
structure Sound (c : Conf) (t : Hist) (rs : List ℕ) : Prop where
  ring : Ring t.sys.nexts t.sys.prevs rs
  head : t.sys.holdhead = rs.head?
  holds : ∀ h, h ∈ t.holds ↔ h ∈ rs
  front : rs.Pairwise fun a b => t.sys.lfreeqs b ≠ none → t.sys.lfreeqs a ≠ none
  apart : ∀ h ∈ rs, ∀ h' ∈ rs, h ≠ h' → h + c.holdsz ≤ h' ∨ h' + c.holdsz ≤ h
  blocks : ∀ h ∈ rs, ∃ u ps, Blocks c t h u ps
  used_at : ∀ p, t.used p = true → ∃ h ∈ rs, ∃ k < c.numlblks, p = c.lblk h k
  live_used : ∀ p, t.live p = true → t.used p = true

/-- A holding block contains its little blocks. -/
theorem lblk_range {c : Conf} (hfit : c.Fits) {h k : ℕ} (hk : k < c.numlblks) :
    h ≤ c.lblk h k ∧ c.lblk h k < h + c.holdsz := by
  have hsz : c.holdsz = spaceOff + c.nb * c.numlblks := Nat.mod_eq_of_lt hfit
  have hend : k * c.nb < c.nb * c.numlblks := by
    rw [Nat.mul_comm c.nb]
    exact Nat.mul_lt_mul_of_pos_right hk (Blocks.nb_pos c)
  rw [hsz, Conf.lblk]
  omega

namespace Sound

variable {c : Conf} {t t' : Hist} {rs : List ℕ} {h h' p u k k' : ℕ} {ps : List ℕ}

theorem lblk_ne (hs : Sound c t rs) (hfit : c.Fits) (hh : h ∈ rs) (hh' : h' ∈ rs)
    (hk : k < c.numlblks) (hk' : k' < c.numlblks) (hne : h' ≠ h) : c.lblk h' k' ≠ c.lblk h k := by
  have hr := lblk_range hfit (h := h) hk
  have hr' := lblk_range hfit (h := h') hk'
  rcases hs.apart h' hh' h hh hne with hle | hle
  · omega
  · omega

/-- A step at one holding block leaves the little blocks of the others alone. -/
theorem blocks_others (hs : Sound c t rs) (hfit : c.Fits) (hh : h ∈ rs) (hk : k < c.numlblks)
    (hlfreeq : ∀ h', h' ≠ h → t'.sys.lfreeqs h' = t.sys.lfreeqs h')
    (hunused : ∀ h', h' ≠ h → t'.sys.unuseds h' = t.sys.unuseds h')
    (hused : ∀ q, q ≠ c.lblk h k → t'.used q = t.used q)
    (hlive : ∀ q, q ≠ c.lblk h k → t'.live q = t.live q)
    (hheader : ∀ q, q ≠ c.lblk h k → t'.sys.header q = t.sys.header q) (hh' : h' ∈ rs)
    (hne : h' ≠ h) : ∃ u ps, Blocks c t' h' u ps := by
  obtain ⟨u, ps, hb⟩ := hs.blocks h' hh'
  refine ⟨u, ps, hb.congr (hlfreeq h' hne) (hunused h' hne) (fun i hi => ?_) (fun i hi => ?_)
    fun i hi => ?_⟩
  · exact hused _ (hs.lblk_ne hfit hh hh' hk hi hne)
  · exact hlive _ (hs.lblk_ne hfit hh hh' hk hi hne)
  · exact hheader _ (hs.lblk_ne hfit hh hh' hk hi hne)

/-- `malloc` looks at the first holding block, and takes the first block of its list. -/
theorem space_eq (hs : Sound c t rs) (hspace : t.sys.space = some (h, p)) :
    ∃ tl, rs = h :: tl ∧ t.sys.lfreeqs h = some p := by
  rw [Sys.space, Option.bind_eq_some_iff] at hspace
  obtain ⟨h0, hhead, hmap⟩ := hspace
  obtain ⟨p0, hp0, heq⟩ := Option.map_eq_some_iff.mp hmap
  rw [Prod.mk.injEq] at heq
  rw [heq.1] at hhead hp0
  rw [heq.2] at hp0
  rw [hs.head] at hhead
  cases rs with
  | nil => exact absurd hhead nofun
  | cons a tl => exact ⟨tl, by rw [Option.some.inj hhead], hp0⟩

end Sound

/-- The first block of the list is the last of the holding block, and nothing is lost behind it. -/
def Lossless (t : Hist) : Prop :=
  ∀ h ∈ t.sys.holdhead, t.sys.lfreeqs h = some (t.sys.unuseds h) →
    t.used (t.sys.unuseds h) = true → (t.sys.header (t.sys.unuseds h)).clrsmal = none

instance (t : Hist) : Decidable (Lossless t) := inferInstanceAs (Decidable (∀ h ∈ _, _))

/-- What `serve` makes of the holding block -/
def served (c : Conf) (h p : ℕ) (s : Sys) : Holdblk :=
  if p < s.unuseds h then { s.hold h with lfreeq := (s.header p).clrsmal }
  else if s.unuseds h + c.nb < h + c.holdsz then
    { s.hold h with unused := s.unuseds h + c.nb, lfreeq := some (s.unuseds h + c.nb) }
  else { s.hold h with lfreeq := none }

/-- A holding block without space is turned to the end of the ring. -/
theorem serve_eq (c : Conf) (h p : ℕ) (s : Sys) :
    serve c h p s = { (s.setHold h (served c h p s)).setHeader p (.holder h) with
      holdhead := if (served c h p s).lfreeq = none then some (s.nexts h) else s.holdhead } := by
  rw [serve, served, Sys.unuseds]
  split
  · split
    next hnone => simp [Sys.setHeader, Sys.setHold, hnone, Sys.nexts]
    next hsome => simp [Sys.setHeader, Sys.setHold]
  · split
    · simp [Sys.setHeader, Sys.setHold]
    · simp [Sys.setHeader, Sys.setHold, Sys.nexts]

namespace Sound

variable {c : Conf} {t t' : Hist} {rs rs' tl : List ℕ} {h h' p u k k' : ℕ} {ps : List ℕ}

/-- A step at block `k` of the holding block `h`, which may move `h` on the ring. -/
theorem on_hold (hs : Sound c t rs) (hfit : c.Fits) (hh : h ∈ rs) (hk : k < c.numlblks)
    (hring : Ring t'.sys.nexts t'.sys.prevs rs') (hperm : rs'.Perm rs)
    (hhead : t'.sys.holdhead = rs'.head?) (hholds : t'.holds = t.holds)
    (hfront : rs'.Pairwise fun a b => t'.sys.lfreeqs b ≠ none → t'.sys.lfreeqs a ≠ none)
    (hb : ∃ u ps, Blocks c t' h u ps)
    (hlfreeq : ∀ h', h' ≠ h → t'.sys.lfreeqs h' = t.sys.lfreeqs h')
    (hunused : ∀ h', h' ≠ h → t'.sys.unuseds h' = t.sys.unuseds h')
    (hused : t'.used = update t.used (c.lblk h k) true)
    (hlive : ∃ v, t'.live = update t.live (c.lblk h k) v)
    (hheader : ∃ x, t'.sys.header = update t.sys.header (c.lblk h k) x) :
    Sound c t' rs' := by
  obtain ⟨v, hlive⟩ := hlive
  obtain ⟨x, hheader⟩ := hheader
  refine ⟨hring, hhead, fun h' => ?_, hfront, fun h1 hh1 h2 hh2 => ?_, fun h' hh' => ?_, fun q hq => ?_,
    fun q hq => ?_⟩
  · rw [hholds, hs.holds, hperm.mem_iff]
  · exact hs.apart h1 (hperm.mem_iff.mp hh1) h2 (hperm.mem_iff.mp hh2)
  · by_cases hne : h' = h
    · exact hne ▸ hb
    · apply hs.blocks_others hfit hh hk hlfreeq hunused _ _ _ (hperm.mem_iff.mp hh') hne
      · intro q hq
        rw [hused, update_of_ne hq]
      · intro q hq
        rw [hlive, update_of_ne hq]
      · intro q hq
        rw [hheader, update_of_ne hq]
  · by_cases hqp : q = c.lblk h k
    · exact ⟨h, hperm.mem_iff.mpr hh, k, hk, hqp⟩
    · rw [hused, update_of_ne hqp] at hq
      obtain ⟨h', hh', i, hi, hqi⟩ := hs.used_at q hq
      exact ⟨h', hperm.mem_iff.mpr hh', i, hi, hqi⟩
  · rw [hused]
    by_cases hqp : q = c.lblk h k
    · rw [hqp, update_self]
    · rw [hlive, update_of_ne hqp] at hq
      rw [update_of_ne hqp]
      exact hs.live_used q hq

/-- What a `malloc` that finds space makes of the little blocks -/
theorem served_blocks (hs : Sound c t (h :: tl)) (hfit : c.Fits) (hl : Lossless t)
    (hp : t.sys.lfreeqs h = some p) :
    (∃ k < c.numlblks, p = c.lblk h k) ∧ t.live p = false ∧
      ∃ u ps, Blocks c (t.grant p t.holds (serve c h p t.sys)) h u ps := by
  obtain ⟨u, ps, hb⟩ := hs.blocks h mem_cons_self
  have hlinked := hb.linked
  have hfirst : (t.sys.hold h).lfreeq = some p := hp
  rw [hfirst] at hlinked
  cases ps with
  | nil => exact absurd hlinked nofun
  | cons q ps =>
    obtain rfl : p = q := Option.some.inj hlinked.1
    obtain ⟨⟨k, hku, hk⟩, hdead⟩ := (hb.mem p).mp mem_cons_self
    refine ⟨⟨k, Nat.lt_of_le_of_lt hku hb.lt, hk⟩, hdead, ?_⟩
    have hg : Blocks.Granted t (t.grant p t.holds (serve c h p t.sys)) h p := by
      refine ⟨rfl, rfl, ?_⟩
      rw [Hist.grant, serve_eq]
      rfl
    have hhold : (t.grant p t.holds (serve c h p t.sys)).sys.hold h = served c h p t.sys := by
      rw [Hist.grant, serve_eq]
      exact update_self _ _ _
    have hnotin := (nodup_cons.mp hb.linked.nodup).1
    have hunused : t.sys.unuseds h = c.lblk h u := hb.unused
    rw [served] at hhold
    split at hhold
    next hlt =>
      -- a block that was used before
      refine ⟨u, ps, hb.pop hg ?_ (by rw [hhold]) fun heq => ?_⟩
      · have hused := hb.used_of_lt mem_cons_self hlt
        have hlink : t.link p = (t.sys.header p).clrsmal := if_pos hused
        rw [congrArg Holdblk.lfreeq hhold, ← hlink]
        exact hg.tail_linked hlinked.2 hnotin
      · rw [heq, hunused] at hlt
        exact absurd hlt (Nat.lt_irrefl _)
    next hge =>
      -- the block is the one at `unused`
      have hpu : p = c.lblk h u := by
        rw [hunused, hk, Blocks.lblk_lt] at hge
        rw [hk, Nat.le_antisymm hku (Nat.not_lt.mp hge)]
      have hlast : t.used (c.lblk h u) = true → (t.sys.header (c.lblk h u)).clrsmal = none := by
        have hend := hl h hs.head
        rw [hp, hunused, hpu] at hend
        exact hend rfl
      have halone := hb.alone (congrArg some hpu) hlast
      split at hhold
      next hroom =>
        rw [hunused, Blocks.room_iff hfit] at hroom
        have hnext : t.sys.unuseds h + c.nb = c.lblk h (u + 1) := by
          rw [hunused, Conf.lblk, Conf.lblk, Nat.add_mul, Nat.one_mul, Nat.add_assoc (h + spaceOff)]
        rw [halone] at hb
        rw [hpu] at hg hhold ⊢
        refine ⟨u + 1, _, hb.advance hg hroom ?_ ?_ hs.live_used⟩
        · rw [congrArg Holdblk.lfreeq hhold, ← hnext]
        · rw [congrArg Holdblk.unused hhold, ← hnext]
      next hfull =>
        have hlastu : u + 1 = c.numlblks := by
          rw [hunused, Blocks.room_iff hfit] at hfull
          have hlt := hb.lt
          omega
        have hnil : ps = [] := (List.cons.inj halone).2
        refine ⟨u, ps, hb.pop hg ?_ (by rw [hhold]) fun _ => hlastu⟩
        rw [congrArg Holdblk.lfreeq hhold, hnil]
        rfl

theorem served_nexthblk (c : Conf) (h p : ℕ) (s : Sys) :
    (served c h p s).nexthblk = s.nexts h ∧ (served c h p s).prevhblk = s.prevs h := by
  rw [served]
  split
  · exact ⟨rfl, rfl⟩
  · split <;> exact ⟨rfl, rfl⟩

/-- The ring after a block of its first holding block was handed out. -/
theorem serve_sound (hs : Sound c t (h :: tl)) (hfit : c.Fits) (hl : Lossless t)
    (hp : t.sys.lfreeqs h = some p) :
    ∃ rs, Sound c (t.grant p t.holds (serve c h p t.sys)) rs := by
  obtain ⟨⟨k, hk, hpk⟩, hdead, hb⟩ := hs.served_blocks hfit hl hp
  obtain ⟨hnexth, hprevh⟩ := served_nexthblk c h p t.sys
  have hnexts : (serve c h p t.sys).nexts = t.sys.nexts := by
    rw [serve_eq]
    change (t.sys.setHold h (served c h p t.sys)).nexts = t.sys.nexts
    rw [Sys.nexts_setHold, hnexth, update_eq_self]
  have hprevs : (serve c h p t.sys).prevs = t.sys.prevs := by
    rw [serve_eq]
    change (t.sys.setHold h (served c h p t.sys)).prevs = t.sys.prevs
    rw [Sys.prevs_setHold, hprevh, update_eq_self]
  have hlfreeqs : (serve c h p t.sys).lfreeqs =
      update t.sys.lfreeqs h (served c h p t.sys).lfreeq := by
    rw [serve_eq]
    exact Sys.lfreeqs_setHold _ _ _
  have hunuseds : (serve c h p t.sys).unuseds =
      update t.sys.unuseds h (served c h p t.sys).unused := by
    rw [serve_eq]
    exact Sys.unuseds_setHold _ _ _
  have hhead : (serve c h p t.sys).holdhead =
      if (served c h p t.sys).lfreeq = none then some (t.sys.nexts h) else t.sys.holdhead := by
    rw [serve_eq]
  have hheader : (serve c h p t.sys).header = update t.sys.header p (.holder h) := by
    rw [serve_eq]
    rfl
  have hnotin := (nodup_cons.mp hs.ring.nodup).1
  have hfront := pairwise_cons.mp hs.front
  have hon {rs : List ℕ} (hring : Ring t.sys.nexts t.sys.prevs rs) (hperm : rs.Perm (h :: tl))
      (hrs : (serve c h p t.sys).holdhead = rs.head?)
      (hpair : rs.Pairwise fun a b => update t.sys.lfreeqs h (served c h p t.sys).lfreeq b ≠
        none → update t.sys.lfreeqs h (served c h p t.sys).lfreeq a ≠ none) :
      Sound c (t.grant p t.holds (serve c h p t.sys)) rs := by
    refine hs.on_hold hfit mem_cons_self hk ?_ hperm hrs rfl ?_ hb (fun h' hh' => ?_)
      (fun h' hh' => ?_) ?_ ⟨true, ?_⟩ ⟨.holder h, ?_⟩
    · change Ring (serve c h p t.sys).nexts (serve c h p t.sys).prevs rs
      rw [hnexts, hprevs]
      exact hring
    · change rs.Pairwise fun a b => (serve c h p t.sys).lfreeqs b ≠ none →
        (serve c h p t.sys).lfreeqs a ≠ none
      rw [hlfreeqs]
      exact hpair
    · change (serve c h p t.sys).lfreeqs h' = _
      rw [hlfreeqs, update_of_ne hh']
    · change (serve c h p t.sys).unuseds h' = _
      rw [hunuseds, update_of_ne hh']
    · rw [← hpk]
      rfl
    · rw [← hpk]
      rfl
    · rw [← hpk]
      exact hheader
  have hsame (a : ℕ) (ha : a ∈ tl) :
      update t.sys.lfreeqs h (served c h p t.sys).lfreeq a = t.sys.lfreeqs a :=
    update_of_ne (ne_of_mem_of_not_mem ha hnotin) _ _
  have htl : tl.Pairwise fun a b => update t.sys.lfreeqs h (served c h p t.sys).lfreeq b ≠
      none → update t.sys.lfreeqs h (served c h p t.sys).lfreeq a ≠ none := by
    apply hfront.2.imp_of_mem
    intro a b ha hb hab
    rw [hsame a ha, hsame b hb]
    exact hab
  by_cases hnone : (served c h p t.sys).lfreeq = none
  · obtain ⟨hrot, hfirst⟩ := hs.ring.rotate
    refine ⟨tl ++ [h], hon hrot (perm_append_singleton h tl) ?_ ?_⟩
    · rw [hhead, if_pos hnone, hfirst]
    · refine pairwise_append.mpr ⟨htl, pairwise_singleton _ h, fun a _ b hb hc => ?_⟩
      rw [mem_singleton.mp hb, update_self] at hc
      exact absurd hnone hc
  · refine ⟨h :: tl, hon hs.ring (List.Perm.refl _) ?_ ?_⟩
    · rw [hhead, if_neg hnone, hs.head]
    · refine pairwise_cons.mpr ⟨fun b _ _ => ?_, htl⟩
      rw [update_self]
      exact hnone

/-- A block that is not busy is left alone by `free`. -/
theorem free_dead (hs : Sound c t rs) (hu : t.used p = true) (hl : t.live p = false) :
    free p t.sys = t.sys := by
  obtain ⟨h, hh, k, hk, rfl⟩ := hs.used_at p hu
  obtain ⟨u, ps, hb⟩ := hs.blocks h hh
  obtain ⟨o, ho⟩ := hb.freed k hk hu hl
  rw [free, ho]

/-- A busy block goes to the front of its list, and its holding block to the front of the ring. -/
theorem free_sound (hs : Sound c t rs) (hfit : c.Fits) (hl : t.live p = true) :
    ∃ rs, Sound c { t with sys := free p t.sys, live := update t.live p false } rs := by
  have hu := hs.live_used p hl
  obtain ⟨h, hh, k, hk, rfl⟩ := hs.used_at p hu
  obtain ⟨u, ps, hb⟩ := hs.blocks h hh
  have hholder := hb.holder k hk hl
  let s1 := (t.sys.setHeader (c.lblk h k) (.nextfree (t.sys.hold h).lfreeq)).setHold h
    { t.sys.hold h with lfreeq := some (c.lblk h k) }
  have hnexts : s1.nexts = t.sys.nexts := by
    rw [Sys.nexts_setHold]
    exact update_eq_self _ _
  have hprevs : s1.prevs = t.sys.prevs := by
    rw [Sys.prevs_setHold]
    exact update_eq_self _ _
  have hlfreeqs : s1.lfreeqs = update t.sys.lfreeqs h (some (c.lblk h k)) :=
    Sys.lfreeqs_setHold _ _ _
  have hunuseds : s1.unuseds = t.sys.unuseds := by
    rw [Sys.unuseds_setHold]
    exact update_eq_self _ _
  -- the ring after the move
  have hon {rs' : List ℕ} {s : Sys} (hsame : Sys.Same s1 { s with holdhead := s1.holdhead })
      (hring : Ring s.nexts s.prevs rs') (hperm : rs'.Perm rs) (hrs : s.holdhead = rs'.head?)
      (hpair : rs'.Pairwise fun a b => s1.lfreeqs b ≠ none → s1.lfreeqs a ≠ none) :
      Sound c { t with sys := s, live := update t.live (c.lblk h k) false } rs' := by
    have hsl : s.lfreeqs = s1.lfreeqs := hsame.1
    have hsu : s.unuseds = s1.unuseds := hsame.2.1
    have hsh : s.header = s1.header := hsame.2.2.1
    refine hs.on_hold hfit hh hk hring hperm hrs rfl ?_ ⟨u, _, hb.push hk hu hl ?_ ?_ rfl rfl hsh⟩
      (fun h' hh' => ?_) (fun h' hh' => ?_) ?_ ⟨false, rfl⟩ ⟨_, hsh⟩
    · change rs'.Pairwise fun a b => s.lfreeqs b ≠ none → s.lfreeqs a ≠ none
      rw [hsl]
      exact hpair
    · change s.lfreeqs h = _
      rw [hsl, hlfreeqs, update_self]
    · change s.unuseds h = t.sys.unuseds h
      rw [hsu, hunuseds]
    · change s.lfreeqs h' = _
      rw [hsl, hlfreeqs, update_of_ne hh']
    · change s.unuseds h' = _
      rw [hsu, hunuseds]
    · exact (update_eq_self_iff.mpr hu.symm).symm
  -- the holding block is in front, and the others are as they were
  have hpair {xs : List ℕ} (hxs : xs.Sublist rs) (hn : h ∉ xs) :
      (h :: xs).Pairwise fun a b => s1.lfreeqs b ≠ none → s1.lfreeqs a ≠ none := by
    rw [hlfreeqs]
    refine pairwise_cons.mpr ⟨fun b _ _ => ?_, (hs.front.sublist hxs).imp_of_mem ?_⟩
    · rw [update_self]
      rintro ⟨⟩
    · intro a b ha hb hab
      rw [update_of_ne (ne_of_mem_of_not_mem ha hn),
        update_of_ne (ne_of_mem_of_not_mem hb hn)]
      exact hab
  have hhead := hs.head
  have hring := hs.ring
  cases rs with
  | nil => exact absurd hh not_mem_nil
  | cons a tl =>
    have hhead1 : s1.holdhead = some a := hhead
    rw [free, hholder]
    dsimp only
    rw [show Sys.holdhead (Sys.setHold _ _ (Sys.setHeader _ _ _)) = some a from hhead1]
    dsimp only
    change ∃ rs, Sound c { t with
      sys := if a ≠ h then ({ s1 with holdhead := some h }.unlink h).link h a else s1
      live := update t.live (c.lblk h k) false } rs
    split
    next hne =>
      have hht : h ∈ tl := (mem_cons.mp hh).resolve_left fun heq => hne heq.symm
      obtain ⟨pre, post, rfl⟩ := append_of_mem hht
      have hperm : (h :: a :: (pre ++ post)).Perm (a :: (pre ++ h :: post)) :=
        (List.Perm.swap a h _).trans (perm_middle.symm.cons a)
      have hnotin : h ∉ a :: (pre ++ post) :=
        (nodup_cons.mp (hperm.nodup_iff.mpr hring.nodup)).1
      have hsame := (Sys.same_unlink { s1 with holdhead := some h } h).trans (Sys.same_link _ h a)
      refine ⟨h :: a :: (pre ++ post), hon ⟨hsame.1, hsame.2.1, hsame.2.2.1, rfl⟩ ?_ hperm hsame.2.2.2
        (hpair ?_ hnotin)⟩
      · apply Sys.ring_link _ hnotin
        apply Sys.ring_unlink
        change Ring s1.nexts s1.prevs _
        rw [hnexts, hprevs]
        exact hring
      · exact ((List.Sublist.refl pre).append (sublist_cons_self h post)).cons_cons a
    next heq =>
      obtain rfl : a = h := not_not.mp heq
      refine ⟨a :: tl, hon ⟨rfl, rfl, rfl, rfl⟩ ?_ (List.Perm.refl _) hhead1
        (hpair (sublist_cons_self a tl) (nodup_cons.mp hring.nodup).1)⟩
      rw [hnexts, hprevs]
      exact hring

/-- The memory of a new holding block is not in the others. -/
theorem fresh_ne (hs : Sound c t rs) (hfit : c.Fits) (hnew : t.Fresh c h) (hh' : h' ∈ rs)
    (hk : k < c.numlblks) (hk' : k' < c.numlblks) : c.lblk h k ≠ c.lblk h' k' := by
  have hr := lblk_range hfit (h := h) hk
  have hr' := lblk_range hfit (h := h') hk'
  rcases hnew.2 h' ((hs.holds h').mpr hh') with hle | hle
  · omega
  · omega

theorem fresh_unused (hs : Sound c t rs) (hfit : c.Fits) (hnew : t.Fresh c h)
    (hk : k < c.numlblks) : t.used (c.lblk h k) = false := by
  by_contra hu
  obtain ⟨h', hh', i, hi, heq⟩ := hs.used_at _ (eq_true_of_ne_false hu)
  exact hs.fresh_ne hfit hnew hh' hk hi heq

/-- A new holding block comes in front of the ring. -/
theorem addHold_sound (hs : Sound c t rs) (hfit : c.Fits) (hnew : t.Fresh c h) :
    Sound c (t.grant (c.lblk h 0) (h :: t.holds) (addHold c h t.sys)) (h :: rs) := by
  have hsz : c.holdsz = spaceOff + c.nb * c.numlblks := Nat.mod_eq_of_lt hfit
  have htwo := c.two_le
  have hnotin : h ∉ rs := by
    intro hh
    have hself := hnew.2 h ((hs.holds h).mpr hh)
    rw [hsz, spaceOff] at hself
    omega
  have hother {h' j : ℕ} (hh' : h' ∈ rs) (hj : j < c.numlblks) : c.lblk h' j ≠ c.lblk h 0 :=
    (hs.fresh_ne hfit hnew hh' (by omega) hj).symm
  -- the ring gets the holding block before anything else is set
  obtain ⟨s1, hs1, hadd, hring⟩ : ∃ s1, Sys.Same t.sys s1 ∧
      addHold c h t.sys = (({ s1 with holdhead := some h }.setHold h
        { s1.hold h with lfreeq := some (c.lblk h 1), unused := c.lblk h 1 }).setHeader (c.lblk h 0)
          (.holder h)) ∧
      Ring s1.nexts s1.prevs (h :: rs) := by
    rw [addHold, hs.head]
    cases hrs : rs with
    | nil =>
      refine ⟨_, (Sys.same_setNext t.sys h h).trans (Sys.same_setPrev _ h h), rfl, ?_⟩
      apply Ring.singleton
      · rw [Sys.nexts_setPrev, Sys.nexts_setNext, update_self]
      · rw [Sys.prevs_setPrev, update_self]
    | cons a tl =>
      refine ⟨_, Sys.same_link t.sys h a, rfl, Sys.ring_link (hrs ▸ hs.ring) (hrs ▸ hnotin)⟩
  obtain ⟨hsl, hsu, hsh, -⟩ := hs1
  have hnexts : (addHold c h t.sys).nexts = s1.nexts := by
    rw [hadd]
    exact (Sys.nexts_setHold _ _ _).trans (update_eq_self _ _)
  have hprevs : (addHold c h t.sys).prevs = s1.prevs := by
    rw [hadd]
    exact (Sys.prevs_setHold _ _ _).trans (update_eq_self _ _)
  have hlfreeqs : (addHold c h t.sys).lfreeqs =
      update t.sys.lfreeqs h (some (c.lblk h 1)) := by
    rw [hadd, ← hsl]
    exact Sys.lfreeqs_setHold _ _ _
  have hunuseds : (addHold c h t.sys).unuseds = update t.sys.unuseds h (c.lblk h 1) := by
    rw [hadd, ← hsu]
    exact Sys.unuseds_setHold _ _ _
  have hheader : (addHold c h t.sys).header =
      update t.sys.header (c.lblk h 0) (.holder h) := by
    rw [hadd, ← hsh]
    rfl
  refine ⟨?_, ?_, fun h' => ?_, ?_, fun h1 hh1 h2 hh2 hne => ?_, fun h' hh' => ?_, fun p hp => ?_,
    fun p hp => ?_⟩
  · change Ring (addHold c h t.sys).nexts (addHold c h t.sys).prevs (h :: rs)
    rw [hnexts, hprevs]
    exact hring
  · change (addHold c h t.sys).holdhead = some h
    rw [hadd]
    rfl
  · change h' ∈ h :: t.holds ↔ h' ∈ h :: rs
    rw [mem_cons, mem_cons, hs.holds]
  · change (h :: rs).Pairwise fun a b => (addHold c h t.sys).lfreeqs b ≠ none →
      (addHold c h t.sys).lfreeqs a ≠ none
    rw [hlfreeqs]
    refine pairwise_cons.mpr ⟨fun b _ _ => ?_, hs.front.imp_of_mem fun {a b} ha hb hab => ?_⟩
    · rw [update_self]
      exact nofun
    · rw [update_of_ne (ne_of_mem_of_not_mem ha hnotin),
        update_of_ne (ne_of_mem_of_not_mem hb hnotin)]
      exact hab
  · rcases mem_cons.mp hh1 with rfl | hh1
    · exact hnew.2 h2 ((hs.holds h2).mpr ((mem_cons.mp hh2).resolve_left hne.symm))
    · rcases mem_cons.mp hh2 with heq | hh2
      · rw [heq]
        exact (hnew.2 h1 ((hs.holds h1).mpr hh1)).symm
      · exact hs.apart h1 hh1 h2 hh2 hne
  · rcases mem_cons.mp hh' with rfl | hh'
    · refine ⟨1, _, Blocks.create htwo (fun _ => hs.fresh_unused hfit hnew) hs.live_used ⟨rfl, rfl, hheader⟩ ?_ ?_⟩
      · change (addHold c h' t.sys).lfreeqs h' = _
        rw [hlfreeqs, update_self]
      · change (addHold c h' t.sys).unuseds h' = _
        rw [hunuseds, update_self]
    · obtain ⟨u, ps, hb⟩ := hs.blocks h' hh'
      have hne : h' ≠ h := ne_of_mem_of_not_mem hh' hnotin
      refine ⟨u, ps, hb.congr ?_ ?_ (fun k hk => ?_) (fun k hk => ?_) fun k hk => ?_⟩
      · change (addHold c h t.sys).lfreeqs h' = t.sys.lfreeqs h'
        rw [hlfreeqs, update_of_ne hne]
      · change (addHold c h t.sys).unuseds h' = t.sys.unuseds h'
        rw [hunuseds, update_of_ne hne]
      · exact update_of_ne (hother hh' hk) _ _
      · exact update_of_ne (hother hh' hk) _ _
      · change (addHold c h t.sys).header _ = _
        rw [hheader]
        exact update_of_ne (hother hh' hk) _ _
  · by_cases hp0 : p = c.lblk h 0
    · exact ⟨h, mem_cons_self, 0, by omega, hp0⟩
    · have hp' : t.used p = true := by
        have hgrant : update t.used (c.lblk h 0) true p = true := hp
        rwa [update_of_ne hp0] at hgrant
      obtain ⟨h', hh', i, hi, heq⟩ := hs.used_at p hp'
      exact ⟨h', mem_cons_of_mem _ hh', i, hi, heq⟩
  · change update t.used (c.lblk h 0) true p = true
    by_cases hp0 : p = c.lblk h 0
    · rw [hp0, update_self]
    · have hp' : t.live p = true := by
        have hgrant : update t.live (c.lblk h 0) true p = true := hp
        rwa [update_of_ne hp0] at hgrant
      rw [update_of_ne hp0]
      exact hs.live_used p hp'

end Sound

def Step (c : Conf) (t : Hist) (a : Act) (t' : Hist) : Prop := next c t a = some t'

def Act.IsMalloc : Act → Prop
  | .malloc _ _ => True
  | .free _ => False

instance (a : Act) : Decidable a.IsMalloc :=
  match a with
  | .malloc _ _ => .isTrue trivial
  | .free _ => .isFalse not_false

/-- The steps that lose no block -/
def Careful (c : Conf) (t : Hist) (a : Act) (t' : Hist) : Prop :=
  Step c t a t' ∧ (a.IsMalloc → Lossless t)

theorem sound_step {c : Conf} (hfit : c.Fits) {t t' : Hist} {a : Act} (hs : ∃ rs, Sound c t rs)
    (ha : Careful c t a t') : ∃ rs, Sound c t' rs := by
  obtain ⟨rs, hs⟩ := hs
  obtain ⟨hstep, hl⟩ := ha
  cases a with
  | malloc nbytes newhold =>
    have hl := hl trivial
    rw [Step, next] at hstep
    split at hstep
    next hok =>
      cases hspace : t.sys.space with
      | some hp =>
        obtain ⟨h, p⟩ := hp
        obtain ⟨tl, rfl, hfree⟩ := hs.space_eq hspace
        have hm : malloc c newhold t.sys = (some p, serve c h p t.sys) := by
          unfold malloc
          rw [hspace]
        rw [hm, if_neg (hspace ▸ nofun)] at hstep
        exact Option.some.inj hstep ▸ hs.serve_sound hfit hl hfree
      | none =>
        cases newhold with
        | none =>
          have hm : malloc c none t.sys = (none, t.sys) := by
            rw [malloc, hspace]
          rw [hm] at hstep
          exact Option.some.inj hstep ▸ ⟨rs, hs⟩
        | some h =>
          have hm : malloc c (some h) t.sys = (some (c.lblk h 0), addHold c h t.sys) := by
            rw [malloc, hspace]
          rw [hm, if_pos hspace] at hstep
          exact Option.some.inj hstep ▸ ⟨_, hs.addHold_sound hfit (hok.2 h rfl)⟩
    next => exact absurd hstep nofun
  | free p =>
    rw [Step, next] at hstep
    split at hstep
    next hu =>
      cases hlive : t.live p with
      | true => exact Option.some.inj hstep ▸ hs.free_sound hfit hlive
      | false =>
        rw [hs.free_dead hu hlive, update_eq_self_iff.mpr hlive.symm] at hstep
        exact Option.some.inj hstep ▸ ⟨rs, hs⟩
    next => exact absurd hstep nofun

/-! ## The law of the little blocks -/

def Conf.lblks (c : Conf) (h : ℕ) : List ℕ := (List.range c.numlblks).map (c.lblk h)

theorem Conf.mem_lblks {c : Conf} {h p : ℕ} :
    p ∈ c.lblks h ↔ ∃ k < c.numlblks, p = c.lblk h k := by
  rw [Conf.lblks, mem_map]
  constructor
  · rintro ⟨k, hk, rfl⟩
    exact ⟨k, mem_range.mp hk, rfl⟩
  · rintro ⟨k, hk, rfl⟩
    exact ⟨k, mem_range.mpr hk, rfl⟩

/-- A pointer to a block that was never used is the end of a list. -/
def Hist.stop (t : Hist) (o : Option ℕ) : Option ℕ := o.filter t.used

/-- The list of each holding block with its unused tail has the blocks that are not busy, `malloc` gets
a holding block when all of them are busy, and it hands out no busy block. -/
structure Law (c : Conf) (t : Hist) : Prop where
  lists : ∀ h ∈ t.holds, ∃ ps,
    Linked (fun p => t.stop (t.sys.header p).clrsmal) (t.stop (t.sys.lfreeqs h)) ps ∧
      (∀ p ∈ ps, p ∈ c.lblks h) ∧ ∀ p ∈ c.lblks h,
        t.live p = false ↔ p ∈ ps ∨ (t.sys.unuseds h ≤ p ∧ t.used p = false)
  available : t.sys.space = none → ∀ h ∈ t.holds, ∀ p ∈ c.lblks h, t.live p = true
  once : ∀ newhold, (∀ h ∈ newhold, t.Fresh c h) → ∀ p,
    (malloc c newhold t.sys).1 = some p → t.live p = false

/-- The blocks of a list that have been used, up to one that has not -/
theorem stop_linked {t : Hist} {ps : List ℕ} {o : Option ℕ} (hl : Linked t.link o ps) :
    Linked (fun p => t.stop (t.sys.header p).clrsmal) (t.stop o) (ps.filter t.used) := by
  induction ps generalizing o with
  | nil =>
    rw [show o = none from hl]
    rfl
  | cons p ps ih =>
    obtain ⟨rfl, htail⟩ := hl
    by_cases hu : t.used p = true
    · have hlink : t.link p = (t.sys.header p).clrsmal := if_pos hu
      rw [filter_cons_of_pos hu, Hist.stop, Option.filter_some_pos hu]
      exact ⟨rfl, ih (hlink ▸ htail)⟩
    · have hlink : t.link p = none := if_neg hu
      rw [hlink] at htail
      have hnil : ps = [] := List.head?_eq_none_iff.mp htail.head.symm
      rw [filter_cons_of_neg hu, hnil, Hist.stop, Option.filter_some_neg (eq_false_of_ne_true hu)]
      rfl

theorem Sound.law {c : Conf} (hfit : c.Fits) {t : Hist} {rs : List ℕ} (hs : Sound c t rs) :
    Law c t := by
  refine ⟨fun h hh => ?_, fun hspace h hh p hp => ?_, fun newhold hok p hp => ?_⟩
  · obtain ⟨u, ps, hb⟩ := hs.blocks h ((hs.holds h).mp hh)
    have hunused : t.sys.unuseds h = c.lblk h u := hb.unused
    refine ⟨ps.filter t.used, stop_linked hb.linked, fun p hp => ?_, fun p hp => ?_⟩
    · obtain ⟨⟨k, hk, rfl⟩, -⟩ := (hb.mem p).mp (mem_of_mem_filter hp)
      exact Conf.mem_lblks.mpr ⟨k, Nat.lt_of_le_of_lt hk hb.lt, rfl⟩
    · obtain ⟨k, hk, rfl⟩ := Conf.mem_lblks.mp hp
      rw [mem_filter, hunused]
      constructor
      · intro hl
        cases hu : t.used (c.lblk h k) with
        | true =>
          -- a used block is not behind block `u`
          have hku : k ≤ u := by
            by_contra hlt
            rw [hb.behind k (Nat.not_le.mp hlt) hk] at hu
            exact absurd hu nofun
          exact .inl ⟨(hb.mem _).mpr ⟨⟨k, hku, rfl⟩, hl⟩, rfl⟩
        | false =>
          refine .inr ⟨Nat.le_of_not_lt fun hlt => ?_, rfl⟩
          rw [hb.before k (Blocks.lblk_lt.mp hlt)] at hu
          exact absurd hu nofun
      · rintro (⟨hin, -⟩ | ⟨-, hu⟩)
        · exact ((hb.mem _).mp hin).2
        · by_contra hl
          rw [hs.live_used _ (eq_true_of_ne_false hl)] at hu
          exact absurd hu nofun
  · have hh' := (hs.holds h).mp hh
    -- no holding block has space, as the first one has none
    have hnone : t.sys.lfreeqs h = none := by
      have hfront := hs.front
      have hhead := hs.head
      cases rs with
      | nil => exact absurd hh' not_mem_nil
      | cons a tl =>
        have hfirst : t.sys.lfreeqs a = none := by
          rw [Sys.space, hhead] at hspace
          exact Option.map_eq_none_iff.mp hspace
        rcases mem_cons.mp hh' with rfl | htl
        · exact hfirst
        · by_contra hc
          exact (pairwise_cons.mp hfront).1 h htl hc hfirst
    obtain ⟨u, ps, hb⟩ := hs.blocks h hh'
    have hnil : ps = [] := by
      have hlinked := hb.linked
      rw [show (t.sys.hold h).lfreeq = none from hnone] at hlinked
      exact List.head?_eq_none_iff.mp hlinked.head.symm
    have hbusy {k : ℕ} (hk : k ≤ u) : t.live (c.lblk h k) = true := by
      by_contra hl
      have hin := (hb.mem _).mpr ⟨⟨k, hk, rfl⟩, eq_false_of_ne_true hl⟩
      rw [hnil] at hin
      exact absurd hin not_mem_nil
    have hlast := hb.last (hs.live_used _ (hbusy (Nat.le_refl u)))
    obtain ⟨k, hk, rfl⟩ := Conf.mem_lblks.mp hp
    exact hbusy (by omega)
  · unfold malloc at hp
    cases hspace : t.sys.space with
    | some hq =>
      obtain ⟨h, q⟩ := hq
      obtain ⟨tl, rfl, hfree⟩ := hs.space_eq hspace
      rw [hspace] at hp
      obtain rfl : q = p := Option.some.inj hp
      obtain ⟨u, ps, hb⟩ := hs.blocks h mem_cons_self
      have hfirst : ps.head? = some q := hb.linked.head.symm.trans hfree
      exact ((hb.mem q).mp (mem_of_head? hfirst)).2
    | none =>
      rw [hspace] at hp
      cases newhold with
      | none => exact absurd hp nofun
      | some h =>
        obtain rfl : c.lblk h 0 = p := Option.some.inj hp
        have htwo := c.two_le
        by_contra hl
        have hu := hs.live_used _ (eq_true_of_ne_false hl)
        rw [hs.fresh_unused hfit (hok h rfl) (by omega)] at hu
        exact absurd hu nofun

theorem sound_init (c : Conf) (hold : ℕ → Holdblk) (header : ℕ → Header) :
    Sound c (Hist.init hold header) [] :=
  ⟨⟨nodup_nil, .nil⟩, rfl, fun _ => Iff.rfl, .nil, nofun, nofun, nofun, nofun⟩

/-- While no list is lost behind the last little block of a holding block, small blocks are never lost. -/
theorem small_blocks_kept {c : Conf} (hfit : c.Fits) {hold : ℕ → Holdblk} {header : ℕ → Header}
    {as : List Act} {t : Hist} (hrun : Run (Careful c) (Hist.init hold header) as t) : Law c t := by
  obtain ⟨rs, hs⟩ := hrun.invariant (fun _ _ _ => sound_step hfit) ⟨[], sound_init c hold header⟩
  exact hs.law hfit

/-- Holding blocks of two little blocks, for 8 bytes each -/
def twoBlocks : Conf := ⟨4, 6, 2, 2, by decide, by decide⟩

/-- Both blocks of the holding block at 1000 are got, and given back with the first one last. -/
def lastFirst : List Act :=
  [.malloc 8 (some 1000), .malloc 8 none, .free 1032, .free 1020, .malloc 8 none]

def blank : Hist := Hist.init (fun _ => ⟨0, 0, none, 0⟩) fun _ => .nextfree none

theorem small_blocks_kept_lastFirst :
    ∃ t, t.live 1020 = true ∧ t.sys.lfreeqs 1000 = some 1032 ∧ Law twoBlocks t := by
  have hrun : ((lastFirst.foldlM (fun t a => if a.IsMalloc → Lossless t then next twoBlocks t a else none)
      blank).any fun t => t.live 1020 = true ∧ t.sys.lfreeqs 1000 = some 1032) = true := by
    decide
  obtain ⟨t, ht, hend⟩ := Run.of_foldlM hrun
  have hcareful : Run (Careful twoBlocks) blank lastFirst t := by
    apply ht.mono
    intro s a t hs
    split at hs
    next hl => exact ⟨hs, hl⟩
    next => exact absurd hs nofun
  have hend' := of_decide_eq_true hend
  exact ⟨t, hend'.1, hend'.2, small_blocks_kept (by unfold Conf.Fits; decide) hcareful⟩

theorem last_loses_first : ¬ ∀ (c : Conf) (hold : ℕ → Holdblk) (header : ℕ → Header) (as : List Act)
    (t : Hist), c.Fits → Run (Step c) (Hist.init hold header) as t → Law c t := by
  intro hall
  have hlost : ((([.malloc 8 (some 1000), .malloc 8 none, .free 1020, .free 1032, .malloc 8 none] :
      List Act).foldlM (next twoBlocks) blank).any fun t =>
        t.sys.space.isNone ∧ 1000 ∈ t.holds ∧ t.live 1020 = false) = true := by
    decide
  obtain ⟨t, hrun, ht⟩ := Run.of_foldlM hlost
  have hspace := of_decide_eq_true ht
  have hlaw := hall twoBlocks _ _ _ t (by unfold Conf.Fits; decide) hrun
  have hlive := hlaw.available (Option.isNone_iff_eq_none.mp hspace.1) 1000 hspace.2.1 1020
    (by decide)
  exact absurd (hlive.symm.trans hspace.2.2) nofun

end Svr3.Libmalloc
