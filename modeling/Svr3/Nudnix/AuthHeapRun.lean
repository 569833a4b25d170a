import Svr3.Nudnix.AuthHeap

/-!
# Runs of `h_alloc` and `h_free`

The blocks tile the heap in increasing order, each busy one belongs to a caller and has room for what he asked
for, and a request fails only when no free blocks that follow each other have room for it.
-/

namespace Svr3.Auth

open Function List

@[simp] theorem h_next_set (s : Heap) (hp w : ℕ) :
    (s.set hp w).h_next = update s.h_next hp w := rfl

@[simp] theorem pavail_set (s : Heap) (hp w : ℕ) : (s.set hp w).pavail = s.pavail := rfl

theorem next_set (s : Heap) (hp w : ℕ) : (s.set hp w).next = update s.next hp (mkfree w) :=
  Function.comp_update _ _ _ _

theorem busy_set (s : Heap) (hp w : ℕ) : (s.set hp w).busy = update s.busy hp (isbusy w) :=
  Function.comp_update _ _ _ _

theorem limit_set (s : Heap) (hp w : ℕ) : (s.set hp w).limit =
    update s.limit hp (if mkfree w ≠ 0 then mkfree w else s.pavail) := by
  funext x
  by_cases hx : x = hp
  · subst hx
    simp [Heap.limit, next_set]
  · simp [Heap.limit, next_set, hx]

theorem bump_spec {n : ℕ} (hn : n < 2 ^ 31) : n ≤ bump n ∧ bump n < n + asize ∧ bump n % asize = 0 := by
  rw [bump, asize]
  split <;> omega

/-- `bs` are the blocks of the heap. -/
structure Blocks (s : Heap) (bs : List ℕ) : Prop where
  tiles : Tiles s.limit (bs ++ [s.pavail])
  head : bs.head? = some 0
  last : ∀ b ∈ bs, s.limit b = s.pavail → s.next b = 0
  aligned : ∀ b ∈ bs, b % asize = 0
  header : ∀ b ∈ bs, b + headSize ≤ s.limit b

namespace Blocks

variable {s s' : Heap} {bs bs' : List ℕ} {b hp q size : ℕ}

theorem lt_pavail (h : Blocks s bs) (hb : b ∈ bs) : b < s.pavail := h.tiles.before b hb

theorem zero_mem (h : Blocks s bs) : 0 ∈ bs := mem_of_mem_head? h.head

/-- The block behind `hp` -/
theorem split_at (h : Blocks s bs) (hp : b ∈ bs) :
    ∃ pre tl, bs = pre ++ b :: tl ∧ (tl ++ [s.pavail]).head? = some (s.limit b) := by
  obtain ⟨pre, tl, rfl⟩ := append_of_mem hp
  refine ⟨pre, tl, rfl, ?_⟩
  obtain ⟨c, cs, hc⟩ : ∃ c cs, tl ++ [s.pavail] = c :: cs :=
    exists_cons_of_ne_nil (append_ne_nil_of_right_ne_nil _ (cons_ne_nil _ []))
  have htiles := h.tiles
  rw [append_assoc, cons_append, hc] at htiles
  rw [hc, htiles.next_eq.1]
  rfl

theorem lt_limit (h : Blocks s bs) (hb : b ∈ bs) : b < s.limit b := by
  have hle := h.header b hb
  rw [headSize] at hle
  omega

theorem limit_mem (h : Blocks s bs) (hb : b ∈ bs) : s.limit b ∈ bs ∨ s.limit b = s.pavail := by
  obtain ⟨pre, tl, rfl, htl⟩ := h.split_at hb
  cases tl with
  | nil => exact .inr (Option.some.inj htl).symm
  | cons q post =>
    obtain rfl : q = s.limit b := Option.some.inj htl
    exact .inl (mem_append_right _ (mem_cons_of_mem _ mem_cons_self))

theorem limit_le (h : Blocks s bs) (hb : b ∈ bs) : s.limit b ≤ s.pavail := by
  rcases h.limit_mem hb with hin | heq
  · exact Nat.le_of_lt (h.lt_pavail hin)
  · exact Nat.le_of_eq heq

/-- No block begins inside of another one. -/
theorem gap (h : Blocks s bs) (hb : b ∈ bs) (hq : q ∈ bs ++ [s.pavail]) : q ≤ b ∨ s.limit b ≤ q := by
  obtain ⟨pre, c, post, hbs, hc⟩ := h.tiles.exists_next hb
  have htiles := h.tiles
  rw [hbs] at htiles hq
  rw [hc]
  exact htiles.gap hq

/-- The link of a block is the offset of the next one, which is no 0, or it is 0 at the end. -/
theorem next_eq (h : Blocks s bs) (hb : b ∈ bs) :
    s.next b = 0 ∧ s.limit b = s.pavail ∨ s.next b ≠ 0 ∧ s.next b = s.limit b ∧ s.next b ∈ bs := by
  by_cases hz : s.next b = 0
  · exact .inl ⟨hz, by rw [Heap.limit, if_neg (not_not.mpr hz)]⟩
  · have heq : s.next b = s.limit b := by rw [Heap.limit, if_pos hz]
    refine .inr ⟨hz, heq, ?_⟩
    rcases h.limit_mem hb with hin | hend
    · exact heq.symm ▸ hin
    · exact absurd (h.last b hb hend) hz

/-- Words that are no links do not matter. -/
theorem congr (h : Blocks s bs) (hav : s'.pavail = s.pavail)
    (hsame : ∀ b ∈ bs, s'.h_next b = s.h_next b) : Blocks s' bs := by
  have hnext {b : ℕ} (hb : b ∈ bs) : s'.next b = s.next b := by rw [Heap.next, hsame b hb, Heap.next]
  have hlimit {b : ℕ} (hb : b ∈ bs) : s'.limit b = s.limit b := by
    rw [Heap.limit, hnext hb, hav, Heap.limit]
  refine ⟨?_, h.head, fun b hb hend => ?_, h.aligned, fun b hb => ?_⟩
  · rw [hav]
    exact h.tiles.congr fun b hb => hlimit hb
  · rw [hnext hb]
    exact h.last b hb (by rw [← hlimit hb, hend, hav])
  · rw [hlimit hb]
    exact h.header b hb

/-- A block is marked busy or free. -/
theorem mark (h : Blocks s bs) {w : ℕ} (hw : mkfree w = s.next b) : Blocks (s.set b w) bs := by
  have hnext : (s.set b w).next = s.next := by rw [next_set, hw, update_eq_self]
  have hlimit : (s.set b w).limit = s.limit := by
    funext x
    rw [Heap.limit, hnext, Heap.limit, pavail_set]
  exact ⟨hlimit.symm ▸ h.tiles, h.head, by rw [hnext, hlimit]; exact h.last, h.aligned,
    by rw [hlimit]; exact h.header⟩

/-- The free block behind the free block `b` becomes a part of it. -/
theorem join (h : Blocks s bs) (hb : b ∈ bs) (hz : s.next b ≠ 0) :
    Blocks (s.set b (s.h_next (s.next b))) (bs.erase (s.next b)) := by
  obtain ⟨hz', -⟩ | ⟨-, hq, hin⟩ := h.next_eq hb
  · exact absurd hz' hz
  obtain ⟨pre, tl, hbs, htl⟩ := h.split_at hb
  rw [← hq] at htl
  cases tl with
  | nil => exact absurd (Option.some.inj htl) (Nat.ne_of_gt (h.lt_pavail hin))
  | cons q post =>
    obtain rfl : q = s.next b := Option.some.inj htl
    have hlt : b < s.next b := hq.symm ▸ h.lt_limit hb
    have hnodup : bs.Nodup := (nodup_append.mp h.tiles.nodup).1
    have hlimit : (s.set b (s.h_next (s.next b))).limit =
        update s.limit b (s.limit (s.next b)) := by
      rw [limit_set]
      rfl
    have herase : bs.erase (s.next b) = pre ++ b :: post := by
      rw [hbs] at hnodup ⊢
      have hnot : s.next b ∉ pre := by
        intro hpre
        exact (nodup_append.mp hnodup).2.2 _ hpre _ (mem_cons_of_mem _ mem_cons_self) rfl
      rw [erase_append_right _ hnot, erase_cons_tail (by simpa using Nat.ne_of_lt hlt),
        erase_cons_head]
    have hsub {x : ℕ} (hx : x ∈ bs.erase (s.next b)) : x ∈ bs := mem_of_mem_erase hx
    refine ⟨?_, ?_, fun x hx hend => ?_, fun x hx => h.aligned x (hsub hx), fun x hx => ?_⟩
    · have htiles := h.tiles
      obtain ⟨c, cs, hc⟩ : ∃ c cs, post ++ [s.pavail] = c :: cs :=
        exists_cons_of_ne_nil (append_ne_nil_of_right_ne_nil _ (cons_ne_nil _ []))
      rw [hbs, append_assoc, cons_append, cons_append, hc] at htiles
      rw [hlimit, herase, append_assoc, cons_append, pavail_set, hc]
      exact htiles.merge (update_self _ _ _) fun x hx => update_of_ne hx _ _
    · have hhead := h.head
      rw [hbs] at hhead
      rw [herase]
      cases pre with
      | nil => exact hhead
      | cons x pre => exact hhead
    · rw [hlimit] at hend
      rw [next_set]
      by_cases hxb : x = b
      · subst hxb
        rw [update_self] at hend ⊢
        exact h.last _ hin hend
      · rw [update_of_ne hxb] at hend ⊢
        exact h.last x (hsub hx) hend
    · rw [hlimit]
      by_cases hxb : x = b
      · subst hxb
        have hle := h.header _ hin
        rw [update_self]
        omega
      · rw [update_of_ne hxb]
        exact h.header x (hsub hx)

/-- The block `b` is cut at `b + n`, and its first part is busy. -/
theorem cut (h : Blocks s bs) (hb : b ∈ bs) {n : ℕ} (hn : n % asize = 0) (hle : headSize ≤ n)
    (hroom : b + n + headSize ≤ s.limit b) :
    ∃ bs', Blocks ((s.set (b + n) (s.h_next b)).set b (mkbusy (b + n))) bs' ∧
      ∀ x, x ∈ bs' ↔ x ∈ bs ∨ x = b + n := by
  obtain ⟨pre, tl, hbs, htl⟩ := h.split_at hb
  obtain ⟨c, cs, hc⟩ : ∃ c cs, tl ++ [s.pavail] = c :: cs :=
    exists_cons_of_ne_nil (append_ne_nil_of_right_ne_nil _ (cons_ne_nil _ []))
  have hcl : c = s.limit b := by
    rw [hc] at htl
    exact Option.some.inj htl
  have hal := h.aligned b hb
  rw [headSize] at hle hroom
  have hbn : b + n ≠ b := by omega
  have hpos : mkfree (mkbusy (b + n)) = b + n := by
    rw [asize] at hn hal
    rw [mkfree, mkbusy]
    omega
  have hlimit : ((s.set (b + n) (s.h_next b)).set b (mkbusy (b + n))).limit =
      update (update s.limit (b + n) (s.limit b)) b (b + n) := by
    have hne : b + n ≠ 0 := by omega
    rw [limit_set, limit_set, hpos, if_pos hne]
    rfl
  have hmem (x : ℕ) : x ∈ pre ++ b :: (b + n) :: tl ↔ x ∈ bs ∨ x = b + n := by
    rw [hbs]
    simp only [mem_append, mem_cons]
    grind
  have hnew : ∀ x ∈ bs, x ≠ b + n := by
    intro x hx heq
    have hgap := h.gap hb (mem_append_left [s.pavail] hx)
    omega
  refine ⟨pre ++ b :: (b + n) :: tl, ⟨?_, ?_, fun x hx hend => ?_, fun x hx => ?_, fun x hx => ?_⟩, hmem⟩
  · have htiles := h.tiles
    rw [hbs, append_assoc, cons_append, hc] at htiles
    rw [hlimit, append_assoc, cons_append, cons_append, pavail_set, pavail_set, hc]
    apply htiles.cut (by omega) (by omega) (update_self _ _ _)
    · rw [update_of_ne hbn, update_self, hcl]
    · intro x hxb hxn
      rw [update_of_ne hxb, update_of_ne hxn]
  · have hhead := h.head
    rw [hbs] at hhead
    cases pre with
    | nil => exact hhead
    | cons x pre => exact hhead
  · rw [hlimit] at hend
    rw [next_set, next_set]
    by_cases hxb : x = b
    · subst hxb
      rw [update_self] at hend
      have hav := h.limit_le hb
      rw [pavail_set, pavail_set] at hend
      omega
    · rw [update_of_ne hxb] at hend ⊢
      by_cases hxn : x = b + n
      · subst hxn
        rw [update_self] at hend ⊢
        exact h.last b hb hend
      · rw [update_of_ne hxn] at hend ⊢
        exact h.last x (((hmem x).mp hx).resolve_right hxn) hend
  · rcases (hmem x).mp hx with hx | rfl
    · exact h.aligned x hx
    · rw [asize] at *
      omega
  · rw [hlimit, headSize]
    by_cases hxb : x = b
    · subst hxb
      rw [update_self]
      omega
    · rw [update_of_ne hxb]
      rcases (hmem x).mp hx with hx | rfl
      · rw [update_of_ne (hnew x hx)]
        exact h.header x hx
      · rw [update_self]
        exact hroom

end Blocks

/-- The free blocks from `a` to `e` follow each other. -/
structure FreeRun (s : Heap) (bs : List ℕ) (a e : ℕ) : Prop where
  first : a ∈ bs
  lt : a < e
  limit : e ∈ bs ++ [s.pavail]
  free : ∀ b ∈ bs, a ≤ b → b < e → s.busy b = false

/-- Busy blocks stay, with what is in them, and none but `new` become busy. -/
structure Keeps (s s' : Heap) (bs bs' : List ℕ) (new : ℕ → Prop) : Prop where
  blocks : Blocks s' bs'
  ready : s'.ready = s.ready
  pavail : s'.pavail = s.pavail
  kept : ∀ x ∈ bs, s.busy x = true → x ∈ bs' ∧ ∀ a, x ≤ a → a < s.limit x → s'.h_next a = s.h_next a
  old : ∀ x ∈ bs', s'.busy x = true → x ∈ bs ∧ s.busy x = true ∨ new x

namespace Keeps

variable {s s' s'' : Heap} {bs bs' bs'' : List ℕ} {new : ℕ → Prop}

theorem limit_eq (h : Blocks s bs) (hk : Keeps s s' bs bs' new) {x : ℕ} (hx : x ∈ bs)
    (hbusy : s.busy x = true) : s'.limit x = s.limit x := by
  have hword := (hk.kept x hx hbusy).2 x (Nat.le_refl x) (h.lt_limit hx)
  rw [Heap.limit, Heap.next, hword, hk.pavail]
  rfl

theorem busy_eq (h : Blocks s bs) (hk : Keeps s s' bs bs' new) {x : ℕ} (hx : x ∈ bs)
    (hbusy : s.busy x = true) : s'.busy x = true := by
  have hword := (hk.kept x hx hbusy).2 x (Nat.le_refl x) (h.lt_limit hx)
  rw [Heap.busy, hword]
  exact hbusy

theorem refl (h : Blocks s bs) : Keeps s s bs bs fun _ => False :=
  ⟨h, rfl, rfl, fun _ hx _ => ⟨hx, fun _ _ _ => rfl⟩, fun _ hx hb => .inl ⟨hx, hb⟩⟩

theorem trans (h : Blocks s bs) (hk : Keeps s s' bs bs' fun _ => False)
    (hk' : Keeps s' s'' bs' bs'' new) : Keeps s s'' bs bs'' new := by
  refine ⟨hk'.blocks, hk'.ready.trans hk.ready, hk'.pavail.trans hk.pavail, fun x hx hb => ?_,
    fun x hx hb => ?_⟩
  · obtain ⟨hx', hmem⟩ := hk.kept x hx hb
    obtain ⟨hx'', hmem'⟩ := hk'.kept x hx' (hk.busy_eq h hx hb)
    refine ⟨hx'', fun a ha hlt => ?_⟩
    rw [hmem' a ha (hk.limit_eq h hx hb ▸ hlt), hmem a ha hlt]
  · rcases hk'.old x hx hb with ⟨hx', hb'⟩ | hnew
    · exact .inl ((hk.old x hx' hb').resolve_right id)
    · exact .inr hnew

end Keeps

/-- A free block is not inside of a busy one. -/
theorem Blocks.outside {s : Heap} {bs : List ℕ} {hp x : ℕ} (h : Blocks s bs) (hb : hp ∈ bs)
    (hidle : s.busy hp = false) (hx : x ∈ bs) (hbusy : s.busy x = true) :
    s.limit hp ≤ x ∨ s.limit x ≤ hp := by
  have hne : x ≠ hp := by
    intro heq
    rw [heq, hidle] at hbusy
    exact absurd hbusy nofun
  have hlt := h.lt_limit hx
  rcases h.gap hx (mem_append_left _ hb) with hle | hle
  · rcases h.gap hb (mem_append_left _ hx) with hle' | hle'
    · omega
    · exact .inl hle'
  · exact .inr hle

/-- Merging loses none but free blocks behind `hp`, up to a busy one or the end. -/
structure Merged (hp : ℕ) (s s' : Heap) (bs bs' : List ℕ) : Prop where
  keeps : Keeps s s' bs bs' fun _ => False
  same : ∀ x, x ≠ hp → s'.h_next x = s.h_next x
  mem : hp ∈ bs'
  idle : s'.busy hp = false
  sub : ∀ x ∈ bs', x ∈ bs
  grows : s.limit hp ≤ s'.limit hp
  inside : ∀ x ∈ bs, x ∉ bs' → hp < x ∧ x < s'.limit hp
  stop : s'.limit hp = s'.pavail ∨ s'.busy (s'.limit hp) = true

theorem join_keeps {s : Heap} {bs : List ℕ} {hp : ℕ} (h : Blocks s bs) (hb : hp ∈ bs)
    (hidle : s.busy hp = false) (hz : s.next hp ≠ 0) (hq : s.busy (s.next hp) = false) :
    Keeps s (s.set hp (s.h_next (s.next hp))) bs (bs.erase (s.next hp)) fun _ => False := by
  have hbusy : (s.set hp (s.h_next (s.next hp))).busy hp = false := by
    rw [busy_set, update_self]
    exact hq
  refine ⟨h.join hb hz, rfl, rfl, fun x hx hxb => ⟨?_, fun a ha hlt => ?_⟩, fun x hx hxb => .inl ?_⟩
  · apply (mem_erase_of_ne _).mpr hx
    rintro rfl
    rw [hq] at hxb
    exact absurd hxb nofun
  · have hlimit := h.lt_limit hb
    have hout := h.outside hb hidle hx hxb
    exact update_of_ne (by omega) _ _
  · have hne : x ≠ hp := by
      rintro rfl
      rw [hbusy] at hxb
      exact absurd hxb nofun
    rw [busy_set, update_of_ne hne] at hxb
    exact ⟨mem_of_mem_erase hx, hxb⟩

theorem merge_spec {s : Heap} {bs : List ℕ} {hp fuel : ℕ} (h : Blocks s bs) (hb : hp ∈ bs)
    (hidle : s.busy hp = false) (hfuel : s.pavail - s.limit hp < fuel) :
    ∃ s' bs', merge hp fuel s = some s' ∧ Merged hp s s' bs bs' := by
  induction fuel generalizing s bs with
  | zero => exact absurd hfuel (Nat.not_lt_zero _)
  | succ fuel ih =>
    rw [merge]
    by_cases hc : s.next hp ≠ 0 ∧ s.busy (s.next hp) = false
    · rw [if_pos hc]
      obtain ⟨hz, hq⟩ := hc
      obtain ⟨hz', -⟩ | ⟨-, hnext, hin⟩ := h.next_eq hb
      · exact absurd hz' hz
      have hk := join_keeps h hb hidle hz hq
      have hlt := h.lt_limit hin
      have hlt0 := h.lt_limit hb
      have hle := h.limit_le hin
      have hlimit : (s.set hp (s.h_next (s.next hp))).limit hp = s.limit (s.next hp) := by
        rw [limit_set, update_self]
        rfl
      have hne : hp ≠ s.next hp := by omega
      have hb' : hp ∈ bs.erase (s.next hp) := (mem_erase_of_ne hne).mpr hb
      have hidle' : (s.set hp (s.h_next (s.next hp))).busy hp = false := by
        rw [busy_set, update_self]
        exact hq
      obtain ⟨s', bs', hm, hM⟩ := ih hk.blocks hb' hidle' (by rw [hlimit, pavail_set]; omega)
      have hgrows := hM.grows
      rw [hlimit] at hgrows
      refine ⟨s', bs', hm, hk.trans h hM.keeps, fun x hx => ?_, hM.mem, hM.idle,
        fun x hx => mem_of_mem_erase (hM.sub x hx), by omega, fun x hx hnot => ?_, hM.stop⟩
      · rw [hM.same x hx]
        exact update_of_ne hx _ _
      · by_cases hxq : x = s.next hp
        · omega
        · exact hM.inside x ((mem_erase_of_ne hxq).mpr hx) hnot
    · rw [if_neg hc]
      refine ⟨s, bs, rfl, .refl h, fun _ _ => rfl, hb, hidle, fun _ hx => hx, Nat.le_refl _,
        fun x hx hnot => absurd hx hnot, ?_⟩
      rcases h.next_eq hb with ⟨-, hend⟩ | ⟨hz, hnext, -⟩
      · exact .inl hend
      · rw [← hnext]
        exact .inr (by simpa [hz] using hc)

/-- The block `hp` is the caller's. -/
structure Taken (size hp : ℕ) (s s' : Heap) (bs bs' : List ℕ) : Prop where
  keeps : Keeps s s' bs bs' fun x => x = hp
  mem : hp ∈ bs
  idle : s.busy hp = false
  mem' : hp ∈ bs'
  busy : s'.busy hp = true
  room : hp + headSize + size ≤ s'.limit hp

theorem mark_busy (x : ℕ) : mkfree (mkbusy x) = mkfree x ∧ isbusy (mkbusy x) = true := by
  rw [mkfree, mkfree, mkbusy, isbusy]
  exact ⟨by omega, decide_eq_true (by omega)⟩

theorem take_some {size hp : ℕ} {s s' : Heap} {bs : List ℕ} (h : Blocks s bs) (hb : hp ∈ bs)
    (hidle : s.busy hp = false) (hsize : size % asize = 0) (ht : take size hp s = some s') :
    ∃ bs', Taken size hp s s' bs bs' := by
  have hlimit := h.lt_limit hb
  rw [take] at ht
  split at ht
  next hbig =>
    -- what is left of the block is free
    have hroom : hp + (size + headSize) + headSize ≤ s.limit hp := by
      rw [howbig] at hbig
      omega
    have hal : (size + headSize) % asize = 0 := by
      rw [asize, headSize] at *
      omega
    obtain ⟨bs', hbs', hmem⟩ := h.cut hb hal (Nat.le_add_left _ _) hroom
    obtain rfl := Option.some.inj ht
    have hne : hp + (size + headSize) ≠ hp := by
      rw [headSize]
      omega
    have hlim : ((s.set (hp + (size + headSize)) (s.h_next hp)).set hp
        (mkbusy (hp + (size + headSize)))).limit hp = hp + (size + headSize) := by
      have hal' := h.aligned hp hb
      have hword : mkfree (mkbusy (hp + (size + headSize))) = hp + (size + headSize) := by
        rw [(mark_busy _).1, mkfree]
        rw [asize, headSize] at *
        omega
      rw [limit_set, update_self, hword, if_pos (by rw [headSize]; omega)]
    refine ⟨bs', ⟨hbs', rfl, rfl, fun x hx hxb => ⟨(hmem x).mpr (.inl hx), fun a ha hlt => ?_⟩,
      fun x hx hxb => ?_⟩, hb, hidle, (hmem hp).mpr (.inl hb), ?_, ?_⟩
    · have hout := h.outside hb hidle hx hxb
      rw [headSize] at hroom
      rw [h_next_set, h_next_set, update_of_ne (by omega),
        update_of_ne (by rw [headSize]; omega)]
    · by_cases hxp : x = hp
      · exact .inr hxp
      · left
        rw [busy_set, busy_set, update_of_ne hxp] at hxb
        by_cases hxn : x = hp + (size + headSize)
        · rw [hxn, update_self] at hxb
          exact absurd (hidle.symm.trans hxb) nofun
        · rw [update_of_ne hxn] at hxb
          exact ⟨((hmem x).mp hx).resolve_right hxn, hxb⟩
    · rw [busy_set, update_self]
      exact (mark_busy _).2
    · rw [hlim]
      omega
  next =>
    split at ht
    next hfit =>
      obtain rfl := Option.some.inj ht
      have hmark : mkfree (mkbusy (s.h_next hp)) = s.next hp := (mark_busy _).1
      refine ⟨bs, ⟨h.mark hmark, rfl, rfl, fun x hx hxb => ⟨hx, fun a ha hlt => ?_⟩,
        fun x hx hxb => ?_⟩, hb, hidle, hb, ?_, ?_⟩
      · have hout := h.outside hb hidle hx hxb
        exact update_of_ne (by omega) _ _
      · by_cases hxp : x = hp
        · exact .inr hxp
        · rw [busy_set, update_of_ne hxp] at hxb
          exact .inl ⟨hx, hxb⟩
      · rw [busy_set, update_self]
        exact (mark_busy _).2
      · have hlim : (s.set hp (mkbusy (s.h_next hp))).limit hp = s.limit hp := by
          rw [limit_set, update_self, hmark]
          rfl
        rw [howbig] at hfit
        omega
    next => exact absurd ht nofun

theorem take_none {size hp : ℕ} {s : Heap} (ht : take size hp s = none) :
    s.limit hp < hp + headSize + size := by
  rw [take] at ht
  split at ht
  next => exact absurd ht nofun
  next =>
    split at ht
    next => exact absurd ht nofun
    next hfit =>
      rw [howbig] at hfit
      omega

/-- How a search from `hp` ends: with a block for the caller, or with no free blocks that have room. -/
inductive Outcome (size hp : ℕ) (s : Heap) (bs : List ℕ) : Option ℕ × Heap → Prop
  | found {b : ℕ} {s' : Heap} {bs' : List ℕ} (h : Taken size b s s' bs bs') :
      Outcome size hp s bs (some (b + headSize), s')
  | full {s' : Heap} {bs' : List ℕ} (h : Keeps s s' bs bs' fun _ => False)
      (hroom : ∀ a e, hp ≤ a → FreeRun s bs a e → e < a + headSize + size) :
      Outcome size hp s bs (none, s')

theorem Merged.blocks {hp : ℕ} {s s' : Heap} {bs bs' : List ℕ} (hm : Merged hp s s' bs bs') :
    Blocks s' bs' := hm.keeps.blocks

/-- Free blocks that follow each other do not go beyond those that were merged. -/
theorem Merged.within {hp a e : ℕ} {s s' : Heap} {bs bs' : List ℕ} (h : Blocks s bs)
    (hm : Merged hp s s' bs bs') (hf : FreeRun s bs a e) (hlt : a < s'.limit hp) :
    e ≤ s'.limit hp := by
  have hend : e ≤ s.pavail := by
    rcases mem_append.mp hf.limit with he | he
    · exact Nat.le_of_lt (h.lt_pavail he)
    · exact Nat.le_of_eq (mem_singleton.mp he)
  rcases hm.blocks.limit_mem hm.mem with hin | htop
  · by_contra hgt
    rcases hm.stop with hstop | hbusy
    · exact absurd (hm.blocks.lt_pavail hin) (by omega)
    · obtain ⟨hin', hbusy'⟩ := (hm.keeps.old _ hin hbusy).resolve_right id
      rw [hf.free _ hin' (Nat.le_of_lt hlt) (by omega)] at hbusy'
      exact absurd hbusy' nofun
  · rw [htop, hm.keeps.pavail]
    exact hend

/-- Free blocks behind those that were merged are as they were. -/
theorem Merged.freeRun {hp a e : ℕ} {s s' : Heap} {bs bs' : List ℕ} (hm : Merged hp s s' bs bs')
    (hf : FreeRun s bs a e) (hle : s'.limit hp ≤ a) : FreeRun s' bs' a e := by
  refine ⟨?_, hf.lt, ?_, fun b hb hab hbe => ?_⟩
  · by_contra hnot
    exact absurd (hm.inside a hf.first hnot).2 (Nat.not_lt.mpr hle)
  · rw [hm.keeps.pavail]
    rcases mem_append.mp hf.limit with he | he
    · apply mem_append_left
      by_contra hnot
      have hlt := (hm.inside e he hnot).2
      have hae := hf.lt
      omega
    · exact mem_append_right _ he
  · rw [Bool.eq_false_iff]
    intro hbusy
    obtain ⟨hb', hbusy'⟩ := (hm.keeps.old b hb hbusy).resolve_right id
    rw [hf.free b hb' hab hbe] at hbusy'
    exact absurd hbusy' nofun

theorem Taken.back {size b : ℕ} {s s' s'' : Heap} {bs bs' bs'' : List ℕ} (h : Blocks s bs)
    (hk : Keeps s s' bs bs' fun _ => False) (hsub : ∀ x ∈ bs', x ∈ bs)
    (ht : Taken size b s' s'' bs' bs'') : Taken size b s s'' bs bs'' := by
  refine ⟨hk.trans h ht.keeps, hsub b ht.mem, ?_, ht.mem', ht.busy, ht.room⟩
  rw [Bool.eq_false_iff]
  intro hbusy
  have hbusy' := hk.busy_eq h (hsub b ht.mem) hbusy
  rw [ht.idle] at hbusy'
  exact absurd hbusy' nofun

/-- An outcome of the rest of the search is one of the whole, when the blocks before the rest have no room. -/
theorem Outcome.back {size hp hp' : ℕ} {s s' : Heap} {bs bs' : List ℕ} {r : Option ℕ × Heap}
    (h : Blocks s bs) (hk : Keeps s s' bs bs' fun _ => False) (hsub : ∀ x ∈ bs', x ∈ bs)
    (hroom : ∀ a e, hp ≤ a → FreeRun s bs a e →
      e < a + headSize + size ∨ hp' ≤ a ∧ FreeRun s' bs' a e)
    (ho : Outcome size hp' s' bs' r) : Outcome size hp s bs r := by
  cases ho with
  | found ht => exact .found (ht.back h hk hsub)
  | full hk' hroom' =>
    refine .full (hk.trans h hk') fun a e ha hf => ?_
    rcases hroom a e ha hf with hlt | ⟨hle, hf'⟩
    · exact hlt
    · exact hroom' a e hle hf'

/-- A search ends with an outcome. -/
theorem search_spec {s : Heap} {bs : List ℕ} {size hp fuel : ℕ} (h : Blocks s bs) (hb : hp ∈ bs)
    (hsize : size % asize = 0) (hfuel : s.pavail - hp < fuel) :
    ∃ r, search size fuel hp s = some r ∧ Outcome size hp s bs r := by
  induction fuel generalizing s bs hp with
  | zero => exact absurd hfuel (Nat.not_lt_zero _)
  | succ fuel ih =>
    have hadvance {s' : Heap} {bs' : List ℕ} (h' : Blocks s' bs') (hb' : hp ∈ bs')
        (hav : s'.pavail = s.pavail) :
        ∃ r, (if s'.next hp ≠ 0 then search size fuel (s'.next hp) s' else some (none, s')) = some r ∧
          Outcome size (s'.limit hp) s' bs' r := by
      have hlt := h'.lt_limit hb'
      rcases h'.next_eq hb' with ⟨hz, hend⟩ | ⟨hz, hnext, hin⟩
      · rw [if_neg (not_not.mpr hz)]
        refine ⟨_, rfl, .full (.refl h') fun a e ha hf => ?_⟩
        exact absurd (h'.lt_pavail hf.first) (by omega)
      · rw [if_pos hz, ← hnext]
        have hlt' := h'.lt_pavail hin
        exact ih h' hin (by omega)
    rw [search]
    by_cases hbusy : s.busy hp = true
    · rw [if_pos hbusy]
      obtain ⟨r, hr, ho⟩ := hadvance h hb rfl
      refine ⟨r, hr, ho.back h (.refl h) (fun _ hx => hx) fun a e ha hf => ?_⟩
      have hne : a ≠ hp := by
        intro heq
        have hfree := hf.free a hf.first (Nat.le_refl a) hf.lt
        rw [heq, hbusy] at hfree
        exact absurd hfree nofun
      rcases h.gap hb (mem_append_left _ hf.first) with hle | hle
      · omega
      · exact .inr ⟨hle, hf⟩
    · rw [if_neg hbusy]
      have hlt := h.lt_limit hb
      have hroom : s.pavail - s.limit hp < fuel + 1 := by omega
      obtain ⟨s', bs', hm, hM⟩ := merge_spec h hb (Bool.eq_false_iff.mpr hbusy) hroom
      rw [hm]
      dsimp only
      cases ht : take size hp s' with
      | some s'' =>
        obtain ⟨bs'', hT⟩ := take_some hM.blocks hM.mem hM.idle hsize ht
        exact ⟨_, rfl, .found (hT.back h hM.keeps hM.sub)⟩
      | none =>
        obtain ⟨r, hr, ho⟩ := hadvance hM.blocks hM.mem hM.keeps.pavail
        have hsmall := take_none ht
        refine ⟨r, hr, ho.back h hM.keeps hM.sub fun a e ha hf => ?_⟩
        by_cases hlt' : a < s'.limit hp
        · have hle := hM.within h hf hlt'
          exact .inl (by omega)
        · exact .inr ⟨Nat.not_lt.mp hlt', hM.freeRun hf (Nat.not_lt.mp hlt')⟩

/-- What the callers do: they get blocks and give them back, and store words in those they have. -/
inductive Act
  | h_alloc (fuel size : ℕ)
  | h_free (p : ℕ)
  | store (p i w : ℕ)

/-- The heap, and for each offset the size that a caller has asked for there -/
structure Hist where
  sys : Heap
  live : ℕ → Option ℕ

def Hist.next (rfsize : ℕ) (t : Hist) : Act → Option Hist
  | .h_alloc fuel size =>
    if size < 2 ^ 31 then
      (h_alloc rfsize fuel size t.sys).map fun r =>
        match r with
        | (none, s) => ⟨s, t.live⟩
        | (some p, s) => ⟨s, update t.live p (some size)⟩
    else none
  | .h_free p =>
    if (t.live p).isSome then some ⟨h_free p t.sys, update t.live p none⟩ else none
  | .store p i w =>
    if (t.live p).any (asize * i < ·) then some ⟨t.sys.set (p + asize * i) w, t.live⟩ else none

/-- The busy blocks are those that callers have, with room for them. -/
structure Held (s : Heap) (bs : List ℕ) (live : ℕ → Option ℕ) : Prop where
  own : ∀ p n, live p = some n →
    ∃ b ∈ bs, p = b + headSize ∧ s.busy b = true ∧ p + n ≤ s.limit b
  owned : ∀ b ∈ bs, s.busy b = true → (live (b + headSize)).isSome

/-- The heap is not made yet, or it has blocks. -/
def Inv (rfsize : ℕ) (t : Hist) : Prop :=
  t.sys.ready = false ∧ (∀ p, t.live p = none) ∨
    t.sys.ready = true ∧ t.sys.pavail = rfsize ∧ ∃ bs, Blocks t.sys bs ∧ Held t.sys bs t.live

theorem start_ready {s : Heap} (rfsize : ℕ) (h : s.ready = true) : start rfsize s = s := if_pos h

theorem start_blocks {s : Heap} {rfsize : ℕ} (hr : headSize ≤ rfsize) (h : s.ready = false) :
    Blocks (start rfsize s) [0] ∧ (start rfsize s).busy 0 = false := by
  have hstart : start rfsize s = ({ s with ready := true, pavail := rfsize } : Heap).set 0 0 :=
    if_neg (by rw [h]; nofun)
  have hlimit : (start rfsize s).limit 0 = rfsize := by
    rw [hstart, limit_set, update_self]
    rfl
  have hav : (start rfsize s).pavail = rfsize := by
    rw [hstart]
    rfl
  have hpos : 0 < rfsize := Nat.lt_of_lt_of_le (by decide) hr
  refine ⟨⟨?_, rfl, fun b hb _ => ?_, fun b hb => ?_, fun b hb => ?_⟩, ?_⟩
  · rw [hav]
    exact .cons_cons ⟨hpos, hlimit⟩ (.singleton _)
  · rw [mem_singleton.mp hb, hstart, next_set, update_self]
    rfl
  · rw [mem_singleton.mp hb]
    rfl
  · rw [mem_singleton.mp hb, hlimit, Nat.zero_add]
    exact hr
  · rw [hstart, busy_set, update_self]
    rfl

theorem Inv.start {rfsize : ℕ} {t : Hist} (hr : headSize ≤ rfsize) (h : Inv rfsize t) :
    (start rfsize t.sys).ready = true ∧ (Auth.start rfsize t.sys).pavail = rfsize ∧
      ∃ bs, Blocks (Auth.start rfsize t.sys) bs ∧ Held (Auth.start rfsize t.sys) bs t.live := by
  rcases h with ⟨hready, hnone⟩ | ⟨hready, h⟩
  · obtain ⟨hb, hidle⟩ := start_blocks hr hready
    have hstart : Auth.start rfsize t.sys =
        ({ t.sys with ready := true, pavail := rfsize } : Heap).set 0 0 :=
      if_neg (by rw [hready]; nofun)
    refine ⟨by rw [hstart]; rfl, by rw [hstart]; rfl, [0], hb, fun p n hp => ?_, fun b hb hbusy => ?_⟩
    · rw [hnone p] at hp
      exact absurd hp nofun
    · rw [mem_singleton.mp hb, hidle] at hbusy
      exact absurd hbusy nofun
  · rw [start_ready rfsize hready]
    exact ⟨hready, h⟩

/-- Callers have blocks of a heap that is made. -/
theorem Inv.held {rfsize : ℕ} {t : Hist} {p : ℕ} (h : Inv rfsize t) (hp : (t.live p).isSome) :
    t.sys.ready = true ∧ t.sys.pavail = rfsize ∧ ∃ bs n, Blocks t.sys bs ∧ Held t.sys bs t.live ∧
      t.live p = some n := by
  obtain ⟨n, hn⟩ := Option.isSome_iff_exists.mp hp
  rcases h with ⟨-, hnone⟩ | ⟨hready, hav, bs, hb, hl⟩
  · rw [hnone p] at hn
    exact absurd hn nofun
  · exact ⟨hready, hav, bs, n, hb, hl, hn⟩

namespace Held

variable {s s' : Heap} {bs bs' : List ℕ} {live : ℕ → Option ℕ} {p n b size : ℕ}

/-- Callers keep their blocks. -/
theorem keep (h : Blocks s bs) (hl : Held s bs live) (hk : Keeps s s' bs bs' fun _ => False) :
    Held s' bs' live := by
  refine ⟨fun p n hp => ?_, fun b hb hbusy => ?_⟩
  · obtain ⟨b, hb, hpb, hbusy, hroom⟩ := hl.own p n hp
    exact ⟨b, (hk.kept b hb hbusy).1, hpb, hk.busy_eq h hb hbusy, by rw [hk.limit_eq h hb hbusy]; exact hroom⟩
  · obtain ⟨hb', hbusy'⟩ := (hk.old b hb hbusy).resolve_right id
    exact hl.owned b hb' hbusy'

/-- A caller has a new block. -/
theorem take (h : Blocks s bs) (hl : Held s bs live) (ht : Taken size b s s' bs bs') (hn : n ≤ size) :
    Held s' bs' (update live (b + headSize) (some n)) := by
  refine ⟨fun p m hp => ?_, fun x hx hbusy => ?_⟩
  · by_cases hpb : p = b + headSize
    · subst hpb
      rw [update_self] at hp
      obtain rfl := Option.some.inj hp
      exact ⟨b, ht.mem', rfl, ht.busy, Nat.le_trans (Nat.add_le_add_left hn _) ht.room⟩
    · rw [update_of_ne hpb] at hp
      obtain ⟨x, hx, hpx, hbusy, hroom⟩ := hl.own p m hp
      exact ⟨x, (ht.keeps.kept x hx hbusy).1, hpx, ht.keeps.busy_eq h hx hbusy,
        by rw [ht.keeps.limit_eq h hx hbusy]; exact hroom⟩
  · by_cases hxb : x = b
    · rw [hxb, update_self]
      rfl
    · rw [update_of_ne (by omega)]
      obtain ⟨hx', hbusy'⟩ := (ht.keeps.old x hx hbusy).resolve_right hxb
      exact hl.owned x hx' hbusy'

/-- A caller gives his block back. -/
theorem drop (h : Blocks s bs) (hl : Held s bs live) (hp : live p = some n) :
    Blocks (h_free p s) bs ∧ Held (h_free p s) bs (update live p none) := by
  obtain ⟨b, hb, rfl, hbusy, hroom⟩ := hl.own p n hp
  rw [h_free, Nat.add_sub_cancel]
  have hword : mkfree (mkfree (s.h_next b)) = s.next b := by
    rw [Heap.next, mkfree, mkfree]
    omega
  have hidle : isbusy (mkfree (s.h_next b)) = false := by
    rw [isbusy, mkfree]
    exact decide_eq_false (by omega)
  have hlimit : (s.set b (mkfree (s.h_next b))).limit = s.limit := by
    rw [limit_set, hword]
    exact update_eq_self _ _
  refine ⟨h.mark hword, fun q m hq => ?_, fun x hx hxb => ?_⟩
  · by_cases hqb : q = b + headSize
    · rw [hqb, update_self] at hq
      exact absurd hq nofun
    · rw [update_of_ne hqb] at hq
      obtain ⟨x, hx, rfl, hxb, hxroom⟩ := hl.own q m hq
      have hxne : x ≠ b := fun heq => hqb (heq ▸ rfl)
      refine ⟨x, hx, rfl, ?_, by rw [hlimit]; exact hxroom⟩
      rw [busy_set, update_of_ne hxne]
      exact hxb
  · rw [busy_set] at hxb
    by_cases hxe : x = b
    · rw [hxe, update_self, hidle] at hxb
      exact absurd hxb nofun
    · rw [update_of_ne hxe] at hxb
      rw [update_of_ne (by omega)]
      exact hl.owned x hx hxb

/-- A caller stores a word in his block. -/
theorem store (h : Blocks s bs) (hl : Held s bs live) {i : ℕ} (hp : live p = some n)
    (hi : asize * i < n) (w : ℕ) :
    Blocks (s.set (p + asize * i) w) bs ∧ Held (s.set (p + asize * i) w) bs live := by
  obtain ⟨b, hb, rfl, hbusy, hroom⟩ := hl.own p n hp
  have hsame : ∀ x ∈ bs, (s.set (b + headSize + asize * i) w).h_next x = s.h_next x := by
    intro x hx
    have hgap := h.gap hb (mem_append_left _ hx)
    exact update_of_ne (by rw [headSize] at *; omega) _ _
  have hbusy' : ∀ x ∈ bs, (s.set (b + headSize + asize * i) w).busy x = s.busy x := by
    intro x hx
    rw [Heap.busy, hsame x hx, Heap.busy]
  have hlimit : ∀ x ∈ bs, (s.set (b + headSize + asize * i) w).limit x = s.limit x := by
    intro x hx
    rw [Heap.limit, Heap.next, hsame x hx]
    rfl
  refine ⟨h.congr rfl hsame, fun q m hq => ?_, fun x hx hxb => ?_⟩
  · obtain ⟨x, hx, hqx, hxb, hxroom⟩ := hl.own q m hq
    exact ⟨x, hx, hqx, by rw [hbusy' x hx]; exact hxb, by rw [hlimit x hx]; exact hxroom⟩
  · rw [hbusy' x hx] at hxb
    exact hl.owned x hx hxb

end Held

theorem h_alloc_spec {s : Heap} {bs : List ℕ} {rfsize fuel size : ℕ} (hready : s.ready = true)
    (h : Blocks s bs) (hn : size < 2 ^ 31) (hle : bump size + headSize ≤ maxalloc)
    (hfuel : s.pavail < fuel) :
    ∃ r, h_alloc rfsize fuel size s = some r ∧ Outcome (bump size) 0 s bs r := by
  rw [h_alloc, if_neg (Nat.not_lt.mpr hle), start_ready rfsize hready]
  exact search_spec h h.zero_mem (bump_spec hn).2.2 (by omega)

theorem merge_steady (hp : ℕ) (s : Heap) : Steady fun fuel => merge hp fuel s := by
  intro n x h
  dsimp only at h ⊢
  induction n generalizing s with
  | zero => exact absurd h nofun
  | succ n ih =>
    rw [merge] at h ⊢
    split at h
    next hc =>
      rw [if_pos hc]
      exact ih _ h
    next hc =>
      rw [if_neg hc]
      exact h

theorem search_steady (size hp : ℕ) (s : Heap) : Steady fun fuel => search size fuel hp s := by
  intro n r h
  dsimp only at h ⊢
  induction n generalizing hp s with
  | zero => exact absurd h nofun
  | succ n ih =>
    have hadvance {s' : Heap} (h' : (if s'.next hp ≠ 0 then search size n (s'.next hp) s'
        else some (none, s')) = some r) :
        (if s'.next hp ≠ 0 then search size (n + 1) (s'.next hp) s' else some (none, s')) = some r := by
      split at h'
      next hz =>
        rw [if_pos hz]
        exact ih _ _ h'
      next hz =>
        rw [if_neg hz]
        exact h'
    rw [search] at h ⊢
    by_cases hbusy : s.busy hp = true
    · rw [if_pos hbusy] at h ⊢
      exact hadvance h
    · rw [if_neg hbusy] at h ⊢
      cases hm : merge hp (n + 1) s with
      | none =>
        rw [hm] at h
        exact absurd h nofun
      | some s' =>
        have hm' : merge hp (n + 1 + 1) s = some s' := merge_steady hp s _ _ hm
        rw [hm] at h
        rw [hm']
        dsimp only at h ⊢
        cases ht : take size hp s' with
        | some s'' =>
          rw [ht] at h
          exact h
        | none =>
          rw [ht] at h
          exact hadvance h

/-- However many turns a request is given, it ends with an outcome if it ends. -/
theorem h_alloc_outcome {s : Heap} {bs : List ℕ} {rfsize fuel size : ℕ} {r : Option ℕ × Heap}
    (hready : s.ready = true) (h : Blocks s bs) (hn : size < 2 ^ 31)
    (hr : h_alloc rfsize fuel size s = some r) :
    maxalloc < bump size + headSize ∧ r = (none, s) ∨ Outcome (bump size) 0 s bs r := by
  by_cases hle : bump size + headSize ≤ maxalloc
  · obtain ⟨r', hr', ho⟩ := h_alloc_spec hready h hn hle (Nat.lt_succ_self s.pavail)
    rw [h_alloc, if_neg (Nat.not_lt.mpr hle)] at hr hr'
    rw [(search_steady _ _ _).eq hr hr']
    exact .inr ho
  · rw [h_alloc, if_pos (Nat.not_le.mp hle), start_ready rfsize hready] at hr
    exact .inl ⟨Nat.not_le.mp hle, (Option.some.inj hr).symm⟩

/-- The first request makes the heap and goes on as on one that is made. -/
theorem h_alloc_start (rfsize fuel size : ℕ) (s : Heap) :
    h_alloc rfsize fuel size s = h_alloc rfsize fuel size (start rfsize s) := by
  have hready : (start rfsize s).ready = true := by
    rw [start]
    split
    next h => exact h
    next => rfl
  rw [h_alloc, h_alloc, start_ready rfsize hready]

theorem inv_step {rfsize : ℕ} (hr : headSize ≤ rfsize) {t t' : Hist} {a : Act} (h : Inv rfsize t)
    (hs : t.next rfsize a = some t') : Inv rfsize t' := by
  cases a with
  | h_alloc fuel size =>
    rw [Hist.next] at hs
    split at hs
    next hn =>
      obtain ⟨r, hres, rfl⟩ := Option.map_eq_some_iff.mp hs
      obtain ⟨hready, hav, bs, hb, hl⟩ := h.start hr
      rw [h_alloc_start] at hres
      rcases h_alloc_outcome hready hb hn hres with ⟨-, rfl⟩ | ho
      · exact .inr ⟨hready, hav, bs, hb, hl⟩
      · cases ho with
        | @found b s' bs' ht =>
          exact .inr ⟨ht.keeps.ready.trans hready, ht.keeps.pavail.trans hav, bs', ht.keeps.blocks,
            hl.take hb ht (bump_spec hn).1⟩
        | @full s' bs' hk hroom =>
          exact .inr ⟨hk.ready.trans hready, hk.pavail.trans hav, bs', hk.blocks, hl.keep hb hk⟩
    next => exact absurd hs nofun
  | h_free p =>
    rw [Hist.next] at hs
    split at hs
    next hp =>
      obtain ⟨hready, hav, bs, n, hb, hl, hn⟩ := h.held hp
      exact Option.some.inj hs ▸ .inr ⟨hready, hav, bs, hl.drop hb hn⟩
    next => exact absurd hs nofun
  | store p i w =>
    rw [Hist.next] at hs
    split at hs
    next hp =>
      obtain ⟨n, hn, hi⟩ := Option.any_eq_true _ _ |>.mp hp
      obtain ⟨hready, hav, bs, m, hb, hl, hm⟩ := h.held (Option.isSome_of_mem hn)
      obtain rfl := Option.some.inj (hm.symm.trans hn)
      exact Option.some.inj hs ▸ .inr ⟨hready, hav, bs, hl.store hb hm (of_decide_eq_true hi) w⟩
    next => exact absurd hs nofun

/-- The heap is chained as it should be, the blocks of the callers are aligned and do not overlap, each request
ends, and it fails only when the size is too big or no free blocks that follow each other have room. -/
structure Law (rfsize : ℕ) (t : Hist) : Prop where
  blocks : Inv rfsize t
  asserts : ∀ p n, t.live p = some n → Asserts p t.sys
  aligned : ∀ p n, t.live p = some n → p % asize = 0 ∧ p + n ≤ rfsize
  disjoint : ∀ p m q n, t.live p = some m → t.live q = some n → p < q → p + m + headSize ≤ q
  total : ∀ size, size < 2 ^ 31 → ∀ fuel, rfsize < fuel → (h_alloc rfsize fuel size t.sys).isSome
  null : ∀ size, size < 2 ^ 31 → ∀ fuel s', h_alloc rfsize fuel size t.sys = some (none, s') →
    maxalloc < bump size + headSize ∨
      ∀ bs a e, Blocks (start rfsize t.sys) bs → FreeRun (start rfsize t.sys) bs a e →
        e < a + headSize + bump size ∧ (rfsize % asize = 0 → e < a + headSize + size)

theorem Inv.asserts {rfsize : ℕ} {t : Hist} {p n : ℕ} (h : Inv rfsize t) (hp : t.live p = some n) :
    Asserts p t.sys := by
  obtain ⟨-, -, bs, m, hb, hl, -⟩ := h.held (Option.isSome_of_mem hp)
  obtain ⟨b, hin, rfl, hbusy, -⟩ := hl.own p n hp
  rw [Asserts, Nat.add_sub_cancel]
  have hodd : t.sys.h_next b % 2 = 1 := of_decide_eq_true hbusy
  refine ⟨hbusy, by omega, ?_⟩
  have hlt := hb.lt_pavail hin
  rcases hb.next_eq hin with ⟨hz, -⟩ | ⟨-, -, hnext⟩
  · rw [Heap.next, mkfree] at hz
    omega
  · have hlt' := hb.lt_pavail hnext
    rw [Heap.next, mkfree] at hlt'
    omega

theorem Inv.aligned {rfsize : ℕ} {t : Hist} {p n : ℕ} (h : Inv rfsize t) (hp : t.live p = some n) :
    p % asize = 0 ∧ p + n ≤ rfsize := by
  obtain ⟨-, hav, bs, m, hb, hl, -⟩ := h.held (Option.isSome_of_mem hp)
  obtain ⟨b, hin, rfl, -, hroom⟩ := hl.own p n hp
  have hal := hb.aligned b hin
  have hle := hb.limit_le hin
  rw [asize, headSize] at *
  omega

theorem Inv.disjoint {rfsize : ℕ} {t : Hist} {p m q n : ℕ} (h : Inv rfsize t) (hp : t.live p = some m)
    (hq : t.live q = some n) (hpq : p < q) : p + m + headSize ≤ q := by
  obtain ⟨-, -, bs, -, hb, hl, -⟩ := h.held (Option.isSome_of_mem hp)
  obtain ⟨b, hin, rfl, -, hroom⟩ := hl.own p m hp
  obtain ⟨c, hin', rfl, -, -⟩ := hl.own q n hq
  have hgap := hb.gap hin (mem_append_left _ hin')
  omega

theorem Inv.total {rfsize : ℕ} (hr : headSize ≤ rfsize) {t : Hist} {size fuel : ℕ}
    (h : Inv rfsize t) (hn : size < 2 ^ 31) (hfuel : rfsize < fuel) :
    (h_alloc rfsize fuel size t.sys).isSome := by
  obtain ⟨hready, hav, bs, hb, hl⟩ := h.start hr
  rw [h_alloc_start]
  by_cases hle : bump size + headSize ≤ maxalloc
  · obtain ⟨r, hres, -⟩ := @h_alloc_spec _ _ rfsize _ _ hready hb hn hle (hav ▸ hfuel)
    rw [hres]
    rfl
  · rw [h_alloc, if_pos (Nat.not_le.mp hle)]
    rfl

theorem Inv.null {rfsize : ℕ} (hr : headSize ≤ rfsize) {t : Hist} {size fuel : ℕ} {s' : Heap}
    (h : Inv rfsize t) (hn : size < 2 ^ 31)
    (hnull : h_alloc rfsize fuel size t.sys = some (none, s')) :
    maxalloc < bump size + headSize ∨
      ∀ bs a e, Blocks (Auth.start rfsize t.sys) bs → FreeRun (Auth.start rfsize t.sys) bs a e →
        e < a + headSize + bump size ∧ (rfsize % asize = 0 → e < a + headSize + size) := by
  obtain ⟨hready, hav, -⟩ := h.start hr
  rw [h_alloc_start] at hnull
  by_cases hle : bump size + headSize ≤ maxalloc
  · refine .inr fun bs a e hb hf => ?_
    rcases h_alloc_outcome hready hb hn hnull with ⟨hbig, -⟩ | ho
    · exact absurd hle (Nat.not_le.mpr hbig)
    · cases ho with
      | full hk hroom =>
        have hlt := hroom a e (Nat.zero_le a) hf
        refine ⟨hlt, fun hal => ?_⟩
        -- both ends are aligned, and so is the room between them
        have ha := hb.aligned a hf.first
        have he : e % asize = 0 := by
          rcases mem_append.mp hf.limit with hin | hin
          · exact hb.aligned e hin
          · rw [mem_singleton.mp hin, hav]
            exact hal
        have hbump := bump_spec hn
        rw [asize, headSize] at *
        omega
  · exact .inl (Nat.not_le.mp hle)

theorem heap_sound {rfsize : ℕ} (hr : headSize ≤ rfsize) {s : Heap} (h : s.ready = false)
    {as : List Act} {t : Hist}
    (hrun : Run (fun t a t' => t.next rfsize a = some t') ⟨s, fun _ => none⟩ as t) : Law rfsize t := by
  have hinv : Inv rfsize t :=
    hrun.invariant (fun _ _ _ hi hs => inv_step hr hi hs) (.inl ⟨h, fun _ => rfl⟩)
  exact ⟨hinv, fun _ _ hp => hinv.asserts hp, fun _ _ hp => hinv.aligned hp,
    fun _ _ _ _ hp hq hpq => hinv.disjoint hp hq hpq, fun _ hn _ hf => hinv.total hr hn hf,
    fun _ hn _ _ hnull => hinv.null hr hn hnull⟩

/-- A memory that no heap was made in -/
def unmade : Heap := ⟨false, fun _ => 7, 0⟩

/-- Blocks are merged, cut with no rest, and run out. -/
def churn : List Act :=
  [.h_alloc 40 10, .h_alloc 40 3, .h_alloc 40 0, .store 4 2 9, .h_free 4, .h_free 20,
    .h_alloc 40 20, .h_alloc 40 2000, .h_alloc 40 8, .h_free 4]

theorem heap_sound_churn : ∃ t, t.live 32 = some 8 ∧ t.live 28 = some 0 ∧ Law 40 t := by
  have hrun : ((churn.foldlM (Hist.next 40) ⟨unmade, fun _ => none⟩).any fun t =>
      t.live 32 = some 8 ∧ t.live 28 = some 0) = true := by
    decide
  obtain ⟨t, ht, hend⟩ := Run.of_foldlM hrun
  obtain ⟨hfirst, hsecond⟩ := of_decide_eq_true hend
  exact ⟨t, hfirst, hsecond, heap_sound (by decide) rfl ht⟩

end Svr3.Auth
