import Svr3.Libc.Malloc

/-!
# Runs of `malloc`, `free` and `realloc`

The blocks of the arena stay linked in increasing order, and each block that is in use stays busy and as it
is, while no size wraps around and no growth subtracts an old `incr`.
-/

namespace Svr3.Libc

open Function List

@[simp] theorem mem_set (s : Sys) (a : ℕ) (w : Store) :
    (s.set a w).mem = update s.mem a w := rfl

@[simp] theorem ptr_set (s : Sys) (a : ℕ) (w : Store) :
    (s.set a w).ptr = update s.ptr a w.ptr :=
  Function.comp_update _ _ _ _

@[simp] theorem busy_set (s : Sys) (a : ℕ) (w : Store) :
    (s.set a w).busy = update s.busy a w.busy :=
  Function.comp_update _ _ _ _

/-- `bs` are the blocks below the top of the arena. -/
structure Arena (s : Sys) (bs : List ℕ) : Prop where
  tiles : Tiles s.ptr (bs ++ [s.alloct])
  head : bs.head? = some s.allocs
  base : s.busy s.allocs = true
  top : s.ptr s.alloct = s.allocs ∧ s.busy s.alloct = true
  bound : s.alloct + word ≤ 2 ^ 32
  aligned : ∀ b ∈ bs ++ [s.alloct], b % word = 0
  allocp : s.allocp ∈ bs ++ [s.alloct]
  allocend : ∀ l, bs.getLast? = some l → s.allocend = if s.busy l then s.alloct else l

/-- Busy blocks stay, with what is in them. -/
def Keeps (s s' : Sys) (bs bs' : List ℕ) : Prop :=
  ∀ b ∈ bs, s.busy b = true → b ∈ bs' ∧ ∀ a, b ≤ a → a < s.ptr b → s'.mem a = s.mem a

/-- The words inside of the blocks stay, and no block begins inside of another one. -/
structure Quiet (s s' : Sys) (bs bs' : List ℕ) : Prop where
  top : s.alloct ≤ s'.alloct
  heads : ∀ x ∈ bs' ++ [s'.alloct], x ∈ bs ++ [s.alloct] ∨ s.alloct < x
  mem : ∀ a, a < s.alloct → a ∉ bs → s'.mem a = s.mem a

namespace Quiet

variable {s s' s'' : Sys} {bs bs' bs'' : List ℕ}

theorem refl (s : Sys) (bs : List ℕ) : Quiet s s bs bs :=
  ⟨Nat.le_refl _, fun _ hx => .inl hx, fun _ _ _ => rfl⟩

theorem trans (h : Quiet s s' bs bs') (h' : Quiet s' s'' bs' bs'') : Quiet s s'' bs bs'' := by
  refine ⟨Nat.le_trans h.top h'.top, fun x hx => ?_, fun a ha hout => ?_⟩
  · rcases h'.heads x hx with hx' | hlt
    · exact h.heads x hx'
    · exact .inr (Nat.lt_of_le_of_lt h.top hlt)
  · have hout' : a ∉ bs' := by
      intro hin
      rcases h.heads a (mem_append_left _ hin) with hin' | hlt
      · rcases mem_append.mp hin' with hin' | htop
        · exact hout hin'
        · exact absurd (mem_singleton.mp htop) (Nat.ne_of_lt ha)
      · exact absurd hlt (Nat.not_lt_of_gt ha)
    rw [h'.mem a (Nat.lt_of_lt_of_le ha h.top) hout', h.mem a ha hout]

end Quiet

namespace Arena

variable {s s' s'' : Sys} {bs bs' bs'' pre post : List ℕ} {b p q a nw : ℕ}

theorem keeps_refl (s : Sys) (bs : List ℕ) : Keeps s s bs bs := fun _ hb _ => ⟨hb, fun _ _ _ => rfl⟩

theorem lt_ptr (h : Arena s bs) (hb : b ∈ bs) : b < s.ptr b := by
  obtain ⟨pre, c, post, hbs, hc⟩ := h.tiles.exists_next hb
  have hnext := h.tiles
  rw [hbs] at hnext
  exact hc ▸ hnext.next_eq.2

theorem keeps_trans (h : Arena s bs) (hk : Keeps s s' bs bs') (hk' : Keeps s' s'' bs' bs'') :
    Keeps s s'' bs bs'' := by
  intro b hb hbusy
  obtain ⟨hb', hmem⟩ := hk b hb hbusy
  have hself := hmem b (Nat.le_refl b) (h.lt_ptr hb)
  have hbusy' : s'.busy b = true := by
    rw [Sys.busy, hself]
    exact hbusy
  obtain ⟨hb'', hmem'⟩ := hk' b hb' hbusy'
  refine ⟨hb'', fun a hba hab => ?_⟩
  have hptr : s'.ptr b = s.ptr b := by
    rw [Sys.ptr, hself]
    rfl
  rw [hmem' a hba (hptr.symm ▸ hab), hmem a hba hab]

/-- An address that is no header of another block is not inside of a block. -/
theorem not_inside (h : Arena s bs) (hb : b ∈ bs) (ha : a ∈ bs ++ [s.alloct]) :
    a ≤ b ∨ s.ptr b ≤ a := by
  obtain ⟨pre, c, post, hbs, hc⟩ := h.tiles.exists_next hb
  have htiles := h.tiles
  rw [hbs] at htiles ha
  rw [hc]
  exact htiles.gap ha

theorem le_top (h : Arena s bs) (hb : b ∈ bs ++ [s.alloct]) : b ≤ s.alloct := by
  rcases mem_append.mp hb with hb | hb
  · exact Nat.le_of_lt (h.tiles.before b hb)
  · exact Nat.le_of_eq (mem_singleton.mp hb)

/-- An idle block is below the top. -/
theorem mem_of_idle (h : Arena s bs) (hp : p ∈ bs ++ [s.alloct]) (hidle : s.busy p = false) :
    p ∈ bs := by
  rcases mem_append.mp hp with hp | hp
  · exact hp
  · rw [mem_singleton.mp hp, h.top.2] at hidle
    exact absurd hidle nofun

/-- The block behind `p` -/
theorem split_at (h : Arena s bs) (hp : p ∈ bs) :
    ∃ pre tl, bs = pre ++ p :: tl ∧ (tl ++ [s.alloct]).head? = some (s.ptr p) := by
  obtain ⟨pre, tl, rfl⟩ := append_of_mem hp
  refine ⟨pre, tl, rfl, ?_⟩
  obtain ⟨c, cs, hc⟩ : ∃ c cs, tl ++ [s.alloct] = c :: cs :=
    exists_cons_of_ne_nil (append_ne_nil_of_right_ne_nil _ (cons_ne_nil _ []))
  have htiles := h.tiles
  rw [append_assoc, cons_append, hc] at htiles
  rw [hc, htiles.next_eq.1]
  rfl

/-- Memory that changes at one address that is no busy block leaves the busy blocks alone. -/
theorem keeps_set (ha : ∀ b ∈ bs, s.busy b = true → a < b ∨ s.ptr b ≤ a)
    (hsame : ∀ x, x ≠ a → s'.mem x = s.mem x) (hbs : ∀ b ∈ bs, s.busy b = true → b ∈ bs') :
    Keeps s s' bs bs' := by
  intro b hb hbusy
  refine ⟨hbs b hb hbusy, fun x hbx hxb => hsame x ?_⟩
  rcases ha b hb hbusy with hlt | hle
  · omega
  · omega

/-- What one turn of `coalesce` does -/
theorem merge (h : Arena s bs) (hp : p ∈ bs) (hidle : s.busy p = false)
    (hq : s.busy (s.ptr p) = false) :
    ∃ bs', Arena { s.set p (s.mem (s.ptr p)) with
      allocp := p
      allocend := if s.allocend = s.ptr p then p else s.allocend } bs' ∧
      Keeps s { s.set p (s.mem (s.ptr p)) with
        allocp := p
        allocend := if s.allocend = s.ptr p then p else s.allocend } bs bs' ∧
      Quiet s { s.set p (s.mem (s.ptr p)) with
        allocp := p
        allocend := if s.allocend = s.ptr p then p else s.allocend } bs bs' ∧ p ∈ bs' := by
  obtain ⟨pre, tl, hbs, htl⟩ := h.split_at hp
  cases tl with
  | nil =>
    rw [← Option.some.inj htl, h.top.2] at hq
    exact absurd hq nofun
  | cons q post =>
    obtain rfl : q = s.ptr p := Option.some.inj htl
    have htiles := h.tiles
    have hnodup := htiles.nodup
    obtain ⟨c, cs, hc⟩ : ∃ c cs, post ++ [s.alloct] = c :: cs :=
      exists_cons_of_ne_nil (append_ne_nil_of_right_ne_nil _ (cons_ne_nil _ []))
    rw [hbs, append_assoc, cons_append, cons_append] at htiles hnodup
    have hpa : p ≠ s.alloct := Nat.ne_of_lt (h.tiles.before p hp)
    have hsub : (pre ++ p :: post).Sublist bs := by
      rw [hbs]
      exact (List.Sublist.refl pre).append ((sublist_cons_self _ post).cons_cons p)
    have hmem {x : ℕ} (hx : x ∈ (pre ++ p :: post) ++ [s.alloct]) : x ∈ bs ++ [s.alloct] := by
      rcases mem_append.mp hx with hx | hx
      · exact mem_append_left _ (hsub.subset hx)
      · exact mem_append_right _ hx
    have hpin : p ∈ pre ++ p :: post := mem_append_right _ mem_cons_self
    have hpallocs : p ≠ s.allocs := by
      intro heq
      rw [heq, h.base] at hidle
      exact absurd hidle nofun
    refine ⟨pre ++ p :: post, ⟨?_, ?_, ?_, ?_, h.bound, fun x hx => h.aligned x (hmem hx),
      mem_append_left _ hpin, fun l hl => ?_⟩, ?_, ⟨Nat.le_refl _, fun x hx => .inl (hmem hx),
      fun a _ ha => update_of_ne (ne_of_mem_of_not_mem hp ha).symm _ _⟩, hpin⟩
    · change Tiles (s.set p (s.mem (s.ptr p))).ptr ((pre ++ p :: post) ++ [s.alloct])
      rw [append_assoc, cons_append, ptr_set]
      rw [hc] at htiles ⊢
      exact htiles.merge (update_self _ _ _) fun x hx => update_of_ne hx _ _
    · have hhead := h.head
      rw [hbs] at hhead
      cases pre with
      | nil => exact hhead
      | cons x pre => exact hhead
    · change (s.set p (s.mem (s.ptr p))).busy s.allocs = true
      rw [busy_set, update_of_ne hpallocs.symm]
      exact h.base
    · change (s.set p (s.mem (s.ptr p))).ptr s.alloct = s.allocs ∧
        (s.set p (s.mem (s.ptr p))).busy s.alloct = true
      rw [ptr_set, busy_set, update_of_ne hpa.symm, update_of_ne hpa.symm]
      exact h.top
    · change (if s.allocend = s.ptr p then p else s.allocend) =
        if (s.set p (s.mem (s.ptr p))).busy l then s.alloct else l
      rw [busy_set]
      have hlast := h.allocend
      rw [hbs, List.getLast?_append_cons] at hlast
      rw [List.getLast?_append_cons] at hl
      cases post with
      | nil =>
        have hlp : p = l := Option.some.inj hl
        have hend := hlast (s.ptr p) rfl
        rw [hq, if_neg nofun] at hend
        have hidle' : (s.mem (s.ptr p)).busy = false := hq
        rw [if_pos hend, ← hlp, update_self, hidle', if_neg nofun]
      | cons y ys =>
        -- the last block is behind the one that is merged
        have hl' : (y :: ys).getLast? = some l := hl
        have hend := hlast l hl'
        have hlin : l ∈ (y :: ys) ++ [s.alloct] := mem_append_left _ (mem_of_getLast? hl')
        have hafter : ∀ x ∈ (y :: ys) ++ [s.alloct], x ≠ p ∧ x ≠ s.ptr p := by
          intro x hx
          have hlt := (h.lt_ptr hp)
          have hbehind := (pairwise_append.mp htiles.sorted).2.1
          have hqx := (pairwise_cons.mp (pairwise_cons.mp hbehind).2).1 x hx
          omega
        have hne : s.allocend ≠ s.ptr p := by
          rw [hend]
          split
          · exact (hafter s.alloct (mem_append_right _ (mem_singleton.mpr rfl))).2
          · exact (hafter l hlin).2
        rw [if_neg hne, update_of_ne (hafter l hlin).1]
        exact hend
    · apply keeps_set (a := p)
      · intro b hb hbusy
        have hne : b ≠ p := by
          intro heq
          rw [heq, hidle] at hbusy
          exact absurd hbusy nofun
        rcases h.not_inside hb (mem_append_left _ hp) with hle | hle
        · exact .inl (by omega)
        · exact .inr hle
      · intro x hx
        exact update_of_ne hx _ _
      · intro b hb hbusy
        have hne : b ≠ s.ptr p := by
          intro heq
          rw [heq, hq] at hbusy
          exact absurd hbusy nofun
        rw [hbs] at hb
        rcases mem_append.mp hb with hb | hb
        · exact mem_append_left _ hb
        · rcases mem_cons.mp hb with rfl | hb
          · exact hpin
          · exact mem_append_right _
              (mem_cons_of_mem _ ((mem_cons.mp hb).resolve_left hne))

/-- `coalesce` comes to the next busy block. -/
theorem coalesce_spec {fuel : ℕ} (h : Arena s bs) (hp : p ∈ bs) (hidle : s.busy p = false)
    (hr : coalesce p fuel s = some (q, s')) :
    ∃ bs', Arena s' bs' ∧ Keeps s s' bs bs' ∧ Quiet s s' bs bs' ∧ p ∈ bs' ∧ s'.busy p = false ∧
      s'.ptr p = q ∧ s'.alloct = s.alloct ∧ s'.allocs = s.allocs ∧
      (s'.allocend = s.allocend ∨ s'.allocend = p) := by
  induction fuel generalizing s bs with
  | zero => exact absurd hr nofun
  | succ fuel ih =>
    rw [coalesce] at hr
    split at hr
    next hbusy =>
      have heq := Prod.mk.inj (Option.some.inj hr)
      exact ⟨bs, heq.2 ▸ h, heq.2 ▸ keeps_refl s bs, heq.2 ▸ Quiet.refl s bs, hp, heq.2 ▸ hidle,
        heq.2 ▸ heq.1, heq.2 ▸ rfl, heq.2 ▸ rfl, heq.2 ▸ .inl rfl⟩
    next hq =>
      have hq' := eq_false_of_ne_true hq
      obtain ⟨bs1, h1, hk1, hquiet1, hp1⟩ := h.merge hp hidle hq'
      have hidle1 : (s.set p (s.mem (s.ptr p))).busy p = false := by
        rw [busy_set, update_self]
        exact hq'
      obtain ⟨bs', h', hk', hquiet', hp', hi', hptr, htop, hbase, hend⟩ := ih h1 hp1 hidle1 hr
      refine ⟨bs', h', h.keeps_trans hk1 hk', hquiet1.trans hquiet', hp', hi', hptr, htop, hbase, ?_⟩
      rcases hend with hend | hend
      · rw [hend]
        dsimp only
        split
        · exact .inr rfl
        · exact .inl rfl
      · exact .inr hend

/-- The block from `p` to `q` has room for `nw` words. -/
theorem fits_iff (hnw : nw < 2 ^ 30) (hp : p < 2 ^ 32) (hq : q < 2 ^ 32) :
    fits nw p q = true ↔ p + word * nw ≤ q := by
  rw [fits, decide_eq_true_eq, word]
  constructor
  · rintro ⟨hle, hge⟩
    rcases Nat.lt_or_ge (p + 4 * nw) (2 ^ 32) with hlt | hge32
    · rwa [Nat.mod_eq_of_lt hlt] at hle
    · have hmod : (p + 4 * nw) % 2 ^ 32 = p + 4 * nw - 2 ^ 32 := by
        rw [Nat.mod_eq_sub_mod hge32, Nat.mod_eq_of_lt (by omega)]
      omega
  · intro hle
    have hlt : p + 4 * nw < 2 ^ 32 := by omega
    rw [Nat.mod_eq_of_lt hlt]
    exact ⟨hle, Nat.le_add_right _ _⟩

theorem base_mem (h : Arena s bs) : s.allocs ∈ bs := mem_of_head? h.head

theorem base_le (h : Arena s bs) (hb : b ∈ bs ++ [s.alloct]) : s.allocs ≤ b := by
  have htiles := h.tiles
  have hhead := h.head
  cases bs with
  | nil => exact absurd hhead nofun
  | cons a bs =>
    obtain rfl : a = s.allocs := Option.some.inj hhead
    rcases mem_cons.mp hb with rfl | hb
    · exact Nat.le_refl _
    · exact Nat.le_of_lt ((pairwise_cons.mp htiles.sorted).1 b hb)

theorem allocend_mem (h : Arena s bs) : s.allocend ∈ bs ++ [s.alloct] := by
  obtain ⟨ys, l, hl⟩ := eq_nil_or_concat bs |>.resolve_left (ne_nil_of_mem h.base_mem)
  rw [concat_eq_append] at hl
  have hlast : bs.getLast? = some l := by rw [hl, List.getLast?_concat]
  rw [h.allocend l hlast]
  split
  · exact mem_append_right _ (mem_singleton.mpr rfl)
  · exact mem_append_left _ (mem_of_getLast? hlast)

theorem ptr_mem (h : Arena s bs) (hb : b ∈ bs) : s.ptr b ∈ bs ++ [s.alloct] := by
  obtain ⟨pre, c, post, hbs, hc⟩ := h.tiles.exists_next hb
  rw [hbs, hc]
  exact mem_append_right _ (mem_cons_of_mem _ mem_cons_self)

/-- Once the search has come to the top, the idle blocks that it has passed are too small. -/
def Passed (nw p temp : ℕ) (s : Sys) : Prop :=
  temp ≤ 1 ∧ (temp = 1 → s.allocend < p → s.alloct < s.allocend + word * nw)

theorem passed_zero (nw p : ℕ) (s : Sys) : Passed nw p 0 s :=
  ⟨Nat.zero_le 1, fun h => absurd h Nat.zero_ne_one⟩

/-- An idle block at the end of the arena is `allocend`, and nothing else is. -/
theorem allocend_cases (h : Arena s bs) : s.allocend = s.alloct ∨
    s.allocend ∈ bs ∧ s.busy s.allocend = false ∧ s.ptr s.allocend = s.alloct := by
  obtain ⟨ys, l, hl⟩ := eq_nil_or_concat bs |>.resolve_left (ne_nil_of_mem h.base_mem)
  rw [concat_eq_append] at hl
  have hlast : bs.getLast? = some l := by rw [hl, List.getLast?_concat]
  rw [h.allocend l hlast]
  split
  next => exact .inl rfl
  next hidle =>
    have htiles := h.tiles
    rw [hl, append_assoc, singleton_append] at htiles
    exact .inr ⟨mem_of_getLast? hlast, eq_false_of_ne_true hidle, htiles.next_eq.1⟩

/-- The search goes on from a block, or it has come to the top for the second time. -/
theorem advance_spec {temp : ℕ} (h : Arena s bs) (hp : p ∈ bs ++ [s.alloct])
    (hpass : temp ≤ 1 ∧ (temp = 1 → s.allocend ≤ p → s.alloct < s.allocend + word * nw)) :
    (advance p temp s = .inl .top ∧ s.alloct < s.allocend + word * nw) ∨
    ∃ p' temp', advance p temp s = .inr (p', temp') ∧ p' ∈ bs ++ [s.alloct] ∧
      Passed nw p' temp' s := by
  unfold advance
  dsimp only
  rcases mem_append.mp hp with hp | hp
  · rw [if_pos (h.lt_ptr hp)]
    refine .inr ⟨_, _, rfl, h.ptr_mem hp, hpass.1, fun htemp hlt => hpass.2 htemp ?_⟩
    rcases h.not_inside hp h.allocend_mem with hle | hle
    · exact hle
    · omega
  · have hpt := mem_singleton.mp hp
    have hbase := h.base_le (mem_append_right _ (mem_singleton.mpr rfl))
    rw [hpt, h.top.1, if_neg (Nat.not_lt.mpr hbase), if_neg (by simp)]
    split
    next htemp =>
      refine .inl ⟨rfl, hpass.2 (by omega) ?_⟩
      rw [hpt]
      exact h.le_top h.allocend_mem
    next htemp =>
      refine .inr ⟨_, _, rfl, mem_append_left _ h.base_mem, by omega, fun _ hlt => ?_⟩
      have hle := h.base_le h.allocend_mem
      omega

/-- How a search ends in an arena -/
def Ended (nw : ℕ) (s : Sys) (bs : List ℕ) : Search → Prop
  | .found p q => p ∈ bs ∧ s.busy p = false ∧ s.ptr p = q ∧ p + word * nw ≤ q
  | .corrupt => False
  | .top => s.alloct < s.allocend + word * nw

/-- A search ends with an idle block that has room, or with an idle block at the top that has none. -/
theorem search_spec {fuel temp : ℕ} {r : Search} (hnw0 : 0 < nw) (hnw : nw < 2 ^ 30) (h : Arena s bs)
    (hp : p ∈ bs ++ [s.alloct]) (hpass : Passed nw p temp s)
    (hr : search nw fuel p temp s = some (r, s')) :
    ∃ bs', Arena s' bs' ∧ Keeps s s' bs bs' ∧ Quiet s s' bs bs' ∧ s'.alloct = s.alloct ∧
      s'.allocs = s.allocs ∧ Ended nw s' bs' r := by
  induction fuel generalizing s bs p temp with
  | zero => cases hr
  | succ fuel ih =>
    -- the search goes on from `p`, where `p` was too small
    have hnext {s1 : Sys} {bs1 : List ℕ} (h1 : Arena s1 bs1) (hk1 : Keeps s s1 bs bs1)
        (hquiet1 : Quiet s s1 bs bs1) (htop1 : s1.alloct = s.alloct)
        (hbase1 : s1.allocs = s.allocs) (hp1 : p ∈ bs1 ++ [s1.alloct])
        (hpass1 : temp ≤ 1 ∧ (temp = 1 → s1.allocend ≤ p → s1.alloct < s1.allocend + word * nw))
        (hstop : ∀ r', advance p temp s1 = .inl r' → some (r', s1) = some (r, s'))
        (hgo : ∀ p' temp', advance p temp s1 = .inr (p', temp') → search nw fuel p' temp' s1 = some (r, s')) :
        ∃ bs', Arena s' bs' ∧ Keeps s s' bs bs' ∧ Quiet s s' bs bs' ∧ s'.alloct = s.alloct ∧
          s'.allocs = s.allocs ∧ Ended nw s' bs' r := by
      rcases h1.advance_spec hp1 hpass1 with ⟨ha, hsmall⟩ | ⟨p', temp', ha, hp', hpass'⟩
      · obtain ⟨rfl, rfl⟩ := Prod.mk.inj (Option.some.inj (hstop _ ha))
        exact ⟨bs1, h1, hk1, hquiet1, htop1, hbase1, hsmall⟩
      · obtain ⟨bs', h', hk', hquiet', htop', hbase', hend⟩ := ih h1 hp' hpass' (hgo _ _ ha)
        exact ⟨bs', h', h.keeps_trans hk1 hk', hquiet1.trans hquiet', htop'.trans htop1,
          hbase'.trans hbase1, hend⟩
    rw [search] at hr
    split at hr
    next hbusy =>
      refine hnext h (keeps_refl s bs) (Quiet.refl s bs) rfl rfl hp
        ⟨hpass.1, fun htemp hle => ?_⟩ (fun r' ha => by rwa [ha] at hr) fun p' temp' ha => by rwa [ha] at hr
      rcases h.allocend_cases with hend | ⟨-, hidle, -⟩
      · rw [hend]
        exact Nat.lt_add_of_pos_right (Nat.mul_pos (by decide) hnw0)
      · refine hpass.2 htemp (Nat.lt_of_le_of_ne hle fun heq => ?_)
        rw [heq, hbusy] at hidle
        cases hidle
    next hidle =>
      have hidle' := eq_false_of_ne_true hidle
      have hpbs := h.mem_of_idle hp hidle'
      cases hc : coalesce p (fuel + 1) s with
      | none =>
        rw [hc] at hr
        cases hr
      | some x =>
        obtain ⟨q, s1⟩ := x
        rw [hc] at hr
        obtain ⟨bs1, h1, hk1, hquiet1, hp1, hi1, hq1, htop1, hbase1, hend1⟩ :=
          h.coalesce_spec hpbs hidle' hc
        have hqmem := h1.ptr_mem hp1
        rw [hq1] at hqmem
        have hqle := h1.le_top hqmem
        have hbound := h1.bound
        rw [word] at hbound
        have hlt := h1.lt_ptr hp1
        have hfits := fits_iff (q := q) hnw (show p < 2 ^ 32 by omega) (by omega)
        dsimp only at hr
        split at hr
        next hroom =>
          obtain ⟨rfl, rfl⟩ := Prod.mk.inj (Option.some.inj hr)
          exact ⟨bs1, h1, hk1, hquiet1, htop1, hbase1, hp1, hi1, hq1, hfits.mp hroom⟩
        next hsmall =>
          rw [hfits] at hsmall
          refine hnext h1 hk1 hquiet1 htop1 hbase1 (mem_append_left _ hp1)
            ⟨hpass.1, fun htemp hle => ?_⟩ (fun r' ha => by rwa [ha] at hr) fun p' temp' ha => by rwa [ha] at hr
          rcases h1.allocend_cases with hend | ⟨-, -, hptr⟩
          · rw [hend]
            exact Nat.lt_add_of_pos_right (Nat.mul_pos (by decide) hnw0)
          · by_cases heq : s1.allocend = p
            · -- the block at the top was found too small just now
              rw [heq, hq1] at hptr
              rw [heq, ← hptr]
              omega
            · have hsame : s1.allocend = s.allocend := hend1.resolve_right heq
              rw [hsame] at hle heq ⊢
              rw [htop1]
              exact hpass.2 htemp (Nat.lt_of_le_of_ne hle heq)

end Arena

/-! ## Growth -/

/-- What the system promises of a growth: the break is behind the arena, and memory that it gives is inside
the address space. -/
def Real (nw : ℕ) (b : Brk) (s : Sys) : Prop :=
  s.alloct + word ≤ b.brk ∧ (b.rest = true → b.brk + amount nw s b.brk ≤ 2 ^ 32)

/-- The amount does not wrap around, and no old `incr` is subtracted. -/
def Fits (nw : ℕ) (b : Brk) (incr : ℕ) (s : Sys) : Prop :=
  roundUp s b.brk incr = addend s b.brk ∧
    if b.brk ≠ s.alloct + word then nw + 255 < 2 ^ 30
    else nw + 256 < 2 ^ 30 + (s.alloct - s.allocend) / word

namespace Arena

variable {s s' s'' : Sys} {bs bs' bs'' pre post : List ℕ} {b p q a nw incr incr' : ℕ} {k : Brk}

/-- A growth asks for whole blocks, apart from what `q` is rounded up by. -/
theorem amount_eq (hfit : Fits nw k incr s) (hsmall : s.alloct < s.allocend + word * nw)
    (hle : s.allocend ≤ s.alloct) :
    ∃ j, 0 < j ∧ amount nw s k.brk = j * block + addend s k.brk := by
  have hadd : addend s k.brk < 4 := by
    rw [addend, word]
    split <;> omega
  obtain ⟨-, hnw⟩ := hfit
  have hratio : 1024 / 4 = 256 := rfl
  by_cases hnext : k.brk = s.alloct + word
  · have hzero : addend s k.brk = 0 := by
      rw [addend, if_neg fun hc => hc.1 hnext]
    rw [if_neg (not_not.mpr hnext)] at hnw
    rw [amount, if_neg (not_not.mpr hnext), hzero]
    simp only [block, word, hratio] at hnw hsmall ⊢
    exact ⟨(nw - (s.alloct - s.allocend) / 4 + 256) / 256, by omega, by omega⟩
  · rw [if_pos hnext] at hnw
    rw [amount, if_pos hnext]
    simp only [block, word, hratio] at hnw hsmall ⊢
    exact ⟨(nw + 255) / 256, by omega, by omega⟩

/-- The arena after a growth -/
theorem link_spec (h : Arena s bs) (hq : s.alloct + word ≤ q) (haq : q % word = 0) {j : ℕ}
    (hj : 0 < j) (hin : q + j * block ≤ 2 ^ 32) {size : ℕ} (hsize : size = j * block + incr) :
    Arena (link q size incr s) (bs ++ [s.alloct, q]) ∧
      Keeps s (link q size incr s) bs (bs ++ [s.alloct, q]) ∧
      Quiet s (link q size incr s) bs (bs ++ [s.alloct, q]) ∧
      (link q size incr s).allocs = s.allocs := by
  have hbound := h.bound
  simp only [word, block] at hq haq hin hsize hbound
  obtain ⟨u, hu⟩ : ∃ u, u = q + j * 1024 - 4 := ⟨_, rfl⟩
  have htop : (q + size + 2 ^ 32 - incr - word) % 2 ^ 32 = u := by
    rw [word]
    omega
  have hodd : u % 2 = 0 ∧ u % 4 = 0 := by omega
  have hqu : q < u ∧ s.alloct < q := by omega
  have hlink : link q size incr s =
      { ((s.set s.alloct ⟨q, q ≠ s.alloct + word⟩).set q ⟨u, false⟩).set u ⟨s.allocs, true⟩ with
        allocend := q, alloct := u } := by
    have haddr : Store.ofAddr u = ⟨u, false⟩ := by
      rw [Store.ofAddr, Store.mk.injEq]
      exact ⟨by omega, by simp [hodd.1]⟩
    rw [link, htop, haddr]
  have hmem (x : ℕ) (hx : x < s.alloct) : (link q size incr s).mem x = s.mem x := by
    rw [hlink]
    simp only [mem_set]
    rw [update_of_ne (by omega), update_of_ne (by omega),
      update_of_ne (by omega)]
  have hmemt : (link q size incr s).mem s.alloct = ⟨q, q ≠ s.alloct + word⟩ := by
    rw [hlink]
    simp only [mem_set]
    rw [update_of_ne (by omega), update_of_ne (by omega), update_self]
  have hmemq : (link q size incr s).mem q = ⟨u, false⟩ := by
    rw [hlink]
    simp only [mem_set]
    rw [update_of_ne (by omega), update_self]
  have hmemu : (link q size incr s).mem u = ⟨s.allocs, true⟩ := by
    rw [hlink]
    simp only [mem_set, update_self]
  have hallocs : (link q size incr s).allocs = s.allocs := rfl
  have halloct : (link q size incr s).alloct = u := by rw [hlink]
  have hallocend : (link q size incr s).allocend = q := rfl
  have hptr (x : ℕ) (hx : x < s.alloct) : (link q size incr s).ptr x = s.ptr x := by
    rw [Sys.ptr, hmem x hx]
    rfl
  have hlist : bs ++ [s.alloct, q] ++ [u] = bs ++ [s.alloct, q, u] := by simp
  have hbase := h.tiles.before s.allocs h.base_mem
  refine ⟨⟨?_, ?_, ?_, ?_, ?_, ?_, ?_, ?_⟩, ?_, ⟨?_, ?_, fun a ha _ => hmem a ha⟩, hallocs⟩
  · rw [halloct, hlist]
    apply h.tiles.extend hqu.2 hqu.1 _ _ hptr
    · rw [Sys.ptr, hmemt]
    · rw [Sys.ptr, hmemq]
  · rw [List.head?_append, h.head]
    rfl
  · rw [hallocs, Sys.busy, hmem s.allocs hbase]
    exact h.base
  · rw [halloct, Sys.ptr, Sys.busy, hmemu]
    exact ⟨rfl, rfl⟩
  · rw [halloct, word]
    omega
  · intro b hb
    rw [halloct, hlist] at hb
    have hal := h.aligned
    simp only [mem_append, mem_cons, not_mem_nil, or_false] at hb hal
    rcases hb with hb | rfl | rfl | rfl
    · exact hal b (.inl hb)
    · exact hal _ (.inr rfl)
    · exact haq
    · exact hodd.2
  · have hap := h.allocp
    change s.allocp ∈ _
    rw [halloct, hlist]
    simp only [mem_append, mem_cons, not_mem_nil, or_false] at hap ⊢
    rcases hap with hap | hap
    · exact .inl hap
    · exact .inr (.inl hap)
  · intro l hl
    rw [List.getLast?_append_cons, List.getLast?_cons_cons, List.getLast?_singleton] at hl
    rw [← Option.some.inj hl, hallocend, Sys.busy, hmemq, if_neg nofun]
  · intro b hb hbusy
    refine ⟨mem_append_left _ hb, fun a hba hab => hmem a ?_⟩
    exact Nat.lt_of_lt_of_le hab (h.le_top (h.ptr_mem hb))
  · rw [halloct]
    omega
  · intro x hx
    rw [halloct, hlist] at hx
    simp only [mem_append, mem_cons, not_mem_nil, or_false] at hx ⊢
    rcases hx with hx | rfl | rfl | rfl
    · exact .inl (.inl hx)
    · exact .inl (.inr rfl)
    · exact .inr hqu.2
    · exact .inr (Nat.lt_trans hqu.2 hqu.1)

/-- After a growth the search goes on from a block of the larger arena. -/
theorem grow_spec (h : Arena s bs) (hreal : Real nw k s) (hfit : Fits nw k incr s)
    (hsmall : s.alloct < s.allocend + word * nw) (hr : grow nw k incr s = some (p, incr', s')) :
    ∃ bs', Arena s' bs' ∧ Keeps s s' bs bs' ∧ Quiet s s' bs bs' ∧ p ∈ bs' ++ [s'.alloct] ∧
      s'.allocs = s.allocs := by
  obtain ⟨j, hj, hamount⟩ := amount_eq hfit hsmall (h.le_top h.allocend_mem)
  have hend := h.allocend_mem
  rw [grow] at hr
  split at hr
  next => exact absurd hr nofun
  next =>
    split at hr
    next => exact absurd hr nofun
    next =>
      split at hr
      next => exact absurd hr nofun
      next hrest =>
        obtain ⟨hp, hr'⟩ := Prod.mk.inj (Option.some.inj hr)
        rw [← (Prod.mk.inj hr').2, ← hp]
        obtain ⟨hbrk, hroom⟩ := hreal
        have hin := hroom (by simpa using hrest)
        rw [hamount] at hin
        have hal := h.aligned s.alloct (mem_append_right _ (mem_singleton.mpr rfl))
        have hblock : block ≤ j * block := Nat.le_mul_of_pos_left _ hj
        have hround : (k.brk + addend s k.brk) % 2 ^ 32 = k.brk + addend s k.brk := by
          apply Nat.mod_eq_of_lt
          rw [block] at hblock hin
          omega
        have haq : (k.brk + addend s k.brk) % word = 0 := by
          rw [addend]
          split
          next hodd =>
            rw [word] at hodd ⊢
            omega
          next heven =>
            by_cases hnext : k.brk = s.alloct + word
            · rw [hnext, Nat.add_zero, Nat.add_mod_right]
              exact hal
            · rw [Nat.add_zero]
              by_contra hne
              exact heven ⟨hnext, hne⟩
        have hsize : amount nw s k.brk = j * block + roundUp s k.brk incr := by rw [hfit.1, hamount]
        obtain ⟨harena, hkeeps, hquiet, hallocs⟩ := h.link_spec
          (Nat.le_trans hbrk (Nat.le_add_right _ _)) haq hj (by omega) hsize
        rw [hround]
        refine ⟨_, harena, hkeeps, hquiet, ?_, hallocs⟩
        simp only [mem_append, mem_cons, not_mem_nil, or_false] at hend ⊢
        rcases hend with hend | hend
        · exact .inl (.inl hend)
        · exact .inl (.inr (.inl hend))

/-- Two blocks that are not the same, when one of them is idle and the other busy -/
theorem ne_of_busy {x y : ℕ} (hx : s.busy x = false) (hy : s.busy y = true) : x ≠ y := by
  intro heq
  rw [heq, hy] at hx
  exact absurd hx nofun

/-- The idle block `p` becomes busy as a whole. -/
theorem take_all (h : Arena s bs) (hp : p ∈ bs) (hidle : s.busy p = false) (hptr : s.ptr p = q) :
    Arena { s.set p ⟨q, true⟩ with
      allocp := q, allocend := if s.allocend = p then q else s.allocend } bs := by
  have hpa : s.alloct ≠ p := (ne_of_busy hidle h.top.2).symm
  have hpb : s.allocs ≠ p := (ne_of_busy hidle h.base).symm
  have hsame : (s.set p ⟨q, true⟩).ptr = s.ptr := by
    rw [ptr_set]
    exact update_eq_self_iff.mpr hptr.symm
  refine ⟨?_, h.head, ?_, ?_, h.bound, h.aligned, hptr ▸ h.ptr_mem hp, fun l hl => ?_⟩
  · change Tiles (s.set p ⟨q, true⟩).ptr _
    rw [hsame]
    exact h.tiles
  · change (s.set p ⟨q, true⟩).busy s.allocs = true
    rw [busy_set, update_of_ne hpb]
    exact h.base
  · change (s.set p ⟨q, true⟩).ptr s.alloct = s.allocs ∧ (s.set p ⟨q, true⟩).busy s.alloct = true
    rw [hsame, busy_set, update_of_ne hpa]
    exact h.top
  · change (if s.allocend = p then q else s.allocend) =
      if (s.set p ⟨q, true⟩).busy l then s.alloct else l
    have hend := h.allocend l hl
    rw [busy_set]
    by_cases hlp : l = p
    · rw [hlp, hidle, if_neg nofun] at hend
      have hcases := h.allocend_cases
      rw [hend] at hcases
      rw [if_pos hend, hlp, update_self, if_pos rfl, ← hptr]
      exact (hcases.resolve_left hpa.symm).2.2
    · have hne : s.allocend ≠ p := by
        rw [hend]
        split
        · exact hpa
        · exact hlp
      rw [if_neg hne, update_of_ne hlp]
      exact hend

/-- The idle block `p` is cut at `a`, and what is behind stays idle. -/
theorem take_part (h : Arena s bs) (hp : p ∈ bs) (hidle : s.busy p = false) (hptr : s.ptr p = q)
    (hpa : p < a) (haq : a < q) (hal : a % word = 0) (x : Store) :
    ∃ bs', Arena { (s.set a (s.mem p)).set p ⟨a, true⟩ with
      allocp := a, allocx := x, allocend := if s.allocend = p then a else s.allocend } bs' ∧
      (∀ b ∈ bs, b ∈ bs') ∧ p ∈ bs' := by
  obtain ⟨pre, tl, hbs, htl⟩ := h.split_at hp
  rw [hptr] at htl
  obtain ⟨c, cs, hc⟩ : ∃ c cs, tl ++ [s.alloct] = c :: cs :=
    exists_cons_of_ne_nil (append_ne_nil_of_right_ne_nil _ (cons_ne_nil _ []))
  rw [hc] at htl
  have hcq : c = q := Option.some.inj htl
  rw [hcq] at hc
  have htiles := h.tiles
  rw [hbs, append_assoc, cons_append, hc] at htiles
  have hpt : s.alloct ≠ p := (ne_of_busy hidle h.top.2).symm
  have hpb : s.allocs ≠ p := (ne_of_busy hidle h.base).symm
  -- no block of the arena is at `a`
  have hout {b : ℕ} (hb : b ∈ bs ++ [s.alloct]) : b ≠ a := by
    rcases h.not_inside hp hb with hle | hle
    · omega
    · omega
  have hptr' (x : ℕ) : ((s.set a (s.mem p)).set p ⟨a, true⟩).ptr x =
      if x = p then a else if x = a then q else s.ptr x := by
    rw [ptr_set, ptr_set]
    split
    next hx => rw [hx, update_self]
    next hx =>
      rw [update_of_ne hx]
      split
      next hxa =>
        rw [hxa, update_self]
        exact hptr
      next hxa => exact update_of_ne hxa _ _
  have hbusy (x : ℕ) (hxp : x ≠ p) (hxa : x ≠ a) :
      ((s.set a (s.mem p)).set p ⟨a, true⟩).busy x = s.busy x := by
    rw [busy_set, busy_set, update_of_ne hxp, update_of_ne hxa]
  have hbusya : ((s.set a (s.mem p)).set p ⟨a, true⟩).busy a = false := by
    rw [busy_set, busy_set, update_of_ne (Nat.ne_of_gt hpa), update_self]
    exact hidle
  have htop : s.alloct ∈ bs ++ [s.alloct] := mem_append_right _ (mem_singleton.mpr rfl)
  have hmem (b : ℕ) (hb : b ∈ bs) : b ∈ pre ++ p :: a :: tl := by
    rw [hbs] at hb
    simp only [mem_append, mem_cons] at hb ⊢
    rcases hb with hb | hb | hb
    · exact .inl hb
    · exact .inr (.inl hb)
    · exact .inr (.inr (.inr hb))
  have hback {b : ℕ} (hb : b ∈ (pre ++ p :: a :: tl) ++ [s.alloct]) : b = a ∨ b ∈ bs ++ [s.alloct] := by
    rw [hbs]
    simp only [mem_append, mem_cons, not_mem_nil, or_false] at hb ⊢
    tauto
  refine ⟨pre ++ p :: a :: tl, ⟨?_, ?_, ?_, ?_, h.bound, fun b hb => ?_, ?_, fun l hl => ?_⟩, hmem,
    hmem p hp⟩
  · change Tiles ((s.set a (s.mem p)).set p ⟨a, true⟩).ptr ((pre ++ p :: a :: tl) ++ [s.alloct])
    rw [append_assoc, cons_append, cons_append, hc]
    apply htiles.cut hpa haq
    · rw [hptr', if_pos rfl]
    · rw [hptr', if_neg (Nat.ne_of_gt hpa), if_pos rfl]
    · intro x hxp hxa
      rw [hptr', if_neg hxp, if_neg hxa]
  · have hhead := h.head
    rw [hbs] at hhead
    cases pre with
    | nil => exact hhead
    | cons y pre => exact hhead
  · change ((s.set a (s.mem p)).set p ⟨a, true⟩).busy s.allocs = true
    rw [hbusy _ hpb (hout (mem_append_left _ h.base_mem))]
    exact h.base
  · change ((s.set a (s.mem p)).set p ⟨a, true⟩).ptr s.alloct = s.allocs ∧
      ((s.set a (s.mem p)).set p ⟨a, true⟩).busy s.alloct = true
    rw [hptr', if_neg hpt, if_neg (hout htop), hbusy _ hpt (hout htop)]
    exact h.top
  · rcases hback hb with rfl | hb
    · exact hal
    · exact h.aligned b hb
  · exact mem_append_left _ (mem_append_right _ (mem_cons_of_mem _ mem_cons_self))
  · change (if s.allocend = p then a else s.allocend) =
      if ((s.set a (s.mem p)).set p ⟨a, true⟩).busy l then s.alloct else l
    have hend := h.allocend
    rw [hbs, List.getLast?_append_cons] at hend
    rw [List.getLast?_append_cons, List.getLast?_cons_cons] at hl
    cases tl with
    | nil =>
      have hpend := hend p rfl
      rw [hidle, if_neg nofun] at hpend
      have hla : a = l := Option.some.inj hl
      rw [if_pos hpend, ← hla, hbusya, if_neg nofun]
    | cons y ys =>
      have hl' : (y :: ys).getLast? = some l := hl
      have hlend := hend l hl'
      have hlin : l ∈ bs := by
        rw [hbs]
        exact mem_append_right _ (mem_cons_of_mem _ (mem_of_getLast? hl'))
      have hlp : l ≠ p := by
        have hlq : l ∈ q :: cs := hc ▸ mem_append_left _ (mem_of_getLast? hl')
        exact Nat.ne_of_gt (htiles.behind l hlq)
      have hne : s.allocend ≠ p := by
        rw [hlend]
        split
        · exact hpt
        · exact hlp
      rw [if_neg hne, hbusy l hlp (hout (mem_append_left _ hlin))]
      exact hlend

/-- The block that the caller gets, and what is left of the idle block -/
theorem take_spec (h : Arena s bs) (hp : p ∈ bs) (hidle : s.busy p = false) (hptr : s.ptr p = q)
    (hnw : 0 < nw) (hfit : p + word * nw ≤ q) :
    ∃ bs', Arena (take nw p q s).2 bs' ∧ Keeps s (take nw p q s).2 bs bs' ∧
      (take nw p q s).1 = p + word ∧ p ∈ bs' ∧ (take nw p q s).2.mem p = ⟨p + word * nw, true⟩ ∧
      (take nw p q s).2.allocs = s.allocs := by
  have hpos : p < p + word * nw := Nat.lt_add_of_pos_right (Nat.mul_pos (by decide) hnw)
  have halp := h.aligned p (mem_append_left _ hp)
  have hpbusy {b : ℕ} (hb : s.busy b = true) : b ≠ p := (ne_of_busy hidle hb).symm
  -- a busy block is not around `x`, if `x` is a part of the idle block
  have hapart {x : ℕ} (hx : p ≤ x) (hxq : x < q) (b : ℕ) (hb : b ∈ bs) (hbusy : s.busy b = true) :
      x < b ∨ s.ptr b ≤ x := by
    have hne := hpbusy hbusy
    rcases h.not_inside hb (mem_append_left _ hp) with hle | hle
    · rcases h.not_inside hp (mem_append_left _ hb) with hle' | hle'
      · omega
      · exact .inl (by omega)
    · exact .inr (by omega)
  by_cases hroom : q > p + word * nw
  · have hal : (p + word * nw) % word = 0 := by rw [Nat.add_mul_mod_self_left, halp]
    obtain ⟨bs', h', hbs', hp'⟩ := h.take_part hp hidle hptr hpos hroom hal (s.mem (p + word * nw))
    have htake : take nw p q s = (p + word, { (s.set (p + word * nw) (s.mem p)).set p
        ⟨p + word * nw, true⟩ with
      allocp := p + word * nw, allocx := s.mem (p + word * nw),
      allocend := if s.allocend = p then p + word * nw else s.allocend }) := by
      rw [take]
      dsimp only
      rw [if_pos hroom]
      rfl
    rw [htake]
    refine ⟨bs', h', ?_, rfl, hp', update_self _ _ _, rfl⟩
    intro b hb hbusy
    refine ⟨hbs' b hb, fun a hba hab => ?_⟩
    have hpa := hapart (Nat.le_refl p) (by omega) b hb hbusy
    have hqa := hapart (Nat.le_of_lt hpos) hroom b hb hbusy
    simp only [mem_set]
    rw [update_of_ne (by omega), update_of_ne (by omega)]
  · have hq : q = p + word * nw := by omega
    have htake : take nw p q s = (p + word, { s.set p ⟨q, true⟩ with
      allocp := q, allocend := if s.allocend = p then q else s.allocend }) := by
      rw [take]
      dsimp only
      rw [if_neg hroom, ← hq]
      rfl
    rw [htake, ← hq]
    refine ⟨bs, h.take_all hp hidle hptr, ?_, rfl, hp, update_self _ _ _, rfl⟩
    apply keeps_set (hapart (Nat.le_refl p) (by omega)) _ fun _ hb _ => hb
    intro x hx
    exact update_of_ne hx _ _

end Arena

/-! ## `malloc` -/

/-- A growth of the arena, with `incr` before it -/
structure Growth where
  incr : ℕ
  brk : Brk
  sys : Sys

/-- The growths of a `malloc` -/
def growths (fuel nw : ℕ) : List Brk → ℕ → ℕ → Sys → List Growth
  | env, incr, p, s =>
    match search nw fuel p 0 s with
    | some (.top, s) =>
      match env with
      | [] => []
      | b :: env =>
        ⟨incr, b, s⟩ ::
          match grow nw b incr s with
          | some (p, incr, s) => growths fuel nw env incr p s
          | none => []
    | _ => []

/-- What a `malloc` does to an arena -/
structure Mallocs (nw : ℕ) (s : Sys) (bs : List ℕ) (r : Option ℕ) (s' : Sys) (bs' : List ℕ) : Prop where
  arena : Arena s' bs'
  keeps : Keeps s s' bs bs'
  allocs : s'.allocs = s.allocs
  got : ∀ p, r = some p → ∃ b ∈ bs', p = b + word ∧ s'.mem b = ⟨b + word * nw, true⟩ ∧
    ¬(b ∈ bs ∧ s.busy b = true)

namespace Mallocs

variable {nw : ℕ} {s s1 s' : Sys} {bs bs1 : List ℕ} {r : Option ℕ}

/-- What happens after other blocks were kept -/
theorem after (h : Arena s bs) (hk : Keeps s s1 bs bs1) (hbase : s1.allocs = s.allocs)
    (h1 : ∃ bs', Mallocs nw s1 bs1 r s' bs') : ∃ bs', Mallocs nw s bs r s' bs' := by
  obtain ⟨bs', h1⟩ := h1
  refine ⟨bs', h1.arena, h.keeps_trans hk h1.keeps, h1.allocs.trans hbase, fun p hp => ?_⟩
  obtain ⟨b, hb, hpb, hmem, hidle⟩ := h1.got p hp
  refine ⟨b, hb, hpb, hmem, fun hc => hidle ?_⟩
  obtain ⟨hb1, hsame⟩ := hk b hc.1 hc.2
  refine ⟨hb1, ?_⟩
  rw [Sys.busy, hsame b (Nat.le_refl b) (h.lt_ptr hc.1)]
  exact hc.2

theorem null (h : Arena s bs) : ∃ bs', Mallocs nw s bs none s bs' :=
  ⟨bs, h, Arena.keeps_refl s bs, rfl, nofun⟩

theorem found {p q : ℕ} (hnw : 0 < nw) (h : Arena s bs) (hend : Arena.Ended nw s bs (.found p q)) :
    ∃ bs', Mallocs nw s bs (some (take nw p q s).1) (take nw p q s).2 bs' := by
  obtain ⟨hp, hidle, hptr, hfit⟩ := hend
  obtain ⟨bs', h', hk', hret, hp', hmem, hbase⟩ := h.take_spec hp hidle hptr hnw hfit
  refine ⟨bs', h', hk', hbase, fun x hx => ⟨p, hp', ?_, hmem, fun hc => ?_⟩⟩
  · rw [← Option.some.inj hx, hret]
  · exact Arena.ne_of_busy hidle hc.2 rfl

end Mallocs

/-- The arena from which a `malloc` takes a block, or returns `NULL` -/
structure Reaches (nw : ℕ) (s : Sys) (bs : List ℕ) (r : Option ℕ) (s' s1 : Sys) (bs1 : List ℕ) :
    Prop where
  arena : Arena s1 bs1
  keeps : Keeps s s1 bs bs1
  quiet : Quiet s s1 bs bs1
  allocs : s1.allocs = s.allocs
  ends : (r = none ∧ s' = s1) ∨ ∃ p q, Arena.Ended nw s1 bs1 (.found p q) ∧
    r = some (take nw p q s1).1 ∧ s' = (take nw p q s1).2

namespace Reaches

variable {nw : ℕ} {s s0 s1 s' : Sys} {bs bs0 bs1 : List ℕ} {r : Option ℕ}

/-- What happens after other blocks were kept -/
theorem after (h : Arena s bs) (hk : Keeps s s0 bs bs0) (hquiet : Quiet s s0 bs bs0)
    (hbase : s0.allocs = s.allocs) (h0 : ∃ s1 bs1, Reaches nw s0 bs0 r s' s1 bs1) :
    ∃ s1 bs1, Reaches nw s bs r s' s1 bs1 := by
  obtain ⟨s1, bs1, h1⟩ := h0
  exact ⟨s1, bs1, h1.arena, h.keeps_trans hk h1.keeps, hquiet.trans h1.quiet,
    h1.allocs.trans hbase, h1.ends⟩

theorem null (h : Arena s bs) : ∃ s1 bs1, Reaches nw s bs none s s1 bs1 :=
  ⟨s, bs, h, Arena.keeps_refl s bs, Quiet.refl s bs, rfl, .inl ⟨rfl, rfl⟩⟩

theorem found {p q : ℕ} (h : Arena s bs) (hend : Arena.Ended nw s bs (.found p q)) :
    ∃ s1 bs1, Reaches nw s bs (some (take nw p q s).1) (take nw p q s).2 s1 bs1 :=
  ⟨s, bs, h, Arena.keeps_refl s bs, Quiet.refl s bs, rfl, .inr ⟨p, q, hend, rfl, rfl⟩⟩

end Reaches

theorem mallocLoop_reaches {fuel nw : ℕ} (hnw0 : 0 < nw) (hnw : nw < 2 ^ 30) {env : List Brk}
    {incr p : ℕ} {s s' : Sys} {bs : List ℕ} {r : Option ℕ} (h : Arena s bs)
    (hp : p ∈ bs ++ [s.alloct]) (hreal : ∀ g ∈ growths fuel nw env incr p s, Real nw g.brk g.sys)
    (hfit : ∀ g ∈ growths fuel nw env incr p s, Fits nw g.brk g.incr g.sys)
    (hr : mallocLoop fuel nw env incr p s = some (r, s')) :
    ∃ s1 bs1, Reaches nw s bs r s' s1 bs1 := by
  induction env generalizing incr p s bs with
  | nil =>
    unfold mallocLoop at hr
    cases hsearch : search nw fuel p 0 s with
    | none =>
      rw [hsearch] at hr
      exact absurd hr nofun
    | some x =>
      obtain ⟨e, s1⟩ := x
      rw [hsearch] at hr
      obtain ⟨bs1, h1, hk1, hquiet1, -, hbase1, hend⟩ :=
        h.search_spec hnw0 hnw hp (Arena.passed_zero nw p s) hsearch
      cases e with
      | found p q =>
        obtain ⟨rfl, rfl⟩ := Prod.mk.inj (Option.some.inj hr)
        exact Reaches.after h hk1 hquiet1 hbase1 (Reaches.found h1 hend)
      | corrupt => exact hend.elim
      | top => exact absurd hr nofun
  | cons b env ih =>
    unfold mallocLoop at hr
    unfold growths at hreal hfit
    cases hsearch : search nw fuel p 0 s with
    | none =>
      rw [hsearch] at hr
      exact absurd hr nofun
    | some x =>
      obtain ⟨e, s1⟩ := x
      rw [hsearch] at hr hreal hfit
      obtain ⟨bs1, h1, hk1, hquiet1, -, hbase1, hend⟩ :=
        h.search_spec hnw0 hnw hp (Arena.passed_zero nw p s) hsearch
      cases e with
      | found p q =>
        obtain ⟨rfl, rfl⟩ := Prod.mk.inj (Option.some.inj hr)
        exact Reaches.after h hk1 hquiet1 hbase1 (Reaches.found h1 hend)
      | corrupt => exact hend.elim
      | top =>
        dsimp only at hr hreal hfit
        cases hgrow : grow nw b incr s1 with
        | none =>
          rw [hgrow] at hr
          obtain ⟨rfl, rfl⟩ := Prod.mk.inj (Option.some.inj hr)
          exact Reaches.after h hk1 hquiet1 hbase1 (Reaches.null h1)
        | some y =>
          obtain ⟨p2, incr2, s2⟩ := y
          rw [hgrow] at hr hreal hfit
          rw [forall_mem_cons] at hreal hfit
          obtain ⟨bs2, h2, hk2, hquiet2, hp2, hbase2⟩ := h1.grow_spec hreal.1 hfit.1 hend hgrow
          have hrest := ih h2 hp2 hreal.2 hfit.2 hr
          exact Reaches.after h hk1 hquiet1 hbase1 (Reaches.after h1 hk2 hquiet2 hbase2 hrest)

/-- Before the first `malloc` the memory at `allocs` is clear. -/
structure Clear (s : Sys) : Prop where
  mem : s.mem s.allocs = ⟨0, false⟩
  aligned : s.allocs % word = 0
  bound : s.allocs + word + word ≤ 2 ^ 32

theorem start_clear {s : Sys} (h : Clear s) : Arena (start s) [s.allocs] := by
  have hstart : start s =
      { (s.set s.allocs ⟨s.allocs + word, true⟩).set (s.allocs + word) ⟨s.allocs, true⟩ with
        alloct := s.allocs + word
        allocp := s.allocs
        allocend := s.allocs + word } := by
    rw [start, if_pos]
    rw [Sys.ptr, Sys.busy, h.mem]
    exact ⟨rfl, rfl⟩
  have hne : s.allocs ≠ s.allocs + word := Nat.ne_of_lt (Nat.lt_add_of_pos_right (by decide))
  have hmem : (start s).mem s.allocs = ⟨s.allocs + word, true⟩ := by
    rw [hstart]
    simp only [mem_set]
    rw [update_of_ne hne, update_self]
  have hmemt : (start s).mem (s.allocs + word) = ⟨s.allocs, true⟩ := by
    rw [hstart]
    simp only [mem_set, update_self]
  have hallocs : (start s).allocs = s.allocs := by rw [hstart]; rfl
  have halloct : (start s).alloct = s.allocs + word := by rw [hstart]
  have hallocp : (start s).allocp = s.allocs := by rw [hstart]
  have hallocend : (start s).allocend = s.allocs + word := by rw [hstart]
  refine ⟨?_, ?_, ?_, ?_, ?_, ?_, ?_, ?_⟩
  · rw [halloct]
    exact .cons_cons ⟨Nat.lt_add_of_pos_right (by decide), by rw [Sys.ptr, hmem]⟩ (.singleton _)
  · rw [hallocs]
    rfl
  · rw [hallocs, Sys.busy, hmem]
  · rw [halloct, Sys.ptr, Sys.busy, hmemt, hallocs]
    exact ⟨rfl, rfl⟩
  · rw [halloct]
    exact h.bound
  · intro b hb
    rw [halloct] at hb
    rcases mem_cons.mp hb with rfl | hb
    · exact h.aligned
    · rw [mem_singleton.mp hb, Nat.add_mod_right]
      exact h.aligned
  · rw [hallocp]
    exact mem_cons_self
  · intro l hl
    have hla : s.allocs = l := Option.some.inj hl
    rw [hallocend, halloct, ← hla, Sys.busy, hmem, if_pos rfl]

theorem start_arena {s : Sys} {bs : List ℕ} (h : Arena s bs) : start s = s := by
  rw [start, if_neg]
  rw [h.base]
  exact fun hc => absurd hc.2 nofun

/-- The growths of the call `malloc(nbytes)` -/
def calls (fuel : ℕ) (env : List Brk) (nbytes : ℕ) (s : Sys) : List Growth :=
  growths fuel (nwords nbytes) env 0 (start s).allocp (start s)

/-- A size with its header does not wrap around. -/
theorem nwords_eq {n : ℕ} (hn : n + 7 < 2 ^ 32) : nwords n = (n + 7) / 4 := by
  rw [nwords, word]
  have hmod : (n + 4 + 4 - 1) % 2 ^ 32 = n + 7 := Nat.mod_eq_of_lt (by omega)
  rw [hmod]

/-- The arena from which the call `malloc(n)` takes its block -/
theorem malloc_reaches {fuel n : ℕ} {env : List Brk} {s s' : Sys} {bs : List ℕ} {r : Option ℕ}
    (h : Arena (start s) bs) (hn : n + 7 < 2 ^ 32)
    (hreal : ∀ g ∈ calls fuel env n s, Real (nwords n) g.brk g.sys)
    (hfit : ∀ g ∈ calls fuel env n s, Fits (nwords n) g.brk g.incr g.sys)
    (hr : malloc fuel env n s = some (r, s')) :
    ∃ s1 bs1, Reaches (nwords n) (start s) bs r s' s1 bs1 := by
  have hnw := nwords_eq hn
  exact mallocLoop_reaches (by omega) (by omega) h h.allocp hreal hfit hr

/-- A `malloc` keeps the arena that it starts with. -/
theorem malloc_spec {fuel n : ℕ} {env : List Brk} {s s' : Sys} {bs : List ℕ} {r : Option ℕ}
    (h : Arena (start s) bs) (hn : n + 7 < 2 ^ 32)
    (hreal : ∀ g ∈ calls fuel env n s, Real (nwords n) g.brk g.sys)
    (hfit : ∀ g ∈ calls fuel env n s, Fits (nwords n) g.brk g.incr g.sys)
    (hr : malloc fuel env n s = some (r, s')) : ∃ bs', Mallocs (nwords n) (start s) bs r s' bs' := by
  obtain ⟨s1, bs1, h1⟩ := malloc_reaches h hn hreal hfit hr
  refine Mallocs.after h h1.keeps h1.allocs ?_
  rcases h1.ends with ⟨rfl, rfl⟩ | ⟨p, q, hend, rfl, rfl⟩
  · exact Mallocs.null h1.arena
  · have hnw := nwords_eq hn
    exact Mallocs.found (by omega) h1.arena hend

namespace Arena

variable {s : Sys} {bs : List ℕ} {b p q n : ℕ}

theorem ptr_of_getLast {l : ℕ} (h : Arena s bs) (hl : bs.getLast? = some l) :
    s.ptr l = s.alloct := by
  obtain ⟨ys, hys⟩ := List.getLast?_eq_some_iff.mp hl
  have htiles := h.tiles
  rw [hys, append_assoc, singleton_append] at htiles
  exact htiles.next_eq.1

/-- Only the last block ends at the top. -/
theorem getLast_of_ptr {l : ℕ} (h : Arena s bs) (hb : b ∈ bs) (hl : bs.getLast? = some l)
    (htop : s.ptr b = s.alloct) : b = l := by
  have hlin := mem_of_getLast? hl
  have hlt := h.tiles.before l hlin
  rcases h.not_inside hb (mem_append_left _ hlin) with hle | hle
  · rcases h.not_inside hlin (mem_append_left _ hb) with hle' | hle'
    · exact Nat.le_antisymm hle' hle
    · rw [h.ptr_of_getLast hl] at hle'
      have hb' := h.tiles.before b hb
      omega
  · omega

/-- A busy block that is given back -/
theorem free_spec (h : Arena s bs) (hb : b ∈ bs) (hbase : b ≠ s.allocs) :
    Arena (free (b + word) s) bs := by
  have hfree : free (b + word) s = { s.set b ⟨s.ptr b, false⟩ with
      allocp := b, allocend := if s.ptr b = s.alloct then b else s.allocend } := by
    have hptr : (s.set b ⟨s.ptr b, false⟩).ptr b = s.ptr b := by
      rw [ptr_set, update_self]
    change { s.set b ⟨s.ptr b, false⟩ with
      allocp := b
      allocend := if (s.set b ⟨s.ptr b, false⟩).ptr b = s.alloct then b else s.allocend } = _
    rw [hptr]
  have hsame : (s.set b ⟨s.ptr b, false⟩).ptr = s.ptr := by
    rw [ptr_set, update_eq_self]
  have htop : s.alloct ≠ b := (Nat.ne_of_lt (h.tiles.before b hb)).symm
  rw [hfree]
  refine ⟨?_, h.head, ?_, ?_, h.bound, h.aligned, mem_append_left _ hb, fun l hl => ?_⟩
  · change Tiles (s.set b ⟨s.ptr b, false⟩).ptr _
    rw [hsame]
    exact h.tiles
  · change (s.set b ⟨s.ptr b, false⟩).busy s.allocs = true
    rw [busy_set, update_of_ne hbase.symm]
    exact h.base
  · change (s.set b ⟨s.ptr b, false⟩).ptr s.alloct = s.allocs ∧
      (s.set b ⟨s.ptr b, false⟩).busy s.alloct = true
    rw [hsame, busy_set, update_of_ne htop]
    exact h.top
  · change (if s.ptr b = s.alloct then b else s.allocend) =
      if (s.set b ⟨s.ptr b, false⟩).busy l then s.alloct else l
    rw [busy_set]
    by_cases hlast : s.ptr b = s.alloct
    · have hbl := h.getLast_of_ptr hb hl hlast
      rw [if_pos hlast, ← hbl, update_self, if_neg nofun]
    · have hlb : l ≠ b := fun heq => hlast (heq ▸ h.ptr_of_getLast hl)
      rw [if_neg hlast, update_of_ne hlb]
      exact h.allocend l hl

/-- What is stored inside of a block changes no header. -/
theorem inside {m : ℕ → Store} (h : Arena s bs) (hb : b ∈ bs)
    (hm : ∀ x, x ≤ b ∨ s.ptr b ≤ x → m x = s.mem x) :
    Arena { s with mem := m } bs ∧ ∀ x ∈ bs, m x = s.mem x := by
  have hmem (x : ℕ) (hx : x ∈ bs ++ [s.alloct]) : m x = s.mem x := hm x (h.not_inside hb hx)
  have hin (x : ℕ) (hx : x ∈ bs) : m x = s.mem x := hmem x (mem_append_left _ hx)
  refine ⟨⟨?_, h.head, ?_, ?_, h.bound, h.aligned, h.allocp, fun l hl => ?_⟩, hin⟩
  · exact h.tiles.congr fun x hx => congrArg Store.ptr (hin x hx)
  · exact (congrArg Store.busy (hin s.allocs h.base_mem)).trans h.base
  · have htop := hmem s.alloct (mem_append_right _ (mem_singleton.mpr rfl))
    exact ⟨(congrArg Store.ptr htop).trans h.top.1, (congrArg Store.busy htop).trans h.top.2⟩
  · change s.allocend = if (m l).busy then s.alloct else l
    rw [hin l (mem_of_getLast? hl)]
    exact h.allocend l hl

end Arena

theorem memcpy_succ (q p n : ℕ) (s : Sys) : memcpy q p (n + 1) s =
    (memcpy q p n s).set (q + word * n) ((memcpy q p n s).mem (p + word * n)) := by
  rw [memcpy, range_succ, foldl_append]
  rfl

/-- `memcpy` writes from `q` on. -/
theorem memcpy_eq (q p n : ℕ) (s : Sys) : ∃ m, memcpy q p n s = { s with mem := m } ∧
    ∀ x, x < q ∨ q + word * n ≤ x → m x = s.mem x := by
  induction n with
  | zero => exact ⟨s.mem, rfl, fun _ _ => rfl⟩
  | succ n ih =>
    obtain ⟨m, hm, hsame⟩ := ih
    refine ⟨update m (q + word * n) (m (p + word * n)), ?_, fun x hx => ?_⟩
    · rw [memcpy_succ, hm]
      rfl
    · rw [word] at hx hsame ⊢
      rw [update_of_ne (by omega), hsame x (by omega)]

/-! ## Callers -/

/-- The memory with the blocks that callers have, and the sizes they asked for -/
structure Hist where
  sys : Sys
  live : ℕ → Option ℕ

inductive Act
  | malloc (fuel : ℕ) (env : List Brk) (nbytes : ℕ)
  | free (p : ℕ)
  | realloc (fuel : ℕ) (env : List Brk) (p nbytes : ℕ)
  | store (p i : ℕ) (w : Store)

instance {nw : ℕ} {b : Brk} {s : Sys} : Decidable (Real nw b s) :=
  inferInstanceAs (Decidable (_ ∧ _))

instance {nw : ℕ} {b : Brk} {incr : ℕ} {s : Sys} : Decidable (Fits nw b incr s) :=
  inferInstanceAs (Decidable (_ ∧ _))

namespace Hist

/-- The caller gets a block, or nothing. -/
def get (live : ℕ → Option ℕ) (nbytes : ℕ) (r : Option ℕ × Sys) : Hist :=
  match r.1 with
  | none => ⟨r.2, live⟩
  | some p => ⟨r.2, update live p (some nbytes)⟩

/-- Callers give back blocks that they have, and store only into these; the system gives memory behind the
arena. -/
def next (t : Hist) : Act → Option Hist
  | .malloc fuel env n =>
    if n < 2 ^ 32 ∧ (∀ g ∈ calls fuel env n t.sys, Real (nwords n) g.brk g.sys) then
      (malloc fuel env n t.sys).map (get t.live n)
    else none
  | .free p =>
    if (t.live p).isSome then some ⟨Libc.free p t.sys, update t.live p none⟩ else none
  | .realloc fuel env p n =>
    if n < 2 ^ 32 ∧ (t.live p).isSome ∧
        (∀ g ∈ calls fuel env n (Libc.free p t.sys), Real (nwords n) g.brk g.sys) then
      (realloc fuel env p n t.sys).map (get (update t.live p none) n)
    else none
  | .store p i w =>
    if (t.live p).any (word * i < ·) then some { t with sys := t.sys.set (p + word * i) w } else none

end Hist

def Step (t : Hist) (a : Act) (t' : Hist) : Prop := t.next a = some t'

/-- No size wraps around, and no growth subtracts an old `incr`. -/
def Sane (t : Hist) : Act → Prop
  | .malloc fuel env n =>
    n + 7 < 2 ^ 32 ∧ ∀ g ∈ calls fuel env n t.sys, Fits (nwords n) g.brk g.incr g.sys
  | .realloc fuel env p n =>
    n + 7 < 2 ^ 32 ∧ ∀ g ∈ calls fuel env n (free p t.sys), Fits (nwords n) g.brk g.incr g.sys
  | .free _ => True
  | .store _ _ _ => True

instance (t : Hist) : DecidablePred (Sane t)
  | .malloc _ _ _ => inferInstanceAs (Decidable (_ ∧ _))
  | .realloc _ _ _ _ => inferInstanceAs (Decidable (_ ∧ _))
  | .free _ => .isTrue trivial
  | .store _ _ _ => .isTrue trivial

/-- The blocks that callers have are busy, and have room. -/
def Held (s : Sys) (bs : List ℕ) (live : ℕ → Option ℕ) : Prop :=
  ∀ p n, live p = some n →
    ∃ b ∈ bs, p = b + word ∧ s.busy b = true ∧ b ≠ s.allocs ∧ p + n ≤ s.ptr b

namespace Held

variable {s s' : Sys} {bs bs' : List ℕ} {live : ℕ → Option ℕ} {p n : ℕ}

theorem congr (h : Held s bs live) (hbase : s'.allocs = s.allocs)
    (hmem : ∀ b ∈ bs, s'.mem b = s.mem b) : Held s' bs live := by
  intro p n hp
  obtain ⟨b, hb, hpb, hbusy, hne, hroom⟩ := h p n hp
  have hsame := hmem b hb
  exact ⟨b, hb, hpb, (congrArg Store.busy hsame).trans hbusy, hbase ▸ hne,
    hroom.trans_eq (congrArg Store.ptr hsame).symm⟩

theorem keeps (h : Held s bs live) (ha : Arena s bs) (hk : Keeps s s' bs bs')
    (hbase : s'.allocs = s.allocs) : Held s' bs' live := by
  intro p n hp
  obtain ⟨b, hb, hpb, hbusy, hne, hroom⟩ := h p n hp
  obtain ⟨hb', hmem⟩ := hk b hb hbusy
  have hsame := hmem b (Nat.le_refl b) (ha.lt_ptr hb)
  exact ⟨b, hb', hpb, (congrArg Store.busy hsame).trans hbusy, hbase ▸ hne,
    hroom.trans_eq (congrArg Store.ptr hsame).symm⟩

/-- A block that is given back -/
theorem drop (h : Held s bs live) (ha : Arena s bs) (hp : live p = some n) :
    Arena (free p s) bs ∧ Held (free p s) bs (update live p none) := by
  obtain ⟨b, hb, rfl, -, hne, -⟩ := h p n hp
  refine ⟨ha.free_spec hb hne, fun q m hq => ?_⟩
  have hqb : q ≠ b + word := by
    intro heq
    rw [heq, update_self] at hq
    exact absurd hq nofun
  rw [update_of_ne hqb] at hq
  obtain ⟨c, hc, hqc, hbusy, hbase, hroom⟩ := h q m hq
  have hcb : c ≠ b := fun heq => hqb (heq ▸ hqc)
  have hmem : (free (b + word) s).mem c = s.mem c := update_of_ne hcb _ _
  exact ⟨c, hc, hqc, (congrArg Store.busy hmem).trans hbusy, hbase,
    hroom.trans_eq (congrArg Store.ptr hmem).symm⟩

/-- Blocks that callers have do not overlap. -/
theorem disjoint (h : Held s bs live) (ha : Arena s bs) {q m : ℕ} (hp : live p = some n)
    (hq : live q = some m) (hpq : p < q) : p + n + word ≤ q := by
  obtain ⟨b, hb, hpb, -, -, hroom⟩ := h p n hp
  obtain ⟨c, hc, hqc, -, -, -⟩ := h q m hq
  rcases ha.not_inside hb (mem_append_left _ hc) with hle | hle
  · omega
  · omega

end Held

namespace Mallocs

variable {s s' : Sys} {bs bs' : List ℕ} {live : ℕ → Option ℕ} {n nw : ℕ} {r : Option ℕ}

/-- What is stored in the new block changes no other block. -/
theorem write {m : ℕ → Store} (h : Mallocs nw s bs r s' bs') (ha : Arena s bs)
    (hm : ∀ x, m x ≠ s'.mem x → ∃ q, r = some q ∧ q ≤ x ∧ x + word < q + word * nw) :
    Mallocs nw s bs r { s' with mem := m } bs' := by
  cases r with
  | none =>
    have hsame : m = s'.mem := by
      funext x
      by_contra hx
      obtain ⟨q, hq, -⟩ := hm x hx
      exact absurd hq nofun
    rw [hsame]
    exact h
  | some q =>
    obtain ⟨b, hb, hqb, hmem, hnew⟩ := h.got q rfl
    have hptr : s'.ptr b = b + word * nw := congrArg Store.ptr hmem
    have hout (x : ℕ) (hx : x ≤ b ∨ s'.ptr b ≤ x) : m x = s'.mem x := by
      by_contra hc
      obtain ⟨q', hq', hlow, hhigh⟩ := hm x hc
      obtain rfl := Option.some.inj hq'
      rw [word] at *
      omega
    obtain ⟨harena, hheads⟩ := h.arena.inside hb hout
    refine ⟨harena, fun c hc hbusy => ?_, h.allocs, fun p hp => ⟨b, hb, ?_, ?_, hnew⟩⟩
    · obtain ⟨hc', hkeep⟩ := h.keeps c hc hbusy
      refine ⟨hc', fun x hcx hxc => ?_⟩
      have hcb : c ≠ b := fun heq => hnew (heq ▸ ⟨hc, hbusy⟩)
      have hcptr : s'.ptr c = s.ptr c :=
        congrArg Store.ptr (hkeep c (Nat.le_refl c) (ha.lt_ptr hc))
      rw [← hkeep x hcx hxc]
      apply hout
      rcases h.arena.not_inside hb (mem_append_left _ hc') with hle | hle
      · rcases h.arena.not_inside hc' (mem_append_left _ hb) with hle' | hle'
        · exact absurd (Nat.le_antisymm hle hle') hcb
        · exact .inl (by omega)
      · exact .inr (Nat.le_trans hle hcx)
    · rw [← Option.some.inj hp, hqb]
    · exact (hheads b hb).trans hmem

/-- The caller has the new block. -/
theorem held (h : Mallocs (nwords n) s bs r s' bs') (ha : Arena s bs) (hl : Held s bs live)
    (hn : n + 7 < 2 ^ 32) :
    Arena (Hist.get live n (r, s')).sys bs' ∧
      Held (Hist.get live n (r, s')).sys bs' (Hist.get live n (r, s')).live := by
  have hkept := hl.keeps ha h.keeps h.allocs
  cases r with
  | none => exact ⟨h.arena, hkept⟩
  | some q =>
    obtain ⟨b, hb, hqb, hmem, hnew⟩ := h.got q rfl
    refine ⟨h.arena, fun p m hp => ?_⟩
    change update live q (some n) p = some m at hp
    by_cases hpq : p = q
    · rw [hpq, update_self] at hp
      refine ⟨b, hb, hpq.trans hqb, congrArg Store.busy hmem, fun heq => ?_, ?_⟩
      · change b = s'.allocs at heq
        rw [h.allocs] at heq
        exact hnew (heq ▸ ⟨ha.base_mem, ha.base⟩)
      · change p + m ≤ s'.ptr b
        have hptr : s'.ptr b = b + word * nwords n := congrArg Store.ptr hmem
        rw [hptr, hpq, hqb, nwords_eq hn, ← Option.some.inj hp, word]
        omega
    · rw [update_of_ne hpq] at hp
      exact hkept p m hp

end Mallocs

/-- `realloc` gives the block back, gets one, and writes only into that. -/
theorem realloc_eq {fuel p n : ℕ} {env : List Brk} {s s' : Sys} {r : Option ℕ} (hn : n + 7 < 2 ^ 32)
    (hbusy : s.busy (p - word) = true) (hr : realloc fuel env p n s = some (r, s')) :
    ∃ s1 m, malloc fuel env n (free p s) = some (r, s1) ∧ s' = { s1 with mem := m } ∧
      ∀ x, m x ≠ s1.mem x → ∃ q, r = some q ∧ q ≤ x ∧ x + word < q + word * nwords n := by
  rw [realloc, if_pos hbusy] at hr
  cases hm : malloc fuel env n (free p s) with
  | none =>
    rw [hm] at hr
    exact absurd hr nofun
  | some y =>
    obtain ⟨r1, s1⟩ := y
    rw [hm] at hr
    cases r1 with
    | none =>
      obtain ⟨rfl, rfl⟩ := Prod.mk.inj (Option.some.inj hr)
      exact ⟨s1, s1.mem, rfl, rfl, fun x hx => absurd rfl hx⟩
    | some q =>
      dsimp only at hr
      have hnw : (n + word - 1) % 2 ^ 32 / word = (n + 3) / 4 := by
        rw [word, Nat.mod_eq_of_lt (by omega)]
        rfl
      have hroom : word * nwords n = word * ((n + 3) / 4) + word := by
        rw [nwords_eq hn, word]
        omega
      rw [hnw] at hr
      split at hr
      next =>
        obtain ⟨rfl, rfl⟩ := Prod.mk.inj (Option.some.inj hr)
        exact ⟨s1, s1.mem, rfl, rfl, fun x hx => absurd rfl hx⟩
      next =>
        obtain ⟨m, hcopy, hsame⟩ := memcpy_eq q p
          (min ((n + 3) / 4) (((free p s).ptr (p - word) - p) / word)) s1
        have hle := Nat.mul_le_mul_left word (Nat.min_le_left ((n + 3) / 4)
          (((free p s).ptr (p - word) - p) / word))
        rw [hcopy] at hr
        split at hr
        next hover =>
          obtain ⟨rfl, rfl⟩ := Prod.mk.inj (Option.some.inj hr)
          refine ⟨s1, _, rfl, rfl, fun x hx => ⟨q, rfl, ?_⟩⟩
          by_cases hxa : x = q + (q + word * ((n + 3) / 4) - p)
          · omega
          · rw [update_of_ne hxa] at hx
            have hin : ¬(x < q ∨ q + word * _ ≤ x) := fun hc => hx (hsame x hc)
            omega
        next =>
          obtain ⟨rfl, rfl⟩ := Prod.mk.inj (Option.some.inj hr)
          refine ⟨s1, m, rfl, rfl, fun x hx => ⟨q, rfl, ?_⟩⟩
          have hin : ¬(x < q ∨ q + word * _ ≤ x) := fun hc => hx (hsame x hc)
          omega

def Inv (t : Hist) : Prop :=
  (Clear t.sys ∧ ∀ p, t.live p = none) ∨ ∃ bs, Arena t.sys bs ∧ Held t.sys bs t.live

/-- The first time, an arena is made for no caller. -/
theorem Inv.start {t : Hist} (h : Inv t) :
    ∃ bs, Arena (start t.sys) bs ∧ Held (Libc.start t.sys) bs t.live := by
  rcases h with ⟨hclear, hnone⟩ | ⟨bs, ha, hl⟩
  · refine ⟨_, start_clear hclear, fun p n hp => ?_⟩
    rw [hnone p] at hp
    exact absurd hp nofun
  · rw [start_arena ha]
    exact ⟨bs, ha, hl⟩

/-- Callers have blocks of an arena only. -/
theorem Inv.arena {t : Hist} {p : ℕ} (h : Inv t) (hp : (t.live p).isSome) :
    ∃ bs n, Arena t.sys bs ∧ Held t.sys bs t.live ∧ t.live p = some n := by
  obtain ⟨n, hn⟩ := Option.isSome_iff_exists.mp hp
  rcases h with ⟨-, hnone⟩ | ⟨bs, ha, hl⟩
  · rw [hnone p] at hn
    exact absurd hn nofun
  · exact ⟨bs, n, ha, hl, hn⟩

theorem inv_step {t t' : Hist} {a : Act} (h : Inv t) (hs : Step t a t' ∧ Sane t a) : Inv t' := by
  obtain ⟨hstep, hsane⟩ := hs
  cases a with
  | malloc fuel env n =>
    rw [Step, Hist.next] at hstep
    split at hstep
    next hok =>
      obtain ⟨⟨r, s'⟩, hr, rfl⟩ := Option.map_eq_some_iff.mp hstep
      obtain ⟨bs, ha, hl⟩ := h.start
      obtain ⟨bs', hm⟩ := malloc_spec ha hsane.1 hok.2 hsane.2 hr
      exact .inr ⟨bs', hm.held ha hl hsane.1⟩
    next => exact absurd hstep nofun
  | free p =>
    rw [Step, Hist.next] at hstep
    split at hstep
    next hp =>
      obtain ⟨bs, n, ha, hl, hn⟩ := h.arena hp
      exact Option.some.inj hstep ▸ .inr ⟨bs, hl.drop ha hn⟩
    next => exact absurd hstep nofun
  | realloc fuel env p n =>
    rw [Step, Hist.next] at hstep
    split at hstep
    next hok =>
      obtain ⟨⟨r, s'⟩, hr, rfl⟩ := Option.map_eq_some_iff.mp hstep
      obtain ⟨bs, m, ha, hl, hm⟩ := h.arena hok.2.1
      obtain ⟨b, hb, rfl, hbusy, -, -⟩ := hl p m hm
      obtain ⟨ha1, hl1⟩ := hl.drop ha hm
      obtain ⟨s1, m, hr1, rfl, hsame⟩ := realloc_eq hsane.1 hbusy hr
      have hstart := start_arena ha1
      obtain ⟨bs', hm⟩ := malloc_spec (hstart.symm ▸ ha1) hsane.1 hok.2.2 hsane.2 hr1
      rw [hstart] at hm
      exact .inr ⟨bs', (hm.write ha1 hsame).held ha1 hl1 hsane.1⟩
    next => exact absurd hstep nofun
  | store p i w =>
    rw [Step, Hist.next] at hstep
    split at hstep
    next hp =>
      obtain ⟨n, hn, hi⟩ := Option.any_eq_true _ _ |>.mp hp
      obtain ⟨bs, m, ha, hl, hm⟩ := h.arena (Option.isSome_of_mem hn)
      obtain rfl := Option.some.inj (hm.symm.trans hn)
      obtain ⟨b, hb, rfl, -, -, hroom⟩ := hl p m hm
      have hi := of_decide_eq_true hi
      obtain ⟨ha', hheads⟩ := ha.inside (m := (t.sys.set (b + word + word * i) w).mem) hb
        fun x hx => update_of_ne (by rw [word] at *; omega) _ _
      exact Option.some.inj hstep ▸ .inr ⟨bs, ha', hl.congr rfl hheads⟩
    next => exact absurd hstep nofun

/-- The arena is a circle of blocks with `allocend` at its end, the blocks that callers have have room and
do not overlap, and a `malloc` that returns `NULL` leaves them as they are. -/
structure Law (t : Hist) : Prop where
  arena : Inv t
  disjoint : ∀ p m q n, t.live p = some m → t.live q = some n → p < q → p + m + word ≤ q
  null : ∀ fuel env n s', Sane t (.malloc fuel env n) →
    (∀ g ∈ calls fuel env n t.sys, Real (nwords n) g.brk g.sys) →
    malloc fuel env n t.sys = some (none, s') → ∀ p m, t.live p = some m →
      ∀ a, p - word ≤ a → a < t.sys.ptr (p - word) → s'.mem a = t.sys.mem a

theorem Inv.law {t : Hist} (h : Inv t) : Law t := by
  refine ⟨h, fun p m q n hp hq hpq => ?_, fun fuel env n s' hsane hreal hr p m hp a hpa hap => ?_⟩
  · obtain ⟨bs, k, ha, hl, -⟩ := h.arena (Option.isSome_of_mem hp)
    exact hl.disjoint ha hp hq hpq
  · obtain ⟨bs, k, ha, hl, -⟩ := h.arena (Option.isSome_of_mem hp)
    have hstart := start_arena ha
    obtain ⟨bs', hm⟩ := malloc_spec (hstart.symm ▸ ha) hsane.1 hreal hsane.2 hr
    rw [hstart] at hm
    obtain ⟨b, hb, rfl, hbusy, -, -⟩ := hl p m hp
    rw [Nat.add_sub_cancel] at hpa hap
    exact (hm.keeps b hb hbusy).2 a hpa hap

/-- While no size wraps around and no growth subtracts an old `incr`, the arena is sound. -/
theorem arena_sound {s : Sys} (h : Clear s) {as : List Act} {t : Hist}
    (hrun : Run (fun t a t' => Step t a t' ∧ Sane t a) ⟨s, fun _ => none⟩ as t) : Law t :=
  Inv.law (hrun.invariant (fun _ _ _ => inv_step) (.inl ⟨h, fun _ => rfl⟩))

/-- Memory that is clear, with `allocs` at 1000 -/
def clear : Hist := ⟨⟨fun _ => ⟨0, false⟩, 1000, 0, 0, ⟨0, false⟩, 0⟩, fun _ => none⟩

theorem clear_clear : Clear clear.sys := ⟨rfl, rfl, by decide⟩

/-- The second growth of the arena is behind a break that the caller moved. -/
def moved : List Act :=
  [.malloc 30 [⟨1008, true, true⟩] 500, .malloc 30 [] 8, .free 1008, .malloc 30 [] 4,
    .malloc 30 [⟨3001, true, true⟩] 1000, .realloc 30 [] 1008 9]

theorem arena_sound_moved : ∃ t, t.live 1008 = some 9 ∧ t.live 3008 = some 1000 ∧ Law t := by
  have hrun : ((moved.foldlM (fun t a => if Sane t a then t.next a else none) clear).any fun t =>
      t.live 1008 = some 9 ∧ t.live 3008 = some 1000) = true := by
    decide
  obtain ⟨t, ht, hend⟩ := Run.of_foldlM hrun
  have hsane : Run (fun t a t' => Step t a t' ∧ Sane t a) clear moved t := by
    apply ht.mono
    intro s a t hs
    split at hs
    next hl => exact ⟨hs, hl⟩
    next => exact absurd hs nofun
  have hend' := of_decide_eq_true hend
  exact ⟨t, hend'.1, hend'.2, arena_sound clear_clear hsane⟩

/-- The size of all of memory wraps around, and the caller gets a block of no room. -/
theorem largest_gets_none : ¬ ∀ (s : Sys) (as : List Act) (t : Hist), Clear s →
    Run Step ⟨s, fun _ => none⟩ as t → Law t := by
  intro hall
  have hrun : (([.malloc 30 [⟨1008, true, true⟩] (2 ^ 32 - 1)] : List Act).foldlM
      Hist.next clear).any (fun t =>
        t.live 1008 = some (2 ^ 32 - 1) ∧ t.sys.allocs = 1000 ∧ t.sys.alloct < 2 ^ 16) = true := by
    decide
  obtain ⟨t, ht, hend⟩ := Run.of_foldlM hrun
  have hlaw := hall clear.sys _ t clear_clear ht
  obtain ⟨hlive, -, htop⟩ := of_decide_eq_true hend
  obtain ⟨bs, n, ha, hl, -⟩ := hlaw.arena.arena (Option.isSome_of_mem hlive)
  obtain ⟨b, hb, -, -, -, hroom⟩ := hl 1008 _ hlive
  have hle := ha.le_top (ha.ptr_mem hb)
  omega

end Svr3.Libc
