import Mathlib.Data.List.GetD
import Svr3.Io.StreamAdj
import Svr3.Io.StreamRefsRun

/-!
# What a pulled up message holds

`pullupmsg` keeps the bytes of a message, each with its type, wherever it returns 1 and does not
link the first block behind itself. The buffers of the data blocks are as `strinit` lays them out:
apart from each other, of the sizes of their classes, and word-aligned.
-/

namespace Svr3.Str

open List

/-- The bytes of a message block, each with the type of the block. -/
def tag (h : Heap) (b : ℕ) : List (Option UInt8 × UInt8) := (bytes h b).map fun x => (dbType h b, x)

/-- The bytes of a message with their types. -/
def typed (h : Heap) (m : List ℕ) : List (Option UInt8 × UInt8) := m.flatMap (tag h)

section Typed

variable {h h' : Heap} {b : ℕ} {m xs ys : List ℕ}

@[simp]
theorem typed_nil : typed h [] = [] := rfl

@[simp]
theorem typed_cons : typed h (b :: m) = tag h b ++ typed h m := flatMap_cons

@[simp]
theorem tag_snd : (tag h b).map Prod.snd = bytes h b := by
  unfold tag
  rw [map_map]
  exact map_id _

theorem tag_length (hb : Sound h b) : ((tag h b).length : ℤ) = bsz h b := by
  unfold tag
  rw [length_map]
  exact bytes_length hb

/-- The header of a block is elsewhere. -/
theorem tag_move {c : ℕ} (hmem : h'.mem = h.mem)
    (htypes : ∀ d, (h'.dblk d).db_type = (h.dblk d).db_type)
    (hr : (h'.mblk c).b_rptr = (h.mblk b).b_rptr) (hw : (h'.mblk c).b_wptr = (h.mblk b).b_wptr)
    (hd : h'.b_datap c = h.b_datap b) : tag h' c = tag h b := by
  unfold tag bytes dbType
  rw [hmem, hr, hw, hd]
  simp only [htypes]

theorem typed_congr (hm : ∀ b ∈ m, tag h' b = tag h b) : typed h' m = typed h m := flatMap_congr hm

/-- The first bytes of a message are of the type of the first block. -/
theorem typed_take {mp : ℕ} {len : ℕ} (hs : ∀ b ∈ m, Sound h b)
    (hlen : (len : ℤ) ≤ total h (lead h mp m)) :
    (typed h m).take len = (((typed h m).take len).map Prod.snd).map fun x => (dbType h mp, x) := by
  rw [map_map]
  refine (map_id _).symm.trans (map_congr_left fun x hx => ?_)
  induction m generalizing len with
  | nil =>
    rw [typed_nil, take_nil] at hx
    exact absurd hx not_mem_nil
  | cons b m ih =>
    have hb := hs b mem_cons_self
    have htag := tag_length hb
    rw [typed_cons, take_append, mem_append] at hx
    unfold lead at hlen
    rw [takeWhile_cons] at hlen
    by_cases htype : dbType h b = dbType h mp
    · rw [if_pos (decide_eq_true htype), total_cons] at hlen
      rcases hx with hx | hx
      · obtain ⟨y, -, rfl⟩ := mem_map.mp (mem_of_mem_take hx)
        rw [← htype]
        rfl
      · refine ih (fun c hc => hs c (mem_cons_of_mem b hc)) ?_ hx
        have htail := total_nonneg (m := lead h mp m) fun c hc =>
          hs c (mem_cons_of_mem b (( takeWhile_prefix _).subset hc))
        unfold lead at htail ⊢
        omega
    · rw [if_neg (by simpa using htype), total_nil] at hlen
      obtain rfl : len = 0 := by omega
      rw [Nat.zero_sub, take_zero, take_zero] at hx
      simp at hx

end Typed

/-! ## Bytes that are copied -/

section Copy

variable {h h' : Heap} {nb b c lo hi : ℕ}

theorem bcopy_other {mem : ℕ → UInt8} {src dst n a : ℕ} (ha : a < dst ∨ dst + n ≤ a) :
    bcopy mem src dst n a = mem a := by
  unfold bcopy
  rw [if_neg (by omega)]

theorem pullBytes_mem (h : Heap) (nb b c : ℕ) : (pullBytes h nb b c).mem =
    bcopy h.mem (h.mblk b).b_rptr (h.mblk nb).b_wptr c := rfl

/-- The bytes that are copied come behind those of the new block. -/
theorem pullBytes_bytes_new (hne : b ≠ nb) (hrw : (h.mblk nb).b_rptr ≤ (h.mblk nb).b_wptr)
    (hc : (c : ℤ) ≤ bsz h b) : bytes (pullBytes h nb b c) nb = bytes h nb ++ (bytes h b).take c := by
  unfold bsz at hc
  have hsub : (h.mblk nb).b_wptr + c - (h.mblk nb).b_rptr =
      ((h.mblk nb).b_wptr - (h.mblk nb).b_rptr) + c := by
    omega
  unfold bytes
  rw [pullBytes_new hne, ← map_take, take_range'_of_length_ge (by omega)]
  simp only
  rw [hsub, ← List.range'_append_1, map_append, Nat.add_sub_cancel' hrw]
  congr 1
  · apply map_congr_left
    intro a ha
    obtain ⟨-, h2⟩ := mem_range'_1.mp ha
    exact bcopy_other (by omega)
  · apply ext_getElem
    · simp
    · intro i h1 h2
      simp only [length_map, length_range'] at h1
      simp only [getElem_map, getElem_range', Nat.one_mul, pullBytes_mem]
      unfold bcopy
      rw [if_pos (by omega)]
      congr 1
      omega

/-- The bytes of `b` are not in the buffer from `lo` to `hi`. -/
def Apart (h : Heap) (lo hi b : ℕ) : Prop := (h.mblk b).b_wptr ≤ lo ∨ hi ≤ (h.mblk b).b_rptr

theorem pullBytes_mem_apart {x a : ℕ} (hlo : lo ≤ (h.mblk nb).b_wptr)
    (hhi : (h.mblk nb).b_wptr + c ≤ hi) (hx : Apart h lo hi x) (h1 : (h.mblk x).b_rptr ≤ a)
    (h2 : a < (h.mblk x).b_wptr) : (pullBytes h nb b c).mem a = h.mem a := by
  unfold Apart at hx
  exact bcopy_other (by omega)

theorem pullBytes_tag {x : ℕ} (hne : b ≠ nb) (hxn : x ≠ nb) (hxb : x ≠ b)
    (hlo : lo ≤ (h.mblk nb).b_wptr) (hhi : (h.mblk nb).b_wptr + c ≤ hi) (hx : Apart h lo hi x) :
    tag (pullBytes h nb b c) x = tag h x := by
  unfold tag
  rw [bytes_congr (fun a h1 h2 => pullBytes_mem_apart hlo hhi hx h1 h2) (pullBytes_other hxn hxb)]
  unfold dbType
  rw [(pullBytes_cont hne).2]
  rfl

theorem pullBytes_tag_self (hne : b ≠ nb) (hlo : lo ≤ (h.mblk nb).b_wptr)
    (hhi : (h.mblk nb).b_wptr + c ≤ hi) (hb : Apart h lo hi b) :
    tag (pullBytes h nb b c) b = (tag h b).drop c := by
  unfold tag
  rw [bytes_rptr (fun a h1 h2 => pullBytes_mem_apart hlo hhi hb h1 h2) (pullBytes_bp hne),
    map_drop]
  unfold dbType
  rw [(pullBytes_cont hne).2]
  rfl

end Copy

/-! ## The loop -/

/-- What `freeb` leaves alone, whatever the counts. -/
structure FreeKeeps (h h' : Heap) (b : ℕ) : Prop where
  mem : h'.mem = h.mem
  cont : h'.b_cont = h.b_cont
  other : ∀ c, c ≠ b → h'.mblk c = h.mblk c
  rptr : (h'.mblk b).b_rptr = (h.mblk b).b_rptr
  wptr : (h'.mblk b).b_wptr = (h.mblk b).b_wptr
  types : ∀ d, (h'.dblk d).db_type = (h.dblk d).db_type

section Loop

variable {h h' : Heap} {mp nb b lo hi n : ℕ} {p p' : Option ℕ} {len : ℤ} {sfx left : List ℕ}

theorem FreeKeeps.refl (h : Heap) (b : ℕ) : FreeKeeps h h b :=
  ⟨rfl, rfl, fun _ _ => rfl, rfl, rfl, fun _ => rfl⟩

theorem freed_keeps (h : Heap) (c d : ℕ) : (freed h c d).mem = h.mem ∧ (freed h c d).mblk = h.mblk ∧
    ∀ e, ((freed h c d).dblk e).db_type = (h.dblk e).db_type := by
  have hall (e : ℕ) : ((h.setD d { h.dblk d with db_freep := h.dbfreelist c }).dblk e).db_type =
      (h.dblk e).db_type := by
    by_cases hed : e = d
    · rw [hed, setD_self]
    · rw [setD_other hed]
  unfold freed
  simp only
  split <;> exact ⟨rfl, rfl, hall⟩

theorem freeb_keeps (he : freeb h b = some h') : FreeKeeps h h' b := by
  unfold freeb at he
  cases hd : h.b_datap b with
  | none =>
    rw [hd] at he
    exact absurd he nofun
  | some d =>
    rw [hd] at he
    simp only [setD_self, Option.some.injEq] at he
    obtain ⟨h1, hh1⟩ : ∃ h1, h1 = (if (h.dblk d).db_ref - 1 = 0 then
        freed (h.setD d { h.dblk d with db_ref := (h.dblk d).db_ref - 1 }) (h.dblk d).db_class d
      else h.setD d { h.dblk d with db_ref := (h.dblk d).db_ref - 1 }) := ⟨_, rfl⟩
    have hset (e : ℕ) : ((h.setD d { h.dblk d with db_ref := (h.dblk d).db_ref - 1 }).dblk e).db_type =
        (h.dblk e).db_type := by
      by_cases hed : e = d
      · rw [hed, setD_self]
      · rw [setD_other hed]
    have h1keeps : h1.mem = h.mem ∧ h1.mblk = h.mblk ∧
        ∀ e, (h1.dblk e).db_type = (h.dblk e).db_type := by
      rw [hh1]
      split
      · obtain ⟨hk1, hk2, hk3⟩ := freed_keeps
          (h.setD d { h.dblk d with db_ref := (h.dblk d).db_ref - 1 }) (h.dblk d).db_class d
        exact ⟨hk1, hk2, fun e => (hk3 e).trans (hset e)⟩
      · exact ⟨rfl, rfl, hset⟩
    rw [← hh1] at he
    obtain ⟨hmem, hmblk, htypes⟩ := h1keeps
    subst he
    have hself : ((h1.setM b { h1.mblk b with b_datap := none }).pushM b).mblk b =
        { h.mblk b with b_datap := none, b_next := h1.mbfreelist } := by
      rw [pushM_self, setM_self, hmblk]
      rfl
    have hother (c : ℕ) (hc : c ≠ b) :
        ((h1.setM b { h1.mblk b with b_datap := none }).pushM b).mblk c = h.mblk c := by
      rw [pushM_mblk hc, setM_other hc, hmblk]
    refine ⟨hmem, funext fun c => ?_, hother, by rw [hself], by rw [hself], htypes⟩
    unfold Heap.b_cont
    by_cases hc : c = b
    · rw [hc, hself]
    · rw [hother c hc]

theorem FreeKeeps.tag {x : ℕ} (hk : FreeKeeps h h' b) (hx : x ≠ b) : tag h' x = tag h x := by
  unfold Str.tag dbType Heap.b_datap
  rw [bytes_congr (fun a _ _ => congrFun hk.mem a) (hk.other x hx), hk.other x hx]
  simp only [hk.types]

/-- What the loop makes of the blocks `sfx`, of which `left` are in the message behind it: the first
`c` bytes are in the new block. -/
structure Taken (h h' : Heap) (nb : ℕ) (sfx left : List ℕ) (p' : Option ℕ) (c : ℕ) : Prop where
  suffix : left <:+ sfx
  linked : Linked h'.b_cont p' left
  taken : bytes h' nb = bytes h nb ++ ((typed h sfx).take c).map Prod.snd
  others : typed h' left = (typed h sfx).drop c
  emptied : ∀ b ∈ sfx, b ∉ left → (h'.mblk b).b_rptr = (h'.mblk b).b_wptr
  cont : h'.b_cont = h.b_cont
  same : ∀ b, b ∉ sfx → b ≠ nb → h'.mblk b = h.mblk b
  new : h'.mblk nb = { h.mblk nb with b_wptr := (h.mblk nb).b_wptr + c }
  types : ∀ d, (h'.dblk d).db_type = (h.dblk d).db_type
  full : left = sfx → c = 0 ∧ h' = h ∨ ∀ b ∈ sfx.head?, (h'.mblk b).b_rptr ≠ (h'.mblk b).b_wptr

theorem Taken.zero (hm : Linked h.b_cont p sfx) : Taken h h nb sfx sfx p 0 :=
  ⟨suffix_rfl, hm, by simp, rfl, fun _ hb hnot => absurd hb hnot, rfl, fun _ _ _ => rfl, rfl,
    fun _ => rfl, fun _ => .inl ⟨rfl, rfl⟩⟩

theorem pullLoop_taken (hm : Linked h.b_cont p sfx) (hs : ∀ b ∈ sfx, Sound h b) (hnb : nb ∉ sfx)
    (h0 : 0 ≤ len) (hlen : len ≤ total h sfx) (hrw : (h.mblk nb).b_rptr ≤ (h.mblk nb).b_wptr)
    (hlo : lo ≤ (h.mblk nb).b_wptr) (hhi : (h.mblk nb).b_wptr + len ≤ hi)
    (hapart : ∀ b ∈ sfx, Apart h lo hi b) (he : pullLoop mp nb n h p len = some (h', p')) :
    ∃ left, Taken h h' nb sfx left p' len.toNat := by
  induction n generalizing h p len sfx with
  | zero => exact absurd he nofun
  | succ n ih =>
    unfold pullLoop at he
    by_cases hz : len = 0
    · rw [if_pos hz] at he
      obtain ⟨rfl, rfl⟩ := Prod.mk.inj (Option.some.inj he)
      rw [hz]
      exact ⟨sfx, Taken.zero hm⟩
    · rw [if_neg hz] at he
      cases sfx with
      | nil =>
        rw [total_nil] at hlen
        omega
      | cons b sfx =>
        rw [hm.1] at he
        have hb := hs b mem_cons_self
        have hnonneg := hb.bsz_nonneg
        have hlength := tag_length hb
        have hbn : b ≠ nb := fun heq => hnb (heq ▸ mem_cons_self)
        have hbs : b ∉ sfx := (nodup_cons.mp hm.nodup).1
        obtain ⟨c, hc⟩ : ∃ c : ℕ, (c : ℤ) = min (bsz h b) len :=
          ⟨(min (bsz h b) len).toNat, Int.toNat_of_nonneg (by omega)⟩
        simp only [← hc, Int.toNat_natCast] at he
        have hroom : (h.mblk nb).b_wptr + c ≤ hi := by omega
        have hnew := pullBytes_bytes_new hbn hrw (by omega : (c : ℤ) ≤ bsz h b)
        have hself := pullBytes_tag_self hbn hlo hroom (hapart b mem_cons_self)
        have hne (x : ℕ) (hx : x ∈ sfx) : x ≠ nb ∧ x ≠ b := by
          refine ⟨?_, ?_⟩
          · rintro rfl
            exact hnb (mem_cons_of_mem b hx)
          · rintro rfl
            exact hbs hx
        have hrest (x : ℕ) (hx : x ∈ sfx) : tag (pullBytes h nb b c) x = tag h x :=
          pullBytes_tag hbn (hne x hx).1 (hne x hx).2 hlo hroom (hapart x (mem_cons_of_mem b hx))
        have hptr := pullBytes_bp (h := h) hbn (n := c)
        have hcont := (pullBytes_cont (h := h) hbn (n := c)).1
        have hmnew := pullBytes_new (h := h) hbn (n := c)
        have hmother {x : ℕ} (h1 : x ≠ nb) (h2 : x ≠ b) := pullBytes_other (h := h) h1 h2 (n := c)
        have htypes (d : ℕ) : ((pullBytes h nb b c).dblk d).db_type = (h.dblk d).db_type := rfl
        have htake : ((typed h (b :: sfx)).take c).map Prod.snd = (bytes h b).take c := by
          rw [typed_cons, take_append_of_le_length (by omega), map_take, tag_snd]
        generalize pullBytes h nb b c = h1 at *
        by_cases hleft : (h1.mblk b).b_rptr ≠ (h1.mblk b).b_wptr
        · -- data is left in the block
          rw [if_pos hleft] at he
          obtain ⟨rfl, rfl⟩ := Prod.mk.inj (Option.some.inj he)
          have hall : (c : ℤ) = len := by
            rw [hptr] at hleft
            simp only at hleft
            unfold bsz at hc
            omega
          rw [← hall, Int.toNat_natCast]
          refine ⟨b :: sfx, suffix_rfl, ⟨rfl, ?_⟩, ?_, ?_, fun x hx hnot => absurd hx hnot,
            hcont, fun x hx hxn => ?_, hmnew, htypes, fun _ => .inr fun x hx => ?_⟩
          · rw [hcont]
            exact hm.2
          · rw [hnew, htake]
          · rw [typed_cons, typed_cons, hself, typed_congr hrest,
              drop_append_of_le_length (by omega)]
          · exact hmother hxn fun heq => hx (heq ▸ mem_cons_self)
          · obtain rfl : b = x := Option.some.inj hx
            exact hleft
        · -- the block is empty
          rw [if_neg hleft] at he
          have hempty : (h1.mblk b).b_rptr = (h1.mblk b).b_wptr := not_not.mp hleft
          have hall : (c : ℤ) = bsz h b := by
            rw [hptr] at hempty
            simp only at hempty
            unfold bsz at hc ⊢
            omega
          obtain ⟨h2, hk, hgo⟩ : ∃ h2, FreeKeeps h1 h2 b ∧
              pullLoop mp nb n h2 (h1.b_cont b) (len - c) = some (h', p') := by
            by_cases hmp : b = mp
            · rw [if_pos hmp] at he
              exact ⟨h1, FreeKeeps.refl h1 b, he⟩
            · rw [if_neg hmp] at he
              cases hfree : freeb h1 b with
              | none =>
                rw [hfree] at he
                exact absurd he nofun
              | some h2 =>
                rw [hfree] at he
                exact ⟨h2, freeb_keeps hfree, he⟩
          have hsame (x : ℕ) (hx : x ∈ sfx) : h2.mblk x = h.mblk x := by
            rw [hk.other x (hne x hx).2, hmother (hne x hx).1 (hne x hx).2]
          have htag (x : ℕ) (hx : x ∈ sfx) : tag h2 x = tag h x := by
            rw [hk.tag (hne x hx).2, hrest x hx]
          have hnew2 : h2.mblk nb = { h.mblk nb with b_wptr := (h.mblk nb).b_wptr + c } := by
            rw [hk.other nb (Ne.symm hbn), hmnew]
          rw [hcont] at hgo
          have hm2 : Linked h2.b_cont (h.b_cont b) sfx := by
            rw [hk.cont, hcont]
            exact hm.2
          have hlen2 : len - c ≤ total h2 sfx := by
            rw [total_congr hsame]
            rw [total_cons] at hlen
            omega
          have hapart2 (x : ℕ) (hx : x ∈ sfx) : Apart h2 lo hi x := by
            unfold Apart
            rw [hsame x hx]
            exact hapart x (mem_cons_of_mem b hx)
          obtain ⟨left, ht⟩ := ih hm2
            (fun x hx => (hs x (mem_cons_of_mem b hx)).of_eq (hsame x hx))
            (fun hx => hnb (mem_cons_of_mem b hx)) (by omega) hlen2
            (by rw [hnew2]; simp only; omega) (by rw [hnew2]; simp only; omega)
            (by rw [hnew2]; simp only; omega) hapart2 hgo
          have hfew : len.toNat - (tag h b).length = (len - c).toNat := by omega
          have htyped := typed_congr htag
          refine ⟨left, ht.suffix.trans (suffix_cons b sfx), ht.linked, ?_, ?_, fun x hx hnot => ?_,
            ht.cont.trans (hk.cont.trans hcont), fun x hx hxn => ?_, ?_,
            fun d => (ht.types d).trans ((hk.types d).trans (htypes d)), fun heq => ?_⟩
          · have hbytes2 : bytes h2 nb = bytes h1 nb :=
              bytes_congr (fun a _ _ => congrFun hk.mem a) (hk.other nb (Ne.symm hbn))
            have hlb := bytes_length hb
            rw [ht.taken, hbytes2, hnew, htyped, typed_cons, take_append, hfew,
              take_of_length_le (by omega : (bytes h b).length ≤ c),
              take_of_length_le (by omega : (tag h b).length ≤ len.toNat), map_append, tag_snd,
              append_assoc]
          · rw [ht.others, htyped, typed_cons, drop_append, hfew,
              drop_eq_nil_of_le (by omega : (tag h b).length ≤ len.toNat), nil_append]
          · by_cases hxb : x = b
            · have hsame3 : h'.mblk b = h2.mblk b := ht.same b hbs hbn
              rw [hxb, hsame3, hk.rptr, hk.wptr]
              exact hempty
            · exact ht.emptied x ((mem_cons.mp hx).resolve_left hxb) hnot
          · have hxb : x ≠ b := fun heq => hx (heq ▸ mem_cons_self)
            rw [ht.same x (fun hmem => hx (mem_cons_of_mem b hmem)) hxn, hk.other x hxb,
              hmother hxn hxb]
          · rw [ht.new, hnew2]
            have hsum : (h.mblk nb).b_wptr + c + (len - c).toNat = (h.mblk nb).b_wptr + len.toNat := by
              omega
            simp only [hsum]
          · have hshort := ht.suffix.length_le
            rw [heq] at hshort
            exact absurd hshort (Nat.not_succ_le_self _)

end Loop

/-! ## The headers -/

/-- The message behind `interchange`. -/
structure Interchanged (h h' : Heap) (mp tmp nb : ℕ) (bp : Option ℕ) : Prop where
  mem : h'.mem = h.mem
  types : ∀ d, (h'.dblk d).db_type = (h.dblk d).db_type
  first : h'.mblk mp = { h.mblk nb with
    b_cont := if (h.mblk mp).b_rptr ≠ (h.mblk mp).b_wptr then some tmp else bp }
  second : (h.mblk mp).b_rptr ≠ (h.mblk mp).b_wptr → h'.mblk tmp = h.mblk mp
  same : ∀ c, c ≠ mp → c ≠ tmp → c ≠ nb → h'.mblk c = h.mblk c

section Headers

variable {h h' : Heap} {mp tmp nb : ℕ} {bp : Option ℕ}

theorem interchange_interchanged (h1 : tmp ≠ nb) (h2 : mp ≠ nb) (h3 : mp ≠ tmp)
    (he : interchange h mp tmp nb bp = some h') : Interchanged h h' mp tmp nb bp := by
  have hswap (p : Option ℕ) : ((swapHeaders h mp tmp nb).setCont mp p).mblk mp =
      { h.mblk nb with b_cont := p } := by
    rw [setCont_mblk, swapHeaders_mp h1 h2]
  have hother (p : Option ℕ) (c : ℕ) (hcm : c ≠ mp) (hct : c ≠ tmp) (hcn : c ≠ nb) :
      ((swapHeaders h mp tmp nb).setCont mp p).mblk c = h.mblk c := by
    rw [setCont_other hcm, swapHeaders_other hcn hct hcm]
  unfold interchange at he
  simp only [swapHeaders_tmp h1 h3] at he
  by_cases hleft : (h.mblk mp).b_rptr ≠ (h.mblk mp).b_wptr
  · rw [if_pos hleft] at he
    obtain rfl := Option.some.inj he
    refine ⟨rfl, fun _ => rfl, ?_, fun _ => ?_, fun c hcm hct hcn => ?_⟩
    · rw [pushM_mblk h2, hswap, if_pos hleft]
    · rw [pushM_mblk h1, setCont_other (Ne.symm h3), swapHeaders_tmp h1 h3]
    · rw [pushM_mblk hcn, hother _ c hcm hct hcn]
  · rw [if_neg hleft] at he
    obtain ⟨h4, hfree, rfl⟩ := Option.map_eq_some_iff.mp he
    have hk := freeb_keeps hfree
    refine ⟨hk.mem, hk.types, ?_, fun hne => absurd hne hleft, fun c hcm hct hcn => ?_⟩
    · rw [pushM_mblk h2, hk.other mp h3, hswap, if_neg hleft]
    · rw [pushM_mblk hcn, hk.other c hct, hother _ c hcm hct hcn]

end Headers

/-! ## Buffers -/

/-- The buffers of the data blocks `D`. -/
structure Layout (D : List ℕ) (h : Heap) : Prop where
  size : ∀ d ∈ D, (h.dblk d).db_lim = (h.dblk d).db_base + rbsize.getD (h.dblk d).db_class 0
  aligned : ∀ d ∈ D, str_aligned (h.dblk d).db_base
  apart : ∀ d ∈ D, ∀ e ∈ D, d ≠ e →
    (h.dblk d).db_lim ≤ (h.dblk e).db_base ∨ (h.dblk e).db_lim ≤ (h.dblk d).db_base

/-- The pointers of a message block are in the buffer of its data block. -/
def Placed (h : Heap) (b : ℕ) : Prop := ∀ d, h.b_datap b = some d →
  (h.dblk d).db_base ≤ (h.mblk b).b_rptr ∧ (h.mblk b).b_wptr ≤ (h.dblk d).db_lim

/-- The block that `allocb` gives has a data block `d` of its own, with room for `size` bytes. -/
structure Room (D live : List ℕ) (h h' : Heap) (size : ℤ) (nb d : ℕ) : Prop where
  mem_D : d ∈ D
  own : ∀ b ∈ live, h.b_datap b ≠ some d
  new : h'.mblk nb = ⟨none, none, none, (h.dblk d).db_base, (h.dblk d).db_base, some d⟩
  room : (h.dblk d).db_base + size ≤ (h.dblk d).db_lim
  mem : h'.mem = h.mem
  types : ∀ e, e ≠ d → (h'.dblk e).db_type = (h.dblk e).db_type

section Buffers

variable {B D live : List ℕ} {h h' : Heap} {nb d c : ℕ} {size : ℤ} {pri : Pri}

theorem not_takeWhile_length {α : Type*} (f : α → Bool) (a : α) (xs : List α)
    (hlt : (xs.takeWhile f).length < xs.length) : f (xs.getD (xs.takeWhile f).length a) = false := by
  induction xs with
  | nil => exact absurd hlt (Nat.not_lt_zero _)
  | cons x xs ih =>
    rw [takeWhile_cons] at hlt ⊢
    by_cases hx : f x = true
    · rw [if_pos hx] at hlt ⊢
      exact ih (Nat.lt_of_succ_lt_succ hlt)
    · rw [if_neg hx]
      exact Bool.eq_false_iff.mpr hx

/-- The blocks of a class are as long as what asks for the class. -/
theorem le_getclass (hc : getclass size < NCLASS) : size ≤ rbsize.getD (getclass size) 0 := by
  have := not_takeWhile_length (fun r : ℕ => decide ((r : ℤ) < size)) 0 rbsize hc
  simp only [decide_eq_false_iff_not] at this
  exact Int.not_lt.mp this

theorem rbsize_mono (hc : c + 1 < NCLASS) : rbsize.getD c 0 ≤ rbsize.getD (c + 1) 0 := by
  have hall : ∀ k < 8, rbsize.getD k 0 ≤ rbsize.getD (k + 1) 0 := by decide
  exact hall c (Nat.lt_of_succ_lt_succ hc)

theorem classBlock_head (hd : classBlock h c pri = some d) : h.dbfreelist c = some d := by
  unfold classBlock at hd
  split at hd
  · exact hd
  · exact absurd hd nofun

theorem gotdp_room (hc : Counts B D h live) (hl : Layout D h) (hcl : c < NCLASS)
    (hsize : size ≤ rbsize.getD c 0) (hd : classBlock h c pri = some d)
    (he : gotdp h c d = (some nb, h')) : Room D live h h' size nb d := by
  obtain ⟨dl, hlist, hdl⟩ := hc.dblks.free c hcl
  have hmem : d ∈ dl := by
    cases dl with
    | nil => exact absurd ((classBlock_head hd).symm.trans hlist) nofun
    | cons e dl =>
      obtain rfl : e = d := Option.some.inj (hlist.1.symm.trans (classBlock_head hd))
      exact mem_cons_self
  obtain ⟨hD, hcls, hrefs⟩ := (hdl d).mp hmem
  have hown (b : ℕ) (hb : b ∈ live) : h.b_datap b ≠ some d := by
    have := countP_eq_zero.mp hrefs b hb
    simpa using this
  have hlim := hl.size d hD
  rw [hcls] at hlim
  unfold gotdp at he
  cases hnb : h.mbfreelist with
  | none =>
    rw [hnb] at he
    exact absurd (congrArg Prod.fst he) nofun
  | some bp =>
    rw [hnb] at he
    obtain ⟨hbp, rfl⟩ := Prod.mk.inj he
    obtain rfl := Option.some.inj hbp
    refine ⟨hD, hown, setM_self _, by omega, rfl, fun e hne => ?_⟩
    exact congrArg Dblk.db_type (setD_other hne _)

theorem allocb_room (hc : Counts B D h live) (hl : Layout D h)
    (he : allocb h size pri = (some nb, h')) : ∃ d, Room D live h h' size nb d := by
  unfold allocb at he
  simp only at he
  by_cases hcl : NCLASS ≤ getclass size
  · rw [if_pos hcl] at he
    exact absurd (congrArg Prod.fst he) nofun
  · rw [if_neg hcl] at he
    have hlt := Nat.lt_of_not_le hcl
    have hsize := le_getclass hlt
    cases hb : classBlock h (getclass size) pri with
    | some d =>
      rw [hb] at he
      exact ⟨d, gotdp_room hc hl hlt hsize hb he⟩
    | none =>
      rw [hb] at he
      simp only at he
      by_cases hlast : getclass size = NCLASS - 1
      · rw [if_pos hlast] at he
        exact absurd (congrArg Prod.fst he) nofun
      · rw [if_neg hlast] at he
        cases hb' : classBlock h (getclass size + 1) pri with
        | none =>
          rw [hb'] at he
          exact absurd (congrArg Prod.fst he) nofun
        | some d =>
          rw [hb'] at he
          have hnext : getclass size + 1 < NCLASS := by omega
          have hmono := rbsize_mono hnext
          exact ⟨d, gotdp_room hc hl hnext (by omega) hb' he⟩

end Buffers

/-! ## Boot -/

section Boot

variable {D xs : List ℕ} {h h' : Heap} {s : Boot} {c : ℕ}

/-- The buffers do not depend on what is in use. -/
theorem Layout.congr (hl : Layout D h) (hsame : ∀ d ∈ D, (h'.dblk d).db_base = (h.dblk d).db_base ∧
    (h'.dblk d).db_lim = (h.dblk d).db_lim ∧ (h'.dblk d).db_class = (h.dblk d).db_class) :
    Layout D h' := by
  refine ⟨fun d hd => ?_, fun d hd => ?_, fun d hd e he hne => ?_⟩
  · obtain ⟨h1, h2, h3⟩ := hsame d hd
    rw [h1, h2, h3]
    exact hl.size d hd
  · rw [(hsame d hd).1]
    exact hl.aligned d hd
  · rw [(hsame d hd).1, (hsame d hd).2.1, (hsame e he).1, (hsame e he).2.1]
    exact hl.apart d hd e he hne

/-- The buffers so far end where the next one starts. -/
structure Filled (s : Boot) : Prop where
  layout : Layout (List.range s.databp) s.heap
  aligned : str_aligned s.base
  behind : ∀ d < s.databp, (s.heap.dblk d).db_lim ≤ s.base

theorem rbsize_aligned (c : ℕ) : rbsize.getD c 0 % 4 = 0 := by
  by_cases hc : c < 9
  · have hall : ∀ k < 9, rbsize.getD k 0 % 4 = 0 := by decide
    exact hall c hc
  · rw [getD_eq_default _ _ (Nat.le_of_not_lt hc)]

theorem Filled.block (hf : Filled s) : Filled (layBlock c s) := by
  have hother (d : ℕ) (hd : d < s.databp) : (layBlock c s).heap.dblk d = s.heap.dblk d :=
    setD_other (Nat.ne_of_lt hd) _
  have hself : (layBlock c s).heap.dblk s.databp = { s.heap.dblk s.databp with
      db_class := c, db_base := s.base, db_lim := s.base + rbsize.getD c 0,
      db_freep := s.heap.dbfreelist c } := setD_self _
  have hmem (d : ℕ) : d ∈ List.range (layBlock c s).databp ↔ d < s.databp ∨ d = s.databp := by
    rw [mem_range]
    exact Nat.lt_succ_iff_lt_or_eq
  have hold (d : ℕ) (hd : d < s.databp) : d ∈ List.range s.databp := mem_range.mpr hd
  have hbase := hf.aligned
  refine ⟨⟨fun d hd => ?_, fun d hd => ?_, fun d hd e he hne => ?_⟩, ?_, fun d hd => ?_⟩
  · rcases (hmem d).mp hd with hd | rfl
    · rw [hother d hd]
      exact hf.layout.size d (hold d hd)
    · rw [hself]
  · rcases (hmem d).mp hd with hd | rfl
    · rw [hother d hd]
      exact hf.layout.aligned d (hold d hd)
    · rw [hself]
      exact hbase
  · rcases (hmem d).mp hd with hd | rfl
    · rcases (hmem e).mp he with he | rfl
      · rw [hother d hd, hother e he]
        exact hf.layout.apart d (hold d hd) e (hold e he) hne
      · rw [hother d hd, hself]
        exact .inl (hf.behind d hd)
    · rcases (hmem e).mp he with he | rfl
      · rw [hother e he, hself]
        exact .inr (hf.behind e he)
      · exact absurd rfl hne
  · have hsize := rbsize_aligned c
    unfold str_aligned at hbase ⊢
    simp only [decide_eq_true_eq] at hbase ⊢
    change (s.base + rbsize.getD c 0) % 4 = 0
    omega
  · change ((layBlock c s).heap.dblk d).db_lim ≤ s.base + rbsize.getD c 0
    rcases Nat.lt_succ_iff_lt_or_eq.mp hd with hd | rfl
    · rw [hother d hd]
      exact (hf.behind d hd).trans (Nat.le_add_right _ _)
    · rw [hself]

theorem Filled.class (hf : Filled s) (nblk : ℕ → ℕ) (lo med : ℕ) :
    Filled (layClass nblk lo med s c) := by
  have hblocks (n : ℕ) {t : Boot} (ht : Filled t) : Filled ((layBlock c)^[n] t) := by
    induction n generalizing t with
    | zero => exact ht
    | succ n ih => exact ih ht.block
  apply hblocks
  exact ⟨hf.layout.congr fun _ _ => ⟨rfl, rfl, rfl⟩, hf.aligned, hf.behind⟩

/-- `strinit` lays out the buffers one behind the other. -/
theorem strinit_layout (nblk : ℕ → ℕ) (lo med : ℕ) {base : Option ℕ}
    (hbase : ∀ a, base = some a → str_aligned a) (h : Heap) :
    Layout (dblocks nblk base) (strinit nblk lo med base h) := by
  unfold strinit dblocks buffers
  cases hb : if classes.all fun c => nblk c = 0 then none else base with
  | none => exact ⟨nofun, nofun, nofun⟩
  | some a =>
    have ha : str_aligned a := by
      apply hbase
      split at hb
      · exact absurd hb nofun
      · exact hb
    have hall (cs : List ℕ) {s : Boot} (hf : Filled s) : Filled (cs.foldl (layClass nblk lo med) s) := by
      induction cs generalizing s with
      | nil => exact hf
      | cons c cs ih => exact ih (hf.class nblk lo med)
    have hf := hall classes (s := ⟨h, 0, a⟩) ⟨⟨nofun, nofun, nofun⟩, ha, nofun⟩
    have hlast := layClasses_databp (s := Boot.mk h 0 a) nblk lo med classes
    simp only [Nat.zero_add] at hlast ⊢
    rw [← hlast]
    apply hf.layout.congr
    intro d _
    rw [(pushAll_dblk _).1]
    exact ⟨rfl, rfl, rfl⟩

end Boot

/-! ## The whole -/

theorem takeWhile_congr {α : Type*} {f g : α → Bool} {xs : List α} (hfg : ∀ x ∈ xs, f x = g x) :
    xs.takeWhile f = xs.takeWhile g := by
  induction xs with
  | nil => rfl
  | cons x xs ih =>
    rw [takeWhile_cons, takeWhile_cons, hfg x mem_cons_self,
      ih fun y hy => hfg y (mem_cons_of_mem x hy)]

theorem total_lead_le {h : Heap} (mp : ℕ) {m : List ℕ} (hs : ∀ b ∈ m, Sound h b) :
    total h (lead h mp m) ≤ total h m := by
  obtain ⟨post, hpost⟩ := takeWhile_prefix (l := m) fun b => decide (dbType h b = dbType h mp)
  have hsplit : total h m = total h (lead h mp m) + total h post := by
    rw [← total_append]
    exact congrArg (total h) hpost.symm
  have := total_nonneg (m := post) fun b hb => hs b (hpost ▸ mem_append_right _ hb)
  omega

/-- The message `m` is as it was, or the first block has its first `need` bytes, word-aligned. -/
def Keeps (h h' : Heap) (mp : ℕ) (m : List ℕ) (need : ℤ) (r : Bool) : Prop :=
  if r then ∃ m', Linked h'.b_cont (some mp) m' ∧ typed h' m' = typed h m ∧
    str_aligned (h'.mblk mp).b_rptr ∧ need ≤ bsz h' mp
  else Linked h'.b_cont (some mp) m ∧ typed h' m = typed h m ∧ ∀ b ∈ m, h'.mblk b = h.mblk b

section Pullup

variable {B D live rest left : List ℕ} {h h' h'' : Heap} {mp tmp nb n c : ℕ} {p : Option ℕ} {len : ℤ}
  {r : Bool}

/-- The new block comes first in the message, before the old one if this is not empty. -/
theorem Taken.interchanged (ht : Taken h h' nb (mp :: rest) left p c)
    (hi : Interchanged h' h'' mp tmp nb p) (hm : Linked h.b_cont (some mp) (mp :: rest))
    (hs : ∀ b ∈ mp :: rest, Sound h b) (hnb : nb ∉ mp :: rest) (htmp : tmp ∉ mp :: rest)
    (htn : tmp ≠ nb) (hempty : (h.mblk nb).b_rptr = (h.mblk nb).b_wptr)
    (htype : dbType h nb = dbType h mp) (hc : (c : ℤ) ≤ total h (lead h mp (mp :: rest)))
    (hsome : c = 0 → bsz h mp ≠ 0) :
    ∃ m', Linked h''.b_cont (some mp) m' ∧ typed h'' m' = typed h (mp :: rest) := by
  have hnd := nodup_cons.mp hm.nodup
  have hfirst : tag h'' mp = (typed h (mp :: rest)).take c := by
    have hnil : bytes h nb = [] := by
      unfold bytes
      rw [hempty, Nat.sub_self]
      rfl
    have hbytes : bytes h'' mp = bytes h' nb := by
      unfold bytes
      rw [hi.mem, hi.first]
    have hdb : dbType h'' mp = dbType h mp := by
      rw [← htype]
      unfold dbType Heap.b_datap
      rw [hi.first, ht.new]
      simp only [hi.types, ht.types]
    unfold tag
    rw [hbytes, hdb, ht.taken, hnil, nil_append]
    exact (typed_take hs hc).symm
  have hother {b : ℕ} (hb : b ∈ rest) : h''.mblk b = h'.mblk b := by
    apply hi.same
    · rintro rfl
      exact hnd.1 hb
    · rintro rfl
      exact htmp (mem_cons_of_mem mp hb)
    · rintro rfl
      exact hnb (mem_cons_of_mem mp hb)
  have hothertag {b : ℕ} (hb : b ∈ rest) : tag h'' b = tag h' b :=
    tag_move hi.mem hi.types (by rw [hother hb]) (by rw [hother hb])
      (congrArg Mblk.b_datap (hother hb))
  have hcont : h''.b_cont mp =
      if (h'.mblk mp).b_rptr ≠ (h'.mblk mp).b_wptr then some tmp else p :=
    congrArg Mblk.b_cont hi.first
  by_cases hleft : (h'.mblk mp).b_rptr ≠ (h'.mblk mp).b_wptr
  · -- the old block is behind the new one
    obtain rfl : left = mp :: rest := by
      have hmem : mp ∈ left := by
        by_contra hnot
        exact hleft (ht.emptied mp mem_cons_self hnot)
      rcases suffix_cons_iff.mp ht.suffix with heq | hsuf
      · exact heq
      · exact absurd (hsuf.subset hmem) hnd.1
    have hsecond := hi.second hleft
    have htmptag : tag h'' tmp = tag h' mp :=
      tag_move hi.mem hi.types (by rw [hsecond]) (by rw [hsecond]) (congrArg Mblk.b_datap hsecond)
    have htmpcont : h''.b_cont tmp = h'.b_cont mp := congrArg Mblk.b_cont hsecond
    refine ⟨mp :: tmp :: rest, ⟨rfl, ?_, ?_⟩, ?_⟩
    · rw [hcont, if_pos hleft]
    · rw [htmpcont]
      exact ht.linked.2.congr fun b hb => congrArg Mblk.b_cont (hother hb)
    · rw [typed_cons, typed_cons, hfirst, htmptag, typed_congr fun b hb => hothertag hb, ← typed_cons,
        ht.others, take_append_drop]
  · -- the old block is gone
    have hsuf : left <:+ rest := by
      rcases suffix_cons_iff.mp ht.suffix with heq | hsuf
      · exfalso
        rcases ht.full heq with ⟨hz, hsame⟩ | hne
        · rw [hsame, not_not] at hleft
          apply hsome hz
          unfold bsz
          omega
        · exact hleft (hne mp rfl)
      · exact hsuf
    refine ⟨mp :: left, ⟨rfl, ?_⟩, ?_⟩
    · rw [hcont, if_neg hleft]
      exact ht.linked.congr fun b hb => congrArg Mblk.b_cont (hother (hsuf.subset hb))
    · rw [typed_cons, hfirst, typed_congr fun b hb => hothertag (hsuf.subset hb), ht.others,
        take_append_drop]

theorem pullup_keeps (hc : Counts B D h (mp :: (rest ++ live)))
    (hm : Linked h.b_cont (some mp) (mp :: rest)) (hs : ∀ b ∈ mp :: rest, Sound h b)
    (hl : Layout D h) (hp : ∀ b ∈ mp :: rest, Placed h b) (h0 : 0 ≤ len)
    (hlen : len ≤ total h (lead h mp (mp :: rest))) (hsome : len = 0 → bsz h mp = 0 → NoBlocks h)
    (he : pullup n h mp len = some (r, h')) : Keeps h h' mp (mp :: rest) len r := by
  unfold pullup at he
  cases htmp : h.mbfreelist with
  | none =>
    rw [htmp] at he
    obtain ⟨rfl, rfl⟩ := Prod.mk.inj (Option.some.inj he)
    exact ⟨hm, rfl, fun _ _ => rfl⟩
  | some tmp =>
    obtain ⟨hpop, htl, -⟩ := hc.pop htmp
    rw [htmp] at he
    simp only at he
    have hmem (b : ℕ) (hb : b ∈ mp :: rest) : b ∈ mp :: (rest ++ live) :=
      mem_append_left live hb
    rcases allocb_spec hpop len .BPRI_MED with hno | ⟨nb, h1, halloc, hfresh, -, -⟩
    · rw [hno] at he
      obtain ⟨rfl, rfl⟩ := Prod.mk.inj (Option.some.inj he)
      have hsame (b : ℕ) (hb : b ∈ mp :: rest) : ((h.popM tmp).pushM tmp).mblk b = h.mblk b := by
        have hne : b ≠ tmp := fun heq => htl (heq ▸ hmem b hb)
        exact pushM_mblk hne
      refine ⟨hm.congr fun b hb => congrArg Mblk.b_cont (hsame b hb), ?_, hsame⟩
      apply typed_congr
      intro b hb
      have hb' := hsame b hb
      exact tag_move rfl (fun _ => rfl) (by rw [hb']) (by rw [hb']) (congrArg Mblk.b_datap hb')
    · have hsome' : len = 0 → bsz h mp ≠ 0 := by
        rintro rfl hz
        have hnone := (hsome rfl hz).allocb htmp
        rw [halloc] at hnone
        exact absurd hnone nofun
      obtain ⟨d, hroom⟩ := allocb_room hpop (h := h.popM tmp) ⟨hl.size, hl.aligned, hl.apart⟩ halloc
      have hnbl (b : ℕ) (hb : b ∈ mp :: rest) : b ≠ nb := by
        rintro rfl
        exact hfresh.not_live (mem_cons_of_mem tmp (hmem b hb))
      have hown (b : ℕ) (hb : b ∈ mp :: rest) : h.b_datap b ≠ some d :=
        hroom.own b (mem_cons_of_mem tmp (hmem b hb))
      have hsame (b : ℕ) (hb : b ∈ mp :: rest) : h1.mblk b = h.mblk b :=
        hfresh.same b (hnbl b hb)
      have hmp1 : h1.b_datap mp = h.b_datap mp :=
        congrArg Mblk.b_datap (hsame mp mem_cons_self)
      obtain ⟨dm, hdm⟩ := Option.ne_none_iff_exists'.mp (hs mp mem_cons_self).datap
      have hnb1 : h1.b_datap nb = some d := congrArg Mblk.b_datap hroom.new
      have hdmd : dm ≠ d := by
        rintro rfl
        exact hown mp mem_cons_self hdm
      rw [halloc] at he
      simp only [hmp1, hdm, hnb1] at he
      have hnb2 : (h1.setD d { h1.dblk d with db_type := (h1.dblk dm).db_type }).mblk nb =
          ⟨none, none, none, (h.dblk d).db_base, (h.dblk d).db_base, some d⟩ := hroom.new
      have hsame2 (b : ℕ) (hb : b ∈ mp :: rest) :
          (h1.setD d { h1.dblk d with db_type := (h1.dblk dm).db_type }).mblk b = h.mblk b := hsame b hb
      have hmem2 : (h1.setD d { h1.dblk d with db_type := (h1.dblk dm).db_type }).mem = h.mem :=
        hroom.mem
      have htypes2 (e : ℕ) (hne : e ≠ d) :
          ((h1.setD d { h1.dblk d with db_type := (h1.dblk dm).db_type }).dblk e).db_type =
            (h.dblk e).db_type := by
        rw [setD_other hne]
        exact hroom.types e hne
      have htyped : ((h1.setD d { h1.dblk d with db_type := (h1.dblk dm).db_type }).dblk d).db_type =
          (h.dblk dm).db_type := by
        rw [setD_self]
        exact hroom.types dm hdmd
      generalize h1.setD d { h1.dblk d with db_type := (h1.dblk dm).db_type } = h2
        at he hnb2 hsame2 hmem2 htypes2 htyped
      have hdb2 (b : ℕ) (hb : b ∈ mp :: rest) : dbType h2 b = dbType h b := by
        obtain ⟨e, hd⟩ := Option.ne_none_iff_exists'.mp (hs b hb).datap
        have hd2 : h2.b_datap b = some e := (congrArg Mblk.b_datap (hsame2 b hb)).trans hd
        unfold dbType
        rw [hd2, hd, Option.map_some, Option.map_some, htypes2 e fun heq => hown b hb (heq ▸ hd)]
      have htag2 (b : ℕ) (hb : b ∈ mp :: rest) : tag h2 b = tag h b := by
        unfold tag
        rw [bytes_congr (fun a _ _ => congrFun hmem2 a) (hsame2 b hb), hdb2 b hb]
      have hlead2 : lead h2 mp (mp :: rest) = lead h mp (mp :: rest) := by
        unfold lead
        rw [hdb2 mp mem_cons_self]
        exact takeWhile_congr fun b hb => by rw [hdb2 b hb]
      have hs2 (b : ℕ) (hb : b ∈ mp :: rest) : Sound h2 b := (hs b hb).of_eq (hsame2 b hb)
      have hm2 : Linked h2.b_cont (some mp) (mp :: rest) :=
        hm.congr fun b hb => congrArg Mblk.b_cont (hsame2 b hb)
      have hsub : ∀ b ∈ lead h mp (mp :: rest), b ∈ mp :: rest := fun b hb =>
        ( takeWhile_prefix _).subset hb
      have hlen2 : len ≤ total h2 (lead h2 mp (mp :: rest)) := by
        rw [hlead2, total_congr fun b hb => hsame2 b (hsub b hb)]
        exact hlen
      have hall2 : len ≤ total h2 (mp :: rest) := by
        have := total_lead_le mp hs2
        omega
      have hapart (b : ℕ) (hb : b ∈ mp :: rest) :
          Apart h2 (h.dblk d).db_base (h.dblk d).db_lim b := by
        obtain ⟨e, hd⟩ := Option.ne_none_iff_exists'.mp (hs b hb).datap
        obtain ⟨hp1, hp2⟩ := hp b hb e hd
        have heD := hc.datap b (hmem b hb) e hd
        have hed : e ≠ d := fun heq => hown b hb (heq ▸ hd)
        unfold Apart
        rw [hsame2 b hb]
        rcases hl.apart e heD d hroom.mem_D hed with hlt | hlt
        · exact .inl (hp2.trans hlt)
        · exact .inr (hlt.trans hp1)
      have hnbm : nb ∉ mp :: rest := fun hb => hnbl nb hb rfl
      cases hloop : pullLoop mp nb n h2 (some mp) len with
      | none =>
        rw [hloop] at he
        exact absurd he nofun
      | some x =>
        obtain ⟨h3, p⟩ := x
        rw [hloop] at he
        obtain ⟨h4, hint, heq⟩ := Option.map_eq_some_iff.mp he
        obtain ⟨rfl, rfl⟩ := Prod.mk.inj heq
        obtain ⟨left, ht⟩ := pullLoop_taken hm2 hs2 hnbm h0 hall2 (by rw [hnb2])
          (by rw [hnb2] : (h.dblk d).db_base ≤ (h2.mblk nb).b_wptr) (by rw [hnb2]; exact hroom.room)
          hapart hloop
        have htn : tmp ≠ nb := by
          rintro rfl
          exact hfresh.not_live mem_cons_self
        have hi := interchange_interchanged htn (hnbl mp mem_cons_self)
          (fun heq => htl (heq ▸ mem_cons_self)) hint
        have htype : dbType h2 nb = dbType h2 mp := by
          have hnbd : h2.b_datap nb = some d := congrArg Mblk.b_datap hnb2
          rw [hdb2 mp mem_cons_self]
          unfold dbType
          rw [hnbd, hdm, Option.map_some, Option.map_some, htyped]
        have hfirst : len.toNat = 0 → bsz h2 mp ≠ 0 := by
          intro hz
          unfold bsz
          rw [hsame2 mp mem_cons_self]
          exact hsome' (by omega)
        obtain ⟨m', hm', htyped'⟩ := ht.interchanged hi hm2 hs2 hnbm (fun hb => htl (hmem tmp hb)) htn
          (by rw [hnb2]) htype (by omega) hfirst
        refine ⟨m', hm', htyped'.trans (typed_congr htag2), ?_, ?_⟩
        · rw [hi.first, ht.new, hnb2]
          exact hl.aligned d hroom.mem_D
        · unfold bsz
          rw [hi.first, ht.new, hnb2]
          simp only
          omega

/-- A message block for the second header and a data block for nothing. -/
theorem allocb_of_blocks {tmp : ℕ} (htmp : h.mbfreelist = some tmp) (hblocks : ¬NoBlocks h) :
    ∃ nb h1, allocb (h.popM tmp) 0 .BPRI_MED = (some nb, h1) := by
  unfold NoBlocks at hblocks
  rw [htmp, not_or, not_and_or] at hblocks
  obtain ⟨nb, hnb⟩ := Option.ne_none_iff_exists'.mp hblocks.1
  have hfree : (h.popM tmp).mbfreelist = some nb := hnb
  have hgot (c d : ℕ) : ∃ nb h1, gotdp (h.popM tmp) c d = (some nb, h1) := by
    unfold gotdp
    rw [hfree]
    exact ⟨nb, _, rfl⟩
  have hclass (c : ℕ) : classBlock (h.popM tmp) c .BPRI_MED = classBlock h c .BPRI_MED := rfl
  have hzero : getclass 0 = 0 := by decide
  unfold allocb NCLASS
  simp only [hzero, hclass, Nat.zero_add]
  cases h0 : classBlock h 0 .BPRI_MED with
  | some d => exact hgot 0 d
  | none =>
    cases h1 : classBlock h 1 .BPRI_MED with
    | some d => exact hgot 1 d
    | none => exact absurd hblocks.2 (by simp [h0, h1])

/-- Out of an empty first block nothing is pulled up, and the block is linked behind itself. -/
theorem pullup_loops (hc : Counts B D h (mp :: live)) (hz : bsz h mp = 0) (hs : Sound h mp)
    (hblocks : ¬NoBlocks h) (he : pullup n h mp 0 = some (r, h')) :
    r = true ∧ h'.b_cont mp = some mp := by
  obtain ⟨tmp, htmp⟩ : ∃ tmp, h.mbfreelist = some tmp := by
    apply Option.ne_none_iff_exists'.mp
    intro hnone
    apply hblocks
    exact .inl (by rw [hnone]; rfl)
  obtain ⟨nb, h1, halloc⟩ := allocb_of_blocks htmp hblocks
  obtain ⟨hpop, htl, -⟩ := hc.pop htmp
  rcases allocb_spec hpop 0 .BPRI_MED with hno | ⟨nb', h1', halloc', hfresh, -, -⟩
  · rw [halloc] at hno
    exact absurd (congrArg Prod.fst hno) nofun
  · obtain ⟨hnb, rfl⟩ := Prod.mk.inj (halloc.symm.trans halloc')
    obtain rfl := Option.some.inj hnb
    have hmn : mp ≠ nb := by
      rintro rfl
      exact hfresh.not_live (by simp)
    have htn : tmp ≠ nb := by
      rintro rfl
      exact hfresh.not_live (by simp)
    have hmt : mp ≠ tmp := fun heq => htl (heq ▸ mem_cons_self)
    have hsame : h1.mblk mp = h.mblk mp := hfresh.same mp hmn
    unfold pullup at he
    rw [htmp] at he
    simp only [halloc] at he
    cases hd : h1.b_datap mp with
    | none =>
      rw [hd] at he
      exact absurd he nofun
    | some d =>
      cases hnd : h1.b_datap nb with
      | none =>
        rw [hd, hnd] at he
        exact absurd he nofun
      | some nd =>
        rw [hd, hnd] at he
        simp only at he
        have hempty : ¬(((h1.setD nd { h1.dblk nd with db_type := (h1.dblk d).db_type }).mblk mp).b_rptr ≠
            ((h1.setD nd { h1.dblk nd with db_type := (h1.dblk d).db_type }).mblk mp).b_wptr) := by
          have := hs.rptr_le
          have hmblk : (h1.setD nd { h1.dblk nd with db_type := (h1.dblk d).db_type }).mblk mp =
            h.mblk mp := hsame
          unfold bsz at hz
          rw [hmblk]
          omega
        cases n with
        | zero => exact absurd he nofun
        | succ n =>
          unfold pullLoop at he
          rw [if_pos rfl] at he
          obtain ⟨h4, hint, heq⟩ := Option.map_eq_some_iff.mp he
          obtain ⟨rfl, rfl⟩ := Prod.mk.inj heq
          have hi := interchange_interchanged htn hmn hmt hint
          refine ⟨rfl, ?_⟩
          unfold Heap.b_cont
          rw [hi.first, if_neg hempty]

theorem not_linked_self (hcont : h.b_cont mp = some mp) {m : List ℕ} :
    ¬Linked h.b_cont (some mp) m := by
  intro hm
  cases m with
  | nil => exact absurd hm nofun
  | cons b m =>
    obtain rfl : mp = b := Option.some.inj hm.1
    have hm2 := hm.2
    rw [hcont] at hm2
    have heq := hm.unique hm2
    exact absurd (congrArg List.length heq) (Nat.succ_ne_self _)

/-- The bytes that are asked for. -/
def need (h : Heap) (mp : ℕ) (m : List ℕ) (len : ℤ) : ℤ :=
  if len = -1 then total h (lead h mp m) else len

theorem bsz_le_lead (hs : ∀ b ∈ mp :: rest, Sound h b) :
    bsz h mp ≤ total h (lead h mp (mp :: rest)) := by
  unfold lead
  rw [takeWhile_cons, if_pos (decide_eq_true rfl), total_cons]
  have := total_nonneg (m := rest.takeWhile fun b => decide (dbType h b = dbType h mp)) fun b hb =>
    hs b (mem_cons_of_mem mp (( takeWhile_prefix _).subset hb))
  omega

/-- A message of one block. -/
theorem lead_single (hm : Linked h.b_cont (some mp) (mp :: rest)) (hcont : h.b_cont mp = none) :
    total h (lead h mp (mp :: rest)) = bsz h mp := by
  have hnil : rest = [] := by
    have hm2 := hm.2
    rw [hcont] at hm2
    exact hm2.unique rfl
  unfold lead
  rw [hnil, takeWhile_cons, if_pos (decide_eq_true rfl)]
  simp

theorem pullupmsg_keeps (hc : Counts B D h (mp :: (rest ++ live)))
    (hm : Linked h.b_cont (some mp) (mp :: rest)) (hs : ∀ b ∈ mp :: rest, Sound h b)
    (hl : Layout D h) (hp : ∀ b ∈ mp :: rest, Placed h b) (hsome : PullsSome h mp len)
    (hn : rest.length + 1 < n) (he : pullupmsg n h mp len = some (r, h')) :
    Keeps h h' mp (mp :: rest) (need h mp (mp :: rest) len) r := by
  have hsize := xmsgsize_lead hm hs (Nat.le_of_lt hn)
  have hfirst := bsz_le_lead hs
  have hnonneg := (hs mp mem_cons_self).bsz_nonneg
  unfold pullupmsg at he
  rw [hsize] at he
  unfold need
  by_cases hall : len = -1
  · rw [if_pos hall] at he ⊢
    by_cases hquick : (h.b_cont mp = none && str_aligned (h.mblk mp).b_rptr) = true
    · rw [if_pos hquick] at he
      obtain ⟨rfl, rfl⟩ := Prod.mk.inj (Option.some.inj he)
      simp only [Bool.and_eq_true, decide_eq_true_eq] at hquick
      exact ⟨mp :: rest, hm, rfl, hquick.2, Int.le_of_eq (lead_single hm hquick.1)⟩
    · rw [if_neg hquick] at he
      apply pullup_keeps hc hm hs hl hp (by omega) (Int.le_refl _) _ he
      intro hz _
      rw [hz] at hsize
      apply (hsome.all hall ⟨n, hsize⟩).resolve_left
      intro hq
      apply hquick
      simpa using hq
  · have hlen := hsome.len_ge
    rw [if_neg hall] at he ⊢
    by_cases hquick : (len ≤ bsz h mp && str_aligned (h.mblk mp).b_rptr) = true
    · rw [if_pos hquick] at he
      obtain ⟨rfl, rfl⟩ := Prod.mk.inj (Option.some.inj he)
      simp only [Bool.and_eq_true, decide_eq_true_eq] at hquick
      exact ⟨mp :: rest, hm, rfl, hquick.2, hquick.1⟩
    · rw [if_neg hquick] at he
      simp only at he
      by_cases hshort : total h (lead h mp (mp :: rest)) < len
      · rw [if_pos hshort] at he
        obtain ⟨rfl, rfl⟩ := Prod.mk.inj (Option.some.inj he)
        exact ⟨hm, rfl, fun _ _ => rfl⟩
      · rw [if_neg hshort] at he
        apply pullup_keeps hc hm hs hl hp (by omega) (by omega) _ he
        intro hz hb
        apply (hsome.zero hz hb).resolve_left
        intro hq
        apply hquick
        simp [hq, hz, hb]

/-- `pullupmsg` keeps the message if and only if it does not link the first block behind itself. -/
theorem pullupmsg_iff (hc : Counts B D h (mp :: (rest ++ live)))
    (hm : Linked h.b_cont (some mp) (mp :: rest)) (hs : ∀ b ∈ mp :: rest, Sound h b)
    (hl : Layout D h) (hp : ∀ b ∈ mp :: rest, Placed h b) (hlen : -1 ≤ len)
    (hn : rest.length + 1 < n) :
    (∃ r h', pullupmsg n h mp len = some (r, h') ∧
      Keeps h h' mp (mp :: rest) (need h mp (mp :: rest) len) r) ↔ PullsSome h mp len := by
  constructor
  · rintro ⟨r, h', he, hkeeps⟩
    have hsize := xmsgsize_lead hm hs (Nat.le_of_lt hn)
    have hfirst := bsz_le_lead hs
    have hsmp := hs mp mem_cons_self
    have hnonneg := hsmp.bsz_nonneg
    -- nothing is pulled up only where there are no blocks for it
    have hno (hz : bsz h mp = 0) (hpull : pullupmsg n h mp len = pullup n h mp 0) : NoBlocks h := by
      by_contra hblocks
      rw [hpull] at he
      obtain ⟨rfl, hcont⟩ := pullup_loops hc hz hsmp hblocks he
      obtain ⟨m', hm', -⟩ := hkeeps
      exact not_linked_self hcont hm'
    refine ⟨hlen, fun hall hzero => ?_, fun hall hz => ?_⟩
    · obtain ⟨k, hk⟩ := hzero
      have hz : total h (lead h mp (mp :: rest)) = 0 := (xmsgsize_steady h mp).eq hsize hk
      by_cases hquick : h.b_cont mp = none ∧ str_aligned (h.mblk mp).b_rptr = true
      · exact .inl hquick
      · refine .inr (hno (by omega) ?_)
        unfold pullupmsg
        rw [if_pos hall, if_neg (by simpa using hquick), hsize, hz]
    · by_cases hquick : str_aligned (h.mblk mp).b_rptr = true
      · exact .inl hquick
      · refine .inr (hno hz ?_)
        unfold pullupmsg
        rw [if_neg (by omega), if_neg (by simp [hquick]), hsize]
        simp only
        rw [if_neg (by omega), hall]
  · intro hsome
    obtain ⟨r, h', -, he, -⟩ := pullupmsg_spec hc hm hs hsome hn
    exact ⟨r, h', he, pullupmsg_keeps hc hm hs hl hp hsome hn he⟩

end Pullup

/-! ## Messages of one holder -/

/-- The blocks of the only message there is. -/
theorem Good.single {B D rest : List ℕ} {s : Sys} {mp : ℕ} (hg : Good B D s) (hmsgs : s.msgs = [mp])
    (hm : Linked s.heap.b_cont (some mp) (mp :: rest)) :
    Counts B D s.heap (mp :: (rest ++ [])) ∧ ∀ b ∈ mp :: rest, Sound s.heap b := by
  obtain ⟨ms, hperm, hc, hmsgs'⟩ := hg
  rw [hmsgs] at hperm
  have hlen : ms.length = 1 := by
    have := hperm.length_eq
    simpa using this.symm
  obtain ⟨m, rfl⟩ := length_eq_one_iff.mp hlen
  obtain rfl : mp = m.1 := by
    have := hperm.mem_iff (a := mp)
    simpa using this
  have heq := hm.unique (hmsgs'.linked m mem_cons_self)
  have hblocks : blocks [m] = m.1 :: rest := by
    rw [heq]
    simp [blocks]
  rw [append_nil, ← hblocks]
  exact ⟨hc, hmsgs'.sound⟩

/-- Two data blocks of 4 bytes and two of 16. -/
def twoEach (c : ℕ) : ℕ := if c < 2 then 2 else 0

/-- Memory before the message blocks are in use. -/
def booted : Heap := strinit twoEach 80 90 (some 0) (bss 4)

theorem booted_layout : Layout (dblocks twoEach (some 0)) booted := by
  apply strinit_layout
  intro a ha
  obtain rfl : 0 = a := Option.some.inj ha
  rfl

/-- Two bytes at an odd address and three more are pulled up. -/
theorem pullupmsg_iff_five : ∃ t, Run Meeting ⟨booted, []⟩ [.allocb 4 .BPRI_HI, .allocb 4 .BPRI_HI,
      .linkb 3 2, .fill 3 37 39 0 UInt8.ofNat, .fill 2 32 35 0 UInt8.ofNat] t ∧
    ∃ r h', pullupmsg 4 t.heap 3 5 = some (r, h') ∧ Keeps t.heap h' 3 [3, 2] 5 r := by
  have hrun : ∃ t, Run Meeting ⟨booted, []⟩ [.allocb 4 .BPRI_HI, .allocb 4 .BPRI_HI,
      .linkb 3 2, .fill 3 37 39 0 UInt8.ofNat, .fill 2 32 35 0 UInt8.ofNat] t ∧ t.msgs = [3] ∧
      Linked t.heap.b_cont (some 3) [3, 2] ∧ (∀ b ∈ [3, 2], Placed t.heap b) ∧
      (∀ d ∈ dblocks twoEach (some 0), (t.heap.dblk d).db_base = (booted.dblk d).db_base ∧
        (t.heap.dblk d).db_lim = (booted.dblk d).db_lim ∧
        (t.heap.dblk d).db_class = (booted.dblk d).db_class) := by
    refine ⟨_, .cons ⟨.allocb rfl, True.intro⟩ (.cons ⟨.allocb rfl, True.intro⟩
      (.cons ⟨.linkb (n := 2) ?_ ?_ rfl, True.intro⟩ (.cons ⟨.fill ?_ rfl ?_, True.intro⟩
        (.cons ⟨.fill ?_ rfl ?_, True.intro⟩ (.nil _))))), ?_, ?_, ?_, ?_⟩
    · exact mem_cons_of_mem _ mem_cons_self
    · decide
    · exact ⟨3, mem_cons_self, .refl⟩
    · decide
    · exact ⟨3, mem_cons_self, .single rfl⟩
    · decide
    · rfl
    · exact ⟨rfl, rfl, rfl⟩
    · intro b hb d hd
      rcases mem_cons.mp hb with rfl | hb
      · obtain rfl : 3 = d := Option.some.inj hd
        decide +kernel
      · obtain rfl := mem_singleton.mp hb
        obtain rfl : 2 = d := Option.some.inj hd
        decide +kernel
    · decide +kernel
  obtain ⟨t, hr, hmsgs, hm, hp, hsame⟩ := hrun
  have hg := (strinit_booted (bss_bss 4) twoEach 80 90 (some 0)).good.run hr
  obtain ⟨hc, hs⟩ := hg.single hmsgs hm
  have hsome : PullsSome t.heap 3 5 := ⟨by decide, nofun, nofun⟩
  exact ⟨t, hr, (pullupmsg_iff hc hm hs (booted_layout.congr hsame) hp (by decide) (by decide)).mpr
    hsome⟩

/-- Asked for nothing out of an empty first block at an odd address, `pullupmsg` returns 1 and
leaves a message that has no end. -/
theorem pulled_behind_itself : ∃ t, Run Does ⟨booted, []⟩
      [.allocb 4 .BPRI_HI, .fill 3 37 37 0 UInt8.ofNat] t ∧ t.msgs = [3] ∧
    Linked t.heap.b_cont (some 3) [3] ∧ (∀ b ∈ [3], Sound t.heap b ∧ Placed t.heap b) ∧
    (pullupmsg 3 t.heap 3 0).map (fun x => (x.1, x.2.b_cont 3)) = some (true, some 3) ∧
    ¬∃ r h', pullupmsg 3 t.heap 3 0 = some (r, h') ∧ Keeps t.heap h' 3 [3] 0 r := by
  have hrun : ∃ t, Run Does ⟨booted, []⟩
      [.allocb 4 .BPRI_HI, .fill 3 37 37 0 UInt8.ofNat] t ∧ t.msgs = [3] ∧
    Linked t.heap.b_cont (some 3) [3] ∧ (∀ b ∈ [3], Sound t.heap b ∧ Placed t.heap b) ∧
    (pullupmsg 3 t.heap 3 0).map (fun x => (x.1, x.2.b_cont 3)) = some (true, some 3) := by
    refine ⟨_, .cons (.allocb rfl) (.cons (.fill ⟨3, mem_cons_self, .refl⟩ rfl (Nat.le_refl _))
      (.nil _)), rfl, ⟨rfl, rfl⟩, fun b hb => ?_, ?_⟩
    · obtain rfl := mem_singleton.mp hb
      refine ⟨⟨nofun, by decide⟩, fun d hd => ?_⟩
      obtain rfl : 3 = d := Option.some.inj hd
      decide +kernel
    · decide +kernel
  obtain ⟨t, hr, hmsgs, hm, hs, hcall⟩ := hrun
  refine ⟨t, hr, hmsgs, hm, hs, hcall, ?_⟩
  rintro ⟨r, h', he, hkeeps⟩
  rw [he, Option.map_some, Option.some.injEq, Prod.mk.injEq] at hcall
  obtain ⟨hr', hcont⟩ := hcall
  simp only at hr' hcont
  subst hr'
  obtain ⟨m', hm', -⟩ := hkeeps
  exact not_linked_self hcont hm'

end Svr3.Str
