import Svr3.Io.StreamPullup
import Svr3.Io.StreamTurns

/-!
# Data blocks are freed exactly when unreferenced

Over any run of the message routines, as long as no reference count would pass 255 and `pullupmsg`
is asked for something: every data block counts the message blocks that refer to it, and is on its
free list if and only if there are none.
-/

namespace Svr3.Str

open List

/-- The pools, with the first blocks of the messages that drivers and modules hold. -/
structure Sys where
  heap : Heap
  msgs : List ℕ

def InMsg (s : Sys) (b : ℕ) : Prop := ∃ head ∈ s.msgs, Reaches s.heap.b_cont head b

inductive Op
  | allocb (size : ℤ) (pri : Pri)
  | dupb (bp : ℕ)
  | dupmsg (bp : ℕ)
  | freeb (bp : ℕ)
  | freemsg (bp : ℕ)
  | linkb (mp bp : ℕ)
  | unlinkb (bp : ℕ)
  | rmvb (mp bp : ℕ)
  | pullupmsg (mp : ℕ) (len : ℤ)
  | fill (bp : ℕ) (b_rptr b_wptr : ℕ) (db_type : UInt8) (mem : ℕ → UInt8)

/-- The holder of a block sets its pointers, and its type and bytes. -/
def fill (h : Heap) (bp d r w : ℕ) (type : UInt8) (mem : ℕ → UInt8) : Heap :=
  let h := h.setM bp { h.mblk bp with b_rptr := r, b_wptr := w }
  { h.setD d { h.dblk d with db_type := type } with mem := mem }

/-- What a holder of messages can do. A block that is taken out of a message is a message. -/
inductive Does (s : Sys) : Op → Sys → Prop
  | allocb {size : ℤ} {pri : Pri} {r : Option ℕ} {h : Heap} :
      allocb s.heap size pri = (r, h) → Does s (.allocb size pri) ⟨h, r.toList ++ s.msgs⟩
  | dupb {bp : ℕ} {r : Option ℕ} {h : Heap} :
      InMsg s bp → dupb s.heap bp = some (r, h) → Does s (.dupb bp) ⟨h, r.toList ++ s.msgs⟩
  | dupmsg {n bp : ℕ} {r : Option ℕ} {h : Heap} : InMsg s bp →
      dupmsg n s.heap (some bp) = some (r, h) → Does s (.dupmsg bp) ⟨h, r.toList ++ s.msgs⟩
  | freeb {bp : ℕ} {h : Heap} : bp ∈ s.msgs → freeb s.heap bp = some h →
      Does s (.freeb bp) ⟨h, (s.heap.b_cont bp).toList ++ s.msgs.erase bp⟩
  | freemsg {n bp : ℕ} {h : Heap} : bp ∈ s.msgs → freemsg n s.heap (some bp) = some h →
      Does s (.freemsg bp) ⟨h, s.msgs.erase bp⟩
  | linkb {n mp bp : ℕ} {h : Heap} : mp ∈ s.msgs → bp ∈ s.msgs.erase mp →
      linkb n s.heap mp bp = some h → Does s (.linkb mp bp) ⟨h, s.msgs.erase bp⟩
  | unlinkb {bp : ℕ} {r : Option ℕ} {h : Heap} : bp ∈ s.msgs →
      unlinkb s.heap bp = (r, h) → Does s (.unlinkb bp) ⟨h, r.toList ++ s.msgs⟩
  | rmvb {n mp bp : ℕ} {r : Option ℕ} {h : Heap} : mp ∈ s.msgs →
      rmvb n s.heap mp bp = some (some r, h) →
      Does s (.rmvb mp bp) ⟨h, bp :: (r.toList ++ s.msgs.erase mp)⟩
  | rmvb_not {n mp bp : ℕ} {h : Heap} : mp ∈ s.msgs →
      rmvb n s.heap mp bp = some (none, h) → Does s (.rmvb mp bp) ⟨h, s.msgs⟩
  | pullupmsg {n mp : ℕ} {len : ℤ} {r : Bool} {h : Heap} : InMsg s mp →
      pullupmsg n s.heap mp len = some (r, h) → Does s (.pullupmsg mp len) ⟨h, s.msgs⟩
  | fill {bp d r w : ℕ} {type : UInt8} {mem : ℕ → UInt8} : InMsg s bp →
      s.heap.b_datap bp = some d → r ≤ w →
      Does s (.fill bp r w type mem) ⟨fill s.heap bp d r w type mem, s.msgs⟩

/-- What a holder of messages may ask for. -/
def Allowed (s : Sys) : Op → Prop
  | .allocb _ _ => True
  | .dupb bp | .dupmsg bp | .pullupmsg bp _ => InMsg s bp
  | .freeb bp | .freemsg bp | .unlinkb bp | .rmvb bp _ => bp ∈ s.msgs
  | .linkb mp bp => mp ∈ s.msgs ∧ bp ∈ s.msgs.erase mp
  | .fill bp r w _ _ => InMsg s bp ∧ r ≤ w

/-- No reference count passes 255, and `pullupmsg` is asked for something. -/
def Meets (s : Sys) : Op → Prop
  | .dupb bp => ∀ d, s.heap.b_datap bp = some d → (s.heap.dblk d).db_ref.toNat < 255
  | .dupmsg bp => ∀ ms fl d, Linked s.heap.b_cont (some bp) ms →
      Linked s.heap.b_next s.heap.mbfreelist fl → (s.heap.dblk d).db_ref.toNat +
        (ms.take fl.length).countP (fun b => s.heap.b_datap b = some d) ≤ 255
  | .pullupmsg mp len => PullsSome s.heap mp len
  | _ => True

theorem Does.allowed {s t : Sys} {op : Op} (hd : Does s op t) : Allowed s op := by
  cases hd with
  | allocb _ => exact True.intro
  | dupb hb _ => exact hb
  | dupmsg hb _ => exact hb
  | freeb hb _ => exact hb
  | freemsg hb _ => exact hb
  | linkb hmp hbp _ => exact ⟨hmp, hbp⟩
  | unlinkb hb _ => exact hb
  | rmvb hmp _ => exact hmp
  | rmvb_not hmp _ => exact hmp
  | pullupmsg hmp _ => exact hmp
  | fill hb _ hw => exact ⟨hb, hw⟩

/-- The turns of the loops make no difference. -/
theorem Does.unique {s t u : Sys} {op : Op} (hd : Does s op t) (hd' : Does s op u) : t = u := by
  cases hd with
  | allocb he =>
    cases hd' with
    | allocb he' =>
      obtain ⟨rfl, rfl⟩ := Prod.mk.inj (he.symm.trans he')
      rfl
  | dupb _ he =>
    cases hd' with
    | dupb _ he' =>
      obtain ⟨rfl, rfl⟩ := Prod.mk.inj (Option.some.inj (he.symm.trans he'))
      rfl
  | @dupmsg _ bp _ _ _ he =>
    cases hd' with
    | dupmsg _ he' =>
      obtain ⟨rfl, rfl⟩ := Prod.mk.inj ((dupmsg_steady s.heap (some bp)).eq he he')
      rfl
  | freeb _ he =>
    cases hd' with
    | freeb _ he' =>
      obtain rfl := Option.some.inj (he.symm.trans he')
      rfl
  | @freemsg _ bp _ _ he =>
    cases hd' with
    | freemsg _ he' =>
      obtain rfl := (freemsg_steady s.heap (some bp)).eq he he'
      rfl
  | @linkb _ mp bp _ _ _ he =>
    cases hd' with
    | linkb _ _ he' =>
      obtain rfl := (linkb_steady s.heap mp bp).eq he he'
      rfl
  | unlinkb _ he =>
    cases hd' with
    | unlinkb _ he' =>
      obtain ⟨rfl, rfl⟩ := Prod.mk.inj (he.symm.trans he')
      rfl
  | @rmvb _ mp bp _ _ _ he =>
    cases hd' with
    | rmvb _ he' =>
      obtain ⟨hr, rfl⟩ := Prod.mk.inj ((rmvb_steady s.heap mp bp).eq he he')
      rw [Option.some.inj hr]
    | rmvb_not _ he' =>
      exact absurd (congrArg Prod.fst ((rmvb_steady s.heap mp bp).eq he he')) nofun
  | @rmvb_not _ mp bp _ _ he =>
    cases hd' with
    | rmvb _ he' =>
      exact absurd (congrArg Prod.fst ((rmvb_steady s.heap mp bp).eq he he')) nofun
    | rmvb_not _ he' =>
      obtain ⟨-, rfl⟩ := Prod.mk.inj ((rmvb_steady s.heap mp bp).eq he he')
      rfl
  | @pullupmsg _ mp len _ _ _ he =>
    cases hd' with
    | pullupmsg _ he' =>
      obtain ⟨-, rfl⟩ := Prod.mk.inj ((pullupmsg_steady s.heap mp len).eq he he')
      rfl
  | fill _ he _ =>
    cases hd' with
    | fill _ he' _ =>
      obtain rfl := Option.some.inj (he.symm.trans he')
      rfl

/-! ## The messages of a state -/

/-- The blocks of messages that are given as first block and rest. -/
def blocks (ms : List (ℕ × List ℕ)) : List ℕ := ms.flatMap fun m => m.1 :: m.2

structure Msgs (h : Heap) (ms : List (ℕ × List ℕ)) : Prop where
  linked : ∀ m ∈ ms, Linked h.b_cont (some m.1) (m.1 :: m.2)
  sound : ∀ b ∈ blocks ms, Sound h b

/-- What every run keeps. -/
def Good (B D : List ℕ) (s : Sys) : Prop :=
  ∃ ms, s.msgs.Perm (ms.map Prod.fst) ∧ Counts B D s.heap (blocks ms) ∧ Msgs s.heap ms

section Messages

variable {B D live : List ℕ} {h h' : Heap} {s : Sys} {ms ms' : List (ℕ × List ℕ)} {b : ℕ}

@[simp]
theorem blocks_cons (m : ℕ × List ℕ) (ms : List (ℕ × List ℕ)) :
    blocks (m :: ms) = m.1 :: (m.2 ++ blocks ms) := rfl

theorem mem_blocks {m : ℕ × List ℕ} (hm : m ∈ ms) (hb : b ∈ m.1 :: m.2) : b ∈ blocks ms :=
  mem_flatMap.mpr ⟨m, hm, hb⟩

theorem blocks_perm (hp : ms.Perm ms') : (blocks ms).Perm (blocks ms') := hp.flatMap_right _

theorem Msgs.perm (hm : Msgs h ms) (hp : ms.Perm ms') : Msgs h ms' :=
  ⟨fun m hmem => hm.linked m (hp.mem_iff.mpr hmem),
    fun b hb => hm.sound b ((blocks_perm hp).mem_iff.mpr hb)⟩

theorem Msgs.congr (hm : Msgs h ms) (hsame : ∀ b ∈ blocks ms, h'.mblk b = h.mblk b) :
    Msgs h' ms := by
  refine ⟨fun m hmem => ?_, fun b hb => (hm.sound b hb).of_eq (hsame b hb)⟩
  apply (hm.linked m hmem).congr
  intro b hb
  exact congrArg Mblk.b_cont (hsame b (mem_blocks hmem hb))

theorem Msgs.cons {p : ℕ} {rest : List ℕ} (hm : Msgs h ms)
    (hl : Linked h.b_cont (some p) (p :: rest)) (hs : ∀ b ∈ p :: rest, Sound h b) :
    Msgs h ((p, rest) :: ms) := by
  refine ⟨fun m hmem => ?_, fun b hb => ?_⟩
  · rcases mem_cons.mp hmem with rfl | hmem
    · exact hl
    · exact hm.linked m hmem
  · rw [blocks_cons, ← cons_append, mem_append] at hb
    exact hb.elim (hs b) (hm.sound b)

theorem Msgs.tail {m : ℕ × List ℕ} (hm : Msgs h (m :: ms)) : Msgs h ms := by
  refine ⟨fun m' hmem => hm.linked m' (mem_cons_of_mem _ hmem), fun b hb => hm.sound b ?_⟩
  rw [blocks_cons]
  exact mem_cons_of_mem _ (mem_append_right _ hb)

/-- A message of a state, with the others. -/
structure Picked (B D : List ℕ) (s : Sys) (head : ℕ) (rest : List ℕ)
    (ms : List (ℕ × List ℕ)) : Prop where
  others : (s.msgs.erase head).Perm (ms.map Prod.fst)
  counts : Counts B D s.heap (head :: (rest ++ blocks ms))
  linked : Linked s.heap.b_cont (some head) (head :: rest)
  sound : ∀ b ∈ head :: rest, Sound s.heap b
  msgs : Msgs s.heap ms

theorem Good.pick (hg : Good B D s) {head : ℕ} (hh : head ∈ s.msgs) :
    ∃ rest ms, Picked B D s head rest ms := by
  obtain ⟨ms, hperm, hc, hm⟩ := hg
  obtain ⟨⟨p, rest⟩, hmem, rfl⟩ := mem_map.mp (hperm.mem_iff.mp hh)
  obtain ⟨xs, ys, rfl⟩ := append_of_mem hmem
  have hp : (xs ++ (p, rest) :: ys).Perm ((p, rest) :: (xs ++ ys)) := perm_middle
  have hm' := hm.perm hp
  refine ⟨rest, xs ++ ys, ?_, hc.perm (blocks_perm hp), hm'.linked _ mem_cons_self,
    fun b hb => ?_, hm'.tail⟩
  · have herase := (hperm.trans (hp.map Prod.fst)).erase p
    rw [map_cons, erase_cons_head] at herase
    exact herase
  · exact hm'.sound b (mem_blocks mem_cons_self hb)

theorem Picked.msgs_perm {head : ℕ} {rest : List ℕ} (hp : Picked B D s head rest ms)
    (hh : head ∈ s.msgs) : s.msgs.Perm (head :: ms.map Prod.fst) :=
  (perm_cons_erase hh).trans (hp.others.cons head)

theorem Good.perm {msgs : List ℕ} (hg : Good B D s) (hp : s.msgs.Perm msgs) :
    Good B D ⟨s.heap, msgs⟩ := by
  obtain ⟨ms, hperm, hc, hm⟩ := hg
  exact ⟨ms, hp.symm.trans hperm, hc, hm⟩

/-- The messages `ms` and another, which may be empty. -/
theorem Good.put (p : Option ℕ) (rest : List ℕ) (ms : List (ℕ × List ℕ)) {msgs : List ℕ}
    (hc : Counts B D h (rest ++ blocks ms))
    (hl : Linked h.b_cont p rest) (hs : ∀ b ∈ rest, Sound h b) (hm : Msgs h ms)
    (hp : msgs.Perm (ms.map Prod.fst)) : Good B D ⟨h, p.toList ++ msgs⟩ := by
  cases rest with
  | nil =>
    obtain rfl : p = none := hl
    exact ⟨ms, hp, hc, hm⟩
  | cons c rest =>
    obtain rfl : p = some c := hl.1
    exact ⟨(c, rest) :: ms, hp.cons c, hc, hm.cons hl hs⟩

/-- A block of a message, with what comes before and behind it. -/
theorem Good.find (hg : Good B D s) (hb : InMsg s b) :
    ∃ head rest pre post ms, head ∈ s.msgs ∧ Picked B D s head rest ms ∧
      head :: rest = pre ++ b :: post := by
  obtain ⟨head, hh, hr⟩ := hb
  obtain ⟨rest, ms, hp⟩ := hg.pick hh
  obtain ⟨pre, post, heq⟩ := append_of_mem (hp.linked.mem_of_reaches hr)
  exact ⟨head, rest, pre, post, ms, hh, hp, heq⟩

theorem Picked.good {head : ℕ} {rest : List ℕ} (hp : Picked B D s head rest ms)
    (hh : head ∈ s.msgs) : ∃ ms', s.msgs.Perm (ms'.map Prod.fst) ∧ ms' = (head, rest) :: ms ∧
      Counts B D s.heap (blocks ms') ∧ Msgs s.heap ms' :=
  ⟨(head, rest) :: ms, hp.msgs_perm hh, rfl, hp.counts, hp.msgs.cons hp.linked hp.sound⟩

end Messages

/-! ## What one step keeps -/

section Steps

variable {B D : List ℕ} {s : Sys} {h : Heap} {bp mp n : ℕ} {r : Option ℕ}

theorem Fresh.good {nb : ℕ} {ms : List (ℕ × List ℕ)} (hf : Fresh B D s.heap h (blocks ms) nb)
    (hm : Msgs s.heap ms) (hp : s.msgs.Perm (ms.map Prod.fst)) (hs : Sound h nb) :
    Good B D ⟨h, nb :: s.msgs⟩ := by
  have hm' : Msgs h ms := by
    apply hm.congr
    intro b hb
    have hne : b ≠ nb := by
      rintro rfl
      exact hf.not_live hb
    exact hf.same b hne
  apply Good.put (some nb) [nb] _ hf.counts ⟨rfl, hf.cont⟩ _ hm' hp
  intro b hb
  rw [mem_singleton.mp hb]
  exact hs

theorem Good.allocb (hg : Good B D s) (size : ℤ) (pri : Pri) :
    ∃ t, Does s (.allocb size pri) t ∧ Good B D t := by
  obtain ⟨ms, hperm, hc, hm⟩ := hg
  rcases allocb_spec hc size pri with hno | ⟨nb, h, halloc, hfresh, hdp, hrw⟩
  · exact ⟨_, .allocb hno, ms, hperm, hc, hm⟩
  · exact ⟨_, .allocb halloc, hfresh.good hm hperm ⟨hdp, Nat.le_of_eq hrw⟩⟩

theorem Good.dupb (hg : Good B D s) (hb : InMsg s bp) (hmeets : Meets s (.dupb bp)) :
    ∃ t, Does s (.dupb bp) t ∧ Good B D t := by
  obtain ⟨head, rest, pre, post, ms, hh, hp, heq⟩ := hg.find hb
  obtain ⟨ms', hperm, rfl, hc, hm⟩ := hp.good hh
  have hmem : bp ∈ blocks ((head, rest) :: ms) := by
    apply mem_blocks mem_cons_self
    rw [heq]
    exact mem_append_right _ mem_cons_self
  obtain ⟨d, hd⟩ := Option.ne_none_iff_exists'.mp (hm.sound bp hmem).datap
  have hlt : refs s.heap (blocks ((head, rest) :: ms)) d < 255 := by
    rw [← hc.dblks.ref d (hc.datap bp hmem d hd)]
    exact hmeets d hd
  rcases dupb_spec hc hmem hd hlt with ⟨hno, -⟩ | ⟨nb, h, hdup, hfresh, hdp, hr, hw⟩
  · exact ⟨_, .dupb hb hno, _, hperm, hc, hm⟩
  · refine ⟨_, .dupb hb hdup, hfresh.good hm hperm ⟨?_, ?_⟩⟩
    · rw [hdp]
      nofun
    · rw [hr, hw]
      exact (hm.sound bp hmem).rptr_le

theorem Good.dupmsg (hg : Good B D s) (hb : InMsg s bp) (hmeets : Meets s (.dupmsg bp)) :
    ∃ t, Does s (.dupmsg bp) t ∧ Good B D t := by
  obtain ⟨head, rest, pre, post, ms, hh, hp, heq⟩ := hg.find hb
  have hl : Linked s.heap.b_cont (some bp) (bp :: post) :=
    Linked.suffix pre (heq ▸ hp.linked)
  obtain ⟨ms', hperm, rfl, hc, hm⟩ := hp.good hh
  have hsub : ∀ c ∈ bp :: post, c ∈ blocks ((head, rest) :: ms) := by
    intro c hcp
    apply mem_blocks mem_cons_self
    rw [heq]
    exact mem_append_right _ hcp
  obtain ⟨fl, hfl, -, -⟩ := hc.mblks.free
  have hfit (d : ℕ) : refs s.heap (blocks ((head, rest) :: ms)) d +
      ((bp :: post).take fl.length).countP (fun c => s.heap.b_datap c = some d) ≤ 255 := by
    by_cases hd : d ∈ D
    · rw [← hc.dblks.ref d hd]
      exact hmeets (bp :: post) fl d hl hfl
    · have hnone (b : ℕ) (hb : b ∈ blocks ((head, rest) :: ms)) : s.heap.b_datap b ≠ some d :=
        fun hbd => hd (hc.datap b hb d hbd)
      have hz : refs s.heap (blocks ((head, rest) :: ms)) d = 0 := by
        apply countP_eq_zero.mpr
        intro b hb
        simpa using hnone b hb
      have hz' : ((bp :: post).take fl.length).countP (fun c => s.heap.b_datap c = some d) = 0 := by
        apply countP_eq_zero.mpr
        intro b hb
        simpa using hnone b (hsub b (mem_of_mem_take hb))
      omega
  obtain ⟨r, h, hdup, hsame, hres⟩ := dupmsg_spec hc hl hsub hm.sound hfl hfit (Nat.le_refl _)
  have hm' := hm.congr hsame
  refine ⟨_, .dupmsg hb hdup, ?_⟩
  cases r with
  | none => exact ⟨_, hperm, hres, hm'⟩
  | some nb =>
    obtain ⟨new, hc', hl', hs'⟩ := hres
    exact Good.put _ _ _ hc' hl' hs' hm' hperm

theorem Good.freeb (hg : Good B D s) (hh : bp ∈ s.msgs) :
    ∃ t, Does s (.freeb bp) t ∧ Good B D t := by
  obtain ⟨rest, ms, hp⟩ := hg.pick hh
  obtain ⟨d, hd⟩ := Option.ne_none_iff_exists'.mp (hp.sound bp mem_cons_self).datap
  obtain ⟨h, hfree, hc, hframe⟩ := freeb_spec hp.counts hd
  refine ⟨_, .freeb hh hfree, ?_⟩
  apply Good.put _ _ _ hc _ _ _ hp.others
  · rw [hframe.cont]
    exact hp.linked.2
  · intro b hb
    exact (hp.sound b (mem_cons_of_mem _ hb)).of_eq
      (hframe.same b (mem_append_left _ hb))
  · exact hp.msgs.congr fun b hb => hframe.same b (mem_append_right _ hb)

theorem Good.freemsg (hg : Good B D s) (hh : bp ∈ s.msgs) :
    ∃ t, Does s (.freemsg bp) t ∧ Good B D t := by
  obtain ⟨rest, ms, hp⟩ := hg.pick hh
  obtain ⟨h, hfree, hc, hframe⟩ := freemsg_spec hp.counts hp.linked
    (fun b hb => (hp.sound b hb).datap) (Nat.le_refl _)
  exact ⟨_, .freemsg hh hfree, ms, hp.others, hc, hp.msgs.congr hframe.same⟩

theorem Good.fill (hg : Good B D s) (hb : InMsg s bp) {w w' : ℕ} (hw : w ≤ w') (type : UInt8)
    (mem : ℕ → UInt8) : ∃ t, Does s (.fill bp w w' type mem) t ∧ Good B D t := by
  obtain ⟨head, rest, pre, post, ms, hh, hp, heq⟩ := hg.find hb
  obtain ⟨ms', hperm, hms', hc, hm⟩ := hp.good hh
  have hmem : bp ∈ blocks ms' := by
    rw [hms']
    apply mem_blocks mem_cons_self
    rw [heq]
    exact mem_append_right _ mem_cons_self
  obtain ⟨d, hd⟩ := Option.ne_none_iff_exists'.mp (hm.sound bp hmem).datap
  refine ⟨_, .fill hb hd hw, ?_⟩
  obtain ⟨h1, hh1⟩ : ∃ h1, h1 = s.heap.setM bp { s.heap.mblk bp with b_rptr := w, b_wptr := w' } :=
    ⟨_, rfl⟩
  have hc1 : Counts B D h1 (blocks ms') := by
    rw [hh1]
    exact hc.setM hmem rfl
  have hother (b : ℕ) (hne : b ≠ bp) : h1.mblk b = s.heap.mblk b := by
    rw [hh1]
    exact setM_other hne _
  have hself : h1.mblk bp = { s.heap.mblk bp with b_rptr := w, b_wptr := w' } := by
    rw [hh1]
    exact setM_self _
  have hcont : h1.b_cont = s.heap.b_cont := by
    funext b
    unfold Heap.b_cont
    by_cases hbp : b = bp
    · rw [hbp, hself]
    · rw [hother b hbp]
  have hm1 : Msgs h1 ms' := by
    refine ⟨fun m hmem => hcont ▸ hm.linked m hmem, fun c hc => ?_⟩
    by_cases hcb : c = bp
    · rw [hcb]
      refine ⟨?_, ?_⟩
      · unfold Heap.b_datap
        rw [hself]
        exact (hm.sound bp hmem).datap
      · rw [hself]
        exact hw
    · exact (hm.sound c hc).of_eq (hother c hcb)
  have hfill : Str.fill s.heap bp d w w' type mem =
      { h1.setD d { h1.dblk d with db_type := type } with mem := mem } := by
    rw [hh1]
    rfl
  rw [hfill]
  refine ⟨ms', hperm, ?_, hm1.congr fun _ _ => rfl⟩
  refine Counts.congr (hc1.setType d type) ?_ ?_ ?_ ?_ ?_ ?_
  · rfl
  · exact fun _ _ => rfl
  · exact fun _ _ => rfl
  · rfl
  · rfl
  · rfl

theorem linkb_eq {head : ℕ} {rest : List ℕ} (hl : Linked h.b_cont (some head) (head :: rest))
    (hn : rest.length < n) :
    linkb n h head bp = some (h.setCont (rest.getLast?.getD head) (some bp)) := by
  induction rest generalizing head n with
  | nil =>
    obtain ⟨n, rfl⟩ := Nat.exists_eq_add_of_le' hn
    have hnone : h.b_cont head = none := hl.2
    unfold linkb
    rw [hnone]
    rfl
  | cons c rest ih =>
    cases n with
    | zero => exact absurd hn (Nat.not_lt_zero _)
    | succ n =>
      unfold linkb
      rw [hl.2.1, List.getLast?_cons, Option.getD_some]
      exact ih ⟨rfl, hl.2.2⟩ (Nat.lt_of_succ_lt_succ hn)

theorem Good.linkb (hg : Good B D s) (hmp : mp ∈ s.msgs) (hbp : bp ∈ s.msgs.erase mp) :
    ∃ t, Does s (.linkb mp bp) t ∧ Good B D t := by
  obtain ⟨rest, ms, hp⟩ := hg.pick hmp
  obtain ⟨⟨p, rest'⟩, hmem, rfl⟩ := mem_map.mp (hp.others.mem_iff.mp hbp)
  obtain ⟨xs, ys, rfl⟩ := append_of_mem hmem
  have hmid : (xs ++ (p, rest') :: ys).Perm ((p, rest') :: (xs ++ ys)) := perm_middle
  have hm := hp.msgs.perm hmid
  have hl' := hm.linked _ mem_cons_self
  refine ⟨_, .linkb hmp hbp (linkb_eq hp.linked (Nat.lt_succ_self _)), ?_⟩
  obtain ⟨h, hlink⟩ : ∃ h, h = s.heap.setCont (rest.getLast?.getD mp) (some p) := ⟨_, rfl⟩
  simp only
  rw [← hlink]
  have hlast : (mp :: rest).getLast? = some (rest.getLast?.getD mp) := List.getLast?_cons
  have hlmem : rest.getLast?.getD mp ∈ mp :: rest := mem_of_getLast? hlast
  have hc : Counts B D s.heap ((mp :: rest) ++ (p :: rest' ++ blocks (xs ++ ys))) :=
    hp.counts.perm ((blocks_perm hmid).append_left (mp :: rest))
  have hnd := nodup_append.mp hc.mblks.nodup_live
  have hother (b : ℕ) (hb : b ∈ p :: rest' ++ blocks (xs ++ ys)) : h.mblk b = s.heap.mblk b := by
    rw [hlink]
    exact setCont_other (fun heq => hnd.2.2 _ hlmem b hb heq.symm) _
  have hjoin : Linked h.b_cont (some mp) (mp :: (rest ++ p :: rest')) := by
    have hp' : Linked s.heap.b_cont (some mp) ((mp :: rest) ++ []) :=
      (append_nil (mp :: rest)).symm ▸ hp.linked
    have htail : Linked h.b_cont (some p) (p :: rest') := by
      apply hl'.congr
      intro b hb
      exact congrArg Mblk.b_cont (hother b (mem_append_left _ hb))
    apply hp'.graft htail
    · intro x hx
      obtain rfl : rest.getLast?.getD mp = x := Option.some.inj (hlast.symm.trans hx)
      rw [hlink]
      exact setCont_self _
    · intro x _ hx
      have hne : x ≠ rest.getLast?.getD mp := fun heq => hx (heq ▸ hlast)
      rw [hlink]
      exact congrArg Mblk.b_cont (setCont_other hne _)
  have hs : ∀ b ∈ mp :: (rest ++ p :: rest'), Sound h b := by
    intro b hb
    rw [hlink]
    apply Sound.setCont
    rw [← cons_append, mem_append] at hb
    exact hb.elim (hp.sound b) fun hb => hm.sound b (mem_blocks mem_cons_self hb)
  have hm' : Msgs h (xs ++ ys) :=
    hm.tail.congr fun b hb => hother b (mem_append_right _ hb)
  refine ⟨(mp, rest ++ p :: rest') :: (xs ++ ys), ?_, ?_, hm'.cons hjoin hs⟩
  · -- of the two messages only the first is left
    have hall : s.msgs.Perm (p :: mp :: (xs ++ ys).map Prod.fst) := by
      have h1 := (hp.msgs_perm hmp).trans ((hmid.map Prod.fst).cons mp)
      exact h1.trans (List.Perm.swap _ _ _)
    have herase := hall.erase p
    rw [erase_cons_head] at herase
    exact herase
  · rw [hlink]
    have hperm : ((mp :: rest) ++ (p :: rest' ++ blocks (xs ++ ys))).Perm
        (blocks ((mp, rest ++ p :: rest') :: (xs ++ ys))) := by
      rw [blocks_cons, ← append_assoc, cons_append]
      exact List.Perm.refl _
    apply (hc.perm hperm).setCont
    exact hperm.mem_iff.mp (mem_append_left _ hlmem)

/-- A message comes apart behind `pre`, and `bp` is a message of its own. -/
theorem Picked.cut {head : ℕ} {rest : List ℕ} {ms : List (ℕ × List ℕ)}
    (hp : Picked B D s head rest ms) (pre post : List ℕ) (heq : head :: rest = pre ++ bp :: post) (h0 : Heap)
    (hcont : ∀ b ∈ pre, h0.b_cont b = if pre.getLast? = some b then post.head?
      else s.heap.b_cont b)
    (hother : ∀ b, b ∉ pre → h0.mblk b = s.heap.mblk b) (hs : ∀ b ∈ head :: rest, Sound h0 b)
    (hc : Counts B D h0 (head :: (rest ++ blocks ms))) :
    Good B D ⟨h0.setCont bp none, bp :: ((pre ++ post).head?.toList ++ s.msgs.erase head)⟩ := by
  have hc' : Counts B D h0 (pre ++ bp :: post ++ blocks ms) := heq ▸ hc
  have hnd := hc'.mblks.nodup_live
  rw [append_assoc, nodup_append, cons_append, nodup_cons,
    nodup_append] at hnd
  have hpost : bp ∉ post := fun hb => hnd.2.1.1 (mem_append_left _ hb)
  have hpre : bp ∉ pre := fun hb => hnd.2.2 bp hb bp mem_cons_self rfl
  have hms : bp ∉ blocks ms := fun hb => hnd.2.1.1 (mem_append_right _ hb)
  have hl : Linked s.heap.b_cont (some head) (pre ++ bp :: post) := heq ▸ hp.linked
  have hcont' (b : ℕ) (hb : b ≠ bp) : (h0.setCont bp none).b_cont b = h0.b_cont b :=
    congrArg Mblk.b_cont (setCont_other hb none)
  have hlp : Linked (h0.setCont bp none).b_cont (pre ++ post).head? (pre ++ post) := by
    apply hl.remove
    · intro x hx
      have hxp : x ∈ pre := mem_of_getLast? hx
      have hne : x ≠ bp := fun heq => hpre (heq ▸ hxp)
      rw [hcont' x hne, hcont x hxp, if_pos hx]
    · intro x hx hlast
      rcases mem_append.mp hx with hx | hx
      · have hne : x ≠ bp := fun heq => hpre (heq ▸ hx)
        rw [hcont' x hne, hcont x hx, if_neg hlast]
      · have hne : x ≠ bp := fun heq => hpost (heq ▸ hx)
        have hxp : x ∉ pre := fun hxp => hnd.2.2 x hxp x (mem_cons_of_mem _
          (mem_append_left _ hx)) rfl
        rw [hcont' x hne]
        exact congrArg Mblk.b_cont (hother x hxp)
  have hmem (b : ℕ) : b ∈ head :: rest ↔ b ∈ pre ∨ b = bp ∨ b ∈ post := by
    rw [heq, mem_append, mem_cons]
  have hmsame (b : ℕ) (hb : b ∈ blocks ms) : (h0.setCont bp none).mblk b = s.heap.mblk b := by
    have hne : b ≠ bp := fun heq => hms (heq ▸ hb)
    have hbp : b ∉ pre := fun hbp => hnd.2.2 b hbp b (mem_cons_of_mem _
      (mem_append_right _ hb)) rfl
    rw [setCont_other hne, hother b hbp]
  have hcount : Counts B D (h0.setCont bp none) (bp :: (pre ++ post ++ blocks ms)) := by
    apply Counts.perm (hc'.setCont (by simp) none)
    rw [append_assoc, append_assoc]
    exact perm_middle
  have hrest : Good B D ⟨h0.setCont bp none, (pre ++ post).head?.toList ++
      (bp :: s.msgs.erase head)⟩ := by
    apply Good.put _ _ ((bp, []) :: ms) _ hlp _ _ (hp.others.cons bp)
    · exact hcount.perm perm_middle.symm
    · intro b hb
      apply Sound.setCont
      apply hs
      rw [hmem]
      rcases mem_append.mp hb with hb | hb
      · exact .inl hb
      · exact .inr (.inr hb)
    · apply (hp.msgs.congr hmsame).cons
      · exact ⟨rfl, setCont_self none⟩
      · intro b hb
        rw [mem_singleton.mp hb]
        exact (hs bp ((hmem bp).mpr (.inr (.inl rfl)))).setCont none
  exact hrest.perm perm_middle

theorem Good.unlinkb (hg : Good B D s) (hh : bp ∈ s.msgs) :
    ∃ t, Does s (.unlinkb bp) t ∧ Good B D t := by
  obtain ⟨rest, ms, hp⟩ := hg.pick hh
  refine ⟨_, .unlinkb hh rfl, ?_⟩
  have hcut := hp.cut [] rest rfl s.heap nofun (fun _ _ => rfl) hp.sound hp.counts
  rw [hp.linked.2.head]
  apply hcut.perm
  exact perm_middle.symm.trans ((perm_cons_erase hh).symm.append_left _)

theorem rmvbLoop_not {p lastp : Option ℕ} {xs : List ℕ} (hl : Linked h.b_cont p xs)
    (hb : bp ∉ xs) (hn : xs.length ≤ n) : rmvbLoop mp bp n h lastp p = some (none, h) := by
  induction xs generalizing p lastp n with
  | nil =>
    obtain rfl : p = none := hl
    cases n <;> rfl
  | cons x xs ih =>
    rw [mem_cons, not_or] at hb
    cases n with
    | zero => exact absurd hn (Nat.not_succ_le_zero _)
    | succ n =>
      unfold rmvbLoop
      rw [hl.1]
      simp only [if_neg (Ne.symm hb.1)]
      exact ih hl.2 hb.2 (Nat.le_of_succ_le_succ hn)

theorem rmvbLoop_eq (mp : ℕ) (lastp : Option ℕ) {p : Option ℕ} {pre post : List ℕ}
    (hl : Linked h.b_cont p (pre ++ bp :: post)) (hn : pre.length < n) :
    rmvbLoop mp bp n h lastp p =
      match pre.getLast?.or lastp with
      | some l => some (some (some mp), (h.setCont l (h.b_cont bp)).setCont bp none)
      | none => some (some (h.b_cont bp), h.setCont bp none) := by
  induction pre generalizing p lastp n with
  | nil =>
    obtain ⟨n, rfl⟩ := Nat.exists_eq_add_of_le' hn
    unfold rmvbLoop
    rw [hl.1]
    simp only [if_true]
    cases lastp <;> rfl
  | cons x pre ih =>
    have hne : x ≠ bp := by
      rintro rfl
      exact (nodup_cons.mp hl.nodup).1 (mem_append_right _ mem_cons_self)
    cases n with
    | zero => exact absurd hn (Nat.not_lt_zero _)
    | succ n =>
      have hor : (x :: pre).getLast?.or lastp = pre.getLast?.or (some x) := by
        rw [List.getLast?_cons]
        cases pre.getLast? <;> rfl
      unfold rmvbLoop
      rw [hl.1, hor]
      simp only [if_neg hne]
      exact ih _ hl.2 (Nat.lt_of_succ_lt_succ hn)

theorem Good.rmvb (hg : Good B D s) (hh : mp ∈ s.msgs) (bp : ℕ) :
    ∃ t, Does s (.rmvb mp bp) t ∧ Good B D t := by
  obtain ⟨rest, ms, hp⟩ := hg.pick hh
  by_cases hb : bp ∈ mp :: rest
  · obtain ⟨pre, post, heq⟩ := append_of_mem hb
    have hl : Linked s.heap.b_cont (some mp) (pre ++ bp :: post) := heq ▸ hp.linked
    have hnext : s.heap.b_cont bp = post.head? := hl.next_eq
    have hloop : Str.rmvb (pre.length + 1) s.heap mp bp = _ :=
      rmvbLoop_eq mp none hl (Nat.lt_succ_self _)
    rw [Option.or_none] at hloop
    cases hlast : pre.getLast? with
    | none =>
      rw [hlast] at hloop
      obtain rfl : pre = [] := List.getLast?_eq_none_iff.mp hlast
      refine ⟨_, .rmvb hh hloop, ?_⟩
      rw [hnext]
      exact hp.cut [] post heq s.heap nofun (fun _ _ => rfl) hp.sound hp.counts
    | some l =>
      rw [hlast] at hloop
      have hl' : l ∈ pre := mem_of_getLast? hlast
      have hhead : (pre ++ post).head? = some mp := by
        cases pre with
        | nil => exact absurd hl' not_mem_nil
        | cons x pre =>
          rw [(List.cons.inj heq).1]
          rfl
      refine ⟨_, .rmvb hh hloop, ?_⟩
      rw [hnext, ← hhead]
      apply hp.cut pre post heq (s.heap.setCont l post.head?)
      · intro b hb
        by_cases hbl : b = l
        · rw [hbl, hlast, if_pos rfl]
          exact setCont_self _
        · rw [hlast, if_neg fun heq => hbl (Option.some.inj heq).symm]
          exact congrArg Mblk.b_cont (setCont_other hbl _)
      · intro b hb
        have hne : b ≠ l := by
          rintro rfl
          exact hb hl'
        exact setCont_other hne _
      · exact fun b hb => (hp.sound b hb).setCont _
      · apply hp.counts.setCont
        rw [← cons_append, heq]
        exact mem_append_left _ (mem_append_left _ hl')
  · have hno : Str.rmvb (rest.length + 1) s.heap mp bp = some (none, s.heap) :=
      rmvbLoop_not hp.linked hb (Nat.le_refl _)
    exact ⟨_, .rmvb_not hh hno, hg⟩

theorem Good.pullupmsg (hg : Good B D s) (hb : InMsg s mp) {len : ℤ}
    (hsome : PullsSome s.heap mp len) : ∃ t, Does s (.pullupmsg mp len) t ∧ Good B D t := by
  obtain ⟨head, rest, pre, post, ms, hh, hp, heq⟩ := hg.find hb
  have hl : Linked s.heap.b_cont (some head) (pre ++ mp :: post) := heq ▸ hp.linked
  have hperm : (head :: (rest ++ blocks ms)).Perm (mp :: (post ++ (pre ++ blocks ms))) := by
    rw [← cons_append, heq]
    apply perm_iff_count.mpr
    intro a
    simp only [count_cons, count_append]
    omega
  have hs (b : ℕ) (hb : b ∈ mp :: post) : Sound s.heap b := by
    apply hp.sound
    rw [heq]
    exact mem_append_right _ hb
  obtain ⟨r, h, post', hpull, hup⟩ := pullupmsg_spec (hp.counts.perm hperm)
    (Linked.suffix pre hl) hs hsome (Nat.lt_succ_self _)
  refine ⟨_, .pullupmsg hb hpull, ?_⟩
  have hpre (b : ℕ) (hb : b ∈ pre) : h.mblk b = s.heap.mblk b :=
    hup.same b (mem_append_left _ hb)
  have hl' : Linked h.b_cont (pre ++ mp :: post').head? (pre ++ mp :: post') := by
    apply hl.graft hup.linked
    · intro x hx
      obtain ⟨ys, rfl⟩ := List.getLast?_eq_some_iff.mp hx
      have hxc : h.b_cont x = s.heap.b_cont x :=
        congrArg Mblk.b_cont (hpre x (mem_append_right _ mem_cons_self))
      rw [append_assoc] at hl
      rw [hxc, hl.next_eq]
      rfl
    · intro x hx _
      exact congrArg Mblk.b_cont (hpre x hx)
  obtain ⟨rest', hrest'⟩ : ∃ rest', pre ++ mp :: post' = head :: rest' := by
    cases pre with
    | nil => exact ⟨post', by rw [← (List.cons.inj heq).1]; rfl⟩
    | cons x pre => exact ⟨pre ++ mp :: post', by rw [(List.cons.inj heq).1]; rfl⟩
  rw [hrest'] at hl'
  refine ⟨(head, rest') :: ms, hp.msgs_perm hh, ?_, ?_⟩
  · apply hup.counts.perm
    have hall : blocks ((head, rest') :: ms) = (pre ++ mp :: post') ++ blocks ms := by
      rw [hrest']
      rfl
    rw [hall]
    apply perm_iff_count.mpr
    intro a
    simp only [count_cons, count_append]
    omega
  · have hm : Msgs h ms := hp.msgs.congr fun b hb => hup.same b (mem_append_right _ hb)
    apply hm.cons hl'
    intro b hb
    rw [← hrest', mem_append] at hb
    rcases hb with hb | hb
    · have hbs : Sound s.heap b := by
        apply hp.sound
        rw [heq]
        exact mem_append_left _ hb
      exact hbs.of_eq (hpre b hb)
    · exact hup.sound b hb

theorem Good.can {op : Op} (hg : Good B D s) (hallowed : Allowed s op) (hmeets : Meets s op) :
    ∃ t, Does s op t ∧ Good B D t := by
  cases op with
  | allocb size pri => exact hg.allocb size pri
  | dupb bp => exact hg.dupb hallowed hmeets
  | dupmsg bp => exact hg.dupmsg hallowed hmeets
  | freeb bp => exact hg.freeb hallowed
  | freemsg bp => exact hg.freemsg hallowed
  | linkb mp bp => exact hg.linkb hallowed.1 hallowed.2
  | unlinkb bp => exact hg.unlinkb hallowed
  | rmvb mp bp => exact hg.rmvb hallowed bp
  | pullupmsg mp len => exact hg.pullupmsg hallowed hmeets
  | fill bp r w type mem => exact hg.fill hallowed.1 hallowed.2 type mem

theorem Good.step {op : Op} {t : Sys} (hg : Good B D s) (hd : Does s op t) (hmeets : Meets s op) :
    Good B D t := by
  obtain ⟨u, hu, hgood⟩ := hg.can hd.allowed hmeets
  rw [hd.unique hu]
  exact hgood

end Steps

/-! ## What every run keeps -/

/-- Data blocks are counted and freed by the message blocks that refer to them. -/
structure Exact (B D : List ℕ) (s : Sys) : Prop where
  ref : ∀ d ∈ D, (s.heap.dblk d).db_ref.toNat = B.countP fun b => s.heap.b_datap b = some d
  dfree : ∀ d ∈ D, ∀ c < NCLASS, OnList s.heap.db_freep (s.heap.dbfreelist c) d ↔
    (s.heap.dblk d).db_class = c ∧ ∀ b ∈ B, s.heap.b_datap b ≠ some d
  mfree : ∀ b ∈ B, OnList s.heap.b_next s.heap.mbfreelist b ↔ ¬ InMsg s b
  inside : ∀ b, OnList s.heap.b_next s.heap.mbfreelist b ∨ InMsg s b → b ∈ B
  cnt : ∀ c < NCLASS, ∃ used : List ℕ, used.Nodup ∧ (s.heap.dballoc c).dba_cnt = used.length ∧
    ∀ d, d ∈ used ↔ d ∈ D ∧ (s.heap.dblk d).db_class = c ∧
      ¬ OnList s.heap.db_freep (s.heap.dbfreelist c) d
  ends : ∀ head ∈ s.msgs, ∃ m, Linked s.heap.b_cont (some head) m

section Runs

variable {B D : List ℕ} {s : Sys} {h : Heap}

theorem Good.inMsg_iff {ms : List (ℕ × List ℕ)} (hperm : s.msgs.Perm (ms.map Prod.fst))
    (hm : Msgs s.heap ms) {b : ℕ} : InMsg s b ↔ b ∈ blocks ms := by
  constructor
  · rintro ⟨head, hh, hr⟩
    obtain ⟨m, hmem, rfl⟩ := mem_map.mp (hperm.mem_iff.mp hh)
    exact mem_blocks hmem ((hm.linked m hmem).mem_of_reaches hr)
  · intro hb
    obtain ⟨m, hmem, hbm⟩ := mem_flatMap.mp hb
    obtain ⟨y, hy, hr⟩ := (hm.linked m hmem).reaches hbm
    obtain rfl : m.1 = y := Option.some.inj hy
    exact ⟨m.1, hperm.mem_iff.mpr (mem_map_of_mem hmem), hr⟩

theorem Good.exact (hg : Good B D s) : Exact B D s := by
  obtain ⟨ms, hperm, hc, hm⟩ := hg
  obtain ⟨fl, hfl, hall, hnone⟩ := hc.mblks.free
  have hmem (b : ℕ) : b ∈ B ↔ b ∈ fl ∨ b ∈ blocks ms := by
    rw [← hall.mem_iff, mem_append]
  have hrefs (d : ℕ) : refs s.heap (blocks ms) d = B.countP fun b => s.heap.b_datap b = some d := by
    have hz : fl.countP (fun b => s.heap.b_datap b = some d) = 0 := by
      apply countP_eq_zero.mpr
      intro b hb
      simp [hnone b hb]
    rw [← hall.countP_eq, countP_append, hz, Nat.zero_add]
    rfl
  have hzero (d : ℕ) : refs s.heap (blocks ms) d = 0 ↔ ∀ b ∈ B, s.heap.b_datap b ≠ some d := by
    rw [hrefs, countP_eq_zero]
    simp
  refine ⟨fun d hd => ?_, fun d hd c hcl => ?_, fun b hb => ?_, fun b hb => ?_, fun c hcl => ?_,
    fun head hh => ?_⟩
  · rw [hc.dblks.ref d hd, hrefs]
  · obtain ⟨dl, h1, h2⟩ := hc.dblks.free c hcl
    rw [h1.onList_iff, h2 d, ← hzero d]
    exact and_iff_right hd
  · have hnd := nodup_append.mp (hall.nodup_iff.mpr hc.mblks.nodup)
    rw [hfl.onList_iff, Good.inMsg_iff hperm hm]
    constructor
    · exact fun h1 h2 => hnd.2.2 b h1 b h2 rfl
    · exact ((hmem b).mp hb).resolve_right
  · rw [hfl.onList_iff, Good.inMsg_iff hperm hm] at hb
    exact (hmem b).mpr hb
  · obtain ⟨dl, h1, h2⟩ := hc.dblks.free c hcl
    refine ⟨D.filter fun d => (s.heap.dblk d).db_class = c ∧ refs s.heap (blocks ms) d ≠ 0,
      hc.dblks.nodup.filter _, ?_, fun d => ?_⟩
    · rw [hc.dblks.cnt c hcl, countP_eq_length_filter]
    · rw [mem_filter, h1.onList_iff, h2 d, decide_eq_true_eq]
      constructor
      · rintro ⟨hd, hcls, hr⟩
        exact ⟨hd, hcls, fun hh => hr hh.2.2⟩
      · rintro ⟨hd, hcls, hnot⟩
        exact ⟨hd, hcls, fun hr => hnot ⟨hd, hcls, hr⟩⟩
  · obtain ⟨m, hmem, rfl⟩ := mem_map.mp (hperm.mem_iff.mp hh)
    exact ⟨_, hm.linked m hmem⟩

theorem Booted.good (hb : Booted B D h) : Good B D ⟨h, []⟩ :=
  ⟨[], List.Perm.refl _, ⟨hb.mblks, hb.dblks, nofun⟩, nofun, nofun⟩

/-- The steps that meet the condition. -/
def Meeting (s : Sys) (op : Op) (t : Sys) : Prop := Does s op t ∧ Meets s op

theorem Good.run {ops : List Op} {t : Sys} (hg : Good B D s) (hr : Run Meeting s ops t) :
    Good B D t :=
  hr.invariant (fun _ _ _ hg hd => hg.step hd.1 hd.2) hg

end Runs

/-- From boot on, data blocks are counted and freed by the message blocks that refer to them, and
whatever is allowed and meets the condition can be done. -/
theorem data_blocks_exact {h : Heap} (hz : Bss h) (nblk : ℕ → ℕ) (strlofrac strmedfrac : ℕ)
    (base : Option ℕ) {ops : List Op} {t : Sys}
    (hr : Run Meeting ⟨strinit nblk strlofrac strmedfrac base h, []⟩ ops t) :
    Exact (mblocks nblk base h) (dblocks nblk base) t ∧
      ∀ op, Allowed t op → Meets t op → ∃ u, Does t op u := by
  have hg := (strinit_booted hz nblk strlofrac strmedfrac base).good.run hr
  refine ⟨hg.exact, fun op hallowed hmeets => ?_⟩
  obtain ⟨u, hu, -⟩ := hg.can hallowed hmeets
  exact ⟨u, hu⟩

theorem bss_bss (n : ℤ) : Bss (bss n) := ⟨fun _ => rfl, fun _ => rfl, fun _ => rfl, fun _ => rfl⟩

/-- One data block of 4 bytes. -/
def oneBlock (c : ℕ) : ℕ := if c = 0 then 1 else 0

theorem data_blocks_exact_two :
    ∃ t, Run Meeting ⟨strinit oneBlock 80 90 (some 0) (bss 2), []⟩
        [.allocb 4 .BPRI_HI, .dupb 1, .freeb 0] t ∧ t.msgs = [1] ∧ Exact [0, 1] [0] t := by
  have hrun : ∃ t, Run Meeting ⟨strinit oneBlock 80 90 (some 0) (bss 2), []⟩
      [.allocb 4 .BPRI_HI, .dupb 1, .freeb 0] t ∧ t.msgs = [1] := by
    refine ⟨_, .cons ⟨.allocb rfl, True.intro⟩ (.cons ⟨.dupb ⟨1, ?_, .refl⟩ rfl, ?_⟩
      (.cons ⟨.freeb ?_ rfl, True.intro⟩ (.nil _))), ?_⟩
    · exact mem_cons_self
    · intro d hd
      obtain rfl : 0 = d := Option.some.inj hd
      decide
    · exact mem_cons_self
    · rfl
  obtain ⟨t, hr, hmsgs⟩ := hrun
  exact ⟨t, hr, hmsgs, (data_blocks_exact (bss_bss 2) oneBlock 80 90 (some 0) hr).1⟩

/-! ## Too many references -/

/-- The message at `b` and its duplicates, `k` blocks that all refer to `d`. -/
structure Dups (B D : List ℕ) (s : Sys) (b d k : ℕ) : Prop where
  msg : b ∈ s.msgs
  datap : s.heap.b_datap b = some d
  pool : ∃ live fl, Counts B D s.heap live ∧ b ∈ live ∧ refs s.heap live d = k ∧
    Linked s.heap.b_next s.heap.mbfreelist fl ∧ (fl ++ live).Perm B ∧ live.length = k

theorem Dups.first {B D : List ℕ} {h h' : Heap} (hb : Booted B D h) {size : ℤ} {pri : Pri} {b : ℕ}
    (he : allocb h size pri = (some b, h')) : ∃ d, Dups B D ⟨h', [b]⟩ b d 1 := by
  have hc : Counts B D h [] := ⟨hb.mblks, hb.dblks, nofun⟩
  obtain ⟨fl, hfl, hall, -⟩ := hb.mblks.free
  rcases allocb_spec hc size pri with hno | ⟨nb, h1, halloc, hfresh, hdp, -⟩
  · exact absurd (congrArg Prod.fst (he.symm.trans hno)) nofun
  · obtain ⟨hb', rfl⟩ := Prod.mk.inj (he.symm.trans halloc)
    obtain rfl : b = nb := Option.some.inj hb'
    obtain ⟨d, hd⟩ := Option.ne_none_iff_exists'.mp hdp
    obtain ⟨fl', rfl, hfl'⟩ := hfresh.free_list hfl
    refine ⟨d, mem_cons_self, hd, [b], fl', hfresh.counts, mem_cons_self, ?_, hfl', ?_, rfl⟩
    · rw [refs_cons, if_pos hd]
      rfl
    · rw [append_nil] at hall
      exact (perm_append_singleton b fl').trans hall

theorem Dups.more {B D : List ℕ} {s : Sys} {b d k : ℕ} (hd : Dups B D s b d k) (hk : k < 255)
    (hB : k < B.length) : ∃ t, Does s (.dupb b) t ∧ Dups B D t b d (k + 1) := by
  obtain ⟨live, fl, hc, hb, hrefs, hfl, hall, hlen⟩ := hd.pool
  rcases dupb_spec hc hb hd.datap (hrefs ▸ hk) with ⟨-, hnone⟩ | ⟨nb, h, hdup, hfresh, hdp, -, -⟩
  · obtain rfl : fl = [] := hfl.unique (hnone ▸ rfl)
    have := hall.length_eq
    simp only [nil_append] at this
    omega
  · obtain ⟨fl', rfl, hfl'⟩ := hfresh.free_list hfl
    have hsame (x : ℕ) (hx : x ∈ live) : h.b_datap x = s.heap.b_datap x := by
      have hne : x ≠ nb := by
        rintro rfl
        exact hfresh.not_live hx
      exact congrArg Mblk.b_datap (hfresh.same x hne)
    refine ⟨_, .dupb ⟨b, hd.msg, .refl⟩ hdup, mem_cons_of_mem _ hd.msg,
      (hsame b hb).trans hd.datap, nb :: live, fl', hfresh.counts, mem_cons_of_mem _ hb, ?_, hfl',
      ?_, congrArg Nat.succ hlen⟩
    · rw [refs_cons, if_pos hdp, refs_congr hsame, hrefs]
    · exact perm_middle.trans hall

theorem Dups.many {B D : List ℕ} {s : Sys} {b d : ℕ} (hd : Dups B D s b d 1) (hB : 255 ≤ B.length)
    (k : ℕ) (hk : k ≤ 254) : ∃ t, Run Does s (List.replicate k (.dupb b)) t ∧
      Dups B D t b d (k + 1) := by
  induction k with
  | zero => exact ⟨s, .nil s, hd⟩
  | succ k ih =>
    obtain ⟨t, hr, ht⟩ := ih (by omega)
    obtain ⟨u, hu, hdu⟩ := ht.more (by omega) (by omega)
    refine ⟨u, ?_, hdu⟩
    rw [replicate_succ']
    exact hr.snoc hu

/-- With 255 references there, one more makes the count 0. -/
theorem Dups.wrap {B D : List ℕ} {s : Sys} {b d : ℕ} (hd : Dups B D s b d 255)
    (hB : 255 < B.length) : ∃ t, Does s (.dupb b) t ∧ (t.heap.dblk d).db_ref = 0 ∧ d ∈ D ∧
      (B.countP fun b => t.heap.b_datap b = some d) = 256 := by
  obtain ⟨live, fl, hc, hb, hrefs, hfl, hall, hlen⟩ := hd.pool
  have hmem : d ∈ D := hc.datap b hb d hd.datap
  obtain ⟨fl₀, hfl₀, hall₀, hnone⟩ := hc.mblks.free
  obtain rfl : fl = fl₀ := hfl.unique hfl₀
  cases fl with
  | nil =>
    have := hall.length_eq
    simp only [nil_append] at this
    omega
  | cons nb fl =>
    have hnd := nodup_append.mp (hall.nodup_iff.mpr hc.mblks.nodup)
    have hnew : nb ∉ fl := (nodup_cons.mp hnd.1).1
    have hnl : nb ∉ live := fun hl => hnd.2.2 nb mem_cons_self nb hl rfl
    have hdup : dupb s.heap b = some (some nb, ((s.heap.popM nb).setM nb
        ⟨none, none, none, (s.heap.mblk b).b_rptr, (s.heap.mblk b).b_wptr, some d⟩).setD d
          { s.heap.dblk d with db_ref := (s.heap.dblk d).db_ref + 1 }) := by
      unfold dupb
      rw [hfl.1, hd.datap]
      rfl
    refine ⟨_, .dupb ⟨b, hd.msg, .refl⟩ hdup, ?_, hmem, ?_⟩
    · have href : (s.heap.dblk d).db_ref = 255 := by
        apply UInt8.toNat_inj.mp
        rw [hc.dblks.ref d hmem, hrefs]
        rfl
      simp only [setD_self, href]
      rfl
    · obtain ⟨h, hh⟩ : ∃ h, h = ((s.heap.popM nb).setM nb
          ⟨none, none, none, (s.heap.mblk b).b_rptr, (s.heap.mblk b).b_wptr, some d⟩).setD d
            { s.heap.dblk d with db_ref := (s.heap.dblk d).db_ref + 1 } := ⟨_, rfl⟩
      have hself : h.b_datap nb = some d := by
        rw [hh]
        exact congrArg Mblk.b_datap (setM_self _)
      have hother (x : ℕ) (hx : x ≠ nb) : h.b_datap x = s.heap.b_datap x := by
        rw [hh]
        exact congrArg Mblk.b_datap (setM_other hx _)
      have hfree : fl.countP (fun x => h.b_datap x = some d) = 0 := by
        apply countP_eq_zero.mpr
        intro x hx
        have hne : x ≠ nb := by
          rintro rfl
          exact hnew hx
        rw [hother x hne, hnone x (mem_cons_of_mem _ hx)]
        simp
      have hlive : live.countP (fun x => h.b_datap x = some d) = 255 := by
        rw [← hrefs]
        apply refs_congr
        intro x hx
        have hne : x ≠ nb := by
          rintro rfl
          exact hnl hx
        exact hother x hne
      simp only [← hh]
      rw [← hall.countP_eq, countP_append, countP_cons, if_pos (by simpa using hself),
        hfree, hlive]

theorem Booted.wraps {B D : List ℕ} {h h' : Heap} (hb : Booted B D h) {size : ℤ} {pri : Pri} {b : ℕ}
    (he : allocb h size pri = (some b, h')) (hB : 255 < B.length) :
    ∃ ops t, Run Does ⟨h, []⟩ ops t ∧ ∃ d ∈ D, (t.heap.dblk d).db_ref = 0 ∧
      (B.countP fun b => t.heap.b_datap b = some d) = 256 := by
  obtain ⟨d, hd⟩ := Dups.first hb he
  obtain ⟨s, hs, hds⟩ := hd.many (Nat.le_of_lt hB) 254 (Nat.le_refl _)
  obtain ⟨t, ht, href, hmem, hcount⟩ := hds.wrap hB
  exact ⟨_, t, .cons (.allocb he) (hs.snoc ht), d, hmem, href, hcount⟩

/-- 255 calls of `dupb` for one block leave 256 references to a data block that counts none. -/
theorem dupb_wraps : ∃ ops t, Run Does ⟨strinit oneBlock 80 90 (some 0) (bss 256), []⟩ ops t ∧
    (∃ d ∈ dblocks oneBlock (some 0), (t.heap.dblk d).db_ref = 0 ∧
      (mblocks oneBlock (some 0) (bss 256)).countP (fun b => t.heap.b_datap b = some d) = 256) ∧
    ¬ Exact (mblocks oneBlock (some 0) (bss 256)) (dblocks oneBlock (some 0)) t := by
  have hb := strinit_booted (bss_bss 256) oneBlock 80 90 (some 0)
  have hfirst : (allocb (strinit oneBlock 80 90 (some 0) (bss 256)) 4 .BPRI_HI).1 = some 255 := by
    decide +kernel
  have hlen : 255 < (mblocks oneBlock (some 0) (bss 256)).length := by
    decide +kernel
  generalize strinit oneBlock 80 90 (some 0) (bss 256) = h at hb hfirst ⊢
  obtain ⟨ops, t, hr, d, hmem, href, hcount⟩ := hb.wraps (Prod.ext hfirst rfl) hlen
  refine ⟨ops, t, hr, ⟨d, hmem, href, hcount⟩, fun hex => ?_⟩
  have hexact := hex.ref d hmem
  rw [href, hcount] at hexact
  exact absurd hexact (by decide)

end Svr3.Str
