import Mathlib.Data.List.TakeWhile
import Svr3.Io.StreamPullup
import Mathlib.Algebra.Group.Int.Defs

/-!
# Trimming a message

`adjmsg` of `io/stream.c` drops bytes at the head or at the tail of the blocks at the front of a
message that have one type. At the tail it looks for the last block with data in it again and again.
The smallest `int`, which is its own negative, makes the message longer.
-/

namespace Svr3.Str

open List

/-- The bytes between the pointers of a message block. -/
def bytes (h : Heap) (b : ℕ) : List UInt8 :=
  (List.range' (h.mblk b).b_rptr ((h.mblk b).b_wptr - (h.mblk b).b_rptr)).map h.mem

def data (h : Heap) (m : List ℕ) : List UInt8 := m.flatMap (bytes h)

/-- The blocks at the front of the message `m` that have the type of `mp`. -/
def lead (h : Heap) (mp : ℕ) (m : List ℕ) : List ℕ := m.takeWhile fun b => dbType h b = dbType h mp

section Bytes

variable {h h' : Heap} {b mp : ℕ} {m xs ys : List ℕ}

theorem bytes_length (hb : Sound h b) : ((bytes h b).length : ℤ) = bsz h b := by
  have := hb.rptr_le
  unfold bytes bsz
  rw [length_map, length_range']
  omega

@[simp]
theorem total_append : total h (xs ++ ys) = total h xs + total h ys := by
  unfold total
  rw [map_append, sum_append]

/-- Only the bytes between the pointers count. -/
theorem bytes_congr (hmem : ∀ a, (h.mblk b).b_rptr ≤ a → a < (h.mblk b).b_wptr → h'.mem a = h.mem a)
    (hb : h'.mblk b = h.mblk b) : bytes h' b = bytes h b := by
  unfold bytes
  rw [hb]
  apply map_congr_left
  intro a ha
  obtain ⟨h1, h2⟩ := mem_range'_1.mp ha
  exact hmem a h1 (by omega)

/-- The read pointer moves up. -/
theorem bytes_rptr {c : ℕ}
    (hmem : ∀ a, (h.mblk b).b_rptr ≤ a → a < (h.mblk b).b_wptr → h'.mem a = h.mem a)
    (hb : h'.mblk b = { h.mblk b with b_rptr := (h.mblk b).b_rptr + c }) :
    bytes h' b = (bytes h b).drop c := by
  unfold bytes
  rw [hb, ← map_drop, drop_range']
  simp only
  have hsub : (h.mblk b).b_wptr - ((h.mblk b).b_rptr + c) =
      (h.mblk b).b_wptr - (h.mblk b).b_rptr - c := by
    omega
  rw [hsub, Nat.mul_one]
  apply map_congr_left
  intro a ha
  obtain ⟨h1, h2⟩ := mem_range'_1.mp ha
  exact hmem a (by omega) (by omega)

end Bytes

/-! ## Only pointers move -/

/-- The pointers of the blocks `run` may be others. -/
structure Moved (h h' : Heap) (run : List ℕ) : Prop where
  same : ∀ b, b ∉ run → h'.mblk b = h.mblk b
  cont : h'.b_cont = h.b_cont
  datap : h'.b_datap = h.b_datap
  heap : h' = { h with mblk := h'.mblk }
  sound : ∀ b, Sound h b → Sound h' b

namespace Moved

variable {h h' h'' : Heap} {b r w : ℕ} {xs ys run : List ℕ}

theorem refl (h : Heap) (run : List ℕ) : Moved h h run :=
  ⟨fun _ _ => rfl, rfl, rfl, rfl, fun _ hb => hb⟩

theorem trans (h1 : Moved h h' xs) (h2 : Moved h' h'' ys) (hxs : xs ⊆ run) (hys : ys ⊆ run) :
    Moved h h'' run := by
  refine ⟨fun b hb => ?_, h2.cont.trans h1.cont, h2.datap.trans h1.datap, ?_,
    fun b hb => h2.sound b (h1.sound b hb)⟩
  · rw [h2.same b fun hy => hb (hys hy), h1.same b fun hx => hb (hxs hx)]
  · rw [h2.heap, h1.heap]

theorem mem (hm : Moved h h' run) : h'.mem = h.mem := by
  rw [hm.heap]

theorem dbType (hm : Moved h h' run) : dbType h' = dbType h := by
  funext b
  unfold Str.dbType
  rw [hm.datap, hm.heap]

/-- The pointers of one block are set. -/
theorem set (hrw : r ≤ w) : Moved h (h.setM b { h.mblk b with b_rptr := r, b_wptr := w }) [b] := by
  have hall (c : ℕ) : (h.setM b { h.mblk b with b_rptr := r, b_wptr := w }).b_cont c = h.b_cont c ∧
      (h.setM b { h.mblk b with b_rptr := r, b_wptr := w }).b_datap c = h.b_datap c := by
    unfold Heap.b_cont Heap.b_datap
    by_cases hc : c = b
    · rw [hc, setM_self]
      exact ⟨rfl, rfl⟩
    · rw [setM_other hc]
      exact ⟨rfl, rfl⟩
  refine ⟨fun c hc => setM_other (fun heq => hc (mem_singleton.mpr heq)) _,
    funext fun c => (hall c).1, funext fun c => (hall c).2, rfl, fun c hc => ⟨?_, ?_⟩⟩
  · rw [(hall c).2]
    exact hc.datap
  · by_cases heq : c = b
    · rw [heq, setM_self]
      exact hrw
    · rw [setM_other heq]
      exact hc.rptr_le

end Moved

/-! ## From the head -/

section Adj

variable {h h' : Heap} {b mp n k : ℕ} {p : Option ℕ} {len : ℤ} {type : UInt8}
  {xs ys run post rest : List ℕ}

/-- The blocks of a message that have data in them. -/
def filled (h : Heap) (m : List ℕ) : ℕ := m.countP fun b => 0 < bsz h b

theorem xmsgsizeLoop_lead (count : ℤ) (hm : Linked h.b_cont p run) (hs : ∀ b ∈ run, Sound h b)
    (hn : run.length ≤ n) : xmsgsizeLoop h type n p count =
      some (count + total h (run.takeWhile fun b => dbType h b = some type)) := by
  induction run generalizing p n count with
  | nil =>
    rw [show p = none from hm]
    cases n <;> simp [xmsgsizeLoop]
  | cons b run ih =>
    obtain ⟨n, rfl⟩ := Nat.exists_eq_add_of_le' (Nat.lt_of_lt_of_le (Nat.succ_pos _) hn)
    obtain ⟨d, hd⟩ := Option.ne_none_iff_exists'.mp (hs b mem_cons_self).datap
    have ht : dbType h b = some (h.dblk d).db_type := by
      unfold dbType
      rw [hd]
      rfl
    rw [hm.1]
    unfold xmsgsizeLoop
    rw [takeWhile_cons]
    simp only [ht, Option.some.injEq, decide_eq_true_eq]
    by_cases heq : (h.dblk d).db_type = type
    · rw [if_pos heq, if_pos heq, ih (count + bsz h b) hm.2
        (fun c hc => hs c (mem_cons_of_mem b hc)) (Nat.le_of_succ_le_succ hn), total_cons,
        Int.add_assoc]
    · rw [if_neg heq, if_neg heq]
      simp

/-- `xmsgsize` is the number of bytes in the blocks of the type of the first. -/
theorem xmsgsize_lead (hm : Linked h.b_cont (some mp) (mp :: rest))
    (hs : ∀ b ∈ mp :: rest, Sound h b) (hn : rest.length + 1 ≤ n) :
    xmsgsize n h mp = some (total h (lead h mp (mp :: rest))) := by
  obtain ⟨d, hd⟩ := Option.ne_none_iff_exists'.mp (hs mp mem_cons_self).datap
  unfold xmsgsize lead dbType
  simp only [hd, Option.map_some]
  rw [xmsgsizeLoop_lead 0 hm hs hn, Int.zero_add]
  rfl

/-- The smallest `int` is its own negative. -/
theorem neg_toInt {l : Int32} (hl : l ≠ Int32.minValue) : (-l).toInt = -l.toInt := by
  have h1 := l.le_toInt
  have h2 := l.toInt_lt
  have h3 : l.toInt ≠ -2 ^ 31 := by
    rw [← Int32.toInt_minValue]
    exact fun heq => hl (Int32.toInt_inj.mp heq)
  rw [Int32.toInt_neg]
  apply Int.bmod_eq_of_le <;> omega

end Adj

end Svr3.Str
