import Svr3.Lib.Run
import Svr3.Io.Stream

/-!
# The turns of the message routines

With more turns a routine of `io/stream.c` does what it does with fewer, if these are enough.
-/

namespace Svr3.Str

theorem freemsg_steady (h : Heap) (p : Option ℕ) : Steady fun n => freemsg n h p := by
  intro n x
  induction n generalizing h p with
  | zero =>
    cases p with
    | none => exact id
    | some bp => exact nofun
  | succ n ih =>
    cases p with
    | none => exact id
    | some bp =>
      show freemsg (n + 1) h (some bp) = some x → freemsg (n + 2) h (some bp) = some x
      unfold freemsg
      cases freeb h bp with
      | none => exact id
      | some h => exact ih h _

theorem dupLoop_steady (h : Heap) (head nbp bp : ℕ) : Steady fun n => dupLoop n h head nbp bp := by
  intro n x
  induction n generalizing h nbp bp with
  | zero => exact nofun
  | succ n ih =>
    show dupLoop (n + 1) h head nbp bp = some x → dupLoop (n + 2) h head nbp bp = some x
    unfold dupLoop
    cases h.b_cont bp with
    | none => exact id
    | some c =>
      simp only
      cases dupb h c with
      | none => exact id
      | some r =>
        obtain ⟨p, h⟩ := r
        simp only
        cases p with
        | some p => exact ih _ _ _
        | none =>
          -- the blocks that were duplicated are freed
          simp only [Option.map_eq_some_iff]
          rintro ⟨y, hy, hx⟩
          exact ⟨y, freemsg_steady _ _ n y hy, hx⟩

theorem dupmsg_steady (h : Heap) (p : Option ℕ) : Steady fun n => dupmsg n h p := by
  intro n x
  show dupmsg n h p = some x → dupmsg (n + 1) h p = some x
  unfold dupmsg
  cases p with
  | none => exact id
  | some bp =>
    simp only
    cases dupb h bp with
    | none => exact id
    | some r =>
      obtain ⟨p, h⟩ := r
      cases p with
      | none => exact id
      | some head => exact dupLoop_steady h head head bp n x

theorem linkb_steady (h : Heap) (mp bp : ℕ) : Steady fun n => linkb n h mp bp := by
  intro n x
  induction n generalizing mp with
  | zero => exact nofun
  | succ n ih =>
    show linkb (n + 1) h mp bp = some x → linkb (n + 2) h mp bp = some x
    unfold linkb
    cases h.b_cont mp with
    | none => exact id
    | some c => exact ih c

theorem rmvb_steady (h : Heap) (mp bp : ℕ) : Steady fun n => rmvb n h mp bp := by
  have hloop (lastp tmp : Option ℕ) : Steady fun n => rmvbLoop mp bp n h lastp tmp := by
    intro n x
    induction n generalizing lastp tmp with
    | zero =>
      cases tmp with
      | none => exact id
      | some t => exact nofun
    | succ n ih =>
      cases tmp with
      | none => exact id
      | some t =>
        show rmvbLoop mp bp (n + 1) h lastp (some t) = some x →
          rmvbLoop mp bp (n + 2) h lastp (some t) = some x
        unfold rmvbLoop
        by_cases hbp : t = bp
        · simp only [if_pos hbp]
          exact id
        · simp only [if_neg hbp]
          exact ih _ _
  exact hloop none (some mp)

theorem xmsgsize_steady (h : Heap) (bp : ℕ) : Steady fun n => xmsgsize n h bp := by
  have hloop (type : UInt8) (p : Option ℕ) (count : ℤ) :
      Steady fun n => xmsgsizeLoop h type n p count := by
    intro n x
    induction n generalizing p count with
    | zero =>
      cases p with
      | none => exact id
      | some b => exact nofun
    | succ n ih =>
      cases p with
      | none => exact id
      | some b =>
        show xmsgsizeLoop h type (n + 1) (some b) count = some x →
          xmsgsizeLoop h type (n + 2) (some b) count = some x
        unfold xmsgsizeLoop
        cases dbType h b with
        | none => exact id
        | some t =>
          by_cases ht : t = type
          · simp only [if_pos ht]
            exact ih _ _
          · simp only [if_neg ht]
            exact id
  intro n x
  show xmsgsize n h bp = some x → xmsgsize (n + 1) h bp = some x
  unfold xmsgsize
  cases dbType h bp with
  | none => exact id
  | some type => exact hloop type _ 0 n x

theorem pullLoop_steady (mp new_bp : ℕ) (h : Heap) (p : Option ℕ) (len : ℤ) :
    Steady fun n => pullLoop mp new_bp n h p len := by
  intro n x
  induction n generalizing h p len with
  | zero => exact nofun
  | succ n ih =>
    show pullLoop mp new_bp (n + 1) h p len = some x → pullLoop mp new_bp (n + 2) h p len = some x
    unfold pullLoop
    by_cases hz : len = 0
    · simp only [if_pos hz]
      exact id
    · simp only [if_neg hz]
      cases p with
      | none => exact id
      | some bp =>
        simp only
        split
        · exact id
        · split
          · exact id
          · exact ih _ _ _

theorem pullup_steady (h : Heap) (mp : ℕ) (len : ℤ) : Steady fun n => pullup n h mp len := by
  intro n x
  show pullup n h mp len = some x → pullup (n + 1) h mp len = some x
  unfold pullup
  cases h.mbfreelist with
  | none => exact id
  | some tmp =>
    simp only
    rcases allocb (h.popM tmp) len .BPRI_MED with ⟨p, h⟩
    cases p with
    | none => exact id
    | some new_bp =>
      simp only
      cases h.b_datap mp with
      | none => exact id
      | some d =>
        cases h.b_datap new_bp with
        | none => exact id
        | some nd =>
          simp only
          generalize h.setD nd _ = h
          cases hloop : pullLoop mp new_bp n h (some mp) len with
          | none => exact nofun
          | some r =>
            have hmore : pullLoop mp new_bp (n + 1) h (some mp) len = some r :=
              pullLoop_steady mp new_bp h (some mp) len n r hloop
            rw [hmore]
            exact id

theorem pullupmsg_steady (h : Heap) (mp : ℕ) (len : ℤ) : Steady fun n => pullupmsg n h mp len := by
  intro n x
  show pullupmsg n h mp len = some x → pullupmsg (n + 1) h mp len = some x
  unfold pullupmsg
  split
  · split
    · exact id
    · cases hs : xmsgsize n h mp with
      | none => rintro ⟨⟩
      | some size =>
        have hmore : xmsgsize (n + 1) h mp = some size := xmsgsize_steady h mp n size hs
        rw [hmore]
        exact pullup_steady h mp size n x
  · split
    · exact id
    · cases hs : xmsgsize n h mp with
      | none => rintro ⟨⟩
      | some size =>
        have hmore : xmsgsize (n + 1) h mp = some size := xmsgsize_steady h mp n size hs
        rw [hmore]
        dsimp only
        split
        · exact id
        · exact pullup_steady h mp len n x

end Svr3.Str
