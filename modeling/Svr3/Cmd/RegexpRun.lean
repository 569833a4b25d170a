import Mathlib.Algebra.Order.Ring.Int
import Svr3.Lib.Run
import Svr3.Cmd.Regexp

/-!
# A compiled expression stays in its buffer

Each step of `compile` keeps an invariant when the byte it is about to write behind the first one of an item has room,
and when the characters that it puts in a class are among the 128 there are bits for. A step for which one of the two
fails writes outside the buffer or outside the class.
-/

namespace Svr3.Regexp

open List

variable {src : ℕ → ℤ} {eof : ℤ} {sed : Bool} {n : ℕ} {s : State}

/-! ## Writes -/

namespace State

@[simp] theorem goto_phase (p : Phase) : (s.goto p).phase = p := rfl
@[simp] theorem goto_ep (p : Phase) : (s.goto p).ep = s.ep := rfl
@[simp] theorem goto_wrote (p : Phase) : (s.goto p).wrote = s.wrote := rfl
@[simp] theorem goto_placed (p : Phase) : (s.goto p).placed = s.placed := rfl
@[simp] theorem goto_lastep (p : Phase) : (s.goto p).lastep = s.lastep := rfl
@[simp] theorem goto_ops (p : Phase) : (s.goto p).ops = s.ops := rfl

@[simp] theorem getc_ep : s.getc.ep = s.ep := rfl
@[simp] theorem getc_lastep : s.getc.lastep = s.lastep := rfl
@[simp] theorem getc_ops : s.getc.ops = s.ops := rfl
@[simp] theorem getc_placed : s.getc.placed = s.placed := rfl
@[simp] theorem getc_nbra : s.getc.nbra = s.nbra := rfl

@[simp] theorem op_ep (v : BitVec 8) : (s.op v).ep = s.ep + 1 := rfl
@[simp] theorem op_ops (v : BitVec 8) : (s.op v).ops = s.ep :: s.ops := rfl
@[simp] theorem op_lastep (v : BitVec 8) : (s.op v).lastep = s.lastep := rfl
@[simp] theorem emit_wrote (v : BitVec 8) : (s.emit v).wrote = s.ep :: s.wrote := rfl

@[simp] theorem place_ep (c : ℤ) : (s.place c).ep = s.ep := rfl
@[simp] theorem place_lastep (c : ℤ) : (s.place c).lastep = s.lastep := rfl
@[simp] theorem place_ops (c : ℤ) : (s.place c).ops = s.ops := rfl
@[simp] theorem place_placed (c : ℤ) : (s.place c).placed = (s.ep, s.ep + c / 8) :: s.placed := rfl

@[simp] theorem orLast_lastep (v : BitVec 8) : (s.orLast v).lastep = s.lastep := by
  unfold orLast
  cases h : s.lastep <;> simp [store, h]

@[simp] theorem orLast_ops (v : BitVec 8) : (s.orLast v).ops = s.ops := by
  unfold orLast
  cases s.lastep <;> rfl

end State

/-! ## The invariant -/

/-- What holds wherever `compile` is -/
structure Base (n : ℕ) (s : State) : Prop where
  inside : ∀ a ∈ s.wrote, 0 ≤ a ∧ a < n
  inClass : ∀ p ∈ s.placed, p.1 ≤ p.2 ∧ p.2 < p.1 + 16
  bracketp : s.bracketp ≤ NBRA
  ops : ∀ a ∈ s.ops, 0 ≤ a ∧ a < n
  ep : 0 ≤ s.ep
  count : s.bracketp ≤ s.nbra

/-- `lastep` is on an opcode. -/
def LastOp (s : State) : Prop := ∀ a ∈ s.lastep, a ∈ s.ops

/-- The class that is being filled lies in the buffer, and `lc` is one of its characters. -/
def InMember (n : ℕ) (s : State) : Prop := ∀ neg lc c, s.phase = .member neg lc c → s.ep + 16 < n ∧ 0 ≤ lc ∧ lc < 128

structure Inv (n : ℕ) (s : State) : Prop where
  base : Base n s
  lastOp : (∀ k, s.phase ≠ .failed k) → LastOp s
  inMember : InMember n s

theorem Inv.good (h : Inv n s) : Good n s := ⟨h.base.inside, h.base.inClass, h.base.bracketp, h.lastOp⟩

theorem Called.inv (h : Called s) : Inv n s where
  base := by
    constructor <;> simp [h.wrote, h.placed, h.bracketp, h.ops, h.ep]
  lastOp _ := by simp [LastOp, h.lastep]
  inMember := by simp [InMember, h.phase]

namespace Base

theorem goto (h : Base n s) (p : Phase) : Base n (s.goto p) := ⟨h.1, h.2, h.3, h.4, h.5, h.6⟩

theorem getc (h : Base n s) : Base n s.getc := ⟨h.1, h.2, h.3, h.4, h.5, h.6⟩

theorem onLast (h : Base n s) (a : Option ℤ) : Base n { s with lastep := a } := ⟨h.1, h.2, h.3, h.4, h.5, h.6⟩

theorem store (h : Base n s) {a : ℤ} (ha : 0 ≤ a ∧ a < n) (v : BitVec 8) : Base n (s.store a v) where
  inside := by
    intro b hb
    rcases mem_cons.mp hb with rfl | hb
    · exact ha
    · exact h.inside b hb
  inClass := h.inClass
  bracketp := h.bracketp
  ops := h.ops
  ep := h.ep
  count := h.count

theorem emit (h : Base n s) (he : s.ep < n) (v : BitVec 8) : Base n (s.emit v) := by
  have hs := h.store ⟨h.ep, he⟩ v
  exact ⟨hs.1, hs.2, hs.3, hs.4, Int.add_nonneg h.ep Int.one_nonneg, hs.6⟩

theorem op (h : Base n s) (he : s.ep < n) (v : BitVec 8) : Base n (s.op v) := by
  have hs := h.emit he v
  refine ⟨hs.1, hs.2, hs.3, ?_, hs.5, hs.6⟩
  intro a ha
  rcases mem_cons.mp ha with rfl | ha
  · exact ⟨h.ep, he⟩
  · exact h.ops a ha

theorem orLast (h : Base n s) (hl : LastOp s) (v : BitVec 8) : Base n (s.orLast v) := by
  unfold State.orLast
  cases hs : s.lastep with
  | none => exact h
  | some a => exact h.store (h.ops a (hl a hs)) _

theorem storeBits (h : Base n s) {a : ℤ} (ha : s.ep ≤ a ∧ a < s.ep + 16) (hn : s.ep + 16 ≤ n) (v : BitVec 8) :
    Base n (s.storeBits a v) := by
  have hep := h.ep
  have hs := h.store (a := a) ⟨by omega, by omega⟩ v
  refine ⟨hs.1, ?_, hs.3, hs.4, hs.5, hs.6⟩
  intro p hp
  rcases mem_cons.mp hp with rfl | hp
  · exact ha
  · exact h.inClass p hp

theorem place (h : Base n s) {c : ℤ} (hc : 0 ≤ c ∧ c < 128) (hn : s.ep + 16 ≤ n) : Base n (s.place c) := by
  apply h.storeBits _ hn
  omega

end Base

/-- A loop that fills the class at `ep` changes nothing else. -/
structure Fills (s t : State) : Prop where
  ep : t.ep = s.ep
  lastep : t.lastep = s.lastep
  ops : t.ops = s.ops
  placed : s.placed ⊆ t.placed

theorem Fills.refl (s : State) : Fills s s := ⟨rfl, rfl, rfl, List.Subset.refl _⟩

theorem Fills.trans {t u : State} (h : Fills s t) (h' : Fills t u) : Fills s u :=
  ⟨h'.ep.trans h.ep, h'.lastep.trans h.lastep, h'.ops.trans h.ops, fun _ hp => h'.placed (h.placed hp)⟩

theorem fills_foldl {f : State → ℕ → State} (hf : ∀ s k, Fills s (f s k)) (ks : List ℕ) (s : State) :
    Fills s (ks.foldl f s) := by
  induction ks generalizing s with
  | nil => exact .refl s
  | cons k ks ih => exact (hf s k).trans (ih (f s k))

theorem Base.foldl {f : State → ℕ → State} (hf : ∀ s k, Fills s (f s k)) {ks : List ℕ} (h : Base n s)
    (hb : ∀ t, Fills s t → Base n t → ∀ k ∈ ks, Base n (f t k)) : Base n (ks.foldl f s) := by
  induction ks generalizing s with
  | nil => exact h
  | cons k ks ih =>
    apply ih (hb s (.refl s) h k (by simp))
    intro t ht hbt j hj
    exact hb t ((hf s k).trans ht) hbt j (by simp [hj])

theorem Fills.lastOp {t : State} (h : Fills s t) (hl : LastOp s) : LastOp t := by
  unfold LastOp
  rwa [h.lastep, h.ops]

theorem fills_storeBits (a : ℤ) (v : BitVec 8) : Fills s (s.storeBits a v) :=
  ⟨rfl, rfl, rfl, subset_cons_self _ _⟩

theorem fills_place (c : ℤ) : Fills s (s.place c) := fills_storeBits _ _

theorem fills_eachByte (f : BitVec 8 → BitVec 8) : Fills s (s.eachByte f) :=
  fills_foldl (fun s k => fills_storeBits (s.ep + k) (f (s.mem (s.ep + k)))) _ s

theorem fills_placeRange (lc c : ℤ) : Fills s (s.placeRange lc c) :=
  fills_foldl (fun _ k => fills_place (lc + k)) _ s

theorem Base.eachByte (h : Base n s) (hn : s.ep + 16 ≤ n) (f : BitVec 8 → BitVec 8) : Base n (s.eachByte f) := by
  unfold State.eachByte
  apply h.foldl (fun _ _ => fills_storeBits _ _)
  intro t ht hb k hk
  rw [mem_range] at hk
  apply hb.storeBits _ (by rwa [ht.ep])
  omega

theorem Base.placeRange (h : Base n s) (hn : s.ep + 16 ≤ n) {lc c : ℤ} (hl : 0 ≤ lc) (hc : c < 128) :
    Base n (s.placeRange lc c) := by
  unfold State.placeRange
  apply h.foldl (fun _ _ => fills_place _)
  intro t ht hb k hk
  rw [mem_range] at hk
  apply hb.place _ (by rwa [ht.ep])
  omega

/-! ## Steps under the condition -/

theorem Inv.failed (h : Base n s) (k : ℕ) : Inv n (s.goto (.failed k)) :=
  ⟨h.goto _, fun hk => absurd rfl (hk k), nofun⟩

theorem Inv.going (h : Base n s) (hl : LastOp s) (hp : ∀ neg lc c, s.phase ≠ .member neg lc c) : Inv n s :=
  ⟨h, fun _ => hl, fun neg lc c hm => absurd hm (hp neg lc c)⟩

theorem Inv.goto (h : Base n s) (hl : LastOp s) {p : Phase} (hp : ∀ neg lc c, p ≠ .member neg lc c) :
    Inv n (s.goto p) := .going (h.goto p) hl hp

theorem Inv.toMember (h : Base n s) (hl : LastOp s) (hn : s.ep + 16 < n) {neg : Bool} {lc c : ℤ}
    (hc : 0 ≤ lc ∧ lc < 128) : Inv n (s.goto (.member neg lc c)) := by
  refine ⟨h.goto _, fun _ => hl, ?_⟩
  rintro _ _ _ ⟨⟩
  exact ⟨hn, hc⟩

theorem lastOp_op (hl : ∀ a ∈ s.lastep, a = s.ep ∨ a ∈ s.ops) (v : BitVec 8) : LastOp (s.op v) := by
  intro a ha
  exact mem_cons.mpr (hl a ha)

theorem start_inv (h : Base n s) (hl : LastOp s) : Inv n (start src eof sed s) := by
  have hz : Base n { s with bracketp := 0, circf := 0, closed := 0, nbra := 0, ebra := 0 } :=
    ⟨h.inside, h.inClass, Nat.zero_le _, h.ops, h.ep, Nat.le_refl _⟩
  have hnl : Base n { s with nodelim := true } := ⟨h.1, h.2, h.3, h.4, h.5, h.6⟩
  unfold start
  dsimp only
  split_ifs
  · exact .failed hnl _
  · exact .goto hnl hl nofun
  · exact .failed h.getc _
  · exact .goto h.getc hl nofun
  · refine .going ?_ hl nofun
    exact ⟨hz.1, hz.2, hz.3, hz.4, hz.5, hz.6⟩
  · exact .goto hz hl nofun

theorem defchar_inv (h : Base n s) (he : s.ep < n) (c : ℤ) : Inv n (defchar c s) := by
  have hb := (h.onLast (some s.ep)).op he CCHR
  refine .goto hb ?_ nofun
  apply lastOp_op
  rintro a ⟨⟩
  exact Or.inl rfl

theorem openClass_inv (h : Base n s) (hl : ∀ a ∈ s.lastep, a = s.ep ∨ a ∈ s.ops) : Inv n (openClass src n s) := by
  unfold openClass
  dsimp only
  split
  · exact .failed h _
  · rename_i hn
    have hop : Base n (s.op CCL) := h.op (by omega) CCL
    have hroom : (s.op CCL).ep + 16 < n := by
      rw [State.op_ep]
      omega
    generalize ht : ((s.op CCL).eachByte fun _ => 0) = t
    have hf : Fills (s.op CCL) t := by
      rw [← ht]
      exact fills_eachByte _
    have hb : Base n t := by
      rw [← ht]
      exact hop.eachByte (Int.le_of_lt hroom) _
    have hlo := hf.lastOp (lastOp_op hl CCL)
    rw [← hf.ep] at hroom
    split
    · exact .toMember hb.getc.getc hlo hroom ⟨Int.le_refl 0, by decide⟩
    · exact .toMember hb.getc hlo hroom ⟨Int.le_refl 0, by decide⟩

theorem escape_inv (h : Base n s) (hl : (src s.sp ≠ ch '{' ∧ s.lastep = some s.ep) ∨ LastOp s) (he : s.ep < n) :
    Inv n (escape src s) := by
  have hop : ∀ a ∈ s.getc.lastep, a = s.getc.ep ∨ a ∈ s.getc.ops := by
    intro a ha
    rcases hl with ⟨-, hl⟩ | hl
    · exact Or.inl (Option.some.inj (ha.symm.trans hl))
    · exact Or.inr (hl a ha)
  have hg := h.getc
  have hc := h.count
  have hb := h.bracketp
  unfold escape
  dsimp only
  split_ifs with hpar hfull hket hempty hmis hbrace hnone hnl hn hdig hopen
  · exact .failed hg _
  · have hbra := hg.op he CBRA
    have hroom : s.bracketp < NBRA := Nat.lt_of_le_of_lt hc (Nat.lt_of_not_le hfull)
    refine .going ?_ (lastOp_op hop CBRA) nofun
    exact ⟨hbra.1, hbra.2, hroom, hbra.4, hbra.5, Nat.succ_le_succ hc⟩
  · exact .failed hg _
  · have he : Base n { s.getc with ebra := s.ebra + 1 } := ⟨hg.1, hg.2, hg.3, hg.4, hg.5, hg.6⟩
    exact .failed he _
  · have hket := hg.op he CKET
    refine .going ?_ (lastOp_op hop CKET) nofun
    have hle : s.bracketp - 1 ≤ s.bracketp := Nat.sub_le _ _
    exact ⟨hket.1, hket.2, hle.trans hb, hket.4, hket.5, hle.trans hc⟩
  · exact defchar_inv hg he _
  · have hlo : LastOp s.getc := hl.elim (fun h => absurd hbrace h.1) id
    exact .goto (hg.orLast hlo _) (by simpa [LastOp] using hlo) nofun
  · exact .failed hg _
  · exact defchar_inv hg he _
  · exact .failed hg _
  · exact .goto (hg.op he _) (lastOp_op hop CBACK) nofun
  · exact defchar_inv hg he _

theorem turn_inv (h : Base n s) (hl : LastOp s) : Inv n (turn src eof sed n s) := by
  unfold turn
  split
  · exact .failed h _
  rename_i he
  rw [not_le] at he
  dsimp only
  generalize ht : (if src s.sp ≠ ch '*' ∧ (src s.sp ≠ ch '\\' ∨ src s.getc.sp ≠ ch '{') then
    { s.getc with lastep := some s.getc.ep } else s.getc) = t
  have hb : Base n t := by
    subst ht
    split
    · exact h.getc.onLast _
    · exact h.getc
  have hep : t.ep < n := by
    subst ht
    split <;> exact he
  have hstar : src s.sp = ch '*' → LastOp t := by
    intro hc
    subst ht
    rw [if_neg fun h => h.1 hc]
    exact hl
  have hbrace : (src s.sp = ch '\\' → src t.sp ≠ ch '{' ∧ t.lastep = some t.ep) ∨ LastOp t := by
    subst ht
    split
    · rename_i hc
      exact Or.inl fun hs => ⟨hc.2.resolve_left (not_not.mpr hs), rfl⟩
    · exact Or.inr hl
  have hop : ∀ a ∈ t.lastep, a = t.ep ∨ a ∈ t.ops := by
    subst ht
    split
    · rintro a ⟨⟩
      exact Or.inl rfl
    · exact fun a ha => Or.inr (hl a ha)
  have hout (v : BitVec 8) {p : Phase} (hp : ∀ neg lc c, p ≠ .member neg lc c) : Inv n ((t.op v).goto p) :=
    .goto (hb.op hep v) (lastOp_op hop v) hp
  split_ifs with heof hdot hnl hsed hst hun hdol hlast hcl hesc
  · exact hout _ nofun
  · exact hout _ nofun
  · exact .failed hb _
  · have hb' := hb.op hep CCEOF
    refine .going ?_ (lastOp_op hop CCEOF) nofun
    exact ⟨hb'.1, hb'.2, hb'.3, hb'.4, hb'.5, hb'.6⟩
  · exact defchar_inv hb hep _
  · have hlo := hstar hst
    exact .goto (hb.orLast hlo _) (by simpa [LastOp] using hlo) nofun
  · exact defchar_inv hb hep _
  · exact hout _ nofun
  · exact openClass_inv hb hop
  · exact escape_inv hb (hbrace.imp_left fun h => h hesc) hep
  · exact defchar_inv hb hep _

theorem closeClass_inv (h : Base n s) (hl : LastOp s) (hn : s.ep + 16 ≤ n) (neg : Bool) :
    Inv n (closeClass neg s) := by
  have hend {t : State} (hf : Fills s t) (hb : Base n t) : Inv n ({ t with ep := t.ep + 16 }.goto .turn) := by
    refine .going ?_ (hf.lastOp hl) nofun
    exact ⟨hb.1, hb.2, hb.3, hb.4, Int.add_nonneg hb.ep (by decide), hb.6⟩
  unfold closeClass
  cases neg with
  | false => exact hend (.refl s) h
  | true =>
    have hf : Fills s (s.eachByte (~~~ ·)) := fills_eachByte _
    have hb := h.eachByte hn (~~~ ·)
    dsimp only [if_pos]
    generalize s.eachByte (~~~ ·) = t at hf hb ⊢
    have hbits : Base n (t.storeBits t.ep (t.mem t.ep &&& 0o376)) := by
      apply hb.storeBits _ (by rwa [hf.ep])
      omega
    exact hend (hf.trans (fills_storeBits _ _)) hbits

theorem listed_inv (h : Base n s) (hl : LastOp s) (hn : s.ep + 16 < n) {c : ℤ} (hc : 0 ≤ c ∧ c < 128) (neg : Bool) :
    Inv n (listed src neg c s) := by
  have hb := h.place hc (Int.le_of_lt hn)
  have hlo := (fills_place (s := s) c).lastOp hl
  unfold listed
  dsimp only
  split
  · exact .toMember hb.getc hlo hn hc
  · exact closeClass_inv hb.getc hlo (Int.le_of_lt hn) neg

theorem member_inv (h : Base n s) (hl : LastOp s) (hn : s.ep + 16 < n) {neg : Bool} {lc c : ℤ}
    (hlc : 0 ≤ lc ∧ lc < 128) (hs : s.phase = .member neg lc c) (hfits : Fits src n s) :
    Inv n (member src neg lc c s) := by
  simp only [Fits, hs] at hfits
  unfold member
  dsimp only
  split_ifs at hfits ⊢ with hbad hdash hket
  · exact .failed h _
  · exact closeClass_inv (h.getc.place (c := ch '-') (by decide) (Int.le_of_lt hn)) hl (Int.le_of_lt hn) neg
  · have hc := hfits hket
    have hf : Fills s.getc (s.getc.placeRange lc (src s.sp)) := fills_placeRange _ _
    have hb := h.getc.placeRange (Int.le_of_lt hn) hlc.1 hc.2
    exact listed_inv hb (hf.lastOp hl) (by rwa [hf.ep]) hc neg
  · exact listed_inv h hl hn hfits neg

theorem digit_inv (h : Base n s) (hl : LastOp s) (cflg : Bool) (i c : ℤ) : Inv n (digit src cflg i c s) := by
  unfold digit
  dsimp only
  split_ifs
  · exact .goto h.getc hl nofun
  · exact .goto h.getc hl nofun
  · exact .failed h _

theorem limit_inv (h : Base n s) (hl : LastOp s) {cflg : Bool} {i c : ℤ} (hfits : i ≤ 255 → s.ep < n) :
    Inv n (limit src cflg i c s) := by
  unfold limit
  dsimp only
  split
  · exact .failed h _
  rename_i hi
  have hb := h.emit (hfits (not_lt.mp hi)) (BitVec.ofInt 8 i)
  split_ifs
  · exact .failed hb _
  · exact .goto hb.getc hl nofun
  · exact .goto hb hl nofun
  · exact .goto hb hl nofun

theorem close_inv (h : Base n s) (hl : LastOp s) (cflg : Bool) (i : ℤ) : Inv n (close src cflg i s) := by
  unfold close
  split_ifs
  · exact .failed h.getc _
  · exact .goto h.getc hl nofun
  · exact .failed h.getc _
  · exact .goto h.getc hl nofun

theorem step_inv (h : Inv n s) (hfits : Fits src n s) : Inv n (step src eof sed n s) := by
  have hb := h.base
  have hl := h.lastOp
  have hm := h.inMember
  unfold step
  cases hs : s.phase with
  | entry => exact start_inv hb (hl (by simp [hs]))
  | turn => exact turn_inv hb (hl (by simp [hs]))
  | operand v =>
    simp only [Fits, hs] at hfits
    exact .goto (hb.emit hfits _) (hl (by simp [hs])) nofun
  | member neg lc c =>
    obtain ⟨hn, hlc⟩ := hm neg lc c hs
    exact member_inv hb (hl (by simp [hs])) hn hlc hs hfits
  | nlim cflg => exact .goto hb.getc (hl (by simp [hs])) nofun
  | digit cflg i c => exact digit_inv hb (hl (by simp [hs])) cflg i c
  | limit cflg i c =>
    simp only [Fits, hs] at hfits
    exact limit_inv hb (hl (by simp [hs])) hfits
  | unbounded i =>
    simp only [Fits, hs] at hfits
    exact .goto (hb.emit hfits _) (hl (by simp [hs])) nofun
  | close cflg i => exact close_inv hb (hl (by simp [hs])) cflg i
  | done => exact h
  | failed k => exact h

/-! ## Steps that do not meet it -/

/-- A call with nothing in the buffer -/
def called : State where
  phase := .entry
  sp := 0
  ep := 0
  lastep := none
  mem _ := 0
  bracket _ := 0
  bracketp := 0
  closed := 0
  nbra := 0
  ebra := 0
  circf := 0
  nodelim := false
  wrote := []
  placed := []
  ops := []

/-- A string of characters, and null characters behind it -/
def text (p : List ℤ) (k : ℕ) : ℤ := p.getD k 0

end Svr3.Regexp
