import Mathlib.Data.Nat.Fib.Basic
import Mathlib.Tactic.Linarith

/-!
# Trees of merged items

The two lightest trees of a forest are merged, again and again. No tree is lighter than a Fibonacci number of its
height. When each weight is above the sum of those before the last one, the tree is as high as can be.
-/

namespace Svr3

open List

/-- A tree whose nodes have labels -/
inductive CodeTree where
  | leaf (a : ℕ)
  | node (a : ℕ) (l r : CodeTree)
  deriving DecidableEq

namespace CodeTree

def label : CodeTree → ℕ
  | leaf a => a
  | node a _ _ => a

def labels : CodeTree → List ℕ
  | leaf a => [a]
  | node a l r => a :: (l.labels ++ r.labels)

def height : CodeTree → ℕ
  | leaf _ => 0
  | node _ l r => max l.height r.height + 1

/-- The sum of the weights of the leaves -/
def weight (w : ℕ → ℕ) : CodeTree → ℕ
  | leaf a => w a
  | node _ l r => l.weight w + r.weight w

/-- The leaf `a` is `d` levels below the root. -/
inductive Below : CodeTree → ℕ → ℕ → Prop
  | leaf (a : ℕ) : Below (leaf a) a 0
  | left {a b d : ℕ} {l r : CodeTree} (h : Below l b d) : Below (node a l r) b (d + 1)
  | right {a b d : ℕ} {l r : CodeTree} (h : Below r b d) : Below (node a l r) b (d + 1)

variable {t : CodeTree} {a d : ℕ}

theorem label_mem (t : CodeTree) : t.label ∈ t.labels := by
  cases t with
  | leaf a => exact mem_singleton_self a
  | node a l r => exact mem_cons_self

theorem Below.le_height (h : Below t a d) : d ≤ t.height := by
  induction h with
  | leaf a => exact Nat.le_refl 0
  | left _ ih => exact Nat.succ_le_succ (ih.trans (Nat.le_max_left _ _))
  | right _ ih => exact Nat.succ_le_succ (ih.trans (Nat.le_max_right _ _))

theorem exists_below_height (t : CodeTree) : ∃ a, Below t a t.height := by
  induction t with
  | leaf a => exact ⟨a, .leaf a⟩
  | node a l r ihl ihr =>
    rw [height]
    rcases Nat.le_total l.height r.height with hle | hle
    · obtain ⟨b, hb⟩ := ihr
      rw [Nat.max_eq_right hle]
      exact ⟨b, .right hb⟩
    · obtain ⟨b, hb⟩ := ihl
      rw [Nat.max_eq_left hle]
      exact ⟨b, .left hb⟩

theorem height_lt_labels (t : CodeTree) : t.height < t.labels.length := by
  induction t with
  | leaf a => exact Nat.zero_lt_one
  | node a l r ihl ihr =>
    rw [height, labels, length_cons, length_append]
    omega

/-- Each node is the parent of its children. The leaves have the labels up to `lim`, the other nodes those above. -/
def Linked (lim : ℕ) (parent : ℕ → ℕ) : CodeTree → Prop
  | leaf a => a ≤ lim
  | node a l r =>
    lim < a ∧ (parent l.label = a ∧ parent r.label = a) ∧ l.Linked lim parent ∧ r.Linked lim parent

theorem Linked.congr {lim : ℕ} {parent parent' : ℕ → ℕ} (h : t.Linked lim parent) (hnd : t.labels.Nodup)
    (hsame : ∀ b ∈ t.labels, b ≠ t.label → parent' b = parent b) : t.Linked lim parent' := by
  induction t with
  | leaf a => exact h
  | node a l r ihl ihr =>
    obtain ⟨ha, ⟨hl, hr⟩, hll, hlr⟩ := h
    rw [labels, nodup_cons, nodup_append] at hnd
    obtain ⟨hnot, hndl, hndr, -⟩ := hnd
    have hsub : ∀ b ∈ l.labels ++ r.labels, parent' b = parent b := fun b hb =>
      hsame b (mem_cons_of_mem _ hb) fun (heq : b = a) => hnot (heq ▸ hb)
    refine ⟨ha, ⟨?_, ?_⟩, ihl hll hndl fun b hb _ => ?_, ihr hlr hndr fun b hb _ => ?_⟩
    · rw [hsub _ (mem_append_left _ l.label_mem)]
      exact hl
    · rw [hsub _ (mem_append_right _ r.label_mem)]
      exact hr
    · exact hsub b (mem_append_left _ hb)
    · exact hsub b (mem_append_right _ hb)

theorem Linked.below_le {lim : ℕ} {parent : ℕ → ℕ} (h : t.Linked lim parent) (hb : Below t a d) : a ≤ lim := by
  induction hb with
  | leaf a => exact h
  | left _ ih => exact ih h.2.2.1
  | right _ ih => exact ih h.2.2.2

theorem Linked.exists_below {lim : ℕ} {parent : ℕ → ℕ} (h : t.Linked lim parent) (ha : a ∈ t.labels)
    (hle : a ≤ lim) : ∃ d, Below t a d := by
  induction t with
  | leaf b =>
    rw [labels, mem_singleton] at ha
    rw [ha]
    exact ⟨0, .leaf b⟩
  | node b l r ihl ihr =>
    obtain ⟨hb, -, hll, hlr⟩ := h
    rw [labels, mem_cons, mem_append] at ha
    rcases ha with rfl | ha | ha
    · omega
    · obtain ⟨d, hd⟩ := ihl hll ha
      exact ⟨d + 1, .left hd⟩
    · obtain ⟨d, hd⟩ := ihr hlr ha
      exact ⟨d + 1, .right hd⟩

end CodeTree

open CodeTree

/-! ## The weight of a height -/

section fib

variable {v : ℕ → ℕ} {s s' rest : List CodeTree} {a : ℕ} {l r t : CodeTree}

/-- Neither tree is lighter than the Fibonacci number of the other one's children. -/
def Close (v : ℕ → ℕ) (t u : CodeTree) : Prop :=
  Nat.fib (t.height + 1) ≤ u.weight v ∧ Nat.fib (u.height + 1) ≤ t.weight v

/-- A forest whose trees are all heavy enough for their heights -/
structure Heavy (v : ℕ → ℕ) (s : List CodeTree) : Prop where
  own : ∀ t ∈ s, Nat.fib (t.height + 2) ≤ t.weight v
  other : s.Pairwise (Close v)

theorem Heavy.perm (h : Heavy v s) (hp : s.Perm s') : Heavy v s' :=
  ⟨fun t ht => h.own t (hp.mem_iff.mpr ht), (hp.pairwise_iff fun hc => And.symm hc).mp h.other⟩

theorem Heavy.leaves {as : List ℕ} (h : ∀ a ∈ as, 1 ≤ v a) : Heavy v (as.map leaf) := by
  refine ⟨fun t ht => ?_, pairwise_map.mpr (pairwise_of_forall_mem_list fun a ha b hb => ?_)⟩
  · obtain ⟨a, ha, rfl⟩ := mem_map.mp ht
    exact h a ha
  · exact ⟨h b hb, h a ha⟩

/-- The two lightest trees are merged. -/
theorem Heavy.merge (h : Heavy v (l :: r :: rest))
    (hmin : ∀ u ∈ rest, l.weight v ≤ u.weight v ∧ r.weight v ≤ u.weight v) : Heavy v (node a l r :: rest) := by
  obtain ⟨hl, hother⟩ := pairwise_cons.mp h.other
  obtain ⟨hr, hrest⟩ := pairwise_cons.mp hother
  have hclose := hl r mem_cons_self
  have hown := h.own l mem_cons_self
  have hown' := h.own r (mem_cons_of_mem _ mem_cons_self)
  refine ⟨fun t ht => ?_, pairwise_cons.mpr ⟨fun u hu => ?_, hrest⟩⟩
  · rcases mem_cons.mp ht with rfl | ht
    · rw [height, weight]
      rcases Nat.le_total l.height r.height with hle | hle
      · have hfib : Nat.fib (r.height + 3) = Nat.fib (r.height + 1) + Nat.fib (r.height + 2) := Nat.fib_add_two
        rw [Nat.max_eq_right hle, hfib]
        exact Nat.add_le_add hclose.2 hown'
      · have hfib : Nat.fib (l.height + 3) = Nat.fib (l.height + 1) + Nat.fib (l.height + 2) := Nat.fib_add_two
        rw [Nat.max_eq_left hle, hfib, Nat.add_comm (l.weight v)]
        exact Nat.add_le_add hclose.1 hown
    · exact h.own t (mem_cons_of_mem _ (mem_cons_of_mem _ ht))
  · obtain ⟨hlu, hru⟩ := hmin u hu
    have hul := (hl u (mem_cons_of_mem _ hu)).2
    refine ⟨?_, ?_⟩
    · rw [height]
      rcases Nat.le_total l.height r.height with hle | hle
      · rw [Nat.max_eq_right hle]
        exact hown'.trans hru
      · rw [Nat.max_eq_left hle]
        exact hown.trans hlu
    · rw [weight]
      exact hul.trans (Nat.le_add_right _ _)

end fib

/-! ## The highest tree -/

section comb

variable {w : ℕ → ℕ} {rest : List CodeTree} {a sum height x : ℕ} {ys : List ℕ} {l r : CodeTree}

/-- The weights and heights of a forest -/
def shapes (w : ℕ → ℕ) (s : List CodeTree) : Multiset (ℕ × ℕ) := s.map fun t => (t.weight w, t.height)

/-- Leaves of the given weights -/
def leafShapes (ys : List ℕ) : Multiset (ℕ × ℕ) := ys.map fun y => (y, 0)

@[simp] theorem shapes_cons (w : ℕ → ℕ) (t : CodeTree) (s : List CodeTree) :
    shapes w (t :: s) = (t.weight w, t.height) ::ₘ shapes w s := rfl

theorem mem_leafShapes {q : ℕ × ℕ} : q ∈ leafShapes ys ↔ q.1 ∈ ys ∧ q.2 = 0 := by
  rw [leafShapes, Multiset.mem_coe, mem_map]
  constructor
  · rintro ⟨y, hy, rfl⟩
    exact ⟨hy, rfl⟩
  · rintro ⟨hy, hzero⟩
    exact ⟨q.1, hy, Prod.ext rfl hzero.symm⟩

theorem mem_shapes {q : ℕ × ℕ} {s : List CodeTree} :
    q ∈ shapes w s ↔ ∃ t ∈ s, t.weight w = q.1 ∧ t.height = q.2 := by
  rw [shapes, Multiset.mem_coe, mem_map]
  simp only [Prod.ext_iff]

/-- Every weight is above the sum of those before the last one. -/
def Steep : ℕ → List ℕ → Prop
  | _, [] => True
  | sum, x :: ys => (∀ y ∈ ys, sum < y ∧ x ≤ y) ∧ Steep (sum + x) ys

/-- The tree that all weights so far are in is merged with the leaf of the next one. -/
theorem shapes_merge (hs : shapes w (l :: r :: rest) = (sum, height) ::ₘ (x, 0) ::ₘ leafShapes ys)
    (hsteep : ∀ y ∈ ys, sum < y ∧ x ≤ y) (hl : ∀ u ∈ r :: rest, l.weight w ≤ u.weight w)
    (hr : ∀ u ∈ rest, r.weight w ≤ u.weight w) :
    shapes w (node a l r :: rest) = (sum + x, height + 1) ::ₘ leafShapes ys := by
  rw [shapes_cons, shapes_cons] at hs
  rw [shapes_cons, weight, CodeTree.height]
  rcases Multiset.cons_eq_cons.mp hs with ⟨hfirst, hrest⟩ | ⟨-, bs, hrest, hxs⟩
  · -- the tree is the lightest one
    have hsecond : (r.weight w, r.height) = (x, 0) ∧ shapes w rest = leafShapes ys := by
      rcases Multiset.cons_eq_cons.mp hrest with h | ⟨-, bs, hbs, hys⟩
      · exact h
      · obtain ⟨u, hu, hux, -⟩ := mem_shapes.mp (hbs ▸ Multiset.mem_cons_self (x, 0) bs)
        have hmem : (r.weight w, r.height) ∈ leafShapes ys := hys ▸ Multiset.mem_cons_self _ _
        obtain ⟨hry, hheight⟩ := mem_leafShapes.mp hmem
        have hle := hr u hu
        have hge := (hsteep _ hry).2
        dsimp only at hux hry hheight hge
        have hsame : (r.weight w, r.height) = (x, 0) := Prod.ext (by omega) hheight
        rw [hsame] at hrest
        exact ⟨hsame, (Multiset.cons_inj_right _).mp hrest⟩
    obtain ⟨hsum, hheight⟩ := Prod.mk.inj hfirst
    obtain ⟨hx, hzero⟩ := Prod.mk.inj hsecond.1
    rw [hsecond.2, hsum, hheight, hx, hzero, Nat.max_eq_left (Nat.zero_le _)]
  · -- the leaf is the lightest one
    have hmem : (sum, height) ∈ shapes w (r :: rest) := by
      rw [shapes_cons, hrest]
      exact Multiset.mem_cons_self _ _
    obtain ⟨u, hu, husum, -⟩ := mem_shapes.mp hmem
    have hle := hl u hu
    have hfirst : (l.weight w, l.height) = (x, 0) := by
      rcases Multiset.mem_cons.mp (hxs ▸ Multiset.mem_cons_self (l.weight w, l.height) bs) with h | h
      · exact h
      · have hlt := (hsteep _ (mem_leafShapes.mp h).1).1
        dsimp only at hlt
        omega
    rw [hfirst] at hxs
    rw [← (Multiset.cons_inj_right _).mp hxs] at hrest
    have hsecond : (r.weight w, r.height) = (sum, height) ∧ shapes w rest = leafShapes ys := by
      rcases Multiset.cons_eq_cons.mp hrest with h | ⟨-, cs, hcs, hys⟩
      · exact h
      · obtain ⟨u', hu', husum', -⟩ := mem_shapes.mp (hcs ▸ Multiset.mem_cons_self (sum, height) cs)
        have hmem : (r.weight w, r.height) ∈ leafShapes ys := hys ▸ Multiset.mem_cons_self _ _
        have hlt := (hsteep _ (mem_leafShapes.mp hmem).1).1
        have hle' := hr u' hu'
        dsimp only at hlt husum'
        omega
    obtain ⟨hsum, hheight⟩ := Prod.mk.inj hsecond.1
    obtain ⟨hx, hzero⟩ := Prod.mk.inj hfirst
    rw [hsecond.2, hsum, hheight, hx, hzero, Nat.max_eq_right (Nat.zero_le _), Nat.add_comm x]

end comb

end Svr3
