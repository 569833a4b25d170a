import Svr3.Lib.Run
import Svr3.Lib.Sorted

/-!
# Search trees of `libc/port/gen/tsearch.c`

Nodes are trees of their own; a node keeps the address that `malloc` gave it. What `malloc` answers is an
input of `tsearch`.
-/

namespace Svr3.Tsearch

open List

variable {K : Type*}

/-- A `NODE` at its address, with its key, its left and its right link -/
inductive Node (K : Type*)
  | null
  | node (q : ℕ) (key : K) (llink rlink : Node K)

/-- `tsearch`, with the tree afterwards; `q` is the answer of `malloc`. -/
def tsearch (compar : K → K → ℤ) (key : K) (q : Option ℕ) : Node K → Node K × Option ℕ
  | .null =>
    match q with
    | none => (.null, none)
    | some q => (.node q key .null .null, some q)
  | .node a k l r =>
    if compar key k = 0 then (.node a k l r, some a)
    else if compar key k < 0 then
      let t := tsearch compar key q l
      (.node a k t.1 r, t.2)
    else
      let t := tsearch compar key q r
      (.node a k l t.1, t.2)

/-- The leftmost node `q`, with what its father `r` has in its place: `r->llink = q->rlink` -/
def splice : Node K → Option ((ℕ × K) × Node K)
  | .null => none
  | .node a k .null r => some ((a, k), r)
  | .node a k (.node b j l s) r =>
    (splice (.node b j l s)).map fun x => (x.1, .node a k x.2 r)

/-- What comes to the place of a node with the links `l` and `r` -/
def successor : Node K → Node K → Node K
  | .null, r => r
  | .node a k l s, .null => .node a k l s
  | .node a k l s, .node b j .null r => .node b j (.node a k l s) r
  | .node a k l s, .node b j (.node c i x y) r =>
    match splice (.node c i x y) with
    | none => .null
    | some (q, t) => .node q.1 q.2 (.node a k l s) (.node b j t r)

/-- The loop of `tdelete` at the link whose node has the father `p`, with the tree afterwards -/
def deleteLoop (compar : K → K → ℤ) (key : K) : ℕ → Node K → Node K × Option ℕ
  | _, .null => (.null, none)
  | p, .node a k l r =>
    if compar key k = 0 then (successor l r, some p)
    else if compar key k < 0 then
      let t := deleteLoop compar key a l
      (.node a k t.1 r, t.2)
    else
      let t := deleteLoop compar key a r
      (.node a k l t.1, t.2)

def tdelete (compar : K → K → ℤ) (key : K) : Node K → Node K × Option ℕ
  | .null => (.null, none)
  | .node a k l r => deleteLoop compar key a (.node a k l r)

/-- The nodes in the order of a walk -/
def walk : Node K → List (ℕ × K)
  | .null => []
  | .node a k l r => walk l ++ (a, k) :: walk r

/-- An in-order walk is strictly increasing. -/
def Ordered (compar : K → K → ℤ) (t : Node K) : Prop :=
  (walk t).Pairwise fun x y => compar x.2 y.2 < 0

variable {compar : K → K → ℤ} {key k : K} {t l r : Node K} {a p : ℕ} {q : Option ℕ}

/-! ## One call -/

theorem ordered_node : Ordered compar (.node a k l r) ↔ Ordered compar l ∧ Ordered compar r ∧
    (∀ x ∈ walk l, compar x.2 k < 0) ∧ (∀ y ∈ walk r, compar k y.2 < 0) ∧
      ∀ x ∈ walk l, ∀ y ∈ walk r, compar x.2 y.2 < 0 := by
  rw [Ordered, walk, pairwise_append, pairwise_cons]
  constructor
  · rintro ⟨hl, ⟨hk, hr⟩, hlr⟩
    exact ⟨hl, hr, fun x hx => hlr x hx (a, k) mem_cons_self, hk,
      fun x hx y hy => hlr x hx y (mem_cons_of_mem _ hy)⟩
  · rintro ⟨hl, hr, hlk, hk, hlr⟩
    refine ⟨hl, ⟨hk, hr⟩, fun x hx y hy => ?_⟩
    rcases mem_cons.mp hy with rfl | hy
    · exact hlk x hx
    · exact hlr x hx y hy

theorem walk_splice {x : ℕ × K} {s : Node K} (h : splice t = some (x, s)) : walk t = x :: walk s := by
  induction t generalizing s with
  | null => exact absurd h nofun
  | node a k l r ihl _ =>
    cases l with
    | null =>
      obtain ⟨rfl, rfl⟩ := Prod.mk.inj (Option.some.inj h)
      rfl
    | node b j l s0 =>
      obtain ⟨y, hy, heq⟩ := Option.map_eq_some_iff.mp h
      obtain ⟨rfl, rfl⟩ := Prod.mk.inj heq
      rw [walk, ihl hy, walk, cons_append]

theorem splice_isSome (a : ℕ) (k : K) (l r : Node K) : (splice (.node a k l r)).isSome := by
  induction l generalizing a k r with
  | null => rfl
  | node b j l s ihl _ =>
    rw [splice, Option.isSome_map]
    exact ihl b j s

/-- Only the node itself goes. -/
theorem walk_successor (l r : Node K) : walk (successor l r) = walk l ++ walk r := by
  cases l with
  | null => rfl
  | node a k l s =>
    cases r with
    | null => exact (append_nil _).symm
    | node b j rl rr =>
      cases rl with
      | null => rfl
      | node c i x y =>
        obtain ⟨z, hz⟩ := Option.isSome_iff_exists.mp (splice_isSome c i x y)
        have hwalk := walk_splice hz
        rw [successor, hz]
        simp only [walk] at hwalk ⊢
        rw [hwalk, cons_append]

/-- What `tsearch` does to the walk of a tree -/
theorem tsearch_spec (key : K) (hc : Comparison compar) (h : Ordered compar t) :
    (∃ x ∈ walk t, compar key x.2 = 0 ∧ ∀ q, tsearch compar key q t = (t, some x.1)) ∨
      (∀ x ∈ walk t, compar key x.2 ≠ 0) ∧ tsearch compar key none t = (t, none) ∧
        ∃ u v, walk t = u ++ v ∧ (∀ y ∈ u, compar y.2 key < 0) ∧ (∀ y ∈ v, compar key y.2 < 0) ∧
          ∀ a, (tsearch compar key (some a) t).2 = some a ∧
            walk (tsearch compar key (some a) t).1 = u ++ (a, key) :: v := by
  induction t with
  | null => exact .inr ⟨nofun, rfl, [], [], rfl, nofun, nofun, fun a => ⟨rfl, rfl⟩⟩
  | node b k l r ihl ihr =>
    obtain ⟨hl, hr, hlk, hkr, -⟩ := ordered_node.mp h
    simp only [tsearch, walk]
    by_cases hzero : compar key k = 0
    · refine .inl ⟨(b, k), mem_append_right _ mem_cons_self, hzero, fun q => ?_⟩
      rw [if_pos hzero]
    simp only [if_neg hzero]
    by_cases hlt : compar key k < 0
    · simp only [if_pos hlt]
      have hright : ∀ y ∈ walk r, compar key y.2 < 0 := fun y hy =>
        hc.lt_of_lt_of_le hlt (Int.le_of_lt (hkr y hy))
      rcases ihl hl with ⟨x, hx, hkx, heq⟩ | ⟨hne, hnone, u, v, hwalk, hu, hv, hnew⟩
      · refine .inl ⟨x, mem_append_left _ hx, hkx, fun q => ?_⟩
        rw [heq]
      · refine .inr ⟨fun x hx => ?_, by rw [hnone], u, v ++ (b, k) :: walk r, ?_, hu, fun y hy => ?_,
          fun a => ⟨(hnew a).1, ?_⟩⟩
        · rcases mem_append.mp hx with hx | hx
          · exact hne x hx
          · rcases mem_cons.mp hx with rfl | hx
            · exact hzero
            · exact Int.ne_of_lt (hright x hx)
        · rw [hwalk, append_assoc]
        · rcases mem_append.mp hy with hy | hy
          · exact hv y hy
          · rcases mem_cons.mp hy with rfl | hy
            · exact hlt
            · exact hright y hy
        · rw [walk, (hnew a).2, append_assoc, cons_append]
    · simp only [if_neg hlt]
      have hgt : compar k key < 0 := by
        have hflip := hc.flip k key
        omega
      have hleft : ∀ y ∈ walk l, compar y.2 key < 0 := fun y hy =>
        hc.lt_of_lt_of_le (hlk y hy) (Int.le_of_lt hgt)
      rcases ihr hr with ⟨x, hx, hkx, heq⟩ | ⟨hne, hnone, u, v, hwalk, hu, hv, hnew⟩
      · refine .inl ⟨x, mem_append_right _ (mem_cons_of_mem _ hx), hkx, fun q => ?_⟩
        rw [heq]
      · refine .inr ⟨fun x hx => ?_, by rw [hnone], walk l ++ (b, k) :: u, v, ?_, fun y hy => ?_, hv,
          fun a => ⟨(hnew a).1, ?_⟩⟩
        · rcases mem_append.mp hx with hx | hx
          · have hflip := hc.flip x.2 key
            have hx' := hleft x hx
            omega
          · rcases mem_cons.mp hx with rfl | hx
            · exact hzero
            · exact hne x hx
        · rw [hwalk, append_assoc, cons_append]
        · rcases mem_append.mp hy with hy | hy
          · exact hleft y hy
          · rcases mem_cons.mp hy with rfl | hy
            · exact hgt
            · exact hu y hy
        · rw [walk, (hnew a).2, append_assoc, cons_append]

/-- What the loop of `tdelete` does to the walk of a tree -/
theorem deleteLoop_spec (hc : Comparison compar) (h : Ordered compar t) :
    (∃ u x v f, walk t = u ++ x :: v ∧ compar key x.2 = 0 ∧ (deleteLoop compar key p t).2 = some f ∧
      walk (deleteLoop compar key p t).1 = u ++ v) ∨
    (∀ x ∈ walk t, compar key x.2 ≠ 0) ∧ deleteLoop compar key p t = (t, none) := by
  induction t generalizing p with
  | null => exact .inr ⟨nofun, rfl⟩
  | node b k l r ihl ihr =>
    obtain ⟨hl, hr, hlk, hkr, -⟩ := ordered_node.mp h
    simp only [deleteLoop, walk]
    by_cases hzero : compar key k = 0
    · rw [if_pos hzero]
      exact .inl ⟨walk l, (b, k), walk r, p, rfl, hzero, rfl, walk_successor l r⟩
    rw [if_neg hzero]
    by_cases hlt : compar key k < 0
    · rw [if_pos hlt]
      rcases ihl (p := b) hl with ⟨u, x, v, f, hwalk, hkx, hret, hrest⟩ | ⟨hne, hnone⟩
      · refine .inl ⟨u, x, v ++ (b, k) :: walk r, f, ?_, hkx, hret, ?_⟩
        · rw [hwalk, append_assoc, cons_append]
        · rw [walk, hrest, append_assoc]
      · refine .inr ⟨fun x hx => ?_, by rw [hnone]⟩
        rcases mem_append.mp hx with hx | hx
        · exact hne x hx
        · rcases mem_cons.mp hx with rfl | hx
          · exact hzero
          · exact Int.ne_of_lt (hc.lt_of_lt_of_le hlt (Int.le_of_lt (hkr x hx)))
    · rw [if_neg hlt]
      have hgt : compar k key < 0 := by
        have hflip := hc.flip k key
        omega
      rcases ihr (p := b) hr with ⟨u, x, v, f, hwalk, hkx, hret, hrest⟩ | ⟨hne, hnone⟩
      · refine .inl ⟨walk l ++ (b, k) :: u, x, v, f, ?_, hkx, hret, ?_⟩
        · rw [hwalk, append_assoc, cons_append]
        · rw [walk, hrest, append_assoc, cons_append]
      · refine .inr ⟨fun x hx => ?_, by rw [hnone]⟩
        rcases mem_append.mp hx with hx | hx
        · have hflip := hc.flip x.2 key
          have hx' := hc.lt_of_lt_of_le (hlk x hx) (Int.le_of_lt hgt)
          omega
        · rcases mem_cons.mp hx with rfl | hx
          · exact hzero
          · exact hne x hx

/-! ## Callers -/

inductive Act (K : Type*)
  | tsearch (key : K) (q : Option ℕ)
  | tdelete (key : K)

def Act.next (compar : K → K → ℤ) (t : Node K) : Act K → Node K
  | .tsearch key q => (Tsearch.tsearch compar key q t).1
  | .tdelete key => (Tsearch.tdelete compar key t).1

/-- The tree after some calls, from the empty one -/
def tree (compar : K → K → ℤ) (as : List (Act K)) : Node K := as.foldl (Act.next compar) .null

/-- A key equal to `key` was inserted, and not deleted since. -/
def Inserted (compar : K → K → ℤ) (as : List (Act K)) (key : K) : Prop :=
  ∃ before k q since, as = before ++ .tsearch k (some q) :: since ∧ compar key k = 0 ∧
    ∀ j, .tdelete j ∈ since → compar key j ≠ 0

/-- A node has a key equal to `key`. -/
def Has (compar : K → K → ℤ) (t : Node K) (key : K) : Prop := ∃ x ∈ walk t, compar key x.2 = 0

theorem ordered_tsearch (hc : Comparison compar) (h : Ordered compar t) :
    Ordered compar (tsearch compar key q t).1 := by
  rcases tsearch_spec key hc h with ⟨x, -, -, heq⟩ | ⟨-, hnone, u, v, hwalk, hu, hv, hnew⟩
  · rw [heq]
    exact h
  · cases q with
    | none =>
      rw [hnone]
      exact h
    | some a =>
      rw [Ordered, hwalk, pairwise_append] at h
      rw [Ordered, (hnew a).2, pairwise_append, pairwise_cons]
      refine ⟨h.1, ⟨hv, h.2.1⟩, fun x hx y hy => ?_⟩
      rcases mem_cons.mp hy with rfl | hy
      · exact hu x hx
      · exact h.2.2 x hx y hy

/-- What `tdelete` does to the walk of a tree -/
theorem tdelete_spec (key : K) (hc : Comparison compar) (h : Ordered compar t) :
    (∃ u x v f, walk t = u ++ x :: v ∧ compar key x.2 = 0 ∧ (tdelete compar key t).2 = some f ∧
      walk (tdelete compar key t).1 = u ++ v) ∨
    (∀ x ∈ walk t, compar key x.2 ≠ 0) ∧ tdelete compar key t = (t, none) := by
  cases t with
  | null => exact .inr ⟨nofun, rfl⟩
  | node a k l r => exact deleteLoop_spec hc h

theorem ordered_tdelete (hc : Comparison compar) (h : Ordered compar t) :
    Ordered compar (tdelete compar key t).1 := by
  rcases tdelete_spec key hc h with ⟨u, x, v, f, hwalk, -, -, hrest⟩ | ⟨-, hnone⟩
  · rw [Ordered, hwalk] at h
    rw [Ordered, hrest]
    exact h.sublist ((List.Sublist.refl u).append (sublist_cons_self x v))
  · rw [hnone]
    exact h

/-- In an ordered tree no other node has an equal key. -/
theorem Ordered.others (hc : Comparison compar) (h : Ordered compar t) {u v : List (ℕ × K)} {x : ℕ × K}
    (hwalk : walk t = u ++ x :: v) (hx : compar key x.2 = 0) : ∀ y ∈ u ++ v, compar key y.2 ≠ 0 := by
  rw [Ordered, hwalk, pairwise_append, pairwise_cons] at h
  obtain ⟨-, ⟨hv, -⟩, hu⟩ := h
  intro y hy hkey
  have hxy := hc.zero_trans (hc.zero_flip.mp hx) hkey
  rcases mem_append.mp hy with hy | hy
  · exact absurd (hc.zero_flip.mp hxy) (Int.ne_of_lt (hu y hy x mem_cons_self))
  · exact absurd hxy (Int.ne_of_lt (hv y hy))

theorem has_tsearch (hc : Comparison compar) (h : Ordered compar t) :
    Has compar (tsearch compar k q t).1 key ↔ Has compar t key ∨ q.isSome ∧ compar key k = 0 := by
  rcases tsearch_spec k hc h with ⟨x, hx, hkx, heq⟩ | ⟨-, hnone, u, v, hwalk, -, -, hnew⟩
  · rw [heq]
    refine ⟨.inl, ?_⟩
    rintro (hhas | ⟨-, hkey⟩)
    · exact hhas
    · exact ⟨x, hx, hc.zero_trans hkey hkx⟩
  · cases q with
    | none =>
      rw [hnone]
      exact ⟨.inl, fun hhas => hhas.resolve_right fun hc => absurd hc.1 nofun⟩
    | some a =>
      simp only [Has, (hnew a).2, hwalk, mem_append, mem_cons, Option.isSome_some, true_and]
      constructor
      · rintro ⟨x, hx | rfl | hx, hkx⟩
        · exact .inl ⟨x, .inl hx, hkx⟩
        · exact .inr hkx
        · exact .inl ⟨x, .inr hx, hkx⟩
      · rintro (⟨x, hx | hx, hkx⟩ | hkey)
        · exact ⟨x, .inl hx, hkx⟩
        · exact ⟨x, .inr (.inr hx), hkx⟩
        · exact ⟨(a, k), .inr (.inl rfl), hkey⟩

theorem has_tdelete (hc : Comparison compar) (h : Ordered compar t) :
    Has compar (tdelete compar k t).1 key ↔ Has compar t key ∧ compar key k ≠ 0 := by
  rcases tdelete_spec k hc h with ⟨u, x, v, f, hwalk, hkx, -, hrest⟩ | ⟨hne, hnone⟩
  · have hothers := h.others hc hwalk hkx
    simp only [Has, hrest, hwalk]
    constructor
    · rintro ⟨y, hy, hkey⟩
      refine ⟨⟨y, ?_, hkey⟩, fun heq => hothers y hy (hc.zero_trans (hc.zero_flip.mp heq) hkey)⟩
      exact ((List.Sublist.refl u).append (sublist_cons_self x v)).subset hy
    · rintro ⟨⟨y, hy, hkey⟩, hk⟩
      have hyx : y ≠ x := fun heq => hk (hc.zero_trans (heq ▸ hkey) (hc.zero_flip.mp hkx))
      refine ⟨y, ?_, hkey⟩
      rcases mem_append.mp hy with hy | hy
      · exact mem_append_left _ hy
      · exact mem_append_right _ ((mem_cons.mp hy).resolve_left hyx)
  · rw [hnone]
    refine ⟨fun hhas => ⟨hhas, fun hk => ?_⟩, And.left⟩
    obtain ⟨y, hy, hkey⟩ := hhas
    exact hne y hy (hc.zero_trans (hc.zero_flip.mp hk) hkey)

/-- Where a call is among others and one more -/
theorem append_eq_iff {α : Type*} {as before since : List α} {a b : α} :
    as ++ [a] = before ++ b :: since ↔
      since = [] ∧ as = before ∧ a = b ∨ ∃ s, since = s ++ [a] ∧ as = before ++ b :: s := by
  rcases eq_nil_or_concat since with rfl | ⟨s, c, rfl⟩
  · constructor
    · intro h
      obtain ⟨rfl, hab⟩ := append_inj' h rfl
      exact .inl ⟨rfl, rfl, (List.cons.inj hab).1⟩
    · rintro (⟨-, rfl, rfl⟩ | ⟨s, hs, -⟩)
      · rfl
      · exact absurd hs.symm (append_ne_nil_of_right_ne_nil s (cons_ne_nil a []))
  · rw [concat_eq_append]
    constructor
    · intro h
      rw [← cons_append, ← append_assoc] at h
      obtain ⟨rfl, hac⟩ := append_inj' h rfl
      exact .inr ⟨s, by rw [(List.cons.inj hac).1], rfl⟩
    · rintro (⟨hs, -⟩ | ⟨s', hs, rfl⟩)
      · exact absurd hs (append_ne_nil_of_right_ne_nil s (cons_ne_nil c []))
      · rw [hs, append_assoc, cons_append]

theorem inserted_tsearch {as : List (Act K)} : Inserted compar (as ++ [.tsearch k q]) key ↔
    Inserted compar as key ∨ q.isSome ∧ compar key k = 0 := by
  constructor
  · rintro ⟨before, j, a, since, heq, hj, hno⟩
    rcases append_eq_iff.mp heq with ⟨-, -, hlast⟩ | ⟨s, rfl, rfl⟩
    · obtain ⟨rfl, rfl⟩ := Act.tsearch.inj hlast
      exact .inr ⟨rfl, hj⟩
    · exact .inl ⟨before, j, a, s, rfl, hj, fun i hi => hno i (mem_append_left _ hi)⟩
  · rintro (⟨before, j, a, since, rfl, hj, hno⟩ | ⟨hq, hk⟩)
    · refine ⟨before, j, a, since ++ [.tsearch k q], by rw [append_assoc, cons_append], hj,
        fun i hi => ?_⟩
      rcases mem_append.mp hi with hi | hi
      · exact hno i hi
      · exact absurd (mem_singleton.mp hi) nofun
    · obtain ⟨a, rfl⟩ := Option.isSome_iff_exists.mp hq
      exact ⟨as, k, a, [], rfl, hk, nofun⟩

theorem inserted_tdelete {as : List (Act K)} : Inserted compar (as ++ [.tdelete k]) key ↔
    Inserted compar as key ∧ compar key k ≠ 0 := by
  constructor
  · rintro ⟨before, j, a, since, heq, hj, hno⟩
    rcases append_eq_iff.mp heq with ⟨-, -, hlast⟩ | ⟨s, rfl, rfl⟩
    · exact absurd hlast nofun
    · exact ⟨⟨before, j, a, s, rfl, hj, fun i hi => hno i (mem_append_left _ hi)⟩,
        hno k (mem_append_right _ (mem_singleton.mpr rfl))⟩
  · rintro ⟨⟨before, j, a, since, rfl, hj, hno⟩, hk⟩
    refine ⟨before, j, a, since ++ [.tdelete k], by rw [append_assoc, cons_append], hj,
      fun i hi => ?_⟩
    rcases mem_append.mp hi with hi | hi
    · exact hno i hi
    · exact Act.tdelete.inj (mem_singleton.mp hi) ▸ hk

/-- The walk is increasing, and the keys are those that were inserted and not deleted since. -/
theorem tree_spec (hc : Comparison compar) (as : List (Act K)) :
    Ordered compar (tree compar as) ∧ ∀ key, Has compar (tree compar as) key ↔ Inserted compar as key := by
  induction as using List.reverseRecOn with
  | nil => 
    refine ⟨List.Pairwise.nil, fun key => ⟨?_, ?_⟩⟩
    · rintro ⟨x, hx, -⟩
      exact absurd hx not_mem_nil
    · rintro ⟨before, k, q, since, heq, -⟩
      exact absurd heq.symm (append_ne_nil_of_right_ne_nil _ (cons_ne_nil _ _))
  | append_singleton as a ih =>
    obtain ⟨hord, hhas⟩ := ih
    have hstep : tree compar (as ++ [a]) = Act.next compar (tree compar as) a := by
      rw [tree, foldl_append]
      rfl
    rw [hstep]
    cases a with
    | tsearch k q =>
      refine ⟨ordered_tsearch hc hord, fun key => ?_⟩
      rw [inserted_tsearch, ← hhas]
      exact has_tsearch hc hord
    | tdelete k =>
      refine ⟨ordered_tdelete hc hord, fun key => ?_⟩
      rw [inserted_tdelete, ← hhas]
      exact has_tdelete hc hord

/-- A search tree: the calls find, insert and delete what they should, and leave the other nodes. -/
structure Law (compar : K → K → ℤ) (as : List (Act K)) (t : Node K) : Prop where
  ordered : (walk t).Pairwise fun x y => compar x.2 y.2 < 0
  finds : ∀ key, (∃ x ∈ walk t, compar key x.2 = 0 ∧ ∀ q, tsearch compar key q t = (t, some x.1)) ↔
    Inserted compar as key
  inserts : ∀ key, ¬Inserted compar as key → tsearch compar key none t = (t, none) ∧
    ∃ u v, walk t = u ++ v ∧ ∀ q, (tsearch compar key (some q) t).2 = some q ∧
      walk (tsearch compar key (some q) t).1 = u ++ (q, key) :: v
  deletes : ∀ key, Inserted compar as key → ∃ u x v, walk t = u ++ x :: v ∧ compar key x.2 = 0 ∧
    (∀ y ∈ u ++ v, compar key y.2 ≠ 0) ∧ (tdelete compar key t).2.isSome ∧
      walk (tdelete compar key t).1 = u ++ v
  misses : ∀ key, ¬Inserted compar as key → tdelete compar key t = (t, none)

/-- Every tree that calls make from the empty one is a search tree. -/
theorem tree_law (hc : Comparison compar) (as : List (Act K)) : Law compar as (tree compar as) := by
  obtain ⟨hord, hhas⟩ := tree_spec hc as
  refine ⟨hord, fun key => ⟨?_, fun hin => ?_⟩, fun key hout => ?_, fun key hin => ?_, fun key hout => ?_⟩
  · rintro ⟨x, hx, hkx, -⟩
    exact (hhas key).mp ⟨x, hx, hkx⟩
  · rcases tsearch_spec key hc hord with hfound | ⟨hne, -⟩
    · exact hfound
    · obtain ⟨x, hx, hkx⟩ := (hhas key).mpr hin
      exact absurd hkx (hne x hx)
  · rcases tsearch_spec key hc hord with ⟨x, hx, hkx, -⟩ | ⟨-, hnone, u, v, hwalk, -, -, hnew⟩
    · exact absurd ((hhas key).mp ⟨x, hx, hkx⟩) hout
    · exact ⟨hnone, u, v, hwalk, hnew⟩
  · rcases tdelete_spec key hc hord with ⟨u, x, v, f, hwalk, hkx, hret, hrest⟩ | ⟨hne, -⟩
    · exact ⟨u, x, v, hwalk, hkx, hord.others hc hwalk hkx, Option.isSome_of_mem hret, hrest⟩
    · obtain ⟨x, hx, hkx⟩ := (hhas key).mpr hin
      exact absurd hkx (hne x hx)
  · rcases tdelete_spec key hc hord with ⟨u, x, v, f, hwalk, hkx, -⟩ | ⟨-, hnone⟩
    · refine absurd ((hhas key).mp ⟨x, ?_, hkx⟩) hout
      rw [hwalk]
      exact mem_append_right _ mem_cons_self
    · exact hnone

/-- Nodes with a right son that has a left one, and a node below that -/
theorem tree_law_ints : Law (fun x y : ℤ => x - y)
    [.tsearch 2 (some 10), .tsearch 1 (some 20), .tsearch 8 (some 30), .tsearch 5 (some 40),
      .tsearch 4 none, .tsearch 6 (some 50), .tdelete 2]
    (tree (fun x y : ℤ => x - y)
      [.tsearch 2 (some 10), .tsearch 1 (some 20), .tsearch 8 (some 30), .tsearch 5 (some 40),
        .tsearch 4 none, .tsearch 6 (some 50), .tdelete 2]) :=
  tree_law ⟨fun x y => by omega, fun x y z h1 h2 => by omega⟩ _

/-! ## Walks -/

inductive VISIT
  | preorder
  | postorder
  | endorder
  | leaf
deriving DecidableEq

/-- A call of `action`: the node, the visit and the level -/
structure Call (K : Type*) where
  root : ℕ × K
  visit : VISIT
  level : ℕ

/-- The calls of `_twalk`, which comes to no NULL -/
def twalkFrom : ℕ → Node K → List (Call K)
  | _, .null => []
  | level, .node a k .null .null => [⟨(a, k), .leaf, level⟩]
  | level, .node a k l r =>
    ⟨(a, k), .preorder, level⟩ :: (twalkFrom (level + 1) l ++ ⟨(a, k), .postorder, level⟩ ::
      (twalkFrom (level + 1) r ++ [⟨(a, k), .endorder, level⟩]))

def twalk (root : Node K) : List (Call K) := twalkFrom 0 root

/-- The nodes of the calls between those for the links -/
def between (calls : List (Call K)) : List (ℕ × K) :=
  (calls.filter fun c => c.visit = .postorder ∨ c.visit = .leaf).map Call.root

theorem twalkFrom_node (level a : ℕ) (k : K) (l r : Node K) :
    l = .null ∧ r = .null ∧ twalkFrom level (.node a k l r) = [⟨(a, k), .leaf, level⟩] ∨
      twalkFrom level (.node a k l r) = ⟨(a, k), .preorder, level⟩ :: (twalkFrom (level + 1) l ++
        ⟨(a, k), .postorder, level⟩ :: (twalkFrom (level + 1) r ++ [⟨(a, k), .endorder, level⟩])) := by
  cases l with
  | null =>
    cases r with
    | null => exact .inl ⟨rfl, rfl, rfl⟩
    | node b j x y => exact .inr rfl
  | node b j x y => exact .inr rfl

theorem between_twalkFrom (level : ℕ) (t : Node K) : between (twalkFrom level t) = walk t := by
  induction t generalizing level with
  | null => rfl
  | node a k l r ihl ihr =>
    obtain ⟨rfl, rfl, heq⟩ | heq := twalkFrom_node level a k l r
    · rw [heq]
      rfl
    · have hl := ihl (level + 1)
      have hr := ihr (level + 1)
      rw [heq, walk, ← hl, ← hr]
      simp [between]

theorem level_le {c : Call K} {level : ℕ} (hc : c ∈ twalkFrom level t) : level ≤ c.level := by
  induction t generalizing level with
  | null => exact absurd hc not_mem_nil
  | node a k l r ihl ihr =>
    obtain ⟨-, -, heq⟩ | heq := twalkFrom_node level a k l r
    · rw [heq, mem_singleton] at hc
      rw [hc]
    · rw [heq] at hc
      simp only [mem_cons, mem_append, not_mem_nil, or_false] at hc
      rcases hc with rfl | hc | rfl | hc | rfl
      · rfl
      · exact Nat.le_of_succ_le (ihl hc)
      · rfl
      · exact Nat.le_of_succ_le (ihr hc)
      · rfl

theorem twalkFrom_inj {level : ℕ} {t' : Node K} (h : twalkFrom level t = twalkFrom level t') : t = t' := by
  induction t generalizing level t' with
  | null =>
    cases t' with
    | null => rfl
    | node a' k' l' r' => obtain ⟨-, -, heq⟩ | heq := twalkFrom_node level a' k' l' r' <;> rw [heq] at h <;> cases h
  | node a k l r ihl ihr =>
    cases t' with
    | null => obtain ⟨-, -, heq⟩ | heq := twalkFrom_node level a k l r <;> rw [heq] at h <;> cases h
    | node a' k' l' r' =>
      obtain ⟨rfl, rfl, heq⟩ | heq := twalkFrom_node level a k l r <;>
        obtain ⟨rfl, rfl, heq'⟩ | heq' := twalkFrom_node level a' k' l' r' <;> rw [heq, heq'] at h
      · cases h
        rfl
      · cases h
      · cases h
      · obtain ⟨hhead, htail⟩ := List.cons.inj h
        cases hhead
        -- the calls for a link are one level down
        have hdeep (t : Node K) : ⟨(a, k), .postorder, level⟩ ∉ twalkFrom (level + 1) t := fun hmem =>
          absurd (level_le hmem) (Nat.not_succ_le_self level)
        obtain ⟨hl, -, hrest⟩ := (append_cons_inj_of_notMem (hdeep l) (by simp [hdeep r])).mp htail
        rw [ihl hl, ihr (append_cancel_right hrest)]

/-- The postorder and leaf visits are in increasing order, of the keys that are in the tree. -/
structure Lists (compar : K → K → ℤ) (as : List (Act K)) (calls : List (Call K)) : Prop where
  sorted : (between calls).Pairwise fun x y => compar x.2 y.2 < 0
  keys : ∀ key, (∃ x ∈ between calls, compar key x.2 = 0) ↔ Inserted compar as key

theorem twalk_lists (hc : Comparison compar) (as : List (Act K)) : Lists compar as (twalk (tree compar as)) := by
  have hspec := tree_spec hc as
  have hwalk := between_twalkFrom 0 (tree compar as)
  rw [Ordered, ← hwalk] at hspec
  exact ⟨hspec.1, fun key => hwalk ▸ hspec.2 key⟩

theorem twalk_lists_two : Lists (fun x y : ℤ => x - y) [.tsearch 2 (some 10), .tsearch 1 (some 20)]
    (twalk (tree (fun x y : ℤ => x - y) [.tsearch 2 (some 10), .tsearch 1 (some 20)])) :=
  twalk_lists ⟨fun x y => by omega, fun x y z h1 h2 => by omega⟩ _

/-- The calls of `action` tell the tree. -/
theorem twalk_injective : Function.Injective (twalk : Node K → List (Call K)) := fun _ _ => twalkFrom_inj

end Svr3.Tsearch
