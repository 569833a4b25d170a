import Mathlib.Data.List.Nodup
import Svr3.Lib.Linked

/-!
# A pool of nodes on chains

Each node of a pool is on the free chain, on one of many queues, held by a party, or not of the pool.
A node is taken from the free chain and given back to it, comes to the end of a queue, and is removed
from between its neighbours.
-/

namespace Svr3

open Function List

/-- Where a node is. -/
inductive Owner (Q P : Type*)
  | outside
  | free
  | queue (q : Q)
  | held (p : P)

variable {α Q P : Type*}

/-- The chain of free nodes from `free` is `fs`, and queue `q` is `qs q`, from `first q` to `last q`. -/
structure Pool (next : α → Option α) (free : Option α) (first last : Q → Option α)
    (held : P → Option α) (fs : List α) (qs : Q → List α) (own : α → Owner Q P) : Prop where
  free_linked : Linked next free fs
  linked : ∀ q, Linked next (first q) (qs q)
  last_eq : ∀ q, last q = (qs q).getLast?
  on_free : ∀ x, x ∈ fs ↔ own x = .free
  on_queue : ∀ q x, x ∈ qs q ↔ own x = .queue q
  on_held : ∀ p x, held p = some x ↔ own x = .held p

namespace Pool

variable {next next' : α → Option α} {free : Option α} {first last : Q → Option α}
  {held : P → Option α} {fs xs pre post : List α} {qs : Q → List α} {own : α → Owner Q P} {x : α} {p : P}
  {q : Q}

/-- A free node is taken. -/
theorem take [DecidableEq α] [DecidableEq P] (h : Pool next free first last held fs qs own)
    (hfree : free = some x) (hp : held p = none) :
    Pool next (next x) first last (update held p (some x)) fs.tail qs
      (update own x (.held p)) := by
  have hlinked := h.free_linked
  have hnodup := hlinked.nodup
  cases fs with
  | nil =>
    rw [hfree] at hlinked
    exact absurd hlinked nofun
  | cons y fs =>
    have hyx : x = y := Option.some.inj (hfree.symm.trans hlinked.1)
    rw [← hyx] at hlinked hnodup
    have hown : own x = .free := (h.on_free x).mp (hyx ▸ mem_cons_self)
    refine ⟨hlinked.2, h.linked, h.last_eq, fun z => ?_, fun q z => ?_, fun p' z => ?_⟩
    · rw [tail_cons]
      by_cases hz : z = x
      · rw [hz, update_self]
        exact iff_of_false (nodup_cons.mp hnodup).1 nofun
      · rw [update_of_ne hz, ← h.on_free, mem_cons, ← hyx, or_iff_right hz]
    · by_cases hz : z = x
      · rw [hz, update_self, h.on_queue, hown]
        exact iff_of_false nofun nofun
      · rw [update_of_ne hz]
        exact h.on_queue q z
    · by_cases hp' : p' = p
      · rw [hp', update_self]
        by_cases hz : z = x
        · rw [hz, update_self]
          exact iff_of_true rfl rfl
        · rw [update_of_ne hz, ← h.on_held, hp]
          exact iff_of_false (fun hc => hz (Option.some.inj hc).symm) nofun
      · rw [update_of_ne hp']
        by_cases hz : z = x
        · rw [hz, update_self, h.on_held, hown]
          refine iff_of_false nofun fun hc => hp' ?_
          cases hc
          rfl
        · rw [update_of_ne hz]
          exact h.on_held p' z

/-- A node that is held is on no chain. -/
theorem held_notMem (h : Pool next free first last held fs qs own) (hx : held p = some x) :
    x ∉ fs ∧ ∀ q, x ∉ qs q := by
  have hown := (h.on_held p x).mp hx
  constructor
  · rw [h.on_free, hown]
    exact nofun
  · intro q
    rw [h.on_queue, hown]
    exact nofun

/-- A node of a queue is on no other chain, and nobody holds it. -/
theorem queue_notMem (h : Pool next free first last held fs qs own) (hx : x ∈ qs q) :
    x ∉ fs ∧ (∀ q', q' ≠ q → x ∉ qs q') ∧ ∀ p, held p ≠ some x := by
  have hown := (h.on_queue q x).mp hx
  refine ⟨?_, fun q' hq' => ?_, fun p => ?_⟩
  · rw [h.on_free, hown]
    exact nofun
  · rw [h.on_queue, hown]
    intro hc
    cases hc
    exact hq' rfl
  · rw [ne_eq, h.on_held, hown]
    exact nofun

/-- Links of nodes that are on no chain may change. -/
theorem congr (h : Pool next free first last held fs qs own)
    (hsame : ∀ y, (∀ p, held p ≠ some y) → own y ≠ .outside → next' y = next y) :
    Pool next' free first last held fs qs own := by
  refine ⟨h.free_linked.congr fun y hy => ?_, fun q => (h.linked q).congr fun y hy => ?_, h.last_eq,
    h.on_free, h.on_queue, h.on_held⟩
  · have hown := (h.on_free y).mp hy
    apply hsame y
    · intro p
      rw [ne_eq, h.on_held, hown]
      exact nofun
    · rw [hown]
      exact nofun
  · have hown := (h.on_queue q y).mp hy
    apply hsame y (h.queue_notMem hy).2.2
    rw [hown]
    exact nofun

/-- The nodes of a pool stay in it. -/
theorem update_outside [DecidableEq α] {o : Owner Q P} (hx : own x ≠ .outside) (ho : o ≠ .outside)
    (y : α) : update own x o y = .outside ↔ own y = .outside := by
  by_cases hy : y = x
  · rw [hy, update_self]
    exact iff_of_false ho hx
  · rw [update_of_ne hy]

/-- The node that a party gives away comes to another place. -/
theorem on_held_give [DecidableEq α] [DecidableEq P]
    (h : Pool next free first last held fs qs own) (hx : held p = some x) {o : Owner Q P}
    (ho : ∀ p', o ≠ .held p') (p' : P) (z : α) :
    update held p none p' = some z ↔ update own x o z = .held p' := by
  have hown := (h.on_held p x).mp hx
  by_cases hz : z = x
  · rw [hz, update_self]
    refine iff_of_false (fun hc => ?_) (ho p')
    by_cases hp' : p' = p
    · rw [hp', update_self] at hc
      exact absurd hc nofun
    · rw [update_of_ne hp'] at hc
      have hother := (h.on_held p' x).mp hc
      rw [hown] at hother
      cases hother
      exact hp' rfl
  · rw [update_of_ne hz, ← h.on_held]
    by_cases hp' : p' = p
    · rw [hp', update_self, hx]
      exact iff_of_false nofun fun hc => hz (Option.some.inj hc).symm
    · rw [update_of_ne hp']

/-- A node that is held comes to the front of the free chain. -/
theorem give [DecidableEq α] [DecidableEq P] (h : Pool next free first last held fs qs own)
    (hx : held p = some x) :
    Pool (update next x free) (some x) first last (update held p none) (x :: fs) qs
      (update own x .free) := by
  obtain ⟨hfs, hqs⟩ := h.held_notMem hx
  have hown := (h.on_held p x).mp hx
  refine ⟨⟨rfl, ?_⟩, fun q => ?_, h.last_eq, fun z => ?_, fun q z => ?_, h.on_held_give hx nofun⟩
  · rw [update_self]
    apply h.free_linked.congr
    intro z hz
    exact update_of_ne (ne_of_mem_of_not_mem hz hfs) _ _
  · apply (h.linked q).congr
    intro z hz
    exact update_of_ne (ne_of_mem_of_not_mem hz (hqs q)) _ _
  · rw [mem_cons]
    by_cases hz : z = x
    · rw [hz, update_self]
      exact iff_of_true (.inl rfl) rfl
    · rw [update_of_ne hz, or_iff_right hz]
      exact h.on_free z
  · by_cases hz : z = x
    · rw [hz, update_self]
      exact iff_of_false (hqs q) nofun
    · rw [update_of_ne hz]
      exact h.on_queue q z

/-- A queue is not empty when it has a last node. -/
theorem last_none (h : Pool next free first last held fs qs own) :
    last q = none ↔ qs q = [] := by
  rw [h.last_eq, List.getLast?_eq_none_iff]

/-- A node that is held comes to the end of queue `q`. -/
theorem append [DecidableEq α] [DecidableEq Q] [DecidableEq P]
    (h : Pool next free first last held fs qs own) (hx : held p = some x)
    (hnext : next' x = none) (hlast : ∀ y, last q = some y → next' y = some x)
    (hsame : ∀ y, y ≠ x → last q ≠ some y → next' y = next y) :
    Pool next' free (update first q ((last q).elim (some x) fun _ => first q))
      (update last q (some x)) (update held p none) fs
      (update qs q (qs q ++ [x])) (update own x (.queue q)) := by
  obtain ⟨hfs, hqs⟩ := h.held_notMem hx
  have hlastq := h.last_eq q
  -- nodes of other chains keep their successors
  have hother (z : α) (hz : z ∉ qs q) (hzx : z ≠ x) : next' z = next z := by
    apply hsame z hzx
    intro hc
    rw [hlastq] at hc
    exact hz (mem_of_getLast? hc)
  refine ⟨?_, fun q' => ?_, fun q' => ?_, fun z => ?_, fun q' z => ?_, h.on_held_give hx nofun⟩
  · apply h.free_linked.congr
    intro z hz
    apply hother z _ (ne_of_mem_of_not_mem hz hfs)
    rw [h.on_queue, (h.on_free z).mp hz]
    exact nofun
  · by_cases hq : q' = q
    · rw [hq, update_self, update_self]
      have hlink := h.linked q
      rw [← append_nil (qs q)] at hlink
      have hins : Linked next' (qs q ++ [x]).head? (qs q ++ [x]) := hlink.insert hnext
        (fun z hz => hlast z (hlastq.trans hz)) fun z hz hne => by
          rw [append_nil] at hz
          exact hsame z (ne_of_mem_of_not_mem hz (hqs q)) (hlastq ▸ hne)
      have hfirst : ((last q).elim (some x) fun _ => first q) = (qs q ++ [x]).head? := by
        rw [append_nil] at hlink
        cases hl : last q with
        | none =>
          rw [h.last_none.mp hl]
          rfl
        | some y =>
          have hne : qs q ≠ [] := by
            rw [ne_eq, ← h.last_none, hl]
            exact nofun
          rw [Option.elim_some, hlink.head, List.head?_append_of_ne_nil _ hne]
      rw [hfirst]
      exact hins
    · rw [update_of_ne hq, update_of_ne hq]
      apply (h.linked q').congr
      intro z hz
      apply hother z _ (ne_of_mem_of_not_mem hz (hqs q'))
      rw [h.on_queue, (h.on_queue q' z).mp hz]
      intro hc
      cases hc
      exact hq rfl
  · by_cases hq : q' = q
    · rw [hq, update_self, update_self, List.getLast?_concat]
    · rw [update_of_ne hq, update_of_ne hq]
      exact h.last_eq q'
  · by_cases hz : z = x
    · rw [hz, update_self]
      exact iff_of_false hfs nofun
    · rw [update_of_ne hz]
      exact h.on_free z
  · by_cases hz : z = x
    · rw [hz, update_self]
      by_cases hq : q' = q
      · rw [hq, update_self]
        exact iff_of_true (mem_append_right _ (mem_singleton.mpr rfl)) rfl
      · rw [update_of_ne hq]
        refine iff_of_false (hqs q') fun hc => hq ?_
        cases hc
        rfl
    · rw [update_of_ne hz]
      by_cases hq : q' = q
      · rw [hq, update_self, mem_append, mem_singleton, or_iff_left hz]
        exact h.on_queue q z
      · rw [update_of_ne hq]
        exact h.on_queue q' z

/-- A node is removed from between its neighbours, and held. -/
theorem remove [DecidableEq α] [DecidableEq Q] [DecidableEq P]
    (h : Pool next free first last held fs qs own) (hq : qs q = pre ++ x :: post)
    (hp : held p = none) (hpre : ∀ y, pre.getLast? = some y → next' y = next x)
    (hsame : ∀ y, pre.getLast? ≠ some y → next' y = next y) :
    Pool next' free (update first q (if pre = [] then next x else first q))
      (update last q (if next x = none then pre.getLast? else last q))
      (update held p (some x)) fs (update qs q (pre ++ post))
      (update own x (.held p)) := by
  have hlink := h.linked q
  rw [hq] at hlink
  have hnext : next x = post.head? := hlink.next_eq
  have hnodup := hlink.nodup
  have hxown : own x = .queue q := (h.on_queue q x).mp (by simp [hq])
  have hother (z : α) (hz : z ∉ qs q) : next' z = next z := by
    apply hsame z
    intro hc
    apply hz
    rw [hq]
    exact mem_append_left _ (mem_of_getLast? hc)
  have hxout : x ∉ pre ++ post := by
    have hmid := nodup_middle.mp hnodup
    exact (nodup_cons.mp hmid).1
  refine ⟨?_, fun q' => ?_, fun q' => ?_, fun z => ?_, fun q' z => ?_, fun p' z => ?_⟩
  · apply h.free_linked.congr
    intro z hz
    apply hother z
    rw [h.on_queue, (h.on_free z).mp hz]
    exact nofun
  · by_cases hqq : q' = q
    · rw [hqq, update_self, update_self]
      have hrem : Linked next' (pre ++ post).head? (pre ++ post) :=
        hlink.remove (fun z hz => (hpre z hz).trans hnext) fun z _ hne => hsame z hne
      have hfirst : (if pre = [] then next x else first q) = (pre ++ post).head? := by
        split
        next hnil => rw [hnil, nil_append, hnext]
        next hcons =>
          rw [hlink.head, List.head?_append_of_ne_nil _ hcons, List.head?_append_of_ne_nil _ hcons]
      rw [hfirst]
      exact hrem
    · rw [update_of_ne hqq, update_of_ne hqq]
      apply (h.linked q').congr
      intro z hz
      apply hother z
      rw [h.on_queue, (h.on_queue q' z).mp hz]
      intro hc
      cases hc
      exact hqq rfl
  · by_cases hqq : q' = q
    · rw [hqq, update_self, update_self, hnext]
      split
      next hnil =>
        rw [List.head?_eq_none_iff.mp hnil, append_nil]
      next hcons =>
        rw [h.last_eq, hq]
        cases post with
        | nil => exact absurd rfl hcons
        | cons y post =>
          rw [List.getLast?_append_cons, List.getLast?_append_cons, List.getLast?_cons_cons]
    · rw [update_of_ne hqq, update_of_ne hqq]
      exact h.last_eq q'
  · by_cases hz : z = x
    · rw [hz, update_self, h.on_free, hxown]
      exact iff_of_false nofun nofun
    · rw [update_of_ne hz]
      exact h.on_free z
  · by_cases hz : z = x
    · rw [hz, update_self]
      refine iff_of_false ?_ nofun
      by_cases hqq : q' = q
      · rw [hqq, update_self]
        exact hxout
      · rw [update_of_ne hqq, h.on_queue, hxown]
        intro hc
        cases hc
        exact hqq rfl
    · rw [update_of_ne hz]
      by_cases hqq : q' = q
      · rw [hqq, update_self, ← h.on_queue, hq]
        simp [hz]
      · rw [update_of_ne hqq]
        exact h.on_queue q' z
  · by_cases hp' : p' = p
    · rw [hp', update_self]
      by_cases hz : z = x
      · rw [hz, update_self]
        exact iff_of_true rfl rfl
      · rw [update_of_ne hz, ← h.on_held, hp]
        exact iff_of_false (fun hc => hz (Option.some.inj hc).symm) nofun
    · rw [update_of_ne hp']
      by_cases hz : z = x
      · rw [hz, update_self, h.on_held, hxown]
        refine iff_of_false nofun fun hc => hp' ?_
        cases hc
        rfl
      · rw [update_of_ne hz]
        exact h.on_held p' z

end Pool

end Svr3
