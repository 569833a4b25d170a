import Mathlib.Data.List.Nodup

/-!
# Ledgers of queues

What came to a queue has been delivered from its front, or removed from anywhere in it, or is still in it. What is
delivered is so in the order in which it came.
-/

namespace Svr3

open List

variable {α : Type*}

structure Ledger (arrived delivered removed queue : List α) : Prop where
  once : arrived.Nodup
  all : arrived.Perm (delivered ++ removed ++ queue)
  order : (delivered ++ queue).Sublist arrived

namespace Ledger

variable {arrived delivered removed queue : List α} {x : α}

theorem empty : Ledger ([] : List α) [] [] [] := ⟨nodup_nil, List.Perm.nil, List.Sublist.refl _⟩

theorem arrive (h : Ledger arrived delivered removed queue) (hx : x ∉ arrived) :
    Ledger (arrived ++ [x]) delivered removed (queue ++ [x]) where
  once := nodup_append'.mpr ⟨h.once, nodup_singleton x, by simpa using hx⟩
  all := by
    rw [← append_assoc]
    exact h.all.append_right [x]
  order := by
    rw [← append_assoc]
    exact h.order.append_right [x]

theorem deliver (h : Ledger arrived delivered removed (x :: queue)) :
    Ledger arrived (delivered ++ [x]) removed queue where
  once := h.once
  all := by
    apply h.all.trans
    rw [append_assoc, append_assoc, append_assoc]
    apply List.Perm.append_left
    exact perm_middle
  order := by
    rw [append_assoc, singleton_append]
    exact h.order

/-- Some leave the queue, and the others keep their order. -/
theorem remove (h : Ledger arrived delivered removed queue) {xs rest : List α} (hall : queue.Perm (xs ++ rest))
    (horder : rest.Sublist queue) : Ledger arrived delivered (removed ++ xs) rest where
  once := h.once
  all := by
    apply h.all.trans
    rw [append_assoc, append_assoc, append_assoc]
    exact (hall.append_left removed).append_left delivered
  order := (horder.append_left delivered).trans h.order

end Ledger

end Svr3
