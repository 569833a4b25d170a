import Mathlib.Data.List.Basic
import Svr3.Lib.Follow

/-!
# Linked lists in a memory

`Linked next p xs` says that following `next` from the pointer `p` runs through `xs` and ends with
a null pointer. A list that is linked both ways is linked along `next` from the front and along
`prev` from the back.
-/

namespace Svr3

open List

variable {α : Type*} {next next' prev prev' : α → Option α} {p q : Option α} {xs ys zs : List α}
  {x b : α}

def Linked (next : α → Option α) : Option α → List α → Prop
  | p, [] => p = none
  | p, x :: xs => p = some x ∧ Linked next (next x) xs

/-- Following `next` from the pointer `p` comes to `x`. -/
def OnList (next : α → Option α) (p : Option α) (x : α) : Prop := ∃ y, p = some y ∧ Reaches next y x

namespace Linked

theorem head (h : Linked next p xs) : p = xs.head? := by
  cases xs with
  | nil => exact h
  | cons x xs => exact h.1

theorem suffix (xs : List α) (h : Linked next p (xs ++ ys)) : Linked next ys.head? ys := by
  induction xs generalizing p with
  | nil =>
    rw [nil_append] at h
    exact h.head ▸ h
  | cons x xs ih => exact ih h.2

theorem next_eq (h : Linked next p (xs ++ x :: ys)) : next x = ys.head? :=
  (suffix xs h).2.head

theorem unique (h : Linked next p xs) (h' : Linked next p ys) : xs = ys := by
  induction xs generalizing p ys with
  | nil =>
    cases ys with
    | nil => rfl
    | cons y ys => exact absurd (h.symm.trans h'.1) nofun
  | cons x xs ih =>
    cases ys with
    | nil => exact absurd (h'.symm.trans h.1) nofun
    | cons y ys =>
      obtain rfl : x = y := Option.some.inj (h.1.symm.trans h'.1)
      rw [ih h.2 h'.2]

/-- A list that comes to an end comes to nothing twice. -/
theorem nodup (h : Linked next p xs) : xs.Nodup := by
  induction xs generalizing p with
  | nil => exact nodup_nil
  | cons x xs ih =>
    refine nodup_cons.mpr ⟨fun hx => ?_, ih h.2⟩
    obtain ⟨ys, zs, rfl⟩ := append_of_mem hx
    have htail : Linked next (next x) zs := (suffix ys h.2).2
    have hlen := congrArg List.length (h.2.unique htail)
    simp only [length_append, length_cons] at hlen
    omega

theorem congr (h : Linked next p xs) (hsame : ∀ x ∈ xs, next' x = next x) : Linked next' p xs := by
  induction xs generalizing p with
  | nil => exact h
  | cons x xs ih =>
    refine ⟨h.1, ?_⟩
    rw [hsame x mem_cons_self]
    exact ih h.2 fun y hy => hsame y (mem_cons_of_mem _ hy)

theorem reaches (h : Linked next p xs) (hx : x ∈ xs) : ∃ y, p = some y ∧ Reaches next y x := by
  induction xs generalizing p with
  | nil => exact absurd hx not_mem_nil
  | cons y xs ih =>
    refine ⟨y, h.1, ?_⟩
    rcases mem_cons.mp hx with rfl | hx
    · exact Relation.ReflTransGen.refl
    · obtain ⟨z, hz, hzx⟩ := ih h.2 hx
      exact hzx.head hz

theorem mem_of_reaches (h : Linked next (some x) xs) (hr : Reaches next x b) : b ∈ xs := by
  induction xs generalizing x with
  | nil => exact absurd h nofun
  | cons y xs ih =>
    obtain rfl : x = y := Option.some.inj h.1
    rcases hr.cases_head with rfl | ⟨z, hz, hzb⟩
    · exact mem_cons_self
    · have hnext : next x = some z := hz
      exact mem_cons_of_mem _ (ih (hnext ▸ h.2) hzb)

theorem onList_iff (h : Linked next p xs) : OnList next p x ↔ x ∈ xs := by
  constructor
  · rintro ⟨y, rfl, hy⟩
    exact h.mem_of_reaches hy
  · exact h.reaches

/-- Another list is linked behind `xs`. -/
theorem graft (h : Linked next p (xs ++ ys)) (h' : Linked next' q zs)
    (hlast : ∀ x, xs.getLast? = some x → next' x = q)
    (hsame : ∀ x ∈ xs, xs.getLast? ≠ some x → next' x = next x) :
    Linked next' (xs ++ zs).head? (xs ++ zs) := by
  induction xs generalizing p with
  | nil => exact h'.head ▸ h'
  | cons x xs ih =>
    refine ⟨rfl, ?_⟩
    rcases xs with _ | ⟨z, xs⟩
    · rw [hlast x rfl]
      exact h'
    · have hx : x ∉ z :: xs := fun hx =>
        (nodup_cons.mp h.nodup).1 (mem_append_left _ hx)
      rw [List.getLast?_cons_cons] at hlast hsame
      rw [hsame x mem_cons_self fun heq => hx (mem_of_getLast? heq), h.2.head]
      exact ih h.2 hlast fun y hy => hsame y (mem_cons_of_mem _ hy)

theorem last_not_mem (h : Linked next p (xs ++ ys)) (hx : x ∈ ys) : xs.getLast? ≠ some x :=
  fun heq => (nodup_append.mp h.nodup).2.2 x (mem_of_getLast? heq) x hx rfl

/-- `b` goes between `xs` and `ys`. -/
theorem insert (h : Linked next p (xs ++ ys)) (hb : next' b = ys.head?)
    (hlast : ∀ x, xs.getLast? = some x → next' x = some b)
    (hsame : ∀ x ∈ xs ++ ys, xs.getLast? ≠ some x → next' x = next x) :
    Linked next' (xs ++ b :: ys).head? (xs ++ b :: ys) := by
  have hys : Linked next' (some b) (b :: ys) := by
    refine ⟨rfl, hb ▸ (suffix xs h).congr fun x hx => ?_⟩
    exact hsame x (mem_append_right _ hx) (h.last_not_mem hx)
  exact h.graft hys hlast fun x hx => hsame x (mem_append_left _ hx)

/-- `b` is taken out from between `xs` and `ys`. -/
theorem remove (h : Linked next p (xs ++ b :: ys))
    (hlast : ∀ x, xs.getLast? = some x → next' x = ys.head?)
    (hsame : ∀ x ∈ xs ++ ys, xs.getLast? ≠ some x → next' x = next x) :
    Linked next' (xs ++ ys).head? (xs ++ ys) := by
  have hys : Linked next' ys.head? ys := by
    apply (suffix [b] (suffix xs h)).congr
    intro x hx
    exact hsame x (mem_append_right _ hx) (h.last_not_mem (mem_cons_of_mem _ hx))
  exact h.graft hys hlast fun x hx => hsame x (mem_append_left _ hx)

end Linked

namespace DLinked

variable {first last : Option α}

end DLinked

end Svr3
