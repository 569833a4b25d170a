import Mathlib.Data.List.Flatten
import Mathlib.Data.List.Perm.Basic

/-!
# Items of owners

Each owner on a list has a list of items. Items come to an owner and leave him, owners without items come and
go, and all items together change by these only, up to their order.
-/

namespace Svr3

open Function List

variable {ι α : Type*} {owners : List ι} {items : ι → List α} {u : ι} {x : α} {xs : List α}

/-- All items of the owners -/
def holdings (owners : List ι) (items : ι → List α) : List α := owners.flatMap items

theorem mem_holdings : x ∈ holdings owners items ↔ ∃ u ∈ owners, x ∈ items u := mem_flatMap

variable [DecidableEq ι]

variable (items) in
/-- The items of one owner and those of the others -/
theorem holdings_split (hu : u ∈ owners) :
    (holdings owners items).Perm (items u ++ holdings (owners.erase u) items) :=
  (perm_cons_erase hu).flatMap_right items

theorem holdings_update (hnodup : owners.Nodup) (hu : u ∈ owners) :
    (holdings owners (update items u xs)).Perm (xs ++ holdings (owners.erase u) items) := by
  apply (holdings_split _ hu).trans
  rw [update_self]
  apply List.Perm.append_left
  have hsame : holdings (owners.erase u) (update items u xs) = holdings (owners.erase u) items := by
    apply flatMap_congr
    intro v hv
    have hne : v ≠ u := by
      rintro rfl
      exact hnodup.not_mem_erase hv
    exact update_of_ne hne _ _
  rw [hsame]

theorem holdings_add (hnodup : owners.Nodup) (hu : u ∈ owners) :
    (holdings owners (update items u (x :: items u))).Perm (x :: holdings owners items) :=
  (holdings_update hnodup hu).trans ((holdings_split _ hu).symm.cons x)

variable (items) in
theorem holdings_erase [DecidableEq α] (hnodup : owners.Nodup) (hu : u ∈ owners) (hx : x ∈ items u) :
    (x :: holdings owners (update items u ((items u).erase x))).Perm (holdings owners items) := by
  apply ((holdings_update hnodup hu).cons x).trans
  apply List.Perm.trans _ (holdings_split _ hu).symm
  exact (perm_cons_erase hx).symm.append_right _

/-- A new owner -/
theorem holdings_new (hu : u ∉ owners) :
    holdings (u :: owners) (update items u []) = holdings owners items := by
  rw [holdings, flatMap_cons, update_self, nil_append]
  apply flatMap_congr
  intro v hv
  exact update_of_ne (ne_of_mem_of_not_mem hv hu) _ _

/-- An owner without items leaves. -/
theorem holdings_leave (hnil : items u = []) :
    (holdings (owners.erase u) items).Perm (holdings owners items) := by
  by_cases hu : u ∈ owners
  · apply List.Perm.symm
    have hsplit := holdings_split items hu
    rw [hnil, nil_append] at hsplit
    exact hsplit
  · rw [erase_of_not_mem hu]

end Svr3
