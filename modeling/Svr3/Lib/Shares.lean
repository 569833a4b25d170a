import Mathlib.Data.List.Count
import Mathlib.Data.List.Nodup

/-!
# Shared references

Several places may refer to one object. Places are let go one after the other, and an object is released when no
other place refers to it.
-/

namespace Svr3.Shares

open Function List

variable {P α : Type*}

/-- All places that refer to `x` are in `as`, and there are some. -/
def Gone (ps as : List P) (ref : P → Option α) (x : α) : Prop :=
  (∃ a ∈ as, ref a = some x) ∧ ∀ b ∈ ps, ref b = some x → b ∈ as

variable {ps as : List P} {ref ref' : P → Option α} {a : P} {x : α}

/-- A place that does not refer to `x` makes no difference. -/
theorem gone_cons (ha : ref a ≠ some x) (h : ∀ c, ref' c = some x ↔ ref c = some x) :
    Gone ps as ref' x ↔ Gone ps (a :: as) ref x := by
  have hne (c : P) (hc : ref c = some x) : c ≠ a := by
    rintro rfl
    exact ha hc
  constructor
  · rintro ⟨⟨c, hc, hxc⟩, hall⟩
    exact ⟨⟨c, mem_cons_of_mem a hc, (h c).mp hxc⟩,
      fun b hb hxb => mem_cons_of_mem a (hall b hb ((h b).mpr hxb))⟩
  · rintro ⟨⟨c, hc, hxc⟩, hall⟩
    exact ⟨⟨c, mem_of_ne_of_mem (hne c hxc) hc, (h c).mpr hxc⟩, fun b hb hxb =>
      mem_of_ne_of_mem (hne b ((h b).mp hxb)) (hall b hb ((h b).mp hxb))⟩

variable [DecidableEq P]

/-- A place that is not the last one to refer to `x` -/
theorem gone_shared (hx : ref a = some x) (hmore : ¬∀ b ∈ ps, ref b = some x → b = a) :
    Gone ps as (update ref a none) x ↔ Gone ps (a :: as) ref x := by
  have hout (c : P) (hc : c ≠ a) : update ref a none c = ref c := update_of_ne hc _ _
  have hat (c : P) (hc : update ref a none c = some x) : c ≠ a := by
    rintro rfl
    rw [update_self] at hc
    exact Option.some_ne_none _ hc.symm
  constructor
  · rintro ⟨-, hall⟩
    refine ⟨⟨a, mem_cons_self, hx⟩, fun b hb hxb => ?_⟩
    by_cases hba : b = a
    · exact mem_cons.mpr (.inl hba)
    · exact mem_cons_of_mem a (hall b hb (by rw [hout b hba, hxb]))
  · rintro ⟨-, hall⟩
    push Not at hmore
    obtain ⟨b, hb, hxb, hba⟩ := hmore
    refine ⟨⟨b, mem_of_ne_of_mem hba (hall b hb hxb), by rw [hout b hba, hxb]⟩, fun c hc hxc => ?_⟩
    have hca := hat c hxc
    rw [hout c hca] at hxc
    exact mem_of_ne_of_mem hca (hall c hc hxc)

variable [DecidableEq α]

instance (ps as : List P) (ref : P → Option α) (x : α) : Decidable (Gone ps as ref x) :=
  inferInstanceAs (Decidable (_ ∧ _))

/-- How many of the places `ps` refer to `x` -/
def refs (ps : List P) (ref : P → Option α) (x : α) : ℕ := ps.countP fun a => ref a = some x

/-- The objects that are released when the places `as` are let go -/
def release (ps : List P) : List P → (P → Option α) → List α
  | [], _ => []
  | a :: as, ref =>
    match ref a with
    | none => release ps as ref
    | some x => (if refs ps ref x ≤ 1 then [x] else []) ++ release ps as (update ref a none)

theorem release_none (as : List P) (ha : ref a = none) : release ps (a :: as) ref = release ps as ref := by
  rw [release, ha]

theorem release_some (as : List P) (ha : ref a = some x) : release ps (a :: as) ref =
    (if refs ps ref x ≤ 1 then [x] else []) ++ release ps as (update ref a none) := by
  rw [release, ha]

theorem refs_le_one (hps : ps.Nodup) (ha : a ∈ ps) (hx : ref a = some x) :
    refs ps ref x ≤ 1 ↔ ∀ b ∈ ps, ref b = some x → b = a := by
  have herase : refs ps ref x = refs (ps.erase a) ref x + 1 := by
    rw [refs, (perm_cons_erase ha).countP_eq, countP_cons_of_pos (by simpa using hx), refs]
  rw [herase, Nat.succ_le_succ_iff, Nat.le_zero, refs, countP_eq_zero]
  constructor
  · intro h b hb hxb
    by_contra hne
    exact h b ((mem_erase_of_ne hne).mpr hb) (decide_eq_true hxb)
  · intro h b hb hxb
    obtain ⟨hne, hb⟩ := hps.mem_erase_iff.mp hb
    exact hne (h b hb (of_decide_eq_true hxb))

/-- An object is released once, if all places that refer to it are let go, and else not at all. -/
theorem count_release (hps : ps.Nodup) (has : as.Nodup) (hsub : as ⊆ ps) (ref : P → Option α) (x : α) :
    (release ps as ref).count x = if Gone ps as ref x then 1 else 0 := by
  induction as generalizing ref with
  | nil => simp [release, Gone]
  | cons a as ih =>
    obtain ⟨hna, has⟩ := nodup_cons.mp has
    rw [cons_subset] at hsub
    cases hra : ref a with
    | none =>
      have hne : ref a ≠ some x := by
        rw [hra]
        exact nofun
      rw [release_none as hra, ih has hsub.2]
      exact if_congr (gone_cons hne fun _ => Iff.rfl) rfl rfl
    | some y =>
      rw [release_some as hra, count_append, ih has hsub.2]
      by_cases hxy : x = y
      · subst hxy
        by_cases hlast : ∀ b ∈ ps, ref b = some x → b = a
        · have hgone : ¬Gone ps as (update ref a none) x := by
            rintro ⟨⟨c, hc, hxc⟩, -⟩
            have hca : c ≠ a := ne_of_mem_of_not_mem hc hna
            rw [update_of_ne hca] at hxc
            exact hca (hlast c (hsub.2 hc) hxc)
          have hgone' : Gone ps (a :: as) ref x :=
            ⟨⟨a, mem_cons_self, hra⟩, fun b hb hxb => mem_cons.mpr (.inl (hlast b hb hxb))⟩
          rw [if_pos ((refs_le_one hps hsub.1 hra).mpr hlast), if_neg hgone, if_pos hgone']
          simp
        · rw [if_neg fun hle => hlast ((refs_le_one hps hsub.1 hra).mp hle)]
          rw [count_nil, Nat.zero_add]
          exact if_congr (gone_shared hra hlast) rfl rfl
      · have hne : ref a ≠ some x := by
          rw [hra]
          exact fun h => hxy (Option.some.inj h).symm
        have hsame (c : P) : update ref a none c = some x ↔ ref c = some x := by
          by_cases hca : c = a
          · subst hca
            rw [update_self]
            exact iff_of_false nofun hne
          · rw [update_of_ne hca]
        have hzero : (if refs ps ref y ≤ 1 then [y] else []).count x = 0 := by
          split
          · rw [count_singleton, if_neg (by simpa using fun h : y = x => hxy h.symm)]
          · rfl
        rw [hzero, Nat.zero_add]
        exact if_congr (gone_cons hne hsame) rfl rfl

end Svr3.Shares
