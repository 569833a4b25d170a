import Mathlib.Order.Basic
import Svr3.Lib.Run
import Svr3.Nudnix.AuthIdmap

/-!
# Lookups in id tables

A table stands for a list of ids and ranges. `glid` answers with the local id of one that contains the remote id,
and what `rglid` answers for a local id is in an id or a range of this local id, whatever was looked up before.
-/

namespace Svr3.Auth

open Function List

/-- A remote id or a range of them, with the local id -/
inductive Entry
  | id (r l : ℕ)
  | range (a b l : ℕ)

namespace Entry

def first : Entry → ℕ
  | .id r _ => r
  | .range a _ _ => a

def last : Entry → ℕ
  | .id r _ => r
  | .range _ b _ => b

def loc : Entry → ℕ
  | .id _ l => l
  | .range _ _ l => l

def Has (e : Entry) (r : ℕ) : Prop := e.first ≤ r ∧ r ≤ e.last

/-- The records of a table -/
def recs : Entry → List Idtab
  | .id r l => [⟨r, l⟩]
  | .range a b l => [⟨a, uf⟩, ⟨b, l⟩]

end Entry

/-- The entries are sorted by their remote ids, and `UF` is no local id. -/
structure Sorted (es : List Entry) : Prop where
  loc : ∀ e ∈ es, e.loc ≠ uf
  range : ∀ e ∈ es, e.first ≤ e.last
  order : es.Pairwise fun e e' => e.last ≤ e'.first

/-- No remote id is in two entries. -/
abbrev Single (es : List Entry) : Prop := es.Pairwise fun e e' => e.last < e'.first

/-- The records from `lo` to `hi` are sorted, and where a range begins the next one is its end. -/
structure Table (tab : ℕ → Idtab) (lo hi : ℕ) : Prop where
  step : ∀ i, lo ≤ i → i + 1 < hi → (tab i).i_rem ≤ (tab (i + 1)).i_rem
  range : ∀ i, lo ≤ i → i < hi → (tab i).i_loc = uf → i + 1 < hi ∧ (tab (i + 1)).i_loc ≠ uf

/-- The entry at the record `i` contains `r` and has the local id `l`. -/
def At (tab : ℕ → Idtab) (i r l : ℕ) : Prop :=
  (tab i).i_loc ≠ uf ∧ (tab i).i_rem = r ∧ (tab i).i_loc = l ∨
    (tab i).i_loc = uf ∧ (tab i).i_rem ≤ r ∧ r ≤ (tab (i + 1)).i_rem ∧ (tab (i + 1)).i_loc = l

namespace Table

variable {tab : ℕ → Idtab} {lo hi i j r l : ℕ}

theorem mono (h : Table tab lo hi) (hlo : lo ≤ i) (hij : i ≤ j) (hj : j < hi) :
    (tab i).i_rem ≤ (tab j).i_rem := by
  induction hij with
  | refl => exact Nat.le_refl _
  | step hij ih => exact Nat.le_trans (ih (by omega)) (h.step _ (Nat.le_trans hlo hij) hj)

theorem le_rem (hat : At tab i r l) : (tab i).i_rem ≤ r := by
  rcases hat with ⟨-, rfl, -⟩ | ⟨-, hle, -⟩
  · exact Nat.le_refl _
  · exact hle

/-- An entry before the record `j` has no remote ids beyond it. -/
theorem rem_le (h : Table tab lo hi) (hat : At tab i r l) (hlo : lo ≤ i) (hij : i < j) (hj : j < hi) :
    r ≤ (tab j).i_rem := by
  rcases hat with ⟨-, rfl, -⟩ | ⟨-, -, hle, -⟩
  · exact h.mono hlo (Nat.le_of_lt hij) hj
  · exact Nat.le_trans hle (h.mono (by omega) hij hj)

theorem rem_le_last (h : Table tab lo hi) (hat : At tab i r l) (hlo : lo ≤ i) (hi' : i < hi) :
    r ≤ (tab (hi - 1)).i_rem := by
  by_cases hlast : i = hi - 1
  · rcases hat with ⟨-, rfl, -⟩ | ⟨hloc, -⟩
    · exact Nat.le_of_eq (by rw [hlast])
    · have hnext := (h.range i hlo hi' hloc).1
      omega
  · exact h.rem_le hat hlo (by omega) (by omega)

theorem check_found (h : Table tab lo hi) {c v : ℕ} (hlo : lo ≤ c) (hc : c < hi)
    (hfirst : c = lo → (tab c).i_rem ≤ v) (hcheck : check tab c v = .found l) :
    ∃ i, lo ≤ i ∧ i < hi ∧ At tab i v l := by
  rw [check] at hcheck
  split at hcheck
  next heq =>
    split at hcheck
    next hloc =>
      obtain rfl := Check.found.inj hcheck
      have hnext := h.range c hlo hc hloc
      exact ⟨c, hlo, hc, .inr ⟨hloc, Nat.le_of_eq heq, heq ▸ h.step c hlo hnext.1, rfl⟩⟩
    next hloc => exact ⟨c, hlo, hc, .inl ⟨hloc, heq, Check.found.inj hcheck⟩⟩
  next hne =>
    split at hcheck
    next hlt =>
      split at hcheck
      next hr => exact ⟨c, hlo, hc, .inr ⟨hr.1, Nat.le_of_lt hlt, hr.2, Check.found.inj hcheck⟩⟩
      next => exact absurd hcheck nofun
    next hge =>
      split at hcheck
      next hr =>
        -- the range that ends here began at the record before, which is one of the table
        have hpos : lo < c := by
          rcases Nat.lt_or_eq_of_le hlo with hlt | heq
          · exact hlt
          · have hle := hfirst heq.symm
            omega
        have hc1 : c - 1 + 1 = c := by omega
        refine ⟨c - 1, by omega, by omega, .inr ⟨hr.1, hr.2, ?_, ?_⟩⟩
        · rw [hc1]
          omega
        · rw [hc1]
          exact Check.found.inj hcheck
      next => exact absurd hcheck nofun

theorem check_lower {c v : ℕ} (hcheck : check tab c v = .lower) :
    (tab c).i_rem < v ∧ ∀ l, ¬ At tab c v l := by
  rw [check] at hcheck
  split at hcheck
  next =>
    split at hcheck
    next => exact absurd hcheck nofun
    next => exact absurd hcheck nofun
  next hne =>
    split at hcheck
    next hlt =>
      split at hcheck
      next => exact absurd hcheck nofun
      next hr =>
        refine ⟨hlt, fun l hat => ?_⟩
        rcases hat with ⟨-, heq, -⟩ | ⟨hloc, -, hle, -⟩
        · exact hne heq
        · exact hr ⟨hloc, hle⟩
    next =>
      split at hcheck
      next => exact absurd hcheck nofun
      next => exact absurd hcheck nofun

theorem check_higher {c v : ℕ} (hcheck : check tab c v = .higher) : v < (tab c).i_rem := by
  rw [check] at hcheck
  split at hcheck
  next =>
    split at hcheck
    next => exact absurd hcheck nofun
    next => exact absurd hcheck nofun
  next hne =>
    split at hcheck
    next =>
      split at hcheck
      next => exact absurd hcheck nofun
      next => exact absurd hcheck nofun
    next hge => omega

/-- The local id of an entry that contains `v`, or `ret` when there is none -/
def Answer (tab : ℕ → Idtab) (lo hi v ret : ℕ) (r : Option ℕ) : Prop :=
  (∃ i l, lo ≤ i ∧ i < hi ∧ At tab i v l ∧ r = some l) ∨
    r = some ret ∧ ∀ i l, lo ≤ i → i < hi → ¬ At tab i v l

/-- The loop keeps an entry below `v` and a record above it, and comes to an answer. -/
theorem halve_spec (h : Table tab lo hi) {fuel low high v ret : ℕ} (hlo : lo ≤ low) (hlt : low < high)
    (hhi : high < hi) (hlow : (tab low).i_rem < v ∧ ∀ l, ¬ At tab low v l)
    (hhigh : v < (tab high).i_rem) (hfuel : high - low ≤ fuel) :
    Answer tab lo hi v ret (halve tab v ret fuel low high) := by
  induction fuel generalizing low high with
  | zero => omega
  | succ fuel ih =>
    rw [halve]
    by_cases hgap : high - low > 1
    · rw [if_pos hgap]
      dsimp only
      have hmid : low < (high - low) / 2 + low ∧ (high - low) / 2 + low < high := by omega
      cases hcheck : check tab ((high - low) / 2 + low) v with
      | found l =>
        obtain ⟨i, hi1, hi2, hat⟩ := h.check_found (by omega) (by omega) (by omega) hcheck
        exact .inl ⟨i, l, hi1, hi2, hat, rfl⟩
      | lower => exact ih (by omega) hmid.2 hhi (check_lower hcheck) hhigh (by omega)
      | higher => exact ih hlo hmid.1 (by omega) hlow (check_higher hcheck) (by omega)
    · rw [if_neg hgap]
      refine .inr ⟨rfl, fun i l hi1 hi2 hat => ?_⟩
      rcases Nat.lt_trichotomy i low with hil | rfl | hil
      · have hle := h.rem_le hat hi1 hil (by omega)
        omega
      · exact hlow.2 l hat
      · have hle := h.mono (show lo ≤ high by omega) (show high ≤ i by omega) hi2
        have hle' := le_rem hat
        omega

end Table

/-- What `glid` answers in a table -/
theorem Idmap.glid_spec {idt : Idmap} {fuel v : ℕ}
    (h : Table idt.tab idt.i_cend (idt.i_cend + idt.i_size)) (hfuel : idt.i_size < fuel) :
    Table.Answer idt.tab idt.i_cend (idt.i_cend + idt.i_size) v
      (if idt.i_default ≠ 0 then idt.i_default else v) (idt.glid fuel v) := by
  rw [Idmap.glid]
  dsimp only
  by_cases hz : idt.i_size = 0
  · rw [if_pos hz]
    exact .inr ⟨rfl, fun i l hi1 hi2 => by omega⟩
  rw [if_neg hz]
  have hlast : idt.i_size + idt.i_cend - 1 = idt.i_cend + idt.i_size - 1 := by omega
  by_cases hout : v < (idt.tab idt.i_cend).i_rem ∨ v > (idt.tab (idt.i_size + idt.i_cend - 1)).i_rem
  · rw [if_pos hout]
    refine .inr ⟨rfl, fun i l hi1 hi2 hat => ?_⟩
    rw [hlast] at hout
    have hle := h.rem_le_last hat hi1 hi2
    have hle' := h.mono (Nat.le_refl _) hi1 hi2
    have hle'' := Table.le_rem hat
    omega
  rw [if_neg hout]
  cases hcl : check idt.tab idt.i_cend v with
  | found l =>
    obtain ⟨i, hi1, hi2, hat⟩ := h.check_found (Nat.le_refl _) (by omega) (by omega) hcl
    exact .inl ⟨i, l, hi1, hi2, hat, rfl⟩
  | higher =>
    have hgt := Table.check_higher hcl
    omega
  | lower =>
    have hlow := Table.check_lower hcl
    cases hch : check idt.tab (idt.i_size + idt.i_cend - 1) v with
    | found l =>
      obtain ⟨i, hi1, hi2, hat⟩ := h.check_found (by omega) (by omega) (by
        intro heq
        rw [heq]
        omega) hch
      exact .inl ⟨i, l, hi1, hi2, hat, rfl⟩
    | lower =>
      have hlt := (Table.check_lower hch).1
      omega
    | higher =>
      have hgt := Table.check_higher hch
      have hne : idt.i_cend ≠ idt.i_size + idt.i_cend - 1 := by
        intro heq
        rw [← heq] at hgt
        omega
      exact h.halve_spec (Nat.le_refl _) (by omega) (by omega) hlow hgt (by omega)

/-! ## The records of entries -/

/-- The records `xs` are at `lo`. -/
def Lays (tab : ℕ → Idtab) : ℕ → List Idtab → Prop
  | _, [] => True
  | lo, x :: xs => tab lo = x ∧ Lays tab (lo + 1) xs

theorem Lays.congr {tab tab' : ℕ → Idtab} {lo : ℕ} {xs : List Idtab} (h : Lays tab lo xs)
    (hsame : ∀ i, lo ≤ i → i < lo + xs.length → tab' i = tab i) : Lays tab' lo xs := by
  induction xs generalizing lo with
  | nil => trivial
  | cons x xs ih =>
    rw [length_cons] at hsame
    exact ⟨(hsame lo (Nat.le_refl _) (by omega)).trans h.1,
      ih h.2 fun i hi hlt => hsame i (by omega) (by omega)⟩

theorem lays_getD {recs : List Idtab} {d tab : ℕ → Idtab} {lo : ℕ}
    (h : ∀ i, lo ≤ i → tab i = recs.getD (i - lo) (d i)) : Lays tab lo recs := by
  induction recs generalizing lo with
  | nil => trivial
  | cons x xs ih =>
    refine ⟨?_, ih fun i hi => ?_⟩
    · rw [h lo (Nat.le_refl _), Nat.sub_self]
      rfl
    · have hsub : i - lo = (i - (lo + 1)) + 1 := by omega
      rw [h i (by omega), hsub]
      rfl

theorem Table.cons {tab : ℕ → Idtab} {lo hi : ℕ} (h : Table tab (lo + 1) hi)
    (hstep : lo + 1 < hi → (tab lo).i_rem ≤ (tab (lo + 1)).i_rem)
    (hrange : (tab lo).i_loc = uf → lo + 1 < hi ∧ (tab (lo + 1)).i_loc ≠ uf) : Table tab lo hi := by
  refine ⟨fun i hi1 hi2 => ?_, fun i hi1 hi2 hloc => ?_⟩
  · rcases Nat.lt_or_eq_of_le hi1 with hlt | rfl
    · exact h.step i hlt hi2
    · exact hstep hi2
  · rcases Nat.lt_or_eq_of_le hi1 with hlt | rfl
    · exact h.range i hlt hi2 hloc
    · exact hrange hloc

namespace Sorted

variable {tab : ℕ → Idtab} {lo r l : ℕ} {e : Entry} {es : List Entry}

theorem tail (h : Sorted (e :: es)) : Sorted es :=
  ⟨fun x hx => h.loc x (mem_cons_of_mem _ hx), fun x hx => h.range x (mem_cons_of_mem _ hx),
    (pairwise_cons.mp h.order).2⟩

/-- The first record of the rest is not below the entry. -/
theorem le_head (h : Sorted (e :: es)) (hl : Lays tab lo (es.flatMap Entry.recs))
    (hne : lo < lo + (es.flatMap Entry.recs).length) : e.last ≤ (tab lo).i_rem := by
  cases es with
  | nil => exact absurd hne (Nat.lt_irrefl _)
  | cons e' es =>
    have hle := (pairwise_cons.mp h.order).1 e' mem_cons_self
    cases e' with
    | id r l => exact hl.1.symm ▸ hle
    | range a b l => exact hl.1.symm ▸ hle

theorem table (h : Sorted es) (hl : Lays tab lo (es.flatMap Entry.recs)) :
    Table tab lo (lo + (es.flatMap Entry.recs).length) := by
  induction es generalizing lo with
  | nil => exact ⟨fun i hi1 hi2 => absurd hi2 (by simp; omega), fun i hi1 hi2 => absurd hi2 (by simp; omega)⟩
  | cons e es ih =>
    rw [flatMap_cons] at hl ⊢
    cases e with
    | id r l =>
      obtain ⟨hhead, hrest⟩ := hl
      have hlen : lo + (Entry.recs (.id r l) ++ es.flatMap Entry.recs).length =
          lo + 1 + (es.flatMap Entry.recs).length := by
        rw [length_append, ← Nat.add_assoc]
        rfl
      rw [hlen]
      refine (ih h.tail hrest).cons (fun hlt => ?_) (fun hloc => ?_)
      · rw [hhead]
        exact h.le_head hrest hlt
      · rw [hhead] at hloc
        exact absurd hloc (h.loc _ mem_cons_self)
    | range a b l =>
      obtain ⟨hhead, hend, hrest⟩ := hl
      have hlen : lo + (Entry.recs (.range a b l) ++ es.flatMap Entry.recs).length =
          lo + 1 + 1 + (es.flatMap Entry.recs).length := by
        rw [length_append, ← Nat.add_assoc]
        rfl
      have hloc : (tab (lo + 1)).i_loc ≠ uf := by
        rw [hend]
        exact h.loc _ mem_cons_self
      rw [hlen]
      refine ((ih h.tail hrest).cons (fun hlt => ?_) (fun huf => absurd huf hloc)).cons
        (fun _ => ?_) (fun _ => ⟨by omega, hloc⟩)
      · rw [hend]
        exact h.le_head hrest hlt
      · rw [hhead, hend]
        exact h.range _ mem_cons_self

theorem exists_from {P : ℕ → Prop} {lo n : ℕ} : (∃ i, lo ≤ i ∧ i < lo + (n + 1) ∧ P i) ↔
    P lo ∨ ∃ i, lo + 1 ≤ i ∧ i < lo + 1 + n ∧ P i := by
  constructor
  · rintro ⟨i, hi1, hi2, hP⟩
    rcases Nat.lt_or_eq_of_le hi1 with hlt | rfl
    · exact .inr ⟨i, hlt, by omega, hP⟩
    · exact .inl hP
  · rintro (hP | ⟨i, hi1, hi2, hP⟩)
    · exact ⟨lo, Nat.le_refl _, by omega, hP⟩
    · exact ⟨i, by omega, by omega, hP⟩

theorem at_id {i r' l' : ℕ} (ht : tab i = ⟨r', l'⟩) (hloc : l' ≠ uf) :
    At tab i r l ↔ r' = r ∧ l' = l := by
  rw [At, ht]
  constructor
  · rintro (⟨-, hr, hl⟩ | ⟨hu, -⟩)
    · exact ⟨hr, hl⟩
    · exact absurd hu hloc
  · rintro ⟨hr, hl⟩
    exact .inl ⟨hloc, hr, hl⟩

theorem at_range {i a b l' : ℕ} (ht : tab i = ⟨a, uf⟩) (ht' : tab (i + 1) = ⟨b, l'⟩) :
    At tab i r l ↔ (a ≤ r ∧ r ≤ b) ∧ l' = l := by
  rw [At, ht, ht']
  constructor
  · rintro (⟨hu, -⟩ | ⟨-, hle, hge, hl⟩)
    · exact absurd rfl hu
    · exact ⟨⟨hle, hge⟩, hl⟩
  · rintro ⟨⟨hle, hge⟩, hl⟩
    exact .inr ⟨rfl, hle, hge, hl⟩

/-- The records at which a remote id is found are those of the entries that have it. -/
theorem at_iff (h : Sorted es) (hl : Lays tab lo (es.flatMap Entry.recs)) :
    (∃ i, lo ≤ i ∧ i < lo + (es.flatMap Entry.recs).length ∧ At tab i r l) ↔
      ∃ e ∈ es, e.Has r ∧ e.loc = l := by
  induction es generalizing lo with
  | nil =>
    constructor
    · rintro ⟨i, hi1, hi2, -⟩
      exact absurd hi2 (by simp; omega)
    · rintro ⟨e, he, -⟩
      exact absurd he not_mem_nil
  | cons e es ih =>
    rw [flatMap_cons] at hl ⊢
    rw [length_append]
    simp only [mem_cons, exists_eq_or_imp]
    have hloc := h.loc e mem_cons_self
    cases e with
    | id r' l' =>
      obtain ⟨hhead, hrest⟩ := hl
      have hlen : (Entry.recs (.id r' l')).length + (es.flatMap Entry.recs).length =
          (es.flatMap Entry.recs).length + 1 := Nat.add_comm _ _
      rw [hlen, exists_from, ih h.tail hrest, at_id hhead hloc]
      apply or_congr_left
      change r' = r ∧ l' = l ↔ (r' ≤ r ∧ r ≤ r') ∧ l' = l
      rw [Nat.le_antisymm_iff]
    | range a b l' =>
      obtain ⟨hhead, hend, hrest⟩ := hl
      have hlen : (Entry.recs (.range a b l')).length + (es.flatMap Entry.recs).length =
          (es.flatMap Entry.recs).length + 1 + 1 := Nat.add_comm _ _
      rw [hlen, exists_from, exists_from, ih h.tail hrest, at_range hhead hend, at_id hend hloc,
        ← or_assoc]
      apply or_congr_left
      change (a ≤ r ∧ r ≤ b) ∧ l' = l ∨ b = r ∧ l' = l ↔ (a ≤ r ∧ r ≤ b) ∧ l' = l
      have hrange : a ≤ b := h.range _ mem_cons_self
      constructor
      · rintro (hin | ⟨rfl, hl⟩)
        · exact hin
        · exact ⟨⟨hrange, Nat.le_refl _⟩, hl⟩
      · exact .inl

end Sorted

/-! ## Histories of lookups -/

/-- A table that stands for `es`, with what was found before in its cache -/
structure Holds (es : List Entry) (i_defval : ℕ) (idt : Idmap) : Prop where
  default : idt.i_default = i_defval
  size : idt.i_size = (es.flatMap Entry.recs).length
  cend : idt.i_cend = headsize + cachesize
  next : headsize ≤ idt.i_next ∧ idt.i_next < idt.i_cend
  lays : Lays idt.tab idt.i_cend (es.flatMap Entry.recs)
  cache : ∀ i, headsize ≤ i → i < idt.i_cend →
    (idt.tab i).i_loc = uf ∨ ∃ e ∈ es, e.Has (idt.tab i).i_rem ∧ e.loc = (idt.tab i).i_loc

namespace Holds

variable {es : List Entry} {i_defval l r : ℕ} {idt : Idmap}

theorem setidmap (old : ℕ → Idtab) (i_defval : ℕ) (es : List Entry) :
    Holds es i_defval (Auth.setidmap old i_defval (es.flatMap Entry.recs)) := by
  refine ⟨rfl, rfl, rfl, ⟨Nat.le_refl _, Nat.lt_add_of_pos_right (by decide)⟩, lays_getD (d := old) fun i hi => ?_,
    fun i hi1 hi2 => .inl ?_⟩
  · have hle : headsize + cachesize ≤ i := hi
    rw [Auth.setidmap]
    dsimp only
    rw [if_neg (by omega), if_neg (Nat.not_lt.mpr hle)]
  · have hlt : i < headsize + cachesize := hi2
    rw [Auth.setidmap]
    dsimp only
    rw [if_neg (Nat.not_lt.mpr hi1), if_pos hlt]

theorem glid_spec (hes : Sorted es) (h : Holds es i_defval idt) {fuel : ℕ} (hfuel : idt.i_size < fuel) :
    (∃ e ∈ es, e.Has r ∧ idt.glid fuel r = some e.loc) ∨
      idt.glid fuel r = some (if i_defval ≠ 0 then i_defval else r) ∧ ∀ e ∈ es, ¬ e.Has r := by
  have htable := hes.table h.lays
  rw [← h.size] at htable
  have hiff {l : ℕ} := hes.at_iff (r := r) (l := l) h.lays
  rw [← h.size] at hiff
  rcases idt.glid_spec (v := r) htable hfuel with ⟨i, l, hi1, hi2, hat, hr⟩ | ⟨hr, hnone⟩
  · obtain ⟨e, he, hhas, rfl⟩ := hiff.mp ⟨i, hi1, hi2, hat⟩
    exact .inl ⟨e, he, hhas, hr⟩
  · rw [h.default] at hr
    refine .inr ⟨hr, fun e he hhas => ?_⟩
    obtain ⟨i, hi1, hi2, hat⟩ := hiff.mpr ⟨e, he, hhas, rfl⟩
    exact hnone i _ hi1 hi2 hat

/-- What the scan finds for a local id is in an entry of this local id. -/
theorem scan (hes : Sorted es) (h : Holds es i_defval idt) {low : ℕ} (hl : l ≠ uf)
    (hscan : idt.scan l = some low) : ∃ e ∈ es, e.Has (idt.tab low).i_rem ∧ e.loc = l := by
  have htable := hes.table h.lays
  have hin := mem_of_find?_eq_some hscan
  have hp := List.find?_some hscan
  simp only [decide_eq_true_eq] at hp
  obtain ⟨hlo, hhi⟩ := mem_range'_1.mp hin
  rw [← h.cend] at hlo hhi
  rw [h.size] at hhi
  apply (hes.at_iff h.lays).mp
  refine ⟨low, hlo, hhi, ?_⟩
  rcases hp with hloc | ⟨hloc, hend⟩
  · exact .inl ⟨hloc ▸ hl, rfl, hloc⟩
  · exact .inr ⟨hloc, Nat.le_refl _, htable.step low hlo (htable.range low hlo hhi hloc).1, hend⟩

/-- The scan finds a local id that occurs. -/
theorem scan_isSome (hes : Sorted es) (h : Holds es i_defval idt) {e : Entry} (he : e ∈ es) :
    ∃ low, idt.scan e.loc = some low := by
  apply Option.isSome_iff_exists.mp
  obtain ⟨i, hi1, hi2, hat⟩ :=
    (hes.at_iff h.lays).mpr ⟨e, he, ⟨Nat.le_refl _, hes.range e he⟩, rfl⟩
  rw [Idmap.scan, List.find?_isSome]
  refine ⟨i, mem_range'_1.mpr ?_, decide_eq_true ?_⟩
  · rw [← h.cend, h.size]
    exact ⟨hi1, hi2⟩
  · rcases hat with ⟨-, -, hloc⟩ | ⟨hloc, -, -, hend⟩
    · exact .inl hloc
    · exact .inr ⟨hloc, hend⟩

/-- A new record in the cache -/
theorem insert (h : Holds es i_defval idt) {x : Idtab} {n : ℕ}
    (hx : x.i_loc = uf ∨ ∃ e ∈ es, e.Has x.i_rem ∧ e.loc = x.i_loc)
    (hn : headsize ≤ n ∧ n < idt.i_cend) :
    Holds es i_defval { idt with tab := update idt.tab idt.i_next x, i_next := n } := by
  refine ⟨h.default, h.size, h.cend, hn, h.lays.congr fun i hi _ => ?_, fun i hi1 hi2 => ?_⟩
  · have hlt := h.next.2
    exact update_of_ne (by omega) _ _
  · dsimp only
    by_cases hin : i = idt.i_next
    · rw [hin, update_self]
      exact hx
    · rw [update_of_ne hin]
      exact h.cache i hi1 hi2

theorem tries (h : Holds es i_defval idt) (m n : ℕ) :
    Holds es i_defval { idt with i_tries := m, i_hits := n } :=
  ⟨h.default, h.size, h.cend, h.next, h.lays, h.cache⟩

/-- A lookup keeps the table, and its answer for a local id that occurs is in an entry of this id. -/
theorem rglid_spec (hes : Sorted es) (h : Holds es i_defval idt) :
    Holds es i_defval (idt.rglid l).2 ∧ (l ≠ uf → (∃ e ∈ es, e.loc = l) →
      ∃ e ∈ es, e.Has (idt.rglid l).1 ∧ e.loc = l) := by
  rw [Idmap.rglid]
  dsimp only
  by_cases hz : idt.i_size = 0
  · rw [if_pos hz]
    refine ⟨h, ?_⟩
    rintro - ⟨e, he, rfl⟩
    obtain ⟨low, hscan⟩ := h.scan_isSome hes he
    rw [Idmap.scan, hz] at hscan
    exact absurd hscan nofun
  rw [if_neg hz]
  have h1 := h.tries ((idt.i_tries + 1) % 2 ^ 32) idt.i_hits
  cases hc : ({ idt with i_tries := (idt.i_tries + 1) % 2 ^ 32 } : Idmap).cached l with
  | some low =>
    refine ⟨h.tries _ _, fun hl _ => ?_⟩
    have hloc := List.find?_some hc
    simp only [decide_eq_true_eq] at hloc
    obtain ⟨hlo, hhi⟩ := mem_range'_1.mp (mem_of_find?_eq_some hc)
    rcases h1.cache low hlo (h.cend ▸ hhi) with huf | he
    · exact absurd (hloc.symm.trans huf) hl
    · rw [hloc] at he
      exact he
  | none =>
    cases hs : ({ idt with i_tries := (idt.i_tries + 1) % 2 ^ 32 } : Idmap).scan l with
    | some low =>
      dsimp only
      have hin (hl : l ≠ uf) := h1.scan hes hl hs
      refine ⟨h1.insert (x := ⟨(idt.tab low).i_rem, l⟩) ?_ ?_, fun hl _ => hin hl⟩
      · by_cases hl : l = uf
        · exact .inl hl
        · exact .inr (hin hl)
      · have hnext := h.next
        have hcend := h.cend
        dsimp only
        rw [headsize, cachesize] at *
        split <;> omega
    | none =>
      refine ⟨h1, fun _ hex => ?_⟩
      obtain ⟨e, he, rfl⟩ := hex
      obtain ⟨low, hscan⟩ := h1.scan_isSome hes he
      exact absurd (hs.symm.trans hscan) nofun

end Holds

/-- A lookup for a machine: `glid` changes nothing, and `rglid` the table it looks in. -/
inductive Lookup
  | glid (dev : ℕ) (gp : Option Gdp) (rid : ℕ)
  | rglid (dev : ℕ) (gp : Option Gdp) (rid : ℕ)

def Maps.next (s : Maps) : Lookup → Maps
  | .glid _ _ _ => s
  | .rglid dev gp rid => (Auth.rglid s dev gp rid).2

theorem Holds.lookup {es : List Entry} {i_defval idt : ℕ} {s : Maps} (hes : Sorted es)
    (h : Holds es i_defval (s.map idt)) (a : Lookup) : Holds es i_defval ((s.next a).map idt) := by
  cases a with
  | glid dev gp rid => exact h
  | rglid dev gp rid =>
    rw [Maps.next, Auth.rglid]
    cases s.table dev gp with
    | none => exact h
    | some idt' =>
      dsimp only
      by_cases hidt : idt = idt'
      · subst hidt
        rw [update_self]
        exact (h.rglid_spec hes).1
      · rw [update_of_ne hidt]
        exact h

/-- Lookups in a table for `es` are faithful. -/
structure Faithful (es : List Entry) (i_defval dev : ℕ) (gp : Option Gdp) (s : Maps) : Prop where
  found : ∀ r fuel, (es.flatMap Entry.recs).length < fuel → (∃ e ∈ es, e.Has r) →
    ∃ e ∈ es, e.Has r ∧ glid s fuel dev gp r = some e.loc
  default : ∀ r fuel, (es.flatMap Entry.recs).length < fuel → (∀ e ∈ es, ¬ e.Has r) →
    glid s fuel dev gp r = some (if i_defval ≠ 0 then i_defval else r)
  back : ∀ l, l ≠ uf → (∃ e ∈ es, e.loc = l) →
    (∃ e ∈ es, e.Has (rglid s dev gp l).1 ∧ e.loc = l) ∧
      (Single es → ∀ fuel, (es.flatMap Entry.recs).length < fuel →
        glid (rglid s dev gp l).2 fuel dev gp (rglid s dev gp l).1 = some l)

theorem Single.eq {es : List Entry} (h : Single es) {e e' : Entry} {r : ℕ} (he : e ∈ es) (he' : e' ∈ es)
    (hr : e.Has r) (hr' : e'.Has r) : e = e' := by
  by_contra hne
  have hsymm : Std.Symm fun e e' : Entry => e.last < e'.first ∨ e'.last < e.first :=
    ⟨fun _ _ hlt => hlt.symm⟩
  have hapart : e.last < e'.first ∨ e'.last < e.first :=
    (h.imp fun hlt => .inl hlt : es.Pairwise fun e e' => e.last < e'.first ∨ e'.last < e.first).forall
      he he' hne
  obtain ⟨h1, h2⟩ := hr
  obtain ⟨h3, h4⟩ := hr'
  omega

theorem Holds.faithful {es : List Entry} {i_defval idt dev : ℕ} {gp : Option Gdp} {s : Maps}
    (hes : Sorted es) (h : Holds es i_defval (s.map idt)) (ht : s.table dev gp = some idt) :
    Faithful es i_defval dev gp s := by
  have hglid (fuel r : ℕ) : glid s fuel dev gp r = (s.map idt).glid fuel r := by
    rw [Auth.glid, ht]
  refine ⟨fun r fuel hfuel hex => ?_, fun r fuel hfuel hnone => ?_, fun l hl hex => ?_⟩
  · rw [hglid]
    rcases h.glid_spec hes (h.size ▸ hfuel) with hin | ⟨-, hnone⟩
    · exact hin
    · obtain ⟨e, he, hr⟩ := hex
      exact absurd hr (hnone e he)
  · rw [hglid]
    rcases h.glid_spec hes (h.size ▸ hfuel) with ⟨e, he, hr, -⟩ | ⟨hr, -⟩
    · exact absurd hr (hnone e he)
    · exact hr
  · have hr : rglid s dev gp l =
        (((s.map idt).rglid l).1, { s with map := update s.map idt ((s.map idt).rglid l).2 }) := by
      rw [Auth.rglid, ht]
    have hk := h.rglid_spec (l := l) hes
    obtain ⟨e, he, hhas, hloc⟩ := hk.2 hl hex
    rw [hr]
    refine ⟨⟨e, he, hhas, hloc⟩, fun hsingle fuel hfuel => ?_⟩
    rw [Auth.glid]
    have ht' : ({ s with map := update s.map idt ((s.map idt).rglid l).2 } : Maps).table dev gp =
        some idt := ht
    rw [ht']
    dsimp only
    rw [update_self]
    rcases hk.1.glid_spec (r := ((s.map idt).rglid l).1) hes (hk.1.size ▸ hfuel) with
      ⟨e', he', hhas', hglid'⟩ | ⟨-, hnone⟩
    · rw [hglid', ← hsingle.eq he he' hhas hhas', hloc]
    · exact absurd hhas (hnone e he)

theorem lookup_faithful {es : List Entry} (hes : Sorted es) {i_defval idt : ℕ} {old : ℕ → Idtab}
    {s : Maps} (hs : s.map idt = setidmap old i_defval (es.flatMap Entry.recs)) {as : List Lookup}
    {t : Maps} (hrun : Run (fun s a t => s.next a = t) s as t) {dev : ℕ} {gp : Option Gdp}
    (ht : t.table dev gp = some idt) : Faithful es i_defval dev gp t := by
  have hholds : Holds es i_defval (t.map idt) := by
    apply hrun.invariant (I := fun s => Holds es i_defval (s.map idt))
    · rintro s a t h rfl
      exact h.lookup hes a
    · rw [hs]
      exact .setidmap old i_defval es
  exact hholds.faithful hes ht

/-- Two single ids and two ranges that touch, in the global table -/
def touching : List Entry := [.id 3 70, .range 5 10 71, .range 11 20 72, .id 40 70]

def global : Maps where
  global := fun _ => some 0
  map := fun _ => setidmap (fun _ => ⟨9, 9⟩) 0 (touching.flatMap Entry.recs)

theorem lookup_faithful_touching : Single touching ∧ ∃ t,
    Run (fun s a t => s.next a = t) global [.rglid 0 none 72, .glid 0 none 7, .rglid 0 none uf] t ∧
      ((t.map 0).tab headsize).i_loc = 72 ∧ Faithful touching 0 1 none t := by
  have hsorted : Sorted touching := ⟨by decide, by decide, by decide⟩
  have hrun : Run (fun s a t => Maps.next s a = t) global [.rglid 0 none 72, .glid 0 none 7, .rglid 0 none uf]
      (((global.next (.rglid 0 none 72)).next (.glid 0 none 7)).next (.rglid 0 none uf)) :=
    .cons rfl (.cons rfl (.cons rfl (.nil _)))
  exact ⟨by decide, _, hrun, by decide, @lookup_faithful _ hsorted _ 0 _ _ rfl _ _ hrun _ _ rfl⟩

end Svr3.Auth
